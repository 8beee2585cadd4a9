import ErlangWasm.Decode.Code

/-!
# Modules

The section loop of `wasm_decode`, the contents of each section, and the checks that need the whole
module.  Custom sections and data are kept as bytes.
-/

namespace ErlangWasm.Decode

open Reasoning

/-! ## What a module is made of -/

structure Limits where
  min : ℕ
  max : Option ℕ
  shared : Bool
  index64 : Bool
  deriving DecidableEq, Repr

inductive StorageType
  | val (t : ValType)
  | i8
  | i16
  deriving DecidableEq, Repr

structure FieldType where
  type : StorageType
  mutable_ : Bool
  deriving DecidableEq, Repr

inductive CompType
  | func (params results : List ValType)
  | struct (fields : List FieldType)
  | array (field : FieldType)
  deriving DecidableEq, Repr

structure SubType where
  final : Bool
  supers : List ℕ
  body : CompType
  deriving DecidableEq, Repr

structure TableType where
  limits : Limits
  elemtype : RefType
  init : Option (List Instr)

structure GlobalType where
  valtype : ValType
  mutable_ : Bool
  deriving DecidableEq, Repr

inductive ExternType
  | func (type : ℕ)
  | table (t : TableType)
  | mem (l : Limits)
  | global (t : GlobalType)
  | tag (type : ℕ)

structure Import where
  module : Bytes
  name : Bytes
  desc : ExternType

inductive ExternKind
  | func
  | table
  | mem
  | global
  | tag
  deriving DecidableEq, Repr

structure Export where
  name : Bytes
  kind : ExternKind
  idx : ℕ
  deriving DecidableEq, Repr

structure Global where
  type : GlobalType
  init : List Instr

structure Func where
  type : ℕ
  locals : List ValType
  body : List Instr

inductive SegmentMode
  | passive
  | declarative
  | active (idx : ℕ) (offset : List Instr)

structure Elem where
  type : RefType
  init : List (List Instr)
  mode : SegmentMode

structure Data where
  init : Bytes
  mode : SegmentMode

/-- `#module{}`. -/
structure Module where
  types : List SubType
  recGroups : List (ℕ × ℕ)
  imports : List Import
  funcs : List Func
  tables : List TableType
  mems : List Limits
  tags : List ℕ
  globals : List Global
  exports : List Export
  start : Option ℕ
  elems : List Elem
  datas : List Data
  dataCount : Option ℕ
  customs : List (Bytes × Bytes)

def Module.empty : Module where
  types := []
  recGroups := []
  imports := []
  funcs := []
  tables := []
  mems := []
  tags := []
  globals := []
  exports := []
  start := none
  elems := []
  datas := []
  dataCount := none
  customs := []

/-! ## Contents of the sections -/

/-- The byte of a field's or a global's mutability. -/
def mutability (reading : String) : Reader Bool := do
  let b ← byte reading
  if b = 0 then pure false
  else if b = 1 then pure true
  else refuse .malformedMutability "malformed mutability" [("byte", .int b.toNat)]

/-- `storagetype/1`. -/
def storagetype : Reader StorageType := do
  let b ← byte "valtype"
  if b = 0x78 then pure .i8
  else if b = 0x77 then pure .i16
  else do
    let t ← valtypeFrom b
    pure (.val t)

/-- `fieldtype/1`. -/
def fieldtype : Reader FieldType := do
  let t ← storagetype
  let m ← mutability "fieldtype"
  pure { type := t, mutable_ := m }

/-- `comptype/1` and `functype/1`, from the first byte on. -/
def comptypeFrom (b : UInt8) : Reader CompType :=
  if b = 0x5E then do
    let f ← fieldtype
    pure (.array f)
  else if b = 0x5F then do
    let fs ← vec fieldtype
    pure (.struct fs)
  else if b = 0x60 then do
    let params ← vec valtype
    let results ← vec valtype
    pure (.func params results)
  else refuse .malformedFunctype "integer representation too long" [("byte", .int b.toNat)]

/-- `subtype/1`, from the first byte on. -/
def subtypeFrom (b : UInt8) : Reader SubType :=
  if b = 0x50 then declared false
  else if b = 0x4F then declared true
  else do
    let ct ← comptypeFrom b
    pure { final := true, supers := [], body := ct }
where
  -- `subtype_with/2`
  declared (final : Bool) : Reader SubType := do
    let supers ← vec readU32
    let b ← byte "functype"
    let ct ← comptypeFrom b
    pure { final := final, supers := supers, body := ct }

def subtype : Reader SubType := do
  let b ← byte "functype"
  subtypeFrom b

/-- `rectype/1`. -/
def rectype : Reader (List SubType) := do
  let b ← byte "functype"
  if b = 0x4E then vec subtype
  else do
    let t ← subtypeFrom b
    pure [t]

/-- `flatten_groups/1`: the types in order, and where each group begins and how many it has. -/
def flattenGroups (groups : List (List SubType)) : List SubType × List (ℕ × ℕ) :=
  (groups.flatten, bounds 0 groups)
where
  bounds (offset : ℕ) : List (List SubType) → List (ℕ × ℕ)
    | [] => []
    | g :: gs => (offset, g.length) :: bounds (offset + g.length) gs

/-- `limits/1`. -/
def limits : Reader Limits := do
  let b ← byte "limits"
  if b < 8 then do
    let min ← readU64
    let max ← if b &&& 1 = 1 then some <$> readU64 else pure none
    pure { min := min, max := max, shared := b &&& 2 = 2, index64 := b &&& 4 = 4 }
  else refuse .malformedLimits "integer too large" [("flags", .int b.toNat)]

/-- `tabletype/1`. -/
def tabletype : Reader TableType := do
  let b ← byte "reftype"
  let next ← Reader.peek
  if b = 0x40 ∧ next = some 0 then do
    let _ ← byte "reftype"
    let et ← reftype
    let l ← limits
    let init ← expr
    pure { limits := l, elemtype := et, init := some init }
  else
    match reftypeFrom b with
    | some r => do
        let et ← r
        let l ← limits
        pure { limits := l, elemtype := et, init := none }
    | none => refuse .malformedReferenceType "malformed reference type" [("byte", .int b.toNat)]

/-- `tagtype/1`. -/
def tagtype : Reader ℕ := do
  let b ← byte "tagtype"
  if b = 0 then readU32
  else refuse .malformedTagAttribute "malformed tag attribute" [("byte", .int b.toNat)]

/-- `globaltype/1`. -/
def globaltype : Reader GlobalType := do
  let t ← valtype
  let m ← mutability "mutability"
  pure { valtype := t, mutable_ := m }

/-- `importdesc/1`. -/
def importdesc : Reader ExternType := do
  let b ← byte "importdesc"
  if b = 0 then .func <$> readU32
  else if b = 1 then .table <$> tabletype
  else if b = 2 then .mem <$> limits
  else if b = 3 then .global <$> globaltype
  else if b = 4 then .tag <$> tagtype
  else refuse .malformedImportKind "malformed import kind" [("byte", .int b.toNat)]

def import_ : Reader Import := do
  let m ← name
  let n ← name
  let d ← importdesc
  pure { module := m, name := n, desc := d }

/-- `exportkind/1`. -/
def exportkind : Reader ExternKind := do
  let b ← byte "exportkind"
  if b = 0 then pure .func
  else if b = 1 then pure .table
  else if b = 2 then pure .mem
  else if b = 3 then pure .global
  else if b = 4 then pure .tag
  else refuse .malformedExportKind "malformed export kind" [("byte", .int b.toNat)]

def export_ : Reader Export := do
  let n ← name
  let k ← exportkind
  let i ← readU32
  pure { name := n, kind := k, idx := i }

def global : Reader Global := do
  let t ← globaltype
  let init ← expr
  pure { type := t, init := init }

/-- `elemkind/1`. -/
def elemkind : Reader Unit := do
  let b ← byte "elemkind"
  if b = 0 then pure ()
  else refuse .malformedElemKind "malformed element kind" [("byte", .int b.toNat)]

/-- `{ref, nonull, func}`, of a segment that is a vector of function indices. -/
def funcsType : RefType := { nullable := false, heap := .func }

/-- `ref_func_exprs/1`. -/
def refFuncExprs (funcs : List ℕ) : List (List Instr) :=
  funcs.map fun f => [.other ⟨none, 0xD2⟩ [.index f]]

/-- `elem/1`. -/
def elem : Reader Elem := do
  let flags ← readU32
  if flags = 0 then do
    let offset ← expr
    let funcs ← vec readU32
    pure { type := funcsType, init := refFuncExprs funcs, mode := .active 0 offset }
  else if flags = 1 then do
    elemkind
    let funcs ← vec readU32
    pure { type := funcsType, init := refFuncExprs funcs, mode := .passive }
  else if flags = 2 then do
    let table ← readU32
    let offset ← expr
    elemkind
    let funcs ← vec readU32
    pure { type := funcsType, init := refFuncExprs funcs, mode := .active table offset }
  else if flags = 3 then do
    elemkind
    let funcs ← vec readU32
    pure { type := funcsType, init := refFuncExprs funcs, mode := .declarative }
  else if flags = 4 then do
    let offset ← expr
    let exprs ← vec expr
    pure { type := { nullable := true, heap := .func }, init := exprs, mode := .active 0 offset }
  else if flags = 5 then do
    let t ← reftype
    let exprs ← vec expr
    pure { type := t, init := exprs, mode := .passive }
  else if flags = 6 then do
    let table ← readU32
    let offset ← expr
    let t ← reftype
    let exprs ← vec expr
    pure { type := t, init := exprs, mode := .active table offset }
  else if flags = 7 then do
    let t ← reftype
    let exprs ← vec expr
    pure { type := t, init := exprs, mode := .declarative }
  else refuse .malformedElemSegment "malformed element segment" [("flags", .int flags)]

/-- `data/1`. -/
def data : Reader Data := do
  let flags ← readU32
  if flags = 0 then do
    let offset ← expr
    let b ← bytevec
    pure { init := b, mode := .active 0 offset }
  else if flags = 1 then do
    let b ← bytevec
    pure { init := b, mode := .passive }
  else if flags = 2 then do
    let mem ← readU32
    let offset ← expr
    let b ← bytevec
    pure { init := b, mode := .active mem offset }
  else refuse .malformedDataSegment "malformed data segment" [("flags", .int flags)]

/-- `locals_entry/1`. -/
def localsEntry : Reader (ℕ × ValType) := do
  let n ← readU32
  let t ← valtype
  pure (n, t)

/-- `expand_locals/1`. -/
def expandLocals (groups : List (ℕ × ValType)) : Except Error (List ValType) :=
  let total := (groups.map (·.1)).sum
  if 0xFFFFFFFF < total then
    malformed .tooManyLocals "too many locals" [("count", .int total)]
  else if 1000000 < total then
    .error { cls := .exhaustion, kind := .tooManyLocals, msg := "too_many_locals",
             ctx := [("count", .int total)] }
  else .ok (groups.flatMap fun (n, t) => .replicate n t)

/-- `code/1`: locals and an expression, in exactly the bytes declared for them. -/
def code : Reader (List ValType × List Instr) := do
  let size ← readU32
  let body ← .take size fun remaining =>
    { cls := .malformed, kind := .unexpectedEnd, msg := "unexpected end of section or function",
      ctx := [("declared_size", .int size), ("remaining", .int remaining)] }
  .lift (contents body)
where
  contents (body : Bytes) : Except Error (List ValType × List Instr) := do
    let (locals, body1) ← (vec localsEntry).run body
    let (is, body2) ← expr.run body1
    if body2 = [] then do
      let ls ← expandLocals locals
      pure (ls, is)
    else
      malformed .functionSizeMismatch "section size mismatch" [("trailing", .int body2.length)]

/-! ## Sections -/

/-- `exact/3`. -/
def exact {α : Type} (body : Bytes) (p : Reader α) (what : String) : Except Error α := do
  let (value, left) ← p.run body
  if left = [] then pure value
  else
    malformed .sectionSizeMismatch "section size mismatch"
      [("section", .name what), ("trailing", .int left.length)]

/-- `merge_code/2`. -/
def mergeCode (funcs : List Func) (bodies : List (List ValType × List Instr)) :
    Except Error (List Func) :=
  if funcs.length = bodies.length then
    .ok (List.zipWith (fun f (l, b) => { f with locals := l, body := b }) funcs bodies)
  else
    malformed .functionCodeMismatch "function and code section have inconsistent lengths"
      [("functions", .int funcs.length), ("bodies", .int bodies.length)]

/-- `?SEC_DATACOUNT`. -/
def secDataCount : UInt8 := 12

/-- `order_rank/1`. -/
def orderRank (id : UInt8) : Except Error ℕ :=
  match id with
  | 1 => .ok 1
  | 2 => .ok 2
  | 3 => .ok 3
  | 4 => .ok 4
  | 5 => .ok 5
  | 13 => .ok 6
  | 6 => .ok 7
  | 7 => .ok 8
  | 8 => .ok 9
  | 9 => .ok 10
  | 12 => .ok 11
  | 10 => .ok 12
  | 11 => .ok 13
  | id => malformed .malformedSectionId "malformed section id" [("section", .int id.toNat)]

/-- `decode_section/3`, on the ids that have a rank. -/
def decodeSection (id : UInt8) (body : Bytes) (m : Module) : Except Error Module :=
  if id = 1 then
    (exact body (vec rectype) "type").map fun groups =>
      { m with types := (flattenGroups groups).1, recGroups := (flattenGroups groups).2 }
  else if id = 2 then (exact body (vec import_) "import").map fun is => { m with imports := is }
  else if id = 3 then
    (exact body (vec readU32) "function").map fun idx =>
      { m with funcs := idx.map fun t => { type := t, locals := [], body := [] } }
  else if id = 4 then (exact body (vec tabletype) "table").map fun ts => { m with tables := ts }
  else if id = 5 then (exact body (vec limits) "memory").map fun ms => { m with mems := ms }
  else if id = 13 then (exact body (vec tagtype) "tag").map fun ts => { m with tags := ts }
  else if id = 6 then (exact body (vec global) "global").map fun gs => { m with globals := gs }
  else if id = 7 then (exact body (vec export_) "export").map fun es => { m with exports := es }
  else if id = 8 then (exact body readU32 "start").map fun f => { m with start := some f }
  else if id = 9 then (exact body (vec elem) "element").map fun es => { m with elems := es }
  else if id = secDataCount then
    (exact body readU32 "data_count").map fun n => { m with dataCount := some n }
  else if id = 10 then
    ((exact body (vec code) "code").bind (mergeCode m.funcs)).map fun fs => { m with funcs := fs }
  else (exact body (vec data) "data").map fun ds => { m with datas := ds }

/-- `custom/3`. -/
def custom (name payload : Bytes) (m : Module) : Module :=
  if (Bytes.ascii ".debug_").isPrefixOf name then m
  else { m with customs := m.customs ++ [(name, payload)] }

/-- What the section loop carries: the rank of the last section, the ids seen, the module. -/
structure Loop where
  rank : ℕ
  seen : List UInt8
  m : Module

/-- `section/5`. -/
def section_ (id : UInt8) (body : Bytes) (l : Loop) : Except Error Loop :=
  if id = 0 then do
    let (n, payload) ← name.run body
    pure { l with m := custom n payload l.m }
  else do
    let rank ← orderRank id
    if l.rank < rank then do
      let m ← decodeSection id body l.m
      pure { rank := rank, seen := id :: l.seen, m := m }
    else
      malformed .sectionOutOfOrder "junk after last section"
        [("section", .int id.toNat), ("previous_rank", .int l.rank)]

/-- The size of a section and its body, after its id. -/
def sectionBody (id : UInt8) : Reader Bytes := do
  let size ← readU32
  .take size fun remaining =>
    { cls := .malformed, kind := .unexpectedEnd, msg := "unexpected end of section or function",
      ctx := [("section", .int id.toNat), ("declared_size", .int size),
        ("remaining", .int remaining)] }

/-- `sections/4`, on at most as many sections as there are bytes left. -/
def sections : ℕ → Bytes → Loop → Except Error Loop
  | _, [], l => .ok l
  | 0, _ :: _, l => .ok l
  | n + 1, id :: rest, l => do
      let (body, rest) ← (sectionBody id).run rest
      let l ← section_ id body l
      sections n rest l

/-- A section takes a byte at least, so the bytes left are sections enough. -/
theorem sections_stable {n k : ℕ} {bin : Bytes} (hn : bin.length ≤ n) (hk : bin.length ≤ k)
    (l : Loop) : sections n bin l = sections k bin l := by
  induction n generalizing k bin l with
  | zero =>
    obtain rfl : bin = [] := List.length_eq_zero_iff.mp (by omega)
    cases k <;> rfl
  | succ n ih =>
    cases bin with
    | nil => cases k <;> rfl
    | cons id rest =>
      rw [List.length_cons] at hn hk
      obtain ⟨k, rfl⟩ : ∃ j, k = j + 1 := ⟨k - 1, by omega⟩
      rw [sections, sections]
      cases hb : (sectionBody id).run rest with
      | error e => rfl
      | ok r =>
        have hshrinks := (sectionBody id).shrinks hb
        show ((section_ id r.1 l).bind fun l => sections n r.2 l) =
          (section_ id r.1 l).bind fun l => sections k r.2 l
        cases section_ id r.1 l with
        | error e => rfl
        | ok l' => exact ih (by omega) (by omega) l'

/-! ## The checks that need the whole module -/

mutual

/-- `uses_data_index/1`. -/
def usesDataIndex : List Instr → Bool
  | [] => false
  | i :: rest => instrUsesDataIndex i || usesDataIndex rest

def instrUsesDataIndex : Instr → Bool
  | .memoryInit _ _ => true
  | .dataDrop _ => true
  | .block _ body => usesDataIndex body
  | .loop _ body => usesDataIndex body
  | .if_ _ then_ else_ => usesDataIndex then_ || usesDataIndex else_
  | .tryTable _ _ _ => false
  | .arrayNewData _ _ => false
  | .arrayInitData _ _ => false
  | .other _ _ => false

end

def dataCountRequired : Error :=
  { cls := .malformed, kind := .dataCountSectionRequired, msg := "data count section required",
    ctx := [] }

/-- `check_data_count_required/1`. -/
def checkDataCountRequired (m : Module) : Except Error Unit :=
  if m.dataCount.isSome then .ok ()
  else if m.funcs.any fun f => usesDataIndex f.body then .error dataCountRequired
  else .ok ()

def dataCountMismatch (declared actual : ℕ) : Error :=
  { cls := .malformed, kind := .dataCountMismatch,
    msg := "data count and data section have inconsistent lengths",
    ctx := [("declared", .int declared), ("actual", .int actual)] }

/-- `check_data_count/1`. -/
def checkDataCount (m : Module) : Except Error Unit :=
  match m.dataCount with
  | none => .ok ()
  | some n =>
      if n = m.datas.length then .ok () else .error (dataCountMismatch n m.datas.length)

/-- `check_func_code_pairing/2`. -/
def checkFuncCodePairing (m : Module) (seen : List UInt8) : Except Error Unit :=
  if m.funcs.isEmpty then .ok ()
  else
    match decide (3 ∈ seen), decide (10 ∈ seen) with
    | true, true => .ok ()
    | true, false =>
        malformed .functionCodeMismatch "function and code section have inconsistent lengths"
          [("functions", .int m.funcs.length), ("bodies", .int 0)]
    | false, true =>
        malformed .functionCodeMismatch "function and code section have inconsistent lengths"
          [("functions", .int 0), ("bodies", .int m.funcs.length)]
    | false, false => .ok ()

/-- `post_check/2`. -/
def postCheck (m : Module) (seen : List UInt8) : Except Error Module := do
  checkFuncCodePairing m seen
  checkDataCount m
  checkDataCountRequired m
  pure m

/-- `"\0asm"`. -/
def magic : Bytes := [0x00, 0x61, 0x73, 0x6D]

/-- `module_unchecked/1`. -/
def moduleUnchecked (bin : Bytes) : Except Error Module :=
  if bin.length < 8 then
    malformed .unexpectedEnd "unexpected end" [("size", .int bin.length)]
  else if bin.take 4 ≠ magic then
    malformed .magicHeaderNotDetected "magic header not detected" []
  else if Bytes.ofLe ((bin.drop 4).take 4) ≠ 1 then
    malformed .unknownBinaryVersion "unknown binary version"
      [("version", .int (Bytes.ofLe ((bin.drop 4).take 4)))]
  else do
    let l ← sections bin.length (bin.drop 8) { rank := 0, seen := [], m := .empty }
    postCheck l.m l.seen

end ErlangWasm.Decode
