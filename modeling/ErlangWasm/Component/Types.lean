import ErlangWasm.Decode.Leb128
import ErlangWasm.Reasoning.Inquiry

/-!
# A component's type section

`wasm_component_types`: the type, import, alias and export sections of a component, read from bytes
nobody has checked.  References are left as `typeref` while a type is read and replaced by
`resolve`, whose calls the reading keeps as the questions it puts.
-/

namespace ErlangWasm.Component.TypeSection

open Reasoning
open Decode (Bytes)

/-! ## Types -/

/-- `valdesc()`, with the `none` of an absent payload and the `typeref` of an unresolved one. -/
inductive Desc
  | bool | s8 | u8 | s16 | u16 | s32 | u32 | s64 | u64 | f32 | f64 | char | string
  | list (elem : Desc)
  | record (fields : List (Bytes × Desc))
  | tuple (elems : List Desc)
  | variant (cases : List (Bytes × Desc))
  | enum (names : List Bytes)
  | flags (names : List Bytes)
  | option (elem : Desc)
  | result (ok err : Desc)
  | own (rt : ℕ)
  | borrow (rt : ℕ)
  | future (elem : Desc)
  | stream (elem : Desc)
  | errorContext
  | typeref (idx : ℕ)
  | none

/-- `{func, Params, Result}`, and the `sig()` made of one. -/
structure Signature where
  params : List Desc
  result : Desc

/-- `typedef()`. -/
inductive TypeDef
  | func (sig : Signature)
  | instance (exports : List (Bytes × Signature))
  | value (desc : Desc)
  | resource (dtor : Option ℕ)
  -- the atom an instance's type export leaves in its local types
  | opaqueResource
  | other

/-- `#{non_neg_integer() => typedef()}`; an entry put later hides an earlier one. -/
abbrev Types := List (ℕ × TypeDef)

def Types.put (types : Types) (idx : ℕ) (entry : TypeDef) : Types := (idx, entry) :: types

def Types.get? (types : Types) (idx : ℕ) : Option TypeDef := List.lookup idx types

/-- A descriptor to resolve, and the types to resolve it against. -/
structure Question where
  desc : Desc
  types : Types

/-! ## References -/

/-- `resolve/2`, to a bounded depth. -/
def resolve : ℕ → Desc → Types → Option Desc
  | 0, _, _ => Option.none
  | n + 1, .typeref idx, types =>
      match types.get? idx with
      | some (.value desc) => resolve n desc types
      | _ => some (.typeref idx)
  | n + 1, .list d, types => (resolve n d types).map .list
  | n + 1, .option d, types => (resolve n d types).map .option
  | n + 1, .tuple ds, types => (ds.mapM fun d => resolve n d types).map .tuple
  | n + 1, .record fs, types =>
      (fs.mapM fun f => (resolve n f.2 types).map (f.1, ·)).map .record
  | n + 1, .variant cs, types =>
      (cs.mapM fun c => (resolve n c.2 types).map (c.1, ·)).map .variant
  | n + 1, .result ok err, types => do
      let ok' ← resolve n ok types
      let err' ← resolve n err types
      return .result ok' err'
  | _ + 1, desc, _ => some desc

/-! ## Reading -/

/-- What ends a reading early. -/
inductive Exception
  | thrown (error : Decode.Error)
  | badmatch
  | functionClause
  | unsupportedInstanceDecl (tag : UInt8)

abbrev Reading := Inquiry Question Exception

def resolving (desc : Desc) (types : Types) : Reading Desc :=
  .ask (fun n q => resolve n q.desc q.types) ⟨desc, types⟩

/-- `[resolve(P, Types) || P <- Params]`. -/
def resolvingAll : List Desc → Types → Reading (List Desc)
  | [], _ => pure []
  | d :: ds, types => do
      let d' ← resolving d types
      let ds' ← resolvingAll ds types
      return d' :: ds'

/-- `wasm_leb128:u32/1`. -/
def u32 (bin : Bytes) : Reading (ℕ × Bytes) :=
  match Decode.u32 bin with
  | .ok r => pure r
  | .error e => .raise (.thrown e)

/-- `<<Content:Size/binary, Rest/binary>> = Bin`. -/
def split (size : ℕ) (bin : Bytes) : Reading (Bytes × Bytes) :=
  if size ≤ bin.length then pure (bin.take size, bin.drop size) else .raise .badmatch

def functionClause {α : Type} : Reading α := .raise .functionClause

def plainName (bin : Bytes) : Reading (Bytes × Bytes) := do
  let (len, rest0) ← u32 bin
  split len rest0

def label : Bytes → Reading (Bytes × Bytes)
  | _kind :: rest0 => plainName rest0
  | [] => functionClause

/-- The loops that read `Count` entries into a list. -/
def entries {α : Type} (entry : Bytes → Reading (α × Bytes)) :
    ℕ → Bytes → List α → Reading (List α × Bytes)
  | 0, rest, acc => pure (acc.reverse, rest)
  | n + 1, bin, acc => do
      let (a, rest) ← entry bin
      entries entry n rest (a :: acc)

/-- A vector: its count, then its entries. -/
def vector {α : Type} (entry : Bytes → Reading (α × Bytes)) (bin : Bytes) :
    Reading (List α × Bytes) := do
  let (count, rest) ← u32 bin
  entries entry count rest []

/-! ## Value types -/

section ValueTypes

variable (valtype : Bytes → Reading (Desc × Bytes))

def valtypeVec : Bytes → Reading (List Desc × Bytes) := vector valtype

/-- A label and a value type. -/
def namedType (bin : Bytes) : Reading ((Bytes × Desc) × Bytes) := do
  let (name, r0) ← plainName bin
  let (d, r1) ← valtype r0
  return ((name, d), r1)

def namedTypes : Bytes → Reading (List (Bytes × Desc) × Bytes) := vector (namedType valtype)

def labelVec : Bytes → Reading (List Bytes × Bytes) := vector plainName

def skipRefinement : Bytes → Reading Bytes
  | 0x00 :: r => pure r
  | 0x01 :: r0 => do
      let (_idx, r1) ← u32 r0
      return r1
  | _ => functionClause

def optValtype : Bytes → Reading (Desc × Bytes)
  | 0x00 :: r => pure (.none, r)
  | 0x01 :: r0 => valtype r0
  | _ => functionClause

def variantCase (bin : Bytes) : Reading ((Bytes × Desc) × Bytes) := do
  let (name, r0) ← plainName bin
  let (payload, r1) ← optValtype valtype r0
  let r2 ← skipRefinement r1
  return ((name, payload), r2)

def variantCases : Bytes → Reading (List (Bytes × Desc) × Bytes) := vector (variantCase valtype)

end ValueTypes

/-- The clauses of `valtype/1` that read one byte. -/
def primitive (b : UInt8) : Option Desc :=
  match b with
  | 0x7f => some .bool
  | 0x7e => some .s8
  | 0x7d => some .u8
  | 0x7c => some .s16
  | 0x7b => some .u16
  | 0x7a => some .s32
  | 0x79 => some .u32
  | 0x78 => some .s64
  | 0x77 => some .u64
  | 0x76 => some .f32
  | 0x75 => some .f64
  | 0x74 => some .char
  | 0x73 => some .string
  | 0x64 => some .errorContext
  | _ => Option.none

/-- The clauses of `valtype/1` that read on after their byte. -/
def constructed (valtype : Bytes → Reading (Desc × Bytes)) (b : UInt8) (r0 : Bytes) :
    Option (Reading (Desc × Bytes)) :=
  match b with
  | 0x70 => some do
      let (elem, r1) ← valtype r0
      return (.list elem, r1)
  | 0x72 => some do
      let (fields, r1) ← namedTypes valtype r0
      return (.record fields, r1)
  | 0x6f => some do
      let (elems, r1) ← valtypeVec valtype r0
      return (.tuple elems, r1)
  | 0x71 => some do
      let (cases, r1) ← variantCases valtype r0
      return (.variant cases, r1)
  | 0x6d => some do
      let (names, r1) ← labelVec r0
      return (.enum names, r1)
  | 0x6e => some do
      let (names, r1) ← labelVec r0
      return (.flags names, r1)
  | 0x6b => some do
      let (elem, r1) ← valtype r0
      return (.option elem, r1)
  | 0x6a => some do
      let (ok, r1) ← optValtype valtype r0
      let (err, r2) ← optValtype valtype r1
      return (.result ok err, r2)
  | 0x69 => some do
      let (rt, r1) ← u32 r0
      return (.own rt, r1)
  | 0x68 => some do
      let (rt, r1) ← u32 r0
      return (.borrow rt, r1)
  | 0x66 => some do
      let (elem, r1) ← optValtype valtype r0
      return (.future elem, r1)
  | 0x65 => some do
      let (elem, r1) ← optValtype valtype r0
      return (.stream elem, r1)
  | _ => Option.none

/-- Any other byte starts an index. -/
def reference (bin : Bytes) : Reading (Desc × Bytes) := do
  let (idx, r) ← u32 bin
  return (.typeref idx, r)

/-- `valtype/1`, to a bounded depth. -/
def valtypeTo : ℕ → Bytes → Reading (Desc × Bytes)
  | 0, _ => .stuck
  | _ + 1, [] => reference []
  | n + 1, b :: r0 =>
      match primitive b with
      | some desc => pure (desc, r0)
      | Option.none => (constructed (valtypeTo n) b r0).getD (reference (b :: r0))

/-- `valtype/1`: each nested type takes a byte, so the bytes bound the depth. -/
def valtype (bin : Bytes) : Reading (Desc × Bytes) := valtypeTo (bin.length + 1) bin

/-! ## Functions -/

def funcParams (bin : Bytes) : Reading (List Desc × Bytes) := do
  let (params, rest) ← namedTypes valtype bin
  return (params.map (·.2), rest)

def skipResults : ℕ → Bytes → Reading Bytes
  | 0, rest => pure rest
  | n + 1, bin => do
      let (_name, rest0) ← plainName bin
      let (_desc, rest1) ← valtype rest0
      skipResults n rest1

def namedResult : ℕ → Bytes → Reading (Desc × Bytes)
  | 0, rest => pure (.none, rest)
  | n + 1, bin => do
      let (_name, rest0) ← plainName bin
      let (desc, rest1) ← valtype rest0
      let rest ← skipResults n rest1
      return (desc, rest)

def funcResult : Bytes → Reading (Desc × Bytes)
  | 0x00 :: rest0 => valtype rest0
  | 0x01 :: rest0 => do
      let (count, rest1) ← u32 rest0
      namedResult count rest1
  | _ => functionClause

/-! ## Externs, sorts and aliases -/

inductive Bound
  | eq (idx : ℕ)
  | subResource

inductive ExternDesc
  | func (idx : ℕ)
  | instance (idx : ℕ)
  | type (bound : Bound)
  | coreModule (idx : ℕ)
  | value (idx : ℕ)
  | valueOf (desc : Desc)
  | sort (sort : UInt8) (idx : ℕ)

def externdesc : Bytes → Reading (ExternDesc × Bytes)
  | 0x01 :: rest0 => do
      let (idx, rest1) ← u32 rest0
      return (.func idx, rest1)
  | 0x05 :: rest0 => do
      let (idx, rest1) ← u32 rest0
      return (.instance idx, rest1)
  | 0x03 :: 0x00 :: rest0 => do
      let (idx, rest1) ← u32 rest0
      return (.type (.eq idx), rest1)
  | 0x03 :: 0x01 :: rest => pure (.type .subResource, rest)
  | 0x00 :: 0x11 :: rest0 => do
      let (idx, rest1) ← u32 rest0
      return (.coreModule idx, rest1)
  | 0x02 :: 0x00 :: rest0 => do
      let (idx, rest1) ← u32 rest0
      return (.value idx, rest1)
  | 0x02 :: 0x01 :: rest0 => do
      let (desc, rest1) ← valtype rest0
      return (.valueOf desc, rest1)
  | sort :: rest0 => do
      let (idx, rest1) ← u32 rest0
      return (.sort sort idx, rest1)
  | [] => functionClause

inductive DefSort
  | core
  | type
  | other
  deriving DecidableEq

def sort : Bytes → Reading (DefSort × Bytes)
  | 0x00 :: _coreSort :: rest => pure (.core, rest)
  | 0x03 :: rest => pure (.type, rest)
  | _sort :: rest => pure (.other, rest)
  | [] => functionClause

def externSort : ExternDesc → DefSort
  | .type _ => .type
  | _ => .other

def aliasTarget : Bytes → Reading Bytes
  | 0x02 :: rest0 => do
      let (_ct, rest1) ← u32 rest0
      let (_idx, rest2) ← u32 rest1
      return rest2
  | kind :: rest0 =>
      if kind = 0x00 ∨ kind = 0x01 then do
        let (_inst, rest1) ← u32 rest0
        let (_name, rest2) ← plainName rest1
        return rest2
      else functionClause
  | [] => functionClause

def aliasDecl (bin : Bytes) : Reading (DefSort × Bytes) := do
  let (sort, rest0) ← sort bin
  let rest ← aliasTarget rest0
  return (sort, rest)

/-- A type index space being filled: the next index, and what has been put. -/
abbrev Space := ℕ × Types

def otherIfType (sort : DefSort) (ia : Space) : Space :=
  match sort with
  | .type => (ia.1 + 1, ia.2.put ia.1 .other)
  | _ => ia

def skipAscription : Bytes → Reading Bytes
  | 0x00 :: rest => pure rest
  | 0x01 :: rest0 => do
      let (_desc, rest1) ← externdesc rest0
      return rest1
  | _ => functionClause

/-! ## Type definitions -/

def resolveFunc (typeIdx : ℕ) (locals : Types) : Reading Signature :=
  match locals.get? typeIdx with
  | some (.func sig) => do
      let params ← resolvingAll sig.params locals
      let result ← resolving sig.result locals
      return ⟨params, result⟩
  | _ => pure ⟨[], .none⟩

/-- One declaration: what is left of the bytes, the local types and the exports after it. -/
def instanceDecl (deftype : Bytes → Reading (TypeDef × Bytes)) (space : Space)
    (exports : List (Bytes × Signature)) :
    Bytes → Reading ((Space × List (Bytes × Signature)) × Bytes)
  | 0x01 :: rest0 => do
      let (entry, rest1) ← deftype rest0
      return (((space.1 + 1, space.2.put space.1 entry), exports), rest1)
  | 0x04 :: rest0 => do
      let (name, rest1) ← label rest0
      let (desc, rest2) ← externdesc rest1
      match desc with
      | .func typeIdx =>
          let sig ← resolveFunc typeIdx space.2
          return ((space, (name, sig) :: exports), rest2)
      | .type _bound =>
          return (((space.1 + 1, space.2.put space.1 .opaqueResource), exports), rest2)
      | _ => return ((space, exports), rest2)
  | 0x02 :: rest0 => do
      let (sort, rest1) ← aliasDecl rest0
      return ((otherIfType sort space, exports), rest1)
  | 0x03 :: rest0 => do
      let (_name, rest1) ← label rest0
      let (desc, rest2) ← externdesc rest1
      return ((otherIfType (externSort desc) space, exports), rest2)
  | tag :: _ => .raise (.unsupportedInstanceDecl tag)
  | [] => functionClause

/-- `instance_decls/5`. -/
def instanceDeclsLoop (deftype : Bytes → Reading (TypeDef × Bytes)) :
    ℕ → Bytes → Space → List (Bytes × Signature) → Reading (List (Bytes × Signature) × Bytes)
  | 0, rest, _, exports => pure (exports.reverse, rest)
  | n + 1, bin, space, exports => do
      let ((space', exports'), rest) ← instanceDecl deftype space exports bin
      instanceDeclsLoop deftype n rest space' exports'

def instanceDecls (deftype : Bytes → Reading (TypeDef × Bytes)) (bin : Bytes) :
    Reading (List (Bytes × Signature) × Bytes) := do
  let (count, rest) ← u32 bin
  instanceDeclsLoop deftype count rest (0, []) []

/-- `deftype/1`, to a bounded depth. -/
def deftypeTo : ℕ → Bytes → Reading (TypeDef × Bytes)
  | 0, _ => .stuck
  | _ + 1, 0x40 :: rest0 => do
      let (params, rest1) ← funcParams rest0
      let (result, rest2) ← funcResult rest1
      return (.func ⟨params, result⟩, rest2)
  | n + 1, 0x42 :: rest0 => do
      let (decls, rest1) ← instanceDecls (deftypeTo n) rest0
      return (.instance decls, rest1)
  | n + 1, 0x41 :: rest0 => do
      let (_decls, rest1) ← instanceDecls (deftypeTo n) rest0
      return (.other, rest1)
  | _ + 1, 0x3f :: _rep :: 0x00 :: rest => pure (.resource Option.none, rest)
  | _ + 1, 0x3f :: _rep :: 0x01 :: rest0 => do
      let (dtor, rest1) ← u32 rest0
      return (.resource (some dtor), rest1)
  | _ + 1, bin => do
      let (desc, rest) ← valtype bin
      return (.value desc, rest)

/-- `deftype/1`: each nested definition takes a byte. -/
def deftype (bin : Bytes) : Reading (TypeDef × Bytes) := deftypeTo (bin.length + 1) bin

/-! ## Sections -/

def secType : UInt8 := 7
def secAlias : UInt8 := 6
def secCompImport : UInt8 := 10
def secExport : UInt8 := 11

/-- A section's id, its content and what follows it. -/
def sectionOf (secId : UInt8) (rest0 : Bytes) : Reading ((UInt8 × Bytes) × Bytes) := do
  let (size, rest1) ← u32 rest0
  let (content, rest2) ← split size rest1
  return ((secId, content), rest2)

/-- `collect/3`, for so many sections at most. -/
def collectTo (id : UInt8) : ℕ → Bytes → Bytes → Reading Bytes
  | _, [], acc => pure acc
  | 0, _ :: _, _ => .stuck
  | n + 1, secId :: rest0, acc => do
      let ((secId, content), rest2) ← sectionOf secId rest0
      if secId = id then collectTo id n rest2 (acc ++ content) else collectTo id n rest2 acc

def collect (id : UInt8) (sec : Bytes) : Reading Bytes := collectTo id sec.length sec []

/-- Fold over a vector of `count` entries. -/
def each {σ : Type} (step : Bytes → σ → Reading (σ × Bytes)) : ℕ → Bytes → σ → Reading σ
  | 0, _, acc => pure acc
  | n + 1, bin, acc => do
      let (acc1, rest) ← step bin acc
      each step n rest acc1

def eachOf {σ : Type} (step : Bytes → σ → Reading (σ × Bytes)) (content : Bytes) (acc : σ) :
    Reading σ := do
  let (count, rest) ← u32 content
  each step count rest acc

/-- What one type definition adds. -/
def typeEntry (bin : Bytes) (ia : Space) : Reading (Space × Bytes) := do
  let (entry, r) ← deftype bin
  return ((ia.1 + 1, ia.2.put ia.1 entry), r)

def aliasEntry (bin : Bytes) (ia : Space) : Reading (Space × Bytes) := do
  let (sort, r) ← aliasDecl bin
  return (otherIfType sort ia, r)

def importEntry (bin : Bytes) (ia : Space) : Reading (Space × Bytes) := do
  let (_name, r0) ← label bin
  let (desc, r1) ← externdesc r0
  return (otherIfType (externSort desc) ia, r1)

def exportEntry (bin : Bytes) (ia : Space) : Reading (Space × Bytes) := do
  let (_name, r0) ← label bin
  let (sort, r1) ← sort r0
  let (_sortIdx, r2) ← u32 r1
  let r ← skipAscription r2
  return (otherIfType sort ia, r)

def typeSection (secId : UInt8) (content : Bytes) (ia : Space) : Reading Space :=
  if secId = secType then eachOf typeEntry content ia
  else if secId = secAlias then eachOf aliasEntry content ia
  else if secId = secCompImport then eachOf importEntry content ia
  else if secId = secExport then eachOf exportEntry content ia
  else pure ia

/-- `type_sections/3`, for so many sections at most. -/
def typeSectionsTo : ℕ → Bytes → Space → Reading Types
  | _, [], ia => pure ia.2
  | 0, _ :: _, _ => .stuck
  | n + 1, secId :: rest0, ia => do
      let ((secId, content), rest2) ← sectionOf secId rest0
      let ia1 ← typeSection secId content ia
      typeSectionsTo n rest2 ia1

def typeSections (sec : Bytes) : Reading Types := typeSectionsTo sec.length sec (0, [])

/-- `type_space/1`. -/
def typeSpace (sec : Bytes) : Reading Types := (typeSections sec).capture fun _ => []

/-- `types_table/1`. -/
def typesTable (content : Bytes) : Reading Types := do
  let ia ← eachOf typeEntry content (0, [])
  return ia.2

/-! ## Signatures -/

def globalSig (entry : TypeDef) (types : Types) : Reading Signature :=
  match entry with
  | .func sig => do
      let params ← resolvingAll sig.params types
      let result ← resolving sig.result types
      return ⟨params, result⟩
  | _ => pure ⟨[], .none⟩

/-- `func_sig/2`. -/
def funcSig (idx : ℕ) (types : Types) : Reading (Option Signature) :=
  match types.get? idx with
  | some (.func sig) => do
      let sig' ← globalSig (.func sig) types
      return some sig'
  | _ => pure Option.none

/-! ## Imports -/

/-- `#{FuncName => sig()}`, as pairs; a later one hides an earlier. -/
abbrev Interface := List (Bytes × Signature)

def interfaceSigs : TypeDef → Interface
  | .instance exports => exports.reverse
  | _ => []

def resolveImport (types : Types) (bin : Bytes) (acc : List (Bytes × Interface)) :
    Reading (List (Bytes × Interface) × Bytes) := do
  let (name, rest0) ← label bin
  let (desc, rest1) ← externdesc rest0
  match desc with
  | .instance typeIdx =>
      return ((name, interfaceSigs ((types.get? typeIdx).getD .other)) :: acc, rest1)
  | .func typeIdx =>
      let sig ← globalSig ((types.get? typeIdx).getD .other) types
      return ((name, [(name, sig)]) :: acc, rest1)
  | _ => return (acc, rest1)

def resolveImports (content : Bytes) (types : Types) : Reading (List (Bytes × Interface)) :=
  eachOf (resolveImport types) content []

/-- What `wasm_error:capture/1` makes of an exception: the error that was thrown, or one of class
`malformed` and kind `internal` about it. -/
inductive Captured
  | error (e : Decode.Error)
  | internal (e : Exception)

def captured : Exception → Captured
  | .thrown e => .error e
  | e => .internal e

/-- `import_interfaces/1`. -/
def importInterfaces (sec : Bytes) : Reading (Except Captured (List (Bytes × Interface))) :=
  Inquiry.capture
    (do
      let content ← collect secType sec
      let types ← typesTable content
      let imports ← collect secCompImport sec
      let ifaces ← resolveImports imports types
      return .ok ifaces)
    fun e => .error (captured e)

/-! ## Destructors -/

def dtorEntry (bin : Bytes) (ia : ℕ × List (ℕ × ℕ)) : Reading ((ℕ × List (ℕ × ℕ)) × Bytes) := do
  let (entry, rest) ← deftype bin
  match entry with
  | .resource (some dtor) => return ((ia.1 + 1, (ia.1, dtor) :: ia.2), rest)
  | _ => return ((ia.1 + 1, ia.2), rest)

/-- `resource_dtors/1`. -/
def resourceDtors (sec : Bytes) : Reading (List (ℕ × ℕ)) :=
  Inquiry.capture
    (do
      let content ← collect secType sec
      let ia ← eachOf dtorEntry content (0, [])
      return ia.2)
    fun _ => []

end ErlangWasm.Component.TypeSection
