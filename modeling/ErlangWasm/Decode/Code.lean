import ErlangWasm.Decode.Types
import ErlangWasm.Num.Bits

/-!
# Instructions

`wasm_decode_code`, and the opcode spaces `wasm_decode_gc`, `wasm_decode_simd` and
`wasm_decode_atomic` behind their prefixes.  Blocks nest; an instruction that is neither a block
nor the name of a data segment is kept as its opcode and its immediates.
-/

namespace ErlangWasm.Decode

open Reasoning Num

inductive BlockType
  | empty
  | valtype (t : ValType)
  | typeidx (n : ℕ)
  deriving DecidableEq, Repr

structure MemArg where
  align : ℕ
  offset : ℕ
  mem : ℕ
  deriving DecidableEq, Repr

inductive CatchKind
  | catch_
  | catchRef
  | catchAll
  | catchAllRef
  deriving DecidableEq, Repr

/-- `{Kind, TagIdx | undefined, LabelIdx}`. -/
structure Catch where
  kind : CatchKind
  tag : Option ℕ
  label : ℕ
  deriving DecidableEq, Repr

/-- An opcode, under a prefix or not: the atom that names an instruction. -/
structure Opcode where
  under : Option UInt8
  sub : ℕ
  deriving DecidableEq, Repr

inductive Imm
  | index (n : ℕ)
  | int (v : ℤ)
  | float (f : RuntimeFloat)
  | bytes (b : Bytes)
  | indices (l : List ℕ)
  | types (l : List ValType)
  | ref (t : RefType)
  | mem (m : MemArg)
  deriving DecidableEq

inductive Instr
  | block (bt : BlockType) (body : List Instr)
  | loop (bt : BlockType) (body : List Instr)
  | if_ (bt : BlockType) (then_ else_ : List Instr)
  | tryTable (bt : BlockType) (catches : List Catch) (body : List Instr)
  | memoryInit (data mem : ℕ)
  | dataDrop (data : ℕ)
  | arrayNewData (type data : ℕ)
  | arrayInitData (type data : ℕ)
  | other (op : Opcode) (imms : List Imm)

/-! ## Immediates -/

/-- `blocktype/1`. -/
def blocktype : Reader BlockType := do
  let x ← readS33
  if x = -64 then pure .empty
  else if x = -1 then pure (.valtype .i32)
  else if x = -2 then pure (.valtype .i64)
  else if x = -3 then pure (.valtype .f32)
  else if x = -4 then pure (.valtype .f64)
  else if x = -5 then pure (.valtype .v128)
  else if x = -16 then short .func
  else if x = -17 then short .external
  else if x = -13 then short .nofunc
  else if x = -14 then short .noExternal
  else if x = -18 then short .any
  else if x = -19 then short .eq
  else if x = -20 then short .i31
  else if x = -21 then short .struct
  else if x = -22 then short .array
  else if x = -15 then short .none
  else if x = -23 then short .exn
  else if x = -12 then short .noexn
  else if x = -29 then general true
  else if x = -28 then general false
  else if 0 ≤ x then pure (.typeidx x.toNat)
  else refuse .malformedBlockType "malformed block type" [("code", .int x)]
where
  short (ht : HeapType) : Reader BlockType :=
    pure (.valtype (.ref { nullable := true, heap := ht }))
  -- `ref_blocktype/2`
  general (nullable : Bool) : Reader BlockType := do
    let ht ← heaptype
    pure (.valtype (.ref { nullable := nullable, heap := ht }))

/-- `mem_arg/2`. -/
def memArg : Reader MemArg := do
  let flags ← readU32
  if 128 ≤ flags then
    refuse .malformedMemopFlags "malformed memop flags" [("flags", .int flags)]
  else if 64 ≤ flags then do
    -- bit 6 says that a memory index follows
    let mem ← readU32
    let offset ← readU64
    pure { align := flags - 64, offset := offset, mem := mem }
  else do
    let offset ← readU64
    pure { align := flags, offset := offset, mem := 0 }

/-- `catch_clause/1`. -/
def catchClause : Reader Catch := do
  let b ← byte "catch_clause"
  if b = 0 then tagged .catch_
  else if b = 1 then tagged .catchRef
  else if b = 2 then untagged .catchAll
  else if b = 3 then untagged .catchAllRef
  else refuse .malformedCatchClause "malformed catch clause" [("byte", .int b.toNat)]
where
  -- `tagged_catch/2`
  tagged (kind : CatchKind) : Reader Catch := do
    let tag ← readU32
    let label ← readU32
    pure { kind := kind, tag := some tag, label := label }
  untagged (kind : CatchKind) : Reader Catch := do
    let label ← readU32
    pure { kind := kind, tag := none, label := label }

/-- The refusal of sixteen bytes or a lane index that is not there. -/
def opEnd (op : Opcode) : Error :=
  { cls := .malformed, kind := .unexpectedEnd, msg := "unexpected end",
    ctx := [("op", .op op.under op.sub)] }

def illegal (under : Option UInt8) (op : ℕ) : Reader Instr :=
  match under with
  | none => refuse .illegalOpcode "illegal opcode" [("opcode", .int op)]
  | some p => refuse .illegalOpcode "illegal opcode" [("opcode", .int p.toNat), ("sub", .int op)]

/-! ## The shapes of an instruction -/

section

variable (op : Opcode)

def plain : Reader Instr := pure (.other op [])

/-- `u32_arg/2` and `type_arg/2`. -/
def u32Arg : Reader Instr := do
  let n ← readU32
  pure (.other op [.index n])

/-- Two indices: `type_pair/2`, `type_field/2` and the instructions written out like them. -/
def u32Pair : Reader Instr := do
  let a ← readU32
  let b ← readU32
  pure (.other op [.index a, .index b])

def memOp : Reader Instr := do
  let m ← memArg
  pure (.other op [.mem m])

/-- `mem_lane/2`. -/
def memLane : Reader Instr := do
  let m ← memArg
  let lane ← .item (opEnd op)
  pure (.other op [.mem m, .index lane.toNat])

/-- `lane/2`. -/
def laneOp : Reader Instr := do
  let lane ← .item (opEnd op)
  pure (.other op [.index lane.toNat])

def sixteen : Reader Instr := do
  let b ← .take 16 fun _ => opEnd op
  pure (.other op [.bytes b])

/-- `cast/3`. -/
def castOp (nullable : Bool) : Reader Instr := do
  let ht ← heaptype
  pure (.other op [.ref { nullable := nullable, heap := ht }])

/-- `br_on_cast/2`. -/
def brOnCast : Reader Instr := do
  let flags ← byte "br_on_cast"
  if flags ≤ 3 then do
    let label ← readU32
    let from_ ← heaptype
    let to_ ← heaptype
    pure (.other op [.index label, .ref { nullable := flags &&& 1 = 1, heap := from_ },
      .ref { nullable := flags >>> 1 = 1, heap := to_ }])
  else refuse .malformedCastFlags "malformed cast flags" [("flags", .int flags.toNat)]

/-- A little-endian float of `n` bytes. -/
def floatConst (n : ℕ) (reading : String) (value : ℕ → RuntimeFloat) : Reader Instr := do
  let b ← .take n fun _ =>
    { cls := .malformed, kind := .unexpectedEnd, msg := "unexpected end",
      ctx := [("reading", .name reading)] }
  pure (.other op [.float (value (Bytes.ofLe b))])

end

/-! ## The prefixes -/

/-- `instr_fc/2`. -/
def instrFc : Reader Instr := do
  let sub ← readU32
  let op : Opcode := ⟨some 0xFC, sub⟩
  if sub ≤ 7 then plain op
  else if sub = 8 then do
    let data ← readU32
    let mem ← readU32
    pure (.memoryInit data mem)
  else if sub = 9 then do
    let data ← readU32
    pure (.dataDrop data)
  else if sub = 10 ∨ sub = 12 ∨ sub = 14 then u32Pair op
  else if sub = 11 ∨ sub = 13 ∨ sub = 15 ∨ sub = 16 ∨ sub = 17 then u32Arg op
  else illegal (some 0xFC) sub

/-- `wasm_decode_gc:instr/1`. -/
def instrGc : Reader Instr := do
  let sub ← readU32
  let op : Opcode := ⟨some 0xFB, sub⟩
  if sub = 9 then do
    let type ← readU32
    let data ← readU32
    pure (.arrayNewData type data)
  else if sub = 18 then do
    let type ← readU32
    let data ← readU32
    pure (.arrayInitData type data)
  else if sub = 0 ∨ sub = 1 ∨ sub = 6 ∨ sub = 7 ∨ (11 ≤ sub ∧ sub ≤ 14) ∨ sub = 16 then u32Arg op
  else if (2 ≤ sub ∧ sub ≤ 5) ∨ sub = 8 ∨ sub = 10 ∨ sub = 17 ∨ sub = 19 then u32Pair op
  else if sub = 20 ∨ sub = 22 then castOp op false
  else if sub = 21 ∨ sub = 23 then castOp op true
  else if sub = 24 ∨ sub = 25 then brOnCast op
  else if sub = 15 ∨ (26 ≤ sub ∧ sub ≤ 30) then plain op
  else illegal (some 0xFB) sub

/-- The gaps in the vector opcodes. -/
def simdGaps : List ℕ :=
  [154, 162, 165, 166, 175, 176, 178, 179, 180, 187, 194, 197, 198, 207, 208, 210, 211, 212, 226,
    238]

/-- `wasm_decode_simd:instr/1`. -/
def instrSimd : Reader Instr := do
  let sub ← readU32
  let op : Opcode := ⟨some 0xFD, sub⟩
  if sub ≤ 11 ∨ sub = 92 ∨ sub = 93 then memOp op
  else if sub = 12 ∨ sub = 13 then sixteen op
  else if 21 ≤ sub ∧ sub ≤ 34 then laneOp op
  else if 84 ≤ sub ∧ sub ≤ 91 then memLane op
  else if sub ≤ 275 ∧ sub ∉ simdGaps then plain op
  else illegal (some 0xFD) sub

/-- `wasm_decode_atomic:instr/1`. -/
def instrAtomic : Reader Instr := do
  let sub ← readU32
  let op : Opcode := ⟨some 0xFE, sub⟩
  if sub ≤ 2 ∨ (0x10 ≤ sub ∧ sub ≤ 0x4E) then memOp op
  else if sub = 3 then do
    let b ← .item (opEnd op)
    if b = 0 then plain op
    else
      refuse .zeroByteExpected "zero byte expected"
        [("op", .op (some 0xFE) 3), ("got", .int b.toNat)]
  else illegal (some 0xFE) sub

/-! ## Expressions -/

inductive Terminator
  | end_
  | else_
  deriving DecidableEq, Repr

/-- `block_body/1`, over what reads the instructions inside. -/
def blockBody (body : Reader (List Instr × Terminator)) : Reader (List Instr) := do
  let (is, t) ← body
  match t with
  | .end_ => pure is
  | .else_ => refuse .unexpectedElse "unexpected else" []

/-- The clauses of `instr/2` for the instructions that hold no others. -/
def simpleInstr (b : UInt8) : Reader Instr :=
  let op : Opcode := ⟨none, b.toNat⟩
  if b = 0x0E then do
    let labels ← vec readU32
    let default ← readU32
    pure (.other op [.indices labels, .index default])
  else if b = 0x11 ∨ b = 0x13 then u32Pair op
  else if b = 0x1C then do
    let types ← vec valtype
    pure (.other op [.types types])
  else if b = 0xD0 then castOp op true
  else if 0x28 ≤ b ∧ b ≤ 0x3E then memOp op
  else if b = 0x41 then do
    let v ← readS32
    pure (.other op [.int v])
  else if b = 0x42 then do
    let v ← readS64
    pure (.other op [.int v])
  else if b = 0x43 then floatConst op 4 "f32" f32FromBits
  else if b = 0x44 then floatConst op 8 "f64" f64FromBits
  else if b ∈ ([0x08, 0x0C, 0x0D, 0x10, 0x12, 0x14, 0x15, 0x20, 0x21, 0x22, 0x23, 0x24, 0x25, 0x26,
      0x3F, 0x40, 0xD2, 0xD5, 0xD6] : List UInt8) then u32Arg op
  else if b = 0x00 ∨ b = 0x01 ∨ b = 0x0A ∨ b = 0x0F ∨ b = 0x1A ∨ b = 0x1B ∨
      (0x45 ≤ b ∧ b ≤ 0xC4) ∨ b = 0xD1 ∨ b = 0xD3 ∨ b = 0xD4 then plain op
  else if b = 0xFC then instrFc
  else if b = 0xFB then instrGc
  else if b = 0xFD then instrSimd
  else if b = 0xFE then instrAtomic
  else illegal none b.toNat

/-- `instr/2`, after its opcode; `body` reads the instructions of a block. -/
def instr (body : Reader (List Instr × Terminator)) (b : UInt8) : Reader Instr :=
  if b = 0x02 then do
    let bt ← blocktype
    let is ← blockBody body
    pure (.block bt is)
  else if b = 0x03 then do
    let bt ← blocktype
    let is ← blockBody body
    pure (.loop bt is)
  else if b = 0x04 then do
    let bt ← blocktype
    let (then_, t) ← body
    match t with
    | .end_ => pure (.if_ bt then_ [])
    | .else_ => do
        let else_ ← blockBody body
        pure (.if_ bt then_ else_)
  else if b = 0x1F then do
    let bt ← blocktype
    let catches ← vec catchClause
    let is ← blockBody body
    pure (.tryTable bt catches is)
  else simpleInstr b

/-- `instrs/2`, on at most as many bytes as are left. -/
def instrs : ℕ → Reader (List Instr × Terminator)
  | 0 => refuse .unexpectedEnd "unexpected end of section or function" []
  | n + 1 => do
      let b ← .item { cls := .malformed, kind := .unexpectedEnd,
                      msg := "unexpected end of section or function", ctx := [] }
      if b = 0x0B then pure ([], .end_)
      else if b = 0x05 then pure ([], .else_)
      else do
        let i ← instr (instrs n) b
        let (is, t) ← instrs n
        pure (i :: is, t)

/-- `expr/1`. -/
def expr : Reader (List Instr) := do
  let n ← Reader.left
  blockBody (instrs n)

/-! ## The bytes left are calls enough -/

theorem blockBody_agrees {n : ℕ} {p q : Reader (List Instr × Terminator)}
    (h : Reader.Agrees n p q) : Reader.Agrees n (blockBody p) (blockBody q) :=
  h.bind fun _ => .refl _

theorem instr_agrees {n : ℕ} {p q : Reader (List Instr × Terminator)} (h : Reader.Agrees n p q)
    (b : UInt8) : Reader.Agrees n (instr p b) (instr q b) := by
  have hbody := blockBody_agrees h
  unfold instr
  split_ifs
  · exact Reader.Agrees.bind (.refl _) fun _ => hbody.bind fun _ => .refl _
  · exact Reader.Agrees.bind (.refl _) fun _ => hbody.bind fun _ => .refl _
  · refine Reader.Agrees.bind (.refl _) fun _ => h.bind fun ⟨then_, t⟩ => ?_
    cases t with
    | end_ => exact .refl _
    | else_ => exact hbody.bind fun _ => .refl _
  · exact Reader.Agrees.bind (.refl _) fun _ => .bind (.refl _) fun _ =>
      hbody.bind fun _ => .refl _
  · exact .refl _

/-- What `instrs` answers does not depend on how many calls it has past the bytes left. -/
theorem instrs_agrees (n m : ℕ) (h : n ≤ m) : Reader.Agrees n (instrs n) (instrs m) := by
  induction n generalizing m with
  | zero =>
    intro bin hbin
    obtain rfl : bin = [] := List.length_eq_zero_iff.mp (by omega)
    cases m with
    | zero => rfl
    | succ m => rfl
  | succ n ih =>
    obtain ⟨m, rfl⟩ : ∃ k, m = k + 1 := ⟨m - 1, by omega⟩
    have hagree := ih m (by omega)
    intro bin hbin
    cases bin with
    | nil => rfl
    | cons b rest =>
      have hrest : rest.length ≤ n := by simpa using hbin
      rw [instrs, instrs, Reader.run_bind, Reader.run_bind]
      show (ite _ _ _ : Reader _).run rest = (ite _ _ _ : Reader _).run rest
      split_ifs
      · rfl
      · rfl
      · exact (instr_agrees hagree b).bind (fun i => hagree.bind fun _ => .refl _) rest hrest

end ErlangWasm.Decode
