import ErlangWasm.Decode.Leb128
import ErlangWasm.Reasoning.Reader
import ErlangWasm.Reasoning.Unicode

/-!
# Types of the binary format

The value, reference and heap types of `wasm_decode`, and the vectors and names they travel in.
-/

namespace ErlangWasm.Decode

open Reasoning

abbrev Reader (α : Type) := Reasoning.Reader UInt8 Error α

def refuse {α : Type} (kind : ErrorKind) (msg : String) (ctx : List (String × Detail)) :
    Reader α :=
  .lift (malformed kind msg ctx)

/-- A decoder of `wasm_leb128` gives back what follows the bytes it read. -/
def Exact.reader {α : Type} {bits : ℕ} {Enc : Bytes → α → Prop}
    {decode : Bytes → Except Error (α × Bytes)} (h : Exact bits Enc decode) : Reader α where
  run := decode
  shrinks {bin v rest} hdec := by
    obtain ⟨pre, rfl, -⟩ := (h.accepts bin v rest).mp hdec
    simp

def readU32 : Reader ℕ := (unsignedByte_exact (show 7 ≤ 32 by decide)).reader

def readU64 : Reader ℕ := (unsignedByte_exact (show 7 ≤ 64 by decide)).reader

def readS32 : Reader ℤ := (signedByte_exact (show 7 ≤ 32 by decide)).reader

def readS64 : Reader ℤ := (signedByte_exact (show 7 ≤ 64 by decide)).reader

def readS33 : Reader ℤ := (signedByte_exact (show 7 ≤ 33 by decide)).reader

/-- The next byte, where the end of the input says what was being read. -/
def byte (reading : String) : Reader UInt8 :=
  .item { cls := .malformed, kind := .unexpectedEnd, msg := "unexpected end",
          ctx := [("reading", .name reading)] }

/-- `guard_count/2`: no element is shorter than a byte. -/
def guardCount (n : ℕ) : Reader Unit := do
  let remaining ← Reader.left
  if remaining < n then
    refuse .lengthOutOfBounds "length out of bounds"
      [("declared", .int n), ("remaining", .int remaining)]
  else pure ()

/-- `vec/2`. -/
def vec {α : Type} (p : Reader α) : Reader (List α) := do
  let n ← readU32
  guardCount n
  p.times n

/-- `n` bytes, where the end of the input says what was being read. -/
def bytes (n : ℕ) (msg reading : String) : Reader Bytes :=
  .take n fun remaining =>
    { cls := .malformed, kind := .unexpectedEnd, msg := msg,
      ctx := [("reading", .name reading), ("declared", .int n), ("remaining", .int remaining)] }

/-- `name/1`. -/
def name : Reader Bytes := do
  let len ← readU32
  let str ← bytes len "unexpected end" "name"
  if (Unicode.utf8? str).isSome then pure str
  else refuse .malformedUtf8 "malformed UTF-8 encoding" []

/-- `bytevec/1`. -/
def bytevec : Reader Bytes := do
  let len ← readU32
  bytes len "unexpected end of section or function" "bytes"

/-! ## Types -/

inductive HeapType
  | func
  | external
  | nofunc
  | noExternal
  | exn
  | noexn
  | any
  | eq
  | i31
  | struct
  | array
  | none
  | type (n : ℕ)
  deriving DecidableEq, Repr

/-- `{ref, Null, HeapType}`. -/
structure RefType where
  nullable : Bool
  heap : HeapType
  deriving DecidableEq, Repr

inductive ValType
  | i32
  | i64
  | f32
  | f64
  | v128
  | ref (t : RefType)
  deriving DecidableEq, Repr

/-- `heaptype/1`. -/
def heaptype : Reader HeapType := do
  let x ← readS33
  if x = -16 then pure .func
  else if x = -17 then pure .external
  else if x = -13 then pure .nofunc
  else if x = -14 then pure .noExternal
  else if x = -23 then pure .exn
  else if x = -12 then pure .noexn
  else if x = -18 then pure .any
  else if x = -19 then pure .eq
  else if x = -20 then pure .i31
  else if x = -21 then pure .struct
  else if x = -22 then pure .array
  else if x = -15 then pure .none
  else if 0 ≤ x then pure (.type x.toNat)
  else refuse .malformedHeapType "malformed heap type" [("code", .int x)]

/-- The short forms of `reftype/1`, each the nullable reference to its heap type. -/
def shortRef (b : UInt8) : Option HeapType :=
  match b with
  | 0x70 => some .func
  | 0x6F => some .external
  | 0x6E => some .any
  | 0x6D => some .eq
  | 0x6C => some .i31
  | 0x6B => some .struct
  | 0x6A => some .array
  | 0x71 => some .none
  | 0x69 => some .exn
  | 0x74 => some .noexn
  | 0x73 => some .nofunc
  | 0x72 => some .noExternal
  | _ => none

/-- A reference type from its first byte on; `none` is a byte that begins none. -/
def reftypeFrom (b : UInt8) : Option (Reader RefType) :=
  if b = 0x63 then some do
    let ht ← heaptype
    pure { nullable := true, heap := ht }
  else if b = 0x64 then some do
    let ht ← heaptype
    pure { nullable := false, heap := ht }
  else (shortRef b).map fun ht => pure { nullable := true, heap := ht }

/-- `reftype/1`. -/
def reftype : Reader RefType := do
  let b ← byte "reftype"
  match reftypeFrom b with
  | some r => r
  | none => refuse .malformedReferenceType "malformed reference type" [("byte", .int b.toNat)]

def numType (b : UInt8) : Option ValType :=
  match b with
  | 0x7F => some .i32
  | 0x7E => some .i64
  | 0x7D => some .f32
  | 0x7C => some .f64
  | 0x7B => some .v128
  | _ => none

/-- A value type from its first byte on. -/
def valtypeFrom (b : UInt8) : Reader ValType :=
  match numType b, reftypeFrom b with
  | some t, _ => pure t
  | none, some r => do
      let t ← r
      pure (.ref t)
  | none, none => refuse .malformedValueType "malformed value type" [("byte", .int b.toNat)]

/-- `valtype/1`. -/
def valtype : Reader ValType := do
  let b ← byte "valtype"
  valtypeFrom b

end ErlangWasm.Decode
