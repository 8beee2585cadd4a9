import ErlangWasm.Num.Bits
import Mathlib.Data.Int.Bitwise

/-!
# Canonical ABI types

The descriptors of component values, the Erlang values they describe, and what a descriptor says of
both passings: its size and alignment in memory, and the core types it flattens to.
-/

namespace ErlangWasm.Canon

open ErlangWasm.Num (RuntimeFloat)
open Reasoning.Bytes (ascii)

abbrev Bytes := List UInt8

/-! ## Descriptors -/

/-- `u8` to `s64`. -/
inductive IntType
  | u8
  | u16
  | u32
  | u64
  | s8
  | s16
  | s32
  | s64
  deriving DecidableEq, Repr

namespace IntType

def bytes : IntType → ℕ
  | u8 | s8 => 1
  | u16 | s16 => 2
  | u32 | s32 => 4
  | u64 | s64 => 8

def signed : IntType → Bool
  | u8 | u16 | u32 | u64 => false
  | s8 | s16 | s32 | s64 => true

end IntType

/-- What is an opaque i32: a resource handle, the end of a future or a stream (whose element is
read by nothing here), an error context. -/
inductive Ref
  | handle
  | own (rt : ℕ)
  | borrow (rt : ℕ)
  | future
  | stream
  | errorContext
  deriving DecidableEq, Repr

/-- The name of a case: of a variant and of an option a binary, of a result an atom. -/
inductive Tag
  | name (n : Bytes)
  | ok
  | error
  deriving DecidableEq, Repr

/-- `desc()`.  Options and results are passed as the variants of their cases, and are written so. -/
inductive Desc
  | int (t : IntType)
  | f32
  | f64
  | bool
  | char
  | string
  | list (d : Desc)
  | record (fields : List (Bytes × Desc))
  | tuple (ds : List Desc)
  | enum (names : List Bytes)
  | sum (cases : List (Tag × Option Desc))
  | flags (names : List Bytes)
  | ref (r : Ref)

namespace Desc

/-- `opt_cases/1`. -/
def optCases (d : Desc) : List (Tag × Option Desc) :=
  [(.name (ascii "none"), none), (.name (ascii "some"), some d)]

def option (d : Desc) : Desc := .sum (optCases d)

def result (ok error : Option Desc) : Desc := .sum [(.ok, ok), (.error, error)]

def variant (cases : List (Bytes × Option Desc)) : Desc :=
  .sum (cases.map fun c => (.name c.1, c.2))

/-- Whether a list of this is a binary. -/
def isU8 : Desc → Bool
  | .int .u8 => true
  | _ => false

end Desc

/-! ## Values -/

/-- The Erlang values of descriptors.  A map has its keys in the order of the record's fields. -/
inductive Value
  | int (i : ℤ)
  | float (f : RuntimeFloat)
  | bool (b : Bool)
  -- a string, a list of `u8`, the name of an enum
  | binary (b : Bytes)
  | list (vs : List Value)
  | map (kvs : List (Bytes × Value))
  | tuple (vs : List Value)
  | sum (t : Tag) (payload : Value)
  | flags (names : List Bytes)
  | undefined

namespace Value

/-- `opt_to_variant/1`, of `none` and of `{some, V}`. -/
def none : Value := .sum (.name (ascii "none")) .undefined
def some (v : Value) : Value := .sum (.name (ascii "some")) v

end Value

/-! ## Failures -/

/-- The traps raised here, with their context. -/
inductive Trap
  | invalidChar (value : ℤ)
  | invalidUtf8
  | invalidUtf16
  | invalidDiscriminant (disc : ℤ) (count : ℕ)
  | unknownCase (name : Tag)
  | outOfBoundsMemoryAccess (ptr len : ℤ) (elemSize : ℕ)
  | unaligned (ptr : ℤ) (alignment : ℕ)
  deriving DecidableEq, Repr

/-- How a call ends that does not answer: with a trap, or with any other exception (a clause or a
match that does not apply, a memory access that failed). -/
inductive Fault
  | trap (t : Trap)
  | crash
  deriving DecidableEq, Repr

abbrev Outcome := Except Fault

def trap {α : Type} (t : Trap) : Outcome α := .error (.trap t)
def crash {α : Type} : Outcome α := .error .crash

/-! ## Layout -/

def alignUp (n a : ℕ) : ℕ := (n + a - 1) / a * a

def discSize (n : ℕ) : ℕ :=
  if n ≤ 256 then 1 else if n ≤ 65536 then 2 else 4

def flagsSizeAlign (n : ℕ) : ℕ × ℕ :=
  if n ≤ 8 then (1, 1)
  else if n ≤ 16 then (2, 2)
  else if n ≤ 32 then (4, 4)
  else (4 * ((n + 31) / 32), 4)

/-- The offset past the fields, and the greatest alignment of one. -/
def aggregateFold (sas : List (ℕ × ℕ)) : ℕ × ℕ :=
  sas.foldl (fun acc sa => (alignUp acc.1 sa.2 + sa.1, max acc.2 sa.2)) (0, 1)

def aggregate (sas : List (ℕ × ℕ)) : ℕ × ℕ :=
  let acc := aggregateFold sas
  (alignUp acc.1 acc.2, acc.2)

def payloadSizeAlign (cases : List (Option (ℕ × ℕ))) : ℕ × ℕ :=
  cases.foldl (fun acc c =>
    match c with
    | none => acc
    | some sa => (max acc.1 sa.1, max acc.2 sa.2)) (0, 1)

def variantSizeAlign (cases : List (Option (ℕ × ℕ))) : ℕ × ℕ :=
  let discS := discSize cases.length
  let pay := payloadSizeAlign cases
  let align := max discS pay.2
  (alignUp (alignUp discS pay.2 + pay.1) align, align)

mutual

def sizeAlign : Desc → ℕ × ℕ
  | .int t => (t.bytes, t.bytes)
  | .f32 => (4, 4)
  | .f64 => (8, 8)
  | .bool => (1, 1)
  | .char => (4, 4)
  | .string => (8, 4)
  | .list _ => (8, 4)
  | .record fields => aggregate (sizeAlignFields fields)
  | .tuple ds => aggregate (sizeAlignItems ds)
  | .enum names => (discSize names.length, discSize names.length)
  | .sum cases => variantSizeAlign (sizeAlignCases cases)
  | .flags names => flagsSizeAlign names.length
  | .ref _ => (4, 4)

def sizeAlignFields : List (Bytes × Desc) → List (ℕ × ℕ)
  | [] => []
  | (_, d) :: fields => sizeAlign d :: sizeAlignFields fields

def sizeAlignItems : List Desc → List (ℕ × ℕ)
  | [] => []
  | d :: ds => sizeAlign d :: sizeAlignItems ds

def sizeAlignCases : List (Tag × Option Desc) → List (Option (ℕ × ℕ))
  | [] => []
  | (_, none) :: cases => none :: sizeAlignCases cases
  | (_, some d) :: cases => some (sizeAlign d) :: sizeAlignCases cases

end

def size (d : Desc) : ℕ := (sizeAlign d).1
def align (d : Desc) : ℕ := (sizeAlign d).2

/-- Where the payload of a variant stands after its discriminant. -/
def payloadOffset (cases : List (Tag × Option Desc)) : ℕ :=
  alignUp (discSize cases.length) (payloadSizeAlign (sizeAlignCases cases)).2

/-! ## Flat types -/

inductive FlatType
  | i32
  | i64
  | f32
  | f64
  deriving DecidableEq, Repr

def join : FlatType → FlatType → FlatType
  | .i32, .f32 => .i32
  | .f32, .i32 => .i32
  | t, u => if t = u then t else .i64

def joinLists : List FlatType → List FlatType → List FlatType
  | [], us => us
  | ts, [] => ts
  | t :: ts, u :: us => join t u :: joinLists ts us

/-- `join_cases/1`, of the flat types of the cases. -/
def joinAll (cases : List (Option (List FlatType))) : List FlatType :=
  cases.foldl (fun acc c =>
    match c with
    | none => acc
    | some ts => joinLists acc ts) []

def flagsWords (n : ℕ) : ℕ := (n + 31) / 32

mutual

def flatTypes : Desc → List FlatType
  | .int t => if t.bytes = 8 then [.i64] else [.i32]
  | .f32 => [.f32]
  | .f64 => [.f64]
  | .bool => [.i32]
  | .char => [.i32]
  | .string => [.i32, .i32]
  | .list _ => [.i32, .i32]
  | .record fields => flatTypesFields fields
  | .tuple ds => flatTypesItems ds
  | .enum _ => [.i32]
  | .sum cases => .i32 :: joinAll (flatTypesCases cases)
  | .flags names => List.replicate (flagsWords names.length) .i32
  | .ref _ => [.i32]

def flatTypesFields : List (Bytes × Desc) → List FlatType
  | [] => []
  | (_, d) :: fields => flatTypes d ++ flatTypesFields fields

def flatTypesItems : List Desc → List FlatType
  | [] => []
  | d :: ds => flatTypes d ++ flatTypesItems ds

def flatTypesCases : List (Tag × Option Desc) → List (Option (List FlatType))
  | [] => []
  | (_, none) :: cases => none :: flatTypesCases cases
  | (_, some d) :: cases => some (flatTypes d) :: flatTypesCases cases

end

def joinCases (cases : List (Tag × Option Desc)) : List FlatType :=
  joinAll (flatTypesCases cases)

/-! ## Helpers -/

def boolInt : Bool → ℤ
  | true => 1
  | false => 0

def fromSigned (v bits : ℕ) : ℤ :=
  if v / 2 ^ (bits - 1) % 2 = 1 then v - 2 ^ bits else v

def validChar (v : ℤ) : Outcome ℤ :=
  if 0 ≤ v ∧ v ≤ 0xD7FF then .ok v
  else if 0xE000 ≤ v ∧ v ≤ 0x10FFFF then .ok v
  else trap (.invalidChar v)

/-- `nth_case/2`. -/
def nthCase {α : Type} (disc : ℤ) (cases : List α) : Outcome α :=
  match if 0 ≤ disc then cases[disc.toNat]? else none with
  | some c => .ok c
  | none => trap (.invalidDiscriminant disc cases.length)

def indexOf (x : Tag) (l : List Tag) : Outcome ℕ :=
  if x ∈ l then .ok (l.idxOf x) else trap (.unknownCase x)

local instance labelName : LawfulBEq Bytes := inferInstance

/-- `flags_bits/2`. -/
def flagsBits (names set : List Bytes) : Outcome ℕ :=
  match set.diff names with
  | [] => .ok (names.foldl (fun acc n => if n ∈ set then acc ||| 1 <<< names.idxOf n else acc) 0)
  | bad :: _ => trap (.unknownCase (.name bad))

/-- `bits_flags/2`. -/
def bitsFlags (names : List Bytes) (bits : ℤ) : List Bytes :=
  names.filter fun n => bits.testBit (names.idxOf n)

end ErlangWasm.Canon
