import ErlangWasm.Canon.Memory

/-!
# Values in core arguments and results

`lowerFlat` turns a value into core values, a variant as its discriminant and its payload widened
into the slots the cases share, and `liftValue` turns core values back.
-/

namespace ErlangWasm.Canon

open ErlangWasm.Num (RuntimeFloat f32FromBits f32ToBits f64FromBits f64ToBits)

/-- A core value as the runtime passes it. -/
inductive Core
  | int (i : ℤ)
  | float (f : RuntimeFloat)
  deriving DecidableEq

namespace Core

/-- An integer, where a float raises. -/
def toInt : Core → Outcome ℤ
  | int i => .ok i
  | float _ => crash

/-- `V band Mask`, for a mask of `bits` ones. -/
def band (v : Core) (bits : ℕ) : Outcome ℤ := do return (← v.toInt) % 2 ^ bits

def f32Bits : Core → Outcome Core
  | float f =>
      match f32ToBits f with
      | some bits => .ok (int bits)
      | none => crash
  | int _ => crash

def f64Bits : Core → Outcome Core
  | float f => .ok (int (f64ToBits f))
  | int _ => crash

end Core

/-! ## Lowering -/

def coerce (v : Core) (t s : FlatType) : Outcome Core :=
  if t = s then .ok v
  else
    match t, s with
    | .f32, .i32 => v.f32Bits
    | .f64, .i64 => v.f64Bits
    | .f32, .i64 => v.f32Bits
    | .i32, .i64 => do return .int (← v.band 32)
    | .f64, _ => v.f64Bits
    | _, _ => .ok v

def coerceJoin : List Core → List FlatType → List FlatType → Outcome (List Core)
  | _, _, [] => return []
  | [], [], _ :: slots => do return .int 0 :: (← coerceJoin [] [] slots)
  | v :: vs, t :: ts, slot :: slots => do
      return (← coerce v t slot) :: (← coerceJoin vs ts slots)
  | _, _, _ => crash

mutual

/-- `lower_flat/3`. -/
def lowerFlat (enc : Encoding) : Desc → Value → Guest → Outcome (List Core × Guest)
  | .int t, .int i, g => return ([.int (i % 2 ^ (if t.bytes = 8 then 64 else 32))], g)
  | .f32, .float f, g => return ([.float f], g)
  | .f64, .float f, g => return ([.float f], g)
  | .bool, .bool b, g => return ([.int (boolInt b)], g)
  | .char, .int i, g => return ([.int (i % 2 ^ 32)], g)
  | .string, .binary bin, g => do
      let ((ptr, len), g) ← placeString enc bin g
      return ([.int ptr, .int len], g)
  | .list d, .binary bin, g =>
      if d.isU8 then do
        let ((ptr, len), g) ← placeBytes bin g
        return ([.int ptr, .int len], g)
      else crash
  | .list d, .list vs, g =>
      if d.isU8 then crash
      else do
        let ((ptr, len), g) ← placeList (store enc d) d vs g
        return ([.int ptr, .int len], g)
  | .record fields, .map kvs, g => lowerFields enc fields kvs g
  | .tuple ds, .tuple vs, g => lowerItems enc ds vs g
  | .enum names, .binary n, g => do
      return ([.int (← indexOf (.name n) (names.map .name))], g)
  | .sum cases, .sum t payload, g => do
      let disc ← indexOf t (cases.map Prod.fst)
      let ((payFlat, payTypes), g) ← lowerCase enc cases disc payload g
      return (.int disc :: (← coerceJoin payFlat payTypes (joinCases cases)), g)
  | .flags names, .flags set, g => do return ([.int (← flagsBits names set)], g)
  | .ref _, .int i, g => return ([.int (i % 2 ^ 32)], g)
  | _, _, _ => crash

def lowerFields (enc : Encoding) :
    List (Bytes × Desc) → List (Bytes × Value) → Guest → Outcome (List Core × Guest)
  | [], _, g => return ([], g)
  | (n, d) :: fields, kvs, g => do
      let (flats, g) ← lowerFlat enc d (← getField n kvs) g
      let (rest, g) ← lowerFields enc fields kvs g
      return (flats ++ rest, g)

def lowerItems (enc : Encoding) :
    List Desc → List Value → Guest → Outcome (List Core × Guest)
  | [], _, g => return ([], g)
  | d :: ds, v :: vs, g => do
      let (flats, g) ← lowerFlat enc d v g
      let (rest, g) ← lowerItems enc ds vs g
      return (flats ++ rest, g)
  | _ :: _, [], _ => crash

/-- The flats and the flat types of the payload of a case. -/
def lowerCase (enc : Encoding) : List (Tag × Option Desc) → ℕ → Value → Guest →
    Outcome ((List Core × List FlatType) × Guest)
  | [], _, _, _ => crash
  | (_, none) :: _, 0, _, g => return (([], []), g)
  | (_, some d) :: _, 0, payload, g => do
      let (flats, g) ← lowerFlat enc d payload g
      return ((flats, flatTypes d), g)
  | _ :: cases, disc + 1, payload, g => lowerCase enc cases disc payload g

end

/-- `lower_value/3`. -/
def lowerValue (enc : Encoding) (d : Desc) (v : Value) (g : Guest) : Outcome (List Core × Guest) :=
  lowerFlat enc d v g

def maxFlatParams : ℕ := 16
def maxFlatResults : ℕ := 1

/-- `params_spill/1`. -/
def paramsSpill (ds : List Desc) : Bool :=
  decide (maxFlatParams < (ds.map fun d => (flatTypes d).length).sum)

/-- `lower_params/3`. -/
def lowerParams (enc : Encoding) (ds : List Desc) (args : List Value) (g : Guest) :
    Outcome (List Core × Guest) :=
  if paramsSpill ds then do
    let (ptr, g) ← realloc (align (.tuple ds)) (size (.tuple ds)) g
    let g ← store enc (.tuple ds) ptr (.tuple args) g
    return ([.int ptr], g)
  else lowerItems enc ds args g

/-! ## Lifting -/

/-- `lift_flat/3`, of an integer type. -/
def liftInt (t : IntType) (v : Core) : Outcome ℤ :=
  match t.signed with
  | false => v.band (8 * t.bytes)
  | true => do
      let bits := if t.bytes = 8 then 64 else 32
      return fromSigned (← v.band bits).toNat bits

/-- `lift_flat/3`, of a float type: what is there. -/
def liftFloat : Core → Value
  | .float f => .float f
  | .int i => .int i

def uncoerceOne (v : Core) (s t : FlatType) : Outcome Core :=
  if s = t then .ok v
  else
    match s, t with
    | .i32, .f32 => do return .float (f32FromBits (← v.band 32).toNat)
    | .i64, .f64 => do return .float (f64FromBits (← v.band 64).toNat)
    | .i64, .f32 => do return .float (f32FromBits (← v.band 32).toNat)
    | .i64, .i32 => do return .int (← v.band 32)
    | _, _ => .ok v

def uncoerce : List FlatType → List FlatType → List Core → Outcome (List Core)
  | [], _, _ => return []
  | t :: ts, s :: ss, v :: vs => do return (← uncoerceOne v s t) :: (← uncoerce ts ss vs)
  | _ :: _, _, _ => crash

/-- `lists:split/2`. -/
def splitFlats (n : ℕ) (flats : List Core) : Outcome (List Core × List Core) :=
  if n ≤ flats.length then .ok (flats.splitAt n) else crash

/-- The bits of flags from their words, the low ones first. -/
def wordsBits : List Core → ℕ → ℤ → Outcome ℤ
  | [], _, acc => return acc
  | w :: ws, shift, acc => do wordsBits ws (shift + 32) (acc.lor ((← w.toInt) * 2 ^ shift))

mutual

/-- `lift_value/3`.  A core value of another kind than the type's is not lifted. -/
def liftValue (enc : Encoding) (m : Memory) : Desc → List Core → Outcome (Value × List Core)
  | .int t, v :: r => do return (.int (← liftInt t v), r)
  | .f32, v :: r => return (liftFloat v, r)
  | .f64, v :: r => return (liftFloat v, r)
  | .bool, v :: r => return (.bool (v ≠ .int 0), r)
  | .char, v :: r => do return (.int (← validChar (← v.toInt)), r)
  | .string, ptr :: len :: r => do
      return (.binary (← readString enc m (← ptr.toInt) (← len.toInt)), r)
  | .list d, ptr :: len :: r => do
      let p ← ptr.toInt
      let n ← len.toInt
      if d.isU8 then return (.binary (← readMemory m p n), r)
      else
        ensureListFits m p n (size d)
        return (.list (← loadElems (load enc m d) p.toNat (size d) n.toNat), r)
  | .record fields, flats => do
      let (kvs, r) ← liftFields enc m fields flats []
      return (.map kvs, r)
  | .tuple ds, flats => do
      let (vs, r) ← liftItems enc m ds flats
      return (.tuple vs, r)
  | .enum names, disc :: r => do return (.binary (← nthCase (← disc.toInt) names), r)
  | .sum cases, disc :: rest => do
      let (slots, r) ← splitFlats (joinCases cases).length rest
      let i ← disc.toInt
      let (t, _) ← nthCase i cases
      return (.sum t (← liftCase enc m cases i.toNat (joinCases cases) slots), r)
  | .flags names, flats => do
      let (words, r) ← splitFlats (flagsWords names.length) flats
      return (.flags (bitsFlags names (← wordsBits words 0 0)), r)
  | .ref _, v :: r => do return (.int (← v.band 32), r)
  | _, _ => crash

def liftFields (enc : Encoding) (m : Memory) : List (Bytes × Desc) → List Core →
    List (Bytes × Value) → Outcome (List (Bytes × Value) × List Core)
  | [], flats, acc => return (acc, flats)
  | (n, d) :: fields, flats, acc => do
      let (v, flats) ← liftValue enc m d flats
      liftFields enc m fields flats (putField acc n v)

def liftItems (enc : Encoding) (m : Memory) :
    List Desc → List Core → Outcome (List Value × List Core)
  | [], flats => return ([], flats)
  | d :: ds, flats => do
      let (v, flats) ← liftValue enc m d flats
      let (vs, flats) ← liftItems enc m ds flats
      return (v :: vs, flats)

/-- The payload of the case of a discriminant, from the slots the cases share. -/
def liftCase (enc : Encoding) (m : Memory) :
    List (Tag × Option Desc) → ℕ → List FlatType → List Core → Outcome Value
  | [], _, _, _ => crash
  | (_, none) :: _, 0, _, _ => return .undefined
  | (_, some d) :: _, 0, joined, slots => do
      let (v, _) ← liftValue enc m d (← uncoerce (flatTypes d) joined slots)
      return v
  | _ :: cases, disc + 1, joined, slots => liftCase enc m cases disc joined slots

end

/-- A pointer to what is not empty; nothing is read at a negative one. -/
def toPtr (p : ℤ) : Outcome ℕ := if 0 ≤ p then .ok p.toNat else crash

/-- `lift_params/3`. -/
def liftParams (enc : Encoding) (m : Memory) (ds : List Desc) (flats : List Core) :
    Outcome (List Value × List Core) :=
  if paramsSpill ds then
    match flats with
    | ptr :: r => do
        let p ← ptr.toInt
        checkAligned p (align (.tuple ds))
        return (← loadItems enc m ds (← toPtr p) 0, r)
    | [] => crash
  else liftItems enc m ds flats

/-- `lift_result/3`. -/
def liftResult (enc : Encoding) (m : Memory) (d : Desc) (results : List Core) : Outcome Value :=
  if (flatTypes d).length ≤ maxFlatResults then do
    let (v, _) ← liftValue enc m d results
    return v
  else
    match results with
    | [ptr] => do
        let p ← ptr.toInt
        checkAligned p (align d)
        load enc m d (← toPtr p)
    | _ => crash

end ErlangWasm.Canon

/-!
## The values of a descriptor

`HasShape d v` says that `v` is a value of `d`, `inOrder d v` is `v` with every set of flags in the
order they are declared, and `placings` are the blocks a value needs in guest memory, in the order
they are asked for.
-/

namespace ErlangWasm.Canon

open Reasoning.Unicode
open ErlangWasm.Num (IsF32 IsF64)

/-! ## Shapes -/

namespace IntType

def Holds (t : IntType) (i : ℤ) : Prop :=
  if t.signed then -2 ^ (8 * t.bytes - 1) ≤ i ∧ i < 2 ^ (8 * t.bytes - 1)
  else 0 ≤ i ∧ i < 2 ^ (8 * t.bytes)

end IntType

/-- Unicode scalar values. -/
def IsScalar (i : ℤ) : Prop := 0 ≤ i ∧ i ≤ 0xD7FF ∨ 0xE000 ≤ i ∧ i ≤ 0x10FFFF

mutual

/-- A value of a descriptor.  Of two cases of one name the first is meant, and a vector of the
component format is shorter than `2 ^ 32`. -/
def HasShape : Desc → Value → Prop
  | .int t, .int i => t.Holds i
  | .f32, .float f => IsF32 f
  | .f64, .float f => IsF64 f
  | .bool, .bool _ => True
  | .char, .int i => IsScalar i
  | .string, .binary bin => (utf8? bin).isSome
  | .list d, .binary _ => d.isU8
  | .list d, .list vs => ¬ d.isU8 ∧ ∀ v ∈ vs, HasShape d v
  | .record fields, .map kvs => (kvs.map Prod.fst).Nodup ∧ ShapeFields fields kvs
  | .tuple ds, .tuple vs => ShapeItems ds vs
  | .enum names, .binary n => n ∈ names ∧ names.length < 2 ^ 32
  | .sum cases, .sum t payload =>
      t ∈ cases.map Prod.fst ∧ cases.length < 2 ^ 32 ∧
        ShapeCase cases ((cases.map Prod.fst).idxOf t) payload
  | .flags names, .flags set => set.Nodup ∧ ∀ n ∈ set, n ∈ names
  | .ref _, .int i => 0 ≤ i ∧ i < 2 ^ 32
  | _, _ => False

def ShapeFields : List (Bytes × Desc) → List (Bytes × Value) → Prop
  | [], [] => True
  | (n, d) :: fields, (k, v) :: kvs => n = k ∧ HasShape d v ∧ ShapeFields fields kvs
  | _, _ => False

def ShapeItems : List Desc → List Value → Prop
  | [], [] => True
  | d :: ds, v :: vs => HasShape d v ∧ ShapeItems ds vs
  | _, _ => False

def ShapeCase : List (Tag × Option Desc) → ℕ → Value → Prop
  | (_, none) :: _, 0, .undefined => True
  | (_, some d) :: _, 0, payload => HasShape d payload
  | _ :: cases, idx + 1, payload => ShapeCase cases idx payload
  | _, _, _ => False

end

mutual

/-- The value with its flags in the order of their declaration. -/
def inOrder : Desc → Value → Value
  | .list d, .list vs => .list (vs.map (inOrder d))
  | .record fields, .map kvs => .map (inOrderFields fields kvs)
  | .tuple ds, .tuple vs => .tuple (inOrderItems ds vs)
  | .sum cases, .sum t payload =>
      .sum t (inOrderCase cases ((cases.map Prod.fst).idxOf t) payload)
  | .flags names, .flags set => .flags (names.filter (· ∈ set))
  | _, v => v

def inOrderFields : List (Bytes × Desc) → List (Bytes × Value) → List (Bytes × Value)
  | (_, d) :: fields, (k, v) :: kvs => (k, inOrder d v) :: inOrderFields fields kvs
  | _, kvs => kvs

def inOrderItems : List Desc → List Value → List Value
  | d :: ds, v :: vs => inOrder d v :: inOrderItems ds vs
  | _, vs => vs

def inOrderCase : List (Tag × Option Desc) → ℕ → Value → Value
  | (_, some d) :: _, 0, payload => inOrder d payload
  | _ :: cases, idx + 1, payload => inOrderCase cases idx payload
  | _, _, payload => payload

end

/-! ## Blocks -/

/-- A block that is asked for, and what is read with it. -/
structure Placing where
  align : ℕ
  size : ℕ
  /-- The length that goes with the pointer, and what it has to be below. -/
  units : ℕ
  bound : ℕ
  /-- Whether it is read at even pointers only. -/
  utf16 : Bool

def utf16Of (bin : Bytes) : Bytes :=
  match utf8? bin with
  | some cs => utf16le cs
  | none => []

def bytesPlacing (bin : Bytes) : Placing := ⟨1, bin.length, bin.length, 2 ^ 32, false⟩

/-- A string is asked for as bytes, in every encoding. -/
def stringPlacing (enc : Encoding) (bin : Bytes) : Placing :=
  match enc with
  | .utf8 => bytesPlacing bin
  | .utf16 => ⟨1, (utf16Of bin).length, (utf16Of bin).length / 2, 2 ^ 32, true⟩
  | .latin1Utf16 =>
      match toLatin1 bin with
      | some latin1 => ⟨1, latin1.length, latin1.length, utf16Mark, false⟩
      | none => ⟨1, (utf16Of bin).length, (utf16Of bin).length / 2, utf16Mark, true⟩

def listPlacing (d : Desc) (vs : List Value) : Placing :=
  ⟨align d, vs.length * size d, vs.length, 2 ^ 32, false⟩

mutual

/-- The blocks of a value, in the order they are asked for. -/
def placings (enc : Encoding) : Desc → Value → List Placing
  | .string, .binary bin => [stringPlacing enc bin]
  | .list _, .binary bin => [bytesPlacing bin]
  | .list d, .list vs => listPlacing d vs :: vs.flatMap (placings enc d)
  | .record fields, .map kvs => placingsFields enc fields kvs
  | .tuple ds, .tuple vs => placingsItems enc ds vs
  | .sum cases, .sum t payload =>
      placingsCase enc cases ((cases.map Prod.fst).idxOf t) payload
  | _, _ => []

def placingsFields (enc : Encoding) : List (Bytes × Desc) → List (Bytes × Value) → List Placing
  | (_, d) :: fields, (_, v) :: kvs => placings enc d v ++ placingsFields enc fields kvs
  | _, _ => []

def placingsItems (enc : Encoding) : List Desc → List Value → List Placing
  | d :: ds, v :: vs => placings enc d v ++ placingsItems enc ds vs
  | _, _ => []

def placingsCase (enc : Encoding) : List (Tag × Option Desc) → ℕ → Value → List Placing
  | (_, some d) :: _, 0, payload => placings enc d payload
  | _ :: cases, idx + 1, payload => placingsCase enc cases idx payload
  | _, _, _ => []

end

/-! ## Grants -/

/-- The address is one of `len` from `start` on. -/
def Within (a start len : ℕ) : Prop := start ≤ a ∧ a < start + len

/-- Grants that meet the placings: each an i32 pointer aligned as asked, to a block in bounds (of a
memory that 32 bits address) that holds nothing in use; what is in use is left alone. -/
def Fair : (ℕ → Prop) → ℕ → List Placing → List Grant → Prop
  | _, _, [], _ => True
  | _, _, _ :: _, [] => False
  | used, pages, p :: ps, g :: gs =>
      g.ptr % p.align = 0 ∧ g.ptr < 2 ^ 32 ∧ pages + g.grow ≤ 65536 ∧
      g.ptr + p.size ≤ (pages + g.grow) * pageSize ∧
      (∀ a, Within a g.ptr p.size → ¬ used a) ∧
      (∀ byte a, used a → g.scribble byte a = byte a) ∧
      Fair (fun a => used a ∨ Within a g.ptr p.size) (pages + g.grow) ps gs

/-- Every length fits the field it is written in, and UTF-16 stands at even pointers. -/
def Good : List Placing → List Grant → Prop
  | [], _ => True
  | _ :: _, [] => False
  | p :: ps, g :: gs => p.units < p.bound ∧ (p.utf16 → g.ptr % 2 = 0) ∧ Good ps gs

/-- The address is in a block that was granted. -/
def Foot : List Placing → List Grant → ℕ → Prop
  | p :: ps, g :: gs, a => Within a g.ptr p.size ∨ Foot ps gs a
  | _, _, _ => False

/-- The guest leaves the byte at the address alone. -/
def Kept : List Placing → List Grant → ℕ → Prop
  | _ :: ps, g :: gs, a => (∀ byte, g.scribble byte a = byte a) ∧ Kept ps gs a
  | _, _, _ => True

def pagesAfter : List Placing → List Grant → ℕ → ℕ
  | _ :: ps, g :: gs, pages => pagesAfter ps gs (pages + g.grow)
  | _, _, pages => pages

end ErlangWasm.Canon
