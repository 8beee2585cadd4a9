import ErlangWasm.Canon.LowerLift

/-!
# Lifting what a guest wrote

A guest writes any integers where lengths, pointers and discriminants are expected.  `Typed` are the
values that a descriptor promises, and `LiftIn` and `LoadIn` say what the guest has to respect: the
spans that are read without a check are in bounds, the elements of lists are no empty values, and an
integer of a small type is extended to its core type.
-/

namespace ErlangWasm.Canon

open Reasoning.Bytes
open Reasoning.Unicode
open ErlangWasm.Num (IsF32 IsF64 f32FromBits f64FromBits)

/-! ## Outcomes -/

/-- A trap, or an answer that `P` is true of: no other exception. -/
def Safe {α : Type} (P : α → Prop) (o : Outcome α) : Prop :=
  (∃ t, o = .error (.trap t)) ∨ ∃ x, o = .ok x ∧ P x

section

variable {α β : Type} {P : α → Prop} {Q : β → Prop} {o : Outcome α} {f : α → Outcome β}

theorem safe_trap (t : Trap) : Safe P (trap t) := .inl ⟨t, rfl⟩

theorem safe_ok {x : α} (h : P x) : Safe P (.ok x) := .inr ⟨x, rfl, h⟩

theorem Safe.bind (h : Safe P o) (hf : ∀ x, o = .ok x → P x → Safe Q (f x)) : Safe Q (o >>= f) := by
  rcases h with ⟨t, rfl⟩ | ⟨x, rfl, hx⟩
  · exact safe_trap t
  · exact hf x rfl hx

theorem Safe.mono {P' : α → Prop} (h : Safe P o) (hsub : ∀ x, P x → P' x) : Safe P' o := by
  rcases h with ht | ⟨x, hx, hP⟩
  · exact .inl ht
  · exact .inr ⟨x, hx, hsub x hP⟩

end

/-! ## Values -/

mutual

/-- What a descriptor promises of a value, the names it declares twice included; no list is longer
than `bound`. -/
def Typed (bound : ℕ) : Desc → Value → Prop
  | .int t, .int i => t.Holds i
  | .f32, .float f => IsF32 f
  | .f64, .float f => IsF64 f
  | .bool, .bool _ => True
  | .char, .int i => IsScalar i
  | .string, .binary bin => (utf8? bin).isSome
  | .list d, .binary bin => d.isU8 ∧ bin.length ≤ bound
  | .list d, .list vs => ¬ d.isU8 ∧ vs.length ≤ bound ∧ ∀ v ∈ vs, Typed bound d v
  | .record fields, .map kvs =>
      (kvs.map Prod.fst).Nodup ∧ (∀ f ∈ fields, f.1 ∈ kvs.map Prod.fst) ∧
        ∀ kv ∈ kvs, TypedField bound fields kv.1 kv.2
  | .tuple ds, .tuple vs => TypedItems bound ds vs
  | .enum names, .binary n => n ∈ names
  | .sum cases, .sum t payload => TypedCase bound cases t payload
  | .flags names, .flags set => set.Sublist names
  | .ref _, .int i => 0 ≤ i ∧ i < 2 ^ 32
  | _, _ => False

def TypedField (bound : ℕ) : List (Bytes × Desc) → Bytes → Value → Prop
  | [], _, _ => False
  | (n, d) :: fields, k, v => n = k ∧ Typed bound d v ∨ TypedField bound fields k v

def TypedItems (bound : ℕ) : List Desc → List Value → Prop
  | [], [] => True
  | d :: ds, v :: vs => Typed bound d v ∧ TypedItems bound ds vs
  | _, _ => False

def TypedCase (bound : ℕ) : List (Tag × Option Desc) → Tag → Value → Prop
  | [], _, _ => False
  | (u, none) :: cases, t, payload =>
      u = t ∧ payload = .undefined ∨ TypedCase bound cases t payload
  | (u, some d) :: cases, t, payload =>
      u = t ∧ Typed bound d payload ∨ TypedCase bound cases t payload

end

/-- A core value where the runtime passes a flat type: an integer of either sign, or a float. -/
def FlatType.Passed : FlatType → Core → Prop
  | .i32, .int _ => True
  | .i64, .int _ => True
  | .f32, .float f => IsF32 f
  | .f64, .float f => IsF64 f
  | _, _ => False

def PassedAll : List FlatType → List Core → Prop
  | [], [] => True
  | t :: ts, v :: vs => t.Passed v ∧ PassedAll ts vs
  | _, _ => False

/-! ## Spans -/

namespace Memory

/-- The size of linear memory in bytes. -/
def bytes (m : Memory) : ℕ := m.pages * pageSize

/-- The span is in bounds. -/
def Has (m : Memory) (addr len : ℤ) : Prop := 0 ≤ addr ∧ 0 ≤ len ∧ addr + len ≤ m.bytes

end Memory

/-- The bytes that `read_string` reads, past its check of the alignment, are in bounds. -/
def StringIn (enc : Encoding) (m : Memory) (ptr len : ℤ) : Prop :=
  match enc with
  | .utf8 => m.Has ptr len
  | .utf16 => ptr % 2 = 0 → m.Has ptr (len * 2)
  | .latin1Utf16 =>
      if len / utf16Mark % 2 = 0 then m.Has ptr len
      else ptr % 2 = 0 → m.Has ptr (len % utf16Mark * 2)

/-- The elements of a list take bytes, and those of one that fits its memory are as `elem` says. -/
def ElemsIn (m : Memory) (d : Desc) (elem : ℕ → Prop) (ptr len : ℤ) : Prop :=
  if d.isU8 then m.Has ptr len
  else 0 < size d ∧ (ensureListFits m ptr len (size d) = .ok () →
    ∀ i < len.toNat, elem (ptr.toNat + i * size d))

mutual

/-- What is read for a value at `ptr` is in bounds. -/
def LoadIn (enc : Encoding) (m : Memory) : Desc → ℕ → Prop
  | .string, ptr =>
      m.Has ptr 8 ∧ ∀ p len, readPtrLen m ptr = .ok (p, len) → StringIn enc m p len
  | .list d, ptr =>
      m.Has ptr 8 ∧ ∀ p len, readPtrLen m ptr = .ok (p, len) →
        ElemsIn m d (LoadIn enc m d) p len
  | .record fields, ptr => LoadInFields enc m fields ptr 0
  | .tuple ds, ptr => LoadInItems enc m ds ptr 0
  | .sum cases, ptr =>
      m.Has ptr (discSize cases.length) ∧
        ∀ disc, readInt m ptr (discSize cases.length) false = .ok disc →
          LoadInCase enc m cases disc.toNat (ptr + payloadOffset cases)
  | d, ptr => m.Has ptr (size d)

def LoadInFields (enc : Encoding) (m : Memory) : List (Bytes × Desc) → ℕ → ℕ → Prop
  | [], _, _ => True
  | (_, d) :: fields, ptr, off =>
      LoadIn enc m d (ptr + alignUp off (align d)) ∧
        LoadInFields enc m fields ptr (alignUp off (align d) + size d)

def LoadInItems (enc : Encoding) (m : Memory) : List Desc → ℕ → ℕ → Prop
  | [], _, _ => True
  | d :: ds, ptr, off =>
      LoadIn enc m d (ptr + alignUp off (align d)) ∧
        LoadInItems enc m ds ptr (alignUp off (align d) + size d)

def LoadInCase (enc : Encoding) (m : Memory) : List (Tag × Option Desc) → ℕ → ℕ → Prop
  | (_, some d) :: _, 0, ptr => LoadIn enc m d ptr
  | _ :: cases, disc + 1, ptr => LoadInCase enc m cases disc ptr
  | _, _, _ => True

end

/-- The core integer is the extension of a value of a signed type. -/
def IntType.Extended (t : IntType) (w : ℤ) : Prop :=
  t.signed → ∃ i, t.Holds i ∧ w % 2 ^ t.coreBits = i % 2 ^ t.coreBits

mutual

/-- What is read for a value that is lifted from core values is in bounds. -/
def LiftIn (enc : Encoding) (m : Memory) : Desc → List Core → Prop
  | .int t, .int w :: _ => t.Extended w
  | .string, .int p :: .int len :: _ => StringIn enc m p len
  | .list d, .int p :: .int len :: _ => ElemsIn m d (LoadIn enc m d) p len
  | .record fields, flats => LiftInFields enc m fields flats
  | .tuple ds, flats => LiftInItems enc m ds flats
  | .sum cases, .int disc :: rest =>
      LiftInCase enc m cases disc.toNat (joinCases cases) (rest.take (joinCases cases).length)
  | _, _ => True

def LiftInFields (enc : Encoding) (m : Memory) : List (Bytes × Desc) → List Core → Prop
  | [], _ => True
  | (_, d) :: fields, flats =>
      LiftIn enc m d flats ∧ LiftInFields enc m fields (flats.drop (flatTypes d).length)

def LiftInItems (enc : Encoding) (m : Memory) : List Desc → List Core → Prop
  | [], _ => True
  | d :: ds, flats =>
      LiftIn enc m d flats ∧ LiftInItems enc m ds (flats.drop (flatTypes d).length)

def LiftInCase (enc : Encoding) (m : Memory) :
    List (Tag × Option Desc) → ℕ → List FlatType → List Core → Prop
  | (_, some d) :: _, 0, joined, slots =>
      ∀ vs, uncoerce (flatTypes d) joined slots = .ok vs → LiftIn enc m d vs
  | _ :: cases, disc + 1, joined, slots => LiftInCase enc m cases disc joined slots
  | _, _, _, _ => True

end

end ErlangWasm.Canon
