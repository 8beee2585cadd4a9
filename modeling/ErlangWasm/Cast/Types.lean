import ErlangWasm.Decode.Module
import Mathlib.Data.List.Sort

/-!
# Type identity

`wasm_types`: every declared type has a canonical identity, the number its recursive group was
interned under and its position in the group.  The node's table of interned groups is a parameter,
from the key of a group to its number, if it has one.
-/

namespace ErlangWasm.Cast

open Decode

/-- `canon()`. -/
abbrev Canon := ℕ × ℕ

/-- A type a group's key refers to: by position in the group, or by its identity. -/
inductive RefKey
  | rec_ (i : ℕ)
  | canon (c : Canon)
  | unresolved (i : ℕ)
  deriving DecidableEq

inductive ValKey
  | ref (nullable : Bool) (k : RefKey)
  | plain (t : ValType)
  deriving DecidableEq

inductive StorageKey
  | val (k : ValKey)
  | i8
  | i16
  deriving DecidableEq

inductive CompKey
  | func (params results : List ValKey)
  | struct (fields : List (StorageKey × Bool))
  | array (field : StorageKey × Bool)
  deriving DecidableEq

structure SubtypeKey where
  final : Bool
  supers : List RefKey
  body : CompKey
  deriving DecidableEq

/-- The identities known so far. -/
abbrev CanonMap := ℕ → Option Canon

/-! ## Canonicalisation -/

/-- `ref_key/4`. -/
def refKey (start n : ℕ) (c : CanonMap) (i : ℕ) : RefKey :=
  if start ≤ i ∧ i < start + n then .rec_ (i - start)
  else
    match c i with
    | some id => .canon id
    | none => .unresolved i

/-- `val_key/4`. -/
def valKey (start n : ℕ) (c : CanonMap) (t : ValType) : ValKey :=
  match t with
  | .ref ⟨nullable, .type i⟩ => .ref nullable (refKey start n c i)
  | t => .plain t

/-- `field_key/4`. -/
def fieldKey (start n : ℕ) (c : CanonMap) (f : FieldType) : StorageKey × Bool :=
  match f.type with
  | .val t => (.val (valKey start n c t), f.mutable_)
  | .i8 => (.i8, f.mutable_)
  | .i16 => (.i16, f.mutable_)

/-- `comp_key/4`. -/
def compKey (start n : ℕ) (c : CanonMap) (b : CompType) : CompKey :=
  match b with
  | .func params results =>
      .func (params.map (valKey start n c)) (results.map (valKey start n c))
  | .struct fields => .struct (fields.map (fieldKey start n c))
  | .array field => .array (fieldKey start n c field)

/-- `subtype_key/4`. -/
def subtypeKey (start n : ℕ) (c : CanonMap) (s : SubType) : SubtypeKey :=
  { final := s.final, supers := s.supers.map (refKey start n c), body := compKey start n c s.body }

section

-- the rows `wasm_engine:intern_rec_group/1` keeps, none of which is ever removed
variable (intern : List SubtypeKey → Option ℕ)

/-- `group/3`. -/
def group (types : List SubType) (g : ℕ × ℕ) (c : CanonMap) : Option CanonMap := do
  let (start, n) := g
  let members ← (List.range n).mapM fun i => types[start + i]?
  let id ← intern (members.map (subtypeKey start n c))
  pure fun i => if start ≤ i ∧ i < start + n then some (id, i - start) else c i

/-- `canonicalise/2`. -/
def canonicalise (types : List SubType) (groups : List (ℕ × ℕ)) : Option (List Canon) := do
  let canon ← groups.foldlM (fun c g => group intern types g c) fun _ => none
  (List.range types.length).mapM canon

end

/-! ## Declared supertypes -/

/-- `same_canon/3`. -/
def sameCanon (canon : List Canon) (a b : ℕ) : Bool :=
  a = b || (a < canon.length && b < canon.length && canon[a]? = canon[b]?)

/-- The type indices not seen yet. -/
def unseen (n : ℕ) (seen : List ℕ) : ℕ := (List.range n).countP fun i => i ∉ seen

theorem unseen_lt {n a : ℕ} {seen : List ℕ} (hseen : a ∉ seen) (ha : a < n) :
    unseen n (a :: seen) < unseen n seen := by
  have hmem : a ∈ (List.range n).filter fun i => i ∉ seen := by simp [ha, hseen]
  have hsub : (List.range n).filter (fun i => i ∉ a :: seen) =
      ((List.range n).filter fun i => i ∉ seen).filter fun i => i ≠ a := by
    rw [List.filter_filter]
    apply List.filter_congr
    intro i _
    simp [not_or]
  rw [unseen, unseen, List.countP_eq_length_filter, List.countP_eq_length_filter, hsub]
  exact List.length_filter_lt_length_iff_exists.mpr ⟨a, hmem, by simp⟩

/-- `is_subtype/5`; a type already on the chain is not entered again. -/
def isSubtypeFrom (types : List SubType) (canon : List Canon) (b : ℕ) (seen : List ℕ) (a : ℕ) :
    Bool :=
  sameCanon canon a b ||
    if h : a ∉ seen ∧ a < types.length then
      (types.get ⟨a, h.2⟩).supers.any fun s => isSubtypeFrom types canon b (a :: seen) s
    else false
termination_by unseen types.length seen
decreasing_by exact unseen_lt h.1 h.2

/-- `is_subtype/4`. -/
def isSubtype (types : List SubType) (canon : List Canon) (a b : ℕ) : Bool :=
  isSubtypeFrom types canon b [] a

/-- `walk_supers/4`. -/
def walkSupers (types : List SubType) (canon : List Canon) (seen : List ℕ) (a : ℕ) : List Canon :=
  if h : a ∉ seen ∧ a < types.length then
    canon[a]?.toList ++
      (types.get ⟨a, h.2⟩).supers.flatMap fun s => walkSupers types canon (a :: seen) s
  else []
termination_by unseen types.length seen
decreasing_by exact unseen_lt h.1 h.2

/-- `lists:usort/1`. -/
def usort (cs : List Canon) : List Canon :=
  cs.dedup.mergeSort fun a b => a.1 < b.1 || (a.1 = b.1 && a.2 ≤ b.2)

/-- `canon_supers/3`. -/
def canonSupers (types : List SubType) (canon : List Canon) (a : ℕ) : List Canon :=
  usort (walkSupers types canon [] a)

end ErlangWasm.Cast
