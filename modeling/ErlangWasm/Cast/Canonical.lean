import ErlangWasm.Cast.Types
import ErlangWasm.Reasoning.Fallible
import Mathlib.Data.List.Dedup

/-!
# Canonical subtyping

What a canonical identity declares is read from the key of its group alone, so subtyping between
identities means the same in every module.  In a type section that passed validation, the walks of
`wasm_types` over indices answer it.
-/

namespace ErlangWasm.Cast

open Decode Relation Reasoning.Fallible

inductive Kind
  | func
  | struct
  | array
  deriving DecidableEq

/-- `type_kind/1`. -/
def typeKind (b : CompType) : Kind :=
  match b with
  | .func _ _ => .func
  | .struct _ => .struct
  | .array _ => .array

def CompKey.kind (b : CompKey) : Kind :=
  match b with
  | .func _ _ => .func
  | .struct _ => .struct
  | .array _ => .array

theorem kind_compKey (start n : ℕ) (c : CanonMap) (b : CompType) :
    (compKey start n c b).kind = typeKind b := by
  cases b <;> rfl

/-! ## Identities -/

/-- The identity a key's reference names, in a group of number `g`. -/
def RefKey.resolve (g : ℕ) : RefKey → Option Canon
  | .rec_ i => some (g, i)
  | .canon c => some c
  | .unresolved _ => none

section

variable (intern : List SubtypeKey → Option ℕ)

/-- A number is the number of one group. -/
def Separate : Prop :=
  ∀ key key' n, intern key = some n → intern key' = some n → key = key'

/-- The type of identity `c` declares the supertype `c'`. -/
def Declares (c c' : Canon) : Prop :=
  ∃ key sk, intern key = some c.1 ∧ key[c.2]? = some sk ∧ ∃ k ∈ sk.supers, k.resolve c.1 = some c'

/-- The type of identity `c` is of kind `k`. -/
def HasKind (c : Canon) (k : Kind) : Prop :=
  ∃ key sk, intern key = some c.1 ∧ key[c.2]? = some sk ∧ sk.body.kind = k

/-- Declared subtyping of identities. -/
def Subtype (c c' : Canon) : Prop := ReflTransGen (Declares intern) c c'

end

/-! ## Type sections -/

/-- Groups laid end to end from `offset` to `n`. -/
def Tiled (offset : ℕ) : List (ℕ × ℕ) → ℕ → Prop
  | [], n => offset = n
  | (start, k) :: gs, n => start = offset ∧ Tiled (offset + k) gs n

/-- What `flatten_groups/1` decodes is laid so. -/
theorem tiled_flattenGroups (groups : List (List SubType)) :
    Tiled 0 (flattenGroups groups).2 (flattenGroups groups).1.length := by
  suffices hgen : ∀ (gs : List (List SubType)) (offset : ℕ),
      Tiled offset (flattenGroups.bounds offset gs) (offset + gs.flatten.length) by
    have hall := hgen groups 0
    rwa [Nat.zero_add] at hall
  intro gs
  induction gs with
  | nil => exact fun offset => rfl
  | cons g gs ih =>
    intro offset
    refine ⟨rfl, ?_⟩
    have hrest := ih (offset + g.length)
    rwa [Nat.add_assoc, ← List.length_append, ← List.flatten_cons] at hrest

/-- The part of a `#ctx{}` about types, of a module that was validated. -/
structure Context (intern : List SubtypeKey → Option ℕ) where
  types : List SubType
  groups : List (ℕ × ℕ)
  canon : List Canon
  tiled : Tiled 0 groups types.length
  canonical : canonicalise intern types groups = some canon
  /-- `check_subtypes/2`: a supertype is declared before, and is of the same kind. -/
  declared : ∀ (i : ℕ) (t : SubType), types[i]? = some t → ∀ s ∈ t.supers, s < i ∧
    ∃ u : SubType, types[s]? = some u ∧ typeKind u.body = typeKind t.body

namespace Context

variable {intern : List SubtypeKey → Option ℕ}

/-- `kinds`. -/
def kindAt (ctx : Context intern) (i : ℕ) : Option Kind :=
  ctx.types[i]?.map fun t => typeKind t.body

/-- `supers`. -/
def supersAt (ctx : Context intern) (i : ℕ) : Option (List Canon) :=
  if i < ctx.types.length then some (canonSupers ctx.types ctx.canon i) else none

end Context

/-! ## What canonicalisation gives -/

section

variable {intern : List SubtypeKey → Option ℕ} {types : List SubType}

/-- The identities of the first `k` types are known, are of the kinds of the types, and declare
those of the supertypes. -/
structure Known (intern : List SubtypeKey → Option ℕ) (types : List SubType) (k : ℕ)
    (c : CanonMap) : Prop where
  dom : ∀ i, (c i).isSome ↔ i < k
  kind : ∀ i id t, c i = some id → types[i]? = some t → HasKind intern id (typeKind t.body)
  declares : ∀ i id t, c i = some id → types[i]? = some t →
    ∀ id', Declares intern id id' ↔ ∃ s ∈ t.supers, c s = some id'

/-- What a reference of a group's key resolves to, for a supertype declared before. -/
theorem resolve_refKey {k n g : ℕ} {c : CanonMap} (hdom : ∀ i, (c i).isSome ↔ i < k) {s : ℕ}
    (hs : s < k + n) :
    (refKey k n c s).resolve g = if k ≤ s ∧ s < k + n then some (g, s - k) else c s := by
  unfold refKey
  split
  · rfl
  · have hlow : s < k := by omega
    obtain ⟨id, hid⟩ := Option.isSome_iff_exists.mp ((hdom s).mpr hlow)
    rw [hid]
    rfl

/-- Canonicalising the next group keeps what is known. -/
theorem Known.group {k n : ℕ} {c c' : CanonMap} (hinj : Separate intern)
    (hdeclared : ∀ (i : ℕ) (t : SubType), types[i]? = some t → ∀ s ∈ t.supers, s < i)
    (hc : Known intern types k c) (h : group intern types (k, n) c = some c') :
    Known intern types (k + n) c' := by
  rw [Cast.group] at h
  cases hmembers : (List.range n).mapM fun i => types[k + i]? with
  | none =>
    rw [hmembers] at h
    cases h
  | some members =>
    rw [hmembers] at h
    obtain ⟨g, hg, h⟩ := Option.bind_eq_some_iff.mp
      (show (intern (members.map (subtypeKey k n c))).bind _ = some c' from h)
    cases h
    obtain ⟨hlen, hget⟩ := get_of_mapM hmembers
    rw [List.length_range] at hlen
    have hmember : ∀ i t, k ≤ i ∧ i < k + n → types[i]? = some t → members[i - k]? = some t := by
      intro i t hin ht
      rw [hget (i - k) (i - k) (by rw [List.getElem?_range (by omega)]), ← ht]
      congr 1
      omega
    refine ⟨?_, ?_, ?_⟩
    · intro i
      have hi := hc.dom i
      split <;> simp [*]
      omega
    · intro i id t hid ht
      by_cases hin : k ≤ i ∧ i < k + n
      · rw [if_pos hin] at hid
        cases hid
        refine ⟨_, _, hg, by rw [List.getElem?_map, hmember i t hin ht]; rfl, ?_⟩
        exact kind_compKey k n c t.body
      · rw [if_neg hin] at hid
        exact hc.kind i id t hid ht
    · intro i id t hid ht id'
      have hsupers := hdeclared i t ht
      by_cases hin : k ≤ i ∧ i < k + n
      · rw [if_pos hin] at hid
        cases hid
        constructor
        · rintro ⟨key, sk, hkey, hsk, rk, hrk, hres⟩
          cases hinj _ _ _ hkey hg
          rw [List.getElem?_map, hmember i t hin ht] at hsk
          cases hsk
          obtain ⟨s, hs, rfl⟩ := List.mem_map.mp hrk
          have hlt := hsupers s hs
          rw [resolve_refKey hc.dom (by omega)] at hres
          exact ⟨s, hs, hres⟩
        · rintro ⟨s, hs, hres⟩
          have hlt := hsupers s hs
          refine ⟨_, _, hg, by rw [List.getElem?_map, hmember i t hin ht]; rfl, _,
            List.mem_map_of_mem hs, ?_⟩
          rw [resolve_refKey hc.dom (by omega)]
          exact hres
      · rw [if_neg hin] at hid
        have hlow : i < k := by rw [← hc.dom, hid]; rfl
        rw [hc.declares i id t hid ht]
        apply exists_congr
        intro s
        apply and_congr_right
        intro hs
        have hlt := hsupers s hs
        rw [if_neg (by omega)]

/-- Canonicalising groups laid end to end. -/
theorem Known.groups {gs : List (ℕ × ℕ)} {k n : ℕ} {c c' : CanonMap}
    (hinj : Separate intern)
    (hdeclared : ∀ (i : ℕ) (t : SubType), types[i]? = some t → ∀ s ∈ t.supers, s < i)
    (hc : Known intern types k c) (htiled : Tiled k gs n)
    (h : gs.foldlM (fun c g => Cast.group intern types g c) c = some c') :
    Known intern types n c' := by
  induction gs generalizing k c with
  | nil =>
    cases h
    cases htiled
    exact hc
  | cons g gs ih =>
    obtain ⟨start, m⟩ := g
    obtain ⟨rfl, htiled⟩ := htiled
    rw [List.foldlM_cons] at h
    cases hg : Cast.group intern types (start, m) c with
    | none =>
      rw [hg] at h
      cases h
    | some d =>
      rw [hg] at h
      exact ih (hc.group hinj hdeclared hg) htiled h

end

/-! ## The walks of a validated type section -/

namespace Context

variable {intern : List SubtypeKey → Option ℕ} (ctx : Context intern)

theorem supers_lt (i : ℕ) (t : SubType) (h : ctx.types[i]? = some t) : ∀ s ∈ t.supers, s < i :=
  fun s hs => (ctx.declared i t h s hs).1

theorem type_lt {i : ℕ} {t : SubType} (h : ctx.types[i]? = some t) : i < ctx.types.length :=
  (List.getElem?_eq_some_iff.mp h).1

/-- The identities of a type section, by index. -/
theorem canon_eq (hinj : Separate intern) :
    ctx.canon.length = ctx.types.length ∧ ∃ c, Known intern ctx.types ctx.types.length c ∧
      ∀ i < ctx.types.length, ctx.canon[i]? = c i := by
  have hbuilt := ctx.canonical
  rw [canonicalise] at hbuilt
  cases hc : ctx.groups.foldlM (fun c g => group intern ctx.types g c) fun _ => none with
  | none =>
    rw [hc] at hbuilt
    cases hbuilt
  | some c =>
    rw [hc] at hbuilt
    have hempty : Known intern ctx.types 0 fun _ => none :=
      ⟨fun i => by simp, fun i id t h => (by cases h), fun i id t h => (by cases h)⟩
    have hknown := hempty.groups hinj ctx.supers_lt ctx.tiled hc
    obtain ⟨hlen, hget⟩ := get_of_mapM (hbuilt : (List.range _).mapM c = some ctx.canon)
    rw [List.length_range] at hlen
    refine ⟨hlen, c, hknown, ?_⟩
    intro i hi
    exact hget i i (List.getElem?_range hi)

theorem canon_length (hinj : Separate intern) : ctx.canon.length = ctx.types.length :=
  (ctx.canon_eq hinj).1

theorem canon_some (hinj : Separate intern) {i : ℕ} (hi : i < ctx.types.length) :
    ∃ id, ctx.canon[i]? = some id := by
  rw [← ctx.canon_length hinj] at hi
  exact ⟨_, List.getElem?_eq_getElem hi⟩

/-- An identity declares the identities of the supertypes of its type. -/
theorem declares_iff (hinj : Separate intern) {i : ℕ} {id : Canon} {t : SubType}
    (hid : ctx.canon[i]? = some id) (ht : ctx.types[i]? = some t) (id' : Canon) :
    Declares intern id id' ↔ ∃ s ∈ t.supers, ctx.canon[s]? = some id' := by
  obtain ⟨-, c, hknown, hget⟩ := ctx.canon_eq hinj
  have hi := ctx.type_lt ht
  rw [hget i hi] at hid
  rw [hknown.declares i id t hid ht]
  apply exists_congr
  intro s
  apply and_congr_right
  intro hs
  have hlt := ctx.supers_lt i t ht s hs
  rw [hget s (by omega)]

theorem hasKind (hinj : Separate intern) {i : ℕ} {id : Canon} {k : Kind}
    (hid : ctx.canon[i]? = some id) (hk : ctx.kindAt i = some k) : HasKind intern id k := by
  obtain ⟨-, c, hknown, hget⟩ := ctx.canon_eq hinj
  obtain ⟨t, ht, rfl⟩ := Option.map_eq_some_iff.mp hk
  rw [hget i (ctx.type_lt ht)] at hid
  exact hknown.kind i id t hid ht

/-- Subtyping of an identity, by the first step of its type. -/
theorem subtype_iff (hinj : Separate intern) {i : ℕ} {id : Canon} {t : SubType}
    (hid : ctx.canon[i]? = some id) (ht : ctx.types[i]? = some t) (id' : Canon) :
    Subtype intern id id' ↔
      id = id' ∨ ∃ s ∈ t.supers, ∃ d, ctx.canon[s]? = some d ∧ Subtype intern d id' := by
  rw [Subtype, ReflTransGen.cases_head_iff]
  apply or_congr Iff.rfl
  simp only [ctx.declares_iff hinj hid ht]
  constructor
  · rintro ⟨d, ⟨s, hs, hd⟩, hsub⟩
    exact ⟨s, hs, d, hd, hsub⟩
  · rintro ⟨s, hs, d, hd, hsub⟩
    exact ⟨d, ⟨s, hs, hd⟩, hsub⟩

theorem sameCanon_iff {a b : ℕ} {ca cb : Canon}
    (ha : ctx.canon[a]? = some ca) (hb : ctx.canon[b]? = some cb) :
    sameCanon ctx.canon a b = true ↔ ca = cb := by
  have hla := (List.getElem?_eq_some_iff.mp ha).1
  have hlb := (List.getElem?_eq_some_iff.mp hb).1
  simp only [sameCanon, Bool.or_eq_true, decide_eq_true_eq, Bool.and_eq_true, hla, hlb, ha, hb,
    true_and, Option.some.injEq, or_iff_right_iff_imp]
  rintro rfl
  exact Option.some.inj (ha.symm.trans hb)

/-- A supertype is declared before everything on the chain to it. -/
theorem fresh_cons {a s : ℕ} {seen : List ℕ} (hlt : s < a) (hseen : ∀ x ∈ seen, a < x) :
    ∀ x ∈ a :: seen, s < x := by
  intro x hx
  rcases List.mem_cons.mp hx with rfl | hx
  · exact hlt
  · exact Nat.lt_trans hlt (hseen x hx)

/-- On a chain of supertypes the indices fall, so no type is met twice. -/
theorem isSubtypeFrom_iff (hinj : Separate intern) {b : ℕ} {cb : Canon}
    (hb : ctx.canon[b]? = some cb) (a : ℕ) {ca : Canon} (ha : ctx.canon[a]? = some ca)
    {seen : List ℕ} (hseen : ∀ x ∈ seen, a < x) :
    isSubtypeFrom ctx.types ctx.canon b seen a = true ↔ Subtype intern ca cb := by
  induction a using Nat.strong_induction_on generalizing ca seen with
  | h a ih =>
    have hla : a < ctx.types.length := by
      rw [← ctx.canon_length hinj]
      exact (List.getElem?_eq_some_iff.mp ha).1
    have ht : ctx.types[a]? = some (ctx.types.get ⟨a, hla⟩) := List.getElem?_eq_getElem hla
    have hnew : a ∉ seen := fun hmem => Nat.lt_irrefl a (hseen a hmem)
    rw [isSubtypeFrom, Bool.or_eq_true, ctx.sameCanon_iff ha hb, dif_pos ⟨hnew, hla⟩,
      List.any_eq_true, ctx.subtype_iff hinj ha ht]
    apply or_congr Iff.rfl
    apply exists_congr
    intro s
    apply and_congr_right
    intro hs
    have hlt := ctx.supers_lt a _ ht s hs
    obtain ⟨d, hd⟩ := ctx.canon_some hinj (show s < ctx.types.length by omega)
    rw [ih s hlt hd (fresh_cons hlt hseen)]
    simp only [hd, Option.some.injEq, exists_eq_left']

theorem mem_walkSupers (hinj : Separate intern) (a : ℕ) {ca : Canon}
    (ha : ctx.canon[a]? = some ca) {seen : List ℕ} (hseen : ∀ x ∈ seen, a < x) (c : Canon) :
    c ∈ walkSupers ctx.types ctx.canon seen a ↔ Subtype intern ca c := by
  induction a using Nat.strong_induction_on generalizing ca seen with
  | h a ih =>
    have hla : a < ctx.types.length := by
      rw [← ctx.canon_length hinj]
      exact (List.getElem?_eq_some_iff.mp ha).1
    have ht : ctx.types[a]? = some (ctx.types.get ⟨a, hla⟩) := List.getElem?_eq_getElem hla
    have hnew : a ∉ seen := fun hmem => Nat.lt_irrefl a (hseen a hmem)
    rw [walkSupers, dif_pos ⟨hnew, hla⟩, List.mem_append, ha, Option.toList_some,
      List.mem_singleton, List.mem_flatMap, ctx.subtype_iff hinj ha ht]
    apply or_congr eq_comm
    apply exists_congr
    intro s
    apply and_congr_right
    intro hs
    have hlt := ctx.supers_lt a _ ht s hs
    obtain ⟨d, hd⟩ := ctx.canon_some hinj (show s < ctx.types.length by omega)
    rw [ih s hlt hd (fresh_cons hlt hseen)]
    simp only [hd, Option.some.injEq, exists_eq_left']

/-- `is_subtype/4` on indices is subtyping of their identities. -/
theorem isSubtype_iff (hinj : Separate intern) {a b : ℕ} {ca cb : Canon}
    (ha : ctx.canon[a]? = some ca) (hb : ctx.canon[b]? = some cb) :
    isSubtype ctx.types ctx.canon a b = true ↔ Subtype intern ca cb :=
  ctx.isSubtypeFrom_iff hinj hb a ha fun x hx => by cases hx

theorem mem_usort {cs : List Canon} {c : Canon} : c ∈ usort cs ↔ c ∈ cs := by
  rw [usort, List.mem_mergeSort, List.mem_dedup]

/-- `canon_supers/3` of an index is the identities above its own. -/
theorem mem_supersAt (hinj : Separate intern) {a : ℕ} {ca : Canon}
    (ha : ctx.canon[a]? = some ca) :
    ∃ ss, ctx.supersAt a = some ss ∧ ∀ c, c ∈ ss ↔ Subtype intern ca c := by
  have hla : a < ctx.types.length := by
    rw [← ctx.canon_length hinj]
    exact (List.getElem?_eq_some_iff.mp ha).1
  refine ⟨_, if_pos hla, ?_⟩
  intro c
  rw [canonSupers, mem_usort]
  exact ctx.mem_walkSupers hinj a ha (fun x hx => by cases hx) c

/-- A supertype is of the kind of its subtypes. -/
theorem hasKind_subtype (hinj : Separate intern) {i : ℕ} {id id' : Canon} {k : Kind}
    (hid : ctx.canon[i]? = some id) (hk : ctx.kindAt i = some k)
    (hsub : Subtype intern id id') : HasKind intern id' k := by
  induction i using Nat.strong_induction_on generalizing id with
  | h i ih =>
    obtain ⟨t, ht, hkind⟩ := Option.map_eq_some_iff.mp hk
    rcases (ctx.subtype_iff hinj hid ht id').mp hsub with rfl | ⟨s, hs, d, hd, hrest⟩
    · exact ctx.hasKind hinj hid hk
    · obtain ⟨hlt, u, hu, hsame⟩ := ctx.declared i t ht s hs
      have hks : ctx.kindAt s = some k := by rw [kindAt, hu, ← hkind, ← hsame]; rfl
      exact ih s hlt hd hks hrest

/-- An identity is of one kind. -/
theorem hasKind_unique (hinj : Separate intern) {id : Canon} {k k' : Kind}
    (h : HasKind intern id k) (h' : HasKind intern id k') : k = k' := by
  obtain ⟨key, sk, hkey, hsk, rfl⟩ := h
  obtain ⟨key', sk', hkey', hsk', rfl⟩ := h'
  cases hinj _ _ _ hkey hkey'
  cases hsk.symm.trans hsk'
  rfl

end Context

end ErlangWasm.Cast
