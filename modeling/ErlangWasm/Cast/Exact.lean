import ErlangWasm.Cast.Membership

/-!
# Casts decide membership

A cast decides membership of null, of an `i31`, of functions, of converted references and of host
terms that look like no other reference.  It decides that of an object when the running module has
the object's type at the same index.  It decides that of no exception.
-/

namespace ErlangWasm.Cast

open Decode

/-! ## The step of an instruction -/

def CastInstr.target : CastInstr → RefType
  | .refTest target | .refCast target => target
  | .brOnCast _ _ target | .brOnCastFail _ _ target => target

/-- The step of an instruction, given whether the reference is of the target. -/
def CastInstr.answer (member : Bool) : CastInstr → CastStep
  | .refTest _ => .push (if member then 1 else 0)
  | .refCast target => if member then .next else .castFailure target
  | .brOnCast n _ _ => if member then .branch n else .next
  | .brOnCastFail n _ _ => if member then .next else .branch n

section

variable {I : Interned} (st : St I)

theorem castStep_eq (i : CastInstr) (r : Term) :
    castStep st i r = (refMatches st r i.target).map fun b => i.answer b := by
  cases i <;> exact (Option.map_eq_bind ..).symm

/-! ## Casts of each kind of reference -/

/-- Casts decide membership of a reference, and never contradict its static type. -/
structure CastsExact (r : Ref) : Prop where
  tests : ∀ t, r.SameHierarchy st t →
    ∃ b, refMatches st r.term t = some b ∧ (b = true ↔ r.Belongs st t)
  steps : ∀ i : CastInstr, r.SameHierarchy st i.target →
    ∃ b, castStep st i r.term = some (i.answer b) ∧ (b = true ↔ r.Belongs st i.target)
  static : ∀ s t, r.Belongs st s → matches_ st.inst.ctx s t = true →
    (topOf st.inst.ctx t.heap).isSome → refMatches st r.term t = some true

/-- The test alone gives the instructions and the static types. -/
theorem castsExact_of_tests {r : Ref} (h : ∀ t, r.SameHierarchy st t →
    ∃ b, refMatches st r.term t = some b ∧ (b = true ↔ r.Belongs st t)) : CastsExact st r := by
  refine ⟨h, ?_, ?_⟩
  · intro i hsame
    obtain ⟨b, hb, hiff⟩ := h i.target hsame
    exact ⟨b, by rw [castStep_eq, hb]; rfl, hiff⟩
  · intro s t hs hm hvalid
    obtain ⟨hmember, hsame⟩ := hs.mono st hm hvalid
    obtain ⟨b, hb, hiff⟩ := h t hsame
    rw [hb, hiff.mpr hmember]

theorem refMatches_of_ne {r : Term} (h : r ≠ .null) (t : RefType) :
    refMatches st r t = (heapOf st r).bind fun d => heapTest st d t.heap := by
  cases r <;> first | rfl | exact absurd rfl h

/-- What is not null is of a reference type by its heap type. -/
theorem belongs_iff {r : Ref} (h : r ≠ .null) (t : RefType) : r.Belongs st t ↔ r.Has st t.heap := by
  simp [Ref.Belongs, h]

theorem concrete_type {k : Kind} {c : Canon} {b : ℕ} :
    Concrete st k c (.type b) ↔ Above st c b := by
  constructor
  · rintro (h | ⟨-, h | h⟩ | ⟨b', h, habove⟩)
    · cases k <;> cases h
    · cases h
    · cases h
    · cases h
      exact habove
  · intro h
    exact .inr (.inr ⟨b, rfl, h⟩)

theorem has_object {id : ℕ} {row : Row I} {c : Canon} (hrow : st.heap id = some row)
    (hc : row.owner.canon[row.type]? = some c) (h : HeapType) :
    (Ref.object id).Has st h ↔ Concrete st row.kind c h := by
  constructor
  · rintro ⟨row', c', hrow', hc', hconcrete⟩
    cases hrow.symm.trans hrow'
    cases hc.symm.trans hc'
    exact hconcrete
  · intro hconcrete
    exact ⟨row, c, hrow, hc, hconcrete⟩

/-- Testing a concrete value by the identities above its own. -/
theorem heapTest_concrete {k : Kind} {c : Canon} {supers : List Canon}
    (hsupers : ∀ d, d ∈ supers ↔ Subtype I.number c d) {h : HeapType}
    (hvalid : (topOf st.inst.ctx h).isSome) :
    ∃ b, heapTest st (.concrete k supers) h = some b ∧ (b = true ↔ Concrete st k c h) := by
  cases h with
  | type b =>
    rw [topOf, Option.isSome_map] at hvalid
    obtain ⟨k', hk'⟩ := Option.isSome_iff_exists.mp hvalid
    obtain ⟨t, ht, -⟩ := Option.map_eq_some_iff.mp hk'
    obtain ⟨d, hd⟩ := st.inst.ctx.canon_some I.separate (st.inst.ctx.type_lt ht)
    refine ⟨decide (d ∈ supers), by simp [heapTest, hd], ?_⟩
    rw [decide_eq_true_eq, hsupers, concrete_type]
    simp [Above, hd]
  | _ => cases k <;> simp [heapTest, Concrete, Kind.heap]

/-- A function reference is tested by the type its own instance gives it. -/
theorem heapOf_func {id f t : ℕ} {inst : Inst I} {c : Canon} (hinst : st.resolve id = some inst)
    (ht : inst.funcs[f]? = some t) (hc : inst.ctx.canon[t]? = some c) :
    ∃ supers, heapOf st (.funcref id f) = some (.concrete .func supers) ∧
      ∀ d, d ∈ supers ↔ Subtype I.number c d := by
  obtain ⟨supers, hsupers, hmem⟩ := inst.ctx.mem_supersAt I.separate hc
  exact ⟨supers, by simp [heapOf, hinst, fnType, ht, hsupers], hmem⟩

/-- An object is tested by the type the running module has at the index of its row. -/
theorem heapOf_object {id : ℕ} {row : Row I} {k : Kind} {c : Canon} (hrow : st.heap id = some row)
    (hk : st.inst.ctx.kindAt row.type = some k) (hc : st.inst.ctx.canon[row.type]? = some c) :
    ∃ supers, heapOf st (.objref id) = some (.concrete k supers) ∧
      ∀ d, d ∈ supers ↔ Subtype I.number c d := by
  obtain ⟨supers, hsupers, hmem⟩ := st.inst.ctx.mem_supersAt I.separate hc
  exact ⟨supers, by simp [heapOf, hrow, hk, hsupers], hmem⟩

/-! ## When casts are exact -/

/-- The running module has an object's type at the index of its row: it is of the object's kind, and
below the same types the running module declares. -/
def LocalAs (row : Row I) : Prop :=
  st.inst.ctx.kindAt row.type = some row.kind ∧
    ∀ c c', row.owner.canon[row.type]? = some c → st.inst.ctx.canon[row.type]? = some c' →
      ∀ b, topOf st.inst.ctx (.type b) = some .any → (Above st c' b ↔ Above st c b)

/-- A term that is kept for a reference of another hierarchy than the external one. -/
def Term.Reserved : Term → Prop
  | .i31 _ | .objref _ | .funcref _ _ | .bareFuncref _ | .internal _ => True
  | _ => False

theorem heapTest_external {d : HeapOf} (h : heapTest st d .external = some true) : d = .external := by
  cases d with
  | external => rfl
  | concrete k supers => cases k <;> cases h
  | _ => cases h

theorem heapOf_reserved {t : Term} (h : t.Reserved) : heapOf st t ≠ some .external := by
  intro heq
  cases t with
  | objref id | funcref inst f => simp [heapOf, Option.bind_eq_some_iff] at heq
  | i31 v | bareFuncref f | internal t => cases heq
  | _ => exact h

/-- The references whose membership casts decide. -/
def Faithful : Ref → Prop
  | .object id => ∀ row, st.heap id = some row → LocalAs st row
  | .host t => ¬ t.Reserved
  | .bareFunc _ | .exn _ _ => False
  | _ => True

theorem type_of_kindAt {ctx : Context I.number} {i : ℕ} {k : Kind} (h : ctx.kindAt i = some k) :
    ∃ t, ctx.types[i]? = some t := by
  obtain ⟨t, ht, -⟩ := Option.map_eq_some_iff.mp h
  exact ⟨t, ht⟩

theorem SameHierarchy.valid {r : Ref} {t : RefType} (h : r.SameHierarchy st t) :
    (topOf st.inst.ctx t.heap).isSome := by
  obtain ⟨top, htop, -⟩ := h
  rw [htop]
  rfl

theorem SameHierarchy.top {r : Ref} (hr : r ≠ .null) {t : RefType} (h : r.SameHierarchy st t) :
    topOf st.inst.ctx t.heap = some r.top := by
  obtain ⟨top, htop, hnull | hsame⟩ := h
  · exact absurd hnull hr
  · rw [htop, hsame]

/-- In the object hierarchy, a value of the running module's type is a member as the object is. -/
theorem concrete_congr {row : Row I} {c c' : Canon} (hlocal : LocalAs st row)
    (hc : row.owner.canon[row.type]? = some c) (hc' : st.inst.ctx.canon[row.type]? = some c')
    {h : HeapType} (htop : topOf st.inst.ctx h = some .any) :
    Concrete st row.kind c' h ↔ Concrete st row.kind c h := by
  cases h with
  | type b => rw [concrete_type, concrete_type, hlocal.2 c c' hc hc' b htop]
  | _ => simp [Concrete]

/-- The references casts decide. -/
theorem tests_of_faithful {r : Ref} (hlive : r.Live st) (hfaithful : Faithful st r) (t : RefType)
    (hsame : r.SameHierarchy st t) :
    ∃ b, refMatches st r.term t = some b ∧ (b = true ↔ r.Belongs st t) := by
  have hvalid := SameHierarchy.valid st hsame
  cases r with
  | null => exact ⟨t.nullable, rfl, by simp [Ref.Belongs, Ref.Has]⟩
  | i31 v =>
    refine ⟨_, rfl, ?_⟩
    rw [belongs_iff st (by simp)]
    simp [Ref.Has, or_assoc]
  | object id =>
    obtain ⟨row, hrow⟩ := Option.isSome_iff_exists.mp hlive
    have hlocal := hfaithful row hrow
    obtain ⟨u, hu⟩ := type_of_kindAt hlocal.1
    obtain ⟨c', hc'⟩ := st.inst.ctx.canon_some I.separate (st.inst.ctx.type_lt hu)
    obtain ⟨v, hv⟩ := type_of_kindAt row.typed
    obtain ⟨c, hc⟩ := row.owner.canon_some I.separate (row.owner.type_lt hv)
    obtain ⟨supers, hheap, hsupers⟩ := heapOf_object st hrow hlocal.1 hc'
    obtain ⟨b, hb, hiff⟩ := heapTest_concrete st (k := row.kind) hsupers hvalid
    have htop := SameHierarchy.top st (by simp) hsame
    refine ⟨b, ?_, ?_⟩
    · rw [Ref.term, refMatches_of_ne st (by simp), hheap]
      exact hb
    · rw [belongs_iff st (by simp), hiff, concrete_congr st hlocal hc hc' htop,
        has_object st hrow hc]
  | func id f =>
    obtain ⟨inst, hinst, hf⟩ := hlive
    have ht : inst.funcs[f]? = some (inst.funcs.get ⟨f, hf⟩) := List.getElem?_eq_getElem hf
    obtain ⟨u, hu⟩ := type_of_kindAt (inst.typed _ (List.mem_of_getElem? ht))
    obtain ⟨c, hc⟩ := inst.ctx.canon_some I.separate (inst.ctx.type_lt hu)
    obtain ⟨supers, hheap, hsupers⟩ := heapOf_func st hinst ht hc
    obtain ⟨b, hb, hiff⟩ := heapTest_concrete st (k := .func) hsupers hvalid
    refine ⟨b, ?_, ?_⟩
    · rw [Ref.term, refMatches_of_ne st (by simp), hheap]
      exact hb
    · rw [belongs_iff st (by simp), hiff, Ref.Has]
      constructor
      · intro hconcrete
        exact ⟨inst, _, c, hinst, ht, hc, hconcrete⟩
      · rintro ⟨inst', t', c', hinst', ht', hc', hconcrete⟩
        cases hinst.symm.trans hinst'
        cases ht.symm.trans ht'
        cases hc.symm.trans hc'
        exact hconcrete
  | bareFunc f | exn tag values => exact hfaithful.elim
  | host u =>
    have hheap : heapOf st u = some .external := by
      cases u <;> first | rfl | exact absurd trivial hfaithful
    refine ⟨decide (t.heap = .external), ?_, ?_⟩
    · rw [Ref.term, refMatches_of_ne st hlive, hheap]
      rfl
    · rw [belongs_iff st (by simp), decide_eq_true_eq]
      rfl
  | internalised u | externalised r =>
    refine ⟨_, rfl, ?_⟩
    rw [belongs_iff st (by simp), decide_eq_true_eq]
    rfl

/-- The references casts decide are no others. -/
theorem faithful_of_tests {r : Ref} (hlive : r.Live st) (htests : ∀ t, r.SameHierarchy st t →
    ∃ b, refMatches st r.term t = some b ∧ (b = true ↔ r.Belongs st t)) : Faithful st r := by
  cases r with
  | object id =>
    intro row hrow
    obtain ⟨v, hv⟩ := type_of_kindAt row.typed
    obtain ⟨c, hc⟩ := row.owner.canon_some I.separate (row.owner.type_lt hv)
    have hhas : ∀ h, (Ref.object id).Belongs st ⟨false, h⟩ ↔ Concrete st row.kind c h := by
      intro h
      rw [belongs_iff st (by simp), has_object st hrow hc]
    -- the row's index names a type of the running module, or no test answers
    obtain ⟨b, hb, hany⟩ := htests ⟨false, .any⟩ ⟨.any, rfl, .inr rfl⟩
    rw [hhas] at hany
    have hmember : b = true := hany.mpr (.inr (.inl ⟨row.object, .inr rfl⟩))
    rw [hmember, Ref.term, refMatches_of_ne st (by simp)] at hb
    cases hk : st.inst.ctx.kindAt row.type with
    | none => simp [heapOf, hrow, hk] at hb
    | some k =>
      obtain ⟨u, hu⟩ := type_of_kindAt hk
      obtain ⟨c', hc'⟩ := st.inst.ctx.canon_some I.separate (st.inst.ctx.type_lt hu)
      obtain ⟨supers, hheap, hsupers⟩ := heapOf_object st hrow hk hc'
      have hiff : ∀ h, topOf st.inst.ctx h = some .any →
          (Concrete st k c' h ↔ Concrete st row.kind c h) := by
        intro h htop
        obtain ⟨b, hb, hb'⟩ := htests ⟨false, h⟩ ⟨.any, htop, .inr rfl⟩
        obtain ⟨b', hb'', hlocal⟩ := heapTest_concrete st (k := k) hsupers
          (show (topOf st.inst.ctx h).isSome by rw [htop]; rfl)
        rw [Ref.term, refMatches_of_ne st (by simp), hheap, Option.bind_some, hb''] at hb
        cases hb
        rw [← hlocal, hb', hhas]
      have hkind : k = row.kind := by
        have hobject := (hiff .eq rfl).mpr (.inr (.inl ⟨row.object, .inl rfl⟩))
        have hstruct := hiff .struct rfl
        have hrow := row.object
        revert hobject hstruct hrow
        cases k <;> cases row.kind <;> simp [Concrete, Kind.heap]
      refine ⟨hkind ▸ hk, ?_⟩
      intro d d' hd hd' b htop
      cases hc.symm.trans hd
      cases hc'.symm.trans hd'
      rw [← concrete_type st (k := k), hiff _ htop, concrete_type]
  | bareFunc f =>
    have ht : st.inst.funcs[f]? = some (st.inst.funcs.get ⟨f, hlive⟩) :=
      List.getElem?_eq_getElem hlive
    have hk := st.inst.typed _ (List.mem_of_getElem? ht)
    obtain ⟨u, hu⟩ := type_of_kindAt hk
    obtain ⟨c, hc⟩ := st.inst.ctx.canon_some I.separate (st.inst.ctx.type_lt hu)
    -- it is of its own type, which no test says
    obtain ⟨b, hb, hiff⟩ := htests ⟨false, .type (st.inst.funcs.get ⟨f, hlive⟩)⟩
      ⟨.func, by rw [topOf, hk]; rfl, .inr rfl⟩
    rw [belongs_iff st (by simp)] at hiff
    have hmember := hiff.mpr ⟨_, c, ht, hc, .inr (.inr ⟨_, rfl, c, hc, .refl⟩)⟩
    rw [hmember, Ref.term, refMatches_of_ne st (by simp)] at hb
    change st.inst.ctx.canon[st.inst.funcs.get ⟨f, hlive⟩]?.bind _ = some true at hb
    rw [hc] at hb
    simp at hb
  | exn tag values =>
    obtain ⟨b, hb, hiff⟩ := htests ⟨false, .exn⟩ ⟨.exn, rfl, .inr rfl⟩
    rw [belongs_iff st (by simp)] at hiff
    rw [hiff.mpr rfl] at hb
    cases hb
  | host u =>
    obtain ⟨b, hb, hiff⟩ := htests ⟨false, .external⟩ ⟨.external, rfl, .inr rfl⟩
    rw [belongs_iff st (by simp)] at hiff
    rw [hiff.mpr rfl, Ref.term, refMatches_of_ne st hlive] at hb
    intro hreserved
    obtain ⟨d, hd, htest⟩ := Option.bind_eq_some_iff.mp hb
    exact heapOf_reserved st hreserved (heapTest_external st htest ▸ hd)
  | _ => trivial

end

/-- A module with no types, before any group is interned. -/
def noTypes : St ⟨fun _ => none, fun _ _ _ h => by cases h⟩ where
  id := 0
  inst :=
    { ctx :=
        { types := []
          groups := []
          canon := []
          tiled := tiled_flattenGroups []
          canonical := rfl
          declared := fun i t h => by simp at h }
      funcs := []
      typed := fun t h => by cases h }
  notes := fun _ => none
  heap := fun _ => none

end ErlangWasm.Cast
