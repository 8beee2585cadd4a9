import ErlangWasm.Canon.Strings

/-!
# Joined slots

The cases of a variant share slots.  A slot is wide enough for the flat type of every case that
reaches it, and a core value that was widened into it is got back from it.
-/

namespace ErlangWasm.Canon

open ErlangWasm.Num (RuntimeFloat f32FromBits f32ToBits f64FromBits f64ToBits IsF32 IsF64)

/-! ## Core values -/

/-- The core values of a flat type. -/
def FlatType.Valid : FlatType → Core → Prop
  | .i32, .int i => 0 ≤ i ∧ i < 2 ^ 32
  | .i64, .int i => 0 ≤ i ∧ i < 2 ^ 64
  | .f32, .float f => IsF32 f
  | .f64, .float f => IsF64 f
  | _, _ => False

/-- Core values of flat types, one by one. -/
def ValidAll : List FlatType → List Core → Prop
  | [], [] => True
  | t :: ts, v :: vs => t.Valid v ∧ ValidAll ts vs
  | _, _ => False

theorem ValidAll.length_eq {ts : List FlatType} {vs : List Core} (h : ValidAll ts vs) :
    vs.length = ts.length := by
  induction ts generalizing vs with
  | nil =>
    cases vs with
    | nil => rfl
    | cons v vs => cases h
  | cons t ts ih =>
    cases vs with
    | nil => cases h
    | cons v vs => rw [List.length_cons, List.length_cons, ih h.2]

theorem ValidAll.append {ts us : List FlatType} {vs ws : List Core} (h : ValidAll ts vs)
    (h' : ValidAll us ws) : ValidAll (ts ++ us) (vs ++ ws) := by
  induction ts generalizing vs with
  | nil =>
    cases vs with
    | nil => exact h'
    | cons v vs => cases h
  | cons t ts ih =>
    cases vs with
    | nil => cases h
    | cons v vs => exact ⟨h.1, ih h.2⟩

/-! ## Slots -/

/-- Every value of `t` can be widened into a slot `s`. -/
def Fits (t s : FlatType) : Prop := t = s ∨ s = .i64 ∨ t = .f32 ∧ s = .i32

theorem fits_join_left {t s : FlatType} (h : Fits t s) (u : FlatType) : Fits t (join s u) := by
  unfold Fits at h ⊢
  cases t <;> cases s <;> cases u <;> simp_all [join]

theorem fits_join_right (t s : FlatType) : Fits t (join s t) := by
  unfold Fits
  cases t <;> cases s <;> simp [join]

/-- A value in its slot is got back from it. -/
theorem coerce_spec {t s : FlatType} {v : Core} (hfits : Fits t s) (hv : t.Valid v) :
    ∃ w, coerce v t s = .ok w ∧ s.Valid w ∧ uncoerceOne w s t = .ok v := by
  by_cases heq : t = s
  · subst heq
    exact ⟨v, if_pos rfl, hv, if_pos rfl⟩
  · rcases hfits with h | rfl | ⟨rfl, rfl⟩
    · exact absurd h heq
    · cases t with
      | i64 => exact absurd rfl heq
      | i32 =>
        cases v with
        | float f => cases hv
        | int i =>
          have hmod : i % 2 ^ 32 = i := Int.emod_eq_of_lt hv.1 hv.2
          refine ⟨.int i, ?_, ⟨hv.1, lt_trans hv.2 (by decide)⟩, ?_⟩
          · show Except.ok (Core.int (i % 2 ^ 32)) = _
            rw [hmod]
          · show Except.ok (Core.int (i % 2 ^ 32)) = _
            rw [hmod]
      | f32 =>
        cases v with
        | int i => cases hv
        | float f =>
          obtain ⟨bits, hlt, hto, hfrom⟩ := IsF32.toBits hv
          have hmod : ((bits : ℤ) % 2 ^ 32).toNat = bits := by omega
          refine ⟨.int bits, ?_, ⟨Int.natCast_nonneg _, by omega⟩, ?_⟩
          · show Core.f32Bits (.float f) = _
            rw [Core.f32Bits, hto]
          · show Except.ok (Core.float (f32FromBits ((bits : ℤ) % 2 ^ 32).toNat)) = _
            rw [hmod, hfrom]
      | f64 =>
        cases v with
        | int i => cases hv
        | float f =>
          obtain ⟨hlt, hfrom⟩ := IsF64.toBits hv
          have hmod : ((f64ToBits f : ℤ) % 2 ^ 64).toNat = f64ToBits f := by omega
          refine ⟨.int (f64ToBits f), rfl, ⟨Int.natCast_nonneg _, by omega⟩, ?_⟩
          show Except.ok (Core.float (f64FromBits ((f64ToBits f : ℤ) % 2 ^ 64).toNat)) = _
          rw [hmod, hfrom]
    · cases v with
      | int i => cases hv
      | float f =>
        obtain ⟨bits, hlt, hto, hfrom⟩ := IsF32.toBits hv
        have hmod : ((bits : ℤ) % 2 ^ 32).toNat = bits := by omega
        refine ⟨.int bits, ?_, ⟨Int.natCast_nonneg _, by omega⟩, ?_⟩
        · show Core.f32Bits (.float f) = _
          rw [Core.f32Bits, hto]
        · show Except.ok (Core.float (f32FromBits ((bits : ℤ) % 2 ^ 32).toNat)) = _
          rw [hmod, hfrom]

/-! ## Cases -/

/-- Every flat of a case fits its slot. -/
def FitsAll : List FlatType → List FlatType → Prop
  | [], _ => True
  | t :: ts, s :: slots => Fits t s ∧ FitsAll ts slots
  | _ :: _, [] => False

theorem fitsAll_join_left {ts slots : List FlatType} (h : FitsAll ts slots)
    (us : List FlatType) : FitsAll ts (joinLists slots us) := by
  induction ts generalizing slots us with
  | nil => trivial
  | cons t ts ih =>
    cases slots with
    | nil => cases h
    | cons s slots =>
      cases us with
      | nil => exact h
      | cons u us => exact ⟨fits_join_left h.1 u, ih h.2 us⟩

theorem fitsAll_self (ts : List FlatType) : FitsAll ts ts := by
  induction ts with
  | nil => trivial
  | cons t ts ih => exact ⟨.inl rfl, ih⟩

theorem fitsAll_join_right (ts slots : List FlatType) : FitsAll ts (joinLists slots ts) := by
  induction ts generalizing slots with
  | nil => trivial
  | cons t ts ih =>
    cases slots with
    | nil => exact fitsAll_self (t :: ts)
    | cons s slots => exact ⟨fits_join_right t s, ih slots⟩

/-- The slots of a fold over cases, and those it began with. -/
theorem fitsAll_foldl {cases : List (Option (List FlatType))} {acc ts : List FlatType}
    (h : FitsAll ts acc ∨ some ts ∈ cases) :
    FitsAll ts (cases.foldl (fun acc c =>
      match c with
      | none => acc
      | some us => joinLists acc us) acc) := by
  induction cases generalizing acc with
  | nil =>
    rcases h with h | h
    · exact h
    · cases h
  | cons c cases ih =>
    rw [List.foldl_cons]
    apply ih
    rcases h with h | h
    · left
      cases c with
      | none => exact h
      | some us => exact fitsAll_join_left h us
    · rcases List.mem_cons.mp h with rfl | hin
      · exact .inl (fitsAll_join_right ts acc)
      · exact .inr hin

theorem flatTypesCases_eq (cases : List (Tag × Option Desc)) :
    flatTypesCases cases = cases.map fun c => c.2.map flatTypes := by
  induction cases with
  | nil => rfl
  | cons c cases ih =>
    obtain ⟨t, o⟩ := c
    cases o with
    | none => rw [flatTypesCases, List.map_cons, ih, Option.map_none]
    | some d => rw [flatTypesCases, List.map_cons, ih, Option.map_some]

/-- Every case fits the slots of its variant. -/
theorem fitsAll_joinCases {cases : List (Tag × Option Desc)} {t : Tag} {d : Desc}
    (h : (t, some d) ∈ cases) : FitsAll (flatTypes d) (joinCases cases) := by
  apply fitsAll_foldl
  right
  rw [flatTypesCases_eq]
  exact List.mem_map.mpr ⟨(t, some d), h, rfl⟩

/-- A slot that is left over holds the integer 0, which is a value of an integer slot only. -/
def IntSlots (slots : List FlatType) : Prop := ∀ s ∈ slots, s = .i32 ∨ s = .i64

theorem coerceJoin_pad {slots : List FlatType} (h : IntSlots slots) :
    ∃ ws, coerceJoin [] [] slots = .ok ws ∧ ValidAll slots ws := by
  induction slots with
  | nil => exact ⟨[], rfl, trivial⟩
  | cons s slots ih =>
    obtain ⟨ws, hws, hvalid⟩ := ih fun u hu => h u (List.mem_cons_of_mem _ hu)
    refine ⟨.int 0 :: ws, ?_, ?_, hvalid⟩
    · show (coerceJoin [] [] slots >>= fun ws => pure (Core.int 0 :: ws)) = _
      rw [hws]
      rfl
    · rcases h s List.mem_cons_self with rfl | rfl
      · exact ⟨by decide, by decide⟩
      · exact ⟨by decide, by decide⟩

/-- A payload in the slots of its variant, and got back from them. -/
theorem coerceJoin_spec {ts slots : List FlatType} {vs : List Core} (hv : ValidAll ts vs)
    (hfits : FitsAll ts slots) (hints : IntSlots (slots.drop ts.length)) :
    ∃ ws, coerceJoin vs ts slots = .ok ws ∧ ValidAll slots ws ∧ uncoerce ts slots ws = .ok vs := by
  induction ts generalizing slots vs with
  | nil =>
    cases vs with
    | cons v vs => cases hv
    | nil =>
      obtain ⟨ws, hws, hvalid⟩ := coerceJoin_pad hints
      exact ⟨ws, hws, hvalid, rfl⟩
  | cons t ts ih =>
    cases vs with
    | nil => cases hv
    | cons v vs =>
      cases slots with
      | nil => cases hfits
      | cons s slots =>
        obtain ⟨w, hw, hvalid, hback⟩ := coerce_spec hfits.1 hv.1
        obtain ⟨ws, hws, hvalids, hbacks⟩ := ih hv.2 hfits.2 hints
        refine ⟨w :: ws, ?_, ⟨hvalid, hvalids⟩, ?_⟩
        · show (coerce v t s >>= fun w => coerceJoin vs ts slots >>= fun ws => pure (w :: ws)) = _
          rw [hw, hws]
          rfl
        · show (uncoerceOne w s t >>= fun v => uncoerce ts slots ws >>= fun vs =>
            pure (v :: vs)) = _
          rw [hback, hbacks]
          rfl

end ErlangWasm.Canon
