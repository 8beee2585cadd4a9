import Mathlib.Algebra.BigOperators.Group.List.Basic

/-!
# Filling bins with room for so many

Items are placed one after the other, each into some bin that still has room, whichever that is and
however the bins are ordered; it ends when the items do, or when no bin has room for the next one.
-/

namespace Reasoning.Bins

variable {α : Type*} {cap : ℕ} {items : List α} {bins out : List (List α)}

inductive Fill (cap : ℕ) : List α → List (List α) → Option (List (List α)) → Prop
  | done (bins : List (List α)) : Fill cap [] bins (some bins)
  | full {x : α} {items : List α} {bins : List (List α)} :
      (∀ b ∈ bins, cap ≤ b.length) → Fill cap (x :: items) bins none
  | put {x : α} {items b : List α} {bins bins' others : List (List α)}
      {r : Option (List (List α))} :
      bins.Perm (b :: others) → b.length < cap → bins'.Perm ((x :: b) :: others) →
      Fill cap items bins' r → Fill cap (x :: items) bins r

/-- Every item is in a bin once, beside what was there. -/
theorem Fill.perm (h : Fill cap items bins (some out)) :
    out.flatten.Perm (items ++ bins.flatten) := by
  generalize hr : some out = r at h
  induction h with
  | done bins =>
    cases hr
    exact .refl _
  | full _ => cases hr
  | @put x items b bins bins' others _ hperm _ hperm' _ ih =>
    have hmore : bins'.flatten.Perm (x :: bins.flatten) :=
      hperm'.flatten.trans (.cons x hperm.flatten.symm)
    exact (ih hr).trans ((List.Perm.append_left _ hmore).trans List.perm_middle)

theorem Fill.length (h : Fill cap items bins (some out)) : out.length = bins.length := by
  generalize hr : some out = r at h
  induction h with
  | done bins =>
    cases hr
    rfl
  | full _ => cases hr
  | put hperm _ hperm' _ ih =>
    rw [ih hr, hperm.length_eq, hperm'.length_eq, List.length_cons, List.length_cons]

/-- No bin is filled past its room. -/
theorem Fill.le_cap (h : Fill cap items bins (some out)) (hbins : ∀ b ∈ bins, b.length ≤ cap) :
    ∀ b ∈ out, b.length ≤ cap := by
  generalize hr : some out = r at h
  induction h with
  | done bins =>
    cases hr
    exact hbins
  | full _ => cases hr
  | put hperm hlt hperm' _ ih =>
    apply ih _ hr
    intro c hc
    rcases List.mem_cons.mp (hperm'.mem_iff.mp hc) with rfl | hc
    · exact hlt
    · exact hbins c (hperm.mem_iff.mpr (List.mem_cons_of_mem _ hc))

theorem mul_length_le (h : ∀ b ∈ bins, cap ≤ b.length) :
    bins.length * cap ≤ bins.flatten.length := by
  induction bins with
  | nil => simp
  | cons b bins ih =>
    have hb := h b List.mem_cons_self
    have hbins := ih fun c hc => h c (List.mem_cons_of_mem _ hc)
    rw [List.length_cons, Nat.succ_mul, List.flatten_cons, List.length_append]
    omega

/-- Where no bin has room for the next item, there are more than fit. -/
theorem Fill.overfull (h : Fill cap items bins none) :
    bins.length * cap < items.length + bins.flatten.length := by
  generalize hr : none = r at h
  induction h with
  | done bins => cases hr
  | full hfull =>
    have := mul_length_le hfull
    rw [List.length_cons]
    omega
  | put hperm _ hperm' _ ih =>
    have hrest := ih hr
    have hlen := hperm.length_eq
    have hlen' := hperm'.length_eq
    have hflat := hperm.flatten.length_eq
    have hflat' := hperm'.flatten.length_eq
    rw [List.flatten_cons, List.length_append] at hflat hflat'
    rw [List.length_cons] at hlen hlen' hflat' ⊢
    rw [hlen'] at hrest
    rw [hlen]
    omega

end Reasoning.Bins
