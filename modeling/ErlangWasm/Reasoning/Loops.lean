import Mathlib.Data.Set.Finite.Basic

/-!
# Following a relation round in a loop

Where only finitely many things point on, what is followed from a thing that reaches no loop comes
to an end.
-/

namespace Reasoning

open Relation

variable {α : Type*} {r : α → α → Prop}

/-- Some path from `a` comes to a thing that points, by a path, at itself. -/
def Loops (r : α → α → Prop) (a : α) : Prop := ∃ b, ReflTransGen r a b ∧ TransGen r b b

theorem Loops.of_step {a b : α} (h : r a b) (hb : Loops r b) : Loops r a := by
  obtain ⟨c, hpath, hloop⟩ := hb
  exact ⟨c, .head h hpath, hloop⟩

/-- What leads to a loop points at something that does. -/
theorem Loops.step {a : α} (h : Loops r a) : ∃ b, r a b ∧ Loops r b := by
  obtain ⟨c, hpath, hloop⟩ := h
  obtain rfl | ⟨b, hab, hbc⟩ := ReflTransGen.cases_head hpath
  · -- on the loop itself: its first step leads round to it
    obtain ⟨b, hab, hba⟩ := TransGen.head'_iff.mp hloop
    exact ⟨b, hab, a, hba, hloop⟩
  · exact ⟨b, hab, c, hbc, hloop⟩

/-- Following from a thing that leads to no loop comes to an end. -/
theorem acc_of_not_loops {s : Set α} (hs : s.Finite) (hsource : ∀ a b, r a b → a ∈ s) {a : α}
    (h : ¬ Loops r a) : Acc (fun b c => r c b) a := by
  -- the sources within reach, ordered by the paths between them
  let Reached := {b : α // b ∈ s ∧ ReflTransGen r a b}
  have hfin : Finite Reached := Set.Finite.to_subtype (hs.subset fun b hb => hb.1)
  let below : Reached → Reached → Prop := fun b c => TransGen r c.1 b.1
  have htrans : IsTrans Reached below := ⟨fun b c d hbc hcd => hcd.trans hbc⟩
  have hirrefl : Std.Irrefl below := ⟨fun b hb => h ⟨b.1, b.2.2, hb⟩⟩
  have hwf : WellFounded below := Finite.wellFounded_of_trans_of_irrefl below
  have hacc : ∀ b : Reached, Acc (fun b c => r c b) b.1 := by
    intro b
    induction b using hwf.induction with
    | _ b ih =>
      refine ⟨_, fun c hbc => ?_⟩
      by_cases hc : c ∈ s
      · exact ih ⟨c, hc, b.2.2.tail hbc⟩ (.single hbc)
      · exact ⟨_, fun d hcd => absurd (hsource c d hcd) hc⟩
  by_cases ha : a ∈ s
  · exact hacc ⟨a, ha, .refl⟩
  · exact ⟨_, fun b hab => absurd (hsource a b hab) ha⟩

end Reasoning
