import Mathlib.Data.List.Basic

/-!
# References along the control paths of a term

A term of lets, cases, local functions and jumps to them, kept as what each part of it references.
`Path` gives the references along a control path, as far as any of its jumps.  `Uses`, `Occurs` and
`Whole` are read off the term, and say of all of its paths that they reference something, that they
do not, and that they reference all of some things or none.
-/

namespace Reasoning.References

variable {ν κ : Type}

inductive Code (ν κ : Type)
  -- an expression: a call, a tuple, values
  | expr (es : List ν)
  | jump (k : κ) (es : List ν)
  -- a list of values is bound
  | let_ (vs : List ν) (e body : Code ν κ)
  -- a tuple is taken apart
  | match_ (vs : List ν) (e body : Code ν κ)
  | case_ (es : List ν) (clauses : Code ν κ)
  | alt (a b : Code ν κ)
  | letrec (k : κ) (params : List ν) (f body : Code ν κ)

/-- The local functions in scope, the innermost first, each with its own scope behind it. -/
abbrev Scope (ν κ : Type) := List (κ × Code ν κ)

def Scope.find [DecidableEq κ] (k : κ) : Scope ν κ → Option (Code ν κ × Scope ν κ)
  | [] => none
  | (k', f) :: scope => if k' = k then some (f, (k', f) :: scope) else Scope.find k scope

/-- What is referenced along a control path.  A path ends with an expression in tail position or
with a jump, or goes on in the function of the scope that it jumps to. -/
inductive Path [DecidableEq κ] : Scope ν κ → Code ν κ → List ν → Prop
  | expr {scope : Scope ν κ} {es : List ν} : Path scope (.expr es) es
  | jump {scope : Scope ν κ} {k : κ} {es : List ν} : Path scope (.jump k es) es
  | into {scope scope' : Scope ν κ} {k : κ} {es rs : List ν} {f : Code ν κ}
      (hfind : scope.find k = some (f, scope')) (hf : Path scope' f rs) :
      Path scope (.jump k es) (es ++ rs)
  | let_ {scope : Scope ν κ} {vs rs rs' : List ν} {e body : Code ν κ} (he : Path scope e rs)
      (hbody : Path scope body rs') : Path scope (.let_ vs e body) (rs ++ rs')
  | match_ {scope : Scope ν κ} {vs rs rs' : List ν} {e body : Code ν κ} (he : Path scope e rs)
      (hbody : Path scope body rs') : Path scope (.match_ vs e body) (rs ++ rs')
  | case_ {scope : Scope ν κ} {es rs : List ν} {clauses : Code ν κ} (h : Path scope clauses rs) :
      Path scope (.case_ es clauses) (es ++ rs)
  | left {scope : Scope ν κ} {rs : List ν} {a b : Code ν κ} (h : Path scope a rs) :
      Path scope (.alt a b) rs
  | right {scope : Scope ν κ} {rs : List ν} {a b : Code ν κ} (h : Path scope b rs) :
      Path scope (.alt a b) rs
  | letrec {scope : Scope ν κ} {k : κ} {params rs : List ν} {f body : Code ν κ}
      (h : Path ((k, f) :: scope) body rs) : Path scope (.letrec k params f body) rs

/-- Every path references `v`. -/
def Uses (v : ν) : Code ν κ → Prop
  | .expr es => v ∈ es
  | .jump _ es => v ∈ es
  | .let_ _ e body => Uses v e ∨ Uses v body
  | .match_ _ e body => Uses v e ∨ Uses v body
  | .case_ es clauses => v ∈ es ∨ Uses v clauses
  | .alt a b => Uses v a ∧ Uses v b
  | .letrec _ _ _ body => Uses v body

/-- `v` is referenced somewhere. -/
def Occurs (v : ν) : Code ν κ → Prop
  | .expr es => v ∈ es
  | .jump _ es => v ∈ es
  | .let_ _ e body => Occurs v e ∨ Occurs v body
  | .match_ _ e body => Occurs v e ∨ Occurs v body
  | .case_ es clauses => v ∈ es ∨ Occurs v clauses
  | .alt a b => Occurs v a ∨ Occurs v b
  | .letrec _ _ f body => Occurs v f ∨ Occurs v body

/-- Every path references all of `S` or nothing of it. -/
def Whole (S : List ν) : Code ν κ → Prop
  | .expr es => S ⊆ es ∨ S.Disjoint es
  | .jump _ es => S ⊆ es
  | .let_ _ e body => (∀ v ∈ S, Uses v e) ∨ (∀ v ∈ S, ¬ Occurs v e) ∧ Whole S body
  | .match_ _ e body => (∀ v ∈ S, Uses v e) ∨ (∀ v ∈ S, ¬ Occurs v e) ∧ Whole S body
  | .case_ es clauses => S.Disjoint es ∧ Whole S clauses
  | .alt a b => Whole S a ∧ Whole S b
  | .letrec _ _ f body => (∀ v ∈ S, ¬ Occurs v f) ∧ Whole S body

variable [DecidableEq κ]

/-- Wherever values are bound, a path of the body that references one of them references all that
come behind it. -/
def Ordered : Code ν κ → Prop
  | .expr _ => True
  | .jump _ _ => True
  | .let_ vs e body =>
    (∀ rs, Path [] body rs → vs.Pairwise fun v w => v ∈ rs → w ∈ rs) ∧ Ordered e ∧ Ordered body
  | .match_ _ e body => Ordered e ∧ Ordered body
  | .case_ _ clauses => Ordered clauses
  | .alt a b => Ordered a ∧ Ordered b
  | .letrec _ _ f body => Ordered f ∧ Ordered body

/-! ## Clauses in a row -/

section

variable {v : ν} {S : List ν} {clauses : List (Code ν κ)} {last : Code ν κ}

omit [DecidableEq κ] in
theorem uses_foldr :
    Uses v (clauses.foldr .alt last) ↔ (∀ a ∈ clauses, Uses v a) ∧ Uses v last := by
  induction clauses with
  | nil => simp
  | cons a clauses ih => simp [Uses, ih, and_assoc]

omit [DecidableEq κ] in
theorem occurs_foldr :
    Occurs v (clauses.foldr .alt last) ↔ (∃ a ∈ clauses, Occurs v a) ∨ Occurs v last := by
  induction clauses with
  | nil => simp
  | cons a clauses ih => simp [Occurs, ih, or_assoc]

omit [DecidableEq κ] in
theorem whole_foldr :
    Whole S (clauses.foldr .alt last) ↔ (∀ a ∈ clauses, Whole S a) ∧ Whole S last := by
  induction clauses with
  | nil => simp
  | cons a clauses ih => simp [Whole, ih, and_assoc]

theorem ordered_foldr :
    Ordered (clauses.foldr .alt last) ↔ (∀ a ∈ clauses, Ordered a) ∧ Ordered last := by
  induction clauses with
  | nil => simp
  | cons a clauses ih => simp [Ordered, ih, and_assoc]

end

/-! ## Paths -/

variable {scope : Scope ν κ} {c : Code ν κ} {rs : List ν}

theorem Path.uses (h : Path scope c rs) {v : ν} (hv : Uses v c) : v ∈ rs := by
  induction h with
  | expr => exact hv
  | jump => exact hv
  | into _ _ _ => exact List.mem_append_left _ hv
  | let_ _ _ ihe ihbody | match_ _ _ ihe ihbody =>
    rcases hv with hv | hv
    · exact List.mem_append_left _ (ihe hv)
    · exact List.mem_append_right _ (ihbody hv)
  | case_ _ ih =>
    rcases hv with hv | hv
    · exact List.mem_append_left _ hv
    · exact List.mem_append_right _ (ih hv)
  | left _ ih => exact ih hv.1
  | right _ ih => exact ih hv.2
  | letrec _ ih => exact ih hv

theorem Scope.find_mem {k : κ} {f : Code ν κ} {scope' : Scope ν κ}
    (h : scope.find k = some (f, scope')) : (k, f) ∈ scope ∧ scope' ⊆ scope := by
  induction scope with
  | nil => cases h
  | cons p scope ih =>
    rw [Scope.find] at h
    split at h
    · rename_i hk
      cases h
      subst hk
      exact ⟨List.mem_cons_self, fun _ hp => hp⟩
    · obtain ⟨hf, hsub⟩ := ih h
      exact ⟨List.mem_cons_of_mem _ hf, fun _ hp => List.mem_cons_of_mem _ (hsub hp)⟩

/-- What a path references occurs in the term, or in a function of the scope. -/
theorem Path.occurs (h : Path scope c rs) {v : ν} (hv : v ∈ rs) :
    Occurs v c ∨ ∃ p ∈ scope, Occurs v p.2 := by
  induction h with
  | expr => exact .inl hv
  | jump => exact .inl hv
  | into hfind _ ih =>
    rcases List.mem_append.mp hv with hv | hv
    · exact .inl hv
    · obtain ⟨hf, hsub⟩ := Scope.find_mem hfind
      rcases ih hv with hv | ⟨p, hp, hv⟩
      · exact .inr ⟨_, hf, hv⟩
      · exact .inr ⟨p, hsub hp, hv⟩
  | let_ _ _ ihe ihbody | match_ _ _ ihe ihbody =>
    rcases List.mem_append.mp hv with hv | hv
    · exact (ihe hv).imp_left .inl
    · exact (ihbody hv).imp_left .inr
  | case_ _ ih =>
    rcases List.mem_append.mp hv with hv | hv
    · exact .inl (.inl hv)
    · exact (ih hv).imp_left .inr
  | left _ ih => exact (ih hv).imp_left .inl
  | right _ ih => exact (ih hv).imp_left .inr
  | letrec _ ih =>
    rcases ih hv with hv | ⟨p, hp, hv⟩
    · exact .inl (.inr hv)
    · rcases List.mem_cons.mp hp with rfl | hp
      · exact .inl (.inl hv)
      · exact .inr ⟨p, hp, hv⟩

theorem Path.disjoint {S : List ν} (h : Path scope c rs) (hc : ∀ v ∈ S, ¬ Occurs v c)
    (hscope : ∀ v ∈ S, ∀ p ∈ scope, ¬ Occurs v p.2) : S.Disjoint rs := by
  intro v hS hv
  rcases h.occurs hv with hv | ⟨p, hp, hv⟩
  · exact hc v hS hv
  · exact hscope v hS p hp hv

/-- Where it is bound, a path references all of `S` if what is bound does, and goes by the body if
that does not. -/
theorem Path.whole_append {S rs' : List ν} {e : Code ν κ} (he : Path scope e rs)
    (hS : (∀ v ∈ S, Uses v e) ∨ (∀ v ∈ S, ¬ Occurs v e) ∧ (S ⊆ rs' ∨ S.Disjoint rs'))
    (hscope : ∀ v ∈ S, ∀ p ∈ scope, ¬ Occurs v p.2) :
    S ⊆ rs ++ rs' ∨ S.Disjoint (rs ++ rs') := by
  rcases hS with hall | ⟨hnone, hall | hnone'⟩
  · exact .inl fun v hv => List.mem_append_left _ (he.uses (hall v hv))
  · exact .inl fun v hv => List.mem_append_right _ (hall hv)
  · exact .inr (List.disjoint_append_right.mpr ⟨he.disjoint hnone hscope, hnone'⟩)

/-- A path references all of `S`, or nothing of it. -/
theorem Path.whole {S : List ν} (h : Path scope c rs) (hS : Whole S c)
    (hscope : ∀ v ∈ S, ∀ p ∈ scope, ¬ Occurs v p.2) : S ⊆ rs ∨ S.Disjoint rs := by
  induction h with
  | expr => exact hS
  | jump => exact .inl hS
  | into _ _ _ => exact .inl fun v hv => List.mem_append_left _ (hS hv)
  | let_ he _ _ ih | match_ he _ _ ih =>
    exact he.whole_append (hS.imp_right fun h => ⟨h.1, ih h.2 hscope⟩) hscope
  | case_ _ ih =>
    rcases ih hS.2 hscope with h | h
    · exact .inl fun v hv => List.mem_append_right _ (h hv)
    · exact .inr (List.disjoint_append_right.mpr ⟨hS.1, h⟩)
  | left _ ih => exact ih hS.1 hscope
  | right _ ih => exact ih hS.2 hscope
  | letrec _ ih =>
    refine ih hS.2 fun v hv p hp => ?_
    rcases List.mem_cons.mp hp with rfl | hp
    · exact hS.1 v hv
    · exact hscope v hv p hp

end Reasoning.References
