import ErlangWasm.Wasi.Names

/-!
# Walks

A path is walked name by name, and a link by walking its target from where it stands.  A walk comes
to its end, to a link, or to a point where it leaves the root; `Meets` are the links it comes to.
-/

namespace ErlangWasm.Wasi

open Relation

/-- A name of something in a directory. -/
structure Plain (s : Name) : Prop where
  notDot : s ≠ dot
  notDotdot : s ≠ dotdot
  relative : isRelative s

/-- A link that is being followed: the names up to it, and its target. -/
abbrev Open := List Name × List Char

section

variable (read : ReadLink) (cwd : List Name)

/-- The names `segs` walked from `acc` lead to `acc'`, every link on the way followed to its end. -/
inductive Walks : List Name → List Name → List Name → Prop
  | nil (acc : List Name) : Walks [] acc acc
  | dot {segs acc acc' : List Name} (h : Walks segs acc acc') : Walks (dot :: segs) acc acc'
  | up {segs acc acc' : List Name} (hacc : acc ≠ []) (h : Walks segs acc.dropLast acc') :
      Walks (dotdot :: segs) acc acc'
  | name {s : Name} {segs acc acc' : List Name} (hs : Plain s)
      (hread : read (cwd ++ acc ++ [s]) = none) (h : Walks segs (acc ++ [s]) acc') :
      Walks (s :: segs) acc acc'
  | link {s : Name} {segs acc acc₁ acc' : List Name} {target : List Char} (hs : Plain s)
      (hread : read (cwd ++ acc ++ [s]) = some target) (htarget : Walks (split target) acc acc₁)
      (h : Walks segs acc₁ acc') : Walks (s :: segs) acc acc'

/-- The names walked from `acc` come to a link; `true` if another link was followed before it. -/
inductive Meets : Bool → List Name → List Name → Open → Prop
  | here {s : Name} {segs acc : List Name} {target : List Char} (hs : Plain s)
      (hread : read (cwd ++ acc ++ [s]) = some target) : Meets false (s :: segs) acc (acc, target)
  | dot {past : Bool} {segs acc : List Name} {x : Open} (h : Meets past segs acc x) :
      Meets past (dot :: segs) acc x
  | up {past : Bool} {segs acc : List Name} {x : Open} (hacc : acc ≠ [])
      (h : Meets past segs acc.dropLast x) : Meets past (dotdot :: segs) acc x
  | name {past : Bool} {s : Name} {segs acc : List Name} {x : Open} (hs : Plain s)
      (hread : read (cwd ++ acc ++ [s]) = none) (h : Meets past segs (acc ++ [s]) x) :
      Meets past (s :: segs) acc x
  | beyond {past : Bool} {s : Name} {segs acc acc₁ : List Name} {target : List Char} {x : Open}
      (hs : Plain s) (hread : read (cwd ++ acc ++ [s]) = some target)
      (htarget : Walks read cwd (split target) acc acc₁) (h : Meets past segs acc₁ x) :
      Meets true (s :: segs) acc x

/-- The target of one link comes to another link. -/
def Into (past : Bool) (x y : Open) : Prop := Meets read cwd past (split x.2) x.1 y

def IntoAny (x y : Open) : Prop := ∃ past, Into read cwd past x y

/-- Following `x` comes to a link and, past another link in its target, to the same link again. -/
def Endless (x : Open) : Prop :=
  ∃ y z, ReflTransGen (IntoAny read cwd) x y ∧ Into read cwd true y z ∧
    ReflTransGen (IntoAny read cwd) z y

/-- The path comes to a link whose following is endless. -/
def ComesBack (path : List Char) : Prop :=
  ∃ past x, Meets read cwd past (split path) [] x ∧ Endless read cwd x

/-- No name is a link, where the names before it stand. -/
def Clean (acc : List Name) : Prop :=
  ∀ before s after, acc = before ++ s :: after → Plain s ∧ read (cwd ++ before ++ [s]) = none

end

variable {read : ReadLink} {cwd : List Name} {segs acc acc' : List Name} {past : Bool} {x y z : Open}

theorem not_plain_dot : ¬ Plain dot := fun h => h.notDot rfl

theorem not_plain_dotdot : ¬ Plain dotdot := fun h => h.notDotdot rfl

theorem dot_ne_dotdot : dot ≠ dotdot := by decide

theorem clean_nil : Clean read cwd [] := fun before _ _ h => by cases before <;> cases h

theorem Clean.dropLast (h : Clean read cwd acc) : Clean read cwd acc.dropLast := by
  rcases List.eq_nil_or_concat acc with rfl | ⟨init, last, rfl⟩
  · exact clean_nil
  · rw [List.concat_eq_append, List.dropLast_concat]
    intro before s after heq
    apply h before s (after ++ [last])
    rw [heq, List.concat_eq_append, List.append_assoc]
    rfl

theorem Clean.concat {s : Name} (h : Clean read cwd acc) (hs : Plain s)
    (hread : read (cwd ++ acc ++ [s]) = none) : Clean read cwd (acc ++ [s]) := by
  intro before t after heq
  rcases List.eq_nil_or_concat after with rfl | ⟨init, last, rfl⟩
  · obtain ⟨rfl, hst⟩ := List.append_inj' heq rfl
    cases hst
    exact ⟨hs, hread⟩
  · rw [List.concat_eq_append, ← List.cons_append, ← List.append_assoc] at heq
    obtain ⟨hinit, -⟩ := List.append_inj' heq rfl
    exact h before t init hinit

theorem Walks.clean (h : Walks read cwd segs acc acc') (hacc : Clean read cwd acc) :
    Clean read cwd acc' := by
  induction h with
  | nil => exact hacc
  | dot _ ih => exact ih hacc
  | up _ _ ih => exact ih hacc.dropLast
  | name hs hread _ ih => exact ih (hacc.concat hs hread)
  | link _ _ _ _ ihtarget ih => exact ih (ihtarget hacc)

theorem Meets.clean (h : Meets read cwd past segs acc x) (hacc : Clean read cwd acc) :
    Clean read cwd x.1 := by
  induction h with
  | here => exact hacc
  | dot _ ih => exact ih hacc
  | up _ _ ih => exact ih hacc.dropLast
  | name hs hread _ ih => exact ih (hacc.concat hs hread)
  | beyond _ _ htarget _ ih => exact ih (htarget.clean hacc)

/-! ## The first link -/

theorem meets_dot : Meets read cwd past (dot :: segs) acc x ↔ Meets read cwd past segs acc x := by
  constructor
  · intro h
    cases h with
    | here hs => exact absurd hs not_plain_dot
    | dot h => exact h
    | name hs | beyond hs => exact absurd hs not_plain_dot
  · exact Meets.dot

theorem meets_up (hacc : acc ≠ []) :
    Meets read cwd past (dotdot :: segs) acc x ↔ Meets read cwd past segs acc.dropLast x := by
  constructor
  · intro h
    generalize hd : dotdot = d at h
    cases h with
    | here hs => exact absurd (hd ▸ hs) not_plain_dotdot
    | dot h => exact absurd hd.symm dot_ne_dotdot
    | up _ h => exact h
    | name hs | beyond hs => exact absurd (hd ▸ hs) not_plain_dotdot
  · exact Meets.up hacc

theorem meets_name {s : Name} (hs : Plain s) (hread : read (cwd ++ acc ++ [s]) = none) :
    Meets read cwd past (s :: segs) acc x ↔ Meets read cwd past segs (acc ++ [s]) x := by
  constructor
  · intro h
    cases h with
    | here _ hread' => cases hread.symm.trans hread'
    | dot h => exact absurd hs not_plain_dot
    | up _ h => exact absurd hs not_plain_dotdot
    | name _ _ h => exact h
    | beyond _ hread' => cases hread.symm.trans hread'
  · exact Meets.name hs hread

/-- A link is the first one met where it stands. -/
theorem meets_link {s : Name} {target : List Char} (hs : Plain s)
    (hread : read (cwd ++ acc ++ [s]) = some target) :
    Meets read cwd false (s :: segs) acc x ↔ x = (acc, target) := by
  constructor
  · intro h
    cases h with
    | here _ hread' =>
      cases hread.symm.trans hread'
      rfl
    | dot h => exact absurd hs not_plain_dot
    | up _ h => exact absurd hs not_plain_dotdot
    | name _ hread' => cases hread.symm.trans hread'
  · rintro rfl
    exact Meets.here hs hread

/-- There is one first link. -/
theorem Meets.unique (h : Meets read cwd false segs acc x) (h' : Meets read cwd false segs acc y) :
    x = y := by
  generalize hb : false = b at h
  induction h with
  | here hs hread => exact ((meets_link hs hread).mp h').symm
  | dot _ ih => exact ih (meets_dot.mp h') hb
  | up hacc _ ih => exact ih ((meets_up hacc).mp h') hb
  | name hs hread _ ih => exact ih ((meets_name hs hread).mp h') hb
  | beyond => cases hb

/-- Names that are no links are passed over. -/
theorem meets_append {names : List Name} (h : Clean read cwd (acc ++ names)) :
    Meets read cwd past (names ++ segs) acc x ↔ Meets read cwd past segs (acc ++ names) x := by
  induction names generalizing acc with
  | nil => rw [List.nil_append, List.append_nil]
  | cons s names ih =>
    obtain ⟨hs, hread⟩ := h acc s names rfl
    have heq : acc ++ s :: names = acc ++ [s] ++ names := by simp
    rw [List.cons_append, meets_name hs hread, heq]
    rw [heq] at h
    exact ih h

theorem not_plain_slash : ¬ Plain slash := fun h => by cases h.relative

theorem split_of_absolute {path : List Char} (h : isRelative path = false) :
    ∃ names, split path = slash :: names := by
  unfold isRelative at h
  split at h
  · exact ⟨_, rfl⟩
  · cases h

/-- The target of a link that comes to another one is relative. -/
theorem Into.relative (h : Into read cwd past x y) : isRelative x.2 := by
  by_contra hrel
  obtain ⟨names, hsplit⟩ := split_of_absolute (Bool.eq_false_iff.mpr hrel)
  unfold Into at h
  rw [hsplit] at h
  generalize hd : slash = d at h
  cases h with
  | here hs => exact not_plain_slash (hd ▸ hs)
  | dot | up => exact absurd hd (by decide)
  | name hs | beyond hs => exact not_plain_slash (hd ▸ hs)

theorem Walks.relative {target : List Char} (h : Walks read cwd (split target) acc acc') :
    isRelative target := by
  by_contra hrel
  obtain ⟨names, hsplit⟩ := split_of_absolute (Bool.eq_false_iff.mpr hrel)
  rw [hsplit] at h
  generalize hd : slash = d at h
  cases h with
  | dot | up => exact absurd hd (by decide)
  | name hs | link hs => exact not_plain_slash (hd ▸ hs)

/-! ## Loops -/

/-- The name that is remembered of a link that is followed. -/
def fullOf (cwd : List Name) (x : Open) : List Name := join (cwd ++ x.1) x.2

/-- Links remembered by one name come to the same first link. -/
theorem into_of_fullOf (hx : Clean read cwd x.1) (hy : Clean read cwd y.1) (hrelx : isRelative x.2)
    (hrely : isRelative y.2) (h : fullOf cwd x = fullOf cwd y) :
    Into read cwd past x z ↔ Into read cwd past y z := by
  unfold fullOf join at h
  rw [if_pos hrelx, if_pos hrely, List.append_assoc, List.append_assoc,
    List.append_cancel_left_eq] at h
  unfold Into
  rcases List.append_eq_append_iff.mp h with ⟨names, hacc, hsplit⟩ | ⟨names, hacc, hsplit⟩
  · rw [hsplit, hacc]
    rw [hacc] at hy
    exact meets_append hy
  · rw [hsplit, hacc]
    rw [hacc] at hx
    exact (meets_append hx).symm

/-- Going from first link to first link comes back. -/
def Loops (read : ReadLink) (cwd : List Name) (x : Open) : Prop :=
  TransGen (Into read cwd false) x x

theorem Loops.next (h : Loops read cwd x) (hxy : Into read cwd false x y) : Loops read cwd y := by
  obtain ⟨z, hxz, hzx⟩ := TransGen.head'_iff.mp h
  obtain rfl := Meets.unique hxz hxy
  exact TransGen.tail' hzx hxz

/-- What is walked to its end does not loop at its first link. -/
theorem Walks.not_loops (h : Walks read cwd segs acc acc') (hx : Meets read cwd false segs acc x) :
    ¬ Loops read cwd x := by
  induction h generalizing x with
  | nil => cases hx
  | dot _ ih => exact ih (meets_dot.mp hx)
  | up hacc _ ih => exact ih ((meets_up hacc).mp hx)
  | name hs hread _ ih => exact ih ((meets_name hs hread).mp hx)
  | link hs hread _ _ ihtarget _ =>
    obtain rfl := (meets_link hs hread).mp hx
    intro hloop
    obtain ⟨y, hxy, -⟩ := TransGen.head'_iff.mp hloop
    exact ihtarget hxy (hloop.next hxy)

/-- A link whose target goes past a link does not loop. -/
theorem not_loops_of_past (h : Into read cwd true x y) : ¬ Loops read cwd x := by
  have hfirst : ∀ {segs acc : List Name}, Meets read cwd true segs acc y →
      ∃ z, Meets read cwd false segs acc z ∧ ¬ Loops read cwd z := by
    intro segs acc h
    generalize hb : true = b at h
    induction h with
    | here => cases hb
    | dot _ ih =>
      obtain ⟨z, hz, hloop⟩ := ih h hb
      exact ⟨z, hz.dot, hloop⟩
    | up hacc _ ih =>
      obtain ⟨z, hz, hloop⟩ := ih h hb
      exact ⟨z, hz.up hacc, hloop⟩
    | name hs hread _ ih =>
      obtain ⟨z, hz, hloop⟩ := ih h hb
      exact ⟨z, hz.name hs hread, hloop⟩
    | @beyond _ s segs acc acc₁ target _ hs hread htarget _ _ =>
      have hhere : Meets read cwd false (s :: segs) acc (acc, target) := Meets.here hs hread
      refine ⟨(acc, target), hhere, ?_⟩
      have hwalk : Walks read cwd [s] acc acc₁ := htarget.link hs hread (Walks.nil _)
      exact hwalk.not_loops (Meets.here hs hread)
  intro hloop
  obtain ⟨z, hz, hnot⟩ := hfirst h
  exact hnot (hloop.next hz)

theorem Endless.not_loops (h : Endless read cwd x) : ¬ Loops read cwd x := by
  obtain ⟨y, z, hxy, hyz, -⟩ := h
  induction hxy using ReflTransGen.head_induction_on with
  | refl => exact not_loops_of_past hyz
  | head hstep _ ih =>
    obtain ⟨past, hstep⟩ := hstep
    cases past with
    | true => exact not_loops_of_past hstep
    | false => exact fun hloop => ih (hloop.next hstep)

end ErlangWasm.Wasi
