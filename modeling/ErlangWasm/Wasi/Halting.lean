import ErlangWasm.Wasi.Walk
import Mathlib.Data.Set.Card

/-!
# When a walk ends

The links that are being followed are remembered only up to the next link that has been followed to
its end, so a link that comes to itself past another link is followed without end.  Every other walk
over finitely many links ends.
-/

namespace ErlangWasm.Wasi

open Relation
open Reasoning.Halting

variable {read : ReadLink} {cwd : List Name} {segs acc acc' : List Name} {past : Bool} {x y z : Open}
  {seen : List (List Name)} {rest : List Seg}

/-! ## Steps -/

theorem srp_dot : srp read cwd ⟨.name dot :: rest, seen, acc⟩ = .inl ⟨rest, seen, acc⟩ := by
  rw [srp, if_pos rfl]

theorem srp_up (hacc : acc ≠ []) :
    srp read cwd ⟨.name dotdot :: rest, seen, acc⟩ = .inl ⟨rest, seen, acc.dropLast⟩ := by
  rw [srp, if_neg (by decide), if_pos rfl, if_neg hacc]

theorem srp_plain {s : Name} (hs : Plain s) :
    srp read cwd ⟨.name s :: rest, seen, acc⟩ = srpSegment read cwd s rest seen acc := by
  rw [srp, if_neg hs.notDot, if_neg hs.notDotdot, if_pos hs.relative]

theorem srp_name {s : Name} (hs : Plain s) (hread : read (cwd ++ acc ++ [s]) = none) :
    srp read cwd ⟨.name s :: rest, seen, acc⟩ = .inl ⟨rest, seen, acc ++ [s]⟩ := by
  rw [srp_plain hs, srpSegment, hread]

theorem srp_link {s : Name} {target : List Char} (hs : Plain s)
    (hread : read (cwd ++ acc ++ [s]) = some target) (hnew : fullOf cwd (acc, target) ∉ seen) :
    srp read cwd ⟨.name s :: rest, seen, acc⟩ =
      .inl ⟨(split target).map .name ++ .clear :: rest, fullOf cwd (acc, target) :: seen, acc⟩ := by
  rw [srp_plain hs, srpSegment, hread]
  exact if_neg hnew

theorem srp_seen {s : Name} {target : List Char} (hs : Plain s)
    (hread : read (cwd ++ acc ++ [s]) = some target) (hseen : fullOf cwd (acc, target) ∈ seen) :
    srp read cwd ⟨.name s :: rest, seen, acc⟩ = .inr none := by
  rw [srp_plain hs, srpSegment, hread]
  exact if_pos hseen

theorem srp_clear : srp read cwd ⟨.clear :: rest, seen, acc⟩ = .inl ⟨rest, [], acc⟩ := rfl

/-! ## What is remembered -/

/-- The name remembered is of a link from which first links lead to `x`. -/
def Behind (read : ReadLink) (cwd : List Name) (full : List Name) (x : Open) : Prop :=
  ∃ y, Clean read cwd y.1 ∧ fullOf cwd y = full ∧ TransGen (Into read cwd false) y x

theorem Behind.next {full : List Name} (h : Behind read cwd full x)
    (hxy : Into read cwd false x y) : Behind read cwd full y := by
  obtain ⟨w, hw, hfull, hwx⟩ := h
  exact ⟨w, hw, hfull, hwx.tail hxy⟩

/-- A link that is remembered already loops. -/
theorem loops_of_behind (hclean : Clean read cwd x.1) (hrel : isRelative x.2)
    (h : Behind read cwd (fullOf cwd x) x) : Loops read cwd x := by
  obtain ⟨w, hw, hfull, hwx⟩ := h
  obtain ⟨z, hwz, hzx⟩ := TransGen.head'_iff.mp hwx
  have hxz : Into read cwd false x z :=
    (into_of_fullOf hw hclean hwz.relative hrel hfull).mp hwz
  exact TransGen.head' hxz hzx

/-- All that is remembered is behind the first link that `segs` comes to from `acc`. -/
def BehindFirst (read : ReadLink) (cwd : List Name) (seen : List (List Name))
    (segs acc : List Name) : Prop :=
  ∀ x, Meets read cwd false segs acc x → ∀ full ∈ seen, Behind read cwd full x

theorem behindFirst_nil : BehindFirst read cwd [] segs acc := fun _ _ _ h => nomatch h

/-- Inside a link that is followed, the link itself is behind. -/
theorem behindFirst_into (hclean : Clean read cwd x.1)
    (h : ∀ full ∈ seen, Behind read cwd full x) :
    BehindFirst read cwd (fullOf cwd x :: seen) (split x.2) x.1 := by
  intro y hy full hfull
  rcases List.mem_cons.mp hfull with rfl | hin
  · exact ⟨x, hclean, rfl, TransGen.single hy⟩
  · exact (h full hin).next hy

/-- A link whose target is walked to its end is not remembered. -/
theorem new_of_walks {target : List Char} {acc₁ : List Name} (hclean : Clean read cwd acc)
    (hwalk : Walks read cwd (split target) acc acc₁)
    (hbehind : ∀ full ∈ seen, Behind read cwd full (acc, target)) :
    fullOf cwd (acc, target) ∉ seen := by
  intro hin
  have hloop := loops_of_behind (x := (acc, target)) hclean hwalk.relative (hbehind _ hin)
  obtain ⟨y, hxy, -⟩ := TransGen.head'_iff.mp hloop
  exact hwalk.not_loops hxy (hloop.next hxy)

/-- What can be walked to its end is walked so. -/
theorem Walks.leads (h : Walks read cwd segs acc acc') (hclean : Clean read cwd acc)
    (rest : List Seg) (hbehind : BehindFirst read cwd seen segs acc) :
    ∃ seen', Leads (srp read cwd) ⟨segs.map .name ++ rest, seen, acc⟩ ⟨rest, seen', acc'⟩ := by
  induction h generalizing seen rest with
  | nil => exact ⟨seen, Leads.refl _⟩
  | dot _ ih =>
    obtain ⟨seen', hlead⟩ := ih hclean rest fun x hx => hbehind x hx.dot
    exact ⟨seen', Leads.head srp_dot hlead⟩
  | up hacc _ ih =>
    obtain ⟨seen', hlead⟩ := ih hclean.dropLast rest fun x hx => hbehind x (hx.up hacc)
    exact ⟨seen', Leads.head (srp_up hacc) hlead⟩
  | name hs hread _ ih =>
    obtain ⟨seen', hlead⟩ := ih (hclean.concat hs hread) rest fun x hx =>
      hbehind x (hx.name hs hread)
    exact ⟨seen', Leads.head (srp_name hs hread) hlead⟩
  | @link s segs acc acc₁ acc' target hs hread htarget _ ihtarget ih =>
    have hhere := hbehind (acc, target) (Meets.here hs hread)
    have hnew := new_of_walks hclean htarget hhere
    obtain ⟨seen₁, hinside⟩ := ihtarget hclean (.clear :: (segs.map .name ++ rest))
      (behindFirst_into (x := (acc, target)) hclean hhere)
    obtain ⟨seen', hafter⟩ := ih (htarget.clean hclean) rest behindFirst_nil
    refine ⟨seen', Leads.head (srp_link hs hread hnew) (hinside.trans ?_)⟩
    exact Leads.head srp_clear hafter

/-- A link that is met is come to, with what was remembered, or nothing past another link. -/
theorem Meets.leads (h : Meets read cwd past segs acc x) (hclean : Clean read cwd acc)
    (rest : List Seg) (hbehind : BehindFirst read cwd seen segs acc) :
    ∃ s rest' seen', Plain s ∧ read (cwd ++ x.1 ++ [s]) = some x.2 ∧
      (∀ full ∈ seen', past = false ∧ full ∈ seen) ∧
      Leads (srp read cwd) ⟨segs.map .name ++ rest, seen, acc⟩ ⟨.name s :: rest', seen', x.1⟩ := by
  induction h generalizing seen with
  | @here s segs acc target hs hread =>
    exact ⟨s, segs.map .name ++ rest, seen, hs, hread, fun _ h => ⟨rfl, h⟩, Leads.refl _⟩
  | dot _ ih =>
    obtain ⟨s, rest', seen', hs, hread, hseen, hlead⟩ := ih hclean fun y hy => hbehind y hy.dot
    exact ⟨s, rest', seen', hs, hread, hseen, Leads.head srp_dot hlead⟩
  | up hacc _ ih =>
    obtain ⟨s, rest', seen', hs, hread, hseen, hlead⟩ :=
      ih hclean.dropLast fun y hy => hbehind y (hy.up hacc)
    exact ⟨s, rest', seen', hs, hread, hseen, Leads.head (srp_up hacc) hlead⟩
  | name hs₀ hread₀ _ ih =>
    obtain ⟨s, rest', seen', hs, hread, hseen, hlead⟩ :=
      ih (hclean.concat hs₀ hread₀) fun y hy => hbehind y (hy.name hs₀ hread₀)
    exact ⟨s, rest', seen', hs, hread, hseen, Leads.head (srp_name hs₀ hread₀) hlead⟩
  | @beyond past s₀ segs acc acc₁ target y hs₀ hread₀ htarget _ ih =>
    have hhere := hbehind (acc, target) (Meets.here hs₀ hread₀)
    have hnew := new_of_walks hclean htarget hhere
    obtain ⟨seen₁, hinside⟩ := htarget.leads hclean (.clear :: (segs.map .name ++ rest))
      (behindFirst_into (x := (acc, target)) hclean hhere)
    obtain ⟨s, rest', seen', hs, hread, hseen, hlead⟩ :=
      @ih [] (htarget.clean hclean) behindFirst_nil
    refine ⟨s, rest', seen', hs, hread, fun full hin => (nomatch (hseen full hin).2), ?_⟩
    exact Leads.head (srp_link hs₀ hread₀ hnew) (hinside.trans (Leads.head srp_clear hlead))

/-! ## Walks without end -/

/-- The walk is at a link whose following is endless. -/
def AtEndless (read : ReadLink) (cwd : List Name) (s : State) : Prop :=
  ∃ name rest x, s = ⟨.name name :: rest, s.seen, x.1⟩ ∧ Plain name ∧
    read (cwd ++ x.1 ++ [name]) = some x.2 ∧ Clean read cwd x.1 ∧
    (∀ full ∈ s.seen, Behind read cwd full x) ∧ Endless read cwd x

/-- The way round goes on. -/
theorem Endless.next (h : Endless read cwd x) :
    ∃ past y, Into read cwd past x y ∧ Endless read cwd y := by
  obtain ⟨y, z, hxy, hyz, hzy⟩ := h
  rcases ReflTransGen.cases_head hxy with rfl | ⟨w, ⟨past, hxw⟩, hwy⟩
  · exact ⟨true, z, hyz, x, z, hzy, hyz, hzy⟩
  · exact ⟨past, w, hxw, y, z, hwy, hyz, hzy⟩

theorem atEndless_progress {s : State} (h : AtEndless read cwd s) :
    ∃ t u, srp read cwd s = .inl t ∧ Leads (srp read cwd) t u ∧ AtEndless read cwd u := by
  obtain ⟨name, rest, x, hs, hname, hread, hclean, hbehind, hendless⟩ := h
  obtain ⟨past, y, hxy, hy⟩ := hendless.next
  have hnew : fullOf cwd (x.1, x.2) ∉ s.seen := fun hin =>
    hendless.not_loops (loops_of_behind hclean hxy.relative (hbehind _ hin))
  have hinto := behindFirst_into hclean hbehind
  obtain ⟨name', rest', seen', hname', hread', hseen', hlead⟩ :=
    Meets.leads hxy hclean (.clear :: rest) hinto
  refine ⟨_, _, ?_, hlead, name', rest', y, rfl, hname', hread', Meets.clean hxy hclean, ?_, hy⟩
  · rw [hs]
    exact srp_link hname hread hnew
  · intro full hin
    obtain ⟨rfl, hin⟩ := hseen' full hin
    exact hinto y hxy full hin

theorem not_halts_of_comesBack {path : List Char} (h : ComesBack read cwd path) :
    ¬ Halts (srp read cwd) (start path) := by
  obtain ⟨past, x, hmeets, hendless⟩ := h
  obtain ⟨name, rest, seen', hname, hread, hseen, hlead⟩ :=
    hmeets.leads clean_nil [] behindFirst_nil
  rw [List.append_nil] at hlead
  rw [show start path = ⟨(split path).map .name, [], []⟩ from rfl, hlead.halts]
  refine not_halts_of_progress (I := AtEndless read cwd) ?_ fun s hs => atEndless_progress hs
  exact ⟨name, rest, x, rfl, hname, hread, hmeets.clean clean_nil,
    (fun full hin => nomatch (hseen full hin).2), hendless⟩

/-! ## Walks that end -/

/-- The links there are: what stands at a name of some directory below the root. -/
def Links (read : ReadLink) (cwd : List Name) : Set Open :=
  {x | ∃ s, read (cwd ++ x.1 ++ [s]) = some x.2}

/-- A file system with finitely many links. -/
def FiniteLinks (read : ReadLink) : Prop := {path | (read path).isSome}.Finite

theorem finite_links (h : FiniteLinks read) : (Links read cwd).Finite := by
  refine (h.image fun path => ((path.drop cwd.length).dropLast, (read path).getD [])).subset ?_
  rintro ⟨acc, target⟩ ⟨s, hs⟩
  refine ⟨cwd ++ acc ++ [s], ?_, ?_⟩
  · show (read (cwd ++ acc ++ [s])).isSome
    rw [hs]
    rfl
  · dsimp only at hs ⊢
    rw [hs, List.append_assoc, List.drop_left, List.dropLast_concat]
    rfl

theorem Meets.mem_links (h : Meets read cwd past segs acc x) : x ∈ Links read cwd := by
  induction h with
  | here _ hread => exact ⟨_, hread⟩
  | dot _ ih | up _ _ ih | name _ _ _ ih | beyond _ _ _ _ ih => exact ih

/-- The links that following `x` comes to. -/
def Onward (read : ReadLink) (cwd : List Name) (x : Open) : Set Open :=
  {y | ReflTransGen (IntoAny read cwd) x y}

theorem onward_subset (hx : x ∈ Links read cwd) : Onward read cwd x ⊆ Links read cwd := by
  intro y hy
  rcases ReflTransGen.cases_tail hy with rfl | ⟨w, -, past, hwy⟩
  · exact hx
  · exact hwy.mem_links

theorem onward_of_into (h : Into read cwd past x y) : Onward read cwd y ⊆ Onward read cwd x :=
  fun _ hz => ReflTransGen.head ⟨past, h⟩ hz

/-- The names of links that are not remembered. -/
def Unseen (read : ReadLink) (cwd : List Name) (seen : List (List Name)) : Set (List Name) :=
  {full | (∃ x ∈ Links read cwd, fullOf cwd x = full) ∧ full ∉ seen}

theorem finite_unseen (h : FiniteLinks read) (seen : List (List Name)) :
    (Unseen read cwd seen).Finite := by
  have hlinks : (Links read cwd).Finite := finite_links h
  refine (hlinks.image (fullOf cwd)).subset ?_
  rintro full ⟨⟨x, hx, rfl⟩, -⟩
  exact ⟨x, hx, rfl⟩

/-- What is left to follow inside `x`: the links that lie onward, each with all names unseen, and
the names unseen now. -/
noncomputable def work (read : ReadLink) (cwd : List Name) (x : Open) (seen : List (List Name)) : ℕ :=
  (Onward read cwd x).ncard * ((Unseen read cwd []).ncard + 1) + (Unseen read cwd seen).ncard

theorem unseen_le (h : FiniteLinks read) (seen : List (List Name)) :
    (Unseen read cwd seen).ncard ≤ (Unseen read cwd []).ncard :=
  Set.ncard_le_ncard (fun _ hf => ⟨hf.1, List.not_mem_nil⟩) (finite_unseen h [])

/-- Past another link there are fewer links onward, or following were endless. -/
theorem work_past (h : FiniteLinks read) (hx : x ∈ Links read cwd) (hxy : Into read cwd true x y)
    (hendless : ¬ Endless read cwd x) (seen' : List (List Name)) :
    work read cwd y seen' < work read cwd x seen := by
  have hfinite := (finite_links h).subset (onward_subset hx)
  have hlt : (Onward read cwd y).ncard < (Onward read cwd x).ncard := by
    apply Set.ncard_lt_ncard _ hfinite
    refine ⟨onward_of_into hxy, fun hsub => hendless ?_⟩
    exact ⟨x, y, ReflTransGen.refl, hxy, hsub ReflTransGen.refl⟩
  have hle : (Unseen read cwd seen').ncard ≤ (Unseen read cwd []).ncard := unseen_le h seen'
  have hmul := Nat.mul_le_mul_right ((Unseen read cwd []).ncard + 1) (Nat.succ_le_of_lt hlt)
  rw [Nat.succ_mul] at hmul
  unfold work
  omega

/-- Where no link was followed before, one more name is remembered. -/
theorem work_first (h : FiniteLinks read) (hx : x ∈ Links read cwd) (hxy : Into read cwd false x y)
    (hnew : fullOf cwd y ∉ seen) :
    work read cwd y (fullOf cwd y :: seen) < work read cwd x seen := by
  have hfinite := (finite_links h).subset (onward_subset hx)
  have hle := Set.ncard_le_ncard (onward_of_into hxy) hfinite
  have hlt : (Unseen read cwd (fullOf cwd y :: seen)).ncard < (Unseen read cwd seen).ncard := by
    apply Set.ncard_lt_ncard _ (finite_unseen h seen)
    refine ⟨fun full hf => ⟨hf.1, fun hin => hf.2 (List.mem_cons_of_mem _ hin)⟩, fun hsub => ?_⟩
    exact (hsub ⟨⟨y, hxy.mem_links, rfl⟩, hnew⟩).2 List.mem_cons_self
  have hmul := Nat.mul_le_mul_right ((Unseen read cwd []).ncard + 1) hle
  unfold work
  omega

/-- The walk answers, or comes to the end of `segs`. -/
def Ends (read : ReadLink) (cwd : List Name) (segs : List Name) (rest : List Seg)
    (seen : List (List Name)) (acc : List Name) : Prop :=
  Halts (srp read cwd) ⟨segs.map .name ++ rest, seen, acc⟩ ∨
    ∃ acc' seen', Walks read cwd segs acc acc' ∧
      Leads (srp read cwd) ⟨segs.map .name ++ rest, seen, acc⟩ ⟨rest, seen', acc'⟩

theorem Ends.step {t : State} {s : Name} (h : srp read cwd ⟨.name s :: (segs.map .name ++ rest),
      seen, acc⟩ = .inl t) {acc₁ : List Name} {seen₁ : List (List Name)}
    (hlead : Leads (srp read cwd) t ⟨segs.map .name ++ rest, seen₁, acc₁⟩)
    (hwalk : ∀ acc', Walks read cwd segs acc₁ acc' → Walks read cwd (s :: segs) acc acc')
    (hends : Ends read cwd segs rest seen₁ acc₁) : Ends read cwd (s :: segs) rest seen acc := by
  have hall := Leads.head h hlead
  rcases hends with hhalts | ⟨acc', seen', hw, hl⟩
  · exact .inl (hall.halts.mpr hhalts)
  · exact .inr ⟨acc', seen', hwalk acc' hw, hall.trans hl⟩

/-- A walk ends if following the links it meets does. -/
theorem ends_of_links {Q : Bool → Open → Prop} {seen₀ : List (List Name)}
    (hlinks : ∀ past x seen, Q past x → (past = false → seen = seen₀) → fullOf cwd x ∉ seen →
      ∀ rest, Ends read cwd (split x.2) rest (fullOf cwd x :: seen) x.1)
    (hmeets : ∀ b x, Meets read cwd b segs acc x → Q (past || b) x)
    (hseen : past = false → seen = seen₀) (rest : List Seg) :
    Ends read cwd segs rest seen acc := by
  induction segs generalizing acc past seen with
  | nil => exact .inr ⟨acc, seen, Walks.nil acc, Leads.refl _⟩
  | cons s segs ih =>
    by_cases hdot : s = dot
    · subst hdot
      exact Ends.step srp_dot (Leads.refl _) (fun _ h => h.dot)
        (ih (fun b x hx => hmeets b x hx.dot) hseen)
    by_cases hup : s = dotdot
    · subst hup
      by_cases hacc : acc = []
      · left
        exact ⟨none, answers_of_step (by rw [List.map_cons, List.cons_append, srp,
          if_neg (by decide), if_pos rfl, if_pos hacc])⟩
      · exact Ends.step (srp_up hacc) (Leads.refl _) (fun _ h => h.up hacc)
          (ih (fun b x hx => hmeets b x (hx.up hacc)) hseen)
    by_cases hrel : isRelative s
    · have hs : Plain s := ⟨hdot, hup, hrel⟩
      cases hread : read (cwd ++ acc ++ [s]) with
      | none =>
        exact Ends.step (srp_name hs hread) (Leads.refl _) (fun _ h => h.name hs hread)
          (ih (fun b x hx => hmeets b x (hx.name hs hread)) hseen)
      | some target =>
        have hhere := hmeets false (acc, target) (Meets.here hs hread)
        rw [Bool.or_false] at hhere
        by_cases hnew : fullOf cwd (acc, target) ∈ seen
        · exact .inl ⟨none, answers_of_step (srp_seen hs hread hnew)⟩
        · -- inside the link, and then on with nothing remembered
          have hstep := @srp_link read cwd acc seen (segs.map .name ++ rest) s target hs hread hnew
          rcases hlinks past (acc, target) seen hhere hseen hnew
            (.clear :: (segs.map .name ++ rest)) with hhalts | ⟨acc₁, seen₁, hw, hl⟩
          · exact .inl ((Leads.head hstep (Leads.refl _)).halts.mpr hhalts)
          · have hrest := @ih acc₁ true [] (fun b x hx => by
              have hover := hmeets true x (Meets.beyond hs hread hw hx)
              rwa [Bool.or_true] at hover) nofun
            exact Ends.step hstep (hl.trans (Leads.head srp_clear (Leads.refl _)))
              (fun _ h => Walks.link hs hread hw h) hrest
    · left
      exact ⟨none, answers_of_step (by rw [List.map_cons, List.cons_append, srp, if_neg hdot,
        if_neg hup, if_neg hrel])⟩

/-- Following a link ends, if it is not endless. -/
theorem ends_of_not_endless (h : FiniteLinks read) (hx : x ∈ Links read cwd)
    (hendless : ¬ Endless read cwd x) (seen : List (List Name)) (rest : List Seg) :
    Ends read cwd (split x.2) rest seen x.1 := by
  induction hwork : work read cwd x seen using Nat.strongRecOn generalizing x seen rest with
  | ind n ih =>
    refine @ends_of_links read cwd (split x.2) x.1 false seen
      (fun past y => Into read cwd past x y) seen ?_ (fun b y hy => by rwa [Bool.false_or])
      (fun _ => rfl) rest
    intro past y seen' hxy hsame hnew rest'
    have hnot : ¬ Endless read cwd y := by
      rintro ⟨w, z, hyw, hwz, hzw⟩
      exact hendless ⟨w, z, ReflTransGen.head ⟨past, hxy⟩ hyw, hwz, hzw⟩
    have hless : work read cwd y (fullOf cwd y :: seen') < n := by
      rw [← hwork]
      cases past with
      | true => exact work_past h hx hxy hendless _
      | false =>
        rw [hsame rfl] at hnew ⊢
        exact work_first h hx hxy hnew
    exact ih _ hless hxy.mem_links hnot _ rest' rfl

/-- Walking a path answers exactly when the path comes to no link that is followed without end. -/
theorem safeRelativePath_halts_iff (read : ReadLink) (path root : List Char)
    (hfinite : FiniteLinks read) :
    (∃ fuel answer, safeRelativePath read fuel path root = some answer) ↔
      ¬ ComesBack read (rootNames root) path := by
  have hhalts : (∃ fuel answer, safeRelativePath read fuel path root = some answer) ↔
      Halts (srp read (rootNames root)) (start path) :=
    ⟨fun ⟨fuel, answer, h⟩ => ⟨answer, fuel, h⟩, fun ⟨answer, fuel, h⟩ => ⟨fuel, answer, h⟩⟩
  rw [hhalts]
  constructor
  · exact fun h hcomes => not_halts_of_comesBack hcomes h
  · intro hcomes
    have hends := @ends_of_links read (rootNames root) (split path) [] false []
      (fun _ x => ∃ past, Meets read (rootNames root) past (split path) [] x) [] (by
        rintro past x seen ⟨past', hx⟩ - - rest
        exact ends_of_not_endless hfinite hx.mem_links (fun hend => hcomes ⟨past', x, hx, hend⟩) _
          rest) (fun b x hx => ⟨b, hx⟩) (fun _ => rfl) []
    rcases hends with hhalts | ⟨acc', seen', -, hlead⟩
    · rwa [List.append_nil] at hhalts
    · rw [List.append_nil] at hlead
      exact hlead.halts.mpr ⟨some acc', answers_of_step rfl⟩

/-- Under the root `/r` one link, from `a` to `b`. -/
def oneLink : ReadLink := fun path =>
  if path = [slash, ['r'], ['a']] then some ['b'] else none

theorem finite_oneLink : FiniteLinks oneLink := by
  refine (Set.finite_singleton [slash, ['r'], ['a']]).subset fun path h => ?_
  by_contra hne
  have hnone : oneLink path = none := if_neg hne
  rw [Set.mem_ofPred_eq, hnone] at h
  cases h

theorem safeRelativePath_halts_oneLink :
    ∃ fuel answer, safeRelativePath oneLink fuel ['a'] ['/', 'r'] = some answer := by
  rw [safeRelativePath_halts_iff oneLink ['a'] ['/', 'r'] finite_oneLink]
  rintro ⟨past, x, hx, hend⟩
  have hb : Plain ['b'] := ⟨by decide, by decide, rfl⟩
  have hpath : Meets oneLink [slash, ['r']] past [['a']] [] x := hx
  -- the only link met is `a`, and its target meets none
  have hnone {b : Bool} {y : Open} : ¬ Meets oneLink [slash, ['r']] b [['b']] [] y := by
    intro h
    have hread : oneLink ([slash, ['r']] ++ [] ++ [['b']]) = none := by decide
    cases (meets_name hb hread).mp h
  have hfirst : x = ([], ['b']) := by
    cases hpath with
    | here _ hread =>
      have htarget : oneLink ([slash, ['r']] ++ [] ++ [['a']]) = some ['b'] := by decide
      cases hread.symm.trans htarget
      rfl
    | name _ hread => exact absurd hread (by decide)
    | beyond _ _ _ h => cases h
  subst hfirst
  obtain ⟨past', y, hxy, -⟩ := hend.next
  exact hnone hxy

/-- Under the root `/r` a link `a` to `b/a`, and a link `b` to the directory they are in. -/
def windingLinks : ReadLink := fun path =>
  if path = [slash, ['r'], ['a']] then some ['b', '/', 'a']
  else if path = [slash, ['r'], ['b']] then some ['.']
  else none

theorem finite_windingLinks : FiniteLinks windingLinks := by
  refine (Set.toFinite {[slash, ['r'], ['a']], [slash, ['r'], ['b']]}).subset fun path h => ?_
  by_contra hne
  rw [Set.mem_insert_iff, Set.mem_singleton_iff, not_or] at hne
  have hnone : windingLinks path = none := by
    rw [windingLinks, if_neg hne.1, if_neg hne.2]
  rw [Set.mem_ofPred_eq, hnone] at h
  cases h

theorem not_safeRelativePath_halts : ¬ ∀ (read : ReadLink) (path root : List Char),
    FiniteLinks read → ∃ fuel answer, safeRelativePath read fuel path root = some answer := by
  intro hall
  obtain ⟨fuel, answer, h⟩ := hall windingLinks ['a'] ['/', 'r'] finite_windingLinks
  have ha : Plain ['a'] := ⟨by decide, by decide, rfl⟩
  have hb : Plain ['b'] := ⟨by decide, by decide, rfl⟩
  have hhere : Meets windingLinks [slash, ['r']] false [['a']] [] ([], ['b', '/', 'a']) :=
    Meets.here ha (by decide)
  have hround : Into windingLinks [slash, ['r']] true ([], ['b', '/', 'a'])
      ([], ['b', '/', 'a']) :=
    @Meets.beyond _ _ false _ _ [] [] ['.'] _ hb (by decide) (Walks.dot (Walks.nil [])) hhere
  refine @not_halts_of_comesBack windingLinks [slash, ['r']] ['a'] ?_ ⟨answer, fuel, h⟩
  exact ⟨false, _, hhere, _, _, Relation.ReflTransGen.refl, hround, Relation.ReflTransGen.refl⟩

end ErlangWasm.Wasi
