import ErlangWasm.Wasi.Halting

/-!
# What a guest can name

Below a root that is real, every name that `resolve` answers is one that the operating system finds
inside of the root, and what leads out of it is refused.
-/

namespace ErlangWasm.Wasi

open Reasoning.Halting
open Reasoning.Unicode

/-! ## The operating system -/

/-- A path looked up by the operating system, from a directory: every link is followed. -/
inductive Finds (host : Host) : List Name → List Name → List Name → Prop
  | nil (loc : List Name) : Finds host loc [] loc
  | root {loc names loc' : List Name} (h : Finds host [slash] names loc') :
      Finds host loc (slash :: names) loc'
  | dot {loc names loc' : List Name} (h : Finds host loc names loc') :
      Finds host loc (dot :: names) loc'
  | up {loc names loc' : List Name}
      (h : Finds host (if loc = [slash] then loc else loc.dropLast) names loc') :
      Finds host loc (dotdot :: names) loc'
  | name {loc names loc' : List Name} {s : Name} (hs : Plain s)
      (hentry : ∀ e ∈ host.entries (loc ++ [s]), e.isLink = false)
      (h : Finds host (loc ++ [s]) names loc') : Finds host loc (s :: names) loc'
  | link {loc loc₁ names loc' : List Name} {s : Name} {target : List Char} (hs : Plain s)
      (hentry : host.entries (loc ++ [s]) = some (.link target))
      (htarget : Finds host loc (split target) loc₁) (h : Finds host loc₁ names loc') :
      Finds host loc (s :: names) loc'

/-- None of the names that a path goes through is a link. -/
inductive Direct (host : Host) : List Name → List Name → Prop
  | nil (loc : List Name) : Direct host loc []
  | root {loc names : List Name} (h : Direct host [slash] names) : Direct host loc (slash :: names)
  | dot {loc names : List Name} (h : Direct host loc names) : Direct host loc (dot :: names)
  | up {loc names : List Name} (h : Direct host (if loc = [slash] then loc else loc.dropLast) names) :
      Direct host loc (dotdot :: names)
  | name {loc names : List Name} {s : Name} (hs : Plain s)
      (hentry : ∀ e ∈ host.entries (loc ++ [s]), e.isLink = false)
      (h : Direct host (loc ++ [s]) names) : Direct host loc (s :: names)

/-- A root that is itself real: no name of its path is a link, and it is a directory. -/
structure RealRoot (host : Host) (root : List Char) : Prop where
  direct : Direct host host.cwd (split root)
  dir : host.entry (split root) = some .dir

/-- Every link's target is in the native encoding. -/
def NativeLinks (host : Host) : Prop := ∀ loc target, host.entries loc ≠ some (.rawLink target)

/-- The operating system finds the path, and only inside of the root. -/
def Inside (host : Host) (root : List Char) (path : List Name) : Prop :=
  (∃ loc, Finds host host.cwd path loc) ∧
    ∀ loc, Finds host host.cwd path loc → located host.cwd (split root) <+: loc

/-- The names walked from `acc` lead out of the root: above it, to an absolute path, or through a
link whose target does. -/
inductive Escapes (read : ReadLink) (cwd : List Name) : List Name → List Name → Prop
  | above {before after acc : List Name} (h : Walks read cwd before acc []) :
      Escapes read cwd (before ++ dotdot :: after) acc
  | absolute {before after acc acc' : List Name} {s : Name} (h : Walks read cwd before acc acc')
      (hs : isRelative s = false) : Escapes read cwd (before ++ s :: after) acc
  | link {before after acc acc' : List Name} {s : Name} {target : List Char}
      (h : Walks read cwd before acc acc') (hs : Plain s)
      (hread : read (cwd ++ acc' ++ [s]) = some target)
      (hout : Escapes read cwd (split target) acc') :
      Escapes read cwd (before ++ s :: after) acc

section

variable {host : Host} {read : ReadLink} {cwd loc loc' names acc acc' : List Name} {s : Name}
  {seen : List (List Name)} {rest : List Seg}

theorem Plain.ne_slash (hs : Plain s) : s ≠ slash := fun h => not_plain_slash (h ▸ hs)

/-! ## Where paths lead -/

theorem located_append (loc first second : List Name) :
    located loc (first ++ second) = located (located loc first) second := by
  induction first generalizing loc with
  | nil => rfl
  | cons s first ih =>
    rw [List.cons_append, located, located]
    repeat' split
    all_goals apply ih

theorem located_plain (hs : Plain s) : located loc (s :: names) = located (loc ++ [s]) names := by
  rw [located, if_neg hs.ne_slash, if_neg hs.notDot, if_neg hs.notDotdot]

theorem located_up (loc names : List Name) : located loc (dotdot :: names) =
    located (if loc = [slash] then loc else loc.dropLast) names := by
  have hslash : dotdot ≠ slash := by decide
  have hdot : dotdot ≠ dot := by decide
  rw [located, if_neg hslash, if_neg hdot, if_pos rfl]

theorem located_plains (h : ∀ s ∈ names, Plain s) : located loc names = loc ++ names := by
  induction names generalizing loc with
  | nil => exact (List.append_nil loc).symm
  | cons s names ih =>
    rw [located_plain (h s List.mem_cons_self), ih fun t ht => h t (List.mem_cons_of_mem s ht)]
    simp

/-- The empty root is the working directory. -/
theorem located_rootNames (loc : List Name) (root : List Char) :
    located loc (rootNames root) = located loc (split root) := by
  unfold rootNames
  split
  · next h =>
    rw [h]
    rfl
  · rfl

theorem finds_root : Finds host loc (slash :: names) loc' ↔ Finds host [slash] names loc' := by
  constructor
  · intro h
    generalize hd : slash = d at h
    cases h with
    | root h => exact h
    | dot | up => exact absurd hd (by decide)
    | name hs | link hs => exact absurd hd.symm hs.ne_slash
  · exact Finds.root

theorem finds_dot : Finds host loc (dot :: names) loc' ↔ Finds host loc names loc' := by
  constructor
  · intro h
    generalize hd : dot = d at h
    cases h with
    | root => exact absurd hd (by decide)
    | dot h => exact h
    | up => exact absurd hd (by decide)
    | name hs | link hs => exact absurd hd.symm hs.notDot
  · exact Finds.dot

theorem finds_up : Finds host loc (dotdot :: names) loc' ↔
    Finds host (if loc = [slash] then loc else loc.dropLast) names loc' := by
  constructor
  · intro h
    generalize hd : dotdot = d at h
    cases h with
    | root | dot => exact absurd hd (by decide)
    | up h => exact h
    | name hs | link hs => exact absurd hd.symm hs.notDotdot
  · exact Finds.up

theorem finds_name (hs : Plain s) (hentry : ∀ e ∈ host.entries (loc ++ [s]), e.isLink = false) :
    Finds host loc (s :: names) loc' ↔ Finds host (loc ++ [s]) names loc' := by
  constructor
  · intro h
    cases h with
    | root => exact absurd rfl hs.ne_slash
    | dot => exact absurd rfl hs.notDot
    | up => exact absurd rfl hs.notDotdot
    | name _ _ h => exact h
    | link _ hlink => exact nomatch hentry _ hlink
  · exact Finds.name hs hentry

/-- A path without links leads to one place. -/
theorem Direct.finds (h : Direct host loc names) :
    Finds host loc names loc' ↔ loc' = located loc names := by
  induction h with
  | nil loc =>
    constructor
    · intro h
      cases h
      rfl
    · rintro rfl
      exact Finds.nil _
  | root _ ih =>
    rw [finds_root, located, if_pos rfl]
    exact ih
  | dot _ ih =>
    rw [finds_dot, located, if_neg (by decide), if_pos rfl]
    exact ih
  | up _ ih =>
    rw [finds_up, located_up]
    exact ih
  | name hs hentry _ ih =>
    rw [finds_name hs hentry, located_plain hs]
    exact ih

theorem Direct.append {first : List Name} (h : Direct host loc first)
    (h' : Direct host (located loc first) names) : Direct host loc (first ++ names) := by
  induction h with
  | nil => exact h'
  | root _ ih => exact Direct.root (ih (by rwa [located, if_pos rfl] at h'))
  | dot _ ih => exact Direct.dot (ih (by rwa [located, if_neg (by decide), if_pos rfl] at h'))
  | up _ ih => exact Direct.up (ih (by rwa [located_up] at h'))
  | name hs hentry _ ih => exact Direct.name hs hentry (ih (by rwa [located_plain hs] at h'))

theorem isLink_of_readLink {path : List Name} (hnative : NativeLinks host)
    (h : host.readLink path = none) : ∀ e ∈ host.entry path, e.isLink = false := by
  intro e he
  unfold Host.readLink at h
  cases e with
  | file => rfl
  | dir => rfl
  | link target =>
    rw [Option.mem_def.mp he] at h
    cases h
  | rawLink target => exact absurd he (hnative _ target)

/-- What the walk has come to is no path through a link. -/
theorem Clean.direct {before : List Name} (hnative : NativeLinks host)
    (h : Clean host.readLink cwd (before ++ names)) :
    Direct host (located host.cwd (cwd ++ before)) names := by
  induction names generalizing before with
  | nil => exact Direct.nil _
  | cons s names ih =>
    obtain ⟨hs, hread⟩ := h before s names rfl
    have hloc : located host.cwd (cwd ++ before ++ [s]) = located host.cwd (cwd ++ before) ++ [s] := by
      rw [located_append, located_plain hs]
      rfl
    have hnext := @ih (before ++ [s]) (by rwa [List.append_assoc])
    apply Direct.name hs
    · have hentry := isLink_of_readLink hnative hread
      rwa [Host.entry, hloc] at hentry
    · rwa [← List.append_assoc, hloc] at hnext

theorem Clean.plain (h : Clean read cwd acc) : ∀ s ∈ acc, Plain s := by
  intro s hs
  obtain ⟨before, after, heq⟩ := List.append_of_mem hs
  exact (h before s after heq).1

/-- Names come to from a real root are inside of it. -/
theorem Clean.inside {root : List Char} (hnative : NativeLinks host) (hroot : RealRoot host root)
    (h : Clean host.readLink (rootNames root) acc) : Inside host root (split root ++ acc) := by
  have hacc : Direct host (located host.cwd (split root)) acc := by
    have hdirect := @Clean.direct host (rootNames root) acc [] hnative h
    rwa [List.append_nil, located_rootNames] at hdirect
  have hfinds (loc : List Name) : Finds host host.cwd (split root ++ acc) loc ↔
      loc = located host.cwd (split root) ++ acc := by
    rw [(hroot.direct.append hacc).finds, located_append, located_plains h.plain]
  refine ⟨⟨_, (hfinds _).mpr rfl⟩, fun loc hloc => ?_⟩
  rw [(hfinds loc).mp hloc]
  exact List.prefix_append _ _

/-! ## What a walk answers -/

/-- One step keeps what the walk has come to without links. -/
theorem Clean.srp {st st' : State} (h : Clean read cwd st.acc) (hstep : srp read cwd st = .inl st') :
    Clean read cwd st'.acc := by
  obtain ⟨segs, seen, acc⟩ := st
  cases segs with
  | nil => cases hstep
  | cons seg segs =>
    cases seg with
    | clear =>
      cases hstep
      exact h
    | name s =>
      by_cases hdot : s = ErlangWasm.Wasi.dot
      · rw [hdot, srp_dot] at hstep
        cases hstep
        exact h
      by_cases hup : s = dotdot
      · subst hup
        rw [ErlangWasm.Wasi.srp, if_neg hdot, if_pos rfl] at hstep
        split at hstep
        · cases hstep
        · cases hstep
          exact h.dropLast
      rw [ErlangWasm.Wasi.srp, if_neg hdot, if_neg hup] at hstep
      split at hstep
      · next hrel =>
        have hs : Plain s := ⟨hdot, hup, hrel⟩
        unfold srpSegment at hstep
        split at hstep
        · dsimp only at hstep
          split at hstep
          · cases hstep
          · cases hstep
            exact h
        · next hread =>
          cases hstep
          exact h.concat hs hread
      · cases hstep

theorem srp_answer {st : State} (hstep : srp read cwd st = .inr (some acc)) : acc = st.acc := by
  obtain ⟨segs, seen, acc'⟩ := st
  unfold srp at hstep
  split at hstep
  · next heq =>
    cases heq
    cases hstep
    rfl
  · next heq =>
    unfold srpSegment at hstep
    dsimp only at hstep
    repeat' split at hstep
    all_goals cases hstep
  · cases hstep

theorem clean_of_answers {st : State} (h : Clean read cwd st.acc)
    (hans : Answers (srp read cwd) st (some acc)) : Clean read cwd acc := by
  have hall := @Answers.invariant State _ _ _ _ (fun st => Clean read cwd st.acc)
    (fun a => ∀ acc, a = some acc → Clean read cwd acc) hans h (fun _ _ h hstep => h.srp hstep) (by
      intro st a hst hstep acc ha
      subst ha
      rw [srp_answer hstep]
      exact hst)
  exact hall acc rfl

theorem comes_of_leads {st st' : State} (hlead : Leads (srp read cwd) st st')
    (h : Answers (srp read cwd) st' none ∨ ∃ seen', Leads (srp read cwd) st' ⟨rest, seen', acc'⟩) :
    Answers (srp read cwd) st none ∨ ∃ seen', Leads (srp read cwd) st ⟨rest, seen', acc'⟩ := by
  rcases h with hnone | ⟨seen', hrest⟩
  · exact .inl (hlead.answers.mpr hnone)
  · exact .inr ⟨seen', hlead.trans hrest⟩

/-- What can be walked to its end is walked so, or is refused before. -/
theorem Walks.answers_or_leads (h : Walks read cwd names acc acc') (seen : List (List Name))
    (rest : List Seg) :
    Answers (srp read cwd) ⟨names.map .name ++ rest, seen, acc⟩ none ∨
      ∃ seen', Leads (srp read cwd) ⟨names.map .name ++ rest, seen, acc⟩ ⟨rest, seen', acc'⟩ := by
  induction h generalizing seen rest with
  | nil => exact .inr ⟨seen, Leads.refl _⟩
  | dot _ ih => exact comes_of_leads (Leads.head srp_dot (Leads.refl _)) (ih seen rest)
  | up hacc _ ih => exact comes_of_leads (Leads.head (srp_up hacc) (Leads.refl _)) (ih seen rest)
  | name hs hread _ ih =>
    exact comes_of_leads (Leads.head (srp_name hs hread) (Leads.refl _)) (ih seen rest)
  | @link s names acc acc₁ acc' target hs hread _ _ ihtarget ih =>
    by_cases hseen : fullOf cwd (acc, target) ∈ seen
    · exact .inl (answers_of_step (srp_seen hs hread hseen))
    · apply comes_of_leads (Leads.head (srp_link hs hread hseen) (Leads.refl _))
      rcases ihtarget (fullOf cwd (acc, target) :: seen) (.clear :: (names.map .name ++ rest)) with
        hnone | ⟨seen₁, htarget⟩
      · exact .inl hnone
      · have hall := htarget.trans (Leads.head srp_clear (Leads.refl _))
        exact comes_of_leads hall (ih [] rest)

/-- What leads out of the root is unsafe. -/
theorem Escapes.answers (h : Escapes read cwd names acc) (seen : List (List Name))
    (rest : List Seg) : Answers (srp read cwd) ⟨names.map .name ++ rest, seen, acc⟩ none := by
  have hbefore {before after acc acc' : List Name} {seen : List (List Name)} {rest : List Seg}
      (hwalk : Walks read cwd before acc acc')
      (hafter : ∀ seen, Answers (srp read cwd) ⟨after.map .name ++ rest, seen, acc'⟩ none) :
      Answers (srp read cwd) ⟨(before ++ after).map .name ++ rest, seen, acc⟩ none := by
    rw [List.map_append, List.append_assoc]
    rcases hwalk.answers_or_leads seen (after.map .name ++ rest) with hnone | ⟨seen', hlead⟩
    · exact hnone
    · exact hlead.answers.mpr (hafter seen')
  induction h generalizing seen rest with
  | above hwalk =>
    apply hbefore hwalk
    intro seen
    apply answers_of_step
    rw [List.map_cons, List.cons_append, srp, if_neg (by decide), if_pos rfl, if_pos rfl]
  | @absolute before after acc acc' s hwalk hs =>
    apply hbefore hwalk
    intro seen
    apply answers_of_step
    have hdot : s ≠ dot := by
      rintro rfl
      cases hs
    have hup : s ≠ dotdot := by
      rintro rfl
      cases hs
    have hname : ¬ isRelative s = true := by
      rw [hs]
      exact Bool.false_ne_true
    rw [List.map_cons, List.cons_append, srp, if_neg hdot, if_neg hup, if_neg hname]
  | @link before after acc acc' s target hwalk hs hread _ ih =>
    apply hbefore hwalk
    intro seen
    by_cases hseen : fullOf cwd (acc', target) ∈ seen
    · exact answers_of_step (srp_seen hs hread hseen)
    · exact (answers_step (srp_link hs hread hseen)).mpr (ih _ _)

/-! ## What is resolved -/

variable {root path : List Char} {full : List Name} {fuel : ℕ} {mustExist : Bool}

theorem resolveChecked_ok (h : resolveChecked host fuel root path mustExist = some (.ok full)) :
    ∃ acc, Clean host.readLink (rootNames root) acc ∧ full = split root ++ acc ∧
      (mustExist = true → exists? host full) := by
  obtain ⟨answer, hanswer, heq⟩ := Option.map_eq_some_iff.mp h
  cases answer with
  | none => cases heq
  | some acc =>
    have hclean := clean_of_answers clean_nil ⟨fuel, hanswer⟩
    dsimp only at heq
    split at heq
    · cases heq
    · next hexists =>
      cases heq
      refine ⟨acc, hclean, rfl, fun hmust => ?_⟩
      rw [hmust] at hexists
      simpa using hexists

theorem resolveChecked_escapes (h : Escapes host.readLink (rootNames root) (split path) [])
    (mustExist : Bool) :
    (∃ fuel, resolveChecked host fuel root path mustExist = some (.error .enotcapable)) ∧
      ∀ fuel full, resolveChecked host fuel root path mustExist ≠ some (.ok full) := by
  have hnone : Answers (srp host.readLink (rootNames root)) (start path) none := by
    have := h.answers [] []
    rwa [List.append_nil] at this
  constructor
  · obtain ⟨fuel, hfuel⟩ := hnone
    refine ⟨fuel, ?_⟩
    rw [resolveChecked, safeRelativePath, hfuel]
    rfl
  · intro fuel full hok
    obtain ⟨answer, hanswer, heq⟩ := Option.map_eq_some_iff.mp hok
    obtain rfl := Answers.unique hnone ⟨fuel, hanswer⟩
    cases heq

/-- The last name of a path, if that is what names something in a directory. -/
def lastName? (path : List Char) : Option Name :=
  match (split path).getLast? with
  | some base => if base = dot ∨ base = dotdot ∨ base = slash then none else some base
  | none => none

/-- The names of a path that are walked: with `nofollow`, all but the last name. -/
def walked (how : Follow) (path : List Char) : List Name :=
  match how, lastName? path with
  | .nofollow, some _ => (split path).dropLast
  | _, _ => split path

/-- A single name, none of ".", ".." and "/". -/
structure Bare (s : Name) : Prop where
  plain : Plain s
  noSlash : '/' ∉ s

theorem lastName?_some {base : Name} (h : lastName? path = some base) :
    (split path).getLast? = some base ∧ ¬(base = dot ∨ base = dotdot ∨ base = slash) := by
  unfold lastName? at h
  split at h
  · next last hlast =>
    split at h
    · cases h
    · next hname =>
      cases h
      exact ⟨hlast, hname⟩
  · cases h

theorem lastName?_none {base : Name} (h : lastName? path = none)
    (hlast : (split path).getLast? = some base) : base = dot ∨ base = dotdot ∨ base = slash := by
  unfold lastName? at h
  rw [hlast] at h
  dsimp only at h
  split at h
  · assumption
  · cases h

theorem bare_of_lastName? {base : Name} (h : lastName? path = some base) :
    Bare base ∧ isRelative base ∧ split base = [base] := by
  obtain ⟨hlast, hnot⟩ := lastName?_some h
  rw [not_or, not_or] at hnot
  obtain ⟨hdot, hup, hslash⟩ := hnot
  rcases of_mem_split (List.mem_of_getLast? hlast) with heq | ⟨hne, hno⟩
  · exact absurd heq hslash
  · have hrel := relative_of_not_mem hno
    exact ⟨⟨⟨hdot, hup, hrel⟩, hno⟩, hrel, split_single hno hne⟩

variable (host root mustExist) in
/-- A path without a last name is resolved whole. -/
theorem resolveLast_whole (hne : path ≠ []) (h : lastName? path = none) :
    ∃ path', split path' = split path ∧ ∀ fuel,
      resolveLast host fuel root path mustExist = resolveChecked host fuel root path' mustExist := by
  by_cases htrim : trimSlashes path = []
  · refine ⟨path, rfl, fun fuel => ?_⟩
    rw [resolveLast, resolveLast1, if_pos htrim]
  · have hsplit := split_trimSlashes htrim
    refine ⟨trimSlashes path, hsplit, fun fuel => ?_⟩
    rw [resolveLast, resolveLast1, if_neg htrim, hsplit]
    cases hlast : (split path).getLast? with
    | none => exact absurd (List.getLast?_eq_none_iff.mp hlast) (split_ne_nil hne)
    | some base => exact if_pos (lastName?_none h hlast)

variable (host root mustExist) in
/-- Of another path the directory is resolved, and the last name put after it. -/
theorem resolveLast_named {base : Name} (hne : path ≠ []) (h : lastName? path = some base) :
    ∃ path', (split path' = (split path).dropLast ∨ split path = [base]) ∧ ∀ fuel,
      resolveLast host fuel root path mustExist =
        (resolveChecked host fuel root path' true).map fun
          | .error e => .error e
          | .ok parent =>
              let full := join parent base
              if mustExist && !exists? host full then .error .enoent else .ok full := by
  obtain ⟨hlast, hnot⟩ := lastName?_some h
  have htrim : trimSlashes path ≠ [] := by
    intro htrim
    rw [split_of_trimSlashes htrim hne] at hlast
    cases hlast
    exact hnot (.inr (.inr rfl))
  have hsplit := split_trimSlashes htrim
  refine ⟨dirname (trimSlashes path), ?_, fun fuel => ?_⟩
  · rw [split_dirname htrim (trimSlashes_getLast path), hsplit]
    by_cases hin : '/' ∈ trimSlashes path
    · rw [if_pos hin]
      exact .inl rfl
    · rw [← hsplit, split_single hin htrim] at hlast ⊢
      cases hlast
      exact .inr rfl
  · rw [resolveLast, resolveLast1, if_neg htrim, hsplit, hlast]
    exact if_neg hnot

end

/-! ## Confinement -/

section

variable (host : Host) (root : List Char) (guestPath : List UInt8) (mustExist : Bool)

/-- The path is answered with an error, and never with a name. -/
def Refused (how : Follow) : Prop :=
  (∃ fuel e, resolve host fuel root guestPath mustExist how = some (.error e)) ∧
    ∀ fuel full, resolve host fuel root guestPath mustExist how ≠ some (.ok full)

/-- The guest is confined whatever way it names its path. -/
structure Confined : Prop where
  follow : ∀ fuel full, resolve host fuel root guestPath mustExist .follow = some (.ok full) →
    Inside host root full
  nofollow : ∀ fuel full, resolve host fuel root guestPath mustExist .nofollow = some (.ok full) →
    ∃ parent base, full = parent ++ [base] ∧ Bare base ∧ Inside host root parent ∧
      host.entry parent = some .dir
  refused : ∀ path, utf8? guestPath = some path →
    (isRelative path = false ∨ Escapes host.readLink (rootNames root) (split path) []) →
    ∀ how, Refused host root guestPath mustExist how

/-- The guest is confined in what is walked of its path: all of it, or its directory. -/
structure ConfinedInWalk : Prop where
  whole : ∀ path how fuel full, utf8? guestPath = some path →
    (how = .follow ∨ lastName? path = none) →
    resolve host fuel root guestPath mustExist how = some (.ok full) → Inside host root full
  named : ∀ path base fuel full, utf8? guestPath = some path → lastName? path = some base →
    resolve host fuel root guestPath mustExist .nofollow = some (.ok full) →
    ∃ parent, full = parent ++ [base] ∧ Bare base ∧ Inside host root parent ∧ exists? host parent
  refused : ∀ path how, utf8? guestPath = some path →
    (isRelative path = false ∨ Escapes host.readLink (rootNames root) (walked how path) []) →
    Refused host root guestPath mustExist how

end

variable {host : Host} {root path : List Char} {guestPath : List UInt8} {mustExist : Bool}
  {full : List Name} {fuel : ℕ}

/-- What is resolved at all. -/
theorem resolve_eq (hpath : utf8? guestPath = some path) (how : Follow) :
    (∃ e, ∀ fuel, resolve host fuel root guestPath mustExist how = some (.error e)) ∨
      path ≠ [] ∧ ∀ fuel, resolve host fuel root guestPath mustExist how =
        match how with
        | .follow => resolveChecked host fuel root path mustExist
        | .nofollow => resolveLast host fuel root path mustExist := by
  by_cases hempty : guestPath = []
  · exact .inl ⟨.einval, fun fuel => if_pos hempty⟩
  by_cases hlong : 4096 < path.length
  · refine .inl ⟨.enametoolong, fun fuel => ?_⟩
    rw [resolve, if_neg hempty, hpath]
    exact if_pos hlong
  · refine .inr ⟨?_, fun fuel => ?_⟩
    · rintro rfl
      exact hempty (utf8_of_some hpath).symm
    · rw [resolve, if_neg hempty, hpath]
      exact if_neg hlong

/-- An absolute path leads out of the root. -/
theorem escapes_of_absolute (h : isRelative path = false) (how : Follow) :
    Escapes host.readLink (rootNames root) (walked how path) [] := by
  obtain ⟨names, hsplit⟩ := split_of_absolute h
  have hall (names : List Name) : Escapes host.readLink (rootNames root) (slash :: names) [] :=
    @Escapes.absolute _ _ [] names [] [] slash (Walks.nil []) rfl
  unfold walked
  split
  · next base hlast =>
    obtain ⟨hlast, hnot⟩ := lastName?_some hlast
    rw [hsplit] at hlast ⊢
    cases names with
    | nil =>
      cases hlast
      exact absurd (.inr (.inr rfl)) hnot
    | cons s names =>
      rw [List.dropLast_cons_cons]
      exact hall _
  · rw [hsplit]
    exact hall _

theorem refused_of_error {how : Follow} {e : Errno}
    (h : ∀ fuel, resolve host fuel root guestPath mustExist how = some (.error e)) :
    Refused host root guestPath mustExist how := by
  refine ⟨⟨0, e, h 0⟩, fun fuel full hok => ?_⟩
  rw [h fuel] at hok
  cases hok

/-- What `resolveChecked` refuses is refused, whatever is done with what it allows. -/
theorem refused_of_checked {how : Follow} {path' : List Char} {must : Bool}
    {next : Resolved → Resolved} (hnext : ∀ e, next (.error e) = .error e)
    (h : ∀ fuel, resolve host fuel root guestPath mustExist how =
      (resolveChecked host fuel root path' must).map next)
    (hout : Escapes host.readLink (rootNames root) (split path') []) :
    Refused host root guestPath mustExist how := by
  obtain ⟨⟨fuel, herror⟩, hnot⟩ := resolveChecked_escapes hout must
  constructor
  · refine ⟨fuel, .enotcapable, ?_⟩
    rw [h, herror, Option.map_some, hnext]
  · intro fuel' full hok
    rw [h] at hok
    obtain ⟨answer, hanswer, heq⟩ := Option.map_eq_some_iff.mp hok
    cases answer with
    | error e =>
      rw [hnext] at heq
      cases heq
    | ok parent => exact hnot fuel' parent hanswer

theorem inside_of_checked {path' : List Char} {must : Bool} (hroot : RealRoot host root)
    (hnative : NativeLinks host) (h : resolveChecked host fuel root path' must = some (.ok full)) :
    Inside host root full ∧ (must = true → exists? host full) := by
  obtain ⟨acc, hclean, rfl, hexists⟩ := resolveChecked_ok h
  exact ⟨hclean.inside hnative hroot, hexists⟩

theorem walked_named {base : Name} (h : lastName? path = some base) :
    walked .nofollow path = (split path).dropLast := by
  unfold walked
  rw [h]

theorem walked_whole {how : Follow} (h : how = .follow ∨ lastName? path = none) :
    walked how path = split path := by
  unfold walked
  split
  · next hlast =>
    rcases h with h | h
    · cases h
    · cases hlast.symm.trans h
  · rfl

/-- Below a real root, and with the targets of links in the native encoding, the guest is confined
in what is walked of its path. -/
theorem confinedInWalk (host : Host) (root : List Char) (guestPath : List UInt8) (mustExist : Bool)
    (hroot : RealRoot host root) (hnative : NativeLinks host) :
    ConfinedInWalk host root guestPath mustExist where
  whole path how fuel full hpath hwhole hok := by
    rcases resolve_eq hpath how with ⟨e, herror⟩ | ⟨hne, heq⟩
    · cases (herror fuel).symm.trans hok
    · rw [heq] at hok
      cases how with
      | follow => exact (inside_of_checked hroot hnative hok).1
      | nofollow =>
        have hlast : lastName? path = none := hwhole.resolve_left nofun
        obtain ⟨path', -, hchecked⟩ := resolveLast_whole host root mustExist hne hlast
        have hok : resolveLast host fuel root path mustExist = some (.ok full) := hok
        rw [hchecked] at hok
        exact (inside_of_checked hroot hnative hok).1
  named path base fuel full hpath hlast hok := by
    rcases resolve_eq hpath .nofollow with ⟨e, herror⟩ | ⟨hne, heq⟩
    · cases (herror fuel).symm.trans hok
    · obtain ⟨path', -, hchecked⟩ := resolveLast_named host root mustExist hne hlast
      have hok : resolveLast host fuel root path mustExist = some (.ok full) := by rwa [heq] at hok
      rw [hchecked] at hok
      obtain ⟨answer, hanswer, hfull⟩ := Option.map_eq_some_iff.mp hok
      cases answer with
      | error e => cases hfull
      | ok parent =>
        obtain ⟨hbare, hrel, hsplit⟩ := bare_of_lastName? hlast
        obtain ⟨hinside, hexists⟩ := inside_of_checked hroot hnative hanswer
        refine ⟨parent, ?_, hbare, hinside, hexists rfl⟩
        dsimp only at hfull
        rw [join, if_pos hrel, hsplit] at hfull
        split at hfull
        · cases hfull
        · cases hfull
          rfl
  refused path how hpath hout := by
    have hout : Escapes host.readLink (rootNames root) (walked how path) [] :=
      hout.elim (fun h => escapes_of_absolute h how) id
    rcases resolve_eq hpath how with ⟨e, herror⟩ | ⟨hne, heq⟩
    · exact refused_of_error herror
    · cases how with
      | follow =>
        rw [walked_whole (.inl rfl)] at hout
        have hchecked : ∀ fuel, resolve host fuel root guestPath mustExist .follow =
            (resolveChecked host fuel root path mustExist).map id := by
          intro fuel
          rw [heq, Option.map_id]
          rfl
        exact refused_of_checked (fun _ => rfl) hchecked hout
      | nofollow =>
        cases hlast : lastName? path with
        | none =>
          obtain ⟨path', hsplit, hlastly⟩ := resolveLast_whole host root mustExist hne hlast
          rw [walked_whole (.inr hlast), ← hsplit] at hout
          have hchecked : ∀ fuel, resolve host fuel root guestPath mustExist .nofollow =
              (resolveChecked host fuel root path' mustExist).map id := by
            intro fuel
            rw [heq, Option.map_id]
            exact hlastly fuel
          exact refused_of_checked (fun _ => rfl) hchecked hout
        | some base =>
          obtain ⟨path', hsplit, hlastly⟩ := resolveLast_named host root mustExist hne hlast
          rw [walked_named hlast] at hout
          rcases hsplit with hsplit | hsingle
          · rw [← hsplit] at hout
            have hchecked := fun fuel => (heq fuel).trans (hlastly fuel)
            exact refused_of_checked (fun _ => rfl) hchecked hout
          · -- a single name has no directory that could lead out
            rw [hsingle] at hout
            generalize hnames : [base].dropLast = names at hout
            cases hout with
            | above => exact absurd hnames.symm (by simp)
            | absolute => exact absurd hnames.symm (by simp)
            | link => exact absurd hnames.symm (by simp)

/-- A host with a directory `/r`, and in it a file `b` and a link to it. -/
def smallHost : Host where
  entries path :=
    if path = [slash] ∨ path = [slash, ['r']] then some .dir
    else if path = [slash, ['r'], ['a']] then some (.link ['b'])
    else if path = [slash, ['r'], ['b']] then some .file
    else none
  cwd := [slash]

theorem realRoot_smallHost : RealRoot smallHost ['/', 'r'] where
  direct := by
    have hr : Plain ['r'] := ⟨by decide, by decide, rfl⟩
    apply Direct.root
    apply Direct.name hr
    · intro e he
      cases he
      rfl
    · exact Direct.nil _
  dir := by decide

theorem nativeLinks_smallHost : NativeLinks smallHost := by
  intro loc target
  show (if loc = [slash] ∨ loc = [slash, ['r']] then some Entry.dir else _) ≠ some (.rawLink target)
  repeat' split
  all_goals exact nofun

theorem confinedInWalk_smallHost :
    resolve smallHost 5 ['/', 'r'] [97] true .follow = some (.ok [slash, ['r'], ['b']]) ∧
      ConfinedInWalk smallHost ['/', 'r'] [97] true :=
  ⟨by decide +kernel, confinedInWalk _ _ _ _ realRoot_smallHost nativeLinks_smallHost⟩

/-- Without following, "." is the root itself, and the names before its last are outside. -/
theorem not_confined : ¬ ∀ host root guestPath mustExist, RealRoot host root → NativeLinks host →
    Confined host root guestPath mustExist := by
  intro hall
  have hconfined := hall smallHost ['/', 'r'] [46] true realRoot_smallHost nativeLinks_smallHost
  have hok : resolve smallHost 2 ['/', 'r'] [46] true .nofollow = some (.ok [slash, ['r']]) := by
    decide +kernel
  obtain ⟨parent, base, hfull, -, ⟨-, hinside⟩, -⟩ := hconfined.nofollow 2 _ hok
  have hparent : parent = [slash] := by
    have := congrArg List.dropLast hfull
    rw [List.dropLast_concat] at this
    exact this.symm
  subst hparent
  have hprefix := hinside [slash] (Finds.root (Finds.nil _))
  exact absurd hprefix.length_le (by decide)

end ErlangWasm.Wasi
