import ErlangWasm.Reasoning.Run
import Mathlib.Data.Fintype.Basic

/-!
# The state of an instance and what processes have cached of it

The mutable state of an instance is one row of an `ets` table, beside a version in an `atomics`
array.  A process that reads the state keeps it in its dictionary with the version it was current
at, and reads the table again when the version has moved.

Every access to the table and to the version is a step here, and so are the two writes of the
cache.  What else a process does to its own dictionary goes with the step before it.
-/

namespace ErlangWasm.StateCache

open Function

/-- `?IX_VERSION`, a signed 64-bit word: what counts is when it is equal to one read before. -/
abbrev Version := BitVec 64

/-- Where a process stands in `set_mut/2` or `mut/1`. -/
inductive Pc (M : Type*)
  | idle
  -- `set_mut/2` after `ets:insert`
  | inserted (m : M)
  -- and after `atomics:add_get`
  | bumped (version : Version) (m : M)
  -- `mut_at/3` before `get({wasm_mut_cache, Id})`
  | reading (now : Version)
  -- `cache_fill/3` before `load_mut/1`, and after it
  | missed (now : Version)
  | loaded (now : Version) (m : M)
  | answered (m : M)
  -- what this process has published, answered by `mut/1` itself
  | inflight (m : M)
  deriving DecidableEq

structure State (P M : Type*) where
  /-- `{state, Mut}` -/
  table : M
  version : Version
  /-- `{wasm_mut_cache, Id}` of each process. -/
  cache : P → Option (Version × M)
  /-- `{wasm_inflight, Id}` of each process. -/
  inflight : P → Option M
  pc : P → Pc M

variable {P M : Type*}

/-- A new instance, which no process has looked at. -/
def State.init (m : M) : State P M where
  table := m
  version := 0
  cache _ := none
  inflight _ := none
  pc _ := .idle

inductive Action (P M : Type*)
  -- `set_mut/2`
  | insert (p : P) (m : M)
  | increment (p : P)
  | keep (p : P)
  -- `mut/1`
  | readVersion (p : P)
  | lookup (p : P)
  | load (p : P)
  | fill (p : P)
  | done (p : P)
  -- `publish/2` and `unpublish/2`
  | publish (p : P) (m : M)
  | unpublish (p : P) (prev : Option M)

def Action.inserts : Action P M → Bool
  | .insert .. => true
  | _ => false

variable [DecidableEq P]

def State.goto (s : State P M) (p : P) (pc : Pc M) : State P M :=
  { s with pc := update s.pc p pc }

def State.remember (s : State P M) (p : P) (version : Version) (m : M) : State P M :=
  { s with cache := update s.cache p (some (version, m)) }

def step (s : State P M) : Action P M → Option (State P M)
  | .insert p m =>
    match s.pc p with
    | .idle =>
      -- a commit is newer than what this process has published
      let inflight := (s.inflight p).map fun _ => m
      some ({ s with table := m, inflight := update s.inflight p inflight }.goto p (.inserted m))
    | _ => none
  | .increment p =>
    match s.pc p with
    | .inserted m =>
      let version := s.version + 1
      some ({ s with version }.goto p (.bumped version m))
    | _ => none
  | .keep p =>
    match s.pc p with
    | .bumped version m => some ((s.remember p version m).goto p .idle)
    | _ => none
  | .readVersion p =>
    match s.pc p with
    | .idle =>
      match s.inflight p with
      | none => some (s.goto p (.reading s.version))
      | some m => some (s.goto p (.inflight m))
    | _ => none
  | .lookup p =>
    match s.pc p with
    | .reading now =>
      match s.cache p with
      | some (version, m) =>
        if version = now then some (s.goto p (.answered m)) else some (s.goto p (.missed now))
      | none => some (s.goto p (.missed now))
    | _ => none
  | .load p =>
    match s.pc p with
    | .missed now => some (s.goto p (.loaded now s.table))
    | _ => none
  | .fill p =>
    match s.pc p with
    | .loaded now m => some ((s.remember p now m).goto p (.answered m))
    | _ => none
  | .done p =>
    match s.pc p with
    | .answered _ | .inflight _ => some (s.goto p .idle)
    | _ => none
  | .publish p m =>
    match s.pc p with
    | .idle => some { s with inflight := update s.inflight p (some m) }
    | _ => none
  | .unpublish p prev =>
    match s.pc p with
    | .idle => some { s with inflight := update s.inflight p prev }
    | _ => none

/-! ## What one step does -/

@[simp] theorem goto_pc (s : State P M) (p : P) (pc : Pc M) :
    (s.goto p pc).pc = update s.pc p pc := rfl

@[simp] theorem goto_table (s : State P M) (p : P) (pc : Pc M) :
    (s.goto p pc).table = s.table := rfl

@[simp] theorem goto_version (s : State P M) (p : P) (pc : Pc M) :
    (s.goto p pc).version = s.version := rfl

@[simp] theorem goto_cache (s : State P M) (p : P) (pc : Pc M) :
    (s.goto p pc).cache = s.cache := rfl

@[simp] theorem remember_pc (s : State P M) (p : P) (v : Version) (m : M) :
    (s.remember p v m).pc = s.pc := rfl

@[simp] theorem remember_table (s : State P M) (p : P) (v : Version) (m : M) :
    (s.remember p v m).table = s.table := rfl

@[simp] theorem remember_version (s : State P M) (p : P) (v : Version) (m : M) :
    (s.remember p v m).version = s.version := rfl

@[simp] theorem remember_cache (s : State P M) (p : P) (v : Version) (m : M) :
    (s.remember p v m).cache = update s.cache p (some (v, m)) := rfl

end ErlangWasm.StateCache

/-!
## What a cached state is worth

A cached state is kept with a version, and the version moves after the table does.  Where the last
of several overlapping writes to move it is the one whose state the table holds, what is cached at
the version is what the table holds; another order leaves a writer with a state of its own that the
version calls current.
-/

namespace ErlangWasm.StateCache

open Function Reasoning.Run

variable {P M : Type*}

def Pc.isInserted : Pc M → Bool
  | .inserted _ => true
  | _ => false

/-- What is about to be cached, and the version at which. -/
def Pc.caching : Pc M → Option (Version × M)
  | .bumped v m | .loaded v m => some (v, m)
  | _ => none

/-- `set_mut/2` has put the state of this process into the table, and not moved the version yet. -/
def State.Inserted (s : State P M) (p : P) : Prop := (s.pc p).isInserted

/-- No `set_mut/2` is in progress. -/
def State.Quiet (s : State P M) : Prop :=
  ∀ p m, s.pc p ≠ .inserted m ∧ ∀ v, s.pc p ≠ .bumped v m

/-- A process has a state cached at a version, or is about to. -/
def State.Holds (s : State P M) (p : P) (v : Version) (m : M) : Prop :=
  s.cache p = some (v, m) ∨ (s.pc p).caching = some (v, m)

/-- The lookup a process is at finds a state cached at the current version. -/
def State.Hits (s : State P M) (p : P) (m : M) : Prop :=
  s.pc p = .reading s.version ∧ s.cache p = some (s.version, m)

variable [DecidableEq P]

/-- Once no `set_mut/2` is in progress, and until the next one, `mut_at/3` answers what the table
holds, to a process that had cached anything as to one that had not. -/
def State.AnswersLast (s : State P M) : Prop :=
  s.Quiet → ∀ as t p m, PathIf step (fun _ a => a.inserts = false) s as t → s.pc p = .idle →
    t.pc p = .answered m → m = s.table

/-- The version moves to one that nobody holds a state at, and when no other write is between its
two halves it is moved by the process whose state the table holds.  Nobody looks into its cache
while a write is between its halves. -/
def Ok (s : State P M) : Action P M → Prop
  | .increment p =>
    (∀ q, (∀ c ∈ s.cache q, c.1 ≠ s.version + 1) ∧ ∀ c ∈ (s.pc q).caching, c.1 ≠ s.version + 1) ∧
      ((∃ q, q ≠ p ∧ s.Inserted q) ∨ s.pc p = .inserted s.table)
  | .lookup _ => ∀ q, ¬ s.Inserted q
  | _ => True

instance [DecidableEq M] [Fintype P] (s : State P M) (a : Action P M) : Decidable (Ok s a) := by
  unfold Ok State.Inserted
  split <;> infer_instance

/-! ## What one step changes -/

/-- The process that takes the step. -/
def Action.proc : Action P M → P
  | .insert p _ | .increment p | .keep p | .readVersion p | .lookup p | .load p | .fill p | .done p
  | .publish p _ | .unpublish p _ => p

/-- The steps, each with its guard and what it does. -/
inductive Moves (s : State P M) : Action P M → State P M → Prop
  | insert {p : P} {m : M} (h : s.pc p = .idle) (inflight : P → Option M) :
      Moves s (.insert p m) ({ s with table := m, inflight }.goto p (.inserted m))
  | increment {p : P} {m : M} (h : s.pc p = .inserted m) :
      Moves s (.increment p)
        ({ s with version := s.version + 1 }.goto p (.bumped (s.version + 1) m))
  | keep {p : P} {v : Version} {m : M} (h : s.pc p = .bumped v m) :
      Moves s (.keep p) ((s.remember p v m).goto p .idle)
  | readVersion {p : P} (h : s.pc p = .idle) :
      Moves s (.readVersion p) (s.goto p (.reading s.version))
  | readInflight {p : P} {m : M} (h : s.pc p = .idle) :
      Moves s (.readVersion p) (s.goto p (.inflight m))
  | hit {p : P} {now : Version} {m : M} (h : s.pc p = .reading now)
      (hcache : s.cache p = some (now, m)) : Moves s (.lookup p) (s.goto p (.answered m))
  | miss {p : P} {now : Version} (h : s.pc p = .reading now) :
      Moves s (.lookup p) (s.goto p (.missed now))
  | load {p : P} {now : Version} (h : s.pc p = .missed now) :
      Moves s (.load p) (s.goto p (.loaded now s.table))
  | fill {p : P} {now : Version} {m : M} (h : s.pc p = .loaded now m) :
      Moves s (.fill p) ((s.remember p now m).goto p (.answered m))
  | done {p : P} (h : ∀ m, s.pc p ≠ .inserted m) : Moves s (.done p) (s.goto p .idle)
  | publish {p : P} {m : M} (inflight : P → Option M) : Moves s (.publish p m) { s with inflight }
  | unpublish {p : P} {prev : Option M} (inflight : P → Option M) :
      Moves s (.unpublish p prev) { s with inflight }

variable {s t : State P M} {a : Action P M} {p q : P} {v : Version} {m : M}

theorem moves_of_step (h : step s a = some t) : Moves s a t := by
  cases a with
  | insert p m =>
    simp only [step] at h
    split at h <;> cases h
    exact .insert ‹_› _
  | increment p =>
    simp only [step] at h
    split at h <;> cases h
    exact .increment ‹_›
  | keep p =>
    simp only [step] at h
    split at h <;> cases h
    exact .keep ‹_›
  | readVersion p =>
    simp only [step] at h
    split at h
    · split at h <;> cases h
      · exact .readVersion ‹_›
      · exact .readInflight ‹_›
    · cases h
  | lookup p =>
    simp only [step] at h
    split at h
    case h_2 => cases h
    case h_1 now hpc =>
      split at h
      case h_2 => cases h; exact .miss hpc
      case h_1 v m hcache =>
        split at h <;> cases h
        case isTrue hv => exact .hit hpc (hv ▸ hcache)
        case isFalse => exact .miss hpc
  | load p =>
    simp only [step] at h
    split at h <;> cases h
    exact .load ‹_›
  | fill p =>
    simp only [step] at h
    split at h <;> cases h
    exact .fill ‹_›
  | done p =>
    simp only [step] at h
    split at h <;> cases h <;> exact .done (by simp_all)
  | publish p m =>
    simp only [step] at h
    split at h <;> cases h
    exact .publish _
  | unpublish p prev =>
    simp only [step] at h
    split at h <;> cases h
    exact .unpublish _

theorem step_pc (h : step s a = some t) (hq : q ≠ a.proc) : t.pc q = s.pc q := by
  cases moves_of_step h <;> first | rfl | exact update_of_ne hq _ _

theorem step_table (h : step s a = some t) (ha : a.inserts = false) : t.table = s.table := by
  cases moves_of_step h <;> first | rfl | cases ha

theorem step_version (h : step s a = some t) (ha : ∀ p, a ≠ .increment p) :
    t.version = s.version := by
  cases moves_of_step h
  case increment p m hpc => exact absurd rfl (ha p)
  all_goals rfl

/-- A state comes to be held by the write that moves the version, or by a read of the table. -/
theorem step_holds (h : step s a = some t) (hold : t.Holds q v m) :
    s.Holds q v m ∨ (a = .increment q ∧ s.pc q = .inserted m ∧ v = s.version + 1) ∨
      (a = .load q ∧ m = s.table) := by
  by_cases hq : q = a.proc
  case neg =>
    refine .inl ?_
    rw [State.Holds, step_pc h hq] at hold
    have hcache : t.cache q = s.cache q := by
      cases moves_of_step h <;> first | rfl | exact update_of_ne hq _ _
    rwa [hcache] at hold
  subst hq
  simp only [State.Holds] at hold ⊢
  cases moves_of_step h
  all_goals simp only [Action.proc, goto_pc, goto_cache, remember_pc, remember_cache, update_self]
    at hold ⊢
  all_goals grind [Pc.caching]

/-- A write stays between its halves until it moves the version. -/
theorem step_inserted (h : step s a = some t) (hq : s.Inserted q) (ha : a ≠ .increment q) :
    t.Inserted q := by
  by_cases hproc : q = a.proc
  case neg => rwa [State.Inserted, step_pc h hproc]
  subst hproc
  cases moves_of_step h <;> simp_all [Action.proc, State.Inserted, Pc.isInserted]

/-! ## What is held at the current version -/

/-- What is held at the current version is in the table, unless a write is between its halves. -/
def Inv (s : State P M) : Prop :=
  ∀ q m, s.Holds q s.version m → m = s.table ∨ ∃ p, s.Inserted p

omit [DecidableEq P] in
theorem inv_init (m : M) : Inv (State.init m : State P M) := by
  intro q n hold
  simp [State.Holds, State.init, Pc.caching] at hold

theorem inv_step (hinv : Inv s) (hok : Ok s a) (h : step s a = some t) : Inv t := by
  intro q m hold
  by_cases hinc : ∃ p, a = .increment p
  case pos =>
    obtain ⟨p, rfl⟩ := hinc
    obtain ⟨hfresh, hlast⟩ := hok
    have hversion : t.version = s.version + 1 := by
      cases moves_of_step h
      rfl
    rw [hversion] at hold
    -- no one held anything at the new version: this is what the write itself holds
    obtain hold | ⟨ha, hm, -⟩ | ⟨ha, -⟩ := step_holds h hold
    · rcases hold with hcache | hpc
      · exact absurd rfl ((hfresh q).1 _ hcache)
      · exact absurd rfl ((hfresh q).2 _ hpc)
    · cases ha
      rcases hlast with ⟨r, hr, hins⟩ | hpc
      · exact .inr ⟨r, step_inserted h hins (by simpa using Ne.symm hr)⟩
      · rw [hm] at hpc
        cases hpc
        exact .inl (step_table h rfl).symm
    · cases ha
  case neg =>
    have hversion : t.version = s.version := step_version h (by simpa using hinc)
    rw [hversion] at hold
    cases hins : a.inserts with
    | true =>
      obtain ⟨p, n, rfl⟩ : ∃ p n, a = .insert p n := by cases a <;> simp_all [Action.inserts]
      cases moves_of_step h
      exact .inr ⟨p, by simp [State.Inserted, Pc.isInserted]⟩
    | false =>
      rw [step_table h hins]
      obtain hold | ⟨ha, -⟩ | ⟨-, hm⟩ := step_holds h hold
      · obtain hm | ⟨p, hp⟩ := hinv q m hold
        · exact .inl hm
        · exact .inr ⟨p, step_inserted h hp fun ha => hinc ⟨p, ha⟩⟩
      · exact absurd ⟨q, ha⟩ hinc
      · exact .inl hm

/-! ## The answers of `mut/1` once nobody writes -/

omit [DecidableEq P] in
theorem not_inserted_of_quiet (hquiet : s.Quiet) (p : P) : ¬ s.Inserted p := by
  unfold State.Inserted
  cases hpc : s.pc p with
  | inserted m => exact absurd hpc (hquiet p m).1
  | _ => exact nofun

/-- Where a process and the caches stand when nobody has written since the table held `m`. -/
structure Since (m : M) (p : P) (s : State P M) : Prop where
  table : s.table = m
  quiet : s.Quiet
  inv : Inv s
  reading : ∀ now, s.pc p = .reading now → now = s.version
  loaded : ∀ now n, s.pc p = .loaded now n → n = m
  answered : ∀ n, s.pc p = .answered n → n = m

theorem since_step (hs : Since m p s) (ha : a.inserts = false) (h : step s a = some t) :
    Since m p t := by
  have hinc : ∀ r, a ≠ .increment r := by
    rintro r rfl
    cases moves_of_step h
    case increment n hpc => exact (hs.quiet r n).1 hpc
  have hnone : ∀ q, ¬ s.Inserted q := not_inserted_of_quiet hs.quiet
  have hok : Ok s a := by cases a <;> simp_all [Ok]
  have htable : t.table = m := (step_table h ha).trans hs.table
  have hquiet : t.Quiet := by
    intro q n
    by_cases hq : q = a.proc
    case neg => rw [step_pc h hq]; exact hs.quiet q n
    subst hq
    have hqs := hs.quiet a.proc
    cases moves_of_step h <;> simp_all [Action.proc, Action.inserts]
  have hversion := step_version h hinc
  by_cases hp : p = a.proc
  case neg =>
    have hpc := step_pc h hp
    exact ⟨htable, hquiet, inv_step hs.inv hok h, by rw [hpc, hversion]; exact hs.reading,
      by rw [hpc]; exact hs.loaded, by rw [hpc]; exact hs.answered⟩
  subst hp
  have hheld : ∀ n, s.Holds a.proc s.version n → n = m := by
    intro n hn
    obtain hn | ⟨q, hq⟩ := hs.inv a.proc n hn
    · exact hn.trans hs.table
    · exact absurd hq (hnone q)
  refine ⟨htable, hquiet, inv_step hs.inv hok h, ?_, ?_, ?_⟩
  · intro now hpc
    have hreading := hs.reading now
    cases moves_of_step h <;> simp_all [Action.proc]
  · intro now n hpc
    have hloaded := hs.loaded now n
    have htable' := hs.table
    cases moves_of_step h <;> simp_all [Action.proc]
  · intro n hpc
    have hanswered := hs.answered n
    cases moves_of_step h
    case hit now n' hread hcache =>
      obtain rfl : n' = n := by simpa [Action.proc] using hpc
      exact hheld n' (.inl (hs.reading now hread ▸ hcache))
    case fill now n' hload =>
      obtain rfl : n' = n := by simpa [Action.proc] using hpc
      exact hs.loaded now n' hload
    all_goals simp_all [Action.proc]

/-- Where what is held at the current version is in the table, `mut/1` answers what the table holds
once nobody writes. -/
theorem answersLast_of_inv (hinv : Inv s) : s.AnswersLast := by
  intro hquiet as t p m hpath hidle hanswered
  have hstart : Since s.table p s :=
    ⟨rfl, hquiet, hinv, by simp [hidle], by simp [hidle], by simp [hidle]⟩
  exact (hpath.invariant (Since s.table p) (fun _ _ _ hs ha h => since_step hs ha h)
    hstart).answered m hanswered

/-- Two writes that overlap, where the one that wrote last moves the version last. -/
def inOrder : List (Action Bool ℕ) :=
  [.insert true 1, .insert false 2, .increment true, .keep true, .increment false, .keep false,
    .readVersion false]

/-- Two writes that overlap, where the one that wrote first moves the version last. -/
def crossed : List (Action Bool ℕ) :=
  [.insert true 1, .insert false 2, .increment false, .increment true, .keep false, .keep true]

end ErlangWasm.StateCache
