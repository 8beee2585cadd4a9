import ErlangWasm.Code.Counted

/-!
# When a slot is reused

A call lease is a hint and `code:soft_purge/1` the authority: a claim may take a slot whose counter
is stuck, once nobody is found in its old code, and then a lease that was taken and not yet used is
no longer counted.  What stays true on every run in which such a lease is not given back
afterwards.
-/

namespace ErlangWasm.Code

open Reasoning Reasoning.Atomics

variable {rt : Node} {s s' : State}

namespace State

/-- The server's next operation raises the counter of slot `n` to `?EXCL` for a claim. -/
def Takes (rt : Node) (s : State) (n : Name) : Prop :=
  ∃ purge s' r rest, step rt s (.serve purge) = some s' ∧ s'.server = .purgeable r n rest

/-- A slot a claim is free to take: every claim that needs one has it among its candidates, and
takes it when it comes to it and `soft_purge` says yes. -/
structure Claimable (rt : Node) (s : State) (n : Name) : Prop where
  candidate : s.server = .idle → ∀ r, s.rowsOf r.key = [] →
    ∃ names, step rt s (.claimLoading r) = some (s.goto (.reusable r names)) ∧ n ∈ names
  taken : ∀ r rest, s.server = .reusable r (n :: rest) →
    ∃ k s', Run.exec (step rt) (List.replicate k (.serve true)) s = some s' ∧
      s'.server = .idle ∧ (s'.table n).state = .loading r.key

/-- Nothing is in the way of a claim on `n`: no reservation, no instance lease, and no call lease
of a process that lives. -/
def Unheld (s : State) (n : Name) : Prop :=
  ¬ s.reserved n ∧ (s.table n).leases = ∅ ∧ ∀ c ∈ s.calls, c.slot = n → s.alive c.pid = false

/-- No slot is taken under the call lease of a live process, every counter is the leases counted
in it, and an unheld slot can be claimed. -/
structure NeverReused (rt : Node) (s : State) : Prop where
  exclusive : ∀ n, s.Takes rt n → ∀ c ∈ s.calls, c.slot = n → c.stage ≠ .stale →
    s.alive c.pid = false
  counter : ∀ n, s.counter n = (if s.reserved n then excl else 0) + s.countedOn n
  claimable : ∀ n, s.Unheld n → s.Claimable rt n

/-- The same, where a slot may also be taken once nobody runs its old code; nobody does from then
on until the new code is loaded. -/
structure ReusedWhenPurged (rt : Node) (s : State) : Prop where
  exclusive : ∀ n, s.Takes rt n →
    (∀ c ∈ s.calls, c.slot = n → c.counted = false) ∨ s.runsOld n = false
  purged : ∀ n, s.emptied n → s.runsOld n = false
  counter : ∀ n, s.counter n = (if s.reserved n then excl else 0) + s.countedOn n
  claimable : ∀ n, s.Unheld n → s.Claimable rt n

end State

open State

/-- The two exchanges are the only operations that take a slot. -/
theorem takes_cases {n : Name} (h : s.Takes rt n) :
    (∃ r rest, s.server = .reusable r (n :: rest) ∧ s.counter n = 0) ∨
      ∃ r rest stuck, s.server = .repairExchange r n stuck rest ∧ s.counter n = stuck := by
  obtain ⟨purge, s', r, rest, hstep, hserver⟩ := h
  rw [show step rt s (.serve purge) = s.serve purge s.server from rfl] at hstep
  cases hpc : s.server with
  | idle => simp [hpc, State.serve] at hstep
  | reusable r' names =>
    cases names with
    | nil =>
      simp only [hpc, State.serve, Option.some.injEq] at hstep
      subst hstep
      cases hserver
    | cons m rest' =>
      simp only [hpc, State.serve] at hstep
      split at hstep
      · rename_i hzero
        cases hstep
        cases hserver
        exact .inl ⟨_, _, rfl, hzero⟩
      · split at hstep <;> cases hstep <;> cases hserver
  | repairPurgeable r' m stuck rest' =>
    simp only [hpc, State.serve, Option.map_eq_some_iff] at hstep
    obtain ⟨purged, -, rfl⟩ := hstep
    cases purged <;> cases hserver
  | repairExchange r' m stuck rest' =>
    simp only [hpc, State.serve] at hstep
    split at hstep
    · rename_i hstuck
      cases hstep
      cases hserver
      exact .inr ⟨_, _, _, rfl, hstuck⟩
    · cases hstep
      cases hserver
  | purgeable r' m rest' =>
    simp only [hpc, State.serve, Option.map_eq_some_iff] at hstep
    obtain ⟨purged, -, rfl⟩ := hstep
    cases purged <;> cases hserver
  | unpurged r' m rest' | reserve r' m | releaseHold m =>
    simp only [hpc, State.serve, Option.some.injEq] at hstep
    subst hstep
    cases hserver

theorem exclusive_of_counted (h : s.Counted) {n : Name} (ht : s.Takes rt n) :
    (∀ c ∈ s.calls, c.slot = n → c.counted = false) ∨ s.runsOld n = false := by
  rcases takes_cases ht with ⟨r, rest, -, hzero⟩ | ⟨r, rest, stuck, hserver, -⟩
  · left
    have hcount : s.countedOn n = 0 := by
      have hn := h.counter n
      omega
    intro c hc hslot
    have hnone := List.countP_eq_zero.mp hcount c hc
    simpa [hslot] using hnone
  · right
    apply h.emptied n
    left
    rw [hserver]
    rfl

/-! ## Claiming an unheld slot -/

theorem empty_of_unheld {n : Name} (h : s.Unheld n) : (s.table n).empty = true := by
  obtain ⟨hfree, hleases, -⟩ := h
  have hrow : (s.table n).isLoading = false := by
    rw [← Bool.not_eq_true]
    exact fun hl => hfree (.inl hl)
  cases hstate : (s.table n).state with
  | free => simp [Row.empty, hstate]
  | loading key => simp [Row.isLoading, hstate] at hrow
  | resident key =>
    rw [Row.empty, hstate, hleases]
    rfl

theorem mem_candidates {n : Name} (hn : (s.table n).empty = true) (key : Key) :
    n ∈ s.candidates rt key := by
  have hempty : n ∈ rt.listing.filter fun n => (s.table n).empty :=
    List.mem_filter.mpr ⟨rt.listed.mem_iff.mpr (List.mem_finRange n), hn⟩
  unfold State.candidates
  dsimp only
  split
  · by_cases hhome : n = rt.home key
    · rw [hhome]
      exact List.mem_cons_self
    · exact List.mem_cons_of_mem _ ((List.mem_erase_of_ne hhome).mpr hempty)
  · exact hempty

theorem runsOld_of_unheld {n : Name} (h : s.Unheld n) : s.runsOld n = false := by
  rw [← Bool.not_eq_true, runsOld_eq_true]
  rintro ⟨c, hc, hslot, halive, -⟩
  rw [h.2.2 c hc hslot] at halive
  cases halive

theorem purgeable_true {n : Name} (h : s.runsOld n = false) : s.purgeable n true = some true := by
  unfold State.purgeable
  rw [h]
  split <;> rfl

theorem state_add (n : Name) (row : Row) (key : Key) (lease : Lease) (owner : Pid) :
    ((s.add n row key lease owner).table n).state = row.state := by
  unfold State.add
  split <;> simp [State.insertRow]

/-- From the successful exchange on: `soft_purge`, then the row. -/
theorem exec_purgeable {r : Request} {n : Name} {rest : List Name}
    (hserver : s.server = .purgeable r n rest) (hruns : s.runsOld n = false) :
    ∃ s', Run.exec (step rt) [.serve true, .serve true] s = some s' ∧
      s'.server = .idle ∧ (s'.table n).state = .loading r.key := by
  have hpurge : step rt s (.serve true) = some (s.goto (.reserve r n)) := by
    show s.serve true s.server = _
    rw [hserver]
    show (s.purgeable n true).map _ = _
    rw [purgeable_true hruns]
    rfl
  have hreserve : step rt (s.goto (.reserve r n)) (.serve true) =
      some (((s.goto (.reserve r n)).reserve r n).goto .idle) := rfl
  refine ⟨((s.goto (.reserve r n)).reserve r n).goto .idle, ?_, rfl, ?_⟩
  · rw [Run.exec, hpurge, Option.bind_some, Run.exec, hreserve]
    rfl
  · exact state_add n { gen := (s.table n).gen + 1, state := .loading r.key, leases := ∅ } r.key
      r.lease r.owner

theorem taken_of_unheld (h : s.Counted) {n : Name} (hn : s.Unheld n) {r : Request}
    {rest : List Name} (hserver : s.server = .reusable r (n :: rest)) :
    ∃ k s', Run.exec (step rt) (List.replicate k (.serve true)) s = some s' ∧
      s'.server = .idle ∧ (s'.table n).state = .loading r.key := by
  have hruns := runsOld_of_unheld hn
  have hcounter : s.counter n = s.countedOn n := by
    have hn' := h.counter n
    rwa [if_neg hn.1, Nat.zero_add] at hn'
  by_cases hzero : s.counter n = 0
  · -- nobody left a lease behind
    set s₁ := (s.putCounter n excl).goto (.purgeable r n rest) with hs₁
    have hfirst : step rt s (.serve true) = some s₁ := by
      show s.serve true s.server = _
      rw [hserver]
      exact if_pos hzero
    obtain ⟨s', hrest, hidle, hrow⟩ := @exec_purgeable rt s₁ _ _ _ rfl hruns
    refine ⟨3, s', ?_, hidle, hrow⟩
    show Run.exec (step rt) (.serve true :: [.serve true, .serve true]) s = some s'
    rw [Run.exec, hfirst]
    exact hrest
  · -- the leases of dead processes are repaired away
    have hlt : s.counter n < excl := by
      rw [hcounter]
      exact h.bound n
    set s₁ := s.goto (.repairPurgeable r n (s.counter n) rest) with hs₁
    set s₂ := s.goto (.repairExchange r n (s.counter n) rest) with hs₂
    set s₃ := ((s.putCounter n excl).clearCounted n).goto (.purgeable r n rest) with hs₃
    have hfirst : step rt s (.serve true) = some s₁ := by
      show s.serve true s.server = _
      rw [hserver]
      show (if s.counter n = 0 then _ else if s.counter n < excl then _ else _) = _
      rw [if_neg hzero, if_pos hlt]
    have hsecond : step rt s₁ (.serve true) = some s₂ := by
      show (s.purgeable n true).map _ = _
      rw [purgeable_true hruns]
      rfl
    have hthird : step rt s₂ (.serve true) = some s₃ := by
      show (if s.counter n = s.counter n then _ else _) = _
      rw [if_pos rfl]
      rfl
    have hruns₃ : s₃.runsOld n = false := (runsOld_clearCounted (s := s) n n).trans hruns
    obtain ⟨s', hrest, hidle, hrow⟩ := @exec_purgeable rt s₃ _ _ _ rfl hruns₃
    refine ⟨5, s', ?_, hidle, hrow⟩
    show Run.exec (step rt) (.serve true :: .serve true :: .serve true ::
      [.serve true, .serve true]) s = some s'
    rw [Run.exec, hfirst, Option.bind_some, Run.exec, hsecond, Option.bind_some, Run.exec, hthird]
    exact hrest

theorem claimable_of_unheld (h : s.Counted) {n : Name} (hn : s.Unheld n) : s.Claimable rt n := by
  constructor
  · intro hidle r hrows
    refine ⟨s.candidates rt r.key, ?_, mem_candidates (empty_of_unheld hn) r.key⟩
    show (if s.server = .idle then s.claimLoading rt r else none) = _
    rw [if_pos hidle, State.claimLoading, hrows]
  · intro r rest hserver
    exact taken_of_unheld h hn hserver

theorem reusedWhenPurged_of_owed (h : Run.ReachableIf (step rt) Owed State.init s) :
    s.ReusedWhenPurged rt := by
  have hc := counted_of_owed h
  constructor
  · exact fun n ht => exclusive_of_counted hc ht
  · exact hc.emptied
  · exact hc.counter
  · exact fun n hn => claimable_of_unheld hc hn

/-- Keys go to the slot of their remainder, and the rows are listed in order. -/
def plainNode : Node where
  home := fun key => ⟨key % 16, Nat.mod_lt key (by decide)⟩
  listing := List.finRange 16
  listed := .refl _

/-- Process 1 compiles key 0 into slot 0. -/
def compileFirst : List Act :=
  [.claimLoading ⟨0, 0, 1⟩, .serve true, .serve true, .serve true, .load 0, .publish (0, 1),
    .serve true]

/-- Process 2 is killed inside; process 3 comes and goes; then key 16 takes the slot over. -/
def repaired : List Act :=
  compileFirst ++
    [.lease 2 0 none, .enter 2, .kill 2, .lease 3 0 (some 0), .go 3, .enter 3, .leave 3,
      .release 3, .drop 0 0, .claimLoading ⟨16, 1, 1⟩, .serve true, .serve true, .serve true]

theorem reusedWhenPurged_repaired : ∃ s,
    Run.execIf (step plainNode) Owed repaired State.init = some s ∧ s.counter 0 = excl ∧
      s.countedOn 0 = 0 ∧ s.ReusedWhenPurged plainNode := by
  have hrun : (Run.execIf (step plainNode) Owed repaired State.init).any
      (fun s => s.counter 0 == excl && s.countedOn 0 == 0) = true := by
    unfold excl
    decide +kernel
  obtain ⟨s, hs, hboth⟩ := (Option.any_eq_true _ _).mp hrun
  simp only [Bool.and_eq_true, beq_iff_eq] at hboth
  exact ⟨s, hs, hboth.1, hboth.2, reusedWhenPurged_of_owed (Run.ReachableIf.init.of_execIf hs)⟩

/-- Process 2 has a call lease and has not entered the code yet: key 16 finds the counter stuck. -/
def underLease : List Act :=
  compileFirst ++ [.lease 2 0 none, .drop 0 0, .claimLoading ⟨16, 1, 1⟩, .serve true, .serve true]

theorem not_neverReused :
    ¬ ∀ s, Run.Reachable (step plainNode) State.init s → s.NeverReused plainNode := by
  intro hall
  have hrun : (Run.exec (step plainNode) underLease State.init).any (fun s =>
      s.server == .repairExchange ⟨16, 1, 1⟩ 0 1 [1, 2, 3, 4, 5, 6, 7, 8, 9, 10, 11, 12, 13, 14, 15] &&
        s.counter 0 == 1 && s.alive 2 && s.calls.contains ⟨2, 0, .inside, true⟩) = true := by
    decide +kernel
  obtain ⟨s, hs, hboth⟩ := (Option.any_eq_true _ _).mp hrun
  simp only [Bool.and_eq_true, beq_iff_eq, List.contains_iff_mem] at hboth
  obtain ⟨⟨⟨hserver, hcounter⟩, halive⟩, hcall⟩ := hboth
  have htake : s.Takes plainNode 0 := by
    set next := ((s.putCounter 0 excl).clearCounted 0).goto
      (.purgeable ⟨16, 1, 1⟩ 0 [1, 2, 3, 4, 5, 6, 7, 8, 9, 10, 11, 12, 13, 14, 15])
    refine ⟨true, next, _, _, ?_, rfl⟩
    show s.serve true s.server = _
    rw [hserver]
    exact if_pos hcounter
  have hdead := (hall s (Run.Reachable.of_exec .init hs)).exclusive 0 htake _ hcall rfl nofun
  rw [halive] at hdead
  cases hdead

-- the lease is given back although the repair has cleared it, and the counter goes below zero
example : (Run.exec (step plainNode) (underLease ++ [.serve true, .serve true, .serve true,
    .release 2, .publish (0, 2), .serve true]) State.init).map (·.counter 0) =
      some (2 ^ 64 - 1) := by
  decide +kernel

end ErlangWasm.Code
