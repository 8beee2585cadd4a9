import ErlangWasm.Reaper.OneStage

/-!
# What a message does to the accounts

Of a request the accounts see a row: its attempts, whether it is kept as complete, its timers, and
whether its record went to the quarantine or was removed.  A message other than the end of a job or
a timer leaves a row as it is, or drops the request.
-/

namespace ErlangWasm.Reaper

open Reasoning
open Wasi (Name)

structure Row where
  /-- the attempts, and whether it is complete -/
  req : Option (ℕ × Bool)
  armed : ℕ
  quarantined : Bool
  deleted : Bool
  /-- the retries that are allowed to each -/
  retries : ℕ

/-- The row is as it was, the request has been done with, or it was never written. -/
inductive Row.Keeps (row : Row) : Row → Prop
  | same : row.Keeps row
  | finished (h : row.req.isSome) : row.Keeps { row with req := none, deleted := true }
  | failed {n : ℕ} (h : row.req = some (n, false)) : row.Keeps { row with req := none }

namespace State

variable {s s' : State} {minted cleaned : Finset RequestId} {id : RequestId} {r old : Req}
  {ref : Ref}

def row (s : State) (id : RequestId) : Row where
  req := (s.reqs.lookup id).map fun r => (r.attempts, decide (r.stage = .complete))
  armed := s.timers.count (.cleanup id)
  quarantined := Effect.journal (.quarantine id) ∈ s.effects
  deleted := Effect.journal (.delete id) ∈ s.effects
  retries := s.opts.cleanupRetries

/-! ## What moves the rows -/

theorem row_req (hr : s.reqs.lookup id = some r) :
    (s.row id).req = some (r.attempts, decide (r.stage = .complete)) := by
  unfold row
  rw [hr]
  rfl

theorem row_req_none (hr : s.reqs.lookup id = none) : (s.row id).req = none := by
  unfold row
  rw [hr]
  rfl

theorem row_putReq (s : State) (id : RequestId) (r : Req) (j : RequestId) :
    (s.putReq id r).row j = if j = id then
      { s.row j with req := some (r.attempts, decide (r.stage = .complete)) } else s.row j := by
  have hreqs : (s.putReq id r).reqs.lookup j = if j = id then some r else s.reqs.lookup j :=
    Table.lookup_insert_eq _ _ _
  unfold row
  rw [hreqs]
  split
  · rfl
  · rfl

theorem row_dropReq (s : State) (id : RequestId) (j : RequestId) :
    (s.dropReq id).row j = if j = id then { s.row j with req := none } else s.row j := by
  cases hr : s.reqs.lookup id with
  | none =>
    rw [dropReq_none hr]
    split
    · rename_i hj
      subst hj
      unfold row
      rw [hr]
      rfl
    · rfl
  | some r =>
    have hreqs : (s.reqs.erase id).lookup j = if j = id then none else s.reqs.lookup j :=
      Table.lookup_erase_eq _ _
    rw [dropReq_eq hr]
    unfold row
    simp only [hreqs]
    split
    · rfl
    · rfl

theorem row_dropMonitor (s : State) (o : Option Ref) (j : RequestId) :
    (s.dropMonitor o).row j = s.row j := by
  cases o <;> rfl

theorem row_tell (s : State) (p : Pid) (n : Note) (j : RequestId) :
    (s.tell p n).row j = s.row j := by
  unfold row tell
  simp

theorem row_write (s : State) (id : RequestId) (ops : List RecoverOp) (j : RequestId) :
    (s.journal (.write id ops)).row j = s.row j := by
  unfold row journal
  simp

theorem row_reserved (s : State) (id : RequestId) (ops : List RecoverOp) (j : RequestId) :
    (s.journal (.reserve id ops)).row j = s.row j := by
  unfold row journal
  simp

theorem row_delete (s : State) (id j : RequestId) : (s.journal (.delete id)).row j =
    if j = id then { s.row j with deleted := true } else s.row j := by
  unfold row journal
  split
  · rename_i hj
    simp [hj]
  · rename_i hj
    simp [hj]

theorem row_quarantine (s : State) (id j : RequestId) : (s.journal (.quarantine id)).row j =
    if j = id then { s.row j with quarantined := true } else s.row j := by
  unfold row journal
  split
  · rename_i hj
    simp [hj]
  · rename_i hj
    simp [hj]

theorem row_arm (s : State) (id j : RequestId) : (s.arm (.cleanup id)).row j =
    if j = id then { s.row j with armed := (s.row j).armed + 1 } else s.row j := by
  unfold row arm
  split
  · rename_i hj
    simp [hj]
  · rename_i hj
    simp [Ne.symm hj]

theorem row_ask (s : State) (id : RequestId) (r : Req) (j : RequestId) :
    (s.ask id r).row j = s.row j := by
  unfold ask arm
  rw [← row_tell s r.guardian (.handshake id) j]
  unfold row
  simp

/-! ## The queue -/

/-- What is queued is not complete. -/
def Unfinished (s : State) : Prop := ∀ id ∈ s.queue, ∀ n, (s.row id).req ≠ some (n, true)

theorem Placed.unfinished (hs : s.Placed minted cleaned) : s.Unfinished := by
  intro id hid n hrow
  cases hr : s.reqs.lookup id with
  | none =>
    rw [row_req_none hr] at hrow
    cases hrow
  | some r =>
    have hpos : 0 < s.queue.count id := List.count_pos_iff.mpr hid
    have hstage := (hs id).stage_of_queued (r := r) hr (Nat.add_pos_left hpos _)
    rw [row_req hr, hstage] at hrow
    simp at hrow

theorem row_pumpOne (h : ∀ n, (s.row id).req ≠ some (n, true)) (j : RequestId) :
    (s.pumpOne id).row j = s.row j := by
  unfold pumpOne
  cases hr : s.reqs.lookup id with
  | none => rfl
  | some r =>
    have hreqs : (s.startJob id r).reqs.lookup j =
        if j = id then some { r with stage := .running } else s.reqs.lookup j :=
      Table.lookup_insert_eq _ _ _
    unfold row
    simp only [hreqs]
    split
    · rename_i hj
      subst hj
      have hcomplete : r.stage ≠ .complete := by
        intro hstage
        apply h r.attempts
        rw [row_req hr, hstage]
        rfl
      rw [hr, Option.map_some, Option.map_some, decide_eq_false hcomplete]
      rfl
    · rfl

theorem pump_rows (hs : s.Unfinished) : s.pump.Unfinished ∧ ∀ j, s.pump.row j = s.row j := by
  refine pump_induct (P := fun s' => s'.Unfinished ∧ ∀ j, s'.row j = s.row j) ?_ ⟨hs, fun _ => rfl⟩
  rintro s' id rest ⟨hdue, hrows⟩ _
  have hone : ∀ j, (s'.pumpOne id).row j = s'.row j := row_pumpOne (hdue id List.mem_cons_self)
  constructor
  · intro j hj n hrow
    apply hdue j (List.mem_cons_of_mem id hj) n
    rw [← hrow]
    exact congrArg Row.req (hone j).symm
  · intro j
    rw [← hrows j]
    exact hone j

theorem schedule_rows (hs : s.Unfinished) (hstage : r.stage = .queued) :
    (s.schedule id r).Unfinished ∧ ∀ j, (s.schedule id r).row j =
      if j = id then { s.row j with req := some (r.attempts, false) } else s.row j := by
  have hput : ∀ j, ({ s.putReq id r with queue := s.queue ++ [id] } : State).row j =
      if j = id then { s.row j with req := some (r.attempts, false) } else s.row j := by
    intro j
    change (s.putReq id r).row j = _
    rw [row_putReq, hstage]
    rfl
  have hdue : Unfinished { s.putReq id r with queue := s.queue ++ [id] } := by
    intro i hi n
    rw [hput]
    split
    · intro h
      cases h
    · rename_i hne
      apply hs i
      obtain hi | hi := List.mem_append.mp hi
      · exact hi
      · exact absurd (List.mem_singleton.mp hi) hne
  refine ⟨(pump_rows hdue).1, ?_⟩
  intro j
  rw [← hput]
  exact (pump_rows hdue).2 j

/-! ## The messages -/

/-- Every row is kept. -/
def Steady (s s' : State) : Prop := ∀ id, (s.row id).Keeps (s'.row id)

theorem Steady.of_eq (h : ∀ id, s'.row id = s.row id) : s.Steady s' := by
  intro id
  rw [h]
  exact .same

/-- A row is kept, and the others are as they were. -/
theorem Steady.of_one (id : RequestId) (hid : (s.row id).Keeps (s'.row id))
    (h : ∀ j, j ≠ id → s'.row j = s.row j) : s.Steady s' := by
  intro j
  by_cases hj : j = id
  · subst hj
    exact hid
  · rw [h j hj]
    exact .same

theorem row_putReq_same (hr : s.reqs.lookup id = some old) (hattempts : r.attempts = old.attempts)
    (hstage : r.stage = .complete ↔ old.stage = .complete) (j : RequestId) :
    (s.putReq id r).row j = s.row j := by
  rw [row_putReq]
  split
  · rename_i hj
    subst hj
    have hreq := row_req hr
    rw [hattempts, decide_eq_decide.mpr hstage, ← hreq]
  · rfl

theorem row_schedule_same (hs : s.Unfinished) (hr : s.reqs.lookup id = some old)
    (hattempts : r.attempts = old.attempts) (hstage : r.stage = .queued)
    (hold : old.stage ≠ .complete) (j : RequestId) : (s.schedule id r).row j = s.row j := by
  rw [(schedule_rows hs hstage).2]
  split
  · rename_i hj
    subst hj
    have hreq := row_req hr
    rw [hattempts, ← decide_eq_false hold, ← hreq]
  · rfl

theorem row_alters (h : s.Alters s') (j : RequestId) : s'.row j = s.row j := by
  induction h with
  | refl => rfl
  | journal _ _ _ ih => rw [row_write, ih]
  | crash _ ih => exact ih
  | put _ hr hlike ih => rw [row_putReq_same hr hlike.attempts (by rw [hlike.stage]), ih]

theorem Unfinished.of_eq (hs : s.Unfinished) (hqueue : s'.queue = s.queue) (h : ∀ j, s'.row j = s.row j) :
    s'.Unfinished := by
  intro j hj n
  rw [hqueue] at hj
  rw [h]
  exact hs j hj n

theorem row_opFinish (hs : s.Placed minted cleaned) (hwaiting : s.waiting id = true)
    (j : RequestId) : (s.opFinish id).2.row j = s.row j := by
  unfold State.opFinish
  cases hr : s.reqs.lookup id with
  | none => rfl
  | some r =>
    unfold waiting at hwaiting
    rw [hr] at hwaiting
    change r.stage.waits = true at hwaiting
    have hstage : r.stage ≠ .complete := by
      intro h
      rw [h] at hwaiting
      cases hwaiting
    have hlookup : (s.dropMonitor r.mon).reqs.lookup id = some r := by
      rw [← hr]
      cases r.mon <;> rfl
    have hdue : (s.dropMonitor r.mon).Unfinished := by
      apply hs.unfinished.of_eq _ (row_dropMonitor s r.mon)
      cases r.mon <;> rfl
    rw [← row_dropMonitor s r.mon j]
    apply row_schedule_same hdue hlookup _ _ hstage
    · rfl
    · rfl

theorem row_handshakeReply (hs : s.Placed minted cleaned) (hwaiting : s.waiting id = true)
    (yes : Bool) (j : RequestId) : (s.handshakeReply id yes).row j = s.row j := by
  unfold State.handshakeReply
  split
  · rfl
  · rename_i r hr
    unfold waiting at hwaiting
    rw [hr] at hwaiting
    change r.stage.waits = true at hwaiting
    have hstage : r.stage ≠ .complete := by
      intro h
      rw [h] at hwaiting
      cases hwaiting
    split
    · apply row_putReq_same hr
      · rfl
      · simp [hstage]
    · apply row_schedule_same hs.unfinished hr _ _ hstage
      · rfl
      · rfl

theorem row_adoptReply (s : State) (id : RequestId) (ledger : Table ℕ Reply) (nextSeq : ℕ)
    (actions : List (ℕ × Action)) (adapter : Option Adapter) (j : RequestId) :
    (s.adoptReply id ledger nextSeq actions adapter).row j = s.row j := by
  unfold State.adoptReply
  split
  · rfl
  · rename_i r hr
    apply row_putReq_same hr
    · rfl
    · rfl

theorem steady_reservationFailed (s : State) (id : RequestId) :
    s.Steady (s.reservationFailed id) := by
  unfold State.reservationFailed
  split
  · rename_i r hr
    split
    · rename_i hlive
      have hrow : (s.row id).req = some (r.attempts, false) := by
        rw [row_req hr, hlive]
        rfl
      refine .of_one id ?_ ?_
      · rw [row_dropReq, if_pos rfl, row_dropMonitor, row_dropMonitor]
        exact .failed hrow
      · intro j hj
        rw [row_dropReq, if_neg hj, row_dropMonitor, row_dropMonitor]
    · exact .of_eq fun _ => rfl
  · exact .of_eq fun _ => rfl

/-- A request is dropped, and its record removed. -/
theorem steady_dropped (hr : s.reqs.lookup id = some r) :
    s.Steady ((s.journal (.delete id)).dropReq id) := by
  refine .of_one id ?_ ?_
  · rw [row_dropReq, if_pos rfl, row_delete, if_pos rfl]
    apply Row.Keeps.finished
    rw [row_req hr]
    rfl
  · intro j hj
    rw [row_dropReq, if_neg hj, row_delete, if_neg hj]

theorem steady_finish (s : State) (id : RequestId) : s.Steady (s.finish id) := by
  unfold State.finish
  split
  · exact .of_eq fun _ => rfl
  · rename_i r hr
    have hlookup : ((s.dropMonitor r.mon).dropMonitor r.smon).reqs.lookup id = some r := by
      rw [← hr]
      cases r.mon <;> cases r.smon <;> rfl
    intro j
    have hsteady := steady_dropped hlookup j
    rw [row_dropMonitor, row_dropMonitor] at hsteady
    exact hsteady

/-! ### Timers -/

theorem row_retryHandshake (s : State) (id j : RequestId) :
    (s.retryHandshake id).row j = s.row j := by
  unfold State.retryHandshake
  split
  · rename_i r hr
    split
    · rename_i hpending
      have hstage : r.stage ≠ .complete := by
        rw [hpending]
        simp
      split
      · have hasked : (s.ask id { r with tries := r.tries + 1 }).reqs.lookup id = some r := hr
        rw [← row_ask s id { r with tries := r.tries + 1 } j]
        apply row_putReq_same hasked
        · rfl
        · rfl
      · apply row_putReq_same hr
        · rfl
        · simp [hstage]
    · rfl
  · rfl

theorem row_fireHandshake (s : State) (id j : RequestId) :
    (s.fire (.handshake id)).row j = s.row j := by
  change (State.retryHandshake { s with timers := s.timers.erase (.handshake id) } id).row j = _
  have hcount : (s.timers.erase (.handshake id)).count (.cleanup j) = s.timers.count (.cleanup j) :=
    List.count_erase_of_ne (by simp)
  rw [row_retryHandshake]
  unfold row
  simp only [hcount]

/-- The timer of a request that rests. -/
theorem row_fireCleanup (hs : s.Placed minted cleaned) (ht : Timer.cleanup id ∈ s.timers)
    (j : RequestId) : (s.fire (.cleanup id)).row j =
      if j = id then { s.row j with armed := (s.row j).armed - 1 } else s.row j := by
  change (State.retryCleanup { s with timers := s.timers.erase (.cleanup id) } id).row j = _
  have herased : ∀ j, ({ s with timers := s.timers.erase (.cleanup id) } : State).row j =
      if j = id then { s.row j with armed := (s.row j).armed - 1 } else s.row j := by
    intro j
    split
    · rename_i hj
      subst hj
      unfold row
      simp only [List.count_erase_self]
    · rename_i hj
      have hcount : (s.timers.erase (.cleanup id)).count (.cleanup j) =
          s.timers.count (.cleanup j) := List.count_erase_of_ne (by simpa using hj)
      unfold row
      simp only [hcount]
  have hdue : Unfinished { s with timers := s.timers.erase (.cleanup id) } := by
    intro i hi n h
    apply hs.unfinished i hi n
    rw [← h]
    exact rfl
  unfold State.retryCleanup
  split
  · rename_i r hr
    have hpos : 0 < s.timers.count (.cleanup id) := List.count_pos_iff.mpr ht
    have hstage := (hs id).stage_of_queued (r := r) hr (Nat.add_pos_right _ hpos)
    have hcomplete : r.stage ≠ .complete := by
      rw [hstage]
      simp
    rw [← herased]
    apply row_schedule_same hdue hr _ _ hcomplete
    · rfl
    · rfl
  · exact herased j

/-! ### A `'DOWN'` -/

theorem row_guardianDown (hs : s.Placed minted cleaned) (hr : s.reqs.lookup id = some r)
    (hguard : r.smon.isSome = true ∨ r.stage.waits = true) (j : RequestId) :
    (s.guardianDown id r).row j = s.row j := by
  unfold State.guardianDown
  split
  · rename_i hsmon
    have hwaits : r.stage.waits = true := by
      rw [hsmon] at hguard
      exact hguard.resolve_left Bool.false_ne_true
    have hstage : r.stage ≠ .complete := by
      intro h
      rw [h] at hwaits
      cases hwaits
    apply row_schedule_same hs.unfinished hr _ _ hstage
    · rfl
    · rfl
  · cases r.steward with
    | none =>
      apply row_putReq_same hr
      · rfl
      · rfl
    | some steward =>
      have htold : (s.tell steward (.orphaned id)).reqs.lookup id = some r := hr
      rw [← row_tell s steward (.orphaned id) j]
      apply row_putReq_same htold
      · rfl
      · rfl

theorem steady_stewardDown (hs : s.Placed minted cleaned) (hr : s.reqs.lookup id = some r)
    (hguard : r.finished = true ∨ r.mon.isSome = true ∨ r.stage.waits = true) :
    s.Steady (s.stewardDown id r) := by
  unfold State.stewardDown
  split
  · split
    · exact steady_dropped hr
    · apply Steady.of_eq
      apply row_putReq_same hr
      · rfl
      · rfl
  · rename_i hfinished
    split
    · rename_i hmon
      have hwaits : r.stage.waits = true := by
        rw [hmon] at hguard
        exact (hguard.resolve_left hfinished).resolve_left Bool.false_ne_true
      have hstage : r.stage ≠ .complete := by
        intro h
        rw [h] at hwaits
        cases hwaits
      apply Steady.of_eq
      apply row_schedule_same hs.unfinished hr _ _ hstage
      · rfl
      · rfl
    · apply Steady.of_eq
      apply row_putReq_same hr
      · rfl
      · rfl

/-! ### The end of a job -/

end State

/-- What the end of a job makes of the row of a request that has had `n` attempts before. -/
inductive Row.Ends (row : Row) (n : ℕ) (succeeded : Bool) : Row → Prop
  | complete (hlt : n < row.retries) (h : succeeded = true) :
      row.Ends n succeeded { row with req := some (n, true) }
  | removed (hlt : n < row.retries) (h : succeeded = true) :
      row.Ends n succeeded { row with req := none, deleted := true }
  | quarantined (hle : row.retries ≤ n) :
      row.Ends n succeeded { row with req := none, quarantined := true }
  | retried (hlt : n < row.retries) (h : succeeded = false) :
      row.Ends n succeeded
        { row with req := some (n + 1, false), armed := row.armed + 1 }

namespace State

variable {s s' : State} {minted cleaned : Finset RequestId} {id : RequestId} {r old : Req}
  {ref : Ref} {why : Why} {out : Outside}

theorem queue_dropReq (s : State) (id : RequestId) : (s.dropReq id).queue = s.queue := by
  unfold dropReq
  split <;> rfl

theorem queue_jobFinished (s : State) (id : RequestId) (why : Why) (out : Outside) :
    (s.jobFinished id why out).queue = s.queue := by
  unfold jobFinished
  split
  · rfl
  · split
    · exact queue_dropReq _ id
    · split
      · unfold cleanupDone
        split
        · rfl
        · exact queue_dropReq _ id
      · rfl

theorem row_jobFinished (hr : s.reqs.lookup id = some r) (why : Why) (out : Outside) :
    (s.row id).Ends r.attempts (jobSucceeded why r out)
        ((s.jobFinished id why out).row id) ∧
      ∀ j, j ≠ id → (s.jobFinished id why out).row j = s.row j := by
  unfold jobFinished
  rw [hr]
  dsimp only
  split
  · rename_i hge
    constructor
    · change Row.Ends _ _ _ (((s.journal (.quarantine id)).dropReq id).row id)
      rw [row_dropReq, if_pos rfl, row_quarantine, if_pos rfl]
      exact .quarantined hge
    · intro j hj
      change ((s.journal (.quarantine id)).dropReq id).row j = s.row j
      rw [row_dropReq, if_neg hj, row_quarantine, if_neg hj]
  · rename_i hlt
    have hlt := Nat.lt_of_not_ge hlt
    split
    · rename_i hsucceeded
      unfold cleanupDone
      split
      · rename_i steward _ _ _
        constructor
        · rw [row_putReq, if_pos rfl, row_tell]
          exact .complete hlt hsucceeded
        · intro j hj
          rw [row_putReq, if_neg hj, row_tell]
      · constructor
        · rw [row_dropReq, if_pos rfl, row_delete, if_pos rfl]
          exact .removed hlt hsucceeded
        · intro j hj
          rw [row_dropReq, if_neg hj, row_delete, if_neg hj]
    · rename_i hfailed
      constructor
      · rw [row_putReq, if_pos rfl, row_arm, if_pos rfl]
        exact .retried hlt (Bool.eq_false_iff.mpr hfailed)
      · intro j hj
        rw [row_putReq, if_neg hj, row_arm, if_neg hj]

/-- The job that worked on a request, which may be gone. -/
theorem row_down (hs : s.Placed minted cleaned) {p : Pid}
    (hwhat : s.mons.lookup ref = some (.job p)) (hjob : s.jobs.lookup p = some (id, ref))
    (j : RequestId) :
    (s.down ref why out).row j =
      (State.jobFinished { s with
        jobs := s.jobs.erase p, mons := unindex (some ref) s.mons } id why out).row j := by
  have hdown : s.down ref why out = { (State.jobFinished { s with
      jobs := s.jobs.erase p, mons := unindex (some ref) s.mons } id why out).pump with
        monitors := (State.jobFinished { s with
          jobs := s.jobs.erase p, mons := unindex (some ref) s.mons } id why out).pump.monitors.erase
            ref } := by
    unfold down ownerDown
    rw [hwhat]
    dsimp only
    unfold jobDown
    rw [hjob]
    dsimp only
    rw [if_pos rfl]
  rw [hdown]
  refine (pump_rows ?_).2 j
  intro i hi n
  rw [queue_jobFinished] at hi
  have hpos : 0 < s.working id := by
    rw [working_eraseJob hjob s.mons id, if_pos rfl]
    exact Nat.succ_pos _
  have honce : s.queue.count id + s.timers.count (.cleanup id) + s.working id ≤ 1 := (hs id).once
  have hne : i ≠ id := by
    intro h
    subst h
    have hcount : 0 < s.queue.count i := List.count_pos_iff.mpr hi
    omega
  cases hr : s.reqs.lookup id with
  | none =>
    have hnone : State.jobFinished { s with
        jobs := s.jobs.erase p, mons := unindex (some ref) s.mons } id why out = { s with
          jobs := s.jobs.erase p, mons := unindex (some ref) s.mons } := by
      unfold jobFinished
      rw [hr]
    rw [hnone]
    exact hs.unfinished i hi n
  | some r =>
    rw [(row_jobFinished (s := { s with
      jobs := s.jobs.erase p, mons := unindex (some ref) s.mons }) hr why out).2 i hne]
    exact hs.unfinished i hi n

/-! ## New rows -/

end State

/-- A request that was never in cleanup, or none. -/
structure Row.Fresh (row : Row) : Prop where
  req : row.req = none ∨ row.req = some (0, false)
  armed : row.armed = 0
  quarantined : row.quarantined = false
  deleted : row.deleted = false

theorem Row.Fresh.started {row : Row} (h : row.Fresh) :
    Row.Fresh { row with req := some (0, false) } where
  req := .inr rfl
  armed := h.armed
  quarantined := h.quarantined
  deleted := h.deleted

namespace State

variable {s s' : State} {id : RequestId}

theorem reserve_rows (s : State) (id : RequestId) (guardian steward : Pid) (root : RootId)
    (relpath : Name) :
    (∀ j, (s.reserve id guardian steward root relpath).2.row j = s.row j) ∨
      ∀ j, (s.reserve id guardian steward root relpath).2.row j =
        if j = id then { s.row j with req := some (0, false) } else s.row j := by
  unfold State.reserve
  split
  · exact .inl fun _ => rfl
  · split
    · right
      intro j
      dsimp only
      rw [row_putReq, row_reserved]
      rfl
    · exact .inl fun _ => rfl

/-- Nothing that is known was tried. -/
structure Unused (s : State) : Prop where
  unfinished : s.Unfinished
  fresh : ∀ id, (s.row id).Fresh

theorem unused_empty (hreqs : s.reqs = ∅) (hqueue : s.queue = []) (htimers : s.timers = [])
    (heffects : s.effects = []) : s.Unused := by
  constructor
  · intro id hid
    rw [hqueue] at hid
    cases hid
  · intro id
    unfold row
    rw [hreqs, htimers, heffects]
    exact ⟨.inl rfl, rfl, rfl, rfl⟩

/-- A request is taken for the first time. -/
theorem Unused.of_one (hs : s.Unused) (hdue : s'.Unfinished)
    (h : ∀ j, s'.row j = if j = id then { s.row j with req := some (0, false) } else s.row j) :
    s'.Unused := by
  refine ⟨hdue, ?_⟩
  intro j
  rw [h]
  split
  · exact (hs.fresh j).started
  · exact hs.fresh j

theorem row_adoptSteward (s : State) (id : RequestId) (r : Req) (j : RequestId) :
    (s.adoptSteward id r).row j = if j = id then
      { s.row j with req := some (r.attempts, decide (r.stage = .complete)) } else s.row j := by
  unfold State.adoptSteward
  split
  · split
    · rw [row_putReq, row_tell]
      rfl
    · exact row_putReq s id r j
  · exact row_putReq s id r j

theorem queue_adoptSteward (s : State) (id : RequestId) (r : Req) :
    (s.adoptSteward id r).queue = s.queue := by
  unfold State.adoptSteward
  split
  · split <;> rfl
  · rfl

theorem Unused.adoptOrOrphan (hs : s.Unused) {rec : Record} (hattempts : rec.req.attempts = 0) :
    (s.adoptOrOrphan rec).Unused := by
  have horphan : (s.schedule rec.id { rec.req with
      stage := Stage.queued, mon := none, gen := s.gen }).Unused := by
    obtain ⟨hdue, hrows⟩ : (s.schedule rec.id { rec.req with
        stage := Stage.queued, mon := none, gen := s.gen }).Unfinished ∧
          ∀ j, (s.schedule rec.id { rec.req with
            stage := Stage.queued, mon := none, gen := s.gen }).row j =
              if j = rec.id then { s.row j with req := some (rec.req.attempts, false) }
              else s.row j := schedule_rows hs.unfinished rfl
    rw [hattempts] at hrows
    exact hs.of_one hdue hrows
  unfold State.adoptOrOrphan
  simp only
  split
  · exact horphan
  · split
    · have hrow : ∀ j, (((s.monitor rec.req.guardian).ask rec.id { rec.req with
          stage := Stage.pending, mon := some s.nextRef, gen := s.gen }).adoptSteward rec.id
          { rec.req with stage := Stage.pending, mon := some s.nextRef, gen := s.gen }).row j =
            if j = rec.id then { s.row j with req := some (0, false) } else s.row j := by
        intro j
        rw [row_adoptSteward, row_ask, hattempts]
        rfl
      refine hs.of_one ?_ hrow
      intro j hj n
      rw [queue_adoptSteward] at hj
      rw [hrow]
      split
      · intro h
        cases h
      · exact hs.unfinished j hj n
    · exact horphan

theorem unused_sweep (hs : s.Unused) (disk : Disk) : (s.sweep disk).1.Unused := by
  apply sweep_induct (P := Unused) _ disk hs
  intro s root d moved f hs
  obtain ⟨rec, hrec, hone⟩ | ⟨_, n, hone⟩ := sweepOne_cases s root d moved f
  · rw [hone]
    exact hs.adoptOrOrphan (decodedFile_fresh hrec).attempts
  · rw [hone]
    exact ⟨hs.unfinished, hs.fresh⟩

end State

end ErlangWasm.Reaper
