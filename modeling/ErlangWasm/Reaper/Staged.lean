import ErlangWasm.Reaper.Stages

/-!
# Whatever arrives, every request stays in one stage
-/

namespace ErlangWasm.Reaper

open Reasoning
open Wasi (Name)

/-- Who is in cleanup does not wait. -/
theorem View.Placed.of_finished {v : View} {minted cleaned : Prop} {r : Req}
    (hv : v.Placed minted cleaned) (hr : v.req = some r) (hfinished : r.finished = true) :
    r.stage.waits = false := by
  cases hwaits : r.stage.waits with
  | false => rfl
  | true =>
    have h := (hv.waits r hr hwaits).2.1
    rw [hfinished] at h
    cases h

/-- An owner may be given up by a request that has another, or is in cleanup. -/
theorem View.Placed.given {v : View} {minted cleaned : Prop} {r r' : Req}
    (hv : v.Placed minted cleaned) (hr : v.req = some r) (hstage : r'.stage = r.stage)
    (hfinished : r'.finished = r.finished)
    (howner : r.stage.waits = true → r'.mon ≠ none ∨ r'.smon ≠ none)
    (hcomplete : r.stage = .complete → r'.smon ≠ none) :
    View.Placed { v with req := some r' } minted cleaned := by
  constructor
  · exact hv.once
  · intro _ h hwaits
    cases h
    rw [hstage] at hwaits
    rw [hfinished]
    exact ⟨(hv.waits r hr hwaits).1, (hv.waits r hr hwaits).2.1, howner hwaits⟩
  · intro _ h hqueued
    cases h
    rw [hstage] at hqueued
    exact hv.queued r hr hqueued
  · intro _ h hrunning
    cases h
    rw [hstage] at hrunning
    exact hv.running r hr hrunning
  · intro _ h hc
    cases h
    rw [hstage] at hc
    rw [hfinished]
    exact ⟨(hv.complete r hr hc).1, (hv.complete r hr hc).2.1, hcomplete hc⟩
  · intro h
    refine ⟨(hv.cleaned h).1, ?_⟩
    intro _ h'
    cases h'
    rw [hstage]
    exact (hv.cleaned h).2 r hr
  · intro h
    exact absurd (hv.minted_of_req hr) h

namespace State

variable {s s' : State} {minted cleaned : Finset RequestId} {id : RequestId} {r old : Req}
  {ref : Ref}

theorem Placed.mono {minted' : Finset RequestId} (hs : s.Placed minted cleaned)
    (h : minted ⊆ minted') : s.Placed minted' cleaned :=
  fun id => (hs id).mono (fun hid => h hid) fun hid => hid

/-- Only its requests, its queue, its timers and its jobs matter. -/
theorem Placed.of_view (hs : s.Placed minted cleaned) (h : ∀ id, s'.view id = s.view id) :
    s'.Placed minted cleaned := by
  intro id
  rw [h]
  exact hs id

theorem load_of_waiting (hs : s.Placed minted cleaned) (hr : s.reqs.lookup id = some r)
    (hwaiting : s.waiting id = true) :
    (s.view id).load = 0 ∧ r.finished = false ∧ (r.mon ≠ none ∨ r.smon ≠ none) ∧
      id ∉ cleaned := by
  unfold waiting at hwaiting
  rw [hr] at hwaiting
  change r.stage.waits = true at hwaiting
  obtain ⟨hload, hfinished, howner⟩ := (hs id).waits r hr hwaiting
  refine ⟨hload, hfinished, howner, ?_⟩
  apply (hs id).not_cleaned (r := r) hr
  intro hcomplete
  rw [hcomplete] at hwaiting
  cases hwaiting

/-- A request that waits goes to cleanup. -/
theorem Placed.scheduled (hs : s.Placed minted cleaned) (hr : s.reqs.lookup id = some old)
    (hwaiting : s.waiting id = true) (hstage : r.stage = .queued) (hput : (s.putReq id r).Sure) :
    (s.schedule id r).Placed minted cleaned := by
  obtain ⟨hload, _, _, hcleaned⟩ := load_of_waiting hs hr hwaiting
  apply Placed.schedule hput
  · intro j _
    exact hs j
  · exact hload
  · exact hstage
  · exact (hs id).minted_of_req (r := old) hr
  · exact hcleaned

/-! ## Messages -/

theorem view_forget (s : State) (mon smon : Option Ref) (effects : List Effect) (j : RequestId) :
    ({ (s.dropMonitor mon).dropMonitor smon with effects := effects } : State).view j =
      s.view j := by
  cases mon <;> cases smon <;> rfl

theorem Placed.reservationFailed (hs : s.Placed minted cleaned) (id : RequestId) :
    (s.reservationFailed id).Placed minted cleaned := by
  unfold State.reservationFailed
  split
  · rename_i r _
    split
    · apply Placed.drop
      exact hs.of_view (view_forget s r.mon r.smon _)
    · exact hs
  · exact hs

theorem Placed.finish (hs : s.Placed minted cleaned) (id : RequestId) :
    (s.finish id).Placed minted cleaned := by
  unfold State.finish
  split
  · exact hs
  · rename_i r _
    apply Placed.drop
    exact hs.of_view (view_forget s r.mon r.smon _)

theorem Placed.reserve (hs : s.Placed minted cleaned) (hnew : id ∉ minted)
    (hcleaned : cleaned ⊆ minted) (guardian steward : Pid) (root : RootId) (relpath : Name) :
    (s.reserve id guardian steward root relpath).2.Placed (insert id minted) cleaned := by
  have hgrown : s.Placed (insert id minted) cleaned := hs.mono (Finset.subset_insert id minted)
  unfold State.reserve
  split
  · exact hgrown
  · split
    · apply Placed.put
      · intro j _
        exact hgrown j
      · apply View.placed_waits
        · exact ((hs id).minted hnew).1
        · rfl
        · rfl
        · exact .inl (by simp)
        · exact Finset.mem_insert_self id minted
        · exact fun h => hnew (hcleaned h)
    · exact hgrown

theorem Placed.opFinish (hsure : s.Sure) (hs : s.Placed minted cleaned)
    (hwaiting : s.waiting id = true) : (s.opFinish id).2.Placed minted cleaned := by
  unfold State.opFinish
  cases hr : s.reqs.lookup id with
  | none => exact hs
  | some r =>
    have hdropped : (s.dropMonitor r.mon).Placed minted cleaned :=
      hs.of_view (view_dropMonitor s r.mon)
    have hold : (s.dropMonitor r.mon).reqs.lookup id = some r := by
      rw [← hr]
      cases r.mon <;> rfl
    have hwaiting' : (s.dropMonitor r.mon).waiting id = true := by
      rw [← hwaiting]
      cases r.mon <;> rfl
    apply hdropped.scheduled hold hwaiting' rfl
    have hput := (hsure.dropMonitor r.mon).update
      (r := { r with mon := none, finished := true, stage := .queued }) hold (.inr rfl) (.inl rfl)
      rfl rfl
    apply hput.sure
    intro ref hlost
    rcases hlost with hlost | hlost
    · cases hlost
    · have hapart := hsure.apart hr hlost
      exact unwatched_putReq (hsure.dropMonitor r.mon) hold (.inl hlost) (fun h => by cases h) hapart

theorem Placed.handshakeReply (hsure : s.Sure) (hs : s.Placed minted cleaned)
    (hwaiting : s.waiting id = true) (yes : Bool) :
    (s.handshakeReply id yes).Placed minted cleaned := by
  unfold State.handshakeReply
  split
  · exact hs
  · rename_i r hr
    split
    · obtain ⟨hload, hfinished, howner, hcleaned⟩ := load_of_waiting hs hr hwaiting
      apply Placed.put
      · intro j _
        exact hs j
      · exact View.placed_waits hload rfl hfinished howner ((hs id).minted_of_req (r := r) hr)
          hcleaned
    · apply hs.scheduled hr hwaiting rfl
      exact hsure.update hr (.inl rfl) (.inl rfl) rfl rfl

theorem Placed.adoptReply (hs : s.Placed minted cleaned) (id : RequestId) (ledger : Table ℕ Reply)
    (nextSeq : ℕ) (actions : List (ℕ × Action)) (adapter : Option Adapter) :
    (s.adoptReply id ledger nextSeq actions adapter).Placed minted cleaned := by
  unfold State.adoptReply
  split
  · exact hs
  · rename_i r hr
    apply hs.alters
    exact .put .refl hr ⟨rfl, rfl, rfl, rfl, rfl, rfl, rfl, rfl, rfl⟩

/-! ## Timers -/

theorem view_eraseHandshake (s : State) (id j : RequestId) :
    ({ s with timers := s.timers.erase (.handshake id) } : State).view j = s.view j := by
  have hcount : (s.timers.erase (.handshake id)).count (.cleanup j) = s.timers.count (.cleanup j) :=
    List.count_erase_of_ne (by simp)
  unfold view
  simp only [hcount]
  rfl

theorem view_ask (s : State) (id : RequestId) (r : Req) (j : RequestId) :
    (s.ask id r).view j = s.view j := by
  have hcount : ((Timer.handshake id) :: s.timers).count (.cleanup j) =
      s.timers.count (.cleanup j) := List.count_cons_of_ne (by simp)
  unfold view ask arm tell
  simp only [hcount]
  rfl

theorem Placed.retryHandshake (hs : s.Placed minted cleaned) (id : RequestId) :
    (s.retryHandshake id).Placed minted cleaned := by
  unfold State.retryHandshake
  split
  · rename_i r hr
    split
    · rename_i hpending
      have hwaits : r.stage.waits = true := by
        rw [hpending]
        rfl
      obtain ⟨hload, hfinished, howner⟩ := (hs id).waits r hr hwaits
      have hminted := (hs id).minted_of_req (r := r) hr
      have hcleaned := (hs id).not_cleaned (r := r) hr (by rw [hpending]; simp)
      split
      · apply Placed.put
        · intro j _
          rw [view_ask]
          exact hs j
        · rw [view_ask]
          exact View.placed_waits hload hwaits hfinished howner hminted hcleaned
      · apply Placed.put
        · intro j _
          exact hs j
        · exact View.placed_waits hload rfl hfinished howner hminted hcleaned
    · exact hs
  · exact hs

/-- The timer of a request that is queued is all there is of it. -/
theorem Placed.retryCleanup (hsure : s.Sure) (hs : s.Placed minted cleaned)
    (harmed : Timer.cleanup id ∈ s.timers) :
    (State.retryCleanup { s with timers := s.timers.erase (.cleanup id) } id).Placed minted
      cleaned := by
  have hpos : 0 < s.timers.count (.cleanup id) := List.count_pos_iff.mpr harmed
  have hcount : (s.timers.erase (.cleanup id)).count (.cleanup id) =
      s.timers.count (.cleanup id) - 1 := List.count_erase_self
  have hrest : ∀ j, j ≠ id → (s.timers.erase (.cleanup id)).count (.cleanup j) =
      s.timers.count (.cleanup j) := by
    intro j hj
    exact List.count_erase_of_ne (by simpa using hj)
  have hother : ∀ j, j ≠ id →
      ({ s with timers := s.timers.erase (.cleanup id) } : State).view j = s.view j := by
    intro j hj
    unfold view
    simp only [hrest j hj]
    rfl
  have honce : s.queue.count id + s.timers.count (.cleanup id) + s.working id ≤ 1 := (hs id).once
  have hload : (({ s with timers := s.timers.erase (.cleanup id) } : State).view id).load = 0 := by
    show s.queue.count id + (s.timers.erase (.cleanup id)).count (.cleanup id) + s.working id = 0
    omega
  unfold State.retryCleanup
  split
  · rename_i r hr
    have hstage : r.stage = .queued := by
      refine (hs id).stage_of_queued hr ?_
      show 0 < s.queue.count id + s.timers.count (.cleanup id)
      omega
    apply Placed.schedule
    · have herased : Sure { s with timers := s.timers.erase (.cleanup id) } :=
        ⟨hsure.index, hsure.set, hsure.known, hsure.jobs⟩
      exact herased.update hr (.inl rfl) (.inl rfl) rfl rfl
    · intro j hj
      rw [hother j hj]
      exact hs j
    · exact hload
    · rfl
    · exact (hs id).minted_of_req (r := r) hr
    · exact (hs id).not_cleaned (r := r) hr (by rw [hstage]; simp)
  · rename_i hnone
    intro j
    by_cases hj : j = id
    · subst hj
      have hview : ({ s with timers := s.timers.erase (.cleanup j) } : State).view j =
          { ({ s with timers := s.timers.erase (.cleanup j) } : State).view j with
            req := none } := by
        unfold view
        simp only [hnone]
      rw [hview]
      exact View.placed_none hload
    · rw [hother j hj]
      exact hs j

theorem Placed.fire (hsure : s.Sure) (hs : s.Placed minted cleaned) {t : Timer}
    (ht : t ∈ s.timers) : (s.fire t).Placed minted cleaned := by
  cases t with
  | cleanup id => exact Placed.retryCleanup hsure hs ht
  | handshake id =>
    apply Placed.retryHandshake
    exact hs.of_view (view_eraseHandshake s id)

/-! ## A `'DOWN'` -/

theorem Placed.guardianDown (hsure : s.Sure) (hs : s.Placed minted cleaned)
    (hr : s.reqs.lookup id = some r) (hguard : r.smon.isSome = true ∨ r.stage.waits = true) :
    (s.guardianDown id r).Placed minted cleaned := by
  unfold State.guardianDown
  split
  · rename_i hsmon
    have hwaits : r.stage.waits = true := by
      rcases hguard with h | h
      · rw [hsmon] at h
        cases h
      · exact h
    apply hs.scheduled hr _ rfl
    · exact hsure.update hr (.inr rfl) (.inl rfl) rfl rfl
    · unfold waiting
      rw [hr]
      exact hwaits
  · rename_i smon hsmon
    have hput : ∀ s' : State, s'.Placed minted cleaned → s'.reqs.lookup id = some r →
        (s'.putReq id { r with mon := none }).Placed minted cleaned := by
      intro s' hs' hr'
      apply Placed.put
      · intro j _
        exact hs' j
      · refine (hs' id).given (r := r) hr' ?_ ?_ ?_ ?_
        · rfl
        · rfl
        · intro _
          right
          rw [hsmon]
          simp
        · intro _
          rw [hsmon]
          simp
    apply hput
    · split
      · exact hs
      · exact hs
    · split
      · exact hr
      · exact hr

theorem Placed.stewardDown (hsure : s.Sure) (hs : s.Placed minted cleaned)
    (hr : s.reqs.lookup id = some r)
    (hguard : r.finished = true ∨ r.mon.isSome = true ∨ r.stage.waits = true) :
    (s.stewardDown id r).Placed minted cleaned := by
  unfold State.stewardDown
  split
  · rename_i hfinished
    have hover := (hs id).of_finished hr hfinished
    split
    · exact Placed.drop (s := s.journal (.delete id)) hs id
    · rename_i hcomplete
      apply Placed.put
      · intro j _
        exact hs j
      · refine (hs id).given (r := r) hr ?_ ?_ ?_ ?_
        · rfl
        · rfl
        · intro h
          rw [hover] at h
          cases h
        · intro h
          exact absurd h hcomplete
  · rename_i hfinished
    have hgoing : r.mon.isSome = true ∨ r.stage.waits = true :=
      hguard.resolve_left hfinished
    split
    · rename_i hmon
      apply hs.scheduled hr _ rfl
      · exact hsure.update hr (.inl rfl) (.inr rfl) rfl rfl
      · unfold waiting
        rw [hr]
        apply hgoing.resolve_left
        rw [hmon]
        simp
    · rename_i mon hmon
      apply Placed.put
      · intro j _
        exact hs j
      · refine (hs id).given (r := r) hr ?_ ?_ ?_ ?_
        · rfl
        · rfl
        · intro _
          left
          rw [hmon]
          simp
        · intro h
          exact absurd ((hs id).complete r hr h).2.1 hfinished

/-! ## The end of a job -/

theorem working_eraseJob {p : Pid} (hjob : s.jobs.lookup p = some (id, ref)) (mons : Table Ref What)
    (j : RequestId) : s.working j =
      ({ s with jobs := s.jobs.erase p, mons := mons } : State).working j +
        if j = id then 1 else 0 := by
  have htotal := Table.total_of_lookup (fun _ e => if e.1 = j then 1 else 0) hjob
  unfold working
  rw [htotal, Nat.add_comm]
  simp only [eq_comm]

/-- A request nothing works on any more. -/
theorem Placed.jobFinished (hs : ∀ j, j ≠ id → (s.view j).Placed (j ∈ minted) (j ∈ cleaned))
    (hload : (s.view id).load = 0)
    (hrunning : ∀ r, s.reqs.lookup id = some r → id ∈ minted ∧ id ∉ cleaned) (why : Why)
    (out : Outside) : (s.jobFinished id why out).Placed minted
      (match s.reqs.lookup id with
        | some r => if jobSucceeded why r out then insert id cleaned else cleaned
        | none => cleaned) := by
  -- what was found clean is over, and the others are where they were
  have hpart : ∀ (s' : State) (cleaned' : Finset RequestId), cleaned' ⊆ insert id cleaned →
      (∀ j, j ≠ id → s'.view j = s.view j) → (s'.view id).Placed (id ∈ minted) (id ∈ cleaned') →
      s'.Placed minted cleaned' := by
    intro s' cleaned' hsub hother hid j
    by_cases hj : j = id
    · subst hj
      exact hid
    · rw [hother j hj]
      apply (hs j hj).mono fun h => h
      intro h
      exact (Finset.mem_insert.mp (hsub h)).resolve_left hj
  have hdrop : ∀ (w : Write) (n : ℕ) (cleaned' : Finset RequestId), cleaned' ⊆ insert id cleaned →
      Placed minted cleaned' { (s.journal w).dropReq id with quarantined := n } := by
    intro w n cleaned' hsub
    apply hpart _ _ hsub
    · intro j hj
      show ((s.journal w).dropReq id).view j = _
      rw [view_dropReq, if_neg hj]
      rfl
    · show (((s.journal w).dropReq id).view id).Placed _ _
      rw [view_dropReq, if_pos rfl]
      exact View.placed_none hload
  unfold State.jobFinished
  cases hr : s.reqs.lookup id with
  | none =>
    apply hpart s cleaned (Finset.subset_insert id cleaned) (fun _ _ => rfl)
    have hview : s.view id = { s.view id with req := none } := by
      unfold view
      simp only [hr]
    rw [hview]
    exact View.placed_none hload
  | some r =>
    obtain ⟨hminted, hcleaned⟩ := hrunning r hr
    have hsub : (if jobSucceeded why r out then insert id cleaned else cleaned) ⊆
        insert id cleaned := by
      split
      · exact Finset.Subset.refl _
      · exact Finset.subset_insert id cleaned
    by_cases hretries : r.attempts ≥ s.opts.cleanupRetries
    · simp only [if_pos hretries]
      exact hdrop (.quarantine id) _ _ hsub
    · simp only [if_neg hretries]
      by_cases hsucceeded : jobSucceeded why r out = true
      · simp only [if_pos hsucceeded]
        unfold State.cleanupDone
        split
        · rename_i steward hfinished hsmon _
          apply hpart _ _ (Finset.Subset.refl _)
          · intro j hj
            rw [view_putReq, if_neg hj]
            rfl
          · rw [view_putReq, if_pos rfl]
            refine View.placed_complete (v := (s.tell steward (.complete id)).view id) hload rfl
              hfinished ?_ hminted
            show r.smon ≠ none
            rw [hsmon]
            simp
        · exact hdrop (.delete id) _ _ (Finset.Subset.refl _)
      · simp only [if_neg hsucceeded]
        have harmed : ∀ j, (s.arm (.cleanup id)).view j =
            if j = id then { s.view j with armed := (s.view j).armed + 1 } else s.view j := by
          intro j
          by_cases hj : j = id
          · subst hj
            rw [if_pos rfl]
            unfold view arm
            simp only [List.count_cons_self]
            rfl
          · have hcount : ((Timer.cleanup id) :: s.timers).count (.cleanup j) =
                s.timers.count (.cleanup j) := List.count_cons_of_ne (by simpa using Ne.symm hj)
            rw [if_neg hj]
            unfold view arm
            simp only [hcount]
            rfl
        apply hpart _ _ (Finset.subset_insert id cleaned)
        · intro j hj
          rw [view_putReq, if_neg hj, harmed, if_neg hj]
        · rw [view_putReq, if_pos rfl, harmed, if_pos rfl]
          exact View.placed_armed (v := s.view id) hload rfl hminted hcleaned

theorem cleanedBy_of_job {p : Pid} (hwhat : s.mons.lookup ref = some (.job p))
    (hjob : s.jobs.lookup p = some (id, ref)) (why : Why) (out : Outside) :
    (match s.cleanedBy ref why out with
      | some id => insert id cleaned
      | none => cleaned) =
      match s.reqs.lookup id with
      | some r => if jobSucceeded why r out then insert id cleaned else cleaned
      | none => cleaned := by
  unfold cleanedBy
  rw [hwhat]
  simp only [hjob]
  cases s.reqs.lookup id with
  | none => rfl
  | some r =>
    simp only
    split
    · rename_i h
      split at h
      · rename_i hsucceeded
        cases h
        rw [if_pos hsucceeded]
      · cases h
    · rename_i h
      split at h
      · cases h
      · rename_i hsucceeded
        rw [if_neg hsucceeded]

/-- What the job worked on is no longer worked on. -/
theorem Placed.jobDown (hsure : s.Sure) (hs : s.Placed minted cleaned) {p : Pid}
    (hwhat : s.mons.lookup ref = some (.job p)) (hjob : s.jobs.lookup p = some (id, ref)) (why : Why)
    (out : Outside) :
    (State.jobFinished { s with
      jobs := s.jobs.erase p, mons := unindex (some ref) s.mons } id why out).pump.Placed minted
        (match s.cleanedBy ref why out with
          | some id => insert id cleaned
          | none => cleaned) := by
  have hworking := working_eraseJob hjob (unindex (some ref) s.mons)
  have hpos : 0 < s.working id := by
    rw [hworking id, if_pos rfl]
    exact Nat.succ_pos _
  have honce : s.queue.count id + s.timers.count (.cleanup id) + s.working id ≤ 1 := (hs id).once
  have hload : (({ s with jobs := s.jobs.erase p, mons := unindex (some ref) s.mons } : State).view
      id).load = 0 := by
    have hid := hworking id
    rw [if_pos rfl] at hid
    show s.queue.count id + s.timers.count (.cleanup id) +
      ({ s with jobs := s.jobs.erase p, mons := unindex (some ref) s.mons } : State).working id = 0
    omega
  rw [cleanedBy_of_job hwhat hjob]
  have hfinished : ({ s with jobs := s.jobs.erase p, mons := unindex (some ref) s.mons } :
      State).jobFinished id why out |>.Placed minted (match s.reqs.lookup id with
        | some r => if jobSucceeded why r out then insert id cleaned else cleaned
        | none => cleaned) := by
    refine Placed.jobFinished ?_ hload ?_ why out
    · intro j hj
      have hview : ({ s with jobs := s.jobs.erase p, mons := unindex (some ref) s.mons } :
          State).view j = s.view j := by
        have hother := hworking j
        rw [if_neg hj, Nat.add_zero] at hother
        unfold view
        simp only [hother]
      rw [hview]
      exact hs j
    · intro r hr
      have hstage := (hs id).stage_of_working (r := r) hr hpos
      refine ⟨(hs id).minted_of_req (r := r) hr, ?_⟩
      apply (hs id).not_cleaned (r := r) hr
      rw [hstage]
      simp
  have hnone : (unindex (some ref) s.mons).lookup ref = none := by
    rw [lookup_unindex, if_pos rfl]
  have hhandled : ({ s with jobs := s.jobs.erase p, mons := unindex (some ref) s.mons } :
      State).Handled ref := ⟨hsure.eraseJob hjob, hnone⟩
  exact hfinished.pump (handled_jobFinished hhandled id why out).1

theorem undisturbed_down {why : Why} {out : Outside}
    (h : undisturbed s (.down ref why out) = true) :
    (match s.mons.lookup ref with
      | some (.guardian id) => (s.reqs.lookup id).all fun r => r.smon.isSome || r.stage.waits
      | some (.steward id) =>
          (s.reqs.lookup id).all fun r => r.finished || r.mon.isSome || r.stage.waits
      | _ => true) = true := h

theorem Placed.down (hsure : s.Sure) (hs : s.Placed minted cleaned) {why : Why} {out : Outside}
    (hguard : undisturbed s (.down ref why out) = true) : (s.down ref why out).Placed minted
      (match s.cleanedBy ref why out with
        | some id => insert id cleaned
        | none => cleaned) := by
  have howner : ∀ s', s.ownerDown ref why out = some s' → s'.Placed minted
      (match s.cleanedBy ref why out with
        | some id => insert id cleaned
        | none => cleaned) := by
    intro s' hs'
    unfold State.ownerDown at hs'
    have hguard := undisturbed_down hguard
    cases hwhat : s.mons.lookup ref with
    | none =>
      rw [hwhat] at hs'
      cases hs'
      unfold cleanedBy
      rw [hwhat]
      exact hs
    | some what =>
      rw [hwhat] at hs' hguard
      cases what with
      | guardian id =>
        obtain ⟨r, hr, rfl⟩ := Option.map_eq_some_iff.mp hs'
        simp only [hr, Option.all_some, Bool.or_eq_true] at hguard
        unfold cleanedBy
        rw [hwhat]
        exact hs.guardianDown hsure hr hguard
      | steward id =>
        obtain ⟨r, hr, rfl⟩ := Option.map_eq_some_iff.mp hs'
        simp only [hr, Option.all_some, Bool.or_eq_true] at hguard
        unfold cleanedBy
        rw [hwhat]
        apply hs.stewardDown hsure hr
        rcases hguard with (h | h) | h
        · exact .inl h
        · exact .inr (.inl h)
        · exact .inr (.inr h)
      | job p =>
        obtain ⟨id, hjob⟩ := (hsure.index ref _).mp hwhat
        change s.jobDown ref p why out = some s' at hs'
        unfold State.jobDown at hs'
        simp only [hjob, if_true, Option.some.injEq] at hs'
        subst hs'
        exact hs.jobDown hsure hwhat hjob why out
  unfold State.down
  obtain ⟨s', hs', _⟩ := ownerDown_spec hsure ref why out
  rw [hs']
  exact (howner s' hs').of_view fun _ => rfl

/-! ## A start -/

theorem placed_empty (hreqs : s.reqs = ∅) (hqueue : s.queue = []) (htimers : s.timers = [])
    (hjobs : s.jobs = ∅) : s.Placed ∅ ∅ := by
  intro id
  have hview : s.view id = ⟨none, 0, 0, 0⟩ := by
    unfold view working
    rw [hreqs, hqueue, htimers, hjobs]
    rfl
  have hnone : View.Placed ⟨none, 0, 0, 0⟩ (id ∈ (∅ : Finset RequestId))
      (id ∈ (∅ : Finset RequestId)) :=
    View.placed_none (v := ⟨none, 0, 0, 0⟩) rfl
  rw [hview]
  exact hnone

theorem view_adoptSteward (s : State) (id : RequestId) (r : Req) (j : RequestId) (hj : j ≠ id) :
    (s.adoptSteward id r).view j = s.view j := by
  have hput : ∀ (s' : State) (r' : Req), s'.view j = s.view j →
      (s'.putReq id r').view j = s.view j := by
    intro s' r' h
    rw [view_putReq, if_neg hj]
    exact h
  unfold State.adoptSteward
  split
  · split
    · exact hput _ _ rfl
    · exact hput _ _ rfl
  · exact hput _ _ rfl

theorem view_adoptSteward_self (s : State) (id : RequestId) (r : Req) :
    ∃ smon, (s.adoptSteward id r).view id =
      { s.view id with req := some { r with smon := smon } } := by
  unfold State.adoptSteward
  split
  · split
    · exact ⟨_, by rw [view_putReq, if_pos rfl]; rfl⟩
    · exact ⟨r.smon, by rw [view_putReq, if_pos rfl]⟩
  · exact ⟨r.smon, by rw [view_putReq, if_pos rfl]⟩

/-- A record is taken for the first time. -/
theorem Placed.adoptOrOrphan (hsure : s.Sure) (hs : s.Placed minted ∅) {rec : Record}
    (hnew : rec.id ∉ minted) (hsmon : rec.req.smon = none) (hfinished : rec.req.finished = false) :
    (s.adoptOrOrphan rec).Placed (insert rec.id minted) ∅ := by
  have hgrown : s.Placed (insert rec.id minted) ∅ := hs.mono (Finset.subset_insert rec.id minted)
  have hminted : rec.id ∈ insert rec.id minted := Finset.mem_insert_self rec.id minted
  have hload := ((hs rec.id).minted hnew).1
  have horphan : (s.schedule rec.id { rec.req with
      stage := Stage.queued, mon := none, gen := s.gen }).Placed (insert rec.id minted) ∅ := by
    apply Placed.schedule
    · apply hsure.putReq
      · intro ref h
        cases h
      · intro ref h
        change rec.req.smon = some ref at h
        rw [hsmon] at h
        cases h
    · intro j _
      exact hgrown j
    · exact hload
    · rfl
    · exact hminted
    · exact Finset.notMem_empty rec.id
  unfold State.adoptOrOrphan
  simp only
  split
  · exact horphan
  · split
    · intro j
      by_cases hj : j = rec.id
      · subst hj
        obtain ⟨smon, hview⟩ := view_adoptSteward_self
          ((s.monitor rec.req.guardian).ask rec.id
            { rec.req with stage := .pending, mon := some s.nextRef, gen := s.gen }) rec.id
          { rec.req with stage := .pending, mon := some s.nextRef, gen := s.gen }
        rw [hview, view_ask]
        refine View.placed_waits (v := s.view rec.id) hload rfl hfinished ?_ hminted
          (Finset.notMem_empty rec.id)
        left
        simp
      · rw [view_adoptSteward _ _ _ _ hj, view_ask]
        exact hgrown j
    · exact horphan

theorem placed_sweep (hsure : s.Sure) (hs : s.Placed ∅ ∅) (disk : Disk)
    (hnodup : ((s.records disk).map (·.id)).Nodup) :
    (s.sweep disk).1.Placed ((s.records disk).map (·.id)).toFinset ∅ := by
  have hall := sweep_records
    (P := fun taken s => s.Sure ∧ s.Placed (taken.map (·.id)).toFinset ∅) disk ?_ ?_ ⟨hsure, hs⟩
  · exact hall.2.2
  · rintro taken rec rest s' hrecords _ ⟨hsure', hs'⟩
    have hmem : rec ∈ s.records disk := by
      rw [hrecords]
      simp
    obtain ⟨e, _, hrec⟩ := List.mem_flatMap.mp hmem
    obtain ⟨f, _, hfile⟩ := List.mem_filterMap.mp hrec
    have hfresh := decodedFile_fresh hfile
    have hnew : rec.id ∉ (taken.map (·.id)).toFinset := by
      rw [hrecords, List.map_append, List.map_cons] at hnodup
      have hnot := (List.nodup_append'.mp hnodup).2.2
      rw [List.mem_toFinset]
      intro h
      exact hnot h List.mem_cons_self
    refine ⟨hsure'.adoptOrOrphan hfresh.smon, ?_⟩
    have hids : ((taken ++ [rec]).map (·.id)).toFinset =
        insert rec.id (taken.map (·.id)).toFinset := by
      rw [List.map_append, List.toFinset_append, Finset.union_comm]
      rfl
    rw [hids]
    exact hs'.adoptOrOrphan hsure' hnew hfresh.smon hfresh.finished
  · rintro taken s' n ⟨hsure', hs'⟩
    exact ⟨⟨hsure'.index, hsure'.set, hsure'.known, hsure'.jobs⟩, hs'.of_view fun _ => rfl⟩

end State

end ErlangWasm.Reaper
