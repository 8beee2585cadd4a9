import ErlangWasm.Reaper.Start

/-!
# Who may be cleaned up

A request that gave up a monitor has lost that owner, or its finish was accepted, or its guardian
denied it.  What the queue, the timers and the jobs name has lost both, or was excused.
-/

namespace ErlangWasm.Reaper

open Reasoning
open Wasi (Name)

namespace State

variable {s s' : State} {excused : RequestId → Prop} {minted : Finset RequestId} {id : RequestId}
  {r old : Req} {ref : Ref}

/-- There is a reason to clean up after it. -/
def Justified (excused : RequestId → Prop) (s : State) (id : RequestId) (r : Req) : Prop :=
  excused id ∨ r.guardian ∈ s.gone ∧ ∀ p, r.steward = some p → p ∈ s.gone

/-- It is on its way to a job, or has one. -/
def Due (s : State) (id : RequestId) : Prop :=
  id ∈ s.queue ∨ .cleanup id ∈ s.timers ∨ ∃ p ref, s.jobs.lookup p = some (id, ref)

structure Living (excused : RequestId → Prop) (minted : Finset RequestId) (s : State) : Prop where
  guardian : ∀ id r, s.reqs.lookup id = some r → r.mon = none → excused id ∨ r.guardian ∈ s.gone
  steward : ∀ id r, s.reqs.lookup id = some r → r.smon = none →
    ∀ p, r.steward = some p → p ∈ s.gone
  due : ∀ id r, s.reqs.lookup id = some r → s.Due id → s.Justified excused id r
  stored : ∀ id r, s.reqs.lookup id = some r → id ∈ minted
  minted : ∀ id, s.Due id → id ∈ minted
  spawned : ∀ e ∈ s.spawned, s.Justified excused e.1 e.2

theorem Justified.of_owners (h : s.Justified excused id old) (hguardian : r.guardian = old.guardian)
    (hsteward : r.steward = old.steward) : s.Justified excused id r := by
  unfold Justified
  rw [hguardian, hsteward]
  exact h

theorem Justified.mono {excused' : RequestId → Prop} (h : s.Justified excused id r)
    (hexcused : excused id → excused' id) (hgone : s.gone ⊆ s'.gone) :
    s'.Justified excused' id r := by
  rcases h with h | ⟨hg, hst⟩
  · exact .inl (hexcused h)
  · exact .inr ⟨hgone hg, fun p hp => hgone (hst p hp)⟩

theorem Living.mono {excused' : RequestId → Prop} {minted' : Finset RequestId}
    (hs : Living excused minted s) (hexcused : ∀ id, excused id → excused' id)
    (hminted : minted ⊆ minted') (gone : Finset Pid) (hgone : s.gone ⊆ gone) :
    Living excused' minted' { s with gone := gone } where
  guardian id r hr hmon := (hs.guardian id r hr hmon).imp (hexcused id) fun h => hgone h
  steward id r hr hsmon p hp := hgone (hs.steward id r hr hsmon p hp)
  due id r hr hdue := (hs.due id r hr hdue).mono (hexcused id) hgone
  stored id r hr := hminted (hs.stored id r hr)
  minted id hdue := hminted (hs.minted id hdue)
  spawned e he := (hs.spawned e he).mono (hexcused e.1) hgone

/-! ## What is stored, and dropped -/

theorem Living.putReq (hs : Living excused minted s)
    (hmon : r.mon = none → excused id ∨ r.guardian ∈ s.gone)
    (hsmon : r.smon = none → ∀ p, r.steward = some p → p ∈ s.gone)
    (hdue : s.Due id → s.Justified excused id r) (hid : id ∈ minted) :
    Living excused minted (s.putReq id r) := by
  have hreqs : ∀ j, (s.putReq id r).reqs.lookup j = if j = id then some r else s.reqs.lookup j :=
    fun j => Table.lookup_insert_eq _ _ _
  constructor
  · intro j r' hr'
    rw [hreqs] at hr'
    split at hr'
    · rename_i hj
      cases hr'
      subst hj
      exact hmon
    · exact hs.guardian j r' hr'
  · intro j r' hr'
    rw [hreqs] at hr'
    split at hr'
    · cases hr'
      exact hsmon
    · exact hs.steward j r' hr'
  · intro j r' hr'
    rw [hreqs] at hr'
    split at hr'
    · rename_i hj
      cases hr'
      subst hj
      exact hdue
    · exact hs.due j r' hr'
  · intro j r' hr'
    rw [hreqs] at hr'
    split at hr'
    · rename_i hj
      rw [hj]
      exact hid
    · exact hs.stored j r' hr'
  · exact hs.minted
  · exact hs.spawned

/-- A request that keeps its owners, and gives up a monitor for a reason. -/
theorem Living.update (hs : Living excused minted s) (hold : s.reqs.lookup id = some old)
    (hguardian : r.guardian = old.guardian) (hsteward : r.steward = old.steward)
    (hmon : r.mon = old.mon ∨ excused id ∨ old.guardian ∈ s.gone)
    (hsmon : r.smon = old.smon ∨ ∀ p, old.steward = some p → p ∈ s.gone) :
    Living excused minted (s.putReq id r) := by
  apply hs.putReq
  · intro hnone
    rw [hguardian]
    rcases hmon with h | h
    · rw [h] at hnone
      exact hs.guardian id old hold hnone
    · exact h
  · intro hnone
    rw [hsteward]
    rcases hsmon with h | h
    · rw [h] at hnone
      exact hs.steward id old hold hnone
    · exact h
  · intro hdue
    exact (hs.due id old hold hdue).of_owners hguardian hsteward
  · exact hs.stored id old hold

theorem Living.dropReq (hs : Living excused minted s) (id : RequestId) :
    Living excused minted (s.dropReq id) := by
  cases hr : s.reqs.lookup id with
  | none =>
    rw [dropReq_none hr]
    exact hs
  | some old =>
    rw [dropReq_eq hr]
    have hreqs : ∀ j r', (s.reqs.erase id).lookup j = some r' → s.reqs.lookup j = some r' := by
      intro j r' hr'
      rw [Table.lookup_erase_eq] at hr'
      split at hr'
      · cases hr'
      · exact hr'
    exact ⟨fun j r' hr' => hs.guardian j r' (hreqs j r' hr'),
      fun j r' hr' => hs.steward j r' (hreqs j r' hr'),
      fun j r' hr' => hs.due j r' (hreqs j r' hr'),
      fun j r' hr' => hs.stored j r' (hreqs j r' hr'), hs.minted, hs.spawned⟩

theorem Living.dropMonitor (hs : Living excused minted s) (o : Option Ref) :
    Living excused minted (s.dropMonitor o) := by
  cases o <;> exact ⟨hs.guardian, hs.steward, hs.due, hs.stored, hs.minted, hs.spawned⟩

theorem Living.alters (hs : Living excused minted s) (h : s.Alters s') :
    Living excused minted s' := by
  induction h with
  | refl => exact hs
  | journal _ _ _ ih | crash _ ih =>
    exact ⟨ih.guardian, ih.steward, ih.due, ih.stored, ih.minted, ih.spawned⟩
  | put _ hr hlike ih =>
    exact ih.update hr hlike.guardian hlike.steward (.inl hlike.mon) (.inl hlike.smon)

/-! ## The pump -/

theorem Living.startJob (hs : Living excused minted s)
    (hr : s.reqs.lookup id = some r) (hjustified : s.Justified excused id r) :
    Living excused minted (s.startJob id r) := by
  have hreqs : ∀ j, (s.startJob id r).reqs.lookup j =
      if j = id then some { r with stage := .running } else s.reqs.lookup j :=
    fun j => Table.lookup_insert_eq _ _ _
  have hdue : ∀ j, (s.startJob id r).Due j → j = id ∨ s.Due j := by
    intro j h
    rcases h with h | h | ⟨p, ref, h⟩
    · exact .inr (.inl h)
    · exact .inr (.inr (.inl h))
    · have hjobs : (s.startJob id r).jobs.lookup p =
          if p = .job s.nextJob then some (id, s.nextRef) else s.jobs.lookup p :=
        Table.lookup_insert_eq _ _ _
      rw [hjobs] at h
      split at h
      · cases h
        exact .inl rfl
      · exact .inr (.inr (.inr ⟨p, ref, h⟩))
  constructor
  · intro j r' hr'
    rw [hreqs] at hr'
    split at hr'
    · rename_i hj
      cases hr'
      subst hj
      exact hs.guardian j r hr
    · exact hs.guardian j r' hr'
  · intro j r' hr'
    rw [hreqs] at hr'
    split at hr'
    · rename_i hj
      cases hr'
      subst hj
      exact hs.steward j r hr
    · exact hs.steward j r' hr'
  · intro j r' hr' h
    rw [hreqs] at hr'
    split at hr'
    · rename_i hj
      cases hr'
      subst hj
      exact hjustified
    · rename_i hj
      exact hs.due j r' hr' ((hdue j h).resolve_left hj)
  · intro j r' hr'
    rw [hreqs] at hr'
    split at hr'
    · rename_i hj
      rw [hj]
      exact hs.stored id r hr
    · exact hs.stored j r' hr'
  · intro j h
    rcases hdue j h with hj | hj
    · rw [hj]
      exact hs.stored id r hr
    · exact hs.minted j hj
  · intro e he
    rcases List.mem_append.mp he with h | h
    · exact hs.spawned e h
    · cases List.mem_singleton.mp h
      exact hjustified

/-- Fewer requests are due. -/
theorem Living.settle (hs : Living excused minted s) (queue : List RequestId) (timers : List Timer)
    (hqueue : ∀ id ∈ queue, id ∈ s.queue)
    (htimers : ∀ id, Timer.cleanup id ∈ timers → Timer.cleanup id ∈ s.timers) :
    Living excused minted { s with queue := queue, timers := timers } := by
  have hdue : ∀ id, ({ s with queue := queue, timers := timers } : State).Due id → s.Due id := by
    intro id h
    rcases h with h | h | h
    · exact .inl (hqueue id h)
    · exact .inr (.inl (htimers id h))
    · exact .inr (.inr h)
  exact ⟨hs.guardian, hs.steward, fun id r hr h => hs.due id r hr (hdue id h), hs.stored,
    fun id h => hs.minted id (hdue id h), hs.spawned⟩

theorem Living.pump (hs : Living excused minted s) : Living excused minted s.pump := by
  refine pump_induct (P := Living excused minted) ?_ hs
  intro s id rest hs _
  have hrest : Living excused minted { s with queue := rest } :=
    hs.settle rest s.timers (fun j hj => List.mem_cons_of_mem id hj) fun _ h => h
  cases hr : s.reqs.lookup id with
  | none =>
    have hsame : s.pumpOne id = s := by
      unfold pumpOne
      rw [hr]
    rw [hsame]
    exact hrest
  | some r =>
    have hstarted : { s.pumpOne id with queue := rest } =
        State.startJob { s with queue := rest } id r := by
      unfold pumpOne
      rw [hr]
      rfl
    rw [hstarted]
    apply hrest.startJob hr
    exact hs.due id r hr (.inl List.mem_cons_self)

/-- What goes to cleanup has a reason to. -/
theorem Living.schedule (hs : Living excused minted (s.putReq id r))
    (hjustified : s.Justified excused id r) : Living excused minted (s.schedule id r) := by
  have hlookup : (s.putReq id r).reqs.lookup id = some r := AList.lookup_insert _
  have hdue : ∀ j, ({ s.putReq id r with queue := s.queue ++ [id] } : State).Due j →
      j = id ∨ (s.putReq id r).Due j := by
    intro j h
    rcases h with h | h | h
    · rcases List.mem_append.mp h with h | h
      · exact .inr (.inl h)
      · exact .inl (List.mem_singleton.mp h)
    · exact .inr (.inr (.inl h))
    · exact .inr (.inr (.inr h))
  have hqueued : Living excused minted { s.putReq id r with queue := s.queue ++ [id] } := by
    constructor
    · exact hs.guardian
    · exact hs.steward
    · intro j r' hr' h
      rcases hdue j h with hj | hj
      · change (s.putReq id r).reqs.lookup j = some r' at hr'
        rw [hj, hlookup, Option.some.injEq] at hr'
        rw [hj, ← hr']
        exact hjustified
      · exact hs.due j r' hr' hj
    · exact hs.stored
    · intro j h
      rcases hdue j h with hj | hj
      · rw [hj]
        exact hs.stored id r hlookup
      · exact hs.minted j hj
    · exact hs.spawned
  exact hqueued.pump

/-- A stored request goes to cleanup. -/
theorem Living.scheduled (hs : Living excused minted s) (hold : s.reqs.lookup id = some old)
    (hguardian : r.guardian = old.guardian) (hsteward : r.steward = old.steward)
    (hmon : r.mon = old.mon ∨ excused id ∨ old.guardian ∈ s.gone)
    (hsmon : r.smon = old.smon ∨ ∀ p, old.steward = some p → p ∈ s.gone)
    (hjustified : s.Justified excused id old) : Living excused minted (s.schedule id r) := by
  apply Living.schedule
  · exact hs.update hold hguardian hsteward hmon hsmon
  · exact hjustified.of_owners hguardian hsteward

/-! ## Messages -/

theorem Living.reserve (hs : Living excused minted s) (hnew : id ∉ minted) (guardian steward : Pid)
    (root : RootId) (relpath : Name) :
    Living excused (insert id minted) (s.reserve id guardian steward root relpath).2 := by
  have hgrown := hs.mono (fun _ h => h) (Finset.subset_insert id minted) s.gone
    (Finset.Subset.refl s.gone)
  unfold State.reserve
  split
  · exact hgrown
  · split
    · refine Living.putReq (s := ((s.monitor guardian).monitor steward).journal _)
        ⟨hgrown.guardian, hgrown.steward, hgrown.due, hgrown.stored, hgrown.minted,
          hgrown.spawned⟩ ?_ ?_ ?_ ?_
      · intro h
        cases h
      · intro h
        cases h
      · intro h
        exact absurd (hs.minted id h) hnew
      · exact Finset.mem_insert_self id minted
    · exact hgrown

theorem Living.forget (hs : Living excused minted s) (mon smon : Option Ref)
    (effects : List Effect) (id : RequestId) : Living excused minted
      (({ (s.dropMonitor mon).dropMonitor smon with effects := effects } : State).dropReq id) := by
  have hdropped := (hs.dropMonitor mon).dropMonitor smon
  exact Living.dropReq (s := { (s.dropMonitor mon).dropMonitor smon with effects := effects })
    ⟨hdropped.guardian, hdropped.steward, hdropped.due, hdropped.stored, hdropped.minted,
      hdropped.spawned⟩ id

theorem Living.reservationFailed (hs : Living excused minted s) (id : RequestId) :
    Living excused minted (s.reservationFailed id) := by
  unfold State.reservationFailed
  split
  · rename_i r _
    split
    · exact hs.forget r.mon r.smon _ id
    · exact hs
  · exact hs

theorem Living.finish (hs : Living excused minted s) (id : RequestId) :
    Living excused minted (s.finish id) := by
  unfold State.finish
  split
  · exact hs
  · rename_i r _
    exact hs.forget r.mon r.smon _ id

theorem Living.opFinish (hs : Living excused minted s) (haccepted : excused id) :
    Living excused minted (s.opFinish id).2 := by
  unfold State.opFinish
  split
  · exact hs
  · rename_i r hr
    have hold : (s.dropMonitor r.mon).reqs.lookup id = some r := by
      rw [← hr]
      cases r.mon <;> rfl
    exact (hs.dropMonitor r.mon).scheduled hold rfl rfl (.inr (.inl haccepted)) (.inl rfl)
      (.inl haccepted)

theorem Living.handshakeReply (hs : Living excused minted s) (id : RequestId) (yes : Bool)
    (hdenied : yes = false → excused id) : Living excused minted (s.handshakeReply id yes) := by
  unfold State.handshakeReply
  split
  · exact hs
  · rename_i r hr
    split
    · exact hs.update hr rfl rfl (.inl rfl) (.inl rfl)
    · rename_i hno
      have hexcused := hdenied (Bool.eq_false_iff.mpr hno)
      exact hs.scheduled hr rfl rfl (.inl rfl) (.inl rfl) (.inl hexcused)

theorem Living.adoptReply (hs : Living excused minted s) (id : RequestId) (ledger : Table ℕ Reply)
    (nextSeq : ℕ) (actions : List (ℕ × Action)) (adapter : Option Adapter) :
    Living excused minted (s.adoptReply id ledger nextSeq actions adapter) := by
  unfold State.adoptReply
  split
  · exact hs
  · rename_i r hr
    exact hs.update hr rfl rfl (.inl rfl) (.inl rfl)

theorem Living.ask (hs : Living excused minted s) (id : RequestId) (r : Req) :
    Living excused minted (s.ask id r) := by
  have hsettled := hs.settle s.queue (.handshake id :: s.timers) (fun _ h => h) (by
    intro j h
    exact (List.mem_cons.mp h).resolve_left (by simp))
  exact ⟨hsettled.guardian, hsettled.steward, hsettled.due, hsettled.stored, hsettled.minted,
    hsettled.spawned⟩

theorem Living.fire (hs : Living excused minted s) {t : Timer} (ht : t ∈ s.timers) :
    Living excused minted (s.fire t) := by
  have herased := hs.settle s.queue (s.timers.erase t) (fun _ h => h)
    fun _ h => List.mem_of_mem_erase h
  cases t with
  | cleanup id =>
    show Living excused minted (State.retryCleanup _ id)
    unfold retryCleanup
    split
    · rename_i r hr
      exact herased.scheduled hr rfl rfl (.inl rfl) (.inl rfl) (hs.due id r hr (.inr (.inl ht)))
    · exact herased
  | handshake id =>
    show Living excused minted (State.retryHandshake _ id)
    unfold retryHandshake
    split
    · rename_i r hr
      split
      · split
        · have hasked := herased.ask id { r with tries := r.tries + 1 }
          exact hasked.update hr rfl rfl (.inl rfl) (.inl rfl)
        · exact herased.update hr rfl rfl (.inl rfl) (.inl rfl)
      · exact herased
    · exact herased

/-! ## A `'DOWN'` -/

theorem Living.guardianDown (hs : Living excused minted s) (hr : s.reqs.lookup id = some r)
    (hgone : r.guardian ∈ s.gone) : Living excused minted (s.guardianDown id r) := by
  unfold State.guardianDown
  split
  · rename_i hsmon
    exact hs.scheduled hr rfl rfl (.inr (.inr hgone)) (.inl rfl)
      (.inr ⟨hgone, hs.steward id r hr hsmon⟩)
  · cases hsteward : r.steward with
    | none => exact hs.update hr rfl hsteward.symm (.inr (.inr hgone)) (.inl rfl)
    | some steward =>
      have htold : Living excused minted (s.tell steward (.orphaned id)) :=
        ⟨hs.guardian, hs.steward, hs.due, hs.stored, hs.minted, hs.spawned⟩
      exact htold.update hr rfl hsteward.symm (.inr (.inr hgone)) (.inl rfl)

theorem Living.stewardDown (hs : Living excused minted s) (hr : s.reqs.lookup id = some r)
    (hgone : ∀ p, r.steward = some p → p ∈ s.gone) :
    Living excused minted (s.stewardDown id r) := by
  unfold State.stewardDown
  split
  · split
    · exact Living.dropReq (s := s.journal (.delete id))
        ⟨hs.guardian, hs.steward, hs.due, hs.stored, hs.minted, hs.spawned⟩ id
    · exact hs.update hr rfl rfl (.inl rfl) (.inr hgone)
  · split
    · rename_i hmon
      have hjustified : s.Justified excused id r :=
        (hs.guardian id r hr hmon).imp_right fun hg => ⟨hg, hgone⟩
      exact hs.scheduled hr rfl rfl (.inl rfl) (.inr hgone) hjustified
    · exact hs.update hr rfl rfl (.inl rfl) (.inr hgone)

theorem Living.jobFinished (hs : Living excused minted s)
    (hjob : ∀ r, s.reqs.lookup id = some r → s.Justified excused id r) (why : Why)
    (out : Outside) : Living excused minted (s.jobFinished id why out) := by
  have hdrop : ∀ w : Write, Living excused minted ((s.journal w).dropReq id) := by
    intro w
    exact Living.dropReq (s := s.journal w)
      ⟨hs.guardian, hs.steward, hs.due, hs.stored, hs.minted, hs.spawned⟩ id
  unfold State.jobFinished
  split
  · exact hs
  · rename_i r hr
    split
    · have hquarantined := hdrop (.quarantine id)
      exact ⟨hquarantined.guardian, hquarantined.steward, hquarantined.due, hquarantined.stored,
        hquarantined.minted, hquarantined.spawned⟩
    · split
      · unfold State.cleanupDone
        split
        · rename_i steward _ _ _
          have htold : Living excused minted (s.tell steward (.complete id)) :=
            ⟨hs.guardian, hs.steward, hs.due, hs.stored, hs.minted, hs.spawned⟩
          exact htold.update hr rfl rfl (.inl rfl) (.inl rfl)
        · exact hdrop (.delete id)
      · have harmed : Living excused minted (s.arm (.cleanup id)) := by
          have hdue : ∀ j, (s.arm (.cleanup id)).Due j → j = id ∨ s.Due j := by
            intro j h
            rcases h with h | h | h
            · exact .inr (.inl h)
            · rcases List.mem_cons.mp h with h | h
              · cases h
                exact .inl rfl
              · exact .inr (.inr (.inl h))
            · exact .inr (.inr (.inr h))
          refine ⟨hs.guardian, hs.steward, ?_, hs.stored, ?_, hs.spawned⟩
          · intro j r' hr' h
            rcases hdue j h with hj | hj
            · subst hj
              exact hjob r' hr'
            · exact hs.due j r' hr' hj
          · intro j h
            rcases hdue j h with hj | hj
            · rw [hj]
              exact hs.stored id r hr
            · exact hs.minted j hj
        exact harmed.update hr rfl rfl (.inl rfl) (.inl rfl)

/-- Fewer jobs are there. -/
theorem Living.eraseJob (hs : Living excused minted s) (p : Pid) (mons : Table Ref What) :
    Living excused minted { s with jobs := s.jobs.erase p, mons := mons } := by
  have hdue : ∀ id, ({ s with jobs := s.jobs.erase p, mons := mons } : State).Due id →
      s.Due id := by
    intro id h
    rcases h with h | h | ⟨q, ref, h⟩
    · exact .inl h
    · exact .inr (.inl h)
    · change (s.jobs.erase p).lookup q = some (id, ref) at h
      rw [Table.lookup_erase_eq] at h
      split at h
      · cases h
      · exact .inr (.inr ⟨q, ref, h⟩)
  exact ⟨hs.guardian, hs.steward, fun id r hr h => hs.due id r hr (hdue id h), hs.stored,
    fun id h => hs.minted id (hdue id h), hs.spawned⟩

/-- The process a monitor is set on is the owner the index names. -/
theorem Living.down (hsure : s.Sure) (hs : Living excused minted s) {p : Pid}
    (hset : s.monitors.lookup ref = some p) (hgone : p ∈ s.gone) (why : Why) (out : Outside) :
    Living excused minted (s.down ref why out) := by
  have howner : ∀ s', s.ownerDown ref why out = some s' → Living excused minted s' := by
    intro s' hs'
    unfold State.ownerDown at hs'
    cases hwhat : s.mons.lookup ref with
    | none =>
      rw [hwhat] at hs'
      cases hs'
      exact hs
    | some what =>
      rw [hwhat] at hs'
      obtain ⟨q, hwhom, hq⟩ := hsure.set ref what hwhat fun h => h
      rw [hset, Option.some.injEq] at hq
      subst hq
      cases what with
      | guardian id =>
        obtain ⟨r, hr, rfl⟩ := Option.map_eq_some_iff.mp hs'
        obtain ⟨r', hr', rfl⟩ := hwhom
        rw [hr, Option.some.injEq] at hr'
        subst hr'
        exact hs.guardianDown hr hgone
      | steward id =>
        obtain ⟨r, hr, rfl⟩ := Option.map_eq_some_iff.mp hs'
        obtain ⟨r', hr', hsteward⟩ := hwhom
        rw [hr, Option.some.injEq] at hr'
        subst hr'
        apply hs.stewardDown hr
        intro p' hp'
        rw [hsteward, Option.some.injEq] at hp'
        rw [← hp']
        exact hgone
      | job q =>
        change s.jobDown ref q why out = some s' at hs'
        unfold State.jobDown at hs'
        split at hs'
        · rename_i id mon hjob
          split at hs'
          · cases hs'
            apply Living.pump
            apply (hs.eraseJob q _).jobFinished
            intro r hr
            exact hs.due id r hr (.inr (.inr ⟨q, mon, hjob⟩))
          · cases hs'
        · cases hs'
  unfold State.down
  split
  · rename_i s' hs'
    have hliving := howner s' hs'
    exact ⟨hliving.guardian, hliving.steward, hliving.due, hliving.stored, hliving.minted,
      hliving.spawned⟩
  · exact ⟨hs.guardian, hs.steward, hs.due, hs.stored, hs.minted, hs.spawned⟩

end State

end ErlangWasm.Reaper
