import ErlangWasm.Reaper.Staged

/-!
# One stage, over runs

The queue is emptied as far as there is room for jobs, so what is left in it waits for one to end.
-/

namespace ErlangWasm.Reaper

open Reasoning
open Wasi (Name)

namespace State

variable {s s' : State} {id : RequestId} {r : Req} {ref : Ref}

/-! ## The queue -/

def Pumped (s : State) : Prop :=
  s.queue ≠ [] → s.opts.maxCleanupJobs ≤ s.jobs.entries.length

theorem pumped_pumpFrom (q : List RequestId) (s : State) : (pumpFrom q s).Pumped := by
  induction q generalizing s with
  | nil =>
    intro h
    exact absurd rfl h
  | cons id rest ih =>
    unfold pumpFrom
    split
    · rename_i hfull
      intro _
      exact hfull
    · exact ih _

theorem pumped_pump (s : State) : s.pump.Pumped := pumped_pumpFrom s.queue s

theorem pumped_schedule (s : State) (id : RequestId) (r : Req) : (s.schedule id r).Pumped :=
  pumped_pump _

theorem Pumped.dropMonitor (hs : s.Pumped) (o : Option Ref) : (s.dropMonitor o).Pumped := by
  cases o <;> exact hs

theorem Pumped.dropReq (hs : s.Pumped) (id : RequestId) : (s.dropReq id).Pumped := by
  unfold State.dropReq
  split <;> exact hs

theorem Pumped.alters (hs : s.Pumped) (h : s.Alters s') : s'.Pumped := by
  induction h with
  | refl => exact hs
  | journal _ _ _ ih | crash _ ih | put _ _ _ ih => exact ih

theorem Pumped.reserve (hs : s.Pumped) (id : RequestId) (guardian steward : Pid) (root : RootId)
    (relpath : Name) : (s.reserve id guardian steward root relpath).2.Pumped := by
  unfold State.reserve
  split
  · exact hs
  · split <;> exact hs

theorem Pumped.reservationFailed (hs : s.Pumped) (id : RequestId) :
    (s.reservationFailed id).Pumped := by
  unfold State.reservationFailed
  split
  · rename_i r _
    split
    · exact ((hs.dropMonitor r.mon).dropMonitor r.smon).dropReq id
    · exact hs
  · exact hs

theorem Pumped.finish (hs : s.Pumped) (id : RequestId) : (s.finish id).Pumped := by
  unfold State.finish
  split
  · exact hs
  · rename_i r _
    apply Pumped.dropReq
    exact (hs.dropMonitor r.mon).dropMonitor r.smon

theorem Pumped.opFinish (hs : s.Pumped) (id : RequestId) : (s.opFinish id).2.Pumped := by
  unfold State.opFinish
  split
  · exact hs
  · exact pumped_schedule _ _ _

theorem Pumped.handshakeReply (hs : s.Pumped) (id : RequestId) (yes : Bool) :
    (s.handshakeReply id yes).Pumped := by
  unfold State.handshakeReply
  split
  · exact hs
  · split
    · exact hs
    · exact pumped_schedule _ _ _

theorem Pumped.adoptReply (hs : s.Pumped) (id : RequestId) (ledger : Table ℕ Reply) (nextSeq : ℕ)
    (actions : List (ℕ × Action)) (adapter : Option Adapter) :
    (s.adoptReply id ledger nextSeq actions adapter).Pumped := by
  unfold State.adoptReply
  split <;> exact hs

theorem Pumped.fire (hs : s.Pumped) (t : Timer) : (s.fire t).Pumped := by
  cases t with
  | cleanup id =>
    show (State.retryCleanup _ id).Pumped
    unfold retryCleanup
    split
    · exact pumped_schedule _ _ _
    · exact hs
  | handshake id =>
    show (State.retryHandshake _ id).Pumped
    unfold retryHandshake
    split
    · split
      · split <;> exact hs
      · exact hs
    · exact hs

theorem Pumped.guardianDown (hs : s.Pumped) (id : RequestId) (r : Req) :
    (s.guardianDown id r).Pumped := by
  unfold State.guardianDown
  split
  · exact pumped_schedule _ _ _
  · cases r.steward <;> exact hs

theorem Pumped.stewardDown (hs : s.Pumped) (id : RequestId) (r : Req) :
    (s.stewardDown id r).Pumped := by
  unfold State.stewardDown
  split
  · split
    · exact Pumped.dropReq (s := s.journal (.delete id)) hs id
    · exact hs
  · split
    · exact pumped_schedule _ _ _
    · exact hs

theorem Pumped.down (hs : s.Pumped) (ref : Ref) (why : Why) (out : Outside) :
    (s.down ref why out).Pumped := by
  have howner : ∀ s', s.ownerDown ref why out = some s' → s'.Pumped := by
    intro s' hs'
    unfold State.ownerDown at hs'
    split at hs'
    · rename_i id _
      obtain ⟨r, _, rfl⟩ := Option.map_eq_some_iff.mp hs'
      exact hs.guardianDown id r
    · rename_i id _
      obtain ⟨r, _, rfl⟩ := Option.map_eq_some_iff.mp hs'
      exact hs.stewardDown id r
    · unfold State.jobDown at hs'
      split at hs'
      · split at hs'
        · cases hs'
          exact pumped_pump _
        · cases hs'
      · cases hs'
    · cases hs'
      exact hs
  unfold State.down
  split
  · rename_i s' hs'
    exact howner s' hs'
  · exact hs

theorem Pumped.adoptOrOrphan (hs : s.Pumped) (rec : Record) : (s.adoptOrOrphan rec).Pumped := by
  unfold State.adoptOrOrphan
  simp only
  split
  · exact pumped_schedule _ _ _
  · split
    · unfold State.adoptSteward
      split
      · split <;> exact hs
      · exact hs
    · exact pumped_schedule _ _ _

theorem pumped_sweep (hs : s.Pumped) (disk : Disk) : (s.sweep disk).1.Pumped := by
  apply sweep_induct (P := Pumped) _ disk hs
  intro s root d moved f hs
  unfold State.sweepOne
  split
  · exact hs
  · split
    · exact hs
    · exact Pumped.adoptOrOrphan hs _

end State

/-! ## Runs -/

/-- What a run keeps of the requests. -/
structure Kept.Settled (k : Kept) : Prop where
  sure : k.reaper.Sure
  placed : k.reaper.Placed k.minted k.cleaned
  cleaned : k.cleaned ⊆ k.minted
  pumped : k.reaper.Pumped

theorem settled_init (incarnation : Name) : (Kept.init incarnation).Settled where
  sure := sure_init incarnation
  placed := State.placed_empty rfl rfl rfl rfl
  cleaned := Finset.empty_subset _
  pumped h := absurd rfl h

theorem settled_restart {k : Kept} {opts : Settings} {disk : Disk}
    (hguard : Undisturbed k (.restart opts disk)) : (k.restart opts disk).Settled where
  sure := State.sure_sweep (State.sure_empty rfl rfl rfl) disk
  placed := by
    have hnodup := of_decide_eq_true hguard
    have hswept := State.placed_sweep (s := k.reaper.fresh opts disk) (State.sure_empty rfl rfl rfl)
      (State.placed_empty rfl rfl rfl rfl) disk hnodup
    exact hswept.mono Finset.subset_union_right
  cleaned := Finset.empty_subset _
  pumped := State.pumped_sweep (fun h => absurd rfl h) disk

/-- What a job found clean was a request. -/
theorem minted_of_cleanedBy {s : State} {minted cleaned : Finset RequestId} {ref : Ref}
    {why : State.Why} {out : Outside} {id : RequestId} (hs : s.Placed minted cleaned)
    (h : s.cleanedBy ref why out = some id) : id ∈ minted := by
  unfold State.cleanedBy at h
  split at h
  · split at h
    · split at h
      · rename_i r hr
        split at h
        · cases h
          exact (hs id).minted_of_req (r := r) hr
        · cases h
      · cases h
    · cases h
  · cases h

theorem settled_message {k k' : Kept} {act : Act} (hk : k.Settled) (hguard : Undisturbed k act)
    (hstep : k.message act = some k') : k'.Settled := by
  have hsure := sure_message hk.sure hstep
  cases act with
  | reserve id guardian steward root relpath =>
    simp only [Kept.message] at hstep
    split at hstep
    · cases hstep
    · rename_i hnew
      cases hstep
      exact ⟨hsure, hk.placed.reserve hnew hk.cleaned guardian steward root relpath,
        hk.cleaned.trans (Finset.subset_insert id k.minted),
        hk.pumped.reserve id guardian steward root relpath⟩
  | journalFailed id =>
    cases hstep
    exact ⟨hsure, hk.placed.reservationFailed id, hk.cleaned, hk.pumped.reservationFailed id⟩
  | call id op out =>
    simp only [Kept.message] at hstep
    split at hstep
    · cases hstep
    · rename_i hop
      cases hstep
      have halters := State.alters_applyOperation hop k.reaper id out
      exact ⟨hsure, hk.placed.alters halters, hk.cleaned, hk.pumped.alters halters⟩
  | apply id caller operation op out =>
    cases hstep
    rcases State.apply_cases k.reaper id caller operation op out with ⟨_, h⟩ | ⟨haccepts, h⟩
    · exact ⟨hsure, hk.placed.alters h, hk.cleaned, hk.pumped.alters h⟩
    · have hwaiting : k.reaper.waiting id = true := by
        change (!k.reaper.acceptsFinish id caller operation op || k.reaper.waiting id) = true
          at hguard
        rw [haccepts] at hguard
        exact hguard
      exact ⟨hsure, (hk.placed.opFinish hk.sure hwaiting).alters h, hk.cleaned,
        (hk.pumped.opFinish id).alters h⟩
  | finish id =>
    cases hstep
    exact ⟨hsure, hk.placed.finish id, hk.cleaned, hk.pumped.finish id⟩
  | down ref why out =>
    simp only [Kept.message] at hstep
    split at hstep
    · split at hstep
      · cases hstep
        refine ⟨hsure, hk.placed.down hk.sure hguard, ?_, hk.pumped.down ref why out⟩
        dsimp only
        split
        · rename_i id hcleaned
          exact Finset.insert_subset (minted_of_cleanedBy hk.placed hcleaned) hk.cleaned
        · exact hk.cleaned
      · cases hstep
    · cases hstep
  | adoptReply id ledger nextSeq actions adapter =>
    simp only [Kept.message] at hstep
    split at hstep
    · cases hstep
      exact ⟨hsure, hk.placed.adoptReply id ledger nextSeq actions adapter, hk.cleaned,
        hk.pumped.adoptReply id ledger nextSeq actions adapter⟩
    · cases hstep
  | handshakeReply id yes =>
    cases hstep
    exact ⟨hsure, hk.placed.handshakeReply hk.sure hguard yes, hk.cleaned,
      hk.pumped.handshakeReply id yes⟩
  | fire t =>
    simp only [Kept.message] at hstep
    split at hstep
    · rename_i ht
      cases hstep
      exact ⟨hsure, hk.placed.fire hk.sure ht, hk.cleaned, hk.pumped.fire t⟩
    · cases hstep
  | die p => cases hstep
  | restart opts disk => cases hstep

theorem settled_step {k k' : Kept} {act : Act} (hk : k.Settled) (hguard : Undisturbed k act)
    (hstep : k.step act = some k') : k'.Settled := by
  have hmessage : (if k.reaper.crashed then none else k.message act) = some k' → k'.Settled := by
    intro h
    split at h
    · cases h
    · exact settled_message hk hguard h
  cases act with
  | die p =>
    cases hstep
    have hsure : ({ k.reaper with gone := insert p k.reaper.gone } : State).Sure :=
      ⟨hk.sure.index, hk.sure.set, hk.sure.known, hk.sure.jobs⟩
    exact ⟨hsure, hk.placed.of_view fun _ => rfl, hk.cleaned, hk.pumped⟩
  | restart opts disk =>
    cases hstep
    exact settled_restart hguard
  | _ => exact hmessage hstep

/-- What a run keeps is what is asked of it. -/
theorem Kept.Settled.staged {k : Kept} (hk : k.Settled) : k.Staged where
  index := hk.sure.index
  stands id r hr := by
    have hplaced := hk.placed id
    constructor
    · intro hwaits
      obtain ⟨hload, _, howner⟩ := hplaced.waits r hr hwaits
      change k.reaper.queue.count id + k.reaper.timers.count (.cleanup id) + k.reaper.working id = 0
        at hload
      refine ⟨?_, by omega, by omega, by omega⟩
      rcases howner with h | h
      · exact .inl (hk.sure.guarded hr h)
      · exact .inr (hk.sure.stewarded hr h)
    · intro hqueued
      have hone : k.reaper.queue.count id + k.reaper.timers.count (.cleanup id) = 1 :=
        hplaced.queued r hr hqueued
      have honce : k.reaper.queue.count id + k.reaper.timers.count (.cleanup id) +
        k.reaper.working id ≤ 1 := hplaced.once
      exact ⟨hone, by omega⟩
    · intro hrunning
      have hone : k.reaper.working id = 1 := hplaced.running r hr hrunning
      have honce : k.reaper.queue.count id + k.reaper.timers.count (.cleanup id) +
        k.reaper.working id ≤ 1 := hplaced.once
      exact ⟨hone, by omega, by omega⟩
    · intro hcomplete
      obtain ⟨hload, hfinished, hsmon⟩ := hplaced.complete r hr hcomplete
      change k.reaper.queue.count id + k.reaper.timers.count (.cleanup id) + k.reaper.working id = 0
        at hload
      exact ⟨hfinished, hk.sure.stewarded hr hsmon, by omega, by omega, by omega⟩
  once id := by
    have honce : k.reaper.queue.count id + k.reaper.timers.count (.cleanup id) +
      k.reaper.working id ≤ 1 := (hk.placed id).once
    omega
  jobs p id ref hjob := by
    have hwhat := (hk.sure.index ref (.job p)).mpr ⟨id, hjob⟩
    obtain ⟨q, hwhom, hset⟩ := hk.sure.set ref _ hwhat fun h => h
    change p = q at hwhom
    rw [hwhom]
    exact hset
  cleaned id hid := by
    have hload : k.reaper.queue.count id + k.reaper.timers.count (.cleanup id) +
      k.reaper.working id = 0 := ((hk.placed id).cleaned hid).1
    omega
  pumped := hk.pumped
  found ref why out := by
    obtain ⟨s', hs', _⟩ := State.ownerDown_spec hk.sure ref why out
    rw [hs']
    rfl

def small : Settings := ⟨2, 2, 3, 8, 8⟩

def quiet : Outside := ⟨true, fun _ => true, fun _ => false⟩

/-- A root of which the journal has a record of `owner`. -/
def diskOf (owner : String) : Disk :=
  [("r".toList, {
    journal := [("x.rec".toList, some ("v2 a 0 " ++ owner ++ " x\nremove_tree r req-x\n").toList)]
    journalListed := true
    quarantine := []
    quarantineListed := true
    names := ["req-x".toList]
    moves := fun _ => true })]

/-- A request is taken up after a start, another is finished and cleaned up. -/
def cleanedRun : List Act :=
  [.restart small (diskOf "<0.1.0> -"), .handshakeReply "x".toList true,
    .reserve "y".toList (.proc 0 2 0) (.proc 0 3 0) "r".toList "req-y".toList,
    .apply "y".toList (.proc 0 3 0) ("y".toList, 1) .finish quiet, .die (.job 0),
    .down 3 (.cleaned true) quiet, .die (.proc 0 3 0), .down 2 .other quiet]

/-- The guardian is asked twice and denies twice. -/
def deniedRun : List Act :=
  [.restart small (diskOf "<0.1.0> -"), .fire (.handshake "x".toList),
    .handshakeReply "x".toList false, .handshakeReply "x".toList false]

end ErlangWasm.Reaper
