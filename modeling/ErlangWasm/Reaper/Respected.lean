import ErlangWasm.Reaper.Owners
import ErlangWasm.Reaper.OneStage

/-!
# Owners are respected, over runs
-/

namespace ErlangWasm.Reaper

open Reasoning
open Wasi (Name)

namespace State

variable {s s' : State} {id : RequestId} {r : Req} {ref : Ref}

/-! ## What no message changes -/

theorem here_alters (h : s.Alters s') : s.Here s' := by
  induction h with
  | refl => exact .refl s
  | journal _ _ _ ih | crash _ ih => exact ih.trans ⟨rfl, rfl, rfl, rfl⟩
  | put _ _ _ ih => exact ih.trans (here_putReq _ _ _)

theorem here_reserve (s : State) (id : RequestId) (guardian steward : Pid) (root : RootId)
    (relpath : Name) : s.Here (s.reserve id guardian steward root relpath).2 := by
  unfold reserve
  split
  · exact .refl s
  · split <;> exact ⟨rfl, rfl, rfl, rfl⟩

theorem here_forget (s : State) (mon smon : Option Ref) (effects : List Effect) (id : RequestId) :
    s.Here (({ (s.dropMonitor mon).dropMonitor smon with effects := effects } : State).dropReq
      id) := by
  have hdropped := (here_dropMonitor s mon).trans (here_dropMonitor _ smon)
  have hwritten : s.Here { (s.dropMonitor mon).dropMonitor smon with effects := effects } :=
    ⟨hdropped.roots, hdropped.incarnation, hdropped.gen, hdropped.gone⟩
  exact hwritten.trans (here_dropReq _ id)

theorem here_reservationFailed (s : State) (id : RequestId) : s.Here (s.reservationFailed id) := by
  unfold reservationFailed
  split
  · rename_i r _
    split
    · exact here_forget s r.mon r.smon _ id
    · exact .refl s
  · exact .refl s

theorem here_finish (s : State) (id : RequestId) : s.Here (s.finish id) := by
  unfold finish
  split
  · exact .refl s
  · rename_i r _
    exact here_forget s r.mon r.smon _ id

theorem here_opFinish (s : State) (id : RequestId) : s.Here (s.opFinish id).2 := by
  unfold opFinish
  split
  · exact .refl s
  · exact (here_dropMonitor s _).trans (here_schedule _ _ _)

theorem here_handshakeReply (s : State) (id : RequestId) (yes : Bool) :
    s.Here (s.handshakeReply id yes) := by
  unfold handshakeReply
  split
  · exact .refl s
  · split
    · exact here_putReq _ _ _
    · exact here_schedule _ _ _

theorem here_adoptReply (s : State) (id : RequestId) (ledger : Table ℕ Reply) (nextSeq : ℕ)
    (actions : List (ℕ × Action)) (adapter : Option Adapter) :
    s.Here (s.adoptReply id ledger nextSeq actions adapter) := by
  unfold adoptReply
  split
  · exact .refl s
  · exact here_putReq _ _ _

theorem here_fire (s : State) (t : Timer) : s.Here (s.fire t) := by
  have herased : s.Here { s with timers := s.timers.erase t } := ⟨rfl, rfl, rfl, rfl⟩
  cases t with
  | cleanup id =>
    refine herased.trans ?_
    show State.Here _ (State.retryCleanup _ id)
    unfold retryCleanup
    split
    · exact here_schedule _ _ _
    · exact .refl _
  | handshake id =>
    refine herased.trans ?_
    show State.Here _ (State.retryHandshake _ id)
    unfold retryHandshake
    split
    · split
      · split
        · exact (here_ask _ _ _).trans (here_putReq _ _ _)
        · exact here_putReq _ _ _
      · exact .refl _
    · exact .refl _

theorem here_guardianDown (s : State) (id : RequestId) (r : Req) :
    s.Here (s.guardianDown id r) := by
  unfold guardianDown
  split
  · exact here_schedule _ _ _
  · cases r.steward with
    | none => exact here_putReq _ _ _
    | some steward => exact (here_tell s steward _).trans (here_putReq _ _ _)

theorem here_journal (s : State) (w : Write) : s.Here (s.journal w) := ⟨rfl, rfl, rfl, rfl⟩

theorem here_stewardDown (s : State) (id : RequestId) (r : Req) : s.Here (s.stewardDown id r) := by
  unfold stewardDown
  split
  · split
    · exact (here_journal s _).trans (here_dropReq _ id)
    · exact here_putReq _ _ _
  · split
    · exact here_schedule _ _ _
    · exact here_putReq _ _ _

theorem here_jobFinished (s : State) (id : RequestId) (why : Why) (out : Outside) :
    s.Here (s.jobFinished id why out) := by
  unfold jobFinished
  split
  · exact .refl s
  · split
    · have hdropped := (here_journal s (.quarantine id)).trans (here_dropReq _ id)
      exact ⟨hdropped.roots, hdropped.incarnation, hdropped.gen, hdropped.gone⟩
    · split
      · unfold cleanupDone
        split
        · exact (here_tell s _ _).trans (here_putReq _ _ _)
        · exact (here_journal s _).trans (here_dropReq _ id)
      · exact ⟨rfl, rfl, rfl, rfl⟩

theorem here_down (s : State) (ref : Ref) (why : Why) (out : Outside) :
    s.Here (s.down ref why out) := by
  have howner : ∀ s', s.ownerDown ref why out = some s' → s.Here s' := by
    intro s' hs'
    unfold ownerDown at hs'
    split at hs'
    · rename_i id _
      obtain ⟨r, _, rfl⟩ := Option.map_eq_some_iff.mp hs'
      exact here_guardianDown s id r
    · rename_i id _
      obtain ⟨r, _, rfl⟩ := Option.map_eq_some_iff.mp hs'
      exact here_stewardDown s id r
    · rename_i p _
      unfold jobDown at hs'
      split at hs'
      · split at hs'
        · cases hs'
          have herased : s.Here { s with
            jobs := s.jobs.erase p, mons := unindex (some ref) s.mons } := ⟨rfl, rfl, rfl, rfl⟩
          exact (herased.trans (here_jobFinished _ _ why out)).trans (here_pump _)
        · cases hs'
      · cases hs'
    · cases hs'
      exact .refl s
  unfold down
  split
  · rename_i s' hs'
    exact (howner s' hs').trans ⟨rfl, rfl, rfl, rfl⟩
  · exact ⟨rfl, rfl, rfl, rfl⟩

theorem named_here (h : s.Here s') (root : RootId) (f : Name × Option (List Char)) :
    s'.named root f = s.named root f := by
  unfold named
  rw [h.roots, h.incarnation, h.gen]

end State

/-! ## Runs -/

namespace Kept

variable {k k' : Kept} {act : Act}

def excused (k : Kept) (id : RequestId) : Prop :=
  id ∈ k.accepted ∨ id ∈ k.denied ∨ id ∈ k.orphans

structure Watchful (k : Kept) : Prop where
  sure : k.reaper.Sure
  living : State.Living k.excused k.minted k.reaper
  journal : ∀ e ∈ k.swept, ∀ f ∈ e.2.1.records, k.reaper.named e.1 f ∉ e.2.2
  quarantine : ∀ e ∈ k.swept, ∀ n ∈ e.2.1.quarantine, suffix.isSuffixOf n = true →
    reqPrefix ++ rootname n ∉ e.2.2

/-- The directories were swept as the reaper still reads the records. -/
theorem Watchful.of_here (hk : k.Watchful) (hhere : k.reaper.Here k'.reaper)
    (hswept : k'.swept = k.swept) (hsure : k'.reaper.Sure)
    (hliving : State.Living k'.excused k'.minted k'.reaper) : k'.Watchful where
  sure := hsure
  living := hliving
  journal e he f hf := by
    rw [hswept] at he
    rw [State.named_here hhere]
    exact hk.journal e he f hf
  quarantine e he := by
    rw [hswept] at he
    exact hk.quarantine e he

theorem watchful_restart {opts : Settings} {disk : Disk} (hguard : Attended k (.restart opts disk)) :
    (k.restart opts disk).Watchful := by
  have hempty : (k.reaper.fresh opts disk).Sure := State.sure_empty rfl rfl rfl
  simp only [Attended, attended, Bool.and_eq_true, decide_eq_true_eq, List.all_eq_true] at hguard
  obtain ⟨⟨hnodup, hattended⟩, hlegible⟩ := hguard
  have hhere : (k.reaper.fresh opts disk).Here (k.restart opts disk).reaper :=
    (State.sweep_records (P := fun _ _ => True) disk (fun _ _ _ _ _ _ h => h) (fun _ _ _ h => h)
      trivial).1
  have hdirs := State.sweep_dirs
    (Q := fun x => (∀ f ∈ x.2.1.records, (k.reaper.fresh opts disk).named x.1 f ∉ x.2.2) ∧
      ∀ n ∈ x.2.1.quarantine, suffix.isSuffixOf n = true → reqPrefix ++ rootname n ∉ x.2.2)
    hnodup ?_
  · constructor
    · exact State.sure_sweep hempty disk
    · have hliving : State.Living (k.restart opts disk).excused ∅ (k.reaper.fresh opts disk) := by
        refine ⟨?_, ?_, ?_, ?_, ?_, ?_⟩
        · intro _ _ h
          cases h
        · intro _ _ h
          cases h
        · intro _ _ h
          cases h
        · intro _ _ h
          cases h
        · intro id h
          rcases h with h | h | ⟨_, _, h⟩
          · cases h
          · cases h
          · cases h
        · intro _ h
          cases h
      have hswept := State.living_sweep hliving hnodup ?_ ?_
      · exact hswept.mono (fun _ h => h) Finset.subset_union_right _ (Finset.Subset.refl _)
      · intro rec hrec hkind
        right
        right
        show rec.id ∈ ((((k.reaper.fresh opts disk).records disk).filter
          fun r => r.kind = .orphan).map (·.id)).toFinset
        rw [List.mem_toFinset]
        apply List.mem_map_of_mem
        rw [List.mem_filter]
        exact ⟨hrec, decide_eq_true hkind⟩
      · intro rec hrec
        have h := hattended rec hrec
        simp only [Bool.or_eq_true, decide_eq_true_eq] at h
        rcases h with (h | h) | h
        · exact .inl h
        · exact .inr (.inl h)
        · exact .inr (.inr h)
    · intro e he f hf
      have h := (hdirs e he).1 f hf
      rw [← State.named_here hhere] at h
      exact h
    · intro e he
      exact (hdirs e he).2
  · intro e he s _ hs
    have hroot := hlegible e he
    constructor
    · intro f hf
      exact State.named_notMem hroot hs hf
    · intro n hn hsuffix
      unfold State.legible at hroot
      simp only [Bool.and_eq_true] at hroot
      apply State.notMem_sweepUnrecorded
      right
      exact State.mem_quarantinedPaths hroot.1.2 (.inl hn) hsuffix

theorem watchful_message (hk : k.Watchful) (hstep : k.message act = some k') : k'.Watchful := by
  have hsure := sure_message hk.sure hstep
  -- what is excused stays so
  have hmore : ∀ {excused : RequestId → Prop}, (∀ id, k.excused id → excused id) →
      State.Living excused k.minted k.reaper := by
    intro excused h
    exact hk.living.mono h (Finset.Subset.refl _) k.reaper.gone (Finset.Subset.refl _)
  cases act with
  | reserve id guardian steward root relpath =>
    simp only [message] at hstep
    split at hstep
    · cases hstep
    · rename_i hnew
      cases hstep
      exact hk.of_here (State.here_reserve _ id guardian steward root relpath) rfl hsure
        (hk.living.reserve hnew guardian steward root relpath)
  | journalFailed id =>
    cases hstep
    exact hk.of_here (State.here_reservationFailed _ id) rfl hsure (hk.living.reservationFailed id)
  | call id op out =>
    simp only [message] at hstep
    split at hstep
    · cases hstep
    · rename_i hop
      cases hstep
      have halters := State.alters_applyOperation hop k.reaper id out
      exact hk.of_here (State.here_alters halters) rfl hsure (hk.living.alters halters)
  | apply id caller operation op out =>
    cases hstep
    rcases State.apply_cases k.reaper id caller operation op out with ⟨hdenied, h⟩ | ⟨haccepts, h⟩
    · refine hk.of_here (State.here_alters h) rfl hsure (State.Living.alters ?_ h)
      apply hmore
      intro j hj
      rcases hj with hj | hj
      · left
        show j ∈ if k.reaper.acceptsFinish id caller operation op then _ else _
        rw [hdenied]
        exact hj
      · exact .inr hj
    · refine hk.of_here ((State.here_opFinish _ id).trans (State.here_alters h)) rfl hsure
        (State.Living.alters ?_ h)
      have haccepted : ∀ j, j = id ∨ k.excused j → Kept.excused { k with
          reaper := (k.reaper.apply id caller operation op out).2
          accepted := if k.reaper.acceptsFinish id caller operation op then insert id k.accepted
            else k.accepted } j := by
        intro j hj
        unfold Kept.excused
        simp only [haccepts, if_true]
        rcases hj with hj | hj | hj
        · rw [hj]
          exact .inl (Finset.mem_insert_self id _)
        · exact .inl (Finset.mem_insert_of_mem hj)
        · exact .inr hj
      apply State.Living.opFinish
      · apply hmore
        exact fun j hj => haccepted j (.inr hj)
      · exact haccepted id (.inl rfl)
  | finish id =>
    cases hstep
    exact hk.of_here (State.here_finish _ id) rfl hsure (hk.living.finish id)
  | down ref why out =>
    simp only [message] at hstep
    split at hstep
    · rename_i p hset
      split at hstep
      · rename_i hgone
        cases hstep
        exact hk.of_here (State.here_down _ ref why out) rfl hsure
          (hk.living.down hk.sure hset hgone why out)
      · cases hstep
    · cases hstep
  | adoptReply id ledger nextSeq actions adapter =>
    simp only [message] at hstep
    split at hstep
    · cases hstep
      exact hk.of_here (State.here_adoptReply _ id ledger nextSeq actions adapter) rfl hsure
        (hk.living.adoptReply id ledger nextSeq actions adapter)
    · cases hstep
  | handshakeReply id yes =>
    cases hstep
    refine hk.of_here (State.here_handshakeReply _ id yes) rfl hsure ?_
    apply State.Living.handshakeReply
    · apply hmore
      intro j hj
      rcases hj with hj | hj | hj
      · exact .inl hj
      · right
        left
        show j ∈ if yes then _ else _
        split
        · exact hj
        · exact Finset.mem_insert_of_mem hj
      · exact .inr (.inr hj)
    · intro hno
      right
      left
      show id ∈ if yes then _ else _
      rw [hno]
      exact Finset.mem_insert_self id _
  | fire t =>
    simp only [message] at hstep
    split at hstep
    · rename_i ht
      cases hstep
      exact hk.of_here (State.here_fire _ t) rfl hsure (hk.living.fire ht)
    · cases hstep
  | die p => cases hstep
  | restart opts disk => cases hstep

theorem watchful_step (hk : k.Watchful) (hguard : Attended k act) (hstep : k.step act = some k') :
    k'.Watchful := by
  have hmessage : (if k.reaper.crashed then none else k.message act) = some k' → k'.Watchful := by
    intro h
    split at h
    · cases h
    · exact watchful_message hk h
  cases act with
  | die p =>
    cases hstep
    constructor
    · exact ⟨hk.sure.index, hk.sure.set, hk.sure.known, hk.sure.jobs⟩
    · exact hk.living.mono (fun _ h => h) (Finset.Subset.refl _) _ (Finset.subset_insert p _)
    · exact hk.journal
    · exact hk.quarantine
  | restart opts disk =>
    cases hstep
    exact watchful_restart hguard
  | _ => exact hmessage hstep

theorem watchful_init (incarnation : Name) : (init incarnation).Watchful := by
  constructor
  · exact sure_init incarnation
  · refine ⟨?_, ?_, ?_, ?_, ?_, ?_⟩
    · intro _ _ h
      cases h
    · intro _ _ h
      cases h
    · intro _ _ h
      cases h
    · intro _ _ h
      cases h
    · intro id h
      rcases h with h | h | ⟨_, _, h⟩
      · cases h
      · cases h
      · cases h
    · intro _ h
      cases h
  · intro _ h
    cases h
  · intro _ h
    cases h

end Kept

/-- A run in which no reaper starts to a request that has lost its guardian alone, or to a record it
cannot read or move. -/
theorem respects_of_attended {incarnation : Name} {k : Kept}
    (h : Run.ReachableIf Kept.step Attended (Kept.init incarnation) k) : k.Respects := by
  have hwatchful : k.Watchful := by
    induction h with
    | init => exact Kept.watchful_init incarnation
    | step _ hguard hstep ih => exact Kept.watchful_step ih hguard hstep
  constructor
  · intro e he
    rcases hwatchful.living.spawned e he with (h | h | h) | h
    · exact .inl h
    · exact .inr (.inl h)
    · exact .inr (.inr (.inl h))
    · exact .inr (.inr (.inr h))
  · exact hwatchful.journal
  · exact hwatchful.quarantine

/-- One request loses both owners, and another is finished. -/
def lostRun : List Act :=
  [.restart small (diskOf "<0.1.0> <0.2.0>"), .die (.proc 0 1 0), .down 0 .other quiet,
    .die (.proc 0 2 0), .down 1 .other quiet,
    .reserve "y".toList (.proc 0 3 0) (.proc 0 4 0) "r".toList "req-y".toList,
    .apply "y".toList (.proc 0 4 0) ("y".toList, 1) .finish quiet]

theorem respects_of_lostRun : ∃ k, Run.ReachableIf Kept.step Attended (Kept.init "a".toList) k ∧
    k.reaper.spawned.map (·.1) = ["x".toList, "y".toList] ∧ k.swept.length = 1 ∧ k.Respects := by
  have hrun : (Run.execIf Kept.step Attended lostRun (Kept.init "a".toList)).any
      (fun k => k.reaper.spawned.map (·.1) = ["x".toList, "y".toList] && k.swept.length = 1) =
        true := by
    decide +kernel
  obtain ⟨k, hexec, hk⟩ := (Option.any_eq_true _ _).mp hrun
  simp only [Bool.and_eq_true, decide_eq_true_eq] at hk
  have hreach := Run.ReachableIf.of_execIf .init hexec
  exact ⟨k, hreach, hk.1, hk.2, respects_of_attended hreach⟩

/-- The guardian is gone when the reaper starts, and the steward is not. -/
def deadGuardianRun : List Act :=
  [.die (.proc 0 1 0), .restart small (diskOf "<0.1.0> <0.2.0>")]

/-- A job is started behind the steward. -/
theorem not_respects_of_deadGuardianRun :
    ¬ ∀ k, Run.Reachable Kept.step (Kept.init "a".toList) k → k.Respects := by
  intro hall
  have hrun : (Run.exec Kept.step deadGuardianRun (Kept.init "a".toList)).any
      (fun k => k.reaper.spawned.any fun e => e.1 ∉ k.accepted && e.1 ∉ k.denied &&
        e.1 ∉ k.orphans && e.2.steward.any fun p => p ∉ k.reaper.gone) = true := by
    decide +kernel
  obtain ⟨k, hexec, hk⟩ := (Option.any_eq_true _ _).mp hrun
  obtain ⟨e, he, hbad⟩ := List.any_eq_true.mp hk
  simp only [Bool.and_eq_true, decide_eq_true_eq, Option.any_eq_true] at hbad
  obtain ⟨⟨⟨haccepted, hdenied⟩, horphan⟩, p, hp, halive⟩ := hbad
  have hjustified := (hall k (Run.Reachable.of_exec .init hexec)).jobs e he
  rcases hjustified with h | h | h | ⟨_, h⟩
  · exact haccepted h
  · exact hdenied h
  · exact horphan h
  · exact halive (h p hp)

end ErlangWasm.Reaper
