import ErlangWasm.Reaper.OneStage
import ErlangWasm.Reaper.Steward

/-!
# A reaper that starts anew

What is left of a request when its reaper dies and the next one has read the journal and heard the
steward.
-/

namespace ErlangWasm.Reaper

open Reasoning
open Wasi (Name)

/-! ## The same cleanup -/

/-- What `run_actions/4` runs, by whether `cleanup/1` failed. -/
def Req.callbacks (r : Req) (failed : Bool) : List ℕ :=
  r.actions.filterMap fun a =>
    match a.2.1 with
    | .run f => if a.2.2 = .owned ∨ failed then some f else none
    | .op _ => none

/-- The request is owed the same cleanup. -/
structure Req.SameCleanup (r r' : Req) : Prop where
  ops : r'.ops = r.ops
  actions : r'.actions = r.actions
  cleanup : r'.cleanup = r.cleanup
  nextSeq : r'.nextSeq = r.nextSeq
  ledger : ∀ k, r'.ledger.lookup k = r.ledger.lookup k
  callbacks : ∀ failed, r'.callbacks failed = r.callbacks failed

namespace State

variable {s s' : State} {id : RequestId} {r : Req} {v : Option Req}

/-- What is stored of a request for which no cleanup waits. -/
structure Holds (id : RequestId) (v : Option Req) (s : State) : Prop where
  stored : s.reqs.lookup id = v
  unqueued : id ∉ s.queue

theorem Holds.pump (h : s.Holds id v) : s.pump.Holds id v := by
  refine pump_induct (P := Holds id v) ?_ h
  intro s j rest hs _
  have hne : id ≠ j := fun heq => hs.unqueued (heq ▸ List.mem_cons_self)
  have hrest : id ∉ rest := fun hmem => hs.unqueued (List.mem_cons_of_mem _ hmem)
  refine ⟨?_, hrest⟩
  show (s.pumpOne j).reqs.lookup id = v
  unfold pumpOne
  cases hj : s.reqs.lookup j with
  | none => exact hs.stored
  | some r =>
    show (s.reqs.insert j { r with stage := .running }).lookup id = v
    rw [AList.lookup_insert_ne hne]
    exact hs.stored

theorem Holds.putReq (h : s.Holds id v) {j : RequestId} (hne : id ≠ j) (r : Req) :
    (s.putReq j r).Holds id v := by
  refine ⟨?_, h.unqueued⟩
  show (s.reqs.insert j r).lookup id = v
  rw [AList.lookup_insert_ne hne]
  exact h.stored

theorem Holds.schedule (h : s.Holds id v) {j : RequestId} (hne : id ≠ j) (r : Req) :
    (s.schedule j r).Holds id v := by
  apply Holds.pump
  have hput := h.putReq hne r
  refine ⟨hput.stored, ?_⟩
  intro hmem
  cases List.mem_append.mp hmem with
  | inl hold => exact h.unqueued hold
  | inr hlast => exact hne (List.mem_singleton.mp hlast)

theorem Holds.adoptSteward (h : s.Holds id v) {j : RequestId} (hne : id ≠ j) (r : Req) :
    (s.adoptSteward j r).Holds id v := by
  unfold State.adoptSteward
  split
  · rename_i steward _
    split
    · have htold : ((s.monitor steward).tell steward (.adoptRequest r.gen j)).Holds id v :=
        ⟨h.stored, h.unqueued⟩
      exact htold.putReq hne _
    · exact h.putReq hne _
  · exact h.putReq hne _

theorem Holds.adoptOrOrphan (h : s.Holds id v) {rec : Record} (hne : id ≠ rec.id) :
    (s.adoptOrOrphan rec).Holds id v := by
  unfold State.adoptOrOrphan
  simp only
  split
  · exact h.schedule hne _
  · split
    · apply Holds.adoptSteward _ hne
      exact ⟨h.stored, h.unqueued⟩
    · exact h.schedule hne _

/-- What a record of living owners is stored as. -/
def asked (gen : ℕ) (mon smon : Option Ref) (r : Req) : Req :=
  { r with stage := .pending, mon, smon, gen }

theorem Holds.adopted (h : s.Holds id v) {rec : Record} (hid : rec.id = id)
    (hlive : rec.kind = .live) (halive : rec.req.guardian ∉ s.gone) :
    ∃ mon smon, (s.adoptOrOrphan rec).Holds id (some (asked s.gen mon smon rec.req)) := by
  have halive' : s.isAlive rec.req.guardian = true := decide_eq_true halive
  have hput : ∀ (s' : State) (r : Req), s'.queue = s.queue → (s'.putReq id r).Holds id (some r) :=
    fun s' r hqueue => ⟨AList.lookup_insert _, hqueue ▸ h.unqueued⟩
  unfold State.adoptOrOrphan
  simp only [hlive, halive', if_true, hid]
  unfold State.adoptSteward
  split
  · split
    · exact ⟨_, _, hput _ _ rfl⟩
    · exact ⟨_, _, hput _ _ rfl⟩
  · exact ⟨_, _, hput _ _ rfl⟩

/-- A record that no other shares its id with is there after the sweep. -/
theorem sweep_adopts {s₀ : State} {disk : Disk} {before after : List Record} {rec : Record}
    (hempty : s₀.Holds rec.id none) (hrecords : s₀.records disk = before ++ rec :: after)
    (hother : ∀ rec' ∈ before ++ after, rec'.id ≠ rec.id) (hlive : rec.kind = .live)
    (halive : rec.req.guardian ∉ s₀.gone) :
    ∃ mon smon, (s₀.sweep disk).1.reqs.lookup rec.id = some (asked s₀.gen mon smon rec.req) := by
  let P : List Record → State → Prop := fun taken s =>
    (rec.id ∉ taken.map (·.id) ∧ s.Holds rec.id none) ∨
      ∃ mon smon, s.Holds rec.id (some (asked s₀.gen mon smon rec.req))
  have hadopt : ∀ taken rec' rest s, s₀.records disk = taken ++ rec' :: rest → s₀.Here s →
      P taken s → P (taken ++ [rec']) (s.adoptOrOrphan rec') := by
    intro taken rec' rest s hall hhere hs
    have hmem : rec' ∈ before ++ rec :: after := by
      rw [← hrecords, hall]
      exact List.mem_append_right _ List.mem_cons_self
    by_cases hid : rec'.id = rec.id
    · have hsame : rec' = rec := by
        rcases List.mem_append.mp hmem with hin | hin
        · exact absurd hid (hother rec' (List.mem_append_left _ hin))
        · rcases List.mem_cons.mp hin with heq | hin
          · exact heq
          · exact absurd hid (hother rec' (List.mem_append_right _ hin))
      subst hsame
      have halive' : rec'.req.guardian ∉ s.gone := by
        rw [hhere.gone]
        exact halive
      right
      rw [← hhere.gen]
      rcases hs with hs | hs
      · exact hs.2.adopted rfl hlive halive'
      · obtain ⟨mon, smon, hs⟩ := hs
        exact hs.adopted rfl hlive halive'
    · rcases hs with hs | hs
      · left
        refine ⟨?_, hs.2.adoptOrOrphan (Ne.symm hid)⟩
        rw [List.map_append, List.mem_append, not_or]
        exact ⟨hs.1, fun hin => hid (List.mem_singleton.mp hin).symm⟩
      · obtain ⟨mon, smon, hs⟩ := hs
        exact .inr ⟨mon, smon, hs.adoptOrOrphan (Ne.symm hid)⟩
  have hcount : ∀ taken s n, P taken s → P taken { s with quarantined := n } := by
    intro taken s n hs
    rcases hs with hs | hs
    · exact .inl ⟨hs.1, hs.2.stored, hs.2.unqueued⟩
    · obtain ⟨mon, smon, hs⟩ := hs
      exact .inr ⟨mon, smon, hs.stored, hs.unqueued⟩
  have hswept := (sweep_records disk hadopt hcount (.inl ⟨List.not_mem_nil, hempty⟩)).2
  rcases hswept with hnever | hadopted
  · apply absurd _ hnever.1
    rw [hrecords]
    exact List.mem_map_of_mem (List.mem_append_right _ List.mem_cons_self)
  · obtain ⟨mon, smon, hs⟩ := hadopted
    exact ⟨mon, smon, hs.stored⟩

/-- What no record names is not there after the sweep. -/
theorem sweep_forgets {s₀ : State} {disk : Disk} (hempty : s₀.Holds id none)
    (hother : ∀ rec ∈ s₀.records disk, rec.id ≠ id) :
    (s₀.sweep disk).1.reqs.lookup id = none := by
  have hadopt : ∀ taken rec rest s, s₀.records disk = taken ++ rec :: rest → s₀.Here s →
      s.Holds id none → (s.adoptOrOrphan rec).Holds id none := by
    intro taken rec rest s hall _ hs
    have hmem : rec ∈ s₀.records disk := by
      rw [hall]
      exact List.mem_append_right _ List.mem_cons_self
    exact hs.adoptOrOrphan (Ne.symm (hother rec hmem))
  have hcount : ∀ (taken : List Record) (s : State) n, s.Holds id none →
      { s with quarantined := n }.Holds id none := fun _ s n hs => ⟨hs.stored, hs.unqueued⟩
  exact (sweep_records (P := fun _ s => s.Holds id none) disk hadopt hcount hempty).2.stored

end State

namespace Errand

variable {id : RequestId} {guardian me : Pid} {x : Errand} {r : Req} {root : RootId}
  {opts : Settings} {disk : Disk}

/-- The journal has the file in the root of the request, and no other that names it. -/
structure OnDisk (id : RequestId) (root : RootId) (opts : Settings) (disk : Disk) (x : Errand) :
    Prop where
  split : ∃ name before d after files files', disk = before ++ (root, d) :: after ∧
    d.listed = files ++ (name, some x.file) :: files' ∧
    ∀ rec ∈ (x.reaper.fresh opts disk).records before ++
        (files ++ files').filterMap ((x.reaper.fresh opts disk).decodedFile root) ++
        (x.reaper.fresh opts disk).records after,
      rec.id ≠ id

/-- The records of the disk are those of the file and others. -/
theorem OnDisk.records (h : x.OnDisk id root opts disk) :
    ∃ before after, (x.reaper.fresh opts disk).records disk = before ++
        ((x.reaper.fresh opts disk).decodedFile root ([], some x.file)).toList ++ after ∧
      ∀ rec ∈ before ++ after, rec.id ≠ id := by
  obtain ⟨name, before, d, after, files, files', hdisk, hlisted, hother⟩ := h.split
  generalize hs : x.reaper.fresh opts disk = s at hother ⊢
  refine ⟨s.records before ++ files.filterMap (s.decodedFile root),
    files'.filterMap (s.decodedFile root) ++ s.records after, ?_, ?_⟩
  · have hfile : s.decodedFile root (name, some x.file) = s.decodedFile root ([], some x.file) := rfl
    have hlist : d.listed.filterMap (s.decodedFile root) = files.filterMap (s.decodedFile root) ++
        ((s.decodedFile root ([], some x.file)).toList ++ files'.filterMap (s.decodedFile root)) := by
      rw [hlisted, List.filterMap_append, List.filterMap_cons, hfile]
      cases s.decodedFile root ([], some x.file) <;> rfl
    have hall : s.records disk =
        s.records before ++ (d.listed.filterMap (s.decodedFile root) ++ s.records after) := by
      rw [hdisk]
      unfold State.records
      rw [List.flatMap_append, List.flatMap_cons]
      rfl
    rw [hall, hlist]
    simp only [List.append_assoc]
  · intro rec hrec
    apply hother rec
    rw [List.filterMap_append]
    simp only [List.append_assoc] at hrec ⊢
    exact hrec

theorem map_own_eq_iff (l : List (ℕ × Action × Own)) (own : Own) :
    (l.map fun a => (a.1, a.2.1)).map (fun a => (a.1, a.2, own)) = l ↔ ∀ a ∈ l, a.2.2 = own := by
  rw [List.map_map]
  induction l with
  | nil => exact ⟨fun _ a ha => absurd ha List.not_mem_nil, fun _ => rfl⟩
  | cons a l ih =>
    rw [List.map_cons, List.cons.injEq, ih, List.forall_mem_cons]
    apply and_congr_left'
    show (a.1, a.2.1, own) = (a.1, a.2.1, a.2.2) ↔ _
    rw [Prod.mk.injEq, Prod.mk.injEq]
    exact ⟨fun h => h.2.2.symm, fun h => ⟨rfl, rfl, h.symm⟩⟩

/-- What the two sources give is the request as it was, where the journal gives its operations and
all its actions have one owner. -/
theorem Mirrors.sameCleanup_iff (h : x.Mirrors id guardian me r) (r₁ : Req) (mon smon : Option Ref)
    (gen : ℕ) (stage : Stage) :
    r.SameCleanup { State.asked gen mon smon r₁ with
        stage
        actions := x.steward.actions.map fun a =>
          (a.1, a.2, if x.steward.adapterState.isSome then Own.transferred else .owned)
        cleanup := x.steward.adapterState
        nextSeq := x.steward.resumeSeq
        ledger := x.steward.doneResults } ↔
      r₁.ops = r.ops ∧ (r.cleanup = none ∨ ∀ a ∈ r.actions, a.2.2 = .transferred) := by
  have hown : (x.steward.actions.map fun a =>
      (a.1, a.2, if x.steward.adapterState.isSome then Own.transferred else .owned)) = r.actions ↔
      (r.cleanup = none ∨ ∀ a ∈ r.actions, a.2.2 = .transferred) := by
    rw [h.actions, map_own_eq_iff, h.cleanup]
    cases hcleanup : r.cleanup with
    | none => exact ⟨fun _ => .inl rfl, fun _ => h.owned hcleanup⟩
    | some a =>
      show (∀ a ∈ r.actions, a.2.2 = .transferred) ↔ _
      simp
  constructor
  · intro hsame
    exact ⟨hsame.ops, hown.mp hsame.actions⟩
  · intro ⟨hops, hmarks⟩
    have hactions := hown.mpr hmarks
    exact {
      ops := hops
      actions := hactions
      cleanup := h.cleanup
      nextSeq := h.resumeSeq_eq
      ledger := h.lookup_doneResults
      callbacks := by
        intro failed
        unfold Req.callbacks
        exact congrArg _ hactions }

theorem Mirrors.written (h : x.Mirrors id guardian me r) (hguardian : guardian.isProc = true)
    (hme : me.isProc = true) : r.Written where
  guardian := h.guardian ▸ hguardian
  steward := by
    intro p hp
    rw [h.steward] at hp
    cases hp
    exact hme
  paths := h.paths

theorem holds_fresh (x : Errand) (id : RequestId) (opts : Settings) (disk : Disk) :
    (x.reaper.fresh opts disk).Holds id none := ⟨rfl, List.not_mem_nil⟩

theorem lookup_adopted {r₁ : Req} (h : (x.swept opts disk).reqs.lookup id = some r₁) :
    (x.adopted id opts disk).reqs.lookup id = some { r₁ with
      stage := .live
      actions := x.steward.actions.map fun a =>
        (a.1, a.2, if x.steward.adapterState.isSome then Own.transferred else .owned)
      cleanup := x.steward.adapterState
      nextSeq := x.steward.resumeSeq
      ledger := x.steward.doneResults } := by
  unfold adopted State.adoptReply
  simp only [h]
  unfold State.handshakeReply
  simp only [State.putReq, AList.lookup_insert, if_true]

theorem lookup_adopted_none (h : (x.swept opts disk).reqs.lookup id = none) :
    (x.adopted id opts disk).reqs.lookup id = none := by
  unfold adopted State.adoptReply
  simp only [h]
  unfold State.handshakeReply
  rw [h]
  exact h

/-- The next reaper reads a file that has the id and the owners, or none. -/
theorem Mirrors.swept_cases (h : x.Mirrors id guardian me r) (hr : r.Written)
    (halive : guardian ∉ x.reaper.gone) (hdisk : x.OnDisk id root opts disk) :
    (x.swept opts disk).reqs.lookup id = none ∧
        (¬ fits id ∨ ∀ ops, decodeOps (disk.map (·.1)) (splitTrim '\n' (r.ops.flatMap encodeOp)) ≠
          .ok ops) ∨
      fits id ∧ ∃ ops mon smon,
        decodeOps (disk.map (·.1)) (splitTrim '\n' (r.ops.flatMap encodeOp)) = .ok ops ∧
        (x.swept opts disk).reqs.lookup id = some (State.asked (x.reaper.gen + 1) mon smon
          (reread (x.reaper.gen + 1) root { r with ops })) := by
  obtain ⟨bytes, hnamed⟩ := h.named
  obtain ⟨before, after, hrecords, hother⟩ := hdisk.records
  have hempty := holds_fresh x id opts disk
  have hdecoded : (x.reaper.fresh opts disk).decodedFile root ([], some x.file) =
      (decodeRecord (disk.map (·.1)) (incarnationOf bytes) (x.reaper.gen + 1) root
        (encodeRecord (incarnationOf bytes) id r)).toOption := by
    rw [← hnamed, ← h.file]
    rfl
  rw [hdecoded] at hrecords
  cases hread : decodeRecord (disk.map (·.1)) (incarnationOf bytes) (x.reaper.gen + 1) root
      (encodeRecord (incarnationOf bytes) id r) with
  | error e =>
    rw [hread] at hrecords
    left
    have hnone : ∀ rec ∈ (x.reaper.fresh opts disk).records disk, rec.id ≠ id := by
      rw [hrecords]
      intro rec hrec
      apply hother rec
      simpa [Except.toOption] using hrec
    refine ⟨State.sweep_forgets hempty hnone, ?_⟩
    by_cases hid : fits id
    · right
      intro ops hops
      rw [decodeRecord_of_fits bytes hr hid, hops] at hread
      cases hread
    · exact .inl hid
  | ok rec =>
    rw [hread] at hrecords
    by_cases hid : fits id
    · right
      refine ⟨hid, ?_⟩
      rw [decodeRecord_of_fits bytes hr hid] at hread
      cases hops : decodeOps (disk.map (·.1)) (splitTrim '\n' (r.ops.flatMap encodeOp)) with
      | error e =>
        rw [hops] at hread
        cases hread
      | ok ops =>
        rw [hops] at hread
        cases hread
        have hall : (x.reaper.fresh opts disk).records disk = before ++
            ⟨id, reread (x.reaper.gen + 1) root { r with ops }, .live⟩ :: after := by
          rw [hrecords, List.append_assoc]
          rfl
        have halive' : r.guardian ∉ (x.reaper.fresh opts disk).gone := by
          rw [h.guardian]
          exact halive
        obtain ⟨mon, smon, hlookup⟩ := State.sweep_adopts hempty hall hother rfl halive'
        exact ⟨ops, mon, smon, rfl, hlookup⟩
    · left
      have hother' : rec.id ≠ id := fun heq => hid (heq ▸ fits_of_decodeRecord hread)
      have hnone : ∀ rec ∈ (x.reaper.fresh opts disk).records disk, rec.id ≠ id := by
        rw [hrecords]
        intro rec' hrec
        simp only [List.mem_append, Except.toOption, Option.toList_some, List.mem_singleton] at hrec
        rcases hrec with (hrec | hrec) | hrec
        · exact hother rec' (List.mem_append_left _ hrec)
        · rw [hrec]
          exact hother'
        · exact hother rec' (List.mem_append_right _ hrec)
      exact ⟨State.sweep_forgets hempty hnone, .inl hid⟩

variable {s : State} {relpath : Name}

/-- A request comes through the end of its reaper where its record is read back and no action was
registered behind a transfer. -/
theorem survives_iff {bytes : List UInt8} (hnamed : s.incarnation = incarnationOf bytes)
    (haccepted : (s.reserve id guardian me root relpath).1 = none)
    (hguardian : guardian.isProc = true) (hme : me.isProc = true) (hrelpath : IsBinary relpath)
    (hx : Run.Reachable (step id me) (start id me s guardian root relpath) x)
    (hr : x.reaper.reqs.lookup id = some r) (halive : guardian ∉ x.reaper.gone)
    (hdisk : x.OnDisk id root opts disk) :
    (∃ r', (x.adopted id opts disk).reqs.lookup id = some r' ∧ r.SameCleanup r') ↔
      (fits id ∧ ∀ o ∈ r.ops, o.Plain (disk.map (·.1))) ∧
        (r.cleanup = none ∨ ∀ a ∈ r.actions, a.2.2 = .transferred) := by
  obtain ⟨r', h⟩ := mirrors_of_reachable hnamed haccepted hrelpath hx
  have hsame : r' = r := Option.some.inj (h.stored.symm.trans hr)
  subst hsame
  have hwritten := h.written hguardian hme
  have hback : decodeOps (disk.map (·.1)) (splitTrim '\n' (r'.ops.flatMap encodeOp)) =
      .ok r'.ops ↔ ∀ o ∈ r'.ops, o.Plain (disk.map (·.1)) := decodeOps_eq_iff hwritten.paths
  rcases h.swept_cases hwritten halive hdisk with ⟨hgone, hbad⟩ | hread
  · constructor
    · intro ⟨r₂, hr₂, _⟩
      rw [lookup_adopted_none hgone] at hr₂
      cases hr₂
    · intro ⟨⟨hid, hplain⟩, _⟩
      rcases hbad with hbad | hbad
      · exact absurd hid hbad
      · exact absurd (hback.mpr hplain) (hbad r'.ops)
  · obtain ⟨hid, ops, mon, smon, hops, hlookup⟩ := hread
    have hfinal := lookup_adopted hlookup
    have hiff := h.sameCleanup_iff (reread (x.reaper.gen + 1) root { r' with ops }) mon smon
      (x.reaper.gen + 1) .live
    constructor
    · intro ⟨r₂, hr₂, hkept⟩
      rw [hfinal] at hr₂
      cases hr₂
      have hboth := hiff.mp hkept
      refine ⟨⟨hid, hback.mp ?_⟩, hboth.2⟩
      rw [hops]
      exact congrArg Except.ok hboth.1
    · intro ⟨⟨_, hplain⟩, hmarks⟩
      have hall := hback.mpr hplain
      rw [hops] at hall
      exact ⟨_, hfinal, hiff.mpr ⟨Except.ok.inj hall, hmarks⟩⟩

/-! ## A fun behind a transfer -/

/-- A root of which the journal has one record. -/
def oneRecord (file : List Char) : Disk :=
  [("r".toList, {
    journal := [("x.rec".toList, some file)]
    journalListed := true
    quarantine := []
    quarantineListed := true
    names := ["req-x".toList]
    moves := fun _ => true })]

/-- A reaper that has read nothing. -/
def idle : State := (State.init (incarnationOf [255])).fresh small (oneRecord [])

def reserved : Errand :=
  start "x".toList (.proc 0 2 0) idle (.proc 0 1 0) "r".toList "req-x".toList

/-- A file and a fun are registered, the state is transferred, and one more fun is on its way. -/
def handedOver : List Act :=
  [.forward (.register (.op (.deleteFile "r".toList "a b".toList))), .answer quiet,
    .forward (.register (.run 1)), .forward (.transfer ⟨0, 0⟩), .answer quiet, .answer quiet,
    .forward (.register (.run 2))]

/-- The last fun is registered before the reaper dies. -/
def lateRun : List Act := handedOver ++ [.answer quiet]

theorem exists_run (acts : List Act) (p : Errand → Req → Bool)
    (h : (Run.exec (step "x".toList (.proc 0 2 0)) acts reserved).any (fun x =>
      (x.reaper.reqs.lookup "x".toList).any (p x) && x.reaper.gone = ∅) = true) :
    ∃ x r, Run.Reachable (step "x".toList (.proc 0 2 0)) reserved x ∧
      x.reaper.reqs.lookup "x".toList = some r ∧ x.reaper.gone = ∅ ∧ p x r = true ∧
      x.OnDisk "x".toList "r".toList small (oneRecord x.file) := by
  obtain ⟨x, hexec, hx⟩ := (Option.any_eq_true _ _).mp h
  rw [Bool.and_eq_true] at hx
  obtain ⟨r, hr, hp⟩ := (Option.any_eq_true _ _).mp hx.1
  have hdisk : x.OnDisk "x".toList "r".toList small (oneRecord x.file) :=
    ⟨"x.rec".toList, [], _, [], [], [], rfl, rfl, fun rec hrec => absurd hrec List.not_mem_nil⟩
  exact ⟨x, r, Run.Reachable.of_exec .init hexec, hr, of_decide_eq_true hx.2, hp, hdisk⟩

theorem survives_of_handedOver : ∃ x r, Run.Reachable (step "x".toList (.proc 0 2 0)) reserved x ∧
    x.reaper.reqs.lookup "x".toList = some r ∧ r.actions.length = 2 ∧ x.sent.length = 1 ∧
    ∃ r', (x.adopted "x".toList small (oneRecord x.file)).reqs.lookup "x".toList = some r' ∧
      r.SameCleanup r' := by
  obtain ⟨x, r, hx, hr, hgone, hp, hdisk⟩ := exists_run handedOver (fun x r =>
    decide (∀ o ∈ r.ops, o.Plain ["r".toList]) && r.actions.all (fun a => a.2.2 = .transferred) &&
      r.actions.length = 2 && x.sent.length = 1) (by decide +kernel)
  simp only [Bool.and_eq_true, decide_eq_true_eq, List.all_eq_true] at hp
  obtain ⟨⟨⟨hplain, hmarks⟩, hactions⟩, hsent⟩ := hp
  have halive : Pid.proc 0 1 0 ∉ x.reaper.gone := by
    rw [hgone]
    exact Finset.notMem_empty _
  have hsurvives := (survives_iff rfl (by decide +kernel) rfl rfl (by decide) hx hr
    halive hdisk).mpr ⟨⟨by decide, hplain⟩, .inr hmarks⟩
  exact ⟨x, r, hx, hr, hactions, hsent, hsurvives⟩

/-- The fun that was owned is transferred: it does not run where `cleanup/1` succeeds. -/
theorem not_survives_of_lateRun :
    ¬ ∀ x r, Run.Reachable (step "x".toList (.proc 0 2 0)) reserved x →
      x.reaper.reqs.lookup "x".toList = some r → x.reaper.gone = ∅ →
      x.OnDisk "x".toList "r".toList small (oneRecord x.file) →
      ∃ r', (x.adopted "x".toList small (oneRecord x.file)).reqs.lookup "x".toList = some r' ∧
        r.SameCleanup r' := by
  intro hall
  obtain ⟨x, r, hx, hr, hgone, hp, hdisk⟩ := exists_run lateRun (fun x r =>
    r.callbacks false = [2] &&
      ((x.adopted "x".toList small (oneRecord x.file)).reqs.lookup "x".toList).all
        fun r' => r'.callbacks false = []) (by decide +kernel)
  rw [Bool.and_eq_true, decide_eq_true_eq] at hp
  obtain ⟨r', hr', hsame⟩ := hall x r hx hr hgone hdisk
  have hnone := hp.2
  rw [hr'] at hnone
  have hcallbacks := hsame.callbacks false
  rw [hp.1, of_decide_eq_true hnone] at hcallbacks
  cases hcallbacks

end Errand

end ErlangWasm.Reaper
