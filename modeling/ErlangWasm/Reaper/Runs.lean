import ErlangWasm.Reaper.Sweep
import ErlangWasm.Reasoning.Run

/-!
# Runs of the reaper

The messages it takes in any order, the deaths of those it watches, and its restarts.  Beside the
reaper a run keeps what was asked of it and what came of it, which is what the claims speak of.
-/

namespace ErlangWasm.Reaper

open Reasoning
open Wasi (Name)

inductive Act
  | reserve (id : RequestId) (guardian steward : Pid) (root : RootId) (relpath : Name)
  | journalFailed (id : RequestId)
  /-- `register/2`, `withdraw/2` and `transfer/3` -/
  | call (id : RequestId) (op : Operation) (out : Outside)
  | apply (id : RequestId) (caller : Pid) (operation : RequestId × ℕ) (op : Operation)
      (out : Outside)
  | finish (id : RequestId)
  | down (ref : Ref) (why : State.Why) (out : Outside)
  | adoptReply (id : RequestId) (ledger : Table ℕ Reply) (nextSeq : ℕ)
      (actions : List (ℕ × Action)) (adapter : Option Adapter)
  | handshakeReply (id : RequestId) (yes : Bool)
  | fire (t : Timer)
  | die (p : Pid)
  | restart (opts : Settings) (disk : Disk)

/-- The reaper, the ids there have been, the requests whose `finish` was accepted, those whose
guardian denied them, and of this reaper those of another incarnation, those a job found nothing of
any more, and what the sweep removed. -/
structure Kept where
  reaper : State
  minted : Finset RequestId
  accepted : Finset RequestId
  denied : Finset RequestId
  orphans : Finset RequestId
  cleaned : Finset RequestId
  swept : List (RootId × RootDir × List Name)

namespace State

/-- The `finish` is carried out, of a request that is there. -/
def acceptsFinish (s : State) (id : RequestId) (caller : Pid) (operation : RequestId × ℕ)
    (op : Operation) : Bool :=
  match s.reqs.lookup id with
  | some r => op = .finish && s.authorisedCaller id caller &&
      (!(operation.1 = id && 1 ≤ operation.2) || (operation.2 = r.nextSeq && !r.finished))
  | none => false

/-- The request of which a job found nothing any more. -/
def cleanedBy (s : State) (ref : Ref) (why : Why) (out : Outside) : Option RequestId :=
  match s.mons.lookup ref with
  | some (.job p) =>
      match s.jobs.lookup p with
      | some (id, _) =>
          match s.reqs.lookup id with
          | some r => if jobSucceeded why r out then some id else none
          | none => none
      | none => none
  | _ => none

/-- The records of a disk that can be read, as the reaper decodes them. -/
def decoded (s : State) (root : RootId) (d : RootDir) : List Record :=
  d.listed.filterMap fun f => f.2.bind fun text =>
    (decodeRecord s.roots s.incarnation s.gen root text).toOption

def records (s : State) (disk : Disk) : List Record := disk.flatMap fun e => s.decoded e.1 e.2

/-- A reaper before there was any. -/
def init (incarnation : Name) : State where
  roots := []
  reqs := ∅
  mons := ∅
  queue := []
  jobs := ∅
  quarantined := 0
  gen := 0
  incarnation := incarnation
  opts := ⟨0, 0, 0, 0, 0⟩
  monitors := ∅
  timers := []
  gone := ∅
  nextRef := 0
  nextJob := 0
  spawned := []
  effects := []
  crashed := false

end State

namespace Kept

def init (incarnation : Name) : Kept := ⟨.init incarnation, ∅, ∅, ∅, ∅, ∅, []⟩

def restart (k : Kept) (opts : Settings) (disk : Disk) : Kept :=
  let s := k.reaper.fresh opts disk
  let records := s.records disk
  let swept := s.sweep disk
  { k with
    reaper := swept.1
    minted := k.minted ∪ (records.map (·.id)).toFinset
    orphans := ((records.filter fun r => r.kind = .orphan).map (·.id)).toFinset
    cleaned := ∅
    swept := swept.2 }

/-- A message to a reaper that is there.  Ids are minted: none is reserved twice.  A `'DOWN'` comes
of a process that is gone, and a timer that fires was armed. -/
def message (k : Kept) : Act → Option Kept
  | .reserve id guardian steward root relpath =>
      if id ∈ k.minted then none
      else some { k with
        reaper := (k.reaper.reserve id guardian steward root relpath).2
        minted := insert id k.minted }
  | .journalFailed id => some { k with reaper := k.reaper.reservationFailed id }
  | .call id op out =>
      if op = .finish then none else some { k with reaper := (k.reaper.applyOperation id op out).2 }
  | .apply id caller operation op out =>
      some { k with
        reaper := (k.reaper.apply id caller operation op out).2
        accepted :=
          if k.reaper.acceptsFinish id caller operation op then insert id k.accepted
          else k.accepted }
  | .finish id => some { k with reaper := k.reaper.finish id }
  | .down ref why out =>
      match k.reaper.monitors.lookup ref with
      | some p =>
          if p ∈ k.reaper.gone then
            some { k with
              reaper := k.reaper.down ref why out
              cleaned := match k.reaper.cleanedBy ref why out with
                | some id => insert id k.cleaned
                | none => k.cleaned }
          else none
      | none => none
  | .adoptReply id ledger nextSeq actions adapter =>
      if 1 ≤ nextSeq then
        some { k with reaper := k.reaper.adoptReply id ledger nextSeq actions adapter }
      else none
  | .handshakeReply id yes =>
      some { k with
        reaper := k.reaper.handshakeReply id yes
        denied := if yes then k.denied else insert id k.denied }
  | .fire t => if t ∈ k.reaper.timers then some { k with reaper := k.reaper.fire t } else none
  | .die _ | .restart _ _ => none

def step (k : Kept) : Act → Option Kept
  | .die p => some { k with reaper := { k.reaper with gone := insert p k.reaper.gone } }
  | .restart opts disk => some (k.restart opts disk)
  | act => if k.reaper.crashed then none else k.message act

end Kept

/-! ## Stages -/

/-- Not in cleanup. -/
def Stage.waits : Stage → Bool
  | .live | .pending | .held => true
  | .queued | .running | .complete => false

namespace State

/-- The jobs that work on a request. -/
def working (s : State) (id : RequestId) : ℕ :=
  Table.total (fun _ e => if e.1 = id then 1 else 0) s.jobs

def Watches (s : State) (ref : Ref) : What → Prop
  | .guardian id => ∃ r, s.reqs.lookup id = some r ∧ r.mon = some ref
  | .steward id => ∃ r, s.reqs.lookup id = some r ∧ r.smon = some ref
  | .job p => ∃ id, s.jobs.lookup p = some (id, ref)

/-- The `'DOWN'` of an owner will come. -/
def Guarded (s : State) (r : Req) : Prop :=
  ∃ ref, r.mon = some ref ∧ s.monitors.lookup ref = some r.guardian

def Stewarded (s : State) (r : Req) : Prop :=
  ∃ ref p, r.smon = some ref ∧ r.steward = some p ∧ s.monitors.lookup ref = some p

/-- Where a request is, and that it is nowhere else. -/
structure Stands (s : State) (id : RequestId) (r : Req) : Prop where
  waits : r.stage.waits = true → (s.Guarded r ∨ s.Stewarded r) ∧ s.queue.count id = 0 ∧
    s.timers.count (.cleanup id) = 0 ∧ s.working id = 0
  queued : r.stage = .queued →
    s.queue.count id + s.timers.count (.cleanup id) = 1 ∧ s.working id = 0
  running : r.stage = .running →
    s.working id = 1 ∧ s.queue.count id = 0 ∧ s.timers.count (.cleanup id) = 0
  complete : r.stage = .complete → r.finished = true ∧ s.Stewarded r ∧ s.queue.count id = 0 ∧
    s.timers.count (.cleanup id) = 0 ∧ s.working id = 0

end State

structure Kept.Staged (k : Kept) : Prop where
  index : ∀ ref what, k.reaper.mons.lookup ref = some what ↔ k.reaper.Watches ref what
  stands : ∀ id r, k.reaper.reqs.lookup id = some r → k.reaper.Stands id r
  once : ∀ id, k.reaper.working id ≤ 1
  jobs : ∀ p id ref, k.reaper.jobs.lookup p = some (id, ref) → k.reaper.monitors.lookup ref = some p
  cleaned : ∀ id ∈ k.cleaned, k.reaper.working id = 0
  /-- what is queued waits for a job to end -/
  pumped : k.reaper.queue ≠ [] → k.reaper.opts.maxCleanupJobs ≤ k.reaper.jobs.entries.length
  found : ∀ ref why out, (k.reaper.ownerDown ref why out).isSome

/-- The request is not in cleanup, if it is there at all. -/
def State.waiting (s : State) (id : RequestId) : Bool :=
  (s.reqs.lookup id).all fun r => r.stage.waits

/-- What sends a request to cleanup, or takes it back, finds it elsewhere.  No two records are of one
request. -/
def undisturbed (s : State) : Act → Bool
  | .handshakeReply id _ => s.waiting id
  | .apply id caller operation op _ => !s.acceptsFinish id caller operation op || s.waiting id
  | .down ref _ _ =>
      match s.mons.lookup ref with
      | some (.guardian id) =>
          (s.reqs.lookup id).all fun r => r.smon.isSome || r.stage.waits
      | some (.steward id) =>
          (s.reqs.lookup id).all fun r => r.finished || r.mon.isSome || r.stage.waits
      | _ => true
  | .restart opts disk => (((s.fresh opts disk).records disk).map (·.id)).Nodup
  | _ => true

abbrev Undisturbed (k : Kept) (act : Act) : Prop := undisturbed k.reaper act = true

/-! ## Owners -/

/-- There is a reason to clean up after the request. -/
def Kept.Justified (k : Kept) (id : RequestId) (r : Req) : Prop :=
  id ∈ k.accepted ∨ id ∈ k.denied ∨ id ∈ k.orphans ∨
    r.guardian ∈ k.reaper.gone ∧ ∀ p, r.steward = some p → p ∈ k.reaper.gone

/-- The directory of a request that a record in a journal names. -/
def State.named (s : State) (root : RootId) (f : Name × Option (List Char)) : Name :=
  match f.2.bind fun text => (decodeRecord s.roots s.incarnation s.gen root text).toOption with
  | some rec => rec.req.relpath
  | none => reqPrefix ++ rootname f.1

structure Kept.Respects (k : Kept) : Prop where
  jobs : ∀ e ∈ k.reaper.spawned, k.Justified e.1 e.2
  journal : ∀ e ∈ k.swept, ∀ f ∈ e.2.1.records, k.reaper.named e.1 f ∉ e.2.2
  quarantine : ∀ e ∈ k.swept, ∀ n ∈ e.2.1.quarantine, suffix.isSuffixOf n = true →
    reqPrefix ++ rootname n ∉ e.2.2

/-- The journal and the quarantine can be listed, the records read, and those that make no sense
moved. -/
def State.legible (s : State) (root : RootId) (d : RootDir) : Bool :=
  d.journalListed && d.quarantineListed && d.records.all fun f =>
    match f.2 with
    | some text => (decodeRecord s.roots s.incarnation s.gen root text).isOk || d.moves f.1
    | none => false

/-- A reaper starts with no request of which the guardian alone is gone, and with a disk it can
read. -/
def attended (s : State) : Act → Bool
  | .restart opts disk =>
      let s := s.fresh opts disk
      ((s.records disk).map (·.id)).Nodup &&
      (s.records disk).all (fun rec => rec.kind = .orphan || s.isAlive rec.req.guardian ||
        rec.req.steward.all fun p => !s.isAlive p) &&
      disk.all fun e => s.legible e.1 e.2
  | _ => true

abbrev Attended (k : Kept) (act : Act) : Prop := attended k.reaper act = true

end ErlangWasm.Reaper

/-!
## The attempts at a request

Beside what a run of the reaper keeps, what its jobs left behind: for each request, of each job that
ended while it was there, whether something that its operations name was still there.  The backoff
list is looked up before a retry, and that fails where it is empty.
-/

namespace ErlangWasm.Reaper

open Reasoning
open Wasi (Name)

namespace State

/-- `lists:nth/2`, which counts from one. -/
def nth {α : Type} : ℕ → List α → Option α
  | 0, _ => none
  | n + 1, l => l[n]?

/-- `lists:nth(min(N + 1, length(Offs)), Offs)`. -/
def backoff (offs : List ℕ) (n : ℕ) : Option ℕ := nth (min (n + 1) offs.length) offs

/-- `all_gone/2`. -/
def allGone (ops : List RecoverOp) (out : Outside) : Bool := ops.all fun o => !out.present o

/-- What the job was started with. -/
def given (s : State) : Pid → Option Req
  | .job n => (s.spawned[n + s.spawned.length - s.nextJob]?).map (·.2)
  | _ => none

/-- The job that ended, and the request that is there. -/
def ended (s : State) (ref : Ref) : Option (Pid × RequestId × Req) :=
  match s.mons.lookup ref with
  | some (.job p) => (s.jobs.lookup p).bind fun e => (s.reqs.lookup e.1).map fun r => (p, e.1, r)
  | _ => none

/-- A job that ran to its end says what is left of the operations it was started with. -/
def reports (s : State) (p : Pid) (why : Why) (out : Outside) : Bool :=
  match why with
  | .cleaned gone => (s.given p).all fun r => gone = allGone r.ops out
  | .other => true

/-- It speaks of the operations that the request has. -/
def current (s : State) (p : Pid) (r : Req) : Why → Bool
  | .cleaned _ => (s.given p).any fun r' => r'.ops = r.ops
  | .other => true

end State

/-- The newest attempt comes first. -/
structure Account where
  kept : Kept
  left : RequestId → List Bool
  /-- an attempt failed that is not the last, and no timer has fired since -/
  resting : RequestId → Bool

namespace Account

def init (incarnation : Name) : Account := ⟨.init incarnation, fun _ => [], fun _ => false⟩

/-- The attempts after the first failure that are allowed. -/
abbrev retries (a : Account) : ℕ := a.kept.reaper.opts.cleanupRetries

/-- The reaper crashes that has no backoff for a retry. -/
def retried (offs : List ℕ) (a : Account) (kept : Kept) (r : Req) (why : State.Why)
    (out : Outside) : Kept :=
  if r.attempts < a.retries ∧ State.jobSucceeded why r out = false ∧
      State.backoff offs r.attempts = none then
    { a.kept with reaper := { a.kept.reaper with crashed := true } }
  else kept

def attempted (offs : List ℕ) (a : Account) (kept : Kept) (id : RequestId) (r : Req)
    (why : State.Why) (out : Outside) : Account :=
  let gone := State.allGone r.ops out
  { kept := a.retried offs kept r why out
    left := fun j => if j = id then (!gone) :: a.left j else a.left j
    resting := fun j =>
      if j = id then (a.left j).length < a.retries && !gone else a.resting j }

def step (offs : List ℕ) (a : Account) (act : Act) : Option Account :=
  match a.kept.step act with
  | none => none
  | some kept =>
      match act with
      | .down ref why out =>
          match a.kept.reaper.ended ref with
          | some (p, id, r) =>
              if a.kept.reaper.reports p why out then some (a.attempted offs kept id r why out)
              else none
          | none => some { a with kept }
      | .fire (.cleanup id) =>
          some { a with kept, resting := fun j => if j = id then false else a.resting j }
      | .restart _ _ => some { kept, left := fun _ => [], resting := fun _ => false }
      | _ => some { a with kept }

/-! ## The accounts are exact -/

/-- Dropped, its record removed, or kept for its steward to know. -/
def Done (a : Account) (id : RequestId) : Prop :=
  match a.kept.reaper.reqs.lookup id with
  | some r => r.stage = .complete
  | none => .journal (.delete id) ∈ a.kept.reaper.effects

/-- Its record is in the quarantine, and it takes no place. -/
def Quarantined (a : Account) (id : RequestId) : Prop :=
  .journal (.quarantine id) ∈ a.kept.reaper.effects ∧
    .journal (.delete id) ∉ a.kept.reaper.effects ∧ a.kept.reaper.reqs.lookup id = none

/-- Of every request: -/
structure Exact (a : Account) (id : RequestId) : Prop where
  /-- the first job that leaves nothing is the last, and no more jobs than are allowed fail -/
  attempts : (∃ n ≤ a.retries + 1, a.left id = List.replicate n true) ∨
    ∃ n ≤ a.retries, a.left id = false :: List.replicate n true
  /-- it is done with once nothing is left -/
  done : ∀ before, a.left id = false :: before → a.Done id
  quarantined : .journal (.quarantine id) ∈ a.kept.reaper.effects ↔
    a.left id = List.replicate (a.retries + 1) true
  kept : .journal (.quarantine id) ∈ a.kept.reaper.effects → a.Quarantined id
  /-- until then it counts the jobs that failed -/
  counted : ∀ r, a.kept.reaper.reqs.lookup id = some r → r.stage ≠ .complete →
    a.left id = List.replicate r.attempts true ∧ r.attempts ≤ a.retries
  complete : ∀ r, a.kept.reaper.reqs.lookup id = some r → r.stage = .complete →
    ∃ before, a.left id = false :: before
  /-- one timer is armed between two attempts, and no other -/
  resting : ∀ r, a.kept.reaper.reqs.lookup id = some r →
    a.kept.reaper.timers.count (.cleanup id) = if a.resting id then 1 else 0
  idle : ∀ r, a.kept.reaper.reqs.lookup id = some r → a.resting id = true →
    r.stage = .queued ∧ a.kept.reaper.queue.count id = 0 ∧ a.kept.reaper.working id = 0

/-- No job ends that says nothing of an operation the request has, the last one allowed leaves
something, and the one before it finds a backoff. -/
def counts (offs : List ℕ) (a : Account) : Act → Bool
  | .down ref why out =>
      (a.kept.reaper.ended ref).all fun e =>
        a.kept.reaper.current e.1 e.2.2 why &&
          if State.allGone e.2.2.ops out then e.2.2.attempts < a.retries
          else a.retries ≤ e.2.2.attempts || offs ≠ []
  | _ => true

abbrev Counted (offs : List ℕ) (a : Account) (act : Act) : Prop :=
  Undisturbed a.kept act ∧ a.counts offs act = true

end Account

end ErlangWasm.Reaper
