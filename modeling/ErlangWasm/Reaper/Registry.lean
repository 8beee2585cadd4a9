import ErlangWasm.Reasoning.Table
import ErlangWasm.Wasi.Names

/-!
# The registry of the cleanup reaper

`wasm_worker_reaper` between two restarts: the requests it holds, the monitors it indexes, the queue
and the jobs.  Beside `#st{}` the state has what the runtime keeps for it, which is the monitors that
are set, the timers that are armed and the processes that are gone.  What it sends and has written
is kept in order; what comes back from the file system is said with each message.
-/

namespace ErlangWasm.Reaper

open Reasoning
open Wasi (Name)

inductive Pid
  /-- as in `<Node.Id.Serial>` -/
  | proc (node id serial : ℕ)
  | job (n : ℕ)
  | reaper (gen : ℕ)
  deriving DecidableEq

abbrev Ref := ℕ
abbrev RequestId := Name
abbrev RootId := Name

/-! ## Operations -/

inductive RecoverOp
  | removeTree (root : RootId) (path : Name)
  | deleteFile (root : RootId) (path : Name)
  deriving DecidableEq

inductive Action
  /-- a fun -/
  | run (f : ℕ)
  | op (o : RecoverOp)
  deriving DecidableEq

inductive Own
  | owned
  | transferred
  deriving DecidableEq

structure Adapter where
  module : ℕ
  state : ℕ
  deriving DecidableEq

inductive Operation
  | register (a : Action)
  | withdraw (token : ℕ)
  | transfer (a : Adapter)
  | finish
  deriving DecidableEq

inductive Failure
  | unknownRoot (root : RootId)
  | noCleanupCapacity
  | tooManyActions (max : ℕ)
  | tooManyOperations (max : ℕ)
  | noReaper
  | unauthorised
  | requestFinished
  | journalWrite
  deriving DecidableEq

inductive Release
  | released
  | cleanupFailed
  deriving DecidableEq

inductive Reply
  | ok
  | token (t : ℕ)
  | error (e : Failure)
  | unowned (e : Failure) (r : Release)
  | resend (next : ℕ)
  /-- the process ends with the call -/
  | exit
  deriving DecidableEq

/-- How the outside answers while a message is handled. -/
structure Outside where
  /-- a record is written -/
  writes : Bool
  /-- a fun comes to its end -/
  ends : ℕ → Bool
  present : RecoverOp → Bool

/-! ## The state -/

inductive Stage
  | live
  | pending
  | held
  | queued
  | running
  | complete
  deriving DecidableEq

/-- `#req{}`; its id is its key. -/
structure Req where
  stage : Stage
  guardian : Pid
  steward : Option Pid
  mon : Option Ref
  smon : Option Ref
  root : RootId
  relpath : Name
  ops : List RecoverOp
  actions : List (ℕ × Action × Own)
  nextToken : ℕ
  nextSeq : ℕ
  ledger : Table ℕ Reply
  finished : Bool
  cleanup : Option Adapter
  attempts : ℕ
  tries : ℕ
  gen : ℕ

inductive What
  | guardian (id : RequestId)
  | steward (id : RequestId)
  | job (p : Pid)
  deriving DecidableEq

inductive Timer
  | cleanup (id : RequestId)
  | handshake (id : RequestId)
  deriving DecidableEq

inductive Note
  | handshake (id : RequestId)
  | orphaned (id : RequestId)
  | complete (id : RequestId)
  | adoptRequest (gen : ℕ) (id : RequestId)
  deriving DecidableEq

/-- What a journal writer is sent. -/
inductive Write
  | reserve (id : RequestId) (ops : List RecoverOp)
  | write (id : RequestId) (ops : List RecoverOp)
  | delete (id : RequestId)
  | quarantine (id : RequestId)
  deriving DecidableEq

inductive Effect
  | tell (p : Pid) (n : Note)
  | journal (w : Write)
  deriving DecidableEq

structure Settings where
  maxCleanupJobs : ℕ
  cleanupQueueLen : ℕ
  cleanupRetries : ℕ
  maxCleanupActions : ℕ
  maxCleanupOperations : ℕ

structure State where
  roots : List RootId
  reqs : Table RequestId Req
  mons : Table Ref What
  queue : List RequestId
  jobs : Table Pid (RequestId × Ref)
  quarantined : ℕ
  gen : ℕ
  incarnation : Name
  opts : Settings
  /-- the monitors that are set, and whom they watch -/
  monitors : Table Ref Pid
  timers : List Timer
  gone : Finset Pid
  /-- the next reference, and the next job -/
  nextRef : ℕ
  nextJob : ℕ
  /-- the jobs that were started, with what they were given -/
  spawned : List (RequestId × Req)
  effects : List Effect
  /-- a match failed, and the process with it -/
  crashed : Bool

namespace State

def tell (s : State) (p : Pid) (n : Note) : State := { s with effects := s.effects ++ [.tell p n] }

def journal (s : State) (w : Write) : State := { s with effects := s.effects ++ [.journal w] }

/-- `erlang:monitor/2`; the reference is the one before. -/
def monitor (s : State) (p : Pid) : State :=
  { s with monitors := s.monitors.insert s.nextRef p, nextRef := s.nextRef + 1 }

/-- `drop_monitor/1`. -/
def dropMonitor (s : State) : Option Ref → State
  | none => s
  | some ref => { s with monitors := s.monitors.erase ref }

/-- `erlang:send_after/3`. -/
def arm (s : State) (t : Timer) : State := { s with timers := t :: s.timers }

/-! ## `put_req/2` -/

def index (ref : Option Ref) (what : What) (mons : Table Ref What) : Table Ref What :=
  match ref with
  | none => mons
  | some ref => mons.insert ref what

def unindex (ref : Option Ref) (mons : Table Ref What) : Table Ref What :=
  match ref with
  | none => mons
  | some ref => mons.erase ref

def reindex (s : State) (id : RequestId) (r : Req) : Table Ref What :=
  match s.reqs.lookup id with
  | some old =>
      if old.mon = r.mon ∧ old.smon = r.smon then s.mons
      else
        index r.mon (.guardian id)
          (index r.smon (.steward id) (unindex old.mon (unindex old.smon s.mons)))
  | none => index r.mon (.guardian id) (index r.smon (.steward id) s.mons)

def putReq (s : State) (id : RequestId) (r : Req) : State :=
  { s with mons := s.reindex id r, reqs := s.reqs.insert id r }

def dropReq (s : State) (id : RequestId) : State :=
  match s.reqs.lookup id with
  | some r =>
      { s with mons := unindex r.mon (unindex r.smon s.mons), reqs := s.reqs.erase id }
  | none => s

/-! ## Scheduling -/

/-- `start_job/2`, and what `pump_one/3` stores. -/
def startJob (s : State) (id : RequestId) (r : Req) : State :=
  let pid := Pid.job s.nextJob
  { s.monitor pid with
    nextJob := s.nextJob + 1
    spawned := s.spawned ++ [(id, r)]
    mons := index (some s.nextRef) (.job pid) s.mons
    jobs := s.jobs.insert pid (id, s.nextRef)
    reqs := s.reqs.insert id { r with stage := .running } }

def pumpOne (s : State) (id : RequestId) : State :=
  match s.reqs.lookup id with
  | none => s
  | some r => s.startJob id r

/-- `pump/1`, of a queue that is still to be taken from. -/
def pumpFrom : List RequestId → State → State
  | [], s => { s with queue := [] }
  | id :: rest, s =>
      if s.jobs.entries.length ≥ s.opts.maxCleanupJobs then { s with queue := id :: rest }
      else pumpFrom rest (s.pumpOne id)

def pump (s : State) : State := pumpFrom s.queue s

def schedule (s : State) (id : RequestId) (r : Req) : State :=
  { s.putReq id r with queue := s.queue ++ [id] }.pump

/-! ## The end of a job -/

inductive Why
  /-- `{cleaned, Gone}` -/
  | cleaned (gone : Bool)
  | other
  deriving DecidableEq

def jobSucceeded (why : Why) (r : Req) (out : Outside) : Bool :=
  match why with
  | .cleaned gone => gone
  | .other => r.ops.all fun o => !out.present o

def quarantine (s : State) (id : RequestId) : State :=
  let s := (s.journal (.quarantine id)).dropReq id
  { s with quarantined := s.quarantined + 1 }

def cleanupDone (s : State) (id : RequestId) (r : Req) : State :=
  match r.finished, r.smon, r.steward with
  | true, some _, some steward =>
      (s.tell steward (.complete id)).putReq id { r with stage := .complete }
  | _, _, _ => (s.journal (.delete id)).dropReq id

def jobFinished (s : State) (id : RequestId) (why : Why) (out : Outside) : State :=
  match s.reqs.lookup id with
  | none => s
  | some r =>
      if r.attempts ≥ s.opts.cleanupRetries then s.quarantine id
      else if jobSucceeded why r out then s.cleanupDone id r
      else (s.arm (.cleanup id)).putReq id { r with attempts := r.attempts + 1, stage := .queued }

def jobDown (s : State) (ref : Ref) (p : Pid) (why : Why) (out : Outside) : Option State :=
  match s.jobs.lookup p with
  | some (id, mon) =>
      if mon = ref then
        let s := { s with jobs := s.jobs.erase p, mons := unindex (some ref) s.mons }
        some (s.jobFinished id why out).pump
      else none
  | none => none

/-! ## Registering -/

def isDurable : Action → Bool
  | .op _ => true
  | .run _ => false

def durable (actions : List (ℕ × Action × Own)) (token : ℕ) : Bool :=
  match actions.find? fun a => a.1 = token with
  | some a => isDurable a.2.1
  | none => false

def opsOf (r : Req) : List RecoverOp :=
  .removeTree r.root r.relpath :: r.actions.reverse.filterMap fun a =>
    match a.2.1 with
    | .op o => some o
    | .run _ => none

/-- `unreachable/1`. -/
def unreachable (a : Action) (out : Outside) : Reply :=
  match a with
  | .run f => .unowned .noReaper (if out.ends f then .released else .cleanupFailed)
  | .op _ => .unowned .noReaper .cleanupFailed

def doRegister (s : State) (id : RequestId) (r : Req) (a : Action) (token : ℕ) (out : Outside) :
    Reply × State :=
  let r := { r with actions := (token, a, .owned) :: r.actions }
  if isDurable a then
    let r := { r with ops := opsOf r }
    let s := s.journal (.write id r.ops)
    if out.writes then (.token token, s.putReq id r)
    else (.unowned .journalWrite .cleanupFailed, s)
  else (.token token, s.putReq id r)

/-- `register_target/3`. -/
def registerTarget (s : State) (id : RequestId) (a : Action) (out : Outside) : Except Reply Req :=
  match s.reqs.lookup id with
  | none => .error (unreachable a out)
  | some r =>
      if r.actions.length ≥ s.opts.maxCleanupActions then
        .error (.unowned (.tooManyActions s.opts.maxCleanupActions) .cleanupFailed)
      else .ok r

/-- The token is the request's own counter. -/
def opRegister (s : State) (id : RequestId) (a : Action) (out : Outside) : Reply × State :=
  match s.registerTarget id a out with
  | .error reply => (reply, s)
  | .ok r => s.doRegister id { r with nextToken := r.nextToken + 1 } a r.nextToken out

/-- The token is the sequence. -/
def applyRegister (s : State) (id : RequestId) (a : Action) (seq : ℕ) (out : Outside) :
    Reply × State :=
  match s.registerTarget id a out with
  | .error reply => (reply, s)
  | .ok r => s.doRegister id r a seq out

def opWithdraw (s : State) (id : RequestId) (token : ℕ) (out : Outside) : Reply × State :=
  match s.reqs.lookup id with
  | none => (.ok, s)
  | some r =>
      let r' := { r with actions := r.actions.filter fun a => a.1 ≠ token }
      if durable r.actions token then
        let r' := { r' with ops := opsOf r' }
        let s := s.journal (.write id r'.ops)
        if out.writes then (.ok, s.putReq id r') else (.error .journalWrite, s)
      else (.ok, s.putReq id r')

def opTransfer (s : State) (id : RequestId) (a : Adapter) : Reply × State :=
  match s.reqs.lookup id with
  | none => (.error .noReaper, s)
  | some r =>
      let actions := r.actions.map fun a => (a.1, a.2.1, Own.transferred)
      (.ok, s.putReq id { r with actions := actions, cleanup := some a })

def opFinish (s : State) (id : RequestId) : Reply × State :=
  match s.reqs.lookup id with
  | none => (.ok, s)
  | some r =>
      (.ok, (s.dropMonitor r.mon).schedule id
        { r with mon := none, finished := true, stage := .queued })

def applyOperation (s : State) (id : RequestId) (op : Operation) (out : Outside) : Reply × State :=
  match op with
  | .register a => s.opRegister id a out
  | .withdraw token => s.opWithdraw id token out
  | .transfer a => s.opTransfer id a
  | .finish => s.opFinish id

/-! ## The transport -/

/-- It has no clause for `finish`. -/
def overLimit (s : State) : Operation → Reply × State
  | .register _ => (.unowned (.tooManyOperations s.opts.maxCleanupOperations) .cleanupFailed, s)
  | .withdraw _ | .transfer _ => (.error (.tooManyOperations s.opts.maxCleanupOperations), s)
  | .finish => (.exit, { s with crashed := true })

def applySequencedOp (s : State) (id : RequestId) (seq : ℕ) (op : Operation) (out : Outside) :
    Reply × State :=
  match op with
  | .register a => s.applyRegister id a seq out
  | op => s.applyOperation id op out

def advanceLedger (s : State) (id : RequestId) (seq : ℕ) (reply : Reply) : State :=
  match s.reqs.lookup id with
  | some r => s.putReq id { r with nextSeq := seq + 1, ledger := r.ledger.insert seq reply }
  | none => s

def applySequenced (s : State) (id : RequestId) (r : Req) (seq : ℕ) (op : Operation)
    (out : Outside) : Reply × State :=
  if seq < r.nextSeq then
    match r.ledger.lookup seq with
    | some stored => (stored, s)
    | none => s.overLimit op
  else if r.finished then (.error .requestFinished, s)
  else if r.nextSeq < seq then (.resend r.nextSeq, s)
  else if op ≠ .finish ∧ s.opts.maxCleanupOperations < seq then
    ((s.overLimit op).1, s.putReq id { r with nextSeq := seq + 1 })
  else
    let done := s.applySequencedOp id seq op out
    (done.1, done.2.advanceLedger id seq done.1)

/-- `operation` is the id and the sequence it was sent under. -/
def applyTransported (s : State) (id : RequestId) (operation : RequestId × ℕ) (op : Operation)
    (out : Outside) : Reply × State :=
  if operation.1 = id ∧ 1 ≤ operation.2 then
    match s.reqs.lookup id with
    | none => s.applyOperation id op out
    | some r => s.applySequenced id r operation.2 op out
  else s.applyOperation id op out

/-- `authorised_caller/3`. -/
def authorisedCaller (s : State) (id : RequestId) (caller : Pid) : Bool :=
  match (s.reqs.lookup id).bind (·.steward) with
  | some steward => caller = steward
  | none => true

/-! ## Messages -/

def hasCapacity (s : State) : Bool :=
  s.reqs.entries.length < s.opts.maxCleanupJobs + s.opts.cleanupQueueLen

/-- `none` where the journal writer answers. -/
def reserve (s : State) (id : RequestId) (guardian steward : Pid) (root : RootId) (relpath : Name) :
    Option Reply × State :=
  if root ∉ s.roots then (some (.error (.unknownRoot root)), s)
  else if s.hasCapacity then
    let r : Req := {
      stage := .live
      guardian
      steward := some steward
      mon := some s.nextRef
      smon := some (s.nextRef + 1)
      root
      relpath
      ops := [.removeTree root relpath]
      actions := []
      nextToken := 1
      nextSeq := 1
      ledger := ∅
      finished := false
      cleanup := none
      attempts := 0
      tries := 0
      gen := s.gen }
    (none, (((s.monitor guardian).monitor steward).journal (.reserve id r.ops)).putReq id r)
  else (some (.error .noCleanupCapacity), s)

def apply (s : State) (id : RequestId) (caller : Pid) (operation : RequestId × ℕ) (op : Operation)
    (out : Outside) : Reply × State :=
  if s.authorisedCaller id caller then s.applyTransported id operation op out
  else (.error .unauthorised, s)

def reservationFailed (s : State) (id : RequestId) : State :=
  match s.reqs.lookup id with
  | some r =>
      if r.stage = .live then ((s.dropMonitor r.mon).dropMonitor r.smon).dropReq id else s
  | none => s

/-- `finish/1`, of a guardian that cleaned up itself. -/
def finish (s : State) (id : RequestId) : State :=
  match s.reqs.lookup id with
  | none => s
  | some r => (((s.dropMonitor r.mon).dropMonitor r.smon).journal (.delete id)).dropReq id

def guardianDown (s : State) (id : RequestId) (r : Req) : State :=
  match r.smon with
  | none => s.schedule id { r with mon := none, stage := .queued }
  | some _ =>
      let s := match r.steward with
        | some steward => s.tell steward (.orphaned id)
        | none => s
      s.putReq id { r with mon := none }

def stewardDown (s : State) (id : RequestId) (r : Req) : State :=
  if r.finished then
    if r.stage = .complete then (s.journal (.delete id)).dropReq id
    else s.putReq id { r with smon := none }
  else
    match r.mon with
    | none => s.schedule id { r with smon := none, stage := .queued }
    | some _ => s.putReq id { r with smon := none }

/-- Where a lookup fails there is no state to go on with. -/
def ownerDown (s : State) (ref : Ref) (why : Why) (out : Outside) : Option State :=
  match s.mons.lookup ref with
  | some (.guardian id) => (s.reqs.lookup id).map (s.guardianDown id)
  | some (.steward id) => (s.reqs.lookup id).map (s.stewardDown id)
  | some (.job p) => s.jobDown ref p why out
  | none => some s

/-- The `'DOWN'` of a monitor, which is gone with it. -/
def down (s : State) (ref : Ref) (why : Why) (out : Outside) : State :=
  match s.ownerDown ref why out with
  | some s => { s with monitors := s.monitors.erase ref }
  | none => { s with crashed := true }

def adoptReply (s : State) (id : RequestId) (ledger : Table ℕ Reply) (nextSeq : ℕ)
    (actions : List (ℕ × Action)) (adapter : Option Adapter) : State :=
  match s.reqs.lookup id with
  | none => s
  | some r =>
      let own := if adapter.isSome then Own.transferred else .owned
      s.putReq id { r with
        actions := actions.map fun a => (a.1, a.2, own)
        cleanup := adapter
        nextSeq := nextSeq
        ledger := ledger }

def handshakeReply (s : State) (id : RequestId) (yes : Bool) : State :=
  match s.reqs.lookup id with
  | none => s
  | some r =>
      if yes then s.putReq id { r with stage := .live }
      else s.schedule id { r with stage := .queued }

/-- `ask/1`. -/
def ask (s : State) (id : RequestId) (r : Req) : State :=
  (s.tell r.guardian (.handshake id)).arm (.handshake id)

def handshakeRetries : ℕ := 3

def retryHandshake (s : State) (id : RequestId) : State :=
  match s.reqs.lookup id with
  | some r =>
      if r.stage = .pending then
        if r.tries < handshakeRetries then
          let r := { r with tries := r.tries + 1 }
          (s.ask id r).putReq id r
        else s.putReq id { r with stage := .held }
      else s
  | none => s

def retryCleanup (s : State) (id : RequestId) : State :=
  match s.reqs.lookup id with
  | some r => s.schedule id { r with stage := .queued }
  | none => s

/-- A timer that fires is armed no more. -/
def fire (s : State) (t : Timer) : State :=
  let s := { s with timers := s.timers.erase t }
  match t with
  | .cleanup id => s.retryCleanup id
  | .handshake id => s.retryHandshake id

end State

end ErlangWasm.Reaper
