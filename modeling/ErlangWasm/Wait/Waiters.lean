import ErlangWasm.Reasoning.Run
import ErlangWasm.Reasoning.Table

/-!
# Parked agents and their wakeups

`wasm_wait` parks an agent in a `receive` and finds it again through the rows of one `ets` bag,
`wasm_waiters`.  The bag holds two kinds of rows: `{Key, Pid, Ref}` for a wait that is registered,
and `{{claimed, Ref}, Pid}` for a notifier that is about to wake it.  Every `ets` operation, send,
`receive`, monitor and `is_process_alive/1` is one step here, and a process can be killed before
any of them.  The table belongs to the engine and outlives every process in the model, so
`ensure_table/0` finds it and `claimer/1` never sees a `badarg`.

Time is not modelled: a `receive` with a timeout may give up whenever it stands in `park/3`, and
one without never does.  What `Read()` answers is an input of the step.

`issued`, `wakes`, `answers` and `reports` are not the source's.  No step reads them; they record
the waits begun, the waits a notifier has claimed, and what each call answered.
-/

namespace ErlangWasm.Wait

open Reasoning

/-- What `make_ref/0` and `monitor/2` answer: references are numbered in the order they are made. -/
abbrev Ref := ℕ

/-- `{MemId, Addr}`, memories numbered. -/
structure Key where
  memId : ℕ
  addr : ℕ
  deriving DecidableEq, Repr

/-- A `{Key, Pid, Ref}` row. -/
structure Entry (P : Type) where
  key : Key
  pid : P
  ref : Ref
  deriving DecidableEq, Repr

inductive Mail
  | wasmNotify (ref : Ref)
  | down (mon : Ref)
  deriving DecidableEq, Repr

/-- Nanoseconds to milliseconds, rounded up; `none` is `infinity`. -/
def timeoutMs (ns : ℤ) : Option ℕ :=
  if ns < 0 then none else some ((ns.toNat + 999999) / 1000000)

/-- Where a process stands inside `wait/4`: the operation it performs next. -/
inductive Stage (P : Type)
  | insert
  | read
  -- `park/3`
  | receive
  | claimOwn
  -- `lost_the_race/1`
  | claimer
  | receiveWoken
  | monitor (pid : P)
  | receiveDown (mon : Ref)
  | demonitor (mon : Ref) (answer : ℕ)
  -- the `after` clause
  | deleteObject (answer : ℕ)
  | deleteClaimed (answer : ℕ)
  | flush (answer : ℕ)
  deriving DecidableEq, Repr

/-- The steps of `wake/3` for one waiter, between naming it and dropping the name. -/
inductive Offer
  | claim
  | send
  | unname (won : Bool)
  deriving DecidableEq, Repr

/-- Where a process stands inside `notify/3`. -/
inductive Round (P : Type)
  | lookup
  -- `live/1`: the rows still to look at, and those kept
  | live (todo kept : List (Entry P))
  | deleteDead (e : Entry P) (todo kept : List (Entry P))
  -- `wake/3`
  | wake (waiters : List (Entry P)) (left n : ℕ)
  | offer (e : Entry P) (at' : Offer) (rest : List (Entry P)) (left n : ℕ)
  deriving DecidableEq, Repr

/-- One call of `notify/3`. -/
structure Call where
  id : ℕ
  key : Key
  count : ℕ
  deriving DecidableEq, Repr

inductive Pc (P : Type)
  | idle
  | wait (e : Entry P) (timeout : Option ℕ) (at' : Stage P)
  | notify (call : Call) (at' : Round P)
  deriving DecidableEq, Repr

/-- A process that asked to be told of another's death. -/
structure Monitor (P : Type) where
  mon : Ref
  owner : P
  target : P
  deriving DecidableEq, Repr

structure State (P : Type) where
  /-- The `{Key, Pid, Ref}` rows. -/
  rows : List (Entry P)
  /-- The `{{claimed, Ref}, Pid}` rows. -/
  claimed : Table Ref P
  monitors : List (Monitor P)
  nextRef : ℕ
  alive : P → Bool
  mail : P → List Mail
  pc : P → Pc P
  issued : List (Entry P)
  wakes : List (ℕ × Ref)
  answers : List (Ref × ℕ)
  reports : List (Call × ℕ)

variable {P : Type}

def State.init : State P where
  rows := []
  claimed := ∅
  monitors := []
  nextRef := 0
  alive := fun _ => true
  mail := fun _ => []
  pc := fun _ => .idle
  issued := []
  wakes := []
  answers := []
  reports := []

variable [DecidableEq P]

namespace State

/-- Process `p` goes on at `c`. -/
def goto (s : State P) (p : P) (c : Pc P) : State P :=
  { s with pc := Function.update s.pc p c }

/-- `p ! m`; a message to a dead process goes nowhere. -/
def send (s : State P) (p : P) (m : Mail) : State P :=
  if s.alive p then { s with mail := Function.update s.mail p (s.mail p ++ [m]) } else s

/-- The first message equal to `m` leaves `p`'s mailbox. -/
def receive (s : State P) (p : P) (m : Mail) : State P :=
  { s with mail := Function.update s.mail p ((s.mail p).erase m) }

/-- `ets:delete_object(?TAB, Entry)`. -/
def deleteObject (s : State P) (e : Entry P) : State P :=
  { s with rows := s.rows.erase e }

/-- `ets:delete(?TAB, {claimed, Ref})`. -/
def deleteClaimed (s : State P) (ref : Ref) : State P :=
  { s with claimed := s.claimed.erase ref }

/-- `erlang:monitor(process, Pid)`: a target already dead is reported at once. -/
def monitor (s : State P) (p pid : P) : State P :=
  if s.alive pid then
    { s with monitors := ⟨s.nextRef, p, pid⟩ :: s.monitors, nextRef := s.nextRef + 1 }
  else
    { s with nextRef := s.nextRef + 1 }.send p (.down s.nextRef)

/-- `erlang:demonitor(Mon, [flush])`. -/
def demonitor (s : State P) (p : P) (mon : Ref) : State P :=
  { s with
    monitors := s.monitors.filter (·.mon ≠ mon)
    mail := Function.update s.mail p ((s.mail p).erase (.down mon)) }

/-- The reports of `pid`'s death that `p` asked for. -/
def downs (s : State P) (pid p : P) : List Mail :=
  (s.monitors.filter fun m => m.owner = p ∧ m.target = pid).map fun m => .down m.mon

/-- The answer of a `wait/4` in the caller's hands. -/
def answer (s : State P) (p : P) (ref : Ref) (n : ℕ) : State P :=
  { s with answers := (ref, n) :: s.answers }.goto p .idle

/-- The answer of a `notify/3`. -/
def report (s : State P) (p : P) (call : Call) (n : ℕ) : State P :=
  { s with reports := (call, n) :: s.reports }.goto p .idle

end State

/-- The next operation of a process inside `wait/4`.  `Read()` and the timeout of `park/3` are
actions of their own. -/
def State.waitStep (s : State P) (p : P) (e : Entry P) (timeout : Option ℕ) :
    Stage P → Option (State P)
  | .insert => some ({ s with rows := s.rows ++ [e] }.goto p (.wait e timeout .read))
  | .read => none
  | .receive =>
      if .wasmNotify e.ref ∈ s.mail p then
        some ((s.receive p (.wasmNotify e.ref)).goto p (.wait e timeout (.deleteObject 0)))
      else none
  | .claimOwn =>
      -- `claim/1` on the caller's own row
      if e ∈ s.rows then
        some ((s.deleteObject e).goto p (.wait e timeout (.deleteObject 2)))
      else some (s.goto p (.wait e timeout .claimer))
  | .claimer =>
      match s.claimed.lookup e.ref with
      | none => some (s.goto p (.wait e timeout .receiveWoken))
      | some pid => some (s.goto p (.wait e timeout (.monitor pid)))
  | .receiveWoken =>
      if .wasmNotify e.ref ∈ s.mail p then
        some ((s.receive p (.wasmNotify e.ref)).goto p (.wait e timeout (.deleteObject 0)))
      else none
  | .monitor pid =>
      some ((s.monitor p pid).goto p (.wait e timeout (.receiveDown s.nextRef)))
  | .receiveDown mon =>
      -- whichever of the two stands first in the mailbox
      match (s.mail p).find? fun m => m = .wasmNotify e.ref ∨ m = .down mon with
      | some (.wasmNotify ref) =>
          some ((s.receive p (.wasmNotify ref)).goto p (.wait e timeout (.demonitor mon 0)))
      | some (.down m) =>
          some ((s.receive p (.down m)).goto p (.wait e timeout (.demonitor mon 2)))
      | none => none
  | .demonitor mon n =>
      some ((s.demonitor p mon).goto p (.wait e timeout (.deleteObject n)))
  | .deleteObject n =>
      some ((s.deleteObject e).goto p (.wait e timeout (.deleteClaimed n)))
  | .deleteClaimed n =>
      some ((s.deleteClaimed e.ref).goto p (.wait e timeout (.flush n)))
  | .flush n => some ((s.receive p (.wasmNotify e.ref)).answer p e.ref n)

/-- The next operation of a process inside `notify/3`. -/
def State.notifyStep (s : State P) (p : P) (call : Call) : Round P → State P
  | .lookup => s.goto p (.notify call (.live (s.rows.filter (·.key = call.key)) []))
  | .live [] kept => s.goto p (.notify call (.wake kept call.count 0))
  | .live (e :: todo) kept =>
      if s.alive e.pid then s.goto p (.notify call (.live todo (kept ++ [e])))
      else s.goto p (.notify call (.deleteDead e todo kept))
  | .deleteDead e todo kept => (s.deleteObject e).goto p (.notify call (.live todo kept))
  | .wake _ 0 n => s.report p call n
  | .wake [] (_ + 1) n => s.report p call n
  | .wake (e :: rest) (left + 1) n =>
      -- `insert_new/2`
      match s.claimed.lookup e.ref with
      | some _ => s.goto p (.notify call (.wake rest (left + 1) n))
      | none =>
          { s with claimed := s.claimed.insert e.ref p }.goto p
            (.notify call (.offer e .claim rest (left + 1) n))
  | .offer e .claim rest left n =>
      if e ∈ s.rows then
        { s.deleteObject e with wakes := (call.id, e.ref) :: s.wakes }.goto p
          (.notify call (.offer e .send rest left n))
      else s.goto p (.notify call (.offer e (.unname false) rest left n))
  | .offer e .send rest left n =>
      (s.send e.pid (.wasmNotify e.ref)).goto p
        (.notify call (.offer e (.unname true) rest left n))
  | .offer e (.unname won) rest left n =>
      (s.deleteClaimed e.ref).goto p
        (.notify call
          (if won then .wake rest (left - 1) (n + 1) else .wake rest left n))

/-- One action of the whole system. -/
inductive Act (P : Type)
  | wait (p : P) (key : Key) (timeoutNs : ℤ)
  | notify (p : P) (key : Key) (count : ℕ)
  -- `Read()` answers
  | read (p : P) (equal : Bool)
  -- `after Timeout` in `park/3`
  | expire (p : P)
  | go (p : P)
  | kill (p : P)
  deriving DecidableEq, Repr

/-- `p` calls `wait/4`: the key and the fresh reference, before the row is there. -/
def State.beginWait (s : State P) (p : P) (key : Key) (timeoutNs : ℤ) : State P :=
  { s with
    nextRef := s.nextRef + 1
    issued := ⟨key, p, s.nextRef⟩ :: s.issued }.goto p
      (.wait ⟨key, p, s.nextRef⟩ (timeoutMs timeoutNs) .insert)

/-- `p` calls `notify/3`. -/
def State.beginNotify (s : State P) (p : P) (key : Key) (count : ℕ) : State P :=
  { s with nextRef := s.nextRef + 1 }.goto p (.notify ⟨s.nextRef, key, count⟩ .lookup)

/-- `p` is dead, and who watched it is told. -/
def State.die (s : State P) (p : P) : State P :=
  { s with
    alive := Function.update s.alive p false
    mail := fun q => s.mail q ++ s.downs p q
    monitors := s.monitors.filter (·.target ≠ p) }

/-- The step of a living process. -/
def State.act (s : State P) : Act P → Option (State P)
  | .wait p key timeoutNs => if s.pc p = .idle then some (s.beginWait p key timeoutNs) else none
  | .notify p key count => if s.pc p = .idle then some (s.beginNotify p key count) else none
  | .read p equal =>
      match s.pc p with
      | .wait e timeout .read =>
          some (s.goto p (.wait e timeout (if equal then .receive else .deleteObject 1)))
      | _ => none
  | .expire p =>
      match s.pc p with
      | .wait e (some ms) .receive => some (s.goto p (.wait e (some ms) .claimOwn))
      | _ => none
  | .go p =>
      match s.pc p with
      | .idle => none
      | .wait e timeout at' => s.waitStep p e timeout at'
      | .notify call at' => some (s.notifyStep p call at')
  | .kill p => some (s.die p)

def Act.pid : Act P → P
  | .wait p _ _ | .notify p _ _ | .read p _ | .expire p | .go p | .kill p => p

def step (s : State P) (a : Act P) : Option (State P) :=
  if s.alive a.pid then s.act a else none

end ErlangWasm.Wait
