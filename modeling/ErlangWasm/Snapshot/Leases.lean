import ErlangWasm.Reasoning.Atomics
import ErlangWasm.Reasoning.Counting
import ErlangWasm.Reasoning.Run

/-!
# The lease counters of a snapshotable instance

`wasm_instance` keeps three atomic words for an instance made with `snapshotable => true`: the
state, the count of readers and the mark a deferred destroy leaves.  A call or a write takes a
lease, a capture takes the instance exclusively, a destroy marks it.  Every `atomics` operation is
one step here; a process stands at a point of the source text (`Pc`) between two of its steps.  One
that is killed takes no further step.

`state`, `readers` and `destroyWanted` are the source's; the readers' cell is only ever compared with
zero, so that its sign does not matter and its value is kept modulo `2 ^ 64`.  `answers` is the history of what the
operations answered, which is what the statements about runs are made of.
-/

namespace ErlangWasm.Snapshot.Leases

open Reasoning Reasoning.Atomics

/-- What `?IX_SNAP_STATE` holds. -/
inductive Snap
  | snapOpen
  | snapCapturing
  | snapDestroying
  deriving DecidableEq, Repr

/-- The five operations. -/
inductive Op
  | enterCall
  | leaveCall
  | beginCapture
  | endCapture
  | beginDestroy
  deriving DecidableEq, Repr

/-- What they answer; `busy`, `capturing` and `destroying` are the reasons of an error. -/
inductive Answer
  | ok
  | capturing
  | destroying
  | busy
  | destroyNow
  | now
  | deferred
  deriving DecidableEq, Repr

/-- Where a process stands: the atomic operation it performs next, with the locals still in use. -/
inductive Pc
  | idle
  | enterAdd
  | enterState
  | enterSub (state : Snap)
  | leaveSub
  | captureExchange
  | captureReaders
  | capturePut
  | endExchange
  | endWanted
  | endDestroying
  | destroyExchange
  | destroyPut
  deriving DecidableEq, Repr

/-- One process: the leases it was allowed and has not given back, whether it holds a capture it
was allowed, and where it stands. -/
structure Proc where
  leases : ℕ
  captures : Bool
  pc : Pc
  deriving DecidableEq, Repr

structure State (P : Type) where
  state : Snap
  readers : ℕ
  destroyWanted : Bool
  procs : P → Proc
  answers : List (P × Op × Answer)

variable {P : Type}

/-- `atomics:new(3, [])`, and nobody using the instance yet. -/
def State.init : State P where
  state := .snapOpen
  readers := 0
  destroyWanted := false
  procs := fun _ => { leases := 0, captures := false, pc := .idle }
  answers := []

variable [DecidableEq P]

namespace State

/-- Process `p` as `q`, everything shared left alone. -/
def setProc (s : State P) (p : P) (q : Proc) : State P :=
  { s with procs := Function.update s.procs p q }

/-- The readers' cell written. -/
def putReaders (s : State P) (c : ℕ) : State P :=
  { s with readers := c }

omit [DecidableEq P] in
@[simp] theorem putReaders_procs (s : State P) (c : ℕ) : (s.putReaders c).procs = s.procs := rfl

/-- Process `p` goes on at `pc`. -/
def goto (s : State P) (p : P) (pc : Pc) : State P :=
  s.setProc p { s.procs p with pc := pc }

/-- Process `p`'s operation answers. -/
def answer (s : State P) (p : P) (op : Op) (a : Answer) : State P :=
  { s.goto p .idle with answers := (p, op, a) :: s.answers }

/-- `enter_call/1` answers `ok`: `p` has one more lease. -/
def allowCall (s : State P) (p : P) : State P :=
  (s.setProc p { s.procs p with leases := (s.procs p).leases + 1 }).answer p .enterCall .ok

theorem allowCall_procs (s : State P) (p : P) : (s.allowCall p).procs = Function.update s.procs p
    { s.procs p with leases := (s.procs p).leases + 1, pc := .idle } := by
  simp [allowCall, answer, goto, setProc]

/-- The subtraction of `leave_call/1` answered `c`: `p` has one lease less. -/
def leaveCall (s : State P) (p : P) (c : ℕ) : State P :=
  ((s.putReaders c).setProc p
    { s.procs p with leases := (s.procs p).leases - 1 }).answer p .leaveCall .ok

theorem leaveCall_procs (s : State P) (p : P) (c : ℕ) :
    (s.leaveCall p c).procs = Function.update s.procs p
      { s.procs p with leases := (s.procs p).leases - 1, pc := .idle } := by
  simp [leaveCall, answer, goto, setProc]

/-- `begin_capture/1` answers `ok`: `p` has the instance to itself. -/
def allowCapture (s : State P) (p : P) : State P :=
  (s.setProc p { s.procs p with captures := true }).answer p .beginCapture .ok

theorem allowCapture_procs (s : State P) (p : P) :
    (s.allowCapture p).procs = Function.update s.procs p
      { s.procs p with captures := true, pc := .idle } := by
  simp [allowCapture, answer, goto, setProc]

/-- The first exchange of `end_capture/1`, which gives the instance back. -/
def giveBack (s : State P) (p : P) : State P :=
  { s with state := if s.state = Snap.snapCapturing then .snapOpen else s.state }.setProc p
    { s.procs p with captures := false, pc := .endWanted }

/-- The exchange that takes an open instance to destroying, and what its winner is told. -/
def tellDestroy (s : State P) (p : P) (op : Op) (a : Answer) : State P :=
  { s with state := .snapDestroying }.answer p op a

end State

/-- The reason `enter_call/1` answers for a state that was not open. -/
def refusal : Snap → Answer
  | .snapDestroying => .destroying
  | _ => .capturing

/-- The next atomic operation of process `p`, standing at `pc`. -/
def State.tick (s : State P) (p : P) : Pc → Option (State P)
  | .idle => none
  | .enterAdd => some ((s.putReaders (addGet s.readers 1)).goto p .enterState)
  | .enterState =>
      if s.state = .snapOpen then some (s.allowCall p)
      else some (s.goto p (.enterSub s.state))
  | .enterSub state =>
      some ((s.putReaders (subGet s.readers 1)).answer p .enterCall (refusal state))
  | .leaveSub => some (s.leaveCall p (subGet s.readers 1))
  | .captureExchange =>
      match s.state with
      | .snapOpen => some ({ s with state := .snapCapturing }.goto p .captureReaders)
      | .snapDestroying => some (s.answer p .beginCapture .destroying)
      | .snapCapturing => some (s.answer p .beginCapture .busy)
  | .captureReaders =>
      if s.readers = 0 then some (s.allowCapture p) else some (s.goto p .capturePut)
  | .capturePut => some ({ s with state := .snapOpen }.answer p .beginCapture .busy)
  | .endExchange => some (s.giveBack p)
  | .endWanted =>
      if s.destroyWanted then some (s.goto p .endDestroying)
      else some (s.answer p .endCapture .ok)
  | .endDestroying =>
      if s.state = .snapOpen then some (s.tellDestroy p .endCapture .destroyNow)
      else some (s.answer p .endCapture .ok)
  | .destroyExchange =>
      if s.state = .snapOpen then some (s.tellDestroy p .beginDestroy .now)
      else some (s.goto p .destroyPut)
  | .destroyPut => some ({ s with destroyWanted := true }.answer p .beginDestroy .deferred)

/-- Where a call starts. -/
def Op.entry : Op → Pc
  | .enterCall => .enterAdd
  | .leaveCall => .leaveSub
  | .beginCapture => .captureExchange
  | .endCapture => .endExchange
  | .beginDestroy => .destroyExchange

/-- What `wasm` calls when: a lease is given back by `leased_invoke` and `write_memory/3` after one
that was allowed, and a capture is ended by `snapshot/2` after one that was allowed. -/
def Op.Permitted : Op → Proc → Prop
  | .leaveCall, q => 1 ≤ q.leases
  | .endCapture, q => q.captures = true
  | _, _ => True

instance (op : Op) (q : Proc) : Decidable (op.Permitted q) := by
  cases op <;> unfold Op.Permitted <;> infer_instance

/-- One action of the whole system. -/
inductive Act (P : Type)
  | call (p : P) (op : Op)
  | tick (p : P)
  deriving DecidableEq, Repr

def step (s : State P) : Act P → Option (State P)
  | .call p op =>
      if (s.procs p).pc = .idle ∧ op.Permitted (s.procs p) then some (s.goto p op.entry) else none
  | .tick p => s.tick p (s.procs p).pc

/-! ## What the operations are for -/

/-- An answer that tells its caller to destroy the instance. -/
def Answer.tellsDestroy : Answer → Bool
  | .now => true
  | .destroyNow => true
  | _ => false

/-- How often somebody has been told to destroy the instance. -/
def State.told (s : State P) : ℕ :=
  s.answers.countP fun a => a.2.2.tellsDestroy

/-- Some `begin_destroy/1` has answered `deferred`. -/
def State.Deferred (s : State P) : Prop :=
  ∃ p, (p, Op.beginDestroy, Answer.deferred) ∈ s.answers

/-- Inside a capture attempt: from the exchange that took the state to the answer that ends it. -/
def Proc.Attempts (q : Proc) : Prop :=
  q.captures = true ∨ q.pc = .captureReaders ∨ q.pc = .capturePut ∨ q.pc = .endWanted ∨
    q.pc = .endDestroying

/-- While somebody holds a capture no lease is out, and no step lets one out. -/
def State.Excludes (s : State P) : Prop :=
  ∀ p, (s.procs p).captures = true → (∀ q, (s.procs q).leases = 0) ∧
    ∀ a s', step s a = some s' → ∀ q, (s'.procs q).leases = 0

/-- A destroy that was put off is somebody's task once no capture attempt is under way. -/
def State.Remembers (s : State P) : Prop :=
  s.Deferred → (∀ p, ¬ (s.procs p).Attempts) → s.told = 1

end ErlangWasm.Snapshot.Leases
