import ErlangWasm.Reasoning.Atomics
import ErlangWasm.Reasoning.Counting
import ErlangWasm.Reasoning.Run
import ErlangWasm.Reasoning.Table

/-!
# Leases on one object store

`wasm_heap` lets any number of processes read one store and one of them collect it.  The three
shared things are the `?LEASE` cell, the `?REQUEST` cell and the rows of the objects table that are
not objects: one `{reader, Pid}` row a reader and one collector row.  Every `atomics` and `ets`
operation is one step here, and so is every `is_process_alive/1`; a process stands at a point of
the source text (`Pc`) between two of its steps, and can be killed there.

`lease`, `request`, `readers` and `collector` are the source's.  `owner` and `stamp` are not: no
step reads them.  They record which compare-and-exchange put `?EXCL` in the cell and how often the
cell has been written, which is what the statements about runs are made of.
-/

namespace ErlangWasm.Heap.Lease

open Reasoning Reasoning.Atomics

/-- `?EXCL`, which a collector adds to the lease cell. -/
@[irreducible] def excl : ℕ := 2 ^ 32

/-- The entry points a process calls, one at a time. -/
inductive Op
  | lease
  | unlease
  | tryExclusive
  | releaseExclusive
  | requestCollect
  deriving DecidableEq, Repr

/-- Where a process stands: the operation it performs next, with the locals still in use. -/
inductive Pc (P : Type)
  | idle
  -- `lease/1`, `read_lease/3` and `reclaim/2`
  | rememberReader
  | readLeaseAdd (tries : ℕ)
  | readLeaseSub (tries : ℕ)
  | reclaimLookup (tries : ℕ)
  | reclaimAlive (tries : ℕ) (pid : P) (held : ℕ)
  | reclaimExchange (tries : ℕ) (pid : P) (held : ℕ)
  -- `unlease/2`; `n` is what the subtraction answered
  | unleaseSub
  | forgetReader (n : ℕ)
  | forgetReaderDelete (n : ℕ)
  -- `last_out/2`
  | lastOutRequest
  | lastOutMark
  | lastOutExchange
  | lastOutUnmark
  -- `still_inside/2`, `reap/2` and `dead_readers/1`; `taken` is the sum so far
  | stillInside
  | deadReaders
  | deadReaderAlive (pid : P) (pids : List P) (taken : ℤ)
  | deadReaderTake (pid : P) (pids : List P) (taken : ℤ)
  -- `recount/2`, `live_readers/1` and `settle/4`; `seenAt` is the stamp at the read of the cell
  | recount
  | liveReaders (seen : ℕ) (seenAt : ℕ)
  | settle (seen : ℕ) (live : ℤ) (seenAt : ℕ)
  -- `try_exclusive/1`
  | tryExclusiveMark
  | tryExclusiveExchange
  | tryExclusiveUnmark
  -- `release_exclusive/1`
  | releaseRequest
  | releaseSub
  | releaseUnmark
  -- `request_collect/1`
  | putRequest
  deriving DecidableEq, Repr

/-- One process: whether it lives, the leases it has completed and not given back, whether it
holds the store exclusively, and where it stands. -/
structure Proc (P : Type) where
  alive : Bool
  leases : ℕ
  exclusive : Bool
  pc : Pc P
  deriving DecidableEq, Repr

structure State (P : Type) where
  lease : ℕ
  request : ℕ
  /-- The `{reader, Pid}` rows. -/
  readers : Table P ℤ
  /-- The `?COLLECTOR` row, `{Pid, Held}`. -/
  collector : Option (P × ℕ)
  procs : P → Proc P
  owner : Option (P × ℕ)
  stamp : ℕ

variable {P : Type}

/-- A fresh store nobody has used. -/
def State.init : State P where
  lease := 0
  request := 0
  readers := ∅
  collector := none
  procs := fun _ => { alive := true, leases := 0, exclusive := false, pc := .idle }
  owner := none
  stamp := 0

variable [DecidableEq P]

namespace State

/-- Process `p` as `q`, everything shared left alone. -/
def setProc (s : State P) (p : P) (q : Proc P) : State P :=
  { s with procs := Function.update s.procs p q }

/-- Process `p` goes on at `pc`. -/
def goto (s : State P) (p : P) (pc : Pc P) : State P :=
  s.setProc p { s.procs p with pc := pc }

/-- The lease cell written. -/
def putLease (s : State P) (c : ℕ) : State P :=
  { s with lease := c, stamp := s.stamp + 1 }

/-- `ets:update_counter(Objs, {reader, P}, {2, Incr}, {Key, 0})`. -/
def bumpReader (s : State P) (p : P) (incr : ℤ) : State P :=
  { s with readers := s.readers.insert p ((s.readers.lookup p).getD 0 + incr) }

def deleteReader (s : State P) (p : P) : State P :=
  { s with readers := s.readers.erase p }

/-- The sum `live_readers/1` answers. -/
def liveReaders (s : State P) : ℤ :=
  s.readers.total fun _ held => held

/-- `mark_collector/2`. -/
def markCollector (s : State P) (p : P) (held : ℕ) : State P :=
  { s with collector := some (p, held) }

/-- `unmark_if_mine/1`: one `ets:select_delete/2` on the caller's own mark. -/
def unmarkIfMine (s : State P) (p : P) : State P :=
  match s.collector with
  | some (q, _) => if q = p then { s with collector := none } else s
  | none => s

/-- `lease/1` answers: `p` is inside. -/
def enter (s : State P) (p : P) : State P :=
  s.setProc p { s.procs p with leases := (s.procs p).leases + 1, pc := .idle }

/-- The subtraction of `unlease/2` answered `n`: `p` is out. -/
def leave (s : State P) (p : P) (n : ℕ) : State P :=
  s.setProc p { s.procs p with leases := (s.procs p).leases - 1, pc := .forgetReader n }

/-- The exchange that takes the store exclusively: the lease cell to `?EXCL + held`. -/
def takeExclusive (s : State P) (p : P) (held : ℕ) : State P :=
  { s.putLease (excl + held) with owner := some (p, held) }.setProc p
    { s.procs p with exclusive := true, pc := .idle }

/-- The subtraction of `release_exclusive/1`. -/
def giveBack (s : State P) (p : P) : State P :=
  { s.putLease (subGet s.lease excl) with owner := none }.setProc p
    { s.procs p with exclusive := false, pc := .releaseUnmark }

/-- The exchange of `reclaim/2`, and the next try. -/
def reclaim (s : State P) (p : P) (tries held : ℕ) : State P :=
  if s.lease = excl + held then
    { s.putLease 0 with owner := none }.goto p (.readLeaseAdd (tries + 1))
  else
    s.goto p (.readLeaseAdd (tries + 1))

end State

/-- After the row is given back: `last_out/2` when nobody was left, `still_inside/2` otherwise. -/
def afterForget (n : ℕ) : Pc P :=
  if n = 0 then .lastOutRequest else .stillInside

/-- The comprehension of `dead_readers/1` over the pids still to look at, and `reap/2` at its
end. -/
def nextReader : List P → ℤ → Pc P
  | [], taken => if taken = 0 then .idle else .recount
  | pid :: pids, taken => .deadReaderAlive pid pids taken

/-- `Tries > 16 andalso reclaim(Objs, Ctr)`, then the next try. -/
def afterStepBack (tries : ℕ) : Pc P :=
  if 16 < tries then .reclaimLookup tries else .readLeaseAdd (tries + 1)

/-- The next operation of process `p`, standing at `pc`. -/
def State.tick (s : State P) (p : P) : Pc P → Option (State P)
  | .idle => none
  | .rememberReader => some ((s.bumpReader p 1).goto p (.readLeaseAdd 0))
  | .readLeaseAdd tries =>
      if excl ≤ addGet s.lease 1 then
        some ((s.putLease (addGet s.lease 1)).goto p (.readLeaseSub tries))
      else
        some ((s.putLease (addGet s.lease 1)).enter p)
  | .readLeaseSub tries =>
      some ((s.putLease (subGet s.lease 1)).goto p (afterStepBack tries))
  | .reclaimLookup tries =>
      match s.collector with
      | some (pid, held) => some (s.goto p (.reclaimAlive tries pid held))
      | none => some (s.goto p (.readLeaseAdd (tries + 1)))
  | .reclaimAlive tries pid held =>
      if (s.procs pid).alive then some (s.goto p (.readLeaseAdd (tries + 1)))
      else some (s.goto p (.reclaimExchange tries pid held))
  | .reclaimExchange tries _ held => some (s.reclaim p tries held)
  | .unleaseSub => some ((s.putLease (subGet s.lease 1)).leave p (subGet s.lease 1))
  | .forgetReader n =>
      if (s.readers.lookup p).getD 0 - 1 ≤ 0 then
        some ((s.bumpReader p (-1)).goto p (.forgetReaderDelete n))
      else
        some ((s.bumpReader p (-1)).goto p (afterForget n))
  | .forgetReaderDelete n => some ((s.deleteReader p).goto p (afterForget n))
  | .lastOutRequest =>
      if s.request = 0 then some (s.goto p .idle) else some (s.goto p .lastOutMark)
  | .lastOutMark => some ((s.markCollector p 0).goto p .lastOutExchange)
  | .lastOutExchange =>
      if s.lease = 0 then some (s.takeExclusive p 0) else some (s.goto p .lastOutUnmark)
  | .lastOutUnmark => some ((s.unmarkIfMine p).goto p .idle)
  | .stillInside =>
      if s.request = 0 then some (s.goto p .idle) else some (s.goto p .deadReaders)
  | .deadReaders => some (s.goto p (nextReader s.readers.keys 0))
  | .deadReaderAlive pid pids taken =>
      if (s.procs pid).alive then some (s.goto p (nextReader pids taken))
      else some (s.goto p (.deadReaderTake pid pids taken))
  | .deadReaderTake pid pids taken =>
      -- `ets:take/2`: the row goes, and its value is answered
      some ((s.deleteReader pid).goto p
        (nextReader pids (taken + (s.readers.lookup pid).getD 0)))
  | .recount =>
      if excl ≤ s.lease then some (s.goto p .idle)
      else some (s.goto p (.liveReaders s.lease s.stamp))
  | .liveReaders seen seenAt =>
      if (seen : ℤ) ≤ s.liveReaders then some (s.goto p .idle)
      else some (s.goto p (.settle seen s.liveReaders seenAt))
  | .settle seen live _ =>
      if s.lease = seen then
        some ((s.putLease live.toNat).goto p (if live = 0 then .lastOutRequest else .idle))
      else
        some (s.goto p .idle)
  | .tryExclusiveMark => some ((s.markCollector p 1).goto p .tryExclusiveExchange)
  | .tryExclusiveExchange =>
      if s.lease = 1 then some (s.takeExclusive p 1) else some (s.goto p .tryExclusiveUnmark)
  | .tryExclusiveUnmark => some ((s.unmarkIfMine p).goto p .idle)
  | .releaseRequest => some ({ s with request := 0 }.goto p .releaseSub)
  | .releaseSub => some (s.giveBack p)
  | .releaseUnmark => some ((s.unmarkIfMine p).goto p .idle)
  | .putRequest => some ({ s with request := 1 }.goto p .idle)

/-- Where a call starts. -/
def Op.entry : Op → Pc P
  | .lease => .rememberReader
  | .unlease => .unleaseSub
  | .tryExclusive => .tryExclusiveMark
  | .releaseExclusive => .releaseRequest
  | .requestCollect => .putRequest

/-- What `wasm` calls when: a collector collects and releases before anything else, an upgrade is
made "from a caller already holding one read lease", and only a lease taken is given back. -/
def Op.Permitted : Op → Proc P → Prop
  | .lease, q => q.exclusive = false
  | .unlease, q => 1 ≤ q.leases ∧ q.exclusive = false
  | .tryExclusive, q => 1 ≤ q.leases ∧ q.exclusive = false
  | .releaseExclusive, q => q.exclusive = true
  | .requestCollect, _ => True

instance (op : Op) (q : Proc P) : Decidable (op.Permitted q) := by
  cases op <;> unfold Op.Permitted <;> infer_instance

/-- One action of the whole system. -/
inductive Act (P : Type)
  | call (p : P) (op : Op)
  | tick (p : P)
  | kill (p : P)
  deriving DecidableEq, Repr

def step (s : State P) : Act P → Option (State P)
  | .call p op =>
      if (s.procs p).alive = true ∧ (s.procs p).pc = .idle ∧ op.Permitted (s.procs p) then
        some (s.goto p op.entry)
      else none
  | .tick p => if (s.procs p).alive = true then s.tick p (s.procs p).pc else none
  | .kill p =>
      if (s.procs p).alive = true then some (s.setProc p { s.procs p with alive := false })
      else none

end ErlangWasm.Heap.Lease
