import ErlangWasm.Reasoning.Atomics
import ErlangWasm.Reasoning.Run
import ErlangWasm.Reasoning.Table

/-!
# The slots generated code is loaded into

Sixteen module names, each with a row in an `ets` table and a counter in an `atomics` array.  The
`wasm_code_slots` server alone writes the rows: it reserves a slot for a key, publishes it, and
keeps the instance leases.  Any process takes a call lease by adding one to the counter, and gives
it back by subtracting one; nothing says whose the ones are.  A claim raises the counter to `?EXCL`
and asks `code:soft_purge/1` about the code the slot still holds.

Every `atomics` operation, every read of a row by a caller and every answer of `soft_purge` is one
step here.  The server's own maps are nobody else's to see, and change together with the row.

`counted` and `filled` are not the source's: the first says of a call lease whether a repair has
taken it out of the counter, the second whether the code of a reservation has been loaded.
-/

namespace ErlangWasm.Code

open Reasoning Reasoning.Atomics

/-- `?EXCL`, the counter of a slot held exclusively. -/
@[irreducible] def excl : ℕ := 2 ^ 32

/-- The sixteen interned names, `wasm_code_0` to `wasm_code_15`. -/
abbrev Name := Fin 16

abbrev Key := ℕ
abbrev Lease := ℕ
abbrev Pid := ℕ
abbrev Ref := ℕ

/-- A reservation: the slot and its generation. -/
abbrev Token := Name × ℕ

inductive SlotState
  | free
  | loading (key : Key)
  | resident (key : Key)
  deriving DecidableEq, Repr

/-- The key a slot is found by. -/
def SlotState.key : SlotState → Option Key
  | .free => none
  | .loading key => some key
  | .resident key => some key

/-- `{Name, Gen, State, Leases}`. -/
structure Row where
  gen : ℕ
  state : SlotState
  leases : Table Lease Pid
  deriving DecidableEq

def Row.isLoading (r : Row) : Bool :=
  match r.state with
  | .loading _ => true
  | _ => false

/-- The condition of `free_slot/1`: nothing, or a resident module nobody has an instance of. -/
def Row.empty (r : Row) : Bool :=
  match r.state with
  | .free => true
  | .loading _ => false
  | .resident _ => r.leases.entries.isEmpty

/-- Where a call stands between its increment and its decrement. -/
inductive Stage
  -- `take/2` read `?EXCL` or more, or `lease_call/2` another row: the one goes back
  | stale
  -- `lease_call/2` before `row(Name)`
  | check (key : Key)
  | inside
  -- in `Mod:invoke/6`, of the slot's code as it was when it was entered
  | running (version : ℕ)
  deriving DecidableEq, Repr

structure Call where
  pid : Pid
  slot : Name
  stage : Stage
  counted : Bool
  deriving DecidableEq, Repr

/-- The arguments of `claim_loading/3`. -/
structure Request where
  key : Key
  lease : Lease
  owner : Pid
  deriving DecidableEq, Repr

/-- Where the server stands. -/
inductive Pc
  | idle
  | reusable (r : Request) (names : List Name)
  | repairPurgeable (r : Request) (n : Name) (stuck : ℕ) (rest : List Name)
  | repairExchange (r : Request) (n : Name) (stuck : ℕ) (rest : List Name)
  | purgeable (r : Request) (n : Name) (rest : List Name)
  -- `soft_purge` said no: the hold goes, and the next name is tried
  | unpurged (r : Request) (n : Name) (rest : List Name)
  | reserve (r : Request) (n : Name)
  -- the end of `publish` and `abort`
  | releaseHold (n : Name)
  deriving DecidableEq, Repr

structure State where
  table : Name → Row
  counter : Name → ℕ
  /-- How many times code has been loaded under the name. -/
  version : Name → ℕ
  filled : Name → Bool
  server : Pc
  monitors : Table Ref (Key × Lease)
  refs : Table (Key × Lease) Ref
  loading : Table Ref Token
  /-- The monitors the server has, as the virtual machine keeps them. -/
  watching : Table Ref Pid
  nextRef : Ref
  alive : Pid → Bool
  /-- The calls in progress; of one process, the innermost first. -/
  calls : List Call

/-- What the node decides: `erlang:phash2(Key, 16)`, and the order `ets:tab2list/1` lists the rows
in. -/
structure Node where
  home : Key → Name
  listing : List Name
  listed : listing.Perm (List.finRange 16)

def State.init : State where
  table := fun _ => { gen := 0, state := .free, leases := ∅ }
  counter := fun _ => 0
  version := fun _ => 0
  filled := fun _ => false
  server := .idle
  monitors := ∅
  refs := ∅
  loading := ∅
  watching := ∅
  nextRef := 0
  alive := fun _ => true
  calls := []

namespace State

def insertRow (s : State) (n : Name) (r : Row) : State :=
  { s with table := Function.update s.table n r }

def putCounter (s : State) (n : Name) (c : ℕ) : State :=
  { s with counter := Function.update s.counter n c }

def goto (s : State) (pc : Pc) : State :=
  { s with server := pc }

/-- `release_hold/1`. -/
def releaseHold (s : State) (n : Name) : State :=
  s.putCounter n (subGet (s.counter n) excl)

/-! ## Callers -/

/-- The call process `p` is in, the innermost of those it is in. -/
def innermost (s : State) (p : Pid) : Option Call :=
  s.calls.find? (·.pid = p)

/-- The innermost call of `p` is over. -/
def pop (s : State) (p : Pid) : State :=
  { s with calls := s.calls.eraseP (·.pid = p) }

def push (s : State) (c : Call) : State :=
  { s with calls := c :: s.calls }

/-- The counters a repair takes out of the word are nobody's from now on. -/
def clearCounted (s : State) (n : Name) : State :=
  { s with calls := s.calls.map fun c => if c.slot = n then { c with counted := false } else c }

/-- `take/2`: one more, and where the call goes on. -/
def take (s : State) (p : Pid) (n : Name) (key : Option Key) : State :=
  (s.putCounter n (addGet (s.counter n) 1)).push
    { pid := p, slot := n, counted := true,
      stage := if excl ≤ addGet (s.counter n) 1 then .stale else
        match key with
        | some key => .check key
        | none => .inside }

/-- `atomics:sub(Ref, Idx, 1)`, the last operation of the call. -/
def giveBack (s : State) (p : Pid) (n : Name) : State :=
  (s.putCounter n (subGet (s.counter n) 1)).pop p

/-- Some process runs code of the slot that is not the code loaded last. -/
def runsOld (s : State) (n : Name) : Bool :=
  s.calls.any fun c => c.slot = n && s.alive c.pid &&
    match c.stage with
    | .running version => version != s.version n
    | _ => false

/-- `purgeable/1`, where `purge` is what `code:soft_purge/1` says if it is asked.  It cannot say
yes while a process runs the old code. -/
def purgeable (s : State) (n : Name) (purge : Bool) : Option Bool :=
  if s.version n = 0 then some true
  else if purge && s.runsOld n then none
  else some purge

/-! ## The server -/

/-- The names of the rows `find/1` matches. -/
def rowsOf (s : State) (key : Key) : List Name :=
  (List.finRange 16).filter fun n => (s.table n).state.key = some key

/-- `free_slot/1` up to `reusable/1`, with `prefer/2`: the module's own slot first. -/
def candidates (rt : Node) (s : State) (key : Key) : List Name :=
  let empty := rt.listing.filter fun n => (s.table n).empty
  if rt.home key ∈ empty then rt.home key :: empty.erase (rt.home key) else empty

def monitor (s : State) (owner : Pid) : State :=
  { s with watching := s.watching.insert s.nextRef owner, nextRef := s.nextRef + 1 }

def demonitor (s : State) (ref : Ref) : State :=
  { s with watching := s.watching.erase ref }

/-- `unmonitor/3`. -/
def unmonitor (s : State) (key : Key) (lease : Lease) : State :=
  match s.refs.lookup (key, lease) with
  | none => s
  | some ref =>
      { s.demonitor ref with
        monitors := s.monitors.erase ref
        refs := s.refs.erase (key, lease) }

/-- `add/7`, on the row `r` of slot `n`. -/
def add (s : State) (n : Name) (r : Row) (key : Key) (lease : Lease) (owner : Pid) : State :=
  if (r.leases.lookup lease).isSome then s.insertRow n r
  else
    { (s.monitor owner).insertRow n { r with leases := r.leases.insert lease owner } with
      monitors := s.monitors.insert s.nextRef (key, lease)
      refs := s.refs.insert (key, lease) s.nextRef }

/-- `unwatch/2`; two references for one token match neither clause. -/
def unwatch (s : State) (token : Token) : Option State :=
  match s.loading.entries.filter fun e => e.2 = token with
  | [e] => some { s.demonitor e.1 with loading := s.loading.erase e.1 }
  | [] => some s
  | _ => none

/-- `reserve/4` once `free_slot/1` has answered `n`. -/
def reserve (s : State) (r : Request) (n : Name) : State :=
  let gen := (s.table n).gen + 1
  let s := s.add n { gen := gen, state := .loading r.key, leases := ∅ } r.key r.lease r.owner
  { s.monitor r.owner with
    loading := s.loading.insert s.nextRef (n, gen)
    filled := Function.update s.filled n false }

/-- `claim_loading`, up to the first exchange.  Two rows of one key match no clause of `find/1`. -/
def claimLoading (rt : Node) (s : State) (r : Request) : Option State :=
  match s.rowsOf r.key with
  | [n] =>
      if (s.table n).isLoading then some s
      else some (s.add n (s.table n) r.key r.lease r.owner)
  | [] => some (s.goto (.reusable r (s.candidates rt r.key)))
  | _ => none

/-- `publish`: the row, then `release_hold/1`. -/
def publish (s : State) (token : Token) : Option State :=
  let row := s.table token.1
  match row.state with
  | .loading key =>
      if row.gen = token.2 then
        ((s.insertRow token.1 { row with state := .resident key }).unwatch token).map
          (·.goto (.releaseHold token.1))
      else some s
  | _ => some s

/-- `abort`: every lease of the row is given up, the row is freed, then `release_hold/1`. -/
def abort (s : State) (token : Token) : Option State :=
  let row := s.table token.1
  match row.state with
  | .loading key =>
      if row.gen = token.2 then
        let s := row.leases.keys.foldl (fun s lease => s.unmonitor key lease) s
        ((s.insertRow token.1 { gen := row.gen, state := .free, leases := ∅ }).unwatch token).map
          (·.goto (.releaseHold token.1))
      else some s
  | _ => some s

/-- `lease`. -/
def leaseInstance (s : State) (r : Request) : Option State :=
  match s.rowsOf r.key with
  | [n] =>
      if (s.table n).isLoading then some s
      else some (s.add n (s.table n) r.key r.lease r.owner)
  | [] => some s
  | _ => none

/-- `release`: `drop/3`. -/
def drop (s : State) (key : Key) (lease : Lease) : Option State :=
  match (s.unmonitor key lease).rowsOf key with
  | [n] =>
      let row := (s.unmonitor key lease).table n
      some ((s.unmonitor key lease).insertRow n { row with leases := row.leases.erase lease })
  | [] => some (s.unmonitor key lease)
  | _ => none

/-- `handle_info/2` on the `DOWN` of `ref`: a compiler's reservation is aborted, a holder's lease
is given back. -/
def down (s : State) (ref : Ref) : Option State :=
  match s.loading.lookup ref with
  | some token => (s.abort token).map fun s => { s with loading := s.loading.erase ref }
  | none =>
      match s.monitors.lookup ref with
      | some (key, lease) => s.drop key lease
      | none => some s

/-- The server's next operation. -/
def serve (s : State) (purge : Bool) : Pc → Option State
  | .idle => none
  | .reusable _ [] => some (s.goto .idle)
  | .reusable r (n :: rest) =>
      -- `take_exclusive/1`
      if s.counter n = 0 then some ((s.putCounter n excl).goto (.purgeable r n rest))
      else if s.counter n < excl then some (s.goto (.repairPurgeable r n (s.counter n) rest))
      else some (s.goto (.reusable r rest))
  | .repairPurgeable r n stuck rest =>
      (s.purgeable n purge).map fun purged =>
        if purged then s.goto (.repairExchange r n stuck rest) else s.goto (.reusable r rest)
  | .repairExchange r n stuck rest =>
      if s.counter n = stuck then
        some (((s.putCounter n excl).clearCounted n).goto (.purgeable r n rest))
      else some (s.goto (.reusable r rest))
  | .purgeable r n rest =>
      (s.purgeable n purge).map fun purged =>
        if purged then s.goto (.reserve r n) else s.goto (.unpurged r n rest)
  | .unpurged r n rest => some ((s.releaseHold n).goto (.reusable r rest))
  | .reserve r n => some ((s.reserve r n).goto .idle)
  | .releaseHold n => some ((s.releaseHold n).goto .idle)

end State

/-- One action of the whole system.  The server takes a request when it has nothing in hand. -/
inductive Act
  -- `lease_call/1` and `lease_at/2` without a key, `lease_call/2` with one
  | lease (p : Pid) (n : Name) (key : Option Key)
  -- the next operation of a call that is not inside yet
  | go (p : Pid)
  | enter (p : Pid)
  | leave (p : Pid)
  -- `release_call/1` and `release_at/2`
  | release (p : Pid)
  | kill (p : Pid)
  -- `code:load_binary/3` by the process that holds the reservation
  | load (n : Name)
  | claimLoading (r : Request)
  | publish (token : Token)
  | abort (token : Token)
  | leaseInstance (r : Request)
  | drop (key : Key) (lease : Lease)
  | down (ref : Ref)
  | serve (purge : Bool)
  deriving DecidableEq, Repr

/-- The next step of the innermost call `c` of `p`: back out, or look at the row. -/
def State.goCall (s : State) (p : Pid) (c : Call) : Option State :=
  match c.stage with
  | .stale => some (s.giveBack p c.slot)
  | .check key =>
      if (s.table c.slot).state = .resident key then
        some ((s.pop p).push { c with stage := .inside })
      else some ((s.pop p).push { c with stage := .stale })
  | .inside => none
  | .running _ => none

def step (rt : Node) (s : State) : Act → Option State
  | .lease p n key => if s.alive p then some (s.take p n key) else none
  | .go p => if s.alive p then (s.innermost p).bind (s.goCall p) else none
  | .enter p =>
      if s.alive p then
        (s.innermost p).bind fun c =>
          if c.stage = .inside then
            some ((s.pop p).push { c with stage := .running (s.version c.slot) })
          else none
      else none
  | .leave p =>
      if s.alive p then
        (s.innermost p).bind fun c =>
          match c.stage with
          | .running _ => some ((s.pop p).push { c with stage := .inside })
          | _ => none
      else none
  | .release p =>
      if s.alive p then
        (s.innermost p).bind fun c =>
          if c.stage = .inside then some (s.giveBack p c.slot) else none
      else none
  | .kill p => some { s with alive := Function.update s.alive p false }
  | .load n =>
      if (s.table n).isLoading && !s.filled n then
        some { s with
          version := Function.update s.version n (s.version n + 1)
          filled := Function.update s.filled n true }
      else none
  | .claimLoading r => if s.server = .idle then s.claimLoading rt r else none
  | .publish token => if s.server = .idle then s.publish token else none
  | .abort token => if s.server = .idle then s.abort token else none
  | .leaseInstance r => if s.server = .idle then s.leaseInstance r else none
  | .drop key lease => if s.server = .idle then s.drop key lease else none
  | .down ref =>
      match s.watching.lookup ref with
      | some pid =>
          -- the message is consumed with the monitor
          if s.server = .idle ∧ s.alive pid = false then (s.demonitor ref).down ref else none
      | none => none
  | .serve purge => s.serve purge s.server

end ErlangWasm.Code
