import ErlangWasm.Keeper.State
import ErlangWasm.Reasoning.Run

/-!
# The keeper's callbacks

`handle_call/3`, `handle_cast/2` and `handle_info/2` of `wasm_keeper`, and everything they call.
`maps:keys/1` answers in no particular order; here it is the order of the table.
-/

namespace ErlangWasm.Keeper

open Reasoning

namespace State

/-! ## The end of a resource -/

/-- `wasm_engine:cell_forget/1` where there is a cell. -/
def forgetCell (s : State) (ref : Option Ref) : State :=
  { s with
    cells := match ref with
      | none => s.cells
      | some r => s.cells.erase r }

/-- `forget_meta/2`: the cells and tables that are the resource. -/
def forgetMeta (s : State) (res : Resource) : Body → State
  | .memory m _ => (s.forgetCell m.chunksRef).forgetCell m.arenaRef
  | .image _ => s
  | .cell => s.forgetCell (some res)
  | .heap objs elems => { s with words := (s.words.erase objs).erase elems }

def giveBack (s : State) (row : Row) : State :=
  match row.body with
  | .image bytes =>
      { s with
        snapshot := s.snapshot.map fun (n : ℤ) => n - bytes
        belowZero := s.belowZero || s.snapshot.any fun (n : ℤ) => decide (n - bytes < 0) }
  | .memory .. | .cell | .heap .. => s.releasePages row.charged

/-- `retire/2` up to `after_retire/2`, which does nothing but for a memory over an image. -/
def retireRow (s : State) (res : Resource) (row : Row) : State :=
  (((s.putRow res { row with retiring := true }).forgetMeta res row.body).deleteRow res).giveBack
    row

/-- The image of a memory that went, when that was the last memory over it and nobody holds it. -/
def retireImage (s : State) (img : Resource) : State :=
  match s.rows.lookup img with
  | none => s
  | some row =>
      match row.body with
      | .image _ =>
          if s.imageCount img = 0 ∧ row.holders.keys = [] then s.retireRow img row else s
      | _ => s

/-- `after_retire/2`. -/
def afterRetire (s : State) : Body → State
  | .memory m _ =>
      match m.image with
      | some img => (s.countImage m.image (-1)).retireImage img
      | none => s
  | _ => s

def retire (s : State) (res : Resource) (row : Row) : State :=
  (s.retireRow res row).afterRetire row.body

/-! ## Holders -/

/-- An image outlives its last snapshot holder while a memory restored from it remains. -/
def reclaimable (s : State) (res : Resource) : Body → Bool
  | .image _ => decide (s.imageCount res = 0)
  | _ => true

def drop (s : State) (res : Resource) (token : Token) : State :=
  match s.rows.lookup res with
  | none => s
  | some row =>
      match row.holders.lookup token with
      | none => s
      | some owner =>
          let rest := row.holders.erase token
          let s := (s.subTotal token row.counted).unhold owner res token
          if rest.keys = [] ∧ s.reclaimable res row.body = true then
            s.retire res { row with holders := rest }
          else
            s.putRow res { row with holders := rest }

/-- `lists:foldl` of `drop/3` over pairs. -/
def dropAll (s : State) (pairs : List (Resource × Token)) : State :=
  pairs.foldl (fun s pair => s.drop pair.1 pair.2) s

def retag (s : State) (src dst : Token) (owner : Option Pid) (res : Resource) : State :=
  match s.rows.lookup res with
  | none => s
  | some row =>
      match row.holders.lookup src with
      | none => s
      | some old =>
          let s := s.putRow res
            { row with holders := (row.holders.erase src).insert dst owner }
          let s := (s.subTotal src row.counted).addTotal dst row.counted
          (s.unhold old res src).watch owner res dst

/-- What `pid` holds under `token`. -/
def heldUnder (s : State) (pid : Pid) (token : Token) : List Resource :=
  ((s.heldBy pid).keys.filter fun pair => pair.2 = token).map Prod.fst

/-- Everything a dead holder still held, when the monitor is the one watching holders. -/
def forgetHolder (s : State) (pid : Pid) (mon : Ref) : State :=
  if s.mons.lookup pid = some mon then
    (s.unwatch pid).dropAll (s.heldBy pid).keys
  else s

/-! ## Transactions -/

/-- The row of `res` when it is a memory's, the only rows with `txn` and `done` in their ledger. -/
def memoryRow (s : State) (res : Resource) : Option (Row × MemoryMeta × Account) :=
  match s.rows.lookup res with
  | none => none
  | some row =>
      match row.body with
      | .memory m acc => some (row, m, acc)
      | _ => none

def putAccount (s : State) (res : Resource) (row : Row) (m : MemoryMeta) (acc : Account) : State :=
  s.putRow res { row with body := .memory m acc }

/-- The transaction ends with its outcome kept for its writer. -/
def finish (s : State) (res : Resource) (row : Row) (m : MemoryMeta) (acc : Account) (pid : Pid)
    (opId : Ref) (result : Outcome) : State :=
  (s.putAccount res row m
    { acc with txn := none, done := acc.done.insert pid (opId, result) }).watchWriter pid res

/-- `start/4` of a growth. -/
def startGrow (s : State) (res : Resource) (row : Row) (m : MemoryMeta) (acc : Account)
    (opId : Ref) (pid : Pid) (delta ceiling : ℕ) : Reply × State :=
  let after := row.pages + delta
  let pages := growthPages after m.geometry.image m.geometry.chunk -
    growthPages row.pages m.geometry.image m.geometry.chunk
  if ceiling < after then (.error .exceedsMax, s)
  else if ¬ row.holders.keys.all (fun token => s.within token delta) then
    (.error .instanceLimit, s)
  else
    match s.reservePages pages with
    | none => (.error .limit, s)
    | some s =>
        let txn := .grow opId pid row.pages after pages (chunkCount after m.geometry.chunk)
        let s := s.putRow res
          { row with
            pages := after
            body := .memory m
              { acc with
                growth := acc.growth + pages
                txn := some txn
                done := acc.done.erase pid } }
        let s := row.holders.keys.foldl (fun s token => s.addTotal token delta) s
        (.okPages row.pages, s.watchWriter pid res)

/-- `start/4` of an arena extension. -/
def startArena (s : State) (res : Resource) (row : Row) (m : MemoryMeta) (acc : Account)
    (opId : Ref) (pid : Pid) (target seen pages : ℕ) : Reply × State :=
  let published := s.tupleSize m.arenaRef
  if target ≤ published then (.covered, s)
  else if published ≠ seen then (.changed published, s)
  else
    match s.reservePages pages with
    | none => (.error .limit, s)
    | some s =>
        let s := s.putAccount res row m
          { acc with
            arena := acc.arena + pages
            txn := some (.arena opId pid published target pages)
            done := acc.done.erase pid }
        (.okPages published, s.watchWriter pid res)

def start (s : State) (res : Resource) (row : Row) (m : MemoryMeta) (acc : Account) (opId : Ref)
    (pid : Pid) : TxnRequest → Reply × State
  | .growBegin delta ceiling => s.startGrow res row m acc opId pid delta ceiling
  | .arenaBegin target seen pages => s.startArena res row m acc opId pid target seen pages

end State

/-- What the outcome of a finished operation answers. -/
def Outcome.toReply : Outcome → Reply
  | .ok => .ok
  | .okPages pages => .okPages pages
  | .aborted => .aborted

/-- What a retry of the operation in flight answers. -/
def Txn.answer : Txn → Reply
  | .grow _ _ before .. => .okPages before
  | .arena _ _ published .. => .okPages published

/-- The outcome kept for operation `opId` of `pid`. -/
def Account.outcomeOf (acc : Account) (pid : Pid) (opId : Ref) : Option Outcome :=
  match acc.done.lookup pid with
  | some (op, result) => if op = opId then some result else none
  | none => none

namespace State

/-- A growth or an arena extension: answered from the row when it is the caller's own operation
again, started when nothing is in flight, and queued otherwise. -/
def transaction (s : State) (res : Resource) (w : Waiter) : Option Reply × State :=
  match s.memoryRow res with
  | none => (some (.error .gone), s)
  | some (row, m, acc) =>
      if row.retiring then (some (.error .gone), s)
      else
        match acc.outcomeOf w.caller.1 w.opId, acc.txn with
        | some result, _ => (some (.done result), s)
        | none, none =>
            let started := s.start res row m acc w.opId w.caller.1 w.request
            (some started.1, started.2)
        | none, some txn =>
            if txn.opId = w.opId then (some txn.answer, s)
            else (none, { s with queued := s.queued.insert res (s.queue res ++ [w]) })

/-- Whether the row of `res` is a memory's with nothing in flight. -/
def idle (s : State) (res : Resource) : Bool :=
  match s.memoryRow res with
  | some (_, _, acc) => acc.txn.isNone
  | none => false

/-- `next_transaction/2` over the queue of `res`: a refusal or an answer from the row frees the slot
again, so the rest of the queue is not left waiting. -/
def drain (s : State) (res : Resource) : List Waiter → State
  | [] => { s with queued := s.queued.erase res }
  | w :: rest =>
      match { s with queued := s.queued.insert res rest }.transaction res w with
      | (some r, s) =>
          let s := s.reply w.caller r
          if s.idle res then s.drain res rest else s
      | (none, s) => s

def nextTransaction (s : State) (res : Resource) : State := s.drain res (s.queue res)

/-- Whether a transaction's first visible effect happened. -/
def published (s : State) (m : MemoryMeta) : Txn → Bool
  | .grow _ _ _ after pages chunks =>
      match m.chunksRef with
      | none => false
      | some r =>
          if pages = 0 then
            decide (after ≤ ((m.pagesRef.bind s.sizes.lookup).getD 0))
          else decide (chunks ≤ s.tupleSize (some r))
  | .arena _ _ _ target _ => decide (target ≤ s.tupleSize m.arenaRef)

def finishPublished (s : State) (res : Resource) (row : Row) (m : MemoryMeta) (acc : Account) :
    Txn → State
  | .grow opId pid before after _ _ =>
      ((s.publishSize m.pagesRef after).finish res row m acc pid opId
        (.okPages before)).nextTransaction res
  | .arena opId pid _ _ _ => (s.finish res row m acc pid opId .ok).nextTransaction res

/-- What a transaction reserved, given back. -/
def undo (s : State) (res : Resource) (row : Row) (m : MemoryMeta) (acc : Account) : Txn → State
  | .grow opId pid before after pages _ =>
      let s := s.putRow res
        { row with
          pages := before
          body := .memory m
            { acc with
              growth := acc.growth - pages
              txn := none
              done := acc.done.insert pid (opId, .aborted) } }
      row.holders.keys.foldl (fun s token => s.subTotal token ((after : ℤ) - before))
        (s.releasePages pages)
  | .arena opId pid _ _ pages =>
      (s.putAccount res row m
        { acc with
          arena := acc.arena - pages
          txn := none
          done := acc.done.insert pid (opId, .aborted) }).releasePages pages

/-- A transaction whose writer cannot finish it: dead, or asking to abort. -/
def settle (s : State) (res : Resource) (row : Row) (m : MemoryMeta) (acc : Account) (txn : Txn) :
    State :=
  if s.published m txn then s.finishPublished res row m acc txn
  else (s.undo res row m acc txn).nextTransaction res

/-- What a commit for an operation that is not in flight is told. -/
def outcome (s : State) (res : Resource) (pid : Pid) (opId : Ref) : Reply :=
  match s.memoryRow res with
  | some (_, _, acc) => (acc.outcomeOf pid opId).elim .stale Outcome.toReply
  | none => .stale

def forgetOutcome (s : State) (res : Resource) (opId : Ref) (pid : Pid) : State :=
  match s.memoryRow res with
  | some (row, m, acc) =>
      if (acc.outcomeOf pid opId).isSome then
        (s.putAccount res row m { acc with done := acc.done.erase pid }).unwatchWriter pid res
      else s
  | none => s.unwatchWriter pid res

/-- A writer died: its transaction on `res`, if any, is settled, and the outcome kept for it
goes. -/
def writerGone (s : State) (pid : Pid) (res : Resource) : State :=
  match s.memoryRow res with
  | none => s
  | some (row, m, acc) =>
      let kept := acc.done.lookup pid
      let acc := { acc with done := acc.done.erase pid }
      let row := { row with body := .memory m acc }
      let s := if kept.isSome then s.putRow res row else s
      match acc.txn with
      | some txn => if txn.pid = pid then s.settle res row m acc txn else s
      | none => s

/-! ## Heaps -/

/-- Which ceiling refuses this growth, if any. -/
def ceilings (s : State) (want : ℕ) (ceiling : Option ℕ) (delta extra : ℕ) (tokens : List Token) :
    Option Error :=
  if (ceiling.any fun max => decide (max < want + extra)) then some .exceedsMax
  else if ¬ tokens.all (fun token => s.within token (delta + extra)) then some .instanceLimit
  else none

def grow (s : State) (res : Resource) (row : Row) (want delta extra : ℕ) (ceil : Option Error) :
    Reply × State :=
  let charged := s.chargePages delta extra
  let s := charged.1.putRow res { row with pages := want }
  let s := row.holders.keys.foldl (fun s token => s.addTotal token delta) s
  -- `first_error/2`
  match ceil, charged.2 with
  | some e, _ => (.error e, s)
  | none, some e => (.error e, s)
  | none, none => (.ok, s)

/-- Up or down to what the tables were just measured at. -/
def doResize (s : State) (res : Resource) (want : ℕ) (ceiling : Option ℕ) (extra : ℕ) :
    Reply × State :=
  match s.rows.lookup res with
  | none => (.error .gone, s)
  | some row =>
      if want < row.pages then
        let back := row.pages - want
        let s := (s.putRow res { row with pages := want }).releasePages back
        (.ok, row.holders.keys.foldl (fun s token => s.subTotal token back) s)
      else
        let delta := want - row.pages
        s.grow res row want delta extra
          (s.ceilings want ceiling delta extra row.holders.keys)

end State

/-! ## Requests -/

inductive Request
  | setLimit (token : Token) (max : ℕ)
  | totalOf (token : Token)
  | reserve (pages : ℕ) (kind : Meta) (token : Token) (owner : Option Pid) (limit : Option ℕ)
  | acquire (res : Resource) (token : Token) (owner : Option Pid) (limit : Option ℕ)
  | release (res : Resource) (token : Token)
  | releaseAll (pairs : List (Resource × Token))
  | discard (token : Token)
  | transfer (src dst : Token) (owner : Option Pid)
  | reconcile (res : Resource) (ceiling : Option ℕ) (extra : ℕ)
  | imageReserve (bytes : ℕ) (owner : Pid) (id : Ref)
  | begin (res : Resource) (opId : Ref) (req : TxnRequest)
  | growCommit (res : Resource) (opId : Ref) (chunks : List Ref)
  | arenaCommit (res : Resource) (opId : Ref) (arena : List Ref)
  | txnAbort (res : Resource) (opId : Ref)

namespace State

def reserve (s : State) (pages : ℕ) (kind : Meta) (token : Token) (owner : Option Pid)
    (limit : Option ℕ) : Reply × State :=
  let s := s.pendingCap token limit
  if ¬ s.within token pages then (.error .instanceLimit, s)
  else if ¬ s.imageOk kind then (.error .gone, s)
  else
    let row :=
      { body := newLedger kind pages
        pages
        holders := (∅ : Table Token (Option Pid)).insert token owner
        retiring := false }
    match s.reservePages row.charged with
    | none => (.error .limit, s)
    | some s =>
        let res := s.nextRef
        let s := { s with nextRef := s.nextRef + 1 }.putRow res row
        let s := s.addTotal token pages
        let s := match kind with
          | .memory m => s.countImage m.image 1
          | .cell | .heap .. => s
        (.okResource res, s.watch owner res token)

def acquire (s : State) (res : Resource) (token : Token) (owner : Option Pid)
    (limit : Option ℕ) : Reply × State :=
  let s := s.pendingCap token limit
  match s.rows.lookup res with
  | none => (.error .gone, s)
  | some row =>
      if row.retiring then (.error .gone, s)
      else if (row.holders.lookup token).isSome then (.ok, s)
      else if ¬ s.within token row.pages then (.error .instanceLimit, s)
      else
        let s := s.putRow res { row with holders := row.holders.insert token owner }
        (.ok, (s.addTotal token row.pages).watch owner res token)

def discard (s : State) (pid : Pid) (token : Token) : State :=
  (s.dropAll ((s.heldUnder pid token).map fun res => (res, token))).forgetCap token

/-- The ceiling moves first, or goes when there is nothing to bound. -/
def transfer (s : State) (pid : Pid) (src dst : Token) (owner : Option Pid) : State :=
  let moved := s.heldUnder pid src
  let s := if moved = [] then s.forgetCap src else s.moveCap src dst
  moved.foldl (fun s res => s.retag src dst owner res) s

def reconcile (s : State) (res : Resource) (ceiling : Option ℕ) (extra : ℕ) : Reply × State :=
  match s.rows.lookup res with
  | none => (.error .gone, s)
  | some row =>
      match row.body with
      | .heap objs elems =>
          s.doResize res (pagesOf (s.wordsOf objs + s.wordsOf elems)) ceiling (pagesOf extra)
      | _ => (.error .gone, s)

def counterUninitialised : WasmError where
  cls := "invalid"
  kind := "snapshot_counter_uninitialised"
  msg := "the snapshot budget counter is not initialised"
  ctx := []

def snapshotBudget (limit wanted : ℕ) : WasmError where
  cls := "exhaustion"
  kind := "snapshot_budget"
  msg := "the node snapshot budget is exhausted"
  ctx := [("limit", limit), ("wanted", wanted)]

def imageReserve (s : State) (bytes : ℕ) (owner : Pid) (id : Ref) : Reply × State :=
  match s.snapshot with
  | none => (.error (.raised counterUninitialised), s)
  | some n =>
      match s.snapshotLimit.filter fun (limit : ℕ) => decide ((limit : ℤ) < n + bytes) with
      | some limit => (.error (.raised (snapshotBudget limit bytes)), s)
      | none =>
          let img := s.nextRef
          let token := .snapshot id
          let s := { s with snapshot := some (n + bytes), nextRef := s.nextRef + 1 }.putRow img
            { body := .image bytes
              pages := 0
              holders := (∅ : Table Token (Option Pid)).insert token (some owner)
              retiring := false }
          (.okResource img, s.addHeld owner img token)

def growCommit (s : State) (pid : Pid) (res : Resource) (opId : Ref) (chunks : List Ref) :
    Reply × State :=
  match s.memoryRow res with
  | none => (s.outcome res pid opId, s)
  | some (row, m, acc) =>
      match acc.txn with
      | some (.grow op _ before after _ count) =>
          if op = opId then
            let s := (s.publishChunks m.chunksRef chunks count).publishSize m.pagesRef after
            (.okPages before,
              (s.finish res row m acc pid opId (.okPages before)).nextTransaction res)
          else (s.outcome res pid opId, s)
      | _ => (s.outcome res pid opId, s)

/-- Where `{ok, _}` answers `ok`. -/
def arenaOutcome : Reply → Reply
  | .okPages _ => .ok
  | other => other

def arenaCommit (s : State) (pid : Pid) (res : Resource) (opId : Ref) (arena : List Ref) :
    Reply × State :=
  match s.memoryRow res with
  | none => (arenaOutcome (s.outcome res pid opId), s)
  | some (row, m, acc) =>
      match acc.txn with
      | some (.arena op _ _ target _) =>
          if op = opId then
            let s := s.publishChunks m.arenaRef arena target
            (.ok, (s.finish res row m acc pid opId .ok).nextTransaction res)
          else (arenaOutcome (s.outcome res pid opId), s)
      | _ => (arenaOutcome (s.outcome res pid opId), s)

def txnAbort (s : State) (pid : Pid) (res : Resource) (opId : Ref) : State :=
  match s.memoryRow res with
  | none => s.forgetOutcome res opId pid
  | some (row, m, acc) =>
      match acc.txn with
      | some txn =>
          if txn.opId = opId then s.settle res row m acc txn else s.forgetOutcome res opId pid
      | none => s.forgetOutcome res opId pid

/-- `handle_call/3`: the reply, `none` for `noreply`, and the state. -/
def handleCall (s : State) (caller : Caller) : Request → Option Reply × State
  | .setLimit token max => (some .ok, s.setCap token max)
  | .totalOf token => (some (.total (s.total token)), s)
  | .reserve pages kind token owner limit =>
      let r := s.reserve pages kind token owner limit
      (some r.1, r.2)
  | .acquire res token owner limit =>
      let r := s.acquire res token owner limit
      (some r.1, r.2)
  | .release res token => (some .ok, s.drop res token)
  | .releaseAll pairs => (some .ok, s.dropAll pairs)
  | .discard token => (some .ok, s.discard caller.1 token)
  | .transfer src dst owner => (some .ok, s.transfer caller.1 src dst owner)
  | .reconcile res ceiling extra =>
      let r := s.reconcile res ceiling extra
      (some r.1, r.2)
  | .imageReserve bytes owner id =>
      let r := s.imageReserve bytes owner id
      (some r.1, r.2)
  | .begin res opId req => s.transaction res { caller, opId, request := req }
  | .growCommit res opId chunks =>
      let r := s.growCommit caller.1 res opId chunks
      (some r.1, r.2)
  | .arenaCommit res opId arena =>
      let r := s.arenaCommit caller.1 res opId arena
      (some r.1, r.2)
  | .txnAbort res opId => (some .ok, s.txnAbort caller.1 res opId)

/-- `handle_info/2` on a `'DOWN'` message. -/
def handleDown (s : State) (pid : Pid) (mon : Ref) : State :=
  let s := match s.writers.lookup pid with
    | some (m, rs) =>
        if m = mon then
          rs.keys.foldl (fun (s : State) res => s.writerGone pid res)
            { s with writers := s.writers.erase pid }
        else s
    | none => s
  s.forgetHolder pid mon

end State

/-! ## The system -/

/-- A message the keeper handles, or something the rest of the node does to what it shares. -/
inductive Act
  | call (caller : Caller) (req : Request)
  | ack (res : Resource) (opId : Ref) (pid : Pid)
  | down (pid : Pid) (mon : Ref)
  | putCell (ref : Ref) (tuple : List Ref)
  | putSize (ref : Ref) (pages : ℕ)
  | putWords (tab : Ref) (words : ℕ)
  | setPageLimit (limit : ℕ)
  | setSnapshotLimit (limit : Option ℕ)
  | seedSnapshotCounter

def step (s : State) : Act → Option State
  | .call caller req =>
      let r := s.handleCall caller req
      match r.1 with
      | some reply => some (r.2.reply caller reply)
      | none => some r.2
  | .ack res opId pid => some (s.forgetOutcome res opId pid)
  | .down pid mon => some (s.handleDown pid mon)
  | .putCell ref tuple => some { s with cells := s.cells.insert ref tuple }
  | .putSize ref pages => some { s with sizes := s.sizes.insert ref pages }
  | .putWords tab words => some { s with words := s.words.insert tab words }
  | .setPageLimit limit => some { s with limit := limit }
  | .setSnapshotLimit limit => some { s with snapshotLimit := limit }
  | .seedSnapshotCounter => some { s with snapshot := some (s.snapshot.getD 0) }

end ErlangWasm.Keeper
