import ErlangWasm.Reasoning.Table

/-!
# The keeper's registry

What `wasm_keeper` holds: the rows of the `wasm_holders` table, the gen_server's own maps, and the
counters and cells of `wasm_engine` it moves.  Processes and references are opaque identities, so
natural numbers serve for both; a resource is a reference the keeper mints.

Counters are integers here and `belowZero` records any subtraction that takes one below zero.  The
source's `atomics` would wrap there instead.  A chunk tuple is the list of its chunks.
-/

namespace ErlangWasm.Keeper

open Reasoning

abbrev Pid := ℕ
abbrev Ref := ℕ
abbrev Resource := Ref

/-- `token()`. -/
inductive Token
  | ofInstance (id : Ref)
  | process (pid : Pid)
  | build (ref : Ref)
  | snapshot (id : Ref)
  | manual
  deriving DecidableEq, Repr

/-- The last component of a memory's `meta()`: image pages and pages to a growth chunk. -/
structure Geometry where
  image : ℕ
  chunk : ℕ
  chunk_pos : 0 < chunk

/-- `{memory, CRef, PagesRef, ARef, Img, {I, C}}`. -/
structure MemoryMeta where
  chunksRef : Option Ref
  pagesRef : Option Ref
  arenaRef : Option Ref
  image : Option Resource
  geometry : Geometry

/-- A private memory of one-page chunks. -/
def plainMemory : MemoryMeta where
  chunksRef := some 100
  pagesRef := some 101
  arenaRef := none
  image := none
  geometry := { image := 0, chunk := 1, chunk_pos := Nat.one_pos }

/-- A transaction in flight: `{OpId, Pid, grow, From, To, PD, CT}` or
`{OpId, Pid, arena, Have, Target, PD}`. -/
inductive Txn
  | grow (opId : Ref) (pid : Pid) (before after pages chunks : ℕ)
  | arena (opId : Ref) (pid : Pid) (published target pages : ℕ)
  deriving DecidableEq, Repr

namespace Txn

def opId : Txn → Ref
  | grow opId .. | arena opId .. => opId

def pid : Txn → Pid
  | grow _ pid .. | arena _ pid .. => pid

end Txn

/-- What a commit answered, kept for its writer. -/
inductive Outcome
  | ok
  | okPages (pages : ℕ)
  | aborted
  deriving DecidableEq, Repr

/-- A memory's ledger: `phys`, `txn` and `done`. -/
structure Account where
  table : ℤ
  growth : ℤ
  arena : ℤ
  txn : Option Txn
  done : Table Pid (Ref × Outcome)

/-- What may be reserved, `meta()` without the image. -/
inductive Meta
  | memory (m : MemoryMeta)
  | cell
  | heap (objs elems : Ref)

/-- A row's `meta()`, a memory's with the ledger only a memory has. -/
inductive Body
  | memory (m : MemoryMeta) (acc : Account)
  | image (bytes : ℕ)
  | cell
  | heap (objs elems : Ref)

/-- `{Res, Meta, Pages, Holders, Ledger}`; `retiring` is the ledger's `state`. -/
structure Row where
  body : Body
  pages : ℕ
  holders : Table Token (Option Pid)
  retiring : Bool

structure WasmError where
  cls : String
  kind : String
  msg : String
  ctx : List (String × ℕ)
  deriving DecidableEq, Repr

inductive Error
  | limit
  | instanceLimit
  | gone
  | exceedsMax
  | raised (e : WasmError)
  deriving DecidableEq, Repr

inductive Reply
  | ok
  | okPages (pages : ℕ)
  | okResource (res : Resource)
  | total (pages : ℤ)
  | done (outcome : Outcome)
  | covered
  | changed (published : ℕ)
  | aborted
  | stale
  | error (e : Error)
  deriving DecidableEq, Repr

/-- Who a `gen_server` call is from: the process and the tag of the call. -/
abbrev Caller := Pid × Ref

/-- The two requests that may have to wait for a transaction in flight. -/
inductive TxnRequest
  | growBegin (delta ceiling : ℕ)
  | arenaBegin (target seen pages : ℕ)
  deriving DecidableEq, Repr

/-- An entry of `queued`. -/
structure Waiter where
  caller : Caller
  opId : Ref
  request : TxnRequest
  deriving DecidableEq, Repr

structure State where
  -- the `wasm_holders` table: resource rows and `{cap, Token}` rows
  rows : Table Resource Row
  capRows : Table Token ℕ
  -- the gen_server's maps
  held : Table Pid (Table (Resource × Token) Unit)
  mons : Table Pid Ref
  caps : Table Token ℕ
  totals : Table Token ℤ
  queued : Table Resource (List Waiter)
  writers : Table Pid (Ref × Table Resource Unit)
  images : Table Resource ℤ
  -- the node counters, and their limits
  pages : ℤ
  limit : ℤ
  snapshot : Option ℤ
  snapshotLimit : Option ℕ
  -- what memories and heaps publish: chunk tuples, page counts, and the words of an ETS table
  cells : Table Ref (List Ref)
  sizes : Table Ref ℕ
  words : Table Ref ℕ
  -- the next reference `make_ref/0` or a monitor answers, and the replies sent, newest first
  nextRef : Ref
  sent : List (Caller × Reply)
  belowZero : Bool

/-- A keeper started over an empty registry. -/
def State.init : State where
  rows := ∅
  capRows := ∅
  held := ∅
  mons := ∅
  caps := ∅
  totals := ∅
  queued := ∅
  writers := ∅
  images := ∅
  pages := 0
  limit := 16384
  snapshot := none
  snapshotLimit := none
  cells := ∅
  sizes := ∅
  words := ∅
  nextRef := 0
  sent := []
  belowZero := false

/-! ## Pages -/

/-- Sixteen 64-bit entries per image page, and two more after them. -/
def tablePages (i : ℕ) : ℕ :=
  if i = 0 then 0 else ((i * 16 + 2) * 8 + 65535) / 65536

/-- The growth chunks a memory of `l` pages has allocated past an image of `i`, in chunks of
`c` pages. -/
def growthPages (l i c : ℕ) : ℕ := (l - i + c - 1) / c * c

def chunkCount (l c : ℕ) : ℕ := (l + c - 1) / c

def pagesOf (words : ℕ) : ℕ := (words * 8 + 65535) / 65536

/-- What a row costs the node budget. -/
def Row.charged (row : Row) : ℤ :=
  match row.body with
  | .memory _ acc => acc.table + acc.growth + acc.arena
  | .image _ => 0
  | .cell | .heap .. => row.pages

/-- What a holder counts against its ceiling. -/
def Row.counted (row : Row) : ℤ :=
  match row.body with
  | .image _ => 0
  | .memory .. | .cell | .heap .. => row.pages

/-- What a new row owes. -/
def newLedger (kind : Meta) (pages : ℕ) : Body :=
  match kind with
  | .memory m => .memory m
      { table := tablePages m.geometry.image
        growth := growthPages pages m.geometry.image m.geometry.chunk
        arena := 0
        txn := none
        done := ∅ }
  | .cell => .cell
  | .heap objs elems => .heap objs elems

namespace State

/-! ## The registry, the replies and the node counters -/

def putRow (s : State) (res : Resource) (row : Row) : State :=
  { s with rows := s.rows.insert res row }

def deleteRow (s : State) (res : Resource) : State :=
  { s with rows := s.rows.erase res }

def reply (s : State) (caller : Caller) (r : Reply) : State :=
  { s with sent := (caller, r) :: s.sent }

/-- `wasm_engine:reserve_pages/1`; `none` is `{error, limit}`. -/
def reservePages (s : State) (n : ℤ) : Option State :=
  if n = 0 then some s
  else if s.limit < s.pages + n then none
  else some { s with pages := s.pages + n }

/-- `wasm_engine:release_pages/1`. -/
def releasePages (s : State) (n : ℤ) : State :=
  { s with
    pages := s.pages - n
    belowZero := s.belowZero || decide (s.pages - n < 0) }

/-- `wasm_engine:charge_pages/2`: the count moves whatever the answer. -/
def chargePages (s : State) (n extra : ℕ) : State × Option Error :=
  if n = 0 ∧ extra = 0 then (s, none)
  else
    ({ s with pages := s.pages + n },
      if s.limit < s.pages + n + extra then some .limit else none)

/-- `tuple_size(wasm_engine:cell_get(Ref))`.  A cell that is not there, which would take the keeper
down, reads as empty. -/
def tupleSize (s : State) (ref : Option Ref) : ℕ :=
  ((ref.bind s.cells.lookup).getD []).length

/-- `publish_chunks/3`: a published tuple is only ever replaced by a longer one. -/
def publishChunks (s : State) (ref : Option Ref) (tuple : List Ref) (target : ℕ) : State :=
  { s with
    cells := match ref with
      | none => s.cells
      | some r => if s.tupleSize ref < target then s.cells.insert r tuple else s.cells }

/-- `atomics:put(PagesRef, 1, To)` where there is a `PagesRef`. -/
def publishSize (s : State) (ref : Option Ref) (pages : ℕ) : State :=
  { s with
    sizes := match ref with
      | none => s.sizes
      | some r => s.sizes.insert r pages }

def wordsOf (s : State) (tab : Ref) : ℕ := (s.words.lookup tab).getD 0

/-! ## Images -/

def imageLive (s : State) (img : Resource) : Bool :=
  match s.rows.lookup img with
  | none => false
  | some row =>
      match row.body with
      | .image _ => !row.retiring
      | _ => false

def imageOk (s : State) : Meta → Bool
  | .memory m => m.image.all s.imageLive
  | .cell | .heap .. => true

def imageCount (s : State) (img : Resource) : ℤ := (s.images.lookup img).getD 0

def countImage (s : State) (image : Option Resource) (n : ℤ) : State :=
  { s with
    images := match image with
      | none => s.images
      | some img => s.images.insert img (s.imageCount img + n)
    belowZero := s.belowZero || image.any fun img => decide (s.imageCount img + n < 0) }

/-! ## Totals and ceilings -/

def total (s : State) (token : Token) : ℤ := (s.totals.lookup token).getD 0

/-- Whether this holder can take `pages` more without passing its ceiling. -/
def within (s : State) (token : Token) (pages : ℕ) : Bool :=
  match s.caps.lookup token with
  | none => true
  | some max => decide (s.total token + pages ≤ max)

def addTotal (s : State) (token : Token) (pages : ℤ) : State :=
  { s with
    totals := if pages = 0 then s.totals
      else s.totals.insert token (s.total token + pages) }

/-- Nothing left under the token takes its ceiling with it, the row and the map entry. -/
def subTotal (s : State) (token : Token) (pages : ℤ) : State :=
  let left := s.total token - pages
  { s with
    totals := if left ≤ 0 then s.totals.erase token else s.totals.insert token left
    caps := if left ≤ 0 then s.caps.erase token else s.caps
    capRows := if left ≤ 0 then s.capRows.erase token else s.capRows
    belowZero := s.belowZero || decide (left < 0) }

def setCap (s : State) (token : Token) (max : ℕ) : State :=
  { s with capRows := s.capRows.insert token max, caps := s.caps.insert token max }

def forgetCap (s : State) (token : Token) : State :=
  { s with capRows := s.capRows.erase token, caps := s.caps.erase token }

def moveCap (s : State) (src dst : Token) : State :=
  { s with
    capRows := match s.caps.lookup src with
      | some max => (s.capRows.erase src).insert dst max
      | none => s.capRows
    caps := match s.caps.lookup src with
      | some max => (s.caps.erase src).insert dst max
      | none => s.caps }

/-- A ceiling carried by a build's own reservation; only the first one sets it. -/
def pendingCap (s : State) (token : Token) (max : Option ℕ) : State :=
  match max with
  | none => s
  | some max => if (s.caps.lookup token).isSome then s else s.setCap token max

/-! ## The reverse index and the monitors -/

/-- What process `pid` holds. -/
def heldBy (s : State) (pid : Pid) : Table (Resource × Token) Unit :=
  (s.held.lookup pid).getD ∅

/-- `add_held/4`, with a monitor on a process that has none yet. -/
def addHeld (s : State) (pid : Pid) (res : Resource) (token : Token) : State :=
  { s with
    held := s.held.insert pid ((s.heldBy pid).insert (res, token) ())
    mons := if (s.mons.lookup pid).isSome then s.mons else s.mons.insert pid s.nextRef
    nextRef := if (s.mons.lookup pid).isSome then s.nextRef else s.nextRef + 1 }

def watch (s : State) (owner : Option Pid) (res : Resource) (token : Token) : State :=
  match owner with
  | none => s
  | some pid => s.addHeld pid res token

def unwatch (s : State) (pid : Pid) : State :=
  { s with held := s.held.erase pid, mons := s.mons.erase pid }

def unhold (s : State) (owner : Option Pid) (res : Resource) (token : Token) : State :=
  match owner with
  | none => s
  | some pid =>
      match s.held.lookup pid with
      | none => s
      | some mine =>
          if (mine.erase (res, token)).keys = [] then s.unwatch pid
          else { s with held := s.held.insert pid (mine.erase (res, token)) }

def watchWriter (s : State) (pid : Pid) (res : Resource) : State :=
  match s.writers.lookup pid with
  | some (mon, rs) => { s with writers := s.writers.insert pid (mon, rs.insert res ()) }
  | none =>
      { s with
        writers := s.writers.insert pid (s.nextRef, (∅ : Table Resource Unit).insert res ())
        nextRef := s.nextRef + 1 }

/-- A writer with nothing left on `res`. -/
def unwatchWriter (s : State) (pid : Pid) (res : Resource) : State :=
  match s.writers.lookup pid with
  | none => s
  | some (mon, rs) =>
      if (rs.erase res).keys = [] then { s with writers := s.writers.erase pid }
      else { s with writers := s.writers.insert pid (mon, rs.erase res) }

/-- `maps:get(Res, Queued, [])`. -/
def queue (s : State) (res : Resource) : List Waiter := (s.queued.lookup res).getD []

end State

end ErlangWasm.Keeper
