import ErlangWasm.Reasoning.Table
import Mathlib.Data.List.Sort

/-!
# The object store

`wasm_heap`'s tables: the rows of the objects, the elements of arrays that were written, the
remembered set and the pins.  Ids are handed out in order and never again, so a store carries that
its rows lie below the next one.  What the keeper answers to a charge is said with each operation.
-/

namespace ErlangWasm.Heap

open Reasoning

inductive Val
  | objref (id : ℕ)
  | external (v : Val)
  | internal (v : Val)
  /-- a number, a null, an `i31` or a function -/
  | plain (n : ℤ)
  deriving DecidableEq

inductive Row
  | struct (type : ℕ) (fields : List Val)
  /-- `traced` is whether its elements may be references. -/
  | array (type len : ℕ) (default : Val) (traced : Bool)
  deriving DecidableEq

structure Store where
  rows : Table ℕ Row
  elems : Table (ℕ × ℕ) Val
  remembered : List ℕ
  pinned : Table ℕ ℕ
  next : ℕ
  watermark : ℕ
  lastMajor : ℕ
  charged : ℕ
  majorPages : ℕ
  trigger : ℕ
  rows_lt : ∀ id row, rows.lookup id = some row → id < next
  watermark_le : watermark ≤ next

inductive Fault
  | foreignReference (id : ℕ)
  /-- the charge is refused -/
  | limit
  | badarg
  deriving DecidableEq

namespace Store

/-- A new store, of which the first collection is due at `trigger` pages. -/
def new (trigger : ℕ) : Store where
  rows := ∅
  elems := ∅
  remembered := []
  pinned := ∅
  next := 0
  watermark := 0
  lastMajor := 0
  charged := 0
  majorPages := 0
  trigger := trigger
  rows_lt _ _ h := by cases h
  watermark_le := Nat.le_refl 0

/-! ## Objects -/

/-- An id is taken. -/
def take (s : Store) : Store :=
  { s with
    next := s.next + 1
    rows_lt := fun id row h => Nat.lt_succ_of_lt (s.rows_lt id row h)
    watermark_le := Nat.le_succ_of_le s.watermark_le }

def alloc (s : Store) (row : Row) : Store :=
  { s.take with
    rows := s.rows.insert s.next row
    rows_lt := by
      intro id row' h
      rw [Table.lookup_insert_eq] at h
      split at h
      · rename_i hid
        rw [hid]
        exact Nat.lt_succ_self s.next
      · exact Nat.lt_succ_of_lt (s.rows_lt id row' h) }

/-- The id is gone also where the row is refused. -/
def newStruct (s : Store) (room : Bool) (type : ℕ) (fields : List Val) : Except Fault Val × Store :=
  if room then (.ok (.objref s.next), s.alloc (.struct type fields)) else (.error .limit, s.take)

def newArray (s : Store) (room : Bool) (type len : ℕ) (default : Val) (traced : Bool) :
    Except Fault Val × Store :=
  if room then (.ok (.objref s.next), s.alloc (.array type len default traced))
  else (.error .limit, s.take)

/-! ## Access -/

end Store

/-- What follows a row's type. -/
def Row.values : Row → List Val
  | .struct _ fields => fields
  | .array _ len default _ => [.plain len, default]

def Row.setField : Row → ℕ → Val → Option Row
  | .struct type fields, idx, v =>
      if idx < fields.length then some (.struct type (fields.set idx v)) else none
  | .array type len _ traced, 1, v => some (.array type len v traced)
  | .array _ _ _ _, _, _ => none

namespace Store

def getField (s : Store) (id idx : ℕ) : Except Fault Val :=
  match s.rows.lookup id with
  | none => .error (.foreignReference id)
  | some row =>
      match row.values[idx]? with
      | some v => .ok v
      | none => .error .badarg

inductive Kind
  | struct
  | array
  deriving DecidableEq

def typeOf (s : Store) (id : ℕ) : Except Fault (Kind × ℕ) :=
  match s.rows.lookup id with
  | none => .error (.foreignReference id)
  | some (.struct type _) => .ok (.struct, type)
  | some (.array type _ _ _) => .ok (.array, type)

/-- A reference stored into an object older than the nursery is noted. -/
def remember (s : Store) (id : ℕ) : Val → Store
  | .objref _ =>
      if id < s.watermark then { s with remembered := s.remembered.insert id } else s
  | .external v => s.remember id v
  | .internal v => s.remember id v
  | .plain _ => s

/-- A row is replaced by another. -/
def putRow (s : Store) (id : ℕ) (row old : Row) (hold : s.rows.lookup id = some old) : Store :=
  { s with
    rows := s.rows.insert id row
    rows_lt := by
      intro id' row' h
      rw [Table.lookup_insert_eq] at h
      split at h
      · rename_i hid
        rw [hid]
        exact s.rows_lt id old hold
      · exact s.rows_lt id' row' h }

def setField (s : Store) (room : Bool) (id idx : ℕ) (v : Val) : Except Fault Unit × Store :=
  if room then
    match hrow : s.rows.lookup id with
    | none => (.error (.foreignReference id), s)
    | some old =>
        match old.setField idx v with
        | some row => (.ok (), (s.putRow id row old hrow).remember id v)
        | none => (.error .badarg, s)
  else (.error .limit, s)

/-- `array_set_unchecked/4`. -/
def arraySet (s : Store) (room : Bool) (id idx : ℕ) (v : Val) : Except Fault Unit × Store :=
  if room then (.ok (), { s with elems := s.elems.insert (id, idx) v }.remember id v)
  else (.error .limit, s)

/-- `array_fill/5` of a whole array: the elements go, and the default says what they are. -/
def fillWhole (s : Store) (id : ℕ) (v : Val) : Store :=
  match hrow : s.rows.lookup id with
  | none => s
  | some old =>
      match old.setField 1 v with
      | some row =>
          { s.putRow id row old hrow with
            elems := s.elems.filterRows fun key _ => key.1 ≠ id }.remember id v
      | none => s

/-- One element of `copy_up/6` or `copy_down/6`. -/
def copyElem (s : Store) (room : Bool) (dst i src j : ℕ) : Except Fault Unit × Store :=
  match (s.rows.lookup src).bind fun row => row.values[1]? with
  | none => (.error .badarg, s)
  | some default => s.arraySet room dst i ((s.elems.lookup (src, j)).getD default)

/-! ## Pins -/

def pin (s : Store) : Val → Store
  | .objref id => { s with pinned := s.pinned.insert id ((s.pinned.lookup id).getD 0 + 1) }
  | _ => s

def unpin (s : Store) : Val → Store
  | .objref id =>
      match s.pinned.lookup id with
      | some n =>
          if n ≤ 1 then { s with pinned := s.pinned.erase id }
          else { s with pinned := s.pinned.insert id (n - 1) }
      | none => s
  | _ => s

def unpinAll (s : Store) : Store := { s with pinned := ∅ }

def pins (s : Store) : List Val := (s.pinned.keys.insertionSort (· ≤ ·)).reverse.map .objref

/-! ## Order -/

/-- The elements of an array that were written, in order. -/
def elementsOf (s : Store) (id : ℕ) : List Val :=
  ((s.elems.entries.filter fun e => e.1.1 = id).insertionSort fun a b => a.1.2 ≤ b.1.2).map (·.2)

end Store

end ErlangWasm.Heap
