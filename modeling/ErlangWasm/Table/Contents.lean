import ErlangWasm.Reasoning.Atomics
import ErlangWasm.Reasoning.Run

/-!
# What a table holds and what its operations do to it

The contents of a `wasm_table` are an extendible `array` with a default: reading past the end
answers the default, writing there grows the array.  Every operation is a function of the whole
array, and the ones that write compute a whole new one.

`Op.after` is the source's functions from the moment `array_of/1` has answered; `Op.apply` is what
an operation means on its own.
-/

namespace ErlangWasm.Table

/-- A table slot.  `other` stands for any reference that is not a function. -/
inductive Value
  | null
  | funcref (inst f : ℕ)
  | other (ref : ℕ)
  deriving DecidableEq, Repr

/-- What travels in the handle, with the array's default and the node's `table_grow_limit`. -/
structure TableType where
  max : Option ℕ
  index64 : Bool
  default : Value
  growLimit : ℕ

/-- `?NULL_FUNC_WORD`. -/
def nullFuncWord : ℕ := 0xFFFFFFFF

/-- `?MAX_TABLE_SIZE` and `?MAX_TABLE_SIZE_64`. -/
def maxTableSize : ℕ := 0xFFFFFFFF

def maxTableSize64 : ℕ := 0xFFFFFFFFFFFFFFFF

/-! ## The array -/

/-- `array:get/2`. -/
def arrayGet (dflt : Value) (i : ℕ) (l : List Value) : Value :=
  l.getD i dflt

/-- `array:set/3`. -/
def arraySet (dflt : Value) (i : ℕ) (v : Value) (l : List Value) : List Value :=
  if i < l.length then l.set i v else l ++ List.replicate (i - l.length) dflt ++ [v]

/-- `array:resize/2`. -/
def resize (dflt : Value) (n : ℕ) (l : List Value) : List Value :=
  l.take n ++ List.replicate (n - l.length) dflt

/-- `fill_range/4`. -/
def fillRange (dflt : Value) (l : List Value) (dst : ℕ) : ℕ → Value → List Value
  | 0, _ => l
  | len + 1, v => fillRange dflt (arraySet dflt dst v l) (dst + 1) len v

/-- `fill_new/5`. -/
def fillNew (dflt : Value) (l : List Value) (new old delta : ℕ) (init : Value) : List Value :=
  if init = dflt then resize dflt new l else fillRange dflt (resize dflt new l) old delta init

/-- The fold of `init/3`: `Dst + I` gets the `I`th value. -/
def initVals (dflt : Value) (dst : ℕ) : List Value → List Value → List Value
  | [], l => l
  | v :: vals, l => initVals dflt (dst + 1) vals (arraySet dflt dst v l)

/-- The slice `copy/5` reads out. -/
def slice (dflt : Value) (src len : ℕ) (l : List Value) : List Value :=
  (List.range len).map fun i => arrayGet dflt (src + i) l

/-- One packed word of `init_funcrefs/3`. -/
def funcrefSlot (inst word : ℕ) : Value :=
  if word = nullFuncWord then .null else .funcref inst word

/-! ## Operations -/

inductive Op
  | get (i : ℕ)
  | size
  | set (i : ℕ) (v : Value)
  | grow (delta : ℕ) (init : Value)
  | fill (dst len : ℕ) (v : Value)
  | copy (dst src len : ℕ)
  | init (dst : ℕ) (vals : List Value)
  | initFuncrefs (words : List ℕ) (inst : ℕ)
  deriving DecidableEq, Repr

inductive Answer
  | value (v : Value)
  | size (n : ℕ)
  | ok
  | grown (old : ℕ)
  | exceedsMax
  -- `lists:nthtail/2` past the end of the table
  | raised
  deriving DecidableEq, Repr

def Op.writes : Op → Bool
  | .get _ | .size => false
  | _ => true

/-- What follows `array_of/1`: the operation answers, stores a new array and answers, or goes on
as another operation. -/
inductive Next
  | done (answer : Answer)
  | store (l : List Value) (answer : Answer)
  | call (op : Op)
  deriving DecidableEq, Repr

variable (tt : TableType)

/-- The `Ceiling` of `grow/3`. -/
def ceiling : ℕ :=
  match tt.max with
  | none => if tt.index64 then maxTableSize64 else maxTableSize
  | some n => n

/-- `grow/3` refuses. -/
def refusesGrow (new : ℕ) : Prop :=
  ceiling tt < new ∨ tt.growLimit < new

instance (new : ℕ) : Decidable (refusesGrow tt new) := by
  unfold refusesGrow
  infer_instance

/-- The array `init_funcrefs/3` stores, when the table has a slot for every word. -/
def funcrefs (words : List ℕ) (inst : ℕ) (l : List Value) : Option (List Value) :=
  if l.length = words.length then some (words.map (funcrefSlot inst))
  else if words.length ≤ l.length then
    some (words.map (funcrefSlot inst) ++ l.drop words.length)
  else none

/-- The rest of each operation, from the array its `array_of/1` answered. -/
def Op.after (l : List Value) : Op → Next
  | .get i => .done (.value (arrayGet tt.default i l))
  | .size => .done (.size l.length)
  | .set i v => .store (arraySet tt.default i v l) .ok
  | .grow delta v =>
      if refusesGrow tt (l.length + delta) then .done .exceedsMax
      else .store (fillNew tt.default l (l.length + delta) l.length delta v) (.grown l.length)
  | .fill dst len v => .store (fillRange tt.default l dst len v) .ok
  -- the slice is in hand, and `init/3` reads the table again
  | .copy dst src len => .call (.init dst (slice tt.default src len l))
  | .init dst vals => .store (initVals tt.default dst vals l) .ok
  | .initFuncrefs words inst =>
      match funcrefs words inst l with
      | some l' => .store l' .ok
      | none => .done .raised

/-- An operation with the table to itself: the contents after it, and what it answers. -/
def Op.apply (l : List Value) : Op → List Value × Answer
  | .get i => (l, .value (arrayGet tt.default i l))
  | .size => (l, .size l.length)
  | .set i v => (arraySet tt.default i v l, .ok)
  | .grow delta v =>
      if refusesGrow tt (l.length + delta) then (l, .exceedsMax)
      else (fillNew tt.default l (l.length + delta) l.length delta v, .grown l.length)
  | .fill dst len v => (fillRange tt.default l dst len v, .ok)
  | .copy dst src len => (initVals tt.default dst (slice tt.default src len l) l, .ok)
  | .init dst vals => (initVals tt.default dst vals l, .ok)
  | .initFuncrefs words inst =>
      match funcrefs words inst l with
      | some l' => (l', .ok)
      | none => (l, .raised)

variable {tt} {op op' : Op} {l l' : List Value} {a : Answer}

theorem apply_of_done (h : op.after tt l = .done a) : op.apply tt l = (l, a) := by
  cases op with
  | grow delta v =>
    simp only [Op.after] at h
    simp only [Op.apply]
    split at h
    · rename_i hr
      cases h
      rw [if_pos hr]
    · cases h
  | initFuncrefs words inst =>
    simp only [Op.after] at h
    simp only [Op.apply]
    split at h
    · cases h
    · cases h
      rfl
  | get => cases h; rfl
  | size => cases h; rfl
  | _ => cases h

theorem apply_of_store (h : op.after tt l = .store l' a) : op.apply tt l = (l', a) := by
  cases op with
  | grow delta v =>
    simp only [Op.after] at h
    simp only [Op.apply]
    split at h
    · cases h
    · rename_i hr
      cases h
      rw [if_neg hr]
  | initFuncrefs words inst =>
    simp only [Op.after] at h
    simp only [Op.apply]
    split at h
    · cases h
      rfl
    · cases h
  | get | size | copy => cases h
  | _ => cases h; rfl

/-- An operation that goes on as another does what the other does to the same contents. -/
theorem apply_of_call (h : op.after tt l = .call op') : op.apply tt l = op'.apply tt l := by
  cases op with
  | copy dst src len => cases h; rfl
  | grow delta v | initFuncrefs words inst =>
    simp only [Op.after] at h
    split at h <;> cases h
  | _ => cases h

theorem writes_of_call (h : op.after tt l = .call op') : op'.writes = true := by
  cases op with
  | copy dst src len => cases h; rfl
  | grow delta v | initFuncrefs words inst =>
    simp only [Op.after] at h
    split at h <;> cases h
  | _ => cases h

/-- Only an operation that writes stores or goes on. -/
theorem after_of_not_writes (h : op.writes = false) : op.after tt l = .done (op.apply tt l).2 := by
  cases op with
  | get => rfl
  | size => rfl
  | _ => cases h

theorem apply_of_not_writes (h : op.writes = false) : (op.apply tt l).1 = l := by
  cases op with
  | get => rfl
  | size => rfl
  | _ => cases h

end ErlangWasm.Table

/-!
## One table in the hands of many processes

The array of a table is in three places: the shared row, a version cell beside it, and a cache in
each process's dictionary that says which version it is a copy of.  Every one of them is read and
written in a step of its own.  The cache is bounded, so an entry can be evicted whenever its
process is busy with another table, and `forget_local/1` erases it.

`clock` and `completed` are not the source's: they record when each operation began and ended, and
what it answered.
-/

namespace ErlangWasm.Table

open Reasoning Reasoning.Atomics

/-- One call of an operation. -/
structure Call where
  op : Op
  started : ℕ
  deriving DecidableEq, Repr

structure Done where
  call : Call
  answer : Answer
  ended : ℕ
  deriving DecidableEq, Repr

/-- Where a process stands.  `op` is the function it is in, which is the call's own until `copy/5`
goes on as `init/3`. -/
inductive Pc
  | idle
  -- `array_of/1`
  | readVersion (c : Call) (op : Op)
  | lookupCache (c : Call) (op : Op) (now : ℕ)
  | readStore (c : Call) (op : Op) (now : ℕ)
  | cacheRead (c : Call) (op : Op) (now : ℕ) (l : List Value)
  -- `store/2`
  | tablePut (c : Call) (l : List Value) (a : Answer)
  | bumpVersion (c : Call) (l : List Value) (a : Answer)
  | cacheWrite (c : Call) (l : List Value) (a : Answer) (new : ℕ)
  deriving DecidableEq, Repr

structure State (P : Type) where
  stored : List Value
  version : ℕ
  cache : P → Option (ℕ × List Value)
  pc : P → Pc
  clock : ℕ
  completed : List Done

variable {P : Type}

/-- A table just made. -/
def State.init (contents : List Value) : State P where
  stored := contents
  version := 0
  cache := fun _ => none
  pc := fun _ => .idle
  clock := 0
  completed := []

variable [DecidableEq P]

namespace State

def goto (s : State P) (p : P) (c : Pc) : State P :=
  { s with pc := Function.update s.pc p c }

/-- `put({wasm_table_cache, Id}, {Version, Array})`. -/
def putCache (s : State P) (p : P) (version : ℕ) (l : List Value) : State P :=
  { s with cache := Function.update s.cache p (some (version, l)) }

/-- The operation answers. -/
def finish (s : State P) (p : P) (c : Call) (a : Answer) : State P :=
  { s with
    clock := s.clock + 1
    completed := s.completed ++ [(⟨c, a, s.clock⟩ : Done)] }.goto p .idle

end State

variable (tt : TableType)

/-- `array_of/1` has answered `l`. -/
def State.proceed (s : State P) (p : P) (c : Call) (op : Op) (l : List Value) : State P :=
  match op.after tt l with
  | .done a => s.finish p c a
  | .store l' a => s.goto p (.tablePut c l' a)
  | .call op' => s.goto p (.readVersion c op')

/-- The next step of process `p`. -/
def State.go (s : State P) (p : P) : Pc → Option (State P)
  | .idle => none
  | .readVersion c op => some (s.goto p (.lookupCache c op s.version))
  | .lookupCache c op now =>
      match s.cache p with
      | some (version, l) =>
          if version = now then some (s.proceed tt p c op l)
          else some (s.goto p (.readStore c op now))
      | none => some (s.goto p (.readStore c op now))
  | .readStore c op now => some (s.goto p (.cacheRead c op now s.stored))
  | .cacheRead c op now l => some ((s.putCache p now l).proceed tt p c op l)
  | .tablePut c l a => some ({ s with stored := l }.goto p (.bumpVersion c l a))
  | .bumpVersion c l a =>
      some ({ s with version := addGet s.version 1 }.goto p
        (.cacheWrite c l a (addGet s.version 1)))
  | .cacheWrite c l a new => some ((s.putCache p new l).finish p c a)

inductive Act (P : Type)
  | call (p : P) (op : Op)
  | go (p : P)
  -- `forget_local/1`, or the eviction a table cached for the first time brings about
  | evict (p : P)
  deriving DecidableEq, Repr

def step (s : State P) : Act P → Option (State P)
  | .call p op =>
      if s.pc p = .idle then
        some ({ s with clock := s.clock + 1 }.goto p (.readVersion ⟨op, s.clock⟩ op))
      else none
  | .go p => s.go tt p (s.pc p)
  | .evict p =>
      if s.pc p = .idle then some { s with cache := Function.update s.cache p none } else none

end ErlangWasm.Table
