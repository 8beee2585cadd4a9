import ErlangWasm.Reasoning.Run
import Mathlib.Data.Finset.Basic

/-!
# Nested calls among instances

One process calls into instances, and they into each other.  What an instruction changes of its
instance is threaded through the interpreter and through generated code in `#mut{}`; a call that
ends writes it back, a host call publishes it, and a checkpoint keeps it for a call that does not
end.

Memories' bytes, tables and the globals another module can observe are shared structures; they are
not part of what is threaded.
-/

namespace ErlangWasm.Calls

open Function

/-! ## What is threaded -/

structure Mut where
  globals : List ℤ
  /-- The sizes of private memories. -/
  mems : List ℕ
  droppedDatas : Finset ℕ
  droppedElems : Finset ℕ
  deriving DecidableEq

inductive Write
  | globalSet (i : ℕ) (v : ℤ)
  /-- One that is granted; a refusal changes nothing. -/
  | memoryGrow (m delta : ℕ)
  | dataDrop (d : ℕ)
  | elemDrop (e : ℕ)
  deriving DecidableEq

def Write.apply (mu : Mut) : Write → Mut
  | .globalSet i v => { mu with globals := mu.globals.set i v }
  | .memoryGrow m delta => { mu with mems := mu.mems.modify m (· + delta) }
  | .dataDrop d => { mu with droppedDatas := insert d mu.droppedDatas }
  | .elemDrop e => { mu with droppedElems := insert e mu.droppedElems }

inductive Read
  | globalGet (i : ℕ)
  | memorySize (m : ℕ)
  | dataDropped (d : ℕ)
  | elemDropped (e : ℕ)
  deriving DecidableEq

inductive Answer
  | value (v : Option ℤ)
  | size (n : Option ℕ)
  | dropped (is : Bool)
  deriving DecidableEq

def Mut.answer (mu : Mut) : Read → Answer
  | .globalGet i => .value mu.globals[i]?
  | .memorySize m => .size mu.mems[m]?
  | .dataDropped d => .dropped (d ∈ mu.droppedDatas)
  | .elemDropped e => .dropped (e ∈ mu.droppedElems)

/-! ## The process -/

/-- How code of an instance was entered. -/
inductive Entry
  /-- `invoke_at/6`, with the state it read; at top level an exception is made an error. -/
  | invoke (stored : Mut) (toplevel : Bool)
  /-- `foreign_call/5` and the foreign arm of `indirect_out/9`. -/
  | foreign
  /-- Between interpreted and generated code: `do_call/4` one way, `call_out/7` the other. -/
  | crossing
  deriving DecidableEq

inductive Frame
  | guest (entry : Entry) (compiled : Bool) (inst : ℕ) (mu : Mut)
  /-- A host function that the instance called, with what was published before. -/
  | host (inst : ℕ) (prev : Option Mut)
  deriving DecidableEq

/-- What is unwinding the stack. -/
inductive Exit
  | trap
  | exception
  deriving DecidableEq

structure State where
  /-- The row of an instance's `store` table. -/
  committed : ℕ → Mut
  version : ℕ → ℕ
  /-- `{wasm_mut_cache, Id}`. -/
  cache : ℕ → Option (ℕ × Mut)
  /-- `{wasm_inflight, Id}`. -/
  inflight : ℕ → Option Mut
  /-- The key `#inst.ckpt`. -/
  ckpt : ℕ → Option Mut
  /-- The innermost first. -/
  frames : List Frame
  unwinding : Option Exit
  /-- What the code that is being left had made of its instance; nothing reads it. -/
  left : Mut
  answers : List Answer

namespace State

variable (s : State)

/-- `mut_at/3`. -/
def mutAt (x : ℕ) : Mut :=
  match s.cache x with
  | some (version, cached) => if version = s.version x then cached else s.committed x
  | none => s.committed x

/-- `mut/1`. -/
def mutOf (x : ℕ) : Mut := (s.inflight x).getD (s.mutAt x)

/-- What `mut/1` leaves in the cache. -/
def fill (x : ℕ) : State :=
  match s.inflight x with
  | some _ => s
  | none => { s with cache := update s.cache x (some (s.version x, s.mutAt x)) }

/-- `set_mut/2`. -/
def setMut (x : ℕ) (mu : Mut) : State :=
  { s with
    committed := update s.committed x mu
    inflight := update s.inflight x ((s.inflight x).map fun _ => mu)
    version := update s.version x (s.version x + 1)
    cache := update s.cache x (some (s.version x + 1, mu)) }

/-- `publish/2` and `unpublish/2`. -/
def publish (x : ℕ) (mu : Option Mut) : State := { s with inflight := update s.inflight x mu }

/-- `settle/2`. -/
def settle (x : ℕ) (failed : Bool) : State :=
  match s.ckpt x with
  | none => s
  | some mu =>
      let erased := { s with ckpt := update s.ckpt x none }
      if failed then erased.setMut x mu else erased

/-! ## Instructions -/

/-- `checkpoint/2` and the `_at` helpers that write. -/
def write (w : Write) : Option State :=
  match s.frames with
  | .guest entry compiled x mu :: fs =>
      let mu1 := w.apply mu
      some { s with
        frames := .guest entry compiled x mu1 :: fs
        ckpt := update s.ckpt x (some mu1) }
  | _ => none

def read (r : Read) : Option State :=
  match s.frames with
  | .guest _ _ _ mu :: _ => some { s with answers := s.answers ++ [mu.answer r] }
  | _ => none

/-! ## Calls -/

/-- A host function runs, or the embedder does. -/
def outside : Bool :=
  match s.frames with
  | .guest .. :: _ => false
  | _ => true

/-- `call_host/3`, to where the host function runs. -/
def callHost : Option State :=
  match s.frames with
  | .guest _ _ x mu :: _ =>
      some { s.publish x (some mu) with frames := .host x (s.inflight x) :: s.frames }
  | _ => none

/-- The rest of `call_host/3`: `adopt/3` and `unpublish/2`. -/
def hostReturn : Option State :=
  match s.frames with
  | .host x prev :: .guest entry compiled y mine :: fs =>
      let published := (s.inflight x).getD mine
      let mu := if published = mine then mine else published
      some { s.publish x prev with frames := .guest entry compiled y mu :: fs }
  | _ => none

/-- `memory_size/1` and the like, of the context that a host function was given. -/
def ctxRead (r : Read) : Option State :=
  match s.frames with
  | .host _ _ :: .guest _ _ _ mine :: _ => some { s with answers := s.answers ++ [mine.answer r] }
  | _ => none

/-- `memory_size/1` and the like, of an instance. -/
def hostRead (x : ℕ) (r : Read) : Option State :=
  if s.outside then some { s.fill x with answers := s.answers ++ [(s.mutOf x).answer r] } else none

/-- `invoke_at/6`, to where the code runs. -/
def invoke (x : ℕ) (toplevel compiled : Bool) : Option State :=
  if s.outside then
    some { s.fill x with
      frames := .guest (.invoke (s.mutOf x) toplevel) compiled x (s.mutOf x) :: s.frames }
  else none

/-- A call through a reference to another instance's function. -/
def callRef (y : ℕ) : Option State :=
  match s.frames with
  | .guest _ _ x _ :: _ =>
      if y = x then none
      else some { s.fill y with frames := .guest .foreign false y (s.mutOf y) :: s.frames }
  | _ => none

def cross : Option State :=
  match s.frames with
  | .guest _ compiled x mu :: _ =>
      some { s with frames := .guest .crossing (!compiled) x mu :: s.frames }
  | _ => none

/-- A call returns. -/
def ret : Option State :=
  match s.frames with
  | .guest (.invoke stored _) _ x mu :: fs =>
      let s1 := if mu = stored then s else s.setMut x mu
      some { s1.settle x false with frames := fs }
  | .guest .foreign _ y mu :: fs => some { s.setMut y mu with frames := fs }
  | .guest .crossing _ _ mu :: .guest entry compiled x _ :: fs =>
      some { s with frames := .guest entry compiled x mu :: fs }
  | _ => none

/-! ## Exits -/

/-- What the innermost code threads. -/
def threaded (frames : List Frame) (otherwise : Mut) : Mut :=
  match frames with
  | .guest _ _ _ mu :: _ => mu
  | _ => otherwise

/-- A trap or an exhaustion, in a guest or answered by a host function. -/
def trap : Option State :=
  match s.frames with
  | [] => none
  | _ => some { s with unwinding := some .trap, left := threaded s.frames s.left }

def throw : Option State :=
  match s.frames with
  | .guest .. :: _ => some { s with unwinding := some .exception, left := threaded s.frames s.left }
  | _ => none

/-- What is unwinding leaves the innermost frame. -/
def unwind (exit : Exit) : Option State :=
  match s.frames with
  | .guest (.invoke _ toplevel) _ x _ :: fs =>
      some { s.settle x true with
        frames := fs
        unwinding := if exit = .trap ∨ toplevel then none else some exit
        left := threaded fs s.left }
  | .guest .foreign _ _ _ :: fs => some { s with frames := fs, left := threaded fs s.left }
  | .guest .crossing _ _ _ :: fs => some { s with frames := fs }
  | .host x prev :: fs =>
      some { s.publish x prev with frames := fs, left := (s.inflight x).getD s.left }
  | [] => none

/-- A `try_table` of interpreted code has a handler, and goes on with the state it called with. -/
def handle (exit : Exit) : Option State :=
  match exit, s.frames with
  | .exception, .guest _ false _ _ :: _ => some { s with unwinding := none }
  | _, _ => none

end State

inductive Action
  | write (w : Write)
  | read (r : Read)
  | callHost
  | hostReturn
  | ctxRead (r : Read)
  | hostRead (x : ℕ) (r : Read)
  | invoke (x : ℕ) (toplevel compiled : Bool)
  | callRef (y : ℕ)
  | cross
  | ret
  | trap
  | throw
  | unwind
  | handle
  deriving DecidableEq

def step (s : State) (a : Action) : Option State :=
  match s.unwinding with
  | none =>
      match a with
      | .write w => s.write w
      | .read r => s.read r
      | .callHost => s.callHost
      | .hostReturn => s.hostReturn
      | .ctxRead r => s.ctxRead r
      | .hostRead x r => s.hostRead x r
      | .invoke x toplevel compiled => s.invoke x toplevel compiled
      | .callRef y => s.callRef y
      | .cross => s.cross
      | .ret => s.ret
      | .trap => s.trap
      | .throw => s.throw
      | _ => none
  | some exit =>
      match a with
      | .unwind => s.unwind exit
      | .handle => s.handle exit
      | _ => none

/-! ## One store -/

/-- Every instance has one state, and its instructions change and read that. -/
structure Single where
  store : ℕ → Mut
  /-- The instance of each frame, if it is not a host function's. -/
  running : List (Option ℕ)
  answers : List Answer

def Single.step (t : Single) (a : Action) : Single :=
  match a with
  | .write w =>
      match t.running with
      | some x :: _ => { t with store := update t.store x (w.apply (t.store x)) }
      | _ => t
  | .read r =>
      match t.running with
      | some x :: _ => { t with answers := t.answers ++ [(t.store x).answer r] }
      | _ => t
  | .ctxRead r =>
      match t.running with
      | none :: some x :: _ => { t with answers := t.answers ++ [(t.store x).answer r] }
      | _ => t
  | .hostRead x r => { t with answers := t.answers ++ [(t.store x).answer r] }
  | .callHost => { t with running := none :: t.running }
  | .invoke x _ _ | .callRef x => { t with running := some x :: t.running }
  | .cross => { t with running := t.running.head?.join :: t.running }
  | .hostReturn | .ret | .unwind => { t with running := t.running.tail }
  | .trap | .throw | .handle => t

/-- The process, and beside it what one store would do. -/
structure System where
  process : State
  single : Single

def System.step (p : System) (a : Action) : Option System :=
  (Calls.step p.process a).map fun s => ⟨s, p.single.step a⟩

/-- Instances with some states, and nothing running. -/
def System.init (muts : ℕ → Mut) : System where
  process :=
    { committed := muts
      version := fun _ => 0
      cache := fun _ => none
      inflight := fun _ => none
      ckpt := fun _ => none
      frames := []
      unwinding := none
      left := ⟨[], [], ∅, ∅⟩
      answers := [] }
  single := ⟨muts, [], []⟩

def Frame.running : Frame → Option ℕ
  | .guest _ _ x _ => some x
  | .host _ _ => none

/-- What was read is what the one store has, and so is what is committed of an instance that does
not run. -/
structure System.Agrees (p : System) : Prop where
  answers : p.process.answers = p.single.answers
  committed : ∀ x, some x ∉ p.process.frames.map Frame.running →
    p.process.committed x = p.single.store x

end ErlangWasm.Calls
