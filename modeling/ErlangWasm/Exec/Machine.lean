import ErlangWasm.Exec.Instr
import Mathlib.Data.Sum.Basic

/-!
# The interpreter, with its operand cache and without

`stackClause` takes every instruction by its clause of `run/3` and keeps every operand on the stack;
`cachedStep` is `run/3`, `run1/4` and `run2/5` as they are.  Calls, branches and throws are the same
functions in both.  A call that leaves the invocation is a pause.
-/

namespace ErlangWasm.Exec

variable {L : Lang} {α : Type}

/-- `#mut{}`, and the world. -/
structure Mut (L : Lang) where
  globals : List (Value L)
  mems : List L.Mem
  world : L.World

/-- `#st{}`; no fuel is `infinity`. -/
structure St (L : Lang) where
  stack : List (Value L)
  locals : List (Value L)
  mu : Mut L
  fuel : Option ℕ
  depth : ℕ

/-- How an invocation ends; a `crash` is an Erlang error raised by the interpreter itself. -/
inductive Outcome (L : Lang)
  | returned (results : List (Value L))
  | trap (reason : L.Reason)
  | outOfFuel
  | stackExhausted
  | uncaught (e : Exn L)
  | crash

/-- What a call out of the invocation comes back with; generated code may refuse. -/
inductive Ending (L : Lang)
  | returned (results : List (Value L)) (mu : Mut L) (fuel : Option ℕ)
  | threw (e : Exn L) (world : L.World)
  | stopped (o : Outcome L) (mu : Mut L) (fuel : Option ℕ)
  | refused

/-- `#fn{}` and `#hostfn{}`; a host function may be an instance's export. -/
inductive Fn (L : Lang)
  | wasm (nparams : ℕ) (defaults : List (Value L)) (nres : ℕ) (body : Code L)
  | host (nparams : ℕ) (linked : Option (L.Ref × ℕ))

/-- What an instruction asks of the rest of the interpreter. -/
inductive Effect (L : Lang)
  | next (st : St L)
  | branch (n : ℕ) (st : St L)
  | leave (st : St L)
  | call (f : ℕ) (st : St L)
  | returnCall (f : ℕ) (st : St L)
  | foreignCall (ref : L.Ref) (f : ℕ) (st : St L)
  | foreignReturnCall (ref : L.Ref) (f : ℕ) (st : St L)
  | throw (e : Exn L) (st : St L)
  | stop (o : Outcome L) (mu : Mut L) (fuel : Option ℕ)

/-- An instance and the limits it runs under. -/
structure Inst (L : Lang) where
  funcs : List (Fn L)
  /-- a tag and the number of its parameters; the validator keeps the indices in range -/
  tags : ℕ → L.Tag × ℕ
  maxDepth : ℕ
  /-- whether there is a generated module -/
  compiled : Bool
  /-- the number of parameters of another instance's function -/
  foreignParams : L.Ref → ℕ → ℕ
  /-- `wasm_memory:load/3` of four bytes -/
  load : L.World → L.Mem → ℤ → Except (Outcome L) ℤ
  /-- `wasm_memory:store_r/4` of four bytes: the handle is refreshed, or not -/
  storeR : L.World → L.Mem → ℤ → Value L → Except (Outcome L) (L.World × Option L.Mem)
  /-- `int_relop` where an operand is no integer -/
  relTerm : Width → RelOp → Value L → Value L → Bool
  nullReference : L.Reason
  sameTag : L.Tag → L.Tag → Bool
  /-- the clauses of `run/3` for all other instructions -/
  other : L.Op → St L → Effect L

/-! ## Operands -/

/-- `element/2`, from one. -/
def element : ℕ → List α → Except (Outcome L) α
  | 0, _ => .error .crash
  | i + 1, xs =>
      match xs[i]? with
      | some x => .ok x
      | none => .error .crash

/-- `setelement/3`. -/
def setelement : ℕ → List α → α → Except (Outcome L) (List α)
  | 0, _, _ => .error .crash
  | i + 1, xs, x => if i < xs.length then .ok (xs.set i x) else .error .crash

def St.push (st : St L) (v : Value L) : St L := { st with stack := v :: st.stack }

def St.pop (st : St L) : Except (Outcome L) (Value L × St L) :=
  match st.stack with
  | v :: s => .ok (v, { st with stack := s })
  | [] => .error .crash

@[simp] theorem St.pop_push (st : St L) (v : Value L) : (st.push v).pop = .ok (v, st) := rfl

def Value.ofBool (b : Bool) : Value L := .int (if b then 1 else 0)

/-- `A =:= 0`. -/
def Value.isZero : Value L → Bool
  | .int 0 => true
  | _ => false

/-- What needs a number fails of anything else. -/
def Value.number : Value L → Except (Outcome L) ℤ
  | .int v => .ok v
  | _ => .error .crash

/-- `i32_binop`, `i64_binop`. -/
def binopOf (w : Width) (op : BinOp) (a b : Value L) : Except (Outcome L) (Value L) := do
  let x ← a.number
  let y ← b.number
  return .int (binop w op x y)

def relopOf (inst : Inst L) (w : Width) (op : RelOp) (a b : Value L) : Value L :=
  match a, b with
  | .int x, .int y => .ofBool (relop w op x y)
  | _, _ => .ofBool (inst.relTerm w op a b)

/-- What an operation makes of its operands: the one on the top last. -/
def op2 (inst : Inst L) (op : NumOp) (a b : Value L) : Except (Outcome L) (Value L) :=
  match op with
  | .bin w op => binopOf w op a b
  | .rel w op => .ok (relopOf inst w op a b)
  | .eqz _ => .error .crash

/-- `numeric/2`, of what `op_kind` knows. -/
def numeric (inst : Inst L) (op : NumOp) (st : St L) : Except (Outcome L) (St L) :=
  match op with
  | .eqz _ => do
      let (a, st) ← st.pop
      return st.push (.ofBool a.isZero)
  | op => do
      let (b, st) ← st.pop
      let (a, st) ← st.pop
      return st.push (← op2 inst op a b)

/-- `to_u32(Base) + Offset`. -/
def address (base : Value L) (offset : ℕ) : Except (Outcome L) ℤ := do
  return toU .w32 (← base.number) + offset

/-- `i32.load` from an address. -/
def loadAt (inst : Inst L) (mu : Mut L) (ma : MemArg) (base : Value L) :
    Except (Outcome L) (Value L) := do
  let mem ← element (ma.mem + 1) mu.mems
  let addr ← address base ma.offset
  return .int (wrapS .w32 (← inst.load mu.world mem addr))

/-- `i32.store` at an address; `refreshed/3`. -/
def storeAt (inst : Inst L) (mu : Mut L) (ma : MemArg) (base value : Value L) :
    Except (Outcome L) (Mut L) := do
  let mem ← element (ma.mem + 1) mu.mems
  let addr ← address base ma.offset
  match ← inst.storeR mu.world mem addr value with
  | (world, none) => return { mu with world }
  | (world, some mem1) =>
      return { mu with world, mems := ← setelement (ma.mem + 1) mu.mems mem1 }

/-! ## One instruction -/

/-- The instructions that neither branch nor call, by their clauses of `run/3`. -/
def straight (inst : Inst L) (i : Instr L) (st : St L) : Except (Outcome L) (St L) :=
  match i with
  | .localGet i => do return st.push (← element (i + 1) st.locals)
  | .localSet i => do
      let (v, st) ← st.pop
      return { st with locals := ← setelement (i + 1) st.locals v }
  | .localTee i => do
      let (v, _) ← st.pop
      return { st with locals := ← setelement (i + 1) st.locals v }
  | .i32Const v => return st.push (.int v)
  | .i64Const v => return st.push (.int v)
  | .globalGet i => do return st.push (← element (i + 1) st.mu.globals)
  | .i32Load ma => do
      let (base, st) ← st.pop
      return st.push (← loadAt inst st.mu ma base)
  | .i32Store ma => do
      let (value, st) ← st.pop
      let (base, st) ← st.pop
      return { st with mu := ← storeAt inst st.mu ma base value }
  | .num op => numeric inst op st
  | .lgLg i j => do
      let a ← element j st.locals
      let b ← element i st.locals
      return (st.push b).push a
  | .lgConst i c => do return (st.push (← element i st.locals)).push (.int c)
  | .lgConstAdd i c => do
      return st.push (← binopOf .w32 .add (← element i st.locals) (.int c))
  | .lgLoad i ma => do
      return st.push (← loadAt inst st.mu ma (← element i st.locals))
  | .lgConstAddSet i c t => do
      let v ← binopOf .w32 .add (← element i st.locals) (.int c)
      return { st with locals := ← setelement t st.locals v }
  | .lgConstAddTee i c t => do
      let v ← binopOf .w32 .add (← element i st.locals) (.int c)
      return { st.push v with locals := ← setelement t st.locals v }
  | .lgLgStore i j ma => do
      let base ← element i st.locals
      let value ← element j st.locals
      return { st with mu := ← storeAt inst st.mu ma base value }
  | .lgLoadTee i ma t => do
      let v ← loadAt inst st.mu ma (← element i st.locals)
      return { st.push v with locals := ← setelement t st.locals v }
  | _ => .error .crash

/-- `charge/2`. -/
def charge (n : ℕ) (st : St L) : Option (St L) :=
  match st.fuel with
  | none => some st
  | some f => if n < f then some { st with fuel := some (f - n) } else none

def St.stop (st : St L) (o : Outcome L) : Effect L := .stop o st.mu st.fuel

/-- `?FUEL_PER_CALL`, and then the call. -/
def charged (st : St L) (k : St L → Effect L) : Effect L :=
  match charge 10 st with
  | some st => k st
  | none => st.stop .outOfFuel

def Effect.ofStraight (st : St L) : Except (Outcome L) (St L) → Effect L
  | .ok st' => .next st'
  | .error o => st.stop o

/-- `br_if`, on what was on the top. -/
def brIf (n : ℕ) (taken : Bool) (st : St L) : Effect L := if taken then .branch n st else .next st

def selectLabel (v : Value L) (labels : List ℕ) (default : ℕ) : ℕ :=
  match v with
  | .int i => labels.getD (toU .w32 i).toNat default
  | _ => default

/-- `lists:split/2`. -/
def split (n : ℕ) (s : List α) : Option (List α × List α) :=
  if n ≤ s.length then some (s.take n, s.drop n) else none

def throwTag (inst : Inst L) (tag : ℕ) (st : St L) : Effect L :=
  match split (inst.tags tag).2 st.stack with
  | none => st.stop .crash
  | some (revArgs, s) => .throw ⟨(inst.tags tag).1, revArgs.reverse⟩ { st with stack := s }

def throwRef (inst : Inst L) (st : St L) : Effect L :=
  match st.stack with
  | .null :: _ => st.stop (.trap inst.nullReference)
  | .exn tag values :: s => .throw ⟨tag, values⟩ { st with stack := s }
  | _ => st.stop .crash

/-- An instruction without a body inside, by its clause of `run/3`. -/
def exec (inst : Inst L) (i : Instr L) (st : St L) : Effect L :=
  match i with
  | .br n => .branch n st
  | .brIf n =>
      match st.pop with
      | .ok (v, st) => brIf n (!v.isZero) st
      | .error o => st.stop o
  | .eqzBrIf n =>
      match st.pop with
      | .ok (v, st) => brIf n v.isZero st
      | .error o => st.stop o
  | .brTable labels default =>
      match st.pop with
      | .ok (v, st) => .branch (selectLabel v labels default) st
      | .error o => st.stop o
  | .return_ => .leave st
  | .call f => charged st (.call f)
  | .returnCall f => charged st (.returnCall f)
  | .throw tag => throwTag inst tag st
  | .throwRef => throwRef inst st
  | .other op => inst.other op st
  | i => .ofStraight st (straight inst i st)

/-! ## Frames -/

/-- Control frames; a loop's holds the loop. -/
inductive Ctrl (L : Lang)
  | block (cont : Code L) (arity : ℕ) (saved : List (Value L))
  | tryTable (cont : Code L) (arity : ℕ) (saved : List (Value L)) (catches : List Catch)
  | loop (cont : Code L) (npar : ℕ) (body : Code L) (saved : List (Value L))
  | func (nres : ℕ)

inductive CallFrame (L : Lang)
  | toplevel
  | caller (cont : Code L) (ctrl : List (Ctrl L)) (locals stack : List (Value L))

/-- Where the state of the stack is noted. -/
inductive Mark
  | entry
  | finish
  | branch (n : ℕ)
  | call (f : ℕ)
  | returnCall (f : ℕ)
  | leave
  | throw

structure Config (L : Lang) where
  code : Code L
  ctrl : List (Ctrl L)
  st : St L
  frames : List (CallFrame L)
  log : List (Mark × St L)

structure Answer (L : Lang) where
  outcome : Outcome L
  mu : Mut L
  fuel : Option ℕ
  log : List (Mark × St L)

def Config.mark (c : Config L) (m : Mark) : Config L := { c with log := (m, c.st) :: c.log }

def Config.answer (c : Config L) (o : Outcome L) : Answer L := ⟨o, c.st.mu, c.st.fuel, c.log⟩

def Config.stop (c : Config L) (o : Outcome L) : Config L ⊕ Answer L := .inr (c.answer o)

def Config.withStack (c : Config L) (s : List (Value L)) : Config L :=
  { c with st := { c.st with stack := s } }

/-- `leave/2`. -/
def leave (nres : ℕ) (c : Config L) : Config L ⊕ Answer L :=
  let results := c.st.stack.take nres
  match c.frames with
  | [] => (c.mark .leave).stop (.returned results.reverse)
  | [.toplevel] => (c.mark .leave).stop (.returned results.reverse)
  | .caller cont ctrl locals stack :: rest =>
      .inl
        { c.mark .leave with
          code := cont
          ctrl
          st := { c.st with stack := results ++ stack, locals, depth := c.st.depth - 1 }
          frames := rest }
  | .toplevel :: _ :: _ => c.stop .crash

/-- The end of an instruction list. -/
def finish (c : Config L) : Config L ⊕ Answer L :=
  match c.ctrl with
  | .block cont _ _ :: ctrl => .inl { c.mark .finish with code := cont, ctrl }
  | .tryTable cont _ _ _ :: ctrl => .inl { c.mark .finish with code := cont, ctrl }
  | .loop cont _ _ _ :: ctrl => .inl { c.mark .finish with code := cont, ctrl }
  | [.func nres] => leave nres c
  | [] => leave 0 c
  | .func _ :: _ :: _ => c.stop .crash

/-- `branch/3`.  Its first clause is the last but one where a loop without parameters left the stack
as it found it. -/
def branch (n : ℕ) (c : Config L) : Config L ⊕ Answer L :=
  let rest := c.ctrl.drop (n + 1)
  match c.ctrl[n]? with
  | none => c.stop .crash
  | some (.block cont arity saved) =>
      .inl { c.withStack (c.st.stack.take arity ++ saved) with code := cont, ctrl := rest }
  | some (.tryTable cont arity saved _) =>
      .inl { c.withStack (c.st.stack.take arity ++ saved) with code := cont, ctrl := rest }
  | some (.loop cont npar body saved) =>
      match charge 1 c.st with
      | none => c.stop .outOfFuel
      | some st =>
          .inl
            { c with
              code := body
              ctrl := .loop cont npar body saved :: rest
              st := { st with stack := st.stack.take npar ++ saved } }
  | some (.func nres) => leave nres c

/-! ## Exceptions -/

/-- A clause of a `try_table`: its label, and what it hands to it. -/
def Catch.takes (inst : Inst L) (e : Exn L) : Catch → Option (ℕ × List (Value L))
  | .catch_ t l => if inst.sameTag e.tag (inst.tags t).1 then some (l, e.values) else none
  | .catchRef t l =>
      if inst.sameTag e.tag (inst.tags t).1 then some (l, e.values ++ [.exn e.tag e.values]) else none
  | .catchAll l => some (l, [])
  | .catchAllRef l => some (l, [.exn e.tag e.values])

/-- `match_catch/3`. -/
def matchCatch (inst : Inst L) (e : Exn L) : List Catch → Option (ℕ × List (Value L))
  | [] => none
  | clause :: rest =>
      match clause.takes inst e with
      | some found => some found
      | none => matchCatch inst e rest

/-- Where a handler takes up. -/
structure Landing (L : Lang) where
  code : Code L
  ctrl : List (Ctrl L)
  saved : List (Value L)
  values : List (Value L)

/-- `take_last/2`. -/
def takeLast (n : ℕ) (xs : List α) : List α := xs.drop (xs.length - n)

/-- `handler_target/3`: no clause for the function's own frame. -/
def handlerTarget (label : ℕ) (ctrl : List (Ctrl L)) (values : List (Value L)) :
    Except (Outcome L) (Landing L) :=
  let rest := ctrl.drop (label + 1)
  match ctrl[label]? with
  | some (.block cont arity saved) => .ok ⟨cont, rest, saved, takeLast arity values⟩
  | some (.tryTable cont arity saved _) => .ok ⟨cont, rest, saved, takeLast arity values⟩
  | some (.loop cont npar body saved) =>
      .ok ⟨body, .loop cont npar body saved :: rest, saved, takeLast npar values⟩
  | _ => .error .crash

/-- `find_handler/3`. -/
def findHandler (inst : Inst L) (e : Exn L) :
    List (Ctrl L) → Except (Outcome L) (Option (Landing L))
  | [] => .ok none
  | .tryTable _ _ _ catches :: rest =>
      match matchCatch inst e catches with
      | some (label, values) => do return some (← handlerTarget label rest values)
      | none => findHandler inst e rest
  | _ :: rest => findHandler inst e rest

/-- `throw_exn/3` and `unwind_frame/2`. -/
def throwExn (inst : Inst L) (e : Exn L) (log : List (Mark × St L)) :
    List (CallFrame L) → List (Ctrl L) → St L → Config L ⊕ Answer L
  | frames, ctrl, st =>
      match findHandler inst e ctrl with
      | .ok (some landing) =>
          .inl
            { code := landing.code
              ctrl := landing.ctrl
              st := { st with stack := landing.values.reverse ++ landing.saved }
              frames
              log }
      | .error o => .inr ⟨o, st.mu, st.fuel, log⟩
      | .ok none =>
          match frames with
          | [] => .inr ⟨.uncaught e, st.mu, st.fuel, log⟩
          | [.toplevel] => .inr ⟨.uncaught e, st.mu, st.fuel, log⟩
          | .caller _ ctrl locals stack :: rest =>
              throwExn inst e log rest ctrl { st with stack, locals, depth := st.depth - 1 }
          | .toplevel :: _ :: _ => .inr ⟨.crash, st.mu, st.fuel, log⟩

/-! ## Calls -/

/-- `enter/5`. -/
def enter (inst : Inst L) (locals : List (Value L)) (nres : ℕ) (body : Code L) (c : Config L) :
    Config L ⊕ Answer L :=
  if inst.maxDepth ≤ c.st.depth then c.stop .stackExhausted
  else
    .inl
      { c with
        code := body
        ctrl := [.func nres]
        st := { c.st with stack := [], locals, depth := c.st.depth + 1 }
        frames := .caller c.code c.ctrl c.st.locals c.st.stack :: c.frames }

/-- What is called outside the invocation. -/
inductive Callee (L : Lang)
  | compiled (f : ℕ)
  | host (f : ℕ)
  | foreign (ref : L.Ref) (f : ℕ)

/-- What becomes of the results, and of an exception. -/
inductive Way
  | call
  | foreignReturnCall
  | hostReturnCall
  deriving DecidableEq

/-- A call out of the invocation, and what waits for it. -/
structure Pause (L : Lang) where
  callee : Callee L
  args : List (Value L)
  way : Way
  config : Config L

inductive Exit (L : Lang)
  | answered (a : Answer L)
  | out (p : Pause L)

def inside (x : Config L ⊕ Answer L) : Config L ⊕ Exit L := x.map id .answered

/-- The call of something outside, with the arguments off the stack. -/
def callOut (callee : Callee L) (nparams : ℕ) (way : Way) (c : Config L) : Config L ⊕ Exit L :=
  match split nparams c.st.stack with
  | none => inside (c.stop .crash)
  | some (revArgs, s) => .inr (.out ⟨callee, revArgs.reverse, way, c.withStack s⟩)

/-- `do_call/4` and `interpreted_call/4`.  Generated code is entered at a depth that leaves room for
it. -/
def doCall (inst : Inst L) (f : ℕ) (c : Config L) : Config L ⊕ Exit L :=
  match inst.funcs[f]? with
  | none => inside (c.stop .crash)
  | some (.host nparams _) => callOut (.host f) nparams .call c
  | some (.wasm nparams defaults nres body) =>
      match split nparams c.st.stack with
      | none => inside (c.stop .crash)
      | some (revArgs, s) =>
          if inst.compiled then
            if inst.maxDepth ≤ c.st.depth then inside (c.stop .stackExhausted)
            else .inr (.out ⟨.compiled f, revArgs.reverse, .call, c.withStack s⟩)
          else inside (enter inst (revArgs.reverse ++ defaults) nres body (c.withStack s))

/-- `do_return_call/2`. -/
def doReturnCall (inst : Inst L) (f : ℕ) (c : Config L) : Config L ⊕ Exit L :=
  match inst.funcs[f]? with
  | none => inside (c.stop .crash)
  | some (.host nparams _) => callOut (.host f) nparams .hostReturnCall c
  | some (.wasm nparams defaults nres body) =>
      match split nparams c.st.stack with
      | none => inside (c.stop .crash)
      | some (revArgs, _) =>
          .inl
            { c with
              code := body
              ctrl := [.func nres]
              st := { c.st with stack := [], locals := revArgs.reverse ++ defaults } }

/-- `return`. -/
def return_ (c : Config L) : Config L ⊕ Answer L :=
  match c.ctrl.getLast? with
  | some (.func nres) => leave nres c
  | _ => c.stop .crash

/-- Back from a call out of the invocation.  A tail call to another instance is a call and then a
`return`; an exception out of a tail call to a host function is not caught. -/
def resume (inst : Inst L) (p : Pause L) (ending : Ending L) : Config L ⊕ Answer L :=
  let c := p.config
  match ending with
  | .stopped o mu fuel => .inr ⟨o, mu, fuel, c.log⟩
  | .returned results mu fuel =>
      let st := { c.st with stack := results.reverse ++ c.st.stack, mu, fuel }
      match p.way with
      | .call => .inl { c with st }
      | .foreignReturnCall => return_ { c with st }
      | .hostReturnCall =>
          leave results.length { c with st := { st with stack := results.reverse } }
  | .threw e world =>
      let st := { c.st with mu := { c.st.mu with world } }
      match p.way with
      | .hostReturnCall => .inr ⟨.uncaught e, st.mu, st.fuel, c.log⟩
      | _ => throwExn inst e ((.throw, st) :: c.log) c.frames c.ctrl st
  | .refused =>
      match p.callee with
      | .compiled f =>
          match inst.funcs[f]? with
          | some (.wasm _ defaults nres body) => enter inst (p.args ++ defaults) nres body c
          | _ => c.stop .crash
      | _ => c.stop .crash

/-! ## Steps -/

/-- What an effect makes of the configuration that goes on after the instruction. -/
def perform (inst : Inst L) (c : Config L) : Effect L → Config L ⊕ Exit L
  | .next st => .inl { c with st }
  | .branch n st => inside (branch n ({ c with st }.mark (.branch n)))
  | .leave st => inside (return_ { c with st })
  | .call f st => doCall inst f ({ c with st }.mark (.call f))
  | .returnCall f st => doReturnCall inst f ({ c with st }.mark (.returnCall f))
  | .foreignCall ref f st =>
      callOut (.foreign ref f) (inst.foreignParams ref f) .call ({ c with st }.mark (.call f))
  | .foreignReturnCall ref f st =>
      callOut (.foreign ref f) (inst.foreignParams ref f) .foreignReturnCall
        ({ c with st }.mark (.returnCall f))
  | .throw e st => inside (throwExn inst e ((.throw, st) :: c.log) c.frames c.ctrl st)
  | .stop o mu fuel => inside (.inr ⟨o, mu, fuel, c.log⟩)

/-- Into a body; the frame keeps the stack below the parameters. -/
def enterBody (npar : ℕ) (frame : List (Value L) → Ctrl L) (body : Code L) (c : Config L) :
    Config L ⊕ Answer L :=
  match split npar c.st.stack with
  | none => c.stop .crash
  | some (_, saved) => .inl { c.mark .entry with code := body, ctrl := frame saved :: c.ctrl }

/-- An instruction, by its clause of `run/3` and with the operands on the stack.  The code is what
comes after it. -/
def runInstr (inst : Inst L) (i : Instr L) (c : Config L) : Config L ⊕ Exit L :=
  match i with
  | .block npar nres body => inside (enterBody npar (.block c.code nres) body c)
  | .loop npar _ body => inside (enterBody npar (.loop c.code npar body) body c)
  | .tryTable npar nres catches body =>
      inside (enterBody npar (fun saved => .tryTable c.code nres saved catches) body c)
  | .if_ npar nres then_ else_ =>
      match c.st.pop with
      | .error o => inside (c.stop o)
      | .ok (v, st) =>
          inside
            (enterBody npar (.block c.code nres) (if v.isZero then else_ else then_) { c with st })
  | i => perform inst c (exec inst i c.st)

/-- One clause of `run/3`, on the stack only. -/
def stackClause (inst : Inst L) (c : Config L) : Config L ⊕ Exit L :=
  match c.code with
  | [] => inside (finish c)
  | i :: rest => runInstr inst i { c with code := rest }

/-- What is outside the invocation, as far as it can be seen from inside. -/
abbrev Outside (L : Lang) :=
  Callee L → List (Value L) → Mut L → Option ℕ → ℕ → Ending L

/-- A pause and what comes back, in one step. -/
def closed (inst : Inst L) (outside : Outside L) : Config L ⊕ Exit L → Config L ⊕ Answer L
  | .inl c => .inl c
  | .inr (.answered a) => .inr a
  | .inr (.out p) =>
      resume inst p
        (outside p.callee p.args p.config.st.mu p.config.st.fuel p.config.st.depth)

def stackStep (inst : Inst L) (outside : Outside L) (c : Config L) : Config L ⊕ Answer L :=
  closed inst outside (stackClause inst c)

/-! ## The operand cache -/

/-- The top of the stack, and then the one under it. -/
inductive Slots (L : Lang)
  | none
  | one (a : Value L)
  | two (a b : Value L)

structure Cached (L : Lang) where
  config : Config L
  slots : Slots L

/-- To go on with `run/3`, with `run1/4` or with `run2/5`. -/
def run (c : Config L) : Cached L := ⟨c, .none⟩

def run1 (c : Config L) (a : Value L) : Cached L := ⟨c, .one a⟩

def run2 (c : Config L) (a b : Value L) : Cached L := ⟨c, .two a b⟩

def Config.andThen (c : Config L) (x : Except (Outcome L) α) (k : α → Cached L) :
    Cached L ⊕ Answer L :=
  match x with
  | .ok v => .inl (k v)
  | .error o => .inr (c.answer o)

def uncached (x : Config L ⊕ Answer L) : Cached L ⊕ Answer L := x.map run id

/-- `br_if` with the condition in a slot. -/
def branchIf (n : ℕ) (taken : Bool) (c : Config L) : Cached L ⊕ Answer L :=
  if taken then uncached (branch n (c.mark (.branch n))) else .inl (run c)

def Config.push (c : Config L) (v : Value L) : Config L := { c with st := c.st.push v }

def Config.withLocals (c : Config L) (locals : List (Value L)) : Config L :=
  { c with st := { c.st with locals } }

/-- `run/3`. -/
def runStep (inst : Inst L) (outside : Outside L) (c : Config L) : Cached L ⊕ Answer L :=
  match c.code with
  | .lgLg i j :: rest =>
      c.andThen (do return (← element j c.st.locals, ← element i c.st.locals)) fun (a, b) =>
        run2 { c with code := rest } a b
  | .lgConst i k :: rest =>
      c.andThen (element i c.st.locals) (run2 { c with code := rest } (.int k))
  | .lgConstAdd i k :: rest =>
      c.andThen (do binopOf .w32 .add (← element i c.st.locals) (.int k))
        (run1 { c with code := rest })
  | .localGet i :: rest =>
      c.andThen (element (i + 1) c.st.locals) (run1 { c with code := rest })
  | .i32Const v :: rest => .inl (run1 { c with code := rest } (.int v))
  | _ => uncached (stackStep inst outside c)

/-- `run1/4`. -/
def run1Step (inst : Inst L) (c : Config L) (a : Value L) : Cached L ⊕ Answer L :=
  match c.code with
  | .i32Const v :: .num (.bin .w32 op) :: rest =>
      c.andThen (binopOf .w32 op a (.int v)) (run1 { c with code := rest })
  | .i32Const v :: .num (.rel .w32 op) :: rest =>
      .inl (run1 { c with code := rest } (relopOf inst .w32 op a (.int v)))
  | .i64Const v :: .num (.bin .w64 op) :: rest =>
      c.andThen (binopOf .w64 op a (.int v)) (run1 { c with code := rest })
  | .i32Const v :: rest => .inl (run2 { c with code := rest } (.int v) a)
  | .i64Const v :: rest => .inl (run2 { c with code := rest } (.int v) a)
  | .localGet i :: rest =>
      c.andThen (element (i + 1) c.st.locals) fun v => run2 { c with code := rest } v a
  | .i32Load ma :: rest => c.andThen (loadAt inst c.st.mu ma a) (run1 { c with code := rest })
  | .globalGet i :: rest =>
      c.andThen (element (i + 1) c.st.mu.globals) fun v => run2 { c with code := rest } v a
  | .localSet i :: rest =>
      c.andThen (setelement (i + 1) c.st.locals a) fun locals =>
        run ({ c with code := rest }.withLocals locals)
  | .localTee i :: rest =>
      c.andThen (setelement (i + 1) c.st.locals a) fun locals =>
        run1 ({ c with code := rest }.withLocals locals) a
  | .num (.eqz _) :: rest => .inl (run1 { c with code := rest } (.ofBool a.isZero))
  | .num op :: rest =>
      c.andThen (do let (b, st) ← c.st.pop; return (st, ← op2 inst op b a)) fun (st, v) =>
        run1 { c with code := rest, st } v
  | .brIf n :: rest => branchIf n (!a.isZero) { c with code := rest }
  | .eqzBrIf n :: rest => branchIf n a.isZero { c with code := rest }
  | _ => .inl (run (c.push a))

/-- `run2/5`. -/
def run2Step (inst : Inst L) (c : Config L) (a b : Value L) : Cached L ⊕ Answer L :=
  match c.code with
  | .num (.eqz _) :: rest => .inl (run2 { c with code := rest } (.ofBool a.isZero) b)
  | .num op :: rest => c.andThen (op2 inst op b a) (run1 { c with code := rest })
  | .i32Store ma :: rest =>
      c.andThen (storeAt inst c.st.mu ma b a) fun mu =>
        run { c with code := rest, st := { c.st with mu } }
  | .localSet i :: rest =>
      c.andThen (setelement (i + 1) c.st.locals a) fun locals =>
        run1 ({ c with code := rest }.withLocals locals) b
  | .localTee i :: rest =>
      c.andThen (setelement (i + 1) c.st.locals a) fun locals =>
        run2 ({ c with code := rest }.withLocals locals) a b
  | .i32Const v :: .num (.bin .w32 op) :: rest =>
      c.andThen (binopOf .w32 op a (.int v)) fun v => run2 { c with code := rest } v b
  | .i32Const v :: .num (.rel .w32 op) :: rest =>
      .inl (run2 { c with code := rest } (relopOf inst .w32 op a (.int v)) b)
  | .i64Const v :: .num (.bin .w64 op) :: rest =>
      c.andThen (binopOf .w64 op a (.int v)) fun v => run2 { c with code := rest } v b
  | .i32Const v :: rest => .inl (run2 ({ c with code := rest }.push b) (.int v) a)
  | .i64Const v :: rest => .inl (run2 ({ c with code := rest }.push b) (.int v) a)
  | .localGet i :: rest =>
      c.andThen (element (i + 1) c.st.locals) fun v => run2 ({ c with code := rest }.push b) v a
  | .brIf n :: rest =>
      if a.isZero then .inl (run1 { c with code := rest } b)
      else branchIf n true ({ c with code := rest }.push b)
  | _ => .inl (run ((c.push b).push a))

/-- One clause of `run/3`, `run1/4` or `run2/5`. -/
def cachedStep (inst : Inst L) (outside : Outside L) (s : Cached L) : Cached L ⊕ Answer L :=
  match s.slots with
  | .none => runStep inst outside s.config
  | .one a => run1Step inst s.config a
  | .two a b => run2Step inst s.config a b

end ErlangWasm.Exec
