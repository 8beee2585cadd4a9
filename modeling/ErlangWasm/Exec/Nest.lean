import ErlangWasm.Exec.Machine

/-!
# Invocations inside one another

An invocation that calls out of itself waits for another: of a linked export, of a function another
instance refers to, of generated code, or of a function of the embedder's, which may call in again.
All of them are one `wasm:call/4`, and share the one budget it opened.  What each store holds is not
followed here: it is what the step names.
-/

namespace ErlangWasm.Exec

variable {L : Lang}

/-! ## Instances -/

/-- Where a reference or a table's entry leads. -/
inductive Target (L : Lang)
  | same (f : ℕ)
  | foreign (ref : L.Ref) (f : ℕ)

/-- What an instruction the cache has no clause of does with control. -/
inductive Kind
  /-- goes on with the next instruction, or traps -/
  | plain
  /-- `br_on_null`, `br_on_non_null`, `br_on_cast`, `br_on_cast_fail` -/
  | brOn (n : ℕ)
  /-- `call_indirect`, `call_ref` -/
  | call
  /-- `return_call_indirect`, `return_call_ref` -/
  | returnCall

/-- An instance.  What fails is a trap, or else an error of the interpreter's own. -/
structure Instance (L : Lang) where
  funcs : List (Fn L)
  tags : ℕ → L.Tag × ℕ
  /-- `max_depth` of the instance's own limits -/
  maxDepth : ℕ
  load : L.World → L.Mem → ℤ → Except (Option L.Reason) ℤ
  storeR : L.World → L.Mem → ℤ → Value L → Except (Option L.Reason) (L.World × Option L.Mem)
  relTerm : Width → RelOp → Value L → Value L → Bool
  nullReference : L.Reason
  sameTag : L.Tag → L.Tag → Bool
  kind : L.Op → Kind
  /-- the stack, the locals and the state after a plain instruction -/
  plain : L.Op → List (Value L) → List (Value L) → Mut L →
    Except (Option L.Reason) (List (Value L) × List (Value L) × Mut L)
  /-- whether a `br_on_*` branches, and the stack it goes on with -/
  test : L.Op → List (Value L) → Mut L → Except (Option L.Reason) (Bool × List (Value L))
  /-- `indirect_target/4` and `ref_target/2`, of what was on the top -/
  target : L.Op → Value L → Mut L → Except (Option L.Reason) (Target L)

abbrev Program (L : Lang) := L.Ref → Instance L

def Outcome.failed : Option L.Reason → Outcome L
  | some reason => .trap reason
  | none => .crash

/-- `br_on_*`, by what the test found. -/
def brOn (n : ℕ) (st : St L) :
    Except (Option L.Reason) (Bool × List (Value L)) → Effect L
  | .ok (taken, stack) => brIf n taken { st with stack }
  | .error e => st.stop (.failed e)

/-- `call_indirect` and `call_ref`, where the callee has been found. -/
def callTarget (st : St L) : Except (Option L.Reason) (Target L) → Effect L
  | .ok (.same f) => .call f st
  | .ok (.foreign ref f) => .foreignCall ref f st
  | .error e => st.stop (.failed e)

def returnCallTarget (st : St L) : Except (Option L.Reason) (Target L) → Effect L
  | .ok (.same f) => .returnCall f st
  | .ok (.foreign ref f) => .foreignReturnCall ref f st
  | .error e => st.stop (.failed e)

/-- The clauses of `run/3` the cache has none of. -/
def Instance.other (i : Instance L) (op : L.Op) (st : St L) : Effect L :=
  match i.kind op with
  | .plain =>
      match i.plain op st.stack st.locals st.mu with
      | .ok (stack, locals, mu) => .next { st with stack, locals, mu }
      | .error e => st.stop (.failed e)
  | .brOn n => brOn n st (i.test op st.stack st.mu)
  | .call =>
      match st.pop with
      | .ok (v, st) => charged st fun st => callTarget st (i.target op v st.mu)
      | .error o => st.stop o
  | .returnCall =>
      match st.pop with
      | .ok (v, st) => charged st fun st => returnCallTarget st (i.target op v st.mu)
      | .error o => st.stop o

def Fn.nparams : Fn L → ℕ
  | .wasm nparams .. => nparams
  | .host nparams _ => nparams

/-! ## What one outermost call shares -/

/-- `?BUDGET`.  No fuel is `infinity`, and no number of host calls is. -/
structure Budget where
  fuel : Option ℕ
  hostCalls : ℕ
  depth : ℕ
  maxHostCalls : Option ℕ
  maxDepth : ℕ

/-- `publish_fuel/1`: `leave/2` calls it, and nothing else. -/
def Budget.publish (b : Budget) (a : Answer L) : Budget :=
  match a.outcome with
  | .returned _ => { b with fuel := a.fuel }
  | _ => b

/-- The end of `with_depth/2`. -/
def Budget.restored (b : Budget) : Option ℕ → Budget
  | some depth => { b with depth }
  | none => b

/-- `charge_host_call/1`. -/
def Budget.chargeHostCall (b : Budget) (fuel : Option ℕ) (depth : ℕ) : Option Budget :=
  match b.maxHostCalls with
  | some max => if max < b.hostCalls + 1 then none
      else some { b with fuel, hostCalls := b.hostCalls + 1, depth }
  | none => some { b with fuel, hostCalls := b.hostCalls + 1, depth }

/-- The instance of an interpreted invocation, and whether its state names a generated module. -/
structure Invoked (L : Lang) where
  ref : L.Ref
  code : Bool

/-- The ceiling comes from the budget. -/
def Program.inst (p : Program L) (b : Budget) (inv : Invoked L) : Inst L :=
  let i := p inv.ref
  { funcs := i.funcs
    tags := i.tags
    maxDepth := b.maxDepth
    compiled := inv.code
    foreignParams := fun ref f => ((p ref).funcs[f]?.map Fn.nparams).getD 0
    load := fun w m a => (i.load w m a).mapError .failed
    storeR := fun w m a v => (i.storeR w m a v).mapError .failed
    relTerm := i.relTerm
    nullReference := i.nullReference
    sameTag := i.sameTag
    other := i.other }

/-! ## The nest -/

/-- What waits for what is above it; the depth is what `with_depth/2` puts back. -/
inductive Level (L : Lang)
  /-- an interpreted invocation that has called out -/
  | waiting (inv : Invoked L) (p : Pause L) (restore : Option ℕ)
  /-- a generated function that has called, and the depth its caller gave it -/
  | generated (ref : L.Ref) (depth : ℕ) (restore : Option ℕ)
  /-- a function of the embedder's that has called in -/
  | embedder

inductive Result (L : Lang)
  | answered (o : Outcome L)
  /-- an exception out of `wasm:call` itself -/
  | escaped (e : Exn L)

inductive Running (L : Lang)
  | wasm (inv : Invoked L) (c : Config L)
  /-- `wasm_exec:call/5`, not yet begun -/
  | calling (inv : Invoked L) (f : ℕ) (args : List (Value L))
  | generated (ref : L.Ref) (depth : ℕ)
  | embedder
  | done (r : Result L)

structure Nest (L : Lang) where
  running : Running L
  below : List (Level L)
  budget : Budget

/-- What the stores hold where something is gone on with. -/
abbrev Stores (L : Lang) := L.Ref → Mut L

/-- How an invocation's end is met by the one that waits for it.  A host function's caller adopts the
fuel of the budget; a foreign call leaves its caller's state alone. -/
def ending (stores : Stores L) (b : Budget) (inv : Invoked L) (p : Pause L) : Outcome L → Ending L
  | .returned results =>
      match p.callee with
      | .host _ => .returned results (stores inv.ref) b.fuel
      | .foreign .. =>
          .returned results { p.config.st.mu with world := (stores inv.ref).world } p.config.st.fuel
      | .compiled _ => .returned results (stores inv.ref) p.config.st.fuel
  | .uncaught e => .threw e (stores inv.ref).world
  | o => .stopped o (stores inv.ref) p.config.st.fuel

/-- The end of what was running.  `call_toplevel/5` makes an answer of an exception, where the
embedder called and, at the very bottom, unless generated code is there. -/
def settle (p : Program L) (stores : Stores L) (b : Budget) (o : Outcome L) :
    List (Level L) → Nest L
  | [] => ⟨.done (.answered o), [], b⟩
  | .embedder :: below => ⟨.embedder, below, b⟩
  | .generated ref depth restore :: below =>
      match o, below with
      | .returned _, below => ⟨.generated ref depth, below, b.restored restore⟩
      | .uncaught e, [] => ⟨.done (.escaped e), [], b.restored restore⟩
      | o, below => settle p stores (b.restored restore) o below
  | .waiting inv pause restore :: below =>
      let b := b.restored restore
      match resume (p.inst b inv) pause (ending stores b inv pause o) with
      | .inl c => ⟨.wasm inv c, below, b⟩
      | .inr a => settle p stores (b.publish a) a.outcome below

/-- The end of an interpreted invocation. -/
def answer (p : Program L) (stores : Stores L) (b : Budget) (a : Answer L)
    (below : List (Level L)) : Nest L :=
  settle p stores (b.publish a) a.outcome below

/-- A host function: another instance's export, or one of the embedder's. -/
def Running.host (linked : Option (L.Ref × ℕ)) (args : List (Value L)) : Running L :=
  match linked with
  | some (ref, f) => .calling ⟨ref, false⟩ f args
  | none => .embedder

/-- `call_host/3`, from a state with this fuel and this depth. -/
def callHost (p : Program L) (stores : Stores L) (limit : L.Reason) (b : Budget)
    (fuel : Option ℕ) (depth : ℕ) (linked : Option (L.Ref × ℕ)) (args : List (Value L))
    (below : List (Level L)) : Nest L :=
  match b.chargeHostCall fuel depth with
  | some b => ⟨.host linked args, below, b⟩
  | none => settle p stores b (.trap limit) below

/-- Out of the invocation; `held` says whether the generated module has the function. -/
def goOut (p : Program L) (stores : Stores L) (limit : L.Reason) (held : Bool) (b : Budget)
    (inv : Invoked L) (pause : Pause L) (below : List (Level L)) : Nest L :=
  let st := pause.config.st
  match pause.callee with
  | .compiled _ =>
      if held then ⟨.generated inv.ref st.depth, .waiting inv pause none :: below, b⟩
      else
        match resume (p.inst b inv) pause .refused with
        | .inl c => ⟨.wasm inv c, below, b⟩
        | .inr a => answer p stores b a below
  | .foreign ref f =>
      ⟨.calling ⟨ref, false⟩ f pause.args, .waiting inv pause (some b.depth) :: below,
        { b with depth := st.depth }⟩
  | .host f =>
      let linked := match (p inv.ref).funcs[f]? with
        | some (.host _ linked) => linked
        | _ => none
      callHost p stores limit b st.fuel st.depth linked pause.args
        (.waiting inv pause none :: below)

/-- `enter_top/3`. -/
def enterTop (nres : ℕ) (body : Code L) (locals : List (Value L)) (mu : Mut L) (b : Budget) :
    Config L :=
  { code := body
    ctrl := [.func nres]
    st := { stack := [], locals, mu, fuel := b.fuel, depth := b.depth + 1 }
    frames := [.toplevel]
    log := [] }

/-- `wasm_exec:call/5`, and `init_state/4`: a metered invocation reaches no generated module. -/
def beginCall (p : Program L) (stores : Stores L) (limit : L.Reason) (b : Budget)
    (inv : Invoked L) (f : ℕ) (args : List (Value L)) (below : List (Level L)) : Nest L :=
  match (p inv.ref).funcs[f]? with
  | none => settle p stores b .crash below
  | some (.host _ linked) => callHost p stores limit b b.fuel b.depth linked args below
  | some (.wasm nparams defaults nres body) =>
      if args.length ≠ nparams then settle p stores b .crash below
      else if b.maxDepth ≤ b.depth then settle p stores b .stackExhausted below
      else
        ⟨.wasm ⟨inv.ref, inv.code && b.fuel.isNone⟩
          (enterTop nres body (args ++ defaults) (stores inv.ref) b), below, b⟩

inductive Act (L : Lang)
  /-- a clause of the interpreter -/
  | step (stores : Stores L) (held : Bool)
  /-- the beginning of an invocation -/
  | begin (stores : Stores L)
  /-- a generated function, or a host function, returns -/
  | returns (stores : Stores L) (results : List (Value L))
  /-- a generated function, or a host function, traps -/
  | traps (stores : Stores L) (reason : L.Reason)
  /-- a host function calls in -/
  | calls (ref : L.Ref) (f : ℕ) (args : List (Value L))
  /-- a generated function calls another -/
  | callsGenerated (stores : Stores L)
  /-- `call_out/7` -/
  | callsOut (stores : Stores L) (f : ℕ) (args : List (Value L))
  /-- `indirect_out/9`, of another instance's function -/
  | callsForeign (stores : Stores L) (ref : L.Ref) (f : ℕ) (args : List (Value L))

/-- `check_depth/2`, against the instance's own ceiling, and then the call. -/
def checkDepth (p : Program L) (stores : Stores L) (ref : L.Ref) (depth : ℕ) (n : Nest L)
    (k : Nest L) : Nest L :=
  if (p ref).maxDepth ≤ depth + 1 then settle p stores n.budget .stackExhausted n.below else k

/-- One step. -/
def Nest.step (p : Program L) (limit : L.Reason) (n : Nest L) : Act L → Option (Nest L)
  | .step stores held =>
      match n.running with
      | .wasm inv c =>
          match stackClause (p.inst n.budget inv) c with
          | .inl c' => some ⟨.wasm inv c', n.below, n.budget⟩
          | .inr (.answered a) => some (answer p stores n.budget a n.below)
          | .inr (.out pause) => some (goOut p stores limit held n.budget inv pause n.below)
      | _ => none
  | .begin stores =>
      match n.running with
      | .calling inv f args => some (beginCall p stores limit n.budget inv f args n.below)
      | _ => none
  | .returns stores results =>
      match n.running with
      | .generated .. => some (settle p stores n.budget (.returned results) n.below)
      | .embedder => some (settle p stores n.budget (.returned results) n.below)
      | _ => none
  | .traps stores reason =>
      match n.running with
      | .generated .. => some (settle p stores n.budget (.trap reason) n.below)
      | .embedder => some (settle p stores n.budget (.trap reason) n.below)
      | _ => none
  | .calls ref f args =>
      match n.running with
      | .embedder => some ⟨.calling ⟨ref, false⟩ f args, .embedder :: n.below, n.budget⟩
      | _ => none
  | .callsGenerated stores =>
      match n.running with
      | .generated ref depth =>
          some (checkDepth p stores ref depth n
            ⟨.generated ref (depth + 1), .generated ref depth none :: n.below, n.budget⟩)
      | _ => none
  | .callsOut stores f args =>
      match n.running with
      | .generated ref depth =>
          some (checkDepth p stores ref depth n
            ⟨.calling ⟨ref, true⟩ f args, .generated ref depth (some n.budget.depth) :: n.below,
              { n.budget with depth := depth + 1 }⟩)
      | _ => none
  | .callsForeign stores ref' f args =>
      match n.running with
      | .generated ref depth =>
          some (checkDepth p stores ref depth n
            ⟨.calling ⟨ref', false⟩ f args, .generated ref depth (some n.budget.depth) :: n.below,
              { n.budget with depth := depth + 1 }⟩)
      | _ => none

/-- What `wasm_jit:entry/3` finds of the function: no generated module, one that has not the function,
or one that has. -/
inductive Tier
  | interpreted
  | notCompiled
  | compiled
  deriving DecidableEq

/-- The limits of the call, its options laid over the instance's. -/
structure Limits where
  fuel : Option ℕ
  maxDepth : ℕ
  maxHostCalls : Option ℕ
  /-- of `wasm_limits:validate/1` -/
  positive : 0 < maxDepth

theorem hundred_pos : 0 < 100 := by decide

/-- `open_budget/1`. -/
def Limits.budget (l : Limits) : Budget :=
  { fuel := l.fuel, hostCalls := 0, depth := 0, maxHostCalls := l.maxHostCalls,
    maxDepth := l.maxDepth }

/-- `wasm:call/4`.  A call that is metered, or whose ceiling is not the instance's, is interpreted. -/
def Nest.start (p : Program L) (ref : L.Ref) (f : ℕ) (args : List (Value L)) (l : Limits)
    (tier : Tier) : Nest L :=
  let tier := if l.fuel = none ∧ l.maxDepth = (p ref).maxDepth then tier else .interpreted
  match tier with
  | .interpreted => ⟨.calling ⟨ref, false⟩ f args, [], l.budget⟩
  | .notCompiled => ⟨.calling ⟨ref, true⟩ f args, [], l.budget⟩
  | .compiled => ⟨.generated ref 0, [], l.budget⟩

/-! ## A language with one more instruction

`call_ref`, of what is on the top of the stack: function 0 of the instance it names. -/

abbrev Lang.bare : Lang where
  Op := Unit
  Tag := Unit
  Term := Empty
  Mem := Unit
  World := Unit
  Reason := Unit
  Ref := ℕ

def Instance.bare (maxDepth : ℕ) (funcs : List (Fn .bare)) : Instance .bare where
  funcs
  tags _ := ((), 0)
  maxDepth
  load _ _ _ := .error none
  storeR _ _ _ _ := .error none
  relTerm _ _ _ _ := false
  nullReference := ()
  sameTag _ _ := true
  kind _ := .call
  plain _ _ _ _ := .error none
  test _ _ _ := .error none
  target _ v _ :=
    match v with
    | .int n => .ok (.foreign n.toNat 0)
    | _ => .error none

def Stores.bare : Stores .bare := fun _ => ⟨[], [], ()⟩

/-- One function, which calls a host function. -/
def reentrant : Program .bare := fun _ => .bare 100 [.wasm 0 [] 0 [.call 1], .host 0 none]

end ErlangWasm.Exec
