import ErlangWasm.Exec.Cache

/-!
# Fused code

Bodies, continuations and callees fused throughout run in step with the same unfused, a
superinstruction for what it was made of.
-/

namespace ErlangWasm.Exec

open Reasoning.Halting Reasoning.Simulation

variable {L : Lang} {inst : Inst L} {outside : Outside L}

/-! ## What is fused -/

/-- The straight-line sequences `fuse` merges, and what into. -/
inductive Fuses : Code L → Instr L → Prop
  | lgConstAddSet (i : ℕ) (c : ℤ) (t : ℕ) :
      Fuses [.localGet i, .i32Const c, .num (.bin .w32 .add), .localSet t]
        (.lgConstAddSet (i + 1) c (t + 1))
  | lgConstAddTee (i : ℕ) (c : ℤ) (t : ℕ) :
      Fuses [.localGet i, .i32Const c, .num (.bin .w32 .add), .localTee t]
        (.lgConstAddTee (i + 1) c (t + 1))
  | lgConstAdd (i : ℕ) (c : ℤ) :
      Fuses [.localGet i, .i32Const c, .num (.bin .w32 .add)] (.lgConstAdd (i + 1) c)
  | lgLgStore (i j : ℕ) (ma : MemArg) :
      Fuses [.localGet i, .localGet j, .i32Store ma] (.lgLgStore (i + 1) (j + 1) ma)
  | lgLoadTee (i : ℕ) (ma : MemArg) (t : ℕ) :
      Fuses [.localGet i, .i32Load ma, .localTee t] (.lgLoadTee (i + 1) ma (t + 1))
  | lgLoad (i : ℕ) (ma : MemArg) : Fuses [.localGet i, .i32Load ma] (.lgLoad (i + 1) ma)
  | lgLg (i j : ℕ) : Fuses [.localGet i, .localGet j] (.lgLg (i + 1) (j + 1))
  | lgConst (i : ℕ) (c : ℤ) : Fuses [.localGet i, .i32Const c] (.lgConst (i + 1) c)

/-- How a piece of code and the same after a pass begin. -/
inductive Begins (pass : Code L → Code L) (kept : Instr L → Instr L) :
    Code L → Code L → Prop
  | nil : Begins pass kept [] []
  | one (i : Instr L) (r : Code L) : Begins pass kept (i :: r) (kept i :: pass r)
  | fused {pre : Code L} {s : Instr L} (h : Fuses pre s) (r : Code L) :
      Begins pass kept (pre ++ r) (s :: pass r)
  | eqzBrIf (n : ℕ) (r : Code L) :
      Begins pass kept (.num (.eqz .w32) :: .brIf n :: r) (.eqzBrIf n :: pass r)

theorem fuse_begins (code : Code L) : Begins fuse id code (fuse code) := by
  fun_cases fuse code with
  | case1 i c t r => exact .fused (.lgConstAddSet i c t) r
  | case2 i c t r => exact .fused (.lgConstAddTee i c t) r
  | case3 i c r => exact .fused (.lgConstAdd i c) r
  | case4 i j ma r => exact .fused (.lgLgStore i j ma) r
  | case5 i ma t r => exact .fused (.lgLoadTee i ma t) r
  | case6 i ma r => exact .fused (.lgLoad i ma) r
  | case7 i j r => exact .fused (.lgLg i j) r
  | case8 i c r => exact .fused (.lgConst i c) r
  | case9 n r => exact .eqzBrIf n r
  | case10 i r => exact .one i r
  | case11 => exact .nil

/-- An instruction without a body inside. -/
def Instr.isLeaf : Instr L → Bool
  | .block .. => false
  | .loop .. => false
  | .tryTable .. => false
  | .if_ .. => false
  | _ => true

theorem eq_of_lowerInstr {i j : Instr L} (h : lowerInstr i = j) (hj : j.isLeaf = true) : i = j := by
  subst h
  cases i <;> first | rfl | cases hj

theorem Fuses.isLeaf {pre : Code L} {s : Instr L} (h : Fuses pre s) :
    ∀ j ∈ pre, j.isLeaf = true := by
  cases h <;> simp [Instr.isLeaf]

/-- What begins with instructions without bodies began with them before the bodies were lowered. -/
theorem append_of_lowerEach {pre code r : Code L} (hpre : ∀ j ∈ pre, j.isLeaf = true)
    (h : lowerInstr.lowerEach code = pre ++ r) :
    ∃ r', code = pre ++ r' ∧ lowerInstr.lowerEach r' = r := by
  induction pre generalizing code with
  | nil => exact ⟨code, rfl, h⟩
  | cons j pre ih =>
    cases code with
    | nil => cases h
    | cons i code =>
      have hcons : lowerInstr i :: lowerInstr.lowerEach code = j :: (pre ++ r) := h
      obtain ⟨hi, htail⟩ := List.cons.inj hcons
      obtain rfl := eq_of_lowerInstr hi (hpre j (List.mem_cons_self ..))
      obtain ⟨r', rfl, hr⟩ := ih (fun j hj => hpre j (List.mem_cons_of_mem _ hj)) htail
      exact ⟨r', rfl, hr⟩

theorem lower_begins (code : Code L) : Begins lower lowerInstr code (lower code) := by
  have hbegins := fuse_begins (lowerInstr.lowerEach code)
  show Begins lower lowerInstr code (fuse (lowerInstr.lowerEach code))
  generalize heach : lowerInstr.lowerEach code = each at hbegins ⊢
  generalize fuse each = fused at hbegins ⊢
  cases hbegins with
  | nil =>
    cases code with
    | nil => exact .nil
    | cons i code => cases heach
  | one i r =>
    cases code with
    | nil => cases heach
    | cons j code =>
      obtain ⟨rfl, rfl⟩ := List.cons.inj heach
      exact .one j code
  | fused h r =>
    obtain ⟨r', rfl, rfl⟩ := append_of_lowerEach h.isLeaf heach
    exact .fused h r'
  | eqzBrIf n r =>
    have hpre : ∀ j ∈ [Instr.num (.eqz .w32), .brIf n], (j : Instr L).isLeaf = true := by
      simp [Instr.isLeaf]
    obtain ⟨r', rfl, rfl⟩ := append_of_lowerEach hpre heach
    exact .eqzBrIf n r'

/-! ## A configuration fused throughout -/

def Fn.lowered : Fn L → Fn L
  | .wasm nparams defaults nres body => .wasm nparams defaults nres (lower body)
  | .host nparams linked => .host nparams linked

def Inst.lowered (inst : Inst L) : Inst L := { inst with funcs := inst.funcs.map Fn.lowered }

def Ctrl.lowered : Ctrl L → Ctrl L
  | .block cont arity saved => .block (lower cont) arity saved
  | .tryTable cont arity saved catches => .tryTable (lower cont) arity saved catches
  | .loop cont npar body saved => .loop (lower cont) npar (lower body) saved
  | .func nres => .func nres

def CallFrame.lowered : CallFrame L → CallFrame L
  | .toplevel => .toplevel
  | .caller cont ctrl locals stack => .caller (lower cont) (ctrl.map Ctrl.lowered) locals stack

def Config.lowered (c : Config L) : Config L :=
  { c with
    code := lower c.code
    ctrl := c.ctrl.map Ctrl.lowered
    frames := c.frames.map CallFrame.lowered }

/-- The same step, of a configuration fused throughout. -/
abbrev Lowers (x y : Config L ⊕ Answer L) : Prop := x = y.map Config.lowered id

def Exit.lowered : Exit L → Exit L
  | .answered a => .answered a
  | .out p => .out { p with config := p.config.lowered }

/-- The same step, or the same call out. -/
abbrev LowersOut (x y : Config L ⊕ Exit L) : Prop := x = y.map Config.lowered Exit.lowered

theorem inside_lowered {x y : Config L ⊕ Answer L} (h : Lowers x y) :
    LowersOut (inside x) (inside y) := by
  subst h
  cases y <;> rfl

theorem leave_lowered (nres : ℕ) (c : Config L) :
    Lowers (leave nres c.lowered) (leave nres c) := by
  obtain ⟨code, ctrl, st, frames, log⟩ := c
  match frames with
  | [] => rfl
  | [.toplevel] => rfl
  | .caller .. :: _ => rfl
  | .toplevel :: _ :: _ => rfl

theorem finish_lowered (c : Config L) : Lowers (finish c.lowered) (finish c) := by
  obtain ⟨code, ctrl, st, frames, log⟩ := c
  match ctrl with
  | .block .. :: _ => rfl
  | .tryTable .. :: _ => rfl
  | .loop .. :: _ => rfl
  | [.func nres] => exact leave_lowered nres _
  | [] => exact leave_lowered 0 _
  | .func _ :: _ :: _ => rfl

theorem branch_lowered (n : ℕ) (c : Config L) : Lowers (branch n c.lowered) (branch n c) := by
  have hctrl : c.lowered.ctrl[n]? = c.ctrl[n]?.map Ctrl.lowered := List.getElem?_map
  have hdrop : c.lowered.ctrl.drop (n + 1) = (c.ctrl.drop (n + 1)).map Ctrl.lowered :=
    List.map_drop.symm
  unfold branch
  rw [hctrl, hdrop]
  cases c.ctrl[n]? with
  | none => rfl
  | some frame =>
    cases frame with
    | block cont arity saved => rfl
    | tryTable cont arity saved catches => rfl
    | loop cont npar body saved =>
      dsimp only [Config.lowered]
      cases charge 1 c.st <;> rfl
    | func nres => exact leave_lowered nres c

/-! ## Exceptions and calls -/

def Landing.lowered (l : Landing L) : Landing L :=
  { l with code := lower l.code, ctrl := l.ctrl.map Ctrl.lowered }

theorem takes_lowered (e : Exn L) (clause : Catch) :
    clause.takes inst.lowered e = clause.takes inst e := by
  cases clause <;> rfl

theorem matchCatch_lowered (e : Exn L) (catches : List Catch) :
    matchCatch inst.lowered e catches = matchCatch inst e catches := by
  induction catches with
  | nil => rfl
  | cons clause rest ih => rw [matchCatch, matchCatch, takes_lowered, ih]

theorem handlerTarget_lowered (label : ℕ) (ctrl : List (Ctrl L)) (values : List (Value L)) :
    handlerTarget label (ctrl.map Ctrl.lowered) values =
      (handlerTarget label ctrl values).map Landing.lowered := by
  have hctrl : (ctrl.map Ctrl.lowered)[label]? = ctrl[label]?.map Ctrl.lowered := List.getElem?_map
  have hdrop : (ctrl.map Ctrl.lowered).drop (label + 1) =
      (ctrl.drop (label + 1)).map Ctrl.lowered := List.map_drop.symm
  unfold handlerTarget
  rw [hctrl, hdrop]
  cases ctrl[label]? with
  | none => rfl
  | some frame => cases frame <;> rfl

theorem findHandler_lowered (e : Exn L) (ctrl : List (Ctrl L)) :
    findHandler inst.lowered e (ctrl.map Ctrl.lowered) =
      (findHandler inst e ctrl).map (Option.map Landing.lowered) := by
  induction ctrl with
  | nil => rfl
  | cons frame rest ih =>
    cases frame with
    | block cont arity saved | loop cont npar body saved | func nres => exact ih
    | tryTable cont arity saved catches =>
      show findHandler inst.lowered e
        (.tryTable (lower cont) arity saved catches :: rest.map Ctrl.lowered) = _
      rw [findHandler, findHandler, matchCatch_lowered]
      cases matchCatch inst e catches with
      | none => exact ih
      | some p =>
        show (do return some (← handlerTarget p.1 (rest.map Ctrl.lowered) p.2)) = _
        rw [handlerTarget_lowered]
        show _ = Except.map _ (do return some (← handlerTarget p.1 rest p.2))
        cases handlerTarget p.1 rest p.2 <;> rfl

theorem throwExn_lowered (e : Exn L) (log : List (Mark × St L)) (frames : List (CallFrame L))
    (ctrl : List (Ctrl L)) (st : St L) :
    Lowers
      (throwExn inst.lowered e log (frames.map CallFrame.lowered) (ctrl.map Ctrl.lowered) st)
      (throwExn inst e log frames ctrl st) := by
  induction frames generalizing ctrl st with
  | nil =>
    rw [List.map_nil]
    unfold throwExn
    rw [findHandler_lowered]
    cases findHandler inst e ctrl with
    | error o => rfl
    | ok found => cases found <;> rfl
  | cons frame rest ih =>
    rw [List.map_cons]
    unfold throwExn
    rw [findHandler_lowered]
    cases findHandler inst e ctrl with
    | error o => rfl
    | ok found =>
      cases found with
      | some landing => rfl
      | none =>
        cases frame with
        | caller cont ctrl locals stack => exact ih ctrl _
        | toplevel => cases rest <;> rfl

theorem enter_lowered (locals : List (Value L)) (nres : ℕ) (body : Code L) (c : Config L) :
    Lowers (enter inst.lowered locals nres (lower body) c.lowered)
      (enter inst locals nres body c) := by
  unfold enter
  show (if inst.maxDepth ≤ c.st.depth then _ else _) = _
  split <;> rfl

theorem funcs_lowered (f : ℕ) : inst.lowered.funcs[f]? = inst.funcs[f]?.map Fn.lowered :=
  List.getElem?_map

theorem return_lowered (c : Config L) : Lowers (return_ c.lowered) (return_ c) := by
  have hlast : c.lowered.ctrl.getLast? = c.ctrl.getLast?.map Ctrl.lowered := List.getLast?_map
  unfold return_
  rw [hlast]
  cases c.ctrl.getLast? with
  | none => rfl
  | some frame =>
    cases frame with
    | func nres => exact leave_lowered nres c
    | block cont arity saved => rfl
    | tryTable cont arity saved catches => rfl
    | loop cont npar body saved => rfl

theorem callOut_lowered (callee : Callee L) (nparams : ℕ) (way : Way) (c : Config L) :
    LowersOut (callOut callee nparams way c.lowered) (callOut callee nparams way c) := by
  unfold callOut
  dsimp only [Config.lowered]
  cases split nparams c.st.stack <;> rfl

theorem doCall_lowered (f : ℕ) (c : Config L) :
    LowersOut (doCall inst.lowered f c.lowered) (doCall inst f c) := by
  unfold doCall
  rw [funcs_lowered]
  cases inst.funcs[f]? with
  | none => rfl
  | some fn =>
    cases fn with
    | host nparams linked => exact callOut_lowered (.host f) nparams .call c
    | wasm nparams defaults nres body =>
      dsimp only [Config.lowered, Fn.lowered, Option.map_some]
      cases split nparams c.st.stack with
      | none => rfl
      | some p =>
        show (if inst.compiled then (if inst.maxDepth ≤ c.st.depth then _ else _) else _) =
          Sum.map Config.lowered Exit.lowered
            (if inst.compiled then (if inst.maxDepth ≤ c.st.depth then _ else _) else _)
        split
        · split <;> rfl
        · exact inside_lowered (enter_lowered _ nres body (c.withStack p.2))

theorem doReturnCall_lowered (f : ℕ) (c : Config L) :
    LowersOut (doReturnCall inst.lowered f c.lowered) (doReturnCall inst f c) := by
  unfold doReturnCall
  rw [funcs_lowered]
  cases inst.funcs[f]? with
  | none => rfl
  | some fn =>
    cases fn with
    | host nparams linked => exact callOut_lowered (.host f) nparams .hostReturnCall c
    | wasm nparams defaults nres body =>
      dsimp only [Config.lowered, Fn.lowered, Option.map_some]
      cases split nparams c.st.stack <;> rfl

theorem resume_lowered (p : Pause L) (ending : Ending L) :
    Lowers (resume inst.lowered { p with config := p.config.lowered } ending)
      (resume inst p ending) := by
  obtain ⟨callee, args, way, c⟩ := p
  cases ending with
  | stopped o mu fuel => rfl
  | returned results mu fuel =>
    cases way with
    | call => rfl
    | foreignReturnCall =>
      exact return_lowered
        { c with st := { c.st with stack := results.reverse ++ c.st.stack, mu, fuel } }
    | hostReturnCall =>
      exact leave_lowered results.length
        { c with st := { c.st with stack := results.reverse, mu, fuel } }
  | threw e world =>
    cases way with
    | hostReturnCall => rfl
    | call | foreignReturnCall => exact throwExn_lowered e _ c.frames c.ctrl _
  | refused =>
    cases callee with
    | host f => rfl
    | foreign ref f => rfl
    | compiled f =>
      unfold resume
      simp only [funcs_lowered]
      cases inst.funcs[f]? with
      | none => rfl
      | some fn =>
        cases fn with
        | host nparams linked => rfl
        | wasm nparams defaults nres body => exact enter_lowered _ nres body c

theorem closed_lowered {x y : Config L ⊕ Exit L} (h : LowersOut x y) :
    Lowers (closed inst.lowered outside x) (closed inst outside y) := by
  subst h
  match y with
  | .inl c => rfl
  | .inr (.answered a) => rfl
  | .inr (.out p) => exact resume_lowered p _

/-! ## Steps -/

theorem perform_lowered (c : Config L) (effect : Effect L) :
    LowersOut (perform inst.lowered c.lowered effect) (perform inst c effect) := by
  cases effect with
  | next st => rfl
  | branch n st =>
    have hbranch := branch_lowered n ({ c with st }.mark (.branch n))
    exact inside_lowered hbranch
  | leave st =>
    have hreturn := return_lowered { c with st }
    exact inside_lowered hreturn
  | call f st => exact doCall_lowered f ({ c with st }.mark (.call f))
  | returnCall f st => exact doReturnCall_lowered f ({ c with st }.mark (.returnCall f))
  | foreignCall ref f st =>
    exact callOut_lowered (.foreign ref f) (inst.foreignParams ref f) .call
      ({ c with st }.mark (.call f))
  | foreignReturnCall ref f st =>
    exact callOut_lowered (.foreign ref f) (inst.foreignParams ref f) .foreignReturnCall
      ({ c with st }.mark (.returnCall f))
  | throw e st => exact inside_lowered (throwExn_lowered e _ c.frames c.ctrl st)
  | stop o mu fuel => rfl

theorem enterBody_lowered (npar : ℕ) (frame : List (Value L) → Ctrl L) (body : Code L)
    (c : Config L) :
    Lowers (enterBody npar (fun saved => (frame saved).lowered) (lower body) c.lowered)
      (enterBody npar frame body c) := by
  unfold enterBody
  dsimp only [Config.lowered]
  cases split npar c.st.stack <;> rfl

theorem runInstr_leaf {i : Instr L} (h : i.isLeaf = true) (c : Config L) :
    runInstr inst i c = perform inst c (exec inst i c.st) := by
  cases i <;> first | rfl | cases h

theorem straight_lowered (i : Instr L) (st : St L) :
    straight inst.lowered i st = straight inst i st := by
  cases i <;> rfl

theorem exec_lowered (i : Instr L) (st : St L) : exec inst.lowered i st = exec inst i st := by
  cases i <;> rfl

theorem runInstr_leaf_lowered {i : Instr L} (h : i.isLeaf = true) (c : Config L) :
    LowersOut (runInstr inst.lowered i c.lowered) (runInstr inst i c) := by
  rw [LowersOut, runInstr_leaf h, runInstr_leaf h, exec_lowered]
  exact perform_lowered c (exec inst i c.st)

/-- An instruction that is not fused, with its bodies. -/
theorem runInstr_lowered (i : Instr L) (c : Config L) :
    LowersOut (runInstr inst.lowered (lowerInstr i) c.lowered) (runInstr inst i c) := by
  cases i with
  | block npar nres body =>
    have hbody := enterBody_lowered npar (.block c.code nres) body c
    exact inside_lowered hbody
  | loop npar nres body =>
    have hbody := enterBody_lowered npar (.loop c.code npar body) body c
    exact inside_lowered hbody
  | tryTable npar nres catches body =>
    have hbody := enterBody_lowered npar (fun saved => .tryTable c.code nres saved catches) body c
    exact inside_lowered hbody
  | if_ npar nres then_ else_ =>
    unfold runInstr lowerInstr
    dsimp only [Config.lowered]
    cases c.st.pop with
    | error o => rfl
    | ok p =>
      have hite : (if p.1.isZero then lower else_ else lower then_) =
          lower (if p.1.isZero then else_ else then_) := (apply_ite lower _ _ _).symm
      show inside (enterBody npar _ (if p.1.isZero then lower else_ else lower then_) _) = _
      rw [hite]
      have hbody := enterBody_lowered npar (.block c.code nres)
        (if p.1.isZero then else_ else then_) { c with st := p.2 }
      exact inside_lowered hbody
  | _ => exact runInstr_leaf_lowered rfl c

/-! ## A superinstruction for what it was made of -/

/-- Straight-line instructions one after another. -/
def straightAll (inst : Inst L) : Code L → St L → Except (Outcome L) (St L)
  | [], st => .ok st
  | i :: r, st => do straightAll inst r (← straight inst i st)

theorem straightAll_one (i : Instr L) (st : St L) :
    straightAll inst [i] st = straight inst i st := by
  show (straight inst i st >>= straightAll inst []) = _
  cases straight inst i st <;> rfl

theorem straightAll_localGet (i : ℕ) (r : Code L) (st : St L) :
    straightAll inst (.localGet i :: r) st =
      element (i + 1) st.locals >>= fun v => straightAll inst r (st.push v) := by
  rw [straightAll, straight]
  cases element (L := L) (i + 1) st.locals <;> rfl

theorem straightAll_i32Const (c : ℤ) (r : Code L) (st : St L) :
    straightAll inst (.i32Const c :: r) st = straightAll inst r (st.push (.int c)) := rfl

theorem straightAll_add (r : Code L) (st : St L) (a b : Value L) :
    straightAll inst (.num (.bin .w32 .add) :: r) ((st.push a).push b) =
      binopOf .w32 .add a b >>= fun v => straightAll inst r (st.push v) := by
  show ((binopOf .w32 .add a b >>= fun v => pure (st.push v)) >>= straightAll inst r) = _
  cases binopOf .w32 .add a b <;> rfl

theorem straightAll_i32Load (ma : MemArg) (r : Code L) (st : St L) (base : Value L) :
    straightAll inst (.i32Load ma :: r) (st.push base) =
      loadAt inst st.mu ma base >>= fun v => straightAll inst r (st.push v) := by
  show ((loadAt inst st.mu ma base >>= fun v => pure (st.push v)) >>= straightAll inst r) = _
  cases loadAt inst st.mu ma base <;> rfl

/-- A superinstruction does what it was made of does. -/
theorem Fuses.straight_eq {pre : Code L} {s : Instr L} (h : Fuses pre s) (st : St L) :
    straight inst s st = straightAll inst pre st := by
  cases h with
  | lgConstAddSet i c t | lgConstAddTee i c t =>
    rw [straightAll_localGet]
    apply bind_congr
    intro a
    rw [straightAll_i32Const, straightAll_add]
    apply bind_congr
    intro v
    rw [straightAll_one]
    rfl
  | lgConstAdd i c =>
    rw [straightAll_localGet]
    apply bind_congr
    intro a
    rw [straightAll_i32Const, straightAll_add]
    rfl
  | lgLgStore i j ma =>
    rw [straightAll_localGet]
    apply bind_congr
    intro base
    rw [straightAll_localGet]
    apply bind_congr
    intro value
    rw [straightAll_one]
    rfl
  | lgLoadTee i ma t =>
    rw [straightAll_localGet]
    apply bind_congr
    intro base
    rw [straightAll_i32Load]
    apply bind_congr
    intro v
    rw [straightAll_one]
    rfl
  | lgLoad i ma =>
    rw [straightAll_localGet]
    apply bind_congr
    intro base
    rw [straightAll_i32Load]
    rfl
  | lgLg i j =>
    -- the superinstruction reads the second local first
    show (element (j + 1) st.locals >>= fun a => element (i + 1) st.locals >>= fun b =>
      pure ((st.push b).push a)) = _
    rw [straightAll_localGet]
    have hlast : ∀ b, straightAll inst [.localGet j] (st.push b) =
        element (j + 1) st.locals >>= fun a => pure ((st.push b).push a) :=
      fun b => straightAll_one _ _
    simp only [hlast, element]
    cases st.locals[i]? <;> cases st.locals[j]? <;> rfl
  | lgConst i c =>
    rw [straightAll_localGet]
    rfl

/-- An instruction whose clause of `run/3` goes straight on, or fails. -/
def GoesOn (inst : Inst L) (i : Instr L) : Prop :=
  i.isLeaf = true ∧ ∀ st, exec inst i st = .ofStraight st (straight inst i st)

/-- What keeps what a later failure is reported with. -/
def Quiet (inst : Inst L) (i : Instr L) : Prop :=
  ∀ {st st'}, straight inst i st = .ok st' → st'.mu = st.mu ∧ st'.fuel = st.fuel

theorem quiet_of_push {x : Except (Outcome L) (Value L)} {st st' : St L}
    (h : (x >>= fun v => pure (st.push v)) = .ok st') : st'.mu = st.mu ∧ st'.fuel = st.fuel := by
  cases x with
  | error o => cases h
  | ok v =>
    cases h
    exact ⟨rfl, rfl⟩

theorem quiet_localGet (i : ℕ) : Quiet inst (.localGet i) := fun h => quiet_of_push h

theorem quiet_i32Const (c : ℤ) : Quiet inst (.i32Const c) := by
  intro st st' h
  cases h
  exact ⟨rfl, rfl⟩

theorem quiet_add : Quiet inst (.num (.bin .w32 .add)) := by
  intro st st' h
  obtain ⟨stack, locals, mu, fuel, depth⟩ := st
  match stack with
  | [] => cases h
  | [_] => cases h
  | b :: a :: s =>
    have hpush : (binopOf .w32 .add a b >>= fun v =>
        pure (St.push ⟨s, locals, mu, fuel, depth⟩ v)) = .ok st' := h
    have hkept := quiet_of_push hpush
    exact hkept

theorem quiet_i32Load (ma : MemArg) : Quiet inst (.i32Load ma) := by
  intro st st' h
  obtain ⟨stack, locals, mu, fuel, depth⟩ := st
  match stack with
  | [] => cases h
  | base :: s =>
    have hpush : (loadAt inst mu ma base >>= fun v =>
        pure (St.push ⟨s, locals, mu, fuel, depth⟩ v)) = .ok st' := h
    have hkept := quiet_of_push hpush
    exact hkept

/-- Straight-line instructions of which only the last may touch the store. -/
inductive Calm (inst : Inst L) : Code L → Prop
  | last {i : Instr L} (hi : GoesOn inst i) : Calm inst [i]
  | cons {i : Instr L} {r : Code L} (hi : GoesOn inst i) (hquiet : Quiet inst i)
      (hr : Calm inst r) : Calm inst (i :: r)

theorem Fuses.calm {pre : Code L} {s : Instr L} (h : Fuses pre s) : Calm inst pre := by
  have hget : ∀ i, GoesOn inst (.localGet i) := fun i => ⟨rfl, fun _ => rfl⟩
  have hconst : ∀ c, GoesOn inst (.i32Const c) := fun c => ⟨rfl, fun _ => rfl⟩
  have hadd : GoesOn inst (.num (.bin .w32 .add)) := ⟨rfl, fun _ => rfl⟩
  have hload : ∀ ma, GoesOn inst (.i32Load ma) := fun ma => ⟨rfl, fun _ => rfl⟩
  cases h with
  | lgConstAddSet i c t | lgConstAddTee i c t =>
    apply Calm.cons (hget i) (quiet_localGet i)
    apply Calm.cons (hconst c) (quiet_i32Const c)
    exact .cons hadd quiet_add (.last ⟨rfl, fun _ => rfl⟩)
  | lgConstAdd i c =>
    apply Calm.cons (hget i) (quiet_localGet i)
    exact .cons (hconst c) (quiet_i32Const c) (.last hadd)
  | lgLgStore i j ma =>
    apply Calm.cons (hget i) (quiet_localGet i)
    exact .cons (hget j) (quiet_localGet j) (.last ⟨rfl, fun _ => rfl⟩)
  | lgLoadTee i ma t =>
    apply Calm.cons (hget i) (quiet_localGet i)
    exact .cons (hload ma) (quiet_i32Load ma) (.last ⟨rfl, fun _ => rfl⟩)
  | lgLoad i ma => exact .cons (hget i) (quiet_localGet i) (.last (hload ma))
  | lgLg i j => exact .cons (hget i) (quiet_localGet i) (.last (hget j))
  | lgConst i c => exact .cons (hget i) (quiet_localGet i) (.last (hconst c))

theorem Fuses.goesOn {pre : Code L} {s : Instr L} (h : Fuses pre s) : GoesOn inst s := by
  cases h <;> exact ⟨rfl, fun _ => rfl⟩

theorem stackStep_goesOn (outside : Outside L) {i : Instr L} {r : Code L} {c : Config L}
    (hi : GoesOn inst i) (hcode : c.code = i :: r) :
    stackStep inst outside c =
      closed inst outside
        (perform inst { c with code := r } (.ofStraight c.st (straight inst i c.st))) := by
  rw [stackStep_cons hcode, runInstr_leaf hi.1, ← hi.2 c.st]

theorem Calm.advances {pre : Code L} (h : Calm inst pre) {r : Code L} {c : Config L} {st : St L}
    (hcode : c.code = pre ++ r) (hall : straightAll inst pre c.st = .ok st) :
    Advances (stackStep inst outside) Config.log c { c with code := r, st } := by
  induction h generalizing c with
  | last hi =>
    rw [straightAll_one] at hall
    have hstep := stackStep_goesOn outside hi hcode
    rw [hall] at hstep
    exact .last hstep
  | @cons i rest hi hquiet hr ih =>
    have hstep := stackStep_goesOn (r := rest ++ r) outside hi hcode
    cases hst : straight inst i c.st with
    | error o =>
      rw [straightAll, hst] at hall
      cases hall
    | ok st' =>
      rw [straightAll, hst] at hall
      rw [hst] at hstep
      have hrest := ih (c := { c with code := rest ++ r, st := st' }) rfl hall
      exact .more hstep rfl hrest

theorem Calm.finishes {pre : Code L} (h : Calm inst pre) {r : Code L} {c : Config L}
    {o : Outcome L} (hcode : c.code = pre ++ r) (hall : straightAll inst pre c.st = .error o) :
    Finishes (stackStep inst outside) Config.log c (c.answer o) := by
  induction h generalizing c with
  | last hi =>
    rw [straightAll_one] at hall
    have hstep := stackStep_goesOn outside hi hcode
    rw [hall] at hstep
    exact .last hstep
  | @cons i rest hi hquiet hr ih =>
    have hstep := stackStep_goesOn (r := rest ++ r) outside hi hcode
    cases hst : straight inst i c.st with
    | error o' =>
      rw [straightAll, hst] at hall
      cases hall
      rw [hst] at hstep
      exact .last hstep
    | ok st' =>
      rw [straightAll, hst] at hall
      rw [hst] at hstep
      have hrest := ih (c := { c with code := rest ++ r, st := st' }) rfl hall
      have hanswer : Config.answer { c with code := rest ++ r, st := st' } o = c.answer o := by
        obtain ⟨hmu, hfuel⟩ := hquiet hst
        show Answer.mk o st'.mu st'.fuel c.log = _
        rw [hmu, hfuel]
        rfl
      rw [hanswer] at hrest
      exact .more hstep rfl hrest

/-! ## In step -/

/-- What a step of a fused configuration is of the same unfused. -/
def Unfolds (inst : Inst L) (outside : Outside L) (t : Config L) : Config L ⊕ Answer L → Prop
  | .inl s' => ∃ t', s' = t'.lowered ∧ Advances (stackStep inst outside) Config.log t t'
  | .inr a => Finishes (stackStep inst outside) Config.log t a

theorem Unfolds.of_lowers {t : Config L} {x : Config L ⊕ Answer L}
    (h : Lowers x (stackStep inst outside t)) : Unfolds inst outside t x := by
  subst h
  cases hstep : stackStep inst outside t with
  | inl t' => exact ⟨t', rfl, .last hstep⟩
  | inr a => exact .last hstep

theorem Unfolds.more {t mid : Config L} {x : Config L ⊕ Answer L}
    (h : stackStep inst outside t = .inl mid) (hlog : mid.log = t.log) (hmid : Unfolds inst outside mid x) :
    Unfolds inst outside t x := by
  cases x with
  | inl s' =>
    obtain ⟨t', rfl, hadvance⟩ := hmid
    exact ⟨t', rfl, .more h hlog hadvance⟩
  | inr a => exact Finishes.more h hlog hmid

theorem isZero_ofBool (b : Bool) : (Value.ofBool b : Value L).isZero = !b := by
  cases b <;> rfl

theorem unfolds (inst : Inst L) (outside : Outside L) (t : Config L) :
    Unfolds inst outside t (stackStep inst.lowered outside t.lowered) := by
  have hbegins := lower_begins t.code
  generalize hcode : t.code = code at hbegins
  generalize hlower : lower code = code' at hbegins
  have hlowered : t.lowered.code = code' := by
    rw [← hlower, ← hcode]
    rfl
  rw [stackStep, stackClause, hlowered]
  cases hbegins with
  | nil =>
    apply Unfolds.of_lowers
    rw [stackStep, stackClause, hcode]
    exact closed_lowered (inside_lowered (finish_lowered t))
  | one i r =>
    apply Unfolds.of_lowers
    rw [stackStep_cons hcode]
    exact closed_lowered (runInstr_lowered i { t with code := r })
  | @fused pre s h r =>
    have hgoes : GoesOn inst.lowered s := h.goesOn
    show Unfolds inst outside t
      (closed _ _ (runInstr inst.lowered s { t.lowered with code := lower r }))
    rw [runInstr_leaf hgoes.1, hgoes.2, straight_lowered, h.straight_eq]
    show Unfolds inst outside t (closed _ _ (perform inst.lowered
      { t.lowered with code := lower r } (.ofStraight t.st (straightAll inst pre t.st))))
    cases hall : straightAll inst pre t.st with
    | ok st => exact ⟨{ t with code := r, st }, rfl, h.calm.advances hcode hall⟩
    | error o => exact h.calm.finishes hcode hall
  | eqzBrIf n r =>
    have heqz : GoesOn inst (.num (.eqz .w32)) := ⟨rfl, fun _ => rfl⟩
    have hstep := stackStep_goesOn outside heqz hcode
    obtain ⟨code, ctrl, ⟨stack, locals, mu, fuel, depth⟩, frames, log⟩ := t
    cases stack with
    | nil => exact Finishes.last hstep
    | cons v s =>
      apply Unfolds.more hstep rfl
      apply Unfolds.of_lowers
      apply closed_lowered
      show LowersOut _ (perform inst ⟨r, ctrl, ⟨s, locals, mu, fuel, depth⟩, frames, log⟩
        (brIf n (!(Value.ofBool v.isZero : Value L).isZero) ⟨s, locals, mu, fuel, depth⟩))
      rw [isZero_ofBool, Bool.not_not]
      exact perform_lowered ⟨r, ctrl, ⟨s, locals, mu, fuel, depth⟩, frames, log⟩
        (brIf n v.isZero ⟨s, locals, mu, fuel, depth⟩)

/-- Fused code follows the same code unfused. -/
theorem fused_follows (inst : Inst L) (outside : Outside L) :
    Follows (stackStep inst.lowered outside) (stackStep inst outside) Config.log Config.log
      (fun s t => s = t.lowered) (fun _ => 0) where
  observed := by
    rintro s t rfl
    rfl
  answer := by
    rintro s t a rfl h
    have hunfolds := unfolds inst outside t
    rw [h] at hunfolds
    exact hunfolds
  next := by
    rintro s t s' rfl h
    have hunfolds := unfolds inst outside t
    rw [h] at hunfolds
    exact .inr hunfolds

/-- From any configuration, the interpreter with its operand cache on fused code and the one that
keeps every operand on the stack on the same code unfused give the same answer, with the same store
and fuel, or none; and are seen in the same states at every entry, exit, branch, call and throw. -/
theorem fused_cached_agrees (inst : Inst L) (outside : Outside L) (t : Config L) :
    (∀ a, Answers (cachedStep inst.lowered outside) (run t.lowered) a ↔
        Answers (stackStep inst outside) t a) ∧
      ∀ log, (∃ s, Leads (cachedStep inst.lowered outside) (run t.lowered) s ∧ s.log = log) ↔
        ∃ u, Leads (stackStep inst outside) t u ∧ u.log = log := by
  have hcached := cached_follows inst.lowered outside
  have hfused := fused_follows inst outside
  constructor
  · intro a
    exact (hcached.answers_iff rfl).trans (hfused.answers_iff rfl)
  · intro log
    exact (hcached.comes_iff rfl).trans (hfused.comes_iff rfl)

end ErlangWasm.Exec
