import ErlangWasm.Exec.Nest

/-!
# What one clause of the interpreter can do

Said once, for the parts of a configuration that decide where control goes and what it costs: the
code, the control frames, the callers, the depth and the fuel.
-/

namespace ErlangWasm.Exec

variable {L : Lang} {inst : Inst L} {e : Exn L}

/-! ## Outcomes and fuel -/

/-- A trap, or running out. -/
def Outcome.aborts : Outcome L → Bool
  | .returned _ => false
  | .uncaught _ => false
  | _ => true

@[simp] theorem Outcome.failed_aborts (x : Option L.Reason) : (Outcome.failed x).aborts = true := by
  cases x <;> rfl

/-- `n` units charged, or there is no meter. -/
def Spends (n : ℕ) : Option ℕ → Option ℕ → Prop
  | none, after => after = none
  | some f, after => n < f ∧ after = some (f - n)

theorem charge_eq_some {n : ℕ} {st st' : St L} (h : charge n st = some st') :
    Spends n st.fuel st'.fuel ∧ st'.depth = st.depth := by
  unfold charge at h
  cases hf : st.fuel with
  | none =>
    rw [hf] at h
    cases h
    exact ⟨hf, rfl⟩
  | some f =>
    simp only [hf] at h
    split at h <;> cases h
    rename_i hlt
    exact ⟨⟨hlt, rfl⟩, rfl⟩

/-! ## The instructions without a body inside -/

/-- The state an effect goes on with, the units it costs, and how it stops. -/
def Effect.Costs (st : St L) : Effect L → Prop
  | .next st' => st'.fuel = st.fuel ∧ st'.depth = st.depth
  | .branch _ st' => st'.fuel = st.fuel ∧ st'.depth = st.depth
  | .leave st' => st'.fuel = st.fuel ∧ st'.depth = st.depth
  | .throw _ st' => st'.fuel = st.fuel ∧ st'.depth = st.depth
  | .call _ st' => Spends 10 st.fuel st'.fuel ∧ st'.depth = st.depth
  | .returnCall _ st' => Spends 10 st.fuel st'.fuel ∧ st'.depth = st.depth
  | .foreignCall _ _ st' => Spends 10 st.fuel st'.fuel ∧ st'.depth = st.depth
  | .foreignReturnCall _ _ st' => Spends 10 st.fuel st'.fuel ∧ st'.depth = st.depth
  | .stop o _ fuel => o.aborts = true ∧ (fuel = st.fuel ∨ Spends 10 st.fuel fuel)

/-- What the program supplies fails by aborting, and its clauses charge for what they call. -/
structure Inst.Sound (inst : Inst L) : Prop where
  load : ∀ w m a o, inst.load w m a = .error o → o.aborts = true
  storeR : ∀ w m a v o, inst.storeR w m a v = .error o → o.aborts = true
  other : ∀ op st, (inst.other op st).Costs st

/-- A failure aborts, and what goes on has the fuel and the depth it had. -/
def Straight (st : St L) : Except (Outcome L) (St L) → Prop
  | .ok st' => st'.fuel = st.fuel ∧ st'.depth = st.depth
  | .error o => o.aborts = true

/-- A failure aborts. -/
def Fails {α : Type} : Except (Outcome L) α → Prop
  | .ok _ => True
  | .error o => o.aborts = true

theorem Fails.bind {α β : Type} {x : Except (Outcome L) α} {k : α → Except (Outcome L) β}
    (hx : Fails x) (hk : ∀ a, Fails (k a)) : Fails (x >>= k) := by
  cases x with
  | ok a => exact hk a
  | error o => exact hx

theorem Fails.andThen {α : Type} {st : St L} {x : Except (Outcome L) α}
    {k : α → Except (Outcome L) (St L)} (hx : Fails x) (hk : ∀ a, Straight st (k a)) :
    Straight st (x >>= k) := by
  cases x with
  | ok a => exact hk a
  | error o => exact hx

theorem element_fails {α : Type} (i : ℕ) (xs : List α) : Fails (element (L := L) i xs) := by
  cases i with
  | zero => rfl
  | succ i =>
    rw [element]
    split
    · trivial
    · rfl

theorem setelement_fails {α : Type} (i : ℕ) (xs : List α) (x : α) :
    Fails (setelement (L := L) i xs x) := by
  cases i with
  | zero => rfl
  | succ i =>
    rw [setelement]
    split
    · trivial
    · rfl

theorem number_fails (v : Value L) : Fails v.number := by
  cases v <;> trivial

theorem binopOf_fails (w : Width) (op : BinOp) (a b : Value L) : Fails (binopOf w op a b) :=
  (number_fails a).bind fun _ => (number_fails b).bind fun _ => trivial

theorem op2_fails (op : NumOp) (a b : Value L) : Fails (op2 inst op a b) := by
  cases op with
  | bin w op => exact binopOf_fails w op a b
  | rel w op => trivial
  | eqz w => rfl

theorem address_fails (base : Value L) (offset : ℕ) : Fails (address base offset) :=
  (number_fails base).bind fun _ => trivial

theorem loadAt_fails (h : inst.Sound) (mu : Mut L) (ma : MemArg) (base : Value L) :
    Fails (loadAt inst mu ma base) := by
  refine (element_fails _ _).bind fun mem => ?_
  refine (address_fails _ _).bind fun addr => ?_
  have hload : Fails (inst.load mu.world mem addr) := by
    cases hx : inst.load mu.world mem addr with
    | ok v => trivial
    | error o => exact h.load _ _ _ _ hx
  exact hload.bind fun _ => trivial

theorem storeAt_fails (h : inst.Sound) (mu : Mut L) (ma : MemArg) (base value : Value L) :
    Fails (storeAt inst mu ma base value) := by
  refine (element_fails _ _).bind fun mem => ?_
  refine (address_fails _ _).bind fun addr => ?_
  have hstore : Fails (inst.storeR mu.world mem addr value) := by
    cases hx : inst.storeR mu.world mem addr value with
    | ok v => trivial
    | error o => exact h.storeR _ _ _ _ _ hx
  refine hstore.bind fun x => ?_
  obtain ⟨world, mem1⟩ := x
  cases mem1 with
  | none => trivial
  | some mem1 => exact (setelement_fails _ _ _).bind fun _ => trivial

/-- A value off the stack, and nothing else changed. -/
theorem Straight.pop {st : St L} {k : Value L × St L → Except (Outcome L) (St L)}
    (hk : ∀ v s, Straight st (k (v, { st with stack := s }))) : Straight st (st.pop >>= k) := by
  unfold St.pop
  cases st.stack with
  | nil => rfl
  | cons v s => exact hk v s

theorem numeric_straight (op : NumOp) (st : St L) : Straight st (numeric inst op st) := by
  cases op with
  | eqz w =>
    apply Straight.pop
    intro a s
    exact ⟨rfl, rfl⟩
  | bin w op | rel w op =>
    apply Straight.pop
    intro b s
    apply @Straight.pop L { st with stack := s }
    intro a s
    exact (op2_fails _ a b).andThen fun _ => ⟨rfl, rfl⟩

theorem straight_straight (h : inst.Sound) (i : Instr L) (st : St L) :
    Straight st (straight inst i st) := by
  cases i with
  | localGet i => exact (element_fails _ _).andThen fun _ => ⟨rfl, rfl⟩
  | localSet i | localTee i =>
    apply Straight.pop
    intro v s
    exact (setelement_fails _ _ _).andThen fun _ => ⟨rfl, rfl⟩
  | i32Const v | i64Const v => exact ⟨rfl, rfl⟩
  | globalGet i => exact (element_fails _ _).andThen fun _ => ⟨rfl, rfl⟩
  | i32Load ma =>
    apply Straight.pop
    intro base s
    exact (loadAt_fails h _ _ _).andThen fun _ => ⟨rfl, rfl⟩
  | i32Store ma =>
    apply Straight.pop
    intro value s
    apply @Straight.pop L { st with stack := s }
    intro base s
    exact (storeAt_fails h _ _ _ _).andThen fun _ => ⟨rfl, rfl⟩
  | num op => exact numeric_straight op st
  | lgLg i j => exact (element_fails _ _).andThen fun _ => (element_fails _ _).andThen fun _ => ⟨rfl, rfl⟩
  | lgConst i c => exact (element_fails _ _).andThen fun _ => ⟨rfl, rfl⟩
  | lgConstAdd i c =>
    exact (element_fails _ _).andThen fun _ => (binopOf_fails _ _ _ _).andThen fun _ => ⟨rfl, rfl⟩
  | lgLoad i ma =>
    exact (element_fails _ _).andThen fun _ => (loadAt_fails h _ _ _).andThen fun _ => ⟨rfl, rfl⟩
  | lgConstAddSet i c t | lgConstAddTee i c t =>
    exact (element_fails _ _).andThen fun _ => (binopOf_fails _ _ _ _).andThen fun _ =>
      (setelement_fails _ _ _).andThen fun _ => ⟨rfl, rfl⟩
  | lgLgStore i j ma =>
    exact (element_fails _ _).andThen fun _ => (element_fails _ _).andThen fun _ =>
      (storeAt_fails h _ _ _ _).andThen fun _ => ⟨rfl, rfl⟩
  | lgLoadTee i ma t =>
    exact (element_fails _ _).andThen fun _ => (loadAt_fails h _ _ _).andThen fun _ =>
      (setelement_fails _ _ _).andThen fun _ => ⟨rfl, rfl⟩
  | block npar nres body | loop npar nres body | tryTable npar nres catches body
  | if_ npar nres then_ else_ | br n | brIf n | brTable labels default | return_ | call f
  | returnCall f | throw tag | throwRef | other op | eqzBrIf n => rfl

/-! ## Effects -/

theorem Costs.stop {st : St L} {o : Outcome L} (h : o.aborts = true) : (st.stop o).Costs st :=
  ⟨h, .inl rfl⟩

/-- The state an effect is asked of may be told by its fuel and its depth. -/
theorem Effect.Costs.congr {st st' : St L} {x : Effect L} (h : x.Costs st')
    (hfuel : st'.fuel = st.fuel) (hdepth : st'.depth = st.depth) : x.Costs st := by
  cases x <;> simp only [Effect.Costs, hfuel, hdepth] at h ⊢ <;> exact h

theorem costs_charged {st : St L} {k : St L → Effect L}
    (hk : ∀ st', Spends 10 st.fuel st'.fuel → st'.depth = st.depth → (k st').Costs st) :
    (charged st k).Costs st := by
  unfold charged
  cases hc : charge 10 st with
  | none => exact Costs.stop rfl
  | some st' =>
    obtain ⟨hfuel, hdepth⟩ := charge_eq_some hc
    exact hk st' hfuel hdepth

theorem costs_brIf (n : ℕ) (taken : Bool) (st : St L) : (brIf n taken st).Costs st := by
  cases taken <;> exact ⟨rfl, rfl⟩

theorem costs_ofStraight {st : St L} {x : Except (Outcome L) (St L)} (h : Straight st x) :
    (Effect.ofStraight st x).Costs st := by
  cases x with
  | ok st' => exact h
  | error o => exact Costs.stop h

/-- With a value off the stack, or a crash. -/
theorem costs_pop {st : St L} {k : Value L → St L → Effect L}
    (hk : ∀ v s, (k v { st with stack := s }).Costs st) :
    (match st.pop with
      | .ok (v, st) => k v st
      | .error o => st.stop o).Costs st := by
  unfold St.pop
  cases st.stack with
  | nil => exact Costs.stop rfl
  | cons v s => exact hk v s

theorem exec_costs (h : inst.Sound) (i : Instr L) (st : St L) : (exec inst i st).Costs st := by
  cases i with
  | br n => exact ⟨rfl, rfl⟩
  | brIf n =>
    apply costs_pop (k := fun v st => brIf n (!v.isZero) st)
    intro v s
    exact (costs_brIf n _ { st with stack := s }).congr rfl rfl
  | eqzBrIf n =>
    apply costs_pop (k := fun v st => brIf n v.isZero st)
    intro v s
    exact (costs_brIf n _ { st with stack := s }).congr rfl rfl
  | brTable labels default =>
    apply costs_pop (k := fun v st => .branch (selectLabel v labels default) st)
    intro v s
    exact ⟨rfl, rfl⟩
  | return_ => exact ⟨rfl, rfl⟩
  | call f | returnCall f =>
    apply costs_charged
    intro st' hfuel hdepth
    exact ⟨hfuel, hdepth⟩
  | throw tag =>
    show (throwTag inst tag st).Costs st
    unfold throwTag
    split
    · exact Costs.stop rfl
    · exact ⟨rfl, rfl⟩
  | throwRef =>
    show (throwRef inst st).Costs st
    unfold throwRef
    split
    · exact Costs.stop rfl
    · exact ⟨rfl, rfl⟩
    · exact Costs.stop rfl
  | other op => exact h.other op st
  | i32Const v => exact costs_ofStraight (straight_straight h (.i32Const v) st)
  | i64Const v => exact costs_ofStraight (straight_straight h (.i64Const v) st)
  | block npar nres body =>
    exact costs_ofStraight (straight_straight h (.block npar nres body) st)
  | loop npar nres body =>
    exact costs_ofStraight (straight_straight h (.loop npar nres body) st)
  | tryTable npar nres catches body =>
    exact costs_ofStraight (straight_straight h (.tryTable npar nres catches body) st)
  | if_ npar nres then_ else_ =>
    exact costs_ofStraight (straight_straight h (.if_ npar nres then_ else_) st)
  | _ => exact costs_ofStraight (straight_straight h _ st)

theorem other_costs (i : Instance L) (op : L.Op) (st : St L) : (i.other op st).Costs st := by
  unfold Instance.other
  split
  · split
    · exact ⟨rfl, rfl⟩
    · exact Costs.stop (by simp)
  · rename_i n _
    unfold brOn
    split
    · exact (costs_brIf n _ _).congr rfl rfl
    · exact Costs.stop (by simp)
  · apply costs_pop (k := fun v st => charged st fun st => callTarget st (i.target op v st.mu))
    intro v s
    refine @Effect.Costs.congr L st { st with stack := s } _ ?_ rfl rfl
    apply costs_charged
    intro st' hfuel hdepth
    unfold callTarget
    split
    · exact ⟨hfuel, hdepth⟩
    · exact ⟨hfuel, hdepth⟩
    · exact ⟨by simp, .inr hfuel⟩
  · apply costs_pop (k := fun v st => charged st fun st => returnCallTarget st (i.target op v st.mu))
    intro v s
    refine @Effect.Costs.congr L st { st with stack := s } _ ?_ rfl rfl
    apply costs_charged
    intro st' hfuel hdepth
    unfold returnCallTarget
    split
    · exact ⟨hfuel, hdepth⟩
    · exact ⟨hfuel, hdepth⟩
    · exact ⟨by simp, .inr hfuel⟩

theorem Program.inst_sound (p : Program L) (b : Budget) (inv : Invoked L) :
    (p.inst b inv).Sound := by
  constructor
  · intro w m a o ho
    cases hx : (p inv.ref).load w m a with
    | ok v => simp [Program.inst, hx, Except.mapError] at ho
    | error x =>
      simp only [Program.inst, hx, Except.mapError, Except.error.injEq] at ho
      rw [← ho, Outcome.failed_aborts]
  · intro w m a v o ho
    cases hx : (p inv.ref).storeR w m a v with
    | ok v => simp [Program.inst, hx, Except.mapError] at ho
    | error x =>
      simp only [Program.inst, hx, Except.mapError, Except.error.injEq] at ho
      rw [← ho, Outcome.failed_aborts]
  · exact other_costs (p inv.ref)

/-! ## Handlers -/

/-- The frames outside the `try_table` that takes the exception, by the first clause that does. -/
def takenBy (inst : Inst L) (e : Exn L) :
    List (Ctrl L) → Option (ℕ × List (Value L) × List (Ctrl L))
  | [] => none
  | .tryTable _ _ _ catches :: outer =>
      match catches.findSome? (Catch.takes inst e) with
      | some (label, values) => some (label, values, outer)
      | none => takenBy inst e outer
  | _ :: outer => takenBy inst e outer

theorem matchCatch_eq (catches : List Catch) :
    matchCatch inst e catches = catches.findSome? (Catch.takes inst e) := by
  induction catches with
  | nil => rfl
  | cons clause rest ih =>
    rw [matchCatch, List.findSome?_cons, ih]
    cases clause.takes inst e <;> rfl

theorem findHandler_eq (ctrl : List (Ctrl L)) :
    findHandler inst e ctrl =
      match takenBy inst e ctrl with
      | none => .ok none
      | some (label, values, outer) => do return some (← handlerTarget label outer values) := by
  fun_induction takenBy inst e ctrl with
  | case1 => rfl
  | case2 cont arity saved catches outer label values hfound =>
    rw [findHandler, matchCatch_eq, hfound]
  | case3 cont arity saved catches outer hnone ih =>
    rw [findHandler, matchCatch_eq, hnone]
    exact ih
  | case4 frame outer hframe ih =>
    cases frame with
    | tryTable cont arity saved catches => exact absurd rfl (hframe cont arity saved catches)
    | block cont arity saved | loop cont npar body saved | func nres => exact ih

/-- What is after a frame a branch leaves forwards. -/
def Ctrl.forward : Ctrl L → Option (Code L)
  | .block cont _ _ => some cont
  | .tryTable cont _ _ _ => some cont
  | _ => none

/-- What is after a frame. -/
def Ctrl.cont : Ctrl L → Option (Code L)
  | .block cont _ _ => some cont
  | .tryTable cont _ _ _ => some cont
  | .loop cont _ _ _ => some cont
  | .func _ => none

/-- The code and the frames of the frame at a label: after it, or again at the head of a loop. -/
inductive Reaches (ctrl : List (Ctrl L)) (label : ℕ) : Code L → List (Ctrl L) → Prop
  | forward {frame : Ctrl L} {cont : Code L} (hn : ctrl[label]? = some frame)
      (hcont : frame.forward = some cont) : Reaches ctrl label cont (ctrl.drop (label + 1))
  | loop {cont body : Code L} {npar : ℕ} {saved : List (Value L)}
      (hn : ctrl[label]? = some (.loop cont npar body saved)) :
      Reaches ctrl label body (ctrl.drop label)

theorem drop_of_getElem? {α : Type} {xs : List α} {n : ℕ} {x : α} (h : xs[n]? = some x) :
    xs.drop n = x :: xs.drop (n + 1) := by
  rw [List.drop_eq_getElem?_toList_append, h]
  rfl

theorem handlerTarget_reaches {label : ℕ} {ctrl : List (Ctrl L)} {values : List (Value L)}
    {landing : Landing L} (h : handlerTarget label ctrl values = .ok landing) :
    Reaches ctrl label landing.code landing.ctrl := by
  unfold handlerTarget at h
  cases hn : ctrl[label]? with
  | none => simp [hn] at h
  | some frame =>
    cases frame with
    | block cont arity saved | tryTable cont arity saved catches =>
      simp only [hn, Except.ok.injEq] at h
      subst h
      exact .forward hn rfl
    | loop cont npar body saved =>
      simp only [hn, Except.ok.injEq] at h
      subst h
      show Reaches ctrl label body (.loop cont npar body saved :: ctrl.drop (label + 1))
      rw [← drop_of_getElem? hn]
      exact .loop hn
    | func nres => simp [hn] at h

theorem handlerTarget_error {label : ℕ} {ctrl : List (Ctrl L)} {values : List (Value L)}
    {o : Outcome L} (h : handlerTarget label ctrl values = .error o) : o = .crash := by
  unfold handlerTarget at h
  cases hn : ctrl[label]? with
  | none => simpa [hn, eq_comm] using h
  | some frame => cases frame <;> simp_all

/-- An exception is taken, here or by a caller. -/
inductive Caught (inst : Inst L) (e : Exn L) (c' : Config L) :
    List (CallFrame L) → List (Ctrl L) → ℕ → Prop
  | here {ctrl outer : List (Ctrl L)} {label : ℕ} {values : List (Value L)}
      (htaken : takenBy inst e ctrl = some (label, values, outer))
      (hreaches : Reaches outer label c'.code c'.ctrl) :
      Caught inst e c' c'.frames ctrl c'.st.depth
  | caller {ctrl ctrl' : List (Ctrl L)} {cont : Code L} {locals stack : List (Value L)}
      {frames : List (CallFrame L)} {depth : ℕ} (hnone : takenBy inst e ctrl = none)
      (hcaller : Caught inst e c' frames ctrl' (depth - 1)) :
      Caught inst e c' (.caller cont ctrl' locals stack :: frames) ctrl depth

/-- What becomes of an exception in one invocation; no fuel is charged for it. -/
inductive Throws (inst : Inst L) (e : Exn L) (frames : List (CallFrame L))
    (ctrl : List (Ctrl L)) (fuel : Option ℕ) (depth : ℕ) : Config L ⊕ Answer L → Prop
  | caught {c' : Config L} (h : Caught inst e c' frames ctrl depth) (hfuel : c'.st.fuel = fuel) :
      Throws inst e frames ctrl fuel depth (.inl c')
  | uncaught {a : Answer L} (h : a.outcome = .uncaught e) (hfuel : a.fuel = fuel) :
      Throws inst e frames ctrl fuel depth (.inr a)
  | crash {a : Answer L} (h : a.outcome = .crash) (hfuel : a.fuel = fuel) :
      Throws inst e frames ctrl fuel depth (.inr a)

theorem throws_of_taken {ctrl outer : List (Ctrl L)} {label : ℕ} {values : List (Value L)}
    (h : takenBy inst e ctrl = some (label, values, outer)) (log : List (Mark × St L))
    (frames : List (CallFrame L)) (st : St L) :
    Throws inst e frames ctrl st.fuel st.depth (throwExn inst e log frames ctrl st) := by
  unfold throwExn
  cases htarget : handlerTarget label outer values with
  | error o =>
    cases handlerTarget_error htarget
    have hfound : findHandler inst e ctrl = .error .crash := by
      rw [findHandler_eq, h]
      simp only [htarget]
      rfl
    rw [hfound]
    exact .crash rfl rfl
  | ok landing =>
    have hfound : findHandler inst e ctrl = .ok (some landing) := by
      rw [findHandler_eq, h]
      simp only [htarget]
      rfl
    rw [hfound]
    exact .caught (.here h (handlerTarget_reaches htarget)) rfl

theorem throwExn_throws (log : List (Mark × St L)) (frames : List (CallFrame L))
    (ctrl : List (Ctrl L)) (st : St L) :
    Throws inst e frames ctrl st.fuel st.depth (throwExn inst e log frames ctrl st) := by
  induction frames generalizing ctrl st with
  | nil =>
    cases htaken : takenBy inst e ctrl with
    | some found => exact throws_of_taken htaken log [] st
    | none =>
      unfold throwExn
      rw [findHandler_eq, htaken]
      exact .uncaught rfl rfl
  | cons frame rest ih =>
    cases htaken : takenBy inst e ctrl with
    | some found => exact throws_of_taken htaken log (frame :: rest) st
    | none =>
      unfold throwExn
      rw [findHandler_eq, htaken]
      cases frame with
      | toplevel =>
        cases rest with
        | nil => exact .uncaught rfl rfl
        | cons second rest => exact .crash rfl rfl
      | caller cont ctrl' locals stack =>
        -- the search goes on in the caller, which is one level less deep
        have hrest := ih ctrl' { st with stack, locals, depth := st.depth - 1 }
        show Throws inst e _ ctrl st.fuel st.depth
          (throwExn inst e log rest ctrl' { st with stack, locals, depth := st.depth - 1 })
        cases hthrown : throwExn inst e log rest ctrl'
            { st with stack, locals, depth := st.depth - 1 } with
        | inl c' =>
          rw [hthrown] at hrest
          obtain ⟨hcaught, hfuel⟩ := hrest
          exact .caught (.caller htaken hcaught) hfuel
        | inr a =>
          rw [hthrown] at hrest
          cases hrest with
          | uncaught h hfuel => exact .uncaught h hfuel
          | crash h hfuel => exact .crash h hfuel

/-! ## One clause -/

/-- The callers, the fuel and the depth stay as they are. -/
structure Kept (c c' : Config L) : Prop where
  frames : c'.frames = c.frames
  fuel : c'.st.fuel = c.st.fuel
  depth : c'.st.depth = c.st.depth

/-- The frame an instruction with a body inside opens, and the body. -/
inductive Opens (rest : Code L) : Instr L → Ctrl L → Code L → Prop
  | block (npar nres : ℕ) (body : Code L) (saved : List (Value L)) :
      Opens rest (.block npar nres body) (.block rest nres saved) body
  | loop (npar nres : ℕ) (body : Code L) (saved : List (Value L)) :
      Opens rest (.loop npar nres body) (.loop rest npar body saved) body
  | tryTable (npar nres : ℕ) (catches : List Catch) (body : Code L) (saved : List (Value L)) :
      Opens rest (.tryTable npar nres catches body) (.tryTable rest nres saved catches) body
  | then_ (npar nres : ℕ) (yes no : Code L) (saved : List (Value L)) :
      Opens rest (.if_ npar nres yes no) (.block rest nres saved) yes
  | else_ (npar nres : ℕ) (yes no : Code L) (saved : List (Value L)) :
      Opens rest (.if_ npar nres yes no) (.block rest nres saved) no

/-- A body of one of the instance's functions. -/
def Inst.Body (inst : Inst L) (nres : ℕ) (body : Code L) : Prop :=
  ∃ (f nparams : ℕ) (defaults : List (Value L)),
    inst.funcs[f]? = some (.wasm nparams defaults nres body)

/-- Back in the caller. -/
structure Left (c c' : Config L) : Prop where
  frames : ∃ locals stack, c.frames = .caller c'.code c'.ctrl locals stack :: c'.frames
  fuel : c'.st.fuel = c.st.fuel
  depth : c'.st.depth = c.st.depth - 1

/-- Into a function, with `c` to go back to. -/
structure Entered (inst : Inst L) (c c' : Config L) : Prop where
  body : ∃ nres, c'.ctrl = [.func nres] ∧ inst.Body nres c'.code
  frames : ∃ locals stack, c'.frames = .caller c.code c.ctrl locals stack :: c.frames
  depth : c'.st.depth = c.st.depth + 1
  room : c.st.depth < inst.maxDepth

/-- One clause of the interpreter, where it goes on. -/
inductive Goes (inst : Inst L) (c : Config L) : Config L → Prop
  | next {i : Instr L} {c' : Config L} (hcode : c.code = i :: c'.code) (hctrl : c'.ctrl = c.ctrl)
      (h : Kept c c') : Goes inst c c'
  | body {i : Instr L} {rest : Code L} {frame : Ctrl L} {c' : Config L} (hcode : c.code = i :: rest)
      (hopens : Opens rest i frame c'.code) (hctrl : c'.ctrl = frame :: c.ctrl) (h : Kept c c') :
      Goes inst c c'
  | finish {frame : Ctrl L} {c' : Config L} (hcode : c.code = [])
      (hctrl : c.ctrl = frame :: c'.ctrl) (hcont : frame.cont = some c'.code) (h : Kept c c') :
      Goes inst c c'
  | branch {i : Instr L} {rest : Code L} {n : ℕ} {frame : Ctrl L} {c' : Config L}
      (hcode : c.code = i :: rest) (hn : c.ctrl[n]? = some frame)
      (hcont : frame.forward = some c'.code) (hctrl : c'.ctrl = c.ctrl.drop (n + 1))
      (h : Kept c c') : Goes inst c c'
  | loop {i : Instr L} {rest cont : Code L} {n npar : ℕ} {saved : List (Value L)} {c' : Config L}
      (hcode : c.code = i :: rest) (hn : c.ctrl[n]? = some (.loop cont npar c'.code saved))
      (hctrl : c'.ctrl = c.ctrl.drop n) (hframes : c'.frames = c.frames)
      (hfuel : Spends 1 c.st.fuel c'.st.fuel) (hdepth : c'.st.depth = c.st.depth) : Goes inst c c'
  | leave {c' : Config L} (h : Left c c') : Goes inst c c'
  | enter {i : Instr L} {c' at_ : Config L} (hcode : c.code = i :: at_.code)
      (hctrl : at_.ctrl = c.ctrl) (hframes : at_.frames = c.frames)
      (hdepth : at_.st.depth = c.st.depth) (h : Entered inst at_ c')
      (hfuel : Spends 10 c.st.fuel c'.st.fuel) : Goes inst c c'
  | tail {i : Instr L} {rest : Code L} {nres : ℕ} {c' : Config L} (hcode : c.code = i :: rest)
      (hctrl : c'.ctrl = [.func nres]) (hbody : inst.Body nres c'.code)
      (hframes : c'.frames = c.frames) (hfuel : Spends 10 c.st.fuel c'.st.fuel)
      (hdepth : c'.st.depth = c.st.depth) : Goes inst c c'
  | caught {i : Instr L} {rest : Code L} {e : Exn L} {st : St L} {c' : Config L}
      (hcode : c.code = i :: rest) (hthrow : exec inst i c.st = .throw e st)
      (h : Caught inst e c' c.frames c.ctrl c.st.depth) (hfuel : c'.st.fuel = c.st.fuel) :
      Goes inst c c'

/-- One clause of the interpreter. -/
inductive Does (inst : Inst L) (c : Config L) : Config L ⊕ Exit L → Prop
  | goes {c' : Config L} (h : Goes inst c c') : Does inst c (.inl c')
  | returned {a : Answer L} {results : List (Value L)} (h : a.outcome = .returned results)
      (hfuel : a.fuel = c.st.fuel) : Does inst c (.inr (.answered a))
  | uncaught {a : Answer L} {i : Instr L} {rest : Code L} {e : Exn L} {st : St L}
      (hcode : c.code = i :: rest) (hthrow : exec inst i c.st = .throw e st)
      (h : a.outcome = .uncaught e) (hfuel : a.fuel = c.st.fuel) : Does inst c (.inr (.answered a))
  | aborted {a : Answer L} (h : a.outcome.aborts = true)
      (hfuel : a.fuel = c.st.fuel ∨ Spends 10 c.st.fuel a.fuel) : Does inst c (.inr (.answered a))
  | out {i : Instr L} {p : Pause L} (hcode : c.code = i :: p.config.code)
      (hctrl : p.config.ctrl = c.ctrl) (hframes : p.config.frames = c.frames)
      (hfuel : Spends 10 c.st.fuel p.config.st.fuel) (hdepth : p.config.st.depth = c.st.depth)
      (hcompiled : ∀ f, p.callee = .compiled f → inst.compiled = true ∧ c.st.depth < inst.maxDepth) :
      Does inst c (.inr (.out p))

/-- Leaving a function, to its caller or out of the invocation. -/
inductive Leaves (c : Config L) : Config L ⊕ Answer L → Prop
  | left {c' : Config L} (h : Left c c') : Leaves c (.inl c')
  | returned {a : Answer L} {results : List (Value L)} (h : a.outcome = .returned results)
      (hfuel : a.fuel = c.st.fuel) : Leaves c (.inr a)
  | crash {a : Answer L} (h : a.outcome = .crash) (hfuel : a.fuel = c.st.fuel) : Leaves c (.inr a)

theorem leave_leaves (nres : ℕ) (c : Config L) : Leaves c (leave nres c) := by
  obtain ⟨code, ctrl, st, frames, log⟩ := c
  match frames with
  | [] => exact .returned rfl rfl
  | [.toplevel] => exact .returned rfl rfl
  | .caller cont ctrl' locals stack :: rest => exact .left ⟨⟨locals, stack, rfl⟩, rfl, rfl⟩
  | .toplevel :: _ :: _ => exact .crash rfl rfl

theorem return_leaves (c : Config L) : Leaves c (return_ c) := by
  unfold return_
  split
  · exact leave_leaves _ c
  · exact .crash rfl rfl

theorem Leaves.does {c c₁ : Config L} {x : Config L ⊕ Answer L} (h : Leaves c₁ x)
    (hkept : Kept c c₁) : Does inst c (inside x) := by
  cases h with
  | left h =>
    refine .goes (.leave ⟨?_, h.fuel.trans hkept.fuel, ?_⟩)
    · rw [← hkept.frames]
      exact h.frames
    · show _ = c.st.depth - 1
      rw [← hkept.depth]
      exact h.depth
  | returned h hfuel => exact .returned h (hfuel.trans hkept.fuel)
  | crash h hfuel =>
    refine .aborted ?_ (.inl (hfuel.trans hkept.fuel))
    rw [h]
    rfl

theorem finish_does {c : Config L} (hcode : c.code = []) : Does inst c (inside (finish c)) := by
  obtain ⟨code, ctrl, st, frames, log⟩ := c
  match ctrl with
  | .block cont arity saved :: ctrl => exact .goes (.finish hcode rfl rfl ⟨rfl, rfl, rfl⟩)
  | .tryTable cont arity saved catches :: ctrl =>
    exact .goes (.finish hcode rfl rfl ⟨rfl, rfl, rfl⟩)
  | .loop cont npar body saved :: ctrl => exact .goes (.finish hcode rfl rfl ⟨rfl, rfl, rfl⟩)
  | [.func nres] => exact (leave_leaves nres _).does ⟨rfl, rfl, rfl⟩
  | [] => exact (leave_leaves 0 _).does ⟨rfl, rfl, rfl⟩
  | .func _ :: _ :: _ => exact .aborted rfl (.inl rfl)

section
variable {c c₁ : Config L} {i : Instr L} {rest : Code L}

theorem branch_does (hcode : c.code = i :: rest) (hctrl : c₁.ctrl = c.ctrl) (hkept : Kept c c₁)
    (n : ℕ) : Does inst c (inside (branch n c₁)) := by
  unfold branch
  rw [hctrl]
  cases hn : c.ctrl[n]? with
  | none => exact .aborted rfl (.inl hkept.fuel)
  | some frame =>
    cases frame with
    | block cont arity saved => exact .goes (.branch hcode hn rfl rfl ⟨hkept.1, hkept.2, hkept.3⟩)
    | tryTable cont arity saved catches =>
      exact .goes (.branch hcode hn rfl rfl ⟨hkept.1, hkept.2, hkept.3⟩)
    | func nres => exact (leave_leaves nres c₁).does hkept
    | loop cont npar body saved =>
      dsimp only
      cases hcharge : charge 1 c₁.st with
      | none => exact .aborted rfl (.inl hkept.fuel)
      | some st =>
        obtain ⟨hfuel, hdepth⟩ := charge_eq_some hcharge
        rw [hkept.fuel] at hfuel
        exact .goes (.loop hcode hn (drop_of_getElem? hn).symm hkept.frames hfuel
          (hdepth.trans hkept.depth))

/-- In a configuration that has paid for a call. -/
structure Paid (c c₁ : Config L) : Prop where
  ctrl : c₁.ctrl = c.ctrl
  frames : c₁.frames = c.frames
  fuel : Spends 10 c.st.fuel c₁.st.fuel
  depth : c₁.st.depth = c.st.depth

/-- A function's body entered, or no room for it. -/
theorem enter_entered {nres : ℕ} {body : Code L} (hbody : inst.Body nres body)
    (locals : List (Value L)) (c : Config L) :
    (∃ c', enter inst locals nres body c = .inl c' ∧ Entered inst c c' ∧
        c'.st.fuel = c.st.fuel) ∨
      enter inst locals nres body c = .inr (c.answer .stackExhausted) := by
  unfold enter
  split
  · exact .inr rfl
  · rename_i hroom
    exact .inl ⟨_, rfl, ⟨⟨nres, rfl, hbody⟩, ⟨_, _, rfl⟩, rfl, by omega⟩, rfl⟩

theorem callOut_does (hcode : c.code = i :: c₁.code) (h : Paid c c₁) {callee : Callee L}
    (hcallee : ∀ f, callee ≠ .compiled f) (nparams : ℕ) (way : Way) :
    Does inst c (callOut callee nparams way c₁) := by
  unfold callOut
  split
  · exact .aborted rfl (.inr h.fuel)
  · exact .out hcode h.ctrl h.frames h.fuel h.depth fun f hf => absurd hf (hcallee f)

theorem doCall_does (hcode : c.code = i :: c₁.code) (h : Paid c c₁) (f : ℕ) :
    Does inst c (doCall inst f c₁) := by
  unfold doCall
  cases hf : inst.funcs[f]? with
  | none => exact .aborted rfl (.inr h.fuel)
  | some fn =>
    cases fn with
    | host nparams linked => exact callOut_does hcode h (by simp) _ _
    | wasm nparams defaults nres body =>
      dsimp only
      cases split nparams c₁.st.stack with
      | none => exact .aborted rfl (.inr h.fuel)
      | some taken =>
        obtain ⟨revArgs, s⟩ := taken
        show Does inst c (if inst.compiled then if inst.maxDepth ≤ c₁.st.depth then _ else _ else _)
        split
        · rename_i hcompiled
          split
          · exact .aborted rfl (.inr h.fuel)
          · rename_i hroom
            rw [h.depth, Nat.not_le] at hroom
            exact .out hcode h.ctrl h.frames h.fuel h.depth fun _ _ => ⟨hcompiled, hroom⟩
        · rcases enter_entered ⟨f, nparams, defaults, hf⟩ (revArgs.reverse ++ defaults)
            (c₁.withStack s) with ⟨c', heq, hentered, hfuel⟩ | heq
          · rw [heq]
            have hspent : Spends 10 c.st.fuel c'.st.fuel := by
              rw [hfuel]
              exact h.fuel
            exact .goes (@Goes.enter _ _ _ _ _ (c₁.withStack s) hcode h.ctrl h.frames h.depth hentered
              hspent)
          · rw [heq]
            exact .aborted rfl (.inr h.fuel)

theorem doReturnCall_does (hcode : c.code = i :: c₁.code) (h : Paid c c₁) (f : ℕ) :
    Does inst c (doReturnCall inst f c₁) := by
  unfold doReturnCall
  cases hf : inst.funcs[f]? with
  | none => exact .aborted rfl (.inr h.fuel)
  | some fn =>
    cases fn with
    | host nparams linked => exact callOut_does hcode h (by simp) _ _
    | wasm nparams defaults nres body =>
      dsimp only
      cases split nparams c₁.st.stack with
      | none => exact .aborted rfl (.inr h.fuel)
      | some taken =>
        exact .goes (.tail hcode rfl ⟨f, nparams, defaults, hf⟩ h.frames h.fuel h.depth)

theorem perform_does (hinst : inst.Sound) (hcode : c.code = i :: rest) :
    Does inst c (perform inst { c with code := rest } (exec inst i c.st)) := by
  have hcosts := exec_costs hinst i c.st
  cases heffect : exec inst i c.st with
  | next st =>
    rw [heffect] at hcosts
    have hkept : Kept c { c with code := rest, st } := ⟨rfl, hcosts.1, hcosts.2⟩
    exact .goes (.next hcode rfl hkept)
  | branch n st =>
    rw [heffect] at hcosts
    apply branch_does hcode
    · rfl
    · exact ⟨rfl, hcosts.1, hcosts.2⟩
  | leave st =>
    rw [heffect] at hcosts
    exact (return_leaves _).does ⟨rfl, hcosts.1, hcosts.2⟩
  | call f st =>
    rw [heffect] at hcosts
    have hpaid : Paid c ({ c with code := rest, st }.mark (.call f)) :=
      ⟨rfl, rfl, hcosts.1, hcosts.2⟩
    exact doCall_does hcode hpaid f
  | returnCall f st =>
    rw [heffect] at hcosts
    have hpaid : Paid c ({ c with code := rest, st }.mark (.returnCall f)) :=
      ⟨rfl, rfl, hcosts.1, hcosts.2⟩
    exact doReturnCall_does hcode hpaid f
  | foreignCall ref f st =>
    rw [heffect] at hcosts
    have hpaid : Paid c ({ c with code := rest, st }.mark (.call f)) :=
      ⟨rfl, rfl, hcosts.1, hcosts.2⟩
    exact callOut_does hcode hpaid (by simp) _ _
  | foreignReturnCall ref f st =>
    rw [heffect] at hcosts
    have hpaid : Paid c ({ c with code := rest, st }.mark (.returnCall f)) :=
      ⟨rfl, rfl, hcosts.1, hcosts.2⟩
    exact callOut_does hcode hpaid (by simp) _ _
  | stop o mu fuel =>
    rw [heffect] at hcosts
    exact .aborted hcosts.1 hcosts.2
  | throw e st =>
    rw [heffect] at hcosts
    have hthrows : Throws inst e c.frames c.ctrl st.fuel st.depth
        (throwExn inst e ((.throw, st) :: c.log) c.frames c.ctrl st) := throwExn_throws _ _ _ _
    rw [hcosts.1, hcosts.2] at hthrows
    show Does inst c (inside (throwExn inst e ((.throw, st) :: c.log) c.frames c.ctrl st))
    cases hresult : throwExn inst e ((.throw, st) :: c.log) c.frames c.ctrl st with
    | inl c' =>
      rw [hresult] at hthrows
      obtain ⟨hcaught, hfuel⟩ := hthrows
      exact .goes (.caught hcode heffect hcaught hfuel)
    | inr a =>
      rw [hresult] at hthrows
      cases hthrows with
      | uncaught h hfuel => exact .uncaught hcode heffect h hfuel
      | crash h hfuel =>
        refine .aborted ?_ (.inl hfuel)
        rw [h]
        rfl

theorem enterBody_does (hcode : c.code = i :: rest) (hkept : Kept c c₁) (hctrl : c₁.ctrl = c.ctrl)
    (npar : ℕ) {frame : List (Value L) → Ctrl L} {body : Code L}
    (hopens : ∀ saved, Opens rest i (frame saved) body) :
    Does inst c (inside (enterBody npar frame body c₁)) := by
  unfold enterBody
  split
  · exact .aborted rfl (.inl hkept.fuel)
  · rename_i revArgs saved _
    refine .goes (.body hcode (hopens saved) ?_ ⟨hkept.1, hkept.2, hkept.3⟩)
    show frame saved :: c₁.ctrl = frame saved :: c.ctrl
    rw [hctrl]

theorem runInstr_does (hinst : inst.Sound) (hcode : c.code = i :: rest) :
    Does inst c (runInstr inst i { c with code := rest }) := by
  have hkept : Kept c { c with code := rest } := ⟨rfl, rfl, rfl⟩
  unfold runInstr
  split
  · exact enterBody_does hcode hkept rfl _ fun saved => .block ..
  · exact enterBody_does hcode hkept rfl _ fun saved => .loop ..
  · exact enterBody_does hcode hkept rfl _ fun saved => .tryTable ..
  · rename_i npar nres then_ else_
    unfold St.pop
    cases hstack : c.st.stack with
    | nil => exact .aborted rfl (.inl rfl)
    | cons v s =>
      simp only
      have hpopped : Kept c { c with code := rest, st := { c.st with stack := s } } :=
        ⟨rfl, rfl, rfl⟩
      apply enterBody_does hcode hpopped rfl
      intro saved
      split
      · exact .else_ ..
      · exact .then_ ..
  · exact perform_does hinst hcode

theorem stackClause_does (hinst : inst.Sound) (c : Config L) :
    Does inst c (stackClause inst c) := by
  unfold stackClause
  split
  · rename_i hcode
    exact finish_does hcode
  · rename_i i rest hcode
    exact runInstr_does hinst hcode

end

/-! ## Back from a call out -/

/-- A pause gone on with, or left at once by a tail call. -/
inductive Returns (c : Config L) (fuel : Option ℕ) : Config L ⊕ Answer L → Prop
  | on {c' : Config L} (hcode : c'.code = c.code) (hctrl : c'.ctrl = c.ctrl)
      (hframes : c'.frames = c.frames) (hfuel : c'.st.fuel = fuel)
      (hdepth : c'.st.depth = c.st.depth) : Returns c fuel (.inl c')
  | leaves {c₁ : Config L} {x : Config L ⊕ Answer L} (h : Leaves c₁ x)
      (hframes : c₁.frames = c.frames) (hfuel : c₁.st.fuel = fuel)
      (hdepth : c₁.st.depth = c.st.depth) : Returns c fuel x

theorem resume_returns (pause : Pause L) (results : List (Value L)) (mu : Mut L)
    (fuel : Option ℕ) :
    Returns pause.config fuel (resume inst pause (.returned results mu fuel)) := by
  obtain ⟨callee, args, way, c⟩ := pause
  cases way with
  | call => exact .on rfl rfl rfl rfl rfl
  | foreignReturnCall =>
    have hleaves := return_leaves
      { c with st := { c.st with stack := results.reverse ++ c.st.stack, mu, fuel } }
    exact .leaves hleaves rfl rfl rfl
  | hostReturnCall =>
    have hleaves := leave_leaves results.length
      { c with st := { c.st with stack := results.reverse, mu, fuel } }
    exact .leaves hleaves rfl rfl rfl

theorem resume_throws (pause : Pause L) (e : Exn L) (world : L.World) :
    Throws inst e pause.config.frames pause.config.ctrl pause.config.st.fuel
        pause.config.st.depth (resume inst pause (.threw e world)) ∨
      ∃ a, resume inst pause (.threw e world) = .inr a ∧ a.outcome = .uncaught e ∧
        a.fuel = pause.config.st.fuel := by
  obtain ⟨callee, args, way, c⟩ := pause
  cases way with
  | call => exact .inl (throwExn_throws _ _ _ { c.st with mu := { c.st.mu with world } })
  | foreignReturnCall =>
    exact .inl (throwExn_throws _ _ _ { c.st with mu := { c.st.mu with world } })
  | hostReturnCall => exact .inr ⟨_, rfl, rfl, rfl⟩

theorem resume_refused (pause : Pause L) :
    (∃ c', resume inst pause .refused = .inl c' ∧ Entered inst pause.config c' ∧
        c'.st.fuel = pause.config.st.fuel) ∨
      ∃ a, resume inst pause .refused = .inr a ∧ a.outcome.aborts = true ∧
        a.fuel = pause.config.st.fuel := by
  obtain ⟨callee, args, way, c⟩ := pause
  cases callee with
  | host f | foreign ref f => exact .inr ⟨_, rfl, rfl, rfl⟩
  | compiled f =>
    unfold resume
    dsimp only
    split
    · rename_i nparams defaults nres body hf
      rcases enter_entered ⟨f, nparams, defaults, hf⟩ (args ++ defaults) c with
        ⟨c', heq, hentered, hfuel⟩ | heq
      · exact .inl ⟨c', heq, hentered, hfuel⟩
      · exact .inr ⟨_, heq, rfl, rfl⟩
    · exact .inr ⟨_, rfl, rfl, rfl⟩

/-! ## The budget -/

@[simp] theorem Budget.restored_fuel (b : Budget) (restore : Option ℕ) :
    (b.restored restore).fuel = b.fuel := by
  cases restore <;> rfl

@[simp] theorem Budget.restored_depth (b : Budget) (restore : Option ℕ) :
    (b.restored restore).depth = restore.getD b.depth := by
  cases restore <;> rfl

@[simp] theorem Budget.restored_maxDepth (b : Budget) (restore : Option ℕ) :
    (b.restored restore).maxDepth = b.maxDepth := by
  cases restore <;> rfl

@[simp] theorem Budget.publish_depth (b : Budget) (a : Answer L) :
    (b.publish a).depth = b.depth := by
  unfold Budget.publish
  split <;> rfl

@[simp] theorem Budget.publish_maxDepth (b : Budget) (a : Answer L) :
    (b.publish a).maxDepth = b.maxDepth := by
  unfold Budget.publish
  split <;> rfl

theorem Budget.chargeHostCall_spec {b b' : Budget} {fuel : Option ℕ} {depth : ℕ}
    (h : b.chargeHostCall fuel depth = some b') :
    b'.fuel = fuel ∧ b'.depth = depth ∧ b'.hostCalls = b.hostCalls + 1 ∧
      b'.maxDepth = b.maxDepth ∧ b'.maxHostCalls = b.maxHostCalls ∧
      ∀ max, b.maxHostCalls = some max → b.hostCalls + 1 ≤ max := by
  unfold chargeHostCall at h
  cases hmax : b.maxHostCalls with
  | none =>
    simp only [hmax, Option.some.injEq] at h
    subst h
    exact ⟨rfl, rfl, rfl, rfl, rfl, by simp⟩
  | some max =>
    simp only [hmax] at h
    split at h
    · cases h
    · rename_i hle
      cases h
      refine ⟨rfl, rfl, rfl, rfl, rfl, ?_⟩
      rintro _ ⟨⟩
      omega

theorem Budget.publish_aborts {a : Answer L} (ha : a.outcome.aborts = true) (b : Budget) :
    b.publish a = b := by
  unfold Budget.publish
  split
  · rename_i hreturned
    rw [hreturned] at ha
    cases ha
  · rfl

theorem Budget.publish_uncaught {a : Answer L} {e : Exn L} (ha : a.outcome = .uncaught e)
    (b : Budget) : b.publish a = b := by
  unfold Budget.publish
  rw [ha]

end ErlangWasm.Exec
