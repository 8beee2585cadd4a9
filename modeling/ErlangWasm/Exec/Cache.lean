import ErlangWasm.Exec.Machine
import ErlangWasm.Reasoning.Simulation

/-!
# The operand cache

A step with operands in slots is one step, or two, of the interpreter that keeps them on the stack;
a spill is none.
-/

namespace ErlangWasm.Exec

open Reasoning.Halting Reasoning.Simulation

variable {L : Lang} {inst : Inst L} {outside : Outside L} {s : Cached L} {r : Cached L ⊕ Answer L} {mid : Config L}

/-- The operands in the slots put back. -/
def Cached.flush (s : Cached L) : Config L :=
  match s.slots with
  | .none => s.config
  | .one a => s.config.push a
  | .two a b => (s.config.push b).push a

/-- A spill leaves less. -/
def Cached.held (s : Cached L) : ℕ :=
  match s.slots with
  | .none => 0
  | _ => 1

theorem map_flush_uncached (x : Config L ⊕ Answer L) :
    (uncached x).map Cached.flush id = x := by
  cases x <;> rfl

theorem closed_inside (x : Config L ⊕ Answer L) : closed inst outside (inside x) = x := by
  cases x <;> rfl

theorem closed_brIf (n : ℕ) (taken : Bool) (c : Config L) :
    closed inst outside (perform inst c (brIf n taken c.st)) =
      (branchIf n taken c).map Cached.flush id := by
  cases taken with
  | false => rfl
  | true =>
    show closed inst outside (inside (branch n (c.mark (.branch n)))) = _
    rw [closed_inside]
    exact (map_flush_uncached _).symm

/-- What a step of the cached interpreter is on the stack. -/
def Stepped (inst : Inst L) (outside : Outside L) (s : Cached L) : Cached L ⊕ Answer L → Prop
  | .inl s' =>
      s'.flush = s.flush ∧ s'.held < s.held ∨
        Advances (stackStep inst outside) Config.log s.flush s'.flush
  | .inr a => Finishes (stackStep inst outside) Config.log s.flush a

theorem Stepped.one (h : stackStep inst outside s.flush = r.map Cached.flush id) : Stepped inst outside s r := by
  cases r with
  | inl s' => exact .inr (.last h)
  | inr a => exact .last h

theorem Stepped.two (h : stackStep inst outside s.flush = .inl mid) (hlog : mid.log = s.flush.log)
    (h' : stackStep inst outside mid = r.map Cached.flush id) : Stepped inst outside s r := by
  cases r with
  | inl s' => exact .inr (.more h hlog (.last h'))
  | inr a => exact .more h hlog (.last h')

theorem stackStep_cons {c : Config L} {i : Instr L} {rest : Code L} (h : c.code = i :: rest) :
    stackStep inst outside c = closed inst outside (runInstr inst i { c with code := rest }) := by
  rw [stackStep, stackClause, h]

/-- A clause that reads or computes one thing and goes on with it. -/
theorem stackStep_andThen {α : Type} {c₀ c : Config L} {i : Instr L} {rest : Code L}
    {x : Except (Outcome L) α} {g : α → St L} {k : α → Cached L}
    (hcode : c₀.code = i :: rest)
    (hrun : runInstr inst i { c₀ with code := rest } =
      perform inst { c₀ with code := rest } (.ofStraight c₀.st (do return g (← x))))
    (hanswer : ∀ o, c₀.answer o = c.answer o)
    (hk : ∀ v, { c₀ with code := rest, st := g v } = (k v).flush) :
    stackStep inst outside c₀ = (c.andThen x k).map Cached.flush id := by
  rw [stackStep_cons hcode, hrun]
  cases x with
  | ok v => exact congrArg Sum.inl (hk v)
  | error o => exact congrArg Sum.inr (hanswer o)

theorem stackStep_i32Const {c : Config L} {v : ℤ} {rest : Code L}
    (h : c.code = .i32Const v :: rest) :
    stackStep inst outside c = .inl ({ c with code := rest }.push (.int v)) := by
  rw [stackStep_cons h]
  rfl

theorem stackStep_i64Const {c : Config L} {v : ℤ} {rest : Code L}
    (h : c.code = .i64Const v :: rest) :
    stackStep inst outside c = .inl ({ c with code := rest }.push (.int v)) := by
  rw [stackStep_cons h]
  rfl

theorem stackStep_runStep (c : Config L) :
    stackStep inst outside c = (runStep inst outside c).map Cached.flush id := by
  unfold runStep
  split
  case h_1 i j rest hcode =>
    rw [stackStep_cons hcode]
    show closed _ _ (perform _ _ (Effect.ofStraight _ (straight _ _ _))) = _
    simp only [straight]
    cases element (L := L) j c.st.locals with
    | error o => rfl
    | ok a => cases element (L := L) i c.st.locals <;> rfl
  case h_2 i k rest hcode =>
    exact stackStep_andThen hcode rfl (fun _ => rfl) (fun _ => rfl)
  case h_3 i k rest hcode =>
    rw [stackStep_cons hcode]
    show closed _ _ (perform _ _ (Effect.ofStraight _ (straight _ _ _))) = _
    simp only [straight]
    cases element (L := L) i c.st.locals with
    | error o => rfl
    | ok v =>
      simp only [bind, Except.bind]
      cases binopOf .w32 .add v (.int k) <;> rfl
  case h_4 i rest hcode =>
    exact stackStep_andThen hcode rfl (fun _ => rfl) (fun _ => rfl)
  case h_5 v rest hcode =>
    exact stackStep_i32Const hcode
  case h_6 =>
    exact (map_flush_uncached _).symm

/-- An operation of two operands, the upper one in hand. -/
theorem numeric_push {op : NumOp} (hop : ∀ w, op ≠ .eqz w) (st : St L) (a : Value L) :
    numeric inst op (st.push a) = do
      let (b, st) ← st.pop
      return st.push (← op2 inst op b a) := by
  cases op with
  | eqz w => exact (hop w rfl).elim
  | bin w op => rfl
  | rel w op => rfl

theorem stepped_run1 (c : Config L) (a : Value L) :
    Stepped inst outside (run1 c a) (run1Step inst c a) := by
  unfold run1Step
  split
  -- a constant and its operation
  case h_1 v op rest hcode =>
    apply Stepped.two (s := run1 c a) (stackStep_i32Const hcode) rfl
    exact stackStep_andThen rfl rfl (fun _ => rfl) (fun _ => rfl)
  case h_2 v op rest hcode =>
    exact Stepped.two (s := run1 c a) (stackStep_i32Const hcode) rfl rfl
  case h_3 v op rest hcode =>
    apply Stepped.two (s := run1 c a) (stackStep_i64Const hcode) rfl
    exact stackStep_andThen rfl rfl (fun _ => rfl) (fun _ => rfl)
  case h_4 v rest _ _ hcode =>
    apply Stepped.one
    exact stackStep_i32Const hcode
  case h_5 v rest _ hcode =>
    apply Stepped.one
    exact stackStep_i64Const hcode
  case h_6 i rest hcode =>
    apply Stepped.one
    exact stackStep_andThen hcode rfl (fun _ => rfl) (fun _ => rfl)
  case h_7 ma rest hcode =>
    apply Stepped.one
    exact stackStep_andThen hcode rfl (fun _ => rfl) (fun _ => rfl)
  case h_8 i rest hcode =>
    apply Stepped.one
    exact stackStep_andThen hcode rfl (fun _ => rfl) (fun _ => rfl)
  case h_9 i rest hcode =>
    apply Stepped.one
    exact stackStep_andThen hcode rfl (fun _ => rfl) (fun _ => rfl)
  case h_10 i rest hcode =>
    apply Stepped.one
    exact stackStep_andThen hcode rfl (fun _ => rfl) (fun _ => rfl)
  case h_11 w rest hcode =>
    apply Stepped.one
    rw [stackStep_cons (c := (run1 c a).flush) hcode]
    rfl
  case h_12 op rest hop hcode =>
    apply Stepped.one
    rw [stackStep_cons (c := (run1 c a).flush) hcode]
    show closed _ _ (perform _ _ (.ofStraight _ (numeric inst op (c.st.push a)))) = _
    rw [numeric_push hop]
    cases c.st.pop with
    | error o => rfl
    | ok p =>
      simp only [bind, Except.bind]
      cases op2 inst op p.1 a <;> rfl
  case h_13 n rest hcode =>
    apply Stepped.one
    rw [stackStep_cons (c := (run1 c a).flush) hcode]
    exact closed_brIf n (!a.isZero) { c with code := rest }
  case h_14 n rest hcode =>
    apply Stepped.one
    rw [stackStep_cons (c := (run1 c a).flush) hcode]
    exact closed_brIf n a.isZero { c with code := rest }
  case h_15 => exact .inl ⟨rfl, Nat.one_pos⟩

theorem stepped_run2 (c : Config L) (a b : Value L) :
    Stepped inst outside (run2 c a b) (run2Step inst c a b) := by
  unfold run2Step
  split
  case h_1 w rest hcode =>
    apply Stepped.one
    rw [stackStep_cons (c := (run2 c a b).flush) hcode]
    rfl
  case h_2 op rest hop hcode =>
    apply Stepped.one
    rw [stackStep_cons (c := (run2 c a b).flush) hcode]
    show closed _ _ (perform _ _ (.ofStraight _ (numeric inst op ((c.st.push b).push a)))) = _
    rw [numeric_push hop, St.pop_push]
    simp only [bind, Except.bind]
    cases op2 inst op b a <;> rfl
  case h_3 ma rest hcode =>
    apply Stepped.one
    exact stackStep_andThen hcode rfl (fun _ => rfl) (fun _ => rfl)
  case h_4 i rest hcode =>
    apply Stepped.one
    exact stackStep_andThen hcode rfl (fun _ => rfl) (fun _ => rfl)
  case h_5 i rest hcode =>
    apply Stepped.one
    exact stackStep_andThen hcode rfl (fun _ => rfl) (fun _ => rfl)
  -- a constant and its operation
  case h_6 v op rest hcode =>
    apply Stepped.two (s := run2 c a b) (stackStep_i32Const hcode) rfl
    exact stackStep_andThen rfl rfl (fun _ => rfl) (fun _ => rfl)
  case h_7 v op rest hcode =>
    exact Stepped.two (s := run2 c a b) (stackStep_i32Const hcode) rfl rfl
  case h_8 v op rest hcode =>
    apply Stepped.two (s := run2 c a b) (stackStep_i64Const hcode) rfl
    exact stackStep_andThen rfl rfl (fun _ => rfl) (fun _ => rfl)
  case h_9 v rest _ _ hcode =>
    apply Stepped.one
    exact stackStep_i32Const hcode
  case h_10 v rest _ hcode =>
    apply Stepped.one
    exact stackStep_i64Const hcode
  case h_11 i rest hcode =>
    apply Stepped.one
    exact stackStep_andThen hcode rfl (fun _ => rfl) (fun _ => rfl)
  case h_12 n rest hcode =>
    apply Stepped.one
    rw [stackStep_cons (c := (run2 c a b).flush) hcode]
    refine (closed_brIf n (!a.isZero) ({ c with code := rest }.push b)).trans ?_
    cases a.isZero <;> rfl
  case h_13 => exact .inl ⟨rfl, Nat.one_pos⟩

theorem stepped (inst : Inst L) (outside : Outside L) (s : Cached L) : Stepped inst outside s (cachedStep inst outside s) := by
  obtain ⟨c, slots⟩ := s
  cases slots with
  | none => exact Stepped.one (stackStep_runStep c)
  | one a => exact stepped_run1 c a
  | two a b => exact stepped_run2 c a b

/-- What the operands in the slots are seen in: nothing is noted while they are there. -/
def Cached.log (s : Cached L) : List (Mark × St L) := s.config.log

theorem flush_log (s : Cached L) : s.flush.log = s.log := by
  obtain ⟨c, slots⟩ := s
  cases slots <;> rfl

/-- The interpreter with the cache follows the one without. -/
theorem cached_follows (inst : Inst L) (outside : Outside L) :
    Follows (cachedStep inst outside) (stackStep inst outside) Cached.log Config.log (fun s c => s.flush = c)
      Cached.held where
  observed := by
    rintro s c rfl
    exact (flush_log s).symm
  answer := by
    rintro s c a rfl h
    have hstepped := stepped inst outside s
    rw [h] at hstepped
    exact hstepped
  next := by
    rintro s c s' rfl h
    have hstepped := stepped inst outside s
    rw [h] at hstepped
    rcases hstepped with ⟨hflush, hheld⟩ | hadvance
    · exact .inl ⟨hflush, hheld⟩
    · exact .inr ⟨s'.flush, rfl, hadvance⟩

end ErlangWasm.Exec
