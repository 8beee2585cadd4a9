import ErlangWasm.Calls.Coherent

/-!
# Calls see one store

Runs in which instances are entered, returned from and left where the state goes on are runs over
one store per instance.  `call_host/3` publishes and adopts, so calls out through it and back are
always such; a call through a reference publishes nothing, and is settled by nobody.
-/

namespace ErlangWasm.Calls

open Reasoning

/-- What leaves a call other than by a return. -/
def Action.abrupt : Action → Bool
  | .trap | .throw | .unwind | .handle => true
  | _ => false

/-- Instances are entered, read and returned from with their latest state. -/
def WellNested (s : State) : Action → Prop
  | .invoke x _ _ | .callRef x | .hostRead x _ => s.Fresh x
  | .ctxRead _ => s.ContextFresh
  | .ret => s.ReturnsFresh
  | _ => True

/-- And calls are left, and exceptions caught, with it. -/
def WellLeft (s : State) : Action → Prop
  | .unwind => s.LeavesFresh
  | .handle => s.HandlesFresh
  | a => WellNested s a

instance (s : State) (x : ℕ) : Decidable (s.Fresh x) := inferInstanceAs (Decidable (_ = _))

instance (s : State) : Decidable s.ContextFresh := by
  unfold State.ContextFresh
  split <;> infer_instance

instance (s : State) : Decidable s.ReturnsFresh := by
  unfold State.ReturnsFresh
  split <;> infer_instance

instance (s : State) : Decidable s.LeavesFresh := by
  unfold State.LeavesFresh
  split <;> infer_instance

instance (s : State) : Decidable s.HandlesFresh := by
  unfold State.HandlesFresh
  split <;> infer_instance

instance (s : State) (a : Action) : Decidable (WellNested s a) := by
  unfold WellNested
  split <;> infer_instance

instance (s : State) (a : Action) : Decidable (WellLeft s a) := by
  unfold WellLeft
  split <;> infer_instance

theorem coherent_step {p q : System} {a : Action} (h : Coherent p) (hok : WellLeft p.process a)
    (hstep : p.step a = some q) : Coherent q := by
  obtain ⟨s, t⟩ := p
  obtain ⟨s', hs, rfl⟩ := Option.map_eq_some_iff.mp hstep
  unfold step at hs
  split at hs
  · next hn =>
    cases a with
    | write w => exact coherent_write h hn hs
    | read r => exact coherent_read h hn hs
    | callHost => exact coherent_callHost h hn hs
    | hostReturn => exact coherent_hostReturn h hn hs
    | ctxRead r => exact coherent_ctxRead h hn hok hs
    | hostRead x r => exact coherent_hostRead h hn hok hs
    | invoke x toplevel compiled => exact coherent_invoke h hn hok hs
    | callRef y => exact coherent_callRef h hn hok hs
    | cross => exact coherent_cross h hn hs
    | ret => exact coherent_ret h hn hok hs
    | trap =>
      dsimp only [State.trap] at hs
      split at hs
      · cases hs
      · cases hs
        exact coherent_raise h hn .trap
    | throw =>
      dsimp only [State.throw] at hs
      split at hs
      · cases hs
        exact coherent_raise h hn .exception
      · cases hs
    | unwind => cases hs
    | handle => cases hs
  · next exit hu =>
    cases a with
    | unwind => exact coherent_unwind h hu hok hs
    | handle => exact coherent_handle h hu hok hs
    | _ => cases hs

theorem coherent_of_wellLeft {muts : ℕ → Mut} {p : System}
    (h : Run.ReachableIf System.step (fun p a => WellLeft p.process a) (System.init muts) p) :
    Coherent p :=
  h.invariant Coherent (coherent_init muts) fun _ _ _ hc hok hstep => coherent_step hc hok hstep

/-! ## Calls that return -/

/-- In a run of calls that all return, entered and returned from with the latest state, everything
is as with one store. -/
theorem agrees_of_wellNested {muts : ℕ → Mut} {p : System}
    (h : Run.ReachableIf System.step
      (fun p a => a.abrupt = false ∧ WellNested p.process a) (System.init muts) p) : p.Agrees := by
  have hleft : Run.ReachableIf System.step (fun p a => WellLeft p.process a)
      (System.init muts) p := by
    apply h.mono
    rintro p a ⟨hreturns, hnested⟩
    cases a with
    | unwind => cases hreturns
    | handle => cases hreturns
    | _ => exact hnested
  exact (coherent_of_wellLeft hleft).agrees

/-- Instances with one global, which is 0. -/
def zeros : ℕ → Mut := fun _ => ⟨[0], [], ∅, ∅⟩

/-- Instance 0 calls out and is called back, and then calls instance 1 through a reference. -/
def calledBack : List Action :=
  [.invoke 0 true false, .write (.globalSet 0 1), .callHost, .invoke 0 false false,
    .read (.globalGet 0), .write (.globalSet 0 2), .ret, .hostReturn, .read (.globalGet 0),
    .callRef 1, .write (.dataDrop 3), .ret, .ret, .invoke 0 true false, .read (.globalGet 0), .ret,
    .invoke 1 true false, .read (.dataDropped 3)]

theorem agrees_calledBack : ∃ p : System,
    Run.execIf System.step (fun p a => a.abrupt = false ∧ WellNested p.process a) calledBack
      (System.init zeros) = some p ∧
    p.process.answers = [.value (some 1), .value (some 2), .value (some 2), .dropped true] ∧
    p.Agrees := by
  have hrun : (Run.execIf System.step (fun p a => a.abrupt = false ∧ WellNested p.process a)
      calledBack (System.init zeros)).any (fun p => decide (p.process.answers =
        [.value (some 1), .value (some 2), .value (some 2), .dropped true])) = true := by
    decide +kernel
  obtain ⟨p, hp, hanswers⟩ := (Option.any_eq_true _ _).mp hrun
  exact ⟨p, hp, of_decide_eq_true hanswers,
    agrees_of_wellNested (Run.ReachableIf.init.of_execIf hp)⟩

/-- Instance 0 changes its global and calls instance 1 through a reference, which calls instance 0
back through its import. -/
def calledBackThroughReference : List Action :=
  [.invoke 0 true false, .write (.globalSet 0 1), .callRef 1, .callHost, .invoke 0 false false,
    .read (.globalGet 0)]

theorem not_agrees_returning : ¬ ∀ (muts : ℕ → Mut) (p : System),
    Run.ReachableIf System.step (fun _ a => a.abrupt = false) (System.init muts) p → p.Agrees := by
  intro hall
  have hrun : (Run.execIf System.step (fun _ a => a.abrupt = false) calledBackThroughReference
      (System.init zeros)).any (fun p =>
        decide (p.process.answers ≠ p.single.answers)) = true := by decide +kernel
  obtain ⟨p, hp, hanswers⟩ := (Option.any_eq_true _ _).mp hrun
  have hagrees := hall zeros p (Run.ReachableIf.init.of_execIf hp)
  exact of_decide_eq_true hanswers hagrees.answers

/-! ## Calls that are left -/

/-- Instance 0 is left by a trap in its own code, after a host function was called. -/
def trappedAfterHost : List Action :=
  [.invoke 0 true false, .callHost, .invoke 1 true false, .write (.globalSet 0 1), .trap, .unwind,
    .hostReturn, .write (.globalSet 0 2), .trap, .unwind, .invoke 0 true false,
    .read (.globalGet 0), .ret, .invoke 1 true false, .read (.globalGet 0)]

/-- Instance 1 is called through a reference, changes its global and traps. -/
def trappedInReference : List Action :=
  [.invoke 0 true false, .callRef 1, .write (.globalSet 0 1), .trap, .unwind, .unwind,
    .invoke 1 true false, .read (.globalGet 0)]

end ErlangWasm.Calls
