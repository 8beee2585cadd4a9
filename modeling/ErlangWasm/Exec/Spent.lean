import ErlangWasm.Exec.Moves
import ErlangWasm.Reasoning.Run

/-!
# What a nest spends

Fuel is kept in the state of each invocation and in the budget.  An invocation publishes its own
where it calls a host function and where it returns, and nowhere else: not before it calls another
instance's function, and not where it traps or throws.

A run is followed with the units that have been charged.
-/

namespace ErlangWasm.Exec

open Reasoning

variable {L : Lang}

/-! ## Charges -/

/-- The fuel after a clause. -/
def fuelAfter : Config L ⊕ Exit L → Option ℕ
  | .inl c => c.st.fuel
  | .inr (.answered a) => a.fuel
  | .inr (.out pause) => pause.config.st.fuel

/-- The units a step charges. -/
def Nest.charges (p : Program L) (n : Nest L) : Act L → ℕ
  | .step .. =>
      match n.running with
      | .wasm inv c =>
          c.st.fuel.getD 0 - (fuelAfter (stackClause (p.inst n.budget inv) c)).getD 0
      | _ => 0
  | _ => 0

/-- A nest, and the units charged since it began. -/
structure Metered (L : Lang) where
  nest : Nest L
  spent : ℕ

def Metered.step (p : Program L) (limit : L.Reason) (m : Metered L) (act : Act L) :
    Option (Metered L) :=
  (m.nest.step p limit act).map fun n => ⟨n, m.spent + m.nest.charges p act⟩

def Metered.start (p : Program L) (ref : L.Ref) (f : ℕ) (args : List (Value L)) (l : Limits)
    (tier : Tier) : Metered L :=
  ⟨.start p ref f args l tier, 0⟩

/-- The fuel whoever runs goes on with; a host function that calls in begins with the budget's. -/
def Running.fuel (b : Budget) : Running L → Option ℕ
  | .wasm _ c => c.st.fuel
  | _ => b.fuel

/-- No more than `fuel` has been charged, whoever runs has exactly what is left, and no more host
functions have been called than may be. -/
structure Metered.Frugal (m : Metered L) (fuel : ℕ) (maxHostCalls : Option ℕ) : Prop where
  spent : m.spent ≤ fuel
  left : (∃ r, m.nest.running = .done r) ∨
    m.nest.running.fuel m.nest.budget = some (fuel - m.spent)
  hostCalls : ∀ max, maxHostCalls = some max → m.nest.budget.hostCalls ≤ max

/-! ## The condition on a step -/

/-- A trap or an exception is taken up by someone who knows what is left: a host function by the
budget, an invocation by its own state. -/
def known (p : Program L) (stores : Stores L) (fuel : Option ℕ) :
    Budget → Outcome L → List (Level L) → Bool
  | _, _, [] => true
  | b, _, .embedder :: _ => b.fuel == fuel
  | b, o, .generated _ _ restore :: below => known p stores fuel (b.restored restore) o below
  | b, o, .waiting inv pause restore :: below =>
      let b := b.restored restore
      match resume (p.inst b inv) pause (ending stores b inv pause o) with
      | .inl _ => pause.config.st.fuel == fuel
      | .inr a => known p stores fuel b a.outcome below

/-- No function of another instance is called through a reference or a table, and an invocation ends
in a trap or an exception only where whoever takes it up knows what is left. -/
def settledClause (p : Program L) (stores : Stores L) (limit : L.Reason) (b : Budget)
    (below : List (Level L)) : Config L ⊕ Exit L → Bool
  | .inl _ => true
  | .inr (.answered ⟨.returned _, _, _, _⟩) => true
  | .inr (.answered a) => known p stores a.fuel b a.outcome below
  | .inr (.out ⟨.foreign .., _, _, _⟩) => false
  | .inr (.out pause) =>
      (b.chargeHostCall pause.config.st.fuel 0).isSome ||
        known p stores pause.config.st.fuel b (.trap limit) below

def settled (p : Program L) (limit : L.Reason) (m : Metered L) : Act L → Bool
  | .step stores _ =>
      match m.nest.running with
      | .wasm inv c =>
          settledClause p stores limit m.nest.budget m.nest.below
            (stackClause (p.inst m.nest.budget inv) c)
      | _ => true
  | _ => true

/-- The condition on one step. -/
abbrev Settled (p : Program L) (limit : L.Reason) (m : Metered L) (act : Act L) : Prop :=
  settled p limit m act = true

/-! ## The invariant -/

/-- What waits in a metered nest. -/
def Level.Quiet : Level L → Prop
  | .waiting inv pause _ => inv.code = false ∧ ∃ f, pause.callee = .host f
  | .generated .. => False
  | .embedder => True

structure Budget.Within (max : Option ℕ) (b : Budget) : Prop where
  limit : b.maxHostCalls = max
  hostCalls : ∀ m, max = some m → b.hostCalls ≤ m

/-- Whoever runs goes on with so many units. -/
structure Nest.Pays (max : Option ℕ) (left : ℕ) (n : Nest L) : Prop where
  below : ∀ level ∈ n.below, level.Quiet
  budget : n.budget.Within max
  running : match n.running with
    | .wasm inv c => inv.code = false ∧ c.st.fuel = some left
    | .calling inv _ _ => inv.code = false ∧ n.budget.fuel = some left
    | .generated .. => False
    | .embedder => n.budget.fuel = some left
    | .done _ => True

theorem Budget.Within.restored {max : Option ℕ} {b : Budget} (h : b.Within max)
    (restore : Option ℕ) : (b.restored restore).Within max := by
  cases restore <;> exact ⟨h.limit, h.hostCalls⟩

theorem Budget.Within.publish {max : Option ℕ} {b : Budget} (h : b.Within max) (a : Answer L) :
    (b.publish a).Within max := by
  unfold Budget.publish
  split <;> exact ⟨h.limit, h.hostCalls⟩

/-! ## How an invocation ends -/

section
variable {p : Program L} {stores : Stores L} {limit : L.Reason} {left : ℕ} {max : Option ℕ}
  {b : Budget} {o : Outcome L} {below : List (Level L)}

theorem Outcome.ends (o : Outcome L) :
    (∃ results, o = .returned results) ∨ (∃ e, o = .uncaught e) ∨ o.aborts = true := by
  cases o with
  | returned results => exact .inl ⟨results, rfl⟩
  | uncaught e => exact .inr (.inl ⟨e, rfl⟩)
  | _ => exact .inr (.inr rfl)

theorem ending_aborts (ho : o.aborts = true) (b : Budget) (inv : Invoked L) (pause : Pause L) :
    ending stores b inv pause o = .stopped o (stores inv.ref) pause.config.st.fuel := by
  cases o with
  | returned results => cases ho
  | uncaught e => cases ho
  | _ => rfl

theorem known_waiting (fuel : Option ℕ) (b : Budget) (o : Outcome L) (inv : Invoked L)
    (pause : Pause L) (restore : Option ℕ) (below : List (Level L)) :
    known p stores fuel b o (.waiting inv pause restore :: below) =
      match resume (p.inst (b.restored restore) inv) pause
          (ending stores (b.restored restore) inv pause o) with
      | .inl _ => pause.config.st.fuel == fuel
      | .inr a => known p stores fuel (b.restored restore) a.outcome below := rfl

/-- No invocation takes up a trap. -/
theorem known_aborts (ho : o.aborts = true) (fuel : Option ℕ) (b : Budget) (inv : Invoked L)
    (pause : Pause L) (restore : Option ℕ) (below : List (Level L)) :
    known p stores fuel b o (.waiting inv pause restore :: below) =
      known p stores fuel (b.restored restore) o below := by
  rw [known_waiting, ending_aborts ho]
  rfl

/-- What an invocation that returns has left is in the budget; of any other end, somebody knows. -/
def Told (p : Program L) (stores : Stores L) (left : ℕ) (b : Budget) (o : Outcome L)
    (below : List (Level L)) : Prop :=
  match o with
  | .returned _ => b.fuel = some left
  | o => known p stores (some left) b o below = true

theorem told_aborts (ho : o.aborts = true) :
    Told p stores left b o below ↔ known p stores (some left) b o below = true := by
  cases o with
  | returned results => cases ho
  | _ => rfl

/-- A trap where the budget has what is left. -/
theorem known_of_published (ho : o.aborts = true) (hb : b.fuel = some left) :
    known p stores (some left) b o below = true := by
  induction below generalizing b with
  | nil => rfl
  | cons level below ih =>
    cases level with
    | embedder =>
      rw [known, hb, beq_self_eq_true]
    | generated ref depth restore =>
      apply ih
      rw [Budget.restored_fuel, hb]
    | waiting inv pause restore =>
      rw [known_aborts ho]
      apply ih
      rw [Budget.restored_fuel, hb]

theorem told_of_published (ho : o.aborts = true) (hb : b.fuel = some left) :
    Told p stores left b o below :=
  (told_aborts ho).mpr (known_of_published ho hb)

/-- What is known of a waiting invocation gone on with, or of how it ends in its turn. -/
def Resumed (p : Program L) (stores : Stores L) (left : ℕ) (b : Budget) (below : List (Level L)) :
    Config L ⊕ Answer L → Prop
  | .inl c => c.st.fuel = some left
  | .inr a => Told p stores left (b.publish a) a.outcome below

theorem resumed_returned {inv : Invoked L} {pause : Pause L} {results : List (Value L)} {f : ℕ}
    (hhost : pause.callee = .host f) (hb : b.fuel = some left) :
    Resumed p stores left b below
      (resume (p.inst b inv) pause (ending stores b inv pause (.returned results))) := by
  have hending : ending stores b inv pause (.returned results) =
      .returned results (stores inv.ref) b.fuel := by
    simp only [ending, hhost]
  rw [hending]
  have hreturns := @resume_returns L (p.inst b inv) pause results (stores inv.ref) b.fuel
  cases hresume : resume (p.inst b inv) pause (.returned results (stores inv.ref) b.fuel) with
  | inl c =>
    rw [hresume] at hreturns
    cases hreturns with
    | on _ _ _ hc _ => exact hc.trans hb
    | leaves hleaves _ hc _ =>
      obtain ⟨hback⟩ := hleaves
      exact (hback.fuel.trans hc).trans hb
  | inr a =>
    rw [hresume] at hreturns
    cases hreturns with
    | leaves hleaves _ hc _ =>
      cases hleaves with
      | returned ha hafuel =>
        show Told p stores left (b.publish a) a.outcome below
        unfold Told Budget.publish
        rw [ha]
        exact (hafuel.trans hc).trans hb
      | crash ha _ =>
        have haborts : a.outcome.aborts = true := by rw [ha]; rfl
        show Told p stores left (b.publish a) a.outcome below
        rw [b.publish_aborts haborts]
        exact told_of_published haborts hb

theorem resumed_uncaught {inv : Invoked L} {pause : Pause L} {restore : Option ℕ} {e : Exn L}
    (h : known p stores (some left) b (.uncaught e) (.waiting inv pause restore :: below) = true) :
    Resumed p stores left (b.restored restore) below
      (resume (p.inst (b.restored restore) inv) pause
        (ending stores (b.restored restore) inv pause (.uncaught e))) := by
  rw [known_waiting] at h
  have hending : ending stores (b.restored restore) inv pause (.uncaught e) =
    .threw e (stores inv.ref).world := rfl
  rw [hending] at h ⊢
  have hthrows := @resume_throws L (p.inst (b.restored restore) inv) pause e (stores inv.ref).world
  cases hresume : resume (p.inst (b.restored restore) inv) pause
      (.threw e (stores inv.ref).world) with
  | inl c =>
    rw [hresume] at hthrows h
    rcases hthrows with ⟨-, hc⟩ | ⟨a, ha, -⟩
    · exact hc.trans (eq_of_beq h)
    · cases ha
  | inr a =>
    rw [hresume] at hthrows
    rw [hresume] at h
    change known p stores (some left) (b.restored restore) a.outcome below = true at h
    have ha : a.outcome = .uncaught e ∨ a.outcome = .crash := by
      rcases hthrows with hthrows | ⟨a', ha, houtcome, -⟩
      · cases hthrows with
        | uncaught h _ => exact .inl h
        | crash h _ => exact .inr h
      · cases ha
        exact .inl houtcome
    show Told p stores left ((b.restored restore).publish a) a.outcome below
    rcases ha with ha | ha
    · rw [Budget.publish_uncaught ha]
      rw [ha] at h ⊢
      exact h
    · have haborts : a.outcome.aborts = true := by rw [ha]; rfl
      rw [Budget.publish_aborts haborts]
      exact (told_aborts haborts).mpr h

/-- A waiting invocation gone on with has what is left, or ends with it known in its turn. -/
theorem told_resumed {inv : Invoked L} {pause : Pause L} {restore : Option ℕ} {f : ℕ}
    (hhost : pause.callee = .host f)
    (h : Told p stores left b o (.waiting inv pause restore :: below)) :
    Resumed p stores left (b.restored restore) below
      (resume (p.inst (b.restored restore) inv) pause
        (ending stores (b.restored restore) inv pause o)) := by
  rcases o.ends with ⟨results, rfl⟩ | ⟨e, rfl⟩ | ho
  · apply resumed_returned hhost
    rw [Budget.restored_fuel]
    exact h
  · exact resumed_uncaught h
  · rw [told_aborts ho, known_aborts ho] at h
    rw [ending_aborts ho]
    show Told p stores left ((b.restored restore).publish _) o below
    rw [Budget.publish_aborts ho]
    exact (told_aborts ho).mpr h

theorem settle_pays (hbelow : ∀ level ∈ below, level.Quiet) (hb : b.Within max)
    (h : Told p stores left b o below) : (settle p stores b o below).Pays max left := by
  induction below generalizing b o with
  | nil => exact ⟨hbelow, hb, trivial⟩
  | cons level below ih =>
    have hrest : ∀ level ∈ below, level.Quiet := fun level hl => hbelow level (.tail _ hl)
    cases level with
    | embedder =>
      refine ⟨hrest, hb, ?_⟩
      cases o with
      | returned results => exact h
      | _ => exact eq_of_beq h
    | generated ref depth restore => exact absurd (hbelow _ (.head _)) id
    | waiting inv pause restore =>
      obtain ⟨hcode, f, hhost⟩ := hbelow _ (.head _)
      have hresumed := told_resumed hhost h
      unfold settle
      simp only
      cases hresume : resume (p.inst (b.restored restore) inv) pause
          (ending stores (b.restored restore) inv pause o) with
      | inl c =>
        rw [hresume] at hresumed
        exact ⟨hrest, hb.restored restore, hcode, hresumed⟩
      | inr a =>
        rw [hresume] at hresumed
        exact ih hrest ((hb.restored restore).publish a) hresumed

/-- `call_host/3` from a state with what is left. -/
theorem callHost_pays {depth : ℕ} {linked : Option (L.Ref × ℕ)} {args : List (Value L)}
    (hbelow : ∀ level ∈ below, level.Quiet) (hb : b.Within max)
    (h : b.chargeHostCall (some left) depth = none →
      known p stores (some left) b (.trap limit) below = true) :
    (callHost p stores limit b (some left) depth linked args below).Pays max left := by
  unfold callHost
  cases hcharge : b.chargeHostCall (some left) depth with
  | none => exact settle_pays hbelow hb (h hcharge)
  | some b' =>
    obtain ⟨hfuel, _, hcalls, _, hmax, hle⟩ := Budget.chargeHostCall_spec hcharge
    have hb' : b'.Within max := by
      refine ⟨hmax.trans hb.limit, ?_⟩
      intro m hm
      rw [hcalls]
      apply hle
      rw [hb.limit, hm]
    cases linked with
    | none => exact ⟨hbelow, hb', hfuel⟩
    | some target => exact ⟨hbelow, hb', rfl, hfuel⟩

/-! ## The steps -/

theorem Spends.le {k : ℕ} {after : Option ℕ} (h : Spends k (some left) after) :
    ∃ left' ≤ left, after = some left' := by
  obtain ⟨hlt, hafter⟩ := h
  exact ⟨left - k, Nat.sub_le left k, hafter⟩

theorem Goes.fuel_le {inst : Inst L} {c c' : Config L} (h : Goes inst c c')
    (hc : c.st.fuel = some left) : ∃ left' ≤ left, c'.st.fuel = some left' := by
  have hsame : c'.st.fuel = c.st.fuel → ∃ left' ≤ left, c'.st.fuel = some left' :=
    fun heq => ⟨left, Nat.le_refl left, heq.trans hc⟩
  cases h with
  | next _ _ hkept | body _ _ _ hkept | finish _ _ _ hkept | branch _ _ _ _ hkept =>
    exact hsame hkept.fuel
  | loop _ _ _ _ hfuel _ =>
    rw [hc] at hfuel
    exact hfuel.le
  | leave hleft => exact hsame hleft.fuel
  | enter _ _ _ _ _ hfuel | tail _ _ _ _ hfuel _ =>
    rw [hc] at hfuel
    exact hfuel.le
  | caught _ _ _ hfuel => exact hsame hfuel

/-- A clause never gives fuel. -/
theorem clause_fuel {inst : Inst L} {c : Config L} (hinst : inst.Sound)
    (hc : c.st.fuel = some left) :
    ∃ left' ≤ left, fuelAfter (stackClause inst c) = some left' := by
  have hdoes := stackClause_does hinst c
  cases hclause : stackClause inst c with
  | inl c' =>
    rw [hclause] at hdoes
    obtain ⟨hgoes⟩ := hdoes
    exact hgoes.fuel_le hc
  | inr x =>
    rw [hclause] at hdoes
    cases hdoes with
    | returned _ hfuel | uncaught _ _ _ hfuel => exact ⟨left, Nat.le_refl left, hfuel.trans hc⟩
    | aborted _ hfuel =>
      rcases hfuel with hfuel | hfuel
      · exact ⟨left, Nat.le_refl left, hfuel.trans hc⟩
      · rw [hc] at hfuel
        exact hfuel.le
    | out _ _ _ hfuel _ _ =>
      rw [hc] at hfuel
      exact hfuel.le

/-- An invocation that ends. -/
theorem answer_pays {a : Answer L} (hbelow : ∀ level ∈ below, level.Quiet) (hb : b.Within max)
    (ha : a.fuel = some left)
    (h : (∃ results, a.outcome = .returned results) ∨
      known p stores a.fuel b a.outcome below = true) :
    (answer p stores b a below).Pays max left := by
  apply settle_pays hbelow (hb.publish a)
  rw [ha] at h
  rcases a.outcome.ends with ⟨results, houtcome⟩ | ⟨e, houtcome⟩ | haborts
  · unfold Told Budget.publish
    rw [houtcome]
    exact ha
  · rw [Budget.publish_uncaught houtcome]
    rw [houtcome] at h ⊢
    rcases h with ⟨results, h⟩ | h
    · cases h
    · exact h
  · rw [Budget.publish_aborts haborts, told_aborts haborts]
    rcases h with ⟨results, h⟩ | h
    · rw [h] at haborts
      cases haborts
    · exact h

theorem goOut_pays {held : Bool} {inv : Invoked L} {pause : Pause L} {f : ℕ}
    (hbelow : ∀ level ∈ below, level.Quiet) (hb : b.Within max) (hcode : inv.code = false)
    (hhost : pause.callee = .host f) (hfuel : pause.config.st.fuel = some left)
    (h : (b.chargeHostCall pause.config.st.fuel 0).isSome = true ∨
      known p stores pause.config.st.fuel b (.trap limit) below = true) :
    (goOut p stores limit held b inv pause below).Pays max left := by
  unfold goOut
  simp only [hhost]
  rw [hfuel] at h ⊢
  apply callHost_pays _ hb
  · intro hrefused
    have haborts : (Outcome.trap limit).aborts = true := rfl
    rw [known_aborts haborts]
    rcases h with h | h
    · -- whether the call is refused is a matter of how many there were
      unfold Budget.chargeHostCall at h hrefused
      split at hrefused <;> split at h <;> simp_all
    · exact h
  · intro level hlevel
    cases hlevel with
    | head => exact ⟨hcode, f, hhost⟩
    | tail _ hlevel => exact hbelow level hlevel

theorem beginCall_pays {inv : Invoked L} {f : ℕ} {args : List (Value L)}
    (hbelow : ∀ level ∈ below, level.Quiet) (hb : b.Within max) (hcode : inv.code = false)
    (hfuel : b.fuel = some left) :
    (beginCall p stores limit b inv f args below).Pays max left := by
  unfold beginCall
  split
  · exact settle_pays hbelow hb (told_of_published rfl hfuel)
  · rw [hfuel]
    apply callHost_pays hbelow hb
    intro _
    exact known_of_published rfl hfuel
  · split
    · exact settle_pays hbelow hb (told_of_published rfl hfuel)
    · split
      · exact settle_pays hbelow hb (told_of_published rfl hfuel)
      · refine ⟨hbelow, hb, ?_, hfuel⟩
        show (inv.code && b.fuel.isNone) = false
        rw [hcode, Bool.false_and]

/-- A step that is no clause charges nothing. -/
theorem other_pays {n n' : Nest L} {act : Act L} (h : n.Pays max left)
    (hact : ∀ stores held, act ≠ .step stores held) (hstep : n.step p limit act = some n') :
    n'.Pays max left := by
  have hnow := h.running
  cases act with
  | step stores held => exact absurd rfl (hact stores held)
  | begin stores =>
    cases hrunning : n.running with
    | calling inv f args =>
      simp only [Nest.step, hrunning, Option.some.injEq] at hstep hnow
      subst hstep
      exact beginCall_pays h.below h.budget hnow.1 hnow.2
    | _ => simp [Nest.step, hrunning] at hstep
  | returns stores results =>
    cases hrunning : n.running with
    | embedder =>
      simp only [Nest.step, hrunning, Option.some.injEq] at hstep hnow
      subst hstep
      exact settle_pays h.below h.budget hnow
    | generated ref depth => simp only [hrunning] at hnow
    | _ => simp [Nest.step, hrunning] at hstep
  | traps stores reason =>
    cases hrunning : n.running with
    | embedder =>
      simp only [Nest.step, hrunning, Option.some.injEq] at hstep hnow
      subst hstep
      exact settle_pays h.below h.budget (told_of_published rfl hnow)
    | generated ref depth => simp only [hrunning] at hnow
    | _ => simp [Nest.step, hrunning] at hstep
  | calls ref f args =>
    cases hrunning : n.running with
    | embedder =>
      simp only [Nest.step, hrunning, Option.some.injEq] at hstep hnow
      subst hstep
      refine ⟨?_, h.budget, rfl, hnow⟩
      intro level hlevel
      cases hlevel with
      | head => trivial
      | tail _ hlevel => exact h.below level hlevel
    | _ => simp [Nest.step, hrunning] at hstep
  | _ =>
    -- only generated code calls so
    cases hrunning : n.running with
    | generated ref depth => simp only [hrunning] at hnow
    | _ => simp [Nest.step, hrunning] at hstep

theorem clause_pays {m : Metered L} {inv : Invoked L} {c : Config L} {held : Bool}
    (h : m.nest.Pays max left) (hrunning : m.nest.running = .wasm inv c)
    (hsettled : Settled p limit m (.step stores held)) {n' : Nest L}
    (hstep : m.nest.step p limit (.step stores held) = some n') :
    ∃ left', left' + m.nest.charges p (.step stores held) = left ∧ n'.Pays max left' := by
  have hnow := h.running
  rw [hrunning] at hnow
  obtain ⟨hcode, hfuel⟩ := hnow
  have hok : settledClause p stores limit m.nest.budget m.nest.below
      (stackClause (p.inst m.nest.budget inv) c) = true := by
    unfold Settled settled at hsettled
    simpa only [hrunning] using hsettled
  simp only [Nest.step, hrunning] at hstep
  obtain ⟨left', hle, hafter⟩ := @clause_fuel L left _ c (p.inst_sound m.nest.budget inv) hfuel
  refine ⟨left', ?_, ?_⟩
  · simp only [Nest.charges, hrunning, hfuel, hafter, Option.getD_some]
    exact Nat.add_sub_cancel' hle
  · have hdoes := stackClause_does (p.inst_sound m.nest.budget inv) c
    cases hclause : stackClause (p.inst m.nest.budget inv) c with
    | inl c' =>
      rw [hclause] at hstep hafter
      cases hstep
      exact ⟨h.below, h.budget, hcode, hafter⟩
    | inr x =>
      rw [hclause] at hstep hafter hok hdoes
      cases x with
      | answered a =>
        cases hstep
        apply answer_pays h.below h.budget hafter
        obtain ⟨o, mu, fuel, log⟩ := a
        cases o with
        | returned results => exact .inl ⟨results, rfl⟩
        | _ => exact .inr hok
      | out pause =>
        cases hstep
        cases hdoes with
        | out _ _ _ _ _ hcompiled =>
          obtain ⟨callee, args, way, config⟩ := pause
          cases callee with
          | compiled f =>
            have htrue : inv.code = true := (hcompiled f rfl).1
            rw [hcode] at htrue
            cases htrue
          | foreign ref f => cases hok
          | host f =>
            simp only [settledClause, Bool.or_eq_true] at hok
            exact goOut_pays h.below h.budget hcode rfl hafter hok

/-- After a step that meets the condition, what it charged is gone and the rest is left. -/
theorem step_pays {m : Metered L} {act : Act L} {n' : Nest L} (h : m.nest.Pays max left)
    (hok : Settled p limit m act) (hstep : m.nest.step p limit act = some n') :
    ∃ left', left' + m.nest.charges p act = left ∧ n'.Pays max left' := by
  cases act with
  | step stores held =>
    cases hrunning : m.nest.running with
    | wasm inv c => exact clause_pays h hrunning hok hstep
    | _ => simp [Nest.step, hrunning] at hstep
  | _ => exact ⟨left, rfl, other_pays h (by simp) hstep⟩

end

/-! ## Runs -/

section
variable {p : Program L} {limit : L.Reason} {ref : L.Ref} {f : ℕ} {args : List (Value L)}
  {l : Limits} {tier : Tier} {fuel : ℕ} {m : Metered L}

theorem start_pays (p : Program L) (ref : L.Ref) (f : ℕ) (args : List (Value L)) (l : Limits)
    (tier : Tier) (fuel : ℕ) :
    (Nest.start p ref f args { l with fuel := some fuel } tier).Pays l.maxHostCalls fuel := by
  have hb : Budget.Within l.maxHostCalls { l with fuel := some fuel : Limits }.budget :=
    ⟨rfl, fun _ _ => Nat.zero_le _⟩
  exact ⟨nofun, hb, rfl, rfl⟩

/-- In every state that a run reaches whose steps meet the condition, no more than the fuel has been
charged, exactly what is left goes on, and no more host functions have been called than may be. -/
theorem frugal_of_settled
    (h : Run.ReachableIf (Metered.step p limit) (Settled p limit)
      (.start p ref f args { l with fuel := some fuel } tier) m) :
    m.Frugal fuel l.maxHostCalls := by
  have hpays : ∃ left, left + m.spent = fuel ∧ m.nest.Pays l.maxHostCalls left := by
    apply h.invariant fun m => ∃ left, left + m.spent = fuel ∧ m.nest.Pays l.maxHostCalls left
    · exact ⟨fuel, rfl, start_pays p ref f args l tier fuel⟩
    · rintro m act m' ⟨left, hleft, hm⟩ hok hstep
      unfold Metered.step at hstep
      obtain ⟨n', hn', rfl⟩ := Option.map_eq_some_iff.mp hstep
      obtain ⟨left', hcharged, hpays⟩ := step_pays hm hok hn'
      refine ⟨left', ?_, hpays⟩
      show left' + (m.spent + m.nest.charges p act) = fuel
      omega
  obtain ⟨left, hleft, hm⟩ := hpays
  obtain ⟨⟨running, below, b⟩, spent⟩ := m
  have hrest : left = fuel - spent := by
    change left + spent = fuel at hleft
    omega
  subst hrest
  have hnow := hm.running
  refine ⟨?_, ?_, hm.budget.hostCalls⟩
  · show spent ≤ fuel
    change fuel - spent + spent = fuel at hleft
    omega
  · cases running with
    | wasm inv c => exact .inr hnow.2
    | calling inv f args => exact .inr hnow.2
    | generated ref depth => exact absurd hnow id
    | embedder => exact .inr hnow
    | done r => exact .inl ⟨r, rfl⟩

end

def reentrantMetered : Metered .bare :=
  .start reentrant 0 0 [] ⟨some 15, 100, none, hundred_pos⟩ .interpreted

/-- The host function calls in again, with 5 units left; that call runs out, and the host function
returns. -/
def runOut : List (Act .bare) :=
  [.begin .bare, .step .bare true, .calls 0 0 [], .begin .bare, .step .bare true,
    .returns .bare []]

theorem frugal_runOut : ∃ m : Metered .bare,
    Run.execIf (Metered.step reentrant ()) (Settled reentrant ()) runOut reentrantMetered = some m ∧
      m.spent = 10 ∧ m.Frugal 15 none := by
  have hrun : (Run.execIf (Metered.step reentrant ()) (Settled reentrant ()) runOut
      reentrantMetered).any (fun m => m.spent == 10) = true := by decide +kernel
  obtain ⟨m, hm, hspent⟩ := (Option.any_eq_true _ _).mp hrun
  have hreach : Run.ReachableIf (Metered.step reentrant ()) (Settled reentrant ())
      (.start reentrant 0 0 [] { (⟨none, 100, none, by decide⟩ : Limits) with fuel := some 15 }
        .interpreted) m := Run.ReachableIf.init.of_execIf hm
  exact ⟨m, hm, by simpa using hspent, frugal_of_settled hreach⟩

/-- Two instances, whose functions call each other through a reference. -/
def pingPong : Program .bare := fun ref =>
  .bare 100 [.wasm 0 [] 0 [.i32Const (1 - ref), .other ()]]

def pingPongMetered : Metered .bare :=
  .start pingPong 0 0 [] ⟨some 15, 100, none, hundred_pos⟩ .interpreted

def pingPongRun : List (Act .bare) :=
  [.begin .bare, .step .bare true, .step .bare true, .begin .bare, .step .bare true,
    .step .bare true]

/-- Each begins with the fuel of the budget, which the other has not published. -/
theorem not_frugal : ¬ ∀ m : Metered .bare,
    Run.Reachable (Metered.step pingPong ()) pingPongMetered m → m.Frugal 15 none := by
  intro hall
  have hrun : (Run.exec (Metered.step pingPong ()) pingPongRun pingPongMetered).any
      (fun m => m.spent == 20) = true := by decide +kernel
  obtain ⟨m, hm, hspent⟩ := (Option.any_eq_true _ _).mp hrun
  rw [beq_iff_eq] at hspent
  have hle := (hall m (Run.Reachable.of_exec .init hm)).spent
  rw [hspent] at hle
  exact absurd hle (by decide)

end ErlangWasm.Exec
