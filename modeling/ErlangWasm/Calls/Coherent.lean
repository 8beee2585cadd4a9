import ErlangWasm.Calls.Machine

/-!
# Where the latest state of an instance is

With the innermost code of an instance that is not in a host call the latest state is what that code
threads; while it is in a host call it is what is published, and when it does not run what is
committed.  Instances are entered only where that is what `mut/1` answers.
-/

namespace ErlangWasm.Calls

open Function

/-! ## Frames -/

/-- The instance is in a host call. -/
def Hosted (x : ℕ) : List Frame → Prop
  | [] => False
  | .guest _ _ _ _ :: fs => Hosted x fs
  | .host y _ :: fs => y = x ∨ Hosted x fs

/-- The latest state of an instance, from the innermost frame on; `pub` is what `mut/1` answers. -/
def view (x : ℕ) (pub : Mut) : List Frame → Mut
  | [] => pub
  | .guest _ _ y mu :: fs => if y = x then mu else view x pub fs
  | .host y _ :: fs => if y = x then pub else view x pub fs

/-- The instance of a guest frame on top. -/
def top : List Frame → Option ℕ
  | .guest _ _ x _ :: _ => some x
  | _ => none

/-- Frames as calls leave them: a host call found something published when another one of its
instance is on. -/
inductive Stacked : List Frame → Prop
  | nil : Stacked []
  | enter {entry : Entry} {mu : Mut} {compiled : Bool} {x : ℕ} {fs : List Frame} (h : Stacked fs)
      (hentry : entry ≠ .crossing) : Stacked (.guest entry compiled x mu :: fs)
  | crossing {mu : Mut} {compiled : Bool} {x : ℕ} {fs : List Frame} (h : Stacked fs)
      (hcaller : top fs = some x) : Stacked (.guest .crossing compiled x mu :: fs)
  | host {prev : Option Mut} {x : ℕ} {fs : List Frame} (h : Stacked fs) (hcaller : top fs = some x)
      (hprev : prev.isSome ↔ Hosted x fs) : Stacked (.host x prev :: fs)

variable {fs : List Frame} {x y : ℕ} {mu pub : Mut}

theorem Stacked.tail {f : Frame} (h : Stacked (f :: fs)) : Stacked fs := by
  cases h <;> assumption

/-- The state that the top threads is no matter for what is stacked. -/
theorem Stacked.put {entry : Entry} {compiled : Bool} (mu' : Mut)
    (h : Stacked (.guest entry compiled x mu :: fs)) :
    Stacked (.guest entry compiled x mu' :: fs) := by
  cases h with
  | enter h hentry => exact .enter h hentry
  | crossing h hcaller => exact .crossing h hcaller

theorem exists_of_top (h : top fs = some x) :
    ∃ entry compiled mu rest, fs = .guest entry compiled x mu :: rest := by
  cases fs with
  | nil => cases h
  | cons f fs =>
    cases f with
    | host => cases h
    | guest entry compiled y mu =>
      cases h
      exact ⟨entry, compiled, mu, fs, rfl⟩

/-- An instance that does not run is in no host call. -/
theorem Stacked.not_hosted (h : Stacked fs) (hidle : some x ∉ fs.map Frame.running) :
    ¬ Hosted x fs := by
  intro hhosted
  induction fs with
  | nil => exact hhosted
  | cons f fs ih =>
    rw [List.map_cons, List.mem_cons, not_or] at hidle
    cases f with
    | guest => exact ih h.tail hidle.2 hhosted
    | host y prev =>
      rcases hhosted with rfl | hhosted
      · cases h with
        | host _ hcaller =>
          obtain ⟨entry, compiled, mu, rest, rfl⟩ := exists_of_top hcaller
          exact hidle.2 List.mem_cons_self
      · exact ih h.tail hidle.2 hhosted

theorem view_of_idle (hs : Stacked fs) (hidle : some x ∉ fs.map Frame.running) :
    view x pub fs = pub := by
  induction fs with
  | nil => rfl
  | cons f fs ih =>
    rw [List.map_cons, List.mem_cons, not_or] at hidle
    cases f with
    | guest entry compiled y mu =>
      have hne : y ≠ x := fun h => hidle.1 (congrArg some h.symm)
      rw [view, if_neg hne]
      exact ih hs.tail hidle.2
    | host y prev =>
      rw [view]
      split
      · rfl
      · exact ih hs.tail hidle.2

/-! ## Conditions -/

/-- What `mut/1` answers for the instance is what its innermost code threads; so it is always while
that is in a host call, or does not run. -/
def State.Fresh (s : State) (x : ℕ) : Prop := view x (s.mutOf x) s.frames = s.mutOf x

/-- What a host function was given is what is published since. -/
def State.ContextFresh (s : State) : Prop :=
  match s.frames with
  | .host x _ :: .guest _ _ _ mine :: _ => mine = s.mutOf x
  | _ => True

/-- What is returned is what the code that waits below of the instance threads, or is published to
it. -/
def State.ReturnsFresh (s : State) : Prop :=
  match s.frames with
  | .guest (.invoke stored _) _ x mu :: fs =>
      view x (if mu = stored then s.mutOf x else mu) fs = mu
  | .guest .foreign _ x mu :: fs => view x mu fs = mu
  | _ => True

/-- So is what is left: in the checkpoint of an invocation, if it is not erased. -/
def State.LeavesFresh (s : State) : Prop :=
  match s.frames with
  | .guest (.invoke _ _) _ x _ :: fs => view x ((s.ckpt x).getD (s.mutOf x)) fs = s.left
  | .guest .foreign _ x _ :: fs => view x (s.mutOf x) fs = s.left
  | _ => True

/-- What caught has the state that what was left had made of the instance. -/
def State.HandlesFresh (s : State) : Prop :=
  match s.frames with
  | .guest _ _ _ mu :: _ => mu = s.left
  | _ => True

/-! ## What the process keeps -/

variable {s : State} {t : Single} {p q : System}

theorem State.mutOf_setMut (s : State) (x y : ℕ) (mu : Mut) :
    (s.setMut x mu).mutOf y = if y = x then mu else s.mutOf y := by
  by_cases h : y = x
  · subst h
    rw [if_pos rfl]
    unfold State.mutOf State.mutAt State.setMut
    simp only [update_self]
    cases s.inflight y <;> simp
  · rw [if_neg h]
    unfold State.mutOf State.mutAt State.setMut
    simp only [update_of_ne h]

theorem State.mutOf_publish (s : State) (x y : ℕ) (mu : Option Mut) :
    (s.publish x mu).mutOf y = if y = x then mu.getD (s.mutAt x) else s.mutOf y := by
  by_cases h : y = x
  · subst h
    rw [if_pos rfl]
    unfold State.mutOf State.mutAt State.publish
    simp only [update_self]
  · rw [if_neg h]
    unfold State.mutOf State.mutAt State.publish
    simp only [update_of_ne h]

theorem State.fill_eq (s : State) (x : ℕ) : s.fill x = { s with cache := (s.fill x).cache } := by
  unfold State.fill
  split <;> rfl

theorem State.mutOf_fill (s : State) (x y : ℕ) : (s.fill x).mutOf y = s.mutOf y := by
  unfold State.fill
  split
  · rfl
  · by_cases h : y = x
    · subst h
      unfold State.mutOf
      congr 1
      conv_lhs => rw [State.mutAt]
      simp only [update_self, if_pos]
    · unfold State.mutOf State.mutAt
      simp only [update_of_ne h]

/-- The invariant. -/
structure Coherent (p : System) : Prop where
  running : p.single.running = p.process.frames.map Frame.running
  stacked : Stacked p.process.frames
  published : ∀ x, (p.process.inflight x).isSome ↔ Hosted x p.process.frames
  cached : ∀ x cached, p.process.cache x = some cached →
    cached = (p.process.version x, p.process.committed x)
  saved : ∀ x mu, p.process.ckpt x = some mu → mu = p.single.store x
  /-- But for the code that is being left. -/
  latest : ∀ x, (p.process.unwinding.isSome → top p.process.frames ≠ some x) →
    view x (p.process.mutOf x) p.process.frames = p.single.store x
  left : ∀ x, p.process.unwinding.isSome → top p.process.frames = some x →
    p.process.left = p.single.store x
  answers : p.process.answers = p.single.answers

theorem coherent_init (muts : ℕ → Mut) : Coherent (System.init muts) where
  running := rfl
  stacked := .nil
  published _ := ⟨nofun, nofun⟩
  cached _ _ := nofun
  saved _ _ := nofun
  latest _ _ := rfl
  left _ := nofun
  answers := rfl

theorem Coherent.mutAt_eq (h : Coherent p) (x : ℕ) : p.process.mutAt x = p.process.committed x := by
  unfold State.mutAt
  split
  · next version cached hcache =>
    have heq := h.cached x _ hcache
    rw [Prod.mk.injEq] at heq
    rw [if_pos heq.1, heq.2]
  · rfl

/-- What is not in a host call is not published. -/
theorem Coherent.mutOf_eq (h : Coherent p) (hx : ¬ Hosted x p.process.frames) :
    p.process.mutOf x = p.process.committed x := by
  have hnone : p.process.inflight x = none := by
    rw [← Option.not_isSome_iff_eq_none, h.published]
    exact hx
  rw [State.mutOf, hnone]
  exact h.mutAt_eq x

theorem Coherent.agrees (h : Coherent p) : p.Agrees where
  answers := h.answers
  committed x hidle := by
    have hview := h.latest x fun _ htop => by
      obtain ⟨entry, compiled, mu, rest, hframes⟩ := exists_of_top htop
      rw [hframes] at hidle
      exact hidle List.mem_cons_self
    rw [view_of_idle h.stacked hidle, h.mutOf_eq (h.stacked.not_hosted hidle)] at hview
    exact hview

/-- With nothing unwinding the latest state is there of every instance. -/
theorem Coherent.view_eq (h : Coherent ⟨s, t⟩) (hn : s.unwinding = none) (x : ℕ) :
    view x (s.mutOf x) s.frames = t.store x := by
  apply h.latest x
  intro hsome
  rw [show (System.mk s t).process.unwinding = none from hn] at hsome
  cases hsome

/-- With nothing unwinding nothing is being left. -/
theorem not_left (hn : s.unwinding = none) (m : Mut) :
    ∀ x, s.unwinding.isSome → top fs = some x → m = t.store x := by
  intro x hsome
  rw [hn] at hsome
  cases hsome

theorem Coherent.fill (h : Coherent ⟨s, t⟩) (x : ℕ) : Coherent ⟨s.fill x, t⟩ := by
  have hcached : ∀ y cached, (s.fill x).cache y = some cached →
      cached = (s.version y, s.committed y) := by
    intro y cached hy
    unfold State.fill at hy
    split at hy
    · exact h.cached y cached hy
    · by_cases hyx : y = x
      · subst hyx
        simp only [update_self, Option.some.injEq] at hy
        rw [← hy, ← h.mutAt_eq y]
      · simp only [update_of_ne hyx] at hy
        exact h.cached y cached hy
  have hmut := s.mutOf_fill x
  rw [s.fill_eq x] at hmut ⊢
  exact ⟨h.running, h.stacked, h.published, hcached, h.saved,
    fun y hy => by rw [hmut y]; exact h.latest y hy, h.left, h.answers⟩

/-! ## Steps -/

theorem view_put {entry : Entry} {compiled : Bool} (mu mu' : Mut) (hne : y ≠ x) :
    view y pub (.guest entry compiled x mu' :: fs) =
      view y pub (.guest entry compiled x mu :: fs) := by
  rw [view, view, if_neg hne.symm, if_neg hne.symm]

theorem coherent_write {w : Write} (h : Coherent ⟨s, t⟩) (hn : s.unwinding = none) {s' : State}
    (hs : s.write w = some s') : Coherent ⟨s', t.step (.write w)⟩ := by
  unfold State.write at hs
  split at hs
  · next entry compiled x mu fs hframes =>
    cases hs
    have hview := h.view_eq hn
    have hrunning := h.running
    have hstacked := h.stacked
    have hpublished := h.published
    dsimp only at hview hrunning hstacked hpublished
    rw [hframes] at hview hrunning hstacked hpublished
    have hmu : mu = t.store x := by
      rw [← hview x, view, if_pos rfl]
    rw [List.map_cons, Frame.running] at hrunning
    have hstep : t.step (.write w) = { t with store := update t.store x (w.apply (t.store x)) } := by
      rw [Single.step, hrunning]
    rw [hstep]
    refine ⟨hrunning, hstacked.put _, hpublished, h.cached, ?_, ?_, not_left hn _, h.answers⟩
    · intro y mu' hy
      by_cases hyx : y = x
      · subst hyx
        simp only [update_self, Option.some.injEq] at hy ⊢
        rw [← hy, hmu]
      · simp only [update_of_ne hyx] at hy ⊢
        exact h.saved y mu' hy
    · intro y _
      by_cases hyx : y = x
      · subst hyx
        simp only [update_self]
        rw [view, if_pos rfl, hmu]
      · simp only [update_of_ne hyx]
        rw [view_put mu _ hyx]
        exact hview y
  · cases hs

theorem coherent_read {r : Read} (h : Coherent ⟨s, t⟩) (hn : s.unwinding = none) {s' : State}
    (hs : s.read r = some s') : Coherent ⟨s', t.step (.read r)⟩ := by
  unfold State.read at hs
  split at hs
  · next entry compiled x mu fs hframes =>
    cases hs
    have hview := h.view_eq hn x
    have hrunning := h.running
    dsimp only at hview hrunning
    rw [hframes] at hview hrunning
    rw [view, if_pos rfl] at hview
    rw [List.map_cons, Frame.running] at hrunning
    have hstep : t.step (.read r) = { t with answers := t.answers ++ [(t.store x).answer r] } := by
      rw [Single.step, hrunning]
    rw [hstep]
    have hanswers : s.answers = t.answers := h.answers
    refine ⟨h.running, h.stacked, h.published, h.cached, h.saved, h.latest, h.left, ?_⟩
    dsimp only
    rw [hanswers, hview]
  · cases hs

/-- What `mut/1` answers of an instance that is fresh. -/
theorem Coherent.mutOf_of_fresh (h : Coherent ⟨s, t⟩) (hn : s.unwinding = none) (hx : s.Fresh x) :
    s.mutOf x = t.store x := by rw [← h.view_eq hn x, hx]

theorem coherent_ctxRead {r : Read} (h : Coherent ⟨s, t⟩) (hn : s.unwinding = none)
    (hfresh : s.ContextFresh) {s' : State} (hs : s.ctxRead r = some s') :
    Coherent ⟨s', t.step (.ctxRead r)⟩ := by
  unfold State.ContextFresh at hfresh
  unfold State.ctxRead at hs
  split at hs
  · next x prev entry compiled y mine fs hframes =>
    cases hs
    have hview := h.view_eq hn x
    have hrunning : t.running = s.frames.map Frame.running := h.running
    have hstacked : Stacked s.frames := h.stacked
    rw [hframes] at hview hrunning hstacked hfresh
    have hcaller : y = x := by
      cases hstacked with
      | host _ hcaller => exact Option.some.inj hcaller
    rw [view, if_pos rfl] at hview
    rw [List.map_cons, List.map_cons, Frame.running, Frame.running, hcaller] at hrunning
    have hstep : t.step (.ctxRead r) =
        { t with answers := t.answers ++ [(t.store x).answer r] } := by
      rw [Single.step, hrunning]
    rw [hstep]
    have hanswers : s.answers = t.answers := h.answers
    have hmine : mine = s.mutOf x := hfresh
    refine ⟨h.running, h.stacked, h.published, h.cached, h.saved, h.latest, h.left, ?_⟩
    dsimp only
    rw [hanswers, hmine, hview]
  · cases hs

theorem coherent_hostRead {r : Read} (h : Coherent ⟨s, t⟩) (hn : s.unwinding = none)
    (hx : s.Fresh x) {s' : State} (hs : s.hostRead x r = some s') :
    Coherent ⟨s', t.step (.hostRead x r)⟩ := by
  unfold State.hostRead at hs
  split at hs
  · cases hs
    have hfill := h.fill x
    have hanswers : s.answers = t.answers := h.answers
    refine ⟨hfill.running, hfill.stacked, hfill.published, hfill.cached, hfill.saved,
      hfill.latest, hfill.left, ?_⟩
    show s.answers ++ [(s.mutOf x).answer r] = t.answers ++ [(t.store x).answer r]
    rw [hanswers, h.mutOf_of_fresh hn hx]
  · cases hs

/-- Code is entered with the latest state. -/
theorem coherent_enter {entry : Entry} {compiled : Bool} (h : Coherent ⟨s, t⟩)
    (hn : s.unwinding = none) (hx : s.Fresh x)
    (hstacked : Stacked (.guest entry compiled x (s.mutOf x) :: s.frames)) :
    Coherent ⟨{ s.fill x with frames := .guest entry compiled x (s.mutOf x) :: s.frames },
      { t with running := some x :: t.running }⟩ := by
  have hfill := h.fill x
  have hview := h.view_eq hn
  have hrunning : t.running = s.frames.map Frame.running := h.running
  have hnone : (s.fill x).unwinding = none := by rw [s.fill_eq]; exact hn
  refine ⟨?_, hstacked, ?_, hfill.cached, hfill.saved, ?_, not_left hnone _, ?_⟩
  · show some x :: t.running = some x :: s.frames.map Frame.running
    rw [hrunning]
  · intro y
    have hpublished := hfill.published y
    rw [s.fill_eq x] at hpublished ⊢
    exact hpublished
  · intro y _
    show view y ((s.fill x).mutOf y) (.guest entry compiled x (s.mutOf x) :: s.frames) = t.store y
    rw [s.mutOf_fill, view]
    split
    · next hxy =>
      subst hxy
      exact h.mutOf_of_fresh hn hx
    · exact hview y
  · have hanswers := hfill.answers
    exact hanswers

theorem coherent_invoke {toplevel compiled : Bool} (h : Coherent ⟨s, t⟩) (hn : s.unwinding = none)
    (hx : s.Fresh x) {s' : State} (hs : s.invoke x toplevel compiled = some s') :
    Coherent ⟨s', t.step (.invoke x toplevel compiled)⟩ := by
  unfold State.invoke at hs
  split at hs
  · cases hs
    exact coherent_enter h hn hx (.enter h.stacked nofun)
  · cases hs

theorem coherent_callRef (h : Coherent ⟨s, t⟩) (hn : s.unwinding = none)
    (hx : s.Fresh x) {s' : State} (hs : s.callRef x = some s') :
    Coherent ⟨s', t.step (.callRef x)⟩ := by
  unfold State.callRef at hs
  split at hs
  · next entry compiled y mu fs hframes =>
    split at hs
    · cases hs
    · cases hs
      exact coherent_enter h hn hx (.enter h.stacked nofun)
  · cases hs

theorem coherent_callHost (h : Coherent ⟨s, t⟩) (hn : s.unwinding = none) {s' : State}
    (hs : s.callHost = some s') : Coherent ⟨s', t.step .callHost⟩ := by
  unfold State.callHost at hs
  split at hs
  · next entry compiled x mu fs hframes =>
    cases hs
    have hview := h.view_eq hn
    have hmu : mu = t.store x := by
      have hx := hview x
      rw [hframes, view, if_pos rfl] at hx
      exact hx
    have hcaller : top s.frames = some x := by rw [hframes, top]
    have hrunning : t.running = s.frames.map Frame.running := h.running
    refine ⟨?_, .host h.stacked hcaller (h.published x), ?_, h.cached, h.saved, ?_,
      not_left hn _, h.answers⟩
    · show none :: t.running = none :: s.frames.map Frame.running
      rw [hrunning]
    · intro y
      show (update s.inflight x (some mu) y).isSome ↔ x = y ∨ Hosted y s.frames
      by_cases hyx : y = x
      · subst hyx
        rw [update_self]
        exact ⟨fun _ => .inl rfl, fun _ => rfl⟩
      · rw [update_of_ne hyx]
        have hpublished : (s.inflight y).isSome ↔ Hosted y s.frames := h.published y
        rw [hpublished]
        exact ⟨.inr, fun hor => hor.resolve_left (Ne.symm hyx)⟩
    · intro y _
      show view y ((s.publish x (some mu)).mutOf y) (.host x (s.inflight x) :: s.frames) = t.store y
      rw [s.mutOf_publish, view]
      by_cases hyx : y = x
      · subst hyx
        rw [if_pos rfl, if_pos rfl]
        exact hmu
      · rw [if_neg (Ne.symm hyx), if_neg hyx]
        exact hview y
  · cases hs

/-- What a host call leaves published is what was published before it. -/
theorem published_of_prev {prev : Option Mut} (h : Coherent ⟨s, t⟩)
    (hframes : s.frames = .host x prev :: fs) (y : ℕ) :
    (update s.inflight x prev y).isSome ↔ Hosted y fs := by
  have hstacked : Stacked s.frames := h.stacked
  have hpublished : (s.inflight y).isSome ↔ Hosted y s.frames := h.published y
  rw [hframes] at hstacked hpublished
  cases hstacked with
  | host _ _ hprev =>
    by_cases hyx : y = x
    · subst hyx
      rw [update_self]
      exact hprev
    · rw [update_of_ne hyx, hpublished]
      exact ⟨fun hor => hor.resolve_left (Ne.symm hyx), .inr⟩

theorem coherent_hostReturn (h : Coherent ⟨s, t⟩) (hn : s.unwinding = none) {s' : State}
    (hs : s.hostReturn = some s') : Coherent ⟨s', t.step .hostReturn⟩ := by
  unfold State.hostReturn at hs
  split at hs
  · next x prev entry compiled y mine fs hframes =>
    cases hs
    have hpublished := published_of_prev h hframes
    have hview := h.view_eq hn
    have hrunning : t.running = s.frames.map Frame.running := h.running
    have hstacked : Stacked s.frames := h.stacked
    have hsome : (s.inflight x).isSome := (h.published x).mpr (by
      show Hosted x s.frames
      rw [hframes]
      exact .inl rfl)
    rw [hframes] at hview hrunning hstacked
    have hcaller : y = x := by
      cases hstacked with
      | host _ hcaller => exact Option.some.inj hcaller
    subst hcaller
    -- what is adopted is what is published
    have hadopt : (if (s.inflight y).getD mine = mine then mine else (s.inflight y).getD mine) =
        s.mutOf y := by
      obtain ⟨mu, hmu⟩ := Option.isSome_iff_exists.mp hsome
      rw [State.mutOf, hmu, Option.getD_some, Option.getD_some]
      split
      · next heq => exact heq.symm
      · rfl
    have hlatest : s.mutOf y = t.store y := by
      rw [← hview y, view, if_pos rfl]
    dsimp only
    rw [hadopt]
    refine ⟨?_, hstacked.tail.put _, hpublished, h.cached, h.saved, ?_, not_left hn _, h.answers⟩
    · show t.running.tail = some y :: fs.map Frame.running
      rw [hrunning]
      rfl
    · intro z _
      show view z ((s.publish y prev).mutOf z) (.guest entry compiled y (s.mutOf y) :: fs) =
        t.store z
      rw [s.mutOf_publish, view]
      by_cases hzy : z = y
      · subst hzy
        rw [if_pos rfl]
        exact hlatest
      · have hz := hview z
        rw [view, view, if_neg (Ne.symm hzy), if_neg (Ne.symm hzy)] at hz
        rw [if_neg (Ne.symm hzy), if_neg hzy]
        exact hz
  · cases hs

theorem coherent_cross (h : Coherent ⟨s, t⟩) (hn : s.unwinding = none) {s' : State}
    (hs : s.cross = some s') : Coherent ⟨s', t.step .cross⟩ := by
  unfold State.cross at hs
  split at hs
  · next entry compiled x mu fs hframes =>
    cases hs
    have hview := h.view_eq hn
    have hrunning : t.running = s.frames.map Frame.running := h.running
    have hcaller : top s.frames = some x := by rw [hframes, top]
    refine ⟨?_, .crossing h.stacked hcaller, h.published, h.cached, h.saved, ?_, not_left hn _,
      h.answers⟩
    · show t.running.head?.join :: t.running = some x :: s.frames.map Frame.running
      rw [hrunning, hframes]
      rfl
    · intro y _
      show view y (s.mutOf y) (.guest .crossing (!compiled) x mu :: s.frames) = t.store y
      have hy := hview y
      rw [view]
      split
      · next hxy =>
        rw [hframes, view, if_pos hxy] at hy
        exact hy
      · exact hy
  · cases hs

/-! ## Returns -/

/-- A committed state is what is published too, if anything is. -/
theorem Coherent.setMut (h : Coherent ⟨s, t⟩) (x : ℕ) (mu : Mut)
    (hview : ∀ y, (s.unwinding.isSome → top s.frames ≠ some y) →
      view y (if y = x then mu else s.mutOf y) s.frames = t.store y) :
    Coherent ⟨s.setMut x mu, t⟩ := by
  refine ⟨h.running, h.stacked, ?_, ?_, h.saved, ?_, h.left, h.answers⟩
  · intro y
    show (update s.inflight x ((s.inflight x).map fun _ => mu) y).isSome ↔ Hosted y s.frames
    have hpublished : (s.inflight y).isSome ↔ Hosted y s.frames := h.published y
    by_cases hyx : y = x
    · subst hyx
      rw [update_self, Option.isSome_map]
      exact hpublished
    · rw [update_of_ne hyx]
      exact hpublished
  · intro y cached
    show update s.cache x (some (s.version x + 1, mu)) y = some cached →
      cached = (update s.version x (s.version x + 1) y, update s.committed x mu y)
    by_cases hyx : y = x
    · subst hyx
      rw [update_self, update_self, update_self]
      exact fun hcached => (Option.some.inj hcached).symm
    · rw [update_of_ne hyx, update_of_ne hyx, update_of_ne hyx]
      exact h.cached y cached
  · intro y hy
    rw [State.mutOf_setMut]
    exact hview y hy

/-- Leaving code whose instance has its latest state below, or published, or committed. -/
theorem Coherent.pop {entry : Entry} {compiled : Bool} {unwinding : Option Exit} {left : Mut}
    (h : Coherent ⟨s, t⟩) (hframes : s.frames = .guest entry compiled x mu :: fs)
    (hx : view x (s.mutOf x) fs = t.store x)
    (hleft : ∀ y, unwinding.isSome → top fs = some y →
      view y (s.mutOf y) fs = t.store y → left = t.store y) :
    Coherent ⟨{ s with frames := fs, unwinding := unwinding, left := left },
      { t with running := t.running.tail }⟩ := by
  have hrunning : t.running = s.frames.map Frame.running := h.running
  have hstacked : Stacked s.frames := h.stacked
  have hpublished := h.published
  have hlatest := h.latest
  dsimp only at hpublished hlatest
  rw [hframes] at hrunning hstacked hpublished hlatest
  have hview (y : ℕ) : view y (s.mutOf y) fs = t.store y := by
    by_cases hyx : y = x
    · subst hyx
      exact hx
    · have hy := hlatest y fun _ htop => hyx (Option.some.inj htop).symm
      rwa [view, if_neg (Ne.symm hyx)] at hy
  refine ⟨?_, hstacked.tail, hpublished, h.cached, h.saved, fun y _ => hview y, ?_, h.answers⟩
  · show t.running.tail = fs.map Frame.running
    rw [hrunning]
    rfl
  · exact fun y hsome htop => hleft y hsome htop (hview y)

/-- The code below threads the latest state. -/
theorem threaded_eq {left : Mut} (htop : top fs = some x) (hx : view x pub fs = mu) :
    State.threaded fs left = mu := by
  obtain ⟨entry, compiled, mu', rest, rfl⟩ := exists_of_top htop
  rw [view, if_pos rfl] at hx
  exact hx

theorem settle_eq (s : State) (x : ℕ) :
    s.settle x false = { s with ckpt := update s.ckpt x none } := by
  unfold State.settle
  split
  · next hnone =>
    have hsame : update s.ckpt x none = s.ckpt := by rw [← hnone, update_eq_self]
    rw [hsame]
  · rfl

theorem Coherent.settled (h : Coherent ⟨s, t⟩) (x : ℕ) : Coherent ⟨s.settle x false, t⟩ := by
  rw [settle_eq]
  refine ⟨h.running, h.stacked, h.published, h.cached, ?_, h.latest, h.left, h.answers⟩
  intro y mu
  show update s.ckpt x none y = some mu → mu = t.store y
  by_cases hyx : y = x
  · subst hyx
    rw [update_self]
    nofun
  · rw [update_of_ne hyx]
    exact h.saved y mu

theorem coherent_ret (h : Coherent ⟨s, t⟩) (hn : s.unwinding = none) (hret : s.ReturnsFresh)
    {s' : State} (hs : s.ret = some s') : Coherent ⟨s', t.step .ret⟩ := by
  have hview := h.view_eq hn
  have hstacked : Stacked s.frames := h.stacked
  unfold State.ReturnsFresh at hret
  unfold State.ret at hs
  split at hs
  · next stored toplevel compiled x mu fs hframes =>
    cases hs
    rw [hframes] at hview hret
    have hmu : mu = t.store x := by rw [← hview x, view, if_pos rfl]
    dsimp only at hret
    -- written back, or as it was read
    have hback : Coherent ⟨if mu = stored then s else s.setMut x mu, t⟩ ∧
        view x ((if mu = stored then s else s.setMut x mu).mutOf x) fs = t.store x ∧
        (if mu = stored then s else s.setMut x mu).frames =
          .guest (.invoke stored toplevel) compiled x mu :: fs ∧
        (if mu = stored then s else s.setMut x mu).unwinding = none := by
      split
      · next heq =>
        rw [if_pos heq] at hret
        exact ⟨h, hret.trans hmu, hframes, hn⟩
      · next hne =>
        rw [if_neg hne] at hret
        refine ⟨h.setMut x mu fun y _ => ?_, ?_, hframes, hn⟩
        · rw [hframes]
          split
          · next hyx =>
            subst hyx
            rw [view, if_pos rfl]
            exact hmu
          · exact hview y
        · rw [State.mutOf_setMut, if_pos rfl]
          exact hret.trans hmu
    obtain ⟨hcoherent, hlatest, hsame, hnone⟩ := hback
    generalize (if mu = stored then s else s.setMut x mu) = s1 at hcoherent hlatest hsame hnone ⊢
    have hsettled := hcoherent.settled x
    rw [settle_eq] at hsettled ⊢
    exact hsettled.pop hsame hlatest fun y hsome => by
      dsimp only at hsome
      rw [hnone] at hsome
      cases hsome
  · next compiled x mu fs hframes =>
    cases hs
    rw [hframes] at hview hret
    have hmu : mu = t.store x := by rw [← hview x, view, if_pos rfl]
    have hset := h.setMut x mu fun y _ => by
      rw [hframes]
      split
      · next hyx =>
        subst hyx
        rw [view, if_pos rfl]
        exact hmu
      · exact hview y
    have hlatest : view x ((s.setMut x mu).mutOf x) fs = t.store x := by
      rw [State.mutOf_setMut, if_pos rfl]
      exact hret.trans hmu
    exact hset.pop hframes hlatest fun y hsome => by
      have hsome : s.unwinding.isSome := hsome
      rw [hn] at hsome
      cases hsome
  · next compiled x mu entry compiled' x' mu' fs hframes =>
    cases hs
    have hrunning : t.running = s.frames.map Frame.running := h.running
    have hpublished := h.published
    dsimp only at hpublished
    rw [hframes] at hview hstacked hrunning hpublished
    have hcaller : x' = x := by
      cases hstacked with
      | enter _ hentry => exact absurd rfl hentry
      | crossing _ hcaller => exact Option.some.inj hcaller
    subst hcaller
    refine ⟨?_, hstacked.tail.put mu, hpublished, h.cached, h.saved, ?_, not_left hn _, h.answers⟩
    · show t.running.tail = some x' :: fs.map Frame.running
      rw [hrunning]
      rfl
    · intro y _
      show view y (s.mutOf y) (.guest entry compiled' x' mu :: fs) = t.store y
      have hy := hview y
      rw [view] at hy ⊢
      by_cases hyx : x' = y
      · rw [if_pos hyx] at hy ⊢
        exact hy
      · rw [if_neg hyx, view, if_neg hyx] at hy
        rw [if_neg hyx]
        exact hy
  · cases hs

/-! ## Exits -/

/-- What starts to unwind changes nothing. -/
theorem coherent_raise (h : Coherent ⟨s, t⟩) (hn : s.unwinding = none) (exit : Exit) :
    Coherent ⟨{ s with unwinding := some exit, left := State.threaded s.frames s.left }, t⟩ :=
  ⟨h.running, h.stacked, h.published, h.cached, h.saved, fun x _ => h.view_eq hn x,
    fun x _ htop => threaded_eq htop (h.view_eq hn x), h.answers⟩

/-- An invocation that fails is settled with the last change of its instance, if that is kept. -/
theorem coherent_settle (h : Coherent ⟨s, t⟩) (htop : top s.frames = some x)
    (hu : s.unwinding.isSome) :
    Coherent ⟨s.settle x true, t⟩ ∧ (s.settle x true).mutOf x = (s.ckpt x).getD (s.mutOf x) ∧
      (s.settle x true).frames = s.frames ∧ (s.settle x true).left = s.left := by
  unfold State.settle
  split
  · next hckpt =>
    rw [hckpt]
    exact ⟨h, rfl, rfl, rfl⟩
  · next mu hckpt =>
    have herased := h.settled x
    rw [settle_eq] at herased
    rw [hckpt]
    refine ⟨herased.setMut x mu fun y hy => ?_, ?_, rfl, rfl⟩
    · have hne : y ≠ x := fun hyx => hy hu (hyx ▸ htop)
      rw [if_neg hne]
      exact herased.latest y hy
    · show (State.setMut _ x mu).mutOf x = mu
      rw [State.mutOf_setMut, if_pos rfl]

theorem coherent_unwind {exit : Exit} (h : Coherent ⟨s, t⟩) (hu : s.unwinding = some exit)
    (hleaves : s.LeavesFresh) {s' : State} (hs : s.unwind exit = some s') :
    Coherent ⟨s', t.step .unwind⟩ := by
  have hsome : s.unwinding.isSome := by rw [hu]; rfl
  have hrunning : t.running = s.frames.map Frame.running := h.running
  have hstacked : Stacked s.frames := h.stacked
  have hpublished := h.published
  have hlatest := h.latest
  have hleft : ∀ x, top s.frames = some x → s.left = t.store x := fun x => h.left x hsome
  dsimp only at hpublished hlatest
  unfold State.LeavesFresh at hleaves
  unfold State.unwind at hs
  split at hs
  · next stored toplevel compiled x mu fs hframes =>
    cases hs
    have htop : top s.frames = some x := by rw [hframes, top]
    obtain ⟨hcoherent, hmut, hsame, -⟩ := coherent_settle h htop hsome
    rw [hframes] at hleaves hsame
    have hx : view x ((s.settle x true).mutOf x) fs = t.store x := by
      rw [hmut, ← hleft x htop]
      exact hleaves
    exact hcoherent.pop hsame hx fun y _ htop hview => threaded_eq htop hview
  · next compiled x mu fs hframes =>
    cases hs
    have htop : top s.frames = some x := by rw [hframes, top]
    rw [hframes] at hleaves
    have hx : view x (s.mutOf x) fs = t.store x := by
      rw [← hleft x htop]
      exact hleaves
    exact h.pop hframes hx fun y _ htop hview => threaded_eq htop hview
  · next compiled x mu fs hframes =>
    cases hs
    rw [hframes] at hstacked hrunning hpublished hlatest hleft
    cases hstacked with
    | enter _ hentry => exact absurd rfl hentry
    | crossing hrest hcaller =>
      refine ⟨?_, hrest, hpublished, h.cached, h.saved, ?_, ?_, h.answers⟩
      · show t.running.tail = fs.map Frame.running
        rw [hrunning]
        rfl
      · -- the code that called goes on being left
        intro y hy
        have hne : x ≠ y := fun hxy => hy hsome (hxy ▸ hcaller)
        have hview := hlatest y fun _ htop => hne (Option.some.inj htop)
        rwa [view, if_neg hne] at hview
      · intro y _ htop
        have hxy : x = y := Option.some.inj (hcaller.symm.trans htop)
        exact hleft y (congrArg some hxy)
  · next x prev fs hframes =>
    cases hs
    have hprev := published_of_prev h hframes
    have hinflight : (s.inflight x).isSome := (h.published x).mpr (by
      show Hosted x s.frames
      rw [hframes]
      exact .inl rfl)
    rw [hframes] at hstacked hrunning hlatest
    cases hstacked with
    | host hrest hcaller =>
      refine ⟨?_, hrest, hprev, h.cached, h.saved, ?_, ?_, h.answers⟩
      · show t.running.tail = fs.map Frame.running
        rw [hrunning]
        rfl
      · intro y hy
        have hne : x ≠ y := fun hxy => hy hsome (hxy ▸ hcaller)
        have hview := hlatest y fun _ => nofun
        rw [view, if_neg hne] at hview
        show view y ((s.publish x prev).mutOf y) fs = t.store y
        rw [State.mutOf_publish, if_neg (Ne.symm hne)]
        exact hview
      · intro y _ htop
        obtain rfl := Option.some.inj (hcaller.symm.trans htop)
        have hview := hlatest x fun _ => nofun
        obtain ⟨mu, hmu⟩ := Option.isSome_iff_exists.mp hinflight
        rw [view, if_pos rfl, State.mutOf, hmu] at hview
        show (s.inflight x).getD s.left = t.store x
        rw [hmu]
        exact hview
  · cases hs

theorem coherent_handle {exit : Exit} (h : Coherent ⟨s, t⟩) (hu : s.unwinding = some exit)
    (hhandles : s.HandlesFresh) {s' : State} (hs : s.handle exit = some s') :
    Coherent ⟨s', t.step .handle⟩ := by
  unfold State.HandlesFresh at hhandles
  unfold State.handle at hs
  split at hs
  · next entry x mu fs hframes =>
    cases hs
    rw [hframes] at hhandles
    have hleft : s.left = t.store x := by
      apply h.left x
      · show s.unwinding.isSome
        rw [hu]
        rfl
      · show top s.frames = some x
        rw [hframes, top]
    refine ⟨h.running, h.stacked, h.published, h.cached, h.saved, ?_, nofun, h.answers⟩
    intro y _
    show view y (s.mutOf y) s.frames = t.store y
    by_cases hyx : y = x
    · subst hyx
      rw [hframes, view, if_pos rfl]
      exact hhandles.trans hleft
    · apply h.latest y
      intro _ htop
      have htop : top s.frames = some y := htop
      rw [hframes] at htop
      exact hyx (Option.some.inj htop).symm
  · cases hs

end ErlangWasm.Calls
