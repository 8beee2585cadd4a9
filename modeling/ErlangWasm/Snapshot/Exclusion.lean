import ErlangWasm.Snapshot.Leases

/-!
# Capture, call and destroy exclude one another

The exchange that takes the state is what makes a capture alone, and the order of its two steps
against the two of `enter_call/1` is what makes a call and a capture see each other.  A destroy that
finds the instance taken leaves a mark for the end of the capture to read.  The mark is read there
only: a capture attempt that is refused opens the instance again without reading it, and a mark put
after the last reader of it has gone by is read by nobody.
-/

namespace ErlangWasm.Snapshot.Leases

open Reasoning Reasoning.Atomics

namespace Proc

/-- The state is taken on this process's behalf. -/
def Owns (q : Proc) : Prop :=
  q.captures = true ∨ q.pc = .captureReaders ∨ q.pc = .capturePut

/-- In `end_capture/1`, past the exchange that gave the instance back. -/
def Ends (q : Proc) : Prop :=
  q.pc = .endWanted ∨ q.pc = .endDestroying

instance (q : Proc) : Decidable q.Ends := by
  unfold Ends
  infer_instance

/-- What one process adds to the count of readers: its leases, and one while `enter_call/1` has
added itself and not yet answered. -/
def count (q : Proc) : ℕ :=
  q.leases + match q.pc with
    | .enterState => 1
    | .enterSub _ => 1
    | _ => 0

/-- What holds of one process on its own. -/
structure Local (q : Proc) : Prop where
  leaving : q.pc = .leaveSub → 1 ≤ q.leases
  ending : q.pc = .endExchange → q.captures = true
  taking : q.pc = .captureReaders ∨ q.pc = .capturePut → q.captures = false

theorem attempts_iff (q : Proc) : q.Attempts ↔ q.Owns ∨ q.Ends := by
  unfold Attempts Owns Ends
  tauto

theorem Owns.attempts {q : Proc} (h : q.Owns) : q.Attempts := q.attempts_iff.mpr (.inl h)

theorem Ends.attempts {q : Proc} (h : q.Ends) : q.Attempts := q.attempts_iff.mpr (.inr h)

end Proc

variable {P : Type} [DecidableEq P] {f : P → Proc} {p : P} {q : Proc}

/-! ## Who owns the state -/

/-- The state is capturing when somebody owns it, and then it is one process that does. -/
structure Owned (state : Snap) (f : P → Proc) : Prop where
  owner : state = .snapCapturing → ∃ p, (f p).Owns
  taken : ∀ p, (f p).Owns → state = .snapCapturing
  unique : ∀ p q, (f p).Owns → (f q).Owns → p = q

theorem Owned.same {state : Snap} (h : Owned state f) (hq : q.Owns ↔ (f p).Owns) :
    Owned state (Function.update f p q) := by
  have hiff : ∀ r, (Function.update f p q r).Owns ↔ (f r).Owns := by
    intro r
    by_cases hr : r = p
    · rw [hr, Function.update_self]
      exact hq
    · rw [Function.update_of_ne hr]
  constructor
  · intro hs
    obtain ⟨r, hr⟩ := h.owner hs
    exact ⟨r, (hiff r).mpr hr⟩
  · intro r hr
    exact h.taken r ((hiff r).mp hr)
  · intro r t hr ht
    exact h.unique r t ((hiff r).mp hr) ((hiff t).mp ht)

/-- The exchange of `begin_capture/1` succeeds. -/
theorem Owned.take (h : Owned .snapOpen f) (hq : q.Owns) :
    Owned .snapCapturing (Function.update f p q) := by
  have hother : ∀ r, (Function.update f p q r).Owns → r = p := by
    intro r hr
    by_contra hne
    rw [Function.update_of_ne hne] at hr
    have hstate := h.taken r hr
    simp at hstate
  constructor
  · intro _
    exact ⟨p, by rw [Function.update_self]; exact hq⟩
  · intro _ _
    rfl
  · intro r t hr ht
    rw [hother r hr, hother t ht]

/-- The owner leaves, and the state is something else. -/
theorem Owned.free {state state' : Snap} (h : Owned state f) (hp : (f p).Owns) (hq : ¬ q.Owns)
    (hstate : state' ≠ .snapCapturing) : Owned state' (Function.update f p q) := by
  have hnone : ∀ r, ¬ (Function.update f p q r).Owns := by
    intro r hr
    by_cases hne : r = p
    · rw [hne, Function.update_self] at hr
      exact hq hr
    · rw [Function.update_of_ne hne] at hr
      exact hne (h.unique r p hr hp)
  constructor
  · intro hs
    exact absurd hs hstate
  · intro r hr
    exact absurd hr (hnone r)
  · intro r _ hr
    exact absurd hr (hnone r)

omit [DecidableEq P] in
/-- A state nobody owns may be anything nobody owns. -/
theorem Owned.other {state state' : Snap} (h : Owned state f) (hs : state ≠ .snapCapturing)
    (hs' : state' ≠ .snapCapturing) : Owned state' f := by
  constructor
  · intro hs
    exact absurd hs hs'
  · intro r hr
    exact absurd (h.taken r hr) hs
  · exact h.unique

/-! ## What the count of readers counts -/

/-- The leases that are out, and those being asked for, are all in the cell. -/
structure Counted (readers : ℕ) (f : P → Proc) : Prop where
  sum : SumLe (fun p => (f p).count) readers
  lt : readers < wordSize

theorem count_update_ne {r : P} (hr : r ≠ p) : (Function.update f p q r).count = (f r).count := by
  rw [Function.update_of_ne hr]

theorem Counted.same {readers : ℕ} (h : Counted readers f) (hq : q.count ≤ (f p).count) :
    Counted readers (Function.update f p q) := by
  refine ⟨h.sum.mono (fun r => ?_) le_rfl, h.lt⟩
  by_cases hr : r = p
  · rw [hr, Function.update_self]
    exact hq
  · rw [count_update_ne hr]

theorem Counted.add {readers : ℕ} (h : Counted readers f) (hq : q.count ≤ (f p).count + 1)
    (hlt : readers + 1 < wordSize) : Counted (addGet readers 1) (Function.update f p q) := by
  rw [addGet_of_lt hlt]
  refine ⟨h.sum.add_one p ?_ (fun r hr => (count_update_ne hr).le), hlt⟩
  rw [Function.update_self]
  exact hq

theorem Counted.sub {readers : ℕ} (h : Counted readers f) (hq : q.count + 1 ≤ (f p).count) :
    Counted (subGet readers 1) (Function.update f p q) := by
  have hone : 1 ≤ readers := by
    have hle := h.sum.apply_le p
    omega
  have hlt := h.lt
  rw [subGet_of_le hone hlt]
  refine ⟨h.sum.sub_one p ?_ (fun r hr => (count_update_ne hr).le), by omega⟩
  rw [Function.update_self]
  exact hq

omit [DecidableEq P] in
theorem Counted.none_out (h : Counted 0 f) (p : P) : (f p).leases = 0 := by
  have hle := h.sum.apply_le p
  have hcount : (f p).leases ≤ (f p).count := Nat.le_add_right _ _
  omega

/-! ## The invariant -/

/-- Nobody has a lease beside a capture. -/
def Alone (f : P → Proc) : Prop :=
  ∀ p, (f p).captures = true → ∀ q, (f q).leases = 0

/-- How far the destroys have got: whether one was told, whether the mark is set, and who is still
to read it. -/
structure Destroys (s : State P) : Prop where
  told : s.told = if s.state = .snapDestroying then 1 else 0
  wanted : s.Deferred ↔ s.destroyWanted = true
  heard : s.destroyWanted = true → s.state = .snapDestroying ∨ ∃ p, (s.procs p).Attempts

structure Inv (s : State P) : Prop where
  locals : ∀ p, (s.procs p).Local
  owned : Owned s.state s.procs
  counted : Counted s.readers s.procs
  alone : Alone s.procs
  destroys : Destroys s

variable {s : State P}

omit [DecidableEq P] in
theorem inv_init : Inv (State.init : State P) := by
  constructor
  · intro p
    constructor <;> simp [State.init]
  · constructor <;> simp [State.init, Proc.Owns]
  · refine ⟨(SumLe.zero 0).mono (fun p => ?_) le_rfl, ?_⟩
    · simp [State.init, Proc.count]
    · show 0 < wordSize
      unfold wordSize
      exact Nat.two_pow_pos 64
  · intro p hp
    simp [State.init] at hp
  · constructor <;> simp [State.init, State.told, State.Deferred]

theorem forall_update {Q : Proc → Prop} (hf : ∀ r, Q (f r)) (hq : Q q) :
    ∀ r, Q (Function.update f p q r) := by
  rw [Function.forall_update_iff (p := fun _ x => Q x)]
  exact ⟨hq, fun r _ => hf r⟩

/-- A process that gains neither a capture nor a lease leaves everybody as alone as before. -/
theorem Alone.same (h : Alone f) (hc : q.captures = true → (f p).captures = true)
    (hl : q.leases ≤ (f p).leases) : Alone (Function.update f p q) := by
  have hcap : ∀ r, (Function.update f p q r).captures = true → (f r).captures = true := by
    intro r hr
    by_cases hrp : r = p
    · rw [hrp, Function.update_self] at hr
      rw [hrp]
      exact hc hr
    · rwa [Function.update_of_ne hrp] at hr
  intro r hr
  have hzero := h r (hcap r hr)
  have hq : q.leases = 0 := by
    have hp := hzero p
    omega
  exact forall_update (Q := fun x => x.leases = 0) hzero hq

omit [DecidableEq P] in
theorem told_cons {s s' : State P} {op : Op} {a : Answer}
    (h : s'.answers = (p, op, a) :: s.answers) (ha : a.tellsDestroy = false) :
    s'.told = s.told := by
  unfold State.told
  rw [h, List.countP_cons_of_neg (by simp [ha])]

omit [DecidableEq P] in
theorem deferred_cons {s s' : State P} {op : Op} {a : Answer}
    (h : s'.answers = (p, op, a) :: s.answers) (ha : a ≠ .deferred) :
    s'.Deferred ↔ s.Deferred := by
  unfold State.Deferred
  rw [h]
  refine exists_congr fun r => ?_
  rw [List.mem_cons]
  refine ⟨fun hr => hr.resolve_left fun heq => ?_, .inr⟩
  cases heq
  exact ha rfl

/-- A step that leaves the state word and the mark as they are and tells nobody anything about a
destroy. -/
theorem Inv.pass {s' : State P} (h : Inv s) (hprocs : s'.procs = Function.update s.procs p q)
    (hstate : s'.state = s.state) (hwanted : s'.destroyWanted = s.destroyWanted)
    (hanswers : s'.answers = s.answers ∨ ∃ op a, s'.answers = (p, op, a) :: s.answers ∧
      a.tellsDestroy = false ∧ a ≠ .deferred)
    (hlocal : q.Local) (howns : q.Owns ↔ (s.procs p).Owns) (halone : Alone s'.procs)
    (hcounted : Counted s'.readers s'.procs)
    (hheard : s.destroyWanted = true → s.state ≠ .snapDestroying →
      ∃ r, (Function.update s.procs p q r).Attempts) : Inv s' := by
  constructor
  · rw [hprocs]
    exact forall_update h.locals hlocal
  · rw [hprocs, hstate]
    exact h.owned.same howns
  · exact hcounted
  · exact halone
  · constructor
    · rw [hstate, ← h.destroys.told]
      rcases hanswers with hsame | ⟨op, a, hcons, htells, -⟩
      · unfold State.told
        rw [hsame]
      · exact told_cons hcons htells
    · rw [hwanted, ← h.destroys.wanted]
      rcases hanswers with hsame | ⟨op, a, hcons, -, hne⟩
      · unfold State.Deferred
        rw [hsame]
      · exact deferred_cons hcons hne
    · intro hw
      rw [hwanted] at hw
      rw [hprocs, hstate]
      by_cases hs : s.state = .snapDestroying
      · exact .inl hs
      · exact .inr (hheard hw hs)

/-- Somebody stays to read the mark when `p` goes on attempting whatever it attempted. -/
theorem Inv.still (h : Inv s) (hatt : (s.procs p).Attempts → q.Attempts)
    (hw : s.destroyWanted = true) (hs : s.state ≠ .snapDestroying) :
    ∃ r, (Function.update s.procs p q r).Attempts := by
  obtain ⟨r, hr⟩ := (h.destroys.heard hw).resolve_left hs
  refine ⟨r, ?_⟩
  by_cases hrp : r = p
  · rw [hrp, Function.update_self]
    rw [hrp] at hr
    exact hatt hr
  · rwa [Function.update_of_ne hrp]

/-- A step that only takes `p` from one point to another. -/
theorem Inv.goOn (h : Inv s) {pc : Pc} (hlocal : ({ s.procs p with pc := pc } : Proc).Local)
    (howns : ({ s.procs p with pc := pc } : Proc).Owns ↔ (s.procs p).Owns)
    (hcount : ({ s.procs p with pc := pc } : Proc).count ≤ (s.procs p).count)
    (hatt : (s.procs p).Attempts → ({ s.procs p with pc := pc } : Proc).Attempts) :
    Inv (s.goto p pc) :=
  h.pass rfl rfl rfl (.inl rfl) hlocal howns (h.alone.same id le_rfl) (h.counted.same hcount)
    (h.still hatt)

/-! ## One step at a time -/

theorem Inv.call (h : Inv s) {op : Op} (hidle : (s.procs p).pc = .idle)
    (hop : op.Permitted (s.procs p)) : Inv (s.goto p op.entry) := by
  have hlocal : ({ s.procs p with pc := op.entry } : Proc).Local := by
    constructor
    · intro hpc
      cases op <;> simp [Op.entry] at hpc
      exact hop
    · intro hpc
      cases op <;> simp [Op.entry] at hpc
      exact hop
    · intro hpc
      cases op <;> simp [Op.entry] at hpc
  have howns : ({ s.procs p with pc := op.entry } : Proc).Owns ↔ (s.procs p).Owns := by
    cases op <;> simp [Proc.Owns, Op.entry, hidle]
  have hcount : ({ s.procs p with pc := op.entry } : Proc).count ≤ (s.procs p).count := by
    cases op <;> simp [Proc.count, Op.entry, hidle]
  refine h.goOn hlocal howns hcount fun hatt => ?_
  have hno : ¬ (s.procs p).Ends := by simp [Proc.Ends, hidle]
  exact (howns.mpr (((s.procs p).attempts_iff.mp hatt).resolve_right hno)).attempts

theorem Inv.enterAdd (h : Inv s) (hpc : (s.procs p).pc = .enterAdd)
    (hlt : s.readers + 1 < wordSize) {c : ℕ} (hc : c = addGet s.readers 1) :
    Inv ((s.putReaders c).goto p .enterState) := by
  have hcount : ({ s.procs p with pc := .enterState } : Proc).count ≤ (s.procs p).count + 1 := by
    simp [Proc.count, hpc]
  have hcounted : Counted c (Function.update s.procs p { s.procs p with pc := .enterState }) := by
    rw [hc]
    exact h.counted.add hcount hlt
  refine h.pass rfl rfl rfl (.inl rfl) (by constructor <;> simp) (by simp [Proc.Owns, hpc])
    (h.alone.same id le_rfl) hcounted (h.still fun hatt => ?_)
  simpa [Proc.Attempts, hpc] using hatt

theorem Inv.allowCall (h : Inv s) (hpc : (s.procs p).pc = .enterState)
    (hs : s.state = .snapOpen) : Inv (s.allowCall p) := by
  -- nobody has a capture while the state is open
  have halone : Alone (s.allowCall p).procs := by
    intro r hr
    have hcap : (s.procs r).captures = true := by
      by_cases hrp : r = p <;>
        simpa [State.allowCall, State.answer, State.goto, State.setProc, hrp] using hr
    have htaken := h.owned.taken r (.inl hcap)
    rw [hs] at htaken
    cases htaken
  have hprocs := s.allowCall_procs p
  have hcounted : Counted (s.allowCall p).readers (s.allowCall p).procs := by
    rw [hprocs]
    apply h.counted.same
    simp [Proc.count, hpc]
  refine h.pass hprocs rfl rfl (.inr ⟨_, _, rfl, rfl, by simp⟩) (by constructor <;> simp)
    (by simp [Proc.Owns, hpc]) halone hcounted (h.still fun hatt => ?_)
  simpa [Proc.Attempts, hpc] using hatt

theorem Inv.enterRefused (h : Inv s) (hpc : (s.procs p).pc = .enterState) (state : Snap) :
    Inv (s.goto p (.enterSub state)) := by
  apply h.goOn
  · constructor <;> simp
  · simp [Proc.Owns, hpc]
  · simp [Proc.count, hpc]
  · simp [Proc.Attempts, hpc]

theorem Inv.enterSub (h : Inv s) {state : Snap} (hpc : (s.procs p).pc = .enterSub state) {c : ℕ}
    (hc : c = subGet s.readers 1) :
    Inv ((s.putReaders c).answer p .enterCall (refusal state)) := by
  have hcount : ({ s.procs p with pc := .idle } : Proc).count + 1 ≤ (s.procs p).count := by
    simp [Proc.count, hpc]
  have hcounted : Counted c (Function.update s.procs p { s.procs p with pc := .idle }) := by
    rw [hc]
    exact h.counted.sub hcount
  have hrefusal : (refusal state).tellsDestroy = false ∧ refusal state ≠ .deferred := by
    cases state <;> simp [refusal, Answer.tellsDestroy]
  refine h.pass rfl rfl rfl (.inr ⟨_, _, rfl, hrefusal⟩) (by constructor <;> simp)
    (by simp [Proc.Owns, hpc]) (h.alone.same id le_rfl) hcounted (h.still fun hatt => ?_)
  simpa [Proc.Attempts, hpc] using hatt

theorem Inv.leaveCall (h : Inv s) (hpc : (s.procs p).pc = .leaveSub) {c : ℕ}
    (hc : c = subGet s.readers 1) : Inv (s.leaveCall p c) := by
  have hone := (h.locals p).leaving hpc
  have hprocs := s.leaveCall_procs p c
  have hcounted : Counted c (s.leaveCall p c).procs := by
    rw [hprocs, hc]
    apply h.counted.sub
    simp only [Proc.count, hpc]
    omega
  have halone : Alone (s.leaveCall p c).procs := by
    rw [hprocs]
    exact h.alone.same id (Nat.sub_le _ _)
  refine h.pass hprocs rfl rfl (.inr ⟨_, _, rfl, rfl, by simp⟩) (by constructor <;> simp)
    (by simp [Proc.Owns, hpc]) halone hcounted (h.still fun hatt => ?_)
  simpa [Proc.Attempts, hpc] using hatt

theorem Inv.captureRefused (h : Inv s) (hpc : (s.procs p).pc = .captureExchange) {a : Answer}
    (ha : a.tellsDestroy = false ∧ a ≠ .deferred) : Inv (s.answer p .beginCapture a) := by
  have hcount : ({ s.procs p with pc := .idle } : Proc).count ≤ (s.procs p).count := by
    simp [Proc.count, hpc]
  refine h.pass rfl rfl rfl (.inr ⟨_, _, rfl, ha⟩) (by constructor <;> simp)
    (by simp [Proc.Owns, hpc]) (h.alone.same id le_rfl) (h.counted.same hcount)
    (h.still fun hatt => ?_)
  simpa [Proc.Attempts, hpc] using hatt

/-- The readers' cell was zero at the read that follows the exchange, so nobody has a lease. -/
theorem Inv.allowCapture (h : Inv s) (hpc : (s.procs p).pc = .captureReaders)
    (hzero : s.readers = 0) : Inv (s.allowCapture p) := by
  have hnone : ∀ r, (s.procs r).leases = 0 := by
    have hcounted := h.counted
    rw [hzero] at hcounted
    exact hcounted.none_out
  have hprocs := s.allowCapture_procs p
  have hcounted : Counted (s.allowCapture p).readers (s.allowCapture p).procs := by
    rw [hprocs]
    apply h.counted.same
    simp [Proc.count, hpc]
  have halone : Alone (s.allowCapture p).procs := by
    rw [hprocs]
    intro _ _
    exact forall_update (Q := fun x => x.leases = 0) hnone (hnone p)
  refine h.pass hprocs rfl rfl (.inr ⟨_, _, rfl, rfl, by simp⟩) (by constructor <;> simp)
    (by simp [Proc.Owns, hpc]) halone hcounted (h.still fun _ => ?_)
  simp [Proc.Attempts]

theorem Inv.captureBusy (h : Inv s) (hpc : (s.procs p).pc = .captureReaders) :
    Inv (s.goto p .capturePut) := by
  have hcaptures := (h.locals p).taking (.inl hpc)
  apply h.goOn
  · constructor <;> simp [hcaptures]
  · simp [Proc.Owns, hpc]
  · simp [Proc.count, hpc]
  · simp [Proc.Attempts]

theorem Inv.endRead (h : Inv s) (hpc : (s.procs p).pc = .endWanted) :
    Inv (s.goto p .endDestroying) := by
  apply h.goOn
  · constructor <;> simp
  · simp [Proc.Owns, hpc]
  · simp [Proc.count, hpc]
  · simp [Proc.Attempts]

/-- `end_capture/1` answers `ok`: nothing was wanted, or somebody else has the state. -/
theorem Inv.endOk (h : Inv s) (hpc : (s.procs p).Ends)
    (hleft : s.destroyWanted = true → s.state ≠ .snapOpen) :
    Inv (s.answer p .endCapture .ok) := by
  have hcount : ({ s.procs p with pc := .idle } : Proc).count ≤ (s.procs p).count := by
    simp [Proc.count]
  have howns : ({ s.procs p with pc := .idle } : Proc).Owns ↔ (s.procs p).Owns := by
    rcases hpc with hpc | hpc <;> simp [Proc.Owns, hpc]
  refine h.pass rfl rfl rfl (.inr ⟨_, _, rfl, rfl, by simp⟩) (by constructor <;> simp) howns
    (h.alone.same id le_rfl) (h.counted.same hcount) (fun hw hs => ?_)
  -- the state is taken, and whoever took it goes on
  have hcapturing : s.state = .snapCapturing := by
    have hne := hleft hw
    cases hst : s.state <;> simp_all
  obtain ⟨r, hr⟩ := (h.owned.same howns).owner hcapturing
  exact ⟨r, hr.attempts⟩

theorem Inv.destroyLate (h : Inv s) (hpc : (s.procs p).pc = .destroyExchange) :
    Inv (s.goto p .destroyPut) := by
  apply h.goOn
  · constructor <;> simp
  · simp [Proc.Owns, hpc]
  · simp [Proc.count, hpc]
  · simp [Proc.Attempts, hpc]

/-! ### The steps that write the state word or the mark -/

theorem Inv.captureTake (h : Inv s) (hpc : (s.procs p).pc = .captureExchange)
    (hs : s.state = .snapOpen) :
    Inv ({ s with state := .snapCapturing }.goto p .captureReaders) := by
  have howned : Owned .snapOpen s.procs := hs ▸ h.owned
  have hcount : ({ s.procs p with pc := .captureReaders } : Proc).count ≤ (s.procs p).count := by
    simp [Proc.count, hpc]
  -- nobody has the instance while the state is open, this process included
  have hcaptures : (s.procs p).captures = false := by
    by_contra hne
    have htaken := howned.taken p (.inl (by simpa using hne))
    simp at htaken
  constructor
  · apply forall_update h.locals
    constructor <;> simp [hcaptures]
  · exact howned.take (.inr (.inl rfl))
  · exact h.counted.same hcount
  · exact h.alone.same id le_rfl
  · constructor
    · have htold := h.destroys.told
      rw [hs] at htold
      exact htold
    · exact h.destroys.wanted
    · intro _
      refine .inr ⟨p, ?_⟩
      show (Function.update s.procs p { s.procs p with pc := .captureReaders } p).Attempts
      rw [Function.update_self]
      exact .inr (.inl rfl)

/-- `p` gives the state back, and somebody is left to read the mark if it is set. -/
theorem Inv.reopen (h : Inv s) {s' : State P} (hprocs : s'.procs = Function.update s.procs p q)
    (hstate : s'.state = .snapOpen) (hreaders : s'.readers = s.readers)
    (hwanted : s'.destroyWanted = s.destroyWanted) (htold : s'.told = s.told)
    (hdef : s'.Deferred ↔ s.Deferred) (hp : (s.procs p).Owns) (hq : ¬ q.Owns) (hlocal : q.Local)
    (hcap : q.captures = false) (hleases : q.leases = (s.procs p).leases)
    (hcount : q.count ≤ (s.procs p).count)
    (hheard : s.destroyWanted = true → ∃ r, (Function.update s.procs p q r).Attempts) : Inv s' := by
  have hs : s.state = .snapCapturing := h.owned.taken p hp
  constructor
  · rw [hprocs]
    exact forall_update h.locals hlocal
  · rw [hprocs, hstate]
    exact h.owned.free hp hq (by simp)
  · rw [hprocs, hreaders]
    exact h.counted.same hcount
  · rw [hprocs]
    exact h.alone.same (by simp [hcap]) hleases.le
  · constructor
    · rw [htold, hstate, h.destroys.told, hs]
      rfl
    · rw [hwanted, hdef]
      exact h.destroys.wanted
    · intro hw
      rw [hwanted] at hw
      rw [hprocs]
      exact .inr (hheard hw)

theorem Inv.capturePut (h : Inv s) (hpc : (s.procs p).pc = .capturePut)
    (hheard : s.destroyWanted = false ∨ ∃ r, (s.procs r).Ends) :
    Inv ({ s with state := .snapOpen }.answer p .beginCapture .busy) := by
  have hcaptures := (h.locals p).taking (.inr hpc)
  have hleft : s.destroyWanted = true →
      ∃ r, (Function.update s.procs p { s.procs p with pc := .idle } r).Attempts := by
    intro hw
    obtain ⟨r, hr⟩ := hheard.resolve_left (by simp [hw])
    have hrp : r ≠ p := by
      rintro rfl
      simp [Proc.Ends, hpc] at hr
    refine ⟨r, ?_⟩
    rw [Function.update_of_ne hrp]
    exact hr.attempts
  refine h.reopen (p := p) (q := { s.procs p with pc := .idle }) rfl rfl rfl rfl ?_ ?_ ?_ ?_ ?_ ?_
    ?_ ?_ hleft
  · exact told_cons rfl rfl
  · exact deferred_cons rfl (by simp)
  · exact .inr (.inr hpc)
  · simp [Proc.Owns, hcaptures]
  · constructor <;> simp
  · exact hcaptures
  · rfl
  · simp [Proc.count]

theorem Inv.giveBack (h : Inv s) (hpc : (s.procs p).pc = .endExchange) : Inv (s.giveBack p) := by
  have howns : (s.procs p).Owns := .inl ((h.locals p).ending hpc)
  have hs : s.state = .snapCapturing := h.owned.taken p howns
  refine h.reopen (p := p) (q := { s.procs p with captures := false, pc := .endWanted }) rfl ?_ ?_
    ?_ ?_ ?_ ?_ ?_ ?_ ?_ ?_ ?_ ?_
  · simp [State.giveBack, State.setProc, hs]
  · rfl
  · rfl
  · rfl
  · rfl
  · exact howns
  · simp [Proc.Owns]
  · constructor <;> simp
  · rfl
  · rfl
  · simp [Proc.count]
  · intro _
    refine ⟨p, ?_⟩
    rw [Function.update_self]
    simp [Proc.Attempts]

theorem Inv.tellDestroy (h : Inv s) {op : Op} {a : Answer} (hs : s.state = .snapOpen)
    (hp : ¬ (s.procs p).Owns → ¬ ({ s.procs p with pc := .idle } : Proc).Owns)
    (ha : a.tellsDestroy = true ∧ a ≠ .deferred) : Inv (s.tellDestroy p op a) := by
  have hno : ∀ r, ¬ (s.procs r).Owns := by
    intro r hr
    have htaken := h.owned.taken r hr
    rw [hs] at htaken
    simp at htaken
  have howns : ({ s.procs p with pc := .idle } : Proc).Owns ↔ (s.procs p).Owns :=
    iff_of_false (hp (hno p)) (hno p)
  constructor
  · apply forall_update h.locals
    constructor <;> simp
  · apply (h.owned.same howns).other (by simp [hs])
    show Snap.snapDestroying ≠ .snapCapturing
    simp
  · apply h.counted.same
    simp [Proc.count]
  · exact h.alone.same id le_rfl
  · constructor
    · have htold : s.told = 0 := by
        rw [h.destroys.told, hs]
        rfl
      have hcount : (s.tellDestroy p op a).told = s.told + 1 :=
        List.countP_cons_of_pos (by simp [ha.1])
      rw [hcount, htold]
      rfl
    · exact (deferred_cons rfl ha.2).trans h.destroys.wanted
    · intro _
      exact .inl rfl

theorem Inv.destroyPut (h : Inv s) (hpc : (s.procs p).pc = .destroyPut)
    (hheard : s.state ≠ .snapOpen ∨ ∃ r, (s.procs r).Ends) :
    Inv ({ s with destroyWanted := true }.answer p .beginDestroy .deferred) := by
  have howns : ({ s.procs p with pc := .idle } : Proc).Owns ↔ (s.procs p).Owns := by
    simp [Proc.Owns, hpc]
  have hreads : s.state = .snapDestroying ∨ ∃ r, (s.procs r).Attempts := by
    rcases hheard with hs | ⟨r, hr⟩
    · cases hst : s.state with
      | snapOpen => exact absurd hst hs
      | snapCapturing =>
        obtain ⟨r, hr⟩ := h.owned.owner hst
        exact .inr ⟨r, hr.attempts⟩
      | snapDestroying => exact .inl rfl
    · exact .inr ⟨r, hr.attempts⟩
  constructor
  · apply forall_update h.locals
    constructor <;> simp
  · exact h.owned.same howns
  · apply h.counted.same
    simp [Proc.count]
  · exact h.alone.same id le_rfl
  · constructor
    · have htold := h.destroys.told
      rw [← @told_cons _ p s ({ s with destroyWanted := true }.answer p .beginDestroy .deferred)
        .beginDestroy .deferred rfl rfl] at htold
      exact htold
    · exact iff_of_true ⟨p, List.mem_cons_self⟩ rfl
    · intro _
      rcases hreads with hs | ⟨r, hr⟩
      · exact .inl hs
      · refine .inr ⟨r, ?_⟩
        show (Function.update s.procs p { s.procs p with pc := .idle } r).Attempts
        by_cases hrp : r = p
        · rw [hrp, Function.update_self]
          rw [hrp] at hr
          simpa [Proc.Attempts, hpc] using hr
        · rwa [Function.update_of_ne hrp]

/-! ## Runs -/

/-- The condition on one step.  A lease is asked for while the readers' cell has room.  The state is
opened again by a refused capture, and the mark is put on an open instance, only when no mark is
there to be lost or an `end_capture/1` is still to come to it. -/
def Heard (s : State P) : Act P → Prop
  | .call _ _ => True
  | .tick p => match (s.procs p).pc with
      | .enterAdd => s.readers + 1 < wordSize
      | .capturePut => s.destroyWanted = false ∨ ∃ r, (s.procs r).Ends
      | .destroyPut => s.state ≠ .snapOpen ∨ ∃ r, (s.procs r).Ends
      | _ => True

theorem Inv.tick (h : Inv s) {s' : State P} (hok : Heard s (.tick p))
    (hstep : s.tick p (s.procs p).pc = some s') : Inv s' := by
  cases hpc : (s.procs p).pc <;> simp only [Heard, hpc] at hok <;>
    simp only [State.tick, hpc] at hstep
  case idle => cases hstep
  case enterAdd =>
    cases hstep
    exact h.enterAdd hpc hok rfl
  case enterState =>
    split at hstep <;> cases hstep
    · rename_i hs
      exact h.allowCall hpc hs
    · exact h.enterRefused hpc _
  case enterSub =>
    cases hstep
    exact h.enterSub hpc rfl
  case leaveSub =>
    cases hstep
    exact h.leaveCall hpc rfl
  case captureExchange =>
    split at hstep <;> cases hstep
    · rename_i hs
      exact h.captureTake hpc hs
    · exact h.captureRefused hpc (by simp [Answer.tellsDestroy])
    · exact h.captureRefused hpc (by simp [Answer.tellsDestroy])
  case captureReaders =>
    split at hstep <;> cases hstep
    · rename_i hzero
      exact h.allowCapture hpc hzero
    · exact h.captureBusy hpc
  case capturePut =>
    cases hstep
    exact h.capturePut hpc hok
  case endExchange =>
    cases hstep
    exact h.giveBack hpc
  case endWanted =>
    split at hstep <;> cases hstep
    · exact h.endRead hpc
    · rename_i hw
      exact h.endOk (.inl hpc) fun hwanted => absurd hwanted hw
  case endDestroying =>
    split at hstep <;> cases hstep
    · rename_i hs
      exact h.tellDestroy hs (by simp [Proc.Owns, hpc]) (by simp [Answer.tellsDestroy])
    · rename_i hs
      exact h.endOk (.inr hpc) fun _ => hs
  case destroyExchange =>
    split at hstep <;> cases hstep
    · rename_i hs
      exact h.tellDestroy hs (by simp [Proc.Owns, hpc]) (by simp [Answer.tellsDestroy])
    · exact h.destroyLate hpc
  case destroyPut =>
    cases hstep
    exact h.destroyPut hpc hok

theorem Inv.step {s' : State P} {a : Act P} (h : Inv s) (hok : Heard s a)
    (hstep : step s a = some s') : Inv s' := by
  cases a with
  | call p op =>
    rw [Leases.step] at hstep
    split at hstep
    · rename_i hcan
      cases hstep
      exact h.call hcan.1 hcan.2
    · cases hstep
  | tick p => exact h.tick hok hstep

theorem inv_of_heard (h : Run.ReachableIf Leases.step Heard State.init s) : Inv s :=
  h.invariant Inv inv_init fun _ _ _ hs hok hstep => hs.step hok hstep

/-! ## What the invariant says -/

/-- Only an open instance lets a lease out. -/
theorem leases_le {s' : State P} {a : Act P} (hs : s.state ≠ .snapOpen)
    (hstep : step s a = some s') (r : P) : (s'.procs r).leases ≤ (s.procs r).leases := by
  have hupdate : ∀ p (x : Proc), x.leases ≤ (s.procs p).leases →
      (Function.update s.procs p x r).leases ≤ (s.procs r).leases := by
    intro p x hx
    by_cases hrp : r = p
    · rw [hrp, Function.update_self]
      exact hx
    · rw [Function.update_of_ne hrp]
  cases a with
  | call p op =>
    rw [Leases.step] at hstep
    split at hstep <;> cases hstep
    exact hupdate p _ le_rfl
  | tick p =>
    rw [Leases.step] at hstep
    unfold State.tick at hstep
    -- what the cells hold is not looked at
    generalize addGet s.readers 1 = c, subGet s.readers 1 = d at hstep
    cases hpc : (s.procs p).pc <;> simp only [hpc] at hstep <;>
      (try split at hstep) <;> cases hstep
    case tick.leaveSub.refl =>
      rw [State.leaveCall_procs]
      exact hupdate p _ (Nat.sub_le _ _)
    case tick.captureReaders.isTrue.refl =>
      rw [State.allowCapture_procs]
      exact hupdate p _ le_rfl
    case tick.enterState.isTrue.refl h => exact absurd h hs
    all_goals exact hupdate p _ le_rfl

theorem Inv.excludes (h : Inv s) : s.Excludes := by
  intro p hp
  have hzero := h.alone p hp
  refine ⟨hzero, fun a s' hstep r => ?_⟩
  have hs : s.state ≠ .snapOpen := by
    rw [h.owned.taken p (.inl hp)]
    simp
  have hle := leases_le hs hstep r
  have hr := hzero r
  omega

omit [DecidableEq P] in
theorem Inv.told_le (h : Inv s) : s.told ≤ 1 := by
  rw [h.destroys.told]
  split <;> omega

omit [DecidableEq P] in
theorem Inv.remembers (h : Inv s) : s.Remembers := by
  intro hdef hnone
  have hs : s.state = .snapDestroying := by
    refine (h.destroys.heard (h.destroys.wanted.mp hdef)).resolve_right ?_
    rintro ⟨r, hr⟩
    exact hnone r hr
  rw [h.destroys.told, if_pos hs]

/-- The condition leaves nothing out: a step of either kind that does not meet it forgets a destroy
at once. -/
theorem Inv.forgets {s' : State P} (h : Inv s) (hpc : (s.procs p).pc ≠ .enterAdd)
    (hnot : ¬ Heard s (.tick p)) (hstep : Leases.step s (.tick p) = some s') : ¬ s'.Remembers := by
  -- nobody but `p` is inside an attempt, and `p` is not once it has answered
  have hleft : ∀ q : Proc, ¬ q.Attempts → (∀ r, (s.procs r).Owns → r = p) →
      (¬ ∃ r, (s.procs r).Ends) → ∀ r, ¬ (Function.update s.procs p q r).Attempts := by
    intro q hq howns hends r
    by_cases hrp : r = p
    · rw [hrp, Function.update_self]
      exact hq
    · rw [Function.update_of_ne hrp, Proc.attempts_iff]
      rintro (hr | hr)
      · exact hrp (howns r hr)
      · exact hends ⟨r, hr⟩
  intro hrem
  cases hp : (s.procs p).pc <;> simp only [Heard, hp, not_true_eq_false] at hnot <;>
    simp only [Leases.step, State.tick, hp, Option.some.injEq] at hstep
  case enterAdd => exact hpc hp
  case capturePut =>
    rw [not_or, Bool.not_eq_false] at hnot
    subst hstep
    have howns : (s.procs p).Owns := .inr (.inr hp)
    have hcaptures := (h.locals p).taking (.inr hp)
    have hone := hrem
      ((deferred_cons rfl (by simp)).mpr (h.destroys.wanted.mpr hnot.1))
      (hleft _ (by simp [Proc.Attempts, hcaptures]) (fun r hr => h.owned.unique r p hr howns)
        hnot.2)
    have htold := @told_cons _ p s ({ s with state := .snapOpen }.answer p .beginCapture .busy)
      .beginCapture .busy rfl rfl
    rw [htold, h.destroys.told, h.owned.taken p howns] at hone
    simp at hone
  case destroyPut =>
    rw [not_or, not_not] at hnot
    subst hstep
    have hno : ∀ r, ¬ (s.procs r).Owns := by
      intro r hr
      have htaken := h.owned.taken r hr
      rw [hnot.1] at htaken
      simp at htaken
    have hidle : ¬ ({ s.procs p with pc := .idle } : Proc).Attempts := by
      have hp' := hno p
      simp only [Proc.Owns, hp, Proc.Attempts] at hp' ⊢
      simpa using hp'
    have hone := hrem ⟨p, List.mem_cons_self⟩
      (hleft _ hidle (fun r hr => absurd hr (hno r)) hnot.2)
    have htold := @told_cons _ p s ({ s with destroyWanted := true }.answer p .beginDestroy
      .deferred) .beginDestroy .deferred rfl rfl
    rw [htold, h.destroys.told, hnot.1] at hone
    simp at hone

theorem captureExcludes_of_heard (h : Run.ReachableIf step Heard State.init s) :
    s.Excludes ∧ s.told ≤ 1 ∧ s.Remembers := by
  have hinv := inv_of_heard h
  exact ⟨hinv.excludes, hinv.told_le, hinv.remembers⟩

instance [Fintype P] (s : State P) (a : Act P) : Decidable (Heard s a) := by
  unfold Heard
  split
  · infer_instance
  · split <;> infer_instance

/-- A run that has met the condition so far remembers a destroy after a step exactly when that step
meets it too. -/
theorem remembers_iff_heard (h : Run.ReachableIf step Heard State.init s) {s' : State P}
    (hpc : (s.procs p).pc ≠ .enterAdd) (hstep : step s (.tick p) = some s') :
    s'.Remembers ↔ Heard s (.tick p) := by
  have hinv := inv_of_heard h
  constructor
  · intro hrem
    by_contra hnot
    exact hinv.forgets hpc hnot hstep hrem
  · intro hok
    exact (hinv.step hok hstep).remembers

/-- A call is refused and a destroy put off while process 1 captures, and the end of the capture is
told to destroy. -/
def deferredDuringCapture : List (Act (Fin 3)) :=
  [.call 1 .beginCapture, .tick 1, .tick 1, .call 0 .enterCall, .tick 0, .tick 0, .tick 0,
    .call 2 .beginDestroy, .tick 2, .tick 2, .call 1 .endCapture, .tick 1, .tick 1, .tick 1]

theorem captureExcludes_deferred : ∃ s : State (Fin 3),
    Run.execIf step Heard deferredDuringCapture State.init = some s ∧
      (1, Op.endCapture, Answer.destroyNow) ∈ s.answers ∧
      s.Excludes ∧ s.told ≤ 1 ∧ s.Remembers := by
  have hrun : (Run.execIf step Heard deferredDuringCapture State.init).any (fun s =>
      decide ((1, Op.endCapture, Answer.destroyNow) ∈ s.answers)) = true := by decide +kernel
  obtain ⟨s, hs, htold⟩ := (Option.any_eq_true _ _).mp hrun
  exact ⟨s, hs, by simpa using htold, captureExcludes_of_heard (.of_execIf .init hs)⟩

/-- The capture is going to be refused, because process 0 is in a call, when the destroy meets
it. -/
def refusedOverDestroy : List (Act (Fin 3)) :=
  [.call 0 .enterCall, .tick 0, .tick 0, .call 1 .beginCapture, .tick 1,
    .call 2 .beginDestroy, .tick 2, .tick 2, .tick 1, .tick 1]

theorem remembers_iff_heard_refused : ∃ s s' : State (Fin 3),
    Run.execIf step Heard refusedOverDestroy.dropLast State.init = some s ∧
      step s (.tick 1) = some s' ∧ ¬ s'.Remembers := by
  have hrun : (Run.execIf step Heard refusedOverDestroy.dropLast State.init).any (fun s =>
      decide ((s.procs 1).pc ≠ .enterAdd) && decide (¬ Heard s (.tick 1)) &&
        (step s (.tick 1)).isSome) = true := by decide +kernel
  obtain ⟨s, hs, hlost⟩ := (Option.any_eq_true _ _).mp hrun
  simp only [Bool.and_eq_true, decide_eq_true_eq] at hlost
  obtain ⟨⟨hpc, hnot⟩, hsome⟩ := hlost
  obtain ⟨s', hs'⟩ := Option.isSome_iff_exists.mp hsome
  refine ⟨s, s', hs, hs', fun hrem => hnot ?_⟩
  exact (remembers_iff_heard (.of_execIf .init hs) hpc hs').mp hrem

theorem not_captureExcludes : ¬ ∀ s : State (Fin 3), Run.Reachable step State.init s →
    s.Excludes ∧ s.told ≤ 1 ∧ s.Remembers := by
  intro hall
  have hrun : (Run.exec step refusedOverDestroy State.init).any (fun s =>
      decide ((2, Op.beginDestroy, Answer.deferred) ∈ s.answers) && s.told == 0 &&
        decide (∀ p, (s.procs p).captures = false ∧ (s.procs p).pc = .idle)) = true := by
    decide +kernel
  obtain ⟨s, hs, hlost⟩ := (Option.any_eq_true _ _).mp hrun
  simp only [Bool.and_eq_true, decide_eq_true_eq, beq_iff_eq] at hlost
  obtain ⟨⟨hdef, htold⟩, hidle⟩ := hlost
  have hone := (hall s (Run.Reachable.of_exec .init hs)).2.2 ⟨2, hdef⟩ fun p hp => by
    have hat := hidle p
    simp [Proc.Attempts, hat.1, hat.2] at hp
  rw [htold] at hone
  simp at hone

end ErlangWasm.Snapshot.Leases
