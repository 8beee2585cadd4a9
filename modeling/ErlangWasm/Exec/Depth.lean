import ErlangWasm.Exec.Moves
import ErlangWasm.Reasoning.Run

/-!
# The depth of a nest

The depth is kept in the interpreter's state, in an argument of generated code and in the budget.
What whoever runs counts is the number of WebAssembly frames there are, but for one case: a host
function's caller writes its own depth into the budget and nobody takes it back, so that a host
function that calls in again counts the frames of an invocation that has ended.

`rel` is equality where the count is exact and `≤` where it is not.
-/

namespace ErlangWasm.Exec

open Reasoning

variable {L : Lang}

/-! ## Frames -/

def Level.frames : Level L → ℕ
  | .waiting _ pause _ => pause.config.frames.length
  | .generated .. => 1
  | .embedder => 0

def framesOf (below : List (Level L)) : ℕ := (below.map Level.frames).sum

/-- The WebAssembly frames that are active. -/
def Nest.frames (n : Nest L) : ℕ :=
  framesOf n.below + match n.running with
    | .wasm _ c => c.frames.length
    | .generated .. => 1
    | _ => 0

/-- The depth whoever runs counts; a host function that calls in begins at the budget's. -/
def Nest.depth (n : Nest L) : ℕ :=
  match n.running with
  | .wasm _ c => c.st.depth
  | .calling .. => n.budget.depth
  | .generated _ depth => depth + 1
  | .embedder => n.budget.depth
  | .done _ => 0

/-- The ceiling bounds the frames of the whole nest, and whoever runs counts them: what a caller
counts is the same before and after what it called, because the frames are. -/
def Nest.Counted (max : ℕ) (n : Nest L) : Prop :=
  n.frames ≤ max ∧ n.depth = n.frames

/-- The caller of what runs is a host function, and no call in between puts the depth back. -/
def exposed : List (Level L) → Bool
  | [] => false
  | .embedder :: _ => true
  | .waiting _ _ (some _) :: _ => false
  | .generated _ _ (some _) :: _ => false
  | _ :: below => exposed below

/-- A function of the embedder's, or a linked one, is called from an invocation. -/
def Nest.callsHost (p : Program L) (n : Nest L) : Act L → Bool
  | .step .. =>
      match n.running with
      | .wasm inv c =>
          match stackClause (p.inst n.budget inv) c with
          | .inr (.out ⟨.host _, _, _, _⟩) => true
          | _ => false
      | _ => false
  | _ => false

/-- The condition on one step: no host function is called from an invocation that a host function
started. -/
def Sheltered (p : Program L) (n : Nest L) (act : Act L) : Prop :=
  n.callsHost p act = true → exposed n.below = false

instance (p : Program L) (n : Nest L) (act : Act L) : Decidable (Sheltered p n act) :=
  inferInstanceAs (Decidable (_ → _))

/-! ## One invocation -/

/-- How frames and depth are compared. -/
structure Tracks (rel : ℕ → ℕ → Prop) : Prop where
  zero : rel 0 0
  succ : ∀ {a b}, rel (a + 1) (b + 1) ↔ rel a b
  le : ∀ {a b}, rel a b → a ≤ b

theorem tracks_eq : Tracks Eq := ⟨rfl, by simp, Nat.le_of_eq⟩

theorem tracks_le : Tracks (· ≤ ·) := ⟨Nat.le_refl 0, Nat.succ_le_succ_iff, id⟩

/-- The callers, and at the bottom the mark of the outermost. -/
def Stacked : List (CallFrame L) → Prop
  | [.toplevel] => True
  | .caller .. :: rest => Stacked rest
  | _ => False

/-- An invocation over so many frames. -/
structure Counts (rel : ℕ → ℕ → Prop) (max under : ℕ) (frames : List (CallFrame L)) (depth : ℕ) :
    Prop where
  stacked : Stacked frames
  counts : rel (under + frames.length) depth
  room : depth ≤ max

section
variable {rel : ℕ → ℕ → Prop} {max under depth : ℕ} {frames : List (CallFrame L)}
  {cont : Code L} {ctrl : List (Ctrl L)} {locals stack : List (Value L)}

theorem Counts.push (hrel : Tracks rel) (h : Counts rel max under frames depth)
    (hroom : depth < max) :
    Counts rel max under (.caller cont ctrl locals stack :: frames) (depth + 1) :=
  ⟨h.stacked, hrel.succ.mpr h.counts, hroom⟩

theorem Counts.pop (hrel : Tracks rel)
    (h : Counts rel max under (.caller cont ctrl locals stack :: frames) depth) :
    Counts rel max under frames (depth - 1) := by
  have hdepth := h.counts
  rw [List.length_cons, ← Nat.add_assoc] at hdepth
  have hpos := hrel.le hdepth
  have hle := h.room
  obtain ⟨d, rfl⟩ : ∃ d, depth = d + 1 := ⟨depth - 1, by omega⟩
  exact ⟨h.stacked, hrel.succ.mp hdepth, by omega⟩

theorem Counts.caught {inst : Inst L} {e : Exn L} {c' : Config L} (hrel : Tracks rel)
    (h : Counts rel max under frames depth) (hcaught : Caught inst e c' frames ctrl depth) :
    Counts rel max under c'.frames c'.st.depth := by
  induction hcaught with
  | here => exact h
  | caller _ _ ih => exact ih (h.pop hrel)

end

/-- Where one clause goes on, the count still tells the frames. -/
theorem Counts.goes {rel : ℕ → ℕ → Prop} {max under : ℕ} {inst : Inst L} {c c' : Config L}
    (hrel : Tracks rel) (hmax : inst.maxDepth = max)
    (h : Counts rel max under c.frames c.st.depth) (hgoes : Goes inst c c') :
    Counts rel max under c'.frames c'.st.depth := by
  have hkept : Kept c c' → Counts rel max under c'.frames c'.st.depth := by
    intro hkept
    rw [hkept.frames, hkept.depth]
    exact h
  cases hgoes with
  | next _ _ hk | body _ _ _ hk | finish _ _ _ hk | branch _ _ _ _ hk => exact hkept hk
  | loop _ _ _ hframes _ hdepth =>
    rw [hframes, hdepth]
    exact h
  | leave hleft =>
    obtain ⟨locals, stack, hframes⟩ := hleft.frames
    rw [hframes] at h
    rw [hleft.depth]
    exact h.pop hrel
  | enter _ _ hframes hdepth hentered _ =>
    obtain ⟨locals, stack, hcaller⟩ := hentered.frames
    have hroom := hentered.room
    rw [hdepth, hmax] at hroom
    rw [hcaller, hentered.depth, hframes, hdepth]
    exact h.push hrel hroom
  | tail _ _ _ hframes _ hdepth =>
    rw [hframes, hdepth]
    exact h
  | caught _ _ hcaught _ => exact h.caught hrel hcaught

/-! ## The levels below -/

/-- What holds below, where `depth` is what the budget says; a level that called through
`with_depth/2` has put away what the budget says below it. -/
def Deep (p : Program L) (rel : ℕ → ℕ → Prop) (max : ℕ) : ℕ → List (Level L) → Prop
  | _, [] => True
  | depth, .embedder :: below => rel (framesOf below) depth ∧ depth ≤ max ∧ Deep p rel max depth below
  | depth, .generated ref d restore :: below =>
      rel (framesOf below) d ∧ d + 1 ≤ max ∧ (p ref).maxDepth = max ∧
        Deep p rel max (restore.getD depth) below
  | depth, .waiting inv pause restore :: below =>
      Counts rel max (framesOf below) pause.config.frames pause.config.st.depth ∧
        (inv.code = true → (p inv.ref).maxDepth = max) ∧
        Deep p rel max (restore.getD depth) below

/-- The invariant. -/
structure Nest.Tells (p : Program L) (rel : ℕ → ℕ → Prop) (max : ℕ) (n : Nest L) : Prop where
  ceiling : n.budget.maxDepth = max
  below : Deep p rel max n.budget.depth n.below
  running : match n.running with
    | .wasm inv c => Counts rel max (framesOf n.below) c.frames c.st.depth ∧
        (inv.code = true → (p inv.ref).maxDepth = max)
    | .calling inv _ _ => rel (framesOf n.below) n.budget.depth ∧ n.budget.depth ≤ max ∧
        (inv.code = true → (p inv.ref).maxDepth = max)
    | .generated ref depth => rel (framesOf n.below) depth ∧ depth + 1 ≤ max ∧
        (p ref).maxDepth = max
    | .embedder => rel (framesOf n.below) n.budget.depth ∧ n.budget.depth ≤ max
    | .done _ => n.below = []

section
variable {p : Program L} {rel : ℕ → ℕ → Prop} {max : ℕ} {stores : Stores L} {limit : L.Reason}

/-- Another depth in the budget tells something else to the host functions that are exposed, and to
nobody else. -/
theorem Deep.raise {depth w : ℕ} {below : List (Level L)} (h : Deep p rel max depth below)
    (hrel : exposed below = true → ∀ a ≤ framesOf below, rel a w) (hw : w ≤ max) :
    Deep p rel max w below := by
  induction below with
  | nil => trivial
  | cons level below ih =>
    have hlevel : framesOf (level :: below) = level.frames + framesOf below := List.sum_cons
    cases level with
    | embedder =>
      obtain ⟨_, _, hbelow⟩ := h
      have hall := hrel rfl
      refine ⟨hall _ (by omega), hw, ih hbelow ?_⟩
      intro _ a ha
      exact hall a (by omega)
    | generated ref d restore =>
      obtain ⟨hd, hroom, hmax, hbelow⟩ := h
      cases restore with
      | some put => exact ⟨hd, hroom, hmax, hbelow⟩
      | none =>
        refine ⟨hd, hroom, hmax, ih hbelow ?_⟩
        intro hexposed a ha
        exact hrel hexposed a (by omega)
    | waiting inv pause restore =>
      obtain ⟨hcounts, hcode, hbelow⟩ := h
      cases restore with
      | some put => exact ⟨hcounts, hcode, hbelow⟩
      | none =>
        refine ⟨hcounts, hcode, ih hbelow ?_⟩
        intro hexposed a ha
        exact hrel hexposed a (by omega)

/-- Back in an invocation that waited, the count is what it was. -/
theorem Counts.returns {c : Config L} {under : ℕ} {fuel : Option ℕ} {x : Config L ⊕ Answer L}
    (hrel : Tracks rel) (h : Counts rel max under c.frames c.st.depth) (hx : Returns c fuel x)
    {c' : Config L} (heq : x = .inl c') : Counts rel max under c'.frames c'.st.depth := by
  subst heq
  cases hx with
  | on _ _ hframes _ hdepth =>
    rw [hframes, hdepth]
    exact h
  | leaves hleaves hframes _ hdepth =>
    obtain ⟨hleft⟩ := hleaves
    obtain ⟨locals, stack, hcaller⟩ := hleft.frames
    rw [← hframes, ← hdepth, hcaller] at h
    rw [hleft.depth]
    exact h.pop hrel

theorem Counts.resumed {inst : Inst L} {pause : Pause L} {under : ℕ} {ending : Ending L}
    {c' : Config L} (hrel : Tracks rel) (hmax : inst.maxDepth = max)
    (h : Counts rel max under pause.config.frames pause.config.st.depth)
    (heq : resume inst pause ending = .inl c') : Counts rel max under c'.frames c'.st.depth := by
  cases ending with
  | returned results mu fuel => exact h.returns hrel (resume_returns pause results mu fuel) heq
  | stopped o mu fuel => cases heq
  | threw e world =>
    rcases @resume_throws L inst pause e world with hthrows | ⟨a, ha, -⟩
    · rw [heq] at hthrows
      obtain ⟨hcaught, _⟩ := hthrows
      exact h.caught hrel hcaught
    · rw [ha] at heq
      cases heq
  | refused =>
    rcases @resume_refused L inst pause with ⟨c, hc, hentered, -⟩ | ⟨a, ha, -⟩
    · rw [hc] at heq
      cases heq
      obtain ⟨locals, stack, hcaller⟩ := hentered.frames
      rw [hcaller, hentered.depth]
      apply h.push hrel
      rw [← hmax]
      exact hentered.room
    · rw [ha] at heq
      cases heq

/-! ## The steps of a nest -/

/-- However what was running ends. -/
theorem settle_tells (hrel : Tracks rel) {b : Budget} {o : Outcome L} {below : List (Level L)}
    (hmax : b.maxDepth = max) (h : Deep p rel max b.depth below) :
    (settle p stores b o below).Tells p rel max := by
  induction below generalizing b o with
  | nil => exact ⟨hmax, trivial, rfl⟩
  | cons level below ih =>
    cases level with
    | embedder =>
      obtain ⟨hdepth, hle, hbelow⟩ := h
      exact ⟨hmax, hbelow, hdepth, hle⟩
    | generated ref d restore =>
      obtain ⟨hd, hroom, hceiling, hbelow⟩ := h
      rw [← Budget.restored_depth] at hbelow
      have hmax' : (b.restored restore).maxDepth = max := by rw [Budget.restored_maxDepth, hmax]
      unfold settle
      split
      · exact ⟨hmax', hbelow, hd, hroom, hceiling⟩
      · exact ⟨hmax', trivial, rfl⟩
      · exact ih hmax' hbelow
    | waiting inv pause restore =>
      obtain ⟨hcounts, hcode, hbelow⟩ := h
      rw [← Budget.restored_depth] at hbelow
      have hmax' : (b.restored restore).maxDepth = max := by rw [Budget.restored_maxDepth, hmax]
      unfold settle
      cases heq : resume (p.inst (b.restored restore) inv) pause
          (ending stores (b.restored restore) inv pause o) with
      | inl c =>
        simp only [heq]
        exact ⟨hmax', hbelow, hcounts.resumed hrel hmax' heq, hcode⟩
      | inr a =>
        simp only [heq]
        apply ih
        · rw [Budget.publish_maxDepth, hmax']
        · rw [Budget.publish_depth]
          exact hbelow

theorem answer_tells (hrel : Tracks rel) {b : Budget} {a : Answer L} {below : List (Level L)}
    (hmax : b.maxDepth = max) (h : Deep p rel max b.depth below) :
    (answer p stores b a below).Tells p rel max := by
  apply settle_tells hrel
  · rw [Budget.publish_maxDepth, hmax]
  · rw [Budget.publish_depth]
    exact h

theorem callHost_tells (hrel : Tracks rel) {b : Budget} {fuel : Option ℕ} {depth : ℕ}
    {linked : Option (L.Ref × ℕ)} {args : List (Value L)} {below : List (Level L)}
    (hmax : b.maxDepth = max) (h : Deep p rel max b.depth below)
    (hraised : Deep p rel max depth below) (hdepth : rel (framesOf below) depth)
    (hle : depth ≤ max) :
    (callHost p stores limit b fuel depth linked args below).Tells p rel max := by
  unfold callHost
  cases hcharge : b.chargeHostCall fuel depth with
  | none => exact settle_tells hrel hmax h
  | some b' =>
    obtain ⟨_, hd, _, hceiling, _⟩ := Budget.chargeHostCall_spec hcharge
    subst hd
    rw [← hceiling] at hmax
    cases linked with
    | none => exact ⟨hmax, hraised, hdepth, hle⟩
    | some target =>
      obtain ⟨ref, f⟩ := target
      exact ⟨hmax, hraised, hdepth, hle, nofun⟩

/-- A host function's caller writes its depth into the budget, for good. -/
def Heard (rel : ℕ → ℕ → Prop) (depth : ℕ) (pause : Pause L) (below : List (Level L)) : Prop :=
  ∀ f, pause.callee = .host f → exposed below = true → ∀ a ≤ framesOf below, rel a depth

theorem goOut_tells (hrel : Tracks rel) {held : Bool} {b : Budget} {inv : Invoked L}
    {pause : Pause L} {below : List (Level L)} (hmax : b.maxDepth = max)
    (h : Deep p rel max b.depth below)
    (hcounts : Counts rel max (framesOf below) pause.config.frames pause.config.st.depth)
    (hcode : inv.code = true → (p inv.ref).maxDepth = max)
    (hcompiled : ∀ f, pause.callee = .compiled f → inv.code = true ∧ pause.config.st.depth < max)
    (hheard : Heard rel pause.config.st.depth pause below) :
    (goOut p stores limit held b inv pause below).Tells p rel max := by
  have hframes : rel (framesOf (.waiting inv pause none :: below)) pause.config.st.depth := by
    have hsum : framesOf (.waiting inv pause none :: below) =
        pause.config.frames.length + framesOf below := List.sum_cons
    rw [hsum, Nat.add_comm]
    exact hcounts.counts
  unfold goOut
  cases hcallee : pause.callee with
  | compiled f =>
    obtain ⟨htrue, hroom⟩ := hcompiled f hcallee
    simp only
    split
    · exact ⟨hmax, ⟨hcounts, hcode, h⟩, hframes, hroom, hcode htrue⟩
    · cases heq : resume (p.inst b inv) pause .refused with
      | inl c => exact ⟨hmax, h, hcounts.resumed hrel hmax heq, hcode⟩
      | inr a => exact answer_tells hrel hmax h
  | foreign ref f => exact ⟨hmax, ⟨hcounts, hcode, h⟩, hframes, hcounts.room, nofun⟩
  | host f =>
    apply callHost_tells hrel hmax
    · exact ⟨hcounts, hcode, h⟩
    · exact ⟨hcounts, hcode, h.raise (hheard f hcallee) hcounts.room⟩
    · exact hframes
    · exact hcounts.room

theorem beginCall_tells (hrel : Tracks rel) {b : Budget} {inv : Invoked L} {f : ℕ}
    {args : List (Value L)} {below : List (Level L)} (hmax : b.maxDepth = max)
    (h : Deep p rel max b.depth below) (hdepth : rel (framesOf below) b.depth)
    (hle : b.depth ≤ max) (hcode : inv.code = true → (p inv.ref).maxDepth = max) :
    (beginCall p stores limit b inv f args below).Tells p rel max := by
  unfold beginCall
  split
  · exact settle_tells hrel hmax h
  · exact callHost_tells hrel hmax h h hdepth hle
  · split
    · exact settle_tells hrel hmax h
    · split
      · exact settle_tells hrel hmax h
      · rename_i hroom
        rw [hmax, Nat.not_le] at hroom
        refine ⟨hmax, h, ⟨trivial, hrel.succ.mpr hdepth, hroom⟩, ?_⟩
        intro htrue
        rw [Bool.and_eq_true] at htrue
        exact hcode htrue.1

/-- A clause of the interpreter. -/
theorem clause_tells (hrel : Tracks rel) {held : Bool} {n : Nest L} {inv : Invoked L}
    {c : Config L} (h : n.Tells p rel max) (hrunning : n.running = .wasm inv c)
    (hheard : ∀ pause, stackClause (p.inst n.budget inv) c = .inr (.out pause) →
      Heard rel pause.config.st.depth pause n.below) {n' : Nest L}
    (hstep : n.step p limit (.step stores held) = some n') : n'.Tells p rel max := by
  have hnow := h.running
  rw [hrunning] at hnow
  obtain ⟨hcounts, hcode⟩ := hnow
  have hdoes := stackClause_does (p.inst_sound n.budget inv) c
  simp only [Nest.step, hrunning] at hstep
  cases hclause : stackClause (p.inst n.budget inv) c with
  | inl c' =>
    rw [hclause] at hstep hdoes
    cases hstep
    obtain ⟨hgoes⟩ := hdoes
    exact ⟨h.ceiling, h.below, hcounts.goes hrel h.ceiling hgoes, hcode⟩
  | inr x =>
    rw [hclause] at hstep hdoes
    cases x with
    | answered a =>
      cases hstep
      exact answer_tells hrel h.ceiling h.below
    | out pause =>
      cases hstep
      cases hdoes with
      | out _ _ hframes _ hdepth hcompiled =>
        rw [← hframes, ← hdepth] at hcounts
        apply goOut_tells hrel h.ceiling h.below hcounts hcode
        · intro f hf
          have hroom := (hcompiled f hf).2
          rw [← hdepth] at hroom
          rw [← h.ceiling]
          exact ⟨(hcompiled f hf).1, hroom⟩
        · exact hheard pause hclause

/-- A call out of generated code, where there is room for one more. -/
theorem checkDepth_tells (hrel : Tracks rel) {n k : Nest L} {ref : L.Ref} {depth : ℕ}
    (h : n.Tells p rel max) (hceiling : (p ref).maxDepth = max)
    (hk : depth + 1 < max → k.Tells p rel max) :
    (checkDepth p stores ref depth n k).Tells p rel max := by
  unfold checkDepth
  split
  · exact settle_tells hrel h.ceiling h.below
  · rename_i hroom
    rw [hceiling, Nat.not_le] at hroom
    exact hk hroom

theorem called_below (hrel : Tracks rel) {ref : L.Ref} {depth : ℕ} {restore : Option ℕ}
    {below : List (Level L)} (h : rel (framesOf below) depth) :
    rel (framesOf (.generated ref depth restore :: below)) (depth + 1) := by
  have hsum : framesOf (.generated ref depth restore :: below) = 1 + framesOf below :=
    List.sum_cons
  rw [hsum, Nat.add_comm]
  exact hrel.succ.mpr h

theorem step_tells (hrel : Tracks rel) {n n' : Nest L} {act : Act L} (h : n.Tells p rel max)
    (hheard : ∀ inv c pause, n.running = .wasm inv c →
      stackClause (p.inst n.budget inv) c = .inr (.out pause) →
      (∃ stores held, act = .step stores held) → Heard rel pause.config.st.depth pause n.below)
    (hstep : n.step p limit act = some n') : n'.Tells p rel max := by
  have hnow := h.running
  cases act with
  | step stores held =>
    cases hrunning : n.running with
    | wasm inv c =>
      apply clause_tells hrel h hrunning _ hstep
      intro pause hclause
      exact hheard inv c pause hrunning hclause ⟨stores, held, rfl⟩
    | _ => simp [Nest.step, hrunning] at hstep
  | begin stores =>
    cases hrunning : n.running with
    | calling inv f args =>
      simp only [Nest.step, hrunning, Option.some.injEq] at hstep hnow
      subst hstep
      obtain ⟨hdepth, hle, hcode⟩ := hnow
      exact beginCall_tells hrel h.ceiling h.below hdepth hle hcode
    | _ => simp [Nest.step, hrunning] at hstep
  | returns stores results | traps stores reason =>
    cases hrunning : n.running with
    | generated ref depth | embedder =>
      simp only [Nest.step, hrunning, Option.some.injEq] at hstep
      subst hstep
      exact settle_tells hrel h.ceiling h.below
    | _ => simp [Nest.step, hrunning] at hstep
  | calls ref f args =>
    cases hrunning : n.running with
    | embedder =>
      simp only [Nest.step, hrunning, Option.some.injEq] at hstep hnow
      subst hstep
      obtain ⟨hdepth, hle⟩ := hnow
      have hframes : rel (framesOf (.embedder :: n.below)) n.budget.depth := by
        rw [framesOf, List.map_cons, List.sum_cons, Level.frames, Nat.zero_add]
        exact hdepth
      exact ⟨h.ceiling, ⟨hdepth, hle, h.below⟩, hframes, hle, nofun⟩
    | _ => simp [Nest.step, hrunning] at hstep
  | callsGenerated stores =>
    cases hrunning : n.running with
    | generated ref depth =>
      simp only [Nest.step, hrunning, Option.some.injEq] at hstep hnow
      subst hstep
      obtain ⟨hdepth, hle, hceiling⟩ := hnow
      apply checkDepth_tells hrel h hceiling
      intro hroom
      exact ⟨h.ceiling, ⟨hdepth, hle, hceiling, h.below⟩, called_below hrel hdepth, hroom, hceiling⟩
    | _ => simp [Nest.step, hrunning] at hstep
  | callsOut stores f args =>
    cases hrunning : n.running with
    | generated ref depth =>
      simp only [Nest.step, hrunning, Option.some.injEq] at hstep hnow
      subst hstep
      obtain ⟨hdepth, hle, hceiling⟩ := hnow
      apply checkDepth_tells hrel h hceiling
      intro _
      exact ⟨h.ceiling, ⟨hdepth, hle, hceiling, h.below⟩, called_below hrel hdepth, hle,
        fun _ => hceiling⟩
    | _ => simp [Nest.step, hrunning] at hstep
  | callsForeign stores ref' f args =>
    cases hrunning : n.running with
    | generated ref depth =>
      simp only [Nest.step, hrunning, Option.some.injEq] at hstep hnow
      subst hstep
      obtain ⟨hdepth, hle, hceiling⟩ := hnow
      apply checkDepth_tells hrel h hceiling
      intro _
      exact ⟨h.ceiling, ⟨hdepth, hle, hceiling, h.below⟩, called_below hrel hdepth, hle, nofun⟩
    | _ => simp [Nest.step, hrunning] at hstep

end

/-! ## Runs -/

section
variable (p : Program L) (limit : L.Reason) (ref : L.Ref) (f : ℕ) (args : List (Value L))
  (l : Limits) (tier : Tier)

theorem start_tells {rel : ℕ → ℕ → Prop} (hrel : Tracks rel) :
    (Nest.start p ref f args l tier).Tells p rel l.maxDepth := by
  have hpositive := l.positive
  unfold Nest.start
  by_cases hplain : l.fuel = none ∧ l.maxDepth = (p ref).maxDepth
  · rw [if_pos hplain]
    cases tier with
    | interpreted => exact ⟨rfl, trivial, hrel.zero, Nat.zero_le _, nofun⟩
    | notCompiled => exact ⟨rfl, trivial, hrel.zero, Nat.zero_le _, fun _ => hplain.2.symm⟩
    | compiled => exact ⟨rfl, trivial, hrel.zero, hpositive, hplain.2.symm⟩
  · rw [if_neg hplain]
    exact ⟨rfl, trivial, hrel.zero, Nat.zero_le _, nofun⟩

end

theorem Nest.Tells.tracks {p : Program L} {rel : ℕ → ℕ → Prop} {max : ℕ} (hrel : Tracks rel)
    {n : Nest L} (h : n.Tells p rel max) : rel n.frames n.depth ∧ n.depth ≤ max := by
  have hnow := h.running
  obtain ⟨running, below, budget⟩ := n
  cases running with
  | wasm inv c => exact ⟨hnow.1.counts, hnow.1.room⟩
  | calling inv f args => exact ⟨hnow.1, hnow.2.1⟩
  | generated ref depth => exact ⟨hrel.succ.mpr hnow.1, hnow.2.1⟩
  | embedder => exact hnow
  | done r =>
    have hbelow : below = [] := hnow
    subst hbelow
    exact ⟨hrel.zero, Nat.zero_le max⟩

theorem Nest.Tells.frames_le {p : Program L} {rel : ℕ → ℕ → Prop} {max : ℕ} (hrel : Tracks rel)
    {n : Nest L} (h : n.Tells p rel max) : n.frames ≤ max := by
  obtain ⟨hdepth, hle⟩ := h.tracks hrel
  have hframes := hrel.le hdepth
  omega

section
variable {p : Program L} {limit : L.Reason} {ref : L.Ref} {f : ℕ} {args : List (Value L)}
  {l : Limits} {tier : Tier} {n : Nest L}

theorem callsHost_of_out {stores : Stores L} {held : Bool} {inv : Invoked L} {c : Config L}
    {pause : Pause L} (hrunning : n.running = .wasm inv c)
    (hclause : stackClause (p.inst n.budget inv) c = .inr (.out pause))
    (hcallee : pause.callee = .host f) : n.callsHost p (.step stores held) = true := by
  obtain ⟨callee, args, way, config⟩ := pause
  cases hcallee
  simp only [Nest.callsHost, hrunning, hclause]

theorem tells_of_reachable
    (h : Run.Reachable (Nest.step p limit) (Nest.start p ref f args l tier) n) :
    n.Tells p (· ≤ ·) l.maxDepth := by
  apply h.invariant (Nest.Tells p (· ≤ ·) l.maxDepth) (start_tells p ref f args l tier tracks_le)
  intro n act n' hn _ hstep
  apply step_tells tracks_le hn _ hstep
  -- a caller's depth is at least the number of frames under it
  intro inv c pause hrunning hclause _ g _ _ a ha
  have hnow := hn.running
  rw [hrunning] at hnow
  have hdoes := stackClause_does (p.inst_sound n.budget inv) c
  rw [hclause] at hdoes
  cases hdoes with
  | out _ _ _ _ hdepth _ =>
    have hcounts := hnow.1.counts
    show a ≤ pause.config.st.depth
    omega

/-- The ceiling bounds the frames whoever calls whom. -/
theorem frames_le (h : Run.Reachable (Nest.step p limit) (Nest.start p ref f args l tier) n) :
    n.frames ≤ l.maxDepth :=
  (tells_of_reachable h).frames_le tracks_le

/-- Whoever runs counts every frame, and never more than the ceiling. -/
theorem depth_between (h : Run.Reachable (Nest.step p limit) (Nest.start p ref f args l tier) n) :
    n.frames ≤ n.depth ∧ n.depth ≤ l.maxDepth :=
  (tells_of_reachable h).tracks tracks_le

/-- In every state that a run reaches in which no host function is called from an invocation that a
host function started, the frames are within the ceiling and are what is counted. -/
theorem counted_of_sheltered
    (h : Run.ReachableIf (Nest.step p limit) (Sheltered p) (Nest.start p ref f args l tier) n) :
    n.Counted l.maxDepth := by
  have htells : n.Tells p (· = ·) l.maxDepth := by
    apply h.invariant (Nest.Tells p (· = ·) l.maxDepth) (start_tells p ref f args l tier tracks_eq)
    intro n act n' hn hok hstep
    apply step_tells tracks_eq hn _ hstep
    rintro inv c pause hrunning hclause ⟨stores, held, rfl⟩ g hcallee hexposed
    have hfalse := hok (callsHost_of_out hrunning hclause hcallee)
    rw [hfalse] at hexposed
    cases hexposed
  exact ⟨htells.frames_le tracks_eq, (htells.tracks tracks_eq).1.symm⟩

end

def reentrantStart : Nest .bare :=
  .start reentrant 0 0 [] ⟨none, 100, none, hundred_pos⟩ .interpreted

/-- The host function calls in again. -/
def callIn : List (Act .bare) :=
  [.begin .bare, .step .bare true, .calls 0 0 [], .begin .bare]

theorem counted_callIn : ∃ n : Nest .bare,
    Run.execIf (Nest.step reentrant ()) (Sheltered reentrant) callIn reentrantStart = some n ∧
      n.depth = 2 ∧ n.Counted 100 := by
  have hrun : (Run.execIf (Nest.step reentrant ()) (Sheltered reentrant) callIn reentrantStart).any
      (fun n => n.depth == 2) = true := by decide +kernel
  obtain ⟨n, hn, hdepth⟩ := (Option.any_eq_true _ _).mp hrun
  have hcounted := counted_of_sheltered (Run.ReachableIf.init.of_execIf hn)
  exact ⟨n, hn, by simpa using hdepth, hcounted⟩

/-- What it called calls a host function, and returns. -/
def callInAndOut : List (Act .bare) :=
  callIn ++ [.step .bare true, .returns .bare [], .step .bare true]

theorem depth_between_callInAndOut : ∃ n : Nest .bare,
    Run.exec (Nest.step reentrant ()) callInAndOut reentrantStart = some n ∧
      n.frames ≤ n.depth ∧ n.depth ≤ 100 := by
  have hrun : (Run.exec (Nest.step reentrant ()) callInAndOut reentrantStart).isSome := by
    decide +kernel
  obtain ⟨n, hn⟩ := Option.isSome_iff_exists.mp hrun
  exact ⟨n, hn, depth_between (Run.Reachable.of_exec .init hn)⟩

/-- The host function is over one frame, and would begin at depth 2. -/
theorem not_counted :
    ¬ ∀ n : Nest .bare, Run.Reachable (Nest.step reentrant ()) reentrantStart n → n.Counted 100 := by
  intro hall
  have hrun : (Run.exec (Nest.step reentrant ()) callInAndOut reentrantStart).any
      (fun n => n.depth == 2 && n.frames == 1) = true := by decide +kernel
  obtain ⟨n, hn, hboth⟩ := (Option.any_eq_true _ _).mp hrun
  simp only [Bool.and_eq_true, beq_iff_eq] at hboth
  obtain ⟨hdepth, hframes⟩ := hboth
  have hcounted := (hall n (Run.Reachable.of_exec .init hn)).2
  rw [hdepth, hframes] at hcounted
  exact absurd hcounted (by decide)

end ErlangWasm.Exec
