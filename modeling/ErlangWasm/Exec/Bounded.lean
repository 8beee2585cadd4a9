import ErlangWasm.Exec.Spent

/-!
# Fuel bounds a nest

Every clause gives up part of a potential: the sizes of all the code there is left to run, in the
configuration and in all that wait, and for each party's fuel a power of two.  A branch to a loop and
a call put a body back and are charged for it.  Two things are not: an exception whose handler's label
is a loop, and a call through a reference, whose callee begins with more than its caller has left.
-/

namespace ErlangWasm.Exec

open Reasoning

variable {L : Lang}

/-! ## Sizes -/

mutual

/-- One, and for a body inside two more than it. -/
def Instr.size : Instr L → ℕ
  | .block _ _ body => 2 + codeSize body
  | .loop _ _ body => 2 + codeSize body
  | .tryTable _ _ _ body => 2 + codeSize body
  | .if_ _ _ then_ else_ => 2 + codeSize then_ + codeSize else_
  | _ => 1

def codeSize : Code L → ℕ
  | [] => 0
  | i :: rest => i.size + codeSize rest

end

def Ctrl.size : Ctrl L → ℕ
  | .block cont _ _ => 1 + codeSize cont
  | .tryTable cont _ _ _ => 1 + codeSize cont
  | .loop cont _ _ _ => 1 + codeSize cont
  | .func _ => 0

def ctrlSize (ctrl : List (Ctrl L)) : ℕ := (ctrl.map Ctrl.size).sum

def CallFrame.size : CallFrame L → ℕ
  | .toplevel => 0
  | .caller cont ctrl _ _ => 1 + codeSize cont + ctrlSize ctrl

def framesSize (frames : List (CallFrame L)) : ℕ := (frames.map CallFrame.size).sum

def Config.size (c : Config L) : ℕ := codeSize c.code + ctrlSize c.ctrl + framesSize c.frames

theorem Instr.size_pos (i : Instr L) : 0 < i.size := by
  cases i <;> simp only [Instr.size] <;> omega

theorem codeSize_cons (i : Instr L) (rest : Code L) :
    codeSize (i :: rest) = i.size + codeSize rest := by
  rw [codeSize]

@[simp] theorem ctrlSize_cons (frame : Ctrl L) (ctrl : List (Ctrl L)) :
    ctrlSize (frame :: ctrl) = frame.size + ctrlSize ctrl := List.sum_cons

@[simp] theorem framesSize_cons (frame : CallFrame L) (frames : List (CallFrame L)) :
    framesSize (frame :: frames) = frame.size + framesSize frames := List.sum_cons

theorem ctrlSize_suffix {outer ctrl : List (Ctrl L)} (h : outer <:+ ctrl) :
    ctrlSize outer ≤ ctrlSize ctrl := by
  obtain ⟨inner, rfl⟩ := h
  rw [ctrlSize, ctrlSize, List.map_append, List.sum_append]
  omega

/-- What is after a frame is smaller than it. -/
theorem Ctrl.size_of_cont {frame : Ctrl L} {cont : Code L} (h : frame.cont = some cont) :
    frame.size = 1 + codeSize cont := by
  cases frame <;> cases h <;> rfl

theorem Ctrl.cont_of_forward {frame : Ctrl L} {cont : Code L} (h : frame.forward = some cont) :
    frame.cont = some cont := by
  cases frame <;> cases h <;> rfl

/-- A frame and all outside it. -/
theorem ctrlSize_drop {ctrl : List (Ctrl L)} {n : ℕ} {frame : Ctrl L} (h : ctrl[n]? = some frame) :
    frame.size + ctrlSize (ctrl.drop (n + 1)) ≤ ctrlSize ctrl := by
  have hsuffix := ctrlSize_suffix (List.drop_suffix n ctrl)
  rw [drop_of_getElem? h, ctrlSize_cons] at hsuffix
  exact hsuffix

theorem Opens.size {rest body : Code L} {i : Instr L} {frame : Ctrl L} (h : Opens rest i frame body) :
    codeSize body + frame.size + 1 ≤ codeSize (i :: rest) := by
  rw [codeSize_cons]
  cases h <;> simp only [Instr.size, Ctrl.size] <;> omega

/-! ## Bodies -/

/-- What is after a frame, and what a loop's head is, is no larger than a body. -/
def Ctrl.Within (size : ℕ) : Ctrl L → Prop
  | .block cont _ _ => codeSize cont ≤ size
  | .tryTable cont _ _ _ => codeSize cont ≤ size
  | .loop cont _ body _ => codeSize cont ≤ size ∧ codeSize body ≤ size
  | .func _ => True

def CallFrame.Within (size : ℕ) : CallFrame L → Prop
  | .toplevel => True
  | .caller cont ctrl _ _ => codeSize cont ≤ size ∧ ∀ frame ∈ ctrl, frame.Within size

structure Config.Within (size : ℕ) (c : Config L) : Prop where
  code : codeSize c.code ≤ size
  ctrl : ∀ frame ∈ c.ctrl, frame.Within size
  frames : ∀ frame ∈ c.frames, frame.Within size

def Inst.BodiesWithin (size : ℕ) (inst : Inst L) : Prop :=
  ∀ nres body, inst.Body nres body → codeSize body ≤ size

/-- No body of any instance is larger. -/
def Program.BodiesWithin (size : ℕ) (p : Program L) : Prop :=
  ∀ (ref : L.Ref) (f nparams : ℕ) (defaults : List (Value L)) (nres : ℕ) (body : Code L),
    (p ref).funcs[f]? = some (.wasm nparams defaults nres body) → codeSize body ≤ size

theorem Program.BodiesWithin.inst {size : ℕ} {p : Program L} (h : p.BodiesWithin size) (b : Budget)
    (inv : Invoked L) : (p.inst b inv).BodiesWithin size := by
  rintro nres body ⟨f, nparams, defaults, hf⟩
  exact h inv.ref f nparams defaults nres body hf

theorem Ctrl.Within.cont {size : ℕ} {frame : Ctrl L} {cont : Code L} (h : frame.Within size)
    (hcont : frame.cont = some cont) : codeSize cont ≤ size := by
  cases frame with
  | block | tryTable => cases hcont; exact h
  | loop => cases hcont; exact h.1
  | func => cases hcont

theorem Opens.within {size : ℕ} {rest body : Code L} {i : Instr L} {frame : Ctrl L}
    (h : Opens rest i frame body) (hcode : codeSize (i :: rest) ≤ size) :
    codeSize body ≤ size ∧ frame.Within size := by
  have hsize := h.size
  cases h <;> simp only [Ctrl.size, Ctrl.Within] at hsize ⊢ <;> omega

/-! ## The condition on a step -/

/-- The handler that takes the exception, here or in a caller, has the head of a loop for label. -/
def headed (inst : Inst L) (e : Exn L) : List (CallFrame L) → List (Ctrl L) → Bool
  | frames, ctrl =>
      match takenBy inst e ctrl with
      | some (label, _, outer) =>
          match outer[label]? with
          | some (.loop ..) => true
          | _ => false
      | none =>
          match frames with
          | .caller _ ctrl _ _ :: frames => headed inst e frames ctrl
          | _ => false

/-- So has the one of an invocation that waits. -/
def headedBelow (p : Program L) (stores : Stores L) :
    Budget → Outcome L → List (Level L) → Bool
  | _, _, [] => false
  | _, _, .embedder :: _ => false
  | b, o, .generated _ _ restore :: below => headedBelow p stores (b.restored restore) o below
  | b, o, .waiting inv pause restore :: below =>
      let b := b.restored restore
      match resume (p.inst b inv) pause (ending stores b inv pause o) with
      | .inl _ =>
          match o with
          | .uncaught e => headed (p.inst b inv) e pause.config.frames pause.config.ctrl
          | _ => false
      | .inr a => headedBelow p stores (b.publish a) a.outcome below

/-- The exception an instruction throws. -/
def Config.throws (inst : Inst L) (c : Config L) : Option (Exn L) :=
  match c.code with
  | [] => none
  | i :: _ =>
      match exec inst i c.st with
      | .throw e _ => some e
      | _ => none

/-- No exception is taken to the head of a loop, and a function of another instance that is called
through a reference or a table begins with no more fuel than its caller has left. -/
def forwardClause (p : Program L) (stores : Stores L) (b : Budget) (below : List (Level L))
    (inst : Inst L) (c : Config L) : Config L ⊕ Exit L → Bool
  | .inl _ =>
      match c.throws inst with
      | some e => !headed inst e c.frames c.ctrl
      | none => true
  | .inr (.answered a) => !headedBelow p stores (b.publish a) a.outcome below
  | .inr (.out ⟨.foreign .., _, _, config⟩) => b.fuel.getD 0 ≤ config.st.fuel.getD 0
  | .inr (.out _) => true

def forward (p : Program L) (n : Nest L) : Act L → Bool
  | .step stores _ =>
      match n.running with
      | .wasm inv c =>
          forwardClause p stores n.budget n.below (p.inst n.budget inv) c
            (stackClause (p.inst n.budget inv) c)
      | _ => true
  | _ => true

/-- The condition on one step. -/
abbrev Forward (p : Program L) (n : Nest L) (act : Act L) : Prop := forward p n act = true

/-! ## One invocation -/

theorem takenBy_suffix {inst : Inst L} {e : Exn L} {ctrl outer : List (Ctrl L)} {label : ℕ}
    {values : List (Value L)} (h : takenBy inst e ctrl = some (label, values, outer)) :
    outer <:+ ctrl := by
  fun_induction takenBy inst e ctrl with
  | case1 => cases h
  | case2 cont arity saved catches outer' label' values' _ =>
    cases h
    exact List.suffix_cons _ _
  | case3 cont arity saved catches outer' _ ih | case4 frame outer' _ ih =>
    exact (ih h).trans (List.suffix_cons _ _)

theorem Reaches.size {ctrl ctrl' : List (Ctrl L)} {label : ℕ} {code : Code L}
    (h : Reaches ctrl label code ctrl')
    (hforward : ∀ cont npar body saved, ctrl[label]? ≠ some (.loop cont npar body saved)) :
    codeSize code + ctrlSize ctrl' ≤ ctrlSize ctrl := by
  cases h with
  | forward hn hcont =>
    have hdrop := ctrlSize_drop hn
    rw [Ctrl.size_of_cont (Ctrl.cont_of_forward hcont)] at hdrop
    omega
  | loop hn => exact absurd hn (hforward _ _ _ _)

/-- What is left of the code and the frames after an exception. -/
theorem Caught.size {inst : Inst L} {e : Exn L} {c' : Config L} {frames : List (CallFrame L)}
    {ctrl : List (Ctrl L)} {depth : ℕ} (h : Caught inst e c' frames ctrl depth)
    (hforward : headed inst e frames ctrl = false) :
    c'.size ≤ ctrlSize ctrl + framesSize frames := by
  induction h with
  | here htaken hreaches =>
    have hsuffix := ctrlSize_suffix (takenBy_suffix htaken)
    unfold headed at hforward
    rw [htaken] at hforward
    have hreached := hreaches.size fun cont npar body saved hn => by simp [hn] at hforward
    unfold Config.size
    omega
  | caller hnone _ ih =>
    unfold headed at hforward
    rw [hnone] at hforward
    have hrest := ih hforward
    rw [framesSize_cons, CallFrame.size]
    omega

theorem Reaches.within {size : ℕ} {ctrl ctrl' : List (Ctrl L)} {label : ℕ} {code : Code L}
    (h : Reaches ctrl label code ctrl') (hctrl : ∀ frame ∈ ctrl, frame.Within size) :
    codeSize code ≤ size ∧ ∀ frame ∈ ctrl', frame.Within size := by
  cases h with
  | forward hn hcont =>
    refine ⟨?_, fun frame hframe => hctrl frame (List.mem_of_mem_drop hframe)⟩
    exact (hctrl _ (List.mem_of_getElem? hn)).cont (Ctrl.cont_of_forward hcont)
  | loop hn =>
    refine ⟨?_, fun frame hframe => hctrl frame (List.mem_of_mem_drop hframe)⟩
    exact (hctrl _ (List.mem_of_getElem? hn)).2

theorem Caught.within {size : ℕ} {inst : Inst L} {e : Exn L} {c' : Config L}
    {frames : List (CallFrame L)} {ctrl : List (Ctrl L)} {depth : ℕ}
    (h : Caught inst e c' frames ctrl depth) (hctrl : ∀ frame ∈ ctrl, frame.Within size)
    (hframes : ∀ frame ∈ frames, frame.Within size) : c'.Within size := by
  induction h with
  | here htaken hreaches =>
    have houter := fun frame hframe => hctrl frame ((takenBy_suffix htaken).subset hframe)
    obtain ⟨hcode, hctrl'⟩ := hreaches.within houter
    exact ⟨hcode, hctrl', hframes⟩
  | caller _ _ ih =>
    obtain ⟨_, hcaller⟩ := hframes _ (.head _)
    exact ih hcaller fun frame hframe => hframes frame (.tail _ hframe)

theorem Left.size {c c' : Config L} (h : Left c c') : c'.size + 1 ≤ framesSize c.frames := by
  obtain ⟨locals, stack, hframes⟩ := h.frames
  unfold Config.size
  rw [hframes, framesSize_cons, CallFrame.size]
  omega

theorem Left.within {size : ℕ} {c c' : Config L} (h : Left c c')
    (hframes : ∀ frame ∈ c.frames, frame.Within size) : c'.Within size := by
  obtain ⟨locals, stack, hcaller⟩ := h.frames
  rw [hcaller] at hframes
  obtain ⟨hcode, hctrl⟩ := hframes _ (.head _)
  exact ⟨hcode, hctrl, fun frame hframe => hframes frame (.tail _ hframe)⟩

/-- Where one clause goes on, in bodies of that size. -/
theorem Goes.within {size : ℕ} {inst : Inst L} {c c' : Config L} (hinst : inst.BodiesWithin size)
    (h : Goes inst c c') (hc : c.Within size) : c'.Within size := by
  have hkeeps : codeSize c'.code ≤ size → (∀ frame ∈ c'.ctrl, frame.Within size) →
      c'.frames = c.frames → c'.Within size := by
    intro hcode hctrl hframes
    refine ⟨hcode, hctrl, ?_⟩
    rw [hframes]
    exact hc.frames
  have hcode := hc.code
  cases h with
  | next heq hctrl hkept =>
    rw [heq, codeSize_cons] at hcode
    apply hkeeps (by omega) _ hkept.frames
    rw [hctrl]
    exact hc.ctrl
  | body heq hopens hctrl hkept =>
    rw [heq] at hcode
    obtain ⟨hbody, hframe⟩ := hopens.within hcode
    apply hkeeps hbody _ hkept.frames
    rw [hctrl]
    intro frame hmem
    cases hmem with
    | head => exact hframe
    | tail _ hmem => exact hc.ctrl frame hmem
  | finish heq hctrl hcont hkept =>
    have hall := hc.ctrl
    rw [hctrl] at hall
    apply hkeeps _ _ hkept.frames
    · exact (hall _ (.head _)).cont hcont
    · exact fun frame hmem => hall frame (.tail _ hmem)
  | branch heq hn hcont hctrl hkept =>
    apply hkeeps _ _ hkept.frames
    · exact (hc.ctrl _ (List.mem_of_getElem? hn)).cont (Ctrl.cont_of_forward hcont)
    · rw [hctrl]
      exact fun frame hmem => hc.ctrl frame (List.mem_of_mem_drop hmem)
  | loop heq hn hctrl hframes _ _ =>
    apply hkeeps _ _ hframes
    · exact (hc.ctrl _ (List.mem_of_getElem? hn)).2
    · rw [hctrl]
      exact fun frame hmem => hc.ctrl frame (List.mem_of_mem_drop hmem)
  | leave hleft => exact hleft.within hc.frames
  | enter heq hctrl hframes _ hentered _ =>
    obtain ⟨nres, hfunc, hbody⟩ := hentered.body
    obtain ⟨locals, stack, hcaller⟩ := hentered.frames
    rw [heq, codeSize_cons] at hcode
    refine ⟨hinst nres _ hbody, ?_, ?_⟩
    · rw [hfunc]
      intro frame hmem
      rw [List.mem_singleton] at hmem
      subst hmem
      trivial
    · rw [hcaller, hctrl, hframes]
      intro frame hmem
      cases hmem with
      | head => exact ⟨by omega, hc.ctrl⟩
      | tail _ hmem => exact hc.frames frame hmem
  | tail heq hctrl hbody hframes _ _ =>
    apply hkeeps (hinst _ _ hbody) _ hframes
    rw [hctrl]
    intro frame hmem
    rw [List.mem_singleton] at hmem
    subst hmem
    trivial
  | caught _ _ hcaught _ => exact hcaught.within hc.ctrl hc.frames

/-! ## The potential -/

/-- What the bound is made of. -/
structure Scale (L : Lang) where
  /-- no body is larger -/
  size : ℕ
  /-- what a step counts that is no clause of the interpreter -/
  toll : ℕ
  /-- how many times a function is linked on -/
  links : L.Ref → ℕ → ℕ
  most : ℕ

/-- A function that is linked is an export of an instance that was there before. -/
structure Scale.Fits (k : Scale L) (p : Program L) : Prop where
  bodies : p.BodiesWithin k.size
  most : ∀ ref f, k.links ref f ≤ k.most
  linked : ∀ ref f nparams ref' f', (p ref).funcs[f]? = some (.host nparams (some (ref', f'))) →
    k.toll * (k.links ref' f' + 1) ≤ k.toll * k.links ref f

def Scale.price (k : Scale L) : ℕ := k.size + k.toll * (k.most + 2) + 1

/-- What there may yet be of steps for so much fuel: a call out may be answered with all of it
spent, and the caller go on with what it had. -/
def Scale.worth (k : Scale L) (fuel : ℕ) : ℕ := k.price * 2 ^ fuel

/-- What a call begins with. -/
def Scale.call (k : Scale L) (links fuel : ℕ) : ℕ := k.toll * (links + 2) + k.size + k.worth fuel

def Config.potential (k : Scale L) (c : Config L) : ℕ := c.size + k.worth (c.st.fuel.getD 0)

def Level.potential (k : Scale L) : Level L → ℕ
  | .waiting _ pause _ => pause.config.potential k
  | .generated .. => 0
  | .embedder => k.toll

def potentialOf (k : Scale L) (below : List (Level L)) : ℕ := (below.map (Level.potential k)).sum

def Nest.potential (k : Scale L) (n : Nest L) : ℕ :=
  potentialOf k n.below + match n.running with
    | .wasm _ c => c.potential k
    | .calling inv f _ => k.call (k.links inv.ref f) (n.budget.fuel.getD 0)
    | .generated .. => 0
    | .embedder => k.toll
    | .done _ => 0

section
variable {k : Scale L}

theorem potentialOf_cons (level : Level L) (below : List (Level L)) :
    potentialOf k (level :: below) = level.potential k + potentialOf k below := List.sum_cons

theorem Scale.price_le_worth (fuel : ℕ) : k.price ≤ k.worth fuel :=
  Nat.le_mul_of_pos_right _ (Nat.two_pow_pos fuel)

theorem Scale.worth_pos (fuel : ℕ) : 0 < k.worth fuel := by
  have hle := k.price_le_worth fuel
  have hpos : 0 < k.price := Nat.succ_pos _
  omega

theorem Scale.worth_mono {a b : ℕ} (h : a ≤ b) : k.worth a ≤ k.worth b :=
  Nat.mul_le_mul_left _ (Nat.pow_le_pow_right (by decide) h)

/-- Of any fuel spent, what is left is worth half at most. -/
theorem Scale.worth_spent {a b : ℕ} (h : a < b) : 2 * k.worth a ≤ k.worth b := by
  calc 2 * k.worth a = k.worth (a + 1) := by
        rw [Scale.worth, Scale.worth, Nat.pow_succ, Nat.mul_left_comm, Nat.mul_comm 2]
    _ ≤ k.worth b := k.worth_mono h

theorem Scale.price_spent {a b : ℕ} (h : a < b) : k.worth a + k.price ≤ k.worth b := by
  have hhalf := k.worth_spent h
  have hprice := k.price_le_worth a
  omega

/-- Where one clause goes on, it has given something up. -/
theorem Goes.potential {inst : Inst L} {c c' : Config L} {fuel : ℕ}
    (hinst : inst.BodiesWithin k.size) (h : Goes inst c c') (hc : c.Within k.size)
    (hfuel : c.st.fuel = some fuel)
    (hforward : ∀ e, c.throws inst = some e → headed inst e c.frames c.ctrl = false) :
    c'.potential k + 1 ≤ c.potential k := by
  have hkept : c'.st.fuel = c.st.fuel → c'.size + 1 ≤ c.size →
      c'.potential k + 1 ≤ c.potential k := by
    intro hsame hsize
    unfold Config.potential
    rw [hsame]
    omega
  -- what was charged pays for a body
  have hpaid : ∀ n, 0 < n → Spends n c.st.fuel c'.st.fuel → c'.size ≤ c.size + k.size →
      c'.potential k + 1 ≤ c.potential k := by
    intro n hn hspends hsize
    rw [hfuel] at hspends
    obtain ⟨hlt, hafter⟩ := hspends
    have hspent : k.worth (fuel - n) + k.price ≤ k.worth fuel := k.price_spent (by omega)
    unfold Scale.price at hspent
    unfold Config.potential
    rw [hafter, hfuel, Option.getD_some, Option.getD_some]
    omega
  unfold Config.size at hkept hpaid
  cases h with
  | next heq hctrl hsame =>
    apply hkept hsame.fuel
    rename_i i
    have hpos := i.size_pos
    rw [heq, codeSize_cons, hctrl, hsame.frames]
    omega
  | body heq hopens hctrl hsame =>
    have hsize := hopens.size
    apply hkept hsame.fuel
    rw [heq, hctrl, ctrlSize_cons, hsame.frames]
    omega
  | finish heq hctrl hcont hsame =>
    apply hkept hsame.fuel
    rw [hctrl, ctrlSize_cons, Ctrl.size_of_cont hcont, hsame.frames]
    omega
  | branch heq hn hcont hctrl hsame =>
    have hdrop := ctrlSize_drop hn
    rw [Ctrl.size_of_cont (Ctrl.cont_of_forward hcont)] at hdrop
    apply hkept hsame.fuel
    rw [hctrl, hsame.frames]
    omega
  | loop heq hn hctrl hframes hspends _ =>
    rename_i n _ _ _
    have hdrop := ctrlSize_suffix (List.drop_suffix n c.ctrl)
    have hbody := (hc.ctrl _ (List.mem_of_getElem? hn)).2
    apply hpaid 1 Nat.one_pos hspends
    rw [hctrl, hframes]
    omega
  | leave hleft =>
    have hsize := hleft.size
    unfold Config.size at hsize
    apply hkept hleft.fuel
    omega
  | enter heq hctrl hframes _ hentered hspends =>
    obtain ⟨nres, hfunc, hbody⟩ := hentered.body
    obtain ⟨locals, stack, hcaller⟩ := hentered.frames
    have hle := hinst nres _ hbody
    rename_i i at_ _
    have hpos := i.size_pos
    have hzero : ctrlSize [(.func nres : Ctrl L)] = 0 := rfl
    apply hpaid 10 (by decide) hspends
    rw [heq, codeSize_cons, hfunc, hzero, hcaller, framesSize_cons, CallFrame.size, hctrl, hframes]
    omega
  | tail heq hctrl hbody hframes hspends _ =>
    have hle := hinst _ _ hbody
    rename_i nres _
    have hzero : ctrlSize [(.func nres : Ctrl L)] = 0 := rfl
    apply hpaid 10 (by decide) hspends
    rw [hctrl, hzero, hframes]
    omega
  | caught heq hthrow hcaught hsame =>
    rename_i i rest e st
    have hthrows : c.throws inst = some e := by
      unfold Config.throws
      rw [heq]
      simp only [hthrow]
    have hsize := hcaught.size (hforward e hthrows)
    have hpos := i.size_pos
    unfold Config.size at hsize
    apply hkept hsame
    rw [heq, codeSize_cons]
    omega

/-! ## What waits -/

/-- Whoever waits has at least the fuel of what is above it. -/
def Under (size cap : ℕ) : ℕ → List (Level L) → Prop
  | fuel, [] => fuel ≤ cap
  | fuel, .embedder :: below => Under size cap fuel below
  | _, .generated .. :: _ => False
  | fuel, .waiting inv pause _ :: below =>
      inv.code = false ∧ (∀ f, pause.callee ≠ .compiled f) ∧ pause.config.Within size ∧
        ∃ left, pause.config.st.fuel = some left ∧ fuel ≤ left ∧ Under size cap left below

/-- What the budget and what runs have is under what waits. -/
structure Nest.Stacked (size cap : ℕ) (n : Nest L) : Prop where
  budget : ∃ fuel, n.budget.fuel = some fuel ∧ Under size cap fuel n.below
  running : match n.running with
    | .wasm inv c => inv.code = false ∧ c.Within size ∧
        ∃ fuel, c.st.fuel = some fuel ∧ Under size cap fuel n.below
    | .calling inv _ _ => inv.code = false
    | .generated .. => False
    | _ => True

variable {p : Program L} {stores : Stores L} {limit : L.Reason} {b : Budget} {o : Outcome L}
  {below : List (Level L)} {cap fuel : ℕ}

theorem Under.mono {a : ℕ} (h : Under k.size cap fuel below) (hle : a ≤ fuel) :
    Under k.size cap a below := by
  induction below generalizing a fuel with
  | nil => exact Nat.le_trans hle h
  | cons level below ih =>
    cases level with
    | embedder => exact ih h hle
    | generated ref depth restore => exact h
    | waiting inv pause restore =>
      obtain ⟨hcode, hcallee, hwithin, left, hleft, hfuel, hbelow⟩ := h
      exact ⟨hcode, hcallee, hwithin, left, hleft, by omega, hbelow⟩

theorem Under.le_cap (h : Under k.size cap fuel below) : fuel ≤ cap := by
  induction below generalizing fuel with
  | nil => exact h
  | cons level below ih =>
    cases level with
    | embedder => exact ih h
    | generated ref depth restore => exact absurd h id
    | waiting inv pause restore =>
      obtain ⟨_, _, _, left, _, hfuel, hbelow⟩ := h
      exact Nat.le_trans hfuel (ih hbelow)

theorem ending_returned (stores : Stores L) (b : Budget) (inv : Invoked L) (pause : Pause L)
    (results : List (Value L)) :
    ∃ mu fuel, ending stores b inv pause (.returned results) = .returned results mu fuel ∧
      (fuel = b.fuel ∨ fuel = pause.config.st.fuel) := by
  simp only [ending]
  cases pause.callee with
  | host f => exact ⟨_, _, rfl, .inl rfl⟩
  | foreign ref f | compiled f => exact ⟨_, _, rfl, .inr rfl⟩

/-- After an end that is no exception, nothing is taken. -/
theorem headedBelow_eq_false (ho : ∀ e, o ≠ .uncaught e) :
    headedBelow p stores b o below = false := by
  induction below generalizing b o with
  | nil => rfl
  | cons level below ih =>
    cases level with
    | embedder => rfl
    | generated ref depth restore => exact ih ho
    | waiting inv pause restore =>
      unfold headedBelow
      simp only
      cases hresume : resume (p.inst (b.restored restore) inv) pause
          (ending stores (b.restored restore) inv pause o) with
      | inl c =>
        cases o with
        | uncaught e => exact absurd rfl (ho e)
        | _ => rfl
      | inr a =>
        apply ih
        intro e ha
        rcases o.ends with ⟨results, rfl⟩ | ⟨e', rfl⟩ | haborts
        · obtain ⟨mu, fuel, hending, -⟩ := ending_returned stores (b.restored restore) inv pause results
          rw [hending] at hresume
          have hreturns := @resume_returns L (p.inst (b.restored restore) inv) pause results mu fuel
          rw [hresume] at hreturns
          cases hreturns with
          | leaves hleaves _ _ _ =>
            cases hleaves with
            | returned h _ | crash h _ =>
              rw [h] at ha
              cases ha
        · exact ho e' rfl
        · rw [ending_aborts haborts] at hresume
          cases hresume
          exact ho e ha

/-- A waiting invocation gone on with has given nothing more than it had; or it ends in its turn. -/
def Continues (k : Scale L) (b : Budget) (left : ℕ) (c : Config L) : Config L ⊕ Answer L → Prop
  | .inl c' => c'.Within k.size ∧ c'.potential k ≤ c.potential k ∧
      ∃ fuel, c'.st.fuel = some fuel ∧ fuel ≤ left
  | .inr a => ∃ fuel, (b.publish a).fuel = some fuel ∧ fuel ≤ left

theorem Budget.publish_fuel_cases (b : Budget) (a : Answer L) :
    (b.publish a).fuel = a.fuel ∨ (b.publish a).fuel = b.fuel := by
  unfold Budget.publish
  split
  · exact .inl rfl
  · exact .inr rfl

theorem continues_answer {a : Answer L} {c : Config L} {left : ℕ} (hb : b.fuel = some fuel)
    (hle : fuel ≤ left) (ha : ∃ fuel, a.fuel = some fuel ∧ fuel ≤ left) :
    Continues k b left c (.inr a) := by
  rcases b.publish_fuel_cases a with heq | heq
  · obtain ⟨afuel, hafuel, hale⟩ := ha
    exact ⟨afuel, heq.trans hafuel, hale⟩
  · exact ⟨fuel, heq.trans hb, hle⟩

theorem continues_config {c c' : Config L} {left after : ℕ} (hwithin : c'.Within k.size)
    (hsize : c'.size ≤ c.size) (hleft : c.st.fuel = some left) (hafter : c'.st.fuel = some after)
    (hle : after ≤ left) : Continues k b left c (.inl c') := by
  have hworth : k.worth after ≤ k.worth left := k.worth_mono hle
  refine ⟨hwithin, ?_, after, hafter, hle⟩
  unfold Config.potential
  rw [hleft, hafter, Option.getD_some, Option.getD_some]
  omega

theorem continues_returned {inst : Inst L} {pause : Pause L} {results : List (Value L)}
    {mu : Mut L} {left after : ℕ} (hb : b.fuel = some fuel) (hle : fuel ≤ left)
    (hleft : pause.config.st.fuel = some left) (hwithin : pause.config.Within k.size)
    (hafter : after ≤ left) :
    Continues k b left pause.config (resume inst pause (.returned results mu (some after))) := by
  have hreturns := @resume_returns L inst pause results mu (some after)
  cases hresume : resume inst pause (.returned results mu (some after)) with
  | inl c =>
    rw [hresume] at hreturns
    cases hreturns with
    | on hcode hctrl hframes hfuel _ =>
      have hsize : c.size = pause.config.size := by
        unfold Config.size
        rw [hcode, hctrl, hframes]
      apply continues_config _ (Nat.le_of_eq hsize) hleft hfuel hafter
      exact ⟨hcode ▸ hwithin.code, hctrl ▸ hwithin.ctrl, hframes ▸ hwithin.frames⟩
    | leaves hleaves hframes hfuel _ =>
      obtain ⟨hback⟩ := hleaves
      have hsize := hback.size
      rw [hframes] at hsize
      apply continues_config _ _ hleft (hback.fuel.trans hfuel) hafter
      · exact hback.within (hframes ▸ hwithin.frames)
      · unfold Config.size at hsize ⊢
        omega
  | inr a =>
    rw [hresume] at hreturns
    cases hreturns with
    | leaves hleaves _ hfuel _ =>
      apply continues_answer hb hle
      cases hleaves with
      | returned _ ha | crash _ ha => exact ⟨after, ha.trans hfuel, hafter⟩

theorem continues_threw {inst : Inst L} {pause : Pause L} {e : Exn L} {world : L.World} {left : ℕ}
    (hb : b.fuel = some fuel) (hle : fuel ≤ left) (hleft : pause.config.st.fuel = some left)
    (hwithin : pause.config.Within k.size)
    (hforward : ∀ c, resume inst pause (.threw e world) = .inl c →
      headed inst e pause.config.frames pause.config.ctrl = false) :
    Continues k b left pause.config (resume inst pause (.threw e world)) := by
  have hthrows := @resume_throws L inst pause e world
  cases hresume : resume inst pause (.threw e world) with
  | inl c =>
    rw [hresume] at hthrows
    rcases hthrows with ⟨hcaught, hfuel⟩ | ⟨a, ha, -⟩
    · have hsize := hcaught.size (hforward c hresume)
      apply continues_config _ _ hleft (hfuel.trans hleft) (Nat.le_refl left)
      · exact hcaught.within hwithin.ctrl hwithin.frames
      · unfold Config.size at hsize ⊢
        omega
    · cases ha
  | inr a =>
    rw [hresume] at hthrows
    apply continues_answer hb hle
    rcases hthrows with hthrows | ⟨a', ha, -, hfuel⟩
    · cases hthrows with
      | uncaught _ hfuel | crash _ hfuel => exact ⟨left, hfuel.trans hleft, Nat.le_refl left⟩
    · cases ha
      exact ⟨left, hfuel.trans hleft, Nat.le_refl left⟩

theorem continues_resumed {inv : Invoked L} {pause : Pause L} {restore : Option ℕ} {left : ℕ}
    (hb : b.fuel = some fuel) (hle : fuel ≤ left) (hleft : pause.config.st.fuel = some left)
    (hwithin : pause.config.Within k.size)
    (hforward : headedBelow p stores b o (.waiting inv pause restore :: below) = false) :
    Continues k (b.restored restore) left pause.config
      (resume (p.inst (b.restored restore) inv) pause
        (ending stores (b.restored restore) inv pause o)) := by
  have hb' : (b.restored restore).fuel = some fuel := by rw [Budget.restored_fuel, hb]
  rcases o.ends with ⟨results, rfl⟩ | ⟨e, rfl⟩ | haborts
  · obtain ⟨mu, after, hending, hafter⟩ :=
      ending_returned stores (b.restored restore) inv pause results
    rw [hending]
    rcases hafter with rfl | rfl
    · rw [hb']
      exact continues_returned hb' hle hleft hwithin hle
    · rw [hleft]
      exact continues_returned hb' hle hleft hwithin (Nat.le_refl left)
  · apply continues_threw hb' hle hleft hwithin
    intro c hresume
    have hending : ending stores (b.restored restore) inv pause (.uncaught e) =
      .threw e (stores inv.ref).world := rfl
    unfold headedBelow at hforward
    simpa only [hending, hresume] using hforward
  · rw [ending_aborts haborts]
    exact continues_answer hb' hle ⟨left, hleft, Nat.le_refl left⟩

/-- However what was running ends, what goes on is what waited. -/
theorem settle_bounded (hb : b.fuel = some fuel) (hbelow : Under k.size cap fuel below)
    (hforward : headedBelow p stores b o below = false) :
    (settle p stores b o below).Stacked k.size cap ∧
      (settle p stores b o below).potential k ≤ potentialOf k below := by
  induction below generalizing b o fuel with
  | nil => exact ⟨⟨⟨fuel, hb, hbelow⟩, trivial⟩, Nat.le_refl 0⟩
  | cons level below ih =>
    rw [potentialOf_cons]
    cases level with
    | embedder =>
      refine ⟨⟨⟨fuel, hb, hbelow⟩, trivial⟩, ?_⟩
      show potentialOf k below + k.toll ≤ k.toll + potentialOf k below
      omega
    | generated ref depth restore => exact absurd hbelow id
    | waiting inv pause restore =>
      obtain ⟨hcode, _, hwithin, left, hleft, hle, hrest⟩ := hbelow
      have hcontinues := continues_resumed hb hle hleft hwithin hforward
      have hb' : (b.restored restore).fuel = some fuel := by rw [Budget.restored_fuel, hb]
      unfold headedBelow at hforward
      unfold settle
      simp only at hforward ⊢
      cases hresume : resume (p.inst (b.restored restore) inv) pause
          (ending stores (b.restored restore) inv pause o) with
      | inl c =>
        rw [hresume] at hcontinues
        obtain ⟨hwithin', hpotential, after, hafter, hle'⟩ := hcontinues
        refine ⟨⟨⟨fuel, hb', hrest.mono hle⟩, hcode, hwithin', after, hafter, hrest.mono hle'⟩, ?_⟩
        show potentialOf k below + c.potential k ≤ pause.config.potential k + potentialOf k below
        omega
      | inr a =>
        rw [hresume] at hcontinues hforward
        obtain ⟨after, hafter, hle'⟩ := hcontinues
        obtain ⟨hstacked, hpotential⟩ := ih hafter (hrest.mono hle') hforward
        exact ⟨hstacked, Nat.le_trans hpotential (Nat.le_add_left _ _)⟩

/-! ## The steps of a nest -/

theorem Scale.call_mono {a n x y : ℕ} (hlinks : a ≤ n) (hfuel : x ≤ y) : k.call a x ≤ k.call n y := by
  have hworth : k.worth x ≤ k.worth y := k.worth_mono hfuel
  have htoll : k.toll * (a + 2) ≤ k.toll * (n + 2) := Nat.mul_le_mul_left _ (by omega)
  unfold Scale.call
  omega

theorem Scale.toll_lt_call (links fuel : ℕ) : 2 * k.toll < k.call links fuel := by
  have hpos := k.worth_pos fuel
  have htoll : k.toll * 2 ≤ k.toll * (links + 2) := Nat.mul_le_mul_left _ (by omega)
  unfold Scale.call
  omega

/-- What a call begins with comes from what its charge was worth. -/
theorem Scale.call_spent {x y : ℕ} (h : x + 1 < y) : k.worth x + k.call k.most x < k.worth y := by
  have hhalf : 2 * k.worth x ≤ k.worth (x + 1) := k.worth_spent (Nat.lt_succ_self x)
  have hspent : k.worth (x + 1) + k.price ≤ k.worth y := k.price_spent h
  unfold Scale.price at hspent
  unfold Scale.call
  omega

/-- No invocation takes up a trap. -/
theorem settle_aborts (ho : o.aborts = true) (b : Budget) (inv : Invoked L) (pause : Pause L)
    (restore : Option ℕ) (below : List (Level L)) :
    settle p stores b o (.waiting inv pause restore :: below) =
      settle p stores (b.restored restore) o below := by
  rw [settle, ending_aborts ho]
  show settle p stores ((b.restored restore).publish _) o below = _
  rw [Budget.publish_aborts ho]

theorem settle_aborts_bounded (ho : o.aborts = true) (hb : b.fuel = some fuel)
    (hbelow : Under k.size cap fuel below) :
    (settle p stores b o below).Stacked k.size cap ∧
      (settle p stores b o below).potential k ≤ potentialOf k below := by
  apply settle_bounded hb hbelow
  apply headedBelow_eq_false
  rintro e rfl
  cases ho

theorem callHost_bounded {depth : ℕ} {linked : Option (L.Ref × ℕ)} {args : List (Value L)}
    (hrefused : (settle p stores b (.trap limit) below).Stacked k.size cap ∧
      (settle p stores b (.trap limit) below).potential k ≤ potentialOf k below)
    (hbelow : Under k.size cap fuel below) {room : ℕ} (htoll : k.toll ≤ room)
    (hlinked : ∀ ref f, linked = some (ref, f) → k.call (k.links ref f) fuel ≤ room) :
    (callHost p stores limit b (some fuel) depth linked args below).Stacked k.size cap ∧
      (callHost p stores limit b (some fuel) depth linked args below).potential k ≤
        potentialOf k below + room := by
  unfold callHost
  cases hcharge : b.chargeHostCall (some fuel) depth with
  | none =>
    obtain ⟨hstacked, hpotential⟩ := hrefused
    exact ⟨hstacked, by simp only; omega⟩
  | some b' =>
    obtain ⟨hfuel, _⟩ := Budget.chargeHostCall_spec hcharge
    cases linked with
    | none => exact ⟨⟨⟨fuel, hfuel, hbelow⟩, trivial⟩, Nat.add_le_add_left htoll _⟩
    | some target =>
      obtain ⟨ref, f⟩ := target
      refine ⟨⟨⟨fuel, hfuel, hbelow⟩, rfl⟩, ?_⟩
      show potentialOf k below + k.call (k.links ref f) (b'.fuel.getD 0) ≤ _
      rw [hfuel]
      exact Nat.add_le_add_left (hlinked ref f rfl) _

theorem goOut_bounded {held : Bool} {inv : Invoked L} {pause : Pause L} {left before : ℕ}
    (hfits : k.Fits p) (hb : b.fuel = some fuel) (hbelow : Under k.size cap fuel below)
    (hcode : inv.code = false) (hcallee : ∀ f, pause.callee ≠ .compiled f)
    (hwithin : pause.config.Within k.size) (hleft : pause.config.st.fuel = some left)
    (hunder : Under k.size cap left below) (hspent : left + 1 < before)
    (hforward : ∀ ref f, pause.callee = .foreign ref f → fuel ≤ left) :
    (goOut p stores limit held b inv pause below).Stacked k.size cap ∧
      (goOut p stores limit held b inv pause below).potential k + 1 ≤
        potentialOf k below + pause.config.size + k.worth before := by
  have hcall := k.call_spent hspent
  have hwaiting : potentialOf k (.waiting inv pause none :: below) =
      pause.config.size + k.worth left + potentialOf k below := by
    rw [potentialOf_cons, Level.potential, Config.potential, hleft, Option.getD_some]
  have hrest : ∀ restore, Under k.size cap left (.waiting inv pause restore :: below) :=
    fun restore => ⟨hcode, hcallee, hwithin, left, hleft, Nat.le_refl left, hunder⟩
  unfold goOut
  cases hout : pause.callee with
  | compiled f => exact absurd hout (hcallee f)
  | foreign ref f =>
    have hle := hforward ref f hout
    refine ⟨⟨⟨fuel, hb, (hrest _).mono hle⟩, rfl⟩, ?_⟩
    show potentialOf k (.waiting inv pause (some b.depth) :: below) +
      k.call (k.links ref f) (b.fuel.getD 0) + 1 ≤ _
    have hmore : k.call (k.links ref f) fuel ≤ k.call k.most left :=
      k.call_mono (hfits.most ref f) hle
    have hwaiting' : potentialOf k (.waiting inv pause (some b.depth) :: below) =
        potentialOf k (.waiting inv pause none :: below) := rfl
    rw [hb, Option.getD_some, hwaiting', hwaiting]
    omega
  | host f =>
    have htrap : (Outcome.trap limit).aborts = true := rfl
    have hrefused : (settle p stores b (.trap limit) (.waiting inv pause none :: below)).Stacked
          k.size cap ∧
        (settle p stores b (.trap limit) (.waiting inv pause none :: below)).potential k ≤
          potentialOf k (.waiting inv pause none :: below) := by
      rw [settle_aborts htrap, potentialOf_cons]
      obtain ⟨hstacked, hpotential⟩ := settle_aborts_bounded htrap hb hbelow
      exact ⟨hstacked, Nat.le_trans hpotential (Nat.le_add_left _ _)⟩
    have htoll : k.toll ≤ k.call k.most left := by
      have hlt := k.toll_lt_call k.most left
      omega
    simp only
    rw [hleft]
    obtain ⟨hstacked, hpotential⟩ := callHost_bounded hrefused (hrest none) htoll
      fun ref f _ => k.call_mono (hfits.most ref f) (Nat.le_refl left)
    refine ⟨hstacked, ?_⟩
    rw [hwaiting] at hpotential
    exact Nat.le_trans (Nat.succ_le_succ hpotential) (by omega)

theorem beginCall_bounded {inv : Invoked L} {f : ℕ} {args : List (Value L)}
    (hfits : k.Fits p) (hb : b.fuel = some fuel) (hbelow : Under k.size cap fuel below)
    (hcode : inv.code = false) :
    (beginCall p stores limit b inv f args below).Stacked k.size cap ∧
      (beginCall p stores limit b inv f args below).potential k + k.toll ≤
        potentialOf k below + k.call (k.links inv.ref f) fuel := by
  have htoll := k.toll_lt_call (k.links inv.ref f) fuel
  have hsettle : ∀ o : Outcome L, o.aborts = true → (settle p stores b o below).Stacked k.size cap ∧
      (settle p stores b o below).potential k + k.toll ≤
        potentialOf k below + k.call (k.links inv.ref f) fuel := by
    intro o ho
    obtain ⟨hstacked, hpotential⟩ := settle_aborts_bounded ho hb hbelow
    exact ⟨hstacked, by omega⟩
  unfold beginCall
  split
  · exact hsettle .crash rfl
  · rename_i nparams linked hf
    have hrefused := @settle_aborts_bounded L k p stores b (.trap limit) below cap fuel rfl hb hbelow
    -- one link fewer, and the toll of this step
    obtain ⟨room, hroom⟩ : ∃ room, k.call (k.links inv.ref f) fuel = room + k.toll :=
      ⟨k.call (k.links inv.ref f) fuel - k.toll, by omega⟩
    rw [hb, hroom, ← Nat.add_assoc]
    have hlinked : ∀ ref' f', linked = some (ref', f') → k.call (k.links ref' f') fuel ≤ room := by
      rintro ref' f' rfl
      have hlinks := hfits.linked inv.ref f nparams ref' f' hf
      rw [Nat.mul_add, Nat.mul_one] at hlinks
      unfold Scale.call at hroom ⊢
      rw [Nat.mul_add] at hroom ⊢
      omega
    obtain ⟨hstacked, hpotential⟩ := callHost_bounded hrefused hbelow (by omega) hlinked
    exact ⟨hstacked, Nat.add_le_add_right hpotential _⟩
  · rename_i nparams defaults nres body hf
    have hbody := hfits.bodies inv.ref f nparams defaults nres body hf
    split
    · exact hsettle .crash rfl
    · split
      · exact hsettle .stackExhausted rfl
      · have hwithin : (enterTop nres body (args ++ defaults) (stores inv.ref) b).Within k.size := by
          refine ⟨hbody, ?_, ?_⟩
          · intro frame hmem
            rw [enterTop, List.mem_singleton] at hmem
            subst hmem
            trivial
          · intro frame hmem
            rw [enterTop, List.mem_singleton] at hmem
            subst hmem
            trivial
        refine ⟨⟨⟨fuel, hb, hbelow⟩, ?_, hwithin, fuel, hb, hbelow⟩, ?_⟩
        · show (inv.code && b.fuel.isNone) = false
          rw [hcode, Bool.false_and]
        · show potentialOf k below + (codeSize body + 0 + 0 + k.worth (b.fuel.getD 0)) + k.toll ≤ _
          rw [hb, Option.getD_some]
          unfold Scale.call at htoll ⊢
          rw [Nat.mul_add]
          omega

end

/-- What a step counts. -/
def Act.cost (toll : ℕ) : Act L → ℕ
  | .step .. => 1
  | .calls .. => 0
  | _ => toll

/-- What a host function brings in that calls in. -/
def Act.gain (room : ℕ) : Act L → ℕ
  | .calls .. => room
  | _ => 0

section
variable {k : Scale L} {p : Program L} {stores : Stores L} {limit : L.Reason} {cap : ℕ}
  {n n' : Nest L}

theorem clause_bounded {inv : Invoked L} {c : Config L} {held : Bool} (hfits : k.Fits p)
    (h : n.Stacked k.size cap) (hrunning : n.running = .wasm inv c)
    (hforward : Forward p n (.step stores held))
    (hstep : n.step p limit (.step stores held) = some n') :
    n'.Stacked k.size cap ∧ n'.potential k + 1 ≤ n.potential k := by
  have hnow := h.running
  rw [hrunning] at hnow
  obtain ⟨hcode, hwithin, fuel, hfuel, hunder⟩ := hnow
  obtain ⟨bfuel, hb, hbelow⟩ := h.budget
  have hok : forwardClause p stores n.budget n.below (p.inst n.budget inv) c
      (stackClause (p.inst n.budget inv) c) = true := by
    unfold Forward forward at hforward
    simpa only [hrunning] using hforward
  have hpotential : n.potential k = potentialOf k n.below + (c.size + k.worth fuel) := by
    unfold Nest.potential
    simp only [hrunning, Config.potential, hfuel, Option.getD_some]
  have hdoes := stackClause_does (p.inst_sound n.budget inv) c
  simp only [Nest.step, hrunning] at hstep
  cases hclause : stackClause (p.inst n.budget inv) c with
  | inl c' =>
    rw [hclause] at hstep hdoes hok
    cases hstep
    obtain ⟨hgoes⟩ := hdoes
    have hheaded : ∀ e, c.throws (p.inst n.budget inv) = some e →
        headed (p.inst n.budget inv) e c.frames c.ctrl = false := by
      intro e he
      simpa only [forwardClause, he, Bool.not_eq_true'] using hok
    obtain ⟨fuel', hle, hfuel'⟩ := hgoes.fuel_le hfuel
    have hless := hgoes.potential (hfits.bodies.inst n.budget inv) hwithin hfuel hheaded
    refine ⟨⟨⟨bfuel, hb, hbelow⟩, hcode, hgoes.within (hfits.bodies.inst n.budget inv) hwithin,
      fuel', hfuel', hunder.mono hle⟩, ?_⟩
    rw [hpotential]
    show potentialOf k n.below + c'.potential k + 1 ≤ _
    unfold Config.potential at hless ⊢
    rw [hfuel, Option.getD_some] at hless
    omega
  | inr x =>
    rw [hclause] at hstep hdoes hok
    cases x with
    | answered a =>
      cases hstep
      have ha : ∃ left ≤ fuel, a.fuel = some left := by
        have hafter := @clause_fuel L fuel _ c (p.inst_sound n.budget inv) hfuel
        rw [hclause] at hafter
        exact hafter
      obtain ⟨left, hle, hleft⟩ := ha
      have hpublished : ∃ after, (n.budget.publish a).fuel = some after ∧
          Under k.size cap after n.below := by
        rcases n.budget.publish_fuel_cases a with heq | heq
        · exact ⟨left, heq.trans hleft, hunder.mono hle⟩
        · exact ⟨bfuel, heq.trans hb, hbelow⟩
      obtain ⟨after, hafter, hunder'⟩ := hpublished
      have hheaded : headedBelow p stores (n.budget.publish a) a.outcome n.below = false := by
        simpa only [forwardClause, Bool.not_eq_true'] using hok
      obtain ⟨hstacked, hless⟩ := settle_bounded hafter hunder' hheaded
      have hpos := k.worth_pos fuel
      refine ⟨hstacked, ?_⟩
      rw [hpotential]
      exact Nat.le_trans (Nat.succ_le_succ hless) (by omega)
    | out pause =>
      cases hstep
      cases hdoes with
      | out heq hctrl hframes hspends _ hcompiled =>
        rename_i i _
        rw [hfuel] at hspends
        obtain ⟨hlt, hleft⟩ := hspends
        have hpos := i.size_pos
        have hcodes := hwithin.code
        rw [heq, codeSize_cons] at hcodes
        have hwithin' : pause.config.Within k.size :=
          ⟨by omega, hctrl ▸ hwithin.ctrl, hframes ▸ hwithin.frames⟩
        have hsize : pause.config.size + 1 ≤ c.size := by
          unfold Config.size
          rw [heq, codeSize_cons, hctrl, hframes]
          omega
        have hcallee : ∀ f, pause.callee ≠ .compiled f := by
          intro f hf
          have htrue : inv.code = true := (hcompiled f hf).1
          rw [hcode] at htrue
          cases htrue
        have hforeign : ∀ ref f, pause.callee = .foreign ref f → bfuel ≤ fuel - 10 := by
          intro ref f hf
          obtain ⟨callee, args, way, config⟩ := pause
          cases hf
          have hleft' : config.st.fuel = some (fuel - 10) := hleft
          simpa only [forwardClause, hb, hleft', Option.getD_some, decide_eq_true_eq] using hok
        obtain ⟨hstacked, hless⟩ := goOut_bounded hfits hb hbelow hcode hcallee hwithin' hleft
          (hunder.mono (Nat.sub_le fuel 10)) (show fuel - 10 + 1 < fuel by omega) hforeign
        refine ⟨hstacked, ?_⟩
        rw [hpotential]
        exact Nat.le_trans hless (by omega)

theorem step_bounded {act : Act L} (hfits : k.Fits p) (h : n.Stacked k.size cap)
    (hforward : Forward p n act) (hstep : n.step p limit act = some n') :
    n'.Stacked k.size cap ∧
      n'.potential k + act.cost k.toll ≤ n.potential k + act.gain (k.call k.most cap) := by
  have hnow := h.running
  obtain ⟨fuel, hb, hbelow⟩ := h.budget
  -- a host function that ends
  have hends : ∀ (stores : Stores L) (o : Outcome L), (∀ e, o ≠ .uncaught e) →
      n.running = .embedder → n' = settle p stores n.budget o n.below →
      n'.Stacked k.size cap ∧ n'.potential k + k.toll ≤ n.potential k + 0 := by
    rintro stores o ho hrunning rfl
    obtain ⟨hstacked, hless⟩ := settle_bounded hb hbelow (headedBelow_eq_false ho)
    refine ⟨hstacked, ?_⟩
    rw [Nat.add_zero, show n.potential k = potentialOf k n.below + k.toll by
      simp only [Nest.potential, hrunning]]
    omega
  cases act with
  | step stores held =>
    cases hrunning : n.running with
    | wasm inv c => exact clause_bounded hfits h hrunning hforward hstep
    | _ => simp [Nest.step, hrunning] at hstep
  | begin stores =>
    cases hrunning : n.running with
    | calling inv f args =>
      simp only [Nest.step, hrunning, Option.some.injEq] at hstep hnow
      subst hstep
      obtain ⟨hstacked, hless⟩ := beginCall_bounded hfits hb hbelow hnow
      refine ⟨hstacked, ?_⟩
      rw [show n.potential k = potentialOf k n.below + k.call (k.links inv.ref f) fuel by
        simp only [Nest.potential, hrunning, hb, Option.getD_some]]
      exact hless
    | _ => simp [Nest.step, hrunning] at hstep
  | returns stores results | traps stores reason =>
    cases hrunning : n.running with
    | embedder =>
      simp only [Nest.step, hrunning, Option.some.injEq] at hstep
      exact hends stores _ (by simp) hrunning hstep.symm
    | generated ref depth => simp only [hrunning] at hnow
    | _ => simp [Nest.step, hrunning] at hstep
  | calls ref f args =>
    cases hrunning : n.running with
    | embedder =>
      simp only [Nest.step, hrunning, Option.some.injEq] at hstep
      subst hstep
      refine ⟨⟨⟨fuel, hb, hbelow⟩, rfl⟩, ?_⟩
      have hroom : k.call (k.links ref f) fuel ≤ k.call k.most cap :=
        k.call_mono (hfits.most ref f) hbelow.le_cap
      rw [show n.potential k = potentialOf k n.below + k.toll by
        simp only [Nest.potential, hrunning]]
      show potentialOf k (.embedder :: n.below) + k.call (k.links ref f) (n.budget.fuel.getD 0) + 0 ≤
        potentialOf k n.below + k.toll + k.call k.most cap
      rw [potentialOf_cons, Level.potential, hb, Option.getD_some]
      omega
    | _ => simp [Nest.step, hrunning] at hstep
  | _ =>
    -- only generated code calls so
    cases hrunning : n.running with
    | generated ref depth => simp only [hrunning] at hnow
    | _ => simp [Nest.step, hrunning] at hstep

end

/-! ## Runs -/

def Act.isStep : Act L → Bool
  | .step .. => true
  | _ => false

/-- A host function calls in. -/
def Act.isCall : Act L → Bool
  | .calls .. => true
  | _ => false

/-- The clauses there may be from one call of the embedder's, where no body is larger. -/
def clauseBound (size fuel : ℕ) : ℕ := size + (size + 1) * 2 ^ fuel

/-- The steps, where a function is linked on at most so often. -/
def stepBound (size most fuel : ℕ) : ℕ :=
  most + 3 + size + (size + most + 3) * 2 ^ fuel

/-- How often a function is linked on: each time to an instance that was there before. -/
structure Program.Linked (p : Program L) (links : L.Ref → ℕ → ℕ) (most : ℕ) : Prop where
  most : ∀ ref f, links ref f ≤ most
  before : ∀ ref f nparams ref' f', (p ref).funcs[f]? = some (.host nparams (some (ref', f'))) →
    links ref' f' < links ref f

section
variable {p : Program L} {limit : L.Reason} {ref : L.Ref} {f : ℕ} {args : List (Value L)}
  {l : Limits} {tier : Tier} {fuel size : ℕ} {acts : List (Act L)} {n : Nest L}

/-- The clauses alone. -/
def Scale.clauses (L : Lang) (size : ℕ) : Scale L := ⟨size, 0, fun _ _ => 0, 0⟩

theorem Scale.clauses_fits (h : p.BodiesWithin size) : (Scale.clauses L size).Fits p :=
  ⟨h, fun _ _ => Nat.le_refl 0, fun _ _ _ _ _ _ => Nat.le_of_eq (by simp [Scale.clauses])⟩

theorem Scale.steps_fits {links : L.Ref → ℕ → ℕ} {most : ℕ} (h : p.BodiesWithin size)
    (hlinked : p.Linked links most) : (⟨size, 1, links, most⟩ : Scale L).Fits p := by
  refine ⟨h, hlinked.most, ?_⟩
  intro ref f nparams ref' f' hf
  have hlt := hlinked.before ref f nparams ref' f' hf
  show 1 * (links ref' f' + 1) ≤ 1 * links ref f
  omega

theorem sum_gain (room : ℕ) (acts : List (Act L)) :
    (acts.map (Act.gain room)).sum = acts.countP Act.isCall * room := by
  induction acts with
  | nil => simp
  | cons act acts ih =>
    rw [List.map_cons, List.sum_cons, ih, List.countP_cons, Nat.add_mul]
    cases act <;> simp [Act.gain, Act.isCall, Nat.add_comm]

theorem sum_cost_zero (acts : List (Act L)) :
    (acts.map (Act.cost 0)).sum = acts.countP Act.isStep := by
  induction acts with
  | nil => rfl
  | cons act acts ih =>
    rw [List.map_cons, List.sum_cons, ih, List.countP_cons]
    cases act <;> simp [Act.cost, Act.isStep, Nat.add_comm]

theorem sum_cost_one (acts : List (Act L)) :
    (acts.map (Act.cost 1)).sum + acts.countP Act.isCall = acts.length := by
  induction acts with
  | nil => rfl
  | cons act acts ih =>
    rw [List.map_cons, List.sum_cons, List.countP_cons, List.length_cons]
    cases act <;> simp [Act.cost, Act.isCall] <;> omega

/-- What a run from the embedder's call may count. -/
theorem cost_le {k : Scale L} (hfits : k.Fits p)
    (h : Run.PathIf (Nest.step p limit) (Forward p)
      (.start p ref f args { l with fuel := some fuel } tier) acts n) :
    (acts.map (Act.cost k.toll)).sum ≤
      (1 + acts.countP Act.isCall) * k.call k.most fuel := by
  have hstart : (Nest.start p ref f args { l with fuel := some fuel } tier).Stacked k.size fuel :=
    ⟨⟨fuel, rfl, Nat.le_refl fuel⟩, rfl⟩
  have hless := @Run.PathIf.cost_le (Nest L) (Act L) (Nest.step p limit) (Forward p)
    (Nest.Stacked k.size fuel) (Nest.potential k) (Act.cost k.toll)
    (Act.gain (k.call k.most fuel))
    (fun s a t hs hok hstep => step_bounded hfits hs hok hstep) _ _ _ hstart h
  have hbegin : (Nest.start p ref f args { l with fuel := some fuel } tier).potential k ≤
      k.call k.most fuel := by
    show 0 + k.call (k.links ref f) fuel ≤ k.call k.most fuel
    rw [Nat.zero_add]
    exact k.call_mono (hfits.most ref f) (Nat.le_refl fuel)
  rw [sum_gain] at hless
  rw [Nat.add_mul, Nat.one_mul]
  omega

/-- Whoever runs has a next step. -/
theorem done_of_stuck (hstores : Nonempty (Stores L)) (h : ∀ act, n.step p limit act = none) :
    ∃ r, n.running = .done r := by
  obtain ⟨stores⟩ := hstores
  cases hrunning : n.running with
  | wasm inv c =>
    have hstep := h (.step stores true)
    simp only [Nest.step, hrunning] at hstep
    cases hclause : stackClause (p.inst n.budget inv) c with
    | inl c' => simp [hclause] at hstep
    | inr x => cases x <;> simp [hclause] at hstep
  | calling inv f args => simpa [Nest.step, hrunning] using h (.begin stores)
  | generated ref depth | embedder => simpa [Nest.step, hrunning] using h (.returns stores [])
  | done r => exact ⟨r, rfl⟩

/-- A run with so much fuel whose steps meet the condition is within a bound of the fuel and the
bodies' sizes, for the embedder's call and for each that a host function makes; and it ends. -/
theorem bounded_of_forward (hbodies : p.BodiesWithin size)
    (h : Run.PathIf (Nest.step p limit) (Forward p)
      (.start p ref f args { l with fuel := some fuel } tier) acts n) :
    acts.countP Act.isStep ≤ (1 + acts.countP Act.isCall) * clauseBound size fuel ∧
      (∀ links most, p.Linked links most →
        acts.length ≤ (1 + acts.countP Act.isCall) * stepBound size most fuel) ∧
      (Nonempty (Stores L) → (∀ act, n.step p limit act = none) → ∃ r, n.running = .done r) := by
  refine ⟨?_, ?_, done_of_stuck⟩
  · have hcost := cost_le (Scale.clauses_fits hbodies) h
    rw [show (Scale.clauses L size).toll = 0 from rfl, sum_cost_zero] at hcost
    have hroom : (Scale.clauses L size).call (Scale.clauses L size).most fuel =
        clauseBound size fuel := by
      simp [Scale.clauses, Scale.call, Scale.worth, Scale.price, clauseBound]
    rw [hroom] at hcost
    exact hcost
  · intro links most hlinked
    have hcost := cost_le (Scale.steps_fits hbodies hlinked) h
    have hlength := sum_cost_one acts
    have hroom : (⟨size, 1, links, most⟩ : Scale L).call most fuel + 1 = stepBound size most fuel := by
      have hprice : size + (most + 2) + 1 = size + most + 3 := by omega
      simp only [Scale.call, Scale.worth, Scale.price, stepBound, Nat.one_mul, hprice]
      omega
    rw [← hroom, Nat.mul_add, Nat.mul_one]
    have hcost' : (acts.map (Act.cost 1)).sum ≤ (1 + acts.countP Act.isCall) *
        (⟨size, 1, links, most⟩ : Scale L).call most fuel := hcost
    omega

end

theorem reentrant_within : reentrant.BodiesWithin 1 := by
  rintro ref (_ | _ | f) nparams defaults nres body hf <;> cases hf
  decide

theorem bounded_runOut : ∃ m : Nest .bare,
    Run.execIf (Nest.step reentrant ()) (Forward reentrant) runOut
      (.start reentrant 0 0 [] ⟨some 15, 100, none, by decide⟩ .interpreted) = some m ∧
      runOut.countP Act.isStep ≤ (1 + runOut.countP Act.isCall) * clauseBound 1 15 := by
  have hrun : (Run.execIf (Nest.step reentrant ()) (Forward reentrant) runOut
      (.start reentrant 0 0 [] ⟨some 15, 100, none, by decide⟩ .interpreted)).isSome = true := by
    decide +kernel
  obtain ⟨m, hm⟩ := Option.isSome_iff_exists.mp hrun
  have hpath : Run.PathIf (Nest.step reentrant ()) (Forward reentrant)
      (.start reentrant 0 0 [] { (⟨none, 100, none, by decide⟩ : Limits) with fuel := some 15 }
        .interpreted) runOut m := .of_execIf hm
  exact ⟨m, hm, (bounded_of_forward reentrant_within hpath).1⟩

/-- `loop $l (try_table (catch_all $l) (throw))`. -/
def spinBody : Code .bare := [.tryTable 0 0 [.catchAll 0] [.throw 0]]

def spin : Program .bare := fun _ => .bare 100 [.wasm 0 [] 0 [.loop 0 0 spinBody]]

def spinStart (fuel : ℕ) : Nest .bare :=
  .start spin 0 0 [] ⟨some fuel, 100, none, hundred_pos⟩ .interpreted

/-- At the head of the loop. -/
def spinning (fuel : ℕ) (log : List (Mark × St .bare)) : Nest .bare where
  running := .wasm ⟨0, false⟩
    { code := spinBody
      ctrl := [.loop [] 0 spinBody [], .func 0]
      st := ⟨[], [], ⟨[], [], ()⟩, some fuel, 1⟩
      frames := [.toplevel]
      log }
  below := []
  budget := ⟨some fuel, 0, 0, none, 100⟩

theorem spinning_again (fuel k : ℕ) (log : List (Mark × St .bare)) :
    ∃ log', Run.Path (Nest.step spin ()) (spinning fuel log)
      (List.replicate (2 * k) (.step .bare true)) (spinning fuel log') := by
  induction k generalizing log with
  | zero => exact ⟨log, .nil _⟩
  | succ k ih =>
    obtain ⟨log', hrest⟩ := ih
      ((.throw, ⟨[], [], ⟨[], [], ()⟩, some fuel, 1⟩) ::
        (.entry, ⟨[], [], ⟨[], [], ()⟩, some fuel, 1⟩) :: log)
    refine ⟨log', ?_⟩
    rw [Nat.mul_succ, List.replicate_succ, List.replicate_succ]
    exact .cons trivial rfl (.cons trivial rfl hrest)

/-- With any fuel at all, for ever. -/
theorem not_bounded : ¬ ∃ bound : ℕ → ℕ → ℕ, ∀ (fuel : ℕ) (acts : List (Act .bare)) (n : Nest .bare),
    Run.Path (Nest.step spin ()) (spinStart fuel) acts n →
      acts.countP Act.isStep ≤ (1 + acts.countP Act.isCall) * bound fuel (codeSize spinBody) := by
  rintro ⟨bound, hall⟩
  obtain ⟨log, hspins⟩ := spinning_again 1 (bound 1 (codeSize spinBody) + 1)
    [(.entry, ⟨[], [], ⟨[], [], ()⟩, some 1, 1⟩)]
  have hle := hall 1 _ _ (.cons (a := .begin .bare) trivial rfl
    (.cons (a := .step .bare true) trivial rfl hspins))
  have hsteps : ∀ k, (List.replicate k (.step .bare true : Act .bare)).countP Act.isStep = k := by
    intro k
    simp [List.countP_replicate, Act.isStep]
  have hcalls : ∀ k, (List.replicate k (.step .bare true : Act .bare)).countP Act.isCall = 0 := by
    intro k
    simp [List.countP_replicate, Act.isCall]
  simp only [List.countP_cons, hsteps, hcalls, Act.isStep, Act.isCall] at hle
  simp at hle
  omega

end ErlangWasm.Exec
