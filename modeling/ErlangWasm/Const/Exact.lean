import ErlangWasm.Const.Steps

/-!
# Constant expressions mean what they mean at run time

The two evaluators agree on an expression exactly when every allocation is given what fits and the
answer's conversions end where they began.  A segment's offset is the address of its index type
exactly when it is not a negative `i32`.
-/

namespace ErlangWasm.Const

open Decode

/-! ## What a step leaves alone -/

theorem push_store {v : Value} {s s' : State} (h : push v s = some s') : s'.2 = s.2 := by
  cases h
  rfl

theorem binary_store {f : ℤ → ℤ → ℤ} {s s' : State} (h : binary f s = some s') : s'.2 = s.2 := by
  rw [binary] at h
  split at h
  · cases h
    rfl
  · cases h

theorem convertTop_store {c : Cast.Term → Cast.Term} {s s' : State}
    (h : convertTop c s = some s') : s'.2 = s.2 := by
  rw [convertTop] at h
  split at h
  · cases h
    rfl
  · cases h

theorem sameBelow_of_eq {h h' : Store} (heq : h' = h) : SameBelow h.nextId h h' := by
  rw [heq]
  exact SameBelow.refl _ h

theorem sameBelow_filled (h : Store) (t n : ℕ) (b : Bool) (vs : List Value) :
    SameBelow h.nextId h (writeElements (newArray h t n none b).2 h.nextId 0 vs) :=
  (sameBelow_newArray h t n none b).trans (sameBelow_writeElements _ (Nat.le_refl _) 0 vs)

/-- The interpreter writes nothing that was there before an instruction. -/
theorem sameBelow_runStep {inst : Inst} {globals : List Slot} {i : ConstInstr} {s s' : State}
    (hs : runStep inst globals i s = some s') : SameBelow s.2.nextId s.2 s'.2 := by
  cases i with
  | structNew t =>
    simp only [runStep, Option.bind_eq_bind, Option.bind_eq_some_iff] at hs
    obtain ⟨fs, -, ⟨top, rest⟩, -, vs, -, heq⟩ := hs
    cases heq
    exact sameBelow_newStruct _ _ _
  | structNewDefault t =>
    simp only [runStep, Option.bind_eq_bind, Option.bind_eq_some_iff] at hs
    obtain ⟨fs, -, heq⟩ := hs
    cases heq
    exact sameBelow_newStruct _ _ _
  | arrayNew t =>
    simp only [runStep, Option.bind_eq_bind, Option.bind_eq_some_iff] at hs
    obtain ⟨f, -, hs⟩ := hs
    split at hs
    · simp only [Option.bind_eq_some_iff] at hs
      obtain ⟨len, -, v, -, heq⟩ := hs
      cases heq
      exact sameBelow_newArray _ _ _ _ _
    · cases hs
  | arrayNewDefault t =>
    simp only [runStep, Option.bind_eq_bind, Option.bind_eq_some_iff] at hs
    obtain ⟨f, -, hs⟩ := hs
    split at hs
    · simp only [Option.bind_eq_some_iff] at hs
      obtain ⟨len, -, heq⟩ := hs
      cases heq
      exact sameBelow_newArray _ _ _ _ _
    · cases hs
  | arrayNewFixed t n =>
    simp only [runStep, Option.bind_eq_bind, Option.bind_eq_some_iff] at hs
    obtain ⟨⟨top, rest⟩, -, f, -, vs, -, heq⟩ := hs
    cases heq
    exact sameBelow_filled _ _ _ _ _
  | refI31 =>
    simp only [runStep] at hs
    split at hs
    · cases hs
      exact SameBelow.refl _ _
    · cases hs
  | globalGet i =>
    simp only [runStep, Option.bind_eq_bind, Option.bind_eq_some_iff] at hs
    obtain ⟨slot, -, hs⟩ := hs
    exact sameBelow_of_eq (push_store hs)
  | anyConvertExtern | externConvertAny => exact sameBelow_of_eq (convertTop_store hs)
  | i32Add | i32Sub | i32Mul | i64Add | i64Sub | i64Mul => exact sameBelow_of_eq (binary_store hs)
  | _ => exact sameBelow_of_eq (push_store hs)

theorem arraySet_eq {h h' : Store} {id idx : ℕ} {v : Value} (hs : arraySet h id idx v = some h') :
    h' = arraySetUnchecked h id idx v := by
  rw [arraySet] at hs
  split at hs
  · split at hs
    · cases hs
      rfl
    · cases hs
  · cases hs

theorem setElements_eq_some {h h' : Store} {id idx : ℕ} {vs : List Value}
    (hs : setElements h id idx vs = some h') : h' = writeElements h id idx vs := by
  induction vs generalizing h idx with
  | nil =>
    cases hs
    rfl
  | cons v vs ih =>
    rw [setElements, Option.bind_eq_bind, Option.bind_eq_some_iff] at hs
    obtain ⟨h₁, h1, hs⟩ := hs
    rw [ih hs, arraySet_eq h1]
    rfl

/-- The evaluator writes nothing that was there before an instruction. -/
theorem sameBelow_constStep {inst : Option Inst} {globals : List Value} {i : ConstInstr}
    {s s' : State} (hs : constStep inst globals i s = some s') : SameBelow s.2.nextId s.2 s'.2 := by
  cases i with
  | structNew t =>
    simp only [constStep, Option.bind_eq_bind, Option.bind_eq_some_iff] at hs
    obtain ⟨inst, -, fs, -, ⟨top, rest⟩, -, heq⟩ := hs
    cases heq
    exact sameBelow_newStruct _ _ _
  | structNewDefault t =>
    simp only [constStep, Option.bind_eq_bind, Option.bind_eq_some_iff] at hs
    obtain ⟨inst, -, fs, -, heq⟩ := hs
    cases heq
    exact sameBelow_newStruct _ _ _
  | arrayNew t | arrayNewDefault t =>
    simp only [constStep, Option.bind_eq_bind, Option.bind_eq_some_iff] at hs
    obtain ⟨inst, -, f, -, hs⟩ := hs
    split at hs
    · cases hs
      exact sameBelow_newArray _ _ _ _ _
    · cases hs
  | arrayNewFixed t n =>
    simp only [constStep, Option.bind_eq_bind, Option.bind_eq_some_iff] at hs
    obtain ⟨inst, -, ⟨top, rest⟩, -, f, -, h', hset, heq⟩ := hs
    cases heq
    rw [setElements_eq_some hset]
    exact sameBelow_filled _ _ _ _ _
  | refI31 =>
    simp only [constStep] at hs
    split at hs
    · cases hs
      exact SameBelow.refl _ _
    · cases hs
  | refFunc f =>
    simp only [constStep] at hs
    split at hs <;> exact sameBelow_of_eq (push_store hs)
  | globalGet i =>
    simp only [constStep, Option.bind_eq_bind, Option.bind_eq_some_iff] at hs
    obtain ⟨v, -, hs⟩ := hs
    exact sameBelow_of_eq (push_store hs)
  | anyConvertExtern | externConvertAny =>
    cases hs
    exact SameBelow.refl _ _
  | i32Add | i32Sub | i32Mul | i64Add | i64Sub | i64Mul => exact sameBelow_of_eq (binary_store hs)
  | _ => exact sameBelow_of_eq (push_store hs)

/-- Stores that hold different objects under one number stay apart. -/
theorem Apart.mono {h₁ h₂ h₁' h₂' : Store} (h : Apart h₁ h₂) (hs₁ : SameBelow h₁.nextId h₁ h₁')
    (hs₂ : SameBelow h₂.nextId h₂ h₂') : Apart h₁' h₂' := by
  obtain ⟨id, hid₁, hid₂, hdiff⟩ := h
  refine ⟨id, Nat.lt_of_lt_of_le hid₁ hs₁.next, Nat.lt_of_lt_of_le hid₂ hs₂.next, ?_⟩
  rwa [hs₁.rows id hid₁, hs₂.rows id hid₂, hs₁.elems id hid₁, hs₂.elems id hid₂]

theorem sameBelow_constRun {inst : Option Inst} {globals : List Value} {is : List ConstInstr}
    {s s' : State} (hs : constRun inst globals is s = some s') :
    SameBelow s.2.nextId s.2 s'.2 := by
  induction is generalizing s with
  | nil =>
    cases hs
    exact SameBelow.refl _ _
  | cons i is ih =>
    obtain ⟨s₁, h1, hs⟩ := Option.bind_eq_some_iff.mp hs
    have hstep := sameBelow_constStep h1
    have hrest := ih hs
    exact hstep.trans ⟨hrest.next, fun id hid => hrest.rows id (Nat.lt_of_lt_of_le hid hstep.next),
      fun id hid => hrest.elems id (Nat.lt_of_lt_of_le hid hstep.next)⟩

theorem sameBelow_bodyRun {inst : Inst} {globals : List Slot} {is : List ConstInstr}
    {s s' : State} (hs : bodyRun inst globals is s = some s') :
    SameBelow s.2.nextId s.2 s'.2 := by
  induction is generalizing s with
  | nil =>
    cases hs
    exact SameBelow.refl _ _
  | cons i is ih =>
    obtain ⟨s₁, h1, hs⟩ := Option.bind_eq_some_iff.mp hs
    have hstep := sameBelow_runStep h1
    have hrest := ih hs
    exact hstep.trans ⟨hrest.next, fun id hid => hrest.rows id (Nat.lt_of_lt_of_le hid hstep.next),
      fun id hid => hrest.elems id (Nat.lt_of_lt_of_le hid hstep.next)⟩

/-! ## Whole expressions -/

section

variable {inst : Inst} {globals : List Slot}

/-- The evaluators over an expression, from one store and the same entries. -/
theorem ran {classes : List Class} (hglobals : List.Forall₂ Value.HasClass (deref globals) classes)
    {is : List ConstInstr} {es : List Entry} {h : Store} {ts : List Class}
    (hts : typeRun inst.types classes is (es.map Entry.cls) = some ts) :
    ∃ (es' : List Entry) (h' : Store), es'.map Entry.cls = ts ∧
      operandRun inst (deref globals) is (es.map Entry.sym) = es'.map Entry.sym ∧
      constRun (some inst) (deref globals) is (es.map Entry.val, h) =
        some (es'.map Entry.val, h') ∧
      (StepsFit inst (deref globals) is (es.map Entry.sym) →
        bodyRun inst globals is (es.map Entry.run, h) = some (es'.map Entry.run, h')) ∧
      (¬ StepsFit inst (deref globals) is (es.map Entry.sym) →
        ∀ s h₂, bodyRun inst globals is (es.map Entry.run, h) = some (s, h₂) → Apart h' h₂) := by
  induction is generalizing es h with
  | nil =>
    cases hts
    exact ⟨es, h, rfl, rfl, rfl, fun _ => rfl, fun hnot => absurd trivial hnot⟩
  | cons i is ih =>
    obtain ⟨ts₁, h1, hts⟩ := Option.bind_eq_some_iff.mp hts
    obtain ⟨es₁, h₁, rfl, hstep⟩ := stepped (h := h) hglobals h1
    obtain ⟨es', h', hcls, hop, hconst, hfit, hapart⟩ := ih (h := h₁) hts
    refine ⟨es', h', hcls, ?_, ?_, ?_, ?_⟩
    · rw [operandRun, hstep.operands, hop]
    · rw [constRun, hstep.const]
      exact hconst
    · rintro ⟨hthis, hrest⟩
      rw [hstep.operands] at hrest
      rw [bodyRun, hstep.run hthis]
      exact hfit hrest
    · intro hnot s h₂ hs
      obtain ⟨s₁, hs1, hs⟩ := Option.bind_eq_some_iff.mp hs
      by_cases hthis : StepFits inst.types i (es.map Entry.sym)
      · cases (hstep.run hthis).symm.trans hs1
        apply hapart _ s h₂ hs
        intro hrest
        exact hnot ⟨hthis, hstep.operands ▸ hrest⟩
      · -- what was stored apart stays apart to the end
        exact (hstep.apart hthis s₁.1 s₁.2 hs1).mono (sameBelow_constRun hconst)
          (sameBelow_bodyRun hs)

end

theorem Apart.ne {h h₂ : Store} (hapart : Apart h h₂) : h ≠ h₂ := by
  rintro rfl
  obtain ⟨id, -, -, hdiff⟩ := hapart
  exact hdiff.elim (fun hne => hne rfl) fun hne => hne rfl

namespace ConstExpr

/-- The entry the expression ends with, and both evaluations of it. -/
theorem evaluated (e : ConstExpr) (h : Store) : ∃ (x : Entry) (h' : Store), x.cls = e.result ∧
    e.answer = some x.sym ∧
    evalConst (some e.inst) (deref e.globals) e.code h = some (x.val, h') ∧
    (StepsFit e.inst (deref e.globals) e.code [] →
      runBody e.inst e.globals e.code h = some (x.run, h')) ∧
    (¬ StepsFit e.inst (deref e.globals) e.code [] →
      ∀ v h₂, runBody e.inst e.globals e.code h = some (v, h₂) → Apart h' h₂) := by
  obtain ⟨es, h', hcls, hop, hconst, hfit, hapart⟩ :=
    @ran e.inst e.globals e.classes e.globalsTyped e.code [] h [e.result] e.typed
  obtain ⟨x, es, rfl, hx, hes⟩ := List.map_eq_cons_iff.mp hcls
  cases List.map_eq_nil_iff.mp hes
  refine ⟨x, h', hx, ?_, ?_, ?_, ?_⟩
  · rw [answer]
    exact congrArg List.head? hop
  · rw [evalConst, show constRun (some e.inst) (deref e.globals) e.code ([], h) =
      some ([x.val], h') from hconst]
    rfl
  · intro hall
    rw [runBody, show bodyRun e.inst e.globals e.code ([], h) = some ([x.run], h') from hfit hall]
    rfl
  · intro hnot v h₂ hrun
    obtain ⟨⟨s, h₃⟩, hs, hrun⟩ := Option.bind_eq_some_iff.mp hrun
    obtain ⟨v', -, hrun⟩ := Option.bind_eq_some_iff.mp hrun
    cases hrun
    exact hapart hnot s h₂ hs

/-- The evaluators agree exactly when everything fits. -/
theorem same_iff (e : ConstExpr) (h : Store) :
    evalConst (some e.inst) (deref e.globals) e.code h = runBody e.inst e.globals e.code h ↔
      e.Fits := by
  obtain ⟨x, h', -, hanswer, hconst, hfit, hapart⟩ := e.evaluated h
  have hsettled : (∀ y ∈ e.answer, y.Settled) ↔ x.run = x.val := by
    rw [hanswer, ← x.settled_iff]
    simp
  rw [Fits, hsettled, hconst]
  constructor
  · intro hsame
    by_cases hall : StepsFit e.inst (deref e.globals) e.code []
    · rw [hfit hall] at hsame
      exact ⟨hall, (congrArg Prod.fst (Option.some.inj hsame)).symm⟩
    · exact absurd rfl (hapart hall _ _ hsame.symm).ne
  · rintro ⟨hall, hval⟩
    rw [hfit hall, hval]

/-! ## Offsets -/

theorem mem_takes {ops : List Class} {r : Class} {s s' : List Class} (h : takes ops r s = some s')
    (hr : r ∈ s' → r ≠ .ref) (hops : .ref ∉ ops) (href : .ref ∉ s') : .ref ∉ s := by
  rw [takes] at h
  split at h
  · rename_i htake
    cases h
    intro hmem
    rw [← List.take_append_drop ops.length s, List.mem_append, htake] at hmem
    rcases hmem with hmem | hmem
    · exact hops hmem
    · exact href (List.mem_cons_of_mem _ hmem)
  · cases h

/-- An instruction that leaves no reference had none, allocates nothing and asks for no instance. -/
theorem step_numbers {types : List SubType} {classes : List Class} {i : ConstInstr}
    {s s' : List Class} (h : typeStep types classes i s = some s') (href : .ref ∉ s') :
    .ref ∉ s ∧
      (∀ inst globals st,
        constStep none globals i st = constStep (some inst) globals i st) ∧
      ∀ ops, StepFits types i ops := by
  have hallocates : ∀ ops, takes ops .ref s ≠ some s' := by
    intro ops htakes
    rw [takes] at htakes
    split at htakes
    · cases htakes
      exact href (List.mem_cons_self ..)
    · cases htakes
  cases i with
  | structNew t =>
    obtain ⟨fs, -, h⟩ := Option.bind_eq_some_iff.mp h
    exact absurd h (hallocates _)
  | arrayNew t | arrayNewDefault t | arrayNewFixed t n =>
    obtain ⟨f, -, h⟩ := Option.bind_eq_some_iff.mp h
    exact absurd h (hallocates _)
  | structNewDefault t =>
    obtain ⟨fs, -, h⟩ := Option.bind_eq_some_iff.mp h
    cases h
    exact absurd (List.mem_cons_self ..) href
  | refI31 | anyConvertExtern | externConvertAny => exact absurd h (hallocates _)
  | refNull t | refFunc f =>
    cases h
    exact absurd (List.mem_cons_self ..) href
  | globalGet i =>
    obtain ⟨c, -, h⟩ := Option.bind_eq_some_iff.mp h
    cases h
    exact ⟨fun hmem => href (List.mem_cons_of_mem _ hmem), fun _ _ _ => rfl, fun _ => trivial⟩
  | i32Add | i32Sub | i32Mul | i64Add | i64Sub | i64Mul =>
    exact ⟨mem_takes h (by simp) (by simp) href, fun _ _ _ => rfl, fun _ => trivial⟩
  | i32Const v | i64Const v =>
    simp only [typeStep, Option.ite_none_right_eq_some, Option.some.injEq] at h
    obtain ⟨-, rfl⟩ := h
    exact ⟨fun hmem => href (List.mem_cons_of_mem _ hmem), fun _ _ _ => rfl, fun _ => trivial⟩
  | f32Const f | f64Const f | v128Const f =>
    cases h
    exact ⟨fun hmem => href (List.mem_cons_of_mem _ hmem), fun _ _ _ => rfl, fun _ => trivial⟩

/-- An expression that answers a number allocates nothing and asks for no instance. -/
theorem run_numbers {inst : Inst} {classes : List Class} {is : List ConstInstr}
    {s s' : List Class} (h : typeRun inst.types classes is s = some s') (href : .ref ∉ s') :
    .ref ∉ s ∧ (∀ globals st, constRun none globals is st = constRun (some inst) globals is st) ∧
      ∀ globals ops, StepsFit inst globals is ops := by
  induction is generalizing s with
  | nil =>
    cases h
    exact ⟨href, fun _ _ => rfl, fun _ _ => trivial⟩
  | cons i is ih =>
    obtain ⟨s₁, h1, h⟩ := Option.bind_eq_some_iff.mp h
    obtain ⟨hmid, hrest, hfits⟩ := ih h
    obtain ⟨hs, hstep, hfit⟩ := step_numbers h1 hmid
    refine ⟨hs, ?_, fun globals ops => ⟨hfit ops, hfits _ _⟩⟩
    intro globals st
    rw [constRun, constRun, hstep inst globals st]
    exact congrArg _ (funext fun st => hrest globals st)

/-- The evaluator's reading of an offset is its address when it is not a negative `i32`. -/
theorem toU64_eq_unsigned {v : Value} {c : Class} (hv : v.HasClass c) (hc : c = .i32 ∨ c = .i64)
    {n : ℤ} (hn : v = .int n) : toU64 n = unsigned c n ↔ (c = .i32 → 0 ≤ n) := by
  rw [toU64]
  rcases hc with rfl | rfl
  · obtain ⟨m, hm, hlow, hhigh⟩ := hv
    cases hn.symm.trans hm
    simp only [unsigned, forall_const]
    split <;> omega
  · obtain ⟨m, hm, hlow, hhigh⟩ := hv
    cases hn.symm.trans hm
    simp only [unsigned, reduceCtorEq, false_implies, iff_true]
    split <;> omega

/-- An offset's address is the unsigned number of its class exactly when it is not a negative
`i32`. -/
theorem address_iff (e : ConstExpr) (h : Store) :
    (e.offset = true → ∃ n h', runBody e.inst e.globals e.code h = some (.int n, h') ∧
      evalConstAddr (deref e.globals) e.code h = some (unsigned e.result n)) ↔ e.OffsetFits := by
  rw [OffsetFits]
  apply forall_congr'
  intro hoffset
  have hnumber := e.offsetNumber hoffset
  obtain ⟨x, h', hcls, hanswer, hconst, hfit, -⟩ := e.evaluated h
  have href : .ref ∉ [e.result] := by
    rcases hnumber with hr | hr <;> simp [hr]
  obtain ⟨-, hnone, hfits⟩ := run_numbers e.typed href
  have hval : ∃ n, x.val = .int n := by
    rcases hnumber with hr | hr
    · exact x.number_of_i32 (hcls.trans hr)
    · exact x.number_of_i64 (hcls.trans hr)
  obtain ⟨n, hn⟩ := hval
  obtain ⟨hrun, hbase⟩ := x.number hn
  have hbody := hfit (hfits _ _)
  rw [hrun] at hbody
  have haddr : evalConstAddr (deref e.globals) e.code h = some (toU64 n) := by
    have heq : evalConst none (deref e.globals) e.code h = some (.int n, h') := by
      rw [evalConst, hnone, ← hn]
      exact hconst
    rw [evalConstAddr, heq]
    rfl
  have hrep : x.sym.rep = .int n := by rw [Operand.rep, hbase]; rfl
  have hiff := toU64_eq_unsigned x.typed (by rwa [hcls]) hn
  rw [hcls] at hiff
  simp only [hanswer, Option.mem_def, Option.some.injEq, forall_eq', hrep, Value.int.injEq, hbody,
    haddr, ← hiff]
  constructor
  · rintro ⟨m, h₁, heq, haddr⟩
    cases heq
    exact haddr
  · intro heq
    exact ⟨n, h', rfl, heq⟩

/-- A constant expression means what its instructions mean at run time exactly when what it
allocates and answers fits, and an offset is not a negative `i32`. -/
theorem sameMeaning_iff (e : ConstExpr) (h : Store) :
    SameMeaning e h ↔ e.Fits ∧ e.OffsetFits := by
  rw [← e.same_iff h, ← e.address_iff h]
  constructor
  · rintro ⟨hsame, haddr⟩
    exact ⟨hsame, haddr⟩
  · rintro ⟨hsame, haddr⟩
    exact ⟨hsame, haddr⟩

end ConstExpr

/-- `i32.const -1` as the offset of an active segment. -/
def minusOne : ConstExpr where
  inst := ⟨0, []⟩
  globals := []
  classes := []
  globalsTyped := .nil
  code := [.i32Const (-1)]
  result := .i32
  typed := rfl
  offset := true
  offsetNumber := fun _ => .inl rfl

/-- A store with nothing in it. -/
def emptyStore : Store where
  nextId := 0
  rows := fun _ => none
  elems := fun _ _ => none
  watermark := 0
  remembered := fun _ => false
  written := 0

/-- The offset is the address `2 ^ 32 - 1`, and is taken for `2 ^ 64 - 1`. -/
theorem not_sameMeaning : ¬ SameMeaning minusOne emptyStore := by
  intro hsame
  obtain ⟨n, h', hrun, haddr⟩ := hsame.address rfl
  cases hrun
  revert haddr
  decide

end ErlangWasm.Const
