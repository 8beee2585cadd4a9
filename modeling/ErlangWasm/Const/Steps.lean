import ErlangWasm.Const.Meaning

/-!
# One instruction, evaluated twice

From one store and the same entries, the evaluator always gives the entries and the store after the
instruction.  The interpreter gives the same when what is allocated fits, and else fails or leaves
another object in its store.
-/

namespace ErlangWasm.Const

open Decode Reasoning.Fallible

/-- Two stores hold different objects under one number that both have handed out. -/
def Apart (h h₂ : Store) : Prop :=
  ∃ id, id < h.nextId ∧ id < h₂.nextId ∧ (h.rows id ≠ h₂.rows id ∨ h.elems id ≠ h₂.elems id)

/-- The entries and the store after an instruction, of both evaluators. -/
structure Stepped (inst : Inst) (globals : List Slot) (i : ConstInstr) (es : List Entry) (h : Store)
    (es' : List Entry) (h' : Store) : Prop where
  operands : operandStep inst (deref globals) i (es.map Entry.sym) = es'.map Entry.sym
  const : constStep (some inst) (deref globals) i (es.map Entry.val, h) =
    some (es'.map Entry.val, h')
  run : StepFits inst.types i (es.map Entry.sym) →
    runStep inst globals i (es.map Entry.run, h) = some (es'.map Entry.run, h')
  apart : ¬ StepFits inst.types i (es.map Entry.sym) →
    ∀ s h₂, runStep inst globals i (es.map Entry.run, h) = some (s, h₂) → Apart h' h₂

section

variable {inst : Inst} {globals : List Slot} {h : Store}

/-! ## Instructions that allocate nothing -/

/-- A value is pushed by both. -/
theorem stepped_push {i : ConstInstr} {es : List Entry} {v : Value} {c : Class}
    (hv : v.HasClass c)
    (hop : ∀ s, operandStep inst (deref globals) i s = known v :: s)
    (hconst : ∀ s, constStep (some inst) (deref globals) i s = push v s)
    (hrun : ∀ s, runStep inst globals i s = push v s)
    (hfits : ∀ s, StepFits inst.types i s) :
    Stepped inst globals i es h (Entry.known v c hv :: es) h := by
  refine ⟨hop _, hconst _, fun _ => ?_, fun hnot => absurd (hfits _) hnot⟩
  rw [hrun, push, List.map_cons, Entry.run_known]

theorem wrapS32_bounds (v : ℤ) : -2 ^ 31 ≤ wrapS32 v ∧ wrapS32 v < 2 ^ 31 := by
  rw [wrapS32]
  have h0 := Int.emod_nonneg v (show (2 : ℤ) ^ 32 ≠ 0 by decide)
  have h1 := Int.emod_lt_of_pos v (show (0 : ℤ) < 2 ^ 32 by decide)
  split <;> omega

theorem wrapS64_bounds (v : ℤ) : -2 ^ 63 ≤ wrapS64 v ∧ wrapS64 v < 2 ^ 63 := by
  rw [wrapS64]
  have h0 := Int.emod_nonneg v (show (2 : ℤ) ^ 64 ≠ 0 by decide)
  have h1 := Int.emod_lt_of_pos v (show (0 : ℤ) < 2 ^ 64 by decide)
  split <;> omega

/-- Two numbers on top are replaced by one that both compute. -/
theorem stepped_binary {i : ConstInstr} {f : ℤ → ℤ → ℤ} {c : Class} {ea eb : Entry}
    {rest : List Entry} (ha : ∃ n, ea.val = .int n) (hb : ∃ n, eb.val = .int n)
    (hc : ∀ a b, (Value.int (f a b)).HasClass c)
    (hop : ∀ s, operandStep inst (deref globals) i s = computed f s)
    (hconst : ∀ s, constStep (some inst) (deref globals) i s = binary f s)
    (hrun : ∀ s, runStep inst globals i s = binary f s)
    (hfits : StepFits inst.types i ((eb :: ea :: rest).map Entry.sym)) :
    ∃ es' h', es'.map Entry.cls = c :: rest.map Entry.cls ∧
      Stepped inst globals i (eb :: ea :: rest) h es' h' := by
  obtain ⟨a, ha⟩ := ha
  obtain ⟨b, hb⟩ := hb
  obtain ⟨hruna, hbasea⟩ := ea.number ha
  obtain ⟨hrunb, hbaseb⟩ := eb.number hb
  refine ⟨Entry.known (.int (f a b)) c (hc a b) :: rest, h, rfl, ?_, ?_, fun _ => ?_,
    fun hnot => absurd hfits hnot⟩
  · rw [hop, List.map_cons, List.map_cons]
    obtain ⟨ca, ⟨ba, csa⟩, va, ta, hea⟩ := ea
    obtain ⟨cb, ⟨bb, csb⟩, vb, tb, heb⟩ := eb
    cases hbasea
    cases hbaseb
    rfl
  · rw [hconst]
    simp only [List.map_cons, binary, ha, hb]
    rfl
  · rw [hrun]
    simp only [List.map_cons, binary, hruna, hrunb, Entry.run_known]

theorem stepped_i32 {i : ConstInstr} (f : ℤ → ℤ → ℤ) {es : List Entry} {ts : List Class}
    (hts : takes [.i32, .i32] .i32 (es.map Entry.cls) = some ts)
    (hop : ∀ s, operandStep inst (deref globals) i s = computed (fun a b => wrapS32 (f a b)) s)
    (hconst : ∀ s, constStep (some inst) (deref globals) i s =
      binary (fun a b => wrapS32 (f a b)) s)
    (hrun : ∀ s, runStep inst globals i s = binary (fun a b => wrapS32 (f a b)) s)
    (hfits : StepFits inst.types i (es.map Entry.sym)) :
    ∃ es' h', es'.map Entry.cls = ts ∧ Stepped inst globals i es h es' h' := by
  obtain ⟨eb, ea, rest, rfl, hb, ha, rfl⟩ := takes_two hts
  exact stepped_binary (ea.number_of_i32 ha) (eb.number_of_i32 hb)
    (fun a b => ⟨_, rfl, wrapS32_bounds _⟩) hop hconst hrun hfits

theorem stepped_i64 {i : ConstInstr} (f : ℤ → ℤ → ℤ) {es : List Entry} {ts : List Class}
    (hts : takes [.i64, .i64] .i64 (es.map Entry.cls) = some ts)
    (hop : ∀ s, operandStep inst (deref globals) i s = computed (fun a b => wrapS64 (f a b)) s)
    (hconst : ∀ s, constStep (some inst) (deref globals) i s =
      binary (fun a b => wrapS64 (f a b)) s)
    (hrun : ∀ s, runStep inst globals i s = binary (fun a b => wrapS64 (f a b)) s)
    (hfits : StepFits inst.types i (es.map Entry.sym)) :
    ∃ es' h', es'.map Entry.cls = ts ∧ Stepped inst globals i es h es' h' := by
  obtain ⟨eb, ea, rest, rfl, hb, ha, rfl⟩ := takes_two hts
  exact stepped_binary (ea.number_of_i64 ha) (eb.number_of_i64 hb)
    (fun a b => ⟨_, rfl, wrapS64_bounds _⟩) hop hconst hrun hfits

/-- The entry with one more conversion. -/
def Entry.conv (e : Entry) (c : Conv) : Entry where
  cls := e.cls
  sym := { e.sym with convs := e.sym.convs ++ [c] }
  val := e.val
  typed := e.typed
  base := e.base

theorem Entry.run_conv (e : Entry) (c : Conv) {t : Cast.Term} (ht : e.run = .ref t) :
    (e.conv c).run = .ref (c.apply t) := by
  obtain ⟨cls, ⟨base, convs⟩, val, typed, hbase⟩ := e
  cases val with
  | ref u =>
    cases ht
    simp [Entry.run, Entry.conv, Operand.convert]
  | _ => cases ht

theorem Entry.run_ref (e : Entry) (h : e.cls = .ref) : ∃ t, e.run = .ref t := by
  obtain ⟨t, ht⟩ := e.ref_of_ref h
  rw [Entry.run, ht]
  exact ⟨_, rfl⟩

/-- A conversion is noted of the operand, applied by the interpreter, ignored by the evaluator. -/
theorem stepped_conv {i : ConstInstr} {c : Conv} {e : Entry} {rest : List Entry}
    (he : e.cls = .ref)
    (hop : ∀ x s, operandStep inst (deref globals) i (x :: s) =
      { x with convs := x.convs ++ [c] } :: s)
    (hconst : ∀ s, constStep (some inst) (deref globals) i s = some s)
    (hrun : ∀ s, runStep inst globals i s = convertTop c.apply s)
    (hfits : ∀ s, StepFits inst.types i s) :
    Stepped inst globals i (e :: rest) h (e.conv c :: rest) h := by
  refine ⟨hop _ _, hconst _, fun _ => ?_, fun hnot => absurd (hfits _) hnot⟩
  obtain ⟨t, ht⟩ := e.run_ref he
  rw [hrun]
  simp only [List.map_cons, convertTop, ht, e.run_conv c ht]

/-! ## Allocations -/

theorem allocLen_eq_some {n : ℤ} {len : ℕ} (h : allocLen n = some len) :
    len = toU32 n ∧ toU32 n ≤ 0xFFFFFFF := by
  rw [allocLen] at h
  split at h
  · cases h
    exact ⟨rfl, by assumption⟩
  · cases h

theorem stepped_structNew {t : ℕ} {fs : List FieldType}
    (hfs : structFieldsOf inst.types t = some fs) {top rest : List Entry}
    (hlen : top.length = fs.length) :
    ∃ h', Stepped inst globals (.structNew t) (top ++ rest) h
      (Entry.fresh h.nextId :: rest) h' := by
  have hzip : ∀ fx, fx ∈ fs.zip (((top ++ rest).map Entry.sym).take fs.length).reverse ↔
      fx ∈ fs.zip (top.reverse.map Entry.sym) := by
    intro fx
    rw [List.map_append, ← hlen, List.take_left' (by simp), List.map_reverse]
  have hfits : StepFits inst.types (.structNew t) ((top ++ rest).map Entry.sym) ↔
      narrowAll fs (top.reverse.map Entry.run) = some (top.reverse.map Entry.val) := by
    rw [narrowAll_eq_iff (by simp [hlen])]
    simp only [StepFits, hfs, Option.some.injEq, forall_eq', hzip]
  have hrun : runStep inst globals (.structNew t) ((top ++ rest).map Entry.run, h) =
      (narrowAll fs (top.reverse.map Entry.run)).map fun vs =>
        ((newStruct h t vs).1 :: rest.map Entry.run, (newStruct h t vs).2) := by
    simp only [runStep, hfs, List.map_append, split_append (show (top.map Entry.run).length =
      fs.length by simp [hlen]), List.map_reverse, Option.bind_eq_bind, Option.bind_some]
    exact (Option.map_eq_bind ..).symm
  refine ⟨(newStruct h t (top.reverse.map Entry.val)).2, ?_, ?_, ?_, ?_⟩
  · simp only [operandStep, hfs, Option.getD_some, List.map_append, List.map_cons]
    rw [← hlen, List.drop_left' (by simp)]
    rfl
  · simp only [constStep, hfs, List.map_append, split_append (show (top.map Entry.val).length =
      fs.length by simp [hlen]), List.map_reverse, Option.bind_eq_bind, Option.bind_some]
    rfl
  · intro hall
    rw [hrun, hfits.mp hall]
    rfl
  · intro hnot s h₂ hs
    rw [hrun, Option.map_eq_some_iff] at hs
    obtain ⟨vs, hvs, heq⟩ := hs
    cases heq
    refine ⟨h.nextId, Nat.lt_succ_self _, Nat.lt_succ_self _, .inl ?_⟩
    intro hrows
    apply hnot
    rw [hfits, hvs]
    simpa [newStruct, eq_comm] using hrows

theorem stepped_structNewDefault {t : ℕ} {fs : List FieldType}
    (hfs : structFieldsOf inst.types t = some fs) {es : List Entry} :
    ∃ h', Stepped inst globals (.structNewDefault t) es h (Entry.fresh h.nextId :: es) h' := by
  refine ⟨(newStruct h t (fs.map fieldDefault)).2, rfl, ?_, fun _ => ?_,
    fun hnot => absurd trivial hnot⟩
  · simp only [constStep, hfs, Option.bind_eq_bind, Option.bind_some]
    rfl
  · simp only [runStep, hfs, Option.bind_eq_bind, Option.bind_some]
    rfl

theorem stepped_arrayNew {t : ℕ} {f : FieldType} (hf : arrayFieldOf inst.types t = some f)
    {en ev : Entry} (hn : en.cls = .i32) {rest : List Entry} :
    ∃ h', Stepped inst globals (.arrayNew t) (en :: ev :: rest) h
      (Entry.fresh h.nextId :: rest) h' := by
  obtain ⟨n, hval⟩ := en.number_of_i32 hn
  obtain ⟨hruneq, -⟩ := en.number hval
  have hfits : StepFits inst.types (.arrayNew t) ((en :: ev :: rest).map Entry.sym) ↔
      toU32 n ≤ 0xFFFFFFF ∧ narrow f ev.run = some ev.val := by
    simp [StepFits, hf, ev.fits_iff, en.isLength_iff hval]
  have hrun : runStep inst globals (.arrayNew t) ((en :: ev :: rest).map Entry.run, h) =
      (allocLen n).bind fun len => (narrow f ev.run).map fun v =>
        ((newArray h t len (some v) (traced f)).1 :: rest.map Entry.run,
          (newArray h t len (some v) (traced f)).2) := by
    simp only [runStep, hf, List.map_cons, hruneq, Option.bind_eq_bind, Option.bind_some]
    congr 1
    funext len
    exact (Option.map_eq_bind ..).symm
  refine ⟨(newArray h t (toU32 n) (some ev.val) (traced f)).2, rfl, ?_, ?_, ?_⟩
  · simp only [constStep, hf, List.map_cons, hval, Option.bind_eq_bind, Option.bind_some]
    rfl
  · intro hall
    obtain ⟨hle, hnarrow⟩ := hfits.mp hall
    rw [hrun, hnarrow, allocLen, if_pos hle]
    rfl
  · intro hnot s h₂ hs
    rw [hrun, Option.bind_eq_some_iff] at hs
    obtain ⟨len, hlen, hs⟩ := hs
    obtain ⟨rfl, hle⟩ := allocLen_eq_some hlen
    obtain ⟨v, hv, heq⟩ := Option.map_eq_some_iff.mp hs
    cases heq
    refine ⟨h.nextId, Nat.lt_succ_self _, Nat.lt_succ_self _, .inl ?_⟩
    intro hrows
    apply hnot
    rw [hfits, hv]
    exact ⟨hle, by simpa [newArray, eq_comm] using hrows⟩

theorem stepped_arrayNewDefault {t : ℕ} {f : FieldType} (hf : arrayFieldOf inst.types t = some f)
    {en : Entry} (hn : en.cls = .i32) {rest : List Entry} :
    ∃ h', Stepped inst globals (.arrayNewDefault t) (en :: rest) h
      (Entry.fresh h.nextId :: rest) h' := by
  obtain ⟨n, hval⟩ := en.number_of_i32 hn
  obtain ⟨hruneq, -⟩ := en.number hval
  have hfits : StepFits inst.types (.arrayNewDefault t) ((en :: rest).map Entry.sym) ↔
      toU32 n ≤ 0xFFFFFFF := by
    simp [StepFits, en.isLength_iff hval]
  refine ⟨(newArray h t (toU32 n) (some (fieldDefault f)) (traced f)).2, rfl, ?_, ?_, ?_⟩
  · simp only [constStep, hf, List.map_cons, hval, Option.bind_eq_bind, Option.bind_some]
    rfl
  · intro hall
    simp only [runStep, hf, List.map_cons, hruneq, Option.bind_eq_bind, Option.bind_some, allocLen,
      if_pos (hfits.mp hall)]
    rfl
  · intro hnot s h₂ hs
    simp only [runStep, hf, List.map_cons, hruneq, Option.bind_eq_bind, Option.bind_some, allocLen,
      if_neg (fun hle => hnot (hfits.mpr hle))] at hs
    cases hs

theorem stepped_arrayNewFixed {t n : ℕ} {f : FieldType} (hf : arrayFieldOf inst.types t = some f)
    {top rest : List Entry} (hlen : top.length = n) :
    ∃ h', Stepped inst globals (.arrayNewFixed t n) (top ++ rest) h
      (Entry.fresh h.nextId :: rest) h' := by
  have hfits : StepFits inst.types (.arrayNewFixed t n) ((top ++ rest).map Entry.sym) ↔
      (top.reverse.map Entry.run).mapM (narrow f) = some (top.reverse.map Entry.val) := by
    rw [narrowEach_eq_iff]
    simp only [StepFits, hf, Option.some.injEq, forall_eq', List.map_append]
    rw [← hlen, List.take_left' (by simp), List.map_reverse]
    simp only [List.mem_reverse]
  have hrun : runStep inst globals (.arrayNewFixed t n) ((top ++ rest).map Entry.run, h) =
      ((top.reverse.map Entry.run).mapM (narrow f)).map fun vs =>
        ((newArray h t n none (traced f)).1 :: rest.map Entry.run,
          writeElements (newArray h t n none (traced f)).2 h.nextId 0 vs) := by
    simp only [runStep, hf, List.map_append, split_append (show (top.map Entry.run).length = n by
      simp [hlen]), List.map_reverse, Option.bind_eq_bind, Option.bind_some]
    exact (Option.map_eq_bind ..).symm
  have hset : setElements (newArray h t n none (traced f)).2 h.nextId 0
      (top.reverse.map Entry.val) = some (writeElements (newArray h t n none (traced f)).2
        h.nextId 0 (top.reverse.map Entry.val)) :=
    setElements_eq (Function.update_self ..) (by simp [hlen])
  refine ⟨writeElements (newArray h t n none (traced f)).2 h.nextId 0 (top.reverse.map Entry.val),
    ?_, ?_, ?_, ?_⟩
  · simp only [operandStep, List.map_append, List.map_cons]
    rw [← hlen, List.drop_left' (by simp)]
    rfl
  · simp only [constStep, hf, List.map_append, split_append (show (top.map Entry.val).length = n by
      simp [hlen]), ← List.map_reverse, Option.bind_eq_bind, Option.bind_some, hset]
    rfl
  · intro hall
    rw [hrun, hfits.mp hall]
    rfl
  · intro hnot s h₂ hs
    obtain ⟨vs, hvs, heq⟩ := Option.map_eq_some_iff.mp (hrun.symm.trans hs)
    cases heq
    refine ⟨h.nextId, ?_, ?_, .inr ?_⟩
    · rw [nextId_writeElements]
      exact Nat.lt_succ_self _
    · rw [nextId_writeElements]
      exact Nat.lt_succ_self _
    · intro helems
      apply hnot
      rw [hfits, hvs]
      obtain ⟨hlen', -⟩ := get_of_mapM hvs
      congr 1
      apply List.ext_getElem?
      intro i
      have hi := congrFun helems i
      rw [elems_writeElements, elems_writeElements] at hi
      rw [List.length_map] at hlen'
      by_cases hin : i < top.length
      · rw [if_pos (by simp; omega), if_pos (by simp at hlen'; omega)] at hi
        exact hi.symm
      · rw [List.getElem?_eq_none (by simp at hlen'; omega), List.getElem?_eq_none (by simp; omega)]

/-! ## Any instruction -/

theorem forall₂_getElem? {vs : List Value} {cs : List Class}
    (h : List.Forall₂ Value.HasClass vs cs) {i : ℕ} {c : Class} (hc : cs[i]? = some c) :
    ∃ v, vs[i]? = some v ∧ v.HasClass c := by
  induction h generalizing i with
  | nil => simp at hc
  | cons hv _ ih =>
    cases i with
    | zero =>
      cases hc
      exact ⟨_, rfl, hv⟩
    | succ i => exact ih hc

/-- An instruction that validation accepts, from entries of the classes on the stack. -/
theorem stepped {classes : List Class}
    (hglobals : List.Forall₂ Value.HasClass (deref globals) classes) {i : ConstInstr}
    {es : List Entry} {ts : List Class} (hts : typeStep inst.types classes i
      (es.map Entry.cls) = some ts) :
    ∃ es' h', es'.map Entry.cls = ts ∧ Stepped inst globals i es h es' h' := by
  have hpush : ∀ (v : Value) (c : Class) (hv : v.HasClass c), ts = c :: es.map Entry.cls →
      Stepped inst globals i es h (Entry.known v c hv :: es) h →
      ∃ es' h', es'.map Entry.cls = ts ∧ Stepped inst globals i es h es' h' := by
    intro v c hv hts hstep
    exact ⟨Entry.known v c hv :: es, h, hts.symm, hstep⟩
  cases i with
  | i32Const v =>
    simp only [typeStep, Option.ite_none_right_eq_some, Option.some.injEq] at hts
    exact hpush (.int v) .i32 ⟨v, rfl, hts.1⟩ hts.2.symm
      (stepped_push _ (fun _ => rfl) (fun _ => rfl) (fun _ => rfl) fun _ => trivial)
  | i64Const v =>
    simp only [typeStep, Option.ite_none_right_eq_some, Option.some.injEq] at hts
    exact hpush (.int v) .i64 ⟨v, rfl, hts.1⟩ hts.2.symm
      (stepped_push _ (fun _ => rfl) (fun _ => rfl) (fun _ => rfl) fun _ => trivial)
  | f32Const f =>
    exact hpush (.float f) .f32 ⟨f, rfl⟩ (Option.some.inj hts).symm
      (stepped_push _ (fun _ => rfl) (fun _ => rfl) (fun _ => rfl) fun _ => trivial)
  | f64Const f =>
    exact hpush (.float f) .f64 ⟨f, rfl⟩ (Option.some.inj hts).symm
      (stepped_push _ (fun _ => rfl) (fun _ => rfl) (fun _ => rfl) fun _ => trivial)
  | v128Const bs =>
    exact hpush (.bytes bs) .v128 ⟨bs, rfl⟩ (Option.some.inj hts).symm
      (stepped_push _ (fun _ => rfl) (fun _ => rfl) (fun _ => rfl) fun _ => trivial)
  | refNull ht =>
    exact hpush (.ref .null) .ref ⟨_, rfl⟩ (Option.some.inj hts).symm
      (stepped_push _ (fun _ => rfl) (fun _ => rfl) (fun _ => rfl) fun _ => trivial)
  | refFunc f =>
    exact hpush (.ref (.funcref inst.id f)) .ref ⟨_, rfl⟩ (Option.some.inj hts).symm
      (stepped_push _ (fun _ => rfl) (fun _ => rfl) (fun _ => rfl) fun _ => trivial)
  | globalGet i =>
    obtain ⟨c, hc, hts⟩ := Option.bind_eq_some_iff.mp hts
    obtain ⟨v, hget, hv⟩ := forall₂_getElem? hglobals hc
    refine hpush _ _ hv (Option.some.inj hts).symm (stepped_push _ ?_ ?_ ?_ fun _ => trivial)
    · intro s
      rw [operandStep, hget]
      rfl
    · intro s
      simp only [constStep, hget, Option.bind_eq_bind, Option.bind_some]
    · intro s
      obtain ⟨slot, hslot, rfl⟩ := Option.map_eq_some_iff.mp (List.getElem?_map ▸ hget)
      simp only [runStep, hslot, Option.bind_eq_bind, Option.bind_some]
  | structNew t =>
    obtain ⟨fs, hfs, hts⟩ := Option.bind_eq_some_iff.mp hts
    obtain ⟨top, rest, rfl, htop, rfl⟩ := takes_entries hts
    have hlen : top.length = fs.length := by
      have := congrArg List.length htop
      simpa using this
    obtain ⟨h', hstep⟩ := @stepped_structNew inst globals h t fs hfs top rest hlen
    exact ⟨_, h', rfl, hstep⟩
  | structNewDefault t =>
    obtain ⟨fs, hfs, hts⟩ := Option.bind_eq_some_iff.mp hts
    cases hts
    obtain ⟨h', hstep⟩ := stepped_structNewDefault hfs
    exact ⟨_, h', rfl, hstep⟩
  | arrayNew t =>
    obtain ⟨f, hf, hts⟩ := Option.bind_eq_some_iff.mp hts
    obtain ⟨en, ev, rest, rfl, hn, -, rfl⟩ := takes_two hts
    obtain ⟨h', hstep⟩ := stepped_arrayNew hf hn
    exact ⟨_, h', rfl, hstep⟩
  | arrayNewDefault t =>
    obtain ⟨f, hf, hts⟩ := Option.bind_eq_some_iff.mp hts
    obtain ⟨en, rest, rfl, hn, rfl⟩ := takes_one hts
    obtain ⟨h', hstep⟩ := stepped_arrayNewDefault hf hn
    exact ⟨_, h', rfl, hstep⟩
  | arrayNewFixed t n =>
    obtain ⟨f, hf, hts⟩ := Option.bind_eq_some_iff.mp hts
    obtain ⟨top, rest, rfl, htop, rfl⟩ := takes_entries hts
    have hlen : top.length = n := by
      have := congrArg List.length htop
      simpa using this
    obtain ⟨h', hstep⟩ := @stepped_arrayNewFixed inst globals h t n f hf top rest hlen
    exact ⟨_, h', rfl, hstep⟩
  | refI31 =>
    obtain ⟨e, rest, rfl, he, rfl⟩ := takes_one hts
    obtain ⟨n, hn⟩ := e.number_of_i32 he
    obtain ⟨hrun, hbase⟩ := e.number hn
    refine ⟨Entry.known (i31Of n) .ref ⟨_, rfl⟩ :: rest, h, rfl, ?_, ?_, fun _ => ?_,
      fun hnot => absurd trivial hnot⟩
    · obtain ⟨c, ⟨b, cs⟩, v, hv, hb⟩ := e
      cases hbase
      rfl
    · simp only [List.map_cons, constStep, hn]
      rfl
    · simp only [List.map_cons, runStep, hrun]
      rfl
  | anyConvertExtern =>
    obtain ⟨e, rest, rfl, he, rfl⟩ := takes_one hts
    refine ⟨e.conv .anyConvertExtern :: rest, h, by simp [Entry.conv, he], ?_⟩
    exact stepped_conv he (fun _ _ => rfl) (fun _ => rfl) (fun _ => rfl) fun _ => trivial
  | externConvertAny =>
    obtain ⟨e, rest, rfl, he, rfl⟩ := takes_one hts
    refine ⟨e.conv .externConvertAny :: rest, h, by simp [Entry.conv, he], ?_⟩
    exact stepped_conv he (fun _ _ => rfl) (fun _ => rfl) (fun _ => rfl) fun _ => trivial
  | i32Add => exact stepped_i32 (· + ·) hts (fun _ => rfl) (fun _ => rfl) (fun _ => rfl) trivial
  | i32Sub => exact stepped_i32 (· - ·) hts (fun _ => rfl) (fun _ => rfl) (fun _ => rfl) trivial
  | i32Mul => exact stepped_i32 (· * ·) hts (fun _ => rfl) (fun _ => rfl) (fun _ => rfl) trivial
  | i64Add => exact stepped_i64 (· + ·) hts (fun _ => rfl) (fun _ => rfl) (fun _ => rfl) trivial
  | i64Sub => exact stepped_i64 (· - ·) hts (fun _ => rfl) (fun _ => rfl) (fun _ => rfl) trivial
  | i64Mul => exact stepped_i64 (· * ·) hts (fun _ => rfl) (fun _ => rfl) (fun _ => rfl) trivial

end

end ErlangWasm.Const
