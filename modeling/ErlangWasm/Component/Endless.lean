import ErlangWasm.Component.References

/-!
# Reading a component's types comes to an end

Each nested type takes a byte of the file, so the decoding alone always ends; what may not is the
following of references.  A reading that leaves fewer bytes than it was given is `Reads`.
-/

namespace ErlangWasm.Component.TypeSection

open Reasoning
open Decode (Bytes)

/-! ## Readings that take bytes -/

/-- Comes to an end unless it asks for what loops, and leaves fewer than `k` bytes. -/
abbrev Reads {α : Type} (k : ℕ) (x : Reading (α × Bytes)) : Prop :=
  x.Yields Looped fun r => r.2.length < k

variable {α β : Type} {k m : ℕ}

theorem Reads.pure {a : α} {rest : Bytes} (h : rest.length < k) :
    Reads k (Pure.pure (a, rest)) := Inquiry.Yields.pure h

theorem Reads.bind {x : Reading (α × Bytes)} {f : α × Bytes → Reading β} {P : β → Prop}
    (hx : Reads k x) (hf : ∀ a rest, rest.length < k → (f (a, rest)).Yields Looped P) :
    (x >>= f).Yields Looped P := Inquiry.Yields.bind hx fun r hr => hf r.1 r.2 hr

theorem Reads.le {x : Reading (α × Bytes)} (hx : Reads k x) (h : k ≤ m) : Reads m x :=
  Inquiry.Yields.mono hx fun _ hr => Nat.lt_of_lt_of_le hr h

theorem u32_reads (bin : Bytes) : Reads bin.length (u32 bin) := by
  unfold u32
  cases h : Decode.u32 bin with
  | ok r =>
    obtain ⟨v, rest⟩ := r
    obtain ⟨pre, rfl, henc⟩ :=
      ((@Decode.unsignedByte_exact 32 (by decide)).accepts bin v rest).mp h
    have hpre : 0 < pre.length := by cases henc <;> simp
    exact Reads.pure (by rw [List.length_append]; omega)
  | error e => exact .raise _

theorem split_reads (size : ℕ) (bin : Bytes) : Reads (bin.length + 1) (split size bin) := by
  unfold split
  split
  · exact Reads.pure (by rw [List.length_drop]; omega)
  · exact .raise _

theorem plainName_reads (bin : Bytes) : Reads bin.length (plainName bin) :=
  (u32_reads bin).bind fun len rest0 h => (split_reads len rest0).le h

theorem label_reads (bin : Bytes) : Reads bin.length (label bin) := by
  cases bin with
  | nil => exact .raise _
  | cons _ rest0 => exact (plainName_reads rest0).le (Nat.le_succ _)

/-! ## Vectors -/

/-- Reads any bytes no longer than `k`. -/
def ReadsTo (k : ℕ) (entry : Bytes → Reading (α × Bytes)) : Prop :=
  ∀ bin, bin.length ≤ k → Reads bin.length (entry bin)

variable {entry : Bytes → Reading (α × Bytes)}

theorem ReadsTo.entries (h : ReadsTo k entry) (n : ℕ) {bin : Bytes} (hbin : bin.length ≤ k)
    (acc : List α) : Reads (bin.length + 1) (entries entry n bin acc) := by
  induction n generalizing bin acc with
  | zero => exact Reads.pure (Nat.lt_succ_self _)
  | succ n ih =>
    refine (h bin hbin).bind fun a rest hrest => ?_
    exact (ih (hrest.le.trans hbin) (a :: acc)).le (by omega)

theorem ReadsTo.vector (h : ReadsTo k entry) : ReadsTo k (vector entry) := by
  intro bin hbin
  refine (u32_reads bin).bind fun count rest hrest => ?_
  exact (h.entries count (hrest.le.trans hbin) []).le hrest

/-! ## Value types -/

section ValueTypes

variable {valtype : Bytes → Reading (Desc × Bytes)}

theorem ReadsTo.optValtype (h : ReadsTo k valtype) : ReadsTo k (optValtype valtype) := by
  intro bin hbin
  unfold TypeSection.optValtype
  split
  · exact Reads.pure (Nat.lt_succ_self _)
  · rw [List.length_cons] at hbin
    exact (h _ (by omega)).le (Nat.le_succ _)
  · exact .raise _

theorem ReadsTo.namedType (h : ReadsTo k valtype) : ReadsTo k (namedType valtype) := by
  intro bin hbin
  refine (plainName_reads bin).bind fun name r0 h0 => ?_
  refine (h r0 (h0.le.trans hbin)).bind fun d r1 h1 => ?_
  exact Reads.pure (h1.trans h0)

theorem skipRefinement_yields (bin : Bytes) :
    (skipRefinement bin).Yields Looped fun r => r.length < bin.length := by
  unfold skipRefinement
  split
  · exact .pure (Nat.lt_succ_self _)
  · refine (u32_reads _).bind fun _ r1 h1 => .pure ?_
    exact h1.trans (Nat.lt_succ_self _)
  · exact .raise _

theorem ReadsTo.variantCase (h : ReadsTo k valtype) : ReadsTo k (variantCase valtype) := by
  intro bin hbin
  refine (plainName_reads bin).bind fun name r0 h0 => ?_
  refine (h.optValtype r0 (h0.le.trans hbin)).bind fun payload r1 h1 => ?_
  exact (skipRefinement_yields r1).bind fun r2 h2 => Reads.pure (h2.trans (h1.trans h0))

/-- What reads a part and makes something of it reads. -/
theorem ReadsTo.then {f : α → β} (h : ReadsTo k entry) :
    ReadsTo k fun bin => do
      let (a, r) ← entry bin
      return (f a, r) :=
  fun bin hbin => (h bin hbin).bind fun _ _ hr => Reads.pure hr

theorem u32_readsTo (k : ℕ) : ReadsTo k u32 := fun bin _ => u32_reads bin

theorem plainName_readsTo (k : ℕ) : ReadsTo k plainName := fun bin _ => plainName_reads bin

theorem ReadsTo.constructed (h : ReadsTo k valtype) {b : UInt8} {r0 : Bytes} (hr0 : r0.length ≤ k)
    {x : Reading (Desc × Bytes)} (hx : constructed valtype b r0 = some x) : Reads r0.length x := by
  have hnames : ReadsTo k labelVec := (plainName_readsTo k).vector
  unfold TypeSection.constructed at hx
  split at hx
  · cases hx
    exact h.then r0 hr0
  · cases hx
    exact h.namedType.vector.then r0 hr0
  · cases hx
    exact h.vector.then r0 hr0
  · cases hx
    exact h.variantCase.vector.then r0 hr0
  · cases hx
    exact hnames.then r0 hr0
  · cases hx
    exact hnames.then r0 hr0
  · cases hx
    exact h.then r0 hr0
  · -- the one constructor with two parts
    cases hx
    refine (h.optValtype r0 hr0).bind fun ok r1 h1 => ?_
    refine (h.optValtype r1 (h1.le.trans hr0)).bind fun err r2 h2 => ?_
    exact Reads.pure (h2.trans h1)
  · cases hx
    exact (u32_readsTo k).then r0 hr0
  · cases hx
    exact (u32_readsTo k).then r0 hr0
  · cases hx
    exact h.optValtype.then r0 hr0
  · cases hx
    exact h.optValtype.then r0 hr0
  · cases hx

end ValueTypes

/-- By induction on the depth: a byte is read before the next level. -/
theorem valtypeTo_readsTo (n : ℕ) : ReadsTo n (valtypeTo (n + 1)) := by
  induction n with
  | zero =>
    intro bin hbin
    obtain rfl := List.length_eq_zero_iff.mp (Nat.le_zero.mp hbin)
    exact (u32_readsTo 0).then [] (Nat.le_refl 0)
  | succ n ih =>
    intro bin hbin
    cases bin with
    | nil => exact (u32_readsTo 0).then [] (Nat.le_refl 0)
    | cons b r0 =>
      have hr0 : r0.length ≤ n := by simpa using hbin
      rw [valtypeTo]
      split
      · exact Reads.pure (Nat.lt_succ_self _)
      · cases hc : constructed (valtypeTo (n + 1)) b r0 with
        | some x => exact (ih.constructed hr0 hc).le (Nat.le_succ _)
        | none => exact (u32_readsTo _).then (b :: r0) (Nat.le_refl _)

theorem valtype_reads (bin : Bytes) : Reads bin.length (valtype bin) :=
  valtypeTo_readsTo bin.length bin (Nat.le_refl _)

theorem valtype_readsTo (k : ℕ) : ReadsTo k valtype := fun bin _ => valtype_reads bin

/-! ## Functions -/

theorem funcParams_reads (bin : Bytes) : Reads bin.length (funcParams bin) :=
  (valtype_readsTo _).namedType.vector.then bin (Nat.le_refl _)

theorem skipResults_yields (n : ℕ) (bin : Bytes) :
    (skipResults n bin).Yields Looped fun r => r.length ≤ bin.length := by
  induction n generalizing bin with
  | zero => exact .pure (Nat.le_refl _)
  | succ n ih =>
    refine (plainName_reads bin).bind fun _ rest0 h0 => ?_
    refine (valtype_reads rest0).bind fun _ rest1 h1 => ?_
    exact (ih rest1).mono fun r hr => hr.trans (h1.le.trans h0.le)

theorem namedResult_reads (n : ℕ) (bin : Bytes) : Reads (bin.length + 1) (namedResult n bin) := by
  cases n with
  | zero => exact Reads.pure (Nat.lt_succ_self _)
  | succ n =>
    refine (plainName_reads bin).bind fun _ rest0 h0 => ?_
    refine (valtype_reads rest0).bind fun desc rest1 h1 => ?_
    exact (skipResults_yields n rest1).bind fun rest h => Reads.pure (by omega)

theorem funcResult_reads (bin : Bytes) : Reads bin.length (funcResult bin) := by
  unfold funcResult
  split
  · exact (valtype_reads _).le (Nat.le_succ _)
  · refine (u32_reads _).bind fun count rest1 h1 => ?_
    exact (namedResult_reads count rest1).le (Nat.le_succ_of_le h1)
  · exact .raise _

/-! ## Externs, sorts and aliases -/

theorem described_reads (f : ℕ → ExternDesc) (rest : Bytes) : Reads rest.length (do
    let (idx, r) ← u32 rest
    return (f idx, r)) :=
  (u32_readsTo _).then rest (Nat.le_refl _)

theorem externdesc_reads (bin : Bytes) : Reads bin.length (externdesc bin) := by
  unfold externdesc
  split
  · exact (described_reads .func _).le (Nat.le_succ _)
  · exact (described_reads .instance _).le (Nat.le_succ _)
  · exact (described_reads (fun idx => .type (.eq idx)) _).le (Nat.le_add_right _ 2)
  · exact Reads.pure (Nat.lt_succ_of_lt (Nat.lt_succ_self _))
  · exact (described_reads .coreModule _).le (Nat.le_add_right _ 2)
  · exact (described_reads .value _).le (Nat.le_add_right _ 2)
  · exact ((valtype_readsTo _).then _ (Nat.le_refl _)).le (Nat.le_add_right _ 2)
  · exact (described_reads (.sort _) _).le (Nat.le_succ _)
  · exact .raise _

theorem sort_reads (bin : Bytes) : Reads bin.length (sort bin) := by
  unfold sort
  split
  · exact Reads.pure (Nat.lt_succ_of_lt (Nat.lt_succ_self _))
  · exact Reads.pure (Nat.lt_succ_self _)
  · exact Reads.pure (Nat.lt_succ_self _)
  · exact .raise _

theorem aliasTarget_yields (bin : Bytes) :
    (aliasTarget bin).Yields Looped fun r => r.length < bin.length := by
  unfold aliasTarget
  split
  · refine (u32_reads _).bind fun _ rest1 h1 => ?_
    refine (u32_reads rest1).bind fun _ rest2 h2 => .pure ?_
    exact (h2.trans h1).trans (Nat.lt_succ_self _)
  · split
    · refine (u32_reads _).bind fun _ rest1 h1 => ?_
      refine (plainName_reads rest1).bind fun _ rest2 h2 => .pure ?_
      exact (h2.trans h1).trans (Nat.lt_succ_self _)
    · exact .raise _
  · exact .raise _

theorem aliasDecl_reads (bin : Bytes) : Reads bin.length (aliasDecl bin) := by
  refine (sort_reads bin).bind fun sort rest0 h0 => ?_
  exact (aliasTarget_yields rest0).bind fun rest h => Reads.pure (h.trans h0)

theorem skipAscription_yields (bin : Bytes) :
    (skipAscription bin).Yields Looped fun r => r.length < bin.length := by
  unfold skipAscription
  split
  · exact .pure (Nat.lt_succ_self _)
  · exact (externdesc_reads _).bind fun _ rest1 h1 => .pure (h1.trans (Nat.lt_succ_self _))
  · exact .raise _

/-! ## Resolving -/

theorem resolving_tame (desc : Desc) (types : Types) : (resolving desc types).Tame Looped :=
  .ask (fun _ _ _ hnm h => resolve_mono hnm h) (exists_resolve_iff _)

theorem resolvingAll_tame (descs : List Desc) (types : Types) :
    (resolvingAll descs types).Tame Looped := by
  induction descs with
  | nil => exact .pure _
  | cons d ds ih => exact (resolving_tame d types).bind fun _ _ => ih.bind fun _ _ => .pure _

/-- The signature of a function type, each of its types resolved. -/
theorem signature_tame (sig : Signature) (types : Types) :
    Inquiry.Tame Looped (do
      let params ← resolvingAll sig.params types
      let result ← resolving sig.result types
      return (⟨params, result⟩ : Signature) : Reading Signature) :=
  (resolvingAll_tame _ _).bind fun _ _ => (resolving_tame _ _).bind fun _ _ => .pure _

theorem resolveFunc_tame (typeIdx : ℕ) (locals : Types) :
    (resolveFunc typeIdx locals).Tame Looped := by
  unfold resolveFunc
  split
  · exact signature_tame _ _
  · exact .pure _

theorem globalSig_tame (entry : TypeDef) (types : Types) :
    (globalSig entry types).Tame Looped := by
  unfold globalSig
  split
  · exact signature_tame _ _
  · exact .pure _

theorem funcSig_tame (idx : ℕ) (types : Types) : (funcSig idx types).Tame Looped := by
  unfold funcSig
  split
  · exact (globalSig_tame _ _).bind fun _ _ => .pure _
  · exact .pure _

/-! ## Type definitions -/

section Definitions

variable {deftype : Bytes → Reading (TypeDef × Bytes)}

theorem ReadsTo.instanceDecl (h : ReadsTo k deftype) (space : Space)
    (exports : List (Bytes × Signature)) :
    ReadsTo (k + 1) (instanceDecl deftype space exports) := by
  intro bin hbin
  unfold TypeSection.instanceDecl
  split
  · refine (h _ (Nat.le_of_succ_le_succ hbin)).bind fun entry rest1 h1 => ?_
    exact Reads.pure (h1.trans (Nat.lt_succ_self _))
  · refine (label_reads _).bind fun name rest1 h1 => ?_
    refine (externdesc_reads rest1).bind fun desc rest2 h2 => ?_
    have hrest := (h2.trans h1).trans (Nat.lt_succ_self _)
    cases desc with
    | func typeIdx =>
      exact (resolveFunc_tame typeIdx space.2).yields.bind fun _ _ => Reads.pure hrest
    | _ => exact Reads.pure hrest
  · refine (aliasDecl_reads _).bind fun sort rest1 h1 => ?_
    exact Reads.pure (h1.trans (Nat.lt_succ_self _))
  · refine (label_reads _).bind fun name rest1 h1 => ?_
    refine (externdesc_reads rest1).bind fun desc rest2 h2 => ?_
    exact Reads.pure ((h2.trans h1).trans (Nat.lt_succ_self _))
  · exact .raise _
  · exact .raise _

theorem ReadsTo.instanceDeclsLoop (h : ReadsTo k deftype) (n : ℕ) {bin : Bytes}
    (hbin : bin.length ≤ k) (space : Space) (exports : List (Bytes × Signature)) :
    Reads (bin.length + 1) (instanceDeclsLoop deftype n bin space exports) := by
  induction n generalizing bin space exports with
  | zero => exact Reads.pure (Nat.lt_succ_self _)
  | succ n ih =>
    refine (h.instanceDecl space exports bin (Nat.le_succ_of_le hbin)).bind fun a rest hrest => ?_
    exact (ih (hrest.le.trans hbin) a.1 a.2).le (by omega)

theorem ReadsTo.instanceDecls (h : ReadsTo k deftype) : ReadsTo k (instanceDecls deftype) := by
  intro bin hbin
  refine (u32_reads bin).bind fun count rest hrest => ?_
  exact (h.instanceDeclsLoop count (hrest.le.trans hbin) (0, []) []).le hrest

end Definitions

/-- By induction on the depth, as for value types. -/
theorem value_readsTo (k : ℕ) : ReadsTo k fun bin => do
    let (desc, rest) ← valtype bin
    return (TypeDef.value desc, rest) :=
  (valtype_readsTo k).then

theorem deftypeTo_readsTo (n : ℕ) : ReadsTo n (deftypeTo (n + 1)) := by
  induction n with
  | zero =>
    intro bin hbin
    obtain rfl := List.length_eq_zero_iff.mp (Nat.le_zero.mp hbin)
    exact value_readsTo 0 [] (Nat.le_refl 0)
  | succ n ih =>
    intro bin hbin
    unfold deftypeTo
    split
    · contradiction
    · refine (funcParams_reads _).bind fun params rest1 h1 => ?_
      refine (funcResult_reads rest1).bind fun result rest2 h2 => ?_
      exact Reads.pure ((h2.trans h1).trans (Nat.lt_succ_self _))
    · rename_i heq
      cases heq
      refine (ih.instanceDecls _ (Nat.le_of_succ_le_succ hbin)).bind fun decls rest1 h1 => ?_
      exact Reads.pure (h1.trans (Nat.lt_succ_self _))
    · rename_i heq
      cases heq
      refine (ih.instanceDecls _ (Nat.le_of_succ_le_succ hbin)).bind fun decls rest1 h1 => ?_
      exact Reads.pure (h1.trans (Nat.lt_succ_self _))
    · exact Reads.pure (by simp only [List.length_cons]; omega)
    · refine Reads.le ((u32_readsTo _).then (f := fun dtor => TypeDef.resource (some dtor)) _
        (Nat.le_refl _)) ?_
      exact Nat.le_add_right _ 3
    · exact value_readsTo _ _ hbin

theorem deftype_reads (bin : Bytes) : Reads bin.length (deftype bin) :=
  deftypeTo_readsTo bin.length bin (Nat.le_refl _)

/-! ## Sections -/

theorem sectionOf_reads (secId : UInt8) (rest0 : Bytes) :
    Reads rest0.length (sectionOf secId rest0) := by
  refine (u32_reads rest0).bind fun size rest1 h1 => ?_
  refine (split_reads size rest1).bind fun content rest2 h2 => ?_
  exact Reads.pure (by omega)

theorem collectTo_tame (id : UInt8) (n : ℕ) {bin : Bytes} (hbin : bin.length ≤ n) (acc : Bytes) :
    (collectTo id n bin acc).Tame Looped := by
  induction n generalizing bin acc with
  | zero =>
    obtain rfl := List.length_eq_zero_iff.mp (Nat.le_zero.mp hbin)
    exact .pure acc
  | succ n ih =>
    cases bin with
    | nil => exact .pure acc
    | cons secId rest0 =>
      have hrest0 : rest0.length ≤ n := by simpa using hbin
      rw [collectTo]
      refine (sectionOf_reads secId rest0).tame.bind fun r hr => ?_
      have hlt := (sectionOf_reads secId rest0).given r hr
      obtain ⟨⟨secId, content⟩, rest2⟩ := r
      have hle : rest2.length ≤ n := hlt.le.trans hrest0
      change (if secId = id then collectTo id n rest2 (acc ++ content)
        else collectTo id n rest2 acc).Tame Looped
      split
      · exact ih hle _
      · exact ih hle _

theorem collect_tame (id : UInt8) (sec : Bytes) : (collect id sec).Tame Looped :=
  collectTo_tame id sec.length (Nat.le_refl _) []

section Folds

variable {σ : Type} {step : Bytes → σ → Reading (σ × Bytes)}

theorem each_tame (h : ∀ bin acc, (step bin acc).Tame Looped) (n : ℕ) (bin : Bytes) (acc : σ) :
    (each step n bin acc).Tame Looped := by
  induction n generalizing bin acc with
  | zero => exact .pure acc
  | succ n ih => exact (h bin acc).bind fun r _ => ih r.2 r.1

theorem eachOf_tame (h : ∀ bin acc, (step bin acc).Tame Looped) (content : Bytes) (acc : σ) :
    (eachOf step content acc).Tame Looped :=
  (u32_reads content).tame.bind fun r _ => each_tame h r.1 r.2 acc

end Folds

theorem typeEntry_tame (bin : Bytes) (ia : Space) : (typeEntry bin ia).Tame Looped :=
  (deftype_reads bin).tame.bind fun _ _ => .pure _

theorem aliasEntry_tame (bin : Bytes) (ia : Space) : (aliasEntry bin ia).Tame Looped :=
  (aliasDecl_reads bin).tame.bind fun _ _ => .pure _

theorem importEntry_tame (bin : Bytes) (ia : Space) : (importEntry bin ia).Tame Looped :=
  (label_reads bin).tame.bind fun r _ => (externdesc_reads r.2).tame.bind fun _ _ => .pure _

theorem exportEntry_tame (bin : Bytes) (ia : Space) : (exportEntry bin ia).Tame Looped :=
  (label_reads bin).tame.bind fun r _ => (sort_reads r.2).tame.bind fun r' _ =>
    (u32_reads r'.2).tame.bind fun r'' _ => (skipAscription_yields r''.2).tame.bind fun _ _ =>
      .pure _

theorem typeSection_tame (secId : UInt8) (content : Bytes) (ia : Space) :
    (typeSection secId content ia).Tame Looped := by
  unfold typeSection
  split
  · exact eachOf_tame typeEntry_tame content ia
  split
  · exact eachOf_tame aliasEntry_tame content ia
  split
  · exact eachOf_tame importEntry_tame content ia
  split
  · exact eachOf_tame exportEntry_tame content ia
  · exact .pure ia

theorem typeSectionsTo_tame (n : ℕ) {bin : Bytes} (hbin : bin.length ≤ n) (ia : Space) :
    (typeSectionsTo n bin ia).Tame Looped := by
  induction n generalizing bin ia with
  | zero =>
    obtain rfl := List.length_eq_zero_iff.mp (Nat.le_zero.mp hbin)
    exact .pure ia.2
  | succ n ih =>
    cases bin with
    | nil => exact .pure ia.2
    | cons secId rest0 =>
      have hrest0 : rest0.length ≤ n := by simpa using hbin
      rw [typeSectionsTo]
      refine (sectionOf_reads secId rest0).tame.bind fun r hr => ?_
      have hlt := (sectionOf_reads secId rest0).given r hr
      exact (typeSection_tame r.1.1 r.1.2 ia).bind fun ia1 _ => ih (hlt.le.trans hrest0) ia1

theorem typeSpace_tame (sec : Bytes) : (typeSpace sec).Tame Looped :=
  (typeSectionsTo_tame sec.length (Nat.le_refl _) (0, [])).capture

/-! ## The readers -/

theorem resolveImport_tame (types : Types) (bin : Bytes) (acc : List (Bytes × Interface)) :
    (resolveImport types bin acc).Tame Looped := by
  refine (label_reads bin).tame.bind fun r _ => (externdesc_reads r.2).tame.bind fun r' _ => ?_
  obtain ⟨desc, rest1⟩ := r'
  cases desc with
  | func typeIdx => exact (globalSig_tame _ types).bind fun _ _ => .pure _
  | _ => exact .pure _

theorem importInterfaces_tame (sec : Bytes) : (importInterfaces sec).Tame Looped := by
  refine Inquiry.Tame.capture ?_
  refine (collect_tame secType sec).bind fun content _ => ?_
  refine Inquiry.Tame.bind ?_ fun types _ => ?_
  · exact (eachOf_tame typeEntry_tame content (0, [])).bind fun _ _ => .pure _
  refine (collect_tame secCompImport sec).bind fun imports _ => ?_
  exact (eachOf_tame (resolveImport_tame types) imports []).bind fun _ _ => .pure _

theorem dtorEntry_tame (bin : Bytes) (ia : ℕ × List (ℕ × ℕ)) : (dtorEntry bin ia).Tame Looped := by
  refine (deftype_reads bin).tame.bind fun r _ => ?_
  obtain ⟨def_, rest⟩ := r
  dsimp only
  split
  · exact .pure _
  · exact .pure _

theorem resourceDtors_tame (sec : Bytes) : (resourceDtors sec).Tame Looped := by
  refine Inquiry.Tame.capture ?_
  refine (collect_tame secType sec).bind fun content _ => ?_
  exact (eachOf_tame dtorEntry_tame content (0, [])).bind fun _ _ => .pure _

/-- `func_sig/2` at an index of the type space. -/
def spaceSig (sec : Bytes) (idx : ℕ) : Reading (Option Signature) := do
  let types ← typeSpace sec
  funcSig idx types

theorem spaceSig_tame (sec : Bytes) (idx : ℕ) : (spaceSig sec idx).Tame Looped :=
  (typeSpace_tame sec).bind fun types _ => funcSig_tame idx types

/-! ## Nothing is raised past them -/

theorem resolvingAll_calm (descs : List Desc) (types : Types) :
    (resolvingAll descs types).Calm := by
  induction descs with
  | nil => exact .pure _
  | cons d ds ih => exact (Inquiry.Calm.ask _ _).bind fun _ => ih.bind fun _ => .pure _

theorem spaceSig_calm (sec : Bytes) (idx : ℕ) : (spaceSig sec idx).Calm := by
  refine (Inquiry.Calm.capture _ _).bind fun types => ?_
  unfold funcSig
  split
  · refine Inquiry.Calm.bind ?_ fun _ => .pure _
    exact (resolvingAll_calm _ _).bind fun _ => (Inquiry.Calm.ask _ _).bind fun _ => .pure _
  · exact .pure _

/-! ## Answers -/

/-- Each of the readers of a component's types comes to an answer. -/
def ReadersAnswer (sec : Bytes) (idx : ℕ) : Prop :=
  (importInterfaces sec).Answers ∧ (spaceSig sec idx).Answers ∧ (resourceDtors sec).Answers

/-- One of the readers resolves the descriptor against the types. -/
def Resolved (sec : Bytes) (idx : ℕ) (q : Question) : Prop :=
  (importInterfaces sec).Puts q ∨ (spaceSig sec idx).Puts q ∨ (resourceDtors sec).Puts q

/-- The readers answer exactly when nothing they resolve leads to a loop. -/
theorem readersAnswer_iff (sec : Bytes) (idx : ℕ) :
    ReadersAnswer sec idx ↔ ∀ q, Resolved sec idx q → ¬ Looped q := by
  unfold ReadersAnswer
  rw [(importInterfaces_tame sec).answers_iff (Inquiry.Calm.capture _ _),
    (spaceSig_tame sec idx).answers_iff (spaceSig_calm sec idx),
    (resourceDtors_tame sec).answers_iff (Inquiry.Calm.capture _ _)]
  constructor
  · rintro ⟨himports, hsig, hdtors⟩ q (hq | hq | hq)
    · exact himports q hq
    · exact hsig q hq
    · exact hdtors q hq
  · intro h
    exact ⟨fun q hq => h q (.inl hq), fun q hq => h q (.inr (.inl hq)),
      fun q hq => h q (.inr (.inr hq))⟩

/-- A list type whose elements are of the list type itself, and a function that answers one. -/
def selfReferring : Bytes := [0x07, 0x07, 0x02, 0x70, 0x00, 0x40, 0x00, 0x00, 0x00]

def selfReferringTypes : Types :=
  [(1, .func ⟨[], .typeref 0⟩), (0, .value (.list (.typeref 0)))]

theorem selfReferring_loops : Looped ⟨.typeref 0, selfReferringTypes⟩ := by
  have hrefers : selfReferringTypes.Refers 0 0 := ⟨.list (.typeref 0), rfl, .list .typeref⟩
  exact ⟨0, .typeref, 0, .refl, .single hrefers⟩

theorem not_readersAnswer_selfReferring : ¬ ∀ sec idx, ReadersAnswer sec idx := by
  intro h
  have hput : (spaceSig selfReferring 1 0).1 = [⟨.typeref 0, selfReferringTypes⟩] := rfl
  have hcalm := spaceSig_calm selfReferring 1
  have hloopless := ((spaceSig_tame selfReferring 1).answers_iff hcalm).mp (h selfReferring 1).2.1
  exact hloopless _ ⟨0, by rw [hput]; exact List.mem_singleton.mpr rfl⟩ selfReferring_loops

end ErlangWasm.Component.TypeSection
