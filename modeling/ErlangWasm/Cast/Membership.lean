import ErlangWasm.Cast.Canonical

/-!
# References and casts

The reference types the validator compares, the terms the interpreter keeps references as, and the
test behind `ref.test`, `ref.cast` and the cast branches.  An answer of none is a trap or an error.
-/

namespace ErlangWasm.Cast

open Decode

/-! ## The validator -/

section

variable {intern : List SubtypeKey → Option ℕ} (ctx : Context intern)

def isFuncHeap (h : HeapType) : Bool :=
  match h with
  | .func | .nofunc => true
  | .type t => ctx.kindAt t = some .func
  | _ => false

def isAnyHeap (h : HeapType) : Bool :=
  match h with
  | .any | .eq | .i31 | .struct | .array | .none => true
  | .type t => ctx.kindAt t = some .struct || ctx.kindAt t = some .array
  | _ => false

/-- `heap_matches/3`. -/
def heapMatches (h₁ h₂ : HeapType) : Bool :=
  if h₁ = h₂ then true
  else
    match h₁, h₂ with
    | .nofunc, h => isFuncHeap ctx h
    | .noExternal, h => h = .external
    | .noexn, h => h = .exn
    | .none, h => isAnyHeap ctx h
    | .i31, h | .struct, h | .array, h => h = .eq || h = .any
    | .eq, h => h = .any
    | .type t, .func => ctx.kindAt t = some .func
    | .type t, .struct => ctx.kindAt t = some .struct
    | .type t, .array => ctx.kindAt t = some .array
    | .type t, .eq | .type t, .any =>
        ctx.kindAt t = some .struct || ctx.kindAt t = some .array
    | .type a, .type b => isSubtype ctx.types ctx.canon a b
    | _, _ => false

/-- `matches/3` of two reference types. -/
def matches_ (t₁ t₂ : RefType) : Bool :=
  (t₁.nullable = t₂.nullable || t₂.nullable) && heapMatches ctx t₁.heap t₂.heap

/-- The top of a hierarchy. -/
inductive Top
  | any
  | func
  | external
  | exn
  deriving DecidableEq

def topOf (h : HeapType) : Option Top :=
  match h with
  | .any | .eq | .i31 | .struct | .array | .none => some .any
  | .func | .nofunc => some .func
  | .external | .noExternal => some .external
  | .exn | .noexn => some .exn
  | .type t => (ctx.kindAt t).map fun k => if k = .func then .func else .any

end

/-! ## The interpreter -/

/-- The terms references are kept as, and those an embedder hands over. -/
inductive Term
  | null
  | i31 (v : ℕ)
  | objref (id : ℕ)
  | funcref (inst f : ℕ)
  /-- `{funcref, F}`, with no instance. -/
  | bareFuncref (f : ℕ)
  | external (t : Term)
  | internal (t : Term)
  /-- `#exn{}`. -/
  | exn (tag : ℕ) (values : List Term)
  /-- Any other term. -/
  | other (n : ℕ)

/-- The node's table of interned groups. -/
structure Interned where
  number : List SubtypeKey → Option ℕ
  separate : Separate number

/-- The part of an `#inst{}` that casts read; a function is its declared type. -/
structure Inst (I : Interned) where
  ctx : Context I.number
  funcs : List ℕ
  typed : ∀ t ∈ funcs, ctx.kindAt t = some .func

/-- A row of an object store: a struct or an array, and the index of its type.  The row does not say
which module's index it is; `owner` does. -/
structure Row (I : Interned) where
  kind : Kind
  type : ℕ
  owner : Context I.number
  object : kind ≠ .func
  typed : owner.kindAt type = some kind

/-- The part of an `#st{}` that casts read, with what `wasm_instance:lookup/1` finds. -/
structure St (I : Interned) where
  id : ℕ
  inst : Inst I
  notes : ℕ → Option (Inst I)
  heap : ℕ → Option (Row I)

/-- What `heap_of/2` classifies a reference as. -/
inductive HeapOf
  | i31
  | concrete (k : Kind) (supers : List Canon)
  | external
  | any

section

variable {I : Interned} (st : St I)

/-- The instance a function reference names. -/
def St.resolve (id : ℕ) : Option (Inst I) := if id = st.id then some st.inst else st.notes id

/-- `fn_type/2`, of which casts read the supertypes. -/
def fnType (inst : Inst I) (f : ℕ) : Option (List Canon) := do
  let t ← inst.funcs[f]?
  inst.ctx.supersAt t

/-- `heap_of/2`. -/
def heapOf (t : Term) : Option HeapOf :=
  match t with
  | .i31 _ => some .i31
  | .objref id => do
      let row ← st.heap id
      let kind ← st.inst.ctx.kindAt row.type
      let supers ← st.inst.ctx.supersAt row.type
      pure (.concrete kind supers)
  | .funcref id f => do
      let inst ← st.resolve id
      let supers ← fnType inst f
      pure (.concrete .func supers)
  | .bareFuncref _ => some (.concrete .func [])
  | .external _ => some .external
  | .internal _ => some .any
  | _ => some .external

/-- `heap_test/3`. -/
def heapTest (h : HeapOf) (t : HeapType) : Option Bool :=
  match h, t with
  | .external, t => some (t = .external)
  | .any, t => some (t = .any)
  | .i31, t => some (t = .i31 || t = .eq || t = .any)
  | .concrete _ supers, .type b => do
      let c ← st.inst.ctx.canon[b]?
      pure (c ∈ supers)
  | .concrete .func _, t => some (t = .func)
  | .concrete .struct _, t => some (t = .struct || t = .eq || t = .any)
  | .concrete .array _, t => some (t = .array || t = .eq || t = .any)

/-- `ref_matches/3`. -/
def refMatches (r : Term) (t : RefType) : Option Bool :=
  match r with
  | .null => some t.nullable
  | r => do
      let h ← heapOf st r
      heapTest st h t.heap

/-! ## Instructions -/

inductive CastInstr
  | refTest (target : RefType)
  | refCast (target : RefType)
  | brOnCast (n : ℕ) (source target : RefType)
  | brOnCastFail (n : ℕ) (source target : RefType)

/-- What a cast instruction does with the reference on top of the stack. -/
inductive CastStep
  /-- The reference is replaced by a number. -/
  | push (v : ℕ)
  | next
  | branch (n : ℕ)
  | castFailure (target : RefType)
  deriving DecidableEq

/-- `run/3` at a cast instruction. -/
def castStep (i : CastInstr) (r : Term) : Option CastStep :=
  match i with
  | .refTest target => do
      let b ← refMatches st r target
      pure (.push (if b then 1 else 0))
  | .refCast target => do
      let b ← refMatches st r target
      pure (if b then .next else .castFailure target)
  | .brOnCast n _ target => do
      let b ← refMatches st r target
      pure (if b then .branch n else .next)
  | .brOnCastFail n _ target => do
      let b ← refMatches st r target
      pure (if b then .next else .branch n)

end

/-- `run/3` at `extern.convert_any`. -/
def externConvertAny (r : Term) : Term :=
  match r with
  | .null => .null
  | .internal v => v
  | v => .external v

/-- `run/3` at `any.convert_extern`. -/
def anyConvertExtern (r : Term) : Term :=
  match r with
  | .null => .null
  | .external v => v
  | v => .internal v

end ErlangWasm.Cast

/-!
## What a reference is a member of

References by where they come from, the terms they are kept as, and the heap types the specification
puts them in.  A member of a static type is a member of every type above it.
-/

namespace ErlangWasm.Cast

open Decode Relation

/-- A reference.  A host reference is the embedder's own term, and becomes internal or external by
the conversions. -/
inductive Ref
  | null
  | i31 (v : ℕ)
  | object (id : ℕ)
  | func (inst f : ℕ)
  /-- A function of the running instance, handed over without its instance. -/
  | bareFunc (f : ℕ)
  | exn (tag : ℕ) (values : List Term)
  | host (t : Term)
  | internalised (t : Term)
  | externalised (r : Ref)

/-- The term a reference is kept as. -/
def Ref.term : Ref → Term
  | .null => .null
  | .i31 v => .i31 v
  | .object id => .objref id
  | .func inst f => .funcref inst f
  | .bareFunc f => .bareFuncref f
  | .exn tag values => .exn tag values
  | .host t => t
  | .internalised t => .internal t
  | .externalised r => .external r.term

/-- The abstract heap type over the concrete ones of a kind. -/
def Kind.heap : Kind → HeapType
  | .func => .func
  | .struct => .struct
  | .array => .array

def Ref.top : Ref → Top
  | .null | .i31 _ | .object _ | .internalised _ => .any
  | .func _ _ | .bareFunc _ => .func
  | .exn _ _ => .exn
  | .host _ | .externalised _ => .external

section

variable {I : Interned} (st : St I)

/-- What a reference names exists. -/
def Ref.Live : Ref → Prop
  | .object id => (st.heap id).isSome
  | .func id f => ∃ inst, st.resolve id = some inst ∧ f < inst.funcs.length
  | .bareFunc f => f < st.inst.funcs.length
  | .host t | .internalised t => t ≠ .null
  | .externalised r => r ≠ .null ∧ r.Live
  | _ => True

/-- The running module's type `b` is of identity `c` or above it. -/
def Above (c : Canon) (b : ℕ) : Prop :=
  ∃ d, st.inst.ctx.canon[b]? = some d ∧ Subtype I.number c d

/-- The heap types that a value of kind `k` and identity `c` is a member of. -/
def Concrete (k : Kind) (c : Canon) (h : HeapType) : Prop :=
  h = k.heap ∨ (k ≠ .func ∧ (h = .eq ∨ h = .any)) ∨ ∃ b, h = .type b ∧ Above st c b

/-- The heap types of the running module that a reference is a member of, null apart. -/
def Ref.Has (h : HeapType) : Ref → Prop
  | .null => False
  | .i31 _ => h = .i31 ∨ h = .eq ∨ h = .any
  | .object id => ∃ row c, st.heap id = some row ∧ row.owner.canon[row.type]? = some c ∧
      Concrete st row.kind c h
  | .func id f => ∃ inst t c, st.resolve id = some inst ∧ inst.funcs[f]? = some t ∧
      inst.ctx.canon[t]? = some c ∧ Concrete st .func c h
  | .bareFunc f => ∃ t c, st.inst.funcs[f]? = some t ∧ st.inst.ctx.canon[t]? = some c ∧
      Concrete st .func c h
  | .exn _ _ => h = .exn
  | .host _ => h = .external
  | .internalised _ => h = .any
  | .externalised _ => h = .external

/-- A reference is a member of a reference type. -/
def Ref.Belongs (r : Ref) (t : RefType) : Prop :=
  (r = .null ∧ t.nullable = true) ∨ r.Has st t.heap

/-- A target a cast of the reference may name: null is in every hierarchy. -/
def Ref.SameHierarchy (r : Ref) (t : RefType) : Prop :=
  ∃ top, topOf st.inst.ctx t.heap = some top ∧ (r = .null ∨ r.top = top)

/-! ## Members of static types -/

/-- The kind of a type above an identity is the identity's. -/
theorem kindAt_above {ctx : Context I.number} {i b : ℕ} {c : Canon} {k k' : Kind}
    (hc : ctx.canon[i]? = some c) (hk : ctx.kindAt i = some k) (h : Above st c b)
    (hb : st.inst.ctx.kindAt b = some k') : k' = k := by
  obtain ⟨d, hd, hsub⟩ := h
  exact Context.hasKind_unique I.separate (st.inst.ctx.hasKind I.separate hd hb)
    (ctx.hasKind_subtype I.separate hc hk hsub)

theorem Above.trans {c : Canon} {a b : ℕ} (h : Above st c a)
    (hsub : isSubtype st.inst.ctx.types st.inst.ctx.canon a b = true)
    (hb : b < st.inst.ctx.types.length) : Above st c b := by
  obtain ⟨ca, hca, hc⟩ := h
  obtain ⟨cb, hcb⟩ := st.inst.ctx.canon_some I.separate hb
  exact ⟨cb, hcb, ReflTransGen.trans hc ((st.inst.ctx.isSubtype_iff I.separate hca hcb).mp hsub)⟩

/-- A concrete value stays a member along the validator's heap subtyping. -/
theorem Concrete.mono {ctx : Context I.number} {i : ℕ} {c : Canon} {k : Kind}
    (hc : ctx.canon[i]? = some c) (hk : ctx.kindAt i = some k) {h₁ h₂ : HeapType}
    (h : Concrete st k c h₁) (hm : heapMatches st.inst.ctx h₁ h₂ = true)
    (hvalid : (topOf st.inst.ctx h₂).isSome) : Concrete st k c h₂ := by
  have hkind : ∀ b k', Above st c b → st.inst.ctx.kindAt b = some k' → k' = k :=
    fun b k' habove hb => kindAt_above st hc hk habove hb
  by_cases heq : h₁ = h₂
  · rw [← heq]
    exact h
  unfold heapMatches at hm
  rw [if_neg heq] at hm
  rcases h with rfl | ⟨hobject, rfl | rfl⟩ | ⟨b, rfl, habove⟩
  · cases k <;> simp [Kind.heap] at hm
    · exact .inr (.inl ⟨by simp, hm⟩)
    · exact .inr (.inl ⟨by simp, hm⟩)
  · simp only [decide_eq_true_eq] at hm
    exact .inr (.inl ⟨hobject, .inr hm⟩)
  · simp at hm
  · cases h₂ with
    | func | struct | array =>
      have := hkind b _ habove (of_decide_eq_true hm)
      exact .inl (by rw [← this]; rfl)
    | eq =>
      refine .inr (.inl ⟨?_, .inl rfl⟩)
      simp only [Bool.or_eq_true, decide_eq_true_eq] at hm
      rcases hm with hm | hm <;> rw [← hkind b _ habove hm] <;> simp
    | any =>
      refine .inr (.inl ⟨?_, .inr rfl⟩)
      simp only [Bool.or_eq_true, decide_eq_true_eq] at hm
      rcases hm with hm | hm <;> rw [← hkind b _ habove hm] <;> simp
    | type b' =>
      simp only [topOf, Option.isSome_map] at hvalid
      obtain ⟨k', hk'⟩ := Option.isSome_iff_exists.mp hvalid
      obtain ⟨t, ht, -⟩ := Option.map_eq_some_iff.mp hk'
      exact .inr (.inr ⟨b', rfl, habove.trans st hm (st.inst.ctx.type_lt ht)⟩)
    | _ => cases hm

/-- A member of a heap type is a member of the heap types the validator puts above it. -/
theorem Ref.Has.mono {r : Ref} {h₁ h₂ : HeapType} (h : r.Has st h₁)
    (hm : heapMatches st.inst.ctx h₁ h₂ = true) (hvalid : (topOf st.inst.ctx h₂).isSome) :
    r.Has st h₂ := by
  cases r with
  | null => exact h.elim
  | i31 v =>
    unfold heapMatches at hm
    rcases h with rfl | rfl | rfl
    · split at hm
      · exact .inl (Eq.symm (by assumption))
      · simp only [Bool.or_eq_true, decide_eq_true_eq] at hm
        exact .inr hm
    · split at hm
      · exact .inr (.inl (Eq.symm (by assumption)))
      · simp only [decide_eq_true_eq] at hm
        exact .inr (.inr hm)
    · simp only [Bool.ite_eq_true_distrib, if_true_left] at hm
      exact .inr (.inr (by cases h₂ <;> simp_all))
  | object id =>
    obtain ⟨row, c, hrow, hc, hconcrete⟩ := h
    exact ⟨row, c, hrow, hc, hconcrete.mono st hc row.typed hm hvalid⟩
  | func id f =>
    obtain ⟨inst, t, c, hinst, ht, hc, hconcrete⟩ := h
    have hk := inst.typed t (List.mem_of_getElem? ht)
    exact ⟨inst, t, c, hinst, ht, hc, hconcrete.mono st hc hk hm hvalid⟩
  | bareFunc f =>
    obtain ⟨t, c, ht, hc, hconcrete⟩ := h
    have hk := st.inst.typed t (List.mem_of_getElem? ht)
    exact ⟨t, c, ht, hc, hconcrete.mono st hc hk hm hvalid⟩
  | exn tag values | host t | internalised t | externalised r =>
    cases h
    revert hm
    cases h₂ <;> simp [heapMatches, Ref.Has]

theorem Concrete.topOf {ctx : Context I.number} {i : ℕ} {c : Canon} {k : Kind}
    (hc : ctx.canon[i]? = some c) (hk : ctx.kindAt i = some k) {h : HeapType}
    (hconcrete : Concrete st k c h) (hvalid : (topOf st.inst.ctx h).isSome) :
    topOf st.inst.ctx h = some (if k = .func then .func else .any) := by
  rcases hconcrete with rfl | ⟨hobject, rfl | rfl⟩ | ⟨b, rfl, habove⟩
  · cases k <;> rfl
  · rw [if_neg hobject]
    rfl
  · rw [if_neg hobject]
    rfl
  · obtain ⟨k', hk'⟩ := Option.isSome_iff_exists.mp
      ((Option.isSome_map ..).symm.trans hvalid : (st.inst.ctx.kindAt b).isSome = true)
    rw [Cast.topOf, hk', kindAt_above st hc hk habove hk']
    rfl

/-- The heap types of a reference are of its hierarchy. -/
theorem Ref.Has.topOf {r : Ref} {h : HeapType} (hhas : r.Has st h)
    (hvalid : (topOf st.inst.ctx h).isSome) : Cast.topOf st.inst.ctx h = some r.top := by
  cases r with
  | null => exact hhas.elim
  | i31 v => rcases hhas with rfl | rfl | rfl <;> rfl
  | object id =>
    obtain ⟨row, c, -, hc, hconcrete⟩ := hhas
    rw [hconcrete.topOf st hc row.typed hvalid, if_neg row.object]
    rfl
  | func id f =>
    obtain ⟨inst, t, c, -, ht, hc, hconcrete⟩ := hhas
    rw [hconcrete.topOf st hc (inst.typed t (List.mem_of_getElem? ht)) hvalid]
    rfl
  | bareFunc f =>
    obtain ⟨t, c, ht, hc, hconcrete⟩ := hhas
    rw [hconcrete.topOf st hc (st.inst.typed t (List.mem_of_getElem? ht)) hvalid]
    rfl
  | exn tag values | host t | internalised t | externalised r => cases hhas; rfl

/-- A reference of a static type is of every type above, and a cast to it stays in the hierarchy. -/
theorem Ref.Belongs.mono {r : Ref} {s t : RefType} (h : r.Belongs st s)
    (hm : matches_ st.inst.ctx s t = true) (hvalid : (Cast.topOf st.inst.ctx t.heap).isSome) :
    r.Belongs st t ∧ r.SameHierarchy st t := by
  simp only [matches_, Bool.and_eq_true, Bool.or_eq_true, decide_eq_true_eq] at hm
  obtain ⟨hnull, hheap⟩ := hm
  obtain ⟨top, htop⟩ := Option.isSome_iff_exists.mp hvalid
  rcases h with ⟨rfl, hs⟩ | hhas
  · refine ⟨.inl ⟨rfl, ?_⟩, top, htop, .inl rfl⟩
    rcases hnull with hnull | hnull
    · rw [← hnull, hs]
    · exact hnull
  · have hmember := hhas.mono st hheap hvalid
    have htop' := hmember.topOf st hvalid
    exact ⟨.inr hmember, r.top, htop', .inr rfl⟩

/-! ## Conversions -/

/-- A reference of the internal hierarchy, as an external one. -/
def Ref.externalise : Ref → Ref
  | .null => .null
  | .internalised t => .host t
  | r => .externalised r

/-- A reference of the external hierarchy, as an internal one. -/
def Ref.internalise : Ref → Ref
  | .null => .null
  | .externalised r => r
  | .host t => .internalised t
  | r => r

/-- `extern.convert_any` gives the term of the external reference. -/
theorem externConvertAny_term {r : Ref} (h : r.top = .any) :
    externConvertAny r.term = r.externalise.term := by
  cases r <;> first | rfl | cases h

/-- `any.convert_extern` gives the term of the internal reference, of a host term that is no wrapped
one. -/
theorem anyConvertExtern_term {r : Ref} (h : r.top = .external) (hlive : r.Live st)
    (hhost : ∀ v, r ≠ .host (.external v)) : anyConvertExtern r.term = r.internalise.term := by
  cases r with
  | host t =>
    cases t with
    | null => exact absurd rfl hlive
    | external v => exact absurd rfl (hhost v)
    | _ => rfl
  | externalised r => rfl
  | _ => cases h

theorem Live.externalise {r : Ref} (h : r.Live st) : r.externalise.Live st := by
  cases r with
  | null => trivial
  | internalised t => exact h
  | _ => exact ⟨by simp, h⟩

theorem Live.internalise {r : Ref} (h : r.Live st) : r.internalise.Live st := by
  cases r with
  | externalised r => exact h.2
  | _ => exact h

end

end ErlangWasm.Cast
