import ErlangWasm.Compile.Generate
import Mathlib.Data.List.Pairwise

/-!
# What the generator goes through

`Emits` is `seq/3` as a derivation: one rule for each way it goes on, with the code of the parts.
What a state holds is what the code for it can reference; a variable that is bound already and is
not held stays so (`Gen.Later`).
-/

namespace ErlangWasm.Compile.Core

open Reasoning.References

variable {m : Module} {g g₀ g₁ g' : Gen} {exit : Exit} {rest : List Instr} {c : Expr} {v : Opd}

/-! ## Derivations -/

inductive Emits (m : Module) : List Instr → Gen → Exit → Expr → Prop
  | leave {g : Gen} {exit : Exit} {c : Expr} (h : g.go exit = some c) : Emits m [] g exit c
  | block {npar nres : ℕ} {body rest : List Instr} {g : Gen} {exit : Exit} {cont inner : Expr}
      (hcont : Emits m rest ((frame nres g).cont (g.stack.drop npar)) exit cont)
      (hbody : Emits m body ((frame nres g).body npar nres g) (.cont (frame nres g).name nres)
        inner) :
      Emits m (.block npar nres body :: rest) g exit
        (.letrec (frame nres g).name (frame nres g).vars cont inner)
  | loop {npar nres : ℕ} {body rest : List Instr} {g : Gen} {exit : Exit} {cont inner : Expr}
      {cs : List Opd}
      (hcont : Emits m rest ((frame nres g).cont (g.stack.drop npar)) exit cont)
      (hbody : Emits m body (((frame nres g).label npar g).loop npar g)
        (.cont (frame nres g).name nres) inner)
      (hcs : g.carried = some cs) :
      Emits m (.loop npar nres body :: rest) g exit
        (.letrec (frame nres g).name (frame nres g).vars cont
          (.letrec ((frame nres g).label npar g).name ((frame nres g).label npar g).vars inner
            (.jump ((frame nres g).label npar g).name (cs ++ (g.stack.take npar).reverse))))
  | if_ {npar nres : ℕ} {then_ else_ rest : List Instr} {g₀ g : Gen} {exit : Exit} {c : Opd}
      {cont a b : Expr} (hpop : g₀.pop = some (c, g))
      (hcont : Emits m rest ((frame nres g).cont (g.stack.drop npar)) exit cont)
      (helse : Emits m else_ ((frame nres g).body npar nres g) (.cont (frame nres g).name nres) a)
      (hthen : Emits m then_ ((frame nres g).body npar nres g) (.cont (frame nres g).name nres) b) :
      Emits m (.if_ npar nres then_ else_ :: rest) g₀ exit
        (.letrec (frame nres g).name (frame nres g).vars cont (.case_ [c] (.alt a b)))
  | br {n : ℕ} {rest : List Instr} {g : Gen} {exit : Exit} {c : Expr}
      (h : g.go (g.target n) = some c) : Emits m (.br n :: rest) g exit c
  | brIf {n : ℕ} {rest : List Instr} {g₀ g : Gen} {exit : Exit} {c : Opd} {taken code : Expr}
      (hpop : g₀.pop = some (c, g)) (htaken : g.go (g.target n) = some taken)
      (hrest : Emits m rest g exit code) :
      Emits m (.brIf n :: rest) g₀ exit (.case_ [c] (.alt code taken))
  | brTable {labels : List ℕ} {default : ℕ} {rest : List Instr} {g₀ g : Gen} {exit : Exit}
      {i : Opd} {clauses : List Expr} {last : Expr} (hpop : g₀.pop = some (i, g))
      (hclauses : labels.mapM (fun l => g.go (g.target l)) = some clauses)
      (hlast : g.go (g.target default) = some last) :
      Emits m (.brTable labels default :: rest) g₀ exit (.case_ [i] (clauses.foldr .alt last))
  | return_ {rest : List Instr} {g : Gen} {exit : Exit} {c : Expr}
      (h : g.go .return_ = some c) : Emits m (.return_ :: rest) g exit c
  | unreachable {rest : List Instr} {g : Gen} {exit : Exit} :
      Emits m (.unreachable :: rest) g exit (.expr (g.mut_ :: g.tlb.toList))
  | load {width offset : ℕ} {rest : List Instr} {g₀ g : Gen} {exit : Exit} {base : Opd}
      {form : Form} {next : Cache} {body : Expr} (hpop : g₀.pop = some (base, g))
      (hform : (cacheUse rest exit g.frames.length).load g.tlb (.fresh g.n) = (form, next))
      (hbody : Emits m rest (g.loaded next) exit body) :
      Emits m (.access (.load width) offset 0 :: rest) g₀ exit
        (join form (cached (.load width) g.mut_ base [] g.tlb form) [.num (g.n + tlbSize)]
          (.fresh g.n) body)
  | store {width offset : ℕ} {rest : List Instr} {g₀ g₁ g : Gen} {exit : Exit} {val base : Opd}
      {body : Expr} (hval : g₀.pop = some (val, g₁)) (hbase : g₁.pop = some (base, g))
      (hbody : Emits m rest g.stored exit body) :
      Emits m (.access (.store width) offset 0 :: rest) g₀ exit
        (join .last (cached (.store width) g.mut_ base [val] g.tlb .last)
          [.num (g.n + tlbSize)] (.fresh g.n) body)
  | straight {i : Instr} {rest : List Instr} {g g₁ : Gen} {exit : Exit} {pre : Pre} {code : Expr}
      (hi : straight m g i = some (pre, g₁)) (hrest : Emits m rest g₁ exit code) :
      Emits m (i :: rest) g exit (pre.wrap code)

theorem emits_of_seq {is : List Instr} (h : seq m is g exit = some c) : Emits m is g exit c := by
  induction is, g, exit using seq.induct generalizing c with
  | case1 g exit =>
    rw [seq] at h
    exact .leave h
  | case2 npar nres body rest g exit f hle ihcont =>
    rename_i ihbody
    rw [seq] at h
    rw [if_pos hle] at h
    simp only [Option.bind_eq_bind, Option.bind_eq_some_iff] at h
    obtain ⟨cont, hcont, inner, hinner, hc⟩ := h
    cases hc
    exact .block (ihcont hcont) (ihbody hinner)
  | case3 npar nres body rest g exit hle =>
    rw [seq] at h
    simp [hle] at h
  | case4 npar nres body rest g exit f hle ihcont =>
    rename_i ihbody
    rw [seq] at h
    rw [if_pos hle] at h
    simp only [Option.bind_eq_bind, Option.bind_eq_some_iff] at h
    obtain ⟨cont, hcont, inner, hinner, cs, hcs, hc⟩ := h
    cases hc
    exact .loop (ihcont hcont) (ihbody hinner) hcs
  | case5 npar nres body rest g exit hle =>
    rw [seq] at h
    simp [hle] at h
  | case6 npar nres then_ else_ rest g₀ exit ihcont ihelse ihthen =>
    rw [seq] at h
    simp only [Option.bind_eq_bind, Option.bind_eq_some_iff] at h
    obtain ⟨⟨i, g⟩, hpop, h⟩ := h
    split at h
    · simp only [Option.bind_eq_some_iff] at h
      obtain ⟨cont, hcont, a, ha, b, hb, hc⟩ := h
      cases hc
      exact .if_ hpop (ihcont g hcont) (ihelse g ha) (ihthen g hb)
    · cases h
  | case7 n rest g exit =>
    rw [seq] at h
    exact .br h
  | case8 n rest g₀ exit ih =>
    rw [seq] at h
    simp only [Option.bind_eq_bind, Option.bind_eq_some_iff] at h
    obtain ⟨⟨i, g⟩, hpop, taken, htaken, code, hcode, hc⟩ := h
    cases hc
    exact .brIf hpop htaken (ih g hcode)
  | case9 labels default rest g₀ exit =>
    rw [seq] at h
    simp only [Option.bind_eq_bind, Option.bind_eq_some_iff] at h
    obtain ⟨⟨i, g⟩, hpop, clauses, hclauses, last, hlast, hc⟩ := h
    cases hc
    exact .brTable hpop hclauses hlast
  | case10 rest g exit =>
    rw [seq] at h
    exact .return_ h
  | case11 rest g exit =>
    rw [seq] at h
    cases h
    exact .unreachable
  | case12 width offset rest g₀ exit ih =>
    rw [seq] at h
    simp only [Option.bind_eq_bind, Option.bind_eq_some_iff] at h
    obtain ⟨⟨base, g⟩, hpop, body, hbody, hc⟩ := h
    cases hc
    exact .load hpop rfl (ih g _ hbody)
  | case13 width offset rest g₀ exit ih =>
    rw [seq] at h
    simp only [Option.bind_eq_bind, Option.bind_eq_some_iff] at h
    obtain ⟨⟨val, g₁⟩, hval, ⟨base, g⟩, hbase, body, hbody, hc⟩ := h
    cases hc
    exact .store hval hbase (ih g hbody)
  | case14 i rest g exit h1 h2 h3 h4 h5 h6 h7 h8 h9 h10 ih =>
    rw [seq] at h <;> try assumption
    simp only [Option.bind_eq_bind, Option.bind_eq_some_iff] at h
    obtain ⟨⟨pre, g₁⟩, hi, code, hcode, hc⟩ := h
    cases hc
    exact .straight hi (ih g₁ hcode)

/-! ## What a state holds -/

/-- What the code for a state can reference, apart from the cache. -/
def Gen.Holds (g : Gen) (v : Opd) : Prop :=
  (∃ i, g.env i = some v) ∨ v ∈ g.stack ∨ v = g.inst ∨ v = g.mut_ ∨ v = g.d

/-- A later state holds nothing new but what is bound in between. -/
structure Gen.Later (g g' : Gen) : Prop where
  n_le : g.n ≤ g'.n
  holds : ∀ k, g'.Holds (.num k) → g.Holds (.num k) ∨ g.n ≤ k ∧ k < g'.n
  tlb : ∀ k, .num k ∈ g'.tlb.toList → .num k ∈ g.tlb.toList ∨ g.n ≤ k ∧ k < g'.n

/-- All that a state holds, and its cache, is bound. -/
def Gen.Bounded (g : Gen) : Prop :=
  ∀ k, g.Holds (.num k) ∨ .num k ∈ g.tlb.toList → k < g.n

/-- A variable that is bound and that the state does not hold. -/
def Gen.Hides (g : Gen) (k : ℕ) : Prop := k < g.n ∧ ¬ g.Holds (.num k)

/-- The cache is of variables that the state does not hold otherwise. -/
def Gen.Apart (g : Gen) : Prop := ∀ v ∈ g.tlb.toList, ∃ k, v = .num k ∧ g.Hides k

theorem mem_nums {k n len : ℕ} : Opd.num k ∈ nums n len ↔ n ≤ k ∧ k < n + len := by
  simp [nums]

theorem mem_fresh {k n : ℕ} : Opd.num k ∈ (Cache.fresh n).toList ↔ n ≤ k ∧ k < n + tlbSize := by
  simp only [Cache.toList, Cache.fresh, List.mem_cons, Opd.num.injEq, List.not_mem_nil, or_false,
    tlbSize]
  omega

namespace Gen.Later

theorem trans {g'' : Gen} (h : g.Later g') (h' : g'.Later g'') : g.Later g'' where
  n_le := Nat.le_trans h.n_le h'.n_le
  holds k hk := by
    have hle := h.n_le
    have hle' := h'.n_le
    rcases h'.holds k hk with hk | hk
    · exact (h.holds k hk).imp_right fun hk => ⟨hk.1, by omega⟩
    · exact .inr ⟨by omega, hk.2⟩
  tlb k hk := by
    have hle := h.n_le
    have hle' := h'.n_le
    rcases h'.tlb k hk with hk | hk
    · exact (h.tlb k hk).imp_right fun hk => ⟨hk.1, by omega⟩
    · exact .inr ⟨by omega, hk.2⟩

theorem bounded (h : g.Later g') (hg : g.Bounded) : g'.Bounded := by
  intro k hk
  have hle := h.n_le
  rcases hk with hk | hk
  · rcases h.holds k hk with hk | hk
    · exact Nat.lt_of_lt_of_le (hg k (.inl hk)) hle
    · exact hk.2
  · rcases h.tlb k hk with hk | hk
    · exact Nat.lt_of_lt_of_le (hg k (.inr hk)) hle
    · exact hk.2

theorem hides (h : g.Later g') {k : ℕ} (hk : g.Hides k) : g'.Hides k := by
  have hle := h.n_le
  refine ⟨Nat.lt_of_lt_of_le hk.1 hle, fun hk' => ?_⟩
  rcases h.holds k hk' with hk' | hk'
  · exact hk.2 hk'
  · have := hk.1
    omega

/-- With the cache that there was, it is still apart. -/
theorem apart (h : g.Later g') (htlb : g'.tlb = g.tlb) (hg : g.Apart) : g'.Apart := by
  intro v hv
  rw [htlb] at hv
  obtain ⟨k, rfl, hk⟩ := hg v hv
  exact ⟨k, rfl, h.hides hk⟩

theorem not_mem_tlb (h : g.Later g') {k : ℕ} (hk : g.Hides k) (htlb : .num k ∉ g.tlb.toList) :
    .num k ∉ g'.tlb.toList := by
  intro hk'
  rcases h.tlb k hk' with hk' | hk'
  · exact htlb hk'
  · have := hk.1
    omega

end Gen.Later

/-! ## One step -/

theorem pop_eq (h : g₀.pop = some (v, g)) :
    ∃ s, g₀.stack = v :: s ∧ g = { g₀ with stack := s } := by
  rw [Gen.pop] at h
  split at h
  · cases h
  · rename_i hs
    cases h
    exact ⟨_, hs, rfl⟩

theorem take_eq {n : ℕ} {vs : List Opd} (h : g.take n = some (vs, g₁)) :
    vs ⊆ g.stack ∧ ∃ s, s ⊆ g.stack ∧ g₁ = { g with stack := s } := by
  rw [Gen.take] at h
  split at h
  · cases h
    exact ⟨fun v hv => List.mem_of_mem_take (List.mem_reverse.mp hv), _,
      fun v hv => List.mem_of_mem_drop hv, rfl⟩
  · cases h

theorem pop_later (h : g₀.pop = some (v, g)) : g₀.Later g := by
  obtain ⟨s, hs, rfl⟩ := pop_eq h
  refine ⟨Nat.le_refl _, fun k hk => .inl ?_, fun k hk => .inl hk⟩
  simp only [Gen.Holds, hs] at hk ⊢
  grind

theorem pop_holds (h : g₀.pop = some (v, g)) : g₀.Holds v := by
  obtain ⟨s, hs, rfl⟩ := pop_eq h
  simp [Gen.Holds, hs]

theorem ite_some {p : Prop} [Decidable p] {w : Opd} (h : (if p then some v else none) = some w) :
    p ∧ v = w := by
  split at h
  · exact ⟨‹p›, Option.some.inj h⟩
  · cases h

theorem cont_later {nres npar : ℕ} : g.Later ((frame nres g).cont (g.stack.drop npar)) where
  n_le := by simp [frame, Frame.cont, Gen.skip]
  holds k hk := by
    simp only [Gen.Holds, frame, Frame.cont, Gen.skip, List.mem_append, List.mem_reverse,
      mem_nums, Option.ite_none_right_eq_some, Option.some.injEq, Opd.num.injEq] at hk ⊢
    rcases hk with ⟨i, hi, hk⟩ | (hk | hk) | hk | hk | hk
    · exact .inr (by omega)
    · exact .inr (by omega)
    · exact .inl (.inr (.inl (List.mem_of_mem_drop hk)))
    · exact .inl (.inr (.inr (.inl hk)))
    · exact .inr (by omega)
    · exact .inr (by omega)
  tlb k hk := by
    simp only [frame, Frame.cont, Gen.skip, mem_fresh] at hk ⊢
    exact .inr (by omega)

/-- The cache behind a continuation is bound with it. -/
theorem cont_tlb {nres npar k : ℕ} (hk : g.Hides k) :
    .num k ∉ ((frame nres g).cont (g.stack.drop npar)).tlb.toList := by
  have := hk.1
  simp only [frame, Frame.cont, Gen.skip, mem_fresh]
  omega

theorem body_later {nres npar : ℕ} : g.Later ((frame nres g).body npar nres g) where
  n_le := by simp [frame, Frame.body, Gen.skip]
  holds k hk := by
    simp only [Gen.Holds, frame, Frame.body, Gen.skip] at hk ⊢
    exact .inl (hk.imp_right fun hk => hk.imp_left List.mem_of_mem_take)
  tlb k hk := .inl hk

theorem loop_later {nres npar : ℕ} :
    g.Later (((frame nres g).label npar g).loop npar g) where
  n_le := by
    simp only [frame, Frame.label, Frame.loop, Gen.skip]
    omega
  holds k hk := by
    simp only [Gen.Holds, frame, Frame.label, Frame.loop, Gen.skip, List.mem_reverse,
      mem_nums, Opd.num.injEq] at hk ⊢
    rcases hk with ⟨i, hk⟩ | hk | hk | hk | hk
    · obtain ⟨hi, hk⟩ := ite_some hk
      cases hk
      exact .inr (by omega)
    · exact .inr (by omega)
    · exact .inl (.inr (.inr (.inl hk)))
    · exact .inr (by omega)
    · exact .inr (by omega)
  tlb k hk := by
    simp only [frame, Frame.label, Frame.loop, Gen.skip, mem_fresh] at hk ⊢
    exact .inr (by omega)

theorem loop_tlb {nres npar k : ℕ} (hk : g.Hides k) :
    .num k ∉ (((frame nres g).label npar g).loop npar g).tlb.toList := by
  have := hk.1
  simp only [frame, Frame.label, Frame.loop, Gen.skip, mem_fresh]
  omega

theorem loaded_later {next : Cache}
    (hnext : ∀ v ∈ next.toList, v ∈ g.tlb.toList ∨ v ∈ (Cache.fresh g.n).toList) :
    g.Later (g.loaded next) where
  n_le := by simp [Gen.loaded, Gen.skip, Gen.push]
  holds k hk := by
    simp only [Gen.Holds, Gen.loaded, Gen.skip, Gen.push, List.mem_cons, Opd.num.injEq] at hk ⊢
    grind
  tlb k hk := by
    refine (hnext _ hk).imp_right fun hk => ?_
    simp only [mem_fresh, Gen.loaded, Gen.skip, Gen.push] at hk ⊢
    omega

theorem stored_later : g.Later g.stored where
  n_le := by simp [Gen.stored, Gen.skip]
  holds k hk := by
    simp only [Gen.Holds, Gen.stored, Gen.skip, Opd.num.injEq] at hk ⊢
    grind
  tlb k hk := by
    simp only [mem_fresh, Gen.stored, Gen.skip] at hk ⊢
    exact .inr (by omega)

/-! ## Instructions in a row -/

/-- What is bound before the rest. -/
def Pre.codes : Pre → List Expr
  | .none_ => []
  | .let_ _ e => [e]
  | .match_ _ e => [e]
  | .call check _ e => [.expr check, e]

/-- What an instruction in a row does to the state, and what its code references. -/
structure Straight (g : Gen) (pre : Pre) (g' : Gen) : Prop where
  later : g.Later g'
  tlb : g'.tlb = g.tlb
  frames : g'.frames = g.frames
  mut_ : g'.mut_ = g.mut_ ∨ ∃ e ∈ pre.codes, Uses g.mut_ e
  occurs : ∀ e ∈ pre.codes, ∀ k, Occurs (.num k) e → g.Holds (.num k)
  ordered : ∀ e ∈ pre.codes, Ordered e

variable {pre : Pre} {i : Instr} {mut_ base : Opd} {op : MemOp} {val : List Opd}

theorem access_occurs {k : ℕ} (h : Occurs (.num k) (access op mut_ base val)) :
    .num k = mut_ ∨ .num k = base ∨ .num k ∈ val := by
  cases op <;> simp [access, untouched, perform, helper, Occurs] at h <;> grind

theorem access_ordered : Ordered (access op mut_ base val) := by
  cases op <;> simp [access, untouched, Ordered]

/-- An operation that changes the state is given it. -/
theorem Op.shape_mut (o : Op) : (∃ extra, o.shape.result = .value extra) ∨ o.shape.mut_ = true := by
  cases o <;> simp [Op.shape]

theorem Shape.args_holds {s : Shape} {operands : List Opd} (hsub : operands ⊆ g.stack)
    (hv : v ∈ s.args g operands) : g.Holds v := by
  simp only [Shape.args, List.mem_append] at hv
  rcases hv with (hv | hv) | hv
  · split at hv
    · cases List.mem_singleton.mp hv
      exact .inr (.inr (.inl rfl))
    · cases hv
  · split at hv
    · cases List.mem_singleton.mp hv
      exact .inr (.inr (.inr (.inl rfl)))
    · cases hv
  · exact .inr (.inl (hsub hv))

theorem none_straight {env : ℕ → Option Opd} {s : List Opd}
    (henv : ∀ j k, env j = some (.num k) → g.Holds (.num k))
    (hs : ∀ k, .num k ∈ s → g.Holds (.num k)) :
    Straight g .none_ { g with env := env, stack := s } where
  later := by
    refine ⟨Nat.le_refl _, fun k hk => .inl ?_, fun k hk => .inl hk⟩
    rcases hk with ⟨j, hk⟩ | hk | hk
    · exact henv j k hk
    · exact hs k hk
    · exact .inr (.inr hk)
  tlb := rfl
  frames := rfl
  mut_ := .inl rfl
  occurs := nofun
  ordered := nofun

/-- A value is bound, and goes on the stack. -/
theorem value_straight {s : List Opd} {e : Expr} {x : ℕ} (hs : s ⊆ g.stack)
    (hoccurs : ∀ k, Occurs (.num k) e → g.Holds (.num k)) (hordered : Ordered e) :
    Straight g (.let_ (.num g.n) e)
      ((({ g with stack := s } : Gen).push (.num g.n)).skip (1 + x)) where
  later := by
    refine ⟨by simp [Gen.push, Gen.skip], fun k hk => ?_, fun k hk => .inl hk⟩
    simp only [Gen.Holds, Gen.push, Gen.skip, List.mem_cons, Opd.num.injEq] at hk ⊢
    grind
  tlb := rfl
  frames := rfl
  mut_ := .inl rfl
  occurs e' he' := by
    cases List.mem_singleton.mp he'
    exact hoccurs
  ordered e' he' := by
    cases List.mem_singleton.mp he'
    exact hordered

/-- The state is bound. -/
theorem mut_straight {s : List Opd} {e : Expr} (hs : s ⊆ g.stack) (hmut : Uses g.mut_ e)
    (hoccurs : ∀ k, Occurs (.num k) e → g.Holds (.num k)) (hordered : Ordered e) :
    Straight g (.let_ (.num g.n) e)
      { ({ g with stack := s } : Gen).skip 1 with mut_ := .num g.n } where
  later := by
    refine ⟨by simp [Gen.skip], fun k hk => ?_, fun k hk => .inl hk⟩
    simp only [Gen.Holds, Gen.skip, Opd.num.injEq] at hk ⊢
    grind
  tlb := rfl
  frames := rfl
  mut_ := .inr ⟨e, List.mem_singleton_self e, hmut⟩
  occurs e' he' := by
    cases List.mem_singleton.mp he'
    exact hoccurs
  ordered e' he' := by
    cases List.mem_singleton.mp he'
    exact hordered

theorem emit_straight {o : Op} (h : emit o.shape g = some (pre, g')) : Straight g pre g' := by
  simp only [emit, Option.bind_eq_bind, Option.bind_eq_some_iff] at h
  obtain ⟨⟨operands, g₁⟩, htake, h⟩ := h
  obtain ⟨hsub, s, hs, rfl⟩ := take_eq htake
  have hargs : ∀ k, .num k ∈ o.shape.args g operands → g.Holds (.num k) :=
    fun k hk => Shape.args_holds hsub hk
  have hmut : (∃ extra, o.shape.result = .value extra) ∨ g.mut_ ∈ o.shape.args g operands :=
    o.shape_mut.imp_right fun hm => by simp [Shape.args, hm]
  split at h <;> rename_i hresult <;> cases h
  · exact value_straight hs hargs trivial
  · exact mut_straight hs (by simpa [hresult, Uses] using hmut) hargs trivial
  · refine ⟨⟨by simp [Gen.push, Gen.skip], fun k hk => ?_, fun k hk => .inl hk⟩, rfl, rfl,
      .inr ⟨_, List.mem_singleton_self _, by simpa [hresult, Uses] using hmut⟩, ?_, ?_⟩
    · simp only [Gen.Holds, Gen.push, Gen.skip, List.mem_cons, Opd.num.injEq] at hk ⊢
      grind
    · simpa [Pre.codes, Occurs] using hargs
    · simp [Pre.codes, Ordered]

theorem emitCall_straight {np nr : ℕ} {e : List Opd → List Opd} {s : List Opd}
    (h : emitCall np nr e g { g with stack := s } = some (pre, g')) (hs : s ⊆ g.stack)
    (he : ∀ args, args ⊆ g.stack → ∀ v ∈ e args, g.Holds v) (hmut : ∀ args, g.mut_ ∈ e args) :
    Straight g pre g' := by
  simp only [emitCall, Option.bind_eq_bind, Option.bind_eq_some_iff] at h
  obtain ⟨⟨args, g₁⟩, htake, h⟩ := h
  obtain ⟨hsub, s', hs', rfl⟩ := take_eq htake
  cases h
  refine ⟨⟨?_, ?_, fun k hk => .inl hk⟩, rfl, rfl, .inr ?_, ?_, ?_⟩
  · simp [Gen.skip]
  · intro k hk
    simp only [Gen.Holds, Gen.skip, List.mem_append, List.mem_reverse, mem_nums,
      Opd.num.injEq] at hk ⊢
    rcases hk with hk | (hk | hk) | hk | hk | hk
    · exact .inl (.inl hk)
    · exact .inr (by omega)
    · exact .inl (.inr (.inl (hs (hs' hk))))
    · exact .inl (.inr (.inr (.inl hk)))
    · exact .inr (by omega)
    · exact .inl (.inr (.inr (.inr (.inr hk))))
  · simpa [Pre.codes, Uses] using .inr (hmut args)
  · intro e' he' k hk
    simp only [Pre.codes, List.mem_cons, List.not_mem_nil, or_false] at he'
    rcases he' with rfl | rfl
    · simp only [Occurs, List.mem_cons, List.not_mem_nil, or_false] at hk
      rcases hk with hk | hk
      · exact .inr (.inr (.inl hk))
      · exact .inr (.inr (.inr (.inr hk)))
    · exact he args (fun v hv => hs (hsub hv)) _ hk
  · simp [Pre.codes, Ordered]

theorem straight_spec (h : straight m g i = some (pre, g')) : Straight g pre g' := by
  have hstack : ∀ v, v ∈ g.stack → g.Holds v := fun v hv => .inr (.inl hv)
  have henv : ∀ j v, g.env j = some v → g.Holds v := fun j v hv => .inl ⟨j, hv⟩
  -- a local is given a value that the state held
  have hupdate : ∀ (j : ℕ) v, g.Holds v → ∀ j' k,
      Function.update g.env j (some v) j' = some (.num k) → g.Holds (.num k) := by
    intro j v hv j' k hk
    by_cases hj : j' = j
    · subst hj
      rw [Function.update_self] at hk
      cases hk
      exact hv
    · rw [Function.update_of_ne hj] at hk
      exact henv j' _ hk
  cases i with
  | nop =>
    cases h
    exact none_straight (fun j k => henv j _) fun k => hstack _
  | drop =>
    simp only [straight, Option.bind_eq_bind, Option.bind_eq_some_iff] at h
    obtain ⟨⟨v, g₁⟩, hpop, h⟩ := h
    obtain ⟨s, hs, rfl⟩ := pop_eq hpop
    cases h
    exact none_straight (fun j k => henv j _) fun k hk => hstack _ (by simp [hs, hk])
  | select =>
    simp only [straight, Option.bind_eq_bind, Option.bind_eq_some_iff] at h
    obtain ⟨⟨v₁, g₁⟩, hpop₁, ⟨v₂, g₂⟩, hpop₂, ⟨v₃, g₃⟩, hpop₃, h⟩ := h
    obtain ⟨s₁, hs₁, rfl⟩ := pop_eq hpop₁
    obtain ⟨s₂, hs₂, rfl⟩ := pop_eq hpop₂
    obtain ⟨s₃, hs₃, rfl⟩ := pop_eq hpop₃
    cases h
    simp only at hs₂ hs₃
    have hsub : s₃ ⊆ g.stack := fun v hv => by simp [hs₁, hs₂, hs₃, hv]
    refine value_straight (x := 0) hsub (fun k hk => hstack _ ?_) ?_
    · simp only [Occurs, List.mem_singleton] at hk
      grind
    · simp [Ordered]
  | localGet j =>
    simp only [straight, Option.bind_eq_bind, Option.bind_eq_some_iff] at h
    obtain ⟨v, hv, h⟩ := h
    cases h
    refine none_straight (fun j k => henv j _) fun k hk => ?_
    rcases List.mem_cons.mp hk with rfl | hk
    · exact henv j _ hv
    · exact hstack _ hk
  | localSet j =>
    simp only [straight, Option.bind_eq_bind, Option.bind_eq_some_iff] at h
    obtain ⟨⟨v, g₁⟩, hpop, h⟩ := h
    have hv := pop_holds hpop
    obtain ⟨s, hs, rfl⟩ := pop_eq hpop
    cases h
    exact none_straight (hupdate j v hv) fun k hk => hstack _ (by simp [hs, hk])
  | localTee j =>
    simp only [straight, Option.bind_eq_bind, Option.bind_eq_some_iff] at h
    obtain ⟨⟨v, g₁⟩, hpop, h⟩ := h
    cases h
    exact none_straight (hupdate j v (pop_holds hpop)) fun k => hstack _
  | const =>
    cases h
    refine none_straight (fun j k => henv j _) fun k hk => ?_
    rcases List.mem_cons.mp hk with hk | hk
    · cases hk
    · exact hstack _ hk
  | op o => exact emit_straight h
  | access op offset mem =>
    cases mem with
    | zero => cases op <;> simp [straight] at h
    | succ mem =>
      cases op with
      | load width =>
        simp only [straight, Option.bind_eq_bind, Option.bind_eq_some_iff] at h
        obtain ⟨⟨base, g₁⟩, hpop, h⟩ := h
        have hbase := pop_holds hpop
        obtain ⟨s, hs, rfl⟩ := pop_eq hpop
        cases h
        have hsub : s ⊆ g.stack := fun v hv => by simp [hs, hv]
        refine value_straight (x := 0) hsub (fun k hk => ?_) access_ordered
        rcases access_occurs hk with hk | hk | hk
        · exact .inr (.inr (.inr (.inl hk)))
        · exact hk ▸ hbase
        · cases hk
      | store width =>
        simp only [straight, Option.bind_eq_bind, Option.bind_eq_some_iff] at h
        obtain ⟨⟨val, g₁⟩, hval, ⟨base, g₂⟩, hbase, h⟩ := h
        obtain ⟨s₁, hs₁, rfl⟩ := pop_eq hval
        obtain ⟨s₂, hs₂, rfl⟩ := pop_eq hbase
        cases h
        simp only at hs₂
        have hsub : s₂ ⊆ g.stack := fun v hv => by simp [hs₁, hs₂, hv]
        refine mut_straight hsub (.inl (List.mem_singleton_self _)) (fun k hk => ?_) access_ordered
        rcases access_occurs hk with hk | hk | hk
        · exact .inr (.inr (.inr (.inl hk)))
        · exact hstack _ (by simp [hs₁, hs₂, hk])
        · exact hstack _ (by simp [hs₁, List.mem_singleton.mp hk])
      | other => simp [straight] at h
  | call f =>
    simp only [straight, Option.bind_eq_bind, Option.bind_eq_some_iff] at h
    obtain ⟨⟨np, nr⟩, -, h⟩ := h
    refine emitCall_straight (s := g.stack) h (fun _ hv => hv) (fun args hargs v hv => ?_)
      fun args => ?_
    · have := fun hv => hstack v (hargs hv)
      simp only [Gen.Holds] at this ⊢
      cases hf : m.unit f <;>
        simp only [hf, List.mem_append, List.mem_cons, List.not_mem_nil] at hv <;> grind
    · cases hf : m.unit f <;> simp
  | callIndirect typeIdx tableIdx =>
    simp only [straight, Option.bind_eq_bind, Option.bind_eq_some_iff] at h
    obtain ⟨⟨np, nr⟩, -, ⟨j, g₁⟩, hpop, h⟩ := h
    have hj := pop_holds hpop
    obtain ⟨s, hs, rfl⟩ := pop_eq hpop
    refine emitCall_straight h (fun v hv => by simp [hs, hv]) (fun args hargs v hv => ?_)
      fun args => by simp
    have := fun hv => hstack v (hargs hv)
    simp only [Gen.Holds, List.mem_append, List.mem_cons, List.not_mem_nil] at this hv hj ⊢
    grind
  | _ => simp [straight] at h

theorem straight_paths {atReturn : Bool} {d : ℕ} (h : straight m g i = some (pre, g')) :
    paths atReturn d (i :: rest) = paths atReturn d rest := by
  cases i with
  | access op offset mem =>
    cases op <;> cases mem <;> first | (simp [straight] at h; done) | simp [paths]
  | _ => first | (simp [straight] at h; done) | simp [paths]

end ErlangWasm.Compile.Core
