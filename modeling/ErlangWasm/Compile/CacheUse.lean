import ErlangWasm.Compile.Emits
import ErlangWasm.Reasoning.Fallible

/-!
# The cache behind an access

What `wasm_core:cache_use/3` answers holds of the code that `seq/3` emits: where it answers `must`,
every path references the cache that is handed on, and where it answers `none`, no path does.  In
between, a path references all of a cache or nothing of it (`Emits.whole`), and so a value that is
bound is referenced whenever one before it is.
-/

namespace ErlangWasm.Compile.Core

open Reasoning.References Reasoning.Fallible

variable {m : Module} {g g₀ g₁ g' : Gen} {exit : Exit} {is rest : List Instr} {c : Expr} {v : Opd}
variable {k : ℕ} {pre : Pre} {t new : Cache} {form : Form} {r : List Opd} {body : Expr}
variable {op : MemOp} {mut_ base : Opd} {val : List Opd} {S : List Opd}

/-! ## The code of an instruction in a row -/

theorem Pre.uses_wrap (h : Uses v c) : Uses v (pre.wrap c) := by
  cases pre with
  | none_ => exact h
  | let_ w e => exact .inr h
  | match_ vs e => exact .inr h
  | call check vs e => exact .inr (.inr h)

theorem Pre.wrap_uses {e : Expr} (he : e ∈ pre.codes) (h : Uses v e) : Uses v (pre.wrap c) := by
  cases pre with
  | none_ => cases he
  | let_ w e' | match_ vs e' =>
    cases List.mem_singleton.mp he
    exact .inl h
  | call check vs e' =>
    simp only [codes, List.mem_cons, List.not_mem_nil, or_false] at he
    rcases he with rfl | rfl
    · exact .inl h
    · exact .inr (.inl h)

theorem Pre.occurs_wrap (h : Occurs v (pre.wrap c)) :
    (∃ e ∈ pre.codes, Occurs v e) ∨ Occurs v c := by
  cases pre <;> simp [wrap, codes, Occurs] at h ⊢ <;> grind

theorem Pre.whole_wrap (hpre : ∀ w ∈ S, ∀ e ∈ pre.codes, ¬ Occurs w e) (h : Whole S c) :
    Whole S (pre.wrap c) := by
  cases pre with
  | none_ => exact h
  | let_ w e | match_ vs e => exact .inr ⟨fun w hw => hpre w hw e (List.mem_singleton_self e), h⟩
  | call check vs e =>
    refine .inr ⟨fun w hw => hpre w hw _ List.mem_cons_self, .inr ⟨fun w hw => ?_, h⟩⟩
    exact hpre w hw e (List.mem_cons_of_mem _ (List.mem_singleton_self e))

theorem Pre.ordered_wrap (hpre : ∀ e ∈ pre.codes, Ordered e) (h : Ordered c) :
    Ordered (pre.wrap c) := by
  cases pre with
  | none_ => exact h
  | let_ w e =>
    exact ⟨fun _ _ => List.pairwise_singleton _ _, hpre e (List.mem_singleton_self e), h⟩
  | match_ vs e => exact ⟨hpre e (List.mem_singleton_self e), h⟩
  | call check vs e =>
    exact ⟨fun _ _ => List.Pairwise.nil, trivial,
      hpre e (List.mem_cons_of_mem _ (List.mem_singleton_self e)), h⟩

/-! ## The code of an access -/

theorem mem_order : v ∈ order form r t ↔ v ∈ r ∨ v ∈ t.toList := by
  cases form <;> simp only [order, Cache.toList, List.mem_append, List.mem_cons,
    List.not_mem_nil, or_false] <;> grind

theorem answer_uses (h : v ∈ r ∨ v ∈ t.toList) : Uses v (answer form r t) := by
  cases form with
  | tuple =>
    simp only [answer, Uses, Cache.toList, List.mem_cons, List.not_mem_nil, or_false] at h ⊢
    grind
  | first | last => exact mem_order.mpr h

theorem answer_occurs (h : Occurs (.num k) (answer form r t)) : .num k ∈ r ∨ .num k ∈ t.toList := by
  cases form with
  | tuple =>
    simp only [answer, Occurs, Cache.toList, List.mem_cons, List.not_mem_nil, or_false,
      reduceCtorEq] at h ⊢
    grind
  | first | last => exact mem_order.mp h

theorem fromTuple_uses {call : Expr} (h : Uses v call) : Uses v (fromTuple form call) := by
  cases form with
  | tuple => exact h
  | first => exact .inl h
  | last => exact .inl h

theorem cached_uses (h : v ∈ t.toList) : Uses v (cached op mut_ base val t form) := by
  have hout : Uses v (fromTuple form (.expr ([mut_, .name "A"] ++ val ++ t.toList))) :=
    fromTuple_uses (List.mem_append_right _ h)
  exact .inr (.inr (.inr (.inr ⟨.inr ⟨.inr (answer_uses (.inr h)), hout⟩, answer_uses (.inr h)⟩)))

theorem cached_uses_mut {width : ℕ} : Uses mut_ (cached (.store width) mut_ base val t form) := by
  have hout : Uses mut_ (fromTuple form (.expr ([mut_, .name "A"] ++ val ++ t.toList))) :=
    fromTuple_uses (by simp [Uses])
  refine .inr (.inr (.inr (.inr ⟨.inr ⟨.inr (answer_uses (.inl ?_)), hout⟩,
    answer_uses (.inl ?_)⟩)))
  · simp [perform]
  · simp [helper]

theorem perform_occurs {a i : Opd} (h : .num k ∈ perform op mut_ val a i) :
    .num k = a ∨ .num k = i ∨ .num k ∈ val ∨ .num k = mut_ := by
  cases op <;> simp only [perform] at h <;> grind

theorem fromTuple_occurs {call : Expr} (h : Occurs (.num k) (fromTuple form call)) :
    Occurs (.num k) call := by
  cases form <;> simpa [fromTuple, Occurs, order] using h

theorem cached_occurs (h : Occurs (.num k) (cached op mut_ base val t form)) :
    .num k = mut_ ∨ .num k = base ∨ .num k ∈ val ∨ .num k ∈ t.toList := by
  have hp : Opd.num k = t.p → .num k ∈ t.toList := by simp +contextual [Cache.toList]
  have har : Opd.num k = t.ar → .num k ∈ t.toList := by simp +contextual [Cache.toList]
  have hb : Opd.num k = t.b → .num k ∈ t.toList := by simp +contextual [Cache.toList]
  simp only [cached, Occurs, List.mem_cons, List.not_mem_nil, or_false, reduceCtorEq,
    false_or] at h
  rcases h with h | (h | h | h) | h
  · exact .inr (.inl h)
  · exact .inr (.inr (.inr (hp h)))
  · rcases h with h | h
    · exact .inr (.inr (.inr (hb h)))
    · rcases answer_occurs h with h | h
      · rcases perform_occurs h with h | h | h | h
        · exact .inr (.inr (.inr (har h)))
        · cases h
        · exact .inr (.inr (.inl h))
        · exact .inl h
      · exact .inr (.inr (.inr h))
  · have h := fromTuple_occurs h
    simp only [Occurs, List.mem_append, List.mem_cons, List.not_mem_nil, or_false, reduceCtorEq]
      at h
    tauto
  · rcases answer_occurs h with h | h
    · simp only [helper, List.mem_append, List.mem_cons, List.not_mem_nil, or_false, reduceCtorEq]
        at h
      tauto
    · exact .inr (.inr (.inr h))

theorem cached_ordered : Ordered (cached op mut_ base val t form) := by
  cases form <;> simp [cached, answer, fromTuple, Ordered]

/-! ## Binding what an access answers -/

theorem uses_join {access : Expr} :
    Uses v (join form access r t body) ↔ Uses v access ∨ Uses v body := by
  cases form <;> rfl

theorem occurs_join {access : Expr} :
    Occurs v (join form access r t body) ↔ Occurs v access ∨ Occurs v body := by
  cases form <;> rfl

theorem whole_join {access : Expr} (h : ∀ w ∈ S, Uses w access) :
    Whole S (join form access r t body) := by
  cases form <;> exact .inl h

theorem load_cache {use : CacheUse} {next : Cache} (h : use.load t new = (form, next)) :
    ∀ v ∈ next.toList, v ∈ t.toList ∨ v ∈ new.toList := by
  cases use <;> cases h <;> simp +contextual

/-! ## Leaving a frame -/

theorem carried_spec {cs : List Opd} (h : g.carried = some cs) :
    g.mut_ ∈ cs ∧ g.tlb.toList ⊆ cs ∧ ∀ v ∈ cs, g.Holds v ∨ v ∈ g.tlb.toList := by
  simp only [Gen.carried, Gen.locals, Option.bind_eq_bind, Option.bind_eq_some_iff] at h
  obtain ⟨ls, hls, hcs⟩ := h
  cases hcs
  refine ⟨by simp, List.subset_append_right _ _, fun v hv => ?_⟩
  simp only [List.mem_append, List.mem_cons, List.not_mem_nil, or_false] at hv
  rcases hv with (hv | hv | hv) | hv
  · obtain ⟨i, -, hi⟩ := mem_of_mapM hls hv
    exact .inl (.inl ⟨i, hi⟩)
  · exact .inl (.inr (.inr (.inr (.inl hv))))
  · exact .inl (.inr (.inr (.inr (.inr hv))))
  · exact .inr hv

theorem mem_operands {n : ℕ} (hv : v ∈ (g.stack.take n).reverse) : g.Holds v :=
  .inr (.inl (List.mem_of_mem_take (List.mem_reverse.mp hv)))

theorem go_uses_mut (h : g.go exit = some c) : Uses g.mut_ c := by
  cases exit with
  | return_ =>
    cases h
    exact List.mem_append_right _ (List.mem_singleton_self _)
  | cont name nargs =>
    simp only [Gen.go, Option.bind_eq_bind, Option.bind_eq_some_iff] at h
    obtain ⟨cs, hcs, hc⟩ := h
    cases hc
    exact List.mem_append_left _ (carried_spec hcs).1

theorem go_uses_tlb (h : g.go exit = some c) (hexit : exit ≠ .return_) (hv : v ∈ g.tlb.toList) :
    Uses v c := by
  cases exit with
  | return_ => exact absurd rfl hexit
  | cont name nargs =>
    simp only [Gen.go, Option.bind_eq_bind, Option.bind_eq_some_iff] at h
    obtain ⟨cs, hcs, hc⟩ := h
    cases hc
    exact List.mem_append_left _ ((carried_spec hcs).2.1 hv)

theorem go_occurs (h : g.go exit = some c) (hv : Occurs v c) :
    g.Holds v ∨ v ∈ g.tlb.toList ∧ exit ≠ .return_ := by
  cases exit with
  | return_ =>
    cases h
    rcases List.mem_append.mp hv with hv | hv
    · exact .inl (mem_operands hv)
    · exact .inl (.inr (.inr (.inr (.inl (List.mem_singleton.mp hv)))))
  | cont name nargs =>
    simp only [Gen.go, Option.bind_eq_bind, Option.bind_eq_some_iff] at h
    obtain ⟨cs, hcs, hc⟩ := h
    cases hc
    rcases List.mem_append.mp hv with hv | hv
    · exact ((carried_spec hcs).2.2 v hv).imp_right fun hv => ⟨hv, nofun⟩
    · exact .inl (mem_operands hv)

theorem go_not_occurs (h : g.go exit = some c) (hk : g.Hides k)
    (hexit : .num k ∈ g.tlb.toList → exit = .return_) : ¬ Occurs (.num k) c := by
  intro hc
  rcases go_occurs h hc with hc | ⟨hc, hcont⟩
  · exact hk.2 hc
  · exact hcont (hexit hc)

theorem go_whole (h : g.go exit = some c) (hg : g.Apart) : Whole g.tlb.toList c := by
  cases exit with
  | return_ =>
    have hc := h
    cases hc
    refine .inr fun v htlb hv => ?_
    obtain ⟨k, rfl, hk⟩ := hg v htlb
    exact go_not_occurs h hk (fun _ => rfl) hv
  | cont name nargs =>
    have huses : ∀ v ∈ g.tlb.toList, Uses v c := fun v => go_uses_tlb h nofun
    simp only [Gen.go, Option.bind_eq_bind, Option.bind_eq_some_iff] at h
    obtain ⟨cs, -, hc⟩ := h
    cases hc
    exact huses

theorem go_ordered (h : g.go exit = some c) : Ordered c := by
  cases exit with
  | return_ =>
    cases h
    trivial
  | cont name nargs =>
    simp only [Gen.go, Option.bind_eq_bind, Option.bind_eq_some_iff] at h
    obtain ⟨cs, -, hc⟩ := h
    cases hc
    trivial

/-! ## Where a branch goes -/

theorem exit_of_uses {d : ℕ} (h : (paths (exit = .return_) d []).2 = false) :
    exit ≠ .return_ := by
  rintro rfl
  simp [paths] at h

theorem exit_of_leaves {d : ℕ} (h : (paths (exit = .return_) d []).1 = false) :
    exit = .return_ := by
  by_contra hexit
  simp [paths, hexit] at h

theorem target_of_uses {n : ℕ} (h : (branch n g.frames.length).2 = false) :
    g.target n ≠ .return_ := by
  have hn : n < g.frames.length := by
    by_contra hn
    simp [branch, hn] at h
  rw [Gen.target, List.getElem?_eq_getElem hn]
  exact nofun

theorem target_of_leaves {n : ℕ} (h : (branch n g.frames.length).1 = false) :
    g.target n = .return_ := by
  have hn : g.frames.length ≤ n := by
    by_contra hn
    simp [branch, Nat.lt_of_not_le hn] at h
  rw [Gen.target, List.getElem?_eq_none hn]

theorem table_uses {labels : List ℕ} {acc : Bool × Bool} {d : ℕ}
    (h : (labels.foldl (fun acc l => either (branch l d) acc) acc).2 = false) :
    acc.2 = false ∧ ∀ l ∈ labels, (branch l d).2 = false := by
  induction labels generalizing acc with
  | nil => exact ⟨h, nofun⟩
  | cons l labels ih =>
    obtain ⟨hacc, hl⟩ := ih h
    simp only [either, Bool.or_eq_false_iff] at hacc
    exact ⟨hacc.2, List.forall_mem_cons.mpr ⟨hacc.1, hl⟩⟩

theorem table_leaves {labels : List ℕ} {acc : Bool × Bool} {d : ℕ}
    (h : (labels.foldl (fun acc l => either (branch l d) acc) acc).1 = false) :
    acc.1 = false ∧ ∀ l ∈ labels, (branch l d).1 = false := by
  induction labels generalizing acc with
  | nil => exact ⟨h, nofun⟩
  | cons l labels ih =>
    obtain ⟨hacc, hl⟩ := ih h
    simp only [either, Bool.or_eq_false_iff] at hacc
    exact ⟨hacc.2, List.forall_mem_cons.mpr ⟨hacc.1, hl⟩⟩

/-! ## What the code references -/

theorem pop_same (h : g₀.pop = some (v, g)) :
    g.mut_ = g₀.mut_ ∧ g.tlb = g₀.tlb ∧ g.frames = g₀.frames := by
  obtain ⟨s, -, rfl⟩ := pop_eq h
  exact ⟨rfl, rfl, rfl⟩

/-- Every path references the state. -/
theorem Emits.uses_mut (h : Emits m is g exit c) : Uses g.mut_ c := by
  induction h with
  | leave h => exact go_uses_mut h
  | block _ _ _ ihbody => exact ihbody
  | loop _ _ hcs _ _ => exact List.mem_append_left _ (carried_spec hcs).1
  | if_ hpop _ _ _ _ iha ihb =>
    rw [← (pop_same hpop).1]
    exact .inr ⟨iha, ihb⟩
  | br h => exact go_uses_mut h
  | brIf hpop htaken _ ih =>
    rw [← (pop_same hpop).1]
    exact .inr ⟨ih, go_uses_mut htaken⟩
  | brTable hpop hclauses hlast =>
    rw [← (pop_same hpop).1]
    refine .inr (uses_foldr.mpr ⟨fun a ha => ?_, go_uses_mut hlast⟩)
    obtain ⟨l, -, hl⟩ := mem_of_mapM hclauses ha
    exact go_uses_mut hl
  | return_ h => exact go_uses_mut h
  | unreachable => exact List.mem_cons_self
  | load hpop _ _ ih =>
    rw [← (pop_same hpop).1]
    exact uses_join.mpr (.inr ih)
  | store hval hbase _ _ =>
    rw [← (pop_same hval).1, ← (pop_same hbase).1]
    exact uses_join.mpr (.inl cached_uses_mut)
  | straight hi _ ih =>
    rcases (straight_spec hi).mut_ with hm | ⟨e, he, hm⟩
    · rw [hm] at ih
      exact Pre.uses_wrap ih
    · exact Pre.wrap_uses he hm

/-- If no path leaves the function first, every path references the cache. -/
theorem Emits.uses_tlb (h : Emits m is g exit c)
    (hpaths : (paths (exit = .return_) g.frames.length is).2 = false) (hv : v ∈ g.tlb.toList) :
    Uses v c := by
  induction h with
  | leave h => exact go_uses_tlb h (exit_of_uses hpaths) hv
  | block _ _ _ ihbody =>
    rw [paths] at hpaths
    exact ihbody hpaths hv
  | loop _ _ hcs _ _ => exact List.mem_append_left _ ((carried_spec hcs).2.1 hv)
  | if_ hpop _ _ _ _ iha ihb =>
    obtain ⟨-, htlb, hframes⟩ := pop_same hpop
    rw [← htlb] at hv
    simp only [paths, either, ← hframes, Bool.or_eq_false_iff] at hpaths
    exact .inr ⟨iha hpaths.2 hv, ihb hpaths.1 hv⟩
  | br h => exact go_uses_tlb h (target_of_uses (by simpa [paths] using hpaths)) hv
  | brIf hpop htaken _ ih =>
    obtain ⟨-, htlb, hframes⟩ := pop_same hpop
    rw [← htlb] at hv
    simp only [paths, either, ← hframes, Bool.or_eq_false_iff] at hpaths
    exact .inr ⟨ih hpaths.2 hv, go_uses_tlb htaken (target_of_uses hpaths.1) hv⟩
  | brTable hpop hclauses hlast =>
    obtain ⟨-, htlb, hframes⟩ := pop_same hpop
    rw [← htlb] at hv
    simp only [paths, ← hframes] at hpaths
    obtain ⟨hdefault, hlabels⟩ := table_uses hpaths
    refine .inr (uses_foldr.mpr ⟨fun a ha => ?_, go_uses_tlb hlast (target_of_uses hdefault) hv⟩)
    obtain ⟨l, hl, ha⟩ := mem_of_mapM hclauses ha
    exact go_uses_tlb ha (target_of_uses (hlabels l hl)) hv
  | return_ h => simp [paths] at hpaths
  | unreachable => exact List.mem_cons_of_mem _ hv
  | load hpop _ _ _ =>
    rw [← (pop_same hpop).2.1] at hv
    exact uses_join.mpr (.inl (cached_uses hv))
  | store hval hbase _ _ =>
    rw [← (pop_same hval).2.1, ← (pop_same hbase).2.1] at hv
    exact uses_join.mpr (.inl (cached_uses hv))
  | straight hi _ ih =>
    have hs := straight_spec hi
    rw [straight_paths hi, ← hs.frames] at hpaths
    exact Pre.uses_wrap (ih hpaths (hs.tlb ▸ hv))

/-- A variable that is not held occurs nowhere, and one of the cache does not if no path uses
that. -/
theorem Emits.not_occurs (h : Emits m is g exit c) (hk : g.Hides k)
    (htlb : .num k ∈ g.tlb.toList → (paths (exit = .return_) g.frames.length is).1 = false) :
    ¬ Occurs (.num k) c := by
  induction h with
  | leave h => exact go_not_occurs h hk fun hmem => exit_of_leaves (htlb hmem)
  | block hcont hbody ihcont ihbody =>
    rw [paths] at htlb
    intro hc
    rcases hc with hc | hc
    · exact ihcont (cont_later.hides hk) (fun hmem => (cont_tlb hk hmem).elim) hc
    · exact ihbody (body_later.hides hk) htlb hc
  | loop hcont hbody hcs ihcont ihbody =>
    have hout : Opd.num k ∉ _ := fun hmem => by simpa [paths] using htlb hmem
    intro hc
    rcases hc with hc | hc | hc
    · exact ihcont (cont_later.hides hk) (fun hmem => (cont_tlb hk hmem).elim) hc
    · exact ihbody (loop_later.hides hk) (fun hmem => (loop_tlb hk hmem).elim) hc
    · rcases List.mem_append.mp hc with hc | hc
      · exact ((carried_spec hcs).2.2 _ hc).elim hk.2 hout
      · exact hk.2 (mem_operands hc)
  | if_ hpop hcont ha hb ihcont iha ihb =>
    obtain ⟨-, htlb', hframes⟩ := pop_same hpop
    rw [← htlb'] at htlb
    simp only [paths, either, ← hframes, Bool.or_eq_false_iff] at htlb
    have hk' := (pop_later hpop).hides hk
    intro hc
    rcases hc with hc | hc | hc | hc
    · exact ihcont (cont_later.hides hk') (fun hmem => (cont_tlb hk' hmem).elim) hc
    · exact hk.2 (List.mem_singleton.mp hc ▸ pop_holds hpop)
    · exact iha (body_later.hides hk') (fun hmem => (htlb hmem).2) hc
    · exact ihb (body_later.hides hk') (fun hmem => (htlb hmem).1) hc
  | br h =>
    exact go_not_occurs h hk fun hmem => target_of_leaves (by simpa [paths] using htlb hmem)
  | brIf hpop htaken hrest ih =>
    obtain ⟨-, htlb', hframes⟩ := pop_same hpop
    rw [← htlb'] at htlb
    simp only [paths, either, ← hframes, Bool.or_eq_false_iff] at htlb
    have hk' := (pop_later hpop).hides hk
    intro hc
    rcases hc with hc | hc | hc
    · exact hk.2 (List.mem_singleton.mp hc ▸ pop_holds hpop)
    · exact ih hk' (fun hmem => (htlb hmem).2) hc
    · exact go_not_occurs htaken hk' (fun hmem => target_of_leaves (htlb hmem).1) hc
  | brTable hpop hclauses hlast =>
    obtain ⟨-, htlb', hframes⟩ := pop_same hpop
    rw [← htlb'] at htlb
    simp only [paths, ← hframes] at htlb
    have hk' := (pop_later hpop).hides hk
    intro hc
    rcases hc with hc | hc
    · exact hk.2 (List.mem_singleton.mp hc ▸ pop_holds hpop)
    · rcases occurs_foldr.mp hc with ⟨a, ha, hc⟩ | hc
      · obtain ⟨l, hl, ha⟩ := mem_of_mapM hclauses ha
        refine go_not_occurs ha hk' (fun hmem => target_of_leaves ?_) hc
        exact (table_leaves (htlb hmem)).2 l hl
      · refine go_not_occurs hlast hk' (fun hmem => target_of_leaves ?_) hc
        exact (table_leaves (htlb hmem)).1
  | return_ h => exact go_not_occurs h hk fun _ => rfl
  | unreachable =>
    intro hc
    rcases List.mem_cons.mp hc with hc | hc
    · exact hk.2 (.inr (.inr (.inr (.inl hc))))
    · simpa [paths] using htlb hc
  | load hpop hform hbody ih =>
    have hk' := (pop_later hpop).hides hk
    have hlater := loaded_later (load_cache hform)
    rw [← (pop_same hpop).2.1] at htlb
    -- an access uses the cache
    have hout : Opd.num k ∉ _ := fun hmem => by simpa [paths] using htlb hmem
    intro hc
    rcases occurs_join.mp hc with hc | hc
    · rcases cached_occurs hc with hc | hc | hc | hc
      · exact hk'.2 (.inr (.inr (.inr (.inl hc))))
      · exact hk.2 (hc ▸ pop_holds hpop)
      · cases hc
      · exact hout hc
    · exact ih (hlater.hides hk') (fun hmem => (hlater.not_mem_tlb hk' hout hmem).elim) hc
  | store hval hbase hbody ih =>
    have hk₁ := (pop_later hval).hides hk
    have hk' := (pop_later hbase).hides hk₁
    rw [← (pop_same hval).2.1, ← (pop_same hbase).2.1] at htlb
    have hout : Opd.num k ∉ _ := fun hmem => by simpa [paths] using htlb hmem
    intro hc
    rcases occurs_join.mp hc with hc | hc
    · rcases cached_occurs hc with hc | hc | hc | hc
      · exact hk'.2 (.inr (.inr (.inr (.inl hc))))
      · exact hk₁.2 (hc ▸ pop_holds hbase)
      · exact hk.2 (List.mem_singleton.mp hc ▸ pop_holds hval)
      · exact hout hc
    · exact ih (stored_later.hides hk')
        (fun hmem => (stored_later.not_mem_tlb hk' hout hmem).elim) hc
  | straight hi hrest ih =>
    have hs := straight_spec hi
    rw [straight_paths hi, ← hs.frames, ← hs.tlb] at htlb
    intro hc
    rcases Pre.occurs_wrap hc with ⟨e, he, hc⟩ | hc
    · exact hk.2 (hs.occurs e he k hc)
    · exact ih (hs.later.hides hk) htlb hc

theorem pop_disjoint (hpop : g₀.pop = some (v, g)) (hg : g₀.Apart) :
    g₀.tlb.toList.Disjoint [v] := by
  intro w hw hv
  obtain ⟨k, rfl, hk⟩ := hg w hw
  exact hk.2 (List.mem_singleton.mp hv ▸ pop_holds hpop)

/-- The code behind a continuation has a cache of its own. -/
theorem Emits.cont_not_occurs {nres npar : ℕ}
    (h : Emits m rest ((frame nres g).cont (g.stack.drop npar)) exit c) (hg : g.Apart) :
    ∀ v ∈ g.tlb.toList, ¬ Occurs v c := by
  intro v hv
  obtain ⟨k, rfl, hk⟩ := hg v hv
  exact h.not_occurs (cont_later.hides hk) fun hmem => (cont_tlb hk hmem).elim

/-- Every path references all of the cache, or nothing of it. -/
theorem Emits.whole (h : Emits m is g exit c) (hg : g.Apart) : Whole g.tlb.toList c := by
  induction h with
  | leave h => exact go_whole h hg
  | block hcont hbody _ ihbody =>
    exact ⟨hcont.cont_not_occurs hg, ihbody (body_later.apart rfl hg)⟩
  | loop hcont hbody hcs _ _ =>
    refine ⟨hcont.cont_not_occurs hg, fun v hv => ?_, fun v hv => ?_⟩
    · obtain ⟨k, rfl, hk⟩ := hg v hv
      exact hbody.not_occurs (loop_later.hides hk) fun hmem => (loop_tlb hk hmem).elim
    · exact List.mem_append_left _ ((carried_spec hcs).2.1 hv)
  | if_ hpop hcont _ _ _ iha ihb =>
    have hdisjoint := pop_disjoint hpop hg
    have hg' := (pop_later hpop).apart (pop_same hpop).2.1 hg
    rw [← (pop_same hpop).2.1] at hdisjoint ⊢
    exact ⟨hcont.cont_not_occurs hg', hdisjoint, iha (body_later.apart rfl hg'),
      ihb (body_later.apart rfl hg')⟩
  | br h => exact go_whole h hg
  | brIf hpop htaken _ ih =>
    have hdisjoint := pop_disjoint hpop hg
    have hg' := (pop_later hpop).apart (pop_same hpop).2.1 hg
    rw [← (pop_same hpop).2.1] at hdisjoint ⊢
    exact ⟨hdisjoint, ih hg', go_whole htaken hg'⟩
  | brTable hpop hclauses hlast =>
    have hdisjoint := pop_disjoint hpop hg
    have hg' := (pop_later hpop).apart (pop_same hpop).2.1 hg
    rw [← (pop_same hpop).2.1] at hdisjoint ⊢
    refine ⟨hdisjoint, whole_foldr.mpr ⟨fun a ha => ?_, go_whole hlast hg'⟩⟩
    obtain ⟨l, -, hl⟩ := mem_of_mapM hclauses ha
    exact go_whole hl hg'
  | return_ h => exact go_whole h hg
  | unreachable => exact .inl (List.subset_cons_self _ _)
  | load hpop hform hbody ih =>
    rw [← (pop_same hpop).2.1]
    exact whole_join fun v hv => cached_uses hv
  | store hval hbase hbody ih =>
    rw [← (pop_same hval).2.1, ← (pop_same hbase).2.1]
    exact whole_join fun v hv => cached_uses hv
  | straight hi hrest ih =>
    have hs := straight_spec hi
    have hw := ih (hs.later.apart hs.tlb hg)
    rw [hs.tlb] at hw
    refine Pre.whole_wrap (fun v hv e he hc => ?_) hw
    obtain ⟨k, rfl, hk⟩ := hg v hv
    exact hk.2 (hs.occurs e he k hc)

/-! ## The order of what is bound -/

theorem cacheUse_must {d : ℕ} (h : cacheUse is exit d = .must) :
    (paths (exit = .return_) d is).2 = false := by
  rw [cacheUse] at h
  split at h
  · rename_i hpaths
    rw [hpaths]
  · cases h
  · cases h

theorem cacheUse_none {d : ℕ} (h : cacheUse is exit d = .none_) :
    (paths (exit = .return_) d is).1 = false := by
  rw [cacheUse] at h
  split at h
  · cases h
  · rename_i hpaths
    rw [hpaths]
  · cases h

/-- A result, and behind it a cache that every path references. -/
theorem first_ordered {access : Expr} (huses : ∀ w ∈ t.toList, Uses w body)
    (haccess : Ordered access) (hbody : Ordered body) :
    Ordered (join .first access [v] t body) := by
  refine ⟨fun rs hrs => ?_, haccess, hbody⟩
  have hcache : ∀ w ∈ order .first [] t, w ∈ rs := fun w hw =>
    hrs.uses (huses w ((mem_order.mp hw).resolve_left nofun))
  exact List.pairwise_cons.mpr ⟨fun w hw _ => hcache w hw,
    List.pairwise_of_forall_mem_list fun _ _ w hw _ => hcache w hw⟩

/-- A cache of which a path references nothing, or all and what is behind it. -/
theorem last_ordered {access : Expr}
    (hpath : ∀ rs, Path [] body rs → t.toList.Disjoint rs ∨ t.toList ⊆ rs ∧ v ∈ rs)
    (haccess : Ordered access) (hbody : Ordered body) :
    Ordered (join .last access [v] t body) := by
  refine ⟨fun rs hrs => ?_, haccess, hbody⟩
  have hcache : ∀ w ∈ order .last [] t, w ∈ t.toList := fun w hw =>
    (mem_order.mp hw).resolve_left nofun
  rcases hpath rs hrs with hnone | ⟨hall, hv⟩
  · refine List.pairwise_append.mpr ⟨List.pairwise_of_forall_mem_list fun a ha b _ hrs => ?_,
      List.pairwise_singleton _ _, fun a ha b _ hrs => ?_⟩
    · exact (hnone (hcache a ha) hrs).elim
    · exact (hnone (hcache a ha) hrs).elim
  · refine List.pairwise_append.mpr ⟨List.pairwise_of_forall_mem_list fun a _ b hb _ => ?_,
      List.pairwise_singleton _ _, fun a _ b hb _ => ?_⟩
    · exact hall (hcache b hb)
    · exact List.mem_singleton.mp hb ▸ hv

/-- The variables that an access answers are not held by what there was. -/
theorem Gen.Bounded.not_holds (hg : g.Bounded) (hk : .num k ∈ (Cache.fresh g.n).toList) :
    ¬ g.Holds (.num k) ∧ .num k ∉ g.tlb.toList := by
  have hle := (mem_fresh.mp hk).1
  refine ⟨fun h => ?_, fun h => ?_⟩
  · have := hg k (.inl h)
    omega
  · have := hg k (.inr h)
    omega

theorem eq_num_of_mem_fresh {n : ℕ} (hv : v ∈ (Cache.fresh n).toList) : ∃ k, v = .num k := by
  simp only [Cache.fresh, Cache.toList, List.mem_cons, List.not_mem_nil, or_false] at hv
  grind

theorem stored_apart (hg : g.Bounded) : g.stored.Apart := by
  intro v hv
  obtain ⟨k, rfl⟩ := eq_num_of_mem_fresh hv
  have hmem := mem_fresh.mp hv
  refine ⟨k, rfl, by simp only [Gen.stored, Gen.skip]; omega, fun hk => ?_⟩
  have hnot := (hg.not_holds hv).1
  simp only [Gen.Holds, Gen.stored, Gen.skip, Opd.num.injEq] at hk hnot
  grind

theorem loaded_hides {next : Cache} (hg : g.Bounded) (hk : .num k ∈ (Cache.fresh g.n).toList) :
    (g.loaded next).Hides k := by
  have hmem := mem_fresh.mp hk
  refine ⟨by simp only [Gen.loaded, Gen.skip, Gen.push]; omega, fun hk' => ?_⟩
  have hnot := (hg.not_holds hk).1
  simp only [Gen.Holds, Gen.loaded, Gen.skip, Gen.push, List.mem_cons, Opd.num.injEq] at hk' hnot
  grind

/-- In every list that is bound, a value is referenced whenever one before it is. -/
theorem Emits.ordered (h : Emits m is g exit c) (hg : g.Bounded) : Ordered c := by
  induction h with
  | leave h => exact go_ordered h
  | block _ _ ihcont ihbody =>
    exact ⟨ihcont (cont_later.bounded hg), ihbody (body_later.bounded hg)⟩
  | loop _ _ _ ihcont ihbody =>
    exact ⟨ihcont (cont_later.bounded hg), ihbody (loop_later.bounded hg), trivial⟩
  | if_ hpop _ _ _ ihcont iha ihb =>
    have hg' := (pop_later hpop).bounded hg
    exact ⟨ihcont (cont_later.bounded hg'), iha (body_later.bounded hg'),
      ihb (body_later.bounded hg')⟩
  | br h => exact go_ordered h
  | brIf hpop htaken _ ih => exact ⟨ih ((pop_later hpop).bounded hg), go_ordered htaken⟩
  | brTable hpop hclauses hlast =>
    refine ordered_foldr.mpr ⟨fun a ha => ?_, go_ordered hlast⟩
    obtain ⟨l, -, hl⟩ := mem_of_mapM hclauses ha
    exact go_ordered hl
  | return_ h => exact go_ordered h
  | unreachable => trivial
  | load hpop hform hbody ih =>
    have hg' := (pop_later hpop).bounded hg
    have hordered := ih ((loaded_later (load_cache hform)).bounded hg')
    cases huse : cacheUse _ _ _ with
    | must =>
      rw [huse] at hform
      cases hform
      exact first_ordered (fun w => hbody.uses_tlb (cacheUse_must huse)) cached_ordered hordered
    | none_ =>
      rw [huse] at hform
      cases hform
      refine last_ordered (fun rs hrs => .inl ?_) cached_ordered hordered
      refine hrs.disjoint (fun w hw => ?_) nofun
      obtain ⟨k, rfl⟩ := eq_num_of_mem_fresh hw
      exact hbody.not_occurs (loaded_hides hg' hw) fun hmem => ((hg'.not_holds hw).2 hmem).elim
    | mixed =>
      rw [huse] at hform
      cases hform
      exact ⟨cached_ordered, hordered⟩
  | store hval hbase hbody ih =>
    have hg' := (pop_later hbase).bounded ((pop_later hval).bounded hg)
    refine last_ordered (fun rs hrs => ?_) cached_ordered (ih (stored_later.bounded hg'))
    rcases hrs.whole (hbody.whole (stored_apart hg')) nofun with hall | hnone
    · exact .inr ⟨hall, hrs.uses hbody.uses_mut⟩
    · exact .inl hnone
  | straight hi _ ih =>
    have hs := straight_spec hi
    exact Pre.ordered_wrap hs.ordered (ih (hs.later.bounded hg))

/-! ## The functions of a module -/

theorem start_bounded {nparams nlocals nres : ℕ} : (start nparams nlocals nres).Bounded := by
  intro k hk
  rcases hk with (⟨i, hi⟩ | hk | hk | hk | hk) | hk
  · simp only [start] at hi ⊢
    split at hi
    · cases hi
      omega
    · split at hi <;> cases hi
  · cases hk
  all_goals
    simp [start, Cache.toList] at hk ⊢
    try omega

/-- The calls that `seq/3` makes of itself. -/
inductive Calls (m : Module) : List Instr → Gen → Exit → List Instr → Gen → Exit → Prop
  | blockRest {npar nres : ℕ} {body rest : List Instr} {g : Gen} {exit : Exit} :
      Calls m (.block npar nres body :: rest) g exit
        rest ((frame nres g).cont (g.stack.drop npar)) exit
  | blockBody {npar nres : ℕ} {body rest : List Instr} {g : Gen} {exit : Exit} :
      Calls m (.block npar nres body :: rest) g exit
        body ((frame nres g).body npar nres g) (.cont (frame nres g).name nres)
  | loopRest {npar nres : ℕ} {body rest : List Instr} {g : Gen} {exit : Exit} :
      Calls m (.loop npar nres body :: rest) g exit
        rest ((frame nres g).cont (g.stack.drop npar)) exit
  | loopBody {npar nres : ℕ} {body rest : List Instr} {g : Gen} {exit : Exit} :
      Calls m (.loop npar nres body :: rest) g exit
        body (((frame nres g).label npar g).loop npar g) (.cont (frame nres g).name nres)
  | ifRest {npar nres : ℕ} {then_ else_ rest : List Instr} {g₀ g : Gen} {exit : Exit} {v : Opd}
      (hpop : g₀.pop = some (v, g)) :
      Calls m (.if_ npar nres then_ else_ :: rest) g₀ exit
        rest ((frame nres g).cont (g.stack.drop npar)) exit
  | ifArm {npar nres : ℕ} {then_ else_ arm rest : List Instr} {g₀ g : Gen} {exit : Exit} {v : Opd}
      (hpop : g₀.pop = some (v, g)) (harm : arm = then_ ∨ arm = else_) :
      Calls m (.if_ npar nres then_ else_ :: rest) g₀ exit
        arm ((frame nres g).body npar nres g) (.cont (frame nres g).name nres)
  | brIf {n : ℕ} {rest : List Instr} {g₀ g : Gen} {exit : Exit} {v : Opd}
      (hpop : g₀.pop = some (v, g)) : Calls m (.brIf n :: rest) g₀ exit rest g exit
  | load {width offset : ℕ} {rest : List Instr} {g₀ g : Gen} {exit : Exit} {base : Opd}
      {form : Form} {next : Cache} (hpop : g₀.pop = some (base, g))
      (hform : (cacheUse rest exit g.frames.length).load g.tlb (.fresh g.n) = (form, next)) :
      Calls m (.access (.load width) offset 0 :: rest) g₀ exit rest (g.loaded next) exit
  | store {width offset : ℕ} {rest : List Instr} {g₀ g₁ g : Gen} {exit : Exit} {val base : Opd}
      (hval : g₀.pop = some (val, g₁)) (hbase : g₁.pop = some (base, g)) :
      Calls m (.access (.store width) offset 0 :: rest) g₀ exit rest g.stored exit
  | straight {i : Instr} {rest : List Instr} {g g₁ : Gen} {exit : Exit} {pre : Pre}
      (hi : straight m g i = some (pre, g₁)) : Calls m (i :: rest) g exit rest g₁ exit

/-- The calls that come about, one out of the other. -/
inductive Reaches (m : Module) (is : List Instr) (g : Gen) (exit : Exit) :
    List Instr → Gen → Exit → Prop
  | refl : Reaches m is g exit is g exit
  | step {is' is'' : List Instr} {g' g'' : Gen} {exit' exit'' : Exit}
      (h : Reaches m is g exit is' g' exit') (hcall : Calls m is' g' exit' is'' g'' exit'') :
      Reaches m is g exit is'' g'' exit''

theorem Calls.later {is' : List Instr} {exit' : Exit} (h : Calls m is g exit is' g' exit') :
    g.Later g' := by
  cases h with
  | blockRest => exact cont_later
  | blockBody => exact body_later
  | loopRest => exact cont_later
  | loopBody => exact loop_later
  | ifRest hpop => exact (pop_later hpop).trans cont_later
  | ifArm hpop _ => exact (pop_later hpop).trans body_later
  | brIf hpop => exact pop_later hpop
  | load hpop hform => exact (pop_later hpop).trans (loaded_later (load_cache hform))
  | store hval hbase => exact ((pop_later hval).trans (pop_later hbase)).trans stored_later
  | straight hi => exact (straight_spec hi).later

theorem Reaches.bounded {is' : List Instr} {exit' : Exit} (h : Reaches m is g exit is' g' exit')
    (hg : g.Bounded) : g'.Bounded := by
  induction h with
  | refl => exact hg
  | step _ hcall ih => exact hcall.later.bounded ih

/-- The code of a load binds the variables of its cache in front of the code of the rest, and what
`cacheUse` answers holds of them there. -/
theorem load_exact {width offset : ℕ} (hg : g.Bounded)
    (h : seq m (.access (.load width) offset 0 :: rest) g exit = some c) :
    ∃ form access r body, c = join form access [r] (.fresh g.n) body ∧
      (cacheUse rest exit g.frames.length = .must →
        ∀ scope rs, Path scope body rs → (Cache.fresh g.n).toList ⊆ rs) ∧
      (cacheUse rest exit g.frames.length = .none_ →
        ∀ rs, Path [] body rs → (Cache.fresh g.n).toList.Disjoint rs) := by
  rw [seq] at h
  simp only [Option.bind_eq_bind, Option.bind_eq_some_iff] at h
  obtain ⟨⟨base, g₁⟩, hpop, body, hbody, hc⟩ := h
  cases hc
  have hemits := emits_of_seq hbody
  have hg₁ := (pop_later hpop).bounded hg
  obtain ⟨s, -, rfl⟩ := pop_eq hpop
  refine ⟨_, _, _, body, rfl, fun huse scope rs hrs v hv => ?_, fun huse rs hrs => ?_⟩
  · simp only [huse] at hemits
    exact hrs.uses (hemits.uses_tlb (cacheUse_must huse) hv)
  · simp only [huse] at hemits
    refine hrs.disjoint (fun v hv => ?_) fun _ _ p hp => absurd hp List.not_mem_nil
    obtain ⟨k, rfl⟩ := eq_num_of_mem_fresh hv
    exact hemits.not_occurs (loaded_hides hg₁ hv) fun hmem => ((hg₁.not_holds hv).2 hmem).elim

end ErlangWasm.Compile.Core
