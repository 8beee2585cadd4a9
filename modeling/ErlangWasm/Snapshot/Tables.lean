import ErlangWasm.Snapshot.Reading

/-!
# Tables read into words

The bytes `packed` looks for are the bytes of `null` and of `{funcref, self, F}` and of nothing
else, so a table it accepts is the list of the entries its words stand for.
-/

namespace ErlangWasm.Snapshot

open Reasoning.Bytes

variable {atoms : Bytes → Bool}

/-- The word of a table entry that has one. -/
def entryWord : Term → Option ℕ
  | .atom n => if n.utf8 = ascii "null" then some nullFuncWord else none
  | .tuple [.atom kind, .atom self, .int f] =>
      if kind.utf8 = ascii "funcref" ∧ self.utf8 = ascii "self" ∧ 0 ≤ f ∧ f < nullFuncWord then
        some f.toNat
      else none
  | _ => none

/-- A table whose entries all have words, as one 32-bit big-endian word an entry. -/
def packedTable : Term → Option Bytes
  | .list entries => (entries.mapM entryWord).map fun words => words.flatMap (be 4)
  | _ => none

/-- `v` is the table `t`, or its words. -/
def Packs (t v : Term) : Prop :=
  v = t ∨ ∃ words, packedTable t = some words ∧ v = .binary words

/-- The tables section `v` is the one of `t`, some of whose tables may be packed. -/
def PacksAll (t v : Term) : Prop :=
  v = t ∨ ∃ ts vs, t = .list ts ∧ v = .list vs ∧ List.Forall₂ Packs ts vs

/-! ## Which value begins with which bytes -/

theorem be_append_inj {n v w : ℕ} {xs ys : Bytes} (hv : v < 256 ^ n) (hw : w < 256 ^ n)
    (h : be n v ++ xs = be n w ++ ys) : v = w ∧ xs = ys := by
  obtain ⟨hbe, hrest⟩ := List.append_inj h (by rw [length_be, length_be])
  have hof := congrArg ofBe hbe
  rw [ofBe_be, ofBe_be, Nat.mod_eq_of_lt hv, Nat.mod_eq_of_lt hw] at hof
  exact ⟨hof, hrest⟩

theorem atom_of_prefix (name : Bytes) {t : Term} {bs r r' : Bytes} (h : term t = some bs)
    (hname : name.length < 256 ^ 2)
    (hpre : bs ++ r = 3 :: (be 2 name.length ++ name) ++ r') :
    (∃ n, t = .atom n ∧ n.utf8 = name) ∧ r = r' := by
  cases t with
  | coll k items =>
    rw [term] at h
    obtain ⟨bs', -, rfl⟩ := Option.map_eq_some_iff.mp h
    simp only [List.cons_append, List.cons.injEq] at hpre
    cases k <;> exact absurd hpre.1 (by decide)
  | scalar s =>
    rw [term] at h
    cases s with
    | atom n =>
      simp only [Scalar.bytes, Option.some.injEq] at h
      subst h
      simp only [List.cons_append, List.cons.injEq, true_and, List.append_assoc] at hpre
      have hshort := n.short
      obtain ⟨hlen, hrest⟩ := be_append_inj (by omega) hname hpre
      obtain ⟨hutf8, hr⟩ := List.append_inj hrest hlen
      exact ⟨⟨n, rfl, hutf8⟩, hr⟩
    | int i | float f | binary b =>
      simp only [Scalar.bytes, Option.some.injEq] at h
      subst h
      simp at hpre
    | improper => cases h
    | other => cases h

theorem int_of_prefix {t : Term} {bs r r' : Bytes} (h : term t = some bs)
    (hpre : bs ++ r = 0 :: r') : ∃ i, t = .int i ∧ r' = be 8 (zigzag i) ++ r := by
  cases t with
  | coll k items =>
    rw [term] at h
    obtain ⟨bs', -, rfl⟩ := Option.map_eq_some_iff.mp h
    simp only [List.cons_append, List.cons.injEq] at hpre
    cases k <;> exact absurd hpre.1 (by decide)
  | scalar s =>
    rw [term] at h
    cases s with
    | int i =>
      simp only [Scalar.bytes, Option.some.injEq] at h
      subst h
      rw [List.cons_append, List.cons.injEq] at hpre
      exact ⟨i, rfl, hpre.2.symm⟩
    | atom n | float f | binary b =>
      simp only [Scalar.bytes, Option.some.injEq] at h
      subst h
      simp at hpre
    | improper => cases h
    | other => cases h

theorem coll_of_prefix {t : Term} {bs r r' : Bytes} {k : Kind} (h : term t = some bs)
    (hpre : bs ++ r = k.tag :: r') :
    ∃ items bs', t = .coll k items ∧ terms items = some bs' ∧
      r' = be 4 (k.size items) ++ (bs' ++ r) ∧ bs.length = 5 + bs'.length := by
  cases t with
  | coll k' items =>
    rw [term] at h
    obtain ⟨bs', hitems, rfl⟩ := Option.map_eq_some_iff.mp h
    rw [List.cons_append, List.cons.injEq] at hpre
    have hk : k' = k := by
      cases k' <;> cases k <;> first | rfl | exact absurd hpre.1 (by decide)
    subst hk
    refine ⟨items, bs', rfl, hitems, ?_, ?_⟩
    · rw [← hpre.2, List.append_assoc]
    · rw [List.length_cons, List.length_append, length_be]
      omega
  | scalar s =>
    rw [term] at h
    have htag : ∀ tag : UInt8, tag = 0 ∨ tag = 1 ∨ tag = 2 ∨ tag = 3 → tag ≠ k.tag := by
      rintro tag (rfl | rfl | rfl | rfl) <;> cases k <;> decide
    cases s with
    | int i =>
      simp only [Scalar.bytes, Option.some.injEq] at h
      subst h
      exact absurd (List.cons.inj hpre).1 (htag 0 (by simp))
    | float f =>
      simp only [Scalar.bytes, Option.some.injEq] at h
      subst h
      exact absurd (List.cons.inj hpre).1 (htag 1 (by simp))
    | binary b =>
      simp only [Scalar.bytes, Option.some.injEq] at h
      subst h
      exact absurd (List.cons.inj hpre).1 (htag 2 (by simp))
    | atom n =>
      simp only [Scalar.bytes, Option.some.injEq] at h
      subst h
      exact absurd (List.cons.inj hpre).1 (htag 3 (by simp))
    | improper => cases h
    | other => cases h

theorem zigzag_even {i : ℤ} (h : zigzag i % 2 = 0) : 0 ≤ i ∧ zigzag i / 2 = i.toNat := by
  unfold zigzag at h ⊢
  split at h <;> split <;> omega

/-- Past the bytes of `{funcref, self, F}` stands the field of `F`. -/
theorem funcref_of_prefix {t : Term} {bs r r' : Bytes} (h : term t = some bs)
    (hlen : bs.length < 2 ^ 32) (hpre : bs ++ r = funcrefEntry ++ r') :
    ∃ kind self i, t = .tuple [.atom kind, .atom self, .int i] ∧ kind.utf8 = ascii "funcref" ∧
      self.utf8 = ascii "self" ∧ r' = be 8 (zigzag i) ++ r := by
  have hpre' : bs ++ r = Kind.tuple.tag :: (be 4 3 ++ (3 :: (be 2 7 ++ ascii "funcref") ++
      (3 :: (be 2 4 ++ ascii "self") ++ 0 :: r'))) := by
    rw [hpre, funcrefEntry]
    simp [Kind.tag]
  obtain ⟨items, bs', rfl, hitems, hrest, hlen'⟩ := coll_of_prefix h hpre'
  have hsize := terms_length hitems
  obtain ⟨hcount, hfields⟩ := be_append_inj (by omega)
    (by show items.length < _; omega) hrest
  have hthree : items.length = 3 := hcount.symm
  match items, hthree with
  | [a, b, c], _ =>
    obtain ⟨ba, bbc, ha, hbc, rfl⟩ := terms_cons hitems
    obtain ⟨bb, bcn, hb, hcn, rfl⟩ := terms_cons hbc
    obtain ⟨bc, bn, hc, hn, rfl⟩ := terms_cons hcn
    rw [terms, Option.some.injEq] at hn
    subst hn
    rw [List.append_assoc, List.append_assoc] at hfields
    obtain ⟨⟨kind, rfl, hkind⟩, hafter⟩ := atom_of_prefix (ascii "funcref") ha (by decide) hfields.symm
    obtain ⟨⟨self, rfl, hself⟩, hafter'⟩ := atom_of_prefix (ascii "self") hb (by decide) hafter
    rw [List.append_nil] at hafter'
    obtain ⟨i, rfl, hr⟩ := int_of_prefix hc hafter'
    exact ⟨kind, self, i, rfl, hkind, hself, hr⟩

/-! ## Packing -/

/-- What `packed` accepts is a list of entries that have words, and it spends what they cost. -/
theorem packed_terms {items : List Term} {bs r acc acc' r' : Bytes} {budget budget' : ℕ}
    (h : terms items = some bs) (hlen : bs.length < 2 ^ 32) (hrange : InRangeAll items)
    (hp : packed items.length (bs ++ r) acc budget = some (acc', r', budget')) :
    ∃ words, items.mapM entryWord = some words ∧ acc' = acc ++ words.flatMap (be 4) ∧ r' = r ∧
      budget' = budget - nodesAll items ∧ depthAll items ≤ 2 := by
  induction items generalizing bs acc budget with
  | nil =>
    rw [terms, Option.some.injEq] at h
    subst h
    rw [List.length_nil, packed, Option.some.injEq, Prod.mk.injEq, Prod.mk.injEq] at hp
    obtain ⟨rfl, rfl, rfl⟩ := hp
    exact ⟨[], rfl, by simp, rfl, by rw [nodesAll]; rfl, by rw [depthAll]; omega⟩
  | cons t ts ih =>
    obtain ⟨bt, bts, ht, hts, rfl⟩ := terms_cons h
    rw [List.length_append] at hlen
    rw [InRangeAll] at hrange
    rw [List.length_cons, packed] at hp
    split at hp
    · cases hp
    · rw [List.append_assoc] at hp
      split at hp
      · rename_i r₁ hstrip
        obtain ⟨⟨n, rfl, hn⟩, hr⟩ := atom_of_prefix (ascii "null") ht (by decide)
          (strip?_eq_some.mp hstrip)
        rw [← hr] at hp
        obtain ⟨words, hwords, rfl, hr', hbudget, hdepth⟩ := ih hts (by omega) hrange.2 hp
        refine ⟨nullFuncWord :: words, ?_, ?_, hr', ?_, ?_⟩
        · have hword : entryWord (.atom n) = some nullFuncWord := if_pos hn
          rw [List.mapM_cons, hword, hwords]
          rfl
        · rw [List.flatMap_cons, List.append_assoc]
        · rw [nodesAll, Term.nodes, hbudget]
          omega
        · rw [depthAll, Term.depth]
          omega
      · split at hp
        · rename_i u r₁ hread
          split at hp
          · rename_i hu
            obtain ⟨r₂, hstrip, hfield⟩ := Option.bind_eq_some_iff.mp hread
            obtain ⟨kind, self, i, rfl, hkind, hself, hr₂⟩ :=
              funcref_of_prefix ht (by omega) (strip?_eq_some.mp hstrip)
            have hi : -2 ^ 63 ≤ i ∧ i < 2 ^ 63 := by
              have hr := hrange.1
              simp only [Term.InRange, InRangeAll] at hr
              exact hr.2.2.1
            rw [hr₂, readBe_be, Nat.mod_eq_of_lt (zigzag_lt hi.1 hi.2), Option.some.injEq,
              Prod.mk.injEq] at hfield
            obtain ⟨rfl, rfl⟩ := hfield
            obtain ⟨hnonneg, hhalf⟩ := zigzag_even hu.1
            obtain ⟨words, hwords, rfl, hr', hbudget, hdepth⟩ := ih hts (by omega) hrange.2 hp
            refine ⟨i.toNat :: words, ?_, ?_, hr', ?_, ?_⟩
            · have hword : entryWord (.tuple [.atom kind, .atom self, .int i]) =
                  some i.toNat := by
                refine if_pos ⟨hkind, hself, hnonneg, ?_⟩
                rw [hhalf] at hu
                omega
              rw [List.mapM_cons, hword, hwords]
              rfl
            · rw [List.flatMap_cons, List.append_assoc, hhalf]
            · simp only [nodesAll, Term.nodes, hbudget]
              omega
            · simp only [depthAll, Term.depth]
              omega
          · cases hp
        · cases hp

/-- A table is read as what it is or as its words, or refused for the depth or the budget. -/
theorem untable_term {t : Term} {bs : Bytes} (h : term t = some bs) (hlen : bs.length < 2 ^ 32)
    (hsound : t.Sound) (hrange : t.InRange) (hatoms : t.AtomsIn atoms) (depth budget : ℕ)
    (r : Bytes) :
    (∃ v, untable atoms depth (bs ++ r) budget = .ok (v, r, budget - t.nodes) ∧ Packs t v ∧
      t.depth ≤ depth) ∨
    ((∃ e, untable atoms depth (bs ++ r) budget = .error e) ∧
      ¬ (t.depth ≤ depth ∧ t.nodes < budget)) := by
  have hplain : (∃ v, unterm atoms depth (bs ++ r) budget = .ok (v, r, budget - t.nodes) ∧
      Packs t v ∧ t.depth ≤ depth) ∨
      ((∃ e, unterm atoms depth (bs ++ r) budget = .error e) ∧
        ¬ (t.depth ≤ depth ∧ t.nodes < budget)) := by
    obtain ⟨haccepts, hrefuses⟩ := unterm_term t bs h hlen hsound hatoms depth budget r
    by_cases hp : t.depth ≤ depth ∧ t.need ≤ budget
    · left
      rw [reread_eq_self t hsound hrange] at haccepts
      exact ⟨t, haccepts hp, .inl rfl, hp.1⟩
    · right
      have hneed := t.need_le
      exact ⟨hrefuses hp, by omega⟩
  unfold untable
  split
  · rename_i n r₁ hhead
    split
    · rename_i hdepth
      split
      · rename_i words r₂ budget' hpacked
        -- the table is a list, and `packed` has been through its entries
        obtain ⟨r₀, hstrip, hlength⟩ := Option.bind_eq_some_iff.mp hhead
        obtain ⟨items, bs', rfl, hitems, hr₀, hlen'⟩ :=
          coll_of_prefix (k := .list) h (strip?_eq_some.mp hstrip)
        have hsize : items.length < 256 ^ 4 := by
          have hle := terms_length hitems
          omega
        rw [show r₀ = _ from hr₀, readBe_be, Option.some.injEq, Prod.mk.injEq] at hlength
        obtain ⟨rfl, rfl⟩ := hlength
        rw [show Kind.list.size items = items.length from rfl, Nat.mod_eq_of_lt hsize] at hpacked
        rw [Term.InRange] at hrange
        obtain ⟨ws, hws, rfl, rfl, rfl, hle⟩ :=
          packed_terms hitems (by omega) hrange hpacked
        left
        refine ⟨_, ?_, .inr ⟨ws.flatMap (be 4), ?_, rfl⟩, ?_⟩
        · rw [List.nil_append, Term.nodes]
          congr 3
          omega
        · rw [packedTable, hws]
          rfl
        · rw [Term.depth]
          omega
      · exact hplain
    · exact hplain
  · exact hplain

theorem collect_tables {ts : List Term} {bs : Bytes} (h : terms ts = some bs)
    (hlen : bs.length < 2 ^ 32) (hsound : SoundAll ts) (hrange : InRangeAll ts)
    (hatoms : AtomsInAll atoms ts) (depth budget : ℕ) (r : Bytes) :
    (depthAll ts ≤ depth ∧ nodesAll ts < budget → ∃ vs,
      collect (untable atoms depth) ts.length (bs ++ r) budget =
        .ok (vs, r, budget - nodesAll ts) ∧ List.Forall₂ Packs ts vs) ∧
    (¬ (depthAll ts ≤ depth ∧ nodesAll ts < budget) → ∃ e,
      collect (untable atoms depth) ts.length (bs ++ r) budget = .error e) := by
  induction ts generalizing bs budget with
  | nil =>
    rw [terms, Option.some.injEq] at h
    subst h
    rw [List.length_nil, collect, depthAll, nodesAll]
    constructor
    · intro hp
      rw [if_neg (by omega)]
      exact ⟨[], rfl, .nil⟩
    · intro hp
      rw [if_pos (by omega)]
      exact ⟨_, rfl⟩
  | cons t ts ih =>
    obtain ⟨bt, bts, ht, hts, rfl⟩ := terms_cons h
    rw [List.length_append] at hlen
    rw [SoundAll] at hsound
    rw [InRangeAll] at hrange
    rw [AtomsInAll] at hatoms
    obtain ⟨hrest, hfail⟩ := ih hts (by omega) hsound.2 hrange.2 hatoms.2 (budget - t.nodes)
    rw [List.length_cons, collect, depthAll, nodesAll, List.append_assoc]
    rcases untable_term ht (by omega) hsound.1 hrange.1 hatoms.1 depth budget (bts ++ r) with
      ⟨v, hv, hpacks, hdepth⟩ | ⟨⟨e, he⟩, hno⟩
    · constructor
      · intro hp
        obtain ⟨vs, hvs, hall⟩ := hrest ⟨by omega, by omega⟩
        rw [if_neg (by omega)]
        refine ⟨v :: vs, ?_, .cons hpacks hall⟩
        simp only [hv, hvs, Except.ok.injEq, Prod.mk.injEq, true_and]
        omega
      · intro hp
        by_cases hzero : budget = 0
        · rw [if_pos hzero]
          exact ⟨_, rfl⟩
        · obtain ⟨e, he⟩ := hfail (by omega)
          rw [if_neg hzero]
          simp only [hv, he]
          exact ⟨e, rfl⟩
    · constructor
      · intro hp
        exact absurd ⟨by omega, by omega⟩ hno
      · intro _
        by_cases hzero : budget = 0
        · rw [if_pos hzero]
          exact ⟨_, rfl⟩
        · rw [if_neg hzero]
          simp only [he]
          exact ⟨e, rfl⟩

theorem untables_term {t : Term} {bs : Bytes} (h : term t = some bs) (hlen : bs.length < 2 ^ 32)
    (hsound : t.Sound) (hrange : t.InRange) (hatoms : t.AtomsIn atoms) (depth budget : ℕ)
    (r : Bytes) :
    (t.depth ≤ depth ∧ t.need ≤ budget → ∃ v,
      untables atoms depth (bs ++ r) budget = .ok (v, r, budget - t.nodes) ∧ PacksAll t v) ∧
    (¬ (t.depth ≤ depth ∧ t.need ≤ budget) → ∃ e,
      untables atoms depth (bs ++ r) budget = .error e) := by
  have hplain : (t.depth ≤ depth ∧ t.need ≤ budget → ∃ v,
        unterm atoms depth (bs ++ r) budget = .ok (v, r, budget - t.nodes) ∧ PacksAll t v) ∧
      (¬ (t.depth ≤ depth ∧ t.need ≤ budget) → ∃ e,
        unterm atoms depth (bs ++ r) budget = .error e) := by
    obtain ⟨haccepts, hrefuses⟩ := unterm_term t bs h hlen hsound hatoms depth budget r
    rw [reread_eq_self t hsound hrange] at haccepts
    exact ⟨fun hp => ⟨t, haccepts hp, .inl rfl⟩, hrefuses⟩
  unfold untables
  split
  · rename_i n r₁ hhead
    split
    · rename_i hroom
      obtain ⟨r₀, hstrip, hlength⟩ := Option.bind_eq_some_iff.mp hhead
      obtain ⟨items, bs', rfl, hitems, hr₀, hlen'⟩ :=
        coll_of_prefix (k := .list) h (strip?_eq_some.mp hstrip)
      have hsize : items.length < 256 ^ 4 := by
        have hle := terms_length hitems
        omega
      rw [show r₀ = _ from hr₀, readBe_be, Option.some.injEq, Prod.mk.injEq] at hlength
      obtain ⟨rfl, rfl⟩ := hlength
      rw [show Kind.list.size items = items.length from rfl, Nat.mod_eq_of_lt hsize]
      rw [Term.Sound] at hsound
      rw [Term.InRange] at hrange
      rw [Term.AtomsIn] at hatoms
      obtain ⟨haccepts, hrefuses⟩ := collect_tables hitems (by omega) hsound.2 hrange hatoms
        (depth - 1) (budget - 1) r
      rw [Term.depth, Term.need, Term.nodes]
      constructor
      · intro hp
        obtain ⟨vs, hvs, hall⟩ := haccepts ⟨by omega, by omega⟩
        refine ⟨.list vs, ?_, .inr ⟨items, vs, rfl, rfl, hall⟩⟩
        simp only [hvs, Except.ok.injEq, Prod.mk.injEq, true_and]
        omega
      · intro hp
        obtain ⟨e, he⟩ := hrefuses (by omega)
        simp only [he]
        exact ⟨e, rfl⟩
    · exact hplain
  · exact hplain

end ErlangWasm.Snapshot
