import ErlangWasm.Snapshot.Term
import Mathlib.Data.List.Nodup

/-!
# Reading back what was written

`unterm` on the bytes of a value answers that value, spending its nodes, exactly when both ceilings
leave room for it: the nesting for its depth, and the budget for its nodes and, for a collection,
one more, since a collection is refused when it ends with nothing left.
-/

namespace ErlangWasm.Snapshot

open Reasoning.Bytes

variable {atoms : Bytes → Bool}

/-! ## Measures of a value -/

mutual

/-- How many nodes a value is decoded to. -/
def Term.nodes : Term → ℕ
  | .scalar _ => 1
  | .coll _ items => 1 + nodesAll items

def nodesAll : List Term → ℕ
  | [] => 0
  | t :: ts => t.nodes + nodesAll ts

end

mutual

def Term.depth : Term → ℕ
  | .scalar _ => 1
  | .coll _ items => 1 + depthAll items

def depthAll : List Term → ℕ
  | [] => 0
  | t :: ts => max t.depth (depthAll ts)

end

/-- The budget a value is accepted with. -/
def Term.need : Term → ℕ
  | .scalar _ => 1
  | .coll k items => (Term.coll k items).nodes + 1

mutual

/-- A value the virtual machine can hold: the keys of a map are distinct. -/
def Term.Sound : Term → Prop
  | .scalar _ => True
  | .coll k items =>
      (k = .map → items.length % 2 = 0 ∧ (keys items).Nodup) ∧ SoundAll items

def SoundAll : List Term → Prop
  | [] => True
  | t :: ts => t.Sound ∧ SoundAll ts

end

mutual

/-- Every atom of the value exists. -/
def Term.AtomsIn (atoms : Bytes → Bool) : Term → Prop
  | .scalar (.atom n) => atoms n.utf8 = true
  | .scalar _ => True
  | .coll _ items => AtomsInAll atoms items

def AtomsInAll (atoms : Bytes → Bool) : List Term → Prop
  | [] => True
  | t :: ts => t.AtomsIn atoms ∧ AtomsInAll atoms ts

end

mutual

/-- Every integer of the value fits the 64-bit field. -/
def Term.InRange : Term → Prop
  | .scalar (.int i) => -2 ^ 63 ≤ i ∧ i < 2 ^ 63
  | .scalar _ => True
  | .coll _ items => InRangeAll items

def InRangeAll : List Term → Prop
  | [] => True
  | t :: ts => t.InRange ∧ InRangeAll ts

end

/-- An integer through the 64-bit field. -/
def Scalar.reread : Scalar → Scalar
  | .int i => .int (unzigzag (zigzag i % 256 ^ 8))
  | s => s

mutual

/-- The value a reader makes of the bytes of a value. -/
def Term.reread : Term → Term
  | .scalar s => .scalar s.reread
  | .coll k items => k.build (rereadAll items)

def rereadAll : List Term → List Term
  | [] => []
  | t :: ts => t.reread :: rereadAll ts

end

theorem Term.nodes_pos (t : Term) : 0 < t.nodes := by
  cases t with
  | scalar s => exact Nat.one_pos
  | coll k items =>
    rw [Term.nodes]
    omega

theorem Term.nodes_le_need (t : Term) : t.nodes ≤ t.need := by
  cases t with
  | scalar s => exact Nat.le_refl 1
  | coll k items =>
    rw [Term.need]
    omega

theorem Term.need_le (t : Term) : t.need ≤ t.nodes + 1 := by
  cases t with
  | scalar s => rw [Term.need, Term.nodes]; omega
  | coll k items => exact Nat.le_refl _

theorem length_rereadAll (ts : List Term) : (rereadAll ts).length = ts.length := by
  induction ts with
  | nil => rfl
  | cons t ts ih => rw [rereadAll, List.length_cons, List.length_cons, ih]

/-! ## The zigzag field -/

theorem unzigzag_zigzag (i : ℤ) : unzigzag (zigzag i) = i := by
  unfold unzigzag zigzag
  split <;> split <;> omega

theorem zigzag_lt {i : ℤ} (hlo : -2 ^ 63 ≤ i) (hhi : i < 2 ^ 63) : zigzag i < 256 ^ 8 := by
  unfold zigzag
  split <;> omega

/-! ## What writing gives -/

theorem pairs_eq_self (items : List Term) (heven : items.length % 2 = 0)
    (hnodup : (keys items).Nodup) : pairs items = items := by
  induction items using pairs.induct with
  | case1 k v rest hk =>
    -- the key would be there twice
    rw [keys, List.nodup_cons] at hnodup
    exact absurd hk hnodup.1
  | case2 k v rest hk ih =>
    rw [keys, List.nodup_cons] at hnodup
    have hrest : rest.length % 2 = 0 := by
      simp only [List.length_cons] at heven
      omega
    rw [pairs, if_neg hk, ih hrest hnodup.2]
  | case3 items hno =>
    match items with
    | [] => rfl
    | [t] => simp at heven
    | k :: v :: rest => exact absurd rfl (hno k v rest)

mutual

theorem reread_eq_self : ∀ t : Term, t.Sound → t.InRange → t.reread = t
  | .scalar (.int i), _, hi => by
      rw [Term.InRange] at hi
      rw [Term.reread, Scalar.reread, Nat.mod_eq_of_lt (zigzag_lt hi.1 hi.2), unzigzag_zigzag]
  | .scalar (.float _), _, _ => rfl
  | .scalar (.binary _), _, _ => rfl
  | .scalar (.atom _), _, _ => rfl
  | .scalar .improper, _, _ => rfl
  | .scalar .other, _, _ => rfl
  | .coll k items, hs, hr => by
      rw [Term.Sound] at hs
      rw [Term.InRange] at hr
      rw [Term.reread, rereadAll_eq_self items hs.2 hr]
      cases k with
      | list => rfl
      | tuple => rfl
      | map =>
        obtain ⟨heven, hnodup⟩ := hs.1 rfl
        rw [Kind.build, pairs_eq_self items heven hnodup]

theorem rereadAll_eq_self : ∀ ts : List Term, SoundAll ts → InRangeAll ts → rereadAll ts = ts
  | [], _, _ => rfl
  | t :: ts, hs, hr => by
      rw [SoundAll] at hs
      rw [InRangeAll] at hr
      rw [rereadAll, reread_eq_self t hs.1 hr.1, rereadAll_eq_self ts hs.2 hr.2]

end

theorem Scalar.bytes_length {s : Scalar} {bs : Bytes} (h : s.bytes = some bs) :
    1 ≤ bs.length := by
  cases s <;> simp only [Scalar.bytes, Option.some.injEq, reduceCtorEq] at h <;> subst h <;> simp

theorem term_length {t : Term} {bs : Bytes} (h : term t = some bs) : 1 ≤ bs.length := by
  cases t with
  | scalar s => exact Scalar.bytes_length h
  | coll k items =>
    rw [term] at h
    obtain ⟨bs', -, rfl⟩ := Option.map_eq_some_iff.mp h
    simp

theorem terms_cons {t : Term} {ts : List Term} {bs : Bytes} (h : terms (t :: ts) = some bs) :
    ∃ bt bts, term t = some bt ∧ terms ts = some bts ∧ bs = bt ++ bts := by
  rw [terms] at h
  obtain ⟨bt, ht, hrest⟩ := Option.bind_eq_some_iff.mp h
  obtain ⟨bts, hts, rfl⟩ := Option.map_eq_some_iff.mp hrest
  exact ⟨bt, bts, ht, hts, rfl⟩

theorem terms_length {ts : List Term} {bs : Bytes} (h : terms ts = some bs) :
    ts.length ≤ bs.length := by
  induction ts generalizing bs with
  | nil => exact Nat.zero_le _
  | cons t ts ih =>
    obtain ⟨bt, bts, ht, hts, rfl⟩ := terms_cons h
    have hone := term_length ht
    have hle := ih hts
    simp only [List.length_cons, List.length_append]
    omega

theorem Kind.size_le (k : Kind) (items : List Term) : k.size items ≤ items.length := by
  cases k with
  | list => exact Nat.le_refl _
  | tuple => exact Nat.le_refl _
  | map => exact Nat.div_le_self _ _

theorem Kind.reads_size {k : Kind} {items : List Term} (h : k = .map → items.length % 2 = 0) :
    k.reads (k.size items) = items.length := by
  cases k with
  | list => rfl
  | tuple => rfl
  | map =>
    have heven := h rfl
    show items.length / 2 * 2 = items.length
    omega

theorem Kind.ofTag_tag (k : Kind) : Kind.ofTag k.tag = some k := by
  cases k <;> rfl

/-! ## Reading -/

/-- The reader accepts under the condition `p`, and answers `v` then. -/
structure Reads {α : Type} (x : Reading α) (p : Prop) (v : α × Bytes × ℕ) : Prop where
  accepts : p → x = .ok v
  refuses : ¬ p → ∃ e, x = .error e

theorem Scalar.read_bytes {s : Scalar} {tag : UInt8} {bs : Bytes} (h : s.bytes = some (tag :: bs))
    (hlen : bs.length < 2 ^ 32) (hatoms : (Term.scalar s).AtomsIn atoms) (r : Bytes) :
    Kind.ofTag tag = none ∧ Scalar.read atoms tag (bs ++ r) = .ok (s.reread, r) := by
  cases s with
  | int i =>
    simp only [Scalar.bytes, Option.some.injEq, List.cons.injEq] at h
    obtain ⟨rfl, rfl⟩ := h
    refine ⟨rfl, ?_⟩
    rw [Scalar.read, if_pos rfl, readBe_be]
    rfl
  | float f =>
    simp only [Scalar.bytes, Option.some.injEq, List.cons.injEq] at h
    obtain ⟨rfl, rfl⟩ := h
    refine ⟨rfl, ?_⟩
    have hdouble : doubleOf f.bits = some f := by
      rw [doubleOf, dif_pos ⟨f.lt, f.finite⟩]
    rw [Scalar.read, if_neg (by decide), if_pos rfl, readBe_be, Nat.mod_eq_of_lt f.lt]
    simp only [hdouble]
    rfl
  | binary b =>
    simp only [Scalar.bytes, Option.some.injEq, List.cons.injEq] at h
    obtain ⟨rfl, rfl⟩ := h
    refine ⟨rfl, ?_⟩
    have hb : b.length < 256 ^ 4 := by
      rw [List.length_append, length_be] at hlen
      omega
    rw [Scalar.read, if_neg (by decide), if_neg (by decide), if_pos rfl, List.append_assoc,
      readBe_be, Nat.mod_eq_of_lt hb, Option.bind_some]
    dsimp only
    rw [splitAt?_append rfl r]
    rfl
  | atom n =>
    simp only [Scalar.bytes, Option.some.injEq, List.cons.injEq] at h
    obtain ⟨rfl, rfl⟩ := h
    refine ⟨rfl, ?_⟩
    have hshort := n.short
    have hname : existingAtom atoms n.utf8 = some n := by
      rw [existingAtom, dif_pos ⟨hshort, hatoms⟩]
    rw [Scalar.read, if_neg (by decide), if_neg (by decide), if_neg (by decide), if_pos rfl,
      List.append_assoc, readBe_be, Nat.mod_eq_of_lt (by omega), Option.bind_some]
    dsimp only
    rw [splitAt?_append rfl r]
    dsimp only
    rw [hname]
    rfl
  | improper => cases h
  | other => cases h

theorem unterm_scalar {s : Scalar} {bs : Bytes} (h : s.bytes = some bs)
    (hlen : bs.length < 2 ^ 32) (hatoms : (Term.scalar s).AtomsIn atoms) (depth budget : ℕ)
    (r : Bytes) : Reads (unterm atoms depth (bs ++ r) budget) (1 ≤ depth ∧ 1 ≤ budget)
      (.scalar s.reread, r, budget - 1) := by
  cases bs with
  | nil =>
    have hone := Scalar.bytes_length h
    simp at hone
  | cons tag bs =>
    have hlen' : bs.length < 2 ^ 32 := by
      rw [List.length_cons] at hlen
      omega
    obtain ⟨htag, hread⟩ := Scalar.read_bytes h hlen' hatoms r
    cases depth with
    | zero => exact ⟨fun hp => by omega, fun _ => ⟨_, rfl⟩⟩
    | succ depth =>
      rw [List.cons_append, unterm]
      constructor
      · intro hp
        rw [if_neg (by omega)]
        simp only [htag, hread]
      · intro hp
        rw [if_pos (by omega)]
        exact ⟨_, rfl⟩

mutual

theorem unterm_term : ∀ (t : Term) (bs : Bytes), term t = some bs → bs.length < 2 ^ 32 →
    t.Sound → t.AtomsIn atoms → ∀ (depth budget : ℕ) (r : Bytes),
    Reads (unterm atoms depth (bs ++ r) budget) (t.depth ≤ depth ∧ t.need ≤ budget)
      (t.reread, r, budget - t.nodes)
  | .scalar s, bs, h, hlen, _, hatoms, depth, budget, r => by
      rw [term] at h
      exact unterm_scalar h hlen hatoms depth budget r
  | .coll k items, bs, h, hlen, hsound, hatoms, depth, budget, r => by
      rw [term] at h
      obtain ⟨bs', hitems, rfl⟩ := Option.map_eq_some_iff.mp h
      rw [List.length_cons, List.length_append, length_be] at hlen
      rw [Term.Sound] at hsound
      rw [Term.AtomsIn] at hatoms
      have hsize : k.size items < 256 ^ 4 := by
        have h1 := k.size_le items
        have h2 := terms_length hitems
        omega
      have hreads : k.reads (k.size items) = items.length :=
        Kind.reads_size fun hk => (hsound.1 hk).1
      have hread : readBe 4 ((be 4 (k.size items) ++ bs') ++ r) =
          some (k.size items, bs' ++ r) := by
        rw [List.append_assoc, readBe_be, Nat.mod_eq_of_lt hsize]
      rw [Term.depth, Term.need, Term.nodes, Term.reread]
      cases depth with
      | zero => exact ⟨fun hp => by omega, fun _ => ⟨_, rfl⟩⟩
      | succ depth =>
        obtain ⟨haccepts, hrefuses⟩ := collect_terms items bs' hitems (by omega) hsound.2 hatoms
          depth (budget - 1) r
        rw [List.cons_append, unterm]
        simp only [Kind.ofTag_tag, hread, hreads]
        constructor
        · intro hp
          rw [if_neg (by omega), haccepts ⟨by omega, by omega⟩]
          simp only [Except.ok.injEq, Prod.mk.injEq, true_and]
          omega
        · intro hp
          by_cases hzero : budget = 0
          · rw [if_pos hzero]
            exact ⟨_, rfl⟩
          · obtain ⟨e, he⟩ := hrefuses (by omega)
            rw [if_neg hzero, he]
            exact ⟨e, rfl⟩

theorem collect_terms : ∀ (ts : List Term) (bs : Bytes), terms ts = some bs →
    bs.length < 2 ^ 32 → SoundAll ts → AtomsInAll atoms ts → ∀ (depth budget : ℕ) (r : Bytes),
    Reads (collect (unterm atoms depth) ts.length (bs ++ r) budget)
      (depthAll ts ≤ depth ∧ nodesAll ts < budget) (rereadAll ts, r, budget - nodesAll ts)
  | [], bs, h, _, _, _, depth, budget, r => by
      rw [terms, Option.some.injEq] at h
      subst h
      rw [List.length_nil, collect, depthAll, nodesAll, rereadAll]
      constructor
      · intro hp
        rw [if_neg (by omega)]
        rfl
      · intro hp
        rw [if_pos (by omega)]
        exact ⟨_, rfl⟩
  | t :: ts, bs, h, hlen, hsound, hatoms, depth, budget, r => by
      obtain ⟨bt, bts, ht, hts, rfl⟩ := terms_cons h
      rw [List.length_append] at hlen
      rw [SoundAll] at hsound
      rw [AtomsInAll] at hatoms
      obtain ⟨hfirst, hfail⟩ := unterm_term t bt ht (by omega) hsound.1 hatoms.1 depth budget
        (bts ++ r)
      obtain ⟨hrest, hfail'⟩ := collect_terms ts bts hts (by omega) hsound.2 hatoms.2 depth
        (budget - t.nodes) r
      have h1 := t.nodes_le_need
      have h2 := t.need_le
      rw [List.length_cons, collect, depthAll, nodesAll, rereadAll, List.append_assoc]
      constructor
      · intro hp
        rw [if_neg (by omega)]
        simp only [hfirst ⟨by omega, by omega⟩, hrest ⟨by omega, by omega⟩, Except.ok.injEq,
          Prod.mk.injEq, true_and]
        omega
      · intro hp
        by_cases hzero : budget = 0
        · rw [if_pos hzero]
          exact ⟨_, rfl⟩
        · rw [if_neg hzero]
          by_cases hhead : t.depth ≤ depth ∧ t.need ≤ budget
          · obtain ⟨e, he⟩ := hfail' (by omega)
            simp only [hfirst hhead, he]
            exact ⟨e, rfl⟩
          · obtain ⟨e, he⟩ := hfail hhead
            simp only [he]
            exact ⟨e, rfl⟩

end

end ErlangWasm.Snapshot
