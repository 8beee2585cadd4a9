import ErlangWasm.Snapshot.Total

/-!
# Packed decoding and plain decoding

On any bytes `untables` does what `unterm` does: it refuses with the same error or leaves the same
bytes and the same budget, and its value is the value of `unterm` with the tables packed that have
a word for every entry.  A table of nulls needs less depth as terms than `packed` asks for, so
below that depth nothing is packed (`pack`).
-/

namespace ErlangWasm.Snapshot

open Reasoning.Bytes

variable {atoms : Bytes → Bool}

/-! ## What a value was read from -/

theorem unterm_scalar_inv {depth : ℕ} {bin r : Bytes} {budget left : ℕ} {s : Scalar}
    (h : unterm atoms (depth + 1) bin budget = .ok (.scalar s, r, left)) :
    ∃ tag r₀, bin = tag :: r₀ ∧ Scalar.read atoms tag r₀ = .ok (s, r) ∧ left = budget - 1 := by
  cases bin with
  | nil =>
    rw [unterm] at h
    split at h <;> cases h
  | cons tag r₀ =>
    rw [unterm] at h
    split at h
    · cases h
    · split at h
      · rename_i k hk
        split at h
        · split at h
          · cases k <;> cases h
          · cases h
        · cases h
      · split at h
        · rename_i s' r' hread
          cases h
          exact ⟨tag, r₀, rfl, hread, rfl⟩
        · cases h

theorem tag_of_ofTag {tag : UInt8} {k : Kind} (h : Kind.ofTag tag = some k) : tag = k.tag := by
  unfold Kind.ofTag at h
  split at h
  · rename_i htag
    cases h
    exact htag
  · split at h
    · rename_i htag
      cases h
      exact htag
    · split at h
      · rename_i htag
        cases h
        exact htag
      · cases h

theorem unterm_coll_inv {depth : ℕ} {bin r : Bytes} {budget left : ℕ} {k : Kind}
    {items : List Term} (h : unterm atoms (depth + 1) bin budget = .ok (.coll k items, r, left)) :
    ∃ n r₀ vs, bin = k.tag :: (be 4 n ++ r₀) ∧ n < 256 ^ 4 ∧ k.build vs = .coll k items ∧
      collect (unterm atoms depth) (k.reads n) r₀ (budget - 1) = .ok (vs, r, left) := by
  cases bin with
  | nil =>
    rw [unterm] at h
    split at h <;> cases h
  | cons tag bin =>
    rw [unterm] at h
    split at h
    · cases h
    · split at h
      · rename_i k' hk
        split at h
        · rename_i n r₀ hread
          split at h
          · rename_i vs r' left' hcollect
            obtain ⟨rfl, hn⟩ := readBe_eq_some hread
            simp only [Except.ok.injEq, Prod.mk.injEq] at h
            obtain ⟨hbuild, rfl, rfl⟩ := h
            have hkind : k' = k := by
              cases k' <;> simp only [Kind.build, Term.coll.injEq] at hbuild <;> exact hbuild.1
            subst hkind
            exact ⟨n, r₀, vs, by rw [tag_of_ofTag hk], hn, hbuild, hcollect⟩
          · cases h
        · cases h
      · split at h
        · cases h
        · cases h

theorem scalar_read_atom {tag : UInt8} {r₀ r : Bytes} {n : Name}
    (h : Scalar.read atoms tag r₀ = .ok (.atom n, r)) :
    tag = 3 ∧ r₀ = be 2 n.utf8.length ++ n.utf8 ++ r := by
  unfold Scalar.read at h
  split at h
  · split at h <;> cases h
  · split at h
    · split at h
      · split at h <;> cases h
      · cases h
    · split at h
      · split at h <;> cases h
      · split at h
        · rename_i htag
          split at h
          · rename_i text r' hread
            split at h
            · rename_i name hname
              cases h
              obtain ⟨⟨l, r₁⟩, hlen, hsplit⟩ := Option.bind_eq_some_iff.mp hread
              obtain ⟨rfl, -⟩ := readBe_eq_some hlen
              obtain ⟨rfl, rfl⟩ := splitAt?_eq_some hsplit
              have htext : n.utf8 = text := by
                unfold existingAtom at hname
                split at hname
                · cases hname
                  rfl
                · cases hname
              exact ⟨htag, by rw [htext, List.append_assoc]⟩
            · cases h
          · cases h
        · cases h

theorem scalar_read_int {tag : UInt8} {r₀ r : Bytes} {i : ℤ}
    (h : Scalar.read atoms tag r₀ = .ok (.int i, r)) :
    tag = 0 ∧ ∃ u < 256 ^ 8, r₀ = be 8 u ++ r ∧ i = unzigzag u := by
  unfold Scalar.read at h
  split at h
  · rename_i htag
    split at h
    · rename_i u r' hread
      cases h
      obtain ⟨rfl, hlt⟩ := readBe_eq_some hread
      exact ⟨htag, u, hlt, rfl, rfl⟩
    · cases h
  · split at h
    · split at h
      · split at h <;> cases h
      · cases h
    · split at h
      · split at h <;> cases h
      · split at h
        · split at h
          · split at h <;> cases h
          · cases h
        · cases h

theorem collect_length {read : Bytes → ℕ → Reading Term} {n : ℕ} {r r' : Bytes} {budget left : ℕ}
    {vs : List Term} (h : collect read n r budget = .ok (vs, r', left)) :
    vs.length = n ∧ 0 < left := by
  induction n generalizing r budget vs with
  | zero =>
    rw [collect] at h
    split at h
    · cases h
    · cases h
      exact ⟨rfl, by omega⟩
  | succ n ih =>
    rw [collect] at h
    split at h
    · cases h
    · split at h
      · split at h
        · rename_i hrest
          cases h
          obtain ⟨hlen, hleft⟩ := ih hrest
          exact ⟨by rw [List.length_cons, hlen], hleft⟩
        · cases h
      · cases h

/-- The readings of a collection that is not empty. -/
theorem collect_cons {read : Bytes → ℕ → Reading Term} {n : ℕ} {r r' : Bytes} {budget left : ℕ}
    {v : Term} {vs : List Term} (h : collect read n r budget = .ok (v :: vs, r', left)) :
    ∃ m r₁ b₁, n = m + 1 ∧ budget ≠ 0 ∧ read r budget = .ok (v, r₁, b₁) ∧
      collect read m r₁ b₁ = .ok (vs, r', left) := by
  cases n with
  | zero =>
    rw [collect] at h
    split at h <;> cases h
  | succ m =>
    rw [collect] at h
    split at h
    · cases h
    · rename_i hbudget
      split at h
      · rename_i w r₁ b₁ hread
        split at h
        · rename_i ws r₂ b₂ hrest
          cases h
          exact ⟨m, r₁, b₁, rfl, hbudget, hread, hrest⟩
        · cases h
      · cases h

/-! ## One entry -/

/-- The entry at the head of a packed table: its word, what it costs, and the bytes after it. -/
def readEntry (r : Bytes) : Option (ℕ × ℕ × Bytes) :=
  match strip? nullEntry r with
  | some r => some (nullFuncWord, 1, r)
  | none =>
      match (strip? funcrefEntry r).bind (readBe 8) with
      | some (u, r) => if u % 2 = 0 ∧ u / 2 < nullFuncWord then some (u / 2, 4, r) else none
      | none => none

theorem packed_succ (n : ℕ) (r acc : Bytes) {budget : ℕ} (h : budget ≠ 0) :
    packed (n + 1) r acc budget =
      (readEntry r).bind fun e => packed n e.2.2 (acc ++ be 4 e.1) (budget - e.2.1) := by
  rw [packed, if_neg h, readEntry]
  cases strip? nullEntry r with
  | some r₁ => rfl
  | none =>
    cases (strip? funcrefEntry r).bind (readBe 8) with
    | none => rfl
    | some p =>
      obtain ⟨u, r₁⟩ := p
      simp only
      split <;> rfl

/-- What is read with nothing left to spend is refused by whoever reads on. -/
def settle {α : Type} (x : Reading α) : Reading α :=
  match x with
  | .ok (_, _, 0) => tooManyNodes
  | x => x

@[simp] theorem settle_error {α : Type} (e : Error) : settle (.error e : Reading α) = .error e := rfl

@[simp] theorem settle_zero {α : Type} (v : α) (r : Bytes) :
    settle (.ok (v, r, 0)) = tooManyNodes := rfl

theorem settle_pos {α : Type} (v : α) (r : Bytes) {left : ℕ} (h : left ≠ 0) :
    settle (.ok (v, r, left)) = .ok (v, r, left) := by
  obtain ⟨k, rfl⟩ := Nat.exists_eq_succ_of_ne_zero h
  rfl

/-- `f` on the value of a reading. -/
def Reading.map {α β : Type} (f : α → β) (x : Reading α) : Reading β :=
  match x with
  | .ok (v, r, left) => .ok (f v, r, left)
  | .error e => .error e

/-- What is made of a value does not touch what is left to spend. -/
theorem settle_map {α β : Type} (f : α → β) (x : Reading α) :
    settle (Reading.map f x) = Reading.map f (settle x) := by
  match x with
  | .error e => rfl
  | .ok (v, r, 0) => rfl
  | .ok (v, r, k + 1) => rfl

theorem unterm_coll (k : Kind) (depth n : ℕ) (r : Bytes) {budget : ℕ} (hn : n < 256 ^ 4)
    (h : budget ≠ 0) :
    unterm atoms (depth + 1) (k.tag :: (be 4 n ++ r)) budget =
      Reading.map k.build (collect (unterm atoms depth) (k.reads n) r (budget - 1)) := by
  rw [unterm, if_neg h]
  simp only [Kind.ofTag_tag, readBe_be, Nat.mod_eq_of_lt hn]
  cases collect (unterm atoms depth) (k.reads n) r (budget - 1) <;> rfl

/-- The names an entry is written with exist. -/
structure OwnAtoms (atoms : Bytes → Bool) : Prop where
  null : atoms (ascii "null") = true
  funcref : atoms (ascii "funcref") = true
  self : atoms (ascii "self") = true

theorem unterm_atom (name : Bytes) (hshort : name.length ≤ 1020) (ha : atoms name = true)
    (depth : ℕ) (r : Bytes) {budget : ℕ} (h : budget ≠ 0) :
    unterm atoms (depth + 1) (3 :: (be 2 name.length ++ name) ++ r) budget =
      .ok (.atom ⟨name, hshort⟩, r, budget - 1) := by
  have hread : Scalar.read atoms 3 (be 2 name.length ++ name ++ r) =
      .ok (.atom ⟨name, hshort⟩, r) := by
    have hatom : existingAtom atoms name = some ⟨name, hshort⟩ := dif_pos ⟨hshort, ha⟩
    rw [List.append_assoc, Scalar.read, if_neg (by decide), if_neg (by decide),
      if_neg (by decide), if_pos rfl, readBe_be, Nat.mod_eq_of_lt (by omega), Option.bind_some]
    dsimp only
    rw [splitAt?_append rfl r]
    dsimp only
    rw [hatom]
  rw [List.cons_append, unterm, if_neg h]
  simp only [show Kind.ofTag 3 = none from rfl, hread]

theorem unterm_int (atoms : Bytes → Bool) (depth u : ℕ) (r : Bytes) {budget : ℕ} (hu : u < 256 ^ 8)
    (h : budget ≠ 0) :
    unterm atoms (depth + 1) (0 :: be 8 u ++ r) budget =
      .ok (.int (unzigzag u), r, budget - 1) := by
  have hread : Scalar.read atoms 0 (be 8 u ++ r) = .ok (.int (unzigzag u), r) := by
    simp only [Scalar.read, readBe_be, Nat.mod_eq_of_lt hu]
    rfl
  rw [List.cons_append, unterm, if_neg h]
  simp only [show Kind.ofTag 0 = none from rfl, hread]

/-- What the plain path makes of an entry's bytes: its term, at the cost the packed path puts on
it. -/
theorem unterm_entry (hown : OwnAtoms atoms) {r r' : Bytes} {w cost : ℕ}
    (he : readEntry r = some (w, cost, r')) (depth : ℕ) {budget : ℕ} (h : budget ≠ 0) :
    ∃ v, entryWord v = some w ∧
      settle (unterm atoms (depth + 2) r budget) = settle (.ok (v, r', budget - cost)) := by
  unfold readEntry at he
  split at he
  · rename_i r₁ hnull
    cases he
    rw [strip?_eq_some.mp hnull]
    refine ⟨.atom ⟨ascii "null", by decide⟩, rfl, ?_⟩
    have hread := unterm_atom (ascii "null") (by decide) hown.null (depth + 1) r' h
    exact congrArg settle hread
  · split at he
    · rename_i u r₁ hfield
      split at he
      · rename_i hu
        cases he
        obtain ⟨r₂, hstrip, hread⟩ := Option.bind_eq_some_iff.mp hfield
        obtain ⟨rfl, hlt⟩ := readBe_eq_some hread
        rw [strip?_eq_some.mp hstrip]
        refine ⟨.tuple [.atom ⟨ascii "funcref", by decide⟩, .atom ⟨ascii "self", by decide⟩,
          .int (u / 2 : ℕ)], ?_, ?_⟩
        · rw [entryWord, if_pos ⟨rfl, rfl, by omega, by omega⟩, Int.toNat_natCast]
        · -- the tuple, then its three fields, each while there is something left to spend
          have hunzigzag : unzigzag u = (u / 2 : ℕ) := if_pos hu.1
          have hbytes : funcrefEntry ++ (be 8 u ++ r') =
              Kind.tuple.tag :: (be 4 3 ++
                ((3 :: (be 2 (ascii "funcref").length ++ ascii "funcref")) ++
                ((3 :: (be 2 (ascii "self").length ++ ascii "self")) ++ (0 :: be 8 u ++ r')))) := by
            simp [funcrefEntry, Kind.tag, show (ascii "funcref").length = 7 from rfl,
              show (ascii "self").length = 4 from rfl]
          have hfirst := fun {b : ℕ} (hb : b ≠ 0) => unterm_atom (ascii "funcref") (by decide)
            hown.funcref depth
            (3 :: (be 2 (ascii "self").length ++ ascii "self") ++ (0 :: be 8 u ++ r')) hb
          have hsecond := fun {b : ℕ} (hb : b ≠ 0) => unterm_atom (ascii "self") (by decide)
            hown.self depth (0 :: be 8 u ++ r') hb
          have hthird := fun {b : ℕ} (hb : b ≠ 0) => unterm_int atoms depth u r' hlt hb
          rw [hbytes, unterm_coll .tuple (depth + 1) 3 _ (by decide) h, settle_map]
          rw [show Kind.tuple.reads 3 = 3 from rfl]
          by_cases h1 : budget - 1 = 0
          · rw [collect, if_pos h1, show budget - 4 = 0 by omega]
            rfl
          · rw [collect, if_neg h1]
            simp only [hfirst h1]
            by_cases h2 : budget - 1 - 1 = 0
            · rw [collect, if_pos h2, show budget - 4 = 0 by omega]
              rfl
            · rw [collect, if_neg h2]
              simp only [hsecond h2]
              by_cases h3 : budget - 1 - 1 - 1 = 0
              · rw [collect, if_pos h3, show budget - 4 = 0 by omega]
                rfl
              · rw [collect, if_neg h3]
                simp only [hthird h3, hunzigzag]
                rw [collect, show budget - 1 - 1 - 1 - 1 = budget - 4 by omega]
                by_cases h4 : budget - 4 = 0
                · rw [if_pos h4, h4]
                  rfl
                · rw [if_neg h4, settle_pos _ _ h4, settle_pos _ _ h4]
                  rfl
      · cases he
    · cases he

/-- An entry that has a word was read from the bytes the packed path looks for. -/
theorem entry_of_unterm {depth : ℕ} {r r' : Bytes} {budget left : ℕ} {v : Term} {w : ℕ}
    (h : unterm atoms (depth + 2) r budget = .ok (v, r', left)) (hw : entryWord v = some w) :
    ∃ cost, readEntry r = some (w, cost, r') := by
  unfold entryWord at hw
  split at hw
  · rename_i n
    split at hw
    · rename_i hn
      cases hw
      obtain ⟨tag, r₀, rfl, hread, -⟩ := unterm_scalar_inv h
      obtain ⟨rfl, rfl⟩ := scalar_read_atom hread
      refine ⟨1, ?_⟩
      have hstrip : strip? nullEntry (3 :: (be 2 n.utf8.length ++ n.utf8 ++ r')) = some r' := by
        rw [strip?_eq_some, hn]
        rfl
      rw [readEntry, hstrip]
    · cases hw
  · rename_i kind self f
    split at hw
    · rename_i hf
      cases hw
      obtain ⟨hkind, hself, hnonneg, hlt⟩ := hf
      obtain ⟨n, r₀, vs, rfl, -, hbuild, hcollect⟩ := unterm_coll_inv h
      simp only [Kind.build, Term.coll.injEq, true_and] at hbuild
      subst hbuild
      obtain ⟨hthree, -⟩ := collect_length hcollect
      obtain ⟨m₁, r₁, b₁, hm₁, -, hfirst, hrest₁⟩ := collect_cons hcollect
      obtain ⟨m₂, r₂, b₂, hm₂, -, hsecond, hrest₂⟩ := collect_cons hrest₁
      obtain ⟨m₃, r₃, b₃, hm₃, -, hthird, hrest₃⟩ := collect_cons hrest₂
      obtain ⟨_, _, rfl, hread₁, -⟩ := unterm_scalar_inv hfirst
      obtain ⟨rfl, rfl⟩ := scalar_read_atom hread₁
      obtain ⟨_, _, rfl, hread₂, -⟩ := unterm_scalar_inv hsecond
      obtain ⟨rfl, rfl⟩ := scalar_read_atom hread₂
      obtain ⟨_, _, rfl, hread₃, -⟩ := unterm_scalar_inv hthird
      obtain ⟨rfl, u, hu, rfl, rfl⟩ := scalar_read_int hread₃
      obtain ⟨rfl, -⟩ := collect_length hrest₃
      have hend : r₃ = r' := by
        rw [List.length_nil, collect] at hrest₃
        split at hrest₃
        · cases hrest₃
        · cases hrest₃
          rfl
      subst hend
      have hn : n = 3 := by
        have hthree' : (3 : ℕ) = n := hthree
        exact hthree'.symm
      refine ⟨4, ?_⟩
      have hnull : strip? nullEntry (5 :: (be 4 n ++ (3 :: (be 2 kind.utf8.length ++ kind.utf8 ++
          (3 :: (be 2 self.utf8.length ++ self.utf8 ++ (0 :: (be 8 u ++ r₃)))))))) = none := rfl
      have hstrip : strip? funcrefEntry (5 :: (be 4 n ++ (3 :: (be 2 kind.utf8.length ++ kind.utf8 ++
          (3 :: (be 2 self.utf8.length ++ self.utf8 ++ (0 :: (be 8 u ++ r₃)))))))) =
          some (be 8 u ++ r₃) := by
        rw [strip?_eq_some, hkind, hself, hn]
        simp [funcrefEntry, show (ascii "funcref").length = 7 from rfl,
          show (ascii "self").length = 4 from rfl]
      have heven : u % 2 = 0 := by
        unfold unzigzag at hnonneg
        split at hnonneg <;> omega
      have hhalf : unzigzag u = (u / 2 : ℕ) := if_pos heven
      have htag : Kind.tuple.tag = 5 := rfl
      rw [htag, readEntry, hnull]
      simp only [hstrip, Option.bind_some, readBe_be, Nat.mod_eq_of_lt hu]
      rw [hhalf] at hlt ⊢
      rw [if_pos ⟨heven, by omega⟩, Int.toNat_natCast]
    · cases hw
  · cases hw

/-! ## Entries in order -/

theorem collect_zero (read : Bytes → ℕ → Reading Term) (n : ℕ) (r : Bytes) :
    collect read n r 0 = tooManyNodes := by
  cases n <;> rfl

/-- The value of `x` before what `rest` reads after it. -/
def consReading (x : Reading Term) (rest : Bytes → ℕ → Reading (List Term)) :
    Reading (List Term) :=
  match x with
  | .ok (v, r, budget) => Reading.map (v :: ·) (rest r budget)
  | .error e => .error e

/-- A collection goes on from what its first reading settles to. -/
theorem collect_step {read : Bytes → ℕ → Reading Term} {n : ℕ} {r : Bytes} {budget : ℕ}
    (h : budget ≠ 0) {x : Reading Term} (hx : settle (read r budget) = settle x) :
    collect read (n + 1) r budget = consReading x (collect read n) := by
  have hstep : collect read (n + 1) r budget = consReading (read r budget) (collect read n) := by
    rw [collect, if_neg h]
    cases read r budget with
    | error e => rfl
    | ok p =>
      obtain ⟨v, r₁, b₁⟩ := p
      simp only [consReading]
      cases collect read n r₁ b₁ <;> rfl
  have hspent : ∀ v r, consReading (.ok (v, r, 0)) (collect read n) = tooManyNodes := by
    intro v r
    rw [consReading, collect_zero]
    rfl
  rw [hstep]
  -- what has nothing left is refused here by the next step, and there at once
  generalize read r budget = y at hx ⊢
  rcases y with e | ⟨v, r₁, _ | b⟩ <;> rcases x with e' | ⟨w, r₂, _ | c⟩
  · cases hx
    rfl
  · cases hx
    rw [hspent]
    rfl
  · cases hx
  · cases hx
    rw [hspent]
    rfl
  · rw [hspent, hspent]
  · cases hx
  · cases hx
  · cases hx
  · cases hx
    rfl

/-- Two readers that settle to the same, one's values being `f` of the other's, collect the
same. -/
theorem collect_congr {read read' : Bytes → ℕ → Reading Term} {f : Term → Term}
    (h : ∀ r budget, budget ≠ 0 →
      settle (read r budget) = settle (Reading.map f (read' r budget)))
    (n : ℕ) (r : Bytes) (budget : ℕ) :
    collect read n r budget = Reading.map (List.map f) (collect read' n r budget) := by
  by_cases hzero : budget = 0
  · rw [hzero, collect_zero, collect_zero]
    rfl
  induction n generalizing r budget with
  | zero =>
    rw [collect, collect, if_neg hzero]
    rfl
  | succ n ih =>
    rw [collect_step hzero (h r budget hzero), collect_step hzero rfl]
    cases read' r budget with
    | error e => rfl
    | ok p =>
      obtain ⟨v, r₁, b₁⟩ := p
      have hrest : collect read n r₁ b₁ =
          Reading.map (List.map f) (collect read' n r₁ b₁) := by
        by_cases hb : b₁ = 0
        · rw [hb, collect_zero, collect_zero]
          rfl
        · exact ih r₁ b₁ hb
      simp only [Reading.map, consReading]
      rw [hrest]
      cases collect read' n r₁ b₁ <;> rfl

/-- What `packed` accepts the plain path reads as the entries it has words for. -/
theorem packed_collect (hown : OwnAtoms atoms) (depth : ℕ) {n : ℕ} {r acc words r' : Bytes}
    {budget left : ℕ} (h : packed n r acc budget = some (words, r', left)) :
    ∃ items ws, items.mapM entryWord = some ws ∧ words = acc ++ ws.flatMap (be 4) ∧
      collect (unterm atoms (depth + 2)) n r budget = settle (.ok (items, r', left)) := by
  induction n generalizing r acc budget with
  | zero =>
    rw [packed, Option.some.injEq, Prod.mk.injEq, Prod.mk.injEq] at h
    obtain ⟨rfl, rfl, rfl⟩ := h
    refine ⟨[], [], rfl, by simp, ?_⟩
    rw [collect]
    by_cases hzero : budget = 0
    · rw [if_pos hzero, hzero]
      rfl
    · rw [if_neg hzero, settle_pos _ _ hzero]
  | succ n ih =>
    have hzero : budget ≠ 0 := by
      rintro rfl
      rw [packed, if_pos rfl] at h
      cases h
    rw [packed_succ n r acc hzero] at h
    obtain ⟨⟨w, cost, r₁⟩, he, hrest⟩ := Option.bind_eq_some_iff.mp h
    obtain ⟨v, hv, hread⟩ := unterm_entry hown he depth hzero
    obtain ⟨items, ws, hws, rfl, hcollect⟩ := ih hrest
    refine ⟨v :: items, w :: ws, ?_, ?_, ?_⟩
    · rw [List.mapM_cons, hv, hws]
      rfl
    · rw [List.flatMap_cons, List.append_assoc]
    · rw [collect_step hzero hread, consReading, hcollect, ← settle_map]
      rfl

/-- Entries that have words are accepted by `packed`. -/
theorem packed_of_collect (hown : OwnAtoms atoms) (depth : ℕ) {n : ℕ} {r r' : Bytes} (acc : Bytes)
    {budget left : ℕ} {items : List Term} {ws : List ℕ}
    (h : collect (unterm atoms (depth + 2)) n r budget = .ok (items, r', left))
    (hws : items.mapM entryWord = some ws) :
    ∃ words left', packed n r acc budget = some (words, r', left') := by
  induction n generalizing r acc budget items ws with
  | zero =>
    rw [collect] at h
    split at h
    · cases h
    · cases h
      exact ⟨acc, _, rfl⟩
  | succ n ih =>
    obtain ⟨hlen, -⟩ := collect_length h
    obtain ⟨v, items, rfl⟩ := List.exists_cons_of_length_eq_add_one hlen
    obtain ⟨m, r₁, b₁, hm, hzero, hread, hrest⟩ := collect_cons h
    cases hm
    rw [List.mapM_cons] at hws
    obtain ⟨w, hw, hws⟩ := Option.bind_eq_some_iff.mp hws
    obtain ⟨ws', hws', -⟩ := Option.bind_eq_some_iff.mp hws
    obtain ⟨cost, he⟩ := entry_of_unterm hread hw
    obtain ⟨v', -, hsettle⟩ := unterm_entry (hown : OwnAtoms atoms) he depth hzero
    have hb₁ : b₁ ≠ 0 := by
      rintro rfl
      rw [collect_zero] at hrest
      cases hrest
    have hcost : b₁ = budget - cost := by
      rw [hread, settle_pos _ _ hb₁] at hsettle
      by_cases hc : budget - cost = 0
      · rw [hc] at hsettle
        cases hsettle
      · rw [settle_pos _ _ hc] at hsettle
        cases hsettle
        rfl
    rw [packed_succ n r acc hzero, he]
    exact ih _ (hcost ▸ hrest) hws'

/-! ## Tables -/

/-- A table that has a word for every entry, packed. -/
def packTable (t : Term) : Term :=
  match packedTable t with
  | some words => .binary words
  | none => t

/-- The tables section with its tables packed. -/
def packTables : Term → Term
  | .list ts => .list (ts.map packTable)
  | t => t

/-- The depth below which nothing is packed: a table of `funcref` tuples needs three more than the
section. -/
def pack (depth : ℕ) (t : Term) : Term := if 4 ≤ depth then packTables t else t

theorem packTable_of_not_list {t : Term} (h : ∀ ts, t ≠ .list ts) : packTable t = t := by
  unfold packTable packedTable
  split
  · rename_i hsome
    split at hsome
    · rename_i ts
      exact absurd rfl (h ts)
    · cases hsome
  · rfl

/-- What begins as a list is read as its items; what does not is no list. -/
theorem unterm_list_cases (depth : ℕ) (bin : Bytes) {budget : ℕ} (h : budget ≠ 0) :
    (∃ n r, (strip? [4] bin).bind (readBe 4) = some (n, r) ∧
      unterm atoms (depth + 1) bin budget =
        Reading.map .list (collect (unterm atoms depth) n r (budget - 1))) ∨
    ((strip? [4] bin).bind (readBe 4) = none ∧
      ∀ v r left, unterm atoms (depth + 1) bin budget = .ok (v, r, left) → ∀ ts, v ≠ .list ts) := by
  cases hhead : (strip? [4] bin).bind (readBe 4) with
  | some p =>
    obtain ⟨n, r⟩ := p
    left
    obtain ⟨r₀, hstrip, hread⟩ := Option.bind_eq_some_iff.mp hhead
    obtain ⟨rfl, hn⟩ := readBe_eq_some hread
    refine ⟨n, r, rfl, ?_⟩
    rw [strip?_eq_some.mp hstrip]
    exact unterm_coll .list depth n r hn h
  | none =>
    right
    refine ⟨rfl, ?_⟩
    rintro v r left hok ts rfl
    obtain ⟨n, r₀, vs, rfl, hn, -, -⟩ := unterm_coll_inv hok
    have hsome : (strip? [4] (Kind.list.tag :: (be 4 n ++ r₀))).bind (readBe 4) =
        some (n, r₀) := by
      rw [show Kind.list.tag :: (be 4 n ++ r₀) = [4] ++ (be 4 n ++ r₀) from rfl, strip?_append,
        Option.bind_some, readBe_be, Nat.mod_eq_of_lt hn]
    rw [hsome] at hhead
    cases hhead

theorem map_eq_self {f : Term → Term} {x : Reading Term}
    (h : ∀ v r left, x = .ok (v, r, left) → f v = v) : Reading.map f x = x := by
  match x, h with
  | .error e, _ => rfl
  | .ok (v, r, left), h => rw [Reading.map, h v r left rfl]

/-- A table is read as the plain path reads it, and packed where it can be. -/
theorem untable_eq (hown : OwnAtoms atoms) (depth : ℕ) (bin : Bytes) {budget : ℕ}
    (h : budget ≠ 0) :
    settle (untable atoms depth bin budget) =
      settle (Reading.map (if 3 ≤ depth then packTable else id) (unterm atoms depth bin budget)) := by
  have hid : ∀ x : Reading Term, Reading.map id x = x := fun x => map_eq_self fun _ _ _ _ => rfl
  cases depth with
  | zero =>
    unfold untable
    split
    · rw [if_neg (by omega), if_neg (by omega), hid]
    · rw [if_neg (by omega), hid]
  | succ depth =>
    rcases @unterm_list_cases atoms depth bin _ h with
      ⟨n, r, hhead, hunterm⟩ | ⟨hhead, hnot⟩
    · by_cases hdepth : 3 ≤ depth + 1
      · obtain ⟨d, rfl⟩ : ∃ d, depth = d + 2 := ⟨depth - 2, by omega⟩
        unfold untable
        rw [hhead]
        simp only [if_pos hdepth]
        cases hpacked : packed n r [] (budget - 1) with
        | some p =>
          obtain ⟨words, r', left⟩ := p
          obtain ⟨items, ws, hws, rfl, hcollect⟩ := packed_collect hown d hpacked
          have hpack : packTable (.list items) = .binary (ws.flatMap (be 4)) := by
            rw [packTable, packedTable, hws]
            rfl
          simp only [List.nil_append]
          rw [hunterm, hcollect, ← settle_map, ← settle_map, ← hpack]
          cases left <;> rfl
        | none =>
          simp only
          rw [map_eq_self]
          rintro v r' left hok
          by_cases hlist : ∃ items, v = .list items
          · obtain ⟨items, rfl⟩ := hlist
            -- a list with a word for every item would have been packed
            have hcollect : collect (unterm atoms (d + 2)) n r (budget - 1) =
                .ok (items, r', left) := by
              rw [hunterm] at hok
              cases hc : collect (unterm atoms (d + 2)) n r (budget - 1) with
              | error e =>
                rw [hc] at hok
                cases hok
              | ok q =>
                obtain ⟨vs, r₁, l₁⟩ := q
                rw [hc] at hok
                cases hok
                rfl
            cases hws : items.mapM entryWord with
            | some ws =>
              obtain ⟨words, left', hsome⟩ := packed_of_collect hown d [] hcollect hws
              rw [hsome] at hpacked
              cases hpacked
            | none =>
              rw [packTable, packedTable, hws]
              rfl
          · exact packTable_of_not_list fun ts hts => hlist ⟨ts, hts⟩
      · unfold untable
        rw [hhead]
        simp only [if_neg hdepth]
        rw [hid]
    · unfold untable
      rw [hhead]
      simp only
      rw [map_eq_self]
      intro v r left hok
      split
      · exact packTable_of_not_list (hnot v r left hok)
      · rfl

/-- Packed decoding is plain decoding with the tables packed, on any bytes, at any depth and
budget. -/
theorem untables_eq (hown : OwnAtoms atoms) (depth : ℕ) (bin : Bytes) (budget : ℕ) :
    untables atoms depth bin budget =
      Reading.map (pack depth) (unterm atoms depth bin budget) := by
  cases depth with
  | zero =>
    unfold untables
    split
    · rw [if_neg (by omega)]
      rfl
    · rfl
  | succ depth =>
    by_cases h : budget = 0
    · subst h
      have hmany : unterm atoms (depth + 1) bin 0 = tooManyNodes := by
        cases bin <;> rfl
      rw [hmany]
      unfold untables
      split
      · rw [if_neg (by omega), hmany]
        rfl
      · rw [hmany]
        rfl
    · rcases @unterm_list_cases atoms depth bin _ h with
        ⟨n, r, hhead, hunterm⟩ | ⟨hhead, hnot⟩
      · unfold untables
        rw [hhead]
        simp only [if_pos (show 0 < depth + 1 ∧ 0 < budget by omega), Nat.add_sub_cancel]
        rw [hunterm, collect_congr (fun r budget hb => untable_eq hown depth r hb)]
        by_cases hdepth : 3 ≤ depth
        · rw [if_pos hdepth]
          cases collect (unterm atoms depth) n r (budget - 1) with
          | error e => rfl
          | ok q =>
            simp only [Reading.map, pack, if_pos (show 4 ≤ depth + 1 by omega), packTables]
        · rw [if_neg hdepth]
          cases collect (unterm atoms depth) n r (budget - 1) with
          | error e => rfl
          | ok q =>
            simp only [Reading.map, pack, if_neg (show ¬ 4 ≤ depth + 1 by omega), List.map_id]
      · unfold untables
        rw [hhead]
        simp only
        rw [map_eq_self]
        intro v r left hok
        have hlist := hnot v r left hok
        unfold pack
        split
        · unfold packTables
          split
          · rename_i ts
            exact absurd rfl (hlist ts)
          · rfl
        · rfl

/-- Every name exists. -/
theorem ownAtoms_all : OwnAtoms fun _ => true := ⟨rfl, rfl, rfl⟩

/-- A section of one table, `[null]`. -/
def oneNull : Bytes := 4 :: (be 4 1 ++ (4 :: (be 4 1 ++ nullEntry)))

theorem untables_eq_oneNull :
    untables (fun _ => true) 4 oneNull 9 =
      Reading.map (pack 4) (unterm (fun _ => true) 4 oneNull 9) :=
  untables_eq ownAtoms_all 4 oneNull 9

/-- At depth 3 the plain path accepts `[[null]]` and the table in it is left as it is. -/
theorem not_untables_packTables :
    ¬ ∀ atoms, OwnAtoms atoms → ∀ depth bin budget, untables atoms depth bin budget =
      Reading.map packTables (unterm atoms depth bin budget) := by
  intro hall
  exact absurd (hall _ ownAtoms_all 3 oneNull 9) (by decide +kernel)

end ErlangWasm.Snapshot
