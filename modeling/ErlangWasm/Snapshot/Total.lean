import ErlangWasm.Snapshot.RoundTrip

/-!
# Files that were not written here

Whatever the bytes, a value that is read is no deeper and no larger than the ceilings, and all its
atoms exist.  Every function that is applied to a decoded value asks for its shape first, but for
the one that goes through the memories: a section there that holds anything but a list raises.
-/

namespace ErlangWasm.Snapshot

open Reasoning.Bytes

variable {node : Node} {lim : Limits} {atoms : Bytes → Bool}

/-! ## Values -/

mutual

/-- What is kept of the values that were read: of two under one key of a map, the later. -/
def Term.settled : Term → Term
  | .scalar s => .scalar s
  | .coll k items => k.build (settledAll items)

def settledAll : List Term → List Term
  | [] => []
  | t :: ts => t.settled :: settledAll ts

end

/-- A value read on `budget` nodes, leaving `left` of them.  The nodes are those of all that was
read, also of what a map does not keep. -/
structure Bounded (atoms : Bytes → Bool) (depth budget left : ℕ) (v : Term) : Prop where
  depth : v.depth ≤ depth
  nodes : ∃ read : Term, read.settled = v ∧ read.nodes + left ≤ budget
  atoms : v.AtomsIn atoms

/-- Values read one after another. -/
structure BoundedAll (atoms : Bytes → Bool) (depth budget left : ℕ) (vs : List Term) : Prop where
  depth : depthAll vs ≤ depth
  nodes : ∃ read : List Term, settledAll read = vs ∧ nodesAll read + left ≤ budget
  atoms : AtomsInAll atoms vs
  left : 0 < left

theorem depthAll_pairs_le (l : List Term) : depthAll (pairs l) ≤ depthAll l := by
  induction l using pairs.induct with
  | case1 k v rest hk ih =>
    rw [pairs, if_pos hk, depthAll, depthAll]
    omega
  | case2 k v rest hk ih =>
    rw [pairs, if_neg hk]
    simp only [depthAll]
    omega
  | case3 l hno =>
    rcases l with _ | ⟨k, _ | ⟨v, rest⟩⟩
    · exact Nat.le_refl _
    · exact Nat.zero_le _
    · exact absurd rfl (hno k v rest)

theorem atomsInAll_pairs (l : List Term) (h : AtomsInAll atoms l) : AtomsInAll atoms (pairs l) := by
  induction l using pairs.induct with
  | case1 k v rest hk ih =>
    rw [AtomsInAll, AtomsInAll] at h
    rw [pairs, if_pos hk]
    exact ih h.2.2
  | case2 k v rest hk ih =>
    rw [AtomsInAll, AtomsInAll] at h
    rw [pairs, if_neg hk, AtomsInAll, AtomsInAll]
    exact ⟨h.1, h.2.1, ih h.2.2⟩
  | case3 l hno =>
    rcases l with _ | ⟨k, _ | ⟨v, rest⟩⟩
    · exact h
    · rw [pairs, AtomsInAll]
      · trivial
      · exact fun k v rest he => hno k v rest he
    · exact absurd rfl (hno k v rest)

theorem bounded_build {depth budget left : ℕ} {k : Kind} {vs : List Term}
    (h : BoundedAll atoms depth (budget - 1) left vs) (hbudget : 0 < budget) :
    Bounded atoms (depth + 1) budget left (k.build vs) := by
  have h1 := h.depth
  have hnodes : ∃ read : Term, read.settled = k.build vs ∧ read.nodes + left ≤ budget := by
    obtain ⟨read, hread, hle⟩ := h.nodes
    refine ⟨.coll k read, by rw [Term.settled, hread], ?_⟩
    rw [Term.nodes]
    omega
  cases k with
  | list | tuple =>
    refine ⟨?_, hnodes, ?_⟩
    · rw [Kind.build, Term.depth]
      omega
    · rw [Kind.build, Term.AtomsIn]
      exact h.atoms
  | map =>
    have h3 := depthAll_pairs_le vs
    refine ⟨?_, hnodes, ?_⟩
    · rw [Kind.build, Term.depth]
      omega
    · rw [Kind.build, Term.AtomsIn]
      exact atomsInAll_pairs vs h.atoms

/-- What a reader keeps of one value, `collect` keeps of all of them. -/
theorem collect_bounded {read : Bytes → ℕ → Reading Term} {depth : ℕ}
    (hread : ∀ r budget v r' left, read r budget = .ok (v, r', left) →
      Bounded atoms depth budget left v) {n : ℕ} {r r' : Bytes} {budget left : ℕ} {vs : List Term}
    (h : collect read n r budget = .ok (vs, r', left)) : BoundedAll atoms depth budget left vs := by
  induction n generalizing r budget vs with
  | zero =>
    rw [collect] at h
    split at h
    · cases h
    · rename_i hne
      cases h
      refine ⟨Nat.zero_le _, ⟨[], rfl, ?_⟩, ?_, by omega⟩
      · rw [nodesAll]
        omega
      · rw [AtomsInAll]
        trivial
  | succ n ih =>
    rw [collect] at h
    split at h
    · cases h
    · split at h
      · rename_i v r₁ left₁ hv
        split at h
        · rename_i vs' r₂ left₂ hvs
          cases h
          have hb := hread _ _ _ _ _ hv
          have hbs := ih hvs
          obtain ⟨one, hone, h1⟩ := hb.nodes
          obtain ⟨more, hmore, h2⟩ := hbs.nodes
          have h3 := hb.depth
          have h4 := hbs.depth
          constructor
          · rw [depthAll]
            omega
          · refine ⟨one :: more, by rw [settledAll, hone, hmore], ?_⟩
            rw [nodesAll]
            omega
          · rw [AtomsInAll]
            exact ⟨hb.atoms, hbs.atoms⟩
          · exact hbs.left
        · cases h
      · cases h

theorem existingAtom_atoms {n : Bytes} {name : Name} (h : existingAtom atoms n = some name) :
    atoms name.utf8 = true := by
  unfold existingAtom at h
  split at h
  · rename_i hn
    cases h
    exact hn.2
  · cases h

theorem scalar_atoms {tag : UInt8} {r r' : Bytes} {s : Scalar}
    (h : Scalar.read atoms tag r = .ok (s, r')) : (Term.scalar s).AtomsIn atoms := by
  unfold Scalar.read at h
  split at h
  · split at h <;> cases h
    trivial
  · split at h
    · split at h
      · split at h <;> cases h
        trivial
      · cases h
    · split at h
      · split at h <;> cases h
        trivial
      · split at h
        · split at h
          · split at h
            · rename_i hname
              cases h
              exact existingAtom_atoms hname
            · cases h
          · cases h
        · cases h

theorem unterm_bounded {depth : ℕ} {bin r : Bytes} {budget left : ℕ} {v : Term}
    (h : unterm atoms depth bin budget = .ok (v, r, left)) : Bounded atoms depth budget left v := by
  induction depth generalizing bin budget v r left with
  | zero => cases h
  | succ depth ih =>
    cases bin with
    | nil =>
      rw [unterm] at h
      split at h <;> cases h
    | cons tag bin =>
      rw [unterm] at h
      split at h
      · cases h
      · rename_i hbudget
        split at h
        · split at h
          · split at h
            · rename_i vs r₁ left₁ hvs
              cases h
              apply bounded_build _ (by omega)
              exact collect_bounded (fun r budget v r' left hv => ih hv) hvs
            · cases h
          · cases h
        · split at h
          · rename_i s r₁ hs
            cases h
            refine ⟨?_, ⟨.scalar s, rfl, ?_⟩, scalar_atoms hs⟩
            · rw [Term.depth]
              omega
            · rw [Term.nodes]
              omega
          · cases h

theorem ofTag_list {tag : UInt8} {k : Kind} (h : Kind.ofTag tag = some k) :
    k = .list ↔ tag = 4 := by
  unfold Kind.ofTag at h
  split at h
  · rename_i htag
    cases h
    simp [htag]
  · rename_i hne
    have hk : k ≠ .list := by
      rintro rfl
      split at h
      · cases h
      · split at h <;> cases h
    exact ⟨fun he => absurd he hk, fun he => absurd he hne⟩

/-- The first byte says whether a value is a list. -/
theorem unterm_head {depth : ℕ} {bin r : Bytes} {budget left : ℕ} {v : Term}
    (h : unterm atoms depth bin budget = .ok (v, r, left)) :
    (∃ items, v = .list items) ↔ bin.head? = some 4 := by
  cases depth with
  | zero => cases h
  | succ depth =>
    cases bin with
    | nil =>
      rw [unterm] at h
      split at h <;> cases h
    | cons tag bin =>
      rw [unterm] at h
      split at h
      · cases h
      · rw [List.head?_cons, Option.some.injEq]
        split at h
        · rename_i k hk
          have htag := ofTag_list hk
          split at h
          · split at h
            · cases h
              rw [← htag]
              cases k with
              | list => exact ⟨fun _ => rfl, fun _ => ⟨_, rfl⟩⟩
              | tuple | map =>
                constructor
                · rintro ⟨items, he⟩
                  cases he
                · intro he
                  cases he
            · cases h
          · cases h
        · rename_i hnone
          split at h
          · cases h
            constructor
            · rintro ⟨items, he⟩
              cases he
            · rintro rfl
              cases hnone
          · cases h

/-! ## Tables -/

/-- Packed words stand for entries, and cost what these cost. -/
theorem packed_entries {n : ℕ} {r r' acc words : Bytes} {budget left : ℕ}
    (h : packed n r acc budget = some (words, r', left)) :
    ∃ items ws, items.mapM entryWord = some ws ∧ words = acc ++ ws.flatMap (be 4) ∧
      left = budget - nodesAll items ∧ depthAll items ≤ 2 ∧ settledAll items = items := by
  induction n generalizing r acc budget with
  | zero =>
    rw [packed, Option.some.injEq, Prod.mk.injEq, Prod.mk.injEq] at h
    obtain ⟨rfl, rfl, rfl⟩ := h
    exact ⟨[], [], rfl, by simp, by rw [nodesAll]; omega, by rw [depthAll]; omega, rfl⟩
  | succ n ih =>
    rw [packed] at h
    split at h
    · cases h
    · split at h
      · obtain ⟨items, ws, hws, rfl, rfl, hdepth, hsettled⟩ := ih h
        refine ⟨.atom ⟨ascii "null", by decide⟩ :: items, nullFuncWord :: ws, ?_, ?_, ?_, ?_, ?_⟩
        · rw [List.mapM_cons, hws]
          rfl
        · rw [List.flatMap_cons, List.append_assoc]
        · rw [nodesAll, Term.nodes]
          omega
        · rw [depthAll, Term.depth]
          omega
        · rw [settledAll, hsettled]
          rfl
      · split at h
        · rename_i u r₁ _
          split at h
          · rename_i hu
            obtain ⟨items, ws, hws, rfl, rfl, hdepth, hsettled⟩ := ih h
            refine ⟨.tuple [.atom ⟨ascii "funcref", by decide⟩, .atom ⟨ascii "self", by decide⟩,
              .int (u / 2 : ℕ)] :: items, (u / 2) :: ws, ?_, ?_, ?_, ?_, ?_⟩
            · have hword : entryWord (.tuple [.atom ⟨ascii "funcref", by decide⟩,
                  .atom ⟨ascii "self", by decide⟩, .int (u / 2 : ℕ)]) = some (u / 2) := by
                rw [entryWord, if_pos ⟨rfl, rfl, by omega, by omega⟩, Int.toNat_natCast]
              rw [List.mapM_cons, hword, hws]
              rfl
            · rw [List.flatMap_cons, List.append_assoc]
            · simp only [nodesAll, Term.nodes]
              omega
            · simp only [depthAll, Term.depth]
              omega
            · rw [settledAll, hsettled]
              rfl
          · cases h
        · cases h

theorem untable_bounded {depth : ℕ} {bin r : Bytes} {budget left : ℕ} {v : Term}
    (h : untable atoms depth bin budget = .ok (v, r, left)) :
    v.AtomsIn atoms ∧ ∃ read : Term, Packs read.settled v ∧ read.settled.depth ≤ depth ∧
      left ≤ budget - read.nodes := by
  have hplain : unterm atoms depth bin budget = .ok (v, r, left) →
      v.AtomsIn atoms ∧ ∃ read : Term, Packs read.settled v ∧ read.settled.depth ≤ depth ∧
        left ≤ budget - read.nodes := by
    intro hu
    have hb := unterm_bounded hu
    obtain ⟨read, rfl, hle⟩ := hb.nodes
    exact ⟨hb.atoms, read, .inl rfl, hb.depth, by omega⟩
  unfold untable at h
  split at h
  · split at h
    · split at h
      · rename_i hdepth _ words r₁ left₁ hp
        cases h
        obtain ⟨items, ws, hws, rfl, rfl, hle, hsettled⟩ := packed_entries hp
        have hlist : (Term.list items).settled = .list items := by
          rw [Term.settled, hsettled]
          rfl
        refine ⟨trivial, .list items, .inr ⟨_, ?_, rfl⟩, ?_, ?_⟩
        · rw [hlist, packedTable, hws]
          rfl
        · rw [hlist, Term.depth]
          omega
        · rw [Term.nodes]
          omega
      · exact hplain h
    · exact hplain h
  · exact hplain h

theorem collect_untable {depth n : ℕ} {r r' : Bytes} {budget left : ℕ} {vs : List Term}
    (h : collect (untable atoms depth) n r budget = .ok (vs, r', left)) :
    0 < left ∧ AtomsInAll atoms vs ∧ ∃ read, List.Forall₂ Packs (settledAll read) vs ∧
      depthAll (settledAll read) ≤ depth ∧ nodesAll read + left ≤ budget := by
  induction n generalizing r budget vs with
  | zero =>
    rw [collect] at h
    split at h
    · cases h
    · cases h
      refine ⟨by omega, by rw [AtomsInAll]; trivial, [], .nil, Nat.zero_le _, ?_⟩
      rw [nodesAll]
      omega
  | succ n ih =>
    rw [collect] at h
    split at h
    · cases h
    · split at h
      · rename_i v r₁ left₁ hv
        split at h
        · rename_i vs' r₂ left₂ hvs
          cases h
          obtain ⟨hatoms, one, hpacks, hdepth, hle⟩ := untable_bounded hv
          obtain ⟨hpos, hatoms', more, hall, hdepth', hle'⟩ := ih hvs
          refine ⟨hpos, ?_, one :: more, .cons hpacks hall, ?_, ?_⟩
          · rw [AtomsInAll]
            exact ⟨hatoms, hatoms'⟩
          · rw [settledAll, depthAll]
            omega
          · -- the loop went on, so something was left after this table
            rw [nodesAll]
            omega
        · cases h
      · cases h

theorem untables_bounded {depth : ℕ} {bin r : Bytes} {budget left : ℕ} {v : Term}
    (h : untables atoms depth bin budget = .ok (v, r, left)) :
    v.AtomsIn atoms ∧ ∃ read : Term, PacksAll read.settled v ∧ read.settled.depth ≤ depth ∧
      read.nodes + left ≤ budget := by
  have hplain : unterm atoms depth bin budget = .ok (v, r, left) →
      v.AtomsIn atoms ∧ ∃ read : Term, PacksAll read.settled v ∧ read.settled.depth ≤ depth ∧
        read.nodes + left ≤ budget := by
    intro hu
    have hb := unterm_bounded hu
    obtain ⟨read, rfl, hle⟩ := hb.nodes
    exact ⟨hb.atoms, read, .inl rfl, hb.depth, hle⟩
  unfold untables at h
  split at h
  · split at h
    · rename_i hroom
      split at h
      · rename_i vs r₁ left₁ hvs
        cases h
        obtain ⟨hpos, hatoms, read, hall, hdepth, hle⟩ := collect_untable hvs
        refine ⟨?_, .list read, .inr ⟨settledAll read, vs, rfl, rfl, hall⟩, ?_, ?_⟩
        · rw [Term.AtomsIn]
          exact hatoms
        · rw [Term.settled, Kind.build, Term.depth]
          omega
        · rw [Term.nodes]
          omega
      · cases h
    · exact hplain h
  · exact hplain h

/-! ## Sections -/

/-- The sections `secs` are read one after another, from `acc` with `n` nodes left to `acc'` with
`n'`. -/
inductive ReadAll (atoms : Bytes → Bool) (depth : ℕ) :
    List (Key × Bytes) → Sections → ℕ → Sections → ℕ → Prop
  | nil {acc : Sections} {n : ℕ} : ReadAll atoms depth [] acc n acc n
  | cons {k : Key} {data : Bytes} {secs : List (Key × Bytes)} {acc acc' : Sections} {n n₁ n' : ℕ}
      {v : Term} (hnone : acc k = none)
      (hv : sectionValue atoms k data depth n = .ok (v, n₁))
      (hrest : ReadAll atoms depth secs (Function.update acc k (some v)) n₁ acc' n') :
      ReadAll atoms depth ((k, data) :: secs) acc n acc' n'

/-- The bytes of sections. -/
def written (secs : List (Key × Bytes)) : Bytes :=
  secs.flatMap fun s => sect s.1.tag s.2

theorem tag_of_keyFor {tag : UInt8} {k : Key} (h : keyFor tag = some k) : k.tag = tag := by
  have hk := List.find?_some h
  simpa using hk

theorem splitSection_eq_some {bin data tail : Bytes} {tag : UInt8}
    (h : splitSection bin = some (tag, data, tail)) :
    bin = sect tag data ++ tail ∧ data.length < 2 ^ 32 := by
  cases bin with
  | nil => cases h
  | cons b r =>
    obtain ⟨⟨data', tail'⟩, hbind, heq⟩ := Option.map_eq_some_iff.mp h
    simp only [Prod.mk.injEq] at heq
    obtain ⟨rfl, rfl, rfl⟩ := heq
    obtain ⟨⟨len, r₁⟩, hread, hsplit⟩ := Option.bind_eq_some_iff.mp hbind
    obtain ⟨rfl, hlen⟩ := readBe_eq_some hread
    obtain ⟨rfl, rfl⟩ := splitAt?_eq_some hsplit
    exact ⟨by simp [sect], by omega⟩

theorem section_cases {depth : ℕ} {tag : UInt8} {data : Bytes} {acc : Sections} {n : ℕ} :
    (∃ e, section' atoms depth tag data acc n = .error e) ∨
    ∃ k v n₁, k.tag = tag ∧ acc k = none ∧
      sectionValue atoms k data depth n = .ok (v, n₁) ∧ section' atoms depth tag data acc n =
        .ok (Function.update acc k (some v), n₁) := by
  unfold section'
  cases hkey : keyFor tag with
  | none => exact .inl ⟨_, rfl⟩
  | some k =>
    dsimp only
    split
    · exact .inl ⟨_, rfl⟩
    · rename_i hnone
      cases hv : sectionValue atoms k data depth n with
      | error e => exact .inl ⟨e, rfl⟩
      | ok p =>
        right
        refine ⟨k, p.1, p.2, tag_of_keyFor hkey, ?_, hv, rfl⟩
        simpa using hnone

/-- A body is refused, or it is sections that are read one after another. -/
theorem sections_cases {depth : ℕ} (fuel : ℕ) {bin : Bytes} {acc : Sections} {n : ℕ}
    (hfuel : bin.length ≤ fuel) :
    (∃ e, sections atoms depth fuel bin acc n = .error e) ∨
    ∃ secs acc' n', bin = written secs ∧ (∀ s ∈ secs, s.2.length < 2 ^ 32) ∧
      ReadAll atoms depth secs acc n acc' n' ∧
      sections atoms depth fuel bin acc n = complete acc' := by
  induction fuel generalizing bin acc n with
  | zero =>
    rw [List.length_eq_zero_iff.mp (Nat.le_zero.mp hfuel)]
    exact .inr ⟨[], acc, n, rfl, nofun, .nil, rfl⟩
  | succ fuel ih =>
    cases bin with
    | nil => exact .inr ⟨[], acc, n, rfl, nofun, .nil, rfl⟩
    | cons b bs =>
      rw [sections]
      cases hsplit : splitSection (b :: bs) with
      | none => exact .inl ⟨_, rfl⟩
      | some s =>
        obtain ⟨tag, data, tail⟩ := s
        obtain ⟨hbin, hdata⟩ := splitSection_eq_some hsplit
        rcases @section_cases atoms depth tag data acc n with
          ⟨e, he⟩ | ⟨k, v, n₁, rfl, hnone, hv, hok⟩
        · left
          simp only [he]
          exact ⟨e, rfl⟩
        · have htail : tail.length ≤ fuel := by
            have hlen := congrArg List.length hbin
            simp only [sect, List.length_append, List.length_cons, length_be] at hlen hfuel
            omega
          simp only [hok]
          rcases @ih tail (Function.update acc k (some v)) n₁ htail with
            ⟨e, he⟩ | ⟨secs, acc', n', rfl, hshort, hall, heq⟩
          · exact .inl ⟨e, he⟩
          · right
            refine ⟨(k, data) :: secs, acc', n', hbin, ?_, .cons hnone hv hall, heq⟩
            intro s hs
            rcases List.mem_cons.mp hs with rfl | hin
            · exact hdata
            · exact hshort s hin

/-- Sections that can be read are read. -/
theorem sections_written {depth : ℕ} {secs : List (Key × Bytes)} {acc acc' : Sections} {n n' : ℕ}
    (h : ReadAll atoms depth secs acc n acc' n') {fuel : ℕ} (hfuel : secs.length ≤ fuel)
    (hshort : ∀ s ∈ secs, s.2.length < 2 ^ 32) :
    sections atoms depth fuel (written secs) acc n = complete acc' := by
  induction h generalizing fuel with
  | nil => cases fuel <;> rfl
  | cons hnone hv hrest ih =>
    cases fuel with
    | zero => simp at hfuel
    | succ fuel =>
      rename_i k data secs acc acc' n n₁ n' v
      have hdata : data.length < 2 ^ 32 := hshort (k, data) List.mem_cons_self
      rw [show written ((k, data) :: secs) = sect k.tag data ++ written secs from rfl,
        sections_sect hdata hnone, hv]
      apply ih
      · rw [List.length_cons] at hfuel
        omega
      · exact fun s hs => hshort s (List.mem_cons_of_mem _ hs)

/-- A key is there when it was or when its section has been read. -/
theorem readAll_isSome {depth : ℕ} {secs : List (Key × Bytes)} {acc acc' : Sections} {n n' : ℕ}
    (h : ReadAll atoms depth secs acc n acc' n') (k : Key) :
    (acc' k).isSome ↔ (acc k).isSome ∨ k ∈ secs.map Prod.fst := by
  induction h with
  | nil => simp
  | cons hnone hv hrest ih =>
    rename_i k' data secs acc acc' n n₁ n' v
    rw [ih, List.map_cons, List.mem_cons]
    by_cases hk : k = k'
    · subst hk
      simp
    · rw [Function.update_of_ne hk]
      simp [hk]

theorem readAll_nodup {depth : ℕ} {secs : List (Key × Bytes)} {acc acc' : Sections} {n n' : ℕ}
    (h : ReadAll atoms depth secs acc n acc' n') :
    (secs.map Prod.fst).Nodup ∧ ∀ k ∈ secs.map Prod.fst, acc k = none := by
  induction h with
  | nil => exact ⟨List.nodup_nil, nofun⟩
  | cons hnone hv hrest ih =>
    rename_i k data secs acc acc' n n₁ n' v
    obtain ⟨hnodup, hrest'⟩ := ih
    have hk : k ∉ secs.map Prod.fst := by
      intro hk
      have hthere := hrest' k hk
      rw [Function.update_self] at hthere
      cases hthere
    refine ⟨List.nodup_cons.mpr ⟨hk, hnodup⟩, ?_⟩
    intro k' hk'
    rcases List.mem_cons.mp hk' with rfl | hin
    · exact hnone
    · have hne : k' ≠ k := fun he => hk (he ▸ hin)
      have hold := hrest' k' hin
      rwa [Function.update_of_ne hne] at hold

/-- What is under a key was read from the section of that key. -/
theorem readAll_value {depth : ℕ} {secs : List (Key × Bytes)} {acc acc' : Sections} {n n' : ℕ}
    (h : ReadAll atoms depth secs acc n acc' n') {k : Key} {v : Term} (hv : acc' k = some v) :
    acc k = some v ∨ ∃ data m m', (k, data) ∈ secs ∧
      sectionValue atoms k data depth m = .ok (v, m') := by
  induction h with
  | nil => exact .inl hv
  | cons hnone hread hrest ih =>
    rename_i k' data secs acc acc' n n₁ n' v'
    rcases ih hv with hold | ⟨data', m, m', hmem, hval⟩
    · by_cases hk : k = k'
      · subst hk
        rw [Function.update_self, Option.some.injEq] at hold
        subst hold
        exact .inr ⟨data, n, n₁, List.mem_cons_self, hread⟩
      · rw [Function.update_of_ne hk] at hold
        exact .inl hold
    · exact .inr ⟨data', m, m', List.mem_cons_of_mem _ hmem, hval⟩

theorem readAll_keep {depth : ℕ} {secs : List (Key × Bytes)} {acc acc' : Sections} {n n' : ℕ}
    (h : ReadAll atoms depth secs acc n acc' n') {k : Key} {v : Term} (hv : acc k = some v) :
    acc' k = some v := by
  induction h with
  | nil => exact hv
  | cons hnone hread hrest ih =>
    apply ih
    rw [Function.update_of_ne]
    · exact hv
    · rintro rfl
      rw [hnone] at hv
      cases hv

/-! ## What has been read -/

/-- The value `t` that the section `v` of key `k` stands for. -/
def PlainOf (k : Key) (t v : Term) : Prop :=
  match k with
  | .tables => PacksAll t v
  | _ => v = t

/-- Whether a section is decoded to nodes. -/
def Key.isRaw (k : Key) : Bool := k = .hash || k = .version

theorem sectionValue_raw {depth : ℕ} {k : Key} {data : Bytes} {n n₁ : ℕ} {v : Term}
    (hk : k.isRaw = true) (h : sectionValue atoms k data depth n = .ok (v, n₁)) :
    v = .binary data ∧ n₁ = n ∧ (k = .hash → data.length = 32) := by
  cases k <;> try cases hk
  · rw [show sectionValue atoms .hash data depth n = if data.length = 32 then
        .ok (.binary data, n) else refuse .snapshotCorrupt "the module hash is not 32 bytes" []
      from rfl] at h
    split at h
    · cases h
      exact ⟨rfl, rfl, fun _ => ‹_›⟩
    · cases h
  · cases h
    exact ⟨rfl, rfl, nofun⟩

theorem sectionValue_decoded {depth : ℕ} {k : Key} {data : Bytes} {n n₁ : ℕ} {v : Term}
    (hk : k.isRaw = false) (h : sectionValue atoms k data depth n = .ok (v, n₁)) :
    value atoms k data depth n = .ok (v, [], n₁) := by
  have hhash : k ≠ .hash := by
    rintro rfl
    cases hk
  have hversion : k ≠ .version := by
    rintro rfl
    cases hk
  rw [sectionValue_eq hhash hversion] at h
  split at h
  · rename_i heq
    cases h
    exact heq
  · cases h
  · cases h

theorem value_bounded {depth : ℕ} {k : Key} {data : Bytes} {n n₁ : ℕ} {v : Term} {r : Bytes}
    (h : value atoms k data depth n = .ok (v, r, n₁)) :
    v.AtomsIn atoms ∧ ∃ read : Term, PlainOf k read.settled v ∧ read.settled.depth ≤ depth ∧
      read.nodes + n₁ ≤ n := by
  by_cases hk : k = .tables
  · subst hk
    exact untables_bounded h
  · have hu : unterm atoms depth data n = .ok (v, r, n₁) := by
      unfold value at h
      split at h
      · exact absurd rfl hk
      · exact h
    have hb := unterm_bounded hu
    obtain ⟨read, rfl, hle⟩ := hb.nodes
    refine ⟨hb.atoms, read, ?_, hb.depth, hle⟩
    unfold PlainOf
    split
    · exact absurd rfl hk
    · rfl

/-- What a section costs. -/
def cost (k : Key) (t : Term) : ℕ := if k.isRaw then 0 else t.nodes

/-- All that was decoded, in whatever order, was paid for from one budget. -/
theorem readAll_cost {depth : ℕ} {secs : List (Key × Bytes)} {acc acc' : Sections} {n n' : ℕ}
    (h : ReadAll atoms depth secs acc n acc' n') :
    ∃ read : Key → Term,
      (∀ k ∈ secs.map Prod.fst, k.isRaw = false → ∃ v, acc' k = some v ∧ v.AtomsIn atoms ∧
        PlainOf k (read k).settled v ∧ (read k).settled.depth ≤ depth) ∧
      (secs.map fun s => cost s.1 (read s.1)).sum + n' ≤ n := by
  induction h with
  | nil => exact ⟨fun _ => .int 0, nofun, by simp⟩
  | cons hnone hv hrest ih =>
    rename_i k data secs acc acc' n n₁ n' v
    obtain ⟨read, hread, hsum⟩ := ih
    have hk : k ∉ secs.map Prod.fst := fun hmem => by
      have hthere := (readAll_nodup hrest).2 k hmem
      rw [Function.update_self] at hthere
      cases hthere
    have hlast : acc' k = some v := readAll_keep hrest (Function.update_self _ _ _)
    obtain ⟨t, ht, hcost⟩ : ∃ t, (k.isRaw = false → v.AtomsIn atoms ∧ PlainOf k t.settled v ∧
        t.settled.depth ≤ depth) ∧ cost k t + n₁ ≤ n := by
      by_cases hraw : k.isRaw = true
      · obtain ⟨-, rfl, -⟩ := sectionValue_raw hraw hv
        refine ⟨v, fun hf => ?_, by rw [cost, if_pos hraw]; omega⟩
        rw [hraw] at hf
        cases hf
      · obtain ⟨hatoms, t, hpl, hdepth, hle⟩ :=
          value_bounded (sectionValue_decoded (by simpa using hraw) hv)
        exact ⟨t, fun _ => ⟨hatoms, hpl, hdepth⟩, by rw [cost, if_neg hraw]; exact hle⟩
    refine ⟨Function.update read k t, ?_, ?_⟩
    · intro k' hk' hraw
      rcases List.mem_cons.mp hk' with rfl | hin
      · obtain ⟨hatoms, hpl, hdepth⟩ := ht hraw
        rw [Function.update_self]
        exact ⟨v, hlast, hatoms, hpl, hdepth⟩
      · have hne : k' ≠ k := by
          rintro rfl
          exact hk hin
        rw [Function.update_of_ne hne]
        exact hread k' hin hraw
    · have hsame : (secs.map fun s => cost s.1 (Function.update read k t s.1)) =
          secs.map fun s => cost s.1 (read s.1) := by
        apply List.map_congr_left
        intro s hs
        have hne : s.1 ≠ k := fun he => hk (he ▸ List.mem_map_of_mem hs)
        rw [Function.update_of_ne hne]
      rw [List.map_cons, List.sum_cons, hsame]
      dsimp only
      rw [Function.update_self]
      omega

theorem runOf_eq_some {t : Term} {run : ℕ × Bytes} (h : runOf t = some run) : t = runTerm run := by
  unfold runOf at h
  split at h
  · rename_i o b
    split at h
    · rename_i ho
      cases h
      rw [runTerm, Int.toNat_of_nonneg ho]
    · cases h
  · cases h

theorem mapM_eq_some {α : Type} {f : α → Term} {g : Term → Option α}
    (hg : ∀ t a, g t = some a → t = f a) {ts : List Term} {as : List α}
    (h : ts.mapM g = some as) : ts = as.map f := by
  induction ts generalizing as with
  | nil =>
    cases h
    rfl
  | cons t ts ih =>
    rw [List.mapM_cons] at h
    obtain ⟨a, ha, h⟩ := Option.bind_eq_some_iff.mp h
    obtain ⟨as', has, h⟩ := Option.bind_eq_some_iff.mp h
    cases h
    rw [List.map_cons, hg t a ha, ih has]

theorem memOf_eq_some {t : Term} {m : Mem} (h : memOf t = some m) : t = m.term := by
  unfold memOf at h
  split at h
  · rename_i p rs
    split at h
    · rename_i hp
      obtain ⟨runs, hruns, rfl⟩ := Option.map_eq_some_iff.mp h
      rw [Mem.term_eq, Int.toNat_of_nonneg hp, mapM_eq_some (fun _ _ => runOf_eq_some) hruns]
    · cases h
  · cases h

/-- What the sections hold of an image that is read. -/
structure Assembled (acc : Sections) (q : Parts) : Prop where
  hash : acc .hash = some (.binary q.hash)
  version : acc .version = some (.binary q.version)
  key : acc .key = some q.key
  shape : acc .shape = some q.shape
  globals : acc .globals = some q.globals
  tables : acc .tables = some q.tables
  mems : acc .mems = some q.memsTerm
  dropped : acc .dropped = some q.dropped
  hooks : acc .hooks = some q.hooks

theorem memsShaped_ok {acc : Sections} {q : Parts} (h : memsShaped acc = .ok q) :
    Assembled acc q := by
  unfold memsShaped at h
  split at h
  · rename_i mems hacc
    split at h
    · rename_i ms hms
      split at h
      · rename_i p hp
        cases h
        unfold Sections.parts at hp
        obtain ⟨hash, hhash, hp⟩ := Option.bind_eq_some_iff.mp hp
        obtain ⟨version, hversion, hp⟩ := Option.bind_eq_some_iff.mp hp
        obtain ⟨key, hkey, hp⟩ := Option.bind_eq_some_iff.mp hp
        obtain ⟨shape, hshape, hp⟩ := Option.bind_eq_some_iff.mp hp
        obtain ⟨globals, hglobals, hp⟩ := Option.bind_eq_some_iff.mp hp
        obtain ⟨tables, htables, hp⟩ := Option.bind_eq_some_iff.mp hp
        obtain ⟨dropped, hdropped, hp⟩ := Option.bind_eq_some_iff.mp hp
        obtain ⟨hooks, hhooks, hp⟩ := Option.bind_eq_some_iff.mp hp
        split at hp
        · cases hp
          refine ⟨hhash, hversion, hkey, hshape, hglobals, htables, ?_, hdropped, hhooks⟩
          rw [hacc, mapM_eq_some (fun _ _ => memOf_eq_some) hms]
          rfl
        · cases hp
      · cases h
    · cases h
  · cases h
  · cases h

/-! ## Complete images -/

theorem memsShaped_not_raised {acc : Sections} {mems : List Term}
    (hall : ∀ k ∈ Key.want, (acc k).isSome) (hmems : acc .mems = some (.list mems))
    (hhash : ∃ b, acc .hash = some (.binary b)) (hversion : ∃ b, acc .version = some (.binary b)) :
    memsShaped acc ≠ .raised := by
  obtain ⟨hash, hhash⟩ := hhash
  obtain ⟨version, hversion⟩ := hversion
  have hthere (k : Key) (hk : k ∈ Key.want) : ∃ v, acc k = some v :=
    Option.isSome_iff_exists.mp (hall k hk)
  obtain ⟨key, hkey⟩ := hthere .key (by decide)
  obtain ⟨shape, hshape⟩ := hthere .shape (by decide)
  obtain ⟨globals, hglobals⟩ := hthere .globals (by decide)
  obtain ⟨tables, htables⟩ := hthere .tables (by decide)
  obtain ⟨dropped, hdropped⟩ := hthere .dropped (by decide)
  obtain ⟨hooks, hhooks⟩ := hthere .hooks (by decide)
  rw [memsShaped, hmems]
  dsimp only
  cases mems.mapM memOf with
  | none =>
    intro h
    cases h
  | some ms =>
    simp [Sections.parts, hhash, hversion, hkey, hshape, hglobals, htables, hdropped, hhooks]

theorem missing_eq_nil {acc : Sections} :
    (Key.want.filter fun k => (acc k).isNone) = [] ↔ ∀ k ∈ Key.want, (acc k).isSome := by
  rw [List.filter_eq_nil_iff]
  simp only [Option.isNone_iff_eq_none, Option.isSome_iff_ne_none, ne_eq]

theorem complete_eq {acc : Sections} (hall : ∀ k ∈ Key.want, (acc k).isSome) :
    complete acc = memsShaped acc := by
  rw [complete, missing_eq_nil.mpr hall]

theorem complete_missing {acc : Sections} (hsome : ¬ ∀ k ∈ Key.want, (acc k).isSome) :
    ∃ e, complete acc = .error e := by
  rw [complete]
  split
  · rename_i hnil
    exact absurd (missing_eq_nil.mp hnil) hsome
  · exact ⟨_, rfl⟩

/-- Only a memories section that is not a list makes `complete/1` raise. -/
theorem complete_raised_iff {acc : Sections}
    (hhash : ∀ v, acc .hash = some v → ∃ b, v = .binary b)
    (hversion : ∀ v, acc .version = some v → ∃ b, v = .binary b) :
    complete acc = .raised ↔
      (∀ k ∈ Key.want, (acc k).isSome) ∧ ∀ items, acc .mems ≠ some (.list items) := by
  by_cases hall : ∀ k ∈ Key.want, (acc k).isSome
  · rw [complete_eq hall]
    constructor
    · intro hraised
      refine ⟨hall, fun items hmems => ?_⟩
      obtain ⟨hash, hh⟩ := Option.isSome_iff_exists.mp (hall .hash (by decide))
      obtain ⟨version, hv⟩ := Option.isSome_iff_exists.mp (hall .version (by decide))
      obtain ⟨b, rfl⟩ := hhash hash hh
      obtain ⟨b', rfl⟩ := hversion version hv
      exact memsShaped_not_raised hall hmems ⟨b, hh⟩ ⟨b', hv⟩ hraised
    · rintro ⟨-, hodd⟩
      obtain ⟨v, hmems⟩ := Option.isSome_iff_exists.mp (hall .mems (by decide))
      rw [memsShaped, hmems]
      split
      · rename_i items heq
        rw [Option.some.injEq] at heq
        subst heq
        exact absurd hmems (hodd items)
      · rfl
      · rename_i heq
        cases heq
  · obtain ⟨e, he⟩ := complete_missing hall
    rw [he]
    constructor
    · intro hraised
      cases hraised
    · rintro ⟨hthere, -⟩
      exact absurd hthere hall

theorem complete_ok {acc : Sections} {q : Parts} (h : complete acc = .ok q) :
    (∀ k ∈ Key.want, (acc k).isSome) ∧ Assembled acc q := by
  by_cases hall : ∀ k ∈ Key.want, (acc k).isSome
  · rw [complete_eq hall] at h
    exact ⟨hall, memsShaped_ok h⟩
  · obtain ⟨e, he⟩ := complete_missing hall
    rw [he] at h
    cases h

theorem mem_want (k : Key) : k ∈ Key.want := by
  cases k <;> decide

/-- All nine sections are there when each was there once. -/
theorem isSome_iff_perm {depth : ℕ} {secs : List (Key × Bytes)} {acc : Sections} {n n' : ℕ}
    (h : ReadAll atoms depth secs (fun _ => none) n acc n') :
    (∀ k ∈ Key.want, (acc k).isSome) ↔ (secs.map Prod.fst).Perm Key.want := by
  have hmem (k : Key) : (acc k).isSome ↔ k ∈ secs.map Prod.fst := by
    rw [readAll_isSome h]
    simp
  rw [List.perm_ext_iff_of_nodup (readAll_nodup h).1 (by decide)]
  constructor
  · intro hall k
    exact ⟨fun _ => mem_want k, fun hk => (hmem k).mp (hall k hk)⟩
  · intro hall k hk
    exact (hmem k).mpr ((hall k).mpr hk)

/-- The value of a raw section is its bytes. -/
theorem readAll_raw {depth : ℕ} {secs : List (Key × Bytes)} {acc : Sections} {n n' : ℕ}
    (h : ReadAll atoms depth secs (fun _ => none) n acc n') {k : Key} (hk : k.isRaw = true) {v : Term}
    (hv : acc k = some v) : ∃ b, v = .binary b ∧ (k = .hash → b.length = 32) := by
  rcases readAll_value h hv with hold | ⟨data, m, m', -, hval⟩
  · cases hold
  · obtain ⟨rfl, -, hlen⟩ := sectionValue_raw hk hval
    exact ⟨data, rfl, hlen⟩

/-- The memories are a list when their section begins like one. -/
theorem readAll_mems {depth : ℕ} {secs : List (Key × Bytes)} {acc : Sections} {n n' : ℕ}
    (h : ReadAll atoms depth secs (fun _ => none) n acc n') {data : Bytes}
    (hdata : (Key.mems, data) ∈ secs) :
    (∃ items, acc .mems = some (.list items)) ↔ data.head? = some 4 := by
  have hthere : (acc .mems).isSome :=
    (readAll_isSome h .mems).mpr (.inr (List.mem_map_of_mem hdata))
  obtain ⟨v, hv⟩ := Option.isSome_iff_exists.mp hthere
  rcases readAll_value h hv with hold | ⟨data', m, m', hmem, hval⟩
  · cases hold
  · -- a key is there once, so this is the section that was read
    have hsame : data' = data := by
      have heq := List.inj_on_of_nodup_map (readAll_nodup h).1 hmem hdata rfl
      exact (Prod.mk.inj heq).2
    subst hsame
    have hread : unterm atoms depth data' m = .ok (v, [], m') :=
      sectionValue_decoded (k := .mems) rfl hval
    rw [← unterm_head hread, hv]
    simp only [Option.some.injEq]

/-! ## Files -/

theorem decode_header (node : Node) (file : Bytes) (lim : Limits) :
    (∃ e, decode node file lim = .error e) ∨
    ∃ r, file = magic ++ be 2 format ++ be 4 imageAbi ++ r ∧
      decode node file lim = decodeStored node r lim := by
  cases hhead : (strip? magic file).bind (readBe 2) with
  | none =>
    left
    rw [decode, hhead]
    exact ⟨_, rfl⟩
  | some found =>
    obtain ⟨found, r⟩ := found
    cases habi : readBe 4 r with
    | none =>
      left
      rw [decode, hhead]
      dsimp only
      rw [habi]
      exact ⟨_, rfl⟩
    | some abi =>
      obtain ⟨abi, r'⟩ := abi
      have hdecode : decode node file lim =
          if found ≠ format then
            .refuse .snapshotFormatUnknown "this image was written by another format"
              [("found", .nat found), ("expected", .nat format)]
          else if abi ≠ imageAbi then
            .refuse .snapshotAbiMismatch "this image was written by another runtime"
              [("found", .nat abi), ("expected", .nat imageAbi)]
          else decodeStored node r' lim := by
        rw [decode, hhead]
        dsimp only
        rw [habi]
      split at hdecode
      · exact .inl ⟨_, hdecode⟩
      · split at hdecode
        · exact .inl ⟨_, hdecode⟩
        · rename_i hfound habi'
          rw [not_not] at hfound habi'
          subst hfound habi'
          obtain ⟨r₀, hstrip, hread⟩ := Option.bind_eq_some_iff.mp hhead
          refine .inr ⟨r', ?_, hdecode⟩
          rw [strip?_eq_some.mp hstrip, (readBe_eq_some hread).1, (readBe_eq_some habi).1]
          simp

theorem decodeStored_cases (node : Node) (r : Bytes) (lim : Limits) :
    (∃ e, decodeStored node r lim = .error e) ∨
    ∃ payload, r = be 4 payload.length ++ (node.sha256 payload ++ payload) ∧
      payload.length < 2 ^ 32 ∧ payload.length ≤ lim.stored ∧
      decodeStored node r lim = Snapshot.payload node payload lim := by
  generalize hstored : decodeStored node r lim = answer
  rw [decodeStored] at hstored
  split at hstored
  · rename_i len expected rest hhead
    obtain ⟨⟨len', r₁⟩, hlen, hrest⟩ := Option.bind_eq_some_iff.mp hhead
    obtain ⟨⟨expected', rest'⟩, hsplit, heq⟩ := Option.map_eq_some_iff.mp hrest
    simp only [Prod.mk.injEq] at heq
    obtain ⟨rfl, rfl, rfl⟩ := heq
    obtain ⟨rfl, hlt⟩ := readBe_eq_some hlen
    obtain ⟨rfl, -⟩ := splitAt?_eq_some hsplit
    split at hstored
    · exact .inl ⟨_, hstored.symm⟩
    · split at hstored
      · rename_i hle hlength
        rw [digest] at hstored
        split at hstored
        · rename_i hdigest
          right
          refine ⟨rest', ?_, by omega, by omega, hstored.symm⟩
          rw [hlength, hdigest]
        · exact .inl ⟨_, hstored.symm⟩
      · exact .inl ⟨_, hstored.symm⟩
  · exact .inl ⟨_, hstored.symm⟩

/-- A file is refused, or it is a payload behind its digest whose body is gone through. -/
theorem decode_cases (node : Node) (file : Bytes) (lim : Limits) :
    (∃ e, decode node file lim = .error e) ∨
    ∃ payload b, file = imageOf node payload ∧ payload.length < 2 ^ 32 ∧
      payload.length ≤ lim.stored ∧ bodyOf node payload lim = .ok b ∧
      decode node file lim =
        sections node.atoms lim.depth b.length b (fun _ => none) lim.nodes := by
  rcases decode_header node file lim with herror | ⟨r, hfile, hdecode⟩
  · exact .inl herror
  · rcases decodeStored_cases node r lim with ⟨e, he⟩ | ⟨payload, rfl, hlt, hle, hstored⟩
    · exact .inl ⟨e, by rw [hdecode, he]⟩
    · cases hbody : bodyOf node payload lim with
      | error e =>
        left
        rw [hdecode, hstored, Snapshot.payload, hbody]
        exact ⟨e, rfl⟩
      | ok b =>
        right
        refine ⟨payload, b, ?_, hlt, hle, hbody, ?_⟩
        · rw [hfile, imageOf]
          simp
        · rw [hdecode, hstored, Snapshot.payload, hbody]

/-- What is promised of an image that is read.  `read` are the values that were decoded, of the
tables before they were packed. -/
structure Decoded (node : Node) (file : Bytes) (lim : Limits) (q : Parts) : Prop where
  /-- The body is nine sections, each once. -/
  once : ∃ payload b secs, file = imageOf node payload ∧ bodyOf node payload lim = .ok b ∧
    b = written secs ∧ (secs.map Prod.fst).Perm Key.want
  hash : q.hash.length = 32
  bounded : ∃ read : Key → Term,
    (read .key).settled = q.key ∧ (read .shape).settled = q.shape ∧
    (read .globals).settled = q.globals ∧ PacksAll (read .tables).settled q.tables ∧
    (read .mems).settled = q.memsTerm ∧ (read .dropped).settled = q.dropped ∧
    (read .hooks).settled = q.hooks ∧
    nodesAll (([.key, .shape, .globals, .tables, .mems, .dropped, .hooks] : List Key).map read) ≤
      lim.nodes ∧
    ∀ k : Key, k.isRaw = false → (read k).settled.depth ≤ lim.depth
  /-- Every atom is one the node had. -/
  atoms : AtomsInAll node.atoms
    [q.key, q.shape, q.globals, q.tables, q.memsTerm, q.dropped, q.hooks]

/-- The file is a payload whose nine sections can all be read, and its memories do not begin like
a list. -/
def OddMems (node : Node) (file : Bytes) (lim : Limits) : Prop :=
  ∃ payload b secs acc n, file = imageOf node payload ∧ payload.length < 2 ^ 32 ∧
    payload.length ≤ lim.stored ∧ bodyOf node payload lim = .ok b ∧ b = written secs ∧
    (∀ s ∈ secs, s.2.length < 2 ^ 32) ∧
    ReadAll node.atoms lim.depth secs (fun _ => none) lim.nodes acc n ∧
    (secs.map Prod.fst).Perm Key.want ∧
    ∀ data, (Key.mems, data) ∈ secs → data.head? ≠ some 4

/-- `decode/2` answers, and what it answers with `ok` is a bounded image. -/
def Total (node : Node) (file : Bytes) (lim : Limits) : Prop :=
  decode node file lim ≠ .raised ∧ ∀ q, decode node file lim = .ok q → Decoded node file lim q

/-- The file of a body that is gone through to the end. -/
theorem decode_read {payload b : Bytes} {secs : List (Key × Bytes)} {acc : Sections} {n : ℕ}
    (hlen : payload.length < 2 ^ 32) (hle : payload.length ≤ lim.stored)
    (hbody : bodyOf node payload lim = .ok b) (hb : b = written secs)
    (hshort : ∀ s ∈ secs, s.2.length < 2 ^ 32)
    (hread : ReadAll node.atoms lim.depth secs (fun _ => none) lim.nodes acc n) :
    decode node (imageOf node payload) lim = complete acc := by
  rw [decode_image hlen hle, Snapshot.payload, hbody]
  subst hb
  apply sections_written hread _ hshort
  -- a section takes at least its tag
  clear hshort hread hbody
  induction secs with
  | nil => exact Nat.zero_le _
  | cons s secs ih =>
    rw [written, List.flatMap_cons, List.length_append, List.length_cons, sect, List.length_cons]
    rw [written] at ih
    omega

theorem sum_cost {secs : List (Key × Bytes)} (hperm : (secs.map Prod.fst).Perm Key.want)
    (read : Key → Term) :
    (secs.map fun s => cost s.1 (read s.1)).sum =
      nodesAll (([.key, .shape, .globals, .tables, .mems, .dropped, .hooks] : List Key).map
        read) := by
  have hsum := (hperm.map fun k => cost k (read k)).sum_nat
  rw [List.map_map] at hsum
  rw [show (fun s : Key × Bytes => cost s.1 (read s.1)) = (fun k => cost k (read k)) ∘ Prod.fst
    from rfl, hsum]
  simp [Key.want, cost, Key.isRaw, nodesAll]

theorem decoded_of_ok {file : Bytes} {q : Parts} (h : decode node file lim = .ok q) :
    Decoded node file lim q := by
  rcases decode_cases node file lim with ⟨e, he⟩ | ⟨payload, b, hfile, hlen, hle, hbody, hdecode⟩
  · rw [he] at h
    cases h
  · rw [hdecode] at h
    rcases @sections_cases node.atoms lim.depth b.length b (fun _ => none) lim.nodes
      (Nat.le_refl _) with ⟨e, he⟩ | ⟨secs, acc, n, hb, hshort, hread, hsections⟩
    · rw [he] at h
      cases h
    · rw [hsections] at h
      obtain ⟨hall, hq⟩ := complete_ok h
      have hperm := (isSome_iff_perm hread).mp hall
      obtain ⟨read, hvalues, hsum⟩ := readAll_cost hread
      rw [sum_cost hperm] at hsum
      -- what was read under a key that is decoded
      have hval (k : Key) (hraw : k.isRaw = false) : ∃ v, acc k = some v ∧
          v.AtomsIn node.atoms ∧ PlainOf k (read k).settled v ∧
          (read k).settled.depth ≤ lim.depth :=
        hvalues k (hperm.mem_iff.mpr (mem_want k)) hraw
      have heq (k : Key) (v : Term) (hraw : k.isRaw = false) (hv : acc k = some v) :
          v.AtomsIn node.atoms ∧ PlainOf k (read k).settled v := by
        obtain ⟨v', hv', hatoms, hplain, -⟩ := hval k hraw
        rw [hv, Option.some.injEq] at hv'
        subst hv'
        exact ⟨hatoms, hplain⟩
      obtain ⟨hkeyA, hkey⟩ := heq .key _ rfl hq.key
      obtain ⟨hshapeA, hshape⟩ := heq .shape _ rfl hq.shape
      obtain ⟨hglobalsA, hglobals⟩ := heq .globals _ rfl hq.globals
      obtain ⟨htablesA, htables⟩ := heq .tables _ rfl hq.tables
      obtain ⟨hmemsA, hmems⟩ := heq .mems _ rfl hq.mems
      obtain ⟨hdroppedA, hdropped⟩ := heq .dropped _ rfl hq.dropped
      obtain ⟨hhooksA, hhooks⟩ := heq .hooks _ rfl hq.hooks
      constructor
      · exact ⟨payload, b, secs, hfile, hbody, hb, hperm⟩
      · obtain ⟨b', heq', hlen'⟩ := readAll_raw hread rfl hq.hash
        cases heq'
        exact hlen' rfl
      · refine ⟨read, hkey.symm, hshape.symm, hglobals.symm, htables, hmems.symm, hdropped.symm,
          hhooks.symm, by omega, fun k hraw => ?_⟩
        obtain ⟨-, -, -, -, hdepth⟩ := hval k hraw
        exact hdepth
      · simp only [AtomsInAll]
        exact ⟨hkeyA, hshapeA, hglobalsA, htablesA, hmemsA, hdroppedA, hhooksA, trivial⟩

theorem raised_iff (file : Bytes) : decode node file lim = .raised ↔ OddMems node file lim := by
  have hraw {secs : List (Key × Bytes)} {acc : Sections} {n : ℕ}
      (hread : ReadAll node.atoms lim.depth secs (fun _ => none) lim.nodes acc n) (k : Key)
      (hk : k.isRaw = true) (v : Term) (hv : acc k = some v) : ∃ b, v = .binary b := by
    obtain ⟨b, hb, -⟩ := readAll_raw hread hk hv
    exact ⟨b, hb⟩
  constructor
  · intro hraised
    rcases decode_cases node file lim with
      ⟨e, he⟩ | ⟨payload, b, hfile, hlen, hle, hbody, hdecode⟩
    · rw [he] at hraised
      cases hraised
    · rw [hdecode] at hraised
      rcases @sections_cases node.atoms lim.depth b.length b (fun _ => none) lim.nodes
        (Nat.le_refl _) with ⟨e, he⟩ | ⟨secs, acc, n, hb, hshort, hread, hsections⟩
      · rw [he] at hraised
        cases hraised
      · rw [hsections, complete_raised_iff (hraw hread .hash rfl) (hraw hread .version rfl)]
          at hraised
        refine ⟨payload, b, secs, acc, n, hfile, hlen, hle, hbody, hb, hshort, hread,
          (isSome_iff_perm hread).mp hraised.1, fun data hdata hhead => ?_⟩
        obtain ⟨items, hitems⟩ := (readAll_mems hread hdata).mpr hhead
        exact hraised.2 items hitems
  · rintro ⟨payload, b, secs, acc, n, rfl, hlen, hle, hbody, hb, hshort, hread, hperm, hodd⟩
    rw [decode_read hlen hle hbody hb hshort hread,
      complete_raised_iff (hraw hread .hash rfl) (hraw hread .version rfl)]
    refine ⟨(isSome_iff_perm hread).mpr hperm, fun items hitems => ?_⟩
    obtain ⟨s, hs, hkey⟩ := List.mem_map.mp (hperm.mem_iff.mpr (mem_want .mems))
    obtain ⟨k, data⟩ := s
    cases hkey
    exact hodd data hs ((readAll_mems hread hs).mp ⟨items, hitems⟩)

theorem total_iff (node : Node) (file : Bytes) (lim : Limits) :
    Total node file lim ↔ ¬ OddMems node file lim := by
  rw [← raised_iff]
  constructor
  · exact fun h => h.1
  · exact fun h => ⟨h, fun q hq => decoded_of_ok hq⟩

/-- Nine sections whose memories are the integer 0. -/
def oddBody : Bytes :=
  sect Key.hash.tag (List.replicate 32 7) ++ sect Key.version.tag (ascii "3") ++
    written ([.key, .shape, .globals, .tables, .mems, .dropped, .hooks].map fun k =>
      (k, 0 :: be 8 0))

/-- A node with the digest of the one payload of that body. -/
def oddNode : Node where
  sha256 := fun _ => [53, 149, 97, 120, 167, 194, 5, 168, 188, 1, 45, 180, 238, 131, 82, 6, 107, 97,
    141, 164, 120, 177, 211, 27, 70, 120, 24, 17, 26, 253, 106, 11]
  compress := id
  inflate := fun b => { continued := [], finished := some b }
  atoms := fun _ => false
  sha256_length := fun _ => rfl
  lossless := lossless_id

theorem not_total : ¬ ∀ node file lim, Total node file lim := by
  intro hall
  have hraised : decode oddNode (imageOf oddNode (payloadOf oddNode oddBody))
      ⟨1000, 1000, 64, 1000⟩ = .raised := by decide +kernel
  exact (hall _ _ _).1 hraised

end ErlangWasm.Snapshot
