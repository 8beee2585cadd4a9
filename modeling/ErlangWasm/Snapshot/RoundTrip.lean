import ErlangWasm.Snapshot.File
import ErlangWasm.Snapshot.Tables

/-!
# What is saved can be loaded

`representable` walks six of the seven values of an image; the reader spends one budget on all
seven, the memories among them, and refuses a collection that ends with none of it left.  An image
that `representable` lets through is read back exactly when the memories fit as well and a node is
left for the hooks.
-/

namespace ErlangWasm.Snapshot

open Reasoning.Bytes

variable {node : Node} {p : Parts} {lim : Limits} {atoms : Bytes → Bool}

/-! ## The walk before a save -/

mutual

theorem walkTerm_ok : ∀ (t : Term) (depth n n' : ℕ), walkTerm t depth n = .ok n' →
    t.InRange ∧ t.depth ≤ depth ∧ ∃ bs, term t = some bs
  | .scalar s, depth, n, n', h => by
      rw [walkTerm] at h
      split at h
      · cases h
      · rename_i hdepth
        split at h
        · cases h
        · have hs : (Term.scalar s).InRange ∧ ∃ bs, s.bytes = some bs := by
            cases s with
            | int i =>
              simp only [Scalar.walk] at h
              split at h
              · rename_i hi
                exact ⟨hi, _, rfl⟩
              · cases h
            | float f | binary b | atom a => exact ⟨trivial, _, rfl⟩
            | improper => cases h
            | other => cases h
          refine ⟨hs.1, ?_, ?_⟩
          · rw [Term.depth]
            omega
          · rw [term]
            exact hs.2
  | .coll k items, depth, n, n', h => by
      rw [walkTerm] at h
      split at h
      · cases h
      · split at h
        · cases h
        · split at h
          · obtain ⟨hrange, hdepth, bs, hbs⟩ := walkChildren_ok items (depth - 1) _ n' h
            refine ⟨?_, ?_, ?_⟩
            · rw [Term.InRange]
              exact hrange
            · rw [Term.depth]
              omega
            · rw [term, hbs]
              exact ⟨_, rfl⟩
          · cases h

theorem walkChildren_ok : ∀ (ts : List Term) (depth n n' : ℕ), walkChildren ts depth n = .ok n' →
    InRangeAll ts ∧ depthAll ts ≤ depth ∧ ∃ bs, terms ts = some bs
  | [], depth, n, n', _ => by
      rw [InRangeAll, depthAll, terms]
      exact ⟨trivial, Nat.zero_le _, _, rfl⟩
  | t :: ts, depth, n, n', h => by
      rw [walkChildren] at h
      split at h
      · rename_i n₁ ht
        obtain ⟨hrange, hdepth, bs, hbs⟩ := walkTerm_ok t depth n n₁ ht
        obtain ⟨hranges, hdepths, bss, hbss⟩ := walkChildren_ok ts depth n₁ n' h
        rw [InRangeAll, depthAll, terms, hbs, hbss]
        exact ⟨⟨hrange, hranges⟩, by omega, _, rfl⟩
      · cases h

end

theorem walkTerms_ok {ts : List Term} {depth n : ℕ} (h : walkTerms ts depth n = .ok ()) :
    ∀ t ∈ ts, t.InRange ∧ t.depth ≤ depth ∧ ∃ bs, term t = some bs := by
  induction ts generalizing n with
  | nil => nofun
  | cons t ts ih =>
    rw [walkTerms] at h
    split at h
    · rename_i n₁ ht
      intro u hu
      rcases List.mem_cons.mp hu with rfl | hu
      · exact walkTerm_ok u depth n n₁ ht
      · exact ih h u hu
    · cases h

/-! ## The memories -/

/-- A memory through the 64-bit fields. -/
def Mem.reread (m : Mem) : Mem where
  pages := m.pages % 2 ^ 63
  runs := m.runs.map fun run => (run.1 % 2 ^ 63, run.2)

def Mem.Fits (m : Mem) : Prop :=
  m.pages < 2 ^ 63 ∧ ∀ run ∈ m.runs, run.1 < 2 ^ 63

theorem reread_eq_iff (m : Mem) : m.reread = m ↔ m.Fits := by
  constructor
  · intro h
    have hpages : m.pages % 2 ^ 63 = m.pages := congrArg Mem.pages h
    have hruns : m.runs.map (fun run => (run.1 % 2 ^ 63, run.2)) = m.runs := congrArg Mem.runs h
    refine ⟨by omega, ?_⟩
    intro run hrun
    obtain ⟨i, hi, rfl⟩ := List.getElem_of_mem hrun
    have hget : (m.runs.map fun run => (run.1 % 2 ^ 63, run.2))[i]? = m.runs[i]? := by rw [hruns]
    rw [List.getElem?_map, List.getElem?_eq_getElem hi, Option.map_some, Option.some.injEq] at hget
    have hoffset := congrArg Prod.fst hget
    dsimp only at hoffset
    omega
  · rintro ⟨hpages, hruns⟩
    have hmap : m.runs.map (fun run => (run.1 % 2 ^ 63, run.2)) = m.runs := by
      rw [List.map_congr_left (g := id), List.map_id]
      intro run hrun
      have hlt := hruns run hrun
      rw [Nat.mod_eq_of_lt hlt]
      rfl
    rw [Mem.reread, hmap, Nat.mod_eq_of_lt hpages]

theorem unzigzag_field (n : ℕ) : unzigzag (zigzag n % 256 ^ 8) = (n % 2 ^ 63 : ℕ) := by
  unfold unzigzag zigzag
  split <;> split <;> omega

theorem rereadAll_map {α : Type} (f : α → Term) (l : List α) :
    rereadAll (l.map f) = l.map fun a => (f a).reread := by
  induction l with
  | nil => rfl
  | cons a l ih => rw [List.map_cons, rereadAll, List.map_cons, ih]

theorem soundAll_map {α : Type} {f : α → Term} {l : List α} (h : ∀ a ∈ l, (f a).Sound) :
    SoundAll (l.map f) := by
  induction l with
  | nil => rw [List.map_nil, SoundAll]; trivial
  | cons a l ih =>
    rw [List.map_cons, SoundAll]
    exact ⟨h a List.mem_cons_self, ih fun b hb => h b (List.mem_cons_of_mem a hb)⟩

theorem atomsInAll_map {α : Type} {f : α → Term} {l : List α} (h : ∀ a ∈ l, (f a).AtomsIn atoms) :
    AtomsInAll atoms (l.map f) := by
  induction l with
  | nil => rw [List.map_nil, AtomsInAll]; trivial
  | cons a l ih =>
    rw [List.map_cons, AtomsInAll]
    exact ⟨h a List.mem_cons_self, ih fun b hb => h b (List.mem_cons_of_mem a hb)⟩

/-- One run of a memory as it is written. -/
def runTerm (run : ℕ × Bytes) : Term := .tuple [.int run.1, .binary run.2]

theorem Mem.term_eq (m : Mem) : m.term = .tuple [.int m.pages, .list (m.runs.map runTerm)] := rfl

theorem reread_runTerm (run : ℕ × Bytes) :
    (runTerm run).reread = runTerm (run.1 % 2 ^ 63, run.2) := by
  simp only [runTerm, Term.reread, rereadAll, Scalar.reread, Kind.build, unzigzag_field]

theorem reread_memTerm (m : Mem) : m.term.reread = m.reread.term := by
  rw [Mem.term_eq, Mem.term_eq]
  simp only [Term.reread, rereadAll, rereadAll_map, reread_runTerm, Scalar.reread, Kind.build,
    unzigzag_field, Mem.reread, List.map_map]
  rfl

theorem reread_memsTerm (p : Parts) :
    p.memsTerm.reread = .list (p.mems.map fun m => m.reread.term) := by
  rw [Parts.memsTerm, Term.reread, rereadAll_map]
  simp only [reread_memTerm]
  rfl

theorem runOf_runTerm (run : ℕ × Bytes) : runOf (runTerm run) = some run := by
  have hnonneg : (0 : ℤ) ≤ (run.1 : ℤ) := Int.natCast_nonneg _
  show (if (0 : ℤ) ≤ (run.1 : ℤ) then some ((run.1 : ℤ).toNat, run.2) else none) = _
  rw [if_pos hnonneg, Int.toNat_natCast]

theorem mapM_map_some {α β : Type} {f : α → Term} {g : Term → Option β} {h : α → β} {l : List α}
    (hfg : ∀ a ∈ l, g (f a) = some (h a)) : (l.map f).mapM g = some (l.map h) := by
  induction l with
  | nil => rfl
  | cons a l ih =>
    rw [List.map_cons, List.mapM_cons, hfg a List.mem_cons_self,
      ih fun b hb => hfg b (List.mem_cons_of_mem a hb)]
    rfl

theorem memOf_term (m : Mem) : memOf m.term = some m := by
  have hruns : (m.runs.map runTerm).mapM runOf = some m.runs := by
    rw [mapM_map_some (h := id) fun run _ => runOf_runTerm run, List.map_id]
  have hnonneg : (0 : ℤ) ≤ (m.pages : ℤ) := Int.natCast_nonneg _
  rw [Mem.term_eq]
  show (if (0 : ℤ) ≤ (m.pages : ℤ) then ((m.runs.map runTerm).mapM runOf).map _ else none) = _
  rw [if_pos hnonneg, hruns, Int.toNat_natCast]
  rfl

theorem sound_memsTerm (p : Parts) : p.memsTerm.Sound := by
  rw [Parts.memsTerm, Term.Sound]
  refine ⟨nofun, soundAll_map fun m _ => ?_⟩
  have hruns : SoundAll (m.runs.map runTerm) := by
    apply soundAll_map
    intro run _
    simp [runTerm, Term.Sound, SoundAll]
  simp [Mem.term_eq, Term.Sound, SoundAll, hruns]

theorem atomsIn_memsTerm (p : Parts) : p.memsTerm.AtomsIn atoms := by
  rw [Parts.memsTerm, Term.AtomsIn]
  apply atomsInAll_map
  intro m _
  have hruns : AtomsInAll atoms (m.runs.map runTerm) := by
    apply atomsInAll_map
    intro run _
    simp [runTerm, Term.AtomsIn, AtomsInAll]
  simp [Mem.term_eq, Term.AtomsIn, AtomsInAll, hruns]

/-! ## The sections -/

/-- The value read for section `k`, written as `t`. -/
def ReadAs (k : Key) (t v : Term) : Prop :=
  match k with
  | .tables => PacksAll t v
  | _ => v = t.reread

/-- A value and the bytes of its section. -/
structure Row where
  key : Key
  term : Term
  data : Bytes

/-- A row whose section can be read: its own bytes, short enough for the length field. -/
structure Row.Written (atoms : Bytes → Bool) (r : Row) : Prop where
  hash : r.key ≠ .hash
  version : r.key ≠ .version
  bytes : Snapshot.term r.term = some r.data
  short : r.data.length < 2 ^ 32
  sound : r.term.Sound
  atoms : r.term.AtomsIn atoms
  tables : r.key = .tables → r.term.InRange

def contents (rows : List Row) : Bytes :=
  rows.flatMap fun r => sect r.key.tag r.data

/-- The ceilings leave room for these values, one after another. -/
def Paid (depth : ℕ) : List Term → ℕ → Prop
  | [], _ => True
  | t :: ts, n => t.depth ≤ depth ∧ t.need ≤ n ∧ Paid depth ts (n - t.nodes)

def setAll (acc : Sections) : List Row → List Term → Sections
  | r :: rows, v :: vs => setAll (Function.update acc r.key (some v)) rows vs
  | _, _ => acc

theorem Term.need_pos (t : Term) : 0 < t.need :=
  t.nodes_pos.trans_le t.nodes_le_need

/-- Every value before the last needs no more than its nodes, since another follows. -/
theorem paid_append {depth : ℕ} (ts : List Term) (u : Term) (n : ℕ) :
    Paid depth (ts ++ [u]) n ↔
      depthAll ts ≤ depth ∧ u.depth ≤ depth ∧ nodesAll ts + u.need ≤ n := by
  induction ts generalizing n with
  | nil =>
    rw [List.nil_append, Paid, Paid, depthAll, nodesAll]
    simp
  | cons t ts ih =>
    rw [List.cons_append, Paid, ih, depthAll, nodesAll]
    have h1 := t.nodes_le_need
    have h2 := t.need_le
    have h3 := u.need_pos
    constructor
    · rintro ⟨ht, hneed, hts, hu, hsum⟩
      exact ⟨by omega, hu, by omega⟩
    · rintro ⟨hts, hu, hsum⟩
      exact ⟨by omega, by omega, by omega, hu, by omega⟩

theorem keyFor_tag (k : Key) : keyFor k.tag = some k := by
  cases k <;> decide

theorem splitSection_sect {tag : UInt8} {data : Bytes} (h : data.length < 2 ^ 32) (rest : Bytes) :
    splitSection (sect tag data ++ rest) = some (tag, data, rest) := by
  have hlen : data.length < 256 ^ 4 := by omega
  show ((readBe 4 ((be 4 data.length ++ data) ++ rest)).bind _).map _ = _
  rw [List.append_assoc, readBe_be, Nat.mod_eq_of_lt hlen, Option.bind_some]
  show (splitAt? data.length (data ++ rest)).map _ = _
  rw [splitAt?_append rfl]
  rfl

/-- A section that is neither the hash nor the version holds one value and nothing after it. -/
theorem sectionValue_eq {k : Key} (hhash : k ≠ .hash) (hversion : k ≠ .version) (data : Bytes)
    (depth n : ℕ) : sectionValue atoms k data depth n =
      match value atoms k data depth n with
      | .ok (v, [], nodes) => .ok (v, nodes)
      | .ok (_, _ :: _, _) => refuse .snapshotCorrupt "a section has trailing bytes"
          [("section", .nat k.tag.toNat)]
      | .error e => .error e := by
  unfold sectionValue
  split
  · exact absurd rfl hhash
  · exact absurd rfl hversion
  · rfl

theorem sectionValue_row {r : Row} (hr : r.Written atoms) (depth n : ℕ) :
    (r.term.depth ≤ depth ∧ r.term.need ≤ n → ∃ v,
      sectionValue atoms r.key r.data depth n = .ok (v, n - r.term.nodes) ∧
        ReadAs r.key r.term v) ∧
    (¬ (r.term.depth ≤ depth ∧ r.term.need ≤ n) → ∃ e,
      sectionValue atoms r.key r.data depth n = .error e) := by
  rw [sectionValue_eq hr.hash hr.version]
  by_cases hk : r.key = .tables
  · obtain ⟨haccepts, hrefuses⟩ := untables_term hr.bytes hr.short hr.sound (hr.tables hk) hr.atoms
      depth n []
    rw [List.append_nil] at haccepts hrefuses
    rw [hk]
    constructor
    · intro hp
      obtain ⟨v, hv, hpacks⟩ := haccepts hp
      exact ⟨v, by simp only [value, hv], hpacks⟩
    · intro hp
      obtain ⟨e, he⟩ := hrefuses hp
      exact ⟨e, by simp only [value, he]⟩
  · obtain ⟨haccepts, hrefuses⟩ := unterm_term r.term r.data hr.bytes hr.short hr.sound hr.atoms
      depth n []
    rw [List.append_nil] at haccepts hrefuses
    have hplain : value atoms r.key r.data depth n = unterm atoms depth r.data n := by
      unfold value
      split
      · exact absurd ‹_› hk
      · rfl
    rw [hplain]
    constructor
    · intro hp
      refine ⟨r.term.reread, by simp only [haccepts hp], ?_⟩
      unfold ReadAs
      split
      · exact absurd ‹_› hk
      · rfl
    · intro hp
      obtain ⟨e, he⟩ := hrefuses hp
      exact ⟨e, by simp only [he]⟩

/-- One section at the head of the body, under a key that is not there yet. -/
theorem sections_sect {depth : ℕ} {k : Key} {data : Bytes} {acc : Sections}
    (hlen : data.length < 2 ^ 32) (hnone : acc k = none) (rest : Bytes) (n fuel : ℕ) :
    sections atoms depth (fuel + 1) (sect k.tag data ++ rest) acc n =
      match sectionValue atoms k data depth n with
      | .ok (v, nodes) => sections atoms depth fuel rest (Function.update acc k (some v)) nodes
      | .error e => .error e := by
  have hsection : section' atoms depth k.tag data acc n =
      match sectionValue atoms k data depth n with
      | .ok (v, nodes) => .ok (Function.update acc k (some v), nodes)
      | .error e => .error e := by
    cases hval : sectionValue atoms k data depth n with
    | ok p | error e => simp [section', keyFor_tag, hnone, hval]
  have hsplit := @splitSection_sect k.tag data hlen rest
  have hcons : sect k.tag data ++ rest = k.tag :: (be 4 data.length ++ data ++ rest) := rfl
  rw [hcons] at hsplit ⊢
  rw [sections]
  simp only [hsplit, hsection]
  cases sectionValue atoms k data depth n with
  | ok p => rfl
  | error e => rfl

/-- Sections are read one after another, each under its own key, as long as they are paid for. -/
theorem sections_rows {depth : ℕ} (rows : List Row) {acc : Sections} {n fuel : ℕ}
    (hrows : ∀ r ∈ rows, r.Written atoms) (hkeys : (rows.map Row.key).Nodup)
    (hacc : ∀ r ∈ rows, acc r.key = none) (hfuel : rows.length ≤ fuel) :
    (Paid depth (rows.map Row.term) n → ∃ vs,
      List.Forall₂ (fun r v => ReadAs r.key r.term v) rows vs ∧
        sections atoms depth fuel (contents rows) acc n = complete (setAll acc rows vs)) ∧
    (¬ Paid depth (rows.map Row.term) n → ∃ e,
      sections atoms depth fuel (contents rows) acc n = .error e) := by
  induction rows generalizing acc n fuel with
  | nil =>
    refine ⟨fun _ => ⟨[], .nil, ?_⟩, fun hp => absurd trivial hp⟩
    cases fuel <;> rfl
  | cons r rows ih =>
    cases fuel with
    | zero => simp at hfuel
    | succ fuel =>
      have hr := hrows r List.mem_cons_self
      rw [List.map_cons, List.nodup_cons] at hkeys
      have hnone : acc r.key = none := hacc r List.mem_cons_self
      have hacc' : ∀ v, ∀ r' ∈ rows, Function.update acc r.key (some v) r'.key = none := by
        intro v r' hr'
        have hne : r'.key ≠ r.key := fun he => hkeys.1 (he ▸ List.mem_map_of_mem hr')
        rw [Function.update_of_ne hne]
        exact hacc r' (List.mem_cons_of_mem r hr')
      have hnext := @sections_sect atoms depth r.key r.data acc hr.short hnone (contents rows) n fuel
      obtain ⟨haccepts, hrefuses⟩ := sectionValue_row hr depth n
      rw [show contents (r :: rows) = sect r.key.tag r.data ++ contents rows from rfl, hnext,
        List.map_cons, Paid]
      by_cases hhead : r.term.depth ≤ depth ∧ r.term.need ≤ n
      · obtain ⟨v, hv, hread⟩ := haccepts hhead
        have hfuel' : rows.length ≤ fuel := by
          rw [List.length_cons] at hfuel
          omega
        obtain ⟨hrest, hfail⟩ := @ih (Function.update acc r.key (some v)) (n - r.term.nodes) fuel
          (fun r' hr' => hrows r' (List.mem_cons_of_mem r hr')) hkeys.2 (hacc' v) hfuel'
        simp only [hv]
        constructor
        · rintro ⟨-, -, hp⟩
          obtain ⟨vs, hvs, heq⟩ := hrest hp
          exact ⟨v :: vs, .cons hread hvs, heq⟩
        · intro hp
          exact hfail fun hpaid => hp ⟨hhead.1, hhead.2, hpaid⟩
      · obtain ⟨e, he⟩ := hrefuses hhead
        simp only [he]
        constructor
        · rintro ⟨hd, hn, -⟩
          exact absurd ⟨hd, hn⟩ hhead
        · intro _
          exact ⟨e, rfl⟩

/-! ## The container -/

theorem streamInflate_ok {raw : ℕ} {finished : Option Bytes} {outs : List Bytes} {acc b : Bytes}
    (h : streamInflate raw finished outs acc = .ok b) :
    ∃ last, finished = some last ∧ b = acc ++ outs.flatten ++ last ∧ b.length = raw := by
  induction outs generalizing acc with
  | nil =>
    cases finished with
    | none => cases h
    | some last =>
      rw [streamInflate] at h
      split at h
      · rename_i hlen
        cases h
        exact ⟨last, rfl, by simp, hlen⟩
      · cases h
  | cons out outs ih =>
    rw [streamInflate] at h
    split at h
    · cases h
    · obtain ⟨last, hlast, rfl, hlen⟩ := ih h
      exact ⟨last, hlast, by simp, hlen⟩

theorem streamInflate_eq {raw : ℕ} {outs : List Bytes} {acc last : Bytes}
    (h : (acc ++ outs.flatten ++ last).length = raw) :
    streamInflate raw (some last) outs acc = .ok (acc ++ outs.flatten ++ last) := by
  induction outs generalizing acc with
  | nil =>
    rw [List.flatten_nil, List.append_nil] at h ⊢
    rw [streamInflate, if_pos h]
  | cons out outs ih =>
    have hle : ¬ raw < (acc ++ out).length := by
      simp only [List.flatten_cons, List.length_append] at h ⊢
      omega
    rw [streamInflate, if_neg hle, ih]
    · simp
    · rw [← h]
      simp

theorem bodyOf_payloadOf {b : Bytes} (hlen : b.length < 2 ^ 32) (hle : b.length ≤ lim.inflated) :
    bodyOf node (payloadOf node b) lim = .ok b := by
  have hmod : b.length % 256 ^ 4 = b.length := Nat.mod_eq_of_lt (by omega)
  rw [payloadOf, bodyOf, readBe_be, hmod]
  dsimp only
  rw [if_pos hle, inflate, compress]
  split
  · obtain ⟨last, hlast, hsum⟩ := node.lossless b
    rw [if_neg (by simp [codecZlib, codecRaw]), if_pos rfl, hlast]
    have heq := @streamInflate_eq b.length (node.inflate (node.compress b)).continued [] last
    rw [List.nil_append, hsum] at heq
    exact heq rfl
  · rw [if_pos ⟨rfl, rfl⟩]

/-- A body that is longer than its length field can say is not what is read back. -/
theorem bodyOf_too_long {b b' : Bytes} (hlen : ¬ b.length < 2 ^ 32) :
    bodyOf node (payloadOf node b) lim ≠ .ok b' := by
  intro h
  rw [payloadOf, bodyOf, readBe_be] at h
  dsimp only at h
  split at h
  · rw [inflate, compress, if_pos (show compressAbove < b.length by rw [compressAbove]; omega),
      if_neg (by simp [codecZlib, codecRaw]), if_pos rfl] at h
    obtain ⟨last, hlast, rfl, hraw⟩ := streamInflate_ok h
    obtain ⟨last', hlast', hsum⟩ := node.lossless b
    rw [hlast'] at hlast
    cases hlast
    rw [List.nil_append, hsum] at hraw
    have hmod := Nat.mod_lt b.length (show 0 < 256 ^ 4 by decide)
    omega
  · cases h

theorem decode_imageOf (payload : Bytes) :
    decode node (imageOf node payload) lim =
      decodeStored node (be 4 payload.length ++ (node.sha256 payload ++ payload)) lim := by
  have hshape : imageOf node payload = magic ++ (be 2 format ++ (be 4 imageAbi ++
      (be 4 payload.length ++ (node.sha256 payload ++ payload)))) := by
    simp [imageOf]
  rw [decode, hshape, strip?_append, Option.bind_some, readBe_be]
  dsimp only
  rw [readBe_be]
  dsimp only
  rw [if_neg (by decide), if_neg (by decide)]

theorem decodeStored_image (payload : Bytes) :
    decodeStored node (be 4 payload.length ++ (node.sha256 payload ++ payload)) lim =
      if lim.stored < payload.length % 256 ^ 4 then
        .refuse .snapshotTooLarge "the image's stored payload exceeds the ceiling"
          [("claimed", .nat (payload.length % 256 ^ 4)), ("allowed", .nat lim.stored)]
      else if payload.length = payload.length % 256 ^ 4 then
        Snapshot.payload node payload lim
      else
        .refuse .snapshotTruncated "the image is not its stated length"
          [("expected", .nat (payload.length % 256 ^ 4)), ("got", .nat payload.length)] := by
  rw [decodeStored, readBe_be, Option.bind_some]
  dsimp only
  rw [splitAt?_append (node.sha256_length payload), Option.map_some]
  dsimp only
  rw [digest, if_pos rfl]

theorem decode_image {payload : Bytes} (hlen : payload.length < 2 ^ 32)
    (hle : payload.length ≤ lim.stored) :
    decode node (imageOf node payload) lim = Snapshot.payload node payload lim := by
  have hmod : payload.length % 256 ^ 4 = payload.length := Nat.mod_eq_of_lt (by omega)
  rw [decode_imageOf, decodeStored_image, hmod, if_neg (by omega), if_pos rfl]

theorem decode_image_too_long {payload : Bytes} (hlen : ¬ payload.length < 2 ^ 32) :
    ∃ e, decode node (imageOf node payload) lim = .error e := by
  have hmod := Nat.mod_lt payload.length (show 0 < 256 ^ 4 by decide)
  rw [decode_imageOf, decodeStored_image]
  split
  · exact ⟨_, rfl⟩
  · rw [if_neg (by omega)]
    exact ⟨_, rfl⟩

/-! ## An image and its file -/

/-- What every Erlang map of parts is: the keys of maps are distinct, and its atoms exist. -/
structure Parts.Valid (node : Node) (p : Parts) : Prop where
  hash : p.hash.length = 32
  sound : ∀ t ∈ [p.key, p.shape, p.globals, p.tables, p.dropped, p.hooks], t.Sound
  atoms : ∀ t ∈ [p.key, p.shape, p.globals, p.tables, p.dropped, p.hooks], t.AtomsIn node.atoms

/-- The file of `p` is read back as `p`, where tables may be packed. -/
def RoundTrips (node : Node) (p : Parts) (lim : Limits) : Prop :=
  ∃ file v, encode node p = some file ∧
    decode node file lim = .ok { p with tables := v } ∧ PacksAll p.tables v

/-- What `representable` does not ask: the memories fit the fields and the nesting, the seven
values together the budget with one node to spare, and the body and the payload their length
fields. -/
structure Parts.Fits (node : Node) (p : Parts) (lim : Limits) : Prop where
  fields : ∀ m ∈ p.mems, m.Fits
  depth : p.memsTerm.depth ≤ lim.depth
  nodes : nodesAll [p.key, p.shape, p.globals, p.tables, p.memsTerm, p.dropped] + p.hooks.need ≤
    lim.nodes
  body : ∀ b, body p = some b → b.length < 2 ^ 32 ∧ (payloadOf node b).length < 2 ^ 32

/-- The sections of a body after the hash and the version. -/
theorem body_rows {b : Bytes} (h : body p = some b) :
    ∃ rows : List Row,
      rows.map Row.key = [.key, .shape, .globals, .tables, .mems, .dropped, .hooks] ∧
      rows.map Row.term =
        [p.key, p.shape, p.globals, p.tables, p.memsTerm, p.dropped] ++ [p.hooks] ∧
      (∀ r ∈ rows, term r.term = some r.data) ∧
      b = sect Key.hash.tag p.hash ++ (sect Key.version.tag p.version ++ contents rows) := by
  unfold body at h
  obtain ⟨key, hkey, h⟩ := Option.bind_eq_some_iff.mp h
  obtain ⟨shape, hshape, h⟩ := Option.bind_eq_some_iff.mp h
  obtain ⟨globals, hglobals, h⟩ := Option.bind_eq_some_iff.mp h
  obtain ⟨tables, htables, h⟩ := Option.bind_eq_some_iff.mp h
  obtain ⟨mems, hmems, h⟩ := Option.bind_eq_some_iff.mp h
  obtain ⟨dropped, hdropped, h⟩ := Option.bind_eq_some_iff.mp h
  obtain ⟨hooks, hhooks, rfl⟩ := Option.map_eq_some_iff.mp h
  refine ⟨[⟨.key, p.key, key⟩, ⟨.shape, p.shape, shape⟩, ⟨.globals, p.globals, globals⟩,
    ⟨.tables, p.tables, tables⟩, ⟨.mems, p.memsTerm, mems⟩, ⟨.dropped, p.dropped, dropped⟩,
    ⟨.hooks, p.hooks, hooks⟩], rfl, rfl, ?_, ?_⟩
  · simp only [List.mem_cons, List.not_mem_nil, or_false, forall_eq_or_imp, forall_eq]
    exact ⟨hkey, hshape, hglobals, htables, hmems, hdropped, hhooks⟩
  · simp [contents]

/-- A section's contents are part of the body. -/
theorem length_le_contents {r : Row} {rows : List Row} (hr : r ∈ rows) :
    r.data.length ≤ (contents rows).length := by
  induction rows with
  | nil => cases hr
  | cons r' rows ih =>
    have hcons : (contents (r' :: rows)).length =
        (sect r'.key.tag r'.data).length + (contents rows).length := by
      rw [show contents (r' :: rows) = sect r'.key.tag r'.data ++ contents rows from rfl,
        List.length_append]
    have hsect : (sect r'.key.tag r'.data).length = 5 + r'.data.length := by
      simp only [sect, List.length_cons, List.length_append, length_be]
      omega
    rcases List.mem_cons.mp hr with rfl | hr
    · omega
    · have hle := ih hr
      omega

/-- The parts that a complete set of sections makes. -/
theorem complete_setAll {rows : List Row} {vs : List Term}
    (hkeys : rows.map Row.key = [.key, .shape, .globals, .tables, .mems, .dropped, .hooks])
    (hterms : rows.map Row.term =
      [p.key, p.shape, p.globals, p.tables, p.memsTerm, p.dropped] ++ [p.hooks])
    (hrange : ∀ t ∈ [p.key, p.shape, p.globals, p.tables, p.dropped, p.hooks],
      t.Sound ∧ t.InRange)
    (hread : List.Forall₂ (fun r v => ReadAs r.key r.term v) rows vs) {acc : Sections}
    (hhash : acc .hash = some (.binary p.hash)) (hversion : acc .version = some (.binary p.version)) :
    ∃ v, PacksAll p.tables v ∧ complete (setAll acc rows vs) =
      .ok { p with tables := v, mems := p.mems.map Mem.reread } := by
  have hseven : rows.length = 7 := by
    have hlen := congrArg List.length hkeys
    rwa [List.length_map] at hlen
  match rows, hseven, hkeys, hterms, hread with
  | [r₁, r₂, r₃, r₄, r₅, r₆, r₇], _, hkeys, hterms, hread =>
    simp only [List.map_cons, List.map_nil, List.cons.injEq, and_true, List.cons_append,
      List.nil_append] at hkeys hterms
    obtain ⟨hk₁, hk₂, hk₃, hk₄, hk₅, hk₆, hk₇⟩ := hkeys
    obtain ⟨ht₁, ht₂, ht₃, ht₄, ht₅, ht₆, ht₇⟩ := hterms
    simp only [List.mem_cons, List.not_mem_nil, or_false, forall_eq_or_imp, forall_eq] at hrange
    obtain ⟨hp₁, hp₂, hp₃, -, hp₆, hp₇⟩ := hrange
    match vs, hread with
    | [v₁, v₂, v₃, v₄, v₅, v₆, v₇], .cons h₁ (.cons h₂ (.cons h₃ (.cons h₄ (.cons h₅ (.cons h₆
        (.cons h₇ .nil)))))) =>
      rw [hk₁, ht₁] at h₁
      rw [hk₂, ht₂] at h₂
      rw [hk₃, ht₃] at h₃
      rw [hk₄, ht₄] at h₄
      rw [hk₅, ht₅] at h₅
      rw [hk₆, ht₆] at h₆
      rw [hk₇, ht₇] at h₇
      have h₁' : v₁ = p.key := h₁.trans (reread_eq_self _ hp₁.1 hp₁.2)
      have h₂' : v₂ = p.shape := h₂.trans (reread_eq_self _ hp₂.1 hp₂.2)
      have h₃' : v₃ = p.globals := h₃.trans (reread_eq_self _ hp₃.1 hp₃.2)
      have h₅' : v₅ = .list (p.mems.map fun m => m.reread.term) := h₅.trans (reread_memsTerm p)
      have h₆' : v₆ = p.dropped := h₆.trans (reread_eq_self _ hp₆.1 hp₆.2)
      have h₇' : v₇ = p.hooks := h₇.trans (reread_eq_self _ hp₇.1 hp₇.2)
      refine ⟨v₄, h₄, ?_⟩
      have hmems : (p.mems.map fun m => m.reread.term).mapM memOf =
          some (p.mems.map Mem.reread) := mapM_map_some fun m _ => memOf_term m.reread
      have hpresent : (Key.want.filter fun k =>
          (setAll acc [r₁, r₂, r₃, r₄, r₅, r₆, r₇] [v₁, v₂, v₃, v₄, v₅, v₆, v₇] k).isNone) = [] := by
        simp [setAll, Key.want, hk₁, hk₂, hk₃, hk₄, hk₅, hk₆, hk₇, hhash, hversion,
          Function.update_apply]
      rw [complete, hpresent]
      simp only [memsShaped, setAll, hk₁, hk₂, hk₃, hk₄, hk₅, hk₆, hk₇, Function.update_apply,
        h₅', hmems, Sections.parts, hhash, hversion, h₁', h₂', h₃', h₆', h₇', reduceCtorEq,
        if_true, if_false, Option.bind_some]

/-- A body is read back under its own ceilings, or refused. -/
theorem sections_body {b : Bytes} (hvalid : p.Valid node) (hb : body p = some b)
    (hlen : b.length < 2 ^ 32)
    (hrange : ∀ t ∈ [p.key, p.shape, p.globals, p.tables, p.dropped, p.hooks], t.InRange)
    (depth n : ℕ) :
    (Paid depth ([p.key, p.shape, p.globals, p.tables, p.memsTerm, p.dropped] ++ [p.hooks]) n →
      ∃ v, PacksAll p.tables v ∧ sections node.atoms depth b.length b (fun _ => none) n =
        .ok { p with tables := v, mems := p.mems.map Mem.reread }) ∧
    (¬ Paid depth ([p.key, p.shape, p.globals, p.tables, p.memsTerm, p.dropped] ++ [p.hooks]) n →
      ∃ e, sections node.atoms depth b.length b (fun _ => none) n = .error e) := by
  obtain ⟨rows, hkeys, hterms, hbytes, hbody⟩ := body_rows hb
  have hnine : b.length = b.length - 2 + 1 + 1 := by
    rw [hbody]
    simp only [sect, List.length_append, List.length_cons]
    omega
  have hshort : ∀ data : Bytes, (∃ l r, b = l ++ data ++ r) → data.length < 2 ^ 32 := by
    rintro data ⟨l, r, hb'⟩
    rw [hb', List.length_append, List.length_append] at hlen
    omega
  have hhash : p.hash.length < 2 ^ 32 := by rw [hvalid.hash]; decide
  have hversion : p.version.length < 2 ^ 32 := by
    apply hshort
    refine ⟨sect Key.hash.tag p.hash ++ Key.version.tag :: be 4 p.version.length, contents rows, ?_⟩
    rw [hbody]
    simp [sect]
  have hcontents : (contents rows).length ≤ b.length := by
    rw [hbody]
    simp only [List.length_append]
    omega
  have hmem : ∀ r ∈ rows, r.key ∈ [Key.key, .shape, .globals, .tables, .mems, .dropped, .hooks] :=
    fun r hr => hkeys ▸ List.mem_map_of_mem hr
  have hterm : ∀ r ∈ rows, r.term.Sound ∧ r.term.AtomsIn node.atoms ∧
      (r.key = .tables → r.term.InRange) := by
    have hseven : rows.length = 7 := by
      have hl := congrArg List.length hkeys
      rwa [List.length_map] at hl
    match rows, hseven, hkeys, hterms with
    | [r₁, r₂, r₃, r₄, r₅, r₆, r₇], _, hkeys, hterms =>
      simp only [List.map_cons, List.map_nil, List.cons.injEq, and_true, List.cons_append,
        List.nil_append] at hkeys hterms
      obtain ⟨hk₁, hk₂, hk₃, hk₄, hk₅, hk₆, hk₇⟩ := hkeys
      obtain ⟨ht₁, ht₂, ht₃, ht₄, ht₅, ht₆, ht₇⟩ := hterms
      have hs := hvalid.sound
      have ha := hvalid.atoms
      simp only [List.mem_cons, List.not_mem_nil, or_false, forall_eq_or_imp, forall_eq] at hs ha
      simp only [List.mem_cons, List.not_mem_nil, or_false, forall_eq_or_imp, forall_eq] at hrange ⊢
      rw [ht₁, ht₂, ht₃, ht₄, ht₅, ht₆, ht₇, hk₁, hk₂, hk₃, hk₅, hk₆, hk₇]
      exact ⟨⟨hs.1, ha.1, nofun⟩, ⟨hs.2.1, ha.2.1, nofun⟩, ⟨hs.2.2.1, ha.2.2.1, nofun⟩,
        ⟨hs.2.2.2.1, ha.2.2.2.1, fun _ => hrange.2.2.2.1⟩,
        ⟨sound_memsTerm p, atomsIn_memsTerm p, nofun⟩,
        ⟨hs.2.2.2.2.1, ha.2.2.2.2.1, nofun⟩, ⟨hs.2.2.2.2.2, ha.2.2.2.2.2, nofun⟩⟩
  have hwritten : ∀ r ∈ rows, r.Written node.atoms := by
    intro r hr
    have hk := hmem r hr
    have hle := length_le_contents hr
    obtain ⟨hs, ha, ht⟩ := hterm r hr
    refine ⟨?_, ?_, hbytes r hr, by omega, hs, ha, ht⟩
    · rintro he
      rw [he] at hk
      exact absurd hk (by decide)
    · rintro he
      rw [he] at hk
      exact absurd hk (by decide)
  set acc : Sections := Function.update (Function.update (fun _ => none) .hash
    (some (.binary p.hash))) .version (some (.binary p.version)) with hacc
  have hnone : ∀ r ∈ rows, acc r.key = none := by
    intro r hr
    have hw := hwritten r hr
    rw [hacc, Function.update_of_ne hw.version, Function.update_of_ne hw.hash]
  have hnodup : (rows.map Row.key).Nodup := by
    rw [hkeys]
    decide
  have hfuel : rows.length ≤ b.length - 2 := by
    have hl := congrArg List.length hkeys
    rw [List.length_map] at hl
    rw [hbody, hl]
    simp only [sect, List.length_append, List.length_cons, hvalid.hash]
    simp
    omega
  have hstart : sections node.atoms depth b.length b (fun _ => none) n =
      sections node.atoms depth (b.length - 2) (contents rows) acc n := by
    rw [hnine, hbody, sections_sect hhash rfl]
    rw [show sectionValue node.atoms .hash p.hash depth n = .ok (.binary p.hash, n) from
      if_pos hvalid.hash]
    dsimp only
    rw [sections_sect hversion (by simp)]
    rfl
  obtain ⟨haccepts, hrefuses⟩ := sections_rows rows hwritten hnodup hnone hfuel
  rw [hstart, ← hterms]
  constructor
  · intro hp
    obtain ⟨vs, hvs, heq⟩ := haccepts hp
    have hfirst : acc .hash = some (.binary p.hash) := by
      rw [hacc, Function.update_of_ne (by decide), Function.update_self]
    have hsecond : acc .version = some (.binary p.version) := by
      rw [hacc, Function.update_self]
    obtain ⟨v, hv, hcomplete⟩ := complete_setAll hkeys hterms
      (fun t ht => ⟨hvalid.sound t ht, hrange t ht⟩) hvs hfirst hsecond
    exact ⟨v, hv, heq.trans hcomplete⟩
  · exact hrefuses

/-- What `representable` does establish. -/
theorem representable_ok (h : representable node p lim = .ok ()) :
    (∀ t ∈ [p.key, p.shape, p.globals, p.tables, p.dropped, p.hooks],
      t.InRange ∧ t.depth ≤ lim.depth) ∧
    ∃ b, body p = some b ∧ b.length ≤ lim.inflated ∧ (payloadOf node b).length ≤ lim.stored := by
  unfold representable at h
  split at h
  · rename_i u hwalk
    refine ⟨fun t ht => ⟨(walkTerms_ok hwalk t ht).1, (walkTerms_ok hwalk t ht).2.1⟩, ?_⟩
    unfold representableSize at h
    cases hb : body p with
    | none => simp [hb] at h
    | some b =>
      simp only [hb] at h
      split at h
      · cases h
      · split at h
        · cases h
        · refine ⟨b, rfl, by omega, ?_⟩
          simp only [payloadOf, List.length_cons, List.length_append, length_be]
          omega
  · cases h

theorem paid_iff_fits (hdepth : ∀ t ∈ [p.key, p.shape, p.globals, p.tables, p.dropped, p.hooks],
      t.depth ≤ lim.depth) :
    Paid lim.depth ([p.key, p.shape, p.globals, p.tables, p.memsTerm, p.dropped] ++ [p.hooks])
      lim.nodes ↔
    p.memsTerm.depth ≤ lim.depth ∧
      nodesAll [p.key, p.shape, p.globals, p.tables, p.memsTerm, p.dropped] + p.hooks.need ≤
        lim.nodes := by
  simp only [List.mem_cons, List.not_mem_nil, or_false, forall_eq_or_imp, forall_eq] at hdepth
  rw [paid_append]
  simp only [depthAll]
  constructor
  · rintro ⟨hall, hhooks, hnodes⟩
    exact ⟨by omega, hnodes⟩
  · rintro ⟨hmems, hnodes⟩
    exact ⟨by omega, by omega, hnodes⟩

theorem roundTrips_iff (hvalid : p.Valid node) (hrep : representable node p lim = .ok ()) :
    RoundTrips node p lim ↔ p.Fits node lim := by
  obtain ⟨hwalk, b, hb, hinflated, hstored⟩ := representable_ok hrep
  have hpaid := paid_iff_fits fun t ht => (hwalk t ht).2
  have hencode : encode node p = some (imageOf node (payloadOf node b)) := by
    rw [encode, hb]
    rfl
  constructor
  · rintro ⟨file, v, hfile, hdecode, -⟩
    rw [hencode, Option.some.injEq] at hfile
    subst hfile
    have hpayload : (payloadOf node b).length < 2 ^ 32 := by
      by_contra hlong
      obtain ⟨e, he⟩ := @decode_image_too_long node lim _ hlong
      rw [he] at hdecode
      cases hdecode
    rw [decode_image hpayload hstored, payload] at hdecode
    have hbody : b.length < 2 ^ 32 := by
      by_contra hlong
      split at hdecode
      · exact bodyOf_too_long hlong ‹_›
      · cases hdecode
    rw [bodyOf_payloadOf hbody hinflated] at hdecode
    dsimp only at hdecode
    obtain ⟨haccepts, hrefuses⟩ := sections_body hvalid hb hbody (fun t ht => (hwalk t ht).1)
      lim.depth lim.nodes
    have hroom : Paid lim.depth
        ([p.key, p.shape, p.globals, p.tables, p.memsTerm, p.dropped] ++ [p.hooks]) lim.nodes := by
      by_contra hno
      obtain ⟨e, he⟩ := hrefuses hno
      rw [he] at hdecode
      cases hdecode
    obtain ⟨v', -, hread⟩ := haccepts hroom
    rw [hread, Answer.ok.injEq, Parts.mk.injEq] at hdecode
    have hmems : p.mems.map Mem.reread = p.mems := hdecode.2.2.2.2.2.2.1
    obtain ⟨hdepth, hnodes⟩ := hpaid.mp hroom
    refine ⟨?_, hdepth, hnodes, ?_⟩
    · intro m hm
      obtain ⟨i, hi, rfl⟩ := List.getElem_of_mem hm
      have hget : (p.mems.map Mem.reread)[i]? = p.mems[i]? := by rw [hmems]
      rw [List.getElem?_map, List.getElem?_eq_getElem hi, Option.map_some, Option.some.injEq] at hget
      exact (reread_eq_iff _).mp hget
    · intro b' hb'
      rw [hb, Option.some.injEq] at hb'
      subst hb'
      exact ⟨hbody, hpayload⟩
  · intro hfits
    obtain ⟨hbody, hpayload⟩ := hfits.body b hb
    obtain ⟨v, hv, hread⟩ := (sections_body hvalid hb hbody (fun t ht => (hwalk t ht).1)
      lim.depth lim.nodes).1 (hpaid.mpr ⟨hfits.depth, hfits.nodes⟩)
    have hmems : p.mems.map Mem.reread = p.mems := by
      rw [List.map_congr_left (g := id), List.map_id]
      intro m hm
      exact (reread_eq_iff m).mpr (hfits.fields m hm)
    refine ⟨_, v, hencode, ?_, hv⟩
    rw [decode_image hpayload hstored, payload, bodyOf_payloadOf hbody hinflated]
    dsimp only
    rw [hread, hmems]

/-- An image of one table and one page. -/
def smallParts : Parts where
  hash := List.replicate 32 7
  version := ascii "3"
  key := .int 0
  shape := .int 0
  globals := .list []
  tables := .list [.list [.atom ⟨ascii "null", by decide⟩, .tuple [.atom ⟨ascii "funcref", by decide⟩,
    .atom ⟨ascii "self", by decide⟩, .int 3]]]
  mems := [{ pages := 1, runs := [(0, [1])] }]
  dropped := .tuple [.coll .map [], .coll .map []]
  hooks := .coll .map []

/-- What is not compressed inflates in one step. -/
theorem lossless_id (b : Bytes) :
    ∃ last, some b = some last ∧ ([] : List Bytes).flatten ++ last = b := ⟨b, rfl, rfl⟩

local instance atomName : LawfulBEq (List UInt8) := inferInstance

/-- A node with a digest for the one payload written here, which is too short to be compressed. -/
def smallNode : Node where
  sha256 := fun _ => [152, 182, 62, 94, 131, 56, 29, 179, 130, 175, 123, 97, 153, 185, 184, 90, 82,
    240, 110, 17, 4, 11, 118, 24, 84, 121, 241, 83, 144, 64, 108, 112]
  compress := id
  inflate := fun b => { continued := [], finished := some b }
  atoms := fun n => n ∈ [ascii "null", ascii "funcref", ascii "self"]
  sha256_length := fun _ => rfl
  lossless := lossless_id

theorem valid_smallParts : smallParts.Valid smallNode := by
  constructor
  · rfl
  · simp [smallParts, Term.Sound, SoundAll, keys]
  · simp [smallParts, Term.AtomsIn, AtomsInAll, smallNode]

theorem roundTrips_smallParts : RoundTrips smallNode smallParts ⟨1000, 1000, 64, 100⟩ := by
  have hbody : (body smallParts).all (fun b =>
      decide (b.length < 2 ^ 32 ∧ (payloadOf smallNode b).length < 2 ^ 32)) = true := by
    decide +kernel
  apply (roundTrips_iff valid_smallParts (by decide +kernel)).mpr
  constructor
  · intro m hm
    rw [List.mem_singleton.mp hm]
    exact ⟨by decide, by decide⟩
  · decide +kernel
  · decide +kernel
  · intro b hb
    rw [hb, Option.all_some, decide_eq_true_eq] at hbody
    exact hbody

/-- One node more than the six values that are walked: the memories are not paid for. -/
theorem not_roundTrips : ¬ ∀ node p lim, p.Valid node → representable node p lim = .ok () →
    RoundTrips node p lim := by
  intro hall
  have hwalked : representable smallNode smallParts ⟨1000, 1000, 64, 15⟩ = .ok () := by
    decide +kernel
  have hrefused : (encode smallNode smallParts).all (fun file =>
      decide (decode smallNode file ⟨1000, 1000, 64, 15⟩ = .error ⟨.snapshotTooManyNodes,
        "the image decodes to more nodes than allowed", []⟩)) = true := by decide +kernel
  obtain ⟨file, v, hfile, hdecode, -⟩ := hall _ _ _ valid_smallParts hwalked
  rw [hfile, Option.all_some, decide_eq_true_eq] at hrefused
  rw [hrefused] at hdecode
  cases hdecode

end ErlangWasm.Snapshot
