import ErlangWasm.Heap.Store
import ErlangWasm.Reasoning.Bitmap

/-!
# Mark and sweep

`collect/2` marks what the roots reach in a bitmap sized from the id counter and deletes the rest.
A bit outside the bitmap is a `badarg`, which is `none` here.
-/

namespace ErlangWasm.Heap

open Reasoning

/-- The application's settings. -/
structure Settings where
  majorRatio : ℕ
  minMajor : ℕ
  minMajorPages : ℕ

/-! ## Marking -/

def pushRef : Val → List ℕ → List ℕ
  | .objref id, acc => id :: acc
  | .external v, acc => pushRef v acc
  | .internal v, acc => pushRef v acc
  | .plain _, acc => acc

def pushRefs (vs : List Val) (acc : List ℕ) : List ℕ := vs.foldl (fun acc v => pushRef v acc) acc

def rootIds (roots : List Val) : List ℕ := pushRefs roots []

namespace Store

/-- The worklist after `id` is marked: what its row refers to is in front of the rest. -/
def scan (s : Store) (id : ℕ) (rest : List ℕ) : List ℕ :=
  match s.rows.lookup id with
  | some (.struct _ fields) => pushRefs fields rest
  | some (.array _ _ default true) => pushRefs (s.elementsOf id) (pushRef default rest)
  | some (.array _ _ _ false) => rest
  | none => rest

def mark (s : Store) (base : ℕ) : List ℕ → Bitmap → Option Bitmap
  | [], marks => some marks
  | id :: rest, marks =>
      if id < base then s.mark base rest marks
      else
        match _hset : marks.set (id - base) with
        | none => none
        | some (_, false) => s.mark base rest marks
        | some (marks', true) => s.mark base (s.scan id rest) marks'
termination_by work marks => (marks.clear.card, work.length)
decreasing_by
  · exact Prod.Lex.right _ (Nat.lt_succ_self _)
  · exact Prod.Lex.right _ (Nat.lt_succ_self _)
  · exact Prod.Lex.left _ _ (Bitmap.clear_set _hset)

/-! ## Sweeping -/

/-- The object and its elements go. -/
def delete (s : Store) (id : ℕ) : Store :=
  { s with
    rows := s.rows.erase id
    elems := s.elems.filterRows fun key _ => key.1 ≠ id
    rows_lt := by
      intro id' row h
      rw [Table.lookup_erase_eq] at h
      split at h
      · cases h
      · exact s.rows_lt id' row h }

def sweepIds (marks : Bitmap) (base : ℕ) : List ℕ → Store → Option Store
  | [], s => some s
  | id :: ids, s =>
      match marks.test (id - base) with
      | none => none
      | some true => sweepIds marks base ids s
      | some false => sweepIds marks base ids (s.delete id)

/-- Row by row. -/
def sweep (s : Store) (marks : Bitmap) : Option Store := sweepIds marks 0 s.rows.keys s

/-- Id by id, from `base` on. -/
def sweepRange (s : Store) (marks : Bitmap) (base next : ℕ) : Option Store :=
  sweepIds marks base (List.range' base (next - base)) s

/-! ## Collecting -/

def bitmap (base next : ℕ) : Bitmap := .new (max ((next - base) / 64 + 1) 1)

def size (s : Store) : ℕ := s.rows.entries.length

def grownInBytes (s : Store) (opts : Settings) : Bool :=
  max (s.majorPages * opts.majorRatio) opts.minMajorPages ≤ s.charged

def majorDue (s : Store) (opts : Settings) : Bool :=
  max (s.lastMajor * opts.majorRatio) opts.minMajor ≤ s.size || s.grownInBytes opts

/-- Of the old objects that were written to, what they refer to. -/
def rememberedChildren (s : Store) : List ℕ :=
  (s.remembered.insertionSort (· ≤ ·)).foldl (fun acc id => s.scan id acc) []

def major (s : Store) (roots : List Val) : Option Store := do
  let marks ← s.mark 0 (rootIds roots) (bitmap 0 s.next)
  let s ← s.sweep marks
  return { s with lastMajor := s.size }

def minor (s : Store) (roots : List Val) : Option Store := do
  let marks ← s.mark s.watermark (rootIds roots ++ s.rememberedChildren)
    (bitmap s.watermark s.next)
  s.sweepRange marks s.watermark s.next

/-- What a collection leaves behind it, where the keeper has measured `pages`. -/
def collected (s : Store) (opts : Settings) (isMajor : Bool) (pages : ℕ) : Store :=
  { s with
    watermark := s.next
    remembered := []
    charged := pages
    trigger := max (pages * opts.majorRatio) opts.minMajorPages
    majorPages := if isMajor then pages else s.majorPages
    watermark_le := Nat.le_refl s.next }

def collect (s : Store) (opts : Settings) (roots : List Val) (pages : ℕ) : Option Store := do
  let isMajor := s.majorDue opts
  let swept ← if isMajor then s.major roots else s.minor roots
  return swept.collected opts isMajor pages

/-! ## What is traced -/

/-- Where a collection starts. -/
def base (s : Store) (opts : Settings) : ℕ := if s.majorDue opts then 0 else s.watermark

def start (s : Store) (opts : Settings) (roots : List Val) : List ℕ :=
  if s.majorDue opts then rootIds roots else rootIds roots ++ s.rememberedChildren

/-- What is as old as the nursery is followed. -/
def Child (s : Store) (base : ℕ) (a b : ℕ) : Prop := base ≤ a ∧ b ∈ s.scan a []

/-- The ids that come to the worklist. -/
def Reaches (s : Store) (base : ℕ) (work : List ℕ) (id : ℕ) : Prop :=
  ∃ a ∈ work, Relation.ReflTransGen (s.Child base) a id

def Traced (s : Store) (opts : Settings) (roots : List Val) (id : ℕ) : Prop :=
  s.Reaches (s.base opts) (s.start opts roots) id

variable {s : Store} {base next id : ℕ} {work : List ℕ} {marks marks' : Bitmap} {opts : Settings}
  {roots : List Val} {pages : ℕ}

theorem mem_pushRef (v : Val) (acc : List ℕ) (x : ℕ) :
    x ∈ pushRef v acc ↔ x ∈ pushRef v [] ∨ x ∈ acc := by
  induction v with
  | objref id => simp [pushRef]
  | external v ih => exact ih
  | internal v ih => exact ih
  | plain n => simp [pushRef]

theorem mem_pushRefs (vs : List Val) (acc : List ℕ) (x : ℕ) :
    x ∈ pushRefs vs acc ↔ x ∈ pushRefs vs [] ∨ x ∈ acc := by
  unfold pushRefs
  induction vs generalizing acc with
  | nil => simp
  | cons v vs ih =>
    rw [List.foldl_cons, List.foldl_cons, ih, ih (pushRef v []), mem_pushRef]
    rw [or_assoc]

theorem mem_scan (s : Store) (id : ℕ) (rest : List ℕ) (x : ℕ) :
    x ∈ s.scan id rest ↔ x ∈ s.scan id [] ∨ x ∈ rest := by
  unfold scan
  split
  · exact mem_pushRefs _ _ _
  · rw [mem_pushRefs, mem_pushRefs _ (pushRef _ []), mem_pushRef, or_assoc]
  · simp
  · simp

/-! ## The mark loop -/

theorem Reaches.tail {a : ℕ} {rest : List ℕ} (h : s.Reaches base rest id) :
    s.Reaches base (a :: rest) id := by
  obtain ⟨b, hb, hpath⟩ := h
  exact ⟨b, List.mem_cons_of_mem a hb, hpath⟩

theorem Reaches.scan {a : ℕ} {rest : List ℕ} (ha : base ≤ a)
    (h : s.Reaches base (s.scan a rest) id) : s.Reaches base (a :: rest) id := by
  obtain ⟨b, hb, hpath⟩ := h
  rcases (mem_scan s a rest b).mp hb with hb | hb
  · exact ⟨a, List.mem_cons_self, .head ⟨ha, hb⟩ hpath⟩
  · exact ⟨b, List.mem_cons_of_mem a hb, hpath⟩

theorem mark_below {a : ℕ} {rest : List ℕ} (hlt : a < base) :
    s.mark base (a :: rest) marks = s.mark base rest marks := by
  rw [mark, if_pos hlt]

theorem mark_out {a : ℕ} {rest : List ℕ} (hle : ¬a < base) (hset : marks.set (a - base) = none) :
    s.mark base (a :: rest) marks = none := by
  rw [mark, if_neg hle]
  split
  · rfl
  · rename_i h
    rw [hset] at h
    cases h
  · rename_i h
    rw [hset] at h
    cases h

theorem mark_again {a : ℕ} {rest : List ℕ} (hle : ¬a < base)
    (hset : marks.set (a - base) = some (marks', false)) :
    s.mark base (a :: rest) marks = s.mark base rest marks := by
  rw [mark, if_neg hle]
  split
  · rename_i h
    rw [hset] at h
    cases h
  · rfl
  · rename_i h
    rw [hset] at h
    cases h

theorem mark_fresh {a : ℕ} {rest : List ℕ} (hle : ¬a < base)
    (hset : marks.set (a - base) = some (marks', true)) :
    s.mark base (a :: rest) marks = s.mark base (s.scan a rest) marks' := by
  rw [mark, if_neg hle]
  split
  · rename_i h
    rw [hset] at h
    cases h
  · rename_i h
    rw [hset] at h
    cases h
  · rename_i h
    rw [hset] at h
    cases h
    rfl

/-- Marking fails at an id that comes to the worklist and has no bit. -/
theorem mark_eq_none (h : s.mark base work marks = none) :
    ∃ id, s.Reaches base work id ∧ base ≤ id ∧ marks.size ≤ (id - base) / 64 := by
  induction work, marks using mark.induct s base with
  | case1 marks =>
    rw [mark] at h
    cases h
  | case2 a rest marks hlt ih =>
    rw [mark_below hlt] at h
    obtain ⟨id, hid, hout⟩ := ih h
    exact ⟨id, hid.tail, hout⟩
  | case3 a rest marks hlt hset =>
    exact ⟨a, ⟨a, List.mem_cons_self, .refl⟩, Nat.le_of_not_lt hlt, Bitmap.set_eq_none.mp hset⟩
  | case4 a rest marks hlt marks' hset ih =>
    rw [mark_again hlt hset] at h
    obtain ⟨id, hid, hout⟩ := ih h
    exact ⟨id, hid.tail, hout⟩
  | case5 a rest marks hlt marks' hset ih =>
    rw [mark_fresh hlt hset] at h
    obtain ⟨id, hid, hle, hout⟩ := ih h
    rw [Bitmap.set_size hset] at hout
    exact ⟨id, hid.scan (Nat.le_of_not_lt hlt), hle, hout⟩

theorem mark_size (h : s.mark base work marks = some marks') : marks'.size = marks.size := by
  induction work, marks using mark.induct s base with
  | case1 marks =>
    rw [mark, Option.some.injEq] at h
    rw [h]
  | case2 a rest marks hlt ih =>
    rw [mark_below hlt] at h
    exact ih h
  | case3 a rest marks hlt hset =>
    rw [mark_out hlt hset] at h
    cases h
  | case4 a rest marks hlt marks₁ hset ih =>
    rw [mark_again hlt hset] at h
    exact ih h
  | case5 a rest marks hlt marks₁ hset ih =>
    rw [mark_fresh hlt hset] at h
    rw [ih h, Bitmap.set_size hset]

/-- `id` is old enough and has its bit set. -/
def Marked (marks : Bitmap) (base id : ℕ) : Prop :=
  base ≤ id ∧ marks.test (id - base) = some true

theorem marked_set {a : ℕ} {fresh : Bool} (ha : base ≤ a)
    (hset : marks.set (a - base) = some (marks', fresh)) (id : ℕ) :
    Marked marks' base id ↔ id = a ∨ Marked marks base id := by
  unfold Marked
  rw [Bitmap.test_set hset]
  constructor
  · rintro ⟨hle, htest⟩
    split at htest
    · rename_i hsame
      left
      omega
    · exact .inr ⟨hle, htest⟩
  · rintro (rfl | ⟨hle, htest⟩)
    · exact ⟨ha, if_pos rfl⟩
    · refine ⟨hle, ?_⟩
      split
      · rfl
      · exact htest

/-- What a marked object refers to is marked, or comes to the worklist. -/
def Closed (s : Store) (base : ℕ) (work : List ℕ) (marks : Bitmap) : Prop :=
  ∀ a, Marked marks base a → ∀ b ∈ s.scan a [], base ≤ b → b ∈ work ∨ Marked marks base b

/-- Only what comes to the worklist is marked. -/
theorem marked_mark (h : s.mark base work marks = some marks') (hid : Marked marks' base id) :
    s.Reaches base work id ∨ Marked marks base id := by
  induction work, marks using mark.induct s base with
  | case1 marks =>
    rw [mark, Option.some.injEq] at h
    rw [h]
    exact .inr hid
  | case2 a rest marks hlt ih =>
    rw [mark_below hlt] at h
    exact (ih h).imp_left Reaches.tail
  | case3 a rest marks hlt hset =>
    rw [mark_out hlt hset] at h
    cases h
  | case4 a rest marks hlt marks₁ hset ih =>
    rw [mark_again hlt hset] at h
    exact (ih h).imp_left Reaches.tail
  | case5 a rest marks hlt marks₁ hset ih =>
    rw [mark_fresh hlt hset] at h
    have ha := Nat.le_of_not_lt hlt
    rcases ih h with hreach | hmarked
    · exact .inl (hreach.scan ha)
    · rcases (marked_set ha hset id).mp hmarked with rfl | hmarked
      · exact .inl ⟨id, List.mem_cons_self, .refl⟩
      · exact .inr hmarked

/-- When the worklist is empty, what was on it is marked, and so is what that refers to. -/
theorem mark_closed (h : s.mark base work marks = some marks') (hclosed : s.Closed base work marks) :
    (∀ a ∈ work, base ≤ a → Marked marks' base a) ∧
      (∀ a, Marked marks base a → Marked marks' base a) ∧ s.Closed base [] marks' := by
  induction work, marks using mark.induct s base with
  | case1 marks =>
    rw [mark, Option.some.injEq] at h
    subst h
    refine ⟨?_, fun _ h => h, hclosed⟩
    intro a ha
    cases ha
  | case2 a rest marks hlt ih =>
    rw [mark_below hlt] at h
    have hrest : s.Closed base rest marks := by
      intro a' ha' b hb hle
      rcases hclosed a' ha' b hb hle with hwork | hmarked
      · rcases List.mem_cons.mp hwork with hab | hrest
        · omega
        · exact .inl hrest
      · exact .inr hmarked
    obtain ⟨hwork, hmore, hall⟩ := ih h hrest
    refine ⟨?_, hmore, hall⟩
    intro b hb hle
    rcases List.mem_cons.mp hb with hab | hb
    · omega
    · exact hwork b hb hle
  | case3 a rest marks hlt hset =>
    rw [mark_out hlt hset] at h
    cases h
  | case4 a rest marks hlt marks₁ hset ih =>
    rw [mark_again hlt hset] at h
    have ha : Marked marks base a := ⟨Nat.le_of_not_lt hlt, Bitmap.set_fresh hset⟩
    have hrest : s.Closed base rest marks := by
      intro a' ha' b hb hle
      rcases hclosed a' ha' b hb hle with hwork | hmarked
      · rcases List.mem_cons.mp hwork with hab | hrest
        · rw [hab]
          exact .inr ha
        · exact .inl hrest
      · exact .inr hmarked
    obtain ⟨hwork, hmore, hall⟩ := ih h hrest
    refine ⟨?_, hmore, hall⟩
    intro b hb hle
    rcases List.mem_cons.mp hb with hab | hb
    · rw [hab]
      exact hmore a ha
    · exact hwork b hb hle
  | case5 a rest marks hlt marks₁ hset ih =>
    rw [mark_fresh hlt hset] at h
    have ha := Nat.le_of_not_lt hlt
    have hscan : s.Closed base (s.scan a rest) marks₁ := by
      intro a' ha' b hb hle
      rw [mem_scan, marked_set ha hset]
      rcases (marked_set ha hset a').mp ha' with rfl | hmarked
      · exact .inl (.inl hb)
      · rcases hclosed a' hmarked b hb hle with hwork | hb'
        · rcases List.mem_cons.mp hwork with hab | hrest
          · exact .inr (.inl hab)
          · exact .inl (.inr hrest)
        · exact .inr (.inr hb')
    obtain ⟨hwork, hmore, hall⟩ := ih h hscan
    refine ⟨?_, ?_, hall⟩
    · intro b hb hle
      rcases List.mem_cons.mp hb with hab | hb
      · rw [hab]
        exact hmore a ((marked_set ha hset a).mpr (.inl rfl))
      · exact hwork b ((mem_scan s a rest b).mpr (.inr hb)) hle
    · intro b hb
      exact hmore b ((marked_set ha hset b).mpr (.inr hb))

/-- With a clear bitmap, what is marked is what comes to the worklist. -/
theorem marked_iff (hclear : ∀ i, marks.test i ≠ some true)
    (h : s.mark base work marks = some marks') (hle : base ≤ id) :
    Marked marks' base id ↔ s.Reaches base work id := by
  have hnone : ∀ a, ¬Marked marks base a := fun a ha => hclear _ ha.2
  constructor
  · intro hid
    exact (marked_mark h hid).resolve_right (hnone id)
  · rintro ⟨a, ha, hpath⟩
    obtain ⟨hwork, _, hall⟩ := mark_closed h fun a ha => absurd ha (hnone a)
    induction hpath with
    | refl => exact hwork a ha hle
    | tail hpath hchild ih =>
      have hmarked := ih hchild.1
      exact (hall _ hmarked _ hchild.2 hle).resolve_left List.not_mem_nil

theorem size_bitmap (base next : ℕ) : (bitmap base next).size = (next - base) / 64 + 1 := by
  unfold bitmap
  rw [Bitmap.size_new, Nat.max_eq_left (Nat.le_add_left 1 _)]

theorem bitmap_clear (base next i : ℕ) : (bitmap base next).test i ≠ some true := by
  intro h
  have hin : i / 64 < (bitmap base next).size := by
    rw [← Bitmap.test_isSome, h]
    rfl
  have hfalse : (bitmap base next).test i = some false := by
    apply Bitmap.test_new
    rw [size_bitmap] at hin
    exact Nat.lt_of_lt_of_le hin (Nat.le_max_left _ _)
  rw [hfalse] at h
  cases h

/-- The mark loop comes to its end where each id that comes to the worklist has a bit. -/
theorem mark_isSome_iff (s : Store) (base next : ℕ) (work : List ℕ) :
    (s.mark base work (bitmap base next)).isSome ↔
      ∀ id, s.Reaches base work id → (id - base) / 64 ≤ (next - base) / 64 := by
  constructor
  · intro h id hid
    obtain ⟨marks', hmarks⟩ := Option.isSome_iff_exists.mp h
    by_cases hle : base ≤ id
    · have hmarked := (marked_iff (bitmap_clear base next) hmarks hle).mpr hid
      have hin : (id - base) / 64 < marks'.size := by
        rw [← Bitmap.test_isSome, hmarked.2]
        rfl
      rw [mark_size hmarks, size_bitmap] at hin
      exact Nat.le_of_lt_succ hin
    · have hzero : id - base = 0 := by omega
      rw [hzero, Nat.zero_div]
      exact Nat.zero_le _
  · intro h
    rw [Option.isSome_iff_ne_none]
    intro hnone
    obtain ⟨id, hid, _, hout⟩ := mark_eq_none hnone
    have hin := h id hid
    rw [size_bitmap] at hout
    omega

/-! ## The sweep -/

theorem sweepIds_isSome {ids : List ℕ} (h : ∀ id ∈ ids, (id - base) / 64 < marks.size)
    (s : Store) : (sweepIds marks base ids s).isSome := by
  induction ids generalizing s with
  | nil => rfl
  | cons id ids ih =>
    have hrest := ih fun id' hid' => h id' (List.mem_cons_of_mem id hid')
    have hin := Bitmap.test_isSome.mpr (h id List.mem_cons_self)
    unfold sweepIds
    split
    · rename_i hnone
      rw [hnone] at hin
      cases hin
    · exact hrest s
    · exact hrest _

/-- The rows that are looked at and not marked are gone. -/
theorem lookup_sweepIds {ids : List ℕ} {s' : Store} (h : sweepIds marks base ids s = some s')
    (id : ℕ) : s'.rows.lookup id =
      if id ∈ ids ∧ marks.test (id - base) = some false then none else s.rows.lookup id := by
  induction ids generalizing s with
  | nil =>
    cases h
    simp
  | cons a ids ih =>
    unfold sweepIds at h
    split at h
    · cases h
    · rename_i hset
      rw [ih h]
      by_cases ha : id = a
      · simp [ha, hset]
      · simp [ha]
    · rename_i hclear
      rw [ih h]
      show (if _ then none else (s.rows.erase a).lookup id) = _
      rw [Table.lookup_erase_eq]
      by_cases ha : id = a
      · simp [ha, hclear]
      · simp [ha]

theorem next_sweepIds {ids : List ℕ} {s' : Store} (h : sweepIds marks base ids s = some s') :
    s'.next = s.next := by
  induction ids generalizing s with
  | nil =>
    cases h
    rfl
  | cons a ids ih =>
    unfold sweepIds at h
    split at h
    · cases h
    · exact ih h
    · have hrest := ih h
      exact hrest

theorem lt_next_of_mem_keys (hid : id ∈ s.rows.keys) : id < s.next := by
  obtain ⟨row, hrow⟩ := Option.isSome_iff_exists.mp (AList.lookup_isSome.mpr hid)
  exact s.rows_lt id row hrow

/-! ## The collection -/

theorem major_isSome_iff (s : Store) (roots : List Val) : (s.major roots).isSome ↔
    ∀ id, s.Reaches 0 (rootIds roots) id → (id - 0) / 64 ≤ (s.next - 0) / 64 := by
  rw [← mark_isSome_iff]
  unfold major
  cases hmarks : s.mark 0 (rootIds roots) (bitmap 0 s.next) with
  | none => simp
  | some marks =>
    have hswept : (s.sweep marks).isSome := by
      apply sweepIds_isSome
      intro id hid
      have hlt := lt_next_of_mem_keys hid
      rw [mark_size hmarks, size_bitmap]
      omega
    obtain ⟨s', hs'⟩ := Option.isSome_iff_exists.mp hswept
    simp [hs']

theorem minor_isSome_iff (s : Store) (roots : List Val) : (s.minor roots).isSome ↔
    ∀ id, s.Reaches s.watermark (rootIds roots ++ s.rememberedChildren) id →
      (id - s.watermark) / 64 ≤ (s.next - s.watermark) / 64 := by
  rw [← mark_isSome_iff]
  unfold minor
  cases hmarks : s.mark s.watermark (rootIds roots ++ s.rememberedChildren)
      (bitmap s.watermark s.next) with
  | none => simp
  | some marks =>
    have hswept : (s.sweepRange marks s.watermark s.next).isSome := by
      apply sweepIds_isSome
      intro id hid
      rw [List.mem_range'_1] at hid
      rw [mark_size hmarks, size_bitmap]
      omega
    obtain ⟨s', hs'⟩ := Option.isSome_iff_exists.mp hswept
    simp [hs']

theorem collect_isSome_iff (s : Store) (opts : Settings) (roots : List Val) (pages : ℕ) :
    (s.collect opts roots pages).isSome ↔ ∀ id, s.Traced opts roots id →
      (id - s.base opts) / 64 ≤ (s.next - s.base opts) / 64 := by
  unfold collect Traced base start
  cases hdue : s.majorDue opts with
  | true =>
    simp only [if_true]
    rw [← major_isSome_iff]
    cases s.major roots <;> simp
  | false =>
    simp only [Bool.false_eq_true, if_false]
    rw [← minor_isSome_iff]
    cases s.minor roots <;> simp

/-- A sweep of what is not as old as the nursery keeps the rows that are reached. -/
theorem lookup_swept {ids : List ℕ} {s' : Store}
    (hmarks : s.mark base work (bitmap base s.next) = some marks) (hids : ∀ id ∈ ids, base ≤ id)
    (hall : ∀ id, base ≤ id → id < s.next → s.rows.lookup id ≠ none → id ∈ ids)
    (hswept : sweepIds marks base ids s = some s') (id : ℕ) :
    (id < base ∨ s.Reaches base work id → s'.rows.lookup id = s.rows.lookup id) ∧
      (base ≤ id → ¬s.Reaches base work id → s'.rows.lookup id = none) := by
  have hmarked : base ≤ id → (Marked marks base id ↔ s.Reaches base work id) :=
    fun hle => marked_iff (bitmap_clear base s.next) hmarks hle
  rw [lookup_sweepIds hswept]
  constructor
  · intro h
    apply if_neg
    rintro ⟨hid, hfalse⟩
    have hle := hids id hid
    rcases h with hlt | hreach
    · omega
    · have htrue := ((hmarked hle).mpr hreach).2
      rw [hfalse] at htrue
      cases htrue
  · intro hle hreach
    split
    · rfl
    · rename_i hnot
      by_contra hrow
      have hrow' : s.rows.lookup id ≠ none := hrow
      obtain ⟨row, hsome⟩ := Option.ne_none_iff_exists'.mp hrow'
      have hlt := s.rows_lt id row hsome
      have hin : (marks.test (id - base)).isSome := by
        rw [Bitmap.test_isSome, mark_size hmarks, size_bitmap]
        omega
      obtain ⟨bit, hbit⟩ := Option.isSome_iff_exists.mp hin
      cases bit with
      | true => exact hreach ((hmarked hle).mp ⟨hle, hbit⟩)
      | false => exact hnot ⟨hall id hle hlt hrow', hbit⟩

/-- A collection keeps the objects that are traced or older than the nursery, and no others. -/
theorem lookup_collect {s' : Store} (h : s.collect opts roots pages = some s') (id : ℕ) :
    (id < s.base opts ∨ s.Traced opts roots id → s'.rows.lookup id = s.rows.lookup id) ∧
      (s.base opts ≤ id → ¬s.Traced opts roots id → s'.rows.lookup id = none) := by
  unfold collect at h
  unfold Traced base start
  cases hdue : s.majorDue opts with
  | true =>
    simp only [hdue, if_true, major, Option.bind_eq_bind, Option.bind_eq_some_iff,
      Option.pure_def, Option.some.injEq] at h ⊢
    obtain ⟨_, ⟨marks, hmarks, swept, hswept, rfl⟩, rfl⟩ := h
    refine lookup_swept hmarks (fun _ _ => Nat.zero_le _) ?_ hswept id
    intro id' _ _ hrow
    exact AList.lookup_isSome.mp (Option.isSome_iff_ne_none.mpr hrow)
  | false =>
    simp only [hdue, Bool.false_eq_true, if_false, minor, Option.bind_eq_bind,
      Option.bind_eq_some_iff, Option.pure_def, Option.some.injEq] at h ⊢
    obtain ⟨swept, ⟨marks, hmarks, hswept⟩, rfl⟩ := h
    refine lookup_swept hmarks ?_ ?_ hswept id
    · intro id' hid
      rw [List.mem_range'_1] at hid
      exact hid.1
    · intro id' hle hlt _
      rw [List.mem_range'_1]
      omega

/-- A reference that names no object leads nowhere, and is refused where it is followed. -/
theorem foreign_of_absent (habsent : s.rows.lookup id = none) :
    s.scan id [] = [] ∧ (∀ idx, s.getField id idx = .error (.foreignReference id)) ∧
      s.typeOf id = .error (.foreignReference id) := by
  unfold scan getField typeOf
  rw [habsent]
  exact ⟨rfl, fun _ => rfl, rfl⟩

/-- A collection is done where no id that is traced has its bit behind the last word. -/
theorem collects_iff (s : Store) (opts : Settings) (roots : List Val) (pages : ℕ) :
    ((s.collect opts roots pages).isSome ∧ ∀ id, s.rows.lookup id = none →
      s.scan id [] = [] ∧ (∀ idx, s.getField id idx = .error (.foreignReference id)) ∧
        s.typeOf id = .error (.foreignReference id)) ↔
      ∀ id, s.Traced opts roots id → (id - s.base opts) / 64 ≤ (s.next - s.base opts) / 64 := by
  rw [← collect_isSome_iff s opts roots pages]
  constructor
  · exact And.left
  · intro h
    exact ⟨h, fun id habsent => foreign_of_absent habsent⟩

/-- Another store's object 64, in an empty store. -/
theorem not_collects_foreign :
    ¬ ∀ (s : Store) (opts : Settings) (roots : List Val) (pages : ℕ),
      (s.collect opts roots pages).isSome := by
  intro hall
  have hsome := hall (.new 16) ⟨2, 4096, 16⟩ [.objref 64] 0
  rw [collect_isSome_iff] at hsome
  have hbit := hsome 64 ⟨64, by decide, .refl⟩
  exact absurd hbit (by decide)

end Store

end ErlangWasm.Heap
