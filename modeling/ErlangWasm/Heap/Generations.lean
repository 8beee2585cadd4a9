import ErlangWasm.Heap.Collect
import ErlangWasm.Reasoning.Run

/-!
# A collection keeps what is live

A program allocates, writes and pins, and collects in between, as often as it likes.  A minor
collection follows only what is younger than the last one: the old objects that refer to something
younger have to be in the remembered set.
-/

namespace ErlangWasm.Heap

open Reasoning

inductive Act
  | newStruct (room : Bool) (type : ℕ) (fields : List Val)
  | newArray (room : Bool) (type len : ℕ) (default : Val) (traced : Bool)
  | setField (room : Bool) (id idx : ℕ) (v : Val)
  -- and `fill_each/5`, an element at a time
  | arraySet (room : Bool) (id idx : ℕ) (v : Val)
  | fillWhole (id : ℕ) (v : Val)
  | copyElem (room : Bool) (dst i src j : ℕ)
  | pin (v : Val)
  | unpin (v : Val)
  | unpinAll
  | collect (opts : Settings) (roots : List Val) (pages : ℕ)

namespace Store

def step (s : Store) : Act → Option Store
  | .newStruct room type fields => some (s.newStruct room type fields).2
  | .newArray room type len default traced => some (s.newArray room type len default traced).2
  | .setField room id idx v => some (s.setField room id idx v).2
  | .arraySet room id idx v => some (s.arraySet room id idx v).2
  | .fillWhole id v => some (s.fillWhole id v)
  | .copyElem room dst i src j => some (s.copyElem room dst i src j).2
  | .pin v => some (s.pin v)
  | .unpin v => some (s.unpin v)
  | .unpinAll => some s.unpinAll
  | .collect opts roots pages => s.collect opts roots pages

/-- A value that refers to nothing this store has not handed out. -/
def Known (s : Store) (v : Val) : Prop := ∀ x ∈ pushRef v [], x < s.next

/-- The program has its references from this store. -/
def Owned (s : Store) : Act → Prop
  | .newStruct _ _ fields => ∀ v ∈ fields, s.Known v
  | .newArray _ _ _ default _ => s.Known default
  | .setField _ _ _ v => s.Known v
  | .fillWhole _ v => s.Known v
  | .arraySet _ id _ v => id < s.next ∧ s.Known v
  | .copyElem _ dst _ _ _ => dst < s.next
  | _ => True

/-- What the program can still come to from the roots. -/
def Live (s : Store) (roots : List Val) (id : ℕ) : Prop :=
  ∃ r ∈ rootIds roots, Relation.ReflTransGen (fun a b => b ∈ s.scan a []) r id

variable {s s' t : Store} {a id x base : ℕ} {v w : Val} {roots : List Val} {opts : Settings}
  {pages : ℕ} {marks : Bitmap}

/-! ## What objects hold -/

/-- `v` is a field, the default or an element of `a`. -/
def Holds (s : Store) (a : ℕ) (v : Val) : Prop :=
  (∃ row, s.rows.lookup a = some row ∧ v ∈ row.values) ∨ ∃ idx, s.elems.lookup (a, idx) = some v

/-- What is in `a` was handed out, and `a` is remembered where it is old and `v` is not. -/
def Sees (s : Store) (a : ℕ) (v : Val) : Prop :=
  a < s.next ∧ ∀ x ∈ pushRef v [],
    x < s.next ∧ (a < s.watermark → s.watermark ≤ x → a ∈ s.remembered)

def Sound (s : Store) : Prop := ∀ a v, s.Holds a v → s.Sees a v

theorem mem_pushRefs_iff (vs : List Val) (x : ℕ) :
    x ∈ pushRefs vs [] ↔ ∃ v ∈ vs, x ∈ pushRef v [] := by
  induction vs with
  | nil => simp [pushRefs]
  | cons v vs ih =>
    have hcons : pushRefs (v :: vs) [] = pushRefs vs (pushRef v []) := rfl
    rw [hcons, mem_pushRefs, ih, List.exists_mem_cons_iff, or_comm]

theorem mem_elementsOf (h : v ∈ s.elementsOf id) : ∃ idx, s.elems.lookup (id, idx) = some v := by
  obtain ⟨⟨⟨b, idx⟩, w⟩, he, rfl⟩ := List.mem_map.mp h
  rw [List.mem_insertionSort, List.mem_filter] at he
  obtain ⟨he, hid⟩ := he
  obtain rfl : b = id := of_decide_eq_true hid
  exact ⟨idx, Table.lookup_eq_some_iff.mpr he⟩

theorem holds_of_mem_scan (h : x ∈ s.scan a []) : ∃ v, s.Holds a v ∧ x ∈ pushRef v [] := by
  unfold scan at h
  split at h
  · rename_i hrow
    obtain ⟨v, hv, hx⟩ := (mem_pushRefs_iff _ x).mp h
    exact ⟨v, .inl ⟨_, hrow, hv⟩, hx⟩
  · rename_i hrow
    rw [mem_pushRefs, mem_pushRefs_iff] at h
    rcases h with ⟨v, hv, hx⟩ | hx
    · exact ⟨v, .inr (mem_elementsOf hv), hx⟩
    · exact ⟨_, .inl ⟨_, hrow, by simp [Row.values]⟩, hx⟩
  · cases h
  · cases h

/-! ## The write barrier -/

theorem remember_eq (s : Store) (id : ℕ) (v : Val) : s.remember id v =
    if pushRef v [] ≠ [] ∧ id < s.watermark then
      { s with remembered := s.remembered.insert id } else s := by
  induction v with
  | objref x => simp [remember, pushRef]
  | external v ih => exact ih
  | internal v ih => exact ih
  | plain n => simp [remember, pushRef]

theorem Sound.mono (hs : s.Sound) (hnext : s.next ≤ t.next) (hmark : t.watermark = s.watermark)
    (hrem : ∀ a ∈ s.remembered, a ∈ t.remembered)
    (hholds : ∀ a w, t.Holds a w → s.Holds a w ∨ t.Sees a w) : t.Sound := by
  intro a w h
  refine (hholds a w h).elim (fun hold => ?_) id
  obtain ⟨ha, hx⟩ := hs a w hold
  refine ⟨ha.trans_le hnext, fun x hxw => ⟨(hx x hxw).1.trans_le hnext, fun hlt hle => ?_⟩⟩
  rw [hmark] at hlt hle
  exact hrem _ ((hx x hxw).2 hlt hle)

/-- All that is new is `v` in `id`, and the barrier has seen it. -/
theorem Sound.write (hs : s.Sound) (hnext : t.next = s.next) (hmark : t.watermark = s.watermark)
    (hrem : t.remembered = s.remembered) (hid : id < s.next) (hv : s.Known v)
    (hholds : ∀ a w, t.Holds a w → s.Holds a w ∨ a = id ∧ w = v) : (t.remember id v).Sound := by
  rw [← hnext] at hid
  have hknown : ∀ x ∈ pushRef v [], x < t.next := fun x hx => hnext ▸ hv x hx
  rw [remember_eq]
  split
  · refine hs.mono hnext.ge hmark (fun _ h => List.mem_insert_of_mem (hrem ▸ h)) fun a w h => ?_
    refine (hholds a w h).imp_right ?_
    rintro ⟨rfl, rfl⟩
    exact ⟨hid, fun x hx => ⟨hknown x hx, fun _ _ => List.mem_insert_self⟩⟩
  · rename_i hnot
    refine hs.mono hnext.ge hmark (fun _ h => hrem ▸ h) fun a w h => (hholds a w h).imp_right ?_
    rintro ⟨rfl, rfl⟩
    exact ⟨hid, fun x hx => ⟨hknown x hx, fun hlt => absurd ⟨List.ne_nil_of_mem hx, hlt⟩ hnot⟩⟩

theorem setField_values {old row : Row} {idx : ℕ} (h : old.setField idx v = some row)
    (hw : w ∈ row.values) : w ∈ old.values ∨ w = v := by
  unfold Row.setField at h
  split at h
  · split at h
    · cases h
      exact List.mem_or_eq_of_mem_set hw
    · cases h
  · cases h
    simp only [Row.values, List.mem_cons, List.not_mem_nil, or_false] at hw ⊢
    exact hw.imp_left .inl
  · cases h

theorem holds_putRow {row old : Row} {idx : ℕ} (hold : s.rows.lookup id = some old)
    (hrow : old.setField idx v = some row) (h : (s.putRow id row old hold).Holds a w) :
    s.Holds a w ∨ a = id ∧ w = v := by
  rcases h with ⟨row', hlookup, hw⟩ | h
  · change (s.rows.insert id row).lookup a = some row' at hlookup
    rw [Table.lookup_insert_eq] at hlookup
    split at hlookup
    · rename_i ha
      cases hlookup
      subst ha
      exact (setField_values hrow hw).imp (fun hw => .inl ⟨old, hold, hw⟩) fun hw => ⟨rfl, hw⟩
    · exact .inl (.inl ⟨row', hlookup, hw⟩)
  · exact .inl (.inr h)

theorem Sound.arraySet {room : Bool} {idx : ℕ} (hs : s.Sound) (hid : id < s.next)
    (hv : s.Known v) : (s.arraySet room id idx v).2.Sound := by
  unfold Store.arraySet
  split
  · refine hs.write rfl rfl rfl hid hv fun a w h => ?_
    rcases h with h | ⟨idx', h⟩
    · exact .inl (.inl h)
    · change (s.elems.insert (id, idx) v).lookup (a, idx') = some w at h
      rw [Table.lookup_insert_eq] at h
      split at h
      · rename_i heq
        cases heq
        cases h
        exact .inr ⟨rfl, rfl⟩
      · exact .inl (.inr ⟨idx', h⟩)
  · exact hs

theorem Sound.same (hs : s.Sound) (hnext : s.next ≤ t.next) (hmark : t.watermark = s.watermark)
    (hrem : t.remembered = s.remembered) (hrows : t.rows = s.rows) (helems : t.elems = s.elems) :
    t.Sound := by
  refine hs.mono hnext hmark (fun _ h => hrem ▸ h) fun a w h => .inl ?_
  unfold Holds at h
  rwa [hrows, helems] at h

/-- A new object is as young as anything is. -/
theorem Sound.alloc {row : Row} (hs : s.Sound) (hv : ∀ v ∈ row.values, s.Known v) :
    (s.alloc row).Sound := by
  refine hs.mono (Nat.le_succ _) rfl (fun _ h => h) fun a w h => ?_
  rcases h with ⟨row', hrow, hw⟩ | h
  · change (s.rows.insert s.next row).lookup a = some row' at hrow
    rw [Table.lookup_insert_eq] at hrow
    split at hrow
    · rename_i ha
      cases hrow
      rw [ha]
      refine .inr ⟨Nat.lt_succ_self _, fun x hx => ⟨Nat.lt_succ_of_lt (hv w hw x hx), ?_⟩⟩
      exact fun hlt => absurd s.watermark_le (Nat.not_le_of_lt hlt)
    · exact .inl (.inl ⟨row', hrow, hw⟩)
  · exact .inl (.inr h)

theorem Sound.setField {room : Bool} {idx : ℕ} (hs : s.Sound) (hv : s.Known v) :
    (s.setField room id idx v).2.Sound := by
  unfold Store.setField
  split
  · split
    · exact hs
    · rename_i old hold
      split
      · rename_i hrow
        exact hs.write rfl rfl rfl (s.rows_lt id old hold) hv fun a w => holds_putRow hold hrow
      · exact hs
  · exact hs

theorem Sound.fillWhole (hs : s.Sound) (hv : s.Known v) : (s.fillWhole id v).Sound := by
  unfold Store.fillWhole
  split
  · exact hs
  · rename_i old hold
    split
    · rename_i row hrow
      refine hs.write rfl rfl rfl (s.rows_lt id old hold) hv fun a w h => ?_
      refine holds_putRow hold hrow (h.imp_right fun ⟨idx, h⟩ => ⟨idx, ?_⟩)
      change (s.elems.filterRows _).lookup (a, idx) = some w at h
      rw [Table.lookup_filterRows, Option.filter_eq_some_iff] at h
      exact h.1
    · exact hs

theorem Sound.known (hs : s.Sound) (h : s.Holds a v) : s.Known v :=
  fun x hx => ((hs a v h).2 x hx).1

theorem Sound.copyElem {room : Bool} {dst i src j : ℕ} (hs : s.Sound) (hdst : dst < s.next) :
    (s.copyElem room dst i src j).2.Sound := by
  unfold Store.copyElem
  split
  · exact hs
  · rename_i default hdefault
    obtain ⟨row, hrow, hvalue⟩ := Option.bind_eq_some_iff.mp hdefault
    refine hs.arraySet hdst ?_
    cases helem : s.elems.lookup (src, j) with
    | none => exact hs.known (.inl ⟨row, hrow, List.mem_of_getElem? hvalue⟩)
    | some w => exact hs.known (.inr ⟨j, helem⟩)

/-! ## A collection -/

/-- A row the sweep leaves is as it was, with its elements, and no element is new. -/
theorem sweepIds_kept {ids : List ℕ} (h : sweepIds marks base ids s = some s') :
    (∀ key v, s'.elems.lookup key = some v → s.elems.lookup key = some v) ∧
      ∀ id row, s'.rows.lookup id = some row → s.rows.lookup id = some row ∧
        ∀ i, s'.elems.lookup (id, i) = s.elems.lookup (id, i) := by
  induction ids generalizing s with
  | nil =>
    cases h
    exact ⟨fun _ _ h => h, fun _ _ h => ⟨h, fun _ => rfl⟩⟩
  | cons a ids ih =>
    unfold sweepIds at h
    split at h
    · cases h
    · exact ih h
    · obtain ⟨helems, hrows⟩ := ih h
      have hfilter : ∀ key, (s.delete a).elems.lookup key =
          (s.elems.lookup key).filter (fun _ => decide (key.1 ≠ a)) :=
        fun key => Table.lookup_filterRows _ _ key
      refine ⟨fun key v hv => ?_, fun id row hrow => ?_⟩
      · have hmem := helems key v hv
        rw [hfilter, Option.filter_eq_some_iff] at hmem
        exact hmem.1
      · obtain ⟨hrow, hsame⟩ := hrows id row hrow
        change (s.rows.erase a).lookup id = some row at hrow
        rw [Table.lookup_erase_eq] at hrow
        split at hrow
        · cases hrow
        · rename_i hne
          refine ⟨hrow, fun i => ?_⟩
          rw [hsame i, hfilter]
          cases s.elems.lookup (id, i) <;> simp [hne]

theorem collect_sweeps (h : s.collect opts roots pages = some s') :
    ∃ marks ids swept, sweepIds marks (s.base opts) ids s = some swept ∧
      s'.rows = swept.rows ∧ s'.elems = swept.elems ∧ s'.next = swept.next ∧
        s'.watermark = swept.next := by
  unfold collect at h
  unfold Store.base
  cases hdue : s.majorDue opts with
  | true =>
    simp only [hdue, if_true, major, Option.bind_eq_bind, Option.bind_eq_some_iff,
      Option.pure_def, Option.some.injEq] at h ⊢
    obtain ⟨_, ⟨marks, _, swept, hswept, rfl⟩, rfl⟩ := h
    exact ⟨marks, _, swept, hswept, rfl, rfl, rfl, rfl⟩
  | false =>
    simp only [hdue, Bool.false_eq_true, if_false, minor, Option.bind_eq_bind,
      Option.bind_eq_some_iff, Option.pure_def, Option.some.injEq] at h ⊢
    obtain ⟨swept, ⟨marks, _, hswept⟩, rfl⟩ := h
    exact ⟨marks, _, swept, hswept, rfl, rfl, rfl, rfl⟩

/-- Nothing is younger than what a collection leaves. -/
theorem Sound.collect (hs : s.Sound) (h : s.collect opts roots pages = some s') : s'.Sound := by
  obtain ⟨marks, ids, swept, hswept, hrows, helems, hnext, hmark⟩ := collect_sweeps h
  obtain ⟨hold, hkept⟩ := sweepIds_kept hswept
  rw [next_sweepIds hswept] at hnext hmark
  intro a w hw
  have hheld : s.Holds a w := by
    unfold Holds at hw
    rw [hrows, helems] at hw
    rcases hw with ⟨row, hrow, hw⟩ | ⟨idx, hw⟩
    · exact .inl ⟨row, (hkept a row hrow).1, hw⟩
    · exact .inr ⟨idx, hold _ _ hw⟩
  obtain ⟨ha, hx⟩ := hs a w hheld
  rw [Sees, hnext, hmark]
  refine ⟨ha, fun x hxw => ⟨(hx x hxw).1, fun _ hle => ?_⟩⟩
  exact absurd (hx x hxw).1 (Nat.not_lt_of_le hle)

theorem Sound.step {act : Act} (hs : s.Sound) (hown : s.Owned act)
    (h : s.step act = some s') : s'.Sound := by
  cases act with
  | newStruct room type fields =>
    cases h
    unfold Store.newStruct
    split
    · exact hs.alloc hown
    · exact hs.same (Nat.le_succ _) rfl rfl rfl rfl
  | newArray room type len default traced =>
    cases h
    unfold Store.newArray
    split
    · refine hs.alloc fun v hv => ?_
      rcases List.mem_cons.mp hv with rfl | hv
      · exact fun x hx => absurd hx List.not_mem_nil
      · exact List.mem_singleton.mp hv ▸ hown
    · exact hs.same (Nat.le_succ _) rfl rfl rfl rfl
  | setField room id idx v =>
    cases h
    exact hs.setField hown
  | arraySet room id idx v =>
    cases h
    exact hs.arraySet hown.1 hown.2
  | fillWhole id v =>
    cases h
    exact hs.fillWhole hown
  | copyElem room dst i src j =>
    cases h
    exact hs.copyElem hown
  | pin v =>
    cases h
    unfold Store.pin
    split
    · exact hs.same (Nat.le_refl _) rfl rfl rfl rfl
    · exact hs
  | unpin v =>
    cases h
    unfold Store.unpin
    split
    · split
      · split
        · exact hs.same (Nat.le_refl _) rfl rfl rfl rfl
        · exact hs.same (Nat.le_refl _) rfl rfl rfl rfl
      · exact hs
    · exact hs
  | unpinAll =>
    cases h
    exact hs.same (Nat.le_refl _) rfl rfl rfl rfl
  | collect opts roots pages => exact hs.collect h

/-! ## What a collection keeps -/

theorem mem_rememberedChildren :
    x ∈ s.rememberedChildren ↔ ∃ a ∈ s.remembered, x ∈ s.scan a [] := by
  have hfold : ∀ (ids acc : List ℕ), x ∈ ids.foldl (fun acc id => s.scan id acc) acc ↔
      (∃ a ∈ ids, x ∈ s.scan a []) ∨ x ∈ acc := by
    intro ids
    induction ids with
    | nil => simp
    | cons a ids ih =>
      intro acc
      rw [List.foldl_cons, ih, mem_scan, List.exists_mem_cons_iff, or_left_comm, or_assoc]
  unfold rememberedChildren
  rw [hfold]
  simp

theorem Sound.traced_lt (hs : s.Sound) (hroots : ∀ r ∈ rootIds roots, r < s.next)
    (h : s.Traced opts roots id) : id < s.next := by
  have hchild : ∀ a b, b ∈ s.scan a [] → b < s.next := by
    intro a b hb
    obtain ⟨v, hv, hb⟩ := holds_of_mem_scan hb
    exact hs.known hv b hb
  obtain ⟨a, ha, hpath⟩ := h
  cases hpath with
  | tail _ hb => exact hchild _ _ hb.2
  | refl =>
    unfold Store.start at ha
    split at ha
    · exact hroots id ha
    · rcases List.mem_append.mp ha with ha | ha
      · exact hroots id ha
      · obtain ⟨b, _, hb⟩ := mem_rememberedChildren.mp ha
        exact hchild b id hb

/-- The old part of a live path is not followed, and its way back to the young is remembered. -/
theorem Sound.traced_of_live (hs : s.Sound) (opts : Settings) (h : s.Live roots id) :
    id < s.base opts ∨ s.Traced opts roots id := by
  obtain ⟨r, hr, hpath⟩ := h
  induction hpath with
  | refl =>
    refine .inr ⟨r, ?_, .refl⟩
    unfold Store.start
    split
    · exact hr
    · exact List.mem_append_left _ hr
  | @tail a b _ hb ih =>
    rcases Nat.lt_or_ge b (s.base opts) with hlt | hle
    · exact .inl hlt
    rcases Nat.lt_or_ge a (s.base opts) with hold | hyoung
    · obtain ⟨v, hv, hbv⟩ := holds_of_mem_scan hb
      refine .inr ⟨b, ?_, .refl⟩
      unfold Store.base at hle hold
      unfold Store.start
      split at hold
      · cases hold
      · rename_i hminor
        rw [if_neg hminor] at hle ⊢
        apply List.mem_append_right
        exact mem_rememberedChildren.mpr ⟨a, ((hs a v hv).2 b hbv).2 hold hle, hb⟩
    · obtain ⟨c, hc, hpath⟩ := ih.resolve_left (Nat.not_lt_of_le hyoung)
      exact .inr ⟨c, hc, hpath.tail ⟨hyoung, hb⟩⟩

/-- In every run of a program that has its references from the store, a collection whose roots are
too is done, and what is live after it is as before, its elements included. -/
theorem live_kept {trigger : ℕ} (h : Run.ReachableIf step Owned (new trigger) s)
    (hroots : ∀ r ∈ roots, s.Known r) : ∃ s', s.collect opts roots pages = some s' ∧
      ∀ id row, s.Live roots id → s.rows.lookup id = some row → s'.rows.lookup id = some row ∧
        ∀ i, s'.elems.lookup (id, i) = s.elems.lookup (id, i) := by
  have hinit : (new trigger).Sound := by
    rintro a v (⟨row, hrow, _⟩ | ⟨idx, helem⟩)
    · cases hrow
    · cases helem
  have hs : s.Sound := h.invariant Sound hinit fun _ _ _ => Sound.step
  have hsome : (s.collect opts roots pages).isSome := by
    rw [collect_isSome_iff]
    intro id hid
    have hlt := hs.traced_lt (fun r hr => ?_) hid
    · exact Nat.div_le_div_right (by omega)
    · obtain ⟨v, hv, hr⟩ := (mem_pushRefs_iff roots r).mp hr
      exact hroots v hv r hr
  obtain ⟨s', hs'⟩ := Option.isSome_iff_exists.mp hsome
  refine ⟨s', hs', fun id row hlive hrow => ?_⟩
  have hrow' : s'.rows.lookup id = some row :=
    ((lookup_collect hs' id).1 (hs.traced_of_live opts hlive)).trans hrow
  obtain ⟨marks, ids, swept, hswept, hrows, helems, _, _⟩ := collect_sweeps hs'
  rw [hrows] at hrow' ⊢
  rw [helems]
  exact ⟨hrow', ((sweepIds_kept hswept).2 id row hrow').2⟩

/-- The root refers to an object that nothing else keeps. -/
theorem live_kept_field :
    ∃ s', (((new 16).newStruct true 0 []).2.newStruct true 1 [.objref 0]).2.collect
      ⟨2, 4096, 16⟩ [.objref 1] 0 = some s' ∧ s'.rows.lookup 0 = some (.struct 0 []) := by
  have hfirst : (new 16).Owned (.newStruct true 0 []) := by simp [Owned]
  have hsecond : ((new 16).newStruct true 0 []).2.Owned (.newStruct true 1 [.objref 0]) := by
    simp [Owned, Known, pushRef, Store.newStruct, Store.alloc, take]
  obtain ⟨s', hs', hkept⟩ := @live_kept _ [.objref 1] ⟨2, 4096, 16⟩ 0 16
    (.step (.step .init hfirst rfl) hsecond rfl)
    (by simp [Known, pushRef, Store.newStruct, Store.alloc, take, new])
  exact ⟨s', hs', (hkept 0 _ ⟨1, List.mem_singleton.mpr rfl, .single (by decide)⟩ rfl).1⟩

end Store

end ErlangWasm.Heap
