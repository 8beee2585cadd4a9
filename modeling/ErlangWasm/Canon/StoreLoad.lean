import ErlangWasm.Canon.Strings

/-!
# What is stored is loaded

`store` changes the value's own bytes and the blocks it was granted, and `load` then gives the value
back, with its flags in order, exactly when every length fits its field and every UTF-16 string
stands at an even pointer.
-/

namespace ErlangWasm.Canon

open Reasoning.Bytes
open Reasoning.Unicode

variable {enc : Encoding} {g : Guest} {used : ℕ → Prop}

/-! ## Lists -/

theorem isU8_eq {d : Desc} (h : d.isU8) : d = .int .u8 := by
  unfold Desc.isU8 at h
  split at h
  · rfl
  · cases h

theorem places_bytes (bin : Bytes) :
    Places [bytesPlacing bin] (placeBytes bin) (fun m p len => readMemory m p len) bin := by
  intro used g hfair
  have hplacing : bytesPlacing bin = ⟨1, bin.length, bin.length, 2 ^ 32, false⟩ := rfl
  obtain ⟨p, g', hplace, hp, hgood, -, heffect, hread⟩ := placeBytes_spec hplacing hfair
  refine ⟨p, _, g', hplace, hp, fun hg => (hgood.mp hg).1, heffect, fun m hm hsame => ?_⟩
  obtain ⟨hbytes, hin⟩ := hread m hm fun a ha => hsame a (.inr ha)
  dsimp only
  rw [hgood]
  constructor
  · intro hok
    obtain ⟨bs, hbs, hlen⟩ := readMemory_le (Nat.mod_le bin.length (2 ^ 32)) hin
    rw [hok] at hbs
    cases hbs
    refine ⟨?_, nofun⟩
    rw [hlen]
    exact Nat.mod_lt _ (by decide)
  · rintro ⟨hlt, -⟩
    rw [Nat.mod_eq_of_lt hlt, hbytes]

theorem places_bytesValue {d : Desc} (bin : Bytes) :
    Places (placings enc (.list d) (.binary bin)) (placeBytes bin)
      (fun m p len => do return .binary (← readMemory m p len))
      (inOrder (.list d) (.binary bin)) := by
  intro used g hfair
  obtain ⟨p, len, g', hplace, hp, hlen, heffect, hread⟩ := places_bytes bin used g hfair
  exact ⟨p, len, g', hplace, hp, hlen, heffect, hread.map fun _ _ => Value.binary.inj⟩

theorem storesAs_bytes {d : Desc} {bin : Bytes} (h : d.isU8) :
    StoresAs enc (.list d) (.binary bin) := by
  obtain rfl := isU8_eq h
  exact storesAs_of_places rfl (places_bytesValue bin) (fun _ _ => rfl) fun _ _ => rfl

/-- The elements from `i` on, each stored at its multiple of the size. -/
theorem stores_elems {d : Desc} {vs : List Value} (h : ∀ v ∈ vs, StoresAs enc d v) (p i : ℕ) :
    Stores (p + (i + vs.length) * size d) (Within · (p + i * size d) (vs.length * size d))
      (vs.flatMap (placings enc d)) (storeElems (store enc d) p (size d) vs i)
      (fun m => (List.range' i vs.length).mapM fun k => load enc m d (p + k * size d))
      (vs.map (inOrder d)) := by
  induction vs generalizing i with
  | nil => exact Stores.nil
  | cons v vs ih =>
    have hfirst := h v List.mem_cons_self (p + i * size d)
    have hrest := ih (fun u hu => h u (List.mem_cons_of_mem _ hu)) (i + 1)
    have hstep : (i + 1) * size d = i * size d + size d := Nat.succ_mul i (size d)
    have hcount : (vs.length + 1) * size d = vs.length * size d + size d := Nat.succ_mul _ _
    have hend : i + 1 + vs.length = i + (vs.length + 1) := by omega
    have hsplit : (i + (vs.length + 1)) * size d = i * size d + (vs.length + 1) * size d :=
      Nat.add_mul _ _ _
    have hlim : p + i * size d + size d ≤ p + (i + (vs.length + 1)) * size d := by omega
    rw [hend] at hrest
    have hboth := Stores.seq (f := fun x xs => x :: xs)
      (fun _ _ _ _ heq => List.cons.inj heq) (hfirst.mono hlim fun _ ha => ha) hrest
      (fun a ha ha' => by
        unfold Within at ha ha'
        omega)
    rw [List.length_cons, List.flatMap_cons, List.range'_succ]
    refine (hboth.mono (Nat.le_refl _) fun a ha => ?_).congr ?_ ?_
    · unfold Within at ha ⊢
      omega
    · intro g
      rfl
    · intro m
      rw [List.mapM_cons]

theorem length_of_mapM {α β : Type} {f : α → Outcome β} {l : List α} {xs : List β}
    (h : l.mapM f = .ok xs) : xs.length = l.length := by
  induction l generalizing xs with
  | nil =>
    cases h
    rfl
  | cons a l ih =>
    rw [List.mapM_cons] at h
    obtain ⟨x, -, h⟩ := bind_eq_ok.mp h
    obtain ⟨ys, hys, h⟩ := bind_eq_ok.mp h
    cases h
    rw [List.length_cons, List.length_cons, ih hys]

theorem checkAligned_of {p a : ℕ} (h : p % a = 0) : checkAligned p a = .ok () := by
  rw [checkAligned, if_pos]
  exact_mod_cast h

theorem ensureListFits_of {m : Memory} {p n s : ℕ} (h : p + n * s ≤ m.pages * pageSize) :
    ensureListFits m p n s = .ok () := by
  rw [ensureListFits, if_pos]
  exact ⟨Int.natCast_nonneg n, Int.natCast_nonneg p, by exact_mod_cast h⟩

/-- How a list is read from its pointer and length. -/
def readList (enc : Encoding) (d : Desc) (m : Memory) (p len : ℕ) : Outcome Value := do
  checkAligned p (align d)
  ensureListFits m p len (size d)
  return .list (← loadElems (load enc m d) p (size d) len)

theorem places_list {d : Desc} {vs : List Value} (h : ∀ v ∈ vs, StoresAs enc d v) :
    Places (listPlacing d vs :: vs.flatMap (placings enc d)) (placeList (store enc d) d vs)
      (readList enc d) (.list (vs.map (inOrder d))) := by
  intro used g hfair
  obtain ⟨p, g₁, hrealloc, heffect, ⟨gr, rest, hgrants, hgr⟩, haligned, hp, -, hin, hfoot, hrest⟩ :=
    realloc_spec (align d) (vs.length * size d) hfair
  have hstored := stores_elems h p 0
  rw [Nat.zero_add, Nat.zero_mul, Nat.add_zero] at hstored
  obtain ⟨g₂, hstore, heffect', hread⟩ := hstored _ g₁ hin hrest fun a ha => .inr ha
  have hboth := heffect.trans heffect'
  have hgood : Good (listPlacing d vs :: vs.flatMap (placings enc d)) g.grants ↔
      vs.length < 2 ^ 32 ∧ Good (vs.flatMap (placings enc d)) g₁.grants := by
    rw [heffect.grants, hgrants, Good]
    exact ⟨fun hg => ⟨hg.1, hg.2.2⟩, fun hg => ⟨hg.1, fun h => (by cases h), hg.2⟩⟩
  refine ⟨p, vs.length, g₂, ?_, hp, fun hg => (hgood.mp hg).1, hboth.mono fun a ha => ?_,
    fun m hm hsame => ?_⟩
  · show (realloc (align d) (vs.length * size d) g >>= fun r =>
      storeElems (store enc d) r.1 (size d) vs 0 r.2 >>= fun g => pure ((r.1, vs.length), g)) = _
    rw [hrealloc]
    show (storeElems (store enc d) p (size d) vs 0 g₁ >>= fun g =>
      pure ((p, vs.length), g)) = _
    rw [hstore]
    rfl
  · right
    rw [← List.singleton_append, foot_append]
    rcases ha with ha | ha
    · cases ha
    · exact .inl ((hfoot a).mp ha)
  · have hbounds : p + vs.length * size d ≤ m.pages * pageSize :=
      le_trans hin (Nat.mul_le_mul_right _ (le_trans heffect'.le_pages hm))
    have helems := hread m hm fun a ha => hsame a (by
      right
      rw [← List.singleton_append, foot_append]
      rcases ha with ha | ha
      · exact .inl ((hfoot a).mp ha)
      · rw [heffect.grants] at ha
        exact .inr ha)
    rw [← List.range_eq_range'] at helems
    dsimp only
    rw [hgood, ← helems]
    constructor
    · intro hok
      obtain ⟨_, -, hok⟩ := bind_eq_ok.mp hok
      obtain ⟨_, -, hok⟩ := bind_eq_ok.mp hok
      obtain ⟨us, hus, heq⟩ := bind_eq_ok.mp hok
      cases heq
      have hlen := length_of_mapM hus
      rw [List.length_range, List.length_map] at hlen
      rw [← hlen] at hus
      refine ⟨?_, hus⟩
      rw [hlen]
      exact Nat.mod_lt _ (by decide)
    · rintro ⟨hlt, hok⟩
      have hat : p % align d = 0 := haligned
      rw [Nat.mod_eq_of_lt hlt, readList, checkAligned_of hat, ensureListFits_of hbounds]
      have hall : loadElems (load enc m d) p (size d) vs.length = _ := hok
      show (loadElems (load enc m d) p (size d) vs.length >>= fun us => pure (Value.list us)) = _
      rw [hall]
      rfl

theorem storesAs_list {d : Desc} {vs : List Value} (hd : ¬ d.isU8)
    (h : ∀ v ∈ vs, StoresAs enc d v) : StoresAs enc (.list d) (.list vs) := by
  have hplace : Places (placings enc (.list d) (.list vs)) (placeList (store enc d) d vs)
      (readList enc d) (inOrder (.list d) (.list vs)) := places_list h
  apply storesAs_of_places rfl hplace
  · intro ptr g
    show (if d.isU8 then crash else placeList (store enc d) d vs g >>= fun r =>
      writePtrLen r.2 ptr r.1.1 r.1.2) = _
    rw [if_neg hd]
  · intro m ptr
    show (readPtrLen m ptr >>= fun r => if d.isU8 then _ else readList enc d m r.1 r.2) = _
    congr 1
    funext r
    rw [if_neg hd]

/-! ## Tuples and records -/

/-- The addresses from `lo` up to `hi`. -/
def Between (a lo hi : ℕ) : Prop := lo ≤ a ∧ a < hi

theorem stores_items {ds : List Desc} {vs : List Value}
    (ih : ∀ d ∈ ds, ∀ v, HasShape d v → StoresAs enc d v) (h : ShapeItems ds vs) (ptr off : ℕ) :
    Stores (ptr + endOf (sizeAlignItems ds) off)
      (Between · (ptr + off) (ptr + endOf (sizeAlignItems ds) off)) (placingsItems enc ds vs)
      (storeItems enc ds ptr off vs) (fun m => loadItems enc m ds ptr off) (inOrderItems ds vs) := by
  induction ds generalizing vs off with
  | nil =>
    cases vs with
    | nil => exact Stores.nil
    | cons v vs => cases h
  | cons d ds ihds =>
    cases vs with
    | nil => cases h
    | cons v vs =>
      obtain ⟨hv, hvs⟩ := h
      have hfirst := ih d List.mem_cons_self v hv (ptr + alignUp off (align d))
      have hrest := ihds (fun e he => ih e (List.mem_cons_of_mem _ he)) hvs
        (alignUp off (align d) + size d)
      have hup := le_alignUp off (align_pos d)
      have hend := le_endOf (laid_items fun e (_ : e ∈ ds) => laid_sizeAlign e)
        (alignUp off (align d) + size d)
      have hsame : endOf (sizeAlignItems (d :: ds)) off =
          endOf (sizeAlignItems ds) (alignUp off (align d) + size d) := rfl
      rw [hsame]
      have hlim : ptr + alignUp off (align d) + size d ≤
          ptr + endOf (sizeAlignItems ds) (alignUp off (align d) + size d) := by omega
      have hboth := Stores.seq (f := fun x xs => x :: xs)
        (fun _ _ _ _ heq => List.cons.inj heq) (hfirst.mono hlim fun _ ha => ha) hrest
        (fun a ha ha' => by
          unfold Within at ha
          unfold Between at ha'
          omega)
      refine (hboth.mono (Nat.le_refl _) fun a ha => ?_).congr (fun _ => rfl) fun _ => rfl
      unfold Within Between at ha
      unfold Between
      omega

theorem storesAs_tuple {ds : List Desc} {vs : List Value}
    (ih : ∀ d ∈ ds, ∀ v, HasShape d v → StoresAs enc d v) (h : ShapeItems ds vs) :
    StoresAs enc (.tuple ds) (.tuple vs) := by
  intro ptr
  have hle := endOf_le_aggregate (laid_items fun d (_ : d ∈ ds) => laid_sizeAlign d)
  have hsize : size (.tuple ds) = (aggregate (sizeAlignItems ds)).1 := rfl
  have hitems := (stores_items ih h ptr 0).map fun _ _ => Value.tuple.inj
  refine (hitems.mono ?_ fun a ha => ?_).congr (fun _ => rfl) fun _ => rfl
  · rw [hsize]
    omega
  · unfold Between at ha
    unfold Within
    rw [hsize]
    omega

theorem length_of_loadItems {m : Memory} {ds : List Desc} {ptr off : ℕ} {vs : List Value}
    (h : loadItems enc m ds ptr off = .ok vs) : vs.length = ds.length := by
  induction ds generalizing off vs with
  | nil =>
    cases h
    rfl
  | cons d ds ih =>
    obtain ⟨v, -, h⟩ := bind_eq_ok.mp h
    obtain ⟨us, hus, h⟩ := bind_eq_ok.mp h
    cases h
    rw [List.length_cons, List.length_cons, ih hus]

theorem putField_new {kvs : List (Bytes × Value)} {n : Bytes} (h : n ∉ kvs.map Prod.fst)
    (v : Value) : putField kvs n v = kvs ++ [(n, v)] := by
  induction kvs with
  | nil => rfl
  | cons kv kvs ih =>
    rw [List.map_cons, List.mem_cons, not_or] at h
    rw [putField, if_neg (Ne.symm h.1), ih h.2]
    rfl

/-- A record is read as the tuple of its fields. -/
theorem loadFields_eq {m : Memory} {fields : List (Bytes × Desc)} {ptr off : ℕ}
    {acc : List (Bytes × Value)} (hnodup : (fields.map Prod.fst).Nodup)
    (hacc : ∀ n ∈ fields.map Prod.fst, n ∉ acc.map Prod.fst) :
    loadFields enc m fields ptr off acc = loadItems enc m (fields.map Prod.snd) ptr off >>=
      fun vs => pure (acc ++ (fields.map Prod.fst).zip vs) := by
  induction fields generalizing off acc with
  | nil =>
    show Except.ok acc = Except.ok (acc ++ [])
    rw [List.append_nil]
  | cons f fields ih =>
    obtain ⟨n, d⟩ := f
    rw [List.map_cons, List.nodup_cons] at hnodup
    have hnew := hacc n List.mem_cons_self
    show (load enc m d (ptr + alignUp off (align d)) >>= fun v =>
      loadFields enc m fields ptr (alignUp off (align d) + size d) (putField acc n v)) =
      ((load enc m d (ptr + alignUp off (align d)) >>= fun v =>
        loadItems enc m (fields.map Prod.snd) ptr (alignUp off (align d) + size d) >>= fun vs =>
          pure (v :: vs)) >>= fun vs => pure (acc ++ (n :: fields.map Prod.fst).zip vs))
    rw [bind_assoc]
    congr 1
    funext v
    rw [putField_new hnew, ih hnodup.2, bind_assoc]
    · congr 1
      funext vs
      show Except.ok _ = Except.ok _
      rw [List.append_assoc]
      rfl
    · intro k hk
      rw [List.map_append, List.mem_append, not_or]
      refine ⟨hacc k (List.mem_cons_of_mem _ hk), fun heq => ?_⟩
      cases List.mem_singleton.mp heq
      exact hnodup.1 hk

/-- A record is stored as the tuple of its fields. -/
theorem storeFields_eq {fields : List (Bytes × Desc)} {kvs all : List (Bytes × Value)} {ptr off : ℕ}
    (h : ShapeFields fields kvs) (hall : ∀ kv ∈ kvs, all.lookup kv.1 = some kv.2) (g : Guest) :
    storeFields enc fields ptr off all g =
      storeItems enc (fields.map Prod.snd) ptr off (kvs.map Prod.snd) g := by
  induction fields generalizing kvs off g with
  | nil =>
    cases kvs with
    | nil => rfl
    | cons kv kvs => cases h
  | cons f fields ih =>
    obtain ⟨n, d⟩ := f
    cases kvs with
    | nil => cases h
    | cons kv kvs =>
      obtain ⟨k, v⟩ := kv
      obtain ⟨rfl, -, hrest⟩ := h
      have hget : getField n all = .ok v := by rw [getField, hall (n, v) List.mem_cons_self]
      show (getField n all >>= fun v => store enc d (ptr + alignUp off (align d)) v g >>= fun g =>
        storeFields enc fields ptr (alignUp off (align d) + size d) all g) =
        (store enc d (ptr + alignUp off (align d)) v g >>= fun g =>
          storeItems enc (fields.map Prod.snd) ptr (alignUp off (align d) + size d)
            (kvs.map Prod.snd) g)
      rw [hget]
      show (store enc d (ptr + alignUp off (align d)) v g >>= _) = _
      congr 1
      funext g
      exact ih hrest (fun kv hkv => hall kv (List.mem_cons_of_mem _ hkv)) g

/-- The fields of a record as the items of a tuple. -/
theorem shapeItems_of_fields {fields : List (Bytes × Desc)} {kvs : List (Bytes × Value)}
    (h : ShapeFields fields kvs) : fields.map Prod.fst = kvs.map Prod.fst ∧
      ShapeItems (fields.map Prod.snd) (kvs.map Prod.snd) ∧
      placingsFields enc fields kvs =
        placingsItems enc (fields.map Prod.snd) (kvs.map Prod.snd) ∧
      inOrderFields fields kvs =
        (fields.map Prod.fst).zip (inOrderItems (fields.map Prod.snd) (kvs.map Prod.snd)) := by
  induction fields generalizing kvs with
  | nil =>
    cases kvs with
    | nil => exact ⟨rfl, trivial, rfl, rfl⟩
    | cons kv kvs => cases h
  | cons f fields ih =>
    obtain ⟨n, d⟩ := f
    cases kvs with
    | nil => cases h
    | cons kv kvs =>
      obtain ⟨k, v⟩ := kv
      obtain ⟨rfl, hv, hrest⟩ := h
      obtain ⟨h1, h2, h3, h4⟩ := ih hrest
      refine ⟨?_, ⟨hv, h2⟩, ?_, ?_⟩
      · rw [List.map_cons, List.map_cons, h1]
      · show placings enc d v ++ placingsFields enc fields kvs = _
        rw [h3]
        rfl
      · show (n, inOrder d v) :: inOrderFields fields kvs = _
        rw [h4]
        rfl

theorem lookup_of_nodup {kvs : List (Bytes × Value)} (h : (kvs.map Prod.fst).Nodup)
    {kv : Bytes × Value} (hkv : kv ∈ kvs) : kvs.lookup kv.1 = some kv.2 := by
  induction kvs with
  | nil => cases hkv
  | cons kv' kvs ih =>
    rw [List.map_cons, List.nodup_cons] at h
    rw [List.lookup_cons]
    rcases List.mem_cons.mp hkv with rfl | hin
    · rw [beq_self_eq_true]
    · have hne : (kv.1 == kv'.1) = false := by
        rw [beq_eq_false_iff_ne]
        intro heq
        apply h.1
        rw [← heq]
        exact List.mem_map_of_mem hin
      rw [hne]
      exact ih h.2 hin

theorem zip_injective {ns : List Bytes} {us vs : List Value} (hu : us.length = ns.length)
    (hv : vs.length = ns.length) (h : ns.zip us = ns.zip vs) : us = vs := by
  have hsnd := congrArg (List.map Prod.snd) h
  rwa [List.map_snd_zip (by omega), List.map_snd_zip (by omega)] at hsnd

theorem length_inOrderItems {ds : List Desc} {vs : List Value} (h : ShapeItems ds vs) :
    (inOrderItems ds vs).length = ds.length := by
  induction ds generalizing vs with
  | nil =>
    cases vs with
    | nil => rfl
    | cons v vs => cases h
  | cons d ds ih =>
    cases vs with
    | nil => cases h
    | cons v vs =>
      show (inOrder d v :: inOrderItems ds vs).length = _
      rw [List.length_cons, List.length_cons, ih h.2]

theorem storesAs_record {fields : List (Bytes × Desc)} {kvs : List (Bytes × Value)}
    (ih : ∀ f ∈ fields, ∀ v, HasShape f.2 v → StoresAs enc f.2 v)
    (hnodup : (kvs.map Prod.fst).Nodup) (h : ShapeFields fields kvs) :
    StoresAs enc (.record fields) (.map kvs) := by
  intro ptr
  obtain ⟨hnames, hitems, hplacings, horder⟩ := @shapeItems_of_fields enc fields kvs h
  have ihitems : ∀ d ∈ fields.map Prod.snd, ∀ v, HasShape d v → StoresAs enc d v := by
    intro d hd
    obtain ⟨f, hf, rfl⟩ := List.mem_map.mp hd
    exact ih f hf
  have hle := endOf_le_aggregate (laid_items fun d (_ : d ∈ fields.map Prod.snd) => laid_sizeAlign d)
  have hsize : size (.record fields) = (aggregate (sizeAlignItems (fields.map Prod.snd))).1 := by
    rw [← sizeAlignFields_eq]
    rfl
  have hstored := (stores_items ihitems hitems ptr 0).mapOn
    (f := fun vs => Value.map ((fields.map Prod.fst).zip vs)) fun m vs hvs heq => by
      apply zip_injective _ _ (Value.map.inj heq)
      · rw [length_of_loadItems hvs, List.length_map, List.length_map]
      · rw [length_inOrderItems hitems, List.length_map, List.length_map]
  rw [← horder, ← hplacings] at hstored
  refine (hstored.mono ?_ fun a ha => ?_).congr (fun g => ?_) fun m => ?_
  · rw [hsize]
    omega
  · unfold Between at ha
    unfold Within
    rw [hsize]
    omega
  · exact storeFields_eq h (fun kv hkv => lookup_of_nodup hnodup hkv) g
  · show (loadFields enc m fields ptr 0 [] >>= fun kvs => pure (Value.map kvs)) = _
    rw [loadFields_eq (by rwa [hnames]) fun _ _ hin => List.not_mem_nil hin, bind_assoc]
    rfl

/-! ## Cases -/

theorem shapeCase_cases {cases : List (Tag × Option Desc)} {idx : ℕ} {payload : Value}
    (h : ShapeCase cases idx payload) :
    ∃ t o, cases[idx]? = some (t, o) ∧
      (o = none ∧ payload = .undefined ∨ ∃ d, o = some d ∧ HasShape d payload) := by
  induction cases generalizing idx with
  | nil => cases h
  | cons c cases ih =>
    obtain ⟨t, o⟩ := c
    cases idx with
    | succ idx =>
      cases o with
      | none => exact ih h
      | some d => exact ih h
    | zero =>
      cases o with
      | some d => exact ⟨t, some d, rfl, .inr ⟨d, rfl, h⟩⟩
      | none =>
        refine ⟨t, none, rfl, .inl ⟨rfl, ?_⟩⟩
        cases payload <;> first | rfl | cases h

/-- What is stored, read and placed of a payload is that of its case. -/
theorem case_none {cases : List (Tag × Option Desc)} {idx : ℕ} {t : Tag}
    (h : cases[idx]? = some (t, none)) (ptr : ℕ) (payload : Value) :
    (∀ g, storeCase enc cases idx ptr payload g = .ok g) ∧
      (∀ m, loadCase enc m cases idx ptr = .ok .undefined) ∧
      placingsCase enc cases idx payload = [] ∧ inOrderCase cases idx payload = payload := by
  induction cases generalizing idx with
  | nil => cases h
  | cons c cases ih =>
    obtain ⟨u, o⟩ := c
    cases idx with
    | zero =>
      cases h
      exact ⟨fun _ => rfl, fun _ => rfl, rfl, rfl⟩
    | succ idx =>
      cases o with
      | none => exact ih h
      | some d => exact ih h

theorem case_some {cases : List (Tag × Option Desc)} {idx : ℕ} {t : Tag} {d : Desc}
    (h : cases[idx]? = some (t, some d)) (ptr : ℕ) (payload : Value) :
    (∀ g, storeCase enc cases idx ptr payload g = store enc d ptr payload g) ∧
      (∀ m, loadCase enc m cases idx ptr = load enc m d ptr) ∧
      placingsCase enc cases idx payload = placings enc d payload ∧
      inOrderCase cases idx payload = inOrder d payload := by
  induction cases generalizing idx with
  | nil => cases h
  | cons c cases ih =>
    obtain ⟨u, o⟩ := c
    cases idx with
    | zero =>
      cases h
      exact ⟨fun _ => rfl, fun _ => rfl, rfl, rfl⟩
    | succ idx =>
      cases o with
      | none => exact ih h
      | some e => exact ih h

/-- The case of a name. -/
theorem getElem?_of_tag {cases : List (Tag × Option Desc)} {t u : Tag} {o : Option Desc}
    (ht : t ∈ cases.map Prod.fst)
    (h : cases[(cases.map Prod.fst).idxOf t]? = some (u, o)) : u = t := by
  have hget := List.getElem?_idxOf ht
  rw [List.getElem?_map, h] at hget
  exact Option.some.inj hget

theorem stores_disc {idx n : ℕ} (hi : idx < n) (hn : n < 2 ^ 32) (ptr : ℕ) :
    Stores (ptr + discSize n) (Within · ptr (discSize n)) []
      (fun g => storeInt g ptr (discSize n) idx) (fun m => readInt m ptr (discSize n) false)
      (idx : ℤ) := by
  intro used g hin hfair hused
  have hlen : (le (discSize n) idx).length = discSize n := length_le _ _
  rw [← hlen] at hin
  obtain ⟨g', hwrite, heffect, hread⟩ := writeMemory_spec hin
  rw [hlen] at heffect hread
  refine ⟨g', hwrite, heffect, reads_nil fun m hpages hsame => ?_⟩
  have hbytes := hread.always m hpages hsame
  exact readInt_of (lt_discSize hi hn) hbytes

/-- The payload of a case, after its discriminant. -/
theorem stores_case {cases : List (Tag × Option Desc)} {idx : ℕ} {t : Tag} {o : Option Desc}
    {payload : Value} (ih : ∀ c ∈ cases, ∀ d, c.2 = some d → ∀ v, HasShape d v → StoresAs enc d v)
    (hget : cases[idx]? = some (t, o))
    (ho : o = none ∧ payload = .undefined ∨ ∃ d, o = some d ∧ HasShape d payload) (ptr : ℕ) :
    Stores (ptr + size (.sum cases))
      (Between · (ptr + discSize cases.length) (ptr + size (.sum cases)))
      (placingsCase enc cases idx payload)
      (storeCase enc cases idx (ptr + payloadOffset cases) payload)
      (fun m => loadCase enc m cases idx (ptr + payloadOffset cases))
      (inOrderCase cases idx payload) := by
  rcases ho with ⟨rfl, rfl⟩ | ⟨d, rfl, hshape⟩
  · obtain ⟨hstore, hload, hplacings, horder⟩ :=
      @case_none enc cases idx t hget (ptr + payloadOffset cases) .undefined
    rw [hplacings, horder]
    exact Stores.nil.congr hstore hload
  · obtain ⟨hstore, hload, hplacings, horder⟩ :=
      @case_some enc cases idx t d hget (ptr + payloadOffset cases) payload
    have hmem := List.mem_of_getElem? hget
    obtain ⟨hdisc, -, hinside, -⟩ := payload_inside hmem rfl
    rw [hplacings, horder]
    have hd := ih _ hmem d rfl payload hshape (ptr + payloadOffset cases)
    refine (hd.mono (by omega) fun a ha => ?_).congr hstore hload
    unfold Within at ha
    unfold Between
    omega

/-- How the rest of a variant is read from its discriminant. -/
def loadPayload (enc : Encoding) (cases : List (Tag × Option Desc)) (ptr : ℕ) (disc : ℤ)
    (m : Memory) : Outcome Value := do
  let (t, _) ← nthCase disc cases
  return .sum t (← loadCase enc m cases disc.toNat ptr)

theorem storesAs_sum {cases : List (Tag × Option Desc)} {t : Tag} {payload : Value}
    (ih : ∀ c ∈ cases, ∀ d, c.2 = some d → ∀ v, HasShape d v → StoresAs enc d v)
    (ht : t ∈ cases.map Prod.fst) (hlen : cases.length < 2 ^ 32)
    (h : ShapeCase cases ((cases.map Prod.fst).idxOf t) payload) :
    StoresAs enc (.sum cases) (.sum t payload) := by
  intro ptr
  obtain ⟨u, o, hget, ho⟩ := shapeCase_cases h
  obtain rfl := getElem?_of_tag ht hget
  have hidx := List.idxOf_lt_length_of_mem ht
  rw [List.length_map] at hidx
  have hdisc := disc_inside cases
  have hfirst := (stores_disc hidx hlen ptr).mono (Nat.add_le_add_left hdisc ptr) fun _ ha => ha
  have hcase := (stores_case ih hget ho ptr).map (f := Value.sum u) fun _ _ heq =>
    (Value.sum.inj heq).2
  have hpayload : Stores _ _ _ _ (loadPayload enc cases (ptr + payloadOffset cases)
      ((cases.map Prod.fst).idxOf u : ℕ)) _ := hcase.congr (fun _ => rfl) fun m => by
    rw [loadPayload, nthCase_of hget]
    rfl
  have hboth := hfirst.dep hpayload fun a ha ha' => by
    unfold Within at ha
    unfold Between at ha'
    omega
  refine (hboth.mono (Nat.le_refl _) fun a ha => ?_).congr (fun g => ?_) fun _ => rfl
  · unfold Within Between at ha
    unfold Within
    omega
  · show (indexOf u (cases.map Prod.fst) >>= fun idx =>
      storeInt g ptr (discSize cases.length) idx >>= fun g =>
        storeCase enc cases idx (ptr + payloadOffset cases) payload g) = _
    rw [indexOf_of_mem ht]
    rfl

/-! ## All descriptors -/

/-- What is stored is loaded, if the grants are good. -/
theorem storesAs {d : Desc} {v : Value} (h : HasShape d v) : StoresAs enc d v := by
  induction d using Desc.induct generalizing v with
  | int t =>
    cases v with
    | int i => exact storesAs_int h
    | _ => cases h
  | f32 =>
    cases v with
    | float f => exact storesAs_f32 h
    | _ => cases h
  | f64 =>
    cases v with
    | float f => exact storesAs_f64 h
    | _ => cases h
  | bool =>
    cases v with
    | bool b => exact storesAs_bool b
    | _ => cases h
  | char =>
    cases v with
    | int i => exact storesAs_char h
    | _ => cases h
  | string =>
    cases v with
    | binary bin => exact storesAs_string h
    | _ => cases h
  | list d ih =>
    cases v with
    | binary bin => exact storesAs_bytes h
    | list vs => exact storesAs_list h.1 fun v hv => ih (h.2 v hv)
    | _ => cases h
  | record fields ih =>
    cases v with
    | map kvs => exact storesAs_record (fun f hf _ hv => ih f hf hv) h.1 h.2
    | _ => cases h
  | tuple ds ih =>
    cases v with
    | tuple vs => exact storesAs_tuple (fun d hd _ hv => ih d hd hv) h
    | _ => cases h
  | enum names =>
    cases v with
    | binary n => exact storesAs_enum h.1 h.2
    | _ => cases h
  | sum cases ih =>
    cases v with
    | sum t payload =>
      exact storesAs_sum (fun c hc d hd _ hv => ih c hc d hd hv) h.1 h.2.1 h.2.2
    | _ => cases h
  | flags names =>
    cases v with
    | flags set => exact storesAs_flags h.1 h.2
    | _ => cases h
  | ref r =>
    cases v with
    | int i => exact storesAs_ref h.1 h.2
    | _ => cases h

/-- `store` succeeds and changes nothing but the value's bytes and the blocks that realloc returned
(and what the guest changed itself), `load` then answers the value, and its parts stand apart. -/
structure StoredIsLoaded (enc : Encoding) (d : Desc) (v : Value) (ptr : ℕ) (g : Guest) : Prop where
  loaded : ∃ g', store enc d ptr v g = .ok g' ∧
    (∀ a, ¬ Within a ptr (size d) → ¬ Foot (placings enc d v) g.grants a →
      Kept (placings enc d v) g.grants a → g'.mem.byte a = g.mem.byte a) ∧
    load enc g'.mem d ptr = .ok (inOrder d v)
  apart : PartsApart d

/-- One page of zeros, whose realloc answers `ptr`. -/
def granting (ptr : ℕ) : Guest where
  mem := ⟨1, fun _ => 0⟩
  grants := [⟨ptr, 0, id⟩]

/-- A string of one letter is asked for as two bytes. -/
theorem placings_letter : placings .utf16 .string (.binary (utf8 ['a'])) =
    [⟨1, 2, 1, 2 ^ 32, true⟩] := by
  show [stringPlacing .utf16 (utf8 ['a'])] = _
  rw [stringPlacing, utf16Of_of (utf8?_utf8 ['a'])]
  rfl

theorem fair_letter {ptr : ℕ} (hlo : 8 ≤ ptr) (hhi : ptr ≤ 100) :
    Fair (· < 8) (granting ptr).mem.pages (placings .utf16 .string (.binary (utf8 ['a'])))
      (granting ptr).grants := by
  rw [placings_letter]
  refine ⟨Nat.mod_one _, ?_, ?_, ?_, ?_, fun _ _ _ => rfl, trivial⟩
  · show ptr < 2 ^ 32
    omega
  · show 1 + 0 ≤ 65536
    omega
  · show ptr + 2 ≤ (1 + 0) * pageSize
    unfold pageSize
    omega
  · intro a ha
    obtain ⟨ha, -⟩ : ptr ≤ a ∧ a < ptr + 2 := ha
    omega

end ErlangWasm.Canon
