import ErlangWasm.Canon.Lifted

/-!
# Lifting is safe in bounds

Whatever a guest wrote, `lift_value` and `load` trap or answer a value of the descriptor, as long as
the spans that are read unchecked are in bounds.
-/

namespace ErlangWasm.Canon

open Reasoning.Bytes
open Reasoning.Unicode
open ErlangWasm.Num (IsF32 IsF64 f32FromBits f64FromBits)

variable {enc : Encoding} {m : Memory}

/-! ## Reads -/

theorem readMemory_of_has {p n : ℤ} (h : m.Has p n) :
    readMemory m p n = .ok (m.slice p.toNat n.toNat) := if_pos h

theorem readInt_of_has {ptr n : ℕ} (signed : Bool) (h : m.Has ptr n) :
    ∃ v < 256 ^ n, readInt m ptr n signed = .ok (if signed then fromSigned v (n * 8) else v) := by
  have hlt := ofLe_lt (m.slice ptr n)
  rw [length_slice] at hlt
  refine ⟨ofLe (m.slice ptr n), hlt, ?_⟩
  show (readMemory m ptr n >>= fun bin =>
    pure (if signed then fromSigned (ofLe bin) (n * 8) else (ofLe bin : ℤ))) = _
  rw [readMemory_of_has h]
  rfl

theorem readPtrLen_of_has {ptr : ℕ} (h : m.Has ptr 8) :
    ∃ p len, readPtrLen m ptr = .ok (p, len) := by
  refine ⟨ofLe ((m.slice ptr 8).take 4), ofLe ((m.slice ptr 8).drop 4), ?_⟩
  show (readMemory m ptr 8 >>= fun bin => pure (ofLe (bin.take 4), ofLe (bin.drop 4))) = _
  rw [readMemory_of_has h]
  rfl

theorem checkAligned_safe (p : ℤ) (a : ℕ) : Safe (fun _ => p % a = 0) (checkAligned p a) := by
  unfold checkAligned
  split
  · rename_i h
    exact safe_ok h
  · exact safe_trap _

theorem ensureListFits_safe (p n : ℤ) (s : ℕ) :
    Safe (fun _ => 0 ≤ n ∧ 0 ≤ p ∧ p + n * s ≤ m.bytes) (ensureListFits m p n s) := by
  unfold ensureListFits
  split
  · rename_i h
    refine safe_ok ⟨h.1, h.2.1, ?_⟩
    show _ ≤ ((m.pages * pageSize : ℕ) : ℤ)
    push_cast
    exact h.2.2
  · exact safe_trap _

theorem validChar_safe (i : ℤ) : Safe IsScalar (validChar i) := by
  unfold validChar
  split
  · rename_i h
    exact safe_ok (.inl h)
  · split
    · rename_i h
      exact safe_ok (.inr h)
    · exact safe_trap _

theorem nthCase_safe {α : Type} (disc : ℤ) (cases : List α) :
    Safe (fun c => 0 ≤ disc ∧ cases[disc.toNat]? = some c) (nthCase disc cases) := by
  unfold nthCase
  by_cases h : 0 ≤ disc
  · rw [if_pos h]
    cases hget : cases[disc.toNat]? with
    | none => exact safe_trap _
    | some c => exact safe_ok ⟨h, rfl⟩
  · rw [if_neg h]
    exact safe_trap _

/-! ## Strings -/

theorem isSome_utf8 (cs : List Char) : (utf8? (utf8 cs)).isSome := by
  rw [utf8?_utf8]
  rfl

theorem validUtf8_safe (bs : Bytes) : Safe (fun b => (utf8? b).isSome) (validUtf8 bs) := by
  unfold validUtf8
  cases h : utf8? bs with
  | none => exact safe_trap _
  | some cs => exact safe_ok (by rw [h]; rfl)

theorem fromUtf16le_safe (bs : Bytes) : Safe (fun b => (utf8? b).isSome) (fromUtf16le bs) := by
  unfold fromUtf16le
  cases utf16le? bs with
  | none => exact safe_trap _
  | some cs => exact safe_ok (isSome_utf8 cs)

/-- UTF-16 at an even pointer. -/
theorem readUtf16_safe {p n : ℤ} (h : p % 2 = 0 → m.Has p n) :
    Safe (fun b => (utf8? b).isSome)
      (checkAligned p 2 >>= fun _ => readMemory m p n >>= fromUtf16le) := by
  apply (checkAligned_safe p 2).bind
  intro _ _ haligned
  rw [readMemory_of_has (h haligned)]
  exact fromUtf16le_safe _

theorem readString_safe {p n : ℤ} (h : StringIn enc m p n) :
    Safe (fun b => (utf8? b).isSome) (readString enc m p n) := by
  cases enc with
  | utf8 =>
    show Safe _ (readMemory m p n >>= validUtf8)
    rw [readMemory_of_has h]
    exact validUtf8_safe _
  | utf16 => exact readUtf16_safe h
  | latin1Utf16 =>
    have hin : if n / utf16Mark % 2 = 0 then m.Has p n
        else p % 2 = 0 → m.Has p (n % utf16Mark * 2) := h
    show Safe _ (if n / utf16Mark % 2 = 0 then
        readMemory m p n >>= fun bs => pure (fromLatin1 bs)
      else checkAligned p 2 >>= fun _ => readMemory m p (n % utf16Mark * 2) >>= fromUtf16le)
    split at hin
    · rename_i hbit
      rw [if_pos hbit, readMemory_of_has hin]
      exact safe_ok (isSome_utf8 _)
    · rename_i hbit
      rw [if_neg hbit]
      exact readUtf16_safe hin

/-! ## Integers -/

theorem fromSigned_bounds {v k : ℕ} (h : v < 2 ^ (k + 1)) :
    -2 ^ k ≤ fromSigned v (k + 1) ∧ fromSigned v (k + 1) < 2 ^ k := by
  have hpow : (2 : ℤ) ^ (k + 1) = 2 * 2 ^ k := pow_succ' 2 k
  have hpowN : 2 ^ (k + 1) = 2 * 2 ^ k := pow_succ' 2 k
  have hk : ((2 ^ k : ℕ) : ℤ) = 2 ^ k := by push_cast; rfl
  have hpos := Nat.two_pow_pos k
  rw [fromSigned, Nat.add_sub_cancel]
  by_cases hhalf : v < 2 ^ k
  · rw [Nat.div_eq_of_lt hhalf, if_neg (by decide)]
    omega
  · have hdiv : v / 2 ^ k = 1 := by
      apply Nat.div_eq_of_lt_le
      · omega
      · omega
    rw [hdiv, if_pos rfl]
    omega

/-- Every word of its size is a value of an integer type. -/
theorem holds_of_word {t : IntType} {v : ℕ} (h : v < 256 ^ t.bytes) :
    t.Holds (if t.signed then fromSigned v (t.bytes * 8) else v) := by
  have hpow : (256 : ℕ) ^ t.bytes = 2 ^ (8 * t.bytes) := by rw [pow_mul]; rfl
  rw [hpow] at h
  unfold IntType.Holds
  cases hs : t.signed with
  | false =>
    rw [if_neg (by decide), if_neg (by decide)]
    exact ⟨Int.natCast_nonneg v, by exact_mod_cast h⟩
  | true =>
    rw [if_pos rfl, if_pos rfl]
    obtain ⟨k, hk⟩ : ∃ k, 8 * t.bytes = k + 1 := by cases t <;> exact ⟨_, rfl⟩
    rw [hk] at h
    rw [Nat.mul_comm t.bytes 8, hk, Nat.add_sub_cancel]
    exact fromSigned_bounds h

/-- An integer that is extended to its core type is lifted to a value of its own type. -/
theorem liftInt_safe {t : IntType} {w : ℤ} (h : t.Extended w) :
    Safe t.Holds (liftInt t (.int w)) := by
  unfold liftInt
  cases hs : t.signed with
  | false =>
    apply safe_ok
    unfold IntType.Holds
    rw [hs, if_neg (by decide)]
    exact ⟨Int.emod_nonneg _ (pow_ne_zero _ (by decide)),
      Int.emod_lt_of_pos _ (Int.pow_pos (by decide))⟩
  | true =>
    obtain ⟨i, hi, hw⟩ := h hs
    have hback := liftInt_of_holds hi
    unfold liftInt at hback
    rw [hs] at hback
    apply safe_ok
    have heq : fromSigned (w % 2 ^ t.coreBits).toNat t.coreBits = i := by
      rw [hw]
      have hval : fromSigned (i % 2 ^ t.coreBits % 2 ^ t.coreBits).toNat t.coreBits = i :=
        Except.ok.inj hback
      rwa [Int.emod_emod] at hval
    show t.Holds (fromSigned (w % 2 ^ t.coreBits).toNat t.coreBits)
    rw [heq]
    exact hi

/-! ## Lists -/

theorem mapM_safe {α β : Type} {f : α → Outcome β} {P : β → Prop} {l : List α}
    (h : ∀ a ∈ l, Safe P (f a)) :
    Safe (fun xs => xs.length = l.length ∧ ∀ x ∈ xs, P x) (l.mapM f) := by
  induction l with
  | nil => exact safe_ok ⟨rfl, nofun⟩
  | cons a l ih =>
    rw [List.mapM_cons]
    apply (h a List.mem_cons_self).bind
    intro x _ hx
    apply (ih fun b hb => h b (List.mem_cons_of_mem _ hb)).bind
    intro xs _ hxs
    apply safe_ok
    refine ⟨?_, fun y hy => ?_⟩
    · rw [List.length_cons, List.length_cons, hxs.1]
    · rcases List.mem_cons.mp hy with rfl | hin
      · exact hx
      · exact hxs.2 y hin

/-- A list whose elements take bytes is no longer than memory. -/
theorem readElems_safe {d : Desc} {p n : ℤ} (hd : ¬ d.isU8)
    (ih : ∀ ptr, LoadIn enc m d ptr → Safe (Typed m.bytes d) (load enc m d ptr))
    (h : ElemsIn m d (LoadIn enc m d) p n) :
    Safe (Typed m.bytes (.list d)) (ensureListFits m p n (size d) >>= fun _ =>
      loadElems (load enc m d) p.toNat (size d) n.toNat >>= fun vs => pure (.list vs)) := by
  unfold ElemsIn at h
  rw [if_neg hd] at h
  obtain ⟨hsize, helems⟩ := h
  apply (ensureListFits_safe p n (size d)).bind
  rintro ⟨⟩ hok ⟨hn, hp, hfits⟩
  have hall := @mapM_safe ℕ Value (fun i => load enc m d (p.toNat + i * size d))
    (Typed m.bytes d) (List.range n.toNat) fun i hi => ih _ (helems hok i (List.mem_range.mp hi))
  apply hall.bind
  intro vs _ hvs
  apply safe_ok
  refine ⟨hd, ?_, hvs.2⟩
  rw [hvs.1, List.length_range]
  have hle : n * 1 ≤ n * size d := Int.mul_le_mul_of_nonneg_left (by omega) hn
  omega

theorem readBytes_safe {d : Desc} {p n : ℤ} (hd : d.isU8)
    (h : ElemsIn m d (LoadIn enc m d) p n) :
    Safe (Typed m.bytes (.list d)) (readMemory m p n >>= fun b => pure (.binary b)) := by
  unfold ElemsIn at h
  rw [if_pos hd] at h
  rw [readMemory_of_has h]
  apply safe_ok
  refine ⟨hd, ?_⟩
  obtain ⟨h1, h2, h3⟩ := h
  rw [length_slice]
  omega

/-! ## Records -/

variable {bound : ℕ} {fields : List (Bytes × Desc)} {kvs : List (Bytes × Value)}

theorem typedField_of_mem {n : Bytes} {d : Desc} {v : Value} (h : (n, d) ∈ fields)
    (hv : Typed bound d v) : TypedField bound fields n v := by
  induction fields with
  | nil => cases h
  | cons f fields ih =>
    obtain ⟨k, e⟩ := f
    rcases List.mem_cons.mp h with heq | hin
    · cases heq
      exact .inl ⟨rfl, hv⟩
    · exact .inr (ih hin)

theorem mem_putField {n : Bytes} {v : Value} {kv : Bytes × Value} (h : kv ∈ putField kvs n v) :
    kv = (n, v) ∨ kv ∈ kvs := by
  induction kvs with
  | nil => exact .inl (List.mem_singleton.mp h)
  | cons kv' kvs ih =>
    obtain ⟨k, u⟩ := kv'
    rw [putField] at h
    split at h
    · rename_i hk
      subst hk
      rcases List.mem_cons.mp h with heq | hin
      · exact .inl heq
      · exact .inr (List.mem_cons_of_mem _ hin)
    · rcases List.mem_cons.mp h with heq | hin
      · exact .inr (heq ▸ List.mem_cons_self)
      · exact (ih hin).imp_right (List.mem_cons_of_mem _)

theorem mem_keys_putField {n k : Bytes} {v : Value} :
    k ∈ (putField kvs n v).map Prod.fst ↔ k = n ∨ k ∈ kvs.map Prod.fst := by
  induction kvs with
  | nil => simp [putField]
  | cons kv kvs ih =>
    obtain ⟨k', u⟩ := kv
    rw [putField]
    split
    · rename_i hk
      subst hk
      simp
    · rw [List.map_cons, List.mem_cons, ih, List.map_cons, List.mem_cons]
      tauto

theorem nodup_putField {n : Bytes} {v : Value} (h : (kvs.map Prod.fst).Nodup) :
    ((putField kvs n v).map Prod.fst).Nodup := by
  induction kvs with
  | nil => exact List.nodup_singleton n
  | cons kv kvs ih =>
    obtain ⟨k, u⟩ := kv
    rw [List.map_cons, List.nodup_cons] at h
    rw [putField]
    split
    · rw [List.map_cons, List.nodup_cons]
      exact h
    · rename_i hk
      rw [List.map_cons, List.nodup_cons, mem_keys_putField]
      exact ⟨fun hin => hin.elim hk h.1, ih h.2⟩

/-- The fields read so far: each a field of the record, none twice. -/
structure ReadSoFar (bound : ℕ) (fields : List (Bytes × Desc)) (kvs : List (Bytes × Value)) :
    Prop where
  nodup : (kvs.map Prod.fst).Nodup
  typed : ∀ kv ∈ kvs, TypedField bound fields kv.1 kv.2

theorem ReadSoFar.put (h : ReadSoFar bound fields kvs) {n : Bytes} {d : Desc} {v : Value}
    (hn : (n, d) ∈ fields) (hv : Typed bound d v) : ReadSoFar bound fields (putField kvs n v) := by
  refine ⟨nodup_putField h.nodup, fun kv hkv => ?_⟩
  rcases mem_putField hkv with rfl | hin
  · exact typedField_of_mem hn hv
  · exact h.typed kv hin

theorem loadFields_safe {rest : List (Bytes × Desc)} {ptr off : ℕ} {acc : List (Bytes × Value)}
    (ih : ∀ f ∈ fields, ∀ ptr, LoadIn enc m f.2 ptr → Safe (Typed m.bytes f.2) (load enc m f.2 ptr))
    (hsub : ∀ f ∈ rest, f ∈ fields) (h : LoadInFields enc m rest ptr off)
    (hacc : ReadSoFar m.bytes fields acc) :
    Safe (fun kvs => ReadSoFar m.bytes fields kvs ∧ (∀ k ∈ acc.map Prod.fst, k ∈ kvs.map Prod.fst) ∧
      ∀ f ∈ rest, f.1 ∈ kvs.map Prod.fst) (loadFields enc m rest ptr off acc) := by
  induction rest generalizing off acc with
  | nil => exact safe_ok ⟨hacc, fun _ hk => hk, nofun⟩
  | cons f rest ihrest =>
    obtain ⟨n, d⟩ := f
    have hmem := hsub (n, d) List.mem_cons_self
    show Safe _ (load enc m d (ptr + alignUp off (align d)) >>= fun v =>
      loadFields enc m rest ptr (alignUp off (align d) + size d) (putField acc n v))
    apply (ih (n, d) hmem _ h.1).bind
    intro v _ hv
    apply (ihrest (fun f hf => hsub f (List.mem_cons_of_mem _ hf)) h.2 (hacc.put hmem hv)).mono
    rintro kvs ⟨hread, hkeep, hnames⟩
    refine ⟨hread, fun k hk => hkeep k (mem_keys_putField.mpr (.inr hk)), fun f hf => ?_⟩
    rcases List.mem_cons.mp hf with rfl | hin
    · exact hkeep n (mem_keys_putField.mpr (.inl rfl))
    · exact hnames f hin

theorem loadItems_safe {ds : List Desc} {ptr off : ℕ}
    (ih : ∀ d ∈ ds, ∀ ptr, LoadIn enc m d ptr → Safe (Typed m.bytes d) (load enc m d ptr))
    (h : LoadInItems enc m ds ptr off) :
    Safe (TypedItems m.bytes ds) (loadItems enc m ds ptr off) := by
  induction ds generalizing off with
  | nil => exact safe_ok trivial
  | cons d ds ihds =>
    show Safe _ (load enc m d (ptr + alignUp off (align d)) >>= fun v =>
      loadItems enc m ds ptr (alignUp off (align d) + size d) >>= fun vs => pure (v :: vs))
    apply (ih d List.mem_cons_self _ h.1).bind
    intro v _ hv
    apply (ihds (fun e he => ih e (List.mem_cons_of_mem _ he)) h.2).bind
    intro vs _ hvs
    exact safe_ok ⟨hv, hvs⟩

/-! ## Cases -/

theorem typedCase_none {cases : List (Tag × Option Desc)} {t : Tag} (h : (t, none) ∈ cases) :
    TypedCase bound cases t .undefined := by
  induction cases with
  | nil => cases h
  | cons c cases ih =>
    obtain ⟨u, o⟩ := c
    rcases List.mem_cons.mp h with heq | hin
    · cases heq
      exact .inl ⟨rfl, rfl⟩
    · cases o with
      | none | some d => exact .inr (ih hin)

theorem typedCase_some {cases : List (Tag × Option Desc)} {t : Tag} {d : Desc} {v : Value}
    (h : (t, some d) ∈ cases) (hv : Typed bound d v) : TypedCase bound cases t v := by
  induction cases with
  | nil => cases h
  | cons c cases ih =>
    obtain ⟨u, o⟩ := c
    rcases List.mem_cons.mp h with heq | hin
    · cases heq
      exact .inl ⟨rfl, hv⟩
    · cases o with
      | none | some e => exact .inr (ih hin)

theorem loadInCase_eq {cases : List (Tag × Option Desc)} {idx : ℕ} {t : Tag} {d : Desc} {ptr : ℕ}
    (h : cases[idx]? = some (t, some d)) (hin : LoadInCase enc m cases idx ptr) :
    LoadIn enc m d ptr := by
  induction cases generalizing idx with
  | nil => cases h
  | cons c cases ih =>
    obtain ⟨u, o⟩ := c
    cases idx with
    | zero =>
      cases h
      exact hin
    | succ idx =>
      cases o with
      | none => exact ih h hin
      | some e => exact ih h hin

theorem load_sum_safe {cases : List (Tag × Option Desc)} {ptr : ℕ}
    (ih : ∀ c ∈ cases, ∀ d, c.2 = some d → ∀ ptr, LoadIn enc m d ptr →
      Safe (Typed m.bytes d) (load enc m d ptr))
    (h : LoadIn enc m (.sum cases) ptr) :
    Safe (Typed m.bytes (.sum cases)) (load enc m (.sum cases) ptr) := by
  obtain ⟨hdisc, hcase⟩ := h
  obtain ⟨v, -, hread⟩ := readInt_of_has false hdisc
  show Safe _ (readInt m ptr (discSize cases.length) false >>= fun disc => nthCase disc cases >>=
    fun c => loadCase enc m cases disc.toNat (ptr + payloadOffset cases) >>= fun v =>
      pure (Value.sum c.1 v))
  rw [hread]
  apply (nthCase_safe _ cases).bind
  rintro ⟨t, o⟩ - ⟨-, hget⟩
  have hmem := List.mem_of_getElem? hget
  cases o with
  | none =>
    obtain ⟨-, hload, -, -⟩ := @case_none enc cases _ t hget (ptr + payloadOffset cases) .undefined
    rw [hload]
    exact safe_ok (typedCase_none hmem)
  | some d =>
    obtain ⟨-, hload, -, -⟩ := @case_some enc cases _ t d hget (ptr + payloadOffset cases) .undefined
    rw [hload]
    apply (ih _ hmem d rfl _ (loadInCase_eq hget (hcase _ hread))).bind
    intro v _ hv
    exact safe_ok (typedCase_some hmem hv)

/-! ## Memory -/

/-- `load` from any pointer. -/
theorem load_safe {d : Desc} {ptr : ℕ} (h : LoadIn enc m d ptr) :
    Safe (Typed m.bytes d) (load enc m d ptr) := by
  induction d using Desc.induct generalizing ptr with
  | int t =>
    have hin : m.Has ptr t.bytes := h
    obtain ⟨v, hv, hread⟩ := readInt_of_has t.signed hin
    show Safe _ (readInt m ptr t.bytes t.signed >>= fun i => pure (Value.int i))
    rw [hread]
    exact safe_ok (holds_of_word hv)
  | f32 =>
    show Safe _ (readMemory m ptr 4 >>= fun bin => pure (Value.float (f32FromBits (ofLe bin))))
    have hin : m.Has ptr 4 := h
    rw [readMemory_of_has hin]
    have hlt := ofLe_lt (m.slice (ptr : ℤ).toNat (4 : ℤ).toNat)
    rw [length_slice] at hlt
    exact safe_ok ⟨_, hlt, rfl⟩
  | f64 =>
    show Safe _ (readMemory m ptr 8 >>= fun bin => pure (Value.float (f64FromBits (ofLe bin))))
    have hin : m.Has ptr 8 := h
    rw [readMemory_of_has hin]
    have hlt := ofLe_lt (m.slice (ptr : ℤ).toNat (8 : ℤ).toNat)
    rw [length_slice] at hlt
    exact safe_ok ⟨_, hlt, rfl⟩
  | bool =>
    have hin : m.Has ptr (1 : ℕ) := h
    obtain ⟨v, -, hread⟩ := readInt_of_has false hin
    show Safe _ (readInt m ptr 1 false >>= fun i => pure (Value.bool (i ≠ 0)))
    rw [hread]
    exact safe_ok trivial
  | char =>
    have hin : m.Has ptr (4 : ℕ) := h
    obtain ⟨v, -, hread⟩ := readInt_of_has false hin
    show Safe _ (readInt m ptr 4 false >>= fun i => validChar i >>= fun j => pure (Value.int j))
    rw [hread]
    apply (validChar_safe _).bind
    intro i _ hi
    exact safe_ok hi
  | string =>
    obtain ⟨p, len, hread⟩ := readPtrLen_of_has h.1
    show Safe _ (readPtrLen m ptr >>= fun r => readString enc m r.1 r.2 >>= fun b =>
      pure (Value.binary b))
    rw [hread]
    apply (readString_safe (h.2 p len hread)).bind
    intro b _ hb
    exact safe_ok hb
  | list d ih =>
    obtain ⟨p, len, hread⟩ := readPtrLen_of_has h.1
    have helems := h.2 p len hread
    show Safe _ (readPtrLen m ptr >>= fun r => if d.isU8 then
        readMemory m r.1 r.2 >>= fun b => pure (Value.binary b)
      else readList enc d m r.1 r.2)
    rw [hread]
    show Safe _ (if d.isU8 then readMemory m p len >>= fun b => pure (Value.binary b)
      else readList enc d m p len)
    by_cases hd : d.isU8
    · rw [if_pos hd]
      exact readBytes_safe hd helems
    · rw [if_neg hd]
      apply (checkAligned_safe p (align d)).bind
      intro _ _ _
      have hlist := readElems_safe hd (fun ptr hin => ih hin) helems
      rw [Int.toNat_natCast, Int.toNat_natCast] at hlist
      exact hlist
  | record fields ih =>
    show Safe _ (loadFields enc m fields ptr 0 [] >>= fun kvs => pure (Value.map kvs))
    have hfields := @loadFields_safe enc m fields fields ptr 0 [] (fun f hf _ hin => ih f hf hin)
      (fun _ hf => hf) h ⟨List.nodup_nil, nofun⟩
    apply hfields.bind
    rintro kvs - ⟨hread, -, hnames⟩
    exact safe_ok ⟨hread.nodup, hnames, hread.typed⟩
  | tuple ds ih =>
    show Safe _ (loadItems enc m ds ptr 0 >>= fun vs => pure (Value.tuple vs))
    apply (loadItems_safe (fun d hd _ hin => ih d hd hin) h).bind
    intro vs _ hvs
    exact safe_ok hvs
  | enum names =>
    have hin : m.Has ptr ((discSize names.length) : ℕ) := h
    obtain ⟨v, -, hread⟩ := readInt_of_has false hin
    show Safe _ (readInt m ptr (discSize names.length) false >>= fun i => nthCase i names >>=
      fun n => pure (Value.binary n))
    rw [hread]
    apply (nthCase_safe _ names).bind
    rintro n - ⟨-, hget⟩
    exact safe_ok (List.mem_of_getElem? hget)
  | sum cases ih => exact load_sum_safe (fun c hc d hd _ hin => ih c hc d hd hin) h
  | flags names =>
    obtain ⟨v, -, hread⟩ := readInt_of_has false h
    show Safe _ (readInt m ptr (size (.flags names)) false >>= fun i =>
      pure (Value.flags (bitsFlags names i)))
    rw [hread]
    exact safe_ok List.filter_sublist
  | ref r =>
    have hin : m.Has ptr (4 : ℕ) := h
    obtain ⟨v, hv, hread⟩ := readInt_of_has false hin
    show Safe _ (readInt m ptr 4 false >>= fun i => pure (Value.int i))
    rw [hread]
    have hlt : v < 2 ^ 32 := hv
    exact safe_ok ⟨Int.natCast_nonneg v, (by omega : (v : ℤ) < 2 ^ 32)⟩

/-! ## Core values -/

theorem PassedAll.length_eq {ts : List FlatType} {vs : List Core} (h : PassedAll ts vs) :
    vs.length = ts.length := by
  induction ts generalizing vs with
  | nil =>
    cases vs with
    | nil => rfl
    | cons v vs => cases h
  | cons t ts ih =>
    cases vs with
    | nil => cases h
    | cons v vs => rw [List.length_cons, List.length_cons, ih h.2]

theorem PassedAll.split {ts us : List FlatType} {flats : List Core} (h : PassedAll (ts ++ us) flats) :
    ∃ vs ws, flats = vs ++ ws ∧ PassedAll ts vs ∧ PassedAll us ws := by
  induction ts generalizing flats with
  | nil => exact ⟨[], flats, rfl, trivial, h⟩
  | cons t ts ih =>
    cases flats with
    | nil => cases h
    | cons v flats =>
      obtain ⟨vs, ws, rfl, hvs, hws⟩ := ih h.2
      exact ⟨v :: vs, ws, rfl, ⟨h.1, hvs⟩, hws⟩

/-- What is in a slot, as a value of a case's type. -/
theorem uncoerceOne_passed {t s : FlatType} {w : Core} (hfits : Fits t s) (hw : s.Passed w) :
    ∃ v, uncoerceOne w s t = .ok v ∧ t.Passed v := by
  by_cases heq : s = t
  · subst heq
    exact ⟨w, if_pos rfl, hw⟩
  · have hsmall {n k : ℕ} (i : ℤ) (hk : (2 : ℤ) ^ k = 2 ^ n) : (i % 2 ^ k).toNat < 2 ^ n := by
      have hpos : (0 : ℤ) < 2 ^ k := Int.pow_pos (by decide)
      have hlt := Int.emod_lt_of_pos i hpos
      have hcast : ((2 ^ n : ℕ) : ℤ) = 2 ^ n := by push_cast; rfl
      omega
    rcases hfits with h | rfl | ⟨rfl, rfl⟩
    · exact absurd h.symm heq
    · cases w with
      | float f => cases hw
      | int i =>
        cases t with
        | i64 => exact absurd rfl heq
        | i32 => exact ⟨_, rfl, trivial⟩
        | f32 => exact ⟨_, rfl, (i % 2 ^ 32).toNat, hsmall i rfl, rfl⟩
        | f64 => exact ⟨_, rfl, (i % 2 ^ 64).toNat, hsmall i rfl, rfl⟩
    · cases w with
      | float f => cases hw
      | int i => exact ⟨_, rfl, (i % 2 ^ 32).toNat, hsmall i rfl, rfl⟩

theorem uncoerce_passed {ts slots : List FlatType} {ws : List Core} (hfits : FitsAll ts slots)
    (hws : PassedAll slots ws) : ∃ vs, uncoerce ts slots ws = .ok vs ∧ PassedAll ts vs := by
  induction ts generalizing slots ws with
  | nil => exact ⟨[], rfl, trivial⟩
  | cons t ts ih =>
    cases slots with
    | nil => cases hfits
    | cons s slots =>
      cases ws with
      | nil => cases hws
      | cons w ws =>
        obtain ⟨v, hv, hpass⟩ := uncoerceOne_passed hfits.1 hws.1
        obtain ⟨vs, hvs, hall⟩ := ih hfits.2 hws.2
        refine ⟨v :: vs, ?_, hpass, hall⟩
        show (uncoerceOne w s t >>= fun v => uncoerce ts slots ws >>= fun vs => pure (v :: vs)) = _
        rw [hv, hvs]
        rfl

/-- A value that is one integer. -/
theorem passed_int {t : FlatType} (ht : t = .i32 ∨ t = .i64) {flats : List Core}
    (h : PassedAll [t] flats) : ∃ w, flats = [.int w] := by
  cases flats with
  | nil => cases h
  | cons v flats =>
    cases flats with
    | cons w flats => cases h.2
    | nil =>
      rcases ht with rfl | rfl
      · cases v with
        | int w => exact ⟨w, rfl⟩
        | float f => cases h.1
      · cases v with
        | int w => exact ⟨w, rfl⟩
        | float f => cases h.1

theorem passed_pair {flats : List Core} (h : PassedAll [.i32, .i32] flats) :
    ∃ p n, flats = [.int p, .int n] := by
  cases flats with
  | nil => cases h
  | cons v flats =>
    obtain ⟨n, rfl⟩ := passed_int (.inl rfl) h.2
    cases v with
    | int p => exact ⟨p, n, rfl⟩
    | float f => cases h.1

theorem wordsBits_passed {n : ℕ} {ws : List Core} (h : PassedAll (List.replicate n .i32) ws)
    (shift : ℕ) (acc : ℤ) : ∃ bits, wordsBits ws shift acc = .ok bits := by
  induction n generalizing ws shift acc with
  | zero =>
    cases ws with
    | nil => exact ⟨acc, rfl⟩
    | cons w ws => cases h
  | succ n ih =>
    cases ws with
    | nil => cases h
    | cons w ws =>
      cases w with
      | float f => cases h.1
      | int w => exact ih h.2 _ _

theorem splitFlats_append {n : ℕ} {xs : List Core} (h : xs.length = n) (rest : List Core) :
    splitFlats n (xs ++ rest) = .ok (xs, rest) := by
  have hle : n ≤ (xs ++ rest).length := by
    rw [List.length_append]
    omega
  rw [splitFlats, if_pos hle, List.splitAt_eq, ← h, List.take_left, List.drop_left]

/-! ## Lifting -/

/-- A value of `d`, and the core values after it. -/
def LiftedAs (m : Memory) (d : Desc) (rest : List Core) (r : Value × List Core) : Prop :=
  Typed m.bytes d r.1 ∧ r.2 = rest

/-- `d` is lifted safely. -/
def LiftsAs (enc : Encoding) (m : Memory) (d : Desc) : Prop :=
  ∀ (flats rest : List Core), PassedAll (flatTypes d) flats → LiftIn enc m d (flats ++ rest) →
    Safe (LiftedAs m d rest) (liftValue enc m d (flats ++ rest))

theorem liftItems_safe {ds : List Desc} {flats rest : List Core}
    (ih : ∀ d ∈ ds, LiftsAs enc m d) (hpass : PassedAll (flatTypesItems ds) flats)
    (h : LiftInItems enc m ds (flats ++ rest)) :
    Safe (fun r => TypedItems m.bytes ds r.1 ∧ r.2 = rest)
      (liftItems enc m ds (flats ++ rest)) := by
  induction ds generalizing flats with
  | nil =>
    cases flats with
    | nil => exact safe_ok ⟨trivial, rfl⟩
    | cons v flats => cases hpass
  | cons d ds ihds =>
    obtain ⟨vs, ws, rfl, hvs, hws⟩ := hpass.split
    rw [List.append_assoc] at h ⊢
    obtain ⟨hd, hds⟩ := h
    rw [← hvs.length_eq, List.drop_left] at hds
    show Safe _ (liftValue enc m d (vs ++ (ws ++ rest)) >>= fun r =>
      liftItems enc m ds r.2 >>= fun r' => pure (r.1 :: r'.1, r'.2))
    apply (ih d List.mem_cons_self vs (ws ++ rest) hvs hd).bind
    rintro ⟨v, _⟩ - ⟨hv, rfl⟩
    apply (ihds (fun e he => ih e (List.mem_cons_of_mem _ he)) hws hds).bind
    rintro ⟨us, _⟩ - ⟨hus, rfl⟩
    exact safe_ok ⟨⟨hv, hus⟩, rfl⟩

theorem liftFields_safe {rest' : List (Bytes × Desc)} {flats rest : List Core}
    {acc : List (Bytes × Value)} (ih : ∀ f ∈ fields, LiftsAs enc m f.2)
    (hsub : ∀ f ∈ rest', f ∈ fields) (hpass : PassedAll (flatTypesFields rest') flats)
    (h : LiftInFields enc m rest' (flats ++ rest)) (hacc : ReadSoFar m.bytes fields acc) :
    Safe (fun r => (ReadSoFar m.bytes fields r.1 ∧
        (∀ k ∈ acc.map Prod.fst, k ∈ r.1.map Prod.fst) ∧
        ∀ f ∈ rest', f.1 ∈ r.1.map Prod.fst) ∧ r.2 = rest)
      (liftFields enc m rest' (flats ++ rest) acc) := by
  induction rest' generalizing flats acc with
  | nil =>
    cases flats with
    | nil => exact safe_ok ⟨⟨hacc, fun _ hk => hk, nofun⟩, rfl⟩
    | cons v flats => cases hpass
  | cons f rest' ihrest =>
    obtain ⟨n, d⟩ := f
    have hmem := hsub (n, d) List.mem_cons_self
    obtain ⟨vs, ws, rfl, hvs, hws⟩ := hpass.split
    rw [List.append_assoc] at h ⊢
    obtain ⟨hd, hds⟩ := h
    rw [← hvs.length_eq, List.drop_left] at hds
    show Safe _ (liftValue enc m d (vs ++ (ws ++ rest)) >>= fun r =>
      liftFields enc m rest' r.2 (putField acc n r.1))
    apply (ih (n, d) hmem vs (ws ++ rest) hvs hd).bind
    rintro ⟨v, _⟩ - ⟨hv, rfl⟩
    apply (ihrest (fun f hf => hsub f (List.mem_cons_of_mem _ hf)) hws hds
      (hacc.put hmem hv)).mono
    rintro r ⟨⟨hread, hkeep, hnames⟩, hrest⟩
    refine ⟨⟨hread, fun k hk => hkeep k (mem_keys_putField.mpr (.inr hk)), fun f hf => ?_⟩, hrest⟩
    rcases List.mem_cons.mp hf with rfl | hin
    · exact hkeep n (mem_keys_putField.mpr (.inl rfl))
    · exact hnames f hin

theorem liftInCase_eq {cases : List (Tag × Option Desc)} {idx : ℕ} {t : Tag} {d : Desc}
    {joined : List FlatType} {slots : List Core} (h : cases[idx]? = some (t, some d))
    (hin : LiftInCase enc m cases idx joined slots) :
    ∀ vs, uncoerce (flatTypes d) joined slots = .ok vs → LiftIn enc m d vs := by
  induction cases generalizing idx with
  | nil => cases h
  | cons c cases ih =>
    obtain ⟨u, o⟩ := c
    cases idx with
    | zero =>
      cases h
      exact hin
    | succ idx =>
      cases o with
      | none => exact ih h hin
      | some e => exact ih h hin

theorem lift_sum_safe {cases : List (Tag × Option Desc)}
    (ih : ∀ c ∈ cases, ∀ d, c.2 = some d → LiftsAs enc m d) : LiftsAs enc m (.sum cases) := by
  intro flats rest hpass h
  cases flats with
  | nil => cases hpass
  | cons w slots =>
    obtain ⟨hw, hslots⟩ : FlatType.Passed .i32 w ∧ PassedAll (joinCases cases) slots := hpass
    cases w with
    | float f => cases hw
    | int disc =>
      have hin : LiftInCase enc m cases disc.toNat (joinCases cases)
          ((slots ++ rest).take (joinCases cases).length) := h
      rw [← hslots.length_eq, List.take_left] at hin
      show Safe _ (splitFlats (joinCases cases).length (slots ++ rest) >>= fun s =>
        nthCase disc cases >>= fun c =>
          liftCase enc m cases disc.toNat (joinCases cases) s.1 >>= fun v =>
            pure (Value.sum c.1 v, s.2))
      rw [splitFlats_append hslots.length_eq]
      apply (nthCase_safe disc cases).bind
      rintro ⟨t, o⟩ - ⟨-, hget⟩
      have hmem := List.mem_of_getElem? hget
      cases o with
      | none =>
        obtain ⟨-, hlift, -⟩ := @flatCase_none enc cases _ t hget .undefined (joinCases cases)
        rw [hlift]
        exact safe_ok ⟨typedCase_none hmem, rfl⟩
      | some d =>
        obtain ⟨-, hlift, -⟩ := @flatCase_some enc cases _ t d hget .undefined (joinCases cases)
        obtain ⟨vs, hvs, hpassed⟩ := uncoerce_passed (fitsAll_joinCases hmem) hslots
        have hlifted := ih _ hmem d rfl vs [] hpassed
        rw [List.append_nil] at hlifted
        rw [hlift, hvs]
        show Safe _ ((liftValue enc m d vs >>= fun r => pure r.1) >>= fun v =>
          pure (Value.sum t v, rest))
        rw [bind_assoc]
        apply (hlifted (liftInCase_eq hget hin vs hvs)).bind
        rintro ⟨v, _⟩ - ⟨hv, -⟩
        exact safe_ok ⟨typedCase_some hmem hv, rfl⟩

theorem lift_safe (d : Desc) : LiftsAs enc m d := by
  induction d using Desc.induct with
  | sum cases ih => exact lift_sum_safe ih
  | int t =>
    intro flats rest hpass h
    have hone : PassedAll [if t.bytes = 8 then .i64 else .i32] flats := by
      cases t <;> exact hpass
    obtain ⟨w, rfl⟩ := passed_int (by split <;> simp) hone
    show Safe _ (liftInt t (.int w) >>= fun i => pure (Value.int i, rest))
    apply (liftInt_safe h).bind
    intro i _ hi
    exact safe_ok ⟨hi, rfl⟩
  | f32 | f64 =>
    intro flats rest hpass h
    cases flats with
    | nil => cases hpass
    | cons v flats =>
      cases flats with
      | cons w flats => cases hpass.2
      | nil =>
        cases v with
        | int i => cases hpass.1
        | float f => exact safe_ok ⟨hpass.1, rfl⟩
  | bool =>
    intro flats rest hpass h
    obtain ⟨w, rfl⟩ := passed_int (.inl rfl) hpass
    exact safe_ok ⟨trivial, rfl⟩
  | char =>
    intro flats rest hpass h
    obtain ⟨w, rfl⟩ := passed_int (.inl rfl) hpass
    show Safe _ (validChar w >>= fun i => pure (Value.int i, rest))
    apply (validChar_safe w).bind
    intro i _ hi
    exact safe_ok ⟨hi, rfl⟩
  | string =>
    intro flats rest hpass h
    obtain ⟨p, n, rfl⟩ := passed_pair hpass
    show Safe _ (readString enc m p n >>= fun b => pure (Value.binary b, rest))
    apply (readString_safe h).bind
    intro b _ hb
    exact safe_ok ⟨hb, rfl⟩
  | list d ih =>
    intro flats rest hpass h
    obtain ⟨p, n, rfl⟩ := passed_pair hpass
    show Safe _ (if d.isU8 then readMemory m p n >>= fun b => pure (Value.binary b, rest)
      else ensureListFits m p n (size d) >>= fun _ =>
        loadElems (load enc m d) p.toNat (size d) n.toNat >>= fun vs => pure (Value.list vs, rest))
    by_cases hd : d.isU8
    · rw [if_pos hd]
      have hbytes := @readBytes_safe enc m d p n hd h
      have hpair := hbytes.bind (Q := LiftedAs m (.list d) rest) (f := fun v => pure (v, rest))
        fun v _ hv => safe_ok ⟨hv, rfl⟩
      rwa [bind_assoc] at hpair
    · rw [if_neg hd]
      have helems := @readElems_safe enc m d p n hd (fun ptr hin => load_safe hin) h
      have hpair := helems.bind (Q := LiftedAs m (.list d) rest) (f := fun v => pure (v, rest))
        fun v _ hv => safe_ok ⟨hv, rfl⟩
      simp only [bind_assoc] at hpair
      exact hpair
  | record fields ih =>
    intro flats rest hpass h
    show Safe _ (liftFields enc m fields (flats ++ rest) [] >>= fun r => pure (Value.map r.1, r.2))
    have hfields := @liftFields_safe enc m fields fields flats rest [] ih (fun _ hf => hf) hpass h
      ⟨List.nodup_nil, nofun⟩
    apply hfields.bind
    rintro ⟨kvs, _⟩ - ⟨⟨hread, -, hnames⟩, rfl⟩
    exact safe_ok ⟨⟨hread.nodup, hnames, hread.typed⟩, rfl⟩
  | tuple ds ih =>
    intro flats rest hpass h
    show Safe _ (liftItems enc m ds (flats ++ rest) >>= fun r => pure (Value.tuple r.1, r.2))
    apply (liftItems_safe ih hpass h).bind
    rintro ⟨vs, _⟩ - ⟨hvs, rfl⟩
    exact safe_ok ⟨hvs, rfl⟩
  | enum names =>
    intro flats rest hpass h
    obtain ⟨w, rfl⟩ := passed_int (.inl rfl) hpass
    show Safe _ (nthCase w names >>= fun n => pure (Value.binary n, rest))
    apply (nthCase_safe w names).bind
    rintro n - ⟨-, hget⟩
    exact safe_ok ⟨List.mem_of_getElem? hget, rfl⟩
  | flags names =>
    intro flats rest hpass h
    have hwords : PassedAll (List.replicate (flagsWords names.length) .i32) flats := hpass
    have hlen := hwords.length_eq
    rw [List.length_replicate] at hlen
    obtain ⟨bits, hbits⟩ := wordsBits_passed hwords 0 0
    show Safe _ (splitFlats (flagsWords names.length) (flats ++ rest) >>= fun r =>
      wordsBits r.1 0 0 >>= fun i => pure (Value.flags (bitsFlags names i), r.2))
    rw [splitFlats_append hlen]
    show Safe _ (wordsBits flats 0 0 >>= fun i => pure (Value.flags (bitsFlags names i), rest))
    rw [hbits]
    exact safe_ok ⟨List.filter_sublist, rfl⟩
  | ref r =>
    intro flats rest hpass h
    obtain ⟨w, rfl⟩ := passed_int (.inl rfl) hpass
    refine safe_ok ⟨⟨?_, ?_⟩, rfl⟩
    · exact Int.emod_nonneg _ (by decide)
    · exact Int.emod_lt_of_pos _ (by decide)

/-! ## Both paths -/

/-- A string or a list is read alike from its two core values and from where they are stored. -/
def SamePaths (enc : Encoding) (m : Memory) (d : Desc) (ptr : ℕ) : Prop :=
  (d = .string ∨ ∃ e, d = .list e) → ∀ p len, readPtrLen m ptr = .ok (p, len) →
    liftValue enc m d [.int p, .int len] = load enc m d ptr >>= fun v => pure (v, [])

/-- The elements stand at a multiple of their alignment, which only `load` checks. -/
def ElemsAligned (m : Memory) (d : Desc) (ptr : ℕ) : Prop :=
  match d with
  | .list e => ¬ e.isU8 → ∀ p len, readPtrLen m ptr = .ok (p, len) → p % align e = 0
  | _ => True

theorem samePaths {d : Desc} {ptr : ℕ} (h : ElemsAligned m d ptr) : SamePaths enc m d ptr := by
  rintro (rfl | ⟨e, rfl⟩) p len hread
  · show (readString enc m p len >>= fun b => pure (Value.binary b, [])) =
      ((readPtrLen m ptr >>= fun r => readString enc m r.1 r.2 >>= fun b =>
        pure (Value.binary b)) >>= fun v => pure (v, []))
    rw [hread]
    show _ = ((readString enc m p len >>= fun b => pure (Value.binary b)) >>= fun v => pure (v, []))
    rw [bind_assoc]
    rfl
  · show (if e.isU8 then readMemory m p len >>= fun b => pure (Value.binary b, [])
      else ensureListFits m p len (size e) >>= fun _ =>
        loadElems (load enc m e) (p : ℤ).toNat (size e) (len : ℤ).toNat >>= fun vs =>
          pure (Value.list vs, [])) =
      ((readPtrLen m ptr >>= fun r => if e.isU8 then
          readMemory m r.1 r.2 >>= fun b => pure (Value.binary b)
        else readList enc e m r.1 r.2) >>= fun v => pure (v, []))
    rw [hread]
    show _ = ((if e.isU8 then readMemory m p len >>= fun b => pure (Value.binary b)
      else readList enc e m p len) >>= fun v => pure (v, []))
    by_cases he : e.isU8
    · rw [if_pos he, if_pos he, bind_assoc]
      rfl
    · rw [if_neg he, if_neg he, readList, checkAligned_of (h he p len hread), Int.toNat_natCast,
        Int.toNat_natCast]
      show _ = ((ensureListFits m p len (size e) >>= fun _ =>
        loadElems (load enc m e) p (size e) len >>= fun vs => pure (Value.list vs)) >>=
          fun v => pure (v, []))
      rw [bind_assoc]
      congr 1
      funext _
      rw [bind_assoc]
      rfl

/-! ## The whole -/

/-- From the core values and from the pointer alike: a trap, or a value of the descriptor. -/
structure LiftsSafely (enc : Encoding) (m : Memory) (d : Desc) (flats rest : List Core) (ptr : ℕ) :
    Prop where
  lifted : Safe (LiftedAs m d rest) (liftValue enc m d (flats ++ rest))
  loaded : Safe (Typed m.bytes d) (load enc m d ptr)
  same : SamePaths enc m d ptr

/-- One page of zeros. -/
def blank : Memory := ⟨1, fun _ => 0⟩

end ErlangWasm.Canon
