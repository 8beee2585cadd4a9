import ErlangWasm.Canon.Joined
import ErlangWasm.Canon.StoreLoad

/-!
# What is lowered is lifted

`lower_value` gives one valid core value for each flat type of its descriptor, and `lift_value` then
takes exactly these and answers the value, where every set of flags fits one word, no variant leaves
a float slot to padding, and the grants are good.
-/

namespace ErlangWasm.Canon

open Reasoning.Bytes
open Reasoning.Unicode
open ErlangWasm.Num (IsF32 IsF64)

variable {enc : Encoding}

mutual

/-- What of the value `flat_types` and `lower_value` agree on: the flags that are lowered are 1 to 32
(more are lowered to one core value too), and the slots that a case does not fill are integers. -/
def FlatFit : Desc → Value → Prop
  | .record fields, .map kvs => FlatFitFields fields kvs
  | .tuple ds, .tuple vs => FlatFitItems ds vs
  | .sum cases, .sum t payload =>
      FlatFitCase (joinCases cases) cases ((cases.map Prod.fst).idxOf t) payload
  | .flags names, _ => 0 < names.length ∧ names.length ≤ 32
  | _, _ => True

def FlatFitFields : List (Bytes × Desc) → List (Bytes × Value) → Prop
  | (_, d) :: fields, (_, v) :: kvs => FlatFit d v ∧ FlatFitFields fields kvs
  | _, _ => True

def FlatFitItems : List Desc → List Value → Prop
  | d :: ds, v :: vs => FlatFit d v ∧ FlatFitItems ds vs
  | _, _ => True

def FlatFitCase (slots : List FlatType) : List (Tag × Option Desc) → ℕ → Value → Prop
  | (_, none) :: _, 0, _ => IntSlots slots
  | (_, some d) :: _, 0, payload => FlatFit d payload ∧ IntSlots (slots.drop (flatTypes d).length)
  | _ :: cases, idx + 1, payload => FlatFitCase slots cases idx payload
  | _, _, _ => True

end

/-- A call that answers core values: one for each of `ts`, from which `lift` takes what it answers
`x` for, whatever follows, as long as the blocks stay as they are. -/
def Lowers {α : Type} (ts : List FlatType) (ps : List Placing)
    (lower : Guest → Outcome (List Core × Guest))
    (lift : Memory → List Core → Outcome (α × List Core)) (x : α) : Prop :=
  ∀ (used : ℕ → Prop) (g : Guest), Fair used g.mem.pages ps g.grants → Good ps g.grants →
    ∃ flats g', lower g = .ok (flats, g') ∧ Effect (fun _ => False) ps g g' ∧ ValidAll ts flats ∧
      ∀ m : Memory, g'.mem.pages ≤ m.pages →
        (∀ a, Foot ps g.grants a → m.byte a = g'.mem.byte a) →
        ∀ rest, lift m (flats ++ rest) = .ok (x, rest)

def LowersAs (enc : Encoding) (d : Desc) (v : Value) : Prop :=
  Lowers (flatTypes d) (placings enc d v) (lowerFlat enc d v) (fun m flats => liftValue enc m d flats)
    (inOrder d v)

/-! ## Scalars -/

/-- A value that is one core value. -/
theorem lowersAs_of_pure {d : Desc} {v : Value} {t : FlatType} {w : Core}
    (ht : flatTypes d = [t]) (hps : placings enc d v = [])
    (hlower : ∀ g, lowerFlat enc d v g = .ok ([w], g)) (hw : t.Valid w)
    (hlift : ∀ m rest, liftValue enc m d (w :: rest) = .ok (inOrder d v, rest)) :
    LowersAs enc d v := by
  intro used g _ _
  rw [ht, hps]
  exact ⟨[w], g, hlower g, Effect.refl, ⟨hw, trivial⟩, fun m _ _ rest => hlift m rest⟩

/-- The bits of the core type of an integer type. -/
def IntType.coreBits (t : IntType) : ℕ := if t.bytes = 8 then 64 else 32

theorem IntType.le_coreBits (t : IntType) : 8 * t.bytes ≤ t.coreBits := by cases t <;> decide

/-- An integer from the bits of its core type. -/
theorem liftInt_of_holds {t : IntType} {i : ℤ} (h : t.Holds i) :
    liftInt t (.int (i % 2 ^ t.coreBits)) = .ok i := by
  have hle := t.le_coreBits
  have hpow {a b : ℕ} (hab : a ≤ b) : (2 : ℤ) ^ a ≤ 2 ^ b := by
    exact_mod_cast Nat.pow_le_pow_right (by decide) hab
  unfold IntType.Holds at h
  unfold liftInt
  cases hs : t.signed with
  | false =>
    rw [hs, if_neg (by decide)] at h
    have hlt := lt_of_lt_of_le h.2 (hpow hle)
    show Except.ok (i % 2 ^ t.coreBits % 2 ^ (8 * t.bytes)) = _
    rw [Int.emod_eq_of_lt h.1 hlt, Int.emod_eq_of_lt h.1 h.2]
  | true =>
    rw [hs, if_pos rfl] at h
    obtain ⟨k, hk⟩ : ∃ k, t.coreBits = k + 1 := by cases t <;> exact ⟨_, rfl⟩
    have hbound := hpow (show 8 * t.bytes - 1 ≤ k by omega)
    show Except.ok (fromSigned (i % 2 ^ t.coreBits % 2 ^ t.coreBits).toNat t.coreBits) = _
    rw [Int.emod_emod, hk, fromSigned_emod (by omega) (by omega)]

theorem lowersAs_int {t : IntType} {i : ℤ} (h : t.Holds i) : LowersAs enc (.int t) (.int i) := by
  refine @lowersAs_of_pure enc _ _ (if t.bytes = 8 then .i64 else .i32)
    (.int (i % 2 ^ t.coreBits)) ?_ rfl (fun _ => rfl) ?_ fun m rest => ?_
  · show (if t.bytes = 8 then [FlatType.i64] else [FlatType.i32]) = _
    split <;> rfl
  · have hnonneg := Int.emod_nonneg i (pow_ne_zero t.coreBits (show (2 : ℤ) ≠ 0 by decide))
    have hlt := Int.emod_lt_of_pos i (Int.pow_pos (by decide) : (0 : ℤ) < 2 ^ t.coreBits)
    unfold IntType.coreBits at hnonneg hlt ⊢
    split
    · rename_i h8
      rw [if_pos h8] at hnonneg hlt
      exact ⟨hnonneg, hlt⟩
    · rename_i h8
      rw [if_neg h8] at hnonneg hlt
      exact ⟨hnonneg, hlt⟩
  · show (liftInt t (.int (i % 2 ^ t.coreBits)) >>= fun j => pure (Value.int j, rest)) = _
    rw [liftInt_of_holds h]
    rfl

theorem lowersAs_f32 {f : Num.RuntimeFloat} (h : IsF32 f) : LowersAs enc .f32 (.float f) :=
  @lowersAs_of_pure enc .f32 (.float f) .f32 (.float f) rfl rfl (fun _ => rfl) h fun _ _ => rfl

theorem lowersAs_f64 {f : Num.RuntimeFloat} (h : IsF64 f) : LowersAs enc .f64 (.float f) :=
  @lowersAs_of_pure enc .f64 (.float f) .f64 (.float f) rfl rfl (fun _ => rfl) h fun _ _ => rfl

theorem lowersAs_bool (b : Bool) : LowersAs enc .bool (.bool b) := by
  refine @lowersAs_of_pure enc _ _ .i32 (.int (boolInt b)) rfl rfl (fun _ => rfl) ?_ fun m rest => ?_
  · cases b <;> exact ⟨by decide, by decide⟩
  · cases b <;> rfl

theorem lowersAs_char {i : ℤ} (h : IsScalar i) : LowersAs enc .char (.int i) := by
  have hi : 0 ≤ i ∧ i < 2 ^ 32 := by
    unfold IsScalar at h
    omega
  have hmod : i % 2 ^ 32 = i := Int.emod_eq_of_lt hi.1 hi.2
  refine @lowersAs_of_pure enc _ _ .i32 (.int (i % 2 ^ 32)) rfl rfl (fun _ => rfl) ?_ fun m rest => ?_
  · rw [hmod]
    exact hi
  · show (validChar (i % 2 ^ 32) >>= fun j => pure (Value.int j, rest)) = _
    rw [hmod, validChar_of h]
    rfl

theorem lowersAs_ref {r : Ref} {i : ℤ} (h0 : 0 ≤ i) (hlt : i < 2 ^ 32) :
    LowersAs enc (.ref r) (.int i) := by
  have hmod : i % 2 ^ 32 = i := Int.emod_eq_of_lt h0 hlt
  refine @lowersAs_of_pure enc _ _ .i32 (.int (i % 2 ^ 32)) rfl rfl (fun _ => rfl) ?_ fun m rest => ?_
  · rw [hmod]
    exact ⟨h0, hlt⟩
  · show Except.ok (Value.int (i % 2 ^ 32 % 2 ^ 32), rest) = _
    rw [hmod, hmod]
    rfl

theorem lowersAs_enum {names : List Bytes} {n : Bytes} (h : n ∈ names)
    (hlen : names.length < 2 ^ 32) : LowersAs enc (.enum names) (.binary n) := by
  have hmem : Tag.name n ∈ names.map Tag.name := List.mem_map_of_mem h
  have hidx := List.idxOf_lt_length_of_mem hmem
  have hget := List.getElem?_idxOf hmem
  rw [List.length_map] at hidx
  rw [List.getElem?_map] at hget
  obtain ⟨n', hn', heq⟩ := Option.map_eq_some_iff.mp hget
  cases heq
  refine @lowersAs_of_pure enc _ _ .i32 (.int ((names.map Tag.name).idxOf (.name n))) rfl rfl
    (fun g => ?_) ⟨Int.natCast_nonneg _, by omega⟩ fun m rest => ?_
  · show (indexOf (.name n) (names.map .name) >>= fun i => pure ([Core.int i], g)) = _
    rw [indexOf_of_mem hmem]
    rfl
  · show (nthCase ((List.idxOf (Tag.name n) (names.map Tag.name) : ℕ) : ℤ) names >>= fun n =>
      pure (Value.binary n, rest)) = _
    rw [nthCase_of hn']
    rfl

/-- A set of flags is lowered to one core value, and lifted from as many as it has words. -/
theorem lowersAs_flags {names set : List Bytes} (hnodup : set.Nodup) (hsub : ∀ n ∈ set, n ∈ names)
    (hpos : 0 < names.length) (hlen : names.length ≤ 32) :
    LowersAs enc (.flags names) (.flags set) := by
  obtain ⟨bits, hbits, hlt, hback⟩ := flagsBits_spec hnodup hsub
  have hwords : flagsWords names.length = 1 := by
    unfold flagsWords
    omega
  have hroom : bits < 2 ^ 32 := lt_of_lt_of_le hlt (Nat.pow_le_pow_right (by decide) hlen)
  refine @lowersAs_of_pure enc _ _ .i32 (.int bits) ?_ rfl (fun g => ?_)
    ⟨Int.natCast_nonneg _, by omega⟩ fun m rest => ?_
  · show List.replicate (flagsWords names.length) FlatType.i32 = _
    rw [hwords]
    rfl
  · show (flagsBits names set >>= fun i => pure ([Core.int i], g)) = _
    rw [hbits]
    rfl
  · have hsplit : splitFlats (flagsWords names.length) (.int bits :: rest) =
        .ok ([.int bits], rest) := by
      have hle : 1 ≤ (Core.int bits :: rest).length := by
        rw [List.length_cons]
        omega
      rw [hwords, splitFlats, if_pos hle, List.splitAt_eq]
      rfl
    have hword : wordsBits [.int bits] 0 0 = .ok bits := by
      show Except.ok (Int.lor 0 ((bits : ℤ) * 2 ^ 0)) = _
      rw [pow_zero, mul_one]
      show Except.ok ((0 ||| bits : ℕ) : ℤ) = _
      rw [Nat.zero_or]
    show (splitFlats (flagsWords names.length) (.int bits :: rest) >>= fun r =>
      wordsBits r.1 0 0 >>= fun i => pure (Value.flags (bitsFlags names i), r.2)) = _
    rw [hsplit]
    show (wordsBits [.int bits] 0 0 >>= fun i => pure (Value.flags (bitsFlags names i), rest)) = _
    rw [hword]
    show Except.ok (Value.flags (bitsFlags names bits), rest) = _
    rw [hback]
    rfl

/-! ## Blocks -/

/-- A value that is the pointer and the length of a block. -/
theorem lowersAs_of_places {d : Desc} {v : Value} {place : Guest → Outcome ((ℕ × ℕ) × Guest)}
    {read : Memory → ℕ → ℕ → Outcome Value} (ht : flatTypes d = [.i32, .i32])
    (hplace : Places (placings enc d v) place read (inOrder d v))
    (hlower : ∀ g, lowerFlat enc d v g = place g >>= fun r =>
      pure ([.int r.1.1, .int r.1.2], r.2))
    (hlift : ∀ (m : Memory) (p len : ℕ) (rest : List Core), read m p len = .ok (inOrder d v) →
      liftValue enc m d (.int p :: .int len :: rest) = .ok (inOrder d v, rest)) :
    LowersAs enc d v := by
  intro used g hfair hgood
  obtain ⟨p, len, g', hplaced, hp, hlen, heffect, hread⟩ := hplace used g hfair
  have hlt := hlen hgood
  rw [Nat.mod_eq_of_lt hlt] at hread
  refine ⟨[.int p, .int len], g', ?_, heffect, ?_, fun m hm hsame rest => ?_⟩
  · rw [hlower, hplaced]
    rfl
  · rw [ht]
    exact ⟨⟨Int.natCast_nonneg _, by omega⟩, ⟨Int.natCast_nonneg _, by omega⟩, trivial⟩
  · apply hlift
    apply (hread m hm _).mpr hgood
    rintro a (ha | ha)
    · cases ha
    · exact hsame a ha

theorem lowersAs_string {bin : Bytes} (h : (utf8? bin).isSome) :
    LowersAs enc .string (.binary bin) := by
  apply lowersAs_of_places rfl (places_stringValue h) (fun _ => rfl)
  intro m p len rest hread
  obtain ⟨bs, hbs, heq⟩ := bind_eq_ok.mp hread
  cases heq
  show (readString enc m p len >>= fun b => pure (Value.binary b, rest)) = _
  rw [hbs]
  rfl

theorem lowersAs_bytes {d : Desc} {bin : Bytes} (h : d.isU8) :
    LowersAs enc (.list d) (.binary bin) := by
  obtain rfl := isU8_eq h
  apply lowersAs_of_places rfl (places_bytesValue bin) (fun _ => rfl)
  intro m p len rest hread
  obtain ⟨bs, hbs, heq⟩ := bind_eq_ok.mp hread
  cases heq
  show (readMemory m p len >>= fun b => pure (Value.binary b, rest)) = _
  rw [hbs]
  rfl

theorem lowersAs_list {d : Desc} {vs : List Value} (hd : ¬ d.isU8) (h : ∀ v ∈ vs, HasShape d v) :
    LowersAs enc (.list d) (.list vs) := by
  have hplace : Places (placings enc (.list d) (.list vs)) (placeList (store enc d) d vs)
      (readList enc d) (inOrder (.list d) (.list vs)) :=
    places_list fun v hv => storesAs (h v hv)
  apply lowersAs_of_places rfl hplace
  · intro g
    show (if d.isU8 then crash else placeList (store enc d) d vs g >>= fun r =>
      pure ([Core.int r.1.1, Core.int r.1.2], r.2)) = _
    rw [if_neg hd]
  · intro m p len rest hread
    obtain ⟨_, -, hread⟩ := bind_eq_ok.mp hread
    obtain ⟨_, hfits, hread⟩ := bind_eq_ok.mp hread
    obtain ⟨us, hus, heq⟩ := bind_eq_ok.mp hread
    cases heq
    show (if d.isU8 then readMemory m p len >>= fun b => pure (Value.binary b, rest)
      else ensureListFits m p len (size d) >>= fun _ =>
        loadElems (load enc m d) (p : ℤ).toNat (size d) (len : ℤ).toNat >>= fun us =>
          pure (Value.list us, rest)) = _
    rw [if_neg hd, hfits, Int.toNat_natCast, Int.toNat_natCast]
    show (loadElems (load enc m d) p (size d) len >>= fun us => pure (Value.list us, rest)) = _
    rw [hus]
    rfl

/-! ## Tuples and records -/

theorem Lowers.nil {α : Type} {x : α} : Lowers [] [] (fun g => pure ([], g))
    (fun _ flats => pure (x, flats)) x := by
  intro used g _ _
  exact ⟨[], g, rfl, Effect.refl, trivial, fun _ _ _ _ => rfl⟩

/-- One value after another. -/
theorem Lowers.seq {α β γ : Type} {f : α → β → γ} {ts us : List FlatType} {ps qs : List Placing}
    {lower lower' : Guest → Outcome (List Core × Guest)}
    {lift : Memory → List Core → Outcome (α × List Core)}
    {lift' : Memory → List Core → Outcome (β × List Core)} {x : α} {y : β}
    (h : Lowers ts ps lower lift x) (h' : Lowers us qs lower' lift' y) :
    Lowers (ts ++ us) (ps ++ qs)
      (fun g => do
        let (flats, g) ← lower g
        let (rest, g) ← lower' g
        return (flats ++ rest, g))
      (fun m flats => do
        let (x, flats) ← lift m flats
        let (y, flats) ← lift' m flats
        return (f x y, flats)) (f x y) := by
  intro used g hfair hgood
  obtain ⟨hgood₁, hgood₂⟩ := good_append.mp hgood
  obtain ⟨flats, g₁, hlower, heffect, hvalid, hlift⟩ := h used g hfair.left hgood₁
  have hsecond := hfair.second heffect
  obtain ⟨flats', g₂, hlower', heffect', hvalid', hlift'⟩ :=
    h' _ g₁ hsecond (by rw [heffect.grants]; exact hgood₂)
  refine ⟨flats ++ flats', g₂, ?_, (heffect.trans heffect').mono fun a ha => ?_,
    hvalid.append hvalid', fun m hm hsame rest => ?_⟩
  · show (lower g >>= fun r => lower' r.2 >>= fun r' => pure (r.1 ++ r'.1, r'.2)) = _
    rw [hlower]
    show (lower' g₁ >>= fun r' => pure (flats ++ r'.1, r'.2)) = _
    rw [hlower']
    rfl
  · rcases ha with ha | ha
    · cases ha
    · cases ha
  · have hfirst := hlift m (le_trans heffect'.le_pages hm) (fun a ha => by
      rw [hsame a (foot_append.mpr (.inl ha))]
      exact heffect'.keeps hsecond (.inr ha) nofun) (flats' ++ rest)
    have hrest := hlift' m hm (fun a ha => by
      rw [heffect.grants] at ha
      exact hsame a (foot_append.mpr (.inr ha))) rest
    show (lift m (flats ++ flats' ++ rest) >>= fun r => lift' m r.2 >>= fun r' =>
      pure (f r.1 r'.1, r'.2)) = _
    rw [List.append_assoc, hfirst]
    show (lift' m (flats' ++ rest) >>= fun r' => pure (f x r'.1, r'.2)) = _
    rw [hrest]
    rfl

theorem lowers_items {ds : List Desc} {vs : List Value}
    (ih : ∀ d ∈ ds, ∀ v, HasShape d v → FlatFit d v → LowersAs enc d v) (h : ShapeItems ds vs)
    (hfit : FlatFitItems ds vs) :
    Lowers (flatTypesItems ds) (placingsItems enc ds vs) (lowerItems enc ds vs)
      (fun m flats => liftItems enc m ds flats) (inOrderItems ds vs) := by
  induction ds generalizing vs with
  | nil =>
    cases vs with
    | nil => exact Lowers.nil
    | cons v vs => cases h
  | cons d ds ihds =>
    cases vs with
    | nil => cases h
    | cons v vs =>
      have hfirst := ih d List.mem_cons_self v h.1 hfit.1
      have hrest := ihds (fun e he => ih e (List.mem_cons_of_mem _ he)) h.2 hfit.2
      exact Lowers.seq (f := fun x xs => x :: xs) hfirst hrest

theorem Lowers.map {α β : Type} {f : α → β} {ts : List FlatType} {ps : List Placing}
    {lower : Guest → Outcome (List Core × Guest)}
    {lift : Memory → List Core → Outcome (α × List Core)} {x : α} (h : Lowers ts ps lower lift x) :
    Lowers ts ps lower (fun m flats => do
      let (x, flats) ← lift m flats
      return (f x, flats)) (f x) := by
  intro used g hfair hgood
  obtain ⟨flats, g', hlower, heffect, hvalid, hlift⟩ := h used g hfair hgood
  refine ⟨flats, g', hlower, heffect, hvalid, fun m hm hsame rest => ?_⟩
  show (lift m (flats ++ rest) >>= fun r => pure (f r.1, r.2)) = _
  rw [hlift m hm hsame rest]
  rfl

theorem Lowers.congr {α : Type} {ts : List FlatType} {ps : List Placing}
    {lower lower₂ : Guest → Outcome (List Core × Guest)}
    {lift lift₂ : Memory → List Core → Outcome (α × List Core)} {x : α}
    (h : Lowers ts ps lower lift x) (hlower : ∀ g, lower₂ g = lower g)
    (hlift : ∀ m flats, lift₂ m flats = lift m flats) : Lowers ts ps lower₂ lift₂ x := by
  have h1 : lower₂ = lower := funext hlower
  have h2 : lift₂ = lift := funext fun m => funext fun flats => hlift m flats
  rw [h1, h2]
  exact h

/-- A record is lifted as the tuple of its fields. -/
theorem liftFields_eq {m : Memory} {fields : List (Bytes × Desc)} {flats : List Core}
    {acc : List (Bytes × Value)} (hnodup : (fields.map Prod.fst).Nodup)
    (hacc : ∀ n ∈ fields.map Prod.fst, n ∉ acc.map Prod.fst) :
    liftFields enc m fields flats acc = liftItems enc m (fields.map Prod.snd) flats >>=
      fun r => pure (acc ++ (fields.map Prod.fst).zip r.1, r.2) := by
  induction fields generalizing flats acc with
  | nil =>
    show Except.ok (acc, flats) = Except.ok (acc ++ [], flats)
    rw [List.append_nil]
  | cons f fields ih =>
    obtain ⟨n, d⟩ := f
    rw [List.map_cons, List.nodup_cons] at hnodup
    have hnew := hacc n List.mem_cons_self
    show (liftValue enc m d flats >>= fun r => liftFields enc m fields r.2 (putField acc n r.1)) =
      ((liftValue enc m d flats >>= fun r => liftItems enc m (fields.map Prod.snd) r.2 >>= fun r' =>
        pure (r.1 :: r'.1, r'.2)) >>= fun r =>
          pure (acc ++ (n :: fields.map Prod.fst).zip r.1, r.2))
    rw [bind_assoc]
    congr 1
    funext r
    rw [putField_new hnew, ih hnodup.2, bind_assoc]
    · congr 1
      funext r'
      show Except.ok _ = Except.ok _
      rw [List.append_assoc]
      rfl
    · intro k hk
      rw [List.map_append, List.mem_append, not_or]
      refine ⟨hacc k (List.mem_cons_of_mem _ hk), fun heq => ?_⟩
      cases List.mem_singleton.mp heq
      exact hnodup.1 hk

/-- A record is lowered as the tuple of its fields. -/
theorem lowerFields_eq {fields : List (Bytes × Desc)} {kvs all : List (Bytes × Value)}
    (h : ShapeFields fields kvs) (hall : ∀ kv ∈ kvs, all.lookup kv.1 = some kv.2) (g : Guest) :
    lowerFields enc fields all g =
      lowerItems enc (fields.map Prod.snd) (kvs.map Prod.snd) g := by
  induction fields generalizing kvs g with
  | nil =>
    cases kvs with
    | nil => rfl
    | cons kv kvs => cases h
  | cons f fields ih =>
    obtain ⟨n, d⟩ := f
    cases kvs with
    | nil => cases h
    | cons kv kvs =>
      obtain ⟨k, v⟩ := kv
      obtain ⟨rfl, -, hrest⟩ := h
      have hget : getField n all = .ok v := by rw [getField, hall (n, v) List.mem_cons_self]
      show (getField n all >>= fun v => lowerFlat enc d v g >>= fun r =>
        lowerFields enc fields all r.2 >>= fun r' => pure (r.1 ++ r'.1, r'.2)) =
        (lowerFlat enc d v g >>= fun r =>
          lowerItems enc (fields.map Prod.snd) (kvs.map Prod.snd) r.2 >>= fun r' =>
            pure (r.1 ++ r'.1, r'.2))
      rw [hget]
      show (lowerFlat enc d v g >>= _) = _
      congr 1
      funext r
      rw [ih hrest fun kv hkv => hall kv (List.mem_cons_of_mem _ hkv)]

theorem flatTypesFields_eq (fields : List (Bytes × Desc)) :
    flatTypesFields fields = flatTypesItems (fields.map Prod.snd) := by
  induction fields with
  | nil => rfl
  | cons f fields ih =>
    obtain ⟨n, d⟩ := f
    rw [flatTypesFields, List.map_cons, flatTypesItems, ih]

theorem flatFitItems_of_fields {fields : List (Bytes × Desc)} {kvs : List (Bytes × Value)}
    (h : FlatFitFields fields kvs) :
    FlatFitItems (fields.map Prod.snd) (kvs.map Prod.snd) := by
  induction fields generalizing kvs with
  | nil => trivial
  | cons f fields ih =>
    obtain ⟨n, d⟩ := f
    cases kvs with
    | nil => trivial
    | cons kv kvs => exact ⟨h.1, ih h.2⟩

theorem lowersAs_record {fields : List (Bytes × Desc)} {kvs : List (Bytes × Value)}
    (ih : ∀ f ∈ fields, ∀ v, HasShape f.2 v → FlatFit f.2 v → LowersAs enc f.2 v)
    (hnodup : (kvs.map Prod.fst).Nodup) (h : ShapeFields fields kvs)
    (hfit : FlatFitFields fields kvs) : LowersAs enc (.record fields) (.map kvs) := by
  obtain ⟨hnames, hitems, hplacings, horder⟩ := @shapeItems_of_fields enc fields kvs h
  have ihitems : ∀ d ∈ fields.map Prod.snd, ∀ v, HasShape d v → FlatFit d v →
      LowersAs enc d v := by
    intro d hd
    obtain ⟨f, hf, rfl⟩ := List.mem_map.mp hd
    exact ih f hf
  have hlowered := (lowers_items ihitems hitems (flatFitItems_of_fields hfit)).map
    (f := fun vs => Value.map ((fields.map Prod.fst).zip vs))
  rw [← horder, ← hplacings, ← flatTypesFields_eq] at hlowered
  refine hlowered.congr (fun g => ?_) fun m flats => ?_
  · exact lowerFields_eq h (fun kv hkv => lookup_of_nodup hnodup hkv) g
  · show (liftFields enc m fields flats [] >>= fun r => pure (Value.map r.1, r.2)) = _
    rw [liftFields_eq (by rwa [hnames]) fun _ _ hin => List.not_mem_nil hin, bind_assoc]
    rfl

/-! ## Cases -/

theorem flatCase_none {cases : List (Tag × Option Desc)} {idx : ℕ} {t : Tag}
    (h : cases[idx]? = some (t, none)) (payload : Value) (slots : List FlatType) :
    (∀ g, lowerCase enc cases idx payload g = .ok (([], []), g)) ∧
      (∀ m flats, liftCase enc m cases idx slots flats = .ok .undefined) ∧
      (FlatFitCase slots cases idx payload → IntSlots slots) := by
  induction cases generalizing idx with
  | nil => cases h
  | cons c cases ih =>
    obtain ⟨u, o⟩ := c
    cases idx with
    | zero =>
      cases h
      exact ⟨fun _ => rfl, fun _ _ => rfl, id⟩
    | succ idx =>
      cases o with
      | none => exact ih h
      | some d => exact ih h

theorem flatCase_some {cases : List (Tag × Option Desc)} {idx : ℕ} {t : Tag} {d : Desc}
    (h : cases[idx]? = some (t, some d)) (payload : Value) (slots : List FlatType) :
    (∀ g, lowerCase enc cases idx payload g = lowerFlat enc d payload g >>= fun r =>
        pure ((r.1, flatTypes d), r.2)) ∧
      (∀ m flats, liftCase enc m cases idx slots flats = uncoerce (flatTypes d) slots flats >>=
        fun vs => liftValue enc m d vs >>= fun r => pure r.1) ∧
      (FlatFitCase slots cases idx payload →
        FlatFit d payload ∧ IntSlots (slots.drop (flatTypes d).length)) := by
  induction cases generalizing idx with
  | nil => cases h
  | cons c cases ih =>
    obtain ⟨u, o⟩ := c
    cases idx with
    | zero =>
      cases h
      exact ⟨fun _ => rfl, fun _ _ => rfl, id⟩
    | succ idx =>
      cases o with
      | none => exact ih h
      | some e => exact ih h

/-- The payload of a case in the slots of its variant, and lifted from them. -/
theorem lowers_case {cases : List (Tag × Option Desc)} {idx : ℕ} {t : Tag} {o : Option Desc}
    {payload : Value}
    (ih : ∀ c ∈ cases, ∀ d, c.2 = some d → ∀ v, HasShape d v → FlatFit d v → LowersAs enc d v)
    (hget : cases[idx]? = some (t, o))
    (ho : o = none ∧ payload = .undefined ∨ ∃ d, o = some d ∧ HasShape d payload)
    (hfit : FlatFitCase (joinCases cases) cases idx payload) :
    Lowers (joinCases cases) (placingsCase enc cases idx payload)
      (fun g => do
        let ((flats, types), g) ← lowerCase enc cases idx payload g
        return (← coerceJoin flats types (joinCases cases), g))
      (fun m flats => do
        let (slots, rest) ← splitFlats (joinCases cases).length flats
        return (← liftCase enc m cases idx (joinCases cases) slots, rest))
      (inOrderCase cases idx payload) := by
  intro used g hfair hgood
  have hsplit {ws : List Core} (hvalid : ValidAll (joinCases cases) ws) (rest : List Core) :
      splitFlats (joinCases cases).length (ws ++ rest) = .ok (ws, rest) := by
    have hlen := hvalid.length_eq
    have hle : (joinCases cases).length ≤ (ws ++ rest).length := by
      rw [List.length_append]
      omega
    rw [splitFlats, if_pos hle, List.splitAt_eq, ← hlen, List.take_left, List.drop_left]
  rcases ho with ⟨rfl, rfl⟩ | ⟨d, rfl, hshape⟩
  · obtain ⟨hlower, hlift, hints⟩ := @flatCase_none enc cases idx t hget .undefined (joinCases cases)
    obtain ⟨-, -, hplacings, horder⟩ := @case_none enc cases idx t hget 0 .undefined
    obtain ⟨ws, hws, hvalid⟩ := coerceJoin_pad (hints hfit)
    rw [hplacings, horder]
    refine ⟨ws, g, ?_, Effect.refl, hvalid, fun m hm hsame rest => ?_⟩
    · dsimp only
      rw [hlower]
      show (coerceJoin [] [] (joinCases cases) >>= fun ws => pure (ws, g)) = _
      rw [hws]
      rfl
    · dsimp only
      rw [hsplit hvalid rest]
      show (liftCase enc m cases idx (joinCases cases) ws >>= fun v => pure (v, rest)) = _
      rw [hlift]
      rfl
  · obtain ⟨hlower, hlift, hfits⟩ := @flatCase_some enc cases idx t d hget payload (joinCases cases)
    obtain ⟨-, -, hplacings, horder⟩ := @case_some enc cases idx t d hget 0 payload
    obtain ⟨hfitd, hints⟩ := hfits hfit
    have hmem := List.mem_of_getElem? hget
    rw [hplacings] at hfair hgood ⊢
    rw [horder]
    obtain ⟨flats, g', hflat, heffect, hvalid, hback⟩ :=
      ih _ hmem d rfl payload hshape hfitd used g hfair hgood
    obtain ⟨ws, hws, hvalidws, huncoerce⟩ :=
      coerceJoin_spec hvalid (fitsAll_joinCases hmem) hints
    refine ⟨ws, g', ?_, heffect, hvalidws, fun m hm hsame rest => ?_⟩
    · dsimp only
      rw [hlower, hflat]
      show (coerceJoin flats (flatTypes d) (joinCases cases) >>= fun ws => pure (ws, g')) = _
      rw [hws]
      rfl
    · have hpayload : liftValue enc m d (flats ++ []) = .ok (inOrder d payload, []) :=
        hback m hm hsame []
      rw [List.append_nil] at hpayload
      dsimp only
      rw [hsplit hvalidws rest]
      show (liftCase enc m cases idx (joinCases cases) ws >>= fun v => pure (v, rest)) = _
      rw [hlift, huncoerce]
      show ((liftValue enc m d flats >>= fun r => pure r.1) >>= fun v => pure (v, rest)) = _
      rw [hpayload]
      rfl

theorem lowersAs_sum {cases : List (Tag × Option Desc)} {t : Tag} {payload : Value}
    (ih : ∀ c ∈ cases, ∀ d, c.2 = some d → ∀ v, HasShape d v → FlatFit d v → LowersAs enc d v)
    (ht : t ∈ cases.map Prod.fst) (hlen : cases.length < 2 ^ 32)
    (h : ShapeCase cases ((cases.map Prod.fst).idxOf t) payload)
    (hfit : FlatFitCase (joinCases cases) cases ((cases.map Prod.fst).idxOf t) payload) :
    LowersAs enc (.sum cases) (.sum t payload) := by
  obtain ⟨u, o, hget, ho⟩ := shapeCase_cases h
  obtain rfl := getElem?_of_tag ht hget
  have hidx := List.idxOf_lt_length_of_mem ht
  rw [List.length_map] at hidx
  intro used g hfair hgood
  obtain ⟨ws, g', hlower, heffect, hvalid, hlift⟩ := lowers_case ih hget ho hfit used g hfair hgood
  obtain ⟨r, hr, hws⟩ := bind_eq_ok.mp hlower
  obtain ⟨ws', hws', heq⟩ := bind_eq_ok.mp hws
  cases heq
  refine ⟨.int ((cases.map Prod.fst).idxOf u) :: ws, r.2, ?_, heffect, ⟨?_, hvalid⟩,
    fun m hm hsame rest => ?_⟩
  · show (indexOf u (cases.map Prod.fst) >>= fun disc => lowerCase enc cases disc payload g >>=
      fun r => coerceJoin r.1.1 r.1.2 (joinCases cases) >>= fun ws =>
        pure (Core.int disc :: ws, r.2)) = _
    rw [indexOf_of_mem ht]
    show (lowerCase enc cases _ payload g >>= fun r =>
      coerceJoin r.1.1 r.1.2 (joinCases cases) >>= fun ws => pure (Core.int _ :: ws, r.2)) = _
    rw [hr]
    show (coerceJoin r.1.1 r.1.2 (joinCases cases) >>= fun ws => pure (Core.int _ :: ws, r.2)) = _
    rw [hws']
    rfl
  · exact ⟨Int.natCast_nonneg _, by omega⟩
  · obtain ⟨s, hs, hcase⟩ := bind_eq_ok.mp (hlift m hm hsame rest)
    obtain ⟨v, hv, heq⟩ := bind_eq_ok.mp hcase
    obtain ⟨rfl, rfl⟩ := Prod.mk.inj (Except.ok.inj heq)
    show (splitFlats (joinCases cases).length (ws ++ s.2) >>= fun s =>
      nthCase ((cases.map Prod.fst).idxOf u : ℤ) cases >>= fun c =>
        liftCase enc m cases ((cases.map Prod.fst).idxOf u : ℤ).toNat (joinCases cases) s.1 >>=
          fun v => pure (Value.sum c.1 v, s.2)) = _
    rw [hs, nthCase_of hget, Int.toNat_natCast]
    show (liftCase enc m cases _ (joinCases cases) s.1 >>= fun v =>
      pure (Value.sum u v, s.2)) = _
    rw [hv]
    rfl

/-! ## All descriptors -/

theorem lowersAs {d : Desc} {v : Value} (h : HasShape d v) (hfit : FlatFit d v) :
    LowersAs enc d v := by
  induction d using Desc.induct generalizing v with
  | int t =>
    cases v with
    | int i => exact lowersAs_int h
    | _ => cases h
  | f32 =>
    cases v with
    | float f => exact lowersAs_f32 h
    | _ => cases h
  | f64 =>
    cases v with
    | float f => exact lowersAs_f64 h
    | _ => cases h
  | bool =>
    cases v with
    | bool b => exact lowersAs_bool b
    | _ => cases h
  | char =>
    cases v with
    | int i => exact lowersAs_char h
    | _ => cases h
  | string =>
    cases v with
    | binary bin => exact lowersAs_string h
    | _ => cases h
  | list d ih =>
    cases v with
    | binary bin => exact lowersAs_bytes h
    | list vs => exact lowersAs_list h.1 h.2
    | _ => cases h
  | record fields ih =>
    cases v with
    | map kvs => exact lowersAs_record (fun f hf _ hv hfit => ih f hf hv hfit) h.1 h.2 hfit
    | _ => cases h
  | tuple ds ih =>
    cases v with
    | tuple vs =>
      have hitems := (lowers_items (fun d hd _ hv hfit => ih d hd hv hfit) h hfit).map
        (f := Value.tuple)
      exact hitems.congr (fun _ => rfl) fun _ _ => rfl
    | _ => cases h
  | enum names =>
    cases v with
    | binary n => exact lowersAs_enum h.1 h.2
    | _ => cases h
  | sum cases ih =>
    cases v with
    | sum t payload =>
      exact lowersAs_sum (fun c hc d hd _ hv hfit => ih c hc d hd hv hfit) h.1 h.2.1 h.2.2 hfit
    | _ => cases h
  | flags names =>
    cases v with
    | flags set => exact lowersAs_flags h.1 h.2 hfit.1 hfit.2
    | _ => cases h
  | ref r =>
    cases v with
    | int i => exact lowersAs_ref h.1 h.2
    | _ => cases h

/-- `lower_value` gives a valid core value for each flat type, and `lift_value` of them and any
further ones answers the value and the further ones. -/
def LoweredIsLifted (enc : Encoding) (d : Desc) (v : Value) (g : Guest) : Prop :=
  ∃ flats g', lowerValue enc d v g = .ok (flats, g') ∧ flats.length = (flatTypes d).length ∧
    ValidAll (flatTypes d) flats ∧
    ∀ rest, liftValue enc g'.mem d (flats ++ rest) = .ok (inOrder d v, rest)

/-- The block of parameters that spill is asked for before those of their values. -/
def paramsPlacings (enc : Encoding) (ds : List Desc) (args : List Value) : List Placing :=
  if paramsSpill ds then
    ⟨align (.tuple ds), size (.tuple ds), 0, 1, false⟩ :: placingsItems enc ds args
  else placingsItems enc ds args

theorem flatTypesItems_length (ds : List Desc) :
    (flatTypesItems ds).length = (ds.map fun d => (flatTypes d).length).sum := by
  induction ds with
  | nil => rfl
  | cons d ds ih => rw [flatTypesItems, List.length_append, ih, List.map_cons, List.sum_cons]

theorem params_spilled {ds : List Desc} {args : List Value} {used : ℕ → Prop} {g : Guest}
    (hspill : paramsSpill ds = true) (hshape : ShapeItems ds args)
    (hfair : Fair used g.mem.pages (paramsPlacings enc ds args) g.grants)
    (hgood : Good (paramsPlacings enc ds args) g.grants) :
    ∃ ptr : ℕ, ∃ g', ptr < 2 ^ 32 ∧ lowerParams enc ds args g = .ok ([.int ptr], g') ∧
      ∀ rest, liftParams enc g'.mem ds (.int ptr :: rest) = .ok (inOrderItems ds args, rest) := by
  rw [paramsPlacings, if_pos hspill] at hfair hgood
  obtain ⟨ptr, g₁, hrealloc, -, ⟨gr, grants, hgrants, rfl⟩, halign, hlt, -, hin, -, hrest⟩ :=
    realloc_spec (align (.tuple ds)) (size (.tuple ds)) hfair
  rw [hgrants] at hgood
  have hgrants₁ : g₁.grants = grants := by
    rw [realloc, hgrants] at hrealloc
    cases hrealloc
    rfl
  obtain ⟨g', hstore, -, hread⟩ := @storesAs enc (.tuple ds) (.tuple args) hshape gr.ptr _ g₁ hin
    hrest fun a ha => .inr ha
  have hload : load enc g'.mem (.tuple ds) gr.ptr = .ok (.tuple (inOrderItems ds args)) :=
    (hread g'.mem (Nat.le_refl _) fun _ _ => rfl).mpr (hgrants₁ ▸ hgood.2.2)
  have hitems : loadItems enc g'.mem ds gr.ptr 0 = .ok (inOrderItems ds args) := by
    rw [load] at hload
    cases h : loadItems enc g'.mem ds gr.ptr 0 with
    | error e =>
      rw [h] at hload
      cases hload
    | ok vs =>
      rw [h] at hload
      cases hload
      rfl
  refine ⟨gr.ptr, g', hlt, ?_, fun rest => ?_⟩
  · rw [lowerParams, if_pos hspill, hrealloc]
    show (store enc (.tuple ds) gr.ptr (.tuple args) g₁ >>= fun g => _) = _
    rw [hstore]
    rfl
  · have haligned : checkAligned (gr.ptr : ℤ) (align (.tuple ds)) = .ok () :=
      if_pos (by exact_mod_cast halign)
    have hptr : toPtr (gr.ptr : ℤ) = .ok gr.ptr := if_pos (Int.natCast_nonneg _)
    rw [liftParams, if_pos hspill]
    show (checkAligned (gr.ptr : ℤ) (align (.tuple ds)) >>= fun _ => toPtr (gr.ptr : ℤ) >>= fun p =>
      loadItems enc g'.mem ds p 0 >>= fun vs => pure (vs, rest)) = _
    rw [haligned]
    show (toPtr (gr.ptr : ℤ) >>= fun p =>
      loadItems enc g'.mem ds p 0 >>= fun vs => pure (vs, rest)) = _
    rw [hptr]
    show (loadItems enc g'.mem ds gr.ptr 0 >>= fun vs => pure (vs, rest)) = _
    rw [hitems]
    rfl

end ErlangWasm.Canon
