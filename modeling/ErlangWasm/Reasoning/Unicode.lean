import ErlangWasm.Reasoning.Bytes

/-!
# UTF-8, UTF-16 and Latin-1

A string as a list of characters (Unicode scalar values), and its three encodings as bytes.  UTF-8
is the library's own; UTF-16 is little-endian, a character above `0xFFFF` as a surrogate pair.
-/

namespace Reasoning.Unicode

open Reasoning.Bytes

/-! ## UTF-8 -/

def utf8 (cs : List Char) : List UInt8 := cs.flatMap String.utf8EncodeChar

def utf8? (bs : List UInt8) : Option (List Char) :=
  bs.toByteArray.utf8Decode?.map Array.toList

theorem utf8Encode_eq (cs : List Char) : (utf8 cs).toByteArray = cs.utf8Encode := rfl

@[simp] theorem utf8?_utf8 (cs : List Char) : utf8? (utf8 cs) = some cs := by
  rw [utf8?, utf8Encode_eq, List.utf8Decode?_utf8Encode]
  rfl

theorem utf8_of_some {bs : List UInt8} {cs : List Char} (h : utf8? bs = some cs) :
    utf8 cs = bs := by
  obtain ⟨a, ha, rfl⟩ := Option.map_eq_some_iff.mp h
  have hsome : bs.toByteArray.utf8Decode?.isSome := by rw [ha]; rfl
  have hget := @ByteArray.utf8Encode_get_utf8Decode? bs.toByteArray hsome
  have hbytes : (utf8 a.toList).toByteArray = bs.toByteArray := by
    rw [utf8Encode_eq, ← hget]
    simp [ha]
  simpa using congrArg (fun b => b.data.toList) hbytes

theorem utf8_injective {cs ds : List Char} (h : utf8 cs = utf8 ds) : cs = ds := by
  have hsome := congrArg utf8? h
  rwa [utf8?_utf8, utf8?_utf8, Option.some.injEq] at hsome

theorem toNat_cases (c : Char) : c.toNat < 0xD800 ∨ 0xE000 ≤ c.toNat ∧ c.toNat < 0x110000 := by
  have h := c.valid
  rcases h with h | ⟨h1, h2⟩
  · exact .inl h
  · right
    exact ⟨h1, h2⟩

theorem utf8EncodeChar_ascii {c : Char} (h : c.toNat < 0x80) :
    String.utf8EncodeChar c = [UInt8.ofNat c.toNat] := by
  unfold String.utf8EncodeChar
  have hle : c.toNat ≤ 0x7F := by omega
  exact if_pos hle

/-- The bytes of the other characters are not ASCII. -/
theorem utf8EncodeChar_high {c : Char} (h : ¬ c.toNat < 0x80) {b : UInt8}
    (hb : b ∈ String.utf8EncodeChar c) : 0x80 ≤ b.toNat := by
  have hc := toNat_cases c
  have hval : c.val.toNat = c.toNat := rfl
  unfold String.utf8EncodeChar at hb
  simp only [hval] at hb
  split at hb
  · omega
  · split at hb
    · simp only [List.mem_cons, List.not_mem_nil, or_false] at hb
      rcases hb with rfl | rfl
      all_goals
        rw [UInt8.toNat_ofNat']
        omega
    · split at hb
      · simp only [List.mem_cons, List.not_mem_nil, or_false] at hb
        rcases hb with rfl | rfl | rfl
        all_goals
          rw [UInt8.toNat_ofNat']
          omega
      · simp only [List.mem_cons, List.not_mem_nil, or_false] at hb
        rcases hb with rfl | rfl | rfl | rfl
        all_goals
          rw [UInt8.toNat_ofNat']
          omega

/-! ## UTF-16 -/

/-- The 16-bit units of a character. -/
def units (c : Char) : List ℕ :=
  if c.toNat < 0x10000 then [c.toNat]
  else [0xD800 + (c.toNat - 0x10000) / 0x400, 0xDC00 + (c.toNat - 0x10000) % 0x400]

def utf16le (cs : List Char) : List UInt8 := cs.flatMap fun c => (units c).flatMap (le 2)

/-- Bytes as 16-bit units. -/
def units? : List UInt8 → Option (List ℕ)
  | [] => some []
  | [_] => none
  | a :: b :: bs => (units? bs).map (ofLe [a, b] :: ·)

/-- A unit that is a character. -/
def Alone (u : ℕ) : Prop := u < 0xD800 ∨ 0xE000 ≤ u

instance (u : ℕ) : Decidable (Alone u) := inferInstanceAs (Decidable (_ ∨ _))

/-- Units as characters: no surrogate stands but in a pair. -/
def chars? : List ℕ → Option (List Char)
  | [] => some []
  | [u] => if Alone u then some [Char.ofNat u] else none
  | u :: v :: us =>
      if Alone u then (chars? (v :: us)).map (Char.ofNat u :: ·)
      else if u < 0xDC00 ∧ 0xDC00 ≤ v ∧ v < 0xE000 then
        (chars? us).map (Char.ofNat (0x10000 + (u - 0xD800) * 0x400 + (v - 0xDC00)) :: ·)
      else none

def utf16le? (bs : List UInt8) : Option (List Char) := (units? bs).bind chars?

theorem units_lt {c : Char} {u : ℕ} (h : u ∈ units c) : u < 256 ^ 2 := by
  have hc := toNat_cases c
  unfold units at h
  split at h
  · rw [List.mem_singleton] at h
    omega
  · simp only [List.mem_cons, List.not_mem_nil, or_false] at h
    omega

theorem units?_append {us : List ℕ} (h : ∀ u ∈ us, u < 256 ^ 2) (bs : List UInt8) :
    units? (us.flatMap (le 2) ++ bs) = (units? bs).map (us ++ ·) := by
  induction us with
  | nil => simp
  | cons u us ih =>
    have hu : ofLe (le 2 u) = u := by
      rw [ofLe_le, Nat.mod_eq_of_lt (h u List.mem_cons_self)]
    rw [List.flatMap_cons, List.append_assoc]
    change (units? (us.flatMap (le 2) ++ bs)).map (ofLe (le 2 u) :: ·) = _
    rw [ih fun v hv => h v (List.mem_cons_of_mem _ hv), hu, Option.map_map]
    rfl

theorem chars?_alone {u : ℕ} (h : Alone u) (us : List ℕ) :
    chars? (u :: us) = (chars? us).map (Char.ofNat u :: ·) := by
  cases us with
  | nil =>
    show chars? [u] = some [Char.ofNat u]
    rw [chars?, if_pos h]
  | cons v us => rw [chars?, if_pos h]

theorem chars?_units (c : Char) (us : List ℕ) :
    chars? (units c ++ us) = (chars? us).map (c :: ·) := by
  have hc := toNat_cases c
  unfold units
  split
  · have halone : Alone c.toNat := by
      unfold Alone
      omega
    rw [List.singleton_append, chars?_alone halone, Char.ofNat_toNat]
  · have hback : 0x10000 + (0xD800 + (c.toNat - 0x10000) / 0x400 - 0xD800) * 0x400 +
        (0xDC00 + (c.toNat - 0x10000) % 0x400 - 0xDC00) = c.toNat := by omega
    have hpair : ¬ Alone (0xD800 + (c.toNat - 0x10000) / 0x400) := by
      unfold Alone
      omega
    rw [List.cons_append, List.cons_append, List.nil_append, chars?, if_neg hpair,
      if_pos (by omega), hback, Char.ofNat_toNat]

@[simp] theorem utf16le?_utf16le (cs : List Char) : utf16le? (utf16le cs) = some cs := by
  have hunits : units? (utf16le cs) = some (cs.flatMap units) := by
    induction cs with
    | nil => rfl
    | cons c cs ih =>
      rw [utf16le, List.flatMap_cons, units?_append fun u hu => units_lt hu]
      rw [utf16le] at ih
      rw [ih]
      rfl
  have hchars : chars? (cs.flatMap units) = some cs := by
    clear hunits
    induction cs with
    | nil => rfl
    | cons c cs ih =>
      rw [List.flatMap_cons, chars?_units, ih]
      rfl
  rw [utf16le?, hunits, Option.bind_some, hchars]

/-- A string has two bytes a unit. -/
theorem utf16le_even (cs : List Char) : (utf16le cs).length % 2 = 0 := by
  have hlen (us : List ℕ) : (us.flatMap (le 2)).length = 2 * us.length := by
    induction us with
    | nil => rfl
    | cons u us ih =>
      rw [List.flatMap_cons, List.length_append, ih, length_le, List.length_cons]
      omega
  induction cs with
  | nil => rfl
  | cons c cs ih =>
    rw [utf16le] at ih
    rw [utf16le, List.flatMap_cons, List.length_append, hlen]
    omega

/-- Bytes hold at most one character a unit. -/
theorem utf16le?_length {bs : List UInt8} {cs : List Char} (h : utf16le? bs = some cs) :
    2 * cs.length ≤ bs.length := by
  have hunits : ∀ (bs : List UInt8) (us : List ℕ), units? bs = some us →
      2 * us.length = bs.length := by
    intro bs
    induction bs using units?.induct with
    | case1 =>
      intro us h
      cases h
      rfl
    | case2 =>
      intro us h
      cases h
    | case3 a b bs ih =>
      intro us h
      obtain ⟨vs, hvs, rfl⟩ := Option.map_eq_some_iff.mp h
      have := ih vs hvs
      simp only [List.length_cons]
      omega
  have hchars : ∀ (us : List ℕ) (cs : List Char), chars? us = some cs →
      cs.length ≤ us.length := by
    intro us
    induction us using chars?.induct with
    | case1 =>
      intro cs h
      cases h
      exact Nat.le_refl _
    | case2 u halone =>
      intro cs h
      rw [chars?, if_pos halone] at h
      cases h
      exact Nat.le_refl _
    | case3 u halone =>
      intro cs h
      rw [chars?, if_neg halone] at h
      cases h
    | case4 u v us halone ih =>
      intro cs h
      rw [chars?, if_pos halone] at h
      obtain ⟨ds, hds, rfl⟩ := Option.map_eq_some_iff.mp h
      have := ih ds hds
      simp only [List.length_cons] at this ⊢
      omega
    | case5 u v us halone hpair ih =>
      intro cs h
      rw [chars?, if_neg halone, if_pos hpair] at h
      obtain ⟨ds, hds, rfl⟩ := Option.map_eq_some_iff.mp h
      have := ih ds hds
      simp only [List.length_cons]
      omega
    | case6 u v us halone hpair =>
      intro cs h
      rw [chars?, if_neg halone, if_neg hpair] at h
      cases h
  obtain ⟨us, hus, hcs⟩ := Option.bind_eq_some_iff.mp h
  have h1 := hunits bs us hus
  have h2 := hchars us cs hcs
  omega

/-! ## Latin-1 -/

def latin1 (bs : List UInt8) : List Char := bs.map fun b => Char.ofNat b.toNat

def latin1? (cs : List Char) : Option (List UInt8) :=
  cs.mapM fun c => if c.toNat < 256 then some (UInt8.ofNat c.toNat) else none

theorem latin1_of_some {cs : List Char} {bs : List UInt8} (h : latin1? cs = some bs) :
    latin1 bs = cs := by
  induction cs generalizing bs with
  | nil =>
    cases h
    rfl
  | cons c cs ih =>
    rw [latin1?, List.mapM_cons] at h
    obtain ⟨b, hb, h⟩ := Option.bind_eq_some_iff.mp h
    obtain ⟨bs', hbs, h⟩ := Option.bind_eq_some_iff.mp h
    cases h
    split at hb
    · rename_i hlt
      cases hb
      have hto : (UInt8.ofNat c.toNat).toNat = c.toNat := by
        simp only [UInt8.toNat_ofNat']
        omega
      rw [latin1, List.map_cons, hto, Char.ofNat_toNat]
      exact congrArg (c :: ·) (ih hbs)
    · cases hb

theorem latin1_length (bs : List UInt8) : (latin1 bs).length = bs.length :=
  List.length_map _

end Reasoning.Unicode
