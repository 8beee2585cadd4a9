import ErlangWasm.Canon.Scalars

/-!
# Storing strings

A string or a list is a pointer and a length to a block of its own.  The alignment that is asked of
realloc for a string is 1 in every encoding, where UTF-16 is read at even pointers only.
-/

namespace ErlangWasm.Canon

open Reasoning.Bytes
open Reasoning.Unicode

variable {enc : Encoding} {g : Guest} {used : ℕ → Prop} {ps : List Placing}

/-! ## Blocks -/

theorem writePtrLen_spec {ptr p len : ℕ} (hp : p < 2 ^ 32)
    (hin : ptr + 8 ≤ g.mem.pages * pageSize) :
    ∃ g', writePtrLen g ptr p len = .ok g' ∧ Effect (Within · ptr 8) [] g g' ∧
      Reads (Within · ptr 8) [] g.grants g'.mem (readPtrLen · ptr) (p, len % 2 ^ 32) := by
  have hlen : (le 4 p ++ le 4 len).length = 8 := by rw [List.length_append, length_le, length_le]
  have hfirst : ofLe ((le 4 p ++ le 4 len).take 4) = p := by
    rw [List.take_left' (length_le 4 p), ofLe_le]
    exact Nat.mod_eq_of_lt (by omega)
  have hsecond : ofLe ((le 4 p ++ le 4 len).drop 4) = len % 2 ^ 32 := by
    rw [List.drop_left' (length_le 4 p), ofLe_le]
    rfl
  rw [← hlen] at hin ⊢
  obtain ⟨g', hwrite, heffect, hread⟩ := writeMemory_spec hin
  refine ⟨g', hwrite, heffect, reads_nil fun m hpages hsame => ?_⟩
  have hbytes := hread.always m hpages hsame
  rw [hlen] at hbytes
  show (readMemory m ptr (8 : ℕ) >>= fun bin =>
    pure (ofLe (bin.take 4), ofLe (bin.drop 4))) = _
  rw [hbytes]
  show Except.ok (ofLe (List.take 4 _), ofLe (List.drop 4 _)) = _
  rw [hfirst, hsecond]

/-- A call that fills blocks, and answers the pointer and the length to read them with. -/
def Places {α : Type} (ps : List Placing) (place : Guest → Outcome ((ℕ × ℕ) × Guest))
    (read : Memory → ℕ → ℕ → Outcome α) (x : α) : Prop :=
  ∀ (used : ℕ → Prop) (g : Guest), Fair used g.mem.pages ps g.grants →
    ∃ p len g', place g = .ok ((p, len), g') ∧ p < 2 ^ 32 ∧ (Good ps g.grants → len < 2 ^ 32) ∧
      Effect (fun _ => False) ps g g' ∧
      Reads (fun _ => False) ps g.grants g'.mem (fun m => read m p (len % 2 ^ 32)) x

/-- A value that is a pointer and a length to blocks of its own. -/
theorem storesAs_of_places {d : Desc} {v : Value} {place : Guest → Outcome ((ℕ × ℕ) × Guest)}
    {read : Memory → ℕ → ℕ → Outcome Value} (hsize : size d = 8)
    (hplace : Places (placings enc d v) place read (inOrder d v))
    (hstore : ∀ ptr g, store enc d ptr v g = place g >>= fun r => writePtrLen r.2 ptr r.1.1 r.1.2)
    (hload : ∀ m ptr, load enc m d ptr = readPtrLen m ptr >>= fun r => read m r.1 r.2) :
    StoresAs enc d v := by
  intro ptr used g hin hfair hused
  rw [hsize] at hin hused ⊢
  obtain ⟨p, len, g₁, hplaced, hp, -, heffect, hread⟩ := hplace used g hfair
  have hin₁ := le_trans hin (Nat.mul_le_mul_right pageSize heffect.le_pages)
  obtain ⟨g₂, hwrite, heffect', hread'⟩ := @writePtrLen_spec g₁ ptr p len hp hin₁
  have hboth := heffect.trans heffect'
  rw [List.append_nil] at hboth
  refine ⟨g₂, ?_, hboth.mono fun a ha => ?_, fun m hpages hsame => ?_⟩
  · rw [hstore, hplaced]
    show Except.bind (.ok ((p, len), g₁)) _ = _
    rw [Except.bind]
    exact hwrite
  · rcases ha with ha | ha
    · cases ha
    · exact .inl ha
  · have hpair := hread'.always m hpages fun a ha => hsame a (.inl ha)
    have hafter : Fair (fun a => used a ∨ Foot (placings enc d v) g.grants a) g₁.mem.pages []
        g₁.grants := trivial
    have hstays := hread.later heffect' hafter fun a ha => by
      rcases ha with ha | ha
      · cases ha
      · exact ⟨.inr ha, fun hr => hfair.not_foot (hused a hr) ha⟩
    show load enc m d ptr = _ ↔ _
    rw [hload, hpair]
    apply hstays m hpages
    rintro a (ha | ha)
    · cases ha
    · exact hsame a (.inr ha)

/-! ## Strings -/

/-- A block is filled with the bytes that it was asked for. -/
theorem placeBytes_spec {bin : Bytes} {units bound : ℕ} {utf16 : Bool} {placing : Placing}
    (hplacing : placing = ⟨1, bin.length, units, bound, utf16⟩)
    (hfair : Fair used g.mem.pages [placing] g.grants) :
    ∃ p g', placeBytes bin g = .ok ((p, bin.length), g') ∧ p < 2 ^ 32 ∧
      (Good [placing] g.grants ↔ units < bound ∧ (utf16 → p % 2 = 0)) ∧ bin.length ≤ 2 ^ 32 ∧
      Effect (fun _ => False) [placing] g g' ∧
      ∀ m : Memory, g'.mem.pages ≤ m.pages →
        (∀ a, Foot [placing] g.grants a → m.byte a = g'.mem.byte a) →
        readMemory m p bin.length = .ok bin ∧ p + bin.length ≤ m.pages * pageSize := by
  obtain ⟨p, g₁, hrealloc, heffect, ⟨gr, rest, hgrants, hgr⟩, -, hp, hpages, hin, hfoot, -⟩ :=
    realloc_spec 1 bin.length hfair
  rw [hplacing] at hin
  dsimp only at hin
  obtain ⟨g₂, hwrite, heffect', hread⟩ := writeMemory_spec hin
  have hboth := heffect.trans heffect'
  have hsize : placing.size = bin.length := by rw [hplacing]
  rw [hsize] at hfoot
  refine ⟨p, g₂, ?_, hp, ?_, ?_, hboth.mono fun a ha => ?_, fun m hm hsame => ⟨?_, ?_⟩⟩
  · show (realloc 1 bin.length g >>= fun r => writeMemory r.2 r.1 bin >>= fun g =>
      pure ((r.1, bin.length), g)) = _
    rw [hrealloc]
    show (writeMemory g₁ p bin >>= fun g => pure ((p, bin.length), g)) = _
    rw [hwrite]
    rfl
  · rw [hgrants, hplacing, hgr, Good]
    exact ⟨fun h => ⟨h.1, h.2.1⟩, fun h => ⟨h.1, h.2, by cases rest <;> trivial⟩⟩
  · have hle : g₁.mem.pages * pageSize ≤ 65536 * pageSize := Nat.mul_le_mul_right _ hpages
    unfold pageSize at hle hin
    omega
  · rcases ha with ha | ha
    · cases ha
    · exact .inr ((hfoot a).mp ha)
  · exact hread.always m hm fun a ha => hsame a ((hfoot a).mp ha)
  · have hle := le_trans heffect'.le_pages hm
    exact le_trans hin (Nat.mul_le_mul_right _ hle)

/-- What is read in bounds is as long as was asked. -/
theorem readMemory_le {m : Memory} {p n len : ℕ} (hn : n ≤ len)
    (h : p + len ≤ m.pages * pageSize) : ∃ bs, readMemory m p n = .ok bs ∧ bs.length = n :=
  ⟨_, readMemory_nat (by omega), length_slice _ _ _⟩

theorem validUtf8_eq_ok {bs bin : Bytes} : validUtf8 bs = .ok bin ↔ bs = bin ∧ (utf8? bin).isSome := by
  unfold validUtf8
  cases hbs : utf8? bs with
  | none =>
    constructor
    · intro h
      cases h
    · rintro ⟨rfl, h⟩
      rw [hbs] at h
      cases h
  | some cs =>
    constructor
    · intro h
      cases h
      exact ⟨rfl, by rw [hbs]; rfl⟩
    · rintro ⟨rfl, -⟩
      rfl

theorem fromUtf16le_length {bs bin : Bytes} {cs : List Char} (hcs : utf8? bin = some cs)
    (h : fromUtf16le bs = .ok bin) : 2 * cs.length ≤ bs.length := by
  unfold fromUtf16le at h
  cases hbs : utf16le? bs with
  | none =>
    rw [hbs] at h
    cases h
  | some ds =>
    rw [hbs] at h
    cases h
    rw [utf8?_utf8] at hcs
    cases hcs
    exact utf16le?_length hbs

theorem checkAligned_two {p : ℕ} : checkAligned p 2 = .ok () ↔ p % 2 = 0 := by
  unfold checkAligned
  constructor
  · intro h
    split at h
    · omega
    · cases h
  · intro h
    rw [if_pos (by omega)]

/-- The bytes of UTF-16 that are there are read at even pointers only. -/
theorem read_utf16 {m : Memory} {p units : ℕ} {bin : Bytes} {cs : List Char}
    (hcs : utf8? bin = some cs) (hunits : units = (utf16le cs).length / 2)
    (hread : readMemory m p (utf16le cs).length = .ok (utf16le cs)) :
    (checkAligned p 2 >>= fun _ => readMemory m p ((units * 2 : ℕ) : ℤ) >>= fromUtf16le) = .ok bin ↔
      p % 2 = 0 := by
  have heven := utf16le_even cs
  have hall : units * 2 = (utf16le cs).length := by omega
  have hback : fromUtf16le (utf16le cs) = .ok bin := by
    rw [fromUtf16le, utf16le?_utf16le]
    show Except.ok (utf8 cs) = _
    rw [utf8_of_some hcs]
  rw [hall, hread]
  constructor
  · intro h
    obtain ⟨_, haligned, -⟩ := bind_eq_ok.mp h
    exact checkAligned_two.mp haligned
  · intro h
    rw [checkAligned_two.mpr h]
    exact hback

theorem readString_low {m : Memory} {p n : ℕ} (h : n < utf16Mark) :
    readString .latin1Utf16 m p n = readMemory m p n >>= fun bs => .ok (fromLatin1 bs) := by
  have hmark : utf16Mark = 2 ^ 31 := rfl
  have hint : (utf16Mark : ℤ) = 2 ^ 31 := rfl
  have hbit : (n : ℤ) / utf16Mark % 2 = 0 := by
    rw [hint]
    omega
  show (if (n : ℤ) / utf16Mark % 2 = 0 then _ else _) = _
  rw [if_pos hbit]
  rfl

theorem readString_high {m : Memory} {p n : ℕ} (h : utf16Mark ≤ n) (hn : n < 2 ^ 32) :
    readString .latin1Utf16 m p n = checkAligned p 2 >>= fun _ =>
      readMemory m p (((n - utf16Mark) * 2 : ℕ) : ℤ) >>= fromUtf16le := by
  have hmark : utf16Mark = 2 ^ 31 := rfl
  have hint : (utf16Mark : ℤ) = 2 ^ 31 := rfl
  have hbit : ¬ (n : ℤ) / utf16Mark % 2 = 0 := by
    rw [hint]
    omega
  have hrest : (n : ℤ) % utf16Mark * 2 = (((n - utf16Mark) * 2 : ℕ) : ℤ) := by
    rw [hint]
    omega
  show (if (n : ℤ) / utf16Mark % 2 = 0 then _ else _) = _
  rw [if_neg hbit, hrest]

/-- Bytes read as UTF-16 hold no more characters than units. -/
theorem length_of_read_utf16 {m : Memory} {p n : ℕ} {bin : Bytes} {cs : List Char}
    (hcs : utf8? bin = some cs) (hin : p + n * 2 ≤ m.pages * pageSize)
    (h : (checkAligned p 2 >>= fun _ => readMemory m p ((n * 2 : ℕ) : ℤ) >>= fromUtf16le) =
      .ok bin) : cs.length ≤ n := by
  obtain ⟨_, -, h⟩ := bind_eq_ok.mp h
  obtain ⟨bs, hbs, h⟩ := bind_eq_ok.mp h
  rw [readMemory_nat hin] at hbs
  cases hbs
  have hle := fromUtf16le_length hcs h
  rw [length_slice] at hle
  omega

theorem places_utf8 {bin : Bytes} (h : (utf8? bin).isSome) :
    Places [stringPlacing .utf8 bin] (placeString .utf8 bin)
      (fun m p len => readString .utf8 m p len) bin := by
  intro used g hfair
  have hplacing : stringPlacing .utf8 bin = ⟨1, bin.length, bin.length, 2 ^ 32, false⟩ := rfl
  obtain ⟨p, g', hplace, hp, hgood, -, heffect, hread⟩ := placeBytes_spec hplacing hfair
  refine ⟨p, _, g', hplace, hp, fun hg => (hgood.mp hg).1, heffect, fun m hm hsame => ?_⟩
  obtain ⟨hbytes, hin⟩ := hread m hm fun a ha => hsame a (.inr ha)
  show (readMemory m p ((bin.length % 2 ^ 32 : ℕ) : ℤ) >>= validUtf8) = _ ↔ _
  rw [hgood]
  constructor
  · intro hok
    obtain ⟨bs, hbs, hvalid⟩ := bind_eq_ok.mp hok
    obtain ⟨bs', hbs', hlen⟩ := readMemory_le (Nat.mod_le bin.length (2 ^ 32)) hin
    rw [hbs'] at hbs
    cases hbs
    rw [(validUtf8_eq_ok.mp hvalid).1] at hlen
    refine ⟨?_, nofun⟩
    rw [hlen]
    exact Nat.mod_lt _ (by decide)
  · rintro ⟨hlt, -⟩
    rw [Nat.mod_eq_of_lt hlt, hbytes]
    exact validUtf8_eq_ok.mpr ⟨rfl, h⟩

theorem toUtf16le_of {bin : Bytes} {cs : List Char} (hcs : utf8? bin = some cs) :
    toUtf16le bin = .ok (utf16le cs) := by
  rw [toUtf16le, hcs]

theorem utf16Of_of {bin : Bytes} {cs : List Char} (hcs : utf8? bin = some cs) :
    utf16Of bin = utf16le cs := by
  rw [utf16Of, hcs]

theorem places_utf16 {bin : Bytes} (h : (utf8? bin).isSome) :
    Places [stringPlacing .utf16 bin] (placeString .utf16 bin)
      (fun m p len => readString .utf16 m p len) bin := by
  obtain ⟨cs, hcs⟩ := Option.isSome_iff_exists.mp h
  intro used g hfair
  have hplacing : stringPlacing .utf16 bin =
      ⟨1, (utf16le cs).length, (utf16le cs).length / 2, 2 ^ 32, true⟩ := by
    rw [stringPlacing, utf16Of_of hcs]
  obtain ⟨p, g', hplace, hp, hgood, hlen, heffect, hread⟩ := placeBytes_spec hplacing hfair
  have hlt : (utf16le cs).length / 2 < 2 ^ 32 := by omega
  refine ⟨p, _, g', ?_, hp, fun _ => hlt, heffect, fun m hm hsame => ?_⟩
  · show (toUtf16le bin >>= fun bs => placeBytes bs g >>= fun r =>
      pure ((r.1.1, r.1.2 / 2), r.2)) = _
    rw [toUtf16le_of hcs]
    show (placeBytes (utf16le cs) g >>= fun r => pure ((r.1.1, r.1.2 / 2), r.2)) = _
    rw [hplace]
    rfl
  · obtain ⟨hbytes, -⟩ := hread m hm fun a ha => hsame a (.inr ha)
    rw [hgood, Nat.mod_eq_of_lt hlt]
    have hutf16 := read_utf16 hcs rfl hbytes
    rw [Nat.cast_mul] at hutf16
    exact hutf16.trans ⟨fun hp => ⟨hlt, fun _ => hp⟩, fun hp => hp.2 rfl⟩

theorem places_latin1Utf16 {bin : Bytes} (h : (utf8? bin).isSome) :
    Places [stringPlacing .latin1Utf16 bin] (placeString .latin1Utf16 bin)
      (fun m p len => readString .latin1Utf16 m p len) bin := by
  obtain ⟨cs, hcs⟩ := Option.isSome_iff_exists.mp h
  have hmark : utf16Mark = 2 ^ 31 := rfl
  intro used g hfair
  cases hlatin : toLatin1 bin with
  | some l =>
    have hplacing : stringPlacing .latin1Utf16 bin = ⟨1, l.length, l.length, utf16Mark, false⟩ := by
      rw [stringPlacing, hlatin]
    obtain ⟨p, g', hplace, hp, hgood, hlen, heffect, hread⟩ := placeBytes_spec hplacing hfair
    have hl : latin1 l = cs := by
      rw [toLatin1, hcs] at hlatin
      exact latin1_of_some hlatin
    have hcount : cs.length = l.length := by rw [← hl, latin1_length]
    refine ⟨p, l.length, g', ?_, hp, fun hg => ?_, heffect, fun m hm hsame => ?_⟩
    · rw [placeString, hlatin]
      exact hplace
    · have := (hgood.mp hg).1
      omega
    · obtain ⟨hbytes, hin⟩ := hread m hm fun a ha => hsame a (.inr ha)
      dsimp only
      rw [hgood]
      constructor
      · intro hok
        refine ⟨?_, fun h => by cases h⟩
        by_contra hge
        have hmod := Nat.mod_lt l.length (show 0 < 2 ^ 32 by decide)
        by_cases hlow : l.length % 2 ^ 32 < utf16Mark
        · -- a length that wrapped is read as Latin-1, too short
          rw [readString_low hlow] at hok
          obtain ⟨bs, hbs, heq⟩ := bind_eq_ok.mp hok
          obtain ⟨bs', hbs', hshort⟩ := readMemory_le (Nat.mod_le l.length (2 ^ 32)) hin
          rw [hbs'] at hbs
          cases hbs
          have hchars : utf8 (latin1 bs) = bin := Except.ok.inj heq
          rw [← utf8_of_some hcs] at hchars
          have hlens := congrArg List.length (utf8_injective hchars)
          rw [latin1_length] at hlens
          omega
        · -- one with the mark is read as UTF-16, too short as well
          rw [readString_high (by omega) hmod] at hok
          have hle := length_of_read_utf16 hcs (by omega) hok
          omega
      · rintro ⟨hlt, -⟩
        have hsmall : l.length % 2 ^ 32 = l.length := Nat.mod_eq_of_lt (by omega)
        rw [hsmall, readString_low hlt, hbytes]
        show Except.ok (utf8 (latin1 l)) = _
        rw [hl, utf8_of_some hcs]
  | none =>
    have hplacing : stringPlacing .latin1Utf16 bin =
        ⟨1, (utf16le cs).length, (utf16le cs).length / 2, utf16Mark, true⟩ := by
      rw [stringPlacing, hlatin, utf16Of_of hcs]
    obtain ⟨p, g', hplace, hp, hgood, hlen, heffect, hread⟩ := placeBytes_spec hplacing hfair
    have hor (hlt : (utf16le cs).length / 2 < 2 ^ 31) :
        (utf16le cs).length / 2 ||| utf16Mark = (utf16le cs).length / 2 + utf16Mark := by
      have hsum := Nat.two_pow_add_eq_or_of_lt hlt 1
      rw [Nat.mul_one] at hsum
      rw [hmark, Nat.or_comm, ← hsum, Nat.add_comm]
    refine ⟨p, (utf16le cs).length / 2 ||| utf16Mark, g', ?_, hp, fun hg => ?_, heffect, fun m hm hsame => ?_⟩
    · rw [placeString, hlatin]
      show (toUtf16le bin >>= fun bs => placeBytes bs g >>= fun r =>
        pure ((r.1.1, r.1.2 / 2 ||| utf16Mark), r.2)) = _
      rw [toUtf16le_of hcs]
      show (placeBytes (utf16le cs) g >>= fun r =>
        pure ((r.1.1, r.1.2 / 2 ||| utf16Mark), r.2)) = _
      rw [hplace]
      rfl
    · have hlt := (hgood.mp hg).1
      rw [hor hlt]
      omega
    · obtain ⟨hbytes, hin⟩ := hread m hm fun a ha => hsame a (.inr ha)
      dsimp only
      rw [hgood]
      by_cases hlt : (utf16le cs).length / 2 < 2 ^ 31
      · have hback : (utf16le cs).length / 2 + utf16Mark - utf16Mark = (utf16le cs).length / 2 := by
          omega
        rw [hor hlt, Nat.mod_eq_of_lt (by omega), readString_high (by omega) (by omega), hback]
        exact (read_utf16 hcs rfl hbytes).trans ⟨fun hp => ⟨hlt, fun _ => hp⟩, fun hp => hp.2 rfl⟩
      · have hfull : (utf16le cs).length / 2 = 2 ^ 31 := by omega
        rw [hfull, hmark, Nat.or_self, Nat.mod_eq_of_lt (by omega)]
        constructor
        · intro hok
          rw [readString_high (by omega) (by omega)] at hok
          have hle := length_of_read_utf16 hcs (by omega) hok
          have hnil : cs = [] := List.eq_nil_of_length_eq_zero (by omega)
          rw [hnil] at hfull
          cases hfull
        · intro hg
          omega

theorem places_string {bin : Bytes} (h : (utf8? bin).isSome) :
    Places [stringPlacing enc bin] (placeString enc bin)
      (fun m p len => readString enc m p len) bin := by
  cases enc with
  | utf8 => exact places_utf8 h
  | utf16 => exact places_utf16 h
  | latin1Utf16 => exact places_latin1Utf16 h

theorem places_stringValue {bin : Bytes} (h : (utf8? bin).isSome) :
    Places (placings enc .string (.binary bin)) (placeString enc bin)
      (fun m p len => do return .binary (← readString enc m p len))
      (inOrder .string (.binary bin)) := by
  intro used g hfair
  obtain ⟨p, len, g', hplace, hp, hlen, heffect, hread⟩ := places_string h used g hfair
  exact ⟨p, len, g', hplace, hp, hlen, heffect, hread.map fun _ _ => Value.binary.inj⟩

theorem storesAs_string {bin : Bytes} (h : (utf8? bin).isSome) :
    StoresAs enc .string (.binary bin) :=
  storesAs_of_places rfl (places_stringValue h) (fun _ _ => rfl) fun _ _ => rfl

end ErlangWasm.Canon
