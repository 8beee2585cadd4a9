import ErlangWasm.Canon.Effects
import Mathlib.Data.List.Nodup

/-!
# Storing scalars

`Stores` is what a call that writes a value owes to the one that reads it.  The values that are one
write, numbers and names, meet it.
-/

namespace ErlangWasm.Canon

open Reasoning.Bytes
open Reasoning.Unicode
open ErlangWasm.Num (f32FromBits f32ToBits f64FromBits f64ToBits IsF32 IsF64)

variable {enc : Encoding}

/-! ## Calls that store -/

/-- Where the memory reaches `lim` and the grants of `ps` are fair, `write` succeeds, changes the
region and the blocks granted, and then `read` answers `x` exactly when the grants are good. -/
def Stores {α : Type} (lim : ℕ) (region : ℕ → Prop) (ps : List Placing)
    (write : Guest → Outcome Guest) (read : Memory → Outcome α) (x : α) : Prop :=
  ∀ (used : ℕ → Prop) (g : Guest), lim ≤ g.mem.pages * pageSize →
    Fair used g.mem.pages ps g.grants → (∀ a, region a → used a) →
    ∃ g', write g = .ok g' ∧ Effect region ps g g' ∧ Reads region ps g.grants g'.mem read x

/-- A value of `d` is stored at every pointer, and read back with its flags in order. -/
def StoresAs (enc : Encoding) (d : Desc) (v : Value) : Prop :=
  ∀ ptr, Stores (ptr + size d) (Within · ptr (size d)) (placings enc d v) (store enc d ptr v)
    (fun m => load enc m d ptr) (inOrder d v)

section

variable {α β γ : Type} {lim lim' : ℕ} {region region' : ℕ → Prop} {ps qs : List Placing}
  {write write' : Guest → Outcome Guest} {read : Memory → Outcome α} {read' : Memory → Outcome β}
  {x : α} {y : β}

theorem reads_nil {gs : List Grant} {mem : Memory}
    (h : ∀ m : Memory, mem.pages ≤ m.pages → (∀ a, region a → m.byte a = mem.byte a) →
      read m = .ok x) : Reads region [] gs mem read x := by
  intro m hpages hsame
  constructor
  · exact fun _ => by cases gs <;> trivial
  · exact fun _ => h m hpages fun a ha => hsame a (.inl ha)

theorem Reads.always {gs : List Grant} {mem : Memory} (h : Reads region [] gs mem read x) (m : Memory)
    (hpages : mem.pages ≤ m.pages) (hsame : ∀ a, region a → m.byte a = mem.byte a) :
    read m = .ok x := by
  apply (h m hpages _).mpr
  · cases gs <;> trivial
  · rintro a (ha | ha)
    · exact hsame a ha
    · cases gs <;> cases ha

theorem Stores.mono (h : Stores lim region ps write read x) (hlim : lim ≤ lim')
    (hsub : ∀ a, region a → region' a) : Stores lim' region' ps write read x := by
  intro used g hin hfair hused
  obtain ⟨g', hwrite, heffect, hread⟩ :=
    h used g (le_trans hlim hin) hfair fun a ha => hused a (hsub a ha)
  refine ⟨g', hwrite, heffect.mono fun a ha => .inl (hsub a ha), hread.mono fun a ha => ?_⟩
  exact .inl (hsub a ha)

theorem Stores.congr {write₂ : Guest → Outcome Guest} {read₂ : Memory → Outcome α}
    (h : Stores lim region ps write read x) (hwrite : ∀ g, write₂ g = write g)
    (hread : ∀ m, read₂ m = read m) : Stores lim region ps write₂ read₂ x := by
  rw [show write₂ = write from funext hwrite, show read₂ = read from funext hread]
  exact h

theorem Stores.mapOn {f : α → γ} (hf : ∀ m a, read m = .ok a → f a = f x → a = x)
    (h : Stores lim region ps write read x) :
    Stores lim region ps write (fun m => do return f (← read m)) (f x) := by
  intro used g hin hfair hused
  obtain ⟨g', hwrite, heffect, hread⟩ := h used g hin hfair hused
  exact ⟨g', hwrite, heffect, hread.mapOn hf⟩

theorem Stores.map {f : α → γ} (hf : Function.Injective f) (h : Stores lim region ps write read x) :
    Stores lim region ps write (fun m => do return f (← read m)) (f x) :=
  h.mapOn fun _ _ _ heq => hf heq

theorem Stores.nil : Stores lim region [] pure (fun _ => pure x) x := by
  intro used g _ _ _
  refine ⟨g, rfl, Effect.refl.mono nofun, ?_⟩
  intro m _ _
  cases g.grants <;> exact ⟨fun _ => trivial, fun _ => rfl⟩

/-- The state that the second of two calls finds. -/
theorem Fair.second {used : ℕ → Prop} {g g₁ : Guest}
    (hfair : Fair used g.mem.pages (ps ++ qs) g.grants) (h : Effect region ps g g₁) :
    Fair (fun a => used a ∨ Foot ps g.grants a) g₁.mem.pages qs g₁.grants := by
  rw [h.pages, h.grants]
  exact hfair.right

/-- What the first call wrote is apart from what the second one writes. -/
theorem first_stays {used : ℕ → Prop} {g : Guest} {pages : ℕ}
    (hfair : Fair used pages ps g.grants) (hused : ∀ a, region a ∨ region' a → used a)
    (hdisj : ∀ a, region a → ¬ region' a) (a : ℕ) (ha : region a ∨ Foot ps g.grants a) :
    (used a ∨ Foot ps g.grants a) ∧ ¬ region' a := by
  rcases ha with ha | ha
  · exact ⟨.inl (hused a (.inl ha)), hdisj a ha⟩
  · exact ⟨.inr ha, fun hr => hfair.not_foot (hused a (.inr hr)) ha⟩

/-- One call after another. -/
theorem Stores.seq {f : α → β → γ} (hf : ∀ x y x' y', f x y = f x' y' → x = x' ∧ y = y')
    (h : Stores lim region ps write read x) (h' : Stores lim region' qs write' read' y)
    (hdisj : ∀ a, region a → ¬ region' a) :
    Stores lim (fun a => region a ∨ region' a) (ps ++ qs) (fun g => write g >>= write')
      (fun m => do return f (← read m) (← read' m)) (f x y) := by
  intro used g hin hfair hused
  obtain ⟨g₁, hwrite, heffect, hread⟩ := h used g hin hfair.left fun a ha => hused a (.inl ha)
  have hsecond := hfair.second heffect
  have hin₁ : lim ≤ g₁.mem.pages * pageSize :=
    le_trans hin (Nat.mul_le_mul_right _ heffect.le_pages)
  obtain ⟨g₂, hwrite', heffect', hread'⟩ :=
    h' _ g₁ hin₁ hsecond fun a ha => .inl (hused a (.inr ha))
  refine ⟨g₂, ?_, heffect.trans heffect', Reads.both hf ?_ ?_⟩
  · show (write g >>= write') = _
    rw [hwrite]
    exact hwrite'
  · exact hread.later heffect' hsecond (first_stays hfair.left hused hdisj)
  · rw [← heffect.grants]
    exact hread'

/-- One call after another, the second read by what the first is read as. -/
theorem Stores.dep {next : α → Memory → Outcome β} (h : Stores lim region [] write read x)
    (h' : Stores lim region' qs write' (next x) y) (hdisj : ∀ a, region a → ¬ region' a) :
    Stores lim (fun a => region a ∨ region' a) qs (fun g => write g >>= write')
      (fun m => read m >>= fun x => next x m) y := by
  intro used g hin hfair hused
  obtain ⟨g₁, hwrite, heffect, hread⟩ := h used g hin trivial fun a ha => hused a (.inl ha)
  have hfirst : Fair used g.mem.pages ([] ++ qs) g.grants := hfair
  have hsecond := hfirst.second heffect
  have hin₁ : lim ≤ g₁.mem.pages * pageSize :=
    le_trans hin (Nat.mul_le_mul_right _ heffect.le_pages)
  obtain ⟨g₂, hwrite', heffect', hread'⟩ :=
    h' _ g₁ hin₁ hsecond fun a ha => .inl (hused a (.inr ha))
  have hgrants : g₁.grants = g.grants := heffect.grants
  have hlater := hread.later heffect' hsecond (first_stays hfirst.left hused hdisj)
  refine ⟨g₂, ?_, heffect.trans heffect', fun m hpages hsame => ?_⟩
  · show (write g >>= write') = _
    rw [hwrite]
    exact hwrite'
  · have hx : read m = .ok x := hlater.always m hpages fun a ha => hsame a (.inl (.inl ha))
    have hy := hread' m hpages fun a ha => hsame a (by
      rw [hgrants] at ha
      exact ha.imp_left .inr)
    rw [hgrants] at hy
    show (read m >>= fun x => next x m) = _ ↔ _
    rw [hx]
    exact hy

end

/-! ## Numbers -/

/-- A value that is stored by one write. -/
theorem storesAs_of_write {d : Desc} {v : Value} {bs : Bytes} (hps : placings enc d v = [])
    (hlen : bs.length = size d) (hstore : ∀ ptr g, store enc d ptr v g = writeMemory g ptr bs)
    (hload : ∀ (m : Memory) (ptr : ℕ), readMemory m ptr bs.length = .ok bs →
      load enc m d ptr = .ok (inOrder d v)) : StoresAs enc d v := by
  intro ptr used g hin hfair hused
  rw [← hlen] at hin
  obtain ⟨g', hwrite, heffect, hread⟩ := writeMemory_spec hin
  rw [hps, hstore, ← hlen]
  refine ⟨g', hwrite, heffect, reads_nil fun m hpages hsame => ?_⟩
  exact hload m ptr (hread.always m hpages hsame)

theorem readInt_of {m : Memory} {ptr n v : ℕ} {signed : Bool} (hv : v < 256 ^ n)
    (h : readMemory m ptr n = .ok (le n v)) :
    readInt m ptr n signed = .ok (if signed then fromSigned v (n * 8) else v) := by
  have hback : ofLe (le n v) = v := by rw [ofLe_le, Nat.mod_eq_of_lt hv]
  rw [readInt, h]
  show Except.ok _ = _
  rw [hback]

/-- A signed integer from its two's complement. -/
theorem fromSigned_emod {i : ℤ} {k : ℕ} (hlo : -2 ^ k ≤ i) (hhi : i < 2 ^ k) :
    fromSigned (i % 2 ^ (k + 1)).toNat (k + 1) = i := by
  have hpow : (2 : ℤ) ^ (k + 1) = 2 * 2 ^ k := pow_succ' 2 k
  have hpos : (0 : ℤ) < 2 ^ k := Int.pow_pos (by decide)
  have hk : ((2 ^ k : ℕ) : ℤ) = 2 ^ k := by push_cast; rfl
  have hposN : 0 < 2 ^ k := Nat.two_pow_pos k
  rw [fromSigned, Nat.add_sub_cancel]
  by_cases hneg : i < 0
  · have hmod : i % 2 ^ (k + 1) = i + 2 ^ (k + 1) := by
      rw [Int.emod_eq_add_self_emod, Int.emod_eq_of_lt (by omega) (by omega)]
    have hdiv : (i % 2 ^ (k + 1)).toNat / 2 ^ k = 1 := by
      apply Nat.div_eq_of_lt_le
      · omega
      · omega
    rw [hdiv, if_pos rfl, hmod]
    omega
  · have hmod : i % 2 ^ (k + 1) = i := Int.emod_eq_of_lt (by omega) (by omega)
    have hdiv : (i % 2 ^ (k + 1)).toNat / 2 ^ k = 0 := by
      apply Nat.div_eq_of_lt
      omega
    rw [hdiv, if_neg (by decide), hmod]
    omega

theorem storesAs_int {t : IntType} {i : ℤ} (h : t.Holds i) : StoresAs enc (.int t) (.int i) := by
  have hmod := Int.emod_nonneg i (pow_ne_zero (8 * t.bytes) (show (2 : ℤ) ≠ 0 by decide))
  have hlt := Int.emod_lt_of_pos i (Int.pow_pos (show (0 : ℤ) < 2 by decide) : (0 : ℤ) < 2 ^ (8 * t.bytes))
  have hval : (i % 2 ^ (8 * t.bytes)).toNat < 256 ^ t.bytes := by
    have hpow : (256 : ℕ) ^ t.bytes = 2 ^ (8 * t.bytes) := by rw [pow_mul]; rfl
    rw [hpow]
    have hcast : ((2 ^ (8 * t.bytes) : ℕ) : ℤ) = 2 ^ (8 * t.bytes) := by push_cast; rfl
    omega
  refine storesAs_of_write rfl (length_le _ _) (fun _ _ => rfl) fun m ptr hread => ?_
  rw [length_le] at hread
  have hback : (if t.signed then fromSigned (i % 2 ^ (8 * t.bytes)).toNat (t.bytes * 8)
      else ((i % 2 ^ (8 * t.bytes)).toNat : ℤ)) = i := by
    unfold IntType.Holds at h
    split
    · rename_i hs
      rw [if_pos hs] at h
      obtain ⟨k, hk⟩ : ∃ k, 8 * t.bytes = k + 1 := by cases t <;> exact ⟨_, rfl⟩
      rw [hk, Nat.add_sub_cancel] at h
      rw [Nat.mul_comm t.bytes 8, hk]
      exact fromSigned_emod h.1 h.2
    · rename_i hs
      rw [if_neg hs] at h
      rw [Int.emod_eq_of_lt h.1 h.2]
      omega
  show (readInt m ptr t.bytes t.signed >>= fun j => pure (Value.int j)) = _
  rw [readInt_of hval hread, hback]
  rfl

theorem storesAs_f32 {f : Num.RuntimeFloat} (h : IsF32 f) : StoresAs enc .f32 (.float f) := by
  obtain ⟨bits, hlt, hto, hfrom⟩ := h.toBits
  refine storesAs_of_write rfl (length_le 4 bits) (fun ptr g => ?_) fun m ptr hread => ?_
  · rw [store, hto]
  · rw [length_le] at hread
    have hback : ofLe (le 4 bits) = bits := by
      rw [ofLe_le]
      exact Nat.mod_eq_of_lt (by omega)
    show (readMemory m ptr (4 : ℕ) >>= fun bin => pure (Value.float (f32FromBits (ofLe bin)))) = _
    rw [hread]
    show Except.ok (Value.float (f32FromBits (ofLe (le 4 bits)))) = _
    rw [hback, hfrom]
    rfl

theorem storesAs_f64 {f : Num.RuntimeFloat} (h : IsF64 f) : StoresAs enc .f64 (.float f) := by
  obtain ⟨hlt, hfrom⟩ := h.toBits
  refine storesAs_of_write rfl (length_le 8 _) (fun _ _ => rfl) fun m ptr hread => ?_
  rw [length_le] at hread
  have hback : ofLe (le 8 (f64ToBits f)) = f64ToBits f := by
    rw [ofLe_le]
    exact Nat.mod_eq_of_lt (by omega)
  show (readMemory m ptr (8 : ℕ) >>= fun bin => pure (Value.float (f64FromBits (ofLe bin)))) = _
  rw [hread]
  show Except.ok (Value.float (f64FromBits (ofLe (le 8 (f64ToBits f))))) = _
  rw [hback, hfrom]
  rfl

theorem storesAs_bool (b : Bool) : StoresAs enc .bool (.bool b) := by
  refine storesAs_of_write rfl (length_le 1 _) (fun _ _ => rfl) fun m ptr hread => ?_
  rw [length_le] at hread
  show (readInt m ptr 1 false >>= fun i => pure (Value.bool (i ≠ 0))) = _
  rw [readInt_of (by cases b <;> decide) hread]
  cases b <;> rfl

/-- The 32 bits of what fits them. -/
theorem emod_toNat {i : ℤ} {k : ℕ} (h0 : 0 ≤ i) (hlt : i < 2 ^ k) : (i % 2 ^ k).toNat = i.toNat := by
  rw [Int.emod_eq_of_lt h0 hlt]

theorem validChar_of {i : ℤ} (h : IsScalar i) : validChar i = .ok i := by
  unfold validChar
  rcases h with h | h
  · rw [if_pos h]
  · rw [if_neg (by omega), if_pos h]

theorem storesAs_char {i : ℤ} (h : IsScalar i) : StoresAs enc .char (.int i) := by
  have h0 : 0 ≤ i := by
    unfold IsScalar at h
    omega
  have hlt : i < 2 ^ 32 := by
    unfold IsScalar at h
    omega
  refine storesAs_of_write rfl (length_le 4 _) (fun _ _ => rfl) fun m ptr hread => ?_
  rw [length_le, emod_toNat h0 hlt] at hread
  show (readInt m ptr 4 false >>= fun j => validChar j >>= fun c => pure (Value.int c)) = _
  rw [readInt_of (by omega) hread]
  show (validChar (i.toNat : ℤ) >>= fun j => pure (Value.int j)) = _
  rw [Int.toNat_of_nonneg h0, validChar_of h]
  rfl

theorem storesAs_ref {r : Ref} {i : ℤ} (h0 : 0 ≤ i) (hlt : i < 2 ^ 32) :
    StoresAs enc (.ref r) (.int i) := by
  refine storesAs_of_write rfl (length_le 4 _) (fun _ _ => rfl) fun m ptr hread => ?_
  rw [length_le, emod_toNat h0 hlt] at hread
  show (readInt m ptr 4 false >>= fun j => pure (Value.int j)) = _
  rw [readInt_of (by omega) hread]
  show Except.ok (Value.int (i.toNat : ℤ)) = _
  rw [Int.toNat_of_nonneg h0]
  rfl

/-! ## Names -/

theorem indexOf_of_mem {t : Tag} {l : List Tag} (h : t ∈ l) : indexOf t l = .ok (l.idxOf t) :=
  if_pos h

theorem nthCase_of {α : Type} {cases : List α} {i : ℕ} {c : α} (h : cases[i]? = some c) :
    nthCase (i : ℤ) cases = .ok c := by
  rw [nthCase, if_pos (Int.natCast_nonneg i), Int.toNat_natCast, h]

/-- A discriminant of its size tells all cases apart. -/
theorem lt_discSize {i n : ℕ} (hi : i < n) (hn : n < 2 ^ 32) : i < 256 ^ discSize n := by
  unfold discSize
  split
  · omega
  · split <;> omega

theorem storesAs_enum {names : List Bytes} {n : Bytes} (h : n ∈ names)
    (hlen : names.length < 2 ^ 32) : StoresAs enc (.enum names) (.binary n) := by
  have hmem : Tag.name n ∈ names.map Tag.name := List.mem_map_of_mem h
  have hidx := List.idxOf_lt_length_of_mem hmem
  have hget := List.getElem?_idxOf hmem
  rw [List.length_map] at hidx
  rw [List.getElem?_map] at hget
  obtain ⟨n', hn', heq⟩ := Option.map_eq_some_iff.mp hget
  cases heq
  refine storesAs_of_write rfl (length_le _ ((names.map Tag.name).idxOf (.name n)))
    (fun ptr g => ?_) fun m ptr hread => ?_
  · show (indexOf (.name n) (names.map .name) >>= fun i =>
      storeInt g ptr (discSize names.length) i) = _
    rw [indexOf_of_mem hmem]
    rfl
  · rw [length_le] at hread
    show (readInt m ptr (discSize names.length) false >>= fun i => nthCase i names >>= fun n =>
      pure (Value.binary n)) = _
    rw [readInt_of (lt_discSize hidx hlen) hread]
    show (nthCase ((List.idxOf (Tag.name n) (names.map Tag.name) : ℕ) : ℤ) names >>= fun n =>
      pure (Value.binary n)) = _
    rw [nthCase_of hn']
    rfl

theorem foldl_testBit (set names l : List Bytes) (acc i : ℕ) :
    (l.foldl (fun acc n => if n ∈ set then acc ||| 1 <<< names.idxOf n else acc) acc).testBit i =
      (acc.testBit i || l.any fun n => n ∈ set && names.idxOf n = i) := by
  induction l generalizing acc with
  | nil => simp
  | cons n l ih =>
    rw [List.foldl_cons, ih, List.any_cons]
    by_cases hn : n ∈ set
    · simp [hn, Nat.one_shiftLeft, Nat.testBit_two_pow, Bool.or_assoc]
    · simp [hn]

/-- The bits of a set of flags, and the set read off them. -/
theorem flagsBits_spec {names set : List Bytes} (hnodup : set.Nodup) (hsub : ∀ n ∈ set, n ∈ names) :
    ∃ bits, flagsBits names set = .ok bits ∧ bits < 2 ^ names.length ∧
      bitsFlags names bits = names.filter (· ∈ set) := by
  have hdiff : set.diff names = [] := by
    rw [List.Nodup.sdiff_eq_filter hnodup, List.filter_eq_nil_iff]
    intro n hn
    simpa using hsub n hn
  refine ⟨_, by rw [flagsBits, hdiff], ?_, ?_⟩
  · apply Nat.lt_pow_two_of_testBit
    intro i hi
    rw [foldl_testBit, Nat.zero_testBit, Bool.false_or, List.any_eq_false]
    intro n hn
    have hlt := List.idxOf_lt_length_of_mem hn
    simp only [Bool.and_eq_true, decide_eq_true_eq, not_and]
    intro _ heq
    omega
  · apply List.filter_congr
    intro n hn
    show Nat.testBit _ _ = _
    rw [foldl_testBit, Nat.zero_testBit, Bool.false_or, Bool.eq_iff_iff, List.any_eq_true,
      decide_eq_true_eq]
    constructor
    · rintro ⟨k, hk, heq⟩
      simp only [Bool.and_eq_true, decide_eq_true_eq] at heq
      rw [← (List.idxOf_inj hk).mp heq.2]
      exact heq.1
    · intro hset
      exact ⟨n, hn, by simp [hset]⟩

theorem storesAs_flags {names set : List Bytes} (hnodup : set.Nodup)
    (hsub : ∀ n ∈ set, n ∈ names) : StoresAs enc (.flags names) (.flags set) := by
  obtain ⟨bits, hbits, hlt, hback⟩ := flagsBits_spec hnodup hsub
  have hroom : bits < 256 ^ size (.flags names) := by
    have hle : names.length ≤ 8 * size (.flags names) := by
      show names.length ≤ 8 * (flagsSizeAlign names.length).1
      unfold flagsSizeAlign
      split
      · omega
      · split
        · omega
        · split
          · omega
          · dsimp only
            omega
    calc bits < 2 ^ names.length := hlt
      _ ≤ 2 ^ (8 * size (.flags names)) := Nat.pow_le_pow_right (by decide) hle
      _ = 256 ^ size (.flags names) := by rw [pow_mul]; rfl
  refine storesAs_of_write rfl (length_le _ bits) (fun ptr g => ?_) fun m ptr hread => ?_
  · show (flagsBits names set >>= fun i => storeInt g ptr (size (.flags names)) i) = _
    rw [hbits]
    rfl
  · rw [length_le] at hread
    show (readInt m ptr (size (.flags names)) false >>= fun i =>
      pure (Value.flags (bitsFlags names i))) = _
    rw [readInt_of hroom hread]
    show Except.ok (Value.flags (bitsFlags names bits)) = _
    rw [hback]
    rfl

end ErlangWasm.Canon
