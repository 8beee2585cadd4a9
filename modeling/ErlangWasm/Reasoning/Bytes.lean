import Mathlib.Data.List.Basic
import Mathlib.Tactic.Ring

/-!
# Fixed-width integers in byte strings

`le n v` and `be n v` are the `n` low bytes of `v`, least and most significant first; `ofLe` and
`ofBe` read them back.  `splitAt? n` takes a prefix of exactly `n` bytes, and `readBe n` the integer
in it.
-/

namespace Reasoning.Bytes

/-- The `n` low bytes of `v`, the least significant first. -/
def le : ℕ → ℕ → List UInt8
  | 0, _ => []
  | n + 1, v => UInt8.ofNat v :: le n (v / 256)

def ofLe : List UInt8 → ℕ
  | [] => 0
  | b :: bs => b.toNat + 256 * ofLe bs

/-- The `n` low bytes of `v`, the most significant first. -/
def be (n v : ℕ) : List UInt8 := (le n v).reverse

def ofBe (bs : List UInt8) : ℕ := ofLe bs.reverse

@[simp] theorem length_le (n v : ℕ) : (le n v).length = n := by
  induction n generalizing v with
  | zero => rfl
  | succ n ih => rw [le, List.length_cons, ih]

@[simp] theorem length_be (n v : ℕ) : (be n v).length = n := by
  rw [be, List.length_reverse, length_le]

theorem ofLe_le (n v : ℕ) : ofLe (le n v) = v % 256 ^ n := by
  induction n generalizing v with
  | zero => simp [le, ofLe, Nat.mod_one]
  | succ n ih =>
    rw [le, ofLe, ih]
    have hb : (UInt8.ofNat v).toNat = v % 256 := by simp
    rw [hb, pow_succ', Nat.mod_mul]

theorem ofBe_be (n v : ℕ) : ofBe (be n v) = v % 256 ^ n := by
  rw [ofBe, be, List.reverse_reverse, ofLe_le]

theorem ofLe_lt (bs : List UInt8) : ofLe bs < 256 ^ bs.length := by
  induction bs with
  | nil => simp [ofLe]
  | cons b bs ih =>
    have hb : b.toNat < 256 := b.toNat_lt
    rw [ofLe, List.length_cons, pow_succ']
    omega

theorem ofBe_lt (bs : List UInt8) : ofBe bs < 256 ^ bs.length := by
  have h := ofLe_lt bs.reverse
  rwa [List.length_reverse] at h

theorem le_ofLe (bs : List UInt8) : le bs.length (ofLe bs) = bs := by
  induction bs with
  | nil => rfl
  | cons b bs ih =>
    have hb : b.toNat < 256 := b.toNat_lt
    have hdiv : (b.toNat + 256 * ofLe bs) / 256 = ofLe bs := by omega
    have hmod : UInt8.ofNat (b.toNat + 256 * ofLe bs) = b := by
      apply UInt8.toNat_inj.mp
      simp
    rw [List.length_cons, ofLe, le, hdiv, hmod, ih]

theorem be_ofBe (bs : List UInt8) : be bs.length (ofBe bs) = bs := by
  have h := le_ofLe bs.reverse
  rw [List.length_reverse] at h
  rw [be, ofBe, h, List.reverse_reverse]

/-! ## Reading -/

/-- A prefix of exactly `n` bytes, and the rest. -/
def splitAt? (n : ℕ) (bs : List UInt8) : Option (List UInt8 × List UInt8) :=
  if n ≤ bs.length then some (bs.take n, bs.drop n) else none

theorem splitAt?_append {n : ℕ} {xs : List UInt8} (h : xs.length = n) (ys : List UInt8) :
    splitAt? n (xs ++ ys) = some (xs, ys) := by
  subst h
  rw [splitAt?, if_pos (by simp)]
  simp

theorem splitAt?_eq_some {n : ℕ} {bs xs ys : List UInt8} (h : splitAt? n bs = some (xs, ys)) :
    bs = xs ++ ys ∧ xs.length = n := by
  unfold splitAt? at h
  split at h
  · rename_i hn
    obtain ⟨rfl, rfl⟩ := Prod.mk.inj (Option.some.inj h)
    exact ⟨(List.take_append_drop n bs).symm, by simp [hn]⟩
  · cases h

/-- An unsigned big-endian field of `n` bytes, and the rest. -/
def readBe (n : ℕ) (bs : List UInt8) : Option (ℕ × List UInt8) :=
  (splitAt? n bs).map fun p => (ofBe p.1, p.2)

theorem readBe_be (n v : ℕ) (ys : List UInt8) :
    readBe n (be n v ++ ys) = some (v % 256 ^ n, ys) := by
  rw [readBe, splitAt?_append (length_be n v), Option.map_some, ofBe_be]

theorem readBe_eq_some {n v : ℕ} {bs ys : List UInt8} (h : readBe n bs = some (v, ys)) :
    bs = be n v ++ ys ∧ v < 256 ^ n := by
  obtain ⟨⟨xs, zs⟩, hsplit, heq⟩ := Option.map_eq_some_iff.mp h
  obtain ⟨rfl, rfl⟩ := Prod.mk.inj heq
  obtain ⟨rfl, rfl⟩ := splitAt?_eq_some hsplit
  exact ⟨by rw [be_ofBe], ofBe_lt xs⟩

/-- What follows the prefix `xs`. -/
def strip? : List UInt8 → List UInt8 → Option (List UInt8)
  | [], bs => some bs
  | _ :: _, [] => none
  | x :: xs, b :: bs => if x = b then strip? xs bs else none

theorem strip?_eq_some {xs bs ys : List UInt8} : strip? xs bs = some ys ↔ bs = xs ++ ys := by
  induction xs generalizing bs with
  | nil => simp [strip?]
  | cons x xs ih =>
    cases bs with
    | nil => simp [strip?]
    | cons b bs =>
      rw [strip?, List.cons_append, List.cons.injEq]
      split
      · rename_i hx
        rw [ih]
        simp [hx]
      · rename_i hx
        simp [Ne.symm hx]

@[simp] theorem strip?_append (xs ys : List UInt8) : strip? xs (xs ++ ys) = some ys :=
  strip?_eq_some.mpr rfl

/-- The bytes of an ASCII text. -/
def ascii (s : String) : List UInt8 :=
  s.toList.map fun c => UInt8.ofNat c.toNat

end Reasoning.Bytes
