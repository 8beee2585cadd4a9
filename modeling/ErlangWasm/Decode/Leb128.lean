import ErlangWasm.Reasoning.Leb128
import Mathlib.Data.Nat.Bitwise

/-!
# What the decoder throws
-/

namespace ErlangWasm.Decode

abbrev Bytes := List UInt8

inductive ErrorKind
  | dataCountMismatch
  | dataCountSectionRequired
  | functionCodeMismatch
  | functionSizeMismatch
  | illegalOpcode
  | integerRepresentationTooLong
  | integerTooLarge
  | lengthOutOfBounds
  | magicHeaderNotDetected
  | malformedBlockType
  | malformedCastFlags
  | malformedCatchClause
  | malformedDataSegment
  | malformedElemKind
  | malformedElemSegment
  | malformedExportKind
  | malformedFunctype
  | malformedHeapType
  | malformedImportKind
  | malformedLimits
  | malformedMemopFlags
  | malformedMutability
  | malformedReferenceType
  | malformedSectionId
  | malformedTagAttribute
  | malformedUtf8
  | malformedValueType
  | sectionOutOfOrder
  | sectionSizeMismatch
  | tooManyLocals
  | unexpectedElse
  | unexpectedEnd
  | unknownBinaryVersion
  | zeroByteExpected
  deriving DecidableEq, Repr

inductive ErrorClass
  | malformed
  | exhaustion
  deriving DecidableEq, Repr

/-- A value of an error's context. -/
inductive Detail
  | int (i : ℤ)
  | bool (b : Bool)
  | name (s : String)
  -- an instruction's atom, by the prefix it is under and its opcode there
  | op (under : Option UInt8) (sub : ℕ)
  deriving DecidableEq, Repr

/-- `#{class => Class, kind => Kind, msg => Msg, ctx => Ctx}`. -/
structure Error where
  cls : ErrorClass
  kind : ErrorKind
  msg : String
  ctx : List (String × Detail)
  deriving DecidableEq, Repr

/-- `wasm_error:malformed/3`. -/
def malformed {α : Type} (kind : ErrorKind) (msg : String) (ctx : List (String × Detail)) :
    Except Error α :=
  .error { cls := .malformed, kind := kind, msg := msg, ctx := ctx }

/-- The refusals that only say what was being read when the bytes ran out. -/
def unexpectedEnd {α : Type} (reading : String) : Except Error α :=
  malformed .unexpectedEnd "unexpected end" [("reading", .name reading)]

end ErlangWasm.Decode

/-!
## Varints

`wasm_leb128`.  The decoder counts bytes and accumulates seven bits of each; what the format says
of the last byte it replaces by one comparison once the loop is done.  `Exact` is the format's own
reading of a decoder, and every one of the five meets it.
-/

namespace ErlangWasm.Decode

open Reasoning.Leb128

/-! ## Decoding -/

/-- `max_bytes/1`. -/
def maxBytes (bits : ℕ) : ℕ := (bits + 6) / 7

def tooLong {α : Type} (max : ℕ) : Except Error α :=
  malformed .integerRepresentationTooLong "integer representation too long"
    [("max_bytes", .int max)]

def tooLarge {α : Type} (bits : ℕ) (isSigned : Bool) : Except Error α :=
  malformed .integerTooLarge "integer too large" [("width", .int bits), ("signed", .bool isSigned)]

/-- The loop of `uleb/5` and `sleb/5`; `done` is what the terminating byte makes of the bits
before it. -/
def lebLoop {α : Type} (done : ℕ → ℕ → ℕ → α) (max : ℕ) :
    Bytes → ℕ → ℕ → ℕ → Except Error (α × Bytes)
  | [], _, _, _ => unexpectedEnd "leb128"
  | b :: rest, n, acc, shift =>
      if b.toNat < 128 then .ok (done acc b.toNat shift, rest)
      else if max ≤ n then tooLong max
      else lebLoop done max rest (n + 1) (acc ||| (b.toNat - 128) <<< shift) (shift + 7)

def ulebDone (acc b shift : ℕ) : ℕ := acc ||| b <<< shift

def slebDone (acc b shift : ℕ) : ℤ :=
  let val := acc ||| b <<< shift
  -- bit 6 of the terminating byte is the sign bit of the encoded value
  if b &&& 0x40 = 0 then val else (val : ℤ) - (1 <<< (shift + 7) : ℕ)

/-- `uleb/5`. -/
def ulebLoop (max : ℕ) : Bytes → ℕ → ℕ → ℕ → Except Error (ℕ × Bytes) := lebLoop ulebDone max

/-- `sleb/5`. -/
def slebLoop (max : ℕ) : Bytes → ℕ → ℕ → ℕ → Except Error (ℤ × Bytes) := lebLoop slebDone max

/-- `uleb/2`. -/
def uleb (bin : Bytes) (bits : ℕ) : Except Error (ℕ × Bytes) :=
  match ulebLoop (maxBytes bits) bin 1 0 0 with
  | .ok (val, rest) => if val < 1 <<< bits then .ok (val, rest) else tooLarge bits false
  | .error e => .error e

/-- `sleb/2`. -/
def sleb (bin : Bytes) (bits : ℕ) : Except Error (ℤ × Bytes) :=
  match slebLoop (maxBytes bits) bin 1 0 0 with
  | .ok (val, rest) =>
      let limit : ℕ := 1 <<< (bits - 1)
      if -(limit : ℤ) ≤ val ∧ val < limit then .ok (val, rest) else tooLarge bits true
  | .error e => .error e

/-- The first clause of `u32/1` and `u64/1`, before the loop. -/
def unsignedByte (bits : ℕ) : Bytes → Except Error (ℕ × Bytes)
  | b :: rest => if b.toNat < 128 then .ok (b.toNat, rest) else uleb (b :: rest) bits
  | [] => uleb [] bits

/-- The first two clauses of `s32/1`, `s64/1` and `s33/1`, before the loop. -/
def signedByte (bits : ℕ) : Bytes → Except Error (ℤ × Bytes)
  | b :: rest =>
      if b.toNat < 64 then .ok (b.toNat, rest)
      else if b.toNat < 128 then .ok (((b.toNat - 64 : ℕ) : ℤ) - 64, rest)
      else sleb (b :: rest) bits
  | [] => sleb [] bits

def u32 : Bytes → Except Error (ℕ × Bytes) := unsignedByte 32

def u64 : Bytes → Except Error (ℕ × Bytes) := unsignedByte 64

def s32 : Bytes → Except Error (ℤ × Bytes) := signedByte 32

def s64 : Bytes → Except Error (ℤ × Bytes) := signedByte 64

def s33 : Bytes → Except Error (ℤ × Bytes) := signedByte 33

/-! ## Encoding -/

/-- `encode_u32/1`. -/
def encodeU32 (v : ℕ) : Bytes :=
  if v < 128 then [UInt8.ofNat v]
  else UInt8.ofNat (128 + v % 128) :: encodeU32 (v / 128)
termination_by v
decreasing_by omega

/-- `encode_s/1`. -/
def encodeS (v : ℤ) : Bytes :=
  let byte := (v % 128).toNat
  let rest := v / 128
  if (rest = 0 ∧ byte &&& 0x40 = 0) ∨ (rest = -1 ∧ byte &&& 0x40 ≠ 0) then [UInt8.ofNat byte]
  else UInt8.ofNat (128 + byte) :: encodeS rest
termination_by v.natAbs
decreasing_by
  rename_i hnot
  by_contra hge
  apply hnot
  have hv : v = 0 ∨ v = -1 := by omega
  obtain rfl | rfl := hv <;> decide

def encodeS32 (v : ℤ) : Bytes := encodeS v

def encodeS64 (v : ℤ) : Bytes := encodeS v

/-! ## What the format says of a decoder -/

/-- `decode` accepts the encodings `Enc` of integers of `bits` bits, answers their values, and says
of anything else what is wrong with it. -/
structure Exact {α : Type} (bits : ℕ) (Enc : Bytes → α → Prop)
    (decode : Bytes → Except Error (α × Bytes)) : Prop where
  accepts : ∀ bin v rest, decode bin = .ok (v, rest) ↔ ∃ pre, bin = pre ++ rest ∧ Enc pre v
  -- the last permitted byte continues
  tooLong : ∀ bin, (∃ e, decode bin = .error e ∧ e.kind = .integerRepresentationTooLong) ↔
    maxBytes bits ≤ bin.length ∧ ∀ b ∈ bin.take (maxBytes bits), 128 ≤ b.toNat
  -- the value does not fit
  tooLarge : ∀ bin, (∃ e, decode bin = .error e ∧ e.kind = .integerTooLarge) ↔
    ∃ pre rest, bin = pre ++ rest ∧ Ends pre ∧ pre.length ≤ maxBytes bits ∧ ∀ v, ¬ Enc pre v
  -- the bytes end first
  unexpectedEnd : ∀ bin, (∃ e, decode bin = .error e ∧ e.kind = .unexpectedEnd) ↔
    bin.length < maxBytes bits ∧ ∀ b ∈ bin, 128 ≤ b.toNat
  malformed : ∀ bin e, decode bin = .error e → e.cls = .malformed ∧
    (e.kind = .integerRepresentationTooLong ∨ e.kind = .integerTooLarge ∨ e.kind = .unexpectedEnd)

/-! ## The loop -/

theorem or_shift {acc shift : ℕ} (h : acc < 2 ^ shift) (b : ℕ) :
    acc ||| b <<< shift = acc + 2 ^ shift * b := by
  rw [Nat.shiftLeft_eq, Nat.or_comm, Nat.mul_comm, ← Nat.two_pow_add_eq_or_of_lt h, Nat.add_comm]

theorem or_shift_lt {acc shift b : ℕ} (h : acc < 2 ^ shift) (hb : b < 128) :
    acc ||| b <<< shift < 2 ^ (shift + 7) := by
  rw [or_shift h, pow_add]
  have hle : 2 ^ shift * (b + 1) ≤ 2 ^ shift * 2 ^ 7 := Nat.mul_le_mul_left _ (by omega)
  rw [Nat.mul_add] at hle
  omega

theorem sign_bit {b : ℕ} (hb : b < 128) : b &&& 0x40 = 0 ↔ b < 64 := by
  have h : ∀ b : Fin 128, b.val &&& 0x40 = 0 ↔ b.val < 64 := by decide +kernel
  exact h ⟨b, hb⟩

theorem ulebDone_eq {acc shift : ℕ} (h : acc < 2 ^ shift) (b : ℕ) :
    ulebDone acc b shift = acc + 2 ^ shift * b := or_shift h b

theorem slebDone_eq {acc shift b : ℕ} (h : acc < 2 ^ shift) (hb : b < 128) :
    slebDone acc b shift = acc + 2 ^ shift * (if b < 64 then (b : ℤ) else b - 128) := by
  unfold slebDone
  rw [or_shift h, Nat.one_shiftLeft, pow_add]
  simp only [sign_bit hb]
  split
  · push_cast
    ring
  · push_cast
    ring

/-- Within the bytes it may take, the loop answers at the first that does not continue. -/
theorem lebLoop_ends {α : Type} {done : ℕ → ℕ → ℕ → α} (max : ℕ) (value : Bytes → ℤ)
    (cast : α → ℤ)
    (hlast : ∀ acc shift b : ℕ, acc < 2 ^ shift → b < 128 →
      cast (done acc b shift) = acc + 2 ^ shift * value [UInt8.ofNat b])
    (hmore : ∀ (b : UInt8) (bs : Bytes), Ends bs →
      value (b :: bs) = (b.toNat % 128 : ℕ) + 128 * value bs)
    {pre : Bytes} (h : Ends pre) (rest : Bytes) (n acc shift : ℕ) (hacc : acc < 2 ^ shift)
    (hlen : n + pre.length ≤ max + 1) :
    ∃ v, lebLoop done max (pre ++ rest) n acc shift = .ok (v, rest) ∧
      cast v = acc + 2 ^ shift * value pre := by
  induction h generalizing n acc shift with
  | @last b hb =>
    refine ⟨done acc b.toNat shift, ?_, ?_⟩
    · rw [List.singleton_append, lebLoop, if_pos hb]
    · rw [hlast acc shift b.toNat hacc hb, UInt8.ofNat_toNat]
  | @more b bs hb hends ih =>
    have hb' := b.toNat_lt
    have hpos := List.length_pos_of_ne_nil hends.ne_nil
    rw [List.length_cons] at hlen
    have hlow : b.toNat - 128 < 128 := by omega
    obtain ⟨v, hv, hcast⟩ := ih (n + 1) (acc ||| (b.toNat - 128) <<< shift) (shift + 7)
      (or_shift_lt hacc hlow) (by omega)
    refine ⟨v, ?_, ?_⟩
    · rw [List.cons_append, lebLoop, if_neg (by omega), if_neg (by omega), hv]
    · rw [hcast, hmore b bs hends, or_shift hacc, show b.toNat % 128 = b.toNat - 128 by omega,
        pow_add]
      push_cast
      ring

theorem lebLoop_tooLong {α : Type} {done : ℕ → ℕ → ℕ → α} {max : ℕ} (k : ℕ) (hk : 0 < k)
    {bin : Bytes} (hlen : k ≤ bin.length) (hall : ∀ b ∈ bin.take k, 128 ≤ b.toNat)
    (n acc shift : ℕ) (hn : n + k = max + 1) :
    lebLoop done max bin n acc shift = tooLong max := by
  induction bin generalizing k n acc shift with
  | nil => simp at hlen; omega
  | cons b bs ih =>
    obtain ⟨k, rfl⟩ : ∃ j, k = j + 1 := ⟨k - 1, by omega⟩
    rw [List.take_succ_cons] at hall
    have hb : 128 ≤ b.toNat := hall b (by simp)
    rw [lebLoop, if_neg (by omega)]
    by_cases hlast : max ≤ n
    · rw [if_pos hlast]
    · rw [if_neg hlast]
      rw [List.length_cons] at hlen
      exact ih k (by omega) (by omega) (fun c hc => hall c (by simp [hc])) _ _ _ (by omega)

theorem lebLoop_unexpectedEnd {α : Type} {done : ℕ → ℕ → ℕ → α} {max : ℕ} {bin : Bytes}
    (hall : ∀ b ∈ bin, 128 ≤ b.toNat) (n acc shift : ℕ) (hlen : n + bin.length < max + 1) :
    lebLoop done max bin n acc shift = unexpectedEnd "leb128" := by
  induction bin generalizing n acc shift with
  | nil => rfl
  | cons b bs ih =>
    have hb : 128 ≤ b.toNat := hall b (by simp)
    rw [List.length_cons] at hlen
    rw [lebLoop, if_neg (by omega), if_neg (by omega)]
    exact ih (fun c hc => hall c (by simp [hc])) _ _ _ (by omega)

/-! ## The decoders -/

section

variable {bits : ℕ}

theorem uleb_ends (hbits : 0 < bits) {pre : Bytes} (h : Ends pre)
    (hlen : pre.length ≤ maxBytes bits) (rest : Bytes) :
    (∃ v, U bits pre v ∧ uleb (pre ++ rest) bits = .ok (v, rest)) ∨
    ((∀ v, ¬ U bits pre v) ∧ uleb (pre ++ rest) bits = tooLarge bits false) := by
  have hlast : ∀ acc shift b : ℕ, acc < 2 ^ shift → b < 128 →
      ((ulebDone acc b shift : ℕ) : ℤ) = acc + 2 ^ shift * (groups [UInt8.ofNat b] : ℕ) := by
    intro acc shift b hacc hb
    have hgroups : groups [UInt8.ofNat b] = b := by
      simp only [groups, UInt8.toNat_ofNat']
      omega
    rw [ulebDone_eq hacc, hgroups]
    push_cast
    rfl
  have hmore : ∀ (b : UInt8) (bs : Bytes), Ends bs →
      ((groups (b :: bs) : ℕ) : ℤ) = (b.toNat % 128 : ℕ) + 128 * (groups bs : ℕ) := by
    intro b bs _
    simp only [groups]
    push_cast
    rfl
  obtain ⟨v, hloop, hv⟩ := lebLoop_ends (maxBytes bits) (fun bs => groups bs)
    (fun v : ℕ => (v : ℤ)) hlast hmore h rest 1 0 0 (by simp) (by omega)
  have hv' : v = groups pre := by
    simp at hv
    exact_mod_cast hv
  unfold uleb ulebLoop
  rw [hloop]
  simp only [Nat.one_shiftLeft]
  by_cases hlt : v < 2 ^ bits
  · left
    exact ⟨v, (u_iff hbits).mpr ⟨h, hlen, hv', hlt⟩, if_pos hlt⟩
  · right
    refine ⟨?_, if_neg hlt⟩
    intro w hw
    obtain ⟨-, -, rfl, hlt'⟩ := (u_iff hbits).mp hw
    exact hlt (hv' ▸ hlt')

theorem sleb_ends (hbits : 0 < bits) {pre : Bytes} (h : Ends pre)
    (hlen : pre.length ≤ maxBytes bits) (rest : Bytes) :
    (∃ v, S bits pre v ∧ sleb (pre ++ rest) bits = .ok (v, rest)) ∨
    ((∀ v, ¬ S bits pre v) ∧ sleb (pre ++ rest) bits = tooLarge bits true) := by
  have hlast : ∀ acc shift b : ℕ, acc < 2 ^ shift → b < 128 →
      slebDone acc b shift = acc + 2 ^ shift * signed [UInt8.ofNat b] := by
    intro acc shift b hacc hb
    have hmod : (UInt8.ofNat b).toNat % 128 = b := by
      rw [UInt8.toNat_ofNat']
      omega
    rw [slebDone_eq hacc hb, signed, hmod]
  obtain ⟨v, hloop, hv⟩ := lebLoop_ends (maxBytes bits) signed (fun v : ℤ => v) hlast
    (fun b bs hbs => signed_cons hbs) h rest 1 0 0 (by simp) (by omega)
  have hv' : v = signed pre := by simpa using hv
  unfold sleb slebLoop
  rw [hloop]
  simp only [Nat.one_shiftLeft]
  push_cast
  by_cases hfits : -(2 : ℤ) ^ (bits - 1) ≤ v ∧ v < 2 ^ (bits - 1)
  · left
    exact ⟨v, (s_iff hbits).mpr ⟨h, hlen, hv', hfits⟩, if_pos hfits⟩
  · right
    refine ⟨?_, if_neg hfits⟩
    intro w hw
    obtain ⟨-, -, rfl, hfits'⟩ := (s_iff hbits).mp hw
    exact hfits (hv' ▸ hfits')

/-- What a decoder does where the bytes end within the ones it may take, and where they do not,
is all there is to say of it. -/
theorem exact_of_ends {α : Type} {Enc : Bytes → α → Prop} (isSigned : Bool)
    {decode : Bytes → Except Error (α × Bytes)} (hbits : 0 < bits)
    (henc : ∀ pre v, Enc pre v → Ends pre ∧ pre.length ≤ maxBytes bits)
    (hends : ∀ pre rest, Ends pre → pre.length ≤ maxBytes bits →
      (∃ v, Enc pre v ∧ decode (pre ++ rest) = .ok (v, rest)) ∨
      ((∀ v, ¬ Enc pre v) ∧ decode (pre ++ rest) = tooLarge bits isSigned))
    (hunique : ∀ pre v w, Enc pre v → Enc pre w → v = w)
    (htooLong : ∀ bin : Bytes, maxBytes bits ≤ bin.length →
      (∀ b ∈ bin.take (maxBytes bits), 128 ≤ b.toNat) → decode bin = tooLong (maxBytes bits))
    (hend : ∀ bin : Bytes, bin.length < maxBytes bits → (∀ b ∈ bin, 128 ≤ b.toNat) →
      decode bin = Decode.unexpectedEnd "leb128") :
    Exact bits Enc decode := by
  -- one of four things becomes of any bytes
  have hcases : ∀ bin : Bytes,
      (∃ pre rest v, bin = pre ++ rest ∧ Enc pre v ∧ decode bin = .ok (v, rest)) ∨
      (∃ pre rest, bin = pre ++ rest ∧ Ends pre ∧ pre.length ≤ maxBytes bits ∧
        (∀ v, ¬ Enc pre v) ∧ decode bin = tooLarge bits isSigned) ∨
      ((maxBytes bits ≤ bin.length ∧ ∀ b ∈ bin.take (maxBytes bits), 128 ≤ b.toNat) ∧
        decode bin = tooLong (maxBytes bits)) ∨
      ((bin.length < maxBytes bits ∧ ∀ b ∈ bin, 128 ≤ b.toNat) ∧
        decode bin = Decode.unexpectedEnd "leb128") := by
    intro bin
    rcases ends_cases (maxBytes bits) (by unfold maxBytes; omega) bin with
      ⟨pre, rest, rfl, he, hlen⟩ | h | h
    · rcases hends pre rest he hlen with ⟨v, hv, hdec⟩ | ⟨hno, hdec⟩
      · exact .inl ⟨pre, rest, v, rfl, hv, hdec⟩
      · exact .inr (.inl ⟨pre, rest, rfl, he, hlen, hno, hdec⟩)
    · exact .inr (.inr (.inl ⟨h, htooLong bin h.1 h.2⟩))
    · exact .inr (.inr (.inr ⟨h, hend bin h.1 h.2⟩))
  refine ⟨?_, ?_, ?_, ?_, ?_⟩
  · intro bin v rest
    constructor
    · intro hok
      rcases hcases bin with ⟨pre, rest', w, rfl, hw, hdec⟩ | ⟨_, _, -, -, -, -, hdec⟩ |
        ⟨-, hdec⟩ | ⟨-, hdec⟩ <;> rw [hdec] at hok <;> cases hok
      exact ⟨pre, rfl, hw⟩
    · rintro ⟨pre, rfl, hv⟩
      obtain ⟨he, hlen⟩ := henc pre v hv
      rcases hends pre rest he hlen with ⟨w, hw, hdec⟩ | ⟨hno, -⟩
      · rw [hdec, hunique pre v w hv hw]
      · exact absurd hv (hno v)
  · intro bin
    constructor
    · rintro ⟨e, herr, hkind⟩
      rcases hcases bin with ⟨_, _, _, -, -, hdec⟩ | ⟨_, _, -, -, -, -, hdec⟩ | ⟨h, -⟩ |
        ⟨-, hdec⟩
      · rw [hdec] at herr
        cases herr
      · rw [hdec] at herr
        cases herr
        cases hkind
      · exact h
      · rw [hdec] at herr
        cases herr
        cases hkind
    · rintro ⟨hl, ha⟩
      exact ⟨_, htooLong bin hl ha, rfl⟩
  · intro bin
    constructor
    · rintro ⟨e, herr, hkind⟩
      rcases hcases bin with ⟨_, _, _, -, -, hdec⟩ | ⟨pre, rest, heq, he, hlen, hno, -⟩ |
        ⟨-, hdec⟩ | ⟨-, hdec⟩
      · rw [hdec] at herr
        cases herr
      · exact ⟨pre, rest, heq, he, hlen, hno⟩
      · rw [hdec] at herr
        cases herr
        cases hkind
      · rw [hdec] at herr
        cases herr
        cases hkind
    · rintro ⟨pre, rest, rfl, he, hlen, hno⟩
      rcases hends pre rest he hlen with ⟨w, hw, -⟩ | ⟨-, hdec⟩
      · exact absurd hw (hno w)
      · exact ⟨_, hdec, rfl⟩
  · intro bin
    constructor
    · rintro ⟨e, herr, hkind⟩
      rcases hcases bin with ⟨_, _, _, -, -, hdec⟩ | ⟨_, _, -, -, -, -, hdec⟩ | ⟨-, hdec⟩ |
        ⟨h, -⟩
      · rw [hdec] at herr
        cases herr
      · rw [hdec] at herr
        cases herr
        cases hkind
      · rw [hdec] at herr
        cases herr
        cases hkind
      · exact h
    · rintro ⟨hl, ha⟩
      exact ⟨_, hend bin hl ha, rfl⟩
  · intro bin e herr
    rcases hcases bin with ⟨_, _, _, -, -, hdec⟩ | ⟨_, _, -, -, -, -, hdec⟩ | ⟨-, hdec⟩ |
      ⟨-, hdec⟩ <;> rw [hdec] at herr <;> cases herr
    · exact ⟨rfl, .inr (.inl rfl)⟩
    · exact ⟨rfl, .inl rfl⟩
    · exact ⟨rfl, .inr (.inr rfl)⟩

theorem uleb_exact (hbits : 0 < bits) : Exact bits (U bits) (uleb · bits) := by
  refine exact_of_ends false hbits ?_ ?_ ?_ ?_ ?_
  · intro pre v hv
    obtain ⟨he, hlen, -⟩ := (u_iff hbits).mp hv
    exact ⟨he, hlen⟩
  · exact fun pre rest he hlen => uleb_ends hbits he hlen rest
  · intro pre v w hv hw
    rw [((u_iff hbits).mp hv).2.2.1, ((u_iff hbits).mp hw).2.2.1]
  · intro bin hlen hall
    unfold uleb ulebLoop
    rw [lebLoop_tooLong (maxBytes bits) (by unfold maxBytes; omega) hlen hall 1 0 0 (by omega)]
    rfl
  · intro bin hlen hall
    unfold uleb ulebLoop
    rw [lebLoop_unexpectedEnd hall 1 0 0 (by omega)]
    rfl

theorem sleb_exact (hbits : 0 < bits) : Exact bits (S bits) (sleb · bits) := by
  refine exact_of_ends true hbits ?_ ?_ ?_ ?_ ?_
  · intro pre v hv
    obtain ⟨he, hlen, -⟩ := (s_iff hbits).mp hv
    exact ⟨he, hlen⟩
  · exact fun pre rest he hlen => sleb_ends hbits he hlen rest
  · intro pre v w hv hw
    rw [((s_iff hbits).mp hv).2.2.1, ((s_iff hbits).mp hw).2.2.1]
  · intro bin hlen hall
    unfold sleb slebLoop
    rw [lebLoop_tooLong (maxBytes bits) (by unfold maxBytes; omega) hlen hall 1 0 0 (by omega)]
    rfl
  · intro bin hlen hall
    unfold sleb slebLoop
    rw [lebLoop_unexpectedEnd hall 1 0 0 (by omega)]
    rfl

/-- A byte that does not continue is taken by the fast path as the loop would take it. -/
theorem unsignedByte_eq_uleb (hbits : 7 ≤ bits) (bin : Bytes) :
    unsignedByte bits bin = uleb bin bits := by
  cases bin with
  | nil => rfl
  | cons b rest =>
    rw [unsignedByte]
    split
    · rename_i hb
      have hpow : 2 ^ 7 ≤ 2 ^ bits := Nat.pow_le_pow_right (by decide) hbits
      have hlt : b.toNat < 2 ^ bits := by omega
      exact (((uleb_exact (by omega)).accepts _ _ _).mpr ⟨[b], rfl, .last hb hlt⟩).symm
    · rfl

theorem signedByte_eq_sleb (hbits : 7 ≤ bits) (bin : Bytes) :
    signedByte bits bin = sleb bin bits := by
  cases bin with
  | nil => rfl
  | cons b rest =>
    have hpow : 2 ^ 6 ≤ 2 ^ (bits - 1) := Nat.pow_le_pow_right (by decide) (by omega)
    have hpow' : (2 : ℤ) ^ 6 ≤ 2 ^ (bits - 1) := by exact_mod_cast hpow
    rw [signedByte]
    split
    · rename_i hb
      exact (((sleb_exact (by omega)).accepts _ _ _).mpr ⟨[b], rfl, .pos hb (by omega)⟩).symm
    · split
      · rename_i hlow hb
        have henc : S bits [b] (b.toNat - 2 ^ 7) := .neg (by omega) hb (by omega)
        rw [((sleb_exact (by omega)).accepts (b :: rest) _ rest).mpr ⟨[b], rfl, henc⟩]
        congr 2
        omega
      · rfl

theorem unsignedByte_exact (hbits : 7 ≤ bits) : Exact bits (U bits) (unsignedByte bits) := by
  rw [show unsignedByte bits = (uleb · bits) from funext (unsignedByte_eq_uleb hbits)]
  exact uleb_exact (by omega)

theorem signedByte_exact (hbits : 7 ≤ bits) : Exact bits (S bits) (signedByte bits) := by
  rw [show signedByte bits = (sleb · bits) from funext (signedByte_eq_sleb hbits)]
  exact sleb_exact (by omega)

end

/-! ## Encodings are decoded -/

theorem encodeU32_u (v N : ℕ) (hN : 0 < N) (hv : v < 2 ^ N) : U N (encodeU32 v) v := by
  induction v using Nat.strongRecOn generalizing N with
  | ind v ih =>
    rw [encodeU32]
    split
    · rename_i hsmall
      have hbyte : (UInt8.ofNat v).toNat = v := by
        rw [UInt8.toNat_ofNat']
        omega
      have h : U N [UInt8.ofNat v] (UInt8.ofNat v).toNat := .last (by omega) (by omega)
      rwa [hbyte] at h
    · rename_i hbig
      have hN' : 7 < N := by
        by_contra hle
        have hpow : 2 ^ N ≤ 2 ^ 7 := Nat.pow_le_pow_right (by decide) (by omega)
        omega
      have hsplit := two_pow_split hN'.le
      have hbyte : (UInt8.ofNat (128 + v % 128)).toNat = 128 + v % 128 := by
        rw [UInt8.toNat_ofNat']
        omega
      have h : U N (UInt8.ofNat (128 + v % 128) :: encodeU32 (v / 128)) _ :=
        .more (by omega) hN' (ih (v / 128) (by omega) (N - 7) (by omega) (by omega))
      rw [hbyte] at h
      rwa [show 2 ^ 7 * (v / 128) + (128 + v % 128 - 2 ^ 7) = v by omega] at h

theorem encodeS_s (v : ℤ) (N : ℕ) (hN : 0 < N) (hv : -2 ^ (N - 1) ≤ v ∧ v < 2 ^ (N - 1)) :
    S N (encodeS v) v := by
  induction v using encodeS.induct generalizing N with
  | case1 v byte rest hdone =>
    rw [encodeS, if_pos hdone]
    have hlt : byte < 128 := by omega
    have hbyte : (UInt8.ofNat byte).toNat = byte := by
      rw [UInt8.toNat_ofNat']
      omega
    rw [Ne, sign_bit hlt] at hdone
    rcases hdone with ⟨hrest, hlow⟩ | ⟨hrest, hhigh⟩
    · have hval : v = byte := by omega
      have h : S N [UInt8.ofNat byte] ((UInt8.ofNat byte).toNat : ℕ) := by
        refine .pos (by omega) ?_
        have hv' := hv.2
        rw [hval] at hv'
        rw [hbyte]
        exact_mod_cast hv'
      rw [hbyte, ← hval] at h
      exact h
    · have hval : v = byte - 2 ^ 7 := by omega
      have h : S N [UInt8.ofNat byte] ((UInt8.ofNat byte).toNat - 2 ^ 7) :=
        .neg (by omega) (by omega) (by omega)
      rw [hbyte, ← hval] at h
      exact h
  | case2 v byte rest hdone ih =>
    rw [encodeS, if_neg hdone]
    have hlt : byte < 128 := by omega
    have hbyte : (UInt8.ofNat (128 + byte)).toNat = 128 + byte := by
      rw [UInt8.toNat_ofNat']
      omega
    rw [Ne, sign_bit hlt] at hdone
    have hwide : 64 ≤ v ∨ v < -64 := by
      by_contra hnarrow
      apply hdone
      omega
    have hN' : 7 < N := by
      by_contra hle
      have hpow : (2 : ℕ) ^ (N - 1) ≤ 2 ^ 6 := Nat.pow_le_pow_right (by decide) (by omega)
      have hpow' : (2 : ℤ) ^ (N - 1) ≤ 2 ^ 6 := by exact_mod_cast hpow
      omega
    have hsplit : (2 : ℤ) ^ (N - 1) = 128 * 2 ^ (N - 7 - 1) := by
      have h := two_pow_split (N := N - 1) (by omega)
      rw [show N - 1 - 7 = N - 7 - 1 by omega] at h
      exact_mod_cast h
    have h : S N (UInt8.ofNat (128 + byte) :: encodeS rest) _ :=
      .more (by omega) hN' (ih (N - 7) (by omega) (by omega))
    rw [hbyte] at h
    have hval : 2 ^ 7 * rest + (((128 + byte : ℕ) : ℤ) - 2 ^ 7) = v := by omega
    rwa [hval] at h

/-- Every decoder reads what the format admits for its width and nothing else, the single-byte
clauses are the loop, and what an encoder writes is read back. -/
theorem leb128_exact :
    Exact 32 (U 32) u32 ∧ Exact 64 (U 64) u64 ∧ Exact 32 (S 32) s32 ∧ Exact 64 (S 64) s64 ∧
    Exact 33 (S 33) s33 ∧
    (∀ bin, u32 bin = uleb bin 32 ∧ u64 bin = uleb bin 64 ∧ s32 bin = sleb bin 32 ∧
      s64 bin = sleb bin 64 ∧ s33 bin = sleb bin 33) ∧
    (∀ v < 2 ^ 32, ∀ rest, u32 (encodeU32 v ++ rest) = .ok (v, rest)) ∧
    (∀ v : ℤ, -2 ^ 31 ≤ v → v < 2 ^ 31 → ∀ rest, s32 (encodeS32 v ++ rest) = .ok (v, rest)) ∧
    ∀ v : ℤ, -2 ^ 63 ≤ v → v < 2 ^ 63 → ∀ rest, s64 (encodeS64 v ++ rest) = .ok (v, rest) := by
  have hu {bits : ℕ} (h : 7 ≤ bits) := unsignedByte_exact h
  have hs {bits : ℕ} (h : 7 ≤ bits) := signedByte_exact h
  refine ⟨hu (by decide), hu (by decide), hs (by decide), hs (by decide), hs (by decide),
    ?_, ?_, ?_, ?_⟩
  · intro bin
    exact ⟨unsignedByte_eq_uleb (by decide) bin, unsignedByte_eq_uleb (by decide) bin,
      signedByte_eq_sleb (by decide) bin, signedByte_eq_sleb (by decide) bin,
      signedByte_eq_sleb (by decide) bin⟩
  · intro v hv rest
    exact ((hu (by decide)).accepts _ _ _).mpr ⟨_, rfl, encodeU32_u v 32 (by decide) hv⟩
  · intro v hlow hhigh rest
    exact ((hs (by decide)).accepts _ _ _).mpr
      ⟨_, rfl, encodeS_s v 32 (by decide) ⟨hlow, hhigh⟩⟩
  · intro v hlow hhigh rest
    exact ((hs (by decide)).accepts _ _ _).mpr
      ⟨_, rfl, encodeS_s v 64 (by decide) ⟨hlow, hhigh⟩⟩

end ErlangWasm.Decode
