import ErlangWasm.Reasoning.Occurrences

/-!
# What a `script_v1` guest frames

On the combined transport a guest writes its output, the marker of the request, an envelope in JSON
and a newline; on the result channel the envelope and the newline alone.  `json:decode/1` is a
parameter, `none` where it raises.
-/

namespace ErlangWasm.Script

open Reasoning.Occurrences

abbrev Bytes := List UInt8

/-- A binary literal. -/
def ascii (s : String) : Bytes := s.toList.map fun c => UInt8.ofNat c.toNat

def newline : Bytes := [10]

/-- What `json:decode/1` answers; the keys of a map are binaries. -/
inductive Json
  | null
  | bool (b : Bool)
  | int (n : ℤ)
  | float (bits : UInt64)
  | str (s : Bytes)
  | arr (vs : List Json)
  | obj (fields : List (Bytes × Json))

/-- The value a map has under a key. -/
def Json.get? : Json → Bytes → Option Json
  | .obj fields, key => fields.lookup key
  | _, _ => none

inductive Fault
  | badarg
  deriving DecidableEq

/-- `{error, Code, Message}` -/
structure Failure where
  code : Bytes
  message : Bytes
  deriving DecidableEq

/-- `#{result := Result, stdout := Stdout}` -/
structure Framed where
  result : Json
  stdout : Bytes

def noEntryPoint : Bytes := ascii "no_entry_point"
def exception : Bytes := ascii "exception"
def badResult : Bytes := ascii "bad_result"
def noResult : Bytes := ascii "no_result"

/-- `codes/0` -/
def codes : List Bytes := [noEntryPoint, exception, badResult, noResult]

def notAnEnvelope : Failure := ⟨badResult, ascii "the result is not a script_v1 envelope"⟩

def envelope (json : Json) : Except Failure Json :=
  match json.get? (ascii "ok") with
  | some result => .ok result
  | none =>
    match json.get? (ascii "error") with
    | none => .error notAnEnvelope
    | some e =>
      match e.get? (ascii "code"), e.get? (ascii "message") with
      | some (.str code), some (.str message) =>
        if code ∈ codes then .error ⟨code, message⟩
        else .error ⟨badResult, ascii "the result names no known code"⟩
      | _, _ => .error notAnEnvelope

/-- `binary:matches/2` raises on an empty pattern. -/
def lastSplit (bin marker : Bytes) : Except Fault (Option (Bytes × Bytes)) :=
  if marker = [] then .error .badarg
  else
    match (occurrences marker bin).getLast? with
    | none => .ok none
    | some start => .ok (some (bin.take start, bin.drop (start + marker.length)))

/-- `binary:last/1` raises on an empty binary. -/
def stripNewline (bin : Bytes) : Except Fault Bytes :=
  match bin.getLast? with
  | none => .error .badarg
  | some b => .ok (if b = 10 then bin.dropLast else bin)

section Decoder

variable (decode : Bytes → Option Json)

def jsonOf (bin : Bytes) : Option Json := if bin = [] then none else decode bin

def decodeCombined (stdout marker : Bytes) : Except Fault (Except Failure Framed) := do
  match ← lastSplit stdout marker with
  | none => .ok (.error ⟨noResult, ascii "the guest framed no result"⟩)
  | some (before, after) =>
    match jsonOf decode (← stripNewline after) with
    | none => .ok (.error ⟨badResult, ascii "the framed result is not JSON"⟩)
    | some json =>
      match envelope json with
      | .ok result => .ok (.ok ⟨result, before⟩)
      | .error e => .ok (.error e)

def decodeChannel (bytes : Bytes) : Except Fault (Except Failure Json) :=
  if bytes = [] then .ok (.error ⟨noResult, ascii "the guest wrote no result"⟩)
  else do
    match jsonOf decode (← stripNewline bytes) with
    | none => .ok (.error ⟨badResult, ascii "the result is not JSON"⟩)
    | some json => .ok (envelope json)

end Decoder

/-! ## What a bootstrap frames -/

inductive Envelope
  | ok (result : Json)
  | error (code : Bytes) (hcode : code ∈ codes) (message : Bytes)

def Envelope.json : Envelope → Json
  | .ok result => .obj [(ascii "ok", result)]
  | .error code _ message =>
    .obj [(ascii "error", .obj [(ascii "code", .str code), (ascii "message", .str message)])]

def Envelope.answer : Envelope → Except Failure Json
  | .ok result => .ok result
  | .error code _ message => .error ⟨code, message⟩

@[simp] theorem envelope_json (e : Envelope) : envelope e.json = e.answer := by
  cases e with
  | ok result => rfl
  | error code hcode message =>
    show (if code ∈ codes then _ else _) = _
    rw [if_pos hcode]
    rfl

end ErlangWasm.Script

/-!
## What decoding a stream gives back

The search for the marker goes from the left and past what it finds.  The stream is cut at the
marker that was framed unless one begins earlier, which takes a marker that overlaps itself, or one
ends with the newline.  Nothing is left behind a marker at the very end, and of nothing there is no
last byte.
-/

namespace ErlangWasm.Script

open Reasoning.Occurrences

/-- No occurrence of the marker begins in the output, and none ends with the newline. -/
def Clear (marker out json : Bytes) : Prop :=
  (∀ i < out.length, ¬ marker <+: (out ++ marker).drop i) ∧ ¬ marker <:+ json ++ newline

instance (marker out json : Bytes) : Decidable (Clear marker out json) :=
  inferInstanceAs (Decidable (_ ∧ _))

/-- The answer names one of the profile's codes, or no failure. -/
def InProfile {α : Type} : Except Failure α → Prop
  | .ok _ => True
  | .error e => e.code ∈ codes

/-- The output and what was framed come back; where a failure was framed the answer has no output,
which is what the stream is cut at. -/
def Inverts (decode : Bytes → Option Json) (stream marker out : Bytes) : Envelope → Prop
  | .ok result => decodeCombined decode stream marker = .ok (.ok ⟨result, out⟩)
  | .error code _ message =>
    decodeCombined decode stream marker = .ok (.error ⟨code, message⟩) ∧
      ∃ rest, lastSplit stream marker = .ok (some (out, rest))

variable {decode : Bytes → Option Json} {stream marker out json : Bytes}

/-! ## The cut -/

theorem lastSplit_eq_some_iff (hm : marker ≠ []) {before after : Bytes} :
    lastSplit stream marker = .ok (some (before, after)) ↔
      ∃ start, (occurrences marker stream).getLast? = some start ∧ before = stream.take start ∧
        after = stream.drop (start + marker.length) := by
  unfold lastSplit
  rw [if_neg hm]
  cases (occurrences marker stream).getLast? <;> simp [eq_comm]

theorem add_length_le_of_mem (hm : marker ≠ []) {i : ℕ} (h : i ∈ occurrences marker stream) :
    i + marker.length ≤ stream.length := by
  have hle := (mem_occurrences_isPrefix h).length_le
  have hpos : 0 < marker.length := List.length_pos_iff.mpr hm
  rw [List.length_drop] at hle
  omega

/-- The output is what the stream is cut at. -/
theorem lastSplit_append_iff (hout : ¬ marker <:+: out) (hjson : ¬ marker <:+: json) :
    (∃ rest, lastSplit (out ++ marker ++ (json ++ newline)) marker = .ok (some (out, rest))) ↔
      Clear marker out json := by
  have hm : marker ≠ [] := by
    rintro rfl
    exact hout List.nil_infix
  have hend : marker <:+: json ++ newline ↔ marker <:+ json ++ newline := by
    rw [newline, List.infix_concat_iff, or_iff_left hjson]
  rw [Clear, ← hend, ← getLast?_occurrences_iff hout]
  constructor
  · rintro ⟨rest, hcut⟩
    obtain ⟨start, hlast, hbefore, -⟩ := (lastSplit_eq_some_iff hm).mp hcut
    have hle := add_length_le_of_mem hm (List.mem_of_getLast? hlast)
    have hlength : out.length = start := by
      rw [congrArg List.length hbefore, List.length_take]
      omega
    rw [hlength]
    exact hlast
  · intro hlast
    exact ⟨_, (lastSplit_eq_some_iff hm).mpr ⟨_, hlast, by simp [List.append_assoc], rfl⟩⟩

theorem rest_of_lastSplit (hm : marker ≠ []) {framed rest : Bytes}
    (h : lastSplit (out ++ marker ++ framed) marker = .ok (some (out, rest))) : rest = framed := by
  obtain ⟨start, hlast, hbefore, hafter⟩ := (lastSplit_eq_some_iff hm).mp h
  have hle := add_length_le_of_mem hm (List.mem_of_getLast? hlast)
  have hlength : start = out.length := by
    rw [congrArg List.length hbefore, List.length_take]
    omega
  rw [hafter, hlength, ← List.length_append, List.drop_left]

/-! ## The answers -/

theorem stripNewline_of_ne_nil {bin : Bytes} (h : bin ≠ []) :
    ∃ text, stripNewline bin = .ok text := by
  unfold stripNewline
  rw [List.getLast?_eq_some_getLast h]
  exact ⟨_, rfl⟩

@[simp] theorem stripNewline_newline (bin : Bytes) : stripNewline (bin ++ newline) = .ok bin := by
  simp [stripNewline, newline]

theorem badResult_mem : badResult ∈ codes := by decide

theorem noResult_mem : noResult ∈ codes := by decide

theorem inProfile_envelope (j : Json) : InProfile (envelope j) := by
  unfold envelope
  split
  · trivial
  · split
    · exact badResult_mem
    · split
      · split
        · assumption
        · exact badResult_mem
      · exact badResult_mem

theorem decodeCombined_of_cut (decode : Bytes → Option Json) {before after : Bytes}
    (h : lastSplit stream marker = .ok (some (before, after))) :
    decodeCombined decode stream marker = (stripNewline after).map fun text =>
      match jsonOf decode text with
      | none => .error ⟨badResult, ascii "the framed result is not JSON"⟩
      | some json => (envelope json).map fun result => ⟨result, before⟩ := by
  unfold decodeCombined
  simp only [h, bind, Except.bind]
  cases hstrip : stripNewline after with
  | error e => rfl
  | ok text =>
    simp only [Except.map]
    cases hjson : jsonOf decode text with
    | none => rfl
    | some json => cases henv : envelope json <;> simp only [henv]

/-- The output in an answer is what the stream is cut at. -/
theorem lastSplit_of_decodeCombined {f : Framed}
    (h : decodeCombined decode stream marker = .ok (.ok f)) :
    ∃ rest, lastSplit stream marker = .ok (some (f.stdout, rest)) := by
  cases hcut : lastSplit stream marker with
  | error e => simp [decodeCombined, hcut, bind, Except.bind] at h
  | ok cut =>
    cases cut with
    | none => simp [decodeCombined, hcut, bind, Except.bind] at h
    | some cut =>
      obtain ⟨before, after⟩ := cut
      rw [decodeCombined_of_cut decode hcut] at h
      cases hstrip : stripNewline after with
      | error e => simp [hstrip, Except.map] at h
      | ok text =>
        simp only [hstrip, Except.map, Except.ok.injEq] at h
        split at h
        · cases h
        · split at h
          · cases h
          · cases h
            exact ⟨after, rfl⟩

/-- What was framed is answered where the stream is cut at the output. -/
theorem inverts_iff (hempty : decode [] = none) (hout : ¬ marker <:+: out)
    (hjson : ¬ marker <:+: json) (e : Envelope) (hdecode : decode json = some e.json) :
    Inverts decode (out ++ marker ++ (json ++ newline)) marker out e ↔ Clear marker out json := by
  have hm : marker ≠ [] := by
    rintro rfl
    exact hout List.nil_infix
  have hne : json ≠ [] := by
    rintro rfl
    rw [hempty] at hdecode
    cases hdecode
  rw [← lastSplit_append_iff hout hjson]
  constructor
  · intro h
    cases e with
    | ok result => exact lastSplit_of_decodeCombined h
    | error code hcode message => exact h.2
  · rintro ⟨rest, hcut⟩
    obtain rfl := rest_of_lastSplit hm hcut
    have hanswer := decodeCombined_of_cut decode hcut
    rw [stripNewline_newline] at hanswer
    simp only [Except.map, jsonOf, if_neg hne, hdecode, envelope_json] at hanswer
    cases e with
    | ok result => exact hanswer
    | error code hcode message => exact ⟨hanswer, _, hcut⟩

/-- A stream is answered where it does not end with a marker that the search finds. -/
theorem decodeCombined_inProfile_iff (hm : marker ≠ []) :
    (∃ a, decodeCombined decode stream marker = .ok a ∧ InProfile a) ↔
      ∀ i ∈ occurrences marker stream, i + marker.length ≠ stream.length := by
  cases hlast : (occurrences marker stream).getLast? with
  | none =>
    have hcut : lastSplit stream marker = .ok none := by
      unfold lastSplit
      rw [if_neg hm, hlast]
    rw [List.getLast?_eq_none_iff] at hlast
    rw [hlast]
    refine iff_of_true
      ⟨.error ⟨noResult, ascii "the guest framed no result"⟩, ?_, noResult_mem⟩ nofun
    simp only [decodeCombined, hcut, bind, Except.bind]
  | some start =>
    have hcut := (lastSplit_eq_some_iff hm).mpr ⟨start, hlast, rfl, rfl⟩
    have hmem := List.mem_of_getLast? hlast
    rw [decodeCombined_of_cut decode hcut]
    constructor
    · rintro ⟨a, ha, -⟩ i hi hend
      have hpos : 0 < marker.length := List.length_pos_iff.mpr hm
      have hle := add_length_le_of_mem hm hmem
      obtain rfl | hbefore := le_of_getLast? hi hlast
      · rw [hend, List.drop_length] at ha
        cases ha
      · omega
    · intro hnot
      have hne : stream.drop (start + marker.length) ≠ [] := by
        have hle := add_length_le_of_mem hm hmem
        have hstart := hnot start hmem
        rw [Ne, List.drop_eq_nil_iff]
        omega
      obtain ⟨text, htext⟩ := stripNewline_of_ne_nil hne
      rw [htext]
      refine ⟨_, rfl, ?_⟩
      cases hjson : jsonOf decode text with
      | none =>
        simp only [hjson]
        exact badResult_mem
      | some json =>
        simp only [hjson]
        have hprofile := inProfile_envelope json
        cases henv : envelope json with
        | ok result => trivial
        | error e => rwa [henv] at hprofile

/-- What arrives on the result channel is always answered. -/
theorem decodeChannel_inProfile (decode : Bytes → Option Json) (bytes : Bytes) :
    ∃ a, decodeChannel decode bytes = .ok a ∧ InProfile a := by
  unfold decodeChannel
  split
  · exact ⟨.error ⟨noResult, ascii "the guest wrote no result"⟩, rfl, noResult_mem⟩
  · rename_i hne
    obtain ⟨text, htext⟩ := stripNewline_of_ne_nil hne
    simp only [htext, bind, Except.bind]
    split
    · exact ⟨.error ⟨badResult, ascii "the result is not JSON"⟩, rfl, badResult_mem⟩
    · exact ⟨_, rfl, inProfile_envelope _⟩

/-- A decoder that raises on nothing at all.  A stream that was framed comes back where the marker
does not overlap itself into the output or end with the newline, and every stream is answered that
does not end with a marker that is found. -/
theorem decode_exact (decode : Bytes → Option Json) (hempty : decode [] = none) :
    (∀ marker out json e, ¬ marker <:+: out → ¬ marker <:+: json → decode json = some e.json →
        (Inverts decode (out ++ marker ++ (json ++ newline)) marker out e ↔
          Clear marker out json)) ∧
      (∀ stream marker, marker ≠ [] →
        ((∃ a, decodeCombined decode stream marker = .ok a ∧ InProfile a) ↔
          ∀ i ∈ occurrences marker stream, i + marker.length ≠ stream.length)) ∧
      ∀ bytes, ∃ a, decodeChannel decode bytes = .ok a ∧ InProfile a :=
  ⟨fun _ _ _ e hout hjson hdecode => inverts_iff hempty hout hjson e hdecode,
    fun _ _ hm => decodeCombined_inProfile_iff hm, decodeChannel_inProfile decode⟩

/-- The JSON of an envelope, and a decoder that knows this one text. -/
def sampleJson : Bytes := ascii "\x7b\"ok\":1\x7d"

def sampleDecode (bytes : Bytes) : Option Json :=
  if bytes = sampleJson then some (.obj [(ascii "ok", .int 1)]) else none

theorem decode_exact_sample :
    decodeCombined sampleDecode (ascii "hello" ++ ascii "0f3a" ++ (sampleJson ++ newline))
        (ascii "0f3a") = .ok (.ok ⟨.int 1, ascii "hello"⟩) ∧
      (∃ a, decodeCombined sampleDecode (ascii "hello") (ascii "0f3a") = .ok a ∧ InProfile a) ∧
      ∃ a, decodeChannel sampleDecode newline = .ok a ∧ InProfile a := by
  obtain ⟨hinverts, htotal, hchannel⟩ := decode_exact sampleDecode rfl
  refine ⟨?_, (htotal _ _ (by decide)).mpr (by decide), hchannel newline⟩
  have hclear : Clear (ascii "0f3a") (ascii "hello") sampleJson := by decide
  exact (hinverts _ _ _ (.ok (.int 1)) (by decide) (by decide) rfl).mpr hclear

/-- A stream that a bound cut right behind the marker. -/
theorem not_decode_exact :
    ¬ ∀ decode : Bytes → Option Json, decode [] = none →
      (∀ marker out json e, ¬ marker <:+: out → ¬ marker <:+: json → decode json = some e.json →
          Inverts decode (out ++ marker ++ (json ++ newline)) marker out e) ∧
        (∀ stream marker, marker ≠ [] →
          ∃ a, decodeCombined decode stream marker = .ok a ∧ InProfile a) ∧
        ∀ bytes, ∃ a, decodeChannel decode bytes = .ok a ∧ InProfile a := by
  intro h
  obtain ⟨-, htotal, -⟩ := h (fun _ => none) rfl
  obtain ⟨a, ha, -⟩ := htotal (ascii "hello0f3a") (ascii "0f3a") (by decide)
  cases ha

-- the output ends in what the marker begins with: the search finds that one
example : ¬ Clear (ascii "f3f") (ascii "f3") sampleJson := by decide

end ErlangWasm.Script
