import ErlangWasm.Reaper.Sweep
import Mathlib.Tactic.IntervalCases

/-!
# The text of a record

What a reaper writes of a request, and when the next one reads the same back.
-/

namespace ErlangWasm.Reaper

open Reasoning
open Reasoning.Unicode (utf8)
open Wasi (Name)

/-! ## Writing -/

def hex (n : ℕ) : Char :=
  if n < 10 then Char.ofNat ('0'.toNat + n) else Char.ofNat ('a'.toNat + n - 10)

def esc (c : Char) : Name :=
  if between 'a' 'z' c then [c]
  else if between 'A' 'Z' c then [c]
  else if between '0' '9' c then [c]
  else if c = '-' ∨ c = '_' ∨ c = '.' ∨ c = '/' then [c]
  else ['%', hex (c.toNat / 16), hex (c.toNat % 16)]

def escape (path : Name) : Name := path.flatMap esc

def RecoverOp.verb : RecoverOp → Verb
  | .removeTree _ _ => .removeTree
  | .deleteFile _ _ => .deleteFile

def RecoverOp.root : RecoverOp → RootId
  | .removeTree root _ | .deleteFile root _ => root

def RecoverOp.path : RecoverOp → Name
  | .removeTree _ path | .deleteFile _ path => path

/-- `atom_to_list/1`, of a verb. -/
def Verb.toList : Verb → Name
  | .removeTree => "remove_tree".toList
  | .deleteFile => "delete_file".toList

/-- `encode_op/1`, without the end of the line. -/
def opLine (o : RecoverOp) : Name := o.verb.toList ++ ' ' :: (o.root ++ ' ' :: escape o.path)

def encodeOp (o : RecoverOp) : List Char := opLine o ++ ['\n']

def integerToList (n : ℕ) : Name := Nat.toDigits 10 n

/-- `pid_to_list/1`, of a process that can own a request. -/
def pidToList : Pid → Name
  | .proc node id serial =>
      '<' :: (integerToList node ++ '.' :: (integerToList id ++ '.' :: (integerToList serial ++
        ['>'])))
  | .job _ | .reaper _ => []

def stewardField : Option Pid → Name
  | none => ['-']
  | some p => pidToList p

/-- `incarnation_of_node/0`, of the bytes it draws. -/
def incarnationOf (bytes : List UInt8) : Name :=
  bytes.flatMap fun b => [hex (b.toNat / 16), hex (b.toNat % 16)]

section
variable (incarnation : Name) (id : RequestId) (r : Req)

/-- The header of a record, without the end of the line. -/
def headerLine : Name :=
  "v2".toList ++ ' ' :: (incarnation ++ ' ' :: (integerToList r.gen ++ ' ' ::
    (pidToList r.guardian ++ ' ' :: (stewardField r.steward ++ ' ' :: id))))

def encodeRecord : List Char := headerLine incarnation id r ++ '\n' :: r.ops.flatMap encodeOp

end

/-! ## Fields -/

theorem splitOn_ne_nil (sep : Char) (l : List Char) : splitOn sep l ≠ [] := by
  cases l with
  | nil => exact List.cons_ne_nil _ _
  | cons c cs =>
    unfold splitOn
    split
    · exact List.cons_ne_nil _ _
    · split <;> exact List.cons_ne_nil _ _

theorem splitOn_append {sep : Char} {l : List Char} (h : sep ∉ l) (rest : List Char) :
    splitOn sep (l ++ sep :: rest) = l :: splitOn sep rest := by
  induction l with
  | nil =>
    show splitOn sep (sep :: rest) = _
    rw [splitOn, if_pos rfl]
  | cons c cs ih =>
    have hc : ¬ c = sep := fun heq => h (heq ▸ List.mem_cons_self)
    have hcs : sep ∉ cs := fun hmem => h (List.mem_cons_of_mem _ hmem)
    show splitOn sep (c :: (cs ++ sep :: rest)) = _
    rw [splitOn, if_neg hc, ih hcs]

theorem splitOn_of_notMem {sep : Char} {l : List Char} (h : sep ∉ l) : splitOn sep l = [l] := by
  induction l with
  | nil => rfl
  | cons c cs ih =>
    have hc : ¬ c = sep := fun heq => h (heq ▸ List.mem_cons_self)
    have hcs : sep ∉ cs := fun hmem => h (List.mem_cons_of_mem _ hmem)
    rw [splitOn, if_neg hc, ih hcs]

theorem notMem_of_mem_splitOn {sep : Char} {l part : List Char} (h : part ∈ splitOn sep l) :
    sep ∉ part := by
  induction l generalizing part with
  | nil =>
    cases List.mem_singleton.mp h
    exact List.not_mem_nil
  | cons c cs ih =>
    rw [splitOn] at h
    by_cases hc : c = sep
    · rw [if_pos hc] at h
      cases List.mem_cons.mp h with
      | inl hpart =>
        rw [hpart]
        exact List.not_mem_nil
      | inr hpart => exact ih hpart
    · rw [if_neg hc] at h
      cases hparts : splitOn sep cs with
      | nil => exact absurd hparts (splitOn_ne_nil sep cs)
      | cons first parts =>
        rw [hparts] at h ih
        cases List.mem_cons.mp h with
        | inl hpart =>
          rw [hpart]
          intro hmem
          cases List.mem_cons.mp hmem with
          | inl heq => exact hc heq.symm
          | inr hfirst => exact ih List.mem_cons_self hfirst
        | inr hpart => exact ih (List.mem_cons_of_mem _ hpart)

theorem mem_splitOn_of_mem_splitTrim {sep : Char} {l part : List Char}
    (h : part ∈ splitTrim sep l) : part ∈ splitOn sep l := by
  have hsub := (List.dropWhile_sublist (· = ([] : List Char)) (l := (splitOn sep l).reverse)).subset
  exact List.mem_reverse.mp (hsub (List.mem_reverse.mp h))

theorem splitOn_lines {lines : List Name} (h : ∀ line ∈ lines, '\n' ∉ line) :
    splitOn '\n' (lines.flatMap (· ++ ['\n'])) = lines ++ [[]] := by
  induction lines with
  | nil => rfl
  | cons line lines ih =>
    have hrest := ih fun l hl => h l (List.mem_cons_of_mem _ hl)
    rw [List.flatMap_cons, List.append_assoc]
    show splitOn '\n' (line ++ '\n' :: lines.flatMap (· ++ ['\n'])) = _
    rw [splitOn_append (h line List.mem_cons_self), hrest]
    rfl

theorem splitTrim_append {l : List Char} (h : '\n' ∉ l) (hfull : l ≠ []) (rest : List Char) :
    splitTrim '\n' (l ++ '\n' :: rest) = l :: splitTrim '\n' rest := by
  rw [splitTrim, splitOn_append h, List.reverse_cons]
  have hkept : (([l] : List Name).dropWhile (· = [])) = [l] :=
    List.dropWhile_cons_of_neg (by simp [hfull])
  rw [List.dropWhile_append, hkept]
  split
  · rename_i hempty
    rw [splitTrim, List.isEmpty_iff.mp hempty]
    rfl
  · rw [List.reverse_append]
    rfl

-- no line is lost where none is empty
theorem splitTrim_lines {lines : List Name} (h : ∀ line ∈ lines, '\n' ∉ line)
    (hfull : ∀ line ∈ lines, line ≠ []) :
    splitTrim '\n' (lines.flatMap (· ++ ['\n'])) = lines := by
  rw [splitTrim, splitOn_lines h, List.reverse_append]
  show (List.dropWhile (· = []) ([] :: lines.reverse)).reverse = lines
  rw [List.dropWhile_cons_of_pos (by rfl)]
  have hkept : lines.reverse.dropWhile (· = ([] : Name)) = lines.reverse := by
    rw [List.dropWhile_eq_self_iff]
    intro hpos hempty
    exact hfull _ (List.mem_reverse.mp (List.getElem_mem hpos)) (of_decide_eq_true hempty)
  rw [hkept, List.reverse_reverse]

/-! ## Bytes -/

/-- A binary: a character a byte. -/
def IsBinary (text : Name) : Prop := ∀ c ∈ text, c.toNat < 256

instance (text : Name) : Decidable (IsBinary text) :=
  decidable_of_iff (text.all (fun c => c.toNat < 256) = true) (by
    simp only [List.all_eq_true, decide_eq_true_eq, IsBinary])

theorem unhex_hex {n : ℕ} (h : n < 16) : unhex (hex n) = some n := by
  interval_cases n <;> rfl

/-- It stands for itself. -/
def isPlain (c : Char) : Prop :=
  between 'a' 'z' c = true ∨ between 'A' 'Z' c = true ∨ between '0' '9' c = true ∨
    c = '-' ∨ c = '_' ∨ c = '.' ∨ c = '/'

instance (c : Char) : Decidable (isPlain c) := inferInstanceAs (Decidable (_ ∨ _))

theorem esc_cases (c : Char) :
    isPlain c ∧ esc c = [c] ∨ esc c = ['%', hex (c.toNat / 16), hex (c.toNat % 16)] := by
  unfold esc
  split
  · exact .inl ⟨.inl ‹_›, rfl⟩
  · split
    · exact .inl ⟨.inr (.inl ‹_›), rfl⟩
    · split
      · exact .inl ⟨.inr (.inr (.inl ‹_›)), rfl⟩
      · split
        · exact .inl ⟨.inr (.inr (.inr ‹_›)), rfl⟩
        · exact .inr rfl

theorem isPlain_ne {c sep : Char} (h : isPlain c) (hsep : ¬ isPlain sep) : c ≠ sep :=
  fun heq => hsep (heq ▸ h)

theorem isPlain_hex {n : ℕ} (h : n < 16) : isPlain (hex n) := by
  interval_cases n <;> decide

theorem unescape_cons {c : Char} (h : c ≠ '%') (rest : List Char) :
    unescape (c :: rest) = (unescape rest).map (c :: ·) := by
  rw [unescape.eq_def]
  split
  · rename_i heq
    cases heq
  · rename_i heq
    cases heq
    exact absurd rfl h
  · rename_i heq
    cases heq
    exact absurd rfl h
  · rename_i heq
    cases heq
    cases unescape rest <;> rfl

theorem unescape_esc {c : Char} (h : c.toNat < 256) (rest : List Char) :
    unescape (esc c ++ rest) = (unescape rest).map (c :: ·) := by
  cases esc_cases c with
  | inl hplain =>
    have hne : c ≠ '%' := isPlain_ne hplain.1 (by decide)
    rw [hplain.2]
    exact unescape_cons hne rest
  | inr heq =>
    have hhigh : unhex (hex (c.toNat / 16)) = some (c.toNat / 16) := unhex_hex (by omega)
    have hlow : unhex (hex (c.toNat % 16)) = some (c.toNat % 16) := unhex_hex (by omega)
    have hback : Char.ofNat (c.toNat / 16 * 16 + c.toNat % 16) = c := by
      rw [Nat.div_add_mod']
      exact Char.ofNat_toNat c
    rw [heq]
    show unescape ('%' :: hex (c.toNat / 16) :: hex (c.toNat % 16) :: rest) = _
    rw [unescape, hhigh, hlow]
    show (unescape rest).bind (fun more => some (Char.ofNat _ :: more)) = _
    rw [hback]
    cases unescape rest <;> rfl

theorem unescape_escape {path : Name} (h : IsBinary path) : unescape (escape path) = some path := by
  induction path with
  | nil => rfl
  | cons c path ih =>
    have hrest : IsBinary path := fun d hd => h d (List.mem_cons_of_mem _ hd)
    show unescape (esc c ++ escape path) = _
    rw [unescape_esc (h c List.mem_cons_self), ih hrest]
    rfl

-- what separates fields and lines is always escaped
theorem notMem_escape {path : Name} (h : IsBinary path) {sep : Char} (hsep : ¬ isPlain sep)
    (hmark : sep ≠ '%') : sep ∉ escape path := by
  intro hmem
  have hc := List.mem_flatMap.mp hmem
  obtain ⟨c, hc, hin⟩ := hc
  have hlt := h c hc
  cases esc_cases c with
  | inl hplain =>
    rw [hplain.2] at hin
    exact hsep (List.mem_singleton.mp hin ▸ hplain.1)
  | inr heq =>
    rw [heq] at hin
    simp only [List.mem_cons, List.not_mem_nil, or_false] at hin
    rcases hin with hin | hin | hin
    · exact hmark hin
    · exact hsep (hin ▸ isPlain_hex (by omega))
    · exact hsep (hin ▸ isPlain_hex (by omega))

/-! ## Numbers and pids -/

theorem isDigit_of_mem {n : ℕ} {c : Char} (h : c ∈ integerToList n) : c.isDigit = true :=
  Nat.isDigit_of_mem_toDigits (by decide) (by decide) h

theorem ne_of_mem_integerToList {n : ℕ} {c sep : Char} (h : c ∈ integerToList n)
    (hsep : sep.isDigit = false) : c ≠ sep := by
  intro heq
  rw [← heq, isDigit_of_mem h] at hsep
  cases hsep

theorem notMem_integerToList (n : ℕ) {sep : Char} (hsep : sep.isDigit = false) :
    sep ∉ integerToList n := fun h => ne_of_mem_integerToList h hsep rfl

theorem digits_integerToList (n : ℕ) : digits (integerToList n) = some n := by
  have hne : integerToList n ≠ [] := Nat.toDigits_ne_nil
  have hall : (integerToList n).all Char.isDigit = true :=
    List.all_eq_true.mpr fun c hc => isDigit_of_mem hc
  rw [digits, if_pos ⟨hne, hall⟩]
  have hfold : (integerToList n).foldl (fun n c => n * 10 + (c.toNat - '0'.toNat)) 0 = n := by
    have h := Nat.ofDigitChars_toDigits (b := 10) (n := n) (by decide) (by decide)
    rw [Nat.ofDigitChars_eq_foldl] at h
    simp only [Nat.mul_comm 10] at h
    exact h
  rw [hfold]

theorem toInteger_integerToList (n : ℕ) : toInteger (integerToList n) = some (n : ℤ) := by
  have hdigits := digits_integerToList n
  have hmem : ∀ c ∈ integerToList n, c.isDigit = true := fun c hc => isDigit_of_mem hc
  unfold toInteger
  split
  · rename_i heq
    have h := hmem '-' (heq ▸ List.mem_cons_self)
    cases h
  · rename_i heq
    have h := hmem '+' (heq ▸ List.mem_cons_self)
    cases h
  · rw [hdigits]
    rfl

theorem toPid_pidToList (node id serial : ℕ) :
    toPid (pidToList (.proc node id serial)) = some (.proc node id serial) := by
  have hdot : ∀ n, '.' ∉ integerToList n := fun n => notMem_integerToList n (by decide)
  have hclosed : pidToList (.proc node id serial) = '<' :: ((integerToList node ++ '.' ::
      (integerToList id ++ '.' :: integerToList serial)) ++ ['>']) := by
    simp only [pidToList, List.append_assoc, List.cons_append]
  rw [hclosed, toPid, if_pos List.getLast?_concat, List.dropLast_concat, splitOn_append (hdot node),
    splitOn_append (hdot id), splitOn_of_notMem (hdot serial)]
  simp only [digits_integerToList]
  rfl

theorem notMem_pidToList (p : Pid) {sep : Char} (hsep : sep ∉ ['<', '.', '>'])
    (hdigit : sep.isDigit = false) : sep ∉ pidToList p := by
  have hnot : ∀ n, sep ∉ integerToList n := fun n => notMem_integerToList n hdigit
  cases p with
  | proc node id serial =>
    simp only [List.mem_cons, List.not_mem_nil, or_false, not_or] at hsep
    simp only [pidToList, List.mem_cons, List.mem_append, List.not_mem_nil, or_false, not_or]
    exact ⟨hsep.1, hnot _, hsep.2.1, hnot _, hsep.2.1, hnot _, hsep.2.2⟩
  | job n | reaper gen => exact List.not_mem_nil

theorem notMem_incarnationOf (bytes : List UInt8) {sep : Char} (hsep : ¬ isPlain sep) :
    sep ∉ incarnationOf bytes := by
  intro hmem
  obtain ⟨b, _, hin⟩ := List.mem_flatMap.mp hmem
  have hb := b.toNat_lt
  simp only [List.mem_cons, List.not_mem_nil, or_false] at hin
  rcases hin with hin | hin
  · exact hsep (hin ▸ isPlain_hex (by omega))
  · exact hsep (hin ▸ isPlain_hex (by omega))

/-! ## Reading back -/

theorem subset_of_mem_splitOn {sep : Char} {l part : List Char} (h : part ∈ splitOn sep l) :
    part ⊆ l := by
  induction l generalizing part with
  | nil =>
    cases List.mem_singleton.mp h
    exact List.nil_subset _
  | cons c cs ih =>
    rw [splitOn] at h
    by_cases hc : c = sep
    · rw [if_pos hc] at h
      cases List.mem_cons.mp h with
      | inl hpart =>
        rw [hpart]
        exact List.nil_subset _
      | inr hpart => exact List.subset_cons_of_subset c (ih hpart)
    · rw [if_neg hc] at h
      cases hparts : splitOn sep cs with
      | nil => exact absurd hparts (splitOn_ne_nil sep cs)
      | cons first parts =>
        rw [hparts] at h ih
        cases List.mem_cons.mp h with
        | inl hpart =>
          rw [hpart]
          exact List.cons_subset_cons c (ih List.mem_cons_self)
        | inr hpart =>
          exact List.subset_cons_of_subset c (ih (List.mem_cons_of_mem _ hpart))

theorem atomToBinary_injective {root root' : RootId} (h : atomToBinary root = atomToBinary root') :
    root = root' := by
  apply Unicode.utf8_injective
  have hbyte : Function.Injective fun b : UInt8 => Char.ofNat b.toNat := by
    intro b b' hb
    have hnat : ∀ b : UInt8, (Char.ofNat b.toNat).toNat = b.toNat := by
      intro b
      have hlt := b.toNat_lt
      have hvalid : b.toNat.isValidChar := .inl (by omega)
      rw [Char.ofNat, dif_pos hvalid]
      rfl
    have hboth := congrArg Char.toNat hb
    rw [hnat, hnat] at hboth
    exact UInt8.toNat_inj.mp hboth
  exact List.map_injective_iff.mpr hbyte h

theorem mem_atomToBinary {root : RootId} {c : Char} (hc : c ∈ root) (hascii : c.toNat < 128) :
    c ∈ atomToBinary root := by
  have hencoded : String.utf8EncodeChar c = [c.toNat.toUInt8] := by
    unfold String.utf8EncodeChar
    have hval : c.val.toNat ≤ 0x7f := by
      change c.toNat ≤ 127
      omega
    simp only [hval, if_true]
    rfl
  refine List.mem_map.mpr ⟨c.toNat.toUInt8, List.mem_flatMap.mpr ⟨c, hc, ?_⟩, ?_⟩
  · rw [hencoded]
    exact List.mem_cons_self
  · have hsmall : c.toNat.toUInt8.toNat = c.toNat := by
      show c.toNat % 256 = c.toNat
      omega
    rw [hsmall, Char.ofNat_toNat]

theorem rootOf_eq_some_iff {roots : List RootId} {text : Name} {root : RootId} :
    rootOf roots text = some root ↔ root ∈ roots ∧ atomToBinary root = text := by
  constructor
  · intro h
    have htext := List.find?_some (p := fun root => decide (atomToBinary root = text)) h
    exact ⟨List.mem_of_find?_eq_some h, of_decide_eq_true htext⟩
  · intro ⟨hmem, htext⟩
    cases hfound : rootOf roots text with
    | none => exact absurd (decide_eq_true htext) (List.find?_eq_none.mp hfound root hmem)
    | some found =>
      have hfoundText := List.find?_some (p := fun root => decide (atomToBinary root = text)) hfound
      rw [atomToBinary_injective ((of_decide_eq_true hfoundText).trans htext.symm)]

theorem verb_toList (v : Verb) : verb v.toList = some v := by cases v <;> rfl

theorem verb_on (o : RecoverOp) : o.verb.on o.root o.path = o := by cases o <;> rfl

theorem notMem_verb (v : Verb) {sep : Char} (hsep : ¬ isPlain sep) : sep ∉ v.toList := by
  intro hmem
  have hall : v.toList.all (fun c => isPlain c) = true := by cases v <;> decide
  exact hsep (of_decide_eq_true (List.all_eq_true.mp hall sep hmem))

theorem not_isPlain_space : ¬ isPlain ' ' := by decide

theorem not_isPlain_newline : ¬ isPlain '\n' := by decide

theorem opLine_ne_nil (o : RecoverOp) : opLine o ≠ [] := by
  cases o <;> exact List.cons_ne_nil _ _

theorem notMem_opLine {o : RecoverOp} (hpath : IsBinary o.path) (hroot : '\n' ∉ o.root) :
    '\n' ∉ opLine o := by
  have hverb : '\n' ∉ o.verb.toList := notMem_verb _ not_isPlain_newline
  have hescaped : '\n' ∉ escape o.path := notMem_escape hpath not_isPlain_newline (by decide)
  have hspace : '\n' ≠ ' ' := by decide
  simp only [opLine, List.mem_append, List.mem_cons, not_or]
  exact ⟨hverb, hspace, hroot, hspace, hescaped⟩

variable {roots : List RootId} {o : RecoverOp} {ops : List RecoverOp} {line : Name}
  {lines : List Name}

theorem decodeOp_opLine_iff (hpath : IsBinary o.path) (hspace : ' ' ∉ o.root) :
    decodeOp roots (opLine o) = .ok o ↔
      (o.root ∈ roots ∧ atomToBinary o.root = o.root) ∧ safeRelative o.path = true := by
  have hverb : ' ' ∉ o.verb.toList := notMem_verb _ not_isPlain_space
  have hescaped : ' ' ∉ escape o.path := notMem_escape hpath not_isPlain_space (by decide)
  rw [← rootOf_eq_some_iff, decodeOp, opLine, splitOn_append hverb, splitOn_append hspace,
    splitOn_of_notMem hescaped]
  simp only [verb_toList, unescape_escape hpath]
  cases hroot : rootOf roots o.root with
  | none =>
    constructor
    · intro h
      cases h
    · intro h
      cases h.1
  | some root =>
    by_cases hsafe : safeRelative o.path = true
    · simp only [if_pos hsafe]
      constructor
      · intro h
        have ho := Except.ok.inj h
        have hsame : root = o.root := by
          rw [← ho]
          cases o <;> rfl
        exact ⟨congrArg some hsame, hsafe⟩
      · intro h
        rw [Option.some.inj h.1, verb_on]
    · simp only [if_neg hsafe]
      constructor
      · intro h
        cases h
      · intro h
        exact absurd h.2 hsafe

/-- What is read names a root of the reaper, by bytes of the line. -/
theorem decodeOp_ok (h : decodeOp roots line = .ok o) :
    o.root ∈ roots ∧ atomToBinary o.root ∈ splitOn ' ' line ∧ safeRelative o.path = true := by
  unfold decodeOp at h
  split at h
  · rename_i v root path hfields
    split at h
    · rename_i v root' path' hverb hroot hpath
      cases hsafe : safeRelative path' with
      | false =>
        rw [hsafe] at h
        cases h
      | true =>
        rw [hsafe] at h
        cases h
        have hfound := rootOf_eq_some_iff.mp hroot
        have hfield : atomToBinary root' ∈ splitOn ' ' line := by
          rw [hfields, hfound.2]
          exact List.mem_cons_of_mem _ List.mem_cons_self
        cases v <;> exact ⟨hfound.1, hfield, hsafe⟩
    · cases h
  · cases h

theorem decodeOps_cons (line : Name) (lines : List Name) :
    decodeOps roots (line :: lines) = .ok (o :: ops) ↔
      decodeOp roots line = .ok o ∧ decodeOps roots lines = .ok ops := by
  rw [decodeOps]
  cases hop : decodeOp roots line with
  | error e =>
    constructor
    · intro h
      cases h
    · intro h
      cases h.1
  | ok o' =>
    cases hops : decodeOps roots lines with
    | error e =>
      constructor
      · intro h
        cases h
      · intro h
        cases h.2
    | ok ops' =>
      show Except.ok (o' :: ops') = Except.ok (o :: ops) ↔ _
      simp only [Except.ok.injEq, List.cons.injEq]

theorem line_of_decodeOps (h : decodeOps roots lines = .ok ops) :
    ∀ o ∈ ops, ∃ line ∈ lines, decodeOp roots line = .ok o := by
  induction lines generalizing ops with
  | nil =>
    cases h
    intro o ho
    cases ho
  | cons line lines ih =>
    cases ops with
    | nil =>
      intro o ho
      cases ho
    | cons first ops =>
      have hboth := (decodeOps_cons line lines).mp h
      intro o ho
      cases List.mem_cons.mp ho with
      | inl heq => exact ⟨line, List.mem_cons_self, heq ▸ hboth.1⟩
      | inr hin =>
        obtain ⟨line', hline', hop⟩ := ih hboth.2 o hin
        exact ⟨line', List.mem_cons_of_mem _ hline', hop⟩

theorem decodeOps_opLines_iff (ops : List RecoverOp) (hpath : ∀ o ∈ ops, IsBinary o.path)
    (hspace : ∀ o ∈ ops, ' ' ∉ o.root) :
    decodeOps roots (ops.map opLine) = .ok ops ↔
      ∀ o ∈ ops, (o.root ∈ roots ∧ atomToBinary o.root = o.root) ∧ safeRelative o.path = true := by
  induction ops with
  | nil => exact ⟨fun _ o ho => absurd ho List.not_mem_nil, fun _ => rfl⟩
  | cons o ops ih =>
    have hfirst : decodeOp roots (opLine o) = .ok o ↔ _ :=
      decodeOp_opLine_iff (hpath o List.mem_cons_self) (hspace o List.mem_cons_self)
    have hrest := ih (fun o' ho' => hpath o' (List.mem_cons_of_mem _ ho'))
      fun o' ho' => hspace o' (List.mem_cons_of_mem _ ho')
    rw [List.map_cons, decodeOps_cons, hfirst, hrest, List.forall_mem_cons]

/-! ## Whole records -/

section
variable {incarnation : Name} {gen : ℕ} {root : RootId} {id : RequestId} {r : Req}

/-- A record has the operations of its lines, and an id that is a field of its header. -/
theorem decodeRecord_ok {text : List Char} {rec : Record}
    (h : decodeRecord roots incarnation gen root text = .ok rec) :
    ∃ header lines, splitTrim '\n' text = header :: lines ∧ rec.id ∈ splitOn ' ' header ∧
      decodeOps roots lines = .ok rec.req.ops := by
  have hbody : ∀ {inc genB pidB spidB id lines},
      decodeBody roots incarnation gen root inc genB pidB spidB id lines = .ok rec →
      rec.id = id ∧ decodeOps roots lines = .ok rec.req.ops := by
    intro inc genB pidB spidB id lines h
    unfold decodeBody at h
    split at h
    · rename_i ops hops
      unfold decodeOwner at h
      split at h
      · split at h
        · cases h
          exact ⟨rfl, hops⟩
        · cases h
      · cases h
        exact ⟨rfl, hops⟩
    · cases h
  unfold decodeRecord at h
  split at h
  · cases h
  · rename_i header lines hsplit
    refine ⟨header, lines, hsplit, ?_⟩
    unfold decodeHeader at h
    split at h
    · rename_i hfields
      split at h
      · have hrec := hbody h
        rw [hfields, hrec.1]
        exact ⟨by simp, hrec.2⟩
      · cases h
    · rename_i hfields
      split at h
      · have hrec := hbody h
        rw [hfields, hrec.1]
        exact ⟨by simp, hrec.2⟩
      · cases h
    · cases h

def Pid.isProc : Pid → Bool
  | .proc _ _ _ => true
  | .job _ | .reaper _ => false

/-- What the types of a reservation and of a registration promise. -/
structure Req.Written (r : Req) : Prop where
  guardian : r.guardian.isProc = true
  steward : ∀ p, r.steward = some p → p.isProc = true
  paths : ∀ o ∈ r.ops, IsBinary o.path

/-- It stands in a field of a line. -/
def fits (field : Name) : Prop := ' ' ∉ field ∧ '\n' ∉ field

instance (field : Name) : Decidable (fits field) := inferInstanceAs (Decidable (_ ∧ _))

/-- The next reaper reads it as it was written. -/
structure RecoverOp.Plain (roots : List RootId) (o : RecoverOp) : Prop where
  configured : o.root ∈ roots
  ascii : atomToBinary o.root = o.root
  field : fits o.root
  relative : safeRelative o.path = true

local instance recordedName : LawfulBEq Name := inferInstance

instance (roots : List RootId) (o : RecoverOp) : Decidable (o.Plain roots) :=
  decidable_of_iff (o.root ∈ roots ∧ atomToBinary o.root = o.root ∧ fits o.root ∧
      safeRelative o.path = true)
    ⟨fun h => ⟨h.1, h.2.1, h.2.2.1, h.2.2.2⟩, fun h => ⟨h.configured, h.ascii, h.field, h.relative⟩⟩

theorem toPid_of_isProc {p : Pid} (h : p.isProc = true) : toPid (pidToList p) = some p := by
  cases p with
  | proc node id serial => exact toPid_pidToList node id serial
  | job n => cases h
  | reaper gen => cases h

theorem toPid_stewardField (h : ∀ p, r.steward = some p → p.isProc = true) :
    toPid (stewardField r.steward) = r.steward := by
  cases hsteward : r.steward with
  | none => rfl
  | some p => exact toPid_of_isProc (h p hsteward)

theorem notMem_stewardField (o : Option Pid) {sep : Char} (hsep : sep ∉ ['<', '.', '>', '-'])
    (hdigit : sep.isDigit = false) : sep ∉ stewardField o := by
  cases o with
  | none =>
    intro hmem
    cases List.mem_singleton.mp hmem
    exact hsep (by decide)
  | some p =>
    apply notMem_pidToList p _ hdigit
    intro hmem
    exact hsep (List.mem_append_left ['-'] hmem)

theorem splitOn_headerLine (bytes : List UInt8) (hid : ' ' ∉ id) :
    splitOn ' ' (headerLine (incarnationOf bytes) id r) =
      ["v2".toList, incarnationOf bytes, integerToList r.gen, pidToList r.guardian,
        stewardField r.steward, id] := by
  have hversion : ' ' ∉ "v2".toList := by decide
  have hinc : ' ' ∉ incarnationOf bytes := notMem_incarnationOf bytes not_isPlain_space
  have hgen : ' ' ∉ integerToList r.gen := notMem_integerToList r.gen (by decide)
  have hguardian : ' ' ∉ pidToList r.guardian := notMem_pidToList r.guardian (by decide) (by decide)
  have hsteward : ' ' ∉ stewardField r.steward :=
    notMem_stewardField r.steward (by decide) (by decide)
  rw [headerLine, splitOn_append hversion, splitOn_append hinc, splitOn_append hgen,
    splitOn_append hguardian, splitOn_append hsteward, splitOn_of_notMem hid]

theorem notMem_headerLine (bytes : List UInt8) (hid : '\n' ∉ id) :
    '\n' ∉ headerLine (incarnationOf bytes) id r := by
  have hinc : '\n' ∉ incarnationOf bytes := notMem_incarnationOf bytes not_isPlain_newline
  have hgen : '\n' ∉ integerToList r.gen := notMem_integerToList r.gen (by decide)
  have hguardian : '\n' ∉ pidToList r.guardian := notMem_pidToList r.guardian (by decide) (by decide)
  have hsteward : '\n' ∉ stewardField r.steward :=
    notMem_stewardField r.steward (by decide) (by decide)
  have hversion : '\n' ∉ "v2".toList := by decide
  have hspace : '\n' ≠ ' ' := by decide
  simp only [headerLine, List.mem_append, List.mem_cons, not_or]
  exact ⟨hversion, hspace, hinc, hspace, hgen, hspace, hguardian, hspace, hsteward, hspace, hid⟩

theorem splitTrim_opLines (hpaths : ∀ o ∈ ops, IsBinary o.path)
    (hroots : ∀ o ∈ ops, '\n' ∉ o.root) :
    splitTrim '\n' (ops.flatMap encodeOp) = ops.map opLine := by
  have htext : ops.flatMap encodeOp = (ops.map opLine).flatMap (· ++ ['\n']) := by
    rw [List.flatMap_map]
    rfl
  rw [htext]
  apply splitTrim_lines
  · intro line hline
    obtain ⟨o, ho, heq⟩ := List.mem_map.mp hline
    rw [← heq]
    exact notMem_opLine (hpaths o ho) (hroots o ho)
  · intro line hline
    obtain ⟨o, _, heq⟩ := List.mem_map.mp hline
    rw [← heq]
    exact opLine_ne_nil o

/-- The request that the next reaper starts with. -/
def reread (gen : ℕ) (root : RootId) (r : Req) : Req where
  stage := .queued
  guardian := r.guardian
  steward := r.steward
  mon := none
  smon := none
  root
  relpath := relpathOf r.ops root
  ops := r.ops
  actions := []
  nextToken := 1
  nextSeq := 1
  ledger := ∅
  finished := false
  cleanup := none
  attempts := 0
  tries := 0
  gen

/-- Behind a header that is read as it was written, only the operations can differ. -/
theorem decodeRecord_of_fits (bytes : List UInt8) (hr : r.Written) (hid : fits id) :
    decodeRecord roots (incarnationOf bytes) gen root (encodeRecord (incarnationOf bytes) id r) =
      match decodeOps roots (splitTrim '\n' (r.ops.flatMap encodeOp)) with
      | .ok ops => .ok ⟨id, reread gen root { r with ops }, .live⟩
      | .error e => .error e := by
  have hheader : headerLine (incarnationOf bytes) id r ≠ [] := List.cons_ne_nil _ _
  rw [decodeRecord, encodeRecord, splitTrim_append (notMem_headerLine bytes hid.2) hheader]
  cases hops : decodeOps roots (splitTrim '\n' (r.ops.flatMap encodeOp)) with
  | error e =>
    simp only [decodeHeader, splitOn_headerLine bytes hid.1, if_true, decodeBody, hops]
  | ok ops =>
    simp only [decodeHeader, splitOn_headerLine bytes hid.1, if_true, decodeBody, hops, decodeOwner,
      toInteger_integerToList, toPid_of_isProc hr.guardian, toPid_stewardField hr.steward, reread]

/-- An id that is read is a field of a line. -/
theorem fits_of_decodeRecord {text : List Char} {rec : Record} {incarnation : Name}
    (h : decodeRecord roots incarnation gen root text = .ok rec) : fits rec.id := by
  obtain ⟨header, lines, hsplit, hheader, _⟩ := decodeRecord_ok h
  refine ⟨notMem_of_mem_splitOn hheader, fun hmem => ?_⟩
  have hline : header ∈ splitTrim '\n' text := hsplit ▸ List.mem_cons_self
  apply notMem_of_mem_splitOn (mem_splitOn_of_mem_splitTrim hline)
  exact subset_of_mem_splitOn hheader hmem

/-- So is a root that is read. -/
theorem fits_of_decodeOps (hlines : ∀ line ∈ lines, '\n' ∉ line)
    (h : decodeOps roots lines = .ok ops) : ∀ o ∈ ops, fits o.root := by
  intro o ho
  obtain ⟨line, hmem, hop⟩ := line_of_decodeOps h o ho
  have hfield := (decodeOp_ok hop).2.1
  constructor
  · intro hspace
    exact notMem_of_mem_splitOn hfield (mem_atomToBinary hspace (by decide))
  · intro hnewline
    apply hlines line hmem
    exact subset_of_mem_splitOn hfield (mem_atomToBinary hnewline (by decide))

/-- The operations come back where every line is the one that was written. -/
theorem decodeOps_eq_iff (hpaths : ∀ o ∈ ops, IsBinary o.path) :
    decodeOps roots (splitTrim '\n' (ops.flatMap encodeOp)) = .ok ops ↔
      ∀ o ∈ ops, o.Plain roots := by
  constructor
  · intro h
    have hline : ∀ line ∈ splitTrim '\n' (ops.flatMap encodeOp), '\n' ∉ line := fun line hmem =>
      notMem_of_mem_splitOn (mem_splitOn_of_mem_splitTrim hmem)
    have hfits := fits_of_decodeOps hline h
    rw [splitTrim_opLines hpaths fun o ho => (hfits o ho).2] at h
    have hplain := (decodeOps_opLines_iff ops hpaths fun o ho => (hfits o ho).1).mp h
    exact fun o ho => ⟨(hplain o ho).1.1, (hplain o ho).1.2, hfits o ho, (hplain o ho).2⟩
  · intro hplain
    rw [splitTrim_opLines hpaths fun o ho => (hplain o ho).field.2]
    exact (decodeOps_opLines_iff ops hpaths fun o ho => (hplain o ho).field.1).mpr fun o ho =>
      ⟨⟨(hplain o ho).configured, (hplain o ho).ascii⟩, (hplain o ho).relative⟩

theorem decodeRecord_encodeRecord (bytes : List UInt8) (hr : r.Written) (hid : fits id)
    (hops : ∀ o ∈ r.ops, o.Plain roots) :
    decodeRecord roots (incarnationOf bytes) gen root (encodeRecord (incarnationOf bytes) id r) =
      .ok ⟨id, reread gen root r, .live⟩ := by
  rw [decodeRecord_of_fits bytes hr hid, (decodeOps_eq_iff hr.paths).mpr hops]

/-- The record that is read is the record that was written. -/
def ReadsBack (roots : List RootId) (incarnation : Name) (gen : ℕ) (root : RootId) (id : RequestId)
    (r : Req) : Prop :=
  ∃ rec, decodeRecord roots incarnation gen root (encodeRecord incarnation id r) = .ok rec ∧
    rec.id = id ∧ rec.req.guardian = r.guardian ∧ rec.req.steward = r.steward ∧
    rec.req.ops = r.ops

theorem readsBack_iff (bytes : List UInt8) (hr : r.Written) :
    ReadsBack roots (incarnationOf bytes) gen root id r ↔
      fits id ∧ ∀ o ∈ r.ops, o.Plain roots := by
  constructor
  · intro ⟨rec, hrec, hid, _, _, hops⟩
    have hfits : fits id := hid ▸ fits_of_decodeRecord hrec
    refine ⟨hfits, (decodeOps_eq_iff hr.paths).mp ?_⟩
    rw [decodeRecord_of_fits bytes hr hfits] at hrec
    cases hread : decodeOps roots (splitTrim '\n' (r.ops.flatMap encodeOp)) with
    | error e =>
      rw [hread] at hrec
      cases hrec
    | ok ops =>
      rw [hread] at hrec
      cases hrec
      exact congrArg Except.ok hops
  · intro ⟨hid, hops⟩
    exact ⟨_, decodeRecord_encodeRecord bytes hr hid hops, rfl, rfl, rfl, rfl⟩

end

end ErlangWasm.Reaper
