import ErlangWasm.Decode.Module
import ErlangWasm.Reasoning.Table
import ErlangWasm.Reasoning.Fallible

/-!
# The linker's own reading of a core module's imports

`wasm_component_link` reads the names of a core module's imports itself, before the module is
decoded, and steps over what is imported.  It does not check what it reads: a clause that is not
there and a binary that is too short are raised.
-/

namespace ErlangWasm.Component.CoreImports

open Decode Reasoning

/-- `{Module, Field}` -/
abbrev Key := Bytes × Bytes

inductive Fault
  -- of `wasm_leb128`
  | malformed (e : Decode.Error)
  | badmatch
  | functionClause
  deriving DecidableEq

def leb32 (bin : Bytes) : Except Fault (ℕ × Bytes) := (u32 bin).mapError .malformed

/-- `<<Taken:N/binary, Rest/binary>> = Bin` -/
def splitBinary (n : ℕ) (bin : Bytes) : Except Fault (Bytes × Bytes) :=
  if n ≤ bin.length then .ok (bin.take n, bin.drop n) else .error .badmatch

/-- `wasm_component_types:plain_name/1` -/
def plainName (bin : Bytes) : Except Fault (Bytes × Bytes) := do
  let (len, rest) ← leb32 bin
  splitBinary len rest

def skipLimits : Bytes → Except Fault Bytes
  | 0 :: rest => do
    let (_, r) ← leb32 rest
    .ok r
  | 1 :: rest => do
    let (_, r₁) ← leb32 rest
    let (_, r₂) ← leb32 r₁
    .ok r₂
  | _ => .error .functionClause

def skipImportdesc : Bytes → Except Fault Bytes
  | 0 :: rest => do
    let (_, r) ← leb32 rest
    .ok r
  | 1 :: _ :: rest => skipLimits rest
  | 2 :: rest => skipLimits rest
  | 3 :: _ :: _ :: rest => .ok rest
  | _ => .error .functionClause

/-- `import_entries/3` -/
def importEntries : ℕ → Bytes → Except Fault (List Key)
  | 0, _ => .ok []
  | n + 1, bin => do
    let (module, rest₁) ← plainName bin
    let (field, rest₂) ← plainName rest₁
    let rest₃ ← skipImportdesc rest₂
    let keys ← importEntries n rest₃
    .ok ((module, field) :: keys)

/-- `core_import_sections/1`, on at most as many sections as there are bytes left. -/
def coreImportSections : ℕ → Bytes → Except Fault (List Key)
  | _, [] => .ok []
  | 0, _ :: _ => .ok []
  | n + 1, id :: rest => do
    let (size, rest₁) ← leb32 rest
    let (content, rest₂) ← splitBinary size rest₁
    if id = 2 then do
      let (count, entries) ← leb32 content
      importEntries count entries
    else coreImportSections n rest₂

def coreImports (bin : Bytes) : Except Fault (List Key) :=
  if 8 ≤ bin.length ∧ bin.take 4 = magic then coreImportSections bin.length (bin.drop 8)
  else .error .functionClause

/-! ## What an instance is offered -/

section Offered

variable {ε V : Type} (args : Bytes → Option ℕ) (hostImport : Key → Except ε V)
  (exportVal : ℕ → Bytes → Except ε V)

/-- From the instance that the arguments name for the module, or from the host. -/
def importVal (key : Key) : Except ε V :=
  match args key.1 with
  | none => hostImport key
  | some src => exportVal src key.2

/-- `imports_for/4` -/
def importsFor : List Key → Table Key V → Except ε (Table Key V)
  | [], acc => .ok acc
  | key :: rest, acc => do
    let val ← importVal args hostImport exportVal key
    importsFor rest (acc.insert key val)

/-- What is offered is what the keys name. -/
theorem isSome_importsFor {keys : List Key} {acc table : Table Key V}
    (h : importsFor args hostImport exportVal keys acc = .ok table) (key : Key) :
    (table.lookup key).isSome = true ↔ key ∈ keys ∨ (acc.lookup key).isSome = true := by
  induction keys generalizing acc with
  | nil =>
    cases h
    simp
  | cons k keys ih =>
    rw [importsFor] at h
    cases hval : importVal args hostImport exportVal k with
    | error e =>
      rw [hval] at h
      cases h
    | ok val =>
      rw [hval] at h
      rw [ih h, Table.lookup_insert_eq, List.mem_cons]
      by_cases hkey : key = k <;> simp [hkey]

end Offered

end ErlangWasm.Component.CoreImports

/-!
## Where the two readings of the imports agree

The linker steps over a reference type and a value type by one byte, knows the limits flags 0 and 1
and bounds of 32 bits, and no tags.  An import of any other form is not stepped over, or the next
one is read from the middle of it.
-/

namespace ErlangWasm.Component.CoreImports

open Decode Reasoning Reasoning.Leb128 Reasoning.Fallible

/-! ## The forms that are stepped over -/

/-- Limits of flags 0 or 1, with bounds of 32 bits. -/
def PlainLimits : Bytes → Prop
  | 0 :: rest => ∃ min r, u32 rest = .ok (min, r)
  | 1 :: rest => ∃ min r max r', u32 rest = .ok (min, r) ∧ u32 r = .ok (max, r')
  | _ => False

/-- A descriptor of a function, or one with plain limits and types of one byte. -/
def PlainDesc : Bytes → Prop
  | 0 :: _ => True
  | 1 :: type :: rest => type ∉ [0x40, 0x63, 0x64] ∧ PlainLimits rest
  | 2 :: rest => PlainLimits rest
  | 3 :: type :: _ => type ∉ [0x63, 0x64]
  | _ => False

/-- Behind the last descriptor nothing is read. -/
def LastDesc : Bytes → Prop
  | 0 :: _ => True
  | 1 :: _ :: rest => PlainLimits rest
  | 2 :: rest => PlainLimits rest
  | 3 :: _ => True
  | _ => False

/-- Each of `n` imports, where the decoder reads it, has a plain descriptor. -/
def Plain : ℕ → Bytes → Prop
  | 0, _ => True
  | n + 1, bin =>
    ∀ module rest₁ field rest₂ desc rest₃, name.run bin = .ok (module, rest₁) →
      name.run rest₁ = .ok (field, rest₂) → importdesc.run rest₂ = .ok (desc, rest₃) →
      if n = 0 then LastDesc rest₂ else PlainDesc rest₂ ∧ Plain n rest₃

/-- The body of the import section. -/
def importBody : ℕ → Bytes → Option Bytes
  | n + 1, id :: rest =>
    match (sectionBody id).run rest with
    | .ok (body, rest) => if id = 2 then some body else importBody n rest
    | .error _ => none
  | _, _ => none

/-- Every import of a module has a plain descriptor, the last one at least one that is stepped
over. -/
def PlainImports (bin : Bytes) : Prop :=
  ∀ body ∈ importBody bin.length (bin.drop 8), ∀ count entries,
    readU32.run body = .ok (count, entries) → Plain count entries

def importKey (i : Import) : Key := (i.module, i.name)

/-! ## One import -/

variable {bin rest : Bytes}

theorem leb32_eq {n : ℕ} (h : u32 bin = .ok (n, rest)) : leb32 bin = .ok (n, rest) := by
  rw [leb32, h]
  rfl

/-- A bound of 32 bits is read alike where 64 are allowed. -/
theorem u64_of_u32 {n : ℕ} (h : u32 bin = .ok (n, rest)) : u64 bin = .ok (n, rest) := by
  obtain ⟨pre, hpre, henc⟩ := ((unsignedByte_exact (by decide)).accepts bin n rest).mp h
  exact ((unsignedByte_exact (by decide)).accepts bin n rest).mpr ⟨pre, hpre, henc.mono (by decide)⟩

theorem splitBinary_of_take {n : ℕ} {onEnd : ℕ → Decode.Error} {taken : Bytes}
    (h : (Reader.take n onEnd).run bin = .ok (taken, rest)) :
    splitBinary n bin = .ok (taken, rest) := by
  replace h : (if n ≤ bin.length then _ else _) = Except.ok (taken, rest) := h
  unfold splitBinary
  split at h <;> cases h
  rw [if_pos ‹_›]

theorem plainName_of_name {s : Bytes} (h : name.run bin = .ok (s, rest)) :
    plainName bin = .ok (s, rest) := by
  obtain ⟨len, mid, hlen, h⟩ := Reader.run_bind_eq_ok.mp h
  obtain ⟨str, mid', hstr, h⟩ := Reader.run_bind_eq_ok.mp h
  split at h
  · cases h
    rw [plainName, leb32_eq hlen]
    exact splitBinary_of_take hstr
  · cases h

theorem skipLimits_of_plain (h : PlainLimits bin) : ∃ rest', skipLimits bin = .ok rest' := by
  unfold PlainLimits at h
  split at h
  · obtain ⟨min, r, hmin⟩ := h
    refine ⟨r, ?_⟩
    rw [skipLimits, leb32_eq hmin]
    rfl
  · obtain ⟨min, r, max, r', hmin, hmax⟩ := h
    refine ⟨r', ?_⟩
    rw [skipLimits, leb32_eq hmin]
    show (leb32 r).bind _ = _
    rw [leb32_eq hmax]
    rfl
  · cases h

/-- Plain limits are stepped over as the decoder reads them. -/
theorem skipLimits_of_limits {l : Limits} (h : limits.run bin = .ok (l, rest))
    (hplain : PlainLimits bin) : skipLimits bin = .ok rest := by
  obtain ⟨b, mid, hb, hrest⟩ := Reader.run_bind_eq_ok.mp h
  unfold PlainLimits at hplain
  split at hplain
  · obtain ⟨min, r, hmin⟩ := hplain
    cases hb
    rw [if_pos (by decide)] at hrest
    obtain ⟨min', r', hmin', hrest⟩ := Reader.run_bind_eq_ok.mp hrest
    rw [if_neg (by decide)] at hrest
    obtain ⟨max', r'', hmax', hrest⟩ := Reader.run_bind_eq_ok.mp hrest
    cases hmax'
    cases hrest
    cases (u64_of_u32 hmin).symm.trans hmin'
    rw [skipLimits, leb32_eq hmin]
    rfl
  · obtain ⟨min, r, max, r', hmin, hmax⟩ := hplain
    cases hb
    rw [if_pos (by decide)] at hrest
    obtain ⟨min', r₁, hmin', hrest⟩ := Reader.run_bind_eq_ok.mp hrest
    rw [if_pos (by decide)] at hrest
    obtain ⟨max', r₂, hmax', hrest⟩ := Reader.run_bind_eq_ok.mp hrest
    cases hrest
    cases (u64_of_u32 hmin).symm.trans hmin'
    obtain ⟨max'', r₃, hmax'', hrest⟩ := Reader.run_bind_eq_ok.mp hmax'
    cases hrest
    cases (u64_of_u32 hmax).symm.trans hmax''
    rw [skipLimits, leb32_eq hmin]
    show (leb32 _).bind _ = _
    rw [leb32_eq hmax]
    rfl
  · cases hplain

/-- A reference type of one byte takes no other. -/
theorem reftypeFrom_run {b : UInt8} (hb : b ∉ [0x63, 0x64]) {r : Decode.Reader RefType}
    (hr : reftypeFrom b = some r) {et : RefType} (h : r.run bin = .ok (et, rest)) :
    rest = bin := by
  simp only [List.mem_cons, List.not_mem_nil, or_false, not_or] at hb
  rw [reftypeFrom, if_neg hb.1, if_neg hb.2] at hr
  cases hshort : shortRef b with
  | none =>
    rw [hshort] at hr
    cases hr
  | some ht =>
    rw [hshort] at hr
    cases hr
    cases h
    rfl

theorem valtypeFrom_run {b : UInt8} (hb : b ∉ [0x63, 0x64]) {t : ValType}
    (h : (valtypeFrom b).run bin = .ok (t, rest)) : rest = bin := by
  unfold valtypeFrom at h
  split at h
  · cases h
    rfl
  · rename_i hr
    obtain ⟨et, mid, hrun, h⟩ := Reader.run_bind_eq_ok.mp h
    cases h
    exact reftypeFrom_run hb hr hrun
  · cases h

theorem mutability_run {reading : String} {m : Bool}
    (h : (mutability reading).run bin = .ok (m, rest)) : ∃ b, bin = b :: rest := by
  cases bin with
  | nil => cases h
  | cons b bin =>
    obtain ⟨b', mid, hb, h⟩ := Reader.run_bind_eq_ok.mp h
    cases hb
    refine ⟨b, ?_⟩
    split at h
    · cases h
      rfl
    · split at h
      · cases h
        rfl
      · cases h

/-- So is a plain descriptor. -/
theorem skipImportdesc_of_importdesc {desc : ExternType}
    (h : importdesc.run bin = .ok (desc, rest)) (hplain : PlainDesc bin) :
    skipImportdesc bin = .ok rest := by
  obtain ⟨b, mid, hb, hdesc⟩ := Reader.run_bind_eq_ok.mp h
  unfold PlainDesc at hplain
  split at hplain
  · cases hb
    rw [if_pos rfl] at hdesc
    obtain ⟨f, r, hf, hdesc⟩ := Reader.run_bind_eq_ok.mp hdesc
    cases hdesc
    rw [skipImportdesc, leb32_eq hf]
    rfl
  · rename_i type bin
    obtain ⟨htype, hlimits⟩ := hplain
    cases hb
    rw [if_neg (by decide), if_pos rfl] at hdesc
    obtain ⟨t, r, ht, hdesc⟩ := Reader.run_bind_eq_ok.mp hdesc
    cases hdesc
    obtain ⟨b, r, hb, ht⟩ := Reader.run_bind_eq_ok.mp ht
    cases hb
    obtain ⟨next, r, hnext, ht⟩ := Reader.run_bind_eq_ok.mp ht
    cases hnext
    simp only [List.mem_cons, not_or] at htype
    rw [if_neg (fun hinit => htype.1 hinit.1)] at ht
    split at ht
    · rename_i hr
      obtain ⟨et, r, het, ht⟩ := Reader.run_bind_eq_ok.mp ht
      obtain ⟨l, r', hl, ht⟩ := Reader.run_bind_eq_ok.mp ht
      cases ht
      cases reftypeFrom_run (by simpa using htype.2) hr het
      exact skipLimits_of_limits hl hlimits
    · cases ht
  · cases hb
    rw [if_neg (by decide), if_neg (by decide), if_pos rfl] at hdesc
    obtain ⟨l, r, hl, hdesc⟩ := Reader.run_bind_eq_ok.mp hdesc
    cases hdesc
    exact skipLimits_of_limits hl hplain
  · rename_i type bin
    cases hb
    rw [if_neg (by decide), if_neg (by decide), if_neg (by decide), if_pos rfl] at hdesc
    obtain ⟨t, r, ht, hdesc⟩ := Reader.run_bind_eq_ok.mp hdesc
    cases hdesc
    obtain ⟨v, r, hv, ht⟩ := Reader.run_bind_eq_ok.mp ht
    obtain ⟨b, r', hb, hv⟩ := Reader.run_bind_eq_ok.mp hv
    cases hb
    cases valtypeFrom_run hplain hv
    obtain ⟨m, r, hm, ht⟩ := Reader.run_bind_eq_ok.mp ht
    cases ht
    obtain ⟨b, rfl⟩ := mutability_run hm
    rfl
  · cases hplain

/-- A last descriptor is stepped over, if not to where it ends. -/
theorem skipImportdesc_of_last {desc : ExternType} (h : importdesc.run bin = .ok (desc, rest))
    (hlast : LastDesc bin) : ∃ rest', skipImportdesc bin = .ok rest' := by
  obtain ⟨b, mid, hb, hdesc⟩ := Reader.run_bind_eq_ok.mp h
  unfold LastDesc at hlast
  split at hlast
  · cases hb
    rw [if_pos rfl] at hdesc
    obtain ⟨f, r, hf, hdesc⟩ := Reader.run_bind_eq_ok.mp hdesc
    refine ⟨r, ?_⟩
    rw [skipImportdesc, leb32_eq hf]
    rfl
  · exact skipLimits_of_plain hlast
  · exact skipLimits_of_plain hlast
  · cases hb
    rw [if_neg (by decide), if_neg (by decide), if_neg (by decide), if_pos rfl] at hdesc
    obtain ⟨t, r, ht, hdesc⟩ := Reader.run_bind_eq_ok.mp hdesc
    obtain ⟨v, r', hv, ht⟩ := Reader.run_bind_eq_ok.mp ht
    obtain ⟨m, r, hm, ht⟩ := Reader.run_bind_eq_ok.mp ht
    obtain ⟨b, rfl⟩ := mutability_run hm
    obtain ⟨type, bin, htype, hv⟩ := Reader.run_bind_eq_ok.mp hv
    have hshrinks := (valtypeFrom type).shrinks hv
    cases mid with
    | nil => cases htype
    | cons c mid =>
      cases htype
      cases bin with
      | nil => cases hshrinks
      | cons c' bin => exact ⟨bin, rfl⟩
  · cases hlast

/-! ## The imports -/

/-- The names of the imports, where each is plain. -/
theorem importEntries_of_times {n : ℕ} {is : List Import}
    (h : (import_.times n).run bin = .ok (is, rest)) (hplain : Plain n bin) :
    importEntries n bin = .ok (is.map importKey) := by
  induction n generalizing bin is with
  | zero =>
    cases h
    rfl
  | succ n ih =>
    obtain ⟨i, r, hi, h⟩ := Reader.run_bind_eq_ok.mp h
    obtain ⟨is', r', his, h⟩ := Reader.run_bind_eq_ok.mp h
    cases h
    obtain ⟨module, rest₁, hmodule, hi⟩ := Reader.run_bind_eq_ok.mp hi
    obtain ⟨field, rest₂, hfield, hi⟩ := Reader.run_bind_eq_ok.mp hi
    obtain ⟨desc, rest₃, hdesc, hi⟩ := Reader.run_bind_eq_ok.mp hi
    cases hi
    have hthis := hplain module rest₁ field rest₂ desc r hmodule hfield hdesc
    rw [importEntries, plainName_of_name hmodule]
    show (plainName rest₁).bind _ = _
    rw [plainName_of_name hfield]
    show (skipImportdesc rest₂).bind _ = _
    split at hthis
    · subst n
      obtain ⟨rest', hskip⟩ := skipImportdesc_of_last hdesc hthis
      cases his
      rw [hskip]
      rfl
    · rw [skipImportdesc_of_importdesc hdesc hthis.1]
      show (importEntries n r).bind _ = _
      rw [ih his hthis.2]
      rfl

/-! ## The sections -/

/-- Whatever module comes out, `field` is as in `m`. -/
def Keeps {α : Type} (field : Module → α) (m : Module) (r : Except Error Module) : Prop :=
  ∀ m', r = .ok m' → field m' = field m

theorem keeps_map {α β : Type} {field : Module → α} {m : Module} {r : Except Error β}
    {f : β → Module} (hf : ∀ v, field (f v) = field m) : Keeps field m (r.map f) := by
  intro m' h
  cases r with
  | error e => cases h
  | ok v =>
    cases h
    exact hf v

theorem keeps_ite {α : Type} {field : Module → α} {c : Prop} [Decidable c] {m : Module}
    {r r' : Except Error Module} (h : Keeps field m r) (h' : Keeps field m r') :
    Keeps field m (if c then r else r') := by
  split
  · exact h
  · exact h'

theorem decodeSection_imports {id : UInt8} {body : Bytes} {m m' : Module} (hid : id ≠ 2)
    (h : decodeSection id body m = .ok m') : m'.imports = m.imports := by
  have hkeeps : Keeps Module.imports m (decodeSection id body m) := by
    unfold decodeSection
    rw [if_neg hid]
    repeat' first
      | exact keeps_map fun _ => rfl
      | apply keeps_ite
  exact hkeeps m' h

/-- What a section does to the imports: it is the import section, which has its place, or it leaves
them as they are. -/
theorem section_imports {id : UInt8} {body : Bytes} {l l' : Loop}
    (h : section_ id body l = .ok l') :
    (id ≠ 2 ∧ l'.m.imports = l.m.imports ∧ l.rank ≤ l'.rank) ∨
    (id = 2 ∧ l.rank < 2 ∧ l'.rank = 2 ∧ exact body (vec import_) "import" = .ok l'.m.imports) := by
  unfold section_ at h
  split at h
  · rename_i hid
    obtain ⟨⟨n, payload⟩, hn, h⟩ := bind_eq_ok.mp h
    cases h
    refine .inl ⟨?_, ?_, Nat.le_refl _⟩
    · rw [hid]
      decide
    · unfold custom
      split <;> rfl
  · obtain ⟨rank, hrank, h⟩ := bind_eq_ok.mp h
    split at h
    · rename_i hlt
      obtain ⟨m, hm, h⟩ := bind_eq_ok.mp h
      cases h
      by_cases hid : id = 2
      · subst id
        cases hrank
        refine .inr ⟨rfl, hlt, rfl, ?_⟩
        replace hm : (exact body (vec import_) "import").map _ = .ok m := hm
        cases his : exact body (vec import_) "import" with
        | error e =>
          rw [his] at hm
          cases hm
        | ok is =>
          rw [his] at hm
          cases hm
          rfl
      · exact .inl ⟨hid, decodeSection_imports hid hm, hlt.le⟩
    · cases h

theorem sections_cons_eq_ok {n : ℕ} {id : UInt8} {l l' : Loop} :
    sections (n + 1) (id :: bin) l = .ok l' ↔
      ∃ body rest l₁, (sectionBody id).run bin = .ok (body, rest) ∧
        section_ id body l = .ok l₁ ∧ sections n rest l₁ = .ok l' := by
  rw [sections, bind_eq_ok]
  constructor
  · rintro ⟨⟨body, rest⟩, hbody, h⟩
    obtain ⟨l₁, hl₁, h⟩ := bind_eq_ok.mp h
    exact ⟨body, rest, l₁, hbody, hl₁, h⟩
  · rintro ⟨body, rest, l₁, hbody, hl₁, h⟩
    exact ⟨(body, rest), hbody, bind_eq_ok.mpr ⟨l₁, hl₁, h⟩⟩

/-- Behind its place the import section is refused. -/
theorem sections_imports_of_rank {n : ℕ} {l l' : Loop} (h : sections n bin l = .ok l')
    (hrank : 2 ≤ l.rank) : l'.m.imports = l.m.imports := by
  induction n generalizing bin l with
  | zero => cases bin <;> cases h <;> rfl
  | succ n ih =>
    cases bin with
    | nil =>
      cases h
      rfl
    | cons id bin =>
      obtain ⟨body, rest, l₁, -, hl₁, h⟩ := sections_cons_eq_ok.mp h
      rcases section_imports hl₁ with ⟨-, hkeep, hle⟩ | ⟨-, hlt, -⟩
      · rw [ih h (hrank.trans hle), hkeep]
      · omega

/-- The imports of a module are what its import section holds. -/
theorem sections_imports {n : ℕ} {l l' : Loop} (h : sections n bin l = .ok l') :
    match importBody n bin with
    | some body => exact body (vec import_) "import" = .ok l'.m.imports
    | none => l'.m.imports = l.m.imports := by
  induction n generalizing bin l with
  | zero => cases bin <;> cases h <;> rfl
  | succ n ih =>
    cases bin with
    | nil =>
      cases h
      rfl
    | cons id bin =>
      obtain ⟨body, rest, l₁, hbody, hl₁, hrest⟩ := sections_cons_eq_ok.mp h
      rw [importBody, hbody]
      rcases section_imports hl₁ with ⟨hid, hkeep, -⟩ | ⟨rfl, -, hrank, hexact⟩
      · simp only [if_neg hid]
        rw [← hkeep]
        exact ih hrest
      · rw [sections_imports_of_rank hrest hrank.ge]
        exact hexact

/-- The linker finds the import section where the decoder does. -/
theorem coreImportSections_of_sections {n : ℕ} {l l' : Loop} (h : sections n bin l = .ok l') :
    coreImportSections n bin =
      match importBody n bin with
      | some body => do
        let (count, entries) ← leb32 body
        importEntries count entries
      | none => .ok [] := by
  induction n generalizing bin l with
  | zero => cases bin <;> rfl
  | succ n ih =>
    cases bin with
    | nil => rfl
    | cons id bin =>
      obtain ⟨body, rest, l₁, hbody, hl₁, h⟩ := sections_cons_eq_ok.mp h
      obtain ⟨size, mid, hsize, hsplit⟩ := Reader.run_bind_eq_ok.mp hbody
      rw [coreImportSections, leb32_eq hsize]
      show (splitBinary size mid).bind _ = _
      rw [splitBinary_of_take hsplit, importBody, hbody]
      by_cases hid : id = 2
      · simp only [if_pos hid]
        rfl
      · simp only [if_neg hid]
        exact ih h

/-- A vector that takes all of its section. -/
theorem times_of_exact {α : Type} {body : Bytes} {p : Decode.Reader α} {what : String}
    {vs : List α} (h : exact body (vec p) what = .ok vs) :
    ∃ n mid, readU32.run body = .ok (n, mid) ∧ ∃ rest, (p.times n).run mid = .ok (vs, rest) := by
  obtain ⟨⟨vs', left⟩, hvec, h⟩ := bind_eq_ok.mp h
  replace h : (if left = [] then _ else _) = Except.ok vs := h
  split at h
  · cases h
    obtain ⟨n, mid, hn, hvec⟩ := Reader.run_bind_eq_ok.mp hvec
    obtain ⟨⟨⟩, mid', hguard, hvec⟩ := Reader.run_bind_eq_ok.mp hvec
    obtain ⟨remaining, mid'', hleft, hguard⟩ := Reader.run_bind_eq_ok.mp hguard
    cases hleft
    split at hguard
    · cases hguard
    · cases hguard
      exact ⟨n, mid, hn, left, hvec⟩
  · cases h

theorem postCheck_eq_ok {m m' : Module} {seen : List UInt8} (h : postCheck m seen = .ok m') :
    m' = m := by
  obtain ⟨-, -, h⟩ := bind_eq_ok.mp h
  obtain ⟨-, -, h⟩ := bind_eq_ok.mp h
  obtain ⟨-, -, h⟩ := bind_eq_ok.mp h
  cases h
  rfl

/-! ## The names -/

/-- Where every import is plain, what an instance is offered is what the module asks for. -/
structure NamesAgree (bin : Bytes) (m : Module) : Prop where
  names : coreImports bin = .ok (m.imports.map importKey)
  offered : ∀ (ε V : Type) (args : Bytes → Option ℕ) (hostImport : Key → Except ε V)
    (exportVal : ℕ → Bytes → Except ε V) (keys : List Key) (table : Table Key V),
    coreImports bin = .ok keys → importsFor args hostImport exportVal keys ∅ = .ok table →
    ∀ key, (table.lookup key).isSome = true ↔ ∃ i ∈ m.imports, importKey i = key

theorem coreImports_agree {m : Module} (h : moduleUnchecked bin = .ok m)
    (hplain : PlainImports bin) : NamesAgree bin m := by
  have hnames : coreImports bin = .ok (m.imports.map importKey) := by
    unfold moduleUnchecked at h
    split at h
    · cases h
    · rename_i hlen
      split at h
      · cases h
      · rename_i hmagic
        split at h
        · cases h
        · obtain ⟨l, hl, h⟩ := bind_eq_ok.mp h
          cases postCheck_eq_ok h
          rw [coreImports, if_pos ⟨by omega, not_not.mp hmagic⟩, coreImportSections_of_sections hl]
          have his := sections_imports hl
          split at his
          · rename_i body hbody
            obtain ⟨count, entries, hcount, left, htimes⟩ := times_of_exact his
            rw [leb32_eq hcount]
            exact importEntries_of_times htimes (hplain body hbody count entries hcount)
          · rw [his]
            rfl
  refine ⟨hnames, ?_⟩
  intro ε V args hostImport exportVal keys table hkeys htable key
  cases hnames.symm.trans hkeys
  rw [isSome_importsFor _ _ _ htable]
  simp

/-- A memory of one page or more and a function: `(import "a" "b" (memory 1))` and
`(import "c" "d" (func (type 0)))`. -/
def sampleModule : Bytes :=
  magic ++ [1, 0, 0, 0] ++ [1, 4, 1, 0x60, 0, 0] ++
    [2, 14, 2, 1, 97, 1, 98, 2, 0, 1, 1, 99, 1, 100, 0, 0]

theorem plainImports_sample : PlainImports sampleModule := by
  intro body hbody count entries hcount
  cases hbody
  cases hcount
  intro module rest₁ field rest₂ desc rest₃ hmodule hfield hdesc
  cases hmodule
  cases hfield
  cases hdesc
  refine ⟨⟨1, _, rfl⟩, ?_⟩
  intro module rest₁ field rest₂ desc rest₃ hmodule hfield hdesc
  cases hmodule
  cases hfield
  trivial

theorem coreImports_agree_sample :
    ∃ m, moduleUnchecked sampleModule = .ok m ∧ NamesAgree sampleModule m := by
  cases hm : moduleUnchecked sampleModule with
  | error e =>
    have hok : (moduleUnchecked sampleModule).toOption.isSome = true := by decide +kernel
    rw [hm] at hok
    cases hok
  | ok m => exact ⟨m, rfl, coreImports_agree hm plainImports_sample⟩

/-- A shared memory of one page at least and two at most: `(import "a" "b" (memory 1 2 shared))`. -/
def sharedModule : Bytes :=
  magic ++ [1, 0, 0, 0] ++ [2, 9, 1, 1, 97, 1, 98, 2, 3, 1, 2]

/-- The decoder takes a shared memory, and the linker has no clause for its limits. -/
theorem not_coreImports_agree :
    ¬ ∀ bin m, moduleUnchecked bin = .ok m → NamesAgree bin m := by
  intro h
  cases hm : moduleUnchecked sharedModule with
  | error e =>
    have hok : (moduleUnchecked sharedModule).toOption.isSome = true := by decide +kernel
    rw [hm] at hok
    cases hok
  | ok m =>
    have hraised : coreImports sharedModule = .error .functionClause := by decide +kernel
    cases hraised.symm.trans (h sharedModule m hm).names

end ErlangWasm.Component.CoreImports
