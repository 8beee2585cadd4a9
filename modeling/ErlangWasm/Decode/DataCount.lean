import ErlangWasm.Decode.Module

/-!
# When the data count section is required

The format requires the section wherever the code names a data segment.  `uses_data_index/1` looks
for two of the four instructions that do, and not inside a `try_table`; `names_data/1` of the text
front end, which decides when to write the section, looks for all four everywhere.
-/

namespace ErlangWasm.Decode

open Reasoning

/-- The data segment an instruction names. -/
def Instr.dataIndex : Instr → Option ℕ
  | .memoryInit d _ => some d
  | .dataDrop d => some d
  | .arrayNewData _ d => some d
  | .arrayInitData _ d => some d
  | _ => none

/-- The bodies an instruction holds. -/
def Instr.bodies : Instr → List (List Instr)
  | .block _ body => [body]
  | .loop _ body => [body]
  | .if_ _ then_ else_ => [then_, else_]
  | .tryTable _ _ body => [body]
  | _ => []

/-- The bodies `uses_data_index/1` goes into. -/
def Instr.scanned : Instr → List (List Instr)
  | .tryTable _ _ _ => []
  | i => i.bodies

/-- The instructions it looks for. -/
def Instr.isBulk : Instr → Bool
  | .memoryInit _ _ => true
  | .dataDrop _ => true
  | _ => false

/-- `i` stands in `body`, at any depth of the bodies `into` leads to. -/
inductive Within (into : Instr → List (List Instr)) (i : Instr) : List Instr → Prop
  | here {body : List Instr} (h : i ∈ body) : Within into i body
  | inside {body inner : List Instr} {j : Instr} (hj : j ∈ body) (hinner : inner ∈ into j)
      (h : Within into i inner) : Within into i body

/-- `body` names a data segment, at any depth. -/
def Names (body : List Instr) : Prop := ∃ i d, Within Instr.bodies i body ∧ i.dataIndex = some d

/-- A `memory.init` or a `data.drop` stands in `body` outside every `try_table`. -/
def Visible (body : List Instr) : Prop := ∃ i, Within Instr.scanned i body ∧ i.isBulk = true

/-! ## The searches -/

mutual

/-- `names_data/1` of `wasm_wat`. -/
def namesData : List Instr → Bool
  | [] => false
  | i :: rest => namesDataInstr i || namesData rest

/-- `names_data_instr/1`. -/
def namesDataInstr : Instr → Bool
  | .block _ body => namesData body
  | .loop _ body => namesData body
  | .if_ _ then_ else_ => namesData then_ || namesData else_
  | .tryTable _ _ body => namesData body
  | .memoryInit _ _ => true
  | .dataDrop _ => true
  | .arrayNewData _ _ => true
  | .arrayInitData _ _ => true
  | .other _ _ => false

end

theorem within_cons {into : Instr → List (List Instr)} {i j : Instr} {rest : List Instr} :
    Within into i (j :: rest) ↔
      i = j ∨ (∃ inner ∈ into j, Within into i inner) ∨ Within into i rest := by
  constructor
  · intro h
    cases h with
    | here hi =>
      rcases List.mem_cons.mp hi with rfl | hi
      · exact .inl rfl
      · exact .inr (.inr (.here hi))
    | inside hk hinner hi =>
      rcases List.mem_cons.mp hk with rfl | hk
      · exact .inr (.inl ⟨_, hinner, hi⟩)
      · exact .inr (.inr (.inside hk hinner hi))
  · rintro (rfl | ⟨inner, hinner, hi⟩ | h)
    · exact .here (by simp)
    · exact .inside (by simp) hinner hi
    · cases h with
      | here hi => exact .here (by simp [hi])
      | inside hk hinner hi => exact .inside (List.mem_cons_of_mem _ hk) hinner hi

theorem not_within_nil {into : Instr → List (List Instr)} {i : Instr} : ¬ Within into i [] := by
  intro h
  cases h with
  | here hi => cases hi
  | inside hj _ _ => cases hj

theorem not_names_nil : ¬ Names [] := fun ⟨_, _, h, _⟩ => not_within_nil h

theorem not_visible_nil : ¬ Visible [] := fun ⟨_, h, _⟩ => not_within_nil h

theorem names_cons {j : Instr} {rest : List Instr} :
    Names (j :: rest) ↔
      (j.dataIndex.isSome ∨ ∃ inner ∈ j.bodies, Names inner) ∨ Names rest := by
  constructor
  · rintro ⟨i, d, hi, hd⟩
    rcases within_cons.mp hi with rfl | ⟨inner, hinner, hi⟩ | hi
    · exact .inl (.inl (by rw [hd]; rfl))
    · exact .inl (.inr ⟨inner, hinner, i, d, hi, hd⟩)
    · exact .inr ⟨i, d, hi, hd⟩
  · rintro ((hj | ⟨inner, hinner, i, d, hi, hd⟩) | ⟨i, d, hi, hd⟩)
    · obtain ⟨d, hd⟩ := Option.isSome_iff_exists.mp hj
      exact ⟨j, d, within_cons.mpr (.inl rfl), hd⟩
    · exact ⟨i, d, within_cons.mpr (.inr (.inl ⟨inner, hinner, hi⟩)), hd⟩
    · exact ⟨i, d, within_cons.mpr (.inr (.inr hi)), hd⟩

theorem visible_cons {j : Instr} {rest : List Instr} :
    Visible (j :: rest) ↔
      (j.isBulk = true ∨ ∃ inner ∈ j.scanned, Visible inner) ∨ Visible rest := by
  constructor
  · rintro ⟨i, hi, hbulk⟩
    rcases within_cons.mp hi with rfl | ⟨inner, hinner, hi⟩ | hi
    · exact .inl (.inl hbulk)
    · exact .inl (.inr ⟨inner, hinner, i, hi, hbulk⟩)
    · exact .inr ⟨i, hi, hbulk⟩
  · rintro ((hj | ⟨inner, hinner, i, hi, hbulk⟩) | ⟨i, hi, hbulk⟩)
    · exact ⟨j, within_cons.mpr (.inl rfl), hj⟩
    · exact ⟨i, within_cons.mpr (.inr (.inl ⟨inner, hinner, hi⟩)), hbulk⟩
    · exact ⟨i, within_cons.mpr (.inr (.inr hi)), hbulk⟩

mutual

/-- The text front end's search finds every name of a data segment. -/
theorem namesData_iff : ∀ body : List Instr, namesData body = true ↔ Names body
  | [] => by simp [namesData, not_names_nil]
  | i :: rest => by
      rw [namesData, Bool.or_eq_true, namesDataInstr_iff i, namesData_iff rest, names_cons]

theorem namesDataInstr_iff : ∀ i : Instr, namesDataInstr i = true ↔
    i.dataIndex.isSome ∨ ∃ inner ∈ i.bodies, Names inner
  | .block _ body => by simp [namesDataInstr, Instr.dataIndex, Instr.bodies, namesData_iff body]
  | .loop _ body => by simp [namesDataInstr, Instr.dataIndex, Instr.bodies, namesData_iff body]
  | .if_ _ then_ else_ => by
      simp [namesDataInstr, Instr.dataIndex, Instr.bodies, namesData_iff then_,
        namesData_iff else_]
  | .tryTable _ _ body => by
      simp [namesDataInstr, Instr.dataIndex, Instr.bodies, namesData_iff body]
  | .memoryInit _ _ => by simp [namesDataInstr, Instr.dataIndex]
  | .dataDrop _ => by simp [namesDataInstr, Instr.dataIndex]
  | .arrayNewData _ _ => by simp [namesDataInstr, Instr.dataIndex]
  | .arrayInitData _ _ => by simp [namesDataInstr, Instr.dataIndex]
  | .other _ _ => by simp [namesDataInstr, Instr.dataIndex, Instr.bodies]

end

mutual

/-- What the decoder's search finds. -/
theorem usesDataIndex_iff : ∀ body : List Instr, usesDataIndex body = true ↔ Visible body
  | [] => by simp [usesDataIndex, not_visible_nil]
  | i :: rest => by
      rw [usesDataIndex, Bool.or_eq_true, instrUsesDataIndex_iff i, usesDataIndex_iff rest,
        visible_cons]

theorem instrUsesDataIndex_iff : ∀ i : Instr, instrUsesDataIndex i = true ↔
    i.isBulk = true ∨ ∃ inner ∈ i.scanned, Visible inner
  | .block _ body => by
      simp [instrUsesDataIndex, Instr.isBulk, Instr.scanned, Instr.bodies, usesDataIndex_iff body]
  | .loop _ body => by
      simp [instrUsesDataIndex, Instr.isBulk, Instr.scanned, Instr.bodies, usesDataIndex_iff body]
  | .if_ _ then_ else_ => by
      simp [instrUsesDataIndex, Instr.isBulk, Instr.scanned, Instr.bodies,
        usesDataIndex_iff then_, usesDataIndex_iff else_]
  | .tryTable _ _ _ => by simp [instrUsesDataIndex, Instr.isBulk, Instr.scanned]
  | .memoryInit _ _ => by simp [instrUsesDataIndex, Instr.isBulk]
  | .dataDrop _ => by simp [instrUsesDataIndex, Instr.isBulk]
  | .arrayNewData _ _ => by simp [instrUsesDataIndex, Instr.isBulk, Instr.scanned, Instr.bodies]
  | .arrayInitData _ _ => by simp [instrUsesDataIndex, Instr.isBulk, Instr.scanned, Instr.bodies]
  | .other _ _ => by simp [instrUsesDataIndex, Instr.isBulk, Instr.scanned, Instr.bodies]

end

theorem Within.mono {into onto : Instr → List (List Instr)} (hinto : ∀ i, into i ⊆ onto i)
    {i : Instr} {body : List Instr} (h : Within into i body) : Within onto i body := by
  induction h with
  | here hi => exact .here hi
  | inside hj hinner _ ih => exact .inside hj (hinto _ hinner) ih

theorem Visible.names {body : List Instr} (h : Visible body) : Names body := by
  obtain ⟨i, hi, hbulk⟩ := h
  have hinto : ∀ j : Instr, j.scanned ⊆ j.bodies := by
    intro j inner hinner
    cases j with
    | tryTable bt catches body => cases hinner
    | _ => exact hinner
  obtain ⟨d, hd⟩ : ∃ d, i.dataIndex = some d := by
    cases i with
    | memoryInit d m | dataDrop d => exact ⟨d, rfl⟩
    | _ => cases hbulk
  exact ⟨i, d, hi.mono hinto, hd⟩

/-! ## The section and the field -/

/-- Whatever module comes out, its data count is that of `m`. -/
def KeepsCount (m : Module) (r : Except Error Module) : Prop :=
  ∀ m', r = .ok m' → m'.dataCount = m.dataCount

theorem keepsCount_map {α : Type} {m : Module} {r : Except Error α} {f : α → Module}
    (hf : ∀ v, (f v).dataCount = m.dataCount) : KeepsCount m (r.map f) := by
  intro m' h
  cases r with
  | error e => cases h
  | ok v =>
    cases h
    exact hf v

theorem keepsCount_ite {c : Prop} [Decidable c] {m : Module} {r r' : Except Error Module}
    (h : KeepsCount m r) (h' : KeepsCount m r') : KeepsCount m (if c then r else r') := by
  split
  · exact h
  · exact h'

/-- Every section but the data count's writes other fields. -/
theorem decodeSection_dataCount {id : UInt8} {body : Bytes} {m m' : Module}
    (h : decodeSection id body m = .ok m') :
    m'.dataCount.isSome = (decide (id = secDataCount) || m.dataCount.isSome) := by
  by_cases hid : id = secDataCount
  · subst hid
    have hwrite : decodeSection secDataCount body m =
        (exact body readU32 "data_count").map fun n => { m with dataCount := some n } := rfl
    rw [hwrite] at h
    cases hn : exact body readU32 "data_count" with
    | error e =>
      rw [hn] at h
      cases h
    | ok n =>
      rw [hn] at h
      cases h
      rfl
  · have hkeeps : KeepsCount m (decodeSection id body m) := by
      unfold decodeSection
      rw [if_neg hid]
      repeat' first
        | exact keepsCount_map fun _ => rfl
        | apply keepsCount_ite
    rw [decide_eq_false hid, Bool.false_or, hkeeps m' h]

theorem section_dataCount {id : UInt8} {body : Bytes} {l l' : Loop}
    (h : section_ id body l = .ok l') (hl : l.m.dataCount.isSome = true ↔ secDataCount ∈ l.seen) :
    l'.m.dataCount.isSome = true ↔ secDataCount ∈ l'.seen := by
  unfold section_ at h
  split at h
  · cases hn : name.run body with
    | error e =>
      rw [hn] at h
      cases h
    | ok r =>
      rw [hn] at h
      cases h
      unfold custom
      split
      · exact hl
      · exact hl
  · cases hr : orderRank id with
    | error e =>
      rw [hr] at h
      cases h
    | ok rank =>
      rw [hr] at h
      replace h : (if l.rank < rank then _ else _) = Except.ok l' := h
      split at h
      · cases hm : decodeSection id body l.m with
        | error e =>
          rw [hm] at h
          cases h
        | ok m =>
          rw [hm] at h
          cases h
          rw [decodeSection_dataCount hm, Bool.or_eq_true, hl, List.mem_cons, decide_eq_true_iff,
            eq_comm]
      · cases h

/-- The field is written exactly when the section was seen. -/
theorem sections_dataCount {n : ℕ} {bin : Bytes} {l l' : Loop} (h : sections n bin l = .ok l')
    (hl : l.m.dataCount.isSome = true ↔ secDataCount ∈ l.seen) :
    l'.m.dataCount.isSome = true ↔ secDataCount ∈ l'.seen := by
  induction n generalizing bin l with
  | zero =>
    cases bin with
    | nil | cons b rest =>
      cases h
      exact hl
  | succ n ih =>
    cases bin with
    | nil =>
      cases h
      exact hl
    | cons id rest =>
      rw [sections] at h
      cases hb : (sectionBody id).run rest with
      | error e =>
        rw [hb] at h
        cases h
      | ok r =>
        rw [hb] at h
        replace h : ((section_ id r.1 l).bind fun l => sections n r.2 l) = .ok l' := h
        cases hs : section_ id r.1 l with
        | error e =>
          rw [hs] at h
          cases h
        | ok l₁ =>
          rw [hs] at h
          exact ih h (section_dataCount hs hl)

/-! ## The checks -/

/-- The section loop over `bin`, where it begins with the magic number and version 1 and the
function and code sections pair up. -/
def decodeSections (bin : Bytes) : Option Loop :=
  if 8 ≤ bin.length ∧ bin.take 4 = magic ∧ Bytes.ofLe ((bin.drop 4).take 4) = 1 then
    match sections bin.length (bin.drop 8) { rank := 0, seen := [], m := .empty } with
    | .ok l =>
        match checkFuncCodePairing l.m l.seen with
        | .ok () => some l
        | .error _ => none
    | .error _ => none
  else none

/-- A module whose sections decode to `l` is rejected for its data count just where the format
says so. -/
structure DataCountExact (bin : Bytes) (l : Loop) : Prop where
  required : moduleUnchecked bin = .error dataCountRequired ↔
    secDataCount ∉ l.seen ∧ ∃ f ∈ l.m.funcs, Names f.body
  mismatch : (∃ declared actual, moduleUnchecked bin = .error (dataCountMismatch declared actual)) ↔
    secDataCount ∈ l.seen ∧ ∃ n, l.m.dataCount = some n ∧ n ≠ l.m.datas.length

theorem decodeSections_eq_some {bin : Bytes} {l : Loop} (h : decodeSections bin = some l) :
    (l.m.dataCount.isSome = true ↔ secDataCount ∈ l.seen) ∧
      moduleUnchecked bin = (do
        checkDataCount l.m
        checkDataCountRequired l.m
        pure l.m) := by
  unfold decodeSections at h
  split at h
  · rename_i hhead
    obtain ⟨hlen, hmagic, hversion⟩ := hhead
    split at h
    · rename_i l' hsections
      split at h
      · rename_i hpairing
        cases h
        refine ⟨sections_dataCount hsections (by simp [Module.empty]), ?_⟩
        rw [moduleUnchecked, if_neg (by omega), if_neg (not_not.mpr hmagic),
          if_neg (not_not.mpr hversion), hsections]
        show postCheck l.m l.seen = _
        rw [postCheck, hpairing]
        rfl
      · cases h
    · cases h
  · cases h

/-- The decoder rejects a module for its data count where the format does, exactly when the section
is there, or no code names a data segment, or a `memory.init` or a `data.drop` stands outside every
`try_table`. -/
theorem dataCount_exact {bin : Bytes} {l : Loop} (h : decodeSections bin = some l) :
    DataCountExact bin l ↔
      (secDataCount ∈ l.seen ∨ (∀ f ∈ l.m.funcs, ¬ Names f.body) ∨
        ∃ f ∈ l.m.funcs, Visible f.body) := by
  obtain ⟨hseen, hmod⟩ := decodeSections_eq_some h
  have hany : (l.m.funcs.any fun f => usesDataIndex f.body) = true ↔
      ∃ f ∈ l.m.funcs, Visible f.body := by
    rw [List.any_eq_true]
    simp only [usesDataIndex_iff]
  cases hcount : l.m.dataCount with
  | some n =>
    have hin : secDataCount ∈ l.seen := hseen.mp (by rw [hcount]; rfl)
    have hreq : checkDataCountRequired l.m = .ok () := by
      rw [checkDataCountRequired, hcount]
      rfl
    refine iff_of_true ⟨?_, ?_⟩ (.inl hin)
    · refine iff_of_false ?_ fun hno => hno.1 hin
      rw [hmod, hreq, checkDataCount, hcount]
      intro heq
      by_cases hn : n = l.m.datas.length
      · simp only [if_pos hn] at heq
        cases heq
      · simp only [if_neg hn] at heq
        cases heq
    · rw [hmod, hreq, checkDataCount, hcount]
      by_cases hn : n = l.m.datas.length
      · simp only [if_pos hn]
        refine iff_of_false ?_ ?_
        · rintro ⟨_, _, heq⟩
          cases heq
        · rintro ⟨-, k, hk, hne⟩
          cases hk
          exact hne hn
      · simp only [if_neg hn]
        exact iff_of_true ⟨n, l.m.datas.length, rfl⟩ ⟨hin, n, rfl, hn⟩
  | none =>
    have hnot : secDataCount ∉ l.seen := fun hin => by
      have hsome := hseen.mpr hin
      rw [hcount] at hsome
      cases hsome
    have hmismatch : (∃ declared actual,
        moduleUnchecked bin = .error (dataCountMismatch declared actual)) ↔
        secDataCount ∈ l.seen ∧ ∃ n, l.m.dataCount = some n ∧ n ≠ l.m.datas.length := by
      refine iff_of_false ?_ fun hno => hnot hno.1
      rintro ⟨declared, actual, heq⟩
      rw [hmod, checkDataCount, hcount, checkDataCountRequired, hcount] at heq
      by_cases huses : (l.m.funcs.any fun f => usesDataIndex f.body) = true
      · rw [if_neg (by simp), if_pos huses] at heq
        cases heq
      · rw [if_neg (by simp), if_neg huses] at heq
        cases heq
    have hrequired : moduleUnchecked bin = .error dataCountRequired ↔
        ∃ f ∈ l.m.funcs, Visible f.body := by
      rw [hmod, checkDataCount, hcount, checkDataCountRequired, hcount, if_neg (by simp), ← hany]
      by_cases huses : (l.m.funcs.any fun f => usesDataIndex f.body) = true
      · rw [if_pos huses]
        exact iff_of_true rfl huses
      · rw [if_neg huses]
        exact iff_of_false (fun heq => by cases heq) huses
    have hnames : (∃ f ∈ l.m.funcs, Visible f.body) → ∃ f ∈ l.m.funcs, Names f.body :=
      fun ⟨f, hf, hv⟩ => ⟨f, hf, hv.names⟩
    constructor
    · intro hexact
      by_cases hsome : ∃ f ∈ l.m.funcs, Names f.body
      · exact .inr (.inr (hrequired.mp (hexact.required.mpr ⟨hnot, hsome⟩)))
      · exact .inr (.inl fun f hf hn => hsome ⟨f, hf, hn⟩)
    · intro hcond
      refine ⟨?_, hmismatch⟩
      rw [hrequired]
      constructor
      · exact fun hv => ⟨hnot, hnames hv⟩
      · rintro ⟨-, f, hf, hn⟩
        rcases hcond with hin | hno | hv
        · exact absurd hin hnot
        · exact absurd hn (hno f hf)
        · exact hv

/-- One function, `try_table data.drop 0 end`, a passive segment and no data count section. -/
def droppedInside : Bytes :=
  magic ++ [1, 0, 0, 0] ++
  -- the type and function sections
  [1, 4, 1, 0x60, 0, 0] ++ [3, 2, 1, 0] ++
  -- the code and data sections
  [10, 11, 1, 9, 0, 0x1F, 0x40, 0, 0xFC, 9, 0, 0x0B, 0x0B] ++ [11, 3, 1, 1, 0]

theorem droppedInside_decodes : ((decodeSections droppedInside).any fun l =>
    decide (secDataCount ∉ l.seen) && (l.m.funcs.any fun f => namesData f.body) &&
      !(l.m.funcs.any fun f => usesDataIndex f.body)) = true := by
  decide +kernel

theorem dataCount_exact_droppedInside : ∃ l, decodeSections droppedInside = some l ∧
    (DataCountExact droppedInside l ↔
      (secDataCount ∈ l.seen ∨ (∀ f ∈ l.m.funcs, ¬ Names f.body) ∨
        ∃ f ∈ l.m.funcs, Visible f.body)) := by
  obtain ⟨l, hl, -⟩ := (Option.any_eq_true _ _).mp droppedInside_decodes
  exact ⟨l, hl, dataCount_exact hl⟩

/-- A module the format rejects and the decoder accepts. -/
theorem not_dataCountExact :
    ¬ ∀ bin l, decodeSections bin = some l → DataCountExact bin l := by
  intro hall
  obtain ⟨l, hl, hfacts⟩ := (Option.any_eq_true _ _).mp droppedInside_decodes
  simp only [Bool.and_eq_true, decide_eq_true_iff, Bool.not_eq_true'] at hfacts
  obtain ⟨⟨hnot, hnames⟩, huses⟩ := hfacts
  obtain ⟨hseen, hmod⟩ := decodeSections_eq_some hl
  have hexact := hall droppedInside l hl
  have hcount : l.m.dataCount = none := by
    by_contra hsome
    exact hnot (hseen.mp (Option.isSome_iff_ne_none.mpr hsome))
  obtain ⟨f, hf, hn⟩ := List.any_eq_true.mp hnames
  have hreject := hexact.required.mpr ⟨hnot, f, hf, (namesData_iff f.body).mp hn⟩
  rw [hmod, checkDataCount, hcount, checkDataCountRequired, hcount, if_neg (by simp), huses]
    at hreject
  cases hreject

end ErlangWasm.Decode
