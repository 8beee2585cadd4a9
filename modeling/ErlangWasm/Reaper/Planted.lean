import ErlangWasm.Reaper.Adoption

/-!
# What a record can do

A record names files by its id and by its operations, and processes by its header.  A path is taken
by its names, links aside: `..` is the directory above.
-/

namespace ErlangWasm.Reaper

open Reasoning
open Wasi (Name split splitNames join dot dotdot slash)

/-! ## Paths -/

/-- The directory above. -/
def up (path : List Name) : List Name :=
  match path.getLast? with
  | none => [dotdot]
  | some name => if name = dotdot then path ++ [dotdot] else if path = [slash] then path
      else path.dropLast

def resolve : List Name → List Name → List Name
  | path, [] => path
  | path, name :: names =>
      if name = dot then resolve path names
      else if name = dotdot then resolve (up path) names
      else resolve (path ++ [name]) names

/-- Where a path leads. -/
def normal (path : List Name) : List Name := resolve [] path

theorem resolve_append (path names names' : List Name) :
    resolve path (names ++ names') = resolve (resolve path names) names' := by
  induction names generalizing path with
  | nil => rfl
  | cons name names ih =>
    rw [List.cons_append, resolve, resolve]
    split
    · exact ih _
    · split
      · exact ih _
      · exact ih _

theorem resolve_below {names : List Name} (h : dotdot ∉ names) (path : List Name) :
    resolve path names = path ++ names.filter (· ≠ dot) := by
  induction names generalizing path with
  | nil => exact (List.append_nil path).symm
  | cons name names ih =>
    have hne : ¬ name = dotdot := fun heq => h (heq ▸ List.mem_cons_self)
    have hrest : dotdot ∉ names := fun hmem => h (List.mem_cons_of_mem _ hmem)
    rw [resolve]
    by_cases hdot : name = dot
    · rw [if_pos hdot, ih hrest, List.filter_cons_of_neg (by simp [hdot])]
    · rw [if_neg hdot, if_neg hne, ih hrest, List.filter_cons_of_pos (by simp [hdot]),
        List.append_assoc]
      rfl

theorem normal_append (dir : List Name) {names : List Name} (h : dotdot ∉ names) :
    normal (dir ++ names) = normal dir ++ names.filter (· ≠ dot) := by
  rw [normal, resolve_append, resolve_below h]
  rfl

/-- A name that is neither `.` nor `..` stands where it is. -/
theorem normal_concat (path : List Name) {name : Name} (hdot : name ≠ dot)
    (hdotdot : name ≠ dotdot) : normal (path ++ [name]) = normal path ++ [name] := by
  have hnot : dotdot ∉ [name] := fun hmem => hdotdot (List.mem_singleton.mp hmem).symm
  rw [normal_append path hnot, List.filter_cons_of_pos (by simp [hdot])]
  rfl

/-! ## The files of a record -/

def journalDir (root : List Name) : List Name := join root ".journal".toList

def quarantineDir (root : List Name) : List Name := join (journalDir root) "quarantine".toList

/-- `record_path/2`, of a root and an id. -/
def recordPath (root : List Name) (id : RequestId) : List Name := join (journalDir root) (id ++ suffix)

/-- Where `quarantine_record/2` moves it. -/
def quarantinePath (root : List Name) (id : RequestId) : List Name :=
  join (quarantineDir root) (id ++ suffix)

/-- `Path ++ ".part"`. -/
def part (path : List Name) : List Name :=
  path.dropLast ++ [path.getLast?.getD [] ++ ".part".toList]

inductive Touch
  | write (path : List Name)
  | rename (source target : List Name)
  | delete (path : List Name)
  | removeTree (path : List Name)

/-- `put_record/2`. -/
def putRecord (path : List Name) : List Touch :=
  [.write (part path), .rename (part path) path, .delete (part path)]

abbrev Dirs := Table RootId (List Name)

def applyOp (dirs : Dirs) (o : RecoverOp) : Option Touch :=
  match o with
  | .removeTree root path => (dirs.lookup root).map fun dir => .removeTree (join dir path)
  | .deleteFile root path => (dirs.lookup root).map fun dir => .delete (join dir path)

/-- What is done of a record in the journal of `dir`: it is written anew, removed or quarantined, and
its operations are carried out. -/
def drivenBy (dirs : Dirs) (dir : List Name) (id : RequestId) (ops : List RecoverOp) : List Touch :=
  putRecord (recordPath dir id) ++
    [.delete (recordPath dir id), .rename (recordPath dir id) (quarantinePath dir id)] ++
    ops.filterMap (applyOp dirs)

namespace Touch

def paths : Touch → List (List Name)
  | write path | delete path | removeTree path => [path]
  | rename source target => [source, target]

/-- What is gone with it. -/
def removes : Touch → List (List Name)
  | write _ => []
  | delete path | removeTree path => [path]
  | rename source _ => [source]

/-- It stays in the root, and leaves the root and the journal where they are. -/
structure Stays (dir : List Name) (t : Touch) : Prop where
  inside : ∀ path ∈ t.paths, normal dir <+: normal path
  spares : ∀ path ∈ t.removes, normal path ≠ normal dir ∧ normal path ≠ normal (journalDir dir)

end Touch

/-! ## Ids -/

/-- The files of an id are in the root. -/
structure StaysNamed (dir : List Name) (id : RequestId) : Prop where
  record : normal dir <+: normal (recordPath dir id)
  proper : normal (recordPath dir id) ≠ normal dir
  quarantine : normal dir <+: normal (quarantinePath dir id)

theorem splitNames_suffix (text : List Char) (name : Name) :
    ∃ names stem, splitNames (text ++ suffix) name = names ++ [stem ++ suffix] := by
  induction text generalizing name with
  | nil =>
    have hslash : '/' ∉ suffix := by decide
    have hne : name ++ suffix ≠ [] := List.append_ne_nil_of_right_ne_nil _ (by decide)
    exact ⟨[], name, Wasi.splitNames_single hslash hne⟩
  | cons c text ih =>
    rw [List.cons_append, splitNames]
    split
    · split
      · exact ih []
      · obtain ⟨names, stem, heq⟩ := ih []
        exact ⟨name :: names, stem, by rw [heq]; rfl⟩
    · exact ih (name ++ [c])

theorem split_suffix (text : List Char) :
    ∃ names stem, split (text ++ suffix) = names ++ [stem ++ suffix] := by
  cases text with
  | nil => exact ⟨[], [], rfl⟩
  | cons c text =>
    by_cases hc : c = '/'
    · subst hc
      obtain ⟨names, stem, heq⟩ := splitNames_suffix text []
      exact ⟨slash :: names, stem, congrArg (slash :: ·) heq⟩
    · rw [List.cons_append, Wasi.split_of_relative (Wasi.relative_cons hc _)]
      exact splitNames_suffix (c :: text) []

/-- The last name of a record's path ends with `.rec`. -/
theorem join_suffix (dir : List Name) (id : RequestId) :
    ∃ path stem, join dir (id ++ suffix) = path ++ [stem ++ suffix] := by
  obtain ⟨names, stem, heq⟩ := split_suffix id
  unfold join
  split
  · exact ⟨dir ++ names, stem, by rw [heq, List.append_assoc]⟩
  · exact ⟨names, stem, heq⟩

theorem normal_journalDir (dir : List Name) :
    normal (journalDir dir) = normal dir ++ [".journal".toList] :=
  normal_concat dir (by decide) (by decide)

theorem append_ne {text tail name : Name} (h : name.length < tail.length) : text ++ tail ≠ name := by
  intro heq
  have hlength := congrArg List.length heq
  rw [List.length_append] at hlength
  omega

/-- No name that ends otherwise is the journal's. -/
theorem append_ne_journal {text tail : Name} {c : Char} (htail : tail.getLast? = some c)
    (hc : c ≠ 'l') : text ++ tail ≠ ".journal".toList := by
  intro heq
  have hend := congrArg List.getLast? heq
  rw [List.getLast?_append, htail] at hend
  exact hc (Option.some.inj hend)

variable {dirs : Dirs} {dir d path : List Name} {id : RequestId} {o : RecoverOp}

/-- A single file that is written over or removed stays where it and its part do. -/
theorem stays_suffixed (hinside : normal dir <+: normal path) (hproper : normal path ≠ normal dir)
    (hpath : ∃ names stem, path = names ++ [stem ++ suffix]) :
    (normal dir <+: normal (part path) ∧ normal (part path) ≠ normal dir ∧
        normal (part path) ≠ normal (journalDir dir)) ∧
      normal path ≠ normal (journalDir dir) := by
  obtain ⟨names, stem, rfl⟩ := hpath
  have hpart : part (names ++ [stem ++ suffix]) = names ++ [stem ++ suffix ++ ".part".toList] := by
    rw [part, List.dropLast_concat, List.getLast?_concat]
    rfl
  have hshort : ∀ name : Name, name.length < 4 → stem ++ suffix ≠ name := fun _ h => append_ne h
  have hlong : ∀ name : Name, name.length < 5 → stem ++ suffix ++ ".part".toList ≠ name :=
    fun _ h => append_ne h
  have hnormal := normal_concat names (hshort dot (by decide)) (hshort dotdot (by decide))
  have hnormalPart := normal_concat names (hlong dot (by decide)) (hlong dotdot (by decide))
  have hbefore : normal dir <+: normal names := by
    rw [hnormal] at hinside hproper
    obtain ⟨rest, hrest⟩ := hinside
    cases List.eq_nil_or_concat rest with
    | inl hnil =>
      rw [hnil, List.append_nil] at hrest
      exact absurd hrest.symm hproper
    | inr hcons =>
      obtain ⟨init, last, heq⟩ := hcons
      rw [heq, List.concat_eq_append, ← List.append_assoc] at hrest
      exact ⟨init, (List.append_inj' hrest rfl).1⟩
  have hjournal : ∀ name : Name, name ≠ ".journal".toList →
      normal names ++ [name] ≠ normal (journalDir dir) := by
    intro name hname heq
    rw [normal_journalDir] at heq
    exact hname (List.singleton_inj.mp (List.append_inj' heq rfl).2)
  rw [hpart, hnormal, hnormalPart]
  refine ⟨⟨?_, ?_, ?_⟩, ?_⟩
  · exact hbefore.trans (List.prefix_append _ _)
  · intro heq
    have hlength := hbefore.length_le
    rw [← heq, List.length_append, List.length_singleton] at hlength
    omega
  · exact hjournal _ (append_ne_journal (c := 't') rfl (by decide))
  · exact hjournal _ (append_ne_journal (c := 'c') rfl (by decide))

/-- What is done of the record itself stays where the files of its id do. -/
theorem stays_named_iff :
    (∀ t ∈ putRecord (recordPath dir id) ++
        [.delete (recordPath dir id), .rename (recordPath dir id) (quarantinePath dir id)],
      Touch.Stays dir t) ↔ StaysNamed dir id := by
  constructor
  · intro h
    have hdelete : Touch.Stays dir (.delete (recordPath dir id)) := h _ (by simp [putRecord])
    have hrename : Touch.Stays dir (.rename (recordPath dir id) (quarantinePath dir id)) :=
      h _ (by simp [putRecord])
    exact {
      record := hdelete.inside _ List.mem_cons_self
      proper := (hdelete.spares _ List.mem_cons_self).1
      quarantine := hrename.inside _ (List.mem_cons_of_mem _ List.mem_cons_self) }
  · intro h
    obtain ⟨⟨hpart, hpartProper, hpartJournal⟩, hjournal⟩ :=
      stays_suffixed h.record h.proper (join_suffix _ id)
    have hpartSpares := And.intro hpartProper hpartJournal
    have hspares := And.intro h.proper hjournal
    intro t ht
    simp only [putRecord, List.cons_append, List.nil_append, List.mem_cons, List.not_mem_nil,
      or_false] at ht
    rcases ht with rfl | rfl | rfl | rfl | rfl
    · exact ⟨List.forall_mem_singleton.mpr hpart, fun _ hnone => absurd hnone List.not_mem_nil⟩
    · exact ⟨List.forall_mem_cons.mpr ⟨hpart, List.forall_mem_singleton.mpr h.record⟩,
        List.forall_mem_singleton.mpr hpartSpares⟩
    · exact ⟨List.forall_mem_singleton.mpr hpart, List.forall_mem_singleton.mpr hpartSpares⟩
    · exact ⟨List.forall_mem_singleton.mpr h.record, List.forall_mem_singleton.mpr hspares⟩
    · exact ⟨List.forall_mem_cons.mpr ⟨h.record, List.forall_mem_singleton.mpr h.quarantine⟩,
        List.forall_mem_singleton.mpr hspares⟩

/-- An id that is one name stays in the journal. -/
theorem staysNamed_of_notMem (h : '/' ∉ id) (dir : List Name) : StaysNamed dir id := by
  have hslash : '/' ∉ id ++ suffix := by
    rw [List.mem_append, not_or]
    exact ⟨h, by decide⟩
  have hne : id ++ suffix ≠ [] := List.append_ne_nil_of_right_ne_nil _ (by decide)
  have hjoin : ∀ path, normal (join path (id ++ suffix)) = normal path ++ [id ++ suffix] := by
    intro path
    rw [join, if_pos (Wasi.relative_of_not_mem hslash), Wasi.split_single hslash hne]
    exact normal_concat path (append_ne (by decide)) (append_ne (by decide))
  have hquarantine : normal (quarantineDir dir) =
      normal dir ++ [".journal".toList] ++ ["quarantine".toList] := by
    have hlast : normal (journalDir dir ++ ["quarantine".toList]) = _ :=
      normal_concat (journalDir dir) (by decide) (by decide)
    rw [normal_journalDir] at hlast
    exact hlast
  constructor
  · rw [recordPath, hjoin, normal_journalDir, List.append_assoc]
    exact List.prefix_append _ _
  · rw [recordPath, hjoin, normal_journalDir, List.append_assoc]
    intro heq
    have hlength := congrArg List.length heq
    rw [List.length_append] at hlength
    change _ + 2 = _ at hlength
    omega
  · rw [quarantinePath, hjoin, hquarantine, List.append_assoc, List.append_assoc]
    exact List.prefix_append _ _

/-! ## Operations -/

/-- Where an operation's path leads below a root. -/
def target (d : List Name) (path : Name) : List Name := normal d ++ (split path).filter (· ≠ dot)

/-- An operation removes something in the root, and neither the root nor the journal. -/
def StaysOp (dirs : Dirs) (dir : List Name) (o : RecoverOp) : Prop :=
  ∀ d, dirs.lookup o.root = some d → normal dir <+: target d o.path ∧
    target d o.path ≠ normal dir ∧ target d o.path ≠ normal (journalDir dir)

theorem normal_join {text : Name} (h : safeRelative text = true) (d : List Name) :
    normal (join d text) = target d text := by
  unfold safeRelative at h
  split at h
  · cases h
  · rename_i habsolute
    have hrelative : Wasi.isRelative text = true := by
      unfold Wasi.isRelative
      split
      · exact absurd rfl (habsolute _)
      · rfl
    rw [join, if_pos hrelative, target]
    exact normal_append d (of_decide_eq_true h).2

theorem stays_op_iff (h : safeRelative o.path = true) :
    (∀ t, applyOp dirs o = some t → t.Stays dir) ↔ StaysOp dirs dir o := by
  have hstays : ∀ d t, t = .removeTree (join d o.path) ∨ t = .delete (join d o.path) →
      (Touch.Stays dir t ↔ normal dir <+: target d o.path ∧ target d o.path ≠ normal dir ∧
        target d o.path ≠ normal (journalDir dir)) := by
    intro d t ht
    have hpaths : t.paths = [join d o.path] ∧ t.removes = [join d o.path] := by
      rcases ht with rfl | rfl <;> exact ⟨rfl, rfl⟩
    rw [← normal_join h]
    constructor
    · intro hs
      have hmem : join d o.path ∈ [join d o.path] := List.mem_cons_self
      exact ⟨hs.inside _ (hpaths.1 ▸ hmem), hs.spares _ (hpaths.2 ▸ hmem)⟩
    · intro hs
      constructor
      · rw [hpaths.1]
        exact List.forall_mem_singleton.mpr hs.1
      · rw [hpaths.2]
        exact List.forall_mem_singleton.mpr hs.2
  have htouch : ∃ f : List Name → Touch, applyOp dirs o = (dirs.lookup o.root).map f ∧
      ∀ d, f d = .removeTree (join d o.path) ∨ f d = .delete (join d o.path) := by
    cases o with
    | removeTree root path => exact ⟨_, rfl, fun d => .inl rfl⟩
    | deleteFile root path => exact ⟨_, rfl, fun d => .inr rfl⟩
  obtain ⟨f, hf, hkind⟩ := htouch
  rw [hf]
  constructor
  · intro hall d hd
    exact (hstays d (f d) (hkind d)).mp (hall (f d) (by rw [hd]; rfl))
  · intro hop t ht
    obtain ⟨d, hd, heq⟩ := Option.map_eq_some_iff.mp ht
    rw [← heq]
    exact (hstays d (f d) (hkind d)).mpr (hop d hd)

theorem stays_iff {ops : List RecoverOp} (hops : ∀ o ∈ ops, safeRelative o.path = true) :
    (∀ t ∈ drivenBy dirs dir id ops, t.Stays dir) ↔
      StaysNamed dir id ∧ ∀ o ∈ ops, StaysOp dirs dir o := by
  unfold drivenBy
  rw [List.forall_mem_append, stays_named_iff]
  apply and_congr_right'
  constructor
  · intro hall o ho
    exact (stays_op_iff (hops o ho)).mp fun t ht => hall t (List.mem_filterMap.mpr ⟨o, ho, ht⟩)
  · intro hall t ht
    obtain ⟨o, ho, heq⟩ := List.mem_filterMap.mp ht
    exact (stays_op_iff (hops o ho)).mpr (hall o ho) t heq

/-! ## Processes -/

def Pid.node : Pid → ℕ
  | .proc node _ _ => node
  | .job _ | .reaper _ => 0

/-- `list_to_pid/1` of a node that is not known is a `badarg`. -/
def seen (known : ℕ → Bool) (rec : Record) : Except BadRecord Record :=
  match rec.kind with
  | .orphan => .ok rec
  | .live =>
      if known rec.req.guardian.node then
        .ok { rec with req := { rec.req with
          steward := rec.req.steward.filter fun p => known p.node } }
      else .error .badHeader

/-- `decode_record/3`, among the nodes that are known. -/
def readRecord (known : ℕ → Bool) (dirs : Dirs) (s : State) (root : RootId) (text : List Char) :
    Except BadRecord Record :=
  (decodeRecord dirs.keys s.incarnation s.gen root text).bind (seen known)

/-- `is_process_alive/1`; of a process on another node it is a `badarg`. -/
def State.isProcessAlive (s : State) (p : Pid) : Option Bool :=
  if p.node = 0 then some (s.isAlive p) else none

/-- `adopt_or_orphan/3`, where it comes to an end. -/
def State.adopt (s : State) (rec : Record) : Option State :=
  match rec.kind with
  | .orphan => some (s.adoptOrOrphan rec)
  | .live =>
      match s.isProcessAlive rec.req.guardian, rec.req.steward with
      | none, _ => none
      | some true, some steward => (s.isProcessAlive steward).map fun _ => s.adoptOrOrphan rec
      | some _, _ => some (s.adoptOrOrphan rec)

/-- The processes that are looked at are its own. -/
structure StaysLocal (s : State) (rec : Record) : Prop where
  guardian : rec.kind = .live → rec.req.guardian.node = 0
  steward : rec.kind = .live → rec.req.guardian ∉ s.gone →
    ∀ p, rec.req.steward = some p → p.node = 0

theorem adopt_isSome_iff (s : State) (rec : Record) :
    (s.adopt rec).isSome = true ↔ StaysLocal s rec := by
  unfold State.adopt
  cases hkind : rec.kind with
  | orphan =>
    have hnot : rec.kind ≠ .live := by
      rw [hkind]
      decide
    exact ⟨fun _ => ⟨fun h => absurd h hnot, fun h => absurd h hnot⟩, fun _ => rfl⟩
  | live =>
    by_cases hnode : rec.req.guardian.node = 0
    · have hlooked : s.isProcessAlive rec.req.guardian = some (s.isAlive rec.req.guardian) :=
        if_pos hnode
      rw [hlooked]
      by_cases hgone : rec.req.guardian ∈ s.gone
      · have halive : s.isAlive rec.req.guardian = false := by simp [State.isAlive, hgone]
        simp only [halive]
        exact ⟨fun _ => ⟨fun _ => hnode, fun _ h => absurd hgone h⟩, fun _ => rfl⟩
      · have halive : s.isAlive rec.req.guardian = true := by simp [State.isAlive, hgone]
        simp only [halive]
        cases hsteward : rec.req.steward with
        | none =>
          refine ⟨fun _ => ⟨fun _ => hnode, fun _ _ p hp => ?_⟩, fun _ => rfl⟩
          rw [hsteward] at hp
          cases hp
        | some steward =>
          show ((s.isProcessAlive steward).map _).isSome = true ↔ _
          rw [Option.isSome_map]
          by_cases hlocal : steward.node = 0
          · have hfound : s.isProcessAlive steward = some (s.isAlive steward) := if_pos hlocal
            rw [hfound]
            refine ⟨fun _ => ⟨fun _ => hnode, fun _ _ p hp => ?_⟩, fun _ => rfl⟩
            rw [hsteward] at hp
            cases hp
            exact hlocal
          · have hfails : s.isProcessAlive steward = none := if_neg hlocal
            rw [hfails]
            constructor
            · intro h
              cases h
            · intro h
              exact absurd (h.steward hkind hgone steward hsteward) hlocal
    · have hfails : s.isProcessAlive rec.req.guardian = none := if_neg hnode
      rw [hfails]
      constructor
      · intro h
        cases h
      · intro h
        exact absurd (h.guardian hkind) hnode

/-! ## The journal -/

/-- Whatever a file says, the reaper starts, knows its roots, and does nothing outside of the root
the file was found in. -/
def Harmless (known : ℕ → Bool) (dirs : Dirs) (s : State) (root : RootId) (text : List Char) :
    Prop :=
  ∀ rec dir, readRecord known dirs s root text = .ok rec → dirs.lookup root = some dir →
    (s.adopt rec).isSome = true ∧ (∀ o ∈ rec.req.ops, o.root ∈ dirs.keys) ∧
      ∀ t ∈ drivenBy dirs dir rec.id rec.req.ops, t.Stays dir

theorem readRecord_ops {known : ℕ → Bool} {s : State} {root : RootId} {text : List Char}
    {rec : Record} (h : readRecord known dirs s root text = .ok rec) :
    ∀ o ∈ rec.req.ops, o.root ∈ dirs.keys ∧ safeRelative o.path = true := by
  have hops : ∀ rec', decodeRecord dirs.keys s.incarnation s.gen root text = .ok rec' →
      ∀ o ∈ rec'.req.ops, o.root ∈ dirs.keys ∧ safeRelative o.path = true := by
    intro rec' hrec o ho
    obtain ⟨_, lines, _, _, hlines⟩ := decodeRecord_ok hrec
    obtain ⟨line, _, hop⟩ := line_of_decodeOps hlines o ho
    exact ⟨(decodeOp_ok hop).1, (decodeOp_ok hop).2.2⟩
  unfold readRecord at h
  cases hrec : decodeRecord dirs.keys s.incarnation s.gen root text with
  | error e =>
    rw [hrec] at h
    cases h
  | ok rec' =>
    rw [hrec] at h
    change seen known rec' = .ok rec at h
    unfold seen at h
    split at h
    · cases h
      exact hops _ hrec
    · split at h
      · cases h
        exact hops rec' hrec
      · cases h

/-- A reservation that the steward has registered one more operation of. -/
def registered (path : String) : Reply × State :=
  (Errand.idle.reserve "x".toList (.proc 0 1 0) (.proc 0 2 0) "r".toList
    "req-x".toList).2.apply "x".toList (.proc 0 2 0) ("x".toList, 1)
    (.register (.op (.deleteFile "r".toList path.toList))) quiet

def oneDir : Dirs := (∅ : Dirs).insert "r".toList [slash, "r".toList]

/-- A record of another incarnation. -/
def orphanText (id : String) : List Char := ("v2 b 0 - - " ++ id ++ "\nremove_tree r req-x\n").toList

end ErlangWasm.Reaper
