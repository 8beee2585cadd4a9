import ErlangWasm.Reasoning.Table
import ErlangWasm.Reasoning.Run

/-!
# Staging files into mounts

A stage writes the file to a temporary name and renames it over the one it is for.  The ledger has
an entry for every path as it was spelled; the disk has files under the components of paths.  How
far the file system lets a stage go is a parameter of the call, and so is whether it removes what is
left of one that failed.  Directories are made as they are needed and are no files.
-/

namespace ErlangWasm.Script.Staging

open Function Reasoning

abbrev Bytes := List UInt8

/-- The components of an absolute path. -/
abbrev Path := List Bytes

/-- A name and `/`. -/
def slash : UInt8 := 47

inductive Entry
  | file (data : Bytes)
  | link
  deriving DecidableEq

structure Disk where
  entry : Path → Option Entry
  /-- Something was written through a link. -/
  strayed : Bool

namespace Disk

def put (d : Disk) (p : Path) (e : Option Entry) : Disk := { d with entry := update d.entry p e }

/-- `file:write_file/3` follows a link. -/
def write (d : Disk) (p : Path) (data : Bytes) : Disk :=
  match d.entry p with
  | some .link => { d with strayed := true }
  | _ => d.put p (some (.file data))

def rename (d : Disk) (src dst : Path) : Disk := (d.put dst (d.entry src)).put src none

def delete (d : Disk) (p : Path) : Disk := d.put p none

end Disk

/-- An entry of the ledger; `path` is not the source's. -/
structure Staged where
  size : ℕ
  path : Path
  deriving DecidableEq

structure State where
  /-- The `host_dir` of each mount. -/
  mounts : Bytes → Option Path
  staged : Table Bytes Staged
  stagedBytes : ℕ
  /-- `none` for `infinity`. -/
  maxStagedBytes : Option ℕ
  maxStagedFiles : Option ℕ
  disk : Disk

inductive Error
  | badStage (message : String)
  | stagedBytesExceeded (limit wouldBe : ℕ)
  | stagedFilesExceeded (limit wouldBe : ℕ)
  | stagingFailed (path : Bytes)
  deriving DecidableEq

/-- How far the file system lets a stage go, and whether it removes the temporary file then. -/
inductive Outcome
  | done
  -- the directory is not made, or the temporary file not opened
  | unopened (removed : Bool)
  | partly (written : Bytes) (removed : Bool)
  | unrenamed (removed : Bool)
  deriving DecidableEq

/-! ## Paths -/

/-- `filename:split/1`: a leading slash is a component, and empty components are none. -/
def split (path : Bytes) : List Bytes :=
  let parts := (path.splitOn slash).filter (· ≠ [])
  if path.head? = some slash then [slash] :: parts else parts

def dot : Bytes := [46]
def dotdot : Bytes := [46, 46]

/-- `walk/2`: whether no component is a link. -/
def walk (d : Disk) : Path → List Bytes → Bool
  | _, [] => true
  | dir, part :: parts =>
    let next := dir ++ [part]
    match d.entry next with
    | some .link => false
    | _ => walk d next parts

/-- `none` is a path that is not a binary. -/
def safeTarget (d : Disk) (dir : Path) (path : Option Bytes) : Except Error Path :=
  match path with
  | none => .error (.badStage "path is not a binary")
  | some path =>
    match split path with
    | [] => .error (.badStage "empty path")
    | first :: rest =>
      if first = [slash] then .error (.badStage "absolute path")
      else if (first :: rest).any fun part => part = dotdot || part = dot then
        .error (.badStage "path escapes the mount")
      else if walk d dir (first :: rest) then .ok (dir ++ first :: rest)
      else .error (.badStage "symlink component")

/-- `[Target, ".part"]` -/
def partName (target : Path) : Path :=
  target.dropLast ++ [target.getLast?.getD [] ++ [46, 112, 97, 114, 116]]

/-! ## A stage -/

def exceeds (n : ℕ) (limit : Option ℕ) : Bool := limit.any fun max => decide (max < n)

/-- `<<Mount/binary, $/, Path/binary>>` -/
def keyOf (mount path : Bytes) : Bytes := mount ++ slash :: path

namespace State

/-- The staged bytes once `size` bytes are staged under `key`. -/
def bytesWith (s : State) (key : Bytes) (size : ℕ) : ℕ :=
  s.stagedBytes - ((s.staged.lookup key).map Staged.size).getD 0 + size

def filesWith (s : State) (key : Bytes) : ℕ :=
  s.staged.entries.length + if (s.staged.lookup key).isNone then 1 else 0

/-- `write_then_rename/3`, and the removal of the temporary file where it fails. -/
def writeThenRename (d : Disk) (tmp target : Path) (data : Bytes) : Outcome → Bool × Disk
  | .done => (true, (d.write tmp data).rename tmp target)
  | .unopened removed => (false, if removed then d.delete tmp else d)
  | .partly written removed =>
    let d := d.write tmp written
    (false, if removed then d.delete tmp else d)
  | .unrenamed removed =>
    let d := d.write tmp data
    (false, if removed then d.delete tmp else d)

def stageWrite (s : State) (mount path : Bytes) (target : Path) (data : Bytes) (outcome : Outcome) :
    Except Error Unit × State :=
  let key := keyOf mount path
  let bytes := s.bytesWith key data.length
  let files := s.filesWith key
  if exceeds bytes s.maxStagedBytes then
    (.error (.stagedBytesExceeded (s.maxStagedBytes.getD 0) bytes), s)
  else if exceeds files s.maxStagedFiles then
    (.error (.stagedFilesExceeded (s.maxStagedFiles.getD 0) files), s)
  else
    match writeThenRename s.disk (partName target) target data outcome with
    | (true, disk) =>
      let staged := s.staged.insert key { size := data.length, path := target }
      (.ok (), { s with staged, stagedBytes := bytes, disk })
    | (false, disk) => (.error (.stagingFailed path), { s with disk })

def doStage (s : State) (mount : Bytes) (path : Option Bytes) (data : Bytes) (outcome : Outcome) :
    Except Error Unit × State :=
  match s.mounts mount with
  | none => (.error (.badStage "undeclared mount"), s)
  | some dir =>
    match safeTarget s.disk dir path with
    | .error e => (.error e, s)
    | .ok target => s.stageWrite mount (path.getD []) target data outcome

end State

structure Call where
  mount : Bytes
  path : Option Bytes
  data : Bytes
  outcome : Outcome

/-- One call to the guardian. -/
def step (s : State) (c : Call) : Option State :=
  some (s.doStage c.mount c.path c.data c.outcome).2

end ErlangWasm.Script.Staging

/-!
## The ledger and the disk

Where nothing is at the temporary name of a stage and the path is spelled as it was before, a stage
changes the one file it is for and its entry, or nothing.
-/

namespace ErlangWasm.Script.Staging

open Function Reasoning Reasoning.Run

/-- A guardian that has staged nothing. -/
def State.init (mounts : Bytes → Option Path) (maxBytes maxFiles : Option ℕ) (disk : Disk) :
    State where
  mounts := mounts
  staged := ∅
  stagedBytes := 0
  maxStagedBytes := maxBytes
  maxStagedFiles := maxFiles
  disk := disk

/-- What a call is going to write, if no check refuses it. -/
def State.target? (s : State) (c : Call) : Option Path :=
  match s.mounts c.mount with
  | none => none
  | some dir =>
    match safeTarget s.disk dir c.path with
    | .error _ => none
    | .ok target =>
      let key := keyOf c.mount (c.path.getD [])
      if exceeds (s.bytesWith key c.data.length) s.maxStagedBytes then none
      else if exceeds (s.filesWith key) s.maxStagedFiles then none
      else some target

/-- No temporary file that holds anything is left behind. -/
def Outcome.Clean : Outcome → Prop
  | .done | .unopened _ => True
  | .partly _ removed | .unrenamed removed => removed = true

instance (o : Outcome) : Decidable o.Clean := by
  unfold Outcome.Clean
  split <;> infer_instance

/-- A call that gets to write finds nothing at its temporary name and leaves nothing there, and its
file is in the ledger under the call's own spelling or not at all. -/
def Ok (s : State) (c : Call) : Prop :=
  ∀ target ∈ s.target? c,
    s.disk.entry (partName target) = none ∧ c.outcome.Clean ∧
      ∀ e ∈ s.staged.entries, e.2.path = target ↔ e.1 = keyOf c.mount (c.path.getD [])

instance (s : State) (c : Call) : Decidable (Ok s c) :=
  inferInstanceAs (Decidable (∀ _ ∈ _, _))

/-! ## The promise -/

def Entry.size : Option Entry → ℕ
  | some (.file data) => data.length
  | _ => 0

/-- The bytes on the disk in the files of the ledger. -/
def State.onDisk (s : State) : ℕ :=
  Table.total (fun _ e => Entry.size (s.disk.entry e.path)) s.staged

structure Accounted (start : Disk) (s : State) : Prop where
  /-- The ledger lists files, each with its size. -/
  listed : ∀ key e, s.staged.lookup key = some e →
    ∃ data, s.disk.entry e.path = some (.file data) ∧ data.length = e.size
  once : ∀ key key' e e', s.staged.lookup key = some e → s.staged.lookup key' = some e' →
    e.path = e'.path → key = key'
  /-- And nothing else is on the disk that was not there. -/
  others : ∀ p, (∀ key e, s.staged.lookup key = some e → e.path ≠ p) →
    s.disk.entry p = start.entry p
  strayed : s.disk.strayed = start.strayed
  sum : s.stagedBytes = Table.total (fun _ e => e.size) s.staged
  onDisk : s.onDisk = s.stagedBytes
  bytes : exceeds s.stagedBytes s.maxStagedBytes = false
  files : exceeds s.staged.entries.length s.maxStagedFiles = false

/-- What a call may do: nothing, when it answers an error; else it puts its file where the path says
inside the mount, and the file's size under the path's key. -/
inductive Contained (s : State) (c : Call) : Except Error Unit × State → Prop
  | refused (e : Error) : Contained s c (.error e, s)
  | staged {t : State} {dir : Path} {path : Bytes} (hmount : s.mounts c.mount = some dir)
      (hpath : c.path = some path) (hinside : ∀ part ∈ split path, part ∉ [[slash], dot, dotdot])
      (hfile : t.disk.entry (dir ++ split path) = some (.file c.data))
      (hframe : ∀ p, p ≠ dir ++ split path → t.disk.entry p = s.disk.entry p)
      (hstrayed : t.disk.strayed = s.disk.strayed)
      (hledger : t.staged =
        s.staged.insert (keyOf c.mount path) ⟨c.data.length, dir ++ split path⟩) :
      Contained s c (.ok (), t)

/-! ## The disk -/

variable {d : Disk} {p tmp target : Path} {data : Bytes} {s t : State} {c : Call}

theorem partName_ne (target : Path) : partName target ≠ target := by
  intro h
  have hlast := congrArg List.getLast? h
  rw [partName, List.getLast?_concat] at hlast
  rw [← hlast, Option.getD_some] at hlast
  have hlength := congrArg List.length (Option.some.inj hlast)
  rw [List.length_append] at hlength
  simp at hlength

theorem put_put (d : Disk) (p : Path) (e e' : Option Entry) :
    (d.put p e).put p e' = d.put p e' := by
  simp [Disk.put]

theorem put_comm (h : p ≠ target) (d : Disk) (e e' : Option Entry) :
    (d.put p e).put target e' = (d.put target e').put p e := by
  simp [Disk.put, update_comm h]

theorem put_none (h : d.entry p = none) : d.put p none = d := by
  unfold Disk.put
  rw [← h, update_eq_self]

theorem write_of_none (h : d.entry p = none) (data : Bytes) :
    d.write p data = d.put p (some (.file data)) := by
  unfold Disk.write
  rw [h]

/-- A stage that fails leaves the disk as it was. -/
theorem writeThenRename_error {outcome : Outcome} {d' : Disk} (htmp : d.entry tmp = none)
    (hclean : outcome.Clean)
    (h : State.writeThenRename d tmp target data outcome = (false, d')) : d' = d := by
  cases outcome with
  | done => cases h
  | unopened removed =>
    cases h
    split
    · exact put_none htmp
    · rfl
  | partly written removed | unrenamed removed =>
    cases hclean
    cases h
    rw [if_pos rfl, write_of_none htmp, Disk.delete, put_put, put_none htmp]

/-- One that succeeds puts the file. -/
theorem writeThenRename_ok {outcome : Outcome} {d' : Disk} (htmp : d.entry tmp = none)
    (hne : tmp ≠ target) (h : State.writeThenRename d tmp target data outcome = (true, d')) :
    d' = d.put target (some (.file data)) := by
  cases outcome with
  | done =>
    cases h
    rw [write_of_none htmp, Disk.rename]
    have hentry : (d.put tmp (some (.file data))).entry tmp = some (.file data) := update_self ..
    have hafter : (d.put target (some (.file data))).entry tmp = none :=
      (update_of_ne hne _ _).trans htmp
    rw [hentry, put_comm hne, put_put, put_none hafter]
  | _ => cases h

/-! ## What a call names -/

theorem not_mem_of_mem_splitOn {path part : Bytes} (h : part ∈ path.splitOn slash) :
    slash ∉ part := by
  induction path generalizing part with
  | nil =>
    rw [List.splitOn_nil, List.mem_singleton] at h
    exact h ▸ List.not_mem_nil
  | cons x path ih =>
    rw [List.splitOn_cons_eq_if_modifyHead] at h
    split at h
    · rcases List.mem_cons.mp h with rfl | h
      · exact List.not_mem_nil
      · exact ih h
    · rename_i hx
      obtain ⟨first, rest, hparts⟩ := List.exists_cons_of_ne_nil (List.splitOn_ne_nil slash path)
      rw [hparts, List.modifyHead_cons] at h
      have hslash : slash ≠ x := fun heq => hx (by rw [heq]; exact beq_self_eq_true x)
      rcases List.mem_cons.mp h with rfl | h
      · have hfirst : slash ∉ first := ih (hparts ▸ List.mem_cons_self)
        simp [hslash, hfirst]
      · exact ih (hparts ▸ List.mem_cons_of_mem first h)

theorem slash_not_mem_split {path first : Bytes} {rest : List Bytes}
    (h : split path = first :: rest) (hfirst : first ≠ [slash]) : [slash] ∉ split path := by
  by_cases hhead : path.head? = some slash
  · rw [split, if_pos hhead] at h
    exact absurd (List.cons.inj h).1.symm hfirst
  · have hsplit : split path = (path.splitOn slash).filter (· ≠ []) := if_neg hhead
    rw [hsplit]
    intro hmem
    exact not_mem_of_mem_splitOn (List.mem_of_mem_filter hmem) (List.mem_singleton_self slash)

/-- The components of a path that is let through. -/
theorem split_of_safeTarget {dir : Path} {path? : Option Bytes}
    (h : safeTarget d dir path? = .ok target) :
    ∃ path, path? = some path ∧ target = dir ++ split path ∧
      ∀ part ∈ split path, part ∉ [[slash], dot, dotdot] := by
  unfold safeTarget at h
  split at h
  · cases h
  · rename_i path
    refine ⟨path, rfl, ?_⟩
    split at h
    · cases h
    · rename_i first rest hsplit
      split at h
      · cases h
      split at h
      · cases h
      split at h
      · rename_i hfirst hdots _
        cases h
        refine ⟨by rw [hsplit], fun part hpart => ?_⟩
        have hslash := slash_not_mem_split hsplit hfirst
        rw [← hsplit] at hdots
        simp only [List.any_eq_true, not_exists, not_and, Bool.or_eq_true, decide_eq_true_eq,
          not_or] at hdots
        obtain ⟨hdotdot, hdot⟩ := hdots part hpart
        simp only [List.mem_cons, List.not_mem_nil, or_false, not_or]
        exact ⟨fun heq => hslash (heq ▸ hpart), hdot, hdotdot⟩
      · cases h

/-- A call is refused, or gets to write. -/
theorem doStage_cases (s : State) (c : Call) :
    (∃ e, s.doStage c.mount c.path c.data c.outcome = (.error e, s)) ∨
      ∃ dir path target, s.mounts c.mount = some dir ∧ c.path = some path ∧
        safeTarget s.disk dir c.path = .ok target ∧ s.target? c = some target ∧
        exceeds (s.bytesWith (keyOf c.mount path) c.data.length) s.maxStagedBytes = false ∧
        exceeds (s.filesWith (keyOf c.mount path)) s.maxStagedFiles = false ∧
        s.doStage c.mount c.path c.data c.outcome =
          match State.writeThenRename s.disk (partName target) target c.data c.outcome with
          | (true, disk) =>
            (.ok (), { s with
              staged := s.staged.insert (keyOf c.mount path) ⟨c.data.length, target⟩
              stagedBytes := s.bytesWith (keyOf c.mount path) c.data.length
              disk })
          | (false, disk) => (.error (.stagingFailed path), { s with disk }) := by
  unfold State.doStage State.target?
  cases hmount : s.mounts c.mount with
  | none => exact .inl ⟨_, rfl⟩
  | some dir =>
    cases hsafe : safeTarget s.disk dir c.path with
    | error e => exact .inl ⟨e, by simp only [hsafe]⟩
    | ok target =>
      obtain ⟨path, hpath, -⟩ := split_of_safeTarget hsafe
      rw [hpath] at hsafe
      simp only [hpath, hsafe, Option.getD_some, State.stageWrite]
      cases hbytes : exceeds (s.bytesWith (keyOf c.mount path) c.data.length) s.maxStagedBytes with
      | true => exact .inl ⟨_, rfl⟩
      | false =>
        cases hfiles : exceeds (s.filesWith (keyOf c.mount path)) s.maxStagedFiles with
        | true => exact .inl ⟨_, rfl⟩
        | false => exact .inr ⟨dir, path, target, rfl, rfl, hsafe, rfl, hbytes, hfiles, rfl⟩

/-- What a call that meets the condition does. -/
theorem doStage_of_ok (hok : Ok s c) :
    (∃ e, s.doStage c.mount c.path c.data c.outcome = (.error e, s)) ∨
      ∃ dir path, s.mounts c.mount = some dir ∧ c.path = some path ∧
        (∀ part ∈ split path, part ∉ [[slash], dot, dotdot]) ∧
        s.target? c = some (dir ++ split path) ∧
        exceeds (s.bytesWith (keyOf c.mount path) c.data.length) s.maxStagedBytes = false ∧
        exceeds (s.filesWith (keyOf c.mount path)) s.maxStagedFiles = false ∧
        s.doStage c.mount c.path c.data c.outcome =
          (.ok (), { s with
            staged := s.staged.insert (keyOf c.mount path) ⟨c.data.length, dir ++ split path⟩
            stagedBytes := s.bytesWith (keyOf c.mount path) c.data.length
            disk := s.disk.put (dir ++ split path) (some (.file c.data)) }) := by
  obtain herror | ⟨dir, path, target, hmount, hpath, hsafe, htarget, hbytes, hfiles, heq⟩ :=
    doStage_cases s c
  · exact .inl herror
  obtain ⟨htmp, hclean, -⟩ := hok target htarget
  cases hwrite : State.writeThenRename s.disk (partName target) target c.data c.outcome with
  | mk ok disk =>
    rw [hwrite] at heq
    cases ok with
    | false =>
      obtain rfl := writeThenRename_error htmp hclean hwrite
      exact .inl ⟨_, heq⟩
    | true =>
      obtain rfl := writeThenRename_ok htmp (partName_ne target) hwrite
      obtain ⟨path', hpath', rfl, hinside⟩ := split_of_safeTarget hsafe
      obtain rfl : path' = path := Option.some.inj (hpath'.symm.trans hpath)
      exact .inr ⟨dir, path', hmount, hpath, hinside, htarget, hbytes, hfiles, heq⟩

theorem contained_of_ok (hok : Ok s c) :
    Contained s c (s.doStage c.mount c.path c.data c.outcome) := by
  obtain ⟨e, heq⟩ | ⟨dir, path, hmount, hpath, hinside, -, -, -, heq⟩ := doStage_of_ok hok
  · rw [heq]
    exact .refused e
  · rw [heq]
    exact .staged hmount hpath hinside (update_self ..) (fun p hp => update_of_ne hp _ _) rfl rfl

/-! ## The ledger -/

theorem accounted_init (mounts : Bytes → Option Path) (maxBytes maxFiles : Option ℕ)
    (start : Disk) : Accounted start (State.init mounts maxBytes maxFiles start) where
  listed := nofun
  once := nofun
  others _ _ := rfl
  strayed := rfl
  sum := rfl
  onDisk := rfl
  bytes := by cases maxBytes <;> simp [exceeds, State.init]
  files := by cases maxFiles <;> simp [exceeds, State.init]

/-- The entry of a key goes, and what it had is no longer counted. -/
theorem total_erase (f : Bytes → Staged → ℕ) (staged : Table Bytes Staged) (key : Bytes) :
    Table.total f (staged.erase key) =
      Table.total f staged - ((staged.lookup key).map (f key)).getD 0 := by
  cases h : staged.lookup key with
  | none => simp [Table.erase_of_lookup_none h]
  | some e =>
    rw [Table.total_of_lookup f h]
    simp

theorem length_entries (staged : Table Bytes Staged) :
    staged.entries.length = Table.total (fun _ _ => 1) staged := by
  rw [Table.total, List.map_const', List.sum_replicate]
  exact (Nat.mul_one _).symm

/-- Files that are listed with their sizes take as much as the ledger says. -/
theorem onDisk_of_listed (h : ∀ key e, s.staged.lookup key = some e →
    ∃ data, s.disk.entry e.path = some (.file data) ∧ data.length = e.size) :
    s.onDisk = Table.total (fun _ e => e.size) s.staged := by
  unfold State.onDisk Table.total
  congr 1
  refine List.map_congr_left fun e he => ?_
  obtain ⟨data, hfile, hsize⟩ := h e.1 e.2 (Table.lookup_eq_some_iff.mpr he)
  show Entry.size (s.disk.entry e.2.path) = e.2.size
  rw [hfile]
  exact hsize

theorem filesWith_eq (s : State) (key : Bytes) (e : Staged) :
    (s.staged.insert key e).entries.length = s.filesWith key := by
  rw [length_entries, Table.total_insert, State.filesWith, length_entries]
  cases h : s.staged.lookup key with
  | none => simp [Table.erase_of_lookup_none h, Nat.add_comm]
  | some e' =>
    rw [Table.total_of_lookup _ h]
    rfl

/-- A file put under its key's spelling. -/
theorem Accounted.stage {start : Disk} (h : Accounted start s) {key : Bytes}
    (hspelled : ∀ k e, s.staged.lookup k = some e → (e.path = target ↔ k = key))
    (hbytes : exceeds (s.bytesWith key data.length) s.maxStagedBytes = false)
    (hfiles : exceeds (s.filesWith key) s.maxStagedFiles = false) :
    Accounted start { s with
      staged := s.staged.insert key ⟨data.length, target⟩
      stagedBytes := s.bytesWith key data.length
      disk := s.disk.put target (some (.file data)) } := by
  have hlisted : ∀ k e, (s.staged.insert key ⟨data.length, target⟩).lookup k = some e →
      ∃ data', (s.disk.put target (some (.file data))).entry e.path = some (.file data') ∧
        data'.length = e.size := by
    intro k e hk
    rw [Table.lookup_insert_eq] at hk
    split at hk
    · cases hk
      exact ⟨data, update_self .., rfl⟩
    · rename_i hne
      obtain ⟨data', hfile, hsize⟩ := h.listed k e hk
      refine ⟨data', ?_, hsize⟩
      exact (update_of_ne (fun heq => hne ((hspelled k e hk).mp heq)) _ _).trans hfile
  have hsum : s.bytesWith key data.length =
      Table.total (fun _ e => e.size) (s.staged.insert key ⟨data.length, target⟩) := by
    rw [Table.total_insert, total_erase, State.bytesWith, h.sum, Nat.add_comm]
  refine ⟨hlisted, ?_, ?_, h.strayed, hsum, (onDisk_of_listed hlisted).trans hsum.symm, hbytes, ?_⟩
  · intro k k' e e' hk hk' heq
    rw [Table.lookup_insert_eq] at hk hk'
    split at hk <;> split at hk'
    · simp_all
    · cases hk
      exact absurd ((hspelled k' e' hk').mp heq.symm) ‹_›
    · cases hk'
      exact absurd ((hspelled k e hk).mp heq) ‹_›
    · exact h.once k k' e e' hk hk' heq
  · intro p hp
    have htarget : target ≠ p := hp key _ (AList.lookup_insert _)
    refine (update_of_ne htarget.symm _ _).trans (h.others p fun k e hk heq => ?_)
    by_cases hkey : k = key
    · exact htarget (((hspelled k e hk).mpr hkey).symm.trans heq)
    · exact hp k e (by rw [Table.lookup_insert_eq, if_neg hkey]; exact hk) heq
  · rw [filesWith_eq]
    exact hfiles

theorem accounted_step {start : Disk} (h : Accounted start s) (hok : Ok s c)
    (hstep : step s c = some t) : Accounted start t := by
  obtain rfl := Option.some.inj hstep
  obtain ⟨e, heq⟩ | ⟨dir, path, hmount, hpath, -, htarget, hbytes, hfiles, heq⟩ := doStage_of_ok hok
  · rw [heq]
    exact h
  obtain ⟨-, -, hspelled⟩ := hok _ htarget
  rw [hpath, Option.getD_some] at hspelled
  rw [heq]
  exact h.stage (fun k e hk => hspelled ⟨k, e⟩ (Table.lookup_eq_some_iff.mp hk)) hbytes hfiles

/-- In runs of calls that meet the condition the ledger and the disk agree, and each further one is
contained. -/
theorem staging_exact (mounts : Bytes → Option Path) (maxBytes maxFiles : Option ℕ) (start : Disk)
    (h : ReachableIf step Ok (State.init mounts maxBytes maxFiles start) s) :
    Accounted start s ∧
      ∀ c, Ok s c → Contained s c (s.doStage c.mount c.path c.data c.outcome) :=
  ⟨h.invariant (Accounted start) (accounted_init mounts maxBytes maxFiles start)
    fun _ _ _ hs hok hstep => accounted_step hs hok hstep, fun _ hok => contained_of_ok hok⟩

/-- One mount, and nothing in it. -/
def empty : State :=
  State.init (fun mount => if mount = [109] then some [[109]] else none) (some 8) (some 2)
    ⟨fun _ => none, false⟩

/-- `x`, and `x` again, which fails when it is renamed. -/
def restaged : List Call :=
  [⟨[109], some [120], [1, 2], .done⟩, ⟨[109], some [120], [3], .unrenamed true⟩]

theorem staging_exact_restaged :
    ∃ s, execIf step Ok restaged empty = some s ∧
      s.disk.entry [[109], [120]] = some (.file [1, 2]) ∧ Accounted empty.disk s ∧
      ∀ c, Ok s c → Contained s c (s.doStage c.mount c.path c.data c.outcome) := by
  have hsome : (execIf step Ok restaged empty).isSome := by decide +kernel
  obtain ⟨s, hs⟩ := Option.isSome_iff_exists.mp hsome
  have hend : ∀ s ∈ execIf step Ok restaged empty,
      s.disk.entry [[109], [120]] = some (.file [1, 2]) := by decide +kernel
  exact ⟨s, hs, hend s hs, staging_exact _ _ _ _ (ReachableIf.of_execIf .init hs)⟩

/-- `x.part` -/
def xPart : Bytes := [120, 46, 112, 97, 114, 116]

/-- `x.part`, and `x`. -/
def overwritten : List Call :=
  [⟨[109], some xPart, [1, 2], .done⟩, ⟨[109], some [120], [3], .done⟩]

theorem not_staging_exact :
    ¬ ∀ s, Reachable step empty s → Accounted empty.disk s ∧
      ∀ c, Contained s c (s.doStage c.mount c.path c.data c.outcome) := by
  intro h
  have hsome : (exec step overwritten empty).isSome := by decide +kernel
  obtain ⟨s, hs⟩ := Option.isSome_iff_exists.mp hsome
  -- the second is written where the first is, and takes it away
  have hend : ∀ s ∈ exec step overwritten empty,
      s.staged.lookup (keyOf [109] xPart) = some ⟨2, [[109], xPart]⟩ ∧
        s.disk.entry [[109], xPart] = none := by decide +kernel
  obtain ⟨hlisted, hnone⟩ := hend s hs
  obtain ⟨data, hfile, -⟩ := (h s (Reachable.of_exec .init hs)).1.listed _ _ hlisted
  rw [hnone] at hfile
  cases hfile

end ErlangWasm.Script.Staging
