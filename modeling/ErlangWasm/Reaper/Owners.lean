import ErlangWasm.Reaper.Living

/-!
# Nothing is cleaned up behind a living request

The sweep takes each record for what it is, and removes no directory that a record names.
-/

namespace ErlangWasm.Reaper

open Reasoning
open Wasi (Name)

namespace State

variable {s s' s₀ : State} {excused : RequestId → Prop} {minted : Finset RequestId}
  {id : RequestId} {r : Req} {root : RootId} {d : RootDir}

/-! ## Records that are adopted -/

theorem Living.adoptSteward (hs : Living excused minted s) (hmon : r.mon ≠ none)
    (hdue : ¬s.Due id) (hid : id ∈ minted) : Living excused minted (s.adoptSteward id r) := by
  have hput : (r.smon = none → ∀ p, r.steward = some p → p ∈ s.gone) →
      Living excused minted (s.putReq id r) := by
    intro hsmon
    exact hs.putReq (fun h => absurd h hmon) hsmon (fun h => absurd h hdue) hid
  unfold State.adoptSteward
  split
  · rename_i steward hsteward
    split
    · have hset : Living excused minted
          ((s.monitor steward).tell steward (.adoptRequest r.gen id)) :=
        ⟨hs.guardian, hs.steward, hs.due, hs.stored, hs.minted, hs.spawned⟩
      apply hset.putReq
      · intro h
        exact absurd h hmon
      · intro h
        cases h
      · intro h
        exact absurd h hdue
      · exact hid
    · rename_i hdead
      apply hput
      intro _ p hp
      rw [hsteward, Option.some.injEq] at hp
      rw [← hp]
      unfold isAlive at hdead
      simpa using hdead
  · rename_i hsteward
    apply hput
    intro _ p hp
    rw [hsteward] at hp
    cases hp

theorem Living.adoptOrOrphan (hs : Living excused minted s) {rec : Record} (hnew : rec.id ∉ minted)
    (hfresh : rec.Fresh root) (horphan : rec.kind = .orphan → excused rec.id)
    (hattended : rec.kind = .orphan ∨ s.isAlive rec.req.guardian = true ∨
      rec.req.steward.all (fun p => !s.isAlive p) = true) :
    Living excused (insert rec.id minted) (s.adoptOrOrphan rec) := by
  have hid : rec.id ∈ insert rec.id minted := Finset.mem_insert_self rec.id minted
  have hdue : ¬s.Due rec.id := fun h => hnew (hs.minted rec.id h)
  have hgrown := hs.mono (fun _ h => h) (Finset.subset_insert rec.id minted) s.gone
    (Finset.Subset.refl s.gone)
  have hcleanup : (excused rec.id ∨ rec.req.guardian ∈ s.gone) →
      (∀ p, rec.req.steward = some p → p ∈ s.gone) →
      Living excused (insert rec.id minted) (s.schedule rec.id { rec.req with
        stage := .queued, mon := none, gen := s.gen }) := by
    intro hguardian hsteward
    apply Living.schedule
    · apply hgrown.putReq
      · exact fun _ => hguardian
      · exact fun _ => hsteward
      · exact fun h => absurd h hdue
      · exact hid
    · exact hguardian.imp_right fun h => ⟨h, hsteward⟩
  unfold State.adoptOrOrphan
  simp only
  split
  · rename_i hkind
    apply hcleanup
    · exact .inl (horphan hkind)
    · intro p hp
      rw [hfresh.orphan hkind] at hp
      cases hp
  · rename_i hkind
    split
    · have hasked := hgrown.ask rec.id { rec.req with
        stage := .pending, mon := some s.nextRef, gen := s.gen }
      refine Living.adoptSteward (s := (s.monitor rec.req.guardian).ask rec.id _)
        ⟨hasked.guardian, hasked.steward, hasked.due, hasked.stored, hasked.minted,
          hasked.spawned⟩ ?_ ?_ hid
      · simp
      · intro h
        have hasked' := (hs.ask rec.id { rec.req with
          stage := .pending, mon := some s.nextRef, gen := s.gen }).minted rec.id h
        exact hnew hasked'
    · rename_i hdead
      apply hcleanup
      · right
        unfold isAlive at hdead
        simpa using hdead
      · intro p hp
        rcases hattended with h | h | h
        · rw [hkind] at h
          cases h
        · exact absurd h hdead
        · rw [hp] at h
          unfold isAlive at h
          simpa using h

theorem living_sweep {disk : Disk} (hs : Living excused ∅ s)
    (hnodup : ((s.records disk).map (·.id)).Nodup)
    (horphan : ∀ rec ∈ s.records disk, rec.kind = .orphan → excused rec.id)
    (hattended : ∀ rec ∈ s.records disk, rec.kind = .orphan ∨
      s.isAlive rec.req.guardian = true ∨
        rec.req.steward.all (fun p => !s.isAlive p) = true) :
    Living excused ((s.records disk).map (·.id)).toFinset (s.sweep disk).1 := by
  have hall := sweep_records
    (P := fun taken s => Living excused (taken.map (·.id)).toFinset s) disk ?_ ?_ hs
  · exact hall.2
  · intro taken rec rest s' hrecords hhere hs'
    have hmem : rec ∈ s.records disk := by
      rw [hrecords]
      simp
    obtain ⟨e, _, hrec⟩ := List.mem_flatMap.mp hmem
    obtain ⟨f, _, hfile⟩ := List.mem_filterMap.mp hrec
    have hids : ((taken ++ [rec]).map (·.id)).toFinset =
        insert rec.id (taken.map (·.id)).toFinset := by
      rw [List.map_append, List.toFinset_append, Finset.union_comm]
      rfl
    rw [hids]
    apply hs'.adoptOrOrphan
    · rw [hrecords, List.map_append, List.map_cons] at hnodup
      rw [List.mem_toFinset]
      intro h
      exact (List.nodup_append'.mp hnodup).2.2 h List.mem_cons_self
    · exact decodedFile_fresh hfile
    · exact horphan rec hmem
    · unfold isAlive
      rw [hhere.gone]
      exact hattended rec hmem
  · intro taken s' n hs'
    exact ⟨hs'.guardian, hs'.steward, hs'.due, hs'.stored, hs'.minted, hs'.spawned⟩

/-! ## The directories of a root -/

/-- It can be read and makes no sense. -/
def malformed (s : State) (root : RootId) (f : Name × Option (List Char)) : Bool :=
  match f.2 with
  | some text => !(decodeRecord s.roots s.incarnation s.gen root text).isOk
  | none => false

def moved (s : State) (root : RootId) (d : RootDir) (fs : List (Name × Option (List Char))) :
    List Name :=
  (fs.filter fun f => s.malformed root f && d.moves f.1).map (·.1)

theorem sweepOne_moved (hhere : s₀.Here s) (root : RootId) (d : RootDir) (names : List Name)
    (f : Name × Option (List Char)) :
    (sweepOne root d (s, names) f).2 = names ++ s₀.moved root d [f] := by
  unfold sweepOne moved malformed
  rw [List.filter_singleton]
  simp only [hhere.roots, hhere.incarnation, hhere.gen]
  cases f.2 with
  | none => simp
  | some text =>
    simp only
    cases decodeRecord s₀.roots s₀.incarnation s₀.gen root text with
    | error e =>
      by_cases hmoves : d.moves f.1 = true
      · simp [hmoves, Except.isOk, Except.toBool]
      · simp [hmoves]
    | ok rec => simp [Except.isOk, Except.toBool]

theorem foldl_moved (root : RootId) (d : RootDir) (fs : List (Name × Option (List Char)))
    (sm : State × List Name) (hhere : s₀.Here sm.1) :
    (fs.foldl (sweepOne root d) sm).2 = sm.2 ++ s₀.moved root d fs := by
  induction fs generalizing sm with
  | nil => exact (List.append_nil _).symm
  | cons f fs ih =>
    have hcons : s₀.moved root d (f :: fs) = s₀.moved root d [f] ++ s₀.moved root d fs := by
      unfold moved
      rw [← List.map_append, ← List.filter_append]
      rfl
    have hmoved := sweepOne_moved hhere root d sm.2 f
    rw [List.foldl_cons, ih, hcons, ← List.append_assoc]
    · change (sweepOne root d sm f).2 = _ at hmoved
      rw [hmoved]
    · rcases sweepOne_cases sm.1 root d sm.2 f with ⟨rec, _, heq⟩ | ⟨_, n, heq⟩
      · change sweepOne root d sm f = _ at heq
        rw [heq]
        exact hhere.trans (here_adoptOrOrphan _ _)
      · change (sweepOne root d sm f).1 = _ at heq
        rw [heq]
        exact hhere.trans ⟨rfl, rfl, rfl, rfl⟩

/-- The requests of the records taken so far are stored, with their directories. -/
def Stores (taken : List Record) (s : State) : Prop :=
  ∀ rec ∈ taken, ∃ r, s.reqs.lookup rec.id = some r ∧ r.root = rec.req.root ∧
    r.relpath = rec.req.relpath

theorem Stores.pump {taken : List Record} (hs : Stores taken s) : Stores taken s.pump := by
  refine pump_induct (P := Stores taken) ?_ hs
  intro s id rest hs _ rec hrec
  obtain ⟨r, hr, hroot, hrelpath⟩ := hs rec hrec
  change s.reqs.lookup rec.id = some r at hr
  show ∃ r, (s.pumpOne id).reqs.lookup rec.id = some r ∧ _
  unfold pumpOne
  cases hold : s.reqs.lookup id with
  | none => exact ⟨r, hr, hroot, hrelpath⟩
  | some old =>
    have hreqs : (s.startJob id old).reqs.lookup rec.id =
        if rec.id = id then some { old with stage := .running } else s.reqs.lookup rec.id :=
      Table.lookup_insert_eq _ _ _
    by_cases hid : rec.id = id
    · rw [if_pos hid] at hreqs
      rw [hid, hold, Option.some.injEq] at hr
      rw [← hr] at hroot hrelpath
      exact ⟨_, hreqs, hroot, hrelpath⟩
    · rw [if_neg hid] at hreqs
      exact ⟨r, hreqs.trans hr, hroot, hrelpath⟩

theorem Stores.put {taken : List Record} (hs : Stores taken s) {rec : Record}
    (hnew : ∀ rec' ∈ taken, rec'.id ≠ rec.id) (hroot : r.root = rec.req.root)
    (hrelpath : r.relpath = rec.req.relpath) : Stores (taken ++ [rec]) (s.putReq rec.id r) := by
  have hreqs : ∀ j, (s.putReq rec.id r).reqs.lookup j =
      if j = rec.id then some r else s.reqs.lookup j := fun j => Table.lookup_insert_eq _ _ _
  intro rec' hrec'
  rcases List.mem_append.mp hrec' with h | h
  · obtain ⟨r', hr', hroot', hrelpath'⟩ := hs rec' h
    refine ⟨r', ?_, hroot', hrelpath'⟩
    rw [hreqs, if_neg (hnew rec' h)]
    exact hr'
  · cases List.mem_singleton.mp h
    refine ⟨r, ?_, hroot, hrelpath⟩
    rw [hreqs, if_pos rfl]

theorem Stores.adoptSteward {taken : List Record} (hs : Stores taken s) {rec : Record}
    (hnew : ∀ rec' ∈ taken, rec'.id ≠ rec.id) (hroot : r.root = rec.req.root)
    (hrelpath : r.relpath = rec.req.relpath) :
    Stores (taken ++ [rec]) (s.adoptSteward rec.id r) := by
  unfold State.adoptSteward
  split
  · rename_i steward _
    split
    · have htold : Stores taken ((s.monitor steward).tell steward (.adoptRequest r.gen rec.id)) := hs
      exact htold.put hnew hroot hrelpath
    · exact hs.put hnew hroot hrelpath
  · exact hs.put hnew hroot hrelpath

theorem Stores.adoptOrOrphan {taken : List Record} (hs : Stores taken s) {rec : Record}
    (hnew : ∀ rec' ∈ taken, rec'.id ≠ rec.id) : Stores (taken ++ [rec]) (s.adoptOrOrphan rec) := by
  have hcleanup : Stores (taken ++ [rec]) (s.schedule rec.id { rec.req with
      stage := .queued, mon := none, gen := s.gen }) := by
    apply Stores.pump
    exact hs.put hnew rfl rfl
  unfold State.adoptOrOrphan
  simp only
  split
  · exact hcleanup
  · split
    · have hasked : Stores taken ((s.monitor rec.req.guardian).ask rec.id { rec.req with
        stage := .pending, mon := some s.nextRef, gen := s.gen }) := hs
      exact hasked.adoptSteward hnew rfl rfl
    · exact hcleanup

/-- A root is swept when its records are taken. -/
theorem sweep_dirs {disk : Disk} {Q : RootId × RootDir × List Name → Prop}
    (hnodup : ((s₀.records disk).map (·.id)).Nodup)
    (hroot : ∀ e ∈ disk, ∀ s, s₀.Here s → Stores (s₀.decoded e.1 e.2) s →
      Q (e.1, e.2, s.sweepUnrecorded e.1 e.2 (s₀.moved e.1 e.2 e.2.listed))) :
    ∀ x ∈ (s₀.sweep disk).2, Q x := by
  have hadopt : ∀ taken rec rest s, s₀.records disk = taken ++ rec :: rest → s₀.Here s →
      Stores taken s → Stores (taken ++ [rec]) (s.adoptOrOrphan rec) := by
    intro taken rec rest s hrecords _ hs
    apply hs.adoptOrOrphan
    intro rec' hrec' hsame
    rw [hrecords, List.map_append, List.map_cons] at hnodup
    apply (List.nodup_append'.mp hnodup).2.2 (List.mem_map_of_mem hrec')
    rw [hsame]
    exact List.mem_cons_self
  have hroots : ∀ (es : Disk) (taken : List Record)
      (sr : State × List (RootId × RootDir × List Name)), (∀ e ∈ es, e ∈ disk) →
      s₀.records disk = taken ++ s₀.records es → s₀.Here sr.1 → Stores taken sr.1 →
      (∀ x ∈ sr.2, Q x) → ∀ x ∈ (es.foldl sweepRoot sr).2, Q x := by
    intro es
    induction es with
    | nil => exact fun _ _ _ _ _ _ h => h
    | cons e es ih =>
      intro taken sr hdisk hall hhere hs hq
      have hcons : s₀.records (e :: es) =
          e.2.listed.filterMap (s₀.decodedFile e.1) ++ s₀.records es := rfl
      rw [hcons, ← List.append_assoc] at hall
      obtain ⟨hhere', hs'⟩ := records_induct (P := Stores) hadopt (fun _ _ _ h => h) e.1 e.2
        e.2.listed taken (s₀.records es) (sr.1, []) hall hhere hs
      have hmoved := foldl_moved e.1 e.2 e.2.listed (sr.1, []) hhere
      rw [List.nil_append] at hmoved
      refine ih _ _ (fun x hx => hdisk x (List.mem_cons_of_mem e hx)) hall hhere' hs' ?_
      intro x hx
      rcases List.mem_append.mp hx with h | h
      · exact hq x h
      · cases List.mem_singleton.mp h
        rw [hmoved]
        apply hroot e (hdisk e List.mem_cons_self) _ hhere'
        intro rec hrec
        exact hs' rec (List.mem_append_right taken hrec)
  exact hroots disk [] (s₀, []) (fun _ h => h) rfl (.refl s₀) (fun _ h => by cases h)
    (fun _ h => by cases h)

/-- What a stored request or a quarantined record names is not removed. -/
theorem notMem_sweepUnrecorded {moved : List Name} {n : Name}
    (h : n ∈ s.relpaths root ∨ n ∈ quarantinedPaths d moved) :
    n ∉ s.sweepUnrecorded root d moved := by
  intro hmem
  have hkept := (List.mem_filter.mp hmem).2
  simp only [Bool.and_eq_true, decide_eq_true_eq, List.mem_append] at hkept
  exact hkept.2 h

theorem mem_quarantinedPaths {moved : List Name} {n : Name} (hlisted : d.quarantineListed = true)
    (hn : n ∈ d.quarantine ∨ n ∈ moved) (hsuffix : suffix.isSuffixOf n = true) :
    reqPrefix ++ rootname n ∈ quarantinedPaths d moved := by
  unfold quarantinedPaths
  rw [if_pos hlisted]
  apply List.mem_map_of_mem
  rw [List.mem_filter, List.mem_append]
  exact ⟨hn, hsuffix⟩

/-- No directory is removed that a record in the journal names. -/
theorem named_eq (f : Name × Option (List Char)) :
    s₀.named root f = match s₀.decodedFile root f with
      | some rec => rec.req.relpath
      | none => reqPrefix ++ rootname f.1 := rfl

theorem named_notMem (hlegible : s₀.legible root d = true) (hs : Stores (s₀.decoded root d) s)
    {f : Name × Option (List Char)} (hf : f ∈ d.records) :
    s₀.named root f ∉ s.sweepUnrecorded root d (s₀.moved root d d.listed) := by
  unfold legible at hlegible
  simp only [Bool.and_eq_true, List.all_eq_true] at hlegible
  obtain ⟨⟨hjournal, hquarantine⟩, hall⟩ := hlegible
  have hlisted : f ∈ d.listed := by
    unfold RootDir.listed
    rw [if_pos hjournal]
    exact hf
  have hreadable := hall f hf
  apply notMem_sweepUnrecorded
  rw [named_eq]
  cases hrec : s₀.decodedFile root f with
  | some rec =>
    left
    obtain ⟨r, hr, hroot, hrelpath⟩ := hs rec (List.mem_filterMap.mpr ⟨f, hlisted, hrec⟩)
    have hfresh := decodedFile_fresh hrec
    unfold relpaths
    rw [List.mem_map]
    refine ⟨⟨rec.id, r⟩, ?_, hrelpath⟩
    rw [List.mem_filter]
    refine ⟨AList.mem_lookup_iff.mp hr, ?_⟩
    rw [decide_eq_true_eq, hroot]
    exact hfresh.root
  | none =>
    right
    apply mem_quarantinedPaths hquarantine
    · right
      unfold moved
      apply List.mem_map_of_mem
      rw [List.mem_filter]
      refine ⟨hlisted, ?_⟩
      unfold malformed
      unfold decodedFile at hrec
      cases htext : f.2 with
      | none =>
        rw [htext] at hreadable
        cases hreadable
      | some text =>
        rw [htext] at hreadable hrec
        change (decodeRecord s₀.roots s₀.incarnation s₀.gen root text).toOption = none at hrec
        cases hdec : decodeRecord s₀.roots s₀.incarnation s₀.gen root text with
        | ok rec =>
          rw [hdec] at hrec
          cases hrec
        | error e =>
          simp only [hdec] at hreadable
          simpa [Except.isOk, Except.toBool, hdec] using hreadable
    · exact (List.mem_filter.mp hf).2

end State

end ErlangWasm.Reaper
