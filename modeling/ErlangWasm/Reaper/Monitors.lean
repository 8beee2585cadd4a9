import ErlangWasm.Reaper.Operations

/-!
# The monitors of the reaper

Whatever arrives, the index names the monitors of the stored requests and the running jobs and no
others, and each of them is set on the process it is for.
-/

namespace ErlangWasm.Reaper

open Reasoning

/-- As a record is read back. -/
structure Record.Fresh (root : RootId) (rec : Record) : Prop where
  smon : rec.req.smon = none
  finished : rec.req.finished = false
  root : rec.req.root = root
  attempts : rec.req.attempts = 0
  orphan : rec.kind = .orphan → rec.req.steward = none

namespace State

variable {s : State} {lost : Ref → Prop} {id : RequestId} {r old : Req} {ref : Ref}

/-! ## The pump -/

/-- What holds before the queue is taken from, and is kept by each that is taken, holds after. -/
theorem pumpFrom_induct {P : State → Prop}
    (htake : ∀ (s : State) id rest, P { s with queue := id :: rest } →
      s.jobs.entries.length < s.opts.maxCleanupJobs → P { s.pumpOne id with queue := rest })
    (q : List RequestId) (s : State) (hs : P { s with queue := q }) : P (pumpFrom q s) := by
  induction q generalizing s with
  | nil => exact hs
  | cons id rest ih =>
    unfold pumpFrom
    split
    · exact hs
    · rename_i hfree
      apply ih
      exact htake s id rest hs (Nat.lt_of_not_ge hfree)

theorem pump_induct {P : State → Prop}
    (htake : ∀ (s : State) id rest, P { s with queue := id :: rest } →
      s.jobs.entries.length < s.opts.maxCleanupJobs → P { s.pumpOne id with queue := rest })
    (hs : P s) : P s.pump :=
  pumpFrom_induct htake s.queue s hs

/-! ## The index -/

theorem lookup_index (o : Option Ref) (what : What) (mons : Table Ref What) (ref : Ref) :
    (index o what mons).lookup ref = if o = some ref then some what else mons.lookup ref := by
  cases o with
  | none => rfl
  | some o =>
    show (mons.insert o what).lookup ref = _
    rw [Table.lookup_insert_eq]
    simp only [Option.some.injEq, eq_comm]

theorem lookup_unindex (o : Option Ref) (mons : Table Ref What) (ref : Ref) :
    (unindex o mons).lookup ref = if o = some ref then none else mons.lookup ref := by
  cases o with
  | none => rfl
  | some o =>
    show (mons.erase o).lookup ref = _
    rw [Table.lookup_erase_eq]
    simp only [Option.some.injEq, eq_comm]

/-- The process a monitor is for. -/
def Whom (s : State) (p : Pid) : What → Prop
  | .guardian id => ∃ r, s.reqs.lookup id = some r ∧ r.guardian = p
  | .steward id => ∃ r, s.reqs.lookup id = some r ∧ r.steward = some p
  | .job q => q = p

/-- The monitors in `lost` may be gone. -/
structure Books (lost : Ref → Prop) (s : State) : Prop where
  index : ∀ ref what, s.mons.lookup ref = some what ↔ s.Watches ref what
  set : ∀ ref what, s.mons.lookup ref = some what → ¬lost ref →
    ∃ p, s.Whom p what ∧ s.monitors.lookup ref = some p
  known : ∀ ref what, s.mons.lookup ref = some what → ref < s.nextRef
  jobs : ∀ p e, s.jobs.lookup p = some e → ∃ n, p = .job n ∧ n < s.nextJob

abbrev Sure (s : State) : Prop := Books (fun _ => False) s

theorem Books.unknown (hs : Books lost s) : s.mons.lookup s.nextRef = none := by
  cases hm : s.mons.lookup s.nextRef with
  | none => rfl
  | some what => exact absurd (hs.known _ _ hm) (Nat.lt_irrefl _)

theorem Books.guardian (hs : Books lost s) (hr : s.reqs.lookup id = some r)
    (hmon : r.mon = some ref) : s.mons.lookup ref = some (.guardian id) :=
  (hs.index ref (.guardian id)).mpr ⟨r, hr, hmon⟩

theorem Books.steward (hs : Books lost s) (hr : s.reqs.lookup id = some r)
    (hsmon : r.smon = some ref) : s.mons.lookup ref = some (.steward id) :=
  (hs.index ref (.steward id)).mpr ⟨r, hr, hsmon⟩

/-- A monitor is of one owner. -/
theorem Books.apart (hs : Books lost s) (hr : s.reqs.lookup id = some r)
    (hmon : r.mon = some ref) : r.smon ≠ some ref := by
  intro hsmon
  have hg := hs.guardian hr hmon
  rw [hs.steward hr hsmon] at hg
  cases hg

theorem Books.guarded (hs : s.Sure) (hr : s.reqs.lookup id = some r) (hmon : r.mon ≠ none) :
    s.Guarded r := by
  obtain ⟨ref, hmon⟩ := Option.ne_none_iff_exists'.mp hmon
  obtain ⟨p, ⟨r', hr', rfl⟩, hset⟩ := hs.set ref _ (hs.guardian hr hmon) fun h => h
  rw [hr, Option.some.injEq] at hr'
  subst hr'
  exact ⟨ref, hmon, hset⟩

theorem Books.stewarded (hs : s.Sure) (hr : s.reqs.lookup id = some r) (hsmon : r.smon ≠ none) :
    s.Stewarded r := by
  obtain ⟨ref, hsmon⟩ := Option.ne_none_iff_exists'.mp hsmon
  obtain ⟨p, ⟨r', hr', hp⟩, hset⟩ := hs.set ref _ (hs.steward hr hsmon) fun h => h
  rw [hr, Option.some.injEq] at hr'
  subst hr'
  exact ⟨ref, p, hsmon, hp, hset⟩

theorem Books.lookup_reindex (hs : Books lost s) (id : RequestId) (r : Req) (ref : Ref) :
    (s.reindex id r).lookup ref =
      if r.mon = some ref then some (.guardian id)
      else if r.smon = some ref then some (.steward id)
      else if s.mons.lookup ref = some (.guardian id) ∨ s.mons.lookup ref = some (.steward id)
        then none
      else s.mons.lookup ref := by
  unfold reindex
  cases hold : s.reqs.lookup id with
  | none =>
    have hnot : ¬(s.mons.lookup ref = some (.guardian id) ∨
        s.mons.lookup ref = some (.steward id)) := by
      rintro (h | h)
      · obtain ⟨r', hr', _⟩ := (hs.index _ _).mp h
        rw [hold] at hr'
        cases hr'
      · obtain ⟨r', hr', _⟩ := (hs.index _ _).mp h
        rw [hold] at hr'
        cases hr'
    rw [lookup_index, lookup_index, if_neg hnot]
  | some old =>
    have hg : s.mons.lookup ref = some (.guardian id) ↔ old.mon = some ref := by
      rw [hs.index]
      constructor
      · rintro ⟨r', hr', hmon⟩
        rw [hold, Option.some.injEq] at hr'
        rw [hr']
        exact hmon
      · exact fun hmon => ⟨old, hold, hmon⟩
    have hst : s.mons.lookup ref = some (.steward id) ↔ old.smon = some ref := by
      rw [hs.index]
      constructor
      · rintro ⟨r', hr', hsmon⟩
        rw [hold, Option.some.injEq] at hr'
        rw [hr']
        exact hsmon
      · exact fun hsmon => ⟨old, hold, hsmon⟩
    show (if old.mon = r.mon ∧ old.smon = r.smon then s.mons else _).lookup ref = _
    split
    · rename_i hsame
      simp only [hg, hst, hsame.1, hsame.2]
      by_cases hmon : r.mon = some ref
      · rw [if_pos hmon]
        exact hg.mpr (hsame.1.trans hmon)
      · rw [if_neg hmon]
        by_cases hsmon : r.smon = some ref
        · rw [if_pos hsmon]
          exact hst.mpr (hsame.2.trans hsmon)
        · rw [if_neg hsmon, if_neg fun h => h.elim hmon hsmon]
    · simp only [lookup_index, lookup_unindex, hg, hst]
      by_cases ho : old.mon = some ref
      · simp [ho]
      · simp [ho]

/-! ## What is stored, and dropped -/

theorem watches_putReq (s : State) (id : RequestId) (r : Req) (ref : Ref) (what : What) :
    (s.putReq id r).Watches ref what ↔ what = .guardian id ∧ r.mon = some ref ∨
      what = .steward id ∧ r.smon = some ref ∨
      what ≠ .guardian id ∧ what ≠ .steward id ∧ s.Watches ref what := by
  have hreqs : ∀ j, (s.putReq id r).reqs.lookup j = if j = id then some r else s.reqs.lookup j :=
    fun j => Table.lookup_insert_eq _ _ _
  cases what with
  | guardian j =>
    show (∃ r', (s.putReq id r).reqs.lookup j = some r' ∧ r'.mon = some ref) ↔ _
    rw [hreqs]
    by_cases hj : j = id
    · simp [hj]
    · simp [hj, Watches]
  | steward j =>
    show (∃ r', (s.putReq id r).reqs.lookup j = some r' ∧ r'.smon = some ref) ↔ _
    rw [hreqs]
    by_cases hj : j = id
    · simp [hj]
    · simp [hj, Watches]
  | job p =>
    show (∃ j, s.jobs.lookup p = some (j, ref)) ↔ _
    simp [Watches]

/-- A monitor the request has is no other's. -/
theorem reindexed_iff {mon smon : Prop} [Decidable mon] [Decidable smon] {found : Option What}
    (hmon : mon → (found = some (.guardian id) ∨ found = none) ∧ ¬smon)
    (hsmon : smon → found = some (.steward id) ∨ found = none) (what : What) :
    (if mon then some (.guardian id)
      else if smon then some (.steward id)
      else if found = some (.guardian id) ∨ found = some (.steward id) then none
      else found) = some what ↔
      what = .guardian id ∧ mon ∨ what = .steward id ∧ smon ∨
        what ≠ .guardian id ∧ what ≠ .steward id ∧ found = some what := by
  by_cases hm : mon
  · have hg := hmon hm
    rw [if_pos hm]
    grind
  · rw [if_neg hm]
    by_cases hs : smon
    · have hst := hsmon hs
      rw [if_pos hs]
      grind
    · rw [if_neg hs]
      grind

/-- A request is stored whose monitors are its own, or new. -/
theorem Books.putReq (hs : Books lost s)
    (hmon : ∀ ref, r.mon = some ref →
      (s.mons.lookup ref = some (.guardian id) ∨ s.mons.lookup ref = none) ∧ ref < s.nextRef ∧
        r.smon ≠ some ref ∧ (¬lost ref → s.monitors.lookup ref = some r.guardian))
    (hsmon : ∀ ref, r.smon = some ref →
      (s.mons.lookup ref = some (.steward id) ∨ s.mons.lookup ref = none) ∧ ref < s.nextRef ∧
        (¬lost ref → ∃ p, r.steward = some p ∧ s.monitors.lookup ref = some p)) :
    Books lost (s.putReq id r) := by
  have hlookup : ∀ ref, (s.putReq id r).mons.lookup ref = _ := hs.lookup_reindex id r
  have hreqs : ∀ j, (s.putReq id r).reqs.lookup j = if j = id then some r else s.reqs.lookup j :=
    fun j => Table.lookup_insert_eq _ _ _
  constructor
  · intro ref what
    rw [hlookup, watches_putReq, ← hs.index]
    exact reindexed_iff (fun hr => ⟨(hmon ref hr).1, (hmon ref hr).2.2.1⟩)
      (fun hr => (hsmon ref hr).1) what
  · intro ref what hwhat hlost
    rw [hlookup] at hwhat
    split at hwhat
    · rename_i hmr
      cases hwhat
      refine ⟨r.guardian, ⟨r, ?_, rfl⟩, (hmon ref hmr).2.2.2 hlost⟩
      rw [hreqs, if_pos rfl]
    · split at hwhat
      · rename_i hsr
        cases hwhat
        obtain ⟨p, hp, hset⟩ := (hsmon ref hsr).2.2 hlost
        refine ⟨p, ⟨r, ?_, hp⟩, hset⟩
        rw [hreqs, if_pos rfl]
      · split at hwhat
        · cases hwhat
        · rename_i hnot
          obtain ⟨p, hwhom, hset⟩ := hs.set ref what hwhat hlost
          refine ⟨p, ?_, hset⟩
          cases what with
          | guardian j =>
            obtain ⟨r', hr', hp⟩ := hwhom
            refine ⟨r', ?_, hp⟩
            rw [hreqs, if_neg]
            · exact hr'
            · rintro rfl
              exact hnot (.inl hwhat)
          | steward j =>
            obtain ⟨r', hr', hp⟩ := hwhom
            refine ⟨r', ?_, hp⟩
            rw [hreqs, if_neg]
            · exact hr'
            · rintro rfl
              exact hnot (.inr hwhat)
          | job q => exact hwhom
  · intro ref what hwhat
    rw [hlookup] at hwhat
    split at hwhat
    · rename_i hmr
      exact (hmon ref hmr).2.1
    · split at hwhat
      · rename_i hsr
        exact (hsmon ref hsr).2.1
      · split at hwhat
        · cases hwhat
        · exact hs.known ref what hwhat
  · exact hs.jobs

/-- A request that keeps its monitors, or gives them up. -/
theorem Books.update (hs : Books lost s) (hold : s.reqs.lookup id = some old)
    (hmon : r.mon = old.mon ∨ r.mon = none) (hsmon : r.smon = old.smon ∨ r.smon = none)
    (hguardian : r.guardian = old.guardian) (hsteward : r.steward = old.steward) :
    Books lost (s.putReq id r) := by
  apply hs.putReq
  · intro ref hr
    have ho : old.mon = some ref := by
      rcases hmon with h | h
      · rw [← h]
        exact hr
      · rw [h] at hr
        cases hr
    have hindex := hs.guardian hold ho
    refine ⟨.inl hindex, hs.known _ _ hindex, ?_, ?_⟩
    · rcases hsmon with h | h
      · rw [h]
        exact hs.apart hold ho
      · rw [h]
        simp
    · intro hlost
      obtain ⟨p, ⟨r', hr', rfl⟩, hset⟩ := hs.set ref _ hindex hlost
      rw [hold, Option.some.injEq] at hr'
      rw [hguardian, hr']
      exact hset
  · intro ref hr
    have ho : old.smon = some ref := by
      rcases hsmon with h | h
      · rw [← h]
        exact hr
      · rw [h] at hr
        cases hr
    have hindex := hs.steward hold ho
    refine ⟨.inl hindex, hs.known _ _ hindex, ?_⟩
    intro hlost
    obtain ⟨p, ⟨r', hr', hp⟩, hset⟩ := hs.set ref _ hindex hlost
    rw [hold, Option.some.injEq] at hr'
    rw [hsteward, hr']
    exact ⟨p, hp, hset⟩

theorem dropReq_eq (hold : s.reqs.lookup id = some old) : s.dropReq id =
    { s with mons := unindex old.mon (unindex old.smon s.mons), reqs := s.reqs.erase id } := by
  unfold dropReq
  rw [hold]

theorem dropReq_none (hnone : s.reqs.lookup id = none) : s.dropReq id = s := by
  unfold dropReq
  rw [hnone]

theorem Books.dropReq (hs : Books lost s) (id : RequestId) : Books lost (s.dropReq id) := by
  cases hold : s.reqs.lookup id with
  | none =>
    rw [dropReq_none hold]
    exact hs
  | some old =>
    rw [dropReq_eq hold]
    have hlookup : ∀ ref what,
        (unindex old.mon (unindex old.smon s.mons)).lookup ref = some what ↔
          s.mons.lookup ref = some what ∧ what ≠ .guardian id ∧ what ≠ .steward id := by
      intro ref what
      rw [lookup_unindex, lookup_unindex]
      constructor
      · intro h
        split at h
        · cases h
        · rename_i hmon
          split at h
          · cases h
          · rename_i hsmon
            refine ⟨h, ?_, ?_⟩
            · rintro rfl
              obtain ⟨r', hr', hm⟩ := (hs.index _ _).mp h
              rw [hold, Option.some.injEq] at hr'
              subst hr'
              exact hmon hm
            · rintro rfl
              obtain ⟨r', hr', hm⟩ := (hs.index _ _).mp h
              rw [hold, Option.some.injEq] at hr'
              subst hr'
              exact hsmon hm
      · rintro ⟨h, hg, hst⟩
        rw [if_neg, if_neg]
        · exact h
        · intro hsmon
          rw [hs.steward hold hsmon, Option.some.injEq] at h
          exact hst h.symm
        · intro hmon
          rw [hs.guardian hold hmon, Option.some.injEq] at h
          exact hg h.symm
    have hreqs : ∀ j, (s.reqs.erase id).lookup j = if j = id then none else s.reqs.lookup j :=
      fun j => Table.lookup_erase_eq _ _
    constructor
    · intro ref what
      show (unindex old.mon (unindex old.smon s.mons)).lookup ref = some what ↔ _
      rw [hlookup, hs.index]
      cases what with
      | guardian j =>
        show _ ↔ ∃ r', (s.reqs.erase id).lookup j = some r' ∧ r'.mon = some ref
        rw [hreqs]
        by_cases hj : j = id
        · simp [hj]
        · simp [hj, Watches]
      | steward j =>
        show _ ↔ ∃ r', (s.reqs.erase id).lookup j = some r' ∧ r'.smon = some ref
        rw [hreqs]
        by_cases hj : j = id
        · simp [hj]
        · simp [hj, Watches]
      | job p => simp [Watches]
    · intro ref what hwhat hlost
      obtain ⟨hwhat, hg, hst⟩ := (hlookup ref what).mp hwhat
      obtain ⟨p, hwhom, hset⟩ := hs.set ref what hwhat hlost
      refine ⟨p, ?_, hset⟩
      cases what with
      | guardian j =>
        obtain ⟨r', hr', hp⟩ := hwhom
        refine ⟨r', ?_, hp⟩
        show (s.reqs.erase id).lookup j = some r'
        rw [hreqs, if_neg]
        · exact hr'
        · rintro rfl
          exact hg rfl
      | steward j =>
        obtain ⟨r', hr', hp⟩ := hwhom
        refine ⟨r', ?_, hp⟩
        show (s.reqs.erase id).lookup j = some r'
        rw [hreqs, if_neg]
        · exact hr'
        · rintro rfl
          exact hst rfl
      | job q => exact hwhom
    · intro ref what hwhat
      exact hs.known ref what ((hlookup ref what).mp hwhat).1
    · exact hs.jobs

/-! ## Monitors that are set, and given up -/

theorem Books.monitor (hs : Books lost s) (p : Pid) : Books lost (s.monitor p) := by
  constructor
  · exact hs.index
  · intro ref what hwhat hlost
    obtain ⟨q, hwhom, hset⟩ := hs.set ref what hwhat hlost
    refine ⟨q, hwhom, ?_⟩
    show (s.monitors.insert s.nextRef p).lookup ref = some q
    rw [Table.lookup_insert_eq, if_neg]
    · exact hset
    · intro href
      exact absurd (hs.known ref what hwhat) (by rw [href]; exact Nat.lt_irrefl _)
  · intro ref what hwhat
    exact Nat.lt_succ_of_lt (hs.known ref what hwhat)
  · exact hs.jobs

theorem Books.dropMonitor (hs : Books lost s) (o : Option Ref) :
    Books (fun ref => lost ref ∨ o = some ref) (s.dropMonitor o) := by
  cases o with
  | none =>
    exact ⟨hs.index, fun ref what h hl => hs.set ref what h (fun h => hl (.inl h)), hs.known,
      hs.jobs⟩
  | some o =>
    refine ⟨hs.index, ?_, hs.known, hs.jobs⟩
    intro ref what hwhat hlost
    obtain ⟨q, hwhom, hset⟩ := hs.set ref what hwhat fun h => hlost (.inl h)
    refine ⟨q, hwhom, ?_⟩
    show (s.monitors.erase o).lookup ref = some q
    rw [Table.lookup_erase_eq, if_neg]
    · exact hset
    · rintro rfl
      exact hlost (.inr rfl)

/-- A monitor that is gone is nobody's. -/
theorem Books.sure (hs : Books lost s) (hlost : ∀ ref, lost ref → s.mons.lookup ref = none) :
    s.Sure := by
  refine ⟨hs.index, ?_, hs.known, hs.jobs⟩
  intro ref what hwhat _
  apply hs.set ref what hwhat
  intro h
  rw [hlost ref h] at hwhat
  cases hwhat

/-! ## Jobs -/

theorem Books.startJob (hs : Books lost s) (hold : s.reqs.lookup id = some old) :
    Books lost (s.startJob id old) := by
  have hmons : ∀ ref, (s.startJob id old).mons.lookup ref =
      if s.nextRef = ref then some (.job (.job s.nextJob)) else s.mons.lookup ref := by
    intro ref
    show (State.index (some s.nextRef) (.job (.job s.nextJob)) s.mons).lookup ref = _
    rw [lookup_index]
    simp only [Option.some.injEq]
  have hreqs : ∀ j, (s.startJob id old).reqs.lookup j =
      if j = id then some { old with stage := .running } else s.reqs.lookup j :=
    fun j => Table.lookup_insert_eq _ _ _
  have hjobs : ∀ p, (s.startJob id old).jobs.lookup p =
      if p = .job s.nextJob then some (id, s.nextRef) else s.jobs.lookup p :=
    fun p => Table.lookup_insert_eq _ _ _
  have hnone : s.jobs.lookup (.job s.nextJob) = none := by
    cases hj : s.jobs.lookup (.job s.nextJob) with
    | none => rfl
    | some e =>
      obtain ⟨n, hn, hlt⟩ := hs.jobs _ e hj
      cases hn
      exact absurd hlt (Nat.lt_irrefl _)
  have hkeep : ∀ ref what, s.mons.lookup ref = some what → s.nextRef ≠ ref := by
    rintro _ what h rfl
    exact absurd (hs.known _ _ h) (Nat.lt_irrefl _)
  constructor
  · intro ref what
    rw [hmons]
    have hindex := hs.index ref what
    cases what with
    | guardian j =>
      show _ ↔ ∃ r', (s.startJob id old).reqs.lookup j = some r' ∧ r'.mon = some ref
      rw [hreqs]
      have hwatch : (∃ r', (if j = id then some { old with stage := .running }
          else s.reqs.lookup j) = some r' ∧ r'.mon = some ref) ↔ s.Watches ref (.guardian j) := by
        by_cases hj : j = id
        · subst hj
          simp [Watches, hold]
        · simp [Watches, hj]
      rw [hwatch, ← hindex]
      constructor
      · intro h
        split at h
        · cases h
        · exact h
      · intro h
        rw [if_neg (hkeep ref _ h)]
        exact h
    | steward j =>
      show _ ↔ ∃ r', (s.startJob id old).reqs.lookup j = some r' ∧ r'.smon = some ref
      rw [hreqs]
      have hwatch : (∃ r', (if j = id then some { old with stage := .running }
          else s.reqs.lookup j) = some r' ∧ r'.smon = some ref) ↔ s.Watches ref (.steward j) := by
        by_cases hj : j = id
        · subst hj
          simp [Watches, hold]
        · simp [Watches, hj]
      rw [hwatch, ← hindex]
      constructor
      · intro h
        split at h
        · cases h
        · exact h
      · intro h
        rw [if_neg (hkeep ref _ h)]
        exact h
    | job p =>
      show _ ↔ ∃ j, (s.startJob id old).jobs.lookup p = some (j, ref)
      rw [hjobs]
      by_cases hp : p = .job s.nextJob
      · subst hp
        rw [if_pos rfl]
        constructor
        · intro h
          split at h
          · rename_i href
            exact ⟨id, by rw [href]⟩
          · obtain ⟨j, hj⟩ := hindex.mp h
            rw [hnone] at hj
            cases hj
        · rintro ⟨j, hj⟩
          cases hj
          rw [if_pos rfl]
      · rw [if_neg hp]
        constructor
        · intro h
          split at h
          · cases h
            exact absurd rfl hp
          · exact hindex.mp h
        · intro h
          have hm := hindex.mpr h
          rw [if_neg (hkeep ref _ hm)]
          exact hm
  · intro ref what hwhat hlost
    have hset : ∀ ref, (s.startJob id old).monitors.lookup ref =
        if ref = s.nextRef then some (.job s.nextJob) else s.monitors.lookup ref :=
      fun ref => Table.lookup_insert_eq _ _ _
    rw [hmons] at hwhat
    rw [hset]
    split at hwhat
    · rename_i href
      cases hwhat
      rw [if_pos href.symm]
      exact ⟨_, rfl, rfl⟩
    · rename_i href
      rw [if_neg (Ne.symm href)]
      obtain ⟨p, hwhom, hp⟩ := hs.set ref what hwhat hlost
      refine ⟨p, ?_, hp⟩
      cases what with
      | guardian j =>
        obtain ⟨r', hr', hg⟩ := hwhom
        show ∃ r', (s.startJob id old).reqs.lookup j = some r' ∧ r'.guardian = p
        rw [hreqs]
        by_cases hj : j = id
        · subst hj
          rw [hold, Option.some.injEq] at hr'
          subst hr'
          exact ⟨_, if_pos rfl, hg⟩
        · rw [if_neg hj]
          exact ⟨r', hr', hg⟩
      | steward j =>
        obtain ⟨r', hr', hg⟩ := hwhom
        show ∃ r', (s.startJob id old).reqs.lookup j = some r' ∧ r'.steward = some p
        rw [hreqs]
        by_cases hj : j = id
        · subst hj
          rw [hold, Option.some.injEq] at hr'
          subst hr'
          exact ⟨_, if_pos rfl, hg⟩
        · rw [if_neg hj]
          exact ⟨r', hr', hg⟩
      | job q => exact hwhom
  · intro ref what hwhat
    rw [hmons] at hwhat
    split at hwhat
    · rename_i href
      rw [← href]
      exact Nat.lt_succ_self _
    · exact Nat.lt_succ_of_lt (hs.known ref what hwhat)
  · intro p e he
    rw [hjobs] at he
    split at he
    · rename_i hp
      exact ⟨_, hp, Nat.lt_succ_self _⟩
    · obtain ⟨n, hn, hlt⟩ := hs.jobs p e he
      exact ⟨n, hn, Nat.lt_succ_of_lt hlt⟩

theorem Books.pump (hs : Books lost s) : Books lost s.pump := by
  refine pump_induct (P := Books lost) ?_ hs
  intro s id rest hs _
  have hs' : Books lost s := ⟨hs.index, hs.set, hs.known, hs.jobs⟩
  have htaken : Books lost (s.pumpOne id) := by
    unfold pumpOne
    cases hold : s.reqs.lookup id with
    | none => exact hs'
    | some old => exact hs'.startJob hold
  exact ⟨htaken.index, htaken.set, htaken.known, htaken.jobs⟩

/-- Nobody watches a monitor that is over by starting a job. -/
theorem unwatched_pump (hnone : s.mons.lookup ref = none) (hknown : ref < s.nextRef) :
    s.pump.mons.lookup ref = none := by
  refine (pump_induct (P := fun s => s.mons.lookup ref = none ∧ ref < s.nextRef) ?_
    ⟨hnone, hknown⟩).1
  rintro s id rest ⟨hnone, hknown⟩ _
  show (s.pumpOne id).mons.lookup ref = none ∧ ref < (s.pumpOne id).nextRef
  unfold pumpOne
  split
  · exact ⟨hnone, hknown⟩
  · refine ⟨?_, Nat.lt_succ_of_lt hknown⟩
    show (State.index (some s.nextRef) _ s.mons).lookup ref = none
    rw [lookup_index, if_neg]
    · exact hnone
    · rw [Option.some.injEq]
      rintro rfl
      exact Nat.lt_irrefl _ hknown

theorem Books.schedule (hs : Books lost (s.putReq id r)) : Books lost (s.schedule id r) := by
  have hqueue : Books lost { s.putReq id r with queue := s.queue ++ [id] } :=
    ⟨hs.index, hs.set, hs.known, hs.jobs⟩
  exact hqueue.pump

/-- The job's monitor is over, and the job is no longer there. -/
theorem Books.eraseJob (hs : Books lost s) {p : Pid} (hjob : s.jobs.lookup p = some (id, ref)) :
    Books lost { s with jobs := s.jobs.erase p, mons := unindex (some ref) s.mons } := by
  have hlookup : ∀ ref' what, (unindex (some ref) s.mons).lookup ref' = some what ↔
      s.mons.lookup ref' = some what ∧ ref' ≠ ref := by
    intro ref' what
    rw [lookup_unindex]
    by_cases href : ref = ref'
    · simp [href]
    · simp [href, Ne.symm href]
  have hindex := (hs.index ref (.job p)).mpr ⟨id, hjob⟩
  have hjobs : ∀ q, (s.jobs.erase p).lookup q = if q = p then none else s.jobs.lookup q :=
    fun q => Table.lookup_erase_eq _ _
  constructor
  · intro ref' what
    show (unindex (some ref) s.mons).lookup ref' = some what ↔ _
    rw [hlookup, hs.index]
    cases what with
    | guardian j =>
      constructor
      · exact And.left
      · intro h
        refine ⟨h, ?_⟩
        rintro rfl
        rw [(hs.index ref' (.guardian j)).mpr h] at hindex
        cases hindex
    | steward j =>
      constructor
      · exact And.left
      · intro h
        refine ⟨h, ?_⟩
        rintro rfl
        rw [(hs.index ref' (.steward j)).mpr h] at hindex
        cases hindex
    | job q =>
      show _ ↔ ∃ j, (s.jobs.erase p).lookup q = some (j, ref')
      rw [hjobs]
      constructor
      · rintro ⟨⟨j, hj⟩, href⟩
        refine ⟨j, ?_⟩
        rw [if_neg]
        · exact hj
        · rintro rfl
          rw [hjob] at hj
          cases hj
          exact href rfl
      · rintro ⟨j, hj⟩
        split at hj
        · cases hj
        · rename_i hqp
          refine ⟨⟨j, hj⟩, ?_⟩
          rintro rfl
          rw [(hs.index _ (.job q)).mpr ⟨j, hj⟩] at hindex
          cases hindex
          exact hqp rfl
  · intro ref' what hwhat hlost
    exact hs.set ref' what ((hlookup ref' what).mp hwhat).1 hlost
  · intro ref' what hwhat
    exact hs.known ref' what ((hlookup ref' what).mp hwhat).1
  · intro q e he
    rw [hjobs] at he
    split at he
    · cases he
    · exact hs.jobs q e he

/-! ## Monitors that are nobody's -/

theorem unwatched_putReq (hs : Books lost s) (hold : s.reqs.lookup id = some old)
    (hwatched : old.mon = some ref ∨ old.smon = some ref) (hmon : r.mon ≠ some ref)
    (hsmon : r.smon ≠ some ref) : (s.putReq id r).mons.lookup ref = none := by
  have hlookup : (s.putReq id r).mons.lookup ref = _ := hs.lookup_reindex id r ref
  rw [hlookup, if_neg hmon, if_neg hsmon, if_pos]
  rcases hwatched with h | h
  · exact .inl (hs.guardian hold h)
  · exact .inr (hs.steward hold h)

theorem unwatched_update (hs : Books lost s) (hold : s.reqs.lookup id = some old)
    (hmon : r.mon = old.mon ∨ r.mon = none) (hsmon : r.smon = old.smon ∨ r.smon = none)
    (hnone : s.mons.lookup ref = none) : (s.putReq id r).mons.lookup ref = none := by
  have hlookup : (s.putReq id r).mons.lookup ref = _ := hs.lookup_reindex id r ref
  have hm : r.mon ≠ some ref := by
    intro h
    rcases hmon with hr | hr
    · rw [hs.guardian hold (hr.symm.trans h)] at hnone
      cases hnone
    · rw [hr] at h
      cases h
  have hsm : r.smon ≠ some ref := by
    intro h
    rcases hsmon with hr | hr
    · rw [hs.steward hold (hr.symm.trans h)] at hnone
      cases hnone
    · rw [hr] at h
      cases h
  rw [hlookup, if_neg hm, if_neg hsm, hnone]
  simp

theorem unwatched_dropReq (hold : s.reqs.lookup id = some old)
    (hwatched : old.mon = some ref ∨ old.smon = some ref ∨ s.mons.lookup ref = none) :
    (s.dropReq id).mons.lookup ref = none := by
  rw [dropReq_eq hold]
  show (unindex old.mon (unindex old.smon s.mons)).lookup ref = none
  rw [lookup_unindex, lookup_unindex]
  split
  · rfl
  · rename_i hmon
    split
    · rfl
    · rename_i hsmon
      rcases hwatched with h | h | h
      · exact absurd h hmon
      · exact absurd h hsmon
      · exact h

/-! ## Whatever arrives -/

theorem Books.alters {s' : State} (hs : s.Sure) (h : s.Alters s') : s'.Sure := by
  induction h with
  | refl => exact hs
  | journal _ _ _ ih | crash _ ih => exact ⟨ih.index, ih.set, ih.known, ih.jobs⟩
  | put _ hr hlike ih =>
    exact ih.update hr (.inl hlike.mon) (.inl hlike.smon) hlike.guardian hlike.steward

theorem Books.opFinish (hs : s.Sure) (id : RequestId) : (s.opFinish id).2.Sure := by
  unfold State.opFinish
  cases hr : s.reqs.lookup id with
  | none => exact hs
  | some r =>
    have hdropped := hs.dropMonitor r.mon
    have hold : (s.dropMonitor r.mon).reqs.lookup id = some r := by
      rw [← hr]
      cases r.mon <;> rfl
    apply Books.schedule
    have hput := hdropped.update (r := { r with mon := none, finished := true, stage := .queued })
      hold (.inr rfl) (.inl rfl) rfl rfl
    apply hput.sure
    intro ref hlost
    rcases hlost with hlost | hlost
    · cases hlost
    · have hapart := hs.apart hr hlost
      exact unwatched_putReq hdropped hold (.inl hlost) (fun h => by cases h) hapart

theorem Books.forget (hs : s.Sure) (hr : s.reqs.lookup id = some r) (effects : List Effect) :
    Sure (({ (s.dropMonitor r.mon).dropMonitor r.smon with effects := effects } : State).dropReq
      id) := by
  have hdropped := (hs.dropMonitor r.mon).dropMonitor r.smon
  have hold : ((s.dropMonitor r.mon).dropMonitor r.smon).reqs.lookup id = some r := by
    rw [← hr]
    cases r.mon <;> cases r.smon <;> rfl
  have hbooks := Books.dropReq (s := { (s.dropMonitor r.mon).dropMonitor r.smon with
    effects := effects }) ⟨hdropped.index, hdropped.set, hdropped.known, hdropped.jobs⟩ id
  apply hbooks.sure
  intro ref hlost
  have hwatched : r.mon = some ref ∨ r.smon = some ref := by
    rcases hlost with (hlost | hlost) | hlost
    · cases hlost
    · exact .inl hlost
    · exact .inr hlost
  exact unwatched_dropReq hold (hwatched.imp_right .inl)

theorem Books.reservationFailed (hs : s.Sure) (id : RequestId) : (s.reservationFailed id).Sure := by
  unfold State.reservationFailed
  split
  · rename_i r hr
    split
    · exact hs.forget hr _
    · exact hs
  · exact hs

theorem Books.finish (hs : s.Sure) (id : RequestId) : (s.finish id).Sure := by
  unfold State.finish
  split
  · exact hs
  · rename_i r hr
    exact hs.forget hr _

theorem Books.reserve (hs : s.Sure) (id : RequestId) (guardian steward : Pid) (root : RootId)
    (relpath : Wasi.Name) : (s.reserve id guardian steward root relpath).2.Sure := by
  unfold State.reserve
  split
  · exact hs
  · split
    · have hset := (hs.monitor guardian).monitor steward
      have hnone : s.mons.lookup s.nextRef = none := hs.unknown
      have hnext : s.mons.lookup (s.nextRef + 1) = none := (hs.monitor guardian).unknown
      refine Books.putReq (s := ((s.monitor guardian).monitor steward).journal _)
        ⟨hset.index, hset.set, hset.known, hset.jobs⟩ ?_ ?_
      · intro ref href
        cases href
        refine ⟨.inr hnone, Nat.lt_succ_of_lt (Nat.lt_succ_self _), ?_, ?_⟩
        · simp
        · intro _
          show ((s.monitors.insert s.nextRef guardian).insert (s.nextRef + 1) steward).lookup
            s.nextRef = some guardian
          rw [Table.lookup_insert_eq, if_neg (Nat.ne_of_lt (Nat.lt_succ_self _)),
            AList.lookup_insert]
      · intro ref href
        cases href
        refine ⟨.inr hnext, Nat.lt_succ_self _, ?_⟩
        intro _
        exact ⟨steward, rfl, AList.lookup_insert _⟩
    · exact hs

theorem Books.handshakeReply (hs : s.Sure) (id : RequestId) (yes : Bool) :
    (s.handshakeReply id yes).Sure := by
  unfold State.handshakeReply
  split
  · exact hs
  · rename_i r hr
    split
    · exact hs.update hr (.inl rfl) (.inl rfl) rfl rfl
    · apply Books.schedule
      exact hs.update hr (.inl rfl) (.inl rfl) rfl rfl

theorem Books.fire (hs : s.Sure) (t : Timer) : (s.fire t).Sure := by
  have herased : Sure { s with timers := s.timers.erase t } := ⟨hs.index, hs.set, hs.known, hs.jobs⟩
  cases t with
  | cleanup id =>
    show (State.retryCleanup _ id).Sure
    unfold retryCleanup
    split
    · rename_i r hr
      apply Books.schedule
      exact herased.update hr (.inl rfl) (.inl rfl) rfl rfl
    · exact herased
  | handshake id =>
    show (State.retryHandshake _ id).Sure
    unfold retryHandshake
    split
    · rename_i r hr
      split
      · split
        · have hasked : Sure (({ s with timers := s.timers.erase (.handshake id) } : State).ask id
              { r with tries := r.tries + 1 }) :=
            ⟨herased.index, herased.set, herased.known, herased.jobs⟩
          exact hasked.update hr (.inl rfl) (.inl rfl) rfl rfl
        · exact herased.update hr (.inl rfl) (.inl rfl) rfl rfl
      · exact herased
    · exact herased

theorem Books.adoptReply (hs : s.Sure) (id : RequestId) (ledger : Table ℕ Reply) (nextSeq : ℕ)
    (actions : List (ℕ × Action)) (adapter : Option Adapter) :
    (s.adoptReply id ledger nextSeq actions adapter).Sure := by
  unfold State.adoptReply
  split
  · exact hs
  · rename_i r hr
    exact hs.update hr (.inl rfl) (.inl rfl) rfl rfl

/-! ## A `'DOWN'` -/

/-- Handled, and the monitor it was of is nobody's. -/
def Handled (s : State) (ref : Ref) : Prop := s.Sure ∧ s.mons.lookup ref = none

theorem handled_schedule (hs : s.Sure) (hr : s.reqs.lookup id = some old)
    (hmon : r.mon = old.mon ∨ r.mon = none) (hsmon : r.smon = old.smon ∨ r.smon = none)
    (hguardian : r.guardian = old.guardian) (hsteward : r.steward = old.steward)
    (hwatched : old.mon = some ref ∨ old.smon = some ref)
    (hm : r.mon ≠ some ref) (hsm : r.smon ≠ some ref) : (s.schedule id r).Handled ref := by
  have hput := hs.update hr hmon hsmon hguardian hsteward
  have hknown : ref < s.nextRef := by
    rcases hwatched with h | h
    · exact hs.known _ _ (hs.guardian hr h)
    · exact hs.known _ _ (hs.steward hr h)
  refine ⟨hput.schedule, ?_⟩
  exact unwatched_pump (s := { s.putReq id r with queue := s.queue ++ [id] })
    (unwatched_putReq hs hr hwatched hm hsm) hknown

theorem handled_guardianDown (hs : s.Sure) (hr : s.reqs.lookup id = some r)
    (hmon : r.mon = some ref) : (s.guardianDown id r).Handled ref := by
  have hapart := hs.apart hr hmon
  unfold guardianDown
  split
  · exact handled_schedule hs hr (.inr rfl) (.inl rfl) rfl rfl (.inl hmon) (fun h => by cases h)
      hapart
  · have htold : ∀ s' : State, s'.Sure → s'.reqs.lookup id = some r →
        (s'.putReq id { r with mon := none }).Handled ref := by
      intro s' hs' hr'
      exact ⟨hs'.update hr' (.inr rfl) (.inl rfl) rfl rfl,
        unwatched_putReq hs' hr' (.inl hmon) (fun h => by cases h) hapart⟩
    apply htold
    · split
      · exact ⟨hs.index, hs.set, hs.known, hs.jobs⟩
      · exact hs
    · split
      · exact hr
      · exact hr

theorem handled_stewardDown (hs : s.Sure) (hr : s.reqs.lookup id = some r)
    (hsmon : r.smon = some ref) : (s.stewardDown id r).Handled ref := by
  have hapart : r.mon ≠ some ref := fun hmon => hs.apart hr hmon hsmon
  unfold stewardDown
  split
  · split
    · have hwritten : (s.journal (.delete id)).Sure := ⟨hs.index, hs.set, hs.known, hs.jobs⟩
      exact ⟨hwritten.dropReq id,
        unwatched_dropReq (s := s.journal (.delete id)) hr (.inr (.inl hsmon))⟩
    · exact ⟨hs.update hr (.inl rfl) (.inr rfl) rfl rfl,
        unwatched_putReq hs hr (.inr hsmon) hapart (fun h => by cases h)⟩
  · split
    · exact handled_schedule hs hr (.inl rfl) (.inr rfl) rfl rfl (.inr hsmon) hapart
        (fun h => by cases h)
    · exact ⟨hs.update hr (.inl rfl) (.inr rfl) rfl rfl,
        unwatched_putReq hs hr (.inr hsmon) hapart (fun h => by cases h)⟩

theorem handled_jobFinished (hs : s.Handled ref) (id : RequestId) (why : Why) (out : Outside) :
    (s.jobFinished id why out).Handled ref := by
  obtain ⟨hs, hnone⟩ := hs
  unfold jobFinished
  split
  · exact ⟨hs, hnone⟩
  · rename_i r hr
    have hdrop : ∀ w : Write, ((s.journal w).dropReq id).Handled ref := by
      intro w
      have hwritten : (s.journal w).Sure := ⟨hs.index, hs.set, hs.known, hs.jobs⟩
      exact ⟨hwritten.dropReq id, unwatched_dropReq (s := s.journal w) hr (.inr (.inr hnone))⟩
    split
    · obtain ⟨hsure, hn⟩ := hdrop (.quarantine id)
      exact ⟨⟨hsure.index, hsure.set, hsure.known, hsure.jobs⟩, hn⟩
    · split
      · unfold cleanupDone
        split
        · rename_i steward _ _ _
          have htold : (s.tell steward (.complete id)).Sure := ⟨hs.index, hs.set, hs.known, hs.jobs⟩
          exact ⟨htold.update hr (.inl rfl) (.inl rfl) rfl rfl,
            unwatched_update htold hr (.inl rfl) (.inl rfl) hnone⟩
        · exact hdrop _
      · have harmed : (s.arm (.cleanup id)).Sure := ⟨hs.index, hs.set, hs.known, hs.jobs⟩
        exact ⟨harmed.update hr (.inl rfl) (.inl rfl) rfl rfl,
          unwatched_update harmed hr (.inl rfl) (.inl rfl) hnone⟩

theorem handled_pump (hs : s.Handled ref) (hknown : ref < s.nextRef) : s.pump.Handled ref :=
  ⟨hs.1.pump, unwatched_pump hs.2 hknown⟩

theorem nextRef_jobFinished (s : State) (id : RequestId) (why : Why) (out : Outside) :
    (s.jobFinished id why out).nextRef = s.nextRef := by
  have hdrop : ∀ s : State, (s.dropReq id).nextRef = s.nextRef := by
    intro s
    unfold State.dropReq
    split <;> rfl
  unfold jobFinished
  split
  · rfl
  · split
    · exact hdrop _
    · split
      · unfold cleanupDone
        split
        · rfl
        · exact hdrop _
      · rfl

/-- Every lookup finds what the index names. -/
theorem ownerDown_spec (hs : s.Sure) (ref : Ref) (why : Why) (out : Outside) :
    ∃ s', s.ownerDown ref why out = some s' ∧ s'.Handled ref := by
  unfold ownerDown
  cases hwhat : s.mons.lookup ref with
  | none => exact ⟨s, rfl, hs, hwhat⟩
  | some what =>
    have hwatches := (hs.index ref what).mp hwhat
    cases what with
    | guardian id =>
      obtain ⟨r, hr, hmon⟩ := hwatches
      refine ⟨s.guardianDown id r, ?_, handled_guardianDown hs hr hmon⟩
      show (s.reqs.lookup id).map _ = _
      rw [hr]
      rfl
    | steward id =>
      obtain ⟨r, hr, hsmon⟩ := hwatches
      refine ⟨s.stewardDown id r, ?_, handled_stewardDown hs hr hsmon⟩
      show (s.reqs.lookup id).map _ = _
      rw [hr]
      rfl
    | job p =>
      obtain ⟨id, hjob⟩ := hwatches
      refine ⟨(State.jobFinished { s with
        jobs := s.jobs.erase p, mons := unindex (some ref) s.mons } id why out).pump, ?_, ?_⟩
      · show s.jobDown ref p why out = _
        unfold jobDown
        rw [hjob]
        exact if_pos rfl
      · have herased := hs.eraseJob hjob
        have hnone : (unindex (some ref) s.mons).lookup ref = none := by
          rw [lookup_unindex, if_pos rfl]
        apply handled_pump
        · exact handled_jobFinished ⟨herased, hnone⟩ id why out
        · rw [nextRef_jobFinished]
          exact hs.known ref _ hwhat

theorem Books.down (hs : s.Sure) (ref : Ref) (why : Why) (out : Outside) :
    (s.down ref why out).Sure := by
  obtain ⟨s', hs', hsure, hnone⟩ := ownerDown_spec hs ref why out
  unfold State.down
  rw [hs']
  apply (hsure.dropMonitor (some ref)).sure
  rintro ref' (hlost | hlost)
  · cases hlost
  · cases hlost
    exact hnone

/-! ## The sweep -/

theorem Books.adoptSteward (hs : s.Sure) (hmon : ∀ ref, r.mon = some ref →
      s.mons.lookup ref = none ∧ ref < s.nextRef ∧ s.monitors.lookup ref = some r.guardian)
    (hsmon : r.smon = none) : (s.adoptSteward id r).Sure := by
  unfold State.adoptSteward
  have hput : (s.putReq id r).Sure := by
    apply hs.putReq
    · intro ref hr
      obtain ⟨hnone, hknown, hset⟩ := hmon ref hr
      refine ⟨.inr hnone, hknown, ?_, fun _ => hset⟩
      rw [hsmon]
      simp
    · intro ref hr
      rw [hsmon] at hr
      cases hr
  split
  · rename_i steward hsteward
    split
    · have hset := hs.monitor steward
      refine Books.putReq (s := (s.monitor steward).tell steward _)
        ⟨hset.index, hset.set, hset.known, hset.jobs⟩ ?_ ?_
      · intro ref hr
        obtain ⟨hnone, hknown, hm⟩ := hmon ref hr
        refine ⟨.inr hnone, Nat.lt_succ_of_lt hknown, ?_, ?_⟩
        · intro heq
          cases heq
          exact Nat.lt_irrefl _ hknown
        · intro _
          show (s.monitors.insert s.nextRef steward).lookup ref = some r.guardian
          rw [Table.lookup_insert_eq, if_neg (Nat.ne_of_lt hknown)]
          exact hm
      · intro ref hr
        cases hr
        exact ⟨.inr hs.unknown, Nat.lt_succ_self _,
          fun _ => ⟨steward, hsteward, AList.lookup_insert _⟩⟩
    · exact hput
  · exact hput

theorem decodeOwner_fresh {incarnation : Wasi.Name} {gen : ℕ} {root : RootId}
    {inc genB pidB spidB : Wasi.Name} {ops : List RecoverOp} {rec : Record}
    (h : decodeOwner incarnation gen root inc genB pidB spidB id ops = .ok rec) :
    rec.Fresh root := by
  unfold decodeOwner at h
  split at h
  · split at h
    · cases h
      refine ⟨rfl, rfl, rfl, rfl, ?_⟩
      intro hkind
      cases hkind
    · cases h
  · cases h
    exact ⟨rfl, rfl, rfl, rfl, fun _ => rfl⟩

theorem decodeRecord_fresh {roots : List RootId} {incarnation : Wasi.Name} {gen : ℕ} {root : RootId}
    {text : List Char} {rec : Record}
    (h : decodeRecord roots incarnation gen root text = .ok rec) : rec.Fresh root := by
  have hbody : ∀ {inc genB pidB spidB id lines},
      decodeBody roots incarnation gen root inc genB pidB spidB id lines = .ok rec →
      rec.Fresh root := by
    intro inc genB pidB spidB id lines h
    unfold decodeBody at h
    split at h
    · exact decodeOwner_fresh h
    · cases h
  unfold decodeRecord at h
  split at h
  · cases h
  · unfold decodeHeader at h
    split at h
    · split at h
      · exact hbody h
      · cases h
    · split at h
      · exact hbody h
      · cases h
    · cases h

theorem Books.adoptOrOrphan (hs : s.Sure) {rec : Record} (hsmon : rec.req.smon = none) :
    (s.adoptOrOrphan rec).Sure := by
  have hnone : ∀ o : Option Ref, o = none → ∀ ref, o ≠ some ref := by
    rintro _ rfl _ h
    cases h
  have horphan : (s.schedule rec.id { rec.req with
      stage := Stage.queued, mon := none, gen := s.gen }).Sure := by
    apply Books.schedule
    apply hs.putReq
    · intro ref h
      cases h
    · intro ref h
      exact absurd h (hnone _ hsmon ref)
  unfold State.adoptOrOrphan
  simp only
  split
  · exact horphan
  · split
    · have hset := hs.monitor rec.req.guardian
      refine Books.adoptSteward (s := (s.monitor rec.req.guardian).ask rec.id _)
        ⟨hset.index, hset.set, hset.known, hset.jobs⟩ ?_ hsmon
      intro ref h
      cases h
      exact ⟨hs.unknown, Nat.lt_succ_self _, AList.lookup_insert _⟩
    · exact horphan

theorem Books.sweepOne (hs : s.Sure) (root : RootId) (d : RootDir) (moved : List Wasi.Name)
    (f : Wasi.Name × Option (List Char)) : (State.sweepOne root d (s, moved) f).1.Sure := by
  unfold State.sweepOne
  split
  · exact hs
  · split
    · exact ⟨hs.index, hs.set, hs.known, hs.jobs⟩
    · rename_i rec hrec
      exact hs.adoptOrOrphan (decodeRecord_fresh hrec).smon

/-- What every record keeps that is swept, the sweep keeps. -/
theorem sweep_induct {P : State → Prop}
    (hone : ∀ (s : State) root d moved f, P s → P (sweepOne root d (s, moved) f).1)
    (disk : Disk) (hs : P s) : P (s.sweep disk).1 := by
  have hfold : ∀ (root : RootId) (d : RootDir) (fs : List (Wasi.Name × Option (List Char)))
      (sm : State × List Wasi.Name), P sm.1 → P (fs.foldl (sweepOne root d) sm).1 := by
    intro root d fs
    induction fs with
    | nil => exact fun _ h => h
    | cons f fs ih =>
      intro sm h
      exact ih _ (hone sm.1 root d sm.2 f h)
  have hroots : ∀ (disk : Disk) (sr : State × List (RootId × RootDir × List Wasi.Name)), P sr.1 →
      P (disk.foldl sweepRoot sr).1 := by
    intro disk
    induction disk with
    | nil => exact fun _ h => h
    | cons e disk ih =>
      intro sr h
      exact ih _ (hfold e.1 e.2 _ _ h)
  exact hroots disk (s, []) hs

theorem sure_empty (hreqs : s.reqs = ∅) (hmons : s.mons = ∅) (hjobs : s.jobs = ∅) : s.Sure := by
  constructor
  · intro ref what
    rw [hmons]
    constructor
    · intro h
      cases h
    · intro h
      cases what with
      | guardian id | steward id =>
        obtain ⟨_, hr, _⟩ := h
        rw [hreqs] at hr
        cases hr
      | job p =>
        obtain ⟨_, hj⟩ := h
        rw [hjobs] at hj
        cases hj
  · intro _ _ h
    rw [hmons] at h
    cases h
  · intro _ _ h
    rw [hmons] at h
    cases h
  · intro _ _ h
    rw [hjobs] at h
    cases h

theorem sure_sweep (hs : s.Sure) (disk : Disk) : (s.sweep disk).1.Sure := by
  apply sweep_induct (P := Sure) _ disk hs
  intro s root d moved f hs
  exact hs.sweepOne root d moved f

end State

/-! ## Runs -/

theorem sure_init (incarnation : Wasi.Name) : (Kept.init incarnation).reaper.Sure :=
  State.sure_empty rfl rfl rfl

theorem sure_message {k k' : Kept} {act : Act} (hk : k.reaper.Sure)
    (hstep : k.message act = some k') : k'.reaper.Sure := by
  cases act with
  | reserve id guardian steward root relpath =>
    simp only [Kept.message] at hstep
    split at hstep
    · cases hstep
    · cases hstep
      exact hk.reserve id guardian steward root relpath
  | journalFailed id =>
    cases hstep
    exact hk.reservationFailed id
  | call id op out =>
    simp only [Kept.message] at hstep
    split at hstep
    · cases hstep
    · rename_i hop
      cases hstep
      exact hk.alters (State.alters_applyOperation hop _ id out)
  | apply id caller operation op out =>
    cases hstep
    show (k.reaper.apply id caller operation op out).2.Sure
    rcases State.apply_cases k.reaper id caller operation op out with ⟨_, h⟩ | ⟨_, h⟩
    · exact hk.alters h
    · exact (hk.opFinish id).alters h
  | finish id =>
    cases hstep
    exact hk.finish id
  | down ref why out =>
    simp only [Kept.message] at hstep
    split at hstep
    · split at hstep
      · cases hstep
        exact hk.down ref why out
      · cases hstep
    · cases hstep
  | adoptReply id ledger nextSeq actions adapter =>
    simp only [Kept.message] at hstep
    split at hstep
    · cases hstep
      exact hk.adoptReply id ledger nextSeq actions adapter
    · cases hstep
  | handshakeReply id yes =>
    cases hstep
    exact hk.handshakeReply id yes
  | fire t =>
    simp only [Kept.message] at hstep
    split at hstep
    · cases hstep
      exact hk.fire t
    · cases hstep
  | die p => cases hstep
  | restart opts disk => cases hstep

end ErlangWasm.Reaper
