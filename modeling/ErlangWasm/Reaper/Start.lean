import ErlangWasm.Reaper.Monitors

/-!
# A start

The sweep takes the records of a disk one by one, and what it makes of them it makes of each.
-/

namespace ErlangWasm.Reaper

open Reasoning
open Wasi (Name)

namespace State

variable {s s' : State} {id : RequestId} {r : Req}

/-- It reads records the same way, and the same processes are gone. -/
structure Here (s s' : State) : Prop where
  roots : s'.roots = s.roots
  incarnation : s'.incarnation = s.incarnation
  gen : s'.gen = s.gen
  gone : s'.gone = s.gone

theorem Here.refl (s : State) : s.Here s := ⟨rfl, rfl, rfl, rfl⟩

theorem Here.trans {s₁ s₂ s₃ : State} (h : s₁.Here s₂) (h' : s₂.Here s₃) : s₁.Here s₃ :=
  ⟨h'.roots.trans h.roots, h'.incarnation.trans h.incarnation, h'.gen.trans h.gen,
    h'.gone.trans h.gone⟩

theorem here_putReq (s : State) (id : RequestId) (r : Req) : s.Here (s.putReq id r) :=
  ⟨rfl, rfl, rfl, rfl⟩

theorem here_monitor (s : State) (p : Pid) : s.Here (s.monitor p) := ⟨rfl, rfl, rfl, rfl⟩

theorem here_tell (s : State) (p : Pid) (n : Note) : s.Here (s.tell p n) := ⟨rfl, rfl, rfl, rfl⟩

theorem here_ask (s : State) (id : RequestId) (r : Req) : s.Here (s.ask id r) :=
  ⟨rfl, rfl, rfl, rfl⟩

theorem here_pump (s : State) : s.Here s.pump := by
  refine pump_induct (P := s.Here) ?_ (.refl s)
  intro s' id rest h _
  have hs' : s.Here s' := ⟨h.roots, h.incarnation, h.gen, h.gone⟩
  have htaken : s'.Here (s'.pumpOne id) := by
    unfold pumpOne
    split
    · exact .refl s'
    · exact ⟨rfl, rfl, rfl, rfl⟩
  have hboth := hs'.trans htaken
  exact ⟨hboth.roots, hboth.incarnation, hboth.gen, hboth.gone⟩

theorem here_schedule (s : State) (id : RequestId) (r : Req) : s.Here (s.schedule id r) := by
  have hqueued : s.Here { s.putReq id r with queue := s.queue ++ [id] } := ⟨rfl, rfl, rfl, rfl⟩
  exact hqueued.trans (here_pump _)

theorem here_adoptSteward (s : State) (id : RequestId) (r : Req) :
    s.Here (s.adoptSteward id r) := by
  unfold adoptSteward
  split
  · split
    · exact ((here_monitor s _).trans (here_tell _ _ _)).trans (here_putReq _ _ _)
    · exact here_putReq _ _ _
  · exact here_putReq _ _ _

theorem here_adoptOrOrphan (s : State) (rec : Record) : s.Here (s.adoptOrOrphan rec) := by
  unfold adoptOrOrphan
  simp only
  split
  · exact here_schedule _ _ _
  · split
    · exact ((here_monitor s _).trans (here_ask _ _ _)).trans (here_adoptSteward _ _ _)
    · exact here_schedule _ _ _

theorem here_dropMonitor (s : State) (o : Option Ref) : s.Here (s.dropMonitor o) := by
  cases o <;> exact ⟨rfl, rfl, rfl, rfl⟩

theorem here_dropReq (s : State) (id : RequestId) : s.Here (s.dropReq id) := by
  unfold State.dropReq
  split <;> exact ⟨rfl, rfl, rfl, rfl⟩

/-! ## The records of a disk -/

/-- The record of a file, where there is one. -/
def decodedFile (s : State) (root : RootId) (f : Name × Option (List Char)) : Option Record :=
  f.2.bind fun text => (decodeRecord s.roots s.incarnation s.gen root text).toOption

theorem decodedFile_here (h : s.Here s') (root : RootId) (f : Name × Option (List Char)) :
    s'.decodedFile root f = s.decodedFile root f := by
  unfold decodedFile
  rw [h.roots, h.incarnation, h.gen]

theorem decodedFile_fresh {root : RootId} {f : Name × Option (List Char)} {rec : Record}
    (h : s.decodedFile root f = some rec) : rec.Fresh root := by
  obtain ⟨text, _, htext⟩ := Option.bind_eq_some_iff.mp h
  cases hrec : decodeRecord s.roots s.incarnation s.gen root text with
  | error e =>
    rw [hrec] at htext
    cases htext
  | ok rec' =>
    rw [hrec] at htext
    cases htext
    exact decodeRecord_fresh hrec

/-- A file has a record, or is only counted. -/
theorem sweepOne_cases (s : State) (root : RootId) (d : RootDir) (moved : List Name)
    (f : Name × Option (List Char)) :
    (∃ rec, s.decodedFile root f = some rec ∧
        sweepOne root d (s, moved) f = (s.adoptOrOrphan rec, moved)) ∨
      s.decodedFile root f = none ∧ ∃ n, (sweepOne root d (s, moved) f).1 =
        { s with quarantined := n } := by
  unfold sweepOne decodedFile
  cases f.2 with
  | none => exact .inr ⟨rfl, s.quarantined, rfl⟩
  | some text =>
    show (∃ rec, (decodeRecord s.roots s.incarnation s.gen root text).toOption = some rec ∧ _) ∨ _
    cases hrec : decodeRecord s.roots s.incarnation s.gen root text with
    | error e =>
      right
      constructor
      · show (decodeRecord s.roots s.incarnation s.gen root text).toOption = none
        rw [hrec]
        rfl
      · simp only [hrec]
        exact ⟨_, rfl⟩
    | ok rec =>
      left
      simp only [hrec]
      exact ⟨rec, rfl, rfl⟩

/-- What holds of no records holds of all, where each that is taken keeps it. -/
theorem records_induct {P : List Record → State → Prop} {s₀ : State} {all : List Record}
    (hadopt : ∀ taken rec rest s, all = taken ++ rec :: rest → s₀.Here s → P taken s →
      P (taken ++ [rec]) (s.adoptOrOrphan rec))
    (hcount : ∀ taken s n, P taken s → P taken { s with quarantined := n })
    (root : RootId) (d : RootDir) (fs : List (Name × Option (List Char))) :
    ∀ (taken rest : List Record) (sm : State × List Name),
      all = taken ++ fs.filterMap (s₀.decodedFile root) ++ rest → s₀.Here sm.1 → P taken sm.1 →
      s₀.Here (fs.foldl (sweepOne root d) sm).1 ∧
        P (taken ++ fs.filterMap (s₀.decodedFile root)) (fs.foldl (sweepOne root d) sm).1 := by
  induction fs with
  | nil =>
    intro taken rest sm _ hhere hp
    rw [List.filterMap_nil, List.append_nil]
    exact ⟨hhere, hp⟩
  | cons f fs ih =>
    intro taken rest sm hall hhere hp
    rw [List.foldl_cons]
    rcases sweepOne_cases sm.1 root d sm.2 f with ⟨rec, hrec, heq⟩ | ⟨hrec, n, heq⟩
    · rw [decodedFile_here hhere] at hrec
      rw [List.filterMap_cons_some hrec] at hall ⊢
      change sweepOne root d sm f = _ at heq
      rw [heq, List.append_cons]
      apply ih (taken ++ [rec]) rest
      · rw [hall]
        simp
      · exact hhere.trans (here_adoptOrOrphan _ _)
      · apply hadopt taken rec (fs.filterMap (s₀.decodedFile root) ++ rest) sm.1 _ hhere hp
        rw [hall]
        simp
    · rw [decodedFile_here hhere] at hrec
      rw [List.filterMap_cons_none hrec] at hall ⊢
      change (sweepOne root d sm f).1 = _ at heq
      apply ih taken rest _ hall
      · rw [heq]
        exact hhere.trans ⟨rfl, rfl, rfl, rfl⟩
      · rw [heq]
        exact hcount _ _ _ hp

theorem sweep_records {P : List Record → State → Prop} {s₀ : State} (disk : Disk)
    (hadopt : ∀ taken rec rest s, s₀.records disk = taken ++ rec :: rest → s₀.Here s → P taken s →
      P (taken ++ [rec]) (s.adoptOrOrphan rec))
    (hcount : ∀ taken s n, P taken s → P taken { s with quarantined := n }) (hp : P [] s₀) :
    s₀.Here (s₀.sweep disk).1 ∧ P (s₀.records disk) (s₀.sweep disk).1 := by
  have hroots : ∀ (es : Disk) (taken : List Record)
      (sr : State × List (RootId × RootDir × List Name)),
      s₀.records disk = taken ++ s₀.records es → s₀.Here sr.1 → P taken sr.1 →
      s₀.Here (es.foldl sweepRoot sr).1 ∧ P (taken ++ s₀.records es) (es.foldl sweepRoot sr).1 := by
    intro es
    induction es with
    | nil =>
      intro taken sr _ hhere hp
      show _ ∧ P (taken ++ []) _
      rw [List.append_nil]
      exact ⟨hhere, hp⟩
    | cons e es ih =>
      intro taken sr hall hhere hp
      have hcons : s₀.records (e :: es) =
          e.2.listed.filterMap (s₀.decodedFile e.1) ++ s₀.records es := rfl
      rw [hcons, ← List.append_assoc] at hall ⊢
      obtain ⟨hhere', hp'⟩ := records_induct hadopt hcount e.1 e.2 e.2.listed taken (s₀.records es)
        (sr.1, []) hall hhere hp
      exact ih _ _ hall hhere' hp'
  exact hroots disk [] (s₀, []) rfl (.refl s₀) hp

end State

end ErlangWasm.Reaper
