import ErlangWasm.Reaper.Start

/-!
# Every request is in one stage

What a request is about is its own row, and how often the queue, the timers and the jobs name it.
-/

namespace ErlangWasm.Reaper

open Reasoning

/-! ## One request -/

structure View where
  req : Option Req
  queued : ℕ
  armed : ℕ
  working : ℕ

namespace View

def load (v : View) : ℕ := v.queued + v.armed + v.working

/-- Where the request is, it is once; where it is over, or was never there, it is nowhere. -/
structure Placed (v : View) (minted cleaned : Prop) : Prop where
  once : v.load ≤ 1
  waits : ∀ r, v.req = some r → r.stage.waits = true →
    v.load = 0 ∧ r.finished = false ∧ (r.mon ≠ none ∨ r.smon ≠ none)
  queued : ∀ r, v.req = some r → r.stage = .queued → v.queued + v.armed = 1
  running : ∀ r, v.req = some r → r.stage = .running → v.working = 1
  complete : ∀ r, v.req = some r → r.stage = .complete →
    v.load = 0 ∧ r.finished = true ∧ r.smon ≠ none
  cleaned : cleaned → v.load = 0 ∧ ∀ r, v.req = some r → r.stage = .complete
  minted : ¬minted → v.load = 0 ∧ v.req = none

variable {v : View} {minted cleaned minted' cleaned' : Prop} {r r' : Req}

theorem Placed.mono (hv : v.Placed minted cleaned) (hminted : minted → minted')
    (hcleaned : cleaned' → cleaned) : v.Placed minted' cleaned' where
  once := hv.once
  waits := hv.waits
  queued := hv.queued
  running := hv.running
  complete := hv.complete
  cleaned h := hv.cleaned (hcleaned h)
  minted h := hv.minted fun h' => h (hminted h')

theorem Placed.minted_of_req (hv : v.Placed minted cleaned) (hr : v.req = some r) : minted := by
  by_contra h
  rw [(hv.minted h).2] at hr
  cases hr

/-- What has something to do in cleanup was never found clean. -/
theorem Placed.not_cleaned (hv : v.Placed minted cleaned) (hr : v.req = some r)
    (hstage : r.stage ≠ .complete) : ¬cleaned := fun h => hstage ((hv.cleaned h).2 r hr)

/-- A request in the queue is there for it. -/
theorem Placed.stage_of_queued (hv : v.Placed minted cleaned) (hr : v.req = some r)
    (hpos : 0 < v.queued + v.armed) : r.stage = .queued := by
  have honce := hv.once
  unfold load at honce
  cases hstage : r.stage with
  | queued => rfl
  | running =>
    have h := hv.running r hr hstage
    omega
  | complete =>
    have h := (hv.complete r hr hstage).1
    unfold load at h
    omega
  | _ =>
    have h := (hv.waits r hr (by rw [hstage]; rfl)).1
    unfold load at h
    omega

theorem Placed.stage_of_working (hv : v.Placed minted cleaned) (hr : v.req = some r)
    (hpos : 0 < v.working) : r.stage = .running := by
  have honce := hv.once
  unfold load at honce
  cases hstage : r.stage with
  | running => rfl
  | queued =>
    have h := hv.queued r hr hstage
    omega
  | complete =>
    have h := (hv.complete r hr hstage).1
    unfold load at h
    omega
  | _ =>
    have h := (hv.waits r hr (by rw [hstage]; rfl)).1
    unfold load at h
    omega

theorem Placed.alike (hv : v.Placed minted cleaned) (hr : v.req = some r) (hlike : r.Alike r') :
    Placed { v with req := some r' } minted cleaned := by
  constructor
  · exact hv.once
  · intro _ h hstage
    cases h
    rw [hlike.stage] at hstage
    rw [hlike.finished, hlike.mon, hlike.smon]
    exact hv.waits r hr hstage
  · intro _ h hstage
    cases h
    rw [hlike.stage] at hstage
    exact hv.queued r hr hstage
  · intro _ h hstage
    cases h
    rw [hlike.stage] at hstage
    exact hv.running r hr hstage
  · intro _ h hstage
    cases h
    rw [hlike.stage] at hstage
    rw [hlike.finished, hlike.smon]
    exact hv.complete r hr hstage
  · intro h
    refine ⟨(hv.cleaned h).1, ?_⟩
    intro _ h'
    cases h'
    rw [hlike.stage]
    exact (hv.cleaned h).2 r hr
  · intro h
    exact absurd (hv.minted_of_req hr) h

/-- A request that is dropped leaves what works on it behind. -/
theorem Placed.dropped (hv : v.Placed minted cleaned) :
    Placed { v with req := none } minted cleaned where
  once := hv.once
  waits _ h := by cases h
  queued _ h := by cases h
  running _ h := by cases h
  complete _ h := by cases h
  cleaned h := ⟨(hv.cleaned h).1, fun _ h' => by cases h'⟩
  minted h := ⟨(hv.minted h).1, rfl⟩

/-- In the queue or with a timer, and nowhere else. -/
theorem placed_once (hload : v.load = 1) (hworking : v.working = 0) (hr : v.req = some r)
    (hstage : r.stage = .queued) (hminted : minted) (hcleaned : ¬cleaned) :
    v.Placed minted cleaned := by
  have hone : v.queued + v.armed + v.working = 1 := hload
  constructor
  · exact Nat.le_of_eq hload
  · intro _ h hwaits
    rw [hr] at h
    cases h
    rw [hstage] at hwaits
    cases hwaits
  · intro _ h _
    omega
  · intro _ h hrunning
    rw [hr] at h
    cases h
    rw [hstage] at hrunning
    cases hrunning
  · intro _ h hcomplete
    rw [hr] at h
    cases h
    rw [hstage] at hcomplete
    cases hcomplete
  · intro h
    exact absurd h hcleaned
  · intro h
    exact absurd hminted h

theorem placed_queued (hload : v.load = 0) (hstage : r.stage = .queued) (hminted : minted)
    (hcleaned : ¬cleaned) :
    Placed { v with req := some r, queued := v.queued + 1 } minted cleaned := by
  unfold load at hload
  apply placed_once _ _ rfl hstage hminted hcleaned
  · show v.queued + 1 + v.armed + v.working = 1
    omega
  · show v.working = 0
    omega

theorem placed_armed (hload : v.load = 0) (hstage : r.stage = .queued) (hminted : minted)
    (hcleaned : ¬cleaned) :
    Placed { v with req := some r, armed := v.armed + 1 } minted cleaned := by
  unfold load at hload
  apply placed_once _ _ rfl hstage hminted hcleaned
  · show v.queued + (v.armed + 1) + v.working = 1
    omega
  · show v.working = 0
    omega

theorem placed_waits (hload : v.load = 0) (hstage : r.stage.waits = true)
    (hfinished : r.finished = false) (howner : r.mon ≠ none ∨ r.smon ≠ none) (hminted : minted)
    (hcleaned : ¬cleaned) : Placed { v with req := some r } minted cleaned := by
  constructor
  · exact Nat.le_trans (Nat.le_of_eq hload) (Nat.zero_le 1)
  · intro _ h _
    cases h
    exact ⟨hload, hfinished, howner⟩
  · intro _ h hqueued
    cases h
    rw [hqueued] at hstage
    cases hstage
  · intro _ h hrunning
    cases h
    rw [hrunning] at hstage
    cases hstage
  · intro _ h hcomplete
    cases h
    rw [hcomplete] at hstage
    cases hstage
  · intro h
    exact absurd h hcleaned
  · intro h
    exact absurd hminted h

theorem placed_complete (hload : v.load = 0) (hstage : r.stage = .complete)
    (hfinished : r.finished = true) (hsmon : r.smon ≠ none) (hminted : minted) :
    Placed { v with req := some r } minted cleaned := by
  constructor
  · exact Nat.le_trans (Nat.le_of_eq hload) (Nat.zero_le 1)
  · intro _ h hwaits
    cases h
    rw [hstage] at hwaits
    cases hwaits
  · intro _ h hqueued
    cases h
    rw [hstage] at hqueued
    cases hqueued
  · intro _ h hrunning
    cases h
    rw [hstage] at hrunning
    cases hrunning
  · intro _ h _
    cases h
    exact ⟨hload, hfinished, hsmon⟩
  · intro _
    refine ⟨hload, ?_⟩
    intro _ h
    cases h
    exact hstage
  · intro h
    exact absurd hminted h

/-- Nothing is left of it, or what is left is in no stage. -/
theorem placed_none (hload : v.load = 0) : Placed { v with req := none } minted cleaned where
  once := Nat.le_trans (Nat.le_of_eq hload) (Nat.zero_le 1)
  waits _ h := by cases h
  queued _ h := by cases h
  running _ h := by cases h
  complete _ h := by cases h
  cleaned _ := ⟨hload, fun _ h' => by cases h'⟩
  minted _ := ⟨hload, rfl⟩

end View

namespace State

variable {s : State} {minted cleaned : Finset RequestId} {id : RequestId} {r : Req} {ref : Ref}

def view (s : State) (id : RequestId) : View :=
  ⟨s.reqs.lookup id, s.queue.count id, s.timers.count (.cleanup id), s.working id⟩

def Placed (minted cleaned : Finset RequestId) (s : State) : Prop :=
  ∀ id, (s.view id).Placed (id ∈ minted) (id ∈ cleaned)

/-! ## What moves the views -/

theorem view_putReq (s : State) (id : RequestId) (r : Req) (j : RequestId) :
    (s.putReq id r).view j = if j = id then { s.view j with req := some r } else s.view j := by
  have hreqs : (s.putReq id r).reqs.lookup j = if j = id then some r else s.reqs.lookup j :=
    Table.lookup_insert_eq _ _ _
  split
  · rename_i hj
    rw [if_pos hj] at hreqs
    unfold view
    rw [hreqs]
    rfl
  · rename_i hj
    rw [if_neg hj] at hreqs
    unfold view
    rw [hreqs]
    rfl

theorem view_dropReq (s : State) (id : RequestId) (j : RequestId) :
    (s.dropReq id).view j = if j = id then { s.view j with req := none } else s.view j := by
  cases hr : s.reqs.lookup id with
  | none =>
    rw [dropReq_none hr]
    by_cases hj : j = id
    · subst hj
      rw [if_pos rfl]
      unfold view
      rw [hr]
    · rw [if_neg hj]
  | some r =>
    have hreqs : (s.reqs.erase id).lookup j = if j = id then none else s.reqs.lookup j :=
      Table.lookup_erase_eq _ _
    rw [dropReq_eq hr]
    by_cases hj : j = id
    · rw [if_pos hj] at hreqs ⊢
      unfold view
      simp only [hreqs]
      rfl
    · rw [if_neg hj] at hreqs ⊢
      unfold view
      simp only [hreqs]
      rfl

theorem view_dropMonitor (s : State) (o : Option Ref) (j : RequestId) :
    (s.dropMonitor o).view j = s.view j := by
  cases o <;> rfl

theorem Placed.drop (hs : s.Placed minted cleaned) (id : RequestId) :
    (s.dropReq id).Placed minted cleaned := by
  intro j
  rw [view_dropReq]
  split
  · exact (hs j).dropped
  · exact hs j

theorem Placed.alters {s' : State} (hs : s.Placed minted cleaned) (h : s.Alters s') :
    s'.Placed minted cleaned := by
  induction h with
  | refl => exact hs
  | journal _ _ _ ih => exact ih
  | crash _ ih => exact ih
  | put _ hr hlike ih =>
    intro j
    rw [view_putReq]
    split
    · rename_i hj
      subst hj
      exact (ih j).alike hr hlike
    · exact ih j

/-- A request is stored, with its place. -/
theorem Placed.put (hs : ∀ j, j ≠ id → (s.view j).Placed (j ∈ minted) (j ∈ cleaned))
    (hid : View.Placed { s.view id with req := some r } (id ∈ minted) (id ∈ cleaned)) :
    (s.putReq id r).Placed minted cleaned := by
  intro j
  rw [view_putReq]
  split
  · rename_i hj
    subst hj
    exact hid
  · rename_i hj
    exact hs j hj

/-! ## The pump -/

theorem working_startJob (hs : s.Sure) (id : RequestId) (r : Req) (j : RequestId) :
    (s.startJob id r).working j = s.working j + if j = id then 1 else 0 := by
  have hnone : s.jobs.lookup (.job s.nextJob) = none := by
    cases hj : s.jobs.lookup (.job s.nextJob) with
    | none => rfl
    | some e =>
      obtain ⟨n, hn, hlt⟩ := hs.jobs _ e hj
      cases hn
      exact absurd hlt (Nat.lt_irrefl _)
  unfold working
  show Table.total _ (s.jobs.insert (.job s.nextJob) (id, s.nextRef)) = _
  rw [Table.total_insert_new _ _ hnone, Nat.add_comm]
  simp only [eq_comm]

theorem Placed.pumpOne (hsure : s.Sure) (rest : List RequestId)
    (hs : Placed minted cleaned { s with queue := id :: rest }) :
    Placed minted cleaned { s.pumpOne id with queue := rest } := by
  have hqueued : ∀ j, (id :: rest).count j = rest.count j + if j = id then 1 else 0 := by
    intro j
    rw [List.count_cons]
    by_cases hj : j = id
    · simp [hj]
    · simp [hj, Ne.symm hj]
  unfold State.pumpOne
  cases hr : s.reqs.lookup id with
  | none =>
    intro j
    by_cases hj : j = id
    · subst hj
      have hold := hs j
      have hload : View.load ⟨s.reqs.lookup j, (j :: rest).count j, s.timers.count (.cleanup j),
          s.working j⟩ ≤ 1 := hold.once
      unfold View.load at hload
      rw [hqueued, if_pos rfl] at hload
      change rest.count j + 1 + s.timers.count (.cleanup j) + s.working j ≤ 1 at hload
      have hzero : View.load ⟨none, rest.count j, s.timers.count (.cleanup j), s.working j⟩ = 0 := by
        show rest.count j + s.timers.count (.cleanup j) + s.working j = 0
        omega
      show View.Placed ⟨s.reqs.lookup j, rest.count j, s.timers.count (.cleanup j), s.working j⟩ _ _
      rw [hr]
      exact View.placed_none hzero
    · have hold := hs j
      have hview : View.Placed ⟨s.reqs.lookup j, (id :: rest).count j, s.timers.count (.cleanup j),
          s.working j⟩ (j ∈ minted) (j ∈ cleaned) := hold
      rw [hqueued, if_neg hj] at hview
      exact hview
  | some r =>
    intro j
    have hreqs : (s.startJob id r).reqs.lookup j =
        if j = id then some { r with stage := .running } else s.reqs.lookup j :=
      Table.lookup_insert_eq _ _ _
    have hview : View.Placed ⟨s.reqs.lookup j, (id :: rest).count j, s.timers.count (.cleanup j),
        s.working j⟩ (j ∈ minted) (j ∈ cleaned) := hs j
    show View.Placed ⟨(s.startJob id r).reqs.lookup j, rest.count j, s.timers.count (.cleanup j),
      (s.startJob id r).working j⟩ _ _
    rw [hreqs, working_startJob hsure]
    rw [hqueued] at hview
    by_cases hj : j = id
    · subst hj
      rw [if_pos rfl] at hview ⊢
      rw [hr] at hview
      have honce := hview.once
      unfold View.load at honce
      change rest.count j + 1 + s.timers.count (.cleanup j) + s.working j ≤ 1 at honce
      have hstage : r.stage = .queued := by
        refine hview.stage_of_queued rfl ?_
        show 0 < rest.count j + 1 + s.timers.count (.cleanup j)
        omega
      rw [if_pos rfl]
      have hload : View.load ⟨some { r with stage := .running }, rest.count j,
          s.timers.count (.cleanup j), s.working j + 1⟩ = 1 := by
        show rest.count j + s.timers.count (.cleanup j) + (s.working j + 1) = 1
        omega
      constructor
      · exact Nat.le_of_eq hload
      · intro _ h hwaits
        cases h
        cases hwaits
      · intro _ h hqueued
        cases h
        cases hqueued
      · intro _ _ _
        show s.working j + 1 = 1
        omega
      · intro _ h hcomplete
        cases h
        cases hcomplete
      · intro h
        refine absurd h (hview.not_cleaned rfl ?_)
        rw [hstage]
        simp
      · intro h
        exact absurd (hview.minted_of_req rfl) h
    · rw [if_neg hj] at hview ⊢
      rw [if_neg hj]
      exact hview

theorem Placed.pump (hsure : s.Sure) (hs : s.Placed minted cleaned) :
    s.pump.Placed minted cleaned := by
  refine (pump_induct (P := fun s => s.Sure ∧ s.Placed minted cleaned) ?_ ⟨hsure, hs⟩).2
  rintro s id rest ⟨hsure, hs⟩ _
  have hsure' : s.Sure := ⟨hsure.index, hsure.set, hsure.known, hsure.jobs⟩
  refine ⟨?_, Placed.pumpOne hsure' rest hs⟩
  have htaken : (s.pumpOne id).Sure := by
    unfold State.pumpOne
    cases hold : s.reqs.lookup id with
    | none => exact hsure'
    | some old => exact hsure'.startJob hold
  exact ⟨htaken.index, htaken.set, htaken.known, htaken.jobs⟩

/-- A request goes to cleanup that is in no cleanup yet. -/
theorem Placed.schedule (hput : (s.putReq id r).Sure)
    (hs : ∀ j, j ≠ id → (s.view j).Placed (j ∈ minted) (j ∈ cleaned))
    (hload : (s.view id).load = 0) (hstage : r.stage = .queued) (hminted : id ∈ minted)
    (hcleaned : id ∉ cleaned) : (s.schedule id r).Placed minted cleaned := by
  have hqueued : ∀ j, (s.queue ++ [id]).count j = s.queue.count j + if j = id then 1 else 0 := by
    intro j
    rw [List.count_append, List.count_singleton]
    by_cases hj : j = id
    · simp [hj]
    · simp [hj, Ne.symm hj]
  have hplaced : Placed minted cleaned { s.putReq id r with queue := s.queue ++ [id] } := by
    intro j
    have hreqs : (s.putReq id r).reqs.lookup j = if j = id then some r else s.reqs.lookup j :=
      Table.lookup_insert_eq _ _ _
    show View.Placed ⟨(s.putReq id r).reqs.lookup j, (s.queue ++ [id]).count j,
      s.timers.count (.cleanup j), s.working j⟩ _ _
    rw [hreqs, hqueued]
    by_cases hj : j = id
    · subst hj
      rw [if_pos rfl, if_pos rfl]
      exact View.placed_queued (v := s.view j) hload hstage hminted hcleaned
    · rw [if_neg hj, if_neg hj]
      exact hs j hj
  exact Placed.pump ⟨hput.index, hput.set, hput.known, hput.jobs⟩ hplaced

end State

end ErlangWasm.Reaper
