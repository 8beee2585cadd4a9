import ErlangWasm.Reaper.Accounts

/-!
# The accounts are exact, over runs

What is known of a row and of what the jobs left of its request is one of five things, and the end
of a job leads from one to another.
-/

namespace ErlangWasm.Reaper

open Reasoning
open Wasi (Name)

/-! ## One row -/

inductive Row.Accounted (row : Row) (left : List Bool) (resting : Bool) : Prop
  /-- every job so far failed -/
  | going (n : ℕ) (hreq : row.req = some (n, false)) (hn : n ≤ row.retries)
      (hleft : left = List.replicate n true) (hquarantined : row.quarantined = false)
      (hdeleted : row.deleted = false) (harmed : row.armed = if resting then 1 else 0)
  /-- it was given up otherwise, or was never there -/
  | gone (n : ℕ) (hreq : row.req = none) (hn : n ≤ row.retries)
      (hleft : left = List.replicate n true) (hquarantined : row.quarantined = false)
  | complete (m n : ℕ) (hreq : row.req = some (m, true)) (hn : n ≤ row.retries)
      (hleft : left = false :: List.replicate n true) (hquarantined : row.quarantined = false)
      (harmed : row.armed = 0) (hresting : resting = false)
  | removed (n : ℕ) (hreq : row.req = none) (hn : n ≤ row.retries)
      (hleft : left = false :: List.replicate n true) (hquarantined : row.quarantined = false)
      (hdeleted : row.deleted = true)
  | quarantined (hreq : row.req = none) (hleft : left = List.replicate (row.retries + 1) true)
      (hquarantined : row.quarantined = true) (hdeleted : row.deleted = false)

namespace Row

variable {row row' : Row} {left : List Bool} {resting : Bool} {n : ℕ}

theorem Accounted.keeps (h : row.Accounted left resting) (hkeeps : row.Keeps row') :
    row'.Accounted left resting := by
  cases hkeeps with
  | same => exact h
  | finished hsome =>
    cases h with
    | going n _ hn hleft hq _ _ => exact .gone n rfl hn hleft hq
    | complete _ n _ hn hleft hq _ _ => exact .removed n rfl hn hleft hq rfl
    | gone _ hreq _ _ _ | removed _ hreq _ _ _ _ | quarantined hreq _ _ _ =>
      rw [hreq] at hsome
      cases hsome
  | failed hreq' =>
    cases h with
    | going n _ hn hleft hq _ _ | gone n _ hn hleft hq => exact .gone n rfl hn hleft hq
    | complete _ _ hreq _ _ _ _ _ | removed _ hreq _ _ _ _ | quarantined hreq _ _ _ =>
      rw [hreq] at hreq'
      cases hreq'

/-- A row without a request is as it was. -/
theorem Keeps.eq_of_none (h : row.Keeps row') (hreq : row.req = none) : row' = row := by
  cases h with
  | same => rfl
  | finished hsome | failed hsome =>
    rw [hreq] at hsome
    cases hsome

theorem Fresh.accounted (h : row.Fresh) : row.Accounted [] false := by
  obtain hreq | hreq := h.req
  · exact .gone 0 hreq (Nat.zero_le _) rfl h.quarantined
  · exact .going 0 hreq (Nat.zero_le _) rfl h.quarantined h.deleted h.armed

/-- A job ends of a request that nothing else works on. -/
theorem Accounted.ends {gone : Bool} (h : row.Accounted left resting)
    (hreq : row.req = some (n, false)) (harmed : row.armed = 0)
    (hlast : gone = true → n < row.retries) (hends : row.Ends n gone row') :
    row'.Accounted ((!gone) :: left) (left.length < row.retries && !gone) := by
  obtain ⟨hn, hleft, hq, hd⟩ : n ≤ row.retries ∧ left = List.replicate n true ∧
      row.quarantined = false ∧ row.deleted = false := by
    cases h with
    | going m hreq' hn hleft hq hd _ =>
      rw [hreq] at hreq'
      cases hreq'
      exact ⟨hn, hleft, hq, hd⟩
    | complete _ _ hreq' _ _ _ _ _ | gone _ hreq' _ _ _ | removed _ hreq' _ _ _ _
    | quarantined hreq' _ _ _ =>
      rw [hreq] at hreq'
      cases hreq'
  subst hleft
  rw [List.length_replicate]
  cases hends with
  | complete hlt hgone =>
    subst hgone
    exact .complete n n rfl hn rfl hq harmed (by simp)
  | removed hlt hgone =>
    subst hgone
    exact .removed n rfl hn rfl hq rfl
  | quarantined hle =>
    -- the last that is allowed leaves something
    have hgone : gone = false := Bool.eq_false_iff.mpr fun h =>
      absurd (hlast h) (Nat.not_lt.mpr hle)
    subst hgone
    have hlast : n = row.retries := Nat.le_antisymm hn hle
    rw [hlast]
    exact .quarantined rfl rfl rfl hd
  | retried hlt hgone =>
    subst hgone
    refine .going (n + 1) rfl hlt rfl hq hd ?_
    simp [harmed, hlt]

theorem Accounted.fired (h : row.Accounted left resting) (hpos : 0 < row.armed) :
    Accounted { row with armed := row.armed - 1 } left false := by
  cases h with
  | going n hreq hn hleft hq hd harmed =>
    refine .going n hreq hn hleft hq hd ?_
    cases resting with
    | true =>
      rw [if_pos rfl] at harmed
      simp [harmed]
    | false =>
      rw [if_neg Bool.false_ne_true] at harmed
      omega
  | gone n hreq hn hleft hq => exact .gone n hreq hn hleft hq
  | complete _ _ _ _ _ _ harmed _ => omega
  | removed n hreq hn hleft hq hd => exact .removed n hreq hn hleft hq hd
  | quarantined hreq hleft hq hd => exact .quarantined hreq hleft hq hd

end Row

/-! ## One step -/

/-- What a run keeps of the accounts. -/
structure Account.Sound (a : Account) : Prop where
  settled : a.kept.Settled
  rows : ∀ id, (a.kept.reaper.row id).Accounted (a.left id) (a.resting id)
  /-- of an id that is new nothing is known -/
  new : ∀ id, id ∉ a.kept.minted →
    a.left id = [] ∧ a.resting id = false ∧ (a.kept.reaper.row id).Fresh

namespace Account

variable {offs : List ℕ} {a a' : Account} {kept : Kept}

theorem Sound.req_none (ha : a.Sound) {id : RequestId} (hnew : id ∉ a.kept.minted) :
    (a.kept.reaper.row id).req = none := by
  have hplaced := ((ha.settled.placed id).minted hnew).2
  exact State.row_req_none hplaced

/-- A message that keeps the rows. -/
theorem Sound.steady (ha : a.Sound) (hkept : kept.Settled)
    (hminted : a.kept.minted ⊆ kept.minted) (hsteady : a.kept.reaper.Steady kept.reaper) :
    Sound { a with kept } where
  settled := hkept
  rows id := (ha.rows id).keeps (hsteady id)
  new id hnew := by
    have hold : id ∉ a.kept.minted := fun h => hnew (hminted h)
    obtain ⟨hleft, hresting, hfresh⟩ := ha.new id hold
    have heq := (hsteady id).eq_of_none (ha.req_none hold)
    refine ⟨hleft, hresting, ?_⟩
    rw [heq]
    exact hfresh

theorem Sound.reserve (ha : a.Sound) (hkept : kept.Settled) {id : RequestId}
    (hnew : id ∉ a.kept.minted) (hminted : kept.minted = insert id a.kept.minted)
    (hrows : ∀ j, kept.reaper.row j = if j = id then
      { a.kept.reaper.row j with req := some (0, false) } else a.kept.reaper.row j) :
    Sound { a with kept } where
  settled := hkept
  rows j := by
    dsimp only
    rw [hrows]
    split
    · rename_i hj
      subst hj
      obtain ⟨hleft, hresting, hfresh⟩ := ha.new j hnew
      rw [hleft, hresting]
      exact hfresh.started.accounted
    · exact ha.rows j
  new j hj := by
    dsimp only at hj ⊢
    rw [hminted, Finset.mem_insert, not_or] at hj
    obtain ⟨hleft, hresting, hfresh⟩ := ha.new j hj.2
    rw [hrows, if_neg hj.1]
    exact ⟨hleft, hresting, hfresh⟩

theorem Sound.fire (ha : a.Sound) (hkept : kept.Settled) {id : RequestId}
    (hminted : kept.minted = a.kept.minted) (ht : Timer.cleanup id ∈ a.kept.reaper.timers)
    (hrows : ∀ j, kept.reaper.row j = if j = id then
      { a.kept.reaper.row j with armed := (a.kept.reaper.row j).armed - 1 }
      else a.kept.reaper.row j) :
    Sound { a with kept, resting := fun j => if j = id then false else a.resting j } where
  settled := hkept
  rows j := by
    dsimp only
    rw [hrows]
    split
    · rename_i hj
      subst hj
      exact (ha.rows j).fired (List.count_pos_iff.mpr ht)
    · exact ha.rows j
  new j hj := by
    dsimp only at hj ⊢
    rw [hminted] at hj
    obtain ⟨hleft, hresting, hfresh⟩ := ha.new j hj
    have hne : j ≠ id := by
      intro h
      subst h
      have hload := ((ha.settled.placed j).minted hj).1
      have hpos : 0 < a.kept.reaper.timers.count (.cleanup j) := List.count_pos_iff.mpr ht
      change a.kept.reaper.queue.count j + a.kept.reaper.timers.count (.cleanup j) +
        a.kept.reaper.working j = 0 at hload
      omega
    rw [hrows, if_neg hne, if_neg hne]
    exact ⟨hleft, hresting, hfresh⟩

end Account

namespace State

variable {s : State} {minted cleaned : Finset RequestId} {id : RequestId} {r : Req} {ref : Ref}
  {p : Pid} {why : Why} {out : Outside}

/-- A `'DOWN'` that ends no job of a request that is there. -/
theorem steady_down (hsure : s.Sure) (hs : s.Placed minted cleaned)
    (hguard : undisturbed s (.down ref why out) = true) (hended : s.ended ref = none) :
    s.Steady (s.down ref why out) := by
  have hguard := undisturbed_down hguard
  obtain ⟨s', hs', _⟩ := ownerDown_spec hsure ref why out
  have hdown : s.down ref why out = { s' with monitors := s'.monitors.erase ref } := by
    unfold State.down
    rw [hs']
  rw [hdown]
  change s.Steady s'
  unfold State.ownerDown at hs'
  cases hwhat : s.mons.lookup ref with
  | none =>
    rw [hwhat] at hs'
    cases hs'
    exact .of_eq fun _ => rfl
  | some what =>
    rw [hwhat] at hs' hguard
    cases what with
    | guardian id =>
      obtain ⟨r, hr, rfl⟩ := Option.map_eq_some_iff.mp hs'
      simp only [hr, Option.all_some, Bool.or_eq_true] at hguard
      exact .of_eq (row_guardianDown hs hr hguard)
    | steward id =>
      obtain ⟨r, hr, rfl⟩ := Option.map_eq_some_iff.mp hs'
      simp only [hr, Option.all_some, Bool.or_eq_true] at hguard
      apply steady_stewardDown hs hr
      rcases hguard with (h | h) | h
      · exact .inl h
      · exact .inr (.inl h)
      · exact .inr (.inr h)
    | job p =>
      obtain ⟨id, hjob⟩ := (hsure.index ref _).mp hwhat
      have hnone : s.reqs.lookup id = none := by
        unfold ended at hended
        rw [hwhat] at hended
        dsimp only at hended
        rw [hjob] at hended
        exact Option.map_eq_none_iff.mp hended
      apply Steady.of_eq
      intro j
      have hrow : (s.down ref why out).row j = (State.jobFinished { s with
          jobs := s.jobs.erase p, mons := unindex (some ref) s.mons } id why out).row j :=
        row_down hs hwhat hjob j
      rw [hdown] at hrow
      change s'.row j = _ at hrow
      rw [hrow]
      unfold jobFinished
      dsimp only
      rw [hnone]
      rfl

theorem ended_some (hsure : s.Sure) (h : s.ended ref = some (p, id, r)) :
    s.mons.lookup ref = some (.job p) ∧ s.jobs.lookup p = some (id, ref) ∧
      s.reqs.lookup id = some r := by
  unfold ended at h
  cases hwhat : s.mons.lookup ref with
  | none =>
    rw [hwhat] at h
    cases h
  | some what =>
    rw [hwhat] at h
    cases what with
    | guardian _ => cases h
    | steward _ => cases h
    | job q =>
      obtain ⟨id', hjob⟩ := (hsure.index ref _).mp hwhat
      dsimp only at h
      rw [hjob] at h
      obtain ⟨r', hr', heq⟩ := Option.map_eq_some_iff.mp h
      cases heq
      exact ⟨rfl, hjob, hr'⟩

/-- A job that is believed tells what is left. -/
theorem jobSucceeded_eq (hreports : s.reports p why out = true)
    (hcurrent : s.current p r why = true) : jobSucceeded why r out = allGone r.ops out := by
  cases why with
  | other => rfl
  | cleaned gone =>
    obtain ⟨r', hgiven, hops⟩ := (Option.any_eq_true _ _).mp hcurrent
    change (s.given p).all (fun r => decide (gone = allGone r.ops out)) = true at hreports
    rw [hgiven] at hreports
    have hsaid : gone = allGone r'.ops out := of_decide_eq_true hreports
    rw [← of_decide_eq_true hops]
    exact hsaid

theorem backoff_isSome {offs : List ℕ} (h : offs ≠ []) (n : ℕ) : backoff offs n ≠ none := by
  have hpos : 0 < offs.length := List.length_pos_of_ne_nil h
  unfold backoff
  obtain ⟨k, hk⟩ := Nat.exists_eq_succ_of_ne_zero (by omega : min (n + 1) offs.length ≠ 0)
  rw [hk]
  change offs[k]? ≠ none
  have hlt : k < offs.length := by omega
  rw [List.getElem?_eq_getElem hlt]
  simp

end State

namespace Account

variable {offs : List ℕ} {a a' : Account} {kept : Kept} {id : RequestId} {r : Req} {ref : Ref}
  {p : Pid} {why : State.Why} {out : Outside}

theorem Sound.attempted (ha : a.Sound) (hkept : kept.Settled)
    (hminted : kept.minted = a.kept.minted)
    (hreaper : kept.reaper = a.kept.reaper.down ref why out)
    (hended : a.kept.reaper.ended ref = some (p, id, r))
    (hreports : a.kept.reaper.reports p why out = true)
    (hcounts : a.counts offs (.down ref why out) = true) :
    Sound (a.attempted offs kept id r why out) := by
  obtain ⟨hwhat, hjob, hr⟩ := State.ended_some ha.settled.sure hended
  change (a.kept.reaper.ended ref).all (fun e => a.kept.reaper.current e.1 e.2.2 why &&
    if State.allGone e.2.2.ops out then e.2.2.attempts < a.retries
    else a.retries ≤ e.2.2.attempts || offs ≠ []) = true at hcounts
  rw [hended, Option.all_some, Bool.and_eq_true] at hcounts
  obtain ⟨hcurrent, hcounts⟩ := hcounts
  have hsucceeded := State.jobSucceeded_eq hreports hcurrent
  have hretried : a.retried offs kept r why out = kept := by
    unfold Account.retried
    apply if_neg
    rintro ⟨hlt, hfailed, hnone⟩
    rw [hsucceeded] at hfailed
    dsimp only at hcounts
    rw [hfailed, if_neg Bool.false_ne_true, Bool.or_eq_true, decide_eq_true_eq,
      decide_eq_true_eq] at hcounts
    obtain hle | hne := hcounts
    · exact Nat.not_lt.mpr hle hlt
    · exact State.backoff_isSome hne r.attempts hnone
  have hworking : 0 < a.kept.reaper.working id := by
    rw [State.working_eraseJob hjob a.kept.reaper.mons id, if_pos rfl]
    exact Nat.succ_pos _
  have honce : a.kept.reaper.queue.count id + a.kept.reaper.timers.count (.cleanup id) +
    a.kept.reaper.working id ≤ 1 := (ha.settled.placed id).once
  have hstage := (ha.settled.placed id).stage_of_working (r := r) hr hworking
  have hreq : (a.kept.reaper.row id).req = some (r.attempts, false) := by
    rw [State.row_req hr, hstage]
    rfl
  have harmed : (a.kept.reaper.row id).armed = 0 := by
    change a.kept.reaper.timers.count (.cleanup id) = 0
    omega
  have hrow : ∀ j, kept.reaper.row j = (State.jobFinished { a.kept.reaper with
      jobs := a.kept.reaper.jobs.erase p
      mons := State.unindex (some ref) a.kept.reaper.mons } id why out).row j := by
    intro j
    rw [hreaper]
    exact State.row_down ha.settled.placed hwhat hjob j
  obtain ⟨hends, hother⟩ := State.row_jobFinished (s := { a.kept.reaper with
    jobs := a.kept.reaper.jobs.erase p
    mons := State.unindex (some ref) a.kept.reaper.mons }) hr why out
  unfold Account.attempted
  rw [hretried]
  constructor
  · exact hkept
  · intro j
    dsimp only
    rw [hrow]
    by_cases hj : j = id
    · subst hj
      rw [if_pos rfl, if_pos rfl]
      rw [hsucceeded] at hends
      apply (ha.rows j).ends hreq harmed _ hends
      intro hgone
      dsimp only at hcounts
      rw [hgone, if_pos rfl] at hcounts
      exact of_decide_eq_true hcounts
    · rw [if_neg hj, if_neg hj, hother j hj]
      exact ha.rows j
  · intro j hnew
    dsimp only at hnew ⊢
    rw [hminted] at hnew
    have hne : j ≠ id := by
      intro h
      subst h
      rw [ha.req_none hnew] at hreq
      cases hreq
    obtain ⟨hleft, hresting, hfresh⟩ := ha.new j hnew
    rw [if_neg hne, if_neg hne, hrow, hother j hne]
    exact ⟨hleft, hresting, hfresh⟩

theorem Sound.message (ha : a.Sound) {act : Act} (hcounted : Counted offs a act)
    (hmessage : a.kept.message act = some kept) (hstep : a.step offs act = some a')
    (hkept : kept.Settled) (hkstep : a.kept.step act = some kept) : a'.Sound := by
  have hguard := hcounted.1
  cases act with
  | reserve id guardian steward root relpath =>
    simp only [Account.step, hkstep, Option.some.injEq] at hstep
    simp only [Kept.message] at hmessage
    split at hmessage
    · cases hmessage
    · rename_i hnew
      cases hmessage
      subst hstep
      obtain hrows | hrows := State.reserve_rows a.kept.reaper id guardian steward root relpath
      · exact ha.steady hkept (Finset.subset_insert id _) (.of_eq hrows)
      · exact ha.reserve hkept hnew rfl hrows
  | journalFailed id =>
    simp only [Account.step, hkstep, Option.some.injEq] at hstep
    cases hmessage
    subst hstep
    exact ha.steady hkept (Finset.Subset.refl _) (State.steady_reservationFailed _ id)
  | call id op out =>
    simp only [Account.step, hkstep, Option.some.injEq] at hstep
    simp only [Kept.message] at hmessage
    split at hmessage
    · cases hmessage
    · rename_i hop
      cases hmessage
      subst hstep
      exact ha.steady hkept (Finset.Subset.refl _)
        (.of_eq (State.row_alters (State.alters_applyOperation hop a.kept.reaper id out)))
  | apply id caller operation op out =>
    simp only [Account.step, hkstep, Option.some.injEq] at hstep
    cases hmessage
    subst hstep
    apply ha.steady hkept (Finset.Subset.refl _)
    apply State.Steady.of_eq
    rcases State.apply_cases a.kept.reaper id caller operation op out with ⟨_, h⟩ | ⟨haccepts, h⟩
    · exact State.row_alters h
    · have hwaiting : a.kept.reaper.waiting id = true := by
        change (!a.kept.reaper.acceptsFinish id caller operation op ||
          a.kept.reaper.waiting id) = true at hguard
        rw [haccepts] at hguard
        exact hguard
      intro j
      rw [← State.row_opFinish ha.settled.placed hwaiting j]
      exact State.row_alters h j
  | finish id =>
    simp only [Account.step, hkstep, Option.some.injEq] at hstep
    cases hmessage
    subst hstep
    exact ha.steady hkept (Finset.Subset.refl _) (State.steady_finish _ id)
  | down ref why out =>
    simp only [Kept.message] at hmessage
    split at hmessage
    · split at hmessage
      · cases hmessage
        simp only [Account.step, hkstep] at hstep
        split at hstep
        · rename_i p id r hended
          split at hstep
          · rename_i hreports
            cases hstep
            exact ha.attempted hkept rfl rfl hended hreports hcounted.2
          · cases hstep
        · rename_i hended
          cases hstep
          exact ha.steady hkept (Finset.Subset.refl _)
            (State.steady_down ha.settled.sure ha.settled.placed hguard hended)
      · cases hmessage
    · cases hmessage
  | adoptReply id ledger nextSeq actions adapter =>
    simp only [Account.step, hkstep, Option.some.injEq] at hstep
    simp only [Kept.message] at hmessage
    split at hmessage
    · cases hmessage
      subst hstep
      exact ha.steady hkept (Finset.Subset.refl _)
        (.of_eq (State.row_adoptReply _ id ledger nextSeq actions adapter))
    · cases hmessage
  | handshakeReply id yes =>
    simp only [Account.step, hkstep, Option.some.injEq] at hstep
    cases hmessage
    subst hstep
    exact ha.steady hkept (Finset.Subset.refl _)
      (.of_eq (State.row_handshakeReply ha.settled.placed hguard yes))
  | fire t =>
    simp only [Kept.message] at hmessage
    split at hmessage
    · rename_i ht
      cases hmessage
      cases t with
      | cleanup id =>
        simp only [Account.step, hkstep, Option.some.injEq] at hstep
        subst hstep
        exact ha.fire hkept rfl ht (State.row_fireCleanup ha.settled.placed ht)
      | handshake id =>
        simp only [Account.step, hkstep, Option.some.injEq] at hstep
        subst hstep
        exact ha.steady hkept (Finset.Subset.refl _) (.of_eq (State.row_fireHandshake _ id))
    · cases hmessage
  | die p => cases hmessage
  | restart opts disk => cases hmessage

theorem sound_step (ha : a.Sound) {act : Act} (hcounted : Counted offs a act)
    (hstep : a.step offs act = some a') : a'.Sound := by
  obtain ⟨kept, hkstep⟩ : ∃ kept, a.kept.step act = some kept := by
    unfold Account.step at hstep
    cases h : a.kept.step act with
    | none =>
      rw [h] at hstep
      cases hstep
    | some kept => exact ⟨kept, rfl⟩
  have hkept := settled_step ha.settled hcounted.1 hkstep
  have hmessage : (if a.kept.reaper.crashed then none else a.kept.message act) = some kept →
      a'.Sound := by
    intro h
    split at h
    · cases h
    · exact ha.message hcounted h hstep hkept hkstep
  cases act with
  | die p =>
    simp only [Account.step, hkstep, Option.some.injEq] at hstep
    cases hkstep
    subst hstep
    exact ha.steady hkept (Finset.Subset.refl _) (.of_eq fun _ => rfl)
  | restart opts disk =>
    simp only [Account.step, hkstep, Option.some.injEq] at hstep
    cases hkstep
    subst hstep
    have hunused := State.unused_sweep (s := a.kept.reaper.fresh opts disk)
      (State.unused_empty rfl rfl rfl rfl) disk
    exact ⟨hkept, fun id => (hunused.fresh id).accounted,
      fun id _ => ⟨rfl, rfl, hunused.fresh id⟩⟩
  | _ => exact hmessage hkstep

theorem sound_init (incarnation : Name) : (init incarnation).Sound := by
  have hunused : (State.init incarnation).Unused := State.unused_empty rfl rfl rfl rfl
  exact ⟨settled_init incarnation, fun id => (hunused.fresh id).accounted,
    fun id _ => ⟨rfl, rfl, hunused.fresh id⟩⟩

/-! ## What the accounts say -/

theorem replicate_ne (n : ℕ) (before : List Bool) : List.replicate n true ≠ false :: before := by
  intro h
  have hmem : false ∈ List.replicate n true := h ▸ List.mem_cons_self
  cases List.eq_of_mem_replicate hmem

theorem replicate_ne_of_le {n m : ℕ} (h : n ≤ m) :
    List.replicate n true ≠ List.replicate (m + 1) true := by
  intro heq
  have hlen := congrArg List.length heq
  rw [List.length_replicate, List.length_replicate] at hlen
  omega

theorem quarantine_mem_iff (id : RequestId) : Effect.journal (.quarantine id) ∈
    a.kept.reaper.effects ↔ (a.kept.reaper.row id).quarantined = true :=
  decide_eq_true_iff.symm

theorem lookup_of_row (hreq : (a.kept.reaper.row id).req = none) :
    a.kept.reaper.reqs.lookup id = none := Option.map_eq_none_iff.mp hreq

/-- The row of a request that is there. -/
theorem row_of_lookup {n : ℕ} {b : Bool} (hr : a.kept.reaper.reqs.lookup id = some r)
    (hreq : (a.kept.reaper.row id).req = some (n, b)) :
    r.attempts = n ∧ decide (r.stage = .complete) = b := by
  rw [State.row_req hr] at hreq
  cases hreq
  exact ⟨rfl, rfl⟩

theorem Sound.quarantined_iff (ha : a.Sound) (id : RequestId) :
    Effect.journal (.quarantine id) ∈ a.kept.reaper.effects ↔
      a.left id = List.replicate (a.retries + 1) true := by
  rw [quarantine_mem_iff]
  have hne : ∀ {n}, n ≤ a.retries → (a.kept.reaper.row id).quarantined = false →
      a.left id = List.replicate n true → ((a.kept.reaper.row id).quarantined = true ↔
        a.left id = List.replicate (a.retries + 1) true) := by
    intro n hn hq hleft
    rw [hq, hleft]
    exact ⟨fun h => absurd h Bool.false_ne_true, fun h => absurd h (replicate_ne_of_le hn)⟩
  have hover : ∀ {n}, (a.kept.reaper.row id).quarantined = false →
      a.left id = false :: List.replicate n true → ((a.kept.reaper.row id).quarantined = true ↔
        a.left id = List.replicate (a.retries + 1) true) := by
    intro n hq hleft
    rw [hq, hleft]
    exact ⟨fun h => absurd h Bool.false_ne_true, fun h => absurd h.symm (replicate_ne _ _)⟩
  cases ha.rows id with
  | going n _ hn hleft hq _ _ | gone n _ hn hleft hq => exact hne hn hq hleft
  | complete _ n _ _ hleft hq _ _ | removed n _ _ hleft hq _ => exact hover hq hleft
  | quarantined _ hleft hq _ => exact ⟨fun _ => hleft, fun _ => hq⟩

theorem Sound.done (ha : a.Sound) {before : List Bool} (hleft : a.left id = false :: before) :
    a.Done id := by
  unfold Done
  cases ha.rows id with
  | going n _ _ hleft' _ _ _ | gone n _ _ hleft' _ | quarantined _ hleft' _ _ =>
    exact absurd (hleft' ▸ hleft) (replicate_ne _ _)
  | complete m n hreq _ _ _ _ _ =>
    cases hr : a.kept.reaper.reqs.lookup id with
    | none =>
      rw [State.row_req_none hr] at hreq
      cases hreq
    | some r => exact of_decide_eq_true (row_of_lookup hr hreq).2
  | removed n hreq _ _ _ hdeleted =>
    rw [lookup_of_row hreq]
    exact of_decide_eq_true hdeleted

theorem Sound.counted (ha : a.Sound) (hr : a.kept.reaper.reqs.lookup id = some r)
    (hstage : r.stage ≠ .complete) :
    a.left id = List.replicate r.attempts true ∧ r.attempts ≤ a.retries := by
  have hnone : (a.kept.reaper.row id).req ≠ none := by
    rw [State.row_req hr]
    simp
  cases ha.rows id with
  | going n hreq hn hleft _ _ _ =>
    rw [(row_of_lookup hr hreq).1]
    exact ⟨hleft, hn⟩
  | complete m n hreq _ _ _ _ _ =>
    exact absurd (of_decide_eq_true (row_of_lookup hr hreq).2) hstage
  | gone n hreq _ _ _ | removed n hreq _ _ _ _ | quarantined hreq _ _ _ => exact absurd hreq hnone

theorem Sound.complete (ha : a.Sound) (hr : a.kept.reaper.reqs.lookup id = some r)
    (hstage : r.stage = .complete) : ∃ before, a.left id = false :: before := by
  have hnone : (a.kept.reaper.row id).req ≠ none := by
    rw [State.row_req hr]
    simp
  cases ha.rows id with
  | going n hreq _ _ _ _ _ => exact absurd hstage (of_decide_eq_false (row_of_lookup hr hreq).2)
  | complete m n hreq _ hleft _ _ _ => exact ⟨_, hleft⟩
  | gone n hreq _ _ _ | removed n hreq _ _ _ _ | quarantined hreq _ _ _ => exact absurd hreq hnone

theorem Sound.resting (ha : a.Sound) (hr : a.kept.reaper.reqs.lookup id = some r) :
    a.kept.reaper.timers.count (.cleanup id) = if a.resting id then 1 else 0 := by
  have hnone : (a.kept.reaper.row id).req ≠ none := by
    rw [State.row_req hr]
    simp
  cases ha.rows id with
  | going n _ _ _ _ _ harmed => exact harmed
  | complete m n _ _ _ _ harmed hresting =>
    rw [hresting]
    exact harmed
  | gone n hreq _ _ _ | removed n hreq _ _ _ _ | quarantined hreq _ _ _ => exact absurd hreq hnone

theorem Sound.exact (ha : a.Sound) (id : RequestId) : a.Exact id where
  attempts := by
    cases ha.rows id with
    | going n _ hn hleft _ _ _ | gone n _ hn hleft _ => exact .inl ⟨n, Nat.le_succ_of_le hn, hleft⟩
    | complete _ n _ hn hleft _ _ _ | removed n _ hn hleft _ _ => exact .inr ⟨n, hn, hleft⟩
    | quarantined _ hleft _ _ => exact .inl ⟨a.retries + 1, Nat.le_refl _, hleft⟩
  done _ hleft := ha.done hleft
  quarantined := ha.quarantined_iff id
  kept h := by
    have hq := (quarantine_mem_iff id).mp h
    cases ha.rows id with
    | quarantined hreq _ _ hdeleted =>
      exact ⟨h, of_decide_eq_false hdeleted, lookup_of_row hreq⟩
    | going _ _ _ _ hq' _ _ | gone _ _ _ _ hq' | complete _ _ _ _ _ hq' _ _
    | removed _ _ _ _ hq' _ =>
      rw [hq'] at hq
      cases hq
  counted _ hr hstage := ha.counted hr hstage
  complete _ hr hstage := ha.complete hr hstage
  resting _ hr := ha.resting hr
  idle r hr hresting := by
    have hcount := ha.resting hr
    rw [hresting, if_pos rfl] at hcount
    have honce : a.kept.reaper.queue.count id + a.kept.reaper.timers.count (.cleanup id) +
      a.kept.reaper.working id ≤ 1 := (ha.settled.placed id).once
    have hpos : 0 < a.kept.reaper.queue.count id + a.kept.reaper.timers.count (.cleanup id) := by
      omega
    exact ⟨(ha.settled.placed id).stage_of_queued hr hpos, by omega, by omega⟩

/-- In a run in which the last job that is allowed leaves something, every retry finds a backoff,
and nothing is sent to cleanup that is in cleanup. -/
theorem exact_of_counted {incarnation : Name}
    (h : Run.ReachableIf (step offs) (Counted offs) (init incarnation) a) (id : RequestId) :
    a.Exact id := by
  have hsound : a.Sound := by
    refine h.invariant Sound (sound_init incarnation) ?_
    intro a act a' ha hcounted hstep
    exact sound_step ha hcounted hstep
  exact hsound.exact id

/-- The directory is there. -/
def busy : Outside := ⟨true, fun _ => true, fun _ => true⟩

/-- The first job fails, and the second finds nothing any more. -/
def retriedRun : List Act :=
  [.restart small (diskOf "<0.1.0> -"),
    .reserve "y".toList (.proc 0 2 0) (.proc 0 3 0) "r".toList "req-y".toList,
    .apply "y".toList (.proc 0 3 0) ("y".toList, 1) .finish quiet, .die (.job 0),
    .down 3 (.cleaned false) busy, .fire (.cleanup "y".toList), .die (.job 1),
    .down 4 .other quiet]

theorem exact_of_retriedRun : ∃ a, Run.ReachableIf (step [1000]) (Counted [1000])
    (init "a".toList) a ∧ a.left "y".toList = [false, true] ∧ a.Exact "y".toList := by
  have hrun : (Run.execIf (step [1000]) (Counted [1000]) retriedRun (init "a".toList)).any
      (fun a => a.left "y".toList = [false, true]) = true := by
    decide +kernel
  obtain ⟨a, hexec, ha⟩ := (Option.any_eq_true _ _).mp hrun
  have hreach := Run.ReachableIf.of_execIf .init hexec
  exact ⟨a, hreach, of_decide_eq_true ha, exact_of_counted hreach _⟩

/-- One attempt is allowed, and it leaves nothing. -/
def onceRun : List Act :=
  [.restart { small with cleanupRetries := 0 } (diskOf "<0.1.0> -"),
    .reserve "y".toList (.proc 0 2 0) (.proc 0 3 0) "r".toList "req-y".toList,
    .apply "y".toList (.proc 0 3 0) ("y".toList, 1) .finish quiet, .die (.job 0),
    .down 3 (.cleaned true) quiet]

theorem not_exact_of_onceRun : ¬ ∀ offs a, Run.Reachable (step offs) (init "a".toList) a →
    ∀ id, a.Exact id := by
  intro hall
  have hrun : (Run.exec (step [1000]) onceRun (init "a".toList)).any
      (fun a => decide (a.left "y".toList = [false]) &&
        decide (Effect.journal (.quarantine "y".toList) ∈ a.kept.reaper.effects)) = true := by
    decide +kernel
  obtain ⟨a, hexec, ha⟩ := (Option.any_eq_true _ _).mp hrun
  rw [Bool.and_eq_true] at ha
  have hexact := hall [1000] a (Run.Reachable.of_exec .init hexec) "y".toList
  have hleft := hexact.quarantined.mp (of_decide_eq_true ha.2)
  rw [of_decide_eq_true ha.1] at hleft
  exact replicate_ne _ _ hleft.symm

end Account

end ErlangWasm.Reaper
