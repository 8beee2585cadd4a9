import ErlangWasm.Wait.Naming

/-!
# No parked agent is stranded

An agent parked in `wait/4` can be found by the next notifier, or has its wakeup, or is in the
hands of a living notifier.  From such a state one `notify/3`, run alone, reaches every agent on
its address.

A notifier killed inside its window breaks this: the name it leaves behind makes every later
notifier skip the agent, and an agent without a timeout sleeps for ever.
-/

namespace ErlangWasm.Wait

open Reasoning

variable {P : Type}

/-- Inside `park/3` or `lost_the_race/1`. -/
def Stage.parked : Stage P → Bool
  | .receive | .claimOwn | .claimer | .receiveWoken | .monitor _ | .receiveDown _ => true
  | _ => false

/-- A living agent parked with the row `e`. -/
def State.Parked (s : State P) (e : Entry P) : Prop :=
  s.alive e.pid = true ∧
    ∃ timeout at', s.pc e.pid = .wait e timeout at' ∧ at'.parked = true

theorem State.Parked.waiting {s : State P} {e : Entry P} (h : s.Parked e) : s.Waiting e := by
  obtain ⟨halive, timeout, at', hpc, hparked⟩ := h
  refine ⟨halive, ?_⟩
  rw [hpc]
  cases at' <;> simp_all [Stage.parked, Pc.waits, Stage.waits]

variable [DecidableEq P]

/-- A living notifier that holds the agent's name and stands before the send. -/
def State.WillSend (s : State P) (q : P) (e : Entry P) : Prop :=
  s.alive q = true ∧ s.claimed.lookup e.ref = some q ∧ (s.pc q).offers = some (e, .send)

/-- Where a parked agent is to be found. -/
def State.Found (s : State P) (e : Entry P) : Prop :=
  (e ∈ s.rows ∧ ∀ q, s.claimed.lookup e.ref = some q → s.alive q = true) ∨
    .wasmNotify e.ref ∈ s.mail e.pid ∨ ∃ q, s.WillSend q e

theorem Orderly.found {s : State P} (hi : Orderly s) {e : Entry P} (he : s.Parked e) :
    s.Found e := by
  by_cases hrow : e ∈ s.rows
  · refine .inl ⟨hrow, fun q hq => ?_⟩
    obtain ⟨o, ho⟩ := hi.naming e q he.waiting hq
    -- past the claim the row would be gone
    have hclaim : o = .claim := by
      by_contra hne
      exact hi.offering q e o ho hne hrow
    exact hi.living q e o ho (.inl hclaim)
  · refine .inr ((hi.coming e he.waiting hrow).imp_right ?_)
    rintro ⟨q, hq⟩
    exact ⟨q, hi.living q e _ hq (.inr rfl), hi.named e q _ he.waiting hq, hq⟩

/-! ## A notifier running alone -/

/-- `p` takes step after step and nobody else does. -/
def Alone (p : P) (s s' : State P) : Prop :=
  ∃ k, Run.exec step (List.replicate k (.go p)) s = some s'

theorem Alone.refl (p : P) (s : State P) : Alone p s s :=
  ⟨0, rfl⟩

theorem Alone.head {p : P} {s t s' : State P} (h : step s (.go p) = some t)
    (hrest : Alone p t s') : Alone p s s' := by
  obtain ⟨k, hk⟩ := hrest
  refine ⟨k + 1, ?_⟩
  rw [List.replicate_succ, Run.exec, h]
  exact hk

theorem Alone.trans {p : P} {s t s' : State P} (h : Alone p s t) (h' : Alone p t s') :
    Alone p s s' := by
  obtain ⟨i, hi⟩ := h
  obtain ⟨j, hj⟩ := h'
  refine ⟨i + j, ?_⟩
  rw [List.replicate_add, Run.exec_append, hi]
  exact hj

theorem State.goto_self (s : State P) (p : P) (c : Pc P) : (s.goto p c).pc p = c := by
  rw [State.goto_pc, if_pos rfl]

theorem step_notify {s : State P} {p : P} {call : Call} {at' : Round P} (hp : s.alive p = true)
    (hpc : s.pc p = .notify call at') : step s (.go p) = some (s.notifyStep p call at') := by
  simp [step, State.act, Act.pid, hp, hpc]

/-- What `live/1` leaves alone: it takes away rows of the dead only. -/
structure Swept (s s' : State P) : Prop where
  alive : s'.alive = s.alive
  claimed : s'.claimed = s.claimed
  mail : s'.mail = s.mail
  nodup : s.rows.Nodup → s'.rows.Nodup
  kept : ∀ e ∈ s.rows, s.alive e.pid = true → e ∈ s'.rows

omit [DecidableEq P] in
theorem Swept.trans {s t s' : State P} (h : Swept s t) (h' : Swept t s') : Swept s s' where
  alive := h'.alive.trans h.alive
  claimed := h'.claimed.trans h.claimed
  mail := h'.mail.trans h.mail
  nodup hs := h'.nodup (h.nodup hs)
  kept e he halive := h'.kept e (h.kept e he halive) (h.alive ▸ halive)

theorem swept_goto (s : State P) (p : P) (c : Pc P) : Swept s (s.goto p c) :=
  ⟨rfl, rfl, rfl, id, fun _ he _ => he⟩

theorem swept_deleteDead {s : State P} {e : Entry P} (hdead : s.alive e.pid = false) (p : P)
    (c : Pc P) : Swept s ((s.deleteObject e).goto p c) where
  alive := rfl
  claimed := rfl
  mail := rfl
  nodup hs := hs.erase e
  kept x hx halive := by
    refine (List.mem_erase_of_ne ?_).mpr hx
    rintro rfl
    simp [hdead] at halive

/-- `live/1` to its end: the dead are dropped, the living are kept in order. -/
theorem live_alone {s : State P} {p : P} {call : Call} {todo kept : List (Entry P)}
    (hp : s.alive p = true) (hpc : s.pc p = .notify call (.live todo kept)) :
    ∃ s', Alone p s s' ∧ Swept s s' ∧
      s'.pc p = .notify call
        (.wake (kept ++ todo.filter fun e => s.alive e.pid) call.count 0) := by
  induction todo generalizing s kept with
  | nil =>
    refine ⟨_, .head (step_notify hp hpc) (.refl p _), swept_goto s p _, ?_⟩
    simp [State.notifyStep]
  | cons e todo ih =>
    have hstep := step_notify hp hpc
    cases he : s.alive e.pid with
    | true =>
      rw [State.notifyStep, if_pos he] at hstep
      obtain ⟨s', halone, hswept, hpc'⟩ := ih (s := s.goto p _) hp (State.goto_self s p _)
      refine ⟨s', .head hstep halone, (swept_goto s p _).trans hswept, ?_⟩
      rw [hpc']
      simp [he]
    | false =>
      rw [State.notifyStep, if_neg (by simp [he])] at hstep
      set t := s.goto p (.notify call (.deleteDead e todo kept)) with ht
      have htpc : t.pc p = .notify call (.deleteDead e todo kept) := by simp [ht]
      have hsweep : Swept s ((t.deleteObject e).goto p (.notify call (.live todo kept))) :=
        (swept_goto s p _).trans (swept_deleteDead (show t.alive e.pid = false from he) p _)
      obtain ⟨s', halone, hswept, hpc'⟩ := ih (s := (t.deleteObject e).goto p _) hp
        (State.goto_self _ p _)
      refine ⟨s', .head hstep (.head (step_notify hp htpc) halone), hsweep.trans hswept, ?_⟩
      rw [hpc']
      simp [he, ht, State.deleteObject]

/-- `wake/3` to its end, its waiters living and their rows in the table: every one of them whose
name is free has its wakeup. -/
theorem wake_alone {s : State P} {p : P} {call : Call} {waiters : List (Entry P)} {left n : ℕ}
    (hp : s.alive p = true) (hpc : s.pc p = .notify call (.wake waiters left n))
    (hnodup : s.rows.Nodup) (hdistinct : waiters.Nodup) (hrows : ∀ e ∈ waiters, e ∈ s.rows)
    (hlive : ∀ e ∈ waiters, s.alive e.pid = true) (hleft : waiters.length ≤ left) :
    ∃ s', Alone p s s' ∧ s'.pc p = .idle ∧ (∀ q m, m ∈ s.mail q → m ∈ s'.mail q) ∧
      ∀ e ∈ waiters, s.claimed.lookup e.ref = none → .wasmNotify e.ref ∈ s'.mail e.pid := by
  induction waiters generalizing s left n with
  | nil =>
    have hstep : step s (.go p) = some (s.report p call n) := by
      rw [step_notify hp hpc]
      cases left <;> rfl
    exact ⟨_, .head hstep (.refl p _), State.goto_self _ _ _, fun _ _ hm => hm, by simp⟩
  | cons e rest ih =>
    obtain ⟨left, rfl⟩ : ∃ k, left = k + 1 := ⟨left - 1, by simp at hleft; omega⟩
    have hstep := step_notify hp hpc
    have hrest : rest.length ≤ left := by simpa using hleft
    have hnotin : e ∉ rest := (List.nodup_cons.mp hdistinct).1
    simp only [State.notifyStep] at hstep
    cases hname : s.claimed.lookup e.ref with
    | some q =>
      -- somebody else has it
      simp only [hname] at hstep
      obtain ⟨s', halone, hidle, hmail, hwoken⟩ := ih (s := s.goto p _) hp (State.goto_self s p _)
        hnodup
        (List.nodup_cons.mp hdistinct).2 (fun x hx => hrows x (List.mem_cons_of_mem e hx))
        (fun x hx => hlive x (List.mem_cons_of_mem e hx)) (Nat.le_succ_of_le hrest)
      refine ⟨s', .head hstep halone, hidle, hmail, fun x hx hfree => ?_⟩
      rcases List.mem_cons.mp hx with rfl | hx
      · simp [hname] at hfree
      · exact hwoken x hx hfree
    | none =>
      simp only [hname] at hstep
      -- the four steps of one wakeup
      set s₁ := ({ s with claimed := s.claimed.insert e.ref p } : State P).goto p
        (.notify call (.offer e .claim rest (left + 1) n)) with hs₁
      have hrow : e ∈ s₁.rows := hrows e List.mem_cons_self
      have hclaim := step_notify (s := s₁) hp (State.goto_self _ p _)
      simp only [State.notifyStep, if_pos hrow] at hclaim
      set s₂ := ({ s₁.deleteObject e with wakes := (call.id, e.ref) :: s₁.wakes } : State P).goto p
        (.notify call (.offer e .send rest (left + 1) n)) with hs₂
      have hsend := step_notify (s := s₂) hp (State.goto_self _ p _)
      simp only [State.notifyStep] at hsend
      set s₃ := (s₂.send e.pid (.wasmNotify e.ref)).goto p
        (.notify call (.offer e (.unname true) rest (left + 1) n)) with hs₃
      have halive₃ : s₃.alive = s.alive := by simp [hs₃, hs₂, hs₁, State.deleteObject]
      have hunname := step_notify (s := s₃) (by rw [halive₃]; exact hp) (State.goto_self _ p _)
      simp only [State.notifyStep, if_true] at hunname
      set s₄ := (s₃.deleteClaimed e.ref).goto p (.notify call (.wake rest left (n + 1))) with hs₄
      have halive₄ : s₄.alive = s.alive := halive₃
      have hrows₄ : s₄.rows = s.rows.erase e := by
        simp [hs₄, hs₃, hs₂, hs₁, State.deleteObject, State.deleteClaimed]
      have hclaimed₄ : ∀ ref, s₄.claimed.lookup ref = s.claimed.lookup ref := by
        intro ref
        have h : s₄.claimed = (s.claimed.insert e.ref p).erase e.ref := by
          simp [hs₄, hs₃, hs₂, hs₁, State.deleteObject, State.deleteClaimed]
        rw [h, Table.lookup_erase_eq, Table.lookup_insert_eq]
        split
        · rename_i href
          rw [href, hname]
        · rfl
      have hmail₄ : s₄.mail =
          Function.update s.mail e.pid (s.mail e.pid ++ [.wasmNotify e.ref]) := by
        have halive : s₂.alive e.pid = true := hlive e List.mem_cons_self
        simp [hs₄, hs₃, State.deleteClaimed, State.send, halive]
        simp [hs₂, hs₁, State.deleteObject]
      obtain ⟨s', halone, hidle, hmail, hwoken⟩ := ih (s := s₄) (by rw [halive₄]; exact hp)
        (State.goto_self _ p _) (by rw [hrows₄]; exact hnodup.erase e)
        (List.nodup_cons.mp hdistinct).2
        (fun x hx => by
          rw [hrows₄, hnodup.mem_erase_iff]
          exact ⟨fun h => hnotin (h ▸ hx), hrows x (List.mem_cons_of_mem e hx)⟩)
        (fun x hx => by rw [halive₄]; exact hlive x (List.mem_cons_of_mem e hx)) hrest
      refine ⟨s', .head hstep (.head hclaim (.head hsend (.head hunname halone))), hidle,
        fun q m hm => hmail q m ?_, fun x hx hfree => ?_⟩
      · rw [hmail₄, Function.update_apply]
        split
        · rename_i hq
          exact List.mem_append_left _ (hq ▸ hm)
        · exact hm
      · rcases List.mem_cons.mp hx with rfl | hx
        · apply hmail
          rw [hmail₄, Function.update_self]
          simp
        · exact hwoken x hx (by rw [hclaimed₄]; exact hfree)

/-- The living agents registered on an address. -/
def State.agents (s : State P) (key : Key) : List (Entry P) :=
  (s.rows.filter (·.key = key)).filter fun e => s.alive e.pid

/-- `notify/3`, called by `p` and run to completion with nobody else taking a step. -/
def NotifyAlone (s : State P) (p : P) (key : Key) (count : ℕ) (s' : State P) : Prop :=
  ∃ t, step s (.notify p key count) = some t ∧ Alone p t s' ∧ s'.pc p = .idle

omit [DecidableEq P] in
theorem mem_agents {s : State P} {key : Key} {e : Entry P} :
    e ∈ s.agents key ↔ (e ∈ s.rows ∧ e.key = key) ∧ s.alive e.pid = true := by
  simp only [State.agents, List.mem_filter, decide_eq_true_eq]

theorem notify_alone {s : State P} (hnodup : s.rows.Nodup) {p : P} (hp : s.alive p = true)
    (hpc : s.pc p = .idle) (key : Key) {count : ℕ} (hcount : (s.agents key).length ≤ count) :
    ∃ s', NotifyAlone s p key count s' ∧ (∀ q m, m ∈ s.mail q → m ∈ s'.mail q) ∧
      ∀ e ∈ s.agents key, s.claimed.lookup e.ref = none →
        .wasmNotify e.ref ∈ s'.mail e.pid := by
  have hbegin : step s (.notify p key count) = some (s.beginNotify p key count) := by
    simp [step, State.act, Act.pid, hp, hpc]
  set t := s.beginNotify p key count
  have hlookup := step_notify (s := t) hp (State.goto_self _ p _)
  obtain ⟨u, hlive, hswept, hupc⟩ :=
    live_alone (s := t.goto p (.notify ⟨s.nextRef, key, count⟩
      (.live (s.rows.filter (·.key = key)) []))) hp (State.goto_self _ p _)
  -- what is left to wake is exactly the living agents on the address
  change u.pc p = .notify _ (.wake (s.agents key) count 0) at hupc
  have hrows : ∀ e ∈ s.agents key, e ∈ u.rows := by
    intro e he
    have hmem := mem_agents.mp he
    exact hswept.kept e hmem.1.1 hmem.2
  have halive : ∀ e ∈ s.agents key, u.alive e.pid = true := by
    intro e he
    rw [hswept.alive]
    exact (mem_agents.mp he).2
  obtain ⟨s', hwake, hidle, hmail, hwoken⟩ := wake_alone (by rw [hswept.alive]; exact hp) hupc
    (hswept.nodup hnodup) ((hnodup.filter _).filter _) hrows halive hcount
  refine ⟨s', ⟨t, hbegin, .head hlookup (hlive.trans hwake), hidle⟩, fun q m hm => ?_,
    fun e he hfree => ?_⟩
  · apply hmail
    rw [hswept.mail]
    exact hm
  · apply hwoken e he
    rw [hswept.claimed]
    exact hfree

/-! ## The claim and its failure -/

/-- Parked agents can be found, and one `notify/3` alone finds them: it wakes each of those on its
address that no living notifier is about to. -/
structure State.NotStranded (s : State P) : Prop where
  found : ∀ e, s.Parked e → s.Found e
  woken : ∀ p key count, s.alive p = true → s.pc p = .idle → (s.agents key).length ≤ count →
    ∃ s', NotifyAlone s p key count s' ∧ ∀ e, s.Parked e → e.key = key →
      .wasmNotify e.ref ∈ s'.mail e.pid ∨
        ∃ q, s.alive q = true ∧ s.claimed.lookup e.ref = some q ∧
          ∃ o, (s.pc q).offers = some (e, o) ∧ (o = .claim ∨ o = .send)

local instance strandedProcesses : NeZero 3 := ⟨by decide⟩

/-- Process 0 parks for good; process 1 wakes it and is killed before it takes its name away. -/
def wokenThenKilled : List (Act (Fin 3)) :=
  [.wait 0 ⟨0, 0⟩ (-1), .go 0, .read 0 true, .notify 1 ⟨0, 0⟩ 1, .go 1, .go 1, .go 1, .go 1,
    .go 1, .go 1, .kill 1]

/-- Process 0 parks for good; process 1 names it and is killed there. -/
def killedNotifier : List (Act (Fin 3)) :=
  [.wait 0 ⟨0, 0⟩ (-1), .go 0, .read 0 true,
    .notify 1 ⟨0, 0⟩ 1, .go 1, .go 1, .go 1, .go 1, .kill 1]

end ErlangWasm.Wait
