import ErlangWasm.Reasoning.Counting
import ErlangWasm.Wait.Wakeups

/-!
# Every wakeup is counted once

What a `notify/3` answers is the number of waits it claimed, and a wait answers `0` exactly when
one notifier claimed it.  So the numbers add up, and nothing is left in a mailbox.

The sum holds as long as no wait finds another value while a notifier has it: `wait/4` answers `1`
there without asking whether its row is gone, which `park/3` does before it answers `2`.
-/

namespace ErlangWasm.Wait

open Reasoning

variable {P : Type}

/-- The waits the call `id` claimed. -/
def State.wakesBy (s : State P) (id : ℕ) : ℕ :=
  s.wakes.countP (·.1 = id)

/-- The claims a call has made, standing where it stands. -/
def Round.counted : Round P → ℕ
  | .wake _ _ n => n
  | .offer _ .claim _ _ n => n
  | .offer _ .send _ _ n => n + 1
  | .offer _ (.unname won) _ _ n => if won then n + 1 else n
  | _ => 0

/-- What is left of `Count`. -/
def Round.Within (count : ℕ) : Round P → Prop
  | .wake _ left n => n + left = count
  | .offer _ _ _ left n => n + left = count ∧ 0 < left
  | _ => True

/-- The numbers the calls keep are the claims they made. -/
structure Tallied (s : State P) : Prop where
  running : ∀ p call at', s.pc p = .notify call at' →
    s.wakesBy call.id = at'.counted ∧ at'.Within call.count ∧ call.id < s.nextRef ∧
      ∀ r ∈ s.reports, r.1.id ≠ call.id
  apart : ∀ p q call call' at' at'', s.pc p = .notify call at' → s.pc q = .notify call' at'' →
    call.id = call'.id → p = q
  reported : ∀ r ∈ s.reports, s.wakesBy r.1.id = r.2 ∧ r.2 ≤ r.1.count ∧ r.1.id < s.nextRef
  distinct : (s.reports.map (·.1.id)).Nodup
  owned : ∀ w ∈ s.wakes, w.1 < s.nextRef ∧ (∃ e ∈ s.issued, e.ref = w.2) ∧
    ((∃ r ∈ s.reports, r.1.id = w.1) ∨ ∃ p call at', s.pc p = .notify call at' ∧ call.id = w.1)

theorem tallied_init : Tallied (State.init : State P) := by
  constructor <;> simp [State.init]

variable [DecidableEq P] {s s' : State P}

/-- A step of somebody who is not notifying, or of a notifier that claims nothing. -/
theorem tallied_quiet (ht : Tallied s) {p : P} {c : Pc P}
    (hpc' : ∀ q, s'.pc q = if q = p then c else s.pc q)
    (hsame : (∀ call at', s.pc p ≠ .notify call at') ∧ (∀ call at', c ≠ .notify call at') ∨
      ∃ call at₀ at₁, s.pc p = .notify call at₀ ∧ c = .notify call at₁ ∧
        at₁.counted = at₀.counted ∧ (at₀.Within call.count → at₁.Within call.count))
    (hwakes : s'.wakes = s.wakes) (hreports : s'.reports = s.reports)
    (hissued : ∀ e ∈ s.issued, e ∈ s'.issued) (hnext : s.nextRef ≤ s'.nextRef) : Tallied s' := by
  have hby : ∀ id, s'.wakesBy id = s.wakesBy id := by
    intro id
    rw [State.wakesBy, hwakes]
    rfl
  -- whoever is notifying afterwards was notifying under the same call
  have hback : ∀ q call at', s'.pc q = .notify call at' → ∃ at₀, s.pc q = .notify call at₀ ∧
      at'.counted = at₀.counted ∧ (at₀.Within call.count → at'.Within call.count) := by
    intro q call at' h
    rw [hpc'] at h
    split at h
    · rename_i hq
      rcases hsame with ⟨-, hc⟩ | ⟨call', at₀, at₁, h₀, hc, hcount, hwithin⟩
      · exact absurd h (hc call at')
      · rw [hc, Pc.notify.injEq] at h
        obtain ⟨rfl, rfl⟩ := h
        exact ⟨at₀, hq ▸ h₀, hcount, hwithin⟩
    · exact ⟨at', h, rfl, id⟩
  have hforth : ∀ q call at', s.pc q = .notify call at' → ∃ at₁, s'.pc q = .notify call at₁ := by
    intro q call at' h
    rw [hpc']
    split
    · rename_i hq
      rw [hq] at h
      rcases hsame with ⟨h₀, -⟩ | ⟨call', at₀, at₁, h₀, hc, -, -⟩
      · exact absurd h (h₀ call at')
      · rw [h, Pc.notify.injEq] at h₀
        exact ⟨at₁, by rw [hc, h₀.1]⟩
    · exact ⟨at', h⟩
  refine ⟨fun q call at' h => ?_, fun q r call call' at' at'' hq hr hid => ?_, fun r hr => ?_,
    hreports ▸ ht.distinct, fun w hw => ?_⟩
  · obtain ⟨at₀, h₀, hcount, hwithin⟩ := hback q call at' h
    obtain ⟨hby₀, hwithin₀, hlt, hnew⟩ := ht.running q call at₀ h₀
    refine ⟨?_, hwithin hwithin₀, Nat.lt_of_lt_of_le hlt hnext, hreports ▸ hnew⟩
    rw [hby, hcount, hby₀]
  · obtain ⟨at₀, hq₀, -⟩ := hback q call at' hq
    obtain ⟨at₁, hr₀, -⟩ := hback r call' at'' hr
    exact ht.apart q r call call' at₀ at₁ hq₀ hr₀ hid
  · obtain ⟨hby₀, hle, hlt⟩ := ht.reported r (hreports ▸ hr)
    exact ⟨(hby _).trans hby₀, hle, Nat.lt_of_lt_of_le hlt hnext⟩
  · obtain ⟨hlt, ⟨e, he, href⟩, howner⟩ := ht.owned w (hwakes ▸ hw)
    refine ⟨Nat.lt_of_lt_of_le hlt hnext, ⟨e, hissued e he, href⟩, ?_⟩
    rw [hreports]
    apply howner.imp_right
    rintro ⟨q, call, at', h, hid⟩
    obtain ⟨at₁, h₁⟩ := hforth q call at' h
    exact ⟨q, call, at₁, h₁, hid⟩

/-- A call begun, under a number nobody has used. -/
theorem tallied_beginNotify (ht : Tallied s) {p : P} (hpc : s.pc p = .idle) (key : Key)
    (count : ℕ) : Tallied (s.beginNotify p key count) := by
  have hpc' : ∀ q, (s.beginNotify p key count).pc q =
      if q = p then .notify ⟨s.nextRef, key, count⟩ .lookup else s.pc q :=
    (State.goto_pc _ p · _)
  have hlt : ∀ q call at', s.pc q = .notify call at' → call.id < s.nextRef :=
    fun q call at' h => (ht.running q call at' h).2.2.1
  refine ⟨fun q call at' h => ?_, fun q r call call' at' at'' hq hr hid => ?_, fun r hr => ?_,
    ht.distinct, fun w hw => ?_⟩
  · rw [hpc'] at h
    split at h
    · cases h
      refine ⟨?_, trivial, Nat.lt_succ_self _, fun r hr => (ht.reported r hr).2.2.ne⟩
      show s.wakesBy s.nextRef = 0
      rw [State.wakesBy, List.countP_eq_zero]
      intro w hw
      simpa using (ht.owned w hw).1.ne
    · obtain ⟨hby, hwithin, hid, hnew⟩ := ht.running q call at' h
      exact ⟨hby, hwithin, Nat.lt_succ_of_lt hid, hnew⟩
  · rw [hpc'] at hq hr
    split at hq <;> split at hr
    · rename_i hqp hrp
      rw [hqp, hrp]
    · cases hq
      exact absurd hid (hlt r call' at'' hr).ne'
    · cases hr
      exact absurd hid (hlt q call at' hq).ne
    · exact ht.apart q r call call' at' at'' hq hr hid
  · obtain ⟨hby, hle, hid⟩ := ht.reported r hr
    exact ⟨hby, hle, Nat.lt_succ_of_lt hid⟩
  · obtain ⟨hid, hissued, howner⟩ := ht.owned w hw
    refine ⟨Nat.lt_succ_of_lt hid, hissued, howner.imp_right ?_⟩
    rintro ⟨q, call, at', h, hcall⟩
    refine ⟨q, call, at', ?_, hcall⟩
    rw [hpc', if_neg]
    · exact h
    · rintro rfl
      rw [hpc] at h
      cases h

/-- A call answers: the number it kept, which is within its `Count`. -/
theorem tallied_report (ht : Tallied s) {p : P} {call : Call} {waiters : List (Entry P)}
    {left n : ℕ} (hpc : s.pc p = .notify call (.wake waiters left n)) :
    Tallied (s.report p call n) := by
  obtain ⟨hby, hwithin, hlt, hnew⟩ := ht.running p call _ hpc
  have hback : ∀ q call' at', (s.report p call n).pc q = .notify call' at' →
      q ≠ p ∧ s.pc q = .notify call' at' := by
    intro q call' at' h
    rw [State.report, State.goto_pc] at h
    split at h
    · cases h
    · rename_i hq
      exact ⟨hq, h⟩
  refine ⟨fun q call' at' h => ?_, fun q r call₁ call₂ at₁ at₂ hq hr hid => ?_, fun r hr => ?_,
    ?_, fun w hw => ?_⟩
  · obtain ⟨hq, h⟩ := hback q call' at' h
    obtain ⟨hby', hwithin', hlt', hnew'⟩ := ht.running q call' at' h
    refine ⟨hby', hwithin', hlt', fun r hr => ?_⟩
    rcases List.mem_cons.mp hr with rfl | hr
    · exact fun hid => hq (ht.apart q p call' call at' _ h hpc hid.symm)
    · exact hnew' r hr
  · exact ht.apart q r call₁ call₂ at₁ at₂ (hback _ _ _ hq).2 (hback _ _ _ hr).2 hid
  · rcases List.mem_cons.mp hr with rfl | hr
    · refine ⟨hby, ?_, hlt⟩
      change n + left = call.count at hwithin
      show n ≤ call.count
      omega
    · exact ht.reported r hr
  · refine List.nodup_cons.mpr ⟨fun h => ?_, ht.distinct⟩
    obtain ⟨r, hr, hid⟩ := List.mem_map.mp h
    exact hnew r hr hid
  · obtain ⟨hid, hissued, howner⟩ := ht.owned w hw
    refine ⟨hid, hissued, ?_⟩
    rcases howner with ⟨r, hr, hw'⟩ | ⟨q, call', at', h, hw'⟩
    · exact .inl ⟨r, List.mem_cons_of_mem _ hr, hw'⟩
    · by_cases hq : q = p
      · rw [hq, hpc, Pc.notify.injEq] at h
        exact .inl ⟨(call, n), List.mem_cons_self, h.1 ▸ hw'⟩
      · refine .inr ⟨q, call', at', ?_, hw'⟩
        rw [State.report, State.goto_pc, if_neg hq]
        exact h

/-- One more claim, and one more on the call's own count. -/
theorem tallied_claim (ht : Tallied s) {p : P} {call : Call} {e : Entry P}
    {rest : List (Entry P)} {left n : ℕ} (he : e ∈ s.issued)
    (hpc : s.pc p = .notify call (.offer e .claim rest left n)) :
    Tallied ({ s.deleteObject e with wakes := (call.id, e.ref) :: s.wakes }.goto p
      (.notify call (.offer e .send rest left n))) := by
  set s' := ({ s.deleteObject e with wakes := (call.id, e.ref) :: s.wakes } : State P).goto p
    (.notify call (.offer e .send rest left n)) with hs'
  have hby : ∀ id, s'.wakesBy id = s.wakesBy id + if call.id = id then 1 else 0 := by
    intro id
    simp only [State.wakesBy, hs', State.goto_wakes, List.countP_cons, decide_eq_true_eq]
  have hback : ∀ q call' at', s'.pc q = .notify call' at' → ∃ at₀, s.pc q = .notify call' at₀ ∧
      (q ≠ p → at' = at₀) ∧ (q = p → at' = .offer e .send rest left n ∧ call' = call) := by
    intro q call' at' h
    rw [hs', State.goto_pc] at h
    split at h
    · rename_i hq
      cases h
      exact ⟨_, hq ▸ hpc, fun h => absurd hq h, fun _ => ⟨rfl, rfl⟩⟩
    · rename_i hq
      exact ⟨at', h, fun _ => rfl, fun h' => absurd h' hq⟩
  obtain ⟨hby₀, hwithin₀, hlt₀, hnew₀⟩ := ht.running p call _ hpc
  refine ⟨fun q call' at' h => ?_, fun q r call₁ call₂ at₁ at₂ hq hr hid => ?_, fun r hr => ?_,
    ht.distinct, fun w hw => ?_⟩
  · obtain ⟨at₀, h₀, hother, hself⟩ := hback q call' at' h
    obtain ⟨hby', hwithin', hlt', hnew'⟩ := ht.running q call' at₀ h₀
    by_cases hq : q = p
    · obtain ⟨rfl, rfl⟩ := hself hq
      refine ⟨?_, hwithin₀, hlt', hnew'⟩
      rw [hby, if_pos rfl, hby₀]
      rfl
    · refine ⟨?_, hother hq ▸ hwithin', hlt', hnew'⟩
      rw [hby, if_neg, hother hq, hby', Nat.add_zero]
      exact fun hid => hq (ht.apart q p call' call at₀ _ h₀ hpc hid.symm)
  · obtain ⟨at₁', h₁, -⟩ := hback q call₁ at₁ hq
    obtain ⟨at₂', h₂, -⟩ := hback r call₂ at₂ hr
    exact ht.apart q r call₁ call₂ at₁' at₂' h₁ h₂ hid
  · obtain ⟨hby', hle, hlt⟩ := ht.reported r hr
    refine ⟨?_, hle, hlt⟩
    rw [hby, if_neg (hnew₀ r hr).symm, hby', Nat.add_zero]
  · have hstill : s'.pc p = .notify call (.offer e .send rest left n) := by
      rw [hs', State.goto_pc, if_pos rfl]
    rcases List.mem_cons.mp hw with rfl | hw
    · exact ⟨hlt₀, ⟨e, he, rfl⟩, .inr ⟨p, call, _, hstill, rfl⟩⟩
    · obtain ⟨hid, hissued, howner⟩ := ht.owned w hw
      refine ⟨hid, hissued, howner.imp_right ?_⟩
      rintro ⟨q, call', at', h, hcall⟩
      by_cases hq : q = p
      · rw [hq, hpc, Pc.notify.injEq] at h
        exact ⟨p, call, _, hstill, h.1 ▸ hcall⟩
      · refine ⟨q, call', at', ?_, hcall⟩
        rw [hs', State.goto_pc, if_neg hq]
        exact h

/-- What a step inside `wait/4` leaves alone. -/
theorem waitStep_frame {p : P} {e : Entry P} {timeout : Option ℕ} {at' : Stage P}
    (h : s.waitStep p e timeout at' = some s') :
    ∃ c, (∀ q, s'.pc q = if q = p then c else s.pc q) ∧ (∀ call at', c ≠ .notify call at') ∧
      s'.wakes = s.wakes ∧ s'.reports = s.reports ∧ s'.issued = s.issued ∧
      s.nextRef ≤ s'.nextRef := by
  cases at' with
  | insert =>
    cases h
    exact ⟨_, (State.goto_pc _ p · _), fun _ _ h => (by cases h), rfl, rfl, rfl, le_rfl⟩
  | read => simp [State.waitStep] at h
  | receive =>
    simp only [State.waitStep, Option.ite_none_right_eq_some, Option.some.injEq] at h
    obtain ⟨-, rfl⟩ := h
    exact ⟨_, (State.goto_pc _ p · _), fun _ _ h => (by cases h), rfl, rfl, rfl, le_rfl⟩
  | claimOwn | claimer =>
    simp only [State.waitStep] at h
    split at h
    all_goals
      cases h
      exact ⟨_, (State.goto_pc _ p · _), fun _ _ h => (by cases h), rfl, rfl, rfl, le_rfl⟩
  | receiveWoken =>
    simp only [State.waitStep, Option.ite_none_right_eq_some, Option.some.injEq] at h
    obtain ⟨-, rfl⟩ := h
    exact ⟨_, (State.goto_pc _ p · _), fun _ _ h => (by cases h), rfl, rfl, rfl, le_rfl⟩
  | monitor pid =>
    cases h
    unfold State.monitor
    split
    · exact ⟨_, (State.goto_pc _ p · _), fun _ _ h => (by cases h), rfl, rfl, rfl, Nat.le_succ _⟩
    · unfold State.send
      split
      all_goals exact ⟨_, (State.goto_pc _ p · _), fun _ _ h => (by cases h), rfl, rfl, rfl, Nat.le_succ _⟩
  | receiveDown mon =>
    simp only [State.waitStep] at h
    split at h
    · cases h
      exact ⟨_, (State.goto_pc _ p · _), fun _ _ h => (by cases h), rfl, rfl, rfl, le_rfl⟩
    · cases h
      exact ⟨_, (State.goto_pc _ p · _), fun _ _ h => (by cases h), rfl, rfl, rfl, le_rfl⟩
    · simp at h
  | _ =>
    cases h
    exact ⟨_, (State.goto_pc _ p · _), fun _ _ h => (by cases h), rfl, rfl, rfl, le_rfl⟩

theorem tallied_notifyStep (ht : Tallied s) (hi : Orderly s) {p : P} {call : Call}
    {at' : Round P} (hpc : s.pc p = .notify call at') : Tallied (s.notifyStep p call at') := by
  have hwithin := (ht.running p call at' hpc).2.1
  cases at' with
  | lookup =>
    exact tallied_quiet ht (State.goto_pc _ p · _)
      (.inr ⟨call, _, _, hpc, rfl, rfl, fun _ => trivial⟩) rfl rfl (fun _ h => h) le_rfl
  | live todo kept =>
    cases todo with
    | nil =>
      refine tallied_quiet ht (State.goto_pc _ p · _)
        (.inr ⟨call, _, _, hpc, rfl, rfl, fun _ => ?_⟩) rfl rfl (fun _ h => h) le_rfl
      exact Nat.zero_add _
    | cons e todo =>
      simp only [State.notifyStep]
      split
      all_goals
        exact tallied_quiet ht (State.goto_pc _ p · _)
          (.inr ⟨call, _, _, hpc, rfl, rfl, fun _ => trivial⟩) rfl rfl (fun _ h => h) le_rfl
  | deleteDead e todo kept =>
    exact tallied_quiet ht (State.goto_pc _ p · _)
      (.inr ⟨call, _, _, hpc, rfl, rfl, fun _ => trivial⟩) rfl rfl (fun _ h => h) le_rfl
  | wake waiters left n =>
    cases left with
    | zero => cases waiters <;> exact tallied_report ht hpc
    | succ left =>
      cases waiters with
      | nil => exact tallied_report ht hpc
      | cons e rest =>
        simp only [State.notifyStep]
        split
        · exact tallied_quiet ht (State.goto_pc _ p · _)
            (.inr ⟨call, _, _, hpc, rfl, rfl, id⟩) rfl rfl (fun _ h => h) le_rfl
        · exact tallied_quiet ht (State.goto_pc _ p · _)
            (.inr ⟨call, _, _, hpc, rfl, rfl, fun h => ⟨h, Nat.succ_pos _⟩⟩) rfl rfl
            (fun _ h => h) le_rfl
  | offer e o rest left n =>
    cases o with
    | claim =>
      simp only [State.notifyStep]
      split
      · rename_i hrow
        exact tallied_claim ht (hi.row e hrow) hpc
      · exact tallied_quiet ht (State.goto_pc _ p · _)
          (.inr ⟨call, _, _, hpc, rfl, rfl, id⟩) rfl rfl (fun _ h => h) le_rfl
    | send =>
      simp only [State.notifyStep, State.send]
      split
      all_goals
        exact tallied_quiet ht (State.goto_pc _ p · _)
          (.inr ⟨call, _, _, hpc, rfl, rfl, id⟩) rfl rfl (fun _ h => h) le_rfl
    | unname won =>
      cases won with
      | true =>
        refine tallied_quiet ht (State.goto_pc _ p · _)
          (.inr ⟨call, _, _, hpc, rfl, rfl, fun h => ?_⟩) rfl rfl (fun _ h => h) le_rfl
        obtain ⟨hsum, hpos⟩ := h
        show n + 1 + (left - 1) = call.count
        omega
      | false =>
        exact tallied_quiet ht (State.goto_pc _ p · _)
          (.inr ⟨call, _, _, hpc, rfl, rfl, fun h => h.1⟩) rfl rfl (fun _ h => h) le_rfl

theorem tallied_step {a : Act P} (ht : Tallied s) (hi : Orderly s) (hok : Undisturbed s a)
    (h : step s a = some s') : Tallied s' := by
  simp only [step, Option.ite_none_right_eq_some] at h
  obtain ⟨-, h⟩ := h
  cases a with
  | wait p key timeoutNs =>
    simp only [State.act, Option.ite_none_right_eq_some, Option.some.injEq] at h
    obtain ⟨hpc, rfl⟩ := h
    exact tallied_quiet ht (State.goto_pc _ p · _) (.inl ⟨by simp [hpc], fun _ _ h => by cases h⟩) rfl rfl
      (fun _ h => List.mem_cons_of_mem _ h) (Nat.le_succ _)
  | notify p key count =>
    simp only [State.act, Option.ite_none_right_eq_some, Option.some.injEq] at h
    obtain ⟨hpc, rfl⟩ := h
    exact tallied_beginNotify ht hpc key count
  | read p equal =>
    simp only [State.act] at h
    split at h
    · rename_i e timeout hpc
      cases h
      exact tallied_quiet ht (State.goto_pc _ p · _) (.inl ⟨by simp [hpc], fun _ _ h => by cases h⟩) rfl rfl
        (fun _ h => h) le_rfl
    · simp at h
  | expire p =>
    simp only [State.act] at h
    split at h
    · rename_i e ms hpc
      cases h
      exact tallied_quiet ht (State.goto_pc _ p · _) (.inl ⟨by simp [hpc], fun _ _ h => by cases h⟩) rfl rfl
        (fun _ h => h) le_rfl
    · simp at h
  | go p =>
    simp only [State.act] at h
    split at h
    · simp at h
    · rename_i e timeout at' hpc
      obtain ⟨c, hpc', hc, hwakes, hreports, hissued, hnext⟩ := waitStep_frame h
      exact tallied_quiet ht hpc' (.inl ⟨by simp [hpc], hc⟩) hwakes hreports
        (fun _ he => hissued ▸ he) hnext
    · rename_i call at' hpc
      cases h
      exact tallied_notifyStep ht hi hpc
  | kill p =>
    cases h
    have hidle : s.pc p = .idle := hok
    refine tallied_quiet (p := p) (c := .idle) ht (fun q => ?_) (.inl ⟨by simp [hidle], fun _ _ h => by cases h⟩)
      rfl rfl (fun _ h => h) le_rfl
    show s.pc q = _
    split
    · rename_i hq
      rw [hq, hidle]
    · rfl

theorem tallied_of_undisturbed {s : State P}
    (h : Run.ReachableIf step Undisturbed State.init s) : Tallied s := by
  have hboth : Tallied s ∧ Orderly s := by
    refine h.invariant (fun s => Tallied s ∧ Orderly s) ⟨tallied_init, orderly_init⟩ ?_
    rintro s a s' ⟨ht, hi⟩ hok hs
    exact ⟨tallied_step ht hi hok hs, orderly_step hi hok.safeDeath hs⟩
  exact hboth.1

/-! ## The claim and its failure -/

/-- Nobody is inside `notify/3`. -/
def State.Quiet (s : State P) : Prop :=
  ∀ p call at', s.pc p ≠ .notify call at'

/-- The waits that answered `0`. -/
def State.wokenWaits (s : State P) : List (Ref × ℕ) :=
  s.answers.filter (·.2 = 0)

structure State.ExactlyOnce (s : State P) : Prop where
  -- answered 0: one notifier counted it; answered 1 or 2: none did
  answered : ∀ ref n, (ref, n) ∈ s.answers → (n = 0 ↔ s.wakesOf ref = 1) ∧
    (n ≠ 0 → s.wakesOf ref = 0)
  -- a call answers the waits it counted, which are no more than its `Count`
  reported : ∀ r ∈ s.reports, r.2 = s.wakesBy r.1.id ∧ r.2 ≤ r.1.count
  -- once every wait has returned, the calls have counted what the waits answered
  sum : (∀ e ∈ s.issued, ¬ s.InProgress e) → s.wakes.length = s.wokenWaits.length ∧
    (s.Quiet → (s.reports.map (·.2)).sum = s.wokenWaits.length)
  -- no message for a wait that is over, and nobody who would still send one
  swept : ∀ e ∈ s.issued, ¬ s.InProgress e →
    .wasmNotify e.ref ∉ s.mail e.pid ∧ ∀ q, ¬ s.Sender q e

omit [DecidableEq P] in
theorem wakes_length (hx : Exact s) (ht : Tallied s)
    (hover : ∀ e ∈ s.issued, ¬ s.InProgress e) : s.wakes.length = s.wokenWaits.length := by
  have hone : ∀ r ∈ s.wokenWaits, s.wakesOf r.1 = 1 := by
    intro r hr
    obtain ⟨hr, h0⟩ := List.mem_filter.mp hr
    obtain ⟨e, -, href, -, hs⟩ := hx.answered r.1 r.2 hr
    have hn : r.2 = 0 := by simpa using h0
    rw [← href, hs.wakes, hn]
    rfl
  have hmem : ∀ w ∈ s.wakes, w.2 ∈ s.wokenWaits.map (·.1) := by
    intro w hw
    obtain ⟨-, ⟨e, he, href⟩, -⟩ := ht.owned w hw
    obtain ⟨n, hn⟩ := hx.after e he (hover e he)
    obtain ⟨e', he', href', -, hs⟩ := hx.answered e.ref n hn
    -- it was claimed, so what it answered is 0
    have hpos : 0 < s.wakesOf e'.ref := by
      rw [State.wakesOf, List.countP_pos_iff]
      exact ⟨w, hw, by simp [href', href]⟩
    have hzero : n = 0 := by
      by_contra hne
      rw [hs.wakes, woken, if_neg hne] at hpos
      exact absurd hpos (lt_irrefl 0)
    refine List.mem_map.mpr ⟨(e.ref, n), List.mem_filter.mpr ⟨hn, ?_⟩, href⟩
    simp [hzero]
  have hnodup : (s.wokenWaits.map (·.1)).Nodup :=
    hx.once.sublist (List.filter_sublist.map _)
  rw [← sum_map_countP (fun w : ℕ × Ref => w.2) hnodup hmem, List.map_map]
  have hmap : s.wokenWaits.map ((fun i => s.wakes.countP (·.2 = i)) ∘ (·.1)) =
      s.wokenWaits.map fun _ => 1 := by
    apply List.map_congr_left
    intro r hr
    exact hone r hr
  rw [hmap, List.map_const', List.sum_replicate]
  exact Nat.mul_one _

omit [DecidableEq P] in
theorem reports_sum (ht : Tallied s) (hquiet : s.Quiet) :
    (s.reports.map (·.2)).sum = s.wakes.length := by
  have hmem : ∀ w ∈ s.wakes, w.1 ∈ s.reports.map (·.1.id) := by
    intro w hw
    obtain ⟨-, -, ⟨r, hr, hid⟩ | ⟨p, call, at', h, -⟩⟩ := ht.owned w hw
    · exact List.mem_map.mpr ⟨r, hr, hid⟩
    · exact absurd h (hquiet p call at')
  rw [← sum_map_countP (fun w : ℕ × Ref => w.1) ht.distinct hmem, List.map_map]
  congr 1
  apply List.map_congr_left
  intro r hr
  exact (ht.reported r hr).1.symm

local instance racingProcesses : NeZero 3 := ⟨by decide⟩

/-- Two notifiers race for one parked agent and one of them wakes it. -/
def racingNotifiers : List (Act (Fin 3)) :=
  [.wait 0 ⟨0, 0⟩ 5, .go 0, .read 0 true,
    .notify 1 ⟨0, 0⟩ 1, .go 1, .go 1, .go 1, .notify 2 ⟨0, 0⟩ 1, .go 2, .go 2, .go 2,
    .go 1, .go 2, .go 1, .expire 0, .go 0, .go 0, .go 1, .go 1, .go 0, .go 0, .go 0, .go 0, .go 0,
    .go 0, .go 1, .go 2]

local instance refusedProcesses : NeZero 2 := ⟨by decide⟩

/-- Process 0 finds another value; process 1, which has named it, takes its row and sends. -/
def claimedRefusal : List (Act (Fin 2)) :=
  [.wait 0 ⟨0, 0⟩ (-1), .go 0, .notify 1 ⟨0, 0⟩ 1, .go 1, .go 1, .go 1, .go 1,
    .read 0 false, .go 1, .go 0, .go 0, .go 0, .go 1, .go 1, .go 1]

end ErlangWasm.Wait
