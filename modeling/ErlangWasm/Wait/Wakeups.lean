import ErlangWasm.Wait.Naming

/-!
# What happens to one wait

A registered wait is listed until somebody takes its row.  A notifier that takes it owes it one
message, and the wait is spent once that message is received; a waiter that takes its own row owes
itself nothing.  `Exact` says which of the three every wait begun is in, as a function of where its
process stands, and so how many notifiers have claimed it.

The way out that reads `not_equal` is the one that does not look whether the row is still there.
`Undisturbed` keeps notifiers off it.
-/

namespace ErlangWasm.Wait

open Reasoning

variable {P : Type}

/-! ## The fate of a wait -/

namespace State

/-- The notifiers that claimed the wait `ref`. -/
def wakesOf (s : State P) (ref : Ref) : ℕ :=
  s.wakes.countP (·.2 = ref)

/-- The wakeups of `e` in its process's mailbox. -/
def mails (s : State P) (e : Entry P) : ℕ :=
  (s.mail e.pid).count (.wasmNotify e.ref)

/-- `q` has taken the row of `e` and not yet sent to it. -/
def Sender (s : State P) (q : P) (e : Entry P) : Prop :=
  (s.pc q).offers = some (e, .send)

/-- In the table, and nobody's. -/
structure Listed (s : State P) (e : Entry P) : Prop where
  row : e ∈ s.rows
  wakes : s.wakesOf e.ref = 0
  mails : s.mails e = 0
  sender : ∀ q, ¬ s.Sender q e

/-- Taken by one notifier, whose message is on its way or there. -/
structure Coming (s : State P) (e : Entry P) : Prop where
  row : e ∉ s.rows
  wakes : s.wakesOf e.ref = 1
  owed : (s.mails e = 1 ∧ ∀ q, ¬ s.Sender q e) ∨ (s.mails e = 0 ∧ ∃ q, s.Sender q e)

/-- Out of the table with nothing left to come, after `n` notifiers claimed it. -/
structure Spent (s : State P) (e : Entry P) (n : ℕ) : Prop where
  row : e ∉ s.rows
  wakes : s.wakesOf e.ref = n
  mails : s.mails e = 0
  sender : ∀ q, ¬ s.Sender q e

/-- The wakeup stands before the report `mon` of the notifier's death, or will. -/
structure FirstIs (s : State P) (e : Entry P) (mon : Ref) : Prop where
  made : mon < s.nextRef
  first : (s.mail e.pid).find? (fun m => m = .wasmNotify e.ref ∨ m = .down mon) =
      some (.wasmNotify e.ref) ∨
    .down mon ∉ s.mail e.pid ∧ (∃ q, s.Sender q e) ∧
      ∀ q, s.Sender q e → ∀ m ∈ s.monitors, m.mon = mon → m.target = q

end State

/-- How many notifiers count a wait that answers `n`. -/
def woken (n : ℕ) : ℕ :=
  if n = 0 then 1 else 0

/-- What a process inside a wait knows of it. -/
def State.At (s : State P) (e : Entry P) : Stage P → Prop
  | .insert => s.Spent e 0
  | .read | .receive | .claimOwn => s.Listed e ∨ s.Coming e
  | .claimer | .receiveWoken => s.Coming e
  | .monitor pid => s.Coming e ∧ ∀ q, s.Sender q e → q = pid
  | .receiveDown mon => s.Coming e ∧ s.FirstIs e mon
  | .demonitor _ n => n ≠ 1 ∧ s.Spent e (woken n)
  | .deleteObject n => n = 1 ∧ s.Listed e ∨ n ≠ 1 ∧ s.Spent e (woken n)
  | .deleteClaimed n | .flush n => s.Spent e (woken n)

theorem State.Coming.not_spent {s : State P} {e : Entry P} {n : ℕ} (hc : s.Coming e) :
    ¬ s.Spent e n := by
  intro hs
  rcases hc.owed with ⟨hone, -⟩ | ⟨-, q, hq⟩
  · simp [hs.mails] at hone
  · exact hs.sender q hq

/-- Every wait is in one of the three. -/
theorem State.At.fate {s : State P} {e : Entry P} {at' : Stage P} (h : s.At e at') :
    s.Listed e ∨ s.Coming e ∨ ∃ n, s.Spent e n := by
  cases at' with
  | insert => exact .inr (.inr ⟨_, h⟩)
  | read | receive | claimOwn => exact h.imp_right .inl
  | claimer => exact .inr (.inl h)
  | receiveWoken => exact .inr (.inl h)
  | monitor pid | receiveDown mon => exact .inr (.inl h.1)
  | demonitor mon n => exact .inr (.inr ⟨_, h.2⟩)
  | deleteObject n => exact h.elim (fun h => .inl h.2) fun h => .inr (.inr ⟨_, h.2⟩)
  | deleteClaimed n | flush n => exact .inr (.inr ⟨_, h⟩)

/-- What is coming is coming to a process that is undecided. -/
theorem State.At.waits {s : State P} {e : Entry P} {at' : Stage P} (h : s.At e at')
    (hc : s.Coming e) : at'.waits = true := by
  cases at' with
  | insert => exact absurd h hc.not_spent
  | demonitor mon n => exact absurd h.2 hc.not_spent
  | deleteObject n =>
    rcases h with ⟨-, h⟩ | ⟨-, h⟩
    · exact absurd h.row hc.row
    · exact absurd h hc.not_spent
  | deleteClaimed n | flush n => exact absurd h hc.not_spent
  | _ => rfl

/-- A listed wait has not lost its row to anybody. -/
theorem State.At.of_listed {s : State P} {e : Entry P} {at' : Stage P} (h : s.At e at')
    (hl : s.Listed e) :
    at' = .read ∨ at' = .receive ∨ at' = .claimOwn ∨ at' = .deleteObject 1 := by
  have hrow := hl.row
  cases at' with
  | read => exact .inl rfl
  | receive => exact .inr (.inl rfl)
  | claimOwn => exact .inr (.inr (.inl rfl))
  | insert | claimer | receiveWoken => exact absurd hrow h.row
  | monitor pid | receiveDown mon => exact absurd hrow h.1.row
  | demonitor mon n => exact absurd hrow h.2.row
  | deleteObject n =>
    rcases h with ⟨hn, -⟩ | ⟨-, h⟩
    · exact .inr (.inr (.inr (by rw [hn])))
    · exact absurd hrow h.row
  | deleteClaimed n | flush n => exact absurd hrow h.row

/-- `e` is the wait its process is inside of. -/
def State.InProgress (s : State P) (e : Entry P) : Prop :=
  ∃ timeout at', s.pc e.pid = .wait e timeout at'

structure Exact (s : State P) : Prop where
  during : ∀ p e timeout at', s.pc p = .wait e timeout at' → s.At e at'
  after : ∀ e ∈ s.issued, ¬ s.InProgress e → ∃ n, (e.ref, n) ∈ s.answers
  answered : ∀ ref n, (ref, n) ∈ s.answers →
    ∃ e ∈ s.issued, e.ref = ref ∧ ¬ s.InProgress e ∧ s.Spent e (woken n)
  once : (s.answers.map (·.1)).Nodup

theorem exact_init : Exact (State.init : State P) := by
  constructor <;> simp [State.init]

/-- A wait that is over is spent. -/
theorem Exact.spent {s : State P} (hx : Exact s) (hi : Orderly s) {e : Entry P}
    (he : e ∈ s.issued) (hover : ¬ s.InProgress e) : ∃ n, s.Spent e n := by
  obtain ⟨n, hn⟩ := hx.after e he hover
  obtain ⟨e', he', href, -, hspent⟩ := hx.answered e.ref n hn
  cases hi.functional e' he' e he href
  exact ⟨_, hspent⟩

def Mail.ref : Mail → Ref
  | .wasmNotify ref => ref
  | .down mon => mon

/-- References are used once they are made, and only the living are busy. -/
structure Tidy (s : State P) : Prop where
  living : ∀ p, s.pc p ≠ .idle → s.alive p = true
  mailRef : ∀ p, ∀ m ∈ s.mail p, m.ref < s.nextRef
  monRef : ∀ m ∈ s.monitors, m.mon < s.nextRef
  wakesRef : ∀ w ∈ s.wakes, w.2 < s.nextRef

theorem tidy_init : Tidy (State.init : State P) := by
  constructor <;> simp [State.init]

/-! ## Steps that leave a wait alone -/

/-- Nothing that decides the fate of `e` differs between two states. -/
structure SameFate (s s' : State P) (e : Entry P) : Prop where
  row : e ∈ s'.rows ↔ e ∈ s.rows
  wakes : s'.wakesOf e.ref = s.wakesOf e.ref
  mails : s'.mails e = s.mails e
  sender : ∀ q, s'.Sender q e ↔ s.Sender q e

variable {s s' : State P} {e : Entry P}

theorem SameFate.listed (h : SameFate s s' e) (hl : s.Listed e) : s'.Listed e where
  row := h.row.mpr hl.row
  wakes := h.wakes.trans hl.wakes
  mails := h.mails.trans hl.mails
  sender q hq := hl.sender q ((h.sender q).mp hq)

theorem SameFate.coming (h : SameFate s s' e) (hc : s.Coming e) : s'.Coming e where
  row hr := hc.row (h.row.mp hr)
  wakes := h.wakes.trans hc.wakes
  owed := by
    rw [h.mails]
    simp only [h.sender]
    exact hc.owed

theorem SameFate.spent (h : SameFate s s' e) {n : ℕ} (hs : s.Spent e n) : s'.Spent e n where
  row hr := hs.row (h.row.mp hr)
  wakes := h.wakes.trans hs.wakes
  mails := h.mails.trans hs.mails
  sender q hq := hs.sender q ((h.sender q).mp hq)

theorem SameFate.at (h : SameFate s s' e) (hfirst : ∀ mon, s.FirstIs e mon → s'.FirstIs e mon)
    {at' : Stage P} (ha : s.At e at') : s'.At e at' := by
  cases at' with
  | insert => exact h.spent ha
  | read | receive | claimOwn => exact ha.imp h.listed h.coming
  | claimer => exact h.coming ha
  | receiveWoken => exact h.coming ha
  | monitor pid => exact ⟨h.coming ha.1, fun q hq => ha.2 q ((h.sender q).mp hq)⟩
  | receiveDown mon => exact ⟨h.coming ha.1, hfirst mon ha.2⟩
  | demonitor mon n => exact ⟨ha.1, h.spent ha.2⟩
  | deleteObject n => exact ha.imp (.imp_right h.listed) (.imp_right h.spent)
  | deleteClaimed n => exact h.spent ha
  | flush n => exact h.spent ha

/-- Messages that are neither the wakeup nor a report on its sender may come behind. -/
theorem State.FirstIs.append {mon : Ref} {l : List Mail} (hf : s.FirstIs e mon)
    (hmail : s'.mail e.pid = s.mail e.pid ++ l) (hnext : s.nextRef ≤ s'.nextRef)
    (hsender : ∀ q, s'.Sender q e ↔ s.Sender q e)
    (hmon : ∀ m ∈ s'.monitors, m.mon < s.nextRef → m ∈ s.monitors)
    (hdown : ∀ m, .down m ∈ l → ∀ q, s.Sender q e → ∃ x ∈ s.monitors, x.mon = m ∧ x.target ≠ q) :
    s'.FirstIs e mon where
  made := Nat.lt_of_lt_of_le hf.made hnext
  first := by
    rcases hf.first with h | ⟨hnot, ⟨q, hq⟩, htarget⟩
    · left
      rw [hmail, List.find?_append, h]
      rfl
    · right
      refine ⟨?_, ⟨q, (hsender q).mpr hq⟩, fun r hr m hm hmm => ?_⟩
      · rw [hmail, List.mem_append, not_or]
        refine ⟨hnot, fun hl => ?_⟩
        obtain ⟨x, hx, hxm, hne⟩ := hdown mon hl q hq
        exact hne (htarget q hq x hx hxm)
      · exact htarget r ((hsender r).mp hr) m (hmon m hm (hmm ▸ hf.made)) hmm

/-- A step of a notifier: whatever becomes of a wait, its process still stands where it stood. -/
theorem Exact.carry (hx : Exact s) (hwait : ∀ p e timeout at',
      s'.pc p = .wait e timeout at' ↔ s.pc p = .wait e timeout at')
    (hissued : s'.issued = s.issued) (hanswers : s'.answers = s.answers)
    (hat : ∀ p e timeout at', s.pc p = .wait e timeout at' → s.At e at' → s'.At e at')
    (hspent : ∀ e ∈ s.issued, ∀ n, s.Spent e n → s'.Spent e n) : Exact s' where
  during p e timeout at' h :=
    hat p e timeout at' ((hwait _ _ _ _).mp h) (hx.during p e timeout at' ((hwait _ _ _ _).mp h))
  after e he hover := by
    rw [hissued] at he
    rw [hanswers]
    exact hx.after e he fun ⟨timeout, at', h⟩ => hover ⟨timeout, at', (hwait _ _ _ _).mpr h⟩
  answered ref n h := by
    rw [hanswers] at h
    obtain ⟨e, he, href, hover, hs⟩ := hx.answered ref n h
    refine ⟨e, hissued ▸ he, href, ?_, hspent e he _ hs⟩
    exact fun ⟨timeout, at', h⟩ => hover ⟨timeout, at', (hwait _ _ _ _).mp h⟩
  once := hanswers ▸ hx.once

/-- A step of a waiter inside its wait `e`, which leaves every other wait alone. -/
theorem Exact.advance [DecidableEq P] (hx : Exact s) (hi : Orderly s) {p : P}
    {timeout : Option ℕ} {at₀ at₁ : Stage P} (hpc : s.pc p = .wait e timeout at₀)
    (hpc' : ∀ q, s'.pc q = if q = p then .wait e timeout at₁ else s.pc q)
    (hissued : s'.issued = s.issued) (hanswers : s'.answers = s.answers)
    (hsame : ∀ x ∈ s.issued, x ≠ e → SameFate s s' x)
    (hfirst : ∀ x, x.pid ≠ p → ∀ mon, s.FirstIs x mon → s'.FirstIs x mon)
    (hat : s'.At e at₁) : Exact s' := by
  have hmine := hi.own p e timeout at₀ hpc
  have hprogress : ∀ x, s'.InProgress x ↔ s.InProgress x := by
    intro x
    unfold State.InProgress
    rw [hpc' x.pid]
    split
    · rename_i hxp
      rw [hxp, hpc]
      simp
    · rfl
  refine ⟨fun q x t at' h => ?_, fun x hxi hover => ?_, fun ref n h => ?_, hanswers ▸ hx.once⟩
  · rw [hpc' q] at h
    split at h
    · cases h
      exact hat
    · rename_i hq
      obtain ⟨hxq, hxi⟩ := hi.own q x t at' h
      have hne : x ≠ e := by
        rintro rfl
        exact hq (hxq.symm.trans hmine.1)
      exact (hsame x hxi hne).at (hfirst x (fun h => hq (hxq.symm.trans h)))
        (hx.during q x t at' h)
  · rw [hissued] at hxi
    rw [hanswers]
    exact hx.after x hxi fun h => hover ((hprogress x).mpr h)
  · rw [hanswers] at h
    obtain ⟨x, hxi, href, hover, hs⟩ := hx.answered ref n h
    have hne : x ≠ e := by
      rintro rfl
      exact hover ⟨timeout, at₀, hmine.1 ▸ hpc⟩
    exact ⟨x, hissued ▸ hxi, href, fun h => hover ((hprogress x).mp h), (hsame x hxi hne).spent hs⟩

/-! ## The waiter's own steps -/

variable [DecidableEq P]

theorem sender_of_wait {p : P} {timeout : Option ℕ} {at₀ : Stage P} {c : Pc P}
    (hpc : s.pc p = .wait e timeout at₀) (hpc' : ∀ q, s'.pc q = if q = p then c else s.pc q)
    (hc : c.offers = none) (x : Entry P) (q : P) : s'.Sender q x ↔ s.Sender q x := by
  unfold State.Sender
  rw [hpc' q]
  split
  · rename_i hq
    rw [hq, hpc, hc]
    simp [Pc.offers]
  · rfl

/-- The waiter moves and changes at most its own row and its own mail. -/
theorem exact_wait (hx : Exact s) (hi : Orderly s) {p : P} {timeout : Option ℕ}
    {at₀ at₁ : Stage P} (hpc : s.pc p = .wait e timeout at₀)
    (hpc' : ∀ q, s'.pc q = if q = p then .wait e timeout at₁ else s.pc q)
    (hissued : s'.issued = s.issued) (hanswers : s'.answers = s.answers)
    (hrows : ∀ x, x ≠ e → (x ∈ s'.rows ↔ x ∈ s.rows)) (hwakes : s'.wakes = s.wakes)
    (hmails : ∀ x, x.ref ≠ e.ref → s'.mails x = s.mails x)
    (hmail : ∀ q, q ≠ p → s'.mail q = s.mail q) (hnext : s.nextRef ≤ s'.nextRef)
    (hmon : ∀ m ∈ s'.monitors, m.mon < s.nextRef → m ∈ s.monitors) (hat : s'.At e at₁) :
    Exact s' := by
  have hmine := (hi.own p e timeout at₀ hpc).2
  have hsender := sender_of_wait hpc hpc' rfl
  apply hx.advance hi hpc hpc' hissued hanswers
  · intro x hxi hne
    have href : x.ref ≠ e.ref := fun h => hne (hi.functional x hxi e hmine h)
    refine ⟨hrows x hne, ?_, hmails x href, hsender x⟩
    rw [State.wakesOf, hwakes]
    rfl
  · intro x hxp mon hf
    refine hf.append (l := []) ?_ hnext (hsender x) hmon (by simp)
    rw [hmail x.pid hxp, List.append_nil]
  · exact hat

/-- The waiter moves and touches nothing. -/
theorem exact_stay (hx : Exact s) (hi : Orderly s) {p : P} {timeout : Option ℕ}
    {at₀ at₁ : Stage P} (hpc : s.pc p = .wait e timeout at₀)
    (hat : (s.goto p (.wait e timeout at₁)).At e at₁) :
    Exact (s.goto p (.wait e timeout at₁)) :=
  exact_wait hx hi hpc (State.goto_pc s p · _) rfl rfl (fun _ _ => Iff.rfl) rfl (fun _ _ => rfl)
    (fun _ _ => rfl) le_rfl (fun _ hm _ => hm) hat

theorem sameFate_goto {p : P} {timeout : Option ℕ} {at₀ : Stage P} {c : Pc P}
    (hpc : s.pc p = .wait e timeout at₀) (hc : c.offers = none) (x : Entry P) :
    SameFate s (s.goto p c) x :=
  ⟨Iff.rfl, rfl, rfl, sender_of_wait hpc (State.goto_pc s p · _) hc x⟩

theorem mails_receive (s : State P) (p : P) {m : Mail} {x : Entry P}
    (hm : m ≠ .wasmNotify x.ref) : (s.receive p m).mails x = s.mails x := by
  unfold State.mails State.receive
  simp only [Function.update_apply]
  split
  · rename_i hp
    rw [List.count_erase_of_ne hm.symm, hp]
  · rfl

/-- The wakeup received: it was the one there was. -/
theorem exact_receive (hx : Exact s) (hi : Orderly s) {p : P} {timeout : Option ℕ}
    {at₀ at₁ : Stage P} (hpc : s.pc p = .wait e timeout at₀)
    (hmem : .wasmNotify e.ref ∈ s.mail p) (hfate : s.Listed e ∨ s.Coming e)
    (hat : ∀ t : State P, t.Spent e 1 → t.At e at₁) :
    Exact ((s.receive p (.wasmNotify e.ref)).goto p (.wait e timeout at₁)) := by
  have hmine := (hi.own p e timeout at₀ hpc).1
  have hpos : 0 < s.mails e := by
    rw [State.mails, hmine]
    exact List.count_pos_iff.mpr hmem
  have hcoming : s.Coming e := by
    rcases hfate with h | h
    · rw [h.mails] at hpos
      exact absurd hpos (lt_irrefl 0)
    · exact h
  obtain ⟨hone, hnone⟩ : s.mails e = 1 ∧ ∀ q, ¬ s.Sender q e := by
    apply hcoming.owed.resolve_right
    omega
  refine exact_wait hx hi hpc (State.goto_pc _ p · _) rfl rfl (fun _ _ => Iff.rfl) rfl ?_ ?_ ?_ ?_ ?_
  · intro x href
    exact mails_receive s p fun h => href (Mail.wasmNotify.inj h).symm
  · exact fun q hq => State.mem_receive hq
  · exact le_rfl
  · exact fun m hm _ => hm
  · apply hat
    refine ⟨hcoming.row, hcoming.wakes, ?_, fun q hq => ?_⟩
    · have hcount : s.mails e - 1 = 0 := by omega
      rw [← hcount]
      simp [State.mails, State.receive, hmine]
    · exact hnone q ((sender_of_wait hpc (State.goto_pc _ p · _) rfl e q).mp hq)

/-- The waiter takes its own row. -/
theorem exact_claimOwn (hx : Exact s) (hi : Orderly s) {p : P} {timeout : Option ℕ}
    {at₀ at₁ : Stage P} (hpc : s.pc p = .wait e timeout at₀) (hlisted : s.Listed e)
    (hat : ∀ t : State P, t.Spent e 0 → t.At e at₁) :
    Exact ((s.deleteObject e).goto p (.wait e timeout at₁)) := by
  refine exact_wait hx hi hpc (State.goto_pc _ p · _) rfl rfl ?_ rfl (fun _ _ => rfl)
    (fun _ _ => rfl) le_rfl (fun _ hm _ => hm) ?_
  · intro x hne
    exact List.mem_erase_of_ne hne
  · apply hat
    refine ⟨?_, hlisted.wakes, hlisted.mails, fun q hq => ?_⟩
    · show e ∉ s.rows.erase e
      exact hi.nodup.not_mem_erase
    · exact hlisted.sender q ((sender_of_wait hpc (State.goto_pc _ p · _) rfl e q).mp hq)

theorem exact_insert (hx : Exact s) (hi : Orderly s) {p : P} {timeout : Option ℕ}
    (hpc : s.pc p = .wait e timeout .insert) :
    Exact ({ s with rows := s.rows ++ [e] }.goto p (.wait e timeout .read)) := by
  have hspent : s.Spent e 0 := hx.during p e timeout _ hpc
  refine exact_wait hx hi hpc (State.goto_pc _ p · _) rfl rfl ?_ rfl (fun _ _ => rfl)
    (fun _ _ => rfl) le_rfl (fun _ hm _ => hm) ?_
  · intro x hne
    simp [hne]
  · left
    refine ⟨by simp, hspent.wakes, hspent.mails, fun q hq => ?_⟩
    exact hspent.sender q ((sender_of_wait hpc (State.goto_pc _ p · _) rfl e q).mp hq)

/-- The wakeup is the first of its kind when no report under `mon` stands in the mailbox. -/
theorem find_wasmNotify {l : List Mail} {ref mon : Ref} (hmem : .wasmNotify ref ∈ l)
    (hnot : .down mon ∉ l) :
    l.find? (fun m => m = .wasmNotify ref ∨ m = .down mon) = some (.wasmNotify ref) := by
  induction l with
  | nil => simp at hmem
  | cons m l ih =>
    rw [List.mem_cons, not_or] at hnot
    by_cases hm : m = .wasmNotify ref
    · rw [List.find?_cons_of_pos (by simp [hm]), hm]
    · have htail : .wasmNotify ref ∈ l := (List.mem_cons.mp hmem).resolve_left (Ne.symm hm)
      rw [List.find?_cons_of_neg (by simp [hm, Ne.symm hnot.1])]
      exact ih htail hnot.2

omit [DecidableEq P] in
theorem mails_pos (hi : Orderly s) {p : P} {timeout : Option ℕ} {at₀ : Stage P}
    (hpc : s.pc p = .wait e timeout at₀) : 0 < s.mails e ↔ .wasmNotify e.ref ∈ s.mail p := by
  rw [State.mails, (hi.own p e timeout at₀ hpc).1]
  exact List.count_pos_iff

/-- A monitor on a living notifier: if it has not sent yet, it is the sender. -/
theorem exact_monitorAlive (hx : Exact s) (hi : Orderly s) (ht : Tidy s) {p pid : P}
    {timeout : Option ℕ} (hpc : s.pc p = .wait e timeout (.monitor pid)) :
    Exact (({ s with
      monitors := ⟨s.nextRef, p, pid⟩ :: s.monitors
      nextRef := s.nextRef + 1 } : State P).goto p (.wait e timeout (.receiveDown s.nextRef))) := by
  have hown := (hi.own p e timeout _ hpc).1
  have hfresh : .down s.nextRef ∉ s.mail p := fun h => absurd (ht.mailRef _ _ h) (lt_irrefl _)
  obtain ⟨hcoming, hunique⟩ : s.Coming e ∧ ∀ q, s.Sender q e → q = pid :=
    hx.during p e timeout _ hpc
  set s' := ({ s with
    monitors := ⟨s.nextRef, p, pid⟩ :: s.monitors
    nextRef := s.nextRef + 1 } : State P).goto p (.wait e timeout (.receiveDown s.nextRef))
  have hsender : ∀ q, s'.Sender q e ↔ s.Sender q e :=
    sender_of_wait hpc (State.goto_pc _ p · _) rfl e
  have hfate : SameFate s s' e := ⟨Iff.rfl, rfl, rfl, hsender⟩
  refine exact_wait hx hi hpc (State.goto_pc _ p · _) rfl rfl (fun _ _ => Iff.rfl) rfl
    (fun _ _ => rfl) (fun _ _ => rfl) (Nat.le_succ _) ?_
    ⟨hfate.coming hcoming, Nat.lt_succ_self _, ?_⟩
  · intro m hm hlt
    rcases List.mem_cons.mp hm with rfl | hm
    · exact absurd hlt (lt_irrefl _)
    · exact hm
  · rcases hcoming.owed with ⟨hone, -⟩ | ⟨-, q, hq⟩
    · left
      show (s.mail e.pid).find? _ = _
      rw [hown]
      exact find_wasmNotify ((mails_pos hi hpc).mp (by omega)) hfresh
    · right
      refine ⟨hown ▸ hfresh, ⟨q, (hsender q).mpr hq⟩, fun r hr m hm hmm => ?_⟩
      rcases List.mem_cons.mp hm with rfl | hm
      · exact (hunique r ((hsender r).mp hr)).symm
      · exact absurd hmm (ht.monRef m hm).ne

/-- A monitor on a dead notifier: senders are alive, so it has sent already. -/
theorem exact_monitorDead (hx : Exact s) (hi : Orderly s) (ht : Tidy s) {p pid : P}
    {timeout : Option ℕ} (hpc : s.pc p = .wait e timeout (.monitor pid))
    (hdead : s.alive pid = false) :
    Exact (({ s with
      nextRef := s.nextRef + 1
      mail := Function.update s.mail p (s.mail p ++ [.down s.nextRef]) } : State P).goto p
        (.wait e timeout (.receiveDown s.nextRef))) := by
  have hown := (hi.own p e timeout _ hpc).1
  have hfresh : .down s.nextRef ∉ s.mail p := fun h => absurd (ht.mailRef _ _ h) (lt_irrefl _)
  obtain ⟨hcoming, hunique⟩ : s.Coming e ∧ ∀ q, s.Sender q e → q = pid :=
    hx.during p e timeout _ hpc
  have hnone : ∀ q, ¬ s.Sender q e := by
    intro q hq
    have halive := hi.living q e _ hq (.inr rfl)
    rw [hunique q hq, hdead] at halive
    simp at halive
  have hone : s.mails e = 1 := by
    rcases hcoming.owed with ⟨hone, -⟩ | ⟨-, q, hq⟩
    · exact hone
    · exact absurd hq (hnone q)
  set s' := ({ s with
    nextRef := s.nextRef + 1
    mail := Function.update s.mail p (s.mail p ++ [.down s.nextRef]) } : State P).goto p
      (.wait e timeout (.receiveDown s.nextRef)) with hs'
  have hcount : ∀ x : Entry P, s'.mails x = s.mails x := by
    intro x
    simp only [State.mails, hs', State.goto_mail, Function.update_apply]
    split
    · rename_i hxp
      rw [List.count_append, hxp]
      simp
    · rfl
  have hfate : SameFate s s' e :=
    ⟨Iff.rfl, rfl, hcount e, sender_of_wait hpc (State.goto_pc _ p · _) rfl e⟩
  refine exact_wait hx hi hpc (State.goto_pc _ p · _) rfl rfl (fun _ _ => Iff.rfl) rfl
    (fun x _ => hcount x) (fun q hq => Function.update_of_ne hq _ _) (Nat.le_succ _)
    (fun _ hm _ => hm) ⟨hfate.coming hcoming, Nat.lt_succ_self _, .inl ?_⟩
  show (Function.update s.mail p (s.mail p ++ [.down s.nextRef]) e.pid).find? _ = _
  rw [hown, Function.update_self, List.find?_append,
    find_wasmNotify ((mails_pos hi hpc).mp (by omega)) hfresh]
  rfl

theorem exact_monitor (hx : Exact s) (hi : Orderly s) (ht : Tidy s) {p pid : P}
    {timeout : Option ℕ} (hpc : s.pc p = .wait e timeout (.monitor pid)) :
    Exact ((s.monitor p pid).goto p (.wait e timeout (.receiveDown s.nextRef))) := by
  unfold State.monitor
  split
  · exact exact_monitorAlive hx hi ht hpc
  · rename_i hdead
    have hp : s.alive p = true := ht.living p (by rw [hpc]; nofun)
    simp only [State.send, hp, if_true]
    exact exact_monitorDead hx hi ht hpc (by simpa using hdead)

omit [DecidableEq P] in
/-- The wakeup is first in the mailbox, so it is what `lost_the_race/1` receives. -/
theorem find_of_firstIs {p : P} {timeout : Option ℕ} {mon : Ref} (hi : Orderly s)
    (hpc : s.pc p = .wait e timeout (.receiveDown mon)) (hf : s.FirstIs e mon) {m : Mail}
    (hm : (s.mail p).find? (fun m => m = .wasmNotify e.ref ∨ m = .down mon) = some m) :
    m = .wasmNotify e.ref := by
  have hown := (hi.own p e timeout _ hpc).1
  rcases hf.first with h | ⟨hnot, -⟩
  · rw [hown, hm] at h
    exact Option.some.inj h
  · rw [hown] at hnot
    have hp := List.find?_some hm
    simp only [decide_eq_true_eq] at hp
    apply hp.resolve_right
    rintro rfl
    exact hnot (List.mem_of_find?_eq_some hm)

theorem exact_demonitor (hx : Exact s) (hi : Orderly s) {p : P} {timeout : Option ℕ} {mon : Ref}
    {n : ℕ} (hpc : s.pc p = .wait e timeout (.demonitor mon n)) :
    Exact ((s.demonitor p mon).goto p (.wait e timeout (.deleteObject n))) := by
  obtain ⟨hn, hspent⟩ : n ≠ 1 ∧ s.Spent e (woken n) := hx.during p e timeout _ hpc
  have hcount : ∀ x : Entry P,
      ((s.demonitor p mon).goto p (.wait e timeout (.deleteObject n))).mails x = s.mails x := by
    intro x
    simp only [State.mails, State.goto_mail, State.demonitor, Function.update_apply]
    split
    · rename_i hxp
      rw [List.count_erase_of_ne (by simp), hxp]
    · rfl
  have hfate : SameFate s ((s.demonitor p mon).goto p (.wait e timeout (.deleteObject n))) e :=
    ⟨Iff.rfl, rfl, hcount e, sender_of_wait hpc (State.goto_pc _ p · _) rfl e⟩
  exact exact_wait hx hi hpc (State.goto_pc _ p · _) rfl rfl (fun _ _ => Iff.rfl) rfl
    (fun x _ => hcount x) (fun q hq => Function.update_of_ne hq _ _) le_rfl
    (fun m hm _ => (List.mem_filter.mp hm).1) (.inr ⟨hn, hfate.spent hspent⟩)

/-- `ets:delete_object/2` in the `after` clause. -/
theorem exact_deleteObject (hx : Exact s) (hi : Orderly s) {p : P} {timeout : Option ℕ} {n : ℕ}
    (hpc : s.pc p = .wait e timeout (.deleteObject n)) :
    Exact ((s.deleteObject e).goto p (.wait e timeout (.deleteClaimed n))) := by
  rcases hx.during p e timeout _ hpc with ⟨hn, hlisted⟩ | ⟨-, hspent⟩
  · refine exact_claimOwn hx hi hpc hlisted fun t ht => ?_
    rw [hn]
    exact ht
  · have hrows : s.deleteObject e = s := by
      simp [State.deleteObject, List.erase_of_not_mem hspent.row]
    rw [hrows]
    exact exact_stay hx hi hpc ((sameFate_goto hpc rfl e).spent hspent)

theorem exact_flush (hx : Exact s) (hi : Orderly s) {p : P} {timeout : Option ℕ} {n : ℕ}
    (hpc : s.pc p = .wait e timeout (.flush n)) :
    Exact ((s.receive p (.wasmNotify e.ref)).answer p e.ref n) := by
  obtain ⟨hown, hmine⟩ := hi.own p e timeout _ hpc
  have hspent : s.Spent e (woken n) := hx.during p e timeout _ hpc
  have hno : .wasmNotify e.ref ∉ s.mail p := by
    intro h
    have hpos := (mails_pos hi hpc).mpr h
    rw [hspent.mails] at hpos
    exact absurd hpos (lt_irrefl 0)
  have hrec : s.receive p (.wasmNotify e.ref) = s := by
    simp [State.receive, List.erase_of_not_mem hno]
  rw [hrec]
  set s' := s.answer p e.ref n with hs'
  have hpc' : ∀ q, s'.pc q = if q = p then .idle else s.pc q := (State.goto_pc _ p · _)
  have hfate : ∀ x, SameFate s s' x := by
    intro x
    exact ⟨Iff.rfl, rfl, rfl, sender_of_wait hpc hpc' rfl x⟩
  have hwait : ∀ q x t at', s'.pc q = .wait x t at' → q ≠ p ∧ s.pc q = .wait x t at' := by
    intro q x t at' h
    rw [hpc' q] at h
    split at h
    · cases h
    · rename_i hq
      exact ⟨hq, h⟩
  have hprogress : ∀ x, x ∈ s.issued → (s'.InProgress x ↔ x ≠ e ∧ s.InProgress x) := by
    intro x hxi
    constructor
    · rintro ⟨t, at', h⟩
      obtain ⟨hq, h⟩ := hwait _ _ _ _ h
      exact ⟨fun hxe => hq (hxe ▸ hown), t, at', h⟩
    · rintro ⟨hne, t, at', h⟩
      refine ⟨t, at', ?_⟩
      rw [hpc', if_neg]
      · exact h
      · intro hxp
        rw [hxp, hpc] at h
        cases h
        exact hne rfl
  refine ⟨fun q x t at' h => ?_, fun x hxi hover => ?_, fun ref m h => ?_, ?_⟩
  · obtain ⟨-, h⟩ := hwait q x t at' h
    exact (hfate x).at (fun mon hf => hf.append (l := []) (List.append_nil _).symm le_rfl
      (hfate x).sender (fun _ hm _ => hm) (by simp)) (hx.during q x t at' h)
  · by_cases hxe : x = e
    · exact ⟨n, hxe ▸ List.mem_cons_self⟩
    · obtain ⟨m, hm⟩ := hx.after x hxi fun h => hover ((hprogress x hxi).mpr ⟨hxe, h⟩)
      exact ⟨m, List.mem_cons_of_mem _ hm⟩
  · rcases List.mem_cons.mp h with h | h
    · cases h
      exact ⟨e, hmine, rfl, fun h => ((hprogress e hmine).mp h).1 rfl, (hfate e).spent hspent⟩
    · obtain ⟨x, hxi, href, hover, hs⟩ := hx.answered ref m h
      exact ⟨x, hxi, href, fun h => hover ((hprogress x hxi).mp h).2, (hfate x).spent hs⟩
  · refine List.nodup_cons.mpr ⟨fun hmem => ?_, hx.once⟩
    obtain ⟨⟨ref, m⟩, hm, href⟩ := List.mem_map.mp hmem
    obtain ⟨x, hxi, hxref, hover, -⟩ := hx.answered ref m hm
    cases hi.functional x hxi e hmine (hxref.trans href)
    exact hover ⟨timeout, _, hown ▸ hpc⟩

/-! ## The notifier's steps -/

/-- The notifier moves without sending and without changing what decides a wait. -/
theorem exact_quiet (hx : Exact s) {p : P} {c : Pc P}
    (hidle : ∀ x timeout at', s.pc p ≠ .wait x timeout at')
    (hpc' : ∀ q, s'.pc q = if q = p then c else s.pc q)
    (hnotify : ∀ x timeout at', c ≠ .wait x timeout at')
    (hoffers : ∀ x, c.offers = some (x, .send) ↔ (s.pc p).offers = some (x, .send))
    (hrows : s'.rows = s.rows)
    (hwakes : s'.wakes = s.wakes) (hmail : s'.mail = s.mail) (hmon : s'.monitors = s.monitors)
    (hnext : s.nextRef ≤ s'.nextRef) (hissued : s'.issued = s.issued)
    (hanswers : s'.answers = s.answers) : Exact s' := by
  have hsender : ∀ x q, s'.Sender q x ↔ s.Sender q x := by
    intro x q
    unfold State.Sender
    rw [hpc' q]
    split
    · rename_i hq
      rw [hq]
      exact hoffers x
    · rfl
  have hfate : ∀ x, SameFate s s' x := by
    intro x
    refine ⟨by rw [hrows], ?_, ?_, hsender x⟩
    · rw [State.wakesOf, hwakes]
      rfl
    · rw [State.mails, hmail]
      rfl
  refine hx.carry ?_ hissued hanswers ?_ (fun x _ n => (hfate x).spent)
  · intro q x timeout at'
    rw [hpc' q]
    split
    · rename_i hq
      rw [hq]
      exact ⟨fun h => absurd h (hnotify x timeout at'), fun h => absurd h (hidle x timeout at')⟩
    · rfl
  · intro q x timeout at' _
    refine (hfate x).at fun mon hf => hf.append (l := []) ?_ hnext (hsender x) ?_ (by simp)
    · rw [hmail, List.append_nil]
    · exact fun m hm _ => hmon ▸ hm

/-- A notifier past its lookup stays a notifier. -/
theorem notify_iff {p : P} {call : Call} {at₀ : Round P} {c : Pc P}
    (hpc : s.pc p = .notify call at₀) (hpc' : ∀ q, s'.pc q = if q = p then c else s.pc q)
    (hnotify : ∀ x timeout at', c ≠ .wait x timeout at') (q : P) (x : Entry P)
    (timeout : Option ℕ) (at' : Stage P) :
    s'.pc q = .wait x timeout at' ↔ s.pc q = .wait x timeout at' := by
  rw [hpc' q]
  split
  · rename_i hq
    rw [hq, hpc]
    exact ⟨fun h => absurd h (hnotify x timeout at'), nofun⟩
  · rfl

omit [DecidableEq P] in
/-- The row of a dead agent is gone already: it never died inside a wait. -/
theorem row_of_dead (hx : Exact s) (hi : Orderly s) (ht : Tidy s) (he : e ∈ s.issued)
    (hdead : s.alive e.pid = false) : e ∉ s.rows := by
  have hover : ¬ s.InProgress e := by
    rintro ⟨timeout, at', h⟩
    have halive := ht.living e.pid (by rw [h]; nofun)
    simp [hdead] at halive
  obtain ⟨n, hspent⟩ := hx.spent hi he hover
  exact hspent.row

/-- `claim/1` succeeds: the wait is this notifier's, unless its process has given up on the value
and not looked at the table since. -/
theorem exact_claim (hx : Exact s) (hi : Orderly s) {p : P} {call : Call}
    {rest : List (Entry P)} {left n : ℕ}
    (hpc : s.pc p = .notify call (.offer e .claim rest left n)) (hrow : e ∈ s.rows)
    (hnot : ∀ timeout, s.pc e.pid ≠ .wait e timeout (.deleteObject 1)) :
    Exact ({ s.deleteObject e with wakes := (call.id, e.ref) :: s.wakes }.goto p
      (.notify call (.offer e .send rest left n))) := by
  set s' := ({ s.deleteObject e with wakes := (call.id, e.ref) :: s.wakes } : State P).goto p
    (.notify call (.offer e .send rest left n)) with hs'
  have hpc' : ∀ q, s'.pc q = if q = p then .notify call (.offer e .send rest left n) else s.pc q :=
    (State.goto_pc _ p · _)
  have hmine : e ∈ s.issued := hi.row e hrow
  have hsender : ∀ x q, x ≠ e → (s'.Sender q x ↔ s.Sender q x) := by
    intro x q hne
    unfold State.Sender
    rw [hpc' q]
    split
    · rename_i hq
      rw [hq, hpc]
      simp [Pc.offers, Ne.symm hne]
    · rfl
  have hfate : ∀ x ∈ s.issued, x ≠ e → SameFate s s' x := by
    intro x hxi hne
    have href : e.ref ≠ x.ref := fun h => hne (hi.functional x hxi e hmine h.symm)
    refine ⟨List.mem_erase_of_ne hne, ?_, rfl, fun q => hsender x q hne⟩
    simp [State.wakesOf, hs', href]
  have hcoming : s.Listed e → s'.Coming e := by
    intro hl
    refine ⟨?_, ?_, .inr ⟨hl.mails, p, ?_⟩⟩
    · show e ∉ s.rows.erase e
      exact hi.nodup.not_mem_erase
    · have hwakes := hl.wakes
      unfold State.wakesOf at hwakes
      simp [State.wakesOf, hs', hwakes]
    · rw [State.Sender, hpc', if_pos rfl]
      rfl
  refine hx.carry (notify_iff hpc hpc' fun _ _ _ h => by cases h) rfl rfl ?_ ?_
  · intro q x timeout at' hq hat
    obtain ⟨hxq, hxi⟩ := hi.own q x timeout at' hq
    by_cases hxe : x = e
    · -- whoever is still to be answered is answered by this notifier
      subst hxe
      have hl : s.Listed x := by
        rcases hat.fate with h | h | ⟨k, h⟩
        · exact h
        · exact absurd hrow h.row
        · exact absurd hrow h.row
      rcases hat.of_listed hl with rfl | rfl | rfl | rfl
      · exact .inr (hcoming hl)
      · exact .inr (hcoming hl)
      · exact .inr (hcoming hl)
      · exact absurd (hxq ▸ hq) (hnot timeout)
    · exact (hfate x hxi hxe).at (fun mon hf => hf.append (l := []) (List.append_nil _).symm
        le_rfl (fun r => hsender x r hxe) (fun _ hm _ => hm) (by simp)) hat
  · intro x hxi k hs
    by_cases hxe : x = e
    · exact absurd hrow (hxe ▸ hs.row)
    · exact (hfate x hxi hxe).spent hs

omit [DecidableEq P] in
/-- A sender has a waiter whose wakeup is coming. -/
theorem coming_of_sender (hx : Exact s) (hi : Orderly s) {p : P} (he : e ∈ s.issued)
    (hp : s.Sender p e) : s.Coming e ∧ s.InProgress e := by
  have hprogress : s.InProgress e := by
    by_contra hover
    obtain ⟨n, hspent⟩ := hx.spent hi he hover
    exact hspent.sender p hp
  refine ⟨?_, hprogress⟩
  obtain ⟨timeout, at', hpc⟩ := hprogress
  rcases (hx.during e.pid e timeout at' hpc).fate with h | h | ⟨n, h⟩
  · exact absurd hp (h.sender p)
  · exact h
  · exact absurd hp (h.sender p)

omit [DecidableEq P] in
/-- A wakeup that has come to a process still inside `lost_the_race/1` or before it. -/
theorem State.At.of_coming {at' : Stage P} (ha : s.At e at') (hwaits : at'.waits = true)
    (hc : s'.Coming e) (hnone : ∀ q, ¬ s'.Sender q e)
    (hfirst : ∀ mon, s.FirstIs e mon → s'.FirstIs e mon) : s'.At e at' := by
  cases at' with
  | read | receive | claimOwn => exact .inr hc
  | claimer => exact hc
  | receiveWoken => exact hc
  | monitor pid => exact ⟨hc, fun q hq => absurd hq (hnone q)⟩
  | receiveDown mon => exact ⟨hc, hfirst mon ha.2⟩
  | _ => simp [Stage.waits] at hwaits

/-- The send: what was coming is there. -/
theorem exact_send (hx : Exact s) (hi : Orderly s) (ht : Tidy s) {p : P} {call : Call}
    {rest : List (Entry P)} {left n : ℕ}
    (hpc : s.pc p = .notify call (.offer e .send rest left n)) :
    Exact ((s.send e.pid (.wasmNotify e.ref)).goto p
      (.notify call (.offer e (.unname true) rest left n))) := by
  have hp : s.Sender p e := by rw [State.Sender, hpc]; rfl
  have hmine : e ∈ s.issued := by
    apply hi.seen p
    rw [hpc]
    simp [Pc.seen, Round.seen]
  obtain ⟨hcoming, timeout₀, at₀, hpc₀⟩ := coming_of_sender hx hi hmine hp
  have hwaits := (hx.during e.pid e timeout₀ at₀ hpc₀).waits hcoming
  have hwaiting : s.Waiting e := by
    refine ⟨ht.living e.pid (fun h => by rw [hpc₀] at h; cases h), ?_⟩
    rw [hpc₀]
    simp [Pc.waits, hwaits]
  have hno : s.mails e = 0 := by
    rcases hcoming.owed with ⟨-, h⟩ | ⟨h, -⟩
    · exact absurd hp (h p)
    · exact h
  have halone : ∀ q, s.Sender q e → q = p := by
    intro q hq
    have hname := hi.named e q _ hwaiting hq
    rw [hi.named e p _ hwaiting hp, Option.some.injEq] at hname
    exact hname.symm
  simp only [State.send, hwaiting.1, if_true]
  set s' := ({ s with
    mail := Function.update s.mail e.pid (s.mail e.pid ++ [.wasmNotify e.ref]) } : State P).goto p
      (.notify call (.offer e (.unname true) rest left n)) with hs'
  have hpc' : ∀ q, s'.pc q =
      if q = p then .notify call (.offer e (.unname true) rest left n) else s.pc q :=
    (State.goto_pc _ p · _)
  have hsender : ∀ x q, x ≠ e → (s'.Sender q x ↔ s.Sender q x) := by
    intro x q hne
    unfold State.Sender
    rw [hpc' q]
    split
    · rename_i hq
      rw [hq, hpc]
      simp [Pc.offers, Ne.symm hne]
    · rfl
  have hnone : ∀ q, ¬ s'.Sender q e := by
    intro q hq
    rw [State.Sender, hpc' q] at hq
    split at hq
    · simp [Pc.offers] at hq
    · rename_i hne
      exact hne (halone q hq)
  have hmail : ∀ x : Entry P, s'.mail x.pid = s.mail x.pid ++
      if x.pid = e.pid then [.wasmNotify e.ref] else [] := by
    intro x
    simp only [hs', State.goto_mail, Function.update_apply]
    split
    · rename_i h
      rw [h]
    · rw [List.append_nil]
  have hfate : ∀ x ∈ s.issued, x ≠ e → SameFate s s' x := by
    intro x hxi hne
    have href : x.ref ≠ e.ref := fun h => hne (hi.functional x hxi e hmine h)
    refine ⟨Iff.rfl, rfl, ?_, fun q => hsender x q hne⟩
    rw [State.mails, hmail, List.count_append]
    split
    · simp [State.mails, Ne.symm href]
    · rfl
  have hcoming' : s'.Coming e := by
    refine ⟨hcoming.row, hcoming.wakes, .inl ⟨?_, hnone⟩⟩
    unfold State.mails at hno
    rw [State.mails, hmail, if_pos rfl, List.count_append, hno]
    simp
  -- the waiter that watches this notifier gets the message before any report
  have hfirst : ∀ mon, s.FirstIs e mon → s'.FirstIs e mon := by
    intro mon hf
    refine ⟨hf.made, .inl ?_⟩
    rw [hmail, if_pos rfl, List.find?_append]
    rcases hf.first with h | ⟨hnot, -⟩
    · rw [h]
      rfl
    · have hnone : (s.mail e.pid).find? (fun m => m = .wasmNotify e.ref ∨ m = .down mon) =
          none := by
        have hnot' : .wasmNotify e.ref ∉ s.mail e.pid := List.count_eq_zero.mp hno
        rw [List.find?_eq_none]
        intro m hm h
        simp only [decide_eq_true_eq] at h
        rcases h with rfl | rfl
        · exact hnot' hm
        · exact hnot hm
      rw [hnone]
      simp
  refine hx.carry (notify_iff hpc hpc' fun _ _ _ h => by cases h) rfl rfl ?_ ?_
  · intro q x timeout at' hq hat
    obtain ⟨hxq, hxi⟩ := hi.own q x timeout at' hq
    by_cases hxe : x = e
    · subst hxe
      exact hat.of_coming (hat.waits hcoming) hcoming' hnone hfirst
    · refine (hfate x hxi hxe).at (fun mon hf => hf.append (hmail x) le_rfl
        (fun r => hsender x r hxe) (fun _ hm _ => hm) ?_) hat
      intro m hm
      split at hm <;> simp at hm
  · intro x hxi k hs
    by_cases hxe : x = e
    · exact absurd hp (hxe ▸ hs.sender p)
    · exact (hfate x hxi hxe).spent hs

/-! ## Deaths -/

/-- Only the idle die: they send nothing, and what they are reported to have been watched for is
sent already. -/
theorem exact_die (hx : Exact s) {p : P} (hidle : s.pc p = .idle) : Exact (s.die p) := by
  have hfate : ∀ x, SameFate s (s.die p) x := by
    intro x
    refine ⟨Iff.rfl, rfl, ?_, fun q => Iff.rfl⟩
    simp only [State.mails, State.die, List.count_append, Nat.add_eq_left, List.count_eq_zero,
      State.downs, List.mem_map, not_exists, not_and]
    exact fun m _ => nofun
  refine hx.carry (fun _ _ _ _ => Iff.rfl) rfl rfl ?_ (fun x _ n => (hfate x).spent)
  intro q x timeout at' _
  refine (hfate x).at fun mon hf => hf.append (l := s.downs p x.pid) rfl le_rfl
    (fun _ => Iff.rfl) (fun m hm _ => (List.mem_filter.mp hm).1) ?_
  intro m hm r hr
  obtain ⟨y, hy, hym⟩ := List.mem_map.mp hm
  obtain ⟨hymem, hyp⟩ := List.mem_filter.mp hy
  simp only [decide_eq_true_eq] at hyp
  refine ⟨y, hymem, Mail.down.inj hym, ?_⟩
  rintro rfl
  rw [State.Sender, hyp.2, hidle] at hr
  simp [Pc.offers] at hr

/-! ## Every step -/

/-- The processes that die are idle, a wait that finds another value still has its row, and no
notifier takes the row of a wait that has. -/
def Undisturbed (s : State P) : Act P → Prop
  | .kill p => s.pc p = .idle
  | .read p false =>
      match s.pc p with
      | .wait e _ .read => e ∈ s.rows
      | _ => True
  | .go p =>
      match s.pc p with
      | .notify _ (.offer e .claim _ _ _) =>
          match s.pc e.pid with
          | .wait e' _ (.deleteObject 1) => e' ≠ e
          | _ => True
      | _ => True
  | _ => True

instance (s : State P) (a : Act P) : Decidable (Undisturbed s a) := by
  -- `casesOn` itself, so that the instance carries no equations of its own
  induction a using Act.casesOn with
  | read p equal =>
    induction equal using Bool.casesOn with
    | false =>
      dsimp only [Undisturbed]
      generalize s.pc p = c
      induction c using Pc.casesOn with
      | wait e timeout at' =>
        induction at' using Stage.casesOn with
        | read =>
          exact decidable_of_iff ((s.rows.any fun row => decide (row = e)) = true) (by simp)
        | _ => infer_instance
      | _ => infer_instance
    | true => exact inferInstanceAs (Decidable True)
  | go p =>
    dsimp only [Undisturbed]
    generalize s.pc p = c
    induction c using Pc.casesOn with
    | notify call at' =>
      induction at' using Round.casesOn with
      | offer e o rest left n =>
        induction o using Offer.casesOn with
        | claim =>
          dsimp only
          generalize s.pc e.pid = d
          induction d using Pc.casesOn with
          | wait e' timeout at₁ =>
            induction at₁ using Stage.casesOn with
            | deleteObject n =>
              induction n using Nat.casesOn with
              | zero => exact inferInstanceAs (Decidable True)
              | succ n =>
                induction n using Nat.casesOn with
                | zero => exact inferInstanceAs (Decidable (e' ≠ e))
                | succ n => exact inferInstanceAs (Decidable True)
            | _ => infer_instance
          | _ => infer_instance
        | _ => infer_instance
      | _ => infer_instance
    | _ => infer_instance
  | kill p => exact inferInstanceAs (Decidable (s.pc p = .idle))
  | _ => exact inferInstanceAs (Decidable True)

omit [DecidableEq P] in
theorem Undisturbed.safeDeath {a : Act P} (h : Undisturbed s a) : SafeDeath s a := by
  cases a with
  | kill p =>
    have hidle : s.pc p = .idle := h
    rw [SafeDeath, hidle]
    rfl
  | _ => trivial

theorem tidy_goto {p : P} (ht : Tidy s) (hp : s.alive p = true) (c : Pc P) :
    Tidy (s.goto p c) where
  living q hq := by
    rw [State.goto_pc] at hq
    split at hq
    · rename_i h
      exact h ▸ hp
    · exact ht.living q hq
  mailRef := ht.mailRef
  monRef := ht.monRef
  wakesRef := ht.wakesRef

omit [DecidableEq P] in
theorem Tidy.of_same (ht : Tidy s) (hpc : s'.pc = s.pc) (halive : s'.alive = s.alive)
    (hnext : s.nextRef ≤ s'.nextRef)
    (hmail : ∀ q, ∀ m ∈ s'.mail q, m ∈ s.mail q ∨ m.ref < s'.nextRef)
    (hmon : ∀ m ∈ s'.monitors, m ∈ s.monitors ∨ m.mon < s'.nextRef)
    (hwakes : ∀ w ∈ s'.wakes, w ∈ s.wakes ∨ w.2 < s'.nextRef) : Tidy s' where
  living q hq := halive ▸ ht.living q (hpc ▸ hq)
  mailRef q m hm := by
    rcases hmail q m hm with h | h
    · exact Nat.lt_of_lt_of_le (ht.mailRef q m h) hnext
    · exact h
  monRef m hm := by
    rcases hmon m hm with h | h
    · exact Nat.lt_of_lt_of_le (ht.monRef m h) hnext
    · exact h
  wakesRef w hw := by
    rcases hwakes w hw with h | h
    · exact Nat.lt_of_lt_of_le (ht.wakesRef w h) hnext
    · exact h

/-- The tables change, mailboxes and monitors do not. -/
theorem tidy_tables {p : P} (ht : Tidy s) (hp : s.alive p = true) {c : Pc P}
    (hpc : s'.pc = s.pc) (halive : s'.alive = s.alive) (hnext : s.nextRef ≤ s'.nextRef)
    (hmail : s'.mail = s.mail) (hmon : s'.monitors = s.monitors) (hwakes : s'.wakes = s.wakes) :
    Tidy (s'.goto p c) := by
  refine tidy_goto ?_ (halive ▸ hp) c
  exact ht.of_same hpc halive hnext (fun _ _ hm => .inl (hmail ▸ hm))
    (fun _ hm => .inl (hmon ▸ hm)) fun _ hw => .inl (hwakes ▸ hw)

theorem tidy_receive (ht : Tidy s) (p : P) (m : Mail) : Tidy (s.receive p m) := by
  refine ht.of_same rfl rfl le_rfl (fun q x hx => .inl ?_) (fun _ hm => .inl hm)
    fun _ hw => .inl hw
  simp only [State.receive, Function.update_apply] at hx
  split at hx
  · rename_i hq
    exact hq ▸ List.mem_of_mem_erase hx
  · exact hx

theorem tidy_send (ht : Tidy s) (p : P) {m : Mail} (hm : m.ref < s.nextRef) :
    Tidy (s.send p m) := by
  unfold State.send
  split
  · refine ht.of_same rfl rfl le_rfl (fun q x hx => ?_) (fun _ hm => .inl hm) fun _ hw => .inl hw
    simp only [Function.update_apply] at hx
    split at hx
    · rename_i hq
      rcases List.mem_append.mp hx with h | h
      · exact .inl (hq ▸ h)
      · rw [List.mem_singleton.mp h]
        exact .inr hm
    · exact .inl hx
  · exact ht

theorem tidy_monitor (ht : Tidy s) (p pid : P) : Tidy (s.monitor p pid) := by
  unfold State.monitor
  split
  · refine ht.of_same rfl rfl (Nat.le_succ _) (fun _ _ hm => .inl hm) (fun m hm => ?_)
      fun _ hw => .inl hw
    rcases List.mem_cons.mp hm with rfl | hm
    · exact .inr (Nat.lt_succ_self _)
    · exact .inl hm
  · refine tidy_send ?_ p (Nat.lt_succ_self _)
    exact ht.of_same rfl rfl (Nat.le_succ _) (fun _ _ hm => .inl hm) (fun _ hm => .inl hm)
      fun _ hw => .inl hw

theorem tidy_demonitor (ht : Tidy s) (p : P) (mon : Ref) : Tidy (s.demonitor p mon) := by
  refine ht.of_same rfl rfl le_rfl (fun q x hx => .inl ?_)
    (fun _ hm => .inl (List.mem_filter.mp hm).1) fun _ hw => .inl hw
  simp only [State.demonitor, Function.update_apply] at hx
  split at hx
  · rename_i hq
    exact hq ▸ List.mem_of_mem_erase hx
  · exact hx

theorem tidy_die (ht : Tidy s) {p : P} (hidle : s.pc p = .idle) : Tidy (s.die p) where
  living q hq := by
    have hqp : q ≠ p := by
      rintro rfl
      exact hq hidle
    show Function.update s.alive p false q = true
    rw [Function.update_of_ne hqp]
    exact ht.living q hq
  mailRef q m hm := by
    rcases List.mem_append.mp hm with h | h
    · exact ht.mailRef q m h
    · obtain ⟨x, hx, rfl⟩ := List.mem_map.mp h
      exact ht.monRef x (List.mem_filter.mp hx).1
  monRef m hm := ht.monRef m (List.mem_filter.mp hm).1
  wakesRef := ht.wakesRef

theorem waitStep_spec {p : P} {timeout : Option ℕ} {at' : Stage P} (hx : Exact s) (hi : Orderly s)
    (ht : Tidy s) (hp : s.alive p = true) (hpc : s.pc p = .wait e timeout at')
    (h : s.waitStep p e timeout at' = some s') : Exact s' ∧ Tidy s' := by
  have hat := hx.during p e timeout at' hpc
  cases at' with
  | insert =>
    cases h
    exact ⟨exact_insert hx hi hpc, tidy_tables ht hp rfl rfl le_rfl rfl rfl rfl⟩
  | read => simp [State.waitStep] at h
  | receive =>
    simp only [State.waitStep, Option.ite_none_right_eq_some, Option.some.injEq] at h
    obtain ⟨hmem, rfl⟩ := h
    exact ⟨exact_receive hx hi hpc hmem hat fun t ht => .inr ⟨fun h => (by cases h), ht⟩,
      tidy_goto (tidy_receive ht p _) hp _⟩
  | claimOwn =>
    simp only [State.waitStep] at h
    split at h
    · rename_i hrow
      cases h
      exact ⟨exact_claimOwn hx hi hpc (hat.resolve_right fun h => h.row hrow)
        fun t ht => .inr ⟨fun h => (by cases h), ht⟩, tidy_tables ht hp rfl rfl le_rfl rfl rfl rfl⟩
    · rename_i hrow
      cases h
      refine ⟨exact_stay hx hi hpc ?_, tidy_goto ht hp _⟩
      exact (sameFate_goto hpc rfl e).coming (hat.resolve_left fun h => hrow h.row)
  | claimer =>
    simp only [State.waitStep] at h
    split at h
    · cases h
      refine ⟨exact_stay hx hi hpc ?_, tidy_goto ht hp _⟩
      exact (sameFate_goto hpc rfl e).coming hat
    · rename_i pid hname
      cases h
      refine ⟨exact_stay hx hi hpc ⟨(sameFate_goto hpc rfl e).coming hat, fun q hq => ?_⟩,
        tidy_goto ht hp _⟩
      -- the one that has taken the row is the one that left its name
      have hown := (hi.own p e timeout _ hpc).1
      have hwaiting : s.Waiting e := by
        refine ⟨hown ▸ hp, ?_⟩
        rw [hown, hpc]
        rfl
      have hqs : s.Sender q e := ((sameFate_goto hpc rfl e).sender q).mp hq
      have hnamed := hi.named e q _ hwaiting hqs
      rw [hname, Option.some.injEq] at hnamed
      exact hnamed.symm
  | receiveWoken =>
    simp only [State.waitStep, Option.ite_none_right_eq_some, Option.some.injEq] at h
    obtain ⟨hmem, rfl⟩ := h
    exact ⟨exact_receive hx hi hpc hmem (.inr hat) fun t ht => .inr ⟨fun h => (by cases h), ht⟩,
      tidy_goto (tidy_receive ht p _) hp _⟩
  | monitor pid =>
    cases h
    have halive : (s.monitor p pid).alive p = true := by
      unfold State.monitor
      split <;> simp [hp]
    exact ⟨exact_monitor hx hi ht hpc, tidy_goto (tidy_monitor ht p pid) halive _⟩
  | receiveDown mon =>
    simp only [State.waitStep] at h
    split at h
    · rename_i ref hfind
      have href := find_of_firstIs hi hpc hat.2 hfind
      have hmem := List.mem_of_find?_eq_some hfind
      rw [href] at h hmem
      cases h
      exact ⟨exact_receive hx hi hpc hmem (.inr hat.1) fun t ht => ⟨fun h => (by cases h), ht⟩,
        tidy_goto (tidy_receive ht p _) hp _⟩
    · rename_i m hfind
      cases find_of_firstIs hi hpc hat.2 hfind
    · simp at h
  | demonitor mon n =>
    cases h
    exact ⟨exact_demonitor hx hi hpc, tidy_goto (tidy_demonitor ht p mon) hp _⟩
  | deleteObject n =>
    cases h
    exact ⟨exact_deleteObject hx hi hpc, tidy_tables ht hp rfl rfl le_rfl rfl rfl rfl⟩
  | deleteClaimed n =>
    cases h
    have hfate : SameFate s ((s.deleteClaimed e.ref).goto p (.wait e timeout (.flush n))) e :=
      ⟨Iff.rfl, rfl, rfl, sender_of_wait hpc (State.goto_pc _ p · _) rfl e⟩
    exact ⟨exact_wait hx hi hpc (State.goto_pc _ p · _) rfl rfl (fun _ _ => Iff.rfl) rfl
      (fun _ _ => rfl) (fun _ _ => rfl) le_rfl (fun _ hm _ => hm) (hfate.spent hat),
      tidy_tables ht hp rfl rfl le_rfl rfl rfl rfl⟩
  | flush n =>
    cases h
    refine ⟨exact_flush hx hi hpc, ?_⟩
    exact tidy_tables (tidy_receive ht p _) hp rfl rfl le_rfl rfl rfl rfl

theorem notifyStep_spec {p : P} {call : Call} {at' : Round P} (hx : Exact s) (hi : Orderly s)
    (ht : Tidy s) (hok : Undisturbed s (.go p)) (hp : s.alive p = true)
    (hpc : s.pc p = .notify call at') :
    Exact (s.notifyStep p call at') ∧ Tidy (s.notifyStep p call at') := by
  have hidle : ∀ x timeout at₁, s.pc p ≠ .wait x timeout at₁ := by
    intro x timeout at₁ h
    rw [hpc] at h
    cases h
  -- every step but the claim, the send and the removal of a dead agent's row
  have hquiet : ∀ at₁ : Round P, (∀ x, (Pc.notify call at₁).offers = some (x, .send) ↔
      (s.pc p).offers = some (x, .send)) →
      Exact (s.goto p (.notify call at₁)) ∧ Tidy (s.goto p (.notify call at₁)) := by
    intro at₁ hoffers
    exact ⟨exact_quiet hx hidle (State.goto_pc _ p · _) (fun _ _ _ h => by cases h) hoffers rfl rfl rfl
      rfl le_rfl rfl rfl, tidy_goto ht hp _⟩
  cases at' with
  | lookup => exact hquiet _ (by simp [hpc, Pc.offers])
  | live todo kept =>
    cases todo with
    | nil => exact hquiet _ (by simp [hpc, Pc.offers])
    | cons e todo =>
      simp only [State.notifyStep]
      split
      · exact hquiet _ (by simp [hpc, Pc.offers])
      · exact hquiet _ (by simp [hpc, Pc.offers])
  | deleteDead e todo kept =>
    have hmine : e ∈ s.issued := by
      apply hi.seen p
      rw [hpc]
      simp [Pc.seen, Round.seen]
    have hrows : s.deleteObject e = s := by
      have hgone := row_of_dead hx hi ht hmine (hi.dying p call e todo kept hpc)
      simp [State.deleteObject, List.erase_of_not_mem hgone]
    simp only [State.notifyStep, hrows]
    exact hquiet _ (by simp [hpc, Pc.offers])
  | wake waiters left n =>
    have hreport : Exact (s.report p call n) ∧ Tidy (s.report p call n) :=
      ⟨exact_quiet hx hidle (State.goto_pc _ p · _) (fun _ _ _ h => by cases h)
        (by simp [hpc, Pc.offers]) rfl rfl rfl rfl le_rfl rfl rfl,
        tidy_tables ht hp rfl rfl le_rfl rfl rfl rfl⟩
    cases left with
    | zero => cases waiters <;> exact hreport
    | succ left =>
      cases waiters with
      | nil => exact hreport
      | cons e rest =>
        simp only [State.notifyStep]
        split
        · exact hquiet _ (by simp [hpc, Pc.offers])
        · exact ⟨exact_quiet hx hidle (State.goto_pc _ p · _) (fun _ _ _ h => by cases h)
            (by simp [hpc, Pc.offers]) rfl rfl rfl rfl le_rfl rfl rfl,
            tidy_tables ht hp rfl rfl le_rfl rfl rfl rfl⟩
  | offer e o rest left n =>
    cases o with
    | claim =>
      simp only [State.notifyStep]
      split
      · rename_i hrow
        refine ⟨exact_claim hx hi hpc hrow fun timeout he => ?_, tidy_goto (s := { s.deleteObject e with
          wakes := (call.id, e.ref) :: s.wakes }) ?_ hp _⟩
        · simp [Undisturbed, hpc, he] at hok
        · refine ht.of_same rfl rfl le_rfl (fun _ _ hm => .inl hm) (fun _ hm => .inl hm)
            fun w hw => ?_
          rcases List.mem_cons.mp hw with rfl | hw
          · exact .inr (hi.issued e (hi.row e hrow))
          · exact .inl hw
      · exact hquiet _ (by simp [hpc, Pc.offers])
    | send =>
      have hmine : e ∈ s.issued := by
        apply hi.seen p
        rw [hpc]
        simp [Pc.seen, Round.seen]
      refine ⟨exact_send hx hi ht hpc,
        tidy_goto (tidy_send ht e.pid (m := .wasmNotify e.ref) (hi.issued e hmine)) ?_ _⟩
      rw [State.send_alive]
      exact hp
    | unname won =>
      refine ⟨exact_quiet hx hidle (State.goto_pc _ p · _) ?_ ?_ rfl rfl rfl rfl le_rfl rfl rfl,
        tidy_tables ht hp rfl rfl le_rfl rfl rfl rfl⟩
      · cases won <;> exact fun _ _ _ h => by cases h
      · cases won <;> simp [hpc, Pc.offers]

/-- A wait begun: its reference is new, so nobody has met it. -/
theorem exact_beginWait (hx : Exact s) (hi : Orderly s) (ht : Tidy s) {p : P}
    (hpc : s.pc p = .idle) (key : Key) (timeoutNs : ℤ) :
    Exact (s.beginWait p key timeoutNs) := by
  have hnew : ∀ x ∈ s.issued, x.ref ≠ s.nextRef := fun x hx => (hi.issued x hx).ne
  have hpc' : ∀ q, (s.beginWait p key timeoutNs).pc q =
      if q = p then .wait ⟨key, p, s.nextRef⟩ (timeoutMs timeoutNs) .insert else s.pc q :=
    (State.goto_pc _ p · _)
  have hsender : ∀ q x, (s.beginWait p key timeoutNs).Sender q x ↔ s.Sender q x := by
    intro q x
    unfold State.Sender
    rw [hpc' q]
    split
    · rename_i hq
      rw [hq, hpc]
      simp [Pc.offers]
    · rfl
  have hfate : ∀ x, SameFate s (s.beginWait p key timeoutNs) x := fun x =>
    ⟨Iff.rfl, rfl, rfl, fun q => hsender q x⟩
  have hprogress : ∀ x ∈ s.issued,
      ((s.beginWait p key timeoutNs).InProgress x ↔ s.InProgress x) := by
    intro x hxi
    unfold State.InProgress
    rw [hpc']
    split
    · rename_i hxp
      constructor
      · rintro ⟨timeout, at', h⟩
        cases h
        exact absurd rfl (hnew _ hxi)
      · rintro ⟨timeout, at', h⟩
        rw [hxp, hpc] at h
        cases h
    · rfl
  refine ⟨fun q x timeout at' h => ?_, fun x hxi hover => ?_, fun ref n h => ?_, hx.once⟩
  · rw [hpc'] at h
    split at h
    · cases h
      refine ⟨fun hrow => hnew _ (hi.row _ hrow) rfl, ?_, ?_, fun r hr => ?_⟩
      · rw [State.wakesOf, List.countP_eq_zero]
        intro w hw
        have hlt := ht.wakesRef w hw
        simpa using hlt.ne
      · rw [State.mails, List.count_eq_zero]
        intro hm
        exact absurd (ht.mailRef _ _ hm) (lt_irrefl _)
      · have hseen := Pc.mem_seen_of_offers ((hsender r _).mp hr)
        exact hnew _ (hi.seen r _ hseen) rfl
    · exact (hfate x).at (fun mon hf => hf.append (l := []) (List.append_nil _).symm
        (Nat.le_succ _) (fun r => hsender r x) (fun _ hm _ => hm) (by simp))
        (hx.during q x timeout at' h)
  · rcases List.mem_cons.mp hxi with rfl | hxi
    · refine absurd ⟨timeoutMs timeoutNs, .insert, ?_⟩ hover
      rw [hpc', if_pos rfl]
    · exact hx.after x hxi fun h => hover ((hprogress x hxi).mpr h)
  · obtain ⟨x, hxi, href, hover, hs⟩ := hx.answered ref n h
    exact ⟨x, List.mem_cons_of_mem _ hxi, href, fun h => hover ((hprogress x hxi).mp h),
      (hfate x).spent hs⟩

theorem exact_step {a : Act P} (hx : Exact s) (hi : Orderly s) (ht : Tidy s)
    (hok : Undisturbed s a) (h : step s a = some s') : Exact s' ∧ Tidy s' := by
  simp only [step, Option.ite_none_right_eq_some] at h
  obtain ⟨hp, h⟩ := h
  cases a with
  | wait p key timeoutNs =>
    simp only [State.act, Option.ite_none_right_eq_some, Option.some.injEq] at h
    obtain ⟨hpc, rfl⟩ := h
    exact ⟨exact_beginWait hx hi ht hpc key timeoutNs,
      tidy_tables ht hp rfl rfl (Nat.le_succ _) rfl rfl rfl⟩
  | notify p key count =>
    simp only [State.act, Option.ite_none_right_eq_some, Option.some.injEq] at h
    obtain ⟨hpc, rfl⟩ := h
    refine ⟨exact_quiet hx ?_ (State.goto_pc _ p · _) (fun _ _ _ h => by cases h)
      (by simp [hpc, Pc.offers]) rfl rfl rfl rfl (Nat.le_succ _) rfl rfl,
      tidy_tables ht hp rfl rfl (Nat.le_succ _) rfl rfl rfl⟩
    intro x timeout at' h
    rw [hpc] at h
    cases h
  | read p equal =>
    simp only [State.act] at h
    split at h
    · rename_i e timeout hpc
      cases h
      have hat := hx.during p e timeout _ hpc
      refine ⟨exact_stay hx hi hpc ?_, tidy_goto ht hp _⟩
      cases equal with
      | true => exact hat.imp (sameFate_goto hpc rfl e).listed (sameFate_goto hpc rfl e).coming
      | false =>
        -- the row is still there, so nobody has claimed the wait
        have hrow : e ∈ s.rows := by simpa [Undisturbed, hpc] using hok
        exact .inl ⟨rfl, (sameFate_goto hpc rfl e).listed (hat.resolve_right fun h => h.row hrow)⟩
    · simp at h
  | expire p =>
    simp only [State.act] at h
    split at h
    · rename_i e ms hpc
      cases h
      refine ⟨exact_stay hx hi hpc ?_, tidy_goto ht hp _⟩
      exact (hx.during p e _ _ hpc).imp (sameFate_goto hpc rfl e).listed
        (sameFate_goto hpc rfl e).coming
    · simp at h
  | go p =>
    simp only [State.act] at h
    split at h
    · simp at h
    · rename_i e timeout at' hpc
      exact waitStep_spec hx hi ht hp hpc h
    · rename_i call at' hpc
      cases h
      exact notifyStep_spec hx hi ht hok hp hpc
  | kill p =>
    cases h
    exact ⟨exact_die hx hok, tidy_die ht hok⟩

theorem exact_of_undisturbed (h : Run.ReachableIf step Undisturbed State.init s) :
    Exact s ∧ Tidy s ∧ Orderly s := by
  refine h.invariant (fun s => Exact s ∧ Tidy s ∧ Orderly s)
    ⟨exact_init, tidy_init, orderly_init⟩ ?_
  rintro s a s' ⟨hx, ht, hi⟩ hok hs
  have hstep := exact_step hx hi ht hok hs
  exact ⟨hstep.1, hstep.2, orderly_step hi hok.safeDeath hs⟩

end ErlangWasm.Wait
