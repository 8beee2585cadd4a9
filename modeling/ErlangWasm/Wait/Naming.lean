import ErlangWasm.Wait.Waiters

/-!
# Which notifier has which waiter

A wait that has not made up its mind is always findable: its row is in the table, or its wakeup is
in its mailbox, or one living notifier holds its name and stands before the send.  `Orderly` is the
invariant that says so, with what it takes to keep it: references belong to one wait each, a name
and the notifier that holds it go together, and a row once gone stays gone.

It survives every step but one kind: a notifier killed between naming a waiter and sending to it.
-/

namespace ErlangWasm.Wait

open Reasoning

variable {P : Type}

/-! ## What a process is doing -/

/-- Registered, and still to be answered by whoever comes first. -/
def Stage.waits : Stage P → Bool
  | .read | .receive | .claimOwn | .claimer | .receiveWoken | .monitor _ | .receiveDown _ => true
  | _ => false

/-- Inside `lost_the_race/1`. -/
def Stage.lost : Stage P → Bool
  | .claimer | .receiveWoken | .monitor _ | .receiveDown _ => true
  | _ => false

/-- The wait a process is undecided in. -/
def Pc.waits : Pc P → Option (Entry P)
  | .wait e _ at' => if at'.waits then some e else none
  | _ => none

/-- The waiter a notifier has named, and how far it got with it. -/
def Pc.offers : Pc P → Option (Entry P × Offer)
  | .notify _ (.offer e at' _ _ _) => some (e, at')
  | _ => none

/-- The rows a notifier has read out of the table and still to deal with. -/
def Round.seen : Round P → List (Entry P)
  | .lookup => []
  | .live todo kept => todo ++ kept
  | .deleteDead e todo kept => e :: todo ++ kept
  | .wake waiters _ _ => waiters
  | .offer e _ rest _ _ => e :: rest

def Pc.seen : Pc P → List (Entry P)
  | .notify _ at' => at'.seen
  | _ => []

theorem Pc.waits_eq_some {c : Pc P} {e : Entry P} (h : c.waits = some e) :
    ∃ timeout at', c = .wait e timeout at' ∧ at'.waits = true := by
  cases c with
  | wait e' timeout at' =>
    simp only [Pc.waits, Option.ite_none_right_eq_some, Option.some.injEq] at h
    exact ⟨timeout, at', by rw [h.2], h.1⟩
  | idle | notify => simp [Pc.waits] at h

theorem Pc.mem_seen_of_offers {c : Pc P} {e : Entry P} {o : Offer}
    (h : c.offers = some (e, o)) : e ∈ c.seen := by
  cases c with
  | notify call at' =>
    cases at' with
    | offer e' o' rest left n =>
      simp only [Pc.offers, Option.some.injEq, Prod.mk.injEq] at h
      rw [← h.1]
      exact List.mem_cons_self
    | _ => simp [Pc.offers] at h
  | idle | wait => simp [Pc.offers] at h

/-- A living agent inside a wait nobody has decided yet. -/
def State.Waiting (s : State P) (e : Entry P) : Prop :=
  s.alive e.pid = true ∧ (s.pc e.pid).waits = some e

/-- References, rows, names and notifiers fit together. -/
structure Orderly (s : State P) : Prop where
  own : ∀ p e timeout at', s.pc p = .wait e timeout at' → e.pid = p ∧ e ∈ s.issued
  seen : ∀ p, ∀ e ∈ (s.pc p).seen, e ∈ s.issued
  row : ∀ e ∈ s.rows, e ∈ s.issued
  issued : ∀ e ∈ s.issued, e.ref < s.nextRef
  functional : ∀ e ∈ s.issued, ∀ e' ∈ s.issued, e.ref = e'.ref → e = e'
  claimedRef : ∀ ref q, s.claimed.lookup ref = some q → ref < s.nextRef
  nodup : s.rows.Nodup
  unregistered : ∀ p e timeout, s.pc p = .wait e timeout .insert →
    e ∉ s.rows ∧ s.claimed.lookup e.ref = none ∧ ∀ q, e ∉ (s.pc q).seen
  -- a notifier past its claim found the row gone or took it
  offering : ∀ q e o, (s.pc q).offers = some (e, o) → o ≠ .claim → e ∉ s.rows
  living : ∀ q e o, (s.pc q).offers = some (e, o) → o = .claim ∨ o = .send → s.alive q = true
  dying : ∀ q call e todo kept, s.pc q = .notify call (.deleteDead e todo kept) →
    s.alive e.pid = false
  lost : ∀ p e timeout at', s.pc p = .wait e timeout at' → at'.lost = true → e ∉ s.rows
  named : ∀ e q o, s.Waiting e → (s.pc q).offers = some (e, o) → s.claimed.lookup e.ref = some q
  naming : ∀ e q, s.Waiting e → s.claimed.lookup e.ref = some q →
    ∃ o, (s.pc q).offers = some (e, o)
  coming : ∀ e, s.Waiting e → e ∉ s.rows →
    .wasmNotify e.ref ∈ s.mail e.pid ∨ ∃ q, (s.pc q).offers = some (e, .send)

theorem orderly_init : Orderly (State.init : State P) := by
  constructor <;> simp [State.init, Pc.seen, Pc.offers, State.Waiting, Pc.waits]

theorem Orderly.issued_of_waits {s : State P} (hi : Orderly s) {p : P} {e : Entry P}
    (h : (s.pc p).waits = some e) : e.pid = p ∧ e ∈ s.issued := by
  obtain ⟨timeout, at', hpc, -⟩ := Pc.waits_eq_some h
  exact hi.own p e timeout at' hpc

variable [DecidableEq P]

@[simp, grind =] theorem State.goto_pc (s : State P) (p q : P) (c : Pc P) :
    (s.goto p c).pc q = if q = p then c else s.pc q :=
  Function.update_apply ..

section Frame

variable (s : State P) (p : P) (c : Pc P)

@[simp, grind =] theorem State.goto_rows : (s.goto p c).rows = s.rows := rfl

@[simp, grind =] theorem State.goto_claimed : (s.goto p c).claimed = s.claimed := rfl

@[simp, grind =] theorem State.goto_alive : (s.goto p c).alive = s.alive := rfl

@[simp, grind =] theorem State.goto_mail : (s.goto p c).mail = s.mail := rfl

@[simp, grind =] theorem State.goto_nextRef : (s.goto p c).nextRef = s.nextRef := rfl

@[simp, grind =] theorem State.goto_monitors : (s.goto p c).monitors = s.monitors := rfl

@[simp, grind =] theorem State.goto_issued : (s.goto p c).issued = s.issued := rfl

@[simp, grind =] theorem State.goto_wakes : (s.goto p c).wakes = s.wakes := rfl

@[simp, grind =] theorem State.goto_answers : (s.goto p c).answers = s.answers := rfl

@[simp, grind =] theorem State.goto_reports : (s.goto p c).reports = s.reports := rfl

@[simp] theorem State.send_pc (m : Mail) : (s.send p m).pc = s.pc := by
  unfold State.send; split <;> rfl

@[simp] theorem State.send_rows (m : Mail) : (s.send p m).rows = s.rows := by
  unfold State.send; split <;> rfl

@[simp] theorem State.send_claimed (m : Mail) : (s.send p m).claimed = s.claimed := by
  unfold State.send; split <;> rfl

@[simp] theorem State.send_alive (m : Mail) : (s.send p m).alive = s.alive := by
  unfold State.send; split <;> rfl

@[simp] theorem State.send_issued (m : Mail) : (s.send p m).issued = s.issued := by
  unfold State.send; split <;> rfl

@[simp] theorem State.send_nextRef (m : Mail) : (s.send p m).nextRef = s.nextRef := by
  unfold State.send; split <;> rfl

end Frame

/-! ## The waiter's own steps -/

/-- The waiter moves inside its wait: the tables stay, no message is lost. -/
theorem orderly_stay {s s' : State P} (hi : Orderly s) {p : P} {e : Entry P}
    {timeout : Option ℕ} {at₀ at₁ : Stage P} (hpc : s.pc p = .wait e timeout at₀)
    (hpc' : ∀ q, s'.pc q = if q = p then .wait e timeout at₁ else s.pc q)
    (hinsert : at₁ ≠ .insert)
    (hwaits : at₁.waits = true → at₀.waits = true)
    (hlost : at₁.lost = true → e ∉ s.rows) (hrows : s'.rows = s.rows)
    (hclaimed : s'.claimed = s.claimed) (halive : s'.alive = s.alive)
    (hissued : s'.issued = s.issued) (hnext : s.nextRef ≤ s'.nextRef)
    (hmail : ∀ q m, m ∈ s.mail q → m ∈ s'.mail q) : Orderly s' := by
  have hseen : ∀ q, (s'.pc q).seen = (s.pc q).seen := by
    intro q
    rw [hpc' q]
    split
    · rename_i hq
      rw [hq, hpc]
      rfl
    · rfl
  have hoffers : ∀ q, (s'.pc q).offers = (s.pc q).offers := by
    intro q
    rw [hpc' q]
    split
    · rename_i hq
      rw [hq, hpc]
      rfl
    · rfl
  have hwaiting : ∀ x, s'.Waiting x → s.Waiting x := by
    intro x hx
    rw [State.Waiting, halive, hpc' x.pid] at hx
    refine ⟨hx.1, ?_⟩
    split at hx
    · rename_i hq
      rw [hq, hpc]
      simp only [Pc.waits, Option.ite_none_right_eq_some] at hx ⊢
      exact ⟨hwaits hx.2.1, hx.2.2⟩
    · exact hx.2
  constructor
  all_goals simp only [hseen, hoffers, hrows, hclaimed, halive, hissued]
  · grind [hi.own]
  · exact hi.seen
  · exact hi.row
  · exact fun x hx => Nat.lt_of_lt_of_le (hi.issued x hx) hnext
  · exact hi.functional
  · exact fun ref q h => Nat.lt_of_lt_of_le (hi.claimedRef ref q h) hnext
  · exact hi.nodup
  · grind [hi.unregistered]
  · exact hi.offering
  · exact hi.living
  · grind [hi.dying]
  · grind [hi.lost]
  · exact fun x q o hx => hi.named x q o (hwaiting x hx)
  · exact fun x q hx => hi.naming x q (hwaiting x hx)
  · intro x hx hrow
    apply (hi.coming x (hwaiting x hx) hrow).imp_left
    exact hmail _ _

/-- The waiter is decided and moves on: whatever it takes away is its own. -/
theorem orderly_leave {s s' : State P} (hi : Orderly s) {p : P} {e : Entry P}
    {timeout : Option ℕ} {at₀ : Stage P} {c : Pc P} (hpc : s.pc p = .wait e timeout at₀)
    (hpc' : ∀ q, s'.pc q = if q = p then c else s.pc q)
    (hc : c = .idle ∨ ∃ at₁, c = .wait e timeout at₁ ∧ at₁.waits = false ∧ at₁ ≠ .insert)
    (hrows : s'.rows = s.rows ∨ s'.rows = s.rows.erase e)
    (hclaimed : s'.claimed = s.claimed ∨ s'.claimed = s.claimed.erase e.ref)
    (halive : s'.alive = s.alive) (hissued : s'.issued = s.issued)
    (hnext : s'.nextRef = s.nextRef) (hmail : ∀ q, q ≠ p → s'.mail q = s.mail q) :
    Orderly s' := by
  obtain ⟨hown, hmine⟩ := hi.own p e timeout at₀ hpc
  have hseen : ∀ q, (s'.pc q).seen = (s.pc q).seen := by
    intro q
    rw [hpc' q]
    split
    · rename_i hq
      rw [hq, hpc]
      rcases hc with rfl | ⟨at₁, rfl, -⟩ <;> rfl
    · rfl
  have hoffers : ∀ q, (s'.pc q).offers = (s.pc q).offers := by
    intro q
    rw [hpc' q]
    split
    · rename_i hq
      rw [hq, hpc]
      rcases hc with rfl | ⟨at₁, rfl, -⟩ <;> rfl
    · rfl
  -- nobody else's wait is this one, so every other waiter finds its row, name and mail as before
  have hwaiting : ∀ x, s'.Waiting x → s.Waiting x ∧ x.pid ≠ p := by
    intro x hx
    rw [State.Waiting, halive, hpc' x.pid] at hx
    split at hx
    · rcases hc with rfl | ⟨at₁, rfl, hw, -⟩
      · simp [Pc.waits] at hx
      · simp [Pc.waits, hw] at hx
    · rename_i hq
      exact ⟨hx, hq⟩
  have hmem : ∀ x, x ∈ s'.rows → x ∈ s.rows := by
    intro x hx
    rcases hrows with h | h
    · exact h ▸ hx
    · exact List.mem_of_mem_erase (h ▸ hx)
  have hkept : ∀ x, x.pid ≠ p → x ∈ s.rows → x ∈ s'.rows := by
    intro x hx hrow
    rcases hrows with h | h
    · exact h ▸ hrow
    · rw [h]
      exact (List.mem_erase_of_ne (by grind)).mpr hrow
  have hlookup : ∀ ref q, s'.claimed.lookup ref = some q → s.claimed.lookup ref = some q := by
    intro ref q h
    rcases hclaimed with h' | h'
    · exact h' ▸ h
    · rw [h', Table.lookup_erase_eq] at h
      split at h
      · simp at h
      · exact h
  have hlookup' : ∀ x, x ∈ s.issued → x.pid ≠ p →
      s'.claimed.lookup x.ref = s.claimed.lookup x.ref := by
    intro x hx hp
    rcases hclaimed with h' | h'
    · rw [h']
    · rw [h', Table.lookup_erase_eq, if_neg]
      intro href
      exact hp (by rw [hi.functional x hx e hmine href, hown])
  constructor
  all_goals try simp only [hseen, hoffers, halive, hissued, hnext]
  · grind [hi.own]
  · exact hi.seen
  · exact fun x hx => hi.row x (hmem x hx)
  · exact hi.issued
  · exact hi.functional
  · exact fun ref q h => hi.claimedRef ref q (hlookup ref q h)
  · rcases hrows with h | h
    · exact h ▸ hi.nodup
    · exact h ▸ hi.nodup.erase e
  · intro q x t hx
    have hx' : s.pc q = .wait x t .insert := by grind
    obtain ⟨hrow, hname, hnone⟩ := hi.unregistered q x t hx'
    refine ⟨fun h => hrow (hmem x h), ?_, hnone⟩
    cases h : s'.claimed.lookup x.ref with
    | none => rfl
    | some r => simp [hlookup _ _ h] at hname
  · exact fun q x o ho hne h => hi.offering q x o ho hne (hmem x h)
  · exact hi.living
  · grind [hi.dying]
  · intro q x t at₁ hx hlost h
    have hrow := hi.lost q x t
    rw [hpc' q] at hx
    split at hx
    · rcases hc with rfl | ⟨at₂, rfl, hw, -⟩
      · simp at hx
      · cases at₁ <;> grind [Stage.lost, Stage.waits]
    · exact hrow at₁ hx hlost (hmem x h)
  · intro x q o hx ho
    obtain ⟨hx, hp⟩ := hwaiting x hx
    rw [hlookup' x (hi.issued_of_waits hx.2).2 hp]
    exact hi.named x q o hx ho
  · intro x q hx h
    exact hi.naming x q (hwaiting x hx).1 (hlookup _ _ h)
  · intro x hx hrow
    obtain ⟨hx, hp⟩ := hwaiting x hx
    rw [hmail x.pid hp]
    exact hi.coming x hx fun h => hrow (hkept x hp h)

theorem orderly_beginWait {s : State P} (hi : Orderly s) {p : P} (hpc : s.pc p = .idle)
    (key : Key) (timeoutNs : ℤ) : Orderly (s.beginWait p key timeoutNs) := by
  have hseen : ∀ q, ((s.beginWait p key timeoutNs).pc q).seen = (s.pc q).seen := by
    intro q
    simp only [State.beginWait, State.goto_pc]
    split
    · rename_i hq
      rw [hq, hpc]
      rfl
    · rfl
  have hoffers : ∀ q, ((s.beginWait p key timeoutNs).pc q).offers = (s.pc q).offers := by
    intro q
    simp only [State.beginWait, State.goto_pc]
    split
    · rename_i hq
      rw [hq, hpc]
      rfl
    · rfl
  have hwaiting : ∀ x, (s.beginWait p key timeoutNs).Waiting x → s.Waiting x := by
    intro x hx
    simp only [State.Waiting, State.beginWait, State.goto_pc] at hx
    split at hx
    · simp [Pc.waits, Stage.waits] at hx
    · exact hx
  constructor
  all_goals try simp only [hseen, hoffers]
  · simp only [State.beginWait, State.goto_pc]
    grind [hi.own]
  · exact fun q x hx => List.mem_cons_of_mem _ (hi.seen q x hx)
  · exact fun x hx => List.mem_cons_of_mem _ (hi.row x hx)
  · intro x hx
    rcases List.mem_cons.mp hx with rfl | hx
    · exact Nat.lt_succ_self _
    · exact Nat.lt_succ_of_lt (hi.issued x hx)
  · -- the new reference is above every old one
    intro x hx y hy href
    rcases List.mem_cons.mp hx with rfl | hx <;> rcases List.mem_cons.mp hy with rfl | hy
    · rfl
    · have hlt := hi.issued y hy
      rw [← href] at hlt
      exact absurd hlt (lt_irrefl _)
    · have hlt := hi.issued x hx
      rw [href] at hlt
      exact absurd hlt (lt_irrefl _)
    · exact hi.functional x hx y hy href
  · exact fun ref q h => Nat.lt_succ_of_lt (hi.claimedRef ref q h)
  · exact hi.nodup
  · intro q x t hx
    simp only [State.beginWait, State.goto_pc] at hx
    split at hx
    · -- nobody can have seen a reference that is only being made
      cases hx
      refine ⟨fun h => ?_, ?_, fun r h => ?_⟩
      · exact absurd (hi.issued _ (hi.row _ h)) (lt_irrefl _)
      · cases h : s.claimed.lookup s.nextRef with
        | none => exact h
        | some r => exact absurd (hi.claimedRef _ _ h) (lt_irrefl _)
      · exact absurd (hi.issued _ (hi.seen r _ h)) (lt_irrefl _)
    · exact hi.unregistered q x t hx
  · exact hi.offering
  · exact hi.living
  · intro q call x todo kept hx
    simp only [State.beginWait, State.goto_pc] at hx
    split at hx
    · simp at hx
    · exact hi.dying q call x todo kept hx
  · intro q x t at' hx hlost
    simp only [State.beginWait, State.goto_pc] at hx
    split at hx
    · cases hx
      simp [Stage.lost] at hlost
    · exact hi.lost q x t at' hx hlost
  · exact fun x q o hx => hi.named x q o (hwaiting x hx)
  · exact fun x q hx => hi.naming x q (hwaiting x hx)
  · exact fun x hx => hi.coming x (hwaiting x hx)

/-- `ets:insert/2` of the caller's own row: the wait can be found from here on. -/
theorem orderly_insert {s s' : State P} (hi : Orderly s) {p : P} {e : Entry P}
    {timeout : Option ℕ} (hpc : s.pc p = .wait e timeout .insert)
    (hpc' : ∀ q, s'.pc q = if q = p then .wait e timeout .read else s.pc q)
    (hrows : s'.rows = s.rows ++ [e]) (hclaimed : s'.claimed = s.claimed)
    (halive : s'.alive = s.alive) (hissued : s'.issued = s.issued)
    (hnext : s'.nextRef = s.nextRef) (hmail : s'.mail = s.mail) : Orderly s' := by
  obtain ⟨hown, hmine⟩ := hi.own p e timeout _ hpc
  obtain ⟨hrow, hname, hnone⟩ := hi.unregistered p e timeout hpc
  have hoffer : ∀ q o, (s.pc q).offers ≠ some (e, o) := fun q o h =>
    hnone q (Pc.mem_seen_of_offers h)
  obtain ⟨own, seen, row, issued, functional, claimedRef, nodup, unregistered, offering, living,
    dying, lost, named, naming, coming⟩ := hi
  constructor
  all_goals try simp only [State.Waiting, hclaimed, halive, hissued, hnext, hmail]
  · grind
  · grind [Pc.seen]
  · grind
  · exact issued
  · exact functional
  · exact claimedRef
  · grind [List.nodup_append]
  · grind [Pc.seen]
  · grind [Pc.offers]
  · grind [Pc.offers]
  · grind
  · grind [Stage.lost]
  · grind [State.Waiting, Pc.offers, Pc.waits]
  · grind [State.Waiting, Pc.offers, Pc.waits]
  · grind [State.Waiting, Pc.offers, Pc.waits]

/-! ## The notifier's steps -/

/-- The notifier moves and touches nothing; what it goes on with it had, or found in the table. -/
theorem orderly_quiet {s s' : State P} (hi : Orderly s) {p : P} {c : Pc P}
    (hoffers : (s.pc p).offers = none)
    (hpc' : ∀ q, s'.pc q = if q = p then c else s.pc q)
    (hnotify : c = .idle ∨ ∃ call at', c = .notify call at') (hnone : c.offers = none)
    (hseen : ∀ x ∈ c.seen, x ∈ (s.pc p).seen ∨ x ∈ s.rows)
    (hdead : ∀ call x todo kept, c = .notify call (.deleteDead x todo kept) →
      s.alive x.pid = false)
    (hrows : s'.rows = s.rows) (hclaimed : s'.claimed = s.claimed) (halive : s'.alive = s.alive)
    (hissued : s'.issued = s.issued) (hnext : s.nextRef ≤ s'.nextRef) (hmail : s'.mail = s.mail) :
    Orderly s' := by
  have hwait : ∀ q x timeout at', s'.pc q = .wait x timeout at' → s.pc q = .wait x timeout at' := by
    intro q x timeout at' h
    rw [hpc' q] at h
    split at h
    · rcases hnotify with rfl | ⟨call, at'', rfl⟩ <;> simp at h
    · exact h
  have hoffer : ∀ q, (s'.pc q).offers = (s.pc q).offers := by
    intro q
    rw [hpc' q]
    split
    · rename_i hq
      rw [hq, hnone, hoffers]
    · rfl
  have hsaw : ∀ q, ∀ x ∈ (s'.pc q).seen, x ∈ (s.pc q).seen ∨ x ∈ s.rows := by
    intro q x hx
    rw [hpc' q] at hx
    split at hx
    · rename_i hq
      exact hq ▸ hseen x hx
    · exact .inl hx
  have hwaiting : ∀ x, s'.Waiting x → s.Waiting x := by
    intro x hx
    rw [State.Waiting, halive] at hx
    refine ⟨hx.1, ?_⟩
    obtain ⟨timeout, at', hpc, hat⟩ := Pc.waits_eq_some hx.2
    rw [hwait _ _ _ _ hpc]
    simp [Pc.waits, hat]
  constructor
  all_goals try simp only [hoffer, hrows, hclaimed, halive, hissued, hmail]
  · exact fun q x timeout at' h => hi.own q x timeout at' (hwait _ _ _ _ h)
  · exact fun q x hx => (hsaw q x hx).elim (hi.seen q x) (hi.row x)
  · exact hi.row
  · exact fun x hx => Nat.lt_of_lt_of_le (hi.issued x hx) hnext
  · exact hi.functional
  · exact fun ref q h => Nat.lt_of_lt_of_le (hi.claimedRef ref q h) hnext
  · exact hi.nodup
  · intro q x timeout h
    obtain ⟨hrow, hname, hnot⟩ := hi.unregistered q x timeout (hwait _ _ _ _ h)
    exact ⟨hrow, hname, fun r hx => (hsaw r x hx).elim (hnot r) hrow⟩
  · exact hi.offering
  · exact hi.living
  · intro q call x todo kept h
    rw [hpc' q] at h
    split at h
    · exact hdead call x todo kept h
    · exact hi.dying q call x todo kept h
  · exact fun q x timeout at' h => hi.lost q x timeout at' (hwait _ _ _ _ h)
  · exact fun x q o hx => hi.named x q o (hwaiting x hx)
  · exact fun x q hx => hi.naming x q (hwaiting x hx)
  · exact fun x hx => hi.coming x (hwaiting x hx)

/-- `ets:delete_object/2` on the row of an agent that is dead. -/
theorem orderly_deleteDead {s s' : State P} (hi : Orderly s) {p : P} {call : Call} {e : Entry P}
    {todo kept : List (Entry P)} (hpc : s.pc p = .notify call (.deleteDead e todo kept))
    (hpc' : ∀ q, s'.pc q = if q = p then .notify call (.live todo kept) else s.pc q)
    (hrows : s'.rows = s.rows.erase e) (hclaimed : s'.claimed = s.claimed)
    (halive : s'.alive = s.alive) (hissued : s'.issued = s.issued)
    (hnext : s'.nextRef = s.nextRef) (hmail : s'.mail = s.mail) : Orderly s' := by
  have hdead := hi.dying p call e todo kept hpc
  have hseen : (s.pc p).seen = e :: todo ++ kept := by rw [hpc]; rfl
  have hmem : ∀ x, x ∈ s'.rows → x ∈ s.rows := by
    intro x hx
    exact List.mem_of_mem_erase (hrows ▸ hx)
  have hkept : ∀ x, s.alive x.pid = true → x ∈ s.rows → x ∈ s'.rows := by
    intro x hx hrow
    rw [hrows]
    refine (List.mem_erase_of_ne ?_).mpr hrow
    rintro rfl
    simp [hdead] at hx
  obtain ⟨own, seen, row, issued, functional, claimedRef, nodup, unregistered, offering, living,
    dying, lost, named, naming, coming⟩ := hi
  constructor
  all_goals try simp only [State.Waiting, hclaimed, halive, hissued, hnext, hmail]
  · grind
  · grind [Pc.seen, Round.seen]
  · grind
  · exact issued
  · exact functional
  · exact claimedRef
  · exact hrows ▸ nodup.erase e
  · grind [Pc.seen, Round.seen]
  · grind [Pc.offers]
  · grind [Pc.offers]
  · grind
  · grind
  · grind [State.Waiting, Pc.offers, Pc.waits]
  · grind [State.Waiting, Pc.offers, Pc.waits]
  · grind [State.Waiting, Pc.offers, Pc.waits]

/-- `ets:insert_new/2` of `{claimed, Ref}`: nobody else had the waiter. -/
theorem orderly_insertName {s s' : State P} (hi : Orderly s) {p : P} {call : Call} {e : Entry P}
    {rest : List (Entry P)} {left left' n : ℕ} (hp : s.alive p = true)
    (hpc : s.pc p = .notify call (.wake (e :: rest) left n))
    (hfree : s.claimed.lookup e.ref = none)
    (hpc' : ∀ q, s'.pc q =
      if q = p then .notify call (.offer e .claim rest left' n) else s.pc q)
    (hrows : s'.rows = s.rows) (hclaimed : s'.claimed = s.claimed.insert e.ref p)
    (halive : s'.alive = s.alive) (hissued : s'.issued = s.issued)
    (hnext : s'.nextRef = s.nextRef) (hmail : s'.mail = s.mail) : Orderly s' := by
  have hseen : (s.pc p).seen = e :: rest := by rw [hpc]; rfl
  have hoff : (s.pc p).offers = none := by rw [hpc]; rfl
  have hmine : e ∈ s.issued := hi.seen p e (by simp [hseen])
  -- a name is a reference, and the reference says which wait is meant
  have hsame : ∀ x, (s.pc x.pid).waits = some x → x.ref = e.ref → x = e := by
    intro x hx href
    exact hi.functional x (hi.issued_of_waits hx).2 e hmine href
  have hlookup : ∀ ref, s'.claimed.lookup ref =
      if ref = e.ref then some p else s.claimed.lookup ref := by
    intro ref
    rw [hclaimed, Table.lookup_insert_eq]
  obtain ⟨own, seen, row, issued, functional, claimedRef, nodup, unregistered, offering, living,
    dying, lost, named, naming, coming⟩ := hi
  constructor
  all_goals try simp only [State.Waiting, halive, hissued, hnext, hmail, hrows]
  · grind
  · grind [Pc.seen, Round.seen]
  · exact row
  · exact issued
  · exact functional
  · grind
  · exact nodup
  · grind [Pc.seen, Round.seen]
  · grind [Pc.offers]
  · grind [Pc.offers]
  · grind
  · grind
  · grind [State.Waiting, Pc.offers, Pc.waits]
  · rintro x q ⟨hx, hw⟩ h
    have hne : x.pid ≠ p := by
      intro hxp
      simp [hpc', hxp, Pc.waits] at hw
    rw [hpc', if_neg hne] at hw
    rw [hlookup] at h
    split at h
    · rename_i href
      cases hsame x hw href
      cases h
      refine ⟨.claim, ?_⟩
      rw [hpc', if_pos rfl]
      rfl
    · have ho := naming x q ⟨hx, hw⟩ h
      grind
  · grind [State.Waiting, Pc.offers, Pc.waits]

/-- `claim/1` by a notifier: whether or not the row was still there, it is gone now. -/
theorem orderly_claim {s s' : State P} (hi : Orderly s) {p : P} {call : Call} {e : Entry P}
    {rest : List (Entry P)} {left n : ℕ} {o : Offer} (hp : s.alive p = true)
    (hpc : s.pc p = .notify call (.offer e .claim rest left n))
    (hpc' : ∀ q, s'.pc q = if q = p then .notify call (.offer e o rest left n) else s.pc q)
    (hsend : e ∈ s.rows → o = .send)
    (hrows : s'.rows = s.rows.erase e) (hclaimed : s'.claimed = s.claimed)
    (halive : s'.alive = s.alive) (hissued : s'.issued = s.issued)
    (hnext : s'.nextRef = s.nextRef) (hmail : s'.mail = s.mail) : Orderly s' := by
  have hseen : (s.pc p).seen = e :: rest := by rw [hpc]; rfl
  have hoff : (s.pc p).offers = some (e, .claim) := by rw [hpc]; rfl
  have hoff' : (s'.pc p).offers = some (e, o) := by rw [hpc', if_pos rfl]; rfl
  have hmem : ∀ x, x ∈ s'.rows ↔ x ≠ e ∧ x ∈ s.rows := by
    intro x
    rw [hrows, hi.nodup.mem_erase_iff]
  obtain ⟨own, seen, row, issued, functional, claimedRef, nodup, unregistered, offering, living,
    dying, lost, named, naming, coming⟩ := hi
  constructor
  all_goals try simp only [State.Waiting, hclaimed, halive, hissued, hnext, hmail]
  · grind
  · grind [Pc.seen, Round.seen]
  · grind
  · exact issued
  · exact functional
  · exact claimedRef
  · exact hrows ▸ nodup.erase e
  · grind [Pc.seen, Round.seen]
  · grind [Pc.offers]
  · grind [Pc.offers]
  · grind
  · grind
  · grind [State.Waiting, Pc.offers, Pc.waits]
  · grind [State.Waiting, Pc.offers, Pc.waits]
  · rintro x ⟨hx, hw⟩ hrow
    have hne : x.pid ≠ p := by
      intro hxp
      simp [hpc', hxp, Pc.waits] at hw
    rw [hpc', if_neg hne] at hw
    by_cases htaken : x = e ∧ e ∈ s.rows
    · refine .inr ⟨p, ?_⟩
      rw [hoff', hsend htaken.2, htaken.1]
    · have hnot : x ∉ s.rows := by grind
      apply (coming x ⟨hx, hw⟩ hnot).imp_right
      rintro ⟨q, hq⟩
      refine ⟨q, ?_⟩
      rw [hpc', if_neg]
      · exact hq
      · rintro rfl
        simp [hoff] at hq

/-- The send: a living waiter has its wakeup. -/
theorem orderly_send {s s' : State P} (hi : Orderly s) {p : P} {call : Call} {e : Entry P}
    {rest : List (Entry P)} {left n : ℕ} {won : Bool}
    (hpc : s.pc p = .notify call (.offer e .send rest left n))
    (hpc' : ∀ q, s'.pc q =
      if q = p then .notify call (.offer e (.unname won) rest left n) else s.pc q)
    (hrows : s'.rows = s.rows) (hclaimed : s'.claimed = s.claimed)
    (halive : s'.alive = s.alive) (hissued : s'.issued = s.issued)
    (hnext : s'.nextRef = s.nextRef) (hmail : ∀ q m, m ∈ s.mail q → m ∈ s'.mail q)
    (hsent : s.alive e.pid = true → .wasmNotify e.ref ∈ s'.mail e.pid) : Orderly s' := by
  have hseen : (s.pc p).seen = e :: rest := by rw [hpc]; rfl
  have hoff : (s.pc p).offers = some (e, .send) := by rw [hpc]; rfl
  obtain ⟨own, seen, row, issued, functional, claimedRef, nodup, unregistered, offering, living,
    dying, lost, named, naming, coming⟩ := hi
  constructor
  all_goals try simp only [State.Waiting, hclaimed, halive, hissued, hnext, hrows]
  · grind
  · grind [Pc.seen, Round.seen]
  · exact row
  · exact issued
  · exact functional
  · exact claimedRef
  · exact nodup
  · grind [Pc.seen, Round.seen]
  · grind [Pc.offers]
  · grind [Pc.offers]
  · grind
  · grind
  · grind [State.Waiting, Pc.offers, Pc.waits]
  · grind [State.Waiting, Pc.offers, Pc.waits]
  · grind [State.Waiting, Pc.offers, Pc.waits]

/-- `ets:delete/2` of the name, after the send or after a claim that came too late. -/
theorem orderly_unname {s s' : State P} (hi : Orderly s) {p : P} {call : Call} {e : Entry P}
    {rest : List (Entry P)} {left left' n n' : ℕ} {won : Bool}
    (hpc : s.pc p = .notify call (.offer e (.unname won) rest left n))
    (hpc' : ∀ q, s'.pc q = if q = p then .notify call (.wake rest left' n') else s.pc q)
    (hrows : s'.rows = s.rows) (hclaimed : s'.claimed = s.claimed.erase e.ref)
    (halive : s'.alive = s.alive) (hissued : s'.issued = s.issued)
    (hnext : s'.nextRef = s.nextRef) (hmail : s'.mail = s.mail) : Orderly s' := by
  have hseen : (s.pc p).seen = e :: rest := by rw [hpc]; rfl
  have hoff : (s.pc p).offers = some (e, .unname won) := by rw [hpc]; rfl
  have hmine : e ∈ s.issued := hi.seen p e (by simp [hseen])
  have hsame : ∀ x, (s.pc x.pid).waits = some x → x.ref = e.ref → x = e := by
    intro x hx href
    exact hi.functional x (hi.issued_of_waits hx).2 e hmine href
  have hlookup : ∀ ref, s'.claimed.lookup ref =
      if ref = e.ref then none else s.claimed.lookup ref := by
    intro ref
    rw [hclaimed, Table.lookup_erase_eq]
  obtain ⟨own, seen, row, issued, functional, claimedRef, nodup, unregistered, offering, living,
    dying, lost, named, naming, coming⟩ := hi
  constructor
  all_goals try simp only [State.Waiting, halive, hissued, hnext, hmail, hrows]
  · grind
  · grind [Pc.seen, Round.seen]
  · exact row
  · exact issued
  · exact functional
  · grind
  · exact nodup
  · grind [Pc.seen, Round.seen]
  · grind [Pc.offers]
  · grind [Pc.offers]
  · grind
  · grind
  · grind [State.Waiting, Pc.offers, Pc.waits]
  · grind [State.Waiting, Pc.offers, Pc.waits]
  · grind [State.Waiting, Pc.offers, Pc.waits]

/-! ## Deaths -/

/-- A death in any place but between naming a waiter and sending to it. -/
theorem orderly_die {s s' : State P} (hi : Orderly s) {p : P}
    (hfree : ∀ e o, (s.pc p).offers = some (e, o) → o ≠ .claim ∧ o ≠ .send)
    (hpc' : s'.pc = s.pc) (hrows : s'.rows = s.rows) (hclaimed : s'.claimed = s.claimed)
    (halive : ∀ q, s'.alive q = if q = p then false else s.alive q)
    (hissued : s'.issued = s.issued) (hnext : s'.nextRef = s.nextRef)
    (hmail : ∀ q m, m ∈ s.mail q → m ∈ s'.mail q) : Orderly s' := by
  have hwaiting : ∀ x, s'.Waiting x → s.Waiting x := by
    intro x hx
    rw [State.Waiting, halive, hpc'] at hx
    split at hx
    · simp at hx
    · exact hx
  constructor
  all_goals try simp only [hpc', hclaimed, hissued, hnext, hrows]
  · exact hi.own
  · exact hi.seen
  · exact hi.row
  · exact hi.issued
  · exact hi.functional
  · exact hi.claimedRef
  · exact hi.nodup
  · exact hi.unregistered
  · exact hi.offering
  · intro q x o ho hpend
    rw [halive, if_neg]
    · exact hi.living q x o ho hpend
    · rintro rfl
      obtain ⟨hclaim, hsend⟩ := hfree x o ho
      exact hpend.elim hclaim hsend
  · intro q call x todo kept h
    rw [halive, hi.dying q call x todo kept h, ite_self]
  · exact hi.lost
  · exact fun x q o hx => hi.named x q o (hwaiting x hx)
  · exact fun x q hx => hi.naming x q (hwaiting x hx)
  · intro x hx hrow
    apply (hi.coming x (hwaiting x hx) hrow).imp_left
    exact hmail _ _

/-! ## Every step -/

/-- Between naming a waiter and sending to it. -/
def Pc.pending : Pc P → Bool
  | .notify _ (.offer _ .claim _ _ _) | .notify _ (.offer _ .send _ _ _) => true
  | _ => false

omit [DecidableEq P] in
theorem Pc.offers_of_not_pending {c : Pc P} (h : c.pending = false) (e : Entry P) (o : Offer)
    (ho : c.offers = some (e, o)) : o ≠ .claim ∧ o ≠ .send := by
  cases c with
  | notify call at' =>
    cases at' with
    | offer e' o' rest left n =>
      simp only [Pc.offers, Option.some.injEq, Prod.mk.injEq] at ho
      obtain ⟨rfl, rfl⟩ := ho
      cases o' <;> simp_all [Pc.pending]
    | _ => simp [Pc.offers] at ho
  | idle | wait => simp [Pc.offers] at ho

/-- No notifier dies between naming a waiter and sending to it. -/
def SafeDeath (s : State P) : Act P → Prop
  | .kill p => (s.pc p).pending = false
  | _ => True

instance (s : State P) (a : Act P) : Decidable (SafeDeath s a) := by
  cases a <;> unfold SafeDeath <;> infer_instance

theorem State.mem_receive {s : State P} {p q : P} {m : Mail} (hq : q ≠ p) :
    (s.receive p m).mail q = s.mail q := by
  exact Function.update_of_ne hq _ _

theorem State.mem_send {s : State P} (p q : P) (m m' : Mail) (h : m' ∈ s.mail q) :
    m' ∈ (s.send p m).mail q := by
  unfold State.send
  split
  · simp only [Function.update_apply]
    split
    · rename_i hq
      exact List.mem_append_left _ (hq ▸ h)
    · exact h
  · exact h

theorem orderly_waitStep {s s' : State P} (hi : Orderly s) {p : P} {e : Entry P}
    {timeout : Option ℕ} {at' : Stage P} (hpc : s.pc p = .wait e timeout at')
    (h : s.waitStep p e timeout at' = some s') : Orderly s' := by
  cases at' with
  | insert =>
    cases h
    exact orderly_insert hi hpc (State.goto_pc _ _ · _) rfl rfl rfl rfl rfl rfl
  | read => simp [State.waitStep] at h
  | receive =>
    simp only [State.waitStep, Option.ite_none_right_eq_some, Option.some.injEq] at h
    obtain ⟨-, rfl⟩ := h
    exact orderly_leave hi hpc (State.goto_pc _ _ · _) (.inr ⟨_, rfl, rfl, nofun⟩) (.inl rfl)
      (.inl rfl) rfl rfl rfl fun q hq => State.mem_receive hq
  | claimOwn =>
    simp only [State.waitStep] at h
    split at h
    · cases h
      exact orderly_leave hi hpc (State.goto_pc _ _ · _) (.inr ⟨_, rfl, rfl, nofun⟩) (.inr rfl)
        (.inl rfl) rfl rfl rfl fun q hq => rfl
    · rename_i hrow
      cases h
      exact orderly_stay hi hpc (State.goto_pc _ _ · _) nofun (fun _ => rfl) (fun _ => hrow)
        rfl rfl rfl rfl le_rfl fun q m hm => hm
  | claimer =>
    have hrow := hi.lost p e timeout _ hpc rfl
    simp only [State.waitStep] at h
    split at h
    all_goals
      cases h
      exact orderly_stay hi hpc (State.goto_pc _ _ · _) nofun (fun _ => rfl) (fun _ => hrow)
        rfl rfl rfl rfl le_rfl fun q m hm => hm
  | receiveWoken =>
    simp only [State.waitStep, Option.ite_none_right_eq_some, Option.some.injEq] at h
    obtain ⟨-, rfl⟩ := h
    exact orderly_leave hi hpc (State.goto_pc _ _ · _) (.inr ⟨_, rfl, rfl, nofun⟩) (.inl rfl)
      (.inl rfl) rfl rfl rfl fun q hq => State.mem_receive hq
  | monitor pid =>
    have hrow := hi.lost p e timeout _ hpc rfl
    cases h
    unfold State.monitor
    split
    · exact orderly_stay hi hpc (State.goto_pc _ _ · _) nofun (fun _ => rfl) (fun _ => hrow)
        rfl rfl rfl rfl (Nat.le_succ _) fun q m hm => hm
    · apply orderly_stay hi hpc 
      · intro q
        rw [State.goto_pc, State.send_pc]
      all_goals simp [Stage.waits, hrow]
      exact fun q m hm => State.mem_send _ _ _ _ hm
  | receiveDown mon =>
    simp only [State.waitStep] at h
    split at h
    · cases h
      exact orderly_leave hi hpc (State.goto_pc _ _ · _) (.inr ⟨_, rfl, rfl, nofun⟩) (.inl rfl)
        (.inl rfl) rfl rfl rfl fun q hq => State.mem_receive hq
    · cases h
      exact orderly_leave hi hpc (State.goto_pc _ _ · _) (.inr ⟨_, rfl, rfl, nofun⟩) (.inl rfl)
        (.inl rfl) rfl rfl rfl fun q hq => State.mem_receive hq
    · simp at h
  | demonitor mon n =>
    cases h
    exact orderly_leave hi hpc (State.goto_pc _ _ · _) (.inr ⟨_, rfl, rfl, nofun⟩) (.inl rfl)
      (.inl rfl) rfl rfl rfl fun q hq => Function.update_of_ne hq _ _
  | deleteObject n =>
    cases h
    exact orderly_leave hi hpc (State.goto_pc _ _ · _) (.inr ⟨_, rfl, rfl, nofun⟩) (.inr rfl)
      (.inl rfl) rfl rfl rfl fun q hq => rfl
  | deleteClaimed n =>
    cases h
    exact orderly_leave hi hpc (State.goto_pc _ _ · _) (.inr ⟨_, rfl, rfl, nofun⟩) (.inl rfl)
      (.inr rfl) rfl rfl rfl fun q hq => rfl
  | flush n =>
    cases h
    exact orderly_leave hi hpc (State.goto_pc _ _ · _) (.inl rfl) (.inl rfl)
      (.inl rfl) rfl rfl rfl fun q hq => State.mem_receive hq

theorem orderly_notifyStep {s : State P} (hi : Orderly s) {p : P} {call : Call} {at' : Round P}
    (hp : s.alive p = true) (hpc : s.pc p = .notify call at') :
    Orderly (s.notifyStep p call at') := by
  have hseen : (s.pc p).seen = at'.seen := by rw [hpc]; rfl
  cases at' with
  | lookup =>
    have hoff : (s.pc p).offers = none := by rw [hpc]; rfl
    refine orderly_quiet hi hoff (State.goto_pc _ _ · _) (.inr ⟨_, _, rfl⟩) rfl ?_ nofun
      rfl rfl rfl rfl le_rfl rfl
    intro x hx
    simp only [Pc.seen, Round.seen, List.append_nil, List.mem_filter] at hx
    exact .inr hx.1
  | live todo kept =>
    have hoff : (s.pc p).offers = none := by rw [hpc]; rfl
    cases todo with
    | nil =>
      refine orderly_quiet hi hoff (State.goto_pc _ _ · _) (.inr ⟨_, _, rfl⟩) rfl ?_ nofun
        rfl rfl rfl rfl le_rfl rfl
      intro x hx
      exact .inl (hseen ▸ hx)
    | cons e todo =>
      simp only [State.notifyStep]
      split
      · refine orderly_quiet hi hoff (State.goto_pc _ _ · _) (.inr ⟨_, _, rfl⟩) rfl ?_ nofun
          rfl rfl rfl rfl le_rfl rfl
        intro x hx
        rw [hseen]
        simp only [Pc.seen, Round.seen, List.mem_append, List.mem_cons, List.not_mem_nil] at hx ⊢
        grind
      · rename_i hdead
        refine orderly_quiet hi hoff (State.goto_pc _ _ · _) (.inr ⟨_, _, rfl⟩) rfl ?_ ?_
          rfl rfl rfl rfl le_rfl rfl
        · intro x hx
          exact .inl (hseen ▸ hx)
        · intro call' x todo' kept' h
          cases h
          simpa using hdead
  | deleteDead e todo kept =>
    exact orderly_deleteDead hi hpc (State.goto_pc _ _ · _) rfl rfl rfl rfl rfl rfl
  | wake waiters left n =>
    have hoff : (s.pc p).offers = none := by rw [hpc]; rfl
    have hreport : Orderly (s.report p call n) :=
      orderly_quiet hi hoff (State.goto_pc _ _ · _) (.inl rfl) rfl (fun x hx => by cases hx) nofun
        rfl rfl rfl rfl le_rfl rfl
    cases left with
    | zero => cases waiters <;> exact hreport
    | succ left =>
      cases waiters with
      | nil => exact hreport
      | cons e rest =>
        simp only [State.notifyStep]
        split
        · refine orderly_quiet hi hoff (State.goto_pc _ _ · _) (.inr ⟨_, _, rfl⟩) rfl ?_ nofun
            rfl rfl rfl rfl le_rfl rfl
          intro x hx
          rw [hseen]
          exact .inl (List.mem_cons_of_mem e hx)
        · rename_i hfree
          exact orderly_insertName hi hp hpc hfree (State.goto_pc _ _ · _) rfl rfl rfl rfl rfl rfl
  | offer e at' rest left n =>
    cases at' with
    | claim =>
      simp only [State.notifyStep]
      split
      · exact orderly_claim hi hp hpc (State.goto_pc _ _ · _) (fun _ => rfl) rfl rfl rfl rfl rfl rfl
      · rename_i hrow
        exact orderly_claim hi hp hpc (State.goto_pc _ _ · _) (fun h => absurd h hrow)
          (List.erase_of_not_mem hrow).symm rfl rfl rfl rfl rfl
    | send =>
      apply orderly_send hi hpc
      · intro q
        rw [State.notifyStep, State.goto_pc, State.send_pc]
      all_goals simp only [State.notifyStep, State.goto_rows, State.goto_claimed,
        State.goto_alive, State.goto_issued, State.goto_nextRef, State.goto_mail,
        State.send_rows, State.send_claimed, State.send_alive, State.send_issued,
        State.send_nextRef]
      · exact fun q m hm => State.mem_send _ _ _ _ hm
      · intro halive
        simp [State.send, halive]
    | unname won =>
      cases won
      · exact orderly_unname hi hpc (State.goto_pc _ _ · _) rfl rfl rfl rfl rfl rfl
      · exact orderly_unname hi hpc (State.goto_pc _ _ · _) rfl rfl rfl rfl rfl rfl

theorem orderly_step {s s' : State P} {a : Act P} (hi : Orderly s) (hok : SafeDeath s a)
    (h : step s a = some s') : Orderly s' := by
  simp only [step, Option.ite_none_right_eq_some] at h
  obtain ⟨hp, h⟩ := h
  cases a with
  | wait p key timeoutNs =>
    simp only [State.act, Option.ite_none_right_eq_some, Option.some.injEq] at h
    obtain ⟨hpc, rfl⟩ := h
    exact orderly_beginWait hi hpc key timeoutNs
  | notify p key count =>
    simp only [State.act, Option.ite_none_right_eq_some, Option.some.injEq] at h
    obtain ⟨hpc, rfl⟩ := h
    have hoff : (s.pc p).offers = none := by rw [hpc]; rfl
    exact orderly_quiet hi hoff (State.goto_pc _ _ · _) (.inr ⟨_, _, rfl⟩) rfl
      (fun x hx => by cases hx) nofun rfl rfl rfl rfl (Nat.le_succ _) rfl
  | read p equal =>
    simp only [State.act] at h
    split at h
    · rename_i e timeout hpc
      cases h
      cases equal
      · exact orderly_leave hi hpc (State.goto_pc _ _ · _) (.inr ⟨_, rfl, rfl, nofun⟩) (.inl rfl)
          (.inl rfl) rfl rfl rfl fun q hq => rfl
      · exact orderly_stay hi hpc (State.goto_pc _ _ · _) nofun (fun _ => rfl) nofun
          rfl rfl rfl rfl le_rfl fun q m hm => hm
    · simp at h
  | expire p =>
    simp only [State.act] at h
    split at h
    · rename_i e ms hpc
      cases h
      exact orderly_stay hi hpc (State.goto_pc _ _ · _) nofun (fun _ => rfl) nofun
        rfl rfl rfl rfl le_rfl fun q m hm => hm
    · simp at h
  | go p =>
    simp only [State.act] at h
    split at h
    · simp at h
    · rename_i e timeout at' hpc
      exact orderly_waitStep hi hpc h
    · rename_i call at' hpc
      cases h
      exact orderly_notifyStep hi hp hpc
  | kill p =>
    cases h
    refine orderly_die hi (Pc.offers_of_not_pending hok) rfl rfl rfl (fun q => Function.update_apply ..) rfl rfl ?_
    intro q m hm
    exact List.mem_append_left _ hm

theorem orderly_of_safeDeath {s : State P}
    (h : Run.ReachableIf step SafeDeath State.init s) : Orderly s :=
  h.invariant Orderly orderly_init fun _ _ _ hi hok hs => orderly_step hi hok hs

end ErlangWasm.Wait
