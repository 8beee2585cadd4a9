import ErlangWasm.Keeper.Held

/-!
# Queued transactions

A growth or an arena extension that finds another in flight waits in `queued` until that one ends.
The queue is drained by the ends of transactions only, so a resource with waiters has to keep its
row and the transaction in flight on it.
-/

namespace ErlangWasm.Keeper

open Reasoning

variable {s s' s'' t u : State} {res : Resource} {row : Row} {m : MemoryMeta} {acc : Account}

def Row.inFlight (row : Row) : Option Txn :=
  match row.body with
  | .memory _ acc => acc.txn
  | _ => none

def State.inFlight (s : State) (res : Resource) : Option Txn :=
  (s.rows.lookup res).bind Row.inFlight

theorem Row.inFlight_of_body (hbody : row.body = .memory m acc) : row.inFlight = acc.txn := by
  unfold Row.inFlight
  rw [hbody]

theorem inFlight_of_lookup (hrow : s.rows.lookup res = some row) :
    s.inFlight res = row.inFlight := by
  rw [State.inFlight, hrow, Option.bind_some]

theorem inFlight_of_memoryRow (h : s.memoryRow res = some (row, m, acc)) :
    s.inFlight res = acc.txn := by
  obtain ⟨hrow, hbody⟩ := memoryRow_eq_some.mp h
  rw [inFlight_of_lookup hrow, Row.inFlight_of_body hbody]

theorem inFlight_of_insert (hrows : s'.rows = s.rows.insert res row) (r : Resource) :
    s'.inFlight r = if r = res then row.inFlight else s.inFlight r := by
  unfold State.inFlight
  rw [hrows, Table.lookup_insert_eq]
  split <;> rfl

theorem queue_congr (h : s'.queued = s.queued) (r : Resource) : s'.queue r = s.queue r := by
  unfold State.queue
  rw [h]

theorem idle_iff : s.idle res = true ↔
    ∃ row m acc, s.memoryRow res = some (row, m, acc) ∧ acc.txn = none := by
  unfold State.idle
  cases hmem : s.memoryRow res with
  | none => simp
  | some found =>
    obtain ⟨row, m, acc⟩ := found
    simp only [Option.isNone_iff_eq_none, Option.some.injEq, Prod.mk.injEq]
    constructor
    · exact fun h => ⟨row, m, acc, ⟨rfl, rfl, rfl⟩, h⟩
    · rintro ⟨_, _, _, ⟨rfl, rfl, rfl⟩, h⟩
      exact h

/-! ## What leaves the queues alone -/

/-- No transaction began or ended, nobody queued and nobody was answered. -/
structure SameQueues (s s' : State) : Prop where
  queued : s'.queued = s.queued
  sent : s'.sent = s.sent
  inFlight : ∀ res, s'.inFlight res = s.inFlight res

theorem SameQueues.refl (s : State) : SameQueues s s := ⟨rfl, rfl, fun _ => rfl⟩

theorem SameQueues.trans (h : SameQueues s s') (h' : SameQueues s' s'') : SameQueues s s'' :=
  ⟨h'.queued.trans h.queued, h'.sent.trans h.sent,
    fun res => (h'.inFlight res).trans (h.inFlight res)⟩

theorem SameQueues.of_rows (hrows : s'.rows = s.rows) (hqueued : s'.queued = s.queued)
    (hsent : s'.sent = s.sent) : SameQueues s s' :=
  ⟨hqueued, hsent, fun res => by rw [State.inFlight, State.inFlight, hrows]⟩

theorem Quiet.sameQueues (h : Quiet s s') : SameQueues s s' := .of_rows h.rows h.queued h.sent

theorem Tallied.sameQueues (h : Tallied s s') : SameQueues s s' := .of_rows h.rows h.queued h.sent

theorem SameQueues.of_insert {row' : Row} (hrows : s'.rows = s.rows.insert res row')
    (hqueued : s'.queued = s.queued) (hsent : s'.sent = s.sent)
    (hinFlight : row'.inFlight = s.inFlight res) : SameQueues s s' := by
  refine ⟨hqueued, hsent, fun r => ?_⟩
  rw [inFlight_of_insert hrows]
  split
  · rename_i hr
    rw [hr, hinFlight]
  · rfl

/-! ## What a transaction does to the queues -/

/-- The row a `start/4` leaves is still that memory's. -/
theorem start_spec (s : State) (res : Resource) (row : Row) (m : MemoryMeta) (acc : Account)
    (opId : Ref) (pid : Pid) (req : TxnRequest) :
    (s.start res row m acc opId pid req).2.queued = s.queued ∧
      (s.start res row m acc opId pid req).2.sent = s.sent ∧
      ((s.start res row m acc opId pid req).2.rows = s.rows ∨
        ∃ row', (∃ acc', row'.body = .memory m acc') ∧
          (s.start res row m acc opId pid req).2.rows = s.rows.insert res row') := by
  cases req with
  | growBegin delta ceiling =>
    unfold State.start State.startGrow
    dsimp only
    split
    · exact ⟨rfl, rfl, Or.inl rfl⟩
    · split
      · exact ⟨rfl, rfl, Or.inl rfl⟩
      · split
        · exact ⟨rfl, rfl, Or.inl rfl⟩
        · rename_i u hu
          have hu' := eq_of_reservePages hu
          subst hu'
          refine ⟨(quiet_watchWriter _ pid res).queued.trans (tallied_addTotals _ _ _).queued,
            (quiet_watchWriter _ pid res).sent.trans (tallied_addTotals _ _ _).sent,
            Or.inr ⟨_, ?_, (quiet_watchWriter _ pid res).rows.trans
              (tallied_addTotals _ _ _).rows⟩⟩
          exact ⟨_, rfl⟩
  | arenaBegin target seen pages =>
    unfold State.start State.startArena
    dsimp only
    split
    · exact ⟨rfl, rfl, Or.inl rfl⟩
    · split
      · exact ⟨rfl, rfl, Or.inl rfl⟩
      · split
        · exact ⟨rfl, rfl, Or.inl rfl⟩
        · rename_i u hu
          have hu' := eq_of_reservePages hu
          subst hu'
          refine ⟨(quiet_watchWriter _ pid res).queued, (quiet_watchWriter _ pid res).sent,
            Or.inr ⟨_, ?_, (quiet_watchWriter _ pid res).rows⟩⟩
          exact ⟨_, rfl⟩

/-- A request is answered at once unless another transaction is in flight, and then it goes to the
end of the queue. -/
theorem transaction_cases (s : State) (res : Resource) (w : Waiter) :
    (∃ txn, s.inFlight res = some txn ∧ s.transaction res w =
      (none, { s with queued := s.queued.insert res (s.queue res ++ [w]) })) ∨
    ∃ r u, s.transaction res w = (some r, u) ∧ u.queued = s.queued ∧ u.sent = s.sent ∧
      (u.rows = s.rows ∨ s.idle res = true ∧
        ∃ row m acc, row.body = .memory m acc ∧ u.rows = s.rows.insert res row) := by
  unfold State.transaction
  cases hmem : s.memoryRow res with
  | none => exact Or.inr ⟨_, _, rfl, rfl, rfl, Or.inl rfl⟩
  | some found =>
    obtain ⟨row, m, acc⟩ := found
    dsimp only
    split
    · exact Or.inr ⟨_, _, rfl, rfl, rfl, Or.inl rfl⟩
    · split
      · exact Or.inr ⟨_, _, rfl, rfl, rfl, Or.inl rfl⟩
      · rename_i htxn
        obtain ⟨hqueued, hsent, hrows⟩ :=
          start_spec s res row m acc w.opId w.caller.1 w.request
        refine Or.inr ⟨_, _, rfl, hqueued, hsent, hrows.imp_right ?_⟩
        rintro ⟨row', ⟨acc', hbody⟩, hinsert⟩
        exact ⟨idle_iff.mpr ⟨row, m, acc, hmem, htxn⟩, row', m, acc', hbody, hinsert⟩
      · rename_i txn _ htxn
        split
        · exact Or.inr ⟨_, _, rfl, rfl, rfl, Or.inl rfl⟩
        · exact Or.inl ⟨txn, (inFlight_of_memoryRow hmem).trans htxn, rfl⟩

/-! ## Draining a queue -/

/-- What draining `ws` on `res` does: its first waiter is answered, the others are answered or kept,
and only a new transaction in flight leaves any behind. -/
structure Drained (res : Resource) (ws : List Waiter) (s s' : State)
    (new : List (Caller × Reply)) : Prop where
  sent : s'.sent = new ++ s.sent
  others : ∀ r, r ≠ res → s'.queue r = s.queue r ∧ s'.inFlight r = s.inFlight r
  waiting : ∀ w ∈ ws, w ∈ s'.queue res ∨ ∃ r, (w.caller, r) ∈ new
  first : ∀ w rest, ws = w :: rest → ∃ r, (w.caller, r) ∈ new
  attended : s'.queue res ≠ [] → s'.inFlight res ≠ none

theorem drained (res : Resource) (ws : List Waiter) :
    ∀ s : State, s.idle res = true → ∃ new, Drained res ws s (s.drain res ws) new := by
  induction ws with
  | nil =>
    refine fun s _ => ⟨[], rfl, fun r hr => ⟨?_, rfl⟩, fun w hw => ?_, fun w rest h => ?_,
      fun h => ?_⟩
    · unfold State.queue State.drain
      rw [AList.lookup_erase_ne hr]
    · exact absurd hw List.not_mem_nil
    · exact absurd h (List.cons_ne_nil _ _).symm
    · unfold State.queue State.drain at h
      rw [AList.lookup_erase] at h
      exact absurd rfl h
  | cons w ws ih =>
    intro s hidle
    obtain ⟨row, m, acc, hmem, htxn⟩ := idle_iff.mp hidle
    set t : State := { s with queued := s.queued.insert res ws } with ht
    have hnone : t.inFlight res = none := (inFlight_of_memoryRow hmem).trans htxn
    have hqueue : ∀ r, r ≠ res → t.queue r = s.queue r := by
      intro r hr
      unfold State.queue
      rw [ht, AList.lookup_insert_ne hr]
    have hmine : t.queue res = ws := by
      unfold State.queue
      rw [ht, AList.lookup_insert]
      rfl
    rcases transaction_cases t res w with ⟨txn, hbusy, -⟩ | ⟨r, u, heq, hqueued, hsent, hrows⟩
    · rw [hnone] at hbusy
      simp at hbusy
    · have hdrain : s.drain res (w :: ws) =
          if (u.reply w.caller r).idle res then (u.reply w.caller r).drain res ws
          else u.reply w.caller r := by
        rw [State.drain, ← ht, heq]
      set v := u.reply w.caller r with hv
      have hothers : ∀ r', r' ≠ res → v.queue r' = s.queue r' ∧ v.inFlight r' = s.inFlight r' := by
        intro r' hr'
        refine ⟨(queue_congr hqueued r').trans (hqueue r' hr'), ?_⟩
        show u.inFlight r' = t.inFlight r'
        rcases hrows with hrows | ⟨-, row', m', acc', -, hrows⟩
        · unfold State.inFlight
          rw [hrows]
        · rw [inFlight_of_insert hrows, if_neg hr']
      have hvqueue : v.queue res = ws := (queue_congr hqueued res).trans hmine
      have hvsent : v.sent = [(w.caller, r)] ++ s.sent := congrArg ((w.caller, r) :: ·) hsent
      rw [hdrain]
      split
      · rename_i hvidle
        obtain ⟨new, hrest⟩ := ih v hvidle
        refine ⟨new ++ [(w.caller, r)], ?_, fun r' hr' => ?_, fun w' hw' => ?_, fun w' rest h => ?_,
          hrest.attended⟩
        · rw [hrest.sent, hvsent, List.append_assoc]
        · obtain ⟨hq, hf⟩ := hrest.others r' hr'
          exact ⟨hq.trans (hothers r' hr').1, hf.trans (hothers r' hr').2⟩
        · rcases List.mem_cons.mp hw' with rfl | hw'
          · exact Or.inr ⟨r, List.mem_append_right _ List.mem_cons_self⟩
          · refine (hrest.waiting w' hw').imp_right ?_
            rintro ⟨r', hr'⟩
            exact ⟨r', List.mem_append_left _ hr'⟩
        · obtain ⟨rfl, -⟩ := List.cons.inj h
          exact ⟨r, List.mem_append_right _ List.mem_cons_self⟩
      · rename_i hbusy
        refine ⟨[(w.caller, r)], hvsent, hothers, fun w' hw' => ?_, fun w' rest h => ?_,
          fun _ hnot => hbusy ?_⟩
        · rcases List.mem_cons.mp hw' with rfl | hw'
          · exact Or.inr ⟨r, List.mem_cons_self⟩
          · exact Or.inl (hvqueue.symm ▸ hw')
        · obtain ⟨rfl, -⟩ := List.cons.inj h
          exact ⟨r, List.mem_cons_self⟩
        · -- the row is still a memory's, so nothing in flight would make it idle
          rcases hrows with hrows | ⟨-, row', m', acc', hbody, hrows⟩
          · have hmem' : v.memoryRow res = some (row, m, acc) := by
              obtain ⟨hrow, hbody⟩ := memoryRow_eq_some.mp hmem
              exact memoryRow_eq_some.mpr ⟨(congrArg (AList.lookup res) hrows).trans hrow, hbody⟩
            exact idle_iff.mpr ⟨row, m, acc, hmem', htxn⟩
          · have hmem' : v.memoryRow res = some (row', m', acc') := by
              refine memoryRow_eq_some.mpr ⟨?_, hbody⟩
              exact (congrArg (AList.lookup res) hrows).trans (AList.lookup_insert _)
            exact idle_iff.mpr ⟨row', m', acc', hmem', (inFlight_of_memoryRow hmem').symm.trans hnot⟩

/-! ## Waiters attended and served -/

/-- Nobody waits on a resource whose row or whose transaction in flight is gone. -/
def Attended (s : State) : Prop :=
  ∀ res, s.queue res ≠ [] →
    ∃ row txn, s.rows.lookup res = some row ∧ row.inFlight = some txn

/-- Every waiter is still waiting or has been answered, and the first in a queue waits on only while
the transaction in flight is the one it found. -/
def Served (s s' : State) : Prop :=
  ∃ new, s'.sent = new ++ s.sent ∧ ∀ res,
    (∀ w ∈ s.queue res, w ∈ s'.queue res ∨ ∃ r, (w.caller, r) ∈ new) ∧
    ∀ w rest, s.queue res = w :: rest →
      (s'.inFlight res = s.inFlight res ∧ ∃ rest', s'.queue res = w :: rest') ∨
        ∃ r, (w.caller, r) ∈ new

theorem attended_iff : Attended s ↔ ∀ res, s.queue res ≠ [] → s.inFlight res ≠ none := by
  unfold Attended
  simp only [State.inFlight, ne_eq, Option.ne_none_iff_exists', Option.bind_eq_some_iff]
  constructor
  · intro h res hq
    obtain ⟨row, txn, hrow, htxn⟩ := h res hq
    exact ⟨txn, row, hrow, htxn⟩
  · intro h res hq
    obtain ⟨txn, row, hrow, htxn⟩ := h res hq
    exact ⟨row, txn, hrow, htxn⟩

theorem attended_init : Attended State.init := fun _ h => absurd rfl h

theorem Served.trans (h : Served s s') (h' : Served s' s'') : Served s s'' := by
  obtain ⟨new, hsent, hnew⟩ := h
  obtain ⟨new', hsent', hnew'⟩ := h'
  refine ⟨new' ++ new, ?_, fun res => ⟨fun w hw => ?_, fun w rest hq => ?_⟩⟩
  · rw [hsent', hsent, List.append_assoc]
  · rcases (hnew res).1 w hw with hw' | ⟨r, hr⟩
    · refine ((hnew' res).1 w hw').imp_right ?_
      rintro ⟨r, hr⟩
      exact ⟨r, List.mem_append_left _ hr⟩
    · exact Or.inr ⟨r, List.mem_append_right _ hr⟩
  · rcases (hnew res).2 w rest hq with ⟨hf, rest', hq'⟩ | ⟨r, hr⟩
    · rcases (hnew' res).2 w rest' hq' with ⟨hf', hq''⟩ | ⟨r, hr⟩
      · exact Or.inl ⟨hf'.trans hf, hq''⟩
      · exact Or.inr ⟨r, List.mem_append_left _ hr⟩
    · exact Or.inr ⟨r, List.mem_append_right _ hr⟩

/-- What one operation owes the queues. -/
def Serving (s s' : State) : Prop := Attended s → Served s s' ∧ Attended s'

theorem Serving.trans (h : Serving s s') (h' : Serving s' s'') : Serving s s'' := by
  intro ha
  obtain ⟨hs, ha'⟩ := h ha
  obtain ⟨hs', ha''⟩ := h' ha'
  exact ⟨hs.trans hs', ha''⟩

/-- It is enough that what is in flight stays where somebody waits. -/
theorem serving_of_kept {new : List (Caller × Reply)} (hqueued : s'.queued = s.queued)
    (hsent : s'.sent = new ++ s.sent)
    (hinFlight : ∀ res, s.queue res ≠ [] → s'.inFlight res = s.inFlight res) : Serving s s' := by
  refine fun h => ⟨⟨new, hsent, fun res => ⟨fun w hw => ?_, fun w rest hq => ?_⟩⟩, ?_⟩
  · exact Or.inl (queue_congr hqueued res ▸ hw)
  · have hne : s.queue res ≠ [] := hq ▸ List.cons_ne_nil _ _
    exact Or.inl ⟨hinFlight res hne, rest, (queue_congr hqueued res).trans hq⟩
  · rw [attended_iff] at h ⊢
    intro res hq
    rw [queue_congr hqueued res] at hq
    exact hinFlight res hq ▸ h res hq

theorem SameQueues.serving (h : SameQueues s s') : Serving s s' :=
  serving_of_kept h.queued (h.sent.trans (List.nil_append _).symm) fun res _ => h.inFlight res

/-- An operation that serves the queues and lengthens none. -/
def Settling (s s' : State) : Prop := Serving s s' ∧ ∀ res, s'.queue res ≠ [] → s.queue res ≠ []

theorem Settling.trans (h : Settling s s') (h' : Settling s' s'') : Settling s s'' :=
  ⟨h.1.trans h'.1, fun res hq => h.2 res (h'.2 res hq)⟩

theorem SameQueues.settling (h : SameQueues s s') : Settling s s' :=
  ⟨h.serving, fun res hq => queue_congr h.queued res ▸ hq⟩

theorem serving_reply (s : State) (caller : Caller) (r : Reply) :
    Serving s (s.reply caller r) :=
  serving_of_kept rfl (List.singleton_append ▸ rfl : _ = [(caller, r)] ++ s.sent) fun _ _ => rfl

/-- The end of a transaction, with the queue of its resource drained after it. -/
theorem settling_nextTransaction {row' : Row} {acc' : Account}
    (hrows : t.rows = s.rows.insert res row') (hbody : row'.body = .memory m acc')
    (htxn : acc'.txn = none) (hqueued : t.queued = s.queued) (hsent : t.sent = s.sent) :
    Settling s (t.nextTransaction res) := by
  have hmem : t.memoryRow res = some (row', m, acc') :=
    memoryRow_eq_some.mpr ⟨hrows ▸ AList.lookup_insert _, hbody⟩
  obtain ⟨new, hdrain⟩ := drained res (t.queue res) t (idle_iff.mpr ⟨row', m, acc', hmem, htxn⟩)
  set u := t.nextTransaction res with hu
  have hothers : ∀ r, r ≠ res → u.queue r = s.queue r ∧ u.inFlight r = s.inFlight r := by
    intro r hr
    obtain ⟨hq, hf⟩ := hdrain.others r hr
    refine ⟨hq.trans (queue_congr hqueued r), hf.trans ?_⟩
    rw [inFlight_of_insert hrows, if_neg hr]
  refine ⟨fun h => ⟨⟨new, hdrain.sent.trans (by rw [hsent]), fun r => ?_⟩, ?_⟩, fun r hq => ?_⟩
  · by_cases hr : r = res
    · subst hr
      rw [← queue_congr hqueued r]
      exact ⟨hdrain.waiting, fun w rest hq => Or.inr (hdrain.first w rest hq)⟩
    · obtain ⟨hq, hf⟩ := hothers r hr
      rw [hq, hf]
      exact ⟨fun w hw => Or.inl hw, fun w rest h => Or.inl ⟨rfl, rest, h⟩⟩
  · rw [attended_iff] at h ⊢
    intro r hq
    by_cases hr : r = res
    · subst hr
      exact hdrain.attended hq
    · obtain ⟨hq', hf⟩ := hothers r hr
      exact hf ▸ h r (hq' ▸ hq)
  · by_cases hr : r = res
    · subst hr
      rw [← queue_congr hqueued r]
      intro hempty
      -- draining an empty queue drops its entry
      rw [hu, State.nextTransaction, hempty, State.drain, State.queue, AList.lookup_erase] at hq
      exact hq rfl
    · exact (hothers r hr).1 ▸ hq

/-! ## Transactions -/

theorem serving_transaction (s : State) (res : Resource) (w : Waiter) :
    Serving s (s.transaction res w).2 := by
  rcases transaction_cases s res w with ⟨txn, hbusy, heq⟩ | ⟨r, u, heq, hqueued, hsent, hrows⟩
  · rw [heq]
    set t : State := { s with queued := s.queued.insert res (s.queue res ++ [w]) } with ht
    have hother : ∀ r, r ≠ res → t.queue r = s.queue r := by
      intro r hr
      unfold State.queue
      rw [ht, AList.lookup_insert_ne hr]
    have hmine : t.queue res = s.queue res ++ [w] := by
      unfold State.queue
      rw [ht, AList.lookup_insert]
      rfl
    refine fun h => ⟨⟨[], rfl, fun r => ?_⟩, ?_⟩
    · by_cases hr : r = res
      · subst hr
        rw [hmine]
        refine ⟨fun w' hw' => Or.inl (List.mem_append_left _ hw'), fun w' rest hq => ?_⟩
        exact Or.inl ⟨rfl, rest ++ [w], by rw [hq, List.cons_append]⟩
      · rw [hother r hr]
        exact ⟨fun w' hw' => Or.inl hw', fun w' rest hq => Or.inl ⟨rfl, rest, hq⟩⟩
    · rw [attended_iff] at h ⊢
      intro r hq
      by_cases hr : r = res
      · show s.inFlight r ≠ none
        rw [hr, hbusy]
        exact Option.some_ne_none txn
      · exact h r (hother r hr ▸ hq)
  · rw [heq]
    refine fun ha => serving_of_kept hqueued (hsent.trans (List.nil_append _).symm) ?_ ha
    intro r hq
    rcases hrows with hrows | ⟨hidle, row', m', acc', -, hrows⟩
    · rw [State.inFlight, State.inFlight, hrows]
    · rw [inFlight_of_insert hrows]
      split
      · -- nobody waits where nothing is in flight
        rename_i hr
        obtain ⟨row, m, acc, hmem, htxn⟩ := idle_iff.mp hidle
        exact absurd ((inFlight_of_memoryRow hmem).trans htxn) (hr ▸ attended_iff.mp ha r hq)
      · rfl

theorem settling_finish (h : Quiet s t) (res : Resource) (row : Row) (m : MemoryMeta)
    (acc : Account) (pid : Pid) (opId : Ref) (result : Outcome) :
    Settling s ((t.finish res row m acc pid opId result).nextTransaction res) := by
  set acc' : Account := { acc with txn := none, done := acc.done.insert pid (opId, result) }
    with hacc
  have hquiet := quiet_watchWriter (t.putAccount res row m acc') pid res
  have hrows : (t.finish res row m acc pid opId result).rows =
      s.rows.insert res { row with body := .memory m acc' } :=
    hquiet.rows.trans (congrArg (AList.insert res _) h.rows)
  exact settling_nextTransaction hrows rfl rfl (hquiet.queued.trans h.queued)
    (hquiet.sent.trans h.sent)

theorem settling_settle (s : State) (res : Resource) (row : Row) (m : MemoryMeta) (acc : Account)
    (txn : Txn) : Settling s (s.settle res row m acc txn) := by
  unfold State.settle
  split
  · cases txn with
    | grow opId pid before after pages chunks =>
      exact settling_finish (quiet_publishSize s _ _) _ _ _ _ _ _ _
    | arena opId pid published target pages => exact settling_finish (Quiet.refl s) _ _ _ _ _ _ _
  · cases txn with
    | grow opId pid before after pages chunks =>
      exact settling_nextTransaction (tallied_subTotals _ _ _).rows rfl rfl
        (tallied_subTotals _ _ _).queued (tallied_subTotals _ _ _).sent
    | arena opId pid published target pages => exact settling_nextTransaction rfl rfl rfl rfl rfl

theorem sameQueues_putAccount (hrow : s.rows.lookup res = some row)
    (hbody : row.body = .memory m acc) {acc' : Account} (htxn : acc'.txn = acc.txn) :
    SameQueues s (s.putAccount res row m acc') := by
  refine .of_insert rfl rfl rfl ?_
  rw [inFlight_of_lookup hrow, Row.inFlight_of_body hbody]
  exact htxn

theorem serving_forgetOutcome (s : State) (res : Resource) (opId : Ref) (pid : Pid) :
    Serving s (s.forgetOutcome res opId pid) := by
  refine SameQueues.serving ?_
  unfold State.forgetOutcome
  split
  · rename_i row m acc hmem
    obtain ⟨hrow, hbody⟩ := memoryRow_eq_some.mp hmem
    split
    · refine SameQueues.trans ?_ (quiet_unwatchWriter _ _ _).sameQueues
      exact sameQueues_putAccount hrow hbody rfl
    · exact .refl s
  · exact (quiet_unwatchWriter _ _ _).sameQueues

theorem settling_writerGone (s : State) (pid : Pid) (res : Resource) :
    Settling s (s.writerGone pid res) := by
  cases hmem : s.memoryRow res with
  | none => exact (writerGone_of_none hmem pid).symm ▸ (SameQueues.refl s).settling
  | some found =>
    obtain ⟨row, m, acc⟩ := found
    obtain ⟨hrow, hbody⟩ := memoryRow_eq_some.mp hmem
    obtain ⟨t, hor, -, hgone⟩ := writerGone_cases hrow hbody pid
    have ht : Settling s t := by
      rcases hor with rfl | rfl
      · exact (SameQueues.refl t).settling
      · have htxn : (row.withoutDone m acc pid).inFlight = s.inFlight res :=
          ((inFlight_of_lookup hrow).trans (Row.inFlight_of_body hbody)).symm
        have hput : SameQueues s (s.putRow res (row.withoutDone m acc pid)) :=
          .of_insert rfl rfl rfl htxn
        exact hput.settling
    rcases hgone with hgone | ⟨txn, -, -, hgone⟩
    · exact hgone.symm ▸ ht
    · rw [hgone]
      exact ht.trans (settling_settle _ _ _ _ _ _)

theorem settling_writersGone (pid : Pid) (rs : List Resource) : ∀ s : State,
    Settling s (rs.foldl (fun (s : State) res => s.writerGone pid res) s) := by
  induction rs with
  | nil => exact fun s => (SameQueues.refl s).settling
  | cons r rs ih => exact fun s => (settling_writerGone s pid r).trans (ih _)

theorem serving_growCommit (s : State) (pid : Pid) (res : Resource) (opId : Ref)
    (chunks : List Ref) : Serving s (s.growCommit pid res opId chunks).2 := by
  unfold State.growCommit
  split
  · exact (SameQueues.refl s).serving
  · split
    · split
      · exact (settling_finish ((quiet_publishChunks s _ _ _).trans (quiet_publishSize _ _ _)) _ _ _
          _ _ _ _).1
      · exact (SameQueues.refl s).serving
    · exact (SameQueues.refl s).serving

theorem serving_arenaCommit (s : State) (pid : Pid) (res : Resource) (opId : Ref)
    (arena : List Ref) : Serving s (s.arenaCommit pid res opId arena).2 := by
  unfold State.arenaCommit
  split
  · exact (SameQueues.refl s).serving
  · split
    · split
      · exact (settling_finish (quiet_publishChunks s _ _ _) _ _ _ _ _ _ _).1
      · exact (SameQueues.refl s).serving
    · exact (SameQueues.refl s).serving

theorem serving_txnAbort (s : State) (pid : Pid) (res : Resource) (opId : Ref) :
    Serving s (s.txnAbort pid res opId) := by
  unfold State.txnAbort
  split
  · exact serving_forgetOutcome _ _ _ _
  · split
    · split
      · exact (settling_settle _ _ _ _ _ _).1
      · exact serving_forgetOutcome _ _ _ _
    · exact serving_forgetOutcome _ _ _ _

end ErlangWasm.Keeper
