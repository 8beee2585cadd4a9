import ErlangWasm.Keeper.Queue

/-!
# Nobody waits for ever

Retiring a resource does not look at its queue.  As long as no step takes the last holder of a
memory somebody is queued on, every queue has a transaction in flight before it, and every step
keeps or answers each waiter.
-/

namespace ErlangWasm.Keeper

open Reasoning

variable {s s' : State} {res : Resource} {row : Row} {token : Token}

/-! ## Holders that come, go and move -/

theorem retireImage_sameQueue (s : State) (img : Resource) :
    (s.retireImage img).queued = s.queued ∧ (s.retireImage img).sent = s.sent := by
  unfold State.retireImage
  split
  · exact ⟨rfl, rfl⟩
  · split
    · split
      · exact ⟨retireRow_queued _ _ _, retireRow_sent _ _ _⟩
      · exact ⟨rfl, rfl⟩
    · exact ⟨rfl, rfl⟩

theorem retire_sameQueue (s : State) (res : Resource) (row : Row) :
    (s.retire res row).queued = s.queued ∧ (s.retire res row).sent = s.sent := by
  unfold State.retire State.afterRetire
  split
  · split
    · obtain ⟨hqueued, hsent⟩ := retireImage_sameQueue (State.countImage (s.retireRow res row) _ _) _
      exact ⟨hqueued.trans (retireRow_queued _ _ _), hsent.trans (retireRow_sent _ _ _)⟩
    · exact ⟨retireRow_queued _ _ _, retireRow_sent _ _ _⟩
  · exact ⟨retireRow_queued _ _ _, retireRow_sent _ _ _⟩

theorem drop_sameQueue (s : State) (res : Resource) (token : Token) :
    (s.drop res token).queued = s.queued ∧ (s.drop res token).sent = s.sent := by
  unfold State.drop
  split
  · exact ⟨rfl, rfl⟩
  · split
    · exact ⟨rfl, rfl⟩
    · rename_i row hrow _ owner howner
      have hquiet := quiet_unhold (s.subTotal token row.counted) res token owner
      dsimp only
      split
      · obtain ⟨hqueued, hsent⟩ := retire_sameQueue
          ((s.subTotal token row.counted).unhold owner res token) res
          { row with holders := row.holders.erase token }
        exact ⟨hqueued.trans hquiet.queued, hsent.trans hquiet.sent⟩
      · exact ⟨hquiet.queued, hquiet.sent⟩

/-- A drop ends no transaction but that of a resource it takes the last holder from. -/
theorem inFlight_drop (s : State) (res : Resource) (token : Token) {r : Resource}
    (h : r ≠ res ∨ ∃ t, t ≠ token ∧ s.ownerOf r t ≠ none) :
    (s.drop res token).inFlight r = s.inFlight r := by
  unfold State.drop
  split
  · rfl
  · rename_i row hrow
    split
    · rfl
    · rename_i owner howner
      dsimp only
      set u := (s.subTotal token row.counted).unhold owner res token with hu
      have hrows : u.rows = s.rows := (quiet_unhold _ _ _ _).rows
      split
      · rename_i hlast
        have hr : r ≠ res := by
          rcases h with hr | ⟨t, ht, hkept⟩
          · exact hr
          · rintro rfl
            rw [ownerOf_of_lookup hrow, ← AList.lookup_erase_ne ht, ne_eq, AList.lookup_eq_none,
              not_not, AList.mem_keys, hlast.1] at hkept
            exact List.not_mem_nil hkept
        rcases retire_rows u res { row with holders := row.holders.erase token } with
          heq | ⟨img, w, bytes, hw, hbody, -, heq⟩
        · unfold State.inFlight
          rw [heq, hrows, AList.lookup_erase_ne hr]
        · unfold State.inFlight
          rw [heq, Table.lookup_erase_eq]
          split
          · -- the image that went with the memory was no memory itself
            rename_i himg
            rw [hrows, ← himg, AList.lookup_erase_ne hr] at hw
            rw [hw, Option.bind_none, Option.bind_some, Row.inFlight, hbody]
          · rw [hrows, AList.lookup_erase_ne hr]
      · show (State.putRow u res _).inFlight r = _
        rw [inFlight_of_insert rfl]
        split
        · rename_i hr
          rw [hr, inFlight_of_lookup hrow]
          rfl
        · unfold State.inFlight
          rw [hrows]

/-- `res` is not among the pairs at all, or one of its holders is not. -/
def State.Outlasts (s : State) (res : Resource) (pairs : List (Resource × Token)) : Prop :=
  (∀ pair ∈ pairs, pair.1 ≠ res) ∨ ∃ token, s.ownerOf res token ≠ none ∧ (res, token) ∉ pairs

theorem serving_dropAll (pairs : List (Resource × Token)) :
    ∀ s : State, (∀ res, s.queue res ≠ [] → s.Outlasts res pairs) →
      Serving s (s.dropAll pairs) := by
  induction pairs with
  | nil => exact fun s _ => (SameQueues.refl s).serving
  | cons pair pairs ih =>
    intro s h
    obtain ⟨hqueued, hsent⟩ := drop_sameQueue s pair.1 pair.2
    have hone : Serving s (s.drop pair.1 pair.2) := by
      refine serving_of_kept hqueued (hsent.trans (List.nil_append _).symm) fun res hq => ?_
      refine inFlight_drop s pair.1 pair.2 ?_
      rcases h res hq with hnot | ⟨token, hheld, hnot⟩
      · exact Or.inl (hnot pair List.mem_cons_self).symm
      · by_cases hr : res = pair.1
        · refine Or.inr ⟨token, ?_, hheld⟩
          rintro rfl
          exact hnot (hr ▸ List.mem_cons_self)
        · exact Or.inl hr
    refine hone.trans (ih _ fun res hq => ?_)
    rw [queue_congr hqueued] at hq
    rcases h res hq with hnot | ⟨token, hheld, hnot⟩
    · exact Or.inl fun p hp => hnot p (List.mem_cons_of_mem _ hp)
    · refine Or.inr ⟨token, ?_, fun hin => hnot (List.mem_cons_of_mem _ hin)⟩
      rw [ownerOf_drop, if_neg]
      · exact hheld
      · rintro ⟨rfl, rfl⟩
        exact hnot List.mem_cons_self

theorem sameQueues_retag (src dst : Token) (owner : Option Pid) (res : Resource) :
    SameQueues s (s.retag src dst owner res) := by
  rcases retag_cases s src res with hnot | ⟨row, old, hrow, hsrc⟩
  · exact (retag_of_not_held src dst owner hnot).symm ▸ .refl s
  · have hrows := retag_rows src dst owner hrow hsrc
    refine .of_insert hrows ?_ ?_ (inFlight_of_lookup hrow).symm
    · unfold State.retag
      rw [hrow]
      simp only [hsrc]
      exact (quiet_watch _ _ _ _).queued.trans (quiet_unhold _ _ _ _).queued
    · unfold State.retag
      rw [hrow]
      simp only [hsrc]
      exact (quiet_watch _ _ _ _).sent.trans (quiet_unhold _ _ _ _).sent

theorem sameQueues_retags (src dst : Token) (owner : Option Pid) (moved : List Resource) :
    ∀ s : State, SameQueues s (moved.foldl (fun (s : State) r => s.retag src dst owner r) s) := by
  induction moved with
  | nil => exact fun s => .refl s
  | cons r moved ih => exact fun s => (sameQueues_retag src dst owner r).trans (ih _)

theorem sameQueues_transfer (s : State) (pid : Pid) (src dst : Token) (owner : Option Pid) :
    SameQueues s (s.transfer pid src dst owner) := by
  unfold State.transfer
  dsimp only
  refine SameQueues.trans ?_ (sameQueues_retags _ _ _ _ _)
  split
  · exact .of_rows rfl rfl rfl
  · exact .of_rows rfl rfl rfl

theorem sameQueues_pendingCap (s : State) (token : Token) (limit : Option ℕ) :
    SameQueues s (s.pendingCap token limit) := by
  unfold State.pendingCap
  split
  · exact .refl s
  · split
    · exact .refl s
    · exact .of_rows rfl rfl rfl

theorem sameQueues_acquire (s : State) (res : Resource) (token : Token) (owner : Option Pid)
    (limit : Option ℕ) : SameQueues s (s.acquire res token owner limit).2 := by
  have hcap := sameQueues_pendingCap s token limit
  unfold State.acquire
  set t := s.pendingCap token limit with ht
  dsimp only
  split
  · exact hcap
  · rename_i row hrow
    split_ifs with hretiring hholds hwithin
    · exact hcap
    · exact hcap
    · have hput : SameQueues t (t.putRow res
          { row with holders := row.holders.insert token owner }) :=
        .of_insert rfl rfl rfl (inFlight_of_lookup hrow).symm
      have hadd : SameQueues (t.putRow res { row with holders := row.holders.insert token owner })
          ((t.putRow res { row with holders := row.holders.insert token owner }).addTotal token
            row.pages) := .of_rows rfl rfl rfl
      exact ((hcap.trans hput).trans hadd).trans (quiet_watch _ _ _ _).sameQueues
    · exact hcap

/-- A new row has nothing in flight, and neither had its reference. -/
theorem sameQueues_add {t : State} {e : Token → ℤ} (hbooks : Books e s)
    (hrows : t.rows = s.rows.insert s.nextRef row) (hnone : row.inFlight = none)
    (hqueued : t.queued = s.queued) (hsent : t.sent = s.sent) : SameQueues s t := by
  refine .of_insert hrows hqueued hsent ?_
  rw [hnone, State.inFlight, hbooks.lookup_nextRef, Option.bind_none]

theorem sameQueues_reserve {e : Token → ℤ} (hbooks : Books e s) (pages : ℕ) (kind : Meta)
    (token : Token) (owner : Option Pid) (limit : Option ℕ) :
    SameQueues s (s.reserve pages kind token owner limit).2 := by
  have hcap := sameQueues_pendingCap s token limit
  unfold State.reserve
  dsimp only
  split
  · exact hcap
  · split
    · exact hcap
    · split
      · exact hcap
      · rename_i u hu
        have hu' := eq_of_reservePages hu
        subst hu'
        refine hcap.trans (SameQueues.trans ?_ (quiet_watch _ _ _ _).sameQueues)
        have hbooks' := hbooks.pendingCap token limit
        cases kind with
        | memory m | cell | heap objs elems => exact sameQueues_add hbooks' rfl rfl rfl rfl

theorem sameQueues_imageReserve {e : Token → ℤ} (hbooks : Books e s) (bytes : ℕ) (owner : Pid)
    (id : Ref) : SameQueues s (s.imageReserve bytes owner id).2 := by
  unfold State.imageReserve
  split
  · exact .refl s
  · split
    · exact .refl s
    · refine SameQueues.trans ?_ (quiet_addHeld _ _ _ _).sameQueues
      exact sameQueues_add hbooks rfl rfl rfl rfl

theorem sameQueues_reconcile (s : State) (res : Resource) (ceiling : Option ℕ) (extra : ℕ) :
    SameQueues s (s.reconcile res ceiling extra).2 := by
  unfold State.reconcile
  split
  · exact .refl s
  · rename_i row hrow
    split
    · have hput : ∀ (u : State) (want : ℕ), u.rows = s.rows → u.queued = s.queued →
          u.sent = s.sent → SameQueues s (u.putRow res { row with pages := want }) := by
        intro u want hrows hqueued hsent
        exact .of_insert (congrArg (AList.insert res _) hrows) hqueued hsent
          (inFlight_of_lookup hrow).symm
      unfold State.doResize
      rw [hrow]
      simp only
      split
      · refine SameQueues.trans ?_ (tallied_subTotals _ _ _).sameQueues
        exact (hput s _ rfl rfl rfl).trans (.of_rows rfl rfl rfl)
      · rw [grow_snd]
        refine SameQueues.trans ?_ (tallied_addTotals _ _ _).sameQueues
        exact hput _ _ rfl rfl rfl
    · exact .refl s

/-! ## The condition, and every run that meets it -/

/-- The pairs a message drops. -/
def State.dropped (s : State) : Act → List (Resource × Token)
  | .call _ (.release res token) => [(res, token)]
  | .call _ (.releaseAll pairs) => pairs
  | .call caller (.discard token) =>
      (s.heldUnder caller.1 token).map fun res => (res, token)
  | .down pid mon => if s.mons.lookup pid = some mon then (s.heldBy pid).keys else []
  | _ => []

def State.holderTokens (s : State) (res : Resource) : List Token :=
  ((s.holdersOf res).map AList.keys).getD []

/-- Every memory somebody is queued on keeps a holder. -/
def Attending (s : State) (a : Act) : Prop :=
  ∀ res ∈ s.queued.keys, s.queue res ≠ [] →
    (∀ pair ∈ s.dropped a, pair.1 ≠ res) ∨ ∃ token ∈ s.holderTokens res, (res, token) ∉ s.dropped a

instance (s : State) (a : Act) : Decidable (Attending s a) := by
  unfold Attending
  infer_instance

theorem ownerOf_of_mem_holderTokens (h : token ∈ s.holderTokens res) :
    s.ownerOf res token ≠ none := by
  unfold State.holderTokens at h
  unfold State.ownerOf
  cases hholders : s.holdersOf res with
  | none =>
    rw [hholders] at h
    exact absurd h List.not_mem_nil
  | some holders =>
    rw [hholders] at h
    rw [Option.bind_some, ne_eq, AList.lookup_eq_none, not_not]
    exact h

theorem Attending.outlasts {a : Act} (h : Attending s a) (hq : s.queue res ≠ []) :
    s.Outlasts res (s.dropped a) := by
  have hkey : res ∈ s.queued.keys := by
    by_contra hnot
    have hnone : s.queued.lookup res = none := AList.lookup_eq_none.mpr hnot
    exact hq (by rw [State.queue, hnone, Option.getD_none])
  refine (h res hkey hq).imp_right ?_
  rintro ⟨token, hmem, hnot⟩
  exact ⟨token, ownerOf_of_mem_holderTokens hmem, hnot⟩

/-- What the writers of a dead process leave to `forget_holder/3` holds what it did. -/
theorem serving_handleDown (pid : Pid) (mon : Ref) (hok : Attending s (.down pid mon)) :
    Serving s (s.handleDown pid mon) := by
  have hforget : ∀ t : State, Settling s t → SameHolders s t →
      Serving s (t.forgetHolder pid mon) := by
    intro t hsettling hsame
    refine hsettling.1.trans ?_
    unfold State.forgetHolder
    split
    · rename_i hmon
      have hunwatch := (quiet_unwatch t pid).sameQueues
      refine hunwatch.serving.trans (serving_dropAll _ _ fun res hq => ?_)
      have hout := hok.outlasts (hsettling.2 res hq)
      have hdropped : s.dropped (.down pid mon) = (t.heldBy pid).keys := by
        rw [hsame.mons] at hmon
        rw [State.dropped, if_pos hmon, State.heldBy, State.heldBy, hsame.held]
      rw [hdropped] at hout
      refine hout.imp_right ?_
      rintro ⟨token, hheld, hnot⟩
      exact ⟨token, fun hnone => hheld (hsame.ownerOf res token ▸ hnone), hnot⟩
    · exact (SameQueues.refl t).serving
  have hrefl := hforget s (SameQueues.refl s).settling (.refl s)
  unfold State.handleDown
  dsimp only
  split
  · split
    · rename_i writer rs _ _
      have herase : SameQueues s { s with writers := s.writers.erase pid } := .of_rows rfl rfl rfl
      have hsame : SameHolders s { s with writers := s.writers.erase pid } := .of_eq rfl rfl rfl
      exact hforget _ (herase.settling.trans (settling_writersGone pid rs.keys _))
        (hsame.trans (sameHolders_writersGone pid rs.keys _))
    · exact hrefl
  · exact hrefl

theorem serving_handleCall {e : Token → ℤ} (hbooks : Books e s) (caller : Caller) (req : Request)
    (hok : Attending s (.call caller req)) : Serving s (s.handleCall caller req).2 := by
  have hdrop : Serving s (s.dropAll (s.dropped (.call caller req))) :=
    serving_dropAll _ s fun _ hq => hok.outlasts hq
  cases req with
  | setLimit token max => exact (SameQueues.of_rows rfl rfl rfl).serving
  | totalOf token => exact (SameQueues.refl s).serving
  | reserve pages kind token owner limit =>
    exact (sameQueues_reserve hbooks pages kind token owner limit).serving
  | acquire res token owner limit => exact (sameQueues_acquire s res token owner limit).serving
  | release res token => exact hdrop
  | releaseAll pairs => exact hdrop
  | discard token => exact hdrop.trans (SameQueues.of_rows rfl rfl rfl).serving
  | transfer src dst owner => exact (sameQueues_transfer s caller.1 src dst owner).serving
  | reconcile res ceiling extra => exact (sameQueues_reconcile s res ceiling extra).serving
  | imageReserve bytes owner id => exact (sameQueues_imageReserve hbooks bytes owner id).serving
  | begin res opId req => exact serving_transaction s res _
  | growCommit res opId chunks => exact serving_growCommit s _ _ _ _
  | arenaCommit res opId arena => exact serving_arenaCommit s _ _ _ _
  | txnAbort res opId => exact serving_txnAbort s _ _ _

theorem serving_step {e : Token → ℤ} (hbooks : Books e s) {a : Act} (hok : Attending s a)
    (hs : step s a = some s') : Serving s s' := by
  cases a with
  | call caller req =>
    have hcall := serving_handleCall hbooks caller req hok
    simp only [Keeper.step] at hs
    split at hs
    · exact Option.some.inj hs ▸ hcall.trans (serving_reply _ _ _)
    · exact Option.some.inj hs ▸ hcall
  | ack res opId pid => exact Option.some.inj hs ▸ serving_forgetOutcome s res opId pid
  | down pid mon => exact Option.some.inj hs ▸ serving_handleDown pid mon hok
  | putCell ref tuple | putSize ref pages | putWords tab words | setPageLimit limit
  | setSnapshotLimit limit | seedSnapshotCounter =>
    rw [← Option.some.inj hs]
    exact (SameQueues.of_rows rfl rfl rfl).serving

theorem attended_of_attending (h : Run.ReachableIf step Attending State.init s) :
    Attended s ∧ ∀ a s', Attending s a → step s a = some s' → Served s s' := by
  obtain ⟨⟨e, -, hbooks⟩, hatt⟩ : (∃ e, (∀ token, 0 ≤ e token) ∧ Books e s) ∧ Attended s := by
    refine h.invariant (fun s => (∃ e, (∀ token, 0 ≤ e token) ∧ Books e s) ∧ Attended s)
      ⟨⟨_, fun _ => le_rfl, books_init⟩, attended_init⟩ ?_
    rintro s a s' ⟨⟨e, he, hbooks⟩, hatt⟩ hok hs
    obtain ⟨e', hle, hbooks', -⟩ := hbooks.step he hs
    exact ⟨⟨e', fun token => (he token).trans (hle token), hbooks'⟩,
      (serving_step hbooks hok hs hatt).2⟩
  exact ⟨hatt, fun a s' hok hs => (serving_step hbooks hok hs hatt).1⟩

/-- One memory, two processes growing it: the second waits for the first. -/
def growBehind : List Act :=
  [.call (1, 0) (.reserve 1 (.memory plainMemory) (.ofInstance 1) (some 1) none),
    .call (1, 1) (.begin 0 50 (.growBegin 1 10)),
    .call (2, 2) (.begin 0 51 (.growBegin 1 10))]

theorem attended_growBehind : ∃ s, Run.execIf step Attending growBehind State.init = some s ∧
    s.queue 0 ≠ [] ∧ Attended s ∧
      ∀ a s', Attending s a → step s a = some s' → Served s s' := by
  have hrun : (Run.execIf step Attending growBehind State.init).any
      (fun s => decide (s.queue 0 ≠ [])) = true := by decide +kernel
  obtain ⟨s, hs, hqueue⟩ := (Option.any_eq_true _ _).mp hrun
  exact ⟨s, hs, of_decide_eq_true hqueue,
    attended_of_attending (Run.ReachableIf.init.of_execIf hs)⟩

/-- The memory's only holder goes while one growth is in flight and another waits. -/
theorem not_attended : ¬ ∀ s, Run.Reachable step State.init s → Attended s := by
  intro hall
  have hrun : (Run.exec step (growBehind ++ [.call (1, 3) (.release 0 (.ofInstance 1))])
      State.init).any (fun s => decide (s.queue 0 ≠ []) && (s.rows.lookup 0).isNone) = true := by
    decide +kernel
  obtain ⟨s, hs, hboth⟩ := (Option.any_eq_true _ _).mp hrun
  simp only [Bool.and_eq_true, decide_eq_true_eq, Option.isNone_iff_eq_none] at hboth
  obtain ⟨row, txn, hrow, -⟩ := hall s (Run.Reachable.of_exec .init hs) 0 hboth.1
  rw [hboth.2] at hrow
  exact absurd hrow.symm (Option.some_ne_none row)

end ErlangWasm.Keeper
