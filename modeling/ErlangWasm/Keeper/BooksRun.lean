import ErlangWasm.Keeper.BooksSteps

/-!
# Every message keeps the books

Transactions, and the step lemma.  A growth in flight is already in the totals and in the node
counter, so a commit moves nothing and an undo gives back exactly what the growth took.
-/

namespace ErlangWasm.Keeper

open Reasoning

variable {e : Token → ℤ} {s : State} {res : Resource} {row : Row} {m : MemoryMeta} {acc : Account}

theorem memoryRow_eq_some : s.memoryRow res = some (row, m, acc) ↔
    s.rows.lookup res = some row ∧ row.body = .memory m acc := by
  unfold State.memoryRow
  cases hrow : s.rows.lookup res with
  | none => simp
  | some w =>
    obtain ⟨body, pages, holders, retiring⟩ := w
    cases body with
    | memory m' acc' =>
      simp only [Option.some.injEq, Prod.mk.injEq]
      constructor
      · rintro ⟨rfl, rfl, rfl⟩
        exact ⟨rfl, rfl⟩
      · rintro ⟨rfl, hbody⟩
        exact ⟨rfl, Body.memory.inj hbody⟩
    | image bytes | cell | heap objs elems =>
      simp only [reduceCtorEq, Option.some.injEq, false_iff, not_and]
      rintro rfl
      simp

theorem Row.Ok.account (h : row.Ok) (hbody : row.body = .memory m acc) : acc.Ok row.pages := by
  unfold Row.Ok at h
  rwa [hbody] at h

/-- A memory's row replaced: its account, its pages, or both. -/
theorem Books.account (h : Books e s) {s' : State} (acc' : Account) (pages : ℕ)
    (hrow : s.rows.lookup res = some row) (hbody : row.body = .memory m acc)
    (hok : acc'.Ok pages)
    (hrows : s'.rows = s.rows.insert res { row with body := .memory m acc', pages := pages })
    (hnext : s.nextRef ≤ s'.nextRef)
    (hpages : s'.pages = s.pages + ((acc'.table + acc'.growth + acc'.arena) -
      (acc.table + acc.growth + acc.arena)))
    (htotals : ∀ token, s'.total token = s.total token +
      if token ∈ row.holders.keys then (pages : ℤ) - row.pages else 0)
    (himages : s'.images = s.images) (hsnapshot : s'.snapshot = s.snapshot)
    (hbelow : s'.belowZero = false) : Books e s' := by
  have hkind : ∀ bytes, row.body ≠ .image bytes := by simp [hbody]
  set row' : Row := { row with body := .memory m acc', pages := pages } with hrow'
  have hok' : row'.Ok := hok
  refine h.replace hrow hrows hok' hnext ?_ (fun token => ?_) himages (fun img => ?_) hsnapshot ?_
    (fun bytes hb => by simp [hrow'] at hb) hbelow
  · rw [hpages, Row.charged, Row.charged, hbody]
  · rw [htotals, hrow', Row.share_pages row _ pages token hkind (by simp)]
    simp only [mem_holders_keys]
    omega
  · rw [Row.overImage, Row.overImage, hbody]
  · rw [Row.imageBytes, Row.imageBytes, hbody]

theorem Books.finish (h : Books e s) (hrow : s.rows.lookup res = some row)
    (hbody : row.body = .memory m acc) (pid : Pid) (opId : Ref) (result : Outcome) :
    Books e (s.finish res row m acc pid opId result) := by
  refine Books.quiet ?_ (quiet_watchWriter _ _ _)
  have hok := (h.rows res row hrow).account hbody
  refine h.account { acc with txn := none, done := acc.done.insert pid (opId, result) } row.pages
    hrow hbody ?_ rfl le_rfl ?_ (fun token => ?_) rfl rfl h.notBelow
  · obtain ⟨htable, hphys⟩ := hok
    refine ⟨htable, ?_⟩
    cases htxn : acc.txn with
    | none => rwa [htxn] at hphys
    | some txn =>
      rw [htxn] at hphys
      cases txn <;> simp only at hphys ⊢ <;> omega
  · show s.pages = _
    rw [sub_self, add_zero]
  · show s.total token = _
    rw [sub_self, ite_self, add_zero]

theorem Books.undo (h : Books e s) (he : ∀ token, 0 ≤ e token)
    (hrow : s.rows.lookup res = some row) (hbody : row.body = .memory m acc) {txn : Txn}
    (htxn : acc.txn = some txn) : Books e (s.undo res row m acc txn) := by
  have hok := (h.rows res row hrow).account hbody
  obtain ⟨htable, hphys⟩ := hok
  rw [htxn] at hphys
  have hcharged := h.charged_le hrow
  rw [Row.charged, hbody] at hcharged
  simp only at hcharged
  cases txn with
  | grow opId pid before after reserved chunks =>
    simp only at hphys
    obtain ⟨hgrowth, harena, hafter, hbefore⟩ := hphys
    have hnodup := row.holders.keys_nodup
    set acc' : Account :=
      { acc with
        growth := acc.growth - reserved
        txn := none
        done := acc.done.insert pid (opId, .aborted) } with hacc'
    set row' : Row := { row with body := .memory m acc', pages := before } with hrow'
    set t := (s.putRow res row').releasePages reserved with ht
    have hle : ∀ token ∈ row.holders.keys, (after : ℤ) - before ≤ t.total token := by
      intro token htoken
      obtain ⟨owner, howner⟩ := Option.isSome_iff_exists.mp (mem_holders_keys.mp htoken)
      have hshare := h.share_le he hrow token
      rw [Row.share_of_mem howner, (h.rows res row hrow).counted_eq] at hshare
      show (after : ℤ) - before ≤ s.total token
      omega
    have hzero : t.belowZero = false := by
      show (s.belowZero || decide (s.pages - reserved < 0)) = false
      rw [h.notBelow, Bool.false_or, decide_eq_false_iff_not]
      omega
    have htally := tallied_subTotals row.holders.keys ((after : ℤ) - before) t
    refine h.account acc' before hrow hbody ⟨htable, ?_⟩ htally.rows htally.nextRef.ge ?_ (fun token => ?_) htally.images htally.snapshot
      (belowZero_foldl_subTotal hnodup _ t hzero hle)
    · show 0 ≤ acc.growth - reserved ∧ 0 ≤ acc.arena
      omega
    · refine htally.pages.trans ?_
      show s.pages - reserved = s.pages +
        ((acc.table + (acc.growth - reserved) + acc.arena) - (acc.table + acc.growth + acc.arena))
      omega
    · refine (total_foldl_subTotal hnodup _ token t hle).trans ?_
      show s.total token - _ = _
      split <;> omega
  | arena opId pid published target reserved =>
    simp only at hphys
    set acc' : Account :=
      { acc with
        arena := acc.arena - reserved
        txn := none
        done := acc.done.insert pid (opId, .aborted) } with hacc'
    refine h.account acc' row.pages hrow hbody ⟨htable, ?_⟩ rfl le_rfl ?_ (fun token => ?_) rfl rfl
      ?_
    · show 0 ≤ acc.growth ∧ 0 ≤ acc.arena - reserved
      omega
    · show s.pages - reserved = s.pages +
        ((acc.table + acc.growth + (acc.arena - reserved)) - (acc.table + acc.growth + acc.arena))
      omega
    · show s.total token = _
      rw [sub_self, ite_self, add_zero]
    · show (s.belowZero || decide (s.pages - reserved < 0)) = false
      rw [h.notBelow, Bool.false_or, decide_eq_false_iff_not]
      omega

/-! ## Starting -/

theorem Books.start (h : Books e s) (hrow : s.rows.lookup res = some row)
    (hbody : row.body = .memory m acc) (hidle : acc.txn = none) (opId : Ref) (pid : Pid)
    (req : TxnRequest) : Books e (s.start res row m acc opId pid req).2 := by
  obtain ⟨htable, hphys⟩ := (h.rows res row hrow).account hbody
  rw [hidle] at hphys
  obtain ⟨hgrowth, harena⟩ := hphys
  cases req with
  | growBegin delta ceiling =>
    unfold State.start State.startGrow
    dsimp only
    split
    · exact h
    · split
      · exact h
      · split
        · exact h
        · rename_i u hu
          have hu' := eq_of_reservePages hu
          subst hu'
          refine Books.quiet ?_ (quiet_watchWriter _ _ _)
          set after := row.pages + delta with hafter
          set reserved := growthPages after m.geometry.image m.geometry.chunk -
            growthPages row.pages m.geometry.image m.geometry.chunk with hreserved
          set acc' : Account :=
            { acc with
              growth := acc.growth + reserved
              txn := some (.grow opId pid row.pages after reserved
                (chunkCount after m.geometry.chunk))
              done := acc.done.erase pid } with hacc'
          set row' : Row := { row with pages := after, body := .memory m acc' } with hrow'
          set t : State := { s with pages := s.pages + reserved }.putRow res row' with ht
          have htally := tallied_addTotals row.holders.keys delta t
          refine h.account acc' after hrow hbody ⟨htable, ?_⟩ htally.rows htally.nextRef.ge ?_
            (fun token => ?_) htally.images htally.snapshot
            ((belowZero_foldl_addTotal _ _ t).trans h.notBelow)
          · show (reserved : ℤ) ≤ acc.growth + reserved ∧ 0 ≤ acc.arena ∧ after = after ∧
              row.pages ≤ after
            omega
          · refine htally.pages.trans ?_
            show s.pages + reserved = s.pages + ((acc.table + (acc.growth + reserved) + acc.arena) -
              (acc.table + acc.growth + acc.arena))
            omega
          · refine (total_foldl_addTotal row.holders.keys_nodup _ token t).trans ?_
            show s.total token + _ = _
            split <;> omega
  | arenaBegin target seen reserved =>
    unfold State.start State.startArena
    dsimp only
    split
    · exact h
    · split
      · exact h
      · split
        · exact h
        · rename_i u hu
          have hu' := eq_of_reservePages hu
          subst hu'
          refine Books.quiet ?_ (quiet_watchWriter _ _ _)
          set acc' : Account :=
            { acc with
              arena := acc.arena + reserved
              txn := some (.arena opId pid (s.tupleSize m.arenaRef) target reserved)
              done := acc.done.erase pid } with hacc'
          refine h.account acc' row.pages hrow hbody ⟨htable, ?_⟩ rfl le_rfl ?_ (fun token => ?_)
            rfl rfl h.notBelow
          · show 0 ≤ acc.growth ∧ (reserved : ℤ) ≤ acc.arena + reserved
            omega
          · show s.pages + reserved = s.pages + ((acc.table + acc.growth + (acc.arena + reserved)) -
              (acc.table + acc.growth + acc.arena))
            omega
          · show s.total token = _
            rw [sub_self, ite_self, add_zero]

theorem Books.transaction (h : Books e s) (res : Resource) (w : Waiter) :
    Books e (s.transaction res w).2 := by
  unfold State.transaction
  split
  · exact h
  · rename_i row m acc hmem
    obtain ⟨hrow, hbody⟩ := memoryRow_eq_some.mp hmem
    split
    · exact h
    · split
      · exact h
      · rename_i hidle
        exact h.start hrow hbody hidle _ _ _
      · split
        · exact h
        · exact h.same rfl rfl rfl rfl rfl rfl le_rfl

theorem Books.drain (res : Resource) (ws : List Waiter) :
    ∀ s : State, Books e s → Books e (s.drain res ws) := by
  induction ws with
  | nil => exact fun s h => h.same rfl rfl rfl rfl rfl rfl le_rfl
  | cons w ws ih =>
    intro s h
    unfold State.drain
    have hput : Books e { s with queued := s.queued.insert res ws } :=
      h.same rfl rfl rfl rfl rfl rfl le_rfl
    have hnext := hput.transaction res w
    split
    · rename_i r u hu
      rw [hu] at hnext
      have hreply : Books e (u.reply w.caller r) := hnext.same rfl rfl rfl rfl rfl rfl le_rfl
      dsimp only
      split
      · exact ih _ hreply
      · exact hreply
    · rename_i u hu
      rw [hu] at hnext
      exact hnext

theorem Books.nextTransaction (h : Books e s) (res : Resource) :
    Books e (s.nextTransaction res) :=
  Books.drain res _ s h

theorem Books.settle (h : Books e s) (he : ∀ token, 0 ≤ e token)
    (hrow : s.rows.lookup res = some row) (hbody : row.body = .memory m acc) {txn : Txn}
    (htxn : acc.txn = some txn) : Books e (s.settle res row m acc txn) := by
  unfold State.settle
  split
  · cases txn with
    | grow opId pid before after reserved chunks =>
      have hsize : Books e (s.publishSize m.pagesRef after) := h.quiet (quiet_publishSize _ _ _)
      exact (hsize.finish hrow hbody _ _ _).nextTransaction res
    | arena opId pid published target reserved =>
      exact (h.finish hrow hbody _ _ _).nextTransaction res
  · exact (h.undo he hrow hbody htxn).nextTransaction res

/-! ## Messages -/

theorem Books.forgetOutcome (h : Books e s) (res : Resource) (opId : Ref) (pid : Pid) :
    Books e (s.forgetOutcome res opId pid) := by
  unfold State.forgetOutcome
  split
  · rename_i row m acc hmem
    obtain ⟨hrow, hbody⟩ := memoryRow_eq_some.mp hmem
    split
    · refine Books.quiet ?_ (quiet_unwatchWriter _ _ _)
      set acc' : Account := { acc with done := acc.done.erase pid } with hacc'
      have hold : acc.Ok row.pages := (h.rows res row hrow).account hbody
      have hok : acc'.Ok row.pages := hold
      refine h.account acc' row.pages hrow hbody hok rfl le_rfl ?_ (fun token => ?_) rfl rfl
        h.notBelow
      · show s.pages = _
        rw [sub_self, add_zero]
      · show s.total token = _
        rw [sub_self, ite_self, add_zero]
    · exact h
  · exact h.quiet (quiet_unwatchWriter _ _ _)

/-- A memory's row without the outcome kept for `pid`. -/
def Row.withoutDone (row : Row) (m : MemoryMeta) (acc : Account) (pid : Pid) : Row :=
  { row with body := .memory m { acc with done := acc.done.erase pid } }

theorem writerGone_eq {pid : Pid} (h : s.memoryRow res = some (row, m, acc)) :
    s.writerGone pid res =
      let t := if (acc.done.lookup pid).isSome then s.putRow res (row.withoutDone m acc pid) else s
      match acc.txn with
      | some txn => if txn.pid = pid then t.settle res (row.withoutDone m acc pid) m
          { acc with done := acc.done.erase pid } txn else t
      | none => t := by
  unfold State.writerGone
  rw [h]
  rfl

/-- `writer_gone/3` drops the outcome kept, and settles the writer's own transaction. -/
theorem writerGone_cases (hrow : s.rows.lookup res = some row) (hbody : row.body = .memory m acc)
    (pid : Pid) : ∃ t, (t = s ∨ t = s.putRow res (row.withoutDone m acc pid)) ∧
      t.rows.lookup res = some (row.withoutDone m acc pid) ∧
      (s.writerGone pid res = t ∨ ∃ txn, acc.txn = some txn ∧ txn.pid = pid ∧
        s.writerGone pid res = t.settle res (row.withoutDone m acc pid) m
          { acc with done := acc.done.erase pid } txn) := by
  have hput : ∃ t, (t = s ∨ t = s.putRow res (row.withoutDone m acc pid)) ∧
      t.rows.lookup res = some (row.withoutDone m acc pid) ∧
      (if (acc.done.lookup pid).isSome then s.putRow res (row.withoutDone m acc pid) else s) =
        t := by
    split
    · exact ⟨_, Or.inr rfl, AList.lookup_insert _, rfl⟩
    · rename_i hkept
      -- with no outcome kept the row is the one it already was
      have hnone : acc.done.lookup pid = none := by simpa using hkept
      have hsame : row.withoutDone m acc pid = row := by
        unfold Row.withoutDone
        rw [Table.erase_of_lookup_none hnone]
        show ({ row with body := .memory m acc } : Row) = row
        rw [← hbody]
      exact ⟨s, Or.inl rfl, hsame.symm ▸ hrow, rfl⟩
  obtain ⟨t, hor, hlookup, heq⟩ := hput
  refine ⟨t, hor, hlookup, ?_⟩
  rw [writerGone_eq (memoryRow_eq_some.mpr ⟨hrow, hbody⟩), heq]
  cases htxn : acc.txn with
  | none => exact Or.inl rfl
  | some txn =>
    by_cases hpid : txn.pid = pid
    · exact Or.inr ⟨txn, rfl, hpid, if_pos hpid⟩
    · exact Or.inl (if_neg hpid)

theorem writerGone_of_none (h : s.memoryRow res = none) (pid : Pid) :
    s.writerGone pid res = s := by
  unfold State.writerGone
  rw [h]

theorem Books.withoutDone (h : Books e s) (hrow : s.rows.lookup res = some row)
    (hbody : row.body = .memory m acc) (pid : Pid) :
    Books e (s.putRow res (row.withoutDone m acc pid)) := by
  have hold : acc.Ok row.pages := (h.rows res row hrow).account hbody
  refine h.account { acc with done := acc.done.erase pid } row.pages hrow hbody hold rfl le_rfl ?_
    (fun token => ?_) rfl rfl h.notBelow
  · show s.pages = _
    rw [sub_self, add_zero]
  · show s.total token = _
    rw [sub_self, ite_self, add_zero]

theorem Books.writerGone (h : Books e s) (he : ∀ token, 0 ≤ e token) (pid : Pid)
    (res : Resource) : Books e (s.writerGone pid res) := by
  cases hmem : s.memoryRow res with
  | none => exact (writerGone_of_none hmem pid).symm ▸ h
  | some found =>
    obtain ⟨row, m, acc⟩ := found
    obtain ⟨hrow, hbody⟩ := memoryRow_eq_some.mp hmem
    obtain ⟨t, hor, hlookup, hgone⟩ := writerGone_cases hrow hbody pid
    have ht : Books e t := by
      rcases hor with rfl | rfl
      · exact h
      · exact h.withoutDone hrow hbody pid
    rcases hgone with hgone | ⟨txn, htxn, -, hgone⟩
    · exact hgone.symm ▸ ht
    · rw [hgone]
      exact ht.settle he hlookup rfl htxn

theorem Books.writersGone (he : ∀ token, 0 ≤ e token) (pid : Pid) (rs : List Resource) :
    ∀ s : State, Books e s →
      Books e (rs.foldl (fun (s : State) res => s.writerGone pid res) s) := by
  induction rs with
  | nil => exact fun s h => h
  | cons r rs ih => exact fun s h => ih _ (h.writerGone he pid r)

theorem Books.handleDown (h : Books e s) (he : ∀ token, 0 ≤ e token) (pid : Pid) (mon : Ref) :
    Books e (s.handleDown pid mon) := by
  have hforget : ∀ t : State, Books e t → Books e (t.forgetHolder pid mon) := by
    intro t ht
    unfold State.forgetHolder
    split
    · exact Books.dropAll he _ _ (ht.quiet (quiet_unwatch _ _))
    · exact ht
  unfold State.handleDown
  dsimp only
  split
  · split
    · exact hforget _ (Books.writersGone he _ _ _ (h.same rfl rfl rfl rfl rfl rfl le_rfl))
    · exact hforget _ h
  · exact hforget _ h

theorem Books.growCommit (h : Books e s) (pid : Pid) (res : Resource) (opId : Ref)
    (chunks : List Ref) : Books e (s.growCommit pid res opId chunks).2 := by
  unfold State.growCommit
  split
  · exact h
  · rename_i row m acc hmem
    obtain ⟨hrow, hbody⟩ := memoryRow_eq_some.mp hmem
    split
    · rename_i op writer before after reserved count htxn
      split
      · have hpublish := h.quiet ((quiet_publishChunks s m.chunksRef chunks count).trans
          (quiet_publishSize _ m.pagesRef after))
        exact (hpublish.finish hrow hbody _ _ _).nextTransaction res
      · exact h
    · exact h

theorem Books.arenaCommit (h : Books e s) (pid : Pid) (res : Resource) (opId : Ref)
    (arena : List Ref) : Books e (s.arenaCommit pid res opId arena).2 := by
  unfold State.arenaCommit
  split
  · exact h
  · rename_i row m acc hmem
    obtain ⟨hrow, hbody⟩ := memoryRow_eq_some.mp hmem
    split
    · rename_i op writer published target reserved htxn
      split
      · have hpublish := h.quiet (quiet_publishChunks s m.arenaRef arena target)
        exact (hpublish.finish hrow hbody _ _ _).nextTransaction res
      · exact h
    · exact h

theorem Books.txnAbort (h : Books e s) (he : ∀ token, 0 ≤ e token) (pid : Pid) (res : Resource)
    (opId : Ref) : Books e (s.txnAbort pid res opId) := by
  unfold State.txnAbort
  split
  · exact h.forgetOutcome _ _ _
  · rename_i row m acc hmem
    obtain ⟨hrow, hbody⟩ := memoryRow_eq_some.mp hmem
    split
    · rename_i txn htxn
      split
      · exact h.settle he hrow hbody htxn
      · exact h.forgetOutcome _ _ _
    · exact h.forgetOutcome _ _ _

theorem Books.reconcile (h : Books e s) (he : ∀ token, 0 ≤ e token) (res : Resource)
    (ceiling : Option ℕ) (extra : ℕ) : Books e (s.reconcile res ceiling extra).2 := by
  unfold State.reconcile
  split
  · exact h
  · rename_i row hrow
    split
    · rename_i objs elems hbody
      refine h.doResize he (fun w hw => ?_) _ _ _
      rw [hrow, Option.some.injEq] at hw
      exact ⟨objs, elems, hw ▸ hbody⟩
    · exact h

/-! ## Transfers -/

/-- `dst` does not hold `res` beside `src`, so taking `src`'s place counts the row once. -/
def State.Undoubled (s : State) (src dst : Token) (res : Resource) : Prop :=
  src = dst ∨ ∀ row, s.rows.lookup res = some row → (row.holders.lookup src).isSome →
    row.holders.lookup dst = none

instance (s : State) (src dst : Token) (res : Resource) : Decidable (s.Undoubled src dst res) := by
  unfold State.Undoubled
  cases h : s.rows.lookup res with
  | none => exact isTrue (Or.inr fun _ hrow => by simp at hrow)
  | some row =>
    exact decidable_of_iff (src = dst ∨ ((row.holders.lookup src).isSome →
      row.holders.lookup dst = none)) (by simp)

theorem retag_rows (src dst : Token) (owner : Option Pid) {old : Option Pid}
    (hrow : s.rows.lookup res = some row) (hsrc : row.holders.lookup src = some old) :
    (s.retag src dst owner res).rows = s.rows.insert res
      { row with holders := (row.holders.erase src).insert dst owner } := by
  unfold State.retag
  rw [hrow]
  simp only [hsrc]
  exact ((quiet_unhold _ _ _ _).trans (quiet_watch _ _ _ _)).rows

theorem retag_of_not_held (src dst : Token) (owner : Option Pid)
    (h : ∀ row, s.rows.lookup res = some row → row.holders.lookup src = none) :
    s.retag src dst owner res = s := by
  unfold State.retag
  cases hrow : s.rows.lookup res with
  | none => rfl
  | some row => simp only [h row hrow]

/-- Either `src` holds `res` or `retag/5` does nothing. -/
theorem retag_cases (s : State) (src : Token) (res : Resource) :
    (∀ row, s.rows.lookup res = some row → row.holders.lookup src = none) ∨
      ∃ row old, s.rows.lookup res = some row ∧ row.holders.lookup src = some old := by
  cases hrow : s.rows.lookup res with
  | none => exact Or.inl fun row h => by simp at h
  | some row =>
    cases hsrc : row.holders.lookup src with
    | none =>
      refine Or.inl fun w hw => ?_
      rw [Option.some.injEq] at hw
      exact hw ▸ hsrc
    | some old => exact Or.inr ⟨row, old, rfl, hsrc⟩

theorem State.Undoubled.retag {src dst : Token} {r : Resource} (h : s.Undoubled src dst r)
    (owner : Option Pid) (res : Resource) : (s.retag src dst owner res).Undoubled src dst r := by
  rcases retag_cases s src res with hnot | ⟨row, old, hrow, hsrc⟩
  · rwa [retag_of_not_held src dst owner hnot]
  · rcases h with heq | h
    · exact Or.inl heq
    · by_cases heq : src = dst
      · exact Or.inl heq
      · refine Or.inr fun w hw hwsrc => ?_
        rw [retag_rows src dst owner hrow hsrc, Table.lookup_insert_eq] at hw
        split at hw
        · -- `src` has just left this row
          obtain rfl := Option.some.inj hw
          simp [heq] at hwsrc
        · exact h w hw hwsrc

theorem Books.retags (src dst : Token) (owner : Option Pid) (moved : List Resource) :
    ∀ (e : Token → ℤ) (s : State), (∀ token, 0 ≤ e token) → Books e s →
      ∃ e', (∀ token, e token ≤ e' token) ∧
        Books e' (moved.foldl (fun (s : State) res => s.retag src dst owner res) s) ∧
        ((∀ res ∈ moved, s.Undoubled src dst res) → e' = e) := by
  induction moved with
  | nil => exact fun e s _ h => ⟨e, fun _ => le_rfl, h, fun _ => rfl⟩
  | cons res moved ih =>
    intro e s he h
    have hstep : ∃ e₁, (∀ token, e token ≤ e₁ token) ∧ Books e₁ (s.retag src dst owner res) ∧
        (s.Undoubled src dst res → e₁ = e) := by
      rcases retag_cases s src res with hnot | ⟨row, old, hrow, hsrc⟩
      · rw [retag_of_not_held src dst owner hnot]
        exact ⟨e, fun _ => le_rfl, h, fun _ => rfl⟩
      · refine ⟨_, fun token => ?_, h.retag he src dst owner hrow hsrc, fun hu => ?_⟩
        · have hpos := row.share_nonneg dst
          unfold retagged
          split <;> omega
        · funext token
          unfold retagged
          split
          · rename_i hd
            rcases hu with heq | hu
            · exact absurd heq.symm hd.2
            · have hnone := hu row hrow (by rw [hsrc]; rfl)
              rw [Row.share, hnone]
              exact add_zero _
          · exact add_zero _
    obtain ⟨e₁, hle, hbooks, hsame⟩ := hstep
    obtain ⟨e', hle', hbooks', hsame'⟩ := ih e₁ (s.retag src dst owner res)
      (fun token => (he token).trans (hle token)) hbooks
    refine ⟨e', fun token => (hle token).trans (hle' token), hbooks', fun hu => ?_⟩
    rw [hsame' fun r hr => (hu r (List.mem_cons_of_mem _ hr)).retag owner res,
      hsame (hu res List.mem_cons_self)]

/-! ## The step lemma -/

/-- The step is no transfer onto a token that already holds a resource it moves. -/
def Undoubling (s : State) : Act → Prop
  | .call caller (.transfer src dst _) =>
      ∀ res ∈ s.heldUnder caller.1 src, s.Undoubled src dst res
  | _ => True

instance (s : State) (a : Act) : Decidable (Undoubling s a) := by
  unfold Undoubling
  split <;> infer_instance

theorem Books.transfer (h : Books e s) (he : ∀ token, 0 ≤ e token) (pid : Pid) (src dst : Token)
    (owner : Option Pid) : ∃ e', (∀ token, e token ≤ e' token) ∧
      Books e' (s.transfer pid src dst owner) ∧
      ((∀ res ∈ s.heldUnder pid src, s.Undoubled src dst res) → e' = e) := by
  unfold State.transfer
  dsimp only
  split
  · exact Books.retags src dst owner _ e _ he (h.forgetCap src)
  · exact Books.retags src dst owner _ e _ he (h.moveCap src dst)

theorem Books.discard (h : Books e s) (he : ∀ token, 0 ≤ e token) (pid : Pid) (token : Token) :
    Books e (s.discard pid token) :=
  (Books.dropAll he _ s h).forgetCap token

theorem Books.seeded_snapshot (h : Books e s) :
    Books e { s with snapshot := some (s.snapshot.getD 0) } := by
  refine ⟨h.rows, h.fresh, h.pages, h.totals, h.images, fun n hn => ?_,
    fun res row bytes hrow hbody => by simp, h.notBelow⟩
  obtain rfl : s.snapshot.getD 0 = n := by simpa using hn
  cases hsnap : s.snapshot with
  | some k => exact h.snapshot k hsnap
  | none =>
    -- nothing is charged to a counter that was never there
    refine (Table.total_eq_zero fun res row hrow => ?_).symm
    unfold Row.imageBytes
    split
    · rename_i bytes hbody
      exact absurd hsnap (h.seeded res row bytes hrow hbody)
    · rfl

theorem Books.handleCall (h : Books e s) (he : ∀ token, 0 ≤ e token) (caller : Caller)
    (req : Request) : ∃ e', (∀ token, e token ≤ e' token) ∧
      Books e' (s.handleCall caller req).2 ∧ (Undoubling s (.call caller req) → e' = e) := by
  have hkeep : Books e (s.handleCall caller req).2 → ∃ e', (∀ token, e token ≤ e' token) ∧
      Books e' (s.handleCall caller req).2 ∧ (Undoubling s (.call caller req) → e' = e) :=
    fun hbooks => ⟨e, fun _ => le_rfl, hbooks, fun _ => rfl⟩
  cases req with
  | setLimit token max => exact hkeep (h.setCap token max)
  | totalOf token => exact hkeep h
  | reserve pages kind token owner limit => exact hkeep (h.reserve _ _ _ _ _)
  | acquire res token owner limit => exact hkeep (h.acquire _ _ _ _)
  | release res token => exact hkeep (h.drop he res token)
  | releaseAll pairs => exact hkeep (Books.dropAll he pairs s h)
  | discard token => exact hkeep (h.discard he _ token)
  | transfer src dst owner => exact h.transfer he caller.1 src dst owner
  | reconcile res ceiling extra => exact hkeep (h.reconcile he _ _ _)
  | imageReserve bytes owner id => exact hkeep (h.imageReserve _ _ _)
  | begin res opId req => exact hkeep (h.transaction res _)
  | growCommit res opId chunks => exact hkeep (h.growCommit _ _ _ _)
  | arenaCommit res opId arena => exact hkeep (h.arenaCommit _ _ _ _)
  | txnAbort res opId => exact hkeep (h.txnAbort he _ _ _)

/-- Any message keeps the books, and only a transfer that doubles a holder adds to the excess. -/
theorem Books.step (h : Books e s) (he : ∀ token, 0 ≤ e token) {a : Act} {s' : State}
    (hs : step s a = some s') : ∃ e', (∀ token, e token ≤ e' token) ∧ Books e' s' ∧
      (Undoubling s a → e' = e) := by
  have hkeep : Books e s' → ∃ e', (∀ token, e token ≤ e' token) ∧ Books e' s' ∧
      (Undoubling s a → e' = e) := fun hbooks => ⟨e, fun _ => le_rfl, hbooks, fun _ => rfl⟩
  cases a with
  | call caller req =>
    obtain ⟨e', hle, hbooks, hsame⟩ := h.handleCall he caller req
    refine ⟨e', hle, ?_, hsame⟩
    simp only [Keeper.step] at hs
    split at hs
    · rw [← Option.some.inj hs]
      exact hbooks.same rfl rfl rfl rfl rfl rfl le_rfl
    · exact Option.some.inj hs ▸ hbooks
  | ack res opId pid => exact hkeep (Option.some.inj hs ▸ h.forgetOutcome res opId pid)
  | down pid mon => exact hkeep (Option.some.inj hs ▸ h.handleDown he pid mon)
  | seedSnapshotCounter => exact hkeep (Option.some.inj hs ▸ h.seeded_snapshot)
  | putCell ref tuple | putSize ref pages | putWords tab words | setPageLimit limit
  | setSnapshotLimit limit =>
    rw [← Option.some.inj hs]
    exact ⟨e, fun _ => le_rfl, h.same rfl rfl rfl rfl rfl rfl le_rfl, fun _ => rfl⟩

/-- In every run the totals are at least what the rows say. -/
theorem books_of_reachable (h : Run.Reachable step State.init s) :
    ∃ e, (∀ token, 0 ≤ e token) ∧ Books e s := by
  refine h.invariant (fun s => ∃ e, (∀ token, 0 ≤ e token) ∧ Books e s)
    ⟨_, fun _ => le_rfl, books_init⟩ ?_
  rintro s a s' ⟨e, he, hbooks⟩ - hs
  obtain ⟨e', hle, hbooks', -⟩ := hbooks.step he hs
  exact ⟨e', fun token => (he token).trans (hle token), hbooks'⟩

end ErlangWasm.Keeper
