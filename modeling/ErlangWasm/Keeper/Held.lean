import ErlangWasm.Keeper.BooksRun

/-!
# Who holds what

The reverse index `held` against the rows' own holder maps.  Transactions and heap measurements
leave both alone; the operations that add, drop and move holders keep the index exact, except that
a transfer onto a token another process already holds leaves that process's entry behind.
-/

namespace ErlangWasm.Keeper

open Reasoning

variable {s s' s'' : State} {res : Resource} {row : Row} {m : MemoryMeta} {acc : Account}

def State.holdersOf (s : State) (res : Resource) : Option (Table Token (Option Pid)) :=
  (s.rows.lookup res).map Row.holders

/-- No holder came, went or moved. -/
structure SameHolders (s s' : State) : Prop where
  held : s'.held = s.held
  mons : s'.mons = s.mons
  holders : ∀ res, s'.holdersOf res = s.holdersOf res

theorem SameHolders.refl (s : State) : SameHolders s s := ⟨rfl, rfl, fun _ => rfl⟩

theorem SameHolders.trans (h : SameHolders s s') (h' : SameHolders s' s'') : SameHolders s s'' :=
  ⟨h'.held.trans h.held, h'.mons.trans h.mons, fun res => (h'.holders res).trans (h.holders res)⟩

theorem SameHolders.of_eq (hrows : s'.rows = s.rows) (hheld : s'.held = s.held)
    (hmons : s'.mons = s.mons) : SameHolders s s' :=
  ⟨hheld, hmons, fun r => by rw [State.holdersOf, State.holdersOf, hrows]⟩

/-- A row replaced by one with the same holders. -/
theorem SameHolders.of_insert {row' : Row} (hrow : s.rows.lookup res = some row)
    (hrows : s'.rows = s.rows.insert res row') (hheld : s'.held = s.held)
    (hmons : s'.mons = s.mons) (hholders : row'.holders = row.holders) : SameHolders s s' := by
  refine ⟨hheld, hmons, fun r => ?_⟩
  rw [State.holdersOf, State.holdersOf, hrows, Table.lookup_insert_eq]
  split
  · rename_i hr
    rw [hr, hrow, Option.map_some, Option.map_some, hholders]
  · rfl

theorem Tallied.sameHolders (h : Tallied s s') : SameHolders s s' := .of_eq h.rows h.held h.mons

section SameHolders

variable (s res)

theorem sameHolders_watchWriter (pid : Pid) : SameHolders s (s.watchWriter pid res) := by
  unfold State.watchWriter
  split <;> exact ⟨rfl, rfl, fun _ => rfl⟩

theorem sameHolders_unwatchWriter (pid : Pid) : SameHolders s (s.unwatchWriter pid res) := by
  unfold State.unwatchWriter
  split
  · exact .refl s
  · split <;> exact ⟨rfl, rfl, fun _ => rfl⟩

variable {s res}

theorem sameHolders_putAccount (hrow : s.rows.lookup res = some row) (m : MemoryMeta)
    (acc : Account) : SameHolders s (s.putAccount res row m acc) :=
  .of_insert hrow rfl rfl rfl rfl

theorem sameHolders_finish (hrow : s.rows.lookup res = some row) (m : MemoryMeta) (acc : Account)
    (pid : Pid) (opId : Ref) (result : Outcome) :
    SameHolders s (s.finish res row m acc pid opId result) :=
  (sameHolders_putAccount hrow m _).trans (sameHolders_watchWriter _ _ _)

theorem sameHolders_undo (hrow : s.rows.lookup res = some row) (m : MemoryMeta) (acc : Account)
    (txn : Txn) : SameHolders s (s.undo res row m acc txn) := by
  cases txn with
  | grow opId pid before after reserved chunks =>
    refine SameHolders.trans ?_ (tallied_subTotals _ _ _).sameHolders
    exact .of_insert hrow rfl rfl rfl rfl
  | arena opId pid published target reserved =>
    exact .of_insert hrow rfl rfl rfl rfl

theorem sameHolders_start (hrow : s.rows.lookup res = some row) (m : MemoryMeta) (acc : Account)
    (opId : Ref) (pid : Pid) (req : TxnRequest) :
    SameHolders s (s.start res row m acc opId pid req).2 := by
  cases req with
  | growBegin delta ceiling =>
    unfold State.start State.startGrow
    dsimp only
    split
    · exact .refl s
    · split
      · exact .refl s
      · split
        · exact .refl s
        · rename_i u hu
          have hu' := eq_of_reservePages hu
          subst hu'
          refine SameHolders.trans ?_ (sameHolders_watchWriter _ _ _)
          refine SameHolders.trans ?_ (tallied_addTotals _ _ _).sameHolders
          exact .of_insert hrow rfl rfl rfl rfl
  | arenaBegin target seen reserved =>
    unfold State.start State.startArena
    dsimp only
    split
    · exact .refl s
    · split
      · exact .refl s
      · split
        · exact .refl s
        · rename_i u hu
          have hu' := eq_of_reservePages hu
          subst hu'
          refine SameHolders.trans ?_ (sameHolders_watchWriter _ _ _)
          exact .of_insert hrow rfl rfl rfl rfl

end SameHolders

theorem sameHolders_transaction (s : State) (res : Resource) (w : Waiter) :
    SameHolders s (s.transaction res w).2 := by
  unfold State.transaction
  split
  · exact .refl s
  · rename_i row m acc hmem
    obtain ⟨hrow, -⟩ := memoryRow_eq_some.mp hmem
    split
    · exact .refl s
    · split
      · exact .refl s
      · exact sameHolders_start hrow _ _ _ _ _
      · split
        · exact .refl s
        · exact .of_eq rfl rfl rfl

theorem sameHolders_drain (res : Resource) (ws : List Waiter) :
    ∀ s : State, SameHolders s (s.drain res ws) := by
  induction ws with
  | nil => exact fun s => .of_eq rfl rfl rfl
  | cons w ws ih =>
    intro s
    unfold State.drain
    have hput : SameHolders s { s with queued := s.queued.insert res ws } := .of_eq rfl rfl rfl
    have hnext := hput.trans (sameHolders_transaction _ res w)
    split
    · rename_i r u hu
      rw [hu] at hnext
      have hreply : SameHolders s (u.reply w.caller r) := hnext.trans (.of_eq rfl rfl rfl)
      dsimp only
      split
      · exact hreply.trans (ih _)
      · exact hreply
    · rename_i u hu
      rw [hu] at hnext
      exact hnext

theorem sameHolders_settle (hrow : s.rows.lookup res = some row) (m : MemoryMeta) (acc : Account)
    (txn : Txn) : SameHolders s (s.settle res row m acc txn) := by
  unfold State.settle
  split
  · cases txn with
    | grow opId pid before after reserved chunks =>
      have hsize : SameHolders s (s.publishSize m.pagesRef after) := .of_eq rfl rfl rfl
      have hrow' : (s.publishSize m.pagesRef after).rows.lookup res = some row := hrow
      exact (hsize.trans (sameHolders_finish hrow' _ _ _ _ _)).trans (sameHolders_drain _ _ _)
    | arena opId pid published target reserved =>
      exact (sameHolders_finish hrow _ _ _ _ _).trans (sameHolders_drain _ _ _)
  · exact (sameHolders_undo hrow _ _ _).trans (sameHolders_drain _ _ _)

theorem sameHolders_forgetOutcome (s : State) (res : Resource) (opId : Ref) (pid : Pid) :
    SameHolders s (s.forgetOutcome res opId pid) := by
  unfold State.forgetOutcome
  split
  · rename_i row m acc hmem
    obtain ⟨hrow, -⟩ := memoryRow_eq_some.mp hmem
    split
    · exact (sameHolders_putAccount hrow _ _).trans (sameHolders_unwatchWriter _ _ _)
    · exact .refl s
  · exact sameHolders_unwatchWriter _ _ _

theorem sameHolders_writerGone (s : State) (pid : Pid) (res : Resource) :
    SameHolders s (s.writerGone pid res) := by
  cases hmem : s.memoryRow res with
  | none => exact (writerGone_of_none hmem pid).symm ▸ .refl s
  | some found =>
    obtain ⟨row, m, acc⟩ := found
    obtain ⟨hrow, hbody⟩ := memoryRow_eq_some.mp hmem
    obtain ⟨t, hor, hlookup, hgone⟩ := writerGone_cases hrow hbody pid
    have ht : SameHolders s t := by
      rcases hor with rfl | rfl
      · exact .refl t
      · exact .of_insert hrow rfl rfl rfl rfl
    rcases hgone with hgone | ⟨txn, -, -, hgone⟩
    · exact hgone.symm ▸ ht
    · rw [hgone]
      exact ht.trans (sameHolders_settle hlookup _ _ _)

theorem sameHolders_writersGone (pid : Pid) (rs : List Resource) : ∀ s : State,
    SameHolders s (rs.foldl (fun (s : State) res => s.writerGone pid res) s) := by
  induction rs with
  | nil => exact fun s => .refl s
  | cons r rs ih => exact fun s => (sameHolders_writerGone s pid r).trans (ih _)

theorem sameHolders_growCommit (s : State) (pid : Pid) (res : Resource) (opId : Ref)
    (chunks : List Ref) : SameHolders s (s.growCommit pid res opId chunks).2 := by
  unfold State.growCommit
  split
  · exact .refl s
  · rename_i row m acc hmem
    obtain ⟨hrow, -⟩ := memoryRow_eq_some.mp hmem
    split
    · rename_i op writer before after reserved count htxn
      split
      · have hpublish : SameHolders s ((s.publishChunks m.chunksRef chunks count).publishSize
            m.pagesRef after) := .of_eq rfl rfl rfl
        have hrow' : ((s.publishChunks m.chunksRef chunks count).publishSize
            m.pagesRef after).rows.lookup res = some row := hrow
        exact (hpublish.trans (sameHolders_finish hrow' _ _ _ _ _)).trans (sameHolders_drain _ _ _)
      · exact .refl s
    · exact .refl s

theorem sameHolders_arenaCommit (s : State) (pid : Pid) (res : Resource) (opId : Ref)
    (arena : List Ref) : SameHolders s (s.arenaCommit pid res opId arena).2 := by
  unfold State.arenaCommit
  split
  · exact .refl s
  · rename_i row m acc hmem
    obtain ⟨hrow, -⟩ := memoryRow_eq_some.mp hmem
    split
    · rename_i op writer published target reserved htxn
      split
      · have hpublish : SameHolders s (s.publishChunks m.arenaRef arena target) :=
          .of_eq rfl rfl rfl
        have hrow' : (s.publishChunks m.arenaRef arena target).rows.lookup res = some row := hrow
        exact (hpublish.trans (sameHolders_finish hrow' _ _ _ _ _)).trans (sameHolders_drain _ _ _)
      · exact .refl s
    · exact .refl s

theorem sameHolders_txnAbort (s : State) (pid : Pid) (res : Resource) (opId : Ref) :
    SameHolders s (s.txnAbort pid res opId) := by
  unfold State.txnAbort
  split
  · exact sameHolders_forgetOutcome _ _ _ _
  · rename_i row m acc hmem
    obtain ⟨hrow, -⟩ := memoryRow_eq_some.mp hmem
    split
    · split
      · exact sameHolders_settle hrow _ _ _
      · exact sameHolders_forgetOutcome _ _ _ _
    · exact sameHolders_forgetOutcome _ _ _ _

theorem sameHolders_reconcile (s : State) (res : Resource) (ceiling : Option ℕ) (extra : ℕ) :
    SameHolders s (s.reconcile res ceiling extra).2 := by
  unfold State.reconcile
  split
  · exact .refl s
  · rename_i row hrow
    split
    · unfold State.doResize
      rw [hrow]
      simp only
      split
      · refine SameHolders.trans ?_ (tallied_subTotals _ _ _).sameHolders
        exact .of_insert hrow rfl rfl rfl rfl
      · rw [grow_snd]
        refine SameHolders.trans ?_ (tallied_addTotals _ _ _).sameHolders
        exact .of_insert hrow rfl rfl rfl rfl
    · exact .refl s

/-! ## Rows after a drop -/

/-- A retired resource goes, and with it at most an image nobody holds. -/
theorem retire_rows (s : State) (res : Resource) (row : Row) :
    (s.retire res row).rows = s.rows.erase res ∨
      ∃ img w bytes, (s.rows.erase res).lookup img = some w ∧ w.body = .image bytes ∧
        w.holders.keys = [] ∧ (s.retire res row).rows = (s.rows.erase res).erase img := by
  unfold State.retire State.afterRetire
  split
  · split
    · rename_i img _
      set t := (s.retireRow res row).countImage _ (-1) with ht
      have hrows : t.rows = s.rows.erase res := retireRow_rows s res row
      unfold State.retireImage
      split
      · exact Or.inl hrows
      · rename_i w hw
        split
        · rename_i bytes hbytes
          split
          · rename_i hlast
            refine Or.inr ⟨img, w, bytes, hrows ▸ hw, hbytes, hlast.2, ?_⟩
            rw [retireRow_rows, hrows]
          · exact Or.inl hrows
        · exact Or.inl hrows
    · exact Or.inl (retireRow_rows s res row)
  · exact Or.inl (retireRow_rows s res row)

/-- What a drop does not move: every other holder of every resource. -/
theorem retireImage_held (s : State) (img : Resource) : (s.retireImage img).held = s.held := by
  unfold State.retireImage
  split
  · rfl
  · split
    · split
      · exact retireRow_held _ _ _
      · rfl
    · rfl

theorem retire_held (s : State) (res : Resource) (row : Row) :
    (s.retire res row).held = s.held := by
  unfold State.retire State.afterRetire
  split
  · split
    · exact (retireImage_held _ _).trans (retireRow_held _ _ _)
    · exact retireRow_held _ _ _
  · exact retireRow_held _ _ _

/-- The owner a row names for a token, whoever it is. -/
def State.ownerOf (s : State) (res : Resource) (token : Token) : Option (Option Pid) :=
  (s.holdersOf res).bind fun holders => holders.lookup token

theorem ownerOf_of_lookup {token : Token} (hrow : s.rows.lookup res = some row) :
    s.ownerOf res token = row.holders.lookup token := by
  unfold State.ownerOf State.holdersOf
  rw [hrow]
  rfl

theorem ownerOf_of_none {token : Token} (hrow : s.rows.lookup res = none) :
    s.ownerOf res token = none := by
  unfold State.ownerOf State.holdersOf
  rw [hrow]
  rfl

/-- Either `token` holds `res` or `drop/3` does nothing. -/
theorem drop_of_not_held {token : Token} (h : s.ownerOf res token = none) :
    s.drop res token = s := by
  unfold State.drop
  cases hrow : s.rows.lookup res with
  | none => rfl
  | some row =>
    rw [ownerOf_of_lookup hrow] at h
    simp only [h]

theorem exists_row_of_ownerOf {token : Token} {owner : Option Pid}
    (h : s.ownerOf res token = some owner) :
    ∃ row, s.rows.lookup res = some row ∧ row.holders.lookup token = some owner := by
  cases hrow : s.rows.lookup res with
  | none =>
    rw [ownerOf_of_none hrow] at h
    simp at h
  | some row => exact ⟨row, rfl, ownerOf_of_lookup hrow ▸ h⟩

/-- After a drop the rows name the owners they did, but for the pair dropped. -/
theorem ownerOf_drop (s : State) (res : Resource) (token : Token) (r : Resource) (t : Token) :
    (s.drop res token).ownerOf r t =
      if r = res ∧ t = token then none else s.ownerOf r t := by
  cases howner : s.ownerOf res token with
  | none =>
    rw [drop_of_not_held howner]
    split
    · rename_i h
      rw [h.1, h.2, howner]
    · rfl
  | some owner =>
    obtain ⟨row, hrow, hlookup⟩ := exists_row_of_ownerOf howner
    unfold State.drop
    rw [hrow]
    simp only [hlookup]
    set u := (s.subTotal token row.counted).unhold owner res token with hu
    have hrows : u.rows = s.rows := (quiet_unhold _ _ _ _).rows
    split
    · rename_i hlast
      -- the row had no other holder, and the image that may go with it had none
      have hempty : ∀ t', t' ≠ token → s.ownerOf res t' = none := by
        intro t' ht'
        rw [ownerOf_of_lookup hrow, ← AList.lookup_erase_ne ht', AList.lookup_eq_none,
          AList.mem_keys, hlast.1]
        exact List.not_mem_nil
      have herase : ∀ v : State, v.rows = s.rows.erase res → v.ownerOf r t =
          if r = res ∧ t = token then none else s.ownerOf r t := by
        intro v hv
        unfold State.ownerOf State.holdersOf at hempty ⊢
        rw [hv, Table.lookup_erase_eq]
        by_cases hr : r = res
        · subst hr
          by_cases ht : t = token
          · simp [ht]
          · simp only [if_true, ht, and_false, if_false]
            exact (hempty t ht).symm
        · simp [hr]
      rcases retire_rows u res { row with holders := row.holders.erase token } with
        heq | ⟨img, w, bytes, hw, -, hkeys, heq⟩
      · exact herase _ (heq.trans (by rw [hrows]))
      · rw [hrows] at hw heq
        by_cases hr : r = img
        · have hnone : (s.rows.erase res).lookup r = some w := hr ▸ hw
          have hwt : w.holders.lookup t = none := by
            rw [AList.lookup_eq_none, AList.mem_keys, hkeys]
            exact List.not_mem_nil
          have hgone : ((u.retire res { row with holders := row.holders.erase token })).ownerOf r t =
              none := by
            refine ownerOf_of_none ?_
            rw [heq, hr]
            exact AList.lookup_erase _ _
          rw [hgone]
          split
          · rfl
          · rename_i hne
            have hrne : r ≠ res := by
              rintro rfl
              rw [AList.lookup_erase] at hnone
              simp at hnone
            rw [AList.lookup_erase_ne hrne] at hnone
            rw [ownerOf_of_lookup hnone, hwt]
        · rw [← herase { s with rows := s.rows.erase res } rfl]
          unfold State.ownerOf State.holdersOf
          rw [heq, AList.lookup_erase_ne hr]
    · have hput : ∀ v : State,
          v.rows = s.rows.insert res { row with holders := row.holders.erase token } →
          v.ownerOf r t = if r = res ∧ t = token then none else s.ownerOf r t := by
        intro v hv
        unfold State.ownerOf State.holdersOf
        rw [hv, Table.lookup_insert_eq]
        by_cases hr : r = res
        · subst hr
          simp only [if_true, Option.map_some, Option.bind_some, hrow, true_and,
            Table.lookup_erase_eq]
        · simp [hr]
      exact hput _ (congrArg (fun rows => AList.insert res _ rows) hrows)

theorem SameHolders.ownerOf (h : SameHolders s s') (res : Resource) (token : Token) :
    s'.ownerOf res token = s.ownerOf res token := by
  unfold State.ownerOf
  rw [h.holders]

/-- After a row is put the rows name the owners they did, but for that row. -/
theorem ownerOf_of_insert (hrows : s'.rows = s.rows.insert res row) (r : Resource) (t : Token) :
    s'.ownerOf r t = if r = res then row.holders.lookup t else s.ownerOf r t := by
  unfold State.ownerOf State.holdersOf
  rw [hrows, Table.lookup_insert_eq]
  split <;> rfl

theorem ownerOf_retag (src dst : Token) (owner : Option Pid) {old : Option Pid}
    (hrow : s.rows.lookup res = some row) (hsrc : row.holders.lookup src = some old)
    (r : Resource) (t : Token) :
    (s.retag src dst owner res).ownerOf r t =
      if r = res ∧ t = dst then some owner
      else if r = res ∧ t = src then none
      else s.ownerOf r t := by
  rw [ownerOf_of_insert (retag_rows src dst owner hrow hsrc), Table.lookup_insert_eq,
    Table.lookup_erase_eq]
  by_cases hr : r = res
  · subst hr
    simp [ownerOf_of_lookup hrow]
  · simp [hr]

/-! ## The index -/

/-- `held` lists the pair for `pid`. -/
def State.Indexed (s : State) (pid : Pid) (res : Resource) (token : Token) : Prop :=
  (res, token) ∈ s.heldBy pid

theorem indexed_of_held (h : s'.held = s.held) (pid : Pid) (res : Resource) (token : Token) :
    s'.Indexed pid res token ↔ s.Indexed pid res token := by
  unfold State.Indexed State.heldBy
  rw [h]

theorem indexed_watch (s : State) (owner : Option Pid) (res : Resource) (token : Token) (q : Pid)
    (r : Resource) (t : Token) : (s.watch owner res token).Indexed q r t ↔
      s.Indexed q r t ∨ owner = some q ∧ r = res ∧ t = token := by
  cases owner with
  | none => simp [State.watch]
  | some pid =>
    unfold State.Indexed State.watch State.addHeld
    unfold State.heldBy
    simp only [Table.lookup_insert_eq]
    by_cases hq : q = pid
    · subst hq
      simp only [if_true, Option.getD_some, AList.mem_insert, Prod.mk.injEq, true_and]
      exact or_comm
    · simp [hq, Ne.symm hq]

theorem indexed_unwatch (s : State) (pid q : Pid) (r : Resource) (t : Token) :
    (s.unwatch pid).Indexed q r t ↔ s.Indexed q r t ∧ q ≠ pid := by
  unfold State.Indexed State.unwatch State.heldBy
  simp only [Table.lookup_erase_eq]
  by_cases hq : q = pid
  · simp [hq]
  · simp [hq]

theorem indexed_unhold (s : State) (owner : Option Pid) (res : Resource) (token : Token) (q : Pid)
    (r : Resource) (t : Token) : (s.unhold owner res token).Indexed q r t ↔
      s.Indexed q r t ∧ ¬(owner = some q ∧ r = res ∧ t = token) := by
  cases owner with
  | none => simp [State.unhold]
  | some pid =>
    simp only [State.unhold]
    cases hmine : s.held.lookup pid with
    | none =>
      have hnot : ¬ s.Indexed pid r t := by
        unfold State.Indexed State.heldBy
        rw [hmine]
        simp
      constructor
      · intro h
        refine ⟨h, ?_⟩
        rintro ⟨hq, -⟩
        obtain rfl := Option.some.inj hq
        exact hnot h
      · exact fun h => h.1
    | some mine =>
      have hpid : ∀ r t, s.Indexed pid r t ↔ (r, t) ∈ mine := by
        intro r t
        unfold State.Indexed State.heldBy
        rw [hmine]
        rfl
      simp only
      by_cases hq : q = pid
      · subst hq
        split
        · rename_i hempty
          rw [indexed_unwatch]
          simp only [ne_eq, not_true, and_false, true_and, false_iff, not_and]
          intro hin
          -- an entry other than the one taken away would have been left
          by_contra hne
          have hleft : (r, t) ∈ mine.erase (res, token) := by
            rw [AList.mem_erase]
            exact ⟨fun heq => hne (Prod.mk.inj heq).1 (Prod.mk.inj heq).2, (hpid r t).mp hin⟩
          rw [AList.mem_keys, hempty] at hleft
          exact absurd hleft List.not_mem_nil
        · have hnew : ∀ u : State, u.held = s.held.insert q (mine.erase (res, token)) →
              (u.Indexed q r t ↔ (r, t) ∈ mine.erase (res, token)) := by
            intro u hu
            unfold State.Indexed State.heldBy
            rw [hu, AList.lookup_insert]
            rfl
          rw [hnew _ rfl, AList.mem_erase, hpid]
          simp only [ne_eq, Prod.mk.injEq, true_and]
          exact and_comm
      · have hne : ¬(some pid = some q ∧ r = res ∧ t = token) := by
          rintro ⟨h, -⟩
          exact hq (Option.some.inj h).symm
        simp only [hne, not_false_eq_true, and_true]
        split
        · rw [indexed_unwatch]
          simp [hq]
        · have hnew : ∀ u : State, u.held = s.held.insert pid (mine.erase (res, token)) →
              (u.Indexed q r t ↔ s.Indexed q r t) := by
            intro u hu
            unfold State.Indexed State.heldBy
            rw [hu, AList.lookup_insert_ne hq]
          exact hnew _ rfl

/-! ## Exactness -/

/-- The index lists what the rows say, but for the pairs `L` of a holder being forgotten. -/
def HeldBut (pid : Pid) (L : List (Resource × Token)) (s : State) : Prop :=
  ∀ q r t, s.Indexed q r t ↔ s.ownerOf r t = some (some q) ∧ ¬(q = pid ∧ (r, t) ∈ L)

/-- The index lists exactly the pairs whose row maps the token to the process. -/
def HeldExact (s : State) : Prop :=
  ∀ q r t, s.Indexed q r t ↔ s.ownerOf r t = some (some q)

theorem heldExact_init : HeldExact State.init := by
  intro q r t
  simp [State.Indexed, State.heldBy, State.init, State.ownerOf, State.holdersOf]

theorem SameHolders.heldExact (h : SameHolders s s') (hexact : HeldExact s) : HeldExact s' := by
  intro q r t
  rw [indexed_of_held h.held, h.ownerOf]
  exact hexact q r t

theorem heldBut_nil {pid : Pid} : HeldBut pid [] s ↔ HeldExact s := by
  simp [HeldBut, HeldExact]

theorem drop_indexed (s : State) (res : Resource) (token : Token) {owner : Option Pid}
    (howner : s.ownerOf res token = some owner) (q : Pid) (r : Resource) (t : Token) :
    (s.drop res token).Indexed q r t ↔
      s.Indexed q r t ∧ ¬(owner = some q ∧ r = res ∧ t = token) := by
  obtain ⟨row, hrow, hlookup⟩ := exists_row_of_ownerOf howner
  unfold State.drop
  rw [hrow]
  simp only [hlookup]
  set u := (s.subTotal token row.counted).unhold owner res token with hu
  have hindexed : u.Indexed q r t ↔ s.Indexed q r t ∧ ¬(owner = some q ∧ r = res ∧ t = token) :=
    indexed_unhold (s.subTotal token row.counted) owner res token q r t
  split
  · exact (indexed_of_held (retire_held _ _ _) q r t).trans hindexed
  · exact hindexed

/-- The pair dropped is in neither the rows nor the index afterwards, so whether it was one of the
exceptions does not matter. -/
theorem HeldBut.drop {pid : Pid} {L L' : List (Resource × Token)} (h : HeldBut pid L s)
    (res : Resource) (token : Token)
    (hL : ∀ pair, pair ≠ (res, token) → (pair ∈ L' ↔ pair ∈ L)) :
    HeldBut pid L' (s.drop res token) := by
  intro q r t
  rw [ownerOf_drop]
  by_cases hpair : r = res ∧ t = token
  · obtain ⟨rfl, rfl⟩ := hpair
    simp only [and_self, if_true, reduceCtorEq, false_and, iff_false]
    cases howner : s.ownerOf r t with
    | none =>
      rw [drop_of_not_held howner, h q r t, howner]
      simp
    | some owner =>
      rw [drop_indexed s r t howner, h q r t, howner]
      simp only [Option.some.injEq, and_self, and_true, not_and, not_not]
      exact fun h => h.1
  · have hmem := hL (r, t) fun heq => hpair (Prod.mk.inj heq)
    rw [if_neg hpair, hmem]
    cases howner : s.ownerOf res token with
    | none => rw [drop_of_not_held howner, h q r t]
    | some owner =>
      rw [drop_indexed s res token howner, h q r t]
      simp [hpair]

theorem HeldExact.drop (h : HeldExact s) (res : Resource) (token : Token) :
    HeldExact (s.drop res token) := by
  have hbut : HeldBut 0 [] s := heldBut_nil.mpr h
  exact heldBut_nil.mp (hbut.drop res token fun _ _ => Iff.rfl)

theorem HeldExact.dropAll (pairs : List (Resource × Token)) :
    ∀ s : State, HeldExact s → HeldExact (s.dropAll pairs) := by
  induction pairs with
  | nil => exact fun s h => h
  | cons pair pairs ih => exact fun s h => ih _ (h.drop pair.1 pair.2)

theorem HeldBut.dropAll (pid : Pid) (pairs : List (Resource × Token)) :
    ∀ s : State, HeldBut pid pairs s → HeldExact (s.dropAll pairs) := by
  induction pairs with
  | nil => exact fun s h => heldBut_nil.mp h
  | cons pair pairs ih =>
    intro s h
    refine ih _ (h.drop pair.1 pair.2 fun p hp => ?_)
    rw [List.mem_cons]
    exact ⟨Or.inr, fun hor => hor.resolve_left hp⟩

/-- A dead holder's entries go first and its holds after them, one by one. -/
theorem HeldExact.forgetHolder (h : HeldExact s) (pid : Pid) (mon : Ref) :
    HeldExact (s.forgetHolder pid mon) := by
  unfold State.forgetHolder
  split
  · refine HeldBut.dropAll pid _ _ fun q r t => ?_
    have howner : (s.unwatch pid).ownerOf r t = s.ownerOf r t := rfl
    rw [indexed_unwatch, h q r t, howner]
    have hmem : (r, t) ∈ (s.heldBy pid).keys ↔ s.ownerOf r t = some (some pid) := by
      rw [← AList.mem_keys]
      exact h pid r t
    rw [hmem]
    constructor
    · rintro ⟨hq, hne⟩
      exact ⟨hq, fun hand => hne hand.1⟩
    · rintro ⟨hq, hnot⟩
      refine ⟨hq, ?_⟩
      rintro rfl
      exact hnot ⟨rfl, hq⟩
  · exact h

/-- A holder put on a row that did not have it. -/
theorem HeldExact.watch (h : HeldExact s) {t : State} {token : Token} {owner : Option Pid}
    (hheld : t.held = s.held) (hnew : s.ownerOf res token = none)
    (howner : ∀ r t', t.ownerOf r t' =
      if r = res ∧ t' = token then some owner else s.ownerOf r t') :
    HeldExact (t.watch owner res token) := by
  intro q r t'
  have hwatch : (t.watch owner res token).ownerOf r t' = t.ownerOf r t' := by
    unfold State.ownerOf State.holdersOf
    rw [(quiet_watch t res token owner).rows]
  rw [indexed_watch, indexed_of_held hheld, h q r t', hwatch, howner]
  by_cases hpair : r = res ∧ t' = token
  · obtain ⟨rfl, rfl⟩ := hpair
    simp [hnew]
  · simp [hpair]

theorem HeldExact.retag (h : HeldExact s) {src dst : Token} (owner : Option Pid)
    (hu : s.Undoubled src dst res) : HeldExact (s.retag src dst owner res) := by
  rcases retag_cases s src res with hnot | ⟨row, old, hrow, hsrc⟩
  · rwa [retag_of_not_held src dst owner hnot]
  · intro q r t
    rw [ownerOf_retag src dst owner hrow hsrc]
    have hold : s.ownerOf res src = some old := ownerOf_of_lookup hrow ▸ hsrc
    have hdst : src ≠ dst → s.ownerOf res dst = none := by
      intro hne
      rw [ownerOf_of_lookup hrow]
      rcases hu with heq | hu
      · exact absurd heq hne
      · exact hu row hrow (by rw [hsrc]; rfl)
    unfold State.retag
    rw [hrow]
    simp only [hsrc]
    rw [indexed_watch, indexed_unhold]
    set u := ((s.putRow res { row with holders := (row.holders.erase src).insert dst owner }).subTotal
      src row.counted).addTotal dst row.counted with hu'
    have hbefore : u.Indexed q r t ↔ s.ownerOf r t = some (some q) := h q r t
    rw [hbefore]
    by_cases hr : r = res
    · subst hr
      by_cases hd : t = dst
      · subst hd
        by_cases hs : t = src
        · subst hs
          simp [hold]
        · simp [hs, hdst (Ne.symm hs)]
      · by_cases hs : t = src
        · subst hs
          simp [hd, hold]
        · simp [hd, hs]
    · simp [hr]

theorem HeldExact.retags (src dst : Token) (owner : Option Pid) (moved : List Resource) :
    ∀ s : State, HeldExact s → (∀ res ∈ moved, s.Undoubled src dst res) →
      HeldExact (moved.foldl (fun (s : State) res => s.retag src dst owner res) s) := by
  induction moved with
  | nil => exact fun s h _ => h
  | cons res moved ih =>
    intro s h hu
    refine ih _ (h.retag owner (hu res List.mem_cons_self)) fun r hr => ?_
    exact (hu r (List.mem_cons_of_mem _ hr)).retag owner res

theorem HeldExact.acquire (h : HeldExact s) (res : Resource) (token : Token)
    (owner : Option Pid) (limit : Option ℕ) : HeldExact (s.acquire res token owner limit).2 := by
  have hcap : SameHolders s (s.pendingCap token limit) := by
    unfold State.pendingCap
    split
    · exact .refl s
    · split
      · exact .refl s
      · exact .of_eq rfl rfl rfl
  have hp := hcap.heldExact h
  unfold State.acquire
  set t := s.pendingCap token limit with ht
  dsimp only
  split
  · exact hp
  · rename_i row hrow
    split_ifs with hretiring hholds hwithin
    · exact hp
    · exact hp
    · have hnone : row.holders.lookup token = none := by simpa using hholds
      set u := (t.putRow res { row with holders := row.holders.insert token owner }).addTotal token
        row.pages with hu
      have hrows : u.rows = t.rows.insert res
        { row with holders := row.holders.insert token owner } := rfl
      have hheld : u.held = t.held := rfl
      refine hp.watch hheld (by rw [ownerOf_of_lookup hrow, hnone]) fun r t' => ?_
      rw [ownerOf_of_insert hrows, Table.lookup_insert_eq]
      by_cases hr : r = res
      · subst hr
        simp [ownerOf_of_lookup hrow]
      · simp [hr]
    · exact hp

/-- The only holder of a new row. -/
theorem HeldExact.watch_new (h : HeldExact s) {t : State} {token : Token} {owner : Option Pid}
    (hnew : s.rows.lookup res = none) (hheld : t.held = s.held)
    (hrows : t.rows = s.rows.insert res row)
    (hholders : row.holders = (∅ : Table Token (Option Pid)).insert token owner) :
    HeldExact (t.watch owner res token) := by
  refine h.watch hheld (ownerOf_of_none hnew) fun r t' => ?_
  rw [ownerOf_of_insert hrows, hholders, Table.lookup_insert_eq]
  by_cases hr : r = res
  · subst hr
    simp [ownerOf_of_none hnew]
  · simp [hr]

theorem Books.lookup_nextRef {e : Token → ℤ} (h : Books e s) :
    s.rows.lookup s.nextRef = none := by
  cases hw : s.rows.lookup s.nextRef with
  | none => rfl
  | some w => exact absurd (h.fresh s.nextRef w hw) (lt_irrefl _)

theorem pendingCap_same (s : State) (token : Token) (limit : Option ℕ) :
    (s.pendingCap token limit).rows = s.rows ∧ (s.pendingCap token limit).held = s.held ∧
      (s.pendingCap token limit).nextRef = s.nextRef := by
  unfold State.pendingCap
  split
  · exact ⟨rfl, rfl, rfl⟩
  · split
    · exact ⟨rfl, rfl, rfl⟩
    · exact ⟨rfl, rfl, rfl⟩

theorem HeldExact.reserve (h : HeldExact s) {e : Token → ℤ} (hbooks : Books e s) (pages : ℕ)
    (kind : Meta) (token : Token) (owner : Option Pid) (limit : Option ℕ) :
    HeldExact (s.reserve pages kind token owner limit).2 := by
  obtain ⟨hrows, hheld, hnext⟩ := pendingCap_same s token limit
  have hp : HeldExact (s.pendingCap token limit) := by
    intro q r t
    unfold State.ownerOf State.holdersOf
    rw [hrows, indexed_of_held hheld]
    exact h q r t
  unfold State.reserve
  dsimp only
  split
  · exact hp
  · split
    · exact hp
    · split
      · exact hp
      · rename_i u hu
        have hu' := eq_of_reservePages hu
        subst hu'
        have hnew : (s.pendingCap token limit).rows.lookup (s.pendingCap token limit).nextRef =
            none := by
          rw [hrows, hnext]
          exact hbooks.lookup_nextRef
        cases kind with
        | memory m | cell | heap objs elems => exact hp.watch_new hnew rfl rfl rfl

theorem HeldExact.imageReserve (h : HeldExact s) {e : Token → ℤ} (hbooks : Books e s)
    (bytes : ℕ) (owner : Pid) (id : Ref) : HeldExact (s.imageReserve bytes owner id).2 := by
  unfold State.imageReserve
  split
  · exact h
  · split
    · exact h
    · rename_i n _ _ _
      have hnew := hbooks.lookup_nextRef
      set t : State := { s with snapshot := some (n + bytes), nextRef := s.nextRef + 1 }.putRow
        s.nextRef
          { body := .image bytes
            pages := 0
            holders := (∅ : Table Token (Option Pid)).insert (.snapshot id) (some owner)
            retiring := false } with ht
      have hwatch : HeldExact (t.watch (some owner) s.nextRef (.snapshot id)) :=
        h.watch_new hnew rfl rfl rfl
      exact hwatch

theorem HeldExact.handleDown (h : HeldExact s) (pid : Pid) (mon : Ref) :
    HeldExact (s.handleDown pid mon) := by
  unfold State.handleDown
  dsimp only
  split
  · split
    · have hwriters : SameHolders s { s with writers := s.writers.erase pid } := .of_eq rfl rfl rfl
      exact ((hwriters.trans (sameHolders_writersGone _ _ _)).heldExact h).forgetHolder _ _
    · exact h.forgetHolder _ _
  · exact h.forgetHolder _ _

theorem HeldExact.step (h : HeldExact s) {e : Token → ℤ} (hbooks : Books e s) {a : Act}
    (hok : Undoubling s a) (hs : step s a = some s') : HeldExact s' := by
  have hsame : SameHolders s s' → HeldExact s' := fun hsame => hsame.heldExact h
  cases a with
  | call caller req =>
    have hcall : HeldExact (s.handleCall caller req).2 := by
      cases req with
      | setLimit token max => exact h
      | totalOf token => exact h
      | reserve pages kind token owner limit => exact h.reserve hbooks _ _ _ _ _
      | acquire res token owner limit => exact h.acquire _ _ _ _
      | release res token => exact h.drop res token
      | releaseAll pairs => exact HeldExact.dropAll pairs s h
      | discard token => exact HeldExact.dropAll _ s h
      | transfer src dst owner =>
        show HeldExact (s.transfer caller.1 src dst owner)
        unfold State.transfer
        dsimp only
        split
        · exact HeldExact.retags src dst owner _ _ h hok
        · exact HeldExact.retags src dst owner _ _ h hok
      | reconcile res ceiling extra => exact (sameHolders_reconcile _ _ _ _).heldExact h
      | imageReserve bytes owner id => exact h.imageReserve hbooks _ _ _
      | begin res opId req => exact (sameHolders_transaction _ _ _).heldExact h
      | growCommit res opId chunks => exact (sameHolders_growCommit _ _ _ _ _).heldExact h
      | arenaCommit res opId arena => exact (sameHolders_arenaCommit _ _ _ _ _).heldExact h
      | txnAbort res opId => exact (sameHolders_txnAbort _ _ _ _).heldExact h
    simp only [Keeper.step] at hs
    split at hs
    · exact Option.some.inj hs ▸ hcall
    · exact Option.some.inj hs ▸ hcall
  | ack res opId pid =>
    exact Option.some.inj hs ▸ (sameHolders_forgetOutcome s res opId pid).heldExact h
  | down pid mon => exact Option.some.inj hs ▸ h.handleDown pid mon
  | putCell ref tuple | putSize ref pages | putWords tab words | setPageLimit limit
  | setSnapshotLimit limit | seedSnapshotCounter => exact Option.some.inj hs ▸ h

end ErlangWasm.Keeper

/-!
## The accounting invariant

The summaries the keeper moves by deltas against the rows they summarise, after any sequence of
messages in which no transfer lands a resource on a token that already holds it.
-/

namespace ErlangWasm.Keeper

open Reasoning

variable {s : State}

structure Accounted (s : State) : Prop where
  pages : s.pages = s.rows.total fun _ row => row.charged
  totals : ∀ token, s.total token =
    s.rows.total fun _ row => if (row.holders.lookup token).isSome then row.counted else 0
  images : ∀ img, s.imageCount img = s.rows.total fun _ row =>
    match row.body with
    | .memory m _ => if m.image = some img then 1 else 0
    | _ => 0
  held : ∀ pid res token, (res, token) ∈ s.heldBy pid ↔
    ∃ row, s.rows.lookup res = some row ∧ row.holders.lookup token = some (some pid)
  notBelow : s.belowZero = false

theorem ownerOf_eq_some {res : Resource} {token : Token} {owner : Option Pid} :
    s.ownerOf res token = some owner ↔
      ∃ row, s.rows.lookup res = some row ∧ row.holders.lookup token = some owner := by
  constructor
  · exact exists_row_of_ownerOf
  · rintro ⟨row, hrow, howner⟩
    rw [ownerOf_of_lookup hrow, howner]

theorem accounted_of_undoubling (h : Run.ReachableIf step Undoubling State.init s) :
    Accounted s := by
  have hboth : Books (fun _ => 0) s ∧ HeldExact s := by
    refine h.invariant (fun s => Books (fun _ => 0) s ∧ HeldExact s)
      ⟨books_init, heldExact_init⟩ ?_
    rintro s a s' ⟨hbooks, hheld⟩ hok hs
    obtain ⟨e', -, hbooks', hsame⟩ := hbooks.step (fun _ => le_rfl) hs
    exact ⟨hsame hok ▸ hbooks', hheld.step hbooks hok hs⟩
  obtain ⟨hbooks, hheld⟩ := hboth
  refine ⟨hbooks.pages, fun token => ?_, fun img => ?_, fun pid res token => ?_, hbooks.notBelow⟩
  · have htotal := hbooks.totals token
    rwa [add_zero] at htotal
  · exact hbooks.images img
  · exact (hheld pid res token).trans ownerOf_eq_some

/-- A build's memory of two pages becomes the instance's, grows by one and commits. -/
def buildAndGrow : List Act :=
  [.call (1, 0) (.reserve 2 (.memory plainMemory) (.build 7) (some 1) (some 4)),
    .call (1, 1) (.transfer (.build 7) (.ofInstance 8) (some 1)),
    .call (1, 2) (.begin 0 50 (.growBegin 1 10)),
    .call (1, 3) (.growCommit 0 50 [11, 12, 13])]

theorem accounted_buildAndGrow : ∃ s, Run.execIf step Undoubling buildAndGrow State.init = some s ∧
    s.total (.ofInstance 8) = 3 ∧ Accounted s := by
  have hrun : (Run.execIf step Undoubling buildAndGrow State.init).any
      (fun s => s.total (.ofInstance 8) == 3) = true := by decide +kernel
  obtain ⟨s, hs, htotal⟩ := (Option.any_eq_true _ _).mp hrun
  exact ⟨s, hs, by simpa using htotal,
    accounted_of_undoubling (Run.ReachableIf.init.of_execIf hs)⟩

/-- An instance's memory is also held by another of the same process, onto which it is then
transferred. -/
def transferOntoHolder : List Act :=
  [.call (1, 0) (.reserve 1 (.memory plainMemory) (.ofInstance 1) (some 1) none),
    .call (1, 1) (.acquire 0 (.ofInstance 2) (some 1) none),
    .call (1, 2) (.transfer (.ofInstance 1) (.ofInstance 2) (some 1))]

theorem not_accounted : ¬ ∀ s, Run.Reachable step State.init s → Accounted s := by
  intro hall
  have hrun : (Run.exec step transferOntoHolder State.init).any (fun s =>
      s.total (.ofInstance 2) == 2 && (s.rows.total fun _ row =>
        if (row.holders.lookup (.ofInstance 2)).isSome then row.counted else 0) == 1) = true := by
    decide +kernel
  obtain ⟨s, hs, hboth⟩ := (Option.any_eq_true _ _).mp hrun
  simp only [Bool.and_eq_true, beq_iff_eq] at hboth
  have htotal := (hall s (Run.Reachable.of_exec .init hs)).totals (.ofInstance 2)
  rw [hboth.1, hboth.2] at htotal
  exact absurd htotal (by decide)

end ErlangWasm.Keeper
