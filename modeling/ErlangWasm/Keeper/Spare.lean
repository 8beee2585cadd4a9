import ErlangWasm.Keeper.Caps

/-!
# What keeps a ceiling

`sub_total/3` forgets a ceiling when nothing is left of the total, so a holder keeps its ceiling
through a drop or the undoing of a growth when it is left with a resource of at least one page.
-/

namespace ErlangWasm.Keeper

open Reasoning

variable {s s' s'' t : State} {token : Token} {max : ℕ} {e : Token → ℤ} {res : Resource} {row : Row}
  {m : MemoryMeta} {acc : Account}

def State.pagesAt (s : State) (res : Resource) : ℕ := ((s.rows.lookup res).map Row.pages).getD 0

theorem pagesAt_of_lookup (hrow : s.rows.lookup res = some row) : s.pagesAt res = row.pages := by
  rw [State.pagesAt, hrow, Option.map_some, Option.getD_some]

theorem pagesAt_congr (h : s'.rows.lookup res = s.rows.lookup res) :
    s'.pagesAt res = s.pagesAt res := by
  rw [State.pagesAt, State.pagesAt, h]

theorem pagesAt_of_insert (hrows : s'.rows = s.rows.insert res row) (r : Resource) :
    s'.pagesAt r = if r = res then row.pages else s.pagesAt r := by
  unfold State.pagesAt
  rw [hrows, Table.lookup_insert_eq]
  split <;> rfl

/-- Something is left of the total when less than a whole row is taken from it, or when another row
of the same holder has pages. -/
theorem Books.lt_total (h : Books e s) (he : ∀ token, 0 ≤ e token)
    (hrow : s.rows.lookup res = some row) (hheld : (row.holders.lookup token).isSome) {n : ℤ}
    (hn : n ≤ row.pages) (hleft : n < row.pages ∨
      ∃ r, r ≠ res ∧ s.ownerOf r token ≠ none ∧ 0 < s.pagesAt r) : 0 < s.total token - n := by
  have hlogical : s.logical token ≤ s.total token := by
    rw [h.totals]
    have hpos := he token
    omega
  have hsplit : s.logical token =
      row.share token + Table.total (fun _ row => row.share token) (s.rows.erase res) :=
    Table.total_of_lookup _ hrow
  have hshare : row.share token = row.pages := by
    rw [Row.share, if_pos hheld, (h.rows res row hrow).counted_eq]
  have hrest : 0 ≤ Table.total (fun _ row => row.share token) (s.rows.erase res) :=
    Table.total_nonneg fun _ w _ => w.share_nonneg token
  rcases hleft with hlt | ⟨r, hr, hother, hpages⟩
  · omega
  · obtain ⟨owner, howner⟩ := Option.ne_none_iff_exists'.mp hother
    obtain ⟨w, hw, hwheld⟩ := exists_row_of_ownerOf howner
    have hle := Table.le_total (fun _ row => row.share token)
      (fun _ w _ => w.share_nonneg token) ((AList.lookup_erase_ne hr).trans hw)
    have hwshare : w.share token = w.pages := by
      rw [Row.share, hwheld, if_pos (Option.isSome_some), (h.rows r w hw).counted_eq]
    rw [pagesAt_of_lookup hw] at hpages
    simp only [hwshare] at hle
    omega

/-! ## Drops -/

theorem retireRow_caps (s : State) (res : Resource) (row : Row) :
    (s.retireRow res row).caps = s.caps ∧ (s.retireRow res row).capRows = s.capRows := by
  unfold State.retireRow State.giveBack State.forgetMeta
  cases row.body <;> exact ⟨rfl, rfl⟩

theorem bounded_retireRow (s : State) (res : Resource) (row : Row) :
    Bounded token max s (s.retireRow res row) :=
  .of_eq (retireRow_caps s res row).1 (retireRow_caps s res row).2 (retireRow_totals s res row)

theorem bounded_retireImage (s : State) (img : Resource) :
    Bounded token max s (s.retireImage img) := by
  unfold State.retireImage
  split
  · exact .refl s
  · split
    · split
      · exact bounded_retireRow _ _ _
      · exact .refl s
    · exact .refl s

theorem bounded_retire (s : State) (res : Resource) (row : Row) :
    Bounded token max s (s.retire res row) := by
  have hrow : Bounded token max s (s.retireRow res row) := bounded_retireRow s res row
  unfold State.retire State.afterRetire
  split
  · rename_i m _ _
    split
    · rename_i img _
      exact (hrow.trans (bounded_countImage _ m.image (-1))).trans (bounded_retireImage _ img)
    · exact hrow
  · exact hrow

theorem bounded_drop (h : Books e s) (he : ∀ token, 0 ≤ e token) (res : Resource) (t : Token)
    (hspare : t = token → s.ownerOf res token ≠ none →
      ∃ r, r ≠ res ∧ s.ownerOf r token ≠ none ∧ 0 < s.pagesAt r) :
    Bounded token max s (s.drop res t) := by
  unfold State.drop
  split
  · exact .refl s
  · rename_i row hrow
    split
    · exact .refl s
    · rename_i owner howner
      have hsub : Bounded token max s (s.subTotal t row.counted) := by
        refine bounded_subTotal s t row.counted_nonneg ?_
        rintro rfl
        have hheld : s.ownerOf res t ≠ none := by
          rw [ownerOf_of_lookup hrow, howner]
          exact Option.some_ne_none owner
        refine h.lt_total he hrow (by rw [howner]; rfl) ?_ (Or.inr (hspare rfl hheld))
        exact (h.rows res row hrow).counted_eq.le
      have hunhold := hsub.trans (quiet_unhold _ res t owner).bounded
      dsimp only
      split
      · exact hunhold.trans (bounded_retire _ _ _)
      · exact hunhold.trans (.of_eq rfl rfl rfl)

/-- A resource keeps its pages as long as it keeps a holder. -/
theorem pagesAt_drop (s : State) (res : Resource) (t : Token) {r : Resource}
    (hheld : s.ownerOf r token ≠ none) (hne : ¬(r = res ∧ token = t)) :
    (s.drop res t).pagesAt r = s.pagesAt r := by
  unfold State.drop
  split
  · rfl
  · rename_i row hrow
    split
    · rfl
    · rename_i owner howner
      dsimp only
      set u := (s.subTotal t row.counted).unhold owner res t with hu
      have hrows : u.rows = s.rows := (quiet_unhold _ _ _ _).rows
      split
      · rename_i hlast
        have hr : r ≠ res := by
          rintro rfl
          have htoken : token ≠ t := fun heq => hne ⟨rfl, heq⟩
          rw [ownerOf_of_lookup hrow, ← AList.lookup_erase_ne htoken, ne_eq, AList.lookup_eq_none,
            not_not, AList.mem_keys, hlast.1] at hheld
          exact List.not_mem_nil hheld
        refine pagesAt_congr ?_
        rcases retire_rows u res { row with holders := row.holders.erase t } with
          heq | ⟨img, w, bytes, hw, -, hkeys, heq⟩
        · rw [heq, hrows, AList.lookup_erase_ne hr]
        · have himg : r ≠ img := by
            rintro rfl
            rw [hrows, AList.lookup_erase_ne hr] at hw
            rw [ownerOf_of_lookup hw, ne_eq, AList.lookup_eq_none, not_not, AList.mem_keys,
              hkeys] at hheld
            exact List.not_mem_nil hheld
          rw [heq, hrows, AList.lookup_erase_ne himg, AList.lookup_erase_ne hr]
      · show (State.putRow u res _).pagesAt r = _
        rw [pagesAt_of_insert rfl]
        split
        · rename_i hr
          rw [hr, pagesAt_of_lookup hrow]
        · exact pagesAt_congr (by rw [hrows])

/-- No pair of the holder's is dropped, or a resource of its with pages is not among them. -/
def State.SafeDrop (s : State) (token : Token) (pairs : List (Resource × Token)) : Prop :=
  (∀ pair ∈ pairs, pair.2 = token → s.ownerOf pair.1 token = none) ∨
    ∃ r, s.ownerOf r token ≠ none ∧ 0 < s.pagesAt r ∧ (r, token) ∉ pairs

theorem bounded_dropAll (he : ∀ token, 0 ≤ e token) (pairs : List (Resource × Token)) :
    ∀ s : State, Books e s → s.SafeDrop token pairs → Bounded token max s (s.dropAll pairs) := by
  induction pairs with
  | nil => exact fun s _ _ => .refl s
  | cons pair pairs ih =>
    intro s h hsafe
    have hone : Bounded token max s (s.drop pair.1 pair.2) := by
      refine bounded_drop h he pair.1 pair.2 fun htoken hheld => ?_
      rcases hsafe with hnone | ⟨r, hr, hpages, hnot⟩
      · exact absurd (hnone pair List.mem_cons_self htoken) hheld
      · refine ⟨r, ?_, hr, hpages⟩
        rintro rfl
        exact hnot (htoken ▸ List.mem_cons_self)
    refine hone.trans (ih _ (h.drop he pair.1 pair.2) ?_)
    rcases hsafe with hnone | ⟨r, hr, hpages, hnot⟩
    · refine Or.inl fun p hp htoken => ?_
      rw [ownerOf_drop]
      split
      · rfl
      · exact hnone p (List.mem_cons_of_mem _ hp) htoken
    · have hne : ¬(r = pair.1 ∧ token = pair.2) := by
        rintro ⟨rfl, rfl⟩
        exact hnot List.mem_cons_self
      refine Or.inr ⟨r, ?_, ?_, fun hin => hnot (List.mem_cons_of_mem _ hin)⟩
      · rw [ownerOf_drop, if_neg hne]
        exact hr
      · rw [pagesAt_drop s pair.1 pair.2 hr hne]
        exact hpages

theorem ownerOf_dropAll (pairs : List (Resource × Token)) (r : Resource) (t : Token) :
    ∀ s : State, (s.dropAll pairs).ownerOf r t =
      if (r, t) ∈ pairs then none else s.ownerOf r t := by
  induction pairs with
  | nil => exact fun s => (if_neg List.not_mem_nil).symm
  | cons pair pairs ih =>
    intro s
    show ((s.drop pair.1 pair.2).dropAll pairs).ownerOf r t = _
    rw [ih, ownerOf_drop]
    by_cases hpair : (r, t) = pair
    · subst hpair
      simp
    · have hne : ¬(r = pair.1 ∧ t = pair.2) := fun h => hpair (Prod.ext h.1 h.2)
      simp only [hne, if_false, List.mem_cons, hpair, false_or]

/-! ## Growths that end -/

/-- Only the row of `res` changed, and it is left with at least `floor` pages. -/
structure Onward (res : Resource) (floor : ℕ) (s s' : State) : Prop where
  cells : s'.cells = s.cells
  others : ∀ r, r ≠ res → s'.rows.lookup r = s.rows.lookup r
  pages : floor ≤ s'.pagesAt res

theorem Onward.refl (s : State) : Onward res (s.pagesAt res) s s := ⟨rfl, fun _ _ => rfl, le_rfl⟩

theorem Onward.trans {floor : ℕ} (h : Onward res floor s s')
    (h' : Onward res (s'.pagesAt res) s' s'') : Onward res floor s s'' :=
  ⟨h'.cells.trans h.cells, fun r hr => (h'.others r hr).trans (h.others r hr),
    h.pages.trans h'.pages⟩

theorem Onward.of_rows (hrows : s'.rows = s.rows) (hcells : s'.cells = s.cells) :
    Onward res (s.pagesAt res) s s' :=
  ⟨hcells, fun r _ => by rw [hrows], (pagesAt_congr (by rw [hrows])).ge⟩

theorem Onward.of_insert {floor : ℕ} (hrows : s'.rows = s.rows.insert res row)
    (hcells : s'.cells = s.cells) (hpages : floor ≤ row.pages) : Onward res floor s s' := by
  refine ⟨hcells, fun r hr => by rw [hrows, AList.lookup_insert_ne hr], ?_⟩
  rw [pagesAt_of_insert hrows, if_pos rfl]
  exact hpages

theorem onward_watchWriter (s : State) (pid : Pid) (res : Resource) :
    Onward res (s.pagesAt res) s (s.watchWriter pid res) := by
  refine .of_rows (quiet_watchWriter s pid res).rows ?_
  unfold State.watchWriter
  split <;> rfl

theorem onward_addTotals (tokens : List Token) (n : ℤ) :
    ∀ s : State, Onward res (s.pagesAt res) s (tokens.foldl (fun s token => s.addTotal token n) s) := by
  induction tokens with
  | nil => exact fun s => .refl s
  | cons t tokens ih =>
    intro s
    have hadd : Onward res (s.pagesAt res) s (s.addTotal t n) := .of_rows rfl rfl
    exact hadd.trans (ih _)

theorem onward_start (hrow : s.rows.lookup res = some row) (m : MemoryMeta) (acc : Account)
    (opId : Ref) (pid : Pid) (req : TxnRequest) :
    Onward res (s.pagesAt res) s (s.start res row m acc opId pid req).2 := by
  have hpages : s.pagesAt res = row.pages := pagesAt_of_lookup hrow
  cases req with
  | growBegin delta ceiling =>
    unfold State.start State.startGrow
    dsimp only
    split
    · exact .refl s
    · split
      · exact .refl s
      · split
        · exact .refl s
        · rename_i u hu
          have hu' := eq_of_reservePages hu
          subst hu'
          refine Onward.trans (Onward.trans ?_ (onward_addTotals _ _ _)) (onward_watchWriter _ _ _)
          exact .of_insert rfl rfl (hpages.le.trans (Nat.le_add_right _ _))
  | arenaBegin target seen pages =>
    unfold State.start State.startArena
    dsimp only
    split
    · exact .refl s
    · split
      · exact .refl s
      · split
        · exact .refl s
        · rename_i u hu
          have hu' := eq_of_reservePages hu
          subst hu'
          refine Onward.trans ?_ (onward_watchWriter _ _ _)
          exact .of_insert rfl rfl hpages.le

theorem onward_transaction (s : State) (res : Resource) (w : Waiter) :
    Onward res (s.pagesAt res) s (s.transaction res w).2 := by
  unfold State.transaction
  split
  · exact .refl s
  · rename_i row m acc hmem
    obtain ⟨hrow, -⟩ := memoryRow_eq_some.mp hmem
    split
    · exact .refl s
    · split
      · exact .refl s
      · exact onward_start hrow _ _ _ _ _
      · split
        · exact .refl s
        · exact .of_rows rfl rfl

theorem onward_drain (res : Resource) (ws : List Waiter) :
    ∀ s : State, Onward res (s.pagesAt res) s (s.drain res ws) := by
  induction ws with
  | nil => exact fun s => .of_rows rfl rfl
  | cons w ws ih =>
    intro s
    unfold State.drain
    have hput : Onward res (s.pagesAt res) s { s with queued := s.queued.insert res ws } := .of_rows rfl rfl
    have hnext := hput.trans (onward_transaction _ res w)
    split
    · rename_i r u hu
      rw [hu] at hnext
      have hreply : Onward res (s.pagesAt res) s (u.reply w.caller r) := hnext.trans (.of_rows rfl rfl)
      dsimp only
      split
      · exact hreply.trans (ih _)
      · exact hreply
    · rename_i u hu
      rw [hu] at hnext
      exact hnext

theorem onward_finishPublished (hrow : s.rows.lookup res = some row) (m : MemoryMeta)
    (acc : Account) (txn : Txn) : Onward res (s.pagesAt res) s (s.finishPublished res row m acc txn) := by
  have hpages : s.pagesAt res = row.pages := pagesAt_of_lookup hrow
  cases txn with
  | grow opId pid before after pages chunks | arena opId pid published target pages =>
    refine Onward.trans (Onward.trans ?_ (onward_watchWriter _ _ _)) (onward_drain _ _ _)
    exact .of_insert rfl rfl hpages.le

/-- What a memory goes back to when its transaction ends without a commit, unless the chunks of
the growth are out. -/
def State.undone (s : State) (m : MemoryMeta) : Txn → Option ℕ
  | .grow opId pid before after pages chunks =>
      if 0 < pages ∧ s.published m (.grow opId pid before after pages chunks) = true then none
      else some before
  | .arena .. => none

/-- The holder has another resource with pages, or some are left of this one. -/
def State.Spare (s : State) (token : Token) (res : Resource) (left : ℕ) : Prop :=
  0 < left ∨ ∃ r, r ≠ res ∧ s.ownerOf r token ≠ none ∧ 0 < s.pagesAt r

theorem bounded_undo (h : Books e s) (he : ∀ token, 0 ≤ e token)
    (hrow : s.rows.lookup res = some row) (hbody : row.body = .memory m acc) {txn : Txn}
    (htxn : acc.txn = some txn) (hnot : s.published m txn = false)
    (hspare : ∀ before, s.undone m txn = some before → s.ownerOf res token ≠ none →
      s.Spare token res before) :
    Bounded token max s (s.undo res row m acc txn) := by
  have hok : acc.Ok row.pages := (h.rows res row hrow).account hbody
  cases txn with
  | arena opId pid published target pages => exact .of_eq rfl rfl rfl
  | grow opId pid before after pages chunks =>
    obtain ⟨-, hphys⟩ := hok
    rw [htxn] at hphys
    obtain ⟨-, -, hafter, hle⟩ := hphys
    have hundone : s.undone m (.grow opId pid before after pages chunks) = some before := by
      rw [State.undone, if_neg]
      rw [hnot]
      simp
    refine Bounded.trans ?_ (bounded_subTotals row.holders.keys_nodup ?_ _ fun hmem => ?_)
    · exact .of_eq rfl rfl rfl
    · omega
    · have hheld : (row.holders.lookup token).isSome := mem_holders_keys.mp hmem
      have howner : s.ownerOf res token ≠ none := by
        rw [ownerOf_of_lookup hrow]
        exact Option.isSome_iff_ne_none.mp hheld
      refine h.lt_total he hrow hheld (by omega) ?_
      refine (hspare before hundone howner).imp_left fun hpos => ?_
      omega

theorem bounded_settle (h : Books e s) (he : ∀ token, 0 ≤ e token)
    (hrow : s.rows.lookup res = some row) (hbody : row.body = .memory m acc) {txn : Txn}
    (htxn : acc.txn = some txn)
    (hspare : ∀ before, s.undone m txn = some before → s.ownerOf res token ≠ none →
      s.Spare token res before) :
    Bounded token max s (s.settle res row m acc txn) := by
  unfold State.settle
  split
  · exact bounded_finishPublished s res row m acc txn
  · rename_i hnot
    exact (bounded_undo h he hrow hbody htxn (by simpa using hnot) hspare).trans
      (bounded_drain _ _ _)

theorem onward_subTotals (tokens : List Token) (n : ℤ) : ∀ s : State,
    Onward res (s.pagesAt res) s (tokens.foldl (fun s token => s.subTotal token n) s) := by
  induction tokens with
  | nil => exact fun s => .refl s
  | cons t tokens ih =>
    intro s
    have hsub : Onward res (s.pagesAt res) s (s.subTotal t n) := .of_rows rfl rfl
    exact hsub.trans (ih _)

theorem undone_le (h : Books e s) (hrow : s.rows.lookup res = some row)
    (hbody : row.body = .memory m acc) {txn : Txn} (htxn : acc.txn = some txn) :
    (s.undone m txn).getD row.pages ≤ row.pages := by
  obtain ⟨-, hphys⟩ : acc.Ok row.pages := (h.rows res row hrow).account hbody
  cases txn with
  | arena opId pid published target pages => exact le_rfl
  | grow opId pid before after pages chunks =>
    rw [htxn] at hphys
    rw [State.undone]
    split
    · exact le_rfl
    · rw [Option.getD_some]
      omega

theorem onward_settle (h : Books e s) (hrow : s.rows.lookup res = some row)
    (hbody : row.body = .memory m acc) {txn : Txn} (htxn : acc.txn = some txn) :
    Onward res ((s.undone m txn).getD row.pages) s (s.settle res row m acc txn) := by
  have hfinish := onward_finishPublished hrow m acc txn
  have hle := undone_le h hrow hbody htxn
  have hpages : s.pagesAt res = row.pages := pagesAt_of_lookup hrow
  unfold State.settle
  split
  · exact ⟨hfinish.cells, hfinish.others, hle.trans (hpages.ge.trans hfinish.pages)⟩
  · rename_i hnot
    refine Onward.trans ?_ (onward_drain _ _ _)
    cases txn with
    | arena opId pid published target pages => exact .of_insert rfl rfl le_rfl
    | grow opId pid before after pages chunks =>
      have hundone : s.undone m (.grow opId pid before after pages chunks) = some before := by
        rw [State.undone, if_neg]
        exact fun hand => hnot hand.2
      rw [hundone, Option.getD_some]
      refine Onward.trans ?_ (onward_subTotals _ _ _)
      exact .of_insert rfl rfl le_rfl

/-- What `res` goes back to when the transaction in flight on it ends without a commit, if `ends`
says that it does. -/
def State.settling (s : State) (res : Resource) (ends : Txn → Bool) : Option ℕ :=
  match s.memoryRow res with
  | some (_, m, acc) => (acc.txn.filter ends).bind (s.undone m)
  | none => none

theorem settling_congr (hrow : s'.rows.lookup res = s.rows.lookup res)
    (hcells : s'.cells = s.cells) (ends : Txn → Bool) :
    s'.settling res ends = s.settling res ends := by
  have hmem : s'.memoryRow res = s.memoryRow res := by
    unfold State.memoryRow
    rw [hrow]
  have hundone : ∀ m txn, s'.undone m txn = s.undone m txn := by
    intro m txn
    cases txn with
    | arena opId pid published target pages => rfl
    | grow opId pid before after pages chunks =>
      by_cases hpages : 0 < pages
      · -- a growth that moved chunks is out when the chunk tuple says so
        have hpublished : s'.published m (.grow opId pid before after pages chunks) =
            s.published m (.grow opId pid before after pages chunks) := by
          have htuple : ∀ ref, s'.tupleSize ref = s.tupleSize ref := by
            intro ref
            rw [State.tupleSize, State.tupleSize, hcells]
          unfold State.published
          cases m.chunksRef with
          | none => rfl
          | some r => simp only [hpages.ne', if_false, htuple]
        rw [State.undone, State.undone, hpublished]
      · rw [State.undone, State.undone, if_neg fun hand => hpages hand.1,
          if_neg fun hand => hpages hand.1]
  unfold State.settling
  rw [hmem]
  cases s.memoryRow res with
  | none => rfl
  | some found =>
    obtain ⟨row, m, acc⟩ := found
    exact congrArg (acc.txn.filter ends).bind (funext (hundone m))

theorem settling_of_memoryRow (hmem : s.memoryRow res = some (row, m, acc)) (ends : Txn → Bool) :
    s.settling res ends = (acc.txn.filter ends).bind (s.undone m) := by
  rw [State.settling, hmem]

theorem settling_false (s : State) (res : Resource) : s.settling res (fun _ => false) = none := by
  unfold State.settling
  split
  · rename_i acc _
    cases acc.txn <;> rfl
  · rfl

theorem settling_le (h : Books e s) (res : Resource) (ends : Txn → Bool) :
    (s.settling res ends).getD (s.pagesAt res) ≤ s.pagesAt res := by
  cases hmem : s.memoryRow res with
  | none => rw [State.settling, hmem, Option.getD_none]
  | some found =>
    obtain ⟨row, m, acc⟩ := found
    obtain ⟨hrow, hbody⟩ := memoryRow_eq_some.mp hmem
    rw [settling_of_memoryRow hmem, pagesAt_of_lookup hrow]
    cases htxn : acc.txn with
    | none => exact le_rfl
    | some txn =>
      rw [Option.filter_some]
      split
      · exact undone_le h hrow hbody htxn
      · exact le_rfl

/-- The transaction a dead writer left on `res`, if any, is settled. -/
theorem writerGone_spec (h : Books e s) (he : ∀ token, 0 ≤ e token) (pid : Pid) (res : Resource) :
    Onward res ((s.settling res fun txn => txn.pid = pid).getD (s.pagesAt res)) s
      (s.writerGone pid res) ∧
    ∀ (token : Token) (max : ℕ), (∀ before,
      (s.settling res fun txn => txn.pid = pid) = some before →
      s.ownerOf res token ≠ none → s.Spare token res before) →
        Bounded token max s (s.writerGone pid res) := by
  cases hmem : s.memoryRow res with
  | none =>
    have hnone : (s.settling res fun txn => txn.pid = pid) = none := by
      rw [State.settling, hmem]
    rw [writerGone_of_none hmem pid, hnone]
    exact ⟨.refl s, fun _ _ _ => .refl s⟩
  | some found =>
    obtain ⟨row, m, acc⟩ := found
    obtain ⟨hrow, hbody⟩ := memoryRow_eq_some.mp hmem
    obtain ⟨t, hor, hlookup, hgone⟩ := writerGone_cases hrow hbody pid
    have hpages : s.pagesAt res = row.pages := pagesAt_of_lookup hrow
    have hforget : Onward res (s.pagesAt res) s t ∧ (∀ token max, Bounded token max s t) ∧
        Books e t ∧ (∀ txn, t.undone m txn = s.undone m txn) ∧ SameHolders s t := by
      rcases hor with rfl | rfl
      · exact ⟨.refl t, fun _ _ => .refl t, h, fun _ => rfl, .refl t⟩
      · refine ⟨.of_insert rfl rfl hpages.le, fun _ _ => .of_eq rfl rfl rfl,
          h.withoutDone hrow hbody pid, fun txn => ?_, .of_insert hrow rfl rfl rfl rfl⟩
        cases txn <;> rfl
    obtain ⟨honward, hbounded, hbooks, hundone, hsame⟩ := hforget
    rcases hgone with hgone | ⟨txn, htxn, hpid, hgone⟩
    · rw [hgone]
      exact ⟨⟨honward.cells, honward.others, (settling_le h res _).trans honward.pages⟩,
        fun token max _ => hbounded token max⟩
    · have hsettling : (s.settling res fun txn => txn.pid = pid) = s.undone m txn := by
        rw [settling_of_memoryRow hmem, htxn, Option.filter_some, if_pos (decide_eq_true hpid),
          Option.bind_some]
      rw [hgone, hsettling]
      have hsettle := onward_settle hbooks hlookup rfl htxn
      refine ⟨⟨hsettle.cells.trans honward.cells,
        fun r hr => (hsettle.others r hr).trans (honward.others r hr), ?_⟩, fun token max hspare => ?_⟩
      · rw [hpages, ← hundone]
        exact hsettle.pages
      · refine (hbounded token max).trans
          (bounded_settle hbooks he hlookup rfl htxn fun before hbefore hheld => ?_)
        have hspare' := hspare before (hundone txn ▸ hbefore) (hsame.ownerOf res token ▸ hheld)
        refine hspare'.imp_right ?_
        rintro ⟨r, hr, hother, hpos⟩
        refine ⟨r, hr, (hsame.ownerOf r token).symm ▸ hother, ?_⟩
        rw [pagesAt_congr (honward.others r hr)]
        exact hpos

end ErlangWasm.Keeper
