import ErlangWasm.Keeper.Books

/-!
# Each operation keeps the books

The totals are only ever taken down by what the token is known to hold, which is why no counter
goes below zero.
-/

namespace ErlangWasm.Keeper

open Reasoning

variable {e : Token → ℤ} {s : State} {res : Resource} {row : Row}

/-! ## Totals -/

theorem total_addTotal (s : State) (token t : Token) (n : ℤ) :
    (s.addTotal token n).total t = s.total t + if t = token then n else 0 := by
  unfold State.total State.addTotal
  by_cases hn : n = 0
  · simp [hn]
  · rw [if_neg hn, Table.lookup_insert_eq]
    split
    · rename_i ht
      rw [ht]
      rfl
    · simp

theorem total_subTotal (s : State) (token t : Token) {n : ℤ} (hn : n ≤ s.total token) :
    (s.subTotal token n).total t = s.total t - if t = token then n else 0 := by
  have hsub : (s.subTotal token n).totals = if s.total token - n ≤ 0 then s.totals.erase token
      else s.totals.insert token (s.total token - n) := rfl
  unfold State.total
  rw [hsub]
  by_cases ht : t = token
  · subst ht
    rw [if_pos rfl]
    split
    · rename_i hle
      rw [AList.lookup_erase]
      unfold State.total at hn hle
      simp only [Option.getD_none]
      omega
    · rw [AList.lookup_insert]
      rfl
  · rw [if_neg ht, sub_zero]
    split
    · rw [AList.lookup_erase_ne ht]
    · rw [AList.lookup_insert_ne ht]

theorem belowZero_subTotal (h : s.belowZero = false) {token : Token} {n : ℤ}
    (hn : n ≤ s.total token) : (s.subTotal token n).belowZero = false := by
  show (s.belowZero || decide (s.total token - n < 0)) = false
  rw [h, Bool.false_or, decide_eq_false_iff_not]
  omega

/-- What moves the totals and the ceilings alone. -/
structure Tallied (s s' : State) : Prop where
  rows : s'.rows = s.rows
  pages : s'.pages = s.pages
  images : s'.images = s.images
  snapshot : s'.snapshot = s.snapshot
  held : s'.held = s.held
  mons : s'.mons = s.mons
  queued : s'.queued = s.queued
  sent : s'.sent = s.sent
  nextRef : s'.nextRef = s.nextRef

theorem tallied_foldl (f : State → Token → State) (h : ∀ s token, Tallied s (f s token))
    (tokens : List Token) : ∀ s : State, Tallied s (tokens.foldl f s) := by
  induction tokens with
  | nil => exact fun s => ⟨rfl, rfl, rfl, rfl, rfl, rfl, rfl, rfl, rfl⟩
  | cons token tokens ih =>
    intro s
    have hf := h s token
    have hrest := ih (f s token)
    exact ⟨hrest.rows.trans hf.rows, hrest.pages.trans hf.pages, hrest.images.trans hf.images,
      hrest.snapshot.trans hf.snapshot, hrest.held.trans hf.held, hrest.mons.trans hf.mons,
      hrest.queued.trans hf.queued, hrest.sent.trans hf.sent, hrest.nextRef.trans hf.nextRef⟩

theorem tallied_addTotals (tokens : List Token) (n : ℤ) (s : State) :
    Tallied s (tokens.foldl (fun s token => s.addTotal token n) s) :=
  tallied_foldl (fun s token => s.addTotal token n)
    (fun _ _ => ⟨rfl, rfl, rfl, rfl, rfl, rfl, rfl, rfl, rfl⟩) tokens s

theorem tallied_subTotals (tokens : List Token) (n : ℤ) (s : State) :
    Tallied s (tokens.foldl (fun s token => s.subTotal token n) s) :=
  tallied_foldl (fun s token => s.subTotal token n)
    (fun _ _ => ⟨rfl, rfl, rfl, rfl, rfl, rfl, rfl, rfl, rfl⟩) tokens s

theorem total_foldl_addTotal {tokens : List Token} (hnodup : tokens.Nodup) (n : ℤ) (t : Token) :
    ∀ s : State, (tokens.foldl (fun s token => s.addTotal token n) s).total t =
      s.total t + if t ∈ tokens then n else 0 := by
  induction tokens with
  | nil => simp
  | cons token tokens ih =>
    intro s
    obtain ⟨hnot, hnodup'⟩ := List.nodup_cons.mp hnodup
    rw [List.foldl_cons, ih hnodup', total_addTotal]
    by_cases ht : t = token
    · subst ht
      simp [hnot]
    · simp [ht]

theorem belowZero_foldl_addTotal (tokens : List Token) (n : ℤ) :
    ∀ s : State, (tokens.foldl (fun s token => s.addTotal token n) s).belowZero = s.belowZero := by
  induction tokens with
  | nil => exact fun _ => rfl
  | cons token tokens ih => exact fun s => ih _

theorem total_foldl_subTotal {tokens : List Token} (hnodup : tokens.Nodup) (n : ℤ) (t : Token) :
    ∀ s : State, (∀ token ∈ tokens, n ≤ s.total token) →
      (tokens.foldl (fun s token => s.subTotal token n) s).total t =
        s.total t - if t ∈ tokens then n else 0 := by
  induction tokens with
  | nil => simp
  | cons token tokens ih =>
    intro s hle
    obtain ⟨hnot, hnodup'⟩ := List.nodup_cons.mp hnodup
    have hn := hle token List.mem_cons_self
    have hrest : ∀ t' ∈ tokens, n ≤ (s.subTotal token n).total t' := by
      intro t' ht'
      have hne : t' ≠ token := fun he => hnot (he ▸ ht')
      rw [total_subTotal s token t' hn, if_neg hne, sub_zero]
      exact hle t' (List.mem_cons_of_mem _ ht')
    rw [List.foldl_cons, ih hnodup' _ hrest, total_subTotal s token t hn]
    by_cases ht : t = token
    · subst ht
      simp [hnot]
    · simp [ht]

theorem belowZero_foldl_subTotal {tokens : List Token} (hnodup : tokens.Nodup) (n : ℤ) :
    ∀ s : State, s.belowZero = false → (∀ token ∈ tokens, n ≤ s.total token) →
      (tokens.foldl (fun s token => s.subTotal token n) s).belowZero = false := by
  induction tokens with
  | nil => exact fun s h _ => h
  | cons token tokens ih =>
    intro s h hle
    obtain ⟨hnot, hnodup'⟩ := List.nodup_cons.mp hnodup
    have hn := hle token List.mem_cons_self
    refine ih hnodup' _ (belowZero_subTotal h hn) fun t' ht' => ?_
    have hne : t' ≠ token := fun he => hnot (he ▸ ht')
    rw [total_subTotal s token t' hn, if_neg hne, sub_zero]
    exact hle t' (List.mem_cons_of_mem _ ht')

/-! ## What a row is worth is no more than the summary -/

theorem Books.charged_le (h : Books e s) (hrow : s.rows.lookup res = some row) :
    row.charged ≤ s.pages := by
  rw [h.pages, State.charged]
  exact Table.le_total (fun _ row => row.charged) (fun k v hv => (h.rows k v hv).charged_nonneg) hrow

theorem Books.share_le (h : Books e s) (he : ∀ token, 0 ≤ e token)
    (hrow : s.rows.lookup res = some row) (token : Token) : row.share token ≤ s.total token := by
  have hle : row.share token ≤ s.logical token :=
    Table.le_total (fun _ row => row.share token) (fun _ v _ => v.share_nonneg token) hrow
  have htotal := h.totals token
  have hpos := he token
  omega

theorem Books.overImage_le (h : Books e s) (hrow : s.rows.lookup res = some row)
    (img : Resource) : row.overImage img ≤ s.imageCount img := by
  rw [h.images, State.overImage]
  exact Table.le_total (fun _ row => row.overImage img) (fun _ v _ => v.overImage_nonneg img) hrow

theorem Row.imageBytes_nonneg (row : Row) : 0 ≤ row.imageBytes := by
  unfold Row.imageBytes
  split
  · exact Int.natCast_nonneg _
  · exact le_rfl

theorem Books.imageBytes_le (h : Books e s) (hrow : s.rows.lookup res = some row) {n : ℤ}
    (hn : s.snapshot = some n) : row.imageBytes ≤ n := by
  rw [h.snapshot n hn, State.imageBytes]
  exact Table.le_total (fun _ row => row.imageBytes) (fun _ v _ => v.imageBytes_nonneg) hrow

theorem Row.share_of_mem {token : Token} {owner : Option Pid}
    (h : row.holders.lookup token = some owner) : row.share token = row.counted := by
  rw [Row.share, h]
  rfl

theorem imageCount_countImage (s : State) (image : Option Resource) (n : ℤ) (img : Resource) :
    (s.countImage image n).imageCount img = s.imageCount img + if image = some img then n else 0 := by
  unfold State.imageCount State.countImage
  cases image with
  | none => simp
  | some i =>
    simp only [Table.lookup_insert_eq, Option.some.injEq]
    by_cases heq : img = i
    · subst heq
      simp [State.imageCount]
    · simp [heq, Ne.symm heq]

theorem belowZero_countImage (h : s.belowZero = false) {image : Option Resource} {n : ℤ}
    (hn : ∀ img, image = some img → 0 ≤ s.imageCount img + n) :
    (s.countImage image n).belowZero = false := by
  show (s.belowZero || image.any fun img => decide (s.imageCount img + n < 0)) = false
  rw [h, Bool.false_or]
  cases image with
  | none => rfl
  | some img =>
    have hpos := hn img rfl
    rw [Option.any_some, decide_eq_false_iff_not]
    omega

/-! ## The end of a resource -/

section RetireRow

variable (s res row)

@[simp] theorem giveBack_pages : (s.giveBack row).pages = s.pages - row.charged := by
  unfold State.giveBack Row.charged
  cases row.body <;> simp [State.releasePages]

@[simp] theorem giveBack_snapshot :
    (s.giveBack row).snapshot = s.snapshot.map fun n => n - row.imageBytes := by
  unfold State.giveBack Row.imageBytes
  cases row.body <;> simp [State.releasePages]

@[simp] theorem retireRow_rows : (s.retireRow res row).rows = s.rows.erase res := by
  unfold State.retireRow State.giveBack State.forgetMeta
  cases row.body <;> exact Table.erase_insert _ _ _

@[simp] theorem retireRow_pages : (s.retireRow res row).pages = s.pages - row.charged := by
  unfold State.retireRow
  rw [giveBack_pages]
  cases hbody : row.body <;> rfl

@[simp] theorem retireRow_snapshot :
    (s.retireRow res row).snapshot = s.snapshot.map fun n => n - row.imageBytes := by
  unfold State.retireRow
  rw [giveBack_snapshot]
  cases row.body <;> rfl

@[simp] theorem retireRow_totals : (s.retireRow res row).totals = s.totals := by
  unfold State.retireRow State.giveBack State.forgetMeta
  cases row.body <;> rfl

@[simp] theorem retireRow_images : (s.retireRow res row).images = s.images := by
  unfold State.retireRow State.giveBack State.forgetMeta
  cases row.body <;> rfl

@[simp] theorem retireRow_nextRef : (s.retireRow res row).nextRef = s.nextRef := by
  unfold State.retireRow State.giveBack State.forgetMeta
  cases row.body <;> rfl

@[simp] theorem retireRow_held : (s.retireRow res row).held = s.held := by
  unfold State.retireRow State.giveBack State.forgetMeta
  cases row.body <;> rfl

@[simp] theorem retireRow_queued : (s.retireRow res row).queued = s.queued := by
  unfold State.retireRow State.giveBack State.forgetMeta
  cases row.body <;> rfl

@[simp] theorem retireRow_sent : (s.retireRow res row).sent = s.sent := by
  unfold State.retireRow State.giveBack State.forgetMeta
  cases row.body <;> rfl

variable {s row}

theorem retireRow_belowZero (h : s.belowZero = false) (hpages : row.charged ≤ s.pages)
    (hbytes : ∀ n, s.snapshot = some n → row.imageBytes ≤ n) :
    (s.retireRow res row).belowZero = false := by
  unfold State.retireRow State.giveBack State.forgetMeta
  cases hbody : row.body with
  | image bytes =>
    show (s.belowZero || s.snapshot.any fun (n : ℤ) => decide (n - bytes < 0)) = false
    rw [h, Bool.false_or]
    cases hn : s.snapshot with
    | none => rfl
    | some n =>
      have hle := hbytes n hn
      rw [Row.imageBytes, hbody] at hle
      rw [Option.any_some, decide_eq_false_iff_not]
      simp only at hle
      omega
  | memory m acc | cell | heap objs elems =>
    show (s.belowZero || decide (s.pages - row.charged < 0)) = false
    rw [h, Bool.false_or, decide_eq_false_iff_not]
    omega

end RetireRow

/-- An image that went with the last memory over it. -/
theorem Books.retireImage (h : Books e s) (img : Resource) : Books e (s.retireImage img) := by
  unfold State.retireImage
  split
  · exact h
  · rename_i row hrow
    split
    · rename_i bytes hbody
      split
      · rename_i hlast
        have hshare : ∀ token, row.share token = 0 := by
          intro token
          have hnone : row.holders.lookup token = none := by
            rw [AList.lookup_eq_none, AList.mem_keys, hlast.2]
            exact List.not_mem_nil
          rw [Row.share, hnone]
          rfl
        refine h.remove hrow (by simp) (by simp) (by simp) (fun token => ?_) (fun img' => ?_)
          (by simp) (retireRow_belowZero img h.notBelow (h.charged_le hrow) fun n hn =>
            h.imageBytes_le hrow hn)
        · rw [State.total, retireRow_totals, hshare, sub_zero]
          rfl
        · rw [State.imageCount, retireRow_images, Row.overImage, hbody, sub_zero]
          rfl
      · exact h
    · exact h

/-- A row retired from the state its last holder has already left. -/
theorem Books.retire (h : Books e s) {t : State} {row' : Row}
    (hrow : s.rows.lookup res = some row) (hbody : row'.body = row.body)
    (hpages : row'.pages = row.pages) (hquiet : t.rows = s.rows ∧ t.pages = s.pages ∧
      t.images = s.images ∧ t.snapshot = s.snapshot ∧ s.nextRef ≤ t.nextRef)
    (htotals : ∀ token, t.total token = s.total token - row.share token)
    (hbelow : t.belowZero = false) : Books e (t.retire res row') := by
  obtain ⟨hrows, hnode, himages, hsnapshot, hnext⟩ := hquiet
  have hcharged : row'.charged = row.charged := by
    unfold Row.charged
    rw [hbody, hpages]
  have hbytes : row'.imageBytes = row.imageBytes := by
    unfold Row.imageBytes
    rw [hbody]
  have hzero : (t.retireRow res row').belowZero = false := by
    refine retireRow_belowZero res hbelow ?_ fun n hn => ?_
    · rw [hcharged, hnode]
      exact h.charged_le hrow
    · rw [hbytes]
      exact h.imageBytes_le hrow (hsnapshot ▸ hn)
  have htotal : ∀ token, (t.retireRow res row').total token =
      s.total token - row.share token := fun token => by
    rw [State.total, retireRow_totals]
    exact htotals token
  -- all but a memory over an image have nothing left to do
  have hplain : (∀ img, row.overImage img = 0) → Books e (t.retireRow res row') := by
    intro hover
    refine h.remove hrow ?_ ?_ ?_ htotal (fun img => ?_) ?_ hzero
    · rw [retireRow_rows, hrows]
    · rw [retireRow_nextRef]
      exact hnext
    · rw [retireRow_pages, hnode, hcharged]
    · rw [State.imageCount, retireRow_images, himages, hover, sub_zero]
      rfl
    · rw [retireRow_snapshot, hsnapshot, hbytes]
  unfold State.retire State.afterRetire
  rw [hbody]
  cases hkind : row.body with
  | image bytes | cell | heap objs elems =>
    refine hplain fun img => ?_
    rw [Row.overImage, hkind]
  | memory m acc =>
    cases himg : m.image with
    | none =>
      simp only [himg]
      refine hplain fun img => ?_
      rw [Row.overImage, hkind]
      simp [himg]
    | some img =>
      have hone : row.overImage img = 1 := by
        rw [Row.overImage, hkind]
        simp [himg]
      have hcount : (t.retireRow res row').imageCount img = s.imageCount img := by
        rw [State.imageCount, retireRow_images, himages]
        rfl
      have hle := h.overImage_le hrow img
      simp only [himg]
      have hcounted : Books e ((t.retireRow res row').countImage (some img) (-1)) := by
        refine h.remove hrow ?_ ?_ ?_ htotal (fun img' => ?_) ?_ ?_
        · show (t.retireRow res row').rows = _
          rw [retireRow_rows, hrows]
        · show _ ≤ (t.retireRow res row').nextRef
          rw [retireRow_nextRef]
          exact hnext
        · show (t.retireRow res row').pages = _
          rw [retireRow_pages, hnode, hcharged]
        · rw [imageCount_countImage, State.imageCount, retireRow_images, himages, Row.overImage,
            hkind]
          show s.imageCount img' + _ = _
          simp only [himg]
          split <;> omega
        · show (t.retireRow res row').snapshot = _
          rw [retireRow_snapshot, hsnapshot, hbytes]
        · refine belowZero_countImage hzero fun i hi => ?_
          obtain rfl := Option.some.inj hi
          rw [hcount]
          omega
      exact hcounted.retireImage img

/-! ## Holders -/

/-- A row with one holder fewer. -/
theorem Row.share_erase (row : Row) (token t : Token) :
    ({ row with holders := row.holders.erase token } : Row).share t =
      row.share t - if t = token then row.share token else 0 := by
  unfold Row.share
  rw [Table.lookup_erase_eq]
  by_cases ht : t = token
  · subst ht
    simp
  · simp [ht, Row.counted]

/-- A row with one holder more. -/
theorem Row.share_insert (row : Row) {token : Token} (owner : Option Pid)
    (hnew : row.holders.lookup token = none) (t : Token) :
    ({ row with holders := row.holders.insert token owner } : Row).share t =
      row.share t + if t = token then row.counted else 0 := by
  unfold Row.share
  rw [Table.lookup_insert_eq]
  by_cases ht : t = token
  · subst ht
    simp [hnew, Row.counted]
  · simp [ht, Row.counted]

theorem Books.drop (h : Books e s) (he : ∀ token, 0 ≤ e token) (res : Resource) (token : Token) :
    Books e (s.drop res token) := by
  unfold State.drop
  split
  · exact h
  · rename_i row hrow
    split
    · exact h
    · rename_i owner howner
      have hcounted : row.counted ≤ s.total token :=
        Row.share_of_mem howner ▸ h.share_le he hrow token
      set t := (s.subTotal token row.counted).unhold owner res token with ht
      have hq : Quiet (s.subTotal token row.counted) t := quiet_unhold _ _ _ _
      have htotal : ∀ t', t.total t' = s.total t' - if t' = token then row.counted else 0 := by
        intro t'
        rw [State.total, hq.totals]
        exact total_subTotal s token t' hcounted
      have hbelow : t.belowZero = false :=
        hq.belowZero.trans (belowZero_subTotal h.notBelow hcounted)
      dsimp only
      split
      · rename_i hlast
        refine h.retire hrow rfl rfl ⟨hq.rows, hq.pages, hq.images, hq.snapshot, hq.nextRef⟩
          (fun t' => ?_) hbelow
        rw [htotal]
        by_cases ht' : t' = token
        · rw [if_pos ht', ht', Row.share_of_mem howner]
        · -- nobody else was left among the holders
          have hnone : row.holders.lookup t' = none := by
            rw [← AList.lookup_erase_ne ht', AList.lookup_eq_none, AList.mem_keys, hlast.1]
            exact List.not_mem_nil
          rw [if_neg ht', Row.share, hnone]
          rfl
      · have hok : ({ row with holders := row.holders.erase token } : Row).Ok := h.rows res row hrow
        refine h.replace hrow ?_ hok hq.nextRef ?_ (fun t' => ?_) hq.images
          (fun _ => rfl) hq.snapshot rfl (fun _ hbody => hbody) hbelow
        · show t.rows.insert res _ = _
          rw [hq.rows]
          rfl
        · show t.pages = s.pages + (row.charged - row.charged)
          rw [hq.pages, sub_self, add_zero]
          rfl
        · show t.total t' = _
          rw [htotal, Row.share_erase, Row.share_of_mem howner]
          omega

theorem Books.dropAll (he : ∀ token, 0 ≤ e token) (pairs : List (Resource × Token)) :
    ∀ s : State, Books e s → Books e (s.dropAll pairs) := by
  induction pairs with
  | nil => exact fun s h => h
  | cons pair pairs ih => exact fun s h => ih _ (h.drop he pair.1 pair.2)

theorem Books.forgetCap (h : Books e s) (token : Token) : Books e (s.forgetCap token) :=
  h.same rfl rfl rfl rfl rfl rfl le_rfl

theorem Books.setCap (h : Books e s) (token : Token) (max : ℕ) : Books e (s.setCap token max) :=
  h.same rfl rfl rfl rfl rfl rfl le_rfl

theorem Books.moveCap (h : Books e s) (src dst : Token) : Books e (s.moveCap src dst) :=
  h.same rfl rfl rfl rfl rfl rfl le_rfl

theorem Books.pendingCap (h : Books e s) (token : Token) (max : Option ℕ) :
    Books e (s.pendingCap token max) := by
  unfold State.pendingCap
  split
  · exact h
  · split
    · exact h
    · exact h.setCap _ _

/-- A holder's place taken by another, who may be one already: then its total counts the row once
more than the row says. -/
def retagged (e : Token → ℤ) (row : Row) (src dst : Token) (token : Token) : ℤ :=
  e token + if token = dst ∧ dst ≠ src then row.share dst else 0

theorem Books.retag (h : Books e s) (he : ∀ token, 0 ≤ e token) (src dst : Token)
    (owner : Option Pid) {old : Option Pid} (hrow : s.rows.lookup res = some row)
    (hsrc : row.holders.lookup src = some old) :
    Books (retagged e row src dst) (s.retag src dst owner res) := by
  have hcounted : row.counted ≤ s.total src :=
    Row.share_of_mem hsrc ▸ h.share_le he hrow src
  unfold State.retag
  rw [hrow]
  simp only [hsrc]
  set row' : Row := { row with holders := (row.holders.erase src).insert dst owner } with hrow'
  set t := (s.putRow res row').subTotal src row.counted with ht
  have htotal : ∀ t', t.total t' = s.total t' - if t' = src then row.counted else 0 :=
    fun t' => total_subTotal (s.putRow res row') src t' hcounted
  have hq : Quiet (t.addTotal dst row.counted)
      (((t.addTotal dst row.counted).unhold old res src).watch owner res dst) :=
    (quiet_unhold _ _ _ _).trans (quiet_watch _ _ _ _)
  refine h.replace hrow hq.rows (h.rows res row hrow) hq.nextRef ?_ (fun t' => ?_) hq.images
    (fun _ => rfl) hq.snapshot rfl (fun _ hbody => hbody)
    (hq.belowZero.trans (belowZero_subTotal h.notBelow hcounted))
  · rw [hq.pages]
    show s.pages = s.pages + (row.charged - row.charged)
    rw [sub_self, add_zero]
  · have hshare : row'.share t' = if t' = dst then row.counted
        else row.share t' - if t' = src then row.counted else 0 := by
      unfold Row.share
      rw [Table.lookup_insert_eq, Table.lookup_erase_eq]
      by_cases hd : t' = dst
      · simp [hd, Row.counted, hrow']
      · by_cases hs : t' = src
        · subst hs
          simp [hd, hsrc]
        · simp [hd, hs, Row.counted, hrow']
    rw [State.total, hq.totals]
    show (t.addTotal dst row.counted).total t' = _
    rw [total_addTotal, htotal, hshare, retagged]
    have hsrc' := Row.share_of_mem hsrc
    by_cases hd : t' = dst
    · subst hd
      by_cases hs : t' = src
      · subst hs
        simp [hsrc']
      · simp [hs]
        omega
    · simp [hd]
      omega

theorem Books.acquire (h : Books e s) (res : Resource) (token : Token) (owner : Option Pid)
    (limit : Option ℕ) : Books e (s.acquire res token owner limit).2 := by
  have hp := h.pendingCap token limit
  unfold State.acquire
  set t := s.pendingCap token limit with ht
  simp only
  split
  · exact hp
  · rename_i row hrow
    split_ifs with hretiring hholds hwithin
    · exact hp
    · exact hp
    · have hnew : row.holders.lookup token = none := by simpa using hholds
      set row' : Row := { row with holders := row.holders.insert token owner } with hrow'
      have hq : Quiet ((t.putRow res row').addTotal token row.pages)
          (((t.putRow res row').addTotal token row.pages).watch owner res token) :=
        quiet_watch _ _ _ _
      have hok : row'.Ok := hp.rows res row hrow
      refine hp.replace hrow hq.rows hok hq.nextRef ?_ (fun t' => ?_) hq.images
        (fun _ => rfl) hq.snapshot rfl (fun _ hbody => hbody) (hq.belowZero.trans hp.notBelow)
      · rw [hq.pages]
        show t.pages = t.pages + (row.charged - row.charged)
        rw [sub_self, add_zero]
      · rw [State.total, hq.totals]
        show ((t.putRow res row').addTotal token row.pages).total t' = _
        rw [total_addTotal, Row.share_insert row owner hnew, (hp.rows res row hrow).counted_eq]
        show t.total t' + _ = _
        omega
    · exact hp

/-! ## New rows -/

theorem eq_of_reservePages {s' : State} {n : ℤ} (h : s.reservePages n = some s') :
    s' = { s with pages := s.pages + n } := by
  unfold State.reservePages at h
  split_ifs at h with hn hover
  · rw [Option.some.injEq] at h
    rw [← h, hn, add_zero]
  · exact (Option.some.inj h).symm

theorem newLedger_ok (kind : Meta) (pages : ℕ) (holders : Table Token (Option Pid)) :
    ({ body := newLedger kind pages, pages, holders, retiring := false } : Row).Ok := by
  cases kind with
  | memory m => exact ⟨Int.natCast_nonneg _, Int.natCast_nonneg _, le_rfl⟩
  | cell => trivial
  | heap objs elems => trivial

theorem Books.reserve (h : Books e s) (pages : ℕ) (kind : Meta) (token : Token)
    (owner : Option Pid) (limit : Option ℕ) :
    Books e (s.reserve pages kind token owner limit).2 := by
  have hp := h.pendingCap token limit
  unfold State.reserve
  set t := s.pendingCap token limit with ht
  dsimp only
  split
  · exact hp
  · split
    · exact hp
    · split
      · exact hp
      · rename_i u hu
        have hu' := eq_of_reservePages hu
        subst hu'
        set row : Row :=
          { body := newLedger kind pages
            pages
            holders := (∅ : Table Token (Option Pid)).insert token owner
            retiring := false } with hrow
        have hok : row.Ok := newLedger_ok kind pages _
        have hshare : ∀ t', row.share t' = if t' = token then (pages : ℤ) else 0 := by
          intro t'
          rw [Row.share, hrow, Table.lookup_insert_eq]
          by_cases ht' : t' = token
          · simp only [ht', if_true, Option.isSome_some]
            exact hok.counted_eq
          · simp [ht']
        have hbytes : row.imageBytes = 0 := by cases kind <;> rfl
        set u : State := ({ t with pages := t.pages + row.charged, nextRef := t.nextRef + 1 }.putRow
          t.nextRef row).addTotal token pages with hu'
        have htotal : ∀ t', u.total t' = t.total t' + row.share t' := by
          intro t'
          rw [hshare]
          exact total_addTotal _ token t' pages
        have hbody : ∀ bytes, row.body = .image bytes → t.snapshot ≠ none := by
          intro bytes hb
          cases kind <;> simp [hrow, newLedger] at hb
        refine Books.quiet ?_ (quiet_watch _ _ _ _)
        cases kind with
        | memory m =>
          refine hp.add rfl hok (Nat.lt_succ_self _) rfl htotal (fun img => ?_) ?_ hbody ?_
          · rw [imageCount_countImage]
            rfl
          · rw [hbytes]
            show t.snapshot = _
            simp
          · refine belowZero_countImage hp.notBelow fun i _ => ?_
            have hpos : 0 ≤ t.imageCount i := by
              rw [hp.images]
              exact Table.total_nonneg fun _ v _ => v.overImage_nonneg i
            show 0 ≤ t.imageCount i + 1
            omega
        | cell | heap objs elems =>
          refine hp.add rfl hok (Nat.lt_succ_self _) rfl htotal (fun img => ?_) ?_ hbody hp.notBelow
          · show t.imageCount img = t.imageCount img + 0
            rw [add_zero]
          · rw [hbytes]
            show t.snapshot = _
            simp

theorem Books.imageReserve (h : Books e s) (bytes : ℕ) (owner : Pid) (id : Ref) :
    Books e (s.imageReserve bytes owner id).2 := by
  unfold State.imageReserve
  split
  · exact h
  · rename_i n hn
    split
    · exact h
    · refine Books.quiet ?_ (quiet_addHeld _ _ _ _)
      set row : Row :=
        { body := .image bytes
          pages := 0
          holders := (∅ : Table Token (Option Pid)).insert (.snapshot id) (some owner)
          retiring := false } with hrow
      have hok : row.Ok := rfl
      have hshare : ∀ t', row.share t' = 0 := by
        intro t'
        unfold Row.share
        split <;> rfl
      refine h.add rfl hok (Nat.lt_succ_self _) ?_ (fun t' => ?_) (fun img => ?_) ?_ ?_ h.notBelow
      · show s.pages = s.pages + 0
        rw [add_zero]
      · rw [hshare, add_zero]
        rfl
      · show s.imageCount img = s.imageCount img + 0
        rw [add_zero]
      · rw [hn]
        rfl
      · rw [hn]
        simp

/-! ## Heaps -/

/-- A row whose pages alone move, the node counter and every holder's total with them. -/
theorem Row.share_pages (row : Row) (body : Body) (pages : ℕ) (t : Token)
    (hkind : ∀ bytes, row.body ≠ .image bytes) (hkind' : ∀ bytes, body ≠ .image bytes) :
    ({ row with body := body, pages := pages } : Row).share t =
      row.share t + if (row.holders.lookup t).isSome then (pages : ℤ) - row.pages else 0 := by
  unfold Row.share Row.counted
  split
  · cases hb : row.body <;> cases hb' : body <;>
      first
        | exact absurd hb (hkind _)
        | exact absurd hb' (hkind' _)
        | (simp only; omega)
  · simp

theorem mem_holders_keys {t : Token} : t ∈ row.holders.keys ↔ (row.holders.lookup t).isSome := by
  rw [← AList.mem_keys, AList.lookup_isSome]

theorem chargePages_fst (s : State) (n extra : ℕ) :
    (s.chargePages n extra).1 = { s with pages := s.pages + n } := by
  unfold State.chargePages
  split
  · rename_i hzero
    have hsame : s.pages + ((n : ℕ) : ℤ) = s.pages := by omega
    rw [hsame]
  · rfl

theorem grow_snd (s : State) (res : Resource) (row : Row) (want delta extra : ℕ)
    (ceil : Option Error) : (s.grow res row want delta extra ceil).2 =
      row.holders.keys.foldl (fun s token => s.addTotal token delta)
        ({ s with pages := s.pages + delta }.putRow res { row with pages := want }) := by
  unfold State.grow
  rw [← chargePages_fst s delta extra]
  dsimp only
  split <;> rfl

theorem Books.doResize (h : Books e s) (he : ∀ token, 0 ≤ e token)
    (hheap : ∀ row, s.rows.lookup res = some row → ∃ objs elems, row.body = .heap objs elems)
    (want : ℕ) (ceiling : Option ℕ) (extra : ℕ) : Books e (s.doResize res want ceiling extra).2 := by
  unfold State.doResize
  split
  · exact h
  · rename_i row hrow
    obtain ⟨objs, elems, hbody⟩ := hheap row hrow
    have hkind : ∀ bytes, row.body ≠ .image bytes := by simp [hbody]
    set row' : Row := { row with pages := want } with hrow'
    have hok : row'.Ok := by
      unfold Row.Ok
      rw [hrow']
      simp [hbody]
    have hcharged : row'.charged - row.charged = (want : ℤ) - row.pages := by
      simp [Row.charged, hrow', hbody]
    have hover : ∀ img, row'.overImage img = row.overImage img := fun _ => rfl
    have hnodup := row.holders.keys_nodup
    split_ifs with hlt
    · set back := row.pages - want with hback
      set t := (s.putRow res row').releasePages back with ht
      have hle : ∀ token ∈ row.holders.keys, (back : ℤ) ≤ t.total token := by
        intro token htoken
        obtain ⟨owner, howner⟩ := Option.isSome_iff_exists.mp (mem_holders_keys.mp htoken)
        have hshare := h.share_le he hrow token
        rw [Row.share_of_mem howner, (h.rows res row hrow).counted_eq] at hshare
        show (back : ℤ) ≤ s.total token
        omega
      have hzero : t.belowZero = false := by
        show (s.belowZero || decide (s.pages - back < 0)) = false
        have hle := h.charged_le hrow
        have hc : row.charged = row.pages := by simp [Row.charged, hbody]
        rw [h.notBelow, Bool.false_or, decide_eq_false_iff_not]
        omega
      have htally := tallied_subTotals row.holders.keys back t
      refine h.replace hrow htally.rows hok htally.nextRef.ge ?_ (fun t' => ?_) htally.images hover
        htally.snapshot rfl (fun _ hb => hb) (belowZero_foldl_subTotal hnodup _ t hzero hle)
      · rw [hcharged]
        refine htally.pages.trans ?_
        show s.pages - back = _
        omega
      · refine (total_foldl_subTotal hnodup _ t' t hle).trans ?_
        rw [hrow', Row.share_pages row row.body want t' hkind hkind]
        show s.total t' - _ = _
        simp only [mem_holders_keys]
        split <;> omega
    · rw [grow_snd]
      set delta := want - row.pages with hdelta
      set t : State := { s with pages := s.pages + delta }.putRow res row' with ht
      have htally := tallied_addTotals row.holders.keys delta t
      refine h.replace hrow htally.rows hok htally.nextRef.ge ?_ (fun t' => ?_) htally.images hover
        htally.snapshot rfl (fun _ hb => hb) ((belowZero_foldl_addTotal _ _ t).trans h.notBelow)
      · rw [hcharged]
        refine htally.pages.trans ?_
        show s.pages + delta = _
        omega
      · refine (total_foldl_addTotal hnodup _ t' t).trans ?_
        rw [hrow', Row.share_pages row row.body want t' hkind hkind]
        show s.total t' + _ = _
        simp only [mem_holders_keys]
        split <;> omega

end ErlangWasm.Keeper
