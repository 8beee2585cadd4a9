import ErlangWasm.Keeper.Server

/-!
# The keeper's books

Four summaries are kept beside the registry rows: the node page counter, each holder's total, the
memories over each image, and the snapshot bytes.  `Books` says that they agree with the rows, the
totals up to an `excess` a holder.  Each operation that changes a row moves the summaries by what
the row changed by, so each lemma here is about one row replaced, added or removed.
-/

namespace ErlangWasm.Keeper

open Reasoning

/-! ## What a row contributes -/

/-- What `token` counts for this row. -/
def Row.share (row : Row) (token : Token) : ℤ :=
  if (row.holders.lookup token).isSome then row.counted else 0

def Row.overImage (row : Row) (img : Resource) : ℤ :=
  match row.body with
  | .memory m _ => if m.image = some img then 1 else 0
  | _ => 0

def Row.imageBytes (row : Row) : ℤ :=
  match row.body with
  | .image bytes => bytes
  | _ => 0

namespace State

def charged (s : State) : ℤ := s.rows.total fun _ row => row.charged

def logical (s : State) (token : Token) : ℤ := s.rows.total fun _ row => row.share token

def overImage (s : State) (img : Resource) : ℤ := s.rows.total fun _ row => row.overImage img

def imageBytes (s : State) : ℤ := s.rows.total fun _ row => row.imageBytes

end State

/-- A transaction in flight is part of what the memory owes, and a growth is what the memory's
pages have moved by. -/
def Account.Ok (acc : Account) (pages : ℕ) : Prop :=
  0 ≤ acc.table ∧
    match acc.txn with
    | none => 0 ≤ acc.growth ∧ 0 ≤ acc.arena
    | some (.grow _ _ before after reserved _) =>
        reserved ≤ acc.growth ∧ 0 ≤ acc.arena ∧ pages = after ∧ before ≤ after
    | some (.arena _ _ _ _ reserved) => 0 ≤ acc.growth ∧ reserved ≤ acc.arena

def Row.Ok (row : Row) : Prop :=
  match row.body with
  | .memory _ acc => acc.Ok row.pages
  | .image _ => row.pages = 0
  | .cell | .heap .. => True

theorem Row.counted_nonneg (row : Row) : 0 ≤ row.counted := by
  unfold Row.counted
  split <;> omega

theorem Row.share_nonneg (row : Row) (token : Token) : 0 ≤ row.share token := by
  unfold Row.share
  split
  · exact row.counted_nonneg
  · exact le_rfl

theorem Row.overImage_nonneg (row : Row) (img : Resource) : 0 ≤ row.overImage img := by
  unfold Row.overImage
  split
  · split <;> omega
  · exact le_rfl

theorem Row.Ok.counted_eq {row : Row} (h : row.Ok) : row.counted = row.pages := by
  unfold Row.Ok at h
  unfold Row.counted
  cases hbody : row.body <;> simp_all

theorem Row.Ok.charged_nonneg {row : Row} (h : row.Ok) : 0 ≤ row.charged := by
  unfold Row.Ok at h
  unfold Row.charged
  cases hbody : row.body with
  | memory m acc =>
    rw [hbody] at h
    obtain ⟨htable, hphys⟩ := h
    cases htxn : acc.txn with
    | none =>
      rw [htxn] at hphys
      simp only at hphys ⊢
      omega
    | some txn =>
      rw [htxn] at hphys
      cases txn <;> simp only at hphys ⊢ <;> omega
  | image bytes => exact le_rfl
  | cell | heap objs elems => exact Int.natCast_nonneg _

/-! ## The invariant -/

structure Books (excess : Token → ℤ) (s : State) : Prop where
  rows : ∀ res row, s.rows.lookup res = some row → row.Ok
  fresh : ∀ res row, s.rows.lookup res = some row → res < s.nextRef
  pages : s.pages = s.charged
  totals : ∀ token, s.total token = s.logical token + excess token
  images : ∀ img, s.imageCount img = s.overImage img
  snapshot : ∀ n, s.snapshot = some n → n = s.imageBytes
  seeded : ∀ res row bytes, s.rows.lookup res = some row → row.body = .image bytes →
    s.snapshot ≠ none
  notBelow : s.belowZero = false

theorem books_init : Books (fun _ => 0) State.init where
  rows := fun _ _ h => by simp [State.init] at h
  fresh := fun _ _ h => by simp [State.init] at h
  pages := rfl
  totals := fun _ => rfl
  images := fun _ => rfl
  snapshot := fun _ h => by simp [State.init] at h
  seeded := fun _ _ _ h => by simp [State.init] at h
  notBelow := rfl

/-- What moves no account: the reverse index, the monitors, the writers and what is published. -/
structure Quiet (s s' : State) : Prop where
  rows : s'.rows = s.rows
  pages : s'.pages = s.pages
  totals : s'.totals = s.totals
  images : s'.images = s.images
  snapshot : s'.snapshot = s.snapshot
  belowZero : s'.belowZero = s.belowZero
  caps : s'.caps = s.caps
  capRows : s'.capRows = s.capRows
  queued : s'.queued = s.queued
  sent : s'.sent = s.sent
  nextRef : s.nextRef ≤ s'.nextRef

theorem Quiet.refl (s : State) : Quiet s s :=
  ⟨rfl, rfl, rfl, rfl, rfl, rfl, rfl, rfl, rfl, rfl, le_rfl⟩

theorem Quiet.trans {s s' s'' : State} (h : Quiet s s') (h' : Quiet s' s'') : Quiet s s'' :=
  ⟨h'.rows.trans h.rows, h'.pages.trans h.pages, h'.totals.trans h.totals,
    h'.images.trans h.images, h'.snapshot.trans h.snapshot, h'.belowZero.trans h.belowZero,
    h'.caps.trans h.caps, h'.capRows.trans h.capRows, h'.queued.trans h.queued,
    h'.sent.trans h.sent, h.nextRef.trans h'.nextRef⟩

section Quiet

variable (s : State) (pid : Pid) (res : Resource) (token : Token)

theorem quiet_addHeld : Quiet s (s.addHeld pid res token) := by
  refine ⟨rfl, rfl, rfl, rfl, rfl, rfl, rfl, rfl, rfl, rfl, ?_⟩
  show s.nextRef ≤ if (s.mons.lookup pid).isSome then s.nextRef else s.nextRef + 1
  split
  · exact le_rfl
  · exact Nat.le_succ _

theorem quiet_watch (owner : Option Pid) : Quiet s (s.watch owner res token) := by
  cases owner with
  | none => exact .refl s
  | some pid => exact quiet_addHeld s pid res token

theorem quiet_unwatch : Quiet s (s.unwatch pid) :=
  ⟨rfl, rfl, rfl, rfl, rfl, rfl, rfl, rfl, rfl, rfl, le_rfl⟩

theorem quiet_unhold (owner : Option Pid) : Quiet s (s.unhold owner res token) := by
  unfold State.unhold
  split
  · exact .refl s
  · split
    · exact .refl s
    · split
      · exact quiet_unwatch s _
      · exact ⟨rfl, rfl, rfl, rfl, rfl, rfl, rfl, rfl, rfl, rfl, le_rfl⟩

theorem quiet_watchWriter : Quiet s (s.watchWriter pid res) := by
  unfold State.watchWriter
  split
  · exact ⟨rfl, rfl, rfl, rfl, rfl, rfl, rfl, rfl, rfl, rfl, le_rfl⟩
  · exact ⟨rfl, rfl, rfl, rfl, rfl, rfl, rfl, rfl, rfl, rfl, Nat.le_succ _⟩

theorem quiet_unwatchWriter : Quiet s (s.unwatchWriter pid res) := by
  unfold State.unwatchWriter
  split
  · exact .refl s
  · split
    · exact ⟨rfl, rfl, rfl, rfl, rfl, rfl, rfl, rfl, rfl, rfl, le_rfl⟩
    · exact ⟨rfl, rfl, rfl, rfl, rfl, rfl, rfl, rfl, rfl, rfl, le_rfl⟩

theorem quiet_publishChunks (ref : Option Ref) (tuple : List Ref) (target : ℕ) :
    Quiet s (s.publishChunks ref tuple target) :=
  ⟨rfl, rfl, rfl, rfl, rfl, rfl, rfl, rfl, rfl, rfl, le_rfl⟩

theorem quiet_publishSize (ref : Option Ref) (pages : ℕ) : Quiet s (s.publishSize ref pages) :=
  ⟨rfl, rfl, rfl, rfl, rfl, rfl, rfl, rfl, rfl, rfl, le_rfl⟩

end Quiet

variable {e e' : Token → ℤ} {s s' : State} {res : Resource} {row row' : Row}

/-- What moves no row and no summary. -/
theorem Books.same (h : Books e s) (hrows : s'.rows = s.rows) (hpages : s'.pages = s.pages)
    (htotals : s'.totals = s.totals) (himages : s'.images = s.images)
    (hsnapshot : s'.snapshot = s.snapshot) (hbelow : s'.belowZero = s.belowZero)
    (hnext : s.nextRef ≤ s'.nextRef) : Books e s' where
  rows := fun res row hrow => h.rows res row (hrows ▸ hrow)
  fresh := fun res row hrow => (h.fresh res row (hrows ▸ hrow)).trans_le hnext
  pages := by
    rw [hpages, State.charged, hrows]
    exact h.pages
  totals := fun token => by
    rw [State.total, htotals, State.logical, hrows]
    exact h.totals token
  images := fun img => by
    rw [State.imageCount, himages, State.overImage, hrows]
    exact h.images img
  snapshot := fun n hn => by
    rw [State.imageBytes, hrows]
    exact h.snapshot n (hsnapshot ▸ hn)
  seeded := fun res row bytes hrow hbody => by
    rw [hsnapshot]
    exact h.seeded res row bytes (hrows ▸ hrow) hbody
  notBelow := hbelow.trans h.notBelow

theorem Books.quiet (h : Books e s) (hq : Quiet s s') : Books e s' :=
  h.same hq.rows hq.pages hq.totals hq.images hq.snapshot hq.belowZero hq.nextRef

/-- One row replaced by another for the same resource, of the same kind. -/
theorem Books.replace (h : Books e s) (hrow : s.rows.lookup res = some row)
    (hrows : s'.rows = s.rows.insert res row') (hok : row'.Ok) (hnext : s.nextRef ≤ s'.nextRef)
    (hpages : s'.pages = s.pages + (row'.charged - row.charged))
    (htotals : ∀ token, s'.total token =
      s.total token + (row'.share token - row.share token) + (e' token - e token))
    (himages : s'.images = s.images) (himage : ∀ img, row'.overImage img = row.overImage img)
    (hsnapshot : s'.snapshot = s.snapshot) (hbytes : row'.imageBytes = row.imageBytes)
    (hkind : ∀ bytes, row'.body = .image bytes → row.body = .image bytes)
    (hbelow : s'.belowZero = false) : Books e' s' where
  rows := fun r w hw => by
    rw [hrows, Table.lookup_insert_eq] at hw
    split at hw
    · exact (Option.some.inj hw) ▸ hok
    · exact h.rows r w hw
  fresh := fun r w hw => by
    rw [hrows, Table.lookup_insert_eq] at hw
    split at hw
    · rename_i hr
      exact hr ▸ (h.fresh res row hrow).trans_le hnext
    · exact (h.fresh r w hw).trans_le hnext
  pages := by
    rw [hpages, h.pages, State.charged, State.charged, hrows, Table.total_replace _ _ hrow]
  totals := fun token => by
    have hlogical : s'.logical token =
        s.logical token + (row'.share token - row.share token) := by
      rw [State.logical, State.logical, hrows, Table.total_replace _ _ hrow]
    rw [htotals, h.totals, hlogical]
    omega
  images := fun img => by
    have hover : s'.overImage img = s.overImage img := by
      rw [State.overImage, State.overImage, hrows, Table.total_replace _ _ hrow, himage, sub_self,
        add_zero]
    rw [hover, State.imageCount, himages]
    exact h.images img
  snapshot := fun n hn => by
    have hsame : s'.imageBytes = s.imageBytes := by
      rw [State.imageBytes, State.imageBytes, hrows, Table.total_replace _ _ hrow, hbytes,
        sub_self, add_zero]
    rw [hsame]
    exact h.snapshot n (hsnapshot ▸ hn)
  seeded := fun r w bytes hw hbody => by
    rw [hsnapshot]
    rw [hrows, Table.lookup_insert_eq] at hw
    split at hw
    · have hrow' := Option.some.inj hw
      exact h.seeded res row bytes hrow (hkind bytes (hrow' ▸ hbody))
    · exact h.seeded r w bytes hw hbody
  notBelow := hbelow

/-- One row removed. -/
theorem Books.remove (h : Books e s) (hrow : s.rows.lookup res = some row)
    (hrows : s'.rows = s.rows.erase res) (hnext : s.nextRef ≤ s'.nextRef)
    (hpages : s'.pages = s.pages - row.charged)
    (htotals : ∀ token, s'.total token = s.total token - row.share token)
    (himages : ∀ img, s'.imageCount img = s.imageCount img - row.overImage img)
    (hsnapshot : s'.snapshot = s.snapshot.map fun n => n - row.imageBytes)
    (hbelow : s'.belowZero = false) : Books e s' where
  rows := fun r w hw => by
    rw [hrows, Table.lookup_erase_eq] at hw
    split at hw
    · simp at hw
    · exact h.rows r w hw
  fresh := fun r w hw => by
    rw [hrows, Table.lookup_erase_eq] at hw
    split at hw
    · simp at hw
    · exact (h.fresh r w hw).trans_le hnext
  pages := by
    rw [hpages, h.pages, State.charged, State.charged, hrows, Table.total_erase _ hrow]
  totals := fun token => by
    have hlogical : s'.logical token = s.logical token - row.share token := by
      rw [State.logical, State.logical, hrows, Table.total_erase _ hrow]
    rw [htotals, h.totals, hlogical]
    omega
  images := fun img => by
    rw [himages, h.images, State.overImage, State.overImage, hrows, Table.total_erase _ hrow]
  snapshot := fun n hn => by
    rw [hsnapshot] at hn
    obtain ⟨k, hk, rfl⟩ := Option.map_eq_some_iff.mp hn
    rw [h.snapshot k hk, State.imageBytes, State.imageBytes, hrows, Table.total_erase _ hrow]
  seeded := fun r w bytes hw hbody => by
    rw [hrows, Table.lookup_erase_eq] at hw
    split at hw
    · simp at hw
    · rw [hsnapshot]
      have hsome := h.seeded r w bytes hw hbody
      simpa using hsome
  notBelow := hbelow

/-- One row added under a reference nothing is registered under yet. -/
theorem Books.add (h : Books e s) (hrows : s'.rows = s.rows.insert s.nextRef row') (hok : row'.Ok)
    (hnext : s.nextRef < s'.nextRef) (hpages : s'.pages = s.pages + row'.charged)
    (htotals : ∀ token, s'.total token = s.total token + row'.share token)
    (himages : ∀ img, s'.imageCount img = s.imageCount img + row'.overImage img)
    (hsnapshot : s'.snapshot = s.snapshot.map fun n => n + row'.imageBytes)
    (hseeded : ∀ bytes, row'.body = .image bytes → s.snapshot ≠ none)
    (hbelow : s'.belowZero = false) : Books e s' := by
  have hnew : s.rows.lookup s.nextRef = none := by
    cases hw : s.rows.lookup s.nextRef with
    | none => rfl
    | some w =>
      exact absurd (h.fresh s.nextRef w hw) (lt_irrefl _)
  refine ⟨fun r w hw => ?_, fun r w hw => ?_, ?_, fun token => ?_, fun img => ?_, fun n hn => ?_,
    fun r w bytes hw hbody => ?_, hbelow⟩
  · rw [hrows, Table.lookup_insert_eq] at hw
    split at hw
    · exact (Option.some.inj hw) ▸ hok
    · exact h.rows r w hw
  · rw [hrows, Table.lookup_insert_eq] at hw
    split at hw
    · rename_i hr
      exact hr ▸ hnext
    · exact (h.fresh r w hw).trans hnext
  · rw [hpages, h.pages, State.charged, State.charged, hrows, Table.total_insert_new _ _ hnew,
      add_comm]
  · have hlogical : s'.logical token = row'.share token + s.logical token := by
      rw [State.logical, State.logical, hrows, Table.total_insert_new _ _ hnew]
    rw [htotals, h.totals, hlogical]
    omega
  · rw [himages, h.images, State.overImage, State.overImage, hrows,
      Table.total_insert_new _ _ hnew, add_comm]
  · rw [hsnapshot] at hn
    obtain ⟨k, hk, rfl⟩ := Option.map_eq_some_iff.mp hn
    rw [h.snapshot k hk, State.imageBytes, State.imageBytes, hrows,
      Table.total_insert_new _ _ hnew, add_comm]
  · rw [hsnapshot]
    rw [hrows, Table.lookup_insert_eq] at hw
    split at hw
    · have hrow' := Option.some.inj hw
      simpa using hseeded bytes (hrow' ▸ hbody)
    · simpa using h.seeded r w bytes hw hbody

end ErlangWasm.Keeper
