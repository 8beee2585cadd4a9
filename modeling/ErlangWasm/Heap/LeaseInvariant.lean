import ErlangWasm.Heap.Lease

/-!
# What every undisturbed run of the lease protocol keeps

The argument the comments in `wasm_heap` make, with its loose ends named.  A run is *undisturbed*
when none of its steps is one of

* a mark written while the store is already held,
* an exchange that takes the store under a mark another contender has overwritten,
* a dead collector's mark acted on after another collector replaced it,
* a recount written over a cell that has moved and come back since it was read,

and the readers in the cell stay below `?EXCL`.  In such runs the cell bounds the readers inside,
and a cell at or above `?EXCL` names its collector.
-/

namespace ErlangWasm.Heap.Lease

open Reasoning Reasoning.Atomics

variable {P : Type}

/-! ## Field lemmas -/

namespace State

@[simp] theorem putLease_lease (s : State P) (c : ℕ) : (s.putLease c).lease = c := rfl
@[simp] theorem putLease_procs (s : State P) (c : ℕ) : (s.putLease c).procs = s.procs := rfl
@[simp] theorem putLease_readers (s : State P) (c : ℕ) : (s.putLease c).readers = s.readers := rfl
@[simp] theorem putLease_collector (s : State P) (c : ℕ) :
    (s.putLease c).collector = s.collector := rfl
@[simp] theorem putLease_owner (s : State P) (c : ℕ) : (s.putLease c).owner = s.owner := rfl
@[simp] theorem putLease_stamp (s : State P) (c : ℕ) : (s.putLease c).stamp = s.stamp + 1 := rfl

variable [DecidableEq P] (s : State P) (p : P) (q : Proc P)

@[simp] theorem setProc_lease : (s.setProc p q).lease = s.lease := rfl
@[simp] theorem setProc_request : (s.setProc p q).request = s.request := rfl
@[simp] theorem setProc_readers : (s.setProc p q).readers = s.readers := rfl
@[simp] theorem setProc_collector : (s.setProc p q).collector = s.collector := rfl
@[simp] theorem setProc_owner : (s.setProc p q).owner = s.owner := rfl
@[simp] theorem setProc_stamp : (s.setProc p q).stamp = s.stamp := rfl
@[simp] theorem setProc_self : (s.setProc p q).procs p = q := by
  simp [setProc]

variable {p} in
@[simp] theorem setProc_ne {r : P} (h : r ≠ p) : (s.setProc p q).procs r = s.procs r := by
  simp [setProc, h]

end State

/-! ## What a process counts for -/

/-- Between its add to the cell and taking it back, having found a collector there. -/
def Proc.transient (q : Proc P) : Bool :=
  match q.pc with
  | .readLeaseSub _ => true
  | _ => false

/-- How much of the cell a live process stands for. -/
def Proc.count (q : Proc P) : ℕ :=
  if q.alive = true then q.leases + if q.transient = true then 1 else 0 else 0

/-- The points at which the reader row is one ahead of the completed leases. -/
def Pc.rowAhead : Pc P → Bool
  | .readLeaseAdd _ | .readLeaseSub _ | .reclaimLookup _ => true
  | .reclaimAlive .. | .reclaimExchange .. | .forgetReader _ => true
  | _ => false

/-- What the `{reader, Pid}` row of a live process holds. -/
def Proc.row (q : Proc P) : ℕ := q.leases + if q.pc.rowAhead = true then 1 else 0

/-- The live processes' part of the cell, process by process. -/
def State.count (s : State P) (p : P) : ℕ := (s.procs p).count

theorem Proc.row_congr {q q' : Proc P} (hl : q'.leases = q.leases)
    (hr : q'.pc.rowAhead = q.pc.rowAhead) : q'.row = q.row := by
  unfold Proc.row
  rw [hl, hr]

theorem Proc.count_congr {q q' : Proc P} (ha : q'.alive = q.alive) (hl : q'.leases = q.leases)
    (ht : q'.transient = q.transient) : q'.count = q.count := by
  unfold Proc.count
  rw [ha, hl, ht]

theorem Proc.count_le_row (q : Proc P) : q.count ≤ q.row := by
  unfold Proc.count Proc.row Proc.transient Pc.rowAhead
  cases q.pc <;> simp <;> split <;> omega

/-! ## The condition on runs -/

/-- No step of the kinds above, and room for one more reader. -/
def Undisturbed (s : State P) : Act P → Prop
  | .tick p =>
      match (s.procs p).pc with
      | .readLeaseAdd _ => s.lease % excl + 1 < excl
      | .lastOutMark | .tryExclusiveMark => s.lease < excl
      | .lastOutExchange => s.lease = 0 → s.collector = some (p, 0)
      | .tryExclusiveExchange => s.lease = 1 → s.collector = some (p, 1)
      | .reclaimExchange _ pid held => s.lease = excl + held → s.collector = some (pid, held)
      | .settle seen _ seenAt => s.lease = seen → s.stamp = seenAt
      | _ => True
  | _ => True

instance [DecidableEq P] (s : State P) (a : Act P) : Decidable (Undisturbed s a) := by
  unfold Undisturbed
  split
  · split <;> infer_instance
  · infer_instance

/-! ## The invariant -/

/-- What is known of a live process at each point of the source. -/
def PcOk (s : State P) (p : P) : Prop :=
  match (s.procs p).pc with
  | .idle | .putRequest => True
  | .releaseRequest | .releaseSub => (s.procs p).exclusive = true
  | .unleaseSub | .tryExclusiveMark | .tryExclusiveExchange =>
      1 ≤ (s.procs p).leases ∧ (s.procs p).exclusive = false
  | .forgetReaderDelete _ => (s.procs p).leases = 0 ∧ (s.procs p).exclusive = false
  | .reclaimExchange _ pid _ => (s.procs pid).alive = false ∧ (s.procs p).exclusive = false
  | .deadReaderTake pid _ _ => (s.procs pid).alive = false ∧ (s.procs p).exclusive = false
  | .liveReaders seen seenAt =>
      (seen < excl ∧ seenAt ≤ s.stamp ∧ (seenAt = s.stamp → s.lease = seen)) ∧
        (s.procs p).exclusive = false
  | .settle seen live seenAt =>
      (seen < excl ∧ 0 ≤ live ∧ live < seen ∧ seenAt ≤ s.stamp ∧
        (seenAt = s.stamp → SumLe s.count live.toNat)) ∧ (s.procs p).exclusive = false
  | _ => (s.procs p).exclusive = false

/-- The points at which no more is known than that the process does not hold the store, and at
which nothing of its is in the cell that is not a lease. -/
def Pc.plain : Pc P → Bool
  | .readLeaseSub _ | .releaseRequest | .releaseSub | .unleaseSub | .tryExclusiveMark => false
  | .tryExclusiveExchange | .forgetReaderDelete _ | .reclaimExchange .. => false
  | .deadReaderTake .. | .liveReaders .. | .settle .. => false
  | _ => true

theorem PcOk.of_plain {s : State P} {p : P} (hpc : (s.procs p).pc.plain = true)
    (hex : (s.procs p).exclusive = false) : PcOk s p := by
  unfold PcOk
  cases h : (s.procs p).pc <;> simp_all [Pc.plain]

theorem Proc.transient_of_plain {q : Proc P} (hpc : q.pc.plain = true) : q.transient = false := by
  unfold Proc.transient
  cases h : q.pc <;> simp_all [Pc.plain]

/-- The store is held: `q`'s exchange left `?EXCL` and `q`'s share `h`, and everything else in
the cell is the adds `T` of readers about to step back out. -/
structure Held (s : State P) (q : P) (h : ℕ) : Prop where
  mark : s.collector = some (q, h)
  share : h ≤ 1
  owner : (s.procs q).alive = true → (s.procs q).exclusive = true ∧ (s.procs q).leases = h
  others : ∀ p, p ≠ q → (s.procs p).alive = true →
    (s.procs p).leases = 0 ∧ (s.procs p).exclusive = false
  cell : ∃ T : Finset P, s.lease = excl + (h + T.card) ∧ h + T.card < excl ∧
    (∀ p ∈ T, (s.procs p).transient = true) ∧
    ∀ p, (s.procs p).alive = true → (s.procs p).transient = true → p ∈ T

/-- The store is free: the cell is at least the leases live processes have in it. -/
structure Free (s : State P) : Prop where
  lt : s.lease < excl
  count : SumLe s.count s.lease
  exclusive : ∀ p, (s.procs p).alive = true → (s.procs p).exclusive = false

/-- What another process does leaves what is known of `r` standing: the dead stay dead, and a
stamp that has not moved vouches for the cell and for the counts. -/
theorem PcOk.frame {s s' : State P} {r : P} (h : PcOk s r) (hr : s'.procs r = s.procs r)
    (hdead : ∀ x, (s.procs x).alive = false → (s'.procs x).alive = false)
    (hstamp : s.stamp ≤ s'.stamp)
    (hcell : s'.stamp = s.stamp → s'.lease = s.lease ∧ ∀ x, s'.count x ≤ s.count x) :
    PcOk s' r := by
  unfold PcOk at h ⊢
  rw [hr]
  cases hpc : (s.procs r).pc with
  | reclaimExchange _ pid _ | deadReaderTake pid _ _ =>
    simp only [hpc] at h ⊢
    exact ⟨hdead pid h.1, h.2⟩
  | liveReaders seen seenAt =>
    simp only [hpc] at h ⊢
    obtain ⟨⟨hseen, hle, hread⟩, hex⟩ := h
    refine ⟨⟨hseen, hle.trans hstamp, fun heq => ?_⟩, hex⟩
    have hsame : s'.stamp = s.stamp := by omega
    rw [(hcell hsame).1]
    exact hread (heq.trans hsame)
  | settle seen live seenAt =>
    simp only [hpc] at h ⊢
    obtain ⟨⟨hseen, hpos, hlt, hle, hsum⟩, hex⟩ := h
    refine ⟨⟨hseen, hpos, hlt, hle.trans hstamp, fun heq => ?_⟩, hex⟩
    have hsame : s'.stamp = s.stamp := by omega
    exact (hsum (heq.trans hsame)).mono (hcell hsame).2 le_rfl
  | idle | putRequest => trivial
  | _ => simpa only [hpc] using h

variable [DecidableEq P]

structure Inv (s : State P) : Prop where
  pc : ∀ p, (s.procs p).alive = true → PcOk s p
  rows : ∀ p, (s.procs p).alive = true → (s.readers.lookup p).getD 0 = (s.procs p).row
  rowsNonneg : ∀ p v, s.readers.lookup p = some v → 0 ≤ v
  free : s.owner = none → Free s
  held : ∀ q h, s.owner = some (q, h) → Held s q h

theorem excl_pos : 0 < excl := by
  unfold excl
  exact Nat.two_pow_pos 32

theorem inv_init : Inv (State.init : State P) where
  pc := fun _ _ => trivial
  rows := fun _ _ => rfl
  rowsNonneg := fun _ _ h => by simp [State.init] at h
  free := fun _ => ⟨excl_pos, SumLe.zero 0, fun _ _ => rfl⟩
  held := fun _ _ h => by simp [State.init] at h

/-! ## Frame lemmas -/

/-- While the store is held the cell is at or above `?EXCL`. -/
theorem Inv.owner_none_of_lt {s : State P} (h : Inv s) (hlt : s.lease < excl) :
    s.owner = none := by
  cases ho : s.owner with
  | none => rfl
  | some o =>
    obtain ⟨T, hcell, -⟩ := (h.held o.1 o.2 ho).cell
    omega

/-- A process inside while the store is held is its holder. -/
theorem Inv.owner_none_of_leases {s : State P} (h : Inv s) {p : P}
    (hp : (s.procs p).alive = true) (hex : (s.procs p).exclusive = false)
    (hl : 1 ≤ (s.procs p).leases) : s.owner = none := by
  cases ho : s.owner with
  | none => rfl
  | some o =>
    have hheld := h.held o.1 o.2 ho
    by_cases hpo : p = o.1
    · have := (hheld.owner (hpo ▸ hp)).1
      rw [← hpo, hex] at this
      exact absurd this (by decide)
    · have := (hheld.others p hpo hp).1
      omega

/-- A step that leaves the lease cell alone and moves only `p`, between two points at neither of
which it is transiently in the cell. -/
theorem Inv.stay {s s' : State P} (h : Inv s) {p : P} {pc : Pc P}
    (hprocs : s'.procs = Function.update s.procs p { s.procs p with pc := pc })
    (hlease : s'.lease = s.lease) (howner : s'.owner = s.owner) (hstamp : s'.stamp = s.stamp)
    (hmark : ∀ q h, s.owner = some (q, h) → s'.collector = some (q, h))
    (hold : (s.procs p).transient = false)
    (hnew : ({ s.procs p with pc := pc } : Proc P).transient = false)
    (hpc : PcOk s' p)
    (hrow : (s'.readers.lookup p).getD 0 = ({ s.procs p with pc := pc } : Proc P).row)
    (hrows : ∀ r, r ≠ p → (s.procs r).alive = true → s'.readers.lookup r = s.readers.lookup r)
    (hnonneg : ∀ r v, s'.readers.lookup r = some v → 0 ≤ v) : Inv s' := by
  have hself : s'.procs p = { s.procs p with pc := pc } := by rw [hprocs, Function.update_self]
  have hne : ∀ r, r ≠ p → s'.procs r = s.procs r := fun r hr => by
    rw [hprocs, Function.update_of_ne hr]
  have halive : ∀ r, (s'.procs r).alive = (s.procs r).alive := by
    intro r
    by_cases hr : r = p
    · rw [hr, hself]
    · rw [hne r hr]
  have hleases : ∀ r, (s'.procs r).leases = (s.procs r).leases := by
    intro r
    by_cases hr : r = p
    · rw [hr, hself]
    · rw [hne r hr]
  have hexcl : ∀ r, (s'.procs r).exclusive = (s.procs r).exclusive := by
    intro r
    by_cases hr : r = p
    · rw [hr, hself]
    · rw [hne r hr]
  have htrans : ∀ r, (s'.procs r).transient = (s.procs r).transient := by
    intro r
    by_cases hr : r = p
    · rw [hr, hself, hnew, hold]
    · rw [hne r hr]
  have hcount : ∀ r, s'.count r = s.count r := fun r =>
    Proc.count_congr (halive r) (hleases r) (htrans r)
  refine ⟨?_, ?_, hnonneg, ?_, ?_⟩
  · intro r hr
    by_cases hrp : r = p
    · exact hrp ▸ hpc
    · refine (h.pc r (by rwa [halive] at hr)).frame (hne r hrp) (fun x hx => by rwa [halive])
        hstamp.ge fun _ => ⟨hlease, fun x => (hcount x).le⟩
  · intro r hr
    by_cases hrp : r = p
    · rw [hrp, hself]
      exact hrow
    · rw [halive] at hr
      rw [hrows r hrp hr, hne r hrp]
      exact h.rows r hr
  · intro ho
    have hfree := h.free (howner ▸ ho)
    refine ⟨by rw [hlease]; exact hfree.lt, ?_, fun r hr => ?_⟩
    · rw [hlease]
      exact hfree.count.mono (fun r => (hcount r).le) le_rfl
    · rw [hexcl]
      exact hfree.exclusive r (by rwa [halive] at hr)
  · intro q k ho
    rw [howner] at ho
    have hheld := h.held q k ho
    obtain ⟨T, hcell, hroom, hT, hall⟩ := hheld.cell
    refine ⟨hmark q k ho, hheld.share, fun hq => ?_, fun r hrq hr => ?_, T, by rw [hlease]; exact hcell, hroom,
      fun r hr => by rw [htrans]; exact hT r hr, fun r hr ht => ?_⟩
    · rw [hexcl, hleases]
      exact hheld.owner (by rwa [halive] at hq)
    · rw [hexcl, hleases]
      exact hheld.others r hrq (by rwa [halive] at hr)
    · exact hall r (by rwa [halive] at hr) (by rwa [htrans] at ht)

/-- `Inv.stay` for a step that changes nothing shared at all. -/
theorem Inv.goto {s : State P} (h : Inv s) {p : P} {pc : Pc P} (hp : (s.procs p).alive = true)
    (hold : (s.procs p).transient = false)
    (hnew : ({ s.procs p with pc := pc } : Proc P).transient = false)
    (hpc : PcOk (s.goto p pc) p)
    (hrow : pc.rowAhead = (s.procs p).pc.rowAhead) : Inv (s.goto p pc) := by
  refine h.stay rfl rfl rfl rfl (fun q k ho => (h.held q k ho).mark) hold hnew hpc ?_
    (fun _ _ _ => rfl) h.rowsNonneg
  have hr := h.rows p hp
  unfold Proc.row at hr ⊢
  rw [hrow]
  exact hr

theorem PcOk.of_goto_plain {t : State P} {p : P} {pc : Pc P} (hplain : pc.plain = true)
    (hex : (t.procs p).exclusive = false) : PcOk (t.goto p pc) p := by
  refine PcOk.of_plain ?_ ?_
  · rw [State.goto, State.setProc_self]
    exact hplain
  · rw [State.goto, State.setProc_self]
    exact hex

/-- `Inv.goto` to a point where nothing more has to be known. -/
theorem Inv.goto_plain {s : State P} (h : Inv s) {p : P} {pc : Pc P}
    (hp : (s.procs p).alive = true) (hold : (s.procs p).transient = false)
    (hex : (s.procs p).exclusive = false) (hplain : pc.plain = true)
    (hrow : pc.rowAhead = (s.procs p).pc.rowAhead) : Inv (s.goto p pc) :=
  h.goto hp hold (Proc.transient_of_plain hplain) (PcOk.of_goto_plain hplain hex) hrow

/-! ## Where the source branches -/

omit [DecidableEq P]

theorem afterForget_plain (n : ℕ) : (afterForget n : Pc P).plain = true := by
  unfold afterForget
  split <;> rfl

theorem afterForget_rowAhead (n : ℕ) : (afterForget n : Pc P).rowAhead = false := by
  unfold afterForget
  split <;> rfl

theorem nextReader_plain (pids : List P) (taken : ℤ) : (nextReader pids taken).plain = true := by
  unfold nextReader
  split
  · split <;> rfl
  · rfl

theorem nextReader_rowAhead (pids : List P) (taken : ℤ) :
    (nextReader pids taken).rowAhead = false := by
  unfold nextReader
  split
  · split <;> rfl
  · rfl

theorem afterStepBack_plain (tries : ℕ) : (afterStepBack tries : Pc P).plain = true := by
  unfold afterStepBack
  split <;> rfl

theorem afterStepBack_rowAhead (tries : ℕ) : (afterStepBack tries : Pc P).rowAhead = true := by
  unfold afterStepBack
  split <;> rfl

end ErlangWasm.Heap.Lease
