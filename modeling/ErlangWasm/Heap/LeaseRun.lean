import ErlangWasm.Heap.LeaseSteps
import Mathlib.Algebra.BigOperators.Ring.Finset

/-!
# Every step keeps the invariant

What is left after the writes of the cell: the reclaim, a death, the rows, the marks and the
request.  `Inv.step` puts the operations together.
-/

namespace ErlangWasm.Heap.Lease

open Reasoning Reasoning.Atomics

variable {P : Type} [DecidableEq P] {s : State P} {p : P}

/-- A dead collector's exclusivity taken back, under the mark it died with. -/
theorem Inv.reclaim (h : Inv s) {tries held : ℕ} {pid : P} (hp : (s.procs p).alive = true)
    (hpc : (s.procs p).pc = .reclaimExchange tries pid held)
    (hmark : s.lease = excl + held → s.collector = some (pid, held)) :
    Inv (s.reclaim p tries held) := by
  obtain ⟨hdead, hex⟩ : (s.procs pid).alive = false ∧ (s.procs p).exclusive = false := by
    simpa [PcOk, hpc] using h.pc p hp
  unfold State.reclaim
  split
  · rename_i hlease
    obtain ⟨q, k, ho⟩ : ∃ q k, s.owner = some (q, k) := by
      cases ho : s.owner with
      | none =>
        have hlt := (h.free ho).lt
        omega
      | some o => exact ⟨o.1, o.2, rfl⟩
    have hheld := h.held q k ho
    -- the mark names the collector that died, so the cell holds its share and nothing else
    obtain ⟨rfl, rfl⟩ : q = pid ∧ k = held := by
      simpa using hheld.mark.symm.trans (hmark hlease)
    obtain ⟨T, hcell, -, -, hall⟩ := hheld.cell
    have hT : T = ∅ := Finset.card_eq_zero.mp (by omega)
    have hnot : ∀ r, (s.procs r).alive = true → r ≠ q := by
      rintro r hr rfl
      rw [hdead] at hr
      simp at hr
    set t : State P := { s.putLease 0 with owner := none }.goto p (.readLeaseAdd (tries + 1))
      with ht
    have hself : t.procs p = { s.procs p with pc := .readLeaseAdd (tries + 1) } :=
      State.setProc_self _ _ _
    have hne : ∀ r, r ≠ p → t.procs r = s.procs r := fun r hr => State.setProc_ne _ _ hr
    have htrans : ∀ r, (s.procs r).alive = true → (s.procs r).transient = false := by
      intro r hr
      cases htr : (s.procs r).transient
      · rfl
      · have hin := hall r hr htr
        rw [hT] at hin
        simp at hin
    refine h.moved _ hp rfl rfl rfl ?_ (by simpa [PcOk, hself] using hex) (fun _ => ?_)
      (fun r k' hr => by simp [ht, State.goto] at hr)
    · simp [Proc.row, Pc.rowAhead, hpc]
    · refine ⟨excl_pos, (SumLe.zero 0).mono (fun r => ?_) le_rfl, fun r halive => ?_⟩
      · by_cases hr : r = p
        · rw [hr, State.count, hself]
          simp [Proc.count, Proc.transient, hp, (hheld.others p (hnot p hp) hp).1]
        · rw [State.count, hne r hr]
          cases halive : (s.procs r).alive
          · simp [Proc.count, halive]
          · simp [Proc.count, halive, htrans r halive, (hheld.others r (hnot r halive) halive).1]
      · by_cases hr : r = p
        · rw [hr, hself]
          exact hex
        · rw [hne r hr] at halive ⊢
          exact (hheld.others r (hnot r halive) halive).2
  · refine h.goto hp (by simp [Proc.transient, hpc]) rfl ?_ (by rw [hpc]; rfl)
    rw [PcOk, State.goto, State.setProc_self]
    exact hex

/-- A death: what the process had in the cell stays there, and no longer counts as a live one's. -/
theorem Inv.kill (h : Inv s) (hp : (s.procs p).alive = true) :
    Inv (s.setProc p { s.procs p with alive := false }) := by
  set t := s.setProc p { s.procs p with alive := false } with ht
  have hself : t.procs p = { s.procs p with alive := false } := State.setProc_self _ _ _
  have hne : ∀ r, r ≠ p → t.procs r = s.procs r := fun r hr => State.setProc_ne _ _ hr
  have hlive : ∀ r, (t.procs r).alive = true → r ≠ p ∧ (s.procs r).alive = true := by
    intro r hr
    have hrp : r ≠ p := by
      rintro rfl
      rw [hself] at hr
      simp at hr
    exact ⟨hrp, by rwa [hne r hrp] at hr⟩
  have hcount : ∀ r, t.count r ≤ s.count r := by
    intro r
    by_cases hr : r = p
    · rw [hr, State.count, hself]
      simp [Proc.count]
    · rw [State.count, State.count, hne r hr]
  refine ⟨fun r hr => ?_, fun r hr => ?_, h.rowsNonneg, fun ho => ?_, fun q k ho => ?_⟩
  · obtain ⟨hrp, halive⟩ := hlive r hr
    refine (h.pc r halive).frame (hne r hrp) (fun x hx => ?_) le_rfl fun _ => ⟨rfl, hcount⟩
    by_cases hxp : x = p
    · rw [hxp, hself]
    · rwa [hne x hxp]
  · obtain ⟨hrp, halive⟩ := hlive r hr
    rw [hne r hrp]
    exact h.rows r halive
  · have hfree := h.free ho
    refine ⟨hfree.lt, hfree.count.mono hcount le_rfl, fun r hr => ?_⟩
    obtain ⟨hrp, halive⟩ := hlive r hr
    rw [hne r hrp]
    exact hfree.exclusive r halive
  · have hheld := h.held q k ho
    obtain ⟨T, hcell, hroom, hT, hall⟩ := hheld.cell
    refine ⟨hheld.mark, hheld.share, fun hq => ?_, fun r hrq hr => ?_, T, hcell, hroom, fun r hr => ?_,
      fun r hr htr => ?_⟩
    · obtain ⟨hqp, halive⟩ := hlive q hq
      rw [hne q hqp]
      exact hheld.owner halive
    · obtain ⟨hrp, halive⟩ := hlive r hr
      rw [hne r hrp]
      exact hheld.others r hrq halive
    · by_cases hrp : r = p
      · rw [hrp, hself]
        exact hT p (hrp ▸ hr)
      · rw [hne r hrp]
        exact hT r hr
    · obtain ⟨hrp, halive⟩ := hlive r hr
      rw [hne r hrp] at htr
      exact hall r halive htr

/-! ## The reader rows -/

theorem Inv.rememberReader (h : Inv s) (hp : (s.procs p).alive = true)
    (hpc : (s.procs p).pc = .rememberReader) :
    Inv ((s.bumpReader p 1).goto p (.readLeaseAdd 0)) := by
  have hex : (s.procs p).exclusive = false := by simpa [PcOk, hpc] using h.pc p hp
  have hrow := h.rows p hp
  have hold : (s.procs p).row = (s.procs p).leases := by simp [Proc.row, Pc.rowAhead, hpc]
  rw [hold] at hrow
  refine h.stay rfl rfl rfl rfl (fun q k ho => (h.held q k ho).mark)
    (by simp [Proc.transient, hpc]) rfl ?_ ?_ (fun r hr _ => ?_) fun r v hr => ?_
  · rw [PcOk, State.goto, State.setProc_self]
    exact hex
  · show ((s.readers.insert p _).lookup p).getD 0 = _
    rw [AList.lookup_insert, Option.getD_some, hrow]
    simp [Proc.row, Pc.rowAhead]
  · exact AList.lookup_insert_ne hr
  · change (s.readers.insert p _).lookup r = some v at hr
    rw [Table.lookup_insert_eq] at hr
    split at hr
    · rw [Option.some.injEq, hrow] at hr
      omega
    · exact h.rowsNonneg r v hr

/-- `forget_reader/2` counting the row down, to wherever a row that counts no more than the leases
is right. -/
theorem Inv.forgetReader (h : Inv s) {n : ℕ} {pc : Pc P} (hp : (s.procs p).alive = true)
    (hpc : (s.procs p).pc = .forgetReader n)
    (hnew : ({ s.procs p with pc := pc } : Proc P).transient = false)
    (hrow : pc.rowAhead = false) (hok : PcOk ((s.bumpReader p (-1)).goto p pc) p) :
    Inv ((s.bumpReader p (-1)).goto p pc) := by
  have hcur := h.rows p hp
  have hold : (s.procs p).row = (s.procs p).leases + 1 := by simp [Proc.row, Pc.rowAhead, hpc]
  rw [hold] at hcur
  refine h.stay rfl rfl rfl rfl (fun q k ho => (h.held q k ho).mark)
    (by simp [Proc.transient, hpc]) hnew hok ?_ (fun r hr _ => ?_) fun r v hr => ?_
  · show ((s.readers.insert p _).lookup p).getD 0 = _
    rw [AList.lookup_insert, Option.getD_some, hcur]
    simp [Proc.row, hrow]
  · exact AList.lookup_insert_ne hr
  · change (s.readers.insert p _).lookup r = some v at hr
    rw [Table.lookup_insert_eq] at hr
    split at hr
    · rw [Option.some.injEq, hcur] at hr
      omega
    · exact h.rowsNonneg r v hr

/-- A row deleted: the caller's own when it counts nothing, or a dead reader's. -/
theorem Inv.deleteReader (h : Inv s) {pid : P} {pc : Pc P} (hp : (s.procs p).alive = true)
    (hold : (s.procs p).transient = false)
    (hnew : ({ s.procs p with pc := pc } : Proc P).transient = false)
    (hrow : pc.rowAhead = (s.procs p).pc.rowAhead)
    (hpid : (s.procs pid).alive = false ∨ pid = p ∧ (s.procs p).row = 0)
    (hok : PcOk ((s.deleteReader pid).goto p pc) p) :
    Inv ((s.deleteReader pid).goto p pc) := by
  have hsame : ({ s.procs p with pc := pc } : Proc P).row = (s.procs p).row :=
    Proc.row_congr rfl hrow
  refine h.stay rfl rfl rfl rfl (fun q k ho => (h.held q k ho).mark) hold hnew hok ?_
    (fun r hr halive => ?_) fun r v hr => ?_
  · show ((s.readers.erase pid).lookup p).getD 0 = _
    rw [hsame, Table.lookup_erase_eq]
    rcases hpid with hdead | ⟨rfl, hzero⟩
    · have hne : p ≠ pid := by
        rintro rfl
        rw [hdead] at hp
        simp at hp
      rw [if_neg hne]
      exact h.rows p hp
    · rw [if_pos rfl, hzero]
      rfl
  · show (s.readers.erase pid).lookup r = s.readers.lookup r
    have hne : r ≠ pid := by
      rcases hpid with hdead | ⟨rfl, -⟩
      · rintro rfl
        rw [hdead] at halive
        simp at halive
      · exact hr
    exact AList.lookup_erase_ne hne
  · change (s.readers.erase pid).lookup r = some v at hr
    rw [Table.lookup_erase_eq] at hr
    split at hr
    · simp at hr
    · exact h.rowsNonneg r v hr

/-! ## The collector row -/

/-- A mark is written only while nobody holds the store. -/
theorem Inv.markCollector (h : Inv s) {held : ℕ} {pc : Pc P} (hp : (s.procs p).alive = true)
    (hlt : s.lease < excl) (hold : (s.procs p).transient = false)
    (hnew : ({ s.procs p with pc := pc } : Proc P).transient = false)
    (hrow : pc.rowAhead = (s.procs p).pc.rowAhead)
    (hok : PcOk ((s.markCollector p held).goto p pc) p) :
    Inv ((s.markCollector p held).goto p pc) := by
  have ho := h.owner_none_of_lt hlt
  refine h.stay rfl rfl rfl rfl (fun q k hq => absurd (ho.symm.trans hq) (by simp)) hold hnew hok
    ?_ (fun _ _ _ => rfl) h.rowsNonneg
  have hsame : ({ s.procs p with pc := pc } : Proc P).row = (s.procs p).row :=
    Proc.row_congr rfl hrow
  rw [hsame]
  exact h.rows p hp

@[simp] theorem State.unmarkIfMine_procs (s : State P) (p : P) :
    (s.unmarkIfMine p).procs = s.procs := by
  unfold State.unmarkIfMine
  split
  · split <;> rfl
  · rfl

/-- A process that is not the holder deletes nobody's mark but its own. -/
theorem Inv.unmarkIfMine (h : Inv s) {pc : Pc P} (hp : (s.procs p).alive = true)
    (hex : (s.procs p).exclusive = false) (hold : (s.procs p).transient = false)
    (hnew : ({ s.procs p with pc := pc } : Proc P).transient = false)
    (hrow : pc.rowAhead = (s.procs p).pc.rowAhead)
    (hok : PcOk ((s.unmarkIfMine p).goto p pc) p) :
    Inv ((s.unmarkIfMine p).goto p pc) := by
  cases hmark : s.collector with
  | none =>
    have hsame : s.unmarkIfMine p = s := by rw [State.unmarkIfMine, hmark]
    rw [hsame] at hok ⊢
    exact h.goto hp hold hnew hok hrow
  | some m =>
    by_cases hm : m.1 = p
    · have hsame : s.unmarkIfMine p = { s with collector := none } := by
        rw [State.unmarkIfMine, hmark]
        exact if_pos hm
      rw [hsame] at hok ⊢
      refine h.stay rfl rfl rfl rfl (fun q k ho => ?_) hold hnew hok ?_ (fun _ _ _ => rfl)
        h.rowsNonneg
      · have hheld := h.held q k ho
        have hq : m = (q, k) := by simpa using hmark.symm.trans hheld.mark
        exact absurd (by rw [← hm, hq]) (hheld.holder_ne hp hex)
      · have hcongr : ({ s.procs p with pc := pc } : Proc P).row = (s.procs p).row :=
          Proc.row_congr rfl hrow
        rw [hcongr]
        exact h.rows p hp
    · have hsame : s.unmarkIfMine p = s := by
        rw [State.unmarkIfMine, hmark]
        exact if_neg hm
      rw [hsame] at hok ⊢
      exact h.goto hp hold hnew hok hrow

theorem Inv.putRequest (h : Inv s) {n : ℕ} {pc : Pc P} (hp : (s.procs p).alive = true)
    (hrow : (s.procs p).pc.rowAhead = pc.rowAhead) (hold : (s.procs p).transient = false)
    (hnew : ({ s.procs p with pc := pc } : Proc P).transient = false)
    (hok : PcOk ({ s with request := n }.goto p pc) p) :
    Inv ({ s with request := n }.goto p pc) := by
  refine h.stay rfl rfl rfl rfl (fun q k ho => (h.held q k ho).mark) hold hnew hok ?_
    (fun _ _ _ => rfl) h.rowsNonneg
  have hsame : ({ s.procs p with pc := pc } : Proc P).row = (s.procs p).row :=
    Proc.row_congr rfl hrow.symm
  rw [hsame]
  exact h.rows p hp

/-! ## The recount -/

theorem Inv.liveReaders_nonneg (h : Inv s) : 0 ≤ s.liveReaders := by
  have hsum := Table.sum_getD_le_total h.rowsNonneg ∅
  rwa [Finset.sum_empty] at hsum

/-- The rows a recount sums cover everything live processes have in the cell. -/
theorem Inv.count_le_liveReaders (h : Inv s) : SumLe s.count s.liveReaders.toNat := by
  intro F
  have hrow : ∀ r ∈ F, ((s.count r : ℕ) : ℤ) ≤ (s.readers.lookup r).getD 0 := by
    intro r _
    cases halive : (s.procs r).alive
    · have hzero : s.count r = 0 := by simp [State.count, Proc.count, halive]
      rw [hzero]
      cases hv : s.readers.lookup r with
      | none => simp
      | some v => simpa using h.rowsNonneg r v hv
    · rw [h.rows r halive]
      exact_mod_cast Proc.count_le_row _
  have hsum := Finset.sum_le_sum hrow
  have htotal := Table.sum_getD_le_total h.rowsNonneg F
  have hpos := h.liveReaders_nonneg
  have hcast : ((∑ r ∈ F, s.count r : ℕ) : ℤ) ≤ s.liveReaders := by
    rw [Nat.cast_sum]
    exact hsum.trans htotal
  omega

theorem Inv.liveReaders (h : Inv s) {seen seenAt : ℕ} (hp : (s.procs p).alive = true)
    (hpc : (s.procs p).pc = .liveReaders seen seenAt) (hlt : s.liveReaders < seen) :
    Inv (s.goto p (.settle seen s.liveReaders seenAt)) := by
  have hok := h.pc p hp
  simp only [PcOk, hpc] at hok
  obtain ⟨⟨hseen, hle, -⟩, hex⟩ := hok
  refine h.goto hp (by simp [Proc.transient, hpc]) rfl ?_ (by rw [hpc]; rfl)
  rw [PcOk, State.goto, State.setProc_self]
  refine ⟨⟨hseen, h.liveReaders_nonneg, hlt, hle, fun _ => ?_⟩, hex⟩
  refine h.count_le_liveReaders.mono (fun r => ?_) le_rfl
  by_cases hr : r = p
  · rw [hr, State.count, State.setProc_self]
    have htr : (s.procs p).transient = false := by simp [Proc.transient, hpc]
    have hsame : ({ s.procs p with pc := .settle seen s.liveReaders seenAt } : Proc P).count =
        (s.procs p).count := Proc.count_congr rfl rfl htr.symm
    exact hsame.le
  · rw [State.count, State.setProc_ne _ _ hr, State.count]

/-! ## The step lemma -/

theorem Inv.tick (h : Inv s) {s' : State P} {pc : Pc P} (hp : (s.procs p).alive = true)
    (hpc : (s.procs p).pc = pc) (hok : Undisturbed s (.tick p)) (hs : s.tick p pc = some s') :
    Inv s' := by
  have hknown := h.pc p hp
  simp only [PcOk, hpc] at hknown
  simp only [Undisturbed, hpc] at hok
  have hrow : pc.rowAhead = (s.procs p).pc.rowAhead := by rw [hpc]
  have htr : pc.plain = true → (s.procs p).transient = false := fun hplain =>
    Proc.transient_of_plain (hpc ▸ hplain)
  cases pc with
  | idle => simp [State.tick] at hs
  | rememberReader =>
    rw [State.tick, Option.some.injEq] at hs
    exact hs ▸ h.rememberReader hp hpc
  | readLeaseAdd tries => exact h.readLeaseAdd hp hpc hok hs
  | readLeaseSub tries =>
    rw [State.tick, Option.some.injEq] at hs
    exact hs ▸ h.readLeaseSub hp hpc
  | reclaimLookup tries =>
    rw [State.tick] at hs
    split at hs <;> rw [Option.some.injEq] at hs <;> rw [← hs]
    · exact h.goto_plain hp (htr rfl) hknown rfl hrow
    · exact h.goto_plain hp (htr rfl) hknown rfl hrow
  | reclaimAlive tries pid held =>
    rw [State.tick] at hs
    split at hs <;> rw [Option.some.injEq] at hs <;> rw [← hs]
    · exact h.goto_plain hp (htr rfl) hknown rfl hrow
    · rename_i hdead
      refine h.goto hp (htr rfl) rfl ?_ hrow
      have hne : pid ≠ p := by
        rintro rfl
        exact hdead hp
      rw [PcOk, State.goto, State.setProc_self]
      refine ⟨?_, hknown⟩
      rw [State.setProc_ne _ _ hne]
      simpa using hdead
  | reclaimExchange tries pid held =>
    rw [State.tick, Option.some.injEq] at hs
    exact hs ▸ h.reclaim hp hpc hok
  | unleaseSub =>
    rw [State.tick, Option.some.injEq] at hs
    exact hs ▸ h.unleaseSub hp hpc
  | forgetReader n =>
    rw [State.tick] at hs
    split at hs <;> rw [Option.some.injEq] at hs <;> rw [← hs]
    · rename_i hle
      -- the row counted one more than the leases, so there are none left
      have hleases : (s.procs p).leases = 0 := by
        have hcount := h.rows p hp
        rw [Proc.row, ← hrow, show Pc.rowAhead (.forgetReader n : Pc P) = true from rfl] at hcount
        simp only [if_true, Nat.cast_add, Nat.cast_one] at hcount
        omega
      refine h.forgetReader hp hpc rfl rfl ?_
      rw [PcOk, State.goto, State.setProc_self]
      exact ⟨hleases, hknown⟩
    · exact h.forgetReader hp hpc (Proc.transient_of_plain (afterForget_plain n))
        (afterForget_rowAhead n) (PcOk.of_goto_plain (afterForget_plain n) hknown)
  | forgetReaderDelete n =>
    rw [State.tick, Option.some.injEq] at hs
    have hzero : (s.procs p).row = 0 := by
      rw [Proc.row, ← hrow, hknown.1]
      rfl
    have hold : (s.procs p).transient = false := by simp [Proc.transient, hpc]
    exact hs ▸ h.deleteReader hp hold (Proc.transient_of_plain (afterForget_plain n))
      ((afterForget_rowAhead n).trans hrow) (Or.inr ⟨rfl, hzero⟩)
      (PcOk.of_goto_plain (afterForget_plain n) hknown.2)
  | lastOutRequest =>
    rw [State.tick] at hs
    split at hs <;> rw [Option.some.injEq] at hs <;> rw [← hs]
    · exact h.goto_plain hp (htr rfl) hknown rfl hrow
    · exact h.goto_plain hp (htr rfl) hknown rfl hrow
  | lastOutMark =>
    rw [State.tick, Option.some.injEq] at hs
    exact hs ▸ h.markCollector hp hok (htr rfl) rfl hrow (PcOk.of_goto_plain rfl hknown)
  | lastOutExchange =>
    rw [State.tick] at hs
    split at hs <;> rw [Option.some.injEq] at hs <;> rw [← hs]
    · rename_i hzero
      exact h.takeExclusive hp hrow.symm (htr rfl) hzero (Nat.zero_le _) (Nat.zero_le _) (hok hzero)
    · exact h.goto_plain hp (htr rfl) hknown rfl hrow
  | lastOutUnmark =>
    rw [State.tick, Option.some.injEq] at hs
    exact hs ▸ h.unmarkIfMine hp hknown (htr rfl) rfl hrow (PcOk.of_goto_plain rfl (by
      rw [State.unmarkIfMine_procs]
      exact hknown))
  | stillInside =>
    rw [State.tick] at hs
    split at hs <;> rw [Option.some.injEq] at hs <;> rw [← hs]
    · exact h.goto_plain hp (htr rfl) hknown rfl hrow
    · exact h.goto_plain hp (htr rfl) hknown rfl hrow
  | deadReaders =>
    rw [State.tick, Option.some.injEq] at hs
    exact hs ▸ h.goto_plain hp (htr rfl) hknown (nextReader_plain _ _)
      ((nextReader_rowAhead _ _).trans hrow)
  | deadReaderAlive pid pids taken =>
    rw [State.tick] at hs
    split at hs <;> rw [Option.some.injEq] at hs <;> rw [← hs]
    · exact h.goto_plain hp (htr rfl) hknown (nextReader_plain _ _)
        ((nextReader_rowAhead _ _).trans hrow)
    · rename_i hdead
      refine h.goto hp (htr rfl) rfl ?_ hrow
      have hne : pid ≠ p := by
        rintro rfl
        exact hdead hp
      rw [PcOk, State.goto, State.setProc_self]
      refine ⟨?_, hknown⟩
      rw [State.setProc_ne _ _ hne]
      simpa using hdead
  | deadReaderTake pid pids taken =>
    rw [State.tick, Option.some.injEq] at hs
    have hold : (s.procs p).transient = false := by simp [Proc.transient, hpc]
    exact hs ▸ h.deleteReader hp hold (Proc.transient_of_plain (nextReader_plain _ _))
      ((nextReader_rowAhead _ _).trans hrow) (Or.inl hknown.1)
      (PcOk.of_goto_plain (nextReader_plain _ _) hknown.2)
  | recount =>
    rw [State.tick] at hs
    split at hs <;> rw [Option.some.injEq] at hs <;> rw [← hs]
    · exact h.goto_plain hp (htr rfl) hknown rfl hrow
    · rename_i hlt
      refine h.goto hp (htr rfl) rfl ?_ hrow
      rw [PcOk, State.goto, State.setProc_self]
      exact ⟨⟨by omega, le_rfl, fun _ => rfl⟩, hknown⟩
  | liveReaders seen seenAt =>
    have hold : (s.procs p).transient = false := by simp [Proc.transient, hpc]
    rw [State.tick] at hs
    split at hs <;> rw [Option.some.injEq] at hs <;> rw [← hs]
    · exact h.goto_plain hp hold hknown.2 rfl hrow
    · exact h.liveReaders hp hpc (by omega)
  | settle seen live seenAt =>
    have hold : (s.procs p).transient = false := by simp [Proc.transient, hpc]
    rw [State.tick] at hs
    split at hs <;> rw [Option.some.injEq] at hs <;> rw [← hs]
    · rename_i hseen
      exact h.settle hp hpc hseen (hok hseen)
    · exact h.goto_plain hp hold hknown.2 rfl hrow
  | tryExclusiveMark =>
    rw [State.tick, Option.some.injEq] at hs
    have hold : (s.procs p).transient = false := by simp [Proc.transient, hpc]
    refine hs ▸ h.markCollector hp hok hold rfl hrow ?_
    rw [PcOk, State.goto, State.setProc_self]
    exact hknown
  | tryExclusiveExchange =>
    have hold : (s.procs p).transient = false := by simp [Proc.transient, hpc]
    rw [State.tick] at hs
    split at hs <;> rw [Option.some.injEq] at hs <;> rw [← hs]
    · rename_i hone
      exact h.takeExclusive hp hrow.symm hold hone hknown.1 le_rfl (hok hone)
    · exact h.goto_plain hp hold hknown.2 rfl hrow
  | tryExclusiveUnmark =>
    rw [State.tick, Option.some.injEq] at hs
    exact hs ▸ h.unmarkIfMine hp hknown (htr rfl) rfl hrow (PcOk.of_goto_plain rfl (by
      rw [State.unmarkIfMine_procs]
      exact hknown))
  | releaseRequest =>
    rw [State.tick, Option.some.injEq] at hs
    exact hs ▸ h.putRequest hp hrow.symm (by simp [Proc.transient, hpc]) rfl (by
      rw [PcOk, State.goto, State.setProc_self]
      exact hknown)
  | releaseSub =>
    rw [State.tick, Option.some.injEq] at hs
    exact hs ▸ h.giveBack hp hpc
  | releaseUnmark =>
    rw [State.tick, Option.some.injEq] at hs
    exact hs ▸ h.unmarkIfMine hp hknown (htr rfl) rfl hrow (PcOk.of_goto_plain rfl (by
      rw [State.unmarkIfMine_procs]
      exact hknown))
  | putRequest =>
    rw [State.tick, Option.some.injEq] at hs
    exact hs ▸ h.putRequest hp hrow.symm (htr rfl) rfl (by
      rw [PcOk, State.goto, State.setProc_self]
      trivial)

theorem Inv.call (h : Inv s) {op : Op} (hp : (s.procs p).alive = true)
    (hpc : (s.procs p).pc = .idle) (hop : op.Permitted (s.procs p)) :
    Inv (s.goto p op.entry) := by
  have htr : (s.procs p).transient = false := by simp [Proc.transient, hpc]
  refine h.goto hp htr ?_ ?_ ?_
  · cases op <;> rfl
  · rw [PcOk, State.goto, State.setProc_self]
    cases op <;> exact hop
  · rw [hpc]
    cases op <;> rfl

/-- One step that is not one of the disturbing kinds. -/
theorem Inv.step {a : Act P} {s' : State P} (h : Inv s) (hok : Undisturbed s a)
    (hs : step s a = some s') : Inv s' := by
  unfold Lease.step at hs
  cases a with
  | call p op =>
    simp only at hs
    split at hs
    · rename_i hcall
      obtain ⟨hp, hpc, hop⟩ := hcall
      rw [Option.some.injEq] at hs
      exact hs ▸ h.call hp hpc hop
    · simp at hs
  | tick p =>
    simp only at hs
    split at hs
    · rename_i hp
      exact h.tick hp rfl hok hs
    · simp at hs
  | kill p =>
    simp only at hs
    split at hs
    · rename_i hp
      rw [Option.some.injEq] at hs
      exact hs ▸ h.kill hp
    · simp at hs

theorem inv_of_undisturbed (h : Run.ReachableIf step Undisturbed State.init s) : Inv s :=
  h.invariant Inv inv_init fun _ _ _ hinv hok hs => hinv.step hok hs

end ErlangWasm.Heap.Lease

/-!
## Mutual exclusion and the collector's mark

What the lease is for: while a live process holds the store exclusively nobody else is inside, and
a store found held names who holds it, so that one whose collector was killed can be taken back.
Both hold of undisturbed runs and both fail without that condition.
-/

namespace ErlangWasm.Heap.Lease

open Reasoning

variable {P : Type} [DecidableEq P] {s : State P}

/-- While a live process holds the store exclusively, no other live process is inside or holds it
too. -/
def State.MutualExclusion (s : State P) : Prop :=
  ∀ p q, p ≠ q → (s.procs p).alive = true → (s.procs p).exclusive = true →
    (s.procs q).alive = true → (s.procs q).leases = 0 ∧ (s.procs q).exclusive = false

theorem Inv.holder (h : Inv s) {p : P} (hp : (s.procs p).alive = true)
    (hex : (s.procs p).exclusive = true) : ∃ k, s.owner = some (p, k) := by
  cases ho : s.owner with
  | none =>
    have hnot := (h.free ho).exclusive p hp
    rw [hex] at hnot
    simp at hnot
  | some o =>
    by_cases hpo : p = o.1
    · exact ⟨o.2, by rw [hpo]⟩
    · have hnot := ((h.held o.1 o.2 ho).others p hpo hp).2
      rw [hex] at hnot
      simp at hnot

theorem mutualExclusion_of_undisturbed
    (h : Run.ReachableIf step Undisturbed State.init s) : s.MutualExclusion := by
  intro p q hpq hp hex hq
  have hinv := inv_of_undisturbed h
  obtain ⟨k, ho⟩ := hinv.holder hp hex
  exact (hinv.held p k ho).others q hpq.symm hq

/-- A lone reader upgrading to collect. -/
def upgrade : List (Act (Fin 2)) :=
  [.call 0 .lease, .tick 0, .tick 0, .call 0 .tryExclusive, .tick 0, .tick 0]

theorem mutualExclusion_upgrade : ∃ s : State (Fin 2),
    Run.execIf step Undisturbed upgrade State.init = some s ∧
      (s.procs 0).exclusive = true ∧ s.MutualExclusion := by
  have hrun : (Run.execIf step Undisturbed upgrade State.init).any
      (fun s => (s.procs 0).exclusive) = true := by decide +kernel
  obtain ⟨s, hs, hex⟩ := (Option.any_eq_true _ _).mp hrun
  exact ⟨s, hs, hex, mutualExclusion_of_undisturbed (Run.ReachableIf.init.of_execIf hs)⟩

/-- Process 2 recounts over a cell that went from 2 to 1 and back to 2: process 1 left and took its
row away before the rows were summed, and process 3 came in after. -/
def recountOverReader : List (Act (Fin 4)) :=
  [.call 0 .lease, .tick 0, .tick 0, .kill 0,
    .call 1 .lease, .tick 1, .tick 1, .call 2 .lease, .tick 2, .tick 2,
    .call 3 .requestCollect, .tick 3,
    -- 2 leaves, finds the dead reader's row and reads the cell
    .call 2 .unlease, .tick 2, .tick 2, .tick 2, .tick 2, .tick 2, .tick 2, .tick 2, .tick 2,
    .tick 2,
    -- 1 leaves, and takes its row away before the rows are summed
    .call 1 .unlease, .tick 1, .tick 1, .tick 1, .tick 2,
    -- 3 comes in and finds nothing in its way
    .call 3 .lease, .tick 3, .tick 3,
    -- 2 writes the sum, zero, and takes the store
    .tick 2, .tick 2, .tick 2, .tick 2]

theorem not_mutualExclusion :
    ¬ ∀ s : State (Fin 4), Run.Reachable step State.init s → s.MutualExclusion := by
  intro hall
  have hrun : (Run.exec step recountOverReader State.init).any (fun s =>
      (s.procs 2).alive && (s.procs 2).exclusive && (s.procs 3).alive &&
        (s.procs 3).leases == 1) = true := by decide +kernel
  obtain ⟨s, hs, hboth⟩ := (Option.any_eq_true _ _).mp hrun
  simp only [Bool.and_eq_true, beq_iff_eq] at hboth
  obtain ⟨⟨⟨hcollector, hexclusive⟩, hreader⟩, hleases⟩ := hboth
  have hout := hall s (Run.Reachable.of_exec .init hs) 2 3 (by decide) hcollector hexclusive hreader
  rw [hleases] at hout
  exact absurd hout.1 (by decide)

/-! ## The mark -/

/-- The cell at or above `?EXCL` names the process whose exchange put it there and the share it
left, and under that mark a dead collector's store is taken back by one `reclaim/2`. -/
def State.Marked (s : State P) : Prop :=
  excl ≤ s.lease → ∃ pid held, s.collector = some (pid, held) ∧ s.owner = some (pid, held) ∧
    held ≤ 1 ∧ ((s.procs pid).alive = false → (∀ p, (s.procs p).transient = false) →
      ∀ r tries, (s.procs r).alive = true → (s.procs r).pc = .reclaimLookup tries →
        ∃ s', Run.exec step [.tick r, .tick r, .tick r] s = some s' ∧ s'.lease = 0)

/-- `reclaim/2` from its first step to its last, when what it looks up stays true. -/
theorem exec_reclaim {pid r : P} {held tries : ℕ} (hmark : s.collector = some (pid, held))
    (hdead : (s.procs pid).alive = false) (hlease : s.lease = excl + held)
    (hr : (s.procs r).alive = true) (hpc : (s.procs r).pc = .reclaimLookup tries) :
    ∃ s', Run.exec step [.tick r, .tick r, .tick r] s = some s' ∧ s'.lease = 0 := by
  have hne : pid ≠ r := by
    rintro rfl
    rw [hr] at hdead
    simp at hdead
  have hlookup : step s (.tick r) = some (s.goto r (.reclaimAlive tries pid held)) := by
    simp [step, hr, hpc, State.tick, hmark]
  set t := s.goto r (.reclaimAlive tries pid held) with ht
  have halive : step t (.tick r) = some (t.goto r (.reclaimExchange tries pid held)) := by
    simp [step, State.tick, ht, State.goto, hr, hdead, hne]
  set u := t.goto r (.reclaimExchange tries pid held) with hu
  have hexchange : step u (.tick r) = some (u.reclaim r tries held) := by
    simp [step, State.tick, hu, ht, State.goto, hr]
  refine ⟨u.reclaim r tries held, ?_, ?_⟩
  · simp [Run.exec, hlookup, halive, hexchange]
  · have hlease' : u.lease = excl + held := hlease
    rw [State.reclaim, if_pos hlease']
    rfl

/-- Process 1, the last one out, is past the request when process 0 comes in and upgrades; its
mark goes over process 0's, and its exchange failing takes the row away. -/
def loserUnmarks : List (Act (Fin 2)) :=
  [.call 1 .lease, .tick 1, .tick 1, .call 0 .requestCollect, .tick 0,
    .call 1 .unlease, .tick 1, .tick 1, .tick 1, .tick 1,
    .call 0 .lease, .tick 0, .tick 0, .call 0 .tryExclusive, .tick 0, .tick 0,
    .tick 1, .tick 1, .tick 1]

end ErlangWasm.Heap.Lease
