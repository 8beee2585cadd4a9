import ErlangWasm.Heap.LeaseInvariant

/-!
# Each step keeps the invariant

One lemma for each operation that writes the lease cell, one for the steps that do not, and the
step lemma they add up to.
-/

namespace ErlangWasm.Heap.Lease

open Reasoning Reasoning.Atomics

variable {P : Type} [DecidableEq P] {s : State P} {p : P}

/-- A write of the lease cell by `p`: what the others know needs no attention, since a stamp read
before is now old. -/
theorem Inv.moved {s' : State P} (h : Inv s) (q : Proc P) (hp : (s.procs p).alive = true)
    (hprocs : s'.procs = Function.update s.procs p q)
    (hstamp : s'.stamp = s.stamp + 1) (hreaders : s'.readers = s.readers)
    (hrow : q.row = (s.procs p).row) (hpc : PcOk s' p) (hfree : s'.owner = none → Free s')
    (hheld : ∀ q h, s'.owner = some (q, h) → Held s' q h) : Inv s' := by
  have hself : s'.procs p = q := by rw [hprocs, Function.update_self]
  have hne : ∀ r, r ≠ p → s'.procs r = s.procs r := fun r hr => by
    rw [hprocs, Function.update_of_ne hr]
  refine ⟨fun r hr => ?_, fun r hr => ?_, by rw [hreaders]; exact h.rowsNonneg, hfree, hheld⟩
  · by_cases hrp : r = p
    · exact hrp ▸ hpc
    · refine (h.pc r (by rwa [hne r hrp] at hr)).frame (hne r hrp) (fun x hx => ?_) (by omega)
        (fun hsame => by omega)
      by_cases hxp : x = p
      · rw [hxp, hp] at hx
        simp at hx
      · rwa [hne x hxp]
  · rw [hreaders]
    by_cases hrp : r = p
    · rw [hrp, hself, hrow]
      exact h.rows p hp
    · rw [hne r hrp] at hr ⊢
      exact h.rows r hr

/-- In a free store whose cell is `n` and where `p` holds `n` leases, nobody else counts. -/
theorem Free.alone (h : Free s) (hp : s.lease ≤ s.count p) {r : P} (hr : r ≠ p) :
    s.count r = 0 := by
  have hpair := h.count.pair_le hr
  omega

omit [DecidableEq P] in
/-- Nobody who counts for nothing has a lease or an add in the cell. -/
theorem leases_of_count_zero {r : P} (hr : (s.procs r).alive = true) (h : s.count r = 0) :
    (s.procs r).leases = 0 ∧ (s.procs r).transient = false := by
  unfold State.count Proc.count at h
  rw [if_pos hr] at h
  cases ht : (s.procs r).transient
  · rw [ht] at h
    exact ⟨by simpa using h, rfl⟩
  · rw [ht] at h
    simp at h

/-- Taking the store from a cell that holds exactly `p`'s leases, under `p`'s own mark. -/
theorem Inv.takeExclusive (h : Inv s) (hp : (s.procs p).alive = true)
    (hrow : (s.procs p).pc.rowAhead = false) (ht : (s.procs p).transient = false)
    {share : ℕ} (hlease : s.lease = share) (hle : share ≤ (s.procs p).leases)
    (hshare : share ≤ 1) (hmark : s.collector = some (p, share)) :
    Inv (s.takeExclusive p share) := by
  have hroom : share < excl := by
    unfold excl
    omega
  have hfree := h.free (h.owner_none_of_lt (by omega))
  have hcount : s.count p = (s.procs p).leases := by
    simp [State.count, Proc.count, hp, ht]
  have hleases : (s.procs p).leases = share := by
    have hbound := hfree.count.apply_le p
    omega
  have hothers : ∀ r, r ≠ p → (s.procs r).alive = true →
      (s.procs r).leases = 0 ∧ (s.procs r).transient = false := fun r hr halive =>
    leases_of_count_zero halive (hfree.alone (by omega) hr)
  have hself : (s.takeExclusive p share).procs p =
      { s.procs p with exclusive := true, pc := .idle } := State.setProc_self _ _ _
  have hne : ∀ r, r ≠ p → (s.takeExclusive p share).procs r = s.procs r := fun r hr =>
    State.setProc_ne _ _ hr
  refine h.moved _ hp rfl rfl rfl ?_ (by simp [PcOk, hself])
    (fun ho => by simp [State.takeExclusive] at ho) ?_
  · unfold Proc.row
    rw [hrow]
    rfl
  · intro q k ho
    obtain ⟨rfl, rfl⟩ : p = q ∧ share = k := by simpa [State.takeExclusive] using ho
    refine ⟨hmark, hshare, fun _ => ?_, fun r hr halive => ?_, ∅, rfl, hroom, by simp, ?_⟩
    · rw [hself]
      exact ⟨rfl, hleases⟩
    · rw [hne r hr] at halive ⊢
      exact ⟨(hothers r hr halive).1, hfree.exclusive r halive⟩
    · intro r halive htr
      by_cases hr : r = p
      · rw [hr, hself] at htr
        simp [Proc.transient] at htr
      · rw [hne r hr] at halive htr
        rw [(hothers r hr halive).2] at htr
        simp at htr

omit [DecidableEq P] in
theorem Held.holder_ne {q : P} {k : ℕ} (h : Held s q k) (hp : (s.procs p).alive = true)
    (hex : (s.procs p).exclusive = false) : p ≠ q := by
  rintro rfl
  have hq := (h.owner hp).1
  rw [hex] at hq
  simp at hq

theorem lt_wordSize_of_lt {c : ℕ} (h : c < excl + excl) : c < wordSize := by
  have hsize : excl + excl ≤ wordSize := by
    unfold excl wordSize
    omega
  omega

/-- A store that stays free: `p`'s part of the cell is the only one to have moved. -/
theorem Free.moved {s' : State P} (h : Free s) (q : Proc P)
    (hprocs : s'.procs = Function.update s.procs p q) (hlt : s'.lease < excl)
    (hcount : SumLe s'.count s'.lease) (hex : q.exclusive = false) : Free s' := by
  refine ⟨hlt, hcount, fun r hr => ?_⟩
  by_cases hrp : r = p
  · rw [hrp, hprocs, Function.update_self]
    exact hex
  · rw [hprocs, Function.update_of_ne hrp] at hr ⊢
    exact h.exclusive r hr

/-- A store that stays held: `p`, not its holder, moved in or out of the transient readers. -/
theorem Held.moved {s' : State P} {o : P} {k : ℕ} (h : Held s o k) (q : Proc P) (T : Finset P)
    (hpo : p ≠ o) (hprocs : s'.procs = Function.update s.procs p q)
    (hmark : s'.collector = s.collector) (hq : q.leases = 0 ∧ q.exclusive = false)
    (hcell : s'.lease = excl + (k + T.card)) (hroom : k + T.card < excl)
    (hT : ∀ r ∈ T, (s'.procs r).transient = true)
    (hall : ∀ r, (s'.procs r).alive = true → (s'.procs r).transient = true → r ∈ T) :
    Held s' o k := by
  refine ⟨hmark.trans h.mark, h.share, ?_, fun r hr halive => ?_, T, hcell, hroom, hT, hall⟩
  · rw [hprocs, Function.update_of_ne hpo.symm]
    exact h.owner
  · by_cases hrp : r = p
    · rw [hrp, hprocs, Function.update_self]
      exact hq
    · rw [hprocs, Function.update_of_ne hrp] at halive ⊢
      exact h.others r hr halive

theorem Inv.enter (h : Inv s) {tries : ℕ} (hp : (s.procs p).alive = true)
    (hpc : (s.procs p).pc = .readLeaseAdd tries) (ho : s.owner = none)
    (hroom : s.lease + 1 < excl) : Inv ((s.putLease (s.lease + 1)).enter p) := by
  have hfree := h.free ho
  have hself : ((s.putLease (s.lease + 1)).enter p).procs p =
      { s.procs p with leases := (s.procs p).leases + 1, pc := .idle } := State.setProc_self _ _ _
  have hne : ∀ r, r ≠ p → ((s.putLease (s.lease + 1)).enter p).procs r = s.procs r :=
    fun r hr => State.setProc_ne _ _ hr
  refine h.moved _ hp rfl rfl rfl ?_ (by simp [PcOk, hself]) (fun _ => ?_)
    (fun q k hq => absurd (ho.symm.trans hq) (by simp))
  · simp [Proc.row, Pc.rowAhead, hpc]
  · refine hfree.moved _ rfl hroom ?_ (hfree.exclusive p hp)
    refine hfree.count.add_one p ?_ fun r hr => by rw [State.count, State.count, hne r hr]
    simp [State.count, hself, Proc.count, hp, Proc.transient, hpc]

/-- A reader finding a collector: its add stands in the cell until it steps back out. -/
theorem Inv.stepIn (h : Inv s) {tries : ℕ} (hp : (s.procs p).alive = true)
    (hpc : (s.procs p).pc = .readLeaseAdd tries) {o : P} {k : ℕ} (ho : s.owner = some (o, k))
    (hroom : s.lease % excl + 1 < excl) :
    Inv ((s.putLease (s.lease + 1)).goto p (.readLeaseSub tries)) := by
  have hex : (s.procs p).exclusive = false := by simpa [PcOk, hpc] using h.pc p hp
  have hheld := h.held o k ho
  obtain ⟨T, hcell, hT, hmem, hall⟩ := hheld.cell
  have hpo := hheld.holder_ne hp hex
  have hpT : p ∉ T := fun hin => by
    have htr := hmem p hin
    simp [Proc.transient, hpc] at htr
  have hcard : (insert p T).card = T.card + 1 := Finset.card_insert_of_notMem hpT
  rw [hcell, Nat.add_mod_left, Nat.mod_eq_of_lt hT] at hroom
  have hself : ((s.putLease (s.lease + 1)).goto p (.readLeaseSub tries)).procs p =
      { s.procs p with pc := .readLeaseSub tries } := State.setProc_self _ _ _
  have hne : ∀ r, r ≠ p →
      ((s.putLease (s.lease + 1)).goto p (.readLeaseSub tries)).procs r = s.procs r :=
    fun r hr => State.setProc_ne _ _ hr
  refine h.moved _ hp rfl rfl rfl ?_ (by simp [PcOk, hself, hex])
    (fun hn => absurd (ho.symm.trans hn) (by simp)) fun q k' hq => ?_
  · simp [Proc.row, Pc.rowAhead, hpc]
  · obtain ⟨rfl, rfl⟩ : o = q ∧ k = k' := by simpa using ho.symm.trans hq
    refine hheld.moved _ (insert p T) hpo rfl rfl (hheld.others p hpo hp) ?_ (by omega)
      (fun r hr => ?_) fun r halive htr => ?_
    · show s.lease + 1 = _
      omega
    · rcases Finset.mem_insert.mp hr with rfl | hr
      · simp [hself, Proc.transient]
      · rw [hne r (fun he => hpT (he ▸ hr))]
        exact hmem r hr
    · by_cases hrp : r = p
      · exact Finset.mem_insert.mpr (Or.inl hrp)
      · rw [hne r hrp] at halive htr
        exact Finset.mem_insert_of_mem (hall r halive htr)

theorem Inv.readLeaseAdd (h : Inv s) {s' : State P} {tries : ℕ}
    (hp : (s.procs p).alive = true) (hpc : (s.procs p).pc = .readLeaseAdd tries)
    (hroom : s.lease % excl + 1 < excl) (hs : s.tick p (.readLeaseAdd tries) = some s') :
    Inv s' := by
  rw [State.tick] at hs
  cases ho : s.owner with
  | none =>
    have hlt := (h.free ho).lt
    rw [Nat.mod_eq_of_lt hlt] at hroom
    rw [addGet_of_lt (lt_wordSize_of_lt (by omega)), if_neg (by omega), Option.some.injEq] at hs
    exact hs ▸ h.enter hp hpc ho hroom
  | some o =>
    obtain ⟨T, hcell, hT, -⟩ := (h.held o.1 o.2 ho).cell
    have hmod : s.lease % excl = o.2 + T.card := by
      rw [hcell, Nat.add_mod_left, Nat.mod_eq_of_lt hT]
    rw [addGet_of_lt (lt_wordSize_of_lt (by omega)), if_pos (by omega), Option.some.injEq] at hs
    exact hs ▸ h.stepIn hp hpc ho hroom

/-- A reader taking its add back, to go on wherever a row that counts one more is right. -/
theorem Inv.stepOut (h : Inv s) {tries c : ℕ} {pc : Pc P} (hp : (s.procs p).alive = true)
    (hpc : (s.procs p).pc = .readLeaseSub tries) (hc : subGet s.lease 1 = c)
    (hnew : ({ s.procs p with pc := pc } : Proc P).transient = false)
    (hrow : pc.rowAhead = true) (hok : PcOk ((s.putLease c).goto p pc) p) :
    Inv ((s.putLease c).goto p pc) := by
  have hex : (s.procs p).exclusive = false := by simpa [PcOk, hpc] using h.pc p hp
  have htr : (s.procs p).transient = true := by simp [Proc.transient, hpc]
  have hself : ((s.putLease c).goto p pc).procs p = { s.procs p with pc := pc } :=
    State.setProc_self _ _ _
  have hne : ∀ r, r ≠ p → ((s.putLease c).goto p pc).procs r = s.procs r :=
    fun r hr => State.setProc_ne _ _ hr
  refine h.moved { s.procs p with pc := pc } hp rfl rfl rfl (Proc.row_congr rfl ?_) hok
    (fun ho => ?_) fun o k ho => ?_
  · rw [hrow, hpc]
    rfl
  · -- the collector has gone in the meantime, and the add was the reader's own
    have hfree := h.free ho
    have hcount : s.count p = (s.procs p).leases + 1 := by simp [State.count, Proc.count, hp, htr]
    have hone := hfree.count.apply_le p
    have hlt := hfree.lt
    have hsub : c = s.lease - 1 :=
      hc ▸ subGet_of_le (by omega) (lt_wordSize_of_lt (by omega))
    refine hfree.moved _ rfl ?_ ?_ hex
    · show c < excl
      omega
    · have hbound : SumLe ((s.putLease c).goto p pc).count (s.lease - 1) := by
        refine hfree.count.sub_one p ?_ fun r hr => by rw [State.count, State.count, hne r hr]
        rw [hcount, State.count, hself, Proc.count, if_pos hp, hnew]
        simp
      rwa [← hsub] at hbound
  · have hheld := h.held o k ho
    obtain ⟨T, hcell, hT, hmem, hall⟩ := hheld.cell
    have hpo := hheld.holder_ne hp hex
    have hpT := hall p hp htr
    have hcard : (T.erase p).card = T.card - 1 := Finset.card_erase_of_mem hpT
    have hpos : 0 < T.card := Finset.card_pos.mpr ⟨p, hpT⟩
    have hsub : c = s.lease - 1 :=
      hc ▸ subGet_of_le (by omega) (lt_wordSize_of_lt (by omega))
    refine hheld.moved _ (T.erase p) hpo rfl rfl (hheld.others p hpo hp) ?_ (by omega)
      (fun r hr => ?_) fun r halive htrans => ?_
    · show c = _
      omega
    · obtain ⟨hrp, hrT⟩ := Finset.mem_erase.mp hr
      rw [hne r hrp]
      exact hmem r hrT
    · by_cases hrp : r = p
      · rw [hrp, hself, hnew] at htrans
        simp at htrans
      · rw [hne r hrp] at halive htrans
        exact Finset.mem_erase.mpr ⟨hrp, hall r halive htrans⟩

theorem Inv.readLeaseSub (h : Inv s) {tries : ℕ} (hp : (s.procs p).alive = true)
    (hpc : (s.procs p).pc = .readLeaseSub tries) :
    Inv ((s.putLease (subGet s.lease 1)).goto p (afterStepBack tries)) := by
  have hex : (s.procs p).exclusive = false := by simpa [PcOk, hpc] using h.pc p hp
  generalize hpc' : (afterStepBack tries : Pc P) = pc
  have hplain : pc.plain = true := hpc' ▸ afterStepBack_plain tries
  have hrow : pc.rowAhead = true := hpc' ▸ afterStepBack_rowAhead tries
  exact h.stepOut hp hpc rfl (Proc.transient_of_plain hplain) hrow
    (PcOk.of_goto_plain hplain hex)

theorem Inv.unleaseSub (h : Inv s) (hp : (s.procs p).alive = true)
    (hpc : (s.procs p).pc = .unleaseSub) :
    Inv ((s.putLease (subGet s.lease 1)).leave p (subGet s.lease 1)) := by
  obtain ⟨hl, hex⟩ : 1 ≤ (s.procs p).leases ∧ (s.procs p).exclusive = false := by
    simpa [PcOk, hpc] using h.pc p hp
  have ho := h.owner_none_of_leases hp hex hl
  have hfree := h.free ho
  have hcount : s.count p = (s.procs p).leases := by
    simp [State.count, Proc.count, hp, Proc.transient, hpc]
  have hone := hfree.count.apply_le p
  have hlt := hfree.lt
  have hsub : subGet s.lease 1 = s.lease - 1 :=
    subGet_of_le (by omega) (lt_wordSize_of_lt (by omega))
  rw [hsub]
  have hself : ((s.putLease (s.lease - 1)).leave p (s.lease - 1)).procs p =
      { s.procs p with leases := (s.procs p).leases - 1, pc := .forgetReader (s.lease - 1) } :=
    State.setProc_self _ _ _
  have hne : ∀ r, r ≠ p →
      ((s.putLease (s.lease - 1)).leave p (s.lease - 1)).procs r = s.procs r :=
    fun r hr => State.setProc_ne _ _ hr
  refine h.moved _ hp rfl rfl rfl ?_ (by simp [PcOk, hself, hex]) (fun _ => ?_)
    (fun q k hq => absurd (ho.symm.trans hq) (by simp))
  · simp [Proc.row, Pc.rowAhead, hpc]
    omega
  · refine hfree.moved _ rfl ?_ ?_ hex
    · show s.lease - 1 < excl
      omega
    · refine hfree.count.sub_one p ?_ fun r hr => by rw [State.count, State.count, hne r hr]
      rw [hcount]
      simp [State.count, hself, Proc.count, hp, Proc.transient]
      omega

/-- A recount written over the cell it read: the rows it summed were a superset of the counts. -/
theorem Inv.recounted (h : Inv s) {seen seenAt : ℕ} {live : ℤ} {pc : Pc P}
    (hp : (s.procs p).alive = true) (hpc : (s.procs p).pc = .settle seen live seenAt)
    (hseen : s.lease = seen) (hstamp : s.stamp = seenAt)
    (hnew : ({ s.procs p with pc := pc } : Proc P).transient = false)
    (hrow : pc.rowAhead = false) (hok : PcOk ((s.putLease live.toNat).goto p pc) p) :
    Inv ((s.putLease live.toNat).goto p pc) := by
  have hsettle := h.pc p hp
  simp only [PcOk, hpc] at hsettle
  obtain ⟨⟨hlt, hpos, hlive, -, hsum⟩, hex⟩ := hsettle
  have ho : s.owner = none := h.owner_none_of_lt (by omega)
  have hself : ((s.putLease live.toNat).goto p pc).procs p = { s.procs p with pc := pc } :=
    State.setProc_self _ _ _
  have hne : ∀ r, r ≠ p → ((s.putLease live.toNat).goto p pc).procs r = s.procs r :=
    fun r hr => State.setProc_ne _ _ hr
  refine h.moved { s.procs p with pc := pc } hp rfl rfl rfl (Proc.row_congr rfl ?_) hok
    (fun _ => ?_) (fun q k hq => absurd (ho.symm.trans hq) (by simp))
  · rw [hrow, hpc]
    rfl
  · refine (h.free ho).moved _ rfl ?_ ?_ hex
    · show live.toNat < excl
      omega
    · refine (hsum hstamp.symm).mono (fun r => ?_) le_rfl
      by_cases hr : r = p
      · rw [hr, State.count, State.count, hself]
        have htr : (s.procs p).transient = false := by simp [Proc.transient, hpc]
        have hsame : ({ s.procs p with pc := pc } : Proc P).count = (s.procs p).count :=
          Proc.count_congr rfl rfl (hnew.trans htr.symm)
        exact hsame.le
      · rw [State.count, State.count, hne r hr]

theorem Inv.settle (h : Inv s) {seen seenAt : ℕ} {live : ℤ} (hp : (s.procs p).alive = true)
    (hpc : (s.procs p).pc = .settle seen live seenAt) (hseen : s.lease = seen)
    (hstamp : s.stamp = seenAt) :
    Inv ((s.putLease live.toNat).goto p (if live = 0 then .lastOutRequest else .idle)) := by
  have hok := h.pc p hp
  simp only [PcOk, hpc] at hok
  split
  · exact h.recounted hp hpc hseen hstamp rfl rfl (PcOk.of_goto_plain rfl hok.2)
  · exact h.recounted hp hpc hseen hstamp rfl rfl (PcOk.of_goto_plain rfl hok.2)

/-- The holder gives the store back: its share and the readers that arrived meanwhile stay. -/
theorem Inv.giveBack (h : Inv s) (hp : (s.procs p).alive = true)
    (hpc : (s.procs p).pc = .releaseSub) : Inv (s.giveBack p) := by
  have hex : (s.procs p).exclusive = true := by simpa [PcOk, hpc] using h.pc p hp
  obtain ⟨k, ho⟩ : ∃ k, s.owner = some (p, k) := by
    cases ho : s.owner with
    | none =>
      have hnot := (h.free ho).exclusive p hp
      rw [hex] at hnot
      simp at hnot
    | some o =>
      by_cases hpo : p = o.1
      · exact ⟨o.2, by rw [hpo]⟩
      · have hnot := ((h.held o.1 o.2 ho).others p hpo hp).2
        rw [hex] at hnot
        simp at hnot
  have hheld := h.held p k ho
  obtain ⟨T, hcell, hT, hmem, hall⟩ := hheld.cell
  have hsub : subGet s.lease excl = k + T.card := by
    rw [subGet_of_le (by omega) (lt_wordSize_of_lt (by omega))]
    omega
  unfold State.giveBack
  rw [hsub]
  set t : State P := { s.putLease (k + T.card) with owner := none }.setProc p
    { s.procs p with exclusive := false, pc := .releaseUnmark } with ht
  have hself : t.procs p =
      { s.procs p with exclusive := false, pc := .releaseUnmark } := State.setProc_self _ _ _
  have hne : ∀ r, r ≠ p → t.procs r = s.procs r := fun r hr => State.setProc_ne _ _ hr
  refine h.moved _ hp rfl rfl rfl ?_ (by simp [PcOk, hself]) (fun _ => ?_)
    (fun q k hq => by simp [ht] at hq)
  · simp [Proc.row, Pc.rowAhead, hpc]
  · refine ⟨?_, ?_, fun r halive => ?_⟩
    · exact hT
    · refine SumLe.of_indicator p fun r => ?_
      by_cases hr : r = p
      · rw [hr, State.count, hself]
        simp [Proc.count, hp, Proc.transient, (hheld.owner hp).2]
      · rw [State.count, hne r hr, if_neg hr, zero_add]
        cases halive : (s.procs r).alive
        · simp [Proc.count, halive]
        · rw [Proc.count, if_pos halive, (hheld.others r hr halive).1, zero_add]
          split
          · rename_i htr
            rw [if_pos (hall r halive htr)]
          · exact Nat.zero_le _
    · by_cases hr : r = p
      · rw [hr, hself]
      · rw [hne r hr] at halive ⊢
        exact (hheld.others r hr halive).2

end ErlangWasm.Heap.Lease
