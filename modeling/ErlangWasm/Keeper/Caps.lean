import ErlangWasm.Keeper.Waiting

/-!
# Ceilings and totals

What each operation does to one holder's ceiling and total.  A growth, a reservation and an
acquisition check the ceiling before they add to the total; only `sub_total/3`, `forget_cap/2` and
`move_cap/3` take a ceiling away, the first when the total it leaves is not positive.
-/

namespace ErlangWasm.Keeper

open Reasoning

variable {s s' s'' t : State} {token : Token} {max : ℕ} {e : Token → ℤ} {res : Resource} {row : Row}

/-- The ceiling of `token` is `max`, in `caps` and in the registry. -/
structure State.Capped (s : State) (token : Token) (max : ℕ) : Prop where
  caps : s.caps.lookup token = some max
  capRows : s.capRows.lookup token = some max

/-- The ceiling stays, and the total goes past it only from a total already past it. -/
def Bounded (token : Token) (max : ℕ) (s s' : State) : Prop :=
  s.Capped token max →
    s'.Capped token max ∧ (s'.total token ≤ max ∨ s'.total token ≤ s.total token)

theorem Bounded.refl (s : State) : Bounded token max s s := fun h => ⟨h, Or.inr le_rfl⟩

theorem Bounded.trans (h : Bounded token max s s') (h' : Bounded token max s' s'') :
    Bounded token max s s'' := by
  intro hcap
  obtain ⟨hcap', hle⟩ := h hcap
  obtain ⟨hcap'', hle'⟩ := h' hcap'
  refine ⟨hcap'', ?_⟩
  omega

theorem Bounded.of_eq (hcaps : s'.caps = s.caps) (hcapRows : s'.capRows = s.capRows)
    (htotals : s'.totals = s.totals) : Bounded token max s s' := by
  refine fun h => ⟨⟨?_, ?_⟩, Or.inr (le_of_eq ?_)⟩
  · rw [hcaps, h.caps]
  · rw [hcapRows, h.capRows]
  · rw [State.total, State.total, htotals]

theorem Quiet.bounded (h : Quiet s s') : Bounded token max s s' :=
  .of_eq h.caps h.capRows h.totals

/-! ## The running totals -/

theorem total_subTotal_ne (s : State) {t : Token} (n : ℤ) (ht : token ≠ t) :
    (s.subTotal t n).total token = s.total token := by
  have htotals : (s.subTotal t n).totals =
      if s.total t - n ≤ 0 then s.totals.erase t else s.totals.insert t (s.total t - n) := rfl
  rw [State.total, htotals]
  split
  · rw [AList.lookup_erase_ne ht, State.total]
  · rw [AList.lookup_insert_ne ht, State.total]

theorem bounded_subTotal (s : State) (t : Token) {n : ℤ} (hn : 0 ≤ n)
    (hleft : t = token → 0 < s.total token - n) : Bounded token max s (s.subTotal t n) := by
  intro h
  have hcaps : (s.subTotal t n).caps = if s.total t - n ≤ 0 then s.caps.erase t else s.caps := rfl
  have hcapRows : (s.subTotal t n).capRows =
      if s.total t - n ≤ 0 then s.capRows.erase t else s.capRows := rfl
  by_cases ht : t = token
  · subst ht
    have hpos : ¬ s.total t - n ≤ 0 := not_le.mpr (hleft rfl)
    have htotals : (s.subTotal t n).totals = s.totals.insert t (s.total t - n) := if_neg hpos
    rw [if_neg hpos] at hcaps hcapRows
    refine ⟨⟨by rw [hcaps, h.caps], by rw [hcapRows, h.capRows]⟩, Or.inr ?_⟩
    rw [State.total, htotals, AList.lookup_insert, Option.getD_some]
    omega
  · have ht' : token ≠ t := Ne.symm ht
    refine ⟨⟨?_, ?_⟩, Or.inr (total_subTotal_ne s n ht').le⟩
    · rw [hcaps]
      split
      · rw [AList.lookup_erase_ne ht', h.caps]
      · exact h.caps
    · rw [hcapRows]
      split
      · rw [AList.lookup_erase_ne ht', h.capRows]
      · exact h.capRows

theorem bounded_subTotals {tokens : List Token} (hnodup : tokens.Nodup) {n : ℤ} (hn : 0 ≤ n) :
    ∀ s : State, (token ∈ tokens → 0 < s.total token - n) →
      Bounded token max s (tokens.foldl (fun s t => s.subTotal t n) s) := by
  induction tokens with
  | nil => exact fun s _ => .refl s
  | cons t tokens ih =>
    intro s hleft
    obtain ⟨hnot, hnodup'⟩ := List.nodup_cons.mp hnodup
    refine (bounded_subTotal s t hn ?_).trans (ih hnodup' _ fun hmem => ?_)
    · rintro rfl
      exact hleft List.mem_cons_self
    · have hne : token ≠ t := fun heq => hnot (heq ▸ hmem)
      rw [total_subTotal_ne s n hne]
      exact hleft (List.mem_cons_of_mem _ hmem)

theorem caps_addTotals (tokens : List Token) (n : ℤ) : ∀ s : State,
    (tokens.foldl (fun s t => s.addTotal t n) s).caps = s.caps ∧
      (tokens.foldl (fun s t => s.addTotal t n) s).capRows = s.capRows := by
  induction tokens with
  | nil => exact fun s => ⟨rfl, rfl⟩
  | cons t tokens ih => exact fun s => ih (s.addTotal t n)

theorem bounded_addTotals {tokens : List Token} (hnodup : tokens.Nodup) {n : ℤ} (s : State)
    (hwithin : token ∈ tokens → s.total token + n ≤ max) :
    Bounded token max s (tokens.foldl (fun s t => s.addTotal t n) s) := by
  intro h
  obtain ⟨hcaps, hcapRows⟩ := caps_addTotals tokens n s
  refine ⟨⟨by rw [hcaps, h.caps], by rw [hcapRows, h.capRows]⟩, ?_⟩
  rw [total_foldl_addTotal hnodup]
  split
  · rename_i hmem
    exact Or.inl (hwithin hmem)
  · exact Or.inr (by rw [add_zero])

theorem le_of_within {n : ℕ} (h : s.Capped token max) (hwithin : s.within token n = true) :
    s.total token + n ≤ max := by
  unfold State.within at hwithin
  rw [h.caps] at hwithin
  exact of_decide_eq_true hwithin

theorem within_eq_false {n : ℕ} (h : s.Capped token max) (hover : max < s.total token + n) :
    s.within token n = false := by
  unfold State.within
  rw [h.caps]
  exact decide_eq_false (not_le.mpr hover)

/-! ## Transactions -/

theorem bounded_start (s : State) (res : Resource) (row : Row) (m : MemoryMeta) (acc : Account)
    (opId : Ref) (pid : Pid) (req : TxnRequest) :
    Bounded token max s (s.start res row m acc opId pid req).2 := by
  cases req with
  | growBegin delta ceiling =>
    unfold State.start State.startGrow
    dsimp only
    split
    · exact .refl s
    · split
      · exact .refl s
      · rename_i hall
        split
        · exact .refl s
        · rename_i u hu
          have hu' := eq_of_reservePages hu
          subst hu'
          intro hcap
          refine Bounded.trans (fun hcap => ?_) (quiet_watchWriter _ pid res).bounded hcap
          refine Bounded.trans ?_ (bounded_addTotals row.holders.keys_nodup _ ?_) hcap
          · exact .of_eq rfl rfl rfl
          intro hmem
          have hwithin : s.within token delta = true := by
            rw [not_not, List.all_eq_true] at hall
            exact hall token hmem
          have hle : s.total token + delta ≤ max := le_of_within hcap hwithin
          exact hle
  | arenaBegin target seen pages =>
    unfold State.start State.startArena
    dsimp only
    split
    · exact .refl s
    · split
      · exact .refl s
      · split
        · exact .refl s
        · rename_i u hu
          have hu' := eq_of_reservePages hu
          subst hu'
          refine Bounded.trans ?_ (quiet_watchWriter _ pid res).bounded
          exact .of_eq rfl rfl rfl

theorem bounded_transaction (s : State) (res : Resource) (w : Waiter) :
    Bounded token max s (s.transaction res w).2 := by
  unfold State.transaction
  split
  · exact .refl s
  · split
    · exact .refl s
    · split
      · exact .refl s
      · exact bounded_start s res _ _ _ _ _ _
      · split
        · exact .refl s
        · exact .of_eq rfl rfl rfl

theorem bounded_drain (res : Resource) (ws : List Waiter) :
    ∀ s : State, Bounded token max s (s.drain res ws) := by
  induction ws with
  | nil => exact fun s => .of_eq rfl rfl rfl
  | cons w ws ih =>
    intro s
    unfold State.drain
    have hput : Bounded token max s { s with queued := s.queued.insert res ws } :=
      .of_eq rfl rfl rfl
    have hnext := hput.trans (bounded_transaction _ res w)
    split
    · rename_i r u hu
      rw [hu] at hnext
      have hreply : Bounded token max s (u.reply w.caller r) := hnext.trans (.of_eq rfl rfl rfl)
      dsimp only
      split
      · exact hreply.trans (ih _)
      · exact hreply
    · rename_i u hu
      rw [hu] at hnext
      exact hnext

theorem bounded_finish (h : Quiet s t) (res : Resource) (row : Row) (m : MemoryMeta)
    (acc : Account) (pid : Pid) (opId : Ref) (result : Outcome) :
    Bounded token max s ((t.finish res row m acc pid opId result).nextTransaction res) := by
  have hput : Bounded token max t (t.putAccount res row m
      { acc with txn := none, done := acc.done.insert pid (opId, result) }) := .of_eq rfl rfl rfl
  exact ((h.bounded.trans hput).trans (quiet_watchWriter _ _ _).bounded).trans (bounded_drain _ _ _)

theorem bounded_finishPublished (s : State) (res : Resource) (row : Row) (m : MemoryMeta)
    (acc : Account) (txn : Txn) : Bounded token max s (s.finishPublished res row m acc txn) := by
  cases txn with
  | grow opId pid before after pages chunks =>
    exact bounded_finish (quiet_publishSize s _ _) _ _ _ _ _ _ _
  | arena opId pid published target pages => exact bounded_finish (Quiet.refl s) _ _ _ _ _ _ _

theorem bounded_growCommit (s : State) (pid : Pid) (res : Resource) (opId : Ref)
    (chunks : List Ref) : Bounded token max s (s.growCommit pid res opId chunks).2 := by
  unfold State.growCommit
  split
  · exact .refl s
  · split
    · split
      · exact bounded_finish ((quiet_publishChunks s _ _ _).trans (quiet_publishSize _ _ _)) _ _ _ _
          _ _ _
      · exact .refl s
    · exact .refl s

theorem bounded_arenaCommit (s : State) (pid : Pid) (res : Resource) (opId : Ref)
    (arena : List Ref) : Bounded token max s (s.arenaCommit pid res opId arena).2 := by
  unfold State.arenaCommit
  split
  · exact .refl s
  · split
    · split
      · exact bounded_finish (quiet_publishChunks s _ _ _) _ _ _ _ _ _ _
      · exact .refl s
    · exact .refl s

theorem bounded_forgetOutcome (s : State) (res : Resource) (opId : Ref) (pid : Pid) :
    Bounded token max s (s.forgetOutcome res opId pid) := by
  unfold State.forgetOutcome
  split
  · split
    · refine Bounded.trans ?_ (quiet_unwatchWriter _ _ _).bounded
      exact .of_eq rfl rfl rfl
    · exact .refl s
  · exact (quiet_unwatchWriter _ _ _).bounded

/-! ## New holders -/

theorem bounded_pendingCap (s : State) (t : Token) (limit : Option ℕ) :
    Bounded token max s (s.pendingCap t limit) := by
  intro h
  unfold State.pendingCap
  split
  · exact Bounded.refl s h
  · rename_i pending
    split
    · exact Bounded.refl s h
    · rename_i hnone
      have hne : token ≠ t := by
        rintro rfl
        rw [h.caps] at hnone
        exact hnone rfl
      refine ⟨⟨?_, ?_⟩, Or.inr le_rfl⟩
      · rw [State.setCap, AList.lookup_insert_ne hne, h.caps]
      · rw [State.setCap, AList.lookup_insert_ne hne, h.capRows]

theorem bounded_addTotal (s : State) (t : Token) {n : ℕ} (hwithin : s.within t n = true) :
    Bounded token max s (s.addTotal t n) := by
  intro h
  have hnodup : [t].Nodup := List.nodup_singleton t
  refine bounded_addTotals hnodup s (fun hmem => ?_) h
  rw [List.mem_singleton] at hmem
  exact le_of_within h (hmem ▸ hwithin)

theorem bounded_countImage (s : State) (image : Option Resource) (n : ℤ) :
    Bounded token max s (s.countImage image n) := .of_eq rfl rfl rfl

theorem bounded_reserve (s : State) (pages : ℕ) (kind : Meta) (t : Token) (owner : Option Pid)
    (limit : Option ℕ) : Bounded token max s (s.reserve pages kind t owner limit).2 := by
  have hcap : Bounded token max s (s.pendingCap t limit) := bounded_pendingCap s t limit
  unfold State.reserve
  dsimp only
  split
  · exact hcap
  · rename_i hwithin
    split
    · exact hcap
    · split
      · exact hcap
      · rename_i u hu
        have hu' := eq_of_reservePages hu
        subst hu'
        rw [not_not] at hwithin
        refine hcap.trans (Bounded.trans ?_ (quiet_watch _ _ _ _).bounded)
        cases kind with
        | memory m =>
          dsimp only
          refine Bounded.trans (Bounded.trans ?_ (bounded_addTotal _ t ?_)) (bounded_countImage _ _ _)
          · exact .of_eq rfl rfl rfl
          · exact hwithin
        | cell | heap objs elems =>
          dsimp only
          refine Bounded.trans ?_ (bounded_addTotal _ t ?_)
          · exact .of_eq rfl rfl rfl
          · exact hwithin

theorem bounded_acquire (s : State) (res : Resource) (t : Token) (owner : Option Pid)
    (limit : Option ℕ) : Bounded token max s (s.acquire res t owner limit).2 := by
  have hcap : Bounded token max s (s.pendingCap t limit) := bounded_pendingCap s t limit
  unfold State.acquire
  dsimp only
  split
  · exact hcap
  · split_ifs with hretiring hholds hwithin
    · exact hcap
    · exact hcap
    · refine hcap.trans (Bounded.trans ?_ (quiet_watch _ _ _ _).bounded)
      refine Bounded.trans ?_ (bounded_addTotal _ t ?_)
      · exact .of_eq rfl rfl rfl
      · exact hwithin
    · exact hcap

theorem bounded_imageReserve (s : State) (bytes : ℕ) (owner : Pid) (id : Ref) :
    Bounded token max s (s.imageReserve bytes owner id).2 := by
  unfold State.imageReserve
  split
  · exact .refl s
  · split
    · exact .refl s
    · refine Bounded.trans ?_ (quiet_addHeld _ _ _ _).bounded
      exact .of_eq rfl rfl rfl

end ErlangWasm.Keeper
