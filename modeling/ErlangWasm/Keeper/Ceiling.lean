import ErlangWasm.Keeper.Spare

/-!
# A ceiling lasts as long as its holder

The ceiling a holder was promised against the one the keeper enforces.  They agree in every run in
which no step leaves a holder that has a ceiling with resources of no pages alone.
-/

namespace ErlangWasm.Keeper

open Reasoning

variable {s s' t : State} {token : Token} {max : ℕ} {e : Token → ℤ} {res : Resource}

def State.Holds (s : State) (token : Token) : Prop := ∃ res, s.ownerOf res token ≠ none

def State.holdings (s : State) (token : Token) : List Resource :=
  s.rows.keys.filter fun res => (s.ownerOf res token).isSome

theorem mem_holdings : res ∈ s.holdings token ↔ s.ownerOf res token ≠ none := by
  unfold State.holdings
  rw [List.mem_filter, Option.isSome_iff_ne_none]
  constructor
  · exact fun h => h.2
  · intro h
    obtain ⟨owner, howner⟩ := Option.ne_none_iff_exists'.mp h
    obtain ⟨row, hrow, -⟩ := exists_row_of_ownerOf howner
    refine ⟨?_, h⟩
    rw [← AList.mem_keys, ← AList.lookup_isSome, hrow]
    rfl

/-! ## What a step takes from a holder -/

/-- Whether the step ends this transaction on `res` without its commit. -/
def State.ends (s : State) (a : Act) (res : Resource) (txn : Txn) : Bool :=
  match a with
  | .call _ (.txnAbort r opId) => decide (r = res ∧ txn.opId = opId)
  | .down pid mon =>
      decide (txn.pid = pid) &&
        (s.writers.lookup pid).any fun w => decide (w.1 = mon ∧ res ∈ w.2.keys)
  | _ => false

/-- What the tables of a heap hold, in pages. -/
def State.measured (s : State) (res : Resource) : Option ℕ :=
  match (s.rows.lookup res).map Row.body with
  | some (.heap objs elems) => some (pagesOf (s.wordsOf objs + s.wordsOf elems))
  | _ => none

/-- What `res` shrinks to: a growth that is undone, or a heap measured smaller. -/
def State.reduced (s : State) (a : Act) (res : Resource) : Option ℕ :=
  match a with
  | .call _ (.reconcile r _ _) =>
      if r = res then (s.measured res).filter fun want => decide (want < s.pagesAt res) else none
  | _ => s.settling res (s.ends a res)

/-- The step takes nothing from the holder, or everything, or leaves it a resource with pages. -/
def State.Spared (s : State) (a : Act) (token : Token) : Prop :=
  (∀ res ∈ s.holdings token, (res, token) ∉ s.dropped a ∧ s.reduced a res = none) ∨
  (∀ res ∈ s.holdings token, (res, token) ∈ s.dropped a) ∨
  ∃ res ∈ s.holdings token,
    (res, token) ∉ s.dropped a ∧ 0 < (s.reduced a res).getD (s.pagesAt res)

/-- No holder that has a ceiling keeps resources and loses its last page.  What a transfer or a
discard takes has to be all the token holds, since the ceiling goes with it. -/
def Spares (s : State) : Act → Prop
  | .call caller (.transfer src dst _) => src ∈ s.caps.keys →
      src ≠ dst ∧ ∀ res ∈ s.holdings src, res ∈ s.heldUnder caller.1 src
  | .call caller (.discard token) => token ∈ s.caps.keys →
      ∀ res ∈ s.holdings token, res ∈ s.heldUnder caller.1 token
  | a => ∀ token ∈ s.caps.keys, s.Spared a token

local instance heldPair : LawfulBEq (Resource × Token) := inferInstance

instance (s : State) (a : Act) (token : Token) : Decidable (s.Spared a token) := by
  unfold State.Spared
  infer_instance

instance (s : State) (a : Act) : Decidable (Spares s a) := by
  cases a with
  | call caller req => cases req <;> unfold Spares <;> infer_instance
  | _ => unfold Spares; infer_instance

/-! ## The promise -/

/-- The step gives `token` the ceiling `max`: a reservation or an acquisition only when it has
none. -/
def Sets (s : State) (a : Act) (token : Token) (max : ℕ) : Prop :=
  match a with
  | .call _ (.setLimit t m) => t = token ∧ m = max
  | .call _ (.reserve _ _ t _ limit) | .call _ (.acquire _ t _ limit) =>
      t = token ∧ limit = some max ∧ s.caps.lookup token = none
  | _ => False

/-- The step gives `token` another ceiling. -/
def Replaces (s : State) (a : Act) (token : Token) : Prop :=
  match a with
  | .call _ (.setLimit t _) => t = token
  | .call caller (.transfer src dst _) =>
      dst = token ∧ src ≠ token ∧ src ∈ s.caps.keys ∧ s.heldUnder caller.1 src ≠ []
  | _ => False

/-- The step ends the build that `token` stands for. -/
def Renounces (a : Act) (token : Token) : Prop :=
  match a with
  | .call _ (.discard t) | .call _ (.transfer t _ _) => t = token
  | _ => False

/-- `token` was promised the ceiling `max` in a run whose steps meet `ok`: it was set for it, or for
the build whose resources were transferred to it, and `token` still holds something or has not held
anything since. -/
inductive Promised (ok : State → Act → Prop) : State → Token → ℕ → Prop
  | set {s s' : State} {a : Act} {token : Token} {max : ℕ}
      (hs : Run.ReachableIf step ok State.init s) (hok : ok s a) (h : step s a = some s')
      (hsets : Sets s a token max) : Promised ok s' token max
  | moved {s s' : State} {caller : Caller} {src dst : Token} {owner : Option Pid} {max : ℕ}
      (hp : Promised ok s src max) (hok : ok s (.call caller (.transfer src dst owner)))
      (h : step s (.call caller (.transfer src dst owner)) = some s')
      (hmoved : s.heldUnder caller.1 src ≠ []) : Promised ok s' dst max
  | kept {s s' : State} {a : Act} {token : Token} {max : ℕ}
      (hp : Promised ok s token max) (hok : ok s a) (h : step s a = some s')
      (hnot : ¬ Replaces s a token)
      (hlasts : s'.Holds token ∨ ¬ s.Holds token ∧ ¬ Renounces a token) : Promised ok s' token max

theorem Promised.reachable {ok : State → Act → Prop} (h : Promised ok s token max) :
    Run.ReachableIf step ok State.init s := by
  induction h with
  | set hs hok h _ => exact hs.step hok h
  | moved _ hok h _ ih => exact ih.step hok h
  | kept _ hok h _ _ ih => exact ih.step hok h

/-! ## Writers that died -/

/-- What `res` keeps when the writer `pid` dies and left its transactions on `rs`. -/
def State.keeps (s : State) (pid : Pid) (rs : List Resource) (res : Resource) : ℕ :=
  if res ∈ rs then (s.settling res fun txn => txn.pid = pid).getD (s.pagesAt res)
  else s.pagesAt res

/-- The writer's death takes nothing from the holder, or leaves it a resource with pages. -/
def State.Safe (s : State) (pid : Pid) (rs : List Resource) (token : Token) : Prop :=
  (∀ res ∈ rs, s.ownerOf res token ≠ none → (s.settling res fun txn => txn.pid = pid) = none) ∨
    ∃ res, s.ownerOf res token ≠ none ∧ 0 < s.keeps pid rs res

theorem keeps_writerGone (h : Books e s) (he : ∀ token, 0 ≤ e token) (pid : Pid) {r : Resource}
    {rs : List Resource} (hr : r ∉ rs) (res : Resource) :
    s.keeps pid (r :: rs) res ≤ (s.writerGone pid r).keeps pid rs res := by
  obtain ⟨honward, -⟩ := writerGone_spec h he pid r
  unfold State.keeps
  by_cases hres : res = r
  · subst hres
    rw [if_pos List.mem_cons_self, if_neg hr]
    exact honward.pages
  · have hlookup := honward.others res hres
    rw [settling_congr hlookup honward.cells, pagesAt_congr hlookup]
    simp only [List.mem_cons, hres, false_or]
    exact le_rfl

theorem bounded_writersGone (he : ∀ token, 0 ≤ e token) (pid : Pid) {rs : List Resource} :
    ∀ s : State, Books e s → rs.Nodup → s.Safe pid rs token →
      Bounded token max s (rs.foldl (fun (s : State) res => s.writerGone pid res) s) := by
  induction rs with
  | nil => exact fun s _ _ _ => .refl s
  | cons r rs ih =>
    intro s h hnodup hsafe
    obtain ⟨hr, hnodup'⟩ := List.nodup_cons.mp hnodup
    obtain ⟨honward, hbounded⟩ := writerGone_spec h he pid r
    have hsame := sameHolders_writerGone s pid r
    refine Bounded.trans (hbounded token max fun before hbefore hheld => ?_)
      (ih _ (h.writerGone he pid r) hnodup' ?_)
    · rcases hsafe with hnone | ⟨res, hres, hkeeps⟩
      · rw [hnone r List.mem_cons_self hheld] at hbefore
        simp at hbefore
      · by_cases heq : res = r
        · subst heq
          rw [State.keeps, if_pos List.mem_cons_self, hbefore, Option.getD_some] at hkeeps
          exact Or.inl hkeeps
        · refine Or.inr ⟨res, heq, hres, ?_⟩
          unfold State.keeps at hkeeps
          split at hkeeps
          · exact hkeeps.trans_le (settling_le h res _)
          · exact hkeeps
    · rcases hsafe with hnone | ⟨res, hres, hkeeps⟩
      · refine Or.inl fun res hmem hheld => ?_
        have hne : res ≠ r := fun heq => hr (heq ▸ hmem)
        rw [hsame.ownerOf] at hheld
        rw [settling_congr (honward.others res hne) honward.cells]
        exact hnone res (List.mem_cons_of_mem _ hmem) hheld
      · refine Or.inr ⟨res, ?_, hkeeps.trans_le (keeps_writerGone h he pid hr res)⟩
        rw [hsame.ownerOf]
        exact hres

theorem keeps_writersGone (he : ∀ token, 0 ≤ e token) (pid : Pid) {rs : List Resource}
    (res : Resource) : ∀ s : State, Books e s → rs.Nodup →
      s.keeps pid rs res ≤
        (rs.foldl (fun (s : State) res => s.writerGone pid res) s).pagesAt res := by
  induction rs with
  | nil =>
    intro s _ _
    rw [State.keeps, if_neg List.not_mem_nil]
    exact le_rfl
  | cons r rs ih =>
    intro s h hnodup
    obtain ⟨hr, hnodup'⟩ := List.nodup_cons.mp hnodup
    exact (keeps_writerGone h he pid hr res).trans (ih _ (h.writerGone he pid r) hnodup')

/-! ## One step -/

/-- What the writers of a dead process are settled to. -/
theorem settling_ends_down (s : State) (pid : Pid) {mon : Ref} {rs : Table Resource Unit}
    (hwriter : s.writers.lookup pid = some (mon, rs)) (res : Resource) :
    s.settling res (s.ends (.down pid mon) res) =
      if res ∈ rs.keys then s.settling res fun txn => txn.pid = pid else none := by
  have hends : s.ends (.down pid mon) res =
      fun txn => decide (txn.pid = pid) && decide (res ∈ rs.keys) := by
    funext txn
    simp only [State.ends, hwriter, Option.any_some, true_and]
  rw [hends]
  split
  · rename_i hmem
    simp only [hmem, decide_true, Bool.and_true]
  · rename_i hmem
    simp only [hmem, decide_false, Bool.and_false]
    exact settling_false s res

/-- What is left of the condition for a holder that does not lose everything. -/
def State.Untouched (s : State) (a : Act) (token : Token) : Prop :=
  (∀ res, s.ownerOf res token ≠ none → (res, token) ∉ s.dropped a ∧ s.reduced a res = none) ∨
  ∃ res, s.ownerOf res token ≠ none ∧
    (res, token) ∉ s.dropped a ∧ 0 < (s.reduced a res).getD (s.pagesAt res)

theorem State.Spared.untouched {a : Act} (h : s.Spared a token)
    (hlasts : (∀ res, s.ownerOf res token ≠ none → (res, token) ∈ s.dropped a) →
      ¬ s.Holds token) : s.Untouched a token := by
  rcases h with hnone | hall | ⟨res, hres, hspare⟩
  · exact Or.inl fun res hres => hnone res (mem_holdings.mpr hres)
  · have hempty := hlasts fun res hres => hall res (mem_holdings.mpr hres)
    exact Or.inl fun res hres => absurd ⟨res, hres⟩ hempty
  · exact Or.inr ⟨res, mem_holdings.mp hres, hspare⟩

theorem State.Untouched.safeDrop {a : Act} {u : State} (h : s.Untouched a token)
    (howner : ∀ r, u.ownerOf r token = s.ownerOf r token)
    (hpages : ∀ r, (s.reduced a r).getD (s.pagesAt r) ≤ u.pagesAt r) :
    u.SafeDrop token (s.dropped a) := by
  rcases h with hnone | ⟨res, hres, hnot, hpos⟩
  · refine Or.inl fun pair hpair htoken => ?_
    by_contra hheld
    rw [howner] at hheld
    exact (hnone pair.1 hheld).1 (htoken ▸ hpair)
  · exact Or.inr ⟨res, (howner res).symm ▸ hres, hpos.trans_le (hpages res), hnot⟩

theorem bounded_handleDown (h : Books e s) (he : ∀ token, 0 ≤ e token) {pid : Pid} {mon : Ref}
    (hok : s.Untouched (.down pid mon) token) : Bounded token max s (s.handleDown pid mon) := by
  have hforget : ∀ u : State, Books e u → SameHolders s u → Bounded token max s u →
      (∀ r, (s.reduced (.down pid mon) r).getD (s.pagesAt r) ≤ u.pagesAt r) →
      Bounded token max s (u.forgetHolder pid mon) := by
    intro u hu hsame hbounded hpages
    unfold State.forgetHolder
    split
    · rename_i hmon
      have hdropped : s.dropped (.down pid mon) = (u.heldBy pid).keys := by
        rw [hsame.mons] at hmon
        rw [State.dropped, if_pos hmon, State.heldBy, State.heldBy, hsame.held]
      have hsafe : u.SafeDrop token (s.dropped (.down pid mon)) :=
        hok.safeDrop (fun r => hsame.ownerOf r token) hpages
      rw [hdropped] at hsafe
      exact (hbounded.trans (quiet_unwatch u pid).bounded).trans
        (bounded_dropAll he _ _ (hu.quiet (quiet_unwatch u pid)) hsafe)
    · exact hbounded
  have hrefl := hforget s h (.refl s) (.refl s) fun r => settling_le h r _
  unfold State.handleDown
  dsimp only
  split
  · rename_i mon' rs hwriter
    split
    · rename_i hmon
      subst hmon
      set t : State := { s with writers := s.writers.erase pid } with ht
      have hbooks : Books e t := h.same rfl rfl rfl rfl rfl rfl le_rfl
      have hsame : SameHolders s t := .of_eq rfl rfl rfl
      have hreduced : ∀ r, s.reduced (.down pid mon') r =
          if r ∈ rs.keys then t.settling r fun txn => txn.pid = pid else none :=
        fun r => settling_ends_down s pid hwriter r
      have hkeeps : ∀ r, (s.reduced (.down pid mon') r).getD (s.pagesAt r) =
          t.keeps pid rs.keys r := by
        intro r
        rw [hreduced, State.keeps]
        split <;> rfl
      have hsafe : t.Safe pid rs.keys token := by
        rcases hok with hnone | ⟨res, hres, -, hpos⟩
        · refine Or.inl fun r hr hheld => ?_
          have hred := (hnone r hheld).2
          rwa [hreduced, if_pos hr] at hred
        · exact Or.inr ⟨res, hres, hkeeps res ▸ hpos⟩
      refine hforget _ (Books.writersGone he pid _ _ hbooks)
        (hsame.trans (sameHolders_writersGone _ _ _)) ?_ fun r => ?_
      · have hwriters : Bounded token max s t := .of_eq rfl rfl rfl
        exact hwriters.trans (bounded_writersGone he pid t hbooks rs.keys_nodup hsafe)
      · rw [hkeeps]
        exact keeps_writersGone he pid r t hbooks rs.keys_nodup
    · exact hrefl
  · exact hrefl

theorem reduced_le (h : Books e s) (a : Act) (r : Resource) :
    (s.reduced a r).getD (s.pagesAt r) ≤ s.pagesAt r := by
  unfold State.reduced
  split
  · split
    · cases s.measured r with
      | none => exact le_rfl
      | some want =>
        rw [Option.filter_some]
        split
        · rename_i hlt
          exact (of_decide_eq_true hlt).le
        · exact le_rfl
    · exact le_rfl
  · exact settling_le h r _

theorem State.Untouched.spare {a : Act} (h : s.Untouched a token) (hbooks : Books e s)
    (hheld : s.ownerOf res token ≠ none) {left : ℕ} (hreduced : s.reduced a res = some left) :
    s.Spare token res left := by
  rcases h with hnone | ⟨r, hr, -, hpos⟩
  · rw [(hnone res hheld).2] at hreduced
    simp at hreduced
  · by_cases heq : r = res
    · subst heq
      rw [hreduced, Option.getD_some] at hpos
      exact Or.inl hpos
    · exact Or.inr ⟨r, heq, hr, hpos.trans_le (reduced_le hbooks a r)⟩

theorem bounded_txnAbort (h : Books e s) (he : ∀ token, 0 ≤ e token) {caller : Caller}
    {opId : Ref} (hok : s.Untouched (.call caller (.txnAbort res opId)) token) :
    Bounded token max s (s.txnAbort caller.1 res opId) := by
  unfold State.txnAbort
  split
  · exact bounded_forgetOutcome _ _ _ _
  · rename_i row m acc hmem
    obtain ⟨hrow, hbody⟩ := memoryRow_eq_some.mp hmem
    split
    · rename_i txn htxn
      split
      · rename_i hop
        refine bounded_settle h he hrow hbody htxn fun before hbefore hheld => ?_
        refine hok.spare h hheld ?_
        have hends : s.ends (.call caller (.txnAbort res opId)) res txn = true :=
          decide_eq_true ⟨rfl, hop⟩
        show s.settling res _ = _
        rw [settling_of_memoryRow hmem, htxn, Option.filter_some, if_pos hends, Option.bind_some,
          hbefore]
      · exact bounded_forgetOutcome _ _ _ _
    · exact bounded_forgetOutcome _ _ _ _

/-- A heap measured smaller gives its pages back; one measured larger is charged, whatever the
ceiling says. -/
theorem capped_reconcile (h : Books e s) (he : ∀ token, 0 ≤ e token) {caller : Caller}
    {ceiling : Option ℕ} {extra : ℕ}
    (hok : s.Untouched (.call caller (.reconcile res ceiling extra)) token)
    (hcap : s.Capped token max) : (s.reconcile res ceiling extra).2.Capped token max := by
  unfold State.reconcile
  split
  · exact hcap
  · rename_i row hrow
    split
    · rename_i objs elems hbody
      have hpages : s.pagesAt res = row.pages := pagesAt_of_lookup hrow
      set want := pagesOf (s.wordsOf objs + s.wordsOf elems) with hwant
      have hmeasured : s.measured res = some want := by
        rw [State.measured, hrow, Option.map_some, hbody]
      unfold State.doResize
      rw [hrow]
      simp only
      split
      · rename_i hlt
        have hreduced : s.reduced (.call caller (.reconcile res ceiling extra)) res =
            some want := by
          rw [State.reduced, if_pos rfl, hmeasured, Option.filter_some, hpages,
            if_pos (decide_eq_true hlt)]
        have hsub : Bounded token max s
            (row.holders.keys.foldl (fun s t => s.subTotal t (row.pages - want : ℕ))
              ((s.putRow res { row with pages := want }).releasePages (row.pages - want : ℕ))) := by
          refine Bounded.trans ?_ (bounded_subTotals row.holders.keys_nodup ?_ _ fun hmem => ?_)
          · exact .of_eq rfl rfl rfl
          · exact Int.natCast_nonneg _
          · have hheld := mem_holders_keys.mp hmem
            have howner : s.ownerOf res token ≠ none := by
              rw [ownerOf_of_lookup hrow]
              exact Option.isSome_iff_ne_none.mp hheld
            refine h.lt_total he hrow hheld (by omega) ?_
            refine (hok.spare h howner hreduced).imp_left fun hpos => ?_
            omega
        exact (hsub hcap).1
      · rw [grow_snd]
        obtain ⟨hcaps, hcapRows⟩ := caps_addTotals row.holders.keys (want - row.pages : ℕ)
          ({ s with pages := s.pages + (want - row.pages : ℕ) }.putRow res
            { row with pages := want })
        exact ⟨(congrArg (AList.lookup token) hcaps).trans hcap.caps,
          (congrArg (AList.lookup token) hcapRows).trans hcap.capRows⟩
    · exact hcap

/-! ## Ceilings that move -/

theorem capped_retag {src dst : Token} (hne : token ≠ src) (owner : Option Pid) (res : Resource)
    (hcap : s.Capped token max) : (s.retag src dst owner res).Capped token max := by
  unfold State.retag
  split
  · exact hcap
  · rename_i row hrow
    split
    · exact hcap
    · rename_i old hsrc
      dsimp only
      set u := s.putRow res { row with holders := (row.holders.erase src).insert dst owner } with hu
      have hput : u.Capped token max := ⟨hcap.caps, hcap.capRows⟩
      have hsub : (u.subTotal src row.counted).Capped token max :=
        (bounded_subTotal u src row.counted_nonneg (fun heq => absurd heq.symm hne) hput).1
      have hadd : ((u.subTotal src row.counted).addTotal dst row.counted).Capped token max :=
        ⟨hsub.caps, hsub.capRows⟩
      have hquiet := (quiet_unhold ((u.subTotal src row.counted).addTotal dst row.counted) res src
        old).trans (quiet_watch _ res dst owner)
      exact (hquiet.bounded hadd).1

theorem capped_retags {src dst : Token} (hne : token ≠ src) (owner : Option Pid)
    (moved : List Resource) : ∀ s : State, s.Capped token max →
      (moved.foldl (fun (s : State) r => s.retag src dst owner r) s).Capped token max := by
  induction moved with
  | nil => exact fun s hcap => hcap
  | cons r moved ih => exact fun s hcap => ih _ (capped_retag hne owner r hcap)

theorem capped_forgetCap {t : Token} (hne : token ≠ t) (hcap : s.Capped token max) :
    (s.forgetCap t).Capped token max :=
  ⟨(AList.lookup_erase_ne hne).trans hcap.caps, (AList.lookup_erase_ne hne).trans hcap.capRows⟩

theorem capped_moveCap {src dst : Token} (hsrc : token ≠ src)
    (hdst : token ≠ dst ∨ s.caps.lookup src = none) (hcap : s.Capped token max) :
    (s.moveCap src dst).Capped token max := by
  unfold State.moveCap
  cases hlookup : s.caps.lookup src with
  | none => exact ⟨hcap.caps, hcap.capRows⟩
  | some m =>
    have hne : token ≠ dst := hdst.resolve_right (by rw [hlookup]; exact Option.some_ne_none m)
    refine ⟨?_, ?_⟩
    · rw [AList.lookup_insert_ne hne, AList.lookup_erase_ne hsrc, hcap.caps]
    · rw [AList.lookup_insert_ne hne, AList.lookup_erase_ne hsrc, hcap.capRows]

/-- A ceiling moves with the resources it bounds. -/
theorem capped_moved {src dst : Token} {pid : Pid} (owner : Option Pid) (hne : src ≠ dst)
    (hmoved : s.heldUnder pid src ≠ []) (hcap : s.Capped src max) :
    (s.transfer pid src dst owner).Capped dst max := by
  unfold State.transfer
  dsimp only
  rw [if_neg hmoved]
  refine capped_retags hne.symm owner _ _ ?_
  unfold State.moveCap
  rw [hcap.caps]
  exact ⟨AList.lookup_insert _, AList.lookup_insert _⟩

theorem capped_transfer {src dst : Token} {pid : Pid} (owner : Option Pid) (hsrc : token ≠ src)
    (hdst : token ≠ dst ∨ s.caps.lookup src = none ∨ s.heldUnder pid src = [])
    (hcap : s.Capped token max) : (s.transfer pid src dst owner).Capped token max := by
  unfold State.transfer
  dsimp only
  refine capped_retags hsrc owner _ _ ?_
  split
  · exact capped_forgetCap hsrc hcap
  · rename_i hmoved
    refine capped_moveCap hsrc ?_ hcap
    exact hdst.imp_right fun h => h.resolve_right hmoved

theorem ownerOf_retags {src dst : Token} (hne : src ≠ dst) (owner : Option Pid)
    (moved : List Resource) (r : Resource) : ∀ s : State,
      (moved.foldl (fun (s : State) res => s.retag src dst owner res) s).ownerOf r src =
        if r ∈ moved then none else s.ownerOf r src := by
  induction moved with
  | nil => exact fun s => (if_neg List.not_mem_nil).symm
  | cons res moved ih =>
    intro s
    rw [List.foldl_cons, ih]
    have hone : (s.retag src dst owner res).ownerOf r src =
        if r = res then none else s.ownerOf r src := by
      rcases retag_cases s src res with hnot | ⟨row, old, hrow, hsrc⟩
      · rw [retag_of_not_held src dst owner hnot]
        split
        · rename_i hr
          subst hr
          cases hrow : s.rows.lookup r with
          | none => exact ownerOf_of_none hrow
          | some row => rw [ownerOf_of_lookup hrow, hnot row hrow]
        · rfl
      · rw [ownerOf_retag src dst owner hrow hsrc]
        simp [hne]
    rw [hone]
    by_cases hr : r = res
    · simp [hr]
    · simp [hr]

/-! ## The step lemma -/

theorem step_call {caller : Caller} {req : Request} (hs : step s (.call caller req) = some s') :
    s' = (s.handleCall caller req).2 ∨ ∃ r, s' = (s.handleCall caller req).2.reply caller r := by
  simp only [Keeper.step] at hs
  split at hs
  · exact Or.inr ⟨_, (Option.some.inj hs).symm⟩
  · exact Or.inl (Option.some.inj hs).symm

theorem ownerOf_handleDown (s : State) (pid : Pid) (mon : Ref) (r : Resource) (t : Token) :
    (s.handleDown pid mon).ownerOf r t =
      if (r, t) ∈ s.dropped (.down pid mon) then none else s.ownerOf r t := by
  have hforget : ∀ u : State, SameHolders s u → (u.forgetHolder pid mon).ownerOf r t =
      if (r, t) ∈ s.dropped (.down pid mon) then none else s.ownerOf r t := by
    intro u hsame
    have hheld : u.heldBy pid = s.heldBy pid := by
      rw [State.heldBy, State.heldBy, hsame.held]
    unfold State.forgetHolder
    rw [State.dropped, hsame.mons, hheld]
    split
    · rw [ownerOf_dropAll]
      exact congrArg _ (hsame.ownerOf r t)
    · rw [if_neg List.not_mem_nil, hsame.ownerOf]
  unfold State.handleDown
  dsimp only
  split
  · rename_i mon' rs _
    split
    · have herase : SameHolders s { s with writers := s.writers.erase pid } := .of_eq rfl rfl rfl
      exact hforget _ (herase.trans (sameHolders_writersGone pid rs.keys _))
    · exact hforget s (.refl s)
  · exact hforget s (.refl s)

theorem not_holds_of_dropped {pairs : List (Resource × Token)} {u : State}
    (howner : ∀ r, u.ownerOf r token = if (r, token) ∈ pairs then none else s.ownerOf r token)
    (hall : ∀ r, s.ownerOf r token ≠ none → (r, token) ∈ pairs) : ¬ u.Holds token := by
  rintro ⟨r, hr⟩
  rw [howner] at hr
  split at hr
  · exact hr rfl
  · rename_i hnot
    exact hnot (hall r hr)

/-- A message that may not take a holder past its ceiling. -/
def Bounding : Act → Prop
  | .call _ (.transfer ..) | .call _ (.reconcile ..) => False
  | _ => True

/-- The holder goes on: it holds something after the step, or held nothing before it and is not the
build the step ends. -/
def Lasts (s s' : State) (a : Act) (token : Token) : Prop :=
  s'.Holds token ∨ ¬ s.Holds token ∧ ¬ Renounces a token

theorem mem_caps_keys (hcap : s.Capped token max) : token ∈ s.caps.keys := by
  rw [← AList.mem_keys, ← AList.lookup_isSome, hcap.caps]
  rfl

theorem untouched_of_lasts {a : Act} (hspared : s.Spared a token)
    (howner : ∀ r, s'.ownerOf r token =
      if (r, token) ∈ s.dropped a then none else s.ownerOf r token)
    (hlasts : Lasts s s' a token) : s.Untouched a token := by
  refine hspared.untouched fun hall => ?_
  rcases hlasts with hholds | hlasts
  · exact absurd hholds (not_holds_of_dropped howner hall)
  · exact hlasts.1

theorem untouched_of_dropped_nil {a : Act} (hspared : s.Spared a token)
    (hnil : s.dropped a = []) : s.Untouched a token := by
  refine hspared.untouched fun hall => ?_
  rintro ⟨r, hr⟩
  have hmem := hall r hr
  rw [hnil] at hmem
  exact List.not_mem_nil hmem

theorem bounded_handleCall (h : Books e s) (he : ∀ token, 0 ≤ e token) {caller : Caller}
    {req : Request} (hok : Spares s (.call caller req)) (hcap : s.Capped token max)
    (hnot : ¬ Replaces s (.call caller req) token) (hbounding : Bounding (.call caller req))
    (hlasts : Lasts s (s.handleCall caller req).2 (.call caller req) token) :
    Bounded token max s (s.handleCall caller req).2 := by
  have hmem := mem_caps_keys hcap
  cases req with
  | setLimit t m =>
    have hne : token ≠ t := fun heq => hnot heq.symm
    intro _
    exact ⟨⟨(AList.lookup_insert_ne hne).trans hcap.caps,
      (AList.lookup_insert_ne hne).trans hcap.capRows⟩, Or.inr le_rfl⟩
  | totalOf t => exact .refl s
  | reserve pages kind t owner limit => exact bounded_reserve s pages kind t owner limit
  | acquire res t owner limit => exact bounded_acquire s res t owner limit
  | release res t =>
    have hspared := hok token hmem
    have howner : ∀ r, (s.drop res t).ownerOf r token =
        if (r, token) ∈ [(res, t)] then none else s.ownerOf r token :=
      fun r => ownerOf_dropAll [(res, t)] r token s
    have hsafe := (untouched_of_lasts hspared howner hlasts).safeDrop (fun _ => rfl)
      (reduced_le h _)
    exact bounded_dropAll he [(res, t)] s h hsafe
  | releaseAll pairs =>
    have hspared := hok token hmem
    have howner : ∀ r, (s.dropAll pairs).ownerOf r token =
        if (r, token) ∈ pairs then none else s.ownerOf r token :=
      fun r => ownerOf_dropAll pairs r token s
    have hsafe := (untouched_of_lasts hspared howner hlasts).safeDrop (fun _ => rfl)
      (reduced_le h _)
    exact bounded_dropAll he pairs s h hsafe
  | discard t =>
    set pairs := (s.heldUnder caller.1 t).map fun res => (res, t) with hpairs
    by_cases ht : token = t
    · -- the discarded build holds nothing afterwards, so its ceiling need not last
      subst ht
      have howner : ∀ r, (s.discard caller.1 token).ownerOf r token =
          if (r, token) ∈ pairs then none else s.ownerOf r token :=
        fun r => ownerOf_dropAll pairs r token s
      have hall : ∀ r, s.ownerOf r token ≠ none → (r, token) ∈ pairs := fun r hr =>
        List.mem_map.mpr ⟨r, hok hmem r (mem_holdings.mpr hr), rfl⟩
      rcases hlasts with hholds | ⟨-, hrenounces⟩
      · exact absurd hholds (not_holds_of_dropped howner hall)
      · exact absurd rfl hrenounces
    · have hsafe : s.SafeDrop token pairs := by
        refine Or.inl fun pair hpair htoken => ?_
        obtain ⟨r, -, rfl⟩ := List.mem_map.mp hpair
        exact absurd htoken.symm ht
      refine (bounded_dropAll he pairs s h hsafe).trans fun hcap' => ?_
      exact ⟨capped_forgetCap ht hcap', Or.inr le_rfl⟩
  | transfer src dst owner | reconcile res ceiling extra => exact absurd hbounding id
  | imageReserve bytes owner id => exact bounded_imageReserve s bytes owner id
  | begin res opId req => exact bounded_transaction s res _
  | growCommit res opId chunks => exact bounded_growCommit s _ _ _ _
  | arenaCommit res opId arena => exact bounded_arenaCommit s _ _ _ _
  | txnAbort res opId =>
    exact bounded_txnAbort h he (untouched_of_dropped_nil (hok token hmem) rfl)

theorem Lasts.of_reply {u : State} {caller : Caller} {r : Reply} {a : Act}
    (h : Lasts s (u.reply caller r) a token) : Lasts s u a token := h

/-- A ceiling set for `token`, or kept by it, stays through a step that spares it. -/
theorem bounded_step (h : Books e s) (he : ∀ token, 0 ≤ e token) {a : Act} (hok : Spares s a)
    (hs : step s a = some s') (hcap : s.Capped token max) (hnot : ¬ Replaces s a token)
    (hbounding : Bounding a) (hlasts : Lasts s s' a token) : Bounded token max s s' := by
  cases a with
  | call caller req =>
    rcases step_call hs with rfl | ⟨r, rfl⟩
    · exact bounded_handleCall h he hok hcap hnot hbounding hlasts
    · exact (bounded_handleCall h he hok hcap hnot hbounding hlasts.of_reply).trans
        (.of_eq rfl rfl rfl)
  | ack res opId pid => exact Option.some.inj hs ▸ bounded_forgetOutcome s res opId pid
  | down pid mon =>
    obtain rfl := Option.some.inj hs
    exact bounded_handleDown h he (untouched_of_lasts (hok token (mem_caps_keys hcap))
      (fun r => ownerOf_handleDown s pid mon r token) hlasts)
  | putCell ref tuple | putSize ref pages | putWords tab words | setPageLimit limit
  | setSnapshotLimit limit | seedSnapshotCounter => exact Option.some.inj hs ▸ .of_eq rfl rfl rfl

theorem capped_step (h : Books e s) (he : ∀ token, 0 ≤ e token) {a : Act} (hok : Spares s a)
    (hs : step s a = some s') (hcap : s.Capped token max) (hnot : ¬ Replaces s a token)
    (hlasts : Lasts s s' a token) : s'.Capped token max := by
  have hbounded := fun hbounding => (bounded_step h he hok hs hcap hnot hbounding hlasts hcap).1
  have hmem := mem_caps_keys hcap
  cases a with
  | call caller req =>
    have hcall : (s.handleCall caller req).2.Capped token max → s'.Capped token max := by
      intro hu
      rcases step_call hs with rfl | ⟨r, rfl⟩
      · exact hu
      · exact ⟨hu.caps, hu.capRows⟩
    have howner : ∀ r, s'.ownerOf r token = (s.handleCall caller req).2.ownerOf r token := by
      intro r
      rcases step_call hs with rfl | ⟨reply, rfl⟩
      · rfl
      · rfl
    cases req with
    | reconcile res ceiling extra =>
      exact hcall (capped_reconcile h he (untouched_of_dropped_nil (hok token hmem) rfl) hcap)
    | transfer src dst owner =>
      by_cases hsrc : token = src
      · -- the build's resources are all its own process's, so it holds nothing afterwards
        subst hsrc
        obtain ⟨hne, hall⟩ := hok hmem
        rcases hlasts with ⟨r, hr⟩ | ⟨-, hrenounces⟩
        · rw [howner] at hr
          have hgone : (s.transfer caller.1 token dst owner).ownerOf r token =
              if r ∈ s.heldUnder caller.1 token then none else s.ownerOf r token := by
            unfold State.transfer
            dsimp only
            rw [ownerOf_retags hne]
            have hcaps : (if s.heldUnder caller.1 token = [] then s.forgetCap token
                else s.moveCap token dst).ownerOf r token = s.ownerOf r token := by
              split <;> rfl
            rw [hcaps]
          rw [State.handleCall, hgone] at hr
          split at hr
          · exact absurd rfl hr
          · rename_i hnotMoved
            exact absurd (hall r (mem_holdings.mpr hr)) hnotMoved
        · exact absurd rfl hrenounces
      · refine hcall (capped_transfer owner hsrc ?_ hcap)
        by_contra hnone
        rw [not_or, not_or, not_not] at hnone
        obtain ⟨hdst, hsome, hmoved⟩ := hnone
        refine hnot ⟨hdst.symm, Ne.symm hsrc, ?_, hmoved⟩
        rw [← AList.mem_keys, ← AList.lookup_isSome, Option.isSome_iff_ne_none]
        exact hsome
    | _ => exact hbounded trivial
  | _ => exact hbounded trivial

/-! ## Ceilings set -/

theorem pendingCap_pendingCap (s : State) (t : Token) (limit : Option ℕ) :
    (s.pendingCap t limit).pendingCap t limit = s.pendingCap t limit := by
  cases limit with
  | none => rfl
  | some m =>
    simp only [State.pendingCap]
    split
    · rfl
    · rw [if_pos]
      rw [State.setCap, AList.lookup_insert]
      rfl

theorem capped_pendingCap (hnone : s.caps.lookup token = none) :
    (s.pendingCap token (some max)).Capped token max := by
  rw [State.pendingCap, hnone]
  exact ⟨AList.lookup_insert _, AList.lookup_insert _⟩

theorem capped_of_sets {a : Act} (hs : step s a = some s') (hsets : Sets s a token max) :
    s'.Capped token max := by
  cases a with
  | call caller req =>
    have hcall : (s.handleCall caller req).2.Capped token max → s'.Capped token max := by
      intro hu
      rcases step_call hs with rfl | ⟨r, rfl⟩
      · exact hu
      · exact ⟨hu.caps, hu.capRows⟩
    refine hcall ?_
    cases req with
    | setLimit t m =>
      obtain ⟨rfl, rfl⟩ := hsets
      exact ⟨AList.lookup_insert _, AList.lookup_insert _⟩
    | reserve pages kind t owner limit =>
      obtain ⟨rfl, rfl, hnone⟩ := hsets
      have hreserve : s.reserve pages kind t owner (some max) =
          (s.pendingCap t (some max)).reserve pages kind t owner (some max) := by
        unfold State.reserve
        rw [pendingCap_pendingCap]
      show (s.reserve pages kind t owner (some max)).2.Capped t max
      rw [hreserve]
      exact (bounded_reserve _ pages kind t owner _ (capped_pendingCap hnone)).1
    | acquire res t owner limit =>
      obtain ⟨rfl, rfl, hnone⟩ := hsets
      have hacquire : s.acquire res t owner (some max) =
          (s.pendingCap t (some max)).acquire res t owner (some max) := by
        unfold State.acquire
        rw [pendingCap_pendingCap]
      show (s.acquire res t owner (some max)).2.Capped t max
      rw [hacquire]
      exact (bounded_acquire _ res t owner _ (capped_pendingCap hnone)).1
    | _ => exact hsets.elim
  | _ => exact hsets.elim

/-! ## What a ceiling refuses -/

/-- No reservation, acquisition or growth takes the holder past `max`: the request is refused and
changes nothing. -/
structure State.Refuses (s : State) (token : Token) (max : ℕ) : Prop where
  reserve : ∀ (pages : ℕ) kind owner limit, (max : ℤ) < s.logical token + pages →
    s.reserve pages kind token owner limit = (.error .instanceLimit, s)
  acquire : ∀ res row owner limit, s.rows.lookup res = some row → row.retiring = false →
    row.holders.lookup token = none → (max : ℤ) < s.logical token + row.counted →
      s.acquire res token owner limit = (.error .instanceLimit, s)
  grow : ∀ res row m acc caller opId (delta ceiling : ℕ), s.memoryRow res = some (row, m, acc) →
    (row.holders.lookup token).isSome → acc.txn = none → acc.outcomeOf caller.1 opId = none →
    (max : ℤ) < s.logical token + delta →
      ∃ e, s.transaction res { caller, opId, request := .growBegin delta ceiling } =
        (some (.error e), s)

theorem pendingCap_of_capped (hcap : s.Capped token max) (limit : Option ℕ) :
    s.pendingCap token limit = s := by
  cases limit with
  | none => rfl
  | some m =>
    rw [State.pendingCap, if_pos]
    rw [hcap.caps]
    rfl

theorem refuses_of_capped (h : Books e s) (he : ∀ token, 0 ≤ e token)
    (hcap : s.Capped token max) : s.Refuses token max := by
  have hover : ∀ n : ℕ, (max : ℤ) < s.logical token + n → s.within token n = false := by
    intro n hn
    refine within_eq_false hcap (hn.trans_le ?_)
    have htotal := h.totals token
    have hpos := he token
    omega
  refine ⟨fun pages kind owner limit hn => ?_, fun res row owner limit hrow hretiring hnone hn => ?_,
    fun res row m acc caller opId delta ceiling hmem hheld htxn hdone hn => ?_⟩
  · unfold State.reserve
    rw [pendingCap_of_capped hcap]
    simp only [hover pages hn, Bool.false_eq_true, not_false_eq_true, if_true]
  · have hwithin : s.within token row.pages = false :=
      hover row.pages ((h.rows res row hrow).counted_eq ▸ hn)
    unfold State.acquire
    rw [pendingCap_of_capped hcap]
    simp only [hrow, hretiring, hnone, hwithin, Option.isSome_none, Bool.false_eq_true, if_false,
      not_false_eq_true, if_true]
  · have hall : (row.holders.keys.all fun token => s.within token delta) = false := by
      rw [List.all_eq_false]
      refine ⟨token, mem_holders_keys.mpr hheld, ?_⟩
      rw [hover delta hn]
      exact Bool.false_ne_true
    unfold State.transaction
    rw [hmem]
    by_cases hretiring : row.retiring = true
    · refine ⟨.gone, ?_⟩
      simp only [hretiring, if_true]
    · simp only [hretiring, Bool.false_eq_true, if_false, hdone, htxn, State.start,
        State.startGrow, hall, not_false_eq_true, if_true]
      split
      · exact ⟨_, rfl⟩
      · exact ⟨_, rfl⟩

theorem logical_of_not_holds (h : ¬ s.Holds token) : s.logical token = 0 := by
  refine Table.total_eq_zero fun r row hrow => ?_
  have hnone : s.ownerOf r token = none := by
    by_contra hr
    exact h ⟨r, hr⟩
  rw [ownerOf_of_lookup hrow] at hnone
  rw [Row.share, hnone]
  rfl

/-! ## Ceilings kept -/

theorem books_of_reachableIf {ok : State → Act → Prop}
    (h : Run.ReachableIf step ok State.init s) : ∃ e, (∀ token, 0 ≤ e token) ∧ Books e s :=
  books_of_reachable (h.mono fun _ _ _ => trivial)

theorem capped_of_promised (h : Promised Spares s token max) : s.Capped token max := by
  induction h with
  | set hs hok h hsets => exact capped_of_sets h hsets
  | @moved s s' caller src dst owner max hp hok h hmoved ih =>
    obtain ⟨hne, -⟩ := hok (mem_caps_keys ih)
    have htransfer := capped_moved owner hne hmoved ih
    rcases step_call h with rfl | ⟨r, rfl⟩
    · exact htransfer
    · exact ⟨htransfer.caps, htransfer.capRows⟩
  | kept hp hok h hnot hlasts ih =>
    obtain ⟨e, he, hbooks⟩ := books_of_reachableIf hp.reachable
    exact capped_step hbooks he hok h ih hnot hlasts

/-- Only a heap measured larger, or resources transferred to it, take a holder past its ceiling. -/
theorem logical_le_of_bounding (h : Books e s) (he : ∀ token, 0 ≤ e token) {a : Act}
    (hok : Spares s a) (hbounding : Bounding a) (hs : step s a = some s')
    (hcap : s.Capped token max) (hover : (max : ℤ) < s'.logical token) :
    s'.logical token ≤ s.logical token := by
  have hholds : s'.Holds token := by
    by_contra hnone
    rw [logical_of_not_holds hnone] at hover
    exact absurd hover (not_lt.mpr (Int.natCast_nonneg max))
  have htotals : s'.total token ≤ max ∨ s'.total token ≤ s.total token := by
    by_cases hnot : Replaces s a token
    · cases a with
      | call caller req =>
        cases req with
        | setLimit t m =>
          rcases step_call hs with rfl | ⟨r, rfl⟩
          · exact Or.inr le_rfl
          · exact Or.inr le_rfl
        | transfer src dst owner => exact absurd hbounding id
        | _ => exact hnot.elim
      | _ => exact hnot.elim
    · exact (bounded_step h he hok hs hcap hnot hbounding (Or.inl hholds) hcap).2
  obtain ⟨e', -, hbooks', hsame⟩ := h.step he hs
  have hundoubling : Undoubling s a := by
    unfold Undoubling
    split
    · exact absurd hbounding id
    · trivial
  rw [hsame hundoubling] at hbooks'
  have hafter := hbooks'.totals token
  have hbefore := h.totals token
  have hpos := he token
  omega

theorem ceiling_of_promised (h : Promised Spares s token max) :
    s.caps.lookup token = some max ∧ s.capRows.lookup token = some max ∧ s.Refuses token max ∧
      ∀ a s', Spares s a → Bounding a → step s a = some s' → (max : ℤ) < s'.logical token →
        s'.logical token ≤ s.logical token := by
  have hcap := capped_of_promised h
  obtain ⟨e, he, hbooks⟩ := books_of_reachableIf h.reachable
  exact ⟨hcap.caps, hcap.capRows, refuses_of_capped hbooks he hcap,
    fun a s' hok hbounding hs hover => logical_le_of_bounding hbooks he hok hbounding hs hcap hover⟩

/-- A build reserves a memory of two pages under a ceiling of four. -/
def reserveForBuild : Act :=
  .call (1, 0) (.reserve 2 (.memory plainMemory) (.build 7) (some 1) (some 4))

/-- The build succeeds, and what it holds becomes the instance's. -/
def becomeInstance : Act := .call (1, 1) (.transfer (.build 7) (.ofInstance 8) (some 1))

theorem ceiling_becomeInstance : ∃ s s', step State.init reserveForBuild = some s ∧
    step s becomeInstance = some s' ∧ s'.total (.ofInstance 8) = 2 ∧
    s'.caps.lookup (.ofInstance 8) = some 4 ∧ s'.capRows.lookup (.ofInstance 8) = some 4 ∧
      s'.Refuses (.ofInstance 8) 4 ∧
      ∀ a s'', Spares s' a → Bounding a → step s' a = some s'' →
        ((4 : ℕ) : ℤ) < s''.logical (.ofInstance 8) →
          s''.logical (.ofInstance 8) ≤ s'.logical (.ofInstance 8) := by
  have hset : ∀ s, step State.init reserveForBuild = some s → Promised Spares s (.build 7) 4 :=
    fun s hs => .set .init (by decide +kernel) hs ⟨rfl, rfl, rfl⟩
  have hmoved : ∀ s s', step State.init reserveForBuild = some s →
      step s becomeInstance = some s' → Spares s becomeInstance → s.heldUnder 1 (.build 7) ≠ [] →
        Promised Spares s' (.ofInstance 8) 4 :=
    fun s s' hs hs' hok hmoved => .moved (hset s hs) hok hs' hmoved
  exact ⟨_, _, rfl, rfl, by decide +kernel,
    ceiling_of_promised (hmoved _ _ rfl rfl (by decide +kernel) (by decide +kernel))⟩

/-- A memory of no pages under a ceiling of two, and a growth of one page that is aborted: the
ceiling goes with the page that was never there. -/
theorem not_ceiling : ¬ ∀ s token max, Promised (fun _ _ => True) s token max →
    s.caps.lookup token = some max := by
  intro hall
  have hset : ∀ s, step State.init (.call (1, 0) (.setLimit (.ofInstance 8) 2)) = some s →
      Promised (fun _ _ => True) s (.ofInstance 8) 2 :=
    fun s hs => .set .init trivial hs ⟨rfl, rfl⟩
  have hkept : ∀ s s' a, step s a = some s' → ¬ Replaces s a (.ofInstance 8) →
      s'.ownerOf 0 (.ofInstance 8) ≠ none → Promised (fun _ _ => True) s (.ofInstance 8) 2 →
        Promised (fun _ _ => True) s' (.ofInstance 8) 2 :=
    fun s s' a hs hnot hholds hp => .kept hp trivial hs hnot (Or.inl ⟨0, hholds⟩)
  have hrun : ∃ s₁ s₂ s₃ s₄,
      step State.init (.call (1, 0) (.setLimit (.ofInstance 8) 2)) = some s₁ ∧
      step s₁ (.call (1, 1)
        (.reserve 0 (.memory plainMemory) (.ofInstance 8) (some 1) none)) = some s₂ ∧
      s₂.ownerOf 0 (.ofInstance 8) ≠ none ∧
      step s₂ (.call (1, 2) (.begin 0 50 (.growBegin 1 10))) = some s₃ ∧
      s₃.ownerOf 0 (.ofInstance 8) ≠ none ∧
      step s₃ (.call (1, 3) (.txnAbort 0 50)) = some s₄ ∧
      s₄.ownerOf 0 (.ofInstance 8) ≠ none ∧ s₄.caps.lookup (.ofInstance 8) = none :=
    ⟨_, _, _, _, rfl, rfl, by decide +kernel, rfl, by decide +kernel, rfl, by decide +kernel,
      by decide +kernel⟩
  obtain ⟨s₁, s₂, s₃, s₄, h₁, h₂, hholds₂, h₃, hholds₃, h₄, hholds₄, hnone⟩ := hrun
  have hp := hkept _ _ _ h₄ id hholds₄
    (hkept _ _ _ h₃ id hholds₃ (hkept _ _ _ h₂ id hholds₂ (hset s₁ h₁)))
  have hcaps := hall s₄ _ _ hp
  rw [hnone] at hcaps
  simp at hcaps

end ErlangWasm.Keeper
