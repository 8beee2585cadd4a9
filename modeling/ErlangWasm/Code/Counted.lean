import ErlangWasm.Code.Slots
import ErlangWasm.Reasoning.Counting

/-!
# The arithmetic of one slot's counter

A call lease is an anonymous one in the counter, and a repair replaces whatever ones are there.
`countedOn n` is how many calls still have theirs in the counter of slot `n`, living or dead.  As
long as only these give one back, the counter is their number, and `?EXCL` on top while the slot is
reserved.
-/

namespace ErlangWasm.Code

open Reasoning Reasoning.Atomics

variable {rt : Node} {s s' : State}

theorem excl_pos : 0 < excl := by
  unfold excl
  decide

theorem two_excl_lt : 2 * excl < wordSize := by
  unfold excl wordSize
  decide

/-- The slot the server holds beside the table. -/
def Pc.holds : Pc → Option Name
  | .purgeable _ n _ => some n
  | .unpurged _ n _ => some n
  | .reserve _ n => some n
  | .releaseHold n => some n
  | _ => none

/-- The names a claim may still take. -/
def Pc.names : Pc → List Name
  | .reusable _ names => names
  | .repairPurgeable _ n _ rest => n :: rest
  | .repairExchange _ n _ rest => n :: rest
  | .purgeable _ n rest => n :: rest
  | .unpurged _ n rest => n :: rest
  | .reserve _ n => [n]
  | _ => []

/-- `soft_purge` has answered for this slot, and the claim goes on with it. -/
def Pc.purged : Pc → Option Name
  | .repairExchange _ n _ _ => some n
  | .reserve _ n => some n
  | _ => none

namespace State

/-- Reserved: by the row, or by the server before the row is written and after. -/
def reserved (s : State) (n : Name) : Prop :=
  (s.table n).isLoading = true ∨ s.server.holds = some n

instance (s : State) (n : Name) : Decidable (s.reserved n) :=
  inferInstanceAs (Decidable (_ ∨ _))

def countedOn (s : State) (n : Name) : ℕ :=
  s.calls.countP fun c => c.slot = n && c.counted

/-- From `soft_purge`'s yes to the loading of the new code. -/
def emptied (s : State) (n : Name) : Prop :=
  s.server.purged = some n ∨ ((s.table n).isLoading = true ∧ s.filled n = false)

/-- The counter is the calls counted in it, plus `?EXCL` while the slot is reserved; and from the
purge to the load nobody runs old code of the slot. -/
structure Counted (s : State) : Prop where
  counter : ∀ n, s.counter n = (if s.reserved n then excl else 0) + s.countedOn n
  bound : ∀ n, s.countedOn n < excl
  names : ∀ n ∈ s.server.names, (s.table n).empty = true
  settled : ∀ n, s.server = .releaseHold n → (s.table n).isLoading = false
  emptied : ∀ n, s.emptied n → s.runsOld n = false
  versions : ∀ c ∈ s.calls, ∀ v, c.stage = .running v → v ≤ s.version c.slot

end State

open State

theorem isLoading_of_empty {r : Row} (h : r.empty = true) : r.isLoading = false := by
  cases hr : r.state <;> simp_all [Row.empty, Row.isLoading]

/-! ## Processes -/

theorem runsOld_eq_true {n : Name} : s.runsOld n = true ↔
    ∃ c ∈ s.calls, c.slot = n ∧ s.alive c.pid = true ∧
      ∃ v, c.stage = .running v ∧ v ≠ s.version n := by
  unfold State.runsOld
  rw [List.any_eq_true]
  constructor
  · rintro ⟨c, hc, hb⟩
    simp only [Bool.and_eq_true, decide_eq_true_eq] at hb
    obtain ⟨⟨hslot, halive⟩, hrun⟩ := hb
    refine ⟨c, hc, hslot, halive, ?_⟩
    cases hstage : c.stage with
    | running v => exact ⟨v, rfl, by simpa [hstage] using hrun⟩
    | stale | check key | inside => simp [hstage] at hrun
  · rintro ⟨c, hc, hslot, halive, v, hstage, hv⟩
    exact ⟨c, hc, by simp [hslot, halive, hstage, hv]⟩

/-- A slot whose old code nobody runs is not run by a step that neither loads code nor starts a
process in any but the newest. -/
theorem runsOld_false_of {n : Name} (hversion : s'.version n = s.version n)
    (halive : ∀ p, s'.alive p = true → s.alive p = true)
    (hcalls : ∀ c ∈ s'.calls, ∀ v, c.stage = .running v → v = s.version c.slot ∨
      ∃ c' ∈ s.calls, c'.slot = c.slot ∧ c'.pid = c.pid ∧ c'.stage = c.stage)
    (h : s.runsOld n = false) : s'.runsOld n = false := by
  rw [← Bool.not_eq_true, runsOld_eq_true] at h ⊢
  rintro ⟨c, hc, hslot, hc_alive, v, hstage, hv⟩
  rcases hcalls c hc v hstage with hnew | ⟨c', hc', hslot', hpid', hstage'⟩
  · rw [hversion, ← hslot] at hv
    exact hv hnew
  · apply h
    refine ⟨c', hc', hslot'.trans hslot, ?_, v, hstage'.trans hstage, hversion ▸ hv⟩
    rw [hpid']
    exact halive _ hc_alive

theorem countedOn_perm {l : List Call} {c : Call} {n : Name}
    (hperm : s.calls.Perm (c :: l)) (hl : s'.calls = l) :
    s.countedOn n = s'.countedOn n + if c.slot = n ∧ c.counted = true then 1 else 0 := by
  unfold State.countedOn
  rw [hperm.countP_eq, List.countP_cons, hl]
  simp

theorem countedOn_pop {p : Pid} {c : Call} (hc : s.innermost p = some c) (n : Name) :
    s.countedOn n = (s.pop p).countedOn n + if c.slot = n ∧ c.counted = true then 1 else 0 :=
  countedOn_perm (perm_cons_eraseP hc) rfl

theorem countedOn_push (c : Call) (n : Name) :
    (s.push c).countedOn n = s.countedOn n + if c.slot = n ∧ c.counted = true then 1 else 0 := by
  unfold State.countedOn State.push
  rw [List.countP_cons]
  simp

theorem mem_of_mem_pop {p : Pid} {c : Call} (hc : c ∈ (s.pop p).calls) : c ∈ s.calls :=
  List.mem_of_mem_eraseP hc

/-- A call goes on within the code: its one stays where it is. -/
theorem countedOn_restage {p : Pid} {c : Call} (hc : s.innermost p = some c) (stage : Stage)
    (n : Name) : ((s.pop p).push { c with stage := stage }).countedOn n = s.countedOn n := by
  rw [countedOn_push, countedOn_pop hc n]

/-- A step of a process: the rows and the server stay, and the counters move with the calls. -/
theorem State.Counted.of_calls (h : s.Counted) (htable : s'.table = s.table)
    (hserver : s'.server = s.server) (hfilled : s'.filled = s.filled)
    (hversion : s'.version = s.version) (halive : ∀ p, s'.alive p = true → s.alive p = true)
    (hcalls : ∀ c ∈ s'.calls, ∀ v, c.stage = .running v → v = s.version c.slot ∨
      ∃ c' ∈ s.calls, c'.slot = c.slot ∧ c'.pid = c.pid ∧ c'.stage = c.stage)
    (hcounter : ∀ n, s'.counter n + s.countedOn n = s.counter n + s'.countedOn n)
    (hbound : ∀ n, s'.countedOn n < excl) : s'.Counted := by
  have hreserved : ∀ n, s'.reserved n ↔ s.reserved n := by
    intro n
    unfold State.reserved
    rw [htable, hserver]
  constructor
  · intro n
    have hn := h.counter n
    have hmove := hcounter n
    by_cases hr : s.reserved n
    · rw [if_pos hr] at hn
      rw [if_pos ((hreserved n).mpr hr)]
      omega
    · rw [if_neg hr] at hn
      rw [if_neg (mt (hreserved n).mp hr)]
      omega
  · exact hbound
  · intro n hn
    rw [hserver] at hn
    rw [htable]
    exact h.names n hn
  · intro n hn
    rw [hserver] at hn
    rw [htable]
    exact h.settled n hn
  · intro n hn
    have hold : s.emptied n := by
      unfold State.emptied at hn ⊢
      rwa [htable, hserver, hfilled] at hn
    exact runsOld_false_of (by rw [hversion]) halive hcalls (h.emptied n hold)
  · intro c hc v hv
    rw [hversion]
    rcases hcalls c hc v hv with hnew | ⟨c', hc', hslot, -, hstage⟩
    · exact hnew.le
    · rw [← hslot]
      exact h.versions c' hc' v (hstage.trans hv)

/-- The call is counted before its code is looked at. -/
theorem take_eq (s : State) (p : Pid) (n : Name) (key : Option Key) :
    ∃ stage, (∀ v, stage ≠ .running v) ∧
      s.take p n key = (s.putCounter n (addGet (s.counter n) 1)).push
        { pid := p, slot := n, counted := true, stage := stage } := by
  refine ⟨_, fun v => ?_, rfl⟩
  split
  · intro h
    cases h
  · cases key <;> intro h <;> cases h

theorem counted_take (h : s.Counted) {p : Pid} {n : Name} {key : Option Key}
    (hroom : s.countedOn n + 1 < excl) : (s.take p n key).Counted := by
  obtain ⟨stage, hstage, htake⟩ := take_eq s p n key
  set c : Call := { pid := p, slot := n, counted := true, stage := stage } with hc
  have hnotrunning : ∀ v, c.stage ≠ .running v := hstage
  rw [htake]
  have hcount : ∀ m, ((s.putCounter n (addGet (s.counter n) 1)).push c).countedOn m = s.countedOn m + if n = m then 1 else 0 := by
    intro m
    have hpush := countedOn_push (s := s.putCounter n (addGet (s.counter n) 1)) c m
    simp only [hc, and_true] at hpush
    exact hpush
  have hsum : addGet (s.counter n) 1 = s.counter n + 1 := by
    apply addGet_of_lt
    have hn := h.counter n
    have hlt := two_excl_lt
    split at hn <;> omega
  refine h.of_calls rfl rfl rfl rfl (fun _ ha => ha) ?_ ?_ ?_
  · intro c' hc' v hv
    rcases List.mem_cons.mp hc' with rfl | hold
    · exact absurd hv (hnotrunning v)
    · exact .inr ⟨c', hold, rfl, rfl, rfl⟩
  · intro m
    rw [hcount]
    show (Function.update s.counter n (addGet (s.counter n) 1)) m + _ = _
    by_cases hm : n = m
    · subst hm
      rw [Function.update_self, if_pos rfl, hsum]
      omega
    · rw [Function.update_of_ne (Ne.symm hm), if_neg hm]
      omega
  · intro m
    rw [hcount]
    by_cases hm : n = m
    · subst hm
      rw [if_pos rfl]
      exact hroom
    · rw [if_neg hm]
      exact h.bound m

theorem counted_giveBack (h : s.Counted) {p : Pid} {c : Call} (hc : s.innermost p = some c)
    (howed : c.counted = true) : (s.giveBack p c.slot).Counted := by
  have hcount : ∀ m, s.countedOn m = (s.giveBack p c.slot).countedOn m +
      if c.slot = m then 1 else 0 := by
    intro m
    have hpop := countedOn_pop hc m
    simp only [howed, and_true] at hpop
    exact hpop
  have hdiff : subGet (s.counter c.slot) 1 = s.counter c.slot - 1 := by
    have hn := h.counter c.slot
    have hb := h.bound c.slot
    have hone := hcount c.slot
    have hlt := two_excl_lt
    rw [if_pos rfl] at hone
    apply subGet_of_le
    · split at hn <;> omega
    · split at hn <;> omega
  refine h.of_calls rfl rfl rfl rfl (fun _ ha => ha) ?_ ?_ ?_
  · intro c' hc' v _
    exact .inr ⟨c', mem_of_mem_pop hc', rfl, rfl, rfl⟩
  · intro m
    have hm := hcount m
    show (Function.update s.counter c.slot (subGet (s.counter c.slot) 1)) m + _ = _
    by_cases hslot : c.slot = m
    · subst hslot
      have hn := h.counter c.slot
      rw [if_pos rfl] at hm
      rw [Function.update_self, hdiff]
      split at hn <;> omega
    · rw [if_neg hslot] at hm
      rw [Function.update_of_ne (Ne.symm hslot)]
      omega
  · intro m
    have hm := hcount m
    have hb := h.bound m
    omega

/-- A call goes on to another stage; code it enters is the newest. -/
theorem counted_restage (h : s.Counted) {p : Pid} {c : Call} (hc : s.innermost p = some c)
    {stage : Stage} (hstage : ∀ v, stage = .running v → v = s.version c.slot) :
    ((s.pop p).push { c with stage := stage }).Counted := by
  refine h.of_calls rfl rfl rfl rfl (fun _ ha => ha) ?_ ?_ ?_
  · intro c' hc' v hv
    rcases List.mem_cons.mp hc' with rfl | hold
    · exact .inl (hstage v hv)
    · exact .inr ⟨c', mem_of_mem_pop hold, rfl, rfl, rfl⟩
  · intro n
    rw [countedOn_restage hc]
    rfl
  · intro n
    rw [countedOn_restage hc]
    exact h.bound n

theorem counted_goCall (h : s.Counted) {p : Pid} {c : Call} (hc : s.innermost p = some c)
    (howed : c.stage = .stale → c.counted = true) (hs : s.goCall p c = some s') :
    s'.Counted := by
  unfold State.goCall at hs
  cases hstage : c.stage with
  | stale =>
    simp only [hstage, Option.some.injEq] at hs
    subst hs
    exact counted_giveBack h hc (howed hstage)
  | check key =>
    simp only [hstage] at hs
    split at hs <;> cases hs <;> exact counted_restage h hc nofun
  | inside => simp [hstage] at hs
  | running v => simp [hstage] at hs

theorem counted_kill (h : s.Counted) (p : Pid) :
    ({ s with alive := Function.update s.alive p false } : State).Counted := by
  refine h.of_calls rfl rfl rfl rfl ?_ (fun c hc v _ => .inr ⟨c, hc, rfl, rfl, rfl⟩)
    (fun _ => rfl) h.bound
  intro q hq
  by_cases hqp : q = p
  · subst hqp
    simp at hq
  · simpa [hqp] using hq

/-- Loading code: the slot is loading and not yet filled, so nobody runs its old code now, and
nothing is said of it afterwards. -/
theorem counted_load (h : s.Counted) {n : Name} (hloading : (s.table n).isLoading = true) :
    ({ s with
        version := Function.update s.version n (s.version n + 1)
        filled := Function.update s.filled n true } : State).Counted := by
  constructor
  · exact h.counter
  · exact h.bound
  · exact h.names
  · exact h.settled
  · intro m hm
    have hne : m ≠ n := by
      rintro rfl
      rcases hm with hpurged | ⟨-, hfilled⟩
      · -- a claim looks at free and resident slots only
        have hname : m ∈ s.server.names := by
          cases hpc : s.server <;> simp_all [Pc.purged, Pc.names]
        have hempty := isLoading_of_empty (h.names m hname)
        rw [hloading] at hempty
        cases hempty
      · simp at hfilled
    have hold : s.emptied m := by
      rcases hm with hpurged | ⟨hload, hfilled⟩
      · exact .inl hpurged
      · exact .inr ⟨hload, by simpa [hne] using hfilled⟩
    refine runsOld_false_of (s := s) ?_ (fun _ ha => ha) ?_ (h.emptied m hold)
    · exact Function.update_of_ne hne _ _
    · intro c hc v _
      exact .inr ⟨c, hc, rfl, rfl, rfl⟩
  · intro c hc v hv
    have hle := h.versions c hc v hv
    show v ≤ Function.update s.version n (s.version n + 1) c.slot
    by_cases hslot : c.slot = n
    · rw [hslot] at hle ⊢
      rw [Function.update_self]
      omega
    · rwa [Function.update_of_ne hslot]

/-! ## The server -/

/-- The server's own maps apart, the same state. -/
structure SameShared (s s' : State) : Prop where
  table : s'.table = s.table
  counter : s'.counter = s.counter
  version : s'.version = s.version
  filled : s'.filled = s.filled
  server : s'.server = s.server
  alive : s'.alive = s.alive
  calls : s'.calls = s.calls

theorem SameShared.refl (s : State) : SameShared s s := by
  constructor <;> rfl

theorem SameShared.trans {t : State} (h : SameShared s t) (h' : SameShared t s') :
    SameShared s s' := by
  constructor
  · rw [h'.table, h.table]
  · rw [h'.counter, h.counter]
  · rw [h'.version, h.version]
  · rw [h'.filled, h.filled]
  · rw [h'.server, h.server]
  · rw [h'.alive, h.alive]
  · rw [h'.calls, h.calls]

theorem SameShared.insertRow (h : SameShared s s') (n : Name) (r : Row) :
    SameShared (s.insertRow n r) (s'.insertRow n r) := by
  constructor
  · show Function.update s'.table n r = Function.update s.table n r
    rw [h.table]
  · exact h.counter
  · exact h.version
  · exact h.filled
  · exact h.server
  · exact h.alive
  · exact h.calls

theorem SameShared.goto (h : SameShared s s') (pc : Pc) :
    SameShared (s.goto pc) (s'.goto pc) :=
  ⟨h.table, h.counter, h.version, h.filled, rfl, h.alive, h.calls⟩

theorem SameShared.countedOn (h : SameShared s s') (n : Name) : s'.countedOn n = s.countedOn n := by
  unfold State.countedOn
  rw [h.calls]

theorem SameShared.runsOld (h : SameShared s s') (n : Name) : s'.runsOld n = s.runsOld n := by
  unfold State.runsOld
  rw [h.calls, h.alive, h.version]

theorem State.Counted.of_sameShared (h : s.Counted) (hs : SameShared s s') : s'.Counted := by
  refine h.of_calls hs.table hs.server hs.filled hs.version ?_ ?_ ?_ ?_
  · intro p hp
    rwa [hs.alive] at hp
  · intro c hc v _
    rw [hs.calls] at hc
    exact .inr ⟨c, hc, rfl, rfl, rfl⟩
  · intro n
    rw [hs.countedOn, hs.counter]
  · intro n
    rw [hs.countedOn]
    exact h.bound n

theorem sameShared_demonitor (ref : Ref) : SameShared s (s.demonitor ref) := by
  constructor <;> rfl

theorem sameShared_unmonitor (key : Key) (lease : Lease) :
    SameShared s (s.unmonitor key lease) := by
  unfold State.unmonitor
  split
  · exact .refl s
  · constructor <;> rfl

theorem sameShared_unmonitorAll (key : Key) (leases : List Lease) :
    SameShared s (leases.foldl (fun s lease => s.unmonitor key lease) s) := by
  induction leases generalizing s with
  | nil => exact .refl s
  | cons lease leases ih =>
    rw [List.foldl_cons]
    exact (sameShared_unmonitor key lease).trans ih

theorem sameShared_unwatch {token : Token} (h : s.unwatch token = some s') :
    SameShared s s' := by
  unfold State.unwatch at h
  split at h
  · cases h
    constructor <;> rfl
  · cases h
    exact .refl s
  · cases h

/-- What a request does to what the callers see, apart from the first exchange of a claim: at most
one row is written, with its state kept, or with a reservation ended. -/
inductive Served (rt : Node) (s : State) : State → Prop
  | same {s' : State} (h : SameShared s s') : Served rt s s'
  | leased {s' : State} (n : Name) (r : Row) (hr : r.state = (s.table n).state)
      (h : SameShared (s.insertRow n r) s') : Served rt s s'
  | claimed {s' : State} (r : Request)
      (h : SameShared (s.goto (.reusable r (s.candidates rt r.key))) s') : Served rt s s'
  | settled {s' : State} (n : Name) (r : Row) (hn : (s.table n).isLoading = true)
      (hr : r.isLoading = false)
      (h : SameShared ((s.insertRow n r).goto (.releaseHold n)) s') : Served rt s s'

theorem Served.of_sameShared {t : State} (h : Served rt s t) (ht : SameShared t s') :
    Served rt s s' := by
  cases h with
  | same h => exact .same (h.trans ht)
  | leased n r hr h => exact .leased n r hr (h.trans ht)
  | claimed r h => exact .claimed r (h.trans ht)
  | settled n r hn hr h => exact .settled n r hn hr (h.trans ht)

theorem served_add (n : Name) (key : Key) (lease : Lease) (owner : Pid) :
    Served rt s (s.add n (s.table n) key lease owner) := by
  unfold State.add
  split
  · exact .leased n (s.table n) rfl (.refl _)
  · refine .leased n { s.table n with leases := (s.table n).leases.insert lease owner } rfl ?_
    constructor <;> rfl

theorem served_claimLoading {r : Request} (h : s.claimLoading rt r = some s') :
    Served rt s s' := by
  unfold State.claimLoading at h
  split at h
  · split at h
    · cases h
      exact .same (.refl s)
    · cases h
      exact served_add _ r.key r.lease r.owner
  · cases h
    exact .claimed r (.refl _)
  · cases h

theorem served_leaseInstance {r : Request} (h : s.leaseInstance r = some s') :
    Served rt s s' := by
  unfold State.leaseInstance at h
  split at h
  · split at h
    · cases h
      exact .same (.refl s)
    · cases h
      exact served_add _ r.key r.lease r.owner
  · cases h
    exact .same (.refl s)
  · cases h

theorem served_publish {token : Token} (h : s.publish token = some s') : Served rt s s' := by
  unfold State.publish at h
  dsimp only at h
  split at h
  · rename_i key hstate
    split at h
    · obtain ⟨t, ht, rfl⟩ := Option.map_eq_some_iff.mp h
      refine .settled token.1 { s.table token.1 with state := .resident key } ?_ rfl ?_
      · simp [Row.isLoading, hstate]
      · exact (sameShared_unwatch ht).goto _
    · cases h
      exact .same (.refl s)
  · cases h
    exact .same (.refl s)

theorem served_abort {token : Token} (h : s.abort token = some s') : Served rt s s' := by
  unfold State.abort at h
  dsimp only at h
  split at h
  · rename_i key hstate
    split at h
    · obtain ⟨t, ht, rfl⟩ := Option.map_eq_some_iff.mp h
      refine .settled token.1 { gen := (s.table token.1).gen, state := .free, leases := ∅ } ?_ rfl ?_
      · simp [Row.isLoading, hstate]
      · have hall := sameShared_unmonitorAll (s := s) key (s.table token.1).leases.keys
        exact ((hall.insertRow _ _).trans (sameShared_unwatch ht)).goto _
    · cases h
      exact .same (.refl s)
  · cases h
    exact .same (.refl s)

theorem served_drop {key : Key} {lease : Lease} (h : s.drop key lease = some s') :
    Served rt s s' := by
  have hun := sameShared_unmonitor (s := s) key lease
  unfold State.drop at h
  split at h
  · rename_i n _
    cases h
    refine .leased n _ ?_ (hun.insertRow n _)
    show ((s.unmonitor key lease).table n).state = (s.table n).state
    rw [hun.table]
  · cases h
    exact .same hun
  · cases h

/-- What a request does is not changed by what only the server sees. -/
theorem Served.of_before {t : State} (ht : SameShared s t) (h : Served rt t s') :
    Served rt s s' := by
  cases h with
  | same h => exact .same (ht.trans h)
  | leased n r hr h => exact .leased n r (by rw [hr, ht.table]) ((ht.insertRow n r).trans h)
  | claimed r h =>
    have hcand : t.candidates rt r.key = s.candidates rt r.key := by
      unfold State.candidates
      rw [ht.table]
    rw [hcand] at h
    exact .claimed r ((ht.goto _).trans h)
  | settled n r hn hr h =>
    rw [ht.table] at hn
    exact .settled n r hn hr (((ht.insertRow n r).goto _).trans h)

theorem served_down {ref : Ref} (h : s.down ref = some s') : Served rt s s' := by
  unfold State.down at h
  split at h
  · obtain ⟨t, ht, rfl⟩ := Option.map_eq_some_iff.mp h
    refine (served_abort ht).of_sameShared ?_
    constructor <;> rfl
  · split at h
    · exact served_drop h
    · cases h
      exact .same (.refl s)

/-! ## What the server keeps -/

theorem counter_of_reserved (h : s.Counted) {n : Name} (hr : s.reserved n) :
    s.counter n = excl + s.countedOn n := by
  rw [h.counter n, if_pos hr]

/-- Writing a row of the same state, with the server at rest. -/
theorem counted_leased (h : s.Counted) (hidle : s.server = .idle) {n : Name} {r : Row}
    (hr : r.state = (s.table n).state) : (s.insertRow n r).Counted := by
  have hload : ∀ m, ((s.insertRow n r).table m).isLoading = (s.table m).isLoading := by
    intro m
    show (Function.update s.table n r m).isLoading = _
    by_cases hm : m = n
    · subst hm
      rw [Function.update_self]
      unfold Row.isLoading
      rw [hr]
    · rw [Function.update_of_ne hm]
  constructor
  · intro m
    have hm := h.counter m
    simp only [State.reserved, hload] at hm ⊢
    exact hm
  · exact h.bound
  · intro m hm
    rw [show (s.insertRow n r).server = .idle from hidle] at hm
    cases hm
  · intro m hm
    rw [show (s.insertRow n r).server = .idle from hidle] at hm
    cases hm
  · intro m hm
    apply h.emptied m
    rcases hm with hpurged | ⟨hl, hf⟩
    · exact .inl hpurged
    · exact .inr ⟨(hload m).symm.trans hl, hf⟩
  · exact h.versions

theorem empty_of_mem_candidates {key : Key} {n : Name} (hn : n ∈ s.candidates rt key) :
    (s.table n).empty = true := by
  unfold State.candidates at hn
  dsimp only at hn
  split at hn
  · rename_i hhome
    rcases List.mem_cons.mp hn with rfl | hrest
    · exact (List.mem_filter.mp hhome).2
    · exact (List.mem_filter.mp (List.mem_of_mem_erase hrest)).2
  · exact (List.mem_filter.mp hn).2

theorem counted_claimed (h : s.Counted) (hidle : s.server = .idle) (r : Request) :
    (s.goto (.reusable r (s.candidates rt r.key))).Counted := by
  constructor
  · intro n
    have hn := h.counter n
    have hholds : s.server.holds = none := by rw [hidle]; rfl
    simp only [State.reserved, hholds] at hn
    exact hn
  · exact h.bound
  · exact fun n hn => empty_of_mem_candidates hn
  · nofun
  · intro n hn
    apply h.emptied n
    rcases hn with hpurged | hload
    · cases hpurged
    · exact .inr hload
  · exact h.versions

/-- The end of a reservation, before `release_hold/1`: the server holds what the row held. -/
theorem counted_settled (h : s.Counted) (hidle : s.server = .idle) {n : Name} {r : Row}
    (hn : (s.table n).isLoading = true) (hr : r.isLoading = false) :
    ((s.insertRow n r).goto (.releaseHold n)).Counted := by
  have hload : ∀ m, m ≠ n →
      (((s.insertRow n r).goto (.releaseHold n)).table m) = s.table m :=
    fun m hm => Function.update_of_ne hm _ _
  have hself : ((s.insertRow n r).goto (.releaseHold n)).table n = r :=
    Function.update_self _ _ _
  have hholds : s.server.holds = none := by rw [hidle]; rfl
  constructor
  · intro m
    have hm := h.counter m
    by_cases hmn : m = n
    · subst hmn
      rw [if_pos (.inl hn)] at hm
      rw [if_pos (.inr rfl)]
      exact hm
    · have hiff : ((s.insertRow n r).goto (.releaseHold n)).reserved m ↔ s.reserved m := by
        unfold State.reserved
        rw [hload m hmn, hholds]
        show _ ∨ some n = some m ↔ _
        simp [Ne.symm hmn]
      rw [if_congr hiff rfl rfl]
      exact hm
  · exact h.bound
  · intro m hm
    cases hm
  · intro m hm
    cases hm
    rw [hself]
    exact hr
  · intro m hm
    rcases hm with hpurged | ⟨hl, hf⟩
    · cases hpurged
    · have hmn : m ≠ n := by
        rintro rfl
        rw [hself, hr] at hl
        cases hl
      rw [hload m hmn] at hl
      exact h.emptied m (.inr ⟨hl, hf⟩)
  · exact h.versions

theorem counted_served (h : s.Counted) (hidle : s.server = .idle) (hs : Served rt s s') :
    s'.Counted := by
  cases hs with
  | same hs => exact h.of_sameShared hs
  | leased n r hr hs => exact (counted_leased h hidle hr).of_sameShared hs
  | claimed r hs => exact (counted_claimed h hidle r).of_sameShared hs
  | settled n r hn hr hs => exact (counted_settled h hidle hn hr).of_sameShared hs

/-- The server goes on within a claim, holding what it held. -/
theorem counted_goto (h : s.Counted) {pc : Pc} (hholds : pc.holds = s.server.holds)
    (hnames : ∀ n ∈ pc.names, n ∈ s.server.names) (hsettled : ∀ n, pc ≠ .releaseHold n)
    (hpurged : ∀ n, pc.purged = some n → s.runsOld n = false) : (s.goto pc).Counted := by
  constructor
  · intro n
    have hiff : (s.goto pc).reserved n ↔ s.reserved n := by
      unfold State.reserved
      rw [show (s.goto pc).server.holds = s.server.holds from hholds]
      rfl
    rw [if_congr hiff rfl rfl]
    exact h.counter n
  · exact h.bound
  · exact fun n hn => h.names n (hnames n hn)
  · exact fun n hn => absurd hn (hsettled n)
  · intro n hn
    rcases hn with hp | hload
    · exact hpurged n hp
    · exact h.emptied n (.inr hload)
  · exact h.versions

theorem countedOn_clearCounted (n m : Name) :
    (s.clearCounted n).countedOn m = if m = n then 0 else s.countedOn m := by
  unfold State.countedOn State.clearCounted
  rw [List.countP_map]
  split
  · rename_i hm
    subst hm
    rw [List.countP_eq_zero]
    intro c _
    by_cases hc : c.slot = m <;> simp [hc]
  · rename_i hm
    apply List.countP_congr
    intro c _
    by_cases hc : c.slot = n
    · simp [hc, Ne.symm hm]
    · simp [hc]

theorem runsOld_clearCounted (n m : Name) : (s.clearCounted n).runsOld m = s.runsOld m := by
  unfold State.runsOld State.clearCounted
  rw [List.any_map]
  congr 1
  funext c
  by_cases hc : c.slot = n <;> simp [hc]

/-- The exchange of a claim: nothing is counted on the slot any more, and the server holds it. -/
theorem counted_exchange (h : s.Counted) {t : State} {r : Request} {n : Name} {rest : List Name}
    (htable : t.table = s.table) (hfilled : t.filled = s.filled)
    (hcounter : t.counter = Function.update s.counter n excl)
    (hserver : t.server = .purgeable r n rest)
    (hcount : ∀ m, t.countedOn m = if m = n then 0 else s.countedOn m)
    (hruns : ∀ m, t.runsOld m = s.runsOld m)
    (hversions : ∀ c ∈ t.calls, ∀ v, c.stage = .running v → v ≤ t.version c.slot) (hholds : s.server.holds = none)
    (hnames : n :: rest = s.server.names) : t.Counted := by
  constructor
  · intro m
    have hm := h.counter m
    rw [hcount, hcounter]
    by_cases hmn : m = n
    · subst hmn
      rw [Function.update_self, if_pos rfl, if_pos (.inr (by rw [hserver]; rfl))]
      rfl
    · have hiff : t.reserved m ↔ s.reserved m := by
        unfold State.reserved
        rw [htable, hserver, hholds]
        show _ ∨ some n = some m ↔ _
        simp [Ne.symm hmn]
      rw [Function.update_of_ne hmn, if_neg hmn, if_congr hiff rfl rfl]
      exact hm
  · intro m
    rw [hcount]
    split
    · exact excl_pos
    · exact h.bound m
  · intro m hm
    rw [hserver] at hm
    rw [htable]
    exact h.names m (hnames ▸ hm)
  · intro m hm
    rw [hserver] at hm
    cases hm
  · intro m hm
    rw [hruns]
    apply h.emptied m
    rcases hm with hpurged | ⟨hl, hf⟩
    · rw [hserver] at hpurged
      cases hpurged
    · rw [htable] at hl
      rw [hfilled] at hf
      exact .inr ⟨hl, hf⟩
  · exact hversions

/-- `release_hold/1` on a slot whose row is not a reservation. -/
theorem counted_releaseHold (h : s.Counted) {n : Name} {pc : Pc}
    (hholds : s.server.holds = some n) (hrow : (s.table n).isLoading = false)
    (hpc : pc.holds = none) (hnames : ∀ m ∈ pc.names, m ∈ s.server.names)
    (hsettled : ∀ m, pc ≠ .releaseHold m) (hpurged : pc.purged = none) :
    ((s.releaseHold n).goto pc).Counted := by
  have hsub : subGet (s.counter n) excl = s.countedOn n := by
    have hn := counter_of_reserved h (.inr hholds)
    have hb := h.bound n
    have hlt := two_excl_lt
    rw [subGet_of_le (by omega) (by omega), hn]
    omega
  constructor
  · intro m
    have hm := h.counter m
    show (Function.update s.counter n (subGet (s.counter n) excl)) m = _ + s.countedOn m
    by_cases hmn : m = n
    · subst hmn
      have hfree : ¬ ((s.releaseHold m).goto pc).reserved m := by
        rintro (hl | hp)
        · rw [show ((s.releaseHold m).goto pc).table = s.table from rfl, hrow] at hl
          cases hl
        · rw [show ((s.releaseHold m).goto pc).server = pc from rfl, hpc] at hp
          cases hp
      rw [Function.update_self, if_neg hfree, hsub, Nat.zero_add]
    · have hiff : ((s.releaseHold n).goto pc).reserved m ↔ s.reserved m := by
        unfold State.reserved
        rw [show ((s.releaseHold n).goto pc).server.holds = none from hpc, hholds]
        show (s.table m).isLoading = true ∨ _ ↔ _
        simp [Ne.symm hmn]
      rw [Function.update_of_ne hmn, if_congr hiff rfl rfl]
      exact hm
  · exact h.bound
  · exact fun m hm => h.names m (hnames m hm)
  · exact fun m hm => absurd hm (hsettled m)
  · intro m hm
    rcases hm with hp | hload
    · rw [show ((s.releaseHold n).goto pc).server = pc from rfl, hpurged] at hp
      cases hp
    · exact h.emptied m (.inr hload)
  · exact h.versions

/-- Writing the reservation: the row takes over from the server. -/
theorem counted_reserve (h : s.Counted) {r : Request} {n : Name}
    (hserver : s.server = .reserve r n) : ((s.reserve r n).goto .idle).Counted := by
  set t := (s.reserve r n).goto .idle with ht
  have hadd : ∀ (row : Row), row.leases = ∅ → SameShared
      (s.insertRow n { row with leases := row.leases.insert r.lease r.owner })
      (s.add n row r.key r.lease r.owner) := by
    intro row hrow
    unfold State.add
    rw [if_neg (by simp [hrow])]
    constructor <;> rfl
  set row : Row := { gen := (s.table n).gen + 1, state := .loading r.key, leases := ∅ } with hrow
  have hsame := hadd row rfl
  have htable : t.table = Function.update s.table n
      { row with leases := row.leases.insert r.lease r.owner } := hsame.table
  have hfilled : t.filled = Function.update s.filled n false := by
    show Function.update (s.add n row r.key r.lease r.owner).filled n false = _
    rw [hsame.filled]
    rfl
  have hcounter : t.counter = s.counter := hsame.counter
  have hcount : ∀ m, t.countedOn m = s.countedOn m := fun m => hsame.countedOn m
  have hruns : ∀ m, t.runsOld m = s.runsOld m := fun m => hsame.runsOld m
  have hother : ∀ m, m ≠ n → t.table m = s.table m := by
    intro m hm
    rw [htable, Function.update_of_ne hm]
  have hself : (t.table n).isLoading = true := by
    rw [htable, Function.update_self]
    rfl
  constructor
  · intro m
    have hm := h.counter m
    rw [hcount, hcounter]
    by_cases hmn : m = n
    · subst hmn
      rw [if_pos (.inr (by rw [hserver]; rfl))] at hm
      rw [if_pos (.inl hself)]
      exact hm
    · have hiff : t.reserved m ↔ s.reserved m := by
        unfold State.reserved
        rw [hother m hmn, hserver]
        show _ ∨ none = some m ↔ _ ∨ some n = some m
        simp [Ne.symm hmn]
      rw [if_congr hiff rfl rfl]
      exact hm
  · intro m
    rw [hcount]
    exact h.bound m
  · nofun
  · nofun
  · intro m hm
    rw [hruns]
    apply h.emptied m
    rcases hm with hpurged | ⟨hl, hf⟩
    · cases hpurged
    · by_cases hmn : m = n
      · subst hmn
        exact .inl (by rw [hserver]; rfl)
      · rw [hother m hmn] at hl
        rw [hfilled, Function.update_of_ne hmn] at hf
        exact .inr ⟨hl, hf⟩
  · intro c hc v hv
    rw [show t.calls = s.calls from hsame.calls] at hc
    rw [show t.version = s.version from hsame.version]
    exact h.versions c hc v hv

/-- A purge that is answered yes finds nobody in old code. -/
theorem runsOld_of_purgeable (h : s.Counted) {n : Name} {purge : Bool}
    (hp : s.purgeable n purge = some true) : s.runsOld n = false := by
  unfold State.purgeable at hp
  split at hp
  · -- no code was ever loaded under the name, so none of it is old
    rename_i hzero
    rw [← Bool.not_eq_true, runsOld_eq_true]
    rintro ⟨c, hc, hslot, -, v, hstage, hv⟩
    have hle := h.versions c hc v hstage
    rw [hslot, hzero] at hle
    rw [hzero] at hv
    omega
  · split at hp
    · cases hp
    · rename_i hno
      cases hp
      simpa using hno

theorem counted_serve (h : s.Counted) {purge : Bool} (hs : s.serve purge s.server = some s') :
    s'.Counted := by
  cases hpc : s.server with
  | idle => simp [hpc, State.serve] at hs
  | reusable r names =>
    cases names with
    | nil =>
      simp only [hpc, State.serve, Option.some.injEq] at hs
      subst hs
      exact counted_goto h (by rw [hpc]; rfl) nofun nofun nofun
    | cons n rest =>
      simp only [hpc, State.serve] at hs
      split at hs
      · rename_i hzero
        cases hs
        have hcount : s.countedOn n = 0 := by
          have hn := h.counter n
          omega
        refine counted_exchange h (r := r) (n := n) rfl rfl rfl rfl ?_ ?_ ?_ ?_ ?_
        · intro m
          show s.countedOn m = _
          split
          · rename_i hm
            rw [hm, hcount]
          · rfl
        · exact fun m => rfl
        · exact h.versions
        · rw [hpc]
          rfl
        · rw [hpc]
          rfl
      · split at hs
        · cases hs
          exact counted_goto h (by rw [hpc]; rfl) (by rw [hpc]; exact fun m hm => hm) nofun nofun
        · cases hs
          refine counted_goto h (by rw [hpc]; rfl) ?_ nofun nofun
          rw [hpc]
          exact fun m hm => List.mem_cons_of_mem n hm
  | repairPurgeable r n stuck rest =>
    simp only [hpc, State.serve, Option.map_eq_some_iff] at hs
    obtain ⟨purged, hp, rfl⟩ := hs
    cases purged with
    | true =>
      refine counted_goto h (by rw [hpc]; rfl) (by rw [hpc]; exact fun m hm => hm) nofun ?_
      intro m hm
      cases hm
      exact runsOld_of_purgeable h hp
    | false =>
      refine counted_goto h (by rw [hpc]; rfl) ?_ nofun nofun
      rw [hpc]
      exact fun m hm => List.mem_cons_of_mem n hm
  | repairExchange r n stuck rest =>
    simp only [hpc, State.serve] at hs
    split at hs
    · cases hs
      refine counted_exchange h (r := r) (n := n) rfl rfl rfl rfl ?_ ?_ ?_ ?_ ?_
      · exact fun m => countedOn_clearCounted n m
      · exact fun m => runsOld_clearCounted n m
      · intro c hc v hv
        obtain ⟨c', hc', rfl⟩ := List.mem_map.mp hc
        have hle := h.versions c' hc' v
        split at hv <;> split <;> exact hle hv
      · rw [hpc]
        rfl
      · rw [hpc]
        rfl
    · cases hs
      refine counted_goto h (by rw [hpc]; rfl) ?_ nofun nofun
      rw [hpc]
      exact fun m hm => List.mem_cons_of_mem n hm
  | purgeable r n rest =>
    simp only [hpc, State.serve, Option.map_eq_some_iff] at hs
    obtain ⟨purged, hp, rfl⟩ := hs
    cases purged with
    | true =>
      refine counted_goto h (by rw [hpc]; rfl) ?_ nofun ?_
      · rw [hpc]
        intro m hm
        rw [List.mem_singleton.mp hm]
        exact List.mem_cons_self
      · intro m hm
        cases hm
        exact runsOld_of_purgeable h hp
    | false =>
      exact counted_goto h (by rw [hpc]; rfl) (by rw [hpc]; exact fun m hm => hm) nofun nofun
  | unpurged r n rest =>
    simp only [hpc, State.serve, Option.some.injEq] at hs
    subst hs
    have hrow := isLoading_of_empty (h.names n (by rw [hpc]; exact List.mem_cons_self))
    refine counted_releaseHold h (by rw [hpc]; rfl) hrow rfl ?_ nofun rfl
    rw [hpc]
    exact fun m hm => List.mem_cons_of_mem n hm
  | reserve r n =>
    simp only [hpc, State.serve, Option.some.injEq] at hs
    subst hs
    exact counted_reserve h hpc
  | releaseHold n =>
    simp only [hpc, State.serve, Option.some.injEq] at hs
    subst hs
    exact counted_releaseHold h (by rw [hpc]; rfl) (h.settled n hpc) rfl nofun nofun rfl

/-! ## Whole runs -/

/-- Only a one that is still in the counter is taken out of it, and there is room for one more. -/
def Owed (s : State) : Act → Prop
  | .lease _ n _ => s.countedOn n + 1 < excl
  | .go p => ∀ c ∈ s.innermost p, c.stage = .stale → c.counted = true
  | .release p => ∀ c ∈ s.innermost p, c.counted = true
  | _ => True

instance (s : State) (a : Act) : Decidable (Owed s a) := by
  cases a <;> unfold Owed <;> infer_instance

theorem counted_init : State.init.Counted := by
  constructor
  · intro n
    rfl
  · exact fun _ => excl_pos
  · nofun
  · nofun
  · rintro n (hp | ⟨hl, -⟩) <;> cases ‹_›
  · nofun

theorem counted_step {a : Act} (h : s.Counted) (ha : Owed s a) (hs : step rt s a = some s') :
    s'.Counted := by
  cases a with
  | lease p n key =>
    simp only [step] at hs
    split at hs
    · cases hs
      exact counted_take h ha
    · cases hs
  | go p =>
    simp only [step] at hs
    split at hs
    · obtain ⟨c, hc, hgo⟩ := Option.bind_eq_some_iff.mp hs
      exact counted_goCall h hc (ha c hc) hgo
    · cases hs
  | enter p =>
    simp only [step] at hs
    split at hs
    · obtain ⟨c, hc, hgo⟩ := Option.bind_eq_some_iff.mp hs
      split at hgo
      · cases hgo
        apply counted_restage h hc
        intro v hv
        cases hv
        rfl
      · cases hgo
    · cases hs
  | leave p =>
    simp only [step] at hs
    split at hs
    · obtain ⟨c, hc, hgo⟩ := Option.bind_eq_some_iff.mp hs
      split at hgo
      · cases hgo
        exact counted_restage h hc nofun
      · cases hgo
    · cases hs
  | release p =>
    simp only [step] at hs
    split at hs
    · obtain ⟨c, hc, hgo⟩ := Option.bind_eq_some_iff.mp hs
      split at hgo
      · cases hgo
        exact counted_giveBack h hc (ha c hc)
      · cases hgo
    · cases hs
  | kill p =>
    simp only [step, Option.some.injEq] at hs
    subst hs
    exact counted_kill h p
  | load n =>
    simp only [step] at hs
    split at hs
    · rename_i hguard
      cases hs
      exact counted_load h (Bool.and_eq_true_iff.mp hguard).1
    · cases hs
  | claimLoading r =>
    simp only [step] at hs
    split at hs
    · exact counted_served h ‹_› (served_claimLoading hs)
    · cases hs
  | publish token =>
    simp only [step] at hs
    split at hs
    · exact @counted_served rt _ _ h ‹_› (served_publish hs)
    · cases hs
  | abort token =>
    simp only [step] at hs
    split at hs
    · exact @counted_served rt _ _ h ‹_› (served_abort hs)
    · cases hs
  | leaseInstance r =>
    simp only [step] at hs
    split at hs
    · exact @counted_served rt _ _ h ‹_› (served_leaseInstance hs)
    · cases hs
  | drop key lease =>
    simp only [step] at hs
    split at hs
    · exact @counted_served rt _ _ h ‹_› (served_drop hs)
    · cases hs
  | down ref =>
    simp only [step] at hs
    split at hs
    · split at hs
      · rename_i hboth
        exact @counted_served rt _ _ h hboth.1
          ((served_down hs).of_before (sameShared_demonitor ref))
      · cases hs
    · cases hs
  | serve purge => exact counted_serve h hs

theorem counted_of_owed (h : Run.ReachableIf (step rt) Owed State.init s) : s.Counted :=
  h.invariant State.Counted counted_init fun _ _ _ hc ha hs => counted_step hc ha hs

end ErlangWasm.Code
