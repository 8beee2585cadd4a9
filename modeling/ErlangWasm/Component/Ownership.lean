import ErlangWasm.Component.Resources

/-!
# Handles are owned by one side

A ledger of what the operations have answered, beside the tables: the numbers issued since an
instance's table began, who has been given what, what is lent, and what was handed to a destructor.
-/

namespace ErlangWasm.Component.Resources

open Reasoning

/-! ## The ledger -/

inductive Side
  | guest
  | host
  deriving DecidableEq

def Owner.side : Owner → Side
  | .guest => .guest
  | _ => .host

def Owner.loans : Owner → ℕ
  | .lent n => n
  | _ => 0

structure Ledger where
  issued : ℕ → List ℤ
  holder : ℕ → ℤ → Option Side
  loans : ℕ → ℤ → ℕ
  /-- how often it was handed to a destructor, or released -/
  ended : ℕ → ℤ → ℕ

def Ledger.init : Ledger := ⟨fun _ => [], fun _ _ => none, fun _ _ => 0, fun _ _ => 0⟩

def put {α : Type} (f : ℕ → ℤ → α) (id : ℕ) (h : ℤ) (a : α) : ℕ → ℤ → α :=
  fun i j => if i = id ∧ j = h then a else f i j

theorem put_apply {α : Type} (f : ℕ → ℤ → α) (id : ℕ) (h : ℤ) (a : α) (i : ℕ) (j : ℤ) :
    put f id h a i j = if i = id ∧ j = h then a else f i j := rfl

def Ledger.issue (g : Ledger) (id : ℕ) (h : ℤ) : Ledger :=
  { g with
    issued := Function.update g.issued id (h :: g.issued id)
    holder := put g.holder id h (some .guest) }

def Ledger.move (g : Ledger) (id : ℕ) (h : ℤ) (side : Option Side) : Ledger :=
  { g with holder := put g.holder id h side }

def Ledger.finish (g : Ledger) (id : ℕ) (h : ℤ) : Ledger :=
  { g.move id h none with ended := put g.ended id h (g.ended id h + 1) }

def Ledger.lend (g : Ledger) (id : ℕ) (h : ℤ) : Ledger :=
  { g with loans := put g.loans id h (g.loans id h + 1) }

def Ledger.unlend (g : Ledger) (id : ℕ) (h : ℤ) : Ledger :=
  { g with loans := put g.loans id h (g.loans id h - 1) }

/-- The representations go with the instance. -/
def Ledger.forget (g : Ledger) (id : ℕ) : Ledger where
  issued := Function.update g.issued id []
  holder i := if i = id then fun _ => none else g.holder i
  loans i := if i = id then fun _ => 0 else g.loans i
  ended i := if i = id then fun _ => 0 else g.ended i

/-- What an operation that was not refused tells. -/
def Ledger.tell (g : Ledger) (current : List ℕ) : Act → Value → Ledger
  | .newInstance id, _ => g.forget id
  | .destroyInstance id, _ => g.forget id
  | .hostReceive id _ h, _ => g.move id h (some .host)
  | .hostGive id _ h, _ => g.move id h (some .guest)
  | .hostLend id _ h, _ => g.lend id h
  | .hostUnlend id h, _ => g.unlend id h
  | .hostDrop id _ h, _ => g.finish id h
  | act, v =>
      match current with
      | [] => g
      | id :: _ =>
          match act, v with
          | .new .., .handle h => g.issue id h
          | .drop _ h, _ => g.finish id h
          | .take h, _ => g.move id h none
          | _, _ => g

/-- The tables, and the ledger. -/
structure Kept where
  state : State
  ledger : Ledger

def Kept.init : Kept := ⟨.init, .init⟩

def Kept.step (k : Kept) (act : Act) : Option Kept :=
  if act.enabled k.state then
    match run k.state act with
    | (.ok v, s) => some ⟨s, k.ledger.tell k.state.current act v⟩
    | (.error _, s) => some ⟨s, k.ledger⟩
  else none

/-! ## What is claimed -/

/-- Nothing is issued twice, who holds what is what has been agreed, an entry's loans are those not
yet returned, and what was handed to a destructor was so once and is gone. -/
structure Kept.Owned (k : Kept) : Prop where
  issued : ∀ id, (k.ledger.issued id).Nodup
  holder : ∀ id h, k.ledger.holder id h = (k.state.entry id h).map (·.owner.side)
  loans : ∀ id h, k.ledger.loans id h = ((k.state.entry id h).map (·.owner.loans)).getD 0
  once : ∀ id h, k.ledger.ended id h ≤ 1
  gone : ∀ id h, 0 < k.ledger.ended id h → k.state.entry id h = none

/-- What an operation lets go of, and by whom. -/
def Act.handsOver (current : List ℕ) : Act → Option (Side × ℕ × ℤ)
  | .drop _ h => current.head?.map (.guest, ·, h)
  | .take h => current.head?.map (.guest, ·, h)
  | .hostReceive id _ h => some (.guest, id, h)
  | .hostGive id _ h => some (.host, id, h)
  | .hostDrop id _ h => some (.host, id, h)
  | _ => none

/-- What is refused is refused by a trap and changes nothing, and what is let go of was held by who
lets go of it, and not lent. -/
structure Kept.Answers (k : Kept) (act : Act) : Prop where
  trap : ∀ f, (run k.state act).1 = .error f → ∃ t, f = .trap t
  refused : ∀ f, (run k.state act).1 = .error f → (run k.state act).2 = k.state
  held : ∀ side id h v, act.handsOver k.state.current = some (side, id, h) →
    (run k.state act).1 = .ok v → (k.state.entry id h).isSome →
      k.ledger.holder id h = some side ∧ k.ledger.loans id h = 0

/-- The condition on one step: a `take` is of what the guest holds or what is not there, and a
`host_give` not of what is lent. -/
def guarded (s : State) : Act → Bool
  | .take h =>
      match s.current with
      | [] => true
      | id :: _ => (s.entry id h).all (·.owner = .guest)
  | .hostGive id rt h =>
      match s.entry id h with
      | some ⟨actual, _, .lent _⟩ => rt ≠ .undefined ∧ rt ≠ actual
      | _ => true
  | _ => true

abbrev Guarded (k : Kept) (act : Act) : Prop := guarded k.state act = true

/-! ## The invariant -/

/-- What has been issued, is there or has ended is below the next number. -/
structure Kept.Sound (k : Kept) : Prop extends k.Owned where
  minted : ∀ id, ∀ h ∈ k.ledger.issued id, h < k.state.next id
  present : ∀ id h, (k.state.entry id h).isSome → h < k.state.next id
  past : ∀ id h, 0 < k.ledger.ended id h → h < k.state.next id

theorem sound_init : Kept.init.Sound where
  issued _ := List.nodup_nil
  holder _ _ := rfl
  loans _ _ := rfl
  once _ _ := Nat.zero_le 1
  gone _ _ _ := rfl
  minted _ _ h := absurd h List.not_mem_nil
  present _ _ h := by cases h
  past _ _ h := absurd h (Nat.lt_irrefl 0)

/-- The tables and the ledger agree at one handle again, and elsewhere nothing has changed. -/
theorem Kept.Sound.change {k : Kept} (hk : k.Sound) {s : State} {g : Ledger} {id : ℕ} {h : ℤ}
    {x : Option Entry} {n : ℕ} (hnext : ∀ i, s.next i = k.state.next i)
    (hentry : ∀ i j, s.entry i j = if i = id ∧ j = h then x else k.state.entry i j)
    (hissued : g.issued = k.ledger.issued)
    (hholder : ∀ i j, g.holder i j =
      if i = id ∧ j = h then x.map (·.owner.side) else k.ledger.holder i j)
    (hloans : ∀ i j, g.loans i j =
      if i = id ∧ j = h then (x.map (·.owner.loans)).getD 0 else k.ledger.loans i j)
    (hended : ∀ i j, g.ended i j = if i = id ∧ j = h then n else k.ledger.ended i j)
    (hn : n ≤ 1) (hgone : 0 < n → x = none) (hlt : h < k.state.next id) :
    (⟨s, g⟩ : Kept).Sound := by
  constructor
  · constructor
    · intro i
      show (g.issued i).Nodup
      rw [hissued]
      exact hk.issued i
    · intro i j
      show g.holder i j = (s.entry i j).map (·.owner.side)
      rw [hholder, hentry]
      split
      · rfl
      · exact hk.holder i j
    · intro i j
      show g.loans i j = ((s.entry i j).map (·.owner.loans)).getD 0
      rw [hloans, hentry]
      split
      · rfl
      · exact hk.loans i j
    · intro i j
      show g.ended i j ≤ 1
      rw [hended]
      split
      · exact hn
      · exact hk.once i j
    · intro i j hpos
      change 0 < g.ended i j at hpos
      show s.entry i j = none
      rw [hended] at hpos
      rw [hentry]
      split at hpos
      · rename_i hij
        rw [if_pos hij]
        exact hgone hpos
      · rename_i hij
        rw [if_neg hij]
        exact hk.gone i j hpos
  · intro i j hj
    change j ∈ g.issued i at hj
    show j < s.next i
    rw [hissued] at hj
    rw [hnext]
    exact hk.minted i j hj
  · intro i j hj
    change (s.entry i j).isSome at hj
    show j < s.next i
    rw [hentry] at hj
    rw [hnext]
    split at hj
    · rename_i hij
      rw [hij.1, hij.2]
      exact hlt
    · exact hk.present i j hj
  · intro i j hj
    change 0 < g.ended i j at hj
    show j < s.next i
    rw [hended] at hj
    rw [hnext]
    split at hj
    · rename_i hij
      rw [hij.1, hij.2]
      exact hlt
    · exact hk.past i j hj

/-- Where no table changes. -/
theorem Kept.Sound.same {k : Kept} (hk : k.Sound) {s : State} {g : Ledger}
    (hentry : ∀ i j, s.entry i j = k.state.entry i j) (hnext : ∀ i, s.next i = k.state.next i)
    (hg : g = k.ledger) : (⟨s, g⟩ : Kept).Sound := by
  subst hg
  constructor
  · constructor
    · exact hk.issued
    · intro i j
      show k.ledger.holder i j = (s.entry i j).map (·.owner.side)
      rw [hentry]
      exact hk.holder i j
    · intro i j
      show k.ledger.loans i j = ((s.entry i j).map (·.owner.loans)).getD 0
      rw [hentry]
      exact hk.loans i j
    · exact hk.once
    · intro i j hpos
      show s.entry i j = none
      rw [hentry]
      exact hk.gone i j hpos
  · intro i j hj
    show j < s.next i
    rw [hnext]
    exact hk.minted i j hj
  · intro i j hj
    change (s.entry i j).isSome at hj
    show j < s.next i
    rw [hentry] at hj
    rw [hnext]
    exact hk.present i j hj
  · intro i j hj
    show j < s.next i
    rw [hnext]
    exact hk.past i j hj

section
variable {k : Kept} {id : ℕ} {h : ℤ} {e : Entry}

theorem Kept.Sound.lt_next (hk : k.Sound) (he : k.state.entry id h = some e) :
    h < k.state.next id := by
  apply hk.present
  rw [he]
  rfl

theorem Kept.Sound.not_ended (hk : k.Sound) (he : k.state.entry id h = some e) :
    k.ledger.ended id h = 0 := by
  apply Nat.eq_zero_of_not_pos
  intro hpos
  have hgone := hk.gone id h hpos
  rw [he] at hgone
  cases hgone

theorem Kept.Sound.loans_eq (hk : k.Sound) (he : k.state.entry id h = some e) :
    k.ledger.loans id h = e.owner.loans := by
  rw [hk.loans, he]
  rfl

/-- Where the holder stays. -/
theorem Kept.Sound.same_holder (hk : k.Sound) (he : k.state.entry id h = some e) (i : ℕ) (j : ℤ) :
    k.ledger.holder i j = if i = id ∧ j = h then some e.owner.side else k.ledger.holder i j := by
  split
  · rename_i hij
    rw [hij.1, hij.2, hk.holder, he]
    rfl
  · rfl

theorem Kept.Sound.same_loans (hk : k.Sound) (he : k.state.entry id h = some e) (i : ℕ) (j : ℤ) :
    k.ledger.loans i j = if i = id ∧ j = h then e.owner.loans else k.ledger.loans i j := by
  split
  · rename_i hij
    rw [hij.1, hij.2, hk.loans_eq he]
  · rfl

theorem Kept.Sound.same_ended (hk : k.Sound) (he : k.state.entry id h = some e) (i : ℕ) (j : ℤ) :
    k.ledger.ended i j = if i = id ∧ j = h then 0 else k.ledger.ended i j := by
  split
  · rename_i hij
    rw [hij.1, hij.2]
    exact hk.not_ended he
  · rfl

/-- A number leaves its entry behind when it is handed to a destructor. -/
theorem Kept.Sound.finish (hk : k.Sound) (he : k.state.entry id h = some e)
    (hloans : e.owner.loans = 0) :
    (⟨k.state.del id h, k.ledger.finish id h⟩ : Kept).Sound := by
  refine hk.change (x := none) (n := 1) (k.state.next_del id h) (k.state.entry_del id · h) rfl
    (fun i j => rfl) ?_ ?_ (Nat.le_refl 1) (fun _ => rfl) (hk.lt_next he)
  · intro i j
    rw [Option.map_none, Option.getD_none, ← hloans]
    exact hk.same_loans he i j
  · intro i j
    show put k.ledger.ended id h (k.ledger.ended id h + 1) i j = _
    rw [put_apply, hk.not_ended he]

/-- Or when it goes to another component. -/
theorem Kept.Sound.leave (hk : k.Sound) (he : k.state.entry id h = some e)
    (hloans : e.owner.loans = 0) :
    (⟨k.state.del id h, k.ledger.move id h none⟩ : Kept).Sound := by
  refine hk.change (x := none) (n := 0) (k.state.next_del id h) (k.state.entry_del id · h) rfl
    (fun i j => rfl) ?_ ?_ (Nat.zero_le 1) (fun _ => rfl) (hk.lt_next he)
  · intro i j
    rw [Option.map_none, Option.getD_none, ← hloans]
    exact hk.same_loans he i j
  · exact hk.same_ended he

/-- It goes to another holder, or its loans change. -/
theorem Kept.Sound.pass (hk : k.Sound) (he : k.state.entry id h = some e) (owner : Owner)
    {g : Ledger} (hissued : g.issued = k.ledger.issued) (hended : g.ended = k.ledger.ended)
    (hholder : ∀ i j, g.holder i j =
      if i = id ∧ j = h then some owner.side else k.ledger.holder i j)
    (hloans : ∀ i j, g.loans i j = if i = id ∧ j = h then owner.loans else k.ledger.loans i j) :
    (⟨k.state.set id h { e with owner }, g⟩ : Kept).Sound := by
  refine hk.change (x := some { e with owner }) (n := 0) (k.state.next_set id h { e with owner })
    (State.entry_set he { e with owner }) hissued hholder hloans ?_ (Nat.zero_le 1)
    (fun hpos => absurd hpos (Nat.lt_irrefl 0)) (hk.lt_next he)
  rw [hended]
  exact hk.same_ended he

theorem Kept.Sound.receive (hk : k.Sound) (he : k.state.entry id h = some e)
    (howner : e.owner = .guest) :
    (⟨k.state.set id h { e with owner := .host }, k.ledger.move id h (some .host)⟩ : Kept).Sound := by
  refine hk.pass he .host rfl rfl (fun i j => rfl) ?_
  intro i j
  have hloans := hk.same_loans he i j
  rw [howner] at hloans
  exact hloans

theorem Kept.Sound.give (hk : k.Sound) (he : k.state.entry id h = some e)
    (howner : e.owner = .host) :
    (⟨k.state.set id h { e with owner := .guest }, k.ledger.move id h (some .guest)⟩ : Kept).Sound := by
  refine hk.pass he .guest rfl rfl (fun i j => rfl) ?_
  intro i j
  have hloans := hk.same_loans he i j
  rw [howner] at hloans
  exact hloans

theorem Kept.Sound.lend (hk : k.Sound) (he : k.state.entry id h = some e)
    (howner : e.owner ≠ .guest) {n : ℕ} (hn : n = e.owner.loans + 1) :
    (⟨k.state.set id h { e with owner := .lent n }, k.ledger.lend id h⟩ : Kept).Sound := by
  have hside : e.owner.side = (Owner.lent n).side := by
    cases hcase : e.owner with
    | guest => exact absurd hcase howner
    | host => rfl
    | lent m => rfl
  refine hk.pass he (.lent n) rfl rfl ?_ ?_
  · intro i j
    rw [← hside]
    exact hk.same_holder he i j
  · intro i j
    show put k.ledger.loans id h (k.ledger.loans id h + 1) i j = _
    rw [put_apply, hk.loans_eq he, hn]
    rfl

/-- A loan that is given back, of a host's handle. -/
theorem Kept.Sound.unlend (hk : k.Sound) (he : k.state.entry id h = some e) {owner : Owner}
    (hside : e.owner.side = owner.side) (hloans : owner.loans = e.owner.loans - 1) :
    (⟨k.state.set id h { e with owner }, k.ledger.unlend id h⟩ : Kept).Sound := by
  refine hk.pass he owner rfl rfl ?_ ?_
  · intro i j
    rw [← hside]
    exact hk.same_holder he i j
  · intro i j
    show put k.ledger.loans id h (k.ledger.loans id h - 1) i j = _
    rw [put_apply, hk.loans_eq he, hloans]

/-- A number that has not been issued. -/
theorem Kept.Sound.issue (hk : k.Sound) (id : ℕ) (rt : Rt) (r : Rep) :
    (⟨(k.state.mint id rt r .guest).2, k.ledger.issue id (k.state.next id)⟩ : Kept).Sound := by
  have hnone : k.state.entry id (k.state.next id) = none := by
    cases he : k.state.entry id (k.state.next id) with
    | none => rfl
    | some e => exact absurd (hk.lt_next he) (lt_irrefl _)
  have hentry : ∀ i j, (k.state.mint id rt r .guest).2.entry i j =
      if i = id ∧ j = k.state.next id then some ⟨rt, r, .guest⟩ else k.state.entry i j :=
    fun i j => k.state.entry_mint id i rt r .guest j
  have hnext := fun i => k.state.next_mint id i rt r .guest
  have hgrows : ∀ i, k.state.next i ≤ (k.state.mint id rt r .guest).2.next i := by
    intro i
    rw [hnext]
    split
    · rename_i hi
      rw [hi]
      omega
    · exact le_refl _
  constructor
  · constructor
    · intro i
      show (Function.update k.ledger.issued id (k.state.next id :: k.ledger.issued id) i).Nodup
      by_cases hi : i = id
      · subst hi
        rw [Function.update_self, List.nodup_cons]
        refine ⟨?_, hk.issued i⟩
        intro hmem
        exact lt_irrefl _ (hk.minted i _ hmem)
      · rw [Function.update_of_ne hi]
        exact hk.issued i
    · intro i j
      show put k.ledger.holder id (k.state.next id) (some .guest) i j = _
      rw [put_apply, hentry]
      by_cases hij : i = id ∧ j = k.state.next id
      · rw [if_pos hij, if_pos hij]
        rfl
      · rw [if_neg hij, if_neg hij]
        exact hk.holder i j
    · intro i j
      show k.ledger.loans i j = _
      rw [hk.loans, hentry]
      split
      · rename_i hij
        have hsame : k.state.entry i j = none := by
          rw [hij.1, hij.2]
          exact hnone
        rw [hsame]
        rfl
      · rfl
    · exact hk.once
    · intro i j hpos
      rw [hentry, if_neg]
      · exact hk.gone i j hpos
      · rintro ⟨rfl, rfl⟩
        exact lt_irrefl _ (hk.past i _ hpos)
  · intro i j hj
    change j ∈ Function.update k.ledger.issued id (k.state.next id :: k.ledger.issued id) i at hj
    show j < (k.state.mint id rt r .guest).2.next i
    by_cases hi : i = id
    · subst hi
      rw [Function.update_self, List.mem_cons] at hj
      rw [hnext, if_pos rfl]
      rcases hj with rfl | hj
      · omega
      · have hlt := hk.minted i j hj
        omega
    · rw [Function.update_of_ne hi] at hj
      exact lt_of_lt_of_le (hk.minted i j hj) (hgrows i)
  · intro i j hj
    change ((k.state.mint id rt r .guest).2.entry i j).isSome at hj
    show j < (k.state.mint id rt r .guest).2.next i
    rw [hentry] at hj
    split at hj
    · rename_i hij
      rw [hnext, if_pos hij.1, hij.2]
      omega
    · exact lt_of_lt_of_le (hk.present i j hj) (hgrows i)
  · intro i j hj
    exact lt_of_lt_of_le (hk.past i j hj) (hgrows i)

/-- A `take` of what is not there. -/
theorem Kept.Sound.missing (hk : k.Sound) (hentry : k.state.entry id h = none) :
    (⟨k.state.del id h, k.ledger.move id h none⟩ : Kept).Sound := by
  have hsame : ∀ i j, (k.state.del id h).entry i j = k.state.entry i j := by
    intro i j
    rw [State.entry_del]
    split
    · rename_i hij
      rw [hij.1, hij.2, hentry]
    · rfl
  have hholder : put k.ledger.holder id h none = k.ledger.holder := by
    funext i j
    rw [put_apply]
    split
    · rename_i hij
      rw [hij.1, hij.2, hk.holder, hentry]
      rfl
    · rfl
  apply hk.same hsame (k.state.next_del id h)
  unfold Ledger.move
  rw [hholder]

/-- An end of a loan of what is not lent. -/
theorem Kept.Sound.nothing_lent (hk : k.Sound)
    (hlent : ∀ e, k.state.entry id h = some e → e.owner.loans = 0) :
    (⟨k.state, k.ledger.unlend id h⟩ : Kept).Sound := by
  have hzero : k.ledger.loans id h = 0 := by
    rw [hk.loans]
    cases hentry : k.state.entry id h with
    | none => rfl
    | some e => exact hlent e hentry
  have hloans : put k.ledger.loans id h (k.ledger.loans id h - 1) = k.ledger.loans := by
    funext i j
    rw [put_apply]
    split
    · rename_i hij
      rw [hij.1, hij.2, hzero]
    · rfl
  apply hk.same (fun i j => rfl) (fun i => rfl)
  unfold Ledger.unlend
  rw [hloans]

theorem Kept.Sound.current (hk : k.Sound) (current : List ℕ) (unique : ℕ) :
    (⟨⟨k.state.tables, current, unique⟩, k.ledger⟩ : Kept).Sound :=
  hk.same (fun _ _ => rfl) (fun _ => rfl) rfl

/-- An instance whose table is empty, new or destroyed. -/
theorem Kept.Sound.forget (hk : k.Sound) {s : State} {id : ℕ}
    (hentry : ∀ i j, s.entry i j = if i = id then none else k.state.entry i j)
    (hnext : ∀ i, i ≠ id → s.next i = k.state.next i) : (⟨s, k.ledger.forget id⟩ : Kept).Sound := by
  constructor
  · constructor
    · intro i
      show (Function.update k.ledger.issued id [] i).Nodup
      by_cases hi : i = id
      · rw [hi, Function.update_self]
        exact List.nodup_nil
      · rw [Function.update_of_ne hi]
        exact hk.issued i
    · intro i j
      show (if i = id then fun _ => none else k.ledger.holder i) j = (s.entry i j).map _
      rw [hentry]
      split
      · rfl
      · exact hk.holder i j
    · intro i j
      show (if i = id then fun _ => 0 else k.ledger.loans i) j = ((s.entry i j).map _).getD 0
      rw [hentry]
      split
      · rfl
      · exact hk.loans i j
    · intro i j
      show (if i = id then fun _ => 0 else k.ledger.ended i) j ≤ 1
      split
      · exact Nat.zero_le 1
      · exact hk.once i j
    · intro i j hpos
      change 0 < (if i = id then fun _ => 0 else k.ledger.ended i) j at hpos
      show s.entry i j = none
      rw [hentry]
      split at hpos
      · exact absurd hpos (Nat.lt_irrefl 0)
      · rename_i hi
        rw [if_neg hi]
        exact hk.gone i j hpos
  · intro i j hj
    change j ∈ Function.update k.ledger.issued id [] i at hj
    show j < s.next i
    by_cases hi : i = id
    · rw [hi, Function.update_self] at hj
      exact absurd hj List.not_mem_nil
    · rw [Function.update_of_ne hi] at hj
      rw [hnext i hi]
      exact hk.minted i j hj
  · intro i j hj
    change (s.entry i j).isSome at hj
    show j < s.next i
    rw [hentry] at hj
    split at hj
    · cases hj
    · rename_i hi
      rw [hnext i hi]
      exact hk.present i j hj
  · intro i j hpos
    change 0 < (if i = id then fun _ => 0 else k.ledger.ended i) j at hpos
    show j < s.next i
    split at hpos
    · exact absurd hpos (Nat.lt_irrefl 0)
    · rename_i hi
      rw [hnext i hi]
      exact hk.past i j hpos

end

/-! ## The operations -/

theorem State.checked_cases {s : State} {x : Except Failure Entry} {f : Entry → Outcome} :
    (∃ e, x = .ok e ∧ s.checked x f = f e) ∨ ∃ e, x = .error e ∧ s.checked x f = (.error e, s) := by
  cases x with
  | ok e => exact .inl ⟨e, rfl, rfl⟩
  | error e => exact .inr ⟨e, rfl, rfl⟩

/-- What one operation does: it is refused and nothing changes, or what it tells is true of the
tables it leaves. -/
def Kept.Does (k : Kept) (act : Act) : Prop :=
  match run k.state act with
  | (.ok v, s) => (⟨s, k.ledger.tell k.state.current act v⟩ : Kept).Sound
  | (.error f, s) => (∃ t, f = .trap t) ∧ s = k.state

section
variable {k : Kept} {id : ℕ} {h : ℤ}

theorem does_of_eq {a : Act} {v : Value} {s : State} (heq : run k.state a = (.ok v, s))
    (hs : (⟨s, k.ledger.tell k.state.current a v⟩ : Kept).Sound) : k.Does a := by
  unfold Kept.Does
  rw [heq]
  exact hs

theorem does_of_error {act : Act} {f : Failure} (heq : run k.state act = (.error f, k.state))
    (hf : ∃ t, f = .trap t) : k.Does act := by
  unfold Kept.Does
  rw [heq]
  exact ⟨hf, rfl⟩

/-- An operation whose check passes, or is refused. -/
theorem does_checked {act : Act} {x : Except Failure Entry} {f : Entry → Outcome}
    (hrun : run k.state act = k.state.checked x f) (hx : ∀ g, x = .error g → ∃ t, g = .trap t)
    (hf : ∀ e, x = .ok e → run k.state act = f e → k.Does act) : k.Does act := by
  cases x with
  | error g => exact does_of_error hrun (hx g rfl)
  | ok e => exact hf e rfl hrun

theorem does_new (hk : k.Sound) (rt : Rt) (r : Rep) : k.Does (.new rt r) := by
  cases hcurrent : k.state.current with
  | nil =>
    apply does_of_eq (v := .rep r) (s := k.state)
    · simp [run, new, hcurrent]
    · rw [hcurrent]
      exact hk
  | cons id rest =>
    apply does_of_eq (v := .handle (k.state.next id)) (s := (k.state.mint id rt r .guest).2)
    · simp only [run, new, hcurrent]
      rfl
    · rw [hcurrent]
      exact hk.issue id rt r

theorem does_rep (hk : k.Sound) (rt : Rt) (h : ℤ) : k.Does (.rep rt h) := by
  cases hcurrent : k.state.current with
  | nil =>
    apply does_of_eq (v := .handle h) (s := k.state)
    · simp [run, rep, hcurrent]
    · rw [hcurrent]
      exact hk
  | cons id rest =>
    have hrun : run k.state (.rep rt h) =
        k.state.checked (guestEntry k.state id rt h .rep) fun e => (.ok (.rep e.rep), k.state) := by
      simp only [run, rep, hcurrent]
    apply does_checked hrun fun g => guestEntry_error
    intro e _ heq
    apply does_of_eq heq
    rw [hcurrent]
    exact hk

theorem run_drop {rest : List ℕ} (hcurrent : k.state.current = id :: rest) (rt : Rt) (h : ℤ) :
    run k.state (.drop rt h) = k.state.checked (guestEntry k.state id rt h .drop) fun e =>
      match e.rep with
      | .remote provider handle => (.ok (.remote provider handle), k.state.del id h)
      | rep => (.ok (.rep rep), k.state.del id h) := by
  show drop k.state rt h = _
  unfold drop
  rw [hcurrent] <;> rfl

theorem does_drop (hk : k.Sound) (rt : Rt) (h : ℤ) : k.Does (.drop rt h) := by
  cases hcurrent : k.state.current with
  | nil =>
    apply does_of_eq (v := .handle h) (s := k.state)
    · simp [run, drop, hcurrent]
    · rw [hcurrent]
      exact hk
  | cons id rest =>
    apply does_checked (run_drop hcurrent rt h) fun g => guestEntry_error
    intro e he heq
    obtain ⟨hentry, howner⟩ := guestEntry_eq_ok he
    have hloans : e.owner.loans = 0 := by
      rw [howner]
      rfl
    have hsound := hk.finish hentry hloans
    cases hrep : e.rep with
    | rep r | remote provider handle =>
      rw [hrep] at heq
      apply does_of_eq heq
      rw [hcurrent]
      exact hsound

theorem does_lookup (hk : k.Sound) (h : ℤ) : k.Does (.lookup h) := by
  have hstate : ∃ v, lookup k.state h = (.ok v, k.state) := by
    unfold lookup
    split
    · exact ⟨_, rfl⟩
    · split
      · exact ⟨_, rfl⟩
      · exact ⟨_, rfl⟩
  obtain ⟨v, heq⟩ := hstate
  apply does_of_eq (a := .lookup h) heq
  unfold Ledger.tell
  cases k.state.current <;> exact hk

/-- What the guest holds goes with the `take`, and of what is not there there is nothing to take. -/
theorem does_take (hk : k.Sound) (h : ℤ) (hguard : Guarded k (.take h)) : k.Does (.take h) := by
  cases hcurrent : k.state.current with
  | nil =>
    apply does_of_eq (v := .ok) (s := k.state)
    · simp [run, take, hcurrent]
    · rw [hcurrent]
      exact hk
  | cons id rest =>
    apply does_of_eq (v := .ok) (s := k.state.del id h)
    · simp [run, take, hcurrent]
    · rw [hcurrent]
      show (⟨k.state.del id h, k.ledger.move id h none⟩ : Kept).Sound
      cases hentry : k.state.entry id h with
      | none => exact hk.missing hentry
      | some e =>
        apply hk.leave hentry
        simp only [Guarded, guarded, hcurrent, hentry, Option.all_some, decide_eq_true_eq] at hguard
        rw [hguard]
        rfl

theorem does_hostReceive (hk : k.Sound) (id : ℕ) (rt : Rt) (h : ℤ) :
    k.Does (.hostReceive id rt h) := by
  apply does_checked (x := guestEntry k.state id rt h .return_) rfl fun g => guestEntry_error
  intro e he heq
  obtain ⟨hentry, howner⟩ := guestEntry_eq_ok he
  exact does_of_eq heq (hk.receive hentry howner)

theorem does_hostGive (hk : k.Sound) (id : ℕ) (rt : Rt) (h : ℤ)
    (hguard : Guarded k (.hostGive id rt h)) : k.Does (.hostGive id rt h) := by
  apply does_checked (x := hostEntry k.state id rt h .own) rfl fun g => hostEntry_error
  intro e he heq
  obtain ⟨hentry, hguest, htype⟩ := hostEntry_eq_ok he
  cases howner : e.owner with
  | guest => exact absurd howner hguest
  | host =>
    rw [howner] at heq
    exact does_of_eq heq (hk.give hentry howner)
  | lent n =>
    obtain ⟨actual, r, owner⟩ := e
    subst howner
    simp only [Guarded, guarded, hentry, decide_eq_true_eq] at hguard
    exact absurd htype (by simpa using hguard)

theorem does_hostLend (hk : k.Sound) (id : ℕ) (rt : Rt) (h : ℤ) : k.Does (.hostLend id rt h) := by
  apply does_checked (x := hostEntry k.state id rt h .borrow) rfl fun g => hostEntry_error
  intro e he heq
  obtain ⟨hentry, hguest, _⟩ := hostEntry_eq_ok he
  apply does_of_eq heq
  apply hk.lend hentry hguest
  cases e.owner <;> rfl

theorem does_hostUnlend (hk : k.Sound) (id : ℕ) (h : ℤ) : k.Does (.hostUnlend id h) := by
  cases hentry : k.state.entry id h with
  | none =>
    apply does_of_eq (v := .ok) (s := k.state)
    · simp [run, hostUnlend, hentry]
    · exact hk.nothing_lent fun e he => by rw [hentry] at he; cases he
  | some e =>
    obtain ⟨rt, r, owner⟩ := e
    match owner, hentry with
    | .guest, hentry =>
      apply does_of_eq (v := .ok) (s := k.state)
      · simp [run, hostUnlend, hentry]
      · exact hk.nothing_lent fun e he => by rw [hentry] at he; cases he; rfl
    | .host, hentry =>
      apply does_of_eq (v := .ok) (s := k.state)
      · simp [run, hostUnlend, hentry]
      · exact hk.nothing_lent fun e he => by rw [hentry] at he; cases he; rfl
    | .lent 1, hentry =>
      apply does_of_eq (v := .ok) (s := k.state.set id h ⟨rt, r, .host⟩)
      · simp [run, hostUnlend, hentry]
      · exact hk.unlend hentry (show _ = Owner.side .host from rfl) rfl
    | .lent 0, hentry =>
      apply does_of_eq (v := .ok) (s := k.state.set id h ⟨rt, r, .lent 0⟩)
      · simp [run, hostUnlend, hentry]
      · exact hk.unlend hentry (show _ = Owner.side (.lent 0) from rfl) rfl
    | .lent (n + 2), hentry =>
      apply does_of_eq (v := .ok) (s := k.state.set id h ⟨rt, r, .lent (n + 1)⟩)
      · simp [run, hostUnlend, hentry]
      · exact hk.unlend hentry (show _ = Owner.side (.lent (n + 1)) from rfl) rfl

theorem does_hostDrop (hk : k.Sound) (id : ℕ) (rt : Rt) (h : ℤ) : k.Does (.hostDrop id rt h) := by
  apply does_checked (x := hostEntry k.state id rt h .drop) rfl fun g => hostEntry_error
  intro e he heq
  obtain ⟨hentry, hguest, _⟩ := hostEntry_eq_ok he
  cases howner : e.owner with
  | guest => exact absurd howner hguest
  | host =>
    rw [howner] at heq
    apply does_of_eq heq
    apply hk.finish hentry
    rw [howner]
    rfl
  | lent n =>
    rw [howner] at heq
    exact does_of_error heq ⟨_, rfl⟩

theorem does_hostLookup (hk : k.Sound) (id : ℕ) (h : ℤ) : k.Does (.hostLookup id h) := by
  have hstate : ∃ v, hostLookup k.state id h = (.ok v, k.state) := by
    unfold hostLookup
    split
    · exact ⟨_, rfl⟩
    · exact ⟨_, rfl⟩
    · exact ⟨_, rfl⟩
  obtain ⟨v, heq⟩ := hstate
  apply does_of_eq (a := .hostLookup id h) heq
  unfold Ledger.tell
  cases k.state.current <;> exact hk

/-- Every step, under its condition. -/
theorem does (hk : k.Sound) (act : Act) (hguard : Guarded k act) : k.Does act := by
  cases act with
  | newInstance id =>
    apply does_of_eq rfl
    apply hk.forget
    · intro i j
      unfold State.entry State.table
      by_cases hi : i = id
      · subst hi
        simp only [AList.lookup_insert, Option.getD_some, if_true]
        rfl
      · simp [hi, AList.lookup_insert_ne hi]
    · intro i hi
      unfold State.next State.table
      simp [AList.lookup_insert_ne hi]
  | destroyInstance id =>
    apply does_of_eq rfl
    apply hk.forget
    · intro i j
      unfold State.entry State.table
      by_cases hi : i = id
      · subst hi
        simp only [AList.lookup_erase, Option.getD_none, if_true]
        rfl
      · simp [hi, AList.lookup_erase_ne hi]
    · intro i hi
      unfold State.next State.table
      simp [AList.lookup_erase_ne hi]
  | enter id | leave =>
    apply does_of_eq rfl
    unfold Ledger.tell
    cases k.state.current <;> exact hk.current _ _
  | new rt r => exact does_new hk rt r
  | rep rt h => exact does_rep hk rt h
  | drop rt h => exact does_drop hk rt h
  | lookup h => exact does_lookup hk h
  | take h => exact does_take hk h hguard
  | hostReceive id rt h => exact does_hostReceive hk id rt h
  | hostGive id rt h => exact does_hostGive hk id rt h hguard
  | hostLend id rt h => exact does_hostLend hk id rt h
  | hostUnlend id h => exact does_hostUnlend hk id h
  | hostDrop id rt h => exact does_hostDrop hk id rt h
  | hostLookup id h => exact does_hostLookup hk id h

/-! ## What an operation answers -/

theorem Kept.Sound.held (hk : k.Sound) {e : Entry} (he : k.state.entry id h = some e) :
    k.ledger.holder id h = some e.owner.side ∧ k.ledger.loans id h = e.owner.loans := by
  constructor
  · rw [hk.holder, he]
    rfl
  · exact hk.loans_eq he

theorem Kept.Sound.held_guest (hk : k.Sound) {rt : Rt} {op : Operation} {e : Entry}
    (he : guestEntry k.state id rt h op = .ok e) :
    k.ledger.holder id h = some .guest ∧ k.ledger.loans id h = 0 := by
  obtain ⟨hentry, howner⟩ := guestEntry_eq_ok he
  have hheld := hk.held hentry
  rw [howner] at hheld
  exact hheld

/-- Of the host's, where the operation goes on only with what is not lent. -/
theorem Kept.Sound.held_host (hk : k.Sound) {rt : Rt} {op : Operation} {f : Entry → Outcome}
    {v : Value} (hrun : (k.state.checked (hostEntry k.state id rt h op) f).1 = .ok v)
    (hlent : ∀ e n, e.owner = .lent n → (f e).1 ≠ .ok v) :
    k.ledger.holder id h = some .host ∧ k.ledger.loans id h = 0 := by
  rcases @State.checked_cases k.state (hostEntry k.state id rt h op) f with
    ⟨e, he, heq⟩ | ⟨g, _, heq⟩
  · rw [heq] at hrun
    obtain ⟨hentry, hguest, _⟩ := hostEntry_eq_ok he
    have hheld := hk.held hentry
    cases howner : e.owner with
    | guest => exact absurd howner hguest
    | host =>
      rw [howner] at hheld
      exact hheld
    | lent n => exact absurd hrun (hlent e n howner)
  · rw [heq] at hrun
    cases hrun

theorem held_of_guarded (hk : k.Sound) {act : Act} (hguard : Guarded k act) {side : Side} {v : Value}
    (hover : act.handsOver k.state.current = some (side, id, h))
    (hrun : (run k.state act).1 = .ok v) (hpresent : (k.state.entry id h).isSome) :
    k.ledger.holder id h = some side ∧ k.ledger.loans id h = 0 := by
  cases act with
  | drop rt h' =>
    cases hcurrent : k.state.current with
    | nil =>
      rw [hcurrent] at hover
      cases hover
    | cons id' rest =>
      rw [hcurrent] at hover
      cases hover
      change (drop k.state rt h).1 = .ok v at hrun
      unfold drop at hrun
      simp only [hcurrent] at hrun
      cases he : guestEntry k.state id rt h .drop with
      | ok e => exact hk.held_guest he
      | error g =>
        rw [he] at hrun
        cases hrun
  | take h' =>
    cases hcurrent : k.state.current with
    | nil =>
      rw [hcurrent] at hover
      cases hover
    | cons id' rest =>
      rw [hcurrent] at hover
      cases hover
      obtain ⟨e, hentry⟩ := Option.isSome_iff_exists.mp hpresent
      have hheld := hk.held hentry
      simp only [Guarded, guarded, hcurrent, hentry, Option.all_some, decide_eq_true_eq] at hguard
      rw [hguard] at hheld
      exact hheld
  | hostReceive id' rt h' =>
    cases hover
    cases he : guestEntry k.state id rt h .return_ with
    | ok e => exact hk.held_guest he
    | error g =>
      change (k.state.checked (guestEntry k.state id rt h .return_) _).1 = .ok v at hrun
      rw [he] at hrun
      cases hrun
  | hostGive id' rt h' | hostDrop id' rt h' =>
    cases hover
    apply hk.held_host hrun
    intro e n howner
    simp [howner]
  | newInstance | destroyInstance | enter | leave | new | rep | lookup | hostLend | hostUnlend
  | hostLookup => cases hover

theorem answers_of_guarded (hk : k.Sound) {act : Act} (hguard : Guarded k act) :
    k.Answers act := by
  have hdoes := does hk act hguard
  unfold Kept.Does at hdoes
  constructor
  · intro f hf
    rcases hrun : run k.state act with ⟨_ | v, s⟩ <;> rw [hrun] at hf hdoes <;> cases hf
    exact hdoes.1
  · intro f hf
    rcases hrun : run k.state act with ⟨_ | v, s⟩ <;> rw [hrun] at hf hdoes <;> cases hf
    exact hdoes.2
  · intro side id h v hover hrun hpresent
    exact held_of_guarded hk hguard hover hrun hpresent

/-- Where the condition fails: a `take` of what the host holds, or a `host_give` of what is lent. -/
theorem guarded_of_answers (hk : k.Sound) {act : Act} (hanswers : k.Answers act) : Guarded k act := by
  cases act with
  | take h =>
    unfold Guarded guarded
    cases hcurrent : k.state.current with
    | nil => rfl
    | cons id rest =>
      cases hentry : k.state.entry id h with
      | none => simp [hentry]
      | some e =>
        have hheld := hanswers.held .guest id h .ok (by simp [Act.handsOver, hcurrent])
          (by simp [run, take, hcurrent]) (by simp [hentry])
        have hside := (hk.held hentry).1.symm.trans hheld.1
        cases howner : e.owner with
        | guest => simp [hentry, howner]
        | host | lent n =>
          rw [howner] at hside
          cases hside
  | hostGive id rt h =>
    change guarded k.state (.hostGive id rt h) = true
    simp only [guarded]
    split
    · rename_i actual r n hentry
      rw [decide_eq_true_eq]
      by_contra htype
      have hchecked : checkType rt actual h = .ok () := by
        unfold checkType
        apply if_pos
        by_contra hnot
        exact htype (not_or.mp hnot)
      have hrun : (run k.state (.hostGive id rt h)).1 = .error .badmatch := by
        simp [run, hostGive, State.checked, hostEntry, hentry, hchecked]
      obtain ⟨t, ht⟩ := hanswers.trap _ hrun
      cases ht
    · rfl
  | newInstance | destroyInstance | enter | leave | new | rep | drop | lookup | hostReceive | hostLend
  | hostUnlend | hostDrop | hostLookup => rfl

end

/-! ## Every run -/

theorem Kept.Sound.step {k k' : Kept} {act : Act} (hk : k.Sound) (hguard : Guarded k act)
    (hstep : k.step act = some k') : k'.Sound := by
  have hdoes := does hk act hguard
  unfold Kept.Does at hdoes
  unfold Kept.step at hstep
  split at hstep
  · rcases hrun : run k.state act with ⟨f | v, s⟩
    · rw [hrun] at hstep hdoes
      cases hstep
      rw [hdoes.2]
      exact hk
    · rw [hrun] at hstep hdoes
      cases hstep
      exact hdoes
  · cases hstep

theorem sound_of_reachable {k : Kept}
    (hreach : Run.ReachableIf Kept.step Guarded .init k) : k.Sound := by
  apply hreach.invariant Kept.Sound sound_init
  intro k act k' hk hguard hstep
  exact hk.step hguard hstep

/-- Of a run whose `take`s are of what the guest holds and whose `host_give`s are not of what is
lent: the ledger is what the tables say, and an operation answers as it should exactly when it keeps
to that. -/
theorem owned_of_guarded {k : Kept} (hreach : Run.ReachableIf Kept.step Guarded .init k) :
    k.Owned ∧ ∀ act, k.Answers act ↔ Guarded k act := by
  have hk := sound_of_reachable hreach
  refine ⟨hk.toOwned, fun act => ?_⟩
  constructor
  · exact guarded_of_answers hk
  · exact answers_of_guarded hk

/-- The host lends what it holds, is refused to drop it meanwhile, gets the loan back and gives the
handle to the guest, which drops it. -/
def fairRun : List Act :=
  [.newInstance 1, .enter 1, .new (.type 0) (.rep 7), .hostReceive 1 (.type 0) 1,
    .hostLend 1 (.type 0) 1, .hostDrop 1 (.type 0) 1, .hostUnlend 1 1, .hostGive 1 (.type 0) 1,
    .drop (.type 0) 1]

theorem owned_of_fairRun : ∃ k, Run.ReachableIf Kept.step Guarded .init k ∧
    k.ledger.ended 1 1 = 1 ∧ k.Owned ∧ ∀ act, k.Answers act ↔ Guarded k act := by
  have hrun : (Run.execIf Kept.step Guarded fairRun .init).any
      (fun k => k.ledger.ended 1 1 = 1) = true := by
    decide +kernel
  obtain ⟨k, hexec, hended⟩ := (Option.any_eq_true _ _).mp hrun
  have hreach := Run.ReachableIf.of_execIf .init hexec
  exact ⟨k, hreach, by simpa using hended, owned_of_guarded hreach⟩

/-- A call is passed one handle of the host as a borrow and as an own. -/
def lentAndGiven : List Act :=
  [.newInstance 1, .enter 1, .new (.type 0) (.rep 7), .hostReceive 1 (.type 0) 1, .leave,
    .hostLend 1 (.type 0) 1]

/-- What is lent is given, and refused by no trap. -/
theorem not_owned_of_lentAndGiven : ¬ ∀ k, Run.Reachable Kept.step .init k →
    k.Owned ∧ ∀ act, act.enabled k.state → k.Answers act := by
  intro hall
  have hrun : (Run.exec Kept.step lentAndGiven .init).any
      (fun k => (run k.state (.hostGive 1 (.type 0) 1)).1 = .error .badmatch) = true := by
    decide +kernel
  obtain ⟨k, hexec, hgive⟩ := (Option.any_eq_true _ _).mp hrun
  have hanswers := (hall k (Run.Reachable.of_exec .init hexec)).2 (.hostGive 1 (.type 0) 1) rfl
  obtain ⟨t, ht⟩ := hanswers.trap .badmatch (by simpa using hgive)
  cases ht

end ErlangWasm.Component.Resources
