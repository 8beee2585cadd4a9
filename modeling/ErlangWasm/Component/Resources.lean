import ErlangWasm.Reasoning.Table
import ErlangWasm.Reasoning.Run

/-!
# Resource handle tables

`wasm_resources`: a table a component instance, and who holds each handle in it.  What a handle of
another component's resource stands for is released by whoever dropped it, with operations of its own
that follow.
-/

namespace ErlangWasm.Component.Resources

open Reasoning

/-- `rt()`. -/
inductive Rt
  | type (i : ℕ)
  | imported
  | undefined
  deriving DecidableEq

/-- `rep()`. -/
inductive Rep
  | rep (i : ℤ)
  | remote (provider : ℕ) (handle : ℤ)
  deriving DecidableEq

inductive Owner
  | guest
  | host
  | lent (n : ℕ)
  deriving DecidableEq

structure Entry where
  rt : Rt
  rep : Rep
  owner : Owner
  deriving DecidableEq

/-- `table()`. -/
structure Handles where
  next : ℤ
  entries : Table ℤ Entry

def Handles.empty : Handles := ⟨1, ∅⟩

/-- `operation` of a trap's context. -/
inductive Operation
  | rep
  | drop
  | return_
  | own
  | borrow
  deriving DecidableEq

inductive Trap
  | resourceNotLive (h : ℤ) (operation : Operation)
  | resourceWrongType (h : ℤ) (expected actual : Rt)
  | resourceBorrowed (h : ℤ) (loans : ℕ)
  deriving DecidableEq

/-- A trap, or an Erlang error. -/
inductive Failure
  | trap (t : Trap)
  | badmatch
  deriving DecidableEq

/-- What the process keeps.  The innermost current instance is the first. -/
structure State where
  tables : Table ℕ Handles
  current : List ℕ
  /-- the last of `erlang:unique_integer/1` -/
  unique : ℕ

def State.init : State := ⟨∅, [], 0⟩

def State.table (s : State) (id : ℕ) : Handles := (s.tables.lookup id).getD .empty

def State.entry (s : State) (id : ℕ) (h : ℤ) : Option Entry := (s.table id).entries.lookup h

/-- `update/2`. -/
def State.update (s : State) (id : ℕ) (f : Table ℤ Entry → Table ℤ Entry) : State :=
  match s.tables.lookup id with
  | some t => { s with tables := s.tables.insert id { t with entries := f t.entries } }
  | none => s

def State.set (s : State) (id : ℕ) (h : ℤ) (e : Entry) : State := s.update id (·.insert h e)

def State.del (s : State) (id : ℕ) (h : ℤ) : State := s.update id (·.erase h)

/-- `mint/4`. -/
def State.mint (s : State) (id : ℕ) (rt : Rt) (rep : Rep) (owner : Owner) : ℤ × State :=
  let t := s.table id
  (t.next,
    { s with tables := s.tables.insert id ⟨t.next + 1, t.entries.insert t.next ⟨rt, rep, owner⟩⟩ })

/-! ## Checks -/

def checkType (rt actual : Rt) (h : ℤ) : Except Failure Unit :=
  if rt = .undefined ∨ rt = actual then .ok ()
  else .error (.trap (.resourceWrongType h rt actual))

def notLive {α : Type} (h : ℤ) (op : Operation) : Except Failure α :=
  .error (.trap (.resourceNotLive h op))

/-- `guest_entry/4`. -/
def guestEntry (s : State) (id : ℕ) (rt : Rt) (h : ℤ) (op : Operation) : Except Failure Entry :=
  match s.entry id h with
  | some e =>
      match e.owner with
      | .guest => do checkType rt e.rt h; return e
      | _ => notLive h op
  | none => notLive h op

/-- `host_entry/4`. -/
def hostEntry (s : State) (id : ℕ) (rt : Rt) (h : ℤ) (op : Operation) : Except Failure Entry :=
  match s.entry id h with
  | some e =>
      match e.owner with
      | .guest => notLive h op
      | _ => do checkType rt e.rt h; return e
  | none => notLive h op

/-! ## Operations -/

/-- What an operation answers. -/
inductive Value
  | ok
  | handle (h : ℤ)
  | rep (r : Rep)
  | remote (provider : ℕ) (handle : ℤ)
  | found (e : Option (Rt × Rep))
  deriving DecidableEq

abbrev Outcome := Except Failure Value × State

/-- After a check. -/
def State.checked (s : State) (x : Except Failure Entry) (k : Entry → Outcome) : Outcome :=
  match x with
  | .ok e => k e
  | .error f => (.error f, s)

def new (s : State) (rt : Rt) (rep : Rep) : Outcome :=
  match s.current with
  | [] => (.ok (.rep rep), s)
  | id :: _ =>
      let (h, s) := s.mint id rt rep .guest
      (.ok (.handle h), s)

def rep (s : State) (rt : Rt) (h : ℤ) : Outcome :=
  match s.current with
  | [] => (.ok (.handle h), s)
  | id :: _ => s.checked (guestEntry s id rt h .rep) fun e => (.ok (.rep e.rep), s)

def drop (s : State) (rt : Rt) (h : ℤ) : Outcome :=
  match s.current with
  | [] => (.ok (.handle h), s)
  | id :: _ =>
      s.checked (guestEntry s id rt h .drop) fun e =>
        match e.rep with
        | .remote provider handle => (.ok (.remote provider handle), s.del id h)
        | rep => (.ok (.rep rep), s.del id h)

def lookup (s : State) (h : ℤ) : Outcome :=
  match s.current with
  | [] => (.ok (.found none), s)
  | id :: _ =>
      match s.entry id h with
      | some ⟨rt, rep, .guest⟩ => (.ok (.found (some (rt, rep))), s)
      | _ => (.ok (.found none), s)

def take (s : State) (h : ℤ) : Outcome :=
  match s.current with
  | [] => (.ok .ok, s)
  | id :: _ => (.ok .ok, s.del id h)

def hostReceive (s : State) (id : ℕ) (rt : Rt) (h : ℤ) : Outcome :=
  s.checked (guestEntry s id rt h .return_) fun e =>
    (.ok (.handle h), s.set id h { e with owner := .host })

/-- `{Rep, host} = host_entry(..)`. -/
def hostGive (s : State) (id : ℕ) (rt : Rt) (h : ℤ) : Outcome :=
  s.checked (hostEntry s id rt h .own) fun e =>
    match e.owner with
    | .host => (.ok (.handle h), s.set id h { e with owner := .guest })
    | _ => (.error .badmatch, s)

def hostLend (s : State) (id : ℕ) (rt : Rt) (h : ℤ) : Outcome :=
  s.checked (hostEntry s id rt h .borrow) fun e =>
    let n := match e.owner with
      | .lent m => m + 1
      | _ => 1
    (.ok (.rep e.rep), s.set id h { e with owner := .lent n })

def hostUnlend (s : State) (id : ℕ) (h : ℤ) : Outcome :=
  match s.entry id h with
  | some ⟨rt, rep, .lent 1⟩ => (.ok .ok, s.set id h ⟨rt, rep, .host⟩)
  | some ⟨rt, rep, .lent n⟩ => (.ok .ok, s.set id h ⟨rt, rep, .lent (n - 1)⟩)
  | _ => (.ok .ok, s)

def hostDrop (s : State) (id : ℕ) (rt : Rt) (h : ℤ) : Outcome :=
  s.checked (hostEntry s id rt h .drop) fun e =>
    match e.owner with
    | .lent n => (.error (.trap (.resourceBorrowed h n)), s)
    | _ => (.ok (.rep e.rep), s.del id h)

def hostLookup (s : State) (id : ℕ) (h : ℤ) : Outcome :=
  match s.entry id h with
  | some ⟨_, _, .guest⟩ => (.ok (.found none), s)
  | some ⟨rt, rep, _⟩ => (.ok (.found (some (rt, rep))), s)
  | none => (.ok (.found none), s)

inductive Act
  | newInstance (id : ℕ)
  | destroyInstance (id : ℕ)
  /-- into `with_instance/2` -/
  | enter (id : ℕ)
  /-- out of it, in whatever way -/
  | leave
  | new (rt : Rt) (rep : Rep)
  | rep (rt : Rt) (h : ℤ)
  | drop (rt : Rt) (h : ℤ)
  | lookup (h : ℤ)
  | take (h : ℤ)
  | hostReceive (id : ℕ) (rt : Rt) (h : ℤ)
  | hostGive (id : ℕ) (rt : Rt) (h : ℤ)
  | hostLend (id : ℕ) (rt : Rt) (h : ℤ)
  | hostUnlend (id : ℕ) (h : ℤ)
  | hostDrop (id : ℕ) (rt : Rt) (h : ℤ)
  | hostLookup (id : ℕ) (h : ℤ)

/-- `erlang:unique_integer/1` answers more than it has answered before, and an instance that is made
current was once made. -/
def Act.enabled (s : State) : Act → Bool
  | .newInstance id => s.unique < id
  | .enter id => id ≤ s.unique
  | .leave => s.current ≠ []
  | _ => true

def run (s : State) : Act → Outcome
  | .newInstance id =>
      (.ok .ok, { s with tables := s.tables.insert id .empty, unique := id })
  | .destroyInstance id => (.ok .ok, { s with tables := s.tables.erase id })
  | .enter id => (.ok .ok, { s with current := id :: s.current })
  | .leave => (.ok .ok, { s with current := s.current.tail })
  | .new rt r => new s rt r
  | .rep rt h => rep s rt h
  | .drop rt h => drop s rt h
  | .lookup h => lookup s h
  | .take h => take s h
  | .hostReceive id rt h => hostReceive s id rt h
  | .hostGive id rt h => hostGive s id rt h
  | .hostLend id rt h => hostLend s id rt h
  | .hostUnlend id h => hostUnlend s id h
  | .hostDrop id rt h => hostDrop s id rt h
  | .hostLookup id h => hostLookup s id h

/-! ## What the operations leave in the tables -/

theorem State.entry_of_missing {s : State} {id : ℕ} (h : ℤ) (hid : s.tables.lookup id = none) :
    s.entry id h = none := by
  unfold State.entry State.table
  rw [hid]
  rfl

theorem State.entry_update (s : State) (id i : ℕ) (f : Table ℤ Entry → Table ℤ Entry) (j : ℤ) :
    (s.update id f).entry i j =
      if i = id ∧ (s.tables.lookup id).isSome then (f (s.table id).entries).lookup j
      else s.entry i j := by
  unfold State.update
  cases hid : s.tables.lookup id with
  | none => simp
  | some t =>
    unfold State.entry State.table
    by_cases hi : i = id
    · subst hi
      simp [hid]
    · simp [hi, AList.lookup_insert_ne hi]

theorem State.entry_del (s : State) (id i : ℕ) (h j : ℤ) :
    (s.del id h).entry i j = if i = id ∧ j = h then none else s.entry i j := by
  unfold State.del
  rw [State.entry_update]
  by_cases hi : i = id
  · subst hi
    cases hid : s.tables.lookup i with
    | none => simp [s.entry_of_missing j hid]
    | some t =>
      simp only [Option.isSome_some, and_self, if_true, true_and]
      rw [Table.lookup_erase_eq]
      rfl
  · simp [hi]

theorem State.entry_set {s : State} {id : ℕ} {h : ℤ} {e : Entry} (hentry : s.entry id h = some e)
    (e' : Entry) (i : ℕ) (j : ℤ) :
    (s.set id h e').entry i j = if i = id ∧ j = h then some e' else s.entry i j := by
  unfold State.set
  rw [State.entry_update]
  by_cases hi : i = id
  · subst hi
    cases hid : s.tables.lookup i with
    | none =>
      rw [s.entry_of_missing h hid] at hentry
      cases hentry
    | some t =>
      simp only [Option.isSome_some, and_self, if_true, true_and]
      rw [Table.lookup_insert_eq]
      rfl
  · simp [hi]

theorem State.entry_mint (s : State) (id i : ℕ) (rt : Rt) (r : Rep) (owner : Owner) (j : ℤ) :
    (s.mint id rt r owner).2.entry i j =
      if i = id ∧ j = (s.table id).next then some ⟨rt, r, owner⟩ else s.entry i j := by
  unfold State.mint State.entry State.table
  by_cases hi : i = id
  · subst hi
    simp only [AList.lookup_insert, Option.getD_some, true_and]
    rw [Table.lookup_insert_eq]
  · simp [hi, AList.lookup_insert_ne hi]

/-- The number that is minted next. -/
def State.next (s : State) (id : ℕ) : ℤ := (s.table id).next

theorem State.next_update (s : State) (id i : ℕ) (f : Table ℤ Entry → Table ℤ Entry) :
    (s.update id f).next i = s.next i := by
  unfold State.update State.next State.table
  cases hid : s.tables.lookup id with
  | none => rfl
  | some t =>
    by_cases hi : i = id
    · subst hi
      simp [hid]
    · simp [AList.lookup_insert_ne hi]

theorem State.next_del (s : State) (id : ℕ) (h : ℤ) (i : ℕ) : (s.del id h).next i = s.next i :=
  s.next_update id i _

theorem State.next_set (s : State) (id : ℕ) (h : ℤ) (e : Entry) (i : ℕ) :
    (s.set id h e).next i = s.next i :=
  s.next_update id i _

theorem State.next_mint (s : State) (id i : ℕ) (rt : Rt) (r : Rep) (owner : Owner) :
    (s.mint id rt r owner).2.next i = if i = id then s.next id + 1 else s.next i := by
  unfold State.mint State.next State.table
  by_cases hi : i = id
  · subst hi
    simp
  · simp [hi, AList.lookup_insert_ne hi]

/-! ## What a check says -/

theorem guestEntry_eq_ok {s : State} {id : ℕ} {rt : Rt} {h : ℤ} {op : Operation} {e : Entry}
    (he : guestEntry s id rt h op = .ok e) : s.entry id h = some e ∧ e.owner = .guest := by
  unfold guestEntry at he
  split at he
  · rename_i e' hentry
    split at he
    · rename_i howner
      unfold checkType at he
      split at he
      · cases he
        exact ⟨hentry, howner⟩
      · cases he
    · cases he
  · cases he

theorem hostEntry_eq_ok {s : State} {id : ℕ} {rt : Rt} {h : ℤ} {op : Operation} {e : Entry}
    (he : hostEntry s id rt h op = .ok e) :
    s.entry id h = some e ∧ e.owner ≠ .guest ∧ (rt = .undefined ∨ rt = e.rt) := by
  unfold hostEntry at he
  split at he
  · rename_i e' hentry
    split at he
    · cases he
    · rename_i howner
      unfold checkType at he
      split at he
      · rename_i htype
        cases he
        exact ⟨hentry, howner, htype⟩
      · cases he
  · cases he

theorem guestEntry_error {s : State} {id : ℕ} {rt : Rt} {h : ℤ} {op : Operation} {f : Failure}
    (he : guestEntry s id rt h op = .error f) : ∃ t, f = .trap t := by
  unfold guestEntry at he
  split at he
  · split at he
    · unfold checkType at he
      split at he <;> cases he
      exact ⟨_, rfl⟩
    · cases he
      exact ⟨_, rfl⟩
  · cases he
    exact ⟨_, rfl⟩

theorem hostEntry_error {s : State} {id : ℕ} {rt : Rt} {h : ℤ} {op : Operation} {f : Failure}
    (he : hostEntry s id rt h op = .error f) : ∃ t, f = .trap t := by
  unfold hostEntry at he
  split at he
  · split at he
    · cases he
      exact ⟨_, rfl⟩
    · unfold checkType at he
      split at he <;> cases he
      exact ⟨_, rfl⟩
  · cases he
    exact ⟨_, rfl⟩

end ErlangWasm.Component.Resources
