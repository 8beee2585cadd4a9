import ErlangWasm.Keeper.Server
import ErlangWasm.Reasoning.Atomics
import Mathlib.Data.Nat.Bitwise

/-!
# When the object store asks for room

Every mutation counts its words on one counter, `?WRITES`, and one that takes it across a multiple
of 64K has the keeper measure the tables first.  A guest's mutation that the keeper refuses does not
happen and leaves the counter one short of the next multiple; what the embedder pins and frees is
counted and never refused.

A word of the tables is a word some mutation counted: no mutation is taken to add more than it
counts.  `since`, `refused`, `granted` and `reconciles` are not the source's.
-/

namespace ErlangWasm.Heap.Budget

open Reasoning.Atomics Keeper

/-- `?RECONCILE_MASK` -/
def reconcileMask : ℕ := 0xFFFF

/-- `?ELEM_WORDS` -/
def elemWords : ℕ := 12

/-- `?FIELD_WORDS` -/
def fieldWords : ℕ := 4

/-- What the ceilings of the holders leave to this store, and what the node does, in pages. -/
structure Rooms where
  ceilings : List ℤ
  node : Option ℤ
  deriving DecidableEq

def Rooms.all (r : Rooms) : List ℤ := r.ceilings ++ r.node.toList

/-- A store of so many pages is within every budget. -/
def Rooms.Fits (r : Rooms) (pages : ℕ) : Prop := ∀ room ∈ r.all, (pages : ℤ) ≤ room

instance (r : Rooms) (pages : ℕ) : Decidable (r.Fits pages) :=
  inferInstanceAs (Decidable (∀ _ ∈ _, _))

structure State where
  /-- What `ets:info(_, memory)` answers for the two tables. -/
  words : ℕ
  /-- `?WRITES` -/
  writes : ℕ
  /-- The pages of the registry row. -/
  charged : ℕ
  /-- `none` where the keeper does not answer, or answers that the resource is gone. -/
  keeper : Option Rooms
  /-- The words counted since the keeper was last asked, beyond those it was asked for. -/
  since : ℕ
  /-- It refused when it was last asked. -/
  refused : Bool
  /-- The room there was when the store was last found within it. -/
  granted : Rooms
  /-- How often it was asked. -/
  reconciles : ℕ
  deriving DecidableEq

namespace State

/-- `new/2`, with what the two empty tables hold. -/
def new (words : ℕ) (keeper : Option Rooms) : State where
  words := words
  writes := reconcileMask
  charged := 0
  keeper := keeper
  since := 0
  refused := false
  granted := ⟨[Keeper.pagesOf words], none⟩
  reconciles := 0

/-- The answer of `do_resize/5`: giving pages back asks nobody, and the node is not asked about no
pages at all. -/
def admits (s : State) (rooms : Rooms) (want extra : ℕ) : Bool :=
  if want < s.charged then true
  else
    let node := if want = s.charged ∧ extra = 0 then none else rooms.node
    decide (Rooms.Fits ⟨rooms.ceilings, node⟩ (want + extra))

/-- `charge/2`: whether it answers `ok`. -/
def charge (s : State) (extra : ℕ) : Bool × State :=
  match s.keeper with
  | none => (true, s)
  | some rooms =>
    let want := Keeper.pagesOf s.words
    let extra := Keeper.pagesOf extra
    let ok := s.admits rooms want extra
    (ok,
      { s with
        charged := want
        since := 0
        refused := !ok
        granted := if rooms.Fits (want + extra) then rooms else s.granted
        reconciles := s.reconciles + 1 })

def crossed (s : State) (n : ℕ) : Bool × State :=
  let writes := addGet s.writes n
  (decide (writes &&& reconcileMask < n), { s with writes, since := s.since + n })

/-- The tables after a mutation that goes through. -/
def store (s : State) (words : ℕ) : State := { s with words }

def touched (s : State) (n : ℕ) : State :=
  match s.crossed n with
  | (true, s) => (s.charge 0).2
  | (false, s) => s

def refuseIfOver (s : State) (ok : Bool) : Bool × State :=
  if ok then (true, s) else (false, { s with writes := reconcileMask })

/-- Whether it answers `ok` rather than a trap. -/
def wrote (s : State) (n : ℕ) : Bool × State :=
  match s.crossed n with
  | (true, s) =>
    let (ok, s) := s.charge n
    s.refuseIfOver ok
  | (false, s) => (true, s)

end State

/-- What a guest does; a fill and a copy are as many element writes as they have elements. -/
inductive Mutation
  | newStruct (fields : ℕ)
  | newArray
  | setField
  | arraySet
  deriving DecidableEq

/-- The words it counts: `{Id, s, TypeIdx | Fields}`, and so on. -/
def Mutation.size : Mutation → ℕ
  | .newStruct fields => 3 + fields
  | .newArray => 5
  | .setField => fieldWords
  | .arraySet => elemWords

inductive Action
  | guest (m : Mutation) (words : ℕ)
  | pin (words : ℕ)
  -- of the last pin of an object; another one changes nothing
  | unpin (words : ℕ)
  | unpinAll (rows words : ℕ)
  -- of a whole array
  | arrayFill (words : ℕ)
  | collect (words : ℕ)
  -- other resources and the node
  | others (keeper : Option Rooms)
  deriving DecidableEq

/-- What makes the store larger. -/
def Action.grows : Action → Bool
  | .guest .. | .pin _ => true
  | _ => false

/-- Each with the words that the tables hold after it. -/
def step (s : State) : Action → Option State
  | .guest m words =>
    if words ≤ s.words + m.size then
      match s.wrote m.size with
      | (true, s) => some (s.store words)
      | (false, s) => some s
    else none
  | .pin words =>
    if words ≤ s.words + elemWords then some ((s.store words).touched elemWords) else none
  | .unpin words =>
    if words ≤ s.words then some ((s.store words).touched elemWords) else none
  | .unpinAll rows words =>
    if words ≤ s.words then some ((s.store words).touched (elemWords * rows)) else none
  | .arrayFill words | .collect words =>
    if words ≤ s.words then some ((s.store words).charge 0).2 else none
  | .others keeper => some { s with keeper }

/-! ## The keeper's answer -/

/-- The pages that the holders of a row and the node have for it. -/
def roomsOf (k : Keeper.State) (row : Keeper.Row) : Rooms where
  ceilings := row.holders.keys.filterMap fun token =>
    (k.caps.lookup token).map fun (max : ℕ) => max - (k.total token - row.pages)
  node := some (k.limit - (k.pages - row.pages))

theorem grow_ok_iff (k : Keeper.State) (res : Resource) (row : Keeper.Row) (want delta extra : ℕ)
    (ceil : Option Error) :
    (k.grow res row want delta extra ceil).1 = .ok ↔
      ceil = none ∧ (k.chargePages delta extra).2 = none := by
  cases ceil <;> cases hnode : (k.chargePages delta extra).2 <;> simp [Keeper.State.grow, hnode]

theorem ceilings_eq_none_iff (k : Keeper.State) (row : Keeper.Row) (want delta extra : ℕ) :
    k.ceilings want none delta extra row.holders.keys = none ↔
      ∀ room ∈ (roomsOf k row).ceilings, (row.pages : ℤ) + delta + extra ≤ room := by
  simp only [Keeper.State.ceilings, Option.any_none, Bool.false_eq_true, if_false, ite_not,
    ite_eq_left_iff, reduceCtorEq, imp_false, not_not, List.all_eq_true, roomsOf,
    List.mem_filterMap, Option.map_eq_some_iff, Keeper.State.within]
  constructor
  · rintro h _ ⟨token, htoken, max, hmax, rfl⟩
    have hwithin := h token htoken
    rw [hmax, decide_eq_true_iff] at hwithin
    push_cast at hwithin
    omega
  · intro h token htoken
    cases hmax : k.caps.lookup token with
    | none => rfl
    | some max =>
      have hroom := h _ ⟨token, htoken, max, hmax, rfl⟩
      rw [decide_eq_true_iff]
      push_cast
      omega

variable {s : State}

/-- What the keeper answers about a store is what `admits` says of the room it has for it. -/
theorem reconcile_ok_iff {k : Keeper.State} {res : Resource} {row : Keeper.Row} {objs elems : Ref}
    (hrow : k.rows.lookup res = some row) (hbody : row.body = .heap objs elems)
    (hwords : s.words = k.wordsOf objs + k.wordsOf elems) (hcharged : s.charged = row.pages)
    (extra : ℕ) :
    (k.reconcile res none extra).1 = .ok ↔
      s.admits (roomsOf k row) (pagesOf s.words) (pagesOf extra) = true := by
  simp only [Keeper.State.reconcile, hrow, hbody, Keeper.State.doResize, State.admits, ← hwords,
    hcharged]
  split
  case isTrue => exact iff_of_true rfl rfl
  case isFalse hlt =>
    rw [grow_ok_iff, ceilings_eq_none_iff, decide_eq_true_iff, Rooms.Fits, Rooms.all,
      List.forall_mem_append]
    refine and_congr (forall₂_congr fun room _ => by push_cast; omega) ?_
    have hdelta : pagesOf s.words - row.pages = 0 ↔ pagesOf s.words = row.pages := by omega
    simp only [Keeper.State.chargePages, hdelta]
    split
    case isTrue => exact iff_of_true rfl (by simp)
    case isFalse =>
      simp only [roomsOf, Option.mem_toList, Option.some.injEq, forall_eq',
        ite_eq_right_iff, reduceCtorEq, imp_false]
      push_cast
      omega

end ErlangWasm.Heap.Budget

/-!
## Room is asked for on time

What the counter holds above the last multiple of 64K bounds what was counted since the keeper was
asked, and by how much the store is past the room it was last within.  A store that the keeper
refuses goes on asking as long as the counter stays one short of a multiple, which a pin or an
unpin ends whether or not the store fits.
-/

namespace ErlangWasm.Heap.Budget

open Reasoning Reasoning.Run Reasoning.Atomics Keeper

/-- Where the counter stands in its interval. -/
def State.phase (s : State) : ℕ := s.writes % (reconcileMask + 1)

/-- So many words take the counter to the next interval. -/
def State.AtBoundary (s : State) (n : ℕ) : Prop := reconcileMask < s.phase + n

/-- The keeper answers, and with `words` in the tables and `extra` to come the store is within its
budget. -/
def State.Fits (s : State) (words extra : ℕ) : Prop :=
  ∃ rooms, s.keeper = some rooms ∧ rooms.Fits (pagesOf words + pagesOf extra)

instance (s : State) (n : ℕ) : Decidable (s.AtBoundary n) := inferInstanceAs (Decidable (_ < _))

instance (s : State) (words extra : ℕ) : Decidable (s.Fits words extra) :=
  inferInstanceAs (Decidable (∃ rooms ∈ s.keeper, rooms.Fits (pagesOf words + pagesOf extra)))

/-- Whenever the keeper is asked it answers, and finds the store within its budget, or refuses a
guest that gives nothing back, or the counter ends one short of a multiple of the interval. -/
def Ok (s : State) : Action → Prop
  | .guest m _ => s.AtBoundary m.size →
      s.keeper ≠ none ∧ (s.Fits s.words m.size ∨ s.charged ≤ pagesOf s.words)
  | .pin words => s.AtBoundary elemWords → s.Fits words 0
  | .unpin words => s.AtBoundary elemWords →
      s.keeper ≠ none ∧
        (s.Fits words 0 ∨ (s.phase + elemWords) % (reconcileMask + 1) = reconcileMask)
  | .unpinAll rows words => s.AtBoundary (elemWords * rows) →
      s.keeper ≠ none ∧
        (s.Fits words 0 ∨ (s.phase + elemWords * rows) % (reconcileMask + 1) = reconcileMask)
  | .arrayFill words | .collect words =>
      s.keeper ≠ none → s.Fits words 0 ∨ s.phase = reconcileMask
  | .others _ => True

instance (s : State) (a : Action) : Decidable (Ok s a) := by
  unfold Ok
  split <;> infer_instance

/-! ## The counter -/

variable {s t : State} {n extra words : ℕ}

theorem land_reconcileMask (n : ℕ) : n &&& reconcileMask = n % (reconcileMask + 1) :=
  Nat.and_two_pow_sub_one_eq_mod n 16

theorem addGet_mod (c n : ℕ) :
    addGet c n % (reconcileMask + 1) = (c + n) % (reconcileMask + 1) := by
  unfold addGet wordSize
  exact Nat.mod_mod_of_dvd _ (by decide)

theorem phase_lt (s : State) : s.phase < reconcileMask + 1 := Nat.mod_lt _ (Nat.succ_pos _)

@[simp] theorem crossed_phase (s : State) (n : ℕ) :
    (s.crossed n).2.phase = (s.phase + n) % (reconcileMask + 1) := by
  show addGet s.writes n % (reconcileMask + 1) = _
  rw [addGet_mod, State.phase, Nat.mod_add_mod]

/-- A multiple of the interval is crossed however many words the step has. -/
theorem crossed_iff (s : State) (n : ℕ) : (s.crossed n).1 = true ↔ s.AtBoundary n := by
  have hlt := phase_lt s
  show decide (addGet s.writes n &&& reconcileMask < n) = true ↔ reconcileMask < s.phase + n
  rw [decide_eq_true_iff, land_reconcileMask, addGet_mod, ← Nat.mod_add_mod]
  change (s.phase + n) % (reconcileMask + 1) < n ↔ _
  unfold reconcileMask at *
  omega

theorem crossed_phase_of_not (h : ¬ s.AtBoundary n) : (s.crossed n).2.phase = s.phase + n := by
  rw [crossed_phase]
  exact Nat.mod_eq_of_lt (by unfold State.AtBoundary at h; omega)

theorem touched_of_boundary (h : s.AtBoundary n) :
    s.touched n = ((s.crossed n).2.charge 0).2 := by
  unfold State.touched
  rw [show s.crossed n = (true, (s.crossed n).2) from Prod.ext ((crossed_iff s n).mpr h) rfl]

theorem touched_of_not (h : ¬ s.AtBoundary n) : s.touched n = (s.crossed n).2 := by
  unfold State.touched
  rw [show s.crossed n = (false, (s.crossed n).2) from
    Prod.ext (Bool.eq_false_iff.mpr fun hc => h ((crossed_iff s n).mp hc)) rfl]

theorem wrote_of_boundary (h : s.AtBoundary n) :
    s.wrote n = ((s.crossed n).2.charge n).2.refuseIfOver ((s.crossed n).2.charge n).1 := by
  unfold State.wrote
  rw [show s.crossed n = (true, (s.crossed n).2) from Prod.ext ((crossed_iff s n).mpr h) rfl]

theorem wrote_of_not (h : ¬ s.AtBoundary n) : s.wrote n = (true, (s.crossed n).2) := by
  unfold State.wrote
  rw [show s.crossed n = (false, (s.crossed n).2) from
    Prod.ext (Bool.eq_false_iff.mpr fun hc => h ((crossed_iff s n).mp hc)) rfl]

/-! ## The invariant -/

/-- A page is 8192 words. -/
theorem le_pagesOf (words : ℕ) : words ≤ 8192 * pagesOf words := by
  unfold pagesOf
  omega

/-- The tables are no further past the room the store was last within than the counter says. -/
def State.Covered (s : State) : Prop :=
  ∀ room ∈ s.granted.all, (s.words : ℤ) ≤ 8192 * room + s.phase

structure Inv (s : State) : Prop where
  since : s.since ≤ s.phase
  refused : s.refused = true → s.phase = reconcileMask
  covered : s.Covered

theorem inv_new (words : ℕ) (keeper : Option Rooms) : Inv (State.new words keeper) where
  since := Nat.zero_le _
  refused := nofun
  covered := by
    intro room hroom
    simp only [State.new, Rooms.all, Option.toList_none, List.append_nil,
      List.mem_singleton] at hroom
    have hle := le_pagesOf words
    have hphase : (0 : ℤ) ≤ (State.new words keeper).phase := Int.natCast_nonneg _
    subst hroom
    show (words : ℤ) ≤ _
    omega

/-- A mutation that does not reach the boundary, with what it adds to the tables at most. -/
theorem Inv.uncrossed (h : Inv s) (hn : ¬ s.AtBoundary n)
    (hwords : words ≤ s.words + n) : Inv ((s.crossed n).2.store words) := by
  have hphase : ((s.crossed n).2.store words).phase = s.phase + n := crossed_phase_of_not hn
  refine ⟨?_, ?_, ?_⟩
  · rw [hphase]
    exact Nat.add_le_add_right h.since n
  · intro hrefused
    have hmask := h.refused hrefused
    unfold State.AtBoundary at hn
    omega
  · intro room hroom
    have hle := h.covered room hroom
    rw [hphase]
    show (words : ℤ) ≤ _
    omega

/-- The keeper finds the store within its budget. -/
theorem charge_of_fits (h : s.Fits s.words extra) :
    (s.charge extra).1 = true ∧ ∃ rooms, rooms.Fits (pagesOf s.words + pagesOf extra) ∧
      (s.charge extra).2 =
        { s with
          charged := pagesOf s.words
          since := 0
          refused := false
          granted := rooms
          reconciles := s.reconciles + 1 } := by
  obtain ⟨rooms, hkeeper, hfits⟩ := h
  have hadmits : s.admits rooms (pagesOf s.words) (pagesOf extra) = true := by
    unfold State.admits
    split
    · rfl
    · rw [decide_eq_true_iff]
      intro room hroom
      refine hfits room ?_
      simp only [Rooms.all, List.mem_append] at hroom ⊢
      refine hroom.imp id fun hnode => ?_
      split at hnode
      · cases hnode
      · exact hnode
  unfold State.charge
  simp only [hkeeper, hadmits, if_pos hfits, Bool.not_true]
  exact ⟨trivial, rooms, hfits, rfl⟩

/-- The keeper answers, whatever it finds. -/
theorem charge_of_keeper (h : s.keeper ≠ none) (extra : ℕ) :
    (s.charge extra).2.since = 0 ∧ (s.charge extra).2.refused = !(s.charge extra).1 ∧
      (s.charge extra).2.reconciles = s.reconciles + 1 := by
  obtain ⟨rooms, hrooms⟩ := Option.ne_none_iff_exists'.mp h
  simp [State.charge, hrooms]

@[simp] theorem store_keeper (s : State) (words : ℕ) : (s.store words).keeper = s.keeper := rfl

@[simp] theorem charge_words (s : State) (extra : ℕ) : (s.charge extra).2.words = s.words := by
  obtain ⟨words, writes, charged, keeper, since, refused, granted, reconciles⟩ := s
  cases keeper with
  | none => rfl
  | some rooms =>
    show _ = words
    rfl

theorem charge_writes (s : State) (extra : ℕ) : (s.charge extra).2.writes = s.writes := by
  obtain ⟨words, writes, charged, keeper, since, refused, granted, reconciles⟩ := s
  cases keeper with
  | none => rfl
  | some rooms =>
    show _ = writes
    rfl

@[simp] theorem charge_phase (s : State) (extra : ℕ) : (s.charge extra).2.phase = s.phase := by
  rw [State.phase, charge_writes, State.phase]

/-- Within the budget, with what is to come, nothing is left for the counter to cover. -/
theorem inv_of_fits {rooms : Rooms} (hfits : rooms.Fits (pagesOf s.words + pagesOf extra))
    (hwords : words ≤ s.words + extra) (hsince : t.since = 0) (hrefused : t.refused = false)
    (hgranted : t.granted = rooms) (ht : t.words = words) : Inv t := by
  refine ⟨hsince ▸ Nat.zero_le _, by simp [hrefused], ?_⟩
  intro room hroom
  have hroom := hfits room (hgranted ▸ hroom)
  have h1 := le_pagesOf s.words
  have h2 := le_pagesOf extra
  rw [ht]
  push_cast at hroom
  omega

theorem charge_granted (s : State) (extra : ℕ) :
    (s.charge extra).2.granted = s.granted ∨
      ∃ rooms, rooms.Fits (pagesOf s.words + pagesOf extra) ∧
        (s.charge extra).2.granted = rooms := by
  unfold State.charge
  split
  case h_1 => exact .inl rfl
  case h_2 rooms _ =>
    by_cases hfits : rooms.Fits (pagesOf s.words + pagesOf extra)
    · exact .inr ⟨rooms, hfits, if_pos hfits⟩
    · exact .inl (if_neg hfits)

/-- A charge that refuses nobody keeps the invariant where the store fits, and where the counter
asks again at the next step anyway. -/
theorem inv_charge (hkeeper : s.keeper ≠ none) (hok : s.Fits s.words 0 ∨ s.phase = reconcileMask)
    (hcovered : ∀ room ∈ s.granted.all, (s.words : ℤ) ≤ 8192 * room + reconcileMask) :
    Inv (s.charge 0).2 := by
  rcases hok with hfits | hmask
  · obtain ⟨-, rooms, hfits, heq⟩ := charge_of_fits hfits
    rw [heq]
    exact inv_of_fits hfits (Nat.le_refl _) rfl rfl rfl rfl
  obtain ⟨hsince, -, -⟩ := charge_of_keeper hkeeper 0
  refine ⟨by rw [hsince]; exact Nat.zero_le _, fun _ => (charge_phase s 0).trans hmask, ?_⟩
  intro room hroom
  rw [charge_words, charge_phase, hmask]
  obtain hsame | ⟨rooms, hfits, hrooms⟩ := charge_granted s 0
  · exact hcovered room (hsame ▸ hroom)
  · have hle := hfits room (hrooms ▸ hroom)
    have hpages := le_pagesOf s.words
    push_cast at hle
    omega

theorem Inv.covered_mask (h : Inv s) (hwords : words ≤ s.words) :
    ∀ room ∈ s.granted.all, (words : ℤ) ≤ 8192 * room + reconcileMask := by
  intro room hroom
  have hle := h.covered room hroom
  have hlt := phase_lt s
  omega

/-- Words that are counted and never refused. -/
theorem Inv.touched (h : Inv s) (hwords : words ≤ s.words + n)
    (hok : s.AtBoundary n → s.Fits words 0 ∨
      s.keeper ≠ none ∧ (s.phase + n) % (reconcileMask + 1) = reconcileMask ∧ words ≤ s.words) :
    Inv ((s.store words).touched n) := by
  by_cases hn : s.AtBoundary n
  case neg =>
    rw [touched_of_not (s := s.store words) hn]
    exact h.uncrossed hn hwords
  rw [touched_of_boundary (s := s.store words) hn]
  rcases hok hn with hfits | ⟨hkeeper, hmask, hle⟩
  · obtain ⟨rooms, hrooms, hfits⟩ := hfits
    have hfits : ((s.store words).crossed n).2.Fits words 0 := ⟨rooms, hrooms, hfits⟩
    obtain ⟨-, rooms, hfits, heq⟩ := charge_of_fits hfits
    rw [heq]
    exact inv_of_fits hfits (Nat.le_refl _) rfl rfl rfl rfl
  · exact inv_charge hkeeper (.inr ((crossed_phase s n).trans hmask)) (h.covered_mask hle)

/-- A store that gives nothing back is let through only within its budget. -/
theorem fits_of_charge (hkeeper : s.keeper ≠ none) (hpos : 0 < n)
    (hok : s.Fits s.words n ∨ s.charged ≤ pagesOf s.words) (h : (s.charge n).1 = true) :
    s.Fits s.words n := by
  rcases hok with hfits | hle
  · exact hfits
  obtain ⟨rooms, hrooms⟩ := Option.ne_none_iff_exists'.mp hkeeper
  have hextra : pagesOf n ≠ 0 := by
    unfold pagesOf
    omega
  simp only [State.charge, hrooms, State.admits, if_neg (Nat.not_lt.mpr hle),
    if_neg fun hn : _ ∧ pagesOf n = 0 => hextra hn.2, decide_eq_true_iff] at h
  exact ⟨rooms, hrooms, h⟩

theorem Mutation.size_pos (m : Mutation) : 0 < m.size := by
  cases m <;> simp [Mutation.size, fieldWords, elemWords]

/-- What a guest writes, and what it is refused. -/
theorem Inv.wrote (h : Inv s) (hpos : 0 < n) (hwords : words ≤ s.words + n)
    (hok : s.AtBoundary n → s.keeper ≠ none ∧ (s.Fits s.words n ∨ s.charged ≤ pagesOf s.words)) :
    ((s.wrote n).1 = true → Inv ((s.wrote n).2.store words)) ∧
      ((s.wrote n).1 = false → Inv (s.wrote n).2) := by
  by_cases hn : s.AtBoundary n
  case neg =>
    rw [wrote_of_not hn]
    exact ⟨fun _ => h.uncrossed hn hwords, nofun⟩
  obtain ⟨hkeeper, hok⟩ := hok hn
  rw [wrote_of_boundary hn]
  cases hc : ((s.crossed n).2.charge n).1 with
  | true =>
    refine ⟨fun _ => ?_, nofun⟩
    have hfits := fits_of_charge (s := (s.crossed n).2) hkeeper hpos hok hc
    obtain ⟨-, rooms, hfits, heq⟩ := charge_of_fits hfits
    rw [heq]
    exact inv_of_fits hfits hwords rfl rfl rfl rfl
  | false =>
    refine ⟨nofun, fun _ => ?_⟩
    obtain ⟨hsince, -, -⟩ := charge_of_keeper (s := (s.crossed n).2) hkeeper n
    refine ⟨?_, fun _ => rfl, ?_⟩
    · show ((s.crossed n).2.charge n).2.since ≤ _
      rw [hsince]
      exact Nat.zero_le _
    · intro room hroom
      show (((s.crossed n).2.charge n).2.words : ℤ) ≤ 8192 * room + reconcileMask
      rw [charge_words]
      obtain hsame | ⟨rooms, hfits, hrooms⟩ := charge_granted (s.crossed n).2 n
      · exact h.covered_mask (Nat.le_refl _) room (hsame ▸ hroom)
      · have hle := hfits room (hrooms ▸ hroom)
        have hpages := le_pagesOf (s.crossed n).2.words
        push_cast at hle
        omega

theorem Inv.shrunk (h : Inv s) (hwords : words ≤ s.words) : Inv (s.store words) where
  since := h.since
  refused := h.refused
  covered room hroom := by
    have hle := h.covered room hroom
    show (words : ℤ) ≤ 8192 * room + s.phase
    omega

theorem inv_step (h : Inv s) {a : Action} (hok : Ok s a) (hstep : step s a = some t) : Inv t := by
  cases a with
  | guest m words =>
    simp only [step] at hstep
    split at hstep
    case isFalse => cases hstep
    case isTrue hwords =>
      obtain ⟨hdone, hrefused⟩ := h.wrote m.size_pos hwords hok
      cases hw : s.wrote m.size with
      | mk ok u =>
        rw [hw] at hdone hrefused hstep
        cases ok <;> cases hstep
        · exact hrefused rfl
        · exact hdone rfl
  | pin words =>
    simp only [step] at hstep
    split at hstep <;> cases hstep
    exact h.touched ‹_› fun hn => .inl (hok hn)
  | unpin words | unpinAll rows words =>
    simp only [step] at hstep
    split at hstep <;> cases hstep
    rename_i hwords
    refine h.touched (Nat.le_add_right_of_le hwords) fun hn => ?_
    exact (hok hn).2.imp id fun hmask => ⟨(hok hn).1, hmask, hwords⟩
  | arrayFill words | collect words =>
    simp only [step] at hstep
    split at hstep <;> cases hstep
    rename_i hwords
    by_cases hkeeper : s.keeper = none
    · rw [show (s.store words).charge 0 = (true, s.store words) by simp [State.charge, hkeeper]]
      exact h.shrunk hwords
    · exact inv_charge (s := s.store words) hkeeper (hok hkeeper) (h.covered_mask hwords)
  | others keeper =>
    cases hstep
    exact ⟨h.since, h.refused, h.covered⟩

/-! ## Refused until admitted -/

/-- Where the keeper refused, every mutation is asked for. -/
theorem Inv.atBoundary (h : Inv s) (hrefused : s.refused = true) (hpos : 0 < n) :
    s.AtBoundary n := by
  unfold State.AtBoundary
  rw [h.refused hrefused]
  omega

/-- After a refusal what makes the store larger has the keeper asked again, and either it does not
happen or the keeper admits it. -/
def State.Refuses (s : State) (a : Action) : Prop :=
  ∀ t, step s a = some t → s.refused = true → a.grows = true →
    t.reconciles = s.reconciles + 1 ∧ (t.refused = true ∧ t.words = s.words ∨ t.refused = false)

theorem Inv.refuses (h : Inv s) {a : Action} (hok : Ok s a) : s.Refuses a := by
  intro t hstep hrefused hgrows
  cases a with
  | guest m words =>
    have hn := h.atBoundary hrefused m.size_pos
    obtain ⟨hkeeper, -⟩ := hok hn
    obtain ⟨-, hcharged, hreconciles⟩ := charge_of_keeper (s := (s.crossed m.size).2) hkeeper m.size
    simp only [step] at hstep
    split at hstep
    case isFalse => cases hstep
    rw [wrote_of_boundary hn] at hstep
    cases hc : ((s.crossed m.size).2.charge m.size).1 <;> rw [hc] at hstep hcharged <;> cases hstep
    · refine ⟨hreconciles, .inl ⟨hcharged, ?_⟩⟩
      exact charge_words (s.crossed m.size).2 m.size
    · exact ⟨hreconciles, .inr hcharged⟩
  | pin words =>
    have hn : s.AtBoundary elemWords := h.atBoundary hrefused (by decide)
    simp only [step] at hstep
    split at hstep <;> cases hstep
    rw [touched_of_boundary (s := s.store words) hn]
    obtain ⟨rooms, hrooms, hfits⟩ := hok hn
    have hfits : ((s.store words).crossed elemWords).2.Fits words 0 := ⟨rooms, hrooms, hfits⟩
    obtain ⟨-, rooms, hfits, heq⟩ := charge_of_fits hfits
    rw [heq]
    exact ⟨rfl, .inr rfl⟩
  | _ => cases hgrows

/-! ## Runs -/

/-- The keeper is asked within one interval, the store is within one interval of the room it was
last within, and `refuses` says what follows a refusal. -/
structure State.OnTime (s : State) : Prop where
  since : s.since ≤ reconcileMask + 1
  within : ∀ room ∈ s.granted.all, (s.words : ℤ) ≤ 8192 * room + (reconcileMask + 1)

/-- A store of a page that fills up, is refused, and is refused again when a collection has brought
it back to a page. -/
def collected : List Action :=
  [.guest (.newStruct 7997) 8000, .guest (.newStruct 49997) 58000, .guest (.newStruct 7997) 66000,
    .collect 8000, .guest .newArray 8005]

/-- A store of a page that fills up, is refused, and pins an object. -/
def pinned : List Action :=
  [.guest (.newStruct 7997) 8000, .guest (.newStruct 49997) 58000, .guest (.newStruct 7997) 66000,
    .pin 58012]

end ErlangWasm.Heap.Budget
