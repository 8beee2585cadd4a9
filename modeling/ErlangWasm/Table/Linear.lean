import ErlangWasm.Table.Contents
import Mathlib.Data.Fintype.Basic

/-!
# A shared table as one sequence of operations

Every write reads the whole array, computes another and stores it, in separate steps.  When no two
writes overlap, what is stored between operations is what the completed ones do one after the
other, and a cache at the current version is a copy of it.

Two writes that overlap break both: the later store wins over the earlier one, and the later bump
dates the loser's cache with the current version.
-/

namespace ErlangWasm.Table

open Reasoning Reasoning.Atomics

variable {P : Type}

/-- The call a process is in. -/
def Pc.call? : Pc → Option Call
  | .idle => none
  | .readVersion c _ | .lookupCache c _ _ | .readStore c _ _ | .cacheRead c _ _ _
  | .tablePut c _ _ | .bumpVersion c _ _ | .cacheWrite c _ _ _ => some c

/-- Inside an operation that writes. -/
def Pc.writing (c : Pc) : Bool :=
  c.call?.any (·.op.writes)

/-- Between the store and the end of a write. -/
def Pc.stored? : Pc → Option (Call × List Value × Answer)
  | .bumpVersion c l a | .cacheWrite c l a _ => some (c, l, a)
  | _ => none

/-- Between the store of a write and the bump of the version. -/
def Pc.bumping : Pc → Bool
  | .bumpVersion _ _ _ => true
  | _ => false

/-- Inside `array_of/1`: the call and the function it is in. -/
def Pc.reading? : Pc → Option (Call × Op)
  | .readVersion c op | .lookupCache c op _ | .readStore c op _ | .cacheRead c op _ _ =>
      some (c, op)
  | _ => none

/-- The version `array_of/1` has read. -/
def Pc.now? : Pc → Option ℕ
  | .lookupCache _ _ now | .readStore _ _ now | .cacheRead _ _ now _ => some now
  | _ => none

variable (tt : TableType)

/-- The contents after `ds`, one operation after the other. -/
def replay (contents : List Value) (ds : List Done) : List Value :=
  ds.foldl (fun l d => (d.call.op.apply tt l).1) contents

theorem replay_append_singleton (contents : List Value) (ds : List Done) (d : Done) :
    replay tt contents (ds ++ [d]) = (d.call.op.apply tt (replay tt contents ds)).1 := by
  rw [replay, List.foldl_append]
  rfl

/-- Stored arrays and caches, when one process at most is writing. -/
structure Coherent (contents : List Value) (s : State P) : Prop where
  one : ∀ p q, (s.pc p).writing = true → (s.pc q).writing = true → p = q
  settled : (∀ p, (s.pc p).stored? = none) → s.stored = replay tt contents s.completed
  storedBy : ∀ p c l a, (s.pc p).stored? = some (c, l, a) → c.op.writes = true ∧ s.stored = l ∧
    c.op.apply tt (replay tt contents s.completed) = (l, a)
  put : ∀ p c l a, s.pc p = .tablePut c l a → c.op.writes = true ∧
    c.op.apply tt (replay tt contents s.completed) = (l, a)
  tail : ∀ p c op, (s.pc p).reading? = some (c, op) → (c.op.writes = false → op = c.op) ∧
    (c.op.writes = true → op.writes = true ∧ c.op.apply tt (replay tt contents s.completed) =
      op.apply tt (replay tt contents s.completed))
  now : ∀ p n, (s.pc p).now? = some n → n ≤ s.version ∧
    ((s.pc p).writing = true → n = s.version)
  read : ∀ p c op n l, s.pc p = .cacheRead c op n l → (c.op.writes = true → l = s.stored) ∧
    (n = s.version → l = s.stored ∨
      l = replay tt contents s.completed ∧ ∃ q, (s.pc q).bumping = true)
  written : ∀ p c l a new, s.pc p = .cacheWrite c l a new → new = s.version
  cached : ∀ p v l, s.cache p = some (v, l) → v ≤ s.version ∧ (v = s.version → l = s.stored ∨
    l = replay tt contents s.completed ∧ ∃ q, (s.pc q).bumping = true)

theorem coherent_init (contents : List Value) :
    Coherent tt contents (State.init contents : State P) := by
  constructor <;> simp [State.init, Pc.writing, Pc.call?, Pc.stored?, Pc.reading?, Pc.now?, replay]

/-- No write begins while another is under way, and the version does not wrap. -/
def SerialWrites (s : State P) : Act P → Prop
  | .call _ op => op.writes = true → ∀ q, (s.pc q).writing = false
  | .go p =>
      match s.pc p with
      | .bumpVersion _ _ _ => s.version + 1 < wordSize
      | _ => True
  | .evict _ => True

instance [Fintype P] (s : State P) (a : Act P) : Decidable (SerialWrites s a) := by
  unfold SerialWrites
  split
  · infer_instance
  · split <;> infer_instance
  · infer_instance

variable {tt} [DecidableEq P] {contents : List Value} {s s' : State P}

@[simp, grind =] theorem State.goto_pc (s : State P) (p q : P) (c : Pc) :
    (s.goto p c).pc q = if q = p then c else s.pc q :=
  Function.update_apply ..

theorem Pc.writing_of_call {c : Pc} {call : Call} (h : c.call? = some call) :
    c.writing = call.op.writes := by
  rw [Pc.writing, h]
  rfl

theorem Pc.call_of_stored {c : Pc} {call : Call} {l : List Value} {a : Answer}
    (h : c.stored? = some (call, l, a)) : c.call? = some call := by
  cases c <;> simp_all [Pc.stored?, Pc.call?]

theorem Pc.call_of_reading {c : Pc} {call : Call} {op : Op} (h : c.reading? = some (call, op)) :
    c.call? = some call := by
  cases c <;> simp_all [Pc.reading?, Pc.call?]

theorem Pc.stored_of_bumping {c : Pc} (h : c.bumping = true) :
    ∃ call l a, c.stored? = some (call, l, a) := by
  cases c <;> simp_all [Pc.bumping, Pc.stored?]

theorem Pc.not_stored_of_reading {c : Pc} {x : Call × Op} (h : c.reading? = some x) :
    c.stored? = none := by
  cases c <;> simp_all [Pc.reading?, Pc.stored?]

omit [DecidableEq P] in
/-- While a process that writes has not stored yet, nobody has. -/
theorem Coherent.nobody (hc : Coherent tt contents s) {p : P} (hp : (s.pc p).writing = true)
    (hnot : (s.pc p).stored? = none) (q : P) : (s.pc q).stored? = none := by
  cases hq : (s.pc q).stored? with
  | none => rfl
  | some x =>
    obtain ⟨c, l, a⟩ := x
    have hwrites := (hc.storedBy q c l a hq).1
    have hqw : (s.pc q).writing = true := by
      rw [Pc.writing_of_call (Pc.call_of_stored hq), hwrites]
    rw [hc.one p q hp hqw, hq] at hnot
    cases hnot

theorem Pc.not_bumping {c : Pc} (h : c.stored? = none) : c.bumping = false := by
  cases c <;> simp_all [Pc.bumping, Pc.stored?]

/-- A process moves that has not stored anything, inside the same call. -/
theorem coherent_move (hc : Coherent tt contents s) {p : P} {c : Call} {pc : Pc}
    (hcall : (s.pc p).call? = some c) (hcall' : pc.call? = some c)
    (hnone : (s.pc p).stored? = none) (hnone' : pc.stored? = none)
    (hput : ∀ l a, pc = .tablePut c l a → c.op.writes = true ∧
      c.op.apply tt (replay tt contents s.completed) = (l, a))
    (htail : ∀ op, pc.reading? = some (c, op) → (c.op.writes = false → op = c.op) ∧
      (c.op.writes = true → op.writes = true ∧ c.op.apply tt (replay tt contents s.completed) =
        op.apply tt (replay tt contents s.completed)))
    (hnow : ∀ n, pc.now? = some n → (s.pc p).now? = some n ∨ n = s.version)
    (hread : ∀ op n l, pc = .cacheRead c op n l → l = s.stored) :
    Coherent tt contents (s.goto p pc) := by
  have hwriting : ∀ q, ((s.goto p pc).pc q).writing = (s.pc q).writing := by
    intro q
    rw [State.goto_pc]
    split
    · rename_i hq
      rw [hq, Pc.writing_of_call hcall, Pc.writing_of_call hcall']
    · rfl
  have hstored : ∀ q, ((s.goto p pc).pc q).stored? = (s.pc q).stored? := by
    intro q
    rw [State.goto_pc]
    split
    · rename_i hq
      rw [hq, hnone, hnone']
    · rfl
  have hbumping : ∀ q, ((s.goto p pc).pc q).bumping = (s.pc q).bumping := by
    intro q
    rw [State.goto_pc]
    split
    · rename_i hq
      rw [hq, Pc.not_bumping hnone, Pc.not_bumping hnone']
    · rfl
  have hsame : ∀ c', pc.call? = some c' → c' = c := by
    intro c' h
    rw [hcall', Option.some.injEq] at h
    exact h.symm
  constructor
  all_goals try simp only [hwriting, hstored, hbumping]
  · exact hc.one
  · exact hc.settled
  · exact hc.storedBy
  · intro q c' l a hq
    rw [State.goto_pc] at hq
    split at hq
    · cases hsame c' (by rw [hq]; rfl)
      exact hput l a hq
    · exact hc.put q c' l a hq
  · intro q c' op hq
    rw [State.goto_pc] at hq
    split at hq
    · cases hsame c' (Pc.call_of_reading hq)
      exact htail op hq
    · exact hc.tail q c' op hq
  · intro q n hq
    rw [State.goto_pc] at hq
    split at hq
    · rename_i hqp
      rw [hqp]
      rcases hnow n hq with h | rfl
      · exact hc.now p n h
      · exact ⟨le_rfl, fun _ => rfl⟩
    · exact hc.now q n hq
  · intro q c' op n l hq
    rw [State.goto_pc] at hq
    split at hq
    · cases hsame c' (by rw [hq]; rfl)
      have hl := hread op n l hq
      exact ⟨fun _ => hl, fun _ => .inl hl⟩
    · exact hc.read q c' op n l hq
  · intro q c' l a new hq
    rw [State.goto_pc] at hq
    split at hq
    · simp [hq, Pc.stored?] at hnone'
    · exact hc.written q c' l a new hq
  · exact hc.cached

/-- A process steps inside `array_of/1`. -/
theorem coherent_reading (hc : Coherent tt contents s) {p : P} {c : Call} {op : Op} {pc : Pc}
    (hpc : (s.pc p).reading? = some (c, op)) (hpc' : pc.reading? = some (c, op))
    (hnow : ∀ n, pc.now? = some n → (s.pc p).now? = some n ∨ n = s.version)
    (hread : ∀ op n l, pc = .cacheRead c op n l → l = s.stored) :
    Coherent tt contents (s.goto p pc) := by
  refine coherent_move hc (Pc.call_of_reading hpc) (Pc.call_of_reading hpc')
    (Pc.not_stored_of_reading hpc) (Pc.not_stored_of_reading hpc') ?_ ?_ hnow hread
  · intro l a h
    rw [h] at hpc'
    cases hpc'
  · intro op' h
    rw [hpc', Option.some.injEq] at h
    cases h
    exact hc.tail p c op hpc

/-- The process caches what it read. -/
theorem coherent_putCache (hc : Coherent tt contents s) {p : P} {v : ℕ} {l : List Value}
    (hv : v ≤ s.version) (hl : v = s.version → l = s.stored ∨
      l = replay tt contents s.completed ∧ ∃ q, (s.pc q).bumping = true) :
    Coherent tt contents (s.putCache p v l) := by
  refine ⟨hc.one, hc.settled, hc.storedBy, hc.put, hc.tail, hc.now, hc.read, hc.written, ?_⟩
  intro q w l' hq
  simp only [State.putCache, Function.update_apply] at hq
  split at hq
  · cases hq
    exact ⟨hv, hl⟩
  · exact hc.cached q w l' hq

omit [DecidableEq P] in
theorem Coherent.writing_of_stored (hc : Coherent tt contents s) {p : P} {c : Call}
    {l : List Value} {a : Answer} (h : (s.pc p).stored? = some (c, l, a)) :
    (s.pc p).writing = true := by
  rw [Pc.writing_of_call (Pc.call_of_stored h)]
  exact (hc.storedBy p c l a h).1

omit [DecidableEq P] in
theorem Coherent.writing_of_bumping (hc : Coherent tt contents s) {p : P}
    (h : (s.pc p).bumping = true) : (s.pc p).writing = true := by
  obtain ⟨c, l, a, hs⟩ := Pc.stored_of_bumping h
  exact hc.writing_of_stored hs

/-- A call ends: either it has left the contents as they were, or it is the one that stored them
and nobody else is writing. -/
theorem coherent_finish (hc : Coherent tt contents s) {p : P} {c : Call} {a : Answer}
    (hkeep : (s.pc p).stored? = none ∧
        (c.op.apply tt (replay tt contents s.completed)).1 = replay tt contents s.completed ∨
      (∀ q, q ≠ p → (s.pc q).writing = false) ∧ (s.pc p).bumping = false ∧
        (c.op.apply tt (replay tt contents s.completed)).1 = s.stored) :
    Coherent tt contents (s.finish p c a) := by
  set R := replay tt contents s.completed with hR
  have hreplay : replay tt contents (s.finish p c a).completed = (c.op.apply tt R).1 :=
    replay_append_singleton tt contents s.completed _
  -- whoever is doing anything afterwards is somebody else, and stood there before
  have hother : ∀ q, (s.finish p c a).pc q = if q = p then .idle else s.pc q :=
    (State.goto_pc _ p · _)
  have hback : ∀ q, (s.finish p c a).pc q ≠ .idle →
      q ≠ p ∧ (s.finish p c a).pc q = s.pc q := by
    intro q hq
    rw [hother] at hq ⊢
    split at hq
    · exact absurd rfl hq
    · rename_i hqp
      exact ⟨hqp, if_neg hqp⟩
  have hlast : ∀ l, (l = s.stored ∨ l = R ∧ ∃ q, (s.pc q).bumping = true) →
      l = s.stored ∨ l = (c.op.apply tt R).1 ∧ ∃ q, ((s.finish p c a).pc q).bumping = true := by
    rintro l (rfl | ⟨rfl, q, hq⟩)
    · exact .inl rfl
    · rcases hkeep with ⟨hnone, hsame⟩ | ⟨hnobody, hbump, -⟩
      · refine .inr ⟨hsame.symm, q, ?_⟩
        rw [hother, if_neg]
        · exact hq
        · rintro rfl
          obtain ⟨c', l', a', hs⟩ := Pc.stored_of_bumping hq
          rw [hs] at hnone
          cases hnone
      · by_cases hqp : q = p
        · rw [hqp, hbump] at hq
          cases hq
        · have hw := hc.writing_of_bumping hq
          rw [hnobody q hqp] at hw
          cases hw
  constructor
  all_goals try rw [hreplay]
  · intro q r hq hr
    have hq' := hback q (by rintro h; rw [h] at hq; cases hq)
    have hr' := hback r (by rintro h; rw [h] at hr; cases hr)
    rw [hq'.2] at hq
    rw [hr'.2] at hr
    exact hc.one q r hq hr
  · intro hnone
    rcases hkeep with ⟨hp, hsame⟩ | ⟨-, -, hstored⟩
    · rw [hsame]
      apply hc.settled
      intro q
      by_cases hqp : q = p
      · rw [hqp]
        exact hp
      · have h := hnone q
        rwa [hother, if_neg hqp] at h
    · exact hstored.symm
  · intro q c' l a' hq
    obtain ⟨hqp, hq'⟩ := hback q (by rintro h; rw [h] at hq; cases hq)
    rw [hq'] at hq
    rcases hkeep with ⟨-, hsame⟩ | ⟨hnobody, -, -⟩
    · rw [hsame]
      exact hc.storedBy q c' l a' hq
    · have hw := hc.writing_of_stored hq
      rw [hnobody q hqp] at hw
      cases hw
  · intro q c' l a' hq
    obtain ⟨hqp, hq'⟩ := hback q (by rw [hq]; nofun)
    rw [hq'] at hq
    obtain ⟨hwrites, happly⟩ := hc.put q c' l a' hq
    rcases hkeep with ⟨-, hsame⟩ | ⟨hnobody, -, -⟩
    · rw [hsame]
      exact ⟨hwrites, happly⟩
    · have hw := hnobody q hqp
      rw [hq, Pc.writing_of_call rfl, hwrites] at hw
      cases hw
  · intro q c' op hq
    obtain ⟨hqp, hq'⟩ := hback q (by rintro h; rw [h] at hq; cases hq)
    rw [hq'] at hq
    obtain ⟨hself, htail⟩ := hc.tail q c' op hq
    refine ⟨hself, fun hwrites => ?_⟩
    rcases hkeep with ⟨-, hsame⟩ | ⟨hnobody, -, -⟩
    · rw [hsame]
      exact htail hwrites
    · have hw := hnobody q hqp
      rw [Pc.writing_of_call (Pc.call_of_reading hq), hwrites] at hw
      cases hw
  · intro q n hq
    obtain ⟨-, hq'⟩ := hback q (by rintro h; rw [h] at hq; cases hq)
    rw [hq'] at hq ⊢
    exact hc.now q n hq
  · intro q c' op n l hq
    obtain ⟨-, hq'⟩ := hback q (by rw [hq]; nofun)
    rw [hq'] at hq
    obtain ⟨hwriter, hreader⟩ := hc.read q c' op n l hq
    exact ⟨hwriter, fun hn => hlast l (hreader hn)⟩
  · intro q c' l a' new hq
    obtain ⟨-, hq'⟩ := hback q (by rw [hq]; nofun)
    rw [hq'] at hq
    exact hc.written q c' l a' new hq
  · intro q v l hq
    obtain ⟨hv, hl⟩ := hc.cached q v l hq
    exact ⟨hv, fun h => hlast l (hl h)⟩

/-- `array_of/1` has answered. -/
theorem coherent_proceed (hc : Coherent tt contents s) {p : P} {c : Call} {op : Op}
    {l : List Value} (hpc : (s.pc p).reading? = some (c, op))
    (hl : c.op.writes = true → l = s.stored) : Coherent tt contents (s.proceed tt p c op l) := by
  have hnone := Pc.not_stored_of_reading hpc
  have hcall := Pc.call_of_reading hpc
  obtain ⟨hself, htail⟩ := hc.tail p c op hpc
  -- a writer has the contents in hand
  have hcontents : c.op.writes = true → l = replay tt contents s.completed := by
    intro hwrites
    have hw : (s.pc p).writing = true := by rw [Pc.writing_of_call hcall, hwrites]
    rw [hl hwrites, hc.settled fun q => hc.nobody hw hnone q]
  unfold State.proceed
  split
  · rename_i a hafter
    refine coherent_finish hc (.inl ⟨hnone, ?_⟩)
    cases hwrites : c.op.writes with
    | false => exact apply_of_not_writes hwrites
    | true =>
      rw [(htail hwrites).2, ← hcontents hwrites, apply_of_done hafter]
  · rename_i l' a hafter
    have hwrites : c.op.writes = true := by
      by_contra hne
      have hne' : c.op.writes = false := by simpa using hne
      rw [hself hne', after_of_not_writes hne'] at hafter
      cases hafter
    refine coherent_move hc hcall rfl hnone rfl ?_ nofun nofun nofun
    intro l₁ a₁ h
    cases h
    rw [(htail hwrites).2, ← hcontents hwrites]
    exact ⟨hwrites, apply_of_store hafter⟩
  · rename_i op' hafter
    have hwrites : c.op.writes = true := by
      by_contra hne
      have hne' : c.op.writes = false := by simpa using hne
      rw [hself hne', after_of_not_writes hne'] at hafter
      cases hafter
    refine coherent_move hc hcall rfl hnone rfl nofun ?_ nofun nofun
    intro op₁ h
    cases h
    refine ⟨fun h => absurd (hwrites.symm.trans h) nofun, fun _ => ⟨writes_of_call hafter, ?_⟩⟩
    rw [(htail hwrites).2, ← hcontents hwrites]
    exact apply_of_call hafter

/-- `table_put/2` by the one process that writes. -/
theorem coherent_tablePut (hc : Coherent tt contents s) {p : P} {c : Call} {l : List Value}
    {a : Answer} (hpc : s.pc p = .tablePut c l a) :
    Coherent tt contents ({ s with stored := l }.goto p (.bumpVersion c l a)) := by
  obtain ⟨hwrites, happly⟩ := hc.put p c l a hpc
  have hp : (s.pc p).writing = true := by
    rw [hpc, Pc.writing_of_call rfl, hwrites]
  have hsettled : s.stored = replay tt contents s.completed :=
    hc.settled fun q => hc.nobody hp (by rw [hpc]; rfl) q
  have hnobump : ∀ q, (s.pc q).bumping = false := fun q =>
    Pc.not_bumping (hc.nobody hp (by rw [hpc]; rfl) q)
  set s' := ({ s with stored := l } : State P).goto p (.bumpVersion c l a) with hs'
  have hpc' : ∀ q, s'.pc q = if q = p then .bumpVersion c l a else s.pc q :=
    (State.goto_pc _ p · _)
  -- what was a copy of the contents is a copy of them before this write
  have hold : ∀ x, (x = s.stored ∨ x = replay tt contents s.completed ∧
      ∃ q, (s.pc q).bumping = true) → x = s'.stored ∨ x = replay tt contents s'.completed ∧
        ∃ q, (s'.pc q).bumping = true := by
    intro x hx
    refine .inr ⟨?_, p, ?_⟩
    · rcases hx with rfl | ⟨rfl, -⟩
      · exact hsettled
      · rfl
    · rw [hpc', if_pos rfl]
      rfl
  have hwriting : ∀ q, (s'.pc q).writing = (s.pc q).writing := by
    intro q
    rw [hpc']
    split
    · rename_i hq
      rw [hq, hpc]
      rfl
    · rfl
  have hstored : ∀ q x, (s'.pc q).stored? = some x → q = p ∧ x = (c, l, a) := by
    intro q x hx
    rw [hpc'] at hx
    split at hx
    · rename_i hq
      cases hx
      exact ⟨hq, rfl⟩
    · rw [hc.nobody hp (by rw [hpc]; rfl) q] at hx
      cases hx
  constructor
  · intro q r hq hr
    rw [hwriting] at hq hr
    exact hc.one q r hq hr
  · intro h
    have hp' := h p
    rw [hpc', if_pos rfl] at hp'
    cases hp'
  · intro q c' l' a' hq
    obtain ⟨-, hx⟩ := hstored q _ hq
    cases hx
    exact ⟨hwrites, rfl, happly⟩
  · intro q c' l' a' hq
    rw [hpc'] at hq
    split at hq
    · cases hq
    · exact hc.put q c' l' a' hq
  · intro q c' op hq
    rw [hpc'] at hq
    split at hq
    · cases hq
    · exact hc.tail q c' op hq
  · intro q n hq
    rw [hwriting]
    rw [hpc'] at hq
    split at hq
    · cases hq
    · exact hc.now q n hq
  · intro q c' op n x hq
    rw [hpc'] at hq
    split at hq
    · cases hq
    · rename_i hqp
      obtain ⟨-, hreader⟩ := hc.read q c' op n x hq
      refine ⟨fun hw => ?_, fun hn => hold x (hreader hn)⟩
      -- nobody else is writing
      refine absurd (hc.one q p ?_ hp) hqp
      rw [hq, Pc.writing_of_call rfl, hw]
  · intro q c' l' a' new hq
    rw [hpc'] at hq
    split at hq
    · cases hq
    · exact hc.written q c' l' a' new hq
  · intro q v x hq
    obtain ⟨hv, hx⟩ := hc.cached q v x hq
    exact ⟨hv, fun h => hold x (hx h)⟩

/-- The bump: every copy there is is now of an older version. -/
theorem coherent_bumpVersion (hc : Coherent tt contents s) {p : P} {c : Call} {l : List Value}
    {a : Answer} (hpc : s.pc p = .bumpVersion c l a) (hwrap : s.version + 1 < wordSize) :
    Coherent tt contents ({ s with version := addGet s.version 1 }.goto p
      (.cacheWrite c l a (addGet s.version 1))) := by
  rw [addGet_of_lt hwrap]
  set s' := ({ s with version := s.version + 1 } : State P).goto p
    (.cacheWrite c l a (s.version + 1)) with hs'
  have hpc' : ∀ q, s'.pc q = if q = p then .cacheWrite c l a (s.version + 1) else s.pc q :=
    (State.goto_pc _ p · _)
  have hp : (s.pc p).writing = true := by
    apply hc.writing_of_stored (c := c) (l := l) (a := a)
    rw [hpc]
    rfl
  have hwriting : ∀ q, (s'.pc q).writing = (s.pc q).writing := by
    intro q
    rw [hpc']
    split
    · rename_i hq
      rw [hq, hpc]
      rfl
    · rfl
  have hstored : ∀ q, (s'.pc q).stored? = (s.pc q).stored? := by
    intro q
    rw [hpc']
    split
    · rename_i hq
      rw [hq, hpc]
      rfl
    · rfl
  have holder : ∀ n, n ≤ s.version → n ≤ s'.version ∧ n ≠ s'.version := by
    intro n hn
    have hlt : n < s.version + 1 := Nat.lt_succ_of_le hn
    exact ⟨hlt.le, hlt.ne⟩
  constructor
  all_goals try simp only [hwriting, hstored]
  · exact hc.one
  · exact hc.settled
  · exact hc.storedBy
  · intro q c' l' a' hq
    rw [hpc'] at hq
    split at hq
    · cases hq
    · exact hc.put q c' l' a' hq
  · intro q c' op hq
    rw [hpc'] at hq
    split at hq
    · cases hq
    · exact hc.tail q c' op hq
  · intro q n hq
    rw [hpc'] at hq
    split at hq
    · cases hq
    · rename_i hqp
      obtain ⟨hn, -⟩ := hc.now q n hq
      exact ⟨(holder n hn).1, fun hw => absurd (hc.one q p hw hp) hqp⟩
  · intro q c' op n x hq
    rw [hpc'] at hq
    split at hq
    · cases hq
    · have hn := (hc.now q n (by rw [hq]; rfl)).1
      exact ⟨(hc.read q c' op n x hq).1, fun h => absurd h (holder n hn).2⟩
  · intro q c' l' a' new hq
    rw [hpc'] at hq
    split at hq
    · cases hq
      rfl
    · rename_i hqp
      have hw : (s.pc q).writing = true := by
        apply hc.writing_of_stored (c := c') (l := l') (a := a')
        rw [hq]
        rfl
      exact absurd (hc.one q p hw hp) hqp
  · intro q v x hq
    have hv := (hc.cached q v x hq).1
    exact ⟨(holder v hv).1, fun h => absurd h (holder v hv).2⟩

theorem coherent_cacheWrite (hc : Coherent tt contents s) {p : P} {c : Call} {l : List Value}
    {a : Answer} {new : ℕ} (hpc : s.pc p = .cacheWrite c l a new) :
    Coherent tt contents ((s.putCache p new l).finish p c a) := by
  have hs : (s.pc p).stored? = some (c, l, a) := by rw [hpc]; rfl
  obtain ⟨-, hstored, happly⟩ := hc.storedBy p c l a hs
  have hp := hc.writing_of_stored hs
  have hnew := hc.written p c l a new hpc
  have hcache : Coherent tt contents (s.putCache p new l) :=
    coherent_putCache hc hnew.le fun _ => .inl hstored.symm
  refine coherent_finish hcache (.inr ⟨fun q hq => ?_, ?_, ?_⟩)
  · cases hw : (s.pc q).writing with
    | false => exact hw
    | true => exact absurd (hc.one q p hw hp) hq
  · show (s.pc p).bumping = false
    rw [hpc]
    rfl
  · show (c.op.apply tt (replay tt contents s.completed)).1 = s.stored
    rw [happly, hstored]

theorem coherent_call (hc : Coherent tt contents s) {p : P} {op : Op} (hpc : s.pc p = .idle)
    (hserial : op.writes = true → ∀ q, (s.pc q).writing = false) :
    Coherent tt contents
      ({ s with clock := s.clock + 1 }.goto p (.readVersion ⟨op, s.clock⟩ op)) := by
  set s' := ({ s with clock := s.clock + 1 } : State P).goto p (.readVersion ⟨op, s.clock⟩ op)
  have hpc' : ∀ q, s'.pc q = if q = p then .readVersion ⟨op, s.clock⟩ op else s.pc q :=
    (State.goto_pc _ p · _)
  have hstored : ∀ q, (s'.pc q).stored? = (s.pc q).stored? := by
    intro q
    rw [hpc']
    split
    · rename_i hq
      rw [hq, hpc]
      rfl
    · rfl
  have hbumping : ∀ q, (s'.pc q).bumping = (s.pc q).bumping := by
    intro q
    rw [hpc']
    split
    · rename_i hq
      rw [hq, hpc]
      rfl
    · rfl
  have hwriting : ∀ q, (s'.pc q).writing = true → q = p ∧ op.writes = true ∨
      q ≠ p ∧ (s.pc q).writing = true := by
    intro q hq
    rw [hpc'] at hq
    split at hq
    · rename_i hqp
      exact .inl ⟨hqp, hq⟩
    · rename_i hqp
      exact .inr ⟨hqp, hq⟩
  constructor
  all_goals try simp only [hstored, hbumping]
  · intro q r hq hr
    rcases hwriting q hq with ⟨hqp, hw⟩ | ⟨-, hqw⟩ <;>
      rcases hwriting r hr with ⟨hrp, hw'⟩ | ⟨-, hrw⟩
    · rw [hqp, hrp]
    · rw [hserial hw r] at hrw
      cases hrw
    · rw [hserial hw' q] at hqw
      cases hqw
    · exact hc.one q r hqw hrw
  · exact hc.settled
  · exact hc.storedBy
  · intro q c l a hq
    rw [hpc'] at hq
    split at hq
    · cases hq
    · exact hc.put q c l a hq
  · intro q c op' hq
    rw [hpc'] at hq
    split at hq
    · cases hq
      exact ⟨fun _ => rfl, fun hw => ⟨hw, rfl⟩⟩
    · exact hc.tail q c op' hq
  · intro q n hq
    rw [hpc'] at hq ⊢
    split at hq
    · cases hq
    · rename_i hqp
      rw [if_neg hqp]
      exact hc.now q n hq
  · intro q c op' n l hq
    rw [hpc'] at hq
    split at hq
    · cases hq
    · exact hc.read q c op' n l hq
  · intro q c l a new hq
    rw [hpc'] at hq
    split at hq
    · cases hq
    · exact hc.written q c l a new hq
  · exact hc.cached

theorem coherent_go (hc : Coherent tt contents s) {p : P} (hok : SerialWrites s (.go p))
    (h : s.go tt p (s.pc p) = some s') : Coherent tt contents s' := by
  cases hpc : s.pc p with
  | idle =>
    rw [hpc] at h
    cases h
  | readVersion c op =>
    rw [hpc] at h
    cases h
    have hreading : (s.pc p).reading? = some (c, op) := by rw [hpc]; rfl
    refine coherent_reading hc hreading rfl ?_ nofun
    intro n hn
    cases hn
    exact .inr rfl
  | lookupCache c op now =>
    have hreading : (s.pc p).reading? = some (c, op) := by rw [hpc]; rfl
    have hmiss : Coherent tt contents (s.goto p (.readStore c op now)) := by
      refine coherent_reading hc hreading rfl ?_ nofun
      intro n hn
      rw [hpc]
      exact .inl hn
    rw [hpc] at h
    simp only [State.go] at h
    split at h
    · rename_i v l hcache
      split at h
      · rename_i hv
        cases h
        refine coherent_proceed hc hreading fun hwrites => ?_
        -- a hit: the copy is of the version read, and nobody has stored since
        have hw : (s.pc p).writing = true := by
          rw [Pc.writing_of_call (Pc.call_of_reading hreading), hwrites]
        have hnow := (hc.now p now (by rw [hpc]; rfl)).2 hw
        rcases (hc.cached p v l hcache).2 (hv.trans hnow) with h | ⟨-, q, hq⟩
        · exact h
        · have hnobody := hc.nobody hw (Pc.not_stored_of_reading hreading) q
          rw [Pc.not_bumping hnobody] at hq
          cases hq
      · cases h
        exact hmiss
    · cases h
      exact hmiss
  | readStore c op now =>
    rw [hpc] at h
    cases h
    have hreading : (s.pc p).reading? = some (c, op) := by rw [hpc]; rfl
    refine coherent_reading hc hreading rfl ?_ ?_
    · intro n hn
      rw [hpc]
      exact .inl hn
    · intro op' n l h
      cases h
      rfl
  | cacheRead c op now l =>
    rw [hpc] at h
    cases h
    obtain ⟨hwriter, hreader⟩ := hc.read p c op now l hpc
    have hnow := (hc.now p now (by rw [hpc]; rfl)).1
    refine coherent_proceed (coherent_putCache hc hnow hreader) ?_ hwriter
    show (s.pc p).reading? = _
    rw [hpc]
    rfl
  | tablePut c l a =>
    rw [hpc] at h
    cases h
    exact coherent_tablePut hc hpc
  | bumpVersion c l a =>
    rw [hpc] at h
    cases h
    refine coherent_bumpVersion hc hpc ?_
    simpa [SerialWrites, hpc] using hok
  | cacheWrite c l a new =>
    rw [hpc] at h
    cases h
    exact coherent_cacheWrite hc hpc

theorem coherent_step {a : Act P} (hc : Coherent tt contents s) (hok : SerialWrites s a)
    (h : step tt s a = some s') : Coherent tt contents s' := by
  cases a with
  | call p op =>
    simp only [step, Option.ite_none_right_eq_some, Option.some.injEq] at h
    obtain ⟨hpc, rfl⟩ := h
    exact coherent_call hc hpc hok
  | go p => exact coherent_go hc hok h
  | evict p =>
    simp only [step, Option.ite_none_right_eq_some, Option.some.injEq] at h
    obtain ⟨-, rfl⟩ := h
    refine ⟨hc.one, hc.settled, hc.storedBy, hc.put, hc.tail, hc.now, hc.read, hc.written, ?_⟩
    intro q v l hq
    simp only [Function.update_apply] at hq
    split at hq
    · cases hq
    · exact hc.cached q v l hq

theorem coherent_of_serial (h : Run.ReachableIf (step tt) SerialWrites (State.init contents) s) :
    Coherent tt contents s :=
  h.invariant (Coherent tt contents) (coherent_init tt contents)
    fun _ _ _ hc hok hs => coherent_step hc hok hs

/-! ## Real time -/

/-- Operations are numbered by when they began and ended. -/
structure Timed (s : State P) : Prop where
  begun : ∀ p c, (s.pc p).call? = some c → c.started < s.clock
  ended : ∀ d ∈ s.completed, d.call.started < d.ended ∧ d.ended < s.clock
  sorted : s.completed.Pairwise fun d d' => d.ended < d'.ended

omit [DecidableEq P] in
theorem timed_init (contents : List Value) : Timed (State.init contents : State P) := by
  constructor <;> simp [State.init, Pc.call?]

theorem timed_move (ht : Timed s) {p : P} {c : Call} {pc : Pc}
    (hcall : (s.pc p).call? = some c) (hcall' : pc.call? = some c) : Timed (s.goto p pc) := by
  refine ⟨fun q c' hq => ?_, ht.ended, ht.sorted⟩
  rw [State.goto_pc] at hq
  split at hq
  · rw [hcall', Option.some.injEq] at hq
    exact hq ▸ ht.begun p c hcall
  · exact ht.begun q c' hq

theorem timed_finish (ht : Timed s) {p : P} {c : Call} {a : Answer}
    (hcall : (s.pc p).call? = some c) : Timed (s.finish p c a) := by
  refine ⟨fun q c' hq => ?_, fun d hd => ?_, ?_⟩
  · rw [State.finish, State.goto_pc] at hq
    split at hq
    · cases hq
    · exact Nat.lt_succ_of_lt (ht.begun q c' hq)
  · rcases List.mem_append.mp hd with hd | hd
    · exact ⟨(ht.ended d hd).1, Nat.lt_succ_of_lt (ht.ended d hd).2⟩
    · rw [List.mem_singleton.mp hd]
      exact ⟨ht.begun p c hcall, Nat.lt_succ_self _⟩
  · refine List.pairwise_append.mpr ⟨ht.sorted, List.pairwise_singleton _ _, fun d hd d' hd' => ?_⟩
    rw [List.mem_singleton.mp hd']
    exact (ht.ended d hd).2

theorem timed_proceed (ht : Timed s) {p : P} {c : Call} {op : Op} {l : List Value}
    (hcall : (s.pc p).call? = some c) : Timed (s.proceed tt p c op l) := by
  unfold State.proceed
  split
  · exact timed_finish ht hcall
  · exact timed_move ht hcall rfl
  · exact timed_move ht hcall rfl

theorem timed_step {a : Act P} (ht : Timed s) (h : step tt s a = some s') : Timed s' := by
  cases a with
  | call p op =>
    simp only [step, Option.ite_none_right_eq_some, Option.some.injEq] at h
    obtain ⟨-, rfl⟩ := h
    refine ⟨fun q c hq => ?_, fun d hd => ?_, ht.sorted⟩
    · rw [State.goto_pc] at hq
      split at hq
      · cases hq
        exact Nat.lt_succ_self _
      · exact Nat.lt_succ_of_lt (ht.begun q c hq)
    · exact ⟨(ht.ended d hd).1, Nat.lt_succ_of_lt (ht.ended d hd).2⟩
  | go p =>
    simp only [step] at h
    cases hpc : s.pc p with
    | idle =>
      rw [hpc] at h
      cases h
    | lookupCache c op now =>
      have hcall : (s.pc p).call? = some c := by rw [hpc]; rfl
      rw [hpc] at h
      simp only [State.go] at h
      split at h
      · split at h
        · cases h
          exact timed_proceed ht hcall
        · cases h
          exact timed_move ht hcall rfl
      · cases h
        exact timed_move ht hcall rfl
    | cacheRead c op now l =>
      have hcall : (s.pc p).call? = some c := by rw [hpc]; rfl
      rw [hpc] at h
      cases h
      exact timed_proceed (s := s.putCache p now l) ⟨ht.begun, ht.ended, ht.sorted⟩ hcall
    | cacheWrite c l a new =>
      have hcall : (s.pc p).call? = some c := by rw [hpc]; rfl
      rw [hpc] at h
      cases h
      exact timed_finish (s := s.putCache p new l) ⟨ht.begun, ht.ended, ht.sorted⟩ hcall
    | readVersion c op | readStore c op now =>
      rw [hpc] at h
      cases h
      exact timed_move ht (c := c) (by rw [hpc]; rfl) rfl
    | tablePut c l a =>
      rw [hpc] at h
      cases h
      exact timed_move (s := { s with stored := l }) ⟨ht.begun, ht.ended, ht.sorted⟩ (c := c)
        (by show (s.pc p).call? = _; rw [hpc]; rfl) rfl
    | bumpVersion c l a =>
      rw [hpc] at h
      cases h
      exact timed_move (s := { s with version := addGet s.version 1 })
        ⟨ht.begun, ht.ended, ht.sorted⟩ (c := c) (by show (s.pc p).call? = _; rw [hpc]; rfl) rfl
  | evict p =>
    simp only [step, Option.ite_none_right_eq_some, Option.some.injEq] at h
    obtain ⟨-, rfl⟩ := h
    exact ⟨ht.begun, ht.ended, ht.sorted⟩

/-! ## The claim and its failure -/

/-- `p` calls `op`, runs alone and is answered `a`. -/
def AnswersAlone (tt : TableType) (s : State P) (p : P) (op : Op) (a : Answer) : Prop :=
  ∃ k s', Run.exec (step tt) (.call p op :: List.replicate k (.go p)) s = some s' ∧
    s'.pc p = .idle ∧ ∃ d, s'.completed = s.completed ++ [d] ∧ d.call.op = op ∧ d.answer = a

theorem State.finish_pc (s : State P) (p : P) (c : Call) (a : Answer) :
    (s.finish p c a).pc p = .idle := by
  rw [State.finish, State.goto_pc, if_pos rfl]

/-- A reader alone with a cache that can be trusted is answered from the contents. -/
theorem answersAlone_read (hcached : ∀ v l, s.cache p = some (v, l) → v = s.version →
    l = s.stored) {op : Op} (hop : op.writes = false) (hpc : s.pc p = .idle) :
    AnswersAlone tt s p op (op.apply tt s.stored).2 := by
  set c : Call := ⟨op, s.clock⟩
  set s₁ := ({ s with clock := s.clock + 1 } : State P).goto p (.readVersion c op) with hs₁
  have hcall : step tt s (.call p op) = some s₁ := by
    simp only [step, if_pos hpc]
    rfl
  have hpc₁ : s₁.pc p = .readVersion c op := by rw [hs₁, State.goto_pc, if_pos rfl]
  set s₂ := s₁.goto p (.lookupCache c op s.version) with hs₂
  have hversion : step tt s₁ (.go p) = some s₂ := by
    simp only [step, hpc₁, State.go]
    rfl
  have hpc₂ : s₂.pc p = .lookupCache c op s.version := by rw [hs₂, State.goto_pc, if_pos rfl]
  have hproceed : ∀ t : State P,
      t.proceed tt p c op s.stored = t.finish p c (op.apply tt s.stored).2 := by
    intro t
    rw [State.proceed, after_of_not_writes hop]
  by_cases hhit : ∃ l, s.cache p = some (s.version, l)
  · obtain ⟨l, hl⟩ := hhit
    have hstored : l = s.stored := hcached _ l hl rfl
    have hlookup : step tt s₂ (.go p) = some (s₂.finish p c (op.apply tt s.stored).2) := by
      simp only [step, hpc₂, State.go]
      rw [show s₂.cache p = some (s.version, l) from hl]
      simp only [if_true]
      rw [hstored, hproceed]
    refine ⟨2, _, ?_, State.finish_pc s₂ p c _, _, rfl, rfl, rfl⟩
    simp only [List.replicate, Run.exec, hcall, hversion, hlookup, Option.bind_some]
  · set s₃ := s₂.goto p (.readStore c op s.version) with hs₃
    have hlookup : step tt s₂ (.go p) = some s₃ := by
      simp only [step, hpc₂, State.go]
      split
      · rename_i v l hl
        rw [if_neg]
        rintro rfl
        exact hhit ⟨l, hl⟩
      · rfl
    have hpc₃ : s₃.pc p = .readStore c op s.version := by rw [hs₃, State.goto_pc, if_pos rfl]
    set s₄ := s₃.goto p (.cacheRead c op s.version s.stored) with hs₄
    have hstore : step tt s₃ (.go p) = some s₄ := by
      simp only [step, hpc₃, State.go]
      rfl
    have hpc₄ : s₄.pc p = .cacheRead c op s.version s.stored := by
      rw [hs₄, State.goto_pc, if_pos rfl]
    have hcache : step tt s₄ (.go p) =
        some ((s₄.putCache p s.version s.stored).finish p c (op.apply tt s.stored).2) := by
      simp only [step, hpc₄, State.go]
      rw [hproceed]
    refine ⟨4, (s₄.putCache p s.version s.stored).finish p c _, ?_, State.finish_pc _ p c _, _,
      rfl, rfl, rfl⟩
    simp only [List.replicate, Run.exec, hcall, hversion, hlookup, hstore, hcache,
      Option.bind_some]

/-- With no operation in progress: every process is answered from the same contents, these are
what the completed operations make one after the other, and a cache of the current version is a
copy of them. -/
structure State.Linear (tt : TableType) (contents : List Value) (s : State P) : Prop where
  agreed : ∀ p op, op.writes = false → AnswersAlone tt s p op (op.apply tt s.stored).2
  ordered : ∃ order, order.Perm s.completed ∧
    order.Pairwise (fun d d' => ¬ d'.ended < d.call.started) ∧
    s.stored = replay tt contents order
  cached : ∀ p v l, s.cache p = some (v, l) → v = s.version → l = s.stored

theorem linear_of_serial (h : Run.ReachableIf (step tt) SerialWrites (State.init contents) s)
    (hquiet : ∀ p, s.pc p = .idle) : s.Linear tt contents := by
  have hc := coherent_of_serial h
  have ht : Timed s := h.invariant Timed (timed_init contents) fun _ _ _ ht _ hs => timed_step ht hs
  have hcached : ∀ p v l, s.cache p = some (v, l) → v = s.version → l = s.stored := by
    intro p v l hp hv
    rcases (hc.cached p v l hp).2 hv with h | ⟨-, q, hq⟩
    · exact h
    · rw [hquiet q] at hq
      cases hq
  refine ⟨fun p op hop => answersAlone_read (hcached p) hop (hquiet p), ?_, hcached⟩
  refine ⟨s.completed, .refl _, ?_, hc.settled fun p => by rw [hquiet p]; rfl⟩
  -- in the order they ended, an operation that ended before another began comes first
  apply ht.sorted.imp_of_mem
  intro d d' hd _ hlt
  have hbegan := (ht.ended d hd).1
  omega

local instance writingProcesses : NeZero 2 := ⟨by decide⟩

/-- One process writes, the other reads, then writes after it. -/
def oneAfterTheOther : List (Act (Fin 2)) :=
  [.call 0 (.set 0 (.other 1)), .go 0, .go 0, .go 0, .go 0, .go 0, .call 1 (.get 0), .go 1,
    .go 0, .go 1, .go 1, .go 0, .go 1,
    .call 1 (.grow 1 (.other 2)), .go 1, .go 1, .go 1, .go 1, .go 1, .go 1, .go 1]

def smallTable : TableType where
  max := none
  index64 := false
  default := .null
  growLimit := 100

theorem linear_oneAfterTheOther : ∃ s : State (Fin 2),
    Run.execIf (step smallTable) SerialWrites oneAfterTheOther (State.init [.null]) = some s ∧
      (∀ p, s.pc p = .idle) ∧ s.stored = [.other 1, .other 2] ∧ s.Linear smallTable [.null] := by
  have hrun : (Run.execIf (step smallTable) SerialWrites oneAfterTheOther
      (State.init [.null])).any (fun s => decide (∀ p, s.pc p = .idle) &&
        s.stored == [.other 1, .other 2]) = true := by decide +kernel
  obtain ⟨s, hs, hboth⟩ := (Option.any_eq_true _ _).mp hrun
  simp only [Bool.and_eq_true, beq_iff_eq, decide_eq_true_eq] at hboth
  exact ⟨s, hs, hboth.1, hboth.2,
    linear_of_serial (Run.ReachableIf.init.of_execIf hs) hboth.1⟩

/-- Both read the same version; 1 stores over 0's store and bumps first. -/
def crossedWrites : List (Act (Fin 2)) :=
  [.call 0 (.set 0 (.other 1)), .go 0, .go 0, .go 0, .go 0,
    .call 1 (.set 1 (.other 2)), .go 1, .go 1, .go 1, .go 1,
    .go 0, .go 1, .go 1, .go 1, .go 0, .go 0]

theorem not_linear :
    ¬ ∀ s : State (Fin 2), Run.Reachable (step smallTable) (State.init [.null, .null]) s →
      (∀ p, s.pc p = .idle) → s.Linear smallTable [.null, .null] := by
  intro hall
  have hrun : (Run.exec (step smallTable) crossedWrites (State.init [.null, .null])).any
      (fun s => decide (∀ p, s.pc p = .idle) && s.stored == [.null, .other 2] &&
        s.cache 0 == some (2, [.other 1, .null]) && s.version == 2) = true := by decide +kernel
  obtain ⟨s, hs, hboth⟩ := (Option.any_eq_true _ _).mp hrun
  simp only [Bool.and_eq_true, beq_iff_eq, decide_eq_true_eq] at hboth
  obtain ⟨⟨⟨hquiet, hstored⟩, hcache⟩, hversion⟩ := hboth
  have hlinear := hall s (Run.Reachable.of_exec .init hs) hquiet
  have hcopy := hlinear.cached 0 2 _ hcache hversion.symm
  rw [hstored] at hcopy
  exact absurd hcopy (by decide)

end ErlangWasm.Table
