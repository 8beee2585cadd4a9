import ErlangWasm.Reaper.Owners
import ErlangWasm.Reaper.Records

/-!
# The steward of a request

`wasm_cleanup_steward` carries the operations of one request to the reaper in order, and mirrors what
the reaper accepts.  A reaper that starts anew has the durable operations from the journal and asks
the steward for the rest.
-/

namespace ErlangWasm.Reaper

open Reasoning
open Wasi (Name)

/-- `#op{}`, but for whom it answers; the result is there when it is done. -/
structure Op where
  operation : Operation
  done : Option Reply

structure Steward where
  seq : ℕ
  ledger : Table ℕ Op
  actions : List (ℕ × Action)
  adapterState : Option Adapter

namespace Steward

def new : Steward := ⟨1, ∅, [], none⟩

/-- `forward/4`, below the ceiling. -/
def forward (w : Steward) (op : Operation) : Steward :=
  { w with seq := w.seq + 1, ledger := w.ledger.insert w.seq ⟨op, none⟩ }

def mirror (w : Steward) (op : Operation) (reply : Reply) : Steward :=
  match op, reply with
  | .register a, .token t => { w with actions := (t, a) :: w.actions }
  | .withdraw t, .ok => { w with actions := w.actions.eraseP fun a => a.1 = t }
  | .transfer a, .ok => { w with adapterState := some a }
  | _, _ => w

/-- The reaper's answer to the operation `seq`. -/
def answered (w : Steward) (seq : ℕ) (reply : Reply) : Steward :=
  match w.ledger.lookup seq with
  | some op =>
      { w with ledger := w.ledger.insert seq { op with done := some reply } }.mirror op.operation
        reply
  | none => w

def doneResults (w : Steward) : Table ℕ Reply := w.ledger.mapRows (·.done)

def pending (w : Steward) : List ℕ :=
  (w.ledger.entries.filter fun e => e.2.done.isNone).map (·.1)

def resumeSeq (w : Steward) : ℕ := w.pending.min?.getD w.seq

end Steward

/-! ## A request under way -/

/-- A request, from its reservation to the end of its reaper. -/
structure Errand where
  steward : Steward
  reaper : State
  /-- what the reaper has still to take from its mailbox -/
  sent : List (ℕ × Operation)
  /-- the record on disk -/
  file : List Char

inductive Errand.Act
  | forward (op : Operation)
  | answer (out : Outside)
  /-- the reaper works for another request, or for nobody -/
  | elsewhere (s : State)

/-- An `operation()`: what a guardian can forward. -/
def Operation.isForwarded : Operation → Prop
  | .register (.op o) => IsBinary o.path
  | .register (.run _) | .withdraw _ | .transfer _ => True
  | .finish => False

instance (op : Operation) : Decidable op.isForwarded := by
  cases op with
  | register a =>
    cases a with
    | op o => exact inferInstanceAs (Decidable (IsBinary o.path))
    | run f => exact inferInstanceAs (Decidable True)
  | withdraw t => exact inferInstanceAs (Decidable True)
  | transfer a => exact inferInstanceAs (Decidable True)
  | finish => exact inferInstanceAs (Decidable False)

namespace Errand

variable (id : RequestId) (me : Pid)

/-- The file after a message of the reaper: the record it wrote, if it wrote one. -/
def rewritten (x : Errand) (s : State) (out : Outside) : List Char :=
  match s.effects.drop x.reaper.effects.length, x.reaper.reqs.lookup id with
  | [.journal (.write _ ops)], some r =>
      if out.writes then encodeRecord x.reaper.incarnation id { r with ops } else x.file
  | _, _ => x.file

/-- Another state of the reaper, in which the request is as it was. -/
def undisturbed (x : Errand) (s : State) : State :=
  { s with
    incarnation := x.reaper.incarnation
    opts := x.reaper.opts
    reqs :=
      match x.reaper.reqs.lookup id with
      | some r => s.reqs.insert id r
      | none => s.reqs.erase id }

def step (x : Errand) : Act → Option Errand
  | .forward op =>
      if op.isForwarded then
        if x.reaper.opts.maxCleanupOperations < x.steward.seq then some x
        else
          some { x with
            steward := x.steward.forward op
            sent := x.sent ++ [(x.steward.seq, op)] }
      else none
  | .answer out =>
      match x.sent with
      | [] => none
      | (seq, op) :: sent =>
          let done := x.reaper.apply id me (id, seq) op out
          some {
            steward := x.steward.answered seq done.1
            reaper := done.2
            sent
            file := x.rewritten id done.2 out }
  | .elsewhere s => some { x with reaper := x.undisturbed id s }

/-- A reservation that is written. -/
def start (s : State) (guardian : Pid) (root : RootId) (relpath : Name) : Errand :=
  let reaper := (s.reserve id guardian me root relpath).2
  { steward := .new
    reaper
    sent := []
    file :=
      match reaper.reqs.lookup id with
      | some r => encodeRecord reaper.incarnation id r
      | none => [] }

/-- The next reaper after its sweep. -/
def swept (x : Errand) (opts : Settings) (disk : Disk) : State :=
  ((x.reaper.fresh opts disk).sweep disk).1

/-- The next reaper once the steward has answered its `adopt_request`, and the guardian its
handshake. -/
def adopted (x : Errand) (opts : Settings) (disk : Disk) : State :=
  let w := x.steward
  ((x.swept opts disk).adoptReply id w.doneResults w.resumeSeq w.actions
    w.adapterState).handshakeReply id true

end Errand

/-! ## An operation in order -/

/-- What it makes of the actions and of the adapter's state. -/
inductive Req.Answers (r : Req) (seq : ℕ) : Operation → Reply → Req → Prop
  | registered (a : Action) {r' : Req} (hactions : r'.actions = (seq, a, .owned) :: r.actions)
      (hcleanup : r'.cleanup = r.cleanup) : Answers r seq (.register a) (.token seq) r'
  | withdrawn (t : ℕ) {r' : Req} (hactions : r'.actions = r.actions.filter fun a => a.1 ≠ t)
      (hcleanup : r'.cleanup = r.cleanup) : Answers r seq (.withdraw t) .ok r'
  | transferred (a : Adapter) {r' : Req}
      (hactions : r'.actions = r.actions.map fun a => (a.1, a.2.1, .transferred))
      (hcleanup : r'.cleanup = some a) : Answers r seq (.transfer a) .ok r'
  | refused (op : Operation) (reply : Reply) (hok : reply ≠ .ok) (htoken : ∀ t, reply ≠ .token t) :
      Answers r seq op reply r

/-- Of the same owners, directory and sequence. -/
structure Req.Under (r r' : Req) : Prop where
  guardian : r'.guardian = r.guardian
  steward : r'.steward = r.steward
  root : r'.root = r.root
  relpath : r'.relpath = r.relpath
  finished : r'.finished = r.finished
  nextSeq : r'.nextSeq = r.nextSeq
  ledger : r'.ledger = r.ledger
  gen : r'.gen = r.gen

theorem Req.Under.refl (r : Req) : r.Under r := ⟨rfl, rfl, rfl, rfl, rfl, rfl, rfl, rfl⟩

namespace State

variable {s s' : State} {id : RequestId} {r r' : Req} {out : Outside}

/-- How the request is stored, and what is written of it. -/
inductive Stored (s : State) (id : RequestId) (r : Req) (out : Outside) : Req → State → Prop
  | same : Stored s id r out r s
  | put {r' : Req} (hops : r'.ops = r.ops) : Stored s id r out r' (s.putReq id r')
  | written {r' : Req} (hops : r'.ops = opsOf r') (hwrites : out.writes = true) :
      Stored s id r out r' ((s.journal (.write id r'.ops)).putReq id r')
  | unwritten (ops : List RecoverOp) (hwrites : out.writes = false) :
      Stored s id r out r (s.journal (.write id ops))

theorem applyRegister_answers (hr : s.reqs.lookup id = some r) (a : Action) (seq : ℕ)
    (out : Outside) :
    ∃ r', r.Answers seq (.register a) (s.applyRegister id a seq out).1 r' ∧ r.Under r' ∧
      s.Stored id r out r' (s.applyRegister id a seq out).2 := by
  unfold applyRegister registerTarget
  rw [hr]
  simp only
  by_cases hfull : r.actions.length ≥ s.opts.maxCleanupActions
  · simp only [if_pos hfull]
    exact ⟨r, .refused _ _ (by simp) (by simp), .refl r, .same⟩
  · simp only [if_neg hfull, doRegister]
    by_cases hdurable : isDurable a = true
    · rw [if_pos hdurable]
      by_cases hwrites : out.writes = true
      · rw [if_pos hwrites]
        refine ⟨_, ?_, ?_, .written rfl hwrites⟩
        · exact .registered a rfl rfl
        · exact ⟨rfl, rfl, rfl, rfl, rfl, rfl, rfl, rfl⟩
      · rw [if_neg hwrites]
        exact ⟨r, .refused _ _ (by simp) (by simp), .refl r,
          .unwritten _ (Bool.not_eq_true _ ▸ hwrites)⟩
    · rw [if_neg hdurable]
      refine ⟨_, ?_, ?_, .put rfl⟩
      · exact .registered a rfl rfl
      · exact ⟨rfl, rfl, rfl, rfl, rfl, rfl, rfl, rfl⟩

theorem opWithdraw_answers (hr : s.reqs.lookup id = some r) (t seq : ℕ) (out : Outside) :
    ∃ r', r.Answers seq (.withdraw t) (s.opWithdraw id t out).1 r' ∧ r.Under r' ∧
      s.Stored id r out r' (s.opWithdraw id t out).2 := by
  unfold opWithdraw
  rw [hr]
  simp only
  by_cases hdurable : durable r.actions t = true
  · rw [if_pos hdurable]
    by_cases hwrites : out.writes = true
    · rw [if_pos hwrites]
      refine ⟨_, ?_, ?_, .written rfl hwrites⟩
      · exact .withdrawn t rfl rfl
      · exact ⟨rfl, rfl, rfl, rfl, rfl, rfl, rfl, rfl⟩
    · rw [if_neg hwrites]
      exact ⟨r, .refused _ _ (by simp) (by simp), .refl r,
        .unwritten _ (Bool.not_eq_true _ ▸ hwrites)⟩
  · rw [if_neg hdurable]
    refine ⟨_, ?_, ?_, .put rfl⟩
    · exact .withdrawn t rfl rfl
    · exact ⟨rfl, rfl, rfl, rfl, rfl, rfl, rfl, rfl⟩

theorem opTransfer_answers (hr : s.reqs.lookup id = some r) (a : Adapter) (seq : ℕ)
    (out : Outside) :
    ∃ r', r.Answers seq (.transfer a) (s.opTransfer id a).1 r' ∧ r.Under r' ∧
      s.Stored id r out r' (s.opTransfer id a).2 := by
  unfold opTransfer
  rw [hr]
  refine ⟨_, ?_, ?_, .put rfl⟩
  · exact .transferred a rfl rfl
  · exact ⟨rfl, rfl, rfl, rfl, rfl, rfl, rfl, rfl⟩

theorem applySequencedOp_answers (hr : s.reqs.lookup id = some r) {op : Operation}
    (hop : op.isForwarded) (seq : ℕ) (out : Outside) :
    ∃ r', r.Answers seq op (s.applySequencedOp id seq op out).1 r' ∧ r.Under r' ∧
      s.Stored id r out r' (s.applySequencedOp id seq op out).2 := by
  cases op with
  | register a => exact applyRegister_answers hr a seq out
  | withdraw t => exact opWithdraw_answers hr t seq out
  | transfer a => exact opTransfer_answers hr a seq out
  | finish => exact hop.elim

/-- The operation that is next is carried out and recorded. -/
theorem apply_next (hr : s.reqs.lookup id = some r) {me : Pid} (hme : r.steward = some me)
    (hrunning : r.finished = false) (hfirst : 1 ≤ r.nextSeq)
    (hlimit : r.nextSeq ≤ s.opts.maxCleanupOperations) (op : Operation) (out : Outside) :
    s.apply id me (id, r.nextSeq) op out =
      ((s.applySequencedOp id r.nextSeq op out).1,
        (s.applySequencedOp id r.nextSeq op out).2.advanceLedger id r.nextSeq
          (s.applySequencedOp id r.nextSeq op out).1) := by
  have hcaller : s.authorisedCaller id me = true := by
    simp [authorisedCaller, hr, hme]
  rw [apply, if_pos hcaller, applyTransported, if_pos ⟨rfl, hfirst⟩, hr]
  show s.applySequenced id r r.nextSeq op out = _
  rw [applySequenced, if_neg (Nat.lt_irrefl _), hrunning]
  rw [if_neg (by decide), if_neg (Nat.lt_irrefl _), if_neg (by omega)]

theorem Stored.lookup (h : s.Stored id r out r' s') (hr : s.reqs.lookup id = some r) :
    s'.reqs.lookup id = some r' := by
  cases h with
  | same => exact hr
  | put _ | written _ _ => exact AList.lookup_insert _
  | unwritten _ _ => exact hr

theorem Stored.kept (h : s.Stored id r out r' s') :
    s'.incarnation = s.incarnation ∧ s'.opts = s.opts := by
  cases h <;> exact ⟨rfl, rfl⟩

theorem Stored.paths (h : s.Stored id r out r' s') (hpaths : ∀ o ∈ r.ops, IsBinary o.path)
    (hrelpath : IsBinary r'.relpath)
    (hdurable : ∀ a ∈ r'.actions, ∀ o, a.2.1 = .op o → IsBinary o.path) :
    ∀ o ∈ r'.ops, IsBinary o.path := by
  cases h with
  | same => exact hpaths
  | put hops => exact hops ▸ hpaths
  | written hops _ =>
    intro o ho
    rw [hops] at ho
    cases List.mem_cons.mp ho with
    | inl heq =>
      rw [heq]
      exact hrelpath
    | inr hin =>
      obtain ⟨a, ha, hop⟩ := List.mem_filterMap.mp hin
      apply hdurable a (List.mem_reverse.mp ha) o
      cases haction : a.2.1 with
      | run f =>
        rw [haction] at hop
        cases hop
      | op o' =>
        rw [haction] at hop
        cases hop
        rfl
  | unwritten _ _ => exact hpaths

theorem lookup_advanceLedger (hr : s.reqs.lookup id = some r) (seq : ℕ) (reply : Reply) :
    (s.advanceLedger id seq reply).reqs.lookup id =
      some { r with nextSeq := seq + 1, ledger := r.ledger.insert seq reply } := by
  unfold advanceLedger
  rw [hr]
  exact AList.lookup_insert _

/-- Recording an answer is not seen elsewhere. -/
theorem advanceLedger_kept (s : State) (id : RequestId) (seq : ℕ) (reply : Reply) :
    (s.advanceLedger id seq reply).opts = s.opts ∧
      (s.advanceLedger id seq reply).incarnation = s.incarnation ∧
      (s.advanceLedger id seq reply).effects = s.effects := by
  unfold advanceLedger
  split <;> exact ⟨rfl, rfl, rfl⟩

end State

/-! ## The mirror -/

-- the steward drops the first of a token, the reaper all
theorem eraseP_of_nodup {l : List (ℕ × Action × Own)} (h : (l.map (·.1)).Nodup) (t : ℕ) :
    (l.map fun a => (a.1, a.2.1)).eraseP (fun a => a.1 = t) =
      (l.filter fun a => a.1 ≠ t).map fun a => (a.1, a.2.1) := by
  induction l with
  | nil => rfl
  | cons a l ih =>
    rw [List.map_cons, List.nodup_cons] at h
    rw [List.map_cons]
    by_cases ht : a.1 = t
    · have hrest : (l.filter fun b => b.1 ≠ t) = l := by
        rw [List.filter_eq_self]
        intro b hb
        rw [decide_eq_true_iff]
        intro hbt
        exact h.1 (ht.trans hbt.symm ▸ List.mem_map_of_mem hb)
      rw [List.eraseP_cons_of_pos (by simp [ht]), List.filter_cons_of_neg (by simp [ht]), hrest]
    · rw [List.eraseP_cons_of_neg (by simp [ht]), List.filter_cons_of_pos (by simp [ht]), ih h.2]
      rfl

namespace Req.Answers

variable {r r' : Req} {seq : ℕ} {op : Operation} {reply : Reply}

theorem mirror (h : r.Answers seq op reply r') {w : Steward}
    (hactions : w.actions = r.actions.map fun a => (a.1, a.2.1))
    (hcleanup : w.adapterState = r.cleanup) (htokens : (r.actions.map (·.1)).Nodup) :
    w.mirror op reply =
      { w with
        actions := r'.actions.map fun a => (a.1, a.2.1)
        adapterState := r'.cleanup } := by
  cases h with
  | registered a ha hc =>
    rw [ha, hc, ← hcleanup]
    show { w with actions := (seq, a) :: w.actions } = _
    rw [hactions]
    rfl
  | withdrawn t ha hc =>
    rw [ha, hc, ← hcleanup, ← eraseP_of_nodup htokens, ← hactions]
    rfl
  | transferred a ha hc =>
    have hsame : r'.actions.map (fun a => (a.1, a.2.1)) = w.actions := by
      rw [ha, hactions, List.map_map]
      rfl
    rw [hsame, hc]
    rfl
  | refused op reply hok htoken =>
    have hkept : w.mirror op reply = w := by
      unfold Steward.mirror
      split
      · exact absurd rfl (htoken _)
      · exact absurd rfl hok
      · exact absurd rfl hok
      · rfl
    rw [hkept, ← hactions, ← hcleanup]

theorem subset (h : r.Answers seq op reply r') {a : ℕ × Action × Own} (ha : a ∈ r'.actions) :
    (∃ b ∈ r.actions, a.1 = b.1 ∧ a.2.1 = b.2.1) ∨ a.1 = seq ∧ op = .register a.2.1 := by
  cases h with
  | registered b hb hc =>
    rw [hb] at ha
    cases List.mem_cons.mp ha with
    | inl heq =>
      rw [heq]
      exact .inr ⟨rfl, rfl⟩
    | inr hin => exact .inl ⟨a, hin, rfl, rfl⟩
  | withdrawn t hb hc =>
    rw [hb] at ha
    exact .inl ⟨a, List.mem_of_mem_filter ha, rfl, rfl⟩
  | transferred b hb hc =>
    rw [hb] at ha
    obtain ⟨c, hin, heq⟩ := List.mem_map.mp ha
    rw [← heq]
    exact .inl ⟨c, hin, rfl, rfl⟩
  | refused op reply hok htoken => exact .inl ⟨a, ha, rfl, rfl⟩

theorem tokens (h : r.Answers seq op reply r') (hnodup : (r.actions.map (·.1)).Nodup)
    (hbelow : ∀ a ∈ r.actions, a.1 < seq) : (r'.actions.map (·.1)).Nodup := by
  cases h with
  | registered b hb hc =>
    rw [hb, List.map_cons, List.nodup_cons]
    refine ⟨?_, hnodup⟩
    intro hmem
    obtain ⟨a, ha, heq⟩ := List.mem_map.mp hmem
    exact absurd heq (Nat.ne_of_lt (hbelow a ha))
  | withdrawn t hb hc =>
    rw [hb]
    exact hnodup.sublist (List.filter_sublist.map _)
  | transferred b hb hc =>
    rw [hb, List.map_map]
    exact hnodup
  | refused op reply hok htoken => exact hnodup

theorem owned (h : r.Answers seq op reply r')
    (howned : r.cleanup = none → ∀ a ∈ r.actions, a.2.2 = .owned) (hnone : r'.cleanup = none) :
    ∀ a ∈ r'.actions, a.2.2 = .owned := by
  cases h with
  | registered b hb hc =>
    rw [hb, List.forall_mem_cons]
    exact ⟨rfl, howned (hc ▸ hnone)⟩
  | withdrawn t hb hc =>
    rw [hb]
    intro a ha
    exact howned (hc ▸ hnone) a (List.mem_of_mem_filter ha)
  | transferred b hb hc =>
    rw [hc] at hnone
    cases hnone
  | refused op reply hok htoken => exact howned hnone

theorem durable (h : r.Answers seq op reply r')
    (hdurable : ∀ a ∈ r.actions, ∀ o, a.2.1 = .op o → IsBinary o.path) (hop : op.isForwarded) :
    ∀ a ∈ r'.actions, ∀ o, a.2.1 = .op o → IsBinary o.path := by
  intro a ha o ho
  cases h.subset ha with
  | inl hold =>
    obtain ⟨b, hb, _, heq⟩ := hold
    exact hdurable b hb o (heq ▸ ho)
  | inr hnew =>
    rw [hnew.2, ho] at hop
    exact hop

end Req.Answers

theorem encodeRecord_congr {r r' : Req} (incarnation : Name) (id : RequestId)
    (hgen : r'.gen = r.gen) (hguardian : r'.guardian = r.guardian) (hsteward : r'.steward = r.steward)
    (hops : r'.ops = r.ops) : encodeRecord incarnation id r' = encodeRecord incarnation id r := by
  unfold encodeRecord headerLine
  rw [hgen, hguardian, hsteward, hops]

/-- The steward has what the reaper has of the request, and the journal the rest. -/
structure Errand.Mirrors (id : RequestId) (guardian me : Pid) (x : Errand) (r : Req) : Prop where
  stored : x.reaper.reqs.lookup id = some r
  guardian : r.guardian = guardian
  steward : r.steward = some me
  running : r.finished = false
  actions : x.steward.actions = r.actions.map fun a => (a.1, a.2.1)
  cleanup : x.steward.adapterState = r.cleanup
  owned : r.cleanup = none → ∀ a ∈ r.actions, a.2.2 = .owned
  tokens : (r.actions.map (·.1)).Nodup
  below : ∀ a ∈ r.actions, a.1 < r.nextSeq
  first : 1 ≤ r.nextSeq
  next : x.steward.seq = r.nextSeq + x.sent.length
  sent : x.sent.map (·.1) = List.range' r.nextSeq x.sent.length
  limit : ∀ m ∈ x.sent, m.1 ≤ x.reaper.opts.maxCleanupOperations
  waiting : ∀ m ∈ x.sent, x.steward.ledger.lookup m.1 = some ⟨m.2, none⟩
  known : ∀ k op, x.steward.ledger.lookup k = some op → k < x.steward.seq
  unanswered : ∀ k op, x.steward.ledger.lookup k = some op → op.done = none → r.nextSeq ≤ k
  results : ∀ k, (x.steward.ledger.lookup k).bind (·.done) = r.ledger.lookup k
  forwarded : ∀ m ∈ x.sent, m.2.isForwarded
  paths : ∀ o ∈ r.ops, IsBinary o.path
  relpath : IsBinary r.relpath
  durable : ∀ a ∈ r.actions, ∀ o, a.2.1 = .op o → IsBinary o.path
  named : ∃ bytes, x.reaper.incarnation = incarnationOf bytes
  file : x.file = encodeRecord x.reaper.incarnation id r

namespace Errand.Mirrors

variable {id : RequestId} {guardian me : Pid} {x x' : Errand} {r : Req}

theorem forward (h : x.Mirrors id guardian me r) {op : Operation} (hop : op.isForwarded)
    (hstep : x.step id me (.forward op) = some x') : x'.Mirrors id guardian me r := by
  rw [Errand.step, if_pos hop] at hstep
  by_cases hceiling : x.reaper.opts.maxCleanupOperations < x.steward.seq
  · rw [if_pos hceiling] at hstep
    cases hstep
    exact h
  · rw [if_neg hceiling] at hstep
    cases hstep
    have hlookup : ∀ k, (x.steward.forward op).ledger.lookup k =
        if k = x.steward.seq then some ⟨op, none⟩ else x.steward.ledger.lookup k := fun k =>
      Table.lookup_insert_eq _ _ _
    have hnext := h.next
    have hnew : x.steward.ledger.lookup x.steward.seq = none := by
      cases hold : x.steward.ledger.lookup x.steward.seq with
      | none => rfl
      | some op => exact absurd (h.known _ op hold) (Nat.lt_irrefl _)
    have hlen : (x.sent ++ [(x.steward.seq, op)]).length = x.sent.length + 1 := List.length_append
    exact { h with
      next := by
        show x.steward.seq + 1 = _
        rw [hlen]
        omega
      sent := by
        show (x.sent ++ [(x.steward.seq, op)]).map (·.1) = _
        rw [hlen, List.range'_1_concat, List.map_append, h.sent, hnext]
        rfl
      limit := by
        intro m hm
        cases List.mem_append.mp hm with
        | inl hold => exact h.limit m hold
        | inr heq =>
          cases List.mem_singleton.mp heq
          exact Nat.le_of_not_lt hceiling
      waiting := by
        intro m hm
        rw [hlookup]
        cases List.mem_append.mp hm with
        | inl hold =>
          have hw := h.waiting m hold
          rw [if_neg (Nat.ne_of_lt (h.known _ _ hw)), hw]
        | inr heq =>
          cases List.mem_singleton.mp heq
          rw [if_pos rfl]
      known := by
        intro k op' hk
        rw [hlookup] at hk
        show k < x.steward.seq + 1
        by_cases heq : k = x.steward.seq
        · omega
        · rw [if_neg heq] at hk
          have hlt := h.known k op' hk
          omega
      unanswered := by
        intro k op' hk hdone
        rw [hlookup] at hk
        by_cases heq : k = x.steward.seq
        · omega
        · rw [if_neg heq] at hk
          exact h.unanswered k op' hk hdone
      results := by
        intro k
        rw [hlookup, ← h.results k]
        by_cases heq : k = x.steward.seq
        · rw [if_pos heq, heq, hnew]
          rfl
        · rw [if_neg heq]
      forwarded := by
        intro m hm
        cases List.mem_append.mp hm with
        | inl hold => exact h.forwarded m hold
        | inr heq =>
          cases List.mem_singleton.mp heq
          exact hop }

/-- Whatever is stored of it is what the file says. -/
theorem rewritten_stored {s : State} {out : Outside} {r' : Req} (hr : x.reaper.reqs.lookup id = some r)
    (hunder : r.Under r') (hs : x.reaper.Stored id r out r' s)
    (hfile : x.file = encodeRecord x.reaper.incarnation id r) :
    x.rewritten id s out = encodeRecord x.reaper.incarnation id r' := by
  have hops : ∀ ops, r'.ops = ops →
      encodeRecord x.reaper.incarnation id r' = encodeRecord x.reaper.incarnation id
        { r with ops := ops } := fun ops h =>
    encodeRecord_congr _ id hunder.gen hunder.guardian hunder.steward h
  have hsilent : s.effects = x.reaper.effects → x.rewritten id s out = x.file := by
    intro heffects
    unfold Errand.rewritten
    rw [heffects, List.drop_length]
  have hwrote : ∀ ops, s.effects = x.reaper.effects ++ [.journal (.write id ops)] →
      x.rewritten id s out =
        if out.writes then encodeRecord x.reaper.incarnation id { r with ops := ops } else x.file := by
    intro ops heffects
    unfold Errand.rewritten
    rw [heffects, List.drop_left, hr]
  cases hs with
  | same =>
    rw [hsilent rfl, hfile]
  | put hkept =>
    rw [hsilent rfl, hfile, hops r.ops hkept]
  | written hnew hwrites =>
    rw [hwrote r'.ops rfl, if_pos hwrites, hops r'.ops rfl]
  | unwritten ops hwrites =>
    rw [hwrote ops rfl, if_neg (by simp [hwrites]), hfile]

theorem answer (h : x.Mirrors id guardian me r) {out : Outside}
    (hstep : x.step id me (.answer out) = some x') : ∃ r', x'.Mirrors id guardian me r' := by
  rw [Errand.step] at hstep
  cases hsent : x.sent with
  | nil =>
    rw [hsent] at hstep
    cases hstep
  | cons m sent =>
    obtain ⟨seq, op⟩ := m
    rw [hsent] at hstep
    have hrange := h.sent
    rw [hsent, List.map_cons, List.length_cons, List.range'_succ] at hrange
    have hseq : seq = r.nextSeq := (List.cons.inj hrange).1
    have hrest : sent.map (·.1) = List.range' (r.nextSeq + 1) sent.length := (List.cons.inj hrange).2
    have hmem : (seq, op) ∈ x.sent := hsent ▸ List.mem_cons_self
    have hsub : ∀ m ∈ sent, m ∈ x.sent := fun m hm => hsent ▸ List.mem_cons_of_mem _ hm
    subst hseq
    have hop : op.isForwarded := h.forwarded _ hmem
    obtain ⟨r', hanswers, hunder, hs⟩ :=
      State.applySequencedOp_answers h.stored hop r.nextSeq out
    dsimp only at hstep
    rw [State.apply_next h.stored h.steward h.running h.first (h.limit _ hmem)] at hstep
    generalize hdone : x.reaper.applySequencedOp id r.nextSeq op out = done at hstep hanswers hs
    obtain ⟨reply, s⟩ := done
    cases hstep
    have hstored : s.reqs.lookup id = some r' := hs.lookup h.stored
    have hadvance := State.lookup_advanceLedger hstored r.nextSeq reply
    have hkept := hs.kept
    have hw := h.waiting _ hmem
    have hanswered : x.steward.answered r.nextSeq reply = { x.steward with
        ledger := x.steward.ledger.insert r.nextSeq ⟨op, some reply⟩
        actions := r'.actions.map fun a => (a.1, a.2.1)
        adapterState := r'.cleanup } := by
      unfold Steward.answered
      rw [hw]
      exact hanswers.mirror h.actions h.cleanup h.tokens
    have hlookup : ∀ k, (x.steward.ledger.insert r.nextSeq ⟨op, some reply⟩).lookup k =
        if k = r.nextSeq then some ⟨op, some reply⟩ else x.steward.ledger.lookup k := fun k =>
      Table.lookup_insert_eq _ _ _
    have hnext := h.next
    rw [hsent, List.length_cons] at hnext
    refine ⟨{ r' with nextSeq := r.nextSeq + 1, ledger := r'.ledger.insert r.nextSeq reply }, ?_⟩
    rw [hanswered]
    exact {
      stored := hadvance
      guardian := hunder.guardian.trans h.guardian
      steward := hunder.steward.trans h.steward
      running := hunder.finished.trans h.running
      actions := rfl
      cleanup := rfl
      owned := hanswers.owned h.owned
      tokens := hanswers.tokens h.tokens h.below
      below := by
        intro a ha
        show a.1 < r.nextSeq + 1
        cases hanswers.subset ha with
        | inl hold =>
          obtain ⟨b, hb, heq, _⟩ := hold
          have hlt := h.below b hb
          omega
        | inr hnew => omega
      first := Nat.le_add_left _ _
      next := by
        show x.steward.seq = r.nextSeq + 1 + sent.length
        omega
      sent := hrest
      limit := by
        intro m hm
        rw [(s.advanceLedger_kept id r.nextSeq reply).1, hkept.2]
        exact h.limit m (hsub m hm)
      waiting := by
        intro m hm
        have hlater : r.nextSeq + 1 ≤ m.1 := by
          have hin : m.1 ∈ sent.map (·.1) := List.mem_map_of_mem hm
          rw [hrest, List.mem_range'_1] at hin
          exact hin.1
        show (x.steward.ledger.insert r.nextSeq ⟨op, some reply⟩).lookup m.1 = _
        rw [hlookup, if_neg (by omega)]
        exact h.waiting m (hsub m hm)
      known := by
        intro k op' hk
        change (x.steward.ledger.insert r.nextSeq ⟨op, some reply⟩).lookup k = _ at hk
        rw [hlookup] at hk
        by_cases heq : k = r.nextSeq
        · show k < x.steward.seq
          omega
        · rw [if_neg heq] at hk
          exact h.known k op' hk
      unanswered := by
        intro k op' hk hnone
        change (x.steward.ledger.insert r.nextSeq ⟨op, some reply⟩).lookup k = _ at hk
        rw [hlookup] at hk
        show r.nextSeq + 1 ≤ k
        by_cases heq : k = r.nextSeq
        · rw [if_pos heq] at hk
          cases hk
          cases hnone
        · rw [if_neg heq] at hk
          have hle := h.unanswered k op' hk hnone
          omega
      results := by
        intro k
        show ((x.steward.ledger.insert r.nextSeq ⟨op, some reply⟩).lookup k).bind _ =
          (r'.ledger.insert r.nextSeq reply).lookup k
        rw [hlookup, Table.lookup_insert_eq, hunder.ledger]
        by_cases heq : k = r.nextSeq
        · rw [if_pos heq, if_pos heq]
          rfl
        · rw [if_neg heq, if_neg heq]
          exact h.results k
      forwarded := fun m hm => h.forwarded m (hsub m hm)
      paths := hs.paths h.paths (hunder.relpath ▸ h.relpath) (hanswers.durable h.durable hop)
      relpath := by
        show IsBinary r'.relpath
        rw [hunder.relpath]
        exact h.relpath
      durable := hanswers.durable h.durable hop
      named := by
        rw [(s.advanceLedger_kept id r.nextSeq reply).2.1, hkept.1]
        exact h.named
      file := by
        have hadvanced := s.advanceLedger_kept id r.nextSeq reply
        have hsame : x.rewritten id (s.advanceLedger id r.nextSeq reply) out =
            x.rewritten id s out := by
          unfold Errand.rewritten
          rw [hadvanced.2.2]
        show x.rewritten id (s.advanceLedger id r.nextSeq reply) out = _
        rw [hadvanced.2.1, hkept.1, hsame, rewritten_stored h.stored hunder hs h.file]
        exact (encodeRecord_congr _ id rfl rfl rfl rfl).symm }

theorem elsewhere (h : x.Mirrors id guardian me r) (s : State) :
    Errand.Mirrors id guardian me { x with reaper := x.undisturbed id s } r := by
  have hstored : (x.undisturbed id s).reqs.lookup id = some r := by
    unfold Errand.undisturbed
    rw [h.stored]
    exact AList.lookup_insert _
  exact { h with stored := hstored }

end Errand.Mirrors

namespace Errand

variable {id : RequestId} {guardian me : Pid} {x x' : Errand} {r : Req} {s : State} {root : RootId}
  {relpath : Name}

theorem mirrors_start {bytes : List UInt8} (hnamed : s.incarnation = incarnationOf bytes)
    (haccepted : (s.reserve id guardian me root relpath).1 = none) (hrelpath : IsBinary relpath) :
    ∃ r, (start id me s guardian root relpath).Mirrors id guardian me r := by
  have hroot : ¬ root ∉ s.roots := by
    intro hroot
    rw [State.reserve, if_pos hroot] at haccepted
    cases haccepted
  have hcapacity : s.hasCapacity = true := by
    by_contra hcapacity
    rw [State.reserve, if_neg hroot, if_neg hcapacity] at haccepted
    cases haccepted
  have hreserved : ∃ r, (s.reserve id guardian me root relpath).2 =
      (((s.monitor guardian).monitor me).journal (.reserve id r.ops)).putReq id r ∧
      r.guardian = guardian ∧ r.steward = some me ∧ r.finished = false ∧ r.actions = [] ∧
      r.cleanup = none ∧ r.nextSeq = 1 ∧ r.ledger = ∅ ∧ r.ops = [.removeTree root relpath] ∧
      r.relpath = relpath := by
    rw [State.reserve, if_neg hroot, if_pos hcapacity]
    exact ⟨_, rfl, rfl, rfl, rfl, rfl, rfl, rfl, rfl, rfl, rfl⟩
  obtain ⟨r, hs, hguardian, hsteward, hrunning, hactions, hcleanup, hnext, hledger, hops, hpath⟩ :=
    hreserved
  have hstored : (s.reserve id guardian me root relpath).2.reqs.lookup id = some r := by
    rw [hs]
    exact AList.lookup_insert _
  refine ⟨r, ?_⟩
  unfold start
  dsimp only
  rw [hstored]
  exact {
    stored := hstored
    guardian := hguardian
    steward := hsteward
    running := hrunning
    actions := by
      rw [hactions]
      rfl
    cleanup := hcleanup.symm
    owned := by
      intro _ a ha
      rw [hactions] at ha
      cases ha
    tokens := by
      rw [hactions]
      exact List.nodup_nil
    below := by
      intro a ha
      rw [hactions] at ha
      cases ha
    first := by rw [hnext]
    next := by
      rw [hnext]
      rfl
    sent := rfl
    limit := fun m hm => absurd hm List.not_mem_nil
    waiting := fun m hm => absurd hm List.not_mem_nil
    known := by
      intro k op hk
      cases hk
    unanswered := by
      intro k op hk
      cases hk
    results := by
      intro k
      rw [hledger]
      rfl
    forwarded := fun m hm => absurd hm List.not_mem_nil
    paths := by
      intro o ho
      rw [hops] at ho
      cases List.mem_singleton.mp ho
      exact hrelpath
    relpath := by
      rw [hpath]
      exact hrelpath
    durable := by
      intro a ha
      rw [hactions] at ha
      cases ha
    named := by
      rw [hs]
      exact ⟨bytes, hnamed⟩
    file := rfl }

theorem Mirrors.step {a : Act} (h : x.Mirrors id guardian me r) (hstep : x.step id me a = some x') :
    ∃ r', x'.Mirrors id guardian me r' := by
  cases a with
  | forward op =>
    by_cases hop : op.isForwarded
    · exact ⟨r, h.forward hop hstep⟩
    · rw [Errand.step, if_neg hop] at hstep
      cases hstep
  | answer out => exact h.answer hstep
  | elsewhere s =>
    cases hstep
    exact ⟨r, h.elsewhere s⟩

theorem mirrors_of_reachable {bytes : List UInt8} (hnamed : s.incarnation = incarnationOf bytes)
    (haccepted : (s.reserve id guardian me root relpath).1 = none) (hrelpath : IsBinary relpath)
    (hx : Run.Reachable (step id me) (start id me s guardian root relpath) x) :
    ∃ r, x.Mirrors id guardian me r := by
  refine Run.ReachableIf.invariant (fun x => ∃ r, x.Mirrors id guardian me r) ?_ ?_ hx
  · exact mirrors_start hnamed haccepted hrelpath
  · intro x a x' hmirrors _ hstep
    obtain ⟨r, h⟩ := hmirrors
    exact h.step hstep

/-! ## What the steward answers -/

theorem Mirrors.lookup_doneResults (h : x.Mirrors id guardian me r) (k : ℕ) :
    x.steward.doneResults.lookup k = r.ledger.lookup k := by
  rw [Steward.doneResults, Table.lookup_mapRows]
  exact h.results k

theorem mem_pending (w : Steward) (k : ℕ) :
    k ∈ w.pending ↔ ∃ op, w.ledger.lookup k = some op ∧ op.done = none := by
  constructor
  · intro hk
    obtain ⟨e, he, heq⟩ := List.mem_map.mp hk
    obtain ⟨hin, hnone⟩ := List.mem_filter.mp he
    rw [← heq]
    exact ⟨e.2, Table.lookup_eq_some_iff.mpr hin, Option.isNone_iff_eq_none.mp hnone⟩
  · intro ⟨op, hop, hnone⟩
    have hin : (⟨k, op⟩ : Sigma fun _ : ℕ => Op) ∈ w.ledger.entries := Table.lookup_eq_some_iff.mp hop
    exact List.mem_map.mpr ⟨⟨k, op⟩, List.mem_filter.mpr ⟨hin, by rw [hnone]; rfl⟩, rfl⟩

/-- What the reaper has not answered is what it still has in its mailbox, from its own next
sequence on. -/
theorem Mirrors.resumeSeq_eq (h : x.Mirrors id guardian me r) : x.steward.resumeSeq = r.nextSeq := by
  have hnext := h.next
  have hpending : ∀ k ∈ x.steward.pending, r.nextSeq ≤ k ∧ k < x.steward.seq := by
    intro k hk
    obtain ⟨op, hop, hnone⟩ := (mem_pending x.steward k).mp hk
    exact ⟨h.unanswered k op hop hnone, h.known k op hop⟩
  unfold Steward.resumeSeq
  cases hsent : x.sent with
  | nil =>
    rw [hsent, List.length_nil] at hnext
    have hempty : x.steward.pending = [] := by
      rw [List.eq_nil_iff_forall_not_mem]
      intro k hk
      have hk' := hpending k hk
      omega
    rw [hempty]
    show x.steward.seq = r.nextSeq
    omega
  | cons m sent =>
    have hrange := h.sent
    rw [hsent, List.map_cons, List.length_cons, List.range'_succ] at hrange
    have hhead : m.1 = r.nextSeq := (List.cons.inj hrange).1
    have hw := h.waiting m (hsent ▸ List.mem_cons_self)
    have hmem : r.nextSeq ∈ x.steward.pending := (mem_pending _ _).mpr ⟨_, hhead ▸ hw, rfl⟩
    have hmin : x.steward.pending.min? = some r.nextSeq :=
      List.min?_eq_some_iff.mpr ⟨hmem, fun k hk => (hpending k hk).1⟩
    rw [hmin]
    rfl

end Errand

end ErlangWasm.Reaper
