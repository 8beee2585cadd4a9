import ErlangWasm.Reaper.Runs

/-!
# What an operation does to the registry

`register`, `withdraw` and `transfer`, by whichever transport, write what they are about into the
request and leave its stage, its owners and its monitors alone.  `finish` alone does more.
-/

namespace ErlangWasm.Reaper

open Reasoning

/-- Of the same stage, attempts, owners, monitors and directory. -/
structure Req.Alike (r r' : Req) : Prop where
  stage : r'.stage = r.stage
  attempts : r'.attempts = r.attempts
  guardian : r'.guardian = r.guardian
  steward : r'.steward = r.steward
  mon : r'.mon = r.mon
  smon : r'.smon = r.smon
  finished : r'.finished = r.finished
  root : r'.root = r.root
  relpath : r'.relpath = r.relpath

theorem Req.Alike.refl (r : Req) : r.Alike r := ⟨rfl, rfl, rfl, rfl, rfl, rfl, rfl, rfl, rfl⟩

namespace State

variable {s s' : State} {id : RequestId} {r : Req}

/-- Requests are replaced by their like, a record is written again, or the process fails. -/
inductive Alters (s : State) : State → Prop
  | refl : Alters s s
  | journal {s' : State} (h : Alters s s') (id : RequestId) (ops : List RecoverOp) :
      Alters s (s'.journal (.write id ops))
  | crash {s' : State} (h : Alters s s') : Alters s { s' with crashed := true }
  | put {s' : State} (h : Alters s s') {id : RequestId} {r r' : Req}
      (hr : s'.reqs.lookup id = some r) (hlike : r.Alike r') : Alters s (s'.putReq id r')

theorem alters_doRegister (hr : s.reqs.lookup id = some r) {r' : Req} (hlike : r.Alike r')
    (a : Action) (token : ℕ) (out : Outside) : s.Alters (s.doRegister id r' a token out).2 := by
  unfold doRegister
  have hlike' : ∀ ops, r.Alike { r' with actions := (token, a, .owned) :: r'.actions, ops := ops } :=
    fun _ => ⟨hlike.stage, hlike.attempts, hlike.guardian, hlike.steward, hlike.mon, hlike.smon,
      hlike.finished, hlike.root, hlike.relpath⟩
  by_cases hd : isDurable a = true
  · rw [if_pos hd]
    split
    · exact .put (.journal .refl _ _) hr (hlike' _)
    · exact .journal .refl _ _
  · rw [if_neg hd]
    exact .put .refl hr (hlike' _)

theorem lookup_of_registerTarget {a : Action} {out : Outside}
    (h : s.registerTarget id a out = .ok r) : s.reqs.lookup id = some r := by
  unfold registerTarget at h
  split at h
  · cases h
  · rename_i r' hr'
    split at h
    · cases h
    · cases h
      exact hr'

theorem alters_opRegister (s : State) (id : RequestId) (a : Action) (out : Outside) :
    s.Alters (s.opRegister id a out).2 := by
  unfold opRegister
  split
  · exact .refl
  · rename_i r h
    apply alters_doRegister (lookup_of_registerTarget h)
    exact ⟨rfl, rfl, rfl, rfl, rfl, rfl, rfl, rfl, rfl⟩

theorem alters_applyRegister (s : State) (id : RequestId) (a : Action) (seq : ℕ) (out : Outside) :
    s.Alters (s.applyRegister id a seq out).2 := by
  unfold applyRegister
  split
  · exact .refl
  · rename_i r h
    exact alters_doRegister (lookup_of_registerTarget h) (.refl r) a seq out

theorem alters_opWithdraw (s : State) (id : RequestId) (token : ℕ) (out : Outside) :
    s.Alters (s.opWithdraw id token out).2 := by
  unfold opWithdraw
  split
  · exact .refl
  · rename_i r hr
    by_cases hd : durable r.actions token = true
    · rw [if_pos hd]
      split
      · exact .put (.journal .refl _ _) hr ⟨rfl, rfl, rfl, rfl, rfl, rfl, rfl, rfl, rfl⟩
      · exact .journal .refl _ _
    · rw [if_neg hd]
      exact .put .refl hr ⟨rfl, rfl, rfl, rfl, rfl, rfl, rfl, rfl, rfl⟩

theorem alters_opTransfer (s : State) (id : RequestId) (a : Adapter) :
    s.Alters (s.opTransfer id a).2 := by
  unfold opTransfer
  split
  · exact .refl
  · rename_i r hr
    exact .put .refl hr ⟨rfl, rfl, rfl, rfl, rfl, rfl, rfl, rfl, rfl⟩

theorem alters_applyOperation {op : Operation} (hop : op ≠ .finish) (s : State) (id : RequestId)
    (out : Outside) : s.Alters (s.applyOperation id op out).2 := by
  cases op with
  | register a => exact alters_opRegister s id a out
  | withdraw token => exact alters_opWithdraw s id token out
  | transfer a => exact alters_opTransfer s id a
  | finish => exact absurd rfl hop

theorem alters_overLimit (s : State) (op : Operation) : s.Alters (s.overLimit op).2 := by
  cases op with
  | finish => exact .crash .refl
  | _ => exact .refl

theorem Alters.advanceLedger (h : s.Alters s') (id : RequestId) (seq : ℕ) (reply : Reply) :
    s.Alters (s'.advanceLedger id seq reply) := by
  unfold State.advanceLedger
  split
  · rename_i r hr
    exact .put h hr ⟨rfl, rfl, rfl, rfl, rfl, rfl, rfl, rfl, rfl⟩
  · exact h

theorem applySequencedOp_eq {op : Operation} (hop : op ≠ .finish) (s : State) (id : RequestId)
    (seq : ℕ) (out : Outside) : s.Alters (s.applySequencedOp id seq op out).2 := by
  cases op with
  | register a => exact alters_applyRegister s id a seq out
  | withdraw token => exact alters_opWithdraw s id token out
  | transfer a => exact alters_opTransfer s id a
  | finish => exact absurd rfl hop

/-- An operation of the steward is answered, or it is the `finish` that is accepted. -/
theorem apply_cases (s : State) (id : RequestId) (caller : Pid) (operation : RequestId × ℕ)
    (op : Operation) (out : Outside) :
    s.acceptsFinish id caller operation op = false ∧
        s.Alters (s.apply id caller operation op out).2 ∨
      s.acceptsFinish id caller operation op = true ∧
        (s.opFinish id).2.Alters (s.apply id caller operation op out).2 := by
  unfold apply acceptsFinish
  by_cases hauth : s.authorisedCaller id caller = true
  · rw [if_pos hauth, hauth]
    unfold applyTransported
    by_cases hop : op = .finish
    · subst hop
      cases hr : s.reqs.lookup id with
      | none =>
        left
        refine ⟨rfl, ?_⟩
        have hgone : s.Alters (s.applyOperation id .finish out).2 := by
          show s.Alters (s.opFinish id).2
          unfold opFinish
          rw [hr]
          exact .refl
        split
        · exact hgone
        · exact hgone
      | some r =>
        by_cases hseq : operation.1 = id ∧ 1 ≤ operation.2
        · rw [if_pos hseq]
          show _ ∧ s.Alters (s.applySequenced id r operation.2 .finish out).2 ∨
            _ ∧ (s.opFinish id).2.Alters (s.applySequenced id r operation.2 .finish out).2
          unfold applySequenced
          by_cases hlt : operation.2 < r.nextSeq
          · left
            rw [if_pos hlt]
            constructor
            · simp [hseq, Nat.ne_of_lt hlt]
            · split
              · exact .refl
              · exact alters_overLimit s .finish
          · rw [if_neg hlt]
            by_cases hfin : r.finished = true
            · left
              rw [if_pos hfin]
              exact ⟨by simp [hseq, hfin], .refl⟩
            · rw [if_neg hfin]
              by_cases hgap : r.nextSeq < operation.2
              · left
                rw [if_pos hgap]
                exact ⟨by simp [hseq, Nat.ne_of_gt hgap], .refl⟩
              · right
                rw [if_neg hgap, if_neg (by simp)]
                constructor
                · simp only [hseq, hfin, decide_true, Bool.true_and, Bool.and_self, Bool.not_true,
                    Bool.false_or, Bool.not_false, Bool.and_true, decide_eq_true_eq]
                  omega
                · exact Alters.refl.advanceLedger id _ _
        · right
          rw [if_neg hseq]
          refine ⟨?_, .refl⟩
          by_cases hid : operation.1 = id
          · simp only [hid, true_and] at hseq
            simp [hid, hseq]
          · simp [hid]
    · left
      constructor
      · cases s.reqs.lookup id with
        | none => rfl
        | some r => simp [hop]
      · split
        · split
          · exact alters_applyOperation hop s id out
          · rename_i r hr
            unfold applySequenced
            split
            · split
              · exact .refl
              · exact alters_overLimit s op
            · split
              · exact .refl
              · split
                · exact .refl
                · split
                  · exact .put .refl hr ⟨rfl, rfl, rfl, rfl, rfl, rfl, rfl, rfl, rfl⟩
                  · exact (applySequencedOp_eq hop s id operation.2 out).advanceLedger id _ _
        · exact alters_applyOperation hop s id out
  · left
    rw [if_neg hauth]
    refine ⟨?_, .refl⟩
    rw [Bool.not_eq_true] at hauth
    rw [hauth]
    cases s.reqs.lookup id with
    | none => rfl
    | some r => simp

end State

end ErlangWasm.Reaper
