import ErlangWasm.Reasoning.Bins
import Mathlib.Data.List.Sort
import Mathlib.Data.List.TakeWhile
import Mathlib.Data.List.Lex

/-!
# Splitting a compile request

`wasm_jit` compiles the eligible functions of an instance as one unit, or as a few, the largest
functions first and each into the lightest unit that still has room.
-/

namespace ErlangWasm.Compile

open Reasoning.Bins

variable {F IR M : Type}

/-- `max_funs` of `wasm_core:limits/0`, and `?MAX_SHARDS`. -/
def maxFuns : ℕ := 4096
def maxShards : ℕ := 4

/-- `{Pos, Idx, #fn{}, IR}`. -/
structure UnitFun (F IR : Type) where
  pos : ℕ
  idx : ℕ
  fn : F
  ir : IR

/-- `lists:enumerate/2` on positions. -/
def numbered (us : List (UnitFun F IR)) : List (UnitFun F IR) :=
  us.zipIdx.map fun p => { p.1 with pos := p.2 }

/-- `unit/2`: of an instance's own functions, whose indices follow the imported ones, those that
have run and can be compiled. -/
def unit (imported : ℕ) (funcs : List F) (ran : ℕ → Bool) (compilerIr : F → IR)
    (canCompile : F → IR → Bool) : List (UnitFun F IR) :=
  let fns := (funcs.zipIdx imported).filter fun p => ran p.2
  let ok := fns.map fun p => (⟨0, p.2, p.1, compilerIr p.1⟩ : UnitFun F IR)
  numbered (ok.filter fun u => canCompile u.fn u.ir)

/-- What `compile_shards` may be. -/
inductive Shards
  | auto
  | count (n : ℕ) (pos : 1 ≤ n)

def autoShards (n : ℕ) : ℕ :=
  if n ≤ maxFuns then 1 else min maxShards ((n + maxFuns - 1) / maxFuns)

def shardCount (n : ℕ) : Shards → ℕ
  | .auto => autoShards n
  | .count k _ => min maxShards k

/-- `{Load, N, Us}`: the words, the functions and how many they are. -/
structure Bin (F IR : Type) where
  load : ℕ
  count : ℕ
  funs : List (UnitFun F IR)
  counted : count = funs.length

def emptyBins (n : ℕ) : List (Bin F IR) := List.replicate n ⟨0, 0, [], rfl⟩

/-- The order of `{Size, {Pos, _, _, _}}`: no two positions are the same. -/
def sizedLe (size : IR → ℕ) (u v : UnitFun F IR) : Bool :=
  if size u.ir = size v.ir then u.pos ≤ v.pos else size u.ir ≤ size v.ir

/-- The order of bins; of their functions the positions decide. -/
def binLe (a b : Bin F IR) : Bool :=
  if a.load = b.load then
    if a.count = b.count then a.funs.map UnitFun.pos ≤ b.funs.map UnitFun.pos
    else a.count ≤ b.count
  else a.load ≤ b.load

/-- A bin with one more function. -/
def Bin.put (size : IR → ℕ) (b : Bin F IR) (u : UnitFun F IR) : Bin F IR where
  load := b.load + size u.ir
  count := b.count + 1
  funs := u :: b.funs
  counted := by rw [b.counted, List.length_cons]

/-- `bins/3`; `none` for `full`. -/
def bins (size : IR → ℕ) (cap : ℕ) :
    List (UnitFun F IR) → List (Bin F IR) → Option (List (List (UnitFun F IR)))
  | [], bs => some ((bs.filter fun b => !b.funs.isEmpty).map fun b => b.funs.reverse)
  | u :: us, bs =>
      match (bs.mergeSort binLe).span fun b => cap ≤ b.count with
      | (_, []) => none
      | (full, b :: others) => bins size cap us (full ++ b.put size u :: others)

def renumber (parts : List (List (UnitFun F IR))) : List (List (UnitFun F IR)) :=
  parts.map numbered

/-- `split/2`, with `erts_debug:flat_size/1` for the size. -/
def split (size : IR → ℕ) (us : List (UnitFun F IR)) (limits : Shards) :
    Option (List (List (UnitFun F IR))) :=
  match shardCount us.length limits with
  | 1 => some [us]
  | n =>
      let sized := (us.mergeSort (sizedLe size)).reverse
      (bins size maxFuns sized (emptyBins n)).map renumber

/-! ## Calls between units -/

/-- `Where` of `build/9`: which module holds each function. -/
def holders (parts : List (List (UnitFun F IR))) (mods : List M) : List (ℕ × M) :=
  (parts.zip mods).flatMap fun p => p.1.map fun u => (u.idx, p.2)

/-- `maps:without(Mine, Where)` at one function; of two entries `maps:from_list/1` keeps the
last. -/
def holderOutside (parts : List (List (UnitFun F IR))) (mods : List M)
    (mine : List (UnitFun F IR)) (idx : ℕ) : Option M :=
  if idx ∈ mine.map UnitFun.idx then none else (holders parts mods).reverse.lookup idx


/-! ## Every function once -/

variable {us : List (UnitFun F IR)} {parts : List (List (UnitFun F IR))} {cap : ℕ}

/-- What a function is, apart from its position. -/
def UnitFun.function (u : UnitFun F IR) : ℕ × F × IR := (u.idx, u.fn, u.ir)

theorem numbered_pos (us : List (UnitFun F IR)) :
    (numbered us).map UnitFun.pos = List.range us.length := by
  rw [numbered, List.map_map]
  show us.zipIdx.map Prod.snd = _
  rw [List.zipIdx_map_snd, List.range_eq_range']

theorem numbered_function (us : List (UnitFun F IR)) :
    (numbered us).map UnitFun.function = us.map UnitFun.function := by
  rw [numbered, List.map_map]
  show us.zipIdx.map (UnitFun.function ∘ Prod.fst) = _
  rw [← List.map_map, List.zipIdx_map_fst]

theorem length_numbered (us : List (UnitFun F IR)) : (numbered us).length = us.length := by
  rw [numbered, List.length_map, List.length_zipIdx]

theorem map_idx (us : List (UnitFun F IR)) :
    us.map UnitFun.idx = (us.map UnitFun.function).map Prod.fst := by
  rw [List.map_map]
  rfl

/-- No function is in the unit twice. -/
theorem unit_nodup (imported : ℕ) (funcs : List F) (ran : ℕ → Bool) (compilerIr : F → IR)
    (canCompile : F → IR → Bool) :
    ((unit imported funcs ran compilerIr canCompile).map UnitFun.idx).Nodup := by
  have hall : ((funcs.zipIdx imported).map Prod.snd).Nodup := by
    rw [List.zipIdx_map_snd]
    exact List.nodup_range'
  have hran : (((funcs.zipIdx imported).filter fun p => ran p.2).map Prod.snd).Nodup :=
    hall.sublist (List.filter_sublist.map _)
  have hok : ((((funcs.zipIdx imported).filter fun p => ran p.2).map fun p =>
      (⟨0, p.2, p.1, compilerIr p.1⟩ : UnitFun F IR)).map UnitFun.idx).Nodup := by
    rw [List.map_map]
    exact hran
  rw [map_idx, unit, numbered_function, ← map_idx]
  exact hok.sublist (List.filter_sublist.map _)

theorem unit_pos (imported : ℕ) (funcs : List F) (ran : ℕ → Bool) (compilerIr : F → IR)
    (canCompile : F → IR → Bool) :
    (unit imported funcs ran compilerIr canCompile).map UnitFun.pos =
      List.range (unit imported funcs ran compilerIr canCompile).length := by
  rw [unit, numbered_pos, length_numbered]

/-! ## Filling the bins -/

/-- What is left of filled bins: empty ones are dropped, and functions come in the order they were
placed. -/
def placed (out : List (List (UnitFun F IR))) : List (List (UnitFun F IR)) :=
  (out.filter fun b => !b.isEmpty).map List.reverse

theorem bins_fill (size : IR → ℕ) (cap : ℕ) (us : List (UnitFun F IR)) (bs : List (Bin F IR)) :
    ∃ r, Fill cap us (bs.map Bin.funs) r ∧ bins size cap us bs = r.map placed := by
  induction us generalizing bs with
  | nil =>
    refine ⟨some (bs.map Bin.funs), .done _, ?_⟩
    rw [bins, Option.map_some, placed, List.filter_map, List.map_map]
    rfl
  | cons u us ih =>
    have hsorted : (bs.mergeSort binLe).Perm bs := List.mergeSort_perm bs binLe
    have hspan := List.span_eq_takeWhile_dropWhile (p := fun b : Bin F IR => decide (cap ≤ b.count))
      (l := bs.mergeSort binLe)
    have hsplit := List.takeWhile_append_dropWhile (p := fun b : Bin F IR => decide (cap ≤ b.count))
      (l := bs.mergeSort binLe)
    rw [bins, hspan]
    cases hdrop : (bs.mergeSort binLe).dropWhile (fun b => decide (cap ≤ b.count)) with
    | nil =>
      refine ⟨none, .full ?_, rfl⟩
      intro funs hfuns
      obtain ⟨b, hb, rfl⟩ := List.mem_map.mp hfuns
      have hfull := List.dropWhile_eq_nil_iff.mp hdrop b (hsorted.mem_iff.mpr hb)
      rw [← b.counted]
      exact of_decide_eq_true hfull
    | cons b others =>
      rw [hdrop] at hsplit
      have hroom : b.count < cap := by
        have hhead := List.head?_dropWhile_not (fun b : Bin F IR => decide (cap ≤ b.count))
          (bs.mergeSort binLe)
        rw [hdrop] at hhead
        simpa using hhead
      obtain ⟨r, hfill, hbins⟩ :=
        ih ((bs.mergeSort binLe).takeWhile (fun b => decide (cap ≤ b.count)) ++
          b.put size u :: others)
      have hbs : (bs.map Bin.funs).Perm (b.funs ::
          (((bs.mergeSort binLe).takeWhile fun b => decide (cap ≤ b.count)) ++ others).map
            Bin.funs) := by
        rw [← List.map_cons]
        apply List.Perm.map
        refine hsorted.symm.trans ?_
        conv_lhs => rw [← hsplit]
        exact List.perm_middle
      refine ⟨r, .put hbs (b.counted ▸ hroom) ?_ hfill, hbins⟩
      rw [List.map_append, List.map_append, List.map_cons]
      exact List.perm_middle

theorem placed_flatten (out : List (List (UnitFun F IR))) :
    (placed out).flatten.Perm out.flatten := by
  induction out with
  | nil => exact .refl _
  | cons b out ih =>
    cases b with
    | nil => exact ih
    | cons u b =>
      show ((u :: b).reverse ++ (placed out).flatten).Perm ((u :: b) ++ out.flatten)
      exact (List.reverse_perm _).append ih

theorem length_placed (out : List (List (UnitFun F IR))) : (placed out).length ≤ out.length := by
  rw [placed, List.length_map]
  exact List.length_filter_le _ _

theorem placed_le {out : List (List (UnitFun F IR))} (h : ∀ b ∈ out, b.length ≤ cap) :
    ∀ part ∈ placed out, part.length ≤ cap := by
  intro part hpart
  obtain ⟨b, hb, rfl⟩ := List.mem_map.mp hpart
  rw [List.length_reverse]
  exact h b (List.mem_filter.mp hb).1

theorem map_function_renumber (parts : List (List (UnitFun F IR))) :
    (renumber parts).flatten.map UnitFun.function = parts.flatten.map UnitFun.function := by
  rw [renumber, List.map_flatten, List.map_flatten, List.map_map]
  congr 1
  exact List.map_congr_left fun part _ => numbered_function part

/-- What a request of several units comes to. -/
theorem bins_spec (size : IR → ℕ) (cap : ℕ) (us : List (UnitFun F IR)) (n : ℕ) :
    let r := (bins size cap (us.mergeSort (sizedLe size)).reverse (emptyBins n)).map renumber
    (r = none → n * cap < us.length) ∧
    ∀ parts, r = some parts → parts.length ≤ n ∧
      (parts.flatten.map UnitFun.function).Perm (us.map UnitFun.function) ∧
      (∀ part ∈ parts, part.map UnitFun.pos = List.range part.length) ∧
      ∀ part ∈ parts, part.length ≤ cap := by
  obtain ⟨r, hfill, hbins⟩ := bins_fill size cap (us.mergeSort (sizedLe size)).reverse (emptyBins n)
  have hsized : (us.mergeSort (sizedLe size)).reverse.Perm us :=
    (List.reverse_perm _).trans (List.mergeSort_perm us _)
  have hempty : (emptyBins n : List (Bin F IR)).map Bin.funs = List.replicate n [] := by
    rw [emptyBins, List.map_replicate]
  rw [hempty] at hfill
  rw [hbins]
  cases r with
  | none =>
    refine ⟨fun _ => ?_, fun parts h => absurd h (by simp)⟩
    have hover := hfill.overfull
    rw [List.length_replicate, List.flatten_replicate_nil, List.length_nil, hsized.length_eq,
      Nat.add_zero] at hover
    exact hover
  | some out =>
    refine ⟨fun h => absurd h (by simp), ?_⟩
    rintro parts ⟨rfl⟩
    have hlen := hfill.length
    rw [List.length_replicate] at hlen
    have hperm := hfill.perm
    rw [List.flatten_replicate_nil, List.append_nil] at hperm
    refine ⟨?_, ?_, ?_, ?_⟩
    · rw [renumber, List.length_map]
      exact (length_placed out).trans hlen.le
    · rw [map_function_renumber]
      exact ((placed_flatten out).trans (hperm.trans hsized)).map _
    · intro part hpart
      obtain ⟨p, -, rfl⟩ := List.mem_map.mp hpart
      rw [numbered_pos, length_numbered]
    · intro part hpart
      obtain ⟨p, hp, rfl⟩ := List.mem_map.mp hpart
      rw [length_numbered]
      apply placed_le (hfill.le_cap _) p hp
      intro b hb
      rw [List.eq_of_mem_replicate hb]
      exact Nat.zero_le _

/-! ## How many units -/

theorem shardCount_le (n : ℕ) (limits : Shards) : shardCount n limits ≤ maxShards := by
  cases limits with
  | auto =>
    show autoShards n ≤ _
    unfold autoShards
    split
    · decide
    · exact Nat.min_le_left _ _
  | count k _ => exact Nat.min_le_left _ _

/-- One unit is chosen for what fits in one, or because it was asked for. -/
theorem shardCount_one {n : ℕ} {limits : Shards} (h : shardCount n limits = 1)
    (hone : limits ≠ .count 1 le_rfl) : n ≤ maxFuns := by
  cases limits with
  | auto =>
    by_contra hover
    rw [shardCount, autoShards, if_neg hover] at h
    unfold maxShards maxFuns at *
    omega
  | count k hk =>
    have hmin : min maxShards k = 1 := h
    obtain rfl : k = 1 := by
      unfold maxShards at hmin
      omega
    exact absurd rfl hone

/-! ## Calls between units -/

variable {l : List (ℕ × M)} {idx : ℕ} {m : M}

theorem lookup_eq_some_iff (hl : (l.map Prod.fst).Nodup) :
    l.lookup idx = some m ↔ (idx, m) ∈ l := by
  induction l with
  | nil => simp
  | cons p l ih =>
    obtain ⟨k, v⟩ := p
    rw [List.map_cons, List.nodup_cons] at hl
    by_cases hk : idx = k
    · subst hk
      have hout : (idx, m) ∉ l := by
        intro hmem
        exact hl.1 (List.mem_map.mpr ⟨_, hmem, rfl⟩)
      rw [List.lookup_cons_self, List.mem_cons, Option.some.injEq, Prod.mk.injEq]
      simp [hout, eq_comm]
    · have hne : (idx == k) = false := by simpa using hk
      rw [List.lookup_cons, hne, ih hl.2, List.mem_cons, Prod.mk.injEq]
      simp [hk]

theorem holders_keys {mods : List M} (h : mods.length = parts.length) :
    (holders parts mods).map Prod.fst = parts.flatten.map UnitFun.idx := by
  induction parts generalizing mods with
  | nil => rfl
  | cons part parts ih =>
    cases mods with
    | nil => cases h
    | cons m mods =>
      have hrest := ih (show mods.length = parts.length by simpa using h)
      rw [holders, List.zip_cons_cons, List.flatMap_cons, List.map_append, List.map_map,
        List.flatten_cons, List.map_append, ← hrest]
      rfl

theorem mem_holders {mods : List M} (h : mods.length = parts.length) :
    (idx, m) ∈ holders parts mods ↔
      ∃ (j : ℕ) (hj : j < parts.length), mods[j] = m ∧ idx ∈ (parts[j]).map UnitFun.idx := by
  induction parts generalizing mods with
  | nil => simp [holders]
  | cons part parts ih =>
    cases mods with
    | nil => cases h
    | cons m' mods =>
      have hlen : mods.length = parts.length := by simpa using h
      have hrest := ih hlen
      rw [holders, List.zip_cons_cons, List.flatMap_cons, List.mem_append]
      have hlater : (idx, m) ∈ (parts.zip mods).flatMap
          (fun p => p.1.map fun u => (u.idx, p.2)) ↔ _ := hrest
      rw [hlater, List.mem_map]
      constructor
      · rintro (⟨u, hu, heq⟩ | ⟨j, hj, hm, hidx⟩)
        · obtain ⟨rfl, rfl⟩ := Prod.mk.inj heq
          exact ⟨0, Nat.succ_pos _, rfl, List.mem_map_of_mem hu⟩
        · exact ⟨j + 1, Nat.succ_lt_succ hj, hm, hidx⟩
      · rintro ⟨j, hj, hm, hidx⟩
        cases j with
        | zero =>
          obtain ⟨u, hu, rfl⟩ := List.mem_map.mp hidx
          exact .inl ⟨u, hu, congrArg (Prod.mk u.idx) hm⟩
        | succ j => exact .inr ⟨j, Nat.lt_of_succ_lt_succ hj, hm, hidx⟩

theorem holderOutside_iff {mods : List M} (hlen : mods.length = parts.length)
    (hnodup : (parts.flatten.map UnitFun.idx).Nodup) {i : ℕ} (hi : i < parts.length) :
    holderOutside parts mods parts[i] idx = some m ↔
      ∃ (j : ℕ) (hj : j < parts.length), j ≠ i ∧ mods[j] = m ∧
        idx ∈ (parts[j]).map UnitFun.idx := by
  have hkeys : ((holders parts mods).reverse.map Prod.fst).Nodup := by
    rw [List.map_reverse, List.nodup_reverse, holders_keys hlen]
    exact hnodup
  have hlookup : (holders parts mods).reverse.lookup idx = some m ↔ _ :=
    (lookup_eq_some_iff hkeys).trans (List.mem_reverse.trans (mem_holders hlen))
  have happart : ∀ j (hj : j < parts.length), j ≠ i → idx ∈ (parts[j]).map UnitFun.idx →
      idx ∉ (parts[i]).map UnitFun.idx := by
    intro j hj hne hin hin'
    rw [List.map_flatten, List.nodup_flatten] at hnodup
    have hpair := List.pairwise_iff_getElem.mp hnodup.2
    have hj' : j < (parts.map (List.map UnitFun.idx)).length := by simpa using hj
    have hi' : i < (parts.map (List.map UnitFun.idx)).length := by simpa using hi
    rcases Nat.lt_or_gt_of_ne hne with hlt | hgt
    · exact hpair j i hj' hi' hlt (by simpa using hin) (by simpa using hin')
    · exact hpair i j hi' hj' hgt (by simpa using hin') (by simpa using hin)
  unfold holderOutside
  split
  · rename_i hmine
    refine ⟨fun h => absurd h (by simp), ?_⟩
    rintro ⟨j, hj, hne, -, hin⟩
    exact absurd hmine (happart j hj hne hin)
  · rename_i hmine
    rw [hlookup]
    constructor
    · rintro ⟨j, hj, hm, hin⟩
      refine ⟨j, hj, ?_, hm, hin⟩
      rintro rfl
      exact hmine hin
    · rintro ⟨j, hj, -, hm, hin⟩
      exact ⟨j, hj, hm, hin⟩

/-- A split request has every function once.  It has no more units than allowed, each numbered from
zero and within its bound unless one unit was asked for, and a call between units goes to the unit
that has the function. -/
theorem split_exact (size : IR → ℕ) (imported : ℕ) (funcs : List F) (ran : ℕ → Bool)
    (compilerIr : F → IR) (canCompile : F → IR → Bool) (limits : Shards) :
    let us := unit imported funcs ran compilerIr canCompile
    (split size us limits = none → shardCount us.length limits * maxFuns < us.length) ∧
    ∀ parts, split size us limits = some parts →
      parts.length ≤ maxShards ∧
      (us.map UnitFun.idx).Nodup ∧
      (parts.flatten.map UnitFun.function).Perm (us.map UnitFun.function) ∧
      (∀ part ∈ parts, part.map UnitFun.pos = List.range part.length) ∧
      (limits = .count 1 le_rfl → parts = [us]) ∧
      (limits ≠ .count 1 le_rfl → ∀ part ∈ parts, part.length ≤ maxFuns) ∧
      ∀ (mods : List M) (hlen : mods.length = parts.length) (i : ℕ) (hi : i < parts.length)
        (idx : ℕ) (m : M), holderOutside parts mods parts[i] idx = some m ↔
          ∃ (j : ℕ) (hj : j < parts.length), j ≠ i ∧ mods[j] = m ∧
            idx ∈ (parts[j]).map UnitFun.idx := by
  intro us
  have hnodup : (us.map UnitFun.idx).Nodup :=
    unit_nodup imported funcs ran compilerIr canCompile
  have hcalls : ∀ parts : List (List (UnitFun F IR)),
      (parts.flatten.map UnitFun.function).Perm (us.map UnitFun.function) →
      (parts.flatten.map UnitFun.idx).Nodup := by
    intro parts hperm
    rw [map_idx] at hnodup ⊢
    exact (hperm.map Prod.fst).nodup_iff.mpr hnodup
  have hsingle : ∀ h : 1 ≤ 1, shardCount us.length (.count 1 h) = 1 := fun _ => rfl
  unfold split
  split
  · rename_i hone
    refine ⟨fun h => absurd h (by simp), ?_⟩
    rintro parts ⟨rfl⟩
    have hperm : (([us] : List (List (UnitFun F IR))).flatten.map UnitFun.function).Perm
        (us.map UnitFun.function) := by
      rw [List.flatten_singleton]
    refine ⟨Nat.le_of_ble_eq_true rfl, hnodup, hperm, ?_, fun _ => rfl, ?_, ?_⟩
    · intro part hpart
      obtain rfl := List.mem_singleton.mp hpart
      exact unit_pos imported funcs ran compilerIr canCompile
    · intro hlimits part hpart
      obtain rfl := List.mem_singleton.mp hpart
      exact shardCount_one hone hlimits
    · intro mods hlen i hi idx m
      exact holderOutside_iff hlen (hcalls _ hperm) hi
  · rename_i hmany
    obtain ⟨hnone, hsome⟩ := bins_spec size maxFuns us (shardCount us.length limits)
    refine ⟨hnone, ?_⟩
    intro parts hparts
    obtain ⟨hunits, hperm, hpos, hcap⟩ := hsome parts hparts
    refine ⟨hunits.trans (shardCount_le _ _), hnodup, hperm, hpos, ?_, fun _ => hcap, ?_⟩
    · rintro rfl
      exact absurd (hsingle _) hmany
    · intro mods hlen i hi idx m
      exact holderOutside_iff hlen (hcalls _ hperm) hi

/-- One more function than a unit has room for, and one unit asked for: it is not split. -/
theorem not_within_bound :
    let us := unit 0 (List.replicate (maxFuns + 1) ()) (fun _ => true) id fun _ _ => true
    split (fun _ => 1) us (.count 1 le_rfl) = some [us] ∧ maxFuns < us.length := by
  intro us
  have hone : shardCount us.length (.count 1 le_rfl) = 1 := rfl
  refine ⟨?_, ?_⟩
  · unfold split
    rw [hone]
    rfl
  · show maxFuns < (unit _ _ _ _ _).length
    unfold unit
    rw [length_numbered, List.filter_eq_self.mpr (fun _ _ => rfl), List.length_map,
      List.filter_eq_self.mpr (fun _ _ => rfl), List.length_zipIdx, List.length_replicate]
    exact Nat.lt_succ_self _

end ErlangWasm.Compile
