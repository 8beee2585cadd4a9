import ErlangWasm.Component.Types
import ErlangWasm.Reasoning.Fallible
import ErlangWasm.Reasoning.Loops

/-!
# When a reference resolves

`resolve/2` follows a reference to the value type it names, and on through that.  It comes to an end
exactly when no reference it follows leads back to itself.
-/

namespace ErlangWasm.Component.TypeSection

open Reasoning Reasoning.Fallible
open Decode (Bytes)

/-! ## The references of a type -/

/-- `resolve/2` meets the reference `idx` inside the descriptor. -/
inductive Desc.Mentions (idx : ℕ) : Desc → Prop
  | typeref : Mentions idx (.typeref idx)
  | list {d : Desc} : Mentions idx d → Mentions idx (.list d)
  | option {d : Desc} : Mentions idx d → Mentions idx (.option d)
  | tuple {d : Desc} {ds : List Desc} : d ∈ ds → Mentions idx d → Mentions idx (.tuple ds)
  | record {f : Bytes × Desc} {fs : List (Bytes × Desc)} :
      f ∈ fs → Mentions idx f.2 → Mentions idx (.record fs)
  | variant {c : Bytes × Desc} {cs : List (Bytes × Desc)} :
      c ∈ cs → Mentions idx c.2 → Mentions idx (.variant cs)
  | ok {ok err : Desc} : Mentions idx ok → Mentions idx (.result ok err)
  | err {ok err : Desc} : Mentions idx err → Mentions idx (.result ok err)

/-- The value type at the one index refers to the other. -/
def Types.Refers (types : Types) (i j : ℕ) : Prop :=
  ∃ d, types.get? i = some (.value d) ∧ d.Mentions j

/-- Some reference in the descriptor leads to a type that refers, by way of others or not, to
itself. -/
def Looped (q : Question) : Prop := ∃ i, q.desc.Mentions i ∧ Loops q.types.Refers i

variable {types : Types}

theorem Types.Refers.mem {i j : ℕ} (h : types.Refers i j) : i ∈ types.map Prod.fst := by
  obtain ⟨d, hd, -⟩ := h
  have hlookup : List.lookup i types ≠ none := by
    change types.get? i ≠ none
    rw [hd]
    simp
  rw [Ne, List.lookup_eq_none_iff] at hlookup
  push Not at hlookup
  obtain ⟨p, hp, hi⟩ := hlookup
  have heq : i = p.1 := by simpa using hi
  exact List.mem_map.mpr ⟨p, hp, heq.symm⟩

/-- What leads to no loop is followed only so far. -/
theorem Types.acc_refers {i : ℕ} (h : ¬ Loops types.Refers i) :
    Acc (fun j i => types.Refers i j) i :=
  acc_of_not_loops (List.finite_toSet (types.map Prod.fst)) (fun _ _ h => h.mem) h

/-! ## More depth -/

theorem map_mono {α β : Type} {f g : α → β} {x y : Option α} {b : β}
    (h : ∀ a, x = some a → y = some a) (hb : x.map f = some b) (hfg : f = g) :
    y.map g = some b := by
  obtain ⟨a, ha, rfl⟩ := Option.map_eq_some_iff.mp hb
  rw [h a ha, hfg]
  rfl

theorem resolve_succ {n : ℕ} {d r : Desc} (h : resolve n d types = some r) :
    resolve (n + 1) d types = some r := by
  induction n generalizing d r with
  | zero => cases h
  | succ n ih =>
    cases d with
    | typeref idx =>
      rw [resolve] at h ⊢
      split at h
      · exact ih h
      · exact h
    | list d | option d => exact map_mono (fun _ => ih) h rfl
    | tuple ds => exact map_mono (fun _ => mapM_mono fun _ _ _ => ih) h rfl
    | record fs | variant cs =>
      exact map_mono (fun _ => mapM_mono fun _ _ _ hb => map_mono (fun _ => ih) hb rfl) h rfl
    | result ok err =>
      obtain ⟨ok', hok, h⟩ := Option.bind_eq_some_iff.mp h
      obtain ⟨err', herr, h⟩ := Option.bind_eq_some_iff.mp h
      rw [resolve]
      exact Option.bind_eq_some_iff.mpr
        ⟨ok', ih hok, Option.bind_eq_some_iff.mpr ⟨err', ih herr, h⟩⟩
    | _ => exact h

theorem resolve_mono {n m : ℕ} (hnm : n ≤ m) {d r : Desc} (h : resolve n d types = some r) :
    resolve m d types = some r := by
  induction hnm with
  | refl => exact h
  | step _ ih => exact resolve_succ ih

/-! ## A loop -/

/-- Following a loop never ends. -/
theorem resolve_of_looped {n : ℕ} {d : Desc} (h : Looped ⟨d, types⟩) :
    resolve n d types = none := by
  induction n generalizing d with
  | zero => rfl
  | succ n ih =>
    obtain ⟨i, hi, hloop⟩ := h
    cases hi with
    | typeref =>
      obtain ⟨j, ⟨d', hd', hj⟩, hjloop⟩ := hloop.step
      rw [resolve, hd']
      exact ih ⟨j, hj, hjloop⟩
    | list hi | option hi => rw [resolve, ih ⟨i, hi, hloop⟩, Option.map_none]
    | tuple hd hi =>
      rw [resolve, mapM_eq_none_of_mem hd (ih ⟨i, hi, hloop⟩), Option.map_none]
    | record hd hi | variant hd hi =>
      rw [resolve, mapM_eq_none_of_mem hd (by rw [ih ⟨i, hi, hloop⟩, Option.map_none]),
        Option.map_none]
    | ok hi =>
      rw [resolve, ih ⟨i, hi, hloop⟩]
      rfl
    | err hi =>
      rw [resolve, ih ⟨i, hi, hloop⟩]
      cases resolve n _ types <;> rfl

/-! ## No loop -/

/-- Entries of a list, each under its name, that resolve given enough depth. -/
theorem exists_resolve_fields {fs : List (Bytes × Desc)}
    (h : ∀ f ∈ fs, ∃ n r, resolve n f.2 types = some r) :
    ∃ n r, (fs.mapM fun f => (resolve n f.2 types).map (f.1, ·)) = some r := by
  apply exists_mapM_of_mono
    (h := fun n (f : Bytes × Desc) => (resolve n f.2 types).map (f.1, ·))
  · intro n m f b hnm hb
    exact map_mono (fun _ => resolve_mono hnm) hb rfl
  · intro f hf
    obtain ⟨n, r, hr⟩ := h f hf
    exact ⟨n, (f.1, r), by rw [hr, Option.map_some]⟩

/-- A descriptor resolves once its references do; by induction on the descriptor. -/
theorem exists_resolve {d : Desc}
    (hrefs : ∀ i, d.Mentions i → ∃ n r, resolve n (.typeref i) types = some r) :
    ∃ n r, resolve n d types = some r := by
  match d with
  | .typeref i => exact hrefs i .typeref
  | .list d =>
    obtain ⟨n, r, hr⟩ := exists_resolve fun i hi => hrefs i (.list hi)
    exact ⟨n + 1, .list r, by rw [resolve, hr, Option.map_some]⟩
  | .option d =>
    obtain ⟨n, r, hr⟩ := exists_resolve fun i hi => hrefs i (.option hi)
    exact ⟨n + 1, .option r, by rw [resolve, hr, Option.map_some]⟩
  | .tuple ds =>
    have hall : ∀ d ∈ ds, ∃ n r, resolve n d types = some r := fun d hd =>
      exists_resolve fun i hi => hrefs i (.tuple hd hi)
    obtain ⟨n, rs, hrs⟩ := exists_mapM_of_mono (h := fun n d => resolve n d types)
      (fun _ _ _ _ hnm => resolve_mono hnm) hall
    exact ⟨n + 1, .tuple rs, by rw [resolve, hrs, Option.map_some]⟩
  | .record fs =>
    obtain ⟨n, rs, hrs⟩ := exists_resolve_fields
      fun f hf => exists_resolve fun i hi => hrefs i (.record hf hi)
    exact ⟨n + 1, .record rs, by rw [resolve, hrs, Option.map_some]⟩
  | .variant cs =>
    obtain ⟨n, rs, hrs⟩ := exists_resolve_fields
      fun c hc => exists_resolve fun i hi => hrefs i (.variant hc hi)
    exact ⟨n + 1, .variant rs, by rw [resolve, hrs, Option.map_some]⟩
  | .result ok err =>
    obtain ⟨n, ok', hok⟩ := exists_resolve fun i hi => hrefs i (@Desc.Mentions.ok _ _ err hi)
    obtain ⟨m, err', herr⟩ := exists_resolve fun i hi => hrefs i (@Desc.Mentions.err _ ok _ hi)
    refine ⟨max n m + 1, .result ok' err', ?_⟩
    rw [resolve, resolve_mono (Nat.le_max_left n m) hok, resolve_mono (Nat.le_max_right n m) herr]
    rfl
  | .bool | .s8 | .u8 | .s16 | .u16 | .s32 | .u32 | .s64 | .u64 | .f32 | .f64 | .char | .string
  | .enum _ | .flags _ | .own _ | .borrow _ | .future _ | .stream _ | .errorContext | .none =>
    exact ⟨1, _, rfl⟩
termination_by sizeOf d
decreasing_by
  all_goals simp_wf
  all_goals first
    | omega
    | (have hmem := List.sizeOf_lt_of_mem ‹_ ∈ _›; omega)
    | (have hmem := List.sizeOf_lt_of_mem ‹_ ∈ _›; cases f; simp at hmem ⊢; omega)
    | (have hmem := List.sizeOf_lt_of_mem ‹_ ∈ _›; cases c; simp at hmem ⊢; omega)

/-- A reference that leads to no loop resolves. -/
theorem exists_resolve_typeref {i : ℕ} (h : ¬ Loops types.Refers i) :
    ∃ n r, resolve n (.typeref i) types = some r := by
  induction types.acc_refers h with
  | intro i _ ih =>
    cases hi : types.get? i with
    | none => exact ⟨1, .typeref i, by rw [resolve, hi]⟩
    | some entry =>
      cases entry with
      | value d =>
        obtain ⟨n, r, hr⟩ := exists_resolve (d := d) fun j hj =>
          ih j ⟨d, hi, hj⟩ fun hloop => h (.of_step ⟨d, hi, hj⟩ hloop)
        exact ⟨n + 1, r, by rw [resolve, hi]; exact hr⟩
      | _ => exact ⟨1, .typeref i, by rw [resolve, hi]⟩

/-- `resolve/2` comes to an end exactly when it meets no loop. -/
theorem exists_resolve_iff (q : Question) :
    (∃ n r, resolve n q.desc q.types = some r) ↔ ¬ Looped q := by
  constructor
  · rintro ⟨n, r, hr⟩ hlooped
    rw [resolve_of_looped hlooped] at hr
    cases hr
  · intro h
    exact exists_resolve fun i hi => exists_resolve_typeref fun hloop => h ⟨i, hi, hloop⟩

/-! ## References that point back -/

/-- Each value type refers only to types before it. -/
def Types.Ordered (types : Types) : Prop := ∀ i j, types.Refers i j → j < i

/-- A table in order holds no loop. -/
theorem Types.Ordered.not_looped (h : types.Ordered) (d : Desc) : ¬ Looped ⟨d, types⟩ := by
  rintro ⟨i, -, j, -, hloop⟩
  have hlt : ∀ k, Relation.TransGen types.Refers j k → k < j := by
    intro k hk
    induction hk with
    | single hstep => exact h _ _ hstep
    | tail _ hstep ih => exact Nat.lt_trans (h _ _ hstep) ih
  exact Nat.lt_irrefl j (hlt j hloop)

end ErlangWasm.Component.TypeSection
