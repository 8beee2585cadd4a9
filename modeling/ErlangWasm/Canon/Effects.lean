import ErlangWasm.Canon.Layout

/-!
# What a call does to the guest

A call that stores uses up the grants of its placings, changes a region and the blocks granted, and
leaves a value that can be read for as long as these stay as they are.
-/

namespace ErlangWasm.Canon

variable {ps qs : List Placing} {gs : List Grant} {used used' : ℕ → Prop} {pages : ℕ}

/-! ## Grants -/

theorem Fair.mono (h : Fair used pages ps gs) (hsub : ∀ a, used' a → used a) :
    Fair used' pages ps gs := by
  induction ps generalizing used used' pages gs with
  | nil => trivial
  | cons p ps ih =>
    cases gs with
    | nil => exact h
    | cons g gs =>
      obtain ⟨h1, h2, h2', h3, h4, h5, h6⟩ := h
      refine ⟨h1, h2, h2', h3, fun a ha hu => h4 a ha (hsub a hu), fun b a hu => h5 b a (hsub a hu), ?_⟩
      exact ih h6 fun a ha => ha.imp_left (hsub a)

theorem Fair.left (h : Fair used pages (ps ++ qs) gs) : Fair used pages ps gs := by
  induction ps generalizing used pages gs with
  | nil => trivial
  | cons p ps ih =>
    cases gs with
    | nil => exact h
    | cons g gs =>
      obtain ⟨h1, h2, h2', h3, h4, h5, h6⟩ := h
      exact ⟨h1, h2, h2', h3, h4, h5, ih h6⟩

theorem Fair.right (h : Fair used pages (ps ++ qs) gs) :
    Fair (fun a => used a ∨ Foot ps gs a) (pagesAfter ps gs pages) qs (gs.drop ps.length) := by
  induction ps generalizing used pages gs with
  | nil =>
    apply h.mono
    intro a ha
    rcases ha with ha | ha
    · exact ha
    · cases gs <;> cases ha
  | cons p ps ih =>
    cases gs with
    | nil => cases h
    | cons g gs =>
      obtain ⟨-, -, -, -, -, -, h6⟩ := h
      apply (ih h6).mono
      intro a ha
      rcases ha with ha | ha | ha
      · exact .inl (.inl ha)
      · exact .inl (.inr ha)
      · exact .inr ha

/-- What is in use is granted to nobody. -/
theorem Fair.not_foot (h : Fair used pages ps gs) {a : ℕ} (ha : used a) : ¬ Foot ps gs a := by
  induction ps generalizing used pages gs with
  | nil =>
    intro hf
    cases gs <;> cases hf
  | cons p ps ih =>
    cases gs with
    | nil => cases h
    | cons g gs =>
      obtain ⟨-, -, -, -, h4, -, h6⟩ := h
      rintro (hin | hin)
      · exact h4 a hin ha
      · exact ih h6 (.inl ha) hin

theorem Fair.kept (h : Fair used pages ps gs) {a : ℕ} (ha : used a) : Kept ps gs a := by
  induction ps generalizing used pages gs with
  | nil => cases gs <;> trivial
  | cons p ps ih =>
    cases gs with
    | nil => cases h
    | cons g gs =>
      obtain ⟨-, -, -, -, -, h5, h6⟩ := h
      exact ⟨fun byte => h5 byte a ha, ih h6 (.inl ha)⟩

theorem good_append :
    Good (ps ++ qs) gs ↔ Good ps gs ∧ Good qs (gs.drop ps.length) := by
  induction ps generalizing gs with
  | nil => simp [Good]
  | cons p ps ih =>
    cases gs with
    | nil => simp [Good]
    | cons g gs =>
      rw [List.cons_append, Good, Good, ih, List.length_cons, List.drop_succ_cons]
      simp only [and_assoc]

theorem foot_append {a : ℕ} :
    Foot (ps ++ qs) gs a ↔ Foot ps gs a ∨ Foot qs (gs.drop ps.length) a := by
  induction ps generalizing gs with
  | nil => simp [Foot]
  | cons p ps ih =>
    cases gs with
    | nil => cases qs <;> simp [Foot]
    | cons g gs =>
      rw [List.cons_append, Foot, Foot, ih, List.length_cons, List.drop_succ_cons, or_assoc]

theorem kept_append {a : ℕ} :
    Kept (ps ++ qs) gs a ↔ Kept ps gs a ∧ Kept qs (gs.drop ps.length) a := by
  induction ps generalizing gs with
  | nil => simp [Kept]
  | cons p ps ih =>
    cases gs with
    | nil => cases qs <;> simp [Kept]
    | cons g gs =>
      rw [List.cons_append, Kept, Kept, ih, List.length_cons, List.drop_succ_cons, and_assoc]

theorem pagesAfter_append :
    pagesAfter (ps ++ qs) gs pages = pagesAfter qs (gs.drop ps.length) (pagesAfter ps gs pages) := by
  induction ps generalizing gs pages with
  | nil => simp [pagesAfter]
  | cons p ps ih =>
    cases gs with
    | nil => cases qs <;> simp [pagesAfter]
    | cons g gs =>
      rw [List.cons_append, pagesAfter, pagesAfter, ih, List.length_cons, List.drop_succ_cons]

theorem le_pagesAfter : pages ≤ pagesAfter ps gs pages := by
  induction ps generalizing gs pages with
  | nil => cases gs <;> exact Nat.le_refl _
  | cons p ps ih =>
    cases gs with
    | nil => exact Nat.le_refl _
    | cons g gs => exact le_trans (Nat.le_add_right pages g.grow) ih

/-! ## Effects -/

theorem bind_eq_ok {α β : Type} {x : Outcome α} {f : α → Outcome β} {b : β} :
    (x >>= f) = .ok b ↔ ∃ a, x = .ok a ∧ f a = .ok b := by
  cases x with
  | error e => exact ⟨nofun, fun ⟨_, h, _⟩ => nomatch h⟩
  | ok a => exact ⟨fun h => ⟨a, rfl, h⟩, fun ⟨_, h, h'⟩ => by cases h; exact h'⟩

/-- The call used the grants of `ps`, and changed only `region` and the blocks granted. -/
structure Effect (region : ℕ → Prop) (ps : List Placing) (g g' : Guest) : Prop where
  grants : g'.grants = g.grants.drop ps.length
  pages : g'.mem.pages = pagesAfter ps g.grants g.mem.pages
  frame : ∀ a, ¬ region a → ¬ Foot ps g.grants a → Kept ps g.grants a →
    g'.mem.byte a = g.mem.byte a

/-- As long as the region and the blocks are as in `mem`, `read` answers `x`, exactly when the
grants were good. -/
def Reads {α : Type} (region : ℕ → Prop) (ps : List Placing) (gs : List Grant) (mem : Memory)
    (read : Memory → Outcome α) (x : α) : Prop :=
  ∀ m : Memory, mem.pages ≤ m.pages → (∀ a, region a ∨ Foot ps gs a → m.byte a = mem.byte a) →
    (read m = .ok x ↔ Good ps gs)

variable {region region' : ℕ → Prop} {g g₁ g₂ : Guest}

theorem Effect.refl : Effect (fun _ => False) [] g g :=
  ⟨rfl, by cases g.grants <;> rfl, fun _ _ _ _ => rfl⟩

theorem Effect.trans (h : Effect region ps g g₁) (h' : Effect region' qs g₁ g₂) :
    Effect (fun a => region a ∨ region' a) (ps ++ qs) g g₂ := by
  have hgrants := h.grants
  constructor
  · rw [h'.grants, hgrants, List.drop_drop, List.length_append]
  · rw [h'.pages, h.pages, hgrants, pagesAfter_append]
  · intro a hr hf hk
    rw [foot_append, ← hgrants] at hf
    rw [kept_append, ← hgrants] at hk
    rw [h'.frame a (fun ha => hr (.inr ha)) (fun ha => hf (.inr ha)) hk.2]
    exact h.frame a (fun ha => hr (.inl ha)) (fun ha => hf (.inl ha)) hk.1

theorem Effect.mono (h : Effect region ps g g₁)
    (hsub : ∀ a, region a → region' a ∨ Foot ps g.grants a) : Effect region' ps g g₁ := by
  refine ⟨h.grants, h.pages, fun a hr hf hk => h.frame a (fun ha => ?_) hf hk⟩
  rcases hsub a ha with hin | hin
  · exact hr hin
  · exact hf hin

/-- What is in use outside of the region stays. -/
theorem Effect.keeps (h : Effect region ps g g₁) (hfair : Fair used g.mem.pages ps g.grants) {a : ℕ}
    (ha : used a) (hr : ¬ region a) : g₁.mem.byte a = g.mem.byte a :=
  h.frame a hr (hfair.not_foot ha) (hfair.kept ha)

theorem Effect.le_pages (h : Effect region ps g g₁) : g.mem.pages ≤ g₁.mem.pages := by
  rw [h.pages]
  exact le_pagesAfter

/-- A value stays readable past a call that leaves it alone. -/
theorem Reads.later {α : Type} {read : Memory → Outcome α} {x : α}
    (hread : Reads region ps gs g₁.mem read x) (h : Effect region' qs g₁ g₂)
    (hfair : Fair used g₁.mem.pages qs g₁.grants)
    (hused : ∀ a, region a ∨ Foot ps gs a → used a ∧ ¬ region' a) :
    Reads region ps gs g₂.mem read x := by
  intro m hpages hsame
  apply hread m (le_trans h.le_pages hpages)
  intro a ha
  obtain ⟨hu, hr⟩ := hused a ha
  rw [hsame a ha, h.keeps hfair hu hr]

/-- Two values read one after the other, together. -/
theorem Reads.both {α β γ : Type} {read : Memory → Outcome α} {read' : Memory → Outcome β}
    {x : α} {y : β} {mem : Memory} {f : α → β → γ} (hf : ∀ x y x' y', f x y = f x' y' → x = x' ∧ y = y')
    (hread : Reads region ps gs mem read x)
    (hread' : Reads region' qs (gs.drop ps.length) mem read' y) :
    Reads (fun a => region a ∨ region' a) (ps ++ qs) gs mem
      (fun m => do return f (← read m) (← read' m)) (f x y) := by
  intro m hpages hsame
  have h1 := hread m hpages fun a ha => hsame a (by
    rw [foot_append]
    exact ha.imp .inl .inl)
  have h2 := hread' m hpages fun a ha => hsame a (by
    rw [foot_append]
    exact ha.imp .inr .inr)
  rw [good_append, ← h1, ← h2]
  dsimp only
  constructor
  · intro h
    obtain ⟨a, ha, h⟩ := bind_eq_ok.mp h
    obtain ⟨b, hb, h⟩ := bind_eq_ok.mp h
    obtain ⟨rfl, rfl⟩ := hf a b x y (Except.ok.inj h)
    exact ⟨ha, hb⟩
  · rintro ⟨h, h'⟩
    rw [h, h']
    rfl

/-- A value read another way, with the same answer. -/
theorem Reads.mapOn {α β : Type} {read : Memory → Outcome α} {x : α} {mem : Memory} {f : α → β}
    (hf : ∀ m a, read m = .ok a → f a = f x → a = x) (hread : Reads region ps gs mem read x) :
    Reads region ps gs mem (fun m => do return f (← read m)) (f x) := by
  intro m hpages hsame
  rw [← hread m hpages hsame]
  dsimp only
  constructor
  · intro h
    obtain ⟨a, ha, h⟩ := bind_eq_ok.mp h
    rw [ha, hf m a ha (Except.ok.inj h)]
  · intro h
    rw [h]
    rfl

theorem Reads.map {α β : Type} {read : Memory → Outcome α} {x : α} {mem : Memory} {f : α → β}
    (hf : Function.Injective f) (hread : Reads region ps gs mem read x) :
    Reads region ps gs mem (fun m => do return f (← read m)) (f x) :=
  hread.mapOn fun _ _ _ heq => hf heq

theorem Reads.mono {α : Type} {read : Memory → Outcome α} {x : α} {mem : Memory}
    (hread : Reads region ps gs mem read x)
    (hsub : ∀ a, region a → region' a ∨ Foot ps gs a) : Reads region' ps gs mem read x := by
  intro m hpages hsame
  apply hread m hpages
  intro a ha
  apply hsame
  rcases ha with ha | ha
  · exact hsub a ha
  · exact .inr ha

/-! ## Memory -/

@[simp] theorem length_slice (m : Memory) (addr len : ℕ) : (m.slice addr len).length = len := by
  rw [Memory.slice, List.length_map, List.length_range]

theorem slice_congr {m m' : Memory} {addr len : ℕ}
    (h : ∀ a, Within a addr len → m.byte a = m'.byte a) : m.slice addr len = m'.slice addr len := by
  apply List.map_congr_left
  intro i hi
  have hlt := List.mem_range.mp hi
  exact h _ ⟨Nat.le_add_right addr i, by omega⟩

theorem slice_put (m : Memory) (addr : ℕ) (bs : Bytes) :
    (m.put addr bs).slice addr bs.length = bs := by
  apply List.ext_getElem
  · exact length_slice _ _ _
  · intro i h1 h2
    have hsub : addr + i - addr = i := by omega
    have hbyte : (m.put addr bs).byte (addr + i) = bs[i] := by
      show (if addr ≤ addr + i then bs.getD (addr + i - addr) _ else _) = _
      rw [if_pos (Nat.le_add_right addr i), hsub, List.getD_eq_getElem _ _ h2]
    rw [← hbyte]
    simp [Memory.slice]

theorem put_frame (m : Memory) {addr : ℕ} {bs : Bytes} {a : ℕ} (h : ¬ Within a addr bs.length) :
    (m.put addr bs).byte a = m.byte a := by
  show (if addr ≤ a then bs.getD (a - addr) (m.byte a) else m.byte a) = _
  split
  · rename_i hle
    apply List.getD_eq_default
    unfold Within at h
    omega
  · rfl

theorem readMemory_nat {m : Memory} {addr len : ℕ} (h : addr + len ≤ m.pages * pageSize) :
    readMemory m addr len = .ok (m.slice addr len) := by
  rw [readMemory, if_pos]
  · rfl
  · exact ⟨Int.natCast_nonneg _, Int.natCast_nonneg _, by exact_mod_cast h⟩

theorem writeMemory_spec {addr : ℕ} {bs : Bytes} (h : addr + bs.length ≤ g.mem.pages * pageSize) :
    ∃ g', writeMemory g addr bs = .ok g' ∧ Effect (Within · addr bs.length) [] g g' ∧
      Reads (Within · addr bs.length) [] g.grants g'.mem (readMemory · addr bs.length) bs := by
  refine ⟨{ g with mem := g.mem.put addr bs }, by rw [writeMemory, if_pos h], ?_, ?_⟩
  · exact ⟨rfl, by cases g.grants <;> rfl, fun a hr _ _ => put_frame g.mem hr⟩
  · intro m hpages hsame
    have hpages' : g.mem.pages ≤ m.pages := hpages
    have hin : addr + bs.length ≤ m.pages * pageSize :=
      le_trans h (Nat.mul_le_mul_right _ hpages')
    have hslice : m.slice addr bs.length = bs := by
      rw [slice_congr fun a ha => hsame a (.inl ha)]
      exact slice_put g.mem addr bs
    dsimp only
    rw [readMemory_nat hin, hslice]
    cases g.grants <;> exact ⟨fun _ => trivial, fun _ => rfl⟩

/-- A grant: the block it gives is no part of anything in use. -/
theorem realloc_spec {p : Placing} (a s : ℕ) (hfair : Fair used g.mem.pages (p :: ps) g.grants) :
    ∃ ptr g', realloc a s g = .ok (ptr, g') ∧ Effect (fun _ => False) [p] g g' ∧
      (∃ gr rest, g.grants = gr :: rest ∧ ptr = gr.ptr) ∧ ptr % p.align = 0 ∧ ptr < 2 ^ 32 ∧
      g'.mem.pages ≤ 65536 ∧ ptr + p.size ≤ g'.mem.pages * pageSize ∧
      (∀ x, Within x ptr p.size ↔ Foot [p] g.grants x) ∧
      Fair (fun x => used x ∨ Within x ptr p.size) g'.mem.pages ps g'.grants := by
  cases hgrants : g.grants with
  | nil =>
    rw [hgrants] at hfair
    cases hfair
  | cons gr rest =>
    rw [hgrants] at hfair
    obtain ⟨h1, h2, h2', h3, h4, h5, h6⟩ := hfair
    refine ⟨gr.ptr, { mem := gr.after g.mem, grants := rest }, by rw [realloc, hgrants], ?_,
      ⟨gr, rest, rfl, rfl⟩, h1, h2, h2', h3, ?_, h6⟩
    · constructor
      · rw [hgrants]
        rfl
      · rw [hgrants, pagesAfter]
        cases rest <;> rfl
      · intro x _ _ hk
        rw [hgrants] at hk
        exact hk.1 g.mem.byte
    · intro x
      cases rest <;> exact ⟨.inl, fun h => h.elim id nofun⟩

end ErlangWasm.Canon
