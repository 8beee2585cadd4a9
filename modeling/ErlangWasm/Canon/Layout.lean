import ErlangWasm.Canon.Flat

/-!
# Layout

Every alignment is 1, 2, 4 or 8, so the greatest of some is a multiple of each.  Fields stand one
after another at multiples of their alignments, a payload after its discriminant, and a size is a
multiple of its alignment.
-/

namespace ErlangWasm.Canon

/-! ## Alignments -/

/-- The alignments there are. -/
def IsAlign (a : ℕ) : Prop := a = 1 ∨ a = 2 ∨ a = 4 ∨ a = 8

instance (a : ℕ) : Decidable (IsAlign a) := inferInstanceAs (Decidable (_ ∨ _))

theorem IsAlign.pos {a : ℕ} (h : IsAlign a) : 0 < a := by
  unfold IsAlign at h
  omega

theorem IsAlign.both {a b : ℕ} (ha : IsAlign a) (hb : IsAlign b) : IsAlign (max a b) := by
  rcases Nat.le_total a b with h | h
  · rwa [Nat.max_eq_right h]
  · rwa [Nat.max_eq_left h]

theorem IsAlign.dvd {a b : ℕ} (ha : IsAlign a) (hb : IsAlign b) (h : a ≤ b) : a ∣ b := by
  unfold IsAlign at ha hb
  rcases ha with rfl | rfl | rfl | rfl <;> rcases hb with rfl | rfl | rfl | rfl <;>
    omega

theorem IsAlign.dvd_max_right {a b : ℕ} (ha : IsAlign a) (hb : IsAlign b) : b ∣ max a b :=
  hb.dvd (ha.both hb) (Nat.le_max_right a b)

theorem dvd_alignUp (n a : ℕ) : a ∣ alignUp n a := Nat.dvd_mul_left a _

theorem le_alignUp (n : ℕ) {a : ℕ} (ha : 0 < a) : n ≤ alignUp n a := by
  have h := Nat.lt_div_mul_add (a := n + a - 1) ha
  unfold alignUp
  omega

theorem isAlign_discSize (n : ℕ) : IsAlign (discSize n) := by
  unfold discSize IsAlign
  split
  · decide
  · split <;> decide

theorem isAlign_flags (n : ℕ) : IsAlign (flagsSizeAlign n).2 := by
  unfold flagsSizeAlign IsAlign
  split
  · decide
  · split
    · decide
    · split
      · decide
      · exact .inr (.inr (.inl rfl))

/-- A size and an alignment that it is a multiple of. -/
structure Laid (sa : ℕ × ℕ) : Prop where
  isAlign : IsAlign sa.2
  dvd : sa.2 ∣ sa.1

/-! ## Fields -/

/-- The offset past fields that begin at `off`. -/
def endOf : List (ℕ × ℕ) → ℕ → ℕ
  | [], off => off
  | sa :: sas, off => endOf sas (alignUp off sa.2 + sa.1)

/-- Where the fields stand. -/
def fieldOffsets : List (ℕ × ℕ) → ℕ → List ℕ
  | [], _ => []
  | sa :: sas, off => alignUp off sa.2 :: fieldOffsets sas (alignUp off sa.2 + sa.1)

theorem aggregateFold_from (sas : List (ℕ × ℕ)) (off a : ℕ) :
    sas.foldl (fun acc sa => (alignUp acc.1 sa.2 + sa.1, max acc.2 sa.2)) (off, a) =
      (endOf sas off, sas.foldl (fun acc sa => max acc sa.2) a) := by
  induction sas generalizing off a with
  | nil => rfl
  | cons sa sas ih => rw [List.foldl_cons, ih, endOf, List.foldl_cons]

theorem isAlign_foldl {sas : List (ℕ × ℕ)} (h : ∀ sa ∈ sas, Laid sa) {a : ℕ} (ha : IsAlign a) :
    IsAlign (sas.foldl (fun acc sa => max acc sa.2) a) := by
  induction sas generalizing a with
  | nil => exact ha
  | cons sa sas ih =>
    apply ih (fun sb hsb => h sb (List.mem_cons_of_mem _ hsb))
    exact ha.both (h sa List.mem_cons_self).isAlign

theorem le_foldl_max (sas : List (ℕ × ℕ)) (a : ℕ) :
    a ≤ sas.foldl (fun acc sa => max acc sa.2) a ∧
      ∀ sa ∈ sas, sa.2 ≤ sas.foldl (fun acc sa => max acc sa.2) a := by
  induction sas generalizing a with
  | nil => exact ⟨Nat.le_refl a, nofun⟩
  | cons sa sas ih =>
    obtain ⟨hle, hall⟩ := ih (max a sa.2)
    rw [List.foldl_cons]
    refine ⟨by omega, fun sb hsb => ?_⟩
    rcases List.mem_cons.mp hsb with rfl | hin
    · omega
    · exact hall sb hin

theorem laid_aggregate {sas : List (ℕ × ℕ)} (h : ∀ sa ∈ sas, Laid sa) : Laid (aggregate sas) := by
  unfold aggregate aggregateFold
  rw [aggregateFold_from]
  exact ⟨isAlign_foldl h (by decide), dvd_alignUp _ _⟩

/-- Every field's alignment divides the record's. -/
theorem dvd_aggregate {sas : List (ℕ × ℕ)} (h : ∀ sa ∈ sas, Laid sa) {sa : ℕ × ℕ} (hsa : sa ∈ sas) :
    sa.2 ∣ (aggregate sas).2 := by
  have hagg := laid_aggregate h
  apply (h sa hsa).isAlign.dvd hagg.isAlign
  unfold aggregate aggregateFold
  rw [aggregateFold_from]
  exact (le_foldl_max sas 1).2 sa hsa

theorem le_endOf {sas : List (ℕ × ℕ)} (h : ∀ sa ∈ sas, Laid sa) (off : ℕ) : off ≤ endOf sas off := by
  induction sas generalizing off with
  | nil => exact Nat.le_refl off
  | cons sa sas ih =>
    have hup := le_alignUp off (h sa List.mem_cons_self).isAlign.pos
    have hrest := ih (fun sb hsb => h sb (List.mem_cons_of_mem _ hsb)) (alignUp off sa.2 + sa.1)
    rw [endOf]
    omega

theorem endOf_le_aggregate {sas : List (ℕ × ℕ)} (h : ∀ sa ∈ sas, Laid sa) :
    endOf sas 0 ≤ (aggregate sas).1 := by
  have hpos := (laid_aggregate h).isAlign.pos
  have hup := le_alignUp (endOf sas 0) hpos
  unfold aggregate aggregateFold at hup ⊢
  rwa [aggregateFold_from] at hup ⊢

/-- The cells, each an offset and a size and alignment, stand one after another between `lo` and
`hi`, at multiples of their alignments. -/
def Spread (hi : ℕ) : ℕ → List (ℕ × (ℕ × ℕ)) → Prop
  | lo, [] => lo ≤ hi
  | lo, (off, sa) :: cells => lo ≤ off ∧ sa.2 ∣ off ∧ Spread hi (off + sa.1) cells

theorem spread_fields {sas : List (ℕ × ℕ)} (h : ∀ sa ∈ sas, Laid sa) {off hi : ℕ}
    (hend : endOf sas off ≤ hi) : Spread hi off ((fieldOffsets sas off).zip sas) := by
  induction sas generalizing off with
  | nil => exact hend
  | cons sa sas ih =>
    rw [fieldOffsets, List.zip_cons_cons, Spread]
    refine ⟨le_alignUp off (h sa List.mem_cons_self).isAlign.pos, dvd_alignUp off sa.2, ?_⟩
    exact ih (fun sb hsb => h sb (List.mem_cons_of_mem _ hsb)) hend

/-! ## Variants -/

theorem payload_foldl {cases : List (Option (ℕ × ℕ))} (h : ∀ sa, some sa ∈ cases → Laid sa)
    {acc : ℕ × ℕ} (hacc : IsAlign acc.2) :
    let pay := cases.foldl (fun acc c =>
      match c with
      | none => acc
      | some sa => (max acc.1 sa.1, max acc.2 sa.2)) acc
    IsAlign pay.2 ∧ acc.1 ≤ pay.1 ∧ acc.2 ≤ pay.2 ∧
      ∀ sa, some sa ∈ cases → sa.1 ≤ pay.1 ∧ sa.2 ≤ pay.2 := by
  induction cases generalizing acc with
  | nil => exact ⟨hacc, Nat.le_refl _, Nat.le_refl _, nofun⟩
  | cons c cases ih =>
    have hrest : ∀ sa, some sa ∈ cases → Laid sa := fun sa hsa => h sa (List.mem_cons_of_mem _ hsa)
    cases c with
    | none =>
      obtain ⟨h1, h2, h3, h4⟩ := ih hrest hacc
      refine ⟨h1, h2, h3, fun sa hsa => h4 sa ?_⟩
      simpa using hsa
    | some sb =>
      obtain ⟨h1, h2, h3, h4⟩ := @ih hrest (max acc.1 sb.1, max acc.2 sb.2)
        (hacc.both (h sb List.mem_cons_self).isAlign)
      dsimp only at h2 h3
      refine ⟨h1, le_trans (Nat.le_max_left _ _) h2, le_trans (Nat.le_max_left _ _) h3, ?_⟩
      intro sa hsa
      rcases List.mem_cons.mp hsa with heq | hin
      · cases heq
        exact ⟨le_trans (Nat.le_max_right _ _) h2, le_trans (Nat.le_max_right _ _) h3⟩
      · exact h4 sa hin

theorem payload_spec {cases : List (Option (ℕ × ℕ))} (h : ∀ sa, some sa ∈ cases → Laid sa) :
    IsAlign (payloadSizeAlign cases).2 ∧
      ∀ sa, some sa ∈ cases → sa.1 ≤ (payloadSizeAlign cases).1 ∧
        sa.2 ∣ (payloadSizeAlign cases).2 := by
  obtain ⟨h1, -, -, h4⟩ := @payload_foldl cases h (0, 1) (by decide)
  refine ⟨h1, fun sa hsa => ⟨(h4 sa hsa).1, ?_⟩⟩
  exact (h sa hsa).isAlign.dvd h1 (h4 sa hsa).2

theorem laid_variant {cases : List (Option (ℕ × ℕ))} (h : ∀ sa, some sa ∈ cases → Laid sa) :
    Laid (variantSizeAlign cases) :=
  ⟨(isAlign_discSize _).both (payload_spec h).1, dvd_alignUp _ _⟩

/-! ## Descriptors -/

theorem Desc.induct {P : Desc → Prop} (int : ∀ t, P (.int t)) (f32 : P .f32) (f64 : P .f64)
    (bool : P .bool) (char : P .char) (string : P .string) (list : ∀ d, P d → P (.list d))
    (record : ∀ fields, (∀ f ∈ fields, P f.2) → P (.record fields))
    (tuple : ∀ ds, (∀ d ∈ ds, P d) → P (.tuple ds)) (enum : ∀ names, P (.enum names))
    (sum : ∀ cases, (∀ c ∈ cases, ∀ d, c.2 = some d → P d) → P (.sum cases))
    (flags : ∀ names, P (.flags names)) (ref : ∀ r, P (.ref r)) (d : Desc) : P d := by
  refine @Desc.rec P (fun fields => ∀ f ∈ fields, P f.2) (fun ds => ∀ d ∈ ds, P d)
    (fun cases => ∀ c ∈ cases, ∀ d, c.2 = some d → P d) (fun f => P f.2)
    (fun c => ∀ d, c.2 = some d → P d) (fun o => ∀ d, o = some d → P d)
    int f32 f64 bool char string list record tuple enum sum flags ref
    nofun ?_ nofun ?_ nofun ?_ (fun _ _ h => h) (fun _ _ h => h) nofun ?_ d
  · exact fun f fields hf hfields => List.forall_mem_cons.mpr ⟨hf, hfields⟩
  · exact fun d ds hd hds => List.forall_mem_cons.mpr ⟨hd, hds⟩
  · exact fun c cases hc hcases => List.forall_mem_cons.mpr ⟨hc, hcases⟩
  · intro d hd e he
    cases he
    exact hd

/-- The sizes and alignments of fields, items and cases, one by one. -/
theorem sizeAlignFields_eq (fields : List (Bytes × Desc)) :
    sizeAlignFields fields = sizeAlignItems (fields.map Prod.snd) := by
  induction fields with
  | nil => rfl
  | cons f fields ih =>
    obtain ⟨n, d⟩ := f
    rw [sizeAlignFields, List.map_cons, sizeAlignItems, ih]

theorem sizeAlignItems_eq (ds : List Desc) : sizeAlignItems ds = ds.map sizeAlign := by
  induction ds with
  | nil => rfl
  | cons d ds ih => rw [sizeAlignItems, List.map_cons, ih]

theorem sizeAlignCases_eq (cases : List (Tag × Option Desc)) :
    sizeAlignCases cases = cases.map fun c => c.2.map sizeAlign := by
  induction cases with
  | nil => rfl
  | cons c cases ih =>
    obtain ⟨t, o⟩ := c
    cases o with
    | none => rw [sizeAlignCases, List.map_cons, ih, Option.map_none]
    | some d => rw [sizeAlignCases, List.map_cons, ih, Option.map_some]

theorem laid_items {ds : List Desc} (h : ∀ d ∈ ds, Laid (sizeAlign d)) :
    ∀ sa ∈ sizeAlignItems ds, Laid sa := by
  rw [sizeAlignItems_eq]
  intro sa hsa
  obtain ⟨d, hd, rfl⟩ := List.mem_map.mp hsa
  exact h d hd

theorem laid_cases {cases : List (Tag × Option Desc)}
    (h : ∀ c ∈ cases, ∀ d, c.2 = some d → Laid (sizeAlign d)) :
    ∀ sa, some sa ∈ sizeAlignCases cases → Laid sa := by
  rw [sizeAlignCases_eq]
  intro sa hsa
  obtain ⟨c, hc, heq⟩ := List.mem_map.mp hsa
  obtain ⟨d, hd, rfl⟩ := Option.map_eq_some_iff.mp heq
  exact h c hc d hd

theorem laid_flags (n : ℕ) : Laid (flagsSizeAlign n) := by
  refine ⟨isAlign_flags n, ?_⟩
  unfold flagsSizeAlign
  split
  · decide
  · split
    · decide
    · split
      · decide
      · exact Nat.dvd_mul_right 4 _

theorem laid_sizeAlign (d : Desc) : Laid (sizeAlign d) := by
  have hself {a : ℕ} (ha : IsAlign a) : Laid (a, a) := ⟨ha, Nat.dvd_refl a⟩
  have hpair : Laid (8, 4) := ⟨by decide, by decide⟩
  induction d using Desc.induct with
  | int t =>
    apply hself
    cases t <;> decide
  | f32 | f64 | bool | char => exact hself (by decide)
  | string => exact hpair
  | list d ih => exact hpair
  | record fields ih =>
    rw [sizeAlign, sizeAlignFields_eq]
    apply laid_aggregate
    apply laid_items
    intro d hd
    obtain ⟨f, hf, rfl⟩ := List.mem_map.mp hd
    exact ih f hf
  | tuple ds ih =>
    rw [sizeAlign]
    exact laid_aggregate (laid_items ih)
  | enum names => exact hself (isAlign_discSize _)
  | sum cases ih =>
    rw [sizeAlign]
    exact laid_variant (laid_cases ih)
  | flags names => exact laid_flags _
  | ref r => exact hself (by decide)

theorem align_pos (d : Desc) : 0 < align d := (laid_sizeAlign d).isAlign.pos

/-- A payload stands after its discriminant, at a multiple of its alignment, inside the variant. -/
theorem payload_inside {cases : List (Tag × Option Desc)} {c : Tag × Option Desc} {d : Desc}
    (hc : c ∈ cases) (hd : c.2 = some d) :
    discSize cases.length ≤ payloadOffset cases ∧ align d ∣ payloadOffset cases ∧
      payloadOffset cases + size d ≤ size (.sum cases) ∧ align d ∣ align (.sum cases) := by
  have hlaid := @laid_cases cases fun c _ d _ => laid_sizeAlign d
  obtain ⟨hpay, hall⟩ := payload_spec hlaid
  have hmem : some (sizeAlign d) ∈ sizeAlignCases cases := by
    rw [sizeAlignCases_eq]
    exact List.mem_map.mpr ⟨c, hc, by rw [hd]; rfl⟩
  have hlen : (sizeAlignCases cases).length = cases.length := by
    rw [sizeAlignCases_eq, List.length_map]
  obtain ⟨hsize, hdvd⟩ := hall _ hmem
  have hdisc := isAlign_discSize cases.length
  have hle := le_alignUp (payloadOffset cases + (payloadSizeAlign (sizeAlignCases cases)).1)
    (hdisc.both hpay).pos
  refine ⟨le_alignUp _ hpay.pos, Nat.dvd_trans hdvd (dvd_alignUp _ _), ?_, ?_⟩
  · show payloadOffset cases + (sizeAlign d).1 ≤ (variantSizeAlign (sizeAlignCases cases)).1
    rw [variantSizeAlign, hlen]
    unfold payloadOffset at hle ⊢
    omega
  · show (sizeAlign d).2 ∣ (variantSizeAlign (sizeAlignCases cases)).2
    rw [variantSizeAlign, hlen]
    exact Nat.dvd_trans hdvd (hdisc.dvd_max_right hpay)

theorem disc_inside (cases : List (Tag × Option Desc)) :
    discSize cases.length ≤ size (.sum cases) := by
  have hlaid := @laid_cases cases fun c _ d _ => laid_sizeAlign d
  have hpay := (payload_spec hlaid).1
  have hlen : (sizeAlignCases cases).length = cases.length := by
    rw [sizeAlignCases_eq, List.length_map]
  have hdisc := isAlign_discSize cases.length
  have h1 := le_alignUp (discSize cases.length) hpay.pos
  have h2 := le_alignUp (alignUp (discSize cases.length)
    (payloadSizeAlign (sizeAlignCases cases)).2 + (payloadSizeAlign (sizeAlignCases cases)).1)
    (hdisc.both hpay).pos
  show _ ≤ (variantSizeAlign (sizeAlignCases cases)).1
  rw [variantSizeAlign, hlen]
  omega

/-! ## Placement -/

/-- The parts of one descriptor stand at multiples of their alignments, apart from one another. -/
def PartsApart (d : Desc) : Prop :=
  align d ∣ size d ∧
  match d with
  | .record fields =>
      Spread (size d) 0 ((fieldOffsets (sizeAlignFields fields) 0).zip (sizeAlignFields fields)) ∧
        ∀ f ∈ fields, align f.2 ∣ align d
  | .tuple ds =>
      Spread (size d) 0 ((fieldOffsets (sizeAlignItems ds) 0).zip (sizeAlignItems ds)) ∧
        ∀ e ∈ ds, align e ∣ align d
  | .sum cases =>
      discSize cases.length ≤ size d ∧ ∀ c ∈ cases, ∀ e, c.2 = some e →
        discSize cases.length ≤ payloadOffset cases ∧ align e ∣ payloadOffset cases ∧
          payloadOffset cases + size e ≤ size d ∧ align e ∣ align d
  | .list e =>
      -- element `i` at `i * size e` of a block with the alignment of `e`
      ∀ i j, align e ∣ i * size e ∧ (i < j → i * size e + size e ≤ j * size e)
  | _ => True

theorem spread_aggregate (ds : List Desc) :
    Spread (aggregate (sizeAlignItems ds)).1 0
        ((fieldOffsets (sizeAlignItems ds) 0).zip (sizeAlignItems ds)) ∧
      ∀ e ∈ ds, align e ∣ (aggregate (sizeAlignItems ds)).2 := by
  have hlaid := laid_items fun d (_ : d ∈ ds) => laid_sizeAlign d
  refine ⟨spread_fields hlaid (endOf_le_aggregate hlaid), fun e he => ?_⟩
  apply dvd_aggregate hlaid
  rw [sizeAlignItems_eq]
  exact List.mem_map_of_mem he

theorem partsApart (d : Desc) : PartsApart d := by
  refine ⟨(laid_sizeAlign d).dvd, ?_⟩
  cases d with
  | record fields =>
    obtain ⟨hspread, hdvd⟩ := spread_aggregate (fields.map Prod.snd)
    rw [← sizeAlignFields_eq] at hspread hdvd
    exact ⟨hspread, fun f hf => hdvd f.2 (List.mem_map_of_mem hf)⟩
  | tuple ds => exact spread_aggregate ds
  | sum cases => exact ⟨disc_inside cases, fun c hc e he => payload_inside hc he⟩
  | list e =>
    intro i j
    refine ⟨Nat.dvd_mul_left_of_dvd (laid_sizeAlign e).dvd i, fun hij => ?_⟩
    have hle := Nat.mul_le_mul_right (size e) hij
    rw [Nat.succ_mul] at hle
    exact hle
  | _ => trivial

end ErlangWasm.Canon
