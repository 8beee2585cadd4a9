import ErlangWasm.Const.Eval

/-!
# What a constant expression denotes

A validated expression has operands of the right class at every step.  The operands themselves are
known without a store: each is a number, a reference that was there before or an object the
expression makes, and the conversions it has gone through since.
-/

namespace ErlangWasm.Const

open Decode

/-! ## Classes -/

/-- A value type, where reference types are not told apart. -/
inductive Class
  | i32
  | i64
  | f32
  | f64
  | v128
  | ref
  deriving DecidableEq

def classOf (t : ValType) : Class :=
  match t with
  | .i32 => .i32
  | .i64 => .i64
  | .f32 => .f32
  | .f64 => .f64
  | .v128 => .v128
  | .ref _ => .ref

/-- The class of the operand for a field; a packed field takes an `i32`. -/
def fieldClass (f : FieldType) : Class :=
  match f.type with
  | .i8 | .i16 => .i32
  | .val t => classOf t

def Value.HasClass (v : Value) (c : Class) : Prop :=
  match c with
  | .i32 => ∃ n, v = .int n ∧ -2 ^ 31 ≤ n ∧ n < 2 ^ 31
  | .i64 => ∃ n, v = .int n ∧ -2 ^ 63 ≤ n ∧ n < 2 ^ 63
  | .f32 | .f64 => ∃ f, v = .float f
  | .v128 => ∃ bs, v = .bytes bs
  | .ref => ∃ t, v = .ref t

/-- The operands an instruction takes are on top, the last of them first. -/
def takes (ops : List Class) (result : Class) (s : List Class) : Option (List Class) :=
  if s.take ops.length = ops then some (result :: s.drop ops.length) else none

/-- The classes on the stack after an instruction that validation accepts. -/
def typeStep (types : List SubType) (globals : List Class) (i : ConstInstr) (s : List Class) :
    Option (List Class) :=
  match i with
  | .i32Const v => if -2 ^ 31 ≤ v ∧ v < 2 ^ 31 then some (.i32 :: s) else none
  | .i64Const v => if -2 ^ 63 ≤ v ∧ v < 2 ^ 63 then some (.i64 :: s) else none
  | .f32Const _ => some (.f32 :: s)
  | .f64Const _ => some (.f64 :: s)
  | .v128Const _ => some (.v128 :: s)
  | .structNew t => do
      let fs ← structFieldsOf types t
      takes (fs.map fieldClass).reverse .ref s
  | .structNewDefault t => do
      let _ ← structFieldsOf types t
      some (.ref :: s)
  | .arrayNew t => do
      let f ← arrayFieldOf types t
      takes [.i32, fieldClass f] .ref s
  | .arrayNewDefault t => do
      let _ ← arrayFieldOf types t
      takes [.i32] .ref s
  | .arrayNewFixed t n => do
      let f ← arrayFieldOf types t
      takes (List.replicate n (fieldClass f)) .ref s
  | .refI31 => takes [.i32] .ref s
  | .anyConvertExtern | .externConvertAny => takes [.ref] .ref s
  | .refNull _ | .refFunc _ => some (.ref :: s)
  | .globalGet i => do
      let c ← globals[i]?
      some (c :: s)
  | .i32Add | .i32Sub | .i32Mul => takes [.i32, .i32] .i32 s
  | .i64Add | .i64Sub | .i64Mul => takes [.i64, .i64] .i64 s

def typeRun (types : List SubType) (globals : List Class) : List ConstInstr → List Class →
    Option (List Class)
  | [], s => some s
  | i :: is, s => do
      let s ← typeStep types globals i s
      typeRun types globals is s

/-! ## Operands -/

inductive Conv
  | anyConvertExtern
  | externConvertAny

def Conv.apply : Conv → Cast.Term → Cast.Term
  | .anyConvertExtern => Cast.anyConvertExtern
  | .externConvertAny => Cast.externConvertAny

/-- An operand: what it was made as, none for an object the expression makes, and the conversions of
it, the first first. -/
structure Operand where
  base : Option Value
  convs : List Conv

/-- The conversions of an operand, of a value it may be. -/
def Operand.convert (x : Operand) (v : Value) : Value :=
  match v with
  | .ref t => .ref (x.convs.foldl (fun t c => c.apply t) t)
  | v => v

/-- A value for the base of an operand: any object stands for the ones the expression makes. -/
def Operand.rep (x : Operand) : Value := x.base.getD (.ref (.objref 0))

/-- The conversions of an operand end where they began. -/
def Operand.Settled (x : Operand) : Prop := x.convert x.rep = x.rep

/-- An operand goes into a field as it is: its conversions end where they began, and a number is
within the width of a packed field. -/
def Operand.Fits (x : Operand) (f : FieldType) : Prop := narrow f (x.convert x.rep) = some x.rep

/-- A length an array may have. -/
def Operand.IsLength (x : Operand) : Prop :=
  match x.rep with
  | .int n => (allocLen n).isSome
  | _ => False

def fresh : Operand := ⟨none, []⟩

def known (v : Value) : Operand := ⟨some v, []⟩

/-- A number computed from the two on top. -/
def computed (f : ℤ → ℤ → ℤ) (s : List Operand) : List Operand :=
  match s with
  | ⟨some (.int b), _⟩ :: ⟨some (.int a), _⟩ :: rest => known (.int (f a b)) :: rest
  | _ => s

/-- The operands on the stack after an instruction. -/
def operandStep (inst : Inst) (globals : List Value) (i : ConstInstr) (s : List Operand) :
    List Operand :=
  match i with
  | .i32Const v | .i64Const v => known (.int v) :: s
  | .f32Const f | .f64Const f => known (.float f) :: s
  | .v128Const bs => known (.bytes bs) :: s
  | .structNew t => fresh :: s.drop ((structFieldsOf inst.types t).getD []).length
  | .structNewDefault _ => fresh :: s
  | .arrayNew _ => fresh :: s.drop 2
  | .arrayNewDefault _ => fresh :: s.drop 1
  | .arrayNewFixed _ n => fresh :: s.drop n
  | .refI31 =>
      match s with
      | ⟨some (.int v), _⟩ :: rest => known (i31Of v) :: rest
      | _ => s
  | .anyConvertExtern =>
      match s with
      | x :: rest => { x with convs := x.convs ++ [.anyConvertExtern] } :: rest
      | [] => []
  | .externConvertAny =>
      match s with
      | x :: rest => { x with convs := x.convs ++ [.externConvertAny] } :: rest
      | [] => []
  | .refNull _ => known (.ref .null) :: s
  | .refFunc f => known (.ref (.funcref inst.id f)) :: s
  | .globalGet i => known (globals[i]?.getD (.ref .null)) :: s
  | .i32Add => computed (fun a b => wrapS32 (a + b)) s
  | .i32Sub => computed (fun a b => wrapS32 (a - b)) s
  | .i32Mul => computed (fun a b => wrapS32 (a * b)) s
  | .i64Add => computed (fun a b => wrapS64 (a + b)) s
  | .i64Sub => computed (fun a b => wrapS64 (a - b)) s
  | .i64Mul => computed (fun a b => wrapS64 (a * b)) s

/-- An allocation is given what fits: each operand its field, and a length an array may have. -/
def StepFits (types : List SubType) (i : ConstInstr) (s : List Operand) : Prop :=
  match i with
  | .structNew t => ∀ fs, structFieldsOf types t = some fs →
      ∀ fx ∈ fs.zip (s.take fs.length).reverse, fx.2.Fits fx.1
  | .arrayNew t => ∀ f, arrayFieldOf types t = some f →
      (∀ x ∈ s[0]?, x.IsLength) ∧ ∀ x ∈ s[1]?, x.Fits f
  | .arrayNewDefault _ => ∀ x ∈ s[0]?, x.IsLength
  | .arrayNewFixed t n => ∀ f, arrayFieldOf types t = some f → ∀ x ∈ s.take n, x.Fits f
  | _ => True

/-- Every allocation along the expression is given what fits. -/
def StepsFit (inst : Inst) (globals : List Value) : List ConstInstr → List Operand → Prop
  | [], _ => True
  | i :: is, s => StepFits inst.types i s ∧ StepsFit inst globals is (operandStep inst globals i s)

/-- The operands on the stack after the expression. -/
def operandRun (inst : Inst) (globals : List Value) : List ConstInstr → List Operand →
    List Operand
  | [], s => s
  | i :: is, s => operandRun inst globals is (operandStep inst globals i s)

/-! ## Validated expressions -/

/-- A validated constant expression and the instance it is evaluated in.  An active segment's offset
is a number. -/
structure ConstExpr where
  inst : Inst
  globals : List Slot
  classes : List Class
  globalsTyped : List.Forall₂ Value.HasClass (deref globals) classes
  code : List ConstInstr
  result : Class
  typed : typeRun inst.types classes code [] = some [result]
  offset : Bool
  offsetNumber : offset = true → result = .i32 ∨ result = .i64

namespace ConstExpr

/-- What the expression answers. -/
def answer (e : ConstExpr) : Option Operand :=
  (operandRun e.inst (deref e.globals) e.code []).head?

/-- Every allocation is given what fits, and the answer's conversions end where they began. -/
def Fits (e : ConstExpr) : Prop :=
  StepsFit e.inst (deref e.globals) e.code [] ∧ ∀ x ∈ e.answer, x.Settled

/-- The offset of a segment with `i32` addresses is not negative. -/
def OffsetFits (e : ConstExpr) : Prop :=
  e.offset = true → e.result = .i32 → ∀ x ∈ e.answer, ∀ n, x.rep = .int n → 0 ≤ n

end ConstExpr

/-- The unsigned number of a class. -/
def unsigned (c : Class) (n : ℤ) : ℕ :=
  match c with
  | .i32 => (n % 2 ^ 32).toNat
  | _ => (n % 2 ^ 64).toNat

/-- A constant expression means what its instructions mean at run time: the evaluator gives the
answer and the store of the interpreter, and an offset is the address of its index type. -/
structure SameMeaning (e : ConstExpr) (h : Store) : Prop where
  same : evalConst (some e.inst) (deref e.globals) e.code h = runBody e.inst e.globals e.code h
  address : e.offset = true → ∃ n h', runBody e.inst e.globals e.code h = some (.int n, h') ∧
    evalConstAddr (deref e.globals) e.code h = some (unsigned e.result n)

end ErlangWasm.Const

/-!
## Operands and the values they are

An entry is an operand with the value the evaluator has for it.  The interpreter has the value with
the operand's conversions applied.
-/

namespace ErlangWasm.Const

open Decode

/-! ## Conversions of objects -/

/-- Another object in the place of one, under any wrapping. -/
def rename (a b : ℕ) : Cast.Term → Cast.Term
  | .objref x => .objref (if x = a then b else x)
  | .external t => .external (rename a b t)
  | .internal t => .internal (rename a b t)
  | t => t

theorem apply_rename (c : Conv) (a b : ℕ) (t : Cast.Term) :
    c.apply (rename a b t) = rename a b (c.apply t) := by
  cases c <;> cases t <;> rfl

theorem convs_rename (cs : List Conv) (a b : ℕ) (t : Cast.Term) :
    cs.foldl (fun t c => c.apply t) (rename a b t) =
      rename a b (cs.foldl (fun t c => c.apply t) t) := by
  induction cs generalizing t with
  | nil => rfl
  | cons c cs ih => rw [List.foldl_cons, apply_rename, ih, List.foldl_cons]

/-- Whether conversions end where they began is the same for every object. -/
theorem convs_objref {cs : List Conv} {a : ℕ}
    (h : cs.foldl (fun t c => c.apply t) (.objref a) = .objref a) (b : ℕ) :
    cs.foldl (fun t c => c.apply t) (.objref b) = .objref b := by
  have hrename : rename a b (.objref a) = .objref b := by simp [rename]
  rw [← hrename, convs_rename, h]

/-! ## Entries -/

/-- A value an operand was made as. -/
def Operand.IsBase (x : Operand) (v : Value) : Prop :=
  match x.base with
  | some b => v = b
  | none => ∃ id, v = .ref (.objref id)

structure Entry where
  cls : Class
  sym : Operand
  val : Value
  typed : val.HasClass cls
  base : sym.IsBase val

namespace Entry

/-- The interpreter's value. -/
def run (e : Entry) : Value := e.sym.convert e.val

def known (v : Value) (c : Class) (h : v.HasClass c) : Entry := ⟨c, Const.known v, v, h, rfl⟩

def fresh (id : ℕ) : Entry := ⟨.ref, Const.fresh, .ref (.objref id), ⟨_, rfl⟩, id, rfl⟩

theorem convert_nil (b : Option Value) (v : Value) : Operand.convert ⟨b, []⟩ v = v := by
  cases v <;> rfl

@[simp] theorem run_known (v : Value) (c : Class) (h : v.HasClass c) : (known v c h).run = v :=
  convert_nil _ v

/-- An operand goes into a field as it is when the interpreter stores the evaluator's value. -/
theorem fits_iff (e : Entry) (f : FieldType) : e.sym.Fits f ↔ narrow f e.run = some e.val := by
  obtain ⟨cls, ⟨base, convs⟩, val, typed, hbase⟩ := e
  rw [Operand.Fits, Operand.rep, run]
  cases base with
  | some b =>
    cases hbase
    rfl
  | none =>
    obtain ⟨id, rfl⟩ := hbase
    have hiff : ∀ a : ℕ, narrow f (Operand.convert ⟨none, convs⟩ (.ref (.objref a))) =
        some (.ref (.objref a)) ↔ (∃ t, f.type = .val t) ∧
          convs.foldl (fun t c => c.apply t) (.objref a) = .objref a := by
      intro a
      simp only [Operand.convert, narrow]
      cases f.type <;> simp
    rw [Option.getD_none, hiff, hiff]
    exact and_congr_right fun _ => ⟨fun h => convs_objref h id, fun h => convs_objref h 0⟩

theorem settled_iff (e : Entry) : e.sym.Settled ↔ e.run = e.val := by
  obtain ⟨cls, ⟨base, convs⟩, val, typed, hbase⟩ := e
  rw [Operand.Settled, Operand.rep, run]
  cases base with
  | some b =>
    cases hbase
    rfl
  | none =>
    obtain ⟨id, rfl⟩ := hbase
    simp only [Option.getD_none, Operand.convert, Value.ref.injEq]
    exact ⟨fun h => convs_objref h id, fun h => convs_objref h 0⟩

/-- An entry that holds a number: no conversion changes it. -/
theorem number (e : Entry) {n : ℤ} (h : e.val = .int n) :
    e.run = .int n ∧ e.sym.base = some (.int n) := by
  obtain ⟨cls, ⟨base, convs⟩, val, typed, hbase⟩ := e
  cases h
  cases base with
  | some b =>
    cases hbase
    exact ⟨rfl, rfl⟩
  | none =>
    obtain ⟨id, hid⟩ := hbase
    cases hid

theorem number_of_i32 (e : Entry) (h : e.cls = .i32) : ∃ n, e.val = .int n := by
  have htyped := e.typed
  rw [h] at htyped
  obtain ⟨n, hn, -⟩ := htyped
  exact ⟨n, hn⟩

theorem number_of_i64 (e : Entry) (h : e.cls = .i64) : ∃ n, e.val = .int n := by
  have htyped := e.typed
  rw [h] at htyped
  obtain ⟨n, hn, -⟩ := htyped
  exact ⟨n, hn⟩

theorem ref_of_ref (e : Entry) (h : e.cls = .ref) : ∃ t, e.val = .ref t := by
  have htyped := e.typed
  rw [h] at htyped
  exact htyped

theorem isLength_iff (e : Entry) {n : ℤ} (h : e.val = .int n) :
    e.sym.IsLength ↔ toU32 n ≤ 0xFFFFFFF := by
  rw [Operand.IsLength, Operand.rep, (e.number h).2]
  simp only [Option.getD_some, allocLen]
  split <;> simp [*]

end Entry

/-- Instructions that take operands find them on top. -/
theorem takes_entries {ops : List Class} {r : Class} {es : List Entry} {ts : List Class}
    (h : takes ops r (es.map Entry.cls) = some ts) :
    ∃ top rest, es = top ++ rest ∧ top.map Entry.cls = ops ∧ ts = r :: rest.map Entry.cls := by
  rw [takes] at h
  split at h
  · cases h
    refine ⟨es.take ops.length, es.drop ops.length, (List.take_append_drop _ _).symm, ?_, ?_⟩
    · rwa [List.map_take]
    · rw [List.map_drop]
  · cases h

theorem takes_one {c r : Class} {es : List Entry} {ts : List Class}
    (h : takes [c] r (es.map Entry.cls) = some ts) :
    ∃ e rest, es = e :: rest ∧ e.cls = c ∧ ts = r :: rest.map Entry.cls := by
  obtain ⟨top, rest, rfl, htop, rfl⟩ := takes_entries h
  obtain ⟨e, top, rfl, he, htop⟩ := List.map_eq_cons_iff.mp htop
  cases List.map_eq_nil_iff.mp htop
  exact ⟨e, rest, rfl, he, rfl⟩

theorem takes_two {c d r : Class} {es : List Entry} {ts : List Class}
    (h : takes [c, d] r (es.map Entry.cls) = some ts) :
    ∃ e e' rest, es = e :: e' :: rest ∧ e.cls = c ∧ e'.cls = d ∧
      ts = r :: rest.map Entry.cls := by
  obtain ⟨top, rest, rfl, htop, rfl⟩ := takes_entries h
  obtain ⟨e, top, rfl, he, htop⟩ := List.map_eq_cons_iff.mp htop
  obtain ⟨e', top, rfl, he', htop⟩ := List.map_eq_cons_iff.mp htop
  cases List.map_eq_nil_iff.mp htop
  exact ⟨e, e', rest, rfl, he, he', rfl⟩

theorem split_append {top rest : List Value} {n : ℕ} (h : top.length = n) :
    split n (top ++ rest) = some (top, rest) := by
  rw [split, if_pos (by simp [h]), ← h, List.take_left, List.drop_left]

/-! ## Narrowing -/

/-- The fields are stored as the evaluator stores them when each operand fits its field. -/
theorem narrowAll_eq_iff {fs : List FieldType} {es : List Entry} (h : fs.length = es.length) :
    narrowAll fs (es.map Entry.run) = some (es.map Entry.val) ↔
      ∀ fx ∈ fs.zip (es.map Entry.sym), fx.2.Fits fx.1 := by
  induction fs generalizing es with
  | nil =>
    cases es with
    | nil => simp [narrowAll]
    | cons e es => cases h
  | cons f fs ih =>
    cases es with
    | nil => cases h
    | cons e es =>
      have hrest := @ih es (by simpa using h)
      simp only [narrowAll, List.map_cons, List.zip_cons_cons, List.mapM_cons, List.forall_mem_cons,
        e.fits_iff f] at hrest ⊢
      rw [← hrest]
      cases narrow f e.run <;>
        cases (fs.zip (es.map Entry.run)).mapM (fun fv => narrow fv.1 fv.2) <;> simp

theorem narrowEach_eq_iff {f : FieldType} {es : List Entry} :
    (es.map Entry.run).mapM (narrow f) = some (es.map Entry.val) ↔
      ∀ x ∈ es.map Entry.sym, x.Fits f := by
  induction es with
  | nil => simp
  | cons e es ih =>
    simp only [List.map_cons, List.mapM_cons, List.forall_mem_cons, e.fits_iff f]
    rw [← ih]
    cases narrow f e.run <;> cases (es.map Entry.run).mapM (narrow f) <;> simp

end ErlangWasm.Const
