import ErlangWasm.Cast.Membership

/-!
# The object store

What an allocation does in `wasm_heap`.  An object is a row under a fresh number; the elements of an
array that were written are rows of their own.  Every write is counted in words before it is made,
and what the count is charged to is granted here.
-/

namespace ErlangWasm.Const

open Decode

/-- A value of the operand stack. -/
inductive Value
  | int (n : ℤ)
  | float (f : Num.RuntimeFloat)
  | bytes (bs : List UInt8)
  | ref (t : Cast.Term)

inductive Row
  | struct (type : ℕ) (fields : List Value)
  /-- The default is none where `undefined` stands for it. -/
  | array (traced : Bool) (type len : ℕ) (default_ : Option Value)

structure Store where
  nextId : ℕ
  rows : ℕ → Option Row
  elems : ℕ → ℕ → Option Value
  /-- The number the last collection ended at, and the older objects written since. -/
  watermark : ℕ
  remembered : ℕ → Bool
  written : ℕ

/-- `new_struct/3`. -/
def newStruct (h : Store) (type : ℕ) (fields : List Value) : Value × Store :=
  (.ref (.objref h.nextId),
    { h with
      nextId := h.nextId + 1
      rows := Function.update h.rows h.nextId (some (.struct type fields))
      written := h.written + (3 + fields.length) })

/-- `new_array/5`. -/
def newArray (h : Store) (type len : ℕ) (default_ : Option Value) (traced : Bool) : Value × Store :=
  (.ref (.objref h.nextId),
    { h with
      nextId := h.nextId + 1
      rows := Function.update h.rows h.nextId (some (.array traced type len default_))
      written := h.written + 5 })

/-- `?ELEM_WORDS`. -/
def elemWords : ℕ := 12

/-- `remember/4` of a reference. -/
def rememberRef (h : Store) (id : ℕ) : Cast.Term → Store
  | .objref _ =>
      if id < h.watermark then { h with remembered := Function.update h.remembered id true } else h
  | .external t => rememberRef h id t
  | .internal t => rememberRef h id t
  | _ => h

/-- `remember/4`. -/
def remember (h : Store) (id : ℕ) (v : Value) : Store :=
  match v with
  | .ref t => rememberRef h id t
  | _ => h

/-- `array_set_unchecked/4`. -/
def arraySetUnchecked (h : Store) (id idx : ℕ) (v : Value) : Store :=
  remember
    { h with
      written := h.written + elemWords
      elems := Function.update h.elems id (Function.update (h.elems id) idx (some v)) } id v

/-- `array_set/4`; an index past the end traps. -/
def arraySet (h : Store) (id idx : ℕ) (v : Value) : Option Store :=
  match h.rows id with
  | some (.array _ _ len _) => if idx < len then some (arraySetUnchecked h id idx v) else none
  | _ => none

/-- Checked writes of elements from `idx` on. -/
def setElements (h : Store) (id idx : ℕ) : List Value → Option Store
  | [] => some h
  | v :: vs => do
      let h ← arraySet h id idx v
      setElements h id (idx + 1) vs

/-- `write_elements/4`. -/
def writeElements (h : Store) (id idx : ℕ) : List Value → Store
  | [] => h
  | v :: vs => writeElements (arraySetUnchecked h id idx v) id (idx + 1) vs

/-! ## What an allocation leaves alone -/

/-- Nothing below `n` differs between two stores. -/
structure SameBelow (n : ℕ) (h h' : Store) : Prop where
  next : h.nextId ≤ h'.nextId
  rows : ∀ id < n, h'.rows id = h.rows id
  elems : ∀ id < n, h'.elems id = h.elems id

theorem SameBelow.refl (n : ℕ) (h : Store) : SameBelow n h h :=
  ⟨Nat.le_refl _, fun _ _ => rfl, fun _ _ => rfl⟩

theorem SameBelow.trans {n : ℕ} {h₁ h₂ h₃ : Store} (h : SameBelow n h₁ h₂)
    (h' : SameBelow n h₂ h₃) : SameBelow n h₁ h₃ :=
  ⟨Nat.le_trans h.next h'.next, fun id hid => (h'.rows id hid).trans (h.rows id hid),
    fun id hid => (h'.elems id hid).trans (h.elems id hid)⟩

theorem sameBelow_newStruct (h : Store) (type : ℕ) (fields : List Value) :
    SameBelow h.nextId h (newStruct h type fields).2 := by
  refine ⟨Nat.le_succ _, ?_, fun _ _ => rfl⟩
  intro id hid
  exact Function.update_of_ne (Nat.ne_of_lt hid) _ _

theorem sameBelow_newArray (h : Store) (type len : ℕ) (d : Option Value) (traced : Bool) :
    SameBelow h.nextId h (newArray h type len d traced).2 := by
  refine ⟨Nat.le_succ _, ?_, fun _ _ => rfl⟩
  intro id hid
  exact Function.update_of_ne (Nat.ne_of_lt hid) _ _

/-- The write barrier touches neither rows nor elements. -/
theorem rememberRef_fields (h : Store) (id : ℕ) (t : Cast.Term) :
    (rememberRef h id t).nextId = h.nextId ∧ (rememberRef h id t).rows = h.rows ∧
      (rememberRef h id t).elems = h.elems := by
  fun_induction rememberRef h id t with
  | case1 n hid | case2 n hid => exact ⟨rfl, rfl, rfl⟩
  | case3 t ih => exact ih
  | case4 t ih => exact ih
  | case5 t _ _ _ => exact ⟨rfl, rfl, rfl⟩

theorem remember_fields (h : Store) (id : ℕ) (v : Value) :
    (remember h id v).nextId = h.nextId ∧ (remember h id v).rows = h.rows ∧
      (remember h id v).elems = h.elems := by
  cases v with
  | ref t => exact rememberRef_fields h id t
  | _ => exact ⟨rfl, rfl, rfl⟩

theorem arraySetUnchecked_fields (h : Store) (id idx : ℕ) (v : Value) :
    (arraySetUnchecked h id idx v).nextId = h.nextId ∧
      (arraySetUnchecked h id idx v).rows = h.rows ∧
      (arraySetUnchecked h id idx v).elems =
        Function.update h.elems id (Function.update (h.elems id) idx (some v)) :=
  remember_fields _ id v

theorem sameBelow_writeElements {n : ℕ} (h : Store) {id : ℕ} (hid : n ≤ id) (idx : ℕ)
    (vs : List Value) : SameBelow n h (writeElements h id idx vs) := by
  induction vs generalizing h idx with
  | nil => exact SameBelow.refl n h
  | cons v vs ih =>
    obtain ⟨hnext, hrows, helems⟩ := arraySetUnchecked_fields h id idx v
    refine SameBelow.trans ⟨by rw [hnext], fun _ _ => by rw [hrows], ?_⟩ (ih _ _)
    intro x hx
    rw [helems, Function.update_of_ne (by omega)]

/-- On an array long enough the checked writes are the unchecked ones. -/
theorem setElements_eq {h : Store} {id idx : ℕ} {traced : Bool} {type len : ℕ}
    {d : Option Value} (hrow : h.rows id = some (.array traced type len d)) {vs : List Value}
    (hlen : idx + vs.length ≤ len) :
    setElements h id idx vs = some (writeElements h id idx vs) := by
  induction vs generalizing h idx with
  | nil => rfl
  | cons v vs ih =>
    rw [List.length_cons] at hlen
    rw [setElements, arraySet, hrow]
    simp only [show idx < len by omega, if_true, Option.bind_eq_bind, Option.bind_some]
    have hrow' : (arraySetUnchecked h id idx v).rows id = some (.array traced type len d) := by
      rw [(arraySetUnchecked_fields h id idx v).2.1, hrow]
    exact ih hrow' (by omega)

theorem nextId_writeElements (h : Store) (id idx : ℕ) (vs : List Value) :
    (writeElements h id idx vs).nextId = h.nextId := by
  induction vs generalizing h idx with
  | nil => rfl
  | cons v vs ih => rw [writeElements, ih, (arraySetUnchecked_fields h id idx v).1]

theorem elems_writeElements (h : Store) (id idx : ℕ) (vs : List Value) (i : ℕ) :
    (writeElements h id idx vs).elems id i =
      if idx ≤ i ∧ i < idx + vs.length then vs[i - idx]? else h.elems id i := by
  induction vs generalizing h idx with
  | nil =>
    rw [if_neg (by simp)]
    rfl
  | cons v vs ih =>
    rw [writeElements, ih, (arraySetUnchecked_fields h id idx v).2.2, Function.update_self,
      List.length_cons]
    by_cases hi : i = idx
    · rw [if_neg (by omega), if_pos (by omega), hi, Function.update_self, Nat.sub_self]
      rfl
    · rw [Function.update_of_ne hi]
      by_cases hin : idx + 1 ≤ i ∧ i < idx + 1 + vs.length
      · rw [if_pos hin, if_pos (by omega), show i - idx = (i - (idx + 1)) + 1 by omega,
          List.getElem?_cons_succ]
      · rw [if_neg hin, if_neg (by omega)]

end ErlangWasm.Const

/-!
## Constant expressions, evaluated twice

`eval_const/3` of `wasm_instance`, which instantiation uses, and the interpreter's clauses for the
same instructions.  An answer of none is a trap or an error.
-/

namespace ErlangWasm.Const

open Decode

inductive ConstInstr
  | i32Const (v : ℤ)
  | i64Const (v : ℤ)
  | f32Const (f : Num.RuntimeFloat)
  | f64Const (f : Num.RuntimeFloat)
  | v128Const (bs : List UInt8)
  | structNew (t : ℕ)
  | structNewDefault (t : ℕ)
  | arrayNew (t : ℕ)
  | arrayNewDefault (t : ℕ)
  | arrayNewFixed (t n : ℕ)
  | refI31
  | anyConvertExtern
  | externConvertAny
  | refNull (h : HeapType)
  | refFunc (f : ℕ)
  | globalGet (i : ℕ)
  | i32Add
  | i32Sub
  | i32Mul
  | i64Add
  | i64Sub
  | i64Mul

/-- The part of an `#inst{}` that both evaluators read. -/
structure Inst where
  id : ℕ
  types : List SubType

/-- A slot of the globals: a value, or the cell of one that another module can observe. -/
inductive Slot
  | value (v : Value)
  | cell (v : Value)

/-- `wasm_global:get/1` of a cell, and the value of any other slot. -/
def Slot.get : Slot → Value
  | .value v => v
  | .cell v => v

/-- `deref/1`. -/
def deref (globals : List Slot) : List Value := globals.map Slot.get

/-! ## Shared pieces -/

/-- `struct_fields_of/2`, and `struct_fields/2`. -/
def structFieldsOf (types : List SubType) (t : ℕ) : Option (List FieldType) :=
  match types[t]? with
  | some ⟨_, _, .struct fields⟩ => some fields
  | _ => none

/-- `array_field_of/2`, and `elem_of/2`. -/
def arrayFieldOf (types : List SubType) (t : ℕ) : Option FieldType :=
  match types[t]? with
  | some ⟨_, _, .array field⟩ => some field
  | _ => none

/-- `default_value/1`. -/
def defaultValue (t : ValType) : Value :=
  match t with
  | .i32 | .i64 => .int 0
  | .f32 => .float (Num.f32FromBits 0)
  | .f64 => .float (Num.f64FromBits 0)
  | .v128 => .bytes (List.replicate 16 0)
  | .ref _ => .ref .null

/-- `const_field_default/1`, and `field_default/1`. -/
def fieldDefault (f : FieldType) : Value :=
  match f.type with
  | .i8 | .i16 => .int 0
  | .val t => defaultValue t

/-- `const_traced/1`, and `traced/1`. -/
def traced (f : FieldType) : Bool :=
  match f.type with
  | .val (.ref _) => true
  | _ => false

/-- `lists:split/2`. -/
def split (n : ℕ) (s : List Value) : Option (List Value × List Value) :=
  if n ≤ s.length then some (s.take n, s.drop n) else none

def wrapS32 (v : ℤ) : ℤ :=
  let w := v % 2 ^ 32
  if 2 ^ 31 ≤ w then w - 2 ^ 32 else w

def wrapS64 (v : ℤ) : ℤ :=
  let w := v % 2 ^ 64
  if 2 ^ 63 ≤ w then w - 2 ^ 64 else w

def toU32 (v : ℤ) : ℕ := (if v < 0 then v + 2 ^ 32 else v).toNat

def toU64 (v : ℤ) : ℕ := (if v < 0 then v + 2 ^ 64 else v).toNat

/-- An `i31` of an integer: its low 31 bits. -/
def i31Of (v : ℤ) : Value := .ref (.i31 (v % 2 ^ 31).toNat)

abbrev State := List Value × Store

def push (v : Value) (s : State) : Option State := some (v :: s.1, s.2)

/-- Two integers are taken off the stack. -/
def binary (f : ℤ → ℤ → ℤ) (s : State) : Option State :=
  match s.1 with
  | .int b :: .int a :: rest => some (.int (f a b) :: rest, s.2)
  | _ => none

/-! ## Instantiation -/

/-- `const_step/4`; a segment's offset is evaluated with no instance. -/
def constStep (inst : Option Inst) (globals : List Value) (i : ConstInstr) (s : State) :
    Option State :=
  match i with
  | .i32Const v | .i64Const v => push (.int v) s
  | .f32Const f | .f64Const f => push (.float f) s
  | .v128Const bs => push (.bytes bs) s
  | .structNew t => do
      let inst ← inst
      let fs ← structFieldsOf inst.types t
      let (revFs, rest) ← split fs.length s.1
      let (r, h) := newStruct s.2 t revFs.reverse
      pure (r :: rest, h)
  | .structNewDefault t => do
      let inst ← inst
      let fs ← structFieldsOf inst.types t
      let (r, h) := newStruct s.2 t (fs.map fieldDefault)
      pure (r :: s.1, h)
  | .arrayNew t => do
      let inst ← inst
      let f ← arrayFieldOf inst.types t
      match s.1 with
      | .int n :: v :: rest =>
          let (r, h) := newArray s.2 t (toU32 n) (some v) (traced f)
          pure (r :: rest, h)
      | _ => none
  | .arrayNewDefault t => do
      let inst ← inst
      let f ← arrayFieldOf inst.types t
      match s.1 with
      | .int n :: rest =>
          let (r, h) := newArray s.2 t (toU32 n) (some (fieldDefault f)) (traced f)
          pure (r :: rest, h)
      | _ => none
  | .arrayNewFixed t n => do
      let inst ← inst
      let (revVs, rest) ← split n s.1
      let f ← arrayFieldOf inst.types t
      let (r, h) := newArray s.2 t n none (traced f)
      let h ← setElements h s.2.nextId 0 revVs.reverse
      pure (r :: rest, h)
  | .refI31 =>
      match s.1 with
      | .int v :: rest => some (i31Of v :: rest, s.2)
      | _ => none
  | .anyConvertExtern | .externConvertAny => some s
  | .refNull _ => push (.ref .null) s
  | .refFunc f =>
      match inst with
      | some inst => push (.ref (.funcref inst.id f)) s
      | none => push (.ref (.bareFuncref f)) s
  | .globalGet i => do
      let v ← globals[i]?
      push v s
  | .i32Add => binary (fun a b => wrapS32 (a + b)) s
  | .i32Sub => binary (fun a b => wrapS32 (a - b)) s
  | .i32Mul => binary (fun a b => wrapS32 (a * b)) s
  | .i64Add => binary (fun a b => wrapS64 (a + b)) s
  | .i64Sub => binary (fun a b => wrapS64 (a - b)) s
  | .i64Mul => binary (fun a b => wrapS64 (a * b)) s

/-- `eval_const_stack/4`. -/
def constRun (inst : Option Inst) (globals : List Value) : List ConstInstr → State → Option State
  | [], s => some s
  | i :: is, s => do
      let s ← constStep inst globals i s
      constRun inst globals is s

/-- `eval_const/3`, with the store it leaves. -/
def evalConst (inst : Option Inst) (globals : List Value) (e : List ConstInstr) (h : Store) :
    Option (Value × Store) := do
  let (stack, h) ← constRun inst globals e ([], h)
  let v ← stack.head?
  pure (v, h)

/-- `eval_const_addr/2`. -/
def evalConstAddr (globals : List Value) (e : List ConstInstr) (h : Store) : Option ℕ := do
  let (v, _) ← evalConst none globals e h
  match v with
  | .int n => some (toU64 n)
  | _ => none

/-! ## The interpreter -/

/-- `narrow/2`: a packed field stores only its own width. -/
def narrow (f : FieldType) (v : Value) : Option Value :=
  match f.type, v with
  | .i8, .int n => some (.int (n % 2 ^ 8))
  | .i16, .int n => some (.int (n % 2 ^ 16))
  | .val _, v => some v
  | _, _ => none

/-- The fields and their values, narrowed. -/
def narrowAll (fs : List FieldType) (vs : List Value) : Option (List Value) :=
  (fs.zip vs).mapM fun fv => narrow fv.1 fv.2

/-- `alloc_len/1`. -/
def allocLen (n : ℤ) : Option ℕ := if toU32 n ≤ 0xFFFFFFF then some (toU32 n) else none

/-- A conversion of the reference on top, which validation has put there. -/
def convertTop (c : Cast.Term → Cast.Term) (s : State) : Option State :=
  match s.1 with
  | .ref t :: rest => some (.ref (c t) :: rest, s.2)
  | _ => none

/-- `run/3` at the instructions of a constant expression. -/
def runStep (inst : Inst) (globals : List Slot) (i : ConstInstr) (s : State) : Option State :=
  match i with
  | .i32Const v | .i64Const v => push (.int v) s
  | .f32Const f | .f64Const f => push (.float f) s
  | .v128Const bs => push (.bytes bs) s
  | .structNew t => do
      let fs ← structFieldsOf inst.types t
      let (revFields, rest) ← split fs.length s.1
      let narrowed ← narrowAll fs revFields.reverse
      let (r, h) := newStruct s.2 t narrowed
      pure (r :: rest, h)
  | .structNewDefault t => do
      let fs ← structFieldsOf inst.types t
      let (r, h) := newStruct s.2 t (fs.map fieldDefault)
      pure (r :: s.1, h)
  | .arrayNew t => do
      let f ← arrayFieldOf inst.types t
      match s.1 with
      | .int n :: v :: rest => do
          let len ← allocLen n
          let v ← narrow f v
          let (r, h) := newArray s.2 t len (some v) (traced f)
          pure (r :: rest, h)
      | _ => none
  | .arrayNewDefault t => do
      let f ← arrayFieldOf inst.types t
      match s.1 with
      | .int n :: rest => do
          let len ← allocLen n
          let (r, h) := newArray s.2 t len (some (fieldDefault f)) (traced f)
          pure (r :: rest, h)
      | _ => none
  | .arrayNewFixed t n => do
      let (revVs, rest) ← split n s.1
      let f ← arrayFieldOf inst.types t
      let vs ← revVs.reverse.mapM (narrow f)
      let (r, h) := newArray s.2 t n none (traced f)
      pure (r :: rest, writeElements h s.2.nextId 0 vs)
  | .refI31 =>
      match s.1 with
      | .int v :: rest => some (i31Of v :: rest, s.2)
      | _ => none
  | .anyConvertExtern => convertTop Cast.anyConvertExtern s
  | .externConvertAny => convertTop Cast.externConvertAny s
  | .refNull _ => push (.ref .null) s
  | .refFunc f => push (.ref (.funcref inst.id f)) s
  | .globalGet i => do
      let slot ← globals[i]?
      push slot.get s
  | .i32Add => binary (fun a b => wrapS32 (a + b)) s
  | .i32Sub => binary (fun a b => wrapS32 (a - b)) s
  | .i32Mul => binary (fun a b => wrapS32 (a * b)) s
  | .i64Add => binary (fun a b => wrapS64 (a + b)) s
  | .i64Sub => binary (fun a b => wrapS64 (a - b)) s
  | .i64Mul => binary (fun a b => wrapS64 (a * b)) s

/-- `run/3` over the instructions. -/
def bodyRun (inst : Inst) (globals : List Slot) : List ConstInstr → State → Option State
  | [], s => some s
  | i :: is, s => do
      let s ← runStep inst globals i s
      bodyRun inst globals is s

/-- The answer of a function whose body is the expression, with the store it leaves. -/
def runBody (inst : Inst) (globals : List Slot) (e : List ConstInstr) (h : Store) :
    Option (Value × Store) := do
  let (stack, h) ← bodyRun inst globals e ([], h)
  let v ← stack.head?
  pure (v, h)

end ErlangWasm.Const
