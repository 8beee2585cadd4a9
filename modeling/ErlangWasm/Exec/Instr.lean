import Mathlib.Algebra.Ring.Int.Defs
import Mathlib.Algebra.Ring.Nat

/-!
# Instructions of the interpreter, and the pass that fuses them

The IR a function body is lowered to, and `fuse`, which merges the commonest straight-line sequences
into one instruction each.
-/

namespace ErlangWasm.Exec

/-- What neither fusing nor the operand cache looks into. -/
structure Lang where
  /-- an instruction of which the cache holds no clause -/
  Op : Type
  /-- a tag's identity -/
  Tag : Type
  /-- a float, a vector, a reference -/
  Term : Type
  /-- a memory's handle -/
  Mem : Type
  /-- what is behind the handles, and what the process keeps outside the state -/
  World : Type
  /-- why a trap was raised -/
  Reason : Type
  /-- an instance's identity -/
  Ref : Type

variable {L : Lang}

inductive Value (L : Lang)
  | int (v : ℤ)
  | null
  | exn (tag : L.Tag) (values : List (Value L))
  | term (t : L.Term)

/-- `#exn{}`. -/
structure Exn (L : Lang) where
  tag : L.Tag
  values : List (Value L)

inductive Width
  | w32
  | w64

def Width.bits : Width → ℕ
  | .w32 => 32
  | .w64 => 64

inductive BinOp
  | add | sub | mul | and_ | or_ | xor | shl | shrS | shrU | rotl | rotr

inductive RelOp
  | eq | ne | ltS | ltU | gtS | gtU | leS | leU | geS | geU

/-- The operations `op_kind` tells apart: `b32` and `b64`, `r32` and `r64`, `eqz`. -/
inductive NumOp
  | bin (w : Width) (op : BinOp)
  | rel (w : Width) (op : RelOp)
  | eqz (w : Width)

/-- `wrap_s32` and `wrap_s64`. -/
def wrapS (w : Width) (v : ℤ) : ℤ :=
  let m := v % 2 ^ w.bits
  if 2 ^ (w.bits - 1) ≤ m then m - 2 ^ w.bits else m

/-- `to_u32` and `to_u64`. -/
def toU (w : Width) (v : ℤ) : ℤ := if v < 0 then v + 2 ^ w.bits else v

/-- A bitwise operation, wrapped: what is above the width has no part in it. -/
def bitwise (w : Width) (f : BitVec w.bits → BitVec w.bits → BitVec w.bits) (a b : ℤ) : ℤ :=
  (f (BitVec.ofInt w.bits a) (BitVec.ofInt w.bits b)).toInt

/-- The second operand of a shift or a rotation. -/
def shiftBy (w : Width) (b : ℤ) : ℕ := (b % w.bits).toNat

/-- `rot`, by `n` to the left and by the rest of the width to the right. -/
def rot (w : Width) (v : ℤ) (left right : ℕ) : ℤ :=
  bitwise w (· ||| ·) (v <<< left) (v >>> right)

/-- `i32_binop` and `i64_binop`. -/
def binop (w : Width) (op : BinOp) (a b : ℤ) : ℤ :=
  match op with
  | .add => wrapS w (a + b)
  | .sub => wrapS w (a - b)
  | .mul => wrapS w (a * b)
  | .and_ => bitwise w (· &&& ·) a b
  | .or_ => bitwise w (· ||| ·) a b
  | .xor => bitwise w (· ^^^ ·) a b
  | .shl => wrapS w (a <<< shiftBy w b)
  | .shrS => wrapS w (a >>> shiftBy w b)
  | .shrU => wrapS w (toU w a >>> shiftBy w b)
  | .rotl =>
      if shiftBy w b = 0 then wrapS w (toU w a)
      else rot w (toU w a) (shiftBy w b) (w.bits - shiftBy w b)
  | .rotr =>
      if shiftBy w b = 0 then wrapS w (toU w a)
      else rot w (toU w a) (w.bits - shiftBy w b) (shiftBy w b)

/-- `int_relop`, on integers. -/
def relop (w : Width) (op : RelOp) (a b : ℤ) : Bool :=
  match op with
  | .eq => a == b
  | .ne => a != b
  | .ltS => a < b
  | .ltU => toU w a < toU w b
  | .gtS => b < a
  | .gtU => toU w b < toU w a
  | .leS => a ≤ b
  | .leU => toU w a ≤ toU w b
  | .geS => b ≤ a
  | .geU => toU w b ≤ toU w a

structure MemArg where
  align : ℕ
  offset : ℕ
  mem : ℕ

inductive Catch
  | catch_ (tag label : ℕ)
  | catchRef (tag label : ℕ)
  | catchAll (label : ℕ)
  | catchAllRef (label : ℕ)

/-- An instruction of the IR.  The superinstructions, from `lgLg` on, count locals from one. -/
inductive Instr (L : Lang)
  | localGet (i : ℕ)
  | localSet (i : ℕ)
  | localTee (i : ℕ)
  | i32Const (v : ℤ)
  | i64Const (v : ℤ)
  | globalGet (i : ℕ)
  | i32Load (ma : MemArg)
  | i32Store (ma : MemArg)
  | num (op : NumOp)
  | block (npar nres : ℕ) (body : List (Instr L))
  | loop (npar nres : ℕ) (body : List (Instr L))
  | tryTable (npar nres : ℕ) (catches : List Catch) (body : List (Instr L))
  | if_ (npar nres : ℕ) (then_ else_ : List (Instr L))
  | br (n : ℕ)
  | brIf (n : ℕ)
  | brTable (labels : List ℕ) (default : ℕ)
  | return_
  | call (f : ℕ)
  | returnCall (f : ℕ)
  | throw (tag : ℕ)
  | throwRef
  | other (op : L.Op)
  | lgLg (i j : ℕ)
  | lgConst (i : ℕ) (c : ℤ)
  | lgConstAdd (i : ℕ) (c : ℤ)
  | lgLoad (i : ℕ) (ma : MemArg)
  | lgConstAddSet (i : ℕ) (c : ℤ) (t : ℕ)
  | lgConstAddTee (i : ℕ) (c : ℤ) (t : ℕ)
  | lgLgStore (i j : ℕ) (ma : MemArg)
  | lgLoadTee (i : ℕ) (ma : MemArg) (t : ℕ)
  | eqzBrIf (n : ℕ)

abbrev Code (L : Lang) := List (Instr L)

/-- Longest match first. -/
def fuse : Code L → Code L
  | .localGet i :: .i32Const c :: .num (.bin .w32 .add) :: .localSet t :: r =>
      .lgConstAddSet (i + 1) c (t + 1) :: fuse r
  | .localGet i :: .i32Const c :: .num (.bin .w32 .add) :: .localTee t :: r =>
      .lgConstAddTee (i + 1) c (t + 1) :: fuse r
  | .localGet i :: .i32Const c :: .num (.bin .w32 .add) :: r => .lgConstAdd (i + 1) c :: fuse r
  | .localGet i :: .localGet j :: .i32Store ma :: r => .lgLgStore (i + 1) (j + 1) ma :: fuse r
  | .localGet i :: .i32Load ma :: .localTee t :: r => .lgLoadTee (i + 1) ma (t + 1) :: fuse r
  | .localGet i :: .i32Load ma :: r => .lgLoad (i + 1) ma :: fuse r
  | .localGet i :: .localGet j :: r => .lgLg (i + 1) (j + 1) :: fuse r
  | .localGet i :: .i32Const c :: r => .lgConst (i + 1) c :: fuse r
  | .num (.eqz .w32) :: .brIf n :: r => .eqzBrIf n :: fuse r
  | i :: r => i :: fuse r
  | [] => []

/-- What `ir_instr` does to the bodies inside. -/
def lowerInstr : Instr L → Instr L
  | .block npar nres body => .block npar nres (fuse (lowerEach body))
  | .loop npar nres body => .loop npar nres (fuse (lowerEach body))
  | .tryTable npar nres catches body => .tryTable npar nres catches (fuse (lowerEach body))
  | .if_ npar nres then_ else_ => .if_ npar nres (fuse (lowerEach then_)) (fuse (lowerEach else_))
  | i => i
where
  lowerEach : Code L → Code L
    | [] => []
    | i :: r => lowerInstr i :: lowerEach r

/-- `ir`, from a body in which nothing is fused at any depth. -/
def lower (code : Code L) : Code L := fuse (lowerInstr.lowerEach code)

end ErlangWasm.Exec
