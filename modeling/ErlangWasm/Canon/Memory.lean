import ErlangWasm.Canon.Types
import ErlangWasm.Reasoning.Unicode

/-!
# Values in guest memory

`store` writes a value at a pointer, taking from the guest's realloc a block for every list and
string in it, and `load` reads it back.  What realloc will answer is part of the guest's state: a
list of grants, each a pointer and what the guest did to its memory meanwhile.
-/

namespace ErlangWasm.Canon

open Reasoning.Bytes
open Reasoning.Unicode
open ErlangWasm.Num (f32FromBits f32ToBits f64FromBits f64ToBits)

/-! ## The guest -/

def pageSize : ℕ := 65536

/-- Linear memory: its size in pages, and the bytes in it. -/
structure Memory where
  pages : ℕ
  byte : ℕ → UInt8

namespace Memory

def slice (m : Memory) (addr len : ℕ) : Bytes := (List.range len).map fun i => m.byte (addr + i)

/-- The bytes `bs` at `addr`. -/
def put (m : Memory) (addr : ℕ) (bs : Bytes) : Memory where
  pages := m.pages
  byte := fun a => if addr ≤ a then bs.getD (a - addr) (m.byte a) else m.byte a

end Memory

/-- An answer of realloc: the pointer, by how many pages the guest grew its memory, and what it
wrote there. -/
structure Grant where
  ptr : ℕ
  grow : ℕ
  scribble : (ℕ → UInt8) → ℕ → UInt8

structure Guest where
  mem : Memory
  grants : List Grant

/-- `{ok, Bin} = wasm:read_memory(Inst, Addr, Len)`. -/
def readMemory (m : Memory) (addr len : ℤ) : Outcome Bytes :=
  if 0 ≤ addr ∧ 0 ≤ len ∧ addr + len ≤ m.pages * pageSize then
    .ok (m.slice addr.toNat len.toNat)
  else crash

/-- `ok = wasm:write_memory(Inst, Addr, Bin)`. -/
def writeMemory (g : Guest) (addr : ℕ) (bs : Bytes) : Outcome Guest :=
  if addr + bs.length ≤ g.mem.pages * pageSize then .ok { g with mem := g.mem.put addr bs }
  else crash

/-- What a realloc leaves. -/
def Grant.after (gr : Grant) (m : Memory) : Memory where
  pages := m.pages + gr.grow
  byte := gr.scribble m.byte

/-- `realloc/3`, which passes the alignment and the size on to the guest. -/
def realloc (_align _size : ℕ) (g : Guest) : Outcome (ℕ × Guest) :=
  match g.grants with
  | gr :: rest => .ok (gr.ptr, { mem := gr.after g.mem, grants := rest })
  | [] => crash

def ensureListFits (m : Memory) (ptr len : ℤ) (elemSize : ℕ) : Outcome Unit :=
  if 0 ≤ len ∧ 0 ≤ ptr ∧ ptr + len * elemSize ≤ m.pages * pageSize then .ok ()
  else trap (.outOfBoundsMemoryAccess ptr len elemSize)

/-- The alignment is a power of two. -/
def checkAligned (ptr : ℤ) (align : ℕ) : Outcome Unit :=
  if ptr % align = 0 then .ok () else trap (.unaligned ptr align)

/-- `read_int/4`. -/
def readInt (m : Memory) (ptr bytes : ℕ) (signed : Bool) : Outcome ℤ := do
  let bin ← readMemory m ptr bytes
  return if signed then fromSigned (ofLe bin) (bytes * 8) else ofLe bin

def storeInt (g : Guest) (ptr bytes v : ℕ) : Outcome Guest := writeMemory g ptr (le bytes v)

def readPtrLen (m : Memory) (ptr : ℕ) : Outcome (ℕ × ℕ) := do
  let bin ← readMemory m ptr 8
  return (ofLe (bin.take 4), ofLe (bin.drop 4))

def writePtrLen (g : Guest) (ptr p len : ℕ) : Outcome Guest :=
  writeMemory g ptr (le 4 p ++ le 4 len)

/-! ## Strings -/

/-- `string_encoding/0`. -/
inductive Encoding
  | utf8
  | utf16
  | latin1Utf16
  deriving DecidableEq, Repr

def toUtf16le (bin : Bytes) : Outcome Bytes :=
  match utf8? bin with
  | some cs => .ok (utf16le cs)
  | none => trap .invalidUtf8

def fromUtf16le (bin : Bytes) : Outcome Bytes :=
  match utf16le? bin with
  | some cs => .ok (utf8 cs)
  | none => trap .invalidUtf16

/-- `to_latin1/1`; `none` when a code point is 256 or more. -/
def toLatin1 (bin : Bytes) : Option Bytes := (utf8? bin).bind latin1?

def fromLatin1 (bin : Bytes) : Bytes := utf8 (latin1 bin)

def validUtf8 (bin : Bytes) : Outcome Bytes :=
  match utf8? bin with
  | some _ => .ok bin
  | none => trap .invalidUtf8

/-- `16#80000000`. -/
def utf16Mark : ℕ := 2 ^ 31

def placeBytes (bin : Bytes) (g : Guest) : Outcome ((ℕ × ℕ) × Guest) := do
  let (ptr, g) ← realloc 1 bin.length g
  let g ← writeMemory g ptr bin
  return ((ptr, bin.length), g)

def placeString (enc : Encoding) (bin : Bytes) (g : Guest) : Outcome ((ℕ × ℕ) × Guest) :=
  match enc with
  | .utf8 => placeBytes bin g
  | .utf16 => do
      let ((ptr, bytes), g) ← placeBytes (← toUtf16le bin) g
      return ((ptr, bytes / 2), g)
  | .latin1Utf16 =>
      match toLatin1 bin with
      | some latin1 => placeBytes latin1 g
      | none => do
          let ((ptr, bytes), g) ← placeBytes (← toUtf16le bin) g
          return ((ptr, bytes / 2 ||| utf16Mark), g)

def readString (enc : Encoding) (m : Memory) (ptr len : ℤ) : Outcome Bytes :=
  match enc with
  | .utf8 => do validUtf8 (← readMemory m ptr len)
  | .utf16 => do
      checkAligned ptr 2
      fromUtf16le (← readMemory m ptr (len * 2))
  | .latin1Utf16 =>
      if len / utf16Mark % 2 = 0 then do return fromLatin1 (← readMemory m ptr len)
      else do
        checkAligned ptr 2
        fromUtf16le (← readMemory m ptr (len % utf16Mark * 2))

/-! ## Loading -/

/-- `Acc#{N => V}`. -/
def putField (kvs : List (Bytes × Value)) (n : Bytes) (v : Value) : List (Bytes × Value) :=
  match kvs with
  | [] => [(n, v)]
  | (k, u) :: rest => if k = n then (k, v) :: rest else (k, u) :: putField rest n v

/-- `[load(Inst, ElemD, P + I * ESize) || I <- lists:seq(0, Len - 1)]`. -/
def loadElems (read : ℕ → Outcome Value) (p esize len : ℕ) : Outcome (List Value) :=
  (List.range len).mapM fun i => read (p + i * esize)

mutual

/-- `load/3`. -/
def load (enc : Encoding) (m : Memory) : Desc → ℕ → Outcome Value
  | .int t, ptr => do return .int (← readInt m ptr t.bytes t.signed)
  | .f32, ptr => do return .float (f32FromBits (ofLe (← readMemory m ptr 4)))
  | .f64, ptr => do return .float (f64FromBits (ofLe (← readMemory m ptr 8)))
  | .bool, ptr => do return .bool ((← readInt m ptr 1 false) ≠ 0)
  | .char, ptr => do return .int (← validChar (← readInt m ptr 4 false))
  | .string, ptr => do
      let (p, len) ← readPtrLen m ptr
      return .binary (← readString enc m p len)
  | .list d, ptr => do
      let (p, len) ← readPtrLen m ptr
      if d.isU8 then return .binary (← readMemory m p len)
      else
        checkAligned p (align d)
        ensureListFits m p len (size d)
        return .list (← loadElems (load enc m d) p (size d) len)
  | .record fields, ptr => do return .map (← loadFields enc m fields ptr 0 [])
  | .tuple ds, ptr => do return .tuple (← loadItems enc m ds ptr 0)
  | .enum names, ptr => do
      return .binary (← nthCase (← readInt m ptr (discSize names.length) false) names)
  | .sum cases, ptr => do
      let disc ← readInt m ptr (discSize cases.length) false
      let (t, _) ← nthCase disc cases
      return .sum t (← loadCase enc m cases disc.toNat (ptr + payloadOffset cases))
  | .flags names, ptr => do
      return .flags (bitsFlags names (← readInt m ptr (size (.flags names)) false))
  | .ref _, ptr => do return .int (← readInt m ptr 4 false)

def loadFields (enc : Encoding) (m : Memory) :
    List (Bytes × Desc) → ℕ → ℕ → List (Bytes × Value) → Outcome (List (Bytes × Value))
  | [], _, _, acc => return acc
  | (n, d) :: fields, ptr, off, acc => do
      let v ← load enc m d (ptr + alignUp off (align d))
      loadFields enc m fields ptr (alignUp off (align d) + size d) (putField acc n v)

def loadItems (enc : Encoding) (m : Memory) : List Desc → ℕ → ℕ → Outcome (List Value)
  | [], _, _ => return []
  | d :: ds, ptr, off => do
      let v ← load enc m d (ptr + alignUp off (align d))
      return v :: (← loadItems enc m ds ptr (alignUp off (align d) + size d))

/-- The payload of the case of a discriminant. -/
def loadCase (enc : Encoding) (m : Memory) :
    List (Tag × Option Desc) → ℕ → ℕ → Outcome Value
  | [], _, _ => crash
  | (_, none) :: _, 0, _ => return .undefined
  | (_, some d) :: _, 0, ptr => load enc m d ptr
  | _ :: cases, disc + 1, ptr => loadCase enc m cases disc ptr

end

/-! ## Storing -/

/-- `maps:get/2`. -/
def getField (n : Bytes) (kvs : List (Bytes × Value)) : Outcome Value :=
  match kvs.lookup n with
  | some v => .ok v
  | none => crash

/-- The stores of a list's elements, from element `i` on. -/
def storeElems (write : ℕ → Value → Guest → Outcome Guest) (p esize : ℕ) :
    List Value → ℕ → Guest → Outcome Guest
  | [], _, g => return g
  | v :: vs, i, g => do storeElems write p esize vs (i + 1) (← write (p + i * esize) v g)

/-- `place_list/3`. -/
def placeList (write : ℕ → Value → Guest → Outcome Guest) (d : Desc) (vs : List Value) (g : Guest) :
    Outcome ((ℕ × ℕ) × Guest) := do
  let (ptr, g) ← realloc (align d) (vs.length * size d) g
  let g ← storeElems write ptr (size d) vs 0 g
  return ((ptr, vs.length), g)

mutual

/-- `store/4`. -/
def store (enc : Encoding) : Desc → ℕ → Value → Guest → Outcome Guest
  | .int t, ptr, .int i, g => writeMemory g ptr (le t.bytes (i % 2 ^ (8 * t.bytes)).toNat)
  | .f32, ptr, .float f, g =>
      match f32ToBits f with
      | some bits => writeMemory g ptr (le 4 bits)
      | none => crash
  | .f64, ptr, .float f, g => writeMemory g ptr (le 8 (f64ToBits f))
  | .bool, ptr, .bool b, g => writeMemory g ptr (le 1 (boolInt b).toNat)
  | .char, ptr, .int i, g => writeMemory g ptr (le 4 (i % 2 ^ 32).toNat)
  | .string, ptr, .binary bin, g => do
      let ((p, len), g) ← placeString enc bin g
      writePtrLen g ptr p len
  | .list d, ptr, .binary bin, g =>
      if d.isU8 then do
        let ((p, len), g) ← placeBytes bin g
        writePtrLen g ptr p len
      else crash
  | .list d, ptr, .list vs, g =>
      if d.isU8 then crash
      else do
        let ((p, len), g) ← placeList (store enc d) d vs g
        writePtrLen g ptr p len
  | .record fields, ptr, .map kvs, g => storeFields enc fields ptr 0 kvs g
  | .tuple ds, ptr, .tuple vs, g => storeItems enc ds ptr 0 vs g
  | .enum names, ptr, .binary n, g => do
      storeInt g ptr (discSize names.length) (← indexOf (.name n) (names.map .name))
  | .sum cases, ptr, .sum t payload, g => do
      let idx ← indexOf t (cases.map Prod.fst)
      let g ← storeInt g ptr (discSize cases.length) idx
      storeCase enc cases idx (ptr + payloadOffset cases) payload g
  | .flags names, ptr, .flags set, g => do
      storeInt g ptr (size (.flags names)) (← flagsBits names set)
  | .ref _, ptr, .int i, g => writeMemory g ptr (le 4 (i % 2 ^ 32).toNat)
  | _, _, _, _ => crash

def storeFields (enc : Encoding) :
    List (Bytes × Desc) → ℕ → ℕ → List (Bytes × Value) → Guest → Outcome Guest
  | [], _, _, _, g => return g
  | (n, d) :: fields, ptr, off, kvs, g => do
      let g ← store enc d (ptr + alignUp off (align d)) (← getField n kvs) g
      storeFields enc fields ptr (alignUp off (align d) + size d) kvs g

/-- A tuple that is too short raises. -/
def storeItems (enc : Encoding) : List Desc → ℕ → ℕ → List Value → Guest → Outcome Guest
  | [], _, _, _, g => return g
  | d :: ds, ptr, off, v :: vs, g => do
      let g ← store enc d (ptr + alignUp off (align d)) v g
      storeItems enc ds ptr (alignUp off (align d) + size d) vs g
  | _ :: _, _, _, [], _ => crash

def storeCase (enc : Encoding) :
    List (Tag × Option Desc) → ℕ → ℕ → Value → Guest → Outcome Guest
  | [], _, _, _, _ => crash
  | (_, none) :: _, 0, _, _, g => return g
  | (_, some d) :: _, 0, ptr, payload, g => store enc d ptr payload g
  | _ :: cases, idx + 1, ptr, payload, g => storeCase enc cases idx ptr payload g

end

end ErlangWasm.Canon
