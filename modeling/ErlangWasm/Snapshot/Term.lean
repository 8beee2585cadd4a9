import ErlangWasm.Reasoning.Bytes

/-!
# The values of a snapshot file

A value is written as a tag, a length where it has one, and its contents; `unterm` reads it back
under two ceilings, the nesting still allowed and the nodes still to spend.  A table of functions
is read into one 32-bit word an entry (`packed`) when every entry has one of two encodings.
-/

namespace ErlangWasm.Snapshot

open Reasoning.Bytes

abbrev Bytes := List UInt8

/-! ## Values -/

/-- A float: an IEEE double that is neither an infinity nor a NaN, by its bits. -/
structure Double where
  bits : ℕ
  lt : bits < 256 ^ 8
  finite : bits / 2 ^ 52 % 2 ^ 11 ≠ 2047
  deriving DecidableEq

/-- The text of an atom, at most 255 characters. -/
structure Name where
  utf8 : Bytes
  short : utf8.length ≤ 1020
  deriving DecidableEq

inductive Scalar
  | int (i : ℤ)
  | float (f : Double)
  | binary (b : Bytes)
  | atom (n : Name)
  -- an improper list
  | improper
  -- a fun, a pid, a port, a reference or a bitstring
  | other
  deriving DecidableEq

inductive Kind
  | list
  | tuple
  | map
  deriving DecidableEq

/-- A term.  The items of a map are its keys and values by turns, as `maps:to_list/1` lists
them. -/
inductive Term
  | scalar (s : Scalar)
  | coll (k : Kind) (items : List Term)

namespace Term

@[match_pattern] abbrev int (i : ℤ) : Term := .scalar (.int i)
@[match_pattern] abbrev binary (b : Bytes) : Term := .scalar (.binary b)
@[match_pattern] abbrev atom (n : Name) : Term := .scalar (.atom n)
@[match_pattern] abbrev list (items : List Term) : Term := .coll .list items
@[match_pattern] abbrev tuple (items : List Term) : Term := .coll .tuple items

end Term

mutual

def Term.decEq : (t u : Term) → Decidable (t = u)
  | .scalar s, .scalar s' => decidable_of_iff (s = s') (by simp)
  | .scalar _, .coll _ _ => .isFalse nofun
  | .coll _ _, .scalar _ => .isFalse nofun
  | .coll k items, .coll k' items' =>
      match (inferInstance : Decidable (k = k')), Term.decEqItems items items' with
      | .isTrue hk, .isTrue hitems => .isTrue (by rw [hk, hitems])
      | .isFalse hk, _ => .isFalse fun h => hk (Term.coll.inj h).1
      | _, .isFalse hitems => .isFalse fun h => hitems (Term.coll.inj h).2

def Term.decEqItems : (l m : List Term) → Decidable (l = m)
  | [], [] => .isTrue rfl
  | [], _ :: _ => .isFalse nofun
  | _ :: _, [] => .isFalse nofun
  | t :: l, u :: m =>
      match Term.decEq t u, Term.decEqItems l m with
      | .isTrue ht, .isTrue hl => .isTrue (by rw [ht, hl])
      | .isFalse ht, _ => .isFalse fun h => ht (List.cons.inj h).1
      | _, .isFalse hl => .isFalse fun h => hl (List.cons.inj h).2

end

instance : DecidableEq Term := Term.decEq

/-! ## Refusals -/

inductive ErrorKind
  | snapshotFormatUnknown
  | snapshotAbiMismatch
  | snapshotTooLarge
  | snapshotTruncated
  | snapshotNotAnImage
  | snapshotCorrupt
  | snapshotCodecUnknown
  | snapshotTooDeep
  | snapshotTooManyNodes
  | snapshotUnknownAtom
  | snapshotNotRepresentable
  deriving DecidableEq, Repr

/-- A value of an error's context. -/
inductive Detail
  | nat (n : ℕ)
  | int (i : ℤ)
  | bytes (b : Bytes)
  | names (l : List String)
  | unknown (tag : UInt8)
  deriving DecidableEq

/-- `#{class => malformed, kind => Kind, msg => Msg, ctx => Ctx}`. -/
structure Error where
  kind : ErrorKind
  msg : String
  ctx : List (String × Detail)
  deriving DecidableEq

/-- `refuse/3`. -/
def refuse {α : Type} (kind : ErrorKind) (msg : String) (ctx : List (String × Detail)) :
    Except Error α :=
  .error { kind := kind, msg := msg, ctx := ctx }

def tooDeep {α : Type} : Except Error α :=
  refuse .snapshotTooDeep "the image nests deeper than allowed" []

def tooManyNodes {α : Type} : Except Error α :=
  refuse .snapshotTooManyNodes "the image decodes to more nodes than allowed" []

/-- `no_encoding_msg/0`. -/
def noEncodingMsg : String := "the image holds a value this format has no encoding for"

def noEncoding {α : Type} : Except Error α :=
  refuse .snapshotCorrupt noEncodingMsg []

/-! ## Writing -/

def zigzag (i : ℤ) : ℕ :=
  if 0 ≤ i then (i * 2).toNat else (-i * 2 - 1).toNat

def unzigzag (u : ℕ) : ℤ :=
  if u % 2 = 0 then (u / 2 : ℕ) else -((u + 1) / 2 : ℕ)

def Kind.tag : Kind → UInt8
  | .list => 4
  | .tuple => 5
  | .map => 6

/-- The length a collection is written with. -/
def Kind.size (k : Kind) (items : List Term) : ℕ :=
  match k with
  | .map => items.length / 2
  | _ => items.length

def Scalar.bytes : Scalar → Option Bytes
  | .int i => some (0 :: be 8 (zigzag i))
  | .float f => some (1 :: be 8 f.bits)
  | .binary b => some (2 :: (be 4 b.length ++ b))
  | .atom n => some (3 :: (be 2 n.utf8.length ++ n.utf8))
  | .improper => none
  | .other => none

mutual

/-- `term/1`; a value it has no clause for raises. -/
def term : Term → Option Bytes
  | .scalar s => s.bytes
  | .coll k items => (terms items).map fun bs => k.tag :: (be 4 (k.size items) ++ bs)

def terms : List Term → Option Bytes
  | [] => some []
  | t :: ts => (term t).bind fun bs => (terms ts).map (bs ++ ·)

end

/-! ## Reading -/

/-- `binary_to_existing_atom(N, utf8)`, over the names the node has. -/
def existingAtom (atoms : Bytes → Bool) (n : Bytes) : Option Name :=
  if h : n.length ≤ 1020 ∧ atoms n = true then some ⟨n, h.1⟩ else none

/-- `F:64/float`, which an infinity or a NaN does not match. -/
def doubleOf (bits : ℕ) : Option Double :=
  if h : bits < 256 ^ 8 ∧ bits / 2 ^ 52 % 2 ^ 11 ≠ 2047 then some ⟨bits, h.1, h.2⟩ else none

/-- What a reader answers: a value, the rest of the bytes and of the budget. -/
abbrev Reading (α : Type) := Except Error (α × Bytes × ℕ)

/-- `collect/6` with the values in order, each read by `read`. -/
def collect (read : Bytes → ℕ → Reading Term) : ℕ → Bytes → ℕ → Reading (List Term)
  | n, r, budget =>
      if budget = 0 then tooManyNodes
      else
        match n with
        | 0 => .ok ([], r, budget)
        | n + 1 =>
            match read r budget with
            | .ok (v, r, budget) =>
                match collect read n r budget with
                | .ok (vs, r, budget) => .ok (v :: vs, r, budget)
                | .error e => .error e
            | .error e => .error e

/-- The keys of a list of keys and values by turns. -/
def keys : List Term → List Term
  | k :: _ :: rest => k :: keys rest
  | _ => []

/-- `pairs/1`: of two values under one key the later stays. -/
def pairs : List Term → List Term
  | k :: v :: rest => if k ∈ keys rest then pairs rest else k :: v :: pairs rest
  | _ => []

/-- How many values `unterm` reads for a collection of length `n`. -/
def Kind.reads : Kind → ℕ → ℕ
  | .map, n => n * 2
  | _, n => n

/-- The `Done` of `collect/6`. -/
def Kind.build : Kind → List Term → Term
  | .list, vs => .coll .list vs
  | .tuple, vs => .coll .tuple vs
  | .map, vs => .coll .map (pairs vs)

def Scalar.read (atoms : Bytes → Bool) (tag : UInt8) (r : Bytes) : Except Error (Scalar × Bytes) :=
  if tag = 0 then
    match readBe 8 r with
    | some (u, r) => .ok (.int (unzigzag u), r)
    | none => noEncoding
  else if tag = 1 then
    match readBe 8 r with
    | some (bits, r) =>
        match doubleOf bits with
        | some f => .ok (.float f, r)
        | none => noEncoding
    | none => noEncoding
  else if tag = 2 then
    match (readBe 4 r).bind fun (l, r) => splitAt? l r with
    | some (b, r) => .ok (.binary b, r)
    | none => noEncoding
  else if tag = 3 then
    match (readBe 2 r).bind fun (l, r) => splitAt? l r with
    | some (n, r) =>
        match existingAtom atoms n with
        | some name => .ok (.atom name, r)
        | none =>
            refuse .snapshotUnknownAtom "the image names an atom this node does not have"
              [("name", .bytes n)]
    | none => noEncoding
  else noEncoding

def Kind.ofTag (tag : UInt8) : Option Kind :=
  if tag = 4 then some .list
  else if tag = 5 then some .tuple
  else if tag = 6 then some .map
  else none

/-- `unterm/3`, on the nesting and the nodes still allowed. -/
def unterm (atoms : Bytes → Bool) : ℕ → Bytes → ℕ → Reading Term
  | 0, _, _ => tooDeep
  | depth + 1, bin, budget =>
      if budget = 0 then tooManyNodes
      else
        match bin with
        | [] => noEncoding
        | tag :: r =>
            match Kind.ofTag tag with
            | some k =>
                match readBe 4 r with
                | some (n, r) =>
                    match collect (unterm atoms depth) (k.reads n) r (budget - 1) with
                    | .ok (vs, r, budget) => .ok (k.build vs, r, budget)
                    | .error e => .error e
                | none => noEncoding
            | none =>
                match Scalar.read atoms tag r with
                | .ok (s, r) => .ok (.scalar s, r, budget - 1)
                | .error e => .error e

/-- `?NULL_FUNC_WORD`. -/
def nullFuncWord : ℕ := 0xFFFFFFFF

/-- How `null` is written. -/
def nullEntry : Bytes := 3 :: (be 2 4 ++ ascii "null")

/-- How `{funcref, self, F}` is written, up to the field of `F`. -/
def funcrefEntry : Bytes :=
  5 :: (be 4 3 ++ (3 :: (be 2 7 ++ ascii "funcref")) ++ (3 :: (be 2 4 ++ ascii "self")) ++ [0])

/-- `packed/4`; `none` is `declined`. -/
def packed : ℕ → Bytes → Bytes → ℕ → Option (Bytes × Bytes × ℕ)
  | 0, r, acc, budget => some (acc, r, budget)
  | n + 1, r, acc, budget =>
      if budget = 0 then none
      else
        match strip? nullEntry r with
        | some r => packed n r (acc ++ be 4 nullFuncWord) (budget - 1)
        | none =>
            match (strip? funcrefEntry r).bind (readBe 8) with
            | some (u, r) =>
                if u % 2 = 0 ∧ u / 2 < nullFuncWord then
                  packed n r (acc ++ be 4 (u / 2)) (budget - 4)
                else none
            | none => none

/-- `untable/3`. -/
def untable (atoms : Bytes → Bool) (depth : ℕ) (bin : Bytes) (budget : ℕ) : Reading Term :=
  match (strip? [4] bin).bind (readBe 4) with
  | some (n, r) =>
      if 3 ≤ depth then
        match packed n r [] (budget - 1) with
        | some (words, r, budget) => .ok (.binary words, r, budget)
        | none => unterm atoms depth bin budget
      else unterm atoms depth bin budget
  | none => unterm atoms depth bin budget

/-- `untables/3`; its loop is `collect/6` over `untable/3`. -/
def untables (atoms : Bytes → Bool) (depth : ℕ) (bin : Bytes) (budget : ℕ) : Reading Term :=
  match (strip? [4] bin).bind (readBe 4) with
  | some (n, r) =>
      if 0 < depth ∧ 0 < budget then
        match collect (untable atoms (depth - 1)) n r (budget - 1) with
        | .ok (tables, r, budget) => .ok (.list tables, r, budget)
        | .error e => .error e
      else unterm atoms depth bin budget
  | none => unterm atoms depth bin budget

end ErlangWasm.Snapshot
