import ErlangWasm.Reasoning.References

/-!
# The code that `wasm_core` generates

`wasm_core:seq/3` and what it emits for each instruction of a stateful function, as terms that keep
the variables each expression references.  Literals carry no value, and a call no name.  A function
that touches no memory has no translation cache, and is not modelled.
-/

namespace ErlangWasm.Compile.Core

open Reasoning.References

/-! ## Core Erlang -/

/-- A variable with a number, one with a name, or a literal. -/
inductive Opd
  | num (n : ℕ)
  | name (s : String)
  | lit
  deriving DecidableEq

/-- The name of a continuation: the depth of its frame, and its arity. -/
structure FName where
  depth : ℕ
  arity : ℕ
  deriving DecidableEq

abbrev Expr := Code Opd FName

/-! ## Instructions -/

/-- The operation of a load or a store, of `load_spec/1` and `store_spec/1` the width in bytes.
`other` is an operation of that shape in neither `?LOADS` nor `?STORES`. -/
inductive MemOp
  | load (width : ℕ)
  | store (width : ℕ)
  | other
  deriving DecidableEq

/-- The instructions that take operands, call a helper and put back what it answers. -/
inductive Op
  | unop
  | binop
  | i8x16Shuffle
  | simdUnary
  | simdBinary
  | simdShift
  | simdSplat
  | simdTernary
  | simdLane
  | simdReplace
  | simdLoad
  | simdStore
  | simdLoadLane
  | simdStoreLane
  | memorySize
  | memoryGrow
  | memoryFill
  | memoryCopy
  | memoryInit
  | dataDrop
  | globalGet
  | globalSet
  deriving DecidableEq

inductive Instr
  | block (npar nres : ℕ) (body : List Instr)
  | loop (npar nres : ℕ) (body : List Instr)
  | if_ (npar nres : ℕ) (then_ else_ : List Instr)
  | br (n : ℕ)
  | brIf (n : ℕ)
  | brTable (labels : List ℕ) (default : ℕ)
  | return_
  | unreachable
  | nop
  | drop
  | select
  | localGet (i : ℕ)
  | localSet (i : ℕ)
  | localTee (i : ℕ)
  -- `i32_const` and its like, and `v128_const`
  | const
  | access (op : MemOp) (offset mem : ℕ)
  | op (o : Op)
  | call (f : ℕ)
  | callIndirect (typeIdx tableIdx : ℕ)

/-! ## The state of the generator -/

/-- Two entries of `Page, Array, Base`, the most recently used first. -/
structure Cache where
  p : Opd
  ar : Opd
  b : Opd
  p2 : Opd
  ar2 : Opd
  b2 : Opd

/-- `tuple_to_list(Tlb)` -/
def Cache.toList (t : Cache) : List Opd := [t.p, t.ar, t.b, t.p2, t.ar2, t.b2]

/-- `?TLB_SIZE` -/
def tlbSize : ℕ := 6

/-- The variables from `n` on. -/
def Cache.fresh (n : ℕ) : Cache :=
  ⟨.num n, .num (n + 1), .num (n + 2), .num (n + 3), .num (n + 4), .num (n + 5)⟩

/-- How a callee outside or inside the unit is called. -/
inductive Callee
  | stateful
  | pure
  | outward

/-- What the generator knows of the module: `sigs`, `tsigs` and `unit`. -/
structure Module where
  sigs : ℕ → Option (ℕ × ℕ)
  tsigs : ℕ → Option (ℕ × ℕ)
  unit : ℕ → Callee

/-- `#g{}` of a stateful function. -/
structure Gen where
  env : ℕ → Option Opd
  stack : List Opd
  frames : List (FName × ℕ)
  depth : ℕ
  n : ℕ
  nlocals : ℕ
  nres : ℕ
  inst : Opd
  mut_ : Opd
  d : Opd
  tlb : Cache

inductive Exit
  | return_
  | cont (k : FName) (nargs : ℕ)
  deriving DecidableEq

namespace Gen

def push (g : Gen) (v : Opd) : Gen := { g with stack := v :: g.stack }

/-- `take/2`, in call order; and `pop/1`, one at a time. -/
def take (g : Gen) (n : ℕ) : Option (List Opd × Gen) :=
  if n ≤ g.stack.length then
    some ((g.stack.take n).reverse, { g with stack := g.stack.drop n })
  else none

def pop (g : Gen) : Option (Opd × Gen) :=
  match g.stack with
  | [] => none
  | v :: s => some (v, { g with stack := s })

/-- `var/1`, `k` times: the variables are `Opd.num n` and on. -/
def skip (g : Gen) (k : ℕ) : Gen := { g with n := g.n + k }

def locals (g : Gen) : Option (List Opd) := (List.range g.nlocals).mapM g.env

/-- What every continuation takes. -/
def carried (g : Gen) : Option (List Opd) := do
  let ls ← g.locals
  some (ls ++ [g.mut_, g.d] ++ g.tlb.toList)

/-- `target/2` -/
def target (g : Gen) (n : ℕ) : Exit :=
  match g.frames[n]? with
  | some (k, nargs) => .cont k nargs
  | none => .return_

/-- Leaving a frame, or the function. -/
def go (g : Gen) : Exit → Option Expr
  | .return_ => some (.expr ((g.stack.take g.nres).reverse ++ [g.mut_]))
  | .cont k nargs => do
    let cs ← g.carried
    some (.jump k (cs ++ (g.stack.take nargs).reverse))

end Gen

/-- The `k` variables from `n` on. -/
def nums (n k : ℕ) : List Opd := (List.range' n k).map .num

structure Frame where
  name : FName
  vars : List Opd
  -- the state in the continuation, with its results on the stack
  inside : Gen
  -- the state behind the frame
  outside : Gen

/-- `frame/2`: a continuation takes the locals, the state and the frame's results. -/
def frame (nres : ℕ) (g : Gen) : Frame :=
  let carried := g.nlocals + 2 + tlbSize
  let total := carried + nres
  let outside := g.skip total
  { name := ⟨g.depth, total⟩
    vars := nums g.n total
    outside := outside
    inside := { outside with
      env := fun i => if i < g.nlocals then some (.num (g.n + i)) else none
      mut_ := .num (g.n + g.nlocals)
      d := .num (g.n + g.nlocals + 1)
      tlb := .fresh (g.n + g.nlocals + 2)
      stack := (nums (g.n + carried) nres).reverse } }

/-! ## The form of an access -/

inductive CacheUse
  | must
  | none_
  | mixed
  deriving DecidableEq

/-- `either/2` -/
def either (a b : Bool × Bool) : Bool × Bool := (a.1 || b.1, a.2 || b.2)

def branch (n d : ℕ) : Bool × Bool := if n < d then (true, false) else (false, true)

/-- `{SomePathUses, SomePathLeaves}`, for an exit that is `return` or one that is not. -/
def paths (atReturn : Bool) (d : ℕ) : List Instr → Bool × Bool
  | [] => if atReturn then (false, true) else (true, false)
  | .block _ _ body :: _ => paths false (d + 1) body
  | .loop _ _ _ :: _ => (true, false)
  | .if_ _ _ then_ else_ :: _ => either (paths false (d + 1) then_) (paths false (d + 1) else_)
  | .br n :: _ => branch n d
  | .brIf n :: rest => either (branch n d) (paths atReturn d rest)
  | .brTable labels default :: _ =>
    labels.foldl (fun acc l => either (branch l d) acc) (branch default d)
  | .return_ :: _ => (false, true)
  | .unreachable :: _ => (true, false)
  | .access (.load _) _ 0 :: _ => (true, false)
  | .access (.store _) _ 0 :: _ => (true, false)
  | _ :: rest => paths atReturn d rest

/-- `cache_use/3` -/
def cacheUse (is : List Instr) (exit : Exit) (depth : ℕ) : CacheUse :=
  match paths (exit = .return_) depth is with
  | (true, false) => .must
  | (false, _) => .none_
  | (true, true) => .mixed

inductive Form
  | first
  | last
  | tuple
  deriving DecidableEq

/-- `order/2`, of a result and a cache. -/
def order (form : Form) (r : List Opd) (t : Cache) : List Opd :=
  match form with
  | .first => r ++ [t.ar2, t.b2, t.ar, t.b, t.p2, t.p]
  | .last => [t.ar2, t.b2, t.ar, t.b, t.p2, t.p] ++ r
  | .tuple => r ++ t.toList

/-- `answer/3`, of a result that references `r`. -/
def answer (form : Form) (r : List Opd) (t : Cache) : Expr :=
  match form with
  | .tuple =>
    .let_ [.name "Tr"] (.expr r) <| .let_ [.name "Tp"] (.expr [t.p]) <|
      .let_ [.name "Ta"] (.expr [t.ar]) <| .let_ [.name "Tb"] (.expr [t.b]) <|
      .let_ [.name "Tp2"] (.expr [t.p2]) <| .let_ [.name "Ta2"] (.expr [t.ar2]) <|
      .let_ [.name "Tb2"] (.expr [t.b2]) <|
      .expr [.name "Tr", .name "Tp", .name "Ta", .name "Tb", .name "Tp2", .name "Ta2", .name "Tb2"]
  | form => .expr (order form r t)

/-- `join/4` -/
def join (form : Form) (access : Expr) (r : List Opd) (t : Cache) (body : Expr) : Expr :=
  match form with
  | .tuple => .match_ (r ++ t.toList) access body
  | form => .let_ (order form r t) access body

/-! ## Memory accesses -/

section

variable (op : MemOp) (mut_ base : Opd) (val : List Opd)

/-- `perform/10`: the inline load or store on the word at `i` of the array `c`. -/
def perform (c i : Opd) : List Opd :=
  match op with
  | .load width => [c, i] ++ if width = 8 then [] else [.name "Bit"]
  | .store width => ([c, i] ++ if width = 8 then [] else [.name "Bit"]) ++ val ++ [mut_]
  | .other => []

/-- `helper/6` -/
def helper : List Opd := [mut_, .name "A"] ++ val

/-- `from_tuple/2` -/
def fromTuple (form : Form) (call : Expr) : Expr :=
  match form with
  | .tuple => call
  | form =>
    .match_ [.name "Or", .name "Op", .name "Oa", .name "Ob", .name "Op2", .name "Oa2", .name "Ob2"]
      call (.expr (order form [.name "Or"]
        ⟨.name "Op", .name "Oa", .name "Ob", .name "Op2", .name "Oa2", .name "Ob2"⟩))

/-- `cached/8`: an access to memory 0. -/
def cached (t : Cache) (form : Form) : Expr :=
  let hit : Expr := .let_ [.name "Ix"] (.expr [t.b, .name "A"])
    (answer form (perform op mut_ val t.ar (.name "Ix")) t)
  let slow : Expr := answer form (helper mut_ val) t
  let out : Expr := fromTuple form (.expr ([mut_, .name "A"] ++ val ++ t.toList))
  .let_ [.name "A"] (.expr [base]) <| .let_ [.name "Bit"] (.expr [.name "A"]) <|
    .let_ [.name "Pg"] (.expr [.name "A"]) <|
    .case_ [.name "Bit"] (.alt (.case_ [.name "Pg", t.p] (.alt hit out)) slow)

/-- `image_load/6` for a load; for a store, the helper. -/
def untouched (slow : Expr) : Expr :=
  match op with
  | .load _ =>
    .let_ [.name "Pb"] (.expr [.name "A", .name "Mem"]) <|
      .case_ [.name "Pb"] <| .alt (.expr []) <| .let_ [.name "Po"] (.expr [.name "A"]) <|
      .case_ [.name "Pb", .name "Po"] (.alt (.expr [.name "Px"]) slow)
  | _ => slow

/-- `access/7`: an access to another memory. -/
def access : Expr :=
  let slow : Expr := .expr (helper mut_ val)
  let fast : Expr := .expr (perform op mut_ val (.name "Ck") (.name "Ix"))
  let growth : Expr := .let_ [.name "Sh"] (.expr [.name "Mem"]) <|
    .let_ [.name "Ci"] (.expr [.name "A", .name "Sh"]) <|
    .let_ [.name "Ck"] (.expr [.name "Mem", .name "Ci"]) <|
    .let_ [.name "Ix"] (.expr [.name "A", .name "Sh"]) fast
  let private_ : Expr := .let_ [.name "K"] (.expr [.name "E"]) <|
    .let_ [.name "Ar"] (.expr [.name "Mem"]) <|
    .case_ [.name "K", .name "Ar"] <| .alt
      (.let_ [.name "Ck"] (.expr [.name "K", .name "Ar"]) <|
        .let_ [.name "Ix"] (.expr [.name "E", .name "A"]) fast)
      slow
  let image : Expr := .let_ [.name "E"] (.expr [.name "Mem", .name "A"]) <|
    .case_ [.name "E"] (.alt (untouched op slow) private_)
  .let_ [.name "Mem"] (.expr [mut_]) <| .let_ [.name "A"] (.expr [base]) <|
    .let_ [.name "Bit"] (.expr [.name "A"]) <|
    .case_ [.name "Bit"] <| .alt
      (.case_ [.name "A", .name "Mem"] <| .alt
        (.case_ [.name "A", .name "Mem"] (.alt growth image)) slow)
      slow

end

/-! ## Instructions in a row -/

/-- What an instruction emits before the rest. -/
inductive Pre
  | none_
  | let_ (v : Opd) (e : Expr)
  | match_ (vs : List Opd) (e : Expr)
  -- a call, behind the check of the depth
  | call (check vs : List Opd) (e : Expr)

def Pre.wrap : Pre → Expr → Expr
  | .none_, rest => rest
  | .let_ v e, rest => .let_ [v] e rest
  | .match_ vs e, rest => .match_ vs e rest
  | .call check vs e, rest => .let_ [] (.expr check) (.match_ vs e rest)

/-- What a helper answers: a value, with as many more variables for its own use, the state, or
both. -/
inductive Result
  | value (extra : ℕ)
  | state
  | both

/-- How many operands an operation takes, whether it is given the instance and the state, and what
it answers. -/
structure Shape where
  pops : ℕ
  inst : Bool
  mut_ : Bool
  result : Result

def Op.shape : Op → Shape
  | .unop => ⟨1, false, false, .value 0⟩
  | .binop => ⟨2, false, false, .value 1⟩
  | .i8x16Shuffle => ⟨2, false, false, .value 0⟩
  | .simdUnary => ⟨1, false, false, .value 0⟩
  | .simdBinary => ⟨2, false, false, .value 0⟩
  | .simdShift => ⟨2, false, false, .value 0⟩
  | .simdSplat => ⟨1, false, false, .value 0⟩
  | .simdTernary => ⟨3, false, false, .value 0⟩
  | .simdLane => ⟨1, false, false, .value 0⟩
  | .simdReplace => ⟨2, false, false, .value 0⟩
  | .simdLoad => ⟨1, false, true, .value 0⟩
  | .simdStore => ⟨2, false, true, .state⟩
  | .simdLoadLane => ⟨2, false, true, .value 0⟩
  | .simdStoreLane => ⟨2, false, true, .state⟩
  | .memorySize => ⟨0, false, true, .value 0⟩
  | .memoryGrow => ⟨1, true, true, .both⟩
  | .memoryFill => ⟨3, false, true, .state⟩
  | .memoryCopy => ⟨3, false, true, .state⟩
  | .memoryInit => ⟨3, true, true, .state⟩
  | .dataDrop => ⟨0, true, true, .state⟩
  | .globalGet => ⟨0, false, true, .value 0⟩
  | .globalSet => ⟨1, true, true, .state⟩

/-- The operands of a helper. -/
def Shape.args (s : Shape) (g : Gen) (operands : List Opd) : List Opd :=
  (if s.inst then [g.inst] else []) ++ (if s.mut_ then [g.mut_] else []) ++ operands

/-- The code of an operation, of one shape. -/
def emit (s : Shape) (g : Gen) : Option (Pre × Gen) := do
  let (operands, g₁) ← g.take s.pops
  let e : Expr := .expr (s.args g operands)
  match s.result with
  | .value extra => some (.let_ (.num g.n) e, (g₁.push (.num g.n)).skip (1 + extra))
  | .state => some (.let_ (.num g.n) e, { g₁.skip 1 with mut_ := .num g.n })
  | .both =>
    some (.match_ [.num g.n, .num (g.n + 1)] e,
      { (g₁.push (.num g.n)).skip 2 with mut_ := .num (g.n + 1) })

/-- A call with as many arguments and results as its type has. -/
def emitCall (np nr : ℕ) (e : List Opd → List Opd) (g₀ g : Gen) : Option (Pre × Gen) := do
  let (args, g₁) ← g.take np
  let rs := nums g.n nr
  let m := Opd.num (g.n + nr)
  some (.call [g₀.inst, g₀.d] (rs ++ [m]) (.expr (e args)),
    { g₁.skip (nr + 1) with mut_ := m, stack := rs.reverse ++ g₁.stack })

/-- The clauses of `instr/4` that emit something and go on with the rest. -/
def straight (m : Module) (g : Gen) : Instr → Option (Pre × Gen)
  | .nop => some (.none_, g)
  | .drop => do
    let (_, g₁) ← g.pop
    some (.none_, g₁)
  | .select => do
    let (c, g₁) ← g.pop
    let (b, g₂) ← g₁.pop
    let (a, g₃) ← g₂.pop
    some (.let_ (.num g.n) (.case_ [c] (.alt (.expr [b]) (.expr [a]))),
      (g₃.push (.num g.n)).skip 1)
  | .localGet i => do
    let v ← g.env i
    some (.none_, g.push v)
  | .localSet i => do
    let (v, g₁) ← g.pop
    some (.none_, { g₁ with env := Function.update g.env i (some v) })
  | .localTee i => do
    let (v, _) ← g.pop
    some (.none_, { g with env := Function.update g.env i (some v) })
  | .const => some (.none_, g.push .lit)
  | .op o => emit o.shape g
  | .access (.load width) _ (_ + 1) => do
    let (base, g₁) ← g.pop
    some (.let_ (.num g.n) (access (.load width) g.mut_ base []), (g₁.push (.num g.n)).skip 1)
  | .access (.store width) _ (_ + 1) => do
    let (val, g₁) ← g.pop
    let (base, g₂) ← g₁.pop
    some (.let_ (.num g.n) (access (.store width) g.mut_ base [val]),
      { g₂.skip 1 with mut_ := .num g.n })
  | .call f => do
    let (np, nr) ← m.sigs f
    let e : List Opd → List Opd :=
      match m.unit f with
      | .stateful => fun args => [g.inst, g.mut_, g.d] ++ args
      | .pure => fun args => args ++ [g.mut_]
      | .outward => fun args => [g.inst, g.mut_] ++ args ++ [g.d]
    emitCall np nr e g g
  | .callIndirect typeIdx _ => do
    let (np, nr) ← m.tsigs typeIdx
    let (i, g₁) ← g.pop
    emitCall np nr (fun args => [g.inst, g.mut_, i] ++ args ++ [g.d]) g g₁
  | _ => none

/-! ## Instructions -/

/-- The state for the rest of the frame around, in the continuation. -/
def Frame.cont (f : Frame) (below : List Opd) : Gen :=
  { f.inside with stack := f.inside.stack ++ below }

/-- The state for the body of a block, or for an arm. -/
def Frame.body (f : Frame) (npar nres : ℕ) (g : Gen) : Gen :=
  { f.outside with
    stack := g.stack.take npar
    frames := (f.name, nres) :: g.frames
    depth := g.depth + 1 }

/-- The frame of a loop's label, inside of its continuation `f`. -/
def Frame.label (f : Frame) (npar : ℕ) (g : Gen) : Frame :=
  frame npar { f.outside with depth := g.depth + 1 }

/-- The state for the body of a loop. -/
def Frame.loop (l : Frame) (npar : ℕ) (g : Gen) : Gen :=
  { l.inside with
    frames := (l.name, npar) :: g.frames
    depth := g.depth + 2 }

/-- The form of a load, and the cache that goes on. -/
def CacheUse.load (use : CacheUse) (old new : Cache) : Form × Cache :=
  match use with
  | .must => (.first, new)
  | .none_ => (.last, old)
  | .mixed => (.tuple, new)

/-- The state behind a load from memory 0. -/
def Gen.loaded (g : Gen) (next : Cache) : Gen :=
  { (g.push (.num (g.n + tlbSize))).skip (tlbSize + 1) with tlb := next }

/-- The state behind a store to memory 0. -/
def Gen.stored (g : Gen) : Gen :=
  { g.skip (tlbSize + 1) with mut_ := .num (g.n + tlbSize), tlb := .fresh g.n }

/-- `seq/3`.  There is no code for what the generator throws at: an operation it does not support,
an operand or a local that is not there. -/
def seq (m : Module) : List Instr → Gen → Exit → Option Expr
  | [], g, exit => g.go exit
  | .block npar nres body :: rest, g, exit => do
    let f := frame nres g
    if npar ≤ g.stack.length then do
      let cont ← seq m rest (f.cont (g.stack.drop npar)) exit
      let inner ← seq m body (f.body npar nres g) (.cont f.name nres)
      some (.letrec f.name f.vars cont inner)
    else none
  | .loop npar nres body :: rest, g, exit => do
    let f := frame nres g
    if npar ≤ g.stack.length then do
      let cont ← seq m rest (f.cont (g.stack.drop npar)) exit
      let l := f.label npar g
      let loop ← seq m body (l.loop npar g) (.cont f.name nres)
      let cs ← g.carried
      some (.letrec f.name f.vars cont
        (.letrec l.name l.vars loop (.jump l.name (cs ++ (g.stack.take npar).reverse))))
    else none
  | .if_ npar nres then_ else_ :: rest, g₀, exit => do
    let (c, g) ← g₀.pop
    let f := frame nres g
    if npar ≤ g.stack.length then do
      let cont ← seq m rest (f.cont (g.stack.drop npar)) exit
      let a ← seq m else_ (f.body npar nres g) (.cont f.name nres)
      let b ← seq m then_ (f.body npar nres g) (.cont f.name nres)
      some (.letrec f.name f.vars cont (.case_ [c] (.alt a b)))
    else none
  | .br n :: _, g, _ => g.go (g.target n)
  | .brIf n :: rest, g₀, exit => do
    let (c, g) ← g₀.pop
    let taken ← g.go (g.target n)
    let code ← seq m rest g exit
    some (.case_ [c] (.alt code taken))
  | .brTable labels default :: _, g₀, _ => do
    let (i, g) ← g₀.pop
    let clauses ← labels.mapM fun l => g.go (g.target l)
    let last ← g.go (g.target default)
    some (.case_ [i] (clauses.foldr .alt last))
  | .return_ :: _, g, _ => g.go .return_
  | .unreachable :: _, g, _ => some (.expr (g.mut_ :: g.tlb.toList))
  | .access (.load width) _ 0 :: rest, g₀, exit => do
    let (base, g) ← g₀.pop
    let new := Cache.fresh g.n
    let (form, next) := (cacheUse rest exit g.frames.length).load g.tlb new
    let body ← seq m rest (g.loaded next) exit
    some (join form (cached (.load width) g.mut_ base [] g.tlb form) [.num (g.n + tlbSize)] new
      body)
  | .access (.store width) _ 0 :: rest, g₀, exit => do
    let (val, g₁) ← g₀.pop
    let (base, g) ← g₁.pop
    let body ← seq m rest g.stored exit
    some (join .last (cached (.store width) g.mut_ base [val] g.tlb .last) [.num (g.n + tlbSize)]
      (.fresh g.n) body)
  | i :: rest, g, exit => do
    let (pre, g₁) ← straight m g i
    let code ← seq m rest g₁ exit
    some (pre.wrap code)

/-- The state that a stateful function starts with. -/
def start (nparams nlocals nres : ℕ) : Gen where
  env i := if i < nparams then some (.num i) else if i < nlocals then some .lit else none
  stack := []
  frames := []
  depth := 0
  n := nparams + 3
  nlocals := nlocals
  nres := nres
  inst := .num nparams
  mut_ := .num (nparams + 1)
  d := .num (nparams + 2)
  tlb := ⟨.lit, .lit, .lit, .lit, .lit, .lit⟩

/-- `function/4` of a stateful function, without its parameter list. -/
def function (m : Module) (nparams nlocals nres : ℕ) (ir : List Instr) : Option Expr :=
  seq m ir (start nparams nlocals nres) .return_

end ErlangWasm.Compile.Core
