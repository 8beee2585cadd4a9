import ErlangWasm.Reaper.Registry

/-!
# The sweep at the start

What a starting reaper makes of the records of the last one, and which directories it removes.
-/

namespace ErlangWasm.Reaper

open Reasoning
open Reasoning.Unicode (utf8)
open Wasi (Name split dotdot)

/-! ## Records -/

def splitOn (sep : Char) : List Char → List Name
  | [] => [[]]
  | c :: cs =>
      if c = sep then [] :: splitOn sep cs
      else
        match splitOn sep cs with
        | [] => [[c]]
        | part :: parts => (c :: part) :: parts

/-- `binary:split/3` with `[global, trim]`. -/
def splitTrim (sep : Char) (text : List Char) : List Name :=
  ((splitOn sep text).reverse.dropWhile (· = [])).reverse

inductive Verb
  | removeTree
  | deleteFile

def verb (text : Name) : Option Verb :=
  if text = "remove_tree".toList then some .removeTree
  else if text = "delete_file".toList then some .deleteFile
  else none

def Verb.on (v : Verb) (root : RootId) (path : Name) : RecoverOp :=
  match v with
  | .removeTree => .removeTree root path
  | .deleteFile => .deleteFile root path

/-- `C >= Low, C =< High`. -/
def between (low high c : Char) : Bool := low.toNat ≤ c.toNat && c.toNat ≤ high.toNat

def unhex (c : Char) : Option ℕ :=
  if between '0' '9' c then some (c.toNat - '0'.toNat)
  else if between 'a' 'f' c then some (c.toNat - 'a'.toNat + 10)
  else if between 'A' 'F' c then some (c.toNat - 'A'.toNat + 10)
  else none

def unescape : List Char → Option Name
  | [] => some []
  | '%' :: a :: b :: rest => do
      let x ← unhex a
      let y ← unhex b
      let more ← unescape rest
      return Char.ofNat (x * 16 + y) :: more
  | '%' :: _ => none
  | c :: rest => do
      let more ← unescape rest
      return c :: more

local instance sweptName : LawfulBEq Name := inferInstance

def safeRelative (path : Name) : Bool :=
  match path with
  | '/' :: _ => false
  | _ => split path ≠ [] ∧ dotdot ∉ split path

def digits (text : Name) : Option ℕ :=
  if text ≠ [] ∧ text.all Char.isDigit then
    some (text.foldl (fun n c => n * 10 + (c.toNat - '0'.toNat)) 0)
  else none

/-- `binary_to_integer/1`. -/
def toInteger (text : Name) : Option ℤ :=
  match text with
  | '-' :: rest => (digits rest).map fun n => -(n : ℤ)
  | '+' :: rest => (digits rest).map fun n => (n : ℤ)
  | _ => (digits text).map fun n => (n : ℤ)

/-- `list_to_pid/1`. -/
def toPid (text : Name) : Option Pid :=
  match text with
  | '<' :: rest =>
      if rest.getLast? = some '>' then
        match splitOn '.' rest.dropLast with
        | [node, id, serial] => do
            let node ← digits node
            let id ← digits id
            let serial ← digits serial
            return .proc node id serial
        | _ => none
      else none
  | _ => none

inductive BadRecord
  | empty
  | badHeader
  | badOp
  | badOpLine
  | escapesRoot (path : Name)
  deriving DecidableEq

inductive Kind
  | live
  | orphan
  deriving DecidableEq

/-- `atom_to_binary/1`, which is UTF-8. -/
def atomToBinary (root : RootId) : Name := (utf8 root).map fun b => Char.ofNat b.toNat

/-- `root/2`. -/
def rootOf (roots : List RootId) (text : Name) : Option RootId :=
  roots.find? fun root => atomToBinary root = text

def decodeOp (roots : List RootId) (line : Name) : Except BadRecord RecoverOp :=
  match splitOn ' ' line with
  | [v, root, path] =>
      match verb v, rootOf roots root, unescape path with
      | some v, some root, some path =>
          if safeRelative path then .ok (v.on root path) else .error (.escapesRoot path)
      | _, _, _ => .error .badOp
  | _ => .error .badOpLine

def decodeOps (roots : List RootId) : List Name → Except BadRecord (List RecoverOp)
  | [] => .ok []
  | line :: lines => do
      let op ← decodeOp roots line
      let ops ← decodeOps roots lines
      return op :: ops

/-- What is read back of a record. -/
structure Record where
  id : RequestId
  req : Req
  kind : Kind

def relpathOf (ops : List RecoverOp) (root : RootId) : Name :=
  match ops with
  | .removeTree r path :: _ => if r = root then path else []
  | _ => []

section
variable (roots : List RootId) (incarnation : Name) (gen : ℕ)

/-- A pid means something where the incarnation is ours. -/
def decodeOwner (root : RootId) (inc genB pidB spidB : Name) (id : RequestId)
    (ops : List RecoverOp) : Except BadRecord Record :=
  let base : Req := {
    stage := .queued
    guardian := .reaper gen
    steward := none
    mon := none
    smon := none
    root
    relpath := relpathOf ops root
    ops
    actions := []
    nextToken := 1
    nextSeq := 1
    ledger := ∅
    finished := false
    cleanup := none
    attempts := 0
    tries := 0
    gen }
  if inc = incarnation then
    match toInteger genB, toPid pidB with
    | some _, some pid => .ok ⟨id, { base with guardian := pid, steward := toPid spidB }, .live⟩
    | _, _ => .error .badHeader
  else .ok ⟨id, base, .orphan⟩

def decodeBody (root : RootId) (inc genB pidB spidB : Name) (id : RequestId) (lines : List Name) :
    Except BadRecord Record :=
  match decodeOps roots lines with
  | .ok ops => decodeOwner incarnation gen root inc genB pidB spidB id ops
  | .error e => .error e

def decodeHeader (root : RootId) (header : Name) (lines : List Name) : Except BadRecord Record :=
  match splitOn ' ' header with
  | [v, inc, genB, pidB, spidB, id] =>
      if v = "v2".toList then decodeBody roots incarnation gen root inc genB pidB spidB id lines
      else .error .badHeader
  | [v, inc, genB, pidB, id] =>
      if v = "v1".toList then decodeBody roots incarnation gen root inc genB pidB ['-'] id lines
      else .error .badHeader
  | _ => .error .badHeader

def decodeRecord (root : RootId) (text : List Char) : Except BadRecord Record :=
  match splitTrim '\n' text with
  | [] => .error .empty
  | header :: lines => decodeHeader roots incarnation gen root header lines

end

/-! ## What is on disk -/

/-- A root: its journal, its quarantine and its own names, and whether the first two can be listed.
The text of a file that cannot be read is `none`. -/
structure RootDir where
  journal : List (Name × Option (List Char))
  journalListed : Bool
  quarantine : List Name
  quarantineListed : Bool
  names : List Name
  /-- whether a record can be moved to the quarantine -/
  moves : Name → Bool

abbrev Disk := List (RootId × RootDir)

def suffix : Name := ".rec".toList
def reqPrefix : Name := "req-".toList

/-- `filename:rootname/1`, of the name of a record. -/
def rootname (name : Name) : Name := name.take (name.length - suffix.length)

def RootDir.records (d : RootDir) : List (Name × Option (List Char)) :=
  d.journal.filter fun f => suffix.isSuffixOf f.1

/-- The records that are listed. -/
def RootDir.listed (d : RootDir) : List (Name × Option (List Char)) :=
  if d.journalListed then d.records else []

namespace State

/-- `is_process_alive/1`. -/
def isAlive (s : State) (p : Pid) : Bool := p ∉ s.gone

def adoptSteward (s : State) (id : RequestId) (r : Req) : State :=
  match r.steward with
  | some steward =>
      if s.isAlive steward then
        ((s.monitor steward).tell steward (.adoptRequest r.gen id)).putReq id
          { r with smon := some s.nextRef }
      else s.putReq id r
  | none => s.putReq id r

def adoptOrOrphan (s : State) (rec : Record) : State :=
  let r := rec.req
  let orphan := { r with stage := Stage.queued, mon := none, gen := s.gen }
  match rec.kind with
  | .orphan => s.schedule rec.id orphan
  | .live =>
      if s.isAlive r.guardian then
        let r := { r with stage := .pending, mon := some s.nextRef, gen := s.gen }
        ((s.monitor r.guardian).ask rec.id r).adoptSteward rec.id r
      else s.schedule rec.id orphan

/-- With the records it has moved to the quarantine. -/
def sweepOne (root : RootId) (d : RootDir) (sm : State × List Name)
    (f : Name × Option (List Char)) : State × List Name :=
  match f.2 with
  | none => sm
  | some text =>
      match decodeRecord sm.1.roots sm.1.incarnation sm.1.gen root text with
      | .error _ =>
          ({ sm.1 with quarantined := sm.1.quarantined + 1 },
            if d.moves f.1 then sm.2 ++ [f.1] else sm.2)
      | .ok rec => (sm.1.adoptOrOrphan rec, sm.2)

def quarantinedPaths (d : RootDir) (moved : List Name) : List Name :=
  if d.quarantineListed then
    ((d.quarantine ++ moved).filter fun n => suffix.isSuffixOf n).map fun n =>
      reqPrefix ++ rootname n
  else []

/-- The request directories of `root` that a request in the registry names. -/
def relpaths (s : State) (root : RootId) : List Name :=
  (s.reqs.entries.filter fun e => e.2.root = root).map fun e => e.2.relpath

/-- The directories it removes. -/
def sweepUnrecorded (s : State) (root : RootId) (d : RootDir) (moved : List Name) : List Name :=
  d.names.filter fun n =>
    reqPrefix.isPrefixOf n && n ∉ s.relpaths root ++ quarantinedPaths d moved

/-- With the roots it has removed something of. -/
def sweepRoot (sr : State × List (RootId × RootDir × List Name)) (e : RootId × RootDir) :
    State × List (RootId × RootDir × List Name) :=
  let swept := e.2.listed.foldl (sweepOne e.1 e.2) (sr.1, [])
  (swept.1, sr.2 ++ [(e.1, e.2, swept.1.sweepUnrecorded e.1 e.2 swept.2)])

/-- What `init/1` starts with, after the reaper `s`. -/
def fresh (s : State) (opts : Settings) (disk : Disk) : State where
  roots := disk.map (·.1)
  reqs := ∅
  mons := ∅
  queue := []
  jobs := ∅
  quarantined := 0
  gen := s.gen + 1
  incarnation := s.incarnation
  opts := opts
  monitors := ∅
  timers := []
  gone := s.gone
  nextRef := s.nextRef
  nextJob := s.nextJob
  spawned := []
  effects := []
  crashed := false

/-- `sweep/1`. -/
def sweep (s : State) (disk : Disk) : State × List (RootId × RootDir × List Name) :=
  disk.foldl sweepRoot (s, [])

end State

end ErlangWasm.Reaper
