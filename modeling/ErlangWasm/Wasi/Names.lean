import ErlangWasm.Reasoning.Halting
import ErlangWasm.Reasoning.Unicode
import Mathlib.Data.List.TakeWhile

/-!
# Path resolution

`safe_relative_path` walks a path below a root, the links in it included, and answers the names it
came to or that the path is unsafe.  `resolve` puts the root before them.

A joined file name is the list of its components, which is what its string is split into: the
separators that are redundant are gone from both.
-/

namespace ErlangWasm.Wasi

open Reasoning.Halting
open Reasoning.Unicode

/-! ## File names -/

abbrev Name := List Char

def dot : Name := ['.']
def dotdot : Name := ['.', '.']
def slash : Name := ['/']

/-- The names between separators, from the rest of a string and the name so far. -/
def splitNames : List Char → Name → List Name
  | [], [] => []
  | [], name => [name]
  | c :: cs, name =>
      if c = '/' then
        if name = [] then splitNames cs [] else name :: splitNames cs []
      else splitNames cs (name ++ [c])

/-- `filename:split/1`. -/
def split (path : List Char) : List Name :=
  match path with
  | '/' :: rest => slash :: splitNames rest []
  | _ => splitNames path []

/-- `filename:pathtype/1`, where there are no drives. -/
def isRelative (path : List Char) : Bool :=
  match path with
  | '/' :: _ => false
  | _ => true

/-- `filename:join/2` of a joined name and a string. -/
def join (dir : List Name) (path : List Char) : List Name :=
  if isRelative path then dir ++ split path else split path

/-- `filename:dirname/1`. -/
def dirname (path : List Char) : List Char :=
  if '/' ∈ path then
    match (path.reverse.dropWhile (· ≠ '/')).dropWhile (· = '/') with
    | [] => slash
    | dir => dir.reverse
  else dot

/-- `string:trim(Path, trailing, "/")`. -/
def trimSlashes (path : List Char) : List Char := (path.reverse.dropWhile (· = '/')).reverse

/-! ## Walking -/

/-- What is still to walk: a name, or the mark behind the names of a link. -/
inductive Seg
  | name (s : Name)
  | clear
  deriving DecidableEq

structure State where
  segs : List Seg
  seen : List (List Name)
  acc : List Name

/-- What `prim_file:read_link/1` answers `{ok, Link}` for, with the link. -/
abbrev ReadLink := List Name → Option (List Char)

/-- `srp_segment/5`; `none` is `unsafe`. -/
def srpSegment (read : ReadLink) (cwd : List Name) (seg : Name) (segs : List Seg)
    (seen : List (List Name)) (acc : List Name) : State ⊕ Option (List Name) :=
  match read (cwd ++ acc ++ [seg]) with
  | some link =>
      let full := join (cwd ++ acc) link
      if full ∈ seen then .inr none
      else .inl ⟨(split link).map .name ++ .clear :: segs, full :: seen, acc⟩
  | none => .inl ⟨segs, seen, acc ++ [seg]⟩

/-- `srp/4`, one call of it. -/
def srp (read : ReadLink) (cwd : List Name) : State → State ⊕ Option (List Name)
  | ⟨[], _, acc⟩ => .inr (some acc)
  | ⟨.name s :: segs, seen, acc⟩ =>
      if s = dot then .inl ⟨segs, seen, acc⟩
      else if s = dotdot then
        if acc = [] then .inr none else .inl ⟨segs, seen, acc.dropLast⟩
      else if isRelative s then srpSegment read cwd s segs seen acc
      else .inr none
  | ⟨.clear :: segs, _, acc⟩ => .inl ⟨segs, [], acc⟩

/-- The components of the root; the empty one is ".". -/
def rootNames (root : List Char) : List Name := if root = [] then [dot] else split root

def start (path : List Char) : State := ⟨(split path).map .name, [], []⟩

/-- `safe_relative_path/2`, within some number of steps. -/
def safeRelativePath (read : ReadLink) (fuel : ℕ) (path root : List Char) :
    Option (Option (List Name)) :=
  runFor (srp read (rootNames root)) fuel (start path)

/-! ## Resolving -/

/-- What stands somewhere in the host's file system. -/
inductive Entry
  | file
  | dir
  | link (target : List Char)
  /-- A link to a name that is not in the native encoding. -/
  | rawLink (target : List UInt8)
  deriving DecidableEq

def Entry.isLink : Entry → Bool
  | .link _ | .rawLink _ => true
  | _ => false

/-- Where a path leads from a directory if none of its names is a link.  There is nothing above
`/`. -/
def located : List Name → List Name → List Name
  | loc, [] => loc
  | loc, s :: names =>
      if s = slash then located [slash] names
      else if s = dot then located loc names
      else if s = dotdot then located (if loc = [slash] then loc else loc.dropLast) names
      else located (loc ++ [s]) names

/-- A host: its entries where they stand, and the directory that relative paths are in. -/
structure Host where
  entries : List Name → Option Entry
  cwd : List Name

/-- The entry at a path that has no link before its last name. -/
def Host.entry (host : Host) (path : List Name) : Option Entry := host.entries (located host.cwd path)

/-- `prim_file:read_link/1`, which answers an error for a raw link. -/
def Host.readLink (host : Host) : ReadLink := fun path =>
  match host.entry path with
  | some (.link target) => some target
  | _ => none

inductive Errno
  | einval
  | enametoolong
  | enotcapable
  | enoent
  deriving DecidableEq

abbrev Resolved := Except Errno (List Name)

/-- `names_something/1` and `exists/1`: `read_link_info` of what is not followed. -/
def exists? (host : Host) (path : List Name) : Bool := (host.entry path).isSome

/-- `resolve_checked/3`; no answer when the steps do not suffice. -/
def resolveChecked (host : Host) (fuel : ℕ) (root path : List Char) (mustExist : Bool) :
    Option Resolved :=
  (safeRelativePath host.readLink fuel path root).map fun
    | none => .error .enotcapable
    | some safeRel =>
        let full := split root ++ safeRel
        if mustExist && !exists? host full then .error .enoent else .ok full

/-- `resolve_last_1/4`. -/
def resolveLast1 (host : Host) (fuel : ℕ) (root path path0 : List Char) (mustExist : Bool) :
    Option Resolved :=
  if path = [] then resolveChecked host fuel root path0 mustExist
  else
    match (split path).getLast? with
    | none => none
    | some base =>
        if base = dot ∨ base = dotdot ∨ base = slash then
          resolveChecked host fuel root path mustExist
        else
          -- there is nowhere to put a name in a parent that does not exist
          (resolveChecked host fuel root (dirname path) true).map fun
            | .error e => .error e
            | .ok parent =>
                let full := join parent base
                if mustExist && !exists? host full then .error .enoent else .ok full

def resolveLast (host : Host) (fuel : ℕ) (root path0 : List Char) (mustExist : Bool) :
    Option Resolved :=
  resolveLast1 host fuel root (trimSlashes path0) path0 mustExist

inductive Follow
  | follow
  | nofollow
  deriving DecidableEq

/-- `resolve/4`. -/
def resolve (host : Host) (fuel : ℕ) (root : List Char) (guestPath : List UInt8) (mustExist : Bool)
    (how : Follow) : Option Resolved :=
  if guestPath = [] then some (.error .einval)
  else
    match utf8? guestPath with
    | none => some (.error .einval)
    | some path =>
        if 4096 < path.length then some (.error .enametoolong)
        else
          match how with
          | .follow => resolveChecked host fuel root path mustExist
          | .nofollow => resolveLast host fuel root path mustExist

end ErlangWasm.Wasi

/-!
## Names of a path

What `filename:split/1` makes of a path whose trailing separators are trimmed, and of its directory.
-/

namespace ErlangWasm.Wasi

variable {path : List Char} {name : Name}

/-! ## Splitting -/

theorem splitNames_append (path rest : List Char) (name : Name) :
    splitNames (path ++ '/' :: rest) name = splitNames path name ++ splitNames rest [] := by
  induction path generalizing name with
  | nil => cases name <;> simp [splitNames]
  | cons c path ih =>
    rw [List.cons_append, splitNames, splitNames]
    by_cases hc : c = '/'
    · rw [if_pos hc, if_pos hc]
      by_cases hname : name = []
      · rw [if_pos hname, if_pos hname, ih]
      · rw [if_neg hname, if_neg hname, ih, List.cons_append]
    · rw [if_neg hc, if_neg hc, ih]

/-- Separators alone are no name. -/
theorem splitNames_slashes {slashes : List Char} (h : ∀ c ∈ slashes, c = '/') :
    splitNames slashes [] = [] := by
  induction slashes with
  | nil => rfl
  | cons c slashes ih =>
    rw [splitNames, if_pos (h c List.mem_cons_self), if_pos rfl]
    exact ih fun d hd => h d (List.mem_cons_of_mem c hd)

/-- Nor do they change what is before them. -/
theorem splitNames_trailing {slashes : List Char} (h : ∀ c ∈ slashes, c = '/') (path : List Char)
    (name : Name) : splitNames (path ++ slashes) name = splitNames path name := by
  cases slashes with
  | nil => rw [List.append_nil]
  | cons c slashes =>
    obtain rfl := h c List.mem_cons_self
    have hrest : splitNames slashes [] = [] :=
      splitNames_slashes fun d hd => h d (List.mem_cons_of_mem '/' hd)
    rw [splitNames_append, hrest, List.append_nil]

theorem splitNames_single (h : '/' ∉ path) (hne : name ++ path ≠ []) :
    splitNames path name = [name ++ path] := by
  induction path generalizing name with
  | nil =>
    rw [List.append_nil] at hne ⊢
    cases name with
    | nil => exact absurd rfl hne
    | cons => rfl
  | cons c path ih =>
    have hc : c ≠ '/' := fun hc => h (hc ▸ List.mem_cons_self)
    have heq : name ++ [c] ++ path = name ++ c :: path := by simp
    rw [splitNames, if_neg hc, ih (fun hin => h (List.mem_cons_of_mem c hin)) (by simp), heq]

/-- A name between separators. -/
theorem of_mem_splitNames {s : Name} (hname : '/' ∉ name) (hs : s ∈ splitNames path name) :
    s ≠ [] ∧ '/' ∉ s := by
  induction path generalizing name with
  | nil =>
    cases name with
    | nil => cases hs
    | cons c name =>
      obtain rfl := List.mem_singleton.mp hs
      exact ⟨nofun, hname⟩
  | cons c path ih =>
    rw [splitNames] at hs
    by_cases hc : c = '/'
    · rw [if_pos hc] at hs
      by_cases hempty : name = []
      · rw [if_pos hempty] at hs
        exact ih List.not_mem_nil hs
      · rw [if_neg hempty] at hs
        rcases List.mem_cons.mp hs with rfl | hin
        · exact ⟨hempty, hname⟩
        · exact ih List.not_mem_nil hin
    · rw [if_neg hc] at hs
      refine ih ?_ hs
      simp only [List.mem_append, List.mem_singleton, not_or]
      exact ⟨hname, fun h => hc h.symm⟩

theorem split_slash (rest : List Char) : split ('/' :: rest) = slash :: splitNames rest [] := rfl

theorem split_of_relative (h : isRelative path) : split path = splitNames path [] := by
  unfold split
  split
  · cases h
  · rfl

theorem relative_cons {c : Char} (hc : c ≠ '/') (rest : List Char) : isRelative (c :: rest) := by
  rw [isRelative]
  intro tail h
  exact hc (List.cons.inj h).1

theorem relative_of_not_mem (h : '/' ∉ path) : isRelative path := by
  unfold isRelative
  split
  · exact absurd List.mem_cons_self h
  · rfl

theorem split_single (h : '/' ∉ path) (hne : path ≠ []) : split path = [path] := by
  rw [split_of_relative (relative_of_not_mem h)]
  exact splitNames_single h hne

theorem splitNames_ne_nil (hname : name ≠ []) : splitNames path name ≠ [] := by
  induction path generalizing name with
  | nil =>
    cases name with
    | nil => exact absurd rfl hname
    | cons => exact List.cons_ne_nil _ _
  | cons c path ih =>
    rw [splitNames, if_neg hname]
    split
    · exact List.cons_ne_nil _ _
    · exact ih (by simp)

theorem split_ne_nil (hne : path ≠ []) : split path ≠ [] := by
  cases path with
  | nil => exact absurd rfl hne
  | cons c path =>
    by_cases hc : c = '/'
    · subst hc
      exact List.cons_ne_nil _ _
    · rw [split_of_relative (relative_cons hc path), splitNames, if_neg hc]
      exact splitNames_ne_nil (by simp)

/-- A component is `/` or a name. -/
theorem of_mem_split {s : Name} (hs : s ∈ split path) : s = slash ∨ (s ≠ [] ∧ '/' ∉ s) := by
  by_cases hrel : isRelative path
  · rw [split_of_relative hrel] at hs
    exact .inr (of_mem_splitNames List.not_mem_nil hs)
  · unfold isRelative at hrel
    split at hrel
    · rcases List.mem_cons.mp hs with rfl | hin
      · exact .inl rfl
      · exact .inr (of_mem_splitNames List.not_mem_nil hin)
    · exact absurd rfl hrel

/-- The components before a last separator, and the name behind it. -/
theorem split_append_name (hname : '/' ∉ name) (hne : name ≠ []) :
    split (path ++ '/' :: name) = split (path ++ ['/']) ++ [name] := by
  have hlast : splitNames name [] = [name] := splitNames_single hname hne
  have hnone : splitNames [] [] = [] := rfl
  cases path with
  | nil =>
    rw [List.nil_append, List.nil_append, split_slash, split_slash, hlast]
    rfl
  | cons c path =>
    by_cases hc : c = '/'
    · subst hc
      rw [List.cons_append, List.cons_append, split_slash, split_slash, splitNames_append,
        splitNames_append, hlast, hnone, List.append_nil, List.cons_append]
    · have hrel (rest : List Char) : isRelative (c :: path ++ rest) := relative_cons hc _
      rw [split_of_relative (hrel _), split_of_relative (hrel _), splitNames_append,
        splitNames_append, hlast, hnone, List.append_nil]

/-! ## Trimming -/

theorem trimSlashes_append (path : List Char) :
    ∃ slashes, path = trimSlashes path ++ slashes ∧ ∀ c ∈ slashes, c = '/' := by
  refine ⟨(path.reverse.takeWhile (· = '/')).reverse, ?_, ?_⟩
  · rw [trimSlashes, ← List.reverse_append, List.takeWhile_append_dropWhile, List.reverse_reverse]
  · intro c hc
    have htaken := List.mem_takeWhile_imp (List.mem_reverse.mp hc)
    exact of_decide_eq_true htaken

/-- Trimming keeps the components, unless the path is only separators. -/
theorem split_trimSlashes (h : trimSlashes path ≠ []) : split (trimSlashes path) = split path := by
  obtain ⟨slashes, hpath, hall⟩ := trimSlashes_append path
  generalize trimSlashes path = trimmed at h hpath
  subst hpath
  cases trimmed with
  | nil => exact absurd rfl h
  | cons c trimmed =>
    by_cases hc : c = '/'
    · subst hc
      rw [List.cons_append, split_slash, split_slash, splitNames_trailing hall]
    · rw [split_of_relative (relative_cons hc _), List.cons_append,
        split_of_relative (relative_cons hc _), ← List.cons_append, splitNames_trailing hall]

/-- A path of separators only is the root. -/
theorem split_of_trimSlashes (h : trimSlashes path = []) (hne : path ≠ []) :
    split path = [slash] := by
  obtain ⟨slashes, hpath, hall⟩ := trimSlashes_append path
  rw [h, List.nil_append] at hpath
  subst hpath
  cases path with
  | nil => exact absurd rfl hne
  | cons c path =>
    obtain rfl := hall c List.mem_cons_self
    rw [split_slash, splitNames_slashes fun d hd => hall d (List.mem_cons_of_mem '/' hd)]

theorem trimSlashes_getLast (path : List Char) : (trimSlashes path).getLast? ≠ some '/' := by
  rw [trimSlashes, List.getLast?_reverse]
  intro h
  have hhead := List.head?_dropWhile_not (fun c => decide (c = '/')) path.reverse
  rw [h] at hhead
  simp at hhead

/-! ## The directory -/

theorem exists_name (hin : '/' ∈ path) :
    ∃ dir name, path = dir ++ '/' :: name ∧ '/' ∉ name := by
  induction path with
  | nil => cases hin
  | cons c path ih =>
    by_cases htail : '/' ∈ path
    · obtain ⟨dir, name, rfl, hname⟩ := ih htail
      exact ⟨c :: dir, name, rfl, hname⟩
    · rcases List.mem_cons.mp hin with rfl | h
      · exact ⟨[], path, rfl, htail⟩
      · exact absurd h htail

theorem dirname_append (dir : List Char) (hname : '/' ∉ name) :
    dirname (dir ++ '/' :: name) =
      if trimSlashes dir = [] then slash else trimSlashes dir := by
  have hall : ∀ c ∈ name.reverse, decide (c ≠ '/') = true := by
    intro c hc
    exact decide_eq_true fun h => hname (h ▸ List.mem_reverse.mp hc)
  have hdrop : (dir ++ '/' :: name).reverse.dropWhile (fun c => decide (c ≠ '/')) =
      '/' :: dir.reverse := by
    rw [List.reverse_append, List.reverse_cons, List.append_assoc, List.singleton_append,
      List.dropWhile_append_of_pos hall, List.dropWhile_cons_of_neg (by simp)]
  rw [dirname, if_pos (by simp), hdrop, List.dropWhile_cons_of_pos (by simp), trimSlashes]
  cases hrest : dir.reverse.dropWhile (fun c => decide (c = '/')) with
  | nil => rfl
  | cons c rest => simp

/-- The components of the directory of a trimmed path. -/
theorem split_dirname (hne : path ≠ []) (hlast : path.getLast? ≠ some '/') :
    split (dirname path) = if '/' ∈ path then (split path).dropLast else [dot] := by
  by_cases hin : '/' ∈ path
  · obtain ⟨dir, name, rfl, hname⟩ := exists_name hin
    have hname' : name ≠ [] := by
      rintro rfl
      exact hlast (by simp)
    have htrim : split (if trimSlashes dir = [] then slash else trimSlashes dir) =
        split (dir ++ ['/']) := by
      by_cases hempty : trimSlashes dir = []
      · rw [if_pos hempty]
        by_cases hdir : dir = []
        · rw [hdir]
          rfl
        · obtain ⟨slashes, hdirs, hall⟩ := trimSlashes_append (dir ++ ['/'])
          have hnil : trimSlashes (dir ++ ['/']) = [] := by
            rw [trimSlashes, List.reverse_append]
            exact hempty
          rw [split_of_trimSlashes hnil (by simp)]
          rfl
      · have hsame : trimSlashes (dir ++ ['/']) = trimSlashes dir := by
          rw [trimSlashes, List.reverse_append]
          rfl
        rw [if_neg hempty, ← hsame]
        exact split_trimSlashes (by rwa [hsame])
    rw [if_pos hin, dirname_append dir hname, htrim, split_append_name hname hname',
      List.dropLast_concat]
  · rw [if_neg hin, dirname, if_neg hin]
    rfl

end ErlangWasm.Wasi
