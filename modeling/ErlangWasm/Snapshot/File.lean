import ErlangWasm.Snapshot.Term

/-!
# Snapshot files

The container of an image: a header, a digest, a codec and nine sections, each a tag, a length and
its contents.  `encode` writes it, `decode` reads what may be anybody's bytes, and `representable`
is what is asked before an image is written.  `sha256`, zlib and the atoms of the node are what the
node provides.
-/

namespace ErlangWasm.Snapshot

open Reasoning.Bytes

/-- What `zlib:safeInflate/2` gives, one call after another: the outputs it continued after, and
the last one, if it did not raise. -/
structure Inflation where
  continued : List Bytes
  finished : Option Bytes

/-- The node a file is written and read on. -/
structure Node where
  sha256 : Bytes → Bytes
  compress : Bytes → Bytes
  inflate : Bytes → Inflation
  /-- The names of the atoms that exist. -/
  atoms : Bytes → Bool
  sha256_length : ∀ b, (sha256 b).length = 32
  lossless : ∀ b, ∃ last, (inflate (compress b)).finished = some last ∧
    (inflate (compress b)).continued.flatten ++ last = b

/-- `limits()`. -/
structure Limits where
  stored : ℕ
  inflated : ℕ
  depth : ℕ
  nodes : ℕ
  deriving DecidableEq, Repr

/-- `#{pages, runs}`. -/
structure Mem where
  pages : ℕ
  runs : List (ℕ × Bytes)
  deriving DecidableEq

/-- `parts()`. -/
structure Parts where
  hash : Bytes
  version : Bytes
  key : Term
  shape : Term
  globals : Term
  tables : Term
  mems : List Mem
  dropped : Term
  hooks : Term
  deriving DecidableEq

/-- The sections of an image. -/
inductive Key
  | hash
  | version
  | key
  | shape
  | globals
  | tables
  | mems
  | dropped
  | hooks
  deriving DecidableEq, Repr

namespace Key

/-- `?S_HASH` to `?S_HOOKS`. -/
def tag : Key → UInt8
  | hash => 1
  | version => 2
  | key => 3
  | shape => 4
  | globals => 5
  | tables => 6
  | mems => 7
  | dropped => 8
  | hooks => 9

/-- `Want`, in `complete/1`. -/
def want : List Key := [hash, version, key, shape, globals, tables, mems, dropped, hooks]

def name : Key → String
  | hash => "hash"
  | version => "version"
  | key => "key"
  | shape => "shape"
  | globals => "globals"
  | tables => "tables"
  | mems => "mems"
  | dropped => "dropped"
  | hooks => "hooks"

end Key

/-- `key_for/1`. -/
def keyFor (tag : UInt8) : Option Key :=
  Key.want.find? (·.tag = tag)

def u32Max : ℕ := 2 ^ 32 - 1

/-! ## Writing -/

def magic : Bytes := ascii "WASMIMG" ++ [0]

/-- `?FORMAT` and `?IMAGE_ABI`. -/
def format : ℕ := 1
def imageAbi : ℕ := 1

/-- `?CODEC_RAW` and `?CODEC_ZLIB`. -/
def codecRaw : UInt8 := 0
def codecZlib : UInt8 := 1

def compressAbove : ℕ := 4096

/-- `compress/1`. -/
def compress (node : Node) (body : Bytes) : UInt8 × Bytes :=
  if compressAbove < body.length then (codecZlib, node.compress body) else (codecRaw, body)

def sect (tag : UInt8) (bin : Bytes) : Bytes := tag :: (be 4 bin.length ++ bin)

/-- `{maps:get(pages, M), maps:get(runs, M)}`. -/
def Mem.term (m : Mem) : Term :=
  .tuple [.int m.pages, .list (m.runs.map fun run => .tuple [.int run.1, .binary run.2])]

def Parts.memsTerm (p : Parts) : Term := .list (p.mems.map Mem.term)

/-- `body/1`. -/
def body (p : Parts) : Option Bytes :=
  (term p.key).bind fun key =>
  (term p.shape).bind fun shape =>
  (term p.globals).bind fun globals =>
  (term p.tables).bind fun tables =>
  (term p.memsTerm).bind fun mems =>
  (term p.dropped).bind fun dropped =>
  (term p.hooks).map fun hooks =>
    sect Key.hash.tag p.hash ++ sect Key.version.tag p.version ++ sect Key.key.tag key ++
      sect Key.shape.tag shape ++ sect Key.globals.tag globals ++ sect Key.tables.tag tables ++
      sect Key.mems.tag mems ++ sect Key.dropped.tag dropped ++ sect Key.hooks.tag hooks

/-- `<<Codec, (byte_size(Body)):32, Stored/binary>>`. -/
def payloadOf (node : Node) (body : Bytes) : Bytes :=
  (compress node body).1 :: (be 4 body.length ++ (compress node body).2)

/-- The header and the digest in front of a payload. -/
def imageOf (node : Node) (payload : Bytes) : Bytes :=
  magic ++ be 2 format ++ be 4 imageAbi ++ be 4 payload.length ++ node.sha256 payload ++ payload

/-- `encode/1`; a value that cannot be written raises. -/
def encode (node : Node) (p : Parts) : Option Bytes :=
  (body p).map fun b => imageOf node (payloadOf node b)

/-! ## Reading -/

/-- What a function of the decoder does: it answers `{ok, _}` or `{error, _}`, or raises. -/
inductive Answer (α : Type)
  | ok (a : α)
  | error (e : Error)
  | raised
  deriving DecidableEq

def Answer.refuse {α : Type} (kind : ErrorKind) (msg : String) (ctx : List (String × Detail)) :
    Answer α :=
  .error { kind := kind, msg := msg, ctx := ctx }

/-- The value of a decoded section, by its key. -/
abbrev Sections := Key → Option Term

/-- `{P, Rs}` with a page count and runs of the right shape. -/
def runOf : Term → Option (ℕ × Bytes)
  | .tuple [.int o, .binary b] => if 0 ≤ o then some (o.toNat, b) else none
  | _ => none

def memOf : Term → Option Mem
  | .tuple [.int p, .list rs] =>
      if 0 ≤ p then (rs.mapM runOf).map fun runs => { pages := p.toNat, runs := runs } else none
  | _ => none

/-- The parts of a complete image, but for its memories. -/
def Sections.parts (acc : Sections) (mems : List Mem) : Option Parts :=
  (acc .hash).bind fun hash =>
  (acc .version).bind fun version =>
  (acc .key).bind fun key =>
  (acc .shape).bind fun shape =>
  (acc .globals).bind fun globals =>
  (acc .tables).bind fun tables =>
  (acc .dropped).bind fun dropped =>
  (acc .hooks).bind fun hooks =>
    match hash, version with
    | .binary hash, .binary version =>
        some
          { hash := hash
            version := version
            key := key
            shape := shape
            globals := globals
            tables := tables
            mems := mems
            dropped := dropped
            hooks := hooks }
    | _, _ => none

/-- `mems_shaped/1`: `lists:all/2` raises on what is not a list. -/
def memsShaped (acc : Sections) : Answer Parts :=
  match acc .mems with
  | some (.list mems) =>
      match mems.mapM memOf with
      | some mems =>
          match acc.parts mems with
          | some p => .ok p
          | none => .raised
      | none => .refuse .snapshotCorrupt "a memory in the image is malformed" []
  | some _ => .raised
  | none => .refuse .snapshotCorrupt "the image has no memories section" []

/-- `complete/1`. -/
def complete (acc : Sections) : Answer Parts :=
  match Key.want.filter fun k => (acc k).isNone with
  | [] => memsShaped acc
  | missing =>
      .refuse .snapshotCorrupt "the image is missing a section"
        [("missing", .names (missing.map Key.name))]

/-- `value/4`. -/
def value (atoms : Bytes → Bool) (k : Key) (bin : Bytes) (depth nodes : ℕ) : Reading Term :=
  match k with
  | .tables => untables atoms depth bin nodes
  | _ => unterm atoms depth bin nodes

/-- `section_value/5`: the section's value and the nodes left. -/
def sectionValue (atoms : Bytes → Bool) (k : Key) (bin : Bytes) (depth nodes : ℕ) :
    Except Error (Term × ℕ) :=
  match k with
  | .hash =>
      if bin.length = 32 then .ok (.binary bin, nodes)
      else refuse .snapshotCorrupt "the module hash is not 32 bytes" []
  | .version => .ok (.binary bin, nodes)
  | k =>
      match value atoms k bin depth nodes with
      | .ok (v, [], nodes) => .ok (v, nodes)
      | .ok (_, _ :: _, _) =>
          refuse .snapshotCorrupt "a section has trailing bytes" [("section", .nat k.tag.toNat)]
      | .error e => .error e

/-- `section/4`. -/
def section' (atoms : Bytes → Bool) (depth : ℕ) (tag : UInt8) (bin : Bytes) (acc : Sections)
    (nodes : ℕ) : Except Error (Sections × ℕ) :=
  match keyFor tag with
  | none =>
      refuse .snapshotCorrupt "the image has an unknown section"
        [("section", .nat tag.toNat), ("key", .unknown tag)]
  | some k =>
      if (acc k).isSome then
        refuse .snapshotCorrupt "the image has a duplicate section" [("section", .nat tag.toNat)]
      else
        match sectionValue atoms k bin depth nodes with
        | .ok (v, nodes) => .ok (Function.update acc k (some v), nodes)
        | .error e => .error e

/-- One section at the head of the body: its tag, its contents and what follows. -/
def splitSection : Bytes → Option (UInt8 × Bytes × Bytes)
  | [] => none
  | tag :: r =>
      ((readBe 4 r).bind fun (len, r) => splitAt? len r).map fun (data, tail) => (tag, data, tail)

/-- `sections/3`, where every section takes at least one byte off the body; `fuel` is its
length. -/
def sections (atoms : Bytes → Bool) (depth : ℕ) : ℕ → Bytes → Sections → ℕ → Answer Parts
  | _, [], acc, _ => complete acc
  | 0, _ :: _, _, _ => .raised
  | fuel + 1, b :: bs, acc, nodes =>
      match splitSection (b :: bs) with
      | some (tag, data, tail) =>
          match section' atoms depth tag data acc nodes with
          | .ok (acc, nodes) => sections atoms depth fuel tail acc nodes
          | .error e => .error e
      | none => .refuse .snapshotCorrupt "a section runs past the end of the image" []

def decompressLengthMsg : String := "the image did not decompress to its stated length"

/-- `stream_inflate/5`, with the output so far. -/
def streamInflate (raw : ℕ) (finished : Option Bytes) :
    List Bytes → Bytes → Except Error Bytes
  | out :: outs, acc =>
      if raw < (acc ++ out).length then
        refuse .snapshotCorrupt decompressLengthMsg [("expected", .nat raw)]
      else streamInflate raw finished outs (acc ++ out)
  | [], acc =>
      match finished with
      | some out =>
          if (acc ++ out).length = raw then .ok (acc ++ out)
          else refuse .snapshotCorrupt decompressLengthMsg [("expected", .nat raw)]
      -- `catch _:_`
      | none => refuse .snapshotCorrupt "the image did not decompress" []

/-- `inflate/3`. -/
def inflate (node : Node) (codec : UInt8) (stored : Bytes) (raw : ℕ) : Except Error Bytes :=
  if codec = codecRaw ∧ stored.length = raw then .ok stored
  else if codec = codecZlib then
    streamInflate raw (node.inflate stored).finished (node.inflate stored).continued []
  else
    refuse .snapshotCodecUnknown "this image uses a codec this build has not"
      [("codec", .nat codec.toNat)]

/-- `payload/2`, up to `sections/3`: the body of the image. -/
def bodyOf (node : Node) (payload : Bytes) (lim : Limits) : Except Error Bytes :=
  match payload with
  | [] => refuse .snapshotNotAnImage "the image has no payload header" []
  | codec :: r =>
      match readBe 4 r with
      | some (raw, stored) =>
          if raw ≤ lim.inflated then inflate node codec stored raw
          else
            refuse .snapshotTooLarge "the image's inflated size exceeds the ceiling"
              [("claimed", .nat raw), ("allowed", .nat lim.inflated)]
      | none => refuse .snapshotNotAnImage "the image has no payload header" []

def payload (node : Node) (bin : Bytes) (lim : Limits) : Answer Parts :=
  match bodyOf node bin lim with
  | .ok b => sections node.atoms lim.depth b.length b (fun _ => none) lim.nodes
  | .error e => .error e

/-- `digest/3`. -/
def digest (node : Node) (expected bin : Bytes) (lim : Limits) : Answer Parts :=
  if node.sha256 bin = expected then payload node bin lim
  else .refuse .snapshotCorrupt "the image does not match its digest" []

def notAnImage : Answer Parts :=
  .refuse .snapshotNotAnImage "this is not a snapshot image" []

/-- `decode/2` after the magic and the two versions. -/
def decodeStored (node : Node) (r : Bytes) (lim : Limits) : Answer Parts :=
  match (readBe 4 r).bind fun (len, r) => (splitAt? 32 r).map fun (d, rest) => (len, d, rest) with
  | some (len, expected, rest) =>
      if lim.stored < len then
        .refuse .snapshotTooLarge "the image's stored payload exceeds the ceiling"
          [("claimed", .nat len), ("allowed", .nat lim.stored)]
      else if rest.length = len then digest node expected rest lim
      else
        .refuse .snapshotTruncated "the image is not its stated length"
          [("expected", .nat len), ("got", .nat rest.length)]
  | none => notAnImage

/-- `decode/2`. -/
def decode (node : Node) (bin : Bytes) (lim : Limits) : Answer Parts :=
  match (strip? magic bin).bind (readBe 2) with
  | some (found, r) =>
      match readBe 4 r with
      | some (abi, r) =>
          if found ≠ format then
            .refuse .snapshotFormatUnknown "this image was written by another format"
              [("found", .nat found), ("expected", .nat format)]
          else if abi ≠ imageAbi then
            .refuse .snapshotAbiMismatch "this image was written by another runtime"
              [("found", .nat abi), ("expected", .nat imageAbi)]
          else decodeStored node r lim
      | none => notAnImage
  | none => notAnImage

/-! ## What is asked before an image is written -/

/-- `length_ok/2`. -/
def lengthOk (len n : ℕ) : Except Error ℕ :=
  if u32Max < len then
    refuse .snapshotNotRepresentable "a collection is longer than the format's 32-bit field"
      [("length", .nat len)]
  else .ok (n - 1)

/-- `walk_term/3` on a value with no items, within both ceilings. -/
def Scalar.walk (n : ℕ) : Scalar → Except Error ℕ
  | .int i =>
      if -2 ^ 63 ≤ i ∧ i < 2 ^ 63 then .ok (n - 1)
      else
        refuse .snapshotNotRepresentable "an integer does not fit the format's 64-bit field"
          [("value", .int i)]
  | .float _ => .ok (n - 1)
  | .binary b => lengthOk b.length n
  | .atom _ => .ok (n - 1)
  | .improper => refuse .snapshotNotRepresentable "an improper list cannot be encoded" []
  | .other => refuse .snapshotNotRepresentable noEncodingMsg []

mutual

/-- `walk_term/3`. -/
def walkTerm : Term → ℕ → ℕ → Except Error ℕ
  | t, depth, n =>
      if depth = 0 then tooDeep
      else if n = 0 then tooManyNodes
      else
        match t with
        | .scalar s => s.walk n
        | .coll k items =>
            match lengthOk (k.size items) n with
            | .ok n => walkChildren items (depth - 1) n
            | .error e => .error e

/-- `walk_children/3`. -/
def walkChildren : List Term → ℕ → ℕ → Except Error ℕ
  | [], _, n => .ok n
  | t :: ts, depth, n =>
      match walkTerm t depth n with
      | .ok n => walkChildren ts depth n
      | .error e => .error e

end

/-- `walk_terms/3`. -/
def walkTerms : List Term → ℕ → ℕ → Except Error Unit
  | [], _, _ => .ok ()
  | t :: ts, depth, n =>
      match walkTerm t depth n with
      | .ok n => walkTerms ts depth n
      | .error e => .error e

/-- `representable_size/2`. -/
def representableSize (node : Node) (p : Parts) (lim : Limits) : Answer Unit :=
  match body p with
  | none => .raised
  | some b =>
      let psz := 1 + 4 + (compress node b).2.length
      if lim.inflated < b.length then
        .refuse .snapshotTooLarge "the image's inflated size exceeds the ceiling"
          [("size", .nat b.length), ("allowed", .nat lim.inflated)]
      else if lim.stored < psz then
        .refuse .snapshotTooLarge "the image's stored payload exceeds the ceiling"
          [("size", .nat psz), ("allowed", .nat lim.stored)]
      else .ok ()

/-- `representable/2`. -/
def representable (node : Node) (p : Parts) (lim : Limits) : Answer Unit :=
  match walkTerms [p.key, p.shape, p.globals, p.tables, p.dropped, p.hooks] lim.depth lim.nodes with
  | .ok _ => representableSize node p lim
  | .error e => .error e

end ErlangWasm.Snapshot
