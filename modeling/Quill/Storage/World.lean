import Quill.Storage.Cas
import Quill.Storage.Manifest

/-!
# The state of a server and what it depends on

`Setup` collects what is fixed while a server runs: the hash function, the JSON
encodings of `serde_json`, the storage root, the two time-to-live values, the prefixes of the
configured upstreams in their order, and the process id.

`World` is the file system together with the in-memory maps of the process. Clock readings
are inputs: `ticks` lists how far the monotonic clock advances before each further
reading, `wall` lists the next readings of the wall clock in nanoseconds, which may
repeat or go back. `Log` records what cannot be read off the other fields: the calls
made to upstreams, the byte strings renamed into the store, and whether a file-system
step failed.
-/

namespace Quill

open Files Cas

/-! ## Records of the stores -/

/-- An entry of `_local_tags.json`. -/
structure LocalTagMeta where
  digest : Str
  pushedAt : Nat
  deriving DecidableEq

/-- The tags of one repository, as a sidecar holds them. -/
abbrev OnDiskTags := AList fun _ : Str => LocalTagMeta

/-- An entry of the metadata cache. -/
structure BlobMeta where
  path : Path
  size : Nat
  cachedAt : Nat

/-- The record of a session on disk. -/
structure UploadMeta where
  session : Str
  repo : Str
  bytesReceived : Nat
  startedAt : Nat
  lastSeen : Nat
  deriving DecidableEq

/-! ## Setup -/

/-- The encodings of `serde_json` that the registry uses. -/
structure Serde where
  fromSlice : Bytes → Option Json
  tagsToVec : OnDiskTags → Bytes
  tagsFromStr : Bytes → Option OnDiskTags
  uploadMetaToVec : UploadMeta → Bytes
  uploadMetaFromSlice : Bytes → Option UploadMeta
  upstreamTagsToVec : (AList fun _ : Str => Str) → Bytes
  /-- A sidecar reads back as the same map. -/
  tags_roundtrip : ∀ m, ∃ m', tagsFromStr (tagsToVec m) = some m' ∧
    ∀ tag, m'.lookup tag = m.lookup tag

/-- The configuration of a server, with the hash and the encodings it uses. -/
structure Setup where
  hash : StreamingHash
  serde : Serde
  root : Path
  metaTtl : Nat
  tagTtl : Nat
  upstreams : List Str
  pid : Nat

namespace Setup

/-- The digest of a byte string. -/
def digest (S : Setup) (b : Bytes) : Digest := ⟨S.hash.hex b⟩

/-- `UpstreamRouter::route`: the first configured prefix of the repository name. -/
def route (S : Setup) (repo : Str) : Option Str := S.upstreams.find? fun p => p.isPrefixOf repo

end Setup

/-- A session in memory. -/
structure UploadState (H : StreamingHash) where
  info : UploadMeta
  hasher : H.State
  dataPath : Path
  finalized : Bool

/-! ## World -/

/-- The requests to the upstream. -/
inductive UpstreamCall where
  | resolveTag (repo reference : Str)
  | getManifest (repo reference : Str)
  | streamBlob (repo : Str) (digest : Digest)
  | listTags (repo : Str)
  deriving DecidableEq

/-- What a run has done: its upstream requests, the byte strings it renamed into the store, and
whether a file step failed. -/
structure Log where
  calls : List UpstreamCall
  stored : List Bytes
  ioFailed : Bool

/-- The state of a server: its files, its maps, its clocks and the record of the run. -/
structure World (S : Setup) where
  fs : Fs
  metaCache : AList fun _ : Str × Digest => BlobMeta
  localTags : AList fun _ : Str × Str => LocalTagMeta
  sessions : AList fun _ : Str × Str => UploadState S.hash
  upstreamTags : AList fun _ : Str × Str => Digest × Nat
  now : Nat
  ticks : List Nat
  wall : List Nat
  log : Log

/-- A file system that holds nothing but the directories on the way to the root. -/
def emptyRoot (root : Path) : Fs := (root.tails.filter (· ≠ [])).foldl (fun fs p => fs.set p .dir) .empty

theorem node_foldl_dirs (ps : List Path) (fs : Fs) (q : Path) :
    (ps.foldl (fun fs p => fs.set p .dir) fs).node q = if q ∈ ps then some .dir else fs.node q := by
  induction ps generalizing fs with
  | nil => simp
  | cons p ps ih =>
    rw [List.foldl_cons, ih, Fs.node_set]
    by_cases hq : q ∈ ps
    · simp [hq]
    · by_cases hqp : q = p <;> simp [hq, hqp]

theorem node_emptyRoot (root q : Path) :
    (emptyRoot root).node q = if q <:+ root ∧ q ≠ [] then some .dir else none := by
  have hmem : q ∈ root.tails.filter (· ≠ []) ↔ q <:+ root ∧ q ≠ [] := by simp
  rw [emptyRoot, node_foldl_dirs]
  by_cases h : q <:+ root ∧ q ≠ []
  · rw [if_pos (hmem.mpr h), if_pos h]
  · rw [if_neg fun hq => h (hmem.mp hq), if_neg h]
    rfl

theorem read_emptyRoot (root q : Path) : (emptyRoot root).read q = none := by
  rw [Fs.read_eq_none, node_emptyRoot]
  intro b
  split <;> simp

theorem isDir_emptyRoot {root q : Path} (h : q <:+ root) : (emptyRoot root).isDir q = true := by
  by_cases hq : q = []
  · exact Fs.isDir_iff.mpr (Or.inl hq)
  · exact Fs.isDir_iff.mpr (Or.inr (by rw [node_emptyRoot, if_pos ⟨h, hq⟩]))

/-- A server started on an empty root, with its future clock readings. -/
def World.start (S : Setup) (ticks wall : List Nat) : World S where
  fs := emptyRoot S.root
  metaCache := ∅
  localTags := ∅
  sessions := ∅
  upstreamTags := ∅
  now := 0
  ticks := ticks
  wall := wall
  log := ⟨[], [], false⟩

namespace World

variable {S : Setup} {ε α : Type}

/-- The world at the next reading of the monotonic clock. -/
def tick (w : World S) : World S := { w with now := w.now + w.ticks.headD 0, ticks := w.ticks.tail }

/-- `Instant::now`. -/
def instantNow : Prog (World S) ε Nat := Prog.ofFun fun w => (.ok w.tick.now, w.tick)

/-- `SystemTime::now` or `Utc::now`, in nanoseconds since the epoch. -/
def wallNow : Prog (World S) ε Nat :=
  Prog.ofFun fun w => (.ok (w.wall.headD 0), { w with wall := w.wall.tail })

/-- A file-system step whose every error is a failure. -/
def onFs (m : Prog Fs IoKind α) : Prog (World S) IoKind α :=
  Prog.ofFun fun w =>
    match m.exec w.fs with
    | (.ok a, fs) => (.ok a, { w with fs := fs })
    | (.error e, fs) => (.error e, { w with fs := fs, log := { w.log with ioFailed := true } })

/-- A file-system step for which a missing file is an ordinary answer. -/
def probeFs (m : Prog Fs IoKind α) : Prog (World S) IoKind α :=
  Prog.ofFun fun w =>
    match m.exec w.fs with
    | (.ok a, fs) => (.ok a, { w with fs := fs })
    | (.error e, fs) =>
      (.error e, { w with fs := fs, log := { w.log with ioFailed := w.log.ioFailed || e = .other } })

/-- Record a request to the upstream. -/
def call (c : UpstreamCall) : Prog (World S) ε Unit :=
  modify fun w => { w with log := { w.log with calls := w.log.calls ++ [c] } }

/-- Record a byte string that was renamed into the store. -/
def recordStored (b : Bytes) : Prog (World S) ε Unit :=
  modify fun w => { w with log := { w.log with stored := w.log.stored ++ [b] } }

/-- Rename a file into the store. -/
def promote (src dst : Path) : Prog (World S) IoKind Unit := do
  let bytes := ((← get).fs.read src).getD []
  onFs (Fs.rename src dst)
  recordStored bytes

end World

end Quill
