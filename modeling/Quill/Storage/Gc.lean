import Mathlib.Data.Finset.Card
import Quill.Base.Marking
import Quill.Files.Walk
import Quill.Storage.LocalTags

/-!
# The garbage collector

`GarbageCollector` of `quill-storage`: discover the repositories, mark from the local
tags and the extra roots of each, then sweep `blobs/sha256` of each.

`Faults` says which blob reads fail while marking and which deletions fail while
sweeping; every blob is read at most once in a run, so a pattern of failing reads is a
set of blobs. `Faults.none` is a run without faults. The extra roots are listed in the
order in which the `HashSet` is iterated.

`refs` is what the collector sees below a blob and `Live` is the set that a repository
must keep: the least set that contains its roots and is closed under references.
-/

namespace Quill.Gc

open Text Files Cas Marking LocalTags

/-- The reads and deletions that fail. -/
structure Faults where
  read : Str → Digest → Bool
  delete : Path → Bool

/-- No read and no deletion fails. -/
def Faults.none : Faults := ⟨fun _ _ => false, fun _ => false⟩

/-- The message of a deletion that failed. -/
inductive GcMessage where
  | delete (path : Path)
  deriving DecidableEq

/-- The numbers that a run reports. -/
structure GcReport where
  reposScanned : Nat
  roots : Nat
  reachableBlobs : Nat
  onDiskBlobs : Nat
  deleted : Nat
  bytesFreed : Nat
  errors : List GcMessage

/-- The errors that end a run. -/
inductive GcError where
  | io
  | localTags (e : LocalTagsError)

/-! ## Discovering repositories -/

/-- The names `read_dir` gives; a path that cannot be listed gives none. -/
def entries (fs : Fs) (p : Path) : List Name := if fs.isDir p then fs.readDir p else []

/-- The directory has a subdirectory `blobs`. -/
def hasBlobs (fs : Fs) (p : Path) : Bool := (entries fs p).any fun n =>
  n = blobsName ∧ fs.isDir (n :: p)

/-- The subdirectories a scan enters: none below a repository. -/
def subdirs (fs : Fs) (p : Path) : List Name :=
  if hasBlobs fs p then []
  else (entries fs p).filter fun n => fs.isDir (n :: p) ∧ n ≠ uploadsName ∧ n ≠ quillName

/-- The name of the repository in a directory, if the directory is one. -/
def repoAt (root : Path) (fs : Fs) (dir : Path) : Option Str :=
  if hasBlobs fs dir then
    match stripPrefix root dir with
    | some segs => if relative segs = [] then none else some (relative segs)
    | none => none
  else none

/-- A bound on the directories of the tree. -/
def fuel (fs : Fs) : Nat := fs.nodes.keys.length + 1

/-- `GarbageCollector::discover_repos`. -/
def discoverRepos (root : Path) (fs : Fs) : List Str :=
  if fs.exists? root then (walk (subdirs fs) (fuel fs) [root]).filterMap (repoAt root fs) else []

/-! ## Marking -/

section Mark

variable (S : Setup)

/-- The references in the contents of a blob. -/
def refs (fs : Fs) (repo : Str) (d : Digest) : List Digest :=
  match (fs.read (blobPath S.root repo d)).bind S.serde.fromSlice with
  | some v => Manifest.references v
  | none => []

/-- The successors a traversal sees: none when the read fails. -/
def seen (fs : Fs) (faults : Faults) (x : Str × Digest) : List (Str × Digest) :=
  if faults.read x.1 x.2 then [] else (refs S fs x.1 x.2).map fun d => (x.1, d)

/-- The digest a file of `blobs/sha256` is named after, if its name is one. -/
def digestOfName (n : Name) : Option Digest :=
  (Digest.parse ("sha256:".toList ++ n.val)).toOption

/-- The blobs of a repository that a traversal can expand. -/
def blobNodes (fs : Fs) (repo : Str) : List (Str × Digest) :=
  (fs.readDir (blobsDir S.root repo)).filterMap fun n => (digestOfName n).map fun d => (repo, d)

/-- `GarbageCollector::traverse`. The fuel is the number of references in the repository,
which bounds the turns of the loop (`mem_traverse`). -/
def traverse (fs : Fs) (faults : Faults) (repo : Str) (root : Digest)
    (reachable : Finset (Str × Digest)) : Finset (Str × Digest) :=
  mark (seen S fs faults) (1 + budget (seen S fs faults) (blobNodes S fs repo) ∅)
    [(repo, root)] reachable

/-- The roots of one repository: its local tags, then the extra roots. -/
def rootsOf (map : TagMap) (repo : Str) (extra : List Digest) : List Digest :=
  (listForRepo map repo).filterMap (fun e => (Digest.parse e.2.digest).toOption) ++ extra

/-- The mark phase over the repositories: the reachable set and the number of roots. -/
def markPhase (fs : Fs) (faults : Faults) (extra : List Digest) :
    List Str → Finset (Str × Digest) → Nat → Except LocalTagsError (Finset (Str × Digest) × Nat)
  | [], reachable, roots => .ok (reachable, roots)
  | repo :: repos, reachable, roots =>
    match loadRepo S fs repo ∅ with
    | .error e => .error e
    | .ok map =>
      let found := rootsOf map repo extra
      markPhase fs faults extra repos
        (found.foldl (fun acc r => traverse S fs faults repo r acc) reachable)
        (roots + found.length)

end Mark

/-! ## Sweeping -/

section Sweep

variable (root : Path) (faults : Faults) (reachable : Finset (Str × Digest)) (dryRun : Bool)

/-- One entry of `blobs/sha256`. -/
def sweepEntry (repo : Str) (st : GcReport × Fs) (n : Name) : GcReport × Fs :=
  let path := n :: blobsDir root repo
  match st.2.read path, digestOfName n with
  | some b, some d =>
    let report := { st.1 with onDiskBlobs := st.1.onDiskBlobs + 1 }
    if (repo, d) ∈ reachable then (report, st.2)
    else if dryRun then (report, st.2)
    else if faults.delete path then
      ({ report with errors := report.errors ++ [.delete path] }, st.2)
    else
      ({ report with
          deleted := report.deleted + 1
          bytesFreed := min (report.bytesFreed + b.length) (2 ^ 64 - 1) },
        st.2.del path)
  | _, _ => st

/-- The sweep of one repository; listing a `blobs/sha256` that is no directory fails. -/
def sweepRepo (repo : Str) (st : GcReport × Fs) : Except GcError Unit × (GcReport × Fs) :=
  let dir := blobsDir root repo
  if st.2.exists? dir then
    if st.2.isDir dir then
      (.ok (), (st.2.readDir dir).foldl (sweepEntry root faults reachable dryRun repo) st)
    else (.error .io, st)
  else (.ok (), st)

/-- The loop over the repositories. -/
def sweepPhase : List Str → GcReport × Fs → Except GcError Unit × (GcReport × Fs)
  | [], st => (.ok (), st)
  | repo :: repos, st =>
    match sweepRepo root faults reachable dryRun repo st with
    | (.ok (), st') => sweepPhase repos st'
    | (.error e, st') => (.error e, st')

end Sweep

/-- `GarbageCollector::run`: the result and the file system it leaves. -/
def run (S : Setup) (fs : Fs) (faults : Faults) (extra : List Digest) (dryRun : Bool) :
    Except GcError GcReport × Fs :=
  let repos := discoverRepos S.root fs
  match markPhase S fs faults extra repos ∅ 0 with
  | .error e => (.error (.localTags e), fs)
  | .ok (reachable, roots) =>
    match sweepPhase S.root faults reachable dryRun repos
        (⟨repos.length, roots, reachable.card, 0, 0, 0, []⟩, fs) with
    | (.ok (), (report, fs')) => (.ok report, fs')
    | (.error e, (_, fs')) => (.error e, fs')

/-! ## What a repository must keep -/

/-- The roots of a repository on disk: the digests of its sidecar and the extra roots. -/
def diskRoots (S : Setup) (fs : Fs) (repo : Str) (extra : List Digest) : Set Digest :=
  { d | ∃ map, loadRepo S fs repo ∅ = .ok map ∧ d ∈ rootsOf map repo extra }

/-- The least set that contains the roots and is closed under references. -/
def Live (S : Setup) (fs : Fs) (repo : Str) (extra : List Digest) : Set Digest :=
  { d | Reach (refs S fs repo) (diskRoots S fs repo extra) d }

end Quill.Gc
