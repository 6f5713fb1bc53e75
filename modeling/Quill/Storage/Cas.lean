import Quill.Files.Tree
import Quill.Storage.Digest

/-!
# The layout of the content-addressed store

`CasLayout` of `quill-storage`: the paths of a repository below the storage root. The
repository name is joined to the root as it was received. All other components are
fixed names or the hexadecimal text of a digest, so they are pushed directly.

`IsBlobName p` says that the last component of `p` is the text of a digest. The names
of sidecars, sessions and temporary files are not (`not_isBlobName_cons`), so the
contents stored under digest-shaped names only come from the paths of blobs.
-/

namespace Quill.Cas

open Text Files

def blobsName : Name := ⟨"blobs".toList, by decide⟩

def sha256Name : Name := ⟨"sha256".toList, by decide⟩

def uploadsName : Name := ⟨"_uploads".toList, by decide⟩

def quillName : Name := ⟨"_quill".toList, by decide⟩

def localTagsName : Name := ⟨"_local_tags.json".toList, by decide⟩

def localTagsTmpName : Name := ⟨"_local_tags.json.tmp".toList, by decide⟩

def upstreamTagsName : Name := ⟨"_upstream_tags.json".toList, by decide⟩

def upstreamTagsTmpName : Name := ⟨"_upstream_tags.json.tmp".toList, by decide⟩

theorem validName_of_isHex64 {s : Str} (h : IsHex64 s) : ValidName s := by
  have hlen := h.1
  refine ⟨?_, ?_, ?_, fun hmem => (ne_of_isLowerHex (h.2 _ hmem)).2.1 rfl⟩ <;>
    · rintro rfl
      simp at hlen

/-- The file name of a blob. -/
def hexName (d : Digest) : Name := ⟨d.hex.val, validName_of_isHex64 d.hex.property⟩

variable (root : Path)

/-- The directory of a repository. -/
def repoDir (repo : Str) : Path := join root repo

/-- `blobs/sha256` of a repository. -/
def blobsDir (repo : Str) : Path := sha256Name :: blobsName :: repoDir root repo

/-- The path of a blob. -/
def blobPath (repo : Str) (d : Digest) : Path := hexName d :: blobsDir root repo

/-- The sidecar of the pushed tags. -/
def localTagsPath (repo : Str) : Path := localTagsName :: repoDir root repo

/-- The sidecar of the cached tags. -/
def upstreamTagsPath (repo : Str) : Path := upstreamTagsName :: repoDir root repo

/-- The directory of uploads and temporary files. -/
def uploadsDir (repo : Str) : Path := uploadsName :: repoDir root repo

/-- `CasLayout::ensure_repo_dirs`. -/
def ensureRepoDirs (repo : Str) : Prog Fs IoKind Unit := do
  Fs.createDirAll (blobsDir root repo)
  Fs.createDirAll (uploadsDir root repo)

/-! ## Digest-shaped names -/

/-- The last component of the path is the text of a digest. -/
def IsBlobName (p : Path) : Prop := ∃ n q, p = n :: q ∧ IsHex64 n.val

theorem isBlobName_blobPath (repo : Str) (d : Digest) : IsBlobName (blobPath root repo d) :=
  ⟨_, _, rfl, d.hex.property⟩

/-- A name that contains a dot, a dash or an underscore is not the text of a digest. -/
theorem not_isHex64_of_mem {s : Str} {c : Char} (hc : c ∈ s)
    (hne : c = '.' ∨ c = '-' ∨ c = '_') : ¬ IsHex64 s := by
  intro h
  obtain ⟨h1, -, h3, h4⟩ := ne_of_isLowerHex (h.2 c hc)
  rcases hne with rfl | rfl | rfl
  · exact h1 rfl
  · exact h3 rfl
  · exact h4 rfl

theorem not_isBlobName_cons {n : Name} {p : Path} {c : Char} (hc : c ∈ n.val)
    (hne : c = '.' ∨ c = '-' ∨ c = '_') : ¬ IsBlobName (n :: p) := by
  rintro ⟨m, q, he, hm⟩
  cases he
  exact not_isHex64_of_mem hc hne hm

variable {root}

theorem hexName_injective {d d' : Digest} (h : hexName d = hexName d') : d = d' := by
  obtain ⟨hex⟩ := d
  obtain ⟨hex'⟩ := d'
  have : hex = hex' := Subtype.ext (congrArg (fun n : Name => n.val) h)
  rw [this]

theorem blobPath_injective {repo : Str} {d d' : Digest}
    (h : blobPath root repo d = blobPath root repo d') : d = d' :=
  hexName_injective (List.cons.inj h).1

/-- Blobs of plainly named repositories are shared by no two repositories. -/
theorem blobPath_eq_iff {repo repo' : Str} (h : Plain repo) (h' : Plain repo') {d d' : Digest} :
    blobPath root repo d = blobPath root repo' d' ↔ repo = repo' ∧ d = d' := by
  constructor
  · intro he
    simp only [blobPath, blobsDir, repoDir, List.cons.injEq, true_and] at he
    exact ⟨h.join_injective h' he.2, hexName_injective he.1⟩
  · rintro ⟨rfl, rfl⟩
    rfl

end Quill.Cas
