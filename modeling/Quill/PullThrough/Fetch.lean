import Quill.Storage.Uploads

/-!
# One pull-through fetch from start to end

`run_producer` of `quill-pullthrough`, run without interruption: stream the upstream's
body into a temporary file while feeding a hasher, compare the hash and rename the file
into the store. A failed fetch removes the temporary file. The steps between which other
tasks may run are in `Quill.PullThrough.Flights`.
-/

namespace Quill.PullThrough

open Text Files Cas World Uploads

variable {S : Setup}

/-- The texts of `Upstream` and `Io` come from outside. -/
inductive PullThroughError where
  | upstream
  | digestMismatch (expected got : Str)
  | io (e : IoKind)
  deriving DecidableEq

/-- How a fetch ended. -/
inductive ProducerOutcome where
  | success (finalSize : Nat)
  | failed (e : PullThroughError)
  deriving DecidableEq

/-- The temporary file of a fetch. -/
def tempName (d : Digest) : Name :=
  ⟨"pt-".toList ++ d.hex.val, validName_of_length (by simp [d.hex.property.1]) (by
    intro h
    rcases List.mem_append.mp h with h | h
    · revert h
      decide
    · exact (ne_of_isLowerHex (d.hex.property.2 _ h)).2.1 rfl)⟩

/-- The path of the temporary file of a fetch. -/
def tempfilePath (root : Path) (repo : Str) (d : Digest) : Path :=
  tempName d :: uploadsDir root repo

/-- The blob of a fetch is neither its tempfile nor above it. -/
theorem blobPath_not_suffix (root : Path) (repo : Str) (d : Digest) :
    ¬ blobPath root repo d <:+ tempfilePath root repo d := by
  intro h
  have hlen := h.length_le
  simp only [blobPath, blobsDir, tempfilePath, uploadsDir, List.length_cons] at hlen
  omega

/-- The tempfile of a fetch is not above its blob. -/
theorem tempfilePath_not_suffix (root : Path) (repo : Str) (d : Digest) :
    ¬ tempfilePath root repo d <:+ (blobPath root repo d).tail := by
  intro h
  have hname : tempName d = sha256Name := (List.cons.inj (h.eq_of_length (by
    simp [blobPath, blobsDir, tempfilePath, uploadsDir]))).1
  have hhead := congrArg (fun n : Name => n.val.head?) hname
  simp [tempName, sha256Name] at hhead

/-- The loop over the stream. -/
def receive (tempfile : Path) : List (Option Bytes) → S.hash.State → Nat →
    Prog (World S) PullThroughError (S.hash.State × Nat)
  | [], hasher, total => pure (hasher, total)
  | none :: _, _, _ => throw .upstream
  | some chunk :: stream, hasher, total => do
    (onFs (Fs.appendFile tempfile chunk)).mapError .io
    receive tempfile stream (S.hash.update hasher chunk) (saturatingAdd total chunk.length)

/-- The fallible part of `run_producer`. -/
def produce (d : Digest) (tempfile finalPath : Path) (stream : List (Option Bytes)) :
    Prog (World S) PullThroughError Nat := do
  let (hasher, total) ← receive tempfile stream S.hash.new 0
  let got := S.hash.finalize hasher
  if got ≠ d.hex then
    throw (.digestMismatch d.toStr ("sha256:".toList ++ got.val))
  else
    (onFs (Fs.createDirAll finalPath.tail)).mapError .io
    (promote tempfile finalPath).mapError .io
    return total

/-- `run_producer`; the value is the final size. -/
def runProducer (d : Digest) (tempfile finalPath : Path) (stream : List (Option Bytes)) :
    Prog (World S) PullThroughError Nat := do
  (onFs (Fs.createDirAll tempfile.tail)).mapError .io
  (onFs (Fs.writeFile tempfile [])).mapError .io
  match ← (produce d tempfile finalPath stream).attempt with
  | .ok total => return total
  | .error e =>
    let _ ← (probeFs (Fs.removeFile tempfile)).attempt
    throw e

end Quill.PullThrough
