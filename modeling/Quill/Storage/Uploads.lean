import Quill.Storage.Local

/-!
# Upload sessions

`UploadStore` of `quill-storage`. A session has a data file that chunks are appended to
and a running hasher in memory that is fed the same chunks; `finalize` compares the
hasher, not the file, with the expected digest and renames the file into the store. The
session id is computed from the wall clock and the process id.

The functions here run one call from start to end. `Quill.Storage.UploadSteps` runs
several calls on one session step by step.
-/

namespace Quill.Uploads

open Text Files Cas World LocalStorage

variable {S : Setup}

/-- The errors of the upload manager. -/
inductive UploadError where
  | io (e : IoKind)
  | notFound (session : Str)
  | digestMismatch (expected got : Str)
  | alreadyFinalized
  deriving DecidableEq

/-- `new_session_id` at a reading of the wall clock. -/
def newSessionId (nanos pid : Nat) : Str :=
  hexText 16 (mix (nanos % u64) pid) ++ hexText 16 (nanos % u64)

/-- Equal ids come from equal readings. -/
theorem newSessionId_injective {m n pid : Nat} (h : newSessionId m pid = newSessionId n pid) :
    m % u64 = n % u64 := by
  have hlt : ∀ k, k % u64 < 16 ^ 16 := fun k => Nat.mod_lt k (by decide)
  have htext := (List.append_inj' h (by rw [length_hexText, length_hexText])).2
  exact hexText_injective (hlt m) (hlt n) htext

theorem isLowerHex_of_mem_newSessionId {nanos pid : Nat} {c : Char}
    (hc : c ∈ newSessionId nanos pid) : isLowerHex c = true := by
  rcases List.mem_append.mp hc with hc | hc
  · exact isLowerHex_of_mem_hexText hc
  · exact isLowerHex_of_mem_hexText hc

theorem slash_notMem_newSessionId (nanos pid : Nat) : '/' ∉ newSessionId nanos pid := fun h =>
  (ne_of_isLowerHex (isLowerHex_of_mem_newSessionId h)).2.1 rfl

/-- The file with the bytes of a session. -/
def dataPath (root : Path) (repo session : Str) : Path :=
  join (uploadsDir root repo) (session ++ ".data".toList)

/-- The record of a session. -/
def metaPath (root : Path) (repo session : Str) : Path :=
  join (uploadsDir root repo) (session ++ ".meta.json".toList)

/-- `meta_path` with the extension `json.tmp`. -/
def metaTmpPath (root : Path) (repo session : Str) : Path :=
  join (uploadsDir root repo) (session ++ ".meta.json.tmp".toList)

/-- `UploadStore::write_meta`. -/
def writeMeta (repo : Str) (m : UploadMeta) : Prog (World S) UploadError Unit :=
  (onFs (Fs.writeAtomic (metaTmpPath S.root repo m.session) (metaPath S.root repo m.session)
    (S.serde.uploadMetaToVec m))).mapError .io

/-- `UploadStore::write_meta_for`; the caller ignores its errors. -/
def writeMetaFor (repo session : Str) (bytesReceived : Nat) : Prog (World S) UploadError Unit := do
  match ← (probeFs (Fs.readFile (metaPath S.root repo session))).attempt with
  | .error .notFound => return ()
  | .error .other => throw (.io .other)
  | .ok b =>
    match S.serde.uploadMetaFromSlice b with
    | none => throw (.io .other)
    | some m =>
      let now ← wallNow
      writeMeta repo { m with bytesReceived := bytesReceived, lastSeen := now }

/-- `UploadStore::create_session`. -/
def createSession (repo : Str) : Prog (World S) UploadError Str := do
  let nanos ← wallNow
  let session := newSessionId nanos S.pid
  (onFs (Fs.createDirAll (uploadsDir S.root repo))).mapError .io
  let path := dataPath S.root repo session
  (onFs (Fs.writeFile path [])).mapError .io
  let now ← wallNow
  let info : UploadMeta := ⟨session, repo, 0, now, now⟩
  writeMeta repo info
  modify fun w =>
    { w with sessions := w.sessions.insert (repo, session) ⟨info, S.hash.new, path, false⟩ }
  return session

/-- `u64::saturating_add`. -/
def saturatingAdd (a b : Nat) : Nat := min (a + b) (u64 - 1)

/-- The value of a `u64` counter that was advanced by these bytes. -/
def tally (b : Bytes) : Nat := min b.length (u64 - 1)

theorem tally_of_lt {b : Bytes} (h : b.length < u64) : tally b = b.length := by
  unfold tally
  omega

theorem saturatingAdd_tally (b chunk : Bytes) :
    saturatingAdd (tally b) chunk.length = tally (b ++ chunk) := by
  simp only [saturatingAdd, tally, List.length_append]
  omega

theorem tally_eq {b : Bytes} (h : b.length < u64) : tally b = b.length := by
  unfold tally
  omega

/-- The locked update of hasher and counters. -/
def UploadState.fed {H : StreamingHash} (st : UploadState H) (chunk : Bytes) (now : Nat) :
    UploadState H :=
  { st with
    hasher := H.update st.hasher chunk
    info := { st.info with
      bytesReceived := saturatingAdd st.info.bytesReceived chunk.length
      lastSeen := now } }

/-- `UploadStore::append`. -/
def append (repo session : Str) (chunk : Bytes) : Prog (World S) UploadError Nat := do
  match (← get).sessions.lookup (repo, session) with
  | none => throw (.notFound session)
  | some st =>
    if st.finalized then throw .alreadyFinalized
    else
      (onFs (Fs.appendFile st.dataPath chunk)).mapError .io
      let now ← wallNow
      let st' := UploadState.fed st chunk now
      modify fun w => { w with sessions := w.sessions.insert (repo, session) st' }
      let _ ← (writeMetaFor repo session st'.info.bytesReceived).attempt
      return st'.info.bytesReceived

/-- `UploadStore::finalize` after the last chunk was appended. -/
def commit (repo session : Str) (expected : Digest) : Prog (World S) UploadError (Path × Nat) := do
  match (← get).sessions.lookup (repo, session) with
  | none => throw (.notFound session)
  | some st =>
    if st.finalized then throw .alreadyFinalized
    else
      let hex := S.hash.finalize st.hasher
      if hex ≠ expected.hex then
        throw (.digestMismatch expected.toStr ("sha256:".toList ++ hex.val))
      else
        let finalPath := blobPath S.root repo expected
        (onFs (Fs.createDirAll finalPath.tail)).mapError .io
        (promote st.dataPath finalPath).mapError .io
        let _ ← (probeFs (Fs.removeFile (metaPath S.root repo session))).attempt
        modify fun w => { w with sessions := w.sessions.erase (repo, session) }
        return (finalPath, st.info.bytesReceived)

/-- `UploadStore::finalize`. -/
def finalize (repo session : Str) (lastChunk : Option Bytes) (expected : Digest) :
    Prog (World S) UploadError (Path × Nat) :=
  match lastChunk with
  | some chunk =>
    if chunk.isEmpty then commit repo session expected
    else do
      let _ ← append repo session chunk
      commit repo session expected
  | none => commit repo session expected

/-- `UploadStore::abort`. -/
def abort (repo session : Str) : Prog (World S) UploadError Unit := do
  match (← get).sessions.lookup (repo, session) with
  | some st =>
    modify fun w => { w with sessions := w.sessions.erase (repo, session) }
    let _ ← (probeFs (Fs.removeFile st.dataPath)).attempt
  | none => pure ()
  let _ ← (probeFs (Fs.removeFile (metaPath S.root repo session))).attempt
  return ()

end Quill.Uploads
