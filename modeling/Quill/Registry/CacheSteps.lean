import Quill.Base.Runs
import Quill.Registry.Changes
import Quill.Storage.Codec

/-!
# The metadata cache, step by step

Any number of operations on blobs take turns: `blob_meta` looks at the cache, then at the
file, then fills the cache; `put_blob_buffered` writes a temporary file, renames it and
fills the cache; `delete_blob` removes the file, then the cached entry; `finalize` of an
upload only renames; a pull-through fetch renames and later fills the cache. The steps are
those of the sequential operations, and an operation that runs alone does what the
sequential one does (`blobMeta_alone` and the others).

An entry that is inserted after another operation has removed its file and invalidated the
cache stays until it expires (`late_insert_is_stale`). Where no file is
removed between another operation's look at it and its insertion, and no rename changes the
length that is cached or about to be cached (`Timely`), the cache tells the truth whenever no
operation is in progress (`cache_tells_truth`).
-/

namespace Quill.Registry.CacheSteps

open Text Files Cas World LocalStorage Uploads PullThrough

/-! ## The steps -/

/-- What follows the rename of a file into the store. -/
inductive Next where
  | put (size : Nat)
  | finalize (session : Str)
  | fetch (size : Nat)

/-- The next step of an operation. -/
inductive Phase where
  | get (repo : Str) (d : Digest)
  | stat (repo : Str) (d : Digest)
  | insert (repo : Str) (d : Digest) (size : Nat)
  | write (repo : Str) (d : Digest) (b : Bytes)
  | move (src : Path) (repo : Str) (d : Digest) (next : Next)
  | remove (repo : Str) (d : Digest)
  | invalidate (repo : Str) (d : Digest)
  | append (repo session : Str) (chunk : Bytes) (d : Digest)
  | check (repo session : Str) (d : Digest)
  | forget (repo session : Str)
  | openTemp (repo : Str) (d : Digest) (stream : List (Option Bytes))
  | receive (repo : Str) (d : Digest) (stream : List (Option Bytes))
  | discard (repo : Str) (d : Digest)
  | returned

/-- The operations that read, fill or clear the metadata cache. -/
inductive Call where
  | blobMeta (repo : Str) (d : Digest)
  | putBlobBuffered (repo : Str) (d : Digest) (b : Bytes)
  | deleteBlob (repo : Str) (d : Digest)
  | finalize (repo session : Str) (lastChunk : Option Bytes) (d : Digest)
  | fetch (repo : Str) (d : Digest) (stream : List (Option Bytes))

/-- The repository that an operation is about. -/
def Call.repo : Call → Str
  | .blobMeta repo _ => repo
  | .putBlobBuffered repo _ _ => repo
  | .deleteBlob repo _ => repo
  | .finalize repo _ _ _ => repo
  | .fetch repo _ _ => repo

/-- The first step of an operation. -/
def Call.start : Call → Phase
  | .blobMeta repo d => .get repo d
  | .putBlobBuffered repo d b => .write repo d b
  | .deleteBlob repo d => .remove repo d
  | .finalize repo session none d => .check repo session d
  | .finalize repo session (some chunk) d =>
    if chunk.isEmpty then .check repo session d else .append repo session chunk d
  | .fetch repo d stream => .openTemp repo d stream

section Steps

variable {S : Setup}

/-- `put_blob_buffered` up to the rename; the value is the temporary file. -/
def writeTemp (repo : Str) (expected : Digest) (bytes : Bytes) : Prog (World S) StorageError Path :=
  let got := S.hash.hex bytes
  if got ≠ expected.hex then
    throw (.digestMismatch expected.toStr ("sha256:".toList ++ got.val))
  else do
    (onFs (Fs.createDirAll (blobPath S.root repo expected).tail)).mapError .io
    let tmp ← LocalStorage.tempfilePath repo
    (onFs (Fs.createDirAll tmp.tail)).mapError .io
    (onFs (Fs.writeFile tmp bytes)).mapError .io
    return tmp

/-- The cached entry of a file of this size, stamped with the current time. -/
def fill (repo : Str) (d : Digest) (size : Nat) : Prog (World S) StorageError Unit := do
  let now ← instantNow
  cacheInsert repo d ⟨blobPath S.root repo d, size, now⟩

/-- `commit` up to the rename; the value is the data file of the session. -/
def verify (repo session : Str) (expected : Digest) : Prog (World S) UploadError Path := do
  match (← get).sessions.lookup (repo, session) with
  | none => throw (.notFound session)
  | some st =>
    if st.finalized then throw .alreadyFinalized
    else
      let hex := S.hash.finalize st.hasher
      if hex ≠ expected.hex then
        throw (.digestMismatch expected.toStr ("sha256:".toList ++ hex.val))
      else
        (onFs (Fs.createDirAll (blobPath S.root repo expected).tail)).mapError .io
        return st.dataPath

/-- The end of `commit`. -/
def forgetSession (repo session : Str) : Prog (World S) UploadError Unit := do
  let _ ← (probeFs (Fs.removeFile (metaPath S.root repo session))).attempt
  modify fun w => { w with sessions := w.sessions.erase (repo, session) }

/-- The temporary file of a fetch, created empty. -/
def createTemp (repo : Str) (d : Digest) : Prog (World S) PullThroughError Unit := do
  (onFs (Fs.createDirAll (PullThrough.tempfilePath S.root repo d).tail)).mapError .io
  (onFs (Fs.writeFile (PullThrough.tempfilePath S.root repo d) [])).mapError .io

/-- `produce` up to the rename; the value is the number of received bytes. -/
def receiveAll (repo : Str) (d : Digest) (stream : List (Option Bytes)) :
    Prog (World S) PullThroughError Nat := do
  let (hasher, total) ← PullThrough.receive (PullThrough.tempfilePath S.root repo d) stream S.hash.new 0
  let got := S.hash.finalize hasher
  if got ≠ d.hex then
    throw (.digestMismatch d.toStr ("sha256:".toList ++ got.val))
  else
    (onFs (Fs.createDirAll (blobPath S.root repo d).tail)).mapError .io
    return total

/-- The step after a rename that succeeded, and after one that failed. -/
def Next.phase (repo : Str) (d : Digest) (renamed : Bool) : Next → Phase
  | .put size => if renamed then .insert repo d size else .returned
  | .finalize session => if renamed then .forget repo session else .returned
  | .fetch size => if renamed then .insert repo d size else .discard repo d

/-- One step of an operation. -/
def advance (w : World S) : Phase → Option (World S × Phase)
  | .get repo d =>
    let r := (cacheGet repo d : Prog (World S) StorageError _).exec w
    some (r.2, match r.1 with
      | .ok none => .stat repo d
      | _ => .returned)
  | .stat repo d =>
    let r := (probeFs (Fs.metadata (blobPath S.root repo d)) : Prog (World S) IoKind _).exec w
    some (r.2, match r.1 with
      | .ok (.file b) => .insert repo d b.length
      | _ => .returned)
  | .insert repo d size => some (((fill repo d size).exec w).2, .returned)
  | .write repo d b =>
    let r := (writeTemp repo d b).exec w
    some (r.2, match r.1 with
      | .ok tmp => .move tmp repo d (.put b.length)
      | .error _ => .returned)
  | .move src repo d next =>
    let r := (promote src (blobPath S.root repo d)).exec w
    some (r.2, next.phase repo d r.1.isOk)
  | .remove repo d =>
    let r := (probeFs (Fs.removeFile (blobPath S.root repo d)) : Prog (World S) IoKind _).exec w
    some (r.2, match r.1 with
      | .error .other => .returned
      | _ => .invalidate repo d)
  | .invalidate repo d =>
    some (((cacheInvalidate repo d : Prog (World S) StorageError Unit).exec w).2, .returned)
  | .append repo session chunk d =>
    let r := (Uploads.append repo session chunk).exec w
    some (r.2, match r.1 with
      | .ok _ => .check repo session d
      | .error _ => .returned)
  | .check repo session d =>
    let r := (verify repo session d).exec w
    some (r.2, match r.1 with
      | .ok src => .move src repo d (.finalize session)
      | .error _ => .returned)
  | .forget repo session => some (((forgetSession repo session).exec w).2, .returned)
  | .openTemp repo d stream =>
    let r := (createTemp repo d).exec w
    some (r.2, match r.1 with
      | .ok _ => .receive repo d stream
      | .error _ => .returned)
  | .receive repo d stream =>
    let r := (receiveAll repo d stream).exec w
    some (r.2, match r.1 with
      | .ok total => .move (PullThrough.tempfilePath S.root repo d) repo d (.fetch total)
      | .error _ => .discard repo d)
  | .discard repo d =>
    some (((probeFs (Fs.removeFile (PullThrough.tempfilePath S.root repo d)) :
      Prog (World S) IoKind _).exec w).2, .returned)
  | .returned => none

/-- An operation is called, takes its next step, or time passes. -/
inductive Act where
  | call (c : Call)
  | turn (i : Nat)
  | advance (n : Nat)

/-- One step of the server. -/
def step (s : Pool (World S) Phase) : Act → Option (Pool (World S) Phase)
  | .call c => some (s.spawn c.start)
  | .turn i => s.turn CacheSteps.advance i
  | .advance n => some { s with memory := { s.memory with now := s.memory.now + n } }

end Steps

/-! ## An operation alone -/

section Alone

variable {S : Setup}

theorem alone_returned (n : Nat) (w : World S) : Pool.alone advance n w .returned = w :=
  Pool.alone_done rfl n

theorem advance_move_ok {src : Path} {repo : Str} {d : Digest} {w w' : World S} {u : Unit}
    (h : (promote src (blobPath S.root repo d)).exec w = (.ok u, w')) (next : Next) :
    advance w (.move src repo d next) = some (w', next.phase repo d true) := by
  simp only [advance, h]
  rfl

theorem advance_move_error {src : Path} {repo : Str} {d : Digest} {w w' : World S} {e : IoKind}
    (h : (promote src (blobPath S.root repo d)).exec w = (.error e, w')) (next : Next) :
    advance w (.move src repo d next) = some (w', next.phase repo d false) := by
  simp only [advance, h]
  rfl

/-- `blob_meta` alone. -/
theorem blobMeta_alone (repo : Str) (d : Digest) (w : World S) :
    ((blobMeta repo d).exec w).2 = Pool.alone advance 3 w (Call.blobMeta repo d).start := by
  show _ = Pool.alone advance 3 w (.get repo d)
  cases hget : (cacheGet repo d : Prog (World S) StorageError _).exec w with
  | mk r w₁ =>
    rcases r with e | _ | m
    · have hstep : advance w (.get repo d) = some (w₁, .returned) := by simp only [advance, hget]
      have hrun : (blobMeta repo d).exec w = _ := Prog.exec_bind_error hget
      rw [hrun, Pool.alone_succ hstep, alone_returned]
    · have hstep : advance w (.get repo d) = some (w₁, .stat repo d) := by simp only [advance, hget]
      have hrun : (blobMeta repo d).exec w = _ := Prog.exec_bind_ok hget
      rw [hrun, Pool.alone_succ hstep]
      cases hstat : (probeFs (Fs.metadata (blobPath S.root repo d)) : Prog (World S) IoKind _).exec w₁ with
      | mk r w₂ =>
        rw [Prog.exec_bind_ok (Prog.exec_attempt_eq.mpr hstat)]
        rcases r with (_ | _) | _ | b
        · have hstep : advance w₁ (.stat repo d) = some (w₂, .returned) := by
            simp only [advance, hstat]
          rw [Pool.alone_succ hstep, alone_returned]
          rfl
        · have hstep : advance w₁ (.stat repo d) = some (w₂, .returned) := by
            simp only [advance, hstat]
          rw [Pool.alone_succ hstep, alone_returned]
          rfl
        · have hstep : advance w₁ (.stat repo d) = some (w₂, .returned) := by
            simp only [advance, hstat]
          rw [Pool.alone_succ hstep, alone_returned]
          rfl
        · have hstep : advance w₁ (.stat repo d) = some (w₂, .insert repo d b.length) := by
            simp only [advance, hstat]
          rw [Pool.alone_succ hstep]
          rfl
    · have hstep : advance w (.get repo d) = some (w₁, .returned) := by simp only [advance, hget]
      have hrun : (blobMeta repo d).exec w = _ := Prog.exec_bind_ok hget
      rw [hrun, Pool.alone_succ hstep, alone_returned]
      rfl

/-- `delete_blob` alone. -/
theorem deleteBlob_alone (repo : Str) (d : Digest) (w : World S) :
    ((deleteBlob repo d).exec w).2 = Pool.alone advance 2 w (Call.deleteBlob repo d).start := by
  show _ = Pool.alone advance 2 w (.remove repo d)
  cases hremove : (probeFs (Fs.removeFile (blobPath S.root repo d)) : Prog (World S) IoKind _).exec w with
  | mk r w₁ =>
    have hrun : (deleteBlob repo d).exec w = _ := Prog.exec_bind_ok (Prog.exec_attempt_eq.mpr hremove)
    rw [hrun]
    rcases r with (_ | _) | u
    · have hstep : advance w (.remove repo d) = some (w₁, .invalidate repo d) := by
        simp only [advance, hremove]
      rw [Pool.alone_succ hstep]
      rfl
    · have hstep : advance w (.remove repo d) = some (w₁, .returned) := by
        simp only [advance, hremove]
      rw [Pool.alone_succ hstep, alone_returned]
      rfl
    · have hstep : advance w (.remove repo d) = some (w₁, .invalidate repo d) := by
        simp only [advance, hremove]
      rw [Pool.alone_succ hstep]
      rfl

/-- Writing a file and renaming it into the store, in two steps and in one. -/
theorem writeAtomic_split (w : World S) (src dst : Path) (b : Bytes) :
    ((onFs (Fs.writeAtomic src dst b) : Prog (World S) IoKind Unit) >>= fun _ => recordStored b).exec w =
      ((onFs (Fs.writeFile src b) : Prog (World S) IoKind Unit) >>= fun _ => promote src dst).exec w := by
  rcases Fs.exec_writeFile src b w.fs with ⟨-, -, hwrite⟩ | ⟨e, hwrite⟩
  · rw [Prog.exec_bind_ok (exec_onFs_ok hwrite)]
    have hread : (w.fs.set src (.file b)).read src = some b := by
      rw [Fs.read_eq_some, Fs.node_set, if_pos rfl]
    have hatomic : (Fs.writeAtomic src dst b).exec w.fs =
        (Fs.rename src dst).exec (w.fs.set src (.file b)) := Prog.exec_bind_ok hwrite
    cases hrename : (Fs.rename src dst).exec (w.fs.set src (.file b)) with
    | mk r fs' =>
      rw [hrename] at hatomic
      cases r with
      | error e =>
        rw [Prog.exec_bind_error (exec_onFs_error hatomic)]
        simp [promote, Prog.exec_bind, exec_onFs_error (w := { w with fs := w.fs.set src (.file b) }) hrename]
      | ok u =>
        rw [Prog.exec_bind_ok (exec_onFs_ok hatomic)]
        simp [promote, Prog.exec_bind, exec_onFs_ok (w := { w with fs := w.fs.set src (.file b) }) hrename,
          hread]
  · have hatomic : (Fs.writeAtomic src dst b).exec w.fs = (.error e, w.fs) :=
      Prog.exec_bind_error hwrite
    rw [Prog.exec_bind_error (exec_onFs_error hatomic), Prog.exec_bind_error (exec_onFs_error hwrite)]

/-- The directories and the name of the temporary file of a buffered blob. -/
def placeTemp (repo : Str) (d : Digest) : Prog (World S) StorageError Path := do
  (onFs (Fs.createDirAll (blobPath S.root repo d).tail)).mapError .io
  let tmp ← LocalStorage.tempfilePath repo
  (onFs (Fs.createDirAll tmp.tail)).mapError .io
  return tmp

/-- `put_blob_buffered` alone. -/
theorem putBlobBuffered_alone (repo : Str) (d : Digest) (b : Bytes) (w : World S) :
    ((putBlobBuffered repo d b).exec w).2 =
      Pool.alone advance 3 w (Call.putBlobBuffered repo d b).start := by
  show _ = Pool.alone advance 3 w (.write repo d b)
  by_cases hhash : S.hash.hex b ≠ d.hex
  · have hstep : advance w (.write repo d b) = some (w, .returned) := by
      simp [advance, writeTemp, hhash]
    rw [Pool.alone_succ hstep, alone_returned]
    simp [putBlobBuffered, hhash]
  · have hput : putBlobBuffered (S := S) repo d b = placeTemp repo d >>= fun tmp =>
        ((onFs (Fs.writeAtomic tmp (blobPath S.root repo d) b)).mapError .io) >>= fun _ =>
          recordStored b >>= fun _ => instantNow >>= fun now =>
            cacheInsert repo d ⟨blobPath S.root repo d, b.length, now⟩ >>= fun _ =>
              pure ⟨blobPath S.root repo d, b.length, now⟩ := by
      simp only [putBlobBuffered, if_neg hhash, placeTemp, bind_assoc, pure_bind]
    have hwrite : writeTemp (S := S) repo d b = placeTemp repo d >>= fun tmp =>
        ((onFs (Fs.writeFile tmp b)).mapError .io) >>= fun _ => pure tmp := by
      simp only [writeTemp, if_neg hhash, placeTemp, bind_assoc, pure_bind]
    cases hplace : (placeTemp repo d).exec w with
    | mk r w₁ =>
      cases r with
      | error e =>
        have hstep : advance w (.write repo d b) = some (w₁, .returned) := by
          simp only [advance, hwrite, Prog.exec_bind_error hplace]
        rw [Pool.alone_succ hstep, alone_returned, hput, Prog.exec_bind_error hplace]
      | ok tmp =>
        have hsplit := writeAtomic_split w₁ tmp (blobPath S.root repo d) b
        rw [hput, Prog.exec_bind_ok hplace]
        cases hfile : (onFs (Fs.writeFile tmp b) : Prog (World S) IoKind Unit).exec w₁ with
        | mk r w₂ =>
          cases hatomic : (onFs (Fs.writeAtomic tmp (blobPath S.root repo d) b) :
              Prog (World S) IoKind Unit).exec w₁ with
          | mk r' w₃ =>
            cases r with
            | error e =>
              have hstep : advance w (.write repo d b) = some (w₂, .returned) := by
                simp only [advance, hwrite, Prog.exec_bind_ok hplace,
                  Prog.exec_bind_error (exec_mapError_error hfile)]
              rw [Prog.exec_bind_error hfile] at hsplit
              rw [Pool.alone_succ hstep, alone_returned]
              cases r' with
              | error e' =>
                rw [Prog.exec_bind_error hatomic] at hsplit
                rw [Prog.exec_bind_error (exec_mapError_error hatomic)]
                exact (Prod.mk.inj hsplit).2
              | ok u =>
                rw [Prog.exec_bind_ok hatomic] at hsplit
                cases hsplit
            | ok u =>
              have hstep : advance w (.write repo d b) =
                  some (w₂, .move tmp repo d (.put b.length)) := by
                simp only [advance, hwrite, Prog.exec_bind_ok hplace,
                  Prog.exec_bind_ok (exec_mapError_ok hfile), Prog.exec_pure]
              rw [Prog.exec_bind_ok hfile] at hsplit
              rw [Pool.alone_succ hstep]
              cases r' with
              | error e' =>
                rw [Prog.exec_bind_error hatomic] at hsplit
                rw [Prog.exec_bind_error (exec_mapError_error hatomic)]
                rw [Pool.alone_succ (advance_move_error hsplit.symm _)]
                exact (alone_returned 1 w₃).symm
              | ok u =>
                rw [Prog.exec_bind_ok hatomic] at hsplit
                rw [Prog.exec_bind_ok (exec_mapError_ok hatomic)]
                rw [Pool.alone_succ (advance_move_ok hsplit.symm _)]
                rfl

/-- `finalize` alone, after the last chunk was appended. -/
theorem commit_alone (repo session : Str) (d : Digest) (w : World S) :
    ((commit repo session d).exec w).2 = Pool.alone advance 3 w (.check repo session d) := by
  have hcommit : (commit repo session d).exec w = _ := Prog.exec_bind_ok (Prog.exec_get w)
  have hverify : (verify repo session d).exec w = _ := Prog.exec_bind_ok (Prog.exec_get w)
  cases hst : w.sessions.lookup (repo, session) with
  | none =>
    simp only [hst] at hcommit hverify
    have hstep : advance w (.check repo session d) = some (w, .returned) := by
      simp only [advance, hverify, Prog.exec_throw]
    rw [Pool.alone_succ hstep, alone_returned, hcommit, Prog.exec_throw]
  | some st =>
    simp only [hst] at hcommit hverify
    by_cases hfin : st.finalized = true
    · rw [if_pos hfin] at hcommit hverify
      have hstep : advance w (.check repo session d) = some (w, .returned) := by
        simp only [advance, hverify, Prog.exec_throw]
      rw [Pool.alone_succ hstep, alone_returned, hcommit, Prog.exec_throw]
    · rw [if_neg hfin] at hcommit hverify
      by_cases hhash : S.hash.finalize st.hasher ≠ d.hex
      · rw [if_pos hhash] at hcommit hverify
        have hstep : advance w (.check repo session d) = some (w, .returned) := by
          simp only [advance, hverify, Prog.exec_throw]
        rw [Pool.alone_succ hstep, alone_returned, hcommit, Prog.exec_throw]
      · rw [if_neg hhash] at hcommit hverify
        cases hdirs : (onFs (Fs.createDirAll (blobPath S.root repo d).tail) :
            Prog (World S) IoKind Unit).exec w with
        | mk r w₁ =>
          cases r with
          | error e =>
            have hfailed : ((onFs (Fs.createDirAll (blobPath S.root repo d).tail)).mapError .io :
              Prog (World S) UploadError Unit).exec w = (.error (.io e), w₁) := exec_mapError_error hdirs
            have hstep : advance w (.check repo session d) = some (w₁, .returned) := by
              simp only [advance, hverify, Prog.exec_bind_error hfailed]
            rw [Pool.alone_succ hstep, alone_returned, hcommit, Prog.exec_bind_error hfailed]
          | ok u =>
            have hmade : ((onFs (Fs.createDirAll (blobPath S.root repo d).tail)).mapError .io :
              Prog (World S) UploadError Unit).exec w = (.ok u, w₁) := exec_mapError_ok hdirs
            have hstep : advance w (.check repo session d) =
                some (w₁, .move st.dataPath repo d (.finalize session)) := by
              simp only [advance, hverify, Prog.exec_bind_ok hmade, Prog.exec_pure]
            rw [Pool.alone_succ hstep, hcommit, Prog.exec_bind_ok hmade]
            cases hrename : (promote st.dataPath (blobPath S.root repo d)).exec w₁ with
            | mk r w₂ =>
              cases r with
              | error e =>
                rw [Pool.alone_succ (advance_move_error hrename _),
                  Prog.exec_bind_error (exec_mapError_error hrename)]
                exact (alone_returned 1 w₂).symm
              | ok u =>
                rw [Pool.alone_succ (advance_move_ok hrename _),
                  Prog.exec_bind_ok (exec_mapError_ok hrename)]
                rfl

/-- `finalize` alone. -/
theorem finalize_alone (repo session : Str) (lastChunk : Option Bytes) (d : Digest) (w : World S) :
    ∃ n, ((finalize repo session lastChunk d).exec w).2 =
      Pool.alone advance n w (Call.finalize repo session lastChunk d).start := by
  cases lastChunk with
  | none => exact ⟨3, commit_alone repo session d w⟩
  | some chunk =>
    unfold finalize Call.start
    by_cases hempty : chunk.isEmpty = true
    · simp only [if_pos hempty]
      exact ⟨3, commit_alone repo session d w⟩
    · simp only [if_neg hempty]
      refine ⟨3 + 1, ?_⟩
      cases happend : (Uploads.append repo session chunk).exec w with
      | mk r w₁ =>
        cases r with
        | error e =>
          have hstep : advance w (.append repo session chunk d) = some (w₁, .returned) := by
            simp only [advance, happend]
          rw [Pool.alone_succ hstep, alone_returned, Prog.exec_bind_error happend]
        | ok total =>
          have hstep : advance w (.append repo session chunk d) = some (w₁, .check repo session d) := by
            simp only [advance, happend]
          rw [Pool.alone_succ hstep, Prog.exec_bind_ok happend]
          exact commit_alone repo session d w₁

/-- The rest of `run_producer` and the insertion, once the temporary file was created. -/
theorem receive_alone (repo : Str) (d : Digest) (stream : List (Option Bytes)) (w : World S) :
    ((do
      let total ← (do
        match ← (produce d (PullThrough.tempfilePath S.root repo d) (blobPath S.root repo d)
            stream).attempt with
        | .ok total => return total
        | .error e =>
          let _ ← (probeFs (Fs.removeFile (PullThrough.tempfilePath S.root repo d))).attempt
          throw e)
      let now ← instantNow
      cacheInsert repo d ⟨blobPath S.root repo d, total, now⟩
      return total : Prog (World S) PullThroughError Nat).exec w).2 =
      Pool.alone advance 3 w (.receive repo d stream) := by
  have hproduce : produce (S := S) d (PullThrough.tempfilePath S.root repo d) (blobPath S.root repo d)
      stream = receiveAll repo d stream >>= fun total =>
        (promote (PullThrough.tempfilePath S.root repo d) (blobPath S.root repo d)).mapError .io >>=
          fun _ => pure total := by
    unfold produce receiveAll
    simp only [bind_assoc]
    congr 1
    funext x
    split
    · rfl
    · simp only [bind_assoc, pure_bind]
  cases hreceive : (receiveAll repo d stream).exec w with
  | mk r w₁ =>
    cases r with
    | error e =>
      have hstep : advance w (.receive repo d stream) = some (w₁, .discard repo d) := by
        simp only [advance, hreceive]
      have hfailed : (produce d (PullThrough.tempfilePath S.root repo d) (blobPath S.root repo d)
          stream).exec w = (.error e, w₁) := by
        rw [hproduce, Prog.exec_bind_error hreceive]
      rw [Pool.alone_succ hstep, bind_assoc, Prog.exec_bind_ok (Prog.exec_attempt_eq.mpr hfailed)]
      rfl
    | ok total =>
      have hstep : advance w (.receive repo d stream) =
          some (w₁, .move (PullThrough.tempfilePath S.root repo d) repo d (.fetch total)) := by
        simp only [advance, hreceive]
      rw [Pool.alone_succ hstep]
      cases hrename : (promote (PullThrough.tempfilePath S.root repo d)
          (blobPath S.root repo d)).exec w₁ with
      | mk r w₂ =>
        cases r with
        | error e =>
          have hfailed : (produce d (PullThrough.tempfilePath S.root repo d) (blobPath S.root repo d)
              stream).exec w = (.error (.io e), w₂) := by
            rw [hproduce, Prog.exec_bind_ok hreceive,
              Prog.exec_bind_error (exec_mapError_error hrename)]
          rw [Pool.alone_succ (advance_move_error hrename _), bind_assoc,
            Prog.exec_bind_ok (Prog.exec_attempt_eq.mpr hfailed)]
          rfl
        | ok u =>
          have hdone : (produce d (PullThrough.tempfilePath S.root repo d) (blobPath S.root repo d)
              stream).exec w = (.ok total, w₂) := by
            rw [hproduce, Prog.exec_bind_ok hreceive, Prog.exec_bind_ok (exec_mapError_ok hrename),
              Prog.exec_pure]
          rw [Pool.alone_succ (advance_move_ok hrename _), bind_assoc,
            Prog.exec_bind_ok (Prog.exec_attempt_eq.mpr hdone)]
          rfl

/-- A fetch alone: `run_producer` and, when it succeeds, the insertion of its size. -/
theorem fetch_alone (repo : Str) (d : Digest) (stream : List (Option Bytes)) (w : World S) :
    ((do
      let total ← runProducer d (PullThrough.tempfilePath S.root repo d) (blobPath S.root repo d) stream
      let now ← instantNow
      cacheInsert repo d ⟨blobPath S.root repo d, total, now⟩
      return total : Prog (World S) PullThroughError Nat).exec w).2 =
      Pool.alone advance 4 w (Call.fetch repo d stream).start := by
  show _ = Pool.alone advance 4 w (.openTemp repo d stream)
  have hproducer : runProducer (S := S) d (PullThrough.tempfilePath S.root repo d)
      (blobPath S.root repo d) stream = createTemp repo d >>= fun _ => (do
        match ← (produce d (PullThrough.tempfilePath S.root repo d) (blobPath S.root repo d)
            stream).attempt with
        | .ok total => return total
        | .error e =>
          let _ ← (probeFs (Fs.removeFile (PullThrough.tempfilePath S.root repo d))).attempt
          throw e) := by
    unfold runProducer createTemp
    exact (bind_assoc _ _ _).symm
  rw [hproducer, bind_assoc]
  cases hcreate : (createTemp repo d).exec w with
  | mk r w₁ =>
    cases r with
    | error e =>
      have hstep : advance w (.openTemp repo d stream) = some (w₁, .returned) := by
        simp only [advance, hcreate]
      rw [Pool.alone_succ hstep, alone_returned, Prog.exec_bind_error hcreate]
    | ok u =>
      have hstep : advance w (.openTemp repo d stream) = some (w₁, .receive repo d stream) := by
        simp only [advance, hcreate]
      rw [Pool.alone_succ hstep, Prog.exec_bind_ok hcreate]
      exact receive_alone repo d stream w₁

end Alone

/-! ## What a step does -/

section Changes

variable {S : Setup}

/-- A step that leaves the blobs and the cache as they are. -/
structure Quiet (w w' : World S) : Prop where
  data : DataNamed w → DataNamed w'
  cache : w'.metaCache = w.metaCache
  read : DataNamed w → ∀ p, IsBlobName p → w'.fs.read p = w.fs.read p

theorem Quiet.trans {w w' w'' : World S} (h : Quiet w w') (g : Quiet w' w'') : Quiet w w'' := by
  refine ⟨fun hw => g.data (h.data hw), g.cache.trans h.cache, fun hw p hp => ?_⟩
  rw [g.read (h.data hw) p hp, h.read hw p hp]

theorem Quiet.of_spares {w w' : World S} (hfs : Spares ∅ w.fs w'.fs)
    (hcache : w'.metaCache = w.metaCache) (hdata : DataNamed w → DataNamed w') : Quiet w w' :=
  ⟨hdata, hcache, fun _ _ hp => hfs.read (fun hs => hs.1 hp) (Set.notMem_empty _)⟩

theorem Quiet.of_ambient {w w' : World S} (h : Ambient w w') : Quiet w w' :=
  .of_spares h.fs h.cache fun hw key st hst => hw key st (h.sessions ▸ hst)

/-- The evolution of quiet steps. -/
def quiet : Evolution (World S) := ⟨Quiet, fun _ => .of_ambient .rfl, Quiet.trans⟩

theorem onFs_quiet {α : Type} {m : Prog Fs IoKind α} (hm : Moves spares m) :
    Moves quiet (onFs m : Prog (World S) IoKind α) := fun w => .of_ambient (onFs_ambient hm w)

theorem probeFs_quiet {α : Type} {m : Prog Fs IoKind α} (hm : Moves spares m) :
    Moves quiet (probeFs m : Prog (World S) IoKind α) := fun w => .of_ambient (probeFs_ambient hm w)

theorem wallNow_quiet {ε : Type} : Moves quiet (wallNow : Prog (World S) ε Nat) :=
  fun _ => .of_spares (.refl _ _) rfl id

theorem cacheGet_quiet {ε : Type} (repo : Str) (d : Digest) :
    Moves quiet (cacheGet repo d : Prog (World S) ε _) := by
  refine Moves.of_get.seq fun w => ?_
  cases w.metaCache.lookup (repo, d) with
  | none => exact Moves.of_pure _
  | some m => exact Moves.seq (fun w => .of_ambient (.tick w)) fun _ => Moves.of_pure _

theorem metadata_spares (p : Path) : Moves spares (Fs.metadata p) := by
  intro fs
  rcases Fs.exec_metadata p fs with ⟨n, -, he⟩ | ⟨-, he⟩
  · rw [he]
    exact spares.refl fs
  · rw [he]
    exact spares.refl fs

theorem writeTemp_quiet (repo : Str) (d : Digest) (b : Bytes) :
    Moves quiet (writeTemp (S := S) repo d b) := by
  unfold writeTemp
  refine Moves.of_ite (fun _ => Moves.of_throw _) fun _ => ?_
  refine ((onFs_quiet (createDirAll_spares _)).of_mapError _).seq fun _ => fun w => ?_
  refine Moves.rel_bind ?_ fun tmp w₁ htmp => ?_
  · exact wallNow_quiet.seq (fun _ => Moves.of_pure _) w
  · have hscratch : Scratch tmp := by
      cases htmp
      exact scratch_tmpName _ _
    refine (((onFs_quiet (createDirAll_spares _)).of_mapError _).seq fun _ => ?_) w₁
    exact ((onFs_quiet (writeFile_spares hscratch b)).of_mapError _).seq fun _ => Moves.of_pure _

theorem verify_quiet (repo session : Str) (d : Digest) :
    Moves quiet (verify (S := S) repo session d) := by
  refine Moves.of_get.seq fun w => ?_
  cases w.sessions.lookup (repo, session) with
  | none => exact Moves.of_throw _
  | some st =>
    refine Moves.of_ite (fun _ => Moves.of_throw _) fun _ => ?_
    refine Moves.of_ite (fun _ => Moves.of_throw _) fun _ => ?_
    exact ((onFs_quiet (createDirAll_spares _)).of_mapError _).seq fun _ => Moves.of_pure _

theorem forgetSession_quiet (repo session : Str) :
    Moves quiet (forgetSession (S := S) repo session) := by
  refine (probeFs_quiet (removeFile_spares (scratch_metaPath _ _ _))).of_attempt.seq fun _ => ?_
  exact Moves.of_modify fun w => .of_spares (.refl _ _) rfl fun hw key st => hw.erase _

theorem createTemp_quiet (repo : Str) (d : Digest) : Moves quiet (createTemp (S := S) repo d) :=
  ((onFs_quiet (createDirAll_spares _)).of_mapError _).seq fun _ =>
    (onFs_quiet (writeFile_spares (scratch_tempfilePath _ _ _) _)).of_mapError _

theorem receive_quiet {tempfile : Path} (htemp : Scratch tempfile) (stream : List (Option Bytes))
    (hasher : S.hash.State) (total : Nat) :
    Moves quiet (PullThrough.receive tempfile stream hasher total) := by
  induction stream generalizing hasher total with
  | nil => exact Moves.of_pure _
  | cons item stream ih =>
    cases item with
    | none => exact Moves.of_throw _
    | some chunk =>
      exact ((onFs_quiet (appendFile_spares htemp chunk)).of_mapError _).seq fun _ => ih _ _

theorem receiveAll_quiet (repo : Str) (d : Digest) (stream : List (Option Bytes)) :
    Moves quiet (receiveAll (S := S) repo d stream) := by
  refine (receive_quiet (scratch_tempfilePath _ _ _) stream _ _).seq fun x => ?_
  refine Moves.of_ite (fun _ => Moves.of_throw _) fun _ => ?_
  exact ((onFs_quiet (createDirAll_spares _)).of_mapError _).seq fun _ => Moves.of_pure _

theorem writeMetaFor_quiet (repo session : Str) (n : Nat) :
    Moves quiet (writeMetaFor (S := S) repo session n) := by
  refine (probeFs_quiet (readFile_spares _)).of_attempt.seq fun r => ?_
  rcases r with (_ | _) | b
  · exact Moves.of_pure _
  · exact Moves.of_throw _
  · simp only
    cases S.serde.uploadMetaFromSlice b with
    | none => exact Moves.of_throw _
    | some m =>
      exact wallNow_quiet.seq fun _ => (onFs_quiet (writeAtomic_spares (scratch_metaTmpPath _ _ _)
        (scratch_metaPath _ _ _) _)).of_mapError _

/-- Appending to a session changes only its data file. -/
theorem append_quiet (repo session : Str) (chunk : Bytes) :
    Moves quiet (Uploads.append (S := S) repo session chunk) := by
  intro w
  have hrun : (Uploads.append repo session chunk).exec w = _ := Prog.exec_bind_ok (Prog.exec_get w)
  rw [hrun]
  cases hst : w.sessions.lookup (repo, session) with
  | none => exact quiet.refl w
  | some st =>
    simp only
    split
    · exact quiet.refl w
    · rcases Fs.exec_appendFile st.dataPath chunk w.fs with ⟨c, hc, he⟩ | ⟨-, e, he⟩
      · rw [Prog.exec_bind_ok (exec_mapError_ok (exec_onFs_ok he))]
        let st' := UploadState.fed st chunk (w.wall.headD 0)
        let w₁ : World S := { w with
          fs := w.fs.set st.dataPath (.file (c ++ chunk))
          wall := w.wall.tail
          sessions := w.sessions.insert (repo, session) st' }
        have hfirst : Quiet w w₁ := by
          have hnamed : DataNamed w → IsDataName st'.dataPath := fun hw => hw _ st hst
          refine ⟨fun hw key st'' => hw.insert (hnamed hw), rfl, fun hw p hp => ?_⟩
          refine Fs.read_congr ?_
          rw [Fs.node_set, if_neg]
          rintro rfl
          exact not_isDataName_of_isBlobName hp (hw _ st hst)
        exact hfirst.trans ((writeMetaFor_quiet repo session _).of_attempt.seq
          (fun _ => Moves.of_pure _) w₁)
      · rw [Prog.exec_bind_error (exec_mapError_error (exec_onFs_error he))]
        exact .of_ambient (.fail w)

theorem scratch_of_writeTemp {repo : Str} {d : Digest} {b : Bytes} {w w' : World S} {tmp : Path}
    (h : (writeTemp repo d b).exec w = (.ok tmp, w')) : Scratch tmp := by
  unfold writeTemp at h
  simp only at h
  split at h
  · cases h
  · obtain ⟨_, w₁, -, h⟩ := Prog.exec_bind_eq_ok.mp h
    obtain ⟨tmp', w₂, htmp, h⟩ := Prog.exec_bind_eq_ok.mp h
    obtain ⟨_, w₃, -, h⟩ := Prog.exec_bind_eq_ok.mp h
    obtain ⟨_, w₄, -, h⟩ := Prog.exec_bind_eq_ok.mp h
    cases h
    cases htmp
    exact scratch_tmpName _ _

theorem isDataName_of_verify {repo session : Str} {d : Digest} {w w' : World S} {src : Path}
    (hdata : DataNamed w) (h : (verify repo session d).exec w = (.ok src, w')) : IsDataName src := by
  obtain ⟨v, w₀, hget, h⟩ := Prog.exec_bind_eq_ok.mp h
  cases hget
  cases hst : w.sessions.lookup (repo, session) with
  | none =>
    simp only [hst] at h
    cases h
  | some st =>
    simp only [hst] at h
    split at h
    · cases h
    · split at h
      · cases h
      · obtain ⟨_, w₁, -, h⟩ := Prog.exec_bind_eq_ok.mp h
        cases h
        exact hdata _ st hst

/-- What a step does to blobs and to the cache. -/
inductive Stepped (w w' : World S) : Phase → Phase → Prop
  | quiet {p p' : Phase} (h : Quiet w w') (hinsert : ∀ repo d n, p' = .insert repo d n →
        p = .stat repo d ∧ ∃ b, w.fs.read (blobPath S.root repo d) = some b ∧ b.length = n)
      (hmove : ∀ src repo d next, p' = .move src repo d next → DataNamed w → ¬ IsBlobName src)
      (hother : ∀ repo d, p ≠ .invalidate repo d) : Stepped w w' p p'
  | filled {repo : Str} {d : Digest} {n : Nat}
      (h : w' = w.tick.filled repo d ⟨blobPath S.root repo d, n, w.tick.now⟩) :
      Stepped w w' (.insert repo d n) .returned
  | moved {src : Path} {repo : Str} {d : Digest} {next : Next} {b : Bytes}
      (hread : w.fs.read src = some b) (hdata : DataNamed w → DataNamed w')
      (hcache : w'.metaCache = w.metaCache)
      (hfs : w'.fs = (w.fs.del src).set (blobPath S.root repo d) (.file b)) :
      Stepped w w' (.move src repo d next) (next.phase repo d true)
  | removed {repo : Str} {d : Digest} (hdata : DataNamed w → DataNamed w')
      (hcache : w'.metaCache = w.metaCache) (hfs : ∀ p, p ≠ blobPath S.root repo d →
        w'.fs.read p = w.fs.read p) :
      Stepped w w' (.remove repo d) (.invalidate repo d)
  | invalidated {repo : Str} {d : Digest}
      (h : w' = { w with metaCache := w.metaCache.erase (repo, d) }) :
      Stepped w w' (.invalidate repo d) .returned

/-- A quiet step to a phase that neither fills the cache nor moves a file. -/
theorem Stepped.of_quiet {w w' : World S} {p p' : Phase} (h : Quiet w w')
    (hother : ∀ repo d, p ≠ .invalidate repo d) (hinsert : ∀ repo d n, p' ≠ .insert repo d n)
    (hmove : ∀ src repo d next, p' ≠ .move src repo d next) : Stepped w w' p p' :=
  .quiet h (fun repo d n he => absurd he (hinsert repo d n))
    (fun src repo d next he => absurd he (hmove src repo d next)) hother

section Phases

variable {w w' : World S} {p' : Phase} {repo : Str} {d : Digest}

/-- The length that a look at the file gives is the one that will be cached. -/
theorem stepped_stat (h : advance w (.stat repo d) = some (w', p')) : Stepped w w' (.stat repo d) p' := by
  cases h
  refine .quiet (probeFs_quiet (metadata_spares _) w) ?_ ?_ fun _ _ => nofun
  · intro r e n he
    split at he
    · rename_i b hb
      cases he
      rcases Fs.exec_metadata (blobPath S.root repo d) w.fs with ⟨node, hnode, hm⟩ | ⟨-, hm⟩
      · rw [exec_probeFs_ok hm] at hb
        cases hb
        exact ⟨rfl, b, Fs.read_eq_some.mpr hnode, rfl⟩
      · rw [exec_probeFs_error hm] at hb
        cases hb
    · cases he
  · intro src r e next he
    split at he <;> cases he

/-- What is moved after a write is the temporary file. -/
theorem stepped_write {b : Bytes} (h : advance w (.write repo d b) = some (w', p')) :
    Stepped w w' (.write repo d b) p' := by
  cases h
  refine .quiet (writeTemp_quiet repo d b w) ?_ ?_ fun _ _ => nofun
  · intro r e n he
    split at he <;> cases he
  · intro src r e next he _
    split at he
    · rename_i tmp htmp
      cases he
      exact (scratch_of_writeTemp (Prod.ext htmp rfl)).1
    · cases he

theorem stepped_move {src : Path} {next : Next}
    (h : advance w (.move src repo d next) = some (w', p')) : Stepped w w' (.move src repo d next) p' := by
  rcases exec_promote w src (blobPath S.root repo d) with ⟨b, hb, -, he⟩ | ⟨e, he⟩
  · rw [advance_move_ok he] at h
    cases h
    exact .moved hb id rfl rfl
  · rw [advance_move_error he] at h
    cases h
    refine .of_quiet (.of_ambient (.fail w)) (fun _ _ => nofun) (fun _ _ _ => ?_) fun _ _ _ _ => ?_
    · cases next <;> nofun
    · cases next <;> nofun

theorem stepped_remove (h : advance w (.remove repo d) = some (w', p')) :
    Stepped w w' (.remove repo d) p' := by
  cases h
  rcases Fs.exec_removeFile (blobPath S.root repo d) w.fs with ⟨b, -, he⟩ | ⟨-, e, he, -⟩
  · rw [exec_probeFs_ok he]
    refine .removed id rfl fun p hp => Fs.read_congr ?_
    rw [Fs.node_del, if_neg hp]
  · rw [exec_probeFs_error he]
    cases e with
    | notFound => exact .removed id rfl fun p _ => rfl
    | other =>
      exact .of_quiet (.of_ambient (.probe w .other)) (fun _ _ => nofun) (fun _ _ _ => nofun)
        fun _ _ _ _ => nofun

/-- What is moved after the check of a session is its data file. -/
theorem stepped_check {session : Str} (h : advance w (.check repo session d) = some (w', p')) :
    Stepped w w' (.check repo session d) p' := by
  cases h
  refine .quiet (verify_quiet repo session d w) ?_ ?_ fun _ _ => nofun
  · intro r e n he
    split at he <;> cases he
  · intro src r e next he hdata hblob
    split at he
    · rename_i src' hsrc
      cases he
      exact not_isDataName_of_isBlobName hblob (isDataName_of_verify hdata (Prod.ext hsrc rfl))
    · cases he

/-- What is moved after a fetch is its temporary file. -/
theorem stepped_receive {stream : List (Option Bytes)}
    (h : advance w (.receive repo d stream) = some (w', p')) : Stepped w w' (.receive repo d stream) p' := by
  cases h
  refine .quiet (receiveAll_quiet repo d stream w) ?_ ?_ fun _ _ => nofun
  · intro r e n he
    split at he <;> cases he
  · intro src r e next he _
    split at he
    · cases he
      exact (scratch_tempfilePath _ _ _).1
    · cases he

end Phases

theorem stepped_of_advance {w w' : World S} {p p' : Phase} (h : advance w p = some (w', p')) :
    Stepped w w' p p' := by
  cases p with
  | stat repo d => exact stepped_stat h
  | write repo d b => exact stepped_write h
  | move src repo d next => exact stepped_move h
  | remove repo d => exact stepped_remove h
  | check repo session d => exact stepped_check h
  | receive repo d stream => exact stepped_receive h
  | get repo d =>
    cases h
    refine .of_quiet (cacheGet_quiet repo d w) (fun _ _ => nofun) (fun _ _ _ => ?_) fun _ _ _ _ => ?_
    · split <;> nofun
    · split <;> nofun
  | insert repo d n =>
    cases h
    exact .filled rfl
  | invalidate repo d =>
    cases h
    exact .invalidated rfl
  | append repo session chunk d =>
    cases h
    refine .of_quiet (append_quiet repo session chunk w) (fun _ _ => nofun) (fun _ _ _ => ?_) fun _ _ _ _ => ?_
    · split <;> nofun
    · split <;> nofun
  | forget repo session =>
    cases h
    exact .of_quiet (forgetSession_quiet repo session w) (fun _ _ => nofun) (fun _ _ _ => nofun)
      fun _ _ _ _ => nofun
  | openTemp repo d stream =>
    cases h
    refine .of_quiet (createTemp_quiet repo d w) (fun _ _ => nofun) (fun _ _ _ => ?_) fun _ _ _ _ => ?_
    · split <;> nofun
    · split <;> nofun
  | discard repo d =>
    cases h
    exact .of_quiet (probeFs_quiet (removeFile_spares (scratch_tempfilePath _ _ _)) w) (fun _ _ => nofun)
      (fun _ _ _ => nofun) fun _ _ _ _ => nofun
  | returned => cases h

end Changes

/-! ## The cache tells the truth -/

section Truth

variable {S : Setup}

/-- `blob_meta` finds exactly the blobs that are files, with their paths and lengths. -/
structure TellsTruth (w : World S) : Prop where
  sound : ∀ repo d m w', (blobMeta repo d).exec w = (.ok (some m), w') →
    ∃ b, w.fs.read (blobPath S.root repo d) = some b ∧ m.path = blobPath S.root repo d ∧
      m.size = b.length
  complete : ∀ repo d b, w.fs.read (blobPath S.root repo d) = some b →
    ∃ m w', (blobMeta repo d).exec w = (.ok (some m), w')

/-- The entry is that of the file. -/
def Describes (w : World S) (repo : Str) (d : Digest) (m : BlobMeta) : Prop :=
  m.path = blobPath S.root repo d ∧
    ∃ b, w.fs.read (blobPath S.root repo d) = some b ∧ m.size = b.length

/-- Every cached entry is that of its file. -/
def CacheHolds (w : World S) : Prop :=
  ∀ repo d m, w.metaCache.lookup (repo, d) = some m → Describes w repo d m

theorem CacheHolds.tellsTruth {w : World S} (h : CacheHolds w) : TellsTruth w := by
  refine ⟨fun repo d m w' hrun => ?_, fun repo d b hb => ?_⟩
  · obtain ⟨w₁, -, hout⟩ := exec_blobMeta w repo d
    rw [hrun] at hout
    cases hout with
    | hit hlook =>
      obtain ⟨hpath, b, hb, hsize⟩ := h repo d m hlook
      exact ⟨b, hb, hpath, hsize⟩
    | found hread => exact ⟨_, hread, rfl, rfl⟩
  · obtain ⟨w₁, -, hout⟩ := exec_blobMeta w repo d
    have hnode := Fs.read_eq_some.mp hb
    generalize (blobMeta repo d).exec w = out at hout
    cases hout with
    | hit hlook => exact ⟨_, _, rfl⟩
    | found hread => exact ⟨_, _, rfl⟩
    | isDir hdir => cases hnode.symm.trans hdir
    | absent hnone => cases hnode.symm.trans hnone
    | blocked hnone => cases hnode.symm.trans hnone

/-- The repositories have pairwise different directories. -/
def Apart (S : Setup) (repos : List Str) : Prop :=
  ∀ r ∈ repos, ∀ r' ∈ repos, repoDir S.root r = repoDir S.root r' → r = r'

theorem Apart.blobPath_eq {repos : List Str} (h : Apart S repos) {r r' : Str} (hr : r ∈ repos)
    (hr' : r' ∈ repos) {d d' : Digest} (he : blobPath S.root r d = blobPath S.root r' d') :
    (r, d) = (r', d') := by
  obtain ⟨hname, hrest⟩ := List.cons.inj he
  have hdir : repoDir S.root r = repoDir S.root r' := (List.cons.inj (List.cons.inj hrest).2).2
  rw [h r hr r' hr' hdir, hexName_injective hname]

/-- The step inserts an entry for the blob. -/
def Phase.inserts (repo : Str) (d : Digest) : Phase → Prop
  | .insert r e _ => r = repo ∧ e = d
  | _ => False

/-- If the step inserts an entry for the blob, it has this size. -/
def Phase.fits (repo : Str) (d : Digest) (size : Nat) : Phase → Prop
  | .insert r e n => r = repo → e = d → n = size
  | _ => True

/-- If an entry is inserted after the rename, it has this size. -/
def Next.fits (size : Nat) : Next → Prop
  | .put n => n = size
  | .fetch n => n = size
  | .finalize _ => True

/-- The size that is cached, or about to be cached, for the blob. -/
structure Fits (s : Pool (World S) Phase) (repo : Str) (d : Digest) (next : Next) (size : Nat) :
    Prop where
  cached : ∀ m ∈ s.memory.metaCache.lookup (repo, d), m.size = size
  tasks : ∀ p ∈ s.tasks, p.fits repo d size
  next : next.fits size

/-- All operations are on the given repositories. -/
def Within (repos : List Str) (_ : Pool (World S) Phase) : Act → Prop
  | .call c => c.repo ∈ repos
  | _ => True

/-- A file is removed only when no other operation that has looked at it or renamed it is about to
cache it, and a rename does not change the length that is cached or about to be. -/
def Timely (repos : List Str) (s : Pool (World S) Phase) (act : Act) : Prop :=
  Within repos s act ∧ (match act with
    | .turn i =>
      match s.tasks[i]? with
      | some (.remove repo d) => ∀ p ∈ s.tasks, ¬ p.inserts repo d
      | some (.move src repo d next) => ∀ b ∈ s.memory.fs.read src, Fits s repo d next b.length
      | _ => True
    | _ => True)

/-- The repository of an operation that has not returned. -/
def Phase.repo? : Phase → Option Str
  | .get repo _ | .stat repo _ | .insert repo _ _ | .write repo _ _ | .move _ repo _ _
  | .remove repo _ | .invalidate repo _ | .append repo _ _ _ | .check repo _ _ | .forget repo _
  | .openTemp repo _ _ | .receive repo _ _ | .discard repo _ => some repo
  | .returned => none

/-- The invariant: every cached size describes the blob on disk, or an invalidation of it is on its
way. -/
structure Told (repos : List Str) (s : Pool (World S) Phase) : Prop where
  data : DataNamed s.memory
  within : ∀ p ∈ s.tasks, ∀ r, p.repo? = some r → r ∈ repos
  keys : ∀ r d m, s.memory.metaCache.lookup (r, d) = some m → r ∈ repos
  cached : ∀ r d m, s.memory.metaCache.lookup (r, d) = some m →
    Describes s.memory r d m ∨ .invalidate r d ∈ s.tasks
  inserts : ∀ r d n, .insert r d n ∈ s.tasks →
    ∃ b, s.memory.fs.read (blobPath S.root r d) = some b ∧ n = b.length
  moves : ∀ src r d next, .move src r d next ∈ s.tasks → ¬ IsBlobName src

theorem advance_repo {w w' : World S} {p p' : Phase} (h : advance w p = some (w', p')) {r : Str}
    (hr : p'.repo? = some r) : p.repo? = some r := by
  cases p with
  | move src repo d next =>
    cases h
    cases next with
    | put n =>
      simp only [Next.phase] at hr
      split at hr
      · exact hr
      · cases hr
    | finalize session =>
      simp only [Next.phase] at hr
      split at hr
      · exact hr
      · cases hr
    | fetch n =>
      simp only [Next.phase] at hr
      split at hr
      · exact hr
      · exact hr
  | insert repo d n =>
    cases h
    cases hr
  | invalidate repo d =>
    cases h
    cases hr
  | forget repo session =>
    cases h
    cases hr
  | discard repo d =>
    cases h
    cases hr
  | returned => cases h
  | _ =>
    -- every other step goes on with its own repository or returns
    cases h
    split at hr <;> first | exact hr | cases hr

theorem told_call {repos : List Str} {s : Pool (World S) Phase} (h : Told repos s) {c : Call}
    (hc : c.repo ∈ repos) : Told repos (s.spawn c.start) := by
  have hstart : c.start.repo? = some c.repo ∧ (∀ r d n, c.start ≠ .insert r d n) ∧
      ∀ src r d next, c.start ≠ .move src r d next := by
    cases c with
    | finalize repo session lastChunk d =>
      cases lastChunk with
      | none => exact ⟨rfl, fun _ _ _ => nofun, fun _ _ _ _ => nofun⟩
      | some chunk =>
        simp only [Call.start]
        split
        · exact ⟨rfl, fun _ _ _ => nofun, fun _ _ _ _ => nofun⟩
        · exact ⟨rfl, fun _ _ _ => nofun, fun _ _ _ _ => nofun⟩
    | _ => exact ⟨rfl, fun _ _ _ => nofun, fun _ _ _ _ => nofun⟩
  have hmem : ∀ p ∈ (s.spawn c.start).tasks, p ∈ s.tasks ∨ p = c.start := by
    intro p hp
    rcases List.mem_append.mp hp with hp | hp
    · exact Or.inl hp
    · exact Or.inr (List.mem_singleton.mp hp)
  refine ⟨h.data, fun p hp r hr => ?_, h.keys, fun r d m hm => ?_, fun r d n hp => ?_,
    fun src r d next hp => ?_⟩
  · rcases hmem p hp with hp | rfl
    · exact h.within p hp r hr
    · rw [hstart.1] at hr
      cases hr
      exact hc
  · exact (h.cached r d m hm).imp_right (List.mem_append_left _)
  · exact h.inserts r d n ((hmem _ hp).resolve_right fun he => hstart.2.1 r d n he.symm)
  · exact h.moves src r d next ((hmem _ hp).resolve_right fun he => hstart.2.2 src r d next he.symm)

section Step

variable {repos : List Str} {w w' : World S} {tasks tasks' : List Phase} {p p' : Phase}
  (h : Told repos ⟨w, tasks⟩) (hself : p ∈ tasks) (hmem : ∀ q ∈ tasks', q = p' ∨ q ∈ tasks)
  (hkept : ∀ q ∈ tasks, q = p ∨ q ∈ tasks')
  (hwithin : ∀ q ∈ tasks', ∀ r, q.repo? = some r → r ∈ repos)

include h hmem hkept hwithin

theorem told_quiet (hquiet : Quiet w w')
    (hinsert : ∀ repo d n, p' = .insert repo d n →
      ∃ b, w.fs.read (blobPath S.root repo d) = some b ∧ b.length = n)
    (hmove : ∀ src repo d next, p' = .move src repo d next → DataNamed w → ¬ IsBlobName src)
    (hother : ∀ repo d, p ≠ .invalidate repo d) : Told repos ⟨w', tasks'⟩ := by
  have hread : ∀ r d, w'.fs.read (blobPath S.root r d) = w.fs.read (blobPath S.root r d) :=
    fun r d => hquiet.read h.data _ (isBlobName_blobPath _ _ _)
  have hcache : w'.metaCache = w.metaCache := hquiet.cache
  refine ⟨hquiet.data h.data, hwithin, fun r d m hm => ?_, fun r d m hm => ?_, fun r d n hq => ?_,
    fun src r d next hq => ?_⟩
  · exact h.keys r d m (hcache ▸ hm)
  · rcases h.cached r d m (hcache ▸ hm) with ⟨hpath, b, hb, hsize⟩ | hpending
    · exact Or.inl ⟨hpath, b, (hread r d).trans hb, hsize⟩
    · exact Or.inr ((hkept _ hpending).resolve_left fun he => hother r d he.symm)
  · simp only [hread]
    rcases hmem _ hq with he | hq
    · obtain ⟨b, hb, hlen⟩ := hinsert r d n he.symm
      exact ⟨b, hb, hlen.symm⟩
    · exact h.inserts r d n hq
  · rcases hmem _ hq with he | hq
    · exact hmove src r d next he.symm h.data
    · exact h.moves src r d next hq

include hself in
theorem told_filled {repo : Str} {d : Digest} {n : Nat} (hp : p = .insert repo d n)
    (hp' : p' = .returned)
    (hw' : w' = w.tick.filled repo d ⟨blobPath S.root repo d, n, w.tick.now⟩) :
    Told repos ⟨w', tasks'⟩ := by
  subst hp hp' hw'
  have hlook : ∀ r e m, (w.tick.filled repo d ⟨blobPath S.root repo d, n, w.tick.now⟩).metaCache.lookup
      (r, e) = some m → ((r, e) = (repo, d) ∧ m = ⟨blobPath S.root repo d, n, w.tick.now⟩) ∨
        w.metaCache.lookup (r, e) = some m := by
    intro r e m hm
    by_cases hkey : (r, e) = (repo, d)
    · rw [World.filled, hkey, AList.lookup_insert] at hm
      exact Or.inl ⟨hkey, (Option.some.inj hm).symm⟩
    · rw [World.filled, AList.lookup_insert_ne hkey] at hm
      exact Or.inr hm
  refine ⟨h.data, hwithin, fun r e m hm => ?_, fun r e m hm => ?_, fun r e k hq => ?_,
    fun src r e next hq => ?_⟩
  · rcases hlook r e m hm with ⟨hkey, -⟩ | hm
    · cases hkey
      exact h.within _ hself _ rfl
    · exact h.keys r e m hm
  · rcases hlook r e m hm with ⟨hkey, rfl⟩ | hm
    · cases hkey
      obtain ⟨b, hb, hlen⟩ := h.inserts _ _ n hself
      exact Or.inl ⟨rfl, b, hb, hlen⟩
    · rcases h.cached r e m hm with hdesc | hpending
      · exact Or.inl hdesc
      · exact Or.inr ((hkept _ hpending).resolve_left nofun)
  · exact h.inserts r e k ((hmem _ hq).resolve_left nofun)
  · exact h.moves src r e next ((hmem _ hq).resolve_left nofun)

variable (hapart : Apart S repos)

include hself hapart

theorem told_moved {src : Path} {repo : Str} {d : Digest} {next : Next} {b : Bytes}
    (hp : p = .move src repo d next) (hp' : p' = next.phase repo d true)
    (hdata : DataNamed w → DataNamed w') (hcache : w'.metaCache = w.metaCache)
    (hfs : w'.fs = (w.fs.del src).set (blobPath S.root repo d) (.file b))
    (hfits : Fits ⟨w, tasks⟩ repo d next b.length) : Told repos ⟨w', tasks'⟩ := by
  subst hp hp'
  have hrepo : repo ∈ repos := h.within _ hself _ rfl
  have hnew : w'.fs.read (blobPath S.root repo d) = some b := by
    rw [hfs, Fs.read_eq_some, Fs.node_set, if_pos rfl]
  have hold : ∀ r e, r ∈ repos → (r, e) ≠ (repo, d) →
      w'.fs.read (blobPath S.root r e) = w.fs.read (blobPath S.root r e) := by
    intro r e hr hne
    refine Fs.read_congr ?_
    rw [hfs, Fs.node_set, if_neg fun he => hne (hapart.blobPath_eq hr hrepo he), Fs.node_del, if_neg]
    rintro rfl
    exact h.moves _ _ _ _ hself (isBlobName_blobPath _ _ _)
  have hfile : ∀ r e c n, r ∈ repos → w.fs.read (blobPath S.root r e) = some c → n = c.length →
      ((r, e) = (repo, d) → n = b.length) →
        ∃ c', w'.fs.read (blobPath S.root r e) = some c' ∧ n = c'.length := by
    intro r e c n hr hc hlen hfit
    by_cases hkey : (r, e) = (repo, d)
    · have hsame := hfit hkey
      cases hkey
      exact ⟨b, hnew, hsame⟩
    · exact ⟨c, (hold r e hr hkey).trans hc, hlen⟩
  refine ⟨hdata h.data, hwithin, fun r e m hm => ?_, fun r e m hm => ?_, fun r e n hq => ?_,
    fun src' r e next' hq => ?_⟩
  · exact h.keys r e m (hcache ▸ hm)
  · have hm' : w.metaCache.lookup (r, e) = some m := hcache ▸ hm
    rcases h.cached r e m hm' with ⟨hpath, c, hc, hsize⟩ | hpending
    · refine Or.inl ⟨hpath, hfile r e c m.size (h.keys r e m hm') hc hsize fun hkey => ?_⟩
      cases hkey
      exact hfits.cached m hm'
    · exact Or.inr ((hkept _ hpending).resolve_left nofun)
  · rcases hmem _ hq with he | hq
    · have hsame : repo = r ∧ d = e ∧ n = b.length := by
        have hnext := hfits.next
        cases next with
        | put m =>
          cases he
          exact ⟨rfl, rfl, hnext⟩
        | finalize session => cases he
        | fetch m =>
          cases he
          exact ⟨rfl, rfl, hnext⟩
      obtain ⟨rfl, rfl, hlen⟩ := hsame
      exact ⟨b, hnew, hlen⟩
    · obtain ⟨c, hc, hlen⟩ := h.inserts r e n hq
      refine hfile r e c n (h.within _ hq _ rfl) hc hlen fun hkey => ?_
      cases hkey
      exact hfits.tasks _ hq rfl rfl
  · rcases hmem _ hq with he | hq
    · cases next <;> cases he
    · exact h.moves src' r e next' hq

theorem told_removed {repo : Str} {d : Digest} (hp : p = .remove repo d)
    (hp' : p' = .invalidate repo d) (hlast : p' ∈ tasks') (hdata : DataNamed w → DataNamed w')
    (hcache : w'.metaCache = w.metaCache)
    (hfs : ∀ q, q ≠ blobPath S.root repo d → w'.fs.read q = w.fs.read q)
    (hclear : ∀ q ∈ tasks, ¬ q.inserts repo d) : Told repos ⟨w', tasks'⟩ := by
  subst hp hp'
  have hrepo : repo ∈ repos := h.within _ hself _ rfl
  have hold : ∀ r e, r ∈ repos → (r, e) ≠ (repo, d) →
      w'.fs.read (blobPath S.root r e) = w.fs.read (blobPath S.root r e) := fun r e hr hne =>
    hfs _ fun he => hne (hapart.blobPath_eq hr hrepo he)
  refine ⟨hdata h.data, hwithin, fun r e m hm => ?_, fun r e m hm => ?_, fun r e n hq => ?_,
    fun src r e next hq => ?_⟩
  · exact h.keys r e m (hcache ▸ hm)
  · have hm' : w.metaCache.lookup (r, e) = some m := hcache ▸ hm
    by_cases hkey : (r, e) = (repo, d)
    · cases hkey
      exact Or.inr hlast
    · rcases h.cached r e m hm' with ⟨hpath, c, hc, hsize⟩ | hpending
      · exact Or.inl ⟨hpath, c, (hold r e (h.keys r e m hm') hkey).trans hc, hsize⟩
      · exact Or.inr ((hkept _ hpending).resolve_left nofun)
  · have hq := (hmem _ hq).resolve_left nofun
    obtain ⟨c, hc, hlen⟩ := h.inserts r e n hq
    refine ⟨c, (hold r e (h.within _ hq _ rfl) ?_).trans hc, hlen⟩
    intro hkey
    cases hkey
    exact hclear _ hq ⟨rfl, rfl⟩
  · exact h.moves src r e next ((hmem _ hq).resolve_left nofun)

omit hself hapart in
theorem told_invalidated {repo : Str} {d : Digest} (hp : p = .invalidate repo d)
    (hp' : p' = .returned) (hw' : w' = { w with metaCache := w.metaCache.erase (repo, d) }) :
    Told repos ⟨w', tasks'⟩ := by
  subst hp hp' hw'
  have hlook : ∀ r e m, (w.metaCache.erase (repo, d)).lookup (r, e) = some m →
      (r, e) ≠ (repo, d) ∧ w.metaCache.lookup (r, e) = some m := by
    intro r e m hm
    by_cases hkey : (r, e) = (repo, d)
    · rw [hkey, AList.lookup_erase] at hm
      cases hm
    · rw [AList.lookup_erase_ne hkey] at hm
      exact ⟨hkey, hm⟩
  refine ⟨h.data, hwithin, fun r e m hm => ?_, fun r e m hm => ?_, fun r e k hq => ?_,
    fun src r e next hq => ?_⟩
  · exact h.keys r e m (hlook r e m hm).2
  · obtain ⟨hne, hm⟩ := hlook r e m hm
    rcases h.cached r e m hm with hdesc | hpending
    · exact Or.inl hdesc
    · refine Or.inr ((hkept _ hpending).resolve_left fun he => ?_)
      cases he
      exact hne rfl
  · exact h.inserts r e k ((hmem _ hq).resolve_left nofun)
  · exact h.moves src r e next ((hmem _ hq).resolve_left nofun)

end Step

theorem told_turn {repos : List Str} (hapart : Apart S repos) {s t : Pool (World S) Phase} {i : Nat}
    (h : Told repos s) (htimely : Timely repos s (.turn i)) (hturn : s.turn advance i = some t) :
    Told repos t := by
  obtain ⟨before, p, after, w', p', hget, htasks, hadv, rfl⟩ := Pool.turn_cases hturn
  obtain ⟨w, tasks⟩ := s
  simp only at htasks hadv hget
  have hself : p ∈ tasks := by
    rw [htasks]
    simp
  have hlast : p' ∈ before ++ p' :: after := by simp
  have hmem : ∀ q ∈ before ++ p' :: after, q = p' ∨ q ∈ tasks := by
    intro q hq
    rw [htasks]
    exact (Pool.mem_replace hq).imp_right And.right
  have hkept : ∀ q ∈ tasks, q = p ∨ q ∈ before ++ p' :: after := by
    intro q hq
    rw [htasks] at hq
    exact (Pool.mem_replace hq).imp_right And.right
  have hwithin : ∀ q ∈ before ++ p' :: after, ∀ r, q.repo? = some r → r ∈ repos := by
    intro q hq r hr
    rcases hmem q hq with rfl | hq
    · exact h.within p hself r (advance_repo hadv hr)
    · exact h.within q hq r hr
  have hguard := htimely.2
  simp only [hget] at hguard
  cases stepped_of_advance hadv with
  | quiet hquiet hinsert hmove hother =>
    exact told_quiet h hmem hkept hwithin hquiet (fun r d n he => (hinsert r d n he).2) hmove hother
  | filled hw' => exact told_filled h hself hmem hkept hwithin rfl rfl hw'
  | moved hread hdata hcache hfs =>
    exact told_moved h hself hmem hkept hwithin hapart rfl rfl hdata hcache hfs (hguard _ hread)
  | removed hdata hcache hfs =>
    exact told_removed h hself hmem hkept hwithin hapart rfl rfl hlast hdata hcache hfs hguard
  | invalidated hw' => exact told_invalidated h hmem hkept hwithin rfl rfl hw'

theorem told_step {repos : List Str} (hapart : Apart S repos) {s t : Pool (World S) Phase} {act : Act}
    (h : Told repos s) (htimely : Timely repos s act) (hstep : step s act = some t) : Told repos t := by
  cases act with
  | call c =>
    cases hstep
    exact told_call h htimely.1
  | turn i => exact told_turn hapart h htimely hstep
  | advance n =>
    cases hstep
    exact ⟨h.data, h.within, h.keys, h.cached, h.inserts, h.moves⟩

/-- In every timely run of operations on repositories with pairwise different directories,
`blob_meta` tells the truth in every state in which no operation is in progress. -/
theorem cache_tells_truth (S : Setup) (repos : List Str) (hapart : Apart S repos) (w : World S)
    (hdata : DataNamed w) (hkeys : ∀ r d m, w.metaCache.lookup (r, d) = some m → r ∈ repos)
    (hcache : CacheHolds w) (s : Pool (World S) Phase)
    (hrun : (runs step (Timely repos)).rel ⟨w, []⟩ s) (hover : ∀ p ∈ s.tasks, p.repo? = none) :
    TellsTruth s.memory := by
  have hstart : Told repos (⟨w, []⟩ : Pool (World S) Phase) :=
    ⟨hdata, fun _ hq => absurd hq List.not_mem_nil, hkeys, fun r d m hm => Or.inl (hcache r d m hm),
      fun _ _ _ hq => absurd hq List.not_mem_nil, fun _ _ _ _ hq => absurd hq List.not_mem_nil⟩
  have htold := Evolution.star_keep (I := Told repos)
    (fun _ _ ⟨_, htimely, hstep⟩ hs => told_step hapart hs htimely hstep) hrun hstart
  refine CacheHolds.tellsTruth fun r d m hm => ?_
  refine (htold.cached r d m hm).resolve_right fun hpending => ?_
  cases hover _ hpending

end Truth

/-! A blob that is deleted before the entry for it is inserted. -/

def blob : Bytes := Codec.utf8 "blob".toList

def blobDigest : Digest := Codec.standalone.digest blob

def blobRepo : Str := "library/app".toList

def fresh : Pool (World Codec.standalone) Phase := ⟨World.start Codec.standalone [] [], []⟩

theorem dataNamed_fresh : DataNamed fresh.memory :=
  fun key st h => absurd h (by simp [fresh, World.start])

theorem keys_fresh (repos : List Str) : ∀ r d m, fresh.memory.metaCache.lookup (r, d) = some m →
    r ∈ repos := fun r d m h => absurd h (by simp [fresh, World.start])

theorem cacheHolds_fresh : CacheHolds fresh.memory :=
  fun r d m h => absurd h (by simp [fresh, World.start])

theorem apart_singleton (S : Setup) (repo : Str) : Apart S [repo] := by
  intro r hr r' hr' _
  rw [List.mem_singleton.mp hr, List.mem_singleton.mp hr']

/-- `blob_meta` finds the blob or not. -/
def finds (s : Pool (World Codec.standalone) Phase) : Bool :=
  match ((blobMeta blobRepo blobDigest).exec s.memory).1 with
  | .ok (some _) => true
  | _ => false

theorem exists_of_finds {s : Pool (World Codec.standalone) Phase} (h : finds s = true) :
    ∃ m w', (blobMeta blobRepo blobDigest).exec s.memory = (.ok (some m), w') := by
  unfold finds at h
  split at h
  · rename_i m hm
    exact ⟨m, _, Prod.ext hm rfl⟩
  · cases h

instance (repos : List Str) : DecidableRel (Within (S := Codec.standalone) repos) := fun _ act =>
  match act with
  | .call c => inferInstanceAs (Decidable (c.repo ∈ repos))
  | .turn _ | .advance _ => .isTrue trivial

instance (repo : Str) (d : Digest) : DecidablePred (Phase.inserts repo d) := fun p => by
  unfold Phase.inserts
  split <;> infer_instance

instance (repo : Str) (d : Digest) (n : Nat) : DecidablePred (Phase.fits repo d n) := fun p => by
  unfold Phase.fits
  split <;> infer_instance

instance (n : Nat) : DecidablePred (Next.fits n) := fun next => by
  unfold Next.fits
  split <;> infer_instance

instance (s : Pool (World Codec.standalone) Phase) (repo : Str) (d : Digest) (next : Next) (n : Nat) :
    Decidable (Fits s repo d next n) :=
  decidable_of_iff ((∀ m ∈ s.memory.metaCache.lookup (repo, d), m.size = n) ∧
    (∀ p ∈ s.tasks, p.fits repo d n) ∧ next.fits n)
    ⟨fun h => ⟨h.1, h.2.1, h.2.2⟩, fun h => ⟨h.cached, h.tasks, h.next⟩⟩

instance (repos : List Str) : DecidableRel (Timely (S := Codec.standalone) repos) := fun s act =>
  match act with
  | .call c => inferInstanceAs (Decidable (Within repos s (.call c) ∧ True))
  | .advance n => inferInstanceAs (Decidable (Within repos s (.advance n) ∧ True))
  | .turn i => by
    unfold Timely
    simp only
    split <;> infer_instance

/-- The blob is renamed, then deleted and its entry invalidated; then its entry is inserted. All
operations are over, and `blob_meta` finds a blob that is not there. -/
theorem late_insert_is_stale :
    ¬ ∀ (S : Setup) (repos : List Str), Apart S repos → ∀ w : World S, DataNamed w →
      (∀ r d m, w.metaCache.lookup (r, d) = some m → r ∈ repos) → CacheHolds w →
      ∀ s : Pool (World S) Phase, (runs step (Within repos)).rel ⟨w, []⟩ s →
        (∀ p ∈ s.tasks, p.repo? = none) → s.memory.log.ioFailed = false → TellsTruth s.memory := by
  intro h
  obtain ⟨s, hrun, hover, hfailed, hfile, hfinds⟩ := exists_run_of_follow step (Within [blobRepo]) fresh
    [.call (.putBlobBuffered blobRepo blobDigest blob), .call (.deleteBlob blobRepo blobDigest),
      .turn 0, .turn 0, .turn 1, .turn 1, .turn 0]
    (fun s => (∀ p ∈ s.tasks, p.repo? = none) ∧ s.memory.log.ioFailed = false ∧
      s.memory.fs.read (blobPath Codec.standalone.root blobRepo blobDigest) = none ∧ finds s = true)
    (by decide +kernel)
  have htruth := h Codec.standalone [blobRepo] (apart_singleton _ _) _ dataNamed_fresh (keys_fresh _)
    cacheHolds_fresh s hrun hover hfailed
  obtain ⟨m, w', hmeta⟩ := exists_of_finds hfinds
  obtain ⟨b, hb, -⟩ := htruth.sound blobRepo blobDigest m w' hmeta
  rw [hfile] at hb
  cases hb

/-- A blob is stored while `blob_meta` looks for it, deleted after both have ended and stored
again. -/
theorem timely_run_is_truthful :
    ∃ s : Pool (World Codec.standalone) Phase, finds s = true ∧ TellsTruth s.memory := by
  obtain ⟨s, hrun, hover, hfinds⟩ := exists_run_of_follow step (Timely [blobRepo]) fresh
    [.call (.putBlobBuffered blobRepo blobDigest blob), .call (.blobMeta blobRepo blobDigest),
      .turn 0, .turn 1, .turn 0, .turn 1, .turn 0, .turn 1, .advance 100,
      .call (.deleteBlob blobRepo blobDigest), .call (.putBlobBuffered blobRepo blobDigest blob),
      .turn 2, .turn 3, .turn 3, .turn 2, .turn 3]
    (fun s => (∀ p ∈ s.tasks, p.repo? = none) ∧ finds s = true) (by decide +kernel)
  exact ⟨s, hfinds, cache_tells_truth Codec.standalone [blobRepo] (apart_singleton _ _) _ dataNamed_fresh
    (keys_fresh _) cacheHolds_fresh s hrun hover⟩

end Quill.Registry.CacheSteps
