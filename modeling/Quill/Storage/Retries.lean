import Quill.Storage.Sequences

/-!
# Retrying a rejected upload

`finalize` appends the last chunk before it compares the digests, and a mismatch does not take
the chunk back. The session stays, as its comment says, but with the chunk in the data file,
in the hasher and in the counter: sent again, the chunk counts twice. So a rejected `finalize`
leaves the session as it was, ready to be repeated, exactly when it came without a last chunk
(`mismatch_retryable_iff`).
-/

namespace Quill.Uploads.Sequential

open Text Files Cas World LocalStorage

variable {S : Setup} {w w' : World S} {repo session : Str}

/-- The data file, the hasher and the counter of the session are the same in both states. -/
def SameSession (w w' : World S) (repo session : Str) : Prop :=
  ∃ st st', w.sessions.lookup (repo, session) = some st ∧
    w'.sessions.lookup (repo, session) = some st' ∧ st'.finalized = st.finalized ∧
    st'.dataPath = st.dataPath ∧ w'.fs.read st'.dataPath = w.fs.read st.dataPath ∧
    st'.hasher = st.hasher ∧ st'.info.bytesReceived = st.info.bytesReceived

/-- The same call with the digest of the bytes of the session and of its chunk stores these as a
blob, unless a file-system step fails. -/
def RetrySucceeds (w' : World S) (repo session : Str) (lastChunk : Option Bytes) (b : Bytes) :
    Prop :=
  ∀ r w'', (finalize repo session lastChunk (S.digest (b ++ lastChunk.getD []))).exec w' = (r, w'') →
    w''.log.ioFailed = true ∨
      r = .ok (blobPath S.root repo (S.digest (b ++ lastChunk.getD [])),
        tally (b ++ lastChunk.getD [])) ∧
      w''.fs.read (blobPath S.root repo (S.digest (b ++ lastChunk.getD []))) =
        some (b ++ lastChunk.getD [])

/-- Without a last chunk, `finalize` only commits. -/
theorem finalize_of_empty {lastChunk : Option Bytes} (h : lastChunk.getD [] = []) (d : Digest) :
    finalize repo session lastChunk d = (commit repo session d : Prog (World S) _ _) := by
  cases lastChunk with
  | none => rfl
  | some chunk =>
    rw [Option.getD_some] at h
    subst h
    rfl

theorem exists_io_of_mapError {α : Type} {m : Prog (World S) IoKind α} {e : UploadError}
    (h : (m.mapError UploadError.io).exec w = (.error e, w')) : ∃ kind, e = .io kind := by
  rw [Prog.exec_mapError] at h
  cases hm : (m.exec w).1 with
  | error kind =>
    simp only [hm, Except.mapError, Prod.mk.injEq, Except.error.injEq] at h
    exact ⟨kind, h.1.symm⟩
  | ok a => simp [hm, Except.mapError] at h

/-- A commit that is rejected for its digest has found the session, and changes nothing. -/
theorem commit_mismatch {d : Digest} {expected got : Str}
    (hrun : (commit repo session d).exec w = (.error (.digestMismatch expected got), w')) :
    w' = w ∧ ∃ st, w.sessions.lookup (repo, session) = some st ∧ st.finalized = false := by
  have hget : (commit repo session d).exec w = _ := Prog.exec_bind_ok (Prog.exec_get w)
  cases hst : w.sessions.lookup (repo, session) with
  | none => cases (exec_commit_dead hst d).symm.trans hrun
  | some st =>
    cases hfin : st.finalized with
    | true =>
      rw [hget, hst] at hrun
      simp only [hfin, if_true] at hrun
      cases hrun
    | false =>
      by_cases hhex : S.hash.finalize st.hasher = d.hex
      · -- after the comparison only a file-system step can fail
        exfalso
        rw [hget] at hrun
        simp only [hst, hfin, Bool.false_eq_true, if_false, ne_eq, hhex, not_true_eq_false] at hrun
        rcases Prog.exec_bind_cases _ _ w with ⟨e, w₁, hdirs, hall⟩ | ⟨_, w₁, hdirs, hall⟩
        · cases hall.symm.trans hrun
          obtain ⟨kind, hkind⟩ := exists_io_of_mapError hdirs
          cases hkind
        · have hrun := hall.symm.trans hrun
          rcases Prog.exec_bind_cases _ _ w₁ with ⟨e, w₂, hmove, hall⟩ | ⟨_, w₂, hmove, hall⟩
          · cases hall.symm.trans hrun
            obtain ⟨kind, hkind⟩ := exists_io_of_mapError hmove
            cases hkind
          · cases hall.symm.trans hrun
      · cases (exec_commit_mismatch hst hfin hhex).symm.trans hrun
        exact ⟨rfl, st, rfl, hfin⟩

theorem commit_retry {b : Bytes} (h : Live w (repo, session) b) {r : Except UploadError (Path × Nat)}
    (hrun : (commit repo session (S.digest b)).exec w = (r, w')) :
    w'.log.ioFailed = true ∨ r = .ok (blobPath S.root repo (S.digest b), tally b) ∧
      w'.fs.read (blobPath S.root repo (S.digest b)) = some b := by
  obtain ⟨st, hst, hfin, hpath, hread, hfed, hcount⟩ := h
  have hhex : S.hash.finalize st.hasher = (S.digest b).hex := hfed.finalize
  rcases exec_commit_cases hst hfin hpath hread hhex with ⟨e, w₁, he, hfail⟩ | ⟨w₁, he, -, -, hblob⟩
  · cases he.symm.trans hrun
    exact Or.inl hfail
  · cases he.symm.trans hrun
    exact Or.inr ⟨by rw [hcount], hblob⟩

/-- Appending finds a session that is not finalized and its data file, or fails with another error
than a mismatch. -/
theorem append_cases (w : World S) (repo session : Str) (chunk : Bytes) :
    (∃ e w', (append repo session chunk).exec w = (.error e, w') ∧
      ∀ expected got, e ≠ .digestMismatch expected got) ∨
    ∃ st c, w.sessions.lookup (repo, session) = some st ∧ st.finalized = false ∧
      w.fs.read st.dataPath = some c := by
  have hget : (append repo session chunk).exec w = _ := Prog.exec_bind_ok (Prog.exec_get w)
  cases hst : w.sessions.lookup (repo, session) with
  | none =>
    rw [hget, hst]
    exact Or.inl ⟨_, _, rfl, fun _ _ h => by cases h⟩
  | some st =>
    cases hfin : st.finalized with
    | true =>
      rw [hget, hst]
      simp only [hfin, if_true]
      exact Or.inl ⟨_, _, rfl, fun _ _ h => by cases h⟩
    | false =>
      rcases Fs.exec_appendFile st.dataPath chunk w.fs with ⟨c, hread, -⟩ | ⟨-, hfail⟩
      · exact Or.inr ⟨st, c, rfl, hfin, hread⟩
      · rw [hget, hst]
        simp only [hfin, Bool.false_eq_true, if_false]
        obtain ⟨e, he⟩ := hfail
        rw [Prog.exec_bind_error (exec_mapError_error (exec_onFs_error he))]
        exact Or.inl ⟨_, _, rfl, fun _ _ h => by cases h⟩

/-- A last chunk stays in the data file of a rejected session. -/
theorem finalize_mismatch_read
    (hpath : ∀ st, w.sessions.lookup (repo, session) = some st →
      st.dataPath = dataPath S.root repo session)
    {chunk : Bytes} (hne : chunk ≠ []) {d : Digest} {expected got : Str}
    (hrun : (finalize repo session (some chunk) d).exec w =
      (.error (.digestMismatch expected got), w')) :
    ∃ c, w.fs.read (dataPath S.root repo session) = some c ∧
      w'.fs.read (dataPath S.root repo session) = some (c ++ chunk) := by
  have hempty : chunk.isEmpty = false := by
    rw [Bool.eq_false_iff, ne_eq, List.isEmpty_iff]
    exact hne
  simp only [finalize, hempty, Bool.false_eq_true, if_false] at hrun
  rcases append_cases w repo session chunk with ⟨e, w₁, he, hother⟩ | ⟨st, c, hst, hfin, hread⟩
  · cases (Prog.exec_bind_error he).symm.trans hrun
    exact absurd rfl (hother expected got)
  · obtain ⟨now, w₁, happend, -, -, hread₁⟩ := exec_append_live hst hfin (hpath st hst) hread chunk
    rw [Prog.exec_bind_ok happend] at hrun
    rw [(commit_mismatch hrun).1, ← hpath st hst]
    exact ⟨c, hread, hread₁⟩

theorem sameSession_refl {st : UploadState S.hash}
    (hst : w.sessions.lookup (repo, session) = some st) : SameSession w w repo session :=
  ⟨st, st, hst, hst, rfl, rfl, rfl, rfl, rfl⟩

/-- A rejected session is as it was exactly when there was no last chunk. -/
theorem sameSession_iff
    (hpath : ∀ st, w.sessions.lookup (repo, session) = some st →
      st.dataPath = dataPath S.root repo session)
    {lastChunk : Option Bytes} {d : Digest} {expected got : Str}
    (hrun : (finalize repo session lastChunk d).exec w =
      (.error (.digestMismatch expected got), w')) :
    SameSession w w' repo session ↔ lastChunk.getD [] = [] := by
  constructor
  · intro hsame
    by_contra hne
    obtain ⟨chunk, rfl⟩ : ∃ chunk, lastChunk = some chunk := by
      cases lastChunk with
      | none => exact absurd rfl hne
      | some chunk => exact ⟨chunk, rfl⟩
    rw [Option.getD_some] at hne
    obtain ⟨c, hread, hread'⟩ := finalize_mismatch_read hpath hne hrun
    obtain ⟨st, st', hst, -, -, hpath', hfile, -, -⟩ := hsame
    rw [hpath', hpath st hst, hread, hread'] at hfile
    exact hne (List.self_eq_append_right.mp (Option.some.inj hfile).symm)
  · intro hempty
    rw [finalize_of_empty hempty] at hrun
    obtain ⟨rfl, st, hst, -⟩ := commit_mismatch hrun
    exact sameSession_refl hst

/-- A `finalize` that is rejected for its digest leaves the session as it was exactly when it came
without a last chunk; and then the same call with the digest of what a session in step has
received succeeds. -/
theorem mismatch_retryable_iff
    (hpath : ∀ st, w.sessions.lookup (repo, session) = some st →
      st.dataPath = dataPath S.root repo session)
    {lastChunk : Option Bytes} {d : Digest} {expected got : Str}
    (hrun : (finalize repo session lastChunk d).exec w =
      (.error (.digestMismatch expected got), w')) :
    (SameSession w w' repo session ↔ lastChunk.getD [] = []) ∧
      ∀ b, Live w (repo, session) b →
        (SameSession w w' repo session ∧ RetrySucceeds w' repo session lastChunk b ↔
          lastChunk.getD [] = []) := by
  have hsame := sameSession_iff hpath hrun
  refine ⟨hsame, fun b hlive => ⟨fun h => hsame.mp h.1, fun hempty => ⟨hsame.mpr hempty, ?_⟩⟩⟩
  intro r w'' hretry
  rw [finalize_of_empty hempty] at hrun hretry
  obtain ⟨rfl, -⟩ := commit_mismatch hrun
  rw [hempty, List.append_nil] at hretry ⊢
  exact commit_retry hlive hretry

/-! A session with one byte that is finalized under a wrong digest. -/

def begun : List Call := [.createSession "a".toList, .append "a".toList first [97]]

def begunSession : World Codec.standalone := (perform boot begun).2

theorem live_begunSession : Live begunSession ("a".toList, first) [97] := by
  have hids : DistinctIds (perform boot begun).1 := by
    unfold DistinctIds
    decide +kernel
  have hrep := represents_received (sequence_perform boot begun) rfl hids (by decide +kernel)
  exact hrep.1.live _ _ (by decide +kernel)

/-- The digest of no content that the session had. -/
def wrong : Digest := Codec.standalone.digest [99]

theorem exec_finalize_wrong (lastChunk : Option Bytes)
    (h : ((finalize "a".toList first lastChunk wrong).exec begunSession).1 =
      .error (.digestMismatch wrong.toStr
        (Codec.standalone.digest ([97] ++ lastChunk.getD [])).toStr)) :
    ∃ w', (finalize "a".toList first lastChunk wrong).exec begunSession =
      (.error (.digestMismatch wrong.toStr
        (Codec.standalone.digest ([97] ++ lastChunk.getD [])).toStr), w') :=
  ⟨_, Prod.ext h rfl⟩

theorem dataPath_begunSession (st : UploadState Codec.standalone.hash)
    (hst : begunSession.sessions.lookup ("a".toList, first) = some st) :
    st.dataPath = dataPath Codec.standalone.root "a".toList first := by
  obtain ⟨st', hst', -, hpath, -⟩ := live_begunSession
  cases hst'.symm.trans hst
  exact hpath

/-- Without a chunk, the rejected session can be finalized under the digest of its byte. -/
theorem chunkless_mismatch_retryable : ∃ w' : World Codec.standalone,
    (finalize "a".toList first none wrong).exec begunSession =
      (.error (.digestMismatch wrong.toStr (Codec.standalone.digest [97]).toStr), w') ∧
    SameSession begunSession w' "a".toList first ∧
    RetrySucceeds w' "a".toList first none [97] := by
  obtain ⟨w', hrun⟩ := exec_finalize_wrong none (by decide +kernel)
  have hiff := mismatch_retryable_iff dataPath_begunSession hrun
  exact ⟨w', hrun, (hiff.2 [97] live_begunSession).mpr rfl⟩

/-- A rejected `PUT` of one byte leaves the byte in the session, and the same `PUT` with the digest
of both bytes is rejected as well. -/
theorem rejected_chunk_counts_twice : ∃ w' : World Codec.standalone,
    Live begunSession ("a".toList, first) [97] ∧
    (finalize "a".toList first (some [98]) wrong).exec begunSession =
      (.error (.digestMismatch wrong.toStr (Codec.standalone.digest [97, 98]).toStr), w') ∧
    w'.fs.read (dataPath Codec.standalone.root "a".toList first) = some [97, 98] ∧
    ¬ SameSession begunSession w' "a".toList first ∧
    ((finalize "a".toList first (some [98]) (Codec.standalone.digest [97, 98])).exec w').1 =
      .error (.digestMismatch (Codec.standalone.digest [97, 98]).toStr
        (Codec.standalone.digest [97, 98, 98]).toStr) := by
  have hagain : ((finalize "a".toList first (some [98]) (Codec.standalone.digest [97, 98])).exec
      ((finalize "a".toList first (some [98]) wrong).exec begunSession).2).1 =
      .error (.digestMismatch (Codec.standalone.digest [97, 98]).toStr
        (Codec.standalone.digest [97, 98, 98]).toStr) := by
    decide +kernel
  obtain ⟨w', hrun⟩ := exec_finalize_wrong (some [98]) (by decide +kernel)
  rw [hrun] at hagain
  obtain ⟨c, hread, hread'⟩ := finalize_mismatch_read dataPath_begunSession (by simp) hrun
  obtain ⟨st, -, -, hpath, hbyte, -⟩ := live_begunSession
  cases (hpath ▸ hbyte).symm.trans hread
  refine ⟨w', live_begunSession, hrun, hread', fun hsame => ?_, hagain⟩
  cases (sameSession_iff dataPath_begunSession hrun).mp hsame

end Quill.Uploads.Sequential
