import Quill.Base.Simulation
import Quill.Storage.Sequences

/-!
# Appends that fail

`append` under an I/O fault. Opening the data file can fail, and `write_all` can fail after any number
of bytes of the chunk have reached the file; in both cases the hasher and the counter stay as they
were. `AsIfNever` compares every later run of successful calls on the session with the run
that starts before the failed call, and `Soundly` asks for the digest of a committed blob.

Both hold exactly when no byte has reached the file: the two worlds then agree on everything that
`append` and `finalize` read (`SameFor`), and otherwise the next `finalize` commits the torn chunk.
-/

namespace Quill.Uploads.Torn

open Text Files Cas World LocalStorage Uploads.Sequential

/-! ## Faults -/

/-- Where an append is hit, and how many bytes of the chunk have reached the file before. -/
inductive Fault where
  | opening
  | writing (reached : Nat)

/-- Open with `append(true)` and `write_all`, under a fault. -/
def appendFile (p : Path) (chunk : Bytes) : Option Fault → Prog Fs IoKind Unit
  | none => Fs.appendFile p chunk
  | some .opening => throw .other
  | some (.writing reached) => do
    Fs.appendFile p (chunk.take reached)
    throw .other

section Append

variable {S : Setup}

/-- `UploadStore::append` under a fault. -/
def append (fault : Option Fault) (repo session : Str) (chunk : Bytes) :
    Prog (World S) UploadError Nat := do
  match (← get).sessions.lookup (repo, session) with
  | none => throw (.notFound session)
  | some st =>
    if st.finalized then throw .alreadyFinalized
    else
      (onFs (appendFile st.dataPath chunk fault)).mapError .io
      let now ← wallNow
      let st' := UploadState.fed st chunk now
      modify fun w => { w with sessions := w.sessions.insert (repo, session) st' }
      let _ ← (writeMetaFor repo session st'.info.bytesReceived).attempt
      return st'.info.bytesReceived

theorem append_none (repo session : Str) (chunk : Bytes) :
    append (S := S) none repo session chunk = Uploads.append repo session chunk := rfl

/-- The session is live and a byte of the chunk has reached its data file. -/
def Reaches (w : World S) (fault : Option Fault) (repo session : Str) (chunk : Bytes) : Prop :=
  ∃ st c reached, fault = some (.writing reached) ∧ w.sessions.lookup (repo, session) = some st ∧
    st.finalized = false ∧ w.fs.read st.dataPath = some c ∧ chunk.take reached ≠ []

/-- What `append` and `finalize` read is the same in both worlds. -/
structure SameFor (w w' : World S) : Prop where
  nodes : ∀ q, w.fs.node q = w'.fs.node q
  sessions : w.sessions = w'.sessions
  wall : w.wall = w'.wall

theorem SameFor.refl (w : World S) : SameFor w w := ⟨fun _ => rfl, rfl, rfl⟩

theorem exec_appendFile_error {p : Path} {chunk : Bytes} {fault : Option Fault} {fs fs' : Fs}
    {e : IoKind} (h : (appendFile p chunk fault).exec fs = (.error e, fs')) :
    fs' = fs ∨ ∃ c reached, fault = some (.writing reached) ∧ fs.read p = some c ∧
      fs' = fs.set p (.file (c ++ chunk.take reached)) := by
  cases fault with
  | none =>
    rcases Fs.exec_appendFile p chunk fs with ⟨c, -, he⟩ | ⟨-, e', he⟩
    · cases he.symm.trans h
    · cases he.symm.trans h
      exact Or.inl rfl
  | some fault =>
    cases fault with
    | opening =>
      cases h
      exact Or.inl rfl
    | writing reached =>
      have hseq : (appendFile p chunk (some (.writing reached))).exec fs =
        (Fs.appendFile p (chunk.take reached) >>= fun _ => throw .other).exec fs := rfl
      rw [hseq] at h
      rcases Fs.exec_appendFile p (chunk.take reached) fs with ⟨c, hread, he⟩ | ⟨-, e', he⟩
      · rw [Prog.exec_bind_ok he] at h
        cases h
        exact Or.inr ⟨c, reached, rfl, hread, rfl⟩
      · rw [Prog.exec_bind_error he] at h
        cases h
        exact Or.inl rfl

/-- A failed append leaves the session as it was, and a part of the chunk in the file. -/
theorem exec_append_error {w w' : World S} {fault : Option Fault} {repo session : Str}
    {chunk : Bytes} {e : UploadError}
    (h : (append fault repo session chunk).exec w = (.error e, w')) :
    SameFor w w' ∨ ∃ st c reached, fault = some (.writing reached) ∧
      w.sessions.lookup (repo, session) = some st ∧ st.finalized = false ∧
      w.fs.read st.dataPath = some c ∧
      w' = { w with
        fs := w.fs.set st.dataPath (.file (c ++ chunk.take reached))
        log := { w.log with ioFailed := true } } := by
  have hget : (append fault repo session chunk).exec w = _ := Prog.exec_bind_ok (Prog.exec_get w)
  rw [hget] at h
  cases hst : w.sessions.lookup (repo, session) with
  | none =>
    rw [hst] at h
    cases h
    exact Or.inl (SameFor.refl w)
  | some st =>
    rw [hst] at h
    cases hfin : st.finalized with
    | true =>
      simp only [hfin, if_true] at h
      cases h
      exact Or.inl (SameFor.refl w)
    | false =>
      simp only [hfin, Bool.false_eq_true, if_false] at h
      rcases hop : (appendFile st.dataPath chunk fault).exec w.fs with ⟨e' | u, fs'⟩
      · rw [Prog.exec_bind_error (exec_mapError_error (exec_onFs_error hop))] at h
        cases h
        rcases exec_appendFile_error hop with rfl | ⟨c, reached, hfault, hread, rfl⟩
        · exact Or.inl ⟨fun _ => rfl, rfl, rfl⟩
        · exact Or.inr ⟨st, c, reached, hfault, rfl, hfin, hread, rfl⟩
      · rw [Prog.exec_bind_ok (exec_mapError_ok (exec_onFs_ok hop))] at h
        cases h

theorem exec_append_torn {w : World S} {repo session : Str} {st : UploadState S.hash} {c : Bytes}
    (hst : w.sessions.lookup (repo, session) = some st) (hfin : st.finalized = false)
    (hread : w.fs.read st.dataPath = some c) (chunk : Bytes) (reached : Nat) :
    (append (some (.writing reached)) repo session chunk).exec w = (.error (.io .other), { w with
      fs := w.fs.set st.dataPath (.file (c ++ chunk.take reached))
      log := { w.log with ioFailed := true } }) := by
  have hget : (append (some (.writing reached)) repo session chunk).exec w = _ :=
    Prog.exec_bind_ok (Prog.exec_get w)
  rw [hget]
  simp only [hst, hfin, Bool.false_eq_true, if_false]
  have hop : (appendFile st.dataPath chunk (some (.writing reached))).exec w.fs =
      (.error .other, w.fs.set st.dataPath (.file (c ++ chunk.take reached))) := by
    rcases Fs.exec_appendFile st.dataPath (chunk.take reached) w.fs with ⟨c', hc', he⟩ | ⟨hnone, -⟩
    · cases hread.symm.trans hc'
      exact (Prog.exec_bind_ok he).trans rfl
    · cases hread.symm.trans hnone
  rw [Prog.exec_bind_error (exec_mapError_error (exec_onFs_error hop))]

end Append

/-! ## Worlds that agree -/

section Same

variable {S : Setup} {α : Type}

/-- File systems with the same files and directories. -/
def SameNodes (fs fs' : Fs) : Prop := ∀ q, fs.node q = fs'.node q

theorem SameNodes.set {fs fs' : Fs} (h : SameNodes fs fs') (p : Path) (n : Node) :
    SameNodes (fs.set p n) (fs'.set p n) := by
  intro q
  rw [Fs.node_set, Fs.node_set, h q]

theorem SameNodes.del {fs fs' : Fs} (h : SameNodes fs fs') (p : Path) :
    SameNodes (fs.del p) (fs'.del p) := by
  intro q
  rw [Fs.node_del, Fs.node_del, h q]

theorem SameNodes.isDir {fs fs' : Fs} (h : SameNodes fs fs') (p : Path) :
    fs.isDir p = fs'.isDir p := Fs.isDir_congr (h p)

theorem SameNodes.blocked {fs fs' : Fs} (h : SameNodes fs fs') (p : Path) :
    fs.blocked p = fs'.blocked p := by
  unfold Fs.blocked
  congr 1
  funext q
  rw [h.isDir q, Fs.isFile, Fs.isFile, Fs.read_congr (h q)]

theorem createDirAll_same (p : Path) :
    Simulates SameNodes (Fs.createDirAll p) (Fs.createDirAll p) := by
  induction p with
  | nil => exact Simulates.of_pure ()
  | cons n p ih =>
    refine ih.seq fun _ fs fs' h => ?_
    simp only [Fs.exec_io, ← h (n :: p)]
    rcases fs.node (n :: p) with _ | _ | _
    · exact ⟨rfl, h.set _ _⟩
    · exact ⟨rfl, h⟩
    · exact ⟨rfl, h⟩

theorem appendFile_same (p : Path) (b : Bytes) :
    Simulates SameNodes (Fs.appendFile p b) (Fs.appendFile p b) := by
  intro fs fs' h
  simp only [Fs.appendFile, Fs.exec_io, ← h p]
  rcases fs.node p with _ | _ | _
  · exact ⟨rfl, h⟩
  · exact ⟨rfl, h⟩
  · exact ⟨rfl, h.set _ _⟩

theorem readFile_same (p : Path) : Simulates SameNodes (Fs.readFile p) (Fs.readFile p) := by
  intro fs fs' h
  simp only [Fs.readFile, Fs.exec_io, ← h p, ← h.blocked p]
  rcases fs.node p with _ | _ | _
  · exact ⟨rfl, h⟩
  · exact ⟨rfl, h⟩
  · exact ⟨rfl, h⟩

theorem removeFile_same (p : Path) : Simulates SameNodes (Fs.removeFile p) (Fs.removeFile p) := by
  intro fs fs' h
  simp only [Fs.removeFile, Fs.exec_io, ← h p, ← h.blocked p]
  rcases fs.node p with _ | _ | _
  · exact ⟨rfl, h⟩
  · exact ⟨rfl, h⟩
  · exact ⟨rfl, h.del _⟩

theorem writeFile_same (p : Path) (b : Bytes) :
    Simulates SameNodes (Fs.writeFile p b) (Fs.writeFile p b) := by
  intro fs fs' h
  simp only [Fs.writeFile, Fs.exec_io, ← h.isDir]
  by_cases hp : fs.isDir p.tail = true ∧ fs.isDir p = false
  · rw [if_pos hp, if_pos hp]
    exact ⟨rfl, h.set _ _⟩
  · rw [if_neg hp, if_neg hp]
    exact ⟨rfl, h⟩

theorem rename_same (src dst : Path) :
    Simulates SameNodes (Fs.rename src dst) (Fs.rename src dst) := by
  intro fs fs' h
  simp only [Fs.rename, Fs.exec_io, ← h src, ← h.isDir]
  rcases fs.node src with _ | _ | b
  · exact ⟨rfl, h⟩
  · exact ⟨rfl, h⟩
  · by_cases hdst : fs.isDir dst.tail = true ∧ fs.isDir dst = false
    · simp only [if_pos hdst]
      exact ⟨trivial, (h.del _).set _ _⟩
    · simp only [if_neg hdst]
      exact ⟨trivial, h⟩

theorem onFs_same {m : Prog Fs IoKind α} (hm : Simulates SameNodes m m) :
    Simulates (SameFor (S := S)) (onFs m) (onFs m) := by
  intro w w' h
  rcases hm.cases h.nodes with ⟨e, fs, fs', hw, hw', hnodes⟩ | ⟨a, fs, fs', hw, hw', hnodes⟩
  · rw [exec_onFs_error hw, exec_onFs_error hw']
    exact ⟨rfl, hnodes, h.sessions, h.wall⟩
  · rw [exec_onFs_ok hw, exec_onFs_ok hw']
    exact ⟨rfl, hnodes, h.sessions, h.wall⟩

theorem probeFs_same {m : Prog Fs IoKind α} (hm : Simulates SameNodes m m) :
    Simulates (SameFor (S := S)) (probeFs m) (probeFs m) := by
  intro w w' h
  rcases hm.cases h.nodes with ⟨e, fs, fs', hw, hw', hnodes⟩ | ⟨a, fs, fs', hw, hw', hnodes⟩
  · rw [exec_probeFs_error hw, exec_probeFs_error hw']
    exact ⟨rfl, hnodes, h.sessions, h.wall⟩
  · rw [exec_probeFs_ok hw, exec_probeFs_ok hw']
    exact ⟨rfl, hnodes, h.sessions, h.wall⟩

theorem wallNow_same {ε : Type} :
    Simulates (SameFor (S := S)) (wallNow : Prog (World S) ε Nat) wallNow := by
  intro w w' h
  refine ⟨?_, h.nodes, h.sessions, ?_⟩
  · show Except.ok (w.wall.headD 0) = Except.ok (w'.wall.headD 0)
    rw [h.wall]
  · exact congrArg List.tail h.wall

theorem writeMetaFor_same (repo session : Str) (n : Nat) :
    Simulates (SameFor (S := S)) (writeMetaFor repo session n) (writeMetaFor repo session n) := by
  have hwrite : ∀ m : UploadMeta, Simulates (SameFor (S := S)) (writeMeta repo m) (writeMeta repo m) :=
    fun m => (onFs_same ((writeFile_same _ _).seq fun _ => rename_same _ _)).of_mapError _
  refine ((probeFs_same (readFile_same _)).of_attempt).seq fun r => ?_
  rcases r with (_ | _) | b
  · exact Simulates.of_pure ()
  · exact Simulates.of_throw _
  · simp only
    cases S.serde.uploadMetaFromSlice b with
    | none => exact Simulates.of_throw _
    | some m => exact wallNow_same.seq fun now => hwrite _

theorem append_same (repo session : Str) (chunk : Bytes) :
    Simulates (SameFor (S := S)) (Uploads.append repo session chunk)
      (Uploads.append repo session chunk) := by
  refine Simulates.of_get fun w w' h => ?_
  rw [← h.sessions]
  cases w.sessions.lookup (repo, session) with
  | none => exact ⟨rfl, h⟩
  | some st =>
    refine Simulates.of_ite (Simulates.of_throw _) ?_ w w' h
    refine ((onFs_same (appendFile_same _ _)).of_mapError _).seq fun _ => ?_
    refine wallNow_same.seq fun now => ?_
    refine (Simulates.of_modify fun v v' hv => ?_).seq fun _ => ?_
    · exact ⟨hv.nodes, congrArg (AList.insert (repo, session) _) hv.sessions, hv.wall⟩
    · exact (writeMetaFor_same _ _ _).of_attempt.seq fun _ => Simulates.of_pure _

theorem promote_same (src dst : Path) :
    Simulates (SameFor (S := S)) (promote src dst) (promote src dst) := by
  refine Simulates.of_get fun w w' h => ?_
  refine (onFs_same (rename_same src dst)).seq (fun _ => ?_) w w' h
  exact Simulates.of_modify fun v v' hv => ⟨hv.nodes, hv.sessions, hv.wall⟩

theorem commit_same (repo session : Str) (d : Digest) :
    Simulates (SameFor (S := S)) (commit repo session d) (commit repo session d) := by
  refine Simulates.of_get fun w w' h => ?_
  rw [← h.sessions]
  cases w.sessions.lookup (repo, session) with
  | none => exact ⟨rfl, h⟩
  | some st =>
    refine Simulates.of_ite (Simulates.of_throw _) (Simulates.of_ite (Simulates.of_throw _) ?_) w w' h
    refine ((onFs_same (createDirAll_same _)).of_mapError _).seq fun _ => ?_
    refine ((promote_same _ _).of_mapError _).seq fun _ => ?_
    refine (probeFs_same (removeFile_same _)).of_attempt.seq fun _ => ?_
    refine (Simulates.of_modify fun v v' hv => ?_).seq fun _ => Simulates.of_pure _
    exact ⟨hv.nodes, congrArg (AList.erase (repo, session)) hv.sessions, hv.wall⟩

theorem finalize_same (repo session : Str) (lastChunk : Option Bytes) (d : Digest) :
    Simulates (SameFor (S := S)) (finalize repo session lastChunk d)
      (finalize repo session lastChunk d) := by
  cases lastChunk with
  | none => exact commit_same repo session d
  | some chunk =>
    exact Simulates.of_ite (commit_same repo session d)
      ((append_same repo session chunk).seq fun _ => commit_same repo session d)

end Same

/-! ## Later calls -/

section Later

variable {S : Setup} {w w' : World S} {repo session : Str}

/-- An append or a finalize of the session. -/
def OnSession (repo session : Str) : Call → Prop
  | .append r s _ => r = repo ∧ s = session
  | .finalize r s _ _ => r = repo ∧ s = session
  | _ => False

/-- The call was successful. -/
def Succeeded : Reply → Prop
  | .created r => ∃ v, r = .ok v
  | .appended r => ∃ v, r = .ok v
  | .finalized r => ∃ v, r = .ok v
  | .aborted r => ∃ v, r = .ok v

/-- The session's calls, all of them successful. -/
def SuccessfulRun (w : World S) (repo session : Str) (cs : List Call) : Prop :=
  (∀ c ∈ cs, OnSession repo session c) ∧ ∀ e ∈ (perform w cs).1, Succeeded e.2

/-- The run committed the session as the blob `d`. -/
def Commits (w : World S) (repo session : Str) (cs : List Call) (d : Digest) : Prop :=
  ∃ lastChunk v, (.finalize repo session lastChunk d, .finalized (.ok v)) ∈ (perform w cs).1

/-- Every later run of successful calls on the session has the replies and the blobs that it has
from the world before. -/
def AsIfNever (w w' : World S) (repo session : Str) : Prop :=
  ∀ cs, SuccessfulRun w' repo session cs → (perform w cs).1 = (perform w' cs).1 ∧
    ∀ d, Commits w' repo session cs d → (perform w cs).2.fs.read (blobPath S.root repo d) =
      (perform w' cs).2.fs.read (blobPath S.root repo d)

/-- Every later run of successful calls on the session commits a blob with the expected digest. -/
def Soundly (w' : World S) (repo session : Str) : Prop :=
  ∀ cs, SuccessfulRun w' repo session cs → ∀ d, Commits w' repo session cs d →
    ∃ b, (perform w' cs).2.fs.read (blobPath S.root repo d) = some b ∧ S.hash.hex b = d.hex

/-- The data file of the session has the bytes that its hasher was fed with. -/
def InStep (w : World S) (repo session : Str) : Prop :=
  ∃ st c, w.sessions.lookup (repo, session) = some st ∧ st.finalized = false ∧
    st.dataPath = dataPath S.root repo session ∧ w.fs.read st.dataPath = some c ∧
    S.hash.Fed st.hasher c

theorem call_same {c : Call} (hc : OnSession repo session c) (h : SameFor w w') :
    (c.exec w).1 = (c.exec w').1 ∧ SameFor (c.exec w).2 (c.exec w').2 := by
  cases c with
  | createSession r => exact hc.elim
  | append r s chunk =>
    obtain ⟨hres, hsame⟩ := append_same r s chunk w w' h
    exact ⟨congrArg Reply.appended hres, hsame⟩
  | finalize r s lastChunk d =>
    obtain ⟨hres, hsame⟩ := finalize_same r s lastChunk d w w' h
    exact ⟨congrArg Reply.finalized hres, hsame⟩
  | abort r s => exact hc.elim

/-- From worlds that agree, every run on the session has the same replies and ends in worlds that
agree. -/
theorem perform_same {cs : List Call} (hcs : ∀ c ∈ cs, OnSession repo session c)
    (h : SameFor w w') :
    (perform w cs).1 = (perform w' cs).1 ∧ SameFor (perform w cs).2 (perform w' cs).2 := by
  induction cs generalizing w w' with
  | nil => exact ⟨rfl, h⟩
  | cons c cs ih =>
    obtain ⟨hres, hsame⟩ := call_same (hcs c List.mem_cons_self) h
    obtain ⟨hrest, hend⟩ := ih (fun c' hc' => hcs c' (List.mem_cons_of_mem c hc')) hsame
    refine ⟨?_, hend⟩
    show (c, (c.exec w).1) :: (perform (c.exec w).2 cs).1 =
      (c, (c.exec w').1) :: (perform (c.exec w').2 cs).1
    rw [hres, hrest]

theorem asIfNever_of_same (h : SameFor w w') : AsIfNever w w' repo session := by
  intro cs hcs
  obtain ⟨hres, hend⟩ := perform_same hcs.1 h
  exact ⟨hres, fun d _ => Fs.read_congr (hend.nodes _)⟩

/-- After the session has ended, no call on it succeeds. -/
theorem nil_of_ended (hended : Ended w repo session) {cs : List Call}
    (hcs : SuccessfulRun w repo session cs) : cs = [] := by
  cases cs with
  | nil => rfl
  | cons c cs =>
    exfalso
    have hc := hcs.1 c List.mem_cons_self
    have hok : Succeeded (c.exec w).1 := hcs.2 (c, (c.exec w).1) List.mem_cons_self
    cases c with
    | createSession r => exact hc
    | append r s chunk =>
      obtain ⟨rfl, rfl⟩ := hc
      obtain ⟨v, hv⟩ := hok
      cases (hended.append chunk).symm.trans hv
    | finalize r s lastChunk d =>
      obtain ⟨rfl, rfl⟩ := hc
      obtain ⟨v, hv⟩ := hok
      cases (hended.finalize lastChunk d).symm.trans hv
    | abort r s => exact hc

theorem inStep_append (h : InStep w repo session) (chunk : Bytes) :
    ∃ n w₁, (Uploads.append repo session chunk).exec w = (.ok n, w₁) ∧ InStep w₁ repo session := by
  obtain ⟨st, c, hst, hfin, hpath, hread, hfed⟩ := h
  obtain ⟨now, w₁, hexec, hsessions, -, hfile⟩ := exec_append_live hst hfin hpath hread chunk
  refine ⟨_, w₁, hexec, UploadState.fed st chunk now, c ++ chunk, ?_, hfin, hpath, hfile,
    hfed.update chunk⟩
  rw [hsessions, AList.lookup_insert]

theorem inStep_commit (h : InStep w repo session) {d : Digest} {v : Path × Nat} {w₁ : World S}
    (hexec : (commit repo session d).exec w = (.ok v, w₁)) :
    w₁.sessions.lookup (repo, session) = none ∧
      ∃ b, w₁.fs.read (blobPath S.root repo d) = some b ∧ S.hash.hex b = d.hex := by
  obtain ⟨st, c, hst, hfin, hpath, hread, hfed⟩ := h
  by_cases hhex : S.hash.finalize st.hasher = d.hex
  · rcases exec_commit_cases hst hfin hpath hread hhex with ⟨e, w₂, he, -⟩ |
      ⟨w₂, he, hsessions, -, hfile⟩
    · cases he.symm.trans hexec
    · cases he.symm.trans hexec
      refine ⟨?_, c, hfile, hfed.finalize.symm.trans hhex⟩
      rw [hsessions, AList.lookup_erase]
  · cases (exec_commit_mismatch hst hfin hhex).symm.trans hexec

theorem inStep_finalize (h : InStep w repo session) {lastChunk : Option Bytes} {d : Digest}
    {v : Path × Nat} {w₁ : World S}
    (hexec : (finalize repo session lastChunk d).exec w = (.ok v, w₁)) :
    w₁.sessions.lookup (repo, session) = none ∧
      ∃ b, w₁.fs.read (blobPath S.root repo d) = some b ∧ S.hash.hex b = d.hex := by
  cases lastChunk with
  | none => exact inStep_commit h hexec
  | some chunk =>
    simp only [finalize] at hexec
    split at hexec
    · exact inStep_commit h hexec
    · obtain ⟨n, w₂, happend, hstep⟩ := inStep_append h chunk
      rw [Prog.exec_bind_ok happend] at hexec
      exact inStep_commit hstep hexec

/-- A session in step commits its blobs soundly. -/
theorem soundly_of_inStep (h : InStep w repo session) : Soundly w repo session := by
  intro cs hcs d hd
  induction cs generalizing w with
  | nil =>
    obtain ⟨lastChunk, v, hmem⟩ := hd
    cases hmem
  | cons c cs ih =>
    have hc := hcs.1 c List.mem_cons_self
    have hok : Succeeded (c.exec w).1 := hcs.2 (c, (c.exec w).1) List.mem_cons_self
    have hrest : SuccessfulRun (c.exec w).2 repo session cs :=
      ⟨fun c' hc' => hcs.1 c' (List.mem_cons_of_mem c hc'),
        fun e he => hcs.2 e (List.mem_cons_of_mem _ he)⟩
    obtain ⟨lastChunk, v, hmem⟩ := hd
    cases c with
    | createSession r => exact hc.elim
    | append r s chunk =>
      obtain ⟨rfl, rfl⟩ := hc
      obtain ⟨n, w₁, hexec, hstep⟩ := inStep_append h chunk
      have hw₁ : ((Call.append r s chunk).exec w).2 = w₁ := congrArg Prod.snd hexec
      rcases List.mem_cons.mp hmem with he | hmem
      · cases he
      · exact ih (hw₁ ▸ hstep) hrest ⟨lastChunk, v, hmem⟩
    | finalize r s last d' =>
      obtain ⟨rfl, rfl⟩ := hc
      obtain ⟨v', hv'⟩ := hok
      obtain ⟨hgone, hblob⟩ := inStep_finalize h 
        (Prod.ext hv' rfl)
      have hnil := nil_of_ended (ended_of_absent hgone) hrest
      subst hnil
      rcases List.mem_cons.mp hmem with he | hmem
      · cases (Prod.mk.inj he).1
        exact hblob
      · cases hmem
    | abort r s => exact hc.elim

/-- The data file of the session can be committed under the digest that its hasher has now. -/
def CanCommit (w : World S) (repo session : Str) : Prop :=
  ∀ st, w.sessions.lookup (repo, session) = some st →
    st.dataPath = dataPath S.root repo session ∧
      w.fs.HasRoom (blobPath S.root repo ⟨S.hash.finalize st.hasher⟩)

theorem exec_commit_room {st : UploadState S.hash} {c : Bytes}
    (hst : w.sessions.lookup (repo, session) = some st) (hfin : st.finalized = false)
    (hpath : st.dataPath = dataPath S.root repo session) (hread : w.fs.read st.dataPath = some c)
    {d : Digest} (hhex : S.hash.finalize st.hasher = d.hex)
    (hroom : w.fs.HasRoom (blobPath S.root repo d)) :
    ∃ v w₁, (commit repo session d).exec w = (.ok v, w₁) ∧
      w₁.fs.read (blobPath S.root repo d) = some c := by
  rcases exec_commit_cases hst hfin hpath hread hhex with ⟨e, w₁, he, -⟩ | ⟨w₁, he, -, -, hfile⟩
  · exfalso
    have hget : (commit repo session d).exec w = _ := Prog.exec_bind_ok (Prog.exec_get w)
    rw [hget] at he
    simp only [hst, hfin, Bool.false_eq_true, if_false, ne_eq, hhex, not_true_eq_false] at he
    obtain ⟨fs₁, hdirs, hgrow, hparent, hdst⟩ := hroom.exec_createDirAll
    rw [Prog.exec_bind_ok (exec_mapError_ok (exec_onFs_ok hdirs))] at he
    have hrename := Fs.exec_rename_ok ((Fs.growsDirs_read hgrow _).trans hread) hparent hdst
    rcases exec_promote { w with fs := fs₁ } st.dataPath (blobPath S.root repo d) with
      ⟨b, -, -, hpromote⟩ | ⟨e', hpromote⟩
    · rw [Prog.exec_bind_ok (exec_mapError_ok hpromote)] at he
      cases he
    · have hfail : (promote st.dataPath (blobPath S.root repo d)).exec { w with fs := fs₁ } = _ :=
        (Prog.exec_bind_ok (Prog.exec_get _)).trans (Prog.exec_bind_ok (exec_onFs_ok hrename))
      cases hpromote.symm.trans hfail
  · exact ⟨_, w₁, he, hfile⟩

/-- A torn chunk would end up in the blob. -/
theorem torn_eq_nil {st : UploadState S.hash} {c torn : Bytes}
    (hst : w.sessions.lookup (repo, session) = some st) (hfin : st.finalized = false)
    (hread : w.fs.read st.dataPath = some c) (hcan : CanCommit w repo session)
    (hw' : w' = { w with
      fs := w.fs.set st.dataPath (.file (c ++ torn))
      log := { w.log with ioFailed := true } })
    (h : AsIfNever w w' repo session) : torn = [] := by
  obtain ⟨hpath, hroom⟩ := hcan st hst
  let d : Digest := ⟨S.hash.finalize st.hasher⟩
  have hread' : w'.fs.read st.dataPath = some (c ++ torn) := by
    rw [hw', Fs.read_eq_some, Fs.node_set, if_pos rfl]
  have hroom' : w'.fs.HasRoom (blobPath S.root repo d) := by
    have hkeep : ∀ {q}, q ≠ st.dataPath → w'.fs.node q = w.fs.node q := by
      intro q hq
      rw [hw', Fs.node_set, if_neg hq]
    refine ⟨fun q hq => ?_, ?_⟩
    · refine (Fs.read_congr (hkeep ?_)).trans (hroom.1 q hq)
      intro he
      cases hread.symm.trans (he ▸ hroom.1 q hq)
    · refine (Fs.isDir_congr (hkeep fun he => ?_)).trans hroom.2
      exact not_isDataName_of_isBlobName (isBlobName_blobPath S.root repo d)
        (he.trans hpath ▸ isDataName_dataPath S.root repo session)
  have hst' : w'.sessions.lookup (repo, session) = some st := by
    rw [hw']
    exact hst
  obtain ⟨v, w₁, he, hfile⟩ := exec_commit_room hst hfin hpath hread (d := d) rfl hroom
  obtain ⟨v', w₁', he', hfile'⟩ := exec_commit_room hst' hfin hpath hread' (d := d) rfl hroom'
  have hcall : ∀ {u u₁ : World S} {v}, (commit repo session d).exec u = (.ok v, u₁) →
      perform u [.finalize repo session none d] =
        ([(.finalize repo session none d, .finalized (.ok v))], u₁) := by
    intro u u₁ v hu
    have hexec : (Call.finalize repo session none d).exec u = (.finalized (.ok v), u₁) := by
      show (Reply.finalized ((commit repo session d).exec u).1, ((commit repo session d).exec u).2) = _
      rw [hu]
    simp only [perform, hexec]
  have hrun : SuccessfulRun w' repo session [.finalize repo session none d] := by
    refine ⟨fun c hc => ?_, fun e hmem => ?_⟩
    · cases List.mem_singleton.mp hc
      exact ⟨rfl, rfl⟩
    · rw [hcall he'] at hmem
      cases List.mem_singleton.mp hmem
      exact ⟨v', rfl⟩
  have hcommits : Commits w' repo session [.finalize repo session none d] d := by
    refine ⟨none, v', ?_⟩
    rw [hcall he']
    exact List.mem_singleton_self _
  have hsame := (h _ hrun).2 d hcommits
  rw [hcall he, hcall he', hfile, hfile'] at hsame
  exact List.self_eq_append_right.mp (Option.some.inj hsame)

/-- A failed append is as if it had never happened if no byte of its chunk has reached the data file,
and, where the session can be committed at all, only then. -/
theorem failed_append_invisible {fault : Option Fault} {chunk : Bytes} {e : UploadError}
    (h : (append fault repo session chunk).exec w = (.error e, w')) :
    (¬ Reaches w fault repo session chunk →
      AsIfNever w w' repo session ∧ (InStep w repo session → Soundly w' repo session)) ∧
    (CanCommit w repo session → AsIfNever w w' repo session →
      ¬ Reaches w fault repo session chunk) := by
  refine ⟨fun hnone => ?_, fun hcan hnever => ?_⟩
  · have hsame : SameFor w w' := by
      rcases exec_append_error h with hsame | ⟨st, c, reached, hfault, hst, hfin, hread, rfl⟩
      · exact hsame
      · have htorn : chunk.take reached = [] := by
          by_contra hne
          exact hnone ⟨st, c, reached, hfault, hst, hfin, hread, hne⟩
        refine ⟨fun q => ?_, rfl, rfl⟩
        rw [Fs.node_set, htorn, List.append_nil]
        split
        · rename_i hq
          rw [hq]
          exact Fs.read_eq_some.mp hread
        · rfl
    refine ⟨asIfNever_of_same hsame, fun ⟨st, c, hst, hfin, hpath, hread, hfed⟩ => ?_⟩
    refine soundly_of_inStep ⟨st, c, ?_, hfin, hpath, ?_, hfed⟩
    · rw [← hsame.sessions]
      exact hst
    · rw [← Fs.read_congr (hsame.nodes _)]
      exact hread
  · rintro ⟨st, c, reached, rfl, hst, hfin, hread, hne⟩
    cases (exec_append_torn hst hfin hread chunk reached).symm.trans h
    exact hne (torn_eq_nil hst hfin hread hcan rfl hnever)

end Later

/-! A session whose first chunk fails. -/

def opened : World Codec.standalone := (perform boot [.createSession "a".toList]).2

/-- An append whose `open` fails. -/
theorem unopened_append_invisible : ∃ w' : World Codec.standalone,
    (append (some .opening) "a".toList first [97, 98]).exec opened = (.error (.io .other), w') ∧
    AsIfNever opened w' "a".toList first := by
  rcases hrun : (append (some .opening) "a".toList first [97, 98]).exec opened with ⟨r, w'⟩
  have hres : ((append (some .opening) "a".toList first [97, 98]).exec opened).1 =
      .error (.io .other) := by decide +kernel
  rw [hrun] at hres
  subst hres
  refine ⟨w', rfl, ((failed_append_invisible hrun).1 ?_).1⟩
  rintro ⟨st, c, reached, hfault, -⟩
  cases hfault

/-- One byte of a failed chunk is in the blob of a later `finalize` under the digest of the
empty byte string. -/
theorem torn_append_breaks_blob : ∃ w' w₁ : World Codec.standalone, ∃ v,
    (append (some (.writing 1)) "a".toList first [97, 98]).exec opened =
      (.error (.io .other), w') ∧
    (finalize "a".toList first none (Codec.standalone.digest [])).exec w' = (.ok v, w₁) ∧
    w₁.fs.read (blobPath Codec.standalone.root "a".toList (Codec.standalone.digest [])) = some [97] ∧
    Codec.standalone.digest [97] ≠ Codec.standalone.digest [] := by
  have hres : ((append (some (.writing 1)) "a".toList first [97, 98]).exec opened).1 =
      .error (.io .other) := by decide +kernel
  have hfin : ((finalize "a".toList first none (Codec.standalone.digest [])).exec
      ((append (some (.writing 1)) "a".toList first [97, 98]).exec opened).2).1.isOk = true ∧
    ((finalize "a".toList first none (Codec.standalone.digest [])).exec
      ((append (some (.writing 1)) "a".toList first [97, 98]).exec opened).2).2.fs.read
        (blobPath Codec.standalone.root "a".toList (Codec.standalone.digest [])) = some [97] := by decide +kernel
  rcases hrun : (append (some (.writing 1)) "a".toList first [97, 98]).exec opened with ⟨r, w'⟩
  rw [hrun] at hres hfin
  subst hres
  rcases hcommit : (finalize "a".toList first none (Codec.standalone.digest [])).exec w' with ⟨e | v, w₁⟩
  · rw [hcommit] at hfin
    cases hfin.1
  · rw [hcommit] at hfin
    exact ⟨w', w₁, v, rfl, hcommit, hfin.2, by decide +kernel⟩

end Quill.Uploads.Torn
