import Quill.Storage.Codec
import Quill.Storage.Operations

/-!
# Uploads, one call after the other

A `Store` is what an upload store is for: it maps each live session to the bytes that were sent to
it. `Represents` relates it to the three places in which the code keeps them, the data file, the
running hasher and the counter. Every call answers as the store says and keeps this
relation (`represents_call`), whatever the file names of the repositories are, as long as no
two sessions get one id and no file-system step fails (`represents_received`).

The answer of `finalize` is `answer` of the bytes sent so far followed by its last chunk, so it does
not depend on how they were split into chunks (`finalize_answers`).
-/

namespace Quill.Uploads.Sequential

open Text Files Cas World LocalStorage

/-! ## Calls -/

/-- A call of the upload manager. -/
inductive Call where
  | createSession (repo : Str)
  | append (repo session : Str) (chunk : Bytes)
  | finalize (repo session : Str) (lastChunk : Option Bytes) (expected : Digest)
  | abort (repo session : Str)

/-- What a call returns. -/
inductive Reply where
  | created (r : Except UploadError Str)
  | appended (r : Except UploadError Nat)
  | finalized (r : Except UploadError (Path × Nat))
  | aborted (r : Except UploadError Unit)

section Calls

variable {S : Setup}

/-- What a call returns and the world it leaves. -/
def Call.exec (w : World S) : Call → Reply × World S
  | .createSession repo =>
    let r := (Uploads.createSession repo).exec w
    (.created r.1, r.2)
  | .append repo session chunk =>
    let r := (Uploads.append repo session chunk).exec w
    (.appended r.1, r.2)
  | .finalize repo session lastChunk expected =>
    let r := (Uploads.finalize repo session lastChunk expected).exec w
    (.finalized r.1, r.2)
  | .abort repo session =>
    let r := (Uploads.abort repo session).exec w
    (.aborted r.1, r.2)

/-- A sequence of calls with their replies. -/
inductive Sequence (w₀ : World S) : List (Call × Reply) → World S → Prop
  | start : Sequence w₀ [] w₀
  | call {es : List (Call × Reply)} {w : World S} (h : Sequence w₀ es w) (c : Call) :
      Sequence w₀ (es ++ [(c, (c.exec w).1)]) (c.exec w).2

end Calls

/-- The session id that a call has returned. -/
def createdId : Call × Reply → Option Str
  | (_, .created (.ok session)) => some session
  | _ => none

/-- The session that a call names, or has created. -/
def keyOf : Call × Reply → Option (Str × Str)
  | (.createSession repo, .created (.ok session)) => some (repo, session)
  | (.createSession _, _) => none
  | (.append repo session _, _) => some (repo, session)
  | (.finalize repo session _ _, _) => some (repo, session)
  | (.abort repo session, _) => some (repo, session)

/-! ## The store -/

/-- The bytes that were sent to each live session. -/
abbrev Store := Str × Str → Option Bytes

/-- The store after a call. A last chunk stays where its digest is rejected. -/
def Store.after (store : Store) : Call × Reply → Store
  | (.createSession repo, .created (.ok session)) => Function.update store (repo, session) (some [])
  | (.append repo session chunk, .appended (.ok _)) =>
    Function.update store (repo, session) ((store (repo, session)).map (· ++ chunk))
  | (.finalize repo session _ _, .finalized (.ok _)) => Function.update store (repo, session) none
  | (.finalize repo session lastChunk _, .finalized (.error (.digestMismatch _ _))) =>
    Function.update store (repo, session) ((store (repo, session)).map (· ++ lastChunk.getD []))
  | (.abort repo session, _) => Function.update store (repo, session) none
  | _ => store

/-- The bytes that a sequence of calls has sent to each live session. -/
def received (es : List (Call × Reply)) : Store := es.foldl Store.after fun _ => none

/-- What `finalize` answers, by the bytes of the session with the last chunk. -/
def answer (S : Setup) (repo session : Str) (expected : Digest) :
    Option Bytes → Except UploadError (Path × Nat)
  | none => .error (.notFound session)
  | some b =>
    if S.hash.hex b = expected.hex then .ok (blobPath S.root repo expected, tally b)
    else .error (.digestMismatch expected.toStr ("sha256:".toList ++ (S.hash.hex b).val))

theorem received_append (es : List (Call × Reply)) (e : Call × Reply) :
    received (es ++ [e]) = (received es).after e := by
  rw [received, List.foldl_append]
  rfl

/-! ## What each call does -/

section Exec

variable {S : Setup} {w : World S} {repo session : Str} {st : UploadState S.hash} {c : Bytes}

theorem exec_append_dead (h : w.sessions.lookup (repo, session) = none) (chunk : Bytes) :
    (append repo session chunk).exec w = (.error (.notFound session), w) := by
  have hget : (append repo session chunk).exec w = _ := Prog.exec_bind_ok (Prog.exec_get w)
  rw [hget, h]
  rfl

theorem writeMetaFor_ambient (repo session : Str) (n : Nat) (w : World S) :
    Ambient w ((writeMetaFor repo session n).exec w).2 := by
  have halong : Moves (Along S repo {.ambient}) (writeMetaFor repo session n) :=
    writeMetaFor_along (Set.mem_singleton _) repo session n
  exact ambient_of_along (halong w)

/-- The chunk is in the file, in the hasher and in the counter. -/
theorem exec_append_live (hst : w.sessions.lookup (repo, session) = some st)
    (hfin : st.finalized = false) (hpath : st.dataPath = dataPath S.root repo session)
    (hread : w.fs.read st.dataPath = some c) (chunk : Bytes) :
    ∃ now w', (append repo session chunk).exec w =
        (.ok (saturatingAdd st.info.bytesReceived chunk.length), w') ∧
      w'.sessions = w.sessions.insert (repo, session) (UploadState.fed st chunk now) ∧
      Spares {st.dataPath} w.fs w'.fs ∧ w'.fs.read st.dataPath = some (c ++ chunk) := by
  rcases Fs.exec_appendFile st.dataPath chunk w.fs with ⟨c', hc, he⟩ | ⟨hnone, -⟩
  · cases hread.symm.trans hc
    let now := w.wall.headD 0
    let w₁ : World S := { w with
      fs := w.fs.set st.dataPath (.file (c ++ chunk))
      sessions := w.sessions.insert (repo, session) (UploadState.fed st chunk now)
      wall := w.wall.tail }
    have hmeta := writeMetaFor_ambient repo session
      (saturatingAdd st.info.bytesReceived chunk.length) w₁
    have hfs₁ : Spares {st.dataPath} w.fs w₁.fs :=
      Spares.set (Or.inr rfl) (Fs.node_ne_dir_of_read hread)
    refine ⟨now, _, ?_, hmeta.sessions, hfs₁.trans (hmeta.fs.mono (Set.empty_subset _)), ?_⟩
    · have happend := exec_onFs_ok he
      simp only [append, Prog.exec_bind, Prog.exec_get, hst, hfin, Bool.false_eq_true, if_false,
        Prog.exec_mapError, happend, Except.mapError, wallNow, Prog.exec_ofFun, Prog.exec_modify,
        Prog.exec_attempt, Prog.exec_pure]
      rfl
    · rw [hmeta.fs.read (by rw [hpath]; exact dataPath_not_scratch _ _ _) (Set.notMem_empty _),
        Fs.read_eq_some, Fs.node_set, if_pos rfl]
  · cases hread.symm.trans hnone

theorem exec_commit_dead (h : w.sessions.lookup (repo, session) = none) (d : Digest) :
    (commit repo session d).exec w = (.error (.notFound session), w) := by
  have hget : (commit repo session d).exec w = _ := Prog.exec_bind_ok (Prog.exec_get w)
  rw [hget, h]
  rfl

theorem exec_commit_mismatch (hst : w.sessions.lookup (repo, session) = some st)
    (hfin : st.finalized = false) {d : Digest} (hhex : S.hash.finalize st.hasher ≠ d.hex) :
    (commit repo session d).exec w = (.error (.digestMismatch d.toStr
      ("sha256:".toList ++ (S.hash.finalize st.hasher).val)), w) := by
  have hget : (commit repo session d).exec w = _ := Prog.exec_bind_ok (Prog.exec_get w)
  rw [hget]
  simp only [hst, hfin, Bool.false_eq_true, if_false, if_pos hhex]
  rfl

/-- The data file becomes the blob, unless a file-system step fails. -/
theorem exec_commit_cases (hst : w.sessions.lookup (repo, session) = some st)
    (hfin : st.finalized = false) (hpath : st.dataPath = dataPath S.root repo session)
    (hread : w.fs.read st.dataPath = some c) {d : Digest} (hhex : S.hash.finalize st.hasher = d.hex) :
    (∃ e w', (commit repo session d).exec w = (.error e, w') ∧ w'.log.ioFailed = true) ∨
    ∃ w', (commit repo session d).exec w =
        (.ok (blobPath S.root repo d, st.info.bytesReceived), w') ∧
      w'.sessions = w.sessions.erase (repo, session) ∧
      Spares {st.dataPath, blobPath S.root repo d} w.fs w'.fs ∧
      w'.fs.read (blobPath S.root repo d) = some c := by
  have hget : (commit repo session d).exec w = _ := Prog.exec_bind_ok (Prog.exec_get w)
  rw [hget]
  simp only [hst, hfin, Bool.false_eq_true, if_false, ne_eq, hhex, not_true_eq_false]
  have hdirs := createDirAll_spares (blobPath S.root repo d).tail w.fs
  rcases hop : (Fs.createDirAll (blobPath S.root repo d).tail).exec w.fs with ⟨e | u, fs₁⟩
  · rw [Prog.exec_bind_error (exec_mapError_error (exec_onFs_error hop))]
    exact Or.inl ⟨_, _, rfl, rfl⟩
  · rw [hop] at hdirs
    rw [Prog.exec_bind_ok (exec_mapError_ok (exec_onFs_ok hop))]
    rcases exec_promote { w with fs := fs₁ } st.dataPath (blobPath S.root repo d) with
      ⟨b, hb, hdir, he⟩ | ⟨e, he⟩
    · rw [Prog.exec_bind_ok (exec_mapError_ok he)]
      have hdata : ¬ Scratch st.dataPath := by
        rw [hpath]
        exact dataPath_not_scratch _ _ _
      have hsame : b = c := by
        have hkept := hdirs.read hdata (Set.notMem_empty _)
        exact Option.some.inj (hb.symm.trans (hkept.trans hread))
      subst hsame
      let w₂ : World S := { w with
        fs := (fs₁.del st.dataPath).set (blobPath S.root repo d) (.file b)
        log := { w.log with stored := w.log.stored ++ [b] } }
      have hfs₂ : Spares {st.dataPath, blobPath S.root repo d} w.fs w₂.fs :=
        (hdirs.mono (Set.empty_subset _)).trans
          (Spares.rename (Or.inr (Or.inl rfl)) (Or.inr (Or.inr rfl)) hb hdir)
      have hmeta := probeFs_ambient (removeFile_spares (scratch_metaPath S.root repo session)) w₂
      refine Or.inr ⟨_, rfl, ?_, hfs₂.trans (hmeta.fs.mono (Set.empty_subset _)), ?_⟩
      · exact congrArg (AList.erase (repo, session)) hmeta.sessions
      · refine (hmeta.fs.read (blobPath_not_scratch _ _ _) (Set.notMem_empty _)).trans ?_
        rw [Fs.read_eq_some, Fs.node_set, if_pos rfl]
    · rw [Prog.exec_bind_error (exec_mapError_error he)]
      exact Or.inl ⟨_, _, rfl, rfl⟩

theorem exec_removeFile_spares (p : Path) (w : World S) :
    ∃ r w', (probeFs (Fs.removeFile p) : Prog (World S) IoKind Unit).exec w = (r, w') ∧
      w'.sessions = w.sessions ∧ Spares {p} w.fs w'.fs := by
  rcases Fs.exec_removeFile p w.fs with ⟨b, hb, he⟩ | ⟨-, e, he, -⟩
  · refine ⟨_, _, exec_probeFs_ok he, rfl, ?_⟩
    exact Spares.del (Or.inr rfl) (Fs.node_ne_dir_of_read hb)
  · exact ⟨_, _, exec_probeFs_error he, rfl, .refl _ _⟩

/-- Aborting forgets the session and removes its data file. -/
theorem exec_abort (w : World S) (repo session : Str) :
    ∃ w', (abort repo session).exec w = (.ok (), w') ∧
      (∀ key, w'.sessions.lookup key =
        if key = (repo, session) then none else w.sessions.lookup key) ∧
      Spares { p | ∃ st, w.sessions.lookup (repo, session) = some st ∧ p = st.dataPath }
        w.fs w'.fs := by
  have hget : (abort repo session).exec w = _ := Prog.exec_bind_ok (Prog.exec_get w)
  rw [hget]
  have hlookup : ∀ key, (w.sessions.erase (repo, session)).lookup key =
      if key = (repo, session) then none else w.sessions.lookup key := by
    intro key
    by_cases hk : key = (repo, session)
    · rw [if_pos hk, hk, AList.lookup_erase]
    · rw [if_neg hk, AList.lookup_erase_ne hk]
  cases hst : w.sessions.lookup (repo, session) with
  | none =>
    have hmeta := probeFs_ambient (removeFile_spares (scratch_metaPath S.root repo session)) w
    refine ⟨_, rfl, fun key => ?_, hmeta.fs.mono (Set.empty_subset _)⟩
    have hsessions : _ = w.sessions := hmeta.sessions
    rw [hsessions]
    split
    · rename_i hk
      rw [hk, hst]
    · rfl
  | some st =>
    let w₁ : World S := { w with sessions := w.sessions.erase (repo, session) }
    obtain ⟨r, w₂, hremove, hsessions, hfs⟩ := exec_removeFile_spares st.dataPath w₁
    have hmeta := probeFs_ambient (removeFile_spares (scratch_metaPath S.root repo session)) w₂
    have hdata : Spares { p | ∃ st', some st = some st' ∧ p = st'.dataPath } w.fs w₂.fs := by
      refine hfs.mono fun p hp => ?_
      exact ⟨st, rfl, hp⟩
    refine ⟨((probeFs (Fs.removeFile (metaPath S.root repo session)) :
      Prog (World S) IoKind Unit).exec w₂).2, ?_, fun key => ?_,
      hdata.trans (hmeta.fs.mono (Set.empty_subset _))⟩
    · have hforget : (modify fun w => { w with sessions := w.sessions.erase (repo, session) } :
          Prog (World S) UploadError PUnit).exec w = (.ok ⟨⟩, w₁) := rfl
      have hdrop : ((probeFs (Fs.removeFile st.dataPath)).attempt :
          Prog (World S) UploadError _).exec w₁ = (.ok r, w₂) := Prog.exec_attempt_eq.mpr hremove
      exact (Prog.exec_bind_ok hforget).trans (Prog.exec_bind_ok hdrop)
    · rw [hmeta.sessions, hsessions]
      exact hlookup key

/-- A new session has an empty data file, a fresh hasher and a zero counter. -/
theorem exec_createSession_clean (w : World S) (repo : Str)
    (hok : ((createSession repo).exec w).2.log.ioFailed = false) :
    ∃ info w', (createSession repo).exec w = (.ok w.drawn, w') ∧ info.bytesReceived = 0 ∧
      w'.sessions = w.sessions.insert (repo, w.drawn)
        ⟨info, S.hash.new, dataPath S.root repo w.drawn, false⟩ ∧
      Spares {dataPath S.root repo w.drawn} w.fs w'.fs ∧
      w'.fs.read (dataPath S.root repo w.drawn) = some [] := by
  have hwall : (wallNow : Prog (World S) UploadError Nat).exec w =
      (.ok (w.wall.headD 0), { w with wall := w.wall.tail }) := rfl
  have hdirs := createDirAll_spares (uploadsDir S.root repo) w.fs
  rcases hc : (Fs.createDirAll (uploadsDir S.root repo)).exec w.fs with ⟨e | u, fs₁⟩
  · have hrun : (createSession repo).exec w = _ := (Prog.exec_bind_ok hwall).trans
      (Prog.exec_bind_error (exec_mapError_error (exec_onFs_error hc)))
    rw [hrun] at hok
    cases hok
  rw [hc] at hdirs
  let w₁ : World S := { w with wall := w.wall.tail, fs := fs₁ }
  have hmkdir : (createSession repo).exec w = _ := (Prog.exec_bind_ok hwall).trans
    (Prog.exec_bind_ok (exec_mapError_ok (exec_onFs_ok hc)))
  rcases Fs.exec_writeFile (dataPath S.root repo w.drawn) [] fs₁ with ⟨hdir, -, he⟩ | ⟨e, he⟩
  · let fs₂ := fs₁.set (dataPath S.root repo w.drawn) (.file [])
    let info : UploadMeta := ⟨w.drawn, repo, 0, w₁.wall.headD 0, w₁.wall.headD 0⟩
    let w₃ : World S := { w₁ with wall := w₁.wall.tail }
    have hfs₂ : Spares {dataPath S.root repo w.drawn} fs₁ fs₂ :=
      Spares.set (Or.inr rfl) (Fs.node_ne_dir_of_isDir hdir)
    have hread₂ : fs₂.read (dataPath S.root repo w.drawn) = some [] := by
      rw [Fs.read_eq_some, Fs.node_set, if_pos rfl]
    have hwrite : ((onFs (Fs.writeFile (dataPath S.root repo w.drawn) [])).mapError .io :
        Prog (World S) UploadError Unit).exec w₁ = (.ok (), { w₁ with fs := fs₂ }) :=
      exec_mapError_ok (exec_onFs_ok he)
    have hwall₃ : (wallNow : Prog (World S) UploadError Nat).exec { w₁ with fs := fs₂ } =
        (.ok (w₁.wall.headD 0), { w₃ with fs := fs₂ }) := rfl
    have hmeta := writeAtomic_spares (scratch_metaTmpPath S.root repo w.drawn)
      (scratch_metaPath S.root repo w.drawn) (S.serde.uploadMetaToVec info) fs₂
    rcases hm : (Fs.writeAtomic (metaTmpPath S.root repo w.drawn) (metaPath S.root repo w.drawn)
      (S.serde.uploadMetaToVec info)).exec fs₂ with ⟨e | u, fs₃⟩
    · have hrec : (writeMeta repo info).exec { w₃ with fs := fs₂ } = (.error (.io e),
          { w₃ with fs := fs₃, log := { w₃.log with ioFailed := true } }) :=
        exec_mapError_error (exec_onFs_error hm)
      have hrun := hmkdir.trans ((Prog.exec_bind_ok hwrite).trans
        ((Prog.exec_bind_ok hwall₃).trans (Prog.exec_bind_error hrec)))
      rw [hrun] at hok
      cases hok
    · rw [hm] at hmeta
      have hrec : (writeMeta repo info).exec { w₃ with fs := fs₂ } =
          (.ok (), { w₃ with fs := fs₃ }) := exec_mapError_ok (exec_onFs_ok hm)
      have hrun := hmkdir.trans ((Prog.exec_bind_ok hwrite).trans
        ((Prog.exec_bind_ok hwall₃).trans (Prog.exec_bind_ok hrec)))
      refine ⟨info, _, hrun.trans rfl, rfl, rfl, ?_, ?_⟩
      · exact (hdirs.mono (Set.empty_subset _)).trans (hfs₂.trans (hmeta.mono (Set.empty_subset _)))
      · exact (hmeta.read (dataPath_not_scratch _ _ _) (Set.notMem_empty _)).trans hread₂
  · have hwrite : ((onFs (Fs.writeFile (dataPath S.root repo w.drawn) [])).mapError .io :
        Prog (World S) UploadError Unit).exec w₁ = (.error (.io e), w₁.failed) :=
      exec_mapError_error (exec_onFs_error he)
    have hrun := hmkdir.trans (Prog.exec_bind_error hwrite)
    rw [hrun] at hok
    cases hok

end Exec

/-! ## The relation -/

section Represents

variable {S : Setup}

/-- The session is live with these bytes in its file, its hasher and its counter. -/
def Live (w : World S) (key : Str × Str) (b : Bytes) : Prop :=
  ∃ st, w.sessions.lookup key = some st ∧ st.finalized = false ∧
    st.dataPath = dataPath S.root key.1 key.2 ∧ w.fs.read st.dataPath = some b ∧
    S.hash.Fed st.hasher b ∧ st.info.bytesReceived = tally b

/-- The world holds exactly the sessions of the abstract store, with their bytes in file, hasher and
counter. -/
structure Represents (w : World S) (store : Store) : Prop where
  dead : ∀ key, store key = none → w.sessions.lookup key = none
  live : ∀ key b, store key = some b → Live w key b
  named : ∀ key b, store key = some b → '/' ∉ key.2
  apart : ∀ key key' b b', store key = some b → store key' = some b' → key.2 = key'.2 → key = key'

/-- The data, the hasher and the counter of every other live session are as before. -/
def Others (store : Store) (key : Str × Str) (w w' : World S) : Prop :=
  ∀ key' b, key' ≠ key → store key' = some b → w'.sessions.lookup key' = w.sessions.lookup key' ∧
    w'.fs.read (dataPath S.root key'.1 key'.2) = w.fs.read (dataPath S.root key'.1 key'.2)

/-- The data file tells the session id. -/
theorem session_of_dataPath {root : Path} {repo repo' session session' : Str} (hs : '/' ∉ session)
    (hs' : '/' ∉ session') (h : dataPath root repo session = dataPath root repo' session') :
    session = session' := by
  have hname : ∀ {s : Str}, '/' ∉ s → ValidName (s ++ ".data".toList) := fun h =>
    validName_of_length (by simp) (by simp [h])
  unfold dataPath at h
  rw [join_name _ (hname hs), join_name _ (hname hs')] at h
  exact List.append_cancel_right (congrArg Subtype.val (List.cons.inj h).1)

variable {w w' : World S} {store : Store} {key : Str × Str} {except : Set Path}

/-- A step that changes one session and no data file of another. -/
theorem others_of_spares (hfs : Spares except w.fs w'.fs)
    (hlook : ∀ key', key' ≠ key → w'.sessions.lookup key' = w.sessions.lookup key')
    (hexcept : ∀ key' b, key' ≠ key → store key' = some b →
      dataPath S.root key'.1 key'.2 ∉ except) : Others store key w w' := fun key' b hne hb =>
  ⟨hlook key' hne, hfs.read (dataPath_not_scratch _ _ _) (hexcept key' b hne hb)⟩

/-- Live sessions have different data files. -/
theorem Represents.dataPath_ne (h : Represents w store) {key' : Str × Str} {b b' : Bytes}
    (hb : store key = some b) (hb' : store key' = some b') (hne : key' ≠ key) :
    dataPath S.root key'.1 key'.2 ≠ dataPath S.root key.1 key.2 := fun he =>
  hne (h.apart key' key b' b hb' hb (session_of_dataPath (h.named _ _ hb') (h.named _ _ hb) he))

theorem Represents.update (h : Represents w store) (hothers : Others store key w w')
    (hlook : ∀ key', key' ≠ key → w'.sessions.lookup key' = w.sessions.lookup key')
    {value : Option Bytes} (hdead : value = none → w'.sessions.lookup key = none)
    (hlive : ∀ b, value = some b → Live w' key b ∧ '/' ∉ key.2 ∧
      ∀ key' b', key' ≠ key → store key' = some b' → key'.2 ≠ key.2) :
    Represents w' (Function.update store key value) := by
  have hvalue : ∀ {key' : Str × Str}, key' ≠ key → Function.update store key value key' = store key' :=
    fun hne => Function.update_of_ne hne _ _
  refine ⟨fun key' hnone => ?_, fun key' b hb => ?_, fun key' b hb => ?_,
    fun key₁ key₂ b₁ b₂ hb₁ hb₂ hid => ?_⟩
  · by_cases hk : key' = key
    · subst hk
      rw [Function.update_self] at hnone
      exact hdead hnone
    · rw [hvalue hk] at hnone
      rw [hlook key' hk]
      exact h.dead key' hnone
  · by_cases hk : key' = key
    · subst hk
      rw [Function.update_self] at hb
      exact (hlive b hb).1
    · rw [hvalue hk] at hb
      obtain ⟨st, hst, hfin, hpath, hread, hfed, hcount⟩ := h.live key' b hb
      obtain ⟨hsame, hdata⟩ := hothers key' b hk hb
      refine ⟨st, hsame.trans hst, hfin, hpath, ?_, hfed, hcount⟩
      rw [hpath, hdata, ← hpath]
      exact hread
  · by_cases hk : key' = key
    · subst hk
      rw [Function.update_self] at hb
      exact (hlive b hb).2.1
    · rw [hvalue hk] at hb
      exact h.named key' b hb
  · by_cases hk₁ : key₁ = key
    · by_cases hk₂ : key₂ = key
      · rw [hk₁, hk₂]
      · rw [hk₁, Function.update_self] at hb₁
        rw [hvalue hk₂] at hb₂
        exact absurd (hid.symm.trans (congrArg Prod.snd hk₁)) ((hlive b₁ hb₁).2.2 key₂ b₂ hk₂ hb₂)
    · rw [hvalue hk₁] at hb₁
      by_cases hk₂ : key₂ = key
      · rw [hk₂, Function.update_self] at hb₂
        exact absurd (hid.trans (congrArg Prod.snd hk₂)) ((hlive b₂ hb₂).2.2 key₁ b₁ hk₁ hb₁)
      · rw [hvalue hk₂] at hb₂
        exact h.apart key₁ key₂ b₁ b₂ hb₁ hb₂ hid

end Represents

/-! ## What each call answers -/

section Specs

variable {S : Setup} {w : World S} {store : Store}

theorem append_spec (h : Represents w store) (repo session : Str) (chunk : Bytes) :
    (store (repo, session) = none ∧
      (append repo session chunk).exec w = (.error (.notFound session), w)) ∨
    ∃ b w', store (repo, session) = some b ∧
      (append repo session chunk).exec w = (.ok (tally (b ++ chunk)), w') ∧
      Represents w' (Function.update store (repo, session) (some (b ++ chunk))) ∧
      Others store (repo, session) w w' := by
  cases hb : store (repo, session) with
  | none => exact Or.inl ⟨rfl, exec_append_dead (h.dead _ hb) chunk⟩
  | some b =>
    obtain ⟨st, hst, hfin, hpath, hread, hfed, hcount⟩ := h.live _ b hb
    obtain ⟨now, w', hexec, hsessions, hfs, hfile⟩ :=
      exec_append_live hst hfin hpath hread chunk
    have hlook : ∀ key', key' ≠ (repo, session) →
        w'.sessions.lookup key' = w.sessions.lookup key' := by
      intro key' hne
      rw [hsessions, AList.lookup_insert_ne hne]
    have hothers : Others store (repo, session) w w' := by
      refine others_of_spares hfs hlook fun key' b' hne hb' hmem => ?_
      exact h.dataPath_ne hb hb' hne ((Set.mem_singleton_iff.mp hmem).trans hpath)
    refine Or.inr ⟨b, w', rfl, ?_, h.update hothers hlook (by simp) ?_, hothers⟩
    · rw [hexec, hcount, saturatingAdd_tally]
    · intro b' hb'
      cases hb'
      refine ⟨⟨UploadState.fed st chunk now, ?_, hfin, hpath, hfile, hfed.update chunk, ?_⟩,
        h.named _ b hb, fun key' b' hne hb' hid => hne (h.apart _ _ _ _ hb' hb hid)⟩
      · rw [hsessions, AList.lookup_insert]
      · show saturatingAdd st.info.bytesReceived chunk.length = _
        rw [hcount, saturatingAdd_tally]

theorem commit_spec (h : Represents w store) (repo session : Str) (d : Digest)
    (hok : ((commit repo session d).exec w).2.log.ioFailed = false) :
    ∃ w', (commit repo session d).exec w = (answer S repo session d (store (repo, session)), w') ∧
      Others store (repo, session) w w' ∧
      ((w' = w ∧ ∀ v, answer S repo session d (store (repo, session)) ≠ .ok v) ∨
        ∃ b, store (repo, session) = some b ∧ S.hash.hex b = d.hex ∧
          Represents w' (Function.update store (repo, session) none) ∧
          w'.fs.read (blobPath S.root repo d) = some b) := by
  have hsame : Others store (repo, session) w w := fun _ _ _ _ => ⟨rfl, rfl⟩
  cases hb : store (repo, session) with
  | none =>
    exact ⟨w, exec_commit_dead (h.dead _ hb) d, hsame, Or.inl ⟨rfl, by simp [answer]⟩⟩
  | some b =>
    obtain ⟨st, hst, hfin, hpath, hread, hfed, hcount⟩ := h.live _ b hb
    by_cases hhex : S.hash.hex b = d.hex
    · have hanswer : answer S repo session d (some b) = .ok (blobPath S.root repo d, tally b) :=
        if_pos hhex
      rcases exec_commit_cases hst hfin hpath hread (hfed.finalize.trans hhex) with
        ⟨e, w', hexec, hfailed⟩ | ⟨w', hexec, hsessions, hfs, hfile⟩
      · rw [hexec, hfailed] at hok
        cases hok
      have hlook : ∀ key', key' ≠ (repo, session) →
          w'.sessions.lookup key' = w.sessions.lookup key' := by
        intro key' hne
        rw [hsessions, AList.lookup_erase_ne hne]
      have hothers : Others store (repo, session) w w' := by
        refine others_of_spares hfs hlook fun key' b' hne hb' hmem => ?_
        rcases hmem with hmem | hmem
        · exact h.dataPath_ne hb hb' hne (hmem.trans hpath)
        · exact not_isDataName_of_isBlobName (isBlobName_blobPath S.root repo d)
            ((Set.mem_singleton_iff.mp hmem) ▸ isDataName_dataPath S.root key'.1 key'.2)
      refine ⟨w', ?_, hothers, Or.inr ⟨b, rfl, hhex, ?_, hfile⟩⟩
      · rw [hexec, hanswer, hcount]
      · refine h.update hothers hlook (fun _ => ?_) (by simp)
        rw [hsessions, AList.lookup_erase]
    · have hanswer : answer S repo session d (some b) = .error (.digestMismatch d.toStr
          ("sha256:".toList ++ (S.hash.hex b).val)) := if_neg hhex
      have hexec := exec_commit_mismatch hst hfin (d := d) (by rw [hfed.finalize]; exact hhex)
      refine ⟨w, ?_, hsame, Or.inl ⟨rfl, fun v he => ?_⟩⟩
      · rw [hexec, hanswer, hfed.finalize]
      · rw [hanswer] at he
        cases he

/-- What `finalize` leaves, by its answer. -/
structure Finalized (store : Store) (repo session : Str) (lastChunk : Option Bytes) (d : Digest)
    (w w' : World S) : Prop where
  others : Others store (repo, session) w w'
  represents : Represents w' (store.after (.finalize repo session lastChunk d,
    .finalized (answer S repo session d ((store (repo, session)).map (· ++ lastChunk.getD [])))))
  stored : ∀ v, answer S repo session d ((store (repo, session)).map (· ++ lastChunk.getD [])) = .ok v →
    w'.fs.read (blobPath S.root repo d) = (store (repo, session)).map (· ++ lastChunk.getD [])

theorem Others.trans {key : Str × Str} {value : Option Bytes} {w w' w'' : World S}
    (h : Others store key w w') (g : Others (Function.update store key value) key w' w'') :
    Others store key w w'' := by
  intro key' b hne hb
  obtain ⟨h₁, h₂⟩ := h key' b hne hb
  obtain ⟨g₁, g₂⟩ := g key' b hne ((Function.update_of_ne hne _ _).trans hb)
  exact ⟨g₁.trans h₁, g₂.trans h₂⟩

/-- The end of `finalize`, once the last chunk counts among the bytes of the session. -/
theorem commit_finalized {repo session : Str} {lastChunk : Option Bytes} {d : Digest} {b : Bytes}
    (hb : store (repo, session) = some b) {w₁ : World S}
    (h : Represents w₁ (Function.update store (repo, session) (some (b ++ lastChunk.getD []))))
    (hothers : Others store (repo, session) w w₁)
    (hok : ((commit repo session d).exec w₁).2.log.ioFailed = false) :
    ∃ w', (commit repo session d).exec w₁ =
        (answer S repo session d ((store (repo, session)).map (· ++ lastChunk.getD [])), w') ∧
      Finalized store repo session lastChunk d w w' := by
  obtain ⟨w', hexec, hothers', hcase⟩ := commit_spec h repo session d hok
  rw [Function.update_self] at hexec hcase
  have hmap : (store (repo, session)).map (· ++ lastChunk.getD []) =
      some (b ++ lastChunk.getD []) := by rw [hb]; rfl
  refine ⟨w', hexec.trans (by rw [hmap]), hothers.trans hothers', ?_, fun v hv => ?_⟩
  · rw [hmap]
    by_cases hhex : S.hash.hex (b ++ lastChunk.getD []) = d.hex
    · have hanswer : answer S repo session d (some (b ++ lastChunk.getD [])) =
          .ok (blobPath S.root repo d, tally (b ++ lastChunk.getD [])) := if_pos hhex
      rw [hanswer] at hcase ⊢
      rcases hcase with ⟨-, hnot⟩ | ⟨b', -, -, hrep, -⟩
      · exact absurd rfl (hnot _)
      · rw [Function.update_idem] at hrep
        exact hrep
    · have hanswer : answer S repo session d (some (b ++ lastChunk.getD [])) =
          .error (.digestMismatch d.toStr
            ("sha256:".toList ++ (S.hash.hex (b ++ lastChunk.getD [])).val)) := if_neg hhex
      rcases hcase with ⟨rfl, -⟩ | ⟨b', hb', hhex', -, -⟩
      · rw [hanswer, Store.after, hb]
        exact h
      · cases hb'
        exact absurd hhex' hhex
  · rw [hmap] at hv ⊢
    rcases hcase with ⟨-, hnot⟩ | ⟨b', hb', -, -, hread⟩
    · exact absurd hv (hnot v)
    · exact hread.trans hb'.symm

/-- `finalize` answers by the bytes of the session and the last chunk. -/
theorem finalize_spec (h : Represents w store) (repo session : Str) (lastChunk : Option Bytes)
    (d : Digest) (hok : ((finalize repo session lastChunk d).exec w).2.log.ioFailed = false) :
    ∃ w', (finalize repo session lastChunk d).exec w =
        (answer S repo session d ((store (repo, session)).map (· ++ lastChunk.getD [])), w') ∧
      Finalized store repo session lastChunk d w w' := by
  have hsame : Others store (repo, session) w w := fun _ _ _ _ => ⟨rfl, rfl⟩
  -- A finalize of a session that is not there answers before or after its last chunk.
  have hdead : store (repo, session) = none →
      Finalized store repo session lastChunk d w w := by
    intro hnone
    refine ⟨hsame, ?_, fun v hv => ?_⟩
    · rw [hnone]
      exact h
    · rw [hnone] at hv
      cases hv
  -- Without a last chunk it is the commit.
  have hplain : lastChunk.getD [] = [] →
      finalize (S := S) repo session lastChunk d = commit repo session d →
      ∃ w', (finalize repo session lastChunk d).exec w =
          (answer S repo session d ((store (repo, session)).map (· ++ lastChunk.getD [])), w') ∧
        Finalized store repo session lastChunk d w w' := by
    intro hlast hfin
    rw [hfin] at hok ⊢
    cases hb : store (repo, session) with
    | none =>
      exact ⟨w, exec_commit_dead (h.dead _ hb) d, hdead hb⟩
    | some b =>
      have hrep : Represents w
          (Function.update store (repo, session) (some (b ++ lastChunk.getD []))) := by
        rw [hlast, List.append_nil, ← hb, Function.update_eq_self]
        exact h
      have hcommit := commit_finalized hb hrep hsame hok
      rw [hb] at hcommit
      exact hcommit
  cases lastChunk with
  | none => exact hplain rfl rfl
  | some chunk =>
    cases hempty : chunk.isEmpty with
    | true => exact hplain (List.isEmpty_iff.mp hempty) (by simp only [finalize, hempty, if_true])
    | false =>
      have hfin : finalize (S := S) repo session (some chunk) d =
          append repo session chunk >>= fun _ => commit repo session d := by
        simp only [finalize, hempty, Bool.false_eq_true, if_false]
      rw [hfin] at hok ⊢
      rcases append_spec h repo session chunk with ⟨hnone, happend⟩ |
        ⟨b, w₁, hb, happend, hrep, hothers⟩
      · rw [Prog.exec_bind_error happend]
        refine ⟨w, ?_, hdead hnone⟩
        rw [hnone]
        rfl
      · rw [Prog.exec_bind_ok happend] at hok ⊢
        exact commit_finalized hb hrep hothers hok

theorem create_spec (h : Represents w store) (repo : Str)
    (hfresh : ∀ key b, store key = some b → key.2 ≠ w.drawn)
    (hok : ((createSession repo).exec w).2.log.ioFailed = false) :
    ∃ w', (createSession repo).exec w = (.ok w.drawn, w') ∧
      Represents w' (Function.update store (repo, w.drawn) (some [])) ∧
      Others store (repo, w.drawn) w w' := by
  obtain ⟨info, w', hexec, hcount, hsessions, hfs, hread⟩ := exec_createSession_clean w repo hok
  have hslash := notMem_drawn w
  generalize w.drawn = id at hfresh hexec hsessions hfs hread hslash
  have hlook : ∀ key', key' ≠ (repo, id) →
      w'.sessions.lookup key' = w.sessions.lookup key' := by
    intro key' hne
    rw [hsessions, AList.lookup_insert_ne hne]
  have hothers : Others store (repo, id) w w' := by
    refine others_of_spares hfs hlook fun key' b' _ hb' hmem => ?_
    exact hfresh key' b' hb' (session_of_dataPath (h.named _ _ hb') hslash
      (Set.mem_singleton_iff.mp hmem))
  have hlive : Live w' (repo, id) [] := by
    refine ⟨⟨info, S.hash.new, dataPath S.root repo id, false⟩, ?_, rfl, rfl, hread, S.hash.fed_new, ?_⟩
    · rw [hsessions, AList.lookup_insert]
    · rw [hcount, tally, List.length_nil, Nat.zero_min]
  refine ⟨w', hexec, h.update hothers hlook (by simp) ?_, hothers⟩
  intro b hb
  cases hb
  exact ⟨hlive, hslash, fun key' b' _ hb' => hfresh key' b' hb'⟩

theorem abort_spec (h : Represents w store) (repo session : Str) :
    ∃ w', (abort repo session).exec w = (.ok (), w') ∧
      Represents w' (Function.update store (repo, session) none) ∧
      Others store (repo, session) w w' := by
  obtain ⟨w', hexec, hsessions, hfs⟩ := exec_abort w repo session
  have hlook : ∀ key', key' ≠ (repo, session) →
      w'.sessions.lookup key' = w.sessions.lookup key' := by
    intro key' hne
    rw [hsessions, if_neg hne]
  have hothers : Others store (repo, session) w w' := by
    refine others_of_spares hfs hlook fun key' b' hne hb' hmem => ?_
    obtain ⟨st, hst, hpath⟩ := hmem
    cases hb : store (repo, session) with
    | none => cases (h.dead _ hb).symm.trans hst
    | some b =>
      obtain ⟨st', hst', -, hpath', -⟩ := h.live _ b hb
      cases hst'.symm.trans hst
      exact h.dataPath_ne hb hb' hne (hpath.trans hpath')
  refine ⟨w', hexec, h.update hothers hlook (fun _ => ?_) (by simp), hothers⟩
  rw [hsessions, if_pos rfl]

end Specs

/-! ## Sequences of calls -/

section Run

variable {S : Setup} {w₀ w : World S} {es : List (Call × Reply)}

/-- One call answers as the store says and keeps the relation. -/
theorem represents_call {store : Store} (h : Represents w store) (c : Call)
    (hfresh : ∀ id, createdId (c, (c.exec w).1) = some id → ∀ key b, store key = some b → key.2 ≠ id)
    (hok : (c.exec w).2.log.ioFailed = false) :
    Represents (c.exec w).2 (store.after (c, (c.exec w).1)) ∧
      ∀ key, keyOf (c, (c.exec w).1) = some key → Others store key w (c.exec w).2 := by
  cases c with
  | createSession repo =>
    have hdrawn : ∀ key b, store key = some b → key.2 ≠ w.drawn := by
      obtain ⟨info, w', hexec, -⟩ := exec_createSession_clean w repo hok
      refine hfresh w.drawn ?_
      simp only [Call.exec, hexec, createdId]
    obtain ⟨w', hexec, hrep, hothers⟩ := create_spec h repo hdrawn hok
    generalize w.drawn = id at hexec hrep hothers
    simp only [Call.exec, hexec, Store.after, keyOf]
    refine ⟨hrep, fun key hkey => ?_⟩
    cases hkey
    exact hothers
  | append repo session chunk =>
    rcases append_spec h repo session chunk with ⟨hnone, hexec⟩ |
      ⟨b, w', hb, hexec, hrep, hothers⟩
    · simp only [Call.exec, hexec, Store.after, keyOf]
      exact ⟨h, fun key _ _ _ _ _ => ⟨rfl, rfl⟩⟩
    · simp only [Call.exec, hexec, Store.after, keyOf, hb]
      refine ⟨hrep, fun key hkey => ?_⟩
      cases hkey
      exact hothers
  | finalize repo session lastChunk expected =>
    obtain ⟨w', hexec, hfin⟩ := finalize_spec h repo session lastChunk expected hok
    simp only [Call.exec, hexec, keyOf]
    refine ⟨hfin.represents, fun key hkey => ?_⟩
    cases hkey
    exact hfin.others
  | abort repo session =>
    obtain ⟨w', hexec, hrep, hothers⟩ := abort_spec h repo session
    simp only [Call.exec, hexec, Store.after, keyOf]
    refine ⟨hrep, fun key hkey => ?_⟩
    cases hkey
    exact hothers

theorem createdId_of_after {store : Store} {e : Call × Reply} {key : Str × Str} {b : Bytes}
    (h : store.after e key = some b) : (∃ b', store key = some b') ∨ createdId e = some key.2 := by
  have hupdate : ∀ {k : Str × Str} {v : Option Bytes}, (v ≠ none → ∃ b', store k = some b') →
      Function.update store k v key = some b → ∃ b', store key = some b' := by
    intro k v hv hk
    by_cases he : key = k
    · subst he
      rw [Function.update_self] at hk
      exact hv (hk ▸ Option.some_ne_none b)
    · exact ⟨b, (Function.update_of_ne he v store).symm.trans hk⟩
  have hmap : ∀ {k : Str × Str} {f : Bytes → Bytes}, (store k).map f ≠ none →
      ∃ b', store k = some b' := by
    intro k f hne
    exact Option.ne_none_iff_exists'.mp fun hnone => hne (by rw [hnone, Option.map_none])
  obtain ⟨c, r⟩ := e
  cases c with
  | createSession repo =>
    rcases r with (_ | session) | _ | _ | _
    · exact Or.inl ⟨b, h⟩
    · by_cases he : key = (repo, session)
      · rw [he]
        exact Or.inr rfl
      · exact Or.inl ⟨b, (Function.update_of_ne he _ store).symm.trans h⟩
    · exact Or.inl ⟨b, h⟩
    · exact Or.inl ⟨b, h⟩
    · exact Or.inl ⟨b, h⟩
  | append repo session chunk =>
    rcases r with _ | (_ | n) | _ | _
    · exact Or.inl ⟨b, h⟩
    · exact Or.inl ⟨b, h⟩
    · exact Or.inl (hupdate hmap h)
    · exact Or.inl ⟨b, h⟩
    · exact Or.inl ⟨b, h⟩
  | finalize repo session lastChunk expected =>
    rcases r with _ | _ | ((_ | _ | _ | _) | v) | _
    · exact Or.inl ⟨b, h⟩
    · exact Or.inl ⟨b, h⟩
    · exact Or.inl ⟨b, h⟩
    · exact Or.inl ⟨b, h⟩
    · exact Or.inl (hupdate hmap h)
    · exact Or.inl ⟨b, h⟩
    · exact Or.inl (hupdate (fun hne => absurd rfl hne) h)
    · exact Or.inl ⟨b, h⟩
  | abort repo session => exact Or.inl (hupdate (fun hne => absurd rfl hne) h)

/-- No two sessions of the sequence have one id. -/
def DistinctIds (es : List (Call × Reply)) : Prop := (es.filterMap createdId).Nodup

theorem DistinctIds.of_append {es es' : List (Call × Reply)} (h : DistinctIds (es ++ es')) :
    DistinctIds es := by
  rw [DistinctIds, List.filterMap_append] at h
  exact h.of_append_left

theorem DistinctIds.fresh {e : Call × Reply} (h : DistinctIds (es ++ [e])) {id : Str}
    (he : createdId e = some id) : id ∉ es.filterMap createdId := by
  rw [DistinctIds, List.filterMap_append, List.nodup_append] at h
  intro hid
  refine h.2.2 id hid id ?_ rfl
  rw [List.filterMap_cons_some he]
  exact List.mem_cons_self

/-- A failure stays recorded. -/
theorem failed_of_call (c : Call) (hok : (c.exec w).2.log.ioFailed = false) :
    w.log.ioFailed = false := by
  have hkeep : ∀ {ε α : Type} {repo : Str} {m : Prog (World S) ε α},
      Moves (Along S repo Set.univ) m → (m.exec w).2.log.ioFailed = false →
        w.log.ioFailed = false := by
    intro ε α repo m hm hm'
    refine Bool.eq_false_iff.mpr fun hw => ?_
    have hfailed := Evolution.star_keep (I := fun v : World S => v.log.ioFailed = true)
      (fun v v' ⟨_, _, heff⟩ hv => heff.failed hv) (hm w) hw
    rw [hm'] at hfailed
    cases hfailed
  have hall : ∀ k : Kind, k ∈ (Set.univ : Set Kind) := Set.mem_univ
  cases c with
  | createSession repo => exact hkeep (createSession_along (hall _) (hall _)) hok
  | append repo session chunk => exact hkeep (append_along (hall _) (hall _) session chunk) hok
  | finalize repo session lastChunk expected =>
    exact hkeep (finalize_along (hall _) (hall _) session lastChunk expected) hok
  | abort repo session => exact hkeep (abort_along (hall _) (hall _) session) hok

/-- Every sequence of calls keeps the relation. -/
theorem represents_received (h : Sequence w₀ es w) (hstart : w₀.sessions = ∅)
    (hids : DistinctIds es) (hok : w.log.ioFailed = false) :
    Represents w (received es) ∧
      ∀ key b, received es key = some b → key.2 ∈ es.filterMap createdId := by
  induction h with
  | start =>
    refine ⟨⟨fun key _ => ?_, ?_, ?_, ?_⟩, ?_⟩
    · rw [hstart]
      rfl
    · intro key b hb
      cases hb
    · intro key b hb
      cases hb
    · intro key key' b b' hb
      cases hb
    · intro key b hb
      cases hb
  | @call es w hseq c ih =>
    have hlive : w.log.ioFailed = false →
        ∀ id, createdId (c, (c.exec w).1) = some id → ∀ key b, received es key = some b →
          key.2 ≠ id := by
      intro hw id hid key b hb he
      exact hids.fresh hid (he ▸ (ih hids.of_append hw).2 key b hb)
    have hw : w.log.ioFailed = false := failed_of_call c hok
    obtain ⟨hrep, hmem⟩ := ih hids.of_append hw
    have hafter := (represents_call hrep c (hlive hw) hok).1
    rw [received_append]
    refine ⟨hafter, fun key b hb => ?_⟩
    rw [List.filterMap_append]
    rcases createdId_of_after hb with ⟨b', hb'⟩ | hid
    · exact List.mem_append_left _ (hmem key b' hb')
    · refine List.mem_append_right _ ?_
      rw [List.filterMap_cons_some hid]
      exact List.mem_cons_self

theorem Sequence.append {es' : List (Call × Reply)} {w' : World S} (h : Sequence w₀ es w)
    (h' : Sequence w es' w') : Sequence w₀ (es ++ es') w' := by
  induction h' with
  | start =>
    rw [List.append_nil]
    exact h
  | call _ c ih =>
    rw [← List.append_assoc]
    exact ih.call c

/-- A session that has ended does not come back. -/
theorem received_ended {es' : List (Call × Reply)} {key : Str × Str}
    (hmade : key.2 ∈ es.filterMap createdId) (hended : received es key = none)
    (hids : DistinctIds (es ++ es')) : received (es ++ es') key = none := by
  induction es' using List.reverseRecOn with
  | nil =>
    rw [List.append_nil]
    exact hended
  | append_singleton es' e ih =>
    rw [← List.append_assoc] at hids ⊢
    have hbefore := ih hids.of_append
    rw [received_append]
    by_contra hne
    obtain ⟨b, hb⟩ := Option.ne_none_iff_exists'.mp hne
    rcases createdId_of_after hb with ⟨b', hb'⟩ | hid
    · cases hbefore.symm.trans hb'
    · refine hids.fresh hid ?_
      rw [List.filterMap_append]
      exact List.mem_append_left _ hmade

/-- A session that has ended, by what the calls on it answer. -/
structure Ended (w : World S) (repo session : Str) : Prop where
  absent : w.sessions.lookup (repo, session) = none
  append : ∀ chunk, ((Uploads.append repo session chunk).exec w).1 = .error (.notFound session)
  finalize : ∀ lastChunk d,
    ((Uploads.finalize repo session lastChunk d).exec w).1 = .error (.notFound session)
  abort : ((Uploads.abort repo session).exec w).1 = .ok ()

theorem ended_of_absent {repo session : Str} (h : w.sessions.lookup (repo, session) = none) :
    Ended w repo session := by
  refine ⟨h, fun chunk => ?_, fun lastChunk d => ?_, ?_⟩
  · rw [exec_append_dead h]
  · have hcommit : ((commit repo session d).exec w).1 = .error (.notFound session) := by
      rw [exec_commit_dead h]
    cases lastChunk with
    | none => exact hcommit
    | some chunk =>
      simp only [Uploads.finalize]
      split
      · exact hcommit
      · rw [Prog.exec_bind_error (exec_append_dead h chunk)]
  · obtain ⟨w', he, -⟩ := exec_abort w repo session
    rw [he]

theorem answer_eq_ok {repo session : Str} {d : Digest} {o : Option Bytes} {v : Path × Nat} :
    answer S repo session d o = .ok v ↔
      ∃ b, o = some b ∧ S.hash.hex b = d.hex ∧ v = (blobPath S.root repo d, tally b) := by
  cases o with
  | none => simp [answer]
  | some b =>
    by_cases hhex : S.hash.hex b = d.hex
    · simp [answer, hhex, eq_comm]
    · simp [answer, hhex]

/-- What a `finalize` answers after a sequence of calls. -/
theorem exec_finalize (h : Sequence w₀ es w) (hstart : w₀.sessions = ∅) (hids : DistinctIds es)
    {repo session : Str} {lastChunk : Option Bytes} {d : Digest}
    (hok : ((finalize repo session lastChunk d).exec w).2.log.ioFailed = false) :
    ∃ w', (finalize repo session lastChunk d).exec w =
        (answer S repo session d ((received es (repo, session)).map (· ++ lastChunk.getD [])), w') ∧
      Finalized (received es) repo session lastChunk d w w' := by
  have hw := failed_of_call (.finalize repo session lastChunk d) hok
  exact finalize_spec (represents_received h hstart hids hw).1 repo session lastChunk d hok

/-- A committed session has ended for every later call. -/
theorem ended_after_finalize (h : Sequence w₀ es w) (hstart : w₀.sessions = ∅)
    {repo session : Str} {lastChunk : Option Bytes} {d : Digest} {v : Path × Nat} {w₁ : World S}
    (hexec : (finalize repo session lastChunk d).exec w = (.ok v, w₁))
    {es' : List (Call × Reply)} {w' : World S} (h' : Sequence w₁ es' w')
    (hids : DistinctIds (es ++ es')) (hok : w'.log.ioFailed = false) : Ended w' repo session := by
  let e : Call × Reply := (.finalize repo session lastChunk d, .finalized (.ok v))
  have hcall : Sequence w₀ (es ++ [e]) w₁ := by
    have hnext := h.call (.finalize repo session lastChunk d)
    simp only [Call.exec, hexec] at hnext
    exact hnext
  have hfilter : (es ++ [e]).filterMap createdId = es.filterMap createdId := by
    rw [List.filterMap_append]
    exact List.append_nil _
  have hids' : DistinctIds (es ++ [e] ++ es') := by
    rw [DistinctIds, List.filterMap_append, hfilter, ← List.filterMap_append]
    exact hids
  have hw₁ : w₁.log.ioFailed = false := by
    clear hexec hcall hids hids'
    induction h' with
    | start => exact hok
    | call _ c ih => exact ih (failed_of_call c hok)
  obtain ⟨w₂, hanswer, -⟩ := exec_finalize h hstart hids.of_append (by rw [hexec]; exact hw₁)
  obtain ⟨b, hb, -, -⟩ := answer_eq_ok.mp (congrArg Prod.fst (hanswer.symm.trans hexec))
  have hw : w.log.ioFailed = false := by
    refine failed_of_call (.finalize repo session lastChunk d) ?_
    simp only [Call.exec, hexec]
    exact hw₁
  have hmade : session ∈ (es ++ [e]).filterMap createdId := by
    rw [hfilter]
    cases hlive : received es (repo, session) with
    | none =>
      rw [hlive] at hb
      cases hb
    | some b' => exact (represents_received h hstart hids.of_append hw).2 _ b' hlive
  have hended : received (es ++ [e]) (repo, session) = none := by
    rw [received_append]
    exact Function.update_self _ _ _
  have hrep := (represents_received (hcall.append h') hstart hids' hok).1
  exact ended_of_absent (hrep.dead _ (received_ended hmade hended hids'))

/-- No call changes the state or the data file of another live session. -/
theorem call_keeps_others (h : Sequence w₀ es w) (hstart : w₀.sessions = ∅) {c : Call}
    (hids : DistinctIds (es ++ [(c, (c.exec w).1)])) (hok : (c.exec w).2.log.ioFailed = false)
    {key : Str × Str} {b : Bytes} (hlive : received es key = some b)
    (hother : keyOf (c, (c.exec w).1) ≠ some key) :
    (c.exec w).2.sessions.lookup key = w.sessions.lookup key ∧
      (c.exec w).2.fs.read (dataPath S.root key.1 key.2) =
        w.fs.read (dataPath S.root key.1 key.2) := by
  obtain ⟨hrep, hmem⟩ := represents_received h hstart hids.of_append (failed_of_call c hok)
  have hcall := represents_call hrep c
    (fun id hid key' b' hb' he => hids.fresh hid (he ▸ hmem key' b' hb')) hok
  have hkey : ∃ k, keyOf (c, (c.exec w).1) = some k := by
    cases c with
    | createSession repo =>
      obtain ⟨info, w', hexec, -⟩ := exec_createSession_clean w repo hok
      simp only [Call.exec, hexec, keyOf, Option.some.injEq, exists_eq']
    | append repo session chunk => exact ⟨_, rfl⟩
    | finalize repo session lastChunk expected => exact ⟨_, rfl⟩
    | abort repo session => exact ⟨_, rfl⟩
  obtain ⟨k, hk⟩ := hkey
  exact hcall.2 k hk key b (fun he => hother (hk.trans (congrArg some he.symm))) hlive

/-- After every sequence of calls: `finalize` succeeds exactly when the session is live and its
bytes have the expected digest, and then the blob holds them and the session has ended; no call
changes another session; and two sessions that were sent the same bytes get the same answer, however
these were split. -/
theorem finalize_answers (h : Sequence w₀ es w) (hstart : w₀.sessions = ∅) (hids : DistinctIds es) :
    (∀ repo session lastChunk d w₁ r, (finalize repo session lastChunk d).exec w = (r, w₁) →
      w₁.log.ioFailed = false →
      ((∃ v, r = .ok v) ↔ ∃ b, received es (repo, session) = some b ∧
        S.hash.hex (b ++ lastChunk.getD []) = d.hex) ∧
      ∀ path total, r = .ok (path, total) → path = blobPath S.root repo d ∧
        (∃ b, received es (repo, session) = some b ∧
          w₁.fs.read path = some (b ++ lastChunk.getD []) ∧
          ((b ++ lastChunk.getD []).length < u64 → total = (b ++ lastChunk.getD []).length)) ∧
        ∀ es' w', Sequence w₁ es' w' → DistinctIds (es ++ es') → w'.log.ioFailed = false →
          Ended w' repo session) ∧
    (∀ c : Call, DistinctIds (es ++ [(c, (c.exec w).1)]) → (c.exec w).2.log.ioFailed = false →
      ∀ key b, received es key = some b → keyOf (c, (c.exec w).1) ≠ some key →
        (c.exec w).2.sessions.lookup key = w.sessions.lookup key ∧
        (c.exec w).2.fs.read (dataPath S.root key.1 key.2) =
          w.fs.read (dataPath S.root key.1 key.2)) ∧
    ∀ {w₀' w' : World S} {es' : List (Call × Reply)}, Sequence w₀' es' w' → w₀'.sessions = ∅ →
      DistinctIds es' → ∀ repo session session' lastChunk lastChunk' d b b',
        received es (repo, session) = some b → received es' (repo, session') = some b' →
        b ++ lastChunk.getD [] = b' ++ lastChunk'.getD [] →
        ((finalize repo session lastChunk d).exec w).2.log.ioFailed = false →
        ((finalize repo session' lastChunk' d).exec w').2.log.ioFailed = false →
        ((finalize repo session lastChunk d).exec w).1 =
          ((finalize repo session' lastChunk' d).exec w').1 := by
  refine ⟨fun repo session lastChunk d w₁ r hexec hok => ?_,
    fun c hids' hok key b hlive hother => call_keeps_others h hstart hids' hok hlive hother,
    fun h' hstart' hids' repo session session' lastChunk lastChunk' d b b' hb hb' hsame hok hok' => ?_⟩
  · obtain ⟨w₂, hanswer, hfin⟩ := exec_finalize h hstart hids
      ((congrArg (fun r => r.2.log.ioFailed) hexec).trans hok)
    cases hexec.symm.trans hanswer
    refine ⟨⟨fun ⟨v, hv⟩ => ?_, fun ⟨b, hb, hhex⟩ => ?_⟩, fun path total hv => ?_⟩
    · obtain ⟨b, hb, hhex, -⟩ := answer_eq_ok.mp hv
      obtain ⟨b', hb', rfl⟩ := Option.map_eq_some_iff.mp hb
      exact ⟨b', hb', hhex⟩
    · exact ⟨_, answer_eq_ok.mpr ⟨b ++ lastChunk.getD [], by rw [hb]; rfl, hhex, rfl⟩⟩
    · have hstored := hfin.stored _ hv
      obtain ⟨b, hb, hhex, hpair⟩ := answer_eq_ok.mp hv
      obtain ⟨b', hb', rfl⟩ := Option.map_eq_some_iff.mp hb
      cases hpair
      refine ⟨rfl, ⟨b', hb', hstored.trans hb, fun hlen => tally_eq hlen⟩, ?_⟩
      intro es' w' hseq hids' hw'
      exact ended_after_finalize h hstart (hv ▸ hanswer) hseq hids' hw'
  · obtain ⟨w₁, hanswer, -⟩ := exec_finalize h hstart hids hok
    obtain ⟨w₂, hanswer', -⟩ := exec_finalize h' hstart' hids' hok'
    rw [hanswer, hanswer', hb, hb']
    show answer S repo session d (some (b ++ lastChunk.getD [])) =
      answer S repo session' d (some (b' ++ lastChunk'.getD []))
    rw [hsame]
    rfl

/-- The calls of a list, one after the other. -/
def perform (w : World S) : List Call → List (Call × Reply) × World S
  | [] => ([], w)
  | c :: cs =>
    let rest := perform (c.exec w).2 cs
    ((c, (c.exec w).1) :: rest.1, rest.2)

theorem sequence_perform (w : World S) (cs : List Call) :
    Sequence w (perform w cs).1 (perform w cs).2 := by
  induction cs generalizing w with
  | nil => exact .start
  | cons c cs ih => exact (Sequence.start.call c).append (ih _)

end Run

/-! A session in each of two repositories. -/

def boot : World Codec.standalone := World.start Codec.standalone [] [1, 0, 2]

def first : Str := newSessionId 1 Codec.standalone.pid

def calls : List Call :=
  [.createSession "a".toList, .createSession "b".toList, .append "a".toList first [97],
    .append "b".toList first [98], .append "a".toList first [98]]

/-- `ab` in two chunks, a `PUT` of `c`, and a later `PUT`. -/
theorem three_chunks_are_one_blob :
    ((finalize "a".toList first (some [99]) ⟨Codec.standalone.hash.hex [97, 98, 99]⟩).exec
      (perform boot calls).2).1.isOk = true ∧
    Ended ((finalize "a".toList first (some [99]) ⟨Codec.standalone.hash.hex [97, 98, 99]⟩).exec
      (perform boot calls).2).2 "a".toList first := by
  have hids : DistinctIds (perform boot calls).1 := by
    unfold DistinctIds
    decide +kernel
  have hlive : received (perform boot calls).1 ("a".toList, first) = some [97, 98] := by
    decide +kernel
  have hok : ((finalize "a".toList first (some [99]) ⟨Codec.standalone.hash.hex [97, 98, 99]⟩).exec
    (perform boot calls).2).2.log.ioFailed = false := by decide +kernel
  rcases hrun : (finalize "a".toList first (some [99]) ⟨Codec.standalone.hash.hex [97, 98, 99]⟩).exec
    (perform boot calls).2 with ⟨r, w₁⟩
  rw [hrun] at hok
  have hfin := (finalize_answers (sequence_perform boot calls) rfl hids).1 _ _ _ _ _ _ hrun hok
  obtain ⟨⟨path, total⟩, hv⟩ := hfin.1.mpr ⟨[97, 98], hlive, by decide +kernel⟩
  have hended := (hfin.2 path total hv).2.2 [] w₁ .start
    (by rw [List.append_nil]; exact hids) hok
  exact ⟨by rw [hv]; rfl, hended⟩

/-- An `abort` of a session that was finalized returns `Ok`. -/
theorem abort_after_finalize_is_ok : ∃ es w v w₁, Sequence boot es w ∧ DistinctIds es ∧
    (finalize "a".toList first none ⟨Codec.standalone.hash.hex []⟩).exec w = (.ok v, w₁) ∧
    w₁.log.ioFailed = false ∧ ((abort "a".toList first).exec w₁).1 = .ok () ∧
    ((abort "a".toList first).exec w₁).2.log.ioFailed = false := by
  let cs : List Call := [.createSession "a".toList]
  have hok : ((finalize "a".toList first none ⟨Codec.standalone.hash.hex []⟩).exec
      (perform boot cs).2).1.isOk = true ∧
    ((finalize "a".toList first none ⟨Codec.standalone.hash.hex []⟩).exec
      (perform boot cs).2).2.log.ioFailed = false ∧
    ((abort "a".toList first).exec ((finalize "a".toList first none ⟨Codec.standalone.hash.hex []⟩).exec
      (perform boot cs).2).2).2.log.ioFailed = false := by decide +kernel
  rcases hrun : (finalize "a".toList first none ⟨Codec.standalone.hash.hex []⟩).exec
    (perform boot cs).2 with ⟨e | v, w₁⟩
  · rw [hrun] at hok
    cases hok.1
  · rw [hrun] at hok
    obtain ⟨w₂, he, -⟩ := exec_abort w₁ "a".toList first
    refine ⟨_, _, v, w₁, sequence_perform boot cs, ?_, hrun, hok.2.1, by rw [he], hok.2.2⟩
    unfold DistinctIds
    decide +kernel

end Quill.Uploads.Sequential
