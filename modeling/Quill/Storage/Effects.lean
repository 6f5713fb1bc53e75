import Quill.Storage.LocalTags
import Quill.Storage.Uploads

/-!
# What the operations of the stores do

All changes that the stores make to a world are steps of a few kinds (`Effect`): `ambient`
steps change scratch files, directories, clocks and the cache of upstream tags; a
`publish` puts verified bytes at the path of a blob; a `fill` caches the metadata of a
blob that is there; a `retract` removes a blob and its cached metadata; the others belong
to upload sessions and to local tags. A session whose creation fails half-way leaves a
data file without a record (`spoil`).

A path is scratch when no later operation takes its contents for a blob, for the data of
a session or for a sidecar of local tags. The names of the files decide that, and the
repository does not matter.
-/

namespace Quill

open Text Files Cas World LocalStorage Uploads LocalTags

/-! ## Scratch files -/

/-- The name of a session's data file. -/
def IsDataName (p : Path) : Prop := ∃ n q, p = n :: q ∧ ".data".toList <:+ n.val

/-- The name of a sidecar of pushed tags. -/
def IsTagsName (p : Path) : Prop := ∃ q, p = localTagsName :: q

/-- The name of a file that no invariant is about. -/
def Scratch (p : Path) : Prop := ¬ IsBlobName p ∧ ¬ IsDataName p ∧ ¬ IsTagsName p

theorem scratch_of_no_dot {n : Name} {q : Path} (hdash : '-' ∈ n.val) (hdot : '.' ∉ n.val) :
    Scratch (n :: q) := by
  refine ⟨not_isBlobName_cons hdash (Or.inr (Or.inl rfl)), ?_, ?_⟩
  · rintro ⟨m, r, he, hs⟩
    cases he
    exact hdot (hs.subset (by decide))
  · rintro ⟨r, he⟩
    cases he
    exact hdot (by decide)

/-- A name with a suffix that fits neither the data of a session nor a sidecar. -/
theorem scratch_of_suffix {n : Name} {q : Path} {t : Str} (ht : t <:+ n.val) (hdot : '.' ∈ t)
    (hlen : 5 ≤ t.length) (hdata : ¬ ".data".toList <:+ t)
    (htags : ¬ t <:+ localTagsName.val) : Scratch (n :: q) := by
  refine ⟨not_isBlobName_cons (ht.subset hdot) (Or.inl rfl), ?_, ?_⟩
  · rintro ⟨m, r, he, hs⟩
    cases he
    exact hdata (List.suffix_of_suffix_length_le hs ht (by simpa using hlen))
  · rintro ⟨r, he⟩
    cases he
    exact htags ht

theorem scratch_join_suffix (p : Path) (s : Str) {t : Str} (hslash : '/' ∉ t) (hdot : '.' ∈ t)
    (hlen : 5 ≤ t.length) (hdata : ¬ ".data".toList <:+ t) (htags : ¬ t <:+ localTagsName.val) :
    Scratch (join p (s ++ t)) := by
  obtain ⟨n, q, he, ht⟩ := join_append_suffix p s hslash (by omega)
  rw [he]
  exact scratch_of_suffix ht hdot hlen hdata htags

theorem scratch_metaPath (root : Path) (repo session : Str) : Scratch (metaPath root repo session) :=
  scratch_join_suffix _ _ (by decide) (by decide) (by decide) (by decide) (by decide)

theorem scratch_metaTmpPath (root : Path) (repo session : Str) :
    Scratch (metaTmpPath root repo session) :=
  scratch_join_suffix _ _ (by decide) (by decide) (by decide) (by decide) (by decide)

theorem scratch_tmpName (k : Nat) (q : Path) : Scratch (tmpName k :: q) :=
  scratch_of_no_dot (List.mem_append_left _ (by decide)) (dot_notMem_tmpName k)

theorem scratch_localTagsTmp (q : Path) : Scratch (localTagsTmpName :: q) :=
  scratch_of_suffix (List.suffix_refl localTagsTmpName.val) (by decide) (by decide) (by decide)
    (by decide)

theorem scratch_upstreamTags (q : Path) : Scratch (upstreamTagsName :: q) :=
  scratch_of_suffix (List.suffix_refl upstreamTagsName.val) (by decide) (by decide) (by decide)
    (by decide)

theorem scratch_upstreamTagsTmp (q : Path) : Scratch (upstreamTagsTmpName :: q) :=
  scratch_of_suffix (List.suffix_refl upstreamTagsTmpName.val) (by decide) (by decide) (by decide)
    (by decide)

theorem isDataName_dataPath (root : Path) (repo session : Str) :
    IsDataName (dataPath root repo session) := by
  obtain ⟨n, q, he, ht⟩ := join_append_suffix (uploadsDir root repo) session
    (t := ".data".toList) (by decide) (by decide)
  exact ⟨n, q, he, ht⟩

/-- The data files of plainly named sessions are shared by no two sessions. -/
theorem dataPath_injective {root : Path} {repo repo' session session' : Str} (hr : Plain repo)
    (hr' : Plain repo') (hs : '/' ∉ session) (hs' : '/' ∉ session')
    (h : dataPath root repo session = dataPath root repo' session') :
    repo = repo' ∧ session = session' := by
  have hname : ∀ {s : Str}, '/' ∉ s → ValidName (s ++ ".data".toList) := fun h =>
    validName_of_length (by simp) (by simp [h])
  unfold dataPath at h
  rw [join_name _ (hname hs), join_name _ (hname hs')] at h
  obtain ⟨hhead, htail⟩ := List.cons.inj h
  refine ⟨hr.join_injective hr' (List.cons.inj htail).2, ?_⟩
  exact List.append_cancel_right (congrArg Subtype.val hhead)

theorem not_isDataName_of_isBlobName {p : Path} (h : IsBlobName p) : ¬ IsDataName p := by
  rintro ⟨n, q, rfl, hs⟩
  exact not_isBlobName_cons (hs.subset (by decide)) (Or.inl rfl) h

theorem not_isTagsName_of_isBlobName {p : Path} (h : IsBlobName p) : ¬ IsTagsName p := by
  rintro ⟨q, rfl⟩
  exact not_isBlobName_cons (c := '.') (by decide) (Or.inl rfl) h

/-- A blob is no sidecar, of whichever repositories. -/
theorem blobPath_ne_localTagsPath (root : Path) (r r' : Str) (d : Digest) :
    blobPath root r d ∉ ({localTagsPath root r'} : Set Path) := fun hmem =>
  not_isTagsName_of_isBlobName (isBlobName_blobPath root r d) ⟨_, Set.mem_singleton_iff.mp hmem⟩

theorem not_isTagsName_of_isDataName {p : Path} (h : IsDataName p) : ¬ IsTagsName p := by
  rintro ⟨q, rfl⟩
  obtain ⟨n, r, he, hs⟩ := h
  cases he
  revert hs
  decide

/-! ## Changes of files -/

/-- Nothing but the scratch files, the files of `except` and missing directories
changes; directories stay. -/
structure Spares (except : Set Path) (fs fs' : Fs) : Prop where
  dirs : ∀ p, fs.isDir p = true → fs'.isDir p = true
  files : ∀ p, ¬ Scratch p → p ∉ except →
    fs'.node p = fs.node p ∨ (fs.node p = none ∧ fs'.node p = some .dir)

namespace Spares

variable {except : Set Path} {fs fs' fs'' : Fs}

theorem refl (except : Set Path) (fs : Fs) : Spares except fs fs :=
  ⟨fun _ h => h, fun _ _ _ => Or.inl rfl⟩

theorem trans (h : Spares except fs fs') (g : Spares except fs' fs'') : Spares except fs fs'' := by
  refine ⟨fun p hp => g.dirs p (h.dirs p hp), fun p hs hp => ?_⟩
  rcases g.files p hs hp with hg | ⟨hg, hg'⟩
  · rw [hg]
    exact h.files p hs hp
  · rcases h.files p hs hp with hh | ⟨hh, hh'⟩
    · exact Or.inr ⟨hh ▸ hg, hg'⟩
    · exact Or.inr ⟨hh, hg'⟩

theorem mono {except' : Set Path} (h : Spares except fs fs') (hsub : except ⊆ except') :
    Spares except' fs fs' :=
  ⟨h.dirs, fun p hs hp => h.files p hs fun hm => hp (hsub hm)⟩

theorem read (h : Spares except fs fs') {p : Path} (hs : ¬ Scratch p) (hp : p ∉ except) :
    fs'.read p = fs.read p := by
  rcases h.files p hs hp with h | ⟨h, h'⟩
  · exact Fs.read_congr h
  · simp [Fs.read, h, h']

end Spares

/-- The evolution of files that only touches scratch files. -/
def spares : Evolution Fs := ⟨Spares ∅, Spares.refl ∅, Spares.trans⟩

namespace Spares

variable {except : Set Path} {fs : Fs}

theorem set {p : Path} {b : Bytes} (hp : Scratch p ∨ p ∈ except) (hdir : fs.node p ≠ some .dir) :
    Spares except fs (fs.set p (.file b)) := by
  refine ⟨fun q hq => Fs.isDir_set_file hdir hq, fun q hs hq => Or.inl ?_⟩
  rw [Fs.node_set, if_neg]
  rintro rfl
  exact hp.elim hs hq

theorem del {p : Path} (hp : Scratch p ∨ p ∈ except) (hdir : fs.node p ≠ some .dir) :
    Spares except fs (fs.del p) := by
  refine ⟨fun q hq => Fs.isDir_del_file hdir hq, fun q hs hq => Or.inl ?_⟩
  rw [Fs.node_del, if_neg]
  rintro rfl
  exact hp.elim hs hq

/-- A successful rename. -/
theorem rename {src dst : Path} {b : Bytes} (hsrc : Scratch src ∨ src ∈ except)
    (hdst : Scratch dst ∨ dst ∈ except) (hread : fs.read src = some b) (hdir : fs.isDir dst = false) :
    Spares except fs ((fs.del src).set dst (.file b)) := by
  refine (del hsrc (Fs.node_ne_dir_of_read hread)).trans (set hdst ?_)
  rw [Fs.node_del]
  split
  · simp
  · exact Fs.node_ne_dir_of_isDir hdir

end Spares

theorem createDirAll_spares (p : Path) : Moves spares (Fs.createDirAll p) :=
  (Fs.createDirAll_grows p).weaken fun _ _ h =>
    ⟨fun _ hq => Fs.growsDirs_isDir h hq, fun q _ _ => h q⟩

theorem writeFile_spares {p : Path} (hp : Scratch p) (b : Bytes) :
    Moves spares (Fs.writeFile p b) := by
  intro fs
  rcases Fs.exec_writeFile p b fs with ⟨hdir, -, he⟩ | ⟨e, he⟩
  · rw [he]
    exact Spares.set (Or.inl hp) (Fs.node_ne_dir_of_isDir hdir)
  · rw [he]
    exact spares.refl fs

theorem appendFile_spares {p : Path} (hp : Scratch p) (b : Bytes) :
    Moves spares (Fs.appendFile p b) := by
  intro fs
  rcases Fs.exec_appendFile p b fs with ⟨c, hc, he⟩ | ⟨-, e, he⟩
  · rw [he]
    exact Spares.set (Or.inl hp) (Fs.node_ne_dir_of_read hc)
  · rw [he]
    exact spares.refl fs

theorem removeFile_spares {p : Path} (hp : Scratch p) : Moves spares (Fs.removeFile p) := by
  intro fs
  rcases Fs.exec_removeFile p fs with ⟨b, hb, he⟩ | ⟨-, e, he, -⟩
  · rw [he]
    exact Spares.del (Or.inl hp) (Fs.node_ne_dir_of_read hb)
  · rw [he]
    exact spares.refl fs

theorem rename_spares {src dst : Path} (hsrc : Scratch src) (hdst : Scratch dst) :
    Moves spares (Fs.rename src dst) := by
  intro fs
  rcases Fs.exec_rename src dst fs with ⟨b, hb, hdir, -, he⟩ | ⟨e, he⟩
  · rw [he]
    exact Spares.rename (Or.inl hsrc) (Or.inl hdst) hb hdir
  · rw [he]
    exact spares.refl fs

theorem writeAtomic_spares {tmp dst : Path} (htmp : Scratch tmp) (hdst : Scratch dst) (b : Bytes) :
    Moves spares (Fs.writeAtomic tmp dst b) :=
  (writeFile_spares htmp b).seq fun _ => rename_spares htmp hdst

/-! ## Effects -/

/-- The kinds of changes that the storage layer makes. -/
inductive Kind where
  | ambient
  | publish
  | fill
  | retract
  | create
  | session
  | setTag
  | removeTag
  deriving DecidableEq

/-- A step that changes neither blobs nor sessions nor local tags. -/
structure Ambient {S : Setup} (w w' : World S) : Prop where
  fs : Spares ∅ w.fs w'.fs
  cache : w'.metaCache = w.metaCache
  tags : w'.localTags = w.localTags
  sessions : w'.sessions = w.sessions
  stored : w'.log.stored = w.log.stored
  failed : w.log.ioFailed = true → w'.log.ioFailed = true
  now : w.now ≤ w'.now

/-- The world after its local tags and their sidecar were rewritten. -/
def World.retagged {S : Setup} (w : World S) (fs' : Fs) (tags : TagMap) (failed : Bool) : World S :=
  { w with fs := fs', localTags := tags, log := { w.log with ioFailed := failed } }

/-- The world after the metadata of a blob was cached. -/
def World.filled {S : Setup} (w : World S) (repo : Str) (d : Digest) (m : BlobMeta) : World S :=
  { w with metaCache := w.metaCache.insert (repo, d) m }

/-- One change that an operation on `repo` makes. -/
inductive Effect (S : Setup) (repo : Str) : Kind → World S → World S → Prop
  | ambient {w w' : World S} (h : Ambient w w') : Effect S repo .ambient w w'
  | publish {w : World S} {fs' : Fs} (d : Digest) (b : Bytes) (hhash : S.hash.hex b = d.hex)
      (hfs : Spares {blobPath S.root repo d} w.fs fs')
      (hfile : fs'.read (blobPath S.root repo d) = some b) :
      Effect S repo .publish w
        { w with fs := fs', log := { w.log with stored := w.log.stored ++ [b] } }
  | fill {w : World S} (d : Digest) (m : BlobMeta) (hpath : m.path = blobPath S.root repo d)
      (hfile : w.fs.isFile m.path = true)
      (hsize : ∀ b, w.fs.read m.path = some b → b.length < u64 → m.size = b.length) :
      Effect S repo .fill w (w.filled repo d m)
  | retract {w : World S} {fs' : Fs} (d : Digest) (hfs : Spares {blobPath S.root repo d} w.fs fs')
      (hgone : fs'.node (blobPath S.root repo d) = none) :
      Effect S repo .retract w { w with fs := fs', metaCache := w.metaCache.erase (repo, d) }
  | create {w : World S} {fs' : Fs} (session : Str) (info : UploadMeta)
      (hfs : Spares {dataPath S.root repo session} w.fs fs')
      (hfile : fs'.read (dataPath S.root repo session) = some []) (hsession : '/' ∉ session) :
      Effect S repo .create w
        { w with
          fs := fs'
          sessions := w.sessions.insert (repo, session)
            ⟨info, S.hash.new, dataPath S.root repo session, false⟩ }
  | append {w : World S} {fs' : Fs} {session : Str} {st : UploadState S.hash} {c : Bytes}
      (chunk : Bytes) (now : Nat) (hst : w.sessions.lookup (repo, session) = some st)
      (hread : w.fs.read st.dataPath = some c) (hfs : Spares {st.dataPath} w.fs fs')
      (hfile : fs'.read st.dataPath = some (c ++ chunk)) :
      Effect S repo .session w
        { w with
          fs := fs'
          sessions := w.sessions.insert (repo, session) (UploadState.fed st chunk now) }
  | commit {w : World S} {fs' : Fs} {session : Str} {st : UploadState S.hash} {b : Bytes}
      (d : Digest) (hst : w.sessions.lookup (repo, session) = some st)
      (hhash : S.hash.finalize st.hasher = d.hex) (hread : w.fs.read st.dataPath = some b)
      (hfs : Spares {st.dataPath, blobPath S.root repo d} w.fs fs')
      (hfile : fs'.read (blobPath S.root repo d) = some b) :
      Effect S repo .session w
        { w with
          fs := fs'
          sessions := w.sessions.erase (repo, session)
          log := { w.log with stored := w.log.stored ++ [b] } }
  | abandon {w : World S} {fs' : Fs} {session : Str} {st : UploadState S.hash}
      (hst : w.sessions.lookup (repo, session) = some st) (hfs : Spares {st.dataPath} w.fs fs') :
      Effect S repo .session w
        { w with fs := fs', sessions := w.sessions.erase (repo, session) }
  | spoil {w : World S} {fs' : Fs} (session : Str)
      (hfs : Spares {dataPath S.root repo session} w.fs fs') :
      Effect S repo .create w { w with fs := fs', log := { w.log with ioFailed := true } }
  | setTag {w : World S} {fs' : Fs} (tag : Str) (d : Digest) (pushedAt : Nat) (failed : Bool)
      (hfs : Spares {localTagsPath S.root repo} w.fs fs')
      (hfailed : w.log.ioFailed = true → failed = true)
      (hfile : failed = false → fs'.read (localTagsPath S.root repo) = some (S.serde.tagsToVec
        (snapshot (w.localTags.insert (repo, tag) ⟨d.toStr, pushedAt⟩) repo))) :
      Effect S repo .setTag w
        (w.retagged fs' (w.localTags.insert (repo, tag) ⟨d.toStr, pushedAt⟩) failed)
  | removeTag {w : World S} {fs' : Fs} (tag : Str) (failed : Bool)
      (hfs : Spares {localTagsPath S.root repo} w.fs fs')
      (hfailed : w.log.ioFailed = true → failed = true)
      (hfile : failed = false → fs'.read (localTagsPath S.root repo) = some (S.serde.tagsToVec
        (snapshot (w.localTags.erase (repo, tag)) repo))) :
      Effect S repo .removeTag w (w.retagged fs' (w.localTags.erase (repo, tag)) failed)

/-- A failure stays recorded. -/
theorem Effect.failed {S : Setup} {repo : Str} {k : Kind} {w w' : World S} (h : Effect S repo k w w')
    (hw : w.log.ioFailed = true) : w'.log.ioFailed = true := by
  cases h with
  | ambient h => exact h.failed hw
  | spoil => rfl
  | setTag tag d pushedAt failed hfs hfailed => exact hfailed hw
  | removeTag tag failed hfs hfailed => exact hfailed hw
  | _ => exact hw

/-- Effects of the kinds in `K`, in any number. -/
def Along (S : Setup) (repo : Str) (K : Set Kind) : Evolution (World S) :=
  .star fun w w' => ∃ k ∈ K, Effect S repo k w w'

section Ops

variable {S : Setup} {repo : Str} {K : Set Kind} {ε ε' α : Type}

theorem Effect.along {k : Kind} {w w' : World S} (h : Effect S repo k w w') (hk : k ∈ K) :
    (Along S repo K).rel w w' := .single ⟨k, hk, h⟩

theorem Ambient.along {w w' : World S} (h : Ambient w w') (hk : Kind.ambient ∈ K) :
    (Along S repo K).rel w w' := (Effect.ambient h).along hk

theorem Ambient.rfl {w : World S} : Ambient w w :=
  ⟨.refl _ _, Eq.refl _, Eq.refl _, Eq.refl _, Eq.refl _, id, le_rfl⟩

theorem Ambient.trans {w w' w'' : World S} (h : Ambient w w') (g : Ambient w' w'') : Ambient w w'' :=
  ⟨h.fs.trans g.fs, g.cache.trans h.cache, g.tags.trans h.tags, g.sessions.trans h.sessions,
    g.stored.trans h.stored, fun hf => g.failed (h.failed hf), h.now.trans g.now⟩

theorem Ambient.with_sessions {w w' : World S} (h : Ambient w w')
    (f : (AList fun _ : Str × Str => UploadState S.hash) → AList fun _ : Str × Str => UploadState S.hash) :
    Ambient { w with sessions := f w.sessions } { w' with sessions := f w'.sessions } :=
  ⟨h.fs, h.cache, h.tags, congrArg f h.sessions, h.stored, h.failed, h.now⟩

/-- The world after a file-system step that may have failed. -/
theorem ambient_of_spares {w : World S} {fs' : Fs} (h : Spares ∅ w.fs fs') (failed : Bool)
    (hfailed : w.log.ioFailed = true → failed = true) :
    Ambient w { w with fs := fs', log := { w.log with ioFailed := failed } } :=
  ⟨h, Eq.refl _, Eq.refl _, Eq.refl _, Eq.refl _, hfailed, le_rfl⟩

theorem onFs_ambient {m : Prog Fs IoKind α} (hm : Moves spares m) (w : World S) :
    Ambient w ((onFs m : Prog (World S) IoKind α).exec w).2 := by
  have h := hm w.fs
  unfold onFs
  simp only [Prog.exec_ofFun]
  cases hr : m.exec w.fs with
  | mk r fs' =>
    rw [hr] at h
    cases r with
    | ok a => exact ambient_of_spares h w.log.ioFailed id
    | error e => exact ambient_of_spares h true fun _ => Eq.refl _

theorem probeFs_ambient {m : Prog Fs IoKind α} (hm : Moves spares m) (w : World S) :
    Ambient w ((probeFs m : Prog (World S) IoKind α).exec w).2 := by
  have h := hm w.fs
  unfold probeFs
  simp only [Prog.exec_ofFun]
  cases hr : m.exec w.fs with
  | mk r fs' =>
    rw [hr] at h
    cases r with
    | ok a => exact ambient_of_spares h w.log.ioFailed id
    | error e => exact ambient_of_spares h _ fun hf => by simp [hf]

variable (ha : Kind.ambient ∈ K)

include ha

theorem onFs_along {m : Prog Fs IoKind α} (hm : Moves spares m) :
    Moves (Along S repo K) (onFs m : Prog (World S) IoKind α) :=
  fun w => (onFs_ambient hm w).along ha

theorem probeFs_along {m : Prog Fs IoKind α} (hm : Moves spares m) :
    Moves (Along S repo K) (probeFs m : Prog (World S) IoKind α) :=
  fun w => (probeFs_ambient hm w).along ha

theorem instantNow_along : Moves (Along S repo K) (instantNow : Prog (World S) ε Nat) := fun _ =>
  Ambient.along ⟨.refl _ _, Eq.refl _, Eq.refl _, Eq.refl _, Eq.refl _, id, Nat.le_add_right _ _⟩ ha

theorem wallNow_along : Moves (Along S repo K) (wallNow : Prog (World S) ε Nat) := fun _ =>
  Ambient.along ⟨.refl _ _, Eq.refl _, Eq.refl _, Eq.refl _, Eq.refl _, id, le_rfl⟩ ha

theorem call_along (c : UpstreamCall) : Moves (Along S repo K) (call c : Prog (World S) ε Unit) :=
  fun _ => Ambient.along ⟨.refl _ _, Eq.refl _, Eq.refl _, Eq.refl _, Eq.refl _, id, le_rfl⟩ ha

end Ops

/-- Ambient steps, one after the other, are an ambient step. -/
theorem ambient_of_along {S : Setup} {repo : Str} {w w' : World S}
    (h : (Along S repo {.ambient}).rel w w') : Ambient w w' := by
  let E : Evolution (World S) := ⟨Ambient, fun _ => Ambient.rfl, Ambient.trans⟩
  refine Evolution.star_rel (E := E) (fun s t hst => ?_) h
  obtain ⟨k, rfl, heff⟩ := hst
  cases heff with
  | ambient hamb => exact hamb

end Quill
