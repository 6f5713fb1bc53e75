import Quill.Files.Area
import Quill.Registry.Pulls

/-!
# The files that a request can reach

`RepoFile root repo p` lists the files of a repository: its blobs, the files of its
uploads and its two sidecars with their temporary names. `footprint` is the area of a repository:
a handler looks at paths above and below the directory of the repository, writes files of
the repository and creates the directories that lead to them.

`Orderly w` says that the paths kept in memory are those that the layout gives and that the
session records on disk name the session they are filed under. The second part is needed
because `write_meta_for` writes to the path of the session that the record names.
`dispatch_confined` says that a request that starts in an orderly world is confined to the
footprint of its repository, and that it leaves an orderly world.
-/

namespace Quill.Registry

open Text Files Cas World LocalStorage Uploads LocalTags PullThrough

/-! ## The files of a repository -/

/-- A name that the upload code and the fetches give to a file under `_uploads`. -/
def IsUploadName (n : Name) : Prop :=
  ".data".toList <:+ n.val ∨ ".meta.json".toList <:+ n.val ∨ ".meta.json.tmp".toList <:+ n.val ∨
    "tmp-".toList <+: n.val ∨ "pt-".toList <+: n.val

/-- The paths of the files of a repository. -/
inductive RepoFile (root : Path) (repo : Str) : Path → Prop
  | blob (d : Digest) : RepoFile root repo (blobPath root repo d)
  | upload (n : Name) (h : IsUploadName n) : RepoFile root repo (n :: uploadsDir root repo)
  | localTags : RepoFile root repo (localTagsPath root repo)
  | localTagsTmp : RepoFile root repo (localTagsTmpName :: repoDir root repo)
  | upstreamTags : RepoFile root repo (upstreamTagsPath root repo)
  | upstreamTagsTmp : RepoFile root repo (upstreamTagsTmpName :: repoDir root repo)

theorem RepoFile.below {root : Path} {repo : Str} {p : Path} (h : RepoFile root repo p) :
    p ≠ [] ∧ repoDir root repo <:+ p := by
  cases h with
  | blob d => exact ⟨List.cons_ne_nil _ _, [hexName d, sha256Name, blobsName], rfl⟩
  | upload n h => exact ⟨List.cons_ne_nil _ _, [n, uploadsName], rfl⟩
  | localTags => exact ⟨List.cons_ne_nil _ _, List.suffix_cons _ _⟩
  | localTagsTmp => exact ⟨List.cons_ne_nil _ _, List.suffix_cons _ _⟩
  | upstreamTags => exact ⟨List.cons_ne_nil _ _, List.suffix_cons _ _⟩
  | upstreamTagsTmp => exact ⟨List.cons_ne_nil _ _, List.suffix_cons _ _⟩

variable {S : Setup} {repo : Str} {ε α : Type}

/-- A session record names the session that it is filed under. -/
def Labelled (S : Setup) (p : Path) (b : Bytes) : Prop :=
  ∀ n q session m, p = n :: q → n.val = session ++ ".meta.json".toList →
    S.serde.uploadMetaFromSlice b = some m → m.session = session

/-- The area of a repository. -/
def footprint (S : Setup) (repo : Str) : Area where
  look := {p | p ≠ [] ∧ (p <:+ repoDir S.root repo ∨ repoDir S.root repo <:+ p)}
  files := {p | RepoFile S.root repo p}
  dirs := {p | p ≠ [] ∧ (p <:+ blobsDir S.root repo ∨ p <:+ uploadsDir S.root repo)}
  fits := Labelled S
  files_look p hp := ⟨hp.below.1, Or.inr hp.below.2⟩
  dirs_look p hp := by
    refine ⟨hp.1, ?_⟩
    have hdir : ∀ {q : Path}, repoDir S.root repo <:+ q → p <:+ q →
        p <:+ repoDir S.root repo ∨ repoDir S.root repo <:+ p := fun hq hpq =>
      List.suffix_or_suffix_of_suffix hpq hq
    rcases hp.2 with h | h
    · exact hdir (q := blobsDir S.root repo) ⟨[sha256Name, blobsName], rfl⟩ h
    · exact hdir (q := uploadsDir S.root repo) ⟨[uploadsName], rfl⟩ h
  look_suffix {p q} hp hq hne := by
    refine ⟨hne, ?_⟩
    rcases hp.2 with h | h
    · exact Or.inl (hq.trans h)
    · exact List.suffix_or_suffix_of_suffix hq h
  dirs_suffix hp hq hne := ⟨hne, hp.2.imp hq.trans hq.trans⟩

theorem mem_dirs_blobsDir : blobsDir S.root repo ∈ (footprint S repo).dirs :=
  ⟨List.cons_ne_nil _ _, Or.inl (List.suffix_refl _)⟩

theorem mem_dirs_uploadsDir : uploadsDir S.root repo ∈ (footprint S repo).dirs :=
  ⟨List.cons_ne_nil _ _, Or.inr (List.suffix_refl _)⟩

theorem mem_dirs_repoDir :
    repoDir S.root repo = [] ∨ repoDir S.root repo ∈ (footprint S repo).dirs := by
  by_cases h : repoDir S.root repo = []
  · exact Or.inl h
  · exact Or.inr ⟨h, Or.inr (List.suffix_cons _ _)⟩

/-- Files whose name does not end as that of a record fit with any contents. -/
theorem labelled_of_name {n : Name} (h : ¬ ".meta.json".toList <:+ n.val) (q : Path) (b : Bytes) :
    Labelled S (n :: q) b := by
  intro n' q' session m he hn _
  cases he
  exact absurd ⟨session, hn.symm⟩ h

theorem not_suffix_of_notMem {s : Str} {c : Char} {t : Str} (hc : c ∈ t) (h : c ∉ s) : ¬ t <:+ s :=
  fun hs => h (hs.subset hc)

theorem labelled_blobPath (d : Digest) (b : Bytes) : Labelled S (blobPath S.root repo d) b := by
  refine labelled_of_name (not_suffix_of_notMem (c := '.') (by decide) fun hc => ?_) _ b
  exact (ne_of_isLowerHex (d.hex.property.2 _ hc)).1 rfl

/-! ## Paths of sessions -/

/-- The session id is one that the server can have given out. -/
def Issued (S : Setup) (session : Str) : Prop := ∃ nanos, session = newSessionId nanos S.pid

theorem Issued.isLowerHex {session : Str} (h : Issued S session) {c : Char} (hc : c ∈ session) :
    isLowerHex c = true := by
  obtain ⟨nanos, hsession⟩ := h
  rw [hsession] at hc
  exact isLowerHex_of_mem_newSessionId hc

theorem Issued.validName {session : Str} (h : Issued S session) {t : Str} (ht : '/' ∉ t)
    (hlen : 2 < t.length) : ValidName (session ++ t) := by
  refine validName_of_length (by simp only [List.length_append]; omega) ?_
  simp only [List.mem_append, not_or]
  exact ⟨fun hc => (ne_of_isLowerHex (h.isLowerHex hc)).2.1 rfl, ht⟩

/-- A file of a session lies under `_uploads`, with the suffix as the end of its name. -/
theorem Issued.join_eq {session : Str} (h : Issued S session) {t : Str} (ht : '/' ∉ t)
    (hlen : 2 < t.length) (p : Path) :
    ∃ n : Name, n.val = session ++ t ∧ join p (session ++ t) = n :: p :=
  ⟨⟨_, h.validName ht hlen⟩, rfl, join_name p (h.validName ht hlen)⟩

theorem Issued.dataPath_mem {session : Str} (h : Issued S session) (repo : Str) :
    dataPath S.root repo session ∈ (footprint S repo).files := by
  obtain ⟨n, hn, he⟩ := h.join_eq (t := ".data".toList) (by decide) (by decide) (uploadsDir S.root repo)
  rw [dataPath, he]
  exact .upload n (Or.inl ⟨session, hn.symm⟩)

theorem Issued.metaPath_mem {session : Str} (h : Issued S session) (repo : Str) :
    metaPath S.root repo session ∈ (footprint S repo).files := by
  obtain ⟨n, hn, he⟩ := h.join_eq (t := ".meta.json".toList) (by decide) (by decide)
    (uploadsDir S.root repo)
  rw [metaPath, he]
  exact .upload n (Or.inr (Or.inl ⟨session, hn.symm⟩))

theorem Issued.metaTmpPath_mem {session : Str} (h : Issued S session) (repo : Str) :
    metaTmpPath S.root repo session ∈ (footprint S repo).files := by
  obtain ⟨n, hn, he⟩ := h.join_eq (t := ".meta.json.tmp".toList) (by decide) (by decide)
    (uploadsDir S.root repo)
  rw [metaTmpPath, he]
  exact .upload n (Or.inr (Or.inr (Or.inl ⟨session, hn.symm⟩)))

/-- Two suffixes of one name are suffixes of each other. -/
theorem not_suffix_of_suffix {s t u : Str} (ht : t <:+ s) (htu : ¬ t <:+ u) (hut : ¬ u <:+ t) :
    ¬ u <:+ s := by
  intro hu
  rcases List.suffix_or_suffix_of_suffix ht hu with h | h
  · exact htu h
  · exact hut h

theorem Issued.labelled_dataPath {session : Str} (h : Issued S session) (b : Bytes) :
    Labelled S (dataPath S.root repo session) b := by
  obtain ⟨n, hn, he⟩ := h.join_eq (t := ".data".toList) (by decide) (by decide) (uploadsDir S.root repo)
  rw [dataPath, he]
  exact labelled_of_name (not_suffix_of_suffix ⟨session, hn.symm⟩ (by decide) (by decide)) _ b

theorem Issued.labelled_metaTmpPath {session : Str} (h : Issued S session) (b : Bytes) :
    Labelled S (metaTmpPath S.root repo session) b := by
  obtain ⟨n, hn, he⟩ := h.join_eq (t := ".meta.json.tmp".toList) (by decide) (by decide)
    (uploadsDir S.root repo)
  rw [metaTmpPath, he]
  exact labelled_of_name (not_suffix_of_suffix ⟨session, hn.symm⟩ (by decide) (by decide)) _ b

/-- `serde_json` reads the session of a record back. -/
def SessionRoundtrip (S : Setup) : Prop :=
  ∀ m m', S.serde.uploadMetaFromSlice (S.serde.uploadMetaToVec m) = some m' → m'.session = m.session

theorem Issued.labelled_metaPath (hserde : SessionRoundtrip S) {m : UploadMeta}
    (h : Issued S m.session) :
    Labelled S (metaPath S.root repo m.session) (S.serde.uploadMetaToVec m) := by
  obtain ⟨n, hn, he⟩ := h.join_eq (t := ".meta.json".toList) (by decide) (by decide)
    (uploadsDir S.root repo)
  rw [metaPath, he]
  intro n' q session m' hpath hname hread
  cases hpath
  rw [hserde m m' hread]
  exact List.append_cancel_right (hn.symm.trans hname)

/-- The record of an issued session names that session. -/
theorem Issued.of_labelled {session : Str} (h : Issued S session) {b : Bytes} {m : UploadMeta}
    (hlabel : Labelled S (metaPath S.root repo session) b)
    (hread : S.serde.uploadMetaFromSlice b = some m) : m.session = session := by
  obtain ⟨n, hn, he⟩ := h.join_eq (t := ".meta.json".toList) (by decide) (by decide)
    (uploadsDir S.root repo)
  rw [metaPath, he] at hlabel
  exact hlabel n _ session m rfl hn hread

/-! ## Orderly worlds -/

/-- Session records are filed under their own session, sessions have the paths and ids that were
issued to them, and the cache has the paths of blobs. -/
structure Orderly (w : World S) : Prop where
  records : ∀ p b, w.fs.read p = some b → Labelled S p b
  cached : CachedPaths w
  sessions : ∀ repo session st, w.sessions.lookup (repo, session) = some st →
    st.dataPath = dataPath S.root repo session ∧ Issued S session

/-- The confinement of programs to the area of a repository. -/
def confinement (S : Setup) (repo : Str) : Confinement (World S) where
  inv := Orderly
  alike w w' := ∃ fs, w' = { w with fs := fs } ∧ (footprint S repo).confinement.alike w.fs fs
  change := (footprint S repo).confinement.change.along World.fs

/-- The program is confined to the area of the repository. -/
abbrev Within (S : Setup) (repo : Str) (m : Prog (World S) ε α) (Q : α → Prop) : Prop :=
  Confined (confinement S repo) m Q

/-- A program that works in memory and looks at no file. -/
theorem within_memory {m : Prog (World S) ε α} {Q : α → Prop} (hfs : ∀ w, (m.exec w).2.fs = w.fs)
    (hcommute : ∀ w fs, m.exec { w with fs := fs } = ((m.exec w).1, { (m.exec w).2 with fs := fs }))
    (horderly : ∀ w, Orderly w → CachedPaths (m.exec w).2 ∧ ∀ repo session st,
      (m.exec w).2.sessions.lookup (repo, session) = some st →
        st.dataPath = dataPath S.root repo session ∧ Issued S session)
    (hpost : ∀ w a, Orderly w → (m.exec w).1 = .ok a → Q a) : Within S repo m Q where
  inv {w} hw := by
    obtain ⟨hcached, hsessions⟩ := horderly w hw
    refine ⟨?_, hcached, hsessions⟩
    rw [hfs]
    exact hw.records
  change {w} _ := by
    show Area.Changes _ w.fs (m.exec w).2.fs
    rw [hfs]
    exact Area.Changes.refl _ _
  post hw he := hpost _ _ hw he
  alike {w w'} _ _ hlike := by
    obtain ⟨fs, rfl, hfs'⟩ := hlike
    have hend := hcommute w fs
    refine ⟨(congrArg Prod.fst hend).symm, fs, congrArg Prod.snd hend, ?_⟩
    rw [hfs]
    exact hfs'

/-- A program on the files whose outcome is noted in the log. -/
theorem within_lift {m : Prog Fs IoKind α} {lifted : Prog (World S) IoKind α} {Q : α → Prop}
    (hm : Confined (footprint S repo).confinement m Q) (note : Except IoKind α → Log → Log)
    (hexec : ∀ w, lifted.exec w = ((m.exec w.fs).1,
      { w with fs := (m.exec w.fs).2, log := note (m.exec w.fs).1 w.log })) :
    Within S repo lifted Q where
  inv {w} hw := by
    rw [hexec]
    exact ⟨hm.inv hw.records, hw.cached, hw.sessions⟩
  change {w} hw := by
    rw [hexec]
    exact hm.change hw.records
  post {w a} hw he := by
    rw [hexec] at he
    exact hm.post hw.records he
  alike {w w'} hw hw' hlike := by
    obtain ⟨fs, rfl, hfs⟩ := hlike
    obtain ⟨hout, hend⟩ := hm.alike hw.records hw'.records hfs
    rw [hexec, hexec]
    refine ⟨hout, (m.exec fs).2, ?_, hend⟩
    simp only [hout]

theorem within_onFs {m : Prog Fs IoKind α} {Q : α → Prop}
    (hm : Confined (footprint S repo).confinement m Q) : Within S repo (onFs m) Q := by
  refine within_lift hm (fun r log =>
    match r with
    | .ok _ => log
    | .error _ => { log with ioFailed := true }) fun w => ?_
  simp only [onFs, Prog.exec_ofFun]
  rcases m.exec w.fs with ⟨e | a, fs⟩ <;> rfl

theorem within_probeFs {m : Prog Fs IoKind α} {Q : α → Prop}
    (hm : Confined (footprint S repo).confinement m Q) : Within S repo (probeFs m) Q := by
  refine within_lift hm (fun r log =>
    match r with
    | .ok _ => log
    | .error e => { log with ioFailed := log.ioFailed || e = .other }) fun w => ?_
  simp only [probeFs, Prog.exec_ofFun]
  rcases m.exec w.fs with ⟨e | a, fs⟩ <;> rfl

/-- The program is confined to the area, whatever it returns. -/
abbrev Stays (S : Setup) (repo : Str) (m : Prog (World S) ε α) : Prop :=
  Within S repo m fun _ => True

theorem Stays.of_within {m : Prog (World S) ε α} {Q : α → Prop} (h : Within S repo m Q) :
    Stays S repo m := h.weaken fun _ _ => trivial

/-! ## Memory -/

theorem instantNow_stays : Stays S repo (instantNow : Prog (World S) ε Nat) :=
  within_memory (fun _ => rfl) (fun _ _ => rfl) (fun _ hw => ⟨hw.cached, hw.sessions⟩)
    fun _ _ _ _ => trivial

theorem wallNow_stays : Stays S repo (wallNow : Prog (World S) ε Nat) :=
  within_memory (fun _ => rfl) (fun _ _ => rfl) (fun _ hw => ⟨hw.cached, hw.sessions⟩)
    fun _ _ _ _ => trivial

theorem call_stays (c : UpstreamCall) : Stays S repo (call c : Prog (World S) ε Unit) :=
  within_memory (fun _ => rfl) (fun _ _ => rfl) (fun _ hw => ⟨hw.cached, hw.sessions⟩)
    fun _ _ _ _ => trivial

theorem recordStored_stays (b : Bytes) : Stays S repo (recordStored b : Prog (World S) ε Unit) :=
  within_memory (fun _ => rfl) (fun _ _ => rfl) (fun _ hw => ⟨hw.cached, hw.sessions⟩)
    fun _ _ _ _ => trivial

theorem setTags_stays (f : World S → LocalTags.TagMap) (hf : ∀ w fs, f { w with fs := fs } = f w) :
    Stays S repo (modify fun w => { w with localTags := f w } : Prog (World S) ε Unit) := by
  refine within_memory (fun _ => rfl) (fun w fs => ?_) (fun _ hw => ⟨hw.cached, hw.sessions⟩)
    fun _ _ _ _ => trivial
  simp only [Prog.exec_modify, hf]

theorem setUpstreamTags_stays (f : World S → AList fun _ : Str × Str => Digest × Nat)
    (hf : ∀ w fs, f { w with fs := fs } = f w) :
    Stays S repo (modify fun w => { w with upstreamTags := f w } : Prog (World S) ε Unit) := by
  refine within_memory (fun _ => rfl) (fun w fs => ?_) (fun _ hw => ⟨hw.cached, hw.sessions⟩)
    fun _ _ _ _ => trivial
  simp only [Prog.exec_modify, hf]

theorem cacheInsert_stays {d : Digest} {m : BlobMeta} (hm : m.path = blobPath S.root repo d) :
    Stays S repo (cacheInsert repo d m : Prog (World S) ε Unit) :=
  within_memory (fun _ => rfl) (fun _ _ => rfl)
    (fun w hw => ⟨(Looks.filled w hm).paths hw.cached, hw.sessions⟩) fun _ _ _ _ => trivial

theorem cacheInvalidate_stays (d : Digest) :
    Stays S repo (cacheInvalidate repo d : Prog (World S) ε Unit) := by
  refine within_memory (fun _ => rfl) (fun _ _ => rfl) (fun w hw => ⟨fun r e m hm => ?_, hw.sessions⟩)
    fun _ _ _ _ => trivial
  change (w.metaCache.erase (repo, d)).lookup (r, e) = some m at hm
  by_cases hkey : (r, e) = (repo, d)
  · rw [hkey, AList.lookup_erase] at hm
    cases hm
  · rw [AList.lookup_erase_ne hkey] at hm
    exact hw.cached r e m hm

theorem insertSession_stays {session : Str} {st : UploadState S.hash}
    (hpath : st.dataPath = dataPath S.root repo session) (hissued : Issued S session) :
    Stays S repo (modify fun w => { w with sessions := w.sessions.insert (repo, session) st } :
      Prog (World S) ε Unit) := by
  refine within_memory (fun _ => rfl) (fun _ _ => rfl) (fun w hw => ⟨hw.cached, fun r s st' hst => ?_⟩)
    fun _ _ _ _ => trivial
  change (w.sessions.insert (repo, session) st).lookup (r, s) = some st' at hst
  by_cases hkey : (r, s) = (repo, session)
  · cases hkey
    rw [AList.lookup_insert] at hst
    cases hst
    exact ⟨hpath, hissued⟩
  · rw [AList.lookup_insert_ne hkey] at hst
    exact hw.sessions r s st' hst

theorem eraseSession_stays (session : Str) :
    Stays S repo (modify fun w => { w with sessions := w.sessions.erase (repo, session) } :
      Prog (World S) ε Unit) := by
  refine within_memory (fun _ => rfl) (fun _ _ => rfl) (fun w hw => ⟨hw.cached, fun r s st' hst => ?_⟩)
    fun _ _ _ _ => trivial
  change (w.sessions.erase (repo, session)).lookup (r, s) = some st' at hst
  by_cases hkey : (r, s) = (repo, session)
  · rw [hkey, AList.lookup_erase] at hst
    cases hst
  · rw [AList.lookup_erase_ne hkey] at hst
    exact hw.sessions r s st' hst

/-- A look at the world that does not depend on its files. -/
theorem within_get {f : World S → Prog (World S) ε α} {Q : α → Prop}
    (hsame : ∀ w fs, f { w with fs := fs } = f w) (hf : ∀ w, Orderly w → Within S repo (f w) Q) :
    Within S repo (get >>= f) Q := by
  refine Confined.of_get (fun w w' hlike => ?_) hf
  obtain ⟨fs, rfl, -⟩ := hlike
  exact (hsame w fs).symm

/-! ## Steps on files -/

theorem createDirAll_stays {p : Path} (hp : p = [] ∨ p ∈ (footprint S repo).dirs) :
    Stays S repo (onFs (Fs.createDirAll p)) :=
  within_onFs (Area.createDirAll_confined hp)

/-- A blob is moved to its path. -/
theorem promote_stays {src : Path} (hsrc : src ∈ (footprint S repo).files) (d : Digest) :
    Stays S repo (promote src (blobPath S.root repo d)) := by
  refine Confined.of_get (fun w w' hlike => ?_) fun w _ => ?_
  · obtain ⟨fs, rfl, hfs⟩ := hlike
    have hread := Fs.read_congr (hfs src ((footprint S repo).files_look hsrc))
    simp only [hread]
  · refine (within_onFs (Area.rename_confined hsrc (.blob d) (labelled_blobPath d))).seq fun _ _ => ?_
    exact recordStored_stays _

/-! ## Blobs -/

/-- The metadata of a blob names its path. -/
def AtBlob (S : Setup) (repo : Str) (d : Digest) (r : Option BlobMeta) : Prop :=
  ∀ m, r = some m → m.path = blobPath S.root repo d

theorem cacheGet_within (d : Digest) :
    Within S repo (cacheGet repo d : Prog (World S) ε (Option BlobMeta)) (AtBlob S repo d) := by
  refine within_get (fun _ _ => rfl) fun w hw => ?_
  cases hlook : w.metaCache.lookup (repo, d) with
  | none => exact Confined.of_pure fun m hm => by cases hm
  | some entry =>
    refine instantNow_stays.seq fun now _ => Confined.of_pure fun m hm => ?_
    by_cases hfresh : now - entry.cachedAt < S.metaTtl
    · rw [if_pos hfresh] at hm
      cases hm
      exact hw.cached repo d entry hlook
    · rw [if_neg hfresh] at hm
      cases hm

theorem mem_look_blobPath (repo : Str) (d : Digest) : blobPath S.root repo d ∈ (footprint S repo).look :=
  (footprint S repo).files_look (.blob d)

theorem blobMeta_within (d : Digest) : Within S repo (blobMeta (S := S) repo d) (AtBlob S repo d) := by
  refine (cacheGet_within d).seq fun r hr => ?_
  cases r with
  | some m => exact Confined.of_pure hr
  | none =>
    have hmeta := within_probeFs (Area.metadata_confined (mem_look_blobPath (S := S) repo d))
    refine hmeta.of_attempt.seq fun r _ => ?_
    rcases r with (_ | _) | (_ | b)
    · exact Confined.of_pure fun m hm => by cases hm
    · exact Confined.of_throw _
    · exact Confined.of_pure fun m hm => by cases hm
    · refine instantNow_stays.seq fun now _ => (cacheInsert_stays rfl).seq fun _ _ => ?_
      exact Confined.of_pure fun m hm => by
        cases hm
        rfl

theorem readBlobToBytes_stays {m : BlobMeta} {d : Digest} (hm : m.path = blobPath S.root repo d) :
    Stays S repo (readBlobToBytes (S := S) m) := by
  unfold readBlobToBytes
  rw [hm]
  exact Stays.of_within ((within_onFs (Area.readFile_confined (mem_look_blobPath repo d))).of_mapError _)

theorem ensureRepo_stays : Stays S repo (ensureRepo (S := S) repo) := by
  refine Confined.of_mapError _ (within_onFs ?_)
  refine (Area.createDirAll_confined (Or.inr mem_dirs_blobsDir)).seq fun _ _ => ?_
  exact Area.createDirAll_confined (Or.inr mem_dirs_uploadsDir)

/-- After `ensure_repo` the directory of the blobs is there, unless a file is in the way. -/
theorem ensureRepo_isDir {w : World S}
    (hfree : ∀ q, q <:+ blobsDir S.root repo → w.fs.read q = none) {p : Path}
    (hp : p <:+ blobsDir S.root repo) : ((ensureRepo repo).exec w).2.fs.isDir p = true := by
  obtain ⟨fs₁, h₁⟩ := Fs.exec_createDirAll fun q hq _ => hfree q hq
  have hdir := Fs.createDirAll_isDir h₁ hp
  have hstep : (ensureRepoDirs S.root repo).exec w.fs = _ := Prog.exec_bind_ok h₁
  have hgrow := Fs.createDirAll_grows (uploadsDir S.root repo) fs₁
  simp only [ensureRepo, Prog.exec_mapError, onFs, Prog.exec_ofFun, hstep]
  rcases hrun : (Fs.createDirAll (uploadsDir S.root repo)).exec fs₁ with ⟨e | u, fs₂⟩
  all_goals
    rw [hrun] at hgrow
    exact Fs.growsDirs_isDir hgrow hdir

/-- A handler that starts with `ensure_repo` leaves the directories that lead to the blobs. -/
theorem isDir_of_ensures {k : Except StorageError Unit → Handler S} {w : World S}
    (hk : ∀ r, Stays S repo (k r)) (hw : Orderly w)
    (hfree : ∀ q, q <:+ blobsDir S.root repo → w.fs.read q = none) {p : Path}
    (hp : p <:+ blobsDir S.root repo) :
    (((ensureRepo repo).attempt >>= k).exec w).2.fs.isDir p = true := by
  have hdir := ensureRepo_isDir hfree hp
  have hw₁ : Orderly ((ensureRepo repo).exec w).2 := ensureRepo_stays.inv hw
  rw [Prog.exec_bind_ok (Prog.exec_attempt (ensureRepo repo) w)]
  exact ((hk _).change hw₁).dirs _ hdir

theorem mem_files_tmpName (k : Nat) : tmpName k :: uploadsDir S.root repo ∈ (footprint S repo).files :=
  .upload _ (Or.inr (Or.inr (Or.inr (Or.inl (List.prefix_append _ _)))))

theorem labelled_tmpName (k : Nat) (q : Path) (b : Bytes) : Labelled S (tmpName k :: q) b := by
  exact labelled_of_name (not_suffix_of_notMem (c := '.') (by decide) (dot_notMem_tmpName k)) q b

theorem putBlobBuffered_stays (d : Digest) (bytes : Bytes) :
    Stays S repo (putBlobBuffered (S := S) repo d bytes) := by
  refine Confined.of_ite (fun _ => Confined.of_throw _) fun _ => ?_
  refine ((createDirAll_stays (Or.inr mem_dirs_blobsDir)).of_mapError _).seq fun _ _ => ?_
  refine Confined.seq (P := fun tmp => ∃ k, tmp = tmpName k :: uploadsDir S.root repo)
    (wallNow_stays.seq fun nanos _ => Confined.of_pure ⟨_, rfl⟩) fun tmp htmp => ?_
  obtain ⟨k, rfl⟩ := htmp
  refine ((createDirAll_stays (Or.inr mem_dirs_uploadsDir)).of_mapError _).seq fun _ _ => ?_
  have hwrite := Area.writeAtomic_confined (A := footprint S repo) (b := bytes) (mem_files_tmpName k)
    (.blob d) (labelled_tmpName k _ _) (labelled_blobPath d _)
  refine ((within_onFs hwrite).of_mapError _).seq fun _ _ => ?_
  refine (recordStored_stays bytes).seq fun _ _ => instantNow_stays.seq fun now _ => ?_
  exact (cacheInsert_stays rfl).seq fun _ _ => Confined.of_pure trivial

theorem deleteBlob_stays (d : Digest) : Stays S repo (deleteBlob (S := S) repo d) := by
  have hremove := within_probeFs (Area.removeFile_confined (A := footprint S repo) (.blob d))
  refine hremove.of_attempt.seq fun r _ => ?_
  rcases r with (_ | _) | ⟨⟩
  · exact (cacheInvalidate_stays d).seq fun _ _ => Confined.of_throw _
  · exact Confined.of_throw _
  · exact cacheInvalidate_stays d

/-! ## Tags -/

theorem writeSidecar_stays (value : OnDiskTags) : Stays S repo (writeSidecar (S := S) repo value) := by
  refine ((createDirAll_stays mem_dirs_repoDir).of_mapError _).seq fun _ _ => ?_
  refine (within_onFs (Area.writeAtomic_confined (A := footprint S repo) .localTagsTmp .localTags
    ?_ ?_)).of_mapError _
  · exact labelled_of_name (by decide) _ _
  · exact labelled_of_name (by decide) _ _

theorem setTag_stays (tag : Str) (d : Digest) : Stays S repo (LocalTags.set (S := S) repo tag d) := by
  refine wallNow_stays.seq fun pushedAt _ => ?_
  refine (setTags_stays _ fun _ _ => rfl).seq fun _ _ => ?_
  exact within_get (fun _ _ => rfl) fun w _ => writeSidecar_stays _

theorem removeTag_stays (tag : Str) : Stays S repo (LocalTags.remove (S := S) repo tag) := by
  refine within_get (fun _ _ => rfl) fun w _ => ?_
  cases w.localTags.lookup (repo, tag) with
  | none => exact Confined.of_pure trivial
  | some m =>
    refine (setTags_stays _ fun _ _ => rfl).seq fun _ _ => ?_
    refine within_get (fun _ _ => rfl) fun w' _ => ?_
    exact (writeSidecar_stays _).seq fun _ _ => Confined.of_pure trivial

theorem removeTags_stays (tags : List Str) : Stays S repo (removeTags (S := S) repo tags) := by
  induction tags with
  | nil => exact Confined.of_pure trivial
  | cons tag tags ih => exact (removeTag_stays tag).of_attempt.seq fun _ _ => ih

theorem persistRepo_stays : Stays S repo (TagCache.persistRepo repo : Prog (World S) ε Unit) := by
  refine (createDirAll_stays mem_dirs_repoDir).of_attempt.seq fun _ _ => ?_
  refine within_get (fun _ _ => rfl) fun w _ => ?_
  refine (within_onFs (Area.writeAtomic_confined (A := footprint S repo) .upstreamTagsTmp
    .upstreamTags ?_ ?_)).of_attempt.seq fun _ _ => Confined.of_pure trivial
  · exact labelled_of_name (by decide) _ _
  · exact labelled_of_name (by decide) _ _

theorem cacheTag_stays (tag : Str) (d : Digest) :
    Stays S repo (TagCache.insert repo tag d : Prog (World S) ε Unit) := by
  refine instantNow_stays.seq fun now _ => ?_
  exact (setUpstreamTags_stays _ fun _ _ => rfl).seq fun _ _ => persistRepo_stays

theorem touch_stays (tag : Str) : Stays S repo (TagCache.touch repo tag : Prog (World S) ε Unit) := by
  refine within_get (fun _ _ => rfl) fun w _ => ?_
  cases w.upstreamTags.lookup (repo, tag) with
  | none => exact Confined.of_pure trivial
  | some entry =>
    refine instantNow_stays.seq fun now _ => ?_
    exact setUpstreamTags_stays _ fun _ _ => rfl

theorem lookupTag_stays (tag : Str) :
    Stays S repo (TagCache.lookup repo tag : Prog (World S) ε TagCache.TagCacheState) := by
  refine within_get (fun _ _ => rfl) fun w _ => ?_
  cases w.upstreamTags.lookup (repo, tag) with
  | none => exact Confined.of_pure trivial
  | some entry => exact instantNow_stays.seq fun now _ => Confined.of_pure trivial

/-! ## Uploads -/

section Uploads

variable (hserde : SessionRoundtrip S)

include hserde

theorem writeMeta_stays {m : UploadMeta} (h : Issued S m.session) :
    Stays S repo (writeMeta (S := S) repo m) :=
  (within_onFs (Area.writeAtomic_confined (A := footprint S repo) (h.metaTmpPath_mem repo)
    (h.metaPath_mem repo) (h.labelled_metaTmpPath _) (h.labelled_metaPath hserde))).of_mapError _

theorem writeMetaFor_stays {session : Str} (h : Issued S session) (bytesReceived : Nat) :
    Stays S repo (writeMetaFor (S := S) repo session bytesReceived) := by
  have hread := within_probeFs (Area.readFile_confined (A := footprint S repo)
    ((footprint S repo).files_look (h.metaPath_mem repo)))
  refine hread.of_attempt.seq fun r hr => ?_
  rcases r with (_ | _) | b
  · exact Confined.of_pure trivial
  · exact Confined.of_throw _
  · simp only
    cases hm : S.serde.uploadMetaFromSlice b with
    | none => exact Confined.of_throw _
    | some m =>
      have hsession : m.session = session := h.of_labelled (hr b rfl) hm
      refine wallNow_stays.seq fun now _ => writeMeta_stays hserde ?_
      show Issued S m.session
      rw [hsession]
      exact h

theorem createSession_stays : Stays S repo (createSession (S := S) repo) := by
  refine wallNow_stays.seq fun nanos _ => ?_
  have hissued : Issued S (newSessionId nanos S.pid) := ⟨nanos, rfl⟩
  simp only
  generalize newSessionId nanos S.pid = session at hissued ⊢
  refine ((createDirAll_stays (Or.inr mem_dirs_uploadsDir)).of_mapError _).seq fun _ _ => ?_
  have hwrite := Area.writeFile_confined (A := footprint S repo) (b := []) (hissued.dataPath_mem repo)
    (hissued.labelled_dataPath _)
  refine ((within_onFs hwrite).of_mapError _).seq fun _ _ => wallNow_stays.seq fun now _ => ?_
  refine (writeMeta_stays hserde hissued).seq fun _ _ => ?_
  exact (insertSession_stays rfl hissued).seq fun _ _ => Confined.of_pure trivial

theorem append_stays (session : Str) (chunk : Bytes) :
    Stays S repo (append (S := S) repo session chunk) := by
  refine within_get (fun _ _ => rfl) fun w hw => ?_
  cases hlook : w.sessions.lookup (repo, session) with
  | none => exact Confined.of_throw _
  | some st =>
    obtain ⟨hpath, hissued⟩ := hw.sessions repo session st hlook
    refine Confined.of_ite (fun _ => Confined.of_throw _) fun _ => ?_
    have happend := Area.appendFile_confined (A := footprint S repo) (b := chunk)
      (hissued.dataPath_mem repo) fun c => hissued.labelled_dataPath _
    rw [← hpath] at happend
    refine ((within_onFs happend).of_mapError _).seq fun _ _ => wallNow_stays.seq fun now _ => ?_
    have hfed : (UploadState.fed st chunk now).dataPath = dataPath S.root repo session := hpath
    refine (insertSession_stays hfed hissued).seq fun _ _ => ?_
    exact (writeMetaFor_stays hserde hissued _).of_attempt.seq fun _ _ => Confined.of_pure trivial

end Uploads

theorem commit_stays (session : Str) (expected : Digest) :
    Stays S repo (commit (S := S) repo session expected) := by
  refine within_get (fun _ _ => rfl) fun w hw => ?_
  cases hlook : w.sessions.lookup (repo, session) with
  | none => exact Confined.of_throw _
  | some st =>
    obtain ⟨hpath, hissued⟩ := hw.sessions repo session st hlook
    refine Confined.of_ite (fun _ => Confined.of_throw _) fun _ => ?_
    refine Confined.of_ite (fun _ => Confined.of_throw _) fun _ => ?_
    refine ((createDirAll_stays (Or.inr mem_dirs_blobsDir)).of_mapError _).seq fun _ _ => ?_
    have hdata : st.dataPath ∈ (footprint S repo).files := by
      rw [hpath]
      exact hissued.dataPath_mem repo
    refine ((promote_stays hdata expected).of_mapError _).seq fun _ _ => ?_
    have hremove := within_probeFs (Area.removeFile_confined (A := footprint S repo)
      (hissued.metaPath_mem repo))
    refine hremove.of_attempt.seq fun _ _ => ?_
    exact (eraseSession_stays session).seq fun _ _ => Confined.of_pure trivial

theorem finalize_stays (hserde : SessionRoundtrip S) (session : Str) (lastChunk : Option Bytes)
    (expected : Digest) : Stays S repo (finalize (S := S) repo session lastChunk expected) := by
  unfold finalize
  cases lastChunk with
  | none => exact commit_stays session expected
  | some chunk =>
    refine Confined.of_ite (fun _ => commit_stays session expected) fun _ => ?_
    exact (append_stays hserde session chunk).seq fun _ _ => commit_stays session expected

/-! ## Fetches -/

theorem mem_files_tempfilePath (d : Digest) :
    PullThrough.tempfilePath S.root repo d ∈ (footprint S repo).files :=
  .upload _ (Or.inr (Or.inr (Or.inr (Or.inr (List.prefix_append _ _)))))

theorem labelled_tempName (d : Digest) (q : Path) (b : Bytes) : Labelled S (tempName d :: q) b := by
  refine labelled_of_name (not_suffix_of_notMem (c := '.') (by decide) fun hc => ?_) q b
  rcases List.mem_append.mp hc with hc | hc
  · revert hc
    decide
  · exact (ne_of_isLowerHex (d.hex.property.2 _ hc)).1 rfl

theorem receive_stays (d : Digest) (stream : List (Option Bytes)) (hasher : S.hash.State)
    (total : Nat) :
    Stays S repo (receive (PullThrough.tempfilePath S.root repo d) stream hasher total) := by
  induction stream generalizing hasher total with
  | nil => exact Confined.of_pure trivial
  | cons chunk stream ih =>
    cases chunk with
    | none => exact Confined.of_throw _
    | some chunk =>
      have happend := Area.appendFile_confined (A := footprint S repo) (b := chunk)
        (mem_files_tempfilePath d) fun c => labelled_tempName d _ _
      exact ((within_onFs happend).of_mapError _).seq fun _ _ => ih _ _

theorem produce_stays (d : Digest) (stream : List (Option Bytes)) :
    Stays S repo (produce (S := S) d (PullThrough.tempfilePath S.root repo d)
      (blobPath S.root repo d) stream) := by
  refine (receive_stays d stream S.hash.new 0).seq fun r _ => ?_
  obtain ⟨hasher, total⟩ := r
  refine Confined.of_ite (fun _ => Confined.of_throw _) fun _ => ?_
  refine ((createDirAll_stays (Or.inr mem_dirs_blobsDir)).of_mapError _).seq fun _ _ => ?_
  refine ((promote_stays (mem_files_tempfilePath d) d).of_mapError _).seq fun _ _ => ?_
  exact Confined.of_pure trivial

theorem runProducer_stays (d : Digest) (stream : List (Option Bytes)) :
    Stays S repo (runProducer (S := S) d (PullThrough.tempfilePath S.root repo d)
      (blobPath S.root repo d) stream) := by
  refine ((createDirAll_stays (Or.inr mem_dirs_uploadsDir)).of_mapError _).seq fun _ _ => ?_
  have hwrite := Area.writeFile_confined (A := footprint S repo) (b := []) (mem_files_tempfilePath d)
    (labelled_tempName d _ _)
  refine ((within_onFs hwrite).of_mapError _).seq fun _ _ => ?_
  refine (produce_stays d stream).of_attempt.seq fun r _ => ?_
  cases r with
  | ok total => exact Confined.of_pure trivial
  | error e =>
    have hremove := within_probeFs (Area.removeFile_confined (A := footprint S repo)
      (mem_files_tempfilePath d))
    exact hremove.of_attempt.seq fun _ _ => Confined.of_throw _

theorem fetchBlob_stays (d : Digest) (reply : Option (List (Option Bytes))) :
    Stays S repo (fetchBlob (S := S) repo d reply) := by
  refine (call_stays _).seq fun _ _ => ?_
  cases reply with
  | none => exact Confined.of_throw _
  | some stream =>
    refine (runProducer_stays d stream).seq fun total _ => instantNow_stays.seq fun now _ => ?_
    exact (cacheInsert_stays rfl).seq fun _ _ => Confined.of_pure trivial

/-! ## Pulls -/

theorem build_stays (status : Status) (headers : List (HeaderName × Str)) (body : Body) :
    Stays S repo (build status headers body : Handler S) :=
  Confined.of_ite (fun _ => Confined.of_pure trivial) fun _ => Confined.of_throw _

theorem serveLocalBlob_stays {m : BlobMeta} {d : Digest} (hm : m.path = blobPath S.root repo d)
    (withBody : Bool) : Stays S repo (serveLocalBlob m d withBody : Handler S) := by
  unfold serveLocalBlob
  refine Confined.of_ite (fun _ => ?_) fun _ => build_stays _ _ _
  refine (readBlobToBytes_stays hm).of_attempt.seq fun r _ => ?_
  cases r with
  | error e => exact Confined.of_pure trivial
  | ok b => exact build_stays _ _ _

theorem serveBlobViaPullthrough_stays (d : Digest) (withBody : Bool)
    (reply : Option (List (Option Bytes))) :
    Stays S repo (serveBlobViaPullthrough repo d withBody reply : Handler S) := by
  refine (fetchBlob_stays d reply).of_attempt.seq fun r _ => ?_
  cases r with
  | ok n => exact Confined.of_ite (fun _ => build_stays _ _ _) fun _ => build_stays _ _ _
  | error e => exact Confined.of_ite (fun _ => build_stays _ _ _) fun _ => Confined.of_pure trivial

theorem getBlob_stays (digest : Str) (withBody : Bool) (up : Replies) :
    Stays S repo (getBlob repo digest withBody up : Handler S) := by
  unfold getBlob
  cases Digest.parse digest with
  | error e => exact Confined.of_pure trivial
  | ok d =>
    refine (blobMeta_within d).of_attempt.seq fun r hr => ?_
    rcases r with e | _ | m
    · exact Confined.of_pure trivial
    · simp only
      cases S.route repo with
      | none => exact Confined.of_pure trivial
      | some p => exact serveBlobViaPullthrough_stays d withBody up.streamBlob
    · exact serveLocalBlob_stays (hr _ rfl m rfl) withBody

theorem serveLocalManifest_stays (d : Digest) (reference : Str) (withBody : Bool) :
    Stays S repo (serveLocalManifest repo d reference withBody : Handler S) := by
  refine (blobMeta_within d).of_attempt.seq fun r hr => ?_
  rcases r with e | _ | m
  · exact Confined.of_pure trivial
  · exact Confined.of_pure trivial
  · refine (readBlobToBytes_stays (hr _ rfl m rfl)).of_attempt.seq fun r _ => ?_
    cases r with
    | error e => exact Confined.of_pure trivial
    | ok b => exact build_stays _ _ _

theorem fetchAndServeUpstreamManifest_stays (reference : Str) (withBody : Bool)
    (reply : Option ManifestResponse) :
    Stays S repo (fetchAndServeUpstreamManifest repo reference withBody reply : Handler S) := by
  refine (call_stays _).seq fun _ _ => ?_
  cases reply with
  | none => exact Confined.of_pure trivial
  | some resp =>
    refine (putBlobBuffered_stays resp.digest resp.bytes).of_attempt.seq fun _ _ => ?_
    simp only
    cases Digest.parse reference with
    | error e => exact (cacheTag_stays reference resp.digest).seq fun _ _ => build_stays _ _ _
    | ok d => exact build_stays _ _ _

theorem fetchManifestOrUnknown_stays (reference : Str) (withBody : Bool) (up : Replies) :
    Stays S repo (fetchManifestOrUnknown repo reference withBody up : Handler S) := by
  unfold fetchManifestOrUnknown
  cases S.route repo with
  | none => exact Confined.of_pure trivial
  | some p => exact fetchAndServeUpstreamManifest_stays reference withBody up.getManifest

theorem serveIfPresent_stays (d : Digest) (reference : Str) (withBody : Bool)
    {otherwise : Handler S} (ho : Stays S repo otherwise) :
    Stays S repo (serveIfPresent repo d reference withBody otherwise : Handler S) := by
  refine (blobMeta_within d).of_attempt.seq fun r _ => ?_
  rcases r with e | _ | m
  · exact ho
  · exact ho
  · exact serveLocalManifest_stays d reference withBody

theorem getManifestByTag_stays (reference : Str) (withBody : Bool) (up : Replies) :
    Stays S repo (getManifestByTag repo reference withBody up : Handler S) := by
  have hfetch : Stays S repo (fetchManifestOrUnknown repo reference withBody up : Handler S) :=
    fetchManifestOrUnknown_stays reference withBody up
  refine (lookupTag_stays reference).seq fun state _ => ?_
  cases state with
  | miss => exact hfetch
  | fresh d => exact serveIfPresent_stays d reference withBody hfetch
  | stale d =>
    cases S.route repo with
    | none => exact serveIfPresent_stays d reference withBody hfetch
    | some p =>
      refine (call_stays _).seq fun _ _ => ?_
      cases up.resolveTag with
      | none => exact serveIfPresent_stays d reference withBody hfetch
      | some d' =>
        refine Confined.of_ite (fun _ => ?_) fun _ => hfetch
        exact (touch_stays reference).seq
          fun _ _ => serveIfPresent_stays d reference withBody hfetch

theorem getManifest_stays (reference : Str) (withBody : Bool) (up : Replies) :
    Stays S repo (getManifest repo reference withBody up : Handler S) := by
  unfold getManifest
  cases Digest.parse reference with
  | ok d =>
    refine (blobMeta_within d).of_attempt.seq fun r _ => ?_
    rcases r with e | _ | m
    · exact Confined.of_pure trivial
    · exact fetchManifestOrUnknown_stays reference withBody up
    · exact serveLocalManifest_stays d reference withBody
  | error e =>
    refine within_get (fun _ _ => rfl) fun w _ => ?_
    cases w.localTags.lookup (repo, reference) with
    | none => exact getManifestByTag_stays reference withBody up
    | some tag =>
      simp only
      cases Digest.parse tag.digest with
      | ok d => exact serveLocalManifest_stays d reference withBody
      | error e => exact getManifestByTag_stays reference withBody up

theorem listTags_stays (up : Replies) : Stays S repo (listTags repo up : Handler S) := by
  refine within_get (fun _ _ => rfl) fun w _ => ?_
  refine Confined.of_ite (fun _ => ?_) fun _ => Confined.of_pure trivial
  cases S.route repo with
  | none => exact Confined.of_pure trivial
  | some p => exact (call_stays _).seq fun _ _ => Confined.of_pure trivial

/-! ## Pushes and deletions -/

theorem firstMissing_stays (texts : List Str) :
    Stays S repo (firstMissing (S := S) repo texts) := by
  induction texts with
  | nil => exact Confined.of_pure trivial
  | cons text texts ih =>
    unfold firstMissing
    cases Digest.parse text with
    | error e => exact Confined.of_pure trivial
    | ok d =>
      refine (blobMeta_within d).of_attempt.seq fun r _ => ?_
      rcases r with e | _ | m
      · exact Confined.of_pure trivial
      · exact Confined.of_pure trivial
      · exact ih

theorem checkManifestBlobsPresent_stays (bytes : Bytes) :
    Stays S repo (checkManifestBlobsPresent (S := S) repo bytes) := by
  unfold checkManifestBlobsPresent
  cases S.serde.fromSlice bytes with
  | none => exact Confined.of_pure trivial
  | some v => exact firstMissing_stays _

theorem storeManifest_stays (reference : Str) (contentType : Option Str) (bytes : Bytes) :
    Stays S repo (storeManifest repo reference contentType bytes : Handler S) := by
  refine (putBlobBuffered_stays _ bytes).of_attempt.seq fun r _ => ?_
  cases r with
  | error e => exact Confined.of_pure trivial
  | ok m =>
    simp only
    cases Digest.parse reference with
    | ok d => exact build_stays _ _ _
    | error e =>
      refine (setTag_stays reference _).of_attempt.seq fun r _ => ?_
      cases r with
      | error e => exact Confined.of_pure trivial
      | ok u => exact build_stays _ _ _

/-- `put_manifest` creates the directories of the repository and stays in its area then. -/
theorem putManifest_ensures (reference : Str) (contentType : Option Str) (body : Option Bytes) :
    ∃ k, (putManifest repo reference contentType body : Handler S) =
      (ensureRepo repo).attempt >>= k ∧ ∀ r, Stays S repo (k r) := by
  refine ⟨_, rfl, fun r => ?_⟩
  cases r with
  | error e => exact Confined.of_pure trivial
  | ok u =>
    simp only
    cases collectBody body 33554432 with
    | error resp => exact Confined.of_pure trivial
    | ok bytes =>
      simp only
      cases (Digest.parse reference).toOption.filter (· ≠ S.digest bytes) with
      | some other => exact Confined.of_pure trivial
      | none =>
        refine (checkManifestBlobsPresent_stays bytes).seq fun r _ => ?_
        cases r with
        | some missing => exact Confined.of_pure trivial
        | none => exact storeManifest_stays reference contentType bytes

theorem putManifest_stays (reference : Str) (contentType : Option Str) (body : Option Bytes) :
    Stays S repo (putManifest repo reference contentType body : Handler S) := by
  obtain ⟨k, he, hk⟩ := putManifest_ensures (S := S) reference contentType body
  rw [he]
  exact ensureRepo_stays.of_attempt.seq fun r _ => hk r

theorem deleteBlobRoute_stays (digest : Str) :
    Stays S repo (deleteBlobRoute repo digest : Handler S) := by
  unfold deleteBlobRoute
  cases Digest.parse digest with
  | error e => exact Confined.of_pure trivial
  | ok d =>
    refine (deleteBlob_stays d).of_attempt.seq fun r _ => ?_
    rcases r with (_ | _ | _) | u <;> exact Confined.of_pure trivial

theorem deleteManifest_stays (reference : Str) :
    Stays S repo (deleteManifest repo reference : Handler S) := by
  unfold deleteManifest
  cases Digest.parse reference with
  | error e =>
    refine (removeTag_stays reference).of_attempt.seq fun r _ => ?_
    rcases r with e | _ | _ <;> exact Confined.of_pure trivial
  | ok d =>
    refine within_get (fun _ _ => rfl) fun w _ => (removeTags_stays _).seq fun _ _ => ?_
    refine (deleteBlob_stays d).of_attempt.seq fun r _ => ?_
    rcases r with (_ | _ | _) | u <;> exact Confined.of_pure trivial

/-! ## Requests -/

theorem exec_catalog (w : World S) : ((catalog : Handler S).exec w).2 = w := by
  unfold catalog
  rw [Prog.exec_bind_ok (Prog.exec_get w)]
  simp only
  cases listRepos S.root w.fs with
  | error e => rfl
  | ok repos => rfl

section Requests

variable (hserde : SessionRoundtrip S)

include hserde

/-- `upload_init` creates the directories of the repository and stays in its area then. -/
theorem uploadInit_ensures : ∃ k, (uploadInit repo : Handler S) = (ensureRepo repo).attempt >>= k ∧
    ∀ r, Stays S repo (k r) := by
  refine ⟨_, rfl, fun r => ?_⟩
  cases r with
  | error e => exact Confined.of_pure trivial
  | ok u =>
    refine (createSession_stays hserde).of_attempt.seq fun r _ => ?_
    cases r with
    | error e => exact Confined.of_pure trivial
    | ok session => exact build_stays _ _ _

theorem uploadInit_stays : Stays S repo (uploadInit repo : Handler S) := by
  obtain ⟨k, he, hk⟩ := uploadInit_ensures hserde
  rw [he]
  exact ensureRepo_stays.of_attempt.seq fun r _ => hk r

theorem uploadPatch_stays (session : Str) (body : Option Bytes) :
    Stays S repo (uploadPatch repo session body : Handler S) := by
  unfold uploadPatch
  cases collectBody body maxUpload with
  | error resp => exact Confined.of_pure trivial
  | ok bytes =>
    refine (append_stays hserde session bytes).of_attempt.seq fun r _ => ?_
    rcases r with (_ | _ | _ | _) | total <;>
      first | exact Confined.of_pure trivial | exact build_stays _ _ _

theorem uploadPut_stays (session : Str) (digestQuery : Option Str) (body : Option Bytes) :
    Stays S repo (uploadPut repo session digestQuery body : Handler S) := by
  unfold uploadPut
  cases digestQuery with
  | none => exact Confined.of_pure trivial
  | some text =>
    simp only
    cases Digest.parse text with
    | error e => exact Confined.of_pure trivial
    | ok d =>
      simp only
      cases collectBody body maxUpload with
      | error resp => exact Confined.of_pure trivial
      | ok bytes =>
        refine (finalize_stays hserde session _ d).of_attempt.seq fun r _ => ?_
        rcases r with (_ | _ | _ | _) | total <;>
          first | exact Confined.of_pure trivial | exact build_stays _ _ _

theorem route_stays (req : Request) (action : Action) :
    Stays S repo (route req repo action : Handler S) := by
  have hun : Stays S repo (route.unsupported : Handler S) := Confined.of_pure trivial
  cases action with
  | blob d =>
    cases hm : req.method with
    | get => simpa only [route, hm] using getBlob_stays d true req.upstream
    | head => simpa only [route, hm] using getBlob_stays d false req.upstream
    | delete => simpa only [route, hm] using deleteBlobRoute_stays d
    | _ => simpa only [route, hm] using hun
  | manifest r =>
    cases hm : req.method with
    | get => simpa only [route, hm] using (getManifest_stays r true req.upstream).of_map _
    | head => simpa only [route, hm] using (getManifest_stays r false req.upstream).of_map _
    | put => simpa only [route, hm] using putManifest_stays r req.contentType req.body
    | delete => simpa only [route, hm] using deleteManifest_stays r
    | _ => simpa only [route, hm] using hun
  | tagsList => exact Confined.of_ite (fun _ => listTags_stays req.upstream) fun _ => hun
  | uploadInit => exact Confined.of_ite (fun _ => uploadInit_stays hserde) fun _ => hun
  | uploadSession s =>
    cases hm : req.method with
    | patch => simpa only [route, hm] using uploadPatch_stays hserde s req.body
    | put => simpa only [route, hm] using uploadPut_stays hserde s req.digestQuery req.body
    | _ => simpa only [route, hm] using hun
  | unknown => exact hun

/-- A request is confined to the footprint of its repository; only the catalog looks further. -/
theorem dispatch_stays (req : Request) (hcatalog : req.rest ≠ "_catalog".toList) :
    Stays S (split req.rest).1 (dispatch req : Handler S) := by
  unfold dispatch
  rw [if_neg hcatalog]
  exact Confined.of_ite (fun _ => Confined.of_pure trivial) fun _ => route_stays hserde req _

/-- A request leaves an orderly world, and directories stay. -/
theorem Orderly.serve {w : World S} (hw : Orderly w) (req : Request) :
    Orderly ((dispatch req : Handler S).exec w).2 ∧ ∀ p, w.fs.isDir p = true →
      ((dispatch req : Handler S).exec w).2.fs.isDir p = true := by
  by_cases hcatalog : req.rest = "_catalog".toList
  · have hsame : ((dispatch req : Handler S).exec w).2 = w := by
      unfold dispatch
      rw [if_pos hcatalog]
      exact exec_catalog w
    rw [hsame]
    exact ⟨hw, fun _ h => h⟩
  · have hstays := dispatch_stays hserde req hcatalog
    exact ⟨hstays.inv hw, (hstays.change hw).dirs⟩

end Requests

theorem orderly_start (S : Setup) (ticks wall : List Nat) : Orderly (World.start S ticks wall) := by
  refine ⟨fun p b hb => ?_, fun r d m hm => ?_, fun r s st hst => ?_⟩
  · have hnone : (World.start S ticks wall).fs.read p = none := read_emptyRoot _ _
    rw [hnone] at hb
    cases hb
  · cases hm
  · cases hst

end Quill.Registry
