import Quill.Registry.Completeness
import Quill.Registry.ContentTypes
import Quill.Storage.Codec

/-!
# Pushed manifests

`put_manifest` checks everything before it writes: a reference that is a digest has to be the digest
of the body, and every text at `config.digest` and `layers[*].digest` has to be the digest of a
file of the repository (`Valid`). The check goes through the metadata cache, which stands for
the files in every state of a run (`CacheTrue`), so it decides `Valid` exactly
(`exec_checkManifestBlobsPresent_agrees`). A push that is refused has only created directories and
filled the cache (`Unchanged`); one that is carried out has written the manifest and, for a tag, the
one entry (`Carried`).

A push that is carried out is not always answered: the repository name goes into `Location`, and a
control character in it makes the response builder panic after the manifest and the tag
were stored (`put_manifest_is_exact_iff`).
-/

namespace Quill.Registry.ManifestPuts

open Text Files Cas World LocalStorage Uploads LocalTags ContentTypes

variable {S : Setup} {repo reference : Str}

/-! ## Valid pushes -/

/-- The text stands at `config.digest` or at `layers[*].digest` of the body read as JSON. -/
def Requires (S : Setup) (b : Bytes) (text : Str) : Prop :=
  ∃ v, S.serde.fromSlice b = some v ∧
    ((∃ config, v.get "config".toList = some config ∧
        config.get "digest".toList = some (.str text)) ∨
      ∃ layers layer, v.get "layers".toList = some (.arr layers) ∧ layer ∈ layers ∧
        layer.get "digest".toList = some (.str text))

/-- The code collects exactly these texts. -/
theorem mem_requiredTexts {b : Bytes} {text : Str} : text ∈ requiredTexts S b ↔ Requires S b text := by
  unfold requiredTexts Requires
  cases S.serde.fromSlice b with
  | none => simp
  | some v =>
    simp only [Manifest.requiredBlobs, List.mem_append, Option.mem_toList, Manifest.configDigest_eq_some,
      Manifest.mem_arrayDigests, Option.some.injEq, exists_eq_left']

/-- The text is the digest of a file of the repository. -/
def Present (w : World S) (repo text : Str) : Prop :=
  ∃ d, Digest.parse text = .ok d ∧ w.fs.isFile (blobPath S.root repo d) = true

/-- The reference fits the body, and all that the body requires is there. -/
structure Valid (w : World S) (repo reference : Str) (b : Bytes) : Prop where
  digest : ∀ d, Digest.parse reference = .ok d → d = S.digest b
  blobs : ∀ text, Requires S b text → Present w repo text

/-! ## What a push changes -/

/-- The temporary file of a blob or of a sidecar. -/
def Temporary (p : Path) : Prop := ∃ q, (∃ k, p = tmpName k :: q) ∨ p = localTagsTmpName :: q

theorem Temporary.scratch {p : Path} (h : Temporary p) : Scratch p := by
  obtain ⟨q, ⟨k, rfl⟩ | rfl⟩ := h
  · exact scratch_tmpName k q
  · exact scratch_localTagsTmp q

/-- No file and none of the maps of tags and sessions has changed. -/
structure Unchanged (w w' : World S) : Prop where
  files : ∀ p, w'.fs.read p = w.fs.read p
  localTags : w'.localTags = w.localTags
  upstreamTags : w'.upstreamTags = w.upstreamTags
  sessions : w'.sessions = w.sessions

/-- No file has changed but those in `touched` and temporary files, which are gone. -/
structure Leaves (touched : Set Path) (w w' : World S) : Prop where
  files : ∀ p ∉ touched, w'.fs.read p = w.fs.read p ∨ (Temporary p ∧ w'.fs.read p = none)
  upstreamTags : w'.upstreamTags = w.upstreamTags
  sessions : w'.sessions = w.sessions

theorem Unchanged.leaves {w w' : World S} (h : Unchanged w w') (touched : Set Path) : Leaves touched w w' :=
  ⟨fun p _ => Or.inl (h.files p), h.upstreamTags, h.sessions⟩

theorem Unchanged.trans {w w' w'' : World S} (h : Unchanged w w') (g : Unchanged w' w'') :
    Unchanged w w'' :=
  ⟨fun p => (g.files p).trans (h.files p), g.localTags.trans h.localTags,
    g.upstreamTags.trans h.upstreamTags, g.sessions.trans h.sessions⟩

namespace Leaves

variable {touched touched' : Set Path} {w w' w'' : World S}

theorem mono (h : Leaves touched w w') (hsub : touched ⊆ touched') : Leaves touched' w w' :=
  ⟨fun p hp => h.files p fun hmem => hp (hsub hmem), h.upstreamTags, h.sessions⟩

theorem trans (h : Leaves touched w w') (g : Leaves touched w' w'') : Leaves touched w w'' := by
  refine ⟨fun p hp => ?_, g.upstreamTags.trans h.upstreamTags, g.sessions.trans h.sessions⟩
  rcases g.files p hp with hg | hg
  · rw [hg]
    exact h.files p hp
  · exact Or.inr hg

/-- A file that is not temporary. -/
theorem read (h : Leaves touched w w') {p : Path} (hp : p ∉ touched) (hkept : ¬ Scratch p) :
    w'.fs.read p = w.fs.read p :=
  (h.files p hp).resolve_right fun ht => hkept ht.1.scratch

end Leaves

/-- The entry of a tag in the sidecar of its repository. -/
def diskTag (S : Setup) (fs : Fs) (repo tag : Str) : Option LocalTagMeta :=
  ((fs.read (localTagsPath S.root repo)).bind S.serde.tagsFromStr).bind fun m => m.lookup tag

/-- What a push that is carried out changes: the manifest and, for a tag, its entry in memory and in the
sidecar. -/
structure Carried (w : World S) (repo reference : Str) (b : Bytes) (w' : World S) : Prop where
  manifest : w'.fs.read (blobPath S.root repo (S.digest b)) = some b
  leaves : Leaves ({blobPath S.root repo (S.digest b)} ∪
    {p | IsTag reference ∧ p = localTagsPath S.root repo}) w w'
  untagged : ¬ IsTag reference → w'.localTags = w.localTags
  tagged : IsTag reference → ∃ pushedAt,
    w'.localTags = w.localTags.insert (repo, reference) ⟨(S.digest b).toStr, pushedAt⟩ ∧
      diskTag S w'.fs repo reference = some ⟨(S.digest b).toStr, pushedAt⟩ ∧
      ∀ tag, tag ≠ reference → diskTag S w'.fs repo tag = diskTag S w.fs repo tag

/-! ## The check -/

section Check

variable {w : World S}

theorem Peeks.unchanged {w' : World S} (h : Peeks w w') : Unchanged w w' :=
  ⟨fun p => by rw [h.fs], h.localTags, h.tags, h.sessions⟩

/-- The loop finds nothing missing exactly when every text is present. -/
theorem exec_firstMissing_agrees (texts : List Str) (hw : CacheAgrees w) :
    ∃ r w', (firstMissing repo texts).exec w = (.ok r, w') ∧ Peeks w w' ∧
      (r = none ↔ ∀ text ∈ texts, Present w repo text) := by
  induction texts generalizing w with
  | nil => exact ⟨none, w, rfl, .refl w, by simp⟩
  | cons text texts ih =>
    unfold firstMissing
    cases hd : Digest.parse text with
    | error e =>
      refine ⟨some text, w, rfl, .refl w, by simp, fun hall => ?_⟩
      obtain ⟨d, hd', -⟩ := hall text List.mem_cons_self
      cases hd.symm.trans hd'
    | ok d =>
      obtain ⟨r, w₁, hmeta, hpeeks, hcases⟩ := exec_blobMeta_agrees hw repo d
      simp only
      rw [Prog.exec_bind_ok (Prog.exec_attempt_eq.mpr hmeta)]
      rcases hcases with ⟨m, b, rfl, -, hb⟩ | ⟨hnone, hr⟩
      · obtain ⟨r₂, w₂, hrest, hpeeks₂, hiff⟩ := ih (hpeeks.agrees hw)
        refine ⟨r₂, w₂, hrest, hpeeks.trans hpeeks₂, hiff.trans ?_⟩
        have hhere : Present w repo text := ⟨d, hd, by simp [Fs.isFile, hb]⟩
        simp only [Present, hpeeks.fs, List.forall_mem_cons]
        exact ⟨fun h => ⟨hhere, h⟩, fun h => h.2⟩
      · have hmissing : ¬ ∀ t ∈ text :: texts, Present w repo t := by
          intro hall
          obtain ⟨d', hd', hfile⟩ := hall text List.mem_cons_self
          cases hd.symm.trans hd'
          simp [Fs.isFile, hnone] at hfile
        have hend : ∀ (p : Prog (World S) Abort (Option Str)), p = pure (some text) →
            p.exec w₁ = (.ok (some text), w₁) := by
          rintro p rfl
          rfl
        refine ⟨some text, w₁, ?_, hpeeks, by simp, fun hall => absurd hall hmissing⟩
        rcases r with e | _ | m
        · exact hend _ rfl
        · exact hend _ rfl
        · exact absurd rfl (hr m)

theorem exec_checkManifestBlobsPresent_agrees (hw : CacheAgrees w) (repo : Str) (b : Bytes) :
    ∃ r w', (checkManifestBlobsPresent repo b).exec w = (.ok r, w') ∧ Peeks w w' ∧
      (r = none ↔ ∀ text, Requires S b text → Present w repo text) := by
  have hmem : (∀ text, Requires S b text → Present w repo text) ↔
      ∀ text ∈ requiredTexts S b, Present w repo text :=
    forall_congr' fun text => imp_congr_left mem_requiredTexts.symm
  rw [hmem]
  unfold checkManifestBlobsPresent requiredTexts
  cases S.serde.fromSlice b with
  | none => exact ⟨none, w, rfl, .refl w, by simp⟩
  | some v => exact exec_firstMissing_agrees (Manifest.requiredBlobs v) hw

end Check

/-! ## Steps that succeed or are recorded as failures -/

section Steps

variable {ε α : Type} {w : World S}

theorem exec_onFs_cases (m : Prog Fs IoKind α) (f : IoKind → ε) (w : World S) :
    (∃ a fs', m.exec w.fs = (.ok a, fs') ∧
      ((onFs m).mapError f : Prog (World S) ε α).exec w = (.ok a, { w with fs := fs' })) ∨
    ∃ e w', ((onFs m).mapError f : Prog (World S) ε α).exec w = (.error e, w') ∧
      w'.log.ioFailed = true := by
  rcases hm : m.exec w.fs with ⟨e | a, fs'⟩
  · exact Or.inr ⟨_, _, exec_mapError_error (exec_onFs_error hm), rfl⟩
  · exact Or.inl ⟨a, fs', rfl, exec_mapError_ok (exec_onFs_ok hm)⟩

/-- The directories of a repository are created. -/
theorem exec_ensureRepo_cases (repo : Str) (w : World S) :
    (∃ w', (ensureRepo repo).exec w = (.ok (), w') ∧ Unchanged w w' ∧ w'.metaCache = w.metaCache) ∨
    ∃ e w', (ensureRepo repo).exec w = (.error e, w') ∧ w'.log.ioFailed = true := by
  rcases exec_onFs_cases (ensureRepoDirs S.root repo) StorageError.io w with
    ⟨⟨⟩, fs', hm, he⟩ | hfailed
  · have hgrows : Moves Fs.growsDirs (ensureRepoDirs S.root repo) :=
      (Fs.createDirAll_grows _).seq fun _ => Fs.createDirAll_grows _
    have hreads := Fs.growsDirs_read (hgrows.rel_of_exec hm)
    exact Or.inl ⟨_, he, ⟨hreads, rfl, rfl, rfl⟩, rfl⟩
  · exact Or.inr hfailed

/-- An atomic write puts the bytes in place and leaves no temporary file. -/
theorem exec_writeAtomic_leaves {tmp dst : Path} (htmp : Temporary tmp) (hdst : ¬ Scratch dst) (b : Bytes)
    (fs : Fs) :
    (∃ fs', (Fs.writeAtomic tmp dst b).exec fs = (.ok (), fs') ∧ fs'.read dst = some b ∧
      ∀ p ≠ dst, fs'.read p = fs.read p ∨ (Temporary p ∧ fs'.read p = none)) ∨
    ∃ e fs', (Fs.writeAtomic tmp dst b).exec fs = (.error e, fs') := by
  have hne : tmp ≠ dst := by
    rintro rfl
    exact hdst htmp.scratch
  rcases Fs.exec_writeAtomic hne b fs with ⟨e, he⟩ | ⟨-, e, he⟩ | ⟨-, -, fs', he, hnode⟩
  · exact Or.inr ⟨e, _, he⟩
  · exact Or.inr ⟨e, _, he⟩
  · refine Or.inl ⟨fs', he, ?_, fun p hp => ?_⟩
    · rw [Fs.read_eq_some, hnode, if_pos rfl]
    · by_cases hpt : p = tmp
      · refine Or.inr ⟨hpt ▸ htmp, ?_⟩
        rw [Fs.read, hnode, if_neg hp, if_pos hpt]
      · refine Or.inl (Fs.read_congr ?_)
        rw [hnode, if_neg hp, if_neg hpt]

/-- The manifest is stored. -/
theorem exec_putBlobBuffered_cases (repo : Str) (b : Bytes) (w : World S) :
    (∃ m w', (putBlobBuffered repo (S.digest b) b).exec w = (.ok m, w') ∧
      w'.fs.read (blobPath S.root repo (S.digest b)) = some b ∧
      Leaves {blobPath S.root repo (S.digest b)} w w' ∧ w'.localTags = w.localTags) ∨
    ∃ e w', (putBlobBuffered repo (S.digest b) b).exec w = (.error e, w') ∧
      w'.log.ioFailed = true := by
  rcases hrun : (putBlobBuffered repo (S.digest b) b).exec w with ⟨e | m, w'⟩
  · exact Or.inr ⟨e, w', rfl, putBlobBuffered_loud repo b w e w' hrun⟩
  · obtain ⟨fs₁, fs₂, hdirs, hmk, hwrite, -, hmap, htags, hsessions⟩ := exec_putBlobBuffered_eq_ok hrun
    have hread₁ := Fs.growsDirs_read ((Fs.createDirAll_grows _).rel_of_exec hdirs)
    have hread₂ := Fs.growsDirs_read ((Fs.createDirAll_grows _).rel_of_exec hmk)
    rcases exec_writeAtomic_leaves ⟨_, Or.inl ⟨_, rfl⟩⟩ (blobPath_not_scratch S.root repo (S.digest b)) b fs₂
      with ⟨fs', he, hfile, hfiles⟩ | ⟨e, fs', he⟩
    · obtain ⟨-, rfl⟩ := Prod.mk.inj (he.symm.trans hwrite)
      refine Or.inl ⟨m, w', rfl, hfile, ⟨fun p hp => ?_, htags, hsessions⟩, hmap⟩
      rcases hfiles p hp with h | h
      · exact Or.inl (h.trans ((hread₂ p).trans (hread₁ p)))
      · exact Or.inr h
    · cases he.symm.trans hwrite

/-- The tag is set, in memory and in the sidecar. -/
theorem exec_set_cases (repo tag : Str) (d : Digest) (w : World S) :
    (∃ pushedAt w', (LocalTags.set repo tag d).exec w = (.ok (), w') ∧
      w'.localTags = w.localTags.insert (repo, tag) ⟨d.toStr, pushedAt⟩ ∧
      w'.fs.read (localTagsPath S.root repo) =
        some (S.serde.tagsToVec (snapshot w'.localTags repo)) ∧
      Leaves {localTagsPath S.root repo} w w') ∨
    ∃ e w', (LocalTags.set repo tag d).exec w = (.error e, w') ∧ w'.log.ioFailed = true := by
  obtain ⟨w₁, hw₁⟩ : ∃ w₁ : World S, w₁ = { w with
    wall := w.wall.tail
    localTags := w.localTags.insert (repo, tag) ⟨d.toStr, w.wall.headD 0⟩ } := ⟨_, rfl⟩
  have hset : (LocalTags.set repo tag d).exec w =
      (writeSidecar repo (snapshot w₁.localTags repo)).exec w₁ := by
    subst hw₁
    rfl
  rw [hset]
  unfold writeSidecar
  rcases exec_onFs_cases (Fs.createDirAll (repoDir S.root repo)) LocalTagsError.io w₁ with
    ⟨⟨⟩, fs₂, hdirs, he⟩ | ⟨e, w', he, hfailed⟩
  · rw [Prog.exec_bind_ok he]
    have hread₂ := Fs.growsDirs_read ((Fs.createDirAll_grows _).rel_of_exec hdirs)
    rcases exec_writeAtomic_leaves ⟨repoDir S.root repo, Or.inr rfl⟩
      (localTagsPath_not_scratch S.root repo) (S.serde.tagsToVec (snapshot w₁.localTags repo)) fs₂
      with ⟨fs', hwrite, hfile, hfiles⟩ | ⟨e, fs', hwrite⟩
    · refine Or.inl ⟨w.wall.headD 0, _, exec_mapError_ok (exec_onFs_ok hwrite), ?_, hfile, ?_, ?_, ?_⟩
      · rw [hw₁]
      · intro p hp
        have hw : w₁.fs.read p = w.fs.read p := by rw [hw₁]
        rcases hfiles p hp with h | h
        · exact Or.inl (h.trans ((hread₂ p).trans hw))
        · exact Or.inr h
      · rw [hw₁]
      · rw [hw₁]
    · exact Or.inr ⟨_, _, exec_mapError_error (exec_onFs_error hwrite), rfl⟩
  · exact Or.inr ⟨e, w', Prog.exec_bind_error he, hfailed⟩

end Steps

/-! ## Carrying a push out -/

section Carry

variable {w w₁ w' : World S} {b : Bytes} {contentType : Option Str}

theorem diskTag_of_read {fs : Fs} {m : OnDiskTags}
    (hread : fs.read (localTagsPath S.root repo) = some (S.serde.tagsToVec m)) (tag : Str) :
    diskTag S fs repo tag = m.lookup tag := by
  obtain ⟨m', hparse, hsame⟩ := S.serde.tags_roundtrip m
  simp only [diskTag, hread, Option.bind_some, hparse, hsame]

/-- The sidecar of a plainly named repository has the entries of the map. -/
theorem diskTag_of_synced (hsync : Synced Plain w) (hrepo : Plain repo) (tag : Str) :
    diskTag S w.fs repo tag = w.localTags.lookup (repo, tag) := by
  cases hread : w.fs.read (localTagsPath S.root repo) with
  | none =>
    cases hentry : w.localTags.lookup (repo, tag) with
    | none => simp [diskTag, hread]
    | some t =>
      obtain ⟨-, -, hfile⟩ := hsync.tagged repo tag t hentry
      simp [Fs.isFile, hread] at hfile
  | some body =>
    obtain ⟨r, m, hr, hdir, rfl, hlook⟩ := hsync.sidecars _ body hread
    obtain rfl : repo = r := hrepo.join_injective hr hdir
    rw [diskTag_of_read hread, hlook]

theorem Unchanged.diskTag (h : Unchanged w w') (repo tag : Str) :
    ManifestPuts.diskTag S w'.fs repo tag = ManifestPuts.diskTag S w.fs repo tag := by
  simp only [ManifestPuts.diskTag, h.files]

theorem Carried.of_unchanged (h : Unchanged w w₁) (g : Carried w₁ repo reference b w') :
    Carried w repo reference b w' where
  manifest := g.manifest
  leaves := (h.leaves _).trans g.leaves
  untagged := fun htag => (g.untagged htag).trans h.localTags
  tagged := by
    intro htag
    obtain ⟨pushedAt, hmap, hentry, hother⟩ := g.tagged htag
    refine ⟨pushedAt, by rw [hmap, h.localTags], hentry, fun tag hne => ?_⟩
    rw [hother tag hne, h.diskTag]

/-- The answer to a push, or the panic of its builder. -/
def answer (repo : Str) (d : Digest) (contentType : Option Str) : Except Abort Response :=
  if legalHeaderValue repo = true then
    .ok ⟨.created, [(.location, "/v2/".toList ++ repo ++ "/manifests/".toList ++ d.toStr),
      (.dockerContentDigest, d.toStr)] ++ (contentType.map fun ct => (.contentType, ct)).toList, .empty⟩
  else .error .panic

theorem exec_created (hct : ∀ ct ∈ contentType, legalHeaderValue ct = true) (repo : Str) (d : Digest)
    (w : World S) : (build .created ([(.location, "/v2/".toList ++ repo ++ "/manifests/".toList ++
        d.toStr), (.dockerContentDigest, d.toStr)] ++
        (contentType.map fun ct => (.contentType, ct)).toList) .empty : Handler S).exec w =
      (answer repo d contentType, w) := by
  have hlocation := legalHeaderValue_location repo d
    (show legalHeaderValue "/manifests/".toList = true by decide)
  have htail : ((contentType.map fun ct => (HeaderName.contentType, ct)).toList.all
      fun h => legalHeaderValue h.2) = true := by
    refine List.all_eq_true.mpr fun h hmem => ?_
    obtain ⟨ct, hct', rfl⟩ := Option.map_eq_some_iff.mp (Option.mem_toList.mp hmem)
    exact hct ct hct'
  rw [exec_build, List.all_append, htail]
  simp only [List.all_cons, List.all_nil, hlocation, legalHeaderValue_toStr, Bool.and_true, answer]

/-- A checked push is carried out, unless a file-system step fails, whether or not it can be
answered. -/
theorem exec_storeManifest_carried (hct : ∀ ct ∈ contentType, legalHeaderValue ct = true)
    (hdisk : ∀ tag, diskTag S w.fs repo tag = w.localTags.lookup (repo, tag))
    (hok : ((storeManifest repo reference contentType b : Handler S).exec w).2.log.ioFailed = false) :
    ((storeManifest repo reference contentType b : Handler S).exec w).1 =
        answer repo (S.digest b) contentType ∧
      Carried w repo reference b ((storeManifest repo reference contentType b : Handler S).exec w).2 := by
  rcases exec_putBlobBuffered_cases repo b w with ⟨m, w₂, hput, hread, hleaves, hmap⟩ | ⟨e, w₂, hput, hfailed⟩
  · have hrest : (storeManifest repo reference contentType b : Handler S).exec w = _ :=
      Prog.exec_bind_ok (Prog.exec_attempt_eq.mpr hput)
    rw [hrest] at hok ⊢
    cases href : Digest.parse reference with
    | ok d =>
      have htag : ¬ IsTag reference := by
        rintro ⟨e, he⟩
        cases href.symm.trans he
      simp only [href, exec_created hct] at hok ⊢
      refine ⟨trivial, hread, hleaves.mono fun p hp => Or.inl hp, fun _ => hmap, fun h => absurd h htag⟩
    | error e =>
      have htag : IsTag reference := ⟨e, href⟩
      simp only [href] at hok ⊢
      rcases exec_set_cases repo reference (S.digest b) w₂ with
        ⟨pushedAt, w₃, hset, hmap₃, hside, hleaves₃⟩ | ⟨e', w₃, hset, hfailed⟩
      · rw [Prog.exec_bind_ok (Prog.exec_attempt_eq.mpr hset)]
        simp only [exec_created hct]
        have hblob : blobPath S.root repo (S.digest b) ∉ ({localTagsPath S.root repo} : Set Path) :=
          blobPath_ne_localTagsPath S.root repo repo (S.digest b)
        refine ⟨trivial, ?_, ?_, fun h => absurd htag h, fun _ => ⟨pushedAt, by rw [hmap₃, hmap], ?_, ?_⟩⟩
        · rw [hleaves₃.read hblob (blobPath_not_scratch _ _ _), hread]
        · refine (hleaves.mono fun p hp => Or.inl hp).trans (hleaves₃.mono fun p hp => ?_)
          exact Or.inr ⟨htag, Set.mem_singleton_iff.mp hp⟩
        · rw [diskTag_of_read hside, lookup_snapshot, hmap₃, AList.lookup_insert]
        · intro tag hne
          have hkey : (repo, tag) ≠ (repo, reference) := fun he => hne (Prod.mk.inj he).2
          rw [diskTag_of_read hside, lookup_snapshot, hmap₃, AList.lookup_insert_ne hkey, hmap, hdisk]
      · rw [Prog.exec_bind_ok (Prog.exec_attempt_eq.mpr hset)] at hok
        cases hfailed.symm.trans hok
  · have hrest : (storeManifest repo reference contentType b : Handler S).exec w = _ :=
      Prog.exec_bind_ok (Prog.exec_attempt_eq.mpr hput)
    rw [hrest] at hok
    cases hfailed.symm.trans hok

/-- A push of at most 32 MiB without a failure is refused with nothing changed, or it is valid and carried
out. -/
theorem exec_putManifest_cases (hct : ∀ ct ∈ contentType, legalHeaderValue ct = true)
    (hcache : CacheAgrees w)
    (hdisk : ∀ tag, diskTag S w.fs repo tag = w.localTags.lookup (repo, tag))
    (hlen : b.length ≤ 33554432)
    (hok : ((putManifest repo reference contentType (some b) : Handler S).exec w).2.log.ioFailed = false) :
    (¬ Valid w repo reference b ∧ ∃ resp w', (putManifest repo reference contentType (some b) :
        Handler S).exec w = (.ok resp, w') ∧ resp.status ≠ .created ∧ Unchanged w w') ∨
    (Valid w repo reference b ∧ ∃ w', (putManifest repo reference contentType (some b) :
        Handler S).exec w = (answer repo (S.digest b) contentType, w') ∧
      Carried w repo reference b w') := by
  rcases exec_ensureRepo_cases repo w with ⟨w₀, hensure, hsame, hmeta⟩ | ⟨e, w₀, hensure, hfailed⟩
  swap
  · have hrest : (putManifest repo reference contentType (some b) : Handler S).exec w = _ :=
      Prog.exec_bind_ok (Prog.exec_attempt_eq.mpr hensure)
    rw [hrest] at hok
    cases hfailed.symm.trans hok
  have hcollect : collectBody (some b) 33554432 = .ok b := if_neg (by omega)
  have hrest : (putManifest repo reference contentType (some b) : Handler S).exec w = _ :=
    Prog.exec_bind_ok (Prog.exec_attempt_eq.mpr hensure)
  rw [hrest] at hok ⊢
  simp only [hcollect] at hok ⊢
  have hfile : ∀ p, w₀.fs.isFile p = w.fs.isFile p := fun p => by rw [Fs.isFile, Fs.isFile, hsame.files]
  have hcache₀ : CacheAgrees w₀ := by
    intro r d m hm
    rw [hmeta] at hm
    obtain ⟨hpath, hm⟩ := hcache r d m hm
    exact ⟨hpath, (hfile _).trans hm⟩
  cases hfilter : (Digest.parse reference).toOption.filter (· ≠ S.digest b) with
  | some other =>
    obtain ⟨hparse, hne⟩ := Option.filter_eq_some_iff.mp hfilter
    refine Or.inl ⟨fun hvalid => ?_, _, w₀, rfl, show Status.badRequest ≠ .created by decide, hsame⟩
    have hd : Digest.parse reference = .ok other := by
      cases hp : Digest.parse reference with
      | error e => simp [hp, Except.toOption] at hparse
      | ok d => simpa [hp, Except.toOption] using hparse
    simp [hvalid.digest other hd] at hne
  | none =>
    have hdigest : ∀ d, Digest.parse reference = .ok d → d = S.digest b := by
      intro d hd
      have hall := Option.filter_eq_none_iff.mp hfilter d (by simp [hd, Except.toOption])
      simpa using hall
    obtain ⟨r, w₁, hcheck, hpeeks, hiff⟩ := exec_checkManifestBlobsPresent_agrees hcache₀ repo b
    have hpresent : (∀ text, Requires S b text → Present w₀ repo text) ↔
        ∀ text, Requires S b text → Present w repo text := by
      simp only [Present, hfile]
    simp only [hfilter] at hok ⊢
    rw [Prog.exec_bind_ok hcheck] at hok ⊢
    have hsame₁ : Unchanged w w₁ := hsame.trans (Peeks.unchanged hpeeks)
    cases r with
    | some missing =>
      refine Or.inl ⟨fun hvalid => ?_, _, w₁, rfl, show Status.badRequest ≠ .created by decide, hsame₁⟩
      cases hiff.mpr (hpresent.mpr hvalid.blobs)
    | none =>
      have hdisk₁ : ∀ tag, diskTag S w₁.fs repo tag = w₁.localTags.lookup (repo, tag) := by
        intro tag
        rw [hsame₁.diskTag, hsame₁.localTags, hdisk]
      obtain ⟨hanswer, hcarried⟩ := exec_storeManifest_carried hct hdisk₁ hok
      exact Or.inr ⟨⟨hdigest, hpresent.mp (hiff.mp rfl)⟩, _, Prod.ext hanswer rfl,
        hcarried.of_unchanged hsame₁⟩

end Carry

/-! ## Runs -/

section Runs

variable {ticks wall : List Nat} {es : List Exchange} {w : World S}

/-- Pushes of a run on plainly named repositories go to such repositories. -/
theorem pushesTo_plain (hplain : ∀ e ∈ es, PlainRepo e.1) : PushesTo Plain es := by
  intro e he r t hc _
  exact (hplain e he).of_command (by rw [hc]; rfl)

/-- A push is answered with 201 exactly when it is valid; then it has been carried out, and if it is
refused nothing has changed. -/
structure Exact (w : World S) (repo reference : Str) (b : Bytes) (out : Except Abort Response × World S) :
    Prop where
  created_iff : (∃ resp, out.1 = .ok resp ∧ resp.status = .created) ↔ Valid w repo reference b
  carried : ∀ resp, out.1 = .ok resp → resp.status = .created → Carried w repo reference b out.2
  refused : ∀ resp, out.1 = .ok resp → resp.status ≠ .created → Unchanged w out.2

/-- In every state of a run a push is exact if and only if it is to be refused or its repository name
can stand in a header. -/
theorem put_manifest_is_exact_iff (hserved : Served S ticks wall es w)
    (hplain : ∀ e ∈ es, PlainRepo e.1) (hrepo : Plain repo) (reference : Str)
    (contentType : Option Bytes) (b : Bytes) (hlen : b.length ≤ 33554432)
    (hok : ((putManifest repo reference (contentType.bind Upstream.toStr) (some b) :
      Handler S).exec w).2.log.ioFailed = false) :
    Exact w repo reference b ((putManifest repo reference (contentType.bind Upstream.toStr) (some b) :
        Handler S).exec w) ↔
      (Valid w repo reference b → legalHeaderValue repo = true) := by
  have hbefore : w.log.ioFailed = false := by
    refine Bool.eq_false_iff.mpr fun hw => ?_
    have halong : Moves (Along S repo Set.univ) (putManifest repo reference
        (contentType.bind Upstream.toStr) (some b) : Handler S) :=
      putManifest_along (Set.subset_univ _) reference (fun _ _ => trivial) _ _
    have hstays := Evolution.star_keep (I := fun v => v.log.ioFailed = true)
      (fun v v' ⟨_, _, h⟩ hv => h.failed hv) (halong w) hw
    rw [hok] at hstays
    cases hstays
  obtain ⟨-, hcache⟩ := (hserved.coherent hplain).resolve_left (by simp [hbefore])
  have hsync := hserved.synced (.of_plain fun _ h => h) (pushesTo_plain hplain) hbefore
  have hct : ∀ ct ∈ contentType.bind Upstream.toStr, legalHeaderValue ct = true := by
    intro ct hmem
    obtain ⟨value, -, hvalue⟩ := Option.bind_eq_some_iff.mp hmem
    exact Upstream.legalHeaderValue_toStr_value hvalue
  rcases exec_putManifest_cases hct hcache.agrees (diskTag_of_synced hsync hrepo) hlen hok with
    ⟨hinvalid, resp, w', he, hstatus, hsame⟩ | ⟨hvalid, w', he, hcarried⟩
  · rw [he]
    refine ⟨fun _ h => absurd h hinvalid, fun _ => ⟨⟨?_, fun h => absurd h hinvalid⟩, ?_, fun _ _ _ => hsame⟩⟩
    · rintro ⟨resp', hresp, hcreated⟩
      cases hresp
      exact absurd hcreated hstatus
    · intro resp' hresp hcreated
      cases hresp
      exact absurd hcreated hstatus
  · rw [he]
    constructor
    · intro hexact _
      obtain ⟨resp, hresp, -⟩ := hexact.created_iff.mpr hvalid
      by_contra hillegal
      rw [answer, if_neg hillegal] at hresp
      cases hresp
    · intro hlegal
      rw [answer, if_pos (hlegal hvalid)]
      refine ⟨⟨fun _ => hvalid, fun _ => ⟨_, rfl, rfl⟩⟩, fun _ _ _ => hcarried, ?_⟩
      intro resp hresp hstatus
      cases hresp
      exact absurd rfl hstatus

end Runs

/-! A layer is stored, and then a manifest that refers to it is pushed to a name that can be printed. -/

def pushImage (w : World Gc.faultSetup) : Except Abort Response × World Gc.faultSetup :=
  (putManifest "app".toList "v1".toList none (some (Codec.utf8 Gc.layerManifestText)) :
    Handler Gc.faultSetup).exec w

/-- The push is valid, since the layer is there, and it is exact. -/
theorem printable_put_is_exact : ∃ es w, Served Gc.faultSetup [] [] es w ∧ es.map Prod.fst = [putLayer] ∧
    Requires Gc.faultSetup (Codec.utf8 Gc.layerManifestText) Gc.layerDigest.toStr ∧
    Exact w "app".toList "v1".toList (Codec.utf8 Gc.layerManifestText) (pushImage w) ∧
    Valid w "app".toList "v1".toList (Codec.utf8 Gc.layerManifestText) := by
  obtain ⟨es, w, hall, hserved, hrequires, hok, hcreated⟩ := exists_served Gc.faultSetup [] [] [putLayer]
    (fun _ w => Gc.layerDigest.toStr ∈ requiredTexts Gc.faultSetup (Codec.utf8 Gc.layerManifestText) ∧
      (pushImage w).2.log.ioFailed = false ∧
      (pushImage w).1.toOption.map Response.status = some .created) (by decide +kernel)
  have hexact : Exact w "app".toList "v1".toList (Codec.utf8 Gc.layerManifestText) (pushImage w) :=
    (put_manifest_is_exact_iff hserved (plain_serveAll hall (by decide)) (show Plain "app".toList by decide)
      "v1".toList none _ (by decide +kernel) hok).mpr fun _ => by decide
  obtain ⟨resp, hresp, hstatus⟩ := Option.map_eq_some_iff.mp hcreated
  have hout : (pushImage w).1 = .ok resp := by
    rcases hrun : (pushImage w).1 with e | r
    · rw [hrun] at hresp
      cases hresp
    · rw [hrun] at hresp
      cases hresp
      rfl
  exact ⟨es, w, hserved, serveAll_requests hall, mem_requiredTexts.mp hrequires, hexact,
    hexact.created_iff.mp ⟨resp, hout, hstatus⟩⟩

/-! A server that knows no JSON document, so that every body is one without references. -/

def blankServer : Setup := Codec.server [] []

def fresh : World blankServer := World.start blankServer [] []

/-- The push of an empty body to the tag `v1`. -/
def pushEmpty (repo : Str) : Except Abort Response × World blankServer :=
  (putManifest repo "v1".toList none (some []) : Handler blankServer).exec fresh

theorem valid_empty (repo : Str) : Valid fresh repo "v1".toList [] where
  digest := by
    intro d hd
    have herror : Digest.parse "v1".toList = .error .missingSeparator := by decide
    cases herror.symm.trans hd
  blobs := by
    rintro text ⟨v, hv, -⟩
    cases hv

/-- A line break in the name of the repository: the manifest and the tag are stored, and the server
panics instead of answering 201. -/
theorem line_break_spoils_put :
    ¬ ∀ (S : Setup) (ticks wall : List Nat) (es : List Exchange) (w : World S) (repo reference : Str)
      (contentType : Option Bytes) (b : Bytes),
      Served S ticks wall es w → (∀ e ∈ es, PlainRepo e.1) → Plain repo → b.length ≤ 33554432 →
      ((putManifest repo reference (contentType.bind Upstream.toStr) (some b) :
        Handler S).exec w).2.log.ioFailed = false →
      Exact w repo reference b ((putManifest repo reference (contentType.bind Upstream.toStr) (some b) :
        Handler S).exec w) := by
  intro h
  have hexact := h blankServer [] [] [] fresh "a\nb".toList "v1".toList none [] .start
    (fun e he => nomatch he) (by decide) (by decide) (by decide +kernel)
  obtain ⟨resp, hresp, -⟩ := hexact.created_iff.mpr (valid_empty _)
  have hpanic : (pushEmpty "a\nb".toList).1 = .error .panic := by decide +kernel
  cases hpanic.symm.trans hresp

end Quill.Registry.ManifestPuts
