import Quill.Registry.Handlers

/-!
# What a request changes

`Keeps except w w'` is the frame of a step: directories stay, blobs outside `except` stay
files, sidecars outside `except` keep their contents. Pulls and uploads keep everything
(`quiet_keeps`).

`Change` lists what a request does to tags and blobs, given that no file-system step failed. A
push is decomposed into the steps of `put_manifest`; the removal of tags is described by
what it does to the map and the sidecar (`Untagged`). `dispatch_change` is the only place
where the handlers are taken apart for this.
-/

namespace Quill.Registry

open Text Files Cas World LocalStorage Uploads LocalTags

variable {S : Setup} {repo : Str}

/-! ## Frames -/

/-- The files of all sessions are named as such. -/
def DataNamed (w : World S) : Prop :=
  ∀ key st, w.sessions.lookup key = some st → IsDataName st.dataPath

theorem DataNamed.insert {w : World S} (h : DataNamed w) {key : Str × Str} {st : UploadState S.hash}
    (hst : IsDataName st.dataPath) {key' : Str × Str} {st' : UploadState S.hash}
    (hlook : (w.sessions.insert key st).lookup key' = some st') : IsDataName st'.dataPath := by
  by_cases hk : key' = key
  · subst hk
    rw [AList.lookup_insert] at hlook
    cases hlook
    exact hst
  · rw [AList.lookup_insert_ne hk] at hlook
    exact h key' st' hlook

theorem DataNamed.erase {w : World S} (h : DataNamed w) (key : Str × Str) {key' : Str × Str}
    {st' : UploadState S.hash} (hlook : (w.sessions.erase key).lookup key' = some st') :
    IsDataName st'.dataPath := by
  by_cases hk : key' = key
  · subst hk
    rw [AList.lookup_erase] at hlook
    cases hlook
  · rw [AList.lookup_erase_ne hk] at hlook
    exact h key' st' hlook

theorem DataNamed.effect {k : Kind} {w w' : World S} (heff : Effect S repo k w w')
    (h : DataNamed w) : DataNamed w' := by
  cases heff with
  | ambient ha => exact fun key st hst => h key st (ha.sessions ▸ hst)
  | create session info => exact fun key st => h.insert (isDataName_dataPath _ _ _)
  | append chunk now hst =>
    have hpath : ∀ {st : UploadState S.hash} {session : Str},
        w.sessions.lookup (repo, session) = some st →
          IsDataName (UploadState.fed st chunk now).dataPath := fun {st _} hst => h _ st hst
    exact fun key' st' => h.insert (hpath hst)
  | commit d hst => exact fun key' st' => h.erase _
  | abandon hst => exact fun key' st' => h.erase _
  | _ => exact h

/-- What a request keeps: directories, blobs and sidecars but for the excepted paths, and the record
of what was stored and of failures. -/
structure Keeps (except : Set Path) (w w' : World S) : Prop where
  dirs : ∀ p, w.fs.isDir p = true → w'.fs.isDir p = true
  blobs : ∀ p, IsBlobName p → p ∉ except → w.fs.isFile p = true → w'.fs.isFile p = true
  sidecars : ∀ p, IsTagsName p → p ∉ except → w'.fs.read p = w.fs.read p
  stored : w.log.stored ⊆ w'.log.stored
  failed : w.log.ioFailed = true → w'.log.ioFailed = true
  now : w.now ≤ w'.now

namespace Keeps

variable {except except' : Set Path} {w w' w'' : World S}

theorem refl (except : Set Path) (w : World S) : Keeps except w w :=
  ⟨fun _ h => h, fun _ _ _ h => h, fun _ _ _ => rfl, List.Subset.refl _, id, le_rfl⟩

theorem trans (h : Keeps except w w') (g : Keeps except w' w'') : Keeps except w w'' :=
  ⟨fun p hp => g.dirs p (h.dirs p hp), fun p hb hp hf => g.blobs p hb hp (h.blobs p hb hp hf),
    fun p ht hp => (g.sidecars p ht hp).trans (h.sidecars p ht hp), List.Subset.trans h.stored g.stored,
    fun hf => g.failed (h.failed hf), h.now.trans g.now⟩

theorem mono (h : Keeps except w w') (hsub : except ⊆ except') : Keeps except' w w' :=
  ⟨h.dirs, fun p hb hp => h.blobs p hb fun hm => hp (hsub hm),
    fun p ht hp => h.sidecars p ht fun hm => hp (hsub hm), h.stored, h.failed, h.now⟩

/-- A step that spares all but some files, of which the blobs outside `except` are there. -/
theorem of_spares {touched : Set Path} (hfs : Spares touched w.fs w'.fs)
    (hblobs : ∀ p ∈ touched, IsBlobName p → p ∉ except → w'.fs.isFile p = true)
    (htags : ∀ p ∈ touched, IsTagsName p → p ∈ except) (hstored : w.log.stored ⊆ w'.log.stored)
    (hfailed : w.log.ioFailed = true → w'.log.ioFailed = true) (hnow : w.now ≤ w'.now) :
    Keeps except w w' := by
  refine ⟨hfs.dirs, fun p hb hp hf => ?_, fun p ht hp => ?_, hstored, hfailed, hnow⟩
  · by_cases hmem : p ∈ touched
    · exact hblobs p hmem hb hp
    · rw [Fs.isFile, hfs.read (fun hs => hs.1 hb) hmem]
      exact hf
  · exact hfs.read (fun hs => hs.2.2 ht) fun hmem => hp (htags p hmem ht)

end Keeps

/-- The kinds of effects of pulls and uploads. -/
def quietKinds : Set Kind := {.ambient, .publish, .fill, .create, .session}

theorem pullKinds_quiet : pullKinds ⊆ quietKinds := by
  rintro k (rfl | rfl | rfl) <;> simp [quietKinds]

/-- Pulls and uploads keep every blob, every sidecar and the local tags. -/
theorem Effect.quiet {k : Kind} (hk : k ∈ quietKinds) {w w' : World S} (h : Effect S repo k w w')
    (hdata : DataNamed w) : Keeps ∅ w w' ∧ w'.localTags = w.localTags := by
  have hdatum : ∀ {p : Path}, IsDataName p → ∀ q ∈ ({p} : Set Path), ¬ IsBlobName q ∧ ¬ IsTagsName q :=
    fun hp q hq => by
      rw [Set.mem_singleton_iff.mp hq]
      exact ⟨fun hb => not_isDataName_of_isBlobName hb hp, not_isTagsName_of_isDataName hp⟩
  cases h with
  | ambient h =>
    refine ⟨.of_spares h.fs (fun _ h => h.elim) (fun _ h => h.elim) ?_ h.failed h.now, h.tags⟩
    rw [h.stored]
    exact List.Subset.refl _
  | publish d b hhash hfs hfile =>
    refine ⟨.of_spares hfs (fun p hp _ _ => ?_) (fun p hp ht => ?_) (List.subset_append_left _ _) id
      le_rfl, rfl⟩
    · rw [Set.mem_singleton_iff.mp hp]
      simp [Fs.isFile, hfile]
    · rw [Set.mem_singleton_iff.mp hp] at ht
      exact absurd ht (not_isTagsName_of_isBlobName (isBlobName_blobPath _ _ _))
  | fill d m hpath hfile =>
    exact ⟨.of_spares (.refl ∅ w.fs) (fun _ h => h.elim) (fun _ h => h.elim) (List.Subset.refl _) id
      le_rfl, rfl⟩
  | create session info hfs hfile =>
    have hne := hdatum (isDataName_dataPath S.root repo session)
    exact ⟨.of_spares hfs (fun p hp hb => absurd hb (hne p hp).1)
      (fun p hp ht => absurd ht (hne p hp).2) (List.Subset.refl _) id le_rfl, rfl⟩
  | spoil session hfs =>
    have hne := hdatum (isDataName_dataPath S.root repo session)
    exact ⟨.of_spares hfs (fun p hp hb => absurd hb (hne p hp).1)
      (fun p hp ht => absurd ht (hne p hp).2) (List.Subset.refl _) (fun _ => rfl) le_rfl, rfl⟩
  | append chunk now hst hread hfs hfile =>
    have hne := hdatum (hdata _ _ hst)
    exact ⟨.of_spares hfs (fun p hp hb => absurd hb (hne p hp).1)
      (fun p hp ht => absurd ht (hne p hp).2) (List.Subset.refl _) id le_rfl, rfl⟩
  | commit d hst hhash hread hfs hfile =>
    have hne := hdatum (hdata _ _ hst)
    refine ⟨.of_spares hfs (fun p hp hb _ => ?_) (fun p hp ht => ?_) (List.subset_append_left _ _) id
      le_rfl, rfl⟩
    · rcases hp with hp | hp
      · exact absurd hb (hne p hp).1
      · rw [hp]
        simp [Fs.isFile, hfile]
    · rcases hp with hp | hp
      · exact absurd ht (hne p hp).2
      · rw [hp] at ht
        exact absurd ht (not_isTagsName_of_isBlobName (isBlobName_blobPath _ _ _))
  | abandon hst hfs =>
    have hne := hdatum (hdata _ _ hst)
    exact ⟨.of_spares hfs (fun p hp hb => absurd hb (hne p hp).1)
      (fun p hp ht => absurd ht (hne p hp).2) (List.Subset.refl _) id le_rfl, rfl⟩
  | setTag => simp [quietKinds] at hk
  | removeTag => simp [quietKinds] at hk
  | retract => simp [quietKinds] at hk

theorem quiet_keeps {K : Set Kind} (hK : K ⊆ quietKinds) {w w' : World S}
    (h : (Along S repo K).rel w w') (hdata : DataNamed w) :
    DataNamed w' ∧ Keeps ∅ w w' ∧ w'.localTags = w.localTags := by
  refine Evolution.star_keep (I := fun v => DataNamed v ∧ Keeps ∅ w v ∧ v.localTags = w.localTags)
    ?_ h ⟨hdata, .refl ∅ w, rfl⟩
  rintro s t ⟨k, hk, heff⟩ ⟨hs, hkeep, htags⟩
  obtain ⟨hkeep', htags'⟩ := Effect.quiet (hK hk) heff hs
  exact ⟨hs.effect heff, hkeep.trans hkeep', htags'.trans htags⟩

theorem DataNamed.along {K : Set Kind} {w w' : World S} (h : (Along S repo K).rel w w')
    (hdata : DataNamed w) : DataNamed w' :=
  Evolution.star_keep (I := DataNamed) (fun _ _ ⟨_, _, heff⟩ hs => hs.effect heff) h hdata

/-! ## Sidecars -/

/-- No file is in the way of the directory of the sidecar, and no directory is in the place of the
sidecar or of its temporary file. -/
def Writable (S : Setup) (fs : Fs) (repo : Str) : Prop :=
  fs.blocked (localTagsPath S.root repo) = false ∧ fs.isDir (localTagsPath S.root repo) = false ∧
    fs.isDir (tmpPath S repo) = false

instance (S : Setup) (fs : Fs) (repo : Str) : Decidable (Writable S fs repo) :=
  inferInstanceAs (Decidable (_ ∧ _ ∧ _))

/-- A sidecar that can be written is written, and can be written again. -/
theorem Writable.exec_writeSidecar {w : World S} (h : Writable S w.fs repo) (value : OnDiskTags) :
    ∃ fs', (writeSidecar repo value).exec w = (.ok (), { w with fs := fs' }) ∧ Writable S fs' repo := by
  obtain ⟨hblocked, hside, htmp⟩ := h
  let tmp : Path := tmpPath S repo
  let side : Path := localTagsPath S.root repo
  have hne : tmp ≠ side := by
    intro he
    exact absurd (List.cons.inj he).1 (by decide)
  obtain ⟨fs₁, hmk, hgrow, hdir, hside₁⟩ := Fs.exec_createDirAll_tail hblocked hside
  have hmk : (Fs.createDirAll (repoDir S.root repo)).exec w.fs = (.ok (), fs₁) := hmk
  have hdir : fs₁.isDir (repoDir S.root repo) = true := hdir
  have htmp₁ : fs₁.isDir tmp = false := by
    have hkeep : fs₁.node tmp = w.fs.node tmp := by
      refine (Fs.createDirAll_node fun hsuffix => ?_).rel_of_exec hmk
      exact absurd hsuffix.length_le (by simp [tmp, tmpPath])
    rw [Fs.isDir_congr hkeep]
    exact htmp
  obtain ⟨fs', hwrite, hnode⟩ :=
    Fs.exec_writeAtomic_ok hne (S.serde.tagsToVec value) hdir htmp₁ hdir hside₁
  refine ⟨fs', (Prog.exec_bind_ok (exec_mapError_ok (exec_onFs_ok hmk))).trans
    (exec_mapError_ok (exec_onFs_ok hwrite)), Fs.blocked_eq_false.mpr fun q hq hnil => ?_, ?_, ?_⟩
  · have hbelow : q ≠ side ∧ q ≠ tmp := by
      constructor <;>
        · rintro rfl
          exact absurd hq.length_le (by simp [side, tmp, tmpPath, localTagsPath])
    have hread : fs'.read q = fs₁.read q := by
      refine Fs.read_congr ?_
      rw [hnode, if_neg hbelow.1, if_neg hbelow.2]
    rw [hread, Fs.growsDirs_read hgrow]
    exact Fs.blocked_eq_false.mp hblocked q hq hnil
  · rw [Fs.isDir, hnode, if_pos rfl]
    rfl
  · rw [Fs.isDir, hnode, if_neg hne, if_pos rfl]
    rfl

/-- No step of the world failed up to `w'`, or the sidecar can be written in `w`. -/
def Carries (repo : Str) (w w' : World S) : Prop := w'.log.ioFailed = false ∨ Writable S w.fs repo

/-- The two ends of a write of a sidecar. A failed one leaves every sidecar as it was. -/
theorem exec_writeSidecar_keeps (w : World S) (repo : Str) (value : OnDiskTags) :
    ∃ w', w'.localTags = w.localTags ∧ (Writable S w.fs repo → Writable S w'.fs repo) ∧
      (((writeSidecar repo value).exec w = (.ok (), w') ∧ Keeps {localTagsPath S.root repo} w w' ∧
          w'.fs.read (localTagsPath S.root repo) = some (S.serde.tagsToVec value)) ∨
        ∃ e, (writeSidecar repo value).exec w = (.error e, w') ∧ Keeps ∅ w w' ∧
          w'.log.ioFailed = true ∧ ¬ Carries repo w w') := by
  rcases exec_writeSidecar_cases w repo value with ⟨fs', he, hfs, hfile⟩ | ⟨e, fs', he, hfs⟩
  · refine ⟨{ w with fs := fs' }, rfl, fun hwritable => ?_, Or.inl ⟨he, ?_, hfile⟩⟩
    · obtain ⟨fs'', he', hwritable'⟩ := hwritable.exec_writeSidecar value
      obtain ⟨-, hw⟩ := Prod.mk.inj (he.symm.trans he')
      have hfs : fs' = fs'' := congrArg World.fs hw
      exact hfs ▸ hwritable'
    · refine .of_spares hfs (fun p hp hb => ?_) (fun p hp _ => hp) (List.Subset.refl _) id le_rfl
      rw [Set.mem_singleton_iff.mp hp] at hb
      exact absurd ⟨_, rfl⟩ (not_isTagsName_of_isBlobName hb)
  · have hnot : ¬ Writable S w.fs repo := by
      intro hwritable
      obtain ⟨fs'', he', -⟩ := hwritable.exec_writeSidecar value
      cases he.symm.trans he'
    refine ⟨{ w with fs := fs', log := { w.log with ioFailed := true } }, rfl,
      fun hwritable => absurd hwritable hnot, Or.inr ⟨e, he, ?_, rfl, ?_⟩⟩
    · exact .of_spares hfs (fun _ h => h.elim) (fun _ h => h.elim) (List.Subset.refl _)
        (fun _ => rfl) le_rfl
    · rintro (hfailed | hwritable)
      · cases hfailed
      · exact hnot hwritable

/-- Steps in memory keep everything. -/
theorem Keeps.of_memory {except : Set Path} {w₁ w w' : World S} (h : Keeps except w₁ w')
    (hfs : w₁.fs = w.fs) (hlog : w₁.log = w.log) (hnow : w₁.now = w.now) : Keeps except w w' := by
  obtain ⟨hdirs, hblobs, hsidecars, hstored, hfailed, hclock⟩ := h
  rw [hfs] at hdirs hblobs hsidecars
  rw [hlog] at hstored hfailed
  exact ⟨hdirs, hblobs, hsidecars, hstored, hfailed, hnow ▸ hclock⟩

/-! ## Pushes -/

/-- All directories on the way to the blobs of a repository exist. -/
def DirsAbove (S : Setup) (fs : Fs) (repo : Str) : Prop :=
  ∀ q, q <:+ blobsDir S.root repo → fs.isDir q = true

theorem DirsAbove.keeps {except : Set Path} {w w' : World S} (h : DirsAbove S w.fs repo)
    (hkeep : Keeps except w w') : DirsAbove S w'.fs repo := fun q hq => hkeep.dirs q (h q hq)

theorem DirsAbove.not_blocked {fs : Fs} (h : DirsAbove S fs repo) (d : Digest) :
    fs.blocked (blobPath S.root repo d) = false := by
  refine Bool.eq_false_iff.mpr fun hb => ?_
  obtain ⟨q, hq, hfile⟩ := List.any_eq_true.mp hb
  have hdir := h q (List.mem_tails _ _ |>.mp hq)
  simp [hdir] at hfile

/-- A buffered blob that was accepted is in the store. -/
theorem exec_putBlobBuffered_ok {w w' : World S} {d : Digest} {b : Bytes} {m : BlobMeta}
    (h : (putBlobBuffered repo d b).exec w = (.ok m, w')) :
    w'.fs.read (blobPath S.root repo d) = some b ∧ b ∈ w'.log.stored ∧ DirsAbove S w'.fs repo := by
  obtain ⟨fs₁, fs₂, hdirs, hmk, hwrite, hstored, -⟩ := exec_putBlobBuffered_eq_ok h
  have hgrow : Spares ∅ fs₁ fs₂ := (createDirAll_spares _).rel_of_exec hmk
  rcases exec_writeAtomic_spares (scratch_tmpName _ _) (blobPath_not_scratch S.root repo d) b fs₂
    with ⟨e, fs', he, -⟩ | ⟨fs', he, hfs, hfile⟩
  · cases he.symm.trans hwrite
  · obtain ⟨-, rfl⟩ := Prod.mk.inj (he.symm.trans hwrite)
    refine ⟨hfile, ?_, fun q hq => ?_⟩
    · rw [hstored]
      exact List.mem_append_right _ (List.mem_singleton.mpr rfl)
    · exact hfs.dirs q (hgrow.dirs q (Fs.createDirAll_isDir hdirs hq))

/-- The steps of a push that is answered with `201 Created`. -/
inductive Pushed (S : Setup) (repo tag : Str) (b : Bytes) (w w' : World S) : Prop
  | steps {w₀ w₁ w₂ : World S} {m : BlobMeta} (hensure : Ambient w w₀)
      (hcheck : (checkManifestBlobsPresent repo b).exec w₀ = (.ok none, w₁))
      (hput : (putBlobBuffered repo (S.digest b) b).exec w₁ = (.ok m, w₂))
      (hset : (LocalTags.set repo tag (S.digest b)).exec w₂ = (.ok (), w'))

theorem exec_build_eq_ok {status : Status} {headers : List (HeaderName × Str)} {body : Body}
    {w w' : World S} {resp : Response}
    (h : (build status headers body : Handler S).exec w = (.ok resp, w')) :
    resp = ⟨status, headers, body⟩ ∧ w' = w := by
  unfold build at h
  split at h
  · cases h
    exact ⟨rfl, rfl⟩
  · cases h

/-- The answer to a push whose tag could not be written to the sidecar. -/
def Response.refusesTag (resp : Response) : Bool :=
  match resp.body with
  | .error _ (.internal (.localTags _)) => true
  | _ => false

theorem collectBody_cases (body : Option Bytes) (maxBytes : Nat) :
    (∃ b, body = some b ∧ collectBody body maxBytes = .ok b) ∨
    ∃ resp, collectBody body maxBytes = .error resp ∧ resp.status ≠ .created ∧
      resp.refusesTag = false := by
  cases body with
  | none => exact Or.inr ⟨_, rfl, by decide, rfl⟩
  | some b =>
    unfold collectBody
    by_cases hlen : b.length > maxBytes
    · exact Or.inr ⟨_, if_pos hlen, by decide, rfl⟩
    · exact Or.inl ⟨b, rfl, if_neg hlen⟩

/-- The steps of a push that stores its manifest and fails to write the sidecar. -/
inductive Refused (S : Setup) (repo tag : Str) (b : Bytes) (w w' : World S) : Prop
  | steps {w₀ w₁ w₂ : World S} {m : BlobMeta} {e : LocalTagsError} (hensure : Ambient w w₀)
      (hcheck : (checkManifestBlobsPresent repo b).exec w₀ = (.ok none, w₁))
      (hput : (putBlobBuffered repo (S.digest b) b).exec w₁ = (.ok m, w₂))
      (hset : (LocalTags.set repo tag (S.digest b)).exec w₂ = (.error e, w'))

/-- Storing a checked manifest under a tag: nothing more than the effects of a pull, or the manifest
is stored, and the update of the tag succeeds or fails. -/
theorem exec_storeManifest {w w' : World S} {tag : Str} {e : DigestError} {contentType : Option Str}
    {b : Bytes} {resp : Response} (htag : Digest.parse tag = .error e)
    (h : (storeManifest repo tag contentType b : Handler S).exec w = (.ok resp, w')) :
    (resp.status ≠ .created ∧ resp.refusesTag = false ∧ (Along S repo pullKinds).rel w w') ∨
    ∃ w₂ m, (putBlobBuffered repo (S.digest b) b).exec w = (.ok m, w₂) ∧
      ((resp.status = .created ∧
          (LocalTags.set repo tag (S.digest b)).exec w₂ = (.ok (), w')) ∨
        ∃ err, resp = internalErr (.localTags err) ∧
          (LocalTags.set repo tag (S.digest b)).exec w₂ = (.error err, w')) := by
  have hput : Moves (Along S repo pullKinds) (putBlobBuffered repo (S.digest b) b) :=
    putBlobBuffered_along (Or.inl rfl) (Or.inr (Or.inl rfl)) (Or.inr (Or.inr rfl)) _ b
  obtain ⟨r, w₂, hr, h⟩ := Prog.exec_bind_eq_ok.mp h
  have hrun := Prog.exec_attempt_eq.mp hr
  cases r with
  | error err =>
    cases h
    exact Or.inl ⟨show Status.internalServerError ≠ .created by decide, rfl, hput.rel_of_exec hrun⟩
  | ok m =>
    simp only [htag] at h
    obtain ⟨r', w₃, hr', h⟩ := Prog.exec_bind_eq_ok.mp h
    have hset := Prog.exec_attempt_eq.mp hr'
    refine Or.inr ⟨w₂, m, hrun, ?_⟩
    cases r' with
    | error err =>
      cases h
      exact Or.inr ⟨err, rfl, hset⟩
    | ok u =>
      obtain ⟨rfl, rfl⟩ := exec_build_eq_ok h
      exact Or.inl ⟨rfl, hset⟩

/-- A push to a tag: turned down with no more than the effects of a pull, carried out, or
refused by the tag store. -/
theorem exec_putManifest {w w' : World S} {tag : Str} {e : DigestError} {contentType : Option Str}
    {body : Option Bytes} {resp : Response} (htag : Digest.parse tag = .error e)
    (h : (putManifest repo tag contentType body : Handler S).exec w = (.ok resp, w')) :
    (resp.status ≠ .created ∧ resp.refusesTag = false ∧ (Along S repo pullKinds).rel w w') ∨
    (resp.status = .created ∧ ∃ b, body = some b ∧ Pushed S repo tag b w w') ∨
    ∃ err b, resp = internalErr (.localTags err) ∧ body = some b ∧ Refused S repo tag b w w' := by
  have hamb : Ambient w ((ensureRepo repo).exec w).2 := ensureRepo_ambient repo w
  obtain ⟨r, w₀, hr, h⟩ := Prog.exec_bind_eq_ok.mp h
  rw [Prog.exec_attempt_eq.mp hr] at hamb
  have halong : (Along S repo pullKinds).rel w w₀ := hamb.along (Or.inl rfl)
  cases r with
  | error err =>
    cases h
    exact Or.inl ⟨show Status.internalServerError ≠ .created by decide, rfl, halong⟩
  | ok u =>
    rcases collectBody_cases body 33554432 with ⟨b, hbody, hcoll⟩ | ⟨resp', hcoll, hne, hrefuses⟩
    · simp only [hcoll, htag, Except.toOption, Option.filter_none] at h
      obtain ⟨missing, w₁, hcheck, h⟩ := Prog.exec_bind_eq_ok.mp h
      have hcheck' : (Along S repo pullKinds).rel w₀ w₁ :=
        (checkManifestBlobsPresent_along (fun _ hk => hk) b).rel_of_exec hcheck
      cases missing with
      | some text =>
        cases h
        exact Or.inl ⟨show Status.badRequest ≠ .created by decide, rfl,
          (Along S repo pullKinds).trans halong hcheck'⟩
      | none =>
        rcases exec_storeManifest htag h with
          ⟨hne, hrefuses, hpull⟩ | ⟨w₂, m, hput, ⟨hcreated, hset⟩ | ⟨err, hresp, hset⟩⟩
        · exact Or.inl ⟨hne, hrefuses, (Along S repo pullKinds).trans halong
            ((Along S repo pullKinds).trans hcheck' hpull)⟩
        · exact Or.inr (Or.inl ⟨hcreated, b, hbody, .steps hamb hcheck hput hset⟩)
        · exact Or.inr (Or.inr ⟨err, b, hresp, hbody, .steps hamb hcheck hput hset⟩)
    · simp only [hcoll] at h
      cases h
      exact Or.inl ⟨hne, hrefuses, halong⟩

/-- What a push leaves: the manifest in the store, the tag in the map and in the sidecar. -/
structure PushResult (S : Setup) (repo tag : Str) (b : Bytes) (w w' : World S) : Prop where
  keeps : Keeps {localTagsPath S.root repo} w w'
  tags : ∃ pushedAt, w'.localTags = w.localTags.insert (repo, tag) ⟨(S.digest b).toStr, pushedAt⟩
  file : w'.fs.isFile (blobPath S.root repo (S.digest b)) = true
  stored : b ∈ w'.log.stored
  dirs : DirsAbove S w'.fs repo
  sidecar : w'.fs.read (localTagsPath S.root repo) =
    some (S.serde.tagsToVec (snapshot w'.localTags repo))

/-- The two ends of an update of a tag. The map changes in both. -/
theorem exec_setTag_cases (w : World S) (repo tag : Str) (d : Digest) :
    ∃ pushedAt w', w'.localTags = w.localTags.insert (repo, tag) ⟨d.toStr, pushedAt⟩ ∧
      (((LocalTags.set repo tag d).exec w = (.ok (), w') ∧ Keeps {localTagsPath S.root repo} w w' ∧
          w'.fs.read (localTagsPath S.root repo) =
            some (S.serde.tagsToVec (snapshot w'.localTags repo))) ∨
        ∃ e, (LocalTags.set repo tag d).exec w = (.error e, w') ∧ Keeps ∅ w w' ∧
          w'.log.ioFailed = true) := by
  let w₁ : World S := { w with
    wall := w.wall.tail, localTags := w.localTags.insert (repo, tag) ⟨d.toStr, w.wall.headD 0⟩ }
  obtain ⟨w', htags, -, ⟨he, hkeep, hfile⟩ | ⟨e, he, hkeep, hfailed, -⟩⟩ :=
    exec_writeSidecar_keeps w₁ repo (snapshot w₁.localTags repo)
  · refine ⟨w.wall.headD 0, w', htags, Or.inl ⟨he, hkeep.of_memory rfl rfl rfl, ?_⟩⟩
    rw [htags]
    exact hfile
  · exact ⟨w.wall.headD 0, w', htags, Or.inr ⟨e, he, hkeep.of_memory rfl rfl rfl, hfailed⟩⟩

/-- Setting a tag keeps everything but the sidecar. -/
theorem exec_setTag_keeps {w w' : World S} {tag : Str} {d : Digest}
    (h : (LocalTags.set repo tag d).exec w = (.ok (), w')) :
    Keeps {localTagsPath S.root repo} w w' ∧
      (∃ pushedAt, w'.localTags = w.localTags.insert (repo, tag) ⟨d.toStr, pushedAt⟩) ∧
      w'.fs.read (localTagsPath S.root repo) =
        some (S.serde.tagsToVec (snapshot w'.localTags repo)) := by
  obtain ⟨pushedAt, w₂, htags, ⟨he, hkeep, hfile⟩ | ⟨e, he, -⟩⟩ := exec_setTag_cases w repo tag d
  · cases he.symm.trans h
    exact ⟨hkeep, ⟨pushedAt, htags⟩, hfile⟩
  · cases he.symm.trans h

/-- A failed update changes the map and keeps all files. -/
theorem exec_setTag_error {w w' : World S} {tag : Str} {d : Digest} {e : LocalTagsError}
    (h : (LocalTags.set repo tag d).exec w = (.error e, w')) :
    Keeps ∅ w w' ∧ (∃ pushedAt, w'.localTags = w.localTags.insert (repo, tag) ⟨d.toStr, pushedAt⟩) ∧
      w'.log.ioFailed = true := by
  obtain ⟨pushedAt, w₂, htags, ⟨he, -⟩ | ⟨e, he, hkeep, hfailed⟩⟩ := exec_setTag_cases w repo tag d
  · cases he.symm.trans h
  · cases he.symm.trans h
    exact ⟨hkeep, ⟨pushedAt, htags⟩, hfailed⟩

/-- Up to the update of the tag a push has the effects of a pull. -/
theorem stored_along {b : Bytes} {m : BlobMeta} {w w₀ w₁ w₂ : World S} (hensure : Ambient w w₀)
    (hcheck : (checkManifestBlobsPresent repo b).exec w₀ = (.ok none, w₁))
    (hput : (putBlobBuffered repo (S.digest b) b).exec w₁ = (.ok m, w₂)) :
    (Along S repo pullKinds).rel w w₂ := by
  refine (Along S repo pullKinds).trans (hensure.along (Or.inl rfl)) ?_
  refine (Along S repo pullKinds).trans
    ((checkManifestBlobsPresent_along (fun _ hk => hk) b).rel_of_exec hcheck) ?_
  exact (putBlobBuffered_along (Or.inl rfl) (Or.inr (Or.inl rfl)) (Or.inr (Or.inr rfl)) _
    b).rel_of_exec hput

theorem Pushed.result {tag : Str} {b : Bytes} {w w' : World S} (h : Pushed S repo tag b w w')
    (hdata : DataNamed w) : PushResult S repo tag b w w' := by
  obtain ⟨hensure, hcheck, hput, hset⟩ := h
  obtain ⟨-, hkeep, htags⟩ := quiet_keeps pullKinds_quiet (stored_along hensure hcheck hput) hdata
  obtain ⟨hread, hstored, hdirs⟩ := exec_putBlobBuffered_ok hput
  obtain ⟨hkeep', ⟨pushedAt, htags'⟩, hside⟩ := exec_setTag_keeps hset
  refine ⟨(hkeep.mono (Set.empty_subset _)).trans hkeep', ⟨pushedAt, by rw [htags', htags]⟩, ?_,
    hkeep'.stored hstored, hdirs.keeps hkeep', hside⟩
  exact hkeep'.blobs _ (isBlobName_blobPath _ _ _) (blobPath_ne_localTagsPath _ _ _ _)
    (by simp [Fs.isFile, hread])

theorem Refused.failed {tag : Str} {b : Bytes} {w w' : World S} (h : Refused S repo tag b w w') :
    w'.log.ioFailed = true := by
  obtain ⟨-, -, -, hset⟩ := h
  exact (exec_setTag_error hset).2.2

/-- What a refused push leaves: the tag in the map, and all files. -/
theorem Refused.result {tag : Str} {b : Bytes} {w w' : World S} (h : Refused S repo tag b w w')
    (hdata : DataNamed w) : Keeps ∅ w w' ∧
      ∃ pushedAt, w'.localTags = w.localTags.insert (repo, tag) ⟨(S.digest b).toStr, pushedAt⟩ := by
  obtain ⟨hensure, hcheck, hput, hset⟩ := h
  obtain ⟨-, hkeep, htags⟩ := quiet_keeps pullKinds_quiet (stored_along hensure hcheck hput) hdata
  obtain ⟨hkeep', ⟨pushedAt, htags'⟩, -⟩ := exec_setTag_error hset
  exact ⟨hkeep.trans hkeep', pushedAt, by rw [htags', htags]⟩

/-! ## Removals -/

/-- The tags of a list are gone from the map, and the sidecar follows. -/
structure Untagged (S : Setup) (repo : Str) (tags : List Str) (w w' : World S) : Prop where
  lookup : ∀ r t, w'.localTags.lookup (r, t) =
    if r = repo ∧ t ∈ tags then none else w.localTags.lookup (r, t)
  keeps : Keeps {localTagsPath S.root repo} w w'
  sidecar : (w'.localTags = w.localTags ∧ w'.fs = w.fs) ∨
    ((∃ tag m, w.localTags.lookup (repo, tag) = some m) ∧
      w'.fs.read (localTagsPath S.root repo) = some (S.serde.tagsToVec (snapshot w'.localTags repo)))

theorem Untagged.refl (w : World S) : Untagged S repo [] w w :=
  ⟨fun r t => by simp, .refl _ _, Or.inl ⟨rfl, rfl⟩⟩

theorem Untagged.trans {tags tags' : List Str} {w w' w'' : World S} (h : Untagged S repo tags w w')
    (g : Untagged S repo tags' w' w'') : Untagged S repo (tags ++ tags') w w'' := by
  refine ⟨fun r t => ?_, h.keeps.trans g.keeps, ?_⟩
  · rw [g.lookup, h.lookup]
    by_cases hr : r = repo
    · by_cases ht : t ∈ tags' <;> simp [hr, ht]
    · simp [hr]
  · rcases g.sidecar with ⟨htags, hfs⟩ | ⟨⟨tag, m, hm⟩, hread⟩
    · rw [htags, hfs]
      exact h.sidecar
    · refine Or.inr ⟨⟨tag, m, ?_⟩, hread⟩
      rw [h.lookup] at hm
      split at hm
      · cases hm
      · exact hm

/-- The ends of a removal: there is no tag, or the map changes, and the sidecar with it or not. -/
theorem exec_removeTag_cases (w : World S) (repo tag : Str) :
    (w.localTags.lookup (repo, tag) = none ∧ (LocalTags.remove repo tag).exec w = (.ok false, w)) ∨
    ∃ m w', w.localTags.lookup (repo, tag) = some m ∧
      w'.localTags = w.localTags.erase (repo, tag) ∧ (Writable S w.fs repo → Writable S w'.fs repo) ∧
      (((LocalTags.remove repo tag).exec w = (.ok true, w') ∧ Keeps {localTagsPath S.root repo} w w' ∧
          w'.fs.read (localTagsPath S.root repo) =
            some (S.serde.tagsToVec (snapshot w'.localTags repo))) ∨
        ∃ e, (LocalTags.remove repo tag).exec w = (.error e, w') ∧ ¬ Carries repo w w') := by
  cases hlook : w.localTags.lookup (repo, tag) with
  | none => exact Or.inl ⟨rfl, by simp [LocalTags.remove, Prog.exec_bind, hlook]⟩
  | some m =>
    let w₁ : World S := { w with localTags := w.localTags.erase (repo, tag) }
    have hexec : (LocalTags.remove repo tag).exec w =
        ((writeSidecar repo (snapshot w₁.localTags repo) >>= fun _ => pure true).exec w₁) := by
      simp only [LocalTags.remove, Prog.exec_bind, Prog.exec_get, hlook, Prog.exec_modify]
      rfl
    obtain ⟨w', htags, hwritable, ⟨he, hkeep, hfile⟩ | ⟨e, he, -, -, hnot⟩⟩ :=
      exec_writeSidecar_keeps w₁ repo (snapshot w₁.localTags repo)
    · refine Or.inr ⟨m, w', rfl, htags, hwritable, Or.inl ⟨?_, hkeep.of_memory rfl rfl rfl, ?_⟩⟩
      · rw [hexec, Prog.exec_bind_ok he]
        rfl
      · rw [htags]
        exact hfile
    · refine Or.inr ⟨m, w', rfl, htags, hwritable, Or.inr ⟨e, ?_, hnot⟩⟩
      rw [hexec, Prog.exec_bind_error he]

/-- Removing one tag. -/
theorem exec_remove_untagged {w w' : World S} {tag : Str} {r : Except LocalTagsError Bool}
    (h : (LocalTags.remove repo tag).exec w = (r, w')) (hcarries : Carries repo w w') :
    Untagged S repo [tag] w w' ∧ (Writable S w.fs repo → Writable S w'.fs repo) := by
  rcases exec_removeTag_cases w repo tag with ⟨hnone, he⟩ | ⟨m, w₁, hsome, htags, hwritable, hend⟩
  · cases he.symm.trans h
    refine ⟨⟨fun r t => ?_, .refl _ _, Or.inl ⟨rfl, rfl⟩⟩, id⟩
    split
    · rename_i hk
      obtain ⟨rfl, ht⟩ := hk
      rw [List.mem_singleton.mp ht, hnone]
    · rfl
  · rcases hend with ⟨he, hkeep, hfile⟩ | ⟨e, he, hnot⟩
    · cases he.symm.trans h
      refine ⟨⟨fun r t => ?_, hkeep, Or.inr ⟨⟨tag, m, hsome⟩, hfile⟩⟩, hwritable⟩
      rw [htags]
      by_cases hk : (r, t) = (repo, tag)
      · cases hk
        simp
      · rw [AList.lookup_erase_ne hk, if_neg]
        rintro ⟨rfl, ht⟩
        exact hk (by rw [List.mem_singleton.mp ht])
    · cases he.symm.trans h
      exact absurd hcarries hnot

theorem exec_removeTags_untagged {w w' : World S} (tags : List Str) {r : Except Abort Unit}
    (h : (removeTags repo tags).exec w = (r, w')) (hcarries : Carries repo w w') :
    Untagged S repo tags w w' := by
  induction tags generalizing w with
  | nil =>
    cases h
    exact .refl _
  | cons tag tags ih =>
    cases he : (LocalTags.remove repo tag).exec w with
    | mk x w₁ =>
      have hrun : (removeTags repo (tag :: tags)).exec w = (removeTags repo tags).exec w₁ :=
        Prog.exec_bind_ok (Prog.exec_attempt_eq.mpr he)
      have hrest : (removeTags repo tags).exec w₁ = (r, w') := hrun.symm.trans h
      have hfirst : Carries repo w w₁ := hcarries.imp_left fun hfailed => by
        refine Bool.eq_false_iff.mpr fun hf => ?_
        rw [(ih hrest (Or.inl hfailed)).keeps.failed hf] at hfailed
        cases hfailed
      obtain ⟨hone, hwritable⟩ := exec_remove_untagged he hfirst
      exact hone.trans (ih hrest (hcarries.imp_right hwritable))

/-- The tags of a repository that a deletion by digest removes. -/
def tagsOf (map : TagMap) (repo : Str) (d : Digest) : List Str :=
  (listForRepo map repo).filterMap fun e => if e.2.digest = d.toStr then some e.1 else none

theorem mem_tagsOf {map : TagMap} {d : Digest} {tag : Str} :
    tag ∈ tagsOf map repo d ↔ ∃ m, map.lookup (repo, tag) = some m ∧ m.digest = d.toStr := by
  unfold tagsOf
  simp only [List.mem_filterMap, Option.ite_none_right_eq_some, Option.some.injEq]
  constructor
  · rintro ⟨⟨t, m⟩, hmem, hd, rfl⟩
    exact ⟨m, mem_listForRepo.mp hmem, hd⟩
  · rintro ⟨m, hlook, hd⟩
    exact ⟨(tag, m), mem_listForRepo.mpr hlook, hd, rfl⟩

/-- Deleting a blob keeps the others; without a file to delete, it keeps everything. -/
theorem exec_deleteBlob_keeps {w w' : World S} {d : Digest} {r : Except StorageError Unit}
    (h : (deleteBlob repo d).exec w = (r, w')) :
    w'.localTags = w.localTags ∧ Keeps {blobPath S.root repo d} w w' ∧
      (r ≠ .ok () → Keeps ∅ w w') := by
  rcases exec_deleteBlob w repo d with ⟨b, hb, he⟩ | ⟨hnone, he⟩ | he
  · cases he.symm.trans h
    have hfs : Spares {blobPath S.root repo d} w.fs (w.fs.del (blobPath S.root repo d)) :=
      Spares.del (Or.inr rfl) (Fs.node_ne_dir_of_read hb)
    exact ⟨rfl, .of_spares hfs (fun p hp _ hn => absurd hp hn) (fun p hp _ => hp)
      (List.Subset.refl _) id le_rfl, fun hne => absurd rfl hne⟩
  · cases he.symm.trans h
    have hkeep : Keeps ∅ w { w with metaCache := w.metaCache.erase (repo, d) } :=
      .of_spares (.refl ∅ w.fs) (fun _ h => h.elim) (fun _ h => h.elim) (List.Subset.refl _) id le_rfl
    exact ⟨rfl, hkeep.mono (Set.empty_subset _), fun _ => hkeep⟩
  · cases he.symm.trans h
    have hkeep : Keeps ∅ w w.failed :=
      .of_spares (.refl ∅ w.fs) (fun _ h => h.elim) (fun _ h => h.elim) (List.Subset.refl _)
        (fun _ => rfl) le_rfl
    exact ⟨rfl, hkeep.mono (Set.empty_subset _), fun _ => hkeep⟩

/-! ## Requests -/

/-- What a served request changes. -/
inductive Change (S : Setup) (req : Request) (resp : Response) (w w' : World S) : Prop
  | quiet (hcommand : req.command = .other ∨
        ∃ repo tag, req.command = .push repo tag ∧ resp.status ≠ .created)
      (h : (Along S (split req.rest).1 quietKinds).rel w w')
  | pushed {repo tag : Str} {b : Bytes} (hcommand : req.command = .push repo tag)
      (hstatus : resp.status = .created) (hbody : req.body = some b) (h : Pushed S repo tag b w w')
  | untagged {repo tag : Str} (hcommand : req.command = .untag repo tag)
      (h : Untagged S repo [tag] w w')
  | manifestDeleted {repo : Str} {d : Digest} {w₁ : World S}
      (hcommand : req.command = .deleteManifest repo d)
      (h : Untagged S repo (tagsOf w.localTags repo d) w w₁) (htags : w'.localTags = w₁.localTags)
      (hkeep : Keeps {blobPath S.root repo d} w₁ w')
  | blobDeleted {repo : Str} {d : Digest} (hcommand : req.command = .deleteBlob repo d)
      (htags : w'.localTags = w.localTags) (hkeep : Keeps {blobPath S.root repo d} w w')
      (hrefused : resp.status ≠ .accepted → Keeps ∅ w w')

theorem exec_deleteManifest_tag {w w' : World S} {tag : Str} {e : DigestError} {resp : Response}
    (htag : Digest.parse tag = .error e)
    (h : (deleteManifest repo tag : Handler S).exec w = (.ok resp, w'))
    (hcarries : Carries repo w w') : Untagged S repo [tag] w w' := by
  unfold deleteManifest at h
  simp only [htag] at h
  obtain ⟨r, w₁, hr, h⟩ := Prog.exec_bind_eq_ok.mp h
  have hrun := Prog.exec_attempt_eq.mp hr
  have hw : w' = w₁ := by
    rcases r with err | _ | _ <;> cases h <;> rfl
  subst hw
  exact (exec_remove_untagged hrun hcarries).1

theorem exec_deleteManifest_digest {w w' : World S} {reference : Str} {d : Digest} {resp : Response}
    (hd : Digest.parse reference = .ok d)
    (h : (deleteManifest repo reference : Handler S).exec w = (.ok resp, w'))
    (hcarries : Carries repo w w') :
    ∃ w₁, Untagged S repo (tagsOf w.localTags repo d) w w₁ ∧ w'.localTags = w₁.localTags ∧
      Keeps {blobPath S.root repo d} w₁ w' := by
  unfold deleteManifest at h
  simp only [hd] at h
  obtain ⟨v, w₀, hget, h⟩ := Prog.exec_bind_eq_ok.mp h
  cases hget
  obtain ⟨u, w₁, hremove, h⟩ := Prog.exec_bind_eq_ok.mp h
  obtain ⟨r, w₂, hr, h⟩ := Prog.exec_bind_eq_ok.mp h
  have hw : w' = w₂ := by
    rcases r with (_ | _ | _) | _ <;> cases h <;> rfl
  subst hw
  obtain ⟨htags, hkeep, -⟩ := exec_deleteBlob_keeps (Prog.exec_attempt_eq.mp hr)
  have hcarries₁ : Carries repo w w₁ := hcarries.imp_left fun hfailed => by
    refine Bool.eq_false_iff.mpr fun hf => ?_
    rw [hkeep.failed hf] at hfailed
    cases hfailed
  exact ⟨w₁, exec_removeTags_untagged _ hremove hcarries₁, htags, hkeep⟩

theorem exec_deleteBlobRoute {w w' : World S} {digest : Str} {d : Digest} {resp : Response}
    (hd : Digest.parse digest = .ok d)
    (h : (deleteBlobRoute repo digest : Handler S).exec w = (.ok resp, w')) :
    w'.localTags = w.localTags ∧ Keeps {blobPath S.root repo d} w w' ∧
      (resp.status ≠ .accepted → Keeps ∅ w w') := by
  unfold deleteBlobRoute at h
  simp only [hd] at h
  obtain ⟨r, w₁, hr, h⟩ := Prog.exec_bind_eq_ok.mp h
  obtain ⟨htags, hkeep, hrefused⟩ := exec_deleteBlob_keeps (Prog.exec_attempt_eq.mp hr)
  have hend : w' = w₁ ∧ (resp.status ≠ .accepted → r ≠ .ok ()) := by
    rcases r with (_ | _ | _) | _ <;> cases h <;> refine ⟨rfl, fun hne => ?_⟩
    · intro hr
      cases hr
    · intro hr
      cases hr
    · intro hr
      cases hr
    · exact absurd rfl hne
  obtain ⟨rfl, hend⟩ := hend
  exact ⟨htags, hkeep, fun hne => hrefused (hend hne)⟩

/-- A command other than `other` comes from a manifest or a blob of a named repository. -/
theorem command_cases (req : Request) :
    req.command = .other ∨
    ((split req.rest).1 ≠ [] ∧
      ((∃ r, (split req.rest).2 = .manifest r ∧
        ((∃ e, Digest.parse r = .error e ∧ req.method = .put ∧
            req.command = .push (split req.rest).1 r) ∨
          (∃ e, Digest.parse r = .error e ∧ req.method = .delete ∧
            req.command = .untag (split req.rest).1 r) ∨
          ∃ d, Digest.parse r = .ok d ∧ req.method = .delete ∧
            req.command = .deleteManifest (split req.rest).1 d)) ∨
      ∃ t d, (split req.rest).2 = .blob t ∧ Digest.parse t = .ok d ∧ req.method = .delete ∧
        req.command = .deleteBlob (split req.rest).1 d)) := by
  by_cases hrepo : (split req.rest).1 = []
  · exact Or.inl (if_pos hrepo)
  · have hroute : req.command = routeCommand req.method (split req.rest).1 (split req.rest).2 :=
      if_neg hrepo
    cases haction : (split req.rest).2 with
    | manifest r =>
      rw [hroute, haction]
      cases hd : Digest.parse r with
      | error e =>
        cases hm : req.method <;> simp [routeCommand, manifestCommand, hd, hrepo]
      | ok d =>
        cases hm : req.method <;> simp [routeCommand, manifestCommand, hd, hrepo]
    | blob t =>
      rw [hroute, haction]
      cases hd : Digest.parse t with
      | error e =>
        cases hm : req.method <;> simp [routeCommand, blobCommand, hd]
      | ok d =>
        cases hm : req.method <;> simp [routeCommand, blobCommand, hd, hrepo]
    | _ =>
      rw [hroute, haction]
      exact Or.inl rfl

/-- The repository a command is about. -/
def Command.repo? : Command → Option Str
  | .push repo _ => some repo
  | .untag repo _ => some repo
  | .deleteManifest repo _ => some repo
  | .deleteBlob repo _ => some repo
  | .other => none

theorem repo_of_command {req : Request} (h : req.command.repo? = some repo) :
    repo = (split req.rest).1 ∧ repo ≠ [] := by
  rcases command_cases req with hc | ⟨hne, ⟨r, -, hc⟩ | ⟨t, d, -, -, -, hc⟩⟩
  · rw [hc] at h
    cases h
  · rcases hc with ⟨e, -, -, hc⟩ | ⟨e, -, -, hc⟩ | ⟨d, -, -, hc⟩ <;>
      · rw [hc] at h
        cases h
        exact ⟨rfl, hne⟩
  · rw [hc] at h
    cases h
    exact ⟨rfl, hne⟩

theorem dispatch_named {req : Request} (hrepo : (split req.rest).1 ≠ []) :
    (dispatch req : Handler S) = route req (split req.rest).1 (split req.rest).2 := by
  have hcat : req.rest ≠ "_catalog".toList := by
    intro h
    rw [h] at hrepo
    exact hrepo (by decide)
  exact (if_neg hcat).trans (if_neg hrepo)

/-- The repository whose tags a command can remove. -/
def Command.removesFrom : Command → Option Str
  | .untag repo _ => some repo
  | .deleteManifest repo _ => some repo
  | _ => none

/-- What a request does, if it is no deletion that fails to write a sidecar: a change, or a push that
the tag store refuses. -/
theorem dispatch_cases {req : Request} {resp : Response} {w w' : World S}
    (h : (dispatch req : Handler S).exec w = (.ok resp, w'))
    (hcarries : ∀ repo, req.command.removesFrom = some repo → Carries repo w w') :
    (Change S req resp w w' ∧
      (resp.status ≠ .created → ∀ repo tag, req.command = .push repo tag → resp.refusesTag = false)) ∨
    ∃ repo tag b e, req.command = .push repo tag ∧ req.body = some b ∧
      resp = internalErr (.localTags e) ∧ Refused S repo tag b w w' := by
  rcases command_cases req with hother | ⟨hrepo, ⟨r, haction, hcases⟩ | ⟨t, d, haction, hd, hm, hc⟩⟩
  · refine Or.inl ⟨.quiet (Or.inl hother) ?_, fun _ _ _ hc => ?_⟩
    · refine Moves.rel_of_exec (dispatch_along pullKinds_quiet (by simp [quietKinds]) req
        (fun _ _ => by simp [quietKinds]) ?_) h
      rw [hother]
      exact Set.empty_subset _
    · cases hother.symm.trans hc
  · rw [dispatch_named hrepo, haction] at h
    rcases hcases with ⟨e, he, hm, hc⟩ | ⟨e, he, hm, hc⟩ | ⟨d, hd, hm, hc⟩
    · simp only [route, hm] at h
      rcases exec_putManifest he h with
        ⟨hne, hrefuses, hpull⟩ | ⟨hcreated, b, hbody, hpush⟩ | ⟨err, b, hresp, hbody, hrefused⟩
      · refine Or.inl ⟨.quiet (Or.inr ⟨_, _, hc, hne⟩) ?_, fun _ _ _ _ => hrefuses⟩
        refine Evolution.star_rel ?_ hpull
        rintro v v' ⟨k, hk, heff⟩
        exact heff.along (pullKinds_quiet hk)
      · exact Or.inl ⟨.pushed hc hcreated hbody hpush, fun hne => absurd hcreated hne⟩
      · exact Or.inr ⟨_, _, b, err, hc, hbody, hresp, hrefused⟩
    · simp only [route, hm] at h
      have hun := exec_deleteManifest_tag he h (hcarries _ (by rw [hc]; rfl))
      exact Or.inl ⟨.untagged hc hun, fun _ _ _ hpush => by cases hc.symm.trans hpush⟩
    · simp only [route, hm] at h
      obtain ⟨w₁, hun, htags, hkeep⟩ := exec_deleteManifest_digest hd h (hcarries _ (by rw [hc]; rfl))
      exact Or.inl ⟨.manifestDeleted hc hun htags hkeep,
        fun _ _ _ hpush => by cases hc.symm.trans hpush⟩
  · rw [dispatch_named hrepo, haction] at h
    simp only [route, hm] at h
    obtain ⟨htags, hkeep, hrefused⟩ := exec_deleteBlobRoute hd h
    exact Or.inl ⟨.blobDeleted hc htags hkeep hrefused, fun _ _ _ hpush => by cases hc.symm.trans hpush⟩

/-- What a request does when no file-system step failed. -/
theorem dispatch_change {req : Request} {resp : Response} {w w' : World S}
    (h : (dispatch req : Handler S).exec w = (.ok resp, w')) (hfailed : w'.log.ioFailed = false) :
    Change S req resp w w' := by
  rcases dispatch_cases h fun _ _ => Or.inl hfailed with ⟨hchange, -⟩ | ⟨_, _, _, _, -, -, -, hrefused⟩
  · exact hchange
  · rw [hrefused.failed] at hfailed
    cases hfailed

end Quill.Registry
