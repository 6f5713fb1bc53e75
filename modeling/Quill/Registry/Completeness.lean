import Quill.Registry.Sidecars

/-!
# Pushed images and garbage collection

A run interleaves the requests of one server with runs of `quill gc` on the same root
(`Interleaved`), which the server does not observe: its metadata cache may go on
answering for a blob that was collected. So a push can be accepted although a layer is gone
(`stale_entry_accepts_push`).

When every fresh entry of the cache that a push consults stands for a file
(`CacheCurrent`), the pushed manifest and the blobs it refers to stay on disk as long as the tag does
(`pushed_image_complete`): the tag is in the sidecar, so the collector marks them.
-/

namespace Quill.Registry

open Text Files Cas World LocalStorage Uploads LocalTags

variable {S : Setup} {repo tag : Str}

/-! ## Runs of two processes -/

/-- A request with its answer, or a run of `quill gc`. -/
inductive Event where
  | served (req : Request) (resp : Response)
  | collected (dryRun : Bool)

/-- The world after a run of `quill gc`. -/
def afterGc (w : World S) (dryRun : Bool) : World S :=
  { w with fs := (Gc.run S w.fs .none [] dryRun).2 }

/-- A server started on an empty root, interleaved with runs of `quill gc`. Every request
meets the guard `G` when it starts. -/
inductive Interleaved (S : Setup) (ticks wall : List Nat) (G : World S → Request → Prop) :
    List Event → World S → Prop
  | start : Interleaved S ticks wall G [] (World.start S ticks wall)
  | serve {es : List Event} {w w' : World S} {req : Request} {resp : Response}
      (h : Interleaved S ticks wall G es w) (hguard : G w req)
      (hrun : (dispatch req : Handler S).exec w = (.ok resp, w')) :
      Interleaved S ticks wall G (es ++ [.served req resp]) w'
  | collect {es : List Event} {w : World S} (h : Interleaved S ticks wall G es w) (dryRun : Bool) :
      Interleaved S ticks wall G (es ++ [.collected dryRun]) (afterGc w dryRun)

/-- The body of the last push to a tag, unless the tag was deleted since or a blob or a manifest of
the repository was deleted by digest. -/
def imageStep (repo tag : Str) (last : Option Bytes) : Event → Option Bytes
  | .collected _ => last
  | .served req resp =>
    match req.command with
    | .push r t => if r = repo ∧ t = tag ∧ resp.status = .created then req.body else last
    | .untag r t => if r = repo ∧ t = tag then none else last
    | .deleteManifest r _ => if r = repo then none else last
    | .deleteBlob r _ => if r = repo then none else last
    | .other => last

/-- The manifest that was pushed last to the tag, if no deletion came after it. -/
def lastImage (repo tag : Str) (es : List Event) : Option Bytes := es.foldl (imageStep repo tag) none

theorem lastImage_append (repo tag : Str) (es : List Event) (e : Event) :
    lastImage repo tag (es ++ [e]) = imageStep repo tag (lastImage repo tag es) e := by
  simp [lastImage]

/-- The digests that a manifest must find: `config.digest` and `layers[*].digest`. -/
def requiredTexts (S : Setup) (b : Bytes) : List Str :=
  match S.serde.fromSlice b with
  | some v => Manifest.requiredBlobs v
  | none => []

/-- The manifest and every blob it requires are files of the repository. -/
def ImageOnDisk (S : Setup) (fs : Fs) (repo : Str) (b : Bytes) : Prop :=
  fs.isFile (blobPath S.root repo (S.digest b)) = true ∧
    ∀ text ∈ requiredTexts S b, ∃ d, Digest.parse text = .ok d ∧
      fs.isFile (blobPath S.root repo d) = true

/-! ## The reference check -/

/-- The entries of the cache that are still fresh stand for files. -/
def EntriesCurrent (w : World S) (repo : Str) (texts : List Str) : Prop :=
  ∀ text ∈ texts, ∀ d, Digest.parse text = .ok d → ∀ m, w.metaCache.lookup (repo, d) = some m →
    w.now - m.cachedAt < S.metaTtl → w.fs.isFile (blobPath S.root repo d) = true

/-- A push finds no fresh entry of a blob it requires whose file is gone. -/
def CacheCurrent (w : World S) (req : Request) : Prop :=
  ∀ repo tag b, req.command = .push repo tag → req.body = some b →
    EntriesCurrent w repo (requiredTexts S b)

theorem EntriesCurrent.ambient {w w' : World S} {texts : List Str}
    (h : EntriesCurrent w repo texts) (hamb : Ambient w w') : EntriesCurrent w' repo texts := by
  intro text ht d hd m hm hfresh
  rw [hamb.cache] at hm
  have hnow := hamb.now
  have hfile := h text ht d hd m hm (by omega)
  rw [Fs.isFile, hamb.fs.read (blobPath_not_scratch _ _ _) (Set.notMem_empty _)]
  exact hfile

/-- What `blob_meta` finds is on disk, and the cache stays current. -/
theorem exec_blobMeta_current {w w' : World S} {texts : List Str} {text : Str} {d : Digest}
    {r : Except StorageError (Option BlobMeta)} (h : EntriesCurrent w repo texts) (ht : text ∈ texts)
    (hd : Digest.parse text = .ok d) (hrun : (blobMeta repo d).exec w = (r, w')) :
    EntriesCurrent w' repo texts ∧
      (∀ m, r = .ok (some m) → w'.fs.isFile (blobPath S.root repo d) = true) := by
  obtain ⟨w₁, hw₁, hout⟩ := exec_blobMeta w repo d
  have hamb := Ambient.of_tick hw₁
  have hfs : w₁.fs = w.fs := by rcases hw₁ with rfl | rfl <;> rfl
  have hcur := h.ambient hamb
  rw [hrun] at hout
  cases hout with
  | hit hlook hfresh =>
    refine ⟨hcur, fun m' hm' => ?_⟩
    have hnow := hamb.now
    rw [hfs]
    exact h text ht d hd _ hlook (by omega)
  | found hread =>
    have hfile : w.fs.isFile (blobPath S.root repo d) = true := by simp [Fs.isFile, hread]
    refine ⟨fun text' ht' d' hd' m hm hfresh => ?_, fun _ _ => hfs ▸ hfile⟩
    by_cases hkey : d' = d
    · rw [hkey]
      exact hfs ▸ hfile
    · have hne : (repo, d') ≠ (repo, d) := fun he => hkey (Prod.mk.inj he).2
      rw [World.filled, AList.lookup_insert_ne hne] at hm
      exact (hcur.ambient (Ambient.tick w₁)) text' ht' d' hd' m hm hfresh
  | isDir hnode => exact ⟨hcur, fun m hm => by cases hm⟩
  | absent hnode hblocked => exact ⟨hcur, fun m hm => by cases hm⟩
  | blocked hnode hblocked => exact ⟨hcur.ambient (Ambient.fail w₁), fun m hm => by cases hm⟩

/-- A check that finds nothing missing has found all files, in the end too. -/
theorem exec_firstMissing {w w' : World S} {texts : List Str} (hdata : DataNamed w) (rest : List Str)
    (hsub : rest ⊆ texts) (h : EntriesCurrent w repo texts)
    (hrun : (firstMissing repo rest).exec w = (.ok none, w')) :
    ∀ text ∈ rest, ∃ d, Digest.parse text = .ok d ∧
      w'.fs.isFile (blobPath S.root repo d) = true := by
  induction rest generalizing w with
  | nil => exact fun text ht => absurd ht List.not_mem_nil
  | cons text rest ih =>
    unfold firstMissing at hrun
    cases hd : Digest.parse text with
    | error e =>
      simp only [hd] at hrun
      cases hrun
    | ok d =>
      simp only [hd] at hrun
      obtain ⟨r, w₁, hr, hrun⟩ := Prog.exec_bind_eq_ok.mp hrun
      have hmeta := Prog.exec_attempt_eq.mp hr
      obtain ⟨hcur, hfile⟩ := exec_blobMeta_current h (hsub List.mem_cons_self) hd hmeta
      rcases r with e | _ | m
      · cases hrun
      · cases hrun
      · have hpull : (Along S repo pullKinds).rel w w₁ :=
          (blobMeta_along (Or.inl rfl) (Or.inr (Or.inr rfl)) d).rel_of_exec hmeta
        have hdata₁ := hdata.along hpull
        have hrest : (firstMissing repo rest).exec w₁ = (.ok none, w') := hrun
        have hcheck : (Along S repo pullKinds).rel w₁ w' :=
          (firstMissing_along (fun _ hk => hk) rest).rel_of_exec hrest
        obtain ⟨-, hkeep, -⟩ := quiet_keeps pullKinds_quiet hcheck hdata₁
        intro t ht
        rcases List.mem_cons.mp ht with rfl | ht
        · exact ⟨d, hd, hkeep.blobs _ (isBlobName_blobPath _ _ _) (Set.notMem_empty _) (hfile m rfl)⟩
        · exact ih hdata₁ (fun x hx => hsub (List.mem_cons_of_mem _ hx)) hcur hrest t ht

/-- A push that meets the guard leaves the whole image on disk. -/
theorem Pushed.imageOnDisk {b : Bytes} {w w' : World S} (h : Pushed S repo tag b w w')
    (hdata : DataNamed w) (hcur : EntriesCurrent w repo (requiredTexts S b)) : ImageOnDisk S w'.fs repo b := by
  refine ⟨(h.result hdata).file, ?_⟩
  obtain ⟨hensure, hcheck, hput, hset⟩ := h
  rename_i w₀ w₁ w₂ m
  have hdata₀ : DataNamed w₀ := fun key st hst => hdata key st (hensure.sessions ▸ hst)
  have hcheck₁ : (Along S repo pullKinds).rel w₀ w₁ :=
    (checkManifestBlobsPresent_along (fun _ hk => hk) b).rel_of_exec hcheck
  have hput₂ : (Along S repo pullKinds).rel w₁ w₂ :=
    (putBlobBuffered_along (Or.inl rfl) (Or.inr (Or.inl rfl)) (Or.inr (Or.inr rfl)) _
      b).rel_of_exec hput
  have hkeep₁ := (quiet_keeps pullKinds_quiet hput₂ (hdata₀.along hcheck₁)).2.1
  have hkeep₂ := (exec_setTag_keeps hset).1
  have hpresent : ∀ text ∈ requiredTexts S b, ∃ d, Digest.parse text = .ok d ∧
      w₁.fs.isFile (blobPath S.root repo d) = true := by
    unfold checkManifestBlobsPresent at hcheck
    cases hv : S.serde.fromSlice b with
    | none =>
      intro text ht
      simp [requiredTexts, hv] at ht
    | some v =>
      simp only [hv] at hcheck
      have htexts : requiredTexts S b = Manifest.requiredBlobs v := by simp [requiredTexts, hv]
      rw [htexts] at hcur ⊢
      exact exec_firstMissing hdata₀ _ (List.Subset.refl _) (hcur.ambient hensure) hcheck
  intro text ht
  obtain ⟨d, hd, hfile⟩ := hpresent text ht
  have hblob := isBlobName_blobPath S.root repo d
  exact ⟨d, hd, hkeep₂.blobs _ hblob (blobPath_ne_localTagsPath _ _ _ _)
    (hkeep₁.blobs _ hblob (Set.notMem_empty _) hfile)⟩

/-! ## Images that stay -/

/-- A pushed image that is on disk, with its tag in the map. -/
structure KeptImage (w : World S) (repo tag : Str) (b : Bytes) : Prop where
  plain : Plain repo
  tagged : ∃ pushedAt, w.localTags.lookup (repo, tag) = some ⟨(S.digest b).toStr, pushedAt⟩
  stored : b ∈ w.log.stored
  onDisk : ImageOnDisk S w.fs repo b

theorem KeptImage.keeps {except : Set Path} {w w' : World S} {b : Bytes}
    (h : KeptImage w repo tag b) (hkeep : Keeps except w w')
    (htag : w'.localTags.lookup (repo, tag) = w.localTags.lookup (repo, tag))
    (hexcept : ∀ d, blobPath S.root repo d ∉ except) : KeptImage w' repo tag b := by
  have hfile : ∀ d, w.fs.isFile (blobPath S.root repo d) = true →
      w'.fs.isFile (blobPath S.root repo d) = true := fun d =>
    hkeep.blobs _ (isBlobName_blobPath _ _ _) (hexcept d)
  refine ⟨h.plain, htag ▸ h.tagged, hkeep.stored h.stored, hfile _ h.onDisk.1, fun text ht => ?_⟩
  obtain ⟨d, hd, hf⟩ := h.onDisk.2 text ht
  exact ⟨d, hd, hfile d hf⟩

/-- The image that was pushed last to the tag is kept. -/
def ImageState (w : World S) (repo tag : Str) : Option Bytes → Prop
  | none => True
  | some b => KeptImage w repo tag b

theorem ImageState.keeps {except : Set Path} {w w' : World S} {last : Option Bytes}
    (h : ImageState w repo tag last) (hkeep : Keeps except w w')
    (htag : w'.localTags.lookup (repo, tag) = w.localTags.lookup (repo, tag))
    (hexcept : ∀ d, Plain repo → blobPath S.root repo d ∉ except) : ImageState w' repo tag last := by
  cases last with
  | none => trivial
  | some b => exact KeptImage.keeps h hkeep htag fun d => hexcept d h.plain

theorem imageState_step {req : Request} {resp : Response} {w w' : World S} {last : Option Bytes}
    (hchange : Change S req resp w w') (hdata : DataNamed w) (hplain : PlainRepo req)
    (hguard : CacheCurrent w req)
    (h : ImageState w repo tag last) :
    ImageState w' repo tag (imageStep repo tag last (.served req resp)) := by
  have htags : ∀ r d, blobPath S.root repo d ∉ ({localTagsPath S.root r} : Set Path) :=
    fun r d => blobPath_ne_localTagsPath S.root repo r d
  have hblobs : ∀ {r d}, Plain r → r ≠ repo → ∀ d', Plain repo →
      blobPath S.root repo d' ∉ ({blobPath S.root r d} : Set Path) :=
    fun hr hne d' hp hmem => hne ((blobPath_eq_iff hp hr).mp hmem).1.symm
  cases hchange with
  | quiet hcommand halong =>
    obtain ⟨-, hkeep, hsame⟩ := quiet_keeps (fun _ hk => hk) halong hdata
    have hstep : imageStep repo tag last (.served req resp) = last := by
      rcases hcommand with hc | ⟨r, t, hc, hne⟩
      · simp only [imageStep, hc]
      · simp [imageStep, hc, hne]
    rw [hstep]
    exact h.keeps hkeep (by rw [hsame]) fun _ _ => Set.notMem_empty _
  | @pushed r t b hcommand hstatus hbody hpush =>
    have hres := hpush.result hdata
    obtain ⟨pushedAt, hmap⟩ := hres.tags
    simp only [imageStep, hcommand]
    by_cases hkey : r = repo ∧ t = tag
    · obtain ⟨rfl, rfl⟩ := hkey
      rw [if_pos ⟨rfl, rfl, hstatus⟩, hbody]
      exact ⟨hplain.of_command (by rw [hcommand]; rfl), ⟨pushedAt, by rw [hmap, AList.lookup_insert]⟩,
        hres.stored, hpush.imageOnDisk hdata (hguard r t b hcommand hbody)⟩
    · rw [if_neg fun hk => hkey ⟨hk.1, hk.2.1⟩]
      refine h.keeps hres.keeps ?_ fun d _ => htags r d
      rw [hmap, AList.lookup_insert_ne]
      exact fun he => hkey ⟨(Prod.mk.inj he).1.symm, (Prod.mk.inj he).2.symm⟩
  | @untagged r t hcommand hun =>
    simp only [imageStep, hcommand]
    by_cases hkey : r = repo ∧ t = tag
    · rw [if_pos hkey]
      trivial
    · rw [if_neg hkey]
      refine h.keeps hun.keeps ?_ fun d _ => htags r d
      rw [hun.lookup, if_neg]
      rintro ⟨rfl, ht⟩
      exact hkey ⟨rfl, (List.mem_singleton.mp ht).symm⟩
  | @manifestDeleted r d w₁ hcommand hun hsame hkeep =>
    have hr : Plain r := hplain.of_command (by rw [hcommand]; rfl)
    simp only [imageStep, hcommand]
    by_cases hrr : r = repo
    · rw [if_pos hrr]
      trivial
    · rw [if_neg hrr]
      have hmid : ImageState w₁ repo tag last := by
        refine h.keeps hun.keeps ?_ fun d _ => htags r d
        rw [hun.lookup, if_neg fun hk => hrr hk.1.symm]
      exact hmid.keeps hkeep (by rw [hsame]) (hblobs hr hrr)
  | @blobDeleted r d hcommand hsame hkeep hrefused =>
    have hr : Plain r := hplain.of_command (by rw [hcommand]; rfl)
    simp only [imageStep, hcommand]
    by_cases hrr : r = repo
    · rw [if_pos hrr]
      trivial
    · rw [if_neg hrr]
      exact h.keeps hkeep (by rw [hsame]) (hblobs hr hrr)

/-! ## Collections -/

theorem read_of_isFile {w : World S} {b : Bytes} (h : KeptImage w repo tag b) (hintact : Intact w)
    (hcoll : CollisionFree S w.log.stored) :
    w.fs.read (blobPath S.root repo (S.digest b)) = some b := by
  obtain ⟨c, hc⟩ := Option.isSome_iff_exists.mp h.onDisk.1
  obtain ⟨hhash, hmem⟩ := hintact.blobs _ _ c (S.digest b).hex.property hc
  rw [hc, hcoll c hmem b h.stored (Subtype.ext hhash)]

/-- The manifest of a kept image is a root of the collector. -/
theorem KeptImage.mem_diskRoots {w : World S} {b : Bytes} (h : KeptImage w repo tag b)
    (hsync : Synced Plain w) : S.digest b ∈ Gc.diskRoots S w.fs repo [] := by
  obtain ⟨pushedAt, htag⟩ := h.tagged
  obtain ⟨m, hread, hlook⟩ := hsync.read_sidecar (.of_plain fun _ h => h) htag
  obtain ⟨m', hparse, hsame⟩ := S.serde.tags_roundtrip m
  obtain ⟨map, hload, hmap⟩ := loadRepo_of_read hread hparse ∅
  refine ⟨map, hload, List.mem_append_left _ (List.mem_filterMap.mpr ?_)⟩
  refine ⟨(tag, ⟨(S.digest b).toStr, pushedAt⟩), mem_listForRepo.mpr ?_, ?_⟩
  · rw [hmap, if_pos rfl, hsame, hlook, htag]
    rfl
  · rw [Digest.parse_toStr]
    rfl

/-- A collection keeps every image whose tag is in the map. -/
theorem KeptImage.collect {w : World S} {b : Bytes} (h : KeptImage w repo tag b)
    (hsync : Synced Plain w) (hintact : Intact w) (hcoll : CollisionFree S w.log.stored)
    (dryRun : Bool) : KeptImage (afterGc w dryRun) repo tag b := by
  have hroot : S.digest b ∈ Gc.Live S w.fs repo [] := .root (h.mem_diskRoots hsync)
  have hkeep : ∀ d ∈ Gc.Live S w.fs repo [], w.fs.isFile (blobPath S.root repo d) = true →
      (afterGc w dryRun).fs.isFile (blobPath S.root repo d) = true := by
    intro d hd hfile
    have hnode := Gc.run_keeps_live h.plain hd dryRun
    rw [Fs.isFile, afterGc, Fs.read_congr hnode]
    exact hfile
  refine ⟨h.plain, h.tagged, h.stored, hkeep _ hroot h.onDisk.1, fun text ht => ?_⟩
  obtain ⟨d, hd, hfile⟩ := h.onDisk.2 text ht
  refine ⟨d, hd, hkeep d (Marking.Reach.step hroot ?_) hfile⟩
  -- the text is one of the references of the manifest
  unfold Gc.refs
  rw [read_of_isFile h hintact hcoll, Option.bind_some]
  unfold requiredTexts at ht
  cases hv : S.serde.fromSlice b with
  | none => simp [hv] at ht
  | some v =>
    simp only [hv] at ht ⊢
    exact Manifest.mem_references_of_required ht hd

theorem Synced.collect {w : World S} (h : Synced Plain w) (dryRun : Bool) :
    Synced Plain (afterGc w dryRun) := by
  have hside : ∀ q, (afterGc w dryRun).fs.node (localTagsName :: q) = w.fs.node (localTagsName :: q) := by
    intro q
    rcases Gc.run_node_cases S w.fs .none [] dryRun (localTagsName :: q) with he | ⟨-, -, n, p, hp, hn⟩
    · exact he
    · cases hp
      exact absurd hn (by decide)
  have hdirs : ∀ p, w.fs.isDir p = true → (afterGc w dryRun).fs.isDir p = true := by
    intro p hp
    rcases Gc.run_node_cases S w.fs .none [] dryRun p with he | ⟨-, hfile, n, q, rfl, -⟩
    · rw [Fs.isDir, afterGc, he]
      exact hp
    · have hdir := Fs.isDir_cons.mp hp
      simp [Fs.isFile, Fs.read, hdir] at hfile
  refine ⟨fun q body hbody => ?_, fun r t m hm => ?_⟩
  · rw [Fs.read_congr (hside q)] at hbody
    exact h.sidecars q body hbody
  · obtain ⟨hr, hd, hfile⟩ := h.tagged r t m hm
    refine ⟨hr, fun q hq => hdirs q (hd q hq), ?_⟩
    rw [Fs.isFile, localTagsPath, Fs.read_congr (hside _)]
    exact hfile

/-! ## Runs -/

/-- All requests of a run are on plainly named repositories. -/
def PlainRun (es : List Event) : Prop := ∀ req resp, .served req resp ∈ es → PlainRepo req

/-- What a run keeps besides the images. -/
structure Healthy (w : World S) : Prop where
  sound : Sound w
  synced : Synced Plain w

theorem Sound.collect {w : World S} (h : Sound w) (dryRun : Bool) : Sound (afterGc w dryRun) :=
  ⟨h.intact.collect [] dryRun, h.plain⟩

/-- One request. -/
theorem healthy_step {req : Request} {resp : Response} {w w' : World S} (hplain : PlainRepo req)
    (hrun : (dispatch req : Handler S).exec w = (.ok resp, w')) (hfailed : w'.log.ioFailed = false)
    (h : Healthy w) : Healthy w' := by
  constructor
  · have hkeep := dispatch_keep (I := fun v => v.log.ioFailed = true ∨ Sound v) hplain ?_
      (Or.inr h.sound)
    · rw [hrun, hfailed] at hkeep
      exact hkeep.resolve_left Bool.false_ne_true
    · intro r k v v' hr heff hv
      cases hf : v'.log.ioFailed with
      | true => exact Or.inl rfl
      | false =>
        rcases hv with hv | hv
        · rw [heff.failed hv] at hf
          cases hf
        · exact Or.inr (hv.effect heff hr hf)
  · refine synced_step (.of_plain fun _ h => h) (dispatch_change hrun hfailed) h.sound.dataNamed
      (fun r t hc _ => ?_) h.synced
    exact hplain.of_command (by rw [hc]; rfl)

theorem stored_dispatch {req : Request} {resp : Response} {w w' : World S} (hdata : DataNamed w)
    (hrun : (dispatch req : Handler S).exec w = (.ok resp, w')) (hfailed : w'.log.ioFailed = false) :
    w.log.stored ⊆ w'.log.stored := by
  cases dispatch_change hrun hfailed with
  | quiet _ halong => exact (quiet_keeps (fun _ hk => hk) halong hdata).2.1.stored
  | pushed _ _ _ hpush => exact (hpush.result hdata).keeps.stored
  | untagged _ hun => exact hun.keeps.stored
  | manifestDeleted _ hun _ hkeep => exact List.Subset.trans hun.keeps.stored hkeep.stored
  | blobDeleted _ _ hkeep => exact hkeep.stored

theorem CollisionFree.mono {stored stored' : List Bytes} (h : CollisionFree S stored')
    (hsub : stored ⊆ stored') : CollisionFree S stored :=
  fun b hb c hc => h b (hsub hb) c (hsub hc)

theorem Interleaved.dataNamed {ticks wall : List Nat} {G : World S → Request → Prop}
    {es : List Event} {w : World S} (h : Interleaved S ticks wall G es w) : DataNamed w := by
  induction h with
  | start =>
    intro key st hst
    cases hst
  | serve _ _ hrun ih => exact dataNamed_dispatch hrun ih
  | collect _ _ ih => exact ih

/-- In a run that meets the guard, every image whose tag stands is on disk. -/
theorem Interleaved.imageState {ticks wall : List Nat} {es : List Event} {w : World S}
    (h : Interleaved S ticks wall CacheCurrent es w) (hplain : PlainRun es)
    (hfailed : w.log.ioFailed = false) (hcoll : CollisionFree S w.log.stored) :
    Healthy w ∧ ∀ repo tag, ImageState w repo tag (lastImage repo tag es) := by
  induction h with
  | start =>
    refine ⟨⟨⟨intact_start S ticks wall, fun key st hst => ?_⟩, synced_start _ S ticks wall⟩,
      fun _ _ => trivial⟩
    cases hst
  | @serve es w w' req resp _ hguard hrun ih =>
    have hbefore := not_failed_before hrun hfailed
    have hprefix : PlainRun es := fun req resp he => hplain req resp (List.mem_append_left _ he)
    have hlast : PlainRepo req := hplain req resp (by simp)
    have hdata := Interleaved.dataNamed ‹Interleaved S ticks wall CacheCurrent es w›
    obtain ⟨hhealthy, hstate⟩ := ih hprefix hbefore (hcoll.mono (stored_dispatch hdata hrun hfailed))
    refine ⟨healthy_step hlast hrun hfailed hhealthy, fun repo tag => ?_⟩
    rw [lastImage_append]
    exact imageState_step (dispatch_change hrun hfailed) hdata hlast hguard (hstate repo tag)
  | @collect es w _ dryRun ih =>
    have hprefix : PlainRun es := fun req resp he => hplain req resp (List.mem_append_left _ he)
    obtain ⟨hhealthy, hstate⟩ := ih hprefix hfailed hcoll
    refine ⟨⟨hhealthy.sound.collect dryRun, hhealthy.synced.collect dryRun⟩, fun repo tag => ?_⟩
    rw [lastImage_append]
    have hold := hstate repo tag
    simp only [imageStep]
    generalize lastImage repo tag es = last at hold
    cases last with
    | none => trivial
    | some b => exact KeptImage.collect hold hhealthy.synced hhealthy.sound.intact hcoll dryRun

/-- In every run over plainly named repositories without a file-system failure in which no push
consults a fresh cache entry of a collected blob, a pushed image is on disk as long as its tag stands. -/
theorem pushed_image_complete (S : Setup) (ticks wall : List Nat) (es : List Event) (w : World S)
    (hrun : Interleaved S ticks wall CacheCurrent es w) (hplain : PlainRun es)
    (hfailed : w.log.ioFailed = false) (hcoll : CollisionFree S w.log.stored) (repo tag : Str)
    (b : Bytes) (hlast : lastImage repo tag es = some b) : ImageOnDisk S w.fs repo b := by
  have hstate := (hrun.imageState hplain hfailed hcoll).2 repo tag
  rw [hlast] at hstate
  exact hstate.onDisk

/-! A layer is stored and its metadata cached; a collection removes it, since nothing refers to it
yet; then a manifest that refers to it is pushed. -/

def layerBytes : Bytes := Codec.utf8 "layer".toList

def putRequest (reference : Str) (body : Bytes) : Request :=
  ⟨.put, "app/manifests/".toList ++ reference, none, none, none, some body, ⟨none, none, none, none⟩⟩

def putCreated (body : Bytes) : Response :=
  ⟨.created, [(.location, "/v2/app/manifests/".toList ++ (Gc.faultSetup.digest body).toStr),
    (.dockerContentDigest, (Gc.faultSetup.digest body).toStr)], .empty⟩

def putLayer : Request := putRequest Gc.layerDigest.toStr layerBytes

def putImage : Request := putRequest "v1".toList (Codec.utf8 Gc.layerManifestText)

def layerStored : World Gc.faultSetup :=
  ((dispatch putLayer : Handler Gc.faultSetup).exec (World.start Gc.faultSetup [] [])).2

def layerCollected : World Gc.faultSetup := afterGc layerStored false

def imagePushed : World Gc.faultSetup :=
  ((dispatch putImage : Handler Gc.faultSetup).exec layerCollected).2

def collectedBetween : List Event :=
  [.served putLayer (putCreated layerBytes), .collected false,
    .served putImage (putCreated (Codec.utf8 Gc.layerManifestText))]

theorem Interleaved.of_exec {ticks wall : List Nat} {G : World S → Request → Prop} {es : List Event}
    {w : World S} {req : Request} {resp : Response} (h : Interleaved S ticks wall G es w)
    (hguard : G w req) (hresp : ((dispatch req : Handler S).exec w).1 = .ok resp) :
    Interleaved S ticks wall G (es ++ [.served req resp]) ((dispatch req : Handler S).exec w).2 :=
  .serve h hguard (Prod.ext hresp rfl)

theorem plainRepo_putLayer : PlainRepo putLayer := by decide +kernel

theorem plainRepo_putImage : PlainRepo putImage := by decide +kernel

/-- The push is answered with `201 Created` and the layer is not on disk. -/
theorem stale_entry_accepts_push :
    ¬ ∀ (S : Setup) (ticks wall : List Nat) (es : List Event) (w : World S),
      Interleaved S ticks wall (fun _ _ => True) es w → PlainRun es → w.log.ioFailed = false →
      CollisionFree S w.log.stored → ∀ repo tag b, lastImage repo tag es = some b →
      ImageOnDisk S w.fs repo b := by
  intro h
  -- one evaluation, so that the kernel runs the two requests once
  obtain ⟨hlayer, himage, hfailed, hcoll, hlast, htext, hgone⟩ :
      ((dispatch putLayer : Handler Gc.faultSetup).exec (World.start Gc.faultSetup [] [])).1 =
        .ok (putCreated layerBytes) ∧
      ((dispatch putImage : Handler Gc.faultSetup).exec layerCollected).1 =
        .ok (putCreated (Codec.utf8 Gc.layerManifestText)) ∧
      imagePushed.log.ioFailed = false ∧ CollisionFree Gc.faultSetup imagePushed.log.stored ∧
      lastImage "app".toList "v1".toList collectedBetween = some (Codec.utf8 Gc.layerManifestText) ∧
      Gc.layerDigest.toStr ∈ requiredTexts Gc.faultSetup (Codec.utf8 Gc.layerManifestText) ∧
      imagePushed.fs.isFile (blobPath Gc.faultSetup.root "app".toList Gc.layerDigest) = false := by
    decide +kernel
  have hrun₁ : Interleaved Gc.faultSetup [] [] (fun _ _ => True)
      [.served putLayer (putCreated layerBytes)] layerStored :=
    Interleaved.of_exec .start trivial hlayer
  have hrun₃ : Interleaved Gc.faultSetup [] [] (fun _ _ => True) collectedBetween imagePushed :=
    Interleaved.of_exec (hrun₁.collect false) trivial himage
  have hplain : PlainRun collectedBetween := by
    intro req resp he
    simp only [collectedBetween, List.mem_cons, List.not_mem_nil, or_false, Event.served.injEq,
      reduceCtorEq, false_or] at he
    rcases he with ⟨rfl, -⟩ | ⟨rfl, -⟩
    · exact plainRepo_putLayer
    · exact plainRepo_putImage
  obtain ⟨-, hlayers⟩ := h Gc.faultSetup [] [] collectedBetween imagePushed hrun₃ hplain hfailed hcoll
    "app".toList "v1".toList (Codec.utf8 Gc.layerManifestText) hlast
  obtain ⟨d, hd, hfile⟩ := hlayers Gc.layerDigest.toStr htext
  rw [Digest.parse_toStr] at hd
  cases hd
  cases hfile.symm.trans hgone

def imageDirect : World Gc.faultSetup :=
  ((dispatch putImage : Handler Gc.faultSetup).exec layerStored).2

/-- Pushed before the collection, the image stays. -/
theorem image_survives_collection :
    ImageOnDisk Gc.faultSetup (afterGc imageDirect false).fs "app".toList
      (Codec.utf8 Gc.layerManifestText) := by
  obtain ⟨hother, hpush, htexts⟩ : putLayer.command = .other ∧
      putImage.command = .push "app".toList "v1".toList ∧
      requiredTexts Gc.faultSetup (Codec.utf8 Gc.layerManifestText) = [Gc.layerDigest.toStr] := by
    decide +kernel
  obtain ⟨hlayer, hstored, himage, hfailed, hcoll, hlast⟩ :
      ((dispatch putLayer : Handler Gc.faultSetup).exec (World.start Gc.faultSetup [] [])).1 =
        .ok (putCreated layerBytes) ∧
      layerStored.fs.isFile (blobPath Gc.faultSetup.root "app".toList Gc.layerDigest) = true ∧
      ((dispatch putImage : Handler Gc.faultSetup).exec layerStored).1 =
        .ok (putCreated (Codec.utf8 Gc.layerManifestText)) ∧
      (afterGc imageDirect false).log.ioFailed = false ∧
      CollisionFree Gc.faultSetup (afterGc imageDirect false).log.stored ∧
      lastImage "app".toList "v1".toList ([.served putLayer (putCreated layerBytes),
        .served putImage (putCreated (Codec.utf8 Gc.layerManifestText))] ++ [.collected false]) =
        some (Codec.utf8 Gc.layerManifestText) := by
    decide +kernel
  have hcurrent₁ : CacheCurrent (World.start Gc.faultSetup [] []) putLayer := by
    intro r t b hc
    cases hother.symm.trans hc
  have hcurrent₂ : CacheCurrent layerStored putImage := by
    intro r t b hc hb text ht d hd m _ _
    cases hb
    cases hpush.symm.trans hc
    rw [htexts] at ht
    cases List.mem_singleton.mp ht
    rw [Digest.parse_toStr] at hd
    cases hd
    exact hstored
  have hrun₁ : Interleaved Gc.faultSetup [] [] CacheCurrent
      [.served putLayer (putCreated layerBytes)] layerStored :=
    Interleaved.of_exec .start hcurrent₁ hlayer
  have hrun₂ : Interleaved Gc.faultSetup [] [] CacheCurrent
      [.served putLayer (putCreated layerBytes),
        .served putImage (putCreated (Codec.utf8 Gc.layerManifestText))] imageDirect :=
    Interleaved.of_exec hrun₁ hcurrent₂ himage
  refine pushed_image_complete Gc.faultSetup [] [] _ _ (hrun₂.collect false) ?_ hfailed hcoll
    "app".toList "v1".toList _ hlast
  intro req resp he
  simp only [List.cons_append, List.nil_append, List.mem_cons, List.not_mem_nil, or_false,
    Event.served.injEq, reduceCtorEq] at he
  rcases he with ⟨rfl, -⟩ | ⟨rfl, -⟩
  · exact plainRepo_putLayer
  · exact plainRepo_putImage

end Quill.Registry
