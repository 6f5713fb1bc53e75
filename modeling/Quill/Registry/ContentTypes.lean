import Quill.Registry.Aborts

/-!
# Content types of cold and warm answers

A manifest that is fetched is answered with the content type of the upstream's reply, a manifest
of the store with the media type that is read off its bytes, and a push only echoes the
content type of the client. So a cold and a warm answer agree, and a pushed content type comes back,
exactly when it is the media type of the bytes (`content_types_agree_iff`).

`ServesStored` says when a pull ends in the store (`exec_getManifest_stored`), and a fetch without
a file-system failure leaves its manifest there (`read_of_fetched`).
-/

namespace Quill.Registry.ContentTypes

open Text Files Cas World LocalStorage Uploads LocalTags TagCache

variable {S : Setup} {repo reference : Str}

/-- `sniff_manifest_content_type`. -/
def sniffed (S : Setup) (b : Bytes) : Str := Manifest.mediaType (S.serde.fromSlice b)

/-! ## Warm answers -/

/-- The pull ends in the store with this digest, as long as the manifest is there. -/
def ServesStored (w : World S) (repo reference : Str) (head : Option Digest) (d : Digest) : Prop :=
  Digest.parse reference = .ok d ∨
  (IsTag reference ∧ localDigest w repo reference = some d) ∨
  (IsTag reference ∧ localDigest w repo reference = none ∧
    ∃ t, w.upstreamTags.lookup (repo, reference) = some (d, t) ∧
      (w.tick.now - t < S.tagTtl ∨ S.route repo = none ∨ head = none ∨ head = some d))

section Warm

variable {w : World S} {d : Digest} {b : Bytes} {withBody : Bool} {up : Replies}

/-- A manifest that is there is found and then served. -/
theorem exec_present (hw : CachedPaths w) (hb : w.fs.read (blobPath S.root repo d) = some b) :
    ∃ m w₁ w', (blobMeta repo d).exec w = (.ok (some m), w₁) ∧
      (serveLocalManifest repo d reference withBody : Handler S).exec w₁ =
        (buildManifestResponse b (sniffed S b) d withBody : Handler S).exec w' := by
  have hfound : found w repo d = true := by simp [found, Fs.isFile, hb]
  obtain ⟨w₁, hlooks, ⟨-, m, -, hmeta⟩ | ⟨hno, -, -⟩ | ⟨hno, -, -⟩⟩ := blobMeta_looks w repo d
  · obtain ⟨w₂, -, he⟩ := serveLocalManifest_present (hlooks.paths hw)
      ((congrArg (Fs.read · (blobPath S.root repo d)) hlooks.fs).trans hb) reference withBody
    exact ⟨m, w₁, w₂, hmeta, he⟩
  · rw [hfound] at hno
    cases hno
  · rw [hfound] at hno
    cases hno

theorem exec_serveIfPresent (hw : CachedPaths w) (hb : w.fs.read (blobPath S.root repo d) = some b)
    (otherwise : Handler S) :
    ∃ w', (serveIfPresent repo d reference withBody otherwise : Handler S).exec w =
      (buildManifestResponse b (sniffed S b) d withBody : Handler S).exec w' := by
  obtain ⟨m, w₁, w', hmeta, he⟩ := exec_present hw hb
  have hrest : (serveIfPresent repo d reference withBody otherwise : Handler S).exec w = _ :=
    Prog.exec_bind_ok (Prog.exec_attempt_eq.mpr hmeta)
  exact ⟨w', hrest.trans he⟩

theorem exec_getManifestByTag_stored (hw : CachedPaths w)
    (hb : w.fs.read (blobPath S.root repo d) = some b) {t : Nat}
    (hentry : w.upstreamTags.lookup (repo, reference) = some (d, t))
    (hstored : w.tick.now - t < S.tagTtl ∨ S.route repo = none ∨ up.resolveTag = none ∨
      up.resolveTag = some d) :
    ∃ w', (getManifestByTag repo reference withBody up : Handler S).exec w =
      (buildManifestResponse b (sniffed S b) d withBody : Handler S).exec w' := by
  have hlookup := exec_tagCacheLookup (ε := Abort) w repo reference
  simp only [hentry] at hlookup
  have hrest : (getManifestByTag repo reference withBody up : Handler S).exec w = _ :=
    Prog.exec_bind_ok hlookup
  rw [hrest]
  by_cases hfresh : w.tick.now - t < S.tagTtl
  · simp only [if_pos hfresh]
    exact exec_serveIfPresent ((Looks.tick w).paths hw) hb _
  · simp only [if_neg hfresh]
    cases hroute : S.route repo with
    | none => exact exec_serveIfPresent ((Looks.tick w).paths hw) hb _
    | some p =>
      simp only
      rw [Prog.exec_bind_ok (exec_call w.tick _)]
      have hcalled : CachedPaths (called w.tick (.resolveTag repo reference)) :=
        (Looks.called _ _).paths ((Looks.tick w).paths hw)
      rcases hstored with h | h | hhead | hhead
      · exact absurd h hfresh
      · rw [hroute] at h
        cases h
      · simp only [hhead]
        exact exec_serveIfPresent hcalled hb _
      · simp only [hhead, if_true]
        have htouch := exec_touch (ε := Abort) (w := called w.tick (.resolveTag repo reference)) hentry
        rw [Prog.exec_bind_ok htouch]
        exact exec_serveIfPresent (w := { (called w.tick (.resolveTag repo reference)).tick with
          upstreamTags := _ }) hcalled hb _

/-- A pull that ends in the store answers with the sniffed content type. -/
theorem exec_getManifest_stored (hw : CachedPaths w)
    (hb : w.fs.read (blobPath S.root repo d) = some b)
    (hserves : ServesStored w repo reference up.resolveTag d) :
    ∃ w', (getManifest repo reference withBody up : Handler S).exec w =
      (buildManifestResponse b (sniffed S b) d withBody : Handler S).exec w' := by
  unfold getManifest
  rcases hserves with href | ⟨⟨e, href⟩, hlocal⟩ | ⟨⟨e, href⟩, hlocal, t, hentry, hstored⟩
  · simp only [href]
    obtain ⟨m, w₁, w', hmeta, he⟩ := exec_present hw hb
    have hrest : (getManifestByDigest repo reference d withBody up : Handler S).exec w = _ :=
      Prog.exec_bind_ok (Prog.exec_attempt_eq.mpr hmeta)
    exact ⟨w', hrest.trans he⟩
  · simp only [href]
    rw [Prog.exec_bind_ok (Prog.exec_get w)]
    obtain ⟨tag, htag, hd⟩ := localDigest_eq_some.mp hlocal
    simp only [htag, hd]
    obtain ⟨w', -, he⟩ := serveLocalManifest_present hw hb reference withBody
    exact ⟨w', he⟩
  · simp only [href]
    rw [Prog.exec_bind_ok (Prog.exec_get w)]
    have htagged := @exec_getManifestByTag_stored S repo reference w d b withBody up hw hb t hentry hstored
    cases htag : w.localTags.lookup (repo, reference) with
    | none => exact htagged
    | some tag =>
      simp only
      cases hp : Digest.parse tag.digest with
      | error e' => exact htagged
      | ok d' =>
        cases hlocal.symm.trans (localDigest_eq_some.mpr ⟨tag, htag, hp⟩)

end Warm

/-! ## Cold answers -/

section Cold

variable {ε α β : Type} {w w' : World S} {withBody : Bool}

/-- The program fails only at a file-system step, and says so. -/
def Loud (m : Prog (World S) ε α) : Prop :=
  ∀ w e w', m.exec w = (.error e, w') → w'.log.ioFailed = true

theorem Loud.seq {m : Prog (World S) ε α} {f : α → Prog (World S) ε β} (hm : Loud m)
    (hf : ∀ a, Loud (f a)) : Loud (m >>= f) := by
  intro w e w' h
  rcases Prog.exec_bind_cases m f w with ⟨e', v, hv, he⟩ | ⟨a, v, -, he⟩
  · cases he.symm.trans h
    exact hm w _ _ hv
  · exact hf a v e w' (he.symm.trans h)

theorem loud_onFs (m : Prog Fs IoKind α) (f : IoKind → ε) :
    Loud ((onFs m).mapError f : Prog (World S) ε α) := by
  intro w e w' h
  rcases hm : m.exec w.fs with ⟨e' | a, fs'⟩
  · cases (exec_mapError_error (exec_onFs_error hm)).symm.trans h
    rfl
  · cases (exec_mapError_ok (exec_onFs_ok hm)).symm.trans h

/-- A buffered blob whose digest is right is refused only after a failure. -/
theorem putBlobBuffered_loud (repo : Str) (b : Bytes) :
    Loud (putBlobBuffered (S := S) repo (S.digest b) b) := by
  unfold putBlobBuffered
  simp only [Setup.digest, ne_eq, not_true_eq_false, if_false]
  refine (loud_onFs _ _).seq fun _ => ?_
  refine Loud.seq (fun _ _ _ h => nomatch h) fun tmp => ?_
  refine (loud_onFs _ _).seq fun _ => (loud_onFs _ _).seq fun _ => ?_
  exact fun _ _ _ h => nomatch h

/-- A fetch without a failure leaves its manifest in the store. -/
theorem read_of_fetched {m : ManifestResponse} (hdigest : m.digest = S.digest m.bytes)
    {resp : Response}
    (h : (fetchAndServeUpstreamManifest repo reference withBody (some m) : Handler S).exec w =
      (.ok resp, w')) (hok : w'.log.ioFailed = false) :
    w'.fs.read (blobPath S.root repo m.digest) = some m.bytes := by
  obtain ⟨⟨⟩, w₁, -, h⟩ := Prog.exec_bind_eq_ok.mp h
  obtain ⟨r, w₂, hput, h⟩ := Prog.exec_bind_eq_ok.mp h
  have hput := Prog.exec_attempt_eq.mp hput
  have hamb : Ambient w₂ w' := by
    simp only at h
    cases href : Digest.parse reference with
    | ok d =>
      rw [href] at h
      obtain ⟨-, rfl⟩ := exec_build_eq_ok h
      exact Ambient.rfl
    | error e =>
      rw [href] at h
      obtain ⟨⟨⟩, w₃, hrecord, h⟩ := Prog.exec_bind_eq_ok.mp h
      obtain ⟨-, rfl⟩ := exec_build_eq_ok h
      have halong : Moves (Along S repo {.ambient})
          (TagCache.insert repo reference m.digest : Prog (World S) Abort Unit) :=
        tagCacheInsert_along (Set.mem_singleton _) repo reference m.digest
      exact ambient_of_along (halong.rel_of_exec hrecord)
  cases r with
  | error e =>
    rw [hdigest] at hput
    rw [hamb.failed (putBlobBuffered_loud repo m.bytes w₁ e w₂ hput)] at hok
    cases hok
  | ok info =>
    rw [hamb.fs.read (blobPath_not_scratch _ _ _) (Set.notMem_empty _)]
    exact (exec_putBlobBuffered_ok hput).1

/-- What a pull that asks the upstream answers, and that without a failure its manifest is in the store
then. -/
theorem exec_getManifest_cold (hw : CachedPaths w) {up : Replies} {m : ManifestResponse}
    (hasks : asksUpstream w repo reference up.resolveTag = true) (hm : up.getManifest = some m)
    (hdigest : m.digest = S.digest m.bytes) {cold : Response}
    (h : (getManifest repo reference withBody up : Handler S).exec w = (.ok cold, w')) :
    (w'.log.ioFailed = false → w'.fs.read (blobPath S.root repo m.digest) = some m.bytes) ∧
      legalHeaderValue m.contentType = true ∧
      cold = ⟨.ok, [(.contentLength, decimal m.bytes.length), (.dockerContentDigest, m.digest.toStr),
        (.contentType, m.contentType)], if withBody then .bytes m.bytes else .empty⟩ := by
  have hpull := getManifest_pull hw repo reference withBody up
  rw [h] at hpull
  generalize hout : (Except.ok cold, w') = out at hpull
  cases hpull with
  | refused hno =>
    rw [hasks] at hno
    cases hno
  | stored hno =>
    rw [hasks] at hno
    cases hno
  | @fetched w₁ _ _ =>
    rw [hm] at hout
    refine ⟨read_of_fetched hdigest hout.symm, ?_⟩
    obtain ⟨w₂, -, hrun⟩ := exec_fetchManifest w₁ repo reference withBody m
    rw [hrun, exec_manifestResponse] at hout
    split at hout
    · rename_i hlegal
      cases hout
      exact ⟨hlegal, rfl⟩
    · cases hout

end Cold

/-! ## Agreement -/

section Agreement

/-- The later answer has the status, the body, the digest and the content type of the first. -/
def Agrees (cold : Response) (warm : Except Abort Response) : Prop :=
  ∃ resp, warm = .ok resp ∧ resp.status = cold.status ∧ resp.body = cold.body ∧
    resp.header .dockerContentDigest = cold.header .dockerContentDigest ∧
    resp.header .contentType = cold.header .contentType

/-- A later state that still has the manifest, and a pull there that ends in the store. -/
structure Warm (w₁ : World S) (repo : Str) (b : Bytes) (w₂ : World S) (reference : Str) (up : Replies) :
    Prop where
  later : ∃ ops, w₂ = runOps w₁ ops
  kept : w₂.fs.read (blobPath S.root repo (S.digest b)) = some b
  serves : ServesStored w₂ repo reference up.resolveTag (S.digest b)

/-- The answer of a warm pull. -/
theorem Warm.exec {w₁ w₂ : World S} {b : Bytes} {up : Replies} (h : Warm w₁ repo b w₂ reference up)
    (hw : CachedPaths w₁) (withBody : Bool) :
    ((getManifest repo reference withBody up : Handler S).exec w₂).1 =
      if legalHeaderValue (sniffed S b) then
        .ok ⟨.ok, [(.contentLength, decimal b.length), (.dockerContentDigest, (S.digest b).toStr),
          (.contentType, sniffed S b)], if withBody then .bytes b else .empty⟩
      else .error .panic := by
  obtain ⟨⟨ops, rfl⟩, hkept, hserves⟩ := h
  obtain ⟨w', he⟩ := exec_getManifest_stored (hw.runOps ops) hkept hserves
  rw [he, exec_manifestResponse]

theorem warm_now {w₁ : World S} {b : Bytes} (hkept : w₁.fs.read (blobPath S.root repo (S.digest b)) = some b)
    (up : Replies) : Warm w₁ repo b w₁ (S.digest b).toStr up :=
  ⟨⟨[], rfl⟩, hkept, Or.inl (Digest.parse_toStr _)⟩

/-- A fetched manifest is later served with the same status, body, digest and content type exactly
when the content type of the upstream is the media type of the bytes, and a pushed manifest is
later served with the content type of the push exactly when that is. There is a later answer from the
store unless a step failed while the fetched manifest was stored. -/
theorem content_types_agree_iff (S : Setup) (w : World S) (hw : CachedPaths w) (repo reference : Str) :
    (∀ (up : Replies) (m : ManifestResponse) (withBody : Bool) (cold : Response) (w₁ : World S),
      asksUpstream w repo reference up.resolveTag = true → up.getManifest = some m →
      m.digest = S.digest m.bytes →
      (getManifest repo reference withBody up : Handler S).exec w = (.ok cold, w₁) →
      (∀ w₂ reference' up', Warm w₁ repo m.bytes w₂ reference' up' →
        (Agrees cold ((getManifest repo reference' withBody up' : Handler S).exec w₂).1 ↔
          sniffed S m.bytes = m.contentType)) ∧
      (w₁.log.ioFailed = false → Warm w₁ repo m.bytes w₁ m.digest.toStr up)) ∧
    ∀ (contentType : Str) (b : Bytes) (created : Response) (w₁ : World S),
      (putManifest repo reference (some contentType) (some b) : Handler S).exec w = (.ok created, w₁) →
      created.status = .created →
      (∀ w₂ reference' up' withBody, Warm w₁ repo b w₂ reference' up' →
        ((∃ resp, ((getManifest repo reference' withBody up' : Handler S).exec w₂).1 = .ok resp ∧
          resp.status = .ok ∧ resp.header .contentType = some contentType) ↔
          sniffed S b = contentType)) ∧
      ∀ up, Warm w₁ repo b w₁ (S.digest b).toStr up := by
  refine ⟨fun up m withBody cold w₁ hasks hm hdigest hcold => ?_,
    fun contentType b created w₁ hput hstatus => ?_⟩
  · have hw₁ : CachedPaths w₁ := by
      have halong : Moves (Along S repo Set.univ) (getManifest repo reference withBody up : Handler S) :=
        getManifest_along (Set.subset_univ _) reference withBody up
      have hkept := hw.moves halong
      rwa [hcold] at hkept
    obtain ⟨hread, hlegal, rfl⟩ := exec_getManifest_cold hw hasks hm hdigest hcold
    rw [hdigest] at hread ⊢
    refine ⟨fun w₂ reference' up' hwarm => ?_, fun hok => warm_now (hread hok) up⟩
    rw [hwarm.exec hw₁]
    constructor
    · rintro ⟨resp, hresp, -, -, -, htype⟩
      split at hresp
      · cases hresp
        exact Option.some.inj htype
      · cases hresp
    · intro hsame
      rw [hsame, if_pos hlegal]
      exact ⟨_, rfl, rfl, rfl, rfl, rfl⟩
  · have hw₁ : CachedPaths w₁ := by
      have halong : Moves (Along S repo Set.univ)
          (putManifest repo reference (some contentType) (some b) : Handler S) :=
        putManifest_along (Set.subset_univ _) reference (fun _ _ => trivial) _ _
      have hkept := hw.moves halong
      rwa [hput] at hkept
    obtain ⟨w₀, hstore⟩ := exec_putManifest_created hput hstatus
    have hlegal := legal_of_stored hstore hstatus
    refine ⟨fun w₂ reference' up' withBody hwarm => ?_, warm_now (read_of_stored hstore hstatus)⟩
    rw [hwarm.exec hw₁]
    constructor
    · rintro ⟨resp, hresp, -, htype⟩
      split at hresp
      · cases hresp
        exact Option.some.inj htype
      · cases hresp
    · intro hsame
      rw [hsame, if_pos hlegal]
      exact ⟨_, rfl, rfl, rfl⟩

end Agreement

/-! A mirror of one upstream that has an index without a media type. -/

/-- The index `{"manifests":[]}`. -/
def indexText : Str := "\x7b\"manifests\":[]\x7d".toList

def mirror : Setup := Codec.server ["library/".toList] [(indexText, .obj [("manifests".toList, .arr [])])]

def booted : World mirror := World.start mirror [] []

def app : Str := "library/app".toList

def v1 : Str := "v1".toList

/-- The upstream replies with the index under this content type. -/
def replying (contentType : Str) : Replies :=
  ⟨none, some ⟨Codec.utf8 indexText, contentType, mirror.digest (Codec.utf8 indexText)⟩, none, none⟩

/-- The answer with the index under this content type. -/
def indexAnswer (contentType : Str) : Response :=
  ⟨.ok, [(.contentLength, decimal 16),
    (.dockerContentDigest, (mirror.digest (Codec.utf8 indexText)).toStr), (.contentType, contentType)],
    .bytes (Codec.utf8 indexText)⟩

def indexType : Str := "application/vnd.oci.image.index.v1+json".toList

def defaultType : Str := "application/vnd.oci.image.manifest.v1+json".toList

/-- The world after a first pull. -/
def pulled (contentType : Str) : World mirror :=
  ((getManifest app v1 true (replying contentType) : Handler mirror).exec booted).2

theorem exec_pulled {contentType : Str}
    (h : ((getManifest app v1 true (replying contentType) : Handler mirror).exec booted).1 =
      .ok (indexAnswer contentType)) :
    (getManifest app v1 true (replying contentType) : Handler mirror).exec booted =
      (.ok (indexAnswer contentType), pulled contentType) := Prod.ext h rfl

theorem cachedPaths_booted : CachedPaths booted := fun _ _ _ hm => nomatch hm

theorem warm_pulled {contentType : Str}
    (h : (pulled contentType).fs.read
        (blobPath mirror.root app (mirror.digest (Codec.utf8 indexText))) = some (Codec.utf8 indexText) ∧
      localDigest (pulled contentType) app v1 = none ∧
      (pulled contentType).upstreamTags.lookup (app, v1) =
        some (mirror.digest (Codec.utf8 indexText), 0) ∧
      (pulled contentType).tick.now < mirror.tagTtl) :
    Warm (pulled contentType) app (Codec.utf8 indexText) (pulled contentType) v1
      (replying contentType) := by
  obtain ⟨hkept, hlocal, hentry, hfresh⟩ := h
  exact ⟨⟨[], rfl⟩, hkept,
    Or.inr (Or.inr ⟨⟨.missingSeparator, by decide⟩, hlocal, 0, hentry, Or.inl hfresh⟩)⟩

/-- The second pull of the index has the content type of an image manifest. -/
theorem index_turns_into_manifest :
    asksUpstream booted app v1 none = true ∧
    (getManifest app v1 true (replying indexType) : Handler mirror).exec booted =
      (.ok (indexAnswer indexType), pulled indexType) ∧
    (pulled indexType).log.ioFailed = false ∧
    Warm (pulled indexType) app (Codec.utf8 indexText) (pulled indexType) v1 (replying indexType) ∧
    ¬ Agrees (indexAnswer indexType)
      ((getManifest app v1 true (replying indexType) : Handler mirror).exec (pulled indexType)).1 := by
  obtain ⟨hcold, hok, hwarm⟩ :
      ((getManifest app v1 true (replying indexType) : Handler mirror).exec booted).1 =
        .ok (indexAnswer indexType) ∧
      (pulled indexType).log.ioFailed = false ∧
      ((getManifest app v1 true (replying indexType) : Handler mirror).exec (pulled indexType)).1 =
        .ok (indexAnswer defaultType) := by
    decide +kernel
  refine ⟨by decide +kernel, exec_pulled hcold, hok, warm_pulled (by decide +kernel), ?_⟩
  rintro ⟨resp, hresp, -, -, -, htype⟩
  cases hwarm.symm.trans hresp
  revert htype
  decide +kernel

/-- Under the content type that is sniffed, the next answer agrees with the first. -/
theorem sniffed_type_stays :
    Agrees (indexAnswer defaultType)
      ((getManifest app v1 true (replying defaultType) : Handler mirror).exec (pulled defaultType)).1 := by
  have hasks : asksUpstream booted app v1 (replying defaultType).resolveTag = true := by
    decide +kernel
  have hcold : ((getManifest app v1 true (replying defaultType) : Handler mirror).exec booted).1 =
      .ok (indexAnswer defaultType) := by decide +kernel
  have hsniffed : sniffed mirror (Codec.utf8 indexText) = defaultType := by decide
  have hiff := ((content_types_agree_iff mirror booted cachedPaths_booted app v1).1
    (replying defaultType) _ true _ _ hasks rfl rfl (exec_pulled hcold)).1
  exact (hiff _ _ _ (warm_pulled (by decide +kernel))).mpr hsniffed

end Quill.Registry.ContentTypes
