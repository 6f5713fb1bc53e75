import Quill.Registry.PullService
import Quill.Storage.Sequences

/-!
# Pushes, uploads and deletions conform to the service

The requests that change a repository: each answers and changes what `Serves` lists for the
repository as `repoView` shows it, unless a file-system step fails. The counter of a session counts
the bytes of its file (`Counted`), so that the range in an answer is the range that was received.
-/

namespace Quill.Registry

open Text Files Cas World LocalStorage Uploads LocalTags

variable {S : Setup} {repo : Str} {w w' : World S} {req : Request}

/-! ## Parts of a view -/

section Parts

variable {except : Set Path}

theorem blobs_of_spares (hfs : Spares except w.fs w'.fs) {d : Digest} (hd : blobPath S.root repo d ∉ except) :
    (repoView w' repo).blobs d = (repoView w repo).blobs d :=
  hfs.read (blobPath_not_scratch _ _ _) hd

theorem uploads_of_spares (hw : Sound w) (hfs : Spares except w.fs w'.fs) {session : Str}
    (hsame : w'.sessions.lookup (repo, session) = w.sessions.lookup (repo, session))
    (hdata : dataPath S.root repo session ∉ except) :
    (repoView w' repo).uploads session = (repoView w repo).uploads session := by
  simp only [repoView_uploads, hsame]
  refine Option.bind_congr fun st hst => ?_
  rw [(hw.intact.sessions _ _ hst).1]
  exact hfs.read (dataPath_not_scratch _ _ _) hdata

theorem blobPath_notMem_tagsPath (d : Digest) :
    blobPath S.root repo d ∉ ({localTagsPath S.root repo} : Set Path) := fun hp =>
  blobPath_ne_localTagsPath _ _ _ _ hp

theorem dataPath_notMem_blobPath (session : Str) (d : Digest) :
    dataPath S.root repo session ∉ ({blobPath S.root repo d} : Set Path) := by
  intro hp
  exact blobPath_ne_dataPath _ _ _ _ _ (Set.mem_singleton_iff.mp hp)

end Parts

/-! ## Deletions -/

/-- A deletion drops the blob, if it was there. -/
theorem exec_deleteBlob_view (hw : Sound w) (repo : Str) (d : Digest) :
    (∃ b w', (deleteBlob repo d).exec w = (.ok (), w') ∧ (repoView w repo).blobs d = some b ∧
      repoView w' repo = (repoView w repo).drop d) ∨
    (∃ w', (deleteBlob repo d).exec w = (.error (.notFound d.toStr), w') ∧
      (repoView w repo).blobs d = none ∧ repoView w' repo = repoView w repo) ∨
    ∃ e w', (deleteBlob repo d).exec w = (.error e, w') ∧ w'.log.ioFailed = true := by
  rcases exec_deleteBlob w repo d with ⟨b, hb, he⟩ | ⟨hnone, he⟩ | he
  · refine Or.inl ⟨b, _, he, hb, ?_⟩
    have hfs : Spares {blobPath S.root repo d} w.fs (w.fs.del (blobPath S.root repo d)) :=
      Spares.del (Or.inr rfl) (Fs.node_ne_dir_of_read hb)
    refine Holdings.ext (funext fun d' => ?_) rfl rfl (funext fun s => ?_)
    · by_cases hd : d' = d
      · subst hd
        simp [Fs.read, Fs.node_del]
      · rw [Holdings.drop_blobs, Function.update_of_ne hd]
        exact blobs_of_spares (w := w) hfs fun hp => hd (blobPath_injective hp)
    · exact uploads_of_spares hw hfs rfl (dataPath_notMem_blobPath s d)
  · exact Or.inr (Or.inl ⟨_, he, by simp [Fs.read, hnone], rfl⟩)
  · exact Or.inr (Or.inr ⟨_, _, he, rfl⟩)

theorem deleteBlobRoute_conforms (hw : Ready w) (hm : req.method = .delete) (text : Str) :
    Conforms S repo req (.blob text) w ((deleteBlobRoute repo text : Handler S).exec w) := by
  unfold deleteBlobRoute
  cases hd : Digest.parse text with
  | error e => exact .unchanged (.badDigest (Or.inr (Or.inr hm)) hd)
  | ok d =>
    simp only
    rcases exec_deleteBlob_view hw.sound repo d with
      ⟨b, w₁, hrun, hb, hview⟩ | ⟨w₁, hrun, hno, hview⟩ | ⟨e, w₁, hrun, hfailed⟩
    · rw [Prog.exec_bind_ok (Prog.exec_attempt_eq.mpr hrun)]
      intro resp hresp _
      cases hresp
      change Serves S repo req _ _ _ (repoView w₁ repo)
      rw [hview]
      exact .deletedBlob hm hd hb
    · rw [Prog.exec_bind_ok (Prog.exec_attempt_eq.mpr hrun)]
      exact .of_same hview (.noBlobToDelete hm hd hno)
    · rw [Prog.exec_bind_ok (Prog.exec_attempt_eq.mpr hrun)]
      refine .of_failed ?_
      cases e <;> exact hfailed

/-- Without the tags of a deleted digest, the repository has the tags of other digests. -/
theorem exec_removeTags_view (hw : Ready w) (hrepo : Plain repo) (d : Digest)
    {r : Except Abort Unit} (hrun : (removeTags repo (tagsOf w.localTags repo d)).exec w = (r, w'))
    (hok : w'.log.ioFailed = false) : repoView w' repo = (repoView w repo).untagAll d := by
  have halong : (Along S repo {.removeTag}).rel w w' :=
    (removeTags_along (K := {.removeTag}) rfl _).rel_of_exec hrun
  have hkeeps := keepsParts_along halong hrepo hw.sound hok
  have huntagged := exec_removeTags_untagged _ hrun (Or.inl hok)
  have hstill := (removeTags_still _).rel_of_exec hrun
  refine Holdings.ext ?_ (funext fun t => ?_) (funext fun t => ?_) ?_
  · exact hkeeps.blobs (by simp) (by simp) (by simp)
  · simp only [repoView_tags, Holdings.untagAll_tags, localDigest, huntagged.lookup, true_and]
    cases hlook : w.localTags.lookup (repo, t) with
    | none => simp
    | some m =>
      obtain ⟨d', hd'⟩ := hw.typed _ _ hlook
      have hmem : t ∈ tagsOf w.localTags repo d ↔ d' = d := by
        rw [mem_tagsOf]
        constructor
        · rintro ⟨m', hm', hdig⟩
          cases hlook.symm.trans hm'
          exact Digest.toStr_injective (hd'.symm.trans hdig)
        · rintro rfl
          exact ⟨m, hlook, hd'⟩
      by_cases hd : d' = d
      · rw [if_pos (hmem.mpr hd)]
        simp [hd', Digest.parse_toStr, Except.toOption, Option.filter_some, hd]
      · rw [if_neg (mt hmem.mp hd)]
        simp [hd', Digest.parse_toStr, Except.toOption, Option.filter_some, hd]
  · simp only [repoView_cached, Holdings.untagAll_cached, hstill.1]
  · exact hkeeps.uploads (by simp) (by simp)

theorem exec_removeTag_view (hw : Ready w) (hrepo : Plain repo) (tag : Str) :
    ((repoView w repo).tags tag = none ∧ (LocalTags.remove repo tag).exec w = (.ok false, w)) ∨
    (∃ d w', (repoView w repo).tags tag = some d ∧ (LocalTags.remove repo tag).exec w = (.ok true, w') ∧
      (w'.log.ioFailed = false → repoView w' repo = (repoView w repo).untag tag)) ∨
    ∃ r w', (LocalTags.remove repo tag).exec w = (r, w') ∧ w'.log.ioFailed = true := by
  rcases exec_removeTag w repo tag with ⟨hnone, he⟩ | ⟨r, w', he, ⟨m, hm⟩, heff, htags, rfl | hfailed⟩
  · exact Or.inl ⟨by simp [localDigest, hnone], he⟩
  · obtain ⟨d, hd⟩ := hw.typed _ _ hm
    have hpushed : (repoView w repo).tags tag = some d :=
      localDigest_eq_some.mpr ⟨m, hm, by rw [hd, Digest.parse_toStr]⟩
    refine Or.inr (Or.inl ⟨d, w', hpushed, he, fun hok => ?_⟩)
    have hkeeps := keepsParts_along (heff.along (K := {.removeTag}) rfl) hrepo hw.sound hok
    have hstill := (removeTag_still tag).rel_of_exec he
    refine Holdings.ext ?_ (funext fun t => ?_) (funext fun t => ?_) ?_
    · exact hkeeps.blobs (by simp) (by simp) (by simp)
    · simp only [repoView_tags, Holdings.untag_tags, localDigest, htags]
      by_cases ht : t = tag
      · subst ht
        rw [AList.lookup_erase, Function.update_self]
        rfl
      · rw [AList.lookup_erase_ne fun h => ht (Prod.mk.inj h).2, Function.update_of_ne ht]
        rfl
    · simp only [repoView_cached, Holdings.untag_cached, hstill.1]
    · exact hkeeps.uploads (by simp) (by simp)
  · exact Or.inr (Or.inr ⟨r, w', he, hfailed⟩)

theorem deleteManifest_conforms (hw : Ready w) (hrepo : Plain repo) (hm : req.method = .delete)
    (reference : Str) : Conforms S repo req (.manifest reference) w
      ((deleteManifest repo reference : Handler S).exec w) := by
  unfold deleteManifest
  cases href : Digest.parse reference with
  | error e =>
    have htag : IsTag reference := ⟨e, href⟩
    simp only
    rcases exec_removeTag_view hw hrepo reference with
      ⟨hno, hrun⟩ | ⟨d, w₁, hpushed, hrun, hview⟩ | ⟨r, w₁, hrun, hfailed⟩
    · rw [Prog.exec_bind_ok (Prog.exec_attempt_eq.mpr hrun)]
      exact .unchanged (.noTag hm htag hno)
    · rw [Prog.exec_bind_ok (Prog.exec_attempt_eq.mpr hrun)]
      intro resp hresp hok
      cases hresp
      change Serves S repo req _ _ _ (repoView w₁ repo)
      rw [hview hok]
      exact .untagged hm htag hpushed
    · rw [Prog.exec_bind_ok (Prog.exec_attempt_eq.mpr hrun)]
      refine .of_failed ?_
      rcases r with e | _ | _ <;> exact hfailed
  | ok d =>
    simp only
    rw [Prog.exec_bind_ok (Prog.exec_get w)]
    have hreplies : Serves S repo req (repoView w repo) (.manifest reference) _ _ :=
      .deletedManifest hm href
    rcases Prog.exec_bind_cases (removeTags repo (tagsOf w.localTags repo d)) _ w with
      ⟨e, w₁, -, hout⟩ | ⟨u, w₁, htags, hout⟩
    · rw [tagsOf] at hout
      rw [hout]
      intro resp hresp _
      cases hresp
    rw [tagsOf] at hout
    rw [hout]
    rcases hrun : (deleteBlob repo d).exec w₁ with ⟨r, w₂⟩
    rw [Prog.exec_bind_ok (Prog.exec_attempt_eq.mpr hrun)]
    intro resp hresp hok
    have hok₂ : w₂.log.ioFailed = false := by
      rcases r with (_ | _ | _) | _ <;> exact hok
    have hok₁ : w₁.log.ioFailed = false := Along.not_failed_before
      ((deleteBlob_along (K := {.ambient, .retract}) (Or.inl rfl) (Or.inr rfl) d).rel_of_exec
        hrun) hok₂
    have hready : Ready w₁ := hw.along
      ((removeTags_along (K := {.removeTag}) rfl _).rel_of_exec htags) (by simp) hrepo hok₁
    have hview := exec_removeTags_view hw hrepo d htags hok₁
    have hblobs : (repoView w₁ repo).blobs d = (repoView w repo).blobs d := by rw [hview]; rfl
    rcases exec_deleteBlob_view hready.sound repo d with
      ⟨b, w₃, hrun₃, hb, hview₃⟩ | ⟨w₃, hrun₃, hno, hview₃⟩ | ⟨e, w₃, hrun₃, hfailed⟩
    · cases hrun.symm.trans hrun₃
      cases hresp
      rw [← hblobs, hb, ← hview, ← hview₃] at hreplies
      exact hreplies
    · cases hrun.symm.trans hrun₃
      cases hresp
      rw [← hblobs, hno, ← hview, Holdings.drop_of_none hno, ← hview₃] at hreplies
      exact hreplies
    · cases hrun.symm.trans hrun₃
      cases hok₂.symm.trans hfailed

/-! ## Pushed manifests -/

section Pushes

open ManifestPuts

theorem present_iff_holds {text : Str} : Present w repo text ↔ Holds (repoView w repo) text := by
  simp only [Present, Holds, repoView_blobs, Fs.isFile, ← Option.isSome_iff_ne_none]

/-- What the loop reports is required and missing. -/
theorem exec_firstMissing_names {texts : List Str} {text : Str} (hw : CacheAgrees w)
    (h : (firstMissing repo texts).exec w = (.ok (some text), w')) :
    text ∈ texts ∧ ¬ Present w repo text := by
  induction texts generalizing w with
  | nil => cases h
  | cons t texts ih =>
    unfold firstMissing at h
    cases hd : Digest.parse t with
    | error e =>
      simp only [hd] at h
      cases h
      refine ⟨List.mem_cons_self, ?_⟩
      rintro ⟨d, hd', -⟩
      cases hd.symm.trans hd'
    | ok d =>
      obtain ⟨r, w₁, hmeta, hpeeks, hcases⟩ := exec_blobMeta_agrees hw repo d
      simp only [hd] at h
      rw [Prog.exec_bind_ok (Prog.exec_attempt_eq.mpr hmeta)] at h
      rcases hcases with ⟨m, b, rfl, -, hb⟩ | ⟨hnone, hr⟩
      · obtain ⟨hmem, hmissing⟩ := ih (hpeeks.agrees hw) h
        refine ⟨List.mem_cons_of_mem _ hmem, ?_⟩
        simpa only [Present, hpeeks.fs] using hmissing
      · have hhere : t ∈ t :: texts ∧ ¬ Present w repo t := by
          refine ⟨List.mem_cons_self, ?_⟩
          rintro ⟨d', hd', hfile⟩
          cases hd.symm.trans hd'
          simp [Fs.isFile, hnone] at hfile
        rcases r with e | _ | m
        · cases h
          exact hhere
        · cases h
          exact hhere
        · exact absurd rfl (hr m)

theorem exec_checkManifestBlobsPresent_names {b : Bytes} {text : Str} (hw : CacheAgrees w)
    (h : (checkManifestBlobsPresent repo b).exec w = (.ok (some text), w')) :
    Requires S b text ∧ ¬ Present w repo text := by
  rw [← mem_requiredTexts]
  unfold checkManifestBlobsPresent at h
  unfold requiredTexts
  cases hv : S.serde.fromSlice b with
  | none =>
    rw [hv] at h
    cases h
  | some v =>
    rw [hv] at h
    exact exec_firstMissing_names hw h

/-- A tag that is set points to the digest. -/
theorem exec_set_view (hw : DataNamed w) (repo tag : Str) (d : Digest) :
    (∃ w', (LocalTags.set repo tag d).exec w = (.ok (), w') ∧
      repoView w' repo = (repoView w repo).tag tag d) ∨
    ∃ e w', (LocalTags.set repo tag d).exec w = (.error e, w') ∧ w'.log.ioFailed = true := by
  rcases exec_set_cases repo tag d w with ⟨pushedAt, w', he, htags, -, hleaves⟩ | hfailed
  · refine Or.inl ⟨w', he, ?_⟩
    refine Holdings.ext ?_ (funext fun t => ?_) (funext fun t => ?_) (funext fun s => ?_)
    · exact funext fun d' => hleaves.read (blobPath_notMem_tagsPath d') (blobPath_not_scratch _ _ _)
    · simp only [repoView_tags, Holdings.tag_tags, localDigest, htags]
      by_cases ht : t = tag
      · subst ht
        rw [AList.lookup_insert, Function.update_self]
        simp [Digest.parse_toStr, Except.toOption]
      · rw [AList.lookup_insert_ne fun h => ht (Prod.mk.inj h).2, Function.update_of_ne ht]
        rfl
    · simp only [repoView_cached, Holdings.tag_cached, hleaves.upstreamTags]
    · simp only [repoView_uploads, Holdings.tag_uploads, hleaves.sessions]
      refine Option.bind_congr fun st hst => ?_
      have hname := hw _ _ hst
      refine hleaves.read (fun hp => ?_) fun hs => hs.2.1 hname
      exact not_isTagsName_of_isDataName hname (Set.mem_singleton_iff.mp hp ▸ ⟨_, rfl⟩)
  · exact Or.inr hfailed

/-- The end of a push: the manifest is put, and the tag set. -/
theorem storeManifest_conforms {a : Repo} {reference : Str} {b : Bytes} (hw : DataNamed w)
    (hview : repoView w repo = a) (hserves : Serves S repo req a (.manifest reference)
      (pushedAnswer repo (S.digest b) req.contentType) (pushedManifest S a reference b))
    {w₀ : World S} (hstart : repoView w₀ repo = a) : Conforms S repo req (.manifest reference) w₀
      ((storeManifest repo reference req.contentType b : Handler S).exec w) := by
  subst hstart
  unfold storeManifest
  rcases exec_putBlobBuffered_cases repo b w with ⟨m, w₁, hput, hread, hleaves, htags⟩ | ⟨e, w₁, hput, hfailed⟩
  · have hview₁ := repoView_of_leaves hw hread hleaves htags
    rw [hview] at hview₁
    rw [Prog.exec_bind_ok (Prog.exec_attempt_eq.mpr hput)]
    cases href : Digest.parse reference with
    | ok d =>
      have hno : ¬ IsTag reference := by
        rintro ⟨e, he⟩
        cases href.symm.trans he
      rw [pushedManifest, if_neg hno, ← hview₁] at hserves
      exact .of_build hserves
    | error e =>
      have htag : IsTag reference := ⟨e, href⟩
      simp only
      rcases exec_set_view (w := w₁) (fun key st hst => hw key st (hleaves.sessions ▸ hst)) repo reference
        (S.digest b) with ⟨w₂, hset, hview₂⟩ | ⟨e, w₂, hset, hfailed⟩
      · rw [Prog.exec_bind_ok (Prog.exec_attempt_eq.mpr hset)]
        rw [pushedManifest, if_pos htag, ← hview₁, ← hview₂] at hserves
        exact .of_build hserves
      · rw [Prog.exec_bind_ok (Prog.exec_attempt_eq.mpr hset)]
        exact .of_failed hfailed
  · rw [Prog.exec_bind_ok (Prog.exec_attempt_eq.mpr hput)]
    exact .of_failed hfailed

theorem putManifest_conforms (hw : Ready w) (hm : req.method = .put) (reference : Str) :
    Conforms S repo req (.manifest reference) w
      ((putManifest repo reference req.contentType req.body : Handler S).exec w) := by
  unfold putManifest
  rcases exec_ensureRepo_cases repo w with ⟨w₁, hmk, hunchanged, hmeta⟩ | ⟨e, w₁, hmk, hfailed⟩
  · rw [Prog.exec_bind_ok (Prog.exec_attempt_eq.mpr hmk)]
    have hview₁ : repoView w₁ repo = repoView w repo := view_of_unchanged hunchanged
    have hagrees₁ : CacheAgrees w₁ := by
      intro r d m hm
      rw [hmeta] at hm
      obtain ⟨hpath, hfile⟩ := hw.cache.agrees r d m hm
      refine ⟨hpath, ?_⟩
      simpa only [Fs.isFile, hunchanged.files] using hfile
    have hnamed₁ : DataNamed w₁ := fun key st hst => hw.sound.dataNamed key st (hunchanged.sessions ▸ hst)
    simp only
    cases hbody : collectBody req.body 33554432 with
    | error resp => exact .of_same hview₁ (.unreadManifest hm hbody)
    | ok b =>
      simp only
      cases hother : (Digest.parse reference).toOption.filter (· ≠ S.digest b) with
      | some d =>
        obtain ⟨hparse, hne⟩ := Option.filter_eq_some_iff.mp hother
        have hd : Digest.parse reference = .ok d := by
          cases hp : Digest.parse reference with
          | error e => simp [hp, Except.toOption] at hparse
          | ok d' => simpa [hp, Except.toOption] using hparse
        exact .of_same hview₁ (.otherDigest hm hbody hd (by simpa using hne))
      | none =>
        have hd : ∀ d, Digest.parse reference = .ok d → d = S.digest b := by
          intro d hd
          simpa [hd, Except.toOption, Option.filter_some] using hother
        simp only
        obtain ⟨r, w₂, hcheck, hpeeks, hiff⟩ := exec_checkManifestBlobsPresent_agrees hagrees₁ repo b
        have hview₂ : repoView w₂ repo = repoView w repo := hpeeks.view.trans hview₁
        rw [Prog.exec_bind_ok hcheck]
        cases r with
        | some text =>
          obtain ⟨hrequires, hmissing⟩ := exec_checkManifestBlobsPresent_names hagrees₁ hcheck
          rw [present_iff_holds, hview₁] at hmissing
          exact .of_same hview₂ (.missingBlob hm hbody hd hrequires hmissing)
        | none =>
          have hblobs : ∀ text, Requires S b text → Holds (repoView w repo) text := by
            intro text htext
            rw [← hview₁, ← present_iff_holds]
            exact hiff.mp rfl text htext
          exact storeManifest_conforms (fun key st hst => hnamed₁ key st (hpeeks.sessions ▸ hst)) hview₂
            (.pushed hm hbody hd hblobs) rfl
  · rw [Prog.exec_bind_ok (Prog.exec_attempt_eq.mpr hmk)]
    exact .of_failed hfailed

end Pushes

/-! ## Uploads -/

section Still

variable {ε : Type}

theorem ensureRepo_still (repo : Str) : Moves still (ensureRepo (S := S) repo) :=
  (onFs_still _).of_mapError _

theorem writeMeta_still (repo : Str) (m : UploadMeta) : Moves still (writeMeta (S := S) repo m) :=
  (onFs_still _).of_mapError _

theorem writeMetaFor_still (repo session : Str) (n : Nat) :
    Moves still (writeMetaFor (S := S) repo session n) := by
  refine (probeFs_still _).of_attempt.seq fun r => ?_
  rcases r with (_ | _) | b
  · exact Moves.of_pure _
  · exact Moves.of_throw _
  · dsimp only
    cases S.serde.uploadMetaFromSlice b with
    | none => exact Moves.of_throw _
    | some m => exact wallNow_still.seq fun _ => writeMeta_still _ _

theorem modifySessions_still (f : World S → AList fun _ : Str × Str => UploadState S.hash) :
    Moves still (modify fun w => { w with sessions := f w } : Prog (World S) ε Unit) :=
  fun _ => ⟨rfl, fun h => ⟨h, rfl⟩⟩

theorem createSession_still (repo : Str) : Moves still (createSession (S := S) repo) := by
  refine wallNow_still.seq fun nanos => ?_
  refine ((onFs_still _).of_mapError _).seq fun _ => ?_
  refine ((onFs_still _).of_mapError _).seq fun _ => ?_
  refine wallNow_still.seq fun now => ?_
  refine (writeMeta_still repo _).seq fun _ => ?_
  exact (modifySessions_still _).seq fun _ => Moves.of_pure _

theorem append_still (repo session : Str) (chunk : Bytes) :
    Moves still (append (S := S) repo session chunk) := by
  refine Moves.of_get.seq fun w => ?_
  cases w.sessions.lookup (repo, session) with
  | none => exact Moves.of_throw _
  | some st =>
    refine Moves.of_ite (fun _ => Moves.of_throw _) fun _ => ?_
    refine ((onFs_still _).of_mapError _).seq fun _ => wallNow_still.seq fun now => ?_
    refine (modifySessions_still _).seq fun _ => ?_
    exact (writeMetaFor_still repo session _).of_attempt.seq fun _ => Moves.of_pure _

theorem commit_still (repo session : Str) (d : Digest) : Moves still (commit (S := S) repo session d) := by
  refine Moves.of_get.seq fun w => ?_
  cases w.sessions.lookup (repo, session) with
  | none => exact Moves.of_throw _
  | some st =>
    refine Moves.of_ite (fun _ => Moves.of_throw _) fun _ => ?_
    refine Moves.of_ite (fun _ => Moves.of_throw _) fun _ => ?_
    refine ((onFs_still _).of_mapError _).seq fun _ => ?_
    refine ((promote_still _ _).of_mapError _).seq fun _ => ?_
    refine (probeFs_still _).of_attempt.seq fun _ => ?_
    exact (modifySessions_still _).seq fun _ => Moves.of_pure _

end Still

/-- What `Ready` says of an open session. -/
structure Open (w : World S) (repo session : Str) (st : UploadState S.hash) (b : Bytes) : Prop where
  lookup : w.sessions.lookup (repo, session) = some st
  path : st.dataPath = dataPath S.root repo session
  read : w.fs.read st.dataPath = some b
  fed : S.hash.Fed st.hasher b
  unfinished : st.finalized = false
  count : st.info.bytesReceived = tally b

theorem Ready.open_iff (hw : Ready w) {session : Str} {b : Bytes} :
    (repoView w repo).uploads session = some b ↔ ∃ st, Open w repo session st b := by
  rw [repoView_uploads, Option.bind_eq_some_iff]
  constructor
  · rintro ⟨st, hst, hread⟩
    obtain ⟨hpath, c, hc, hfed⟩ := hw.sound.intact.sessions _ _ hst
    cases hread.symm.trans hc
    obtain ⟨hopen, hcount⟩ := hw.counted _ _ _ hst hread
    exact ⟨st, hst, hpath, hread, hfed, hopen, hcount⟩
  · rintro ⟨st, h⟩
    exact ⟨st, h.lookup, h.read⟩

theorem Ready.lookup_of_uploads (hw : Ready w) {session : Str}
    (hno : (repoView w repo).uploads session = none) : w.sessions.lookup (repo, session) = none := by
  cases hst : w.sessions.lookup (repo, session) with
  | none => rfl
  | some st =>
    obtain ⟨-, c, hc, -⟩ := hw.sound.intact.sessions _ _ hst
    rw [repoView_uploads, hst] at hno
    cases hc.symm.trans hno

/-- The data file of a session is not that of another one of the repository. -/
theorem dataPath_notMem (hrepo : Plain repo) {session session' : Str} (hs : '/' ∉ session)
    (hs' : '/' ∉ session') (hne : session' ≠ session) :
    dataPath S.root repo session' ∉ ({dataPath S.root repo session} : Set Path) := fun hp =>
  hne (dataPath_injective hrepo hrepo hs' hs hp).2

/-- One session of the repository has changed, with its data file. -/
theorem uploads_of_insert {session : Str} {st : UploadState S.hash} {b : Bytes} (hw : Sound w)
    (hrepo : Plain repo) (hs : '/' ∉ session) (hpath : st.dataPath = dataPath S.root repo session)
    (hsessions : w'.sessions = w.sessions.insert (repo, session) st)
    (hfs : Spares {st.dataPath} w.fs w'.fs) (hread : w'.fs.read st.dataPath = some b) :
    (repoView w' repo).uploads = ((repoView w repo).draft session b).uploads := by
  funext s
  by_cases hss : s = session
  · subst hss
    rw [repoView_uploads, hsessions, AList.lookup_insert, Holdings.draft_uploads, Function.update_self]
    exact hread
  · have hsame : w'.sessions.lookup (repo, s) = w.sessions.lookup (repo, s) := by
      rw [hsessions, AList.lookup_insert_ne fun h => hss (Prod.mk.inj h).2]
    rw [Holdings.draft_uploads, Function.update_of_ne hss]
    simp only [repoView_uploads, hsame]
    refine Option.bind_congr fun st' hst' => ?_
    have hs' : '/' ∉ s := (hw.plain _ _ hst').2
    rw [(hw.intact.sessions _ _ hst').1]
    exact hfs.read (dataPath_not_scratch _ _ _) (hpath ▸ dataPath_notMem hrepo hs hs' hss)

/-- A chunk is appended to a session that is there. -/
theorem exec_append_view (hw : Ready w) (hrepo : Plain repo) (session : Str) (chunk : Bytes) :
    ((repoView w repo).uploads session = none ∧
      (append repo session chunk).exec w = (.error (.notFound session), w)) ∨
    ∃ b w', (repoView w repo).uploads session = some b ∧
      (append repo session chunk).exec w = (.ok (tally (b ++ chunk)), w') ∧
      (w'.log.ioFailed = false → repoView w' repo = (repoView w repo).draft session (b ++ chunk)) := by
  cases hup : (repoView w repo).uploads session with
  | none =>
    have hst := hw.lookup_of_uploads hup
    have hget : (append repo session chunk).exec w = _ := Prog.exec_bind_ok (Prog.exec_get w)
    rw [hget, hst]
    exact Or.inl ⟨rfl, rfl⟩
  | some b =>
    obtain ⟨st, hopen⟩ := hw.open_iff.mp hup
    obtain ⟨now, w', hrun, hsessions, hfs, hread⟩ :=
      Sequential.exec_append_live hopen.lookup hopen.unfinished hopen.path hopen.read chunk
    rw [hopen.count, saturatingAdd_tally] at hrun
    refine Or.inr ⟨b, w', rfl, hrun, fun hok => ?_⟩
    have hkeeps := keepsParts_along ((append_along (K := {.ambient, .session})
      (Or.inl rfl) (Or.inr rfl) session chunk).rel_of_exec hrun) hrepo hw.sound hok
    have hstill := (append_still repo session chunk).rel_of_exec hrun
    have hs : '/' ∉ session := (hw.sound.plain _ _ hopen.lookup).2
    refine Holdings.ext (funext fun d => ?_) ?_ (funext fun t => ?_) ?_
    · refine blobs_of_spares hfs fun hp => ?_
      rw [Set.mem_singleton_iff, hopen.path] at hp
      exact blobPath_ne_dataPath _ _ _ _ _ hp.symm
    · exact hkeeps.tags (by simp) (by simp)
    · simp only [repoView_cached, Holdings.draft_cached, hstill.1]
    · have hfed : (UploadState.fed st chunk now).dataPath = dataPath S.root repo session := hopen.path
      exact uploads_of_insert hw.sound hrepo hs hfed hsessions hfs hread

theorem uploadPatch_conforms (hw : Ready w) (hrepo : Plain repo) (hm : req.method = .patch) (session : Str) :
    Conforms S repo req (.uploadSession session) w
      ((uploadPatch repo session req.body : Handler S).exec w) := by
  unfold uploadPatch
  cases hbody : collectBody req.body maxUpload with
  | error resp => exact .unchanged (.unreadChunk hm hbody)
  | ok chunk =>
    simp only
    rcases exec_append_view hw hrepo session chunk with ⟨hno, hrun⟩ | ⟨b, w₁, hb, hrun, hview⟩
    · rw [Prog.exec_bind_ok (Prog.exec_attempt_eq.mpr hrun)]
      exact .unchanged (.noSession hm hbody hno)
    · rw [Prog.exec_bind_ok (Prog.exec_attempt_eq.mpr hrun)]
      cases hok : w₁.log.ioFailed with
      | true =>
        refine .of_failed ?_
        simp only [exec_build]
        exact hok
      | false =>
        refine .of_build ?_
        rw [hview hok]
        exact .appended hm hbody hb

/-- The ends of a commit to a repository that holds `a`, in a session with the bytes `b`. -/
inductive Commits (S : Setup) (repo session : Str) (d : Digest) (a : Repo) (b : Bytes) :
    Except UploadError (Path × Nat) × World S → Prop
  | mismatch {w' : World S} (hhash : S.hash.hex b ≠ d.hex) (hview : repoView w' repo = a) :
      Commits S repo session d a b
        (.error (.digestMismatch d.toStr ("sha256:".toList ++ (S.hash.hex b).val)), w')
  | committed {v : Path × Nat} {w' : World S} (hhash : S.hash.hex b = d.hex)
      (hview : w'.log.ioFailed = false → repoView w' repo = (a.endDraft session).put d b) :
      Commits S repo session d a b (.ok v, w')
  | failed {out : Except UploadError (Path × Nat) × World S} (hfailed : out.2.log.ioFailed = true) :
      Commits S repo session d a b out

theorem exec_commit_view (hw : Ready w) (hrepo : Plain repo) {session : Str} {b : Bytes}
    (hup : (repoView w repo).uploads session = some b) (d : Digest) :
    Commits S repo session d (repoView w repo) b ((commit repo session d).exec w) := by
  obtain ⟨st, hopen⟩ := hw.open_iff.mp hup
  by_cases hhash : S.hash.hex b = d.hex
  · have hs : '/' ∉ session := (hw.sound.plain _ _ hopen.lookup).2
    rcases Sequential.exec_commit_cases hopen.lookup hopen.unfinished hopen.path hopen.read
      (hopen.fed.finalize.trans hhash) with ⟨e, w', hrun, hfailed⟩ | ⟨w', hrun, hsessions, hfs, hread⟩
    · rw [hrun]
      exact .failed hfailed
    rw [hrun]
    refine .committed hhash fun hok => ?_
    have hkeeps := keepsParts_along ((commit_along (K := {.ambient, .session})
      (Or.inl rfl) (Or.inr rfl) session d).rel_of_exec hrun) hrepo hw.sound hok
    have hstill := (commit_still repo session d).rel_of_exec hrun
    refine Holdings.ext (funext fun d' => ?_) ?_ (funext fun t => ?_) (funext fun s => ?_)
    · by_cases hd : d' = d
      · subst hd
        simpa using hread
      · rw [Holdings.put_blobs, Function.update_of_ne hd]
        refine blobs_of_spares hfs fun hp => ?_
        rcases hp with hp | hp
        · exact blobPath_ne_dataPath _ _ _ _ _ (hp.trans hopen.path).symm
        · exact hd (blobPath_injective hp)
    · exact hkeeps.tags (by simp) (by simp)
    · simp only [repoView_cached, Holdings.put_cached, Holdings.endDraft_cached, hstill.1]
    · rw [Holdings.put_uploads, Holdings.endDraft_uploads]
      by_cases hss : s = session
      · subst hss
        rw [Function.update_self, repoView_uploads, hsessions, AList.lookup_erase]
        rfl
      · have hsame : w'.sessions.lookup (repo, s) = w.sessions.lookup (repo, s) := by
          rw [hsessions, AList.lookup_erase_ne fun h => hss (Prod.mk.inj h).2]
        rw [Function.update_of_ne hss]
        simp only [repoView_uploads, hsame]
        refine Option.bind_congr fun st' hst' => ?_
        have hs' : '/' ∉ s := (hw.sound.plain _ _ hst').2
        rw [(hw.sound.intact.sessions _ _ hst').1]
        refine hfs.read (dataPath_not_scratch _ _ _) fun hp => ?_
        rcases hp with hp | hp
        · exact dataPath_notMem (S := S) hrepo hs hs' hss (hp.trans hopen.path)
        · exact dataPath_notMem_blobPath s d hp
  · have hfed : S.hash.finalize st.hasher = S.hash.hex b := hopen.fed.finalize
    have hrun := Sequential.exec_commit_mismatch hopen.lookup hopen.unfinished (d := d)
      (by rw [hfed]; exact hhash)
    rw [hrun, hfed]
    exact .mismatch hhash rfl

/-- The last chunk is appended, unless it is empty, and the session is committed. -/
theorem exec_finalize_view (hw : Ready w) (hrepo : Plain repo) (session : Str) (chunk : Bytes) (d : Digest) :
    ((repoView w repo).uploads session = none ∧ (finalize repo session
      (if chunk.isEmpty then none else some chunk) d).exec w = (.error (.notFound session), w)) ∨
    ∃ b, (repoView w repo).uploads session = some b ∧
      Commits S repo session d ((repoView w repo).draft session (b ++ chunk)) (b ++ chunk)
        ((finalize repo session (if chunk.isEmpty then none else some chunk) d).exec w) := by
  cases chunk with
  | nil =>
    cases hup : (repoView w repo).uploads session with
    | none => exact Or.inl ⟨rfl, Sequential.exec_commit_dead (hw.lookup_of_uploads hup) d⟩
    | some b =>
      refine Or.inr ⟨b, rfl, ?_⟩
      rw [List.append_nil, Holdings.draft_self hup]
      exact exec_commit_view hw hrepo hup d
  | cons x chunk =>
    rcases exec_append_view hw hrepo session (x :: chunk) with ⟨hno, hrun⟩ | ⟨b, w₁, hb, hrun, hview⟩
    · refine Or.inl ⟨hno, ?_⟩
      exact Prog.exec_bind_error hrun
    · refine Or.inr ⟨b, hb, ?_⟩
      have hrest : (finalize repo session (if (x :: chunk).isEmpty then none else some (x :: chunk)) d).exec w =
          (commit repo session d).exec w₁ := Prog.exec_bind_ok hrun
      rw [hrest]
      cases hok : ((commit repo session d).exec w₁).2.log.ioFailed with
      | true => exact .failed hok
      | false =>
        have hok₁ := Along.not_failed_before (commit_along (K := {.ambient, .session})
          (Or.inl rfl) (Or.inr rfl) session d w₁) hok
        have hready : Ready w₁ := hw.along ((append_along (K := {.ambient, .session})
          (Or.inl rfl) (Or.inr rfl) session (x :: chunk)).rel_of_exec hrun) (by simp) hrepo hok₁
        rw [← hview hok₁]
        refine exec_commit_view hready hrepo ?_ d
        rw [hview hok₁]
        simp

theorem uploadPut_conforms (hw : Ready w) (hrepo : Plain repo) (hm : req.method = .put) (session : Str) :
    Conforms S repo req (.uploadSession session) w
      ((uploadPut repo session req.digestQuery req.body : Handler S).exec w) := by
  unfold uploadPut
  cases hquery : req.digestQuery with
  | none => exact .unchanged (.noQuery hm hquery)
  | some text =>
    simp only
    cases hd : Digest.parse text with
    | error e => exact .unchanged (.badQuery hm hquery hd)
    | ok d =>
      simp only
      cases hbody : collectBody req.body maxUpload with
      | error resp => exact .unchanged (.unreadUpload hm hquery hd hbody)
      | ok chunk =>
        simp only
        rcases exec_finalize_view hw hrepo session chunk d with ⟨hno, hrun⟩ | ⟨b, hb, hcommits⟩
        · rw [Prog.exec_bind_ok (Prog.exec_attempt_eq.mpr hrun)]
          exact .unchanged (.noUpload hm hquery hd hbody hno)
        · rw [Prog.exec_bind_ok (Prog.exec_attempt _ _)]
          generalize (finalize repo session (if chunk.isEmpty = true then none else some chunk) d).exec w =
            out at hcommits
          cases hcommits with
          | mismatch hhash hview =>
            intro resp hresp hok
            cases hresp
            have hserves : Serves S repo req _ _ _ _ := .mismatch hm hquery hd hbody hb hhash
            rw [← hview] at hserves
            exact hserves
          | @committed v w₁ hhash hview =>
            simp only
            cases hok : w₁.log.ioFailed with
            | true =>
              refine .of_failed ?_
              simp only [exec_build]
              exact hok
            | false =>
              refine .of_build ?_
              rw [hview hok, Holdings.endDraft_draft]
              exact .uploaded hm hquery hd hbody hb hhash
          | failed hfailed =>
            refine .of_failed ?_
            obtain ⟨r, w₁⟩ := out
            rcases r with (_ | _ | _ | _) | v
            · exact hfailed
            · exact hfailed
            · exact hfailed
            · exact hfailed
            · simp only [exec_build]
              exact hfailed

/-- The worlds around the creation of a session. -/
structure Created (repo session : Str) (w w' : World S) : Prop where
  slash : '/' ∉ session
  sessions : ∃ info, info.bytesReceived = 0 ∧ w'.sessions = w.sessions.insert (repo, session)
    ⟨info, S.hash.new, dataPath S.root repo session, false⟩
  fs : Spares {dataPath S.root repo session} w.fs w'.fs
  read : w'.fs.read (dataPath S.root repo session) = some []

/-- A session is created, or a step fails. -/
theorem exec_uploadInit_cases (repo : Str) (w : World S) :
    (∃ session w', (uploadInit repo : Handler S).exec w = (build .accepted
        [(.location, uploadLocation repo session), (.range, "0-0".toList), (.dockerUploadUuid, session)]
        .empty : Handler S).exec w' ∧ Created repo session w w') ∨
    ((uploadInit repo : Handler S).exec w).2.log.ioFailed = true := by
  unfold uploadInit
  rcases ManifestPuts.exec_ensureRepo_cases repo w with ⟨w₁, hmk, hunchanged, -⟩ | ⟨e, w₁, hmk, hfailed⟩
  · have hmkdirs : (Along S repo {.ambient}).rel w w₁ :=
      (ensureRepo_along (K := {.ambient}) rfl repo).rel_of_exec hmk
    rw [Prog.exec_bind_ok (Prog.exec_attempt_eq.mpr hmk)]
    cases hok : ((createSession repo).exec w₁).2.log.ioFailed with
    | true =>
      refine Or.inr ?_
      rcases hrun : (createSession repo).exec w₁ with ⟨e | session, w₂⟩
      · rw [hrun] at hok
        rw [Prog.exec_bind_ok (Prog.exec_attempt_eq.mpr hrun)]
        exact hok
      · rw [hrun] at hok
        rw [Prog.exec_bind_ok (Prog.exec_attempt_eq.mpr hrun)]
        simp only [exec_build]
        exact hok
    | false =>
      obtain ⟨info, w₂, hrun, hzero, hsessions, hfs, hread⟩ :=
        Sequential.exec_createSession_clean w₁ repo hok
      refine Or.inl ⟨w₁.drawn, w₂, ?_, notMem_drawn w₁, ⟨info, hzero, ?_⟩, ?_, hread⟩
      · rw [Prog.exec_bind_ok (Prog.exec_attempt_eq.mpr hrun)]
      · rw [hsessions, hunchanged.sessions]
      · exact ((ambient_of_along hmkdirs).fs.mono (Set.empty_subset _)).trans hfs
  · rw [Prog.exec_bind_ok (Prog.exec_attempt_eq.mpr hmk)]
    exact Or.inr hfailed

theorem uploadInit_still (repo : Str) : Moves still (uploadInit repo : Handler S) := by
  refine (ensureRepo_still repo).of_attempt.seq fun r => ?_
  cases r with
  | error e => exact Moves.of_pure _
  | ok u =>
    refine (createSession_still repo).of_attempt.seq fun r => ?_
    cases r with
    | error e => exact Moves.of_pure _
    | ok session => exact build_still _ _ _

/-- A new session has no bytes. -/
theorem uploadInit_conforms (hw : Ready w) (hrepo : Plain repo) (hm : req.method = .post) :
    Conforms S repo req .uploadInit w ((uploadInit repo : Handler S).exec w) := by
  have halong : Moves (Along S repo (pullKinds ∪ {.create})) (uploadInit repo : Handler S) :=
    uploadInit_along Set.subset_union_left (Or.inr rfl)
  have hkept := halong w
  have hstill := uploadInit_still (S := S) repo w
  rcases exec_uploadInit_cases repo w with ⟨session, w', hrun, hcreated⟩ | hfailed
  · rw [hrun, exec_build] at hkept hstill
    rw [hrun]
    cases hok : w'.log.ioFailed with
    | true =>
      refine .of_failed ?_
      simp only [exec_build]
      exact hok
    | false =>
      obtain ⟨info, -, hsessions⟩ := hcreated.sessions
      have hkeeps := keepsParts_along hkept hrepo hw.sound hok
      have hcached : w'.upstreamTags = w.upstreamTags := hstill.1
      have hview : repoView w' repo = (repoView w repo).draft session [] := by
        refine Holdings.ext (funext fun d => ?_) ?_ (funext fun t => ?_) ?_
        · refine blobs_of_spares hcreated.fs fun hp => ?_
          exact blobPath_ne_dataPath _ _ _ _ _ (Set.mem_singleton_iff.mp hp).symm
        · exact hkeeps.tags (by simp [pullKinds]) (by simp [pullKinds])
        · simp only [repoView_cached, Holdings.draft_cached, hcached]
        · exact uploads_of_insert hw.sound hrepo hcreated.slash rfl hsessions hcreated.fs hcreated.read
      refine .of_build ?_
      rw [hview]
      exact .begun hm hcreated.slash
  · exact .of_failed hfailed

/-- A new session keeps the invariants. -/
theorem ready_uploadInit (hw : Ready w) (hrepo : Plain repo)
    (hok : ((uploadInit repo : Handler S).exec w).2.log.ioFailed = false) :
    Ready ((uploadInit repo : Handler S).exec w).2 := by
  have halong : Moves (Along S repo (pullKinds ∪ {.create})) (uploadInit repo : Handler S) :=
    uploadInit_along Set.subset_union_left (Or.inr rfl)
  have hkept := halong w
  obtain ⟨hsound, hcache, hsized, htyped, hrooted⟩ : Sound ((uploadInit repo : Handler S).exec w).2 ∧
      CacheTrue ((uploadInit repo : Handler S).exec w).2 ∧
      CacheSized ((uploadInit repo : Handler S).exec w).2 ∧
      TagsTyped ((uploadInit repo : Handler S).exec w).2 ∧
      ((uploadInit repo : Handler S).exec w).2.fs.isDir S.root = true :=
    Along.keep (I := fun v => Sound v ∧ CacheTrue v ∧ CacheSized v ∧ TagsTyped v ∧
        v.fs.isDir S.root = true) hkept
      (fun _ heff hok ⟨hs, hc, hz, ht, hr⟩ => ⟨hs.effect heff hrepo hok, hc.effect heff hrepo hs.dataNamed,
        hz.effect heff hs, ht.effect heff, Effect.dirs heff hs hok _ hr⟩)
      ⟨hw.sound, hw.cache, hw.sized, hw.typed, hw.rooted⟩ hok
  refine ⟨hsound, hcache, hsized, htyped, ?_, hrooted⟩
  rcases exec_uploadInit_cases repo w with ⟨session, w', hrun, hcreated⟩ | hfailed
  · rw [hrun, exec_build] at hsound ⊢
    obtain ⟨info, hzero, hsessions⟩ := hcreated.sessions
    refine hw.counted.of_lookup fun key st b hst hb => ?_
    by_cases hkey : key = (repo, session)
    · subst hkey
      rw [hsessions, AList.lookup_insert] at hst
      cases hst
      cases hcreated.read.symm.trans hb
      exact Or.inr ⟨rfl, hzero⟩
    · rw [hsessions, AList.lookup_insert_ne hkey] at hst
      refine Or.inl ⟨hst, ?_⟩
      have hpath := (hw.sound.intact.sessions _ _ hst).1
      rw [← hb, hpath]
      refine (hcreated.fs.read (dataPath_not_scratch _ _ _) fun hp => hkey ?_).symm
      obtain ⟨hr, hs⟩ := hw.sound.plain _ _ hst
      obtain ⟨h₁, h₂⟩ := dataPath_injective hr hrepo hs hcreated.slash (Set.mem_singleton_iff.mp hp)
      exact Prod.ext h₁ h₂
  · cases hok.symm.trans hfailed

end Quill.Registry
