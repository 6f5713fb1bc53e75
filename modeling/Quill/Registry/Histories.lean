import Quill.Registry.Completeness
import Quill.Registry.Refinement

/-!
# What the exchanges say about the repositories

The requests and responses of a run determine the open uploads and the pushed tags of every repository:
`draftOf` and `pushedOf` read them off the history. With the refinement of the service this holds of
the server (`uploads_eq_draftOf`, `tags_eq_pushedOf`).

A blob whose upload was answered with 201 is served, with the bytes of the accepted chunks and their
number, until a deletion of its digest is accepted (`uploaded_blob_is_served`), and a repository without an upstream
lists the tags that its history has (`listing_is_exact`).
-/

namespace Quill.Registry

open Text Files Cas World LocalStorage Uploads LocalTags

variable {S : Setup} {repo : Str} {req : Request} {a a' : Repo} {action : Action} {resp : Response}

/-! ## Exchanges of one repository -/

/-- What a component of a repository is after an exchange, when `f` says it for the exchanges of the
repository. -/
def within {β : Type} (repo : Str) (f : β → Request → Action → Response → β) (x : β) (e : Exchange) : β :=
  if (split e.1.rest).1 = repo then f x e.1 (split e.1.rest).2 e.2 else x

theorem not_plain_nil : ¬ Plain [] := by decide

/-- A step serves a request to the repository, or it leaves the repository as it is. -/
theorem Shelf.Step.at {s s' : Shelf} {e : Exchange} (h : Shelf.Step S s e s') (r : PlainName) :
    ((split e.1.rest).1 = r.val ∧ Serves S r.val e.1 (s r) (split e.1.rest).2 e.2 (s' r)) ∨
    ((split e.1.rest).1 ≠ r.val ∧ s' r = s r) := by
  have hnone : ∀ {rest : Str}, (split rest).1 = [] → (split rest).1 ≠ r.val := by
    intro rest hrest heq
    exact not_plain_nil (by rw [← hrest, heq]; exact r.property)
  cases h with
  | unknown hempty => exact Or.inr ⟨hnone hempty, rfl⟩
  | catalog hrest => exact Or.inr ⟨hnone (by rw [hrest]; decide), rfl⟩
  | @named b r' hr' hserves =>
    by_cases hr : r = r'
    · subst hr
      rw [Function.update_self]
      exact Or.inl ⟨hr', hserves⟩
    · rw [Function.update_of_ne hr]
      exact Or.inr ⟨fun h => hr (Subtype.ext (h.symm.trans hr')), rfl⟩

/-- A component that every served request changes as `f` says is read off the history. -/
theorem Shelf.component {β : Type} {g : Repo → β} {f : β → Request → Action → Response → β} (r : PlainName)
    (hserves : ∀ {req action resp} {a a' : Repo}, Serves S r.val req a action resp a' →
      g a' = f (g a) req action resp) {s s' : Shelf} {es : List Exchange}
    (h : Trace (Shelf.Step S) s es s') : g (s' r) = es.foldl (within r.val f) (g (s r)) := by
  refine Trace.foldl (f := fun s : Shelf => g (s r)) (fun hstep => ?_) h
  rcases hstep.at r with ⟨hr, hserved⟩ | ⟨hr, hsame⟩
  · simp only [within, if_pos hr]
    exact hserves hserved
  · simp only [within, if_neg hr, hsame]

/-! ## Uploads -/

/-- The body of a chunk that was read. -/
def chunkOf (req : Request) : Bytes := (collectBody req.body maxUpload).toOption.getD []

/-- The request asks for a digest and its body was read. -/
def asksCommit (req : Request) : Bool :=
  (req.digestQuery.bind fun text => (Digest.parse text).toOption).isSome &&
    (collectBody req.body maxUpload).toOption.isSome

/-- What a client knows of the bytes of an upload after an exchange: an accepted chunk is added, also
by a commit that is refused for its digest; a commit that is answered with 201 ends the upload. -/
def draftAfter (session : Str) (b : Option Bytes) (req : Request) :
    Action → Response → Option Bytes
  | .uploadInit, resp =>
    if req.method = .post ∧ resp.header .dockerUploadUuid = some session then some [] else b
  | .uploadSession s, resp =>
    if s = session then
      match req.method, resp.status with
      | .patch, .accepted => b.map (· ++ chunkOf req)
      | .put, .created => none
      | .put, .badRequest => if asksCommit req then b.map (· ++ chunkOf req) else b
      | _, _ => b
    else b
  | _, _ => b

/-- The bytes that a session of the repository has received, read off the exchanges: `none` before
it is opened and after it is over. -/
def draftOf (repo session : Str) (es : List Exchange) : Option Bytes :=
  es.foldl (within repo (draftAfter session)) none

theorem status_of_unread {body : Option Bytes} {n : Nat} (h : collectBody body n = .error resp) :
    resp.status = .badRequest ∨ resp.status = .payloadTooLarge := by
  unfold collectBody at h
  cases body with
  | none =>
    cases h
    exact Or.inl rfl
  | some b =>
    simp only at h
    split at h
    · cases h
      exact Or.inr rfl
    · cases h

theorem Serves.draft (h : Serves S repo req a action resp a') (session : Str) :
    a'.uploads session = draftAfter session (a.uploads session) req action resp := by
  cases h with
  | @unsupported action hno =>
    cases action with
    | uploadInit =>
      rw [draftAfter, if_neg]
      exact fun hm => hno hm.1
    | uploadSession s =>
      simp only [draftAfter, unsupportedAnswer, errorResponse]
      split
      · cases hm : req.method <;> simp_all [Supported]
      · rfl
    | _ => rfl
  | @begun s hm hsession =>
    have hheader : (sessionAnswer repo s "0-0".toList).header .dockerUploadUuid = some s := rfl
    simp only [draftAfter, hheader, hm, true_and, Option.some.injEq, Holdings.draft_uploads,
      Function.update_apply, eq_comm]
  | @unreadChunk s resp hm hbody =>
    have hstatus := status_of_unread hbody
    simp only [draftAfter, hm]
    split
    · split <;> simp_all
    · rfl
  | noSession hm hbody hno =>
    simp [draftAfter, hm, sessionNotFound, errorResponse]
  | @appended s chunk b hm hbody hb =>
    have hchunk : chunkOf req = chunk := by simp [chunkOf, hbody, Except.toOption]
    by_cases hs : s = session
    · subst hs
      simp [draftAfter, hm, sessionAnswer, hb, hchunk]
    · simp [draftAfter, hs, Function.update_of_ne (Ne.symm hs)]
  | noQuery hm hquery =>
    simp [draftAfter, hm, errorResponse, asksCommit, hquery]
  | badQuery hm hquery hd =>
    simp [draftAfter, hm, digestInvalid, errorResponse, asksCommit, hquery, hd, Except.toOption]
  | @unreadUpload s text d resp hm hquery hd hbody =>
    have hstatus := status_of_unread hbody
    have hcommit : asksCommit req = false := by simp [asksCommit, hbody, Except.toOption]
    simp only [draftAfter, hm, hcommit]
    split
    · split <;> simp_all
    · rfl
  | noUpload hm hquery hd hbody hno =>
    simp [draftAfter, hm, sessionNotFound, errorResponse]
  | @mismatch s text d chunk b hm hquery hd hbody hb hhash =>
    have hchunk : chunkOf req = chunk := by simp [chunkOf, hbody, Except.toOption]
    have hcommit : asksCommit req = true := by simp [asksCommit, hquery, hd, hbody, Except.toOption]
    by_cases hs : s = session
    · subst hs
      simp [draftAfter, hm, mismatchAnswer, errorResponse, hcommit, hb, hchunk]
    · simp [draftAfter, hs, Function.update_of_ne (Ne.symm hs)]
  | @uploaded s text d chunk b hm hquery hd hbody hb hhash =>
    by_cases hs : s = session
    · subst hs
      simp [draftAfter, hm, uploadedAnswer]
    · simp [draftAfter, hs, Function.update_of_ne (Ne.symm hs)]
  | fetchedManifest =>
    simp only [draftAfter, fetched]
    split <;> split <;> rfl
  | pushed =>
    simp only [draftAfter, pushedManifest]
    split <;> rfl
  | streamed hm hd hb hroute hthen =>
    obtain rfl | ⟨chunks, -, -, rfl⟩ := hthen
    · rfl
    · rfl
  | _ => rfl

/-- The uploads of a run are those of its history. -/
theorem uploads_eq_draftOf {ticks wall : List Nat} {es : List Exchange} {w : World S}
    (h : Served S ticks wall es w) (hplain : ∀ e ∈ es, PlainRepo e.1) (hok : w.log.ioFailed = false)
    (r : PlainName) (session : Str) : (repoView w r.val).uploads session = draftOf r.val session es :=
  Shelf.component (g := fun a => a.uploads session) r (fun h => h.draft session)
    (h.shelf hplain hok).2

/-! ## Pushed tags -/

/-- The body of a manifest. -/
def manifestOf (req : Request) : Bytes := (collectBody req.body 33554432).toOption.getD []

/-- What a client knows of the digest that a tag was pushed for: an accepted push sets it, a deletion
of the tag that is accepted or any deletion of its digest takes it away. -/
def pushedAfter (S : Setup) (tag : Str) (x : Option Digest) (req : Request) : Action → Response → Option Digest
  | .manifest reference, resp =>
    match req.method, Digest.parse reference with
    | .put, .error _ => if reference = tag ∧ resp.status = .created then some (S.digest (manifestOf req)) else x
    | .delete, .error _ => if reference = tag ∧ resp.status = .accepted then none else x
    | .delete, .ok d => x.filter (· ≠ d)
    | _, _ => x
  | _, _ => x

/-- The digest that a tag of the repository was last pushed to, read off the exchanges, unless the
tag or the digest was deleted since. -/
def pushedOf (S : Setup) (repo tag : Str) (es : List Exchange) : Option Digest :=
  es.foldl (within repo (pushedAfter S tag)) none

/-- A request for a manifest that is neither put nor deleted. -/
theorem pushedAfter_of_pull {reference tag : Str} (hm : req.method = .get ∨ req.method = .head)
    (x : Option Digest) : pushedAfter S tag x req (.manifest reference) resp = x := by
  rcases hm with hm | hm
  · simp [pushedAfter, hm]
  · simp [pushedAfter, hm]

theorem Serves.pushed_tag (h : Serves S repo req a action resp a') (tag : Str) :
    a'.tags tag = pushedAfter S tag (a.tags tag) req action resp := by
  cases h with
  | @unsupported action hno =>
    cases action with
    | manifest reference =>
      simp only [Supported, not_or] at hno
      cases hm : req.method <;> simp_all [pushedAfter]
    | _ => rfl
  | manifest hm => exact (pushedAfter_of_pull hm _).symm
  | noManifest hm => exact (pushedAfter_of_pull hm _).symm
  | fetchedManifest hm =>
    rw [pushedAfter_of_pull hm]
    simp only [fetched]
    split <;> split <;> rfl
  | @unreadManifest reference resp hm hbody =>
    have hstatus : resp.status ≠ .created := by
      rcases status_of_unread hbody with h | h <;> simp [h]
    cases hp : Digest.parse reference <;> simp [pushedAfter, hm, hp, hstatus]
  | @otherDigest reference b d hm hbody hd hne => simp [pushedAfter, hm, hd]
  | @missingBlob reference text b hm hbody hd htext hmissing =>
    cases hp : Digest.parse reference <;> simp [pushedAfter, hm, hp, invalidAnswer, errorResponse]
  | @pushed reference b hm hbody hd hblobs =>
    have hbytes : manifestOf req = b := by simp [manifestOf, hbody, Except.toOption]
    cases hp : Digest.parse reference with
    | error e =>
      have htag : IsTag reference := ⟨e, hp⟩
      simp only [pushedAfter, hm, hp, pushedManifest, if_pos htag, hbytes, pushedAnswer, Holdings.tag_tags,
        Function.update_apply, Holdings.put_tags, and_true, eq_comm]
    | ok d =>
      have hno : ¬ IsTag reference := by
        rintro ⟨e, he⟩
        cases hp.symm.trans he
      simp only [pushedAfter, hm, hp, pushedManifest, if_neg hno, Holdings.put_tags]
  | @untagged reference d hm htag hd =>
    obtain ⟨e, he⟩ := htag
    simp only [pushedAfter, hm, he, acceptedAnswer, Holdings.untag_tags, Function.update_apply, and_true,
      eq_comm]
  | @noTag reference hm htag hd =>
    obtain ⟨e, he⟩ := htag
    simp [pushedAfter, hm, he, manifestUnknown, errorResponse]
  | deletedManifest hm hd => simp [pushedAfter, hm, hd]
  | streamed hm hd hb hroute hthen =>
    obtain rfl | ⟨chunks, -, -, rfl⟩ := hthen
    · rfl
    · rfl
  | _ => rfl

/-- The pushed tags of a run are those of its history. -/
theorem tags_eq_pushedOf {ticks wall : List Nat} {es : List Exchange} {w : World S}
    (h : Served S ticks wall es w) (hplain : ∀ e ∈ es, PlainRepo e.1) (hok : w.log.ioFailed = false)
    (r : PlainName) (tag : Str) : (repoView w r.val).tags tag = pushedOf S r.val tag es :=
  Shelf.component (g := fun a => a.tags tag) r (fun h => h.pushed_tag tag)
    (h.shelf hplain hok).2

/-! ## The answers to an upload -/

/-- The last exchange of a run, as a step of the service. -/
theorem Served.last {ticks wall : List Nat} {es : List Exchange} {e : Exchange} {w : World S}
    (h : Served S ticks wall (es ++ [e]) w) (hplain : ∀ e' ∈ es ++ [e], PlainRepo e'.1)
    (hok : w.log.ioFailed = false) : ∃ w₁, Served S ticks wall es w₁ ∧ w₁.log.ioFailed = false ∧
      Ready w₁ ∧ Exchanges S w₁ e w ∧ Shelf.Step S (view w₁) e (view w) := by
  obtain ⟨w₁, hbefore, hlast⟩ := Trace.snoc_iff.mp h.trace
  have hok₁ : w₁.log.ioFailed = false := not_failed_before hlast hok
  have hserved : Served S ticks wall es w₁ := served_iff_trace.mpr hbefore
  have hready := (hserved.shelf (fun e' he' => hplain e' (List.mem_append_left _ he')) hok₁).1
  exact ⟨w₁, hserved, hok₁, hready, hlast, (answers_step (hplain e (by simp)) hready hok hlast).2⟩

theorem Serves.patch_answer {session : Str} {chunk : Bytes}
    (h : Serves S repo req a (.uploadSession session) resp a') (hm : req.method = .patch)
    (hbody : collectBody req.body maxUpload = .ok chunk) : resp = match a.uploads session with
      | none => sessionNotFound
      | some b => sessionAnswer repo session (rangeOf (b ++ chunk)) := by
  cases h with
  | unsupported hno => exact absurd (Or.inl hm) hno
  | unreadChunk _ hbody' => cases hbody.symm.trans hbody'
  | noSession _ _ hno => simp only [hno]
  | appended _ hbody' hb =>
    cases hbody.symm.trans hbody'
    simp only [hb]
  | noQuery hm' => cases hm.symm.trans hm'
  | badQuery hm' => cases hm.symm.trans hm'
  | unreadUpload hm' => cases hm.symm.trans hm'
  | noUpload hm' => cases hm.symm.trans hm'
  | mismatch hm' => cases hm.symm.trans hm'
  | uploaded hm' => cases hm.symm.trans hm'

theorem Serves.commit_answer {session text : Str} {chunk : Bytes} {d : Digest}
    (h : Serves S repo req a (.uploadSession session) resp a') (hm : req.method = .put)
    (hquery : req.digestQuery = some text) (hd : Digest.parse text = .ok d)
    (hbody : collectBody req.body maxUpload = .ok chunk) : resp = match a.uploads session with
      | none => sessionNotFound
      | some b => if S.hash.hex (b ++ chunk) = d.hex then uploadedAnswer repo d
          else mismatchAnswer d (S.hash.hex (b ++ chunk)) := by
  cases h with
  | unsupported hno => exact absurd (Or.inr hm) hno
  | unreadChunk hm' => cases hm.symm.trans hm'
  | noSession hm' => cases hm.symm.trans hm'
  | appended hm' => cases hm.symm.trans hm'
  | noQuery _ hquery' => cases hquery.symm.trans hquery'
  | badQuery _ hquery' hd' =>
    cases hquery.symm.trans hquery'
    cases hd.symm.trans hd'
  | unreadUpload _ _ _ hbody' => cases hbody.symm.trans hbody'
  | noUpload _ _ _ _ hno => simp only [hno]
  | mismatch _ hquery' hd' hbody' hb hhash =>
    cases hquery.symm.trans hquery'
    cases hd.symm.trans hd'
    cases hbody.symm.trans hbody'
    simp only [hb, if_neg hhash]
  | uploaded _ hquery' hd' hbody' hb hhash =>
    cases hquery.symm.trans hquery'
    cases hd.symm.trans hd'
    cases hbody.symm.trans hbody'
    simp only [hb, if_pos hhash]

/-- The exchanges of a run decide the answer to the next chunk and to the next commit of an upload. -/
theorem upload_answers_follow_history {ticks wall : List Nat} {es : List Exchange} {resp : Response}
    {w : World S} (h : Served S ticks wall (es ++ [(req, resp)]) w)
    (hplain : ∀ e ∈ es ++ [(req, resp)], PlainRepo e.1) (hok : w.log.ioFailed = false)
    (r : PlainName) (session : Str) (hreq : split req.rest = (r.val, .uploadSession session))
    {chunk : Bytes} (hbody : collectBody req.body maxUpload = .ok chunk) :
    (req.method = .patch → resp = match draftOf r.val session es with
      | none => sessionNotFound
      | some b => sessionAnswer r.val session (rangeOf (b ++ chunk))) ∧
    ∀ text d, req.method = .put → req.digestQuery = some text → Digest.parse text = .ok d →
      resp = match draftOf r.val session es with
        | none => sessionNotFound
        | some b => if S.hash.hex (b ++ chunk) = d.hex then uploadedAnswer r.val d
            else mismatchAnswer d (S.hash.hex (b ++ chunk)) := by
  obtain ⟨w₁, hserved, hok₁, -, -, hstep⟩ := h.last hplain hok
  have hdraft := uploads_eq_draftOf hserved (fun e he => hplain e (List.mem_append_left _ he)) hok₁ r session
  have hserves := (hstep.at r).resolve_right fun h => h.1 (by rw [hreq])
  obtain ⟨-, hserves⟩ := hserves
  rw [hreq] at hserves
  rw [← hdraft]
  exact ⟨fun hm => hserves.patch_answer hm hbody,
    fun text d hm hquery hd => hserves.commit_answer hm hquery hd hbody⟩

/-- The commit of the example run is answered with 201, since its one chunk has the digest. -/
theorem commit_follows_history :
    uploadedAnswer "app".toList layerDigest =
      match draftOf "app".toList firstSession (uploadExchanges.take 2) with
      | none => sessionNotFound
      | some b => if Sha256.streaming.hex (b ++ []) = layerDigest.hex then
            uploadedAnswer "app".toList layerDigest
          else mismatchAnswer layerDigest (Sha256.streaming.hex (b ++ [])) := by
  obtain ⟨w, hserved, hplain, hok, -⟩ := upload_run
  have hcut : Served ManifestPuts.blankServer [] [] (uploadExchanges.take 2 ++ [uploadExchanges[2]] ++
      [uploadExchanges[3]]) w := hserved
  obtain ⟨w₁, hserved₁, hok₁, -⟩ := hcut.last hplain hok
  exact (upload_answers_follow_history hserved₁
    (fun e he => hplain e (List.mem_of_mem_take (i := 3) he)) hok₁ ⟨"app".toList, by decide⟩ firstSession
    (by decide +kernel) rfl).2 _ _ rfl rfl (Digest.parse_toStr _)

/-! ## Uploaded blobs -/

/-- A deletion of the digest that is accepted. -/
def DropsBlob (d : Digest) (req : Request) (action : Action) (resp : Response) : Prop :=
  req.method = .delete ∧ resp.status = .accepted ∧
    ∃ text, Digest.parse text = .ok d ∧ (action = .blob text ∨ action = .manifest text)

/-- The exchange deletes the digest from the repository. -/
def Drops (repo : Str) (d : Digest) (e : Exchange) : Prop :=
  (split e.1.rest).1 = repo ∧ DropsBlob d e.1 (split e.1.rest).2 e.2

theorem put_ne_none {d d' : Digest} {b : Bytes} (h : a.blobs d ≠ none) : (a.put d' b).blobs d ≠ none := by
  rw [Holdings.put_blobs, Function.update_apply]
  split
  · simp
  · exact h

/-- A blob stays until a deletion of its digest is accepted. -/
theorem Serves.blob_stays {d : Digest} (h : Serves S repo req a action resp a') (hb : a.blobs d ≠ none)
    (hkept : ¬ DropsBlob d req action resp) : a'.blobs d ≠ none := by
  cases h with
  | streamed _ _ _ _ hthen =>
    obtain rfl | ⟨chunks, -, -, rfl⟩ := hthen
    · exact hb
    · exact put_ne_none hb
  | awaited => exact put_ne_none hb
  | @deletedBlob text d' b hm hd hthere =>
    have hne : d ≠ d' := by
      rintro rfl
      exact hkept ⟨hm, rfl, text, hd, Or.inl rfl⟩
    rwa [Holdings.drop_blobs, Function.update_of_ne hne]
  | fetchedManifest =>
    simp only [fetched]
    split <;> split
    · exact put_ne_none hb
    · exact hb
    · exact put_ne_none hb
    · exact hb
  | pushed =>
    simp only [pushedManifest]
    split <;> exact put_ne_none hb
  | @deletedManifest reference d' hm hd =>
    have hne : d ≠ d' := by
      rintro rfl
      refine hkept ⟨hm, ?_, reference, hd, Or.inr rfl⟩
      rw [if_pos (Option.isSome_iff_ne_none.mpr hb)]
      rfl
    rwa [Holdings.drop_blobs, Function.update_of_ne hne]
  | uploaded => exact put_ne_none hb
  | _ => exact hb

theorem blob_stays {s s' : Shelf} {es : List Exchange} (h : Trace (Shelf.Step S) s es s') (r : PlainName)
    {d : Digest} (hkept : ∀ e ∈ es, ¬ Drops r.val d e) (hb : (s r).blobs d ≠ none) :
    (s' r).blobs d ≠ none := by
  refine Trace.keep (I := fun s : Shelf => (s r).blobs d ≠ none) (fun hl hstep hs => ?_) h hkept hb
  rcases hstep.at r with ⟨hr, hserves⟩ | ⟨-, hsame⟩
  · exact hserves.blob_stays hs fun hdrop => hl ⟨hr, hdrop⟩
  · rwa [hsame]

theorem Serves.uploaded_blob {session text : Str} {d : Digest}
    (h : Serves S repo req a (.uploadSession session) resp a') (hm : req.method = .put)
    (hquery : req.digestQuery = some text) (hd : Digest.parse text = .ok d)
    (hcreated : resp.status = .created) : ∃ b chunk, a.uploads session = some b ∧
      collectBody req.body maxUpload = .ok chunk ∧ a'.blobs d = some (b ++ chunk) := by
  cases h with
  | unsupported => cases hcreated
  | unreadChunk hm' => cases hm.symm.trans hm'
  | noSession hm' => cases hm.symm.trans hm'
  | appended hm' => cases hm.symm.trans hm'
  | noQuery => cases hcreated
  | badQuery => cases hcreated
  | unreadUpload _ _ _ hbody =>
    rcases status_of_unread hbody with h | h <;> cases h.symm.trans hcreated
  | noUpload => cases hcreated
  | mismatch => cases hcreated
  | @uploaded _ _ d' chunk b _ hquery' hd' hbody hb hhash =>
    cases hquery.symm.trans hquery'
    cases hd.symm.trans hd'
    exact ⟨b, chunk, hb, hbody, by simp⟩

/-- A pull of a blob that is there is answered with its contents and their length. -/
theorem Exchanges.pulled_blob {w w' : World S} {r : PlainName} {text : Str} {d : Digest} {b : Bytes}
    (h : Exchanges S w (req, resp) w') (hw : Ready w) (hfree : CollisionFree S w.log.stored)
    (hreq : split req.rest = (r.val, .blob text)) (hm : req.method = .get ∨ req.method = .head)
    (hd : Digest.parse text = .ok d) (hb : (repoView w r.val).blobs d = some b) :
    ∃ length, resp = blobAnswer d length b (req.method = .get) ∧ (b.length < u64 → length = b.length) := by
  have hrun : (dispatch req : Handler S).exec w = (.ok resp, w') := h
  have hname : (split req.rest).1 ≠ [] := by
    rw [hreq]
    exact fun hnil => not_plain_nil (hnil ▸ r.property)
  have hroute : (route req r.val (.blob text) : Handler S) =
      getBlob r.val text (req.method = .get) req.upstream := by
    rcases hm with hm | hm <;> simp [route, hm]
  obtain ⟨length, w₁, hheld, c, hmem, hhash, hlength⟩ :=
    exec_getBlob_held hw hd hb (req.method = .get) req.upstream
  rw [dispatch_named hname, hreq, hroute, hheld] at hrun
  cases hrun
  obtain ⟨hhash', hmem'⟩ := hw.sound.blob (r := r.val) hb
  obtain rfl := hfree c hmem b hmem' (hhash.trans hhash'.symm)
  exact ⟨length, rfl, hlength⟩

/-- The byte strings that were stored stay recorded. -/
theorem stored_of_trace {w w' : World S} {es : List Exchange} (h : Trace (Exchanges S) w es w')
    (hdata : DataNamed w) (hok : w'.log.ioFailed = false) :
    DataNamed w' ∧ w.log.stored ⊆ w'.log.stored := by
  induction h with
  | nil => exact ⟨hdata, List.Subset.refl _⟩
  | @snoc es u v e _ hlast ih =>
    obtain ⟨hnamed, hsub⟩ := ih (not_failed_before hlast hok)
    exact ⟨dataNamed_dispatch hlast hnamed, List.Subset.trans hsub (stored_dispatch hnamed hlast hok)⟩

/-- A blob whose upload was answered with 201 is served, until a deletion of its digest is accepted,
with the bytes of the chunks that were accepted and their number as the length. -/
theorem uploaded_blob_is_served {ticks wall : List Nat} {es es' : List Exchange} {put get : Request}
    {created resp : Response} {w : World S}
    (h : Served S ticks wall (es ++ [(put, created)] ++ es' ++ [(get, resp)]) w)
    (hplain : ∀ e ∈ es ++ [(put, created)] ++ es' ++ [(get, resp)], PlainRepo e.1)
    (hok : w.log.ioFailed = false) (hfree : CollisionFree S w.log.stored) (r : PlainName)
    {session text text' : Str} {d : Digest} (hput : split put.rest = (r.val, .uploadSession session))
    (hm : put.method = .put) (hquery : put.digestQuery = some text) (hd : Digest.parse text = .ok d)
    (hcreated : created.status = .created) (hget : split get.rest = (r.val, .blob text'))
    (hm' : get.method = .get ∨ get.method = .head) (hd' : Digest.parse text' = .ok d)
    (hkept : ∀ e ∈ es', ¬ Drops r.val d e) :
    ∃ b chunk length, draftOf r.val session es = some b ∧ collectBody put.body maxUpload = .ok chunk ∧
      resp = blobAnswer d length (b ++ chunk) (get.method = .get) ∧
      ((b ++ chunk).length < u64 → length = (b ++ chunk).length) := by
  -- the worlds before the last pull, after the upload and before it
  obtain ⟨w₃, hserved₃, hok₃, hready₃, hrun, -⟩ := h.last hplain hok
  have hplain₃ : ∀ e ∈ es ++ [(put, created)] ++ es', PlainRepo e.1 := fun e he =>
    hplain e (List.mem_append_left _ he)
  obtain ⟨w₂, htrace₂, htrace₃⟩ := Trace.append_iff.mp hserved₃.trace
  have hserved₂ : Served S ticks wall (es ++ [(put, created)]) w₂ := served_iff_trace.mpr htrace₂
  have hok₂ : w₂.log.ioFailed = false := (registry S).sane_start htrace₃ hok₃
  have hplain₂ : ∀ e ∈ es ++ [(put, created)], PlainRepo e.1 := fun e he =>
    hplain₃ e (List.mem_append_left _ he)
  have hready₂ := (hserved₂.shelf hplain₂ hok₂).1
  obtain ⟨w₁, hserved₁, hok₁, -, -, hfirst⟩ := hserved₂.last hplain₂ hok₂
  -- the upload has put its bytes at the digest
  obtain ⟨-, hserves⟩ := (hfirst.at r).resolve_right fun h => h.1 (by rw [hput])
  rw [hput] at hserves
  obtain ⟨b, chunk, hup, hbody, hthere⟩ := hserves.uploaded_blob hm hquery hd hcreated
  have hdraft : draftOf r.val session es = some b := by
    rw [← uploads_eq_draftOf hserved₁ (fun e he => hplain₂ e (List.mem_append_left _ he)) hok₁ r session]
    exact hup
  -- which are there until the pull
  have hshelf := ((registry S).trace htrace₃ (fun e he => hplain₃ e (List.mem_append_right _ he)) hready₂
    hok₃).2
  have hstays := blob_stays hshelf r hkept (by
    rw [show ((registry S).view w₂ r).blobs d = some (b ++ chunk) from hthere]
    simp)
  obtain ⟨c, hc⟩ := Option.ne_none_iff_exists'.mp hstays
  -- under a hash without collisions they are the same bytes
  obtain ⟨hhash, hmem⟩ := hready₂.sound.blob (r := r.val) hthere
  obtain ⟨hhash', hmem'⟩ := hready₃.sound.blob (r := r.val) hc
  have hstored₃ : w₃.log.stored ⊆ w.log.stored := stored_dispatch hready₃.sound.dataNamed hrun hok
  have hstored₂ : w₂.log.stored ⊆ w₃.log.stored :=
    (stored_of_trace htrace₃ hready₂.sound.dataNamed hok₃).2
  have hsame : c = b ++ chunk :=
    hfree c (hstored₃ hmem') _ (hstored₃ (hstored₂ hmem)) (hhash'.trans hhash.symm)
  rw [hsame] at hc
  obtain ⟨length, hresp, hlength⟩ := hrun.pulled_blob hready₃ (hfree.mono hstored₃) hget hm' hd' hc
  exact ⟨b, chunk, length, hdraft, hbody, hresp, hlength⟩

/-- The layer of the example run is served with its five bytes. -/
theorem uploaded_layer_is_served : ∃ b chunk length,
    draftOf "app".toList firstSession (uploadExchanges.take 2) = some b ∧
      collectBody commitLayer.body maxUpload = .ok chunk ∧
      blobAnswer layerDigest 5 layer true = blobAnswer layerDigest length (b ++ chunk) true ∧
      ((b ++ chunk).length < u64 → length = (b ++ chunk).length) := by
  obtain ⟨w, hserved, hplain, hok, hfree⟩ := upload_run
  have hcut : Served ManifestPuts.blankServer [] [] (uploadExchanges.take 2 ++ [uploadExchanges[2]] ++
      [] ++ [uploadExchanges[3]]) w := hserved
  exact uploaded_blob_is_served hcut hplain hok hfree
    ⟨"app".toList, by decide⟩ (by decide +kernel) rfl rfl (Digest.parse_toStr _) rfl (by decide +kernel)
    (Or.inl rfl) (Digest.parse_toStr _) (by simp)

/-! ## Listings -/

/-- Without an upstream nothing is remembered. -/
theorem Serves.cached_unrouted (hroute : S.route repo = none) (h : Serves S repo req a action resp a') :
    a'.cached = a.cached := by
  cases h with
  | streamed _ _ _ hroute' => exact absurd hroute hroute'
  | fetchedManifest _ _ _ hroute' => exact absurd hroute hroute'
  | pushed =>
    simp only [pushedManifest]
    split <;> rfl
  | _ => rfl

theorem Serves.list_answer (h : Serves S repo req a .tagsList resp a') (hm : req.method = .get)
    (hroute : S.route repo = none) :
    ∃ tags, resp = listing (.tags repo tags) ∧ tags.Pairwise (· < ·) ∧ ∀ t, t ∈ tags ↔ Listed a t := by
  cases h with
  | unsupported hno => exact absurd hm hno
  | @listed tags _ _ hsorted htags => exact ⟨tags, rfl, hsorted, htags⟩
  | asked _ hnone =>
    rw [if_pos hroute]
    exact ⟨[], rfl, .nil, fun t => by simpa using hnone t⟩

/-- A repository without an upstream lists the tags of its history, in ascending order. -/
theorem listing_is_exact {ticks wall : List Nat} {es : List Exchange} {w : World S}
    (h : Served S ticks wall (es ++ [(req, resp)]) w) (hplain : ∀ e ∈ es ++ [(req, resp)], PlainRepo e.1)
    (hok : w.log.ioFailed = false) (r : PlainName) (hroute : S.route r.val = none)
    (hreq : split req.rest = (r.val, .tagsList)) (hm : req.method = .get) :
    ∃ tags, resp = listing (.tags r.val tags) ∧ tags.Pairwise (· < ·) ∧
      ∀ t, t ∈ tags ↔ pushedOf S r.val t es ≠ none := by
  obtain ⟨w₁, hserved, hok₁, -, -, hstep⟩ := h.last hplain hok
  have hplain₁ : ∀ e ∈ es, PlainRepo e.1 := fun e he => hplain e (List.mem_append_left _ he)
  have hcached : (view w₁ r).cached = fun _ => none := by
    refine Trace.keep (I := fun s : Shelf => (s r).cached = fun _ => none) (P := fun _ => True)
      (fun _ hstep hs => ?_) (hserved.shelf hplain₁ hok₁).2 (fun _ _ => trivial) rfl
    rcases hstep.at r with ⟨-, hserves⟩ | ⟨-, hsame⟩
    · rw [hserves.cached_unrouted hroute, hs]
    · rw [hsame, hs]
  have hlisted : ∀ t, Listed (view w₁ r) t ↔ pushedOf S r.val t es ≠ none := by
    intro t
    rw [← tags_eq_pushedOf hserved hplain₁ hok₁ r t, Listed, hcached]
    exact or_iff_left (by simp)
  obtain ⟨-, hserves⟩ := (hstep.at r).resolve_right fun h => h.1 (by rw [hreq])
  rw [hreq] at hserves
  obtain ⟨tags, rfl, hsorted, htags⟩ := hserves.list_answer hm hroute
  exact ⟨tags, rfl, hsorted, fun t => (htags t).trans (hlisted t)⟩

/-! A tag is pushed and listed. -/

def pushApp : Request :=
  ⟨.put, "app/manifests/v1".toList, none, none, none, some layer, noReplies⟩

def listApp : Request := ⟨.get, "app/tags/list".toList, none, none, none, none, noReplies⟩

def pushAppCreated : Response := pushedAnswer "app".toList layerDigest none

theorem pushed_tag_is_listed : ∃ tags, listing (.tags "app".toList ["v1".toList]) =
      listing (.tags "app".toList tags) ∧ tags.Pairwise (· < ·) ∧
    ∀ t, t ∈ tags ↔ pushedOf ManifestPuts.blankServer "app".toList t [(pushApp, pushAppCreated)] ≠ none := by
  have hrun : ((serveAll ManifestPuts.fresh [pushApp, listApp]).map fun p =>
      (p.1.map Prod.snd, p.2.log.ioFailed)) =
        some ([pushAppCreated, listing (.tags "app".toList ["v1".toList])], false) := by decide +kernel
  obtain ⟨⟨es, w⟩, hall, hpair⟩ := Option.map_eq_some_iff.mp hrun
  obtain ⟨hresponses, hok⟩ := Prod.mk.inj hpair
  obtain rfl := List.zip_of_prod (serveAll_requests hall) hresponses
  have hcut : Served ManifestPuts.blankServer [] [] ([(pushApp, pushAppCreated)] ++
      [(listApp, listing (.tags "app".toList ["v1".toList]))]) w := Served.serveAll hall
  exact listing_is_exact hcut
    (plain_serveAll hall (by decide)) hok ⟨"app".toList, by decide⟩ (by decide +kernel) (by decide +kernel) rfl

end Quill.Registry
