import Quill.Registry.Coherence
import Quill.Registry.Pulls

/-!
# Locally pushed tags win

`lastPush` reads the state of a tag off the history: the body of the last push that still
stands, and whether its blob was deleted since. `Standing` is what the world knows about
such a push. Each request carries `Standing` along with `lastPush` (`tagState_step`), and
a pull of a standing tag is answered from the store without a call to an upstream
(`local_tag_wins`).
-/

namespace Quill.Registry

open Text Files Cas World LocalStorage Uploads LocalTags

variable {S : Setup} {repo tag : Str}

/-! ## History -/

/-- The push that stands after one more exchange. -/
def pushStep (S : Setup) (repo tag : Str) (last : Option (Bytes × Bool)) (e : Exchange) :
    Option (Bytes × Bool) :=
  match e.1.command with
  | .push r t =>
    if r = repo ∧ t = tag ∧ e.2.status = .created then e.1.body.map fun b => (b, false) else last
  | .untag r t => if r = repo ∧ t = tag then none else last
  | .deleteManifest r d => if r = repo then last.filter fun p => S.digest p.1 ≠ d else last
  | .deleteBlob r d =>
    if r = repo ∧ e.2.status = .accepted then last.map fun p => (p.1, p.2 || S.digest p.1 = d)
    else last
  | .other => last

/-- The last push to a tag, unless the tag was deleted since, and whether its digest was
removed through `DELETE blobs/<digest>` since. -/
def lastPush (S : Setup) (repo tag : Str) (es : List Exchange) : Option (Bytes × Bool) :=
  es.foldl (pushStep S repo tag) none

theorem lastPush_append (S : Setup) (repo tag : Str) (es : List Exchange) (e : Exchange) :
    lastPush S repo tag (es ++ [e]) = pushStep S repo tag (lastPush S repo tag es) e := by
  simp [lastPush]

/-- The media type with which a manifest is served is a legal header value. -/
def LegalMedia (S : Setup) (b : Bytes) : Prop :=
  legalHeaderValue (Manifest.mediaType (S.serde.fromSlice b)) = true

/-- Every manifest pushed to a tag has a legal media type. -/
def LegalPush (S : Setup) (req : Request) : Prop :=
  ∀ repo tag b, req.command = .push repo tag → req.body = some b → LegalMedia S b

/-! ## The state of a tag -/

/-- The tag points at a manifest that was pushed with legal headers; its blob is on disk unless it
was removed since. -/
structure Standing (w : World S) (repo tag : Str) (b : Bytes) (removed : Bool) : Prop where
  plain : Plain repo
  isTag : ∃ e, Digest.parse tag = .error e
  legal : LegalMedia S b
  tagged : ∃ pushedAt, w.localTags.lookup (repo, tag) = some ⟨(S.digest b).toStr, pushedAt⟩
  stored : b ∈ w.log.stored
  dirs : DirsAbove S w.fs repo
  file : removed = false → w.fs.isFile (blobPath S.root repo (S.digest b)) = true

/-- What the history says of a tag: it was not pushed, or the manifest it was last pushed to and
whether that blob was removed since. -/
def TagState (w : World S) (repo tag : Str) : Option (Bytes × Bool) → Prop
  | none => w.localTags.lookup (repo, tag) = none
  | some (b, removed) => Standing w repo tag b removed

/-- A frame that does not contain the blob carries a standing push along. -/
theorem Standing.keeps {except : Set Path} {w w' : World S} {b : Bytes} {removed removed' : Bool}
    (h : Standing w repo tag b removed) (hkeep : Keeps except w w')
    (htag : w'.localTags.lookup (repo, tag) = w.localTags.lookup (repo, tag))
    (hblob : removed' = false → removed = false ∧ blobPath S.root repo (S.digest b) ∉ except) :
    Standing w' repo tag b removed' where
  plain := h.plain
  isTag := h.isTag
  legal := h.legal
  tagged := htag ▸ h.tagged
  stored := hkeep.stored h.stored
  dirs := h.dirs.keeps hkeep
  file := fun hr => hkeep.blobs _ (isBlobName_blobPath _ _ _) (hblob hr).2 (h.file (hblob hr).1)

theorem TagState.keeps {except : Set Path} {w w' : World S} {last : Option (Bytes × Bool)}
    (h : TagState w repo tag last) (hkeep : Keeps except w w')
    (htag : w'.localTags.lookup (repo, tag) = w.localTags.lookup (repo, tag))
    (hblob : ∀ b removed, last = some (b, removed) → Plain repo →
      blobPath S.root repo (S.digest b) ∉ except) : TagState w' repo tag last := by
  rcases last with _ | ⟨b, removed⟩
  · exact htag.trans h
  · exact Standing.keeps h hkeep htag fun hr => ⟨hr, hblob b removed rfl h.plain⟩

/-- The deletion of another manifest carries a standing push along. -/
theorem Standing.deleteManifest {w w₁ w' : World S} {b : Bytes} {removed : Bool} {r : Str} {d : Digest}
    (h : Standing w repo tag b removed) (hr : Plain r)
    (hun : Untagged S r (tagsOf w.localTags r d) w w₁) (htags : w'.localTags = w₁.localTags)
    (hkeep : Keeps {blobPath S.root r d} w₁ w') (hne : repo = r → S.digest b ≠ d) :
    Standing w' repo tag b removed := by
  have hmem : ¬ (repo = r ∧ tag ∈ tagsOf w.localTags r d) := by
    rintro ⟨rfl, hmem⟩
    obtain ⟨m, hm, hd⟩ := mem_tagsOf.mp hmem
    obtain ⟨pushedAt, hlook⟩ := h.tagged
    rw [hlook] at hm
    cases hm
    exact hne rfl (Digest.toStr_injective hd)
  have hmid : Standing w₁ repo tag b removed :=
    h.keeps hun.keeps (by rw [hun.lookup, if_neg hmem]) fun hrem =>
      ⟨hrem, blobPath_ne_localTagsPath _ _ _ _⟩
  refine hmid.keeps hkeep (by rw [htags]) fun hrem => ⟨hrem, fun hp => ?_⟩
  obtain ⟨h₁, h₂⟩ := (blobPath_eq_iff h.plain hr).mp hp
  exact hne h₁ h₂

/-- The reference of a push is no digest. -/
theorem isTag_of_push {req : Request} {r t : Str} (h : req.command = .push r t) :
    ∃ e, Digest.parse t = .error e := by
  rcases command_cases req with hc | ⟨-, ⟨s, -, hc⟩ | ⟨s, d, -, -, -, hc⟩⟩
  · cases hc.symm.trans h
  · rcases hc with ⟨e, he, -, hc⟩ | ⟨e, -, -, hc⟩ | ⟨d, -, -, hc⟩
    · cases hc.symm.trans h
      exact ⟨e, he⟩
    · cases hc.symm.trans h
    · cases hc.symm.trans h
  · cases hc.symm.trans h

/-- One request carries the state of every tag along with the history. -/
theorem tagState_step {req : Request} {resp : Response} {w w' : World S}
    {last : Option (Bytes × Bool)} (hchange : Change S req resp w w') (hdata : DataNamed w)
    (hplain : PlainRepo req) (hlegal : LegalPush S req) (h : TagState w repo tag last) :
    TagState w' repo tag (pushStep S repo tag last (req, resp)) := by
  cases hchange with
  | quiet hcommand halong =>
    obtain ⟨-, hkeep, htags⟩ := quiet_keeps (fun _ hk => hk) halong hdata
    have hstep : pushStep S repo tag last (req, resp) = last := by
      rcases hcommand with hc | ⟨r, t, hc, hne⟩
      · simp only [pushStep, hc]
      · simp [pushStep, hc, hne]
    rw [hstep]
    exact h.keeps hkeep (by rw [htags]) fun _ _ _ _ => Set.notMem_empty _
  | @pushed r t b hcommand hstatus hbody hpush =>
    have hres := hpush.result hdata
    obtain ⟨pushedAt, htags⟩ := hres.tags
    by_cases hkey : r = repo ∧ t = tag
    · obtain ⟨rfl, rfl⟩ := hkey
      have hstep : pushStep S r t last (req, resp) = some (b, false) := by
        simp [pushStep, hcommand, hstatus, hbody]
      rw [hstep]
      exact ⟨hplain.of_command (by rw [hcommand]; rfl), isTag_of_push hcommand,
        hlegal r t b hcommand hbody, ⟨pushedAt, by rw [htags, AList.lookup_insert]⟩, hres.stored,
        hres.dirs, fun _ => hres.file⟩
    · have hstep : pushStep S repo tag last (req, resp) = last := by
        simp only [pushStep, hcommand]
        exact if_neg fun hk => hkey ⟨hk.1, hk.2.1⟩
      rw [hstep]
      refine h.keeps hres.keeps ?_ fun b _ _ _ => blobPath_ne_localTagsPath _ _ _ _
      rw [htags, AList.lookup_insert_ne]
      exact fun he => hkey ⟨(Prod.mk.inj he).1.symm, (Prod.mk.inj he).2.symm⟩
  | @untagged r t hcommand hun =>
    simp only [pushStep, hcommand]
    by_cases hkey : r = repo ∧ t = tag
    · obtain ⟨rfl, rfl⟩ := hkey
      rw [if_pos ⟨rfl, rfl⟩]
      exact (hun.lookup r t).trans (if_pos ⟨rfl, List.mem_singleton.mpr rfl⟩)
    · rw [if_neg hkey]
      refine h.keeps hun.keeps ?_ fun b _ _ _ => blobPath_ne_localTagsPath _ _ _ _
      rw [hun.lookup, if_neg]
      rintro ⟨rfl, ht⟩
      exact hkey ⟨rfl, (List.mem_singleton.mp ht).symm⟩
  | @manifestDeleted r d w₁ hcommand hun htags hkeep =>
    have hr : Plain r := hplain.of_command (by rw [hcommand]; rfl)
    simp only [pushStep, hcommand]
    have hlook : ∀ t, w'.localTags.lookup (repo, t) =
        if repo = r ∧ t ∈ tagsOf w.localTags r d then none else w.localTags.lookup (repo, t) := by
      intro t
      rw [htags, hun.lookup]
    rcases last with _ | ⟨b, removed⟩
    · have hnone : w'.localTags.lookup (repo, tag) = none := by
        rw [hlook]
        split
        · rfl
        · exact h
      split <;> exact hnone
    · by_cases hrr : r = repo
      · subst hrr
        rw [if_pos rfl]
        by_cases hd : S.digest b = d
        · have hstep : Option.filter (fun p : Bytes × Bool => decide (S.digest p.1 ≠ d))
              (some (b, removed)) = none := by simp [hd]
          rw [hstep]
          obtain ⟨pushedAt, htag⟩ := h.tagged
          exact (hlook tag).trans (if_pos ⟨rfl, mem_tagsOf.mpr ⟨_, htag, by rw [hd]⟩⟩)
        · have hstep : Option.filter (fun p : Bytes × Bool => decide (S.digest p.1 ≠ d))
              (some (b, removed)) = some (b, removed) := by simp [hd]
          rw [hstep]
          exact Standing.deleteManifest h hr hun htags hkeep fun _ => hd
      · rw [if_neg hrr]
        exact Standing.deleteManifest h hr hun htags hkeep fun he => absurd he.symm hrr
  | @blobDeleted r d hcommand htags hkeep hrefused =>
    have hr : Plain r := hplain.of_command (by rw [hcommand]; rfl)
    have htag : w'.localTags.lookup (repo, tag) = w.localTags.lookup (repo, tag) := by rw [htags]
    simp only [pushStep, hcommand]
    by_cases hacc : resp.status = .accepted
    · by_cases hrr : r = repo
      · subst hrr
        rw [if_pos ⟨rfl, hacc⟩]
        rcases last with _ | ⟨b, removed⟩
        · exact htag.trans h
        · refine Standing.keeps h hkeep htag fun hrem => ?_
          obtain ⟨h₁, h₂⟩ := Bool.or_eq_false_iff.mp hrem
          refine ⟨h₁, fun hp => ?_⟩
          exact of_decide_eq_false h₂ (blobPath_injective hp)
      · rw [if_neg fun hk => hrr hk.1]
        refine h.keeps hkeep htag fun b _ _ hp hmem => ?_
        exact hrr ((blobPath_eq_iff hp hr).mp hmem).1.symm
    · rw [if_neg fun hk => hacc hk.2]
      exact h.keeps (hrefused hacc) htag fun _ _ _ _ => Set.notMem_empty _

theorem Served.tagState {ticks wall : List Nat} {es : List Exchange} {w : World S}
    (h : Served S ticks wall es w) (hplain : ∀ e ∈ es, PlainRepo e.1)
    (hlegal : ∀ e ∈ es, LegalPush S e.1) (hfailed : w.log.ioFailed = false) (repo tag : Str) :
    TagState w repo tag (lastPush S repo tag es) := by
  induction h with
  | start => rfl
  | @serve es w w' req resp hprev hrun ih =>
    have hbefore := not_failed_before hrun hfailed
    have hplain' : ∀ e ∈ es, PlainRepo e.1 := fun e he => hplain e (List.mem_append_left _ he)
    have hstate := ih hplain' (fun e he => hlegal e (List.mem_append_left _ he)) hbefore
    have hsound : Sound w := by
      rcases hprev.coherent hplain' with hf | ⟨hs, -⟩
      · rw [hbefore] at hf
        cases hf
      · exact hs
    rw [lastPush_append]
    exact tagState_step (dispatch_change hrun hfailed) hsound.dataNamed
      (hplain (req, resp) (by simp)) (hlegal (req, resp) (by simp)) hstate

/-! ## Pulls of local tags -/

/-- The response to a pull of the manifest `b`. -/
def manifestResponse (S : Setup) (b : Bytes) (withBody : Bool) : Response :=
  ⟨.ok, [(.contentLength, decimal b.length), (.dockerContentDigest, (S.digest b).toStr),
    (.contentType, Manifest.mediaType (S.serde.fromSlice b))], if withBody then .bytes b else .empty⟩

theorem exec_buildManifestResponse {b : Bytes} (hlegal : LegalMedia S b) (withBody : Bool)
    (w : World S) :
    (buildManifestResponse b (Manifest.mediaType (S.serde.fromSlice b)) (S.digest b) withBody :
      Handler S).exec w = (.ok (manifestResponse S b withBody), w) := by
  have hall : [(HeaderName.contentLength, decimal b.length),
      (.dockerContentDigest, (S.digest b).toStr),
      (.contentType, Manifest.mediaType (S.serde.fromSlice b))].all
        (fun h => legalHeaderValue h.2) = true := by
    simp only [List.all_cons, List.all_nil, Bool.and_true, Bool.and_eq_true]
    exact ⟨legalHeaderValue_decimal _, legalHeaderValue_toStr _, hlegal⟩
  unfold buildManifestResponse build
  rw [if_pos hall]
  rfl

/-- The file of a standing push holds the pushed bytes. -/
theorem Standing.read_eq {w : World S} {b c : Bytes} {removed : Bool}
    (h : Standing w repo tag b removed) (hsound : Sound w) (hcoll : CollisionFree S w.log.stored)
    (hc : w.fs.read (blobPath S.root repo (S.digest b)) = some c) : c = b := by
  obtain ⟨hhash, hmem⟩ := hsound.intact.blobs _ _ c (S.digest b).hex.property hc
  exact hcoll c hmem b h.stored (Subtype.ext hhash)

theorem exec_serveLocalManifest {w : World S} {b : Bytes} {removed : Bool}
    (h : Standing w repo tag b removed) (hsound : Sound w) (hcache : CacheTrue w)
    (hcoll : CollisionFree S w.log.stored) (withBody : Bool) :
    ∃ resp w', (serveLocalManifest repo (S.digest b) tag withBody : Handler S).exec w =
        (.ok resp, w') ∧ w'.log.calls = w.log.calls ∧
      (resp = manifestResponse S b withBody ∨ (removed = true ∧ resp = manifestUnknown tag)) := by
  obtain ⟨w₁, hw₁, hout⟩ := exec_blobMeta w repo (S.digest b)
  have hfs : w₁.fs = w.fs := by rcases hw₁ with rfl | rfl <;> rfl
  have hcalls : w₁.log.calls = w.log.calls := by rcases hw₁ with rfl | rfl <;> rfl
  -- once the file is found it is read and served
  have hserve : ∀ (m : BlobMeta) (w₂ : World S), m.path = blobPath S.root repo (S.digest b) →
      w₂.fs = w.fs → w₂.log.calls = w.log.calls →
      (blobMeta repo (S.digest b)).exec w = (.ok (some m), w₂) →
      w.fs.isFile (blobPath S.root repo (S.digest b)) = true →
      ∃ resp w', (serveLocalManifest repo (S.digest b) tag withBody : Handler S).exec w =
        (.ok resp, w') ∧ w'.log.calls = w.log.calls ∧
        (resp = manifestResponse S b withBody ∨ (removed = true ∧ resp = manifestUnknown tag)) := by
    intro m w₂ hpath hfs₂ hcalls₂ hmeta hfile
    obtain ⟨c, hc⟩ := Option.isSome_iff_exists.mp hfile
    have hcb : c = b := h.read_eq hsound hcoll hc
    subst hcb
    have hread : (readBlobToBytes m).exec w₂ = (.ok c, w₂) := by
      rcases Fs.exec_readFile m.path w₂.fs with ⟨b', hb', he⟩ | ⟨hnone, -⟩
      · rw [hfs₂, hpath, hc] at hb'
        cases hb'
        exact exec_mapError_ok (exec_onFs_ok he)
      · rw [hfs₂, hpath, hc] at hnone
        cases hnone
    refine ⟨_, w₂, ?_, hcalls₂, Or.inl rfl⟩
    have hfirst : (serveLocalManifest repo (S.digest c) tag withBody : Handler S).exec w = _ :=
      Prog.exec_bind_ok (Prog.exec_attempt_eq.mpr hmeta)
    exact hfirst.trans ((Prog.exec_bind_ok (Prog.exec_attempt_eq.mpr hread)).trans
      (exec_buildManifestResponse h.legal withBody w₂))
  have habsent : (blobMeta repo (S.digest b)).exec w = (.ok none, w₁) →
      (serveLocalManifest repo (S.digest b) tag withBody : Handler S).exec w =
        (.ok (manifestUnknown tag), w₁) := fun hmeta =>
    Prog.exec_bind_ok (Prog.exec_attempt_eq.mpr hmeta)
  generalize hrun : (blobMeta repo (S.digest b)).exec w = out at hout
  cases hout with
  | @hit m hlook hfresh =>
    obtain ⟨-, hpath, hfile⟩ := hcache repo (S.digest b) m hlook
    exact hserve m w₁ hpath hfs hcalls hrun hfile
  | @found c hread =>
    refine hserve _ _ rfl ?_ ?_ hrun (by simp [Fs.isFile, hread])
    · exact hfs
    · exact hcalls
  | isDir hnode =>
    refine ⟨_, w₁, habsent hrun, hcalls, Or.inr ⟨?_, rfl⟩⟩
    refine (Bool.eq_false_or_eq_true removed).resolve_right fun hrem => ?_
    have hfile := h.file hrem
    simp [Fs.isFile, Fs.read, hnode] at hfile
  | absent hnode hblocked =>
    refine ⟨_, w₁, habsent hrun, hcalls, Or.inr ⟨?_, rfl⟩⟩
    refine (Bool.eq_false_or_eq_true removed).resolve_right fun hrem => ?_
    have hfile := h.file hrem
    simp [Fs.isFile, Fs.read, hnode] at hfile
  | blocked hnode hblocked =>
    rw [h.dirs.not_blocked] at hblocked
    cases hblocked

/-- A pull of a standing tag is answered from the store. -/
theorem exec_pull_standing {w : World S} {b : Bytes} {removed : Bool}
    (h : Standing w repo tag b removed) (hsound : Sound w) (hcache : CacheTrue w)
    (hcoll : CollisionFree S w.log.stored) {req : Request}
    (hmethod : req.method = .get ∨ req.method = .head)
    (hsplit : split req.rest = (repo, .manifest tag)) (hcond : req.ifNoneMatch = none) :
    ∃ resp w', (dispatch req : Handler S).exec w = (.ok resp, w') ∧
      w'.log.calls = w.log.calls ∧
      (resp = manifestResponse S b (req.method = .get) ∨
        (removed = true ∧ resp = manifestUnknown tag)) := by
  have hne : repo ≠ [] := by
    rintro rfl
    exact (h.plain [] (by simp)).1 rfl
  have hget : ∀ withBody, (getManifest repo tag withBody req.upstream : Handler S).exec w =
      (serveLocalManifest repo (S.digest b) tag withBody : Handler S).exec w := by
    intro withBody
    obtain ⟨e, he⟩ := h.isTag
    obtain ⟨pushedAt, htag⟩ := h.tagged
    unfold getManifest
    simp only [he]
    rw [Prog.exec_bind_ok (Prog.exec_get w)]
    simp only [htag, Digest.parse_toStr]
  have hroute : ∀ withBody, (req.method = .get ↔ withBody = true) →
      (dispatch req : Handler S).exec w = (((applyIfNoneMatch req.ifNoneMatch ·) <$>
        getManifest repo tag withBody req.upstream : Handler S)).exec w := by
    intro withBody hiff
    have hrepo : (split req.rest).1 ≠ [] := by
      rw [hsplit]
      exact hne
    rw [dispatch_named hrepo, hsplit]
    rcases hmethod with hm | hm
    · have hb : withBody = true := hiff.mp hm
      simp only [route, hm, hb]
    · have hb : withBody = false := by
        refine Bool.eq_false_iff.mpr fun hb => ?_
        rw [hiff.mpr hb] at hm
        cases hm
      simp only [route, hm, hb]
  obtain ⟨resp, w', hrun, hcalls, hresp⟩ :=
    exec_serveLocalManifest h hsound hcache hcoll (req.method = .get)
  refine ⟨resp, w', ?_, hcalls, hresp⟩
  rw [hroute (req.method = .get) decide_eq_true_iff.symm, Prog.exec_map, hget, hrun, hcond]
  rfl

/-- After any run over plainly named repositories without a file-system failure, a tag whose
last push stands is served from that push without a call to an upstream, or not at all once its
digest was removed as a blob; a tag without a standing push is not in the map. -/
theorem local_tag_wins (S : Setup) (ticks wall : List Nat) (es : List Exchange) (w : World S)
    (hrun : Served S ticks wall es w) (hplain : ∀ e ∈ es, PlainRepo e.1)
    (hlegal : ∀ e ∈ es, LegalPush S e.1) (hfailed : w.log.ioFailed = false)
    (hcoll : CollisionFree S w.log.stored) (repo tag : Str) :
    (∀ b removed, lastPush S repo tag es = some (b, removed) → ∀ req : Request,
      (req.method = .get ∨ req.method = .head) → split req.rest = (repo, .manifest tag) →
      req.ifNoneMatch = none →
      ∃ resp w', (dispatch req : Handler S).exec w = (.ok resp, w') ∧
        w'.log.calls = w.log.calls ∧
        ((resp.status = .ok ∧ resp.header .dockerContentDigest = some (S.digest b).toStr ∧
            (req.method = .get → resp.body = .bytes b)) ∨
          (removed = true ∧ resp.status = .notFound))) ∧
    (lastPush S repo tag es = none → w.localTags.lookup (repo, tag) = none) := by
  have hstate := hrun.tagState hplain hlegal hfailed repo tag
  obtain ⟨hsound, hcache⟩ : Sound w ∧ CacheTrue w := by
    rcases hrun.coherent hplain with hf | h
    · rw [hfailed] at hf
      cases hf
    · exact h
  constructor
  · intro b removed hlast req hmethod hsplit hcond
    rw [hlast] at hstate
    obtain ⟨resp, w', hexec, hcalls, hresp⟩ :=
      exec_pull_standing hstate hsound hcache hcoll hmethod hsplit hcond
    refine ⟨resp, w', hexec, hcalls, ?_⟩
    rcases hresp with rfl | ⟨hrem, rfl⟩
    · exact Or.inl ⟨rfl, rfl, fun hget => by simp [manifestResponse, hget]⟩
    · exact Or.inr ⟨hrem, rfl⟩
  · intro hlast
    rw [hlast] at hstate
    exact hstate

/-! A push to a repository that an upstream also serves. -/

def noReplies : Replies := ⟨none, none, none, none⟩

def pushV1 : Request :=
  ⟨.put, "library/app/manifests/v1".toList, none, none, none, some (Codec.utf8 "manifest".toList),
    noReplies⟩

def pullV1 : Request := ⟨.get, "library/app/manifests/v1".toList, none, none, none, none, noReplies⟩

def pushV1Created : Response :=
  ⟨.created, [(.location, "/v2/library/app/manifests/".toList ++
      (Codec.mirror.digest (Codec.utf8 "manifest".toList)).toStr),
    (.dockerContentDigest, (Codec.mirror.digest (Codec.utf8 "manifest".toList)).toStr)], .empty⟩

def afterPushV1 : World Codec.mirror :=
  ((dispatch pushV1 : Handler Codec.mirror).exec (World.start Codec.mirror [] [])).2

/-- The pushed tag is served, although the upstream is configured for the repository. -/
theorem pushed_tag_is_served :
    ∃ resp w', (dispatch pullV1 : Handler Codec.mirror).exec afterPushV1 = (.ok resp, w') ∧
      w'.log.calls = afterPushV1.log.calls ∧
      ((resp.status = .ok ∧ resp.header .dockerContentDigest =
          some (Codec.mirror.digest (Codec.utf8 "manifest".toList)).toStr ∧
          (pullV1.method = .get → resp.body = .bytes (Codec.utf8 "manifest".toList))) ∨
        (false = true ∧ resp.status = .notFound)) := by
  have hserved : Served Codec.mirror [] [] [(pushV1, pushV1Created)] afterPushV1 :=
    Served.of_exec .start (by decide +kernel)
  have hplain : ∀ e ∈ [(pushV1, pushV1Created)], PlainRepo e.1 := by decide
  have hlegal : ∀ e ∈ [(pushV1, pushV1Created)], LegalPush Codec.mirror e.1 := by
    intro e he repo tag b hc hb
    cases List.mem_singleton.mp he
    cases hb
    show legalHeaderValue _ = true
    decide +kernel
  have hwins := local_tag_wins Codec.mirror [] [] [(pushV1, pushV1Created)] afterPushV1 hserved hplain
    hlegal (by decide +kernel) (by decide +kernel) "library/app".toList "v1".toList
  exact hwins.1 _ false (by decide +kernel) pullV1 (Or.inl rfl) (by decide +kernel) rfl

end Quill.Registry
