import Quill.Registry.Changes
import Quill.Registry.Integrity
import Quill.Registry.Pulls
import Quill.Upstream.Client

/-!
# Manifest responses and the digests they name

A manifest that is served from an intact store has the digest that its response names.
A manifest that comes from the upstream is served under the digest of the reply: storing
it compares that digest with the body, but a mismatch is only logged, and neither
the digest of the body nor a requested digest is looked at again. So a response is
self-consistent exactly when the reply it was taken from is (`Matches`).
-/

namespace Quill.Registry

open Text Files Cas World LocalStorage Uploads LocalTags TagCache Upstream

variable {S : Setup} {repo reference : Str}

/-- What the store gives out under a digest has that digest. -/
structure CasIntegrity (w : World S) : Prop where
  blobs : ∀ repo d b, w.fs.read (blobPath S.root repo d) = some b → S.digest b = d
  cached : CachedPaths w

/-- The body of the response has the digest of its header, which is the requested one. -/
def Consistent (S : Setup) (reference : Str) (resp : Response) : Prop :=
  ∃ b, resp.body = .bytes b ∧ resp.header .dockerContentDigest = some (S.digest b).toStr ∧
    ∀ d, Digest.parse reference = .ok d → d = S.digest b

/-- A tag that the request recorded has the digest of the bytes it served. -/
def RecordsServed (w w' : World S) (resp : Response) : Prop :=
  ∀ key d t, w'.upstreamTags.lookup key = some (d, t) →
    (∃ t₀, w.upstreamTags.lookup key = some (d, t₀)) ∨ ∃ b, resp.body = .bytes b ∧ S.digest b = d

/-- A `GET` of a manifest answers `200 OK` only consistently, whatever its `If-None-Match` is, and
records only what it serves. -/
structure AnswersConsistently (w : World S) (req : Request) (repo reference : Str) : Prop where
  response : ∀ ifNoneMatch resp w',
    (dispatch { req with ifNoneMatch := ifNoneMatch } : Handler S).exec w = (.ok resp, w') →
      resp.status = .ok → Consistent S reference resp
  records : ∀ resp w', (Registry.getManifest repo reference true req.upstream : Handler S).exec w =
    (.ok resp, w') → RecordsServed w w' resp

theorem AnswersConsistently.of_outcome {w : World S} {req : Request}
    (h : AnswersConsistently w req repo reference) {ifNoneMatch : Option Str} {resp : Response}
    (hresp : ((dispatch { req with ifNoneMatch := ifNoneMatch } : Handler S).exec w).1 = .ok resp)
    (hstatus : resp.status = .ok) : Consistent S reference resp :=
  h.response ifNoneMatch resp _ (Prod.ext hresp rfl) hstatus

/-- The digest header of the reply, if there is one, and a requested digest are the digest of its
body. -/
def Matches (S : Setup) (reference : Str) (r : HttpReply) : Prop :=
  ∀ b, r.body = some b → (∀ text, r.digestText = some text → Digest.parse text = .ok (S.digest b)) ∧
    ∀ d, Digest.parse reference = .ok d → d = S.digest b

/-! ## The store is intact -/

theorem CachedPaths.effect {k : Kind} {w w' : World S} (heff : Effect S repo k w w')
    (hw : CachedPaths w) : CachedPaths w' := by
  cases heff with
  | ambient h =>
    intro r d m hm
    rw [h.cache] at hm
    exact hw r d m hm
  | fill d m hpath => exact (Looks.filled w hpath).paths hw
  | retract d =>
    intro r d' m hm
    by_cases hkey : (r, d') = (repo, d)
    · rw [hkey, AList.lookup_erase] at hm
      cases hm
    · rw [AList.lookup_erase_ne hkey] at hm
      exact hw r d' m hm
  | _ => exact hw

theorem CachedPaths.moves {K : Set Kind} {ε α : Type} {m : Prog (World S) ε α}
    (hm : Moves (Along S repo K) m) {w : World S} (hw : CachedPaths w) : CachedPaths (m.exec w).2 :=
  Evolution.star_keep (I := CachedPaths) (fun _ _ ⟨_, _, h⟩ hv => hv.effect h) (hm w) hw

theorem CachedPaths.run {w : World S} (hw : CachedPaths w) (op : Op) : CachedPaths (op.run w) := by
  cases op with
  | request req =>
    exact hw.moves (dispatch_along (Set.subset_univ _) trivial req (fun _ _ => trivial)
      (Set.subset_univ _))
  | createSession repo => exact hw.moves (createSession_along (K := Set.univ) trivial trivial)
  | append repo session chunk =>
    exact hw.moves (append_along (K := Set.univ) trivial trivial session chunk)
  | finalize repo session lastChunk expected =>
    exact hw.moves (finalize_along (K := Set.univ) trivial trivial session lastChunk expected)
  | abort repo session => exact hw.moves (abort_along (K := Set.univ) trivial trivial session)
  | putBlobBuffered repo expected bytes =>
    exact hw.moves (putBlobBuffered_along (K := Set.univ) trivial trivial trivial expected bytes)
  | collect extra dryRun => exact hw

theorem CachedPaths.runOps (ops : List Op) {w : World S} (hw : CachedPaths w) :
    CachedPaths (Registry.runOps w ops) := by
  induction ops generalizing w with
  | nil => exact hw
  | cons op ops ih => exact ih (hw.run op)

/-- Every state that operations lead to without a file-system failure has an intact store, as long
as every session gets a data path of its own. -/
theorem casIntegrity_runOps (S : Setup) (ticks wall : List Nat) (ops : List Op)
    (hfresh : DrawsFresh (World.start S ticks wall) ops)
    (hfailed : (runOps (World.start S ticks wall) ops).log.ioFailed = false) :
    CasIntegrity (runOps (World.start S ticks wall) ops) := by
  refine ⟨fun repo d b hb => ?_, CachedPaths.runOps ops fun _ _ _ hm => by cases hm⟩
  have hrun := IntactUnlessFailed.runOps ops hfresh (Or.inr (intact_start S ticks wall))
  rcases hrun with hrun | hrun
  · rw [hfailed] at hrun
    cases hrun
  · have hhex := (hrun.blobs _ _ b d.hex.property hb).1
    obtain ⟨hex⟩ := d
    exact congrArg Digest.mk (Subtype.ext hhex)

/-! ## Responses -/

/-- The response of a pull with these bytes under this digest. -/
theorem consistent_manifest {b : Bytes} {contentType : Str} {d : Digest} {w w' : World S}
    {resp : Response} (hrun : (buildManifestResponse b contentType d true : Handler S).exec w =
      (.ok resp, w')) :
    w' = w ∧ resp.status = .ok ∧ resp.body = .bytes b ∧
      resp.header .dockerContentDigest = some d.toStr := by
  rw [exec_manifestResponse] at hrun
  obtain ⟨hresp, rfl⟩ := Prod.mk.inj hrun
  split at hresp
  · cases hresp
    exact ⟨rfl, rfl, rfl, rfl⟩
  · cases hresp

/-- A downgraded response is not `200 OK`. -/
theorem status_applyIfNoneMatch {ifNoneMatch : Option Str} {resp : Response}
    (h : (applyIfNoneMatch ifNoneMatch resp).status = .ok) :
    applyIfNoneMatch ifNoneMatch resp = resp := by
  unfold applyIfNoneMatch at h ⊢
  split
  · split
    · rename_i hd hmatch
      simp only [hd, if_pos hmatch] at h
      cases h
    · rfl
  · rfl

theorem Settles.recorded {head : Option Digest} {w w' : World S}
    (h : Settles repo reference head w w') {key : Str × Str} {d : Digest} {t : Nat}
    (hlook : w'.upstreamTags.lookup key = some (d, t)) :
    ∃ t₀, w.upstreamTags.lookup key = some (d, t₀) := by
  rcases h.upstreamTags with hsame | ⟨d', t', t'', hentry, -, -, -, hinsert⟩
  · exact ⟨t, hsame ▸ hlook⟩
  · rw [hinsert] at hlook
    by_cases hkey : key = (repo, reference)
    · subst hkey
      rw [AList.lookup_insert] at hlook
      cases hlook
      exact ⟨t', hentry⟩
    · rw [AList.lookup_insert_ne hkey] at hlook
      exact ⟨t, hlook⟩

theorem Fetched.recorded {d : Digest} {w w' : World S} (h : Fetched repo reference d w w')
    {key : Str × Str} {d' : Digest} {t : Nat}
    (hlook : w'.upstreamTags.lookup key = some (d', t)) :
    d' = d ∨ w.upstreamTags.lookup key = some (d', t) := by
  rcases h.upstreamTags with ⟨-, -, hsame⟩ | ⟨-, t', -, hinsert⟩
  · exact Or.inr (hsame ▸ hlook)
  · rw [hinsert] at hlook
    by_cases hkey : key = (repo, reference)
    · subst hkey
      rw [AList.lookup_insert] at hlook
      cases hlook
      exact Or.inl rfl
    · rw [AList.lookup_insert_ne hkey] at hlook
      exact Or.inr hlook

/-- The digest of the manifest is that of its bytes, and the requested one. -/
def Honest (S : Setup) (reference : Str) (m : ManifestResponse) : Prop :=
  m.digest = S.digest m.bytes ∧ ∀ d, Digest.parse reference = .ok d → d = S.digest m.bytes

/-- A pull from an intact store that is not fetched, or whose reply is honest. -/
theorem Pull.consistent {w w' : World S} {up : Replies} {resp : Response}
    (h : Pull S repo reference true up w (.ok resp, w')) (hw : CasIntegrity w)
    (hhonest : asksUpstream w repo reference up.resolveTag = true →
      ∀ m, up.getManifest = some m → Honest S reference m) :
    (resp.status = .ok → Consistent S reference resp) ∧ RecordsServed w w' resp := by
  generalize hout : (Except.ok resp, w') = out at h
  cases h with
  | refused hasks hsettles hstatus =>
    cases hout
    exact ⟨fun hok => absurd hok hstatus, fun key d t hlook => Or.inl (hsettles.recorded hlook)⟩
  | stored hasks hsource hsettles hread =>
    obtain ⟨rfl, -, hbody, hheader⟩ := consistent_manifest hout.symm
    have hdigest := hw.blobs _ _ _ hread
    refine ⟨fun _ => ⟨_, hbody, ?_, fun d' hd' => ?_⟩,
      fun key d t hlook => Or.inl (hsettles.recorded hlook)⟩
    · rw [hheader, hdigest]
    · rw [hdigest]
      exact hsource.eq_of_digest hd'
  | @fetched w₁ hasks hsettles =>
    cases hreply : up.getManifest with
    | none =>
      rw [hreply] at hout
      have hrun : (fetchAndServeUpstreamManifest repo reference true none : Handler S).exec w₁ =
        (.ok (manifestUnknown reference), called w₁ (.getManifest repo reference)) := rfl
      cases hout.trans hrun
      have hsettles' := hsettles.looks (Looks.called w₁ (.getManifest repo reference))
      refine ⟨fun hok => ?_, fun key d t hlook => Or.inl (hsettles'.recorded hlook)⟩
      exact absurd hok (show Status.notFound ≠ .ok by decide)
    | some m =>
      obtain ⟨hdigest, href⟩ := hhonest hasks m hreply
      obtain ⟨w₂, hfetched, hrun⟩ := exec_fetchManifest w₁ repo reference true m
      rw [hreply, hrun] at hout
      obtain ⟨rfl, -, hbody, hheader⟩ := consistent_manifest hout.symm
      refine ⟨fun _ => ⟨_, hbody, hdigest ▸ hheader, href⟩, fun key d t hlook => ?_⟩
      rcases hfetched.recorded hlook with rfl | hold
      · exact Or.inr ⟨_, hbody, hdigest.symm⟩
      · exact Or.inl (hsettles.recorded hold)

/-- A `GET` of a manifest runs the handler and applies the condition of the request. -/
theorem dispatch_getManifest {req : Request} (hmethod : req.method = .get)
    (hsplit : split req.rest = (repo, .manifest reference)) (hrepo : repo ≠ [])
    (ifNoneMatch : Option Str) (w : World S) :
    (dispatch { req with ifNoneMatch := ifNoneMatch } : Handler S).exec w =
      (((Registry.getManifest repo reference true req.upstream : Handler S).exec w).1.map
        (applyIfNoneMatch ifNoneMatch),
        ((Registry.getManifest repo reference true req.upstream : Handler S).exec w).2) := by
  have hne : (split { req with ifNoneMatch := ifNoneMatch }.rest).1 ≠ [] := by
    show (split req.rest).1 ≠ []
    rw [hsplit]
    exact hrepo
  rw [dispatch_named hne]
  show (route { req with ifNoneMatch := ifNoneMatch } (split req.rest).1 (split req.rest).2 :
    Handler S).exec w = _
  rw [hsplit]
  simp only [route, hmethod]
  exact Prog.exec_map _ _ w

theorem honest_of_matches {reply : Option HttpReply} {m : ManifestResponse}
    (hm : Upstream.getManifest S reply = .ok m)
    (hmatch : ∀ r, reply = some r → r.Usable → Matches S reference r) : Honest S reference m := by
  obtain ⟨r, hr, husable, hbody, htext, hnone, -⟩ := getManifest_eq_ok hm
  obtain ⟨hheader, href⟩ := hmatch r hr husable m.bytes hbody
  refine ⟨?_, href⟩
  cases ht : r.digestText with
  | none => exact hnone ht
  | some text => exact Except.ok.inj ((htext text ht).symm.trans (hheader text ht))

/-- A pull that asks the upstream serves the manifest of the reply. -/
theorem exec_getManifest_asks {w : World S} (hw : CachedPaths w) {up : Replies} {m : ManifestResponse}
    (hasks : asksUpstream w repo reference up.resolveTag = true) (hm : up.getManifest = some m)
    (hlegal : legalHeaderValue m.contentType = true) :
    ∃ resp w', (Registry.getManifest repo reference true up : Handler S).exec w = (.ok resp, w') ∧
      resp.status = .ok ∧ resp.body = .bytes m.bytes ∧
      resp.header .dockerContentDigest = some m.digest.toStr := by
  have hpull := getManifest_pull hw repo reference true up
  generalize (Registry.getManifest repo reference true up : Handler S).exec w = out at hpull
  cases hpull with
  | refused hno =>
    rw [hasks] at hno
    cases hno
  | stored hno =>
    rw [hasks] at hno
    cases hno
  | @fetched w₁ _ _ =>
    obtain ⟨w₂, -, hrun⟩ := exec_fetchManifest w₁ repo reference true m
    rw [hm, hrun, exec_manifestResponse, if_pos hlegal]
    exact ⟨_, _, rfl, rfl, rfl, rfl⟩

/-- A `GET` of a manifest from an intact store answers and records consistently exactly when, if it
asks the upstream and gets a usable reply, the digest header of that reply is absent or the
digest of its body, and a requested digest is the digest of that body too. -/
theorem manifest_consistent_iff (S : Setup) (w : World S) (hw : CasIntegrity w) (req : Request)
    (repo reference : Str) (hmethod : req.method = .get)
    (hsplit : split req.rest = (repo, .manifest reference)) (hrepo : repo ≠ [])
    (reply : Option HttpReply)
    (hreply : req.upstream.getManifest = (Upstream.getManifest S reply).toOption) :
    AnswersConsistently w req repo reference ↔
      (asksUpstream w repo reference req.upstream.resolveTag = true →
        ∀ r, reply = some r → r.Usable → Matches S reference r) := by
  have hpull := getManifest_pull hw.cached repo reference true req.upstream
  constructor
  · intro hcons hasks r hr husable b hb
    obtain ⟨m, hm⟩ := husable.exists_manifest (S := S)
    subst hr
    rw [hm] at hreply
    obtain ⟨resp, w', hrun, hstatus, hbody, hheader⟩ := exec_getManifest_asks hw.cached hasks hreply
      (legalHeaderValue_contentType hm)
    have hdispatch := dispatch_getManifest hmethod hsplit hrepo none w
    rw [hrun] at hdispatch
    obtain ⟨b', hbody', hheader', href⟩ := hcons.response none resp w' hdispatch hstatus
    obtain ⟨r', hr', -, hbytes, htext, -, -⟩ := getManifest_eq_ok hm
    cases hr'
    cases hb.symm.trans hbytes
    cases hbody.symm.trans hbody'
    have hdigest : m.digest = S.digest m.bytes :=
      Digest.toStr_injective (Option.some.inj (hheader.symm.trans hheader'))
    refine ⟨fun text ht => ?_, href⟩
    rw [htext text ht, hdigest]
  · intro hmatch
    have hhonest : asksUpstream w repo reference req.upstream.resolveTag = true →
        ∀ m, req.upstream.getManifest = some m → Honest S reference m := by
      intro hasks m hm
      rw [hreply] at hm
      cases hres : Upstream.getManifest S reply with
      | error e =>
        rw [hres] at hm
        cases hm
      | ok m' =>
        rw [hres] at hm
        cases hm
        exact honest_of_matches hres (hmatch hasks)
    refine ⟨fun ifNoneMatch resp w' hrun hstatus => ?_, fun resp w' hrun => ?_⟩
    · rw [dispatch_getManifest hmethod hsplit hrepo] at hrun
      generalize (Registry.getManifest repo reference true req.upstream : Handler S).exec w = out
        at hpull hrun
      obtain ⟨res, w₁⟩ := out
      cases res with
      | error a => cases hrun
      | ok resp₀ =>
        cases hrun
        have hsame := status_applyIfNoneMatch hstatus
        rw [hsame] at hstatus ⊢
        exact (hpull.consistent hw hhonest).1 hstatus
    · rw [hrun] at hpull
      exact (hpull.consistent hw hhonest).2

/-! A proxy in front of one upstream, and a reply whose header names another digest than the one of
its body. -/

/-- A `200 OK` with this digest header. -/
def replyWith (digest : Option Str) : HttpReply := ⟨200, none, digest.map Codec.utf8,
  some (Codec.utf8 "manifest".toList)⟩

def pullFrom (r : HttpReply) : Request :=
  ⟨.get, "library/app/manifests/v1".toList, none, none, none, none,
    ⟨none, (Upstream.getManifest Codec.mirror (some r)).toOption, none, none⟩⟩

theorem reply_pullFrom (r : HttpReply) : (pullFrom r).upstream.getManifest =
    (Upstream.getManifest Codec.mirror (some r)).toOption := rfl

def foreignDigest : Str := (Codec.mirror.digest []).toStr

theorem casIntegrity_start (S : Setup) (ticks wall : List Nat) :
    CasIntegrity (World.start S ticks wall) := casIntegrity_runOps S ticks wall [] trivial rfl

/-- The mismatch is served, and the tag is recorded with the foreign digest. -/
theorem foreign_digest_is_served :
    ¬ ∀ (S : Setup) (w : World S), CasIntegrity w → ∀ (req : Request) (repo reference : Str),
      req.method = .get → split req.rest = (repo, .manifest reference) → repo ≠ [] →
      ∀ reply : Option HttpReply,
        req.upstream.getManifest = (Upstream.getManifest S reply).toOption →
          AnswersConsistently w req repo reference := by
  intro h
  have hcons := h Codec.mirror (World.start Codec.mirror [] []) (casIntegrity_start _ _ _)
    (pullFrom (replyWith (some foreignDigest))) "library/app".toList "v1".toList rfl
    (by decide +kernel) (by decide) (some (replyWith (some foreignDigest)))
    (reply_pullFrom _)
  have hresp : ((dispatch { pullFrom (replyWith (some foreignDigest)) with ifNoneMatch := none } :
      Handler Codec.mirror).exec (World.start Codec.mirror [] [])).1 = .ok ⟨.ok, [(.contentLength, decimal 8),
        (.dockerContentDigest, foreignDigest),
        (.contentType, "application/vnd.oci.image.manifest.v1+json".toList)],
        .bytes (Codec.utf8 "manifest".toList)⟩ := by decide +kernel
  obtain ⟨b, hbody, hheader, -⟩ := hcons.of_outcome hresp rfl
  cases hbody
  revert hheader
  decide +kernel

/-- Without a digest header the digest is computed from the body. -/
theorem computed_digest_is_consistent :
    AnswersConsistently (World.start Codec.mirror [] []) (pullFrom (replyWith none))
      "library/app".toList "v1".toList := by
  refine (manifest_consistent_iff Codec.mirror (World.start Codec.mirror [] [])
    (casIntegrity_start _ _ _) (pullFrom (replyWith none)) "library/app".toList "v1".toList rfl
    (by decide +kernel) (by decide) (some (replyWith none)) (reply_pullFrom _)).mpr ?_
  intro _ r hr _ b hb
  cases hr
  refine ⟨fun text ht => ?_, fun d hd => ?_⟩
  · cases ht
  · cases hd

end Quill.Registry
