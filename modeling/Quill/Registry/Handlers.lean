import Quill.Registry.Routes
import Quill.Storage.Operations

/-!
# The handlers as effects

Pulling moves a world along ambient steps, publications and fills of the cache; uploads
add the steps of sessions; pushing a manifest sets at most one tag, and only deletions
retract blobs or remove tags. `dispatch_along` collects this for a whole request.
-/

namespace Quill.Registry

open Text Files Cas World LocalStorage Uploads LocalTags PullThrough

variable {S : Setup} {repo : Str} {K : Set Kind}

/-- The effects of a pull. -/
def pullKinds : Set Kind := {.ambient, .publish, .fill}

theorem build_along (status : Status) (headers : List (HeaderName × Str)) (body : Body) :
    Moves (Along S repo K) (build status headers body : Handler S) :=
  Moves.of_ite (fun _ => Moves.of_pure _) fun _ => Moves.of_throw _

theorem catalog_along : Moves (Along S repo K) (catalog : Handler S) := by
  refine Moves.of_get.seq fun w => ?_
  cases listRepos S.root w.fs with
  | error e => exact Moves.of_pure _
  | ok repos => exact Moves.of_pure _

/-! ## Pulls -/

section Pulls

variable (hK : pullKinds ⊆ K)

include hK

theorem ambient_mem : Kind.ambient ∈ K := hK (Or.inl rfl)

theorem publish_mem : Kind.publish ∈ K := hK (Or.inr (Or.inl rfl))

theorem fill_mem : Kind.fill ∈ K := hK (Or.inr (Or.inr rfl))

theorem pull_blobMeta (d : Digest) : Moves (Along S repo K) (blobMeta (S := S) repo d) :=
  blobMeta_along (ambient_mem hK) (fill_mem hK) d

theorem fetchBlob_along (d : Digest) (reply : Option (List (Option Bytes))) :
    Moves (Along S repo K) (fetchBlob (S := S) repo d reply) := by
  refine (call_along (ambient_mem hK) _).seq fun _ => ?_
  cases reply with
  | none => exact Moves.of_throw _
  | some stream =>
    intro w
    obtain ⟨halong, hfile⟩ := runProducer_along repo (ambient_mem hK) (publish_mem hK) d
      (scratch_tempfilePath S.root repo d) stream w
    refine Moves.rel_bind halong fun total w₁ hrun => ?_
    refine Moves.rel_bind (instantNow_along (ambient_mem hK) w₁) fun now w₂ hnow => ?_
    cases hnow
    obtain ⟨c, hread, htotal⟩ := hfile total w₁ hrun
    have hread' : w₁.tick.fs.read (blobPath S.root repo d) = some c := hread
    have hfile' : w₁.tick.fs.isFile (blobPath S.root repo d) = true := by
      rw [Fs.isFile, hread']
      rfl
    refine (Effect.fill (w := w₁.tick) d ⟨_, total, _⟩ rfl hfile' fun b hb hlen => ?_).along (fill_mem hK)
    cases hread'.symm.trans hb
    exact htotal.trans (tally_of_lt hlen)

theorem serveLocalBlob_along (m : BlobMeta) (d : Digest) (withBody : Bool) :
    Moves (Along S repo K) (serveLocalBlob m d withBody : Handler S) := by
  unfold serveLocalBlob
  refine Moves.of_ite (fun _ => ?_) fun _ => build_along _ _ _
  refine (readBlobToBytes_along (ambient_mem hK) m).of_attempt.seq fun r => ?_
  cases r with
  | error e => exact Moves.of_pure _
  | ok b => exact build_along _ _ _

theorem serveBlobViaPullthrough_along (d : Digest) (withBody : Bool)
    (reply : Option (List (Option Bytes))) :
    Moves (Along S repo K) (serveBlobViaPullthrough repo d withBody reply : Handler S) := by
  refine (fetchBlob_along hK d reply).of_attempt.seq fun r => ?_
  cases r with
  | ok n => exact Moves.of_ite (fun _ => build_along _ _ _) fun _ => build_along _ _ _
  | error e => exact Moves.of_ite (fun _ => build_along _ _ _) fun _ => Moves.of_pure _

theorem getBlob_along (digest : Str) (withBody : Bool) (up : Replies) :
    Moves (Along S repo K) (getBlob repo digest withBody up : Handler S) := by
  unfold getBlob
  cases Digest.parse digest with
  | error e => exact Moves.of_pure _
  | ok d =>
    refine (pull_blobMeta hK d).of_attempt.seq fun r => ?_
    rcases r with e | _ | m
    · exact Moves.of_pure _
    · simp only
      cases S.route repo with
      | none => exact Moves.of_pure _
      | some p => exact serveBlobViaPullthrough_along hK d withBody up.streamBlob
    · exact serveLocalBlob_along hK m d withBody

theorem serveLocalManifest_along (d : Digest) (reference : Str) (withBody : Bool) :
    Moves (Along S repo K) (serveLocalManifest repo d reference withBody : Handler S) := by
  refine (pull_blobMeta hK d).of_attempt.seq fun r => ?_
  rcases r with e | _ | m
  · exact Moves.of_pure _
  · exact Moves.of_pure _
  · refine (readBlobToBytes_along (ambient_mem hK) m).of_attempt.seq fun r => ?_
    cases r with
    | error e => exact Moves.of_pure _
    | ok b => exact build_along _ _ _

theorem fetchAndServeUpstreamManifest_along (reference : Str) (withBody : Bool)
    (reply : Option ManifestResponse) :
    Moves (Along S repo K)
      (fetchAndServeUpstreamManifest repo reference withBody reply : Handler S) := by
  refine (call_along (ambient_mem hK) _).seq fun _ => ?_
  cases reply with
  | none => exact Moves.of_pure _
  | some resp =>
    refine (putBlobBuffered_along (ambient_mem hK) (publish_mem hK) (fill_mem hK) resp.digest
      resp.bytes).of_attempt.seq fun _ => ?_
    simp only
    cases Digest.parse reference with
    | error e =>
      exact (tagCacheInsert_along (ambient_mem hK) repo reference resp.digest).seq
        fun _ => build_along _ _ _
    | ok d => exact build_along _ _ _

theorem fetchManifestOrUnknown_along (reference : Str) (withBody : Bool) (up : Replies) :
    Moves (Along S repo K) (fetchManifestOrUnknown repo reference withBody up : Handler S) := by
  unfold fetchManifestOrUnknown
  cases S.route repo with
  | none => exact Moves.of_pure _
  | some p => exact fetchAndServeUpstreamManifest_along hK reference withBody up.getManifest

theorem serveIfPresent_along (d : Digest) (reference : Str) (withBody : Bool)
    {otherwise : Handler S} (ho : Moves (Along S repo K) otherwise) :
    Moves (Along S repo K) (serveIfPresent repo d reference withBody otherwise : Handler S) := by
  refine (pull_blobMeta hK d).of_attempt.seq fun r => ?_
  rcases r with e | _ | m
  · exact ho
  · exact ho
  · exact serveLocalManifest_along hK d reference withBody

theorem getManifestByTag_along (reference : Str) (withBody : Bool) (up : Replies) :
    Moves (Along S repo K) (getManifestByTag repo reference withBody up : Handler S) := by
  have hfetch : Moves (Along S repo K) (fetchManifestOrUnknown repo reference withBody up :
      Handler S) := fetchManifestOrUnknown_along hK reference withBody up
  refine (tagCacheLookup_along (ambient_mem hK) repo reference).seq fun state => ?_
  cases state with
  | miss => exact hfetch
  | fresh d => exact serveIfPresent_along hK d reference withBody hfetch
  | stale d =>
    cases S.route repo with
    | none => exact serveIfPresent_along hK d reference withBody hfetch
    | some p =>
      refine (call_along (ambient_mem hK) _).seq fun _ => ?_
      cases up.resolveTag with
      | none => exact serveIfPresent_along hK d reference withBody hfetch
      | some d' =>
        refine Moves.of_ite (fun _ => ?_) fun _ => hfetch
        exact (tagCacheTouch_along (ambient_mem hK) repo reference).seq
          fun _ => serveIfPresent_along hK d reference withBody hfetch

theorem getManifest_along (reference : Str) (withBody : Bool) (up : Replies) :
    Moves (Along S repo K) (getManifest repo reference withBody up : Handler S) := by
  unfold getManifest
  cases Digest.parse reference with
  | ok d =>
    refine (pull_blobMeta hK d).of_attempt.seq fun r => ?_
    rcases r with e | _ | m
    · exact Moves.of_pure _
    · exact fetchManifestOrUnknown_along hK reference withBody up
    · exact serveLocalManifest_along hK d reference withBody
  | error e =>
    refine Moves.of_get.seq fun w => ?_
    cases w.localTags.lookup (repo, reference) with
    | none => exact getManifestByTag_along hK reference withBody up
    | some tag =>
      simp only
      cases Digest.parse tag.digest with
      | ok d => exact serveLocalManifest_along hK d reference withBody
      | error e => exact getManifestByTag_along hK reference withBody up

theorem listTags_along (up : Replies) : Moves (Along S repo K) (listTags repo up : Handler S) := by
  refine Moves.of_get.seq fun w => ?_
  refine Moves.of_ite (fun _ => ?_) fun _ => Moves.of_pure _
  cases S.route repo with
  | none => exact Moves.of_pure _
  | some p => exact (call_along (ambient_mem hK) _).seq fun _ => Moves.of_pure _

theorem firstMissing_along (texts : List Str) :
    Moves (Along S repo K) (firstMissing (S := S) repo texts) := by
  induction texts with
  | nil => exact Moves.of_pure _
  | cons text texts ih =>
    unfold firstMissing
    cases Digest.parse text with
    | error e => exact Moves.of_pure _
    | ok d =>
      refine (pull_blobMeta hK d).of_attempt.seq fun r => ?_
      rcases r with e | _ | m
      · exact Moves.of_pure _
      · exact Moves.of_pure _
      · exact ih

theorem checkManifestBlobsPresent_along (bytes : Bytes) :
    Moves (Along S repo K) (checkManifestBlobsPresent (S := S) repo bytes) := by
  unfold checkManifestBlobsPresent
  cases S.serde.fromSlice bytes with
  | none => exact Moves.of_pure _
  | some v => exact firstMissing_along hK _

end Pulls

/-! ## Uploads -/

theorem uploadInit_along (hK : pullKinds ⊆ K) (hc : Kind.create ∈ K) :
    Moves (Along S repo K) (uploadInit repo : Handler S) := by
  refine (ensureRepo_along (ambient_mem hK) repo).of_attempt.seq fun r => ?_
  cases r with
  | error e => exact Moves.of_pure _
  | ok u =>
    refine (createSession_along (ambient_mem hK) hc).of_attempt.seq fun r => ?_
    cases r with
    | error e => exact Moves.of_pure _
    | ok session => exact build_along _ _ _

section Uploads

variable (hK : pullKinds ⊆ K) (hs : Kind.session ∈ K)

include hK hs

theorem uploadPatch_along (session : Str) (body : Option Bytes) :
    Moves (Along S repo K) (uploadPatch repo session body : Handler S) := by
  unfold uploadPatch
  cases collectBody body maxUpload with
  | error resp => exact Moves.of_pure _
  | ok bytes =>
    refine (append_along (ambient_mem hK) hs session bytes).of_attempt.seq fun r => ?_
    rcases r with (_ | _ | _ | _) | total <;> first | exact Moves.of_pure _ | exact build_along _ _ _

theorem uploadPut_along (session : Str) (digestQuery : Option Str) (body : Option Bytes) :
    Moves (Along S repo K) (uploadPut repo session digestQuery body : Handler S) := by
  unfold uploadPut
  cases digestQuery with
  | none => exact Moves.of_pure _
  | some text =>
    simp only
    cases Digest.parse text with
    | error e => exact Moves.of_pure _
    | ok d =>
      simp only
      cases collectBody body maxUpload with
      | error resp => exact Moves.of_pure _
      | ok bytes =>
        refine (finalize_along (ambient_mem hK) hs session _ d).of_attempt.seq fun r => ?_
        rcases r with (_ | _ | _ | _) | total <;>
          first | exact Moves.of_pure _ | exact build_along _ _ _

end Uploads

/-! ## Pushes and deletions -/

/-- What a request asks for that can set a tag, remove one or remove a blob. -/
inductive Command where
  | push (repo tag : Str)
  | untag (repo tag : Str)
  | deleteManifest (repo : Str) (d : Digest)
  | deleteBlob (repo : Str) (d : Digest)
  | other
  deriving DecidableEq

/-- What a request for a manifest is about to change. -/
def manifestCommand (method : Method) (repo reference : Str) : Command :=
  match method, Digest.parse reference with
  | .put, .error _ => .push repo reference
  | .delete, .error _ => .untag repo reference
  | .delete, .ok d => .deleteManifest repo d
  | _, _ => .other

/-- What a request for a blob is about to change. -/
def blobCommand (method : Method) (repo digest : Str) : Command :=
  match method, Digest.parse digest with
  | .delete, .ok d => .deleteBlob repo d
  | _, _ => .other

/-- What a routed request is about to change. -/
def routeCommand (method : Method) (repo : Str) : Action → Command
  | .manifest r => manifestCommand method repo r
  | .blob d => blobCommand method repo d
  | _ => .other

/-- What a request is about to change, read off its method and path. -/
def Request.command (req : Request) : Command :=
  if (split req.rest).1 = [] then .other
  else routeCommand req.method (split req.rest).1 (split req.rest).2

/-- The kinds that a command adds to those of every request. -/
def Command.kinds : Command → Set Kind
  | .push _ _ => {.setTag}
  | .untag _ _ => {.removeTag}
  | .deleteManifest _ _ => {.removeTag, .retract}
  | .deleteBlob _ _ => {.retract}
  | .other => ∅

theorem storeManifest_along (hK : pullKinds ⊆ K) (reference : Str)
    (ht : ∀ e, Digest.parse reference = .error e → Kind.setTag ∈ K) (contentType : Option Str)
    (bytes : Bytes) :
    Moves (Along S repo K) (storeManifest repo reference contentType bytes : Handler S) := by
  refine (putBlobBuffered_along (ambient_mem hK) (publish_mem hK) (fill_mem hK) _
    bytes).of_attempt.seq fun r => ?_
  cases r with
  | error e => exact Moves.of_pure _
  | ok m =>
    simp only
    cases href : Digest.parse reference with
    | ok d => exact build_along _ _ _
    | error e =>
      refine (setTag_along (ambient_mem hK) (ht e href) reference _).of_attempt.seq fun r => ?_
      cases r with
      | error e => exact Moves.of_pure _
      | ok u => exact build_along _ _ _

theorem putManifest_along (hK : pullKinds ⊆ K) (reference : Str)
    (ht : ∀ e, Digest.parse reference = .error e → Kind.setTag ∈ K) (contentType : Option Str)
    (body : Option Bytes) :
    Moves (Along S repo K) (putManifest repo reference contentType body : Handler S) := by
  refine (ensureRepo_along (ambient_mem hK) repo).of_attempt.seq fun r => ?_
  cases r with
  | error e => exact Moves.of_pure _
  | ok u =>
    simp only
    cases collectBody body 33554432 with
    | error resp => exact Moves.of_pure _
    | ok bytes =>
      simp only
      cases (Digest.parse reference).toOption.filter (· ≠ S.digest bytes) with
      | some other => exact Moves.of_pure _
      | none =>
        refine (checkManifestBlobsPresent_along hK bytes).seq fun r => ?_
        cases r with
        | some missing => exact Moves.of_pure _
        | none => exact storeManifest_along hK reference ht contentType bytes

theorem deleteBlobRoute_along (hK : pullKinds ⊆ K) (digest : Str)
    (hr : ∀ d, Digest.parse digest = .ok d → Kind.retract ∈ K) :
    Moves (Along S repo K) (deleteBlobRoute repo digest : Handler S) := by
  unfold deleteBlobRoute
  cases hd : Digest.parse digest with
  | error e => exact Moves.of_pure _
  | ok d =>
    refine (deleteBlob_along (ambient_mem hK) (hr d hd) d).of_attempt.seq fun r => ?_
    rcases r with (_ | _ | _) | u <;> exact Moves.of_pure _

theorem removeTags_along (ht : Kind.removeTag ∈ K) (tags : List Str) :
    Moves (Along S repo K) (removeTags (S := S) repo tags) := by
  induction tags with
  | nil => exact Moves.of_pure _
  | cons tag tags ih => exact (removeTag_along ht tag).of_attempt.seq fun _ => ih

theorem deleteManifest_along (hK : pullKinds ⊆ K) (reference : Str)
    (hr : ∀ d, Digest.parse reference = .ok d → Kind.retract ∈ K) (ht : Kind.removeTag ∈ K) :
    Moves (Along S repo K) (deleteManifest repo reference : Handler S) := by
  unfold deleteManifest
  cases hd : Digest.parse reference with
  | error e =>
    refine (removeTag_along ht reference).of_attempt.seq fun r => ?_
    rcases r with e | _ | _ <;> exact Moves.of_pure _
  | ok d =>
    refine Moves.of_get.seq fun w => ?_
    refine (removeTags_along ht _).seq fun _ => ?_
    refine (deleteBlob_along (ambient_mem hK) (hr d hd) d).of_attempt.seq fun r => ?_
    rcases r with (_ | _ | _) | u <;> exact Moves.of_pure _

/-! ## Requests -/

theorem route_along (hK : pullKinds ⊆ K) (hs : Kind.session ∈ K) (req : Request) (action : Action)
    (hcreate : action = .uploadInit → req.method = .post → Kind.create ∈ K)
    (hcommand : (routeCommand req.method repo action).kinds ⊆ K) :
    Moves (Along S repo K) (route req repo action : Handler S) := by
  have hun : Moves (Along S repo K) (route.unsupported : Handler S) := Moves.of_pure _
  cases action with
  | blob d =>
    cases hm : req.method with
    | get => simpa only [route, hm] using getBlob_along hK d true req.upstream
    | head => simpa only [route, hm] using getBlob_along hK d false req.upstream
    | delete =>
      simp only [route, hm]
      refine deleteBlobRoute_along hK d fun d' hd => hcommand ?_
      simp [routeCommand, blobCommand, hm, hd, Command.kinds]
    | _ => simpa only [route, hm] using hun
  | manifest r =>
    cases hm : req.method with
    | get => simpa only [route, hm] using (getManifest_along hK r true req.upstream).of_map _
    | head => simpa only [route, hm] using (getManifest_along hK r false req.upstream).of_map _
    | put =>
      simp only [route, hm]
      refine putManifest_along hK r (fun e he => hcommand ?_) req.contentType req.body
      simp [routeCommand, manifestCommand, hm, he, Command.kinds]
    | delete =>
      simp only [route, hm]
      refine deleteManifest_along hK r (fun d hd => hcommand ?_) (hcommand ?_)
      · simp [routeCommand, manifestCommand, hm, hd, Command.kinds]
      · cases hr : Digest.parse r <;> simp [routeCommand, manifestCommand, hm, hr, Command.kinds]
    | _ => simpa only [route, hm] using hun
  | tagsList => exact Moves.of_ite (fun _ => listTags_along hK req.upstream) fun _ => hun
  | uploadInit => exact Moves.of_ite (fun hm => uploadInit_along hK (hcreate rfl hm)) fun _ => hun
  | uploadSession s =>
    cases hm : req.method with
    | patch => simpa only [route, hm] using uploadPatch_along hK hs s req.body
    | put => simpa only [route, hm] using uploadPut_along hK hs s req.digestQuery req.body
    | _ => simpa only [route, hm] using hun
  | unknown => exact hun

/-- A request moves the world along effects on its own repository. -/
theorem dispatch_along (hK : pullKinds ⊆ K) (hs : Kind.session ∈ K) (req : Request)
    (hcreate : (split req.rest).2 = .uploadInit → req.method = .post → Kind.create ∈ K)
    (hcommand : req.command.kinds ⊆ K) :
    Moves (Along S (split req.rest).1 K) (dispatch req : Handler S) := by
  unfold dispatch
  refine Moves.of_ite (fun _ => catalog_along) fun _ => ?_
  refine Moves.of_ite (fun _ => Moves.of_pure _) fun hrepo => ?_
  refine route_along hK hs req _ hcreate ?_
  rwa [Request.command, if_neg hrepo] at hcommand

end Quill.Registry
