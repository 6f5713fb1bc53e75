import Quill.PullThrough.Fetch
import Quill.Registry.Pulls

/-!
# Requests and the cache of upstream tags

Only a pull of a manifest changes the cache of upstream tags; every other request leaves it as it
is (`still`). A pull stamps an entry anew or inserts one, so that no request forgets
an entry (`keepsTags`).
-/

namespace Quill.Registry

open Text Files Cas World LocalStorage LocalTags TagCache PullThrough

/-! ## Requests that leave the cache of upstream tags alone -/

section Still

variable {S : Setup} {repo : Str}

theorem still_of_looks {w w' : World S} (h : Looks w w') : still.rel w w' :=
  ⟨h.upstreamTags, h.clock⟩

theorem blobMeta_still (d : Digest) : Moves still (blobMeta (S := S) repo d) := by
  intro w
  obtain ⟨w', hlooks, ⟨-, m, -, he⟩ | ⟨-, -, he⟩ | ⟨-, -, he⟩⟩ := blobMeta_looks w repo d
  · rw [he]
    exact still_of_looks hlooks
  · rw [he]
    exact still_of_looks hlooks
  · rw [he]
    exact still_of_looks hlooks

theorem firstMissing_still (texts : List Str) : Moves still (firstMissing (S := S) repo texts) := by
  induction texts with
  | nil => exact Moves.of_pure _
  | cons text texts ih =>
    unfold firstMissing
    cases Digest.parse text with
    | error e => exact Moves.of_pure _
    | ok d =>
      refine (blobMeta_still d).of_attempt.seq fun r => ?_
      rcases r with e | _ | m
      · exact Moves.of_pure _
      · exact Moves.of_pure _
      · exact ih

theorem checkManifestBlobsPresent_still (bytes : Bytes) :
    Moves still (checkManifestBlobsPresent (S := S) repo bytes) := by
  unfold checkManifestBlobsPresent
  cases S.serde.fromSlice bytes with
  | none => exact Moves.of_pure _
  | some v => exact firstMissing_still _

theorem writeSidecar_still (value : OnDiskTags) : Moves still (writeSidecar (S := S) repo value) :=
  ((onFs_still _).of_mapError _).seq fun _ => (onFs_still _).of_mapError _

theorem setTag_still (tag : Str) (d : Digest) : Moves still (LocalTags.set (S := S) repo tag d) := by
  refine wallNow_still.seq fun _ => ?_
  refine Moves.seq (fun _ => ⟨rfl, fun h => ⟨h, rfl⟩⟩) fun _ => ?_
  exact Moves.of_get.seq fun _ => writeSidecar_still _

theorem removeTag_still (tag : Str) : Moves still (LocalTags.remove (S := S) repo tag) := by
  refine Moves.of_get.seq fun w => ?_
  cases w.localTags.lookup (repo, tag) with
  | none => exact Moves.of_pure _
  | some m =>
    refine Moves.seq (fun _ => ⟨rfl, fun h => ⟨h, rfl⟩⟩) fun _ => ?_
    refine Moves.of_get.seq fun _ => ?_
    exact (writeSidecar_still _).seq fun _ => Moves.of_pure _

theorem removeTags_still (tags : List Str) : Moves still (removeTags (S := S) repo tags) := by
  induction tags with
  | nil => exact Moves.of_pure _
  | cons tag tags ih => exact (removeTag_still tag).of_attempt.seq fun _ => ih

theorem deleteBlob_still (d : Digest) : Moves still (deleteBlob (S := S) repo d) := by
  refine (probeFs_still _).of_attempt.seq fun r => ?_
  rcases r with (_ | _) | u
  · exact Moves.seq (fun _ => ⟨rfl, fun h => ⟨h, rfl⟩⟩) fun _ => Moves.of_throw _
  · exact Moves.of_throw _
  · exact fun _ => ⟨rfl, fun h => ⟨h, rfl⟩⟩

theorem build_still (status : Status) (headers : List (HeaderName × Str)) (body : Body) :
    Moves still (build status headers body : Handler S) :=
  Moves.of_ite (fun _ => Moves.of_pure _) fun _ => Moves.of_throw _

theorem putManifest_still (reference : Str) (contentType : Option Str) (body : Option Bytes) :
    Moves still (putManifest repo reference contentType body : Handler S) := by
  refine Moves.seq (Moves.of_attempt ((onFs_still _).of_mapError _)) fun r => ?_
  cases r with
  | error e => exact Moves.of_pure _
  | ok u =>
    simp only
    cases collectBody body 33554432 with
    | error resp => exact Moves.of_pure _
    | ok bytes =>
      simp only
      cases (Digest.parse reference).toOption.filter (· ≠ S.digest bytes) with
      | some other => exact Moves.of_pure _
      | none =>
        refine (checkManifestBlobsPresent_still bytes).seq fun missing => ?_
        cases missing with
        | some text => exact Moves.of_pure _
        | none =>
          refine (putBlobBuffered_still repo _ bytes).of_attempt.seq fun r => ?_
          cases r with
          | error e => exact Moves.of_pure _
          | ok m =>
            simp only
            cases Digest.parse reference with
            | ok d => exact build_still _ _ _
            | error e =>
              refine (setTag_still reference _).of_attempt.seq fun r => ?_
              cases r with
              | error e => exact Moves.of_pure _
              | ok u => exact build_still _ _ _

theorem deleteManifest_still (reference : Str) :
    Moves still (deleteManifest repo reference : Handler S) := by
  unfold deleteManifest
  cases Digest.parse reference with
  | error e =>
    refine (removeTag_still reference).of_attempt.seq fun r => ?_
    rcases r with e | _ | _
    · exact Moves.of_pure _
    · exact Moves.of_pure _
    · exact Moves.of_pure _
  | ok d =>
    refine Moves.of_get.seq fun w => ?_
    refine (removeTags_still _).seq fun _ => ?_
    refine (deleteBlob_still d).of_attempt.seq fun r => ?_
    rcases r with (_ | _ | _) | u
    · exact Moves.of_pure _
    · exact Moves.of_pure _
    · exact Moves.of_pure _
    · exact Moves.of_pure _

/-! ## Pulls of blobs -/

theorem call_still {ε : Type} (c : UpstreamCall) : Moves still (call c : Prog (World S) ε Unit) :=
  fun _ => ⟨rfl, fun h => ⟨h, rfl⟩⟩

theorem receive_still (tempfile : Path) (stream : List (Option Bytes)) (hasher : S.hash.State)
    (total : Nat) : Moves still (receive (S := S) tempfile stream hasher total) := by
  induction stream generalizing hasher total with
  | nil => exact Moves.of_pure _
  | cons item stream ih =>
    cases item with
    | none => exact Moves.of_throw _
    | some chunk => exact ((onFs_still _).of_mapError _).seq fun _ => ih _ _

theorem promote_still (src dst : Path) : Moves still (promote (S := S) src dst) := by
  refine Moves.of_get.seq fun w => ?_
  exact (onFs_still _).seq fun _ => fun _ => ⟨rfl, fun h => ⟨h, rfl⟩⟩

theorem runProducer_still (d : Digest) (tempfile finalPath : Path) (stream : List (Option Bytes)) :
    Moves still (runProducer (S := S) d tempfile finalPath stream) := by
  have hproduce : Moves still (produce (S := S) d tempfile finalPath stream) := by
    refine (receive_still tempfile stream _ _).seq fun received => ?_
    refine Moves.of_ite (fun _ => Moves.of_throw _) fun _ => ?_
    refine ((onFs_still _).of_mapError _).seq fun _ => ?_
    exact ((promote_still _ _).of_mapError _).seq fun _ => Moves.of_pure _
  refine ((onFs_still _).of_mapError _).seq fun _ => ?_
  refine ((onFs_still _).of_mapError _).seq fun _ => ?_
  refine hproduce.of_attempt.seq fun r => ?_
  cases r with
  | ok total => exact Moves.of_pure _
  | error e => exact (probeFs_still _).of_attempt.seq fun _ => Moves.of_throw _

theorem fetchBlob_still (d : Digest) (reply : Option (List (Option Bytes))) :
    Moves still (fetchBlob (S := S) repo d reply) := by
  refine (call_still _).seq fun _ => ?_
  cases reply with
  | none => exact Moves.of_throw _
  | some stream =>
    refine (runProducer_still d _ _ stream).seq fun total => ?_
    refine instantNow_still.seq fun now => ?_
    exact Moves.seq (fun _ => ⟨rfl, fun h => ⟨h, rfl⟩⟩) fun _ => Moves.of_pure _

theorem readBlobToBytes_still (m : BlobMeta) : Moves still (readBlobToBytes (S := S) m) :=
  (onFs_still _).of_mapError _

theorem getBlob_still (digest : Str) (withBody : Bool) (up : Replies) :
    Moves still (getBlob repo digest withBody up : Handler S) := by
  unfold getBlob
  cases Digest.parse digest with
  | error e => exact Moves.of_pure _
  | ok d =>
    refine (blobMeta_still d).of_attempt.seq fun r => ?_
    rcases r with e | _ | m
    · exact Moves.of_pure _
    · simp only
      cases S.route repo with
      | none => exact Moves.of_pure _
      | some p =>
        refine (fetchBlob_still d up.streamBlob).of_attempt.seq fun r => ?_
        cases r with
        | ok n => exact Moves.of_ite (fun _ => build_still _ _ _) fun _ => build_still _ _ _
        | error e => exact Moves.of_ite (fun _ => build_still _ _ _) fun _ => Moves.of_pure _
    · refine Moves.of_ite (fun _ => ?_) fun _ => build_still _ _ _
      refine (readBlobToBytes_still m).of_attempt.seq fun r => ?_
      cases r with
      | error e => exact Moves.of_pure _
      | ok b => exact build_still _ _ _

end Still

/-! ## Pulls of manifests -/

section KeepsTags

variable {S : Setup} {repo : Str}

/-- No entry of the cache of upstream tags is forgotten. -/
def keepsTags : Evolution (World S) where
  rel w w' := ∀ key, key ∈ w.upstreamTags → key ∈ w'.upstreamTags
  refl _ _ h := h
  trans h g key hkey := g key (h key hkey)

theorem Moves.keepsTags {ε α : Type} {m : Prog (World S) ε α} (h : Moves still m) :
    Moves keepsTags m := h.weaken fun _ _ hstill _ hkey => hstill.1 ▸ hkey

theorem insert_keepsTags {w w' : World S} {key : Str × Str} {e : Digest × Nat}
    (h : w'.upstreamTags = w.upstreamTags.insert key e) : keepsTags.rel w w' := by
  intro key' hkey'
  rw [h]
  exact AList.mem_insert _ |>.mpr (Or.inr hkey')

theorem serveLocalManifest_still (d : Digest) (reference : Str) (withBody : Bool) :
    Moves still (serveLocalManifest repo d reference withBody : Handler S) := by
  refine (blobMeta_still d).of_attempt.seq fun r => ?_
  rcases r with e | _ | m
  · exact Moves.of_pure _
  · exact Moves.of_pure _
  · refine (readBlobToBytes_still m).of_attempt.seq fun r => ?_
    cases r with
    | error e => exact Moves.of_pure _
    | ok b => exact build_still _ _ _

theorem fetchManifestOrUnknown_keepsTags (reference : Str) (withBody : Bool) (up : Replies) :
    Moves keepsTags (fetchManifestOrUnknown repo reference withBody up : Handler S) := by
  unfold fetchManifestOrUnknown
  cases S.route repo with
  | none => exact Moves.of_pure _
  | some p =>
    refine (Moves.keepsTags (call_still _)).seq fun _ => ?_
    cases up.getManifest with
    | none => exact Moves.of_pure _
    | some resp =>
      refine (Moves.keepsTags (putBlobBuffered_still repo _ _)).of_attempt.seq fun _ => ?_
      simp only
      cases Digest.parse reference with
      | ok d => exact Moves.keepsTags (build_still _ _ _)
      | error e =>
        refine Moves.seq (fun w => ?_) fun _ => Moves.keepsTags (build_still _ _ _)
        obtain ⟨w', t, he, htags, -⟩ := exec_tagCacheInsert (ε := Abort) w repo reference resp.digest
        rw [he]
        exact insert_keepsTags htags

theorem serveIfPresent_keepsTags (d : Digest) (reference : Str) (withBody : Bool)
    {otherwise : Handler S} (h : Moves keepsTags otherwise) :
    Moves keepsTags (serveIfPresent repo d reference withBody otherwise : Handler S) := by
  refine (Moves.keepsTags (blobMeta_still d)).of_attempt.seq fun r => ?_
  rcases r with e | _ | m
  · exact h
  · exact h
  · exact Moves.keepsTags (serveLocalManifest_still d reference withBody)

theorem touch_keepsTags {ε : Type} (tag : Str) :
    Moves keepsTags (touch repo tag : Prog (World S) ε Unit) := by
  intro w
  cases hentry : w.upstreamTags.lookup (repo, tag) with
  | none =>
    have hrun : (touch repo tag : Prog (World S) ε Unit).exec w = (.ok (), w) := by
      unfold touch
      rw [Prog.exec_bind_ok (Prog.exec_get w), hentry]
      rfl
    rw [hrun]
    exact fun _ hkey => hkey
  | some e =>
    obtain ⟨d, t⟩ := e
    rw [exec_touch hentry]
    exact insert_keepsTags (w := w) rfl

theorem lookup_still {ε : Type} (tag : Str) :
    Moves still (TagCache.lookup repo tag : Prog (World S) ε TagCacheState) := by
  refine Moves.of_get.seq fun w => ?_
  cases w.upstreamTags.lookup (repo, tag) with
  | none => exact Moves.of_pure _
  | some e => exact instantNow_still.seq fun _ => Moves.of_pure _

theorem getManifestByTag_keepsTags (reference : Str) (withBody : Bool) (up : Replies) :
    Moves keepsTags (getManifestByTag repo reference withBody up : Handler S) := by
  have hfetch : Moves keepsTags (fetchManifestOrUnknown repo reference withBody up : Handler S) :=
    fetchManifestOrUnknown_keepsTags reference withBody up
  refine (Moves.keepsTags (lookup_still reference)).seq fun state => ?_
  cases state with
  | miss => exact hfetch
  | fresh d => exact serveIfPresent_keepsTags d reference withBody hfetch
  | stale d =>
    cases S.route repo with
    | none => exact serveIfPresent_keepsTags d reference withBody hfetch
    | some p =>
      refine (Moves.keepsTags (call_still _)).seq fun _ => ?_
      cases up.resolveTag with
      | none => exact serveIfPresent_keepsTags d reference withBody hfetch
      | some d' =>
        refine Moves.of_ite (fun _ => ?_) fun _ => hfetch
        exact (touch_keepsTags reference).seq
          fun _ => serveIfPresent_keepsTags d reference withBody hfetch

theorem getManifest_keepsTags (reference : Str) (withBody : Bool) (up : Replies) :
    Moves keepsTags (getManifest repo reference withBody up : Handler S) := by
  unfold getManifest
  cases Digest.parse reference with
  | ok d =>
    refine (Moves.keepsTags (blobMeta_still d)).of_attempt.seq fun r => ?_
    rcases r with e | _ | m
    · exact Moves.of_pure _
    · exact fetchManifestOrUnknown_keepsTags reference withBody up
    · exact Moves.keepsTags (serveLocalManifest_still d reference withBody)
  | error e =>
    refine Moves.of_get.seq fun w => ?_
    cases w.localTags.lookup (repo, reference) with
    | none => exact getManifestByTag_keepsTags reference withBody up
    | some tag =>
      simp only
      cases Digest.parse tag.digest with
      | ok d => exact Moves.keepsTags (serveLocalManifest_still d reference withBody)
      | error e => exact getManifestByTag_keepsTags reference withBody up

end KeepsTags

end Quill.Registry
