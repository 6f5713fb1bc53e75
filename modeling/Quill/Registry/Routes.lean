import Mathlib.Data.Char
import Mathlib.Data.List.Lex
import Quill.Files.Walk
import Quill.PullThrough.Fetch
import Quill.Registry.Response
import Quill.Registry.TagCache

/-!
# The routes of the registry

The handlers of `quill-registry`, each run from start to end. `split` takes the path below
`/v2/` apart, `dispatch` chooses the handler. A pull-through fetch runs to its end inside
the request that starts it, so that the table of fetches is empty between requests and every
request that misses is the producer of its fetch.
-/

namespace Quill.Registry

open Text Files Cas World LocalStorage Uploads LocalTags TagCache PullThrough

/-! ## Paths -/

/-- What the path asks for. -/
inductive Action where
  | blob (digest : Str)
  | manifest (reference : Str)
  | tagsList
  | uploadInit
  | uploadSession (session : Str)
  | unknown
  deriving DecidableEq

/-- The last component after `sep`, when it is not empty and has no `/`. -/
def lastAfter (sep rest : Str) : Option (Str × Str) :=
  match rsplitOnce sep rest with
  | some (repo, last) => if last ≠ [] ∧ '/' ∉ last then some (repo, last) else none
  | none => none

/-- The repository and the action of a path below `/v2/`; the session routes come before those of
blobs. -/
def split (rest : Str) : Str × Action :=
  match stripSuffix "/blobs/uploads/".toList rest with
  | some repo => (repo, .uploadInit)
  | none =>
    match stripSuffix "/blobs/uploads".toList rest with
    | some repo => (repo, .uploadInit)
    | none =>
      match lastAfter "/blobs/uploads/".toList rest with
      | some (repo, session) => (repo, .uploadSession session)
      | none =>
        match lastAfter "/blobs/".toList rest with
        | some (repo, digest) => (repo, .blob digest)
        | none =>
          match lastAfter "/manifests/".toList rest with
          | some (repo, reference) => (repo, .manifest reference)
          | none =>
            match stripSuffix "/tags/list".toList rest with
            | some repo => (repo, .tagsList)
            | none => ([], .unknown)

/-- The decimal text of a number. -/
def decimal (n : Nat) : Str := (toString n).toList

variable {S : Setup}

/-! ## Blobs -/

/-- `serve_local_blob`. -/
def serveLocalBlob (m : BlobMeta) (d : Digest) (withBody : Bool) : Handler S := do
  if withBody then
    match ← (readBlobToBytes m).attempt with
    | .error e => return internalErr (.storage e)
    | .ok b =>
      build .ok [(.contentLength, decimal m.size), (.dockerContentDigest, d.toStr),
        (.contentType, "application/octet-stream".toList)] (.file b)
  else
    build .ok [(.contentLength, decimal m.size), (.dockerContentDigest, d.toStr)] .empty

/-- The producer task of a fetch, with the insertion into the metadata cache. -/
def fetchBlob (repo : Str) (d : Digest) (reply : Option (List (Option Bytes))) :
    Prog (World S) PullThroughError Nat := do
  call (.streamBlob repo d)
  match reply with
  | none => throw .upstream
  | some stream =>
    let finalPath := blobPath S.root repo d
    let total ← runProducer d (PullThrough.tempfilePath S.root repo d) finalPath stream
    let now ← instantNow
    cacheInsert repo d ⟨finalPath, total, now⟩
    return total

/-- `serve_blob_via_pullthrough` when no other fetch is in flight. -/
def serveBlobViaPullthrough (repo : Str) (d : Digest) (withBody : Bool)
    (reply : Option (List (Option Bytes))) : Handler S := do
  match ← (fetchBlob repo d reply).attempt with
  | .ok finalSize =>
    if withBody then
      build .ok [(.dockerContentDigest, d.toStr), (.contentType, "application/octet-stream".toList),
        (.transferEncoding, "chunked".toList)] (.pullThrough d)
    else build .ok [(.contentLength, decimal finalSize), (.dockerContentDigest, d.toStr)] .empty
  | .error _ =>
    if withBody then
      build .ok [(.dockerContentDigest, d.toStr), (.contentType, "application/octet-stream".toList),
        (.transferEncoding, "chunked".toList)] (.pullThrough d)
    else return blobUnknown d.toStr

/-- `get_blob`. -/
def getBlob (repo digest : Str) (withBody : Bool) (up : Replies) : Handler S :=
  match Digest.parse digest with
  | .error _ => return digestInvalid digest
  | .ok d => do
    match ← (blobMeta repo d).attempt with
    | .error e => return internalErr (.storage e)
    | .ok (some m) => serveLocalBlob m d withBody
    | .ok none =>
      match S.route repo with
      | none => return blobUnknown digest
      | some _ => serveBlobViaPullthrough repo d withBody up.streamBlob

/-- `delete_blob`. -/
def deleteBlobRoute (repo digest : Str) : Handler S :=
  match Digest.parse digest with
  | .error _ => return digestInvalid digest
  | .ok d => do
    match ← (deleteBlob repo d).attempt with
    | .ok () => return ⟨.accepted, [], .empty⟩
    | .error (.notFound _) => return blobUnknown digest
    | .error e => return internalErr (.storage e)

/-! ## Pulling manifests -/

/-- `build_manifest_response`. -/
def buildManifestResponse (bytes : Bytes) (contentType : Str) (d : Digest) (withBody : Bool) :
    Handler S :=
  build .ok [(.contentLength, decimal bytes.length), (.dockerContentDigest, d.toStr),
    (.contentType, contentType)] (if withBody then .bytes bytes else .empty)

/-- `serve_local_manifest`. -/
def serveLocalManifest (repo : Str) (d : Digest) (reference : Str) (withBody : Bool) :
    Handler S := do
  match ← (blobMeta repo d).attempt with
  | .error e => return internalErr (.storage e)
  | .ok none => return manifestUnknown reference
  | .ok (some m) =>
    match ← (readBlobToBytes m).attempt with
    | .error e => return internalErr (.storage e)
    | .ok bytes =>
      buildManifestResponse bytes (Manifest.mediaType (S.serde.fromSlice bytes)) d withBody

/-- `fetch_and_serve_upstream_manifest`. -/
def fetchAndServeUpstreamManifest (repo reference : Str) (withBody : Bool)
    (reply : Option ManifestResponse) : Handler S := do
  call (.getManifest repo reference)
  match reply with
  | none => return manifestUnknown reference
  | some resp =>
    let _ ← (putBlobBuffered repo resp.digest resp.bytes).attempt
    match Digest.parse reference with
    | .error _ => TagCache.insert repo reference resp.digest
    | .ok _ => pure ()
    buildManifestResponse resp.bytes resp.contentType resp.digest withBody

/-- Serve a cached digest when its manifest is in the store, else go on with `otherwise`. -/
def serveIfPresent (repo : Str) (d : Digest) (reference : Str) (withBody : Bool)
    (otherwise : Handler S) : Handler S := do
  match ← (blobMeta repo d).attempt with
  | .ok (some _) => serveLocalManifest repo d reference withBody
  | _ => otherwise

/-- The last step of `get_manifest`. -/
def fetchManifestOrUnknown (repo reference : Str) (withBody : Bool) (up : Replies) : Handler S :=
  match S.route repo with
  | some _ => fetchAndServeUpstreamManifest repo reference withBody up.getManifest
  | none => return manifestUnknown reference

/-- `get_manifest` for a digest. -/
def getManifestByDigest (repo reference : Str) (d : Digest) (withBody : Bool) (up : Replies) :
    Handler S := do
  match ← (blobMeta repo d).attempt with
  | .error e => return internalErr (.storage e)
  | .ok (some _) => serveLocalManifest repo d reference withBody
  | .ok none => fetchManifestOrUnknown repo reference withBody up

/-- `get_manifest` for a tag that is not local. -/
def getManifestByTag (repo reference : Str) (withBody : Bool) (up : Replies) : Handler S := do
  let fetch := fetchManifestOrUnknown repo reference withBody up
  match ← TagCache.lookup repo reference, S.route repo with
  | .fresh d, _ => serveIfPresent repo d reference withBody fetch
  | .stale d, some _ =>
    call (.resolveTag repo reference)
    match up.resolveTag with
    | some d' =>
      if d' = d then
        touch repo reference
        serveIfPresent repo d reference withBody fetch
      else fetch
    | none => serveIfPresent repo d reference withBody fetch
  | .stale d, none => serveIfPresent repo d reference withBody fetch
  | .miss, _ => fetch

/-- `get_manifest`. -/
def getManifest (repo reference : Str) (withBody : Bool) (up : Replies) : Handler S := do
  match Digest.parse reference with
  | .ok d => getManifestByDigest repo reference d withBody up
  | .error _ =>
    match (← get).localTags.lookup (repo, reference) with
    | none => getManifestByTag repo reference withBody up
    | some tag =>
      match Digest.parse tag.digest with
      | .ok d => serveLocalManifest repo d reference withBody
      | .error _ => getManifestByTag repo reference withBody up

/-! ## Pushing and deleting manifests -/

/-- The loop of `check_manifest_blobs_present`: the first missing reference. -/
def firstMissing (repo : Str) : List Str → Prog (World S) Abort (Option Str)
  | [] => return none
  | text :: texts =>
    match Digest.parse text with
    | .error _ => return some text
    | .ok d => do
      match ← (blobMeta repo d).attempt with
      | .ok (some _) => firstMissing repo texts
      | _ => return some text

/-- `check_manifest_blobs_present`. -/
def checkManifestBlobsPresent (repo : Str) (bytes : Bytes) : Prog (World S) Abort (Option Str) :=
  match S.serde.fromSlice bytes with
  | none => return none
  | some v => firstMissing repo (Manifest.requiredBlobs v)

/-- The end of `put_manifest`: persist, record the tag, answer. -/
def storeManifest (repo reference : Str) (contentType : Option Str) (bytes : Bytes) :
    Handler S := do
  let d := S.digest bytes
  match ← (putBlobBuffered repo d bytes).attempt with
  | .error e => return internalErr (.storage e)
  | .ok _ =>
    let created : Handler S :=
      build .created ([(.location, "/v2/".toList ++ repo ++ "/manifests/".toList ++ d.toStr),
        (.dockerContentDigest, d.toStr)] ++ (contentType.map fun ct => (.contentType, ct)).toList) .empty
    match Digest.parse reference with
    | .ok _ => created
    | .error _ =>
      match ← (LocalTags.set repo reference d).attempt with
      | .error e => return internalErr (.localTags e)
      | .ok () => created

/-- `put_manifest`. -/
def putManifest (repo reference : Str) (contentType : Option Str) (body : Option Bytes) :
    Handler S := do
  match ← (ensureRepo repo).attempt with
  | .error e => return internalErr (.storage e)
  | .ok () =>
    match collectBody body 33554432 with
    | .error resp => return resp
    | .ok bytes =>
      let d := S.digest bytes
      let invalid := fun text => errorResponse .badRequest .manifestInvalid (.text text)
      match (Digest.parse reference).toOption.filter (· ≠ d) with
      | some other =>
        return invalid ("manifest body digest ".toList ++ d.toStr ++
          " does not match reference ".toList ++ other.toStr)
      | none =>
        match ← checkManifestBlobsPresent repo bytes with
        | some missing => return invalid ("manifest references missing blob: ".toList ++ missing)
        | none => storeManifest repo reference contentType bytes

/-- Remove the given tags; errors are ignored. -/
def removeTags (repo : Str) : List Str → Prog (World S) Abort Unit
  | [] => return ()
  | tag :: tags => do
    let _ ← (LocalTags.remove repo tag).attempt
    removeTags repo tags

/-- `delete_manifest`. -/
def deleteManifest (repo reference : Str) : Handler S := do
  match Digest.parse reference with
  | .error _ =>
    match ← (LocalTags.remove repo reference).attempt with
    | .ok true => return ⟨.accepted, [], .empty⟩
    | .ok false => return manifestUnknown reference
    | .error e => return internalErr (.localTags e)
  | .ok d =>
    let tags := (listForRepo (← get).localTags repo).filterMap fun e =>
      if e.2.digest = d.toStr then some e.1 else none
    removeTags repo tags
    match ← (deleteBlob repo d).attempt with
    | .ok () => return ⟨.accepted, [], .empty⟩
    | .error (.notFound _) => return manifestUnknown reference
    | .error e => return internalErr (.storage e)

/-! ## Listings -/

/-- A set of strings in ascending order. -/
def sorted (l : List Str) : List Str := l.dedup.mergeSort fun a b => a ≤ b

/-- A listing as JSON. -/
def listing (body : Body) : Response := ⟨.ok, [(.contentType, "application/json".toList)], body⟩

/-- `list_tags`. -/
def listTags (repo : Str) (up : Replies) : Handler S := do
  let w ← get
  let known := (LocalTags.listForRepo w.localTags repo).map Prod.fst ++ TagCache.listForRepo w repo
  if known.isEmpty then
    match S.route repo with
    | none => return listing (.tags repo [])
    | some _ =>
      call (.listTags repo)
      return listing (.tags repo (sorted (up.listTags.getD [])))
  else return listing (.tags repo (sorted known))

/-- The subdirectories that `walk_repos` enters. -/
def repoSubdirs (fs : Fs) (p : Path) : List Name :=
  (fs.readDir p).filter fun n =>
    n.val.head? ≠ some '.' ∧ n.val.head? ≠ some '_' ∧ fs.isDir (n :: p)

/-- `CasLayout::list_repos`. -/
def listRepos (root : Path) (fs : Fs) : Except IoKind (List Str) :=
  if fs.exists? root ∧ fs.isDir root = false then .error .other
  else .ok (((walk (repoSubdirs fs) (fs.nodes.keys.length + 1) [root]).filterMap fun dir =>
    if dir ≠ root ∧ fs.isDir (blobsName :: dir) then (stripPrefix root dir).map relative
    else none).mergeSort fun a b => a ≤ b)

/-- `catalog`. -/
def catalog : Handler S := do
  let w ← get
  match listRepos S.root w.fs with
  | .error e => return internalErr (.io e)
  | .ok repos =>
    let tagged := fun repo =>
      !(LocalTags.listForRepo w.localTags repo).isEmpty || !(TagCache.listForRepo w repo).isEmpty
    return listing (.repositories (repos.filter tagged))

/-! ## Uploads -/

/-- The greatest body of an upload, 5 GiB. -/
def maxUpload : Nat := 5368709120

/-- The `Location` of a session. -/
def uploadLocation (repo session : Str) : Str :=
  "/v2/".toList ++ repo ++ "/blobs/uploads/".toList ++ session

/-- `upload_init`. -/
def uploadInit (repo : Str) : Handler S := do
  match ← (ensureRepo repo).attempt with
  | .error e => return internalErr (.storage e)
  | .ok () =>
    match ← (createSession repo).attempt with
    | .error e => return internalErr (.upload e)
    | .ok session =>
      build .accepted [(.location, uploadLocation repo session), (.range, "0-0".toList),
        (.dockerUploadUuid, session)] .empty

/-- `upload_patch`. -/
def uploadPatch (repo session : Str) (body : Option Bytes) : Handler S :=
  match collectBody body maxUpload with
  | .error resp => return resp
  | .ok bytes => do
    match ← (append repo session bytes).attempt with
    | .error (.notFound _) => return sessionNotFound
    | .error e => return internalErr (.upload e)
    | .ok total =>
      let range := if total = 0 then "0-0".toList else "0-".toList ++ decimal (total - 1)
      build .accepted [(.location, uploadLocation repo session), (.range, range),
        (.dockerUploadUuid, session)] .empty

/-- `upload_put`. -/
def uploadPut (repo session : Str) (digestQuery : Option Str) (body : Option Bytes) : Handler S :=
  match digestQuery with
  | none =>
    return errorResponse .badRequest .digestInvalid (.text "missing ?digest= query parameter".toList)
  | some text =>
    match Digest.parse text with
    | .error _ => return digestInvalid text
    | .ok d =>
      match collectBody body maxUpload with
      | .error resp => return resp
      | .ok bytes => do
        match ← (finalize repo session (if bytes.isEmpty then none else some bytes) d).attempt with
        | .ok _ =>
          build .created [(.location, "/v2/".toList ++ repo ++ "/blobs/".toList ++ d.toStr),
            (.dockerContentDigest, d.toStr)] .empty
        | .error (.digestMismatch expected got) =>
          return errorResponse .badRequest .digestInvalid
            (.text ("digest mismatch: expected ".toList ++ expected ++ ", got ".toList ++ got))
        | .error (.notFound _) => return sessionNotFound
        | .error e => return internalErr (.upload e)

/-! ## Dispatch -/

/-- The handler of a method and an action on a repository. -/
def route (req : Request) (repo : Str) : Action → Handler S
  | .blob d =>
    match req.method with
    | .get => getBlob repo d true req.upstream
    | .head => getBlob repo d false req.upstream
    | .delete => deleteBlobRoute repo d
    | _ => unsupported
  | .manifest r =>
    match req.method with
    | .get => (applyIfNoneMatch req.ifNoneMatch ·) <$> getManifest repo r true req.upstream
    | .head => (applyIfNoneMatch req.ifNoneMatch ·) <$> getManifest repo r false req.upstream
    | .put => putManifest repo r req.contentType req.body
    | .delete => deleteManifest repo r
    | _ => unsupported
  | .tagsList => if req.method = .get then listTags repo req.upstream else unsupported
  | .uploadInit => if req.method = .post then uploadInit repo else unsupported
  | .uploadSession s =>
    match req.method with
    | .patch => uploadPatch repo s req.body
    | .put => uploadPut repo s req.digestQuery req.body
    | _ => unsupported
  | .unknown => unsupported
where
  unsupported : Handler S :=
    return errorResponse .methodNotAllowed .unsupported
      (.text "method or endpoint not implemented".toList)

/-- `dispatch`. -/
def dispatch (req : Request) : Handler S :=
  if req.rest = "_catalog".toList then catalog
  else if (split req.rest).1 = [] then return nameUnknown req.rest
  else route req (split req.rest).1 (split req.rest).2

end Quill.Registry
