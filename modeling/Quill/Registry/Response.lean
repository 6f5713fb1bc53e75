import Quill.Storage.LocalTags
import Quill.Storage.Uploads

/-!
# Requests and responses

The part of an HTTP exchange that the handlers of `quill-registry` look at. A request
carries its own clockless environment as well: the replies the upstream would give to
the calls made while it is handled.

Building a response checks its header values, and a value that is not legal makes the
handler panic, which ends the process. So a handler is a program with the error `Abort`.
-/

namespace Quill.Registry

open Text Files Cas LocalStorage Uploads LocalTags

/-! ## Requests -/

/-- The methods that the router distinguishes. -/
inductive Method where
  | get
  | head
  | put
  | patch
  | post
  | delete
  | other
  deriving DecidableEq

/-- What `UpstreamClient::get_manifest` returns. -/
structure ManifestResponse where
  bytes : Bytes
  contentType : Str
  digest : Digest

/-- The replies of the upstream; `none` is an error. The items of `streamBlob` are the
chunks of the stream, `none` being an error in the middle of it. -/
structure Replies where
  resolveTag : Option Digest
  getManifest : Option ManifestResponse
  streamBlob : Option (List (Option Bytes))
  listTags : Option (List Str)

/-- A request below `/v2/`. Headers and the query parameter are what the accessors of the
handlers give; `body` is `none` when reading it fails. -/
structure Request where
  method : Method
  rest : Str
  digestQuery : Option Str
  ifNoneMatch : Option Str
  contentType : Option Str
  body : Option Bytes
  upstream : Replies

/-! ## Responses -/

/-- The status codes that the handlers answer. -/
inductive Status where
  | ok
  | created
  | accepted
  | notModified
  | badRequest
  | notFound
  | methodNotAllowed
  | payloadTooLarge
  | internalServerError
  deriving DecidableEq

/-- The headers that the handlers set. -/
inductive HeaderName where
  | contentLength
  | contentType
  | dockerContentDigest
  | location
  | range
  | dockerUploadUuid
  | transferEncoding
  | etag
  deriving DecidableEq

/-- The error codes of the distribution specification that the handlers use. -/
inductive RegistryErrorCode where
  | unknown
  | unsupported
  | nameUnknown
  | blobUnknown
  | blobUploadUnknown
  | digestInvalid
  | manifestUnknown
  | manifestInvalid
  | sizeInvalid
  deriving DecidableEq

/-- The errors that `internal_err` renders. -/
inductive InternalError where
  | storage (e : StorageError)
  | upload (e : UploadError)
  | localTags (e : LocalTagsError)
  | io (e : IoKind)
  deriving DecidableEq

/-- The message of an error. -/
inductive Message where
  | text (s : Str)
  | bodyReadFailed
  | internal (e : InternalError)
  deriving DecidableEq

/-- The body of an answer. -/
inductive Body where
  | empty
  | bytes (b : Bytes)
  | error (code : RegistryErrorCode) (message : Message)
  | tags (name : Str) (tags : List Str)
  | repositories (repos : List Str)
  /-- The file that is streamed to the client. -/
  | file (b : Bytes)
  /-- A body that tails the fetch of a digest. -/
  | pullThrough (d : Digest)
  deriving DecidableEq

/-- The answer of a handler. -/
structure Response where
  status : Status
  headers : List (HeaderName × Str)
  body : Body
  deriving DecidableEq

/-- The first value of a header. -/
def Response.header (r : Response) (name : HeaderName) : Option Str :=
  (r.headers.find? fun h => h.1 = name).map Prod.snd

/-- A panic; the release build aborts. -/
inductive Abort where
  | panic
  deriving DecidableEq

/-- A handler may panic, which ends the process. -/
abbrev Handler (S : Setup) := Prog (World S) Abort Response

/-- `HeaderValue` accepts tabs and everything but control characters. -/
def legalHeaderValue (s : Str) : Bool :=
  s.all fun c => c = '\t' || (32 ≤ c.toNat && c.toNat ≠ 127)

section Build

variable {S : Setup}

/-- A response builder followed by `expect`. -/
def build (status : Status) (headers : List (HeaderName × Str)) (body : Body) : Handler S :=
  if headers.all fun h => legalHeaderValue h.2 then pure ⟨status, headers, body⟩
  else throw .panic

/-- The response of a `RegistryError`. -/
def errorResponse (status : Status) (code : RegistryErrorCode) (message : Message) : Response :=
  ⟨status, [(.contentType, "application/json".toList)], .error code message⟩

def nameUnknown (name : Str) : Response :=
  errorResponse .notFound .nameUnknown (.text ("repository name not known: ".toList ++ name))

def blobUnknown (digest : Str) : Response :=
  errorResponse .notFound .blobUnknown (.text ("blob unknown: ".toList ++ digest))

def manifestUnknown (reference : Str) : Response :=
  errorResponse .notFound .manifestUnknown (.text ("manifest unknown: ".toList ++ reference))

def digestInvalid (digest : Str) : Response :=
  errorResponse .badRequest .digestInvalid (.text ("invalid digest: ".toList ++ digest))

def sessionNotFound : Response :=
  errorResponse .notFound .blobUploadUnknown (.text "upload session not found".toList)

def internalErr (e : InternalError) : Response :=
  errorResponse .internalServerError .unknown (.internal e)

/-- A blob that is being fetched. -/
def streamAnswer (d : Digest) : Response :=
  ⟨.ok, [(.dockerContentDigest, d.toStr), (.contentType, "application/octet-stream".toList),
    (.transferEncoding, "chunked".toList)], .pullThrough d⟩

/-- `collect_body`. -/
def collectBody (body : Option Bytes) (maxBytes : Nat) : Except Response Bytes :=
  match body with
  | none => .error (errorResponse .badRequest .unknown .bodyReadFailed)
  | some bytes =>
    if bytes.length > maxBytes then
      .error (errorResponse .payloadTooLarge .sizeInvalid (.text "request body too large".toList))
    else .ok bytes

end Build

/-! ## Conditional requests -/

/-- `trim` on a visible header value. -/
def trimBlank (s : Str) : Str :=
  let blank := fun c : Char => c = ' ' || c = '\t'
  ((s.dropWhile blank).reverse.dropWhile blank).reverse

/-- `apply_if_none_match`. -/
def applyIfNoneMatch (ifNoneMatch : Option Str) (resp : Response) : Response :=
  match ifNoneMatch, resp.header .dockerContentDigest with
  | some value, some digest =>
    if trimQuotes (trimBlank value) = digest then
      ⟨.notModified, [(.dockerContentDigest, digest), (.etag, digest)], .empty⟩
    else resp
  | _, _ => resp

end Quill.Registry
