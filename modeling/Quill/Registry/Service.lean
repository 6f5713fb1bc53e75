import Quill.Base.Holdings
import Quill.Registry.ManifestPuts
import Quill.Registry.TagResolution

/-!
# What the registry is for

The service of the registry, stated without files, caches and clocks. A repository is its blobs,
its pushed tags, the tags it remembers of its upstream and its open uploads (`Repo`). `Serves` lists
for each request what may be answered and what the repository holds then; `Shelf.Step` is a
request to the repositories together, of which it changes one at most.

Where the code decides by the age of an entry, the service leaves the choice open: a remembered tag
may be served from the store or be asked for again (`Wanting`). The length that is announced for a blob
comes from a cache; it is the length of contents with the digest.
-/

namespace Quill.Registry

open Text Files Cas World LocalStorage Uploads LocalTags TagResolution ManifestPuts

/-- What a repository holds. -/
abbrev Repo := Holdings Digest Str Str Bytes

/-! ## Requests and answers -/

/-- The methods that an action has. -/
def Supported (method : Method) : Action → Prop
  | .blob _ => method = .get ∨ method = .head ∨ method = .delete
  | .manifest _ => method = .get ∨ method = .head ∨ method = .put ∨ method = .delete
  | .tagsList => method = .get
  | .uploadInit => method = .post
  | .uploadSession _ => method = .patch ∨ method = .put
  | .unknown => False

/-- The answer to a method that the route does not have. -/
def unsupportedAnswer : Response :=
  errorResponse .methodNotAllowed .unsupported (.text "method or endpoint not implemented".toList)

/-- A blob of the store with the length that is announced. -/
def blobAnswer (d : Digest) (length : Nat) (b : Bytes) : (withBody : Bool) → Response
  | true => ⟨.ok, [(.contentLength, decimal length), (.dockerContentDigest, d.toStr),
      (.contentType, "application/octet-stream".toList)], .file b⟩
  | false => ⟨.ok, [(.contentLength, decimal length), (.dockerContentDigest, d.toStr)], .empty⟩

/-- The answer of a session that goes on. -/
def sessionAnswer (repo session range : Str) : Response :=
  ⟨.accepted, [(.location, uploadLocation repo session), (.range, range),
    (.dockerUploadUuid, session)], .empty⟩

/-- The range that was received so far. -/
def rangeOf (b : Bytes) : Str :=
  if tally b = 0 then "0-0".toList else "0-".toList ++ decimal (tally b - 1)

/-- The answer to a manifest that is refused. -/
def invalidAnswer (text : Str) : Response := errorResponse .badRequest .manifestInvalid (.text text)

/-- The answer to a deletion. -/
def acceptedAnswer : Response := ⟨.accepted, [], .empty⟩

/-- The answer to a commit whose digest is not that of the bytes. -/
def mismatchAnswer (expected : Digest) (got : Hex64) : Response :=
  errorResponse .badRequest .digestInvalid
    (.text ("digest mismatch: expected ".toList ++ expected.toStr ++ ", got ".toList ++
      ("sha256:".toList ++ got.val)))

/-- The answer to a commit. -/
def uploadedAnswer (repo : Str) (d : Digest) : Response :=
  ⟨.created, [(.location, "/v2/".toList ++ repo ++ "/blobs/".toList ++ d.toStr),
    (.dockerContentDigest, d.toStr)], .empty⟩

/-- The answer to a manifest that was stored. -/
def pushedAnswer (repo : Str) (d : Digest) (contentType : Option Str) : Response :=
  ⟨.created, [(.location, "/v2/".toList ++ repo ++ "/manifests/".toList ++ d.toStr),
    (.dockerContentDigest, d.toStr)] ++ (contentType.map fun ct => (.contentType, ct)).toList, .empty⟩

/-! ## A repository -/

section Repo

variable (S : Setup) (a : Repo)

/-- The digests that a reference can stand for: itself, or the digest of the pushed tag, or the
remembered digest of a tag that was not pushed. -/
inductive Refers (reference : Str) : Digest → Prop
  | digest {d : Digest} (h : Digest.parse reference = .ok d) : Refers reference d
  | tag {d : Digest} (htag : IsTag reference) (h : a.tags reference = some d) : Refers reference d
  | cached {d : Digest} (htag : IsTag reference) (hno : a.tags reference = none)
      (h : a.cached reference = some d) : Refers reference d

/-- The upstream says that a remembered tag has moved. -/
def Moved (reference : Str) (head : Option Digest) : Prop :=
  IsTag reference ∧ a.tags reference = none ∧
    ∃ d d', a.cached reference = some d ∧ head = some d' ∧ d' ≠ d

/-- The repository has nothing for the reference, or nothing current. -/
def Wanting (reference : Str) (head : Option Digest) : Prop :=
  (∀ d, Refers a reference d → a.blobs d = none) ∨ Moved a reference head

/-- A tag was pushed with this name. -/
def PushedTag (reference : Str) : Prop := IsTag reference ∧ a.tags reference ≠ none

/-- The manifest of an upstream is put where its digest is, if it has that digest, and its tag is
remembered. -/
def fetched (reference : Str) (m : ManifestResponse) : Repo :=
  let kept := if S.hash.hex m.bytes = m.digest.hex then a.put m.digest m.bytes else a
  if IsTag reference then kept.remember reference m.digest else kept

/-- The manifest is put under its digest and, for a tag, the tag points to it. -/
def pushedManifest (reference : Str) (b : Bytes) : Repo :=
  if IsTag reference then (a.put (S.digest b) b).tag reference (S.digest b) else a.put (S.digest b) b

/-- The text is the digest of a blob that is there. -/
def Holds (text : Str) : Prop := ∃ d, Digest.parse text = .ok d ∧ a.blobs d ≠ none

/-- A tag that is listed. -/
def Listed (t : Str) : Prop := a.tags t ≠ none ∨ a.cached t ≠ none

end Repo

/-- The request `req` to the repository named `repo`, which holds `a`, with its action, the answer
and what the repository holds then. -/
inductive Serves (S : Setup) (repo : Str) (req : Request) (a : Repo) : Action → Response → Repo → Prop
  | unsupported {action : Action} (h : ¬ Supported req.method action) :
      Serves S repo req a action unsupportedAnswer a
  | badDigest {text : Str} {e : DigestError} (hm : Supported req.method (.blob text))
      (hd : Digest.parse text = .error e) : Serves S repo req a (.blob text) (digestInvalid text) a
  | blob {text : Str} {d : Digest} {b c : Bytes} {length : Nat}
      (hm : req.method = .get ∨ req.method = .head) (hd : Digest.parse text = .ok d)
      (hb : a.blobs d = some b) (hhash : S.hash.hex c = d.hex)
      (hlength : c.length < u64 → length = c.length) :
      Serves S repo req a (.blob text) (blobAnswer d length b (req.method = .get)) a
  | noBlob {text : Str} {d : Digest} (hm : req.method = .get ∨ req.method = .head)
      (hd : Digest.parse text = .ok d) (hb : a.blobs d = none) (hroute : S.route repo = none) :
      Serves S repo req a (.blob text) (blobUnknown text) a
  | streamed {text : Str} {d : Digest} {a' : Repo} (hm : req.method = .get)
      (hd : Digest.parse text = .ok d) (hb : a.blobs d = none) (hroute : S.route repo ≠ none)
      (hthen : a' = a ∨ ∃ chunks : List Bytes, req.upstream.streamBlob = some (chunks.map some) ∧
        S.hash.hex chunks.flatten = d.hex ∧ a' = a.put d chunks.flatten) :
      Serves S repo req a (.blob text) (streamAnswer d) a'
  | awaited {text : Str} {d : Digest} {chunks : List Bytes} (hm : req.method = .head)
      (hd : Digest.parse text = .ok d) (hb : a.blobs d = none) (hroute : S.route repo ≠ none)
      (hreply : req.upstream.streamBlob = some (chunks.map some))
      (hhash : S.hash.hex chunks.flatten = d.hex) :
      Serves S repo req a (.blob text) (blobAnswer d (tally chunks.flatten) chunks.flatten false)
        (a.put d chunks.flatten)
  | missed {text : Str} {d : Digest} (hm : req.method = .head) (hd : Digest.parse text = .ok d)
      (hb : a.blobs d = none) (hroute : S.route repo ≠ none) :
      Serves S repo req a (.blob text) (blobUnknown d.toStr) a
  | deletedBlob {text : Str} {d : Digest} {b : Bytes} (hm : req.method = .delete)
      (hd : Digest.parse text = .ok d) (hb : a.blobs d = some b) :
      Serves S repo req a (.blob text) acceptedAnswer (a.drop d)
  | noBlobToDelete {text : Str} {d : Digest} (hm : req.method = .delete)
      (hd : Digest.parse text = .ok d) (hb : a.blobs d = none) :
      Serves S repo req a (.blob text) (blobUnknown text) a
  | manifest {reference : Str} {d : Digest} {b : Bytes} (hm : req.method = .get ∨ req.method = .head)
      (href : Refers a reference d) (hb : a.blobs d = some b) :
      Serves S repo req a (.manifest reference)
        (applyIfNoneMatch req.ifNoneMatch (storedAnswer S d b (req.method = .get))) a
  | noManifest {reference : Str} (hm : req.method = .get ∨ req.method = .head)
      (hwant : Wanting a reference req.upstream.resolveTag)
      (hup : PushedTag a reference ∨ S.route repo = none ∨ req.upstream.getManifest = none) :
      Serves S repo req a (.manifest reference)
        (applyIfNoneMatch req.ifNoneMatch (manifestUnknown reference)) a
  | fetchedManifest {reference : Str} {m : ManifestResponse}
      (hm : req.method = .get ∨ req.method = .head) (hwant : Wanting a reference req.upstream.resolveTag)
      (hpushed : ¬ PushedTag a reference) (hroute : S.route repo ≠ none)
      (hreply : req.upstream.getManifest = some m) :
      Serves S repo req a (.manifest reference) (applyIfNoneMatch req.ifNoneMatch
        (fetchedAnswer reference (req.method = .get) (some m))) (fetched S a reference m)
  | unreadManifest {reference : Str} {resp : Response} (hm : req.method = .put)
      (hbody : collectBody req.body 33554432 = .error resp) :
      Serves S repo req a (.manifest reference) resp a
  | otherDigest {reference : Str} {b : Bytes} {d : Digest} (hm : req.method = .put)
      (hbody : collectBody req.body 33554432 = .ok b) (hd : Digest.parse reference = .ok d)
      (hne : d ≠ S.digest b) :
      Serves S repo req a (.manifest reference) (invalidAnswer ("manifest body digest ".toList ++
        (S.digest b).toStr ++ " does not match reference ".toList ++ d.toStr)) a
  | missingBlob {reference text : Str} {b : Bytes} (hm : req.method = .put)
      (hbody : collectBody req.body 33554432 = .ok b)
      (hd : ∀ d, Digest.parse reference = .ok d → d = S.digest b) (htext : Requires S b text)
      (hmissing : ¬ Holds a text) :
      Serves S repo req a (.manifest reference)
        (invalidAnswer ("manifest references missing blob: ".toList ++ text)) a
  | pushed {reference : Str} {b : Bytes} (hm : req.method = .put)
      (hbody : collectBody req.body 33554432 = .ok b)
      (hd : ∀ d, Digest.parse reference = .ok d → d = S.digest b)
      (hblobs : ∀ text, Requires S b text → Holds a text) :
      Serves S repo req a (.manifest reference) (pushedAnswer repo (S.digest b) req.contentType)
        (pushedManifest S a reference b)
  | untagged {tag : Str} {d : Digest} (hm : req.method = .delete) (htag : IsTag tag)
      (hd : a.tags tag = some d) : Serves S repo req a (.manifest tag) acceptedAnswer (a.untag tag)
  | noTag {tag : Str} (hm : req.method = .delete) (htag : IsTag tag) (hd : a.tags tag = none) :
      Serves S repo req a (.manifest tag) (manifestUnknown tag) a
  | deletedManifest {reference : Str} {d : Digest} (hm : req.method = .delete)
      (hd : Digest.parse reference = .ok d) :
      Serves S repo req a (.manifest reference)
        (if (a.blobs d).isSome then acceptedAnswer else manifestUnknown reference)
        ((a.untagAll d).drop d)
  | listed {tags : List Str} (hm : req.method = .get) (hsome : ∃ t, Listed a t)
      (hsorted : tags.Pairwise (· < ·)) (htags : ∀ t, t ∈ tags ↔ Listed a t) :
      Serves S repo req a .tagsList (listing (.tags repo tags)) a
  | asked (hm : req.method = .get) (hnone : ∀ t, ¬ Listed a t) :
      Serves S repo req a .tagsList (listing (.tags repo
        (if S.route repo = none then [] else sorted (req.upstream.listTags.getD [])))) a
  | begun {session : Str} (hm : req.method = .post) (hsession : '/' ∉ session) :
      Serves S repo req a .uploadInit (sessionAnswer repo session "0-0".toList) (a.draft session [])
  | unreadChunk {session : Str} {resp : Response} (hm : req.method = .patch)
      (hbody : collectBody req.body maxUpload = .error resp) :
      Serves S repo req a (.uploadSession session) resp a
  | noSession {session : Str} {chunk : Bytes} (hm : req.method = .patch)
      (hbody : collectBody req.body maxUpload = .ok chunk) (hno : a.uploads session = none) :
      Serves S repo req a (.uploadSession session) sessionNotFound a
  | appended {session : Str} {chunk b : Bytes} (hm : req.method = .patch)
      (hbody : collectBody req.body maxUpload = .ok chunk) (hb : a.uploads session = some b) :
      Serves S repo req a (.uploadSession session)
        (sessionAnswer repo session (rangeOf (b ++ chunk))) (a.draft session (b ++ chunk))
  | noQuery {session : Str} (hm : req.method = .put) (hquery : req.digestQuery = none) :
      Serves S repo req a (.uploadSession session)
        (errorResponse .badRequest .digestInvalid (.text "missing ?digest= query parameter".toList)) a
  | badQuery {session text : Str} {e : DigestError} (hm : req.method = .put)
      (hquery : req.digestQuery = some text) (hd : Digest.parse text = .error e) :
      Serves S repo req a (.uploadSession session) (digestInvalid text) a
  | unreadUpload {session text : Str} {d : Digest} {resp : Response} (hm : req.method = .put)
      (hquery : req.digestQuery = some text) (hd : Digest.parse text = .ok d)
      (hbody : collectBody req.body maxUpload = .error resp) :
      Serves S repo req a (.uploadSession session) resp a
  | noUpload {session text : Str} {d : Digest} {chunk : Bytes} (hm : req.method = .put)
      (hquery : req.digestQuery = some text) (hd : Digest.parse text = .ok d)
      (hbody : collectBody req.body maxUpload = .ok chunk) (hno : a.uploads session = none) :
      Serves S repo req a (.uploadSession session) sessionNotFound a
  | mismatch {session text : Str} {d : Digest} {chunk b : Bytes} (hm : req.method = .put)
      (hquery : req.digestQuery = some text) (hd : Digest.parse text = .ok d)
      (hbody : collectBody req.body maxUpload = .ok chunk) (hb : a.uploads session = some b)
      (hhash : S.hash.hex (b ++ chunk) ≠ d.hex) :
      Serves S repo req a (.uploadSession session) (mismatchAnswer d (S.hash.hex (b ++ chunk)))
        (a.draft session (b ++ chunk))
  | uploaded {session text : Str} {d : Digest} {chunk b : Bytes} (hm : req.method = .put)
      (hquery : req.digestQuery = some text) (hd : Digest.parse text = .ok d)
      (hbody : collectBody req.body maxUpload = .ok chunk) (hb : a.uploads session = some b)
      (hhash : S.hash.hex (b ++ chunk) = d.hex) :
      Serves S repo req a (.uploadSession session) (uploadedAnswer repo d)
        ((a.endDraft session).put d (b ++ chunk))

/-! ## All repositories -/

/-- A repository name without empty components, `.` and `..`. -/
abbrev PlainName := { r : Str // Plain r }

/-- The repositories of a registry. -/
abbrev Shelf := PlainName → Repo

/-- A registry that holds nothing. -/
def Shelf.empty : Shelf := fun _ => Holdings.empty

/-- One exchange. A request to a repository may change that one, a listing of the repositories or a
request without a repository changes none. -/
inductive Shelf.Step (S : Setup) (s : Shelf) (e : Exchange) : Shelf → Prop
  | unknown (h : (split e.1.rest).1 = []) (hrest : e.1.rest ≠ "_catalog".toList)
      (hresp : e.2 = nameUnknown e.1.rest) : Shelf.Step S s e s
  | catalog {names : List Str} (hrest : e.1.rest = "_catalog".toList)
      (hresp : e.2 = listing (.repositories names)) (hsorted : names.Pairwise (· ≤ ·))
      (hnames : ∀ r : PlainName, r.val ∈ names → ∃ t, Listed (s r) t) : Shelf.Step S s e s
  | named {a' : Repo} (r : PlainName) (h : (split e.1.rest).1 = r.val)
      (hserves : Serves S r.val e.1 (s r) (split e.1.rest).2 e.2 a') :
      Shelf.Step S s e (Function.update s r a')

end Quill.Registry
