import Quill.Storage.Codec
import Quill.Upstream.BearerCache

/-!
# Requests to an upstream

`HttpUpstream` of `quill-upstream`: the methods of `UpstreamClient` and the exchange that they
share, `send_with_auth`. The first request carries the configured credentials. When it is
answered with 401 and a bearer challenge, the call fetches a token for the challenge and sends
the request once more with the token in place of the credentials.

Any number of calls on one client run at the same time on one cache of tokens. In every run, a
call sends at most two requests and at most one token query; its query asks what the challenge
names, and a token that it sends has come from the token endpoint for the realm and the scope
of the challenge, to this call or to another (`calls_follow_the_challenge`). The cache does
not know the `service` of a challenge, so it need not be that of the call which fetched the
token. A call takes at most five turns, and one that has not returned waits for one kind of input,
whatever its value (`calls_end`).
-/

namespace Quill.Upstream.Requests

open Text Registry Bearer

/-- The methods that the client uses. -/
inductive Verb where
  | get
  | head
  deriving DecidableEq

/-- The credentials of a request. -/
inductive Authorization where
  | basic (username password : Str)
  | bearer (token : Str)
  deriving DecidableEq

/-- A request of the client. -/
structure Request (Url : Type) where
  verb : Verb
  url : Url
  accept : Option Str
  authorization : Option Authorization
  deriving DecidableEq

/-- A reply of the registry; a chunk that is `none` is an error in the middle of the body. -/
structure Reply where
  status : Nat
  wwwAuthenticate : Option Bytes
  contentType : Option Bytes
  dockerContentDigest : Option Bytes
  chunks : List (Option Bytes)
  deriving DecidableEq

/-- The challenge of a reply. -/
def Reply.challenge (r : Reply) : Option TokenRequest :=
  (r.wwwAuthenticate.bind toStr).bind TokenRequest.parse

/-- The reply with its body read to the end. -/
def Reply.http (r : Reply) : HttpReply where
  status := r.status
  contentType := r.contentType
  dockerContentDigest := r.dockerContentDigest
  body := (r.chunks.mapM id).map List.flatten

/-- The errors of `send_with_auth`. -/
inductive SendError where
  | upstream (e : UpstreamError)
  | auth (e : AuthError)
  deriving DecidableEq

/-! ## The methods of the client -/

/-- The methods of the client. -/
inductive Operation where
  | resolveTag (repo reference : Str)
  | getManifest (repo reference : Str)
  | streamBlob (repo : Str) (digest : Digest)
  | listTags (repo : Str)
  deriving DecidableEq

/-- `MANIFEST_ACCEPT`. -/
def manifestAccept : Str :=
  ("application/vnd.oci.image.manifest.v1+json," ++
    "application/vnd.oci.image.index.v1+json," ++
    "application/vnd.docker.distribution.manifest.v2+json," ++
    "application/vnd.docker.distribution.manifest.list.v2+json," ++
    "application/vnd.docker.distribution.manifest.v1+json").toList

namespace Operation

/-- The method of the HTTP request. -/
def verb : Operation → Verb
  | resolveTag _ _ => .head
  | _ => .get

/-- The path of the HTTP request. -/
def path : Operation → Str
  | resolveTag repo reference => "/v2/".toList ++ repo ++ "/manifests/".toList ++ reference
  | getManifest repo reference => "/v2/".toList ++ repo ++ "/manifests/".toList ++ reference
  | streamBlob repo digest => "/v2/".toList ++ repo ++ "/blobs/".toList ++ digest.toStr
  | listTags repo => "/v2/".toList ++ repo ++ "/tags/list".toList

/-- The media types that are accepted. -/
def accept : Operation → Option Str
  | resolveTag _ _ => some manifestAccept
  | getManifest _ _ => some manifestAccept
  | streamBlob _ _ => none
  | listTags _ => none

end Operation

/-- What a method returns. -/
inductive Answer where
  | digest (d : Digest)
  | manifest (m : ManifestResponse)
  | stream (chunks : List (Option Bytes))
  | tags (tags : List Str)

/-- The tags of the body of `list_tags`. -/
def tagsOf (body : Json) : List Str :=
  match (body.get "tags".toList).bind Json.asArray with
  | some items => items.filterMap Json.asStr
  | none => []

/-- `HttpUpstream::stream_blob`, from the final reply on. -/
def streamBlob (r : Reply) : Except UpstreamError (List (Option Bytes)) :=
  if r.http.isSuccess then .ok r.chunks else .error (.status r.status)

/-- `HttpUpstream::list_tags`, from the final reply on. -/
def listTags (S : Setup) (r : Reply) : Except UpstreamError (List Str) :=
  if r.http.isSuccess then
    match r.http.body.bind S.serde.fromSlice with
    | none => .error .transport
    | some body => .ok (tagsOf body)
  else .error (.status r.status)

/-- What a method does with the final reply. -/
def Operation.conclude (S : Setup) (r : Reply) : Operation → Except UpstreamError Answer
  | resolveTag _ _ => (Upstream.resolveTag (some r.http)).map .digest
  | getManifest _ _ => (Upstream.getManifest S (some r.http)).map .manifest
  | streamBlob _ _ => (Requests.streamBlob r).map .stream
  | listTags _ => (Requests.listTags S r).map .tags

/-! ## The exchange -/

/-- What comes from outside: `Url::set_path`, the texts that `Url::parse` accepts and the largest
instant of the clock. -/
structure Net (Url : Type) where
  setPath : Url → Str → Url
  urlParses : Str → Bool
  limit : Nat

variable {Url : Type} (N : Net Url) (U : HttpUpstream Url)

/-- `url_for`. -/
def urlFor (path : Str) : Url :=
  N.setPath U.baseUrl (if "/".toList.isPrefixOf path then path.drop 1 else path)

/-- `make` of `send_with_auth`. -/
def make (op : Operation) (bearer : Option Str) : Request Url where
  verb := op.verb
  url := urlFor N U op.path
  accept := op.accept
  authorization :=
    match bearer with
    | some t => some (.bearer t)
    | none =>
      match U.authMode with
      | .anonymous => none
      | .basic username password => some (.basic username password)

/-- What a call has sent and received; `none` is a reply that never came. -/
inductive Message (Url : Type) where
  | request (r : Request Url)
  | reply (r : Option Reply)
  | query (q : TokenQuery)
  | grant (g : Option TokenReply)
  deriving DecidableEq

/-- Where a call is: before the first request, waiting for its reply, in `BearerCache::fetch`,
waiting for the reply to the second request, or returned. -/
inductive Phase where
  | start
  | first
  | fetch (f : Fetch)
  | second
  | finished (result : Except SendError Reply)

/-- A call, with the messages it has exchanged. -/
structure Call (Url : Type) where
  op : Operation
  said : List (Message Url)
  phase : Phase

namespace Call

/-- The call exchanges messages and goes on. -/
def say (c : Call Url) (messages : List (Message Url)) (phase : Phase) : Call Url :=
  ⟨c.op, c.said ++ messages, phase⟩

/-- The last request, which is not sent when the token is no text of a header. -/
def retry (c : Call Url) (bearer : Str) : Call Url :=
  if legalHeaderValue ("Bearer ".toList ++ bearer) then
    c.say [.request (make N U c.op (some bearer))] .second
  else c.say [] (.finished (.error (.upstream .transport)))

/-- After the first reply. -/
def replied (c : Call Url) (reply : Option Reply) : Call Url :=
  c.say [.reply reply] <|
    match reply with
    | none => .finished (.error (.upstream .transport))
    | some r =>
      if r.status ≠ 401 then .finished (.ok r)
      else
        match r.challenge with
        | none => .finished (.error (.upstream (.status 401)))
        | some challenge => .fetch (.lookup challenge U.authMode)

/-- After a step of `fetch`. -/
def fetched (c : Call Url) : Fetch → Call Url
  | .lookup req mode => c.say [] (.fetch (.lookup req mode))
  | .waiting req query => c.say [] (.fetch (.waiting req query))
  | .cached _ bearer _ => c.retry N U bearer
  | .minted bearer => c.retry N U bearer
  | .failed e => c.say [] (.finished (.error (.auth e)))

/-- After the second reply. -/
def retried (c : Call Url) (reply : Option Reply) : Call Url :=
  c.say [.reply reply] <|
    match reply with
    | none => .finished (.error (.upstream .transport))
    | some r => .finished (.ok r)

/-- What the method returns. -/
def outcome (S : Setup) (c : Call Url) : Option (Except SendError Answer) :=
  match c.phase with
  | .finished (.ok final) => some ((c.op.conclude S final).mapError .upstream)
  | .finished (.error e) => some (.error e)
  | _ => none

end Call

/-- The request of a call of `fetch` that has begun to wait. -/
def asked : Fetch → List (Message Url)
  | .waiting _ query => [.query query]
  | _ => []

/-- What moves a call on. -/
inductive Input where
  | send
  | reply (r : Option Reply)
  | look
  | grant (g : Option TokenReply) (issued : Nat)

/-- One step of `send_with_auth`. -/
def advance (input : Input) (m : Client) (c : Call Url) : Option (Client × Call Url) :=
  match c.phase, input with
  | .start, .send => some (m, c.say [.request (make N U c.op none)] .first)
  | .first, .reply r => some (m, c.replied U r)
  | .fetch f, .look =>
    (Bearer.ask N.urlParses m f).map fun r => (r.1, (c.say (asked r.2) c.phase).fetched N U r.2)
  | .fetch f, .grant g issued =>
    (Bearer.answer N.limit g issued m f).map fun r =>
      (r.1, if r.1.aborted then c else (c.say [.grant g] c.phase).fetched N U r.2)
  | .second, .reply r => some (m, c.retried r)
  | _, _ => none

/-- Time passes, or a call comes or takes its next step. -/
inductive Act where
  | advance (dt : Nat)
  | call (op : Operation)
  | turn (i : Nat) (input : Input)

/-- A token is issued before its reply comes. -/
def Input.Timely (now : Nat) : Input → Prop
  | .grant _ issued => issued ≤ now
  | _ => True

instance (now : Nat) : DecidablePred (Input.Timely now) := fun input =>
  match input with
  | .send => .isTrue trivial
  | .reply _ => .isTrue trivial
  | .look => .isTrue trivial
  | .grant _ issued => inferInstanceAs (Decidable (issued ≤ now))

/-- One step, while the process lives. -/
def step (s : Pool Client (Call Url)) (act : Act) : Option (Pool Client (Call Url)) :=
  if s.memory.aborted then none
  else
    match act with
    | .advance dt => some { s with memory := { s.memory with now := s.memory.now + dt } }
    | .call op => some (s.spawn ⟨op, [], .start⟩)
    | .turn i input => if input.Timely s.memory.now then s.turn (advance N U input) i else none

/-- A client without calls. -/
def start (now : Nat) : Pool Client (Call Url) := ⟨⟨∅, now, [], false⟩, []⟩

/-! ## Conversations -/

/-- The first request and the reply to it. -/
def opening (op : Operation) (reply : Option Reply) : List (Message Url) :=
  [.request (make N U op none), .reply reply]

/-- The reply asks for a token. -/
def Reply.Challenges (r : Reply) (challenge : TokenRequest) : Prop :=
  r.status = 401 ∧ r.challenge = some challenge

/-- What a call with a challenge has said when `fetch` returns a token: it was in the cache, or
the endpoint has just given it. -/
inductive Granted (Known : Key → Str → Prop) (op : Operation) (r : Reply) (challenge : TokenRequest)
    (bearer : Str) : List (Message Url) → Prop where
  | cached (known : Known challenge.cacheKey bearer) :
    Granted Known op r challenge bearer (opening N U op (some r))
  | minted (g : Option TokenReply) (expiresIn : Option UInt64)
    (token : tokenOf g = .ok (bearer, expiresIn)) :
    Granted Known op r challenge bearer
      (opening N U op (some r) ++ [.query (tokenQuery challenge U.authMode), .grant g])

/-- The conversations of a call up to each phase, where `Known` are the tokens in the cache. -/
inductive Dialogue (Known : Key → Str → Prop) (op : Operation) :
    List (Message Url) → Phase → Prop where
  | start : Dialogue Known op [] .start
  | first : Dialogue Known op [.request (make N U op none)] .first
  | lost : Dialogue Known op (opening N U op none) (.finished (.error (.upstream .transport)))
  | settled (r : Reply) (status : r.status ≠ 401) :
    Dialogue Known op (opening N U op (some r)) (.finished (.ok r))
  | unchallenged (r : Reply) (status : r.status = 401) (challenge : r.challenge = none) :
    Dialogue Known op (opening N U op (some r)) (.finished (.error (.upstream (.status 401))))
  | challenged (r : Reply) (challenge : TokenRequest) (challenges : r.Challenges challenge) :
    Dialogue Known op (opening N U op (some r)) (.fetch (.lookup challenge U.authMode))
  | unparsed (r : Reply) (challenge : TokenRequest) (challenges : r.Challenges challenge) :
    Dialogue Known op (opening N U op (some r)) (.finished (.error (.auth .malformedChallenge)))
  | queried (r : Reply) (challenge : TokenRequest) (challenges : r.Challenges challenge) :
    Dialogue Known op
      (opening N U op (some r) ++ [.query (tokenQuery challenge U.authMode)])
      (.fetch (.waiting challenge (tokenQuery challenge U.authMode)))
  | refused (r : Reply) (challenge : TokenRequest) (g : Option TokenReply) (e : AuthError)
    (challenges : r.Challenges challenge) (token : tokenOf g = .error e) :
    Dialogue Known op
      (opening N U op (some r) ++ [.query (tokenQuery challenge U.authMode), .grant g])
      (.finished (.error (.auth e)))
  | unsent (r : Reply) (challenge : TokenRequest) (bearer : Str) (said : List (Message Url))
    (challenges : r.Challenges challenge) (granted : Granted N U Known op r challenge bearer said) :
    Dialogue Known op said (.finished (.error (.upstream .transport)))
  | second (r : Reply) (challenge : TokenRequest) (bearer : Str) (said : List (Message Url))
    (challenges : r.Challenges challenge) (granted : Granted N U Known op r challenge bearer said) :
    Dialogue Known op (said ++ [.request (make N U op (some bearer))]) .second
  | retriedLost (r : Reply) (challenge : TokenRequest) (bearer : Str) (said : List (Message Url))
    (challenges : r.Challenges challenge) (granted : Granted N U Known op r challenge bearer said) :
    Dialogue Known op (said ++ [.request (make N U op (some bearer)), .reply none])
      (.finished (.error (.upstream .transport)))
  | retried (r : Reply) (challenge : TokenRequest) (bearer : Str) (said : List (Message Url))
    (challenges : r.Challenges challenge) (granted : Granted N U Known op r challenge bearer said)
    (final : Reply) :
    Dialogue Known op (said ++ [.request (make N U op (some bearer)), .reply (some final)])
      (.finished (.ok final))

/-- The token endpoint has given the token to one of the calls, for a challenge with the key. -/
def Obtained (calls : List (Call Url)) (key : Key) (bearer : Str) : Prop :=
  ∃ c ∈ calls, ∃ challenge g expiresIn, TokenRequest.cacheKey challenge = key ∧
    .query (tokenQuery challenge U.authMode) ∈ c.said ∧ .grant g ∈ c.said ∧
    tokenOf g = .ok (bearer, expiresIn)

/-- The invariant of the runs. -/
structure Good (s : Pool Client (Call Url)) : Prop where
  cache : ∀ key entry, s.memory.cache.lookup key = some entry →
    Obtained U s.tasks key entry.bearer
  calls : ∀ c ∈ s.tasks, Dialogue N U (Obtained U s.tasks) c.op c.said c.phase

variable {N U}

theorem Granted.mono {Known Known' : Key → Str → Prop} (hknown : ∀ k b, Known k b → Known' k b)
    {op : Operation} {r : Reply} {challenge : TokenRequest} {bearer : Str}
    {said : List (Message Url)} (h : Granted N U Known op r challenge bearer said) :
    Granted N U Known' op r challenge bearer said := by
  cases h with
  | cached known => exact .cached (hknown _ _ known)
  | minted g expiresIn token => exact .minted g expiresIn token

theorem Dialogue.mono {Known Known' : Key → Str → Prop} (hknown : ∀ k b, Known k b → Known' k b)
    {op : Operation} {said : List (Message Url)} {phase : Phase}
    (h : Dialogue N U Known op said phase) : Dialogue N U Known' op said phase := by
  cases h with
  | start => exact .start
  | first => exact .first
  | lost => exact .lost
  | settled r status => exact .settled r status
  | unchallenged r status challenge => exact .unchallenged r status challenge
  | challenged r challenge hr => exact .challenged r challenge hr
  | unparsed r challenge hr => exact .unparsed r challenge hr
  | queried r challenge hr => exact .queried r challenge hr
  | refused r challenge g e hr token => exact .refused r challenge g e hr token
  | unsent r challenge bearer said hr granted =>
    exact .unsent r challenge bearer said hr (granted.mono hknown)
  | second r challenge bearer said hr granted =>
    exact .second r challenge bearer said hr (granted.mono hknown)
  | retriedLost r challenge bearer said hr granted =>
    exact .retriedLost r challenge bearer said hr (granted.mono hknown)
  | retried r challenge bearer said hr granted final =>
    exact .retried r challenge bearer said hr (granted.mono hknown) final

/-- A call that takes a turn only adds to what it has said. -/
theorem Obtained.replace {before after : List (Call Url)} {c c' : Call Url}
    (hsaid : c.said ⊆ c'.said) {key : Key} {bearer : Str}
    (h : Obtained U (before ++ c :: after) key bearer) :
    Obtained U (before ++ c' :: after) key bearer := by
  obtain ⟨d, hd, challenge, g, expiresIn, hkey, hquery, hgrant, htoken⟩ := h
  rcases Pool.mem_replace (p := c') hd with rfl | ⟨hother, -⟩
  · exact ⟨c', by simp, challenge, g, expiresIn, hkey, hsaid hquery, hsaid hgrant, htoken⟩
  · exact ⟨d, Pool.mem_of_other hother, challenge, g, expiresIn, hkey, hquery, hgrant, htoken⟩

/-! ## One turn -/

@[simp] theorem Call.say_op (c : Call Url) (messages : List (Message Url)) (phase : Phase) :
    (c.say messages phase).op = c.op := rfl

@[simp] theorem Call.say_said (c : Call Url) (messages : List (Message Url)) (phase : Phase) :
    (c.say messages phase).said = c.said ++ messages := rfl

@[simp] theorem Call.say_phase (c : Call Url) (messages : List (Message Url)) (phase : Phase) :
    (c.say messages phase).phase = phase := rfl

/-- The call holds a conversation. -/
def Call.Holds (N : Net Url) (U : HttpUpstream Url) (Known : Key → Str → Prop) (c : Call Url) :
    Prop :=
  Dialogue N U Known c.op c.said c.phase

theorem Call.retry_said (c : Call Url) (bearer : Str) : c.said <+: (c.retry N U bearer).said := by
  unfold Call.retry
  split
  · exact List.prefix_append _ _
  · exact List.prefix_append _ _

theorem Call.retry_holds {Known : Key → Str → Prop} {c : Call Url} {r : Reply}
    {challenge : TokenRequest} {bearer : Str} (hr : r.Challenges challenge)
    (h : Granted N U Known c.op r challenge bearer c.said) :
    (c.retry N U bearer).Holds N U Known := by
  unfold Call.retry
  split
  · exact .second r challenge bearer c.said hr h
  · unfold Call.Holds
    rw [Call.say_said, List.append_nil]
    exact .unsent r challenge bearer c.said hr h

theorem Call.replied_holds {Known : Key → Str → Prop} {c : Call Url} {reply : Option Reply}
    (hsaid : c.said = [.request (make N U c.op none)]) : (c.replied U reply).Holds N U Known := by
  obtain ⟨op, said, phase⟩ := c
  simp only at hsaid
  subst hsaid
  unfold Call.replied
  cases reply with
  | none => exact .lost
  | some r =>
    by_cases hstatus : r.status = 401
    · cases hc : r.challenge with
      | none =>
        simp only [hstatus, ne_eq, not_true_eq_false, if_false, hc]
        exact .unchallenged r hstatus hc
      | some challenge =>
        simp only [hstatus, ne_eq, not_true_eq_false, if_false, hc]
        exact .challenged r challenge ⟨hstatus, hc⟩
    · simp only [hstatus, ne_eq, not_false_eq_true, if_true]
      exact .settled r hstatus

theorem Call.looked_holds {Known : Key → Str → Prop} {m : Client} {c : Call Url} {r : Reply}
    {challenge : TokenRequest} (hr : r.Challenges challenge)
    (hcache : ∀ key bearer, m.cache.get key m.now = some bearer → Known key bearer)
    (hsaid : c.said = opening N U c.op (some r)) {m' : Client} {f : Fetch}
    (hask : Bearer.ask N.urlParses m (.lookup challenge U.authMode) = some (m', f)) :
    m' = m ∧ ((c.say (asked f) c.phase).fetched N U f).Holds N U Known := by
  obtain ⟨op, said, phase⟩ := c
  simp only at hsaid
  subst hsaid
  simp only [Bearer.ask, Option.some.injEq, Prod.mk.injEq] at hask
  obtain ⟨rfl, rfl⟩ := hask
  refine ⟨rfl, ?_⟩
  cases hget : m.cache.get challenge.cacheKey m.now with
  | some bearer =>
    simp only [Call.fetched]
    refine Call.retry_holds hr ?_
    simp only [asked, Call.say_said, Call.say_op, List.append_nil]
    exact .cached (hcache _ _ hget)
  | none =>
    cases hparses : N.urlParses challenge.realm with
    | true => exact .queried r challenge hr
    | false => exact .unparsed r challenge hr

theorem Call.answered_holds {Known : Key → Str → Prop} {m m' : Client} {c : Call Url} {r : Reply}
    {challenge : TokenRequest} {g : Option TokenReply} {issued : Nat} {f : Fetch}
    (hr : r.Challenges challenge)
    (hsaid : c.said = opening N U c.op (some r) ++ [.query (tokenQuery challenge U.authMode)])
    (hanswer : Bearer.answer N.limit g issued m
      (.waiting challenge (tokenQuery challenge U.authMode)) = some (m', f)) :
    m'.aborted = false → ((c.say [.grant g] c.phase).fetched N U f).Holds N U Known := by
  obtain ⟨op, said, phase⟩ := c
  simp only at hsaid
  subst hsaid
  intro hrunning
  simp only [Bearer.answer, Option.some.injEq] at hanswer
  cases htoken : tokenOf g with
  | error e =>
    simp only [htoken, Prod.mk.injEq] at hanswer
    obtain ⟨-, rfl⟩ := hanswer
    exact .refused r challenge g e hr htoken
  | ok token =>
    obtain ⟨bearer, expiresIn⟩ := token
    simp only [htoken] at hanswer
    split at hanswer
    · cases hanswer
      cases hrunning
    · cases hanswer
      exact Call.retry_holds hr (.minted g expiresIn htoken)

/-- A token that is stored has just been given for the challenge. -/
theorem lookup_answer {limit : Nat} {g : Option TokenReply} {issued : Nat} {m m' : Client}
    {challenge : TokenRequest} {query : TokenQuery} {f : Fetch}
    (hanswer : Bearer.answer limit g issued m (.waiting challenge query) = some (m', f))
    {key : Key} {entry : CachedToken} (hlookup : m'.cache.lookup key = some entry) :
    m.cache.lookup key = some entry ∨
      m'.aborted = m.aborted ∧ key = challenge.cacheKey ∧
        ∃ expiresIn, tokenOf g = .ok (entry.bearer, expiresIn) := by
  simp only [Bearer.answer, Option.some.injEq] at hanswer
  cases htoken : tokenOf g with
  | error e =>
    simp only [htoken, Prod.mk.injEq] at hanswer
    obtain ⟨rfl, -⟩ := hanswer
    exact .inl hlookup
  | ok token =>
    obtain ⟨bearer, expiresIn⟩ := token
    simp only [htoken] at hanswer
    split at hanswer
    · cases hanswer
      exact .inl hlookup
    · rename_i cache hinsert
      cases hanswer
      obtain ⟨-, rfl⟩ := insert_eq_some.mp hinsert
      by_cases hkey : key = challenge.cacheKey
      · rw [hkey, AList.lookup_insert, Option.some.injEq] at hlookup
        exact .inr ⟨rfl, hkey, expiresIn, by rw [← hlookup]⟩
      · rw [AList.lookup_insert_ne hkey] at hlookup
        exact .inl hlookup

theorem Call.fetched_said (c : Call Url) (f : Fetch) : c.said <+: (c.fetched N U f).said := by
  cases f with
  | cached key bearer time => exact Call.retry_said c bearer
  | minted bearer => exact Call.retry_said c bearer
  | lookup req mode => exact List.prefix_append _ _
  | waiting req query => exact List.prefix_append _ _
  | failed e => exact List.prefix_append _ _

/-- A turn adds to what the call has said. -/
theorem advance_said {input : Input} {m m' : Client} {c c' : Call Url}
    (h : advance N U input m c = some (m', c')) : c.said <+: c'.said := by
  unfold advance at h
  split at h
  · cases h
    exact List.prefix_append _ _
  · cases h
    exact List.prefix_append _ _
  · obtain ⟨r, -, heq⟩ := Option.map_eq_some_iff.mp h
    cases heq
    exact (List.prefix_append _ _).trans (Call.fetched_said (c.say _ _) _)
  · obtain ⟨r, -, heq⟩ := Option.map_eq_some_iff.mp h
    cases heq
    split
    · exact List.prefix_rfl
    · exact (List.prefix_append _ _).trans (Call.fetched_said (c.say _ _) _)
  · cases h
    exact List.prefix_append _ _
  · cases h

/-- A turn continues the conversation, and what it stores is what the endpoint has given the
call. -/
theorem advance_holds {Known : Key → Str → Prop} {input : Input} {m m' : Client} {c c' : Call Url}
    (hrunning : m.aborted = false)
    (hcache : ∀ key bearer, m.cache.get key m.now = some bearer → Known key bearer)
    (hc : c.Holds N U Known) (h : advance N U input m c = some (m', c')) :
    c'.Holds N U Known ∧
      ∀ key entry, m'.cache.lookup key = some entry → m.cache.lookup key = some entry ∨
        Obtained U [c'] key entry.bearer := by
  obtain ⟨op, said, phase⟩ := c
  unfold Call.Holds at hc
  simp only at hc
  cases hc with
  | start =>
    cases input <;> cases h
    exact ⟨.first, fun _ _ h => .inl h⟩
  | first =>
    cases input <;> cases h
    exact ⟨Call.replied_holds rfl, fun _ _ h => .inl h⟩
  | challenged r challenge hr =>
    cases input with
    | look =>
      simp only [advance] at h
      obtain ⟨⟨m₁, f⟩, hask, heq⟩ := Option.map_eq_some_iff.mp h
      cases heq
      obtain ⟨rfl, hholds⟩ := Call.looked_holds (c := ⟨op, opening N U op (some r), _⟩) hr hcache
        rfl hask
      exact ⟨hholds, fun _ _ h => .inl h⟩
    | send => cases h
    | reply r => cases h
    | grant g issued => cases h
  | queried r challenge hr =>
    cases input with
    | grant g issued =>
      simp only [advance] at h
      obtain ⟨⟨m₁, f⟩, hanswer, heq⟩ := Option.map_eq_some_iff.mp h
      simp only at heq
      split at heq
      · rename_i haborted
        cases heq
        refine ⟨.queried r challenge hr, fun key entry hlookup => ?_⟩
        rcases lookup_answer hanswer hlookup with hold | ⟨hsame, -, -⟩
        · exact .inl hold
        · rw [haborted, hrunning] at hsame
          cases hsame
      · rename_i hlives
        cases heq
        refine ⟨Call.answered_holds hr rfl hanswer (by simpa using hlives),
          fun key entry hlookup => ?_⟩
        rcases lookup_answer hanswer hlookup with hold | ⟨-, hkey, expiresIn, htoken⟩
        · exact .inl hold
        · exact .inr ⟨_, List.mem_singleton_self _, challenge, g, expiresIn, hkey.symm,
            (Call.fetched_said _ f).subset (by simp), (Call.fetched_said _ f).subset (by simp), htoken⟩
    | send => cases h
    | reply r => cases h
    | look => cases h
  | second r challenge bearer said hr granted =>
    cases input with
    | reply reply =>
      cases h
      refine ⟨?_, fun _ _ h => .inl h⟩
      unfold Call.Holds Call.retried
      simp only [Call.say_said, List.append_assoc, List.cons_append, List.nil_append]
      cases reply with
      | none => exact .retriedLost r challenge bearer said hr granted
      | some final => exact .retried r challenge bearer said hr granted final
    | send => cases h
    | look => cases h
    | grant g issued => cases h
  | lost => cases input <;> cases h
  | settled r status => cases input <;> cases h
  | unchallenged r status challenge => cases input <;> cases h
  | unparsed r challenge hr => cases input <;> cases h
  | refused r challenge g e hr token => cases input <;> cases h
  | unsent r challenge bearer said hr granted => cases input <;> cases h
  | retriedLost r challenge bearer said hr granted => cases input <;> cases h
  | retried r challenge bearer said hr granted final => cases input <;> cases h

/-! ## Runs -/

theorem good_start (now : Nat) : Good N U (start now : Pool Client (Call Url)) where
  cache := fun _ _ h => by cases h
  calls := fun _ h => absurd h List.not_mem_nil

/-- A token that a lookup finds has come from the endpoint. -/
theorem Good.get_obtained {s : Pool Client (Call Url)} (h : Good N U s) {key : Key} {bearer : Str}
    {now : Nat} (hget : s.memory.cache.get key now = some bearer) :
    Obtained U s.tasks key bearer := by
  obtain ⟨entry, hlookup, -, rfl⟩ := get_eq_some.mp hget
  exact h.cache key entry hlookup

theorem Good.turn {s t : Pool Client (Call Url)} (h : Good N U s)
    (hrunning : s.memory.aborted = false) {i : Nat} {input : Input}
    (hturn : s.turn (Requests.advance N U input) i = some t) : Good N U t := by
  obtain ⟨before, c, after, m, c', -, htasks, hadvance, rfl⟩ := Pool.turn_cases hturn
  obtain ⟨memory, tasks⟩ := s
  simp only at htasks hadvance hrunning
  subst htasks
  have hsaid := (advance_said hadvance).subset
  have hold : ∀ key bearer, Obtained U (before ++ c :: after) key bearer →
      Obtained U (before ++ c' :: after) key bearer := fun _ _ => Obtained.replace hsaid
  obtain ⟨hholds, hstored⟩ := advance_holds hrunning (fun _ _ => h.get_obtained)
    (h.calls c (by simp)) hadvance
  constructor
  · intro key entry hlookup
    rcases hstored key entry hlookup with hlookup | ⟨d, hd, hobtained⟩
    · exact hold _ _ (h.cache key entry hlookup)
    · cases List.mem_singleton.mp hd
      exact ⟨c', by simp, hobtained⟩
  · intro d hd
    rcases Pool.mem_replace (p := c) hd with rfl | ⟨-, hd⟩
    · exact hholds.mono hold
    · exact (h.calls d hd).mono hold

/-- A step keeps the invariant. -/
theorem Good.step {s t : Pool Client (Call Url)} {act : Act} (h : Good N U s)
    (hstep : Requests.step N U s act = some t) : Good N U t := by
  unfold Requests.step at hstep
  split at hstep
  · cases hstep
  · rename_i hrunning
    cases act with
    | advance dt =>
      cases hstep
      exact ⟨h.cache, h.calls⟩
    | call op =>
      cases hstep
      have hold : ∀ key bearer, Obtained U s.tasks key bearer →
          Obtained U (s.tasks ++ [⟨op, [], .start⟩]) key bearer := fun _ _ ⟨d, hd, hrest⟩ =>
        ⟨d, List.mem_append_left _ hd, hrest⟩
      refine ⟨fun key entry hlookup => hold _ _ (h.cache key entry hlookup), fun c hc => ?_⟩
      rcases List.mem_append.mp hc with hc | hc
      · exact (h.calls c hc).mono hold
      · cases List.mem_singleton.mp hc
        exact .start
    | turn i input =>
      simp only at hstep
      split at hstep
      · exact h.turn (by simpa using hrunning) hstep
      · cases hstep

theorem good_of_run {now : Nat} {s : Pool Client (Call Url)}
    (hrun : (runs (step N U) anyStep).rel (start now) s) : Good N U s := by
  refine Evolution.star_keep (I := Good N U) ?_ hrun (good_start now)
  intro s t ⟨act, _, hstep⟩ h
  exact h.step hstep

/-- The requests of a conversation. -/
def requests (said : List (Message Url)) : List (Request Url) :=
  said.filterMap fun message =>
    match message with
    | .request r => some r
    | _ => none

/-- The token queries of a conversation. -/
def queries (said : List (Message Url)) : List TokenQuery :=
  said.filterMap fun message =>
    match message with
    | .query q => some q
    | _ => none

/-- The call keeps to the challenge of the reply to its first request. -/
structure Follows (N : Net Url) (U : HttpUpstream Url) (calls : List (Call Url)) (c : Call Url)
    (r : Reply) (challenge : TokenRequest) : Prop where
  challenges : r.Challenges challenge
  reply : opening N U c.op (some r) <+: c.said
  query : queries c.said <+: [tokenQuery challenge U.authMode]
  request : requests c.said = [make N U c.op none] ∨
    ∃ bearer, Obtained U calls challenge.cacheKey bearer ∧
      requests c.said = [make N U c.op none, make N U c.op (some bearer)]

@[simp] theorem requests_append (a b : List (Message Url)) :
    requests (a ++ b) = requests a ++ requests b := List.filterMap_append

@[simp] theorem queries_append (a b : List (Message Url)) :
    queries (a ++ b) = queries a ++ queries b := List.filterMap_append

theorem Granted.facts {Known : Key → Str → Prop} {op : Operation} {r : Reply}
    {challenge : TokenRequest} {bearer : Str} {said : List (Message Url)}
    (h : Granted N U Known op r challenge bearer said) :
    opening N U op (some r) <+: said ∧ requests said = [make N U op none] ∧
      queries said <+: [tokenQuery challenge U.authMode] ∧
      (Known challenge.cacheKey bearer ∨ ∃ g expiresIn, tokenOf g = .ok (bearer, expiresIn) ∧
        .query (tokenQuery challenge U.authMode) ∈ said ∧ .grant g ∈ said) := by
  cases h with
  | cached known => exact ⟨List.prefix_rfl, rfl, List.nil_prefix, .inl known⟩
  | minted g expiresIn token =>
    exact ⟨List.prefix_append _ _, rfl, List.prefix_rfl, .inr ⟨g, expiresIn, token, by simp, by simp⟩⟩

/-- A token that a call has fetched has come from the endpoint. -/
theorem Granted.obtained {calls : List (Call Url)} {c : Call Url} (hc : c ∈ calls) {r : Reply}
    {challenge : TokenRequest} {bearer : Str} {said : List (Message Url)}
    (h : Granted N U (Obtained U calls) c.op r challenge bearer said) (hsaid : said ⊆ c.said) :
    Obtained U calls challenge.cacheKey bearer := by
  rcases h.facts.2.2.2 with hknown | ⟨g, expiresIn, htoken, hquery, hgrant⟩
  · exact hknown
  · exact ⟨c, hc, challenge, g, expiresIn, rfl, hsaid hquery, hsaid hgrant, htoken⟩

/-- A call that has fetched a token follows the challenge, with or without its last request. -/
theorem Granted.follows {calls : List (Call Url)} {c : Call Url} (hc : c ∈ calls) {r : Reply}
    {challenge : TokenRequest} {bearer : Str} {said rest : List (Message Url)}
    (hr : r.Challenges challenge)
    (h : Granted N U (Obtained U calls) c.op r challenge bearer said) (hsaid : c.said = said ++ rest)
    (hqueries : queries rest = [])
    (hrequests : requests rest = [] ∨ requests rest = [make N U c.op (some bearer)]) :
    Follows N U calls c r challenge := by
  obtain ⟨hopening, hfirst, hquery, -⟩ := h.facts
  have hobtained := h.obtained hc (hsaid ▸ List.subset_append_left _ _)
  refine ⟨hr, hsaid ▸ hopening.trans (List.prefix_append _ _), ?_, ?_⟩
  · rw [hsaid, queries_append, hqueries, List.append_nil]
    exact hquery
  · rw [hsaid, requests_append, hfirst]
    rcases hrequests with hnone | hsecond
    · exact .inl (by rw [hnone, List.append_nil])
    · exact .inr ⟨bearer, hobtained, by rw [hsecond]; rfl⟩

/-- A call has sent no more than its first request, or it follows a challenge. -/
theorem Dialogue.follows {calls : List (Call Url)} {c : Call Url} (hc : c ∈ calls)
    (h : c.Holds N U (Obtained U calls)) :
    requests c.said <+: [make N U c.op none] ∧ queries c.said = [] ∨
      ∃ r challenge, Follows N U calls c r challenge := by
  obtain ⟨op, said, phase⟩ := c
  unfold Call.Holds at h
  simp only at h
  cases h with
  | start => exact .inl ⟨List.nil_prefix, rfl⟩
  | first => exact .inl ⟨List.prefix_rfl, rfl⟩
  | lost => exact .inl ⟨List.prefix_rfl, rfl⟩
  | settled r status => exact .inl ⟨List.prefix_rfl, rfl⟩
  | unchallenged r status challenge => exact .inl ⟨List.prefix_rfl, rfl⟩
  | challenged r challenge hr => exact .inl ⟨List.prefix_rfl, rfl⟩
  | unparsed r challenge hr => exact .inl ⟨List.prefix_rfl, rfl⟩
  | queried r challenge hr =>
    exact .inr ⟨r, challenge, hr, List.prefix_append _ _, List.prefix_rfl, .inl rfl⟩
  | refused r challenge g e hr token =>
    exact .inr ⟨r, challenge, hr, List.prefix_append _ _, List.prefix_rfl, .inl rfl⟩
  | unsent r challenge bearer said hr granted =>
    exact .inr ⟨r, challenge, granted.follows hc hr (List.append_nil _).symm rfl (.inl rfl)⟩
  | second r challenge bearer said hr granted =>
    exact .inr ⟨r, challenge, granted.follows hc hr rfl rfl (.inr rfl)⟩
  | retriedLost r challenge bearer said hr granted =>
    exact .inr ⟨r, challenge, granted.follows hc hr rfl rfl (.inr rfl)⟩
  | retried r challenge bearer said hr granted final =>
    exact .inr ⟨r, challenge, granted.follows hc hr rfl rfl (.inr rfl)⟩

/-- A call returns the last reply, which is 401 only when the request has been sent twice. -/
theorem Dialogue.returns {Known : Key → Str → Prop} {op : Operation} {said : List (Message Url)}
    {final : Reply} (h : Dialogue N U Known op said (.finished (.ok final))) :
    said.getLast? = some (.reply (some final)) ∧
      (final.status = 401 → (requests said).length = 2) := by
  cases h with
  | settled r status => exact ⟨rfl, fun h => absurd h status⟩
  | retried r challenge bearer said hr granted final =>
    refine ⟨by simp, fun _ => ?_⟩
    rw [requests_append, granted.facts.2.1]
    rfl

/-- A method makes an answer of a success only. -/
theorem Operation.isSuccess_of_conclude {S : Setup} {r : Reply} {op : Operation} {a : Answer}
    (h : op.conclude S r = .ok a) : r.http.isSuccess = true := by
  by_contra hfails
  rw [Bool.not_eq_true] at hfails
  cases op with
  | resolveTag repo reference =>
    simp [Operation.conclude, Upstream.resolveTag, hfails, Except.map] at h
  | getManifest repo reference =>
    simp [Operation.conclude, Upstream.getManifest, hfails, Except.map] at h
  | streamBlob repo digest =>
    simp [Operation.conclude, Requests.streamBlob, hfails, Except.map] at h
  | listTags repo => simp [Operation.conclude, Requests.listTags, hfails, Except.map] at h

theorem Call.outcome_eq_ok {S : Setup} {c : Call Url} {a : Answer}
    (h : c.outcome S = some (.ok a)) :
    ∃ final, c.phase = .finished (.ok final) ∧ final.http.isSuccess = true ∧
      c.op.conclude S final = .ok a := by
  unfold Call.outcome at h
  split at h
  · rename_i final hphase
    cases hconclude : c.op.conclude S final with
    | error e => simp [hconclude, Except.mapError] at h
    | ok b =>
      simp only [hconclude, Except.mapError, Option.some.injEq, Except.ok.injEq] at h
      subst h
      exact ⟨final, hphase, Operation.isSuccess_of_conclude hconclude, hconclude⟩
  · cases h
  · cases h

/-- In every run, each call sends its request with the configured credentials and, after a
challenge, at most one query for that challenge and one request with a token that the endpoint
has given for the realm and the scope of the challenge. Its answer is made of its last reply, a
success. -/
theorem calls_follow_the_challenge (S : Setup) {now : Nat} {s : Pool Client (Call Url)}
    (hrun : (runs (step N U) anyStep).rel (start now) s) {c : Call Url} (hc : c ∈ s.tasks) :
    (requests c.said <+: [make N U c.op none] ∧ queries c.said = [] ∨
      ∃ r challenge, Follows N U s.tasks c r challenge) ∧
    (∀ final, c.phase = .finished (.ok final) → c.said.getLast? = some (.reply (some final)) ∧
      (final.status = 401 → (requests c.said).length = 2)) ∧
    ∀ a, c.outcome S = some (.ok a) → ∃ final, c.said.getLast? = some (.reply (some final)) ∧
      final.http.isSuccess = true ∧ c.op.conclude S final = .ok a := by
  have hholds := (good_of_run hrun).calls c hc
  have hreturns : ∀ final, c.phase = .finished (.ok final) →
      c.said.getLast? = some (.reply (some final)) ∧
        (final.status = 401 → (requests c.said).length = 2) := by
    intro final hfinal
    rw [hfinal] at hholds
    exact hholds.returns
  refine ⟨Dialogue.follows hc hholds, hreturns, fun a ha => ?_⟩
  obtain ⟨final, hphase, hsuccess, hconclude⟩ := Call.outcome_eq_ok ha
  exact ⟨final, (hreturns final hphase).1, hsuccess, hconclude⟩

/-! ## Calls end -/

/-- The most turns that a call can still take. -/
def Phase.rank : Phase → Nat
  | .start => 5
  | .first => 4
  | .fetch (.lookup _ _) => 3
  | .fetch _ => 2
  | .second => 1
  | .finished _ => 0

theorem Call.retry_rank (c : Call Url) (bearer : Str) : (c.retry N U bearer).phase.rank ≤ 1 := by
  unfold Call.retry
  split
  · exact le_rfl
  · exact Nat.zero_le _

theorem Call.replied_rank (c : Call Url) (reply : Option Reply) :
    (c.replied U reply).phase.rank ≤ 3 := by
  unfold Call.replied
  rw [Call.say_phase]
  cases reply with
  | none => exact Nat.zero_le _
  | some r =>
    simp only
    split
    · exact Nat.zero_le _
    · cases r.challenge with
      | none => exact Nat.zero_le _
      | some challenge => exact le_rfl

theorem Call.looked_rank {m m' : Client} {f f' : Fetch} (c : Call Url)
    (h : Bearer.ask N.urlParses m f = some (m', f')) :
    (Phase.fetch f).rank = 3 ∧ (c.fetched N U f').phase.rank ≤ 2 := by
  cases f with
  | lookup req mode =>
    simp only [Bearer.ask, Option.some.injEq, Prod.mk.injEq] at h
    obtain ⟨-, rfl⟩ := h
    refine ⟨rfl, ?_⟩
    split
    · exact (Call.retry_rank c _).trans (by decide)
    · split
      · exact le_rfl
      · exact Nat.zero_le _
  | waiting req query => cases h
  | cached key bearer time => cases h
  | minted bearer => cases h
  | failed e => cases h

theorem answer_rank {limit issued : Nat} {g : Option TokenReply} {m m' : Client} {f f' : Fetch}
    (h : Bearer.answer limit g issued m f = some (m', f')) : 0 < (Phase.fetch f).rank := by
  cases f <;> first | exact Nat.zero_lt_two | cases h

theorem Call.answered_rank {limit issued : Nat} {g : Option TokenReply} {m m' : Client}
    {f f' : Fetch} (c : Call Url) (h : Bearer.answer limit g issued m f = some (m', f'))
    (hlives : m'.aborted = false) : (c.fetched N U f').phase.rank < (Phase.fetch f).rank := by
  cases f with
  | waiting req query =>
    simp only [Bearer.answer, Option.some.injEq] at h
    split at h
    · cases h
      exact Nat.zero_lt_two
    · split at h
      · cases h
        cases hlives
      · cases h
        exact Nat.lt_succ_of_le (Call.retry_rank c _)
  | lookup req mode => cases h
  | cached key bearer time => cases h
  | minted bearer => cases h
  | failed e => cases h

/-- A turn lowers the rank, unless the process ends in it. -/
theorem advance_rank {input : Input} {m m' : Client} {c c' : Call Url}
    (h : advance N U input m c = some (m', c')) :
    0 < c.phase.rank ∧ (m'.aborted = false → c'.phase.rank < c.phase.rank) := by
  obtain ⟨op, said, phase⟩ := c
  cases phase with
  | start =>
    cases input <;> cases h
    exact ⟨Nat.succ_pos 4, fun _ => Nat.lt_succ_self _⟩
  | first =>
    cases input <;> cases h
    exact ⟨Nat.succ_pos 3, fun _ => Nat.lt_succ_of_le (Call.replied_rank _ _)⟩
  | fetch f =>
    cases input with
    | look =>
      simp only [advance] at h
      obtain ⟨⟨m₁, f'⟩, hask, heq⟩ := Option.map_eq_some_iff.mp h
      cases heq
      obtain ⟨hrank, hless⟩ := Call.looked_rank (U := U)
        (Call.say ⟨op, said, .fetch f⟩ (asked f') (.fetch f)) hask
      simp only at hrank hless ⊢
      rw [hrank]
      exact ⟨by decide, fun _ => Nat.lt_succ_of_le hless⟩
    | grant g issued =>
      simp only [advance] at h
      obtain ⟨⟨m₁, f'⟩, hanswer, heq⟩ := Option.map_eq_some_iff.mp h
      simp only [Prod.mk.injEq] at heq
      obtain ⟨rfl, hc'⟩ := heq
      refine ⟨answer_rank hanswer, fun hlives => ?_⟩
      rw [hlives] at hc'
      subst hc'
      exact Call.answered_rank _ hanswer hlives
    | send => cases h
    | reply r => cases h
  | second =>
    cases input with
    | reply r =>
      cases h
      refine ⟨Nat.succ_pos 0, fun _ => ?_⟩
      unfold Call.retried
      rw [Call.say_phase]
      cases r <;> exact Nat.zero_lt_one
    | send => cases h
    | look => cases h
    | grant g issued => cases h
  | finished result => cases input <;> cases h

/-- The inputs that a call waits for. -/
def Phase.Awaits : Phase → Input → Prop
  | .start, .send => True
  | .first, .reply _ => True
  | .fetch (.lookup _ _), .look => True
  | .fetch (.waiting _ _), .grant _ _ => True
  | .second, .reply _ => True
  | _, _ => False

/-- The turns of a call in a list of actions. -/
def turns (i : Nat) (acts : List Act) : Nat :=
  acts.countP fun act =>
    match act with
    | .turn j _ => j = i
    | _ => false

/-- Each call has taken no more turns than it has, and who has not been called has taken none. -/
def Budget (s : Pool Client (Call Url)) (taken : Nat → Nat) : Prop :=
  ∀ i, match s.tasks[i]? with
    | none => taken i = 0
    | some c => taken i ≤ 5 ∧ (s.memory.aborted = false → taken i + c.phase.rank ≤ 5)

theorem budget_start (now : Nat) : Budget (start now : Pool Client (Call Url)) (fun _ => 0) := by
  intro i
  rfl

/-- A step takes one turn of one call, or none. -/
theorem Budget.step {s t : Pool Client (Call Url)} {taken : Nat → Nat} {act : Act}
    (h : Budget s taken) (hstep : Requests.step N U s act = some t) :
    Budget t fun i => taken i + turns i [act] := by
  unfold Requests.step at hstep
  split at hstep
  · cases hstep
  · rename_i hrunning
    cases act with
    | advance dt =>
      cases hstep
      exact h
    | call op =>
      cases hstep
      intro i
      have hi := h i
      simp only [Pool.spawn, turns, List.countP_singleton, Bool.false_eq_true, if_false,
        Nat.add_zero]
      rcases lt_trichotomy i s.tasks.length with hlt | rfl | hgt
      · rw [List.getElem?_append_left hlt]
        exact hi
      · rw [List.getElem?_eq_none le_rfl] at hi
        rw [List.getElem?_concat_length]
        simp only at hi ⊢
        rw [hi]
        exact ⟨Nat.zero_le _, fun _ => le_rfl⟩
      · rw [List.getElem?_eq_none hgt.le] at hi
        rw [List.getElem?_eq_none (by simp only [List.length_append, List.length_singleton]; omega)]
        exact hi
    | turn j input =>
      simp only at hstep
      split at hstep
      · intro i
        have hi := h i
        simp only [turns, List.countP_singleton, decide_eq_true_eq]
        by_cases hij : j = i
        · subst hij
          obtain ⟨c, c', hc, hc', hadvance⟩ := Pool.turn_task hstep
          obtain ⟨hpos, hless⟩ := advance_rank hadvance
          rw [hc] at hi
          rw [hc']
          have hbound := hi.2 (by simpa using hrunning)
          simp only [if_true]
          exact ⟨by omega, fun hlives => by have := hless hlives; omega⟩
        · rw [Pool.turn_others hstep fun heq => hij heq.symm, if_neg hij]
          cases hc : s.tasks[i]? with
          | none =>
            rw [hc] at hi
            exact hi
          | some c =>
            rw [hc] at hi
            exact ⟨hi.1, fun _ => hi.2 (by simpa using hrunning)⟩
      · cases hstep

theorem Budget.follow {acts : List Act} {s t : Pool Client (Call Url)} {taken : Nat → Nat}
    (h : Budget s taken) (hrun : Quill.follow (Requests.step N U) anyStep s acts = some t) :
    Budget t fun i => taken i + turns i acts := by
  induction acts generalizing s taken with
  | nil =>
    cases hrun
    exact h
  | cons act acts ih =>
    unfold Quill.follow at hrun
    rw [if_pos (show anyStep s act from trivial)] at hrun
    obtain ⟨u, hu, hrest⟩ := Option.bind_eq_some_iff.mp hrun
    have hnext := ih (h.step hu) hrest
    intro i
    have hi := hnext i
    have hcount : turns i (act :: acts) = turns i [act] + turns i acts := by
      rw [← List.singleton_append, turns, List.countP_append]
      rfl
    simp only [hcount, ← Nat.add_assoc]
    exact hi

/-- A call waits for one kind of input until it returns. -/
theorem Dialogue.awaits {Known : Key → Str → Prop} {op : Operation} {said : List (Message Url)}
    {phase : Phase} (h : Dialogue N U Known op said phase) :
    (∃ result, phase = .finished result) ∨ ∃ input, phase.Awaits input := by
  cases h with
  | start => exact .inr ⟨.send, trivial⟩
  | first => exact .inr ⟨.reply none, trivial⟩
  | challenged r challenge hr => exact .inr ⟨.look, trivial⟩
  | queried r challenge hr => exact .inr ⟨.grant none 0, trivial⟩
  | second r challenge bearer said hr granted => exact .inr ⟨.reply none, trivial⟩
  | lost => exact .inl ⟨_, rfl⟩
  | settled r status => exact .inl ⟨_, rfl⟩
  | unchallenged r status challenge => exact .inl ⟨_, rfl⟩
  | unparsed r challenge hr => exact .inl ⟨_, rfl⟩
  | refused r challenge g e hr token => exact .inl ⟨_, rfl⟩
  | unsent r challenge bearer said hr granted => exact .inl ⟨_, rfl⟩
  | retriedLost r challenge bearer said hr granted => exact .inl ⟨_, rfl⟩
  | retried r challenge bearer said hr granted final => exact .inl ⟨_, rfl⟩

/-- An input that a call waits for moves it on. -/
theorem exists_advance {input : Input} {c : Call Url} (h : c.phase.Awaits input) (m : Client) :
    (advance N U input m c).isSome = true := by
  obtain ⟨op, said, phase⟩ := c
  cases phase with
  | start => cases input <;> first | rfl | cases h
  | first => cases input <;> first | rfl | cases h
  | second => cases input <;> first | rfl | cases h
  | finished result => cases input <;> cases h
  | fetch f =>
    cases f with
    | lookup req mode => cases input <;> first | rfl | cases h
    | waiting req query => cases input <;> first | rfl | cases h
    | cached key bearer time => cases input <;> cases h
    | minted bearer => cases input <;> cases h
    | failed e => cases input <;> cases h

/-- In every run, a call takes at most five turns. While the process lives, a call that has not
returned waits for one kind of input, and any timely input of that kind moves it on. -/
theorem calls_end {now : Nat} {acts : List Act} {s : Pool Client (Call Url)}
    (hrun : follow (step N U) anyStep (start now) acts = some s) {i : Nat} {c : Call Url}
    (hc : s.tasks[i]? = some c) :
    turns i acts ≤ 5 ∧
      (s.memory.aborted = false → (∃ result, c.phase = .finished result) ∨
        (∃ input, c.phase.Awaits input) ∧
        ∀ input, c.phase.Awaits input → input.Timely s.memory.now →
          ∃ t, step N U s (.turn i input) = some t) := by
  have hbudget := (budget_start now).follow hrun i
  rw [hc] at hbudget
  refine ⟨by simpa using hbudget.1, fun hlives => ?_⟩
  have hgood : Good N U s := good_of_run (runs_of_follow hrun)
  have hholds := hgood.calls c (List.mem_of_getElem? hc)
  refine (Dialogue.awaits hholds).imp_right fun hawaits => ⟨hawaits, fun input hinput htimely => ?_⟩
  obtain ⟨r, hr⟩ := Option.isSome_iff_exists.mp (exists_advance (N := N) (U := U) hinput s.memory)
  unfold step Pool.turn
  simp only [hlives, htimely, hc, hr, Bool.false_eq_true, if_false, if_true, Option.map_some]
  exact ⟨_, rfl⟩

/-! Two calls that meet the same challenge: the first fetches a token and the second, which looks
afterwards, uses it. -/

def demoNet : Net Str := ⟨fun base path => base ++ path, fun _ => true, unixLimit⟩

def demoUpstream : HttpUpstream Str :=
  ⟨"hub".toList, "https://hub/".toList, .basic "u".toList "p".toList⟩

def demoReply (status : Nat) : Reply :=
  ⟨status, some ("Bearer realm=\"https://auth/token\",scope=\"repository:x:pull\"".toList.map
    fun c => UInt8.ofNat c.toNat), none, none, []⟩

def demoManifest : Operation := .getManifest "x".toList "v1".toList

def demoTags : Operation := .listTags "x".toList

def demoActs : List Act :=
  [.call demoManifest, .call demoTags, .turn 0 .send, .turn 1 .send,
    .turn 1 (.reply (some (demoReply 401))), .turn 0 (.reply (some (demoReply 401))),
    .turn 0 .look, .turn 0 (.grant (tokenReply none) 0), .turn 1 .look,
    .turn 1 (.reply (some (demoReply 200)))]

theorem token_is_shared :
    ∃ s : Pool Client (Call Str), ∃ c ∈ s.tasks,
      requests c.said = [make demoNet demoUpstream demoTags none,
        make demoNet demoUpstream demoTags (some "t".toList)] ∧ queries c.said = [] ∧
      ∃ r challenge, Follows demoNet demoUpstream s.tasks c r challenge := by
  obtain ⟨s, hrun, c, hc, hrequests, hqueries⟩ := exists_run_of_follow (step demoNet demoUpstream)
    anyStep (start 0) demoActs
    (fun s => ∃ c ∈ s.tasks, requests c.said = [make demoNet demoUpstream demoTags none,
      make demoNet demoUpstream demoTags (some "t".toList)] ∧ queries c.said = [])
    (by decide +kernel)
  refine ⟨s, c, hc, hrequests, hqueries, ?_⟩
  rcases (calls_follow_the_challenge Codec.standalone hrun hc).1 with ⟨hfirst, -⟩ | hfollows
  · rw [hrequests] at hfirst
    exact absurd hfirst.length_le (Nat.not_succ_le_self 1)
  · exact hfollows

theorem second_call_ends :
    ∃ s, follow (step demoNet demoUpstream) anyStep (start 0) demoActs = some s ∧
      ∃ c, s.tasks[1]? = some c ∧ turns 1 demoActs ≤ 5 ∧
        (s.memory.aborted = false → (∃ result, c.phase = .finished result) ∨
          ∃ input, c.phase.Awaits input) := by
  obtain ⟨s, hs⟩ := Option.isSome_iff_exists.mp (show
    (follow (step demoNet demoUpstream) anyStep (start 0) demoActs).isSome = true by decide +kernel)
  have hc : ((follow (step demoNet demoUpstream) anyStep (start 0) demoActs).bind
    fun s => s.tasks[1]?).isSome = true := by decide +kernel
  rw [hs] at hc
  obtain ⟨c, hc⟩ := Option.isSome_iff_exists.mp hc
  obtain ⟨hturns, hends⟩ := calls_end hs hc
  exact ⟨s, hs, c, hc, hturns, fun hlives => (hends hlives).imp_right And.left⟩

end Quill.Upstream.Requests
