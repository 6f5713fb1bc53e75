import Quill.Auth.Htpasswd
import Quill.Registry.Histories

/-!
# The server as its clients see it

`AuthLayer` around the router: a request is authenticated first, whatever its path, and goes to
`v2_check` or to `dispatch` if it is let in (`receive`). Base64, bcrypt and the percent-decoding of the
path are parameters of the `Door`.

In every run the registry has answered the requests that the htpasswd file lets in and no others
(`run_of_receives`), so the run is a history of the service on these requests, and it stays a run with
the same end when the others are taken out of it (`strangers_change_nothing`).
-/

namespace Quill.Server

open Text Files Auth Registry

variable {S : Setup}

/-! ## Requests -/

/-- The text of the htpasswd file, if one is configured, and the code of other libraries. -/
structure Door where
  htpasswd : Option Str
  decode : Str → Option Bytes
  bcryptVerify : Str → Str → Bool
  decodePath : Str → Option Str

/-- A request with its path. The `rest` of `request` is not used, since the router takes it from the path. -/
structure Arriving where
  arrival : Arrival
  path : Str
  request : Request

/-- Where the router sends a path. -/
inductive Target where
  | check
  | dispatch (rest : Str)
  | undecodable
  | unknown

/-- The routes of `router`. A path that is not UTF-8 after decoding is refused by the extractor. -/
def target (D : Door) (path : Str) : Target :=
  if path = "/v2".toList ∨ path = "/v2/".toList then .check
  else
    match Auth.stripPrefix "/v2/".toList path with
    | some raw =>
      match D.decodePath raw with
      | some rest => .dispatch rest
      | none => .undecodable
    | none => .unknown

/-! ## Answers -/

/-- The answer of the middleware or of axum, or that of a handler. -/
inductive Answer where
  | plain (status : Nat) (headers : List (Str × Str))
  | registry (resp : Response)
  deriving DecidableEq

/-- The answer of the middleware. -/
def unauthorized : Answer := .plain 401 [("www-authenticate".toList, "Basic realm=\"quill\"".toList)]

/-- `v2_check` behind `get`. -/
def v2Check (method : Method) : Answer :=
  if method = .get ∨ method = .head then
    .plain 200 [("docker-distribution-api-version".toList, "registry/2.0".toList)]
  else .plain 405 [("allow".toList, "GET,HEAD".toList)]

/-- The server: the state of the middleware and of the registry. -/
structure Front (S : Setup) where
  auth : AuthState
  world : World S

/-- The router. -/
def answer (D : Door) (a : Arriving) (w : World S) : Except Abort Answer × World S :=
  match target D a.path with
  | .check => (.ok (v2Check a.request.method), w)
  | .dispatch rest =>
    match (Registry.dispatch { a.request with rest := rest } : Handler S).exec w with
    | (.ok resp, w') => (.ok (.registry resp), w')
    | (.error e, w') => (.error e, w')
  | .undecodable => (.ok (.plain 400 []), w)
  | .unknown => (.ok (.plain 404 []), w)

/-- A request to the server. -/
def receive (D : Door) (a : Arriving) (s : Front S) : Except Abort Answer × Front S :=
  match call D.decode D.bcryptVerify s.auth a.arrival.authorization a.arrival.now a.arrival.later with
  | (.answered status www, auth) =>
    (.ok (.plain status [("www-authenticate".toList, www)]), ⟨auth, s.world⟩)
  | (.inner, auth) =>
    let r := answer D a s.world
    (r.1, ⟨auth, r.2⟩)

/-- The start on an empty root; an htpasswd file that does not parse prevents it. -/
def start (S : Setup) (D : Door) (ticks wall : List Nat) : Except HtpasswdError (Front S) :=
  match D.htpasswd with
  | none => .ok ⟨⟨none⟩, World.start S ticks wall⟩
  | some body =>
    match parseFile body with
    | .ok users => .ok ⟨⟨some (load users)⟩, World.start S ticks wall⟩
    | .error e => .error e

/-- A request with its answer. -/
abbrev Visit := Arriving × Answer

/-- The server answers the request, and goes on in the second state. -/
def Receives (S : Setup) (D : Door) (s : Front S) (v : Visit) (s' : Front S) : Prop :=
  receive D v.1 s = (.ok v.2, s')

/-! ## Who is let in -/

/-- The header authenticates a user, or no file is configured. -/
def letIn (D : Door) (a : Arriving) : Bool :=
  match D.htpasswd with
  | none => true
  | some body =>
    match parseFile body with
    | .ok users => ((a.arrival.authorization.bind toStr).bind
        (authenticate D.decode D.bcryptVerify users)).isSome
    | .error _ => false

/-- The exchange with the registry, for a request that is let in and routed to it. -/
def exchange (D : Door) (v : Visit) : Option Exchange :=
  if letIn D v.1 then
    match target D v.1.path, v.2 with
    | .dispatch rest, .registry resp => some ({ v.1.request with rest := rest }, resp)
    | _, _ => none
  else none

/-- What the registry gets to see. -/
def seen (D : Door) (vs : List Visit) : List Exchange := vs.filterMap (exchange D)

/-- What the middleware keeps: the users of the file, and a cache that is sound for them. -/
def AuthSound (D : Door) (auth : AuthState) : Prop :=
  match D.htpasswd with
  | none => auth = ⟨none⟩
  | some body => ∃ users store, parseFile body = .ok users ∧ auth = ⟨some store⟩ ∧ store.users = users ∧
      CacheSound D.decode D.bcryptVerify store

theorem authSound_start {D : Door} {ticks wall : List Nat} {s : Front S}
    (h : start S D ticks wall = .ok s) : AuthSound D s.auth ∧ s.world = World.start S ticks wall := by
  unfold start at h
  unfold AuthSound
  cases hfile : D.htpasswd with
  | none =>
    rw [hfile] at h
    cases h
    exact ⟨rfl, rfl⟩
  | some body =>
    rw [hfile] at h
    simp only at h
    split at h
    · rename_i users hparse
      cases h
      exact ⟨⟨users, load users, hparse, rfl, rfl, cacheSound_load users⟩, rfl⟩
    · cases h

/-- With a file, the header names one of its users with the right password. -/
theorem letIn_iff {D : Door} {auth : AuthState} (h : AuthSound D auth) (a : Arriving) :
    letIn D a = true ↔
      ∀ body, D.htpasswd = some body → Passes D.decode D.bcryptVerify body a.arrival := by
  unfold AuthSound at h
  cases hfile : D.htpasswd with
  | none => simp [letIn, hfile]
  | some body =>
    rw [hfile] at h
    obtain ⟨users, _, hparse, -⟩ := h
    simp only [letIn, hfile, hparse, Option.some.injEq, forall_eq']
    rw [Option.isSome_iff_exists]
    constructor
    · rintro ⟨user, hbind⟩
      obtain ⟨value, hvalue, hauth⟩ := Option.bind_eq_some_iff.mp hbind
      exact ⟨value, user, hvalue, (authenticate_iff hparse value user).mp hauth⟩
    · rintro ⟨value, user, hvalue, haccepts⟩
      refine ⟨user, ?_⟩
      rw [hvalue]
      exact (authenticate_iff hparse value user).mpr haccepts

/-- A refused header leaves the cache as it is. -/
theorem verifyBasic_refused {decode : Str → Option Bytes} {bcryptVerify : Str → Str → Bool}
    {store : HtpasswdStore} {value : Str} {now later : Nat}
    (h : (verifyBasic decode bcryptVerify store value now later).1 = none) :
    (verifyBasic decode bcryptVerify store value now later).2 = store := by
  have huncached : (verifyUncached decode bcryptVerify store value later).1 = none →
      (verifyUncached decode bcryptVerify store value later).2 = store := by
    intro h
    unfold verifyUncached at h ⊢
    split at h
    · cases h
    · rfl
  unfold verifyBasic at h ⊢
  split at h
  · split at h
    · cases h
    · rename_i hexpired
      rw [if_neg hexpired]
      exact huncached h
  · exact huncached h

/-- The middleware lets a request in, or refuses it and stays as it is. -/
theorem call_cases {D : Door} {auth : AuthState} (h : AuthSound D auth) (a : Arriving) :
    (letIn D a = true ∧ ∃ auth', AuthSound D auth' ∧ call D.decode D.bcryptVerify auth
        a.arrival.authorization a.arrival.now a.arrival.later = (.inner, auth')) ∨
    (letIn D a = false ∧ call D.decode D.bcryptVerify auth a.arrival.authorization a.arrival.now
        a.arrival.later = (.answered 401 "Basic realm=\"quill\"".toList, auth)) := by
  have hpasses := letIn_iff h a
  cases hfile : D.htpasswd with
  | none =>
    rw [AuthSound, hfile] at h
    subst h
    refine Or.inl ⟨by rw [letIn, hfile], ⟨none⟩, ?_, rfl⟩
    rw [AuthSound, hfile]
  | some body =>
    rw [AuthSound, hfile] at h
    obtain ⟨users, store, hparse, rfl, husers, hsound⟩ := h
    simp only [hfile, Option.some.injEq, forall_eq'] at hpasses
    obtain ⟨store', hcall, husers', hsound', hinner, hrefused⟩ := call_spec hparse husers hsound a.arrival
    cases hin : letIn D a with
    | true =>
      refine Or.inl ⟨rfl, ⟨some store'⟩, ?_, ?_⟩
      · rw [AuthSound, hfile]
        exact ⟨users, store', hparse, rfl, husers', hsound'⟩
      · rw [hcall, hinner.mpr (hpasses.mp hin)]
    | false =>
      have hno : ¬ Passes D.decode D.bcryptVerify body a.arrival := fun hp => by
        cases hin.symm.trans (hpasses.mpr hp)
      refine Or.inr ⟨rfl, Prod.ext (hrefused hno) ?_⟩
      have hrefused := hrefused hno
      unfold call at hrefused ⊢
      simp only at hrefused ⊢
      split at hrefused
      · cases hrefused
      · rename_i hnone
        change (AuthState.verify _ _ _ _ _ _).2 = _
        unfold AuthState.verify at hnone ⊢
        split at hnone
        · rename_i hstore
          cases hstore
          exact congrArg (fun st => (⟨some st⟩ : AuthState)) (verifyBasic_refused hnone)
        · rfl

/-! ## Runs -/

/-- One answered request: refused without a trace, or let in and answered by the router. -/
theorem receives_cases {D : Door} {s t : Front S} {v : Visit} (h : AuthSound D s.auth)
    (hv : Receives S D s v t) : AuthSound D t.auth ∧
      ((letIn D v.1 = false ∧ t = s ∧ v.2 = unauthorized) ∨
        (letIn D v.1 = true ∧ answer D v.1 s.world = (.ok v.2, t.world))) := by
  unfold Receives receive at hv
  rcases call_cases h v.1 with ⟨hin, auth', hsound, hcall⟩ | ⟨hout, hcall⟩
  · rw [hcall] at hv
    obtain ⟨hanswer, rfl⟩ := Prod.mk.inj hv
    exact ⟨hsound, Or.inr ⟨hin, Prod.ext hanswer rfl⟩⟩
  · rw [hcall] at hv
    obtain ⟨hanswer, rfl⟩ := Prod.mk.inj hv
    exact ⟨h, Or.inl ⟨hout, rfl, (Except.ok.inj hanswer).symm⟩⟩

theorem receives_refused {D : Door} {s t : Front S} {v : Visit} (h : AuthSound D s.auth)
    (hout : letIn D v.1 = false) : Receives S D s v t ↔ t = s ∧ v.2 = unauthorized := by
  constructor
  · intro hv
    rcases (receives_cases h hv).2 with ⟨-, hsame⟩ | ⟨hin, -⟩
    · exact hsame
    · cases hout.symm.trans hin
  · rintro ⟨rfl, hanswer⟩
    rcases call_cases h v.1 with ⟨hin, -⟩ | ⟨-, hcall⟩
    · cases hout.symm.trans hin
    · rw [Receives, receive, hcall, hanswer]
      rfl

/-- The router answers out of the registry, or without it. -/
theorem answer_cases {D : Door} {a : Arriving} {x : Answer} {w w' : World S}
    (h : answer D a w = (.ok x, w')) (hin : letIn D a = true) :
    (∃ e, exchange D (a, x) = some e ∧ Exchanges S w e w') ∨ (exchange D (a, x) = none ∧ w' = w) := by
  unfold answer at h
  unfold exchange
  rw [if_pos hin]
  cases htarget : target D a.path with
  | check =>
    rw [htarget] at h
    cases h
    exact Or.inr ⟨rfl, rfl⟩
  | undecodable =>
    rw [htarget] at h
    cases h
    exact Or.inr ⟨rfl, rfl⟩
  | unknown =>
    rw [htarget] at h
    cases h
    exact Or.inr ⟨rfl, rfl⟩
  | dispatch rest =>
    rw [htarget] at h
    simp only at h
    split at h
    · rename_i resp w₁ hrun
      cases h
      exact Or.inl ⟨_, rfl, hrun⟩
    · cases h

theorem receives_exchange {D : Door} {s t : Front S} {v : Visit} (h : AuthSound D s.auth)
    (hv : Receives S D s v t) :
    (∃ e, exchange D v = some e ∧ Exchanges S s.world e t.world) ∨
      (exchange D v = none ∧ t.world = s.world) := by
  rcases (receives_cases h hv).2 with ⟨hout, rfl, -⟩ | ⟨hin, hanswer⟩
  · refine Or.inr ⟨?_, rfl⟩
    rw [exchange, hout]
    rfl
  · exact answer_cases hanswer hin

/-- The registry behind the door serves the requests that get to it, one after the other. -/
theorem trace_seen {D : Door} {s t : Front S} {vs : List Visit} (h : AuthSound D s.auth)
    (hvs : Trace (Receives S D) s vs t) :
    AuthSound D t.auth ∧ Trace (Exchanges S) s.world (seen D vs) t.world := by
  refine hvs.filterMap (g := Front.world) (I := fun s => AuthSound D s.auth)
    (fun hs hv => (receives_cases hs hv).1) ?_ ?_ h
  · intro s v e t hs hv he
    rcases receives_exchange hs hv with ⟨e', he', hrun⟩ | ⟨hnone, -⟩
    · cases he.symm.trans he'
      exact hrun
    · cases he.symm.trans hnone
  · intro s v t hs hv hnone
    rcases receives_exchange hs hv with ⟨e', he', -⟩ | ⟨-, hsame⟩
    · cases hnone.symm.trans he'
    · exact hsame

/-- The requests that are not let in can be taken out of a run, or put into it, without a change of
the other answers or of the last state. -/
theorem trace_filter_letIn {D : Door} {s t : Front S} {vs : List Visit} (h : AuthSound D s.auth) :
    Trace (Receives S D) s vs t ↔ Trace (Receives S D) s (vs.filter fun v => letIn D v.1) t ∧
      ∀ v ∈ vs, letIn D v.1 = false → v.2 = unauthorized :=
  Trace.filter_iff (I := fun s => AuthSound D s.auth) (fun hs hv => (receives_cases hs hv).1)
    (fun hs hout => receives_refused hs hout) h

/-- Whatever requests come that the file does not let in, the others get the same answers and the server
ends in the same state as without them, its authentication cache included. This holds from every state
whose cache is sound, as it is at a start and after every run. -/
theorem strangers_change_nothing (S : Setup) (D : Door) :
    (∀ ticks wall s₀, start S D ticks wall = .ok s₀ → AuthSound D s₀.auth) ∧
    ∀ (s₀ s : Front S) (vs : List Visit), AuthSound D s₀.auth →
      (Trace (Receives S D) s₀ vs s → AuthSound D s.auth) ∧
      (Trace (Receives S D) s₀ vs s ↔ Trace (Receives S D) s₀ (vs.filter fun v => letIn D v.1) s ∧
        ∀ v ∈ vs, letIn D v.1 = false → v.2 = unauthorized) :=
  ⟨fun _ _ _ hstart => (authSound_start hstart).1, fun _ _ _ hsound =>
    ⟨fun htrace => (trace_seen hsound htrace).1, trace_filter_letIn hsound⟩⟩

/-! ## Runs of given requests -/

def receiveAll (D : Door) (s : Front S) : List Arriving → Option (List Answer × Front S)
  | [] => some ([], s)
  | a :: rest =>
    match receive D a s with
    | (.ok x, s') => (receiveAll D s' rest).map fun p => (x :: p.1, p.2)
    | _ => none

theorem trace_receiveAll {D : Door} {s₀ s t : Front S} {vs : List Visit} {as : List Arriving}
    {xs : List Answer} (h : Trace (Receives S D) s₀ vs s) (hall : receiveAll D s as = some (xs, t)) :
    Trace (Receives S D) s₀ (vs ++ as.zip xs) t := by
  induction as generalizing s vs xs with
  | nil =>
    cases hall
    rwa [List.zip_nil_left, List.append_nil]
  | cons a as ih =>
    unfold receiveAll at hall
    rcases hrun : receive D a s with ⟨e | x, s'⟩
    · rw [hrun] at hall
      cases hall
    · rw [hrun] at hall
      obtain ⟨⟨xs', t'⟩, hrest, hpair⟩ := Option.map_eq_some_iff.mp hall
      cases hpair
      have htrace := ih (.snoc (l := (a, x)) h hrun) hrest
      rwa [List.append_assoc] at htrace

/-! Alice pushes a tag and lists the tags, while somebody without a password tries to delete it. -/

def frontDoor : Door := ⟨some sampleFile, sampleDecode, sampleVerify, some⟩

def fromAlice (req : Request) (now : Nat) : Arriving :=
  ⟨⟨some (Codec.utf8 sampleHeader), now, now⟩, "/v2/".toList ++ req.rest, req⟩

def fromStranger (req : Request) : Arriving := ⟨⟨none, 0, 0⟩, "/v2/".toList ++ req.rest, req⟩

def deleteApp : Request := ⟨.delete, "app/manifests/v1".toList, none, none, none, none, noReplies⟩

def checkApi : Request := ⟨.get, [], none, none, none, none, noReplies⟩

def frontArrivals : List Arriving :=
  [fromStranger checkApi, fromAlice checkApi 0, fromAlice pushApp 1, fromStranger deleteApp,
    fromAlice listApp 400]

def frontAnswers : List Answer :=
  [unauthorized, v2Check .get, .registry pushAppCreated, unauthorized,
    .registry (listing (.tags "app".toList ["v1".toList]))]

def frontStart : Front ManifestPuts.blankServer := ⟨⟨some (load sampleUsers)⟩, ManifestPuts.fresh⟩

theorem front_run : start ManifestPuts.blankServer frontDoor [] [] = .ok frontStart ∧
    ∃ s : Front ManifestPuts.blankServer,
      Trace (Receives ManifestPuts.blankServer frontDoor) frontStart (frontArrivals.zip frontAnswers) s ∧
        s.world.log.ioFailed = false := by
  refine ⟨rfl, ?_⟩
  have hrun : ((receiveAll frontDoor frontStart frontArrivals).map fun p =>
      (p.1, p.2.world.log.ioFailed)) = some (frontAnswers, false) := by decide +kernel
  obtain ⟨⟨xs, s⟩, hall, hpair⟩ := Option.map_eq_some_iff.mp hrun
  obtain ⟨rfl, hok⟩ := Prod.mk.inj hpair
  exact ⟨s, trace_receiveAll .nil hall, hok⟩

theorem alice_run_without_stranger : ∃ s : Front ManifestPuts.blankServer,
    Trace (Receives ManifestPuts.blankServer frontDoor) frontStart
      ((frontArrivals.zip frontAnswers).filter fun v => letIn frontDoor v.1) s := by
  obtain ⟨hstart, s, htrace, -⟩ := front_run
  obtain ⟨hsound, hruns⟩ := strangers_change_nothing ManifestPuts.blankServer frontDoor
  exact ⟨s, ((hruns frontStart s _ (hsound [] [] frontStart hstart)).2.mp htrace).1⟩

end Quill.Server
