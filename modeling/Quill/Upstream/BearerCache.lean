import Quill.Base.Runs
import Quill.Upstream.Challenge
import Quill.Upstream.Router

/-!
# The cache of bearer tokens

`BearerCache` of `quill-upstream`. A call of `fetch` first looks into the cache; without a
token that is still valid there, it sends a request to the token endpoint, and when the reply
comes it stores the token and returns it. Calls on one cache run at the same time, and the
clock goes on while they wait.

A token is kept for `max expires_in 30 - 15` seconds from the moment it is stored, counted by a
clock with a largest instant; an addition beyond that instant panics, and the release build
aborts. So a short lifetime is kept too long and a huge one ends the process
(`lifetimes_break_the_cache`). Where each stored token has at least 15 seconds to live, came soon
enough after it was issued and ends within the clock's range (`Sound`), no run aborts
and every token that is returned from the cache is alive (`cached_tokens_are_alive`).

Instants are counted in nanoseconds. `limit` is the largest one, and `urlParses` says which
texts `url::Url::parse` accepts.
-/

namespace Quill.Upstream.Bearer

open Text

/-- The errors of the authentication. -/
inductive AuthError where
  | transport
  | malformedChallenge
  | tokenStatus (code : Nat)
  deriving DecidableEq

/-- The fields of a token response. -/
structure TokenResponse where
  token : Option Str
  accessToken : Option Str
  expiresIn : Option UInt64
  deriving DecidableEq

/-- A reply of the token endpoint; `body` is `none` when it is not the JSON of a token response. -/
structure TokenReply where
  status : Nat
  body : Option TokenResponse
  deriving DecidableEq

/-- A token with the time up to which it is used. -/
structure CachedToken where
  bearer : Str
  validUntil : Nat
  deriving DecidableEq

/-- The realm and the scope. -/
abbrev Key := Str × Str

/-- The tokens by realm and scope. -/
abbrev BearerCache := AList fun _ : Key => CachedToken

/-- A second of the clock. -/
def second : Nat := 1000000000

/-- `expires_in`, or a minute. -/
def lifetime (expiresIn : Option UInt64) : Nat := (expiresIn.map UInt64.toNat).getD 60

/-- The seconds for which `fetch` keeps a token. -/
def ttl (expiresIn : Option UInt64) : Nat := max (lifetime expiresIn) 30 - 15

namespace BearerCache

/-- `BearerCache::get`. -/
def get (cache : BearerCache) (key : Key) (now : Nat) : Option Str :=
  match cache.lookup key with
  | none => none
  | some entry => if entry.validUntil > now then some entry.bearer else none

/-- `BearerCache::insert`; `none` is the panic of `Instant::now() + ttl`. -/
def insert (limit : Nat) (cache : BearerCache) (key : Key) (bearer : Str) (ttl now : Nat) :
    Option BearerCache :=
  if now + second * ttl ≤ limit then some (AList.insert key ⟨bearer, now + second * ttl⟩ cache)
  else none

end BearerCache

/-! ## Calls of `fetch` -/

/-- The request to the token endpoint. -/
structure TokenQuery where
  realm : Str
  pairs : List (Str × Str)
  basicAuth : Option (Str × Str)
  deriving DecidableEq

/-- The request that `fetch` sends. -/
def tokenQuery (req : TokenRequest) (mode : AuthMode) : TokenQuery where
  realm := req.realm
  pairs := (req.service.toList.map fun s => ("service".toList, s)) ++
    req.scope.toList.map fun s => ("scope".toList, s)
  basicAuth :=
    match mode with
    | .anonymous => none
    | .basic username password => some (username, password)

/-- The token of a reply and its lifetime; `none` is a request that failed. -/
def tokenOf (reply : Option TokenReply) : Except AuthError (Str × Option UInt64) :=
  match reply with
  | none => .error .transport
  | some r =>
    if 200 ≤ r.status ∧ r.status < 300 then
      match r.body with
      | none => .error .transport
      | some parsed =>
        match parsed.token.or parsed.accessToken with
        | none => .error .malformedChallenge
        | some bearer => .ok (bearer, parsed.expiresIn)
    else .error (.tokenStatus r.status)

/-- A token that was stored, with the moment the endpoint issued it. -/
structure Mint where
  key : Key
  bearer : Str
  expiresIn : Option UInt64
  issued : Nat
  deriving DecidableEq

/-- The shared memory: the cache, the clock, the tokens that have been stored, and whether the
process has aborted. -/
structure Client where
  cache : BearerCache
  now : Nat
  mints : List Mint
  aborted : Bool

/-- Where a call of `fetch` is: before its lookup, waiting for the reply, or returned, from the
cache at some time, with a new token, or with an error. -/
inductive Fetch where
  | lookup (req : TokenRequest) (mode : AuthMode)
  | waiting (req : TokenRequest) (query : TokenQuery)
  | cached (key : Key) (bearer : Str) (time : Nat)
  | minted (bearer : Str)
  | failed (e : AuthError)
  deriving DecidableEq

/-- `fetch` up to the request. -/
def ask (urlParses : Str → Bool) (m : Client) : Fetch → Option (Client × Fetch)
  | .lookup req mode =>
    some (m,
      match m.cache.get req.cacheKey m.now with
      | some bearer => .cached req.cacheKey bearer m.now
      | none =>
        if urlParses req.realm then .waiting req (tokenQuery req mode)
        else .failed .malformedChallenge)
  | _ => none

/-- `fetch` from the reply on. -/
def answer (limit : Nat) (reply : Option TokenReply) (issued : Nat) (m : Client) :
    Fetch → Option (Client × Fetch)
  | .waiting req query =>
    some (match tokenOf reply with
      | .error e => (m, .failed e)
      | .ok (bearer, expiresIn) =>
        match m.cache.insert limit req.cacheKey bearer (ttl expiresIn) m.now with
        | none => ({ m with aborted := true }, .waiting req query)
        | some cache =>
          ({ m with cache := cache, mints := ⟨req.cacheKey, bearer, expiresIn, issued⟩ :: m.mints },
            .minted bearer))
  | _ => none

/-- Time passes, or a call comes, asks the token endpoint, or gets its reply. -/
inductive Act where
  | advance (dt : Nat)
  | call (req : TokenRequest) (mode : AuthMode)
  | ask (i : Nat)
  | answer (i : Nat) (reply : Option TokenReply) (issued : Nat)

/-- One step, while the process lives. A token is issued before its reply comes. -/
def step (limit : Nat) (urlParses : Str → Bool) (s : Pool Client Fetch) (act : Act) :
    Option (Pool Client Fetch) :=
  if s.memory.aborted then none
  else
    match act with
    | .advance dt => some { s with memory := { s.memory with now := s.memory.now + dt } }
    | .call req mode => some (s.spawn (.lookup req mode))
    | .ask i => s.turn (Bearer.ask urlParses) i
    | .answer i reply issued =>
      if issued ≤ s.memory.now then s.turn (Bearer.answer limit reply issued) i else none

/-- A process that has not fetched a token yet. -/
def start (now : Nat) : Pool Client Fetch := ⟨⟨∅, now, [], false⟩, []⟩

/-! ## Tokens that are alive -/

/-- The token was issued earlier, by less than its lifetime. -/
def Alive (mints : List Mint) (key : Key) (bearer : Str) (time : Nat) : Prop :=
  ∃ m ∈ mints, m.key = key ∧ m.bearer = bearer ∧ m.issued ≤ time ∧
    time < m.issued + second * lifetime m.expiresIn

/-- The expiry of a token that is stored now is within the range of the clock; the token lives for
at least 15 seconds, and it was not issued longer ago than the margin by which it is kept
shorter than it lives. -/
def Fits (limit now issued : Nat) (expiresIn : Option UInt64) : Prop :=
  now + second * ttl expiresIn ≤ limit ∧ 15 ≤ lifetime expiresIn ∧
    now - issued ≤ second * min 15 (lifetime expiresIn - 15)

instance (limit now issued : Nat) (expiresIn : Option UInt64) :
    Decidable (Fits limit now issued expiresIn) := inferInstanceAs (Decidable (_ ∧ _ ∧ _))

/-- A token that is stored fits. -/
def Sound (limit : Nat) (s : Pool Client Fetch) : Act → Prop
  | .answer _ reply issued =>
    match tokenOf reply with
    | .error _ => True
    | .ok (_, expiresIn) => Fits limit s.memory.now issued expiresIn
  | _ => True

instance (limit : Nat) : DecidableRel (Sound limit) := fun s act =>
  match act with
  | .advance _ => .isTrue trivial
  | .call _ _ => .isTrue trivial
  | .ask _ => .isTrue trivial
  | .answer _ reply _ => by
    unfold Sound
    simp only
    split <;> infer_instance

/-- The margins are those of the seconds that `fetch` keeps a token. -/
theorem kept_within_lifetime_iff {expiresIn : Option UInt64} {issued now : Nat}
    (h : issued ≤ now) :
    now + second * ttl expiresIn ≤ issued + second * lifetime expiresIn ↔
      15 ≤ lifetime expiresIn ∧ now - issued ≤ second * min 15 (lifetime expiresIn - 15) := by
  unfold ttl second
  omega

theorem get_eq_some {cache : BearerCache} {key : Key} {now : Nat} {bearer : Str} :
    cache.get key now = some bearer ↔
      ∃ entry, cache.lookup key = some entry ∧ entry.validUntil > now ∧ entry.bearer = bearer := by
  unfold BearerCache.get
  cases cache.lookup key with
  | none => simp
  | some entry =>
    by_cases h : entry.validUntil > now
    · simp [h]
    · simp [h]

theorem insert_eq_some {limit : Nat} {cache cache' : BearerCache} {key : Key} {bearer : Str}
    {ttl now : Nat} :
    cache.insert limit key bearer ttl now = some cache' ↔
      now + second * ttl ≤ limit ∧
        cache' = AList.insert key ⟨bearer, now + second * ttl⟩ cache := by
  unfold BearerCache.insert
  by_cases h : now + second * ttl ≤ limit
  · simp [h, eq_comm]
  · simp [h]

/-! ## Runs -/

theorem Alive.mono {mints mints' : List Mint} {key : Key} {bearer : Str} {time : Nat}
    (h : Alive mints key bearer time) (hsub : mints ⊆ mints') : Alive mints' key bearer time := by
  obtain ⟨m, hm, hrest⟩ := h
  exact ⟨m, hsub hm, hrest⟩

/-- The entry ends before the life of a stored token with its key and text does. -/
def Covered (mints : List Mint) (now : Nat) (key : Key) (entry : CachedToken) : Prop :=
  ∃ m ∈ mints, m.key = key ∧ m.bearer = entry.bearer ∧ m.issued ≤ now ∧
    entry.validUntil ≤ m.issued + second * lifetime m.expiresIn

theorem Covered.mono {mints mints' : List Mint} {now now' : Nat} {key : Key} {entry : CachedToken}
    (h : Covered mints now key entry) (hsub : mints ⊆ mints') (hnow : now ≤ now') :
    Covered mints' now' key entry := by
  obtain ⟨m, hm, hkey, hbearer, hissued, hvalid⟩ := h
  exact ⟨m, hsub hm, hkey, hbearer, hissued.trans hnow, hvalid⟩

/-- A token that fits is covered by itself. -/
theorem covered_of_fits {mints : List Mint} {now issued : Nat} {key : Key} {bearer : Str}
    {expiresIn : Option UInt64} (h : issued ≤ now)
    {limit : Nat} (hfits : Fits limit now issued expiresIn) :
    Covered (⟨key, bearer, expiresIn, issued⟩ :: mints) now key
      ⟨bearer, now + second * ttl expiresIn⟩ := by
  have hkept := (kept_within_lifetime_iff h).mpr hfits.2
  exact ⟨⟨key, bearer, expiresIn, issued⟩, List.mem_cons_self, rfl, rfl, h, hkept⟩

/-- The invariant of sound runs. -/
structure Good (s : Pool Client Fetch) : Prop where
  running : s.memory.aborted = false
  covered : ∀ key entry, s.memory.cache.lookup key = some entry →
    Covered s.memory.mints s.memory.now key entry
  alive : ∀ key bearer time, Fetch.cached key bearer time ∈ s.tasks →
    Alive s.memory.mints key bearer time

theorem good_start (now : Nat) : Good (start now) where
  running := rfl
  covered := fun _ _ h => by cases h
  alive := fun _ _ _ h => absurd h List.not_mem_nil

/-- What is valid in the cache is alive. -/
theorem Good.get_alive {s : Pool Client Fetch} (h : Good s) {key : Key} {bearer : Str}
    (hget : s.memory.cache.get key s.memory.now = some bearer) :
    Alive s.memory.mints key bearer s.memory.now := by
  obtain ⟨entry, hlookup, hvalid, hbearer⟩ := get_eq_some.mp hget
  obtain ⟨m, hm, hkey, htext, hissued, hends⟩ := h.covered key entry hlookup
  exact ⟨m, hm, hkey, htext.trans hbearer, hissued, by omega⟩

/-- A turn that only grows the tokens keeps the calls that have returned. -/
theorem Good.alive_replace {before after : List Fetch} {p p' : Fetch} {m m' : Client}
    (h : Good ⟨m, before ++ p :: after⟩) (hsub : m.mints ⊆ m'.mints)
    (hp : ∀ key bearer time, p' = .cached key bearer time → Alive m'.mints key bearer time) :
    ∀ key bearer time, Fetch.cached key bearer time ∈ before ++ p' :: after →
      Alive m'.mints key bearer time := by
  intro key bearer time hmem
  rcases Pool.mem_replace hmem with heq | ⟨-, hold⟩
  · exact hp key bearer time heq.symm
  · exact (h.alive key bearer time hold).mono hsub

theorem Good.ask {urlParses : Str → Bool} {s t : Pool Client Fetch} {i : Nat} (h : Good s)
    (hturn : s.turn (Bearer.ask urlParses) i = some t) : Good t := by
  obtain ⟨before, p, after, m, p', -, htasks, hadvance, rfl⟩ := Pool.turn_cases hturn
  obtain ⟨memory, tasks⟩ := s
  simp only at htasks hadvance
  subst htasks
  cases p with
  | lookup req mode =>
    simp only [Bearer.ask, Option.some.injEq, Prod.mk.injEq] at hadvance
    obtain ⟨rfl, hp'⟩ := hadvance
    refine ⟨h.running, h.covered, h.alive_replace (fun _ hm => hm) fun key bearer time heq => ?_⟩
    rw [heq] at hp'
    split at hp'
    · rename_i b hget
      cases hp'
      exact h.get_alive hget
    · split at hp' <;> cases hp'
  | waiting req query => cases hadvance
  | cached key bearer time => cases hadvance
  | minted bearer => cases hadvance
  | failed e => cases hadvance

theorem Good.answer {limit : Nat} {s t : Pool Client Fetch} {i issued : Nat}
    {reply : Option TokenReply} (h : Good s) (hissued : issued ≤ s.memory.now)
    (hsound : Sound limit s (.answer i reply issued))
    (hturn : s.turn (Bearer.answer limit reply issued) i = some t) : Good t := by
  obtain ⟨before, p, after, m, p', -, htasks, hadvance, rfl⟩ := Pool.turn_cases hturn
  obtain ⟨memory, tasks⟩ := s
  simp only [Sound] at htasks hadvance hissued hsound
  subst htasks
  cases p with
  | waiting req query =>
    simp only [Bearer.answer, Option.some.injEq] at hadvance
    cases htoken : tokenOf reply with
    | error e =>
      simp only [htoken, Prod.mk.injEq] at hadvance
      obtain ⟨rfl, rfl⟩ := hadvance
      exact ⟨h.running, h.covered, h.alive_replace (fun _ hm => hm) fun _ _ _ heq => by cases heq⟩
    | ok token =>
      obtain ⟨bearer, expiresIn⟩ := token
      simp only [htoken] at hadvance hsound
      simp only [insert_eq_some.mpr ⟨hsound.1, rfl⟩, Prod.mk.injEq] at hadvance
      obtain ⟨rfl, rfl⟩ := hadvance
      refine ⟨h.running, fun key entry hlookup => ?_,
        h.alive_replace (List.subset_cons_self _ _) fun _ _ _ heq => by cases heq⟩
      simp only at hlookup ⊢
      by_cases hkey : key = req.cacheKey
      · rw [hkey, AList.lookup_insert, Option.some.injEq] at hlookup
        rw [hkey, ← hlookup]
        exact covered_of_fits hissued hsound
      · rw [AList.lookup_insert_ne hkey] at hlookup
        exact (h.covered key entry hlookup).mono (List.subset_cons_self _ _) le_rfl
  | lookup req mode => cases hadvance
  | cached key bearer time => cases hadvance
  | minted bearer => cases hadvance
  | failed e => cases hadvance

/-- A sound step keeps the invariant. -/
theorem Good.step {limit : Nat} {urlParses : Str → Bool} {s t : Pool Client Fetch} {act : Act}
    (h : Good s) (hsound : Sound limit s act) (hstep : Bearer.step limit urlParses s act = some t) :
    Good t := by
  unfold Bearer.step at hstep
  rw [h.running] at hstep
  simp only [Bool.false_eq_true, if_false] at hstep
  cases act with
  | advance dt =>
    cases hstep
    refine ⟨h.running, fun key entry hlookup => ?_, h.alive⟩
    exact (h.covered key entry hlookup).mono (fun _ hm => hm) (Nat.le_add_right _ _)
  | call req mode =>
    cases hstep
    refine ⟨h.running, h.covered, fun key bearer time hmem => ?_⟩
    rcases List.mem_append.mp hmem with hmem | hmem
    · exact h.alive key bearer time hmem
    · cases List.mem_singleton.mp hmem
  | ask i => exact h.ask hstep
  | answer i reply issued =>
    simp only at hstep
    split at hstep
    · rename_i hissued
      exact h.answer hissued hsound hstep
    · cases hstep

/-- In every run whose stored tokens are sound, the process does not abort and every token that
a call has returned from the cache was issued less than its lifetime earlier. -/
theorem cached_tokens_are_alive {limit : Nat} {urlParses : Str → Bool} {now : Nat}
    {s : Pool Client Fetch}
    (hrun : (runs (step limit urlParses) (Sound limit)).rel (start now) s) :
    s.memory.aborted = false ∧
      ∀ key bearer time, Fetch.cached key bearer time ∈ s.tasks →
        Alive s.memory.mints key bearer time := by
  have hgood : Good s := by
    refine Evolution.star_keep (I := Good) ?_ hrun (good_start now)
    intro s t ⟨act, hsound, hstep⟩ h
    exact h.step hsound hstep
  exact ⟨hgood.running, hgood.alive⟩

/-! A clock of signed 64-bit seconds. -/

def unixLimit : Nat := 2 ^ 63 * second - 1

def someRequest : TokenRequest := ⟨"https://auth/token".toList, none, none⟩

def tokenReply (expiresIn : Option UInt64) : Option TokenReply :=
  some ⟨200, some ⟨some "t".toList, none, expiresIn⟩⟩

/-- A token without a stated lifetime is returned again half a minute later. -/
theorem default_lifetime_is_alive :
    ∃ s : Pool Client Fetch,
      Fetch.cached someRequest.cacheKey "t".toList (30 * second) ∈ s.tasks ∧
      s.memory.aborted = false ∧
      Alive s.memory.mints someRequest.cacheKey "t".toList (30 * second) := by
  obtain ⟨s, hrun, hmem⟩ := exists_run_of_follow (step unixLimit fun _ => true) (Sound unixLimit)
    (start 0)
    [.call someRequest .anonymous, .ask 0, .answer 0 (tokenReply none) 0, .advance (30 * second),
      .call someRequest .anonymous, .ask 1]
    (fun s => Fetch.cached someRequest.cacheKey "t".toList (30 * second) ∈ s.tasks)
    (by decide +kernel)
  have halive := cached_tokens_are_alive hrun
  exact ⟨s, hmem, halive.1, halive.2 _ _ _ hmem⟩

/-- A token that lives for five seconds is returned ten seconds after it was issued, and the
largest lifetime aborts the process. -/
theorem lifetimes_break_the_cache :
    (∃ s, (runs (step unixLimit fun _ => true) anyStep).rel (start 0) s ∧
      Fetch.cached someRequest.cacheKey "t".toList (10 * second) ∈ s.tasks ∧
      ¬ Alive s.memory.mints someRequest.cacheKey "t".toList (10 * second)) ∧
    ∃ s, (runs (step unixLimit fun _ => true) anyStep).rel (start 0) s ∧
      s.memory.aborted = true := by
  constructor
  · obtain ⟨s, hrun, hmem, hmints⟩ := exists_run_of_follow (step unixLimit fun _ => true) anyStep
      (start 0)
      [.call someRequest .anonymous, .ask 0, .answer 0 (tokenReply (some 5)) 0,
        .advance (10 * second), .call someRequest .anonymous, .ask 1]
      (fun s => Fetch.cached someRequest.cacheKey "t".toList (10 * second) ∈ s.tasks ∧
        ∀ m ∈ s.memory.mints, m = ⟨someRequest.cacheKey, "t".toList, some 5, 0⟩)
      (by decide +kernel)
    refine ⟨s, hrun, hmem, fun halive => ?_⟩
    obtain ⟨m, hm, -, -, -, halive⟩ := halive
    rw [hmints m hm] at halive
    revert halive
    decide +kernel
  · exact exists_run_of_follow (step unixLimit fun _ => true) anyStep (start 0)
      [.call someRequest .anonymous, .ask 0, .answer 0 (tokenReply (some 18446744073709551615)) 0]
      (fun s => s.memory.aborted = true) (by decide +kernel)

end Quill.Upstream.Bearer
