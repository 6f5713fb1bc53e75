import Quill.Storage.Codec

/-!
# Basic authentication against an htpasswd file

`HtpasswdStore` and `AuthMiddleware` of `quill-auth`. The users of the file are read once; a
successful verification is cached for some time under the raw value of the header. Base64
decoding and the verification by bcrypt are the parameters `decode` and `bcryptVerify`.

`Accepts` says what a header has to be for a user to be let in, in terms of the lines of the
file. The cache only holds such headers (`CacheSound`), whatever requests came before and however the
clock goes, so it changes no answer (`authentication_is_transparent`).
-/

namespace Quill.Auth

open Text

/-! ## The file -/

/-- The end of a line that was ended by a line feed. -/
def stripReturn (line : Str) : Str := (stripSuffix ['\r'] line).getD line

/-- `str::lines`: a last line that is empty does not count. -/
def lines (s : Str) : List Str :=
  let parts := s.splitOn '\n'
  parts.dropLast.map stripReturn ++ parts.getLast?.toList.filter (· ≠ [])

/-- A line of the file that is no `user:hash` pair. -/
inductive HtpasswdError where
  | invalidLine (lineNo : Nat)
  deriving DecidableEq

/-- The hashes of the users. -/
abbrev Users := AList fun _ : Str => Str

/-- A trimmed line that is skipped. -/
def skipped (line : Str) : Bool := line.isEmpty || line.head? = some '#'

/-- The loop over the lines; a user that occurs again replaces the earlier one. -/
def parseLines : List (Str × Nat) → Users → Except HtpasswdError Users
  | [], out => .ok out
  | (raw, i) :: rest, out =>
    let line := trim raw
    if skipped line then parseLines rest out
    else
      match splitOnce ':' line with
      | none => .error (.invalidLine (i + 1))
      | some (user, hash) => parseLines rest (out.insert user hash)

/-- `parse_file` on the text of the file. -/
def parseFile (body : Str) : Except HtpasswdError Users := parseLines (lines body).zipIdx ∅

/-! ## The store -/

/-- `auth_cache_ttl`, in seconds. -/
def authCacheTtl : Nat := 300

/-- The users, and for each cached header value its user and the end of its validity. -/
structure HtpasswdStore where
  users : Users
  authCache : AList fun _ : Str => Str × Nat

/-- `HtpasswdStore::load`. -/
def load (users : Users) : HtpasswdStore := ⟨users, ∅⟩

section Verify

variable (decode : Str → Option Bytes) (bcryptVerify : Str → Str → Bool)

/-- `str::strip_prefix`. -/
def stripPrefix (start s : Str) : Option Str :=
  if start.isPrefixOf s then some (s.drop start.length) else none

/-- `verify_basic` without its cache. -/
def authenticate (users : Users) (value : Str) : Option Str := do
  let creds ← stripPrefix "Basic ".toList value
  let bytes ← decode (trim creds)
  let decoded ← Codec.ofUtf8 bytes
  let (user, password) ← splitOnce ':' decoded
  let hash ← users.lookup user
  if bcryptVerify password hash then some user else none

/-- The part of `verify_basic` after the cache was asked, at a further reading of the clock. -/
def verifyUncached (store : HtpasswdStore) (value : Str) (now : Nat) :
    Option Str × HtpasswdStore :=
  match authenticate decode bcryptVerify store.users value with
  | some user =>
    (some user,
      { store with authCache := store.authCache.insert value (user, now + authCacheTtl) })
  | none => (none, store)

/-- `HtpasswdStore::verify_basic`. The clock is read when the cache has an entry and when one is
made. -/
def verifyBasic (store : HtpasswdStore) (value : Str) (now later : Nat) :
    Option Str × HtpasswdStore :=
  match store.authCache.lookup value with
  | some (user, validUntil) =>
    if now < validUntil then (some user, store) else verifyUncached decode bcryptVerify store value later
  | none => verifyUncached decode bcryptVerify store value later

/-! ## The middleware -/

/-- `HeaderValue::to_str`: only visible ASCII is text. -/
def toStr (raw : Bytes) : Option Str :=
  if raw.all fun b => (32 ≤ b.toNat && b.toNat < 127) || b.toNat = 9 then
    some (raw.map fun b => Char.ofNat b.toNat)
  else none

/-- `AuthState`: without a store nothing is checked. -/
structure AuthState where
  htpasswd : Option HtpasswdStore

/-- `AuthState::verify`. -/
def AuthState.verify (state : AuthState) (header : Option Str) (now later : Nat) :
    Option Str × AuthState :=
  match header, state.htpasswd with
  | some value, some store =>
    let r := verifyBasic decode bcryptVerify store value now later
    (r.1, ⟨some r.2⟩)
  | _, _ => (none, state)

/-- What becomes of a request: the inner service gets it, or it is answered at once. -/
inductive Handled where
  | inner
  | answered (status : Nat) (wwwAuthenticate : Str)
  deriving DecidableEq

/-- `AuthMiddleware::call` on a request with this `Authorization` header. -/
def call (state : AuthState) (authorization : Option Bytes) (now later : Nat) :
    Handled × AuthState :=
  match state.htpasswd with
  | none => (.inner, state)
  | some _ =>
    let r := state.verify decode bcryptVerify (authorization.bind toStr) now later
    match r.1 with
    | some _ => (.inner, r.2)
    | none => (.answered 401 "Basic realm=\"quill\"".toList, r.2)

end Verify

/-! ## What the file says -/

/-- The lines of the file that name a user. -/
def entryLines (body : Str) : List Str := ((lines body).map trim).filter fun line => !skipped line

/-- The last of the lines that start with the user and a colon. -/
def LastOf (entries : List Str) (user hash : Str) : Prop :=
  ∃ before after, entries = before ++ (user ++ ':' :: hash) :: after ∧
    ∀ line ∈ after, ¬ (user ++ [':']) <+: line

/-- A line starts with a user and a colon exactly when it splits there. -/
theorem prefix_iff_split {user u h line : Str} (hsplit : splitOnce ':' line = some (u, h))
    (huser : ':' ∉ user) : (user ++ [':']) <+: line ↔ user = u := by
  obtain ⟨rfl, hu⟩ := splitOnce_eq_some.mp hsplit
  constructor
  · rintro ⟨rest, he⟩
    have hline : splitOnce ':' (u ++ ':' :: h) = some (user, rest) :=
      splitOnce_eq_some.mpr ⟨by rw [← he, List.append_assoc]; rfl, huser⟩
    rw [splitOnce_eq_some.mpr ⟨rfl, hu⟩] at hline
    cases hline
    rfl
  · rintro rfl
    exact ⟨h, by rw [List.append_assoc]; rfl⟩

/-- The map that `parse_file` builds holds the hash of the last line of each user. -/
theorem lookup_parseLines (ls : List (Str × Nat)) (out users : Users)
    (h : parseLines ls out = .ok users) {user : Str} (huser : ':' ∉ user) (hash : Str) :
    users.lookup user = some hash ↔
      LastOf ((ls.map fun l => trim l.1).filter fun line => !skipped line) user hash ∨
        ((∀ line ∈ (ls.map fun l => trim l.1).filter fun line => !skipped line,
          ¬ (user ++ [':']) <+: line) ∧ out.lookup user = some hash) := by
  induction ls generalizing out with
  | nil =>
    cases h
    simp [LastOf]
  | cons l ls ih =>
    obtain ⟨raw, i⟩ := l
    rw [parseLines] at h
    simp only [List.map_cons] at h ⊢
    by_cases hskip : skipped (trim raw) = true
    · rw [if_pos hskip] at h
      rw [List.filter_cons_of_neg (by simp [hskip])]
      exact ih out h
    · rw [if_neg hskip] at h
      rw [List.filter_cons_of_pos (by simp [hskip])]
      cases hsplit : splitOnce ':' (trim raw) with
      | none =>
        rw [hsplit] at h
        cases h
      | some pair =>
        obtain ⟨u, hu⟩ := pair
        rw [hsplit] at h
        rw [ih (out.insert u hu) h]
        generalize (ls.map fun l => trim l.1).filter (fun line => !skipped line) = entries
        have hline : trim raw = u ++ ':' :: hu := (splitOnce_eq_some.mp hsplit).1
        have hstarts := prefix_iff_split hsplit huser
        constructor
        · rintro (⟨before, after, rfl, hafter⟩ | ⟨hnone, hlook⟩)
          · exact Or.inl ⟨trim raw :: before, after, rfl, hafter⟩
          · by_cases he : user = u
            · subst he
              rw [AList.lookup_insert] at hlook
              cases hlook
              exact Or.inl ⟨[], entries, by rw [hline]; rfl, hnone⟩
            · rw [AList.lookup_insert_ne he] at hlook
              refine Or.inr ⟨fun line hmem => ?_, hlook⟩
              rcases List.mem_cons.mp hmem with rfl | hmem
              · exact fun hp => he (hstarts.mp hp)
              · exact hnone line hmem
        · rintro (⟨before, after, he, hafter⟩ | ⟨hnone, hlook⟩)
          · cases before with
            | nil =>
              obtain ⟨hhead, rfl⟩ := List.cons.inj he
              have hsame : splitOnce ':' (trim raw) = some (user, hash) :=
                splitOnce_eq_some.mpr ⟨hhead, huser⟩
              rw [hsplit] at hsame
              cases hsame
              exact Or.inr ⟨hafter, AList.lookup_insert _⟩
            | cons first before =>
              obtain ⟨-, rfl⟩ := List.cons.inj he
              exact Or.inl ⟨before, after, rfl, hafter⟩
          · have hne : user ≠ u := fun he =>
              hnone _ List.mem_cons_self (hstarts.mpr he)
            refine Or.inr ⟨fun line hmem => hnone line (List.mem_cons_of_mem _ hmem), ?_⟩
            rw [AList.lookup_insert_ne hne]
            exact hlook

theorem lookup_parseFile {body : Str} {users : Users} (h : parseFile body = .ok users) {user : Str}
    (huser : ':' ∉ user) (hash : Str) :
    users.lookup user = some hash ↔ LastOf (entryLines body) user hash := by
  have hlook := lookup_parseLines _ ∅ users h huser hash
  have hmap : (lines body).zipIdx.map (fun l => trim l.1) = (lines body).map trim := by
    have hcomp := List.map_map (f := Prod.fst) (g := trim) (l := (lines body).zipIdx)
    rw [List.zipIdx_map_fst] at hcomp
    exact hcomp.symm
  rw [hmap] at hlook
  rw [hlook]
  constructor
  · rintro (hlast | ⟨-, hnone⟩)
    · exact hlast
    · cases hnone
  · exact Or.inl

/-! ## Who is let in -/

section Accepts

variable (decode : Str → Option Bytes) (bcryptVerify : Str → Str → Bool)

/-- The value is `Basic ` and, up to surrounding whitespace, the base64 text of a user, a colon and a
password that fits the last line of the user. -/
def Accepts (body value user : Str) : Prop :=
  ∃ creds bytes password hash, value = "Basic ".toList ++ creds ∧
    decode (trim creds) = some bytes ∧ Codec.ofUtf8 bytes = some (user ++ ':' :: password) ∧
    ':' ∉ user ∧ LastOf (entryLines body) user hash ∧ bcryptVerify password hash = true

variable {decode bcryptVerify}

theorem stripPrefix_eq_some {start s rest : Str} :
    stripPrefix start s = some rest ↔ s = start ++ rest := by
  unfold stripPrefix
  constructor
  · intro h
    split at h
    · rename_i hstarts
      obtain ⟨t, rfl⟩ := List.isPrefixOf_iff_prefix.mp hstarts
      simp only [List.drop_left, Option.some.injEq] at h
      rw [h]
    · cases h
  · rintro rfl
    rw [if_pos (List.isPrefixOf_iff_prefix.mpr (List.prefix_append _ _)), List.drop_left]

theorem authenticate_eq_some {users : Users} {value user : Str} :
    authenticate decode bcryptVerify users value = some user ↔
      ∃ creds bytes password hash, value = "Basic ".toList ++ creds ∧
        decode (trim creds) = some bytes ∧ Codec.ofUtf8 bytes = some (user ++ ':' :: password) ∧
        ':' ∉ user ∧ users.lookup user = some hash ∧ bcryptVerify password hash = true := by
  unfold authenticate
  simp only [Option.bind_eq_bind, Option.bind_eq_some_iff, Option.ite_none_right_eq_some,
    Option.some.injEq, stripPrefix_eq_some, Prod.exists]
  constructor
  · rintro ⟨creds, hvalue, bytes, hbytes, text, htext, u, password, hsplit, hash, hhash, hverify, rfl⟩
    obtain ⟨rfl, hcolon⟩ := splitOnce_eq_some.mp hsplit
    exact ⟨creds, bytes, password, hash, hvalue, hbytes, htext, hcolon, hhash, hverify⟩
  · rintro ⟨creds, bytes, password, hash, hvalue, hbytes, htext, hcolon, hhash, hverify⟩
    exact ⟨creds, hvalue, bytes, hbytes, _, htext, user, password,
      splitOnce_eq_some.mpr ⟨rfl, hcolon⟩, hash, hhash, hverify, rfl⟩

theorem authenticate_iff {body : Str} {users : Users} (h : parseFile body = .ok users)
    (value user : Str) :
    authenticate decode bcryptVerify users value = some user ↔
      Accepts decode bcryptVerify body value user := by
  rw [authenticate_eq_some]
  constructor
  · rintro ⟨creds, bytes, password, hash, hvalue, hbytes, htext, hcolon, hhash, hverify⟩
    exact ⟨creds, bytes, password, hash, hvalue, hbytes, htext, hcolon,
      (lookup_parseFile h hcolon hash).mp hhash, hverify⟩
  · rintro ⟨creds, bytes, password, hash, hvalue, hbytes, htext, hcolon, hlast, hverify⟩
    exact ⟨creds, bytes, password, hash, hvalue, hbytes, htext, hcolon,
      (lookup_parseFile h hcolon hash).mpr hlast, hverify⟩

end Accepts

/-! ## Histories of requests -/

section Histories

variable (decode : Str → Option Bytes) (bcryptVerify : Str → Str → Bool)

/-- A call of `verify_basic` with its readings of the clock. -/
structure Attempt where
  value : Str
  now : Nat
  later : Nat

/-- The answers to calls that are made one after the other. -/
def answers : HtpasswdStore → List Attempt → List (Option Str)
  | _, [] => []
  | store, a :: rest =>
    let r := verifyBasic decode bcryptVerify store a.value a.now a.later
    r.1 :: answers r.2 rest

/-- A request as the middleware receives it. -/
structure Arrival where
  authorization : Option Bytes
  now : Nat
  later : Nat

/-- What the middleware does with one request after the other. -/
def handled : AuthState → List Arrival → List Handled
  | _, [] => []
  | state, a :: rest =>
    let r := call decode bcryptVerify state a.authorization a.now a.later
    r.1 :: handled r.2 rest

/-- Every cached value would be verified again, for the same user. -/
def CacheSound (store : HtpasswdStore) : Prop :=
  ∀ value user validUntil, store.authCache.lookup value = some (user, validUntil) →
    authenticate decode bcryptVerify store.users value = some user

variable {decode bcryptVerify}

theorem verifyUncached_spec {store : HtpasswdStore} (h : CacheSound decode bcryptVerify store)
    (value : Str) (now : Nat) :
    (verifyUncached decode bcryptVerify store value now).1 =
        authenticate decode bcryptVerify store.users value ∧
      (verifyUncached decode bcryptVerify store value now).2.users = store.users ∧
      CacheSound decode bcryptVerify (verifyUncached decode bcryptVerify store value now).2 := by
  unfold verifyUncached
  cases hauth : authenticate decode bcryptVerify store.users value with
  | none => exact ⟨rfl, rfl, h⟩
  | some user =>
    refine ⟨rfl, rfl, fun v u t hlook => ?_⟩
    by_cases hv : v = value
    · subst hv
      rw [AList.lookup_insert] at hlook
      cases hlook
      exact hauth
    · rw [AList.lookup_insert_ne hv] at hlook
      exact h v u t hlook

/-- One call answers as without the cache and keeps the cache sound. -/
theorem verifyBasic_spec {store : HtpasswdStore} (h : CacheSound decode bcryptVerify store)
    (value : Str) (now later : Nat) :
    (verifyBasic decode bcryptVerify store value now later).1 =
        authenticate decode bcryptVerify store.users value ∧
      (verifyBasic decode bcryptVerify store value now later).2.users = store.users ∧
      CacheSound decode bcryptVerify (verifyBasic decode bcryptVerify store value now later).2 := by
  unfold verifyBasic
  cases hlook : store.authCache.lookup value with
  | none => exact verifyUncached_spec h value later
  | some entry =>
    obtain ⟨user, validUntil⟩ := entry
    simp only
    split
    · exact ⟨(h value user validUntil hlook).symm, rfl, h⟩
    · exact verifyUncached_spec h value later

theorem answers_eq {store : HtpasswdStore} (h : CacheSound decode bcryptVerify store)
    (attempts : List Attempt) :
    answers decode bcryptVerify store attempts =
      attempts.map fun a => authenticate decode bcryptVerify store.users a.value := by
  induction attempts generalizing store with
  | nil => rfl
  | cons a rest ih =>
    obtain ⟨hanswer, husers, hsound⟩ := verifyBasic_spec h a.value a.now a.later
    rw [answers, List.map_cons, ih hsound, hanswer, husers]

/-- The request is let through. -/
def Passes (decode : Str → Option Bytes) (bcryptVerify : Str → Str → Bool) (body : Str)
    (a : Arrival) : Prop :=
  ∃ value user, a.authorization.bind toStr = some value ∧ Accepts decode bcryptVerify body value user

/-- One request passes exactly when its header is accepted, and is answered with 401 otherwise. -/
theorem call_spec {body : Str} {users : Users} (hparse : parseFile body = .ok users)
    {store : HtpasswdStore} (husers : store.users = users)
    (h : CacheSound decode bcryptVerify store) (a : Arrival) :
    ∃ store', call decode bcryptVerify ⟨some store⟩ a.authorization a.now a.later =
        ((call decode bcryptVerify ⟨some store⟩ a.authorization a.now a.later).1, ⟨some store'⟩) ∧
      store'.users = users ∧ CacheSound decode bcryptVerify store' ∧
      ((call decode bcryptVerify ⟨some store⟩ a.authorization a.now a.later).1 = .inner ↔
        Passes decode bcryptVerify body a) ∧
      (¬ Passes decode bcryptVerify body a →
        (call decode bcryptVerify ⟨some store⟩ a.authorization a.now a.later).1 =
          .answered 401 "Basic realm=\"quill\"".toList) := by
  unfold call AuthState.verify
  cases hvalue : a.authorization.bind toStr with
  | none =>
    have hno : ¬ Passes decode bcryptVerify body a := by
      rintro ⟨value, user, hv, -⟩
      rw [hvalue] at hv
      cases hv
    refine ⟨store, rfl, husers, h, ⟨fun he => ?_, fun hp => absurd hp hno⟩, fun _ => rfl⟩
    cases he
  | some value =>
    obtain ⟨hanswer, hkeep, hsound⟩ := verifyBasic_spec h value a.now a.later
    have hpasses : Passes decode bcryptVerify body a ↔
        ∃ user, authenticate decode bcryptVerify store.users value = some user := by
      constructor
      · rintro ⟨v, user, hv, haccept⟩
        rw [hvalue] at hv
        cases hv
        refine ⟨user, ?_⟩
        rw [husers]
        exact (authenticate_iff hparse value user).mpr haccept
      · rintro ⟨user, hauth⟩
        rw [husers] at hauth
        exact ⟨value, user, hvalue, (authenticate_iff hparse value user).mp hauth⟩
    simp only [hanswer]
    cases hauth : authenticate decode bcryptVerify store.users value with
    | none =>
      have hno : ¬ Passes decode bcryptVerify body a := by
        rw [hpasses, hauth]
        rintro ⟨user, he⟩
        cases he
      refine ⟨_, rfl, hkeep.trans husers, hsound, ⟨fun he => ?_, fun hp => absurd hp hno⟩,
        fun _ => rfl⟩
      cases he
    | some user =>
      have hyes : Passes decode bcryptVerify body a := hpasses.mpr ⟨user, hauth⟩
      exact ⟨_, rfl, hkeep.trans husers, hsound, ⟨fun _ => hyes, fun _ => rfl⟩,
        fun hno => absurd hyes hno⟩

theorem handled_spec {body : Str} {users : Users} (hparse : parseFile body = .ok users)
    {store : HtpasswdStore} (husers : store.users = users)
    (h : CacheSound decode bcryptVerify store) (arrivals : List Arrival) :
    List.Forall₂ (fun a r => (r = .inner ↔ Passes decode bcryptVerify body a) ∧
        (¬ Passes decode bcryptVerify body a → r = .answered 401 "Basic realm=\"quill\"".toList))
      arrivals (handled decode bcryptVerify ⟨some store⟩ arrivals) := by
  induction arrivals generalizing store with
  | nil => exact .nil
  | cons a rest ih =>
    obtain ⟨store', hcall, husers', hsound, hpass, hreject⟩ := call_spec hparse husers h a
    rw [handled]
    refine .cons ⟨hpass, hreject⟩ ?_
    rw [hcall]
    exact ih husers' hsound

theorem cacheSound_load (users : Users) : CacheSound decode bcryptVerify (load users) := by
  intro value user validUntil hlook
  cases hlook

end Histories

/-- Whatever came before, a call answers as without the cache, the user is the one the header and
the file name, and the middleware lets exactly the accepted requests through. -/
theorem authentication_is_transparent (decode : Str → Option Bytes)
    (bcryptVerify : Str → Str → Bool) (body : Str) (users : Users)
    (hparse : parseFile body = .ok users) :
    (∀ attempts, answers decode bcryptVerify (load users) attempts =
      attempts.map fun a => authenticate decode bcryptVerify users a.value) ∧
    (∀ value user, authenticate decode bcryptVerify users value = some user ↔
      Accepts decode bcryptVerify body value user) ∧
    ∀ arrivals, List.Forall₂ (fun a r => (r = .inner ↔ Passes decode bcryptVerify body a) ∧
        (¬ Passes decode bcryptVerify body a → r = .answered 401 "Basic realm=\"quill\"".toList))
      arrivals (handled decode bcryptVerify ⟨some (load users)⟩ arrivals) :=
  ⟨fun attempts => answers_eq (cacheSound_load users) attempts, authenticate_iff hparse,
    fun arrivals => handled_spec hparse rfl (cacheSound_load users) arrivals⟩

/-! A file with two lines for one user, of which the second counts. -/

def sampleHash : Str := "$2a$12$R9h/cIPz0gi.URNNX3kh2OPST9/PgBkqquzi.Ss7KIUgO2t0jWMUW".toList

def sampleFile : Str := "# users\r\nalice:old\n\n alice:".toList ++ sampleHash ++ " \n".toList

/-- The base64 text of `alice:abc123xyz`. -/
def sampleDecode (s : Str) : Option Bytes :=
  if s = "YWxpY2U6YWJjMTIzeHl6".toList then some (Codec.utf8 "alice:abc123xyz".toList) else none

def sampleVerify (password hash : Str) : Bool :=
  password = "abc123xyz".toList ∧ hash = sampleHash

def sampleUsers : Users := (∅ : Users).insert "alice".toList "old".toList |>.insert "alice".toList sampleHash

def sampleHeader : Str := "Basic  YWxpY2U6YWJjMTIzeHl6 ".toList

theorem authentication_of_alice :
    answers sampleDecode sampleVerify (load sampleUsers) [⟨sampleHeader, 0, 5⟩, ⟨sampleHeader, 304, 304⟩] =
        [some "alice".toList, some "alice".toList] ∧
      ∃ user, Accepts sampleDecode sampleVerify sampleFile sampleHeader user := by
  have hparse : parseFile sampleFile = .ok sampleUsers := rfl
  obtain ⟨hanswers, haccepts, -⟩ := authentication_is_transparent sampleDecode sampleVerify sampleFile
    sampleUsers hparse
  have hauth : authenticate sampleDecode sampleVerify sampleUsers sampleHeader =
      some "alice".toList := by decide +kernel
  refine ⟨?_, "alice".toList, (haccepts _ _).mp hauth⟩
  rw [hanswers]
  simp only [List.map_cons, List.map_nil, hauth]

end Quill.Auth
