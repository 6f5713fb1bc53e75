import Quill.Registry.ContentTypes
import Quill.Upstream.Client

/-!
# The table of tag resolution

`row` is the table by which `get_manifest` resolves a tag that was not pushed here: from the
cached digest, its age, the store, the upstream and the reply to a `HEAD` it reads whether a
`HEAD` is made and which manifest of the store is the answer; without one the request ends
with a `GET` or, where no upstream is configured, with 404.

While the metadata cache agrees with the files (`CacheAgrees`), a look at a blob has three ends
that only the file decides (`exec_blobMeta_agrees`), so the handler refines the table
(`exec_getManifestByTag_row`). The rules of the cache of tags are read off the table
(`tag_resolution_follows_table`).
-/

namespace Quill.Registry.TagResolution

open Text Files Cas World LocalStorage Uploads LocalTags TagCache ContentTypes

variable {S : Setup} {repo tag : Str}

/-! ## Answers -/

/-- The manifest `b` as the store serves it. -/
def storedAnswer (S : Setup) (d : Digest) (b : Bytes) (withBody : Bool) : Response :=
  ⟨.ok, [(.contentLength, decimal b.length), (.dockerContentDigest, d.toStr),
    (.contentType, sniffed S b)], if withBody then .bytes b else .empty⟩

/-- The manifest of the upstream, or 404. -/
def fetchedAnswer (tag : Str) (withBody : Bool) : Option ManifestResponse → Response
  | none => manifestUnknown tag
  | some m => ⟨.ok, [(.contentLength, decimal m.bytes.length), (.dockerContentDigest, m.digest.toStr),
      (.contentType, m.contentType)], if withBody then .bytes m.bytes else .empty⟩

/-- What the client makes of the replies of the upstream to a `HEAD` and a `GET`. -/
def replies (S : Setup) (head get : Option Upstream.HttpReply) : Replies :=
  ⟨(Upstream.resolveTag head).toOption, (Upstream.getManifest S get).toOption, none, none⟩

/-- Every manifest of the upstream has a content type that can be sent. -/
def LegalReply (up : Replies) : Prop :=
  ∀ m ∈ up.getManifest, legalHeaderValue m.contentType = true

theorem legalReply_replies (head get : Option Upstream.HttpReply) : LegalReply (replies S head get) := by
  intro m hm
  cases hget : Upstream.getManifest S get with
  | error e =>
    simp [replies, hget, Except.toOption] at hm
  | ok m' =>
    have he : m' = m := by simpa [replies, hget, Except.toOption] using hm
    exact he ▸ Upstream.legalHeaderValue_contentType hget

/-! ## The table -/

/-- A line of the table: whether a `HEAD` is made, and the manifest of the store that is the
answer. -/
structure Row where
  asks : Bool
  served : Option (Digest × Bytes)

/-- The manifest of a digest, if the store has it. -/
def held (w : World S) (repo : Str) (d : Digest) : Option (Digest × Bytes) :=
  (w.fs.read (blobPath S.root repo d)).map fun b => (d, b)

/-- The line for a tag that is not local. -/
def row (w : World S) (repo tag : Str) (head : Option Digest) : Row :=
  match w.upstreamTags.lookup (repo, tag) with
  | none => ⟨false, none⟩
  | some (d, fetchedAt) =>
    if w.tick.now - fetchedAt < S.tagTtl ∨ S.route repo = none then ⟨false, held w repo d⟩
    else ⟨true, if head = none ∨ head = some d then held w repo d else none⟩

/-- The request asks the upstream for the manifest. -/
def Row.Fetches (S : Setup) (repo : Str) (r : Row) : Prop := r.served = none ∧ S.route repo ≠ none

instance (S : Setup) (repo : Str) (r : Row) : Decidable (r.Fetches S repo) :=
  inferInstanceAs (Decidable (_ ∧ _))

/-- The calls of a line. -/
def Row.calls (S : Setup) (repo tag : Str) (r : Row) : List UpstreamCall :=
  (if r.asks then [.resolveTag repo tag] else []) ++
    if r.Fetches S repo then [.getManifest repo tag] else []

/-- The answer of a line. -/
def Row.answer (S : Setup) (repo tag : Str) (withBody : Bool) (get : Option ManifestResponse)
    (r : Row) : Response :=
  match r.served with
  | some (d, b) => storedAnswer S d b withBody
  | none => if S.route repo = none then manifestUnknown tag else fetchedAnswer tag withBody get

/-! ## Looks at the store -/

/-- The manifests of a repository can be served with the media type that they name. -/
def StoredLegal (w : World S) (repo : Str) : Prop :=
  ∀ d b, w.fs.read (blobPath S.root repo d) = some b → LegalMedia S b

theorem exec_serveLocalManifest_held {w : World S} (hw : CacheAgrees w) (hlegal : StoredLegal w repo)
    {d : Digest} {b : Bytes} (hb : w.fs.read (blobPath S.root repo d) = some b) (tag : Str)
    (withBody : Bool) : ∃ w', Peeks w w' ∧ (serveLocalManifest repo d tag withBody : Handler S).exec w =
      (.ok (storedAnswer S d b withBody), w') := by
  obtain ⟨r, w₁, hmeta, hpeeks, ⟨m, c, rfl, hpath, -⟩ | ⟨hnone, -⟩⟩ := exec_blobMeta_agrees hw repo d
  · have hfirst : (serveLocalManifest repo d tag withBody : Handler S).exec w = _ :=
      Prog.exec_bind_ok (Prog.exec_attempt_eq.mpr hmeta)
    rcases Fs.exec_readFile m.path w₁.fs with ⟨c, hc, he⟩ | ⟨hnone, -⟩
    · rw [hpeeks.fs, hpath, hb] at hc
      cases hc
      have hread : (readBlobToBytes m).exec w₁ = (.ok b, w₁) := exec_mapError_ok (exec_onFs_ok he)
      refine ⟨w₁, hpeeks, ?_⟩
      rw [hfirst]
      simp only
      rw [Prog.exec_bind_ok (Prog.exec_attempt_eq.mpr hread)]
      have hsend : legalHeaderValue (Manifest.mediaType (S.serde.fromSlice b)) = true := hlegal d b hb
      simp only
      rw [exec_manifestResponse, if_pos hsend]
      rfl
    · rw [hpeeks.fs, hpath, hb] at hnone
      cases hnone
  · rw [hb] at hnone
    cases hnone

/-- A cached digest is answered from the store, or the request goes on. -/
theorem exec_serveIfPresent_held {w : World S} (hw : CacheAgrees w) (hlegal : StoredLegal w repo)
    (d : Digest) (tag : Str) (withBody : Bool) (otherwise : Handler S) :
    ∃ w', Peeks w w' ∧ (serveIfPresent repo d tag withBody otherwise : Handler S).exec w =
      match held w repo d with
      | some (d, b) => (.ok (storedAnswer S d b withBody), w')
      | none => otherwise.exec w' := by
  obtain ⟨r, w₁, hmeta, hpeeks, hcases⟩ := exec_blobMeta_agrees hw repo d
  have hfirst : (serveIfPresent repo d tag withBody otherwise : Handler S).exec w = _ :=
    Prog.exec_bind_ok (Prog.exec_attempt_eq.mpr hmeta)
  rw [hfirst]
  rcases hcases with ⟨m, b, rfl, -, hb⟩ | ⟨hnone, hr⟩
  · have hlegal₁ : StoredLegal w₁ repo := fun e c hc => hlegal e c (by rwa [hpeeks.fs] at hc)
    have hb₁ : w₁.fs.read (blobPath S.root repo d) = some b := by rw [hpeeks.fs, hb]
    obtain ⟨w₂, hpeeks₂, he⟩ := exec_serveLocalManifest_held (hpeeks.agrees hw) hlegal₁ hb₁ tag withBody
    exact ⟨w₂, hpeeks.trans hpeeks₂, by simpa [held, hb] using he⟩
  · refine ⟨w₁, hpeeks, ?_⟩
    rcases r with e | _ | m
    · simp [held, hnone]
    · simp [held, hnone]
    · exact absurd rfl (hr m)

/-! ## Fetches -/

/-- Programs that call no upstream. -/
def uncalled : Evolution (World S) := .fixed fun w => w.log.calls

section Uncalled

variable {ε α : Type}

theorem onFs_uncalled (m : Prog Fs IoKind α) : Moves uncalled (onFs m : Prog (World S) IoKind α) := by
  intro w
  unfold onFs
  simp only [Prog.exec_ofFun]
  rcases m.exec w.fs with ⟨_ | a, fs'⟩
  · rfl
  · rfl

theorem putBlobBuffered_uncalled (repo : Str) (d : Digest) (b : Bytes) :
    Moves uncalled (putBlobBuffered (S := S) repo d b) := by
  unfold putBlobBuffered
  refine Moves.of_ite (fun _ => Moves.of_throw _) fun _ => ?_
  refine ((onFs_uncalled _).of_mapError _).seq fun _ => ?_
  refine Moves.seq (fun _ => rfl) fun tmp => ?_
  refine ((onFs_uncalled _).of_mapError _).seq fun _ => ?_
  refine ((onFs_uncalled _).of_mapError _).seq fun _ => ?_
  exact fun _ => rfl

theorem tagCacheInsert_uncalled (repo tag : Str) (d : Digest) :
    Moves uncalled (TagCache.insert repo tag d : Prog (World S) ε Unit) := by
  refine Moves.seq (fun _ => rfl) fun now => ?_
  refine Moves.seq (fun _ => rfl) fun _ => ?_
  refine (onFs_uncalled _).of_attempt.seq fun _ => ?_
  refine Moves.of_get.seq fun w => ?_
  exact (onFs_uncalled _).of_attempt.seq fun _ => Moves.of_pure _

end Uncalled

theorem fetchAndServe_calls (w : World S) (repo reference : Str) (withBody : Bool)
    (reply : Option ManifestResponse) :
    ((fetchAndServeUpstreamManifest repo reference withBody reply : Handler S).exec w).2.log.calls =
      w.log.calls ++ [.getManifest repo reference] := by
  have hfirst : (fetchAndServeUpstreamManifest repo reference withBody reply : Handler S).exec w = _ :=
    Prog.exec_bind_ok (exec_call w (.getManifest repo reference))
  rw [hfirst]
  cases reply with
  | none => rfl
  | some m =>
    have hbuild : Moves uncalled
        (buildManifestResponse m.bytes m.contentType m.digest withBody : Handler S) := by
      intro w
      rw [exec_manifestResponse]
      rfl
    -- nothing after the first call asks the upstream again
    refine (?_ : Moves uncalled _) (called w (.getManifest repo reference))
    refine (putBlobBuffered_uncalled _ _ _).of_attempt.seq fun _ => ?_
    cases Digest.parse reference with
    | ok d => exact hbuild
    | error e => exact (tagCacheInsert_uncalled _ _ _).seq fun _ => hbuild

/-- A manifest that is fetched for a tag becomes the entry of the tag. -/
theorem exec_fetchTag {m : ManifestResponse} (hlegal : legalHeaderValue m.contentType = true)
    (htag : IsTag tag) (w : World S) (repo : Str) (withBody : Bool) :
    ∃ w' t, (fetchAndServeUpstreamManifest repo tag withBody (some m) : Handler S).exec w =
        (.ok (fetchedAnswer tag withBody (some m)), w') ∧
      w'.upstreamTags = w.upstreamTags.insert (repo, tag) (m.digest, t) := by
  obtain ⟨w', hfetched, he⟩ := exec_fetchManifest w repo tag withBody m
  rw [exec_manifestResponse, if_pos hlegal] at he
  rcases hfetched.upstreamTags with ⟨d, hd, -⟩ | ⟨-, t, -, htags⟩
  · obtain ⟨e, hparse⟩ := htag
    cases hd.symm.trans hparse
  · exact ⟨w', t, he, htags⟩

/-! ## The handler follows the table -/

/-- What a line leaves of the cache of tags: other entries stay, and the entry of the tag holds the
digest of a fetched manifest, or was confirmed by a `HEAD`, or stays. -/
structure Records (S : Setup) (repo tag : Str) (up : Replies) (r : Row)
    (tags tags' : AList fun _ : Str × Str => Digest × Nat) : Prop where
  elsewhere : ∀ key, key ≠ (repo, tag) → tags'.lookup key = tags.lookup key
  here :
    (r.Fetches S repo ∧ ∃ m t, up.getManifest = some m ∧
      tags'.lookup (repo, tag) = some (m.digest, t)) ∨
    (r.asks = true ∧ ∃ d t t', tags.lookup (repo, tag) = some (d, t) ∧ up.resolveTag = some d ∧
      tags'.lookup (repo, tag) = some (d, t')) ∨
    tags'.lookup (repo, tag) = tags.lookup (repo, tag)

/-- A run from `w` that answers, calls and records as the line says. -/
structure Follows (repo tag : Str) (withBody : Bool) (up : Replies) (w : World S) (r : Row)
    (out : Except Abort Response × World S) : Prop where
  answer : out.1 = .ok (r.answer S repo tag withBody up.getManifest)
  calls : out.2.log.calls = w.log.calls ++ r.calls S repo tag
  records : Records S repo tag up r w.upstreamTags out.2.upstreamTags

/-- The part of a request before its answer: looks, at most one `HEAD`, and a new stamp when that
confirmed the entry. -/
structure Settled (repo tag : Str) (head : Option Digest) (asks : Bool) (w w' : World S) : Prop where
  fs : w'.fs = w.fs
  agrees : CacheAgrees w'
  calls : w'.log.calls = w.log.calls ++ if asks then [.resolveTag repo tag] else []
  tags : w'.upstreamTags = w.upstreamTags ∨ (asks = true ∧ ∃ d t t',
    w.upstreamTags.lookup (repo, tag) = some (d, t) ∧ head = some d ∧
      w'.upstreamTags = w.upstreamTags.insert (repo, tag) (d, t'))

section Refines

variable {w w₁ : World S} {withBody asks : Bool} {up : Replies}

theorem Settled.peeks {w₂ : World S} {head : Option Digest} (h : Settled repo tag head asks w w₁)
    (g : Peeks w₁ w₂) : Settled repo tag head asks w w₂ :=
  ⟨g.fs.trans h.fs, g.agrees h.agrees, g.calls ▸ h.calls, g.tags ▸ h.tags⟩

theorem Settled.elsewhere {head : Option Digest} (h : Settled repo tag head asks w w₁)
    {key : Str × Str} (hkey : key ≠ (repo, tag)) :
    w₁.upstreamTags.lookup key = w.upstreamTags.lookup key := by
  rcases h.tags with he | ⟨-, d, t, t', -, -, he⟩
  · rw [he]
  · rw [he, AList.lookup_insert_ne hkey]

theorem Settled.records (h : Settled repo tag up.resolveTag asks w w₁) (served : Option (Digest × Bytes)) :
    Records S repo tag up ⟨asks, served⟩ w.upstreamTags w₁.upstreamTags := by
  refine ⟨fun key hkey => h.elsewhere hkey, ?_⟩
  rcases h.tags with he | ⟨hasks, d, t, t', hentry, hhead, he⟩
  · exact Or.inr (Or.inr (by rw [he]))
  · exact Or.inr (Or.inl ⟨hasks, d, t, t', hentry, hhead, by rw [he, AList.lookup_insert]⟩)

/-- The common end: fetch, or 404 where no upstream is configured. -/
theorem Settled.fetch (h : Settled repo tag up.resolveTag asks w w₁) (htag : IsTag tag)
    (hlegal : LegalReply up) : Follows repo tag withBody up w ⟨asks, none⟩
      ((fetchManifestOrUnknown repo tag withBody up : Handler S).exec w₁) := by
  unfold fetchManifestOrUnknown
  cases hroute : S.route repo with
  | none =>
    refine ⟨?_, ?_, h.records none⟩
    · simp [Row.answer, hroute]
    · simp [Row.calls, Row.Fetches, hroute, h.calls]
  | some p =>
    have hfetches : (⟨asks, none⟩ : Row).Fetches S repo := ⟨rfl, by simp [hroute]⟩
    have hcalls := fetchAndServe_calls w₁ repo tag withBody up.getManifest
    refine ⟨?_, ?_, ?_⟩
    · cases hget : up.getManifest with
      | none =>
        have he : ((fetchAndServeUpstreamManifest repo tag withBody none : Handler S).exec w₁).1 =
            .ok (manifestUnknown tag) := rfl
        simpa [Row.answer, hroute, fetchedAnswer] using he
      | some m =>
        obtain ⟨w', t, he, -⟩ := exec_fetchTag (hlegal m hget) htag w₁ repo withBody
        simp only [he, Row.answer, hroute]
        simp
    · rw [hcalls, h.calls, Row.calls, if_pos hfetches]
      simp
    · cases hget : up.getManifest with
      | none => exact h.records none
      | some m =>
        obtain ⟨w', t, he, htags⟩ := exec_fetchTag (hlegal m hget) htag w₁ repo withBody
        rw [he]
        refine ⟨fun key hkey => ?_, Or.inl ⟨hfetches, m, t, hget, ?_⟩⟩
        · rw [htags, AList.lookup_insert_ne hkey, h.elsewhere hkey]
        · rw [htags, AList.lookup_insert]

/-- A cached digest is served from the store, or the request ends like any other. -/
theorem Settled.serve (h : Settled repo tag up.resolveTag asks w w₁) (htag : IsTag tag)
    (hlegal : LegalReply up) (hstored : StoredLegal w repo) (d : Digest) :
    Follows repo tag withBody up w ⟨asks, held w repo d⟩ ((serveIfPresent repo d tag withBody
      (fetchManifestOrUnknown repo tag withBody up) : Handler S).exec w₁) := by
  have hstored₁ : StoredLegal w₁ repo := fun e c hc => hstored e c (by rwa [h.fs] at hc)
  have hheld : held w₁ repo d = held w repo d := by rw [held, h.fs, held]
  obtain ⟨w₂, hpeeks, he⟩ := exec_serveIfPresent_held h.agrees hstored₁ d tag withBody
    (fetchManifestOrUnknown repo tag withBody up)
  have h₂ := h.peeks hpeeks
  rw [he, hheld]
  cases hcase : held w repo d with
  | none => exact h₂.fetch htag hlegal
  | some p =>
    refine ⟨rfl, ?_, h₂.records _⟩
    simp [Row.calls, Row.Fetches, h₂.calls]

/-- The handler of a tag that is not local follows the table. -/
theorem exec_getManifestByTag_row (hw : CacheAgrees w) (htag : IsTag tag) (hlegal : LegalReply up)
    (hstored : StoredLegal w repo) : Follows repo tag withBody up w (row w repo tag up.resolveTag)
      ((getManifestByTag repo tag withBody up : Handler S).exec w) := by
  have hlookup := exec_tagCacheLookup (ε := Abort) w repo tag
  unfold row
  cases hentry : w.upstreamTags.lookup (repo, tag) with
  | none =>
    simp only [hentry] at hlookup
    have hrest : (getManifestByTag repo tag withBody up : Handler S).exec w = _ :=
      Prog.exec_bind_ok hlookup
    rw [hrest]
    have hsettled : Settled repo tag up.resolveTag false w w := ⟨rfl, hw, by simp, Or.inl rfl⟩
    exact hsettled.fetch htag hlegal
  | some entry =>
    obtain ⟨d, t⟩ := entry
    simp only [hentry] at hlookup
    have hrest : (getManifestByTag repo tag withBody up : Handler S).exec w = _ :=
      Prog.exec_bind_ok hlookup
    rw [hrest]
    have hticked : Settled repo tag up.resolveTag false w w.tick := ⟨rfl, hw, by simp [World.tick], Or.inl rfl⟩
    by_cases hyoung : w.tick.now - t < S.tagTtl
    · simp only [hyoung, true_or, if_true]
      exact hticked.serve htag hlegal hstored d
    · cases hroute : S.route repo with
      | none =>
        simp only [hyoung, or_true, if_true, if_false]
        exact hticked.serve htag hlegal hstored d
      | some p =>
        simp only [hyoung, reduceCtorEq, or_self, if_false]
        -- the upstream is asked whether the entry still stands
        rw [Prog.exec_bind_ok (exec_call w.tick _)]
        have hcalled : Settled repo tag up.resolveTag true w (called w.tick (.resolveTag repo tag)) :=
          ⟨rfl, hw, by simp [called, World.tick], Or.inl rfl⟩
        cases hhead : up.resolveTag with
        | none =>
          simp only [true_or, if_true]
          exact hcalled.serve htag hlegal hstored d
        | some d' =>
          by_cases hsame : d' = d
          · subst hsame
            have htouch := exec_touch (ε := Abort) (w := called w.tick (.resolveTag repo tag)) hentry
            simp only [or_true, if_true]
            rw [Prog.exec_bind_ok htouch]
            have htouched : Settled repo tag up.resolveTag true w
                { (called w.tick (.resolveTag repo tag)).tick with
                  upstreamTags := w.upstreamTags.insert (repo, tag)
                    (d', (called w.tick (.resolveTag repo tag)).tick.now) } :=
              ⟨rfl, hw, by simp [called, World.tick], Or.inr ⟨rfl, d', t, _, hentry, hhead, rfl⟩⟩
            exact htouched.serve htag hlegal hstored d'
          · have hmoved : ¬ (some d' = none ∨ some d' = some d) := by simp [hsame]
            simp only [hsame, hmoved, if_false]
            exact hcalled.fetch htag hlegal

/-- A tag without a local entry is resolved by the table. -/
theorem exec_getManifest_row (hw : CacheAgrees w) (htag : IsTag tag) (hlegal : LegalReply up)
    (hstored : StoredLegal w repo) (hlocal : w.localTags.lookup (repo, tag) = none) :
    Follows repo tag withBody up w (row w repo tag up.resolveTag)
      ((getManifest repo tag withBody up : Handler S).exec w) := by
  obtain ⟨e, href⟩ := htag
  unfold getManifest
  simp only [href]
  rw [Prog.exec_bind_ok (Prog.exec_get w)]
  simp only [hlocal]
  exact exec_getManifestByTag_row hw ⟨e, href⟩ hlegal hstored

end Refines

/-! ## The rules of the table -/

section Rules

variable {w : World S} {head : Option Digest} {d : Digest} {t : Nat}

theorem row_cached (head : Option Digest) (hentry : w.upstreamTags.lookup (repo, tag) = some (d, t))
    (h : w.tick.now - t < S.tagTtl ∨ S.route repo = none) : row w repo tag head = ⟨false, held w repo d⟩ := by
  simp only [row, hentry, if_pos h]

theorem row_old (head : Option Digest) (hentry : w.upstreamTags.lookup (repo, tag) = some (d, t))
    (hold : ¬ w.tick.now - t < S.tagTtl) (hroute : S.route repo ≠ none) : row w repo tag head =
      ⟨true, if head = none ∨ head = some d then held w repo d else none⟩ := by
  simp only [row, hentry, hold, hroute, or_self, if_false]

/-- A `HEAD` is made exactly for an old entry with an upstream. -/
theorem row_asks : (row w repo tag head).asks = true ↔ ∃ d t,
    w.upstreamTags.lookup (repo, tag) = some (d, t) ∧ ¬ w.tick.now - t < S.tagTtl ∧ S.route repo ≠ none := by
  cases hentry : w.upstreamTags.lookup (repo, tag) with
  | none => simp [row, hentry]
  | some entry =>
    obtain ⟨d, t⟩ := entry
    by_cases h : w.tick.now - t < S.tagTtl ∨ S.route repo = none
    · rw [row_cached head hentry h]
      grind
    · have hold : ¬ w.tick.now - t < S.tagTtl := fun hy => h (Or.inl hy)
      have hroute : S.route repo ≠ none := fun hn => h (Or.inr hn)
      simpa [row_old head hentry hold hroute, hroute] using hold

/-- The store answers only with a cached digest that is young, cannot be checked, or was not denied. -/
theorem row_served {b : Bytes} (h : (row w repo tag head).served = some (d, b)) :
    ∃ t, w.upstreamTags.lookup (repo, tag) = some (d, t) ∧
      w.fs.read (blobPath S.root repo d) = some b ∧
      (w.tick.now - t < S.tagTtl ∨ S.route repo = none ∨ head = none ∨ head = some d) := by
  have hheld : ∀ {e}, held w repo e = some (d, b) → e = d ∧
      w.fs.read (blobPath S.root repo d) = some b := by
    intro e he
    obtain ⟨c, hc, hpair⟩ := Option.map_eq_some_iff.mp he
    cases hpair
    exact ⟨rfl, hc⟩
  cases hentry : w.upstreamTags.lookup (repo, tag) with
  | none => simp [row, hentry] at h
  | some entry =>
    obtain ⟨e, t⟩ := entry
    by_cases hcached : w.tick.now - t < S.tagTtl ∨ S.route repo = none
    · rw [row_cached head hentry hcached] at h
      obtain ⟨rfl, hread⟩ := hheld h
      exact ⟨t, rfl, hread, hcached.imp_right Or.inl⟩
    · have hold : ¬ w.tick.now - t < S.tagTtl := fun hy => hcached (Or.inl hy)
      have hroute : S.route repo ≠ none := fun hn => hcached (Or.inr hn)
      rw [row_old head hentry hold hroute] at h
      by_cases hhead : head = none ∨ head = some e
      · simp only [if_pos hhead] at h
        obtain ⟨rfl, hread⟩ := hheld h
        exact ⟨t, rfl, hread, Or.inr (Or.inr hhead)⟩
      · simp [if_neg hhead] at h

end Rules

/-- What the table says of one request: `calls` are its calls to the upstream, `resp` its answer
and `w'` the world afterwards. -/
structure FollowsTable (w : World S) (repo tag : Str) (withBody : Bool) (up : Replies) (resp : Response)
    (calls : List UpstreamCall) (w' : World S) : Prop where
  appended : w'.log.calls = w.log.calls ++ calls
  /-- At most one `HEAD` and then at most one `GET`. -/
  at_most_once : calls.Sublist [.resolveTag repo tag, .getManifest repo tag]
  young : ∀ d t b, w.upstreamTags.lookup (repo, tag) = some (d, t) → w.tick.now - t < S.tagTtl →
    w.fs.read (blobPath S.root repo d) = some b → resp = storedAnswer S d b withBody ∧ calls = []
  asks : .resolveTag repo tag ∈ calls ↔ ∃ d t, w.upstreamTags.lookup (repo, tag) = some (d, t) ∧
    ¬ w.tick.now - t < S.tagTtl ∧ S.route repo ≠ none
  confirmed : ∀ d t b, w.upstreamTags.lookup (repo, tag) = some (d, t) →
    ¬ w.tick.now - t < S.tagTtl → S.route repo ≠ none →
    (up.resolveTag = some d ∨ up.resolveTag = none) →
    w.fs.read (blobPath S.root repo d) = some b →
    resp = storedAnswer S d b withBody ∧ .getManifest repo tag ∉ calls
  moved : ∀ d t d', w.upstreamTags.lookup (repo, tag) = some (d, t) →
    ¬ w.tick.now - t < S.tagTtl → S.route repo ≠ none → up.resolveTag = some d' → d' ≠ d →
    .getManifest repo tag ∈ calls ∧ resp = fetchedAnswer tag withBody up.getManifest
  unrouted : ∀ d t b, w.upstreamTags.lookup (repo, tag) = some (d, t) → S.route repo = none →
    w.fs.read (blobPath S.root repo d) = some b → resp = storedAnswer S d b withBody ∧ calls = []
  /-- No cached digest, or none that is there and was not denied. -/
  otherwise : (∀ d t b, w.upstreamTags.lookup (repo, tag) = some (d, t) →
      w.fs.read (blobPath S.root repo d) = some b →
      ¬ w.tick.now - t < S.tagTtl ∧ S.route repo ≠ none ∧
        ∃ d', up.resolveTag = some d' ∧ d' ≠ d) →
    (S.route repo = none ∧ resp = manifestUnknown tag) ∨
      (.getManifest repo tag ∈ calls ∧ resp = fetchedAnswer tag withBody up.getManifest)
  digest : ∀ key, (w'.upstreamTags.lookup key).map Prod.fst ≠ (w.upstreamTags.lookup key).map Prod.fst →
    key = (repo, tag) ∧ .getManifest repo tag ∈ calls ∧
      ∃ m, up.getManifest = some m ∧ (w'.upstreamTags.lookup key).map Prod.fst = some m.digest
  stamp : ∀ key, (w'.upstreamTags.lookup key).map Prod.snd ≠ (w.upstreamTags.lookup key).map Prod.snd →
    key = (repo, tag) ∧ ((.getManifest repo tag ∈ calls ∧ up.getManifest.isSome = true) ∨
      (.resolveTag repo tag ∈ calls ∧ ∃ d t, w.upstreamTags.lookup key = some (d, t) ∧
        up.resolveTag = some d))

section Table

variable {w w' : World S} {withBody : Bool} {up : Replies} {r : Row} {resp : Response}

theorem mem_calls_head : .resolveTag repo tag ∈ r.calls S repo tag ↔ r.asks = true := by
  unfold Row.calls
  split <;> split <;> simp [*]

theorem mem_calls_get : .getManifest repo tag ∈ r.calls S repo tag ↔ r.Fetches S repo := by
  unfold Row.calls
  split <;> split <;> simp [*]

theorem calls_sublist : (r.calls S repo tag).Sublist [.resolveTag repo tag, .getManifest repo tag] := by
  unfold Row.calls
  split <;> split <;> simp

/-- A line that serves a manifest of the store. -/
theorem Follows.served {d : Digest} {b : Bytes} (h : Follows repo tag withBody up w r (.ok resp, w'))
    (hserved : r.served = some (d, b)) :
    resp = storedAnswer S d b withBody ∧ .getManifest repo tag ∉ r.calls S repo tag := by
  have hanswer := Except.ok.inj h.answer
  refine ⟨by simpa [Row.answer, hserved] using hanswer, fun hget => ?_⟩
  have hfetches := mem_calls_get.mp hget
  rw [hfetches.1] at hserved
  cases hserved

/-- A line that serves none. -/
theorem Follows.unserved (h : Follows repo tag withBody up w r (.ok resp, w')) (hserved : r.served = none) :
    (S.route repo = none ∧ resp = manifestUnknown tag) ∨
      (.getManifest repo tag ∈ r.calls S repo tag ∧ resp = fetchedAnswer tag withBody up.getManifest) := by
  have hanswer := Except.ok.inj h.answer
  by_cases hroute : S.route repo = none
  · exact Or.inl ⟨hroute, by simpa [Row.answer, hserved, hroute] using hanswer⟩
  · refine Or.inr ⟨mem_calls_get.mpr ⟨hserved, hroute⟩, ?_⟩
    simpa [Row.answer, hserved, hroute] using hanswer

theorem held_of_read {d : Digest} {b : Bytes} (hb : w.fs.read (blobPath S.root repo d) = some b) :
    held w repo d = some (d, b) := by
  simp [held, hb]

/-- A request that follows its line obeys the rules. -/
theorem Follows.table (h : Follows repo tag withBody up w (row w repo tag up.resolveTag) (.ok resp, w')) :
    FollowsTable w repo tag withBody up resp ((row w repo tag up.resolveTag).calls S repo tag) w' where
  appended := h.calls
  at_most_once := calls_sublist
  young := by
    intro d t b hentry hyoung hb
    have hrow := row_cached up.resolveTag hentry (Or.inl hyoung)
    obtain ⟨hresp, -⟩ := h.served (by rw [hrow, held_of_read hb])
    exact ⟨hresp, by simp [hrow, Row.calls, Row.Fetches, held_of_read hb]⟩
  asks := mem_calls_head.trans row_asks
  confirmed := by
    intro d t b hentry hold hroute hhead hb
    have hrow := row_old up.resolveTag hentry hold hroute
    exact h.served (by rw [hrow, if_pos hhead.symm, held_of_read hb])
  moved := by
    intro d t d' hentry hold hroute hhead hne
    have hrow := row_old up.resolveTag hentry hold hroute
    have hmoved : ¬ (up.resolveTag = none ∨ up.resolveTag = some d) := by simp [hhead, hne]
    rcases h.unserved (by rw [hrow, if_neg hmoved]) with ⟨hno, -⟩ | hfetched
    · exact absurd hno hroute
    · exact hfetched
  unrouted := by
    intro d t b hentry hroute hb
    have hrow := row_cached up.resolveTag hentry (Or.inr hroute)
    obtain ⟨hresp, -⟩ := h.served (by rw [hrow, held_of_read hb])
    exact ⟨hresp, by simp [hrow, Row.calls, Row.Fetches, held_of_read hb]⟩
  otherwise := by
    intro hnone
    refine h.unserved ?_
    cases hserved : (row w repo tag up.resolveTag).served with
    | none => rfl
    | some p =>
      obtain ⟨t, hentry, hb, hcase⟩ := row_served (d := p.1) (b := p.2) hserved
      obtain ⟨hold, hroute, d', hhead, hne⟩ := hnone _ t _ hentry hb
      rcases hcase with hyoung | hno | hno | hsame
      · exact absurd hyoung hold
      · exact absurd hno hroute
      · cases hhead.symm.trans hno
      · cases hhead.symm.trans hsame
        exact absurd rfl hne
  digest := by
    intro key hkey
    by_cases he : key = (repo, tag)
    · subst he
      refine ⟨rfl, ?_⟩
      rcases h.records.here with ⟨hfetches, m, t, hm, hnew⟩ | ⟨-, d, t, t', hentry, -, hnew⟩ | hsame
      · exact ⟨mem_calls_get.mpr hfetches, m, hm, by rw [hnew]; rfl⟩
      · exact absurd (by rw [hnew, hentry]; rfl) hkey
      · exact absurd (by rw [hsame]) hkey
    · exact absurd (by rw [h.records.elsewhere key he]) hkey
  stamp := by
    intro key hkey
    by_cases he : key = (repo, tag)
    · subst he
      refine ⟨rfl, ?_⟩
      rcases h.records.here with ⟨hfetches, m, t, hm, -⟩ | ⟨hasks, d, t, t', hentry, hhead, -⟩ | hsame
      · exact Or.inl ⟨mem_calls_get.mpr hfetches, by rw [hm]; rfl⟩
      · exact Or.inr ⟨mem_calls_head.mpr hasks, d, t, hentry, hhead⟩
      · exact absurd (by rw [hsame]) hkey
    · exact absurd (by rw [h.records.elsewhere key he]) hkey

end Table

/-- In every state whose metadata cache agrees with the files and whose manifests can be served, a pull
of a tag that was not pushed here is resolved by the table. -/
theorem tag_resolution_follows_table (w : World S) (hagrees : CacheAgrees w) (repo tag : Str)
    (htag : IsTag tag) (hlocal : w.localTags.lookup (repo, tag) = none) (hstored : StoredLegal w repo)
    (withBody : Bool) (head get : Option Upstream.HttpReply) :
    ∃ resp calls w', (getManifest repo tag withBody (replies S head get) : Handler S).exec w =
        (.ok resp, w') ∧ FollowsTable w repo tag withBody (replies S head get) resp calls w' := by
  have hrow : Follows repo tag withBody (replies S head get) w _
      ((getManifest repo tag withBody (replies S head get) : Handler S).exec w) :=
    exec_getManifest_row hagrees htag (legalReply_replies head get) hstored hlocal
  generalize hout : (getManifest repo tag withBody (replies S head get) : Handler S).exec w = out at hrow
  obtain ⟨answer, w'⟩ := out
  obtain rfl : answer = _ := hrow.answer
  exact ⟨_, _, w', rfl, hrow.table⟩

/-! A mirror that holds an index under an old entry. -/

def index : Digest := mirror.digest (Codec.utf8 indexText)

def aged : World mirror :=
  { booted with
    fs := booted.fs.set (blobPath mirror.root app index) (.file (Codec.utf8 indexText))
    upstreamTags := (∅ : AList fun _ : Str × Str => Digest × Nat).insert (app, v1) (index, 0)
    now := 300 }

/-- A reply to a `HEAD` that names another manifest. -/
def movedReply : Upstream.HttpReply :=
  ⟨200, none, some (Codec.utf8 ("sha256:".toList ++ List.replicate 64 '0')), none⟩

theorem storedLegal_aged : StoredLegal aged app := by
  intro d b hb
  have hnode := Fs.read_eq_some.mp hb
  change (booted.fs.set _ _).node _ = _ at hnode
  rw [Fs.node_set] at hnode
  split at hnode
  · cases hnode
    unfold LegalMedia
    decide +kernel
  · have hempty := read_emptyRoot mirror.root (blobPath mirror.root app d)
    exact absurd (Fs.read_eq_some.mpr hnode) (by rw [show booted.fs.read _ = none from hempty]; simp)

/-- The index is there, but the upstream has another one that it cannot send: the answer is 404. -/
theorem moved_tag_is_not_served : ∃ calls w',
    (getManifest app v1 true (replies mirror (some movedReply) none) : Handler mirror).exec aged =
      (.ok (manifestUnknown v1), w') ∧
    w'.log.calls = aged.log.calls ++ calls ∧ .getManifest app v1 ∈ calls := by
  have hagrees : CacheAgrees aged := fun _ _ _ hm => nomatch hm
  obtain ⟨resp, calls, w', he, htable⟩ := tag_resolution_follows_table aged hagrees app v1
    ⟨.missingSeparator, by decide⟩ (by decide +kernel) storedLegal_aged true (some movedReply) none
  obtain ⟨d', hd', hne⟩ : ∃ d', (replies mirror (some movedReply) none).resolveTag = some d' ∧
      d' ≠ index := ⟨⟨⟨List.replicate 64 '0', by decide +kernel⟩⟩, by decide +kernel, by decide +kernel⟩
  have hentry : aged.upstreamTags.lookup (app, v1) = some (index, 0) := by decide +kernel
  obtain ⟨hcalls, rfl⟩ := htable.moved index 0 d' hentry (by decide +kernel) (by decide +kernel) hd' hne
  exact ⟨calls, w', he, htable.appended, hcalls⟩

end Quill.Registry.TagResolution
