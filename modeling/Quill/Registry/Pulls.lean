import Quill.Registry.Handlers

/-!
# What a pull of a manifest answers

`getManifest` decides from the tag maps, the caches and the disk where an answer comes
from. `found` and `asksUpstream` are these decisions as functions of the world before the
request, and `Source` says why a digest is the one that is served. `Pull` lists the
ways a pull can end (`getManifest_pull`): it is refused, it serves a manifest of the
store, or it goes on with a fetch from the upstream (`exec_fetchManifest`).
-/

namespace Quill.Registry

open Text Files Cas World LocalStorage Uploads LocalTags TagCache

variable {S : Setup} {repo reference : Str}

/-! ## Header values -/

theorem legalHeaderValue_append (s t : Str) :
    legalHeaderValue (s ++ t) = (legalHeaderValue s && legalHeaderValue t) := List.all_append

theorem legalHeaderValue_of_isLowerHex {s : Str} (h : ∀ c ∈ s, isLowerHex c = true) :
    legalHeaderValue s = true := by
  refine List.all_eq_true.mpr fun c hc => ?_
  have hhex := h c hc
  simp only [isLowerHex, Bool.or_eq_true, Bool.and_eq_true, decide_eq_true_eq] at hhex
  simp only [Bool.or_eq_true, Bool.and_eq_true, decide_eq_true_eq]
  rcases hhex with ⟨h₁, h₂⟩ | ⟨h₁, h₂⟩
  · have h₁' : 48 ≤ c.toNat := h₁
    have h₂' : c.toNat ≤ 57 := h₂
    omega
  · have h₁' : 97 ≤ c.toNat := h₁
    have h₂' : c.toNat ≤ 102 := h₂
    omega

theorem legalHeaderValue_decimal (n : Nat) : legalHeaderValue (decimal n) = true := by
  refine List.all_eq_true.mpr fun c hc => ?_
  have hdigit : c.isDigit = true := by
    refine Nat.isDigit_of_mem_toDigits (b := 10) (n := n) (by decide) (by decide) ?_
    rwa [decimal, Nat.toString_eq_repr, Nat.toList_repr] at hc
  simp only [Char.isDigit, Bool.and_eq_true, decide_eq_true_eq] at hdigit
  have h₁ : 48 ≤ c.toNat := hdigit.1
  have h₂ : c.toNat ≤ 57 := hdigit.2
  simp only [Bool.or_eq_true, Bool.and_eq_true, decide_eq_true_eq]
  omega

theorem legalHeaderValue_toStr (d : Digest) : legalHeaderValue d.toStr = true := by
  have hsplit : d.toStr = "sha256:".toList ++ d.hex.val := rfl
  rw [hsplit, legalHeaderValue_append, legalHeaderValue_of_isLowerHex d.hex.property.2]
  decide

theorem exec_build (status : Status) (headers : List (HeaderName × Str)) (body : Body)
    (w : World S) : (build status headers body : Handler S).exec w =
      (if headers.all fun h => legalHeaderValue h.2 then .ok ⟨status, headers, body⟩
        else .error .panic, w) := by
  unfold build
  split <;> rfl

/-- Only the content type of a manifest can make its response illegal. -/
theorem exec_manifestResponse (b : Bytes) (contentType : Str) (d : Digest) (withBody : Bool)
    (w : World S) : (buildManifestResponse b contentType d withBody : Handler S).exec w =
      (if legalHeaderValue contentType then
        .ok ⟨.ok, [(.contentLength, decimal b.length), (.dockerContentDigest, d.toStr),
          (.contentType, contentType)], if withBody then .bytes b else .empty⟩
        else .error .panic, w) := by
  unfold buildManifestResponse
  rw [exec_build]
  simp [legalHeaderValue_decimal, legalHeaderValue_toStr]

/-! ## Looking -/

/-- The metadata cache answers with the path of the blob. -/
def CachedPaths (w : World S) : Prop :=
  ∀ repo d m, w.metaCache.lookup (repo, d) = some m → m.path = blobPath S.root repo d

/-- A step that changes no file and no tag; with no clock readings left time stands still. -/
structure Looks (w w' : World S) : Prop where
  fs : w'.fs = w.fs
  localTags : w'.localTags = w.localTags
  upstreamTags : w'.upstreamTags = w.upstreamTags
  clock : w.ticks = [] → w'.ticks = [] ∧ w'.now = w.now
  paths : CachedPaths w → CachedPaths w'

namespace Looks

variable {w w' w'' : World S}

theorem refl (w : World S) : Looks w w := ⟨rfl, rfl, rfl, fun h => ⟨h, rfl⟩, id⟩

theorem trans (h : Looks w w') (g : Looks w' w'') : Looks w w'' := by
  refine ⟨g.fs.trans h.fs, g.localTags.trans h.localTags, g.upstreamTags.trans h.upstreamTags,
    fun hw => ?_, fun hw => g.paths (h.paths hw)⟩
  obtain ⟨hticks, hnow⟩ := h.clock hw
  obtain ⟨hticks', hnow'⟩ := g.clock hticks
  exact ⟨hticks', hnow'.trans hnow⟩

theorem tick (w : World S) : Looks w w.tick := by
  refine ⟨rfl, rfl, rfl, fun hw => ?_, id⟩
  simp [World.tick, hw]

theorem failed (w : World S) : Looks w w.failed := ⟨rfl, rfl, rfl, fun h => ⟨h, rfl⟩, id⟩

theorem filled {m : BlobMeta} {d : Digest} (w : World S) (hm : m.path = blobPath S.root repo d) :
    Looks w (w.filled repo d m) := by
  refine ⟨rfl, rfl, rfl, fun h => ⟨h, rfl⟩, fun hw r e m' hm' => ?_⟩
  by_cases hkey : (r, e) = (repo, d)
  · cases hkey
    rw [World.filled, AList.lookup_insert] at hm'
    cases hm'
    exact hm
  · rw [World.filled, AList.lookup_insert_ne hkey] at hm'
    exact hw r e m' hm'

end Looks

/-- The metadata cache answers for the blob at the next reading of the clock. -/
def cacheFresh (w : World S) (repo : Str) (d : Digest) : Bool :=
  (w.metaCache.lookup (repo, d)).any fun m => w.tick.now - m.cachedAt < S.metaTtl

/-- `blob_meta` finds the blob, in its cache or on disk. -/
def found (w : World S) (repo : Str) (d : Digest) : Bool :=
  cacheFresh w repo d || w.fs.isFile (blobPath S.root repo d)

/-- A file stands where a directory above the blob should be. -/
def obstructed (w : World S) (repo : Str) (d : Digest) : Bool :=
  (w.fs.node (blobPath S.root repo d)).isNone && w.fs.blocked (blobPath S.root repo d)

theorem exec_cacheGet {ε : Type} (w : World S) (repo : Str) (d : Digest) :
    ∃ w₁, Looks w w₁ ∧ (cacheGet repo d : Prog (World S) ε _).exec w =
      (.ok (if cacheFresh w repo d then w.metaCache.lookup (repo, d) else none), w₁) := by
  unfold cacheFresh
  cases hlook : w.metaCache.lookup (repo, d) with
  | none =>
    refine ⟨w, .refl w, ?_⟩
    simp [cacheGet, Prog.exec_bind, hlook]
  | some m =>
    refine ⟨w.tick, .tick w, ?_⟩
    simp [cacheGet, Prog.exec_bind, Prog.exec_map, hlook, instantNow, Except.map]

theorem exec_blobMeta_fresh {w : World S} {d : Digest} (hfresh : cacheFresh w repo d = true) :
    ∃ m w', Looks w w' ∧ w.metaCache.lookup (repo, d) = some m ∧
      (blobMeta repo d).exec w = (.ok (some m), w') := by
  obtain ⟨w₁, hlooks, hget⟩ := exec_cacheGet (ε := StorageError) w repo d
  obtain ⟨m, hlook, -⟩ := (Option.any_eq_true _ _).mp hfresh
  rw [hfresh, if_pos rfl, hlook] at hget
  exact ⟨m, w₁, hlooks, hlook, Prog.exec_bind_ok hget⟩

/-- Without the cache, `blob_meta` goes by the disk. -/
theorem exec_blobMeta_stale {w : World S} {d : Digest} (hstale : cacheFresh w repo d = false) :
    ∃ w', Looks w w' ∧
      ((∃ b t, w.fs.read (blobPath S.root repo d) = some b ∧
          (blobMeta repo d).exec w = (.ok (some ⟨blobPath S.root repo d, b.length, t⟩), w')) ∨
        (w.fs.isFile (blobPath S.root repo d) = false ∧ obstructed w repo d = false ∧
          (blobMeta repo d).exec w = (.ok none, w')) ∨
        (w.fs.isFile (blobPath S.root repo d) = false ∧ obstructed w repo d = true ∧
          (blobMeta repo d).exec w = (.error (.io .other), w'))) := by
  obtain ⟨w₁, hlooks, hget⟩ := exec_cacheGet (ε := StorageError) w repo d
  rw [hstale] at hget
  have hrest : (blobMeta repo d).exec w = _ := Prog.exec_bind_ok hget
  rw [hrest]
  unfold obstructed
  simp only [if_false, Bool.false_eq_true]
  rcases exec_attempt_metadata (ε := StorageError) w₁ (blobPath S.root repo d) with
    ⟨n, hn, he⟩ | ⟨hn, hb, he⟩ | ⟨hn, hb, he⟩
  · rw [Prog.exec_bind_ok he]
    rw [hlooks.fs] at hn
    cases n with
    | dir =>
      refine ⟨w₁, hlooks, Or.inr (Or.inl ⟨?_, by simp [hn], rfl⟩)⟩
      simp [Fs.isFile, Fs.read, hn]
    | file b =>
      have hstep : Looks w₁.tick (w₁.tick.filled repo d
          ⟨blobPath S.root repo d, b.length, w₁.tick.now⟩) := .filled _ rfl
      exact ⟨_, (hlooks.trans (.tick w₁)).trans hstep,
        Or.inl ⟨b, _, Fs.read_eq_some.mpr hn, rfl⟩⟩
  · rw [hlooks.fs] at hn hb
    rw [Prog.exec_bind_ok he]
    refine ⟨_, hlooks.trans (.failed w₁), Or.inr (Or.inr ⟨?_, by simp [hn, hb], rfl⟩)⟩
    simp [Fs.isFile, Fs.read, hn]
  · rw [hlooks.fs] at hn hb
    rw [Prog.exec_bind_ok he]
    refine ⟨_, hlooks, Or.inr (Or.inl ⟨?_, by simp [hb], rfl⟩)⟩
    simp [Fs.isFile, Fs.read, hn]

/-- `blob_meta` finds the blob under its path, or nothing, or is obstructed. -/
theorem blobMeta_looks (w : World S) (repo : Str) (d : Digest) :
    ∃ w', Looks w w' ∧
      ((found w repo d = true ∧ ∃ m, (CachedPaths w → m.path = blobPath S.root repo d) ∧
          (blobMeta repo d).exec w = (.ok (some m), w')) ∨
        (found w repo d = false ∧ obstructed w repo d = false ∧
          (blobMeta repo d).exec w = (.ok none, w')) ∨
        (found w repo d = false ∧ obstructed w repo d = true ∧
          (blobMeta repo d).exec w = (.error (.io .other), w'))) := by
  cases hfresh : cacheFresh w repo d with
  | true =>
    obtain ⟨m, w₁, hlooks, hlook, he⟩ := exec_blobMeta_fresh hfresh
    exact ⟨w₁, hlooks, Or.inl ⟨by simp [found, hfresh], m, fun hw => hw repo d m hlook, he⟩⟩
  | false =>
    have hfound : found w repo d = w.fs.isFile (blobPath S.root repo d) := by simp [found, hfresh]
    obtain ⟨w₁, hlooks, ⟨b, t, hb, he⟩ | hrest⟩ := exec_blobMeta_stale hfresh
    · exact ⟨w₁, hlooks, Or.inl ⟨by simp [hfound, Fs.isFile, hb], _, fun _ => rfl, he⟩⟩
    · rw [hfound]
      exact ⟨w₁, hlooks, Or.inr hrest⟩

/-- A manifest whose file is there is read and served. -/
theorem serveLocalManifest_present {w : World S} (hw : CachedPaths w) {d : Digest} {b : Bytes}
    (hb : w.fs.read (blobPath S.root repo d) = some b) (reference : Str) (withBody : Bool) :
    ∃ w', Looks w w' ∧ (serveLocalManifest repo d reference withBody : Handler S).exec w =
      (buildManifestResponse b (Manifest.mediaType (S.serde.fromSlice b)) d withBody :
        Handler S).exec w' := by
  have hfound : found w repo d = true := by simp [found, Fs.isFile, hb]
  obtain ⟨w₁, hlooks, ⟨-, m, hpath, hmeta⟩ | ⟨hno, -, -⟩ | ⟨hno, -, -⟩⟩ := blobMeta_looks w repo d
  · have hfirst : (serveLocalManifest repo d reference withBody : Handler S).exec w = _ :=
      Prog.exec_bind_ok (Prog.exec_attempt_eq.mpr hmeta)
    rcases Fs.exec_readFile m.path w₁.fs with ⟨c, hc, he⟩ | ⟨hnone, -⟩
    · rw [hlooks.fs, hpath hw, hb] at hc
      cases hc
      have hread : (readBlobToBytes m).exec w₁ = (.ok b, w₁) := exec_mapError_ok (exec_onFs_ok he)
      rw [hfirst]
      exact ⟨w₁, hlooks, Prog.exec_bind_ok (Prog.exec_attempt_eq.mpr hread)⟩
    · rw [hlooks.fs, hpath hw, hb] at hnone
      cases hnone
  · rw [hfound] at hno
    cases hno
  · rw [hfound] at hno
    cases hno

/-- A manifest of the store is read and served, or the request is refused. -/
theorem serveLocalManifest_looks {w : World S} (hw : CachedPaths w) (repo : Str) (d : Digest)
    (reference : Str) (withBody : Bool) :
    ∃ w', Looks w w' ∧
      ((∃ resp, resp.status ≠ .ok ∧
          (serveLocalManifest repo d reference withBody : Handler S).exec w = (.ok resp, w')) ∨
        ∃ b, w.fs.read (blobPath S.root repo d) = some b ∧
          (serveLocalManifest repo d reference withBody : Handler S).exec w =
            (buildManifestResponse b (Manifest.mediaType (S.serde.fromSlice b)) d withBody :
              Handler S).exec w') := by
  obtain ⟨w₁, hlooks, ⟨-, m, hpath, hmeta⟩ | ⟨-, -, hmeta⟩ | ⟨-, -, hmeta⟩⟩ :=
    blobMeta_looks w repo d
  · have hfirst : (serveLocalManifest repo d reference withBody : Handler S).exec w = _ :=
      Prog.exec_bind_ok (Prog.exec_attempt_eq.mpr hmeta)
    rw [hfirst]
    rcases Fs.exec_readFile m.path w₁.fs with ⟨b, hb, he⟩ | ⟨-, e, he⟩
    · have hread : (readBlobToBytes m).exec w₁ = (.ok b, w₁) := exec_mapError_ok (exec_onFs_ok he)
      rw [hlooks.fs, hpath hw] at hb
      exact ⟨w₁, hlooks, Or.inr ⟨b, hb, Prog.exec_bind_ok (Prog.exec_attempt_eq.mpr hread)⟩⟩
    · have hread : (readBlobToBytes m).exec w₁ = (.error (.io e), w₁.failed) :=
        exec_mapError_error (exec_onFs_error he)
      refine ⟨_, hlooks.trans (.failed w₁), Or.inl ⟨internalErr (.storage (.io e)), ?_, ?_⟩⟩
      · exact show Status.internalServerError ≠ .ok by decide
      · exact Prog.exec_bind_ok (Prog.exec_attempt_eq.mpr hread)
  · refine ⟨w₁, hlooks, Or.inl ⟨manifestUnknown reference, ?_, ?_⟩⟩
    · exact show Status.notFound ≠ .ok by decide
    · exact Prog.exec_bind_ok (Prog.exec_attempt_eq.mpr hmeta)
  · refine ⟨w₁, hlooks, Or.inl ⟨internalErr (.storage (.io .other)), ?_, ?_⟩⟩
    · exact show Status.internalServerError ≠ .ok by decide
    · exact Prog.exec_bind_ok (Prog.exec_attempt_eq.mpr hmeta)

/-! ## Where an answer comes from -/

/-- The digest of a locally pushed tag. -/
def localDigest (w : World S) (repo tag : Str) : Option Digest :=
  (w.localTags.lookup (repo, tag)).bind fun t => (Digest.parse t.digest).toOption

theorem localDigest_eq_some {w : World S} {tag : Str} {d : Digest} :
    localDigest w repo tag = some d ↔
      ∃ t, w.localTags.lookup (repo, tag) = some t ∧ Digest.parse t.digest = .ok d := by
  unfold localDigest
  rw [Option.bind_eq_some_iff]
  refine exists_congr fun t => and_congr_right fun _ => ?_
  cases Digest.parse t.digest with
  | error e => simp [Except.toOption]
  | ok d' => simp [Except.toOption]

/-- A tag that is not local is fetched, given what a `HEAD` answers. -/
def fetchesTag (w : World S) (repo tag : Str) (head : Option Digest) : Bool :=
  match w.upstreamTags.lookup (repo, tag) with
  | none => true
  | some (d, fetchedAt) =>
    if w.tick.now - fetchedAt < S.tagTtl then !found w.tick repo d
    else if (S.route repo).isNone then !found w.tick repo d
    else
      match head with
      | some d' => if d' = d then !found w.tick.tick repo d else true
      | none => !found w.tick repo d

/-- The request fetches the manifest from the upstream, given what a `HEAD` answers. -/
def asksUpstream (w : World S) (repo reference : Str) (head : Option Digest) : Bool :=
  (S.route repo).isSome &&
    match Digest.parse reference with
    | .ok d => !found w repo d && !obstructed w repo d
    | .error _ => (localDigest w repo reference).isNone && fetchesTag w repo reference head

/-- The reference is no digest. -/
def IsTag (reference : Str) : Prop := ∃ e, Digest.parse reference = .error e

instance (reference : Str) : Decidable (IsTag reference) :=
  match h : Digest.parse reference with
  | .error e => .isTrue ⟨e, h⟩
  | .ok d => .isFalse fun ⟨e, he⟩ => by cases h.symm.trans he

/-- Why the digest is the one that is served from the store. -/
inductive Source (w : World S) (repo reference : Str) (head : Option Digest) : Digest → Prop
  | digest {d : Digest} (href : Digest.parse reference = .ok d) : Source w repo reference head d
  | localTag {d : Digest} (htag : IsTag reference) (hd : localDigest w repo reference = some d) :
      Source w repo reference head d
  | fresh {d : Digest} {t : Nat} (htag : IsTag reference)
      (hentry : w.upstreamTags.lookup (repo, reference) = some (d, t))
      (hfresh : w.tick.now - t < S.tagTtl) : Source w repo reference head d
  | confirmed {d : Digest} {t : Nat} (htag : IsTag reference)
      (hentry : w.upstreamTags.lookup (repo, reference) = some (d, t))
      (hroute : (S.route repo).isSome = true) (hhead : head = some d) :
      Source w repo reference head d
  | unconfirmed {d : Digest} {t : Nat} (htag : IsTag reference)
      (hentry : w.upstreamTags.lookup (repo, reference) = some (d, t))
      (hstale : ¬ w.tick.now - t < S.tagTtl) (hunsure : S.route repo = none ∨ head = none) :
      Source w repo reference head d

/-- A requested digest is the digest that is served. -/
theorem Source.eq_of_digest {w : World S} {head : Option Digest} {d d' : Digest}
    (h : Source w repo reference head d) (hd' : Digest.parse reference = .ok d') : d' = d := by
  have hno : ¬ IsTag reference := by
    rintro ⟨e, he⟩
    cases hd'.symm.trans he
  cases h with
  | digest href => exact Except.ok.inj (hd'.symm.trans href)
  | localTag htag => exact absurd htag hno
  | fresh htag => exact absurd htag hno
  | confirmed htag => exact absurd htag hno
  | unconfirmed htag => exact absurd htag hno

/-- Up to the answer a pull only looks, except that a confirmed tag becomes fresh. -/
structure Settles (repo reference : Str) (head : Option Digest) (w w' : World S) : Prop where
  fs : w'.fs = w.fs
  localTags : w'.localTags = w.localTags
  upstreamTags : w'.upstreamTags = w.upstreamTags ∨ ∃ d t t',
    w.upstreamTags.lookup (repo, reference) = some (d, t) ∧ (S.route repo).isSome = true ∧
      head = some d ∧ (w.ticks = [] → t' = w.now) ∧
      w'.upstreamTags = w.upstreamTags.insert (repo, reference) (d, t')
  clock : w.ticks = [] → w'.ticks = [] ∧ w'.now = w.now
  paths : CachedPaths w → CachedPaths w'

theorem Looks.settles {w w' : World S} {head : Option Digest} (h : Looks w w') :
    Settles repo reference head w w' := ⟨h.fs, h.localTags, Or.inl h.upstreamTags, h.clock, h.paths⟩

theorem Settles.looks {w w' w'' : World S} {head : Option Digest}
    (h : Settles repo reference head w w') (g : Looks w' w'') :
    Settles repo reference head w w'' := by
  refine ⟨g.fs.trans h.fs, g.localTags.trans h.localTags, ?_, fun hw => ?_,
    fun hw => g.paths (h.paths hw)⟩
  · rw [g.upstreamTags]
    exact h.upstreamTags
  · obtain ⟨hticks, hnow⟩ := h.clock hw
    obtain ⟨hticks', hnow'⟩ := g.clock hticks
    exact ⟨hticks', hnow'.trans hnow⟩

/-- The world after a call to an upstream. -/
def called (w : World S) (c : UpstreamCall) : World S :=
  { w with log := { w.log with calls := w.log.calls ++ [c] } }

theorem Looks.called (w : World S) (c : UpstreamCall) : Looks w (Registry.called w c) :=
  ⟨rfl, rfl, rfl, fun h => ⟨h, rfl⟩, id⟩

theorem exec_call {ε : Type} (w : World S) (c : UpstreamCall) :
    (call c : Prog (World S) ε Unit).exec w = (.ok (), called w c) := rfl

/-- The ways a pull of a manifest can end. -/
inductive Pull (S : Setup) (repo reference : Str) (withBody : Bool) (up : Replies) (w : World S) :
    Except Abort Response × World S → Prop
  | refused {resp : Response} {w' : World S}
      (hasks : asksUpstream w repo reference up.resolveTag = false)
      (hsettles : Settles repo reference up.resolveTag w w') (hstatus : resp.status ≠ .ok) :
      Pull S repo reference withBody up w (.ok resp, w')
  | stored {d : Digest} {b : Bytes} {w' : World S}
      (hasks : asksUpstream w repo reference up.resolveTag = false)
      (hsource : Source w repo reference up.resolveTag d)
      (hsettles : Settles repo reference up.resolveTag w w')
      (hread : w.fs.read (blobPath S.root repo d) = some b) :
      Pull S repo reference withBody up w ((buildManifestResponse b
        (Manifest.mediaType (S.serde.fromSlice b)) d withBody : Handler S).exec w')
  | fetched {w' : World S} (hasks : asksUpstream w repo reference up.resolveTag = true)
      (hsettles : Settles repo reference up.resolveTag w w') :
      Pull S repo reference withBody up w ((fetchAndServeUpstreamManifest repo reference withBody
        up.getManifest : Handler S).exec w')

section Pull

variable {w w₁ : World S} {withBody : Bool} {up : Replies} {d : Digest}

theorem serveLocalManifest_pull (hw : CachedPaths w)
    (hasks : asksUpstream w repo reference up.resolveTag = false)
    (hsource : Source w repo reference up.resolveTag d)
    (hsettles : Settles repo reference up.resolveTag w w₁) :
    Pull S repo reference withBody up w
      ((serveLocalManifest repo d reference withBody : Handler S).exec w₁) := by
  obtain ⟨w₂, hlooks, ⟨resp, hstatus, he⟩ | ⟨b, hb, he⟩⟩ :=
    serveLocalManifest_looks (hsettles.paths hw) repo d reference withBody
  · rw [he]
    exact .refused hasks (hsettles.looks hlooks) hstatus
  · rw [he]
    rw [hsettles.fs] at hb
    exact .stored hasks hsource (hsettles.looks hlooks) hb

theorem fetchManifestOrUnknown_pull
    (hasks : asksUpstream w repo reference up.resolveTag = (S.route repo).isSome)
    (hsettles : Settles repo reference up.resolveTag w w₁) :
    Pull S repo reference withBody up w
      ((fetchManifestOrUnknown repo reference withBody up : Handler S).exec w₁) := by
  unfold fetchManifestOrUnknown
  cases hroute : S.route repo with
  | none =>
    rw [hroute] at hasks
    exact .refused hasks hsettles (show Status.notFound ≠ .ok by decide)
  | some p =>
    rw [hroute] at hasks
    exact .fetched hasks hsettles

theorem serveIfPresent_pull (hw : CachedPaths w)
    (hasks : asksUpstream w repo reference up.resolveTag =
      ((S.route repo).isSome && !found w₁ repo d))
    (hsource : Source w repo reference up.resolveTag d)
    (hsettles : Settles repo reference up.resolveTag w w₁) :
    Pull S repo reference withBody up w ((serveIfPresent repo d reference withBody
      (fetchManifestOrUnknown repo reference withBody up) : Handler S).exec w₁) := by
  obtain ⟨w₂, hlooks, ⟨hfound, m, -, hmeta⟩ | ⟨hfound, -, hmeta⟩ | ⟨hfound, -, hmeta⟩⟩ :=
    blobMeta_looks w₁ repo d
  · have hrest : (serveIfPresent repo d reference withBody
        (fetchManifestOrUnknown repo reference withBody up) : Handler S).exec w₁ = _ :=
      Prog.exec_bind_ok (Prog.exec_attempt_eq.mpr hmeta)
    rw [hrest]
    exact serveLocalManifest_pull hw (by simpa [hfound] using hasks) hsource
      (hsettles.looks hlooks)
  · have hrest : (serveIfPresent repo d reference withBody
        (fetchManifestOrUnknown repo reference withBody up) : Handler S).exec w₁ = _ :=
      Prog.exec_bind_ok (Prog.exec_attempt_eq.mpr hmeta)
    rw [hrest]
    exact fetchManifestOrUnknown_pull (by simpa [hfound] using hasks) (hsettles.looks hlooks)
  · have hrest : (serveIfPresent repo d reference withBody
        (fetchManifestOrUnknown repo reference withBody up) : Handler S).exec w₁ = _ :=
      Prog.exec_bind_ok (Prog.exec_attempt_eq.mpr hmeta)
    rw [hrest]
    exact fetchManifestOrUnknown_pull (by simpa [hfound] using hasks) (hsettles.looks hlooks)

theorem getManifestByDigest_pull (hw : CachedPaths w) (href : Digest.parse reference = .ok d) :
    Pull S repo reference withBody up w
      ((getManifestByDigest repo reference d withBody up : Handler S).exec w) := by
  have hasks : asksUpstream w repo reference up.resolveTag =
      ((S.route repo).isSome && (!found w repo d && !obstructed w repo d)) := by
    simp [asksUpstream, href]
  obtain ⟨w₁, hlooks, ⟨hfound, m, -, hmeta⟩ | ⟨hfound, hobs, hmeta⟩ | ⟨hfound, hobs, hmeta⟩⟩ :=
    blobMeta_looks w repo d
  · have hrest : (getManifestByDigest repo reference d withBody up : Handler S).exec w = _ :=
      Prog.exec_bind_ok (Prog.exec_attempt_eq.mpr hmeta)
    rw [hrest]
    exact serveLocalManifest_pull hw (by simpa [hfound] using hasks) (.digest href) hlooks.settles
  · have hrest : (getManifestByDigest repo reference d withBody up : Handler S).exec w = _ :=
      Prog.exec_bind_ok (Prog.exec_attempt_eq.mpr hmeta)
    rw [hrest]
    exact fetchManifestOrUnknown_pull (by simpa [hfound, hobs] using hasks) hlooks.settles
  · have hrest : (getManifestByDigest repo reference d withBody up : Handler S).exec w = _ :=
      Prog.exec_bind_ok (Prog.exec_attempt_eq.mpr hmeta)
    rw [hrest]
    exact .refused (by simpa [hobs] using hasks) hlooks.settles
      (show Status.internalServerError ≠ .ok by decide)

theorem exec_tagCacheLookup {ε : Type} (w : World S) (repo tag : Str) :
    (TagCache.lookup repo tag : Prog (World S) ε TagCacheState).exec w =
      match w.upstreamTags.lookup (repo, tag) with
      | none => (.ok .miss, w)
      | some (d, t) => (.ok (if w.tick.now - t < S.tagTtl then .fresh d else .stale d), w.tick) := by
  unfold TagCache.lookup
  rw [Prog.exec_bind_ok (Prog.exec_get w)]
  cases w.upstreamTags.lookup (repo, tag) with
  | none => rfl
  | some e => rfl

/-- A confirmed tag is stamped with the next reading of the clock. -/
theorem exec_touch {ε : Type} {t : Nat} (hentry : w.upstreamTags.lookup (repo, reference) = some (d, t)) :
    (touch repo reference : Prog (World S) ε Unit).exec w =
      (.ok (), { w.tick with
        upstreamTags := w.upstreamTags.insert (repo, reference) (d, w.tick.now) }) := by
  unfold touch
  rw [Prog.exec_bind_ok (Prog.exec_get w)]
  simp only [hentry]
  rfl

theorem getManifestByTag_pull (hw : CachedPaths w) {e : DigestError}
    (href : Digest.parse reference = .error e) (hlocal : localDigest w repo reference = none) :
    Pull S repo reference withBody up w
      ((getManifestByTag repo reference withBody up : Handler S).exec w) := by
  have hasks : asksUpstream w repo reference up.resolveTag =
      ((S.route repo).isSome && fetchesTag w repo reference up.resolveTag) := by
    simp [asksUpstream, href, hlocal]
  have hlookup := exec_tagCacheLookup (ε := Abort) w repo reference
  unfold fetchesTag at hasks
  cases hentry : w.upstreamTags.lookup (repo, reference) with
  | none =>
    simp only [hentry, Bool.and_true] at hlookup hasks
    have hrest : (getManifestByTag repo reference withBody up : Handler S).exec w = _ :=
      Prog.exec_bind_ok hlookup
    rw [hrest]
    exact fetchManifestOrUnknown_pull hasks (Looks.refl w).settles
  | some entry =>
    obtain ⟨d, t⟩ := entry
    simp only [hentry] at hlookup hasks
    have hrest : (getManifestByTag repo reference withBody up : Handler S).exec w = _ :=
      Prog.exec_bind_ok hlookup
    rw [hrest]
    have htick : Settles repo reference up.resolveTag w w.tick := (Looks.tick w).settles
    by_cases hfresh : w.tick.now - t < S.tagTtl
    · simp only [if_pos hfresh] at hasks ⊢
      exact serveIfPresent_pull hw hasks (.fresh ⟨e, href⟩ hentry hfresh) htick
    · simp only [if_neg hfresh] at hasks ⊢
      cases hroute : S.route repo with
      | none =>
        simp only [hroute, Option.isNone_none, if_true] at hasks
        refine serveIfPresent_pull hw ?_ (.unconfirmed ⟨e, href⟩ hentry hfresh (Or.inl hroute)) htick
        rw [hasks, hroute]
      | some p =>
        simp only [hroute, Option.isNone_some, Bool.false_eq_true, if_false] at hasks
        simp only
        rw [Prog.exec_bind_ok (exec_call w.tick _)]
        have hcalled := htick.looks (Looks.called w.tick (.resolveTag repo reference))
        cases hhead : up.resolveTag with
        | none =>
          simp only [hhead] at hasks
          refine serveIfPresent_pull hw ?_ (.unconfirmed ⟨e, href⟩ hentry hfresh (Or.inr hhead)) hcalled
          rw [hhead, hasks, hroute]
          rfl
        | some d' =>
          by_cases hsame : d' = d
          · subst hsame
            simp only [hhead, if_true] at hasks
            simp only [if_true]
            have htouch := exec_touch (ε := Abort) (w := called w.tick (.resolveTag repo reference)) hentry
            rw [Prog.exec_bind_ok htouch]
            refine serveIfPresent_pull hw ?_ (.confirmed ⟨e, href⟩ hentry (by simp [hroute]) hhead) ?_
            · rw [hhead, hasks, hroute]
              rfl
            · refine ⟨rfl, rfl, Or.inr ⟨d', t, _, hentry, by simp [hroute], hhead, fun hticks => ?_, rfl⟩,
                fun hticks => ?_, id⟩
              · simp [World.tick, called, hticks]
              · simp [World.tick, called, hticks]
          · simp only [hhead, if_neg hsame] at hasks
            simp only [if_neg hsame]
            refine fetchManifestOrUnknown_pull ?_ hcalled
            rw [hhead, hasks, hroute]
            rfl

/-- A pull of a manifest is refused, served from the store or fetched. -/
theorem getManifest_pull (hw : CachedPaths w) (repo reference : Str) (withBody : Bool)
    (up : Replies) :
    Pull S repo reference withBody up w
      ((getManifest repo reference withBody up : Handler S).exec w) := by
  unfold getManifest
  cases href : Digest.parse reference with
  | ok d => exact getManifestByDigest_pull hw href
  | error e =>
    simp only
    rw [Prog.exec_bind_ok (Prog.exec_get w)]
    cases htag : w.localTags.lookup (repo, reference) with
    | none => exact getManifestByTag_pull hw href (by simp [localDigest, htag])
    | some tag =>
      simp only
      cases hd : Digest.parse tag.digest with
      | error e' =>
        exact getManifestByTag_pull hw href (by simp [localDigest, htag, hd, Except.toOption])
      | ok d =>
        have hlocal : localDigest w repo reference = some d := localDigest_eq_some.mpr ⟨tag, htag, hd⟩
        refine serveLocalManifest_pull hw ?_ (.localTag ⟨e, href⟩ hlocal) (Looks.refl w).settles
        simp [asksUpstream, href, hlocal]

end Pull

/-! ## Fetching from the upstream -/

/-- The cache of upstream tags and, with no clock readings left, time stay as they are. -/
def still : Evolution (World S) where
  rel w w' := w'.upstreamTags = w.upstreamTags ∧ (w.ticks = [] → w'.ticks = [] ∧ w'.now = w.now)
  refl _ := ⟨rfl, fun h => ⟨h, rfl⟩⟩
  trans h g := by
    refine ⟨g.1.trans h.1, fun hw => ?_⟩
    obtain ⟨hticks, hnow⟩ := h.2 hw
    obtain ⟨hticks', hnow'⟩ := g.2 hticks
    exact ⟨hticks', hnow'.trans hnow⟩

section Still

variable {ε α : Type}

theorem onFs_still (m : Prog Fs IoKind α) : Moves still (onFs m : Prog (World S) IoKind α) := by
  intro w
  unfold onFs
  simp only [Prog.exec_ofFun]
  rcases m.exec w.fs with ⟨_ | a, fs'⟩
  · exact ⟨rfl, fun h => ⟨h, rfl⟩⟩
  · exact ⟨rfl, fun h => ⟨h, rfl⟩⟩

theorem probeFs_still (m : Prog Fs IoKind α) : Moves still (probeFs m : Prog (World S) IoKind α) := by
  intro w
  unfold probeFs
  simp only [Prog.exec_ofFun]
  rcases m.exec w.fs with ⟨_ | a, fs'⟩
  · exact ⟨rfl, fun h => ⟨h, rfl⟩⟩
  · exact ⟨rfl, fun h => ⟨h, rfl⟩⟩

theorem instantNow_still : Moves still (instantNow : Prog (World S) ε Nat) := by
  intro w
  refine ⟨rfl, fun hticks => ?_⟩
  simp [instantNow, World.tick, hticks]

theorem wallNow_still : Moves still (wallNow : Prog (World S) ε Nat) :=
  fun _ => ⟨rfl, fun h => ⟨h, rfl⟩⟩

theorem putBlobBuffered_still (repo : Str) (d : Digest) (b : Bytes) :
    Moves still (putBlobBuffered (S := S) repo d b) := by
  unfold putBlobBuffered
  refine Moves.of_ite (fun _ => Moves.of_throw _) fun _ => ?_
  refine ((onFs_still _).of_mapError _).seq fun _ => ?_
  refine (wallNow_still.seq fun _ => Moves.of_pure _).seq fun tmp => ?_
  refine ((onFs_still _).of_mapError _).seq fun _ => ?_
  refine ((onFs_still _).of_mapError _).seq fun _ => ?_
  refine Moves.seq (fun _ => ⟨rfl, fun h => ⟨h, rfl⟩⟩) fun _ => ?_
  refine instantNow_still.seq fun now => ?_
  exact Moves.seq (fun _ => ⟨rfl, fun h => ⟨h, rfl⟩⟩) fun _ => Moves.of_pure _

theorem persistRepo_still (repo : Str) : Moves still (persistRepo repo : Prog (World S) ε Unit) := by
  refine (onFs_still _).of_attempt.seq fun _ => ?_
  refine Moves.of_get.seq fun w => ?_
  exact (onFs_still _).of_attempt.seq fun _ => Moves.of_pure _

/-- An insertion sets one entry, stamped with the time. -/
theorem exec_tagCacheInsert (w : World S) (repo tag : Str) (d : Digest) :
    ∃ w' t, (TagCache.insert repo tag d : Prog (World S) ε Unit).exec w = (.ok (), w') ∧
      w'.upstreamTags = w.upstreamTags.insert (repo, tag) (d, t) ∧
      (w.ticks = [] → w'.ticks = [] ∧ w'.now = w.now ∧ t = w.now) := by
  have hpersist := persistRepo_still (S := S) (ε := ε) repo
    { w.tick with upstreamTags := w.upstreamTags.insert (repo, tag) (d, w.tick.now) }
  obtain ⟨htags, hclock⟩ := hpersist
  refine ⟨_, w.tick.now, Prod.ext ?_ rfl, htags, fun hticks => ?_⟩
  · rfl
  · have htick : w.tick.ticks = [] ∧ w.tick.now = w.now := by simp [World.tick, hticks]
    obtain ⟨h₁, h₂⟩ := hclock htick.1
    exact ⟨h₁, h₂.trans htick.2, htick.2⟩

end Still

/-- What a fetch leaves: a tag is recorded with the digest of the reply. -/
structure Fetched (repo reference : Str) (d : Digest) (w w' : World S) : Prop where
  upstreamTags : (∃ d', Digest.parse reference = .ok d' ∧ w'.upstreamTags = w.upstreamTags) ∨
    IsTag reference ∧ ∃ t, (w.ticks = [] → t = w.now) ∧
      w'.upstreamTags = w.upstreamTags.insert (repo, reference) (d, t)
  clock : w.ticks = [] → w'.ticks = [] ∧ w'.now = w.now

/-- A reply of the upstream is served as it is, whether or not it could be stored. -/
theorem exec_fetchManifest (w : World S) (repo reference : Str) (withBody : Bool)
    (m : ManifestResponse) :
    ∃ w', Fetched repo reference m.digest w w' ∧
      (fetchAndServeUpstreamManifest repo reference withBody (some m) : Handler S).exec w =
        (buildManifestResponse m.bytes m.contentType m.digest withBody : Handler S).exec w' := by
  obtain ⟨htags, hclock⟩ := putBlobBuffered_still (S := S) repo m.digest m.bytes
    (called w (.getManifest repo reference))
  have hfirst : (fetchAndServeUpstreamManifest repo reference withBody (some m) :
      Handler S).exec w = _ := Prog.exec_bind_ok (exec_call w (.getManifest repo reference))
  rw [hfirst]
  simp only
  rw [Prog.exec_bind_ok (Prog.exec_attempt _ _)]
  cases href : Digest.parse reference with
  | ok d' => exact ⟨_, ⟨Or.inl ⟨d', href, htags⟩, hclock⟩, rfl⟩
  | error e =>
    simp only
    obtain ⟨w', t, he, htags', hclock'⟩ := exec_tagCacheInsert (ε := Abort)
      ((putBlobBuffered repo m.digest m.bytes).exec (called w (.getManifest repo reference))).2
      repo reference m.digest
    rw [Prog.exec_bind_ok he]
    refine ⟨w', ⟨Or.inr ⟨⟨e, href⟩, t, fun hticks => ?_, ?_⟩, fun hticks => ?_⟩, rfl⟩
    · obtain ⟨h₁, h₂⟩ := hclock hticks
      exact (hclock' h₁).2.2.trans h₂
    · rw [htags', htags]
      rfl
    · obtain ⟨h₁, h₂⟩ := hclock hticks
      obtain ⟨h₃, h₄, -⟩ := hclock' h₁
      exact ⟨h₃, h₄.trans h₂⟩

end Quill.Registry
