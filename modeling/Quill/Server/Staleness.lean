import Quill.Base.Runs
import Quill.Registry.SelfConsistency
import Quill.Registry.UpstreamTags
import Quill.Server.Startup

/-!
# How old an upstream tag can be

A cached upstream tag carries the time at which the upstream last confirmed it, and it is
served without asking again while it is younger than the time to live. Only the digest
is written to `_upstream_tags.json`: `load_existing_upstream_tags` stamps everything it
finds with the time of the restart.

A `Proxy` is a server together with the tags its upstream has and had. As long as every
restart loads only digests that the upstream still has, each served digest is one that the
upstream had within the time to live (`tags_stay_fresh`). A restart after the upstream
has moved a tag makes an outdated digest fresh again (`restart_revives_tag`).
-/

namespace Quill.Server

open Text Files Cas World LocalStorage LocalTags Registry TagCache

/-! ## What a pull records -/

section Recorded

variable {S : Setup} {repo reference : Str}

/-- An entry of the cache of upstream tags that was there before, or that the upstream confirmed
during the request. -/
def Stamped (repo reference : Str) (up : Replies) (w : World S) (key : Str × Str) (d : Digest)
    (t : Nat) : Prop :=
  w.upstreamTags.lookup key = some (d, t) ∨
    (key = (repo, reference) ∧ (w.ticks = [] → t = w.now) ∧ (up.resolveTag = some d ∨
      ∃ m, up.getManifest = some m ∧ IsTag reference ∧ m.digest = d))

theorem stamped_of_settles {w w' : World S} {up : Replies}
    (h : Settles repo reference up.resolveTag w w') {key : Str × Str} {d : Digest} {t : Nat}
    (hlook : w'.upstreamTags.lookup key = some (d, t)) : Stamped repo reference up w key d t := by
  rcases h.upstreamTags with hsame | ⟨d', t', t'', hentry, -, hhead, ht, hinsert⟩
  · exact Or.inl (hsame ▸ hlook)
  · rw [hinsert] at hlook
    by_cases hkey : key = (repo, reference)
    · subst hkey
      rw [AList.lookup_insert] at hlook
      cases hlook
      exact Or.inr ⟨rfl, ht, Or.inl hhead⟩
    · rw [AList.lookup_insert_ne hkey] at hlook
      exact Or.inl hlook

/-- A pull leaves time as it is and records only what the upstream confirmed. -/
theorem stamped_of_pull {w : World S} {withBody : Bool} {up : Replies}
    {out : Except Abort Response × World S} (h : Pull S repo reference withBody up w out) :
    (w.ticks = [] → out.2.ticks = [] ∧ out.2.now = w.now) ∧
      ∀ key d t, out.2.upstreamTags.lookup key = some (d, t) →
        Stamped repo reference up w key d t := by
  cases h with
  | refused hasks hsettles => exact ⟨hsettles.clock, fun key d t hlook => stamped_of_settles hsettles hlook⟩
  | stored hasks hsource hsettles =>
    rw [exec_manifestResponse]
    exact ⟨hsettles.clock, fun key d t hlook => stamped_of_settles hsettles hlook⟩
  | @fetched w₁ hasks hsettles =>
    cases hreply : up.getManifest with
    | none => exact ⟨hsettles.clock, fun key d t hlook => stamped_of_settles hsettles hlook⟩
    | some m =>
      obtain ⟨w₂, hfetched, hrun⟩ := exec_fetchManifest w₁ repo reference withBody m
      rw [hrun, exec_manifestResponse]
      refine ⟨fun hticks => ?_, fun key d t hlook => ?_⟩
      · obtain ⟨h₁, h₂⟩ := hsettles.clock hticks
        obtain ⟨h₃, h₄⟩ := hfetched.clock h₁
        exact ⟨h₃, h₄.trans h₂⟩
      · rcases hfetched.upstreamTags with ⟨-, -, hsame⟩ | ⟨htag, t', ht', hinsert⟩
        · exact stamped_of_settles hsettles (hsame ▸ hlook)
        · rw [hinsert] at hlook
          by_cases hkey : key = (repo, reference)
          · subst hkey
            rw [AList.lookup_insert] at hlook
            cases hlook
            refine Or.inr ⟨rfl, fun hticks => ?_, Or.inr ⟨m, hreply, htag, rfl⟩⟩
            obtain ⟨h₁, h₂⟩ := hsettles.clock hticks
            exact (ht' h₁).trans h₂
          · rw [AList.lookup_insert_ne hkey] at hlook
            exact stamped_of_settles hsettles hlook

/-- A request for a manifest leaves time as it is and records only what the upstream confirmed. -/
theorem dispatch_stamped {w : World S} (hw : CachedPaths w) {req : Request}
    (hsplit : split req.rest = (repo, .manifest reference)) :
    (w.ticks = [] → ((dispatch req : Handler S).exec w).2.ticks = [] ∧
        ((dispatch req : Handler S).exec w).2.now = w.now) ∧
      ∀ key d t, ((dispatch req : Handler S).exec w).2.upstreamTags.lookup key = some (d, t) →
        Stamped repo reference req.upstream w key d t := by
  have hstill : ∀ w', still.rel w w' → (w.ticks = [] → w'.ticks = [] ∧ w'.now = w.now) ∧
      ∀ key d t, w'.upstreamTags.lookup key = some (d, t) →
        Stamped repo reference req.upstream w key d t :=
    fun w' h => ⟨h.2, fun key d t hlook => Or.inl (h.1 ▸ hlook)⟩
  by_cases hrepo : (split req.rest).1 = []
  · rw [dispatch_unnamed hrepo]
    exact hstill w (still.refl w)
  · rw [dispatch_named hrepo, hsplit]
    cases hm : req.method with
    | get =>
      simp only [route, hm, Prog.exec_map]
      exact stamped_of_pull (getManifest_pull hw repo reference true req.upstream)
    | head =>
      simp only [route, hm, Prog.exec_map]
      exact stamped_of_pull (getManifest_pull hw repo reference false req.upstream)
    | put =>
      simp only [route, hm]
      exact hstill _ (putManifest_still reference req.contentType req.body w)
    | delete =>
      simp only [route, hm]
      exact hstill _ (deleteManifest_still reference w)
    | patch =>
      simp only [route, hm]
      exact hstill w (still.refl w)
    | post =>
      simp only [route, hm]
      exact hstill w (still.refl w)
    | other =>
      simp only [route, hm]
      exact hstill w (still.refl w)

end Recorded

/-! ## Loading the cache -/

section Loading

variable (S : Setup) (fromStr : Bytes → Option (AList fun _ : Str => Str))

/-- The cache of upstream tags: digests with the times they are taken to be confirmed at. -/
abbrev UpstreamTags := AList fun _ : Str × Str => Digest × Nat

/-- What `_upstream_tags.json` of a repository holds; nothing when it does not parse. -/
def onDisk (fs : Fs) (repo : Str) : AList fun _ : Str => Str :=
  ((fs.read (upstreamTagsPath S.root repo)).bind fromStr).getD ∅

/-- `UpstreamTagCache::load_repo`: every digest that parses is stamped with the current time. -/
def loadUpstreamRepo (fs : Fs) (now : Nat) (repo : Str) (map : UpstreamTags) : UpstreamTags :=
  (onDisk S fromStr fs repo).entries.foldl (fun map e =>
    match Digest.parse e.2 with
    | .ok d => map.insert (repo, e.1) (d, now)
    | .error _ => map) map

/-- One directory of the scan. -/
def loadUpstreamDir (fs : Fs) (now : Nat) (map : UpstreamTags) (dir : Path) : UpstreamTags :=
  if (Gc.entries fs dir).any fun n => fs.isDir (n :: dir) = false ∧ n = upstreamTagsName then
    match stripPrefix S.root dir with
    | some segs => loadUpstreamRepo S fromStr fs now (relative segs) map
    | none => map
  else map

/-- The directories that the scans at start-up visit. -/
def scanned (fs : Fs) : List Path := walk (tagSubdirs fs) (Gc.fuel fs) [S.root]

/-- `load_existing_upstream_tags` into an empty cache. -/
def loadExistingUpstreamTags (fs : Fs) (now : Nat) : UpstreamTags :=
  if fs.exists? S.root then (scanned S fs).foldl (loadUpstreamDir S fromStr fs now) ∅ else ∅

variable {S fromStr}

/-- Every loaded entry comes from a sidecar and is stamped with the time of the scan. -/
theorem loaded_from_disk {fs : Fs} {now : Nat} {key : Str × Str} {d : Digest} {t : Nat}
    (h : (loadExistingUpstreamTags S fromStr fs now).lookup key = some (d, t)) :
    t = now ∧ ∃ dir ∈ scanned S fs, ∃ segs ∈ stripPrefix S.root dir, key.1 = relative segs ∧
      ∃ e ∈ (onDisk S fromStr fs key.1).entries, key.2 = e.1 ∧ Digest.parse e.2 = .ok d := by
  let Loaded (map : UpstreamTags) : Prop := ∀ key d t, map.lookup key = some (d, t) →
    t = now ∧ ∃ dir ∈ scanned S fs, ∃ segs ∈ stripPrefix S.root dir, key.1 = relative segs ∧
      ∃ e ∈ (onDisk S fromStr fs key.1).entries, key.2 = e.1 ∧ Digest.parse e.2 = .ok d
  have hempty : Loaded ∅ := fun key d t hlook => absurd hlook (by simp)
  have hrepo : ∀ dir ∈ scanned S fs, ∀ segs ∈ stripPrefix S.root dir, ∀ map, Loaded map →
      Loaded (loadUpstreamRepo S fromStr fs now (relative segs) map) := by
    intro dir hdir segs hsegs map hmap
    refine List.foldlRecOn (motive := Loaded) _ _ hmap fun map hmap e he => ?_
    cases hparse : Digest.parse e.2 with
    | error err => exact hmap
    | ok d' =>
      intro key d t hlook
      by_cases hkey : key = (relative segs, e.1)
      · subst hkey
        rw [AList.lookup_insert] at hlook
        cases hlook
        exact ⟨rfl, dir, hdir, segs, hsegs, rfl, e, he, rfl, hparse⟩
      · rw [AList.lookup_insert_ne hkey] at hlook
        exact hmap key d t hlook
  unfold loadExistingUpstreamTags at h
  split at h
  · refine List.foldlRecOn (motive := Loaded) _ _ hempty (fun map hmap dir hdir => ?_) key d t h
    unfold loadUpstreamDir
    split
    · cases hstrip : stripPrefix S.root dir with
      | none => exact hmap
      | some segs => exact hrepo dir hdir segs hstrip map hmap
    · exact hmap
  · exact hempty key d t h

end Loading

/-! ## A server and its upstream -/

/-- The tags that an upstream had from one time to another. -/
structure Period where
  first : Nat
  last : Nat
  tags : Str × Str → Option Digest

/-- A server, the tags its upstream has and since when, and those it had before. -/
structure Proxy (S : Setup) where
  world : World S
  tags : Str × Str → Option Digest
  since : Nat
  past : List Period

/-- A request, a tag that moves upstream, time that passes, or a restart. -/
inductive Event where
  | request (req : Request)
  | move (tags : Str × Str → Option Digest)
  | advance (n : Nat)
  | restart

namespace Proxy

variable {S : Setup} {fromStr : Bytes → Option (AList fun _ : Str => Str)}

/-- A proxy that was started on an empty root. -/
def start (S : Setup) (wall : List Nat) (tags : Str × Str → Option Digest) : Proxy S :=
  ⟨World.start S [] wall, tags, 0, []⟩

/-- The upstream had the digest for the tag at the time. -/
def Had (p : Proxy S) (key : Str × Str) (d : Digest) (t : Nat) : Prop :=
  (p.since ≤ t ∧ t ≤ p.world.now ∧ p.tags key = some d) ∨
    ∃ q ∈ p.past, q.first ≤ t ∧ t ≤ q.last ∧ q.tags key = some d

/-- A new process on the files of the old one. -/
def boot (fromStr : Bytes → Option (AList fun _ : Str => Str)) (w : World S) : World S :=
  { w with
    metaCache := ∅
    localTags := loadExistingLocalTags S w.fs
    sessions := ∅
    upstreamTags := loadExistingUpstreamTags S fromStr w.fs w.now }

/-- A request whose handler panics leaves its world too; the process may go on or be restarted. -/
def step (fromStr : Bytes → Option (AList fun _ : Str => Str)) (p : Proxy S) :
    Event → Option (Proxy S)
  | .request req =>
    match (split req.rest).2 with
    | .manifest _ => some { p with world := ((dispatch req : Handler S).exec p.world).2 }
    | _ => none
  | .move tags => some { p with
      tags := tags, since := p.world.now, past := ⟨p.since, p.world.now, p.tags⟩ :: p.past }
  | .advance n => some { p with world := { p.world with now := p.world.now + n } }
  | .restart => some { p with world := boot fromStr p.world }

/-- Replies for the tag that agree with what the upstream has for it. -/
def Agrees (current : Option Digest) (reference : Str) (up : Replies) : Prop :=
  (∀ d ∈ up.resolveTag, current = some d) ∧
    (IsTag reference → ∀ m ∈ up.getManifest, current = some m.digest)

/-- Replies to a request for a manifest that tell what the upstream has. -/
def AnswersTruly (p : Proxy S) (repo : Str) (up : Replies) : Action → Prop
  | .manifest reference => Agrees (p.tags (repo, reference)) reference up
  | _ => True

/-- Replies that succeed tell what the upstream has. -/
def Truthful (p : Proxy S) : Event → Prop
  | .request req => AnswersTruly p (split req.rest).1 req.upstream (split req.rest).2
  | _ => True

instance (current : Option Digest) (reference : Str) (up : Replies) :
    Decidable (Agrees current reference up) := inferInstanceAs (Decidable (_ ∧ _))

instance (p : Proxy S) (repo : Str) (up : Replies) : DecidablePred (AnswersTruly p repo up) :=
  fun act =>
    match act with
    | .manifest reference =>
      inferInstanceAs (Decidable (Agrees (p.tags (repo, reference)) reference up))
    | .blob _ | .uploadInit | .uploadSession _ | .tagsList | .unknown => .isTrue trivial

instance : DecidableRel (Truthful (S := S)) := fun p e =>
  match e with
  | .request req => inferInstanceAs (Decidable (AnswersTruly p (split req.rest).1 req.upstream _))
  | .move _ => .isTrue trivial
  | .advance _ => .isTrue trivial
  | .restart => .isTrue trivial

/-- The upstream still has every digest in the sidecars that a restart would load. -/
def SidecarsCurrent (fromStr : Bytes → Option (AList fun _ : Str => Str)) (p : Proxy S) : Prop :=
  ∀ dir ∈ scanned S p.world.fs, ∀ segs ∈ stripPrefix S.root dir,
    ∀ e ∈ (onDisk S fromStr p.world.fs (relative segs)).entries,
      ∀ d ∈ (Digest.parse e.2).toOption, p.tags (relative segs, e.1) = some d

instance (p : Proxy S) : Decidable (SidecarsCurrent fromStr p) :=
  inferInstanceAs (Decidable (∀ dir ∈ scanned S p.world.fs, ∀ segs ∈ stripPrefix S.root dir,
    ∀ e ∈ (onDisk S fromStr p.world.fs (relative segs)).entries,
      ∀ d ∈ (Digest.parse e.2).toOption, p.tags (relative segs, e.1) = some d))

/-- Replies are truthful, and a restart finds only digests that the upstream still has. -/
def Careful (fromStr : Bytes → Option (AList fun _ : Str => Str)) (p : Proxy S) (e : Event) : Prop :=
  Truthful p e ∧ (match e with
    | .restart => SidecarsCurrent fromStr p
    | _ => True)

instance : DecidableRel (Careful (S := S) fromStr) := fun p e =>
  match e with
  | .restart => inferInstanceAs (Decidable (_ ∧ SidecarsCurrent fromStr p))
  | .request req => inferInstanceAs (Decidable (Truthful p (.request req) ∧ True))
  | .move tags => inferInstanceAs (Decidable (Truthful p (.move tags) ∧ True))
  | .advance n => inferInstanceAs (Decidable (Truthful p (.advance n) ∧ True))

/-! ## Every timestamp is a confirmation -/

/-- The invariant: the upstream had every cached digest at the time that is recorded for it. -/
structure Confirmed (p : Proxy S) : Prop where
  ticks : p.world.ticks = []
  paths : CachedPaths p.world
  since : p.since ≤ p.world.now
  entries : ∀ key d t, p.world.upstreamTags.lookup key = some (d, t) →
    t ≤ p.world.now ∧ p.Had key d t

theorem confirmed_start (S : Setup) (wall : List Nat) (tags : Str × Str → Option Digest) :
    Confirmed (start S wall tags) := by
  refine ⟨rfl, ?_, Nat.le_refl _, ?_⟩
  · intro repo d m hm
    exact absurd hm (by simp [start, World.start])
  · intro key d t hlook
    exact absurd hlook (by simp [start, World.start])

/-- What the upstream had stays what it had while time passes. -/
theorem Had.later {p p' : Proxy S} {key : Str × Str} {d : Digest} {t : Nat} (h : p.Had key d t)
    (htags : p'.tags = p.tags) (hsince : p'.since = p.since) (hpast : p'.past = p.past)
    (hnow : p.world.now ≤ p'.world.now) : p'.Had key d t := by
  rcases h with ⟨hfirst, hlast, hd⟩ | hold
  · exact Or.inl ⟨hsince ▸ hfirst, hlast.trans hnow, htags ▸ hd⟩
  · exact Or.inr (hpast ▸ hold)

theorem confirmed_advance {p : Proxy S} (h : Confirmed p) (n : Nat) :
    Confirmed { p with world := { p.world with now := p.world.now + n } } := by
  refine ⟨h.ticks, h.paths, h.since.trans (Nat.le_add_right _ _), fun key d t hlook => ?_⟩
  obtain ⟨ht, hhad⟩ := h.entries key d t hlook
  exact ⟨ht.trans (Nat.le_add_right _ _), hhad.later rfl rfl rfl (Nat.le_add_right _ _)⟩

theorem confirmed_move {p : Proxy S} (h : Confirmed p) (tags : Str × Str → Option Digest) :
    Confirmed { p with
      tags := tags, since := p.world.now, past := ⟨p.since, p.world.now, p.tags⟩ :: p.past } := by
  refine ⟨h.ticks, h.paths, Nat.le_refl _, fun key d t hlook => ?_⟩
  obtain ⟨ht, hhad⟩ := h.entries key d t hlook
  refine ⟨ht, Or.inr ?_⟩
  rcases hhad with ⟨hfirst, hlast, hd⟩ | ⟨q, hq, hin⟩
  · exact ⟨_, List.mem_cons_self, hfirst, hlast, hd⟩
  · exact ⟨q, List.mem_cons_of_mem _ hq, hin⟩

/-- A digest that the upstream has now is confirmed by a timestamp of now. -/
theorem Confirmed.current {p : Proxy S} (h : Confirmed p) {key : Str × Str} {d : Digest}
    (hd : p.tags key = some d) : p.Had key d p.world.now :=
  Or.inl ⟨h.since, Nat.le_refl _, hd⟩

theorem confirmed_restart {p : Proxy S} (h : Confirmed p) (hcurrent : SidecarsCurrent fromStr p) :
    Confirmed { p with world := boot fromStr p.world } := by
  refine ⟨h.ticks, ?_, h.since, fun key d t hlook => ?_⟩
  · intro repo d m hm
    exact absurd hm (by simp [boot])
  · obtain ⟨rfl, dir, hdir, segs, hsegs, hrepo, e, he, htag, hparse⟩ := loaded_from_disk hlook
    refine ⟨Nat.le_refl _, ?_⟩
    have hd : p.tags (relative segs, e.1) = some d := by
      refine hcurrent dir hdir segs hsegs e (hrepo ▸ he) d ?_
      rw [hparse]
      rfl
    have hkey : key = (relative segs, e.1) := Prod.ext hrepo htag
    rw [hkey]
    exact h.current hd

theorem confirmed_request {p : Proxy S} (h : Confirmed p) {req : Request} {repo reference : Str}
    (hsplit : split req.rest = (repo, .manifest reference))
    (htruth : Agrees (p.tags (repo, reference)) reference req.upstream) :
    Confirmed { p with world := ((dispatch req : Handler S).exec p.world).2 } := by
  obtain ⟨hclock, hstamped⟩ := dispatch_stamped h.paths hsplit
  obtain ⟨hticks, hnow⟩ := hclock h.ticks
  refine ⟨hticks, h.paths.run (.request req), ?_, fun key d t hlook => ?_⟩
  · rw [hnow]
    exact h.since
  · have hsame : t ≤ p.world.now ∧ p.Had key d t := by
      rcases hstamped key d t hlook with hold | ⟨rfl, ht, hreply⟩
      · exact h.entries key d t hold
      · rw [ht h.ticks]
        refine ⟨Nat.le_refl _, h.current ?_⟩
        rcases hreply with hhead | ⟨m, hm, htag, rfl⟩
        · exact htruth.1 d hhead
        · exact htruth.2 htag m hm
    refine ⟨hnow ▸ hsame.1, hsame.2.later rfl rfl rfl ?_⟩
    rw [hnow]

theorem confirmed_step {p p' : Proxy S} {e : Event} (h : Confirmed p) (hcareful : Careful fromStr p e)
    (hstep : step fromStr p e = some p') : Confirmed p' := by
  obtain ⟨htruth, hrestart⟩ := hcareful
  cases e with
  | request req =>
    unfold step at hstep
    cases hsplit : split req.rest with
    | mk repo act =>
      cases act with
      | manifest reference =>
        simp only [hsplit] at hstep
        cases hstep
        simp only [Truthful, AnswersTruly, hsplit] at htruth
        exact confirmed_request h hsplit htruth
      | _ =>
        simp only [hsplit] at hstep
        cases hstep
  | move tags =>
    cases hstep
    exact confirmed_move h tags
  | advance n =>
    cases hstep
    exact confirmed_advance h n
  | restart =>
    cases hstep
    exact confirmed_restart h hrestart

theorem confirmed_runs {p p' : Proxy S} (h : Confirmed p)
    (hrun : (runs (step fromStr) (Careful fromStr)).rel p p') : Confirmed p' :=
  Evolution.star_keep (I := Confirmed)
    (fun _ _ ⟨_, hcareful, hstep⟩ hc => confirmed_step hc hcareful hstep) hrun h

/-! ## What is served -/

/-- The cached entry is stale and the `HEAD` that should confirm it fails. -/
def HeadFails (w : World S) (repo tag : Str) (up : Replies) : Prop :=
  up.resolveTag = none ∧ ∃ d t, w.upstreamTags.lookup (repo, tag) = some (d, t) ∧
    ¬ w.now - t < S.tagTtl

/-- A served digest is one that the upstream had within the time to live. -/
def ServesFresh (p : Proxy S) (req : Request) (repo tag : Str) : Prop :=
  ∀ resp w', (dispatch req : Handler S).exec p.world = (.ok resp, w') → resp.status = .ok →
    ∃ d, resp.header .dockerContentDigest = some d.toStr ∧
      ∃ t, t ≤ p.world.now ∧ p.world.now ≤ t + S.tagTtl ∧ p.Had (repo, tag) d t

theorem served_of_pull {p : Proxy S} (h : Confirmed p) {repo tag : Str} (htag : IsTag tag)
    {up : Replies} (htruth : Agrees (p.tags (repo, tag)) tag up)
    (hlocal : p.world.localTags.lookup (repo, tag) = none) (hroute : (S.route repo).isSome = true)
    (hhead : ¬ HeadFails p.world repo tag up) {out : Except Abort Response × World S}
    (hpull : Pull S repo tag true up p.world out) {resp : Response} (hresp : out.1 = .ok resp)
    (hstatus : resp.status = .ok) :
    ∃ d, resp.header .dockerContentDigest = some d.toStr ∧
      ∃ t, t ≤ p.world.now ∧ p.world.now ≤ t + S.tagTtl ∧ p.Had (repo, tag) d t := by
  have hnow : p.world.tick.now = p.world.now := by simp [World.tick, h.ticks]
  have hcurrent : ∀ d, p.tags (repo, tag) = some d →
      ∃ t, t ≤ p.world.now ∧ p.world.now ≤ t + S.tagTtl ∧ p.Had (repo, tag) d t :=
    fun d hd => ⟨_, Nat.le_refl _, Nat.le_add_right _ _, h.current hd⟩
  have hheader : ∀ {b : Bytes} {ct : Str} {d : Digest} {w : World S},
      ((buildManifestResponse b ct d true : Handler S).exec w).1 = .ok resp →
        resp.header .dockerContentDigest = some d.toStr := by
    intro b ct d w hrun
    rw [exec_manifestResponse] at hrun
    split at hrun
    · cases hrun
      rfl
    · cases hrun
  cases hpull with
  | refused _ _ hno =>
    cases hresp
    exact absurd hstatus hno
  | @stored d b w' _ hsource hsettles hread =>
    refine ⟨d, hheader hresp, ?_⟩
    cases hsource with
    | digest href =>
      obtain ⟨e, he⟩ := htag
      cases he.symm.trans href
    | localTag _ hd => simp [localDigest, hlocal] at hd
    | fresh _ hentry hfresh =>
      obtain ⟨ht, hhad⟩ := h.entries _ _ _ hentry
      rw [hnow] at hfresh
      exact ⟨_, ht, by omega, hhad⟩
    | confirmed _ _ _ hconfirmed => exact hcurrent d (htruth.1 d hconfirmed)
    | unconfirmed _ hentry hstale hunsure =>
      rw [hnow] at hstale
      rcases hunsure with hno | hnone
      · rw [hno] at hroute
        cases hroute
      · exact absurd ⟨hnone, _, _, hentry, hstale⟩ hhead
  | @fetched w₁ _ hsettles =>
    cases hreply : up.getManifest with
    | none =>
      rw [hreply] at hresp
      cases hresp
      exact absurd hstatus (show Status.notFound ≠ .ok by decide)
    | some m =>
      obtain ⟨w₂, -, hrun⟩ := exec_fetchManifest w₁ repo tag true m
      rw [hreply, hrun] at hresp
      exact ⟨m.digest, hheader hresp, hcurrent _ (htruth.2 htag m hreply)⟩

/-- In every run whose restarts find only digests that the upstream still has, a tag is served with
a digest that the upstream had within the time to live. -/
theorem tags_stay_fresh (S : Setup) (fromStr : Bytes → Option (AList fun _ : Str => Str))
    (wall : List Nat) (tags : Str × Str → Option Digest) (p : Proxy S)
    (hrun : (runs (step fromStr) (Careful fromStr)).rel (start S wall tags) p)
    (req : Request) (repo tag : Str) (hmethod : req.method = .get)
    (hsplit : split req.rest = (repo, .manifest tag)) (hrepo : repo ≠ []) (htag : IsTag tag)
    (htruth : Truthful p (.request req))
    (hlocal : p.world.localTags.lookup (repo, tag) = none) (hroute : (S.route repo).isSome = true)
    (hhead : ¬ HeadFails p.world repo tag req.upstream) : ServesFresh p req repo tag := by
  have hconf := confirmed_runs (confirmed_start S wall tags) hrun
  simp only [Truthful, AnswersTruly, hsplit] at htruth
  have hpull := getManifest_pull hconf.paths repo tag true req.upstream
  intro resp w' hserve hstatus
  rw [dispatch_getManifest hmethod hsplit hrepo req.ifNoneMatch] at hserve
  cases hout : (getManifest repo tag true req.upstream : Handler S).exec p.world with
  | mk res w₁ =>
    rw [hout] at hserve hpull
    cases res with
    | error a => cases hserve
    | ok resp₀ =>
      cases hserve
      have hsame := status_applyIfNoneMatch hstatus
      rw [hsame] at hstatus ⊢
      exact served_of_pull hconf htag htruth hlocal hroute hhead hpull rfl hstatus

/-! A tag that moves after it was pulled, and a restart once its entry is stale. -/

def theTag : Str × Str := ("library/app".toList, "v1".toList)

/-- The upstream has the digest for the tag and has no other tag. -/
def only (d : Digest) (key : Str × Str) : Option Digest := if key = theTag then some d else none

def oldManifest : Bytes := Codec.utf8 "manifest".toList

def newManifest : Bytes := []

/-- An upstream that has this manifest for the tag and answers everything. -/
def having (b : Bytes) (d : Digest) : Replies :=
  ⟨some d, some ⟨b, "application/vnd.oci.image.manifest.v1+json".toList, d⟩, none, none⟩

def pullRest : Str := "library/app/manifests/v1".toList

/-- A pull of the tag while the upstream has this manifest for it. -/
def pullWhile (b : Bytes) : Request :=
  ⟨.get, pullRest, none, none, none, none, having b (Codec.mirror.digest b)⟩

/-- The proxy serves the old digest for the tag, while the upstream has this manifest. -/
def servesOld (p : Proxy Codec.mirror) (b : Bytes) : Bool :=
  match ((dispatch (pullWhile b) : Handler Codec.mirror).exec p.world).1 with
  | .ok resp => resp.status = .ok ∧
      resp.header .dockerContentDigest = some (Codec.mirror.digest oldManifest).toStr
  | .error _ => false

theorem split_pullRest : split pullRest = (theTag.1, .manifest theTag.2) := by decide

theorem not_headFails_having (w : World S) (repo tag : Str) (b : Bytes) (d : Digest) :
    ¬ HeadFails w repo tag (having b d) := fun h => nomatch h.1

theorem agrees_having (reference : Str) (b : Bytes) (d : Digest) :
    Agrees (some d) reference (having b d) := by
  refine ⟨fun d' hd' => hd', fun _ m hm => ?_⟩
  cases hm
  rfl

theorem truthful_pullWhile {p : Proxy Codec.mirror} {b : Bytes}
    (h : p.tags theTag = some (Codec.mirror.digest b)) : Truthful p (.request (pullWhile b)) := by
  have hagrees := agrees_having theTag.2 b (Codec.mirror.digest b)
  rw [← h] at hagrees
  unfold Truthful pullWhile
  simp only
  rw [split_pullRest]
  exact hagrees

/-- The old digest is served a thousand time units after the upstream gave it up. -/
theorem restart_revives_tag :
    ¬ ∀ (S : Setup) (fromStr : Bytes → Option (AList fun _ : Str => Str)) (wall : List Nat)
      (tags : Str × Str → Option Digest) (p : Proxy S),
      (runs (step fromStr) Truthful).rel (start S wall tags) p →
      ∀ (req : Request) (repo tag : Str), req.method = .get →
        split req.rest = (repo, .manifest tag) → repo ≠ [] → IsTag tag → Truthful p (.request req) →
        p.world.localTags.lookup (repo, tag) = none → (S.route repo).isSome = true →
        ¬ HeadFails p.world repo tag req.upstream → ServesFresh p req repo tag := by
  intro h
  obtain ⟨p, hrun, hnow, htags, hpast, hlocal, hserves⟩ := exists_run_of_follow
    (step Codec.upstreamTagsFromStr) Truthful
    (start Codec.mirror [] (only (Codec.mirror.digest oldManifest)))
    [.request (pullWhile oldManifest), .move (only (Codec.mirror.digest newManifest)),
      .advance 1000, .restart]
    (fun p => p.world.now = 1000 ∧ p.tags theTag = some (Codec.mirror.digest newManifest) ∧
      (∀ q ∈ p.past, q.last = 0) ∧ p.world.localTags.lookup theTag = none ∧
      servesOld p newManifest = true)
    (by decide +kernel)
  have hfresh := h Codec.mirror Codec.upstreamTagsFromStr [] _ p hrun (pullWhile newManifest)
    theTag.1 theTag.2 rfl split_pullRest (by decide) (by decide +kernel)
    (truthful_pullWhile htags) hlocal (by decide +kernel) (not_headFails_having _ _ _ _ _)
  unfold servesOld at hserves
  split at hserves
  · rename_i resp hresp
    obtain ⟨hstatus, hheader⟩ := of_decide_eq_true hserves
    obtain ⟨d, hd, t, -, hwithin, hhad⟩ := hfresh resp _ (Prod.ext hresp rfl) hstatus
    have hold := Digest.toStr_injective (Option.some.inj (hheader.symm.trans hd))
    subst hold
    rw [hnow] at hwithin
    rcases hhad with ⟨-, -, hcur⟩ | ⟨q, hq, -, hlast, -⟩
    · have hsame : some (Codec.mirror.digest newManifest) =
          some (Codec.mirror.digest oldManifest) := htags.symm.trans hcur
      revert hsame
      decide +kernel
    · rw [hpast q hq] at hlast
      have hwide : (1000 : Nat) ≤ t + 300 := hwithin
      omega
  · cases hserves

/-- A restart while the upstream still has the digest: the tag is served, and it is current. -/
theorem restart_keeps_current_tag :
    ∃ p : Proxy Codec.mirror, servesOld p oldManifest = true ∧
      ServesFresh p (pullWhile oldManifest) theTag.1 theTag.2 := by
  obtain ⟨p, hrun, htags, hlocal, hserves⟩ := exists_run_of_follow
    (step Codec.upstreamTagsFromStr) (Careful Codec.upstreamTagsFromStr)
    (start Codec.mirror [] (only (Codec.mirror.digest oldManifest)))
    [.request (pullWhile oldManifest), .advance 1000, .restart]
    (fun p => p.tags theTag = some (Codec.mirror.digest oldManifest) ∧
      p.world.localTags.lookup theTag = none ∧ servesOld p oldManifest = true)
    (by decide +kernel)
  exact ⟨p, hserves, tags_stay_fresh Codec.mirror Codec.upstreamTagsFromStr [] _ p hrun
    (pullWhile oldManifest) theTag.1 theTag.2 rfl split_pullRest (by decide) (by decide +kernel)
    (truthful_pullWhile htags) hlocal (by decide +kernel) (not_headFails_having _ _ _ _ _)⟩

end Proxy

end Quill.Server
