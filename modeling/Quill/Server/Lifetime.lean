import Quill.Registry.Histories
import Quill.Server.Lifecycle

/-!
# The lifetime of a store

A server on one root answers requests, is stopped and started again, and while it is stopped `quill gc`
and `quill cache-rm` are run. `Lives` is one such event between worlds, `Shelved` what it does to the
repositories of the service: a restart ends the uploads and keeps blobs and pushed tags, a collection
takes away blobs that no pushed tag reaches, and `cache-rm` empties a repository with those below it.
The tags remembered of an upstream may be any after a restart, since errors while writing their sidecars
are ignored.

As long as tags are pushed to repositories that a start finds again (`Findable`), the whole lifetime
refines the service (`lifetime_refines_shelf`). A pushed image is then served after any number of
restarts and collections, until its tag is moved, one of its parts is deleted or its repository is
removed (`pushed_image_survives`).
-/

namespace Quill.Server

open Text Files Cas World LocalStorage LocalTags Uploads Registry ManifestPuts TagResolution

variable {S : Setup}

/-! ## The service over its lifetime -/

/-- An exchange, or a restart with the commands that were run while no server did. -/
inductive LifeEvent where
  | served (e : Exchange)
  | restarted (commands : List Offline)

/-- The references of a manifest of the repository. -/
def refsOf (S : Setup) (a : Repo) (d : Digest) : List Digest :=
  match (a.blobs d).bind S.serde.fromSlice with
  | some v => Manifest.references v
  | none => []

/-- The digests that the pushed tags reach. -/
def Reached (S : Setup) (a : Repo) (d : Digest) : Prop :=
  Marking.Reach (refsOf S a) { d | ∃ t, a.tags t = some d } d

/-- Some of the blobs that no pushed tag reaches are gone. -/
def Thinned (S : Setup) (a a' : Repo) : Prop :=
  a' = { a with blobs := a'.blobs } ∧
    ∀ d, a'.blobs d = a.blobs d ∨ (a'.blobs d = none ∧ ¬ Reached S a d)

/-- A command on the repositories of a server that is stopped. -/
inductive Tends (S : Setup) (s : Shelf) : Offline → Shelf → Prop
  | dryRun : Tends S s (.gc true) s
  | gc {s' : Shelf} (h : ∀ r, Thinned S (s r) (s' r)) : Tends S s (.gc false) s'
  | cacheRm {repo : Str} :
    Tends S s (.cacheRm repo true) fun r => if Below repo r.val then Holdings.empty else s r
  | refused {repo : Str} : Tends S s (.cacheRm repo false) s

/-- An event of the service. -/
inductive Shelved (S : Setup) (s : Shelf) : LifeEvent → Shelf → Prop
  | served {e : Exchange} {s' : Shelf} (h : Shelf.Step S s e s') : Shelved S s (.served e) s'
  | restarted {commands : List Offline} {s₁ s' : Shelf}
    (h : Trace (Tends S) (fun r => (s r).rest) commands s₁)
    (hstart : ∀ r, ∃ remembered, s' r = { s₁ r with cached := remembered }) :
    Shelved S s (.restarted commands) s'

/-- An event of the server. -/
inductive Lives (S : Setup) (w : World S) : LifeEvent → World S → Prop
  | served {e : Exchange} {w' : World S} (h : Exchanges S w e w') : Lives S w (.served e) w'
  | restarted {commands : List Offline} {fs : Fs} (B : Boot) (h : Trace (Ran S) w.fs commands fs) :
    Lives S w (.restarted commands) (startUp B { w with fs := fs })

/-- Requests are for plainly named repositories, and what is pushed or removed has a name that a start
finds again. -/
def Allowed : LifeEvent → Prop
  | .served e => PlainRepo e.1 ∧
    ∀ repo tag, e.1.command = .push repo tag → e.2.status = .created → Findable repo
  | .restarted commands => ∀ repo done, Offline.cacheRm repo done ∈ commands → Findable repo

/-! ## Commands -/

/-- The repositories of a server that is stopped. -/
def restView (w : World S) : Shelf := fun r => (repoView w r.val).rest

/-- The collector marks what the pushed tags reach. -/
theorem live_of_reached {w : World S} (hw : Resting w) {r : Str} {d : Digest}
    (h : Reached S (repoView w r).rest d) : d ∈ Gc.Live S w.fs r [] := by
  induction h with
  | @root d hroot =>
    obtain ⟨t, ht⟩ := hroot
    refine .root ?_
    obtain ⟨m, htag, hparse⟩ := Option.bind_eq_some_iff.mp ht
    obtain ⟨tags, hread, hlook⟩ := hw.synced.read_sidecar (.of_plain fun _ h => h.1) htag
    obtain ⟨tags', hfromStr, hsame⟩ := S.serde.tags_roundtrip tags
    obtain ⟨map, hload, hmap⟩ := loadRepo_of_read hread hfromStr ∅
    refine ⟨map, hload, List.mem_append_left _ (List.mem_filterMap.mpr ⟨(t, m), ?_, hparse⟩)⟩
    rw [mem_listForRepo, hmap, if_pos rfl, hsame, hlook, htag]
    rfl
  | step _ href ih => exact Marking.Reach.step ih href

theorem tends_gc {w : World S} (hw : Resting w) (dryRun : Bool) :
    Tends S (restView w) (.gc dryRun) (restView (afterGc w dryRun)) := by
  cases dryRun with
  | true =>
    have hsame : afterGc w true = w := by
      unfold afterGc
      rw [Gc.run_dry_fs]
    rw [hsame]
    exact .dryRun
  | false =>
    refine .gc fun r => ⟨rfl, fun d => ?_⟩
    by_cases hreached : Reached S (repoView w r.val).rest d
    · exact Or.inl (Fs.read_congr (Gc.run_keeps_live r.property (live_of_reached hw hreached) false))
    · rcases Gc.run_node_cases S w.fs .none [] false (blobPath S.root r.val d) with hsame | ⟨hnone, -⟩
      · exact Or.inl (Fs.read_congr hsame)
      · refine Or.inr ⟨Fs.read_eq_none.mpr fun b hb => ?_, hreached⟩
        have hgone : (afterGc w false).fs.node (blobPath S.root r.val d) = none := hnone
        rw [hgone] at hb
        cases hb

theorem restView_removed {w : World S} {repo : Str} (hrepo : Findable repo) {fs : Fs}
    (hfs : ∀ p, fs.node p = if repoDir S.root repo <:+ p then none else w.fs.node p) :
    restView (removed repo w fs) =
      fun r => if Below repo r.val then Holdings.empty else restView w r := by
  funext r
  have hnode : ∀ d, fs.node (blobPath S.root r.val d) =
      if Below repo r.val then none else w.fs.node (blobPath S.root r.val d) := fun d => by
    rw [hfs]
    exact if_congr (removed_blob_iff hrepo r.property d) rfl rfl
  split
  · rename_i hbelow
    refine Holdings.ext (funext fun d => ?_) (funext fun t => ?_) rfl rfl
    · refine Fs.read_eq_none.mpr fun b hb => ?_
      have hgone : (removed repo w fs).fs.node (blobPath S.root r.val d) = none :=
        (hnode d).trans (if_pos hbelow)
      rw [hgone] at hb
      cases hb
    · show localDigest (removed repo w fs) r.val t = none
      rw [localDigest, lookup_removed, if_pos hbelow]
      rfl
  · rename_i hbelow
    refine Holdings.ext (funext fun d => ?_) (funext fun t => ?_) rfl rfl
    · exact Fs.read_congr ((hnode d).trans (if_neg hbelow))
    · show localDigest (removed repo w fs) r.val t = localDigest w r.val t
      rw [localDigest, localDigest, lookup_removed, if_neg hbelow]

/-- A command keeps what rests. -/
theorem resting_of_ran {w : World S} (hw : Resting w) {command : Offline} {fs : Fs}
    (hfind : ∀ repo done, command = .cacheRm repo done → Findable repo) (h : Ran S w.fs command fs) :
    ∃ v : World S, v.fs = fs ∧ v.log = w.log ∧ Resting v ∧
      Tends S (restView w) command (restView v) := by
  cases h with
  | gc dryRun => exact ⟨afterGc w dryRun, rfl, rfl, hw.gc dryRun, tends_gc hw dryRun⟩
  | cacheRm repo =>
    have hrepo := hfind repo _ rfl
    rcases cacheRm_cases S.root repo w.fs with ⟨hdone, hdir, hfs⟩ | ⟨hfailed, hsame⟩
    · refine ⟨removed repo w _, rfl, rfl, hw.remove hrepo hdir hfs, ?_⟩
      rw [hdone, restView_removed hrepo hfs]
      exact .cacheRm
    · rw [hfailed, hsame]
      exact ⟨w, rfl, rfl, hw, .refused⟩

theorem resting_of_trace {w : World S} (hw : Resting w) {commands : List Offline} {fs : Fs}
    (h : Trace (Ran S) w.fs commands fs)
    (hfind : ∀ repo done, Offline.cacheRm repo done ∈ commands → Findable repo) :
    ∃ v : World S, v.fs = fs ∧ v.log = w.log ∧ Resting v ∧
      Trace (Tends S) (restView w) commands (restView v) := by
  induction h with
  | nil => exact ⟨w, rfl, rfl, hw, .nil⟩
  | @snoc commands fs fs' command _ hlast ih =>
    obtain ⟨v, rfl, hlog, hv, htrace⟩ := ih fun repo done h => hfind repo done (List.mem_append_left _ h)
    obtain ⟨v', hfs, hlog', hv', htends⟩ := resting_of_ran hv
      (fun repo done he => hfind repo done (by simp [he])) hlast
    exact ⟨v', hfs, hlog'.trans hlog, hv', .snoc htrace htends⟩

/-! ## The refinement -/

/-- A start shows the repositories that were at rest, without uploads. -/
theorem repoView_startUp {w : World S} (hw : Resting w) (B : Boot) (r : PlainName) :
    ∃ remembered, repoView (startUp B w) r.val = { restView w r with cached := remembered } := by
  refine ⟨(repoView (startUp B w) r.val).cached,
    Holdings.ext (funext fun d => ?_) (funext fun t => ?_) rfl rfl⟩
  · exact (Fs.read_congr (node_startUp B w (not_swept_blobPath d))).trans
      (Fs.growsDirs_read (grows_onRoot w) _)
  · show localDigest (startUp B w) r.val t = localDigest w r.val t
    rw [localDigest, localDigest, lookup_startUp hw]

theorem lives_step {w w' : World S} {e : LifeEvent} (hallowed : Allowed e)
    (hw : Ready w ∧ Synced Findable w) (hok : w'.log.ioFailed = false) (h : Lives S w e w') :
    (Ready w' ∧ Synced Findable w') ∧ Shelved S (view w) e (view w') := by
  obtain ⟨hready, hsync⟩ := hw
  cases h with
  | @served e _ h =>
    obtain ⟨hready', hstep⟩ := answers_step hallowed.1 hready hok h
    have hsync' := synced_step (.of_plain fun _ h => h.1) (dispatch_change h hok)
      hready.sound.dataNamed hallowed.2 hsync
    exact ⟨⟨hready', hsync'⟩, .served hstep⟩
  | @restarted commands fs B h =>
    obtain ⟨v, rfl, hlog, hv, htrace⟩ := resting_of_trace (.of_ready hready hsync) h hallowed
    have hsame : startUp B { w with fs := v.fs } = startUp B v := by simp only [startUp, hlog]
    rw [hsame]
    exact ⟨hv.startUp B, .restarted htrace fun r => repoView_startUp hv B r⟩

/-- The server over its lifetime as a refinement of the service. -/
def lifetime (S : Setup) : Refinement (Lives S) (Shelved S) where
  view := view
  inv w := Ready w ∧ Synced Findable w
  sane w := w.log.ioFailed = false
  label := Allowed
  sane_before h hok := by
    cases h with
    | served h => exact not_failed_before h hok
    | restarted => exact hok
  sim hallowed hw hok h := lives_step hallowed hw hok h

theorem lifetime_start (S : Setup) (ticks wall : List Nat) :
    Ready (World.start S ticks wall) ∧ Synced Findable (World.start S ticks wall) :=
  ⟨ready_start S ticks wall, synced_start _ S ticks wall⟩

/-- The tag is pushed for the manifest, which is there with the blobs it requires. -/
structure Stands (S : Setup) (tag : Str) (b : Bytes) (a : Repo) : Prop where
  tag : a.tags tag = some (S.digest b)
  manifest : a.blobs (S.digest b) = some b
  parts : ∀ text, Requires S b text → Holds a text

/-- The digests of a manifest and of the blobs it requires. -/
def IsPart (S : Setup) (b : Bytes) (d : Digest) : Prop :=
  d = S.digest b ∨ ∃ text, Requires S b text ∧ Digest.parse text = .ok d

/-- The event moves the tag of the image, deletes one of its parts or removes its repository. -/
def Disturbs (S : Setup) (repo tag : Str) (b : Bytes) : LifeEvent → Prop
  | .served e => (split e.1.rest).1 = repo ∧
    (pushedAfter S tag (some (S.digest b)) e.1 (split e.1.rest).2 e.2 ≠ some (S.digest b) ∨
      ∃ d, IsPart S b d ∧ DropsBlob d e.1 (split e.1.rest).2 e.2)
  | .restarted commands => ∃ other, Offline.cacheRm other true ∈ commands ∧ Below other repo

/-- A blob that is held is not dropped by what keeps its digest. -/
theorem holds_of_kept {a a' : Repo} {b : Bytes} {text : Str} (htext : Requires S b text)
    (h : Holds a text) (hkept : ∀ d, IsPart S b d → a.blobs d ≠ none → a'.blobs d ≠ none) :
    Holds a' text := by
  obtain ⟨d, hd, hthere⟩ := h
  exact ⟨d, hd, hkept d (Or.inr ⟨text, htext, hd⟩) hthere⟩

theorem reached_of_part {a : Repo} {tag : Str} {b : Bytes} (h : Stands S tag b a) {d : Digest}
    (hd : IsPart S b d) : Reached S a d := by
  have hroot : Reached S a (S.digest b) := .root ⟨tag, h.tag⟩
  rcases hd with rfl | ⟨text, htext, hd⟩
  · exact hroot
  · refine Marking.Reach.step hroot ?_
    have hmem : text ∈ requiredTexts S b := mem_requiredTexts.mpr htext
    rw [refsOf, h.manifest, Option.bind_some]
    unfold requiredTexts at hmem
    cases hv : S.serde.fromSlice b with
    | none => simp [hv] at hmem
    | some v =>
      rw [hv] at hmem
      exact Manifest.mem_references_of_required hmem hd

/-- A collection leaves an image whose tag stands. -/
theorem Stands.thinned {a a' : Repo} {tag : Str} {b : Bytes} (h : Stands S tag b a)
    (hthin : Thinned S a a') : Stands S tag b a' := by
  obtain ⟨hsame, hblobs⟩ := hthin
  have hkept : ∀ d, IsPart S b d → a'.blobs d = a.blobs d := fun d hd =>
    (hblobs d).resolve_right fun hgone => hgone.2 (reached_of_part h hd)
  refine ⟨?_, (hkept _ (Or.inl rfl)).trans h.manifest, fun text htext => ?_⟩
  · rw [hsame]
    exact h.tag
  · exact holds_of_kept htext (h.parts text htext) fun d hd hthere => by rwa [hkept d hd]

/-- So does every command that does not remove its repository. -/
theorem Stands.tends {s s' : Shelf} {r : PlainName} {tag : Str} {b : Bytes} {command : Offline}
    (h : Stands S tag b (s r)) (htends : Tends S s command s')
    (hkept : ∀ other, command = .cacheRm other true → ¬ Below other r.val) : Stands S tag b (s' r) := by
  cases htends with
  | dryRun => exact h
  | gc hthin => exact h.thinned (hthin r)
  | @cacheRm repo =>
    simp only [if_neg (hkept repo rfl)]
    exact h
  | refused => exact h

theorem Stands.restarted {s s' : Shelf} {r : PlainName} {tag : Str} {b : Bytes}
    {commands : List Offline} (h : Stands S tag b (s r))
    (hrestart : Shelved S s (.restarted commands) s')
    (hkept : ¬ Disturbs S r.val tag b (.restarted commands)) : Stands S tag b (s' r) := by
  cases hrestart with
  | @restarted _ s₁ _ htrace hstart =>
    have hrest : Stands S tag b (s r).rest := ⟨h.tag, h.manifest, h.parts⟩
    have hstands : Stands S tag b (s₁ r) := by
      refine Trace.keep (I := fun s : Shelf => Stands S tag b (s r))
        (P := fun command => ∀ other, command = .cacheRm other true → ¬ Below other r.val)
        (fun hl htends hs => hs.tends htends hl) htrace (fun command hmem other he hbelow => ?_) hrest
      exact hkept ⟨other, he ▸ hmem, hbelow⟩
    obtain ⟨remembered, hsame⟩ := hstart r
    rw [hsame]
    exact ⟨hstands.tag, hstands.manifest, hstands.parts⟩

/-- A request that does not disturb the image keeps its tag and holds its parts. -/
theorem Stands.served {repo : Str} {req : Request} {a a' : Repo} {action : Action} {resp : Response}
    {tag : Str} {b : Bytes} (h : Stands S tag b a) (hserves : Serves S repo req a action resp a')
    (htag : pushedAfter S tag (some (S.digest b)) req action resp = some (S.digest b))
    (hdrops : ∀ d, IsPart S b d → ¬ DropsBlob d req action resp) :
    a'.tags tag = some (S.digest b) ∧ a'.blobs (S.digest b) ≠ none ∧
      ∀ text, Requires S b text → Holds a' text := by
  have hkept : ∀ d, IsPart S b d → a.blobs d ≠ none → a'.blobs d ≠ none := fun d hd hthere =>
    hserves.blob_stays hthere (hdrops d hd)
  refine ⟨by rw [hserves.pushed_tag, h.tag, htag], hkept _ (Or.inl rfl) (by simp [h.manifest]),
    fun text htext => holds_of_kept htext (h.parts text htext) hkept⟩

/-- The answer to a pull of the tag of an image that stands. -/
theorem Stands.answer {repo : Str} {req : Request} {a a' : Repo} {resp : Response} {tag : Str} {b : Bytes}
    (h : Stands S tag b a) (hserves : Serves S repo req a (.manifest tag) resp a')
    (htag : IsTag tag) (hm : req.method = .get ∨ req.method = .head) :
    resp = applyIfNoneMatch req.ifNoneMatch (storedAnswer S (S.digest b) b (req.method = .get)) := by
  have hput : req.method ≠ .put := by rcases hm with hm | hm <;> simp [hm]
  have hdelete : req.method ≠ .delete := by rcases hm with hm | hm <;> simp [hm]
  have hrefers : ∀ {d}, Refers a tag d → d = S.digest b := by
    intro d hd
    cases hd with
    | digest hd =>
      obtain ⟨e, he⟩ := htag
      cases hd.symm.trans he
    | tag _ hd => exact Option.some.inj (hd.symm.trans h.tag)
    | cached _ hno => cases hno.symm.trans h.tag
  cases hserves with
  | unsupported hno => exact absurd (hm.imp id Or.inl) hno
  | @manifest _ d c _ href hb =>
    obtain rfl := hrefers href
    cases hb.symm.trans h.manifest
    rfl
  | noManifest _ hwant =>
    rcases hwant with hnone | ⟨-, hno, -⟩
    · cases (hnone _ (.tag htag h.tag)).symm.trans h.manifest
    · cases hno.symm.trans h.tag
  | fetchedManifest _ _ hpushed => exact absurd ⟨htag, by simp [h.tag]⟩ hpushed
  | unreadManifest hm' => exact absurd hm' hput
  | otherDigest hm' => exact absurd hm' hput
  | missingBlob hm' => exact absurd hm' hput
  | pushed hm' => exact absurd hm' hput
  | untagged hm' => exact absurd hm' hdelete
  | noTag hm' => exact absurd hm' hdelete
  | deletedManifest hm' => exact absurd hm' hdelete

/-- What outlives the disturbances: the worlds of a server whose repository has the image. -/
structure Bears (S : Setup) (r : PlainName) (tag : Str) (b : Bytes) (w : World S) : Prop where
  ready : Ready w
  synced : Synced Findable w
  stands : Stands S tag b (view w r)

/-- No step has failed and no two stored byte strings collide. -/
def Unfailing (w : World S) : Prop := w.log.ioFailed = false ∧ CollisionFree S w.log.stored

theorem stored_lives {w w' : World S} {e : LifeEvent} (hw : Ready w) (hok : w'.log.ioFailed = false)
    (h : Lives S w e w') : w.log.stored ⊆ w'.log.stored := by
  cases h with
  | served h => exact stored_dispatch hw.sound.dataNamed h hok
  | restarted => exact List.Subset.refl _

theorem Unfailing.before {w w' : World S} {e : LifeEvent} (hfine : Unfailing w') (hw : Ready w)
    (h : Lives S w e w') : Unfailing w :=
  ⟨(lifetime S).sane_before h hfine.1, hfine.2.mono (stored_lives hw hfine.1 h)⟩

/-- A blob that is there has the contents that its digest had before. -/
theorem blob_unique {w w' : World S} (hw : Ready w) (hw' : Ready w') (hstored : w.log.stored ⊆ w'.log.stored)
    (hfree : CollisionFree S w'.log.stored) {r : Str} {d : Digest} {b : Bytes}
    (hb : (repoView w r).blobs d = some b) (hthere : (repoView w' r).blobs d ≠ none) :
    (repoView w' r).blobs d = some b := by
  obtain ⟨c, hc⟩ := Option.ne_none_iff_exists'.mp hthere
  obtain ⟨hhash, hmem⟩ := hw.sound.blob (r := r) hb
  obtain ⟨hhash', hmem'⟩ := hw'.sound.blob (r := r) hc
  rw [hc, hfree c hmem' b (hstored hmem) (hhash'.trans hhash.symm)]

theorem Bears.step {w w' : World S} {r : PlainName} {tag : Str} {b : Bytes} {e : LifeEvent}
    (h : Bears S r tag b w) (hallowed : Allowed e) (hkept : ¬ Disturbs S r.val tag b e)
    (hfine : Unfailing w') (hlives : Lives S w e w') : Bears S r tag b w' := by
  obtain ⟨⟨hready, hsync⟩, hshelved⟩ := lives_step hallowed ⟨h.ready, h.synced⟩ hfine.1 hlives
  refine ⟨hready, hsync, ?_⟩
  cases e with
  | restarted commands => exact h.stands.restarted hshelved hkept
  | served e =>
    cases hshelved with
    | served hstep =>
      rcases hstep.at r with ⟨hr, hserves⟩ | ⟨-, hsame⟩
      · have htag := not_not.mp fun hmoves => hkept ⟨hr, Or.inl hmoves⟩
        obtain ⟨htags, hthere, hparts⟩ := h.stands.served hserves htag fun d hd hdrops =>
          hkept ⟨hr, Or.inr ⟨d, hd, hdrops⟩⟩
        exact ⟨htags, blob_unique h.ready hready (stored_lives h.ready hfine.1 hlives) hfine.2
          h.stands.manifest hthere, hparts⟩
      · rw [hsame]
        exact h.stands

/-- An image is there after every event of a part of the lifetime that leaves it alone. -/
theorem Bears.keep {w w' : World S} {r : PlainName} {tag : Str} {b : Bytes} {es : List LifeEvent}
    (h : Trace (Lives S) w es w') (hallowed : ∀ e ∈ es, Allowed e)
    (hkept : ∀ e ∈ es, ¬ Disturbs S r.val tag b e) (hfine : Unfailing w') (hw : Bears S r tag b w) :
    Bears S r tag b w' := by
  induction h with
  | nil => exact hw
  | snoc htrace hlast ih =>
    have hbefore : ∀ e ∈ _, Allowed e := fun e he => hallowed e (List.mem_append_left _ he)
    have hok := (lifetime S).sane_before hlast hfine.1
    have hready := ((lifetime S).trace htrace hbefore ⟨hw.ready, hw.synced⟩ hok).1.1
    exact (ih hbefore (fun e he => hkept e (List.mem_append_left _ he)) (hfine.before hready hlast)).step
      (hallowed _ (by simp)) (hkept _ (by simp)) hfine hlast

/-- The state before the last event. -/
theorem Lives.last {ticks wall : List Nat} {es : List LifeEvent} {e : LifeEvent} {w : World S}
    (h : Trace (Lives S) (World.start S ticks wall) (es ++ [e]) w) (hallowed : ∀ e' ∈ es ++ [e], Allowed e')
    (hok : w.log.ioFailed = false) : ∃ w₁, Trace (Lives S) (World.start S ticks wall) es w₁ ∧
      (Ready w₁ ∧ Synced Findable w₁) ∧ w₁.log.ioFailed = false ∧ Lives S w₁ e w := by
  obtain ⟨w₁, hbefore, hlast⟩ := Trace.snoc_iff.mp h
  have hok₁ := (lifetime S).sane_before hlast hok
  exact ⟨w₁, hbefore, ((lifetime S).trace hbefore (fun e' he' => hallowed e' (List.mem_append_left _ he'))
    (lifetime_start S ticks wall) hok₁).1, hok₁, hlast⟩

end Quill.Server
