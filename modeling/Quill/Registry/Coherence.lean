import Quill.Registry.Changes
import Quill.Registry.Integrity

/-!
# Runs over plainly named repositories

When no component of a repository name is empty, `.` or `..`, no two names share a file,
so every session has a data file of its own (`Sound`) and every cached entry of the
metadata cache stands for a file that is there (`CacheTrue`). Both hold along all requests
until a file-system step fails.

`Exchange` is a request with its response; `Served S ticks wall es w` says that a server
started on an empty root answered the exchanges `es` in this order and is now in the world `w`.
-/

namespace Quill.Registry

open Text Files Cas World LocalStorage Uploads LocalTags

variable {S : Setup} {repo : Str}

/-- No two of the stored byte strings have one digest. -/
def CollisionFree (S : Setup) (stored : List Bytes) : Prop :=
  ∀ b ∈ stored, ∀ c ∈ stored, S.hash.hex b = S.hash.hex c → b = c

instance (S : Setup) (stored : List Bytes) : Decidable (CollisionFree S stored) :=
  inferInstanceAs (Decidable (∀ b ∈ stored, ∀ c ∈ stored, S.hash.hex b = S.hash.hex c → b = c))

/-! ## Sessions -/

/-- Blobs and sessions are intact, and sessions belong to plain repositories. -/
structure Sound (w : World S) : Prop where
  intact : Intact w
  plain : ∀ key st, w.sessions.lookup key = some st → Plain key.1 ∧ '/' ∉ key.2

theorem Sound.dataNamed {w : World S} (h : Sound w) : DataNamed w := by
  intro key st hst
  rw [(h.intact.sessions key st hst).1]
  exact isDataName_dataPath _ _ _

/-- No effect but a creation adds a session. -/
theorem Effect.session_of_lookup {k : Kind} {w w' : World S} (h : Effect S repo k w w')
    (hk : k ≠ .create) {key : Str × Str} {st' : UploadState S.hash}
    (hst' : w'.sessions.lookup key = some st') : ∃ st, w.sessions.lookup key = some st := by
  have herase : ∀ key', (w.sessions.erase key').lookup key = some st' →
      ∃ st, w.sessions.lookup key = some st := by
    intro key' hlook
    by_cases hkey : key = key'
    · rw [hkey, AList.lookup_erase] at hlook
      cases hlook
    · rw [AList.lookup_erase_ne hkey] at hlook
      exact ⟨st', hlook⟩
  have hinsert : ∀ key' st₀ st₁, w.sessions.lookup key' = some st₀ →
      (w.sessions.insert key' st₁).lookup key = some st' →
      ∃ st, w.sessions.lookup key = some st := by
    intro key' st₀ st₁ hold hlook
    by_cases hkey : key = key'
    · exact ⟨st₀, hkey ▸ hold⟩
    · rw [AList.lookup_insert_ne hkey] at hlook
      exact ⟨st', hlook⟩
  cases h with
  | ambient h => exact ⟨st', h.sessions ▸ hst'⟩
  | create => exact absurd rfl hk
  | spoil => exact absurd rfl hk
  | append chunk now hst => exact hinsert _ _ _ hst hst'
  | commit d hst => exact herase _ hst'
  | abandon hst => exact herase _ hst'
  | _ => exact ⟨st', hst'⟩

theorem Sound.effect {k : Kind} {w w' : World S} (heff : Effect S repo k w w') (hplain : Plain repo)
    (hw : Sound w) (hfailed : w'.log.ioFailed = false) : Sound w' := by
  by_cases hk : k = .create
  · subst hk
    cases heff with
    | spoil => cases hfailed
    | create session info hfs hfile hsession =>
      refine ⟨hw.intact.create (fun key st hst hpath => ?_) hfs hfile, fun key st hst => ?_⟩
      · obtain ⟨hr, hs⟩ := hw.plain key st hst
        rw [(hw.intact.sessions key st hst).1] at hpath
        obtain ⟨h₁, h₂⟩ := dataPath_injective hr hplain hs hsession hpath
        exact Prod.ext h₁ h₂
      · by_cases hkey : key = (repo, session)
        · rw [hkey]
          exact ⟨hplain, hsession⟩
        · rw [AList.lookup_insert_ne hkey] at hst
          exact hw.plain key st hst
  · refine ⟨Intact.effect heff hk hw.intact, fun key st' hst' => ?_⟩
    obtain ⟨st, hst⟩ := Effect.session_of_lookup heff hk hst'
    exact hw.plain key st hst

/-! ## The metadata cache -/

/-- Every cached entry stands for the file of its blob. -/
def CacheTrue (w : World S) : Prop :=
  ∀ r d m, w.metaCache.lookup (r, d) = some m →
    Plain r ∧ m.path = blobPath S.root r d ∧ w.fs.isFile (blobPath S.root r d) = true

theorem CacheTrue.keeps {except : Set Path} {w w' : World S} (hw : CacheTrue w)
    (hkeep : Keeps except w w')
    (hcache : ∀ r d m, w'.metaCache.lookup (r, d) = some m → w.metaCache.lookup (r, d) = some m)
    (hexcept : ∀ r d m, w'.metaCache.lookup (r, d) = some m → Plain r →
      blobPath S.root r d ∉ except) : CacheTrue w' := by
  intro r d m hm
  obtain ⟨hr, hpath, hfile⟩ := hw r d m (hcache r d m hm)
  exact ⟨hr, hpath, hkeep.blobs _ (isBlobName_blobPath _ _ _) (hexcept r d m hm hr) hfile⟩

theorem CacheTrue.effect {k : Kind} {w w' : World S} (heff : Effect S repo k w w')
    (hplain : Plain repo) (hdata : DataNamed w) (hw : CacheTrue w) : CacheTrue w' := by
  by_cases hk : k ∈ quietKinds
  · have hkeep := (Effect.quiet hk heff hdata).1
    cases heff with
    | fill d m hpath hfile =>
      intro r d' m' hm'
      by_cases hkey : (r, d') = (repo, d)
      · cases hkey
        have hm : m = m' := by
          rw [World.filled, AList.lookup_insert] at hm'
          exact Option.some.inj hm'
        subst hm
        exact ⟨hplain, hpath, hpath ▸ hfile⟩
      · rw [World.filled, AList.lookup_insert_ne hkey] at hm'
        exact hw r d' m' hm'
    | ambient h =>
      refine hw.keeps hkeep (fun r d m hm => ?_) fun _ _ _ _ _ => Set.notMem_empty _
      rwa [h.cache] at hm
    | retract => simp [quietKinds] at hk
    | _ => exact hw.keeps hkeep (fun _ _ _ hm => hm) fun _ _ _ _ _ => Set.notMem_empty _
  · have htags : ∀ r d, blobPath S.root r d ∉ ({localTagsPath S.root repo} : Set Path) :=
      fun r d => blobPath_ne_localTagsPath S.root r repo d
    cases heff with
    | retract d hfs hgone =>
      intro r d' m hm
      have hkey : (r, d') ≠ (repo, d) := by
        intro he
        rw [he, AList.lookup_erase] at hm
        cases hm
      rw [AList.lookup_erase_ne hkey] at hm
      obtain ⟨hr, hpath, hfile⟩ := hw r d' m hm
      refine ⟨hr, hpath, ?_⟩
      have hne : blobPath S.root r d' ∉ ({blobPath S.root repo d} : Set Path) := by
        intro he
        obtain ⟨h₁, h₂⟩ := (blobPath_eq_iff hr hplain).mp he
        exact hkey (Prod.ext h₁ h₂)
      rw [Fs.isFile, hfs.read (blobPath_not_scratch _ _ _) hne]
      exact hfile
    | setTag tag d pushedAt failed hfs =>
      intro r d' m hm
      obtain ⟨hr, hpath, hfile⟩ := hw r d' m hm
      refine ⟨hr, hpath, ?_⟩
      rw [Fs.isFile]
      exact (hfs.read (blobPath_not_scratch _ _ _) (htags r d')) ▸ hfile
    | removeTag tag failed hfs =>
      intro r d' m hm
      obtain ⟨hr, hpath, hfile⟩ := hw r d' m hm
      refine ⟨hr, hpath, ?_⟩
      rw [Fs.isFile]
      exact (hfs.read (blobPath_not_scratch _ _ _) (htags r d')) ▸ hfile
    | _ => exact absurd (by simp [quietKinds]) hk

/-! ## Looks at the store -/

/-- The metadata cache agrees with the files. -/
def CacheAgrees (w : World S) : Prop :=
  ∀ r d m, w.metaCache.lookup (r, d) = some m →
    m.path = blobPath S.root r d ∧ w.fs.isFile (blobPath S.root r d) = true

theorem CacheTrue.agrees {w : World S} (hw : CacheTrue w) : CacheAgrees w :=
  fun r d m hm => (hw r d m hm).2

/-- A step that changes no file, no tag and no session, calls no upstream and keeps the metadata cache
in agreement. -/
structure Peeks (w w' : World S) : Prop where
  fs : w'.fs = w.fs
  localTags : w'.localTags = w.localTags
  tags : w'.upstreamTags = w.upstreamTags
  sessions : w'.sessions = w.sessions
  calls : w'.log.calls = w.log.calls
  agrees : CacheAgrees w → CacheAgrees w'

namespace Peeks

variable {w w' w'' : World S}

theorem trans (h : Peeks w w') (g : Peeks w' w'') : Peeks w w'' :=
  ⟨g.fs.trans h.fs, g.localTags.trans h.localTags, g.tags.trans h.tags, g.sessions.trans h.sessions,
    g.calls.trans h.calls, fun hw => g.agrees (h.agrees hw)⟩

theorem refl (w : World S) : Peeks w w := ⟨rfl, rfl, rfl, rfl, rfl, id⟩

theorem tick (w : World S) : Peeks w w.tick := ⟨rfl, rfl, rfl, rfl, rfl, id⟩

theorem of_tick (h : w' = w ∨ w' = w.tick) : Peeks w w' := by
  rcases h with rfl | rfl
  · exact refl w'
  · exact tick w

theorem failed (w : World S) : Peeks w w.failed := ⟨rfl, rfl, rfl, rfl, rfl, id⟩

theorem filled {d : Digest} {m : BlobMeta} (w : World S) (hpath : m.path = blobPath S.root repo d)
    (hfile : w.fs.isFile (blobPath S.root repo d) = true) : Peeks w (w.filled repo d m) := by
  refine ⟨rfl, rfl, rfl, rfl, rfl, fun hw r e m' hm' => ?_⟩
  by_cases hkey : (r, e) = (repo, d)
  · cases hkey
    rw [World.filled, AList.lookup_insert] at hm'
    cases hm'
    exact ⟨hpath, hfile⟩
  · rw [World.filled, AList.lookup_insert_ne hkey] at hm'
    exact hw r e m' hm'

end Peeks

/-- Under a cache that agrees, the file alone decides what `blob_meta` finds. -/
theorem exec_blobMeta_agrees {w : World S} (hw : CacheAgrees w) (repo : Str) (d : Digest) :
    ∃ r w', (blobMeta repo d).exec w = (r, w') ∧ Peeks w w' ∧
      ((∃ m b, r = .ok (some m) ∧ m.path = blobPath S.root repo d ∧
          w.fs.read (blobPath S.root repo d) = some b) ∨
        (w.fs.read (blobPath S.root repo d) = none ∧ ∀ m, r ≠ .ok (some m))) := by
  obtain ⟨w₁, htick, hout⟩ := exec_blobMeta w repo d
  have hw₁ : Peeks w w₁ := .of_tick htick
  generalize (blobMeta repo d).exec w = out at hout
  cases hout with
  | @hit m hlook hfresh =>
    obtain ⟨hpath, hfile⟩ := hw repo d m hlook
    obtain ⟨b, hb⟩ := Option.isSome_iff_exists.mp hfile
    exact ⟨_, _, rfl, hw₁, Or.inl ⟨m, b, rfl, hpath, hb⟩⟩
  | @found b hread =>
    have hfile : w₁.tick.fs.isFile (blobPath S.root repo d) = true := by
      simp [Fs.isFile, World.tick, hw₁.fs, hread]
    have hstep : Peeks w₁ (w₁.tick.filled repo d ⟨blobPath S.root repo d, b.length, w₁.tick.now⟩) :=
      (Peeks.tick w₁).trans (.filled _ rfl hfile)
    exact ⟨_, _, rfl, hw₁.trans hstep, Or.inl ⟨_, b, rfl, rfl, hread⟩⟩
  | isDir hnode => exact ⟨_, _, rfl, hw₁, Or.inr ⟨by simp [Fs.read, hnode], by simp⟩⟩
  | absent hnode _ => exact ⟨_, _, rfl, hw₁, Or.inr ⟨by simp [Fs.read, hnode], by simp⟩⟩
  | blocked hnode _ =>
    exact ⟨_, _, rfl, hw₁.trans (.failed w₁), Or.inr ⟨by simp [Fs.read, hnode], by simp⟩⟩

/-! ## Runs -/

/-- A request and its response. -/
abbrev Exchange := Request × Response

/-- A server started on an empty root has answered the exchanges in this order. -/
inductive Served (S : Setup) (ticks wall : List Nat) : List Exchange → World S → Prop
  | start : Served S ticks wall [] (World.start S ticks wall)
  | serve {es : List Exchange} {w w' : World S} {req : Request} {resp : Response}
      (h : Served S ticks wall es w) (hrun : (dispatch req : Handler S).exec w = (.ok resp, w')) :
      Served S ticks wall (es ++ [(req, resp)]) w'

/-- The name of the repository, if the request has one, is plain. -/
def PlainRepo (req : Request) : Prop := (split req.rest).1 ≠ [] → Plain (split req.rest).1

instance (req : Request) : Decidable (PlainRepo req) := inferInstanceAs (Decidable (_ → _))

/-- A request that changes a repository names it in its path. -/
theorem PlainRepo.of_command {req : Request} {r : Str} (h : PlainRepo req)
    (hr : req.command.repo? = some r) : Plain r := by
  obtain ⟨hname, hne⟩ := repo_of_command hr
  rw [hname]
  exact h (hname ▸ hne)

/-- The world in which the response was computed. -/
theorem Served.of_exec {ticks wall : List Nat} {es : List Exchange} {w : World S} {req : Request}
    {resp : Response} (h : Served S ticks wall es w)
    (hresp : ((dispatch req : Handler S).exec w).1 = .ok resp) :
    Served S ticks wall (es ++ [(req, resp)]) ((dispatch req : Handler S).exec w).2 :=
  .serve h (Prod.ext hresp rfl)

/-- The exchanges of a server that is sent the requests, if it answers all of them. -/
def serveAll (w : World S) : List Request → Option (List Exchange × World S)
  | [] => some ([], w)
  | req :: reqs =>
    match (dispatch req : Handler S).exec w with
    | (.ok resp, w') => (serveAll w' reqs).map fun p => ((req, resp) :: p.1, p.2)
    | _ => none

theorem Served.all {ticks wall : List Nat} {es es' : List Exchange} {w w' : World S}
    (h : Served S ticks wall es w) {reqs : List Request} (hall : serveAll w reqs = some (es', w')) :
    Served S ticks wall (es ++ es') w' := by
  induction reqs generalizing w es es' with
  | nil =>
    cases hall
    rwa [List.append_nil]
  | cons req reqs ih =>
    unfold serveAll at hall
    rcases hrun : (dispatch req : Handler S).exec w with ⟨e | resp, w₁⟩
    · rw [hrun] at hall
      cases hall
    · rw [hrun] at hall
      obtain ⟨⟨es₁, w₂⟩, hrest, hpair⟩ := Option.map_eq_some_iff.mp hall
      cases hpair
      have hserved := ih (.serve h hrun) hrest
      rwa [List.append_assoc] at hserved

theorem Served.serveAll {ticks wall : List Nat} {es : List Exchange} {w : World S}
    {reqs : List Request} (hall : serveAll (World.start S ticks wall) reqs = some (es, w)) : Served S ticks wall es w := by
  have h := Served.all .start hall
  rwa [List.nil_append] at h

/-- A run with the given requests whose exchanges and last world have a property. -/
theorem exists_served (S : Setup) (ticks wall : List Nat) (reqs : List Request)
    (P : List Exchange → World S → Prop) [∀ es w, Decidable (P es w)]
    (h : (serveAll (World.start S ticks wall) reqs).any (fun p => decide (P p.1 p.2)) = true) :
    ∃ es w, serveAll (World.start S ticks wall) reqs = some (es, w) ∧ Served S ticks wall es w ∧
      P es w := by
  cases hall : serveAll (World.start S ticks wall) reqs with
  | none =>
    rw [hall] at h
    cases h
  | some p =>
    rw [hall] at h
    exact ⟨p.1, p.2, rfl, .serveAll hall, of_decide_eq_true h⟩

theorem serveAll_requests {es : List Exchange} {w w' : World S} {reqs : List Request}
    (hall : serveAll w reqs = some (es, w')) : es.map Prod.fst = reqs := by
  induction reqs generalizing w es with
  | nil =>
    cases hall
    rfl
  | cons req reqs ih =>
    unfold serveAll at hall
    rcases hrun : (dispatch req : Handler S).exec w with ⟨e | resp, w₁⟩
    · rw [hrun] at hall
      cases hall
    · rw [hrun] at hall
      obtain ⟨⟨es₁, w₂⟩, hrest, hpair⟩ := Option.map_eq_some_iff.mp hall
      cases hpair
      rw [List.map_cons, ih hrest]

theorem plain_serveAll {es : List Exchange} {w w' : World S} {reqs : List Request}
    (hall : serveAll w reqs = some (es, w')) (hplain : ∀ req ∈ reqs, PlainRepo req) : ∀ e ∈ es, PlainRepo e.1 := fun e he =>
  hplain e.1 (serveAll_requests hall ▸ List.mem_map_of_mem he)

theorem dispatch_unnamed {req : Request} (hrepo : (split req.rest).1 = []) (w : World S) :
    ((dispatch req : Handler S).exec w).2 = w := by
  unfold dispatch
  split
  · unfold catalog
    rw [Prog.exec_bind_ok (Prog.exec_get w)]
    cases listRepos S.root w.fs with
    | error e => rfl
    | ok repos => rfl
  · rfl

/-- A request on a plainly named repository keeps what every effect on it keeps. -/
theorem dispatch_keep {I : World S → Prop} {req : Request} (hplain : PlainRepo req)
    (heff : ∀ {repo k v v'}, Plain repo → Effect S repo k v v' → I v → I v') {w : World S}
    (hw : I w) : I ((dispatch req : Handler S).exec w).2 := by
  by_cases hrepo : (split req.rest).1 = []
  · rw [dispatch_unnamed hrepo]
    exact hw
  · have halong : Moves (Along S (split req.rest).1 Set.univ) (dispatch req : Handler S) :=
      dispatch_along (Set.subset_univ _) trivial req (fun _ _ => trivial) (Set.subset_univ _)
    refine Evolution.star_keep (I := I) ?_ (halong w) hw
    rintro v v' ⟨k, -, h⟩ hv
    exact heff (hplain hrepo) h hv

/-- The sessions are sound and the cache is true, unless a file-system step has failed. -/
def CoherentUnlessFailed (w : World S) : Prop := w.log.ioFailed = true ∨ (Sound w ∧ CacheTrue w)

theorem CoherentUnlessFailed.effect {k : Kind} {w w' : World S} (hplain : Plain repo)
    (heff : Effect S repo k w w') (hw : CoherentUnlessFailed w) : CoherentUnlessFailed w' := by
  rcases hw with hw | ⟨hsound, hcache⟩
  · exact Or.inl (heff.failed hw)
  · cases hfailed : w'.log.ioFailed with
    | true => exact Or.inl hfailed
    | false =>
      exact Or.inr ⟨hsound.effect heff hplain hfailed, hcache.effect heff hplain hsound.dataNamed⟩

theorem Served.coherent {ticks wall : List Nat} {es : List Exchange} {w : World S}
    (h : Served S ticks wall es w) (hplain : ∀ e ∈ es, PlainRepo e.1) : CoherentUnlessFailed w := by
  induction h with
  | start =>
    refine Or.inr ⟨⟨intact_start S ticks wall, fun key st hst => ?_⟩, fun r d m hm => ?_⟩
    · cases hst
    · cases hm
  | @serve es w w' req resp _ hrun ih =>
    have hlast : PlainRepo req := hplain (req, resp) (by simp)
    have hkeep := dispatch_keep (I := CoherentUnlessFailed) hlast
      (fun hr h => CoherentUnlessFailed.effect hr h)
      (ih fun e he => hplain e (List.mem_append_left _ he))
    rwa [hrun] at hkeep

/-- A failure stays recorded. -/
theorem dispatch_failed (req : Request) {w : World S} (hw : w.log.ioFailed = true) :
    ((dispatch req : Handler S).exec w).2.log.ioFailed = true := by
  have halong : Moves (Along S (split req.rest).1 Set.univ) (dispatch req : Handler S) :=
    dispatch_along (Set.subset_univ _) trivial req (fun _ _ => trivial) (Set.subset_univ _)
  exact Evolution.star_keep (I := fun v => v.log.ioFailed = true)
    (fun v v' ⟨_, _, h⟩ hv => h.failed hv) (halong w) hw

/-- Requests before one without a recorded failure have none either. -/
theorem not_failed_before {req : Request} {resp : Response} {w w' : World S}
    (hrun : (dispatch req : Handler S).exec w = (.ok resp, w')) (hfailed : w'.log.ioFailed = false) :
    w.log.ioFailed = false := by
  refine Bool.eq_false_iff.mpr fun hw => ?_
  have h := dispatch_failed req hw
  rw [hrun, hfailed] at h
  cases h

theorem dataNamed_dispatch {req : Request} {resp : Response} {w w' : World S}
    (hrun : (dispatch req : Handler S).exec w = (.ok resp, w')) (h : DataNamed w) : DataNamed w' := by
  have halong : Moves (Along S (split req.rest).1 Set.univ) (dispatch req : Handler S) :=
    dispatch_along (Set.subset_univ _) trivial req (fun _ _ => trivial) (Set.subset_univ _)
  exact DataNamed.along (halong.rel_of_exec hrun) h

theorem Served.dataNamed {ticks wall : List Nat} {es : List Exchange} {w : World S}
    (h : Served S ticks wall es w) : DataNamed w := by
  induction h with
  | start =>
    intro key st hst
    cases hst
  | serve _ hrun ih => exact dataNamed_dispatch hrun ih

end Quill.Registry
