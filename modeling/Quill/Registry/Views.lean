import Quill.Registry.Coherence
import Quill.Registry.Service

/-!
# The repositories of a server

`repoView w r` reads off a world what the repository `r` holds: the files of its blobs, its entries
in the two maps of tags and the data files of its sessions. `view` does this for all plainly named
repositories.

`Ready` collects the invariants on which the handlers rely while no file-system step fails: sessions
have files of their own, the metadata cache is true and has the lengths of the contents, pushed tags
name digests, the counter of a session counts the bytes of its file, and the root is a directory. An effect on one repository keeps them (`Ready.effect`) and
leaves the other repositories as they are (`Effect.elsewhere`).
-/

namespace Quill.Registry

open Text Files Cas World LocalStorage Uploads LocalTags

variable {S : Setup} {repo r : Str} {k : Kind} {w w' w'' : World S}

/-! ## Views -/

/-- What a repository holds, read off the files and the maps. -/
def repoView (w : World S) (r : Str) : Repo where
  blobs d := w.fs.read (blobPath S.root r d)
  tags t := localDigest w r t
  cached t := (w.upstreamTags.lookup (r, t)).map Prod.fst
  uploads s := (w.sessions.lookup (r, s)).bind fun st => w.fs.read st.dataPath

/-- What the registry holds, by repository. -/
def view (w : World S) : Shelf := fun r => repoView w r.val

@[simp] theorem repoView_blobs (w : World S) (r : Str) (d : Digest) :
    (repoView w r).blobs d = w.fs.read (blobPath S.root r d) := rfl

@[simp] theorem repoView_tags (w : World S) (r t : Str) :
    (repoView w r).tags t = localDigest w r t := rfl

@[simp] theorem repoView_cached (w : World S) (r t : Str) :
    (repoView w r).cached t = (w.upstreamTags.lookup (r, t)).map Prod.fst := rfl

@[simp] theorem repoView_uploads (w : World S) (r s : Str) :
    (repoView w r).uploads s = (w.sessions.lookup (r, s)).bind fun st => w.fs.read st.dataPath := rfl

/-- A server on an empty root has empty repositories. -/
theorem view_start (S : Setup) (ticks wall : List Nat) : view (World.start S ticks wall) = Shelf.empty := by
  funext r
  refine Holdings.ext ?_ rfl rfl rfl
  funext d
  exact read_emptyRoot _ _

theorem view_of_unchanged (h : ManifestPuts.Unchanged w w') : repoView w' r = repoView w r := by
  refine Holdings.ext ?_ ?_ ?_ ?_
  · funext d
    exact h.files _
  · funext t
    simp only [repoView_tags, localDigest, h.localTags]
  · funext t
    simp only [repoView_cached, h.upstreamTags]
  · funext s
    simp only [repoView_uploads, h.sessions, h.files]

theorem Peeks.view (h : Peeks w w') : repoView w' r = repoView w r :=
  view_of_unchanged (ManifestPuts.Peeks.unchanged h)

/-! ## What an effect touches -/

/-- The files that an effect of a kind on a repository can touch. -/
def Touches (S : Setup) (repo : Str) (k : Kind) (p : Path) : Prop :=
  ((k = .publish ∨ k = .retract ∨ k = .session) ∧ ∃ d, p = blobPath S.root repo d) ∨
  ((k = .create ∨ k = .session) ∧ ∃ session, '/' ∉ session ∧ p = dataPath S.root repo session) ∨
  ((k = .setTag ∨ k = .removeTag) ∧ p = localTagsPath S.root repo)

theorem Effect.touches (h : Effect S repo k w w') (hw : Sound w) (hok : w'.log.ioFailed = false) :
    ∃ touched, Spares touched w.fs w'.fs ∧ ∀ p ∈ touched, Touches S repo k p := by
  have hdata : ∀ {session st}, w.sessions.lookup (repo, session) = some st →
      ∃ session, '/' ∉ session ∧ st.dataPath = dataPath S.root repo session := by
    intro session st hst
    exact ⟨session, (hw.plain _ _ hst).2, (hw.intact.sessions _ _ hst).1⟩
  cases h with
  | ambient h => exact ⟨∅, h.fs, fun _ hp => absurd hp (Set.notMem_empty _)⟩
  | publish d b hhash hfs => exact ⟨_, hfs, fun p hp => .inl ⟨.inl rfl, d, hp⟩⟩
  | fill => exact ⟨∅, .refl _ _, fun _ hp => absurd hp (Set.notMem_empty _)⟩
  | retract d hfs => exact ⟨_, hfs, fun p hp => .inl ⟨.inr (.inl rfl), d, hp⟩⟩
  | create session info hfs hfile hsession =>
    exact ⟨_, hfs, fun p hp => .inr (.inl ⟨.inl rfl, session, hsession, hp⟩)⟩
  | append chunk now hst hread hfs =>
    obtain ⟨session, hsession, hpath⟩ := hdata hst
    exact ⟨_, hfs, fun p hp => .inr (.inl ⟨.inr rfl, session, hsession, hp.trans hpath⟩)⟩
  | commit d hst hhash hread hfs =>
    obtain ⟨session, hsession, hpath⟩ := hdata hst
    refine ⟨_, hfs, fun p hp => ?_⟩
    rcases hp with hp | hp
    · exact .inr (.inl ⟨.inr rfl, session, hsession, hp.trans hpath⟩)
    · exact .inl ⟨.inr (.inr rfl), d, hp⟩
  | abandon hst hfs =>
    obtain ⟨session, hsession, hpath⟩ := hdata hst
    exact ⟨_, hfs, fun p hp => .inr (.inl ⟨.inr rfl, session, hsession, hp.trans hpath⟩)⟩
  | spoil => cases hok
  | setTag tag d pushedAt failed hfs => exact ⟨_, hfs, fun p hp => .inr (.inr ⟨.inl rfl, hp⟩)⟩
  | removeTag tag failed hfs => exact ⟨_, hfs, fun p hp => .inr (.inr ⟨.inr rfl, hp⟩)⟩

/-- An effect keeps all directories. -/
theorem Effect.dirs (h : Effect S repo k w w') (hw : Sound w) (hok : w'.log.ioFailed = false) (p : Path)
    (hp : w.fs.isDir p = true) : w'.fs.isDir p = true := by
  obtain ⟨touched, hfs, -⟩ := Effect.touches h hw hok
  exact hfs.dirs p hp

/-- A blob is touched by effects on its repository that publish, retract or end sessions. -/
theorem Touches.of_blob {d : Digest} (hrepo : Plain repo) (hr : Plain r)
    (h : Touches S repo k (blobPath S.root r d)) :
    r = repo ∧ (k = .publish ∨ k = .retract ∨ k = .session) := by
  rcases h with ⟨hk, d', hp⟩ | ⟨-, session, -, hp⟩ | ⟨-, hp⟩
  · exact ⟨((blobPath_eq_iff hr hrepo).mp hp).1, hk⟩
  · exact absurd hp.symm (blobPath_ne_dataPath _ _ _ _ _)
  · exact absurd (Set.mem_singleton_iff.mpr hp) (blobPath_ne_localTagsPath _ _ _ _)

/-- The file of a session is touched by effects on its repository that belong to sessions. -/
theorem Touches.of_data {session : Str} (hrepo : Plain repo) (hr : Plain r) (hs : '/' ∉ session)
    (h : Touches S repo k (dataPath S.root r session)) : r = repo ∧ (k = .create ∨ k = .session) := by
  rcases h with ⟨-, d, hp⟩ | ⟨hk, session', hs', hp⟩ | ⟨-, hp⟩
  · exact absurd hp (blobPath_ne_dataPath _ _ _ _ _)
  · exact ⟨(dataPath_injective hr hrepo hs hs' hp).1, hk⟩
  · exact absurd (isDataName_dataPath S.root r session)
      (fun hd => not_isTagsName_of_isDataName hd (hp ▸ ⟨_, rfl⟩))

theorem Effect.read_blob (h : Effect S repo k w w') (hw : Sound w) (hok : w'.log.ioFailed = false)
    (hrepo : Plain repo) (hr : Plain r) (hne : r = repo → k ≠ .publish ∧ k ≠ .retract ∧ k ≠ .session)
    (d : Digest) : w'.fs.read (blobPath S.root r d) = w.fs.read (blobPath S.root r d) := by
  obtain ⟨touched, hfs, htouched⟩ := Effect.touches h hw hok
  refine hfs.read (blobPath_not_scratch _ _ _) fun hmem => ?_
  obtain ⟨hsame, hk⟩ := (htouched _ hmem).of_blob hrepo hr
  obtain ⟨h₁, h₂, h₃⟩ := hne hsame
  rcases hk with hk | hk | hk
  · exact h₁ hk
  · exact h₂ hk
  · exact h₃ hk

theorem Effect.read_data (h : Effect S repo k w w') (hw : Sound w) (hok : w'.log.ioFailed = false)
    (hrepo : Plain repo) (hne : r = repo → k ≠ .create ∧ k ≠ .session) {session : Str}
    {st : UploadState S.hash} (hst : w.sessions.lookup (r, session) = some st) :
    w'.fs.read st.dataPath = w.fs.read st.dataPath := by
  obtain ⟨touched, hfs, htouched⟩ := Effect.touches h hw hok
  obtain ⟨hr, hs⟩ := hw.plain _ _ hst
  rw [(hw.intact.sessions _ _ hst).1]
  refine hfs.read (dataPath_not_scratch _ _ _) fun hmem => ?_
  obtain ⟨hsame, hk⟩ := (htouched _ hmem).of_data hrepo hr hs
  exact hk.elim (hne hsame).1 (hne hsame).2

/-- An effect leaves the sessions of the other repositories. -/
theorem Effect.sessions_of_ne (h : Effect S repo k w w') (hne : r = repo → k ≠ .create ∧ k ≠ .session)
    (session : Str) : w'.sessions.lookup (r, session) = w.sessions.lookup (r, session) := by
  have hkey : ∀ s, (r, session) = (repo, s) → r = repo := fun s he => (Prod.mk.inj he).1
  cases h with
  | ambient h => rw [h.sessions]
  | create s info =>
    refine AList.lookup_insert_ne fun he => ?_
    exact (hne (hkey s he)).1 rfl
  | @append _ _ s =>
    refine AList.lookup_insert_ne fun he => ?_
    exact (hne (hkey s he)).2 rfl
  | @commit _ _ s =>
    refine AList.lookup_erase_ne fun he => ?_
    exact (hne (hkey s he)).2 rfl
  | @abandon _ _ s =>
    refine AList.lookup_erase_ne fun he => ?_
    exact (hne (hkey s he)).2 rfl
  | _ => rfl

/-- An effect leaves the pushed tags of the other repositories. -/
theorem Effect.tags_of_ne (h : Effect S repo k w w') (hne : r = repo → k ≠ .setTag ∧ k ≠ .removeTag)
    (tag : Str) : w'.localTags.lookup (r, tag) = w.localTags.lookup (r, tag) := by
  cases h with
  | ambient h => rw [h.tags]
  | setTag t =>
    refine AList.lookup_insert_ne fun he => ?_
    exact (hne (Prod.mk.inj he).1).1 rfl
  | removeTag t =>
    refine AList.lookup_erase_ne fun he => ?_
    exact (hne (Prod.mk.inj he).1).2 rfl
  | _ => rfl

/-! ## Other repositories -/

/-- Blobs, pushed tags and uploads of the repository are the same. -/
structure SameOwn (r : Str) (w w' : World S) : Prop where
  blobs : (repoView w' r).blobs = (repoView w r).blobs
  tags : (repoView w' r).tags = (repoView w r).tags
  uploads : (repoView w' r).uploads = (repoView w r).uploads

theorem SameOwn.refl (r : Str) (w : World S) : SameOwn r w w := ⟨rfl, rfl, rfl⟩

theorem SameOwn.trans (h : SameOwn r w w') (g : SameOwn r w' w'') : SameOwn r w w'' :=
  ⟨g.blobs.trans h.blobs, g.tags.trans h.tags, g.uploads.trans h.uploads⟩

theorem Effect.elsewhere (h : Effect S repo k w w') (hw : Sound w) (hok : w'.log.ioFailed = false)
    (hrepo : Plain repo) (hr : Plain r) (hne : r ≠ repo) : SameOwn r w w' := by
  refine ⟨?_, ?_, ?_⟩
  · funext d
    exact Effect.read_blob h hw hok hrepo hr (fun he => absurd he hne) d
  · funext t
    simp only [repoView_tags, localDigest]
    rw [Effect.tags_of_ne h (fun he => absurd he hne) t]
  · funext s
    simp only [repoView_uploads]
    rw [Effect.sessions_of_ne h (fun he => absurd he hne) s]
    refine Option.bind_congr fun st hst => ?_
    exact Effect.read_data h hw hok hrepo (fun he => absurd he hne) hst

/-! ## Invariants -/

/-- Every pushed tag has the text of a digest. -/
def TagsTyped (w : World S) : Prop :=
  ∀ key m, w.localTags.lookup key = some m → ∃ d : Digest, m.digest = d.toStr

/-- A session is open and counts the bytes of its file. -/
def Counted (w : World S) : Prop :=
  ∀ key st b, w.sessions.lookup key = some st → w.fs.read st.dataPath = some b →
    st.finalized = false ∧ st.info.bytesReceived = tally b

/-- Contents that were stored have the digest and this length. -/
def Recorded (w : World S) (d : Digest) (n : Nat) : Prop :=
  ∃ c ∈ w.log.stored, S.hash.hex c = d.hex ∧ (c.length < u64 → n = c.length)

/-- Cached metadata has the length of the contents. -/
def CacheSized (w : World S) : Prop :=
  ∀ r d m, w.metaCache.lookup (r, d) = some m → Recorded w d m.size

/-- The invariant of the server at the end of a request. -/
structure Ready (w : World S) : Prop where
  sound : Sound w
  cache : CacheTrue w
  sized : CacheSized w
  typed : TagsTyped w
  counted : Counted w
  rooted : w.fs.isDir S.root = true

theorem TagsTyped.effect (heff : Effect S repo k w w') (hw : TagsTyped w) : TagsTyped w' := by
  cases heff with
  | ambient h => exact fun key m hm => hw key m (h.tags ▸ hm)
  | setTag tag d =>
    intro key m hm
    by_cases hkey : key = (repo, tag)
    · subst hkey
      rw [World.retagged, AList.lookup_insert] at hm
      cases hm
      exact ⟨d, rfl⟩
    · rw [World.retagged, AList.lookup_insert_ne hkey] at hm
      exact hw key m hm
  | removeTag tag =>
    intro key m hm
    by_cases hkey : key = (repo, tag)
    · rw [hkey, World.retagged, AList.lookup_erase] at hm
      cases hm
    · rw [World.retagged, AList.lookup_erase_ne hkey] at hm
      exact hw key m hm
  | _ => exact hw

/-- A step keeps the counters when it keeps or ends the sessions and keeps the files of those that
stay. -/
theorem Counted.of_lookup (hw : Counted w)
    (h : ∀ key st b, w'.sessions.lookup key = some st → w'.fs.read st.dataPath = some b →
      (w.sessions.lookup key = some st ∧ w.fs.read st.dataPath = some b) ∨
      (st.finalized = false ∧ st.info.bytesReceived = tally b)) : Counted w' := by
  intro key st b hst hb
  rcases h key st b hst hb with ⟨hst, hb⟩ | hnew
  · exact hw key st b hst hb
  · exact hnew

/-- A session that is not the one of a step keeps its file. -/
theorem Sound.read_other {except : Set Path} {fs' : Fs} (hw : Sound w) (hfs : Spares except w.fs fs')
    {key : Str × Str} {st : UploadState S.hash} (hst : w.sessions.lookup key = some st)
    (hexcept : ∀ p ∈ except, IsDataName p →
      ∃ key' st', w.sessions.lookup key' = some st' ∧ p = st'.dataPath ∧ key' ≠ key) :
    fs'.read st.dataPath = w.fs.read st.dataPath := by
  have hpath := (hw.intact.sessions _ _ hst).1
  have hname : IsDataName st.dataPath := hpath ▸ isDataName_dataPath _ _ _
  refine hfs.read (hpath ▸ dataPath_not_scratch _ _ _) fun hmem => ?_
  obtain ⟨key', st', hst', hp, hne⟩ := hexcept _ hmem hname
  exact hne (hw.intact.apart _ _ _ _ hst' hst hp.symm)

theorem Counted.effect (heff : Effect S repo k w w') (hk : k ≠ .create) (hsound : Sound w)
    (hw : Counted w) : Counted w' := by
  have hother : ∀ {session st d}, w.sessions.lookup (repo, session) = some st →
      ∀ {key : Str × Str}, key ≠ (repo, session) →
      ∀ p ∈ ({st.dataPath, blobPath S.root repo d} : Set Path), IsDataName p →
      ∃ key' st', w.sessions.lookup key' = some st' ∧ p = st'.dataPath ∧ key' ≠ key := by
    rintro session st d hst key hne p (rfl | rfl) hname
    · exact ⟨_, _, hst, rfl, hne.symm⟩
    · exact absurd hname (not_isDataName_of_isBlobName (isBlobName_blobPath _ _ _))
  have hkeep : ∀ {except : Set Path} {fs' : Fs}, Spares except w.fs fs' →
      (∀ p ∈ except, ¬ IsDataName p) → ∀ {key st}, w.sessions.lookup key = some st →
      fs'.read st.dataPath = w.fs.read st.dataPath := by
    intro except fs' hfs hexcept key st hst
    exact hsound.read_other hfs hst fun p hp hname => absurd hname (hexcept p hp)
  have hblob : ∀ d, ∀ p ∈ ({blobPath S.root repo d} : Set Path), ¬ IsDataName p := by
    rintro d p rfl
    exact not_isDataName_of_isBlobName (isBlobName_blobPath _ _ _)
  have htags : ∀ p ∈ ({localTagsPath S.root repo} : Set Path), ¬ IsDataName p := by
    rintro p rfl hname
    exact not_isTagsName_of_isDataName hname ⟨_, rfl⟩
  refine hw.of_lookup fun key st b hst hb => ?_
  cases heff with
  | create => exact absurd rfl hk
  | spoil => exact absurd rfl hk
  | ambient h =>
    rw [h.sessions] at hst
    rw [hkeep h.fs (fun _ hp => absurd hp (Set.notMem_empty _)) hst] at hb
    exact Or.inl ⟨hst, hb⟩
  | fill => exact Or.inl ⟨hst, hb⟩
  | publish d c hhash hfs =>
    rw [hkeep hfs (hblob d) hst] at hb
    exact Or.inl ⟨hst, hb⟩
  | retract d hfs =>
    rw [hkeep hfs (hblob d) hst] at hb
    exact Or.inl ⟨hst, hb⟩
  | setTag tag d pushedAt failed hfs =>
    have hfile : _ = w.fs.read st.dataPath := hkeep hfs htags hst
    exact Or.inl ⟨hst, hfile ▸ hb⟩
  | removeTag tag failed hfs =>
    have hfile : _ = w.fs.read st.dataPath := hkeep hfs htags hst
    exact Or.inl ⟨hst, hfile ▸ hb⟩
  | @append _ _ session st₀ c chunk now hst₀ hread hfs hfile =>
    by_cases hkey : key = (repo, session)
    · subst hkey
      rw [AList.lookup_insert] at hst
      cases hst
      have hbytes : b = c ++ chunk := by
        have hpath : (UploadState.fed st₀ chunk now).dataPath = st₀.dataPath := rfl
        rw [hpath, hfile] at hb
        exact (Option.some.inj hb).symm
      obtain ⟨hopen, hcount⟩ := hw _ _ _ hst₀ hread
      refine Or.inr ⟨hopen, ?_⟩
      rw [hbytes, ← saturatingAdd_tally, ← hcount]
      rfl
    · rw [AList.lookup_insert_ne hkey] at hst
      have hsame := hsound.read_other (hfs.mono (Set.singleton_subset_iff.mpr (Or.inl rfl))) hst
        (hother (d := ⟨S.hash.hex []⟩) hst₀ hkey)
      exact Or.inl ⟨hst, hsame ▸ hb⟩
  | @commit _ _ session st₀ c d hst₀ hhash hread hfs hfile =>
    by_cases hkey : key = (repo, session)
    · rw [hkey, AList.lookup_erase] at hst
      cases hst
    · rw [AList.lookup_erase_ne hkey] at hst
      have hsame := hsound.read_other hfs hst (hother hst₀ hkey)
      exact Or.inl ⟨hst, hsame ▸ hb⟩
  | @abandon _ _ session st₀ hst₀ hfs =>
    by_cases hkey : key = (repo, session)
    · rw [hkey, AList.lookup_erase] at hst
      cases hst
    · rw [AList.lookup_erase_ne hkey] at hst
      have hsame := hsound.read_other (hfs.mono (Set.singleton_subset_iff.mpr (Or.inl rfl))) hst
        (hother (d := ⟨S.hash.hex []⟩) hst₀ hkey)
      exact Or.inl ⟨hst, hsame ▸ hb⟩

theorem Recorded.mono {d : Digest} {n : Nat} (h : Recorded w d n) (hstored : w.log.stored ⊆ w'.log.stored) :
    Recorded w' d n := by
  obtain ⟨c, hmem, hhash, hlen⟩ := h
  exact ⟨c, hstored hmem, hhash, hlen⟩

/-- The file of a blob has the contents of the digest, which were stored. -/
theorem Sound.blob (hw : Sound w) {d : Digest} {b : Bytes}
    (hb : w.fs.read (blobPath S.root r d) = some b) : S.hash.hex b = d.hex ∧ b ∈ w.log.stored := by
  obtain ⟨hhash, hmem⟩ := hw.intact.blobs _ _ b d.hex.property hb
  exact ⟨Subtype.ext hhash, hmem⟩

/-- A step that caches no metadata keeps what was recorded. -/
theorem CacheSized.of_lookup (hw : CacheSized w) (hstored : w.log.stored ⊆ w'.log.stored)
    (hcache : ∀ r d m, w'.metaCache.lookup (r, d) = some m → w.metaCache.lookup (r, d) = some m) :
    CacheSized w' := fun r d m hm => (hw r d m (hcache r d m hm)).mono hstored

theorem CacheSized.effect (heff : Effect S repo k w w') (hsound : Sound w) (hw : CacheSized w) :
    CacheSized w' := by
  have hgrows : ∀ b : Bytes, w.log.stored ⊆ w.log.stored ++ [b] := fun b => List.subset_append_left _ _
  cases heff with
  | ambient h => exact hw.of_lookup (h.stored ▸ List.Subset.refl _) fun r d m hm => h.cache ▸ hm
  | publish d b => exact hw.of_lookup (hgrows b) fun r d m hm => hm
  | @commit _ _ _ _ b => exact hw.of_lookup (hgrows b) fun r d m hm => hm
  | fill d m hpath hfile hsize =>
    intro r d' m' hm
    by_cases hkey : (r, d') = (repo, d)
    · cases hkey
      rw [World.filled, AList.lookup_insert] at hm
      cases hm
      obtain ⟨b, hb⟩ := Option.isSome_iff_exists.mp hfile
      obtain ⟨hhash, hmem⟩ := hsound.blob (hpath ▸ hb)
      exact ⟨b, hmem, hhash, hsize b hb⟩
    · rw [World.filled, AList.lookup_insert_ne hkey] at hm
      exact hw r d' m' hm
  | retract d =>
    refine hw.of_lookup (List.Subset.refl _) fun r d' m hm => ?_
    by_cases hkey : (r, d') = (repo, d)
    · rw [hkey, AList.lookup_erase] at hm
      cases hm
    · rwa [AList.lookup_erase_ne hkey] at hm
  | _ => exact hw.of_lookup (List.Subset.refl _) fun r d m hm => hm

theorem Ready.effect (heff : Effect S repo k w w') (hk : k ≠ .create) (hrepo : Plain repo)
    (hw : Ready w) (hok : w'.log.ioFailed = false) : Ready w' where
  sound := hw.sound.effect heff hrepo hok
  cache := hw.cache.effect heff hrepo hw.sound.dataNamed
  sized := hw.sized.effect heff hw.sound
  typed := hw.typed.effect heff
  counted := hw.counted.effect heff hk hw.sound
  rooted := Effect.dirs heff hw.sound hok _ hw.rooted

theorem ready_start (S : Setup) (ticks wall : List Nat) : Ready (World.start S ticks wall) where
  sound := ⟨intact_start S ticks wall, fun key st hst => by cases hst⟩
  cache := fun r d m hm => by cases hm
  sized := fun r d m hm => by cases hm
  typed := fun key m hm => by cases hm
  counted := fun key st b hst _ => by cases hst
  rooted := isDir_emptyRoot (List.suffix_refl _)

/-! ## Along several effects -/

/-- While no step fails, a predicate that every effect of the given kinds keeps holds at the end. -/
theorem Along.keep {K : Set Kind} {I : World S → Prop} (hrel : (Along S repo K).rel w w')
    (hstep : ∀ {k v v'}, k ∈ K → Effect S repo k v v' → v'.log.ioFailed = false → I v → I v')
    (hw : I w) (hok : w'.log.ioFailed = false) : I w' := by
  have hstay := Evolution.star_keep (I := fun v => v.log.ioFailed = true ∨ I v) ?_ hrel (Or.inr hw)
  · exact hstay.resolve_left (by simp [hok])
  · rintro v v' ⟨k, hk, heff⟩ (hv | hv)
    · exact Or.inl (heff.failed hv)
    · cases hfailed : v'.log.ioFailed with
      | true => exact Or.inl rfl
      | false => exact Or.inr (hstep hk heff hfailed hv)

/-- A world before one without a recorded failure has none either. -/
theorem Along.not_failed_before {K : Set Kind} (hrel : (Along S repo K).rel w w')
    (hok : w'.log.ioFailed = false) : w.log.ioFailed = false := by
  refine Bool.eq_false_iff.mpr fun hw => ?_
  have hfailed : w'.log.ioFailed = true := Evolution.star_keep (I := fun v => v.log.ioFailed = true)
    (fun v v' ⟨_, _, h⟩ hv => Effect.failed h hv) hrel hw
  cases hok.symm.trans hfailed

theorem Ready.along {K : Set Kind} (hrel : (Along S repo K).rel w w') (hK : Kind.create ∉ K)
    (hrepo : Plain repo) (hw : Ready w) (hok : w'.log.ioFailed = false) : Ready w' :=
  Along.keep hrel (fun hk heff hok hv => hv.effect heff (fun he => hK (he ▸ hk)) hrepo hok) hw hok

/-- Soundness and the other repositories, along any effects on one repository. -/
theorem sound_elsewhere {K : Set Kind} (hrel : (Along S repo K).rel w w') (hrepo : Plain repo)
    (hw : Sound w) (hok : w'.log.ioFailed = false) :
    Sound w' ∧ ∀ r, Plain r → r ≠ repo → SameOwn r w w' :=
  Along.keep (I := fun v => Sound v ∧ ∀ r, Plain r → r ≠ repo → SameOwn r w v) hrel
    (fun _ heff hok hv => ⟨hv.1.effect heff hrepo hok, fun r hr hne =>
      (hv.2 r hr hne).trans (Effect.elsewhere heff hv.1 hok hrepo hr hne)⟩)
    ⟨hw, fun r _ _ => .refl r w⟩ hok

/-- The components of a repository that effects of the given kinds on it leave alone. -/
structure KeepsParts (K : Set Kind) (repo : Str) (w w' : World S) : Prop where
  blobs : Kind.publish ∉ K → Kind.retract ∉ K → Kind.session ∉ K →
    (repoView w' repo).blobs = (repoView w repo).blobs
  tags : Kind.setTag ∉ K → Kind.removeTag ∉ K → (repoView w' repo).tags = (repoView w repo).tags
  uploads : Kind.create ∉ K → Kind.session ∉ K →
    (repoView w' repo).uploads = (repoView w repo).uploads

theorem keepsParts_along {K : Set Kind} (hrel : (Along S repo K).rel w w') (hrepo : Plain repo)
    (hw : Sound w) (hok : w'.log.ioFailed = false) : KeepsParts K repo w w' := by
  have hkeep : Sound w' ∧ KeepsParts K repo w w' := by
    refine Along.keep (I := fun v => Sound v ∧ KeepsParts K repo w v) hrel ?_
      ⟨hw, fun _ _ _ => rfl, fun _ _ => rfl, fun _ _ => rfl⟩ hok
    intro k v v' hk heff hok ⟨hv, hkeeps⟩
    have hnot : ∀ {k' : Kind}, k' ∉ K → k ≠ k' := fun h he => h (he ▸ hk)
    refine ⟨hv.effect heff hrepo hok, fun h₁ h₂ h₃ => ?_, fun h₁ h₂ => ?_, fun h₁ h₂ => ?_⟩
    · rw [← hkeeps.blobs h₁ h₂ h₃]
      funext d
      exact Effect.read_blob heff hv hok hrepo hrepo (fun _ => ⟨hnot h₁, hnot h₂, hnot h₃⟩) d
    · rw [← hkeeps.tags h₁ h₂]
      funext t
      simp only [repoView_tags, localDigest]
      rw [Effect.tags_of_ne heff (fun _ => ⟨hnot h₁, hnot h₂⟩) t]
    · rw [← hkeeps.uploads h₁ h₂]
      funext s
      simp only [repoView_uploads]
      rw [Effect.sessions_of_ne heff (fun _ => ⟨hnot h₁, hnot h₂⟩) s]
      refine Option.bind_congr fun st hst => ?_
      exact Effect.read_data heff hv hok hrepo (fun _ => ⟨hnot h₁, hnot h₂⟩) hst
  exact hkeep.2

end Quill.Registry
