import Quill.Registry.Handlers
import Quill.Storage.Codec
import Quill.Storage.GcExact

/-!
# Integrity of the store

A run is a list of operations (`Op`): requests, direct calls of the stores and garbage
collections, each from start to end. `Intact` is the invariant behind content addressing:
every file with the name of a digest has contents of that digest, and the data file of
every live session holds what its hasher was fed. Each effect other than the creation of
a session keeps it, whatever the upstreams send.

The creation of a session keeps it when the drawn data path is not the data path of
another live session (`DrawsFresh`). The drawn name depends on the wall clock only, and
two names of a repository can share a directory, so this can fail
(`shared_data_path_breaks_blob`).
-/

namespace Quill.Registry

open Text Files Cas World LocalStorage Uploads LocalTags

variable {S : Setup}

/-! ## The invariant -/

/-- Every file named after a digest has contents of that digest, which were stored. -/
def BlobsIntact (S : Setup) (stored : List Bytes) (fs : Fs) : Prop :=
  ∀ n q b, IsHex64 n.val → fs.read (n :: q) = some b → (S.hash.hex b).val = n.val ∧ b ∈ stored

/-- The data file of a session holds what its hasher was fed. -/
def Tracks (w : World S) (key : Str × Str) (st : UploadState S.hash) : Prop :=
  st.dataPath = dataPath S.root key.1 key.2 ∧
    ∃ c, w.fs.read st.dataPath = some c ∧ S.hash.Fed st.hasher c

/-- Every blob on disk has the digest it is named by, every session's data file holds what its
hasher was fed, and no two sessions share a file. -/
structure Intact (w : World S) : Prop where
  blobs : BlobsIntact S w.log.stored w.fs
  sessions : ∀ key st, w.sessions.lookup key = some st → Tracks w key st
  apart : ∀ key key' st st', w.sessions.lookup key = some st →
    w.sessions.lookup key' = some st' → st.dataPath = st'.dataPath → key = key'

theorem not_scratch_of_isHex64 {n : Name} {q : Path} (h : IsHex64 n.val) : ¬ Scratch (n :: q) :=
  fun hs => hs.1 ⟨n, q, rfl, h⟩

theorem BlobsIntact.spares {except : Set Path} {stored stored' : List Bytes} {fs fs' : Fs}
    (h : BlobsIntact S stored fs) (hfs : Spares except fs fs') (hstored : stored ⊆ stored')
    (hnew : ∀ n q b, n :: q ∈ except → IsHex64 n.val → fs'.read (n :: q) = some b →
      (S.hash.hex b).val = n.val ∧ b ∈ stored') : BlobsIntact S stored' fs' := by
  intro n q b hn hb
  by_cases hmem : n :: q ∈ except
  · exact hnew n q b hmem hn hb
  · rw [hfs.read (not_scratch_of_isHex64 hn) hmem] at hb
    exact ⟨(h n q b hn hb).1, hstored (h n q b hn hb).2⟩

theorem not_isHex64_dataPath {root : Path} {repo session : Str} {n : Name} {q : Path}
    (h : n :: q = dataPath root repo session) : ¬ IsHex64 n.val := fun hn =>
  not_isDataName_of_isBlobName ⟨n, q, rfl, hn⟩ (h ▸ isDataName_dataPath root repo session)

theorem blobPath_ne_dataPath (root : Path) (repo repo' session : Str) (d : Digest) :
    dataPath root repo' session ≠ blobPath root repo d := fun h =>
  not_isDataName_of_isBlobName (isBlobName_blobPath root repo d)
    (h ▸ isDataName_dataPath root repo' session)

/-- A session whose file is spared keeps its track. -/
theorem Tracks.spares {except : Set Path} {w w' : World S} {key : Str × Str}
    {st : UploadState S.hash} (h : Tracks w key st) (hfs : Spares except w.fs w'.fs)
    (hp : st.dataPath ∉ except) : Tracks w' key st := by
  obtain ⟨hpath, c, hc, hfed⟩ := h
  refine ⟨hpath, c, ?_, hfed⟩
  rw [hfs.read (by rw [hpath]; exact dataPath_not_scratch _ _ _) hp]
  exact hc

namespace Intact

variable {w w' : World S} {except : Set Path}

/-- A step that leaves the sessions and their files alone. -/
theorem of_blobs (h : Intact w) (hfs : Spares except w.fs w'.fs) (hsess : w'.sessions = w.sessions)
    (hstored : w.log.stored ⊆ w'.log.stored)
    (hdata : ∀ repo session, dataPath S.root repo session ∉ except)
    (hnew : ∀ n q b, n :: q ∈ except → IsHex64 n.val → w'.fs.read (n :: q) = some b →
      (S.hash.hex b).val = n.val ∧ b ∈ w'.log.stored) : Intact w' := by
  refine ⟨h.blobs.spares hfs hstored hnew, fun key st hst => ?_, ?_⟩
  · rw [hsess] at hst
    have htrack := h.sessions key st hst
    exact htrack.spares hfs (by rw [htrack.1]; exact hdata _ _)
  · rw [hsess]
    exact h.apart

/-- A step of the session `key`, which ends it or gives it the new state `st'`. -/
theorem of_session (h : Intact w) {key : Str × Str} {st : UploadState S.hash}
    (hst : w.sessions.lookup key = some st) (hfs : Spares except w.fs w'.fs)
    (hdata : ∀ repo session, dataPath S.root repo session ∈ except →
      dataPath S.root repo session = st.dataPath)
    (hstored : w.log.stored ⊆ w'.log.stored)
    (hnew : ∀ n q b, n :: q ∈ except → IsHex64 n.val → w'.fs.read (n :: q) = some b →
      (S.hash.hex b).val = n.val ∧ b ∈ w'.log.stored)
    (hother : ∀ key' st', key' ≠ key → w'.sessions.lookup key' = some st' →
      w.sessions.lookup key' = some st')
    (hself : ∀ st', w'.sessions.lookup key = some st' →
      st'.dataPath = st.dataPath ∧ Tracks w' key st') : Intact w' := by
  have hkeep : ∀ key' st', w'.sessions.lookup key' = some st' →
      ∃ st₀, w.sessions.lookup key' = some st₀ ∧ st'.dataPath = st₀.dataPath := by
    intro key' st' hst'
    by_cases hk : key' = key
    · subst hk
      exact ⟨st, hst, (hself st' hst').1⟩
    · exact ⟨st', hother key' st' hk hst', rfl⟩
  refine ⟨h.blobs.spares hfs hstored hnew, fun key' st' hst' => ?_, ?_⟩
  · by_cases hk : key' = key
    · subst hk
      exact (hself st' hst').2
    · have hold := hother key' st' hk hst'
      have htrack := h.sessions key' st' hold
      refine htrack.spares hfs fun hmem => hk ?_
      rw [htrack.1] at hmem
      exact h.apart key' key st' st hold hst (htrack.1.trans (hdata _ _ hmem))
  · intro k k' s s' hs hs' hpath
    obtain ⟨t, ht, hp⟩ := hkeep k s hs
    obtain ⟨t', ht', hp'⟩ := hkeep k' s' hs'
    exact h.apart k k' t t' ht ht' (hp ▸ hp' ▸ hpath)

end Intact

/-! ## Effects -/

/-- The bytes at a path that holds the blob of a verified digest. -/
theorem hex_of_mem_blobPath {fs : Fs} {repo : Str} {d : Digest} {b : Bytes}
    (hhash : S.hash.hex b = d.hex) (hfile : fs.read (blobPath S.root repo d) = some b) {n : Name}
    {q : Path} {c : Bytes} (hp : n :: q = blobPath S.root repo d) (hc : fs.read (n :: q) = some c)
    (stored : List Bytes) : (S.hash.hex c).val = n.val ∧ c ∈ stored ++ [b] := by
  rw [hp, hfile] at hc
  cases hc
  refine ⟨?_, by simp⟩
  rw [hhash, (List.cons.inj hp).1]
  rfl

/-- Every effect other than a creation keeps the store intact. -/
theorem Intact.effect {repo : Str} {k : Kind} {w w' : World S} (h : Effect S repo k w w')
    (hk : k ≠ .create) (hw : Intact w) : Intact w' := by
  have hsingle : ∀ (p : Path), ¬ IsDataName p → ∀ r s, dataPath S.root r s ∉ ({p} : Set Path) := by
    intro p hp r s hmem
    exact hp (Set.mem_singleton_iff.mp hmem ▸ isDataName_dataPath S.root r s)
  cases h with
  | ambient h =>
    have hstored : w.log.stored ⊆ w'.log.stored := by
      rw [h.stored]
      exact List.Subset.refl _
    exact hw.of_blobs h.fs h.sessions hstored (fun _ _ => Set.notMem_empty _) fun _ _ _ h => h.elim
  | publish d b hhash hfs hfile =>
    refine hw.of_blobs hfs rfl (List.subset_append_left _ _)
      (hsingle _ (not_isDataName_of_isBlobName (isBlobName_blobPath _ _ _))) ?_
    intro n q c hmem _ hc
    exact hex_of_mem_blobPath hhash hfile hmem hc _
  | fill d m hpath hfile =>
    exact hw.of_blobs (.refl ∅ w.fs) rfl (List.Subset.refl _) (fun _ _ => Set.notMem_empty _) fun _ _ _ h => h.elim
  | retract d hfs hgone =>
    refine hw.of_blobs hfs rfl (List.Subset.refl _)
      (hsingle _ (not_isDataName_of_isBlobName (isBlobName_blobPath _ _ _))) ?_
    intro n q c hmem _ hc
    rw [Set.mem_singleton_iff.mp hmem, Fs.read_eq_some, hgone] at hc
    cases hc
  | create => exact absurd rfl hk
  | spoil => exact absurd rfl hk
  | append chunk now hst hread hfs hfile =>
    have htrack := hw.sessions _ _ hst
    refine hw.of_session hst hfs (fun _ _ hmem => hmem) (List.Subset.refl _)
      (fun n q b hmem hn => ?_)
      (fun key' st' hne hst' => ?_) fun st' hst' => ?_
    · rw [htrack.1] at hmem
      exact absurd hn (not_isHex64_dataPath hmem)
    · rwa [AList.lookup_insert_ne hne] at hst'
    · rw [AList.lookup_insert] at hst'
      cases hst'
      obtain ⟨hpath, c', hc', hfed⟩ := htrack
      rw [hread] at hc'
      cases hc'
      exact ⟨rfl, hpath, _, hfile, hfed.update chunk⟩
  | commit d hst hhash hread hfs hfile =>
    have htrack := hw.sessions _ _ hst
    obtain ⟨hpath, c, hc, hfed⟩ := htrack
    rw [hread] at hc
    cases hc
    refine hw.of_session hst hfs (fun r s hmem => ?_) (List.subset_append_left _ _)
      (fun n q c hmem hn hc => ?_)
      (fun key' st' hne hst' => ?_) fun st' hst' => ?_
    · exact hmem.resolve_right (blobPath_ne_dataPath _ _ _ _ _)
    · rcases hmem with hmem | hmem
      · exact absurd hn (not_isHex64_dataPath (hmem.trans hpath))
      · exact hex_of_mem_blobPath (hfed.finalize.symm.trans hhash) hfile hmem hc _
    · rwa [AList.lookup_erase_ne hne] at hst'
    · rw [AList.lookup_erase] at hst'
      cases hst'
  | abandon hst hfs =>
    have htrack := hw.sessions _ _ hst
    refine hw.of_session hst hfs (fun _ _ hmem => hmem) (List.Subset.refl _)
      (fun n q b hmem hn => ?_)
      (fun key' st' hne hst' => ?_) fun st' hst' => ?_
    · rw [htrack.1] at hmem
      exact absurd hn (not_isHex64_dataPath hmem)
    · rwa [AList.lookup_erase_ne hne] at hst'
    · rw [AList.lookup_erase] at hst'
      cases hst'
  | setTag tag d pushedAt failed hfs =>
    refine hw.of_blobs hfs rfl (List.Subset.refl _) (hsingle _ fun hd => not_isTagsName_of_isDataName hd ⟨_, rfl⟩) ?_
    intro n q b hmem hn
    exact absurd ⟨q, (List.cons.inj hmem).1 ▸ rfl⟩ (not_isTagsName_of_isBlobName ⟨n, q, rfl, hn⟩)
  | removeTag tag failed hfs =>
    refine hw.of_blobs hfs rfl (List.Subset.refl _) (hsingle _ fun hd => not_isTagsName_of_isDataName hd ⟨_, rfl⟩) ?_
    intro n q b hmem hn
    exact absurd ⟨q, (List.cons.inj hmem).1 ▸ rfl⟩ (not_isTagsName_of_isBlobName ⟨n, q, rfl, hn⟩)

/-! ## Creations -/

/-- No live session under another key has the data path that a session of `repo` would get. -/
def FreshDraw (w : World S) (repo : Str) : Prop :=
  ∀ key st, w.sessions.lookup key = some st → st.dataPath = dataPath S.root repo w.drawn →
    key = (repo, w.drawn)

instance (w : World S) (repo : Str) : Decidable (FreshDraw w repo) :=
  decidable_of_iff (∀ e ∈ w.sessions.entries, e.2.dataPath = dataPath S.root repo w.drawn →
      e.1 = (repo, w.drawn)) <| by
    constructor
    · intro h key st hst hp
      exact h ⟨key, st⟩ (AList.mem_lookup_iff.mp hst) hp
    · intro h e he hp
      exact h e.1 e.2 (AList.mem_lookup_iff.mpr he) hp

/-- The store is intact unless a file-system step has failed. -/
def IntactUnlessFailed (w : World S) : Prop := w.log.ioFailed = true ∨ Intact w

theorem IntactUnlessFailed.along {repo : Str} {K : Set Kind} (hK : Kind.create ∉ K) {w w' : World S}
    (h : (Along S repo K).rel w w') (hw : IntactUnlessFailed w) : IntactUnlessFailed w' := by
  refine Evolution.star_keep (I := IntactUnlessFailed) ?_ h hw
  rintro s t ⟨k, hk, heff⟩ (hs | hs)
  · exact Or.inl (heff.failed hs)
  · refine Or.inr (Intact.effect heff ?_ hs)
    rintro rfl
    exact hK hk

theorem Intact.ambient {w w' : World S} (hw : Intact w) (h : Ambient w w') : Intact w' := by
  have heff : Effect S [] .ambient w w' := .ambient h
  exact Intact.effect heff (by decide) hw

/-- A freshly drawn session starts with an empty file of its own. -/
theorem Intact.create {w : World S} (hw : Intact w) {repo session : Str} {info : UploadMeta} {fs' : Fs}
    (hfresh : ∀ key st, w.sessions.lookup key = some st → st.dataPath = dataPath S.root repo session →
      key = (repo, session))
    (hfs : Spares {dataPath S.root repo session} w.fs fs')
    (hfile : fs'.read (dataPath S.root repo session) = some []) :
    Intact { w with
      fs := fs'
      sessions := w.sessions.insert (repo, session)
        ⟨info, S.hash.new, dataPath S.root repo session, false⟩ } := by
  have hlook : ∀ key st, AList.lookup key (w.sessions.insert (repo, session)
      ⟨info, S.hash.new, dataPath S.root repo session, false⟩) = some st →
      (key = (repo, session) ∧ st = ⟨info, S.hash.new, dataPath S.root repo session, false⟩) ∨
      (key ≠ (repo, session) ∧ w.sessions.lookup key = some st ∧
        st.dataPath ≠ dataPath S.root repo session) := by
    intro key st hst
    by_cases hk : key = (repo, session)
    · subst hk
      rw [AList.lookup_insert] at hst
      exact Or.inl ⟨rfl, (Option.some.inj hst).symm⟩
    · rw [AList.lookup_insert_ne hk] at hst
      exact Or.inr ⟨hk, hst, fun hp => hk (hfresh key st hst hp)⟩
  refine ⟨hw.blobs.spares hfs (List.Subset.refl _) fun n q b hmem hn => ?_, fun key st hst => ?_, ?_⟩
  · exact absurd hn (not_isHex64_dataPath hmem)
  · rcases hlook key st hst with ⟨rfl, rfl⟩ | ⟨-, hold, hne⟩
    · exact ⟨rfl, [], hfile, S.hash.fed_new⟩
    · exact (hw.sessions key st hold).spares hfs hne
  · intro key key' st st' hst hst' hpath
    rcases hlook key st hst with ⟨rfl, rfl⟩ | ⟨-, hold, hne⟩ <;>
      rcases hlook key' st' hst' with ⟨rfl, rfl⟩ | ⟨-, hold', hne'⟩
    · rfl
    · exact absurd hpath.symm hne'
    · exact absurd hpath hne
    · exact hw.apart key key' st st' hold hold' hpath

theorem IntactUnlessFailed.createSession {w : World S} {repo : Str} (hfresh : FreshDraw w repo)
    (hw : IntactUnlessFailed w) : IntactUnlessFailed ((Uploads.createSession repo).exec w).2 := by
  obtain ⟨r, w₁, w₂, hamb, he, h⟩ := exec_createSession w repo
  rw [he]
  rcases hw with hw | hw
  · refine Or.inl ?_
    rcases h with rfl | ⟨info, fs', -, -, rfl⟩ | ⟨fs', -, rfl⟩
    · exact hamb.failed hw
    · exact hamb.failed hw
    · rfl
  · rcases h with rfl | ⟨info, fs', hfs, hfile, rfl⟩ | ⟨fs', -, rfl⟩
    · exact Or.inr (hw.ambient hamb)
    · refine Or.inr ((hw.ambient hamb).create (fun key st hst => ?_) hfs hfile)
      rw [hamb.sessions] at hst
      exact hfresh key st hst
    · exact Or.inl rfl

/-! ## Runs -/

/-- An operation of the registry. -/
inductive Op where
  | request (req : Request)
  | createSession (repo : Str)
  | append (repo session : Str) (chunk : Bytes)
  | finalize (repo session : Str) (lastChunk : Option Bytes) (expected : Digest)
  | abort (repo session : Str)
  | putBlobBuffered (repo : Str) (expected : Digest) (bytes : Bytes)
  | collect (extraRoots : List Digest) (dryRun : Bool)

namespace Op

/-- The world that an operation leaves. -/
def run (w : World S) : Op → World S
  | request req => ((dispatch req).exec w).2
  | createSession repo => ((Uploads.createSession repo).exec w).2
  | append repo session chunk => ((Uploads.append repo session chunk).exec w).2
  | finalize repo session lastChunk expected =>
    ((Uploads.finalize repo session lastChunk expected).exec w).2
  | abort repo session => ((Uploads.abort repo session).exec w).2
  | putBlobBuffered repo expected bytes =>
    ((LocalStorage.putBlobBuffered repo expected bytes).exec w).2
  | collect extraRoots dryRun => { w with fs := (Gc.run S w.fs .none extraRoots dryRun).2 }

/-- The repository for which the operation creates a session. -/
def draws : Op → Option Str
  | request req =>
    if req.method = .post ∧ (split req.rest).2 = .uploadInit ∧ (split req.rest).1 ≠ [] then
      some (split req.rest).1
    else none
  | createSession repo => some repo
  | _ => none

end Op

/-- The world after a list of storage operations. -/
def runOps (w : World S) (ops : List Op) : World S := ops.foldl Op.run w

/-- Every creation of a session in the run gets a data path of its own. -/
def DrawsFresh (w : World S) : List Op → Prop
  | [] => True
  | op :: ops => (∀ repo ∈ op.draws, FreshDraw w repo) ∧ DrawsFresh (op.run w) ops

instance decidableDrawsFresh (w : World S) : (ops : List Op) → Decidable (DrawsFresh w ops)
  | [] => isTrue trivial
  | op :: ops =>
    letI := decidableDrawsFresh (op.run w) ops
    inferInstanceAs (Decidable ((∀ repo ∈ op.draws, FreshDraw w repo) ∧ DrawsFresh (op.run w) ops))

/-- The kinds of effects of operations that create no session. -/
def keepingKinds : Set Kind := { k | k ≠ .create }

theorem IntactUnlessFailed.moves {repo : Str} {ε α : Type} {m : Prog (World S) ε α}
    (hm : Moves (Along S repo keepingKinds) m) {w : World S} (hw : IntactUnlessFailed w) :
    IntactUnlessFailed (m.exec w).2 :=
  hw.along (show Kind.create ∉ keepingKinds from fun h => h rfl) (hm w)

theorem wall_ensureRepo (repo : Str) (w : World S) :
    ((ensureRepo repo).exec w).2.wall = w.wall := by
  unfold ensureRepo onFs
  simp only [Prog.exec_mapError, Prog.exec_ofFun]
  split <;> rfl

theorem IntactUnlessFailed.uploadInit {w : World S} {repo : Str} (hfresh : FreshDraw w repo)
    (hw : IntactUnlessFailed w) :
    IntactUnlessFailed ((Registry.uploadInit repo : Handler S).exec w).2 := by
  have hensure : Ambient w ((ensureRepo repo).exec w).2 := ensureRepo_ambient repo w
  have hwall := wall_ensureRepo repo w
  have hw₁ : IntactUnlessFailed ((ensureRepo repo).exec w).2 :=
    hw.elim (fun h => Or.inl (hensure.failed h)) fun h => Or.inr (h.ambient hensure)
  have hdraw : FreshDraw ((ensureRepo repo).exec w).2 repo := by
    unfold FreshDraw World.drawn
    rw [hensure.sessions, hwall]
    exact hfresh
  have hcreate := hw₁.createSession hdraw
  unfold Registry.uploadInit
  rw [Prog.exec_bind_ok (Prog.exec_attempt _ w)]
  cases hr : ((ensureRepo repo).exec w).1 with
  | error e => exact hw₁
  | ok u =>
    simp only
    rw [Prog.exec_bind_ok (Prog.exec_attempt _ _)]
    cases ((Uploads.createSession repo).exec ((ensureRepo repo).exec w).2).1 with
    | error e => exact hcreate
    | ok session =>
      have hbuild : Moves (Along S repo keepingKinds) (build .accepted
          [(.location, uploadLocation repo session), (.range, "0-0".toList),
            (.dockerUploadUuid, session)] .empty : Handler S) := build_along _ _ _
      exact IntactUnlessFailed.moves hbuild hcreate

theorem pullKinds_keeping : pullKinds ⊆ keepingKinds := by
  rintro k (rfl | rfl | rfl) <;> intro h <;> cases h

theorem command_keeping (c : Command) : c.kinds ⊆ keepingKinds := by
  intro k hk
  cases c with
  | push repo tag =>
    cases hk
    exact fun h => by cases h
  | untag repo tag =>
    cases hk
    exact fun h => by cases h
  | deleteManifest repo d =>
    rcases hk with rfl | rfl <;> exact fun h => by cases h
  | deleteBlob repo d =>
    cases hk
    exact fun h => by cases h
  | other => cases hk

/-- A request keeps the store intact when a session it creates has a data path of its own. -/
theorem IntactUnlessFailed.request {w : World S} (req : Request)
    (hfresh : ∀ repo ∈ (Op.request req).draws, FreshDraw w repo)
    (hw : IntactUnlessFailed w) : IntactUnlessFailed ((dispatch req : Handler S).exec w).2 := by
  have hkind : ∀ {k : Kind}, k ≠ .create → k ∈ keepingKinds := fun h => h
  by_cases hcat : req.rest = "_catalog".toList
  · have hrun : (dispatch req : Handler S) = catalog := if_pos hcat
    have hcatalog : Moves (Along S [] keepingKinds) (catalog : Handler S) := catalog_along
    rw [hrun]
    exact .moves hcatalog hw
  · by_cases hrepo : (split req.rest).1 = []
    · have hrun : (dispatch req : Handler S) = pure (nameUnknown req.rest) :=
        (if_neg hcat).trans (if_pos hrepo)
      rw [hrun]
      exact hw
    · have hrun : (dispatch req : Handler S) = route req (split req.rest).1 (split req.rest).2 :=
        (if_neg hcat).trans (if_neg hrepo)
      by_cases hdraw : req.method = .post ∧ (split req.rest).2 = .uploadInit
      · have hf := hfresh (split req.rest).1 (if_pos ⟨hdraw.1, hdraw.2, hrepo⟩)
        rw [hrun, hdraw.2]
        simp only [route, hdraw.1]
        exact hw.uploadInit hf
      · rw [hrun]
        exact .moves (route_along pullKinds_keeping (hkind (by decide)) req _
          (fun haction hmethod => absurd ⟨hmethod, haction⟩ hdraw) (command_keeping _)) hw

theorem Intact.collect {w : World S} (hw : Intact w) (extra : List Digest) (dryRun : Bool) :
    Intact { w with fs := (Gc.run S w.fs .none extra dryRun).2 } := by
  have hread : ∀ p b, (Gc.run S w.fs .none extra dryRun).2.read p = some b → w.fs.read p = some b := by
    intro p b hb
    rcases Gc.run_node_cases S w.fs .none extra dryRun p with h | ⟨h, -⟩
    · rwa [Fs.read_congr h] at hb
    · rw [Fs.read_eq_some, h] at hb
      cases hb
  refine ⟨fun n q b hn hb => hw.blobs n q b hn (hread _ b hb), fun key st hst => ?_, hw.apart⟩
  obtain ⟨hpath, c, hc, hfed⟩ := hw.sessions key st hst
  refine ⟨hpath, c, ?_, hfed⟩
  rcases Gc.run_node_cases S w.fs .none extra dryRun st.dataPath with h | ⟨-, -, n, q, hp, hname⟩
  · exact (Fs.read_congr h).trans hc
  · -- the name of a data file has a dot
    obtain ⟨d, hd⟩ := Option.isSome_iff_exists.mp hname
    obtain ⟨m, r, he, hs⟩ := isDataName_dataPath S.root key.1 key.2
    rw [← hpath, hp] at he
    cases he
    have hdot : isAsciiHexdigit '.' = true :=
      Gc.isAsciiHexdigit_of_digestOfName hd (hs.subset (by decide))
    exact absurd hdot (by decide)

/-- One operation. -/
theorem IntactUnlessFailed.run {w : World S} (op : Op)
    (hfresh : ∀ repo ∈ op.draws, FreshDraw w repo) (hw : IntactUnlessFailed w) :
    IntactUnlessFailed (op.run w) := by
  have hkind : ∀ {k : Kind}, k ≠ .create → k ∈ keepingKinds := fun h => h
  cases op with
  | request req => exact hw.request req hfresh
  | createSession repo => exact hw.createSession (hfresh repo rfl)
  | append repo session chunk =>
    exact .moves (append_along (hkind (by decide)) (hkind (by decide)) session chunk) hw
  | finalize repo session lastChunk expected =>
    exact .moves (finalize_along (hkind (by decide)) (hkind (by decide)) session lastChunk expected) hw
  | abort repo session =>
    exact .moves (abort_along (hkind (by decide)) (hkind (by decide)) session) hw
  | putBlobBuffered repo expected bytes =>
    exact .moves (putBlobBuffered_along (hkind (by decide)) (hkind (by decide)) (hkind (by decide))
      expected bytes) hw
  | collect extra dryRun => exact hw.imp id fun h => h.collect extra dryRun

theorem IntactUnlessFailed.runOps (ops : List Op) {w : World S} (hfresh : DrawsFresh w ops)
    (hw : IntactUnlessFailed w) : IntactUnlessFailed (Registry.runOps w ops) := by
  induction ops generalizing w with
  | nil => exact hw
  | cons op ops ih => exact ih hfresh.2 (hw.run op hfresh.1)

theorem intact_start (S : Setup) (ticks wall : List Nat) : Intact (World.start S ticks wall) := by
  refine ⟨fun n q b _ hb => ?_, fun key st hst => ?_, fun key key' st st' hst => ?_⟩
  · have hnone : (World.start S ticks wall).fs.read (n :: q) = none := read_emptyRoot _ _
    rw [hnone] at hb
    cases hb
  · cases hst
  · cases hst

/-- In every run without a file-system failure whose sessions all get data paths of their own,
a file at the path of a blob has contents of the digest. -/
theorem blob_contents (S : Setup) (ticks wall : List Nat) (ops : List Op)
    (hfresh : DrawsFresh (World.start S ticks wall) ops)
    (hfailed : (runOps (World.start S ticks wall) ops).log.ioFailed = false) (repo : Str) (d : Digest)
    (b : Bytes) (hb : (runOps (World.start S ticks wall) ops).fs.read (blobPath S.root repo d) = some b) :
    S.hash.hex b = d.hex := by
  have hrun := IntactUnlessFailed.runOps ops hfresh (Or.inr (intact_start S ticks wall))
  rcases hrun with hrun | hrun
  · rw [hfailed] at hrun
    cases hrun
  · exact Subtype.ext (hrun.blobs _ _ b d.hex.property hb).1

/-! Two names of one directory, while the readings of the wall clock repeat: every session gets the
same id. The second creation empties the data file of the first session. -/

def stuckId : Str := newSessionId 0 1

def stuckSetup : Setup where
  hash := Sha256.streaming
  serde := Codec.serde [] [⟨stuckId, "a/b".toList, 0, 0, 0⟩,
    ⟨newSessionId 1 1, "a/b".toList, 0, 2, 2⟩]
  root := Codec.dataRoot
  metaTtl := 30
  tagTtl := 300
  upstreams := []
  pid := 1

def pushed : Bytes := Codec.utf8 "layer".toList

/-- A push to `a/b` during which a session of `a//b` is created. -/
def overlappingPush (session : Str) : List Op := [
  .createSession "a/b".toList,
  .append "a/b".toList session pushed,
  .createSession "a//b".toList,
  .finalize "a/b".toList session none (stuckSetup.digest pushed)]

/-- A run without a failure after which a blob is empty that is not the empty blob. -/
theorem shared_data_path_breaks_blob :
    ¬ ∀ (S : Setup) (ticks wall : List Nat) (ops : List Op),
      (runOps (World.start S ticks wall) ops).log.ioFailed = false →
      ∀ repo d b, (runOps (World.start S ticks wall) ops).fs.read (blobPath S.root repo d) = some b →
        S.hash.hex b = d.hex := by
  intro h
  obtain ⟨hok, hblob⟩ :
      (runOps (World.start stuckSetup [] []) (overlappingPush stuckId)).log.ioFailed = false ∧
      (runOps (World.start stuckSetup [] []) (overlappingPush stuckId)).fs.read
        (blobPath stuckSetup.root "a/b".toList (stuckSetup.digest pushed)) = some [] := by
    decide +kernel
  have hhex := h stuckSetup [] [] (overlappingPush stuckId) hok "a/b".toList
    (stuckSetup.digest pushed) [] hblob
  revert hhex
  decide +kernel

/-- With a clock that runs, the two sessions have files of their own. -/
theorem running_clock_keeps_blob :
    stuckSetup.hash.hex pushed = (stuckSetup.digest pushed).hex := by
  have hfresh : DrawsFresh (World.start stuckSetup [] [1, 2, 3, 4, 5, 6])
      (overlappingPush (newSessionId 1 1)) := by decide +kernel
  exact blob_contents stuckSetup [] [1, 2, 3, 4, 5, 6] _ hfresh (by decide +kernel) "a/b".toList _
    pushed (by decide +kernel)

end Quill.Registry
