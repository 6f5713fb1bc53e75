import Quill.Registry.Refinement
import Quill.Registry.Separation
import Quill.Server.Staleness

/-!
# Stopping and starting the server

While no server runs, `quill gc` and `quill cache-rm` can work on the root (`Ran`). `startUp` is what
`serve` then does with the files: it makes the root, loads the sidecars and sweeps old files out of
the directories of uploads. Sessions and the metadata cache begin empty.

`Resting` collects what holds of the files and of the tags in their sidecars while no server runs. A
server that stops leaves it (`Resting.of_ready`), both commands keep it, and it is all that a start needs
to reach the invariants of a running server again (`Resting.startUp`). The commands never write, so
for each of them it is enough to say which paths are gone.
-/

namespace Quill.Server

open Text Files Cas World LocalStorage LocalTags Uploads Registry

variable {S : Setup}

/-! ## Removing keys of a map -/

section Maps

variable {α : Type} {β : α → Type} [DecidableEq α]

/-- The map without the keys that `P` picks. -/
def without (P : α → Bool) (m : AList β) : AList β := (m.keys.filter P).foldl (fun m k => m.erase k) m

theorem lookup_foldl_erase (ks : List α) (m : AList β) (k : α) :
    (ks.foldl (fun m k => m.erase k) m).lookup k = if k ∈ ks then none else m.lookup k := by
  induction ks generalizing m with
  | nil => simp
  | cons a ks ih =>
    rw [List.foldl_cons, ih]
    by_cases ha : k = a
    · subst ha
      simp
    · simp [ha, AList.lookup_erase_ne ha]

theorem lookup_without (P : α → Bool) (m : AList β) (k : α) :
    (without P m).lookup k = if P k then none else m.lookup k := by
  rw [without, lookup_foldl_erase]
  cases hP : P k with
  | false => simp [hP]
  | true =>
    by_cases hk : k ∈ m.keys
    · simp [hP, hk]
    · have hnone : m.lookup k = none := AList.lookup_eq_none.mpr fun h => hk (AList.mem_keys.mp h)
      simp [hk, hnone]

end Maps

/-! ## Commands -/

/-- `fs::remove_dir_all`. -/
def removeDirAll (p : Path) : Prog Fs IoKind Unit :=
  Fs.io fun fs =>
    match fs.node p with
    | some .dir => .ok ((), ⟨without (fun q => p.isSuffixOf q) fs.nodes⟩)
    | some (.file _) => .error .other
    | none => .error (if fs.blocked p then .other else .notFound)

/-- `cmd_cache_rm`. -/
def cmdCacheRm (root : Path) (repo : Str) : Prog Fs IoKind Unit := do
  let fs ← get
  let dir := repoDir root repo
  if fs.exists? dir then removeDirAll dir
  else throw .notFound

/-- A command that was run while no server did, and for `cache-rm` whether it succeeded. -/
inductive Offline where
  | gc (dryRun : Bool)
  | cacheRm (repo : Str) (done : Bool)

/-- The files after a command. -/
inductive Ran (S : Setup) (fs : Fs) : Offline → Fs → Prop
  | gc (dryRun : Bool) : Ran S fs (.gc dryRun) (Gc.run S fs .none [] dryRun).2
  | cacheRm (repo : Str) : Ran S fs (.cacheRm repo ((cmdCacheRm S.root repo).exec fs).1.isOk)
      ((cmdCacheRm S.root repo).exec fs).2

/-! ## Start-up -/

/-- The subdirectories that the sweep enters. -/
def sweepSubdirs (fs : Fs) (p : Path) : List Name :=
  (Gc.entries fs p).filter fun n =>
    fs.isDir (n :: p) ∧ n ≠ blobsName ∧ n ≠ uploadsName ∧ n ≠ quillName

/-- The ages of files are counted in nanoseconds; a day. -/
def maxAge : Nat := 86400 * 1000000000

/-- The sweep of one directory that was entered: of its `_uploads`, if it has one. -/
def sweepDir (age : Path → Nat) (fs : Fs) (dir : Path) : Fs :=
  if uploadsName ∈ Gc.entries fs dir ∧ fs.isDir (uploadsName :: dir) then
    ((sweepUploadsDir (fun n => age (n :: uploadsName :: dir)) maxAge (uploadsName :: dir)).exec fs).2
  else fs

/-- `UploadStore::sweep`. It removes nothing where it walks, so the directories are those of the
start. -/
def sweep (root : Path) (age : Path → Nat) (fs : Fs) : Fs :=
  if fs.exists? root then (walk (sweepSubdirs fs) (Gc.fuel fs) [root]).foldl (sweepDir age) fs else fs

/-- What a start finds besides the files: how old they are, how `serde_json` reads a sidecar of
upstream tags, and the clocks. -/
structure Boot where
  age : Path → Nat
  fromStr : Bytes → Option (AList fun _ : Str => Str)
  now : Nat
  ticks : List Nat
  wall : List Nat

/-- A start that finds no old file and no sidecar of upstream tags. -/
def coldBoot : Boot := ⟨fun _ => 0, fun _ => none, 0, [], []⟩

/-- The start of `serve`, up to the server. -/
def startUp (B : Boot) (w : World S) : World S :=
  let fs := ((Fs.createDirAll S.root).exec w.fs).2
  let swept := sweep S.root B.age fs
  { fs := swept
    metaCache := ∅
    localTags := loadExistingLocalTags S fs
    sessions := ∅
    upstreamTags := loadExistingUpstreamTags S B.fromStr swept B.now
    now := B.now
    ticks := B.ticks
    wall := B.wall
    log := w.log }

/-! ## What the sweep removes -/

/-- A file of a directory of uploads below the root. -/
def Swept (root p : Path) : Prop := ∃ n q, root <:+ q ∧ p = n :: uploadsName :: q

theorem sweep_cases (root : Path) (age : Path → Nat) (fs : Fs) (p : Path) :
    (sweep root age fs).node p = fs.node p ∨ ((sweep root age fs).node p = none ∧ Swept root p) := by
  unfold sweep
  split
  · refine List.foldlRecOn (motive := fun (fs' : Fs) => fs'.node p = fs.node p ∨
      (fs'.node p = none ∧ Swept root p)) _ _ (Or.inl rfl) fun fs' hfs' dir hdir => ?_
    have hroot : root <:+ dir :=
      suffix_of_mem_walk (fun q hq => List.mem_singleton.mp hq ▸ List.suffix_rfl) hdir
    unfold sweepDir
    split
    · rcases sweepUploadsDir_thins _ maxAge (uploadsName :: dir) fs' p with hsame | ⟨hnone, n, hp⟩
      · rwa [hsame]
      · exact Or.inr ⟨hnone, n, dir, hroot, hp⟩
    · exact hfs'
  · exact Or.inl rfl

/-- A path that is swept has `_uploads` among its components below the root, but not as the last. -/
theorem Swept.mem {root segs : Path} (h : Swept root (segs ++ root)) : uploadsName ∈ segs.tail := by
  obtain ⟨n, q, ⟨above, rfl⟩, hp⟩ := h
  have hsegs : segs = n :: uploadsName :: above :=
    List.append_cancel_right (by simpa using hp)
  rw [hsegs]
  exact List.mem_cons_self

theorem not_swept_blobPath {r : Str} (d : Digest) : ¬ Swept S.root (blobPath S.root r d) := by
  rintro ⟨n, q, -, hp⟩
  have hname : sha256Name = uploadsName := (List.cons.inj (List.cons.inj hp).2).1
  exact absurd hname (by decide)

theorem Findable.segs {r : Str} (hr : Findable r) : ∃ segs, segs ≠ [] ∧ r = relative segs ∧
    repoDir S.root r = segs ++ S.root ∧ ∀ n ∈ segs, n ≠ blobsName ∧ n ≠ uploadsName := by
  obtain ⟨segs, hne, rfl⟩ := hr.1.exists_relative
  exact ⟨segs, hne, rfl, repoDir_relative _ _, (findable_relative hne).mp hr⟩

/-- The sweep leaves what a repository needs for its tags. -/
theorem not_swept_of_findable {r : Str} (hr : Findable r) {p : Path}
    (hp : p = localTagsPath S.root r ∨ p <:+ blobsDir S.root r) : ¬ Swept S.root p := by
  obtain ⟨segs, -, -, hdir, hnames⟩ := hr.segs (S := S)
  intro hswept
  have hno : ∀ l : Path, (∀ n ∈ l, n ≠ uploadsName) → ¬ Swept S.root (l ++ S.root) := fun l hl h =>
    hl _ (List.mem_of_mem_tail h.mem) rfl
  rcases hp with rfl | hp
  · refine hno (localTagsName :: segs) ?_ (by rwa [localTagsPath, hdir] at hswept)
    rintro n (_ | ⟨_, hn⟩)
    · decide
    · exact (hnames n hn).2
  · obtain ⟨n, q, ⟨above, rfl⟩, rfl⟩ := hswept
    rw [blobsDir, hdir] at hp
    have hsuffix : (n :: uploadsName :: above) ++ S.root <:+ (sha256Name :: blobsName :: segs) ++ S.root := by
      simpa using hp
    rw [List.suffix_append_self_iff] at hsuffix
    have hmem : uploadsName ∈ sha256Name :: blobsName :: segs := hsuffix.subset (by simp)
    rcases List.mem_cons.mp hmem with h | hmem
    · exact absurd h (by decide)
    · rcases List.mem_cons.mp hmem with h | hmem
      · exact absurd h (by decide)
      · exact (hnames _ hmem).2 rfl

/-! ## What `cache-rm` removes -/

/-- The repository is the one named or lies below it. -/
def Below (repo r : Str) : Prop := repo.splitOn '/' <+: r.splitOn '/'

instance (repo r : Str) : Decidable (Below repo r) := inferInstanceAs (Decidable (_ <+: _))

theorem map_segs {s : Str} (h : Plain s) : h.segs.reverse.map Subtype.val = s.splitOn '/' := by
  have hrelative := splitOn_relative h.segs_ne_nil
  rwa [h.relative_segs, eq_comm] at hrelative

theorem below_iff {repo r : Str} (hrepo : Plain repo) (hr : Plain r) :
    Below repo r ↔ repoDir S.root repo <:+ repoDir S.root r := by
  rw [Below, ← map_segs hrepo, ← map_segs hr, List.prefix_map_iff_of_injective Subtype.val_injective,
    List.reverse_prefix, repoDir, repoDir, hrepo.join_eq, hr.join_eq, List.suffix_append_self_iff]

/-- The command removes a directory with everything in it, or nothing. -/
theorem cacheRm_cases (root : Path) (repo : Str) (fs : Fs) :
    (((cmdCacheRm root repo).exec fs).1.isOk = true ∧ fs.node (repoDir root repo) = some .dir ∧ ∀ p,
      ((cmdCacheRm root repo).exec fs).2.node p = if repoDir root repo <:+ p then none else fs.node p) ∨
    (((cmdCacheRm root repo).exec fs).1.isOk = false ∧ ((cmdCacheRm root repo).exec fs).2 = fs) := by
  have hget : (cmdCacheRm root repo).exec fs = (if fs.exists? (repoDir root repo) then
      removeDirAll (repoDir root repo) else throw .notFound : Prog Fs IoKind Unit).exec fs :=
    Prog.exec_bind_ok (Prog.exec_get fs)
  rw [hget]
  split
  · unfold removeDirAll
    rw [Fs.exec_io]
    split
    · rename_i hrun
      split at hrun
      · rename_i hdir
        cases hrun
        refine Or.inl ⟨rfl, hdir, fun p => ?_⟩
        have hlookup := lookup_without (fun q => (repoDir root repo).isSuffixOf q) fs.nodes p
        simp only [List.isSuffixOf_iff_suffix] at hlookup
        exact hlookup
      · cases hrun
      · cases hrun
    · exact Or.inr ⟨rfl, rfl⟩
  · exact Or.inr ⟨rfl, rfl⟩

theorem below_of_blobsDir {repo r : Str} (hrepo : Findable repo) (hr : Plain r)
    (h : repoDir S.root repo <:+ blobsDir S.root r) : Below repo r := by
  obtain ⟨segs, -, -, hdir, hnames⟩ := hrepo.segs (S := S)
  have hno : ∀ {p : Path}, blobsName ∈ p → repoDir S.root repo ≠ p ++ S.root := by
    intro p hp he
    rw [hdir] at he
    exact (hnames _ (List.append_cancel_right he ▸ hp)).1 rfl
  have hrdir : repoDir S.root r = hr.segs ++ S.root := hr.join_eq _
  rw [below_iff (S := S) hrepo.1 hr]
  rw [blobsDir] at h
  rcases List.suffix_cons_iff.mp h with he | h
  · exact absurd (he.trans (by rw [hrdir]; rfl)) (hno (p := sha256Name :: blobsName :: hr.segs) (by simp))
  · rcases List.suffix_cons_iff.mp h with he | h
    · exact absurd (he.trans (by rw [hrdir]; rfl)) (hno (p := blobsName :: hr.segs) (by simp))
    · exact h

/-- The blobs that are removed with a repository are those of the repositories below it. -/
theorem removed_blob_iff {repo r : Str} (hrepo : Findable repo) (hr : Plain r) (d : Digest) :
    repoDir S.root repo <:+ blobPath S.root r d ↔ Below repo r := by
  constructor
  · intro h
    rcases List.suffix_cons_iff.mp h with he | h
    · obtain ⟨segs, -, -, hdir, hnames⟩ := hrepo.segs (S := S)
      have hrdir : repoDir S.root r = hr.segs ++ S.root := hr.join_eq _
      rw [hdir, blobsDir, hrdir] at he
      have hsegs : segs = hexName d :: sha256Name :: blobsName :: hr.segs :=
        List.append_cancel_right he
      exact absurd rfl (hnames blobsName (by simp [hsegs])).1
    · exact below_of_blobsDir hrepo hr h
  · intro h
    exact ((below_iff hrepo.1 hr).mp h).trans ⟨[hexName d, sha256Name, blobsName], rfl⟩

/-! ## While no server runs -/

/-- The invariant of the store between two processes. -/
structure Resting (w : World S) : Prop where
  blobs : BlobsIntact S w.log.stored w.fs
  synced : Synced Findable w
  typed : TagsTyped w
  rooted : w.fs.isDir S.root = true

theorem Resting.of_ready {w : World S} (hw : Ready w) (hsync : Synced Findable w) : Resting w :=
  ⟨hw.sound.intact.blobs, hsync, hw.typed, hw.rooted⟩

/-- Where files only go away, what is read was there. -/
theorem read_of_pruned {fs fs' : Fs} (hfs : ∀ p, fs'.node p = fs.node p ∨ fs'.node p = none)
    {p : Path} {b : Bytes} (h : fs'.read p = some b) : fs.read p = some b := by
  rcases hfs p with hsame | hnone
  · rwa [Fs.read_congr hsame] at h
  · rw [Fs.read_eq_some, hnone] at h
    cases h

/-- Files may go away while the tags that stay keep their sidecars and no sidecar stays that has
lost a tag. -/
theorem synced_of_pruned {P : Str → Prop} {w w' : World S} (h : Synced P w)
    (hfs : ∀ p, w'.fs.node p = w.fs.node p ∨ w'.fs.node p = none)
    (hstay : ∀ r t m, w'.localTags.lookup (r, t) = some m → w.localTags.lookup (r, t) = some m ∧
      ∀ p, p = localTagsPath S.root r ∨ p <:+ blobsDir S.root r → w'.fs.node p = w.fs.node p)
    (hkeep : ∀ r, P r → w'.fs.isFile (localTagsPath S.root r) = true →
      ∀ t, w'.localTags.lookup (r, t) = w.localTags.lookup (r, t)) : Synced P w' := by
  refine ⟨fun q body hbody => ?_, fun r t m hm => ?_⟩
  · obtain ⟨r, m, hr, rfl, rfl, hlook⟩ := h.sidecars q body (read_of_pruned hfs hbody)
    have hfile : w'.fs.isFile (localTagsPath S.root r) = true := by
      rw [Fs.isFile, localTagsPath, hbody]
      rfl
    exact ⟨r, m, hr, rfl, rfl, fun t => (hlook t).trans (hkeep r hr hfile t).symm⟩
  · obtain ⟨hm, hnodes⟩ := hstay r t m hm
    obtain ⟨hr, hdirs, hfile⟩ := h.tagged r t m hm
    refine ⟨hr, fun q hq => ?_, ?_⟩
    · rw [Fs.isDir_congr (hnodes q (Or.inr hq))]
      exact hdirs q hq
    · rw [Fs.isFile, Fs.read_congr (hnodes _ (Or.inl rfl))]
      exact hfile

/-! ### A collection -/

/-- A collection leaves sidecars and directories. -/
theorem node_afterGc {w : World S} (dryRun : Bool) {r : Str} {p : Path}
    (hdirs : DirsAbove S w.fs r) (hp : p = localTagsPath S.root r ∨ p <:+ blobsDir S.root r) :
    (afterGc w dryRun).fs.node p = w.fs.node p := by
  rcases Gc.run_node_cases S w.fs .none [] dryRun p with hsame | ⟨-, hfile, n, q, hnq, hname⟩
  · exact hsame
  · rcases hp with rfl | hp
    · cases hnq
      exact absurd hname (by decide)
    · have hdir := hdirs p hp
      rw [hnq, Fs.isDir_cons] at hdir
      rw [hnq, Fs.isFile, Fs.read, hdir] at hfile
      cases hfile

theorem Resting.gc {w : World S} (hw : Resting w) (dryRun : Bool) : Resting (afterGc w dryRun) where
  blobs n q b hn hb := hw.blobs n q b hn (read_of_pruned (fun p =>
    (Gc.run_node_cases S w.fs .none [] dryRun p).imp_right And.left) hb)
  synced := by
    refine synced_of_pruned hw.synced (fun p =>
      (Gc.run_node_cases S w.fs .none [] dryRun p).imp_right And.left) (fun r t m hm => ⟨hm, ?_⟩)
      fun _ _ _ _ => rfl
    obtain ⟨-, hdirs, -⟩ := hw.synced.tagged r t m hm
    exact fun p hp => node_afterGc dryRun hdirs hp
  typed := hw.typed
  rooted := by
    rcases Gc.run_node_cases S w.fs .none [] dryRun S.root with hsame | ⟨-, hfile, n, q, hnq, -⟩
    · exact (Fs.isDir_congr hsame).trans hw.rooted
    · have hdir := hw.rooted
      rw [hnq, Fs.isDir_cons] at hdir
      rw [hnq, Fs.isFile, Fs.read, hdir] at hfile
      cases hfile

/-! ### A removal of repositories -/

/-- What rests when a repository was removed with all below it: their tags go with their sidecars. -/
def removed (repo : Str) (w : World S) (fs : Fs) : World S :=
  { w with fs := fs, localTags := without (fun key => Below repo key.1) w.localTags }

theorem lookup_removed (repo : Str) (w : World S) (fs : Fs) (r t : Str) :
    (removed repo w fs).localTags.lookup (r, t) =
      if Below repo r then none else w.localTags.lookup (r, t) := by
  simp only [removed, lookup_without, decide_eq_true_eq]

theorem Resting.remove {w : World S} (hw : Resting w) {repo : Str} (hrepo : Findable repo) {fs : Fs}
    (hdir : w.fs.node (repoDir S.root repo) = some .dir)
    (hfs : ∀ p, fs.node p = if repoDir S.root repo <:+ p then none else w.fs.node p) :
    Resting (removed repo w fs) := by
  have hpruned : ∀ p, fs.node p = w.fs.node p ∨ fs.node p = none := by
    intro p
    rw [hfs]
    split
    · exact Or.inr rfl
    · exact Or.inl rfl
  refine ⟨fun n q b hn hb => hw.blobs n q b hn (read_of_pruned hpruned hb), ?_, fun key m hm => ?_, ?_⟩
  · refine synced_of_pruned hw.synced hpruned (fun r t m hm => ?_) fun r hr hfile t => ?_
    · rw [lookup_removed] at hm
      split at hm
      · cases hm
      · rename_i hbelow
        obtain ⟨hr, -, hfile⟩ := hw.synced.tagged r t m hm
        refine ⟨hm, fun p hp => (hfs p).trans (if_neg fun hsuffix => hbelow ?_)⟩
        rcases hp with rfl | hp
        · rcases List.suffix_cons_iff.mp hsuffix with he | h
          · -- the directory that was removed cannot be the sidecar
            rw [Fs.isFile, localTagsPath, ← he, Fs.read, hdir] at hfile
            cases hfile
          · exact (below_iff hrepo.1 hr.1).mpr h
        · exact below_of_blobsDir hrepo hr.1 (hsuffix.trans hp)
    · rw [lookup_removed, if_neg]
      intro hbelow
      have hgone : fs.node (localTagsPath S.root r) = none := (hfs _).trans (if_pos
        (((below_iff hrepo.1 hr.1).mp hbelow).trans (List.suffix_cons _ _)))
      have hfile' : (fs.read (localTagsPath S.root r)).isSome = true := hfile
      rw [Fs.read, hgone] at hfile'
      cases hfile'
  · have hm' : (removed repo w fs).localTags.lookup (key.1, key.2) = some m := hm
    rw [lookup_removed] at hm'
    split at hm'
    · cases hm'
    · exact hw.typed key m hm'
  · refine (Fs.isDir_congr ((hfs _).trans (if_neg fun hsuffix => ?_))).trans hw.rooted
    obtain ⟨segs, hne, -, hsegs, -⟩ := hrepo.segs (S := S)
    have hlen := hsuffix.length_le
    rw [hsegs, List.length_append] at hlen
    exact hne (List.length_eq_zero_iff.mp (by omega))

/-! ### A start -/

theorem Resting.grow {w : World S} (hw : Resting w) {fs : Fs} (hfs : Fs.growsDirs.rel w.fs fs) :
    Resting { w with fs := fs } := by
  have hdirs : ∀ p, w.fs.isDir p = true → fs.isDir p = true := fun p hp => Fs.growsDirs_isDir hfs hp
  have hkeep : Keeps ∅ w { w with fs := fs } :=
    ⟨hdirs, fun p _ _ hp => by rwa [Fs.isFile, Fs.growsDirs_read hfs], fun p _ _ =>
      Fs.growsDirs_read hfs p, List.Subset.refl _, id, le_rfl⟩
  refine ⟨fun n q b hn hb => hw.blobs n q b hn ?_,
    hw.synced.keeps hkeep (fun _ hp => absurd hp (Set.notMem_empty _)) rfl, hw.typed,
    hdirs _ hw.rooted⟩
  rwa [← Fs.growsDirs_read hfs]

/-- The root with the directories above it. -/
def onRoot (w : World S) : World S := { w with fs := ((Fs.createDirAll S.root).exec w.fs).2 }

theorem grows_onRoot (w : World S) : Fs.growsDirs.rel w.fs (onRoot w).fs :=
  Fs.createDirAll_grows S.root w.fs

theorem lookup_startUp {w : World S} (hw : Resting w) (B : Boot) (r t : Str) :
    (startUp B w).localTags.lookup (r, t) = w.localTags.lookup (r, t) :=
  loaded_eq (hw.grow (grows_onRoot w)).synced r t

theorem node_startUp (B : Boot) (w : World S) {p : Path} (hp : ¬ Swept S.root p) :
    (startUp B w).fs.node p = (onRoot w).fs.node p :=
  (sweep_cases S.root B.age (onRoot w).fs p).resolve_right fun h => hp h.2

/-- A start on files at rest reaches the invariants of a server. -/
theorem Resting.startUp {w : World S} (hw : Resting w) (B : Boot) :
    Ready (startUp B w) ∧ Synced Findable (Server.startUp B w) := by
  have hrest := hw.grow (grows_onRoot w)
  have hpruned : ∀ p, (Server.startUp B w).fs.node p = (onRoot w).fs.node p ∨
      (Server.startUp B w).fs.node p = none := fun p =>
    (sweep_cases S.root B.age (onRoot w).fs p).imp_right And.left
  refine ⟨⟨⟨⟨fun n q b hn hb => ?_, fun key st hst => ?_, fun key _ st _ hst => ?_⟩,
    fun key st hst => ?_⟩, fun r d m hm => ?_, fun r d m hm => ?_, fun key m hm => ?_,
    fun key st b hst _ => ?_, ?_⟩, ?_⟩
  · exact hrest.blobs n q b hn (read_of_pruned hpruned hb)
  · cases hst
  · cases hst
  · cases hst
  · cases hm
  · cases hm
  · have hm' : (Server.startUp B w).localTags.lookup (key.1, key.2) = some m := hm
    rw [lookup_startUp hw] at hm'
    exact hw.typed key m hm'
  · cases hst
  · refine (Fs.isDir_congr (node_startUp B w fun hswept => ?_)).trans hrest.rooted
    have hmem := Swept.mem (show Swept S.root ([] ++ S.root) from hswept)
    cases hmem
  · refine synced_of_pruned hrest.synced hpruned (fun r t m hm => ?_) fun r _ _ t =>
      lookup_startUp hw B r t
    rw [lookup_startUp hw] at hm
    obtain ⟨hr, -, -⟩ := hw.synced.tagged r t m hm
    exact ⟨hm, fun p hp => node_startUp B w (not_swept_of_findable hr hp)⟩

end Quill.Server
