import Quill.Registry.Footprint
import Quill.Registry.Containment
import Quill.Storage.GcExact

/-!
# The two walks over the repositories

`discover_repos`, for `quill gc` and `quill du`, and `list_repos`, for the catalog, walk the
storage root independently of each other. The first stops at every directory that holds a
directory `blobs`, and enters all others but `_uploads` and `_quill`; the second enters every
directory whose name begins neither with `.` nor with `_`.

`Laid T w` describes the directories of a store in which requests named the repositories `T`: it
holds in every run of requests and collections (`laid_history`). `Seen` says that both
walks return exactly a set of repositories, each once. In a laid-out store with visible names
(`Visible`) they return the repositories that have a directory `blobs`, as long as none of these
lies in another (`seen_of_laid`), and no other repositories can be seen by both walks
(`visible_of_seen`, `apart_of_seen`). `walks_see_repos` is about runs and the repositories
that were stored something in.
-/

namespace Quill.Registry.RepoWalks

open Text Files Cas World LocalStorage Uploads

variable {S : Setup} {root : Path} {fs : Fs} {repo : Str}

/-! ## `list_repos` -/

theorem mem_repoSubdirs {p : Path} {n : Name} :
    n ∈ repoSubdirs fs p ↔ n.val.head? ≠ some '.' ∧ n.val.head? ≠ some '_' ∧
      fs.isDir (n :: p) = true := by
  unfold repoSubdirs
  simp only [List.mem_filter, Fs.mem_readDir, decide_eq_true_eq]
  constructor
  · exact fun h => h.2
  · intro h
    refine ⟨?_, h⟩
    rw [Fs.isDir_cons.mp h.2.2]
    rfl

theorem nodup_repoSubdirs (p : Path) : (repoSubdirs fs p).Nodup := (fs.nodup_readDir p).filter _

theorem repoSubdirs_mem_keys (p : Path) (n : Name) (h : n ∈ repoSubdirs fs p) :
    n :: p ∈ fs.nodes.keys := by
  have hdir := (mem_repoSubdirs.mp h).2.2
  rw [← AList.mem_keys, ← AList.lookup_isSome]
  change (fs.node (n :: p)).isSome = true
  rw [Fs.isDir_cons.mp hdir]
  rfl

/-- The name under which `walk_repos` pushes a directory. -/
def listedAt (root : Path) (fs : Fs) (dir : Path) : Option Str :=
  if dir ≠ root ∧ fs.isDir (blobsName :: dir) then (stripPrefix root dir).map relative else none

theorem listedAt_eq_some {dir : Path} :
    listedAt root fs dir = some repo ↔ fs.isDir (blobsName :: dir) = true ∧
      ∃ segs, segs ≠ [] ∧ dir = segs ++ root ∧ repo = relative segs := by
  unfold listedAt
  split
  · rename_i hdir
    simp only [Option.map_eq_some_iff, stripPrefix_eq_some, hdir.2, true_and]
    constructor
    · rintro ⟨segs, rfl, rfl⟩
      refine ⟨segs, ?_, rfl, rfl⟩
      rintro rfl
      exact hdir.1 rfl
    · rintro ⟨segs, -, rfl, rfl⟩
      exact ⟨segs, rfl, rfl⟩
  · rename_i hdir
    simp only [reduceCtorEq, false_iff]
    rintro ⟨hblobs, segs, hs, rfl, -⟩
    exact hdir ⟨fun he => hs (List.append_left_eq_self.mp he), hblobs⟩

/-- A repository is listed when the walk descends to a directory that holds `blobs`, and only
then; no repository is listed twice. -/
theorem listRepos_spec (hroot : fs.isDir root = true) :
    ∃ l, listRepos root fs = .ok l ∧ l.Nodup ∧ ∀ repo, repo ∈ l ↔ ∃ segs, segs ≠ [] ∧
      repo = relative segs ∧ Files.Descends (repoSubdirs fs) root (segs ++ root) ∧
      fs.isDir (blobsName :: (segs ++ root)) = true := by
  have hok : listRepos root fs = .ok (((walk (repoSubdirs fs) (fs.nodes.keys.length + 1) [root]).filterMap
      (listedAt root fs)).mergeSort fun a b => a ≤ b) := by
    unfold listRepos
    rw [if_neg (by simp [hroot])]
    rfl
  refine ⟨_, hok, ?_, fun repo => ?_⟩
  · rw [(List.mergeSort_perm _ _).nodup_iff]
    refine List.Nodup.filterMap ?_ (nodup_walk repoSubdirs_mem_keys nodup_repoSubdirs
      (Nat.lt_succ_self _) root)
    intro dir dir' r hr hr'
    obtain ⟨-, segs, hs, rfl, he⟩ := listedAt_eq_some.mp hr
    obtain ⟨-, segs', hs', rfl, he'⟩ := listedAt_eq_some.mp hr'
    rw [relative_injective hs hs' (he.symm.trans he')]
  · rw [List.mem_mergeSort, List.mem_filterMap]
    simp only [mem_walk repoSubdirs_mem_keys nodup_repoSubdirs (Nat.lt_succ_self _)]
    constructor
    · rintro ⟨dir, hdesc, hr⟩
      obtain ⟨hblobs, segs, hs, rfl, rfl⟩ := listedAt_eq_some.mp hr
      exact ⟨segs, hs, rfl, hdesc, hblobs⟩
    · rintro ⟨segs, hs, rfl, hdesc, hblobs⟩
      exact ⟨segs ++ root, hdesc, listedAt_eq_some.mpr ⟨hblobs, segs, hs, rfl, rfl⟩⟩

/-! ## What the walks see -/

/-- Both walks return exactly the repositories of `R`, each once. -/
structure Seen (root : Path) (fs : Fs) (R : Set Str) : Prop where
  discovered : (Gc.discoverRepos root fs).Nodup ∧ ∀ repo, repo ∈ Gc.discoverRepos root fs ↔ repo ∈ R
  listed : ∃ l, listRepos root fs = .ok l ∧ l.Nodup ∧ ∀ repo, repo ∈ l ↔ repo ∈ R

/-- A name whose components are names that both walks enter. -/
def Visible (repo : Str) : Prop :=
  Plain repo ∧ ∀ seg ∈ repo.splitOn '/',
    seg.head? ≠ some '.' ∧ seg.head? ≠ some '_' ∧ seg ≠ blobsName.val

instance (repo : Str) : Decidable (Visible repo) := inferInstanceAs (Decidable (_ ∧ _))

/-- No repository of `R` has its directory in that of another. -/
def Apart (root : Path) (R : Set Str) : Prop :=
  ∀ repo ∈ R, ∀ repo' ∈ R, repo ≠ repo' → ¬ repoDir root repo <:+ repoDir root repo'

/-- A repository that both walks see has a visible name. -/
theorem visible_of_seen {R : Set Str} (h : Seen root fs R) (hroot : fs.isDir root = true)
    (hrepo : repo ∈ R) : Visible repo := by
  obtain ⟨-, segs, hs, rfl, hdesc, -⟩ := Gc.mem_discoverRepos.mp ((h.discovered.2 repo).mpr hrepo)
  obtain ⟨l, hl, -, hmem⟩ := h.listed
  obtain ⟨l', hl', -, hmem'⟩ := listRepos_spec hroot
  cases hl.symm.trans hl'
  obtain ⟨segs', hs', he, hdesc', -⟩ := (hmem' _).mp ((hmem _).mpr hrepo)
  cases relative_injective hs hs' he
  refine ⟨plain_relative hs, fun seg hseg => ?_⟩
  rw [splitOn_relative hs] at hseg
  obtain ⟨n, hn, rfl⟩ := List.mem_map.mp hseg
  obtain ⟨above, below, rfl⟩ := List.append_of_mem (List.mem_reverse.mp hn)
  have hway : n :: (below ++ root) <:+ above ++ n :: below ++ root := ⟨above, by simp⟩
  have hlist := mem_repoSubdirs.mp (hdesc'.enters hway (List.suffix_append _ _))
  refine ⟨hlist.1, hlist.2.1, fun hblobs => ?_⟩
  -- a directory that holds `blobs` is not left downwards
  have hdisc := Gc.mem_subdirs.mp (hdesc.enters hway (List.suffix_append _ _))
  have hn : n = blobsName := Subtype.ext hblobs
  have hholds : Gc.hasBlobs fs (below ++ root) = true :=
    Gc.hasBlobs_iff.mpr ⟨hdisc.2.1, hn ▸ hdisc.2.2.1⟩
  rw [hdisc.1] at hholds
  cases hholds

/-- Repositories that both walks see are apart if they have a directory `blobs`. -/
theorem apart_of_seen {R : Set Str} (h : Seen root fs R)
    (hblobs : ∀ repo ∈ R, fs.isDir (repoDir root repo) = true ∧
      fs.isDir (blobsName :: repoDir root repo) = true) : Apart root R := by
  intro repo hrepo repo' hrepo' hne hsuffix
  obtain ⟨-, segs, hs, rfl, -, -⟩ := Gc.mem_discoverRepos.mp ((h.discovered.2 repo).mpr hrepo)
  obtain ⟨-, segs', hs', rfl, hdesc', -⟩ := Gc.mem_discoverRepos.mp ((h.discovered.2 repo').mpr hrepo')
  have hholds := hblobs _ hrepo
  rw [repoDir, join_relative root hs] at hholds
  rw [repoDir, repoDir, join_relative root hs, join_relative root hs'] at hsuffix
  obtain ⟨above, habove⟩ := hsuffix
  rcases List.eq_nil_or_concat above with rfl | ⟨init, n, rfl⟩
  · exact hne (congrArg relative (List.append_cancel_right habove))
  · -- the walk would have to go on below the first repository
    have hway : n :: (segs ++ root) <:+ segs' ++ root := ⟨init, by rw [← habove]; simp⟩
    have hdisc := Gc.mem_subdirs.mp (hdesc'.enters hway (List.suffix_append _ _))
    rw [Gc.hasBlobs_iff.mpr hholds] at hdisc
    cases hdisc.1

/-! ## Laid-out stores -/

/-- The directories of a store whose repositories are among `T`. -/
structure Laid (root : Path) (fs : Fs) (T : Set Str) : Prop where
  connected : fs.Connected
  rooted : fs.isDir root = true
  made : ∀ q, fs.isDir q = true → q <:+ root ∨
    ∃ repo ∈ T, q <:+ blobsDir root repo ∨ q <:+ uploadsDir root repo

/-- The repositories of `T` that have a directory `blobs`. -/
def prepared (root : Path) (fs : Fs) (T : Set Str) : Set Str :=
  {repo | repo ∈ T ∧ fs.isDir (blobsName :: repoDir root repo) = true}

theorem Visible.repoDir_eq (h : Visible repo) (root : Path) :
    repoDir root repo = h.1.segs ++ root := h.1.join_eq root

theorem Visible.name (h : Visible repo) {n : Name} (hn : n ∈ h.1.segs) :
    n.val.head? ≠ some '.' ∧ n.val.head? ≠ some '_' ∧ n ≠ blobsName := by
  obtain ⟨hdot, hunder, hblobs⟩ := h.2 _ (h.1.mem_segs.mp hn)
  exact ⟨hdot, hunder, fun he => hblobs (congrArg Subtype.val he)⟩

theorem Visible.not_below (h : Visible repo) (s : Path) :
    ¬ blobsName :: (s ++ root) <:+ repoDir root repo := by
  rintro ⟨above, habove⟩
  rw [h.repoDir_eq root, ← List.cons_append, ← List.append_assoc] at habove
  have hsegs := List.append_cancel_right habove
  refine (h.name (n := blobsName) ?_).2.2 rfl
  rw [← hsegs]
  exact List.mem_append_right _ List.mem_cons_self

section Laid

variable {T : Set Str} (h : Laid root fs T) (hT : ∀ repo ∈ T, Visible repo)

include h hT

/-- A directory `blobs` of a store with visible names is that of a repository. -/
theorem Laid.prepared_of_blobs {s : Path} (hdir : fs.isDir (blobsName :: (s ++ root)) = true) :
    s ≠ [] ∧ relative s ∈ prepared root fs T := by
  have hrepo : ∃ repo ∈ T, repoDir root repo = s ++ root := by
    rcases h.made _ hdir with hroot | ⟨repo, hrepo, hmade | hmade⟩
    · have hlen := hroot.length_le
      simp only [List.length_cons, List.length_append] at hlen
      omega
    · refine ⟨repo, hrepo, ?_⟩
      rcases List.suffix_cons_iff.mp hmade with he | hmade
      · exact absurd (List.cons.inj he).1 (by decide)
      · rcases List.suffix_cons_iff.mp hmade with he | hmade
        · exact (List.cons.inj he).2.symm
        · exact absurd hmade ((hT repo hrepo).not_below s)
    · rcases List.suffix_cons_iff.mp hmade with he | hmade
      · exact absurd (List.cons.inj he).1 (by decide)
      · exact absurd hmade ((hT repo hrepo).not_below s)
  obtain ⟨repo, hrepo, he⟩ := hrepo
  have hsegs : (hT repo hrepo).1.segs = s := by
    rw [(hT repo hrepo).repoDir_eq root] at he
    exact List.append_cancel_right he
  subst hsegs
  rw [(hT repo hrepo).1.relative_segs]
  refine ⟨(hT repo hrepo).1.segs_ne_nil, hrepo, ?_⟩
  rw [he]
  exact hdir

/-- The directories on the way to a prepared repository. -/
theorem Laid.way_to_prepared (hrepo : repo ∈ prepared root fs T) :
    ∃ segs, segs ≠ [] ∧ repo = relative segs ∧ (∀ n ∈ segs, n.val.head? ≠ some '.' ∧
      n.val.head? ≠ some '_') ∧ fs.isDir (blobsName :: (segs ++ root)) = true ∧
      ∀ s, s <:+ segs → fs.isDir (s ++ root) = true := by
  have hv := hT repo hrepo.1
  have hblobs := hrepo.2
  rw [hv.repoDir_eq root] at hblobs
  refine ⟨hv.1.segs, hv.1.segs_ne_nil, hv.1.relative_segs.symm,
    fun n hn => ⟨(hv.name hn).1, (hv.name hn).2.1⟩, hblobs, fun s hs => ?_⟩
  refine h.connected.isDir_suffix hblobs ?_
  obtain ⟨above, habove⟩ := hs
  exact ⟨blobsName :: above, by rw [← habove]; simp⟩

/-- In a store with visible names whose prepared repositories are apart, both walks return exactly
these. -/
theorem Laid.seen (hapart : Apart root (prepared root fs T)) : Seen root fs (prepared root fs T) := by
  refine ⟨⟨Gc.nodup_discoverRepos root fs, fun repo => ?_⟩, ?_⟩
  · rw [Gc.mem_discoverRepos]
    constructor
    · rintro ⟨-, segs, -, rfl, -, hholds⟩
      exact (h.prepared_of_blobs hT (Gc.hasBlobs_iff.mp hholds).2).2
    · intro hrepo
      obtain ⟨segs, hs, rfl, hnames, hblobs, hway⟩ := h.way_to_prepared hT hrepo
      have hexists : fs.exists? root = true := by
        rcases Fs.isDir_iff.mp h.rooted with hnil | hdir
        · simp [Fs.exists?, hnil]
        · simp [Fs.exists?, hdir]
      refine ⟨hexists, segs, hs, rfl, .of_enters fun n s hns => ?_,
        Gc.hasBlobs_iff.mpr ⟨hway segs (List.suffix_refl _), hblobs⟩⟩
      have hdir := hway s ((List.suffix_cons n s).trans hns)
      have hname := hnames n (hns.subset List.mem_cons_self)
      refine Gc.mem_subdirs.mpr ⟨?_, hdir, hway (n :: s) hns, ?_, ?_⟩
      · -- a repository on the way would hold this one
        by_contra hholds
        obtain ⟨hs', hrepo'⟩ := h.prepared_of_blobs hT
          (Gc.hasBlobs_iff.mp (Bool.not_eq_false _ ▸ hholds)).2
        refine hapart _ hrepo' _ hrepo (fun he => ?_) ?_
        · have hlen := hns.length_le
          rw [relative_injective hs' hs he] at hlen
          simp at hlen
        · rw [repoDir, repoDir, join_relative root hs', join_relative root hs]
          obtain ⟨above, habove⟩ := (List.suffix_cons n s).trans hns
          exact ⟨above, by rw [← habove]; simp⟩
      · rintro rfl
        exact hname.2 rfl
      · rintro rfl
        exact hname.2 rfl
  · obtain ⟨l, hl, hnodup, hmem⟩ := listRepos_spec h.rooted
    refine ⟨l, hl, hnodup, fun repo => ?_⟩
    rw [hmem]
    constructor
    · rintro ⟨segs, -, rfl, -, hblobs⟩
      exact (h.prepared_of_blobs hT hblobs).2
    · intro hrepo
      obtain ⟨segs, hs, rfl, hnames, hblobs, hway⟩ := h.way_to_prepared hT hrepo
      refine ⟨segs, hs, rfl, .of_enters fun n s hns => ?_, hblobs⟩
      have hname := hnames n (hns.subset List.mem_cons_self)
      exact mem_repoSubdirs.mpr ⟨hname.1, hname.2, hway (n :: s) hns⟩

end Laid

/-! ## Runs -/

/-- A request, or a run of `quill gc`. -/
inductive Act where
  | request (req : Request)
  | collect (extraRoots : List Digest) (dryRun : Bool)

/-- The world after a request or a run of `quill gc`. -/
def Act.run (w : World S) : Act → World S
  | request req => ((dispatch req : Handler S).exec w).2
  | collect extraRoots dryRun => { w with fs := (Gc.run S w.fs .none extraRoots dryRun).2 }

/-- The repository that a request is routed to. -/
def Act.target : Act → Option Str
  | request req =>
    if req.rest = "_catalog".toList ∨ (split req.rest).1 = [] then none else some (split req.rest).1
  | collect _ _ => none

/-- The world after a list of actions. -/
def history (w : World S) (acts : List Act) : World S := acts.foldl Act.run w

/-- The repositories that the requests of a run name. -/
def named (acts : List Act) : Set Str := {repo | ∃ act ∈ acts, act.target = some repo}

/-- The named repositories that a blob was stored in, at any time of the run. -/
def stored (w : World S) (acts : List Act) : Set Str :=
  {repo | repo ∈ named acts ∧ ∃ before, before <+: acts ∧
    ∃ d, (history w before).fs.isFile (blobPath S.root repo d) = true}

/-- What an action does to the directories. -/
structure Keeps (T : Set Str) (w w' : World S) : Prop where
  orderly : Orderly w'
  connected : w.fs.Connected → w'.fs.Connected
  dirs : ∀ p, w.fs.isDir p = true → w'.fs.isDir p = true
  made : ∀ p, w'.fs.isDir p = true → w.fs.isDir p = true ∨
    ∃ repo ∈ T, p <:+ blobsDir S.root repo ∨ p <:+ uploadsDir S.root repo

theorem keeps_refl {T : Set Str} {w : World S} (hw : Orderly w) : Keeps T w w :=
  ⟨hw, id, fun _ h => h, fun _ h => Or.inl h⟩

theorem keeps_collect {T : Set Str} {w : World S} (hw : Orderly w) (extra : List Digest)
    (dryRun : Bool) : Keeps T w (Act.run w (.collect extra dryRun)) := by
  have hnode := Gc.run_node_cases S w.fs .none extra dryRun
  have hdir : ∀ p, (Gc.run S w.fs .none extra dryRun).2.isDir p = w.fs.isDir p := by
    intro p
    rcases hnode p with hsame | ⟨hgone, hfile, -⟩
    · exact Fs.isDir_congr hsame
    · -- what is removed was a file
      obtain ⟨b, hb⟩ := Option.isSome_iff_exists.mp hfile
      simp [Fs.isDir, hgone, Fs.read_eq_some.mp hb]
  refine ⟨⟨fun p b hb => ?_, hw.cached, hw.sessions⟩, fun hc n p hp => ?_,
    fun p hp => (hdir p).trans hp, fun p hp => Or.inl ((hdir p).symm.trans hp)⟩
  · refine hw.records p b ?_
    rcases hnode p with hsame | ⟨hgone, -⟩
    · rwa [show (Act.run w (.collect extra dryRun)).fs.read p = w.fs.read p from
        Fs.read_congr hsame] at hb
    · have hb' := Fs.read_eq_some.mp hb
      rw [show (Act.run w (.collect extra dryRun)).fs.node p = none from hgone] at hb'
      cases hb'
  · refine (hdir p).trans (hc n p ?_)
    rcases hnode (n :: p) with hsame | ⟨hgone, -⟩
    · rwa [show (Act.run w (.collect extra dryRun)).fs.node (n :: p) = w.fs.node (n :: p) from
        hsame] at hp
    · rw [show (Act.run w (.collect extra dryRun)).fs.node (n :: p) = none from hgone] at hp
      cases hp

theorem keeps_run (hserde : SessionRoundtrip S) {T : Set Str} {w : World S} (hw : Orderly w)
    (act : Act) (hT : ∀ repo ∈ act.target, repo ∈ T) : Keeps T w (act.run w) := by
  cases act with
  | collect extra dryRun => exact keeps_collect hw extra dryRun
  | request req =>
    by_cases hcatalog : req.rest = "_catalog".toList
    · have hsame : Act.run w (.request req) = w := by
        show ((dispatch req : Handler S).exec w).2 = w
        unfold dispatch
        rw [if_pos hcatalog]
        exact exec_catalog w
      rw [hsame]
      exact keeps_refl hw
    · by_cases hempty : (split req.rest).1 = []
      · have hsame : Act.run w (.request req) = w := by
          show ((dispatch req : Handler S).exec w).2 = w
          unfold dispatch
          rw [if_neg hcatalog, if_pos hempty]
          rfl
        rw [hsame]
        exact keeps_refl hw
      · have hstays := dispatch_stays hserde req hcatalog
        have hchange := hstays.change hw
        have hmem : (split req.rest).1 ∈ T := hT _ (if_neg (not_or.mpr ⟨hcatalog, hempty⟩))
        refine ⟨hstays.inv hw, hchange.connected, hchange.dirs, fun p hp => ?_⟩
        exact (hchange.made p hp).imp_right fun hdirs => ⟨_, hmem, hdirs.2⟩

section History

variable (hserde : SessionRoundtrip S) {T : Set Str}

include hserde

theorem keeps_history {w : World S} (hw : Orderly w) (acts : List Act)
    (hT : ∀ act ∈ acts, ∀ repo ∈ act.target, repo ∈ T) : Keeps T w (history w acts) := by
  induction acts generalizing w with
  | nil => exact keeps_refl hw
  | cons act acts ih =>
    have hstep := keeps_run hserde hw act (hT act List.mem_cons_self)
    have hrest : Keeps T (act.run w) (history w (act :: acts)) :=
      ih hstep.orderly fun a ha => hT a (List.mem_cons_of_mem _ ha)
    refine ⟨hrest.orderly, fun hc => hrest.connected (hstep.connected hc),
      fun p hp => hrest.dirs p (hstep.dirs p hp), fun p hp => ?_⟩
    exact (hrest.made p hp).elim (hstep.made p) Or.inr

/-- Every run lays out the store for the repositories that it names. -/
theorem laid_history (ticks wall : List Nat) (acts : List Act) :
    Laid S.root (history (World.start S ticks wall) acts).fs (named acts) := by
  have hstart : ∀ {q : Path}, (World.start S ticks wall).fs.isDir q = true → q <:+ S.root := by
    intro q hq
    rcases Fs.isDir_iff.mp hq with rfl | hq
    · exact List.nil_suffix
    · have hnode : (emptyRoot S.root).node q = some .dir := hq
      rw [node_emptyRoot] at hnode
      split at hnode
      · rename_i hq
        exact hq.1
      · cases hnode
  have hkeeps := keeps_history hserde (T := named acts) (orderly_start S ticks wall) acts
    fun act hact repo hrepo => ⟨act, hact, hrepo⟩
  refine ⟨hkeeps.connected fun n p hp => ?_, hkeeps.dirs _ (isDir_emptyRoot (List.suffix_refl _)),
    fun q hq => (hkeeps.made q hq).imp_left hstart⟩
  have hsuffix : n :: p <:+ S.root := by
    have hnode : ((emptyRoot S.root).node (n :: p)).isSome = true := hp
    rw [node_emptyRoot] at hnode
    split at hnode
    · rename_i hq
      exact hq.1
    · cases hnode
  exact isDir_emptyRoot ((List.suffix_cons n p).trans hsuffix)

/-- A repository that a blob was stored in is prepared. -/
theorem stored_subset_prepared (ticks wall : List Nat) (acts : List Act) :
    stored (World.start S ticks wall) acts ⊆
      prepared S.root (history (World.start S ticks wall) acts).fs (named acts) := by
  rintro repo ⟨hnamed, before, ⟨after, rfl⟩, d, hfile⟩
  refine ⟨hnamed, ?_⟩
  have hbefore := laid_history hserde ticks wall before
  obtain ⟨b, hb⟩ := Option.isSome_iff_exists.mp hfile
  have hblobs : (history (World.start S ticks wall) before).fs.isDir
      (blobsName :: repoDir S.root repo) = true :=
    hbefore.connected.isDir_suffix (hbefore.connected.isDir_tail hb) (List.suffix_cons _ _)
  have horderly := (keeps_history hserde (T := Set.univ) (orderly_start S ticks wall) before
    fun _ _ _ _ => trivial).orderly
  have hafter := keeps_history hserde (T := Set.univ) horderly after fun _ _ _ _ => trivial
  have hsplit : history (World.start S ticks wall) (before ++ after) =
      history (history (World.start S ticks wall) before) after := List.foldl_append
  rw [hsplit]
  exact hafter.dirs _ hblobs

end History

/-- Every name is visible, no repository with a blob lies in another, and no repository has
been prepared without storing a blob in it. -/
structure Plainly (w : World S) (acts : List Act) : Prop where
  visible : ∀ repo ∈ named acts, Visible repo
  apart : Apart S.root (stored w acts)
  filled : prepared S.root (history w acts).fs (named acts) ⊆ stored w acts

/-- In every run with visible names, in which no repository with a blob lies in another and none is
left without a blob, both walks see exactly the repositories that a blob was stored in; and
where they do, the names of these are visible and none lies in another. -/
theorem walks_see_repos (S : Setup) (hserde : SessionRoundtrip S) (ticks wall : List Nat)
    (acts : List Act) :
    (Plainly (World.start S ticks wall) acts →
      Seen S.root (history (World.start S ticks wall) acts).fs (stored (World.start S ticks wall) acts)) ∧
    (Seen S.root (history (World.start S ticks wall) acts).fs (stored (World.start S ticks wall) acts) →
      (∀ repo ∈ stored (World.start S ticks wall) acts, Visible repo) ∧
        Apart S.root (stored (World.start S ticks wall) acts)) := by
  have hlaid := laid_history hserde ticks wall acts
  have hsub := stored_subset_prepared hserde ticks wall acts
  constructor
  · intro h
    have hsame := h.filled.antisymm hsub
    rw [← hsame]
    refine hlaid.seen h.visible ?_
    rw [hsame]
    exact h.apart
  · intro h
    refine ⟨fun repo hrepo => visible_of_seen h hlaid.rooted hrepo, apart_of_seen h fun repo hrepo => ?_⟩
    have hblobs := (hsub hrepo).2
    exact ⟨hlaid.connected.isDir_suffix hblobs (List.suffix_cons _ _), hblobs⟩

/-! Pushes to repositories that are apart, and to one that lies in another. -/

def store : Setup := plainSetup strayRoot 1

def booted : World store := World.start store [] []

/-- The push of an empty manifest. -/
def push (repo : Str) : Act :=
  .request { bareRequest .put (repo ++ "/manifests/v1".toList) with body := some [] }

theorem mem_named_two {repo r₁ r₂ : Str} (h₁ : (push r₁).target = some r₁)
    (h₂ : (push r₂).target = some r₂) :
    repo ∈ named [push r₁, push r₂] ↔ repo = r₁ ∨ repo = r₂ := by
  simp only [named, List.mem_cons, List.not_mem_nil, or_false, Set.mem_ofPred_eq, exists_eq_or_imp,
    exists_eq_left, h₁, h₂, Option.some.injEq]
  exact or_congr eq_comm eq_comm

/-- Both walks see the repositories `a` and `b/c`. -/
theorem apart_repos_seen :
    Plainly booted [push "a".toList, push "b/c".toList] ∧
      Seen store.root (history booted [push "a".toList, push "b/c".toList]).fs
        (stored booted [push "a".toList, push "b/c".toList]) := by
  have hnamed : ∀ {repo}, repo ∈ named [push "a".toList, push "b/c".toList] ↔
      repo = "a".toList ∨ repo = "b/c".toList := mem_named_two (by decide) (by decide)
  have hfile : ∀ repo, repo = "a".toList ∨ repo = "b/c".toList →
      (history booted [push "a".toList, push "b/c".toList]).fs.isFile
        (blobPath store.root repo (store.digest [])) = true := by
    rintro repo (rfl | rfl) <;> decide +kernel
  have hplainly : Plainly booted [push "a".toList, push "b/c".toList] := by
    refine ⟨fun repo hrepo => ?_, fun repo hrepo repo' hrepo' => ?_, fun repo hrepo => ?_⟩
    · rcases hnamed.mp hrepo with rfl | rfl <;> decide
    · rcases hnamed.mp hrepo.1 with rfl | rfl <;> rcases hnamed.mp hrepo'.1 with rfl | rfl <;> decide
    · exact ⟨hrepo.1, _, List.prefix_refl _, _, hfile repo (hnamed.mp hrepo.1)⟩
  exact ⟨hplainly, (walks_see_repos store (sessionRoundtrip_plain strayRoot 1) [] []
    [push "a".toList, push "b/c".toList]).1 hplainly⟩

/-- After pushes to `a` and to `a/b` a collection does not discover `a/b`. -/
theorem nested_repo_unseen :
    "a/b".toList ∈ stored booted [push "a".toList, push "a/b".toList] ∧
    "a/b".toList ∉ Gc.discoverRepos store.root
      (history booted [push "a".toList, push "a/b".toList]).fs ∧
    ¬ Seen store.root (history booted [push "a".toList, push "a/b".toList]).fs
      (stored booted [push "a".toList, push "a/b".toList]) := by
  have hnamed : "a/b".toList ∈ named [push "a".toList, push "a/b".toList] :=
    ⟨push "a/b".toList, by simp, by decide⟩
  have hstored : "a/b".toList ∈ stored booted [push "a".toList, push "a/b".toList] :=
    ⟨hnamed, _, List.prefix_refl _, store.digest [], by decide +kernel⟩
  have hunseen : "a/b".toList ∉ Gc.discoverRepos store.root
      (history booted [push "a".toList, push "a/b".toList]).fs := by decide +kernel
  exact ⟨hstored, hunseen, fun h => hunseen ((h.discovered.2 _).mpr hstored)⟩

end Quill.Registry.RepoWalks
