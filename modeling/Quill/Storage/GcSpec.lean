import Quill.Storage.Gc

/-!
# Discovery and marking

Discovery: a repository is discovered when the scan descends to its directory and the
directory holds `blobs` (`mem_discoverRepos`), and no directory is discovered twice
(`nodup_discoverRepos`).

Marking: in a discovered repository exactly the digests are marked that can be reached
from its roots through the blobs whose read succeeds (`markPhase_spec`).
-/

namespace Quill.Gc

open Text Files Cas Marking LocalTags

/-! ## Discovery -/

theorem mem_entries {fs : Fs} {p : Path} {n : Name} :
    n ∈ entries fs p ↔ fs.isDir p = true ∧ (fs.node (n :: p)).isSome = true := by
  unfold entries
  split
  · rename_i h
    simp only [h, true_and]
    exact Fs.mem_readDir
  · rename_i h
    simp [h]

theorem hasBlobs_iff {fs : Fs} {p : Path} :
    hasBlobs fs p = true ↔ fs.isDir p = true ∧ fs.isDir (blobsName :: p) = true := by
  unfold hasBlobs
  simp only [List.any_eq_true, mem_entries, decide_eq_true_eq]
  constructor
  · rintro ⟨n, ⟨hp, -⟩, rfl, hd⟩
    exact ⟨hp, hd⟩
  · rintro ⟨hp, hd⟩
    refine ⟨blobsName, ⟨hp, ?_⟩, rfl, hd⟩
    rw [Fs.isDir_cons.mp hd]
    rfl

theorem mem_subdirs {fs : Fs} {p : Path} {n : Name} :
    n ∈ subdirs fs p ↔ hasBlobs fs p = false ∧ fs.isDir p = true ∧ fs.isDir (n :: p) = true ∧
      n ≠ uploadsName ∧ n ≠ quillName := by
  unfold subdirs
  split
  · rename_i h
    simp [h]
  · rename_i h
    simp only [List.mem_filter, mem_entries, decide_eq_true_eq]
    constructor
    · rintro ⟨⟨hp, -⟩, hd, h1, h2⟩
      exact ⟨by simpa using h, hp, hd, h1, h2⟩
    · rintro ⟨-, hp, hd, h1, h2⟩
      refine ⟨⟨hp, ?_⟩, hd, h1, h2⟩
      rw [Fs.isDir_cons.mp hd]
      rfl

theorem nodup_subdirs (fs : Fs) (p : Path) : (subdirs fs p).Nodup := by
  unfold subdirs entries
  split
  · exact List.nodup_nil
  · split
    · exact (fs.nodup_readDir p).filter _
    · exact List.nodup_nil

theorem subdirs_mem_keys {fs : Fs} (p : Path) (n : Name) (h : n ∈ subdirs fs p) :
    n :: p ∈ fs.nodes.keys := by
  have hd := (mem_subdirs.mp h).2.2.1
  rw [← AList.mem_keys, ← AList.lookup_isSome]
  change (fs.node (n :: p)).isSome = true
  rw [Fs.isDir_cons.mp hd]
  rfl

/-- The name of a discovered repository leads back to its directory. -/
theorem repoAt_eq_some {root : Path} {fs : Fs} {dir : Path} {repo : Str} :
    repoAt root fs dir = some repo ↔
      hasBlobs fs dir = true ∧ ∃ segs, segs ≠ [] ∧ dir = segs ++ root ∧ repo = relative segs := by
  unfold repoAt
  by_cases hb : hasBlobs fs dir = true
  · simp only [hb, if_true, true_and]
    cases hstrip : stripPrefix root dir with
    | none =>
      simp only [reduceCtorEq, false_iff]
      rintro ⟨segs, -, he, -⟩
      cases hstrip.symm.trans (stripPrefix_eq_some.mpr he)
    | some segs =>
      have hdir := stripPrefix_eq_some.mp hstrip
      subst hdir
      by_cases hs : segs = []
      · subst hs
        simp [relative]
      · simp only [relative_ne_nil hs, if_false, Option.some.injEq]
        constructor
        · rintro rfl
          exact ⟨segs, hs, rfl, rfl⟩
        · rintro ⟨segs', -, he, rfl⟩
          rw [List.append_cancel_right he]
  · simp [hb]

/-- A repository is discovered when the scan descends to a directory that holds
`blobs`. -/
theorem mem_discoverRepos {root : Path} {fs : Fs} {repo : Str} :
    repo ∈ discoverRepos root fs ↔ fs.exists? root = true ∧ ∃ segs, segs ≠ [] ∧
      repo = relative segs ∧ Descends (subdirs fs) root (segs ++ root) ∧
      hasBlobs fs (segs ++ root) = true := by
  unfold discoverRepos
  split
  · rename_i hroot
    have hmem : ∀ q, q ∈ walk (subdirs fs) (fuel fs) [root] ↔ Descends (subdirs fs) root q :=
      fun q => mem_walk subdirs_mem_keys (nodup_subdirs fs) (Nat.lt_succ_self _)
    simp only [List.mem_filterMap, hmem, hroot, true_and]
    constructor
    · rintro ⟨dir, hd, hr⟩
      obtain ⟨hb, segs, hs, rfl, rfl⟩ := repoAt_eq_some.mp hr
      exact ⟨segs, hs, rfl, hd, hb⟩
    · rintro ⟨segs, hs, rfl, hd, hb⟩
      exact ⟨segs ++ root, hd, repoAt_eq_some.mpr ⟨hb, segs, hs, rfl, rfl⟩⟩
  · rename_i hroot
    simp [hroot]

theorem nodup_discoverRepos (root : Path) (fs : Fs) : (discoverRepos root fs).Nodup := by
  unfold discoverRepos
  split
  · refine List.Nodup.filterMap ?_
      (nodup_walk subdirs_mem_keys (nodup_subdirs fs) (Nat.lt_succ_self _) root)
    -- distinct directories below the root have distinct names
    intro dir dir' repo hrepo hrepo'
    obtain ⟨-, segs, hs, rfl, hr⟩ := repoAt_eq_some.mp hrepo
    obtain ⟨-, segs', hs', rfl, hr'⟩ := repoAt_eq_some.mp hrepo'
    rw [relative_injective hs hs' (hr.symm.trans hr')]
  · exact List.nodup_nil

theorem discovered_plain {root : Path} {fs : Fs} {repo : Str}
    (h : repo ∈ discoverRepos root fs) : Plain repo := by
  obtain ⟨-, segs, hs, rfl, -⟩ := mem_discoverRepos.mp h
  exact plain_relative hs

/-- Discovery only looks at which paths are directories. -/
theorem mem_discoverRepos_congr {root : Path} {fs fs' : Fs}
    (hdir : ∀ p, fs'.isDir p = fs.isDir p) (hroot : fs'.exists? root = fs.exists? root)
    {repo : Str} : repo ∈ discoverRepos root fs' ↔ repo ∈ discoverRepos root fs := by
  have hblobs : ∀ p, hasBlobs fs' p = hasBlobs fs p := by
    intro p
    rw [Bool.eq_iff_iff, hasBlobs_iff, hasBlobs_iff, hdir, hdir]
  have hsub : ∀ p n, n ∈ subdirs fs' p ↔ n ∈ subdirs fs p := by
    intro p n
    rw [mem_subdirs, mem_subdirs, hblobs, hdir, hdir]
  have hdesc : ∀ q, Descends (subdirs fs') root q ↔ Descends (subdirs fs) root q := by
    intro q
    constructor
    · intro h
      induction h with
      | here => exact .here
      | down _ hn ih => exact .down ih ((hsub _ _).mp hn)
    · intro h
      induction h with
      | here => exact .here
      | down _ hn ih => exact .down ih ((hsub _ _).mpr hn)
  rw [mem_discoverRepos, mem_discoverRepos, hroot]
  simp only [hdesc, hblobs]

/-! ## Marking -/

/-- The references of a blob as a traversal sees them. -/
def seenRefs (S : Setup) (fs : Fs) (faults : Faults) (repo : Str) (d : Digest) : List Digest :=
  if faults.read repo d then [] else refs S fs repo d

/-- The digests that are marked in a repository. -/
def Marked (S : Setup) (fs : Fs) (faults : Faults) (repo : Str) (extra : List Digest) :
    Set Digest :=
  { d | Reach (seenRefs S fs faults repo) (diskRoots S fs repo extra) d }

section Mark

variable {S : Setup} {fs : Fs} {faults : Faults} {repo : Str}

theorem mem_seen {x y : Str × Digest} :
    y ∈ seen S fs faults x ↔ y.1 = x.1 ∧ y.2 ∈ seenRefs S fs faults x.1 x.2 := by
  unfold seen seenRefs
  split
  · simp
  · constructor
    · intro h
      obtain ⟨d, hd, rfl⟩ := List.mem_map.mp h
      exact ⟨rfl, hd⟩
    · rintro ⟨h1, h2⟩
      exact List.mem_map.mpr ⟨y.2, h2, Prod.ext h1.symm rfl⟩

theorem digestOfName_hexName (d : Digest) : digestOfName (hexName d) = some d := by
  have h : "sha256:".toList ++ (hexName d).val = d.toStr := rfl
  rw [digestOfName, h, Digest.parse_toStr]
  rfl

/-- A digest-shaped name consists of hexadecimal digits. -/
theorem isAsciiHexdigit_of_digestOfName {n : Name} {d : Digest} (h : digestOfName n = some d) {c : Char}
    (hc : c ∈ n.val) : isAsciiHexdigit c = true := by
  have hsplit : splitOnce ':' ("sha256:".toList ++ n.val) = some (Digest.algorithm, n.val) := by
    simp [splitOnce, Digest.algorithm]
  unfold digestOfName Digest.parse at h
  rw [hsplit] at h
  simp only [ne_eq, not_true_eq_false, if_false] at h
  split at h
  · cases h
  · split at h
    · rename_i hall
      exact List.all_eq_true.mp hall c hc
    · cases h

/-- Within one repository only its blobs have references. -/
theorem bounded_seen (S : Setup) (fs : Fs) (faults : Faults) (repo : Str) :
    Bounded (seen S fs faults) { x | x.1 = repo } (blobNodes S fs repo) where
  closed x hx y hy := (mem_seen.mp hy).1.trans hx
  finite x hx hnot := by
    obtain ⟨r, d⟩ := x
    cases hx
    refine List.eq_nil_iff_forall_not_mem.mpr fun y hy => hnot ?_
    have hmem := (mem_seen.mp hy).2
    unfold seenRefs at hmem
    split at hmem
    · cases hmem
    · unfold refs at hmem
      cases hread : fs.read (blobPath S.root r d) with
      | none => simp [hread] at hmem
      | some b =>
        refine List.mem_filterMap.mpr ⟨hexName d, Fs.mem_readDir.mpr ?_, ?_⟩
        · have hnode := Fs.read_eq_some.mp hread
          change (fs.node (blobPath S.root r d)).isSome = true
          rw [hnode]
          rfl
        · rw [digestOfName_hexName]
          rfl

theorem reach_seen_iff {R : Set Digest} {x : Str × Digest} :
    Reach (seen S fs faults) { y | y.1 = repo ∧ y.2 ∈ R } x ↔
      x.1 = repo ∧ Reach (seenRefs S fs faults repo) R x.2 := by
  constructor
  · intro h
    induction h with
    | root h => exact ⟨h.1, .root h.2⟩
    | step _ hy ih =>
      obtain ⟨h1, h2⟩ := mem_seen.mp hy
      rw [ih.1] at h1 h2
      exact ⟨h1, .step ih.2 h2⟩
  · rintro ⟨h1, h2⟩
    have hall : ∀ d, Reach (seenRefs S fs faults repo) R d →
        Reach (seen S fs faults) { y | y.1 = repo ∧ y.2 ∈ R } (repo, d) := by
      intro d hd
      induction hd with
      | root h => exact .root ⟨rfl, h⟩
      | step _ hy ih => exact .step ih (mem_seen.mpr ⟨rfl, hy⟩)
    obtain ⟨r, d⟩ := x
    cases h1
    exact hall d h2

theorem mem_traverse {reachable : Finset (Str × Digest)}
    (hclosed : Closed (seen S fs faults) { x | x ∈ reachable }) (root : Digest)
    {x : Str × Digest} :
    x ∈ traverse S fs faults repo root reachable ↔
      x ∈ reachable ∨ Reach (seen S fs faults) {(repo, root)} x :=
  mem_mark (bounded_seen S fs faults repo) hclosed le_rfl rfl

theorem traverse_closed {reachable : Finset (Str × Digest)}
    (hclosed : Closed (seen S fs faults) { x | x ∈ reachable }) (root : Digest) :
    Closed (seen S fs faults) { x | x ∈ traverse S fs faults repo root reachable } :=
  mark_closed (bounded_seen S fs faults repo) hclosed le_rfl rfl

/-- The loop over the roots of one repository. -/
theorem traverse_roots (repo : Str) (roots : List Digest) {reachable : Finset (Str × Digest)}
    (hclosed : Closed (seen S fs faults) { x | x ∈ reachable }) :
    Closed (seen S fs faults)
      { x | x ∈ roots.foldl (fun acc r => traverse S fs faults repo r acc) reachable } ∧
    ∀ x, x ∈ roots.foldl (fun acc r => traverse S fs faults repo r acc) reachable ↔
      x ∈ reachable ∨ x.1 = repo ∧ Reach (seenRefs S fs faults repo) { d | d ∈ roots } x.2 := by
  induction roots generalizing reachable with
  | nil =>
    refine ⟨hclosed, fun x => ⟨Or.inl, ?_⟩⟩
    rintro (h | ⟨-, h⟩)
    · exact h
    · obtain ⟨r, hr, -⟩ := reach_iff_exists.mp h
      cases hr
  | cons root roots ih =>
    obtain ⟨hc, hmem⟩ := ih (traverse_closed hclosed root)
    refine ⟨hc, fun x => ?_⟩
    have hone : Reach (seen S fs faults) {(repo, root)} x ↔
        x.1 = repo ∧ Reach (seenRefs S fs faults repo) {root} x.2 := by
      rw [← reach_seen_iff]
      have hset : ({(repo, root)} : Set (Str × Digest)) = { y | y.1 = repo ∧ y.2 ∈ ({root} : Set Digest) } := by
        ext y
        exact Prod.ext_iff
      rw [hset]
    have hsplit : Reach (seenRefs S fs faults repo) { d | d ∈ root :: roots } x.2 ↔
        Reach (seenRefs S fs faults repo) {root} x.2 ∨
          Reach (seenRefs S fs faults repo) { d | d ∈ roots } x.2 := by
      rw [reach_iff_exists (R := { d | d ∈ root :: roots }),
        reach_iff_exists (R := { d | d ∈ roots })]
      simp only [Set.mem_ofPred_eq, List.mem_cons, exists_eq_or_imp]
    rw [List.foldl_cons, hmem x, mem_traverse hclosed, hone, hsplit]
    tauto

theorem diskRoots_eq {extra : List Digest} {map : TagMap} (h : loadRepo S fs repo ∅ = .ok map) :
    diskRoots S fs repo extra = { d | d ∈ rootsOf map repo extra } := by
  ext d
  constructor
  · rintro ⟨map', h', hd⟩
    rw [h] at h'
    cases h'
    exact hd
  · intro hd
    exact ⟨map, h, hd⟩

/-- A successful mark phase has loaded every sidecar and marked exactly the digests that
can be reached from the roots of their repository. -/
theorem markPhase_spec {extra : List Digest} (repos : List Str)
    {reachable out : Finset (Str × Digest)} {roots n : Nat}
    (hclosed : Closed (seen S fs faults) { x | x ∈ reachable })
    (h : markPhase S fs faults extra repos reachable roots = .ok (out, n)) :
    (∀ repo ∈ repos, ∃ map, loadRepo S fs repo ∅ = .ok map) ∧
    ∀ x, x ∈ out ↔ x ∈ reachable ∨ x.1 ∈ repos ∧ x.2 ∈ Marked S fs faults x.1 extra := by
  induction repos generalizing reachable roots with
  | nil =>
    cases h
    exact ⟨by simp, by simp⟩
  | cons repo repos ih =>
    unfold markPhase at h
    cases hload : loadRepo S fs repo ∅ with
    | error e =>
      rw [hload] at h
      cases h
    | ok map =>
      rw [hload] at h
      obtain ⟨hc, hmem⟩ := traverse_roots repo (rootsOf map repo extra) hclosed
      obtain ⟨hloads, hout⟩ := ih hc h
      refine ⟨?_, fun x => ?_⟩
      · intro r hr
        rcases List.mem_cons.mp hr with rfl | hr
        · exact ⟨map, hload⟩
        · exact hloads r hr
      · have hhere : x.1 = repo ∧ Reach (seenRefs S fs faults repo)
            { d | d ∈ rootsOf map repo extra } x.2 ↔
            x.1 = repo ∧ x.2 ∈ Marked S fs faults x.1 extra := by
          constructor
          · rintro ⟨h1, h2⟩
            refine ⟨h1, ?_⟩
            rw [h1, Marked, Set.mem_ofPred_eq, diskRoots_eq hload]
            exact h2
          · rintro ⟨h1, h2⟩
            rw [h1, Marked, Set.mem_ofPred_eq, diskRoots_eq hload] at h2
            exact ⟨h1, h2⟩
        rw [hout x, hmem x, hhere, List.mem_cons]
        tauto

/-- The mark phase only fails on a sidecar that does not load. -/
theorem markPhase_error {extra : List Digest} (repos : List Str)
    {reachable : Finset (Str × Digest)} {roots : Nat} {e : LocalTagsError}
    (h : markPhase S fs faults extra repos reachable roots = .error e) :
    ∃ repo ∈ repos, loadRepo S fs repo ∅ = .error e := by
  induction repos generalizing reachable roots with
  | nil => cases h
  | cons repo repos ih =>
    unfold markPhase at h
    cases hload : loadRepo S fs repo ∅ with
    | error e' =>
      rw [hload] at h
      cases h
      exact ⟨repo, List.mem_cons_self, hload⟩
    | ok map =>
      rw [hload] at h
      obtain ⟨r, hr, he⟩ := ih h
      exact ⟨r, List.mem_cons_of_mem _ hr, he⟩

end Mark

end Quill.Gc
