import Quill.Storage.Codec
import Quill.Storage.GcSweep

/-!
# What a whole run of the collector removes

Without faults a run that succeeds removes the digest-named files of the discovered
repositories that are not live, and nothing else; a second run finds nothing to remove
and a dry run reports the same counters (`run_exact`). What is live does not depend on the garbage, so a
tree without some of its garbage has the rest of it for garbage (`Lessened.garbage_iff`).

A failing read hides the references of a blob. Such a failure is skipped by the
traversal and leaves no message, so that a run is safe only when no live manifest has a failing
read, or when the run ends before it deletes anything (`safe_iff`).
-/

namespace Quill.Gc

open Text Files Cas Marking LocalTags

/-! ## From the phases to the run -/

section Run

variable {S : Setup} {fs : Fs} {faults : Faults} {extra : List Digest}

theorem closed_empty (succ : Str × Digest → List (Str × Digest)) :
    Closed succ { x | x ∈ (∅ : Finset (Str × Digest)) } := by
  intro x hx
  cases hx

/-- The mark phase of a run marks, in every discovered repository, what can be reached. -/
theorem marked_iff {reachable : Finset (Str × Digest)} {roots : Nat}
    (h : markPhase S fs faults extra (discoverRepos S.root fs) ∅ 0 = .ok (reachable, roots))
    (x : Str × Digest) :
    x ∈ reachable ↔ x.1 ∈ discoverRepos S.root fs ∧ x.2 ∈ Marked S fs faults x.1 extra := by
  rw [(markPhase_spec _ (closed_empty _) h).2 x]
  simp

theorem seenRefs_sublist {repo : Str} {d y : Digest} (h : y ∈ seenRefs S fs faults repo d) :
    y ∈ refs S fs repo d := by
  unfold seenRefs at h
  split at h
  · cases h
  · exact h

theorem marked_subset_live (repo : Str) :
    Marked S fs faults repo extra ⊆ Live S fs repo extra :=
  fun _ h => h.mono (fun _ h => h) fun _ _ _ hy => seenRefs_sublist hy

theorem marked_none (repo : Str) : Marked S fs .none repo extra = Live S fs repo extra := by
  have h : seenRefs S fs .none repo = refs S fs repo := rfl
  rw [Marked, Live, h]

/-- Some digest-named regular file of these repositories is not marked. -/
def Unmarked (S : Setup) (fs : Fs) (faults : Faults) (extra : List Digest) (repos : List Str)
    (p : Path) : Prop :=
  ∃ repo ∈ repos, fs.isDir (blobsDir S.root repo) = true ∧ ∃ n d, p = n :: blobsDir S.root repo ∧
    fs.isFile p = true ∧ digestOfName n = some d ∧ d ∉ Marked S fs faults repo extra

theorem doomed_iff {reachable : Finset (Str × Digest)} {roots : Nat} {done : List Str}
    (hdelete : ∀ p, faults.delete p = false) (hdone : done ⊆ discoverRepos S.root fs)
    (h : markPhase S fs faults extra (discoverRepos S.root fs) ∅ 0 = .ok (reachable, roots))
    (p : Path) :
    Doomed S.root faults reachable fs done p ↔ Unmarked S fs faults extra done p := by
  refine exists_congr fun repo => and_congr_right fun hr => and_congr_right fun _ => ?_
  have hmark : ∀ d, (repo, d) ∈ reachable ↔ d ∈ Marked S fs faults repo extra := fun d =>
    (marked_iff h (repo, d)).trans (and_iff_right (hdone hr))
  constructor
  · rintro ⟨n, rfl, b, d, hb, hname, hd, -⟩
    exact ⟨n, d, rfl, by simp [Fs.isFile, hb], hname, fun hm => hd ((hmark d).mpr hm)⟩
  · rintro ⟨n, d, rfl, hfile, hname, hd⟩
    obtain ⟨b, hb⟩ := Option.isSome_iff_exists.mp hfile
    exact ⟨n, rfl, b, d, hb, hname, fun hm => hd ((hmark d).mp hm), hdelete _⟩

theorem Progress.subset {root : Path} {repos done : List Str} {result : Except GcError Unit}
    (h : Progress root fs repos done result) : done ⊆ repos := by
  rcases h with ⟨-, rfl, -⟩ | ⟨-, r, rest, rfl, -⟩
  · exact fun _ h => h
  · exact fun _ h => List.mem_append_left _ h

/-- The report a run starts its sweep with. -/
def markReport (S : Setup) (fs : Fs) (reachable : Finset (Str × Digest)) (roots : Nat) : GcReport :=
  ⟨(discoverRepos S.root fs).length, roots, reachable.card, 0, 0, 0, []⟩

theorem run_of_mark {reachable : Finset (Str × Digest)} {roots : Nat}
    (h : markPhase S fs faults extra (discoverRepos S.root fs) ∅ 0 = .ok (reachable, roots))
    (dryRun : Bool) {result : Except GcError Unit} {report : GcReport} {fs' : Fs}
    (hsweep : sweepPhase S.root faults reachable dryRun (discoverRepos S.root fs)
      (markReport S fs reachable roots, fs) = (result, (report, fs'))) :
    run S fs faults extra dryRun = (result.map fun _ => report, fs') := by
  unfold run
  simp only [h]
  unfold markReport at hsweep
  rw [hsweep]
  cases result <;> rfl

/-- A live run whose deletions do not fail stops on a sidecar that does not load, or
sweeps the repositories of `done`. -/
theorem run_live (S : Setup) (fs : Fs) (faults : Faults) (extra : List Digest)
    (hdelete : ∀ p, faults.delete p = false) :
    (∃ repo ∈ discoverRepos S.root fs, ∃ e, loadRepo S fs repo ∅ = .error e ∧
      run S fs faults extra false = (.error (.localTags e), fs)) ∨
    ((∀ repo ∈ discoverRepos S.root fs, ∃ map, loadRepo S fs repo ∅ = .ok map) ∧
      ∃ done result report fs', Progress S.root fs (discoverRepos S.root fs) done result ∧
        run S fs faults extra false = (result.map fun _ => report, fs') ∧ report.errors = [] ∧
        (∀ p, Unmarked S fs faults extra done p → fs'.node p = none) ∧
        (∀ p, ¬ Unmarked S fs faults extra done p → fs'.node p = fs.node p)) := by
  cases hmark : markPhase S fs faults extra (discoverRepos S.root fs) ∅ 0 with
  | error e =>
    obtain ⟨repo, hr, hload⟩ := markPhase_error _ hmark
    exact Or.inl ⟨repo, hr, e, hload, by simp [run, hmark]⟩
  | ok out =>
    obtain ⟨reachable, roots⟩ := out
    have hloads := (markPhase_spec _ (closed_empty _) hmark).1
    obtain ⟨done, hprog, hgone, hkeep, -⟩ := sweepPhase_live S.root faults reachable
      (markReport S fs reachable roots, fs) (fun r hr => discovered_plain hr)
      (nodup_discoverRepos S.root fs)
    have hdoomed := doomed_iff hdelete hprog.subset hmark
    refine Or.inr ⟨hloads, done, _, _, _, hprog, run_of_mark hmark false rfl, ?_, ?_, ?_⟩
    · exact sweepPhase_fixed (fun st => st.1.errors) (sweepEntry_errors hdelete false) _ _
    · exact fun p hp => hgone p ((hdoomed p).mpr hp)
    · exact fun p hp => hkeep p fun hd => hp ((hdoomed p).mp hd)

/-- A dry run leaves the file system as it is. -/
theorem run_dry_fs (S : Setup) (fs : Fs) (faults : Faults) (extra : List Digest) :
    (run S fs faults extra true).2 = fs := by
  cases hmark : markPhase S fs faults extra (discoverRepos S.root fs) ∅ 0 with
  | error e => simp [run, hmark]
  | ok out =>
    obtain ⟨reachable, roots⟩ := out
    rw [run_of_mark hmark true rfl]
    exact sweepPhase_fixed (fun st => st.2) sweepEntry_dry _ _

/-- A run removes nothing but regular files with digest-shaped names, whatever fails. -/
theorem run_node_cases (S : Setup) (fs : Fs) (faults : Faults) (extra : List Digest) (dryRun : Bool)
    (p : Path) :
    (run S fs faults extra dryRun).2.node p = fs.node p ∨
    ((run S fs faults extra dryRun).2.node p = none ∧ fs.isFile p = true ∧
      ∃ n q, p = n :: q ∧ (digestOfName n).isSome = true) := by
  cases dryRun with
  | true => exact Or.inl (by rw [run_dry_fs])
  | false =>
    cases hmark : markPhase S fs faults extra (discoverRepos S.root fs) ∅ 0 with
    | error e => exact Or.inl (by simp [run, hmark])
    | ok out =>
      obtain ⟨reachable, roots⟩ := out
      let P : GcReport × Fs → Prop := fun st => st.2.node p = fs.node p ∨
        (st.2.node p = none ∧ fs.isFile p = true ∧ ∃ n q, p = n :: q ∧ (digestOfName n).isSome = true)
      have hstep : ∀ repo st n, P st → P (sweepEntry S.root faults reachable false repo st n) := by
        intro repo st n hst
        have hentry : (DoomedEntry S.root faults reachable st.2 repo n ∧ _ = _) ∨ _ :=
          sweepEntry_live repo st n
        rcases hentry with ⟨⟨b, d, hread, hname, -⟩, he⟩ | ⟨-, he⟩
        · simp only [P, he, Fs.node_del]
          split
          · rename_i hp
            refine Or.inr ⟨rfl, ?_, n, _, hp, by rw [hname]; rfl⟩
            rcases hst with hst | ⟨hst, -⟩
            · rw [hp] at hst ⊢
              rw [Fs.isFile, ← Fs.read_congr hst, hread]
              rfl
            · rw [hp, Fs.read_eq_some.mp hread] at hst
              cases hst
          · exact hst
        · simp only [P, he]
          exact hst
      have hsweep : P (sweepPhase S.root faults reachable false (discoverRepos S.root fs)
          (markReport S fs reachable roots, fs)).2 :=
        sweepPhase_keep (P := P) (fun repo _ st n _ => hstep repo st n) (Or.inl rfl)
      rw [run_of_mark hmark false (Prod.ext rfl rfl)]
      exact hsweep

end Run

/-! ## Runs without faults -/

section Exact

variable {S : Setup} {fs : Fs} {extra : List Digest}

/-- A digest-named regular file of a discovered repository that is not live there. -/
def Garbage (S : Setup) (fs : Fs) (extra : List Digest) (p : Path) : Prop :=
  ∃ repo ∈ discoverRepos S.root fs, fs.isDir (blobsDir S.root repo) = true ∧
    ∃ n d, p = n :: blobsDir S.root repo ∧ fs.isFile p = true ∧ digestOfName n = some d ∧
      d ∉ Live S fs repo extra

theorem unmarked_none (p : Path) :
    Unmarked S fs .none extra (discoverRepos S.root fs) p ↔ Garbage S fs extra p := by
  simp only [Unmarked, Garbage, marked_none]

/-- A tree without some of its garbage. -/
def Lessened (S : Setup) (fs : Fs) (extra : List Digest) (fs' : Fs) : Prop :=
  ∀ p, fs'.node p = fs.node p ∨ (Garbage S fs extra p ∧ fs'.node p = none)

namespace Lessened

variable {fs' fs'' : Fs}

theorem refl (fs : Fs) : Lessened S fs extra fs := fun _ => Or.inl rfl

variable (h : Lessened S fs extra fs')

include h

theorem kept {p : Path} (hp : ¬ Garbage S fs extra p) : fs'.node p = fs.node p :=
  (h p).resolve_right fun hg => hp hg.1

theorem node_eq_some {p : Path} {m : Node} (hp : fs'.node p = some m) : fs.node p = some m := by
  rcases h p with hsame | ⟨-, hgone⟩
  · exact hsame ▸ hp
  · cases hgone.symm.trans hp

theorem isDir (p : Path) : fs'.isDir p = fs.isDir p := by
  rcases h p with hsame | ⟨⟨repo, -, -, n, d, rfl, hfile, -⟩, hgone⟩
  · exact Fs.isDir_congr hsame
  · obtain ⟨b, hb⟩ := Option.isSome_iff_exists.mp hfile
    simp [Fs.isDir, hgone, Fs.read_eq_some.mp hb]

theorem node_of_name {n : Name} (hn : digestOfName n = none) (p : Path) :
    fs'.node (n :: p) = fs.node (n :: p) := by
  refine h.kept ?_
  rintro ⟨repo, -, -, m, d, he, -, hname, -⟩
  cases (List.cons.inj he).1
  cases hn.symm.trans hname

theorem exists_root : fs'.exists? S.root = fs.exists? S.root := by
  unfold Fs.exists?
  rw [h.kept]
  rintro ⟨repo, hr, -, n, d, he, -⟩
  obtain ⟨-, segs, hs, rfl, -⟩ := Gc.mem_discoverRepos.mp hr
  have hlen := congrArg List.length he
  simp only [blobsDir, repoDir, join_relative _ hs, List.length_cons, List.length_append] at hlen
  omega

theorem mem_discoverRepos {repo : Str} :
    repo ∈ discoverRepos S.root fs' ↔ repo ∈ discoverRepos S.root fs :=
  mem_discoverRepos_congr h.isDir h.exists_root

theorem loadRepo_eq (repo : Str) (map : TagMap) : loadRepo S fs' repo map = loadRepo S fs repo map :=
  loadRepo_congr (h.node_of_name (by decide) _) map

theorem diskRoots_eq (repo : Str) : diskRoots S fs' repo extra = diskRoots S fs repo extra := by
  unfold diskRoots
  rw [h.loadRepo_eq]

/-- A live blob is no garbage. -/
theorem live_kept {repo : Str} (hplain : Plain repo) {d : Digest} (hd : d ∈ Live S fs repo extra) :
    fs'.node (blobPath S.root repo d) = fs.node (blobPath S.root repo d) := by
  refine h.kept ?_
  rintro ⟨repo', hr', -, n, d', he, -, hname, hdead⟩
  have hdirs := blobsDir_injective hplain (discovered_plain hr') (List.cons.inj he).2
  rw [← (List.cons.inj he).1, digestOfName_hexName] at hname
  cases hname
  exact hdead (hdirs ▸ hd)

/-- What is live does not depend on the garbage. -/
theorem live_eq {repo : Str} (hplain : Plain repo) : Live S fs' repo extra = Live S fs repo extra := by
  ext d
  constructor
  · refine Reach.mono (h.diskRoots_eq repo).subset fun x y _ hy => ?_
    unfold refs at hy ⊢
    cases hread : fs'.read (blobPath S.root repo x) with
    | none => simp [hread] at hy
    | some b =>
      rw [hread] at hy
      rw [Fs.read_eq_some.mpr (h.node_eq_some (Fs.read_eq_some.mp hread))]
      exact hy
  · refine Reach.mono (h.diskRoots_eq repo).superset fun x y hx hy => ?_
    unfold refs at hy ⊢
    rw [Fs.read_congr (h.live_kept hplain hx)]
    exact hy

/-- The garbage that is left. -/
theorem garbage_iff {p : Path} :
    Garbage S fs' extra p ↔ Garbage S fs extra p ∧ fs'.node p ≠ none := by
  constructor
  · rintro ⟨repo, hr, hdir, n, d, rfl, hfile, hname, hdead⟩
    have hr' := h.mem_discoverRepos.mp hr
    obtain ⟨b, hb⟩ := Option.isSome_iff_exists.mp hfile
    have hnode := Fs.read_eq_some.mp hb
    rw [h.live_eq (discovered_plain hr')] at hdead
    refine ⟨⟨repo, hr', h.isDir _ ▸ hdir, n, d, rfl, ?_, hname, hdead⟩, by rw [hnode]; exact Option.some_ne_none _⟩
    simp [Fs.isFile, Fs.read_eq_some.mpr (h.node_eq_some hnode)]
  · rintro ⟨⟨repo, hr, hdir, n, d, rfl, hfile, hname, hdead⟩, hthere⟩
    have hsame := (h _).resolve_right fun hgone => hthere hgone.2
    refine ⟨repo, h.mem_discoverRepos.mpr hr, (h.isDir _).trans hdir, n, d, rfl, ?_, hname, ?_⟩
    · rw [Fs.isFile, Fs.read_congr hsame]
      exact hfile
    · rw [h.live_eq (discovered_plain hr)]
      exact hdead

theorem trans (h' : Lessened S fs' extra fs'') : Lessened S fs extra fs'' := by
  intro p
  rcases h' p with hsame | ⟨hgarbage, hgone⟩
  · rw [hsame]
    exact h p
  · exact Or.inr ⟨(h.garbage_iff.mp hgarbage).1, hgone⟩

end Lessened

/-- The tree after a collection: the garbage is gone, the rest is as before. -/
structure Collected (S : Setup) (fs : Fs) (extra : List Digest) (fs' : Fs) : Prop where
  gone : ∀ p, Garbage S fs extra p → fs'.node p = none
  kept : ∀ p, ¬ Garbage S fs extra p → fs'.node p = fs.node p

theorem Collected.lessened {fs' : Fs} (h : Collected S fs extra fs') : Lessened S fs extra fs' := by
  intro p
  by_cases hg : Garbage S fs extra p
  · exact Or.inr ⟨hg, h.gone p hg⟩
  · exact Or.inl (h.kept p hg)

theorem collected_of_run {report : GcReport} {fs' : Fs}
    (h : run S fs .none extra false = (.ok report, fs')) : Collected S fs extra fs' := by
  rcases run_live S fs .none extra (fun _ => rfl) with
    ⟨-, -, e, -, he⟩ | ⟨-, done, result, rep, fs₁, hprog, he, -, hgone, hkeep⟩
  · rw [he] at h
    cases h
  · rw [he] at h
    obtain ⟨hres, rfl⟩ := Prod.mk.inj h
    rcases hprog with ⟨-, rfl, -⟩ | ⟨rfl, -⟩
    · exact ⟨fun p hp => hgone p ((unmarked_none p).mpr hp),
        fun p hp => hkeep p fun hu => hp ((unmarked_none p).mp hu)⟩
    · cases hres

/-- A run keeps the live blobs of a plainly named repository, discovered or not. -/
theorem run_keeps_live {repo : Str} (hplain : Plain repo) {d : Digest}
    (hd : d ∈ Live S fs repo extra) (dryRun : Bool) :
    (run S fs .none extra dryRun).2.node (blobPath S.root repo d) =
      fs.node (blobPath S.root repo d) := by
  cases dryRun with
  | true => rw [run_dry_fs]
  | false =>
    rcases run_live S fs .none extra (fun _ => rfl) with
      ⟨-, -, e, -, he⟩ | ⟨-, done, result, rep, fs₁, hprog, he, -, -, hkeep⟩
    · rw [he]
    · rw [he]
      refine hkeep _ ?_
      rintro ⟨repo', hr', -, n, d', hp, -, hname, hun⟩
      have hrepo := blobsDir_injective hplain (discovered_plain (hprog.subset hr'))
        (List.cons.inj hp).2
      rw [← (List.cons.inj hp).1, digestOfName_hexName] at hname
      cases hname
      subst hrepo
      rw [marked_none] at hun
      exact hun hd

end Exact

/-! A repository with a layer, a manifest that refers to it and is an extra root, and one more blob. -/

def layerDigest : Digest :=
  ⟨⟨"dac1d7cfa95021764849fd102524e141488c5e3a90f861dbb5a12d9ac8584f85".toList, by decide⟩⟩

def manifestDigest : Digest :=
  ⟨⟨"b1057b6789e19df5ad7767bbd3a1d9fe366a8c39eae21f86acedec7dad0c73e4".toList, by decide⟩⟩

def layerManifest : Json :=
  .obj [("layers".toList, .arr [.obj [("digest".toList, .str layerDigest.toStr)]])]

def layerManifestText : Str := "\x7b\"layers\":[\x7b\"digest\":\"".toList ++ layerDigest.toStr ++
  "\"\x7d]\x7d".toList

def faultSetup : Setup := Codec.server [] [(layerManifestText, layerManifest)]

def faultTree : Fs :=
  ((((emptyRoot (blobsDir faultSetup.root "app".toList)).set
    (blobPath faultSetup.root "app".toList layerDigest) (.file (Codec.utf8 "layer".toList))).set
    (blobPath faultSetup.root "app".toList manifestDigest) (.file (Codec.utf8 layerManifestText))))

section ReadFaults

variable (S : Setup) (fs : Fs) (read : Str → Digest → Bool) (extra : List Digest)

/-- A pattern of failing reads, without failing deletions. -/
def Faults.ofReads (read : Str → Digest → Bool) : Faults := ⟨read, fun _ => false⟩

/-- The contents of the blob parse as JSON, which is what the traversal takes for a
manifest. -/
def IsManifest (repo : Str) (d : Digest) : Prop :=
  ((fs.read (blobPath S.root repo d)).bind S.serde.fromSlice).isSome = true

/-- The traversal comes to a manifest that is there and cannot read it. -/
def UnreadManifest (repo : Str) (d : Digest) : Prop :=
  repo ∈ discoverRepos S.root fs ∧ d ∈ Marked S fs (.ofReads read) repo extra ∧
    IsManifest S fs repo d ∧ read repo d = true

def GcMessage.path : GcMessage → Path
  | .delete path => path

/-- No reachable blob is deleted, and every manifest that could not be read is recorded
unless the run fails without deleting. -/
def SafeRun (out : Except GcError GcReport × Fs) : Prop :=
  (∀ repo ∈ discoverRepos S.root fs, ∀ n d, digestOfName n = some d → d ∈ Live S fs repo extra →
    out.2.node (n :: blobsDir S.root repo) = fs.node (n :: blobsDir S.root repo)) ∧
  ((∃ e, out.1 = .error e ∧ ∀ p, out.2.node p = fs.node p) ∨
    ∀ repo d, UnreadManifest S fs read extra repo d → ∃ report, out.1 = .ok report ∧
      ∃ m ∈ report.errors, m.path = blobPath S.root repo d)

/-- A sidecar of a discovered repository does not load. -/
def SidecarFails : Prop := ∃ repo ∈ discoverRepos S.root fs, ∃ e, loadRepo S fs repo ∅ = .error e

/-- No reachable manifest has a failing read. -/
def ManifestsReadable : Prop :=
  ∀ repo ∈ discoverRepos S.root fs, ∀ d ∈ Live S fs repo extra, IsManifest S fs repo d →
    read repo d = false

/-- The sweep comes to a `blobs/sha256` that is no directory before it finds a file to
delete. -/
def StopsEarly : Prop :=
  ∃ done repo rest, discoverRepos S.root fs = done ++ repo :: rest ∧
    NotListable S.root fs repo ∧ (∀ r ∈ done, ¬ NotListable S.root fs r) ∧
    ∀ p, ¬ Unmarked S fs (.ofReads read) extra done p

variable {S fs read extra}

theorem isManifest_of_refs {repo : Str} {d y : Digest} (hy : y ∈ refs S fs repo d) :
    IsManifest S fs repo d := by
  unfold IsManifest
  unfold refs at hy
  split at hy
  · rename_i v hv
    rw [hv]
    rfl
  · cases hy

/-- A live digest is marked, or the way to it goes through an unread manifest. -/
theorem marked_or_unread (read : Str → Digest → Bool) {repo : Str} (hr : repo ∈ discoverRepos S.root fs) {d : Digest}
    (hd : d ∈ Live S fs repo extra) :
    d ∈ Marked S fs (.ofReads read) repo extra ∨ ∃ d', UnreadManifest S fs read extra repo d' := by
  induction hd with
  | root h => exact Or.inl (.root h)
  | step _ hy ih =>
    rename_i x y _
    rcases ih with hx | hx
    · cases hread : read repo x with
      | true => exact Or.inr ⟨x, hr, hx, isManifest_of_refs hy, hread⟩
      | false =>
        refine Or.inl (Reach.step hx ?_)
        have hseen : seenRefs S fs (.ofReads read) repo x = refs S fs repo x := by
          simp [seenRefs, Faults.ofReads, hread]
        rw [hseen]
        exact hy
    · exact Or.inr hx

theorem manifestsReadable_iff :
    ManifestsReadable S fs read extra ↔ ∀ repo d, ¬ UnreadManifest S fs read extra repo d := by
  constructor
  · rintro h repo d ⟨hr, hd, hman, hread⟩
    rw [h repo hr d (marked_subset_live repo hd) hman] at hread
    cases hread
  · intro h repo hr d hd hman
    rcases marked_or_unread read hr hd with hmark | ⟨d', hd'⟩
    · cases hread : read repo d with
      | false => rfl
      | true => exact absurd ⟨hr, hmark, hman, hread⟩ (h repo d)
    · exact absurd hd' (h repo d')

/-- Without unread manifests no reachable file is unmarked. -/
theorem not_unmarked_of_live (hread : ManifestsReadable S fs read extra) {done : List Str}
    (hdone : done ⊆ discoverRepos S.root fs) {repo : Str} (hr : repo ∈ discoverRepos S.root fs)
    {n : Name} {d : Digest} (hname : digestOfName n = some d) (hd : d ∈ Live S fs repo extra) :
    ¬ Unmarked S fs (.ofReads read) extra done (n :: blobsDir S.root repo) := by
  rintro ⟨repo', hr', -, m, d', he, -, hname', hun⟩
  have hrepo := blobsDir_injective (discovered_plain hr) (discovered_plain (hdone hr'))
    (List.cons.inj he).2
  rw [← (List.cons.inj he).1, hname] at hname'
  cases hname'
  subst hrepo
  rcases marked_or_unread read hr hd with hmark | ⟨d', hd'⟩
  · exact hun hmark
  · exact manifestsReadable_iff.mp hread repo d' hd'

/-- The first element with a property splits a list in one way. -/
theorem eq_of_first {α : Type} {P : α → Prop} {l done done' rest rest' : List α} {a a' : α}
    (h : l = done ++ a :: rest) (h' : l = done' ++ a' :: rest') (ha : P a) (ha' : P a')
    (hdone : ∀ x ∈ done, ¬ P x) (hdone' : ∀ x ∈ done', ¬ P x) : done = done' := by
  induction done generalizing l done' with
  | nil =>
    cases done' with
    | nil => rfl
    | cons b done' =>
      have hab : a = b := (List.cons.inj (h.symm.trans h')).1
      exact absurd (hab ▸ ha) (hdone' b List.mem_cons_self)
  | cons b done ih =>
    cases done' with
    | nil =>
      have hab : b = a' := (List.cons.inj (h.symm.trans h')).1
      exact absurd (hab ▸ ha') (hdone b List.mem_cons_self)
    | cons b' done' =>
      obtain ⟨rfl, htail⟩ := List.cons.inj (h.symm.trans h')
      rw [ih rfl htail (fun x hx => hdone x (List.mem_cons_of_mem _ hx))
        (fun x hx => hdone' x (List.mem_cons_of_mem _ hx))]

/-- When a run with failing reads is safe. -/
theorem safe_iff (S : Setup) (fs : Fs) (read : Str → Digest → Bool) (extra : List Digest) :
    SafeRun S fs read extra (run S fs (.ofReads read) extra false) ↔
      SidecarFails S fs ∨ ManifestsReadable S fs read extra ∨ StopsEarly S fs read extra := by
  rcases run_live S fs (.ofReads read) extra (fun _ => rfl) with
    ⟨repo, hr, e, hload, he⟩ | ⟨hloads, done, result, report, fs', hprog, he, herrors, hgone, hkeep⟩
  · rw [he]
    refine ⟨fun _ => Or.inl ⟨repo, hr, e, hload⟩, fun _ => ⟨fun _ _ _ _ _ _ => rfl, ?_⟩⟩
    exact Or.inl ⟨_, rfl, fun _ => rfl⟩
  · rw [he]
    have hfails : ¬ SidecarFails S fs := by
      rintro ⟨repo, hr, e, hload⟩
      obtain ⟨map, hmap⟩ := hloads repo hr
      rw [hmap] at hload
      cases hload
    constructor
    · rintro ⟨-, hrec⟩
      refine Or.inr ?_
      rcases hrec with ⟨e, herr, hsame⟩ | hrec
      · -- the run failed in the sweep, before anything was deleted
        rcases hprog with ⟨rfl, -⟩ | ⟨-, repo, rest, hsplit, hno, hdone⟩
        · cases herr
        · refine Or.inr ⟨done, repo, rest, hsplit, hno, hdone, fun p hp => ?_⟩
          have hnone := hgone p hp
          obtain ⟨r, -, -, n, d, rfl, hfile, -⟩ := hp
          obtain ⟨b, hb⟩ := Option.isSome_iff_exists.mp hfile
          rw [hsame, Fs.read_eq_some.mp hb] at hnone
          cases hnone
      · refine Or.inl (manifestsReadable_iff.mpr fun repo d hun => ?_)
        obtain ⟨rep, hrep, m, hm, -⟩ := hrec repo d hun
        rcases hprog with ⟨rfl, -⟩ | ⟨rfl, -⟩
        · cases hrep
          rw [herrors] at hm
          cases hm
        · cases hrep
    · rintro (h | hread | ⟨done', repo, rest, hsplit, hno, hdone', hnone⟩)
      · exact absurd h hfails
      · refine ⟨fun repo hr n d hname hd => ?_, Or.inr fun repo d hun => ?_⟩
        · exact hkeep _ (not_unmarked_of_live hread hprog.subset hr hname hd)
        · exact absurd hun (manifestsReadable_iff.mp hread repo d)
      · rcases hprog with ⟨-, -, hall⟩ | ⟨rfl, repo₂, rest₂, hsplit₂, hno₂, hdone₂⟩
        · exact absurd hno (hall repo (by rw [hsplit]; simp))
        · have hsame : done = done' :=
            eq_of_first hsplit₂ hsplit hno₂ hno hdone₂ hdone'
          subst hsame
          have hfs : ∀ p, fs'.node p = fs.node p := fun p => hkeep p (hnone p)
          exact ⟨fun _ _ _ _ _ _ => hfs _, Or.inl ⟨.io, rfl, hfs⟩⟩

end ReadFaults

/-! The manifest that refers to the layer is an extra root, and reading it fails. -/

def faultRead (_ : Str) (d : Digest) : Bool := d = manifestDigest

theorem layerDigest_live : layerDigest ∈ Live faultSetup faultTree "app".toList [manifestDigest] := by
  have hroot : manifestDigest ∈ diskRoots faultSetup faultTree "app".toList [manifestDigest] :=
    ⟨∅, by rfl, by decide +kernel⟩
  exact Reach.step (.root hroot) (by decide +kernel)

/-- A run that cannot read a manifest deletes the layer it refers to. -/
theorem unread_manifest_loses_layer :
    ¬ SafeRun faultSetup faultTree faultRead [manifestDigest]
      (run faultSetup faultTree (.ofReads faultRead) [manifestDigest] false) := by
  rintro ⟨hkept, -⟩
  have hdiscovered : "app".toList ∈ discoverRepos faultSetup.root faultTree := by decide +kernel
  have hsame := hkept "app".toList hdiscovered (hexName layerDigest) layerDigest
    (digestOfName_hexName _) layerDigest_live
  revert hsame
  decide +kernel

end Quill.Gc
