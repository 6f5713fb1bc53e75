import Quill.Base.Traces
import Quill.Storage.GcAccounting

/-!
# Collections that are interrupted

A collection removes one file at a time, so it can be killed after any entry of its sweep (`runUntil`),
and any of its deletions can fail. What it leaves is the tree that it found without some of the garbage
(`Lessened`), and what is garbage afterwards was garbage before. Hence any number of such attempts, one after the other, lose nothing that a
tag reaches, and the next collection that succeeds leaves the tree that it would have left at the start
(`interrupted_collections_converge`).
-/

namespace Quill.Gc

open Text Files Cas Marking LocalTags

/-! ## The sweep up to an entry -/

section Until

variable {root : Path} {faults : Faults} {reachable : Finset (Str × Digest)} {dryRun : Bool}

/-- The files when the sweep is stopped after `k` entries. -/
def sweepUntil (root : Path) (faults : Faults) (reachable : Finset (Str × Digest)) (dryRun : Bool) :
    List Str → Nat → GcReport × Fs → Fs
  | [], _, st => st.2
  | repo :: repos, k, st =>
    let names := entries st.2 (blobsDir root repo)
    if k ≤ names.length then
      ((names.take k).foldl (sweepEntry root faults reachable dryRun repo) st).2
    else
      match sweepRepo root faults reachable dryRun repo st with
      | (.ok (), st') => sweepUntil root faults reachable dryRun repos (k - names.length) st'
      | (.error _, st') => st'.2

/-- `GarbageCollector::run`, killed after `k` entries of its sweep; marking changes no file. -/
def runUntil (S : Setup) (fs : Fs) (faults : Faults) (extra : List Digest) (dryRun : Bool) (k : Nat) : Fs :=
  match markPhase S fs faults extra (discoverRepos S.root fs) ∅ 0 with
  | .error _ => fs
  | .ok (reachable, roots) => sweepUntil S.root faults reachable dryRun (discoverRepos S.root fs) k
      (markReport S fs reachable roots, fs)

/-- A sweep that is stopped late enough has come to its end. -/
theorem sweepUntil_eq_sweepPhase (repos : List Str) (st : GcReport × Fs) :
    ∃ n, ∀ k, n ≤ k → sweepUntil root faults reachable dryRun repos k st =
      (sweepPhase root faults reachable dryRun repos st).2.2 := by
  induction repos generalizing st with
  | nil => exact ⟨0, fun _ _ => rfl⟩
  | cons repo repos ih =>
    obtain ⟨len, hlen⟩ : ∃ len, len = (entries st.2 (blobsDir root repo)).length := ⟨_, rfl⟩
    cases hrepo : sweepRepo root faults reachable dryRun repo st with
    | mk r st' =>
      obtain ⟨n, hn⟩ := ih st'
      refine ⟨len + 1 + n, fun k hk => ?_⟩
      have hlate : ¬ k ≤ (entries st.2 (blobsDir root repo)).length := by omega
      rw [sweepUntil, if_neg hlate, sweepPhase, hrepo]
      cases r with
      | error e => rfl
      | ok u => exact hn _ (by omega)

theorem run_eq_runUntil (S : Setup) (fs : Fs) (faults : Faults) (extra : List Digest) (dryRun : Bool) :
    ∃ k, (run S fs faults extra dryRun).2 = runUntil S fs faults extra dryRun k := by
  cases hmark : markPhase S fs faults extra (discoverRepos S.root fs) ∅ 0 with
  | error e => exact ⟨0, by simp only [run, runUntil, hmark]⟩
  | ok out =>
    obtain ⟨reachable, roots⟩ := out
    obtain ⟨n, hn⟩ : ∃ n, ∀ k, n ≤ k →
        sweepUntil S.root faults reachable dryRun (discoverRepos S.root fs) k
          (markReport S fs reachable roots, fs) = _ := sweepUntil_eq_sweepPhase _ _
    refine ⟨n, ?_⟩
    rw [run_of_mark hmark dryRun rfl]
    simp only [runUntil, hmark]
    exact (hn n le_rfl).symm

theorem foldl_sweepEntry_keep {P : GcReport × Fs → Prop} {repo : Str}
    (h : ∀ st n, st.2.isDir (blobsDir root repo) = true → P st →
      P (sweepEntry root faults reachable dryRun repo st n)) (names : List Name)
    {st : GcReport × Fs} (hdir : st.2.isDir (blobsDir root repo) = true) (hst : P st) :
    P (names.foldl (sweepEntry root faults reachable dryRun repo) st) := by
  induction names generalizing st with
  | nil => exact hst
  | cons n names ih =>
    refine ih ?_ (h st n hdir hst)
    rw [sweepEntry_isDir]
    exact hdir

/-- What every entry of a listed directory preserves holds of what an interrupted sweep leaves. -/
theorem sweepUntil_keep {P : Fs → Prop} {repos : List Str}
    (h : ∀ repo ∈ repos, ∀ (st : GcReport × Fs) n, st.2.isDir (blobsDir root repo) = true → P st.2 →
      P (sweepEntry root faults reachable dryRun repo st n).2) (k : Nat)
    {st : GcReport × Fs} (hst : P st.2) : P (sweepUntil root faults reachable dryRun repos k st) := by
  induction repos generalizing k st with
  | nil => exact hst
  | cons repo repos ih =>
    have hrest := fun r hr => h r (List.mem_cons_of_mem repo hr)
    have hfold := foldl_sweepEntry_keep (P := fun st => P st.2) (h repo List.mem_cons_self)
    unfold sweepUntil
    simp only
    split
    · cases hdir : st.2.isDir (blobsDir root repo) with
      | true => exact hfold _ hdir hst
      | false =>
        simp only [entries, hdir, Bool.false_eq_true, if_false, List.take_nil, List.foldl_nil]
        exact hst
    · rcases sweepRepo_cases root faults reachable dryRun repo st with ⟨-, he⟩ | ⟨hdir, he⟩ | ⟨-, he⟩
      · rw [he]
        exact hst
      · rw [he]
        exact ih hrest _ (hfold _ hdir hst)
      · rw [he]
        exact ih hrest _ hst

end Until

/-! ## Less garbage -/

/-- An entry of the sweep that is removed is garbage. -/
theorem Lessened.sweepEntry {S : Setup} {fs fs' : Fs} {extra : List Digest} {faults : Faults}
    {reachable : Finset (Str × Digest)} {dryRun : Bool} {repo : Str} (h : Lessened S fs extra fs')
    (hr : repo ∈ discoverRepos S.root fs) (hreach : ∀ d ∈ Live S fs repo extra, (repo, d) ∈ reachable)
    (hdir : fs'.isDir (blobsDir S.root repo) = true) (report : GcReport) (n : Name) :
    Lessened S fs extra (Gc.sweepEntry S.root faults reachable dryRun repo (report, fs') n).2 := by
  rcases sweepEntry_cases S.root faults reachable dryRun repo (report, fs') n
    with ⟨-, he⟩ | ⟨b, d, hread, hname, ⟨-, he⟩ | ⟨-, -, -, he⟩ | ⟨hmark, -, -, he⟩⟩
  · rw [he]
    exact h
  · rw [he]
    exact h
  · rw [he]
    exact h
  · rw [he]
    intro p
    rw [Fs.node_del]
    by_cases hp : p = n :: blobsDir S.root repo
    · subst hp
      rw [if_pos rfl]
      have hfile : fs.read (n :: blobsDir S.root repo) = some b :=
        Fs.read_eq_some.mpr (h.node_eq_some (Fs.read_eq_some.mp hread))
      refine Or.inr ⟨⟨repo, hr, h.isDir _ ▸ hdir, n, d, rfl, ?_, hname, fun hd => hmark (hreach d hd)⟩, rfl⟩
      rw [Fs.isFile, hfile]
      rfl
    · rw [if_neg hp]
      exact h p

/-! ## Attempts -/

/-- A collection whose deletions fail where `delete` says so. It ended, with a report or an error, or it
was killed after `k` entries. -/
inductive Attempt where
  | ended (delete : Path → Bool) (dryRun : Bool)
  | killed (delete : Path → Bool) (dryRun : Bool) (k : Nat)

/-- The files that an attempt leaves. -/
inductive Attempts (S : Setup) (extra : List Digest) (fs : Fs) : Attempt → Fs → Prop
  | ended (delete : Path → Bool) (dryRun : Bool) :
      Attempts S extra fs (.ended delete dryRun) (run S fs (.ofDeletes delete) extra dryRun).2
  | killed (delete : Path → Bool) (dryRun : Bool) (k : Nat) :
      Attempts S extra fs (.killed delete dryRun k) (runUntil S fs (.ofDeletes delete) extra dryRun k)

section Attempts

variable {S : Setup} {fs fs' : Fs} {extra : List Digest}

theorem lessened_runUntil (delete : Path → Bool) (dryRun : Bool) (k : Nat) :
    Lessened S fs extra (runUntil S fs (.ofDeletes delete) extra dryRun k) := by
  unfold runUntil
  cases hmark : markPhase S fs (.ofDeletes delete) extra (discoverRepos S.root fs) ∅ 0 with
  | error e => exact .refl fs
  | ok out =>
    obtain ⟨reachable, roots⟩ := out
    -- reads do not fail, so what is live is marked
    have hreach : ∀ repo ∈ discoverRepos S.root fs, ∀ d ∈ Live S fs repo extra, (repo, d) ∈ reachable :=
      fun repo hr d hd => (marked_iff hmark (repo, d)).mpr ⟨hr, hd⟩
    exact sweepUntil_keep (P := fun fs' => Lessened S fs extra fs')
      (fun repo hr st n hdir h => h.sweepEntry hr (hreach repo hr) hdir st.1 n) k (.refl fs)

theorem Attempts.lessened {a : Attempt} (h : Attempts S extra fs a fs') : Lessened S fs extra fs' := by
  cases h with
  | ended delete dryRun =>
    obtain ⟨k, hk⟩ := run_eq_runUntil S fs (.ofDeletes delete) extra dryRun
    rw [hk]
    exact lessened_runUntil delete dryRun k
  | killed delete dryRun k => exact lessened_runUntil delete dryRun k

theorem lessened_of_trace {attempts : List Attempt} (h : Trace (Attempts S extra) fs attempts fs') :
    Lessened S fs extra fs' :=
  h.keep (I := Lessened S fs extra) (P := fun _ => True) (fun _ hstep h => h.trans hstep.lessened)
    (fun _ _ => trivial) (.refl fs)

/-- Whether a collection without faults succeeds does not depend on the garbage, nor does what it
leaves. -/
theorem Lessened.run_eq (h : Lessened S fs extra fs') {report : GcReport} {fs₁ : Fs}
    (hrun : run S fs .none extra false = (.ok report, fs₁)) :
    ∃ report' fs₂, run S fs' .none extra false = (.ok report', fs₂) ∧ ∀ p, fs₂.node p = fs₁.node p := by
  have hcollected := collected_of_run hrun
  obtain ⟨hloads, hlists⟩ : (∀ repo ∈ discoverRepos S.root fs, ∃ map, loadRepo S fs repo ∅ = .ok map) ∧
      ∀ repo ∈ discoverRepos S.root fs, ¬ NotListable S.root fs repo := by
    rcases run_live S fs .none extra (fun _ => rfl) with
      ⟨-, -, e, -, he⟩ | ⟨hloads, done, result, rep, fs₀, hprog, he, -⟩
    · cases he.symm.trans hrun
    · rcases hprog with ⟨-, -, hlists⟩ | ⟨rfl, -⟩
      · exact ⟨hloads, hlists⟩
      · cases he.symm.trans hrun
  have hlists' : ∀ repo, NotListable S.root fs' repo ↔ NotListable S.root fs repo := fun repo =>
    notListable_congr (h.node_of_name digestOfName_sha256Name _)
  rcases run_live S fs' .none extra (fun _ => rfl) with
    ⟨repo, hr, e, hload, -⟩ | ⟨-, done, result, report', fs₂, hprog, he, -⟩
  · obtain ⟨map, hmap⟩ := hloads repo (h.mem_discoverRepos.mp hr)
    cases ((h.loadRepo_eq repo ∅).trans hmap).symm.trans hload
  · rcases hprog with ⟨rfl, -⟩ | ⟨rfl, repo, rest, hsplit, hno, -⟩
    · refine ⟨report', fs₂, he, fun p => ?_⟩
      have hcollected' := collected_of_run he
      by_cases hg : Garbage S fs extra p
      · rw [hcollected.gone p hg]
        by_cases hthere : fs'.node p = none
        · rw [hcollected'.kept p fun hg' => (h.garbage_iff.mp hg').2 hthere, hthere]
        · exact hcollected'.gone p (h.garbage_iff.mpr ⟨hg, hthere⟩)
      · rw [hcollected.kept p hg, hcollected'.kept p fun hg' => hg (h.garbage_iff.mp hg').1, h.kept hg]
    · have hr : repo ∈ discoverRepos S.root fs' := by rw [hsplit]; simp
      exact absurd ((hlists' repo).mp hno) (hlists repo (h.mem_discoverRepos.mp hr))

end Attempts

/-- Whatever attempts at a collection came before, each of them killed or with failing deletions or to
its end, the live blobs and everything else that is no garbage are as at the start, and where a
collection of the tree at the start would succeed, one succeeds now and leaves the same tree. -/
theorem interrupted_collections_converge (S : Setup) (extra : List Digest) {fs fs' : Fs}
    {attempts : List Attempt} (h : Trace (Attempts S extra) fs attempts fs') :
    (∀ p, ¬ Garbage S fs extra p → fs'.node p = fs.node p) ∧
    (∀ repo, Plain repo → ∀ d ∈ Live S fs repo extra,
      fs'.node (blobPath S.root repo d) = fs.node (blobPath S.root repo d)) ∧
    (∀ p, Garbage S fs' extra p ↔ Garbage S fs extra p ∧ fs'.node p ≠ none) ∧
    ∀ report fs₁, run S fs .none extra false = (.ok report, fs₁) →
      ∃ report' fs₂, run S fs' .none extra false = (.ok report', fs₂) ∧ ∀ p, fs₂.node p = fs₁.node p := by
  have hless := lessened_of_trace h
  exact ⟨fun p hp => hless.kept hp, fun repo hplain d hd => hless.live_kept hplain hd,
    fun p => hless.garbage_iff, fun report fs₁ hrun => hless.run_eq hrun⟩

/-! Of two blobs that no tag refers to, one is left by a collection that is killed after its first
entry. -/

def killedTree : Fs := runUntil faultSetup faultTree (.ofDeletes fun _ => false) [] false 1

theorem killed_collection_is_resumed : killedTree.isFile layerPath = true ∧
    ∃ report fs₂, run faultSetup killedTree .none [] false = (.ok report, fs₂) ∧
      fs₂.node layerPath = none := by
  have hfacts : killedTree.isFile layerPath = true ∧
      (run faultSetup faultTree .none [] false).1.isOk = true ∧
        (run faultSetup faultTree .none [] false).2.node layerPath = none := by decide +kernel
  obtain ⟨hleft, hok, hgone⟩ := hfacts
  have hkilled : Trace (Attempts faultSetup []) faultTree [.killed (fun _ => false) false 1] killedTree :=
    .snoc .nil (.killed _ _ _)
  refine ⟨hleft, ?_⟩
  rcases hrun : run faultSetup faultTree .none [] false with ⟨e | report, fs₁⟩
  · rw [hrun] at hok
    cases hok
  · rw [hrun] at hgone
    obtain ⟨report', fs₂, hrun', hsame⟩ :=
      (interrupted_collections_converge faultSetup [] hkilled).2.2.2 report fs₁ hrun
    exact ⟨report', fs₂, hrun', (hsame layerPath).trans hgone⟩

end Quill.Gc
