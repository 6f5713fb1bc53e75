import Quill.Storage.GcSpec

/-!
# Sweeping

Sweeping a repository removes the digest-named regular files of its `blobs/sha256` that are
not marked and whose deletion does not fail; it counts every digest-named regular file.
Different repositories have different directories, so that the sweep of one neither
removes nor hides a file of another (`sweepPhase_live`). A dry run leaves the file system
as it is and counts the same files (`sweepPhase_dry`, `sweepPhase_onDisk`).
-/

namespace Quill.Gc

open Text Files Cas

variable {root : Path} {faults : Faults} {reachable : Finset (Str × Digest)}

/-- A digest-named regular file of a directory. -/
def isBlobFile (fs : Fs) (dir : Path) (n : Name) : Bool :=
  (fs.read (n :: dir)).isSome && (digestOfName n).isSome

/-- The sweep of `repo` removes the entry `n` of `blobs/sha256`. -/
def DoomedEntry (root : Path) (faults : Faults) (reachable : Finset (Str × Digest)) (fs : Fs)
    (repo : Str) (n : Name) : Prop :=
  ∃ b d, fs.read (n :: blobsDir root repo) = some b ∧ digestOfName n = some d ∧
    (repo, d) ∉ reachable ∧ faults.delete (n :: blobsDir root repo) = false

/-- The sweep of these repositories removes the file at `p`. -/
def Doomed (root : Path) (faults : Faults) (reachable : Finset (Str × Digest)) (fs : Fs)
    (repos : List Str) (p : Path) : Prop :=
  ∃ repo ∈ repos, fs.isDir (blobsDir root repo) = true ∧
    ∃ n, p = n :: blobsDir root repo ∧ DoomedEntry root faults reachable fs repo n

theorem digestOfName_sha256Name : digestOfName sha256Name = none := by decide

theorem blobsDir_injective {repo repo' : Str} (h : Plain repo) (h' : Plain repo')
    (he : blobsDir root repo = blobsDir root repo') : repo = repo' := by
  simp only [blobsDir, repoDir, List.cons.injEq, true_and] at he
  exact h.join_injective h' he

theorem filterMap_erase_of_none {α β : Type} [DecidableEq α] {f : α → Option β} {a : α}
    (h : f a = none) (l : List α) : (l.erase a).filterMap f = l.filterMap f := by
  induction l with
  | nil => rfl
  | cons b l ih =>
    by_cases hb : b = a
    · subst hb
      rw [List.erase_cons_head, List.filterMap_cons_none h]
    · rw [List.erase_cons_tail (by simpa using hb), List.filterMap_cons, List.filterMap_cons, ih]

theorem readDir_del {fs : Fs} {n : Name} {p q : Path} (hq : q ≠ p) :
    (fs.del (n :: p)).readDir q = fs.readDir q := by
  unfold Fs.readDir Fs.del
  rw [AList.keys_erase]
  exact filterMap_erase_of_none (by simp [hq.symm]) _

/-! ## One entry -/

/-- What the sweep does with an entry: skip it, keep it, record that its deletion failed,
or delete it. -/
theorem sweepEntry_cases (root : Path) (faults : Faults) (reachable : Finset (Str × Digest))
    (dryRun : Bool) (repo : Str) (st : GcReport × Fs) (n : Name) :
    (isBlobFile st.2 (blobsDir root repo) n = false ∧
      sweepEntry root faults reachable dryRun repo st n = st) ∨
    ∃ b d, st.2.read (n :: blobsDir root repo) = some b ∧ digestOfName n = some d ∧
      (((repo, d) ∈ reachable ∨ dryRun = true) ∧
        sweepEntry root faults reachable dryRun repo st n =
          ({ st.1 with onDiskBlobs := st.1.onDiskBlobs + 1 }, st.2) ∨
      (repo, d) ∉ reachable ∧ dryRun = false ∧ faults.delete (n :: blobsDir root repo) = true ∧
        sweepEntry root faults reachable dryRun repo st n =
          ({ st.1 with
              onDiskBlobs := st.1.onDiskBlobs + 1
              errors := st.1.errors ++ [.delete (n :: blobsDir root repo)] }, st.2) ∨
      (repo, d) ∉ reachable ∧ dryRun = false ∧ faults.delete (n :: blobsDir root repo) = false ∧
        sweepEntry root faults reachable dryRun repo st n =
          ({ st.1 with
              onDiskBlobs := st.1.onDiskBlobs + 1
              deleted := st.1.deleted + 1
              bytesFreed := min (st.1.bytesFreed + b.length) (2 ^ 64 - 1) },
            st.2.del (n :: blobsDir root repo))) := by
  cases hread : st.2.read (n :: blobsDir root repo) with
  | none => exact Or.inl (by simp [isBlobFile, sweepEntry, hread])
  | some b =>
    cases hname : digestOfName n with
    | none => exact Or.inl (by simp [isBlobFile, sweepEntry, hread, hname])
    | some d =>
      refine Or.inr ⟨b, d, rfl, rfl, ?_⟩
      by_cases hmark : (repo, d) ∈ reachable
      · exact Or.inl ⟨Or.inl hmark, by simp [sweepEntry, hread, hname, hmark]⟩
      · cases dryRun with
        | true => exact Or.inl ⟨Or.inr rfl, by simp [sweepEntry, hread, hname]⟩
        | false =>
          cases hdel : faults.delete (n :: blobsDir root repo) with
          | true => exact Or.inr (Or.inl ⟨hmark, rfl, rfl, by simp [sweepEntry, *]⟩)
          | false => exact Or.inr (Or.inr ⟨hmark, rfl, rfl, by simp [sweepEntry, *]⟩)

theorem sweepEntry_live (repo : Str) (st : GcReport × Fs) (n : Name) :
    (DoomedEntry root faults reachable st.2 repo n ∧
      (sweepEntry root faults reachable false repo st n).2 = st.2.del (n :: blobsDir root repo)) ∨
    (¬ DoomedEntry root faults reachable st.2 repo n ∧
      (sweepEntry root faults reachable false repo st n).2 = st.2) := by
  unfold DoomedEntry
  rcases sweepEntry_cases root faults reachable false repo st n
    with ⟨hno, he⟩ | ⟨b, d, hread, hname, h⟩
  · refine Or.inr ⟨?_, by rw [he]⟩
    rintro ⟨b, d, hread, hname, -⟩
    simp [isBlobFile, hread, hname] at hno
  · simp only [hread, hname, Option.some.injEq]
    rcases h with ⟨hkeep, he⟩ | ⟨-, -, hdel, he⟩ | ⟨hmark, -, hdel, he⟩
    · refine Or.inr ⟨?_, by rw [he]⟩
      rintro ⟨b', d', -, rfl, hmark, -⟩
      rcases hkeep with hkeep | hdry
      · exact hmark hkeep
      · cases hdry
    · refine Or.inr ⟨?_, by rw [he]⟩
      rintro ⟨b', d', -, -, -, hdel'⟩
      rw [hdel] at hdel'
      cases hdel'
    · exact Or.inl ⟨⟨b, d, rfl, rfl, hmark, hdel⟩, by rw [he]⟩

theorem sweepEntry_dry (repo : Str) (st : GcReport × Fs) (n : Name) :
    (sweepEntry root faults reachable true repo st n).2 = st.2 := by
  rcases sweepEntry_cases root faults reachable true repo st n
    with ⟨-, he⟩ | ⟨b, d, -, -, ⟨-, he⟩ | ⟨-, hdry, -⟩ | ⟨-, hdry, -⟩⟩
  · rw [he]
  · rw [he]
  · cases hdry
  · cases hdry

theorem sweepEntry_onDisk (root : Path) (faults : Faults) (reachable : Finset (Str × Digest))
    (dryRun : Bool) (repo : Str) (st : GcReport × Fs) (n : Name) :
    (sweepEntry root faults reachable dryRun repo st n).1.onDiskBlobs =
      st.1.onDiskBlobs + if isBlobFile st.2 (blobsDir root repo) n then 1 else 0 := by
  rcases sweepEntry_cases root faults reachable dryRun repo st n
    with ⟨hno, he⟩ | ⟨b, d, hread, hname, h⟩
  · simp [he, hno]
  · have hblob : isBlobFile st.2 (blobsDir root repo) n = true := by simp [isBlobFile, hread, hname]
    rcases h with ⟨-, he⟩ | ⟨-, -, -, he⟩ | ⟨-, -, -, he⟩ <;> simp [he, hblob]

/-- Without failing deletions no message is recorded. -/
theorem sweepEntry_errors (hdelete : ∀ p, faults.delete p = false) (dryRun : Bool) (repo : Str)
    (st : GcReport × Fs) (n : Name) :
    (sweepEntry root faults reachable dryRun repo st n).1.errors = st.1.errors := by
  rcases sweepEntry_cases root faults reachable dryRun repo st n
    with ⟨-, he⟩ | ⟨b, d, -, -, ⟨-, he⟩ | ⟨-, -, hdel, -⟩ | ⟨-, -, -, he⟩⟩
  · rw [he]
  · rw [he]
  · rw [hdelete] at hdel
    cases hdel
  · rw [he]

/-! ## One directory -/

/-- The listed doomed files are gone; nothing else has changed. -/
theorem foldl_sweepEntry_live (root : Path) (faults : Faults) (reachable : Finset (Str × Digest))
    (repo : Str) {names : List Name} (st : GcReport × Fs)
    (hnodup : names.Nodup) {st' : GcReport × Fs}
    (h : st' = names.foldl (sweepEntry root faults reachable false repo) st) :
    (∀ n ∈ names, DoomedEntry root faults reachable st.2 repo n →
      st'.2.node (n :: blobsDir root repo) = none) ∧
    (∀ p, (∀ n ∈ names, p = n :: blobsDir root repo →
        ¬ DoomedEntry root faults reachable st.2 repo n) → st'.2.node p = st.2.node p) ∧
    (∀ q, q ≠ blobsDir root repo → st'.2.readDir q = st.2.readDir q) ∧
    st'.1.onDiskBlobs = st.1.onDiskBlobs + names.countP (isBlobFile st.2 (blobsDir root repo)) := by
  induction names generalizing st with
  | nil =>
    subst h
    exact ⟨by simp, fun _ _ => rfl, fun _ _ => rfl, by simp⟩
  | cons n names ih =>
    obtain ⟨hn, hnames⟩ := List.nodup_cons.mp hnodup
    obtain ⟨h1, h2, h3, h4⟩ := ih (sweepEntry root faults reachable false repo st n) hnames h
    have hcount := sweepEntry_onDisk root faults reachable
      false repo st n
    -- the entry `n` does not touch the other entries
    have hother : ∀ p, p ≠ n :: blobsDir root repo →
        (sweepEntry root faults reachable false repo st n).2.node p = st.2.node p := by
      intro p hp
      rcases sweepEntry_live repo st n with ⟨-, he⟩ | ⟨-, he⟩
      · rw [he, Fs.node_del, if_neg hp]
      · rw [he]
    have hne : ∀ m ∈ names, m :: blobsDir root repo ≠ n :: blobsDir root repo := by
      intro m hm he
      cases he
      exact hn hm
    have hread : ∀ m ∈ names, (sweepEntry root faults reachable false repo st n).2.read
        (m :: blobsDir root repo) = st.2.read (m :: blobsDir root repo) :=
      fun m hm => Fs.read_congr (hother _ (hne m hm))
    have hdoomed : ∀ m ∈ names, (DoomedEntry root faults reachable
        (sweepEntry root faults reachable false repo st n).2 repo m ↔
          DoomedEntry root faults reachable st.2 repo m) := by
      intro m hm
      simp only [DoomedEntry, hread m hm]
    refine ⟨?_, ?_, ?_, ?_⟩
    · intro m hm hd
      rcases List.mem_cons.mp hm with rfl | hm
      · have hkeep : st'.2.node (m :: blobsDir root repo) =
            (sweepEntry root faults reachable false repo st m).2.node (m :: blobsDir root repo) :=
          h2 _ fun k hk he => absurd he.symm (hne k hk)
        rcases sweepEntry_live repo st m with ⟨-, he⟩ | ⟨hnot, -⟩
        · rw [hkeep, he, Fs.node_del, if_pos rfl]
        · exact absurd hd hnot
      · exact h1 m hm ((hdoomed m hm).mpr hd)
    · intro p hp
      have hrest : st'.2.node p = (sweepEntry root faults reachable false repo st n).2.node p :=
        h2 p fun k hk he hd => hp k (List.mem_cons_of_mem _ hk) he ((hdoomed k hk).mp hd)
      rw [hrest]
      by_cases hpn : p = n :: blobsDir root repo
      · rcases sweepEntry_live repo st n with ⟨hd, -⟩ | ⟨-, he⟩
        · exact absurd hd (hp n List.mem_cons_self hpn)
        · rw [he]
      · exact hother p hpn
    · intro q hq
      rw [h3 q hq]
      rcases sweepEntry_live repo st n with ⟨-, he⟩ | ⟨-, he⟩
      · rw [he, readDir_del hq]
      · rw [he]
    · have hcongr : names.countP (isBlobFile (sweepEntry root faults reachable false repo st n).2
          (blobsDir root repo)) = names.countP (isBlobFile st.2 (blobsDir root repo)) := by
        refine List.countP_congr fun m hm => ?_
        rw [isBlobFile, isBlobFile, hread m hm]
      rw [h4, hcount, hcongr, List.countP_cons]
      omega

/-- `blobs/sha256` of the repository is there and cannot be listed. -/
def NotListable (root : Path) (fs : Fs) (repo : Str) : Prop :=
  fs.exists? (blobsDir root repo) = true ∧ fs.isDir (blobsDir root repo) = false

/-- The sweep of one repository: it stops at a directory that cannot be listed, has nothing
to do when there is none, and goes through its entries otherwise. -/
theorem sweepRepo_cases (root : Path) (faults : Faults) (reachable : Finset (Str × Digest))
    (dryRun : Bool) (repo : Str) (st : GcReport × Fs) :
    (NotListable root st.2 repo ∧
      sweepRepo root faults reachable dryRun repo st = (.error .io, st)) ∨
    (st.2.isDir (blobsDir root repo) = true ∧ sweepRepo root faults reachable dryRun repo st =
      (.ok (), (st.2.readDir (blobsDir root repo)).foldl
        (sweepEntry root faults reachable dryRun repo) st)) ∨
    (st.2.exists? (blobsDir root repo) = false ∧
      sweepRepo root faults reachable dryRun repo st = (.ok (), st)) := by
  unfold sweepRepo NotListable
  cases hex : st.2.exists? (blobsDir root repo) with
  | false => exact Or.inr (Or.inr ⟨rfl, by simp [hex]⟩)
  | true =>
    cases hdir : st.2.isDir (blobsDir root repo) with
    | false => exact Or.inl ⟨⟨rfl, rfl⟩, by simp [hex, hdir]⟩
    | true => exact Or.inr (Or.inl ⟨rfl, by simp [hex, hdir]⟩)

/-- An entry that is removed is no directory. -/
theorem sweepEntry_isDir (root : Path) (faults : Faults) (reachable : Finset (Str × Digest))
    (dryRun : Bool) (repo : Str) (st : GcReport × Fs) (n : Name) (q : Path) :
    (sweepEntry root faults reachable dryRun repo st n).2.isDir q = st.2.isDir q := by
  rcases sweepEntry_cases root faults reachable dryRun repo st n
    with ⟨-, he⟩ | ⟨b, d, hread, -, ⟨-, he⟩ | ⟨-, -, -, he⟩ | ⟨-, -, -, he⟩⟩
  · rw [he]
  · rw [he]
  · rw [he]
  · rw [he]
    have hnode := Fs.read_eq_some.mp hread
    by_cases hq : q = n :: blobsDir root repo
    · rw [hq]
      simp [Fs.isDir, Fs.node_del, hnode]
    · exact Fs.isDir_congr (by rw [Fs.node_del, if_neg hq])

/-- What every entry of a listed directory preserves is preserved by the sweep. -/
theorem sweepPhase_keep {P : GcReport × Fs → Prop} {dryRun : Bool} {repos : List Str}
    (h : ∀ repo ∈ repos, ∀ st n, st.2.isDir (blobsDir root repo) = true → P st →
      P (sweepEntry root faults reachable dryRun repo st n))
    {st : GcReport × Fs} (hst : P st) : P (sweepPhase root faults reachable dryRun repos st).2 := by
  have hfold : ∀ repo ∈ repos, ∀ (names : List Name) st, st.2.isDir (blobsDir root repo) = true →
      P st → P (names.foldl (sweepEntry root faults reachable dryRun repo) st) := by
    intro repo hr names
    induction names with
    | nil => exact fun _ _ h => h
    | cons n names ih =>
      intro st hdir hst
      apply ih
      · rw [sweepEntry_isDir]
        exact hdir
      · exact h repo hr st n hdir hst
  induction repos generalizing st with
  | nil => exact hst
  | cons repo repos ih =>
    have hrest := fun r hr => h r (List.mem_cons_of_mem repo hr)
    have hfolds := fun r hr => hfold r (List.mem_cons_of_mem repo hr)
    unfold sweepPhase
    rcases sweepRepo_cases root faults reachable dryRun repo st with ⟨-, he⟩ | ⟨hdir, he⟩ | ⟨-, he⟩
    · simp only [he]
      exact hst
    · simp only [he]
      exact ih hrest (hfold repo List.mem_cons_self _ st hdir hst) hfolds
    · simp only [he]
      exact ih hrest hst hfolds

theorem sweepPhase_fixed {α : Type} (f : GcReport × Fs → α) {dryRun : Bool}
    (h : ∀ repo st n, f (sweepEntry root faults reachable dryRun repo st n) = f st)
    (repos : List Str) (st : GcReport × Fs) :
    f (sweepPhase root faults reachable dryRun repos st).2 = f st := by
  apply sweepPhase_keep (P := fun st' => f st' = f st)
  · intro repo _ st' n _ he
    exact (h repo st' n).trans he
  · rfl

/-- How many digest-named regular files the directories of the repositories hold. -/
def onDiskCount (root : Path) (fs : Fs) (repos : List Str) : Nat :=
  (repos.map fun repo =>
    if fs.isDir (blobsDir root repo) then
      (fs.readDir (blobsDir root repo)).countP (isBlobFile fs (blobsDir root repo))
    else 0).sum

/-- The sweep of some repositories went through all of them, or stopped at the one
after `done`. -/
def Progress (root : Path) (fs : Fs) (repos done : List Str) (result : Except GcError Unit) : Prop :=
  (result = .ok () ∧ done = repos ∧ ∀ repo ∈ repos, ¬ NotListable root fs repo) ∨
  (result = .error .io ∧ ∃ repo rest, repos = done ++ repo :: rest ∧ NotListable root fs repo ∧
    ∀ r ∈ done, ¬ NotListable root fs r)

theorem Progress.cons {fs : Fs} {repo : Str} {repos done : List Str} {result : Except GcError Unit}
    (hrepo : ¬ NotListable root fs repo) (h : Progress root fs repos done result) :
    Progress root fs (repo :: repos) (repo :: done) result := by
  rcases h with ⟨hr, rfl, hall⟩ | ⟨hr, r, rest, rfl, hno, hall⟩
  · refine Or.inl ⟨hr, rfl, fun r hr => ?_⟩
    rcases List.mem_cons.mp hr with rfl | hr
    · exact hrepo
    · exact hall r hr
  · refine Or.inr ⟨hr, r, rest, rfl, hno, fun r hr => ?_⟩
    rcases List.mem_cons.mp hr with rfl | hr
    · exact hrepo
    · exact hall r hr

theorem notListable_congr {fs fs' : Fs} {repo : Str}
    (h : fs'.node (blobsDir root repo) = fs.node (blobsDir root repo)) :
    NotListable root fs' repo ↔ NotListable root fs repo := by
  simp only [NotListable, Fs.exists?, Fs.isDir, h]

theorem isDir_of_exists {fs : Fs} {p : Path} (h : fs.exists? p = false) : fs.isDir p = false := by
  simp only [Fs.exists?, Fs.isDir, Bool.or_eq_false_iff] at h ⊢
  refine ⟨h.1, ?_⟩
  cases hn : fs.node p with
  | none => rfl
  | some m => simp [hn] at h

/-- The sweep of one repository. -/
theorem sweepRepo_live (root : Path) (faults : Faults) (reachable : Finset (Str × Digest))
    (repo : Str) (st : GcReport × Fs) :
    (NotListable root st.2 repo ∧
      sweepRepo root faults reachable false repo st = (.error .io, st)) ∨
    ∃ st', sweepRepo root faults reachable false repo st = (.ok (), st') ∧
      ¬ NotListable root st.2 repo ∧
      (∀ p, Doomed root faults reachable st.2 [repo] p → st'.2.node p = none) ∧
      (∀ p, ¬ Doomed root faults reachable st.2 [repo] p → st'.2.node p = st.2.node p) ∧
      (∀ q, q ≠ blobsDir root repo → st'.2.readDir q = st.2.readDir q) ∧
      st'.1.onDiskBlobs = st.1.onDiskBlobs + onDiskCount root st.2 [repo] := by
  rcases sweepRepo_cases root faults reachable false repo st
    with h | ⟨hdir, he⟩ | ⟨hex, he⟩
  · exact Or.inl h
  · obtain ⟨h1, h2, h3, h4⟩ := foldl_sweepEntry_live root faults reachable repo st
      (st.2.nodup_readDir (blobsDir root repo)) rfl
    refine Or.inr ⟨_, he, ?_, ?_, ?_, h3, ?_⟩
    · rintro ⟨-, hno⟩
      rw [hdir] at hno
      cases hno
    · rintro p ⟨r, hr, -, n, rfl, hd⟩
      cases List.mem_singleton.mp hr
      refine h1 n (Fs.mem_readDir.mpr ?_) hd
      obtain ⟨b, d, hb, -⟩ := hd
      rw [Fs.read_eq_some.mp hb]
      rfl
    · intro p hp
      refine h2 p fun n _ hpn hd => hp ?_
      exact ⟨repo, List.mem_singleton_self _, hdir, n, hpn, hd⟩
    · rw [h4]
      simp [onDiskCount, hdir]
  · have hdir := isDir_of_exists hex
    refine Or.inr ⟨st, he, ?_, ?_, fun _ _ => rfl, fun _ _ => rfl, ?_⟩
    · rintro ⟨hyes, -⟩
      rw [hex] at hyes
      cases hyes
    · rintro p ⟨r, hr, hyes, -⟩
      cases List.mem_singleton.mp hr
      rw [hdir] at hyes
      cases hyes
    · simp [onDiskCount, hdir]

theorem doomed_cons {fs : Fs} {repo : Str} {repos : List Str} {p : Path} :
    Doomed root faults reachable fs (repo :: repos) p ↔
      Doomed root faults reachable fs [repo] p ∨ Doomed root faults reachable fs repos p := by
  simp only [Doomed, List.mem_cons, List.not_mem_nil, or_false, exists_eq_or_imp, exists_eq_left]

theorem onDiskCount_cons (fs : Fs) (repo : Str) (repos : List Str) :
    onDiskCount root fs (repo :: repos) = onDiskCount root fs [repo] + onDiskCount root fs repos := by
  simp [onDiskCount]

/-- The directory `blobs/sha256` is never doomed itself. -/
theorem not_doomed_blobsDir {fs : Fs} {repos : List Str} (repo : Str) :
    ¬ Doomed root faults reachable fs repos (blobsDir root repo) := by
  rintro ⟨r, -, -, n, he, b, d, -, hname, -⟩
  cases (List.cons.inj he).1
  rw [digestOfName_sha256Name] at hname
  cases hname

/-- The sweep of plainly named, different repositories. -/
theorem sweepPhase_live (root : Path) (faults : Faults) (reachable : Finset (Str × Digest))
    {repos : List Str} (st : GcReport × Fs) (hplain : ∀ r ∈ repos, Plain r)
    (hnodup : repos.Nodup) :
    ∃ done, Progress root st.2 repos done (sweepPhase root faults reachable false repos st).1 ∧
      (∀ p, Doomed root faults reachable st.2 done p →
        (sweepPhase root faults reachable false repos st).2.2.node p = none) ∧
      (∀ p, ¬ Doomed root faults reachable st.2 done p →
        (sweepPhase root faults reachable false repos st).2.2.node p = st.2.node p) ∧
      (sweepPhase root faults reachable false repos st).2.1.onDiskBlobs =
        st.1.onDiskBlobs + onDiskCount root st.2 done := by
  induction repos generalizing st with
  | nil => exact ⟨[], Or.inl ⟨rfl, rfl, by simp⟩, by simp [Doomed], fun _ _ => rfl, rfl⟩
  | cons repo repos ih =>
    unfold sweepPhase
    rcases sweepRepo_live root faults reachable repo st
      with ⟨hno, he⟩ | ⟨st', he, hno, hgone, hkeep, hlist, hcount⟩
    · simp only [he]
      exact ⟨[], Or.inr ⟨rfl, repo, repos, rfl, hno, by simp⟩, by simp [Doomed],
        by simp, by simp [onDiskCount]⟩
    · simp only [he]
      obtain ⟨hnew, hnodup'⟩ := List.nodup_cons.mp hnodup
      have hplain' : ∀ r ∈ repos, Plain r := fun r hr => hplain r (List.mem_cons_of_mem _ hr)
      -- the directories of the other repositories are as before
      have hdirs : ∀ r, st'.2.node (blobsDir root r) = st.2.node (blobsDir root r) :=
        fun r => hkeep _ (not_doomed_blobsDir r)
      have hne : ∀ r ∈ repos, blobsDir root r ≠ blobsDir root repo := by
        intro r hr hb
        have := blobsDir_injective (hplain' r hr) (hplain repo List.mem_cons_self) hb
        exact hnew (this ▸ hr)
      have hfiles : ∀ r ∈ repos, ∀ n, st'.2.node (n :: blobsDir root r) =
          st.2.node (n :: blobsDir root r) := by
        intro r hr n
        refine hkeep _ ?_
        rintro ⟨r', hr', -, m, hm, -⟩
        cases List.mem_singleton.mp hr'
        exact hne r hr (List.cons.inj hm).2
      have hread : ∀ r ∈ repos, ∀ n, st'.2.read (n :: blobsDir root r) =
          st.2.read (n :: blobsDir root r) := fun r hr n => Fs.read_congr (hfiles r hr n)
      have hdoomed : ∀ done ⊆ repos, ∀ p, Doomed root faults reachable st'.2 done p ↔
          Doomed root faults reachable st.2 done p := by
        intro done hsub p
        refine exists_congr fun r => and_congr_right fun hr => ?_
        simp only [DoomedEntry, hread r (hsub hr), Fs.isDir_congr (hdirs r)]
      have hcounts : ∀ done ⊆ repos, onDiskCount root st'.2 done = onDiskCount root st.2 done := by
        intro done hsub
        unfold onDiskCount
        congr 1
        refine List.map_congr_left fun r hr => ?_
        have hblob : isBlobFile st'.2 (blobsDir root r) = isBlobFile st.2 (blobsDir root r) := by
          funext n
          rw [isBlobFile, isBlobFile, hread r (hsub hr)]
        rw [Fs.isDir_congr (hdirs r), hlist _ (hne r (hsub hr)), hblob]
      obtain ⟨done, hprog, h1, h2, h3⟩ := ih st' hplain' hnodup'
      have hsub : done ⊆ repos := by
        rcases hprog with ⟨-, rfl, -⟩ | ⟨-, r, rest, rfl, -⟩
        · exact fun _ h => h
        · exact fun _ h => List.mem_append_left _ h
      have hprog' : Progress root st.2 repos done
          (sweepPhase root faults reachable false repos st').1 := by
        simpa only [Progress, notListable_congr (hdirs _)] using hprog
      refine ⟨repo :: done, hprog'.cons hno, ?_, ?_, ?_⟩
      · intro p hp
        rcases doomed_cons.mp hp with hp | hp
        · by_cases hlater : Doomed root faults reachable st'.2 done p
          · exact h1 p hlater
          · rw [h2 p hlater]
            exact hgone p hp
        · exact h1 p ((hdoomed done hsub p).mpr hp)
      · intro p hp
        rw [doomed_cons, not_or] at hp
        rw [h2 p (fun h => hp.2 ((hdoomed done hsub p).mp h))]
        exact hkeep p hp.1
      · rw [h3, hcount, hcounts done hsub, onDiskCount_cons st.2 repo done]
        omega

end Quill.Gc
