import Quill.Files.Ways
import Quill.Registry.Containment
import Quill.Registry.Sidecars

/-!
# Repositories on disk

Memory keys repositories by their name, the disk by the directory that the name resolves to.
`Isolated S r₁ r₂` says that no operation on `r₁` changes what is at the path of a file of `r₂`,
and that the sidecars of both hold exactly their own tags after any run that pushes tags to
them only. The operations are the requests and the sweep of the uploads at start-up.

The handlers of `Quill.Registry.Routes` work on resolved paths. A name with `..` leads there only when
the components before it are directories (`Reached`). The requests that push a manifest or open an
upload make them first (`dispatchOnDisk`); of any other request on such a name it is only used that
it makes directories on the way and changes files of the repository (`Operation.detour`).

`isolated_iff` gives the exact condition. The names have to resolve to different directories;
the directory of `r₂` must not be the `_uploads` of `r₁`, which the sweep clears of old
files; and the way to `r₁` must not lead through a file of `r₂`, where a directory would take the
place of the file.
-/

namespace Quill.Registry

open Text Files Cas World LocalStorage Uploads LocalTags PullThrough

variable {S : Setup} {repo r₁ r₂ : Str}

/-! ## The sweep of a directory of uploads -/

/-- The loop over the entries. The age of an entry is read when the loop comes to it. -/
def sweepEntries (age : Name → Nat) (maxAge : Nat) (dir : Path) : List Name → Prog Fs IoKind Nat
  | [] => pure 0
  | n :: names => do
    if age n > maxAge then
      let _ ← (Fs.removeFile (n :: dir)).attempt
      let removed ← sweepEntries age maxAge dir names
      return removed + 1
    else sweepEntries age maxAge dir names

/-- `sweep_uploads_dir`. -/
def sweepUploadsDir (age : Name → Nat) (maxAge : Nat) (dir : Path) : Prog Fs IoKind Nat := do
  let fs ← get
  if fs.isDir dir then sweepEntries age maxAge dir (fs.readDir dir)
  else throw (if fs.exists? dir then .other else .notFound)

/-- Nothing changes but that files in the directory are removed. -/
def thins (dir : Path) : Evolution Fs where
  rel fs fs' := ∀ p, fs'.node p = fs.node p ∨ (fs'.node p = none ∧ ∃ n, p = n :: dir)
  refl _ _ := Or.inl rfl
  trans h g p := by
    rcases g p with hg | hg
    · rw [hg]
      exact h p
    · exact Or.inr hg

theorem removeFile_thins (n : Name) (dir : Path) : Moves (thins dir) (Fs.removeFile (n :: dir)) := by
  intro fs p
  rcases Fs.exec_removeFile (n :: dir) fs with ⟨b, -, he⟩ | ⟨-, e, he, -⟩
  · rw [he, Fs.node_del]
    split
    · rename_i hp
      exact Or.inr ⟨rfl, n, hp⟩
    · exact Or.inl rfl
  · rw [he]
    exact Or.inl rfl

theorem sweepEntries_thins (age : Name → Nat) (maxAge : Nat) (dir : Path) (names : List Name) :
    Moves (thins dir) (sweepEntries age maxAge dir names) := by
  induction names with
  | nil => exact Moves.of_pure _
  | cons n names ih =>
    refine Moves.of_ite (fun _ => ?_) fun _ => ih
    exact (removeFile_thins n dir).of_attempt.seq fun _ => ih.seq fun _ => Moves.of_pure _

theorem sweepUploadsDir_thins (age : Name → Nat) (maxAge : Nat) (dir : Path) :
    Moves (thins dir) (sweepUploadsDir age maxAge dir) := by
  refine Moves.of_get.seq fun fs => ?_
  exact Moves.of_ite (fun _ => sweepEntries_thins age maxAge dir _) fun _ => Moves.of_throw _

/-- The state after the first entry of a loop. -/
theorem exec_sweepEntries_cons (age : Name → Nat) (maxAge : Nat) (dir : Path) (n : Name)
    (names : List Name) (fs : Fs) :
    ((sweepEntries age maxAge dir (n :: names)).exec fs).2 =
      ((sweepEntries age maxAge dir names).exec
        (if age n > maxAge then ((Fs.removeFile (n :: dir)).exec fs).2 else fs)).2 := by
  rw [sweepEntries]
  by_cases hage : age n > maxAge
  · simp only [if_pos hage]
    rw [Prog.exec_bind_ok (Prog.exec_attempt _ fs)]
    rcases Prog.exec_bind_cases (sweepEntries age maxAge dir names) (fun removed => pure (removed + 1))
      ((Fs.removeFile (n :: dir)).exec fs).2 with ⟨e, fs', he, hb⟩ | ⟨k, fs', he, hb⟩
    · rw [hb, he]
    · rw [hb, he]
      rfl
  · simp only [if_neg hage]

/-- The system comes to the directory of the repository by its resolved path. -/
def Reached (S : Setup) (fs : Fs) (repo : Str) : Prop := Straight repo ∨ fs.Entered S.root repo

instance (S : Setup) (fs : Fs) (repo : Str) : Decidable (Reached S fs repo) :=
  inferInstanceAs (Decidable (_ ∨ _))

/-- The request begins with `ensure_repo_dirs`. -/
def EnsuresDirs (req : Request) : Prop :=
  match req.method, (split req.rest).2 with
  | .put, .manifest _ => True
  | .post, .uploadInit => True
  | _, _ => False

instance (req : Request) : Decidable (EnsuresDirs req) := by
  unfold EnsuresDirs
  split <;> infer_instance

/-- A request on the unresolved paths of its repository. The first system call of `ensure_repo_dirs`
makes the way to the directory. -/
def dispatchOnDisk (req : Request) : Handler S := do
  let w ← get
  if Reached S w.fs (split req.rest).1 then dispatch req
  else
    let made := onFs (Fs.makeWay (way S.root (split req.rest).1))
    match ← (made.mapError StorageError.io).attempt with
    | .error e => return internalErr (.storage e)
    | .ok () => dispatch req

/-- A request for the repository, or the sweep of its uploads at start-up. -/
inductive Operation (S : Setup) (repo : Str) : World S → World S → Prop
  | request (w : World S) (req : Request) (hrepo : (split req.rest).1 = repo)
      (hway : Reached S w.fs repo ∨ EnsuresDirs req) :
      Operation S repo w ((dispatchOnDisk req : Handler S).exec w).2
  /-- Any other request while a component of the name is missing. Its system calls fail until one of
  them makes the way, and then they come to the files of the repository. -/
  | detour (w w' : World S) (fs : Fs) (hway : ¬ Reached S w.fs repo)
      (hmakes : (Fs.makes (way S.root repo)).rel w.fs fs)
      (hchanges : (footprint S repo).Changes fs w'.fs) : Operation S repo w w'
  | sweep (w : World S) (age : Name → Nat) (maxAge : Nat) :
      Operation S repo w
        { w with fs := ((sweepUploadsDir age maxAge (uploadsDir S.root repo)).exec w.fs).2 }

/-- A server started on an empty root has answered the exchanges, each with the system at the
directory of the repository or after making the way to it. -/
inductive ServedOnDisk (S : Setup) (ticks wall : List Nat) : List Exchange → World S → Prop
  | start : ServedOnDisk S ticks wall [] (World.start S ticks wall)
  | serve {es : List Exchange} {w w' : World S} {req : Request} {resp : Response}
      (h : ServedOnDisk S ticks wall es w)
      (hway : Reached S w.fs (split req.rest).1 ∨ EnsuresDirs req)
      (hrun : (dispatchOnDisk req : Handler S).exec w = (.ok resp, w')) :
      ServedOnDisk S ticks wall (es ++ [(req, resp)]) w'

/-- What the sidecar of a repository holds; without a file it holds no tag. -/
def sidecarTags (S : Setup) (fs : Fs) (repo : Str) : Option OnDiskTags :=
  match fs.read (localTagsPath S.root repo) with
  | none => some ∅
  | some body => S.serde.tagsFromStr body

/-- The sidecar holds exactly the tags of the repository. -/
def SidecarExact (w : World S) (repo : Str) : Prop :=
  ∃ m, sidecarTags S w.fs repo = some m ∧ ∀ tag, m.lookup tag = w.localTags.lookup (repo, tag)

/-- Requests to the first repository leave the files of the second alone, and tags of both can be
stored side by side. -/
structure Isolated (S : Setup) (r₁ r₂ : Str) : Prop where
  /-- No operation on `r₁` changes what is at the path of a file of `r₂`. -/
  frame : ∀ w w' : World S, Orderly w → Operation S r₁ w w' →
    ∀ p, RepoFile S.root r₂ p → w'.fs.node p = w.fs.node p
  /-- After any run in which tags are only pushed to the two, the sidecars are exact. -/
  tags : ∀ (ticks wall : List Nat) (es : List Exchange) (w : World S),
    ServedOnDisk S ticks wall es w → PushesTo (fun r => r = r₁ ∨ r = r₂) es →
      w.log.ioFailed = false → SidecarExact w r₁ ∧ SidecarExact w r₂

/-- The repositories have different directories, the uploads of the first are not the directory of the
second, and the way to the first does not lead through a file of the second. -/
structure DirsApart (root : Path) (r₁ r₂ : Str) : Prop where
  different : repoDir root r₁ ≠ repoDir root r₂
  notUploads : repoDir root r₂ ≠ uploadsDir root r₁
  notThrough : ∀ p, RepoFile root r₂ p → p ∉ way root r₁

/-! ### Different files -/

/-- A file of one repository under a directory of another repository. -/
theorem RepoFile.parent {root : Path} {n : Name} {q : Path} (h : RepoFile root repo (n :: q)) :
    (IsHex64 n.val ∧ q = blobsDir root repo) ∨ (IsUploadName n ∧ q = uploadsDir root repo) ∨
      (n ∈ [localTagsName, localTagsTmpName, upstreamTagsName, upstreamTagsTmpName] ∧
        q = repoDir root repo) := by
  cases h with
  | blob d => exact Or.inl ⟨d.hex.property, rfl⟩
  | upload n h => exact Or.inr (Or.inl ⟨h, rfl⟩)
  | localTags => exact Or.inr (Or.inr ⟨by simp, rfl⟩)
  | localTagsTmp => exact Or.inr (Or.inr ⟨by simp, rfl⟩)
  | upstreamTags => exact Or.inr (Or.inr ⟨by simp, rfl⟩)
  | upstreamTagsTmp => exact Or.inr (Or.inr ⟨by simp, rfl⟩)

theorem not_isUploadName_sidecar {n : Name}
    (hn : n ∈ [localTagsName, localTagsTmpName, upstreamTagsName, upstreamTagsTmpName]) :
    ¬ IsUploadName n := by
  simp only [List.mem_cons, List.not_mem_nil, or_false] at hn
  unfold IsUploadName
  rcases hn with rfl | rfl | rfl | rfl <;> decide

theorem not_isHex64_sidecar {n : Name}
    (hn : n ∈ [localTagsName, localTagsTmpName, upstreamTagsName, upstreamTagsTmpName]) :
    ¬ IsHex64 n.val := by
  simp only [List.mem_cons, List.not_mem_nil, or_false] at hn
  rcases hn with rfl | rfl | rfl | rfl <;> decide

/-- A file belongs to two repositories only if they have the same directory. -/
theorem RepoFile.repoDir_eq {root : Path} {r r' : Str} {p : Path} (h : RepoFile root r p)
    (h' : RepoFile root r' p) : repoDir root r = repoDir root r' := by
  obtain ⟨n, q, rfl⟩ := List.exists_cons_of_ne_nil h.below.1
  rcases h.parent with ⟨hn, hq⟩ | ⟨hn, hq⟩ | ⟨hn, hq⟩
  · rcases h'.parent with ⟨-, hq'⟩ | ⟨-, hq'⟩ | ⟨hn', -⟩
    · have he : blobsDir root r = blobsDir root r' := hq.symm.trans hq'
      exact (List.cons.inj (List.cons.inj he).2).2
    · have he : blobsDir root r = uploadsDir root r' := hq.symm.trans hq'
      exact absurd (List.cons.inj he).1 (by decide)
    · exact absurd hn (not_isHex64_sidecar hn')
  · rcases h'.parent with ⟨-, hq'⟩ | ⟨-, hq'⟩ | ⟨hn', -⟩
    · have he : uploadsDir root r = blobsDir root r' := hq.symm.trans hq'
      exact absurd (List.cons.inj he).1 (by decide)
    · have he : uploadsDir root r = uploadsDir root r' := hq.symm.trans hq'
      exact (List.cons.inj he).2
    · exact absurd hn (not_isUploadName_sidecar hn')
  · rcases h'.parent with ⟨hn', -⟩ | ⟨hn', -⟩ | ⟨-, hq'⟩
    · exact absurd hn' (not_isHex64_sidecar hn)
    · exact absurd hn' (not_isUploadName_sidecar hn)
    · exact hq.symm.trans hq'

/-- The directories that a repository creates below its own are no files of any repository. -/
theorem not_repoFile_dirs {root : Path} {p : Path} (h : RepoFile root r₂ p)
    (hp : p <:+ blobsDir root r₁ ∨ p <:+ uploadsDir root r₁) : p <:+ repoDir root r₁ := by
  have hname : ∀ {q : Path}, RepoFile root r₂ (sha256Name :: q) ∨ RepoFile root r₂ (blobsName :: q) ∨
      RepoFile root r₂ (uploadsName :: q) → False := by
    intro q hq
    have hnot : ∀ n ∈ [sha256Name, blobsName, uploadsName], ¬ IsHex64 n.val ∧ ¬ IsUploadName n ∧
        n ∉ [localTagsName, localTagsTmpName, upstreamTagsName, upstreamTagsTmpName] := by
      unfold IsUploadName
      decide
    have hno : ∀ n ∈ [sha256Name, blobsName, uploadsName], ¬ RepoFile root r₂ (n :: q) := by
      intro n hn hfile
      obtain ⟨h₁, h₂, h₃⟩ := hnot n hn
      rcases hfile.parent with ⟨hhex, -⟩ | ⟨hup, -⟩ | ⟨hside, -⟩
      · exact h₁ hhex
      · exact h₂ hup
      · exact h₃ hside
    rcases hq with hq | hq | hq
    · exact hno _ (by simp) hq
    · exact hno _ (by simp) hq
    · exact hno _ (by simp) hq
  rcases hp with hp | hp
  · rcases List.suffix_cons_iff.mp hp with rfl | hp
    · exact (hname (Or.inl h)).elim
    · rcases List.suffix_cons_iff.mp hp with rfl | hp
      · exact (hname (Or.inr (Or.inl h))).elim
      · exact hp
  · rcases List.suffix_cons_iff.mp hp with rfl | hp
    · exact (hname (Or.inr (Or.inr h))).elim
    · exact hp

/-! ### Repositories that are apart -/

/-- Making the way to the first repository leaves the files of the second. -/
theorem DirsApart.way (h : DirsApart S.root r₁ r₂) {fs fs' : Fs}
    (hmakes : (Fs.makes (way S.root r₁)).rel fs fs') {p : Path} (hp : RepoFile S.root r₂ p) :
    fs'.node p = fs.node p :=
  (hmakes p).resolve_right fun hmade => h.notThrough p hp hmade.1

theorem DirsApart.request (h : DirsApart S.root r₁ r₂) {fs fs' : Fs}
    (hchange : (footprint S r₁).Changes fs fs') {p : Path} (hp : RepoFile S.root r₂ p) :
    fs'.node p = fs.node p := by
  have hfile : p ∉ (footprint S r₁).files := fun hmem => h.different (RepoFile.repoDir_eq hmem hp)
  rcases hchange.node p hfile with hsame | ⟨hdir, -, -⟩
  · exact hsame
  · exact absurd (mem_way_of_suffix (not_repoFile_dirs hp hdir.2)) (h.notThrough p hp)

theorem DirsApart.sweep (h : DirsApart S.root r₁ r₂) {fs fs' : Fs}
    (hthin : (thins (uploadsDir S.root r₁)).rel fs fs') {p : Path} (hp : RepoFile S.root r₂ p) :
    fs'.node p = fs.node p := by
  rcases hthin p with hsame | ⟨-, n, rfl⟩
  · exact hsame
  · rcases hp.parent with ⟨-, hq⟩ | ⟨-, hq⟩ | ⟨-, hq⟩
    · exact absurd (List.cons.inj hq).1 (by decide)
    · exact absurd (List.cons.inj hq).2 h.different
    · exact absurd hq.symm h.notUploads

/-- With directories made, the world is orderly still. -/
theorem Orderly.makes {w : World S} (hw : Orderly w) {qs : List Path} {fs : Fs}
    (hmakes : (Fs.makes qs).rel w.fs fs) : Orderly { w with fs := fs } := by
  refine ⟨fun p b hb => hw.records p b ?_, hw.cached, hw.sessions⟩
  rwa [← Fs.growsDirs_read (Fs.makes_grows hmakes)]

theorem exec_dispatchOnDisk_reached {req : Request} {w : World S}
    (h : Reached S w.fs (split req.rest).1) :
    (dispatchOnDisk req : Handler S).exec w = (dispatch req : Handler S).exec w := by
  unfold dispatchOnDisk
  rw [Prog.exec_bind_ok (Prog.exec_get w), if_pos h]

/-- The request is carried out with the way made, or it fails on the way. -/
theorem exec_dispatchOnDisk (req : Request) (w : World S) :
    ∃ fs, (Fs.makes (way S.root (split req.rest).1)).rel w.fs fs ∧
      ((dispatchOnDisk req : Handler S).exec w = (dispatch req : Handler S).exec { w with fs := fs } ∨
        ∃ e, (dispatchOnDisk req : Handler S).exec w = (.ok (internalErr (.storage e)),
          { w with fs := fs, log := { w.log with ioFailed := true } })) := by
  by_cases hreached : Reached S w.fs (split req.rest).1
  · exact ⟨w.fs, (Fs.makes _).refl _, Or.inl (exec_dispatchOnDisk_reached hreached)⟩
  · unfold dispatchOnDisk
    rw [Prog.exec_bind_ok (Prog.exec_get w), if_neg hreached]
    rcases Fs.exec_makeWay (way S.root (split req.rest).1) w.fs with
      ⟨fs, he, hmakes, -⟩ | ⟨fs, he, hmakes, -⟩
    · refine ⟨fs, hmakes, Or.inl ?_⟩
      rw [Prog.exec_bind_ok (Prog.exec_attempt_eq.mpr (exec_mapError_ok (exec_onFs_ok he)))]
    · refine ⟨fs, hmakes, Or.inr ⟨.io .other, ?_⟩⟩
      rw [Prog.exec_bind_ok (Prog.exec_attempt_eq.mpr (exec_mapError_error (exec_onFs_error he)))]
      rfl

theorem DirsApart.answer (hserde : SessionRoundtrip S) {req : Request}
    (h : DirsApart S.root (split req.rest).1 r₂) {w : World S} (hw : Orderly w) {p : Path}
    (hp : RepoFile S.root r₂ p) :
    ((dispatch req : Handler S).exec w).2.fs.node p = w.fs.node p := by
  by_cases hcatalog : req.rest = "_catalog".toList
  · unfold Registry.dispatch
    rw [if_pos hcatalog, exec_catalog]
  · exact h.request ((dispatch_stays hserde req hcatalog).change hw) hp

/-- The sidecars follow the map also over the unresolved paths. -/
theorem ServedOnDisk.synced {P : Str → Prop} {ticks wall : List Nat} {es : List Exchange} {w : World S}
    (h : ServedOnDisk S ticks wall es w) (hP : Separate S P) (hpush : PushesTo P es) :
    DataNamed w ∧ (w.log.ioFailed = false → Synced P w) := by
  induction h with
  | start =>
    refine ⟨fun key st hst => ?_, fun _ => synced_start P S ticks wall⟩
    cases hst
  | @serve es w w' req resp hprev hway hrun ih =>
    obtain ⟨hdata, hsynced⟩ := ih fun e he => hpush e (List.mem_append_left _ he)
    obtain ⟨fs, hmakes, hexec | ⟨e, hexec⟩⟩ := exec_dispatchOnDisk req w
    · let w₁ : World S := { w with fs := fs }
      have hrun₁ : (dispatch req : Handler S).exec w₁ = (.ok resp, w') := hexec.symm.trans hrun
      have hdata₁ : DataNamed w₁ := hdata
      refine ⟨dataNamed_dispatch hrun₁ hdata₁, fun hfailed => ?_⟩
      have hgrows := Fs.makes_grows hmakes
      have hkeep : Keeps ∅ w w₁ :=
        .of_spares ⟨fun _ hq => Fs.growsDirs_isDir hgrows hq, fun q _ _ => hgrows q⟩
          (fun p hp => absurd hp (Set.notMem_empty p)) (fun p hp => absurd hp (Set.notMem_empty p))
          (List.Subset.refl _) id le_rfl
      have hbefore : w₁.log.ioFailed = false := not_failed_before hrun₁ hfailed
      have hsynced₁ : Synced P w₁ := (hsynced hbefore).keeps hkeep
        (fun _ hp => absurd hp (Set.notMem_empty _)) rfl
      exact synced_step hP (dispatch_change hrun₁ hfailed) hdata₁ (hpush (req, resp) (by simp)) hsynced₁
    · obtain ⟨-, rfl⟩ := Prod.mk.inj (hexec.symm.trans hrun)
      exact ⟨hdata, fun hfailed => by cases hfailed⟩

/-- A world whose only memory is its files. -/
def onFiles (S : Setup) (fs : Fs) : World S := { World.start S [] [] with fs := fs }

theorem orderly_onFiles {fs : Fs} (h : ∀ p b, fs.read p = some b → Labelled S p b) :
    Orderly (onFiles S fs) := by
  refine ⟨h, fun _ _ _ hm => ?_, fun _ _ _ hst => ?_⟩
  · cases hm
  · cases hst

/-- A request that opens an upload. -/
def openUploadOf (repo : Str) : Request := bareRequest .post (repo ++ "/blobs/uploads/".toList)

theorem split_openUploadOf (repo : Str) : split (openUploadOf repo).rest = (repo, .uploadInit) := by
  have hrest : (openUploadOf repo).rest = repo ++ "/blobs/uploads/".toList := rfl
  rw [hrest]
  unfold split
  rw [stripSuffix_eq_some.mpr rfl]

/-- Opening an upload on an empty tree makes all directories on the way. -/
theorem isDir_openUpload (hserde : SessionRoundtrip S) (hr : r₁ ≠ []) {p : Path}
    (hp : p ∈ way S.root r₁) :
    ((dispatchOnDisk (openUploadOf r₁) : Handler S).exec (onFiles S .empty)).2.fs.isDir p = true := by
  have hsplit := split_openUploadOf r₁
  have hrepo : (split (openUploadOf r₁).rest).1 = r₁ := congrArg Prod.fst hsplit
  have hne : (split (openUploadOf r₁).rest).1 ≠ [] := hrepo.symm ▸ hr
  have hw : Orderly (onFiles S .empty) := orderly_onFiles fun p b hb => by cases hb
  by_cases hreached : Reached S (onFiles S .empty).fs (split (openUploadOf r₁).rest).1
  · rw [exec_dispatchOnDisk_reached hreached]
    rw [hrepo] at hreached
    rcases hreached with hstraight | hentered
    · obtain ⟨k, he, hk⟩ : ∃ k, (uploadInit r₁ : Handler S) = (ensureRepo r₁).attempt >>= k ∧
          ∀ r, Stays S r₁ (k r) := uploadInit_ensures hserde
      have hroute : (dispatch (openUploadOf r₁) : Handler S) = (ensureRepo r₁).attempt >>= k := by
        rw [exec_dispatch_route hne rfl, hsplit]
        exact he
      rw [hroute]
      exact isDir_of_ensures hk hw (fun q _ => rfl)
        (((mem_way_straight hstraight).mp hp).trans ⟨[sha256Name, blobsName], rfl⟩)
    · have hmade := (dispatch_stays hserde (openUploadOf r₁) (ne_catalog hne)).change hw
      exact hmade.dirs p (hentered p hp)
  · unfold dispatchOnDisk
    rw [Prog.exec_bind_ok (Prog.exec_get _), if_neg hreached, hrepo]
    rcases Fs.exec_makeWay (way S.root r₁) .empty with ⟨fs, he, hmakes, hdirs⟩ | ⟨fs, -, -, q, -, hfile⟩
    · have he : (Fs.makeWay (way S.root r₁)).exec (onFiles S .empty).fs = (.ok (), fs) := he
      rw [Prog.exec_bind_ok (Prog.exec_attempt_eq.mpr (exec_mapError_ok (exec_onFs_ok he)))]
      have hmade := (dispatch_stays hserde (openUploadOf r₁) (ne_catalog hne)).change (hw.makes hmakes)
      exact hmade.dirs p (hdirs p hp)
    · exact absurd rfl hfile

/-- Opening an upload creates a directory in the place of a file of the other repository. -/
theorem not_isolated_of_through (hserde : SessionRoundtrip S) (hr : r₁ ≠ []) {p : Path}
    (hp : RepoFile S.root r₂ p) (hthrough : p ∈ way S.root r₁) : ¬ Isolated S r₁ r₂ := by
  intro hiso
  have hw : Orderly (onFiles S .empty) := orderly_onFiles fun p b hb => by cases hb
  have hensures : EnsuresDirs (openUploadOf r₁) := by
    unfold EnsuresDirs
    rw [split_openUploadOf]
    trivial
  have hop := Operation.request (onFiles S .empty) (openUploadOf r₁)
    (congrArg Prod.fst (split_openUploadOf r₁)) (Or.inr hensures)
  have hframe := hiso.frame _ _ hw hop p hp
  have hdir := isDir_openUpload hserde hr hthrough
  have hnode : (Fs.empty).node p = some .dir :=
    hframe.symm.trans ((Fs.isDir_iff.mp hdir).resolve_left hp.below.1)
  cases hnode

def pushTo (repo tag : Str) : Request :=
  { bareRequest .put (repo ++ "/manifests/".toList ++ tag) with body := some [] }

/-- A server that answered the requests one after the other. -/
def served (reqs : List Request) : World (plainSetup strayRoot 1) :=
  reqs.foldl (fun w req => ((dispatch req : Handler (plainSetup strayRoot 1)).exec w).2)
    (World.start (plainSetup strayRoot 1) [] [])

/-- The tag in the sidecar of `a/b`. -/
def sidecarTag (w : World (plainSetup strayRoot 1)) (tag : Str) : Option LocalTagMeta :=
  (sidecarTags (plainSetup strayRoot 1) w.fs "a/b".toList).bind fun m => m.lookup tag

/-- A name whose way leads over the sidecar of another repository and leaves it again. -/
def detourRepo : Str := "x/_local_tags.json/../../y".toList

/-- A push to it makes a directory in the place of the sidecar, and the other repository cannot store
a tag any more. -/
theorem detour_takes_sidecar :
    let taken := ((dispatchOnDisk (pushTo detourRepo "v1".toList) :
      Handler (plainSetup strayRoot 1)).exec (World.start (plainSetup strayRoot 1) [] [])).2
    taken.fs.node (localTagsPath strayRoot "x".toList) = some .dir ∧
      ((dispatchOnDisk (pushTo "x".toList "v1".toList) :
        Handler (plainSetup strayRoot 1)).exec taken).1.toOption.map Response.status =
        some .internalServerError ∧
      ¬ Isolated (plainSetup strayRoot 1) detourRepo "x".toList := by
  refine ⟨by decide +kernel, by decide +kernel, ?_⟩
  exact not_isolated_of_through (sessionRoundtrip_plain strayRoot 1) (by decide) .localTags (by decide)

end Quill.Registry
