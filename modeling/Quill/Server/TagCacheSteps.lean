import Quill.Server.Staleness

/-!
# The sidecar of upstream tags, step by step

Any number of `UpstreamTagCache::insert` calls on one repository take turns. A call updates the
map, takes a snapshot of the repository's tags, creates the directory, writes
the temporary file and renames it over `_upstream_tags.json`. There is no lock, all
calls use one temporary file, and errors are ignored.

A snapshot that is taken before another call's update and renamed after that call's rename takes
the other tag off the disk (`late_rename_drops_tag`). Where the map is only updated while no
call holds a snapshot that it has not renamed yet (`Orderly`), loading the sidecar gives
the digests in memory whenever no call is in progress (`sidecar_keeps_tags`).
-/

namespace Quill.Server.TagCacheSteps

open Text Files Cas World Registry

/-! ## The steps -/

/-- The next step of a call. -/
inductive Phase where
  | insert (tag : Str) (d : Digest)
  | snapshot
  | createDir (value : AList fun _ : Str => Str)
  | write (value : AList fun _ : Str => Str)
  | rename
  | returned
  deriving DecidableEq

section Steps

variable {S : Setup}

/-- The temporary file of the sidecar. -/
def tmpPath (S : Setup) (repo : Str) : Path := upstreamTagsTmpName :: repoDir S.root repo

/-- One step of a call. The temporary file may be missing at the rename, where another
call has renamed it. -/
def advance (repo : Str) (w : World S) : Phase → Option (World S × Phase)
  | .insert tag d =>
    some ({ w.tick with upstreamTags := w.upstreamTags.insert (repo, tag) (d, w.tick.now) },
      .snapshot)
  | .snapshot => some (w, .createDir (TagCache.snapshot w repo))
  | .createDir value =>
    some (((onFs (Fs.createDirAll (repoDir S.root repo))).exec w).2, .write value)
  | .write value =>
    let r := (onFs (Fs.writeFile (tmpPath S repo) (S.serde.upstreamTagsToVec value))).exec w
    some (r.2, match r.1 with
      | .ok _ => .rename
      | .error _ => .returned)
  | .rename =>
    some (((probeFs (Fs.rename (tmpPath S repo) (upstreamTagsPath S.root repo))).exec w).2,
      .returned)
  | .returned => none

/-- An insertion is called, or takes its next step. -/
inductive Act where
  | call (tag : Str) (d : Digest)
  | turn (i : Nat)

/-- One step of the server. -/
def step (repo : Str) (s : Pool (World S) Phase) : Act → Option (Pool (World S) Phase)
  | .call tag d => some (s.spawn (.insert tag d))
  | .turn i => s.turn (advance repo) i

/-- The call holds a snapshot that it has not renamed yet. -/
def Phase.carrying : Phase → Bool
  | .createDir _ => true
  | .write _ => true
  | .rename => true
  | _ => false

/-- The map is not updated while a call holds a snapshot that it has not renamed yet. -/
def Orderly (s : Pool (World S) Phase) : Act → Prop
  | .call _ _ => True
  | .turn i =>
    match s.tasks[i]? with
    | some (.insert _ _) => ∀ p ∈ s.tasks, p.carrying = false
    | _ => True

/-- No call is in progress. -/
def Idle (s : Pool (World S) Phase) : Prop := ∀ p ∈ s.tasks, p = .returned

end Steps

/-! ## A call alone -/

section Alone

variable {S : Setup} {ε : Type}

theorem alone_returned (repo : Str) (n : Nat) (w : World S) :
    Pool.alone (advance repo) n w .returned = w := Pool.alone_done rfl n

/-- Creating the directory changes no tags. -/
theorem snapshot_createDir (repo : Str) (w : World S) :
    TagCache.snapshot ((onFs (Fs.createDirAll (repoDir S.root repo)) :
      Prog (World S) IoKind Unit).exec w).2 repo = TagCache.snapshot w repo := by
  rcases h : (Fs.createDirAll (repoDir S.root repo)).exec w.fs with ⟨e | u, fs'⟩
  · rw [exec_onFs_error h]
    rfl
  · rw [exec_onFs_ok h]
    rfl

/-- A temporary file beside its target can be renamed, unless a directory has the target's name. -/
theorem rename_beside {fs : Fs} {n n' : Name} (hne : n ≠ n') {dir : Path} {b : Bytes}
    (hread : fs.read (n :: dir) = some b) (hdir : fs.isDir dir = true) :
    (∃ fs', (Fs.rename (n :: dir) (n' :: dir)).exec fs = (.ok (), fs') ∧
      fs'.read (n' :: dir) = some b ∧ fs'.read (n :: dir) = none ∧ fs'.isDir dir = true) ∨
    (Fs.rename (n :: dir) (n' :: dir)).exec fs = (.error .other, fs) := by
  have hself : ∀ m : Name, dir ≠ m :: dir := fun m he => by simpa using congrArg List.length he
  simp only [Fs.rename, Fs.exec_io, Fs.read_eq_some.mp hread, List.tail_cons, hdir, true_and]
  cases hd : fs.isDir (n' :: dir) with
  | true => exact Or.inr rfl
  | false =>
    refine Or.inl ⟨_, rfl, ?_, ?_, ?_⟩
    · rw [Fs.read_eq_some, Fs.node_set, if_pos rfl]
    · rw [Fs.read_eq_none]
      intro c
      rw [Fs.node_set, if_neg fun he => hne (List.cons.inj he).1, Fs.node_del, if_pos rfl]
      intro he
      cases he
    · rcases Fs.isDir_iff.mp hdir with hroot | hnode
      · rw [hroot]
        rfl
      · refine Fs.isDir_iff.mpr (Or.inr ?_)
        rw [Fs.node_set, if_neg (hself n'), Fs.node_del, if_neg (hself n), hnode]

theorem rename_tmp {repo : Str} {fs : Fs} {b : Bytes} (hread : fs.read (tmpPath S repo) = some b)
    (hdir : fs.isDir (repoDir S.root repo) = true) :
    (∃ fs', (Fs.rename (tmpPath S repo) (upstreamTagsPath S.root repo)).exec fs = (.ok (), fs') ∧
      fs'.read (upstreamTagsPath S.root repo) = some b ∧ fs'.read (tmpPath S repo) = none ∧
      fs'.isDir (repoDir S.root repo) = true) ∨
    (Fs.rename (tmpPath S repo) (upstreamTagsPath S.root repo)).exec fs = (.error .other, fs) := by
  have hname : upstreamTagsTmpName ≠ upstreamTagsName := by decide
  exact rename_beside hname hread hdir

/-- The temporary file is written and renamed, in one step and in two. -/
theorem alone_write (repo : Str) (value : AList fun _ : Str => Str) (w : World S) :
    ((onFs (Fs.writeAtomic (tmpPath S repo) (upstreamTagsPath S.root repo)
      (S.serde.upstreamTagsToVec value)) : Prog (World S) IoKind Unit).exec w).2 =
      Pool.alone (advance repo) 2 w (.write value) := by
  rcases Fs.exec_writeFile (tmpPath S repo) (S.serde.upstreamTagsToVec value) w.fs with
    ⟨hnone, hdir, hwrite⟩ | ⟨e, hwrite⟩
  · have hstep : advance repo w (.write value) = some ({ w with
        fs := w.fs.set (tmpPath S repo) (.file (S.serde.upstreamTagsToVec value)) }, .rename) := by
      simp only [advance, exec_onFs_ok hwrite]
    have hatomic : (Fs.writeAtomic (tmpPath S repo) (upstreamTagsPath S.root repo)
        (S.serde.upstreamTagsToVec value)).exec w.fs = _ := Prog.exec_bind_ok hwrite
    rw [Pool.alone_succ hstep]
    have hread : (w.fs.set (tmpPath S repo) (.file (S.serde.upstreamTagsToVec value))).read
        (tmpPath S repo) = some (S.serde.upstreamTagsToVec value) := by
      rw [Fs.read_eq_some, Fs.node_set, if_pos rfl]
    have hdir' := Fs.isDir_set_file (b := S.serde.upstreamTagsToVec value)
      (Fs.node_ne_dir_of_isDir hnone) hdir
    show _ = ((probeFs (Fs.rename (tmpPath S repo) (upstreamTagsPath S.root repo)) :
      Prog (World S) IoKind Unit).exec _).2
    rcases rename_tmp hread hdir' with ⟨fs', hrename, -⟩ | hrename
    · rw [exec_onFs_ok (hatomic.trans hrename), exec_probeFs_ok hrename]
    · rw [exec_onFs_error (hatomic.trans hrename), exec_probeFs_error hrename]
      simp
  · have hstep : advance repo w (.write value) =
        some ({ w with log := { w.log with ioFailed := true } }, .returned) := by
      simp only [advance, exec_onFs_error hwrite]
    have hatomic : (Fs.writeAtomic (tmpPath S repo) (upstreamTagsPath S.root repo)
        (S.serde.upstreamTagsToVec value)).exec w.fs = (.error e, w.fs) := Prog.exec_bind_error hwrite
    rw [Pool.alone_succ hstep, alone_returned, exec_onFs_error hatomic]

/-- `UpstreamTagCache::insert` alone. -/
theorem insert_alone (repo tag : Str) (d : Digest) (w : World S) :
    ((TagCache.insert repo tag d : Prog (World S) ε Unit).exec w).2 =
      Pool.alone (advance repo) 5 w (.insert tag d) := by
  let w₁ : World S :=
    { w.tick with upstreamTags := w.upstreamTags.insert (repo, tag) (d, w.tick.now) }
  show _ = Pool.alone (advance repo) 2 ((onFs (Fs.createDirAll (repoDir S.root repo)) :
    Prog (World S) IoKind Unit).exec w₁).2 (.write (TagCache.snapshot w₁ repo))
  rw [← alone_write, ← snapshot_createDir repo w₁]
  rfl

end Alone

/-! ## Loading the sidecar -/

section Loading

variable {S : Setup} {fromStr : Bytes → Option (AList fun _ : Str => Str)} {repo : Str}

/-- A fresh cache that loads the repository has exactly the digests in memory. -/
def Restores (fromStr : Bytes → Option (AList fun _ : Str => Str)) (repo : Str) (w : World S) : Prop :=
  ∀ now r tag, ((loadUpstreamRepo S fromStr w.fs now repo ∅).lookup (r, tag)).map Prod.fst =
    if r = repo then (w.upstreamTags.lookup (repo, tag)).map Prod.fst else none

/-- What reads back are the texts that were written. -/
def Roundtrip (S : Setup) (fromStr : Bytes → Option (AList fun _ : Str => Str)) : Prop :=
  ∀ m, ∃ m', fromStr (S.serde.upstreamTagsToVec m) = some m' ∧ ∀ tag, m'.lookup tag = m.lookup tag

/-- The entry that a text gives when it is loaded. -/
def stamped (now : Nat) (text : Str) : Option (Digest × Nat) :=
  match Digest.parse text with
  | .ok d => some (d, now)
  | .error _ => none

/-- Load the entries one after the other. -/
def loadEntries (now : Nat) (repo : Str) (es : List (Sigma fun _ : Str => Str)) (map : UpstreamTags) :
    UpstreamTags :=
  es.foldl (fun map e => match Digest.parse e.2 with
    | .ok d => map.insert (repo, e.1) (d, now)
    | .error _ => map) map

theorem lookup_loadEntries (now : Nat) (repo : Str) (es : List (Sigma fun _ : Str => Str))
    (hnodup : es.NodupKeys) (map : UpstreamTags) (r tag : Str) :
    (loadEntries now repo es map).lookup (r, tag) =
      if r = repo then ((es.dlookup tag).bind (stamped now)).or (map.lookup (r, tag))
      else map.lookup (r, tag) := by
  induction es generalizing map with
  | nil => simp [loadEntries]
  | cons e es ih =>
    obtain ⟨t, text⟩ := e
    obtain ⟨hnot, hrest⟩ := List.nodupKeys_cons.mp hnodup
    have hstep : ∀ d, Digest.parse text = .ok d →
        loadEntries now repo (⟨t, text⟩ :: es) map =
          loadEntries now repo es (map.insert (repo, t) (d, now)) := by
      intro d hd
      simp only [loadEntries, List.foldl_cons, hd]
    cases hparse : Digest.parse text with
    | error err =>
      have hskip : loadEntries now repo (⟨t, text⟩ :: es) map = loadEntries now repo es map := by
        simp only [loadEntries, List.foldl_cons, hparse]
      rw [hskip, ih hrest]
      by_cases ht : tag = t
      · subst ht
        rw [List.dlookup_eq_none.mpr hnot, List.dlookup_cons_eq]
        simp [stamped, hparse]
      · rw [List.dlookup_cons_ne _ _ ht]
    | ok d =>
      rw [hstep d hparse, ih hrest]
      by_cases hr : r = repo
      · subst hr
        rw [if_pos rfl, if_pos rfl]
        by_cases ht : tag = t
        · subst ht
          rw [List.dlookup_eq_none.mpr hnot, List.dlookup_cons_eq, AList.lookup_insert]
          simp [stamped, hparse]
        · have hne : (r, tag) ≠ (r, t) := fun he => ht (Prod.mk.inj he).2
          rw [List.dlookup_cons_ne _ _ ht, AList.lookup_insert_ne hne]
      · have hne : (r, tag) ≠ (repo, t) := fun he => hr (Prod.mk.inj he).1
        rw [if_neg hr, if_neg hr, AList.lookup_insert_ne hne]

theorem lookup_loadUpstreamRepo (fs : Fs) (now : Nat) (r tag : Str) :
    (loadUpstreamRepo S fromStr fs now repo ∅).lookup (r, tag) =
      if r = repo then ((onDisk S fromStr fs repo).lookup tag).bind (stamped now) else none := by
  have hload := lookup_loadEntries now repo (onDisk S fromStr fs repo).entries
    (onDisk S fromStr fs repo).nodupKeys ∅ r tag
  have hempty : (∅ : UpstreamTags).lookup (r, tag) = none := rfl
  rw [hempty, Option.or_none] at hload
  exact hload

theorem dlookup_snapshot (entries : List (Sigma fun _ : Str × Str => Digest × Nat)) (repo tag : Str) :
    (entries.filterMap fun e => if e.1.1 = repo then
      some (⟨e.1.2, e.2.1.toStr⟩ : Sigma fun _ : Str => Str) else none).dlookup tag =
      (entries.dlookup (repo, tag)).map fun v => v.1.toStr := by
  induction entries with
  | nil => rfl
  | cons e entries ih =>
    obtain ⟨⟨r, t⟩, v⟩ := e
    by_cases hr : r = repo
    · subst hr
      simp only [List.filterMap_cons, if_true]
      by_cases ht : t = tag
      · subst ht
        simp
      · have hne : (r, tag) ≠ (r, t) := fun he => ht (Prod.mk.inj he).2.symm
        rw [List.dlookup_cons_ne _ _ (Ne.symm ht), ih, List.dlookup_cons_ne _ _ hne]
    · have hne : (repo, tag) ≠ (r, t) := fun he => hr (Prod.mk.inj he).1.symm
      simp only [List.filterMap_cons, if_neg hr]
      rw [ih, List.dlookup_cons_ne _ _ hne]

/-- A snapshot holds the texts of the digests of its repository. -/
theorem lookup_snapshot (w : World S) (repo tag : Str) :
    (TagCache.snapshot w repo).lookup tag =
      (w.upstreamTags.lookup (repo, tag)).map fun v => v.1.toStr := by
  rw [TagCache.snapshot, AList.lookup_to_alist]
  exact dlookup_snapshot w.upstreamTags.entries repo tag

/-- The texts are those of the digests in memory. -/
def Current (repo : Str) (w : World S) (value : AList fun _ : Str => Str) : Prop :=
  ∀ tag, value.lookup tag = (w.upstreamTags.lookup (repo, tag)).map fun v => v.1.toStr

/-- A sidecar written from the digests in memory restores them. -/
theorem restores_of_read (hround : Roundtrip S fromStr) {w : World S} {value : AList fun _ : Str => Str}
    (hread : w.fs.read (upstreamTagsPath S.root repo) = some (S.serde.upstreamTagsToVec value))
    (hvalue : Current repo w value) : Restores fromStr repo w := by
  obtain ⟨m, hm, hlook⟩ := hround value
  intro now r tag
  have hdisk : onDisk S fromStr w.fs repo = m := by simp [onDisk, hread, hm]
  rw [lookup_loadUpstreamRepo, hdisk, hlook, hvalue]
  by_cases hr : r = repo
  · rw [if_pos hr, if_pos hr]
    cases w.upstreamTags.lookup (repo, tag) with
    | none => rfl
    | some v => simp [stamped, Digest.parse_toStr]
  · rw [if_neg hr, if_neg hr]
    rfl

end Loading

/-! ## The invariant -/

section Invariant

variable {S : Setup} {fromStr : Bytes → Option (AList fun _ : Str => Str)} {repo : Str}

/-- A file was written from the digests in memory. -/
def Written (repo : Str) (w : World S) (p : Path) : Prop :=
  ∃ value, w.fs.read p = some (S.serde.upstreamTagsToVec value) ∧ Current repo w value

/-- What a call is about to publish are the digests in memory, or another call has published
them. -/
def Carries (repo : Str) (w : World S) : Phase → Prop
  | .createDir value => Current repo w value
  | .write value => Current repo w value
  | .rename => w.fs.isDir (repoDir S.root repo) = true ∧ (Written repo w (tmpPath S repo) ∨
      (w.fs.read (tmpPath S repo) = none ∧ Written repo w (upstreamTagsPath S.root repo)))
  | _ => True

/-- The call has changed the map and not yet renamed the temporary file. -/
def Phase.pending : Phase → Bool
  | .snapshot => true
  | p => p.carrying

/-- The invariant: a call that publishes has the digests in memory or another has published them,
and the sidecar restores the map when no call is pending. -/
structure Sound (fromStr : Bytes → Option (AList fun _ : Str => Str)) (repo : Str)
    (s : Pool (World S) Phase) : Prop where
  carried : ∀ p ∈ s.tasks, Carries repo s.memory p
  restores : (∀ p ∈ s.tasks, p.pending = false) → Restores fromStr repo s.memory

theorem carries_of_not_carrying {w : World S} {p : Phase} (hp : p.carrying = false) :
    Carries repo w p := by
  cases p with
  | insert tag d => trivial
  | snapshot => trivial
  | returned => trivial
  | createDir value => cases hp
  | write value => cases hp
  | rename => cases hp

theorem Written.congr {w w' : World S} {p : Path} (h : Written repo w p)
    (htags : w'.upstreamTags = w.upstreamTags) (hread : w'.fs.read p = w.fs.read p) :
    Written repo w' p := by
  obtain ⟨value, hvalue, hcurrent⟩ := h
  refine ⟨value, hread.trans hvalue, fun tag => ?_⟩
  rw [htags]
  exact hcurrent tag

/-- A step that leaves the map alone keeps what the other calls carry, if it does so for the
files. -/
theorem Carries.keep {w w' : World S} {p : Phase} (h : Carries repo w p)
    (htags : w'.upstreamTags = w.upstreamTags)
    (hfiles : Carries repo w .rename → Carries repo w' .rename) : Carries repo w' p := by
  have hcurrent : ∀ value, Current repo w value → Current repo w' value := by
    intro value hvalue tag
    rw [htags]
    exact hvalue tag
  cases p with
  | createDir value => exact hcurrent value h
  | write value => exact hcurrent value h
  | rename => exact hfiles h
  | insert tag d => trivial
  | snapshot => trivial
  | returned => trivial

section Turn

variable {w w' : World S} {before after : List Phase} {p p' : Phase}

/-- A turn after which the call still has to publish. -/
theorem sound_pending (hothers : ∀ q ∈ before ++ after, Carries repo w' q)
    (hself : Carries repo w' p') (hpending : p'.pending = true) :
    Sound fromStr repo ⟨w', before ++ p' :: after⟩ := by
  refine ⟨fun q hq => ?_, fun hidle => ?_⟩
  · rcases Pool.mem_replace (p := p') hq with rfl | ⟨hq, -⟩
    · exact hself
    · exact hothers q hq
  · have hnot := hidle p' (List.mem_append_right _ List.mem_cons_self)
    rw [hpending] at hnot
    cases hnot

theorem sound_createDir {value : AList fun _ : Str => Str}
    (h : Sound fromStr repo ⟨w, before ++ .createDir value :: after⟩)
    (hok : ((onFs (Fs.createDirAll (repoDir S.root repo)) :
      Prog (World S) IoKind Unit).exec w).2.log.ioFailed = false) :
    Sound fromStr repo ⟨((onFs (Fs.createDirAll (repoDir S.root repo)) :
      Prog (World S) IoKind Unit).exec w).2, before ++ .write value :: after⟩ := by
  rcases hop : (Fs.createDirAll (repoDir S.root repo)).exec w.fs with ⟨e | u, fs'⟩
  · rw [exec_onFs_error hop] at hok
    cases hok
  · rw [exec_onFs_ok hop]
    have hgrow : Fs.growsDirs.rel w.fs fs' := (Fs.createDirAll_grows _).rel_of_exec hop
    have hkeep : ∀ q, Carries repo w q → Carries repo { w with fs := fs' } q := by
      intro q hq
      refine hq.keep rfl ?_
      rintro ⟨hdir, hfile⟩
      refine ⟨Fs.growsDirs_isDir hgrow hdir, ?_⟩
      rcases hfile with htmp | ⟨hnone, hside⟩
      · exact Or.inl (htmp.congr rfl (Fs.growsDirs_read hgrow _))
      · exact Or.inr ⟨(Fs.growsDirs_read hgrow _).trans hnone,
          hside.congr rfl (Fs.growsDirs_read hgrow _)⟩
    refine sound_pending (fun q hq => ?_) ?_ rfl
    · exact hkeep q (h.carried q (Pool.mem_of_other hq))
    · have hcurrent : Current repo w value :=
        h.carried (.createDir value) (List.mem_append_right _ List.mem_cons_self)
      exact hcurrent

theorem sound_write {value : AList fun _ : Str => Str}
    (h : Sound fromStr repo ⟨w, before ++ .write value :: after⟩)
    (hadv : advance repo w (.write value) = some (w', p')) (hok : w'.log.ioFailed = false) :
    Sound fromStr repo ⟨w', before ++ p' :: after⟩ := by
  have hcurrent : Current repo w value :=
    h.carried (.write value) (List.mem_append_right _ List.mem_cons_self)
  rcases Fs.exec_writeFile (tmpPath S repo) (S.serde.upstreamTagsToVec value) w.fs with
    ⟨hnone, hdir, hwrite⟩ | ⟨e, hwrite⟩
  · simp only [advance, exec_onFs_ok hwrite] at hadv
    cases hadv
    have hread : (w.fs.set (tmpPath S repo) (.file (S.serde.upstreamTagsToVec value))).read
        (tmpPath S repo) = some (S.serde.upstreamTagsToVec value) := by
      rw [Fs.read_eq_some, Fs.node_set, if_pos rfl]
    -- Another call that is about to rename publishes this file instead of its own.
    have hrename : Carries repo { w with
        fs := w.fs.set (tmpPath S repo) (.file (S.serde.upstreamTagsToVec value)) } .rename :=
      ⟨Fs.isDir_set_file (Fs.node_ne_dir_of_isDir hnone) hdir, Or.inl ⟨value, hread, hcurrent⟩⟩
    refine sound_pending (fun q hq => ?_) hrename rfl
    exact (h.carried q (Pool.mem_of_other hq)).keep rfl fun _ => hrename
  · simp only [advance, exec_onFs_error hwrite] at hadv
    cases hadv
    cases hok

/-- A turn that publishes the digests in memory. -/
theorem sound_published (hround : Roundtrip S fromStr)
    (hothers : ∀ q ∈ before ++ after, Carries repo w' q)
    (hside : Written repo w' (upstreamTagsPath S.root repo)) :
    Sound fromStr repo ⟨w', before ++ .returned :: after⟩ := by
  obtain ⟨value, hread, hcurrent⟩ := hside
  refine ⟨fun q hq => ?_, fun _ => restores_of_read hround hread hcurrent⟩
  rcases Pool.mem_replace (p := .returned) hq with rfl | ⟨hq, -⟩
  · trivial
  · exact hothers q hq

theorem sound_rename (hround : Roundtrip S fromStr)
    (h : Sound fromStr repo ⟨w, before ++ .rename :: after⟩)
    (hok : ((probeFs (Fs.rename (tmpPath S repo) (upstreamTagsPath S.root repo)) :
      Prog (World S) IoKind Unit).exec w).2.log.ioFailed = false) :
    Sound fromStr repo ⟨((probeFs (Fs.rename (tmpPath S repo) (upstreamTagsPath S.root repo)) :
      Prog (World S) IoKind Unit).exec w).2, before ++ .returned :: after⟩ := by
  have hself : Carries repo w .rename :=
    h.carried .rename (List.mem_append_right _ List.mem_cons_self)
  obtain ⟨hdir, ⟨value, hread, hcurrent⟩ | ⟨hnone, hside⟩⟩ := hself
  · rcases rename_tmp hread hdir with ⟨fs', hrename, hside, htmp, hdir'⟩ | hrename
    · rw [exec_probeFs_ok hrename]
      have hpublished : Written repo { w with fs := fs' } (upstreamTagsPath S.root repo) :=
        ⟨value, hside, hcurrent⟩
      refine sound_published hround (fun q hq => ?_) hpublished
      exact (h.carried q (Pool.mem_of_other hq)).keep rfl fun _ =>
        ⟨hdir', Or.inr ⟨htmp, hpublished⟩⟩
    · rw [exec_probeFs_error hrename] at hok
      simp at hok
  · -- Another call has renamed the temporary file.
    rcases Fs.exec_rename (tmpPath S repo) (upstreamTagsPath S.root repo) w.fs with
      ⟨b, hb, -⟩ | ⟨e, hrename⟩
    · cases hb.symm.trans hnone
    · rw [exec_probeFs_error hrename]
      refine sound_published hround (fun q hq => ?_) (hside.congr rfl rfl)
      exact (h.carried q (Pool.mem_of_other hq)).keep rfl id

end Turn

/-- One turn of a call. -/
theorem sound_turn (hround : Roundtrip S fromStr) {w w' : World S} {before after : List Phase}
    {p p' : Phase} (h : Sound fromStr repo ⟨w, before ++ p :: after⟩)
    (horderly : ∀ tag d, p = .insert tag d → ∀ q ∈ before ++ p :: after, q.carrying = false)
    (hadv : advance repo w p = some (w', p')) (hok : w'.log.ioFailed = false) :
    Sound fromStr repo ⟨w', before ++ p' :: after⟩ := by
  cases p with
  | insert tag d =>
    cases hadv
    refine sound_pending (fun q hq => ?_) trivial rfl
    exact carries_of_not_carrying (horderly tag d rfl q (Pool.mem_of_other hq))
  | snapshot =>
    cases hadv
    refine sound_pending (fun q hq => h.carried q (Pool.mem_of_other hq)) (fun tag => ?_) rfl
    exact lookup_snapshot w repo tag
  | createDir value =>
    cases hadv
    exact sound_createDir h hok
  | write value => exact sound_write h hadv hok
  | rename =>
    cases hadv
    exact sound_rename hround h hok
  | returned => cases hadv

theorem not_failed_before_turn {w w' : World S} {p p' : Phase}
    (hadv : advance repo w p = some (w', p')) (hok : w'.log.ioFailed = false) :
    w.log.ioFailed = false := by
  cases p with
  | insert tag d =>
    cases hadv
    exact hok
  | snapshot =>
    cases hadv
    exact hok
  | createDir value =>
    cases hadv
    rcases hop : (Fs.createDirAll (repoDir S.root repo)).exec w.fs with ⟨e | u, fs'⟩
    · rw [exec_onFs_error hop] at hok
      cases hok
    · rw [exec_onFs_ok hop] at hok
      exact hok
  | write value =>
    rcases Fs.exec_writeFile (tmpPath S repo) (S.serde.upstreamTagsToVec value) w.fs with
      ⟨-, -, hop⟩ | ⟨e, hop⟩
    · simp only [advance, exec_onFs_ok hop] at hadv
      cases hadv
      exact hok
    · simp only [advance, exec_onFs_error hop] at hadv
      cases hadv
      cases hok
  | rename =>
    cases hadv
    rcases Fs.exec_rename (tmpPath S repo) (upstreamTagsPath S.root repo) w.fs with
      ⟨b, -, -, -, hop⟩ | ⟨e, hop⟩
    · rw [exec_probeFs_ok hop] at hok
      exact hok
    · rw [exec_probeFs_error hop] at hok
      exact (Bool.or_eq_false_iff.mp hok).1
  | returned => cases hadv

/-- Where the map is only updated while no call holds a snapshot that it has not renamed yet,
loading the sidecar gives the digests in memory whenever no call is in progress. -/
theorem sidecar_keeps_tags (hround : Roundtrip S fromStr) {w : World S} {s : Pool (World S) Phase}
    (hstart : Restores fromStr repo w) (hrun : (runs (step repo) Orderly).rel ⟨w, []⟩ s)
    (hidle : Idle s) (hok : s.memory.log.ioFailed = false) : Restores fromStr repo s.memory := by
  have hsound : s.memory.log.ioFailed = false → Sound fromStr repo s := by
    refine Evolution.star_keep (I := fun s => s.memory.log.ioFailed = false → Sound fromStr repo s)
      ?_ hrun fun _ => ⟨fun _ hp => absurd hp List.not_mem_nil, fun _ => hstart⟩
    rintro s t ⟨a, ha, hstep⟩ ih hok
    cases a with
    | call tag d =>
      cases hstep
      have hs := ih hok
      refine ⟨fun q hq => ?_, fun hidle => hs.restores fun q hq => hidle q (List.mem_append_left _ hq)⟩
      rcases List.mem_append.mp hq with hq | hq
      · exact hs.carried q hq
      · rw [List.mem_singleton.mp hq]
        trivial
    | turn i =>
      obtain ⟨before, p, after, w', p', hp, htasks, hadv, rfl⟩ := Pool.turn_cases hstep
      have hs := ih (not_failed_before_turn hadv hok)
      have heq : s = ⟨s.memory, before ++ p :: after⟩ := by rw [← htasks]
      rw [heq] at hs
      refine sound_turn hround hs (fun tag d hinsert q hq => ?_) hadv hok
      simp only [Orderly, hp, hinsert] at ha
      exact ha q (by rw [htasks]; exact hq)
  refine (hsound hok).restores fun p hp => ?_
  rw [hidle p hp]
  rfl

end Invariant

/-! Two tags of one repository, cached at the same time. -/

def mirror : Setup := Codec.server ["docker/".toList] []

def app : Str := "docker/app".toList

def v1 : Str := "v1".toList

def v2 : Str := "v2".toList

def content : Digest := mirror.digest []

def fresh : World mirror := World.start mirror [3, 4] []

theorem roundtrip_mirror : Roundtrip mirror Codec.upstreamTagsFromStr := Codec.upstreamTags_roundtrip

theorem restores_start (S : Setup) (fromStr : Bytes → Option (AList fun _ : Str => Str)) (repo : Str)
    (ticks wall : List Nat) : Restores fromStr repo (World.start S ticks wall) := by
  intro now r tag
  have hdisk : onDisk S fromStr (World.start S ticks wall).fs repo = ∅ := by
    rw [onDisk, World.start, read_emptyRoot]
    rfl
  rw [lookup_loadUpstreamRepo, hdisk]
  have hmemory : (World.start S ticks wall).upstreamTags.lookup (repo, tag) = none := rfl
  have hempty : (∅ : AList fun _ : Str => Str).lookup tag = none := rfl
  rw [hmemory, hempty]
  split <;> rfl

/-- The first call takes its snapshot before the second call updates the map and renames it last:
the second tag is in memory and not on disk. -/
theorem late_rename_drops_tag :
    ¬ ∀ (S : Setup) (fromStr : Bytes → Option (AList fun _ : Str => Str)) (repo : Str),
      Roundtrip S fromStr → ∀ w : World S, Restores fromStr repo w →
      ∀ s : Pool (World S) Phase, (runs (step repo) anyStep).rel ⟨w, []⟩ s → Idle s →
        s.memory.log.ioFailed = false → Restores fromStr repo s.memory := by
  intro h
  obtain ⟨s, hrun, hidle, hok, hmemory, hdisk⟩ := exists_run_of_follow (step app) anyStep ⟨fresh, []⟩
    [.call v1 content, .call v2 content, .turn 0, .turn 0, .turn 1, .turn 1, .turn 1, .turn 1,
      .turn 1, .turn 0, .turn 0, .turn 0]
    (fun s => (∀ p ∈ s.tasks, p = .returned) ∧ s.memory.log.ioFailed = false ∧
      s.memory.upstreamTags.lookup (app, v2) = some (content, 7) ∧
      (loadUpstreamRepo mirror Codec.upstreamTagsFromStr s.memory.fs 0 app ∅).lookup (app, v2) = none)
    (by decide +kernel)
  have hlost := h mirror Codec.upstreamTagsFromStr app roundtrip_mirror fresh
    (restores_start _ _ _ _ _) s hrun hidle hok 0 app v2
  rw [hdisk, hmemory] at hlost
  cases hlost

instance : DecidableRel (Orderly (S := mirror)) := fun s act =>
  match act with
  | .call _ _ => .isTrue trivial
  | .turn i => by
    unfold Orderly
    simp only
    split <;> infer_instance

/-- Two calls update the map before either takes its snapshot; both tags can be loaded. -/
theorem orderly_inserts_are_kept : ∃ s : Pool (World mirror) Phase,
    ∀ now, ((loadUpstreamRepo mirror Codec.upstreamTagsFromStr s.memory.fs now app ∅).lookup
        (app, v1)).map Prod.fst = some content ∧
      ((loadUpstreamRepo mirror Codec.upstreamTagsFromStr s.memory.fs now app ∅).lookup
        (app, v2)).map Prod.fst = some content := by
  obtain ⟨s, hrun, hidle, hok, h₁, h₂⟩ := exists_run_of_follow (step app) Orderly ⟨fresh, []⟩
    [.call v1 content, .call v2 content, .turn 0, .turn 1, .turn 0, .turn 1, .turn 0, .turn 1,
      .turn 0, .turn 1, .turn 0, .turn 1]
    (fun s => (∀ p ∈ s.tasks, p = .returned) ∧ s.memory.log.ioFailed = false ∧
      s.memory.upstreamTags.lookup (app, v1) = some (content, 3) ∧
      s.memory.upstreamTags.lookup (app, v2) = some (content, 7))
    (by decide +kernel)
  have hkept := sidecar_keeps_tags roundtrip_mirror (restores_start mirror _ app [3, 4] []) hrun
    hidle hok
  refine ⟨s, fun now => ⟨(hkept now app v1).trans ?_, (hkept now app v2).trans ?_⟩⟩
  · rw [if_pos rfl, h₁]
    rfl
  · rw [if_pos rfl, h₂]
    rfl

end Quill.Server.TagCacheSteps
