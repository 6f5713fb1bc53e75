import Quill.Base.Runs
import Quill.Registry.Sidecars
import Quill.Storage.Codec

/-!
# Local tags, step by step

Any number of `LocalTagsStore::set` and `remove` calls take turns. A call acquires the write
lock of its repository, updates the map, takes a snapshot of the repository's tags, creates the
directory, writes the temporary file, renames it over the sidecar and releases the lock. A
`remove` of an absent tag releases the lock at once, and so does a call whose file-system
step fails. The lock here belongs to one repository; in the source a call also
holds the shard of the lock table, which only forbids more interleavings.

`Guarded` is the invariant: each lock has one holder, what a holder carries to the disk are the tags
of its repository in the map, and a repository without a pending write has a sidecar that loads
as its tags. Runs start where this is so. A call that runs alone does what the sequential one does
(`set_alone`, `remove_alone`).
-/

namespace Quill.Registry.LocalTagsSteps

open Text Files Cas World LocalTags

/-! ## The steps -/

/-- The updates of the local tags. -/
inductive Op where
  | set (tag : Str) (d : Digest)
  | remove (tag : Str)

/-- The next step of a call. -/
inductive Phase where
  | acquire (repo : Str) (op : Op)
  | update (repo : Str) (op : Op)
  | snapshot (repo : Str)
  | createDir (repo : Str) (value : OnDiskTags)
  | write (repo : Str) (value : OnDiskTags)
  | rename (repo : Str)
  | release (repo : Str)
  | returned

/-- The repository of a call in progress. -/
def Phase.repo : Phase → Option Str
  | .acquire repo _ => some repo
  | .update repo _ => some repo
  | .snapshot repo => some repo
  | .createDir repo _ => some repo
  | .write repo _ => some repo
  | .rename repo => some repo
  | .release repo => some repo
  | .returned => none

/-- The repository whose lock the call holds. -/
def Phase.holds : Phase → Option Str
  | .acquire _ _ => none
  | p => p.repo

/-- The repository whose map is ahead of its sidecar. -/
def Phase.pending : Phase → Option Str
  | .snapshot repo => some repo
  | .createDir repo _ => some repo
  | .write repo _ => some repo
  | .rename repo => some repo
  | _ => none

/-- The world and the repositories whose write lock is taken. -/
structure Shared (S : Setup) where
  world : World S
  held : Finset Str

section Steps

variable {S : Setup}

/-- The map update; a tag that is not there cannot be removed. -/
def update (repo : Str) (w : World S) : Op → Option (World S)
  | .set tag d => some { w with
      localTags := w.localTags.insert (repo, tag) ⟨d.toStr, w.wall.headD 0⟩
      wall := w.wall.tail }
  | .remove tag =>
    match w.localTags.lookup (repo, tag) with
    | none => none
    | some _ => some { w with localTags := w.localTags.erase (repo, tag) }

/-- A file-system step of a call; an error ends the call. -/
def fsStep (m : Shared S) (repo : Str) (op : Prog Fs IoKind Unit) (next : Phase) :
    Shared S × Phase :=
  let r := (onFs op).exec m.world
  ({ m with world := r.2 }, match r.1 with
    | .ok _ => next
    | .error _ => .release repo)

/-- One step of a call. -/
def advance (m : Shared S) : Phase → Option (Shared S × Phase)
  | .acquire repo op =>
    if repo ∈ m.held then none else some ({ m with held := insert repo m.held }, .update repo op)
  | .update repo op =>
    match update repo m.world op with
    | none => some (m, .release repo)
    | some w => some ({ m with world := w }, .snapshot repo)
  | .snapshot repo => some (m, .createDir repo (LocalTags.snapshot m.world.localTags repo))
  | .createDir repo value =>
    some (fsStep m repo (Fs.createDirAll (repoDir S.root repo)) (.write repo value))
  | .write repo value =>
    some (fsStep m repo (Fs.writeFile (tmpPath S repo) (S.serde.tagsToVec value)) (.rename repo))
  | .rename repo =>
    some (fsStep m repo (Fs.rename (tmpPath S repo) (localTagsPath S.root repo)) (.release repo))
  | .release repo => some ({ m with held := m.held.erase repo }, .returned)
  | .returned => none

/-- An update is called, or takes its next step. -/
inductive Act where
  | call (repo : Str) (op : Op)
  | turn (i : Nat)

/-- One step of the server. -/
def step (s : Pool (Shared S) Phase) : Act → Option (Pool (Shared S) Phase)
  | .call repo op => some (s.spawn (.acquire repo op))
  | .turn i => s.turn advance i

/-- Calls name repositories with `P`. -/
def CallsTo (P : Str → Prop) (_ : Pool (Shared S) Phase) : Act → Prop
  | .call repo _ => P repo
  | .turn _ => True

/-- No call on the repository is in progress. -/
def Idle (repo : Str) (s : Pool (Shared S) Phase) : Prop := ∀ p ∈ s.tasks, p.repo ≠ some repo

theorem fsStep_cases (m : Shared S) (repo : Str) (op : Prog Fs IoKind Unit) (next : Phase) :
    (∃ fs', op.exec m.world.fs = (.ok (), fs') ∧
      fsStep m repo op next = ({ m with world := { m.world with fs := fs' } }, next)) ∨
    ∃ e fs', op.exec m.world.fs = (.error e, fs') ∧
      fsStep m repo op next = ({ m with world := { m.world with
        fs := fs', log := { m.world.log with ioFailed := true } } }, .release repo) := by
  rcases h : op.exec m.world.fs with ⟨e | u, fs'⟩
  · exact Or.inr ⟨e, fs', rfl, by simp only [fsStep, exec_onFs_error h]⟩
  · exact Or.inl ⟨fs', rfl, by simp only [fsStep, exec_onFs_ok h]⟩

end Steps

/-! ## A call alone -/

section Alone

variable {S : Setup}

theorem alone_returned (n : Nat) (m : Shared S) : Pool.alone advance n m .returned = m :=
  Pool.alone_done rfl n

theorem alone_release (n : Nat) (m : Shared S) (repo : Str) :
    (Pool.alone advance (n + 1) m (.release repo)).world = m.world := by
  have hstep : advance m (.release repo) = some (⟨m.world, m.held.erase repo⟩, .returned) := rfl
  rw [Pool.alone_succ hstep, alone_returned]

/-- A file-system step and what follows it, against the sequential program. -/
theorem alone_fsStep (m : Shared S) (p next : Phase) {repo : Str} {op : Prog Fs IoKind Unit}
    {rest : Prog (World S) LocalTagsError Unit} {n : Nat}
    (hstep : advance m p = some (fsStep m repo op next))
    (hrest : ∀ w, (rest.exec w).2 = (Pool.alone advance (n + 1) ⟨w, m.held⟩ next).world) :
    ((((onFs op).mapError LocalTagsError.io >>= fun _ => rest) :
      Prog (World S) LocalTagsError Unit).exec m.world).2 =
        (Pool.alone advance (n + 2) m p).world := by
  rcases fsStep_cases m repo op next with ⟨fs', hop, hfs⟩ | ⟨e, fs', hop, hfs⟩
  · rw [hfs] at hstep
    rw [Pool.alone_succ hstep, Prog.exec_bind_ok (exec_mapError_ok (exec_onFs_ok hop))]
    exact hrest _
  · rw [hfs] at hstep
    rw [Pool.alone_succ hstep, Prog.exec_bind_error (exec_mapError_error (exec_onFs_error hop)),
      alone_release]

/-- Two file-system steps in one and one after the other. -/
theorem exec_onFs_seq {ε : Type} (f : IoKind → ε) (op op' : Prog Fs IoKind Unit) (w : World S) :
    ((onFs (op >>= fun _ => op')).mapError f : Prog (World S) ε Unit).exec w =
      (((onFs op).mapError f : Prog (World S) ε Unit) >>= fun _ => (onFs op').mapError f).exec w := by
  rcases h : op.exec w.fs with ⟨e | u, fs'⟩
  · have hboth : (op >>= fun _ => op').exec w.fs = (.error e, fs') := Prog.exec_bind_error h
    rw [exec_mapError_error (exec_onFs_error hboth),
      Prog.exec_bind_error (exec_mapError_error (exec_onFs_error h))]
  · have hboth : (op >>= fun _ => op').exec w.fs = op'.exec fs' := Prog.exec_bind_ok h
    rw [Prog.exec_bind_ok (exec_mapError_ok (exec_onFs_ok h))]
    simp only [Prog.exec_mapError, onFs, Prog.exec_ofFun, hboth]

/-- `write_atomic` alone. -/
theorem writeSidecar_alone (m : Shared S) (repo : Str) (value : OnDiskTags) :
    ((writeSidecar repo value).exec m.world).2 =
      (Pool.alone advance 4 m (.createDir repo value)).world := by
  refine alone_fsStep m (.createDir repo value) (.write repo value) rfl fun w => ?_
  refine (congrArg Prod.snd (exec_onFs_seq _ _ _ w)).trans ?_
  refine alone_fsStep ⟨w, m.held⟩ (.write repo value) (.rename repo) rfl fun w => ?_
  rw [← bind_pure_unit (x := (onFs _).mapError _)]
  refine alone_fsStep ⟨w, m.held⟩ (.rename repo) (.release repo) rfl fun w => ?_
  exact (alone_release 0 ⟨w, m.held⟩ repo).symm

/-- The steps after an update of the map, alone. -/
theorem alone_snapshot (m : Shared S) (repo : Str) :
    (Pool.alone advance 5 m (.snapshot repo)).world =
      ((writeSidecar repo (LocalTags.snapshot m.world.localTags repo)).exec m.world).2 := by
  rw [writeSidecar_alone]
  rfl

theorem advance_acquire (w : World S) (repo : Str) (op : Op) :
    advance ⟨w, ∅⟩ (.acquire repo op) = some (⟨w, insert repo ∅⟩, .update repo op) := by
  simp [advance]

/-- `LocalTagsStore::set` alone. -/
theorem set_alone (repo tag : Str) (d : Digest) (w : World S) :
    ((LocalTags.set repo tag d).exec w).2 =
      (Pool.alone advance 7 ⟨w, ∅⟩ (.acquire repo (.set tag d))).world := by
  rw [Pool.alone_succ (advance_acquire w repo (.set tag d))]
  exact (alone_snapshot ⟨_, insert repo ∅⟩ repo).symm

/-- `LocalTagsStore::remove` alone. -/
theorem remove_alone (repo tag : Str) (w : World S) :
    ((LocalTags.remove repo tag).exec w).2 =
      (Pool.alone advance 7 ⟨w, ∅⟩ (.acquire repo (.remove tag))).world := by
  rw [Pool.alone_succ (advance_acquire w repo (.remove tag))]
  have hrun : (LocalTags.remove (S := S) repo tag).exec w = _ := Prog.exec_bind_ok (Prog.exec_get w)
  rw [hrun]
  cases htag : w.localTags.lookup (repo, tag) with
  | none =>
    have hupdate : advance (S := S) ⟨w, insert repo ∅⟩ (.update repo (.remove tag)) =
        some (⟨w, insert repo ∅⟩, .release repo) := by simp only [advance, update, htag]
    rw [Pool.alone_succ hupdate, alone_release]
    rfl
  | some t =>
    have hupdate : advance (S := S) ⟨w, insert repo ∅⟩ (.update repo (.remove tag)) =
        some (⟨{ w with localTags := w.localTags.erase (repo, tag) }, insert repo ∅⟩,
          .snapshot repo) := by simp only [advance, update, htag]
    rw [Pool.alone_succ hupdate, alone_snapshot]
    rcases hwrite : (writeSidecar (S := S) repo (LocalTags.snapshot
      (w.localTags.erase (repo, tag)) repo)).exec
        { w with localTags := w.localTags.erase (repo, tag) } with ⟨e | u, w'⟩
    · have hrest := Prog.exec_bind_error (f := fun _ => pure true) hwrite
      exact congrArg Prod.snd hrest
    · have hrest := Prog.exec_bind_ok (f := fun _ => pure true) hwrite
      exact congrArg Prod.snd hrest

end Alone

/-! ## Fresh stores -/

section Loading

variable {S : Setup}

/-- The map of a fresh store after `load_repo`; an error leaves the store empty. -/
def loaded (S : Setup) (fs : Fs) (repo : Str) : TagMap :=
  match loadRepo S fs repo ∅ with
  | .ok map => map
  | .error _ => ∅

/-- A fresh store that loads the repository has the live store's tags of it and nothing else. -/
def Mirrors (w : World S) (repo : Str) : Prop :=
  ∀ r tag, (loaded S w.fs repo).lookup (r, tag) =
    if r = repo then w.localTags.lookup (r, tag) else none

/-- The tags of a sidecar that can be read. -/
def onDisk (S : Setup) (fs : Fs) (repo : Str) : Option OnDiskTags :=
  (fs.read (localTagsPath S.root repo)).bind S.serde.tagsFromStr

/-- Loading adds the tags of a sidecar that can be read, and otherwise nothing. -/
theorem loadRepo_cases (S : Setup) (fs : Fs) (repo : Str) :
    (∃ tags, onDisk S fs repo = some tags ∧ ∀ map, ∃ map', loadRepo S fs repo map = .ok map' ∧
      ∀ r tag, map'.lookup (r, tag) =
        if r = repo then (tags.lookup tag).or (map.lookup (r, tag)) else map.lookup (r, tag)) ∨
    (onDisk S fs repo = none ∧
      ∀ map map', loadRepo S fs repo map = .ok map' → map' = map) := by
  cases hbody : fs.read (localTagsPath S.root repo) with
  | none =>
    refine Or.inr ⟨by simp [onDisk, hbody], fun map map' h => ?_⟩
    unfold loadRepo at h
    simp only [hbody] at h
    split at h
    · cases h
    · exact (Except.ok.inj h).symm
  | some body =>
    cases hparse : S.serde.tagsFromStr body with
    | none =>
      refine Or.inr ⟨by simp [onDisk, hbody, hparse], fun map map' h => ?_⟩
      unfold loadRepo at h
      simp only [hbody, hparse] at h
      split at h
      · cases h
      · exact (Except.ok.inj h).symm
    | some tags =>
      exact Or.inl ⟨tags, by simp [onDisk, hbody, hparse], loadRepo_of_read hbody hparse⟩

/-- What a fresh store holds is read off the sidecar. -/
theorem lookup_loaded (S : Setup) (fs : Fs) (repo r tag : Str) :
    (loaded S fs repo).lookup (r, tag) =
      if r = repo then (onDisk S fs repo).bind fun tags => tags.lookup tag else none := by
  have hempty : (∅ : TagMap).lookup (r, tag) = none := rfl
  rcases loadRepo_cases S fs repo with ⟨tags, htags, hload⟩ | ⟨hnone, hload⟩
  · obtain ⟨map, hmap, hlook⟩ := hload ∅
    have hloaded : loaded S fs repo = map := by
      unfold loaded
      rw [hmap]
    rw [hloaded, hlook, hempty, Option.or_none, htags, Option.bind_some]
  · have hloaded : loaded S fs repo = ∅ := by
      unfold loaded
      split
      · exact hload ∅ _ ‹_›
      · rfl
    rw [hloaded, hempty, hnone, Option.bind_none, ite_self]

theorem mirrors_iff {w : World S} {repo : Str} :
    Mirrors w repo ↔ ∀ tag, ((onDisk S w.fs repo).bind fun tags => tags.lookup tag) =
      w.localTags.lookup (repo, tag) := by
  unfold Mirrors
  simp only [lookup_loaded]
  constructor
  · intro h tag
    have hlook := h repo tag
    rwa [if_pos rfl, if_pos rfl] at hlook
  · intro h r tag
    split
    · rename_i hr
      rw [hr]
      exact h tag
    · rfl

/-- A sidecar written from the tags in the map. -/
theorem Mirrors.of_written {w : World S} {repo : Str} {m : OnDiskTags}
    (hread : w.fs.read (localTagsPath S.root repo) = some (S.serde.tagsToVec m))
    (hm : ∀ tag, m.lookup tag = w.localTags.lookup (repo, tag)) : Mirrors w repo := by
  obtain ⟨m', hparse, hm'⟩ := S.serde.tags_roundtrip m
  refine mirrors_iff.mpr fun tag => ?_
  have hdisk : onDisk S w.fs repo = some m' := by simp [onDisk, hread, hparse]
  rw [hdisk, Option.bind_some, hm', hm]

/-- Loading twice is loading once. -/
theorem loadRepo_twice {fs : Fs} {repo : Str} {map map' : TagMap}
    (h : loadRepo S fs repo map = .ok map') :
    ∃ map'', loadRepo S fs repo map' = .ok map'' ∧
      ∀ r tag, map''.lookup (r, tag) = map'.lookup (r, tag) := by
  rcases loadRepo_cases S fs repo with ⟨tags, -, hload⟩ | ⟨-, hload⟩
  · obtain ⟨map₁, h₁, hmap₁⟩ := hload map
    obtain ⟨map₂, h₂, hmap₂⟩ := hload map'
    have hsame : map₁ = map' := Except.ok.inj (h₁.symm.trans h)
    refine ⟨map₂, h₂, fun r tag => ?_⟩
    rw [hmap₂]
    split
    · rename_i hr
      have hlook := hmap₁ r tag
      rw [hsame, if_pos hr] at hlook
      rw [hlook]
      cases tags.lookup tag <;> rfl
    · rfl
  · have hsame : map' = map := hload map map' h
    rw [hsame] at h ⊢
    exact ⟨map, h, fun _ _ => rfl⟩

/-- Loading into a live store that the sidecar mirrors changes nothing. -/
theorem Mirrors.reload {w : World S} {repo : Str} {map : TagMap} (h : Mirrors w repo)
    (hload : loadRepo S w.fs repo w.localTags = .ok map) (r tag : Str) :
    map.lookup (r, tag) = w.localTags.lookup (r, tag) := by
  rcases loadRepo_cases S w.fs repo with ⟨tags, htags, hcase⟩ | ⟨-, hcase⟩
  · obtain ⟨map₁, h₁, hmap₁⟩ := hcase w.localTags
    have hsame : map₁ = map := Except.ok.inj (h₁.symm.trans hload)
    rw [← hsame, hmap₁]
    split
    · rename_i hr
      have hlook := mirrors_iff.mp h tag
      rw [htags, Option.bind_some] at hlook
      rw [hr, hlook, Option.or_self]
    · rfl
  · rw [hcase _ _ hload]

end Loading

/-! ## What a step leaves alone -/

section Elsewhere

variable {S : Setup} {P : Str → Prop} {repo : Str}

/-- Only the files and the tags of one repository change. -/
structure Elsewhere (P : Str → Prop) (repo : Str) (w w' : World S) : Prop where
  sidecar : ∀ r, P r → r ≠ repo →
    w'.fs.read (localTagsPath S.root r) = w.fs.read (localTagsPath S.root r)
  tmp : ∀ r, P r → r ≠ repo → w'.fs.read (tmpPath S r) = w.fs.read (tmpPath S r)
  tags : ∀ r tag, r ≠ repo → w'.localTags.lookup (r, tag) = w.localTags.lookup (r, tag)

theorem Elsewhere.refl (w : World S) : Elsewhere P repo w w :=
  ⟨fun _ _ _ => rfl, fun _ _ _ => rfl, fun _ _ _ => rfl⟩

theorem Elsewhere.mirrors {w w' : World S} (h : Elsewhere P repo w w') {r : Str} (hr : P r)
    (hne : r ≠ repo) : Mirrors w' r ↔ Mirrors w r := by
  have hdisk : onDisk S w'.fs r = onDisk S w.fs r := by
    unfold onDisk
    rw [h.sidecar r hr hne]
  rw [mirrors_iff, mirrors_iff, hdisk]
  simp only [h.tags _ _ hne]

theorem elsewhere_update {w w' : World S} {op : Op} (h : update repo w op = some w') :
    Elsewhere P repo w w' := by
  cases op with
  | set tag d =>
    cases h
    refine ⟨fun _ _ _ => rfl, fun _ _ _ => rfl, fun r t hr => ?_⟩
    exact AList.lookup_insert_ne fun he => hr (Prod.mk.inj he).1
  | remove tag =>
    simp only [update] at h
    split at h
    · cases h
    · cases h
      refine ⟨fun _ _ _ => rfl, fun _ _ _ => rfl, fun r t hr => ?_⟩
      exact AList.lookup_erase_ne fun he => hr (Prod.mk.inj he).1

/-- A file-system step that changes no file but the sidecar of the repository and its temporary
file. -/
theorem elsewhere_fsStep (hP : Separate S P) (hrepo : P repo) {m : Shared S}
    {op : Prog Fs IoKind Unit} (next : Phase)
    (h : ∀ q, q ≠ localTagsPath S.root repo → q ≠ tmpPath S repo →
      (op.exec m.world.fs).2.read q = m.world.fs.read q) :
    Elsewhere P repo m.world (fsStep m repo op next).1.world := by
  have hfs : (fsStep m repo op next).1.world.fs = (op.exec m.world.fs).2 := by
    rcases fsStep_cases m repo op next with ⟨fs', hop, he⟩ | ⟨e, fs', hop, he⟩
    · rw [he, hop]
    · rw [he, hop]
  have htags : (fsStep m repo op next).1.world.localTags = m.world.localTags := by
    rcases fsStep_cases m repo op next with ⟨fs', -, he⟩ | ⟨e, fs', -, he⟩
    · rw [he]
    · rw [he]
  have hname : localTagsName ≠ localTagsTmpName := by decide
  refine ⟨fun r hr hne => ?_, fun r hr hne => ?_, fun r tag _ => by rw [htags]⟩
  · rw [hfs]
    refine h _ (fun he => hne (hP r repo hr hrepo (List.cons.inj he).2)) fun he => ?_
    exact hname (List.cons.inj he).1
  · rw [hfs]
    refine h _ (fun he => hname (List.cons.inj he).1.symm) fun he => ?_
    exact hne (hP r repo hr hrepo (List.cons.inj he).2)

theorem read_writeFile (p : Path) (b : Bytes) (fs : Fs) {q : Path} (hq : q ≠ p) :
    ((Fs.writeFile p b).exec fs).2.read q = fs.read q := by
  rcases Fs.exec_writeFile p b fs with ⟨-, -, h⟩ | ⟨e, h⟩
  · rw [h]
    exact Fs.read_congr (by rw [Fs.node_set, if_neg hq])
  · rw [h]

theorem read_rename (src dst : Path) (fs : Fs) {q : Path} (hsrc : q ≠ src) (hdst : q ≠ dst) :
    ((Fs.rename src dst).exec fs).2.read q = fs.read q := by
  rcases Fs.exec_rename src dst fs with ⟨b, -, -, -, h⟩ | ⟨e, h⟩
  · rw [h]
    exact Fs.read_congr (by rw [Fs.node_set, if_neg hdst, Fs.node_del, if_neg hsrc])
  · rw [h]

/-- One step of a call on a repository. -/
theorem advance_elsewhere (hP : Separate S P) {m m' : Shared S} {p p' : Phase}
    (hp : p.repo = some repo) (hrepo : P repo) (h : advance m p = some (m', p')) :
    Elsewhere P repo m.world m'.world := by
  cases p with
  | acquire r op =>
    simp only [advance] at h
    split at h
    · cases h
    · cases h
      exact Elsewhere.refl _
  | update r op =>
    cases hp
    simp only [advance] at h
    split at h
    · cases h
      exact Elsewhere.refl _
    · cases h
      exact elsewhere_update ‹_›
  | snapshot r =>
    cases h
    exact Elsewhere.refl _
  | createDir r value =>
    cases hp
    cases h
    refine elsewhere_fsStep hP hrepo (.write repo value) fun q _ _ => ?_
    exact Fs.growsDirs_read (Fs.createDirAll_grows _ _) q
  | write r value =>
    cases hp
    cases h
    exact elsewhere_fsStep hP hrepo (.rename repo) fun q _ hq => read_writeFile _ _ _ hq
  | rename r =>
    cases hp
    cases h
    exact elsewhere_fsStep hP hrepo (.release repo) fun q hq hq' => read_rename _ _ _ hq' hq
  | release r =>
    cases h
    exact Elsewhere.refl _
  | returned => cases h

end Elsewhere

/-! ## The invariant -/

section Invariant

variable {S : Setup} {P : Str → Prop}

/-- What a call is about to write are the tags of its repository. -/
def Carries (w : World S) : Phase → Prop
  | .createDir repo value => ∀ tag, value.lookup tag = w.localTags.lookup (repo, tag)
  | .write repo value => ∀ tag, value.lookup tag = w.localTags.lookup (repo, tag)
  | .rename repo => ∃ value, w.fs.read (tmpPath S repo) = some (S.serde.tagsToVec value) ∧
      ∀ tag, value.lookup tag = w.localTags.lookup (repo, tag)
  | _ => True

/-- The invariant: one update at a time holds the lock of a repository, and the sidecar mirrors the
map whenever no update is pending. -/
structure Guarded (P : Str → Prop) (s : Pool (Shared S) Phase) : Prop where
  calls : ∀ p ∈ s.tasks, ∀ repo, p.repo = some repo → P repo
  locked : ∀ repo, repo ∈ s.memory.held ↔ repo ∈ s.tasks.filterMap Phase.holds
  exclusive : (s.tasks.filterMap Phase.holds).Nodup
  carried : ∀ p ∈ s.tasks, Carries s.memory.world p
  mirrored : ∀ repo, P repo → (∀ p ∈ s.tasks, p.pending ≠ some repo) →
    Mirrors s.memory.world repo

theorem Phase.repo_of_holds {p : Phase} {repo : Str} (h : p.holds = some repo) :
    p.repo = some repo := by
  cases p <;> simp_all [Phase.holds, Phase.repo]

theorem Phase.holds_of_pending {p : Phase} {repo : Str} (h : p.pending = some repo) :
    p.holds = some repo := by
  cases p <;> simp_all [Phase.holds, Phase.repo, Phase.pending]

/-- What a call on another repository carries is not affected. -/
theorem Carries.elsewhere {w w' : World S} {p : Phase} {repo : Str} (h : Carries w p)
    (hcalls : ∀ r, p.repo = some r → P r) (helse : Elsewhere P repo w w')
    (hp : p.holds ≠ some repo) : Carries w' p := by
  have hne : ∀ r, p.holds = some r → r ≠ repo := by
    intro r hr he
    exact hp (he ▸ hr)
  cases p with
  | createDir r value => exact fun tag => (h tag).trans (helse.tags r tag (hne r rfl)).symm
  | write r value => exact fun tag => (h tag).trans (helse.tags r tag (hne r rfl)).symm
  | rename r =>
    obtain ⟨value, hread, hvalue⟩ := h
    refine ⟨value, ?_, fun tag => (hvalue tag).trans (helse.tags r tag (hne r rfl)).symm⟩
    rw [helse.tmp r (hcalls r rfl) (hne r rfl)]
    exact hread
  | acquire r op => trivial
  | update r op => trivial
  | snapshot r => trivial
  | release r => trivial
  | returned => trivial

section Turn

variable {m m' : Shared S} {before after : List Phase} {p p' : Phase} {repo : Str}

/-- A step of a call that holds its lock before and after. -/
theorem guarded_work (h : Guarded P ⟨m, before ++ p :: after⟩) (hp : p.holds = some repo)
    (hp' : p'.holds = some repo) (hheld : m'.held = m.held)
    (helse : Elsewhere P repo m.world m'.world) (hcarry : Carries m'.world p')
    (hmirror : p'.pending ≠ some repo → Mirrors m'.world repo) :
    Guarded P ⟨m', before ++ p' :: after⟩ := by
  have hP : P repo :=
    h.calls p (List.mem_append_right _ List.mem_cons_self) repo (Phase.repo_of_holds hp)
  have hothers : ∀ q ∈ before ++ after, q.holds ≠ some repo := fun q hq =>
    Pool.others_without h.exclusive hp hq
  have hkeys : ∀ r, r ∈ (before ++ p' :: after).filterMap Phase.holds ↔
      r ∈ (before ++ p :: after).filterMap Phase.holds := by
    intro r
    simp only [List.filterMap_append, List.filterMap_cons, hp, hp']
  refine ⟨fun q hq r hr => ?_, fun r => ?_, ?_, fun q hq => ?_, fun r hr hidle => ?_⟩
  · rcases Pool.mem_replace (p := p) hq with rfl | ⟨-, hq⟩
    · have hsame := (Phase.repo_of_holds hp').symm.trans hr
      cases hsame
      exact hP
    · exact h.calls q hq r hr
  · rw [hkeys]
    exact hheld ▸ h.locked r
  · refine Pool.nodup_replace h.exclusive fun r hr => Or.inl ?_
    exact hp.trans (hp'.symm.trans hr)
  · rcases Pool.mem_replace (p := p) hq with rfl | ⟨hq', hq⟩
    · exact hcarry
    · exact (h.carried q hq).elsewhere (h.calls q hq) helse (hothers q hq')
  · by_cases hr' : r = repo
    · subst hr'
      exact hmirror (hidle p' (List.mem_append_right _ List.mem_cons_self))
    · refine (helse.mirrors hr hr').mpr (h.mirrored r hr fun q hq hpending => ?_)
      rcases Pool.mem_replace (p := p') hq with rfl | ⟨-, hq⟩
      · have hsame := hp.symm.trans (Phase.holds_of_pending hpending)
        cases hsame
        exact hr' rfl
      · exact hidle q hq hpending

/-- Where the holder of a lock has nothing to write, the sidecar is up to date. -/
theorem mirrors_of_holds (h : Guarded P ⟨m, before ++ p :: after⟩) (hp : p.holds = some repo)
    (hpending : p.pending ≠ some repo) : Mirrors m.world repo := by
  have hmem : p ∈ before ++ p :: after := List.mem_append_right _ List.mem_cons_self
  refine h.mirrored repo (h.calls p hmem repo (Phase.repo_of_holds hp)) fun q hq => ?_
  rcases Pool.mem_replace (p := p) hq with rfl | ⟨hq', -⟩
  · exact hpending
  · exact fun hq'' => Pool.others_without h.exclusive hp hq' (Phase.holds_of_pending hq'')

theorem guarded_acquire {op : Op} (h : Guarded P ⟨m, before ++ .acquire repo op :: after⟩)
    (hfree : repo ∉ m.held) :
    Guarded P ⟨⟨m.world, insert repo m.held⟩, before ++ .update repo op :: after⟩ := by
  have hmem : Phase.acquire repo op ∈ before ++ .acquire repo op :: after :=
    List.mem_append_right _ List.mem_cons_self
  refine ⟨fun q hq r hr => ?_, fun r => ?_, ?_, fun q hq => ?_, fun r hr hidle => ?_⟩
  · rcases Pool.mem_replace (p := .acquire repo op) hq with rfl | ⟨-, hq⟩
    · exact h.calls _ hmem r hr
    · exact h.calls q hq r hr
  · have hlocked := h.locked r
    simp only [List.filterMap_append, List.filterMap_cons, Phase.holds, List.mem_append] at hlocked
    simp only [List.filterMap_append, List.filterMap_cons, Phase.holds, Phase.repo,
      List.mem_append, List.mem_cons, Finset.mem_insert, hlocked]
    tauto
  · refine Pool.nodup_replace h.exclusive fun r hr => Or.inr fun hin => ?_
    cases hr
    exact hfree ((h.locked _).mpr hin)
  · rcases Pool.mem_replace (p := .acquire repo op) hq with rfl | ⟨-, hq⟩
    · trivial
    · exact h.carried q hq
  · refine h.mirrored r hr fun q hq => ?_
    rcases Pool.mem_replace (p := .update repo op) hq with rfl | ⟨-, hq⟩
    · exact fun he => nomatch he
    · exact hidle q hq

theorem guarded_release (h : Guarded P ⟨m, before ++ .release repo :: after⟩) :
    Guarded P ⟨⟨m.world, m.held.erase repo⟩, before ++ .returned :: after⟩ := by
  refine ⟨fun q hq r hr => ?_, fun r => ?_, ?_, fun q hq => ?_, fun r hr hidle => ?_⟩
  · rcases Pool.mem_replace (p := .release repo) hq with rfl | ⟨-, hq⟩
    · cases hr
    · exact h.calls q hq r hr
  · have hlocked := h.locked r
    have hothers : repo ∉ (before ++ after).filterMap Phase.holds := by
      intro hin
      obtain ⟨q, hq, hqr⟩ := List.mem_filterMap.mp hin
      exact Pool.others_without h.exclusive rfl hq hqr
    simp only [List.filterMap_append, List.filterMap_cons, Phase.holds, Phase.repo,
      List.mem_append, List.mem_cons] at hlocked hothers
    simp only [List.filterMap_append, List.filterMap_cons, Phase.holds, Phase.repo,
      List.mem_append, Finset.mem_erase, hlocked]
    constructor
    · rintro ⟨hne, hin⟩
      tauto
    · intro hin
      refine ⟨?_, by tauto⟩
      rintro rfl
      exact hothers hin
  · refine Pool.nodup_replace h.exclusive fun r hr => ?_
    cases hr
  · rcases Pool.mem_replace (p := .release repo) hq with rfl | ⟨-, hq⟩
    · trivial
    · exact h.carried q hq
  · refine h.mirrored r hr fun q hq => ?_
    rcases Pool.mem_replace (p := .returned) hq with rfl | ⟨-, hq⟩
    · exact fun he => nomatch he
    · exact hidle q hq

/-- A file-system step of a call that holds its lock. -/
theorem guarded_fsStep (next : Phase) (h : Guarded P ⟨m, before ++ p :: after⟩)
    (hp : p.holds = some repo) {op : Prog Fs IoKind Unit} (hadv : advance m p = some (fsStep m repo op next))
    (hnext : next.holds = some repo) (hP : Separate S P)
    (hok : (fsStep m repo op next).1.world.log.ioFailed = false)
    (hafter : ∀ fs', op.exec m.world.fs = (.ok (), fs') →
      Carries { m.world with fs := fs' } next ∧
        (next.pending ≠ some repo → Mirrors { m.world with fs := fs' } repo)) :
    Guarded P ⟨(fsStep m repo op next).1, before ++ (fsStep m repo op next).2 :: after⟩ := by
  have hmem : p ∈ before ++ p :: after := List.mem_append_right _ List.mem_cons_self
  have hrepo := Phase.repo_of_holds hp
  have helse : Elsewhere P repo m.world (fsStep m repo op next).1.world :=
    advance_elsewhere hP hrepo (h.calls p hmem repo hrepo) hadv
  rcases fsStep_cases m repo op next with ⟨fs', hop, he⟩ | ⟨e, fs', hop, he⟩
  · rw [he] at helse ⊢
    obtain ⟨hcarry, hmirror⟩ := hafter fs' hop
    exact guarded_work h hp hnext rfl helse hcarry hmirror
  · rw [he] at hok
    cases hok

end Turn

/-- One turn of a call keeps the invariant, if no file-system step fails. -/
theorem guarded_turn (hP : Separate S P) {m m' : Shared S} {before after : List Phase}
    {p p' : Phase} (h : Guarded P ⟨m, before ++ p :: after⟩) (hadv : advance m p = some (m', p'))
    (hok : m'.world.log.ioFailed = false) : Guarded P ⟨m', before ++ p' :: after⟩ := by
  have hmem : p ∈ before ++ p :: after := List.mem_append_right _ List.mem_cons_self
  cases p with
  | acquire r op =>
    simp only [advance] at hadv
    split at hadv
    · cases hadv
    · cases hadv
      exact guarded_acquire h ‹_›
  | update r op =>
    have helse := advance_elsewhere hP rfl (h.calls _ hmem r rfl) hadv
    have hmirror := mirrors_of_holds h rfl (fun he => nomatch he)
    simp only [advance] at hadv
    split at hadv
    · cases hadv
      exact guarded_work h rfl rfl rfl helse trivial fun _ => hmirror
    · cases hadv
      exact guarded_work h rfl rfl rfl helse trivial fun hpending => absurd rfl hpending
  | snapshot r =>
    cases hadv
    refine guarded_work h rfl rfl rfl (Elsewhere.refl _) (fun tag => ?_) fun hpending =>
      absurd rfl hpending
    exact lookup_snapshot _ _ _
  | createDir r value =>
    cases hadv
    refine guarded_fsStep (.write r value) h rfl rfl rfl hP hok fun fs' _ => ?_
    exact ⟨h.carried _ hmem, fun hpending => absurd rfl hpending⟩
  | write r value =>
    cases hadv
    refine guarded_fsStep (.rename r) h rfl rfl rfl hP hok fun fs' hop => ?_
    refine ⟨⟨value, ?_, h.carried _ hmem⟩, fun hpending => absurd rfl hpending⟩
    rcases Fs.exec_writeFile (tmpPath S r) (S.serde.tagsToVec value) m.world.fs with
      ⟨-, -, hw⟩ | ⟨e, hw⟩
    · cases hw.symm.trans hop
      rw [Fs.read_eq_some, Fs.node_set, if_pos rfl]
    · cases hw.symm.trans hop
  | rename r =>
    cases hadv
    refine guarded_fsStep (.release r) h rfl rfl rfl hP hok fun fs' hop => ?_
    refine ⟨trivial, fun _ => ?_⟩
    obtain ⟨value, hread, hvalue⟩ := h.carried _ hmem
    rcases Fs.exec_rename (tmpPath S r) (localTagsPath S.root r) m.world.fs with
      ⟨b, hb, -, -, hr⟩ | ⟨e, hr⟩
    · cases hr.symm.trans hop
      cases hb.symm.trans hread
      refine Mirrors.of_written (m := value) ?_ hvalue
      rw [Fs.read_eq_some, Fs.node_set, if_pos rfl]
    · cases hr.symm.trans hop
  | release r =>
    cases hadv
    exact guarded_release h
  | returned => cases hadv

theorem guarded_call {s : Pool (Shared S) Phase} (h : Guarded P s) {repo : Str} (hrepo : P repo)
    (op : Op) : Guarded P (s.spawn (.acquire repo op)) := by
  refine ⟨fun q hq r hr => ?_, fun r => ?_, ?_, fun q hq => ?_, fun r hr hidle => ?_⟩
  · rcases List.mem_append.mp hq with hq | hq
    · exact h.calls q hq r hr
    · rw [List.mem_singleton.mp hq] at hr
      cases hr
      exact hrepo
  · rw [Pool.spawn, List.filterMap_append, List.mem_append]
    have hlocked := h.locked r
    simpa [Phase.holds] using hlocked
  · have hnone : [Phase.acquire repo op].filterMap Phase.holds = [] := rfl
    rw [Pool.spawn, List.filterMap_append, hnone, List.append_nil]
    exact h.exclusive
  · rcases List.mem_append.mp hq with hq | hq
    · exact h.carried q hq
    · rw [List.mem_singleton.mp hq]
      trivial
  · exact h.mirrored r hr fun q hq => hidle q (List.mem_append_left _ hq)

theorem failed_of_turn {m m' : Shared S} {p p' : Phase} (hadv : advance m p = some (m', p'))
    (hok : m'.world.log.ioFailed = false) : m.world.log.ioFailed = false := by
  have hfs : ∀ repo op next, (fsStep m repo op next).1.world.log.ioFailed = false →
      m.world.log.ioFailed = false := by
    intro repo op next hok
    rcases fsStep_cases m repo op next with ⟨fs', -, he⟩ | ⟨e, fs', -, he⟩
    · rw [he] at hok
      exact hok
    · rw [he] at hok
      cases hok
  cases p with
  | acquire r op =>
    simp only [advance] at hadv
    split at hadv
    · cases hadv
    · cases hadv
      exact hok
  | update r op =>
    simp only [advance] at hadv
    split at hadv
    · cases hadv
      exact hok
    · rename_i w hw
      cases hadv
      cases op with
      | set tag d =>
        cases hw
        exact hok
      | remove tag =>
        simp only [update] at hw
        split at hw
        · cases hw
        · cases hw
          exact hok
  | snapshot r =>
    cases hadv
    exact hok
  | createDir r value =>
    cases hadv
    exact hfs r _ (.write r value) hok
  | write r value =>
    cases hadv
    exact hfs r _ (.rename r) hok
  | rename r =>
    cases hadv
    exact hfs r _ (.release r) hok
  | release r =>
    cases hadv
    exact hok
  | returned => cases hadv

/-- Every state of a run without failed file-system steps. -/
theorem guarded_run (hP : Separate S P) {s₀ s : Pool (Shared S) Phase} (hstart : Guarded P s₀)
    (hrun : (runs step (CallsTo P)).rel s₀ s) (hok : s.memory.world.log.ioFailed = false) :
    Guarded P s := by
  refine Evolution.star_keep (I := fun s => s.memory.world.log.ioFailed = false → Guarded P s)
    ?_ hrun (fun _ => hstart) hok
  rintro s t ⟨a, ha, hstep⟩ ih hok
  cases a with
  | call repo op =>
    cases hstep
    exact guarded_call (ih hok) ha op
  | turn i =>
    obtain ⟨before, p, after, m, p', -, htasks, hadv, rfl⟩ := Pool.turn_cases hstep
    have hbefore := ih (failed_of_turn hadv hok)
    have hs : s = ⟨s.memory, before ++ p :: after⟩ := by rw [← htasks]
    rw [hs] at hbefore
    exact guarded_turn hP hbefore hadv hok

end Invariant

/-! ## Sidecars mirror memory -/

section Mirror

variable {S : Setup} {P : Str → Prop}

theorem guarded_start {s : Pool (Shared S) Phase} (htasks : s.tasks = []) (hheld : s.memory.held = ∅)
    (hmirror : ∀ repo, P repo → Mirrors s.memory.world repo) : Guarded P s := by
  refine ⟨fun p hp => ?_, fun repo => ?_, ?_, fun p hp => ?_, fun repo hrepo _ => hmirror repo hrepo⟩
  · rw [htasks] at hp
    cases hp
  · simp [htasks, hheld]
  · simp [htasks]
  · rw [htasks] at hp
    cases hp

/-- A turn of a call on another repository changes neither the tags in memory nor what a fresh
store loads. -/
theorem turn_elsewhere (hP : Separate S P) {s t : Pool (Shared S) Phase} (h : Guarded P s) {i : Nat}
    {p : Phase} {r : Str} (hr : P r) (hp : s.tasks[i]? = some p) (hne : p.repo ≠ some r)
    (hstep : step s (.turn i) = some t) :
    (∀ r' tag, (loaded S t.memory.world.fs r).lookup (r', tag) =
      (loaded S s.memory.world.fs r).lookup (r', tag)) ∧
    ∀ tag, t.memory.world.localTags.lookup (r, tag) = s.memory.world.localTags.lookup (r, tag) := by
  obtain ⟨before, q, after, m, q', hq, -, hadv, rfl⟩ := Pool.turn_cases hstep
  cases hp.symm.trans hq
  cases hrepo : p.repo with
  | none =>
    cases p with
    | returned => cases hadv
    | acquire _ _ | update _ _ | snapshot _ | createDir _ _ | write _ _ | rename _ | release _ =>
      cases hrepo
  | some repo =>
    have hne' : r ≠ repo := fun he => hne (he ▸ hrepo)
    have helse := advance_elsewhere hP hrepo
      (h.calls p (List.mem_of_getElem? hp) repo hrepo) hadv
    refine ⟨fun r' tag => ?_, fun tag => helse.tags r tag hne'⟩
    simp only [lookup_loaded, onDisk, helse.sidecar r hr hne']

/-- In every run of calls on repositories with different directories, a fresh store loads what
the live store holds for a repository on which no call is in progress; loading is idempotent,
on the live store as well; and calls on other repositories change neither. -/
theorem sidecar_mirrors_memory (hP : Separate S P) {s₀ s : Pool (Shared S) Phase}
    (htasks : s₀.tasks = []) (hheld : s₀.memory.held = ∅)
    (hstart : ∀ repo, P repo → Mirrors s₀.memory.world repo)
    (hrun : (runs step (CallsTo P)).rel s₀ s) (hok : s.memory.world.log.ioFailed = false) :
    (∀ repo, P repo → Idle repo s → Mirrors s.memory.world repo ∧
      ∀ map, loadRepo S s.memory.world.fs repo s.memory.world.localTags = .ok map →
        ∀ r tag, map.lookup (r, tag) = s.memory.world.localTags.lookup (r, tag)) ∧
    (∀ repo map map', loadRepo S s.memory.world.fs repo map = .ok map' →
      ∃ map'', loadRepo S s.memory.world.fs repo map' = .ok map'' ∧
        ∀ r tag, map''.lookup (r, tag) = map'.lookup (r, tag)) ∧
    ∀ repo, P repo → ∀ i p t, s.tasks[i]? = some p → p.repo ≠ some repo →
      step s (.turn i) = some t →
        (∀ r tag, (loaded S t.memory.world.fs repo).lookup (r, tag) =
          (loaded S s.memory.world.fs repo).lookup (r, tag)) ∧
        ∀ tag, t.memory.world.localTags.lookup (repo, tag) =
          s.memory.world.localTags.lookup (repo, tag) := by
  have hguarded := guarded_run hP (guarded_start htasks hheld hstart) hrun hok
  refine ⟨fun repo hrepo hidle => ?_, fun repo map map' hload => loadRepo_twice hload,
    fun repo hrepo i p t hp hne hstep => turn_elsewhere hP hguarded hrepo hp hne hstep⟩
  have hmirror : Mirrors s.memory.world repo := by
    refine hguarded.mirrored repo hrepo fun p hp hpending => hidle p hp ?_
    exact Phase.repo_of_holds (Phase.holds_of_pending hpending)
  exact ⟨hmirror, fun map hload => hmirror.reload hload⟩

end Mirror

/-! Pushes to two repositories and a removal. -/

def app : Str := "library/app".toList

def base : Str := "library/base".toList

def v1 : Str := "v1".toList

def v2 : Str := "v2".toList

def content : Digest := Codec.standalone.digest []

def fresh : Pool (Shared Codec.standalone) Phase := ⟨⟨World.start _ [] [5, 3, 8], ∅⟩, []⟩

theorem separate_of_pairwise (S : Setup) (repos : List Str)
    (h : ∀ r ∈ repos, ∀ r' ∈ repos, repoDir S.root r = repoDir S.root r' → r = r') :
    Separate S (· ∈ repos) := fun r r' hr hr' => h r hr r' hr'

theorem mirrors_start (S : Setup) (ticks wall : List Nat) (repo : Str) :
    Mirrors (World.start S ticks wall) repo := by
  refine mirrors_iff.mpr fun tag => ?_
  have hnone : onDisk S (World.start S ticks wall).fs repo = none := by
    rw [onDisk, World.start, read_emptyRoot, Option.bind_none]
  rw [hnone]
  rfl

instance (repos : List Str) :
    DecidableRel (CallsTo (S := Codec.standalone) (· ∈ repos)) := fun _ act =>
  match act with
  | .call repo _ => inferInstanceAs (Decidable (repo ∈ repos))
  | .turn _ => .isTrue trivial

/-- The second push to a repository waits for the first, a push to another one does not; in the
end a fresh store has the tag that was not removed. -/
theorem mirrored_after_removal : ∃ s : Pool (Shared Codec.standalone) Phase,
    (loaded Codec.standalone s.memory.world.fs app).lookup (app, v1) = none ∧
      (loaded Codec.standalone s.memory.world.fs app).lookup (app, v2) = some ⟨content.toStr, 8⟩ := by
  obtain ⟨s, hrun, hok, hidle, h₁, h₂⟩ := exists_run_of_follow step (CallsTo (· ∈ [app, base])) fresh
    [.call app (.set v1 content), .call app (.set v2 content), .call base (.set v1 content),
      .turn 0, .turn 2, .turn 0, .turn 2, .turn 0, .turn 0, .turn 2, .turn 0, .turn 2, .turn 0,
      .turn 0, .turn 1, .turn 1, .call app (.remove v1), .turn 2, .turn 1, .turn 1, .turn 1,
      .turn 1, .turn 1, .turn 3, .turn 3, .turn 3, .turn 3, .turn 3, .turn 3, .turn 3]
    (fun s => s.memory.world.log.ioFailed = false ∧ (∀ p ∈ s.tasks, p.repo ≠ some app) ∧
      s.memory.world.localTags.lookup (app, v1) = none ∧
      s.memory.world.localTags.lookup (app, v2) = some ⟨content.toStr, 8⟩)
    (by decide +kernel)
  have hsep : Separate Codec.standalone (· ∈ [app, base]) :=
    separate_of_pairwise _ _ (by decide +kernel)
  obtain ⟨hmirror, -⟩ := (sidecar_mirrors_memory hsep rfl rfl
    (fun repo _ => mirrors_start _ [] [5, 3, 8] repo) hrun hok).1 app List.mem_cons_self hidle
  exact ⟨s, (hmirror app v1).trans (by rw [if_pos rfl, h₁]), (hmirror app v2).trans (by rw [if_pos rfl, h₂])⟩

end Quill.Registry.LocalTagsSteps
