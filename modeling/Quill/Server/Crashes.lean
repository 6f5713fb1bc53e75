import Quill.Registry.LocalTagsSteps
import Quill.Server.Lifecycle

/-!
# Local tags across crashes

The server is killed at any moment, also in the middle of a file-system step, and started again on the
files that it leaves. What was in memory is lost with the locks and the calls in progress; a temporary
file that was being written has any part of its contents, and of the directories that were being made
the upper ones are there (`tear`).

The calls take effect one at a time. `State.log` has their numbers in this order; no step reads it. In
every state of a run without failing steps the sidecar of a repository holds what the calls of the
log make of its tags (`Durable`), so a crash loses no call that has returned and leaves none half done
(`tags_survive_crashes`).
-/

namespace Quill.Server.Crashes

open Text Files Cas World LocalTags Registry.LocalTagsSteps
open Registry hiding Op

variable {S : Setup}

/-! ## Calls and crashes -/

/-- How far a call has come; a crash takes those that have not returned. -/
inductive Progress where
  | running (phase : Phase)
  | lost

/-- An update of the tags, with how far it has come. -/
structure Call where
  repo : Str
  op : Op
  progress : Progress

namespace Call

/-- A lost call does nothing more, like one that has returned. -/
def phase (c : Call) : Phase :=
  match c.progress with
  | .running p => p
  | .lost => .returned

/-- A crash takes a call that has not returned. -/
def lose (c : Call) : Call :=
  match c.progress with
  | .running .returned => c
  | _ => { c with progress := .lost }

end Call

/-- The call has only to release its lock: its sidecar is in place, or there was nothing to remove. -/
def ends : Phase → Bool
  | .release _ => true
  | _ => false

/-- The call has nothing more to do, or only to release its lock. -/
def isOver : Phase → Bool
  | .release _ => true
  | .returned => true
  | _ => false

/-- The call has taken effect or will not. -/
def Call.over (c : Call) : Bool := isOver c.phase

/-- The server with all calls that were made, also before its last start. -/
structure State (S : Setup) where
  pool : Pool (Shared S) Call
  log : List Nat

/-- An update is called or takes its next step, or the process dies, in the middle of some steps,
and is started again. -/
inductive Act where
  | call (repo : Str) (op : Op)
  | turn (i : Nat)
  | crash (torn : List (Nat × Nat)) (B : Boot)

/-- One step of a call. -/
def proceed (m : Shared S) (c : Call) : Option (Shared S × Call) :=
  (advance m c.phase).map fun r => (r.1, { c with progress := .running r.2 })

/-- What a step leaves that is stopped halfway: a directory with `k` levels less, or a temporary file of
`k` bytes. -/
def interrupted (S : Setup) (fs : Fs) (k : Nat) : Phase → Fs
  | .createDir repo _ => ((Fs.createDirAll ((repoDir S.root repo).drop k)).exec fs).2
  | .write repo value => ((Fs.writeFile (tmpPath S repo) ((S.serde.tagsToVec value).take k)).exec fs).2
  | _ => fs

/-- The files after a crash that stops some calls in the middle of their steps. -/
def tear (s : Pool (Shared S) Call) (torn : List (Nat × Nat)) : Fs :=
  torn.foldl (fun fs t =>
    match s.tasks[t.1]? with
    | some c => interrupted S fs t.2 c.phase
    | none => fs) s.memory.world.fs

/-- One step of the server; the log lists the calls in the order in which they took effect. -/
def step (s : State S) : Act → Option (State S)
  | .call repo op => some ⟨s.pool.spawn ⟨repo, op, .running (.acquire repo op)⟩, s.log⟩
  | .turn i => (s.pool.turn proceed i).map fun t =>
    ⟨t, if (t.tasks[i]?).any fun c => ends c.phase then s.log ++ [i] else s.log⟩
  | .crash torn B => some ⟨⟨⟨startUp B { s.pool.memory.world with fs := tear s.pool torn }, ∅⟩,
      s.pool.tasks.map Call.lose⟩, s.log⟩

/-- Calls name repositories that a start finds again. -/
def Named (_ : State S) : Act → Prop
  | .call repo _ => Findable repo
  | _ => True

/-- A server that was started on an empty root. -/
def start (S : Setup) (ticks wall : List Nat) : State S := ⟨⟨⟨World.start S ticks wall, ∅⟩, []⟩, []⟩

/-! ## What the calls make of the tags -/

/-- The tag that an update is about. -/
def tagOf : Op → Str
  | .set tag _ => tag
  | .remove tag => tag

/-- The digest that an update gives to its tag. -/
def digestOf : Op → Option Digest
  | .set _ d => some d
  | .remove _ => none

/-- What a call makes of the tags of its repository. -/
def effect (op : Op) (f : Str → Option Digest) : Str → Option Digest :=
  Function.update f (tagOf op) (digestOf op)

/-- The repositories and the operations of the calls. -/
def asked (s : State S) : List (Str × Op) := s.pool.tasks.map fun c => (c.repo, c.op)

/-- The tags of a repository after the calls with these numbers, one after the other. -/
def replay (calls : List (Str × Op)) (repo : Str) (log : List Nat) : Str → Option Digest :=
  (log.filterMap fun i => calls[i]?).foldl (fun f a => if a.1 = repo then effect a.2 f else f)
    fun _ => none

theorem effect_apply (op : Op) (f : Str → Option Digest) (tag : Str) :
    effect op f tag = if tag = tagOf op then digestOf op else f tag :=
  Function.update_apply f (tagOf op) (digestOf op) tag

theorem replay_append {calls : List (Str × Op)} {i : Nat} {a : Str × Op} (h : calls[i]? = some a)
    (repo : Str) (log : List Nat) : replay calls repo (log ++ [i]) =
      if a.1 = repo then effect a.2 (replay calls repo log) else replay calls repo log := by
  simp [replay, List.filterMap_append, h]

theorem replay_skip {calls : List (Str × Op)} {i : Nat} (h : calls[i]? = none) (repo : Str) (log : List Nat) :
    replay calls repo (log ++ [i]) = replay calls repo log := by
  simp [replay, List.filterMap_append, h]

/-- The one call on a tag in the last part of the log decides it. -/
theorem replay_last {calls : List (Str × Op)} {repo : Str} {i : Nat} {op : Op}
    (hi : calls[i]? = some (repo, op)) (log : List Nat) {l : List Nat} (hmem : i ∈ l)
    (honly : ∀ j ∈ l, ∀ op', calls[j]? = some (repo, op') → tagOf op' = tagOf op → j = i) :
    replay calls repo (log ++ l) (tagOf op) = digestOf op := by
  induction l using List.reverseRecOn with
  | nil => cases hmem
  | append_singleton l j ih =>
    have hbefore : i ≠ j → replay calls repo (log ++ l) (tagOf op) = digestOf op := fun hne =>
      ih ((List.mem_append.mp hmem).resolve_right fun h => hne (List.mem_singleton.mp h))
        fun k hk => honly k (List.mem_append_left _ hk)
    rw [← List.append_assoc]
    cases hj : calls[j]? with
    | none =>
      rw [replay_skip hj]
      refine hbefore fun he => ?_
      rw [← he, hi] at hj
      cases hj
    | some a =>
      rw [replay_append hj]
      split
      · rename_i hrepo
        obtain ⟨r, op'⟩ := a
        obtain rfl : r = repo := hrepo
        rw [effect_apply]
        split
        · rename_i htag
          obtain rfl := honly j (by simp) op' hj htag.symm
          cases hi.symm.trans hj
          rfl
        · rename_i htag
          refine hbefore fun he => ?_
          subst he
          cases hi.symm.trans hj
          exact htag rfl
      · rename_i hrepo
        refine hbefore fun he => ?_
        subst he
        cases hi.symm.trans hj
        exact hrepo rfl

/-- Later calls do not change what the earlier ones made of the tags. -/
theorem replay_grow {calls later : List (Str × Op)} {log : List Nat} (h : ∀ i ∈ log, i < calls.length)
    (repo : Str) : replay (calls ++ later) repo log = replay calls repo log := by
  unfold replay
  congr 1
  exact List.filterMap_congr fun i hi => List.getElem?_append_left (h i hi)

/-- The digest of a tag in the map. -/
def known (w : World S) (repo tag : Str) : Option Str :=
  (w.localTags.lookup (repo, tag)).map fun m => m.digest

/-- The digest of a tag in the sidecar. -/
def stored (S : Setup) (fs : Fs) (repo tag : Str) : Option Str :=
  ((LocalTagsSteps.onDisk S fs repo).bind fun tags => tags.lookup tag).map fun m => m.digest

/-- The tags of the repository in memory are those of `f`. -/
def Knows (w : World S) (repo : Str) (f : Str → Option Digest) : Prop :=
  ∀ tag, known w repo tag = (f tag).map Digest.toStr

/-- The tags of the repository in the sidecar are those of `f`. -/
def Stores (S : Setup) (fs : Fs) (repo : Str) (f : Str → Option Digest) : Prop :=
  ∀ tag, stored S fs repo tag = (f tag).map Digest.toStr

theorem stored_eq_known {w : World S} {repo : Str} (h : Mirrors w repo) (tag : Str) :
    stored S w.fs repo tag = known w repo tag := by
  rw [stored, known, mirrors_iff.mp h]

theorem stored_congr {fs fs' : Fs} {repo : Str}
    (h : fs'.read (localTagsPath S.root repo) = fs.read (localTagsPath S.root repo)) (tag : Str) :
    stored S fs' repo tag = stored S fs repo tag := by
  simp only [stored, LocalTagsSteps.onDisk, h]

/-- The update of the map is the effect of the call. -/
theorem knows_update {w w' : World S} {repo : Str} {op : Op} (h : update repo w op = some w')
    {f : Str → Option Digest} (hf : Knows w repo f) : w'.fs = w.fs ∧ Knows w' repo (effect op f) := by
  cases op with
  | set tag d =>
    cases h
    refine ⟨rfl, fun t => ?_⟩
    rw [effect_apply, known]
    split
    · rename_i ht
      subst ht
      simp [digestOf]
    · rename_i ht
      have hne : (repo, t) ≠ (repo, tag) := fun he => ht (Prod.mk.inj he).2
      rw [AList.lookup_insert_ne hne]
      exact hf t
  | remove tag =>
    simp only [update] at h
    split at h
    · cases h
    · cases h
      refine ⟨rfl, fun t => ?_⟩
      rw [effect_apply, known]
      split
      · rename_i ht
        subst ht
        simp [digestOf]
      · rename_i ht
        have hne : (repo, t) ≠ (repo, tag) := fun he => ht (Prod.mk.inj he).2
        rw [AList.lookup_erase_ne hne]
        exact hf t

/-- A removal that finds nothing has no effect. -/
theorem effect_of_update_none {w : World S} {repo : Str} {op : Op} (h : update repo w op = none)
    {f : Str → Option Digest} (hf : Knows w repo f) : effect op f = f := by
  cases op with
  | set tag d => cases h
  | remove tag =>
    simp only [update] at h
    split at h
    · rename_i hnone
      have htag := hf tag
      rw [known, hnone, Option.map_none] at htag
      exact Function.update_eq_self_iff.mpr (Option.map_eq_none_iff.mp htag.symm).symm
    · cases h

/-! ## One step of a call -/

/-- The phase belongs to a call with this repository and operation. -/
def Concerns (repo : Str) (op : Op) : Phase → Prop
  | .acquire r o => r = repo ∧ o = op
  | .update r o => r = repo ∧ o = op
  | p => ∀ r, p.repo = some r → r = repo

theorem Concerns.repo_eq {repo r : Str} {op : Op} {p : Phase} (h : Concerns repo op p)
    (hp : p.repo = some r) : r = repo := by
  cases p with
  | acquire r' o =>
    cases hp
    exact h.1
  | update r' o =>
    cases hp
    exact h.1
  | _ => exact h r hp

theorem fsStep_ok {m m' : Shared S} {repo : Str} {op : Prog Fs IoKind Unit} {next p' : Phase}
    (h : fsStep m repo op next = (m', p')) (hok : m'.world.log.ioFailed = false) :
    ∃ fs', op.exec m.world.fs = (.ok (), fs') ∧ m' = { m with world := { m.world with fs := fs' } } ∧
      p' = next := by
  rcases fsStep_cases m repo op next with ⟨fs', hop, he⟩ | ⟨e, fs', -, he⟩
  · cases he.symm.trans h
    exact ⟨fs', hop, rfl, rfl⟩
  · cases he.symm.trans h
    cases hok

/-- A step of a call keeps the sidecar of its repository, until the step with which it ends; then the
sidecar has its effect. In between the map is ahead by this effect. -/
theorem turned {m m' : Shared S} {before after : List Phase} {p p' : Phase} {repo : Str} {op : Op}
    (hbefore : Guarded Findable ⟨m, before ++ p :: after⟩)
    (hafter : Guarded Findable ⟨m', before ++ p' :: after⟩) (hp : Concerns repo op p)
    (hadv : advance m p = some (m', p')) (hok : m'.world.log.ioFailed = false) {f : Str → Option Digest}
    (hdisk : Stores S m.world.fs repo f)
    (hahead : p.pending = some repo → Knows m.world repo (effect op f)) :
    Concerns repo op p' ∧ ((ends p' = false ∧ Stores S m'.world.fs repo f ∧
        (p'.pending = some repo → Knows m'.world repo (effect op f))) ∨
      (ends p' = true ∧ Stores S m'.world.fs repo (effect op f))) := by
  have hmirror : p.holds = some repo → p.pending ≠ some repo → Knows m.world repo f := fun hholds hno tag => by
    rw [← stored_eq_known (mirrors_of_holds hbefore hholds hno)]
    exact hdisk tag
  cases p with
  | acquire r o =>
    obtain ⟨rfl, rfl⟩ := hp
    simp only [advance] at hadv
    split at hadv
    · cases hadv
    · cases hadv
      exact ⟨⟨rfl, rfl⟩, Or.inl ⟨rfl, hdisk, fun h => by cases h⟩⟩
  | update r o =>
    obtain ⟨rfl, rfl⟩ := hp
    have hknows := hmirror rfl fun h => by cases h
    simp only [advance] at hadv
    split at hadv
    · cases hadv
      rename_i hnone
      rw [effect_of_update_none hnone hknows]
      exact ⟨fun r' h => (Option.some.inj h).symm, Or.inr ⟨rfl, hdisk⟩⟩
    · cases hadv
      rename_i hw
      obtain ⟨hfs, hknows'⟩ := knows_update hw hknows
      refine ⟨fun r' h => (Option.some.inj h).symm, Or.inl ⟨rfl, ?_, fun _ => hknows'⟩⟩
      rw [hfs]
      exact hdisk
  | snapshot r =>
    obtain rfl := hp r rfl
    cases hadv
    exact ⟨fun r' h => (Option.some.inj h).symm, Or.inl ⟨rfl, hdisk, hahead⟩⟩
  | createDir r value =>
    obtain rfl := hp r rfl
    obtain ⟨fs', hop, rfl, rfl⟩ := fsStep_ok (Option.some.inj hadv) hok
    have hgrow : Fs.growsDirs.rel m.world.fs fs' := by
      have h := Fs.createDirAll_grows (repoDir S.root r) m.world.fs
      rwa [hop] at h
    refine ⟨fun r' h => (Option.some.inj h).symm, Or.inl ⟨rfl, fun tag => ?_, hahead⟩⟩
    rw [stored_congr (Fs.growsDirs_read hgrow _)]
    exact hdisk tag
  | write r value =>
    obtain rfl := hp r rfl
    obtain ⟨fs', hop, rfl, rfl⟩ := fsStep_ok (Option.some.inj hadv) hok
    have hread := read_writeFile (tmpPath S r) (S.serde.tagsToVec value) m.world.fs
      (q := localTagsPath S.root r) fun h => absurd (List.cons.inj h).1 (by decide)
    rw [hop] at hread
    refine ⟨fun r' h => (Option.some.inj h).symm, Or.inl ⟨rfl, fun tag => ?_, hahead⟩⟩
    rw [stored_congr hread]
    exact hdisk tag
  | rename r =>
    obtain rfl := hp r rfl
    obtain ⟨fs', hop, rfl, rfl⟩ := fsStep_ok (Option.some.inj hadv) hok
    refine ⟨fun r' h => (Option.some.inj h).symm, Or.inr ⟨rfl, fun tag => ?_⟩⟩
    rw [stored_eq_known (mirrors_of_holds hafter rfl fun h => by cases h)]
    exact hahead rfl tag
  | release r =>
    cases hadv
    refine ⟨fun r' h => ?_, Or.inl ⟨rfl, hdisk, fun h => ?_⟩⟩
    · cases h
    · cases h
  | returned => cases hadv

theorem connected_writeFile {fs : Fs} (h : fs.Connected) (p : Path) (b : Bytes) :
    ((Fs.writeFile p b).exec fs).2.Connected := by
  rcases Fs.exec_writeFile p b fs with ⟨hdir, hparent, he⟩ | ⟨e, he⟩
  · rw [he]
    exact h.set_file (Fs.node_ne_dir_of_isDir hdir) hparent
  · rw [he]
    exact h

/-- The steps keep the tree of directories connected. -/
theorem connected_advance {m m' : Shared S} {p p' : Phase} (h : m.world.fs.Connected)
    (hadv : advance m p = some (m', p')) : m'.world.fs.Connected := by
  have hfs : ∀ (repo : Str) (op : Prog Fs IoKind Unit) (next : Phase), (op.exec m.world.fs).2.Connected →
      (fsStep m repo op next).1.world.fs.Connected := by
    intro repo op next hop
    rcases fsStep_cases m repo op next with ⟨fs', he, hs⟩ | ⟨e, fs', he, hs⟩
    · rw [hs]
      rwa [he] at hop
    · rw [hs]
      rwa [he] at hop
  cases p with
  | acquire r o =>
    simp only [advance] at hadv
    split at hadv
    · cases hadv
    · cases hadv
      exact h
  | update r o =>
    simp only [advance] at hadv
    split at hadv
    · cases hadv
      exact h
    · rename_i w hw
      cases hadv
      cases o with
      | set tag d =>
        cases hw
        exact h
      | remove tag =>
        simp only [update] at hw
        split at hw
        · cases hw
        · cases hw
          exact h
  | snapshot r =>
    cases hadv
    exact h
  | createDir r value =>
    cases hadv
    exact hfs r _ (.write r value) (h.createDirAll _)
  | write r value =>
    cases hadv
    exact hfs r _ (.rename r) (connected_writeFile h _ _)
  | rename r =>
    cases hadv
    refine hfs r _ (.release r) ?_
    rcases Fs.exec_rename (tmpPath S r) (localTagsPath S.root r) m.world.fs with
      ⟨b, hb, hdir, hparent, he⟩ | ⟨e, he⟩
    · rw [he]
      have hgone := h.del_file (Fs.node_ne_dir_of_read hb)
      refine hgone.set_file ?_ (Fs.isDir_del_file (Fs.node_ne_dir_of_read hb) hparent)
      rw [Fs.node_del]
      split
      · simp
      · exact Fs.node_ne_dir_of_isDir hdir
    · rw [he]
      exact h
  | release r =>
    cases hadv
    exact h
  | returned => cases hadv

/-! ## One start -/

/-- The sweep leaves the tree connected, since it removes only files. -/
theorem connected_sweep {fs : Fs} (h : fs.Connected) (root : Path) (age : Path → Nat) :
    (sweep root age fs).Connected := by
  have hremove : ∀ {fs : Fs}, fs.Connected → ∀ p, ((Fs.removeFile p).exec fs).2.Connected := by
    intro fs h p
    rcases Fs.exec_removeFile p fs with ⟨b, hb, he⟩ | ⟨-, e, he, -⟩
    · rw [he]
      exact h.del_file (Fs.node_ne_dir_of_read hb)
    · rw [he]
      exact h
  have hentries : ∀ (age : Name → Nat) (dir : Path) (names : List Name) {fs : Fs}, fs.Connected →
      ((sweepEntries age maxAge dir names).exec fs).2.Connected := by
    intro age dir names
    induction names with
    | nil => exact fun h => h
    | cons n names ih =>
      intro fs h
      rw [exec_sweepEntries_cons]
      refine ih ?_
      split
      · exact hremove h _
      · exact h
  unfold sweep
  split
  · refine List.foldlRecOn (motive := fun fs' : Fs => fs'.Connected) _ _ h fun fs' h dir _ => ?_
    unfold sweepDir
    split
    · have hget : (sweepUploadsDir (fun n => age (n :: uploadsName :: dir)) maxAge
          (uploadsName :: dir)).exec fs' = _ := Prog.exec_bind_ok (Prog.exec_get fs')
      rw [hget]
      split
      · exact hentries _ _ _ h
      · exact h
    · exact h
  · exact h

/-- A start reads the tags of a repository off its sidecar. -/
theorem lookup_loadExisting {fs : Fs} (hfs : fs.Connected) {r : Str} (hr : Findable r) (tag : Str) :
    (loadExistingLocalTags S fs).lookup (r, tag) = (LocalTagsSteps.onDisk S fs r).bind fun tags => tags.lookup tag := by
  obtain ⟨segs₀, -, rfl, hdir, hnames⟩ := hr.segs (S := S)
  have hpath : localTagsPath S.root (relative segs₀) = localTagsName :: (segs₀ ++ S.root) := by
    rw [localTagsPath, hdir]
  have hside : sidecarTag S fs (segs₀ ++ S.root) tag =
      (LocalTagsSteps.onDisk S fs (relative segs₀)).bind fun tags => tags.lookup tag := by
    rw [sidecarTag, LocalTagsSteps.onDisk, hpath]
    cases hhas : hasSidecar fs (segs₀ ++ S.root) with
    | true => rfl
    | false =>
      have hnone : fs.read (localTagsName :: (segs₀ ++ S.root)) = none := by
        refine Option.eq_none_iff_forall_ne_some.mpr fun b hb => ?_
        have hdir : fs.isDir (segs₀ ++ S.root) = true := hfs.isDir_tail hb
        have hyes := hasSidecar_iff.mpr ⟨hdir, by rw [Fs.isFile, hb]; rfl⟩
        cases hhas.symm.trans hyes
      rw [hnone]
      rfl
  have hagree : ∀ segs, segs ++ S.root ∈ walk (tagSubdirs fs) (Gc.fuel fs) [S.root] →
      relative segs₀ = relative segs → sidecarTag S fs (segs ++ S.root) tag =
        (LocalTagsSteps.onDisk S fs (relative segs₀)).bind fun tags => tags.lookup tag := by
    intro segs _ he
    have hsame : segs ++ S.root = segs₀ ++ S.root := by rw [← hdir, he, repoDir_relative]
    rw [hsame, hside]
  -- a sidecar stands in a directory that the scan visits
  have hvisited : ∀ b, fs.read (localTagsName :: (segs₀ ++ S.root)) = some b →
      Descends (tagSubdirs fs) S.root (segs₀ ++ S.root) ∧ fs.isDir S.root = true := by
    intro b hb
    have habove : ∀ q, q <:+ segs₀ ++ S.root → fs.isDir q = true := fun q hq =>
      hfs.isDir_suffix (hfs.isDir_tail hb) hq
    exact ⟨descends_of_names segs₀ habove hnames, habove _ (List.suffix_append _ _)⟩
  have hnone : (∀ b, fs.read (localTagsName :: (segs₀ ++ S.root)) ≠ some b) →
      ((LocalTagsSteps.onDisk S fs (relative segs₀)).bind fun tags => tags.lookup tag) = none := by
    intro h
    rw [LocalTagsSteps.onDisk, hpath, Option.eq_none_iff_forall_ne_some.mpr h]
    rfl
  unfold loadExistingLocalTags
  split
  · have hroot : ∀ dir ∈ walk (tagSubdirs fs) (Gc.fuel fs) [S.root], ∃ segs, dir = segs ++ S.root := by
      intro dir hmem
      obtain ⟨segs, rfl⟩ := (mem_scan.mp hmem).suffix
      exact ⟨segs, rfl⟩
    rcases lookup_foldl_loadDir _ hroot hagree ∅ with ⟨-, hlook⟩ | ⟨hno, hlook⟩
    · rw [hlook]
      exact Option.or_none
    · rw [hlook]
      exact (hnone fun b hb => hno ⟨segs₀, mem_scan.mpr (hvisited b hb).1, rfl⟩).symm
  · rename_i hroot
    refine (hnone fun b hb => hroot ?_).symm
    have hdirs := (hvisited b hb).2
    rcases Fs.isDir_iff.mp hdirs with he | he
    · simp [Fs.exists?, he]
    · simp [Fs.exists?, he]

theorem connected_startUp {w : World S} (B : Boot) (h : w.fs.Connected) : (startUp B w).fs.Connected :=
  connected_sweep (h.createDirAll S.root) S.root B.age

/-- After a start the map has the tags of the sidecar, which is as it was. -/
theorem mirrors_startUp {w : World S} (B : Boot) (h : w.fs.Connected) {r : Str} (hr : Findable r) :
    (startUp B w).fs.read (localTagsPath S.root r) = w.fs.read (localTagsPath S.root r) ∧
      Mirrors (startUp B w) r := by
  have hroot : (onRoot w).fs.read (localTagsPath S.root r) = w.fs.read (localTagsPath S.root r) :=
    Fs.growsDirs_read (grows_onRoot w) _
  have hswept : (startUp B w).fs.read (localTagsPath S.root r) = (onRoot w).fs.read (localTagsPath S.root r) :=
    Fs.read_congr (node_startUp B w (not_swept_of_findable hr (Or.inl rfl)))
  refine ⟨hswept.trans hroot, mirrors_iff.mpr fun tag => ?_⟩
  have hload : (startUp B w).localTags.lookup (r, tag) = _ :=
    lookup_loadExisting (S := S) (h.createDirAll S.root) hr tag
  have hdisk : LocalTagsSteps.onDisk S (startUp B w).fs r = LocalTagsSteps.onDisk S (onRoot w).fs r := by rw [LocalTagsSteps.onDisk, LocalTagsSteps.onDisk, hswept]
  rw [hload, hdisk]
  rfl

/-! ## One crash -/

theorem interrupted_spec {fs : Fs} (h : fs.Connected) (k : Nat) (p : Phase) :
    (interrupted S fs k p).Connected ∧
      ∀ r, (interrupted S fs k p).read (localTagsPath S.root r) = fs.read (localTagsPath S.root r) := by
  cases p with
  | createDir repo value =>
    exact ⟨h.createDirAll _, fun r => Fs.growsDirs_read (Fs.createDirAll_grows _ fs) _⟩
  | write repo value =>
    exact ⟨connected_writeFile h _ _, fun r =>
      read_writeFile _ _ _ fun he => absurd (List.cons.inj he).1 (by decide)⟩
  | _ => exact ⟨h, fun _ => rfl⟩

/-- What a crash tears are temporary files and directories. -/
theorem tear_spec {s : Pool (Shared S) Call} (h : s.memory.world.fs.Connected) (torn : List (Nat × Nat)) :
    (tear s torn).Connected ∧ ∀ r, (tear s torn).read (localTagsPath S.root r) =
      s.memory.world.fs.read (localTagsPath S.root r) := by
  refine List.foldlRecOn (motive := fun fs : Fs => fs.Connected ∧ ∀ r,
    fs.read (localTagsPath S.root r) = s.memory.world.fs.read (localTagsPath S.root r)) _ _
    ⟨h, fun _ => rfl⟩ fun fs hfs t _ => ?_
  split
  · obtain ⟨hconn, hread⟩ := interrupted_spec (S := S) hfs.1 t.2 (Call.phase _)
    exact ⟨hconn, fun r => (hread r).trans (hfs.2 r)⟩
  · exact hfs

/-! ## The invariant -/

/-- The calls as `LocalTagsSteps` has them. -/
def under (s : State S) : Pool (Shared S) Phase := ⟨s.pool.memory, s.pool.tasks.map Call.phase⟩

/-- The invariant: the sidecar is the replay of the log, memory is ahead of it by the one update
that holds the lock, and every update that is over was lost or is in the log once. -/
structure Durable (s : State S) : Prop where
  guarded : Guarded Findable (under s)
  connected : s.pool.memory.world.fs.Connected
  own : ∀ c ∈ s.pool.tasks, Findable c.repo ∧ Concerns c.repo c.op c.phase
  disk : ∀ repo, Findable repo → Stores S s.pool.memory.world.fs repo (replay (asked s) repo s.log)
  ahead : ∀ c ∈ s.pool.tasks, c.phase.pending = some c.repo →
    Knows s.pool.memory.world c.repo (effect c.op (replay (asked s) c.repo s.log))
  nodup : s.log.Nodup
  logged : ∀ i ∈ s.log, ∃ c, s.pool.tasks[i]? = some c ∧ c.over = true
  ended : ∀ (i : Nat) (c : Call), s.pool.tasks[i]? = some c → c.over = true → c.progress = .lost ∨ i ∈ s.log

theorem separate_findable (S : Setup) : Separate S Findable := .of_plain fun _ hr => hr.1

theorem Call.lose_eq (c : Call) : c.lose.repo = c.repo ∧ c.lose.op = c.op ∧ c.lose.phase = .returned ∧
    (c.lose.progress = .lost ∨ c.lose = c) := by
  obtain ⟨repo, op, progress⟩ := c
  cases progress with
  | lost => exact ⟨rfl, rfl, rfl, Or.inl rfl⟩
  | running p =>
    cases p with
    | returned => exact ⟨rfl, rfl, rfl, Or.inr rfl⟩
    | _ => exact ⟨rfl, rfl, rfl, Or.inl rfl⟩

theorem asked_lose (calls : List Call) :
    (calls.map Call.lose).map (fun c => (c.repo, c.op)) = calls.map fun c => (c.repo, c.op) := by
  rw [List.map_map]
  refine List.map_congr_left fun c _ => ?_
  obtain ⟨hrepo, hop, -⟩ := c.lose_eq
  simp only [Function.comp_apply, hrepo, hop]

theorem isOver_of_ends {p : Phase} (h : ends p = true) : isOver p = true := by
  cases p with
  | release r => rfl
  | _ => cases h

/-- A call that is over only returns. -/
theorem advance_over {m m' : Shared S} {p p' : Phase} (h : advance m p = some (m', p')) :
    (isOver p = false ∧ (isOver p' = true → ends p' = true)) ∨ ((∃ r, p = .release r) ∧ p' = .returned) := by
  have hfs : ∀ repo op next, fsStep m repo op next = (m', p') → (isOver next = true → ends next = true) →
      isOver p' = true → ends p' = true := by
    intro repo op next he hnext
    rcases fsStep_cases m repo op next with ⟨fs', -, hs⟩ | ⟨e, fs', -, hs⟩
    · cases hs.symm.trans he
      exact hnext
    · cases hs.symm.trans he
      exact fun _ => rfl
  cases p with
  | release r =>
    cases h
    exact Or.inr ⟨⟨r, rfl⟩, rfl⟩
  | returned => cases h
  | acquire r op =>
    simp only [advance] at h
    split at h <;> cases h
    exact Or.inl ⟨rfl, fun h => by cases h⟩
  | update r op =>
    simp only [advance] at h
    split at h <;> cases h
    · exact Or.inl ⟨rfl, fun _ => rfl⟩
    · exact Or.inl ⟨rfl, fun h => by cases h⟩
  | snapshot r =>
    cases h
    exact Or.inl ⟨rfl, fun h => by cases h⟩
  | createDir r value => exact Or.inl ⟨rfl, hfs _ _ _ (Option.some.inj h) (fun h => by cases h)⟩
  | write r value => exact Or.inl ⟨rfl, hfs _ _ _ (Option.some.inj h) (fun h => by cases h)⟩
  | rename r => exact Or.inl ⟨rfl, hfs _ _ _ (Option.some.inj h) (fun _ => rfl)⟩

/-- A call that takes a step holds the lock of its repository before it or after. -/
theorem holds_of_advance {m m' : Shared S} {p p' : Phase} {repo : Str} (h : advance m p = some (m', p'))
    (hrepo : p.repo = some repo) : p.holds = some repo ∨ p'.holds = some repo := by
  cases p with
  | acquire r op =>
    simp only [advance] at h
    split at h <;> cases h
    exact Or.inr hrepo
  | returned => cases h
  | _ => exact Or.inl hrepo

/-- The tags in the sidecar, and in the map where no call is about to write. -/
theorem Durable.tags {s : State S} (h : Durable s) {repo : Str} (hrepo : Findable repo) :
    Stores S s.pool.memory.world.fs repo (replay (asked s) repo s.log) ∧
      ((∀ c ∈ s.pool.tasks, c.phase.pending ≠ some repo) →
        Knows s.pool.memory.world repo (replay (asked s) repo s.log)) := by
  refine ⟨h.disk repo hrepo, fun hidle tag => ?_⟩
  have hmirror : Mirrors s.pool.memory.world repo := by
    refine h.guarded.mirrored repo hrepo fun p hp => ?_
    obtain ⟨c, hc, rfl⟩ := List.mem_map.mp hp
    exact hidle c hc
  rw [← stored_eq_known hmirror]
  exact h.disk repo hrepo tag

/-! ### Turns -/

/-- `t` is the state after a turn of the call `c`, which is the task `i`. -/
structure Turn (s t : State S) (i : Nat) (before : List Call) (c : Call) (after : List Call)
    (m : Shared S) (p : Phase) : Prop where
  task : s.pool.tasks[i]? = some c
  tasks : s.pool.tasks = before ++ c :: after
  adv : advance s.pool.memory c.phase = some (m, p)
  pool : t.pool = ⟨m, before ++ { c with progress := .running p } :: after⟩
  task' : t.pool.tasks[i]? = some { c with progress := .running p }
  others : ∀ j, j ≠ i → t.pool.tasks[j]? = s.pool.tasks[j]?
  log : t.log = if ends p then s.log ++ [i] else s.log

theorem turn_inv {s t : State S} {i : Nat} (h : step s (.turn i) = some t) :
    ∃ before c after m p, Turn s t i before c after m p := by
  obtain ⟨u, hturn, rfl⟩ := Option.map_eq_some_iff.mp h
  obtain ⟨before, c, after, m, c', hc, htasks, hproceed, rfl⟩ := Pool.turn_cases hturn
  obtain ⟨⟨m', p⟩, hadv, hpair⟩ := Option.map_eq_some_iff.mp hproceed
  cases hpair
  obtain ⟨c₁, c₂, hc₁, hc₂, hproceed'⟩ := Pool.turn_task hturn
  cases hc.symm.trans hc₁
  cases hproceed.symm.trans hproceed'
  refine ⟨before, c, after, m', p, hc, htasks, hadv, rfl, hc₂, fun j hj => Pool.turn_others hturn hj, ?_⟩
  simp only [hc₂, Option.any_some]
  rfl

namespace Turn

variable {s t : State S} {i : Nat} {before after : List Call} {c : Call} {m : Shared S} {p : Phase}
  (ht : Turn s t i before c after m p)

include ht

theorem asked_eq : asked t = asked s := by simp [asked, ht.tasks, ht.pool]

theorem entry : (asked s)[i]? = some (c.repo, c.op) := by simp [asked, ht.task]

theorem mem : c ∈ s.pool.tasks := List.mem_of_getElem? ht.task

theorem under_before :
    under s = ⟨s.pool.memory, before.map Call.phase ++ c.phase :: after.map Call.phase⟩ := by
  rw [under, ht.tasks, List.map_append, List.map_cons]

theorem under_after : under t = ⟨m, before.map Call.phase ++ p :: after.map Call.phase⟩ := by
  rw [under, ht.pool, List.map_append, List.map_cons]
  rfl

/-- A task is the call that took the turn, or it is as before. -/
theorem mem_tasks {q : Call} (hq : q ∈ t.pool.tasks) :
    q = { c with progress := .running p } ∨ (q ∈ before ++ after ∧ q ∈ s.pool.tasks) := by
  rw [ht.pool] at hq
  rcases Pool.mem_replace (p := c) hq with rfl | ⟨hq', hq⟩
  · exact Or.inl rfl
  · exact Or.inr ⟨hq', ht.tasks ▸ hq⟩

theorem replay_ne {r : Str} (hr : r ≠ c.repo) : replay (asked t) r t.log = replay (asked s) r s.log := by
  rw [ht.asked_eq, ht.log]
  split
  · rw [replay_append ht.entry, if_neg hr.symm]
  · rfl

theorem not_failed (hok : t.pool.memory.world.log.ioFailed = false) : m.world.log.ioFailed = false := by
  rwa [ht.pool] at hok

variable (h : Durable s)

include h

theorem guarded_before :
    Guarded Findable ⟨s.pool.memory, before.map Call.phase ++ c.phase :: after.map Call.phase⟩ :=
  ht.under_before ▸ h.guarded

theorem guarded_after (hok : m.world.log.ioFailed = false) :
    Guarded Findable ⟨m, before.map Call.phase ++ p :: after.map Call.phase⟩ :=
  guarded_turn (separate_findable S) (ht.guarded_before h) ht.adv hok

theorem phase_repo : c.phase.repo = some c.repo := by
  obtain ⟨repo, hrepo⟩ : ∃ repo, c.phase.repo = some repo := by
    cases hp : c.phase with
    | returned =>
      have hadv := ht.adv
      rw [hp] at hadv
      cases hadv
    | _ => exact ⟨_, rfl⟩
  rw [hrepo, (h.own c ht.mem).2.repo_eq hrepo]

/-- What the step does with the sidecar and the map of its repository. -/
theorem outcome (hok : m.world.log.ioFailed = false) :
    Concerns c.repo c.op p ∧
      ((ends p = false ∧ Stores S m.world.fs c.repo (replay (asked s) c.repo s.log) ∧
          (p.pending = some c.repo →
            Knows m.world c.repo (effect c.op (replay (asked s) c.repo s.log)))) ∨
        (ends p = true ∧ Stores S m.world.fs c.repo (effect c.op (replay (asked s) c.repo s.log)))) := by
  obtain ⟨hfind, hconcerns⟩ := h.own c ht.mem
  exact turned (ht.guarded_before h) (ht.guarded_after h hok) hconcerns ht.adv hok (h.disk _ hfind)
    (h.ahead c ht.mem)

/-- Nothing of another repository changes. -/
theorem elsewhere : Elsewhere Findable c.repo s.pool.memory.world m.world :=
  advance_elsewhere (separate_findable S) (ht.phase_repo h) (h.own c ht.mem).1 ht.adv

/-- Another call that is about to write has another repository. -/
theorem pending_ne (hok : m.world.log.ioFailed = false) {q : Call} (hq : q ∈ before ++ after)
    (hpending : q.phase.pending = some q.repo) : q.repo ≠ c.repo := by
  intro he
  have hq' : q.phase ∈ before.map Call.phase ++ after.map Call.phase := by
    rw [← List.map_append]
    exact List.mem_map_of_mem hq
  have hholds : q.phase.holds = some c.repo := he ▸ Phase.holds_of_pending hpending
  rcases holds_of_advance ht.adv (ht.phase_repo h) with hp | hp
  · exact Pool.others_without (ht.guarded_before h).exclusive hp hq' hholds
  · exact Pool.others_without (ht.guarded_after h hok).exclusive hp hq' hholds

theorem own (hok : m.world.log.ioFailed = false) {q : Call} (hq : q ∈ t.pool.tasks) :
    Findable q.repo ∧ Concerns q.repo q.op q.phase := by
  rcases ht.mem_tasks hq with rfl | ⟨-, hq⟩
  · exact ⟨(h.own c ht.mem).1, (ht.outcome h hok).1⟩
  · exact h.own q hq

theorem disk (hok : m.world.log.ioFailed = false) {r : Str} (hr : Findable r) :
    Stores S t.pool.memory.world.fs r (replay (asked t) r t.log) := by
  by_cases hr' : r = c.repo
  · subst hr'
    rw [ht.asked_eq, ht.log, ht.pool]
    rcases (ht.outcome h hok).2 with ⟨hends, hdisk, -⟩ | ⟨hends, hdisk⟩
    · rwa [if_neg (by simp [hends])]
    · rwa [if_pos hends, replay_append ht.entry, if_pos rfl]
  · rw [ht.replay_ne hr', ht.pool]
    intro tag
    rw [stored_congr ((ht.elsewhere h).sidecar r hr hr')]
    exact h.disk r hr tag

theorem ahead (hok : m.world.log.ioFailed = false) {q : Call} (hq : q ∈ t.pool.tasks)
    (hpending : q.phase.pending = some q.repo) :
    Knows t.pool.memory.world q.repo (effect q.op (replay (asked t) q.repo t.log)) := by
  rw [ht.pool]
  rcases ht.mem_tasks hq with rfl | ⟨hq', hq⟩
  · rcases (ht.outcome h hok).2 with ⟨hends, -, hahead⟩ | ⟨hends, -⟩
    · rw [ht.asked_eq, ht.log, if_neg (by simp [hends])]
      exact hahead hpending
    · have hp : p.pending = some c.repo := hpending
      cases p <;> simp_all [ends, Phase.pending]
  · have hne := ht.pending_ne h hok hq' hpending
    rw [ht.replay_ne hne]
    intro tag
    rw [known, (ht.elsewhere h).tags q.repo tag hne]
    exact h.ahead q hq hpending tag

/-- A call that was in the order before its step was over, and the step returns. -/
theorem returned_of_mem (hi : i ∈ s.log) : p = .returned := by
  obtain ⟨c₁, hc₁, hover⟩ := h.logged i hi
  cases ht.task.symm.trans hc₁
  rcases advance_over ht.adv with ⟨hno, -⟩ | ⟨-, hreturned⟩
  · cases hover.symm.trans hno
  · exact hreturned

theorem nodup : t.log.Nodup := by
  rw [ht.log]
  split
  · rename_i hends
    refine List.nodup_append.mpr ⟨h.nodup, List.nodup_singleton i, fun j hj k hk he => ?_⟩
    rw [List.mem_singleton] at hk
    subst hk he
    rw [ht.returned_of_mem h hj] at hends
    cases hends
  · exact h.nodup

theorem logged {j : Nat} (hj : j ∈ t.log) : ∃ q, t.pool.tasks[j]? = some q ∧ q.over = true := by
  rw [ht.log] at hj
  by_cases hji : j = i
  · subst hji
    refine ⟨_, ht.task', ?_⟩
    split at hj
    · rename_i hends
      exact isOver_of_ends hends
    · rw [ht.returned_of_mem h hj]
      rfl
  · have hj' : j ∈ s.log := by
      split at hj
      · exact (List.mem_append.mp hj).resolve_right fun h => hji (List.mem_singleton.mp h)
      · exact hj
    rw [ht.others j hji]
    exact h.logged j hj'

theorem ended {j : Nat} {q : Call} (hq : t.pool.tasks[j]? = some q) (hover : q.over = true) :
    q.progress = .lost ∨ j ∈ t.log := by
  rw [ht.log]
  by_cases hji : j = i
  · subst hji
    cases ht.task'.symm.trans hq
    refine Or.inr ?_
    rcases advance_over ht.adv with ⟨-, hends⟩ | ⟨⟨r, hr⟩, rfl⟩
    · rw [if_pos (hends hover)]
      exact List.mem_append_right _ (List.mem_singleton_self j)
    · refine (h.ended j c ht.task ?_).resolve_left fun hlost => ?_
      · rw [Call.over, hr]
        rfl
      · rw [Call.phase, hlost] at hr
        cases hr
  · rw [ht.others j hji] at hq
    refine (h.ended j q hq hover).imp_right fun hmem => ?_
    split
    · exact List.mem_append_left _ hmem
    · exact hmem

end Turn

theorem durable_turn {s t : State S} {i : Nat} (h : Durable s) (hstep : step s (.turn i) = some t)
    (hok : t.pool.memory.world.log.ioFailed = false) : Durable t := by
  obtain ⟨before, c, after, m, p, ht⟩ := turn_inv hstep
  have hok' := ht.not_failed hok
  exact {
    guarded := ht.under_after ▸ ht.guarded_after h hok'
    connected := by
      rw [ht.pool]
      exact connected_advance h.connected ht.adv
    own := fun q hq => ht.own h hok' hq
    disk := fun r hr => ht.disk h hok' hr
    ahead := fun q hq => ht.ahead h hok' hq
    nodup := ht.nodup h
    logged := fun j hj => ht.logged h hj
    ended := fun j q hq => ht.ended h hq }

/-! ### New calls -/

theorem durable_call {s : State S} (h : Durable s) {repo : Str} (hrepo : Findable repo) (op : Op) :
    Durable (⟨s.pool.spawn ⟨repo, op, .running (.acquire repo op)⟩, s.log⟩ : State S) := by
  have hlog : ∀ i ∈ s.log, i < (asked s).length := by
    intro i hi
    obtain ⟨c, hc, -⟩ := h.logged i hi
    obtain ⟨hlt, -⟩ := List.getElem?_eq_some_iff.mp hc
    simpa [asked] using hlt
  have hreplay : ∀ r, replay (asked (⟨s.pool.spawn ⟨repo, op, .running (.acquire repo op)⟩, s.log⟩ : State S))
      r s.log = replay (asked s) r s.log := by
    intro r
    have hasked : asked (⟨s.pool.spawn ⟨repo, op, .running (.acquire repo op)⟩, s.log⟩ : State S) =
        asked s ++ [(repo, op)] := by simp [asked, Pool.spawn]
    rw [hasked, replay_grow hlog]
  have hmem : ∀ {q : Call}, q ∈ (s.pool.spawn ⟨repo, op, .running (.acquire repo op)⟩).tasks →
      q ∈ s.pool.tasks ∨ q = ⟨repo, op, .running (.acquire repo op)⟩ := fun hq =>
    (List.mem_append.mp hq).imp_right List.mem_singleton.mp
  refine ⟨?_, h.connected, fun q hq => ?_, fun r hr => ?_, fun q hq hpending => ?_, h.nodup, fun i hi => ?_,
    fun i c hc hover => ?_⟩
  · have hguarded := guarded_call h.guarded hrepo op
    have hunder : under (⟨s.pool.spawn ⟨repo, op, .running (.acquire repo op)⟩, s.log⟩ : State S) =
        (under s).spawn (.acquire repo op) := by
      simp only [under, Pool.spawn, List.map_append, List.map_cons, List.map_nil]
      rfl
    rwa [hunder]
  · rcases hmem hq with hq | rfl
    · exact h.own q hq
    · exact ⟨hrepo, rfl, rfl⟩
  · rw [hreplay]
    exact h.disk r hr
  · rcases hmem hq with hq | rfl
    · rw [hreplay]
      exact h.ahead q hq hpending
    · cases hpending
  · obtain ⟨c, hc, hover⟩ := h.logged i hi
    obtain ⟨hlt, -⟩ := List.getElem?_eq_some_iff.mp hc
    exact ⟨c, (List.getElem?_append_left hlt).trans hc, hover⟩
  · rw [Pool.spawn, List.getElem?_append] at hc
    split at hc
    · exact h.ended i c hc hover
    · have hnew := List.mem_singleton.mp (List.mem_of_getElem? hc)
      rw [hnew] at hover
      cases hover

/-! ### Crashes -/

theorem guarded_of_returned {s : Pool (Shared S) Phase} (htasks : ∀ p ∈ s.tasks, p = .returned)
    (hheld : s.memory.held = ∅) (hmirror : ∀ repo, Findable repo → Mirrors s.memory.world repo) :
    Guarded Findable s := by
  have hnone : s.tasks.filterMap Phase.holds = [] := by
    refine List.filterMap_eq_nil_iff.mpr fun p hp => ?_
    rw [htasks p hp]
    rfl
  refine ⟨fun p hp repo hrepo => ?_, fun repo => ?_, ?_, fun p hp => ?_, fun repo hrepo _ => hmirror repo hrepo⟩
  · rw [htasks p hp] at hrepo
    cases hrepo
  · simp [hnone, hheld]
  · simp [hnone]
  · rw [htasks p hp]
    trivial

theorem durable_crash {s t : State S} {torn : List (Nat × Nat)} {B : Boot} (h : Durable s)
    (hstep : step s (.crash torn B) = some t) : Durable t := by
  cases hstep
  obtain ⟨hconn, hread⟩ := tear_spec h.connected torn
  have hreturned : ∀ c ∈ s.pool.tasks.map Call.lose, c.phase = .returned := by
    rintro c hc
    obtain ⟨c₀, -, rfl⟩ := List.mem_map.mp hc
    exact c₀.lose_eq.2.2.1
  refine ⟨guarded_of_returned ?_ rfl fun r hr => (mirrors_startUp B hconn hr).2, connected_startUp B hconn,
    fun c hc => ?_, fun r hr tag => ?_, fun c hc hpending => ?_, h.nodup, fun i hi => ?_,
    fun i c hc hover => ?_⟩
  · intro p hp
    obtain ⟨c, hc, rfl⟩ := List.mem_map.mp hp
    exact hreturned c hc
  · obtain ⟨c₀, hc₀, rfl⟩ := List.mem_map.mp hc
    rw [c₀.lose_eq.1, c₀.lose_eq.2.2.1]
    exact ⟨(h.own c₀ hc₀).1, fun r hr => by cases hr⟩
  · have hsame := (mirrors_startUp B (w := { s.pool.memory.world with fs := tear s.pool torn }) hconn hr).1
    rw [stored_congr (hsame.trans (hread r)), asked, asked_lose]
    exact h.disk r hr tag
  · rw [hreturned c hc] at hpending
    cases hpending
  · obtain ⟨c, hc, -⟩ := h.logged i hi
    refine ⟨c.lose, by simp [hc], ?_⟩
    rw [Call.over, c.lose_eq.2.2.1]
    rfl
  · rw [List.getElem?_map] at hc
    obtain ⟨c₀, hc₀, rfl⟩ := Option.map_eq_some_iff.mp hc
    rcases c₀.lose_eq.2.2.2 with hlost | hsame
    · exact Or.inl hlost
    · rw [hsame] at hover ⊢
      exact h.ended i c₀ hc₀ hover

/-! ### Runs -/

theorem not_failed_before_step {s t : State S} {a : Act} (hstep : step s a = some t)
    (hok : t.pool.memory.world.log.ioFailed = false) : s.pool.memory.world.log.ioFailed = false := by
  cases a with
  | call repo op =>
    cases hstep
    exact hok
  | turn i =>
    obtain ⟨before, c, after, m, p, ht⟩ := turn_inv hstep
    exact failed_of_turn ht.adv (ht.not_failed hok)
  | crash torn B =>
    cases hstep
    exact hok

theorem not_failed_before_run {s t : State S} (hrun : (runs step Named).rel s t)
    (hok : t.pool.memory.world.log.ioFailed = false) : s.pool.memory.world.log.ioFailed = false := by
  have hkeep : ∀ s t : State S, (∃ a, Named s a ∧ step s a = some t) →
      s.pool.memory.world.log.ioFailed = true → t.pool.memory.world.log.ioFailed = true := by
    rintro s t ⟨a, -, hstep⟩ hs
    by_contra hno
    cases hs.symm.trans (not_failed_before_step hstep (Bool.eq_false_iff.mpr hno))
  refine Bool.eq_false_iff.mpr fun hs => ?_
  cases hok.symm.trans
    (Evolution.star_keep (I := fun s : State S => s.pool.memory.world.log.ioFailed = true) hkeep hrun hs)

theorem durable_start (S : Setup) (ticks wall : List Nat) : Durable (start S ticks wall) := by
  have htasks : (start S ticks wall).pool.tasks = [] := rfl
  refine ⟨guarded_of_returned (fun p hp => ?_) rfl fun r _ => mirrors_start S ticks wall r,
    fun n p hp => ?_, fun c hc => ?_, fun r _ tag => ?_, fun c hc => ?_, List.nodup_nil, fun i hi => ?_,
    fun i c hc => ?_⟩
  · cases hp
  · have hnode : ((emptyRoot S.root).node (n :: p)).isSome = true := hp
    rw [node_emptyRoot] at hnode
    split at hnode
    · rename_i hq
      exact isDir_emptyRoot ((List.suffix_cons n p).trans hq.1)
    · cases hnode
  · cases hc
  · exact stored_eq_known (mirrors_start S ticks wall r) tag
  · cases hc
  · cases hi
  · rw [htasks] at hc
    cases hc

theorem durable_run {s₀ s : State S} (h : Durable s₀) (hrun : (runs step Named).rel s₀ s)
    (hok : s.pool.memory.world.log.ioFailed = false) : Durable s := by
  refine Evolution.star_keep (I := fun s : State S => s.pool.memory.world.log.ioFailed = false → Durable s)
    ?_ hrun (fun _ => h) hok
  rintro s t ⟨a, ha, hstep⟩ ih hok
  have hbefore := ih (not_failed_before_step hstep hok)
  cases a with
  | call repo op =>
    cases hstep
    exact durable_call hbefore ha op
  | turn i => exact durable_turn hbefore hstep hok
  | crash torn B => exact durable_crash hbefore hstep

/-! ## Calls take effect once -/

/-- The log grows at its end, and a call that is over does not come into it any more. -/
def later (S : Setup) : Evolution (State S) where
  rel s t := s.log <+: t.log ∧ ∀ (i : Nat) (c : Call), s.pool.tasks[i]? = some c →
    ∃ c', t.pool.tasks[i]? = some c' ∧ c'.repo = c.repo ∧ c'.op = c.op ∧
      (c.over = true → c'.over = true ∧ (i ∈ t.log → i ∈ s.log))
  refl s := ⟨List.prefix_rfl, fun i c hc => ⟨c, hc, rfl, rfl, fun h => ⟨h, id⟩⟩⟩
  trans h g := by
    refine ⟨h.1.trans g.1, fun i c hc => ?_⟩
    obtain ⟨c', hc', hrepo, hop, hover⟩ := h.2 i c hc
    obtain ⟨c'', hc'', hrepo', hop', hover'⟩ := g.2 i c' hc'
    refine ⟨c'', hc'', hrepo'.trans hrepo, hop'.trans hop, fun h => ?_⟩
    obtain ⟨h', hlog⟩ := hover h
    obtain ⟨h'', hlog'⟩ := hover' h'
    exact ⟨h'', fun hi => hlog (hlog' hi)⟩

theorem later_step {s t : State S} {a : Act} (hstep : step s a = some t) : (later S).rel s t := by
  cases a with
  | call repo op =>
    cases hstep
    refine ⟨List.prefix_rfl, fun i c hc => ⟨c, ?_, rfl, rfl, fun h => ⟨h, id⟩⟩⟩
    obtain ⟨hlt, -⟩ := List.getElem?_eq_some_iff.mp hc
    exact (List.getElem?_append_left hlt).trans hc
  | turn i =>
    obtain ⟨before, c, after, m, p, ht⟩ := turn_inv hstep
    refine ⟨?_, fun j q hq => ?_⟩
    · rw [ht.log]
      split
      · exact List.prefix_append _ _
      · exact List.prefix_rfl
    · by_cases hji : j = i
      · subst hji
        cases ht.task.symm.trans hq
        refine ⟨_, ht.task', rfl, rfl, fun hover => ?_⟩
        rcases advance_over ht.adv with ⟨hno, -⟩ | ⟨-, rfl⟩
        · cases hover.symm.trans hno
        · rw [ht.log]
          exact ⟨rfl, id⟩
      · refine ⟨q, (ht.others j hji).trans hq, rfl, rfl, fun hover => ⟨hover, fun hj => ?_⟩⟩
        rw [ht.log] at hj
        split at hj
        · exact (List.mem_append.mp hj).resolve_right fun h => hji (List.mem_singleton.mp h)
        · exact hj
  | crash torn B =>
    cases hstep
    refine ⟨List.prefix_rfl, fun i c hc => ⟨c.lose, by simp [hc], c.lose_eq.1, c.lose_eq.2.1, fun _ => ⟨?_, id⟩⟩⟩
    rw [Call.over, c.lose_eq.2.2.1]
    rfl

theorem later_run {s t : State S} (h : (runs step Named).rel s t) : (later S).rel s t :=
  Evolution.star_rel (fun _ _ hstep => later_step hstep.choose_spec.2) h

/-- In every run with any crashes, in which no step fails: at each moment the sidecar of a repository
holds what the calls of the log make of its tags, and so does the map unless a call on the
repository is about to write. Each call is in the log at most once, and each that has returned is; the log
only grows at its end, and by calls that were still under way or are made later. -/
theorem tags_survive_crashes {ticks wall : List Nat} {s t : State S}
    (hrun : (runs step Named).rel (start S ticks wall) s) (hlater : (runs step Named).rel s t)
    (hok : t.pool.memory.world.log.ioFailed = false) :
    (∀ repo, Findable repo → Stores S t.pool.memory.world.fs repo (replay (asked t) repo t.log) ∧
      ((∀ c ∈ t.pool.tasks, c.phase.pending ≠ some repo) →
        Knows t.pool.memory.world repo (replay (asked t) repo t.log))) ∧
    (t.log.Nodup ∧ ∀ (i : Nat) (c : Call), t.pool.tasks[i]? = some c → c.progress = .running .returned →
      i ∈ t.log) ∧
    s.log <+: t.log ∧ ∀ i ∈ t.log, i ∉ s.log → ∀ c, s.pool.tasks[i]? = some c → c.over = false := by
  have h : Durable t := durable_run (durable_start S ticks wall) ((runs step Named).trans hrun hlater) hok
  obtain ⟨hgrown, hover⟩ := later_run hlater
  refine ⟨fun repo hrepo => h.tags hrepo, ⟨h.nodup, fun i c hc hreturned => ?_⟩, hgrown,
    fun i hi hno c hc => ?_⟩
  · refine (h.ended i c hc ?_).resolve_left fun hlost => ?_
    · rw [Call.over, Call.phase, hreturned]
      rfl
    · cases hreturned.symm.trans hlost
  · refine Bool.eq_false_iff.mpr fun h => hno ?_
    obtain ⟨c', -, -, -, hlog⟩ := hover i c hc
    exact (hlog h).2 hi

/-- A call that has returned decides its tag, whatever crashes follow: if the calls on the tag that were
made before it are over when it is made and no other is made later, its effect is what the sidecar holds,
and the map unless a call on the repository is about to write. -/
theorem acknowledged_call_survives {ticks wall : List Nat} {r t : State S}
    (hrun : (runs step Named).rel (start S ticks wall) r) (hlater : (runs step Named).rel r t)
    (hok : t.pool.memory.world.log.ioFailed = false) {i : Nat} {c : Call} (hnew : r.pool.tasks.length ≤ i)
    (hc : t.pool.tasks[i]? = some c) (hreturned : c.progress = .running .returned)
    (hearlier : ∀ q ∈ r.pool.tasks, q.repo = c.repo → tagOf q.op = tagOf c.op → q.over = true)
    (honly : ∀ (j : Nat) (q : Call), r.pool.tasks.length ≤ j → t.pool.tasks[j]? = some q → q.repo = c.repo →
      tagOf q.op = tagOf c.op → j = i) :
    stored S t.pool.memory.world.fs c.repo (tagOf c.op) = (digestOf c.op).map Digest.toStr ∧
      ((∀ q ∈ t.pool.tasks, q.phase.pending ≠ some c.repo) →
        known t.pool.memory.world c.repo (tagOf c.op) = (digestOf c.op).map Digest.toStr) := by
  have hr : Durable r := durable_run (durable_start S ticks wall) hrun (not_failed_before_run hlater hok)
  have ht : Durable t := durable_run hr hlater hok
  obtain ⟨⟨l, hl⟩, hover⟩ := later_run hlater
  have hlogged : i ∈ t.log := (ht.ended i c hc (by rw [Call.over, Call.phase, hreturned]; rfl)).resolve_left
    fun hlost => by cases hreturned.symm.trans hlost
  have hmade : ∀ j ∈ r.log, j < r.pool.tasks.length := fun j hj => by
    obtain ⟨q, hq, -⟩ := hr.logged j hj
    exact (List.getElem?_eq_some_iff.mp hq).1
  have hmem : i ∈ l := by
    rw [← hl] at hlogged
    exact (List.mem_append.mp hlogged).resolve_left fun h => absurd (hmade i h) (by omega)
  have hreplay : replay (asked t) c.repo t.log (tagOf c.op) = digestOf c.op := by
    rw [← hl]
    refine replay_last (by simp [asked, hc]) r.log hmem fun j hj op' hop htag => ?_
    obtain ⟨q, hq, hpair⟩ : ∃ q, t.pool.tasks[j]? = some q ∧ (q.repo, q.op) = (c.repo, op') := by
      simpa only [asked, List.getElem?_map, Option.map_eq_some_iff] using hop
    obtain ⟨hrepo, rfl⟩ := Prod.mk.inj hpair
    by_cases hj' : j < r.pool.tasks.length
    · -- a call that is over does not come into the log any more
      obtain ⟨q', hq', hrepo', hop', hdone⟩ := hover j _ (List.getElem?_eq_getElem hj')
      cases hq.symm.trans hq'
      have hq₀ := hearlier _ (List.getElem_mem hj') (hrepo'.symm.trans hrepo) (by rw [← hop', htag])
      have hin : j ∈ r.log := (hdone hq₀).2 (hl ▸ List.mem_append_right _ hj)
      have hnodup := ht.nodup
      rw [← hl] at hnodup
      exact absurd rfl ((List.nodup_append.mp hnodup).2.2 j hin j hj)
    · exact honly j q (by omega) hq hrepo htag
  have hfind : Findable c.repo := (ht.own c (List.mem_of_getElem? hc)).1
  obtain ⟨hstores, hknows⟩ := ht.tags hfind
  exact ⟨(hstores _).trans (by rw [hreplay]), fun hidle => (hknows hidle _).trans (by rw [hreplay])⟩

/-! A push returns; the server is killed while a second one has written three bytes of its temporary file,
and is started again. -/

instance (s : State S) : DecidablePred (Named s) := fun act =>
  match act with
  | .call repo _ => inferInstanceAs (Decidable (Findable repo))
  | .turn _ => .isTrue trivial
  | .crash _ _ => .isTrue trivial

def crashActs : List Act :=
  [.call app (.set v1 content)] ++ List.replicate 7 (.turn 0) ++ [.call app (.set v2 content)] ++
    List.replicate 4 (.turn 1) ++ [.crash [(1, 3)] coldBoot]

def crashStart : State Codec.standalone := start _ [] [5, 3]

/-- The state after the crash. -/
def Recovered (t : State Codec.standalone) : Prop :=
  t.pool.memory.world.log.ioFailed = false ∧ (∀ c ∈ t.pool.tasks, c.phase.pending ≠ some app) ∧
    replay (asked t) app t.log v1 = some content ∧ replay (asked t) app t.log v2 = none ∧
    t.pool.tasks.map (fun c => (c.repo, tagOf c.op, digestOf c.op)) =
      [(app, v1, some content), (app, v2, some content)] ∧
    (t.pool.tasks[0]?).any (fun c => c.progress matches .running .returned) = true

instance : DecidablePred Recovered := fun _ => inferInstanceAs (Decidable (_ ∧ _))

theorem recovers : ∃ t, (runs step Named).rel crashStart t ∧ Recovered t :=
  exists_run_of_follow step Named crashStart crashActs Recovered (by decide +kernel)

theorem torn_push_is_lost : ∃ t : State Codec.standalone,
    known t.pool.memory.world app v1 = some content.toStr ∧ known t.pool.memory.world app v2 = none := by
  obtain ⟨t, hrun, hok, hidle, h₁, h₂, -⟩ := recovers
  obtain ⟨-, hknows⟩ := (tags_survive_crashes ((runs step Named).refl _) hrun hok).1 app (by decide)
  exact ⟨t, (hknows hidle v1).trans (by rw [h₁]; rfl), (hknows hidle v2).trans (by rw [h₂]; rfl)⟩

theorem acknowledged_push_is_kept : ∃ t : State Codec.standalone,
    stored Codec.standalone t.pool.memory.world.fs app v1 = some content.toStr ∧
      known t.pool.memory.world app v1 = some content.toStr := by
  obtain ⟨t, hrun, hok, hidle, -, -, hcalls, hfirst⟩ := recovers
  obtain ⟨c, hc, hreturned⟩ := (Option.any_eq_true _ _).mp hfirst
  have hprogress : c.progress = .running .returned := by
    split at hreturned
    · assumption
    · cases hreturned
  have hentry : ∀ {j : Nat} {q : Call}, t.pool.tasks[j]? = some q →
      [(app, v1, some content), (app, v2, some content)][j]? = some (q.repo, tagOf q.op, digestOf q.op) := by
    intro j q hq
    rw [← hcalls, List.getElem?_map, hq]
    rfl
  obtain ⟨hrepo, hcall⟩ := Prod.mk.inj (Option.some.inj (hentry hc))
  obtain ⟨htag, hdigest⟩ := Prod.mk.inj hcall
  have hsurvives := acknowledged_call_survives ((runs step Named).refl _) hrun hok (Nat.zero_le 0) hc hprogress
    (fun q hq => by cases hq) fun j q _ hq _ hsame => ?_
  · rw [← hrepo, ← htag, ← hdigest] at hsurvives
    exact ⟨t, hsurvives.1, hsurvives.2 hidle⟩
  · match j with
    | 0 => rfl
    | 1 =>
      have hv2 : v2 = tagOf q.op := (Prod.mk.inj (Prod.mk.inj (Option.some.inj (hentry hq))).2).1
      exact absurd (htag.trans (hsame.symm.trans hv2.symm)) (by decide)
    | j + 2 => cases hentry hq

end Quill.Server.Crashes
