import Quill.Registry.Changes
import Quill.Registry.LocalTagsSteps

/-!
# Tag updates that fail

`set` and `remove` of `LocalTagsStore` change the map in memory and then write the sidecar. The
write takes three steps, each of which can fail, after a part of its effect: a directory, the
temporary file, the rename. Nothing takes the change of the map back.

A failed step leaves every sidecar as it was, so the map is what decides. A failed `set` has no
effect exactly when the tag had the very same entry before, and a failed `remove` always
has one: the tag is gone in memory and still on disk, and the retry of the deletion answers
404 (`failed_updates`).
-/

namespace Quill.Registry.TagFaults

open Text Files Cas World LocalTags

/-! ## The operations with a fault -/

/-- The step of `write_atomic` that fails: the creation of the directories, with the last `left` of
them missing, the write of the temporary file, after `reached` bytes, or the rename. -/
inductive Fault where
  | createDir (left : Nat)
  | write (reached : Nat)
  | rename
  deriving DecidableEq

section Program

variable {S : Setup}

/-- A step; a faulty one fails after the part `torn` of its effect. -/
def step (torn : Option (Prog Fs IoKind Unit)) (op : Prog Fs IoKind Unit) :
    Prog (World S) LocalTagsError Unit :=
  match torn with
  | none => (onFs op).mapError .io
  | some torn => do
    let _ ← (onFs torn).attempt
    throw (.io .other)

/-- The creation of the repository's directory. -/
def makeDirs (fault : Option Fault) (repo : Str) : Prog (World S) LocalTagsError Unit :=
  step (match fault with
    | some (.createDir left) => some (Fs.createDirAll ((repoDir S.root repo).drop left))
    | _ => none) (Fs.createDirAll (repoDir S.root repo))

/-- The write of the temporary file; a fault leaves a prefix of it. -/
def writeTmp (fault : Option Fault) (repo : Str) (body : Bytes) :
    Prog (World S) LocalTagsError Unit :=
  step (match fault with
    | some (.write reached) => some (Fs.writeFile (tmpPath S repo) (body.take reached))
    | _ => none) (Fs.writeFile (tmpPath S repo) body)

/-- The rename of the temporary file over the sidecar. -/
def renameTmp (fault : Option Fault) (repo : Str) : Prog (World S) LocalTagsError Unit :=
  step (match fault with
    | some .rename => some (pure ())
    | _ => none) (Fs.rename (tmpPath S repo) (localTagsPath S.root repo))

/-- `write_atomic`. -/
def writeSidecar (fault : Option Fault) (repo : Str) (value : OnDiskTags) :
    Prog (World S) LocalTagsError Unit := do
  makeDirs fault repo
  writeTmp fault repo (S.serde.tagsToVec value)
  renameTmp fault repo

/-- `LocalTagsStore::set`. -/
def set (fault : Option Fault) (repo tag : Str) (d : Digest) :
    Prog (World S) LocalTagsError Unit := do
  let pushedAt ← wallNow
  modify fun w => { w with localTags := w.localTags.insert (repo, tag) ⟨d.toStr, pushedAt⟩ }
  writeSidecar fault repo (snapshot (← get).localTags repo)

/-- `LocalTagsStore::remove`. -/
def remove (fault : Option Fault) (repo tag : Str) : Prog (World S) LocalTagsError Bool := do
  match (← get).localTags.lookup (repo, tag) with
  | none => return false
  | some _ =>
    modify fun w => { w with localTags := w.localTags.erase (repo, tag) }
    writeSidecar fault repo (snapshot (← get).localTags repo)
    return true

/-- `put_manifest` for a tag, once the manifest is stored. -/
def putTag (fault : Option Fault) (repo tag : Str) (contentType : Option Str) (d : Digest) :
    Handler S := do
  match ← (set fault repo tag d).attempt with
  | .error e => return internalErr (.localTags e)
  | .ok () =>
    build .created ([(.location, "/v2/".toList ++ repo ++ "/manifests/".toList ++ d.toStr),
      (.dockerContentDigest, d.toStr)] ++ (contentType.map fun ct => (.contentType, ct)).toList) .empty

/-- `delete_manifest` for a tag. -/
def deleteTag (fault : Option Fault) (repo tag : Str) : Handler S := do
  match ← (remove fault repo tag).attempt with
  | .ok true => return ⟨.accepted, [], .empty⟩
  | .ok false => return manifestUnknown tag
  | .error e => return internalErr (.localTags e)

/-! ## Without a fault -/

theorem exec_writeSidecar_none (repo : Str) (value : OnDiskTags) (w : World S) :
    (writeSidecar none repo value).exec w = (LocalTags.writeSidecar repo value).exec w := by
  rcases Prog.exec_bind_cases ((onFs (Fs.createDirAll (repoDir S.root repo))).mapError .io)
    (fun _ => (onFs (Fs.writeAtomic (tmpPath S repo)
      (localTagsPath S.root repo) (S.serde.tagsToVec value))).mapError LocalTagsError.io) w with
    ⟨e, w₁, hdirs, hall⟩ | ⟨u, w₁, hdirs, hall⟩
  · exact (Prog.exec_bind_error hdirs).trans hall.symm
  · refine (Prog.exec_bind_ok hdirs).trans (Eq.trans ?_ hall.symm)
    exact (LocalTagsSteps.exec_onFs_seq _ _ _ w₁).symm

theorem set_none (repo tag : Str) (d : Digest) (w : World S) :
    (set none repo tag d).exec w = (LocalTags.set repo tag d).exec w :=
  exec_writeSidecar_none repo _ _

theorem remove_none (repo tag : Str) (w : World S) :
    (remove none repo tag).exec w = (LocalTags.remove repo tag).exec w := by
  have hfault : (remove none repo tag : Prog (World S) _ _).exec w = _ :=
    Prog.exec_bind_ok (Prog.exec_get w)
  have hplain : (LocalTags.remove repo tag : Prog (World S) _ _).exec w = _ :=
    Prog.exec_bind_ok (Prog.exec_get w)
  rw [hfault, hplain]
  cases w.localTags.lookup (repo, tag) with
  | none => rfl
  | some t =>
    obtain ⟨w₁, hw₁⟩ : ∃ w₁, w₁ = { w with localTags := w.localTags.erase (repo, tag) } := ⟨_, rfl⟩
    have hwrite := exec_writeSidecar_none repo (snapshot w₁.localTags repo) w₁
    show ((writeSidecar none repo (snapshot (w.localTags.erase (repo, tag)) repo) >>=
        fun _ => pure true).exec { w with localTags := w.localTags.erase (repo, tag) }) =
      ((LocalTags.writeSidecar repo (snapshot (w.localTags.erase (repo, tag)) repo) >>=
        fun _ => pure true).exec { w with localTags := w.localTags.erase (repo, tag) })
    subst hw₁
    rw [Prog.exec_bind, Prog.exec_bind, hwrite]

end Program

/-! ## What a failed update leaves -/

section Failed

variable {S : Setup} {w w' : World S} {repo tag : Str} {fault : Option Fault} {e : LocalTagsError}

/-- The map and what is read from every sidecar are the same. -/
def sidecarsKept (S : Setup) : Evolution (World S) where
  rel w w' := w'.localTags = w.localTags ∧
    ∀ r, w'.fs.read (localTagsPath S.root r) = w.fs.read (localTagsPath S.root r)
  refl _ := ⟨rfl, fun _ => rfl⟩
  trans h g := ⟨g.1.trans h.1, fun r => (g.2 r).trans (h.2 r)⟩

theorem onFs_sidecarsKept {op : Prog Fs IoKind Unit}
    (h : ∀ fs r, (op.exec fs).2.read (localTagsPath S.root r) = fs.read (localTagsPath S.root r)) :
    Moves (sidecarsKept S) (onFs op) := by
  intro w
  rcases hop : op.exec w.fs with ⟨e | u, fs'⟩
  · have hread := h w.fs
    rw [hop] at hread
    rw [exec_onFs_error hop]
    exact ⟨rfl, hread⟩
  · have hread := h w.fs
    rw [hop] at hread
    rw [exec_onFs_ok hop]
    exact ⟨rfl, hread⟩

theorem step_sidecarsKept {torn : Option (Prog Fs IoKind Unit)} {op : Prog Fs IoKind Unit}
    (htorn : ∀ t ∈ torn, ∀ fs r,
      (t.exec fs).2.read (localTagsPath S.root r) = fs.read (localTagsPath S.root r))
    (hop : ∀ fs r, (op.exec fs).2.read (localTagsPath S.root r) = fs.read (localTagsPath S.root r)) :
    Moves (sidecarsKept S) (step torn op) := by
  cases torn with
  | none => exact (onFs_sidecarsKept hop).of_mapError _
  | some t =>
    apply (onFs_sidecarsKept (htorn t rfl)).of_attempt.seq
    intro _
    exact Moves.of_throw _

theorem createDirAll_read (p : Path) (fs : Fs) (r : Str) :
    ((Fs.createDirAll p).exec fs).2.read (localTagsPath S.root r) =
      fs.read (localTagsPath S.root r) :=
  Fs.growsDirs_read (Fs.createDirAll_grows _ _) _

theorem writeTmp_read (b : Bytes) (fs : Fs) (repo r : Str) :
    ((Fs.writeFile (tmpPath S repo) b).exec fs).2.read (localTagsPath S.root r) =
      fs.read (localTagsPath S.root r) := by
  apply LocalTagsSteps.read_writeFile
  intro heq
  have hname : localTagsName ≠ localTagsTmpName := by decide
  exact hname (List.cons.inj heq).1

theorem makeDirs_sidecarsKept (fault : Option Fault) (repo : Str) :
    Moves (sidecarsKept S) (makeDirs fault repo) := by
  apply step_sidecarsKept
  · intro t ht fs r
    split at ht
    · cases ht
      exact createDirAll_read _ fs r
    · cases ht
  · intro fs r
    exact createDirAll_read _ fs r

theorem writeTmp_sidecarsKept (fault : Option Fault) (repo : Str) (body : Bytes) :
    Moves (sidecarsKept S) (writeTmp fault repo body) := by
  apply step_sidecarsKept
  · intro t ht fs r
    split at ht
    · cases ht
      exact writeTmp_read _ fs repo r
    · cases ht
  · intro fs r
    exact writeTmp_read _ fs repo r

/-- A rename that fails changes nothing. -/
theorem renameTmp_error (h : (renameTmp fault repo).exec w = (.error e, w')) :
    (sidecarsKept S).rel w w' := by
  unfold renameTmp at h
  split at h
  · cases h
    exact (sidecarsKept S).refl w
  · rcases Fs.exec_rename (tmpPath S repo) (localTagsPath S.root repo) w.fs with
      ⟨b, -, -, -, hop⟩ | ⟨kind, hop⟩
    · cases (exec_mapError_ok (exec_onFs_ok hop)).symm.trans h
    · cases (exec_mapError_error (exec_onFs_error hop)).symm.trans h
      exact ⟨rfl, fun _ => rfl⟩

/-- A write that fails leaves the map and every sidecar. -/
theorem writeSidecar_error {value : OnDiskTags}
    (h : (writeSidecar fault repo value).exec w = (.error e, w')) : (sidecarsKept S).rel w w' := by
  have hdirs : (sidecarsKept S).rel w ((makeDirs fault repo).exec w).2 :=
    makeDirs_sidecarsKept fault repo w
  have hwrite : ∀ w₁ : World S, (sidecarsKept S).rel w₁
      ((writeTmp fault repo (S.serde.tagsToVec value)).exec w₁).2 :=
    fun w₁ => writeTmp_sidecarsKept fault repo _ w₁
  rcases Prog.exec_bind_cases (makeDirs fault repo) (fun _ => do
    writeTmp fault repo (S.serde.tagsToVec value)
    renameTmp fault repo) w with ⟨e₁, w₁, hfirst, hall⟩ | ⟨_, w₁, hfirst, hall⟩
  · rw [hfirst] at hdirs
    cases hall.symm.trans h
    exact hdirs
  · rw [hfirst] at hdirs
    have h := hall.symm.trans h
    have hwrite := hwrite w₁
    rcases Prog.exec_bind_cases (writeTmp fault repo (S.serde.tagsToVec value))
      (fun _ => renameTmp fault repo) w₁ with ⟨e₁, w₂, hsecond, hall⟩ | ⟨_, w₂, hsecond, hall⟩
    · rw [hsecond] at hwrite
      cases hall.symm.trans h
      exact (sidecarsKept S).trans hdirs hwrite
    · rw [hsecond] at hwrite
      have hrename := renameTmp_error (hall.symm.trans h)
      exact (sidecarsKept S).trans hdirs ((sidecarsKept S).trans hwrite hrename)

/-- The store answers as before for every repository and tag, and a reload still agrees
with it where it did. -/
structure Unchanged (w w' : World S) : Prop where
  get : ∀ r t, w'.localTags.lookup (r, t) = w.localTags.lookup (r, t)
  list : ∀ r t m, (t, m) ∈ listForRepo w'.localTags r ↔ (t, m) ∈ listForRepo w.localTags r
  reload : ∀ r, LocalTagsSteps.Mirrors w r → LocalTagsSteps.Mirrors w' r

/-- Where every sidecar is kept, the map decides. -/
theorem unchanged_of_get
    (hread : ∀ r, w'.fs.read (localTagsPath S.root r) = w.fs.read (localTagsPath S.root r))
    (h : ∀ r t, w'.localTags.lookup (r, t) = w.localTags.lookup (r, t)) : Unchanged w w' := by
  refine ⟨h, fun r t m => ?_, fun r hmirror => ?_⟩
  · rw [mem_listForRepo, mem_listForRepo, h]
  · rw [LocalTagsSteps.mirrors_iff] at hmirror ⊢
    intro t
    have hdisk : LocalTagsSteps.onDisk S w'.fs r = LocalTagsSteps.onDisk S w.fs r := by
      unfold LocalTagsSteps.onDisk
      rw [hread]
    rw [hdisk, h]
    exact hmirror t

theorem set_error {d : Digest} (h : (set fault repo tag d).exec w = (.error e, w')) :
    w'.localTags = w.localTags.insert (repo, tag) ⟨d.toStr, w.wall.headD 0⟩ ∧
      ∀ r, w'.fs.read (localTagsPath S.root r) = w.fs.read (localTagsPath S.root r) :=
  writeSidecar_error h

/-- A removal that fails had found the tag. -/
theorem remove_error (h : (remove fault repo tag).exec w = (.error e, w')) :
    (∃ t, w.localTags.lookup (repo, tag) = some t) ∧
      w'.localTags = w.localTags.erase (repo, tag) ∧
      ∀ r, w'.fs.read (localTagsPath S.root r) = w.fs.read (localTagsPath S.root r) := by
  have hget : (remove fault repo tag : Prog (World S) _ _).exec w = _ :=
    Prog.exec_bind_ok (Prog.exec_get w)
  rw [hget] at h
  cases htag : w.localTags.lookup (repo, tag) with
  | none =>
    rw [htag] at h
    cases h
  | some t =>
    rw [htag] at h
    refine ⟨⟨t, rfl⟩, ?_⟩
    have hrun : (writeSidecar fault repo (snapshot (w.localTags.erase (repo, tag)) repo) >>=
        fun _ => pure true).exec { w with localTags := w.localTags.erase (repo, tag) } =
        (.error e, w') := h
    rcases Prog.exec_bind_cases (writeSidecar fault repo
      (snapshot (w.localTags.erase (repo, tag)) repo)) (fun _ => pure true)
      { w with localTags := w.localTags.erase (repo, tag) } with
      ⟨e₁, w₁, hwrite, hall⟩ | ⟨_, w₁, hwrite, hall⟩
    · cases hall.symm.trans hrun
      exact writeSidecar_error hwrite
    · cases hall.symm.trans hrun

/-- A failed `set` has no effect exactly when the tag had the same entry before. -/
theorem unchanged_set_iff {d : Digest} (h : (set fault repo tag d).exec w = (.error e, w')) :
    Unchanged w w' ↔ w.localTags.lookup (repo, tag) = some ⟨d.toStr, w.wall.headD 0⟩ := by
  obtain ⟨hmap, hread⟩ := set_error h
  constructor
  · intro hsame
    have hget := hsame.get repo tag
    rw [hmap, AList.lookup_insert] at hget
    exact hget.symm
  · intro hentry
    apply unchanged_of_get hread
    intro r t
    rw [hmap]
    by_cases hkey : (r, t) = (repo, tag)
    · rw [hkey, AList.lookup_insert, hentry]
    · rw [AList.lookup_insert_ne hkey]

/-- A failed `remove` takes the tag out of the map. -/
theorem not_unchanged_remove (h : (remove fault repo tag).exec w = (.error e, w')) :
    ¬ Unchanged w w' := by
  obtain ⟨⟨t, htag⟩, hmap, -⟩ := remove_error h
  intro hsame
  have hget := hsame.get repo tag
  rw [hmap, AList.lookup_erase, htag] at hget
  cases hget

theorem exec_remove_absent (h : w.localTags.lookup (repo, tag) = none) :
    (remove fault repo tag).exec w = (.ok false, w) := by
  have hget : (remove fault repo tag : Prog (World S) _ _).exec w = _ :=
    Prog.exec_bind_ok (Prog.exec_get w)
  rw [hget, h]
  rfl

/-- A deletion that answers 500 is a failed removal. -/
theorem deleteTag_failed {resp : Response} (h : (deleteTag fault repo tag).exec w = (.ok resp, w'))
    (hstatus : resp.status = .internalServerError) :
    ∃ e, (remove fault repo tag).exec w = (.error e, w') := by
  rcases hremove : (remove fault repo tag).exec w with ⟨e | found, w₁⟩
  · have hrun : (deleteTag fault repo tag).exec w = _ :=
      Prog.exec_bind_ok (Prog.exec_attempt_eq.mpr hremove)
    cases hrun.symm.trans h
    exact ⟨e, rfl⟩
  · have hrun : (deleteTag fault repo tag).exec w = _ :=
      Prog.exec_bind_ok (Prog.exec_attempt_eq.mpr hremove)
    rw [hrun] at h
    cases found with
    | true =>
      cases h
      cases hstatus
    | false =>
      cases h
      cases hstatus

/-- The retry of a deletion that answered 500 answers 404, with the tag still on disk. -/
theorem deleteTag_retry {resp : Response} (h : (deleteTag fault repo tag).exec w = (.ok resp, w'))
    (hstatus : resp.status = .internalServerError) (fault' : Option Fault) :
    (deleteTag fault' repo tag).exec w' = (.ok (manifestUnknown tag), w') ∧
      (LocalTagsSteps.Mirrors w repo →
        (LocalTagsSteps.loaded S w'.fs repo).lookup (repo, tag) =
          w.localTags.lookup (repo, tag)) := by
  obtain ⟨e, hremove⟩ := deleteTag_failed h hstatus
  obtain ⟨-, hmap, hread⟩ := remove_error hremove
  have hgone : w'.localTags.lookup (repo, tag) = none := by rw [hmap, AList.lookup_erase]
  constructor
  · exact Prog.exec_bind_ok (Prog.exec_attempt_eq.mpr (exec_remove_absent hgone))
  · intro hmirror
    rw [LocalTagsSteps.mirrors_iff] at hmirror
    rw [LocalTagsSteps.lookup_loaded, if_pos rfl, ← hmirror tag]
    unfold LocalTagsSteps.onDisk
    rw [hread]

/-- The digest that the registry serves for a tag. -/
def served (w : World S) (repo tag : Str) : Option Str :=
  (w.localTags.lookup (repo, tag)).map LocalTagMeta.digest

/-- A push that answers 500 because of its tag is a failed `set`. -/
theorem putTag_failed {contentType : Option Str} {d : Digest} {resp : Response}
    (h : (putTag fault repo tag contentType d).exec w = (.ok resp, w'))
    (hstatus : resp.status = .internalServerError) :
    ∃ e, (set fault repo tag d).exec w = (.error e, w') := by
  rcases hset : (set fault repo tag d).exec w with ⟨e | _, w₁⟩
  · have hrun : (putTag fault repo tag contentType d).exec w = _ :=
      Prog.exec_bind_ok (Prog.exec_attempt_eq.mpr hset)
    cases hrun.symm.trans h
    exact ⟨e, rfl⟩
  · have hrun : (putTag fault repo tag contentType d).exec w = _ :=
      Prog.exec_bind_ok (Prog.exec_attempt_eq.mpr hset)
    obtain ⟨rfl, -⟩ := exec_build_eq_ok (hrun.symm.trans h)
    cases hstatus

/-- The tag of a push that answers 500 serves the new manifest. -/
theorem served_putTag {contentType : Option Str} {d : Digest} {resp : Response}
    (h : (putTag fault repo tag contentType d).exec w = (.ok resp, w'))
    (hstatus : resp.status = .internalServerError) : served w' repo tag = some d.toStr := by
  obtain ⟨e, hset⟩ := putTag_failed h hstatus
  unfold served
  rw [(set_error hset).1, AList.lookup_insert]
  rfl

/-- Updates that fail: `set` has no effect exactly when it would have had none, `remove` always
has one. A push that answers 500 because of its tag leaves what the tag serves exactly when
that was the same manifest; a deletion that answers 500 is answered 404 the next time, with
the tag still on disk. -/
theorem failed_updates (w : World S) (repo tag : Str) (fault : Option Fault) :
    (∀ d e w', (set fault repo tag d).exec w = (.error e, w') →
      (Unchanged w w' ↔ w.localTags.lookup (repo, tag) = some ⟨d.toStr, w.wall.headD 0⟩)) ∧
    (∀ e w', (remove fault repo tag).exec w = (.error e, w') → ¬ Unchanged w w') ∧
    (∀ contentType d resp w', (putTag fault repo tag contentType d).exec w = (.ok resp, w') →
      resp.status = .internalServerError →
      (served w' repo tag = served w repo tag ↔ served w repo tag = some d.toStr)) ∧
    ∀ resp w', (deleteTag fault repo tag).exec w = (.ok resp, w') →
      resp.status = .internalServerError →
      (∀ fault', (deleteTag fault' repo tag).exec w' = (.ok (manifestUnknown tag), w')) ∧
      (LocalTagsSteps.Mirrors w repo →
        (LocalTagsSteps.loaded S w'.fs repo).lookup (repo, tag) =
          w.localTags.lookup (repo, tag)) := by
  refine ⟨fun d e w' h => unchanged_set_iff h, fun e w' h => not_unchanged_remove h, ?_, ?_⟩
  · intro contentType d resp w' h hstatus
    rw [served_putTag h hstatus]
    exact eq_comm
  · intro resp w' h hstatus
    exact ⟨fun fault' => (deleteTag_retry h hstatus fault').1,
      (deleteTag_retry h hstatus none).2⟩

end Failed

/-! ## A disk that is full

The tag `v1` is pushed, then every write to the disk fails. -/

def app : Str := "library/app".toList

def v1 : Str := "v1".toList

def old : Digest := Codec.standalone.digest [1]

def new : Digest := Codec.standalone.digest [2]

def pushed : World Codec.standalone := ((set none app v1 old).exec (World.start Codec.standalone [] [5, 7])).2

def full : Option Fault := some (.write 0)

/-- The state after a step on the full disk. -/
def afterSet : World Codec.standalone := ((set full app v1 new).exec pushed).2

def afterRemove : World Codec.standalone := ((remove full app v1).exec pushed).2

/-- Both updates fail and have an effect: the tag serves the new manifest, or none, and is
on disk with the old one. -/
theorem full_disk_loses_the_tag :
    ((set full app v1 new).exec pushed).1.isOk = false ∧
      served pushed app v1 = some old.toStr ∧ served afterSet app v1 = some new.toStr ∧
      ((remove full app v1).exec pushed).1.isOk = false ∧ served afterRemove app v1 = none ∧
      ((LocalTagsSteps.loaded Codec.standalone afterRemove.fs app).lookup (app, v1)).map LocalTagMeta.digest =
        some old.toStr ∧
      (((deleteTag full app v1).exec pushed).1.toOption.map Response.status,
        ((deleteTag none app v1).exec ((deleteTag full app v1).exec pushed).2).1.toOption.map
          Response.status) = (some .internalServerError, some .notFound) := by
  decide +kernel

theorem full_disk_changes_the_store : ¬ Unchanged pushed afterSet ∧ ¬ Unchanged pushed afterRemove := by
  obtain ⟨hset, hremove, -⟩ := failed_updates pushed app v1 full
  constructor
  · rw [hset new (.io .other) afterSet rfl]
    decide +kernel
  · exact hremove (.io .other) afterRemove rfl

end Quill.Registry.TagFaults
