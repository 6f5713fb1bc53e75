import Quill.PullThrough.Fetch
import Quill.Registry.TagCache
import Quill.Storage.Effects

/-!
# The operations as effects

Every operation of the stores moves a world along the effects of its kind: reading
metadata fills the cache, a buffered put publishes a blob, the operations of a session
work on its data file, and so on. Failed operations leave scratch changes behind and
nothing else.
-/

namespace Quill

open Text Files Cas World LocalStorage Uploads LocalTags

variable {S : Setup} {repo : Str} {K : Set Kind} {ε : Type}

/-! ## Running a file-system step -/

section Exec

variable {α : Type} {m : Prog Fs IoKind α} {w : World S}

theorem exec_onFs_ok {a : α} {fs' : Fs} (h : m.exec w.fs = (.ok a, fs')) :
    (onFs m : Prog (World S) IoKind α).exec w = (.ok a, { w with fs := fs' }) := by
  simp [onFs, h]

theorem exec_onFs_error {e : IoKind} {fs' : Fs} (h : m.exec w.fs = (.error e, fs')) :
    (onFs m : Prog (World S) IoKind α).exec w =
      (.error e, { w with fs := fs', log := { w.log with ioFailed := true } }) := by
  simp [onFs, h]

theorem exec_probeFs_ok {a : α} {fs' : Fs} (h : m.exec w.fs = (.ok a, fs')) :
    (probeFs m : Prog (World S) IoKind α).exec w = (.ok a, { w with fs := fs' }) := by
  simp [probeFs, h]

theorem exec_probeFs_error {e : IoKind} {fs' : Fs} (h : m.exec w.fs = (.error e, fs')) :
    (probeFs m : Prog (World S) IoKind α).exec w =
      (.error e, { w with fs := fs', log := { w.log with ioFailed := w.log.ioFailed || e = .other } }) := by
  simp [probeFs, h]

theorem exec_mapError_ok {σ ε' β : Type} {p : Prog σ ε β} {f : ε → ε'} {s s' : σ} {b : β}
    (h : p.exec s = (.ok b, s')) : (p.mapError f).exec s = (.ok b, s') := by
  simp [h, Except.mapError]

theorem exec_mapError_error {σ ε' β : Type} {p : Prog σ ε β} {f : ε → ε'} {s s' : σ} {e : ε}
    (h : p.exec s = (.error e, s')) : (p.mapError f).exec s = (.error (f e), s') := by
  simp [h, Except.mapError]

/-- A file-system step that succeeded did so on the files of the world. -/
theorem exec_onFs_eq_ok {ε' : Type} {f : IoKind → ε'} {a : α} {w' : World S}
    (h : ((onFs m).mapError f : Prog (World S) ε' α).exec w = (.ok a, w')) :
    ∃ fs', m.exec w.fs = (.ok a, fs') ∧ w' = { w with fs := fs' } := by
  cases hm : m.exec w.fs with
  | mk r fs' =>
    cases r with
    | ok b =>
      rw [exec_mapError_ok (exec_onFs_ok hm)] at h
      cases h
      exact ⟨fs', rfl, rfl⟩
    | error e =>
      rw [exec_mapError_error (exec_onFs_error hm)] at h
      cases h

end Exec

/-- A rename into the store fails without a change, or moves the file and records its
contents. -/
theorem exec_promote (w : World S) (src dst : Path) :
    (∃ b, w.fs.read src = some b ∧ w.fs.isDir dst = false ∧ (promote src dst).exec w =
      (.ok (), { w with
        fs := (w.fs.del src).set dst (.file b)
        log := { w.log with stored := w.log.stored ++ [b] } })) ∨
    ∃ e, (promote src dst).exec w =
      (.error e, { w with log := { w.log with ioFailed := true } }) := by
  rcases Fs.exec_rename src dst w.fs with ⟨b, hb, hdir, -, he⟩ | ⟨e, he⟩
  · refine Or.inl ⟨b, hb, hdir, ?_⟩
    simp [promote, Prog.exec_bind, exec_onFs_ok he, recordStored, hb]
  · refine Or.inr ⟨e, ?_⟩
    simp [promote, Prog.exec_bind, exec_onFs_error he]

/-! ## The local store -/

theorem readFile_spares (p : Path) : Moves spares (Fs.readFile p) := by
  intro fs
  rcases Fs.exec_readFile p fs with ⟨b, -, he⟩ | ⟨-, e, he⟩ <;>
    · rw [he]
      exact spares.refl fs

theorem readBlobToBytes_along (ha : Kind.ambient ∈ K) (m : BlobMeta) :
    Moves (Along S repo K) (readBlobToBytes m) :=
  (onFs_along ha (readFile_spares m.path)).of_mapError _

theorem ensureRepo_ambient (r : Str) (w : World S) : Ambient w ((ensureRepo r).exec w).2 :=
  onFs_ambient ((createDirAll_spares _).seq fun _ => createDirAll_spares _) w

theorem ensureRepo_along (ha : Kind.ambient ∈ K) (r : Str) :
    Moves (Along S repo K) (ensureRepo r) := fun w => (ensureRepo_ambient r w).along ha

/-- The world after a file-system step failed without changing a file. -/
def World.failed (w : World S) : World S := { w with log := { w.log with ioFailed := true } }

/-- A look at a path finds its node, or that it is obstructed, or nothing. -/
theorem exec_attempt_metadata (w : World S) (p : Path) :
    (∃ n, w.fs.node p = some n ∧
      ((probeFs (Fs.metadata p)).attempt : Prog (World S) ε _).exec w = (.ok (.ok n), w)) ∨
    (w.fs.node p = none ∧ w.fs.blocked p = true ∧
      ((probeFs (Fs.metadata p)).attempt : Prog (World S) ε _).exec w =
        (.ok (.error .other), w.failed)) ∨
    (w.fs.node p = none ∧ w.fs.blocked p = false ∧
      ((probeFs (Fs.metadata p)).attempt : Prog (World S) ε _).exec w =
        (.ok (.error .notFound), w)) := by
  rcases Fs.exec_metadata p w.fs with ⟨n, hn, he⟩ | ⟨hn, he⟩
  · exact Or.inl ⟨n, hn, by rw [Prog.exec_attempt, exec_probeFs_ok he]⟩
  · have hprobe := exec_probeFs_error he
    cases hb : w.fs.blocked p with
    | true =>
      refine Or.inr (Or.inl ⟨hn, rfl, ?_⟩)
      rw [Prog.exec_attempt, hprobe]
      simp [hb, World.failed]
    | false =>
      refine Or.inr (Or.inr ⟨hn, rfl, ?_⟩)
      rw [Prog.exec_attempt, hprobe]
      simp [hb]

/-- The world after a probe of the file system ended in an error. -/
def World.probed (w : World S) (e : IoKind) : World S :=
  { w with log := { w.log with ioFailed := w.log.ioFailed || e = .other } }

theorem Ambient.probe (w : World S) (e : IoKind) : Ambient w (w.probed e) :=
  ambient_of_spares (.refl _ _) _ fun h => by simp [h]

/-- The ways `blob_meta` can end. `w₁` is the world after the look at the cache. -/
inductive MetaOutcome (w w₁ : World S) (repo : Str) (d : Digest) :
    Except StorageError (Option BlobMeta) × World S → Prop
  | hit {m : BlobMeta} (hlook : w.metaCache.lookup (repo, d) = some m)
      (hfresh : w₁.now - m.cachedAt < S.metaTtl) : MetaOutcome w w₁ repo d (.ok (some m), w₁)
  | found {b : Bytes} (hread : w.fs.read (blobPath S.root repo d) = some b) :
      MetaOutcome w w₁ repo d
        (.ok (some ⟨blobPath S.root repo d, b.length, w₁.tick.now⟩),
          w₁.tick.filled repo d ⟨blobPath S.root repo d, b.length, w₁.tick.now⟩)
  | isDir (hnode : w.fs.node (blobPath S.root repo d) = some .dir) :
      MetaOutcome w w₁ repo d (.ok none, w₁)
  | absent (hnode : w.fs.node (blobPath S.root repo d) = none)
      (hblocked : w.fs.blocked (blobPath S.root repo d) = false) :
      MetaOutcome w w₁ repo d (.ok none, w₁)
  | blocked (hnode : w.fs.node (blobPath S.root repo d) = none)
      (hblocked : w.fs.blocked (blobPath S.root repo d) = true) :
      MetaOutcome w w₁ repo d (.error (.io .other), w₁.failed)

theorem exec_blobMeta_miss {w w₁ : World S} {d : Digest} (hfs : w₁.fs = w.fs)
    (hget : (cacheGet repo d : Prog (World S) StorageError _).exec w = (.ok none, w₁)) :
    MetaOutcome w w₁ repo d ((blobMeta repo d).exec w) := by
  have hrest : (blobMeta repo d).exec w = _ := Prog.exec_bind_ok hget
  rw [hrest]
  rcases exec_attempt_metadata (ε := StorageError) w₁ (blobPath S.root repo d) with
    ⟨n, hn, he⟩ | ⟨hn, hb, he⟩ | ⟨hn, hb, he⟩
  · rw [Prog.exec_bind_ok he]
    rw [hfs] at hn
    cases n with
    | dir => exact .isDir hn
    | file b => exact .found (Fs.read_eq_some.mpr hn)
  · rw [Prog.exec_bind_ok he]
    exact .blocked (hfs ▸ hn) (hfs ▸ hb)
  · rw [Prog.exec_bind_ok he]
    exact .absent (hfs ▸ hn) (hfs ▸ hb)

theorem exec_blobMeta (w : World S) (repo : Str) (d : Digest) :
    ∃ w₁, (w₁ = w ∨ w₁ = w.tick) ∧ MetaOutcome w w₁ repo d ((blobMeta repo d).exec w) := by
  cases hlook : w.metaCache.lookup (repo, d) with
  | none =>
    refine ⟨w, Or.inl rfl, exec_blobMeta_miss rfl ?_⟩
    simp [cacheGet, Prog.exec_bind, hlook]
  | some m =>
    refine ⟨w.tick, Or.inr rfl, ?_⟩
    by_cases hfresh : w.tick.now - m.cachedAt < S.metaTtl
    · have hget : (cacheGet repo d : Prog (World S) StorageError _).exec w =
          (.ok (some m), w.tick) := by
        simp [cacheGet, Prog.exec_bind, Prog.exec_map, hlook, instantNow, hfresh, Except.map]
      have hrest : (blobMeta repo d).exec w = _ := Prog.exec_bind_ok hget
      rw [hrest]
      exact .hit hlook hfresh
    · refine exec_blobMeta_miss rfl ?_
      simp [cacheGet, Prog.exec_bind, Prog.exec_map, hlook, instantNow, hfresh, Except.map]

theorem Ambient.tick (w : World S) : Ambient w w.tick :=
  ⟨.refl _ _, Eq.refl _, Eq.refl _, Eq.refl _, Eq.refl _, id, Nat.le_add_right _ _⟩

theorem Ambient.of_tick {w w₁ : World S} (h : w₁ = w ∨ w₁ = w.tick) : Ambient w w₁ := by
  rcases h with rfl | rfl
  · exact .rfl
  · exact .tick w

theorem Ambient.fail (w : World S) : Ambient w w.failed :=
  ambient_of_spares (.refl _ _) true fun _ => Eq.refl _

theorem blobMeta_along (ha : Kind.ambient ∈ K) (hf : Kind.fill ∈ K) (d : Digest) :
    Moves (Along S repo K) (blobMeta repo d) := by
  intro w
  obtain ⟨w₁, h₁, hout⟩ := exec_blobMeta w repo d
  have hw₁ : (Along S repo K).rel w w₁ := (Ambient.of_tick h₁).along ha
  generalize (blobMeta repo d).exec w = out at hout
  cases hout with
  | hit _ _ => exact hw₁
  | isDir _ => exact hw₁
  | absent _ _ => exact hw₁
  | blocked _ _ => exact (Along S repo K).trans hw₁ ((Ambient.fail w₁).along ha)
  | found hread =>
    refine (Along S repo K).trans hw₁ ((Along S repo K).trans ((Ambient.tick w₁).along ha) ?_)
    have hfs : w₁.tick.fs = w.fs := by rcases h₁ with rfl | rfl <;> rfl
    refine (Effect.fill d _ rfl (by simp [Fs.isFile, hfs, hread]) fun b hb _ => ?_).along hf
    rw [hfs, hread] at hb
    cases hb
    rfl

theorem blobPath_not_scratch (root : Path) (r : Str) (d : Digest) : ¬ Scratch (blobPath root r d) :=
  fun h => h.1 (isBlobName_blobPath root r d)

/-- Writing a file through a temporary file: nothing but scratch changes, or the file has these
bytes. -/
theorem exec_writeAtomic_spares {tmp dst : Path} (htmp : Scratch tmp) (hdst : ¬ Scratch dst)
    (b : Bytes) (fs : Fs) :
    (∃ e fs', (Fs.writeAtomic tmp dst b).exec fs = (.error e, fs') ∧ Spares ∅ fs fs') ∨
    ∃ fs', (Fs.writeAtomic tmp dst b).exec fs = (.ok (), fs') ∧ Spares {dst} fs fs' ∧
      fs'.read dst = some b := by
  have hne : tmp ≠ dst := by
    rintro rfl
    exact hdst htmp
  rcases Fs.exec_writeAtomic hne b fs with ⟨e, he⟩ | ⟨hdir, e, he⟩ | ⟨htdir, hdir, fs', he, hnode⟩
  · exact Or.inl ⟨e, fs, he, .refl _ _⟩
  · exact Or.inl ⟨e, _, he, Spares.set (Or.inl htmp) (Fs.node_ne_dir_of_isDir hdir)⟩
  · refine Or.inr ⟨fs', he, ⟨fun q hq => ?_, fun q hs hq => Or.inl ?_⟩, ?_⟩
    · rcases Fs.isDir_iff.mp hq with rfl | h
      · rfl
      · have h1 : q ≠ dst := by
          rintro rfl
          exact Fs.node_ne_dir_of_isDir hdir h
        have h2 : q ≠ tmp := by
          rintro rfl
          exact Fs.node_ne_dir_of_isDir htdir h
        exact Fs.isDir_iff.mpr (Or.inr (by rw [hnode, if_neg h1, if_neg h2, h]))
    · have h1 : q ≠ dst := hq
      have h2 : q ≠ tmp := by
        rintro rfl
        exact hs htmp
      rw [hnode, if_neg h1, if_neg h2]
    · rw [Fs.read_eq_some, hnode, if_pos rfl]

/-- The steps of a buffered put that succeeds. -/
theorem exec_putBlobBuffered_eq_ok {w w' : World S} {d : Digest} {b : Bytes} {m : BlobMeta}
    (h : (putBlobBuffered repo d b).exec w = (.ok m, w')) : ∃ fs₁ fs₂,
      (Fs.createDirAll (blobPath S.root repo d).tail).exec w.fs = (.ok (), fs₁) ∧
      (Fs.createDirAll (uploadsDir S.root repo)).exec fs₁ = (.ok (), fs₂) ∧
      (Fs.writeAtomic (tmpName (mix (w.wall.headD 0 % u64) S.pid) :: uploadsDir S.root repo)
        (blobPath S.root repo d) b).exec fs₂ = (.ok (), w'.fs) ∧
      w'.log.stored = w.log.stored ++ [b] ∧ w'.localTags = w.localTags ∧
      w'.upstreamTags = w.upstreamTags ∧ w'.sessions = w.sessions := by
  unfold putBlobBuffered at h
  simp only at h
  split at h
  · cases h
  · obtain ⟨⟨⟩, w₁, h₁, h⟩ := Prog.exec_bind_eq_ok.mp h
    obtain ⟨tmp, w₂, h₂, h⟩ := Prog.exec_bind_eq_ok.mp h
    obtain ⟨⟨⟩, w₃, h₃, h⟩ := Prog.exec_bind_eq_ok.mp h
    obtain ⟨⟨⟩, w₄, h₄, h⟩ := Prog.exec_bind_eq_ok.mp h
    obtain ⟨fs₁, hdirs, rfl⟩ := exec_onFs_eq_ok h₁
    cases h₂
    obtain ⟨fs₂, hmk, rfl⟩ := exec_onFs_eq_ok h₃
    obtain ⟨fs₃, hwrite, rfl⟩ := exec_onFs_eq_ok h₄
    cases h
    exact ⟨fs₁, fs₂, hdirs, hmk, hwrite, rfl, rfl, rfl, rfl⟩

theorem putBlobBuffered_along (ha : Kind.ambient ∈ K) (hp : Kind.publish ∈ K) (hf : Kind.fill ∈ K)
    (d : Digest) (b : Bytes) : Moves (Along S repo K) (putBlobBuffered repo d b) := by
  unfold putBlobBuffered
  refine Moves.of_ite (fun _ => Moves.of_throw _) fun hhash => ?_
  have hhash : S.hash.hex b = d.hex := not_not.mp hhash
  refine ((onFs_along ha (createDirAll_spares _)).of_mapError _).seq fun _ => ?_
  intro w
  refine Moves.rel_bind ?_ fun tmp w₁ htmp => ?_
  · exact (wallNow_along ha).seq (fun _ => Moves.of_pure _) w
  have hscratch : Scratch tmp := by
    cases htmp
    exact scratch_tmpName _ _
  refine Moves.rel_bind ((onFs_along ha (createDirAll_spares _)).of_mapError _ w₁) fun _ w₂ _ => ?_
  rcases exec_writeAtomic_spares hscratch (blobPath_not_scratch S.root repo d) b w₂.fs with
    ⟨e, fs', he, hfs⟩ | ⟨fs', he, hfs, hfile⟩
  · rw [Prog.exec_bind_error (exec_mapError_error (exec_onFs_error he))]
    exact (ambient_of_spares hfs true fun _ => rfl).along ha
  · rw [Prog.exec_bind_ok (exec_mapError_ok (exec_onFs_ok he))]
    refine (Along S repo K).trans ((Effect.publish d b hhash hfs hfile).along hp) ?_
    refine (Along S repo K).trans ((Ambient.tick _).along ha) ?_
    refine (Effect.fill d ⟨blobPath S.root repo d, b.length, _⟩ rfl
      (by simp [Fs.isFile, World.tick, hfile]) fun c hc _ => ?_).along hf
    cases hfile.symm.trans hc
    rfl

theorem World.probed_notFound (w : World S) : w.probed .notFound = w := by
  simp [World.probed]

/-- Deleting a blob: the file is removed, or there was none, or the step failed. The cached metadata
is dropped unless the step failed. -/
theorem exec_deleteBlob (w : World S) (repo : Str) (d : Digest) :
    (∃ b, w.fs.read (blobPath S.root repo d) = some b ∧ (deleteBlob repo d).exec w = (.ok (),
      { w with fs := w.fs.del (blobPath S.root repo d), metaCache := w.metaCache.erase (repo, d) })) ∨
    (w.fs.node (blobPath S.root repo d) = none ∧ (deleteBlob repo d).exec w =
      (.error (.notFound d.toStr), { w with metaCache := w.metaCache.erase (repo, d) })) ∨
    (deleteBlob repo d).exec w = (.error (.io .other), w.failed) := by
  unfold deleteBlob
  rcases Fs.exec_removeFile (blobPath S.root repo d) w.fs with ⟨b, hb, he⟩ | ⟨-, e, he, hgone⟩
  · have hattempt : ((probeFs (Fs.removeFile (blobPath S.root repo d))).attempt :
        Prog (World S) StorageError _).exec w =
          (.ok (.ok ()), { w with fs := w.fs.del (blobPath S.root repo d) }) := by
      rw [Prog.exec_attempt, exec_probeFs_ok he]
    rw [Prog.exec_bind_ok hattempt]
    exact Or.inl ⟨b, hb, rfl⟩
  · have hattempt : ((probeFs (Fs.removeFile (blobPath S.root repo d))).attempt :
        Prog (World S) StorageError _).exec w = (.ok (.error e), w.probed e) := by
      rw [Prog.exec_attempt, exec_probeFs_error he]
      rfl
    rw [Prog.exec_bind_ok hattempt]
    cases e with
    | notFound =>
      rw [World.probed_notFound]
      exact Or.inr (Or.inl ⟨hgone rfl, rfl⟩)
    | other =>
      refine Or.inr (Or.inr ?_)
      simp [World.probed, World.failed]

theorem deleteBlob_along (ha : Kind.ambient ∈ K) (hr : Kind.retract ∈ K) (d : Digest) :
    Moves (Along S repo K) (deleteBlob repo d) := by
  intro w
  rcases exec_deleteBlob w repo d with ⟨b, hb, he⟩ | ⟨hnone, he⟩ | he
  · rw [he]
    refine (Effect.retract d (Spares.del (Or.inr rfl) (Fs.node_ne_dir_of_read hb)) ?_).along hr
    rw [Fs.node_del, if_pos rfl]
  · rw [he]
    exact (Effect.retract d (.refl _ _) hnone).along hr
  · rw [he]
    exact (Ambient.fail w).along ha

/-! ## Sidecars -/

theorem persistRepo_along (ha : Kind.ambient ∈ K) (r : Str) :
    Moves (Along S repo K) (TagCache.persistRepo r : Prog (World S) ε Unit) := by
  refine ((onFs_along ha (createDirAll_spares _)).of_attempt).seq fun _ => ?_
  refine Moves.of_get.seq fun w => ?_
  refine Moves.seq (Moves.of_attempt ?_) fun _ => Moves.of_pure _
  exact onFs_along ha (writeAtomic_spares (scratch_upstreamTagsTmp _) (scratch_upstreamTags _) _)

theorem modifyTags_along (ha : Kind.ambient ∈ K)
    (f : (AList fun _ : Str × Str => Digest × Nat) → AList fun _ : Str × Str => Digest × Nat) :
    Moves (Along S repo K) (modify fun w => { w with upstreamTags := f w.upstreamTags } :
      Prog (World S) ε PUnit) :=
  fun _ => Ambient.along ⟨.refl _ _, rfl, rfl, rfl, rfl, id, le_rfl⟩ ha

theorem tagCacheInsert_along (ha : Kind.ambient ∈ K) (r tag : Str) (d : Digest) :
    Moves (Along S repo K) (TagCache.insert r tag d : Prog (World S) ε Unit) :=
  (instantNow_along ha).seq fun now =>
    (modifyTags_along ha fun m => m.insert (r, tag) (d, now)).seq fun _ => persistRepo_along ha r

theorem tagCacheTouch_along (ha : Kind.ambient ∈ K) (r tag : Str) :
    Moves (Along S repo K) (TagCache.touch r tag : Prog (World S) ε Unit) := by
  refine Moves.of_get.seq fun w => ?_
  cases w.upstreamTags.lookup (r, tag) with
  | none => exact Moves.of_pure _
  | some e =>
    exact (instantNow_along ha).seq fun now => modifyTags_along ha fun m => m.insert (r, tag) (e.1, now)

theorem tagCacheLookup_along (ha : Kind.ambient ∈ K) (r tag : Str) :
    Moves (Along S repo K) (TagCache.lookup r tag : Prog (World S) ε TagCache.TagCacheState) := by
  refine Moves.of_get.seq fun w => ?_
  cases w.upstreamTags.lookup (r, tag) with
  | none => exact Moves.of_pure _
  | some e => exact (instantNow_along ha).seq fun _ => Moves.of_pure _

/-! ## Local tags -/

theorem localTagsPath_not_scratch (root : Path) (r : Str) : ¬ Scratch (localTagsPath root r) :=
  fun h => h.2.2 ⟨_, rfl⟩

/-- The two ways a write of a sidecar can end. A write that fails leaves every file but temporary
ones. -/
theorem exec_writeSidecar_cases (w : World S) (repo : Str) (value : OnDiskTags) :
    (∃ fs', (writeSidecar repo value).exec w = (.ok (), { w with fs := fs' }) ∧
      Spares {localTagsPath S.root repo} w.fs fs' ∧
      fs'.read (localTagsPath S.root repo) = some (S.serde.tagsToVec value)) ∨
    ∃ e fs', (writeSidecar repo value).exec w =
        (.error e, { w with fs := fs', log := { w.log with ioFailed := true } }) ∧
      Spares ∅ w.fs fs' := by
  unfold writeSidecar
  have hdirs := createDirAll_spares (repoDir S.root repo) w.fs
  cases hc : (Fs.createDirAll (repoDir S.root repo)).exec w.fs with
  | mk r₁ fs₁ =>
    rw [hc] at hdirs
    cases r₁ with
    | error e =>
      exact Or.inr ⟨_, fs₁, Prog.exec_bind_error (exec_mapError_error (exec_onFs_error hc)), hdirs⟩
    | ok u =>
      rw [Prog.exec_bind_ok (exec_mapError_ok (exec_onFs_ok hc))]
      rcases exec_writeAtomic_spares (scratch_localTagsTmp (repoDir S.root repo))
        (localTagsPath_not_scratch S.root repo) (S.serde.tagsToVec value) fs₁ with
        ⟨e, fs', he, hfs⟩ | ⟨fs', he, hfs, hfile⟩
      · exact Or.inr ⟨_, fs', exec_mapError_error (exec_onFs_error he), hdirs.trans hfs⟩
      · exact Or.inl ⟨fs', exec_mapError_ok (exec_onFs_ok he),
          (hdirs.mono (Set.empty_subset _)).trans hfs, hfile⟩

/-- Rewriting a sidecar changes its file and scratch files; without a failure it succeeds and the
sidecar holds the value. -/
theorem exec_writeSidecar (w : World S) (repo : Str) (value : OnDiskTags) :
    ∃ r fs' failed, (writeSidecar repo value).exec w =
        (r, { w with fs := fs', log := { w.log with ioFailed := failed } }) ∧
      Spares {localTagsPath S.root repo} w.fs fs' ∧ (w.log.ioFailed = true → failed = true) ∧
      (failed = false → r = .ok () ∧
        fs'.read (localTagsPath S.root repo) = some (S.serde.tagsToVec value)) := by
  rcases exec_writeSidecar_cases w repo value with ⟨fs', he, hfs, hfile⟩ | ⟨e, fs', he, hfs⟩
  · exact ⟨_, fs', w.log.ioFailed, he, hfs, id, fun _ => ⟨rfl, hfile⟩⟩
  · refine ⟨_, fs', true, he, hfs.mono (Set.empty_subset _), fun _ => rfl, fun h => ?_⟩
    cases h

/-- `LocalTagsStore::set` changes the map in memory and rewrites the sidecar. -/
theorem exec_setTag (w : World S) (repo tag : Str) (d : Digest) :
    ∃ r pushedAt w₁ w', (LocalTags.set repo tag d).exec w = (r, w') ∧ Ambient w w₁ ∧
      Effect S repo .setTag w₁ w' ∧
      w'.localTags = w.localTags.insert (repo, tag) ⟨d.toStr, pushedAt⟩ ∧
      (r = .ok () ∨ w'.log.ioFailed = true) := by
  let w₁ : World S := { w with wall := w.wall.tail }
  let w₂ : World S := { w₁ with
    localTags := w₁.localTags.insert (repo, tag) ⟨d.toStr, w.wall.headD 0⟩ }
  obtain ⟨r, fs', failed, he, hfs, hmono, hok⟩ :=
    exec_writeSidecar w₂ repo (snapshot w₂.localTags repo)
  refine ⟨r, w.wall.headD 0, w₁, _, he, ⟨.refl _ _, rfl, rfl, rfl, rfl, id, le_rfl⟩,
    .setTag tag d (w.wall.headD 0) failed hfs hmono fun hf => (hok hf).2, rfl, ?_⟩
  cases hfailed : failed with
  | true => exact Or.inr rfl
  | false => exact Or.inl (hok hfailed).1

theorem exec_removeTag (w : World S) (repo tag : Str) :
    (w.localTags.lookup (repo, tag) = none ∧ (LocalTags.remove repo tag).exec w = (.ok false, w)) ∨
    ∃ r w', (LocalTags.remove repo tag).exec w = (r, w') ∧
      (∃ m, w.localTags.lookup (repo, tag) = some m) ∧ Effect S repo .removeTag w w' ∧
      w'.localTags = w.localTags.erase (repo, tag) ∧ (r = .ok true ∨ w'.log.ioFailed = true) := by
  cases hlook : w.localTags.lookup (repo, tag) with
  | none => exact Or.inl ⟨rfl, by simp [LocalTags.remove, Prog.exec_bind, hlook]⟩
  | some t =>
    let w₁ : World S := { w with localTags := w.localTags.erase (repo, tag) }
    obtain ⟨r, fs', failed, he, hfs, hmono, hok⟩ :=
      exec_writeSidecar w₁ repo (snapshot w₁.localTags repo)
    have hexec : (LocalTags.remove repo tag).exec w =
        ((writeSidecar repo (snapshot w₁.localTags repo) >>= fun _ => pure true).exec w₁) := by
      simp only [LocalTags.remove, Prog.exec_bind, Prog.exec_get, hlook, Prog.exec_modify]
      rfl
    refine Or.inr ⟨r.map fun _ => true, _, ?_, ⟨t, rfl⟩,
      .removeTag tag failed hfs hmono fun hf => (hok hf).2, rfl, ?_⟩
    · rw [hexec, Prog.exec_bind, he]
      cases r <;> rfl
    · cases hfailed : failed with
      | true => exact Or.inr rfl
      | false =>
        rw [(hok hfailed).1]
        exact Or.inl rfl

theorem setTag_along (ha : Kind.ambient ∈ K) (ht : Kind.setTag ∈ K) (tag : Str) (d : Digest) :
    Moves (Along S repo K) (LocalTags.set repo tag d) := by
  intro w
  obtain ⟨r, -, w₁, w', he, hamb, heff, -⟩ := exec_setTag w repo tag d
  rw [he]
  exact (Along S repo K).trans (hamb.along ha) (heff.along ht)

theorem removeTag_along (ht : Kind.removeTag ∈ K) (tag : Str) :
    Moves (Along S repo K) (LocalTags.remove repo tag) := by
  intro w
  rcases exec_removeTag w repo tag with ⟨-, he⟩ | ⟨r, w', he, -, heff, -⟩
  · rw [he]
    exact (Along S repo K).refl w
  · rw [he]
    exact heff.along ht

/-! ## Upload sessions -/

theorem dataPath_not_scratch (root : Path) (r session : Str) : ¬ Scratch (dataPath root r session) :=
  fun h => h.2.1 (isDataName_dataPath root r session)

theorem writeMeta_along (ha : Kind.ambient ∈ K) (r : Str) (m : UploadMeta) :
    Moves (Along S repo K) (writeMeta r m) :=
  (onFs_along ha (writeAtomic_spares (scratch_metaTmpPath _ _ _) (scratch_metaPath _ _ _) _)).of_mapError _

theorem writeMetaFor_along (ha : Kind.ambient ∈ K) (r session : Str) (n : Nat) :
    Moves (Along S repo K) (writeMetaFor r session n) := by
  refine (probeFs_along ha (readFile_spares _)).of_attempt.seq fun b => ?_
  rcases b with (_ | _) | b
  · exact Moves.of_pure _
  · exact Moves.of_throw _
  · dsimp only
    cases S.serde.uploadMetaFromSlice b with
    | none => exact Moves.of_throw _
    | some m => exact (wallNow_along ha).seq fun _ => writeMeta_along ha r _

/-- Appending to a live session: nothing happens, or the chunk is in the file and in the
hasher before the record of the session is rewritten. -/
theorem exec_append (w : World S) (repo session : Str) (chunk : Bytes) :
    (∃ e, (append repo session chunk).exec w = (.error e, w) ∨
      (append repo session chunk).exec w = (.error e, w.failed)) ∨
    ∃ st w₁ w₂, w.sessions.lookup (repo, session) = some st ∧ Ambient w w₁ ∧
      Effect S repo .session w₁ w₂ ∧
      ∃ n, (append repo session chunk).exec w = (.ok n, ((writeMetaFor repo session n).exec w₂).2) := by
  cases hst : w.sessions.lookup (repo, session) with
  | none => exact Or.inl ⟨.notFound session, Or.inl (by simp [append, Prog.exec_bind, hst])⟩
  | some st =>
    cases hfin : st.finalized with
    | true =>
      exact Or.inl ⟨.alreadyFinalized, Or.inl (by simp [append, Prog.exec_bind, hst, hfin])⟩
    | false =>
      rcases Fs.exec_appendFile st.dataPath chunk w.fs with ⟨c, hc, he⟩ | ⟨-, e, he⟩
      · let w₁ : World S := { w with wall := w.wall.tail }
        have happend := exec_onFs_ok he
        refine Or.inr ⟨st, w₁, _, rfl, ⟨.refl _ _, rfl, rfl, rfl, rfl, id, le_rfl⟩,
          .append (w := w₁) (c := c) chunk (w.wall.headD 0) hst hc
            (Spares.set (b := c ++ chunk) (Or.inr rfl) (Fs.node_ne_dir_of_read hc))
            (by rw [Fs.read_eq_some, Fs.node_set, if_pos rfl]),
          (UploadState.fed st chunk (w.wall.headD 0)).info.bytesReceived, ?_⟩
        simp only [append, Prog.exec_bind, Prog.exec_get, hst, hfin, Bool.false_eq_true, if_false,
          Prog.exec_mapError, happend, Except.mapError, wallNow, Prog.exec_ofFun, Prog.exec_modify,
          Prog.exec_attempt, Prog.exec_pure]
        rfl
      · have happend := exec_onFs_error he
        refine Or.inl ⟨.io e, Or.inr ?_⟩
        simp only [append, Prog.exec_bind, Prog.exec_get, hst, hfin, Bool.false_eq_true, if_false,
          Prog.exec_mapError, happend, Except.mapError]
        rfl

theorem append_along (ha : Kind.ambient ∈ K) (hs : Kind.session ∈ K) (session : Str)
    (chunk : Bytes) : Moves (Along S repo K) (append repo session chunk) := by
  intro w
  rcases exec_append w repo session chunk with ⟨e, he | he⟩ | ⟨st, w₁, w₂, -, hamb, heff, n, he⟩
  · rw [he]
    exact (Along S repo K).refl w
  · rw [he]
    exact (Ambient.fail w).along ha
  · rw [he]
    exact (Along S repo K).trans (hamb.along ha)
      ((Along S repo K).trans (heff.along hs) (writeMetaFor_along ha repo session n w₂))

/-- The id that `create_session` draws in a world. -/
def World.drawn (w : World S) : Str := newSessionId (w.wall.headD 0) S.pid

theorem notMem_drawn (w : World S) : '/' ∉ w.drawn := slash_notMem_newSessionId _ _

/-- Creating a session: nothing happens but scratch changes, or the new session has an empty data
file and a fresh hasher, or a step after the creation of the data file failed. -/
theorem exec_createSession (w : World S) (repo : Str) :
    ∃ r w₁ w₂, Ambient w w₁ ∧ (createSession repo).exec w = (r, w₂) ∧
      (w₂ = w₁ ∨
        (∃ info fs', Spares {dataPath S.root repo w.drawn} w₁.fs fs' ∧
          fs'.read (dataPath S.root repo w.drawn) = some [] ∧
          w₂ = { w₁ with
            fs := fs'
            sessions := w₁.sessions.insert (repo, w.drawn)
              ⟨info, S.hash.new, dataPath S.root repo w.drawn, false⟩ }) ∨
        ∃ fs', Spares {dataPath S.root repo w.drawn} w₁.fs fs' ∧
          w₂ = { w₁ with fs := fs', log := { w₁.log with ioFailed := true } }) := by
  have hwall : (wallNow : Prog (World S) UploadError Nat).exec w =
      (.ok (w.wall.headD 0), { w with wall := w.wall.tail }) := rfl
  have hdirs := createDirAll_spares (uploadsDir S.root repo) w.fs
  cases hc : (Fs.createDirAll (uploadsDir S.root repo)).exec w.fs with
  | mk r₁ fs₁ =>
    rw [hc] at hdirs
    let w₁ : World S := { w with wall := w.wall.tail, fs := fs₁ }
    have hw₁ : Ambient w w₁ := ⟨hdirs, rfl, rfl, rfl, rfl, id, le_rfl⟩
    cases r₁ with
    | error e =>
      refine ⟨_, w₁.failed, _, hw₁.trans (.fail w₁), (Prog.exec_bind_ok hwall).trans
        (Prog.exec_bind_error (exec_mapError_error (exec_onFs_error hc))), Or.inl rfl⟩
    | ok u =>
      have hmkdir : (createSession repo).exec w = _ := (Prog.exec_bind_ok hwall).trans
        (Prog.exec_bind_ok (exec_mapError_ok (exec_onFs_ok hc)))
      rw [hmkdir]
      rcases Fs.exec_writeFile (dataPath S.root repo w.drawn) [] fs₁ with ⟨hdir, -, he⟩ | ⟨e, he⟩
      · let fs₂ := fs₁.set (dataPath S.root repo w.drawn) (.file [])
        have hfs₂ : Spares {dataPath S.root repo w.drawn} fs₁ fs₂ :=
          Spares.set (Or.inr rfl) (Fs.node_ne_dir_of_isDir hdir)
        have hread₂ : fs₂.read (dataPath S.root repo w.drawn) = some [] := by
          rw [Fs.read_eq_some, Fs.node_set, if_pos rfl]
        let info : UploadMeta := ⟨w.drawn, repo, 0, w₁.wall.headD 0, w₁.wall.headD 0⟩
        let w₃ : World S := { w₁ with wall := w₁.wall.tail }
        have hw₃ : Ambient w w₃ := hw₁.trans ⟨.refl _ _, rfl, rfl, rfl, rfl, id, le_rfl⟩
        have hwrite : ((onFs (Fs.writeFile (dataPath S.root repo w.drawn) [])).mapError .io :
            Prog (World S) UploadError Unit).exec w₁ = (.ok (), { w₁ with fs := fs₂ }) :=
          exec_mapError_ok (exec_onFs_ok he)
        have hwall₃ : (wallNow : Prog (World S) UploadError Nat).exec { w₁ with fs := fs₂ } =
            (.ok (w₁.wall.headD 0), { w₃ with fs := fs₂ }) := rfl
        have hmeta := writeAtomic_spares (scratch_metaTmpPath S.root repo w.drawn)
          (scratch_metaPath S.root repo w.drawn) (S.serde.uploadMetaToVec info) fs₂
        cases hm : (Fs.writeAtomic (metaTmpPath S.root repo w.drawn) (metaPath S.root repo w.drawn)
            (S.serde.uploadMetaToVec info)).exec fs₂ with
        | mk r₃ fs₃ =>
          rw [hm] at hmeta
          have hfs₃ : Spares {dataPath S.root repo w.drawn} fs₁ fs₃ :=
            hfs₂.trans (hmeta.mono (Set.empty_subset _))
          cases r₃ with
          | error e =>
            have hrec : (writeMeta repo info).exec { w₃ with fs := fs₂ } = (.error (.io e),
                { w₃ with fs := fs₃, log := { w₃.log with ioFailed := true } }) :=
              exec_mapError_error (exec_onFs_error hm)
            refine ⟨_, w₃, _, hw₃, (Prog.exec_bind_ok hwrite).trans
              ((Prog.exec_bind_ok hwall₃).trans (Prog.exec_bind_error hrec)), ?_⟩
            exact Or.inr (Or.inr ⟨fs₃, hfs₃, rfl⟩)
          | ok u =>
            have hrec : (writeMeta repo info).exec { w₃ with fs := fs₂ } =
                (.ok (), { w₃ with fs := fs₃ }) := exec_mapError_ok (exec_onFs_ok hm)
            refine ⟨_, w₃, _, hw₃, (Prog.exec_bind_ok hwrite).trans
              ((Prog.exec_bind_ok hwall₃).trans (Prog.exec_bind_ok hrec)), ?_⟩
            refine Or.inr (Or.inl ⟨info, fs₃, hfs₃, ?_, rfl⟩)
            rw [hmeta.read (dataPath_not_scratch _ _ _) (Set.notMem_empty _)]
            exact hread₂
      · have hwrite : ((onFs (Fs.writeFile (dataPath S.root repo w.drawn) [])).mapError .io :
            Prog (World S) UploadError Unit).exec w₁ = (.error (.io e), w₁.failed) :=
          exec_mapError_error (exec_onFs_error he)
        exact ⟨_, w₁.failed, _, hw₁.trans (.fail w₁), Prog.exec_bind_error hwrite, Or.inl rfl⟩

theorem createSession_along (ha : Kind.ambient ∈ K) (hc : Kind.create ∈ K) :
    Moves (Along S repo K) (createSession repo) := by
  intro w
  obtain ⟨r, w₁, w₂, hamb, he, h⟩ := exec_createSession w repo
  rw [he]
  refine (Along S repo K).trans (hamb.along ha) ?_
  rcases h with rfl | ⟨info, fs', hfs, hfile, rfl⟩ | ⟨fs', hfs, rfl⟩
  · exact (Along S repo K).refl _
  · exact (Effect.create _ info hfs hfile (notMem_drawn w)).along hc
  · exact (Effect.spoil _ hfs).along hc

/-- Committing a session: an error without more than scratch changes, or the data file has become
the blob and the session has ended. -/
theorem commit_along (ha : Kind.ambient ∈ K) (hs : Kind.session ∈ K) (session : Str) (d : Digest) :
    Moves (Along S repo K) (commit repo session d) := by
  intro w
  refine Moves.rel_bind ((Along S repo K).refl w) fun w' w₀ hget => ?_
  cases hget
  cases hst : w.sessions.lookup (repo, session) with
  | none => exact (Along S repo K).refl w
  | some st =>
    simp only
    split
    · exact (Along S repo K).refl w
    · split
      · exact (Along S repo K).refl w
      · rename_i hhash
        have hhash : S.hash.finalize st.hasher = d.hex := not_not.mp hhash
        have hamb := onFs_ambient (createDirAll_spares (blobPath S.root repo d).tail) w
        refine Moves.rel_bind (hamb.along ha) fun _ w₁ hmk => ?_
        have hw₁ : w₁ = ((onFs (Fs.createDirAll (blobPath S.root repo d).tail) :
            Prog (World S) IoKind Unit).exec w).2 := (congrArg Prod.snd hmk).symm
        have hst₁ : w₁.sessions.lookup (repo, session) = some st := by
          rw [hw₁, hamb.sessions, hst]
        rcases exec_promote w₁ st.dataPath (blobPath S.root repo d) with
          ⟨b, hb, hdir, he⟩ | ⟨e, he⟩
        · rw [Prog.exec_bind_ok (exec_mapError_ok he)]
          have hfs : Spares {st.dataPath, blobPath S.root repo d} w₁.fs
              ((w₁.fs.del st.dataPath).set (blobPath S.root repo d) (.file b)) :=
            Spares.rename (Or.inr (Or.inl rfl)) (Or.inr (Or.inr rfl)) hb hdir
          refine (Along S repo K).trans ((Effect.commit d hst₁ hhash hb hfs ?_).along hs) ?_
          · rw [Fs.read_eq_some, Fs.node_set, if_pos rfl]
          · -- the record of the session is removed before the session is forgotten
            have hmeta := probeFs_ambient
              (removeFile_spares (scratch_metaPath S.root repo session)) { w₁ with
                fs := (w₁.fs.del st.dataPath).set (blobPath S.root repo d) (.file b)
                log := { w₁.log with stored := w₁.log.stored ++ [b] } }
            exact (hmeta.with_sessions fun m => m.erase (repo, session)).along ha
        · rw [Prog.exec_bind_error (exec_mapError_error he)]
          exact (Ambient.fail w₁).along ha

theorem finalize_along (ha : Kind.ambient ∈ K) (hs : Kind.session ∈ K) (session : Str)
    (lastChunk : Option Bytes) (d : Digest) :
    Moves (Along S repo K) (finalize repo session lastChunk d) := by
  cases lastChunk with
  | none => exact commit_along ha hs session d
  | some chunk =>
    unfold finalize
    refine Moves.of_ite (fun _ => commit_along ha hs session d) fun _ => ?_
    exact (append_along ha hs session chunk).seq fun _ => commit_along ha hs session d

theorem abort_along (ha : Kind.ambient ∈ K) (hs : Kind.session ∈ K) (session : Str) :
    Moves (Along S repo K) (abort repo session) := by
  have hmeta : Moves (Along S repo K) ((do
      let _ ← (probeFs (Fs.removeFile (metaPath S.root repo session))).attempt
      return ()) : Prog (World S) UploadError Unit) :=
    ((probeFs_along ha (removeFile_spares (scratch_metaPath _ _ _))).of_attempt).seq
      fun _ => Moves.of_pure _
  intro w
  refine Moves.rel_bind ((Along S repo K).refl w) fun w' w₀ hget => ?_
  cases hget
  cases hst : w.sessions.lookup (repo, session) with
  | none => exact hmeta w
  | some st =>
    let w₁ : World S := { w with sessions := w.sessions.erase (repo, session) }
    have hmod : (modify fun w => { w with sessions := w.sessions.erase (repo, session) } :
        Prog (World S) UploadError PUnit).exec w = (.ok ⟨⟩, w₁) := rfl
    simp only
    rw [Prog.exec_bind_ok hmod]
    rcases Fs.exec_removeFile st.dataPath w.fs with ⟨b, hb, he⟩ | ⟨-, e, he, -⟩
    · have hrm : ((probeFs (Fs.removeFile st.dataPath)).attempt :
          Prog (World S) UploadError _).exec w₁ =
            (.ok (.ok ()), { w₁ with fs := w.fs.del st.dataPath }) := by
        rw [Prog.exec_attempt, exec_probeFs_ok (w := w₁) he]
      rw [Prog.exec_bind_ok hrm]
      have hfs : Spares {st.dataPath} w.fs (w.fs.del st.dataPath) :=
        Spares.del (Or.inr rfl) (Fs.node_ne_dir_of_read hb)
      exact (Along S repo K).trans ((Effect.abandon hst hfs).along hs) (hmeta _)
    · have hrm : ((probeFs (Fs.removeFile st.dataPath)).attempt :
          Prog (World S) UploadError _).exec w₁ = (.ok (.error e), w₁.probed e) := by
        rw [Prog.exec_attempt, exec_probeFs_error (w := w₁) he]
        rfl
      rw [Prog.exec_bind_ok hrm]
      exact (Along S repo K).trans ((Effect.abandon hst (.refl _ _)).along hs)
        ((Along S repo K).trans ((Ambient.probe w₁ e).along ha) (hmeta _))

/-! ## Fetches -/

theorem scratch_tempfilePath (root : Path) (r : Str) (d : Digest) :
    Scratch (PullThrough.tempfilePath root r d) := by
  refine scratch_of_no_dot (List.mem_append_left _ (by decide)) ?_
  intro h
  rcases List.mem_append.mp h with h | h
  · revert h
    decide
  · exact (ne_of_isLowerHex (d.hex.property.2 _ h)).1 rfl

/-- Receiving a stream only touches the temporary file, which afterwards holds what the hasher was
fed. -/
theorem exec_receive {tempfile : Path} (htemp : Scratch tempfile) (stream : List (Option Bytes))
    {hasher : S.hash.State} {c : Bytes} (w : World S) (hread : w.fs.read tempfile = some c)
    (hfed : S.hash.Fed hasher c) :
    ∃ r w', (PullThrough.receive tempfile stream hasher (tally c)).exec w = (r, w') ∧ Ambient w w' ∧
      ∀ x, r = .ok x → ∃ c', w'.fs.read tempfile = some c' ∧ S.hash.Fed x.1 c' ∧ x.2 = tally c' := by
  induction stream generalizing hasher c w with
  | nil =>
    refine ⟨_, _, rfl, .rfl, fun x hx => ?_⟩
    cases hx
    exact ⟨c, hread, hfed, rfl⟩
  | cons item stream ih =>
    cases item with
    | none => exact ⟨_, _, rfl, .rfl, fun x hx => by cases hx⟩
    | some chunk =>
      rcases Fs.exec_appendFile tempfile chunk w.fs with ⟨c', hc', he⟩ | ⟨hno, -⟩
      · rw [hread] at hc'
        cases hc'
        have hfs : Spares ∅ w.fs (w.fs.set tempfile (.file (c ++ chunk))) :=
          Spares.set (Or.inl htemp) (Fs.node_ne_dir_of_read hread)
        obtain ⟨r, w', hrun, hamb, hpost⟩ := ih
          { w with fs := w.fs.set tempfile (.file (c ++ chunk)) }
          (by rw [Fs.read_eq_some, Fs.node_set, if_pos rfl]) (hfed.update chunk)
        refine ⟨r, w', ?_, (ambient_of_spares hfs w.log.ioFailed id).trans hamb, hpost⟩
        rw [← saturatingAdd_tally] at hrun
        exact (Prog.exec_bind_ok (exec_mapError_ok (exec_onFs_ok he))).trans hrun
      · rw [hread] at hno
        cases hno

/-- The part of a fetch that can publish. It reports the length of what it published. -/
theorem produce_along (repo : Str) (ha : Kind.ambient ∈ K) (hp : Kind.publish ∈ K) (d : Digest)
    {tempfile : Path} (htemp : Scratch tempfile) (stream : List (Option Bytes)) {w : World S}
    (hread : w.fs.read tempfile = some []) :
    (Along S repo K).rel w
      ((PullThrough.produce d tempfile (blobPath S.root repo d) stream).exec w).2 ∧
    ∀ n w', (PullThrough.produce d tempfile (blobPath S.root repo d) stream).exec w = (.ok n, w') →
      ∃ c, w'.fs.read (blobPath S.root repo d) = some c ∧ n = tally c := by
  obtain ⟨r, w₁, hrecv, hamb₁, hpost⟩ := exec_receive htemp stream w hread S.hash.fed_new
  cases r with
  | error e =>
    have hrun : (PullThrough.produce d tempfile (blobPath S.root repo d) stream).exec w = _ :=
      Prog.exec_bind_error hrecv
    rw [hrun]
    exact ⟨hamb₁.along ha, fun n w' h => by cases h⟩
  | ok x =>
    obtain ⟨c, hc, hfed, htotal⟩ := hpost x rfl
    have hrun : (PullThrough.produce d tempfile (blobPath S.root repo d) stream).exec w = _ :=
      Prog.exec_bind_ok hrecv
    rw [hrun]
    simp only
    split
    · exact ⟨hamb₁.along ha, fun n w' h => by cases h⟩
    · rename_i hhash
      have hhash : S.hash.hex c = d.hex := by
        rw [← hfed.finalize]
        exact not_not.mp hhash
      have hdirs := Fs.createDirAll_grows (blobPath S.root repo d).tail w₁.fs
      have hspare := createDirAll_spares (blobPath S.root repo d).tail w₁.fs
      cases hmk : (Fs.createDirAll (blobPath S.root repo d).tail).exec w₁.fs with
      | mk r₂ fs₂ =>
        rw [hmk] at hdirs hspare
        cases r₂ with
        | error e =>
          rw [Prog.exec_bind_error (exec_mapError_error (exec_onFs_error hmk))]
          exact ⟨(hamb₁.trans (ambient_of_spares hspare true fun _ => rfl)).along ha,
            fun n w' h => by cases h⟩
        | ok u =>
          rw [Prog.exec_bind_ok (exec_mapError_ok (exec_onFs_ok hmk))]
          have hamb₂ : Ambient w { w₁ with fs := fs₂ } :=
            hamb₁.trans (ambient_of_spares hspare w₁.log.ioFailed id)
          have hc₂ : fs₂.read tempfile = some c := by rw [Fs.growsDirs_read hdirs, hc]
          rcases exec_promote { w₁ with fs := fs₂ } tempfile (blobPath S.root repo d) with
            ⟨b, hb, hdir, he⟩ | ⟨e, he⟩
          · rw [hc₂] at hb
            cases hb
            rw [Prog.exec_bind_ok (exec_mapError_ok he)]
            have hfs : Spares {blobPath S.root repo d} fs₂
                ((fs₂.del tempfile).set (blobPath S.root repo d) (.file c)) :=
              Spares.rename (Or.inl htemp) (Or.inr rfl) hc₂ hdir
            have hfile : ((fs₂.del tempfile).set (blobPath S.root repo d) (.file c)).read
                (blobPath S.root repo d) = some c := by
              rw [Fs.read_eq_some, Fs.node_set, if_pos rfl]
            refine ⟨(Along S repo K).trans (hamb₂.along ha)
              ((Effect.publish d c hhash hfs hfile).along hp), fun n w' h => ?_⟩
            cases h
            exact ⟨c, hfile, htotal⟩
          · rw [Prog.exec_bind_error (exec_mapError_error he)]
            exact ⟨(hamb₂.trans (.fail _)).along ha, fun n w' h => by cases h⟩

theorem runProducer_along (repo : Str) (ha : Kind.ambient ∈ K) (hp : Kind.publish ∈ K) (d : Digest)
    {tempfile : Path} (htemp : Scratch tempfile) (stream : List (Option Bytes)) (w : World S) :
    (Along S repo K).rel w
      ((PullThrough.runProducer d tempfile (blobPath S.root repo d) stream).exec w).2 ∧
    ∀ n w', (PullThrough.runProducer d tempfile (blobPath S.root repo d) stream).exec w =
      (.ok n, w') → ∃ c, w'.fs.read (blobPath S.root repo d) = some c ∧ n = tally c := by
  have hdirs := createDirAll_spares tempfile.tail w.fs
  cases hmk : (Fs.createDirAll tempfile.tail).exec w.fs with
  | mk r₁ fs₁ =>
    rw [hmk] at hdirs
    cases r₁ with
    | error e =>
      have hrun : (PullThrough.runProducer d tempfile (blobPath S.root repo d) stream).exec w = _ :=
        Prog.exec_bind_error (exec_mapError_error (exec_onFs_error hmk))
      rw [hrun]
      exact ⟨(ambient_of_spares hdirs true fun _ => rfl).along ha, fun n w' h => by cases h⟩
    | ok u =>
      have hrun : (PullThrough.runProducer d tempfile (blobPath S.root repo d) stream).exec w = _ :=
        Prog.exec_bind_ok (exec_mapError_ok (exec_onFs_ok hmk))
      rw [hrun]
      have hamb₁ : Ambient w { w with fs := fs₁ } := ambient_of_spares hdirs w.log.ioFailed id
      rcases Fs.exec_writeFile tempfile [] fs₁ with ⟨hdir, -, he⟩ | ⟨e, he⟩
      · rw [Prog.exec_bind_ok (exec_mapError_ok (exec_onFs_ok he))]
        let w₂ : World S := { w with fs := fs₁.set tempfile (.file []) }
        have hspare : Spares ∅ fs₁ (fs₁.set tempfile (.file [])) :=
          Spares.set (Or.inl htemp) (Fs.node_ne_dir_of_isDir hdir)
        have hamb₂ : Ambient w w₂ := hamb₁.trans (ambient_of_spares hspare w.log.ioFailed id)
        have hread : w₂.fs.read tempfile = some [] := by
          rw [Fs.read_eq_some, Fs.node_set, if_pos rfl]
        obtain ⟨halong, hfile⟩ := produce_along repo ha hp d htemp stream hread
        have htotal := (Along S repo K).trans (hamb₂.along ha) halong
        cases hprod : (PullThrough.produce d tempfile (blobPath S.root repo d) stream).exec w₂ with
        | mk r w₃ =>
          rw [hprod] at htotal
          have hattempt : ((PullThrough.produce d tempfile (blobPath S.root repo d) stream).attempt :
              Prog (World S) PullThrough.PullThroughError _).exec w₂ = (.ok r, w₃) := by
            rw [Prog.exec_attempt, hprod]
          rw [Prog.exec_bind_ok hattempt]
          cases r with
          | ok n =>
            refine ⟨htotal, fun m w' h => ?_⟩
            cases h
            exact hfile n w₃ hprod
          | error e =>
            have hrm := probeFs_ambient (removeFile_spares htemp) w₃
            exact ⟨(Along S repo K).trans htotal (hrm.along ha), fun m w' h => by cases h⟩
      · rw [Prog.exec_bind_error (exec_mapError_error (exec_onFs_error he))]
        exact ⟨(hamb₁.trans (.fail _)).along ha, fun n w' h => by cases h⟩

end Quill
