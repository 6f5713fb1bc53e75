import Quill.Base.Runs
import Quill.Files.Disk
import Quill.Storage.Codec
import Quill.Storage.Operations

/-!
# Names drawn from the clock

Any number of `put_blob_buffered` and `create_session` calls take turns, at the steps between which
another call may run. A call draws a name from a reading of the wall clock, creates the file of
that name, which empties one that is there, and writes through the handle it got. A write may
take several steps, and a call may stop after any of them. The directories and the metadata
files of the sessions are left out; a session that is finalized or aborted leaves the map, and its
data file leaves its path.

The names differ exactly when the readings differ modulo `2 ^ 64` (`tempPath_eq_iff`,
`dataPath_eq_iff`), so one reading that repeats gives a name that is in use
(`repeated_reading_breaks_blob`). Where every draw differs from the readings
behind the names in use in the same directory (`FreshDraw`), no name is given
twice and every blob has its digest (`fresh_draws_are_unique`).
-/

namespace Quill.TempNames

open Text Files Cas World LocalStorage Uploads

/-! ## The steps -/

/-- The next step of a call; `nanos` is the reading its name comes from. -/
inductive Phase where
  | place (repo : Str) (d : Digest) (b : Bytes)
  | openTemp (repo : Str) (nanos : Nat) (d : Digest) (b : Bytes)
  | write (repo : Str) (nanos : Nat) (d : Digest) (file : Nat) (done rest : Bytes)
  | rename (repo : Str) (nanos : Nat) (d : Digest)
  | draw (repo : Str)
  | touch (repo : Str) (nanos : Nat)
  | insert (repo : Str) (nanos : Nat)
  | stored (repo : Str) (d : Digest)
  | created (repo session : Str)
  | failed
  deriving DecidableEq

/-- What the calls share: the files and the sessions. -/
structure Shared (S : Setup) where
  disk : Disk Path
  sessions : AList fun _ : Str × Str => UploadState S.hash

section Steps

variable {S : Setup}

/-- The temporary file that a reading gives in a repository. -/
def tempPath (S : Setup) (x : Str × Nat) : Path :=
  tmpName (mix (x.2 % u64) S.pid) :: uploadsDir S.root x.1

/-- The data file of the session that a reading gives in a repository. -/
def sessionPath (S : Setup) (x : Str × Nat) : Path :=
  dataPath S.root x.1 (newSessionId x.2 S.pid)

/-- One step of a call. A draw takes the reading, a write takes up to `size + 1` bytes. -/
def advance (reading size : Nat) (m : Shared S) : Phase → Option (Shared S × Phase)
  | .place repo d b => some (m, .openTemp repo reading d b)
  | .openTemp repo nanos d b =>
    let path := tempPath S (repo, nanos)
    some ({ m with disk := m.disk.create path }, .write repo nanos d (m.disk.created path) [] b)
  | .write repo nanos d file done rest =>
    if rest.isEmpty then some (m, .rename repo nanos d)
    else
      let piece := rest.take (size + 1)
      some ({ m with disk := m.disk.writeAt file done.length piece },
        .write repo nanos d file (done ++ piece) (rest.drop (size + 1)))
  | .rename repo nanos d =>
    match m.disk.rename (tempPath S (repo, nanos)) (blobPath S.root repo d) with
    | some disk => some ({ m with disk := disk }, .stored repo d)
    | none => some (m, .failed)
  | .draw repo => some (m, .touch repo reading)
  | .touch repo nanos =>
    some ({ m with disk := m.disk.create (sessionPath S (repo, nanos)) }, .insert repo nanos)
  | .insert repo nanos =>
    let session := newSessionId nanos S.pid
    let info : UploadMeta := ⟨session, repo, 0, reading, reading⟩
    let st : UploadState S.hash := ⟨info, S.hash.new, dataPath S.root repo session, false⟩
    some ({ m with sessions := m.sessions.insert (repo, session) st }, .created repo session)
  | .stored .. | .created .. | .failed => none

/-- A call that has not returned stops. -/
def stop (m : Shared S) : Phase → Option (Shared S × Phase)
  | .stored .. | .created .. | .failed => none
  | _ => some (m, .failed)

/-- A call comes, takes its next step or stops, or a session is used. -/
inductive Act where
  | putBlobBuffered (repo : Str) (d : Digest) (b : Bytes)
  | createSession (repo : Str)
  | turn (i reading size : Nat)
  | stop (i : Nat)
  | append (repo session : Str) (chunk : Bytes) (now : Nat)
  | close (repo session : Str)

/-- An `append` that runs alone. -/
def appendTo (m : Shared S) (key : Str × Str) (st : UploadState S.hash) (chunk : Bytes) (now : Nat) :
    Shared S :=
  match m.disk.entry st.dataPath with
  | none => m
  | some file =>
    ⟨m.disk.append file chunk, m.sessions.insert key (UploadState.fed st chunk now)⟩

/-- One step of the server. -/
def step (s : Pool (Shared S) Phase) : Act → Option (Pool (Shared S) Phase)
  | .putBlobBuffered repo d b =>
    some (s.spawn (if S.hash.hex b ≠ d.hex then .failed else .place repo d b))
  | .createSession repo => some (s.spawn (.draw repo))
  | .turn i reading size => s.turn (advance reading size) i
  | .stop i => s.turn TempNames.stop i
  | .append repo session chunk now =>
    (s.memory.sessions.lookup (repo, session)).map fun st =>
      { s with memory := appendTo s.memory (repo, session) st chunk now }
  | .close repo session =>
    (s.memory.sessions.lookup (repo, session)).map fun st =>
      { s with memory := ⟨s.memory.disk.remove st.dataPath, s.memory.sessions.erase (repo, session)⟩ }

end Steps

/-! ## Names -/

section Names

variable {S : Setup} {x y : Str × Nat}

theorem tempPath_eq_iff : tempPath S x = tempPath S y ↔
    uploadsDir S.root x.1 = uploadsDir S.root y.1 ∧ x.2 % u64 = y.2 % u64 := by
  constructor
  · intro h
    obtain ⟨hname, hdir⟩ := List.cons.inj h
    exact ⟨hdir, tmpName_mix_injective hname⟩
  · rintro ⟨hdir, hreading⟩
    unfold tempPath
    rw [hdir, hreading]

theorem newSessionId_congr {m n : Nat} (h : m % u64 = n % u64) :
    newSessionId m S.pid = newSessionId n S.pid := by
  unfold newSessionId
  rw [h]

theorem validName_session (nanos pid : Nat) : ValidName (newSessionId nanos pid ++ ".data".toList) := by
  apply validName_of_length
  · simp
  · intro h
    rcases List.mem_append.mp h with h | h
    · exact slash_notMem_newSessionId nanos pid h
    · revert h
      decide

theorem dataPath_eq_iff : sessionPath S x = sessionPath S y ↔
    uploadsDir S.root x.1 = uploadsDir S.root y.1 ∧ x.2 % u64 = y.2 % u64 := by
  unfold sessionPath dataPath
  rw [join_name _ (validName_session _ _), join_name _ (validName_session _ _)]
  constructor
  · intro h
    obtain ⟨hname, hdir⟩ := List.cons.inj h
    have hid := List.append_cancel_right (congrArg Subtype.val hname)
    exact ⟨hdir, newSessionId_injective hid⟩
  · rintro ⟨hdir, hreading⟩
    simp only [hdir, newSessionId_congr hreading]

theorem tempPath_ne_blobPath (x : Str × Nat) (repo : Str) (d : Digest) :
    tempPath S x ≠ blobPath S.root repo d := by
  intro h
  exact (scratch_tmpName _ _).1 (h ▸ isBlobName_blobPath S.root repo d)

theorem tempPath_ne_dataPath (x : Str × Nat) (repo session : Str) :
    tempPath S x ≠ dataPath S.root repo session := by
  intro h
  exact (scratch_tmpName _ _).2.1 (h ▸ isDataName_dataPath S.root repo session)

theorem blobPath_ne_dataPath (repo : Str) (d : Digest) (repo' session : Str) :
    blobPath S.root repo d ≠ dataPath S.root repo' session := by
  intro h
  exact not_isDataName_of_isBlobName (isBlobName_blobPath S.root repo d)
    (h ▸ isDataName_dataPath S.root repo' session)

end Names

/-! ## A call alone -/

section Alone

variable {S : Setup} {repo : Str} {d : Digest} {b : Bytes}

/-- A buffered put that succeeds leaves the blob and no temporary file. -/
theorem read_putBlobBuffered {w w' : World S} {entry : BlobMeta}
    (h : (putBlobBuffered repo d b).exec w = (.ok entry, w')) (q : Path) : w'.fs.read q =
      if q = blobPath S.root repo d then some b
      else if q = tempPath S (repo, w.wall.headD 0) then none else w.fs.read q := by
  obtain ⟨fs₁, fs₂, hdirs, hmk, hwrite, -⟩ := exec_putBlobBuffered_eq_ok h
  have hfirst := Fs.growsDirs_read ((Fs.createDirAll_grows _).rel_of_exec hdirs) q
  have hsecond := Fs.growsDirs_read ((Fs.createDirAll_grows _).rel_of_exec hmk) q
  have hne := tempPath_ne_blobPath (S := S) (repo, w.wall.headD 0) repo d
  rcases Fs.exec_writeAtomic hne b fs₂ with ⟨e, he⟩ | ⟨-, e, he⟩ | ⟨-, -, fs', he, hnode⟩
  · cases he.symm.trans hwrite
  · cases he.symm.trans hwrite
  · obtain ⟨-, rfl⟩ := Prod.mk.inj (he.symm.trans hwrite)
    rw [← hfirst, ← hsecond]
    unfold Fs.read
    rw [hnode q]
    by_cases hblob : q = blobPath S.root repo d
    · rw [if_pos hblob, if_pos hblob]
    · by_cases htemp : q = tempPath S (repo, w.wall.headD 0)
      · rw [if_neg hblob, if_neg hblob, if_pos htemp, if_pos htemp]
      · rw [if_neg hblob, if_neg hblob, if_neg htemp, if_neg htemp]

/-- The rename of a written temporary file. -/
theorem look_stored {m : Shared S} {nanos file : Nat}
    (h : m.disk.look (tempPath S (repo, nanos)) = some (file, b)) (n : Nat) (q : Path) :
    ((Pool.alone (advance nanos b.length) (n + 1) m (.rename repo nanos d)).disk.look q).map
        Prod.snd =
      if q = blobPath S.root repo d then some b
      else if q = tempPath S (repo, nanos) then none else (m.disk.look q).map Prod.snd := by
  cases hrename : m.disk.rename (tempPath S (repo, nanos)) (blobPath S.root repo d) with
  | none =>
    rw [Disk.rename_eq_none, (Disk.look_eq_some.mp h).1] at hrename
    cases hrename
  | some disk =>
    have hstep : advance nanos b.length m (.rename repo nanos d) =
        some ({ m with disk := disk }, .stored repo d) := by
      simp only [advance, hrename]
    obtain ⟨htarget, hsource, helse⟩ :=
      Disk.look_rename hrename (tempPath_ne_blobPath (repo, nanos) repo d)
    rw [Pool.alone_succ hstep, Pool.alone_done rfl]
    show (disk.look q).map Prod.snd = _
    by_cases hblob : q = blobPath S.root repo d
    · rw [if_pos hblob, hblob, htarget, h]
      rfl
    · by_cases htemp : q = tempPath S (repo, nanos)
      · rw [if_neg hblob, if_pos htemp, htemp, hsource]
        rfl
      · rw [if_neg hblob, if_neg htemp, helse q htemp hblob]

/-- `put_blob_buffered` alone does to the files what the sequential one does. -/
theorem putBlobBuffered_alone {w w' : World S} {entry : BlobMeta}
    (h : (putBlobBuffered repo d b).exec w = (.ok entry, w')) {m : Shared S}
    (hm : ∀ q, w.fs.read q = (m.disk.look q).map Prod.snd) (q : Path) :
    w'.fs.read q =
      ((Pool.alone (advance (w.wall.headD 0) b.length) 5 m (.place repo d b)).disk.look q).map
        Prod.snd := by
  rw [read_putBlobBuffered h q]
  obtain ⟨nanos, hnanos⟩ : ∃ nanos, nanos = w.wall.headD 0 := ⟨_, rfl⟩
  rw [← hnanos]
  let path := tempPath S (repo, nanos)
  let opened : Shared S := { m with disk := m.disk.create path }
  have hopened : opened.disk.look path = some (m.disk.created path, []) := m.disk.look_create_self path
  have hothers : ∀ q, q ≠ path → opened.disk.look q = m.disk.look q :=
    fun q hq => m.disk.look_create hq
  -- a draw and the creation of the file
  have hplace : advance nanos b.length m (.place repo d b) = some (m, .openTemp repo nanos d b) := rfl
  have hopen : advance nanos b.length m (.openTemp repo nanos d b) =
      some (opened, .write repo nanos d (m.disk.created path) [] b) := rfl
  rw [Pool.alone_succ hplace, Pool.alone_succ hopen]
  by_cases hempty : b = []
  · subst hempty
    have hwrite : advance nanos 0 opened (.write repo nanos d (m.disk.created path) [] []) =
        some (opened, .rename repo nanos d) := rfl
    rw [List.length_nil, Pool.alone_succ hwrite]
    have hstored := look_stored (d := d) hopened 1 q
    rw [List.length_nil] at hstored
    rw [hstored]
    by_cases hpath : q = path
    · rw [if_pos hpath, if_pos hpath]
    · rw [if_neg hpath, if_neg hpath, hothers q hpath, hm q]
  · let written : Shared S :=
      { m with disk := opened.disk.writeAt (m.disk.created path) 0 (b.take (b.length + 1)) }
    have hall : b.take (b.length + 1) = b := List.take_of_length_le (Nat.le_succ _)
    have hwrite : advance nanos b.length opened (.write repo nanos d (m.disk.created path) [] b) =
        some (written, .write repo nanos d (m.disk.created path) ([] ++ b.take (b.length + 1))
          (b.drop (b.length + 1))) := by
      simp only [advance, List.isEmpty_iff, hempty, if_false]
      rfl
    have hdone : advance nanos b.length written (.write repo nanos d (m.disk.created path)
        ([] ++ b.take (b.length + 1)) (b.drop (b.length + 1))) =
          some (written, .rename repo nanos d) := by
      simp [advance, List.drop_of_length_le (Nat.le_succ b.length)]
    rw [Pool.alone_succ hwrite, Pool.alone_succ hdone]
    have hlook : written.disk.look path = some (m.disk.created path, b) := by
      have hend := Disk.look_writeAt_end hopened (b.take (b.length + 1))
      have hbytes : [] ++ b.take (b.length + 1) = b := hall
      rw [hbytes] at hend
      exact hend
    rw [look_stored hlook 0 q]
    by_cases hpath : q = path
    · rw [if_pos hpath, if_pos hpath]
    · have hsame : written.disk.look q = m.disk.look q :=
        (Disk.look_writeAt (Disk.look_eq_some.mp hopened).1 _ _ hpath).trans (hothers q hpath)
      rw [if_neg hpath, if_neg hpath, hsame, hm q]

end Alone

/-! ## Fresh draws -/

section Fresh

variable {S : Setup}

/-- The repository and the reading of the temporary file that a call works on. -/
def Phase.temp : Phase → Option (Str × Nat)
  | .openTemp repo nanos _ _ => some (repo, nanos)
  | .write repo nanos _ _ _ _ => some (repo, nanos)
  | .rename repo nanos _ => some (repo, nanos)
  | _ => none

/-- The repository and the reading of the session that a call creates. -/
def Phase.creation : Phase → Option (Str × Nat)
  | .touch repo nanos => some (repo, nanos)
  | .insert repo nanos => some (repo, nanos)
  | _ => none

/-- The temporary file that a call has drawn. -/
def tempOf (S : Setup) (p : Phase) : Option Path := p.temp.map (tempPath S)

/-- The data file that a creation has drawn. -/
def sessionOf (S : Setup) (p : Phase) : Option Path := p.creation.map (sessionPath S)

/-- In one directory, different readings. -/
def Apart (S : Setup) (x y : Str × Nat) : Prop :=
  uploadsDir S.root x.1 = uploadsDir S.root y.1 → x.2 % u64 ≠ y.2 % u64

instance (x y : Str × Nat) : Decidable (Apart S x y) := by
  unfold Apart
  infer_instance

/-- The reading of a draw differs from those of the calls in progress, and for a session from those
of the live sessions. -/
def FreshFor (s : Pool (Shared S) Phase) (reading : Nat) : Phase → Prop
  | .place repo _ _ => ∀ p ∈ s.tasks, ∀ x ∈ p.temp, Apart S x (repo, reading)
  | .draw repo => (∀ p ∈ s.tasks, ∀ x ∈ p.creation, Apart S x (repo, reading)) ∧
      ∀ key ∈ s.memory.sessions.keys, ∀ nanos, key.2 = newSessionId nanos S.pid →
        Apart S (key.1, nanos) (repo, reading)
  | _ => True

/-- A draw gives a name that no call in progress and no session has. -/
def FreshDraw (s : Pool (Shared S) Phase) : Act → Prop
  | .turn i reading _ =>
    match s.tasks[i]? with
    | some p => FreshFor s reading p
    | none => True
  | _ => True

/-- A live session comes from another reading when its id is another one. -/
theorem apart_iff_id (key : Str × Str) (repo : Str) (reading : Nat) :
    (∀ nanos, key.2 = newSessionId nanos S.pid → Apart S (key.1, nanos) (repo, reading)) ↔
      (uploadsDir S.root key.1 = uploadsDir S.root repo → key.2 ≠ newSessionId reading S.pid) := by
  constructor
  · intro h hdir hid
    exact h reading hid hdir rfl
  · intro h nanos hid hdir hreading
    exact h hdir (hid.trans (newSessionId_congr hreading))

instance (s : Pool (Shared S) Phase) (reading : Nat) (p : Phase) : Decidable (FreshFor s reading p) :=
  match p with
  | .place repo _ _ => inferInstanceAs
      (Decidable (∀ p ∈ s.tasks, ∀ x ∈ p.temp, Apart S x (repo, reading)))
  | .draw repo => decidable_of_iff ((∀ p ∈ s.tasks, ∀ x ∈ p.creation, Apart S x (repo, reading)) ∧
      ∀ key ∈ s.memory.sessions.keys, uploadsDir S.root key.1 = uploadsDir S.root repo →
        key.2 ≠ newSessionId reading S.pid) (by simp only [FreshFor, apart_iff_id])
  | .openTemp .. | .write .. | .rename .. | .touch .. | .insert .. | .stored .. | .created ..
  | .failed => .isTrue trivial

instance : DecidableRel (FreshDraw : Pool (Shared S) Phase → Act → Prop) := fun s a =>
  match a with
  | .turn i reading _ =>
    match h : s.tasks[i]? with
    | some p => decidable_of_iff (FreshFor s reading p) (by simp [FreshDraw, h])
    | none => .isTrue (by simp [FreshDraw, h])
  | .putBlobBuffered .. | .createSession .. | .stop .. | .append .. | .close .. => .isTrue trivial

end Fresh

/-! ## The invariant -/

section Invariant

variable {S : Setup} {m m' : Shared S} {before after : List Phase} {p p' : Phase}

/-- The bytes of a call have its digest, and its temporary file holds what it has written. -/
def Ready (m : Shared S) : Phase → Prop
  | .place _ d b => S.hash.hex b = d.hex
  | .openTemp _ _ d b => S.hash.hex b = d.hex
  | .write repo nanos d file done rest =>
    m.disk.look (tempPath S (repo, nanos)) = some (file, done) ∧ S.hash.hex (done ++ rest) = d.hex
  | .rename repo nanos d =>
    ∃ file b, m.disk.look (tempPath S (repo, nanos)) = some (file, b) ∧ S.hash.hex b = d.hex
  | _ => True

/-- Every blob has the digest that it is named by. -/
def BlobsHaveDigests (m : Shared S) : Prop := ∀ repo d file b,
  m.disk.look (blobPath S.root repo d) = some (file, b) → S.hash.hex b = d.hex

/-- Calls in progress and live sessions have files of their own, and blobs have their digests. -/
structure Sound (m : Shared S) (tasks : List Phase) : Prop where
  temps : (tasks.filterMap (tempOf S)).Nodup
  creations : (tasks.filterMap (sessionOf S)).Nodup
  ready : ∀ p ∈ tasks, Ready m p
  blobs : BlobsHaveDigests m
  drawn : ∀ key st, m.sessions.lookup key = some st →
    (∃ nanos, key.2 = newSessionId nanos S.pid) ∧ st.dataPath = dataPath S.root key.1 key.2
  apart : ∀ key st, m.sessions.lookup key = some st → ∀ p ∈ tasks, sessionOf S p ≠ some st.dataPath

theorem Ready.congr {q : Phase} (h : Ready m q) (hlook : ∀ t, tempOf S q = some t →
    m'.disk.look t = m.disk.look t) : Ready m' q := by
  cases q with
  | write repo nanos d file done rest =>
    have hsame : _ = m.disk.look (tempPath S (repo, nanos)) := hlook _ rfl
    exact ⟨hsame.trans h.1, h.2⟩
  | rename repo nanos d =>
    obtain ⟨file, b, hfile, hhex⟩ := h
    have hsame : _ = m.disk.look (tempPath S (repo, nanos)) := hlook _ rfl
    exact ⟨file, b, hsame.trans hfile, hhex⟩
  | place => exact h
  | openTemp => exact h
  | draw | touch | insert | stored | created | failed => trivial

namespace Sound

/-- A call advances and the sessions are as before. -/
theorem replace {disk : Disk Path} (h : Sound m (before ++ p :: after))
    (htemp : ∀ t, tempOf S p' = some t → tempOf S p = some t ∨
      t ∉ (before ++ p :: after).filterMap (tempOf S))
    (hcreation : ∀ t, sessionOf S p' = some t → sessionOf S p = some t ∨
      t ∉ (before ++ p :: after).filterMap (sessionOf S) ∧
        ∀ key st, m.sessions.lookup key = some st → t ≠ st.dataPath)
    (hothers : ∀ q ∈ before ++ after, ∀ t, tempOf S q = some t → disk.look t = m.disk.look t)
    (hready : Ready { m with disk := disk } p') (hblobs : BlobsHaveDigests { m with disk := disk }) :
    Sound { m with disk := disk } (before ++ p' :: after) := by
  refine ⟨Pool.nodup_replace h.temps htemp, Pool.nodup_replace h.creations fun t ht => ?_, ?_, hblobs,
    h.drawn, ?_⟩
  · exact (hcreation t ht).imp id And.left
  · intro q hq
    rcases Pool.mem_replace hq with rfl | ⟨hother, hold⟩
    · exact hready
    · exact (h.ready q hold).congr (hothers q hother)
  · intro key st hst q hq
    rcases Pool.mem_replace hq with rfl | ⟨-, hold⟩
    · intro heq
      rcases hcreation _ heq with hkeep | ⟨-, hfree⟩
      · exact h.apart key st hst p (by simp) hkeep
      · exact hfree key st hst rfl
    · exact h.apart key st hst q hold

/-- A call moves on without a new name and without a change. -/
theorem quiet (h : Sound m (before ++ p :: after))
    (htemp : ∀ t, tempOf S p' = some t → tempOf S p = some t)
    (hcreation : ∀ t, sessionOf S p' = some t → sessionOf S p = some t) (hready : Ready m p') :
    Sound m (before ++ p' :: after) :=
  h.replace (fun t ht => Or.inl (htemp t ht)) (fun t ht => Or.inl (hcreation t ht))
    (fun _ _ _ _ => rfl) hready h.blobs

/-- The temporary files of the other calls are other files. -/
theorem others (h : Sound m (before ++ p :: after)) {x : Path} (hp : tempOf S p = some x) {q : Phase}
    (hq : q ∈ before ++ after) {t : Path} (ht : tempOf S q = some t) : t ≠ x := by
  intro heq
  exact Pool.others_without h.temps hp hq (heq ▸ ht)

/-- A draw gives a name that no call works on. -/
theorem place {repo : Str} {d : Digest} {b : Bytes} {reading : Nat}
    (h : Sound m (before ++ .place repo d b :: after))
    (hfresh : FreshFor ⟨m, before ++ .place repo d b :: after⟩ reading (.place repo d b)) :
    Sound m (before ++ .openTemp repo reading d b :: after) := by
  have hready : Ready m (.place repo d b) := h.ready _ (by simp)
  refine h.replace (fun t ht => Or.inr ?_) nofun (fun _ _ _ _ => rfl) hready h.blobs
  intro hmem
  obtain ⟨q, hq, hqt⟩ := List.mem_filterMap.mp hmem
  obtain ⟨x, hx, rfl⟩ := Option.map_eq_some_iff.mp hqt
  obtain ⟨hdir, hreading⟩ := tempPath_eq_iff.mp (Option.some.inj ht).symm
  exact hfresh q hq x hx hdir hreading

theorem openTemp {repo : Str} {nanos : Nat} {d : Digest} {b : Bytes}
    (h : Sound m (before ++ .openTemp repo nanos d b :: after)) :
    Sound { m with disk := m.disk.create (tempPath S (repo, nanos)) } (before ++
      .write repo nanos d (m.disk.created (tempPath S (repo, nanos))) [] b :: after) := by
  have hready : Ready m (.openTemp repo nanos d b) := h.ready _ (by simp)
  apply h.replace
  · intro t ht
    exact Or.inl ht
  · intro t ht
    cases ht
  · intro q hq t ht
    exact m.disk.look_create (h.others rfl hq ht)
  · exact ⟨m.disk.look_create_self _, hready⟩
  · intro repo' d' file b' hlook
    rw [Disk.look_create _ (tempPath_ne_blobPath _ repo' d').symm] at hlook
    exact h.blobs repo' d' file b' hlook

theorem write {repo : Str} {nanos file : Nat} {d : Digest} {done rest : Bytes}
    (h : Sound m (before ++ .write repo nanos d file done rest :: after)) (n : Nat) :
    Sound { m with disk := m.disk.writeAt file done.length (rest.take n) }
      (before ++ .write repo nanos d file (done ++ rest.take n) (rest.drop n) :: after) := by
  have hready : Ready m (.write repo nanos d file done rest) := h.ready _ (by simp)
  obtain ⟨hlook, hhex⟩ := hready
  have hentry := (Disk.look_eq_some.mp hlook).1
  apply h.replace
  · intro t ht
    exact Or.inl ht
  · intro t ht
    cases ht
  · intro q hq t ht
    exact Disk.look_writeAt hentry _ _ (h.others rfl hq ht)
  · refine ⟨Disk.look_writeAt_end hlook _, ?_⟩
    rw [List.append_assoc, List.take_append_drop]
    exact hhex
  · intro repo' d' f b' hblob
    rw [Disk.look_writeAt hentry _ _ (tempPath_ne_blobPath _ repo' d').symm] at hblob
    exact h.blobs repo' d' f b' hblob

/-- The call renames the file that it wrote. -/
theorem rename {repo : Str} {nanos : Nat} {d : Digest} {disk : Disk Path}
    (h : Sound m (before ++ .rename repo nanos d :: after))
    (hrename : m.disk.rename (tempPath S (repo, nanos)) (blobPath S.root repo d) = some disk) :
    Sound { m with disk := disk } (before ++ .stored repo d :: after) := by
  have hready : Ready m (.rename repo nanos d) := h.ready _ (by simp)
  obtain ⟨file, b, hlook, hhex⟩ := hready
  obtain ⟨htarget, -, helse⟩ := Disk.look_rename hrename (tempPath_ne_blobPath (repo, nanos) repo d)
  apply h.replace
  · intro t ht
    cases ht
  · intro t ht
    cases ht
  · intro q hq t ht
    apply helse t (h.others rfl hq ht)
    obtain ⟨x, -, rfl⟩ := Option.map_eq_some_iff.mp ht
    exact tempPath_ne_blobPath x repo d
  · trivial
  · intro repo' d' f b' hblob
    by_cases hpath : blobPath S.root repo' d' = blobPath S.root repo d
    · rw [hpath, htarget, hlook] at hblob
      cases hblob
      rw [hexName_injective (List.cons.inj hpath).1]
      exact hhex
    · rw [helse _ (tempPath_ne_blobPath _ repo' d').symm hpath] at hblob
      exact h.blobs repo' d' f b' hblob

/-- A draw gives an id that no call and no live session has. -/
theorem draw {repo : Str} {reading : Nat} (h : Sound m (before ++ .draw repo :: after))
    (hfresh : FreshFor ⟨m, before ++ .draw repo :: after⟩ reading (.draw repo)) :
    Sound m (before ++ .touch repo reading :: after) := by
  obtain ⟨hcalls, hlive⟩ := hfresh
  refine h.replace nofun (fun t ht => Or.inr ⟨?_, ?_⟩) (fun _ _ _ _ => rfl) trivial h.blobs
  · intro hmem
    obtain ⟨q, hq, hqt⟩ := List.mem_filterMap.mp hmem
    obtain ⟨x, hx, rfl⟩ := Option.map_eq_some_iff.mp hqt
    obtain ⟨hdir, hreading⟩ := dataPath_eq_iff.mp (Option.some.inj ht).symm
    exact hcalls q hq x hx hdir hreading
  · intro key st hst heq
    obtain ⟨⟨nanos, hid⟩, hpath⟩ := h.drawn key st hst
    have hsame : sessionPath S (key.1, nanos) = sessionPath S (repo, reading) := by
      rw [← Option.some.inj ht] at heq
      rw [heq, hpath, hid]
      rfl
    obtain ⟨hdir, hreading⟩ := dataPath_eq_iff.mp hsame
    exact hlive key (AList.lookup_isSome.mp (by rw [hst]; rfl)) nanos hid hdir hreading

theorem touch {repo : Str} {nanos : Nat} (h : Sound m (before ++ .touch repo nanos :: after)) :
    Sound { m with disk := m.disk.create (sessionPath S (repo, nanos)) }
      (before ++ .insert repo nanos :: after) := by
  apply h.replace
  · intro t ht
    cases ht
  · intro t ht
    exact Or.inl ht
  · intro q hq t ht
    obtain ⟨x, -, rfl⟩ := Option.map_eq_some_iff.mp ht
    exact m.disk.look_create (tempPath_ne_dataPath x _ _)
  · trivial
  · intro repo' d' file b hlook
    have hne : blobPath S.root repo' d' ≠ sessionPath S (repo, nanos) :=
      blobPath_ne_dataPath _ _ _ _
    rw [Disk.look_create _ hne] at hlook
    exact h.blobs repo' d' file b hlook

/-- The id that a call returns is not live. -/
theorem lookup_insert {repo : Str} {nanos : Nat}
    (h : Sound m (before ++ .insert repo nanos :: after)) :
    m.sessions.lookup (repo, newSessionId nanos S.pid) = none := by
  cases hst : m.sessions.lookup (repo, newSessionId nanos S.pid) with
  | none => rfl
  | some st =>
    have hpath := (h.drawn _ st hst).2
    have hapart := h.apart _ st hst (.insert repo nanos) (by simp)
    rw [hpath] at hapart
    exact absurd rfl hapart

theorem insert {repo : Str} {nanos : Nat} {st : UploadState S.hash}
    (h : Sound m (before ++ .insert repo nanos :: after))
    (hpath : st.dataPath = sessionPath S (repo, nanos)) :
    Sound { m with sessions := m.sessions.insert (repo, newSessionId nanos S.pid) st }
      (before ++ .created repo (newSessionId nanos S.pid) :: after) := by
  have hquiet : Sound m (before ++ .created repo (newSessionId nanos S.pid) :: after) :=
    h.quiet nofun nofun trivial
  refine ⟨hquiet.temps, hquiet.creations, fun q hq => (hquiet.ready q hq).congr fun _ _ => rfl,
    hquiet.blobs, ?_, ?_⟩
  · intro key st' hst'
    by_cases hkey : key = (repo, newSessionId nanos S.pid)
    · subst hkey
      rw [AList.lookup_insert] at hst'
      cases hst'
      exact ⟨⟨nanos, rfl⟩, hpath⟩
    · rw [AList.lookup_insert_ne hkey] at hst'
      exact h.drawn key st' hst'
  · intro key st' hst' q hq
    by_cases hkey : key = (repo, newSessionId nanos S.pid)
    · subst hkey
      rw [AList.lookup_insert] at hst'
      cases hst'
      rw [hpath]
      rcases Pool.mem_replace (p := .insert repo nanos) hq with rfl | ⟨hother, -⟩
      · exact nofun
      · exact Pool.others_without h.creations rfl hother
    · rw [AList.lookup_insert_ne hkey] at hst'
      exact hquiet.apart key st' hst' q hq

/-- One step of a call. -/
theorem advance {reading size : Nat} (h : Sound m (before ++ p :: after))
    (hfresh : FreshFor ⟨m, before ++ p :: after⟩ reading p)
    (hadv : TempNames.advance reading size m p = some (m', p')) : Sound m' (before ++ p' :: after) := by
  cases p with
  | place repo d b =>
    cases hadv
    exact h.place hfresh
  | openTemp repo nanos d b =>
    cases hadv
    exact h.openTemp
  | write repo nanos d file done rest =>
    simp only [TempNames.advance] at hadv
    split at hadv
    · rename_i hrest
      cases hadv
      have hready : Ready m (.write repo nanos d file done rest) := h.ready _ (by simp)
      obtain ⟨hlook, hhex⟩ := hready
      rw [List.isEmpty_iff.mp hrest, List.append_nil] at hhex
      exact h.quiet (fun _ ht => ht) nofun ⟨file, done, hlook, hhex⟩
    · cases hadv
      exact h.write (size + 1)
  | rename repo nanos d =>
    simp only [TempNames.advance] at hadv
    split at hadv
    · rename_i hrename
      cases hadv
      exact h.rename hrename
    · cases hadv
      exact h.quiet nofun nofun trivial
  | draw repo =>
    cases hadv
    exact h.draw hfresh
  | touch repo nanos =>
    cases hadv
    exact h.touch
  | insert repo nanos =>
    cases hadv
    apply h.insert
    simp only [sessionPath]
  | stored | created | failed => cases hadv

theorem stop (h : Sound m (before ++ p :: after)) (hstop : TempNames.stop m p = some (m', p')) :
    Sound m' (before ++ p' :: after) := by
  unfold TempNames.stop at hstop
  split at hstop
  · cases hstop
  · cases hstop
  · cases hstop
  · cases hstop
    exact h.quiet nofun nofun trivial

/-- A new call has no name yet. -/
theorem call {tasks : List Phase} (h : Sound m tasks) (hready : Ready m p) (htemp : p.temp = none)
    (hcreation : p.creation = none) : Sound m (tasks ++ [p]) := by
  have htemps : [p].filterMap (tempOf S) = [] := by simp [tempOf, htemp]
  have hcreations : [p].filterMap (sessionOf S) = [] := by simp [sessionOf, hcreation]
  refine ⟨?_, ?_, fun q hq => ?_, h.blobs, h.drawn, fun key st hst q hq => ?_⟩
  · rw [List.filterMap_append, htemps, List.append_nil]
    exact h.temps
  · rw [List.filterMap_append, hcreations, List.append_nil]
    exact h.creations
  · rcases List.mem_append.mp hq with hq | hq
    · exact h.ready q hq
    · rw [List.mem_singleton.mp hq]
      exact hready
  · rcases List.mem_append.mp hq with hq | hq
    · exact h.apart key st hst q hq
    · rw [List.mem_singleton.mp hq, sessionOf, hcreation]
      exact nofun

/-- The files of temporary names and of blobs are as before, and no session is new. -/
theorem sessions {tasks : List Phase} (h : Sound m tasks)
    (htemps : ∀ x, m'.disk.look (tempPath S x) = m.disk.look (tempPath S x))
    (hblobs : ∀ repo d, m'.disk.look (blobPath S.root repo d) = m.disk.look (blobPath S.root repo d))
    (hlive : ∀ key st, m'.sessions.lookup key = some st →
      ∃ old, m.sessions.lookup key = some old ∧ st.dataPath = old.dataPath) : Sound m' tasks := by
  refine ⟨h.temps, h.creations, fun q hq => (h.ready q hq).congr fun t ht => ?_,
    fun repo d file b hlook => ?_, fun key st hst => ?_, fun key st hst => ?_⟩
  · obtain ⟨x, -, rfl⟩ := Option.map_eq_some_iff.mp ht
    exact htemps x
  · rw [hblobs] at hlook
    exact h.blobs repo d file b hlook
  · obtain ⟨old, hold, hpath⟩ := hlive key st hst
    rw [hpath]
    exact h.drawn key old hold
  · obtain ⟨old, hold, hpath⟩ := hlive key st hst
    rw [hpath]
    exact h.apart key old hold

theorem append {tasks : List Phase} {key : Str × Str} {st : UploadState S.hash} (h : Sound m tasks)
    (hst : m.sessions.lookup key = some st) (chunk : Bytes) (now : Nat) :
    Sound (appendTo m key st chunk now) tasks := by
  have hpath := (h.drawn key st hst).2
  unfold appendTo
  split
  · exact h
  · rename_i file hfile
    apply h.sessions
    · intro x
      apply Disk.look_append hfile
      rw [hpath]
      exact tempPath_ne_dataPath x _ _
    · intro repo d
      apply Disk.look_append hfile
      rw [hpath]
      exact blobPath_ne_dataPath repo d _ _
    · intro key' st' hst'
      by_cases hkey : key' = key
      · subst hkey
        rw [AList.lookup_insert] at hst'
        cases hst'
        exact ⟨st, hst, rfl⟩
      · rw [AList.lookup_insert_ne hkey] at hst'
        exact ⟨st', hst', rfl⟩

theorem close {tasks : List Phase} {key : Str × Str} {st : UploadState S.hash} (h : Sound m tasks)
    (hst : m.sessions.lookup key = some st) :
    Sound ⟨m.disk.remove st.dataPath, m.sessions.erase key⟩ tasks := by
  have hpath := (h.drawn key st hst).2
  apply h.sessions
  · intro x
    apply Disk.look_remove
    rw [hpath]
    exact tempPath_ne_dataPath x _ _
  · intro repo d
    apply Disk.look_remove
    rw [hpath]
    exact blobPath_ne_dataPath repo d _ _
  · intro key' st' hst'
    by_cases hkey : key' = key
    · subst hkey
      rw [AList.lookup_erase] at hst'
      cases hst'
    · rw [AList.lookup_erase_ne hkey] at hst'
      exact ⟨st', hst', rfl⟩

end Sound

theorem sound_step {s t : Pool (Shared S) Phase} {a : Act} (h : Sound s.memory s.tasks)
    (hfresh : FreshDraw s a) (hstep : step s a = some t) : Sound t.memory t.tasks := by
  cases a with
  | putBlobBuffered repo d b =>
    cases hstep
    by_cases hhex : S.hash.hex b = d.hex
    · rw [if_neg (not_not.mpr hhex)]
      exact h.call hhex rfl rfl
    · rw [if_pos hhex]
      exact h.call trivial rfl rfl
  | createSession repo =>
    cases hstep
    exact h.call trivial rfl rfl
  | turn i reading size =>
    obtain ⟨before, p, after, m, p', hget, htasks, hadv, rfl⟩ := Pool.turn_cases hstep
    have hp : FreshFor s reading p := by simpa [FreshDraw, hget] using hfresh
    have hs : s = ⟨s.memory, before ++ p :: after⟩ := by rw [← htasks]
    rw [hs] at hp
    rw [htasks] at h
    exact h.advance hp hadv
  | stop i =>
    obtain ⟨before, p, after, m, p', -, htasks, hstop, rfl⟩ := Pool.turn_cases hstep
    rw [htasks] at h
    exact h.stop hstop
  | append repo session chunk now =>
    obtain ⟨st, hst, rfl⟩ := Option.map_eq_some_iff.mp hstep
    exact h.append hst chunk now
  | close repo session =>
    obtain ⟨st, hst, rfl⟩ := Option.map_eq_some_iff.mp hstep
    exact h.close hst

end Invariant

/-! ## Runs of fresh draws -/

section Runs

variable {S : Setup}

/-- A process that has just started, on a store whose blobs have their digests. -/
structure Started (s : Pool (Shared S) Phase) : Prop where
  calls : s.tasks = []
  sessions : s.memory.sessions = ∅
  blobs : BlobsHaveDigests s.memory

theorem Started.sound {s : Pool (Shared S) Phase} (h : Started s) : Sound s.memory s.tasks := by
  have hnone : ∀ key, s.memory.sessions.lookup key = none := by
    intro key
    rw [h.sessions]
    rfl
  refine ⟨by simp [h.calls], by simp [h.calls], by simp [h.calls], h.blobs, fun key st hst => ?_,
    by simp [h.calls]⟩
  rw [hnone] at hst
  cases hst

theorem sound_run {s₀ s : Pool (Shared S) Phase} (hstart : Started s₀)
    (hrun : (runs step FreshDraw).rel s₀ s) : Sound s.memory s.tasks := by
  refine Evolution.star_keep (I := fun s : Pool (Shared S) Phase => Sound s.memory s.tasks)
    ?_ hrun hstart.sound
  rintro s t ⟨a, hfresh, hstep⟩ h
  exact sound_step h hfresh hstep

/-- A step of a call leaves the live sessions and their files. -/
theorem kept_of_advance {m m' : Shared S} {before after : List Phase} {p p' : Phase}
    {reading size : Nat} (h : Sound m (before ++ p :: after))
    (hadv : advance reading size m p = some (m', p')) {key : Str × Str} {st : UploadState S.hash}
    (hst : m.sessions.lookup key = some st) :
    m'.sessions.lookup key = some st ∧ m'.disk.look st.dataPath = m.disk.look st.dataPath := by
  have hpath := (h.drawn key st hst).2
  have htemp : ∀ x, st.dataPath ≠ tempPath S x := by
    intro x
    rw [hpath]
    exact (tempPath_ne_dataPath x _ _).symm
  have hblob : ∀ repo d, st.dataPath ≠ blobPath S.root repo d := by
    intro repo d
    rw [hpath]
    exact (blobPath_ne_dataPath repo d _ _).symm
  cases p with
  | place repo d b =>
    cases hadv
    exact ⟨hst, rfl⟩
  | openTemp repo nanos d b =>
    cases hadv
    exact ⟨hst, Disk.look_create _ (htemp _)⟩
  | write repo nanos d file done rest =>
    simp only [advance] at hadv
    split at hadv
    · cases hadv
      exact ⟨hst, rfl⟩
    · cases hadv
      have hready : Ready m (.write repo nanos d file done rest) := h.ready _ (by simp)
      exact ⟨hst, Disk.look_writeAt (Disk.look_eq_some.mp hready.1).1 _ _ (htemp _)⟩
  | rename repo nanos d =>
    simp only [advance] at hadv
    split at hadv
    · rename_i hrename
      cases hadv
      obtain ⟨-, -, helse⟩ := Disk.look_rename hrename (tempPath_ne_blobPath (repo, nanos) repo d)
      exact ⟨hst, helse _ (htemp _) (hblob repo d)⟩
    · cases hadv
      exact ⟨hst, rfl⟩
  | draw repo =>
    cases hadv
    exact ⟨hst, rfl⟩
  | touch repo nanos =>
    cases hadv
    refine ⟨hst, Disk.look_create _ ?_⟩
    intro heq
    exact h.apart key st hst (.touch repo nanos) (by simp) (congrArg some heq.symm)
  | insert repo nanos =>
    cases hadv
    refine ⟨?_, rfl⟩
    rw [AList.lookup_insert_ne]
    · exact hst
    · rintro rfl
      rw [h.lookup_insert] at hst
      cases hst
  | stored | created | failed => cases hadv

/-- The id that `create_session` returns was not live. -/
theorem lookup_of_created {m m' : Shared S} {before after : List Phase} {p : Phase}
    {repo session : Str} {reading size : Nat} (h : Sound m (before ++ p :: after))
    (hadv : advance reading size m p = some (m', .created repo session)) :
    m.sessions.lookup (repo, session) = none := by
  cases p with
  | insert repo nanos =>
    cases hadv
    exact h.lookup_insert
  | write repo nanos d file done rest =>
    simp only [advance] at hadv
    split at hadv <;> cases hadv
  | rename repo nanos d =>
    simp only [advance] at hadv
    split at hadv <;> cases hadv
  | place | openTemp | draw | touch | stored | created | failed => cases hadv

/-- In a run of fresh draws, calls in progress have temporary files of their own, no call returns
a live id or changes a live session or its file, and every blob has its digest. -/
theorem fresh_draws_are_unique {s₀ s : Pool (Shared S) Phase} (hstart : Started s₀)
    (hrun : (runs step FreshDraw).rel s₀ s) :
    (s.tasks.filterMap (tempOf S)).Nodup ∧
    (∀ i reading size t, step s (.turn i reading size) = some t →
      (∀ repo session, t.tasks[i]? = some (.created repo session) →
        s.memory.sessions.lookup (repo, session) = none) ∧
      ∀ key st, s.memory.sessions.lookup key = some st →
        t.memory.sessions.lookup key = some st ∧
          t.memory.disk.look st.dataPath = s.memory.disk.look st.dataPath) ∧
    ∀ repo d file b, s.memory.disk.look (blobPath S.root repo d) = some (file, b) →
      S.hash.hex b = d.hex := by
  have hsound := sound_run hstart hrun
  refine ⟨hsound.temps, fun i reading size t hstep => ?_, hsound.blobs⟩
  obtain ⟨p, p', hp, hp', hadv⟩ := Pool.turn_task hstep
  obtain ⟨before, q, after, -, -, hq, htasks, -, -⟩ := Pool.turn_cases hstep
  cases hp.symm.trans hq
  rw [htasks] at hsound
  refine ⟨fun repo session hcreated => ?_, fun key st hst => kept_of_advance hsound hadv hst⟩
  cases hp'.symm.trans hcreated
  exact lookup_of_created hsound hadv

end Runs

/-! ## Readings that repeat -/

def app : Str := "app".toList

/-- The digests of the one-byte blobs `a` and `b`. -/
def first : Digest := Codec.standalone.digest [97]

def second : Digest := Codec.standalone.digest [98]

def booted : Pool (Shared Codec.standalone) Phase := ⟨⟨Disk.empty, ∅⟩, []⟩

theorem started_booted : Started booted := ⟨rfl, rfl, nofun⟩

/-- Two buffered blobs at the given readings; the second creates its file when the first has
written. -/
def twoPuts (r₁ r₂ : Nat) : List Act :=
  [.putBlobBuffered app first [97], .putBlobBuffered app second [98], .turn 0 r₁ 0, .turn 1 r₂ 0,
    .turn 0 0 0, .turn 0 0 0, .turn 1 0 0, .turn 1 0 0, .turn 0 0 0, .turn 0 0 0]

/-- Two sessions at the given readings; the first has received a chunk before the second is
created. -/
def twoSessions (r₁ r₂ : Nat) : List Act :=
  [.createSession app, .turn 2 r₁ 0, .turn 2 0 0, .turn 2 0 0,
    .append app (newSessionId r₁ Codec.standalone.pid) [97] 0, .createSession app, .turn 3 r₂ 0, .turn 3 0 0,
    .turn 3 0 0]

/-- At different readings both blobs and both sessions are in order. -/
theorem different_readings_are_unique : ∃ t, (runs step FreshDraw).rel booted t ∧
    t.memory.disk.look (blobPath Codec.standalone.root app first) = some (0, [97]) ∧
    (∀ repo d file b, t.memory.disk.look (blobPath Codec.standalone.root repo d) = some (file, b) →
      Codec.standalone.hash.hex b = d.hex) := by
  obtain ⟨t, hrun, hblob⟩ := exists_run_of_follow step FreshDraw booted
    (twoPuts 5 6 ++ twoSessions 5 6)
    (fun t => t.memory.disk.look (blobPath Codec.standalone.root app first) = some (0, [97]))
    (by decide +kernel)
  exact ⟨t, hrun, hblob, (fresh_draws_are_unique started_booted hrun).2.2⟩

/-- At one reading the first blob has the bytes of the second, and the second session gets the
id of the first, which is reset and loses its chunk. -/
theorem repeated_reading_breaks_blob : ∃ t, (runs step anyStep).rel booted t ∧
    t.memory.disk.look (blobPath Codec.standalone.root app first) = some (0, [98]) ∧
    Codec.standalone.hash.hex [98] ≠ first.hex ∧
    t.tasks[2]? = some (.created app (newSessionId 5 Codec.standalone.pid)) ∧
    t.tasks[3]? = some (.created app (newSessionId 5 Codec.standalone.pid)) ∧
    (t.memory.sessions.lookup (app, newSessionId 5 Codec.standalone.pid)).map
      (fun st => st.info.bytesReceived) = some 0 ∧
    (t.memory.disk.look (sessionPath Codec.standalone (app, 5))).map Prod.snd = some [] := by
  exact exists_run_of_follow step anyStep booted (twoPuts 5 5 ++ twoSessions 5 5)
    (fun t => t.memory.disk.look (blobPath Codec.standalone.root app first) = some (0, [98]) ∧
      Codec.standalone.hash.hex [98] ≠ first.hex ∧
      t.tasks[2]? = some (.created app (newSessionId 5 Codec.standalone.pid)) ∧
      t.tasks[3]? = some (.created app (newSessionId 5 Codec.standalone.pid)) ∧
      (t.memory.sessions.lookup (app, newSessionId 5 Codec.standalone.pid)).map
        (fun st => st.info.bytesReceived) = some 0 ∧
      (t.memory.disk.look (sessionPath Codec.standalone (app, 5))).map Prod.snd = some [])
    (by decide +kernel)

end Quill.TempNames
