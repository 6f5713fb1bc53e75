import Quill.Base.Runs
import Quill.Storage.Uploads

/-!
# Calls on one upload session, step by step

Any number of `append` and `finalize` calls on one session take turns, at the steps
between which another call may run. The mutex of the session is held within the steps
`check`, `update`, `snapshot` and `mark`, but not from the write of a chunk to the update of the
hasher, nor from the snapshot to the rename. A file that was opened stays the same file
when its path is renamed away.

So the order of the chunks in the file and their order in the hasher may differ
(`overlapping_appends_break_blob`). Where no write falls between another
write and its update or between a snapshot and its rename, and no snapshot between a write and its
update (`Serial`), every committed blob has its digest in all later states
(`serial_calls_commit`).
-/

namespace Quill.Uploads

open Text Files

variable {H : StreamingHash}

/-! ## The steps -/

/-- The calls on one session that can overlap. -/
inductive Call where
  | append (chunk : Bytes)
  | finalize (lastChunk : Option Bytes) (expected : Digest)

/-- What a call returns. -/
inductive Outcome where
  | appended (total : Nat)
  | committed (expected : Digest) (total : Nat)
  | failed (e : UploadError)
  deriving DecidableEq

/-- The next step of a call. A chunk is appended by `append` itself or by the `finalize` of the
digest `next`, which goes on afterwards. -/
inductive Phase where
  | lookup (chunk : Bytes) (next : Option Digest)
  | check (chunk : Bytes) (next : Option Digest)
  | openData (chunk : Bytes) (next : Option Digest)
  | write (chunk : Bytes) (next : Option Digest) (file : Nat)
  | update (chunk : Bytes) (next : Option Digest)
  | find (expected : Digest)
  | snapshot (expected : Digest)
  | rename (expected : Digest) (total : Nat)
  | mark (expected : Digest) (total : Nat)
  | remove (expected : Digest) (total : Nat)
  | returned (o : Outcome)
  deriving DecidableEq

/-- What the calls share. Files are numbered, so that a path can lose its file while
a call still holds it open. -/
structure Shared (H : StreamingHash) where
  contents : Nat → Bytes
  /-- The file at the data path of the session. -/
  data : Option Nat
  /-- The file at `blob_path(repo, d)`. -/
  blobs : Digest → Option Nat
  session : UploadState H
  /-- The map of sessions still holds the session. -/
  live : Bool

/-- The first step of a call. -/
def Call.start : Call → Phase
  | .append chunk => .lookup chunk none
  | .finalize none d => .find d
  | .finalize (some chunk) d => if chunk.isEmpty then .find d else .lookup chunk (some d)

/-- One step of a call at a reading of the wall clock. -/
def advance (now : Nat) (m : Shared H) : Phase → Option (Shared H × Phase)
  | .lookup chunk next =>
    some (m, if m.live then .check chunk next
      else .returned (.failed (.notFound m.session.info.session)))
  | .check chunk next =>
    some (m, if m.session.finalized then .returned (.failed .alreadyFinalized)
      else .openData chunk next)
  | .openData chunk next =>
    match m.data with
    | some file => some (m, .write chunk next file)
    | none => some (m, .returned (.failed (.io .notFound)))
  | .write chunk next file =>
    some ({ m with contents := Function.update m.contents file (m.contents file ++ chunk) },
      .update chunk next)
  | .update chunk next =>
    let session := UploadState.fed m.session chunk now
    some ({ m with session := session },
      match next with
      | none => .returned (.appended session.info.bytesReceived)
      | some d => .find d)
  | .find d =>
    some (m, if m.live then .snapshot d
      else .returned (.failed (.notFound m.session.info.session)))
  | .snapshot d =>
    let hex := H.finalize m.session.hasher
    some (m,
      if m.session.finalized then .returned (.failed .alreadyFinalized)
      else if hex ≠ d.hex then
        .returned (.failed (.digestMismatch d.toStr ("sha256:".toList ++ hex.val)))
      else .rename d m.session.info.bytesReceived)
  | .rename d total =>
    match m.data with
    | some file =>
      some ({ m with data := none, blobs := Function.update m.blobs d (some file) }, .mark d total)
    | none => some (m, .returned (.failed (.io .notFound)))
  | .mark d total =>
    some ({ m with session := { m.session with finalized := true } }, .remove d total)
  | .remove d total => some ({ m with live := false }, .returned (.committed d total))
  | .returned _ => none

/-- A call comes, or takes its next step. -/
inductive Act where
  | call (c : Call)
  | turn (i now : Nat)

/-- One step of the server. -/
def step (s : Pool (Shared H) Phase) : Act → Option (Pool (Shared H) Phase)
  | .call c => some (s.spawn c.start)
  | .turn i now => s.turn (advance now) i

/-- A session as `create_session` leaves it, among any blobs. -/
structure Created (s : Pool (Shared H) Phase) : Prop where
  hasher : s.memory.session.hasher = H.new
  calls : s.tasks = []
  data : ∃ file, s.memory.data = some file ∧ s.memory.contents file = [] ∧
    ∀ d, s.memory.blobs d ≠ some file

/-! ## Serialized calls -/

/-- The chunk that a call has written and not yet hashed. -/
def Phase.pending : Phase → Option Bytes
  | .update chunk _ => some chunk
  | _ => none

/-- The digest that a call has compared and not yet renamed to. -/
def Phase.renames : Phase → Option Digest
  | .rename d _ => some d
  | _ => none

/-- The digest that a call has renamed to. -/
def Phase.stored : Phase → Option Digest
  | .mark d _ => some d
  | .remove d _ => some d
  | .returned (.committed d _) => some d
  | _ => none

/-- The chunks that are in the file and not in the hasher. -/
def pending (calls : List Phase) : List Bytes := calls.filterMap Phase.pending

/-- What a step has to wait for. -/
def SerialStep (m : Shared H) (calls : List Phase) : Phase → Prop
  | .write _ _ file =>
    pending calls = [] ∧ m.data = some file ∧ calls.filterMap Phase.renames = []
  | .snapshot _ => pending calls = []
  | _ => True

/-- A write waits until every written chunk is hashed and every compared digest renamed to, and
finds its file still at the data path. A snapshot waits until every written chunk is
hashed. -/
def Serial (s : Pool (Shared H) Phase) : Act → Prop
  | .call _ => True
  | .turn i _ =>
    match s.tasks[i]? with
    | some p => SerialStep s.memory s.tasks p
    | none => True

instance (m : Shared H) (calls : List Phase) (p : Phase) : Decidable (SerialStep m calls p) :=
  match p with
  | .write _ _ file => inferInstanceAs (Decidable (pending calls = [] ∧
      m.data = some file ∧ calls.filterMap Phase.renames = []))
  | .snapshot _ => inferInstanceAs (Decidable (pending calls = []))
  | .lookup .. | .check .. | .openData .. | .update .. | .find .. | .rename .. | .mark ..
  | .remove .. | .returned .. => .isTrue trivial

instance : DecidableRel (Serial : Pool (Shared H) Phase → Act → Prop) := fun s a =>
  match a with
  | .call _ => .isTrue trivial
  | .turn i _ =>
    match h : s.tasks[i]? with
    | some p => decidable_of_iff (SerialStep s.memory s.tasks p) (by simp [Serial, h])
    | none => .isTrue (by simp [Serial, h])

/-! ## The invariant -/

/-- The file at the data path holds what the hasher was fed and then the pending chunk, no
blob is that file, a compared digest is the digest of the file, and blobs have
their digests. -/
structure Consistent (m : Shared H) (calls : List Phase) : Prop where
  single : (pending calls).length ≤ 1
  hashed : ∃ fed, H.Fed m.session.hasher fed ∧
    ∀ file, m.data = some file → m.contents file = fed ++ (pending calls).flatten
  gone : m.data = none → pending calls = []
  apart : ∀ file, m.data = some file → ∀ d, m.blobs d ≠ some file
  compared : ∀ d ∈ calls.filterMap Phase.renames, pending calls = [] ∧
    ∀ file, m.data = some file → H.hex (m.contents file) = d.hex
  stored : ∀ d ∈ calls.filterMap Phase.stored, ∃ file, m.blobs d = some file ∧
    H.hex (m.contents file) = d.hex

theorem Created.consistent {s : Pool (Shared H) Phase} (h : Created s) :
    Consistent s.memory s.tasks := by
  obtain ⟨file, hfile, hempty, hapart⟩ := h.data
  have hcalls := h.calls
  refine ⟨by simp [pending, hcalls], ⟨[], ?_, fun f hf => ?_⟩, fun hnone => ?_, fun f hf => ?_,
    by simp [hcalls], by simp [hcalls]⟩
  · rw [h.hasher]
    exact H.fed_new
  · rw [hfile] at hf
    cases hf
    simp [hempty, pending, hcalls]
  · rw [hfile] at hnone
    cases hnone
  · rw [hfile] at hf
    cases hf
    exact hapart

namespace Consistent

variable {m m' : Shared H} {before after : List Phase} {p p' : Phase}

/-- Nothing was written, hashed, compared or renamed. -/
theorem transfer {calls calls' : List Phase} (h : Consistent m calls)
    (hcontents : m'.contents = m.contents) (hdata : m'.data = m.data) (hblobs : m'.blobs = m.blobs)
    (hhasher : m'.session.hasher = m.session.hasher) (hpend : pending calls' = pending calls)
    (hren : ∀ d ∈ calls'.filterMap Phase.renames, d ∈ calls.filterMap Phase.renames)
    (hstored : ∀ d ∈ calls'.filterMap Phase.stored, d ∈ calls.filterMap Phase.stored) :
    Consistent m' calls' := by
  refine ⟨?_, ?_, ?_, ?_, fun d hd => ?_, fun d hd => ?_⟩
  · rw [hpend]
    exact h.single
  · rw [hhasher, hdata, hcontents, hpend]
    exact h.hashed
  · rw [hdata, hpend]
    exact h.gone
  · rw [hdata, hblobs]
    exact h.apart
  · rw [hdata, hcontents, hpend]
    exact h.compared d (hren d hd)
  · rw [hblobs, hcontents]
    exact h.stored d (hstored d hd)

/-- A new call has done nothing yet. -/
theorem call {calls : List Phase} (h : Consistent m calls) (c : Call) :
    Consistent m (calls ++ [c.start]) := by
  have hstart : c.start.pending = none ∧ c.start.renames = none ∧ c.start.stored = none := by
    cases c with
    | append chunk => exact ⟨rfl, rfl, rfl⟩
    | finalize last d =>
      cases last with
      | none => exact ⟨rfl, rfl, rfl⟩
      | some chunk => cases hempty : chunk.isEmpty <;> simp [Call.start, hempty, Phase.pending, Phase.renames, Phase.stored]
  obtain ⟨hpend, hren, hstored⟩ := hstart
  apply h.transfer rfl rfl rfl rfl
  · simp [pending, hpend]
  · simp [hren]
  · simp [hstored]

/-- A step that neither writes, hashes, compares nor renames. -/
theorem quiet (h : Consistent m (before ++ p :: after))
    (hcontents : m'.contents = m.contents) (hdata : m'.data = m.data) (hblobs : m'.blobs = m.blobs)
    (hhasher : m'.session.hasher = m.session.hasher) (hp : p.pending = none)
    (hp' : p'.pending = none) (hren : p'.renames = none)
    (hstored : ∀ d, p'.stored = some d → p.stored = some d) :
    Consistent m' (before ++ p' :: after) := by
  apply h.transfer hcontents hdata hblobs hhasher
  · simp [pending, hp, hp']
  · intro d hd
    rcases Pool.mem_filterMap_replace hd with hd | hd
    · rw [hren] at hd
      cases hd
    · exact hd
  · intro d hd
    rcases Pool.mem_filterMap_replace hd with hd | hd
    · exact List.mem_filterMap.mpr ⟨p, by simp, hstored d hd⟩
    · exact hd

theorem pending_replace (hpend : pending (before ++ p :: after) = []) :
    pending (before ++ p' :: after) = p'.pending.toList := by
  simp only [pending, List.filterMap_append, List.append_eq_nil_iff] at hpend ⊢
  obtain ⟨hbefore, hafter⟩ := hpend
  have hafter' : after.filterMap Phase.pending = [] := by
    cases hp : p.pending with
    | none => simpa [List.filterMap_cons, hp] using hafter
    | some b => simp [hp] at hafter
  cases hp' : p'.pending <;> simp [hp', hbefore, hafter']

/-- The chunk goes to the end of the file at the data path. -/
theorem write {chunk : Bytes} {next : Option Digest} {file : Nat}
    (h : Consistent m (before ++ .write chunk next file :: after))
    (hserial : SerialStep m (before ++ .write chunk next file :: after)
      (.write chunk next file)) :
    Consistent
      { m with contents := Function.update m.contents file (m.contents file ++ chunk) }
      (before ++ .update chunk next :: after) := by
  obtain ⟨hnone, hdata, hren⟩ := hserial
  have hpend : pending (before ++ .update chunk next :: after) = [chunk] := pending_replace hnone
  obtain ⟨fed, hfed, hfile⟩ := h.hashed
  refine ⟨?_, ⟨fed, hfed, fun f hf => ?_⟩, fun hgone => ?_, h.apart, fun d hd => ?_, fun d hd => ?_⟩
  · simp [hpend]
  · obtain rfl : file = f := Option.some.inj (hdata.symm.trans hf)
    have hold := hfile file hdata
    rw [hnone] at hold
    simp [hpend, hold]
  · exact absurd hgone (by simp [hdata])
  · rcases Pool.mem_filterMap_replace hd with hd | hd
    · cases hd
    · rw [hren] at hd
      cases hd
  · rcases Pool.mem_filterMap_replace hd with hd | hd
    · cases hd
    · obtain ⟨f, hf, hhex⟩ := h.stored d hd
      have hne : f ≠ file := fun he => h.apart file hdata d (he ▸ hf)
      exact ⟨f, hf, by simpa [Function.update_of_ne hne] using hhex⟩

/-- The hasher is fed the chunk that is pending. -/
theorem update {chunk : Bytes} {next : Option Digest} {now : Nat}
    (h : Consistent m (before ++ .update chunk next :: after))
    (hp' : p'.pending = none) (hren : p'.renames = none) (hstored : p'.stored = none) :
    Consistent { m with session := UploadState.fed m.session chunk now }
      (before ++ p' :: after) := by
  have hold : pending (before ++ .update chunk next :: after) = [chunk] := by
    have hsingle := h.single
    have hmem : chunk ∈ pending (before ++ .update chunk next :: after) :=
      List.mem_filterMap.mpr ⟨.update chunk next, by simp, rfl⟩
    obtain ⟨b, hb⟩ := List.length_eq_one_iff.mp (Nat.le_antisymm hsingle (List.length_pos_of_mem hmem))
    rw [hb] at hmem ⊢
    rw [List.mem_singleton.mp hmem]
  have hnew : pending (before ++ p' :: after) = [] := by
    simp only [pending, List.filterMap_append, List.filterMap_cons, Phase.pending] at hold
    simp only [pending, List.filterMap_append, List.filterMap_cons, hp']
    have hlen := congrArg List.length hold
    simp only [List.length_append, List.length_cons, List.length_nil] at hlen
    apply List.eq_nil_of_length_eq_zero
    simp only [List.length_append]
    omega
  obtain ⟨fed, hfed, hfile⟩ := h.hashed
  refine ⟨?_, ⟨fed ++ chunk, hfed.update chunk, fun f hf => ?_⟩, fun _ => hnew, h.apart,
    fun d hd => ?_, fun d hd => ?_⟩
  · simp [hnew]
  · have hcontents := hfile f hf
    rw [hold] at hcontents
    simpa [hnew] using hcontents
  · rcases Pool.mem_filterMap_replace hd with hd | hd
    · rw [hren] at hd
      cases hd
    · exact ⟨hnew, (h.compared d hd).2⟩
  · rcases Pool.mem_filterMap_replace hd with hd | hd
    · rw [hstored] at hd
      cases hd
    · exact h.stored d hd

/-- A digest that the hasher matches is the digest of the file. -/
theorem snapshot {d : Digest} {total : Nat}
    (h : Consistent m (before ++ .snapshot d :: after))
    (hserial : SerialStep m (before ++ .snapshot d :: after) (.snapshot d))
    (hhex : H.finalize m.session.hasher = d.hex) :
    Consistent m (before ++ .rename d total :: after) := by
  have hnone : pending (before ++ .snapshot d :: after) = [] := hserial
  have hpend : pending (before ++ .rename d total :: after) = [] := pending_replace hnone
  obtain ⟨fed, hfed, hfile⟩ := h.hashed
  refine ⟨by simp [hpend], ⟨fed, hfed, fun f hf => ?_⟩, fun _ => hpend, h.apart, fun d' hd => ?_,
    fun d' hd => ?_⟩
  · rw [hpend, ← hnone]
    exact hfile f hf
  · rcases Pool.mem_filterMap_replace hd with hd | hd
    · cases hd
      refine ⟨hpend, fun f hf => ?_⟩
      have hcontents := hfile f hf
      rw [hnone, List.flatten_nil, List.append_nil] at hcontents
      rw [hcontents, ← hfed.finalize]
      exact hhex
    · exact ⟨hpend, (h.compared d' hd).2⟩
  · rcases Pool.mem_filterMap_replace hd with hd | hd
    · cases hd
    · exact h.stored d' hd

/-- The file of the session becomes the blob that it was compared with. -/
theorem rename {d : Digest} {total file : Nat}
    (h : Consistent m (before ++ .rename d total :: after)) (hdata : m.data = some file) :
    Consistent { m with data := none, blobs := Function.update m.blobs d (some file) }
      (before ++ .mark d total :: after) := by
  obtain ⟨hnone, hhex⟩ := h.compared d (List.mem_filterMap.mpr ⟨.rename d total, by simp, rfl⟩)
  have hpend : pending (before ++ .mark d total :: after) = [] := pending_replace hnone
  have hblob : H.hex (m.contents file) = d.hex := hhex file hdata
  obtain ⟨fed, hfed, -⟩ := h.hashed
  refine ⟨by simp [hpend], ⟨fed, hfed, nofun⟩, fun _ => hpend, nofun, fun d' hd => ⟨hpend, nofun⟩,
    fun d' hd => ?_⟩
  by_cases hd' : d' = d
  · subst hd'
    exact ⟨file, by simp, hblob⟩
  · rcases Pool.mem_filterMap_replace hd with hd | hd
    · exact absurd (Option.some.inj hd).symm hd'
    · obtain ⟨f, hf, hfhex⟩ := h.stored d' hd
      exact ⟨f, by simpa [Function.update_of_ne hd'] using hf, hfhex⟩

/-- A step of one call, where it is serialized. -/
theorem advance {now : Nat} (h : Consistent m (before ++ p :: after))
    (hserial : SerialStep m (before ++ p :: after) p)
    (hadv : Uploads.advance now m p = some (m', p')) : Consistent m' (before ++ p' :: after) := by
  cases p with
  | lookup chunk next =>
    cases hadv
    apply h.quiet rfl rfl rfl rfl rfl <;> split <;> simp [Phase.pending, Phase.renames, Phase.stored]
  | check chunk next =>
    cases hadv
    apply h.quiet rfl rfl rfl rfl rfl <;> split <;> simp [Phase.pending, Phase.renames, Phase.stored]
  | openData chunk next =>
    simp only [Uploads.advance] at hadv
    cases hdata : m.data with
    | some file =>
      rw [hdata] at hadv
      cases hadv
      exact h.quiet rfl rfl rfl rfl rfl rfl rfl nofun
    | none =>
      rw [hdata] at hadv
      cases hadv
      exact h.quiet rfl rfl rfl rfl rfl rfl rfl nofun
  | write chunk next file =>
    cases hadv
    exact h.write hserial
  | update chunk next =>
    cases hadv
    apply h.update <;> cases next <;> rfl
  | find d =>
    cases hadv
    apply h.quiet rfl rfl rfl rfl rfl <;> split <;> simp [Phase.pending, Phase.renames, Phase.stored]
  | snapshot d =>
    cases hadv
    split
    · exact h.quiet rfl rfl rfl rfl rfl rfl rfl nofun
    · split
      · exact h.quiet rfl rfl rfl rfl rfl rfl rfl nofun
      · rename_i hhex
        exact h.snapshot hserial (not_not.mp hhex)
  | rename d total =>
    simp only [Uploads.advance] at hadv
    cases hdata : m.data with
    | some file =>
      rw [hdata] at hadv
      cases hadv
      exact h.rename hdata
    | none =>
      rw [hdata] at hadv
      cases hadv
      exact h.quiet rfl rfl rfl rfl rfl rfl rfl nofun
  | mark d total =>
    cases hadv
    exact h.quiet rfl rfl rfl rfl rfl rfl rfl fun _ he => he
  | remove d total =>
    cases hadv
    exact h.quiet rfl rfl rfl rfl rfl rfl rfl fun _ he => he
  | returned o => cases hadv

end Consistent

theorem consistent_step {s t : Pool (Shared H) Phase} {a : Act}
    (h : Consistent s.memory s.tasks) (hserial : Serial s a) (hstep : step s a = some t) :
    Consistent t.memory t.tasks := by
  cases a with
  | call c =>
    cases hstep
    exact h.call c
  | turn i now =>
    obtain ⟨before, p, after, m, p', hget, htasks, hadv, rfl⟩ := Pool.turn_cases hstep
    have hp : SerialStep s.memory s.tasks p := by simpa [Serial, hget] using hserial
    rw [htasks] at h hp
    exact h.advance hp hadv

/-- In every run of serialized calls, from a new session, a `finalize` that returned `Ok` has its
blob in place with the expected digest. -/
theorem serial_calls_commit {s t : Pool (Shared H) Phase} (hcreated : Created s)
    (hrun : (runs step Serial).rel s t) {d : Digest} {total : Nat}
    (hok : .returned (.committed d total) ∈ t.tasks) :
    ∃ file, t.memory.blobs d = some file ∧ H.hex (t.memory.contents file) = d.hex := by
  have hinv : Consistent t.memory t.tasks := by
    refine Evolution.star_keep (I := fun u : Pool (Shared H) Phase => Consistent u.memory u.tasks)
      ?_ hrun hcreated.consistent
    rintro u v ⟨a, hserial, hstep⟩ hu
    exact consistent_step hu hserial hstep
  exact hinv.stored d (List.mem_filterMap.mpr ⟨_, hok, rfl⟩)

/-- A new session in an empty store. -/
def newSession (H : StreamingHash) : Pool (Shared H) Phase where
  memory :=
    { contents := fun _ => []
      data := some 0
      blobs := fun _ => none
      session := ⟨⟨"s".toList, "a".toList, 0, 0, 0⟩, H.new, [], false⟩
      live := true }
  tasks := []

theorem created_newSession : Created (newSession H) := ⟨rfl, rfl, 0, rfl, rfl, nofun⟩

/-- A `PATCH` with `a` and then a `PUT` with `b`. -/
def oneAfterTheOther : List Act :=
  [.call (.append [97]), .turn 0 0, .turn 0 0, .turn 0 0, .turn 0 0, .turn 0 0,
    .call (.finalize (some [98]) ⟨Sha256.hex [97, 98]⟩), .turn 1 0, .turn 1 0, .turn 1 0, .turn 1 0,
    .turn 1 0, .turn 1 0, .turn 1 0, .turn 1 0, .turn 1 0, .turn 1 0]

theorem serial_calls_commit_two_chunks :
    ∃ t, (runs step Serial).rel (newSession Sha256.streaming) t ∧
      .returned (.committed ⟨Sha256.hex [97, 98]⟩ 2) ∈ t.tasks ∧
      ∃ file, t.memory.blobs ⟨Sha256.hex [97, 98]⟩ = some file ∧
        Sha256.streaming.hex (t.memory.contents file) = Sha256.hex [97, 98] := by
  obtain ⟨t, hrun, hok⟩ := exists_run_of_follow step Serial (newSession Sha256.streaming)
    oneAfterTheOther (fun t => .returned (.committed ⟨Sha256.hex [97, 98]⟩ 2) ∈ t.tasks)
    (by decide +kernel)
  exact ⟨t, hrun, hok, serial_calls_commit created_newSession hrun hok⟩

/-- Two `PATCH` calls write `a` and `b` to the file in this order and feed the hasher in the
other, then a `PUT` of the digest of `ba`. -/
def overlapping : List Act :=
  [.call (.append [97]), .call (.append [98]), .turn 0 0, .turn 0 0, .turn 0 0, .turn 0 0,
    .turn 1 0, .turn 1 0, .turn 1 0, .turn 1 0, .turn 1 0, .turn 0 0,
    .call (.finalize none ⟨Sha256.hex [98, 97]⟩), .turn 2 0, .turn 2 0, .turn 2 0, .turn 2 0,
    .turn 2 0]

theorem overlapping_appends_break_blob :
    ∃ t, (runs step anyStep).rel (newSession Sha256.streaming) t ∧
      .returned (.committed ⟨Sha256.hex [98, 97]⟩ 2) ∈ t.tasks ∧
      ∃ file, t.memory.blobs ⟨Sha256.hex [98, 97]⟩ = some file ∧
        Sha256.streaming.hex (t.memory.contents file) ≠ Sha256.hex [98, 97] := by
  obtain ⟨t, hrun, hok, hblob⟩ := exists_run_of_follow step anyStep
    (newSession Sha256.streaming) overlapping
    (fun t => .returned (.committed ⟨Sha256.hex [98, 97]⟩ 2) ∈ t.tasks ∧
      t.memory.blobs ⟨Sha256.hex [98, 97]⟩ = some 0 ∧
      Sha256.streaming.hex (t.memory.contents 0) ≠ Sha256.hex [98, 97])
    (by decide +kernel)
  exact ⟨t, hrun, hok, 0, hblob⟩

end Quill.Uploads
