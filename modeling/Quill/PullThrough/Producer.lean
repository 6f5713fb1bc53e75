import Quill.Base.Simulation
import Quill.Storage.Codec
import Quill.Storage.Operations

/-!
# A producer and its faults

`run_producer` of `quill-pullthrough` under every pattern of I/O faults. `Faults` says which steps
fail and how far a failing step gets: a failed `write_all` leaves the first bytes of its chunk
in the file, a failed `create_dir_all` the first directories of its path. A step can also
fail because the tree forbids it. A `Run` is the file system together with what the entry
publishes: the high-water marks in the order they were stored, the outcomes that were sent, and
a record of the I/O steps with their success.

`producer_settles` is the contract of the producer; without faults it is the fetch of
`Quill.PullThrough.Fetch` (`runProducer_faultless`).
-/

namespace Quill.PullThrough.Producing

open Text Files Cas World LocalStorage Uploads

/-! ## The program -/

/-- The I/O steps of the producer. -/
inductive IoStep where
  | tempDir
  | create
  | write (i : Nat)
  | flush
  | sync
  | finalDir
  | rename
  | remove
  deriving DecidableEq

/-- The steps that fail; the number says how far a failing step gets. -/
abbrev Faults := IoStep → Option Nat

/-- The files, and what the producer did: its marks, its outcomes, and its steps with whether they
succeeded. -/
structure Run where
  fs : Fs
  marks : List Nat
  outcomes : List ProducerOutcome
  steps : List (IoStep × Bool)

/-- A producer that has done nothing yet. -/
def Run.start (fs : Fs) : Run := ⟨fs, [], [], []⟩

/-- One I/O step; `torn k` is what a fault leaves of it. -/
def io (faults : Faults) (step : IoStep) (op : Prog Fs IoKind Unit) (torn : Nat → Prog Fs IoKind Unit) :
    Prog Run PullThroughError Unit :=
  Prog.ofFun fun r =>
    match faults step with
    | some k =>
      (.error (.io .other), { r with
        fs := ((torn k).exec r.fs).2, steps := r.steps ++ [(step, false)] })
    | none =>
      match op.exec r.fs with
      | (.ok _, fs) => (.ok (), { r with fs := fs, steps := r.steps ++ [(step, true)] })
      | (.error e, fs) => (.error (.io e), { r with fs := fs, steps := r.steps ++ [(step, false)] })

/-- `PullThroughEntry::advance`. -/
def advance (total : Nat) : Prog Run PullThroughError Unit :=
  modify fun r => { r with marks := r.marks ++ [total] }

/-- `PullThroughEntry::finish`. -/
def finish (o : ProducerOutcome) : Prog Run PullThroughError Unit :=
  modify fun r => { r with outcomes := r.outcomes ++ [o] }

section Program

variable (H : StreamingHash) (faults : Faults) (d : Digest) (tempfile finalPath : Path)

/-- The creation of a directory; a fault may leave the last `k` levels out. -/
def createDirAll (step : IoStep) (p : Path) : Prog Run PullThroughError Unit :=
  io faults step (Fs.createDirAll p) fun k => Fs.createDirAll (p.drop k)

/-- The write of a chunk; a fault leaves the first `k` bytes of it. -/
def writeAll (i : Nat) (chunk : Bytes) : Prog Run PullThroughError Unit :=
  io faults (.write i) (Fs.appendFile tempfile chunk) fun k => Fs.appendFile tempfile (chunk.take k)

/-- The loop over the stream. -/
def receive : Nat → List (Option Bytes) → H.State → Nat →
    Prog Run PullThroughError (H.State × Nat)
  | _, [], hasher, total => pure (hasher, total)
  | _, none :: _, _, _ => throw .upstream
  | i, some chunk :: stream, hasher, total => do
    writeAll faults tempfile i chunk
    advance (saturatingAdd total chunk.length)
    receive (i + 1) stream (H.update hasher chunk) (saturatingAdd total chunk.length)

/-- Rename the tempfile into the store. -/
def promoteTempfile (total : Nat) : Prog Run PullThroughError Nat := do
  createDirAll faults .finalDir finalPath.tail
  io faults .rename (Fs.rename tempfile finalPath) fun _ => pure ()
  return total

/-- The rest of the `async` block. -/
def commit (hasher : H.State) (total : Nat) : Prog Run PullThroughError Nat := do
  io faults .flush (pure ()) fun _ => pure ()
  io faults .sync (pure ()) fun _ => pure ()
  let got := H.finalize hasher
  if got ≠ d.hex then
    throw (.digestMismatch d.toStr ("sha256:".toList ++ got.val))
  else promoteTempfile faults tempfile finalPath total

/-- The `async` block. -/
def produce (stream : List (Option Bytes)) : Prog Run PullThroughError Nat := do
  let (hasher, total) ← receive H faults tempfile 0 stream H.new 0
  commit H faults d tempfile finalPath hasher total

/-- Publish an error and return it. -/
def fail (e : PullThroughError) : Prog Run PullThroughError Unit := do
  finish (.failed e)
  throw e

/-- The `match` on the outcome of the block. -/
def settle : Except PullThroughError Nat → Prog Run PullThroughError Unit
  | .ok finalSize => finish (.success finalSize)
  | .error e => do
    let _ ← (io faults .remove (Fs.removeFile tempfile) fun _ => pure ()).attempt
    fail e

/-- `run_producer`. -/
def runProducer (stream : List (Option Bytes)) : Prog Run PullThroughError Unit := do
  match ← (createDirAll faults .tempDir tempfile.tail).attempt with
  | .error e => fail e
  | .ok _ =>
    match ← (io faults .create (Fs.writeFile tempfile []) fun _ => pure ()).attempt with
    | .error e => fail e
    | .ok _ => settle faults tempfile (← (produce H faults d tempfile finalPath stream).attempt)

end Program

/-! ## Steps -/

/-- A step succeeds with its operation, or is recorded as failed. -/
theorem exec_io_cases (faults : Faults) (step : IoStep) (op : Prog Fs IoKind Unit)
    (torn : Nat → Prog Fs IoKind Unit) (r : Run) :
    (∃ fs', op.exec r.fs = (.ok (), fs') ∧ (io faults step op torn).exec r =
      (.ok (), { r with fs := fs', steps := r.steps ++ [(step, true)] })) ∨
    ∃ e fs', ((∃ e', op.exec r.fs = (.error e', fs')) ∨ ∃ k, fs' = ((torn k).exec r.fs).2) ∧
      (io faults step op torn).exec r =
        (.error e, { r with fs := fs', steps := r.steps ++ [(step, false)] }) := by
  unfold io
  simp only [Prog.exec_ofFun]
  cases hfault : faults step with
  | some k => exact Or.inr ⟨_, _, Or.inr ⟨k, rfl⟩, rfl⟩
  | none =>
    rcases hop : op.exec r.fs with ⟨e | u, fs'⟩
    · exact Or.inr ⟨_, fs', Or.inl ⟨e, rfl⟩, rfl⟩
    · exact Or.inl ⟨fs', rfl, rfl⟩

/-- Creating directories leaves all files alone, and all paths that are not above the given
one. -/
theorem exec_createDirAll_cases (faults : Faults) (step : IoStep) (p : Path) (r : Run) :
    ∃ ok fs', Fs.growsDirs.rel r.fs fs' ∧ (∀ q, ¬ q <:+ p → fs'.node q = r.fs.node q) ∧
      ((ok = true ∧ (createDirAll faults step p).exec r =
          (.ok (), { r with fs := fs', steps := r.steps ++ [(step, ok)] })) ∨
        ok = false ∧ ∃ e, (createDirAll faults step p).exec r =
          (.error e, { r with fs := fs', steps := r.steps ++ [(step, ok)] })) := by
  have hgrow : ∀ k, Fs.growsDirs.rel r.fs ((Fs.createDirAll (p.drop k)).exec r.fs).2 :=
    fun k => Fs.createDirAll_grows _ _
  have hnode : ∀ k q, ¬ q <:+ p → ((Fs.createDirAll (p.drop k)).exec r.fs).2.node q = r.fs.node q :=
    fun k q hq => Fs.createDirAll_node (fun h => hq (h.trans (List.drop_suffix k p))) _
  have hop : ∀ {res fs'}, (Fs.createDirAll p).exec r.fs = (res, fs') →
      fs' = ((Fs.createDirAll (p.drop 0)).exec r.fs).2 := by
    intro res fs' h
    rw [List.drop_zero, h]
  rcases exec_io_cases faults step (Fs.createDirAll p) (fun k => Fs.createDirAll (p.drop k)) r with
    ⟨fs', h, hexec⟩ | ⟨e, fs', ⟨e', h⟩ | ⟨k, rfl⟩, hexec⟩
  · obtain rfl := hop h
    exact ⟨true, _, hgrow 0, hnode 0, Or.inl ⟨rfl, hexec⟩⟩
  · obtain rfl := hop h
    exact ⟨false, _, hgrow 0, hnode 0, Or.inr ⟨rfl, e, hexec⟩⟩
  · exact ⟨false, _, hgrow k, hnode k, Or.inr ⟨rfl, e, hexec⟩⟩

/-- Flushing and syncing change no file. -/
theorem exec_settle_cases (faults : Faults) (step : IoStep) (r : Run) :
    (io faults step (pure ()) fun _ => pure ()).exec r =
        (.ok (), { r with steps := r.steps ++ [(step, true)] }) ∨
      ∃ e, (io faults step (pure ()) fun _ => pure ()).exec r =
        (.error e, { r with steps := r.steps ++ [(step, false)] }) := by
  rcases exec_io_cases faults step (pure ()) (fun _ => pure ()) r with
    ⟨fs', h, hexec⟩ | ⟨e, fs', ⟨e', h⟩ | ⟨k, rfl⟩, hexec⟩
  · cases h
    exact Or.inl hexec
  · cases h
  · exact Or.inr ⟨e, hexec⟩

/-! ## High-water marks -/

/-- The counter after each of the chunks. -/
def totals (chunks : List Bytes) : List Nat :=
  (List.range chunks.length).map fun i => tally (chunks.take (i + 1)).flatten

/-- The record names the chunks that were written, and that the temporary file was created. -/
structure Recorded (written : List Bytes) (steps : List (IoStep × Bool)) : Prop where
  created : (.create, true) ∈ steps
  writes : ∀ i, (.write i, true) ∈ steps ↔ i < written.length

theorem Recorded.add {written : List Bytes} {steps : List (IoStep × Bool)}
    (h : Recorded written steps) {s : IoStep × Bool} (hs : ∀ i, s ≠ (.write i, true)) :
    Recorded written (steps ++ [s]) := by
  refine ⟨List.mem_append_left _ h.created, fun i => ?_⟩
  rw [List.mem_append, List.mem_singleton, h.writes]
  exact or_iff_left fun he => hs i he.symm

theorem Recorded.write {written : List Bytes} {steps : List (IoStep × Bool)}
    (h : Recorded written steps) (chunk : Bytes) :
    Recorded (written ++ [chunk]) (steps ++ [(.write written.length, true)]) := by
  refine ⟨List.mem_append_left _ h.created, fun i => ?_⟩
  rw [List.mem_append, List.mem_singleton, h.writes, List.length_append, List.length_singleton]
  simp only [Prod.mk.injEq, IoStep.write.injEq, and_true]
  omega

/-- No I/O step has failed. -/
def Clean (steps : List (IoStep × Bool)) : Prop := ∀ s ∈ steps, s.2 = true

theorem Clean.add {steps : List (IoStep × Bool)} (h : Clean steps) (step : IoStep) :
    Clean (steps ++ [(step, true)]) := by
  intro s hs
  rcases List.mem_append.mp hs with hs | hs
  · exact h s hs
  · rw [List.mem_singleton.mp hs]

theorem not_clean (steps : List (IoStep × Bool)) (step : IoStep) :
    ¬ Clean (steps ++ [(step, false)]) := by
  intro h
  cases h (step, false) (List.mem_append_right _ List.mem_cons_self)

section Specs

variable {H : StreamingHash} {faults : Faults} {d : Digest} {tempfile finalPath : Path} {fs₀ : Fs}

/-- The block has ended with an error. -/
structure Ended (H : StreamingHash) (d : Digest) (fs₀ : Fs) (tempfile finalPath : Path)
    (stream : List (Option Bytes)) (r : Run) : Prop where
  file : ∃ b, r.fs.read tempfile = some b
  final : r.fs.node finalPath = fs₀.node finalPath
  outcomes : r.outcomes = []
  written : ∃ written, written.map some <+: stream ∧ r.marks = totals written ∧
    Recorded written r.steps
  reason : none ∈ stream ∨ ¬ Clean r.steps ∨ H.hex (stream.filterMap id).flatten ≠ d.hex

/-- All chunks are in the temporary file, and the final path is as before. -/
structure Complete (fs₀ : Fs) (tempfile finalPath : Path) (chunks : List Bytes) (r : Run) : Prop where
  file : r.fs.read tempfile = some chunks.flatten
  final : r.fs.node finalPath = fs₀.node finalPath
  marks : r.marks = totals chunks
  outcomes : r.outcomes = []
  recorded : Recorded chunks r.steps
  clean : Clean r.steps

/-- The chunks are at the final path, and the temporary file is gone. -/
structure Promoted (tempfile finalPath : Path) (chunks : List Bytes) (r : Run) : Prop where
  file : r.fs.read finalPath = some chunks.flatten
  temp : r.fs.node tempfile = none
  marks : r.marks = totals chunks
  outcomes : r.outcomes = []
  recorded : Recorded chunks r.steps
  clean : Clean r.steps

theorem Complete.step {chunks : List Bytes} {r : Run} (h : Complete fs₀ tempfile finalPath chunks r)
    {fs' : Fs} (hfile : fs'.read tempfile = r.fs.read tempfile)
    (hfinal : fs'.node finalPath = r.fs.node finalPath) (step : IoStep) (hs : ∀ i, step ≠ .write i) :
    Complete fs₀ tempfile finalPath chunks
      { r with fs := fs', steps := r.steps ++ [(step, true)] } :=
  ⟨hfile.trans h.file, hfinal.trans h.final, h.marks, h.outcomes,
    h.recorded.add fun i he => hs i (Prod.mk.inj he).1, h.clean.add step⟩

theorem Complete.failed {chunks : List Bytes} {r : Run}
    (h : Complete fs₀ tempfile finalPath chunks r) {fs' : Fs}
    (hfile : fs'.read tempfile = r.fs.read tempfile)
    (hfinal : fs'.node finalPath = r.fs.node finalPath) (step : IoStep) :
    Ended H d fs₀ tempfile finalPath (chunks.map some)
      { r with fs := fs', steps := r.steps ++ [(step, false)] } := by
  refine ⟨⟨_, hfile.trans h.file⟩, hfinal.trans h.final, h.outcomes,
    ⟨chunks, List.prefix_refl _, h.marks, h.recorded.add fun i he => ?_⟩,
    Or.inr (Or.inl (not_clean _ step))⟩
  cases (Prod.mk.inj he).2

theorem filterMap_map_some (chunks : List Bytes) : (chunks.map some).filterMap id = chunks := by
  simp

/-- The tempfile is renamed, or an error leaves it and the final path as they are. -/
theorem promoteTempfile_spec (hne : ¬ finalPath <:+ tempfile) {chunks : List Bytes} {r : Run}
    (total : Nat) (h : Complete fs₀ tempfile finalPath chunks r) :
    (∃ r', (promoteTempfile faults tempfile finalPath total).exec r = (.ok total, r') ∧
      Promoted tempfile finalPath chunks r') ∨
    ∃ e r', (promoteTempfile faults tempfile finalPath total).exec r = (.error e, r') ∧
      Ended H d fs₀ tempfile finalPath (chunks.map some) r' := by
  have hpaths : tempfile ≠ finalPath := fun he => hne (he ▸ List.suffix_refl _)
  have hself : ¬ finalPath <:+ finalPath.tail := by
    intro hsuffix
    have hlen := hsuffix.length_le
    cases finalPath with
    | nil => exact hne (List.nil_suffix)
    | cons n p =>
      simp only [List.tail_cons, List.length_cons] at hlen
      omega
  unfold promoteTempfile
  obtain ⟨ok, fs₁, hgrow, hnode, ⟨rfl, hdir⟩ | ⟨rfl, e, hdir⟩⟩ :=
    exec_createDirAll_cases faults .finalDir finalPath.tail r
  · rw [Prog.exec_bind_ok hdir]
    have h₁ := h.step (Fs.growsDirs_read hgrow tempfile) (hnode finalPath hself) .finalDir
      fun i he => nomatch he
    rcases exec_io_cases faults .rename (Fs.rename tempfile finalPath) (fun _ => pure ())
      { r with fs := fs₁, steps := r.steps ++ [(.finalDir, true)] } with
      ⟨fs₂, hop, hrename⟩ | ⟨e, fs₂, hop, hrename⟩
    · refine Or.inl ⟨_, (Prog.exec_bind_ok hrename).trans rfl, ?_⟩
      rcases Fs.exec_rename tempfile finalPath fs₁ with ⟨b, hb, -, -, hok⟩ | ⟨e', herr⟩
      · cases hok.symm.trans hop
        cases hb.symm.trans h₁.file
        refine ⟨?_, ?_, h₁.marks, h₁.outcomes, h₁.recorded.add (fun i he => nomatch he),
          h₁.clean.add _⟩
        · rw [Fs.read_eq_some, Fs.node_set, if_pos rfl]
        · rw [Fs.node_set, if_neg hpaths, Fs.node_del, if_pos rfl]
      · cases herr.symm.trans hop
    · have hsame : fs₂ = fs₁ := by
        rcases hop with ⟨e', hop⟩ | ⟨k, rfl⟩
        · rcases Fs.exec_rename tempfile finalPath fs₁ with ⟨b, -, -, -, hok⟩ | ⟨e', herr⟩
          · cases hok.symm.trans hop
          · exact (Prod.mk.inj (herr.symm.trans hop)).2.symm
        · rfl
      subst hsame
      exact Or.inr ⟨e, _, Prog.exec_bind_error hrename, h₁.failed rfl rfl .rename⟩
  · refine Or.inr ⟨e, _, Prog.exec_bind_error hdir, ?_⟩
    exact h.failed (Fs.growsDirs_read hgrow tempfile) (hnode finalPath hself) .finalDir

/-- The end of the block renames the tempfile, if its digest is right and nothing fails. -/
theorem commit_spec (hne : ¬ finalPath <:+ tempfile) {chunks : List Bytes} {r : Run}
    {hasher : H.State} (total : Nat) (h : Complete fs₀ tempfile finalPath chunks r)
    (hfed : H.Fed hasher chunks.flatten) :
    (H.hex chunks.flatten = d.hex ∧ ∃ r',
      (commit H faults d tempfile finalPath hasher total).exec r = (.ok total, r') ∧
      Promoted tempfile finalPath chunks r') ∨
    ∃ e r', (commit H faults d tempfile finalPath hasher total).exec r = (.error e, r') ∧
      Ended H d fs₀ tempfile finalPath (chunks.map some) r' := by
  unfold commit
  rcases exec_settle_cases faults .flush r with hflush | ⟨e, hflush⟩
  · rw [Prog.exec_bind_ok hflush]
    have h₁ := h.step rfl rfl .flush fun i he => nomatch he
    rcases exec_settle_cases faults .sync { r with steps := r.steps ++ [(.flush, true)] } with
      hsync | ⟨e, hsync⟩
    · rw [Prog.exec_bind_ok hsync]
      have h₂ := h₁.step rfl rfl .sync fun i he => nomatch he
      by_cases hhex : H.finalize hasher ≠ d.hex
      · simp only [if_pos hhex]
        refine Or.inr ⟨_, _, rfl, ⟨_, h₂.file⟩, h₂.final, h₂.outcomes,
          ⟨chunks, List.prefix_refl _, h₂.marks, h₂.recorded⟩, Or.inr (Or.inr ?_)⟩
        rw [filterMap_map_some, ← hfed.finalize]
        exact hhex
      · simp only [if_neg hhex]
        refine (promoteTempfile_spec hne total h₂).imp (fun hok => ⟨?_, hok⟩) id
        rw [← hfed.finalize]
        exact not_not.mp hhex
    · exact Or.inr ⟨e, _, Prog.exec_bind_error hsync, h₁.failed rfl rfl .sync⟩
  · exact Or.inr ⟨e, _, Prog.exec_bind_error hflush, h.failed rfl rfl .flush⟩

end Specs

/-! ## The contract -/

section Contract

variable {H : StreamingHash} {d : Digest} {tempfile finalPath : Path} {fs fs₀ : Fs}

/-- What a run of the producer from `fs` leaves. -/
structure Settles (H : StreamingHash) (d : Digest) (tempfile finalPath : Path)
    (stream : List (Option Bytes)) (fs : Fs) (result : Except PullThroughError Unit) (r : Run) :
    Prop where
  /-- One outcome is published, the one that is returned. -/
  outcome : (∃ n, r.outcomes = [.success n] ∧ result = .ok ()) ∨
    ∃ e, r.outcomes = [.failed e] ∧ result = .error e
  success_iff : (∃ n, r.outcomes = [.success n]) ↔
    none ∉ stream ∧ Clean r.steps ∧ H.hex (stream.filterMap id).flatten = d.hex
  success : ∀ n, r.outcomes = [.success n] →
    r.fs.read finalPath = some (stream.filterMap id).flatten ∧
    n = tally (stream.filterMap id).flatten ∧ r.fs.node tempfile = none
  failed : ∀ e, r.outcomes = [.failed e] → r.fs.node finalPath = fs.node finalPath ∧
    ((.create, true) ∈ r.steps → (.remove, false) ∉ r.steps → r.fs.node tempfile = none)
  /-- The high-water marks are the totals of the chunks that were written. -/
  marks : ∃ written : List Bytes, written.map some <+: stream ∧
    (∀ i, (.write i, true) ∈ r.steps ↔ i < written.length) ∧ r.marks = totals written ∧
    r.marks.Pairwise (· ≤ ·)

section Exec

variable {faults : Faults} {stream : List (Option Bytes)} {r r₁ r₂ r₃ : Run} {e : PullThroughError}

theorem exec_runProducer_noDir
    (hdir : (createDirAll faults .tempDir tempfile.tail).exec r = (.error e, r₁)) :
    (runProducer H faults d tempfile finalPath stream).exec r = (fail e).exec r₁ :=
  Prog.exec_bind_ok (Prog.exec_attempt_eq.mpr hdir)

theorem exec_runProducer_noFile
    (hdir : (createDirAll faults .tempDir tempfile.tail).exec r = (.ok (), r₁))
    (hcreate : (io faults .create (Fs.writeFile tempfile []) fun _ => pure ()).exec r₁ =
      (.error e, r₂)) :
    (runProducer H faults d tempfile finalPath stream).exec r = (fail e).exec r₂ :=
  (Prog.exec_bind_ok (Prog.exec_attempt_eq.mpr hdir)).trans
    (Prog.exec_bind_ok (Prog.exec_attempt_eq.mpr hcreate))

theorem exec_runProducer_opened {result : Except PullThroughError Nat}
    (hdir : (createDirAll faults .tempDir tempfile.tail).exec r = (.ok (), r₁))
    (hcreate : (io faults .create (Fs.writeFile tempfile []) fun _ => pure ()).exec r₁ =
      (.ok (), r₂))
    (hproduce : (produce H faults d tempfile finalPath stream).exec r₂ = (result, r₃)) :
    (runProducer H faults d tempfile finalPath stream).exec r =
      (settle faults tempfile result).exec r₃ :=
  (Prog.exec_bind_ok (Prog.exec_attempt_eq.mpr hdir)).trans
    ((Prog.exec_bind_ok (Prog.exec_attempt_eq.mpr hcreate)).trans
      (Prog.exec_bind_ok (Prog.exec_attempt_eq.mpr hproduce)))

end Exec

end Contract

/-! ## Without faults -/

section Faultless

variable {S : Setup} {ε ε' α β : Type}

/-- From equal files, both programs have the same outcome and leave the same files. -/
def Follows (m : Prog (World S) ε α) (m' : Prog Run ε α) : Prop :=
  ∀ w r, w.fs = r.fs → (m.exec w).1 = (m'.exec r).1 ∧ (m.exec w).2.fs = (m'.exec r).2.fs

theorem Follows.of_pure (a : α) : Follows (S := S) (pure a : Prog (World S) ε α) (pure a) :=
  fun _ _ h => ⟨rfl, h⟩

theorem Follows.of_throw (e : ε) : Follows (S := S) (throw e : Prog (World S) ε α) (throw e) :=
  fun _ _ h => ⟨rfl, h⟩

theorem Follows.seq {m : Prog (World S) ε α} {m' : Prog Run ε α} {f : α → Prog (World S) ε β}
    {f' : α → Prog Run ε β} (hm : Follows m m') (hf : ∀ a, Follows (f a) (f' a)) :
    Follows (m >>= f) (m' >>= f') :=
  Simulates.seq (R := fun (w : World S) (r : Run) => w.fs = r.fs) hm hf

theorem Follows.of_ite {c : Prop} [Decidable c] {m n : Prog (World S) ε α} {m' n' : Prog Run ε α}
    (hm : Follows m m') (hn : Follows n n') : Follows (if c then m else n) (if c then m' else n') :=
  Simulates.of_ite (R := fun (w : World S) (r : Run) => w.fs = r.fs) hm hn

theorem Follows.attempt {m : Prog (World S) ε α} {m' : Prog Run ε α} (h : Follows m m') :
    Follows (m.attempt : Prog (World S) ε' (Except ε α)) m'.attempt :=
  Simulates.of_attempt (R := fun (w : World S) (r : Run) => w.fs = r.fs) h

theorem exec_io_none (step : IoStep) (op : Prog Fs IoKind Unit) (torn : Nat → Prog Fs IoKind Unit)
    (r : Run) :
    ((io (fun _ => none) step op torn).exec r).1 = (op.exec r.fs).1.mapError .io ∧
      ((io (fun _ => none) step op torn).exec r).2.fs = (op.exec r.fs).2 := by
  unfold io
  simp only [Prog.exec_ofFun]
  rcases op.exec r.fs with ⟨e | u, fs'⟩
  · exact ⟨rfl, rfl⟩
  · exact ⟨rfl, rfl⟩

theorem Follows.of_io (step : IoStep) (op : Prog Fs IoKind Unit) (torn : Nat → Prog Fs IoKind Unit) :
    Follows (S := S) ((onFs op).mapError .io) (io (fun _ => none) step op torn) := by
  intro w r hfs
  obtain ⟨hres, hfs'⟩ := exec_io_none step op torn r
  rw [hres, hfs', Prog.exec_mapError, ← hfs]
  rcases hop : op.exec w.fs with ⟨e | u, fs'⟩
  · rw [exec_onFs_error hop]
    exact ⟨rfl, rfl⟩
  · rw [exec_onFs_ok hop]
    exact ⟨rfl, rfl⟩

theorem Follows.of_settle (step : IoStep) :
    Follows (S := S) (pure ()) (io (fun _ => none) step (pure ()) fun _ => pure ()) :=
  fun _ _ h => ⟨rfl, h⟩

theorem Follows.of_rename (tempfile finalPath : Path) :
    Follows (S := S) ((promote tempfile finalPath).mapError .io)
      (io (fun _ => none) .rename (Fs.rename tempfile finalPath) fun _ => pure ()) := by
  intro w r hfs
  obtain ⟨hres, hfs'⟩ := exec_io_none .rename (Fs.rename tempfile finalPath) (fun _ => pure ()) r
  rw [hres, hfs', Prog.exec_mapError, ← hfs]
  have hget : (promote tempfile finalPath).exec w = _ := Prog.exec_bind_ok (Prog.exec_get w)
  rw [hget]
  rcases hop : (Fs.rename tempfile finalPath).exec w.fs with ⟨e | u, fs'⟩
  · rw [Prog.exec_bind_error (exec_onFs_error hop)]
    exact ⟨rfl, rfl⟩
  · rw [Prog.exec_bind_ok (exec_onFs_ok hop)]
    exact ⟨rfl, rfl⟩

theorem receive_follows (tempfile : Path) (stream : List (Option Bytes)) (i : Nat)
    (hasher : S.hash.State) (total : Nat) :
    Follows (PullThrough.receive tempfile stream hasher total)
      (receive S.hash (fun _ => none) tempfile i stream hasher total) := by
  induction stream generalizing i hasher total with
  | nil => exact Follows.of_pure _
  | cons c stream ih =>
    cases c with
    | none => exact Follows.of_throw _
    | some chunk =>
      refine (Follows.of_io (.write i) _ _).seq fun _ => ?_
      exact fun w r hfs => ih (i + 1) _ _ w _ hfs

theorem produce_follows (d : Digest) (tempfile finalPath : Path) (stream : List (Option Bytes)) :
    Follows (S := S) (PullThrough.produce d tempfile finalPath stream)
      (produce S.hash (fun _ => none) d tempfile finalPath stream) := by
  refine (receive_follows tempfile stream 0 S.hash.new 0).seq fun ⟨hasher, total⟩ => ?_
  -- The sequential model flushes nothing: its writes are in the file at once.
  have hcommit : Follows (S := S) (pure () >>= fun _ => pure () >>= fun _ =>
      if S.hash.finalize hasher ≠ d.hex then
        throw (.digestMismatch d.toStr ("sha256:".toList ++ (S.hash.finalize hasher).val))
      else (onFs (Fs.createDirAll finalPath.tail)).mapError .io >>= fun _ =>
        (promote tempfile finalPath).mapError .io >>= fun _ => pure total)
      (commit S.hash (fun _ => none) d tempfile finalPath hasher total) := by
    refine (Follows.of_settle .flush).seq fun _ => (Follows.of_settle .sync).seq fun _ => ?_
    refine Follows.of_ite (Follows.of_throw _) ?_
    refine (Follows.of_io .finalDir _ _).seq fun _ => ?_
    exact (Follows.of_rename tempfile finalPath).seq fun _ => Follows.of_pure total
  exact hcommit

/-- What a finished fetch publishes. -/
def outcomeOf : Except PullThroughError Nat → ProducerOutcome
  | .ok n => .success n
  | .error e => .failed e

/-- The two programs give one result. -/
theorem Follows.cases {m : Prog (World S) ε α} {m' : Prog Run ε α} (h : Follows m m') {w : World S}
    {r : Run} (hfs : w.fs = r.fs) :
    ∃ res w' r', m.exec w = (res, w') ∧ m'.exec r = (res, r') ∧ w'.fs = r'.fs := by
  obtain ⟨hres, hfs'⟩ := h w r hfs
  exact ⟨_, _, _, rfl, Prod.ext hres.symm rfl, hfs'⟩

/-- Without faults, a run of the producer is the fetch of one piece. -/
theorem runProducer_faultless (d : Digest) (tempfile finalPath : Path)
    (stream : List (Option Bytes)) (w : World S) :
    let r := ((runProducer S.hash (fun _ => none) d tempfile finalPath stream).exec (.start w.fs)).2
    r.fs = ((PullThrough.runProducer d tempfile finalPath stream).exec w).2.fs ∧
      r.outcomes.getLast? =
        some (outcomeOf ((PullThrough.runProducer d tempfile finalPath stream).exec w).1) := by
  intro r
  show ((runProducer S.hash (fun _ => none) d tempfile finalPath stream).exec (.start w.fs)).2.fs = _ ∧
    ((runProducer S.hash (fun _ => none) d tempfile finalPath stream).exec
      (.start w.fs)).2.outcomes.getLast? = _
  have hpublish : ∀ (os : List ProducerOutcome) o, (os ++ [o]).getLast? = some o := by simp
  obtain ⟨e | u, w₁, r₁, hw₁, hr₁, hfs₁⟩ := (Follows.of_io (S := S) .tempDir
    (Fs.createDirAll tempfile.tail) fun k => Fs.createDirAll (tempfile.tail.drop k)).cases
    (w := w) (r := .start w.fs) rfl
  · have hfetch : (PullThrough.runProducer d tempfile finalPath stream).exec w = (.error e, w₁) :=
      Prog.exec_bind_error hw₁
    rw [exec_runProducer_noDir hr₁, hfetch]
    exact ⟨hfs₁.symm, hpublish _ _⟩
  obtain ⟨e | u, w₂, r₂, hw₂, hr₂, hfs₂⟩ := (Follows.of_io (S := S) .create
    (Fs.writeFile tempfile []) fun _ => pure ()).cases hfs₁
  · have hfetch : (PullThrough.runProducer d tempfile finalPath stream).exec w = (.error e, w₂) :=
      (Prog.exec_bind_ok hw₁).trans (Prog.exec_bind_error hw₂)
    rw [exec_runProducer_noFile hr₁ hr₂, hfetch]
    exact ⟨hfs₂.symm, hpublish _ _⟩
  obtain ⟨e | n, w₃, r₃, hw₃, hr₃, hfs₃⟩ := (produce_follows d tempfile finalPath stream).cases hfs₂
  · have hfetch : (PullThrough.runProducer d tempfile finalPath stream).exec w = _ :=
      (Prog.exec_bind_ok hw₁).trans ((Prog.exec_bind_ok hw₂).trans
        (Prog.exec_bind_ok (Prog.exec_attempt_eq.mpr hw₃)))
    rw [exec_runProducer_opened hr₁ hr₂ hr₃, hfetch]
    obtain ⟨-, hremove⟩ := exec_io_none .remove (Fs.removeFile tempfile) (fun _ => pure ()) r₃
    have hprobe : ((probeFs (Fs.removeFile tempfile) : Prog (World S) IoKind Unit).exec w₃).2.fs =
        ((Fs.removeFile tempfile).exec w₃.fs).2 := by
      rcases hop : (Fs.removeFile tempfile).exec w₃.fs with ⟨e' | u, fs'⟩
      · rw [exec_probeFs_error hop]
      · rw [exec_probeFs_ok hop]
    refine ⟨?_, hpublish _ _⟩
    show ((io (fun _ => none) .remove (Fs.removeFile tempfile) fun _ => pure ()).exec r₃).2.fs =
      ((probeFs (Fs.removeFile tempfile) : Prog (World S) IoKind Unit).exec w₃).2.fs
    rw [hremove, hprobe, hfs₃]
  · have hfetch : (PullThrough.runProducer d tempfile finalPath stream).exec w = (.ok n, w₃) :=
      (Prog.exec_bind_ok hw₁).trans ((Prog.exec_bind_ok hw₂).trans
        (Prog.exec_bind_ok (Prog.exec_attempt_eq.mpr hw₃)))
    rw [exec_runProducer_opened hr₁ hr₂ hr₃, hfetch]
    exact ⟨hfs₃.symm, hpublish _ _⟩

end Faultless

/-! A fetch whose second write is torn. -/

def dataRoot : Path := Codec.dataRoot

def app : Str := "docker/app".toList

def blob : Digest := ⟨Sha256.streaming.hex [98, 108, 111, 98]⟩

end Quill.PullThrough.Producing
