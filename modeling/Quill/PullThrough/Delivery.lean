import Quill.PullThrough.Tailing

/-!
# Successful fetches reach their bodies

A fetch whose stream has the requested digest succeeds when no file-system call fails
(`onTrack_step`), and a body that finds the temporary file whenever it opens it ends with the
whole stream (`success_reaches_subscribers`). The producer renames the file before it
publishes its success, so a body that opens it later fails (`renamed_file_fails_body`).
-/

namespace Quill.PullThrough

open Text Files Cas LocalStorage Uploads

variable {S : Setup} {H : StreamingHash}

/-! ## Fetches that succeed -/

/-- How far a producer has come with the chunks of its stream, when nothing has failed. -/
def Producer.OnTrack (received : Bytes) (chunks : List Bytes) : Producer H → Prop
  | .opening => False
  | .creating stream => received = [] ∧ stream = chunks.map some
  | .receiving stream _ _ | .advancing stream _ _ | .notifying stream _ _ =>
    ∃ rest : List Bytes, stream = rest.map some ∧ received ++ rest.flatten = chunks.flatten
  | .flushing _ _ | .comparing _ _ | .promoting _ | .caching | .gone => received = chunks.flatten
  | .removing _ => False
  | .finishing o | .publishing o | .waking o | .leaving o =>
    (∃ n, o = .success n) ∧ received = chunks.flatten

/-- A stream of the requested digest leads to a success. -/
def Flight.OnTrack (fl : Flight H) : Prop :=
  ∀ chunks : List Bytes, fl.upstream = some (chunks.map some) →
    H.hex chunks.flatten = fl.entry.digest.hex →
    fl.producer.OnTrack fl.received chunks ∧ ∀ e, fl.entry.outcome ≠ some (.failed e)

/-- Without faults, a producer on track meets no error. -/
theorem not_fallible_of_onTrack {root : Path} {env : Env} {disk : Disk Path} {fl : Flight H}
    {chunks : List Bytes} (hok : env.ok = true) (hcounted : fl.Counted) (hp : fl.Placed root)
    (ho : fl.Owns root disk) (hhash : H.hex chunks.flatten = fl.entry.digest.hex)
    (ht : fl.producer.OnTrack fl.received chunks) : ¬ fl.producer.Fallible env disk fl.entry := by
  intro hfail
  have hprod := hcounted.producer
  cases hcase : fl.producer with
  | receiving stream hasher total =>
    rw [hcase] at ht hfail
    obtain ⟨rest, rfl, -⟩ := ht
    cases rest with
    | nil => exact hfail
    | cons c rest => exact absurd (hok.symm.trans hfail) nofun
  | flushing hasher total =>
    rw [hcase] at hfail
    exact absurd (hok.symm.trans hfail) nofun
  | comparing hasher total =>
    rw [hcase] at ht hfail hprod
    have hrec : fl.received = chunks.flatten := ht
    have hgot : H.finalize hasher = H.hex chunks.flatten := by rw [hprod.1.finalize, hrec]
    exact hfail (hgot.trans hhash)
  | promoting total =>
    have hhold : fl.producer.holding = true := by
      rw [hcase]
      rfl
    rw [hcase] at hfail
    rcases hfail with hfault | hgone
    · exact absurd (hok.symm.trans hfault) nofun
    · have hsome := hp.holds hhold
      rw [← ho.present hhold, hgone] at hsome
      cases hsome
  | _ =>
    rw [hcase] at hfail
    exact hfail

theorem Flight.OnTrack.at {fl : Flight H} (ht : fl.OnTrack) {chunks : List Bytes}
    (hup : fl.upstream = some (chunks.map some)) (hhash : H.hex chunks.flatten = fl.entry.digest.hex)
    {p : Producer H} (hp : fl.producer = p) :
    p.OnTrack fl.received chunks ∧ ∀ e, fl.entry.outcome ≠ some (.failed e) :=
  hp ▸ ht chunks hup hhash

theorem Producer.OnTrack.received_chunk {received chunk : Bytes} {chunks : List Bytes}
    {stream : List (Option Bytes)} {hasher hasher' : H.State} {total total' : Nat}
    (h : (Producer.receiving (some chunk :: stream) hasher total : Producer H).OnTrack received chunks) :
    (Producer.advancing stream hasher' total' : Producer H).OnTrack (received ++ chunk) chunks := by
  obtain ⟨rest, hstream, hall⟩ := h
  cases rest with
  | nil => cases hstream
  | cons c rest =>
    obtain ⟨hc, hrest⟩ := List.cons.inj hstream
    cases hc
    refine ⟨rest, hrest, ?_⟩
    rw [← hall]
    simp

theorem Producer.OnTrack.received_all {received : Bytes} {chunks : List Bytes} {hasher : H.State}
    {total : Nat} (h : (Producer.receiving [] hasher total : Producer H).OnTrack received chunks) :
    received = chunks.flatten := by
  obtain ⟨rest, hstream, hall⟩ := h
  cases rest with
  | nil => rwa [List.flatten_nil, List.append_nil] at hall
  | cons c rest => cases hstream

theorem onTrack_step {root : Path} {env : Env} {disk disk' : Disk Path} {fl fl' : Flight H}
    (h : fl.Step root env disk disk' fl') (hok : env.ok = true) (hsent : fl.Sent)
    (hcounted : fl.Counted) (hp : fl.Placed root) (ho : fl.Owns root disk) (ht : fl.OnTrack) :
    fl'.OnTrack := by
  intro chunks hup hhash
  cases h with
  | opened hprod hreply =>
    cases hup
    have hrec := hcounted.producer
    rw [hprod] at hrec
    refine ⟨⟨hrec, rfl⟩, fun e he => ?_⟩
    have hout : fl.entry.outcome.isSome = fl.producer.published := hsent.1
    rw [show fl.entry.outcome = some (.failed e) from he, hprod] at hout
    cases hout
  | refused hprod hreply => exact (ht.at hup hhash hprod).1.elim
  | noFile hprod hfault => cases hok.symm.trans hfault
  | leftover hprod hfault => cases hok.symm.trans hfault
  | create hprod =>
    obtain ⟨⟨hrec, hstream⟩, hout⟩ := ht.at hup hhash hprod
    refine ⟨⟨chunks, hstream, ?_⟩, hout⟩
    rw [show fl.received = [] from hrec]
    rfl
  | receive hprod hbuf =>
    obtain ⟨htrack, hout⟩ := ht.at hup hhash hprod
    exact ⟨htrack.received_chunk, hout⟩
  | endOfStream hprod =>
    obtain ⟨htrack, hout⟩ := ht.at hup hhash hprod
    exact ⟨htrack.received_all, hout⟩
  | rename hprod hren =>
    obtain ⟨htrack, hout⟩ := ht.at hup hhash hprod
    exact ⟨⟨⟨_, rfl⟩, htrack⟩, hout⟩
  | fail e hprod =>
    obtain ⟨htrack, -⟩ := ht chunks hup hhash
    exact absurd hprod (not_fallible_of_onTrack hok hcounted hp ho hhash htrack)
  | remove hprod => exact (ht.at hup hhash hprod).1.elim
  | publish hprod =>
    obtain ⟨⟨⟨n, rfl⟩, hrec⟩, -⟩ := ht.at hup hhash hprod
    exact ⟨⟨⟨n, rfl⟩, hrec⟩, nofun⟩
  | leave hprod hprod' =>
    obtain ⟨htrack, hout⟩ := ht.at hup hhash hprod
    rcases hprod' with rfl | rfl <;> exact ⟨htrack.2, hout⟩
  | store hprod | notify hprod | flush hprod | compare hprod | finish hprod | wake hprod | cache hprod =>
    have htrack := ht.at hup hhash hprod
    exact htrack

/-! ## Runs -/

/-- No file-system call fails. -/
def faultless : Act → Bool
  | .turn _ env | .produce _ env => env.ok
  | _ => true

/-- A body of the flight `f` that opens the path finds the file of the flight there. -/
def findsFile (f : Nat) (disk : Disk Path) (fl : Flight H) (b : Body) : Bool :=
  match b.state with
  | .opening _ => b.flight ≠ f || fl.file.isSome && disk.entry fl.entry.tempfile = fl.file
  | _ => true

/-- No call fails, no fetch reaches `2 ^ 64` bytes, and the bodies of the flight `f` always find
its file. -/
def Unhindered (f : Nat) (s : Pool (Memory S) Task) (a : Act) : Prop :=
  faultless a = true ∧ tidy s a = true ∧ onPolls (findsFile f) s a = true

instance (f : Nat) : DecidableRel (Unhindered f : Pool (Memory S) Task → Act → Prop) :=
  fun _ _ => inferInstanceAs (Decidable (_ ∧ _ ∧ _))

/-- A body has emitted what was received, and fails only with its flight. -/
def Body.Follows (fl : Flight H) (b : Body) : Prop :=
  b.Faithful fl ∧ ∀ e, b.state = .failed e → ∃ e', fl.entry.outcome = some (.failed e')

theorem Flight.Step.follows {root : Path} {env : Env} {disk disk' : Disk Path} {fl fl' : Flight H}
    (h : fl.Step root env disk disk' fl') (hp : fl.Placed root) (hsent : fl.Sent) {b : Body}
    (hb : b.Follows fl) : b.Follows fl' := by
  refine ⟨h.faithful hp hsent hb.1, fun e he => ?_⟩
  obtain ⟨e', ho⟩ := hb.2 e he
  cases h with
  | publish hprod =>
    have hout := hsent.1
    rw [hprod, ho] at hout
    cases hout
  | _ => exact ⟨e', ho⟩

theorem Body.Step.follows {fl : Flight H} {disk : Disk Path} {env : Env} {b b' : Body}
    (h : b.Step fl disk env b') (hb : b.Follows fl) (hcounted : fl.Counted) (hok : env.ok = true)
    (hcontents : ∀ {file}, fl.file = some file → disk.contents file ++ fl.buffer = fl.received)
    (hfinds : ∀ {high}, b.state = .opening high →
      fl.file.isSome = true ∧ disk.entry fl.entry.tempfile = fl.file) : b'.Follows fl := by
  refine ⟨h.faithful hb.1 hcounted hcontents fun hs hentry => ?_, ?_⟩
  · rw [← (hfinds hs).2]
    exact hentry
  · intro e he
    cases h with
    | broken hs ho => exact ⟨_, ho⟩
    | missing hs hnone =>
      obtain ⟨hsome, hentry⟩ := hfinds hs
      rw [← hentry, hnone] at hsome
      cases hsome
    | fault hfault =>
      rw [hok] at hfault
      cases hfault
    | _ => cases he

theorem all_onTrack_step {s t : Pool (Memory S) Task} {a : Act} (h : Fetching s)
    (ht : ∀ {j : Nat} {fl : Flight S.hash}, s.memory.flights[j]? = some fl → fl.OnTrack)
    (hok : faultless a = true) (hstep : Step s a t) {j : Nat} {fl : Flight S.hash}
    (hfl : t.memory.flights[j]? = some fl) : fl.OnTrack := by
  refine all_flights_step ht hstep ?_ ?_ ?_ hfl
  · intro f env fl fl' ha hfl hfstep
    subst ha
    exact onTrack_step hfstep hok (h.tracked.sent hfl) (h.counted hfl) (h.owned.placed hfl)
      (h.owned.owns hfl) (ht hfl)
  · intro fl n htrack chunks hup hhash
    exact htrack chunks hup hhash
  · intro repo d
    nofun

/-- The invariant of an unhindered run. -/
structure Delivering (f : Nat) (s : Pool (Memory S) Task) : Prop where
  fetching : Fetching s
  onTrack : ∀ {j : Nat} {fl : Flight S.hash}, s.memory.flights[j]? = some fl → fl.OnTrack
  bodies : AllBodies (fun fl b => b.flight = f → b.Follows fl) s

theorem Delivering.step {f : Nat} {s t : Pool (Memory S) Task} {a : Act} (h : Delivering f s)
    (hun : Unhindered f s a) (hstep : Step s a t) : Delivering f t := by
  obtain ⟨hok, htidy, hfinds⟩ := hun
  refine ⟨h.fetching.step htidy hstep, fun {j fl} hfl => ?_, ?_⟩
  · exact all_onTrack_step h.fetching h.onTrack hok hstep hfl
  · refine h.bodies.step h.fetching.tracked hstep ?_ ?_ ?_ ?_ ?_
    · intro j env fl disk fl' b _ hfl hfstep _ hb hflight
      exact hfstep.follows (h.fetching.owned.placed hfl) (h.fetching.tracked.sent hfl) (hb hflight)
    · intro fl b n hb hflight
      obtain ⟨⟨hoffset, hemitted, hreading, hended⟩, hfailed⟩ := hb hflight
      exact ⟨⟨hoffset, hemitted, hreading, hended⟩, hfailed⟩
    · intro i env r b b' fl ha hget hfl hbstep hb hflight
      subst ha
      rw [hbstep.flight] at hflight
      refine hbstep.follows (hb hflight) (h.fetching.counted hfl) hok
        (h.fetching.owned.owns hfl).contents fun hs => ?_
      have hpoll := of_onPolls hfinds hget hfl
      simpa [findsFile, hs, hflight] using hpoll
    · intro r fl j _ _
      exact ⟨⟨Nat.zero_le _, rfl, nofun, nofun⟩, nofun⟩
    · intro r j _
      exact ⟨⟨Nat.zero_le _, rfl, nofun, nofun⟩, nofun⟩

/-- In every unhindered run, no body of a fetch whose stream has the requested digest fails,
and a body that ended has emitted the whole stream. -/
theorem success_reaches_subscribers {f : Nat} {disk : Disk Path} {cached : Str × Digest → Bool}
    {t : Pool (Memory S) Task} (hrun : (runs step (Unhindered f)).rel (idleServer disk cached) t)
    {fl : Flight S.hash} (hfl : t.memory.flights[f]? = some fl) {chunks : List Bytes}
    (hstream : fl.upstream = some (chunks.map some))
    (hhash : S.hash.hex chunks.flatten = fl.entry.digest.hex) {r : Get} {b : Body}
    (hb : .body r b ∈ t.tasks) (hflight : b.flight = f) :
    (∀ e, b.state ≠ .failed e) ∧ (b.state = .ended → b.emitted = chunks.flatten) := by
  have hinv : Delivering f t := by
    refine Evolution.star_keep (I := fun u : Pool (Memory S) Task => Delivering f u) ?_ hrun
      ⟨Fetching.idle disk cached, nofun, AllBodies.init _ disk cached⟩
    intro u v huv hu
    obtain ⟨a, hun, hstep⟩ := huv
    exact hu.step hun (step_of_eq hstep)
  obtain ⟨htrack, hout⟩ := hinv.onTrack hfl chunks hstream hhash
  obtain ⟨hfaith, hfailed⟩ := hinv.bodies r b hb fl (by rw [hflight]; exact hfl) hflight
  refine ⟨fun e he => ?_, fun hs => ?_⟩
  · obtain ⟨e', ho⟩ := hfailed e he
    exact hout e' ho
  · obtain ⟨hall, n, ho⟩ := hfaith.ended hs
    have hpub := (hinv.fetching.tracked.sent hfl).1
    rw [ho] at hpub
    rw [hall]
    cases hcase : fl.producer <;> rw [hcase] at hpub htrack <;>
      first | exact htrack | exact htrack.2 | cases hpub

/-- A body that keeps up with its fetch. -/
theorem prompt_body_follows_fetch :
    ∃ t : Pool (Memory proxySetup) Task,
      (runs step (Unhindered 0)).rel (idleServer .empty fun _ => false) t ∧
      ∃ fl, t.memory.flights[0]? = some fl ∧ fl.upstream = some [some [97, 98]] ∧
      ∃ r b, .body r b ∈ t.tasks ∧ b.state = .ended ∧ b.emitted = [97, 98] := by
  obtain ⟨t, hrun, hfl, x, hx, hflight, hs⟩ := exists_run_of_follow step (Unhindered 0)
    (idleServer .empty fun _ => false : Pool (Memory proxySetup) Task)
    (oneBody ++ firstChunk 0 [97, 98] ++ List.replicate 3 (.turn 0 (served [])) ++ restOfFetch 0 ++
      List.replicate 2 (.turn 0 (served [])))
    (fun t => (∃ fl ∈ t.memory.flights[0]?, fl.upstream = some [some [97, 98]] ∧
        fl.entry.digest = ⟨Sha256.hex [97, 98]⟩) ∧
      ∃ x ∈ t.tasks.filterMap Task.toBody, x.2.flight = 0 ∧ x.2.state = .ended) (by decide +kernel)
  obtain ⟨fl, hfl, hstream, hdigest⟩ := hfl
  have hchunks : fl.upstream = some ([[97, 98]].map some) := hstream
  have hdone := success_reaches_subscribers hrun hfl hchunks (by rw [hdigest]; rfl)
    (mem_of_toBody hx) hflight
  exact ⟨t, hrun, fl, hfl, hstream, x.1, x.2, mem_of_toBody hx, hs, hdone.2 hs⟩

/-- A body has read the high-water mark and opens the file when the producer has renamed it. -/
theorem renamed_file_fails_body :
    ∃ t : Pool (Memory proxySetup) Task,
      (runs step fun _ a => faultless a = true).rel (idleServer .empty fun _ => false) t ∧
      ∃ fl, t.memory.flights[0]? = some fl ∧ fl.upstream = some [some [97, 98]] ∧
      proxySetup.hash.hex [97, 98] = fl.entry.digest.hex ∧
      ∃ r b, .body r b ∈ t.tasks ∧ b.flight = 0 ∧ b.state = .failed (.io .notFound) := by
  obtain ⟨t, hrun, hfl, x, hx, hflight, hs⟩ := exists_run_of_follow step (fun _ a => faultless a = true)
    (idleServer .empty fun _ => false : Pool (Memory proxySetup) Task)
    (oneBody ++ firstChunk 0 [97, 98] ++ [.turn 0 (served [])] ++ restOfFetch 0 ++
      [.turn 0 (served [])])
    (fun t => (∃ fl ∈ t.memory.flights[0]?, fl.upstream = some [some [97, 98]] ∧
        fl.entry.digest = ⟨Sha256.hex [97, 98]⟩) ∧
      ∃ x ∈ t.tasks.filterMap Task.toBody, x.2.flight = 0 ∧ x.2.state = .failed (.io .notFound))
    (by decide +kernel)
  obtain ⟨fl, hfl, hstream, hdigest⟩ := hfl
  exact ⟨t, hrun, fl, hfl, hstream, by rw [hdigest]; rfl, x.1, x.2, mem_of_toBody hx, hflight, hs⟩

end Quill.PullThrough
