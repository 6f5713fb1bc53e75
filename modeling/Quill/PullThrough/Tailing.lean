import Quill.PullThrough.Ownership

/-!
# What bodies emit

Bodies open the path of their flight anew for every chunk. A body that always finds the file of its
own flight there emits what its producer received, and when it ends, a text of the requested
digest (`bodies_emit_own_bytes`). A later fetch of the same digest creates the path again, so a
slow body of the earlier one can read its bytes (`later_fetch_feeds_old_body`).
-/

namespace Quill.PullThrough

open Text Files Cas LocalStorage Uploads

variable {S : Setup} {H : StreamingHash}

/-! ## What was received -/

/-- A success stands for a received text of the right digest and length. -/
def ProducerOutcome.Counted (H : StreamingHash) (received : Bytes) (d : Digest) :
    ProducerOutcome → Prop
  | .success n => H.hex received = d.hex ∧ n = received.length
  | .failed _ => True

/-- The hasher and the counter of a producer follow what it received. -/
def Producer.Counted (received : Bytes) (d : Digest) : Producer H → Prop
  | .opening | .creating _ => received = []
  | .receiving _ hasher total | .advancing _ hasher total | .notifying _ hasher total
  | .flushing hasher total | .comparing hasher total =>
    H.Fed hasher received ∧ total = received.length
  | .promoting total => H.hex received = d.hex ∧ total = received.length
  | .finishing o | .publishing o | .waking o | .leaving o => o.Counted H received d
  | .removing _ | .caching | .gone => True

/-- The flight knows how many bytes it has received, and its outcome says so. -/
structure Flight.Counted (fl : Flight H) : Prop where
  small : fl.received.length < u64
  producer : fl.producer.Counted fl.received fl.entry.digest
  outcome : ∀ o, fl.entry.outcome = some o → o.Counted H fl.received fl.entry.digest

theorem counted_new (root : Path) (repo : Str) (d : Digest) :
    (Flight.new root repo d : Flight H).Counted := ⟨by simp [Flight.new, u64], rfl, nofun⟩

theorem counted_step {root : Path} {env : Env} {disk disk' : Disk Path} {fl fl' : Flight H}
    (h : fl.Step root env disk disk' fl') (hsent : fl.Sent) (hc : fl.Counted)
    (hsmall : ∀ {chunk stream hasher total},
      fl.producer = .receiving (some chunk :: stream) hasher total →
      fl.received.length + chunk.length < u64) : fl'.Counted := by
  obtain ⟨hlen, hprod, hout⟩ := hc
  cases h with
  | receive hp hbuf =>
    rw [hp] at hprod
    obtain ⟨hfed, htotal⟩ := hprod
    have hlt := hsmall hp
    refine ⟨by simpa using hlt, ⟨hfed.update _, ?_⟩, fun o ho => ?_⟩
    · simp only [saturatingAdd, List.length_append, htotal]
      omega
    · -- nothing is published while chunks arrive
      have hnone := hsent.1
      rw [hp, show fl.entry.outcome = some o from ho] at hnone
      cases hnone
  | create hp =>
    rw [hp] at hprod
    refine ⟨hlen, ?_, hout⟩
    rw [show fl.received = [] from hprod]
    exact ⟨H.fed_new, rfl⟩
  | compare hp hhex =>
    rw [hp] at hprod
    exact ⟨hlen, ⟨hprod.1.finalize.symm.trans hhex, hprod.2⟩, hout⟩
  | publish hp =>
    rw [hp] at hprod
    refine ⟨hlen, hprod, fun o ho => ?_⟩
    cases ho
    exact hprod
  | leave hp hp' =>
    refine ⟨hlen, ?_, hout⟩
    rcases hp' with rfl | rfl <;> trivial
  | opened hp =>
    rw [hp] at hprod
    exact ⟨hlen, hprod, hout⟩
  | flush hp =>
    rw [hp] at hprod
    exact ⟨hlen, hprod, hout⟩
  | rename hp =>
    rw [hp] at hprod
    exact ⟨hlen, hprod, hout⟩
  | refused hp => exact ⟨hlen, trivial, hout⟩
  | noFile hp => exact ⟨hlen, trivial, hout⟩
  | fail e hp => exact ⟨hlen, trivial, hout⟩
  | remove hp => exact ⟨hlen, trivial, hout⟩
  | leftover hp => exact ⟨hlen, trivial, hout⟩
  | cache hp => exact ⟨hlen, trivial, hout⟩
  | _ =>
    rename_i hp
    rw [hp] at hprod
    exact ⟨hlen, hprod, hout⟩

/-! ## What was emitted -/

/-- A body has emitted the received bytes up to its offset, reads the file of its flight, and has
ended only after everything was received. -/
structure Body.Faithful (fl : Flight H) (b : Body) : Prop where
  offset : b.offset ≤ fl.received.length
  emitted : b.emitted = fl.received.take b.offset
  reading : ∀ {toRead file}, b.state = .reading toRead file → fl.file = some file
  ended : b.state = .ended → b.emitted = fl.received ∧ ∃ n, fl.entry.outcome = some (.success n)

/-- Reading on from the offset. -/
theorem take_append_read {received contents buffer : Bytes} (h : contents ++ buffer = received)
    (offset k : Nat) :
    received.take offset ++ (contents.drop offset).take k =
      received.take (offset + ((contents.drop offset).take k).length) ∧
    (offset ≤ received.length →
      offset + ((contents.drop offset).take k).length ≤ received.length) := by
  subst h
  by_cases hle : offset ≤ contents.length
  · have hlen : ((contents.drop offset).take k).length ≤ contents.length - offset := by
      simp only [List.length_take, List.length_drop]
      omega
    refine ⟨?_, fun _ => by simp only [List.length_append]; omega⟩
    rw [List.take_append_of_le_length hle, List.take_append_of_le_length (by omega), List.take_add,
      List.length_take, ← List.take_eq_take_min]
  · have hnil : contents.drop offset = [] := List.drop_eq_nil_of_le (by omega)
    simp [hnil]

theorem Body.Step.faithful {fl : Flight H} {disk : Disk Path} {env : Env} {b b' : Body}
    (h : b.Step fl disk env b') (hb : b.Faithful fl) (hcounted : fl.Counted)
    (hcontents : ∀ {file}, fl.file = some file → disk.contents file ++ fl.buffer = fl.received)
    (hown : ∀ {high file}, b.state = .opening high → disk.entry fl.entry.tempfile = some file →
      fl.file = some file) : b'.Faithful fl := by
  obtain ⟨hoffset, hemitted, hreading, hended⟩ := hb
  cases h with
  | opened hs hfile =>
    refine ⟨hoffset, hemitted, fun he => ?_, nofun⟩
    cases he
    exact hown hs hfile
  | read hs =>
    rename_i toRead file
    obtain ⟨happend, hle⟩ := take_append_read (hcontents (hreading hs)) b.offset
      (min toRead (max 1 env.count))
    have hle := hle hoffset
    have hadd : saturatingAdd b.offset (readAt disk env b.offset toRead file).length =
        b.offset + (readAt disk env b.offset toRead file).length := by
      have hsmall := hcounted.small
      unfold saturatingAdd readAt
      omega
    refine ⟨?_, ?_, nofun, nofun⟩
    · show saturatingAdd _ _ ≤ _
      rw [hadd]
      exact hle
    · show b.emitted ++ _ = fl.received.take (saturatingAdd _ _)
      rw [hadd, hemitted]
      exact happend
  | done hs ho hle =>
    refine ⟨hoffset, hemitted, nofun, fun _ => ⟨?_, _, ho⟩⟩
    obtain ⟨-, hn⟩ := hcounted.outcome _ ho
    rw [show b.emitted = _ from hemitted]
    exact List.take_of_length_le (by omega)
  | _ => exact ⟨hoffset, hemitted, nofun, nofun⟩

theorem Flight.Step.faithful {root : Path} {env : Env} {disk disk' : Disk Path} {fl fl' : Flight H}
    (h : fl.Step root env disk disk' fl') (hp : fl.Placed root) (hsent : fl.Sent) {b : Body}
    (hb : b.Faithful fl) : b.Faithful fl' := by
  obtain ⟨hoffset, hemitted, hreading, hended⟩ := hb
  -- a flight with an outcome receives and publishes nothing more
  have hended' : b.state = .ended → fl.producer.published = true := by
    intro hs
    obtain ⟨-, n, ho⟩ := hended hs
    rw [← hsent.1, ho]
    rfl
  cases h with
  | receive hprod hbuf =>
    refine ⟨?_, ?_, hreading, fun hs => ?_⟩
    · simp only [List.length_append]
      omega
    · show b.emitted = _
      rw [List.take_append_of_le_length hoffset]
      exact hemitted
    · have hpub := hended' hs
      rw [hprod] at hpub
      cases hpub
  | create hprod =>
    refine ⟨hoffset, hemitted, fun hs => ?_, hended⟩
    rw [hp.creating _ hprod] at hreading
    have hfile := hreading hs
    cases hfile
  | publish hprod =>
    refine ⟨hoffset, hemitted, hreading, fun hs => ?_⟩
    have hpub := hended' hs
    rw [hprod] at hpub
    cases hpub
  | _ => exact ⟨hoffset, hemitted, hreading, hended⟩

/-! ## Runs -/

/-- What holds of the memory in every run without a failed cleanup. -/
structure Fetching (s : Pool (Memory S) Task) : Prop where
  tracked : Tracked s.memory s.tasks
  owned : Owned s.memory
  counted : ∀ {f : Nat} {fl : Flight S.hash}, s.memory.flights[f]? = some fl → fl.Counted

theorem Fetching.idle (disk : Disk Path) (cached : Str × Digest → Bool) :
    Fetching (idleServer disk cached : Pool (Memory S) Task) :=
  ⟨tracked_of_run ((runs step anyStep).refl _), Owned.idle disk cached, nofun⟩

theorem Fetching.step {s t : Pool (Memory S) Task} {a : Act} (h : Fetching s)
    (htidy : tidy s a = true) (hstep : Step s a t) : Fetching t := by
  refine ⟨tracked_step h.tracked hstep, owned_step h.tracked h.owned htidy hstep, ?_⟩
  intro f fl hfl
  refine all_flights_step h.counted hstep ?_ ?_ ?_ hfl
  · intro f env fl fl' ha hfl hfstep
    refine counted_step hfstep (h.tracked.sent hfl) (h.counted hfl) fun hp => ?_
    simpa [ha, tidy, hfl, hp] using htidy
  · intro fl n hc
    exact ⟨hc.small, hc.producer, hc.outcome⟩
  · exact counted_new S.root

/-- A body that opens the path finds the file of its own flight there, or nothing. -/
def opensOwn (disk : Disk Path) (fl : Flight H) (b : Body) : Bool :=
  match b.state with
  | .opening _ => (disk.entry fl.entry.tempfile).all fun file => fl.file = some file
  | _ => true

/-- The step is tidy, and a body that opens its path finds the file of its own fetch there, or
nothing. -/
def OwnFiles (s : Pool (Memory S) Task) (a : Act) : Prop :=
  tidy s a = true ∧ onPolls opensOwn s a = true

instance : DecidableRel (OwnFiles : Pool (Memory S) Task → Act → Prop) :=
  fun _ _ => inferInstanceAs (Decidable (_ ∧ _))

theorem faithful_step {s t : Pool (Memory S) Task} {a : Act} (h : Fetching s)
    (hb : AllBodies (fun fl b => b.Faithful fl) s) (hown : OwnFiles s a) (hstep : Step s a t) :
    AllBodies (fun fl b => b.Faithful fl) t := by
  refine hb.step h.tracked hstep ?_ ?_ ?_ ?_ ?_
  · intro f env fl disk fl' b _ hfl hfstep _ hfaith
    exact hfstep.faithful (h.owned.placed hfl) (h.tracked.sent hfl) hfaith
  · intro fl b n hfaith
    exact ⟨hfaith.offset, hfaith.emitted, hfaith.reading, hfaith.ended⟩
  · intro i env r b b' fl ha hget hfl hbstep hfaith
    subst ha
    have hopens := of_onPolls hown.2 hget hfl
    refine hbstep.faithful hfaith (h.counted hfl) (h.owned.owns hfl).contents fun hs hentry => ?_
    simpa [opensOwn, hs, hentry] using hopens
  · intro r fl f _
    exact ⟨Nat.zero_le _, rfl, nofun, nofun⟩
  · intro r f
    exact ⟨Nat.zero_le _, rfl, nofun, nofun⟩

/-- In every run in which bodies find their own files, a body has emitted what the producer
of its flight received, and a body that ended has emitted a text of the requested digest. -/
theorem bodies_emit_own_bytes {disk : Disk Path} {cached : Str × Digest → Bool}
    {t : Pool (Memory S) Task} (hrun : (runs step OwnFiles).rel (idleServer disk cached) t)
    {r : Get} {b : Body} (hb : .body r b ∈ t.tasks) :
    ∃ fl, t.memory.flights[b.flight]? = some fl ∧ b.emitted <+: fl.received ∧
      (b.state = .ended → S.hash.hex b.emitted = r.digest.hex) := by
  have hinv : Fetching t ∧ AllBodies (fun fl b => b.Faithful fl) t := by
    refine Evolution.star_keep
      (I := fun u : Pool (Memory S) Task => Fetching u ∧ AllBodies (fun fl b => b.Faithful fl) u)
      ?_ hrun ⟨Fetching.idle disk cached, AllBodies.init _ disk cached⟩
    intro u v huv hu
    obtain ⟨a, hown, hstep⟩ := huv
    have hstep := step_of_eq hstep
    exact ⟨hu.1.step hown.1 hstep, faithful_step hu.1 hu.2 hown hstep⟩
  obtain ⟨fl, hfl, hdigest⟩ := hinv.1.tracked.held _ hb _ _ rfl
  have hfaith := hinv.2 r b hb fl hfl
  refine ⟨fl, hfl, ?_, fun hs => ?_⟩
  · rw [hfaith.emitted]
    exact List.take_prefix ..
  · obtain ⟨hall, n, ho⟩ := hfaith.ended hs
    rw [hall, ← hdigest]
    exact ((hinv.1.counted hfl).outcome _ ho).1

/-- The bodies of a server with their requests. -/
def Task.toBody : Task → Option (Get × Body)
  | .body r b => some (r, b)
  | _ => none

theorem mem_of_toBody {tasks : List Task} {x : Get × Body} (h : x ∈ tasks.filterMap Task.toBody) :
    .body x.1 x.2 ∈ tasks := by
  obtain ⟨p, hp, hx⟩ := List.mem_filterMap.mp h
  cases p <;> cases hx
  exact hp

/-- A body that keeps up with the fetch emits all of it and ends. -/
theorem prompt_body_emits_blob :
    ∃ t : Pool (Memory proxySetup) Task,
      (runs step OwnFiles).rel (idleServer .empty fun _ => false) t ∧
      ∃ r b, .body r b ∈ t.tasks ∧ b.state = .ended ∧ Sha256.hex b.emitted = r.digest.hex := by
  obtain ⟨t, hrun, x, hx, hs⟩ := exists_run_of_follow step OwnFiles
    (idleServer .empty fun _ => false : Pool (Memory proxySetup) Task)
    (oneBody ++ firstChunk 0 [97, 98] ++ List.replicate 3 (.turn 0 (served [])) ++ restOfFetch 0 ++
      List.replicate 2 (.turn 0 (served [])))
    (fun t => ∃ x ∈ t.tasks.filterMap Task.toBody, x.2.state = .ended) (by decide +kernel)
  obtain ⟨fl, -, -, hhex⟩ := bodies_emit_own_bytes hrun (mem_of_toBody hx)
  exact ⟨t, hrun, x.1, x.2, mem_of_toBody hx, hs, hhex hs⟩

/-- A body is about to open the file when its fetch succeeds. The blob is deleted, and a second
fetch of the digest, from an upstream that now sends other bytes, has received its first chunk
when the body goes on: it emits that chunk and ends. -/
def slowBody : List Act :=
  oneBody ++ firstChunk 0 [97, 98] ++ [.turn 0 (served [])] ++ restOfFetch 0 ++
    [.delete "pub/x".toList ⟨Sha256.hex [97, 98]⟩, .turn 1 (served []), .turn 1 (served []),
      .request (getAb "pub/x".toList true), .turn 2 (served []), .turn 2 (served []),
      .turn 2 (served [])] ++
    firstChunk 1 [120, 121] ++ List.replicate 4 (.turn 0 (served []))

theorem later_fetch_feeds_old_body :
    ∃ t : Pool (Memory proxySetup) Task,
      (runs step anyStep).rel (idleServer .empty fun _ => false) t ∧
      ∃ r b, .body r b ∈ t.tasks ∧ b.state = .ended ∧
        (∃ fl, t.memory.flights[b.flight]? = some fl ∧ ¬ b.emitted <+: fl.received) ∧
        Sha256.hex b.emitted ≠ r.digest.hex := by
  obtain ⟨t, hrun, x, hx, hs, hfl, hhex⟩ := exists_run_of_follow step anyStep
    (idleServer .empty fun _ => false : Pool (Memory proxySetup) Task) slowBody
    (fun t => ∃ x ∈ t.tasks.filterMap Task.toBody, x.2.state = .ended ∧
      (∃ fl ∈ t.memory.flights[x.2.flight]?, ¬ x.2.emitted <+: fl.received) ∧
      Sha256.hex x.2.emitted ≠ x.1.digest.hex) (by decide +kernel)
  obtain ⟨fl, hfl, hprefix⟩ := hfl
  exact ⟨t, hrun, x.1, x.2, mem_of_toBody hx, hs, ⟨fl, hfl, hprefix⟩, hhex⟩

end Quill.PullThrough
