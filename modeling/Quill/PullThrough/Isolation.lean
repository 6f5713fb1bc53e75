import Quill.PullThrough.Delivery

/-!
# Repositories share fetches

The in-flight table has one entry a digest, while upstream, temporary file and blob are those of the
repository whose request came first. So a request of another repository gets that
repository's blob, even where its own upstream refuses it, and nothing is stored for it
(`joined_fetch_crosses_repos`).

When every request that joins a fetch has the repository of the fetch (`Separate`), each is
answered as its own upstream answers, and a request that was served has its blob on disk
(`repos_are_independent`).
-/

namespace Quill.PullThrough

open Text Files Cas LocalStorage Uploads

variable {S : Setup} {H : StreamingHash}

/-- The upstreams: by prefix, repository and digest, the stream of a blob or a refusal. -/
abbrev Upstreams := Str → Str → Digest → Option (List (Option Bytes))

variable {U : Upstreams}

/-- What the upstream that the repository is routed to answers. -/
def upstreamReply (S : Setup) (U : Upstreams) (repo : Str) (d : Digest) :
    Option (List (Option Bytes)) :=
  (S.route repo).bind fun p => U p repo d

/-- The stream ends without an error and has the digest. -/
def streamOk (H : StreamingHash) (d : Digest) (stream : List (Option Bytes)) : Bool :=
  stream.all Option.isSome && H.hex (stream.filterMap id).flatten = d.hex

/-- Streaming the blob for the repository succeeds. -/
def fetchOk (S : Setup) (U : Upstreams) (repo : Str) (d : Digest) : Bool :=
  (upstreamReply S U repo d).any (streamOk S.hash d)

theorem streamOk_iff {d : Digest} {stream : List (Option Bytes)} :
    streamOk H d stream = true ↔
      ∃ chunks : List Bytes, stream = chunks.map some ∧ H.hex chunks.flatten = d.hex := by
  constructor
  · intro h
    simp only [streamOk, Bool.and_eq_true, decide_eq_true_eq] at h
    obtain ⟨hall, hhex⟩ := h
    refine ⟨stream.filterMap id, ?_, hhex⟩
    clear hhex
    induction stream with
    | nil => rfl
    | cons c stream ih =>
      simp only [List.all_cons, Bool.and_eq_true] at hall
      obtain ⟨b, rfl⟩ := Option.isSome_iff_exists.mp hall.1
      simpa using ih hall.2
  · rintro ⟨chunks, rfl, hhex⟩
    simp [streamOk, hhex]

/-! ## Flights -/

/-- The producer has received the beginning of its stream, or all of it. -/
def Producer.Consumed (received : Bytes) (upstream : Option (List (Option Bytes))) :
    Producer H → Prop
  | .creating stream => received = [] ∧ upstream = some stream
  | .receiving rest _ _ | .advancing rest _ _ | .notifying rest _ _ =>
    ∃ chunks : List Bytes, upstream = some (chunks.map some ++ rest) ∧ received = chunks.flatten
  | .flushing _ _ | .comparing _ _ | .promoting _
  | .finishing (.success _) | .publishing (.success _) | .waking (.success _)
  | .leaving (.success _) =>
    ∃ chunks : List Bytes, upstream = some (chunks.map some) ∧ received = chunks.flatten
  | _ => True

/-- The producer has renamed its file to the blob and not yet published its success. -/
def Producer.promoted : Producer H → Bool
  | .finishing (.success _) | .publishing (.success _) => true
  | _ => false

/-- A flight follows the answer of its upstream, and its success puts the blob in place. -/
structure Flight.Serves (S : Setup) (U : Upstreams) (disk : Disk Path) (fl : Flight H) : Prop where
  unasked : fl.producer = .opening → fl.upstream = none
  asked : fl.producer ≠ .opening → fl.upstream = upstreamReply S U fl.repo fl.entry.digest
  consumed : fl.producer.Consumed fl.received fl.upstream
  whole : ∀ n, fl.entry.outcome = some (.success n) →
    ∃ chunks : List Bytes, fl.upstream = some (chunks.map some) ∧ fl.received = chunks.flatten
  stored : fl.producer.promoted = true ∨ (∃ n, fl.entry.outcome = some (.success n)) →
    (disk.entry (blobPath S.root fl.repo fl.entry.digest)).isSome = true

theorem Flight.OnDisk.keeps_blob {root : Path} {disk disk' : Disk Path} {fl fl' : Flight H}
    (h : fl.OnDisk root disk disk' fl') (hp : fl.Placed root) {repo : Str} {d : Digest}
    (hb : (disk.entry (blobPath root repo d)).isSome = true) :
    (disk'.entry (blobPath root repo d)).isSome = true := by
  have hne : blobPath root repo d ≠ fl.entry.tempfile := by
    rw [hp.path]
    exact (tempfilePath_ne_blobPath _ _ _ _ _).symm
  cases h with
  | quiet => exact hb
  | receive => exact hb
  | create =>
    rw [Disk.create_entry, Function.update_of_ne hne]
    exact hb
  | rename hfile hbuffer hreceived hholding hholding' hren =>
    obtain ⟨file, -, -, -, hentry⟩ := Disk.rename_eq_some hren
    rw [hentry]
    by_cases heq : blobPath root repo d = blobPath root fl.repo fl.entry.digest
    · rw [heq, Function.update_self]
      rfl
    · rw [Function.update_of_ne heq, Function.update_of_ne hne]
      exact hb
  | remove =>
    rw [Disk.remove_entry, Function.update_of_ne hne]
    exact hb

/-- The blob of a flight whose outcome is known, as its upstream has it. -/
theorem Flight.Serves.outcome {fl : Flight S.hash} {disk : Disk Path} (h : fl.Serves S U disk)
    (hsent : fl.Sent) (hcounted : fl.Counted) (ht : fl.OnTrack) :
    (∀ n, fl.entry.outcome = some (.success n) → fetchOk S U fl.repo fl.entry.digest = true) ∧
      (∀ e, fl.entry.outcome = some (.failed e) → fetchOk S U fl.repo fl.entry.digest = false) := by
  have hasked : ∀ {o}, fl.entry.outcome = some o →
      fl.upstream = upstreamReply S U fl.repo fl.entry.digest := by
    intro o ho
    refine h.asked fun hprod => ?_
    have hout := hsent.1
    rw [ho, hprod] at hout
    cases hout
  constructor
  · intro n ho
    obtain ⟨chunks, hup, hrec⟩ := h.whole n ho
    have hhex := (hcounted.outcome _ ho).1
    unfold fetchOk
    rw [← hasked ho, hup, Option.any_some]
    exact streamOk_iff.mpr ⟨chunks, rfl, by rw [← hrec]; exact hhex⟩
  · intro e ho
    cases hok : fetchOk S U fl.repo fl.entry.digest with
    | false => rfl
    | true =>
      unfold fetchOk at hok
      rw [← hasked ho] at hok
      cases hup : fl.upstream with
      | none =>
        rw [hup] at hok
        cases hok
      | some stream =>
        rw [hup, Option.any_some] at hok
        obtain ⟨chunks, rfl, hhex⟩ := streamOk_iff.mp hok
        exact absurd ho ((ht chunks hup hhex).2 e)

theorem serves_new (repo : Str) (d : Digest) (disk : Disk Path) :
    (Flight.new S.root repo d : Flight S.hash).Serves S U disk :=
  ⟨fun _ => rfl, fun h => absurd rfl h, trivial, nofun, by rintro (h | ⟨n, h⟩) <;> cases h⟩

section Step

variable {env : Env} {disk disk' : Disk Path} {fl fl' : Flight S.hash}

theorem Flight.Step.not_opening (h : fl.Step S.root env disk disk' fl') : fl'.producer ≠ .opening := by
  cases h with
  | leave hprod hprod' => rcases hprod' with rfl | rfl <;> nofun
  | _ => nofun

/-- The stream of a flight is what its upstream answered when it was asked. -/
theorem Flight.Step.asked (h : fl.Step S.root env disk disk' fl') (hs : fl.Serves S U disk)
    (htruth : fl.producer = .opening → env.reply = upstreamReply S U fl.repo fl.entry.digest) :
    fl'.upstream = upstreamReply S U fl'.repo fl'.entry.digest := by
  cases h with
  | refused hprod hreply => exact (hs.unasked hprod).trans (hreply.symm.trans (htruth hprod))
  | opened hprod hreply => exact hreply.symm.trans (htruth hprod)
  | fail e hprod =>
    refine hs.asked fun hopen => ?_
    rw [hopen] at hprod
    exact hprod
  | create hprod | noFile hprod | receive hprod | store hprod | notify hprod | endOfStream hprod
  | flush hprod | compare hprod | rename hprod | remove hprod | leftover hprod | finish hprod
  | publish hprod | wake hprod | leave hprod | cache hprod => exact hs.asked (by rw [hprod]; nofun)

theorem Flight.Step.consumed (h : fl.Step S.root env disk disk' fl') (hs : fl.Serves S U disk)
    (hcounted : fl.Counted) : fl'.producer.Consumed fl'.received fl'.upstream := by
  have hcons : ∀ {p}, fl.producer = p → p.Consumed fl.received fl.upstream := fun hp => hp ▸ hs.consumed
  cases h with
  | refused | noFile | fail | remove | leftover | cache => trivial
  | leave _ hprod' => rcases hprod' with rfl | rfl <;> trivial
  | opened hprod =>
    have hrec := hcounted.producer
    rw [hprod] at hrec
    exact ⟨hrec, rfl⟩
  | create hprod =>
    obtain ⟨hrec, hup⟩ := hcons hprod
    exact ⟨[], hup, hrec⟩
  | @receive chunk _ _ _ hprod =>
    obtain ⟨chunks, hup, hrec⟩ := hcons hprod
    refine ⟨chunks ++ [chunk], by simpa using hup, ?_⟩
    rw [show fl.received = chunks.flatten from hrec]
    simp
  | endOfStream hprod =>
    obtain ⟨chunks, hup, hrec⟩ := hcons hprod
    exact ⟨chunks, by simpa using hup, hrec⟩
  | store hprod | notify hprod | flush hprod | compare hprod | rename hprod =>
    have hthen := hcons hprod
    exact hthen
  | @finish o hprod | @publish o hprod | @wake o hprod =>
    have hthen := hcons hprod
    cases o <;> exact hthen

theorem Flight.Step.whole (h : fl.Step S.root env disk disk' fl') (hs : fl.Serves S U disk)
    (hsent : fl.Sent) {n : Nat} (ho : fl'.entry.outcome = some (.success n)) :
    ∃ chunks : List Bytes, fl'.upstream = some (chunks.map some) ∧ fl'.received = chunks.flatten := by
  -- no outcome is known before the last steps
  have hnone : ∀ {p}, fl.producer = p → p.published = false → fl.entry.outcome ≠ some (.success n) := by
    intro p hp hpub ho
    have hout := hsent.1
    rw [ho, hp, hpub] at hout
    cases hout
  cases h with
  | opened hprod => exact absurd ho (hnone hprod rfl)
  | receive hprod => exact absurd ho (hnone hprod rfl)
  | publish hprod =>
    cases ho
    have hcons := hs.consumed
    rw [hprod] at hcons
    exact hcons
  | _ => exact hs.whole n ho

/-- The blob of a success is there from the renaming on. -/
theorem Flight.Step.stored (h : fl.Step S.root env disk disk' fl') (hs : fl.Serves S U disk)
    (hp : fl.Placed S.root) (htidy : ∀ e, fl.producer = .removing e → env.ok = true)
    (hst : fl'.producer.promoted = true ∨ ∃ n, fl'.entry.outcome = some (.success n)) :
    (disk'.entry (blobPath S.root fl'.repo fl'.entry.digest)).isSome = true := by
  have hkeep := fun hb : (disk.entry (blobPath S.root fl.repo fl.entry.digest)).isSome = true =>
    (h.onDisk hp htidy).keeps_blob hp hb
  have hstored := hs.stored
  cases h with
  | rename hprod hren =>
    obtain ⟨file, -, -, -, hentry⟩ := Disk.rename_eq_some hren
    rw [hentry, Function.update_self]
    rfl
  | @finish o hprod =>
    rw [hprod] at hstored
    refine hkeep (hstored ?_)
    cases o <;> exact hst
  | @publish o hprod =>
    rw [hprod] at hstored
    refine hkeep (hstored ?_)
    cases o with
    | success n => exact .inl rfl
    | failed e => rcases hst with hst | ⟨n, hst⟩ <;> cases hst
  | leave _ hprod' => rcases hprod' with rfl | rfl <;> exact hkeep (hstored (.inr (hst.resolve_left nofun)))
  | _ => exact hkeep (hstored (.inr (hst.resolve_left nofun)))

/-- The step of a producer whose upstream answers as `U` says. -/
theorem serves_step (h : fl.Step S.root env disk disk' fl') (hp : fl.Placed S.root) (hsent : fl.Sent)
    (hcounted : fl.Counted) (hs : fl.Serves S U disk)
    (htidy : ∀ e, fl.producer = .removing e → env.ok = true)
    (htruth : fl.producer = .opening → env.reply = upstreamReply S U fl.repo fl.entry.digest) :
    fl'.Serves S U disk' where
  unasked hopen := absurd hopen h.not_opening
  asked _ := h.asked hs htruth
  consumed := h.consumed hs hcounted
  whole _ ho := h.whole hs hsent ho
  stored hst := h.stored hs hp htidy hst

end Step

/-! ## Runs -/

/-- Every request joins a fetch of its own repository or starts one. -/
def joinsOwn (s : Pool (Memory S) Task) : Act → Bool
  | .turn i _ =>
    match s.tasks[i]? with
    | some (.join r) =>
      (s.memory.table r.digest).all fun f => s.memory.flights[f]?.all fun fl => fl.repo = r.repo
    | _ => true
  | _ => true

/-- The upstreams answer as `U` says, no blob is deleted and no file-system call fails. -/
def environment (U : Upstreams) (s : Pool (Memory S) Task) : Act → Bool
  | .produce f env =>
    env.ok && s.memory.flights[f]?.all fun fl =>
      match fl.producer with
      | .opening => env.reply = upstreamReply S U fl.repo fl.entry.digest
      | _ => true
  | .turn _ env => env.ok
  | .delete _ _ => false
  | _ => true

/-- A body of a fetch that succeeds finds the file of its flight whenever it opens it. -/
def findsFileIfOk (S : Setup) (U : Upstreams) (disk : Disk Path) (fl : Flight H) (b : Body) : Bool :=
  match b.state with
  | .opening _ =>
    !fetchOk S U fl.repo fl.entry.digest ||
      fl.file.isSome && disk.entry fl.entry.tempfile = fl.file
  | _ => true

/-- The upstreams answer as `U` says and nothing else interferes, a body of a fetch that succeeds
finds its file, and a request joins only a fetch of its own repository. -/
def Separate (U : Upstreams) (s : Pool (Memory S) Task) (a : Act) : Prop :=
  environment U s a = true ∧ tidy s a = true ∧ onPolls (findsFileIfOk S U) s a = true ∧
    joinsOwn s a = true

instance : DecidableRel (Separate U : Pool (Memory S) Task → Act → Prop) :=
  fun _ _ => inferInstanceAs (Decidable (_ ∧ _ ∧ _ ∧ _))

/-- The blob of the request is on disk. -/
def Get.Stored (S : Setup) (disk : Disk Path) (r : Get) : Prop :=
  (disk.entry (blobPath S.root r.repo r.digest)).isSome = true

/-- What a request was told is what its own upstream says, and what it was served is on disk. -/
def Task.Told (S : Setup) (U : Upstreams) (disk : Disk Path) : Task → Prop
  | .answered r (.headOk _) => fetchOk S U r.repo r.digest = true ∧ r.Stored S disk
  | .answered r .blobUnknown => fetchOk S U r.repo r.digest = false
  | .body r b =>
    (b.state = .ended → fetchOk S U r.repo r.digest = true ∧ r.Stored S disk) ∧
      ∀ e, b.state = .failed e → fetchOk S U r.repo r.digest = false
  | .removing _ _ => False
  | _ => True

/-- The invariant: every flight serves the repository of the requests that hold it, and what they
were told is true of that repository. -/
structure Separated (U : Upstreams) (s : Pool (Memory S) Task) : Prop where
  fetching : Fetching s
  onTrack : ∀ {j : Nat} {fl : Flight S.hash}, s.memory.flights[j]? = some fl → fl.OnTrack
  serves : ∀ {j : Nat} {fl : Flight S.hash}, s.memory.flights[j]? = some fl →
    fl.Serves S U s.memory.disk
  repo : ∀ p ∈ s.tasks, ∀ r f fl, p.holds = some (r, f) → s.memory.flights[f]? = some fl →
    fl.repo = r.repo
  told : ∀ p ∈ s.tasks, p.Told S U s.memory.disk

theorem Task.Told.mono {disk disk' : Disk Path} {p : Task} (h : p.Told S U disk)
    (hkeep : ∀ r : Get, r.Stored S disk → r.Stored S disk') : p.Told S U disk' := by
  cases p with
  | answered r a =>
    cases a with
    | headOk n => exact ⟨h.1, hkeep r h.2⟩
    | _ => exact h
  | body r b => exact ⟨fun hs => ⟨(h.1 hs).1, hkeep r (h.1 hs).2⟩, h.2⟩
  | _ => exact h

theorem Flight.Serves.mono {disk disk' : Disk Path} {fl : Flight S.hash} (h : fl.Serves S U disk)
    (hkeep : ∀ r : Get, r.Stored S disk → r.Stored S disk') : fl.Serves S U disk' :=
  ⟨h.unasked, h.asked, h.consumed, h.whole,
    fun hst => hkeep ⟨fl.repo, fl.entry.digest, true, 0⟩ (h.stored hst)⟩

namespace Separated

variable {s : Pool (Memory S) Task} {m : Memory S} {f : Nat} {fl fl' : Flight S.hash} {env : Env}
  {disk : Disk Path} {p p' : Task}

/-- What a request that holds a flight learns from its outcome. -/
theorem outcome (h : Separated U s) (hp : p ∈ s.tasks) {r : Get} (hholds : p.holds = some (r, f))
    (hfl : s.memory.flights[f]? = some fl) :
    (∀ n, fl.entry.outcome = some (.success n) →
      fetchOk S U r.repo r.digest = true ∧ r.Stored S s.memory.disk) ∧
    (∀ e, fl.entry.outcome = some (.failed e) → fetchOk S U r.repo r.digest = false) := by
  obtain ⟨g, hg, hdigest⟩ := h.fetching.tracked.held p hp r f hholds
  obtain rfl : fl = g := Option.some.inj (hfl.symm.trans hg)
  have hrepo := h.repo p hp r f fl hholds hfl
  have hserves := h.serves hfl
  obtain ⟨hok, hbad⟩ := hserves.outcome (h.fetching.tracked.sent hfl) (h.fetching.counted hfl)
    (h.onTrack hfl)
  rw [hrepo, hdigest] at hok hbad
  refine ⟨fun n ho => ⟨hok n ho, ?_⟩, hbad⟩
  have hstored := hserves.stored (.inr ⟨n, ho⟩)
  rw [hrepo, hdigest] at hstored
  exact hstored

theorem poll (h : Separated U s) {r : Get} {b b' : Body} (hp : .body r b ∈ s.tasks)
    (hfl : s.memory.flights[b.flight]? = some fl) (hstep : b.Step fl s.memory.disk env b')
    (hok : env.ok = true) (hfinds : findsFileIfOk S U s.memory.disk fl b = true) :
    (Task.body r b').Told S U s.memory.disk := by
  obtain ⟨hgood, hbad⟩ := h.outcome hp rfl hfl
  cases hstep with
  | done hs ho hle => exact ⟨fun _ => hgood _ ho, nofun⟩
  | broken hs ho => exact ⟨nofun, fun _ _ => hbad _ ho⟩
  | missing hs hnone =>
    refine ⟨nofun, fun _ _ => ?_⟩
    obtain ⟨g, hg, hdigest⟩ := h.fetching.tracked.held _ hp r _ rfl
    obtain rfl : fl = g := Option.some.inj (hfl.symm.trans hg)
    have hrepo := h.repo _ hp r _ fl rfl hfl
    cases hfetch : fetchOk S U r.repo r.digest with
    | false => rfl
    | true =>
      rw [← hrepo, ← hdigest] at hfetch
      simp only [findsFileIfOk, hs, hfetch, Bool.not_true, Bool.false_or, Bool.and_eq_true,
        decide_eq_true_eq] at hfinds
      obtain ⟨hsome, hentry⟩ := hfinds
      rw [← hentry, hnone] at hsome
      cases hsome
  | fault hfault =>
    rw [hok] at hfault
    cases hfault
  | _ => exact ⟨nofun, nofun⟩

theorem told_of_step (h : Separated U s) (hp : p ∈ s.tasks) (hstep : Task.Step env s.memory p m p')
    (hok : env.ok = true)
    (hfinds : ∀ r b fl, p = .body r b → s.memory.flights[b.flight]? = some fl →
      findsFileIfOk S U s.memory.disk fl b = true) : p'.Told S U s.memory.disk := by
  have hattach : ∀ (r : Get) (f : Nat), (r.attach f).Told S U s.memory.disk := by
    intro r f
    unfold Get.attach
    split
    · exact ⟨nofun, nofun⟩
    · trivial
  cases hstep with
  | unrouted hroute =>
    show fetchOk S U _ _ = false
    simp [fetchOk, upstreamReply, hroute]
  | joined htable => exact hattach _ _
  | started htable => exact hattach _ _
  | headSuccess hfl ho => exact (h.outcome hp rfl hfl).1 _ ho
  | headFailed hfl ho => exact (h.outcome hp rfl hfl).2 _ ho
  | polled hfl hbstep => exact h.poll hp hfl hbstep hok (hfinds _ _ _ rfl hfl)
  | removed => exact (h.told _ hp).elim
  | _ => trivial

end Separated

theorem stored_step {s t : Pool (Memory S) Task} {a : Act} (h : Separated U s)
    (htidy : tidy s a = true) (hstep : Step s a t) (r : Get)
    (hr : r.Stored S s.memory.disk) : r.Stored S t.memory.disk := by
  cases hstep with
  | request r' => exact hr
  | delete repo d => exact hr
  | land hfl hfile => exact hr
  | produce hfl hfstep =>
    have hplaced := h.fetching.owned.placed hfl
    refine (hfstep.onDisk hplaced fun e he => ?_).keeps_blob hplaced hr
    simpa [tidy, hfl, he] using htidy
  | turn hget htasks htstep =>
    cases htstep with
    | removed => exact (h.told _ (List.mem_of_getElem? hget)).elim
    | _ => exact hr

/-- A request that joins a flight of its own repository holds one. -/
theorem held_repo_step {s t : Pool (Memory S) Task} {a : Act} (h : Separated U s)
    (hjoins : joinsOwn s a = true) (hstep : Step s a t) {p : Task} (hp : p ∈ t.tasks) {r : Get}
    {f : Nat} {fl : Flight S.hash} (hholds : p.holds = some (r, f))
    (hfl : t.memory.flights[f]? = some fl) : fl.repo = r.repo := by
  have hold : ∀ {q : Task}, q ∈ s.tasks → q.holds = some (r, f) → fl.repo = r.repo := by
    intro q hq hqholds
    obtain ⟨g, hg, -⟩ := h.fetching.tracked.held q hq r f hqholds
    exact (repo_of_step hstep hg hfl).trans (h.repo q hq r f g hqholds hg)
  cases hstep with
  | request r' =>
    rcases List.mem_append.mp hp with hp | hp
    · exact hold hp hholds
    · rw [List.mem_singleton.mp hp] at hholds
      cases hholds
  | delete repo d =>
    rcases List.mem_append.mp hp with hp | hp
    · exact hold hp hholds
    · rw [List.mem_singleton.mp hp] at hholds
      cases hholds
  | produce hfl₀ hfstep => exact hold hp hholds
  | land hfl₀ hfile => exact hold hp hholds
  | turn hget htasks htstep =>
    rcases Pool.mem_replace hp with rfl | ⟨-, hp⟩
    · have hmem := List.mem_of_getElem? hget
      cases htstep with
      | joined htable =>
        rw [holds_attach] at hholds
        cases hholds
        simpa [joinsOwn, hget, htable, hfl] using hjoins
      | started htable =>
        rw [holds_attach] at hholds
        cases hholds
        rw [show _ = some _ from List.getElem?_concat_length] at hfl
        cases hfl
        rfl
      | polled hfl₀ hbstep =>
        refine hold hmem ?_
        rw [← hholds]
        simp only [Task.holds, hbstep.flight]
      | _ => cases hholds
    · exact hold (by rw [htasks]; exact hp) hholds

theorem Separated.step {s t : Pool (Memory S) Task} {a : Act} (h : Separated U s)
    (hsep : Separate U s a) (hstep : Step s a t) : Separated U t := by
  obtain ⟨henv, htidy, hfinds, hjoins⟩ := hsep
  have hok : faultless a = true := by
    cases a <;> simp_all [environment, faultless]
  have hkeep := stored_step h htidy hstep
  refine ⟨h.fetching.step htidy hstep, ?_, ?_, ?_, ?_⟩
  · intro j fl hfl
    exact all_onTrack_step h.fetching h.onTrack hok hstep hfl
  · intro j fl hfl
    refine all_flights_step (fun hfl => (h.serves hfl).mono hkeep) hstep ?_ ?_ ?_ hfl
    · intro f env fl fl' ha hfl hfstep
      subst ha
      refine serves_step hfstep (h.fetching.owned.placed hfl) (h.fetching.tracked.sent hfl)
        (h.fetching.counted hfl) (h.serves hfl) (fun e he => ?_) fun hopen => ?_
      · simpa [tidy, hfl, he] using htidy
      · simp only [environment, hfl, Option.all_some, hopen, Bool.and_eq_true,
          decide_eq_true_eq] at henv
        exact henv.2
    · intro fl n hs
      exact ⟨hs.unasked, hs.asked, hs.consumed, hs.whole, hs.stored⟩
    · intro repo d
      exact serves_new repo d _
  · intro p hp r f fl hholds hfl
    exact held_repo_step h hjoins hstep hp hholds hfl
  · intro p hp
    cases hstep with
    | request r =>
      rcases List.mem_append.mp hp with hp | hp
      · exact h.told p hp
      · rw [List.mem_singleton.mp hp]
        trivial
    | delete repo d => cases henv
    | produce hfl hfstep => exact (h.told p hp).mono hkeep
    | land hfl hfile => exact (h.told p hp).mono hkeep
    | turn hget htasks htstep =>
      rcases Pool.mem_replace hp with rfl | ⟨-, hp⟩
      · refine (h.told_of_step (List.mem_of_getElem? hget) htstep hok fun r b fl hb hfl => ?_).mono
          hkeep
        rw [hb] at hget
        exact of_onPolls hfinds hget hfl
      · exact (h.told p (by rw [htasks]; exact hp)).mono hkeep

/-- In every run in which requests only join fetches of their own repository, every request is
told what its own upstream says, and the blob of a request that was served is on disk, so that
the next request finds it there. -/
theorem repos_are_independent {disk : Disk Path} {cached : Str × Digest → Bool}
    {t : Pool (Memory S) Task} (hrun : (runs step (Separate U)).rel (idleServer disk cached) t) :
    (∀ r n, .answered r (.headOk n) ∈ t.tasks →
      fetchOk S U r.repo r.digest = true ∧ r.Stored S t.memory.disk) ∧
    (∀ r, .answered r .blobUnknown ∈ t.tasks → fetchOk S U r.repo r.digest = false) ∧
    (∀ r b, .body r b ∈ t.tasks → b.state = .ended →
      fetchOk S U r.repo r.digest = true ∧ r.Stored S t.memory.disk) ∧
    (∀ r b e, .body r b ∈ t.tasks → b.state = .failed e → fetchOk S U r.repo r.digest = false) ∧
    (∀ r env, r.Stored S t.memory.disk →
      Task.advance env t.memory (.stat r) = some (t.memory, .fill r)) := by
  have hinv : Separated U t := by
    refine Evolution.star_keep (I := fun u : Pool (Memory S) Task => Separated U u) ?_ hrun
      ⟨Fetching.idle disk cached, nofun, nofun, nofun, nofun⟩
    intro u v huv hu
    obtain ⟨a, hsep, hstep⟩ := huv
    exact hu.step hsep (step_of_eq hstep)
  refine ⟨fun r n hp => hinv.told _ hp, fun r hp => hinv.told _ hp, fun r b hp => ?_,
    fun r b e hp => ?_, fun r env hr => ?_⟩
  · exact (hinv.told _ hp).1
  · exact (hinv.told _ hp).2 e
  · unfold Get.Stored at hr
    simp only [Task.advance]
    rw [if_pos hr]

/-- One upstream has the blob `ab`, the other refuses it. -/
def onlyPublic : Upstreams := fun p _ _ => if p = "pub/".toList then some [some [97, 98]] else none

/-- A `GET` in `pub/x` and a `HEAD` in the given repository while the fetch is in flight. -/
def joinedHead (repo : Str) : List Act :=
  oneBody ++ .request (getAb repo false) :: List.replicate 3 (.turn 1 (served [])) ++
    wholeFetch 0 [97, 98] ++ [.turn 1 (served [])]

theorem one_repo_head_served :
    ∃ t : Pool (Memory proxySetup) Task,
      (runs step (Separate onlyPublic)).rel (idleServer .empty fun _ => false) t ∧
      .answered (getAb "pub/x".toList false) (.headOk 2) ∈ t.tasks ∧
      fetchOk proxySetup onlyPublic "pub/x".toList ⟨Sha256.hex [97, 98]⟩ = true ∧
      (getAb "pub/x".toList false).Stored proxySetup t.memory.disk := by
  obtain ⟨t, hrun, hp⟩ := exists_run_of_follow step (Separate onlyPublic)
    (idleServer .empty fun _ => false : Pool (Memory proxySetup) Task)
    (joinedHead "pub/x".toList)
    (fun t => .answered (getAb "pub/x".toList false) (.headOk 2) ∈ t.tasks) (by decide +kernel)
  obtain ⟨hok, hstored⟩ := (repos_are_independent hrun).1 _ _ hp
  exact ⟨t, hrun, hp, hok, hstored⟩

/-- A repository whose upstream refuses the blob is told that it exists, and nothing is stored
for it. -/
theorem joined_fetch_crosses_repos :
    ∃ t : Pool (Memory proxySetup) Task,
      (runs step fun s a => environment onlyPublic s a = true ∧ tidy s a = true ∧
        onPolls (findsFileIfOk proxySetup onlyPublic) s a = true).rel
        (idleServer .empty fun _ => false) t ∧
      .answered (getAb "priv/y".toList false) (.headOk 2) ∈ t.tasks ∧
      fetchOk proxySetup onlyPublic "priv/y".toList ⟨Sha256.hex [97, 98]⟩ = false ∧
      ¬ (getAb "priv/y".toList false).Stored proxySetup t.memory.disk := by
  obtain ⟨t, hrun, hp, hstored⟩ := exists_run_of_follow step
    (fun s a => environment onlyPublic s a = true ∧ tidy s a = true ∧
        onPolls (findsFileIfOk proxySetup onlyPublic) s a = true)
    (idleServer .empty fun _ => false : Pool (Memory proxySetup) Task)
    (joinedHead "priv/y".toList)
    (fun t => .answered (getAb "priv/y".toList false) (.headOk 2) ∈ t.tasks ∧
      (t.memory.disk.entry (blobPath proxySetup.root "priv/y".toList ⟨Sha256.hex [97, 98]⟩)).isSome =
        false) (by decide +kernel)
  refine ⟨t, hrun, hp, by decide, ?_⟩
  unfold Get.Stored getAb
  rw [hstored]
  exact Bool.false_ne_true

end Quill.PullThrough
