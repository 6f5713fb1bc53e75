import Quill.PullThrough.Frames

/-!
# Failed fetches and the bodies that tail them

A body of a fetch that has failed is to return one error. It does if two things hold. When the
failure has been published and notified, the body must not be on its way to a notification that
has passed already (`Body.misses`): a body that found no outcome creates its future too late
otherwise and waits for ever. And the reads below the high-water mark must give bytes: a body
that is behind the mark goes on reading, and as long as the file has nothing for it `poll_frame`
neither returns nor looks at the outcome.

`Tail.pollsLeft` bounds the steps to the error, over any file and any further accesses of the
producer (`reported_of_follow`). A body that misses the notification returns nothing any more
(`returned_of_misses`), and neither does one whose reads stay empty (`returned_of_starved`).
-/

namespace Quill.PullThrough

open Text Files Cas LocalStorage Uploads

variable {H : StreamingHash}

/-! ## Notifications and reads -/

/-- The body has found no outcome, and no notification so far wakes it. -/
def Body.misses (fl : Flight H) (b : Body) : Bool :=
  match b.state with
  | .unfinished => true
  | .created epoch | .waiting epoch => fl.entry.notified ≤ epoch
  | _ => false

/-- The body reads in this step, without an error, and gets no bytes. -/
def Body.starves (disk : Disk Path) (env : Env) (b : Body) : Bool :=
  match b.state with
  | .reading toRead file => env.ok && (readAt disk env b.offset toRead file).isEmpty
  | _ => false

/-- No read is empty. -/
def Feeds (s : Tail H) : Move → Prop
  | .poll disk env => s.body.starves disk env = false
  | .producer _ => True

instance : DecidableRel (Feeds : Tail H → Move → Prop) := fun s m =>
  match m with
  | .poll disk env => inferInstanceAs (Decidable (s.body.starves disk env = false))
  | .producer _ => .isTrue trivial

/-- The producer makes no further notification. -/
def Silent (_ : Tail H) : Move → Prop
  | .producer .notify => False
  | _ => True

/-- The body finds its file, and nothing in it from its offset on. -/
def Dry (s : Tail H) : Move → Prop
  | .poll disk env => env.ok = true ∧ ∃ file, disk.entry s.flight.entry.tempfile = some file ∧
      ∀ other, (disk.contents other).length ≤ s.body.offset
  | .producer _ => True

/-- Whether the step is one of the body. -/
def Move.isPoll : Move → Bool
  | .poll _ _ => true
  | .producer _ => false

/-- A bound on the steps of the body to the error of a failed fetch. -/
def Tail.pollsLeft (s : Tail H) : Nat :=
  let rest := 3 * (s.flight.entry.written - s.body.offset) + 3
  match s.body.state with
  | .unfinished => rest + 2
  | .created _ | .waiting _ => rest + 1
  | .idle | .stalled => rest
  | .opening _ => rest - 1
  | .reading _ _ => rest - 2
  | .marked => 1
  | .ended | .failed _ => 0

/-! ## The way to the error -/

/-- Nothing moves the mark of an entry that has its outcome. -/
theorem Entry.move_settled {x y : Entry} {m : EntryMove} {o : ProducerOutcome}
    (h : x.move m = some y) (ho : x.outcome = some o) : y.written = x.written ∧ y.outcome = some o := by
  rcases Entry.move_cases h with ⟨hwritten, hsame⟩ | ⟨hnone, -⟩ | ⟨o', hnone, -⟩
  · exact ⟨hwritten, hsame.trans ho⟩
  · rw [ho] at hnone
    cases hnone
  · rw [ho] at hnone
    cases hnone

/-- Only `notify` counts as a notification. -/
theorem Entry.move_notified {x y : Entry} {m : EntryMove} (h : x.move m = some y) :
    x.notified ≤ y.notified ∧ (m ≠ .notify → y.notified = x.notified) := by
  cases m with
  | notify =>
    cases h
    exact ⟨Nat.le_succ _, fun hne => absurd rfl hne⟩
  | finish =>
    cases h
    exact ⟨le_rfl, fun _ => rfl⟩
  | advance total =>
    simp only [Entry.move] at h
    split at h
    · cases h
      exact ⟨le_rfl, fun _ => rfl⟩
    · cases h
  | publish o =>
    simp only [Entry.move] at h
    split at h
    · cases h
      exact ⟨le_rfl, fun _ => rfl⟩
    · cases h

/-- What the way to the error rests on: the fetch has failed, and the body is behind the mark when
it opens the file. -/
structure Tail.Failing (s : Tail H) : Prop where
  steps : s.InStep
  failed : ∃ e, s.flight.entry.outcome = some (.failed e)
  capacity : 0 < s.body.capacity
  opening : ∀ high, s.body.state = .opening high → s.body.offset < high

/-- A body opens the file only when it is behind the mark. -/
theorem Body.Turn.opening {fl : Flight H} {disk : Disk Path} {env : Env} {b b' : Body}
    {r : Option Ready} (h : b.Turn fl disk env b' r)
    (hb : ∀ high, b.state = .opening high → b.offset < high) :
    ∀ high, b'.state = .opening high → b'.offset < high := by
  intro high hopen
  cases h with
  | pause hs hquiet =>
    simp only at hopen
    rw [hopen] at hquiet
    cases hquiet
  | behind hs hlt =>
    cases hopen
    exact hlt
  | spent hs => exact hb high hopen
  | _ => cases hopen

theorem opening_run {s t : Tail H} (h : (runs Tail.step anyStep).rel s t)
    (hs : ∀ high, s.body.state = .opening high → s.body.offset < high) :
    ∀ high, t.body.state = .opening high → t.body.offset < high := by
  refine Evolution.star_keep
    (I := fun u : Tail H => ∀ high, u.body.state = .opening high → u.body.offset < high) ?_ h hs
  rintro u v ⟨m, -, hstep⟩ hu
  cases m with
  | producer m =>
    obtain ⟨entry, -, rfl⟩ := Option.map_eq_some_iff.mp hstep
    exact hu
  | poll disk env =>
    cases hstep
    exact (u.body.turn_of_poll u.flight disk env).opening hu

theorem Tail.Failing.of_run {root : Path} {repo : Str} {d : Digest} {capacity : Nat} {s : Tail H}
    {e : PullThroughError} (hrun : (runs Tail.step anyStep).rel (Tail.new root repo d capacity) s)
    (hcapacity : 0 < s.body.capacity) (ho : s.flight.entry.outcome = some (.failed e)) : s.Failing :=
  ⟨inStep_run hrun (.new root repo d capacity), ⟨e, ho⟩, hcapacity,
    opening_run hrun fun _ hopen => by cases hopen⟩

theorem Tail.Failing.step {s t : Tail H} {m : Move} (hs : s.Failing) (h : s.step m = some t) :
    t.Failing := by
  have hone : (runs Tail.step anyStep).rel s t := .single ⟨m, trivial, h⟩
  obtain ⟨e, ho⟩ := hs.failed
  refine ⟨inStep_step hs.steps h, ⟨e, ?_⟩, ?_, opening_run hone hs.opening⟩
  · cases m with
    | producer m =>
      obtain ⟨entry, hentry, rfl⟩ := Option.map_eq_some_iff.mp h
      exact (Entry.move_settled hentry ho).2
    | poll disk env =>
      cases h
      exact ho
  · rw [capacity_run hone]
    exact hs.capacity

/-- A body that reads has something left to read. -/
theorem pollsLeft_pos {s : Tail H} (h : s.pollsLeft = 0) :
    s.body.state = .ended ∨ ∃ e, s.body.state = .failed e := by
  unfold Tail.pollsLeft at h
  cases hs : s.body.state with
  | ended => exact .inl rfl
  | failed e => exact .inr ⟨e, rfl⟩
  | _ =>
    simp only [hs] at h
    omega

/-- An access of the producer takes nothing back. -/
theorem Tail.Failing.producer {s t : Tail H} {m : EntryMove} (hs : s.Failing)
    (h : s.step (.producer m) = some t) :
    t.pollsLeft = s.pollsLeft ∧ (s.body.misses s.flight = false → t.body.misses t.flight = false) ∧
      t.returned = s.returned := by
  obtain ⟨e, ho⟩ := hs.failed
  obtain ⟨entry, hentry, rfl⟩ := Option.map_eq_some_iff.mp h
  have hwritten : entry.written = s.flight.entry.written := (Entry.move_settled hentry ho).1
  have hnotified : s.flight.entry.notified ≤ entry.notified := (Entry.move_notified hentry).1
  refine ⟨?_, fun hmiss => ?_, rfl⟩
  · simp only [Tail.pollsLeft, hwritten]
  · unfold Body.misses at hmiss ⊢
    cases hstate : s.body.state with
    | unfinished => simp [hstate] at hmiss
    | created epoch | waiting epoch =>
      simp only [hstate, decide_eq_false_iff_not, not_le] at hmiss ⊢
      omega
    | _ => rfl

/-- A step of a body that is awake and whose read is not empty leads towards the error. -/
theorem Tail.Failing.poll {s : Tail H} (hs : s.Failing) (hmiss : s.body.misses s.flight = false)
    {disk : Disk Path} {env : Env} (hfeeds : s.body.starves disk env = false) :
    (s.poll disk env).pollsLeft ≤ s.pollsLeft - 1 ∧
      (s.poll disk env).body.misses (s.poll disk env).flight = false := by
  obtain ⟨e, ho⟩ := hs.failed
  have hbelow := hs.steps.keeps.below
  cases hstate : s.body.state with
  | idle | stalled =>
    by_cases hlt : s.body.offset < s.flight.entry.written
    · simp [Tail.poll, Body.poll, Tail.pollsLeft, Body.misses, hstate, hlt]
    · simp [Tail.poll, Body.poll, Tail.pollsLeft, Body.misses, hstate, hlt]
  | marked => simp [Tail.poll, Body.poll, Tail.pollsLeft, Body.misses, hstate, ho]
  | unfinished => simp [Body.misses, hstate] at hmiss
  | created epoch | waiting epoch =>
    have hlt : epoch < s.flight.entry.notified := by simpa [Body.misses, hstate] using hmiss
    simp [Tail.poll, Body.poll, Tail.pollsLeft, Body.misses, hstate, hlt]
  | opening high =>
    have hhigh := hs.opening high hstate
    have hcapacity := hs.capacity
    have hsome : min (high - s.body.offset) s.body.capacity ≠ 0 := by omega
    cases hok : env.ok with
    | false => simp [Tail.poll, Body.poll, Tail.pollsLeft, Body.misses, hstate, hsome, hok]
    | true =>
      cases hfile : disk.entry s.flight.entry.tempfile with
      | none => simp [Tail.poll, Body.poll, Tail.pollsLeft, Body.misses, hstate, hsome, hok, hfile]
      | some file =>
        simp [Tail.poll, Body.poll, Tail.pollsLeft, Body.misses, hstate, hsome, hok, hfile]
  | reading toRead file =>
    cases hok : env.ok with
    | false => simp [Tail.poll, Body.poll, Tail.pollsLeft, Body.misses, hstate, hok]
    | true =>
      have hne : readAt disk env s.body.offset toRead file ≠ [] := by
        simpa [Body.starves, hstate, hok] using hfeeds
      have hpos := List.length_pos_of_ne_nil hne
      have hle := length_readAt_le disk env s.body.offset toRead file
      have hmark := (hs.steps.keeps.reading toRead file hstate).2
      have hsmall := hs.steps.small
      have hadd : saturatingAdd s.body.offset (readAt disk env s.body.offset toRead file).length =
          s.body.offset + (readAt disk env s.body.offset toRead file).length := by
        unfold saturatingAdd
        omega
      simp only [Tail.poll, Body.poll, Tail.pollsLeft, Body.misses, hstate, hok, if_true,
        Option.getD_some, hadd, and_true]
      omega
  | ended =>
    have hended := hs.steps.keeps.ended hstate
    rw [ho] at hended
    cases hended
  | failed e' => simp [Tail.poll, Body.poll, Tail.pollsLeft, Body.misses, hstate]

theorem pollsLeft_follow {s t : Tail H} {moves : List Move} (hs : s.Failing)
    (hmiss : s.body.misses s.flight = false) (h : follow Tail.step Feeds s moves = some t) :
    t.Failing ∧ t.pollsLeft ≤ s.pollsLeft - moves.countP Move.isPoll := by
  induction moves generalizing s with
  | nil =>
    cases h
    exact ⟨hs, by simp⟩
  | cons m moves ih =>
    unfold follow at h
    split at h
    · rename_i hfeeds
      obtain ⟨u, hstep, hrest⟩ := Option.bind_eq_some_iff.mp h
      have hu := hs.step hstep
      cases m with
      | producer m =>
        obtain ⟨hleft, hawake, -⟩ := hs.producer hstep
        obtain ⟨ht, hle⟩ := ih hu (hawake hmiss) hrest
        rw [hleft] at hle
        exact ⟨ht, by simpa [Move.isPoll] using hle⟩
      | poll disk env =>
        cases hstep
        obtain ⟨hleft, hawake⟩ := hs.poll hmiss hfeeds
        obtain ⟨ht, hle⟩ := ih hu hawake hrest
        refine ⟨ht, ?_⟩
        simp only [List.countP_cons, Move.isPoll, if_true]
        omega
    · cases h

/-- Exactly one error was returned, after frames and before `None`. -/
def Tail.Reported (s : Tail H) : Prop :=
  ∃ (frames : List Bytes) (e : PullThroughError) (k : Nat),
    s.returned = frames.map Ready.data ++ .error e :: List.replicate k .finished

/-- A body that does not miss the notification and whose reads are not empty reports the
failure. -/
theorem reported_of_follow {s t : Tail H} {moves : List Move} (hs : s.Failing)
    (hmiss : s.body.misses s.flight = false) (h : follow Tail.step Feeds s moves = some t)
    (hpolls : s.pollsLeft ≤ moves.countP Move.isPoll) : t.Reported := by
  obtain ⟨ht, hleft⟩ := pollsLeft_follow hs hmiss h
  obtain ⟨e, ho⟩ := ht.failed
  obtain ⟨frames, k, hreturned, -, -⟩ := ht.steps.accounts
  rcases pollsLeft_pos (by omega : t.pollsLeft = 0) with hended | ⟨e', hfailed⟩
  · have hsuccess := ht.steps.keeps.ended hended
    rw [ho] at hsuccess
    cases hsuccess
  · rw [hfailed] at hreturned
    exact ⟨frames, e', k, hreturned⟩

/-! ## Bodies that report nothing -/

/-- Without a further notification, a body that misses it waits for ever. -/
theorem returned_of_misses {s t : Tail H} (hmiss : s.body.misses s.flight = true)
    (h : (runs Tail.step Silent).rel s t) : t.returned = s.returned := by
  have hinv : t.body.misses t.flight = true ∧ t.returned = s.returned := by
    refine Evolution.star_keep
      (I := fun u : Tail H => u.body.misses u.flight = true ∧ u.returned = s.returned) ?_ h ⟨hmiss, rfl⟩
    rintro u v ⟨m, hsilent, hstep⟩ ⟨hu, hreturned⟩
    cases m with
    | producer m =>
      obtain ⟨entry, hentry, rfl⟩ := Option.map_eq_some_iff.mp hstep
      have hnotified : entry.notified = u.flight.entry.notified := by
        refine (Entry.move_notified hentry).2 ?_
        rintro rfl
        exact hsilent.elim
      refine ⟨?_, hreturned⟩
      unfold Body.misses at hu ⊢
      simp only [hnotified]
      exact hu
    | poll disk env =>
      cases hstep
      cases hstate : u.body.state with
      | unfinished => simp [Tail.poll, Body.poll, Body.returns, Body.misses, hstate, hreturned]
      | created epoch | waiting epoch =>
        have hnot : ¬ epoch < u.flight.entry.notified := by simpa [Body.misses, hstate] using hu
        have hle : u.flight.entry.notified ≤ epoch := Nat.le_of_not_lt hnot
        simp [Tail.poll, Body.poll, Body.returns, Body.misses, hstate, hnot, hle, hreturned]
      | _ => simp [Body.misses, hstate] at hu
  exact hinv.2

/-- The body is behind the mark, between the check of the mark and the end of its read. -/
def Tail.chasing (s : Tail H) : Prop :=
  s.body.offset < s.flight.entry.written ∧
    match s.body.state with
    | .idle | .stalled | .opening _ | .reading _ _ => True
    | _ => False

instance (s : Tail H) : Decidable s.chasing := by
  unfold Tail.chasing
  cases s.body.state <;> infer_instance

/-- A body behind the mark whose file has nothing for it reads on for ever. -/
theorem returned_of_starved {s t : Tail H} (hs : s.chasing) (h : (runs Tail.step Dry).rel s t) :
    t.returned = s.returned := by
  have hinv : t.chasing ∧ t.returned = s.returned := by
    refine Evolution.star_keep (I := fun u : Tail H => u.chasing ∧ u.returned = s.returned) ?_ h ⟨hs, rfl⟩
    rintro u v ⟨m, hdry, hstep⟩ ⟨⟨hlt, hstate⟩, hreturned⟩
    cases m with
    | producer m =>
      obtain ⟨entry, hentry, rfl⟩ := Option.map_eq_some_iff.mp hstep
      refine ⟨⟨?_, hstate⟩, hreturned⟩
      rcases Entry.move_cases hentry with ⟨hw, -⟩ | ⟨-, -, hle, -⟩ | ⟨o, -, -, hw, -⟩
      · exact hlt.trans_eq hw.symm
      · exact hlt.trans_le hle
      · exact hlt.trans_eq hw.symm
    | poll disk env =>
      cases hstep
      obtain ⟨hok, file, hfile, hempty⟩ := hdry
      unfold Tail.chasing
      cases hs' : u.body.state with
      | idle | stalled => simp [Tail.poll, Body.poll, Body.returns, hs', hlt, hreturned]
      | opening high =>
        by_cases hzero : min (high - u.body.offset) u.body.capacity = 0
        · simp [Tail.poll, Body.poll, Body.returns, hs', hzero, hlt, hreturned]
        · simp [Tail.poll, Body.poll, Body.returns, hs', hzero, hok, hfile, hlt, hreturned]
      | reading toRead f =>
        have hread : readAt disk env u.body.offset toRead f = [] := by
          rw [readAt, List.drop_eq_nil_of_le (hempty f), List.take_nil]
        have hadd : saturatingAdd u.body.offset 0 ≤ u.body.offset := by
          unfold saturatingAdd
          omega
        simp [Tail.poll, Body.poll, Body.returns, hs', hok, hread, hreturned]
        omega
      | _ => simp [hs'] at hstate
  exact hinv.2

/-! ## Tailing bodies -/

/-- What becomes of a failure. It is reported by a body that does not miss the notification, on every
schedule of enough polls without an empty read. A body that misses it or starves returns nothing. -/
structure Tail.Reports (s : Tail H) : Prop where
  heard : ∀ e, s.flight.entry.outcome = some (.failed e) → 0 < s.body.capacity →
    s.body.misses s.flight = false → ∀ moves t, follow Tail.step Feeds s moves = some t →
      s.pollsLeft ≤ moves.countP Move.isPoll → t.Reported
  missed : s.body.misses s.flight = true → ∀ t, (runs Tail.step Silent).rel s t →
    t.returned = s.returned
  starved : s.chasing → ∀ t, (runs Tail.step Dry).rel s t → t.returned = s.returned

/-- In every run of a tailing body and its environment the emitted bytes are counted by the offset
and stay below the mark. What was returned is a list of frames of at most the capacity,
which make up the emitted bytes, and an ending. The next step answers to its error and its file, and
a failure is reported by a body that is woken and fed. -/
theorem tailing_is_exact {root : Path} {repo : Str} {d : Digest} {capacity : Nat} {s : Tail H}
    (hrun : (runs Tail.step anyStep).rel (Tail.new root repo d capacity) s) :
    s.body.emitted.length = s.body.offset ∧ s.body.offset ≤ s.flight.entry.written ∧
    (∃ (frames : List Bytes) (ending : List Ready), s.returned = frames.map Ready.data ++ ending ∧
      frames.flatten = s.body.emitted ∧ (∀ f ∈ frames, f ≠ [] ∧ f.length ≤ capacity) ∧ s.Ends ending) ∧
    s.Answers ∧ s.Reports := by
  have hs := inStep_run hrun (.new root repo d capacity)
  have hcapacity : s.body.capacity = capacity := capacity_run hrun
  obtain ⟨frames, k, hreturned, hflatten, hframes⟩ := hs.accounts
  rw [hcapacity] at hframes
  refine ⟨hs.keeps.length, hs.keeps.below, ⟨frames, _, hreturned, hflatten, hframes, hs.ends k⟩,
    hs.answers, ?_, fun hmiss t ht => returned_of_misses hmiss ht,
    fun hchasing t ht => returned_of_starved hchasing ht⟩
  intro e ho hpos hmiss moves t hfollow hpolls
  exact reported_of_follow (.of_run hrun hpos ho) hmiss hfollow hpolls

/-! The producer writes three bytes and fails while the body reads them. The body gets them in two
reads, and then the error. -/

def abc : Digest := ⟨Sha256.hex [97, 98, 99]⟩

def threeBytes : Disk Path :=
  (Disk.empty.create (tempfilePath [] "pub/x".toList abc)).append 0 [97, 98, 99]

def pollThree : Move := .poll threeBytes ⟨true, 2, none, false⟩

/-- The fetch fails after its chunk was announced. -/
def failAfterChunk : List Move :=
  [.producer .finish, .producer (.publish (.failed .upstream)), .producer .notify]

theorem short_reads_then_error :
    ∃ s t : Tail Sha256.streaming, (runs Tail.step anyStep).rel (Tail.new [] "pub/x".toList abc 65536) s ∧
      s.flight.entry.outcome = some (.failed .upstream) ∧ s.body.offset = 0 ∧
      follow Tail.step Feeds s (List.replicate 10 pollThree) = some t ∧ t.Reported ∧
      t.returned = [.data [97, 98], .data [99], .error .upstream] ++ List.replicate 4 .finished := by
  let moves := List.replicate 10 pollThree
  let returned : List Ready := [.data [97, 98], .data [99], .error .upstream] ++ List.replicate 4 .finished
  obtain ⟨s, hrun, ho, hpos, hmiss, hleft, hoffset, hall⟩ := exists_run_of_follow Tail.step anyStep
    (Tail.new [] "pub/x".toList abc 65536 : Tail Sha256.streaming)
    (List.replicate 4 pollThree ++ [.producer (.advance 3), .producer .notify] ++
      List.replicate 3 pollThree ++ failAfterChunk)
    (fun s => s.flight.entry.outcome = some (.failed .upstream) ∧ 0 < s.body.capacity ∧
      s.body.misses s.flight = false ∧ s.pollsLeft ≤ moves.countP Move.isPoll ∧ s.body.offset = 0 ∧
      ((follow Tail.step Feeds s moves).map Tail.returned) = some returned) (by decide +kernel)
  obtain ⟨t, ht, hreturned⟩ := Option.map_eq_some_iff.mp hall
  obtain ⟨-, -, -, -, hreports⟩ := tailing_is_exact hrun
  exact ⟨s, t, hrun, ho, hoffset, ht, hreports.heard _ ho hpos hmiss moves t ht hleft, hreturned⟩

/-- The run of a body that is only polled. -/
theorem runs_polls {G : Tail H → Move → Prop} {s : Tail H} (polls : List (Disk Path × Env))
    (h : ∀ p ∈ polls, ∀ u : Tail H, u.flight = s.flight → G u (.poll p.1 p.2)) :
    (runs Tail.step G).rel s (polls.foldl (fun t p => t.poll p.1 p.2) s) := by
  induction polls generalizing s with
  | nil => exact (runs Tail.step G).refl s
  | cons p polls ih =>
    have hone : (runs Tail.step G).rel s (s.poll p.1 p.2) :=
      .single ⟨.poll p.1 p.2, h p List.mem_cons_self s rfl, rfl⟩
    refine (runs Tail.step G).trans hone (ih fun q hq u hu => ?_)
    exact h q (List.mem_cons_of_mem _ hq) u hu

/-- The failure falls between the check of the outcome and the creation of the future. -/
def lateFuture : List Move := List.replicate 2 pollThree ++ failAfterChunk

/-- Three bytes are announced of a file that holds none when the body reads it. -/
def missingBytes : List Move := .producer (.advance 3) :: failAfterChunk

def emptyFile : Disk Path := Disk.empty.create (tempfilePath [] "pub/x".toList abc)

/-- The failure is published and notified, and no poll returns it. -/
theorem failure_goes_unreported :
    (∃ s : Tail Sha256.streaming, (runs Tail.step anyStep).rel (Tail.new [] "pub/x".toList abc 65536) s ∧
      s.flight.entry.outcome = some (.failed .upstream) ∧
      ∀ polls : List (Disk Path × Env), (polls.foldl (fun t p => t.poll p.1 p.2) s).returned = []) ∧
    ∃ s : Tail Sha256.streaming, (runs Tail.step anyStep).rel (Tail.new [] "pub/x".toList abc 65536) s ∧
      s.flight.entry.outcome = some (.failed .upstream) ∧
      ∀ counts : List Nat, (counts.foldl
        (fun t count => t.poll emptyFile ⟨true, count, none, false⟩) s).returned = [] := by
  constructor
  · obtain ⟨s, hrun, ho, hmiss, hreturned⟩ := exists_run_of_follow Tail.step anyStep
      (Tail.new [] "pub/x".toList abc 65536 : Tail Sha256.streaming) lateFuture
      (fun s => s.flight.entry.outcome = some (.failed .upstream) ∧ s.body.misses s.flight = true ∧
        s.returned = []) (by decide +kernel)
    refine ⟨s, hrun, ho, fun polls => ?_⟩
    have hsilent := runs_polls (G := Silent) (s := s) polls fun _ _ _ _ => trivial
    exact (returned_of_misses hmiss hsilent).trans hreturned
  · obtain ⟨s, hrun, ho, hchasing, hfile, hreturned⟩ := exists_run_of_follow Tail.step anyStep
      (Tail.new [] "pub/x".toList abc 65536 : Tail Sha256.streaming) missingBytes
      (fun s => s.flight.entry.outcome = some (.failed .upstream) ∧ s.chasing ∧
        emptyFile.entry s.flight.entry.tempfile = some 0 ∧ s.returned = []) (by decide +kernel)
    refine ⟨s, hrun, ho, fun counts => ?_⟩
    have hdry := runs_polls (G := Dry) (s := s)
      (counts.map fun count => (emptyFile, (⟨true, count, none, false⟩ : Env))) fun p hp u hu => by
        obtain ⟨count, -, rfl⟩ := List.mem_map.mp hp
        refine ⟨rfl, 0, by rw [hu]; exact hfile, fun other => ?_⟩
        have hempty : emptyFile.contents other = [] := by
          simp only [emptyFile, Disk.create_contents, Function.update_apply, Disk.empty, ite_self]
        simp [hempty]
    rw [List.foldl_map] at hdry
    exact (returned_of_starved hchasing hdry).trans hreturned

end Quill.PullThrough
