import Quill.PullThrough.Flights

/-!
# The frames of a tailing body

A `Tail` is an entry, a body that tails it and everything that `poll_frame` has returned. Nothing
is assumed of the environment: between two steps of the body the high-water mark may rise, the
outcome may be published and notifications may come, and every step finds a disk of its own, with
reads that are short or fail.

`Body.Turn` lists what a step of the body can do and what it returns. `Tail.InStep` is the
invariant: a read never goes beyond the high-water mark, so the offset counts the emitted bytes and
stays below the mark (`inStep_run`). What was returned is a list of frames, followed
by nothing, by `None` again and again, or by one error and then `None` (`BodyState.ending`).
-/

namespace Quill.PullThrough

open Text Files Cas LocalStorage Uploads

variable {H : StreamingHash}

/-! ## What a poll returns -/

/-- The value of a `poll_frame` that returns `Ready`; `finished` is `None`. -/
inductive Ready where
  | data (bytes : Bytes)
  | error (e : PullThroughError)
  | finished
  deriving DecidableEq

/-- What `poll_frame` returns with a step of `Body.poll`, if it does not go on. -/
def Body.returns (fl : Flight H) (disk : Disk Path) (env : Env) (b : Body) : Option Ready :=
  match b.state with
  | .marked =>
    match fl.entry.outcome with
    | none => none
    | some (.success finalSize) => if finalSize ≤ b.offset then some .finished else none
    | some (.failed e) => some (.error e)
  | .opening high =>
    if min (high - b.offset) b.capacity = 0 then none
    else if env.ok then
      match disk.entry fl.entry.tempfile with
      | some _ => none
      | none => some (.error (.io .notFound))
    else some (.error (.io .other))
  | .reading toRead file =>
    if env.ok then
      let bytes := readAt disk env b.offset toRead file
      if bytes = [] then none else some (.data bytes)
    else some (.error (.io .other))
  | .ended | .failed _ => some .finished
  | .idle | .unfinished | .created _ | .waiting _ | .stalled => none

/-- The body with its entry, and what its polls have returned. -/
structure Tail (H : StreamingHash) where
  flight : Flight H
  body : Body
  returned : List Ready

/-- A body at the start of its fetch. -/
def Tail.new (root : Path) (repo : Str) (d : Digest) (capacity : Nat) : Tail H :=
  ⟨Flight.new root repo d, ⟨0, 0, capacity, .idle, []⟩, []⟩

/-- A step of `poll_frame`; after the end every poll returns `None`. -/
def Tail.poll (s : Tail H) (disk : Disk Path) (env : Env) : Tail H where
  flight := s.flight
  body := (s.body.poll s.flight disk env).getD s.body
  returned := s.returned ++ (s.body.returns s.flight disk env).toList

/-- An outcome fits the high-water mark it is published at. -/
def ProducerOutcome.fits (mark : Nat) : ProducerOutcome → Bool
  | .success finalSize => finalSize = mark
  | .failed _ => true

/-- The accesses of `PullThroughEntry::advance` and `PullThroughEntry::finish`. -/
inductive EntryMove where
  | advance (total : Nat)
  | notify
  | finish
  | publish (o : ProducerOutcome)

/-- The mark is a `u64` and never falls, and the outcome comes last. -/
def Entry.move (x : Entry) : EntryMove → Option Entry
  | .advance total =>
    if x.outcome = none ∧ x.written ≤ total ∧ total < u64 then some { x with written := total } else none
  | .notify => some { x with notified := x.notified + 1 }
  | .finish => some { x with done := true }
  | .publish o =>
    if x.outcome = none ∧ o.fits x.written = true then
      some { x with outcome := some o, sent := x.sent + 1 }
    else none

/-- A step of the producer, or a poll of the body with what it finds on the disk. -/
inductive Move where
  | producer (m : EntryMove)
  | poll (disk : Disk Path) (env : Env)

/-- One step of the fetch or of the body. -/
def Tail.step (s : Tail H) : Move → Option (Tail H)
  | .producer m => (s.flight.entry.move m).map fun entry => { s with flight := { s.flight with entry } }
  | .poll disk env => some (s.poll disk env)

/-- What a producer's access changes: neither the mark nor the outcome, or one of them before there
is an outcome. -/
theorem Entry.move_cases {x y : Entry} {m : EntryMove} (h : x.move m = some y) :
    (y.written = x.written ∧ y.outcome = x.outcome) ∨
    (x.outcome = none ∧ y.outcome = none ∧ x.written ≤ y.written ∧ y.written < u64) ∨
    ∃ o, x.outcome = none ∧ y.outcome = some o ∧ y.written = x.written ∧ o.fits x.written = true := by
  cases m with
  | advance total =>
    simp only [Entry.move] at h
    split at h
    · rename_i hguard
      cases h
      exact .inr (.inl ⟨hguard.1, hguard.1, hguard.2.1, hguard.2.2⟩)
    · cases h
  | notify =>
    cases h
    exact .inl ⟨rfl, rfl⟩
  | finish =>
    cases h
    exact .inl ⟨rfl, rfl⟩
  | publish o =>
    simp only [Entry.move] at h
    split at h
    · rename_i hguard
      cases h
      exact .inr (.inr ⟨o, hguard.1, rfl, rfl, hguard.2⟩)
    · cases h

/-! ## The steps of a body -/

/-- The states between two chunks. -/
def BodyState.quiet : BodyState → Bool
  | .idle | .marked | .unfinished | .created _ | .waiting _ | .stalled => true
  | .opening _ | .reading _ _ | .ended | .failed _ => false

/-- The body meets an error in this step: it finds a failed outcome, it cannot open the
file or the read fails. -/
def Body.Meets (fl : Flight H) (disk : Disk Path) (env : Env) (b : Body) (e : PullThroughError) : Prop :=
  match b.state with
  | .marked => fl.entry.outcome = some (.failed e)
  | .opening high => 0 < min (high - b.offset) b.capacity ∧
    (env.ok = false ∧ e = .io .other ∨
      env.ok = true ∧ disk.entry fl.entry.tempfile = none ∧ e = .io .notFound)
  | .reading _ _ => env.ok = false ∧ e = .io .other
  | _ => False

/-- The ways in which a body can take a step, and what `poll_frame` returns with it. -/
inductive Body.Turn (fl : Flight H) (disk : Disk Path) (env : Env) (b : Body) :
    Body → Option Ready → Prop
  | pause {state : BodyState} (hs : b.state.quiet = true) (hquiet : state.quiet = true) :
      Turn fl disk env b { b with state := state } none
  | behind (hs : b.state.quiet = true) (hlt : b.offset < fl.entry.written) :
      Turn fl disk env b { b with state := .opening fl.entry.written } none
  | nothing {high : Nat} (hs : b.state = .opening high) : Turn fl disk env b { b with state := .idle } none
  | opened {high file : Nat} (hs : b.state = .opening high)
      (hfile : disk.entry fl.entry.tempfile = some file) :
      Turn fl disk env b { b with state := .reading (min (high - b.offset) b.capacity) file } none
  | read {toRead file : Nat} {bytes : Bytes} (hs : b.state = .reading toRead file)
      (hbytes : readAt disk env b.offset toRead file = bytes) :
      Turn fl disk env b { b with
        offset := saturatingAdd b.offset bytes.length, state := .idle, emitted := b.emitted ++ bytes }
        (if bytes = [] then none else some (.data bytes))
  | done {n : Nat} (hs : b.state = .marked) (ho : fl.entry.outcome = some (.success n))
      (hle : n ≤ b.offset) : Turn fl disk env b { b with state := .ended } (some .finished)
  | broken {e : PullThroughError} (he : b.Meets fl disk env e) :
      Turn fl disk env b { b with state := .failed e } (some (.error e))
  | spent (hs : b.state = .ended ∨ ∃ e, b.state = .failed e) : Turn fl disk env b b (some .finished)

theorem Body.turn_of_poll (fl : Flight H) (disk : Disk Path) (env : Env) (b : Body) :
    b.Turn fl disk env ((b.poll fl disk env).getD b) (b.returns fl disk env) := by
  have hidle : b.state.quiet = true → b.Turn fl disk env
      ((if b.offset < fl.entry.written then some { b with state := .opening fl.entry.written }
        else some { b with state := .marked }).getD b) none := by
    intro hs
    split
    · exact .behind hs ‹_›
    · exact .pause hs rfl
  cases hs : b.state with
  | idle =>
    simp only [Body.poll, Body.returns, hs]
    exact hidle (by rw [hs]; rfl)
  | stalled =>
    simp only [Body.poll, Body.returns, hs]
    exact hidle (by rw [hs]; rfl)
  | marked =>
    have hquiet : b.state.quiet = true := by rw [hs]; rfl
    simp only [Body.poll, Body.returns, hs]
    cases ho : fl.entry.outcome with
    | none =>
      have hunfinished : BodyState.unfinished.quiet = true := rfl
      exact .pause hquiet hunfinished
    | some o =>
      cases o with
      | success n =>
        by_cases hle : n ≤ b.offset
        · simp only [hle, if_true, Option.getD_some]
          exact .done hs ho hle
        · simp only [hle, if_false, Option.getD_some]
          exact .pause hquiet rfl
      | failed e => exact .broken (by rw [Body.Meets, hs]; exact ho)
  | unfinished =>
    simp only [Body.poll, Body.returns, hs]
    exact .pause (by rw [hs]; rfl) rfl
  | created epoch =>
    simp only [Body.poll, Body.returns, hs]
    exact .pause (by rw [hs]; rfl) (by split <;> rfl)
  | waiting epoch =>
    simp only [Body.poll, Body.returns, hs]
    exact .pause (by rw [hs]; rfl) (by split <;> rfl)
  | opening high =>
    simp only [Body.poll, Body.returns, hs]
    by_cases hzero : min (high - b.offset) b.capacity = 0
    · simp only [hzero, if_true, Option.getD_some]
      exact .nothing hs
    · have hpos : 0 < min (high - b.offset) b.capacity := Nat.pos_of_ne_zero hzero
      simp only [hzero, if_false]
      cases hok : env.ok with
      | false => exact .broken (by rw [Body.Meets, hs]; exact ⟨hpos, .inl ⟨hok, rfl⟩⟩)
      | true =>
        cases hfile : disk.entry fl.entry.tempfile with
        | none => exact .broken (by rw [Body.Meets, hs]; exact ⟨hpos, .inr ⟨hok, hfile, rfl⟩⟩)
        | some file => exact .opened hs hfile
  | reading toRead file =>
    simp only [Body.poll, Body.returns, hs]
    cases hok : env.ok with
    | false => exact .broken (by rw [Body.Meets, hs]; exact ⟨hok, rfl⟩)
    | true => exact .read hs rfl
  | ended =>
    simp only [Body.poll, Body.returns, hs]
    exact .spent (.inl hs)
  | failed e =>
    simp only [Body.poll, Body.returns, hs]
    exact .spent (.inr ⟨e, hs⟩)

/-- A step that meets an error returns it, and only such a step does. -/
theorem Body.returns_error_iff {fl : Flight H} {disk : Disk Path} {env : Env} {b : Body}
    {e : PullThroughError} : b.returns fl disk env = some (.error e) ↔ b.Meets fl disk env e := by
  unfold Body.returns Body.Meets
  cases hs : b.state with
  | marked =>
    cases ho : fl.entry.outcome with
    | none => simp
    | some o =>
      cases o with
      | success n =>
        by_cases hle : n ≤ b.offset
        · simp [hle]
        · simp [hle]
      | failed e' => simp
  | opening high =>
    by_cases hzero : min (high - b.offset) b.capacity = 0
    · simp [hzero]
    · have hpos : 0 < min (high - b.offset) b.capacity := Nat.pos_of_ne_zero hzero
      cases hok : env.ok with
      | false => simp only [hzero, hpos]; simp [eq_comm]
      | true =>
        cases hfile : disk.entry fl.entry.tempfile with
        | none => simp only [hzero, hpos]; simp [eq_comm]
        | some file => simp only [hzero, hpos]; simp
  | reading toRead file =>
    cases hok : env.ok with
    | false => simp [eq_comm]
    | true =>
      by_cases hempty : readAt disk env b.offset toRead file = []
      · simp [hempty]
      · simp [hempty]
  | _ => simp

/-! ## The invariant -/

/-- A body reads and emits nothing above the mark, and it ends at the final size. -/
structure Body.Keeps (mark : Nat) (outcome : Option ProducerOutcome) (b : Body) : Prop where
  below : b.offset ≤ mark
  length : b.emitted.length = b.offset
  opening : ∀ high, b.state = .opening high → high ≤ mark
  reading : ∀ toRead file, b.state = .reading toRead file →
    toRead ≤ b.capacity ∧ b.offset + toRead ≤ mark
  ended : b.state = .ended → outcome = some (.success b.offset)

theorem Body.Keeps.mono {mark mark' : Nat} {outcome : Option ProducerOutcome} {b : Body}
    (h : b.Keeps mark outcome) (hle : mark ≤ mark') : b.Keeps mark' outcome where
  below := h.below.trans hle
  length := h.length
  opening high hs := (h.opening high hs).trans hle
  reading toRead file hs := ⟨(h.reading toRead file hs).1, (h.reading toRead file hs).2.trans hle⟩
  ended := h.ended

/-- Between two chunks only the offset matters. -/
theorem Body.Keeps.of_quiet {mark : Nat} {outcome : Option ProducerOutcome} {b : Body}
    (hs : b.state.quiet = true) (hbelow : b.offset ≤ mark) (hlength : b.emitted.length = b.offset) :
    b.Keeps mark outcome := by
  refine ⟨hbelow, hlength, fun high he => ?_, fun toRead file he => ?_, fun he => ?_⟩
  all_goals
    rw [he] at hs
    cases hs

theorem length_readAt_le (disk : Disk Path) (env : Env) (offset toRead file : Nat) :
    (readAt disk env offset toRead file).length ≤ toRead := by
  unfold readAt
  rw [List.length_take]
  omega

theorem Body.Turn.keeps {fl : Flight H} {disk : Disk Path} {env : Env} {b b' : Body}
    {r : Option Ready} (h : b.Turn fl disk env b' r) (hsmall : fl.entry.written < u64)
    (hfits : ∀ n, fl.entry.outcome = some (.success n) → n = fl.entry.written)
    (hb : b.Keeps fl.entry.written fl.entry.outcome) :
    b'.Keeps fl.entry.written fl.entry.outcome := by
  obtain ⟨hbelow, hlength, hopening, hreading, hended⟩ := hb
  cases h with
  | pause hs hquiet =>
    exact .of_quiet hquiet hbelow hlength
  | behind hs hlt =>
    refine ⟨hbelow, hlength, fun high he => ?_, by simp, by simp⟩
    cases he
    exact le_rfl
  | nothing hs => exact .of_quiet rfl hbelow hlength
  | opened hs hfile =>
    refine ⟨hbelow, hlength, by simp, fun toRead file he => ?_, by simp⟩
    have hhigh := hopening _ hs
    cases he
    constructor
    · exact Nat.min_le_right _ _
    · show b.offset + min _ b.capacity ≤ _
      omega
  | read hs hbytes =>
    rename_i toRead file bytes
    have hle := (hreading toRead file hs).2
    have hlen : bytes.length ≤ toRead := hbytes ▸ length_readAt_le disk env b.offset toRead file
    have hadd : saturatingAdd b.offset bytes.length = b.offset + bytes.length := by
      unfold saturatingAdd
      omega
    refine .of_quiet rfl ?_ ?_
    · show saturatingAdd _ _ ≤ _
      omega
    · show (b.emitted ++ bytes).length = saturatingAdd _ _
      rw [hadd, List.length_append, hlength]
  | done hs ho hle =>
    refine ⟨hbelow, hlength, by simp, by simp, fun _ => ?_⟩
    have hfinal := hfits _ ho
    rw [ho, show b.offset = _ from le_antisymm (hfinal ▸ hbelow) hle]
  | broken he => exact ⟨hbelow, hlength, by simp, by simp, by simp⟩
  | spent hs => exact ⟨hbelow, hlength, hopening, hreading, hended⟩

/-- What has been returned after the last frame: nothing while the body goes on. -/
def BodyState.ending (k : Nat) : BodyState → List Ready
  | .ended => List.replicate (k + 1) .finished
  | .failed e => .error e :: List.replicate k .finished
  | _ => []

theorem BodyState.ending_of_quiet {state : BodyState} (h : state.quiet = true) (k : Nat) :
    state.ending k = [] := by
  cases state <;> first | rfl | cases h

/-- The returned values are frames of the emitted bytes and then the ending. -/
def Body.Accounts (returned : List Ready) (b : Body) : Prop :=
  ∃ (frames : List Bytes) (k : Nat), returned = frames.map Ready.data ++ b.state.ending k ∧ frames.flatten = b.emitted ∧
    ∀ f ∈ frames, f ≠ [] ∧ f.length ≤ b.capacity

theorem Body.Meets.ending {fl : Flight H} {disk : Disk Path} {env : Env} {b : Body}
    {e : PullThroughError} (h : b.Meets fl disk env e) (k : Nat) : b.state.ending k = [] := by
  cases hs : b.state with
  | ended =>
    rw [Body.Meets, hs] at h
    cases h
  | failed e' =>
    rw [Body.Meets, hs] at h
    cases h
  | _ => rfl

theorem Body.Turn.accounts {fl : Flight H} {disk : Disk Path} {env : Env} {b b' : Body}
    {r : Option Ready} {returned : List Ready} (h : b.Turn fl disk env b' r)
    (hb : b.Keeps fl.entry.written fl.entry.outcome) (hret : b.Accounts returned) :
    b'.Accounts (returned ++ r.toList) := by
  obtain ⟨frames, k, hreturned, hflatten, hframes⟩ := hret
  -- neither state is an end
  have hgoes : ∀ state : BodyState, b.state.ending k = [] → state.ending k = [] →
      returned ++ (none : Option Ready).toList = frames.map Ready.data ++ state.ending k := by
    intro state hbefore hafter
    rw [hreturned, hbefore, hafter, Option.toList_none, List.append_nil]
  cases h with
  | pause hs hquiet =>
    exact ⟨frames, k, hgoes _ (BodyState.ending_of_quiet hs k) (BodyState.ending_of_quiet hquiet k),
      hflatten, hframes⟩
  | behind hs hlt =>
    exact ⟨frames, k, hgoes _ (BodyState.ending_of_quiet hs k) rfl, hflatten, hframes⟩
  | nothing hs => exact ⟨frames, k, hgoes _ (by rw [hs]; rfl) rfl, hflatten, hframes⟩
  | opened hs hfile => exact ⟨frames, k, hgoes _ (by rw [hs]; rfl) rfl, hflatten, hframes⟩
  | read hs hbytes =>
    rename_i toRead file bytes
    have hreading : b.state.ending k = [] := by
      rw [hs]
      rfl
    by_cases hempty : bytes = []
    · rw [if_pos hempty]
      refine ⟨frames, k, hgoes _ hreading rfl, ?_, hframes⟩
      show frames.flatten = b.emitted ++ bytes
      rw [hempty, List.append_nil, hflatten]
    · rw [if_neg hempty]
      refine ⟨frames ++ [bytes], k, ?_, ?_, fun f hf => ?_⟩
      · rw [hreturned, hreading, List.map_append, List.append_nil]
        exact (List.append_nil _).symm
      · show (frames ++ [bytes]).flatten = b.emitted ++ bytes
        rw [List.flatten_append, hflatten, List.flatten_singleton]
      · rcases List.mem_append.mp hf with hf | hf
        · exact hframes f hf
        · rw [List.mem_singleton.mp hf]
          have hlen : bytes.length ≤ toRead := hbytes ▸ length_readAt_le disk env b.offset toRead file
          exact ⟨hempty, hlen.trans (hb.reading toRead file hs).1⟩
  | done hs ho hle =>
    refine ⟨frames, 0, ?_, hflatten, hframes⟩
    rw [hreturned, hs]
    simp [BodyState.ending]
  | broken he =>
    refine ⟨frames, 0, ?_, hflatten, hframes⟩
    rw [hreturned, he.ending]
    simp [BodyState.ending]
  | spent hs =>
    refine ⟨frames, k + 1, ?_, hflatten, hframes⟩
    rw [hreturned, List.append_assoc]
    rcases hs with hs | ⟨e, hs⟩
    · rw [hs]
      simp [BodyState.ending, List.replicate_succ']
    · rw [hs]
      simp [BodyState.ending, List.replicate_succ']

/-- What holds in every run of a tail. -/
structure Tail.InStep (s : Tail H) : Prop where
  small : s.flight.entry.written < u64
  fits : ∀ n, s.flight.entry.outcome = some (.success n) → n = s.flight.entry.written
  keeps : s.body.Keeps s.flight.entry.written s.flight.entry.outcome
  accounts : s.body.Accounts s.returned

theorem Tail.InStep.new (root : Path) (repo : Str) (d : Digest) (capacity : Nat) :
    (Tail.new root repo d capacity : Tail H).InStep where
  small := by simp [Tail.new, Flight.new, Entry.new, u64]
  fits := by simp [Tail.new, Flight.new, Entry.new]
  keeps := .of_quiet rfl le_rfl rfl
  accounts := ⟨[], 0, rfl, rfl, fun f hf => absurd hf List.not_mem_nil⟩

/-- An access of the producer keeps the invariant. -/
theorem Tail.InStep.move {s : Tail H} {m : EntryMove} {entry : Entry} (hs : s.InStep)
    (h : s.flight.entry.move m = some entry) :
    ({ s with flight := { s.flight with entry } } : Tail H).InStep := by
  obtain ⟨hsmall, hfits, hkeeps, haccounts⟩ := hs
  rcases Entry.move_cases h with ⟨hw, ho⟩ | ⟨hnone, ho, hle, hlt⟩ | ⟨o, hnone, ho, hw, hfit⟩
  · rw [← hw] at hsmall hfits hkeeps
    rw [← ho] at hfits hkeeps
    exact ⟨hsmall, hfits, hkeeps, haccounts⟩
  · refine ⟨hlt, fun n hn => ?_, ?_, haccounts⟩
    · rw [show entry.outcome = _ from hn] at ho
      cases ho
    · rw [hnone, ← ho] at hkeeps
      exact hkeeps.mono hle
  · rw [← hw] at hsmall hkeeps hfit
    refine ⟨hsmall, fun n hn => ?_, ?_, haccounts⟩
    · rw [show entry.outcome = _ from hn] at ho
      cases ho
      exact of_decide_eq_true hfit
    · -- a body does not end before the outcome
      refine ⟨hkeeps.below, hkeeps.length, hkeeps.opening, hkeeps.reading, fun he => ?_⟩
      have hended := hkeeps.ended he
      rw [hnone] at hended
      cases hended

theorem inStep_step {s t : Tail H} {m : Move} (hs : s.InStep) (h : s.step m = some t) : t.InStep := by
  cases m with
  | producer m =>
    obtain ⟨entry, hentry, rfl⟩ := Option.map_eq_some_iff.mp h
    exact hs.move hentry
  | poll disk env =>
    cases h
    have hturn := s.body.turn_of_poll s.flight disk env
    exact ⟨hs.small, hs.fits, hturn.keeps hs.small hs.fits hs.keeps, hturn.accounts hs.keeps hs.accounts⟩

theorem inStep_run {s t : Tail H} (h : (runs Tail.step anyStep).rel s t) (hs : s.InStep) : t.InStep := by
  refine Evolution.star_keep (I := fun u : Tail H => u.InStep) ?_ h hs
  intro u v huv hu
  obtain ⟨m, -, hstep⟩ := huv
  exact inStep_step hu hstep

theorem Body.Turn.capacity {fl : Flight H} {disk : Disk Path} {env : Env} {b b' : Body}
    {r : Option Ready} (h : b.Turn fl disk env b' r) : b'.capacity = b.capacity := by
  cases h <;> rfl

theorem capacity_run {s t : Tail H} (h : (runs Tail.step anyStep).rel s t) :
    t.body.capacity = s.body.capacity := by
  refine Evolution.star_rel (E := .fixed fun u : Tail H => u.body.capacity) ?_ h
  rintro u v ⟨m, -, hstep⟩
  cases m with
  | producer m =>
    obtain ⟨entry, -, rfl⟩ := Option.map_eq_some_iff.mp hstep
    rfl
  | poll disk env =>
    cases hstep
    exact (u.body.turn_of_poll u.flight disk env).capacity

/-! ## What the body returns -/

/-- What follows the frames: nothing, `None` again and again after a success of exactly the emitted
size, or one error and then `None`. -/
def Tail.Ends (s : Tail H) (ending : List Ready) : Prop :=
  ending = [] ∨
  (∃ k, ending = List.replicate (k + 1) .finished ∧
    s.flight.entry.outcome = some (.success s.body.emitted.length)) ∨
  ∃ e k, ending = .error e :: List.replicate k .finished

theorem Tail.InStep.ends {s : Tail H} (hs : s.InStep) (k : Nat) : s.Ends (s.body.state.ending k) := by
  cases hstate : s.body.state with
  | ended =>
    refine .inr (.inl ⟨k, rfl, ?_⟩)
    rw [hs.keeps.length]
    exact hs.keeps.ended hstate
  | failed e => exact .inr (.inr ⟨e, k, rfl⟩)
  | _ => exact .inl rfl

/-- A body that has failed returns `None` to every further poll. -/
theorem returned_after_error {s t : Tail H} {e : PullThroughError} (hs : s.body.state = .failed e)
    (h : (runs Tail.step anyStep).rel s t) :
    ∃ k, t.returned = s.returned ++ List.replicate k .finished := by
  have hinv : t.body.state = .failed e ∧
      ∃ k, t.returned = s.returned ++ List.replicate k .finished := by
    refine Evolution.star_keep (I := fun u : Tail H => u.body.state = .failed e ∧
      ∃ k, u.returned = s.returned ++ List.replicate k .finished) ?_ h ⟨hs, 0, by simp⟩
    rintro u v ⟨m, -, hstep⟩ ⟨hu, k, hreturned⟩
    cases m with
    | producer m =>
      obtain ⟨entry, -, rfl⟩ := Option.map_eq_some_iff.mp hstep
      exact ⟨hu, k, hreturned⟩
    | poll disk env =>
      cases hstep
      refine ⟨by simp [Tail.poll, Body.poll, hu], k + 1, ?_⟩
      simp [Tail.poll, Body.returns, hu, hreturned, List.replicate_succ']
  exact hinv.2

theorem Body.Turn.failed_of_error {fl : Flight H} {disk : Disk Path} {env : Env} {b b' : Body}
    {r : Option Ready} {e : PullThroughError} (h : b.Turn fl disk env b' r)
    (hr : r = some (.error e)) : b'.state = .failed e := by
  cases h with
  | read hs hbytes => split at hr <;> cases hr
  | broken he =>
    cases hr
    rfl
  | _ => cases hr

/-- A step that meets an error leaves the body failed. -/
theorem Tail.poll_of_meets {s : Tail H} {disk : Disk Path} {env : Env} {e : PullThroughError}
    (he : s.body.Meets s.flight disk env e) :
    (s.poll disk env).body.state = .failed e ∧
      (s.poll disk env).returned = s.returned ++ [.error e] := by
  have hreturns := Body.returns_error_iff.mpr he
  refine ⟨(s.body.turn_of_poll s.flight disk env).failed_of_error hreturns, ?_⟩
  show s.returned ++ (s.body.returns s.flight disk env).toList = _
  rw [hreturns]
  rfl

/-- The body is in no read and waits for no notification, or the one it waits for has come. -/
def Body.ready (fl : Flight H) (b : Body) : Bool :=
  match b.state with
  | .idle | .stalled | .marked => true
  | .created epoch | .waiting epoch => epoch < fl.entry.notified
  | _ => false

section Polls

variable {s : Tail H} {e : PullThroughError}

theorem Tail.poll_marked (ho : s.flight.entry.outcome = some (.failed e)) (hs : s.body.state = .marked)
    (disk : Disk Path) (env : Env) : (s.poll disk env).returned = s.returned ++ [.error e] := by
  simp [Tail.poll, Body.returns, hs, ho]

/-- A caught-up body goes on to the outcome. -/
theorem Tail.poll_caught_up (hcaught : s.flight.entry.written ≤ s.body.offset)
    (hs : s.body.state = .idle ∨ s.body.state = .stalled) (disk : Disk Path) (env : Env) :
    (s.poll disk env).body.state = .marked ∧ (s.poll disk env).returned = s.returned := by
  have hnot : ¬ s.body.offset < s.flight.entry.written := by omega
  rcases hs with hs | hs
  · simp [Tail.poll, Body.poll, Body.returns, hs, hnot]
  · simp [Tail.poll, Body.poll, Body.returns, hs, hnot]

/-- A body whose notification has come starts over. -/
theorem Tail.poll_notified {epoch : Nat}
    (hs : s.body.state = .created epoch ∨ s.body.state = .waiting epoch)
    (hlt : epoch < s.flight.entry.notified) (disk : Disk Path) (env : Env) :
    (s.poll disk env).body.state = .idle ∧ (s.poll disk env).returned = s.returned ∧
      (s.poll disk env).body.offset = s.body.offset := by
  rcases hs with hs | hs
  · simp [Tail.poll, Body.poll, Body.returns, hs, hlt]
  · simp [Tail.poll, Body.poll, Body.returns, hs, hlt]

theorem Tail.two_polls (ho : s.flight.entry.outcome = some (.failed e))
    (hcaught : s.flight.entry.written ≤ s.body.offset)
    (hs : s.body.state = .idle ∨ s.body.state = .stalled) (p q : Disk Path × Env) :
    ((s.poll p.1 p.2).poll q.1 q.2).returned = s.returned ++ [.error e] := by
  obtain ⟨hstate, hreturned⟩ := Tail.poll_caught_up hcaught hs p.1 p.2
  rw [Tail.poll_marked (s := s.poll p.1 p.2) ho hstate, hreturned]

/-- A caught-up body of a failed fetch returns the error when it is polled. -/
theorem prompt_error (ho : s.flight.entry.outcome = some (.failed e))
    (hcaught : s.flight.entry.written ≤ s.body.offset) (hready : s.body.ready s.flight = true) :
    ∃ n ≤ 3, ∀ polls : List (Disk Path × Env), polls.length = n →
      (polls.foldl (fun t p => t.poll p.1 p.2) s).returned = s.returned ++ [.error e] := by
  have htwo : (s.body.state = .idle ∨ s.body.state = .stalled) →
      ∃ n ≤ 3, ∀ polls : List (Disk Path × Env), polls.length = n →
        (polls.foldl (fun t p => t.poll p.1 p.2) s).returned = s.returned ++ [.error e] := by
    intro hs
    refine ⟨2, by omega, fun polls hlen => ?_⟩
    obtain ⟨p, q, rfl⟩ := List.length_eq_two.mp hlen
    exact Tail.two_polls ho hcaught hs p q
  have hthree : ∀ epoch, (s.body.state = .created epoch ∨ s.body.state = .waiting epoch) →
      epoch < s.flight.entry.notified →
      ∃ n ≤ 3, ∀ polls : List (Disk Path × Env), polls.length = n →
        (polls.foldl (fun t p => t.poll p.1 p.2) s).returned = s.returned ++ [.error e] := by
    intro epoch hs hlt
    refine ⟨3, le_rfl, fun polls hlen => ?_⟩
    obtain ⟨p, q, r, rfl⟩ := List.length_eq_three.mp hlen
    obtain ⟨hstate, hreturned, hoffset⟩ := Tail.poll_notified hs hlt p.1 p.2
    have hlast := Tail.two_polls (s := s.poll p.1 p.2) ho (hcaught.trans hoffset.ge) (.inl hstate) q r
    rw [hreturned] at hlast
    exact hlast
  unfold Body.ready at hready
  split at hready
  · exact htwo (.inl ‹_›)
  · exact htwo (.inr ‹_›)
  · refine ⟨1, by omega, fun polls hlen => ?_⟩
    obtain ⟨p, rfl⟩ := List.length_eq_one_iff.mp hlen
    exact Tail.poll_marked ho ‹_› p.1 p.2
  · exact hthree _ (.inl ‹_›) (of_decide_eq_true hready)
  · exact hthree _ (.inr ‹_›) (of_decide_eq_true hready)
  · cases hready

end Polls

/-- What a body returns next: a frame is what the file holds from the offset on, a step that
meets an error returns it after nothing but frames and then the body returns `None` for ever, and a
caught-up body of a failed fetch returns the error when it is polled. -/
structure Tail.Answers (s : Tail H) : Prop where
  frame : ∀ disk env bytes, s.body.returns s.flight disk env = some (.data bytes) →
    bytes ≠ [] ∧ bytes.length ≤ s.body.capacity ∧ ∃ toRead file, s.body.state = .reading toRead file ∧
      bytes = ((disk.contents file).drop s.body.offset).take bytes.length
  error : ∀ disk env e, s.body.Meets s.flight disk env e →
    (∃ frames : List Bytes, s.returned = frames.map Ready.data) ∧
    (s.poll disk env).returned = s.returned ++ [.error e] ∧
    ∀ t, (runs Tail.step anyStep).rel (s.poll disk env) t →
      ∃ k, t.returned = s.returned ++ .error e :: List.replicate k .finished
  only : ∀ disk env e, s.body.returns s.flight disk env = some (.error e) →
    s.body.Meets s.flight disk env e
  prompt : ∀ e, s.flight.entry.outcome = some (.failed e) → s.flight.entry.written ≤ s.body.offset →
    s.body.ready s.flight = true →
    ∃ n ≤ 3, ∀ polls : List (Disk Path × Env), polls.length = n →
      (polls.foldl (fun t p => t.poll p.1 p.2) s).returned = s.returned ++ [.error e]

theorem Body.Turn.frame {fl : Flight H} {disk : Disk Path} {env : Env} {b b' : Body}
    {r : Option Ready} {bytes : Bytes} (h : b.Turn fl disk env b' r) (hr : r = some (.data bytes)) :
    bytes ≠ [] ∧ ∃ toRead file, b.state = .reading toRead file ∧
      bytes = readAt disk env b.offset toRead file := by
  cases h with
  | read hs hbytes =>
    split at hr
    · cases hr
    · cases hr
      exact ⟨‹_›, _, _, hs, hbytes.symm⟩
  | _ => cases hr

theorem Tail.InStep.answers {s : Tail H} (hs : s.InStep) : s.Answers where
  frame disk env bytes hr := by
    obtain ⟨hne, toRead, file, hstate, hbytes⟩ := (s.body.turn_of_poll s.flight disk env).frame hr
    have hle : bytes.length ≤ toRead := hbytes ▸ length_readAt_le disk env s.body.offset toRead file
    refine ⟨hne, hle.trans (hs.keeps.reading toRead file hstate).1, toRead, file, hstate, ?_⟩
    rw [hbytes, readAt, List.length_take, ← List.take_eq_take_min]
  error disk env e he := by
    obtain ⟨frames, k, hreturned, -⟩ := hs.accounts
    obtain ⟨hstate, hpolled⟩ := Tail.poll_of_meets he
    refine ⟨⟨frames, ?_⟩, hpolled, fun t ht => ?_⟩
    · rw [hreturned, he.ending, List.append_nil]
    · obtain ⟨k, hk⟩ := returned_after_error hstate ht
      refine ⟨k, ?_⟩
      rw [hk, hpolled, List.append_assoc]
      rfl
  only disk env e hr := Body.returns_error_iff.mp hr
  prompt e ho hcaught hready := prompt_error ho hcaught hready

end Quill.PullThrough
