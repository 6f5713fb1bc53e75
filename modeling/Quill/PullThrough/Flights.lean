import Quill.Base.Runs
import Quill.Files.Disk
import Quill.PullThrough.Fetch

/-!
# Pull-through fetches, step by step

The tasks of `serve_blob_via_pullthrough` and `quill-pullthrough` take turns: requests that look for
a blob and join or start a fetch, producers that drive one fetch each, and bodies that
tail the temporary file of their fetch. Every access to something shared is a step of its
own. A `Flight` is an entry of the in-flight table with its producer; requests and bodies hold the
number of their flight, as the source's tasks hold an `Arc`.

`tokio::fs::File` accepts a chunk before it is in the file, so a producer's chunk goes
to `buffer` and lands in the file later. A notification future is the value of
`notified` when it was created; it is woken when `notified` has grown.
-/

namespace Quill.PullThrough

open Text Files Cas Uploads

variable {S : Setup} {H : StreamingHash}

/-- What the environment decides in a step: whether a file-system call succeeds, how many bytes
a read returns at most, what the upstream answers, and whether a cached entry is
within its time to live. -/
structure Env where
  ok : Bool
  count : Nat
  reply : Option (List (Option Bytes))
  fresh : Bool

/-! ## Entries and producers -/

/-- `PullThroughEntry`. `notified` counts the calls of `notify_waiters`, `sent` the values sent
on the completion channel. -/
structure Entry where
  digest : Digest
  tempfile : Path
  written : Nat
  done : Bool
  outcome : Option ProducerOutcome
  notified : Nat
  sent : Nat

/-- An entry as `get_or_insert` creates it. -/
def Entry.new (d : Digest) (tempfile : Path) : Entry := ⟨d, tempfile, 0, false, none, 0, 0⟩

/-- The next step of a producer task. The steps of `PullThroughEntry::advance` are `advancing` and
`notifying`, those of `PullThroughEntry::finish` are `finishing`, `publishing`
and `waking`. -/
inductive Producer (H : StreamingHash) where
  | opening
  | creating (stream : List (Option Bytes))
  | receiving (stream : List (Option Bytes)) (hasher : H.State) (total : Nat)
  | advancing (stream : List (Option Bytes)) (hasher : H.State) (total : Nat)
  | notifying (stream : List (Option Bytes)) (hasher : H.State) (total : Nat)
  | flushing (hasher : H.State) (total : Nat)
  | comparing (hasher : H.State) (total : Nat)
  | promoting (total : Nat)
  | removing (e : PullThroughError)
  | finishing (o : ProducerOutcome)
  | publishing (o : ProducerOutcome)
  | waking (o : ProducerOutcome)
  | leaving (o : ProducerOutcome)
  | caching
  | gone

/-- An entry with its producer. `upstream` and `received` record the stream that the upstream
answered with and what was received of it. -/
structure Flight (H : StreamingHash) where
  repo : Str
  entry : Entry
  producer : Producer H
  file : Option Nat
  buffer : Bytes
  upstream : Option (List (Option Bytes))
  received : Bytes

/-- A fetch that has not opened its temporary file. -/
def Flight.new (root : Path) (repo : Str) (d : Digest) : Flight H :=
  ⟨repo, .new d (tempfilePath root repo d), .opening, none, [], none, []⟩

/-- One step of a producer on its own flight and the disk. -/
def Flight.advance (root : Path) (env : Env) (disk : Disk Path) (fl : Flight H) :
    Option (Disk Path × Flight H) :=
  match fl.producer with
  | .opening =>
    match env.reply with
    | none => some (disk, { fl with producer := .finishing (.failed .upstream) })
    | some stream => some (disk, { fl with producer := .creating stream, upstream := some stream })
  | .creating stream =>
    if env.ok then
      some (disk.create fl.entry.tempfile,
        { fl with producer := .receiving stream H.new 0, file := some (disk.created fl.entry.tempfile) })
    else some (disk, { fl with producer := .finishing (.failed (.io .other)) })
  | .receiving [] hasher total => some (disk, { fl with producer := .flushing hasher total })
  | .receiving (none :: _) _ _ => some (disk, { fl with producer := .removing .upstream })
  | .receiving (some chunk :: stream) hasher total =>
    -- a write waits until the previous one is in the file
    if fl.buffer ≠ [] then none
    else if env.ok then
      some (disk, { fl with
        producer := .advancing stream (H.update hasher chunk) (saturatingAdd total chunk.length)
        buffer := chunk
        received := fl.received ++ chunk })
    else some (disk, { fl with producer := .removing (.io .other) })
  | .advancing stream hasher total =>
    some (disk, { fl with
      producer := .notifying stream hasher total, entry := { fl.entry with written := total } })
  | .notifying stream hasher total =>
    some (disk, { fl with
      producer := .receiving stream hasher total
      entry := { fl.entry with notified := fl.entry.notified + 1 } })
  | .flushing hasher total =>
    if fl.buffer ≠ [] then none
    else if env.ok then some (disk, { fl with producer := .comparing hasher total })
    else some (disk, { fl with producer := .removing (.io .other) })
  | .comparing hasher total =>
    let got := H.finalize hasher
    if got ≠ fl.entry.digest.hex then
      let e := .digestMismatch fl.entry.digest.toStr ("sha256:".toList ++ got.val)
      some (disk, { fl with producer := .removing e })
    else some (disk, { fl with producer := .promoting total })
  | .promoting total =>
    if env.ok then
      match disk.rename fl.entry.tempfile (blobPath root fl.repo fl.entry.digest) with
      | some disk' => some (disk', { fl with producer := .finishing (.success total) })
      | none => some (disk, { fl with producer := .removing (.io .notFound) })
    else some (disk, { fl with producer := .removing (.io .other) })
  | .removing e =>
    some (if env.ok then disk.remove fl.entry.tempfile else disk,
      { fl with producer := .finishing (.failed e) })
  | .finishing o =>
    some (disk, { fl with producer := .publishing o, entry := { fl.entry with done := true } })
  | .publishing o =>
    some (disk, { fl with
      producer := .waking o
      entry := { fl.entry with outcome := some o, sent := fl.entry.sent + 1 } })
  | .waking o =>
    some (disk, { fl with
      producer := .leaving o, entry := { fl.entry with notified := fl.entry.notified + 1 } })
  | .leaving (.success _) => some (disk, { fl with producer := .caching })
  | .leaving (.failed _) => some (disk, { fl with producer := .gone })
  | .caching => some (disk, { fl with producer := .gone })
  | .gone => none

/-- The producer meets an error while the temporary file exists: the stream fails, a file-system
call fails, the digest is another one or the temporary file is gone. -/
def Producer.Fallible (env : Env) (disk : Disk Path) (entry : Entry) : Producer H → Prop
  | .receiving (none :: _) _ _ => True
  | .receiving (some _ :: _) _ _ | .flushing _ _ => env.ok = false
  | .comparing hasher _ => H.finalize hasher ≠ entry.digest.hex
  | .promoting _ => env.ok = false ∨ disk.entry entry.tempfile = none
  | _ => False

/-- The ways in which a producer can take a step: `fail` stands for every error that is met
once the temporary file exists. -/
inductive Flight.Step (root : Path) (env : Env) (disk : Disk Path) (fl : Flight H) :
    Disk Path → Flight H → Prop
  | refused (hp : fl.producer = .opening) (hreply : env.reply = none) :
      Step root env disk fl disk { fl with producer := .finishing (.failed .upstream) }
  | opened {stream : List (Option Bytes)} (hp : fl.producer = .opening)
      (hreply : env.reply = some stream) :
      Step root env disk fl disk { fl with producer := .creating stream, upstream := some stream }
  | create {stream : List (Option Bytes)} (hp : fl.producer = .creating stream) :
      Step root env disk fl (disk.create fl.entry.tempfile)
        { fl with
          producer := .receiving stream H.new 0, file := some (disk.created fl.entry.tempfile) }
  | noFile {stream : List (Option Bytes)} (hp : fl.producer = .creating stream)
      (hfault : env.ok = false) :
      Step root env disk fl disk { fl with producer := .finishing (.failed (.io .other)) }
  | receive {chunk : Bytes} {stream : List (Option Bytes)} {hasher : H.State} {total : Nat}
      (hp : fl.producer = .receiving (some chunk :: stream) hasher total) (hbuf : fl.buffer = []) :
      Step root env disk fl disk { fl with
        producer := .advancing stream (H.update hasher chunk) (saturatingAdd total chunk.length)
        buffer := chunk
        received := fl.received ++ chunk }
  | store {stream : List (Option Bytes)} {hasher : H.State} {total : Nat}
      (hp : fl.producer = .advancing stream hasher total) :
      Step root env disk fl disk { fl with
        producer := .notifying stream hasher total, entry := { fl.entry with written := total } }
  | notify {stream : List (Option Bytes)} {hasher : H.State} {total : Nat}
      (hp : fl.producer = .notifying stream hasher total) :
      Step root env disk fl disk { fl with
        producer := .receiving stream hasher total
        entry := { fl.entry with notified := fl.entry.notified + 1 } }
  | endOfStream {hasher : H.State} {total : Nat} (hp : fl.producer = .receiving [] hasher total) :
      Step root env disk fl disk { fl with producer := .flushing hasher total }
  | flush {hasher : H.State} {total : Nat} (hp : fl.producer = .flushing hasher total)
      (hbuf : fl.buffer = []) :
      Step root env disk fl disk { fl with producer := .comparing hasher total }
  | compare {hasher : H.State} {total : Nat} (hp : fl.producer = .comparing hasher total)
      (hhex : H.finalize hasher = fl.entry.digest.hex) :
      Step root env disk fl disk { fl with producer := .promoting total }
  | rename {total : Nat} {disk' : Disk Path} (hp : fl.producer = .promoting total)
      (hren : disk.rename fl.entry.tempfile (blobPath root fl.repo fl.entry.digest) = some disk') :
      Step root env disk fl disk' { fl with producer := .finishing (.success total) }
  | fail (e : PullThroughError) (hp : fl.producer.Fallible env disk fl.entry) :
      Step root env disk fl disk { fl with producer := .removing e }
  | remove {e : PullThroughError} (hp : fl.producer = .removing e) :
      Step root env disk fl (disk.remove fl.entry.tempfile)
        { fl with producer := .finishing (.failed e) }
  | leftover {e : PullThroughError} (hp : fl.producer = .removing e) (hfault : env.ok = false) :
      Step root env disk fl disk { fl with producer := .finishing (.failed e) }
  | finish {o : ProducerOutcome} (hp : fl.producer = .finishing o) :
      Step root env disk fl disk
        { fl with producer := .publishing o, entry := { fl.entry with done := true } }
  | publish {o : ProducerOutcome} (hp : fl.producer = .publishing o) :
      Step root env disk fl disk { fl with
        producer := .waking o
        entry := { fl.entry with outcome := some o, sent := fl.entry.sent + 1 } }
  | wake {o : ProducerOutcome} (hp : fl.producer = .waking o) :
      Step root env disk fl disk { fl with
        producer := .leaving o, entry := { fl.entry with notified := fl.entry.notified + 1 } }
  | leave {o : ProducerOutcome} {p : Producer H} (hp : fl.producer = .leaving o)
      (hp' : p = .caching ∨ p = .gone) :
      Step root env disk fl disk { fl with producer := p }
  | cache (hp : fl.producer = .caching) : Step root env disk fl disk { fl with producer := .gone }

theorem Flight.step_of_advance {root : Path} {env : Env} {disk disk' : Disk Path}
    {fl fl' : Flight H} (h : fl.advance root env disk = some (disk', fl')) :
    fl.Step root env disk disk' fl' := by
  have hfail : ∀ e, fl.producer.Fallible env disk fl.entry →
      some (disk, { fl with producer := .removing e }) = some (disk', fl') →
      fl.Step root env disk disk' fl' := by
    intro e hfallible he
    cases he
    exact .fail e hfallible
  unfold Flight.advance at h
  split at h
  · split at h
    · cases h
      exact .refused ‹_› ‹_›
    · cases h
      exact .opened ‹_› ‹_›
  · split at h
    · cases h
      exact .create ‹_›
    · cases h
      exact .noFile ‹_› (Bool.eq_false_iff.mpr ‹_›)
  · cases h
    exact .endOfStream ‹_›
  · rename_i hp
    exact hfail _ (by rw [hp]; trivial) h
  · rename_i hp
    split at h
    · cases h
    · split at h
      · cases h
        exact .receive hp (not_not.mp ‹_›)
      · exact hfail _ (by rw [hp]; exact Bool.eq_false_iff.mpr ‹_›) h
  · cases h
    exact .store ‹_›
  · cases h
    exact .notify ‹_›
  · rename_i hp
    split at h
    · cases h
    · split at h
      · cases h
        exact .flush hp (not_not.mp ‹_›)
      · exact hfail _ (by rw [hp]; exact Bool.eq_false_iff.mpr ‹_›) h
  · rename_i hp
    simp only [] at h
    split at h
    · exact hfail _ (by rw [hp]; assumption) h
    · cases h
      exact .compare hp (not_not.mp ‹_›)
  · rename_i hp
    split at h
    · split at h
      · cases h
        exact .rename hp ‹_›
      · exact hfail _ (by rw [hp]; exact .inr (Disk.rename_eq_none.mp ‹_›)) h
    · exact hfail _ (by rw [hp]; exact .inl (Bool.eq_false_iff.mpr ‹_›)) h
  · rename_i hp
    cases hok : env.ok with
    | true =>
      simp only [hok, if_true] at h
      cases h
      exact .remove hp
    | false =>
      simp only [hok, Bool.false_eq_true, if_false] at h
      cases h
      exact .leftover hp hok
  · cases h
    exact .finish ‹_›
  · cases h
    exact .publish ‹_›
  · cases h
    exact .wake ‹_›
  · cases h
    exact .leave ‹_› (.inl rfl)
  · cases h
    exact .leave ‹_› (.inr rfl)
  · cases h
    exact .cache ‹_›
  · cases h

/-! ## Bodies -/

/-- Where a `PullThroughBody` stands. `waiting` and `stalled` have returned `Pending`, `opening`
and `reading` have a read in flight. -/
inductive BodyState where
  | idle
  | marked
  | unfinished
  | created (epoch : Nat)
  | waiting (epoch : Nat)
  | opening (high : Nat)
  | reading (toRead file : Nat)
  | stalled
  | ended
  | failed (e : PullThroughError)
  deriving DecidableEq

/-- `PullThroughBody`, with the bytes of the frames it has yielded. -/
structure Body where
  flight : Nat
  offset : Nat
  capacity : Nat
  state : BodyState
  emitted : Bytes
  deriving DecidableEq

/-- What a read of a file returns. -/
def readAt (disk : Disk Path) (env : Env) (offset toRead file : Nat) : Bytes :=
  ((disk.contents file).drop offset).take (min toRead (max 1 env.count))

/-- One step within `poll_frame`, on the flight of the body. -/
def Body.poll (fl : Flight H) (disk : Disk Path) (env : Env) (b : Body) : Option Body :=
  match b.state with
  | .idle | .stalled =>
    if b.offset < fl.entry.written then some { b with state := .opening fl.entry.written }
    else some { b with state := .marked }
  | .marked =>
    match fl.entry.outcome with
    | none => some { b with state := .unfinished }
    | some (.success finalSize) =>
      some { b with state := if finalSize ≤ b.offset then .ended else .stalled }
    | some (.failed e) => some { b with state := .failed e }
  | .unfinished => some { b with state := .created fl.entry.notified }
  | .created epoch | .waiting epoch =>
    some { b with state := if epoch < fl.entry.notified then .idle else .waiting epoch }
  | .opening high =>
    let toRead := min (high - b.offset) b.capacity
    if toRead = 0 then some { b with state := .idle }
    else if env.ok then
      match disk.entry fl.entry.tempfile with
      | some file => some { b with state := .reading toRead file }
      | none => some { b with state := .failed (.io .notFound) }
    else some { b with state := .failed (.io .other) }
  | .reading toRead file =>
    if env.ok then
      let bytes := readAt disk env b.offset toRead file
      some { b with
        offset := saturatingAdd b.offset bytes.length, state := .idle, emitted := b.emitted ++ bytes }
    else some { b with state := .failed (.io .other) }
  | .ended | .failed _ => none

/-- The ways in which a body can take a step. -/
inductive Body.Step (fl : Flight H) (disk : Disk Path) (env : Env) (b : Body) : Body → Prop
  | behind (hs : b.state = .idle ∨ b.state = .stalled) (hlt : b.offset < fl.entry.written) :
      Step fl disk env b { b with state := .opening fl.entry.written }
  | caughtUp (hs : b.state = .idle ∨ b.state = .stalled) (hle : fl.entry.written ≤ b.offset) :
      Step fl disk env b { b with state := .marked }
  | unfinished (hs : b.state = .marked) (ho : fl.entry.outcome = none) :
      Step fl disk env b { b with state := .unfinished }
  | done {n : Nat} (hs : b.state = .marked) (ho : fl.entry.outcome = some (.success n))
      (hle : n ≤ b.offset) : Step fl disk env b { b with state := .ended }
  | undrained {n : Nat} (hs : b.state = .marked) (ho : fl.entry.outcome = some (.success n))
      (hlt : b.offset < n) : Step fl disk env b { b with state := .stalled }
  | broken {e : PullThroughError} (hs : b.state = .marked)
      (ho : fl.entry.outcome = some (.failed e)) : Step fl disk env b { b with state := .failed e }
  | register (hs : b.state = .unfinished) :
      Step fl disk env b { b with state := .created fl.entry.notified }
  | woken {epoch : Nat} (hs : b.state = .created epoch ∨ b.state = .waiting epoch)
      (hlt : epoch < fl.entry.notified) : Step fl disk env b { b with state := .idle }
  | park {epoch : Nat} (hs : b.state = .created epoch ∨ b.state = .waiting epoch)
      (hle : fl.entry.notified ≤ epoch) : Step fl disk env b { b with state := .waiting epoch }
  | nothing {high : Nat} (hs : b.state = .opening high) : Step fl disk env b { b with state := .idle }
  | opened {high file : Nat} (hs : b.state = .opening high)
      (hfile : disk.entry fl.entry.tempfile = some file) :
      Step fl disk env b { b with state := .reading (min (high - b.offset) b.capacity) file }
  | missing {high : Nat} (hs : b.state = .opening high)
      (hfile : disk.entry fl.entry.tempfile = none) :
      Step fl disk env b { b with state := .failed (.io .notFound) }
  | read {toRead file : Nat} (hs : b.state = .reading toRead file) :
      Step fl disk env b { b with
        offset := saturatingAdd b.offset (readAt disk env b.offset toRead file).length
        state := .idle
        emitted := b.emitted ++ readAt disk env b.offset toRead file }
  | fault (hfault : env.ok = false) : Step fl disk env b { b with state := .failed (.io .other) }

theorem Body.step_of_poll {fl : Flight H} {disk : Disk Path} {env : Env} {b b' : Body}
    (h : b.poll fl disk env = some b') : b.Step fl disk env b' := by
  have hidle : b.state = .idle ∨ b.state = .stalled →
      (if b.offset < fl.entry.written then some { b with state := .opening fl.entry.written }
        else some { b with state := .marked }) = some b' → b.Step fl disk env b' := by
    intro hs h
    split at h <;> cases h
    · exact .behind hs ‹_›
    · exact .caughtUp hs (by omega)
  have hwait : ∀ epoch, b.state = .created epoch ∨ b.state = .waiting epoch →
      some { b with state := if epoch < fl.entry.notified then .idle else .waiting epoch } = some b' →
      b.Step fl disk env b' := by
    intro epoch hs h
    cases h
    split
    · exact .woken hs ‹_›
    · exact .park hs (by omega)
  unfold Body.poll at h
  split at h
  · exact hidle (.inl ‹_›) h
  · exact hidle (.inr ‹_›) h
  · split at h <;> cases h
    · exact .unfinished ‹_› ‹_›
    · split
      · exact .done ‹_› ‹_› ‹_›
      · exact .undrained ‹_› ‹_› (by omega)
    · exact .broken ‹_› ‹_›
  · cases h
    exact .register ‹_›
  · exact hwait _ (.inl ‹_›) h
  · exact hwait _ (.inr ‹_›) h
  · simp only [] at h
    split at h
    · cases h
      exact .nothing ‹_›
    · split at h
      · split at h <;> cases h
        · exact .opened ‹_› ‹_›
        · exact .missing ‹_› ‹_›
      · cases h
        exact .fault (Bool.eq_false_iff.mpr ‹_›)
  · split at h <;> cases h
    · exact .read ‹_›
    · exact .fault (Bool.eq_false_iff.mpr ‹_›)
  · cases h
  · cases h

/-! ## Requests -/

/-- A `GET` or `HEAD` of a blob. -/
structure Get where
  repo : Str
  digest : Digest
  withBody : Bool
  capacity : Nat
  deriving DecidableEq

/-- The answers to a blob request, but for the body that a fetch streams. -/
inductive Answer where
  | localHit
  | blobUnknown
  | headOk (size : Nat)
  deriving DecidableEq

/-- The next step of a request, with the request itself. -/
inductive Task where
  | lookup (r : Get)
  | stat (r : Get)
  | fill (r : Get)
  | join (r : Get)
  | head (r : Get) (flight : Nat)
  | body (r : Get) (b : Body)
  | answered (r : Get) (a : Answer)
  | removing (repo : Str) (d : Digest)
  | invalidating (repo : Str) (d : Digest)
  | deleted (repo : Str) (d : Digest)
  deriving DecidableEq

/-- What requests and producers share: the files, the table of fetches and the metadata cache. -/
structure Memory (S : Setup) where
  disk : Disk Path
  table : Digest → Option Nat
  flights : List (Flight S.hash)
  /-- The metadata cache has an entry. -/
  cached : Str × Digest → Bool

/-- The task of a request that holds a flight. -/
def Get.attach (r : Get) (flight : Nat) : Task :=
  if r.withBody then .body r ⟨flight, 0, r.capacity, .idle, []⟩ else .head r flight

/-- `PullThroughTable::get_or_insert` with the spawn of the producer. -/
def Memory.getOrInsert (m : Memory S) (repo : Str) (d : Digest) : Memory S × Nat :=
  match m.table d with
  | some f => (m, f)
  | none =>
    ({ m with
      table := Function.update m.table d (some m.flights.length)
      flights := m.flights ++ [.new S.root repo d] }, m.flights.length)

/-- One step of a request: `get_blob`, `serve_blob_via_pullthrough` and `poll_frame`, or the
deletion of a blob. -/
def Task.advance (env : Env) (m : Memory S) : Task → Option (Memory S × Task)
  | .lookup r =>
    some (m, if m.cached (r.repo, r.digest) && env.fresh then .answered r .localHit else .stat r)
  | .stat r =>
    some (m, if (m.disk.entry (blobPath S.root r.repo r.digest)).isSome then .fill r else .join r)
  | .fill r =>
    some ({ m with cached := Function.update m.cached (r.repo, r.digest) true },
      .answered r .localHit)
  | .join r =>
    match S.route r.repo with
    | none => some (m, .answered r .blobUnknown)
    | some _ =>
      let (m', f) := m.getOrInsert r.repo r.digest
      some (m', r.attach f)
  | .head r f =>
    match m.flights[f]?.bind fun fl => fl.entry.outcome with
    | none => none
    | some (.success finalSize) => some (m, .answered r (.headOk finalSize))
    | some (.failed _) => some (m, .answered r .blobUnknown)
  | .body r b =>
    match m.flights[b.flight]? with
    | none => none
    | some fl => (b.poll fl m.disk env).map fun b' => (m, .body r b')
  | .removing repo d =>
    some ({ m with disk := m.disk.remove (blobPath S.root repo d) }, .invalidating repo d)
  | .invalidating repo d =>
    some ({ m with cached := Function.update m.cached (repo, d) false }, .deleted repo d)
  | .answered _ _ | .deleted _ _ => none

/-- The ways in which a request can take a step. -/
inductive Task.Step (env : Env) (m : Memory S) : Task → Memory S → Task → Prop
  | hit {r : Get} : Step env m (.lookup r) m (.answered r .localHit)
  | miss {r : Get} : Step env m (.lookup r) m (.stat r)
  | found {r : Get} (hfile : (m.disk.entry (blobPath S.root r.repo r.digest)).isSome = true) :
      Step env m (.stat r) m (.fill r)
  | absent {r : Get} (hfile : m.disk.entry (blobPath S.root r.repo r.digest) = none) :
      Step env m (.stat r) m (.join r)
  | filled {r : Get} :
      Step env m (.fill r) { m with cached := Function.update m.cached (r.repo, r.digest) true }
        (.answered r .localHit)
  | unrouted {r : Get} (hroute : S.route r.repo = none) :
      Step env m (.join r) m (.answered r .blobUnknown)
  | joined {r : Get} {f : Nat} (htable : m.table r.digest = some f) :
      Step env m (.join r) m (r.attach f)
  | started {r : Get} (htable : m.table r.digest = none) :
      Step env m (.join r)
        { m with
          table := Function.update m.table r.digest (some m.flights.length)
          flights := m.flights ++ [.new S.root r.repo r.digest] }
        (r.attach m.flights.length)
  | headSuccess {r : Get} {f n : Nat} {fl : Flight S.hash} (hfl : m.flights[f]? = some fl)
      (ho : fl.entry.outcome = some (.success n)) :
      Step env m (.head r f) m (.answered r (.headOk n))
  | headFailed {r : Get} {f : Nat} {fl : Flight S.hash} {e : PullThroughError}
      (hfl : m.flights[f]? = some fl) (ho : fl.entry.outcome = some (.failed e)) :
      Step env m (.head r f) m (.answered r .blobUnknown)
  | polled {r : Get} {b b' : Body} {fl : Flight S.hash} (hfl : m.flights[b.flight]? = some fl)
      (hpoll : b.Step fl m.disk env b') : Step env m (.body r b) m (.body r b')
  | removed {repo : Str} {d : Digest} :
      Step env m (.removing repo d) { m with disk := m.disk.remove (blobPath S.root repo d) }
        (.invalidating repo d)
  | invalidated {repo : Str} {d : Digest} :
      Step env m (.invalidating repo d) { m with cached := Function.update m.cached (repo, d) false }
        (.deleted repo d)

theorem Task.step_of_advance {env : Env} {m m' : Memory S} {p p' : Task}
    (h : p.advance env m = some (m', p')) : Task.Step env m p m' p' := by
  cases p with
  | lookup r =>
    simp only [Task.advance] at h
    split at h <;> cases h
    · exact .hit
    · exact .miss
  | stat r =>
    simp only [Task.advance] at h
    split at h <;> cases h
    · exact .found ‹_›
    · rename_i hnone
      exact .absent (Option.not_isSome_iff_eq_none.mp hnone)
  | fill r =>
    cases h
    exact .filled
  | join r =>
    simp only [Task.advance] at h
    split at h
    · cases h
      exact .unrouted ‹_›
    · unfold Memory.getOrInsert at h
      split at h <;> cases h
      · exact .joined ‹_›
      · exact .started ‹_›
  | head r f =>
    simp only [Task.advance] at h
    split at h
    · cases h
    · rename_i ho
      obtain ⟨fl, hfl, ho⟩ := Option.bind_eq_some_iff.mp ho
      cases h
      exact .headSuccess hfl ho
    · rename_i ho
      obtain ⟨fl, hfl, ho⟩ := Option.bind_eq_some_iff.mp ho
      cases h
      exact .headFailed hfl ho
  | body r b =>
    simp only [Task.advance] at h
    split at h
    · cases h
    · obtain ⟨b', hpoll, he⟩ := Option.map_eq_some_iff.mp h
      cases he
      exact .polled ‹_› (Body.step_of_poll hpoll)
  | removing repo d =>
    cases h
    exact .removed
  | invalidating repo d =>
    cases h
    exact .invalidated
  | answered r a => cases h
  | deleted repo d => cases h

/-! ## Runs -/

/-- What can happen: a request comes, a task or a producer moves, or buffered bytes reach a file. -/
inductive Act where
  | request (r : Get)
  | delete (repo : Str) (d : Digest)
  | turn (i : Nat) (env : Env)
  | produce (f : Nat) (env : Env)
  | land (f n : Nat)

/-- The memory after a step of the producer of `fl`: `leaving` removes the digest from the table
and `caching` fills the metadata cache. -/
def Memory.produced (m : Memory S) (f : Nat) (fl fl' : Flight S.hash) (disk : Disk Path) :
    Memory S where
  disk := disk
  flights := m.flights.set f fl'
  table := match fl.producer with
    | .leaving _ => Function.update m.table fl.entry.digest none
    | _ => m.table
  cached := match fl.producer with
    | .caching => Function.update m.cached (fl.repo, fl.entry.digest) true
    | _ => m.cached

/-- The producer with the given number takes a step. -/
def Memory.produce (m : Memory S) (f : Nat) (env : Env) : Option (Memory S) :=
  match m.flights[f]? with
  | none => none
  | some fl => (fl.advance S.root env m.disk).map fun (disk, fl') => m.produced f fl fl' disk

/-- The first bytes of a producer's buffer reach the file. -/
def Memory.land (m : Memory S) (f n : Nat) : Option (Memory S) :=
  match m.flights[f]? with
  | none => none
  | some fl =>
    fl.file.map fun file =>
      { m with
        disk := m.disk.append file (fl.buffer.take n)
        flights := m.flights.set f { fl with buffer := fl.buffer.drop n } }

/-- One step of the server; `none` where the action is impossible. -/
def step (s : Pool (Memory S) Task) : Act → Option (Pool (Memory S) Task)
  | .request r => some (s.spawn (.lookup r))
  | .delete repo d => some (s.spawn (.removing repo d))
  | .turn i env => s.turn (Task.advance env) i
  | .produce f env => (s.memory.produce f env).map fun m => { s with memory := m }
  | .land f n => (s.memory.land f n).map fun m => { s with memory := m }

/-- The ways in which the server can take a step. -/
inductive Step (s : Pool (Memory S) Task) : Act → Pool (Memory S) Task → Prop
  | request (r : Get) : Step s (.request r) (s.spawn (.lookup r))
  | delete (repo : Str) (d : Digest) : Step s (.delete repo d) (s.spawn (.removing repo d))
  | turn {i : Nat} {env : Env} {before after : List Task} {p p' : Task} {m : Memory S}
      (hget : s.tasks[i]? = some p) (htasks : s.tasks = before ++ p :: after)
      (hstep : Task.Step env s.memory p m p') :
      Step s (.turn i env) ⟨m, before ++ p' :: after⟩
  | produce {f : Nat} {env : Env} {fl fl' : Flight S.hash} {disk : Disk Path}
      (hfl : s.memory.flights[f]? = some fl) (hstep : fl.Step S.root env s.memory.disk disk fl') :
      Step s (.produce f env) ⟨s.memory.produced f fl fl' disk, s.tasks⟩
  | land {f n file : Nat} {fl : Flight S.hash} (hfl : s.memory.flights[f]? = some fl)
      (hfile : fl.file = some file) :
      Step s (.land f n)
        ⟨{ s.memory with
          disk := s.memory.disk.append file (fl.buffer.take n)
          flights := s.memory.flights.set f { fl with buffer := fl.buffer.drop n } }, s.tasks⟩

theorem step_of_eq {s t : Pool (Memory S) Task} {a : Act} (h : step s a = some t) : Step s a t := by
  cases a with
  | request r =>
    cases h
    exact .request r
  | delete repo d =>
    cases h
    exact .delete repo d
  | turn i env =>
    obtain ⟨before, p, after, m, p', hget, htasks, hadv, rfl⟩ := Pool.turn_cases h
    exact .turn hget htasks (Task.step_of_advance hadv)
  | produce f env =>
    obtain ⟨m, hm, rfl⟩ := Option.map_eq_some_iff.mp h
    unfold Memory.produce at hm
    split at hm
    · cases hm
    · obtain ⟨⟨disk, fl'⟩, hadv, rfl⟩ := Option.map_eq_some_iff.mp hm
      exact .produce ‹_› (Flight.step_of_advance hadv)
  | land f n =>
    obtain ⟨m, hm, rfl⟩ := Option.map_eq_some_iff.mp h
    unfold Memory.land at hm
    split at hm
    · cases hm
    · obtain ⟨file, hfile, rfl⟩ := Option.map_eq_some_iff.mp hm
      exact .land ‹_› hfile

/-- A server without requests and fetches, on any disk and with any metadata cached. -/
def idleServer (disk : Disk Path) (cached : Str × Digest → Bool) : Pool (Memory S) Task :=
  ⟨⟨disk, fun _ => none, [], cached⟩, []⟩

end Quill.PullThrough
