import Quill.PullThrough.Tailing
import Quill.Registry.Pulls
import Quill.Storage.Codec

/-!
# `HEAD` and `GET` of a blob

A `HEAD` waits for the fetch of a missing blob and reports its outcome, a `GET` answers before
the upstream does and streams. `exec_fetchBlob` says when a fetch succeeds, in terms of the
stream and of the files before it. `getBlobDuring` is `get_blob` with the table of the fetches
in flight, and `Agree` compares the two answers in one state. `head_get_agree_iff` says
exactly when they agree.
-/

namespace Quill.Registry.HeadGet

open Text Files Cas World LocalStorage Uploads PullThrough

variable {S : Setup}

/-! ## When a fetch succeeds -/

section Fetch

variable {tempfile finalPath : Path} {d : Digest} {stream : List (Option Bytes)} {w w' : World S}

theorem exec_receive_chunks (chunks : List Bytes) {hasher : S.hash.State} {c : Bytes} (w : World S)
    (hread : w.fs.read tempfile = some c) (hfed : S.hash.Fed hasher c) :
    ∃ hasher' w', (receive tempfile (chunks.map some) hasher (tally c)).exec w =
        (.ok (hasher', tally (c ++ chunks.flatten)), w') ∧
      S.hash.Fed hasher' (c ++ chunks.flatten) ∧
      w'.fs.read tempfile = some (c ++ chunks.flatten) ∧
      ∀ q, q ≠ tempfile → w'.fs.node q = w.fs.node q := by
  induction chunks generalizing hasher c w with
  | nil =>
    refine ⟨hasher, w, ?_, ?_, ?_, fun _ _ => rfl⟩
    · rw [List.flatten_nil, List.append_nil]
      rfl
    · simpa using hfed
    · simpa using hread
  | cons chunk chunks ih =>
    rcases Fs.exec_appendFile tempfile chunk w.fs with ⟨c', hc', he⟩ | ⟨hno, -⟩
    · rw [hread] at hc'
      cases hc'
      obtain ⟨hasher', w', hrun, hfed', hread', hkeep⟩ := ih
        { w with fs := w.fs.set tempfile (.file (c ++ chunk)) }
        (by rw [Fs.read_eq_some, Fs.node_set, if_pos rfl]) (hfed.update chunk)
      rw [List.append_assoc, ← List.flatten_cons] at hrun hfed' hread'
      refine ⟨hasher', w', ?_, hfed', hread', fun q hq => ?_⟩
      · have hstep : (receive tempfile ((chunk :: chunks).map some) hasher (tally c)).exec w = _ :=
          Prog.exec_bind_ok (exec_mapError_ok (exec_onFs_ok he))
        rw [hstep, saturatingAdd_tally]
        exact hrun
      · rw [hkeep q hq, Fs.node_set, if_neg hq]
    · rw [hread] at hno
      cases hno

/-- Only a stream without an error is received. -/
theorem chunks_of_receive {hasher : S.hash.State} {total : Nat} {x : S.hash.State × Nat}
    (h : (receive tempfile stream hasher total).exec w = (.ok x, w')) :
    ∃ chunks : List Bytes, stream = chunks.map some := by
  induction stream generalizing hasher total w with
  | nil => exact ⟨[], rfl⟩
  | cons item stream ih =>
    cases item with
    | none => cases h
    | some chunk =>
      obtain ⟨-, w₁, -, hrest⟩ := Prog.exec_bind_eq_ok.mp h
      obtain ⟨chunks, rfl⟩ := ih hrest
      exact ⟨chunk :: chunks, rfl⟩

/-- What is in the way of a path does not change with another file that is not above it. -/
theorem blocked_congr {fs fs' : Fs} {p t : Path} (ht : ¬ t <:+ p.tail)
    (hkeep : ∀ q, q ≠ t → fs'.read q = fs.read q) : fs'.blocked p = fs.blocked p := by
  refine Bool.eq_iff_iff.mpr (not_iff_not.mp ?_)
  simp only [Bool.not_eq_true, Fs.blocked_eq_false]
  refine forall_congr' fun q => imp_congr_right fun hq => ?_
  rw [hkeep q fun he => ht (he ▸ hq)]

/-- What follows the creation of the tempfile succeeds on a stream of the digest whose blob has
room. -/
theorem exec_produce_ok (hne : finalPath ≠ tempfile) (htail : ¬ tempfile <:+ finalPath.tail)
    (hread : w.fs.read tempfile = some []) {chunks : List Bytes}
    (hhex : S.hash.hex chunks.flatten = d.hex) (hblocked : w.fs.blocked finalPath = false)
    (hdir : w.fs.isDir finalPath = false) :
    ∃ w', (produce d tempfile finalPath (chunks.map some)).exec w =
        (.ok (tally chunks.flatten), w') ∧ w'.fs.read finalPath = some chunks.flatten := by
  obtain ⟨hasher, w₁, hrecv, hfed, hread₁, hkeep⟩ :=
    exec_receive_chunks chunks w hread S.hash.fed_new
  rw [List.nil_append] at hrecv hfed hread₁
  have hrun : (produce d tempfile finalPath (chunks.map some)).exec w = _ := Prog.exec_bind_ok hrecv
  have hblocked₁ := (blocked_congr htail fun q hq => Fs.read_congr (hkeep q hq)).trans hblocked
  have hdir₁ := (Fs.isDir_congr (hkeep finalPath hne)).trans hdir
  obtain ⟨fs₂, hmk, hgrow, hparent, hdst⟩ := Fs.exec_createDirAll_tail hblocked₁ hdir₁
  have hread₂ : fs₂.read tempfile = some chunks.flatten := (Fs.growsDirs_read hgrow _).trans hread₁
  have hrename := Fs.exec_rename_ok hread₂ hparent hdst
  have hpromote : (promote tempfile finalPath).exec { w₁ with fs := fs₂ } = _ :=
    (Prog.exec_bind_ok (Prog.exec_get _)).trans (Prog.exec_bind_ok (exec_onFs_ok hrename))
  rw [hrun]
  simp only [hfed.finalize, hhex, ne_eq, not_true_eq_false, if_false]
  rw [Prog.exec_bind_ok (exec_mapError_ok (exec_onFs_ok hmk)),
    Prog.exec_bind_ok (exec_mapError_ok hpromote)]
  refine ⟨_, rfl, ?_⟩
  show ((fs₂.del tempfile).set finalPath _).read finalPath = _
  rw [Fs.read_eq_some, Fs.node_set, if_pos rfl]

/-- Nothing else succeeds. -/
theorem of_exec_produce_ok (hne : finalPath ≠ tempfile) (htail : ¬ tempfile <:+ finalPath.tail)
    (hread : w.fs.read tempfile = some []) {n : Nat}
    (h : (produce d tempfile finalPath stream).exec w = (.ok n, w')) :
    ∃ chunks : List Bytes, stream = chunks.map some ∧ S.hash.hex chunks.flatten = d.hex ∧
      w.fs.blocked finalPath = false ∧ w.fs.isDir finalPath = false := by
  obtain ⟨x, w₁, hrecv, hrest⟩ := Prog.exec_bind_eq_ok.mp h
  obtain ⟨chunks, rfl⟩ := chunks_of_receive hrecv
  obtain ⟨hasher, w₁', hrecv', hfed, -, hkeep⟩ := exec_receive_chunks chunks w hread S.hash.fed_new
  cases hrecv.symm.trans hrecv'
  rw [List.nil_append] at hfed
  have hblocked := blocked_congr htail fun q hq => Fs.read_congr (hkeep q hq)
  have hdir := Fs.isDir_congr (hkeep finalPath hne)
  simp only [hfed.finalize] at hrest
  split at hrest
  · cases hrest
  · rename_i hhex
    obtain ⟨⟨⟩, w₂, hmk, hrest⟩ := Prog.exec_bind_eq_ok.mp hrest
    obtain ⟨⟨⟩, w₃, hpromote, -⟩ := Prog.exec_bind_eq_ok.mp hrest
    obtain ⟨fs₂, hdirs, rfl⟩ := exec_onFs_eq_ok hmk
    refine ⟨chunks, rfl, not_not.mp hhex, ?_, ?_⟩
    · rw [← hblocked]
      exact Fs.exec_createDirAll_iff.mp ⟨fs₂, hdirs⟩
    · rcases exec_promote { w₁ with fs := fs₂ } tempfile finalPath with ⟨b, -, hdst, -⟩ | ⟨e, he⟩
      · rw [← hdir]
        by_contra htrue
        have hgrown := Fs.growsDirs_isDir ((Fs.createDirAll_grows _).rel_of_exec hdirs)
          (Bool.not_eq_false _ ▸ htrue)
        cases hdst.symm.trans hgrown
      · rw [exec_mapError_error he] at hpromote
        cases hpromote

/-- The directories and the empty tempfile leave the room of the blob as it was. -/
theorem opened_room (hne : ¬ finalPath <:+ tempfile) (htail : ¬ tempfile <:+ finalPath.tail)
    {fs fs₁ : Fs} (hmk : (Fs.createDirAll tempfile.tail).exec fs = (.ok (), fs₁)) :
    (fs₁.set tempfile (.file [])).blocked finalPath = fs.blocked finalPath ∧
      (fs₁.set tempfile (.file [])).isDir finalPath = fs.isDir finalPath := by
  have hgrow : Fs.growsDirs.rel fs fs₁ := (Fs.createDirAll_grows _).rel_of_exec hmk
  have hfinal : finalPath ≠ tempfile := fun he => hne (he ▸ List.suffix_refl _)
  have hset : ∀ q, q ≠ tempfile → (fs₁.set tempfile (.file [])).node q = fs₁.node q := by
    intro q hq
    rw [Fs.node_set, if_neg hq]
  have hnode : fs₁.node finalPath = fs.node finalPath :=
    (Fs.createDirAll_node fun h => hne (h.trans (List.tail_suffix _))).rel_of_exec hmk
  refine ⟨blocked_congr htail fun q hq => ?_, Fs.isDir_congr ((hset _ hfinal).trans hnode)⟩
  rw [Fs.read_congr (hset q hq), Fs.growsDirs_read hgrow]

theorem exec_runProducer_ok (hne : ¬ finalPath <:+ tempfile) (htail : ¬ tempfile <:+ finalPath.tail)
    (htemp : w.fs.blocked tempfile = false ∧ w.fs.isDir tempfile = false) {chunks : List Bytes}
    (hhex : S.hash.hex chunks.flatten = d.hex)
    (hfinal : w.fs.blocked finalPath = false ∧ w.fs.isDir finalPath = false) :
    ∃ w', (runProducer d tempfile finalPath (chunks.map some)).exec w =
        (.ok (tally chunks.flatten), w') ∧ w'.fs.read finalPath = some chunks.flatten := by
  obtain ⟨fs₁, hmk, -, hparent, hdst⟩ := Fs.exec_createDirAll_tail htemp.1 htemp.2
  rcases Fs.exec_writeFile tempfile [] fs₁ with ⟨-, -, hwrite⟩ | ⟨e, hwrite⟩
  · obtain ⟨hblocked, hdir⟩ := opened_room hne htail hmk
    have hdiff : finalPath ≠ tempfile := fun he => hne (he ▸ List.suffix_refl _)
    obtain ⟨w', hproduce, hread⟩ := exec_produce_ok
      (w := { w with fs := fs₁.set tempfile (.file []) }) hdiff htail (by rw [Fs.read_eq_some, Fs.node_set, if_pos rfl]) hhex (hblocked.trans hfinal.1)
      (hdir.trans hfinal.2)
    have hrun : (runProducer d tempfile finalPath (chunks.map some)).exec w = _ :=
      Prog.exec_bind_ok (exec_mapError_ok (exec_onFs_ok hmk))
    rw [hrun, Prog.exec_bind_ok (exec_mapError_ok (exec_onFs_ok hwrite)),
      Prog.exec_bind_ok (Prog.exec_attempt_eq.mpr hproduce)]
    exact ⟨w', rfl, hread⟩
  · simp [Fs.writeFile, hparent, hdst] at hwrite

theorem of_exec_runProducer_ok (hne : ¬ finalPath <:+ tempfile)
    (htail : ¬ tempfile <:+ finalPath.tail) {n : Nat}
    (h : (runProducer d tempfile finalPath stream).exec w = (.ok n, w')) :
    (w.fs.blocked tempfile = false ∧ w.fs.isDir tempfile = false) ∧
      (∃ chunks : List Bytes, stream = chunks.map some ∧ S.hash.hex chunks.flatten = d.hex) ∧
      w.fs.blocked finalPath = false ∧ w.fs.isDir finalPath = false := by
  obtain ⟨⟨⟩, w₁, hmk, hrest⟩ := Prog.exec_bind_eq_ok.mp h
  obtain ⟨⟨⟩, w₂, hopen, hrest⟩ := Prog.exec_bind_eq_ok.mp hrest
  obtain ⟨r, w₃, hattempt, hrest⟩ := Prog.exec_bind_eq_ok.mp hrest
  obtain ⟨fs₁, hdirs, rfl⟩ := exec_onFs_eq_ok hmk
  obtain ⟨fs₂, hwrite, rfl⟩ := exec_onFs_eq_ok hopen
  rcases Fs.exec_writeFile tempfile [] fs₁ with ⟨hdst, -, hwritten⟩ | ⟨e, hwritten⟩
  · cases hwrite.symm.trans hwritten
    have hproduce := Prog.exec_attempt_eq.mp hattempt
    cases r with
    | error e =>
      obtain ⟨_, _, _, hthrow⟩ := Prog.exec_bind_eq_ok.mp hrest
      cases hthrow
    | ok m =>
      have hdiff : finalPath ≠ tempfile := fun he => hne (he ▸ List.suffix_refl _)
      obtain ⟨chunks, hstream, hhex, hblocked, hdir⟩ := of_exec_produce_ok hdiff htail
        (by rw [Fs.read_eq_some, Fs.node_set, if_pos rfl]) hproduce
      obtain ⟨hblocked', hdir'⟩ := opened_room hne htail hdirs
      refine ⟨⟨Fs.exec_createDirAll_iff.mp ⟨fs₁, hdirs⟩, ?_⟩, ⟨chunks, hstream, hhex⟩,
        hblocked'.symm.trans hblocked, hdir'.symm.trans hdir⟩
      by_contra htrue
      have hgrown := Fs.growsDirs_isDir ((Fs.createDirAll_grows _).rel_of_exec hdirs)
        (Bool.not_eq_false _ ▸ htrue)
      cases hdst.symm.trans hgrown
  · cases hwrite.symm.trans hwritten

/-- The upstream has the chunks of the blob, and there is room for the tempfile and the blob. -/
structure Fetchable (w : World S) (repo : Str) (d : Digest) (reply : Option (List (Option Bytes)))
    (chunks : List Bytes) : Prop where
  reply : reply = some (chunks.map some)
  hash : S.hash.hex chunks.flatten = d.hex
  temp : w.fs.blocked (PullThrough.tempfilePath S.root repo d) = false ∧
    w.fs.isDir (PullThrough.tempfilePath S.root repo d) = false
  blob : w.fs.blocked (blobPath S.root repo d) = false ∧
    w.fs.isDir (blobPath S.root repo d) = false

variable {repo : Str} {reply : Option (List (Option Bytes))}

/-- A fetch of a fetchable blob reports its length and leaves it in the store. -/
theorem exec_fetchBlob_ok {chunks : List Bytes} (h : Fetchable w repo d reply chunks) :
    ∃ w', (fetchBlob repo d reply).exec w = (.ok (tally chunks.flatten), w') ∧
      w'.fs.read (blobPath S.root repo d) = some chunks.flatten := by
  obtain ⟨rfl, hhash, htemp, hblob⟩ := h
  obtain ⟨w₁, hrun, hread⟩ := exec_runProducer_ok (w := called w (.streamBlob repo d))
    (blobPath_not_suffix S.root repo d) (tempfilePath_not_suffix S.root repo d) htemp hhash hblob
  have hfetch : (fetchBlob repo d (some (chunks.map some))).exec w = _ :=
    (Prog.exec_bind_ok (exec_call w (.streamBlob repo d))).trans (Prog.exec_bind_ok hrun)
  rw [hfetch]
  exact ⟨_, rfl, hread⟩

theorem exec_fetchBlob_error (h : ¬ ∃ chunks, Fetchable w repo d reply chunks) :
    ∃ e w', (fetchBlob repo d reply).exec w = (.error e, w') := by
  rcases hrun : (fetchBlob repo d reply).exec w with ⟨e | n, w'⟩
  · exact ⟨e, w', rfl⟩
  · exfalso
    obtain ⟨⟨⟩, w₁, hcall, hrest⟩ := Prog.exec_bind_eq_ok.mp hrun
    cases (exec_call w _).symm.trans hcall
    cases reply with
    | none => cases hrest
    | some stream =>
      obtain ⟨total, w₂, hproducer, -⟩ := Prog.exec_bind_eq_ok.mp hrest
      obtain ⟨htemp, ⟨chunks, hstream, hhash⟩, hblob⟩ := of_exec_runProducer_ok
        (blobPath_not_suffix S.root repo d) (tempfilePath_not_suffix S.root repo d) hproducer
      exact h ⟨chunks, congrArg some hstream, hhash, htemp, hblob⟩

end Fetch

/-! ## Two requests in one state -/

/-- A fetch that another request has started, as its producer leaves it. -/
structure InFlight where
  received : Bytes
  outcome : ProducerOutcome
  counted : ∀ n, outcome = .success n → n = tally received

/-- A flight of the server whose outcome is published. -/
def InFlight.ofFlight {H : StreamingHash} (fl : Flight H) (h : fl.Counted) {o : ProducerOutcome}
    (ho : fl.entry.outcome = some o) : InFlight where
  received := fl.received
  outcome := o
  counted n hn := by
    subst hn
    rw [tally_eq h.small]
    exact (h.outcome _ ho).2

/-- A body of the flight that has ended has emitted what the flight received. -/
theorem InFlight.emitted_of_ended {H : StreamingHash} {fl : Flight H} (h : fl.Counted)
    {o : ProducerOutcome} (ho : fl.entry.outcome = some o) {b : PullThrough.Body}
    (hb : b.Faithful fl) (hended : b.state = .ended) :
    b.emitted = (InFlight.ofFlight fl h ho).received := (hb.ended hended).1

/-- `serve_blob_via_pullthrough` of a request that joins a fetch. -/
def subscribe (fl : InFlight) (d : Digest) (withBody : Bool) : Handler S :=
  if withBody then
    build .ok [(.dockerContentDigest, d.toStr), (.contentType, "application/octet-stream".toList),
      (.transferEncoding, "chunked".toList)] (.pullThrough d)
  else
    match fl.outcome with
    | .success finalSize =>
      build .ok [(.contentLength, decimal finalSize), (.dockerContentDigest, d.toStr)] .empty
    | .failed _ => return blobUnknown d.toStr

/-- `get_blob` with the fetches that are in flight. -/
def getBlobDuring (table : Digest → Option InFlight) (repo digest : Str) (withBody : Bool)
    (up : Replies) : Handler S :=
  match Digest.parse digest with
  | .error _ => return digestInvalid digest
  | .ok d => do
    match ← (blobMeta repo d).attempt with
    | .error e => return internalErr (.storage e)
    | .ok (some m) => serveLocalBlob m d withBody
    | .ok none =>
      match S.route repo with
      | none => return blobUnknown digest
      | some _ =>
        match table d with
        | some fl => subscribe fl d withBody
        | none => serveBlobViaPullthrough repo d withBody up.streamBlob

theorem getBlobDuring_none (repo digest : Str) (withBody : Bool) (up : Replies) :
    getBlobDuring (S := S) (fun _ => none) repo digest withBody up =
      getBlob repo digest withBody up := rfl

/-- The bytes that the client of a `GET` receives, when it keeps up with a fetch. -/
def delivered (table : Digest → Option InFlight) (repo : Str) (w : World S) : Body → Option Bytes
  | .file b => some b
  | .pullThrough d =>
    match table d with
    | some fl => some fl.received
    | none => w.fs.read (blobPath S.root repo d)
  | _ => none

/-- The answer `h` to a `HEAD` announces the answer `g` to a `GET` with its body. -/
structure Announces (h g : Response) (body : Option Bytes) : Prop where
  status : h.status = g.status
  digest : g.status = .ok → h.header .dockerContentDigest = g.header .dockerContentDigest
  length : g.status = .ok → ∃ b, body = some b ∧ h.header .contentLength = some (decimal b.length)

/-- `HEAD` and `GET` of the blob agree in the state `w`. -/
def Agree (table : Digest → Option InFlight) (w : World S) (repo digest : Str) (up : Replies) : Prop :=
  ∃ h g w₁ w₂, (getBlobDuring table repo digest false up).exec w = (.ok h, w₁) ∧
    (getBlobDuring table repo digest true up).exec w = (.ok g, w₂) ∧
    Announces h g (delivered table repo w₂ g.body)

/-- What the metadata cache says of the blob is true of the disk. -/
def CacheTrue (w : World S) (repo : Str) (d : Digest) : Prop :=
  ∃ m b, w.metaCache.lookup (repo, d) = some m ∧ w.fs.read m.path = some b ∧ b.length = m.size

/-- The fetch of the blob, in flight or started by the request, succeeds. -/
def Fetches (table : Digest → Option InFlight) (w : World S) (repo : Str) (d : Digest)
    (up : Replies) : Prop :=
  match table d with
  | some fl => (∃ n, fl.outcome = .success n) ∧ fl.received.length < u64
  | none => ∃ chunks, Fetchable w repo d up.streamBlob chunks ∧ chunks.flatten.length < u64

/-- A fresh entry of the metadata cache is true, and without one the blob is on disk, cannot be
looked for, or has no upstream to fetch it from, or its fetch succeeds. -/
def Answerable (table : Digest → Option InFlight) (w : World S) (repo digest : Str)
    (up : Replies) : Prop :=
  ∀ d, Digest.parse digest = .ok d →
    if cacheFresh w repo d then CacheTrue w repo d
    else w.fs.isFile (blobPath S.root repo d) = true ∨ obstructed w repo d = true ∨
      S.route repo = none ∨ Fetches table w repo d up

section Agreement

variable {table : Digest → Option InFlight} {repo digest : Str} {up : Replies} {w w₁ : World S}
  {d : Digest}

theorem agree_iff {h g : Response} {w₁ w₂ : World S}
    (hhead : (getBlobDuring table repo digest false up).exec w = (.ok h, w₁))
    (hget : (getBlobDuring table repo digest true up).exec w = (.ok g, w₂)) :
    Agree table w repo digest up ↔ Announces h g (delivered table repo w₂ g.body) := by
  constructor
  · rintro ⟨h', g', w₁', w₂', hhead', hget', hann⟩
    cases hhead.symm.trans hhead'
    cases hget.symm.trans hget'
    exact hann
  · exact fun hann => ⟨h, g, w₁, w₂, hhead, hget, hann⟩

/-- An answer that does not depend on the method and is no success agrees with itself. -/
theorem agree_of_same {r : Response} (hr : r.status ≠ .ok)
    (h : ∀ withBody, (getBlobDuring table repo digest withBody up).exec w = (.ok r, w₁)) :
    Agree table w repo digest up :=
  ⟨r, r, w₁, w₁, h false, h true, rfl, fun hok => absurd hok hr, fun hok => absurd hok hr⟩

theorem decimal_injective {m n : Nat} (h : decimal m = decimal n) : m = n := by
  have hread : ∀ k, Nat.ofDigitChars 10 (decimal k) 0 = k := by
    intro k
    rw [decimal, Nat.toString_eq_repr, Nat.toList_repr]
    exact Nat.ofDigitChars_ten_toDigits
  rw [← hread m, h, hread n]

theorem tally_eq_length_iff (b : Bytes) : tally b = b.length ↔ b.length < u64 := by
  unfold tally
  have hpos : 0 < u64 := by decide
  omega

/-- The answer to a `HEAD` of a blob of `n` bytes. -/
def sized (n : Nat) (d : Digest) : Response :=
  ⟨.ok, [(.contentLength, decimal n), (.dockerContentDigest, d.toStr)], .empty⟩

theorem exec_sized (n : Nat) (d : Digest) (w : World S) :
    (build .ok [(.contentLength, decimal n), (.dockerContentDigest, d.toStr)] .empty :
      Handler S).exec w = (.ok (sized n d), w) := by
  rw [exec_build]
  simp [legalHeaderValue_decimal, legalHeaderValue_toStr, sized]

theorem exec_streamed (d : Digest) (w : World S) :
    (build .ok [(.dockerContentDigest, d.toStr), (.contentType, "application/octet-stream".toList),
      (.transferEncoding, "chunked".toList)] (.pullThrough d) : Handler S).exec w =
      (.ok (streamAnswer d), w) := by
  rw [exec_build, if_pos]
  · rfl
  · simp only [List.all_cons, List.all_nil, legalHeaderValue_toStr, Bool.true_and, Bool.and_true]
    decide

/-- A fetch announces its body exactly when it reports the length of what it delivers. -/
theorem announces_streamed_iff (n : Nat) (d : Digest) (b : Bytes) :
    Announces (sized n d) (streamAnswer d) (some b) ↔ n = b.length := by
  constructor
  · intro h
    obtain ⟨b', hb', hlen⟩ := h.length rfl
    cases hb'
    exact decimal_injective (Option.some.inj hlen)
  · rintro rfl
    exact ⟨rfl, fun _ => rfl, fun _ => ⟨b, rfl, rfl⟩⟩

/-- A request for a blob goes on as the metadata says. -/
theorem exec_getBlobDuring (table : Digest → Option InFlight) (up : Replies)
    (hd : Digest.parse digest = .ok d) {r : Except StorageError (Option BlobMeta)}
    (hmeta : (blobMeta repo d).exec w = (r, w₁)) (withBody : Bool) :
    (getBlobDuring table repo digest withBody up).exec w =
      (match r with
        | .error e => return internalErr (.storage e)
        | .ok (some m) => serveLocalBlob m d withBody
        | .ok none =>
          match S.route repo with
          | none => return blobUnknown digest
          | some _ =>
            match table d with
            | some fl => subscribe fl d withBody
            | none => serveBlobViaPullthrough repo d withBody up.streamBlob : Handler S).exec w₁ := by
  unfold getBlobDuring
  rw [hd]
  simp only
  rw [Prog.exec_bind_ok (Prog.exec_attempt_eq.mpr hmeta)]
  rcases r with e | _ | m <;> rfl

/-- The answers to a `GET` of a blob whose metadata was found. -/
theorem exec_serveLocalBlob (m : BlobMeta) (d : Digest) (w : World S) :
    (∃ b, w.fs.read m.path = some b ∧ (serveLocalBlob m d true : Handler S).exec w =
      (.ok ⟨.ok, [(.contentLength, decimal m.size), (.dockerContentDigest, d.toStr),
        (.contentType, "application/octet-stream".toList)], .file b⟩, w)) ∨
    (w.fs.read m.path = none ∧ ∃ e w', (serveLocalBlob m d true : Handler S).exec w =
      (.ok (internalErr (.storage e)), w')) := by
  rcases Fs.exec_readFile m.path w.fs with ⟨b, hb, he⟩ | ⟨hno, e, he⟩
  · have hread : (readBlobToBytes m).exec w = (.ok b, w) := exec_mapError_ok (exec_onFs_ok he)
    have hrun : (serveLocalBlob m d true : Handler S).exec w = _ :=
      Prog.exec_bind_ok (Prog.exec_attempt_eq.mpr hread)
    refine Or.inl ⟨b, hb, ?_⟩
    rw [hrun]
    simp only
    rw [exec_build, if_pos]
    simp only [List.all_cons, List.all_nil, legalHeaderValue_toStr, legalHeaderValue_decimal,
      Bool.true_and, Bool.and_true]
    decide
  · have hread : (readBlobToBytes m).exec w = _ := exec_mapError_error (exec_onFs_error he)
    have hrun : (serveLocalBlob m d true : Handler S).exec w = _ :=
      Prog.exec_bind_ok (Prog.exec_attempt_eq.mpr hread)
    exact Or.inr ⟨hno, _, _, hrun⟩

/-- Over found metadata the answers agree exactly when the file is there with that size. -/
theorem agree_local_iff (hd : Digest.parse digest = .ok d) {m : BlobMeta}
    (hmeta : (blobMeta repo d).exec w = (.ok (some m), w₁)) (hfs : w₁.fs = w.fs) :
    Agree table w repo digest up ↔ ∃ b, w.fs.read m.path = some b ∧ b.length = m.size := by
  have hhead := (exec_getBlobDuring table up hd hmeta false).trans
    (exec_sized m.size d w₁)
  have hget := exec_getBlobDuring table up hd hmeta true
  rw [← hfs]
  rcases exec_serveLocalBlob m d w₁ with ⟨b, hb, he⟩ | ⟨hno, e, w₂, he⟩
  · rw [agree_iff hhead (hget.trans he)]
    constructor
    · intro h
      obtain ⟨b', hb', hlen⟩ := h.length rfl
      cases hb'
      exact ⟨b, hb, (decimal_injective (Option.some.inj hlen)).symm⟩
    · rintro ⟨b', hb', hlen⟩
      cases hb.symm.trans hb'
      exact ⟨rfl, fun _ => rfl, fun _ => ⟨b, rfl, by rw [hlen]; rfl⟩⟩
  · rw [agree_iff hhead (hget.trans he)]
    constructor
    · intro h
      exact absurd h.status (show Status.ok ≠ Status.internalServerError by decide)
    · rintro ⟨b, hb, -⟩
      cases hno.symm.trans hb

theorem fetchable_congr {w' : World S} (hfs : w'.fs = w.fs) {reply : Option (List (Option Bytes))}
    {chunks : List Bytes} :
    Fetchable w' repo d reply chunks ↔ Fetchable w repo d reply chunks := by
  constructor
  · rintro ⟨hreply, hhash, htemp, hblob⟩
    rw [hfs] at htemp hblob
    exact ⟨hreply, hhash, htemp, hblob⟩
  · rintro ⟨hreply, hhash, htemp, hblob⟩
    rw [← hfs] at htemp hblob
    exact ⟨hreply, hhash, htemp, hblob⟩

/-- Over a missing blob the answers agree exactly when the fetch succeeds: a `GET` has answered
before that is known. -/
theorem agree_fetch_iff (hd : Digest.parse digest = .ok d)
    (hmeta : (blobMeta repo d).exec w = (.ok none, w₁)) (hfs : w₁.fs = w.fs) {p : Str}
    (hroute : S.route repo = some p) :
    Agree table w repo digest up ↔ Fetches table w repo d up := by
  have hhead := exec_getBlobDuring table up hd hmeta false
  have hget := exec_getBlobDuring table up hd hmeta true
  simp only [hroute] at hhead hget
  unfold Fetches
  cases htable : table d with
  | some fl =>
    simp only [htable] at hhead hget ⊢
    have hget' := hget.trans (exec_streamed d w₁)
    rcases ho : fl.outcome with n | e
    · have hhead' : (getBlobDuring table repo digest false up).exec w = (.ok (sized n d), w₁) := by
        rw [hhead, subscribe, ho]
        exact exec_sized n d w₁
      have hbody : delivered table repo w₁ (streamAnswer d).body = some fl.received := by
        simp [delivered, streamAnswer, htable]
      rw [agree_iff hhead' hget', hbody, announces_streamed_iff, fl.counted n ho,
        tally_eq_length_iff]
      simp
    · have hhead' : (getBlobDuring table repo digest false up).exec w =
          (.ok (blobUnknown d.toStr), w₁) := by
        rw [hhead, subscribe, ho]
        rfl
      rw [agree_iff hhead' hget']
      constructor
      · intro h
        exact absurd h.status (show Status.notFound ≠ Status.ok by decide)
      · rintro ⟨⟨n, hn⟩, -⟩
        cases hn
  | none =>
    simp only [htable] at hhead hget ⊢
    by_cases hfetch : ∃ chunks, Fetchable w repo d up.streamBlob chunks
    · obtain ⟨chunks, hchunks⟩ := hfetch
      obtain ⟨w₂, hrun, hread⟩ := exec_fetchBlob_ok ((fetchable_congr hfs).mpr hchunks)
      have hattempt : ((fetchBlob repo d up.streamBlob).attempt : Prog (World S) Abort _).exec w₁ = _ :=
        Prog.exec_attempt_eq.mpr hrun
      have hhead' : (getBlobDuring table repo digest false up).exec w =
          (.ok (sized (tally chunks.flatten) d), w₂) :=
        (hhead.trans (Prog.exec_bind_ok hattempt)).trans (exec_sized _ d w₂)
      have hget' : (getBlobDuring table repo digest true up).exec w = (.ok (streamAnswer d), w₂) :=
        (hget.trans (Prog.exec_bind_ok hattempt)).trans (exec_streamed d w₂)
      have hbody : delivered table repo w₂ (streamAnswer d).body = some chunks.flatten := by
        simp [delivered, streamAnswer, htable, hread]
      rw [agree_iff hhead' hget', hbody, announces_streamed_iff, tally_eq_length_iff]
      constructor
      · exact fun hlen => ⟨chunks, hchunks, hlen⟩
      · rintro ⟨chunks', hchunks', hlen⟩
        have hsame := Option.some.inj (hchunks.reply.symm.trans hchunks'.reply)
        rw [List.map_injective_iff.mpr (Option.some_injective _) hsame]
        exact hlen
    · obtain ⟨e, w₂, hrun⟩ := exec_fetchBlob_error (w := w₁) fun ⟨chunks, hchunks⟩ =>
        hfetch ⟨chunks, (fetchable_congr hfs).mp hchunks⟩
      have hattempt : ((fetchBlob repo d up.streamBlob).attempt : Prog (World S) Abort _).exec w₁ = _ :=
        Prog.exec_attempt_eq.mpr hrun
      have hhead' : (getBlobDuring table repo digest false up).exec w =
          (.ok (blobUnknown d.toStr), w₂) := hhead.trans (Prog.exec_bind_ok hattempt)
      have hget' : (getBlobDuring table repo digest true up).exec w = (.ok (streamAnswer d), w₂) :=
        (hget.trans (Prog.exec_bind_ok hattempt)).trans (exec_streamed d w₂)
      rw [agree_iff hhead' hget']
      constructor
      · intro h
        exact absurd h.status (show Status.notFound ≠ Status.ok by decide)
      · rintro ⟨chunks, hchunks, -⟩
        exact absurd ⟨chunks, hchunks⟩ hfetch

/-- A body that has ended on a fetch in flight has emitted what was delivered. -/
theorem emitted_eq_delivered {H : StreamingHash} {d : Digest} {fl : Flight H} (h : fl.Counted)
    {o : ProducerOutcome} (ho : fl.entry.outcome = some o) (htable : table d = some (.ofFlight fl h ho))
    {b : PullThrough.Body} (hb : b.Faithful fl) (hended : b.state = .ended) :
    delivered table repo w (.pullThrough d) = some b.emitted := by
  rw [delivered, htable]
  exact congrArg some (InFlight.emitted_of_ended h ho hb hended).symm

theorem agree_iff_answerable (table : Digest → Option InFlight) (w : World S) (repo digest : Str)
    (up : Replies) : Agree table w repo digest up ↔ Answerable table w repo digest up := by
  cases hparse : Digest.parse digest with
  | error e =>
    have hsame : ∀ withBody, (getBlobDuring table repo digest withBody up).exec w =
        (.ok (digestInvalid digest), w) := by
      intro withBody
      unfold getBlobDuring
      rw [hparse]
      rfl
    refine iff_of_true (agree_of_same (show Status.badRequest ≠ .ok by decide) hsame) fun d hd => ?_
    cases hparse.symm.trans hd
  | ok d =>
    have hcond : Answerable table w repo digest up ↔
        if cacheFresh w repo d then CacheTrue w repo d
        else w.fs.isFile (blobPath S.root repo d) = true ∨ obstructed w repo d = true ∨
          S.route repo = none ∨ Fetches table w repo d up := by
      constructor
      · exact fun h => h d hparse
      · intro h d' hd'
        cases hparse.symm.trans hd'
        exact h
    rw [hcond]
    cases hfresh : cacheFresh w repo d with
    | true =>
      obtain ⟨m, w₁, hlooks, hlook, hmeta⟩ := exec_blobMeta_fresh hfresh
      rw [agree_local_iff hparse hmeta hlooks.fs, if_pos rfl, CacheTrue]
      simp [hlook]
    | false =>
      rw [if_neg Bool.false_ne_true]
      obtain ⟨w₁, hlooks, ⟨b, t, hb, hmeta⟩ | ⟨hfile, hclear, hmeta⟩ | ⟨hfile, hobst, hmeta⟩⟩ :=
        exec_blobMeta_stale hfresh
      · rw [agree_local_iff hparse hmeta hlooks.fs]
        exact iff_of_true ⟨b, hb, rfl⟩ (Or.inl (by simp [Fs.isFile, hb]))
      · rw [hfile, hclear]
        simp only [Bool.false_eq_true, false_or]
        cases hroute : S.route repo with
        | none =>
          have hsame : ∀ withBody, (getBlobDuring table repo digest withBody up).exec w =
              (.ok (blobUnknown digest), w₁) := by
            intro withBody
            rw [exec_getBlobDuring table up hparse hmeta, hroute]
            rfl
          exact iff_of_true (agree_of_same (show Status.notFound ≠ .ok by decide) hsame) (Or.inl rfl)
        | some p =>
          rw [agree_fetch_iff hparse hmeta hlooks.fs hroute]
          simp
      · have hsame : ∀ withBody, (getBlobDuring table repo digest withBody up).exec w =
            (.ok (internalErr (.storage (.io .other))), w₁) := fun withBody =>
          exec_getBlobDuring table up hparse hmeta withBody
        exact iff_of_true (agree_of_same (show Status.internalServerError ≠ .ok by decide) hsame)
          (Or.inr (Or.inl hobst))

/-- `HEAD` and `GET` of a blob agree exactly when a fresh entry of the metadata cache is true, and
without one the blob is on disk, cannot be looked for, has no upstream, or is fetched. What counts as
delivered by a fetch in flight is what its bodies have emitted when they end. -/
theorem head_get_agree_iff (S : Setup) (table : Digest → Option InFlight) (w : World S)
    (repo digest : Str) (up : Replies) :
    (Agree table w repo digest up ↔ Answerable table w repo digest up) ∧
    ∀ (d : Digest) (fl : Flight S.hash) (h : fl.Counted) (o : ProducerOutcome)
      (ho : fl.entry.outcome = some o) (b : PullThrough.Body),
      table d = some (.ofFlight fl h ho) → b.Faithful fl → b.state = .ended →
        delivered table repo w (.pullThrough d) = some b.emitted :=
  ⟨agree_iff_answerable table w repo digest up, fun _ _ h _ ho _ htable hb hended =>
    emitted_eq_delivered h ho htable hb hended⟩

end Agreement

/-! A mirror whose upstream breaks off in the middle of a blob. -/

def booted : World Codec.mirror := World.start Codec.mirror [] []

def app : Str := "library/app".toList

/-- The digest of `ab`. -/
def blob : Digest := Codec.mirror.digest [97, 98]

def brokenOff : Replies := ⟨none, none, some [some [97], none], none⟩

/-- `HEAD` reports that the blob is unknown, `GET` has already answered with success. -/
theorem broken_fetch_is_streamed :
    ((getBlobDuring (fun _ => none) app blob.toStr false brokenOff).exec booted).1 =
      .ok (blobUnknown blob.toStr) ∧
    ((getBlobDuring (fun _ => none) app blob.toStr true brokenOff).exec booted).1 =
      .ok (streamAnswer blob) ∧
    ¬ Agree (fun _ => none) booted app blob.toStr brokenOff := by
  have hhead : ((getBlobDuring (fun _ => none) app blob.toStr false brokenOff).exec booted).1 =
      .ok (blobUnknown blob.toStr) := by decide +kernel
  have hget : ((getBlobDuring (fun _ => none) app blob.toStr true brokenOff).exec booted).1 =
      .ok (streamAnswer blob) := by decide +kernel
  refine ⟨hhead, hget, fun h => ?_⟩
  obtain ⟨answer, streaming, w₁, w₂, hanswer, hstreaming, hann⟩ := h
  rw [hanswer] at hhead
  rw [hstreaming] at hget
  cases hhead
  cases hget
  exact absurd hann.status (show Status.notFound ≠ Status.ok by decide)

end Quill.Registry.HeadGet
