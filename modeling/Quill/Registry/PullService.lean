import Mathlib.Data.List.Sort
import Quill.Registry.HeadGet
import Quill.Registry.TagListing
import Quill.Registry.UpstreamTags
import Quill.Registry.Views

/-!
# Pulls conform to the service

A `GET` or `HEAD` of a blob or of a manifest answers and changes what `Serves` lists for the
repository as `repoView` shows it. Under a true metadata cache a look at a blob has three ends that
only its file decides (`exec_blobMeta_view`). A fetch that fails has touched its temporary file only
(`exec_fetchBlob_error_reads`), and one that succeeds has put its chunks at the blob
(`exec_fetchBlob_view`).
-/

namespace Quill.Registry

open Text Files Cas World LocalStorage Uploads LocalTags TagCache PullThrough TagResolution

variable {S : Setup} {repo : Str} {w w' : World S} {resp : Response}

/-! ## Looks -/

theorem exec_blobMeta_view (hw : CacheAgrees w) (repo : Str) (d : Digest) :
    (∃ m b w', (blobMeta repo d).exec w = (.ok (some m), w') ∧ Peeks w w' ∧
      m.path = blobPath S.root repo d ∧ (w.metaCache.lookup (repo, d) = some m ∨ m.size = b.length) ∧
      w.fs.read (blobPath S.root repo d) = some b) ∨
    (∃ w', (blobMeta repo d).exec w = (.ok none, w') ∧ Peeks w w' ∧
      w.fs.read (blobPath S.root repo d) = none) ∨
    ∃ e w', (blobMeta repo d).exec w = (.error e, w') ∧ w.fs.read (blobPath S.root repo d) = none ∧
      w'.log.ioFailed = true := by
  obtain ⟨w₁, htick, hout⟩ := exec_blobMeta w repo d
  have hw₁ : Peeks w w₁ := .of_tick htick
  generalize (blobMeta repo d).exec w = out at hout
  cases hout with
  | @hit m hlook hfresh =>
    obtain ⟨hpath, hfile⟩ := hw repo d m hlook
    obtain ⟨b, hb⟩ := Option.isSome_iff_exists.mp hfile
    exact .inl ⟨m, b, w₁, rfl, hw₁, hpath, Or.inl hlook, hb⟩
  | @found b hread =>
    have hfile : w₁.tick.fs.isFile (blobPath S.root repo d) = true := by
      simp [Fs.isFile, World.tick, hw₁.fs, hread]
    exact .inl ⟨_, b, _, rfl, hw₁.trans ((Peeks.tick w₁).trans (.filled _ rfl hfile)), rfl, Or.inr rfl, hread⟩
  | isDir hnode => exact .inr (.inl ⟨w₁, rfl, hw₁, by simp [Fs.read, hnode]⟩)
  | absent hnode _ => exact .inr (.inl ⟨w₁, rfl, hw₁, by simp [Fs.read, hnode]⟩)
  | blocked hnode => exact .inr (.inr ⟨_, _, rfl, by simp [Fs.read, hnode], rfl⟩)

theorem exec_readBlobToBytes {m : BlobMeta} {b : Bytes} (hb : w.fs.read m.path = some b) :
    (readBlobToBytes m).exec w = (.ok b, w) := by
  rcases Fs.exec_readFile m.path w.fs with ⟨c, hc, he⟩ | ⟨hnone, -⟩
  · rw [hb] at hc
    cases hc
    exact exec_mapError_ok (exec_onFs_ok he)
  · rw [hb] at hnone
    cases hnone

theorem create_notMem_pullKinds : Kind.create ∉ pullKinds := by simp [pullKinds]

/-! ## Fetches -/

/-- No file outside the set has changed. -/
def readsOutside (touched : Set Path) : Evolution (World S) where
  rel w w' := ∀ p ∉ touched, w'.fs.read p = w.fs.read p
  refl _ _ _ := rfl
  trans h g p hp := (g p hp).trans (h p hp)

section Reads

variable {ε α : Type} {touched : Set Path}

theorem onFs_readsOutside {m : Prog Fs IoKind α}
    (h : ∀ fs, ∀ p ∉ touched, (m.exec fs).2.read p = fs.read p) :
    Moves (readsOutside touched) (onFs m : Prog (World S) IoKind α) := by
  intro w p hp
  have hread := h w.fs p hp
  unfold onFs
  simp only [Prog.exec_ofFun]
  rcases hr : m.exec w.fs with ⟨_ | a, fs'⟩ <;> rw [hr] at hread <;> exact hread

theorem probeFs_readsOutside {m : Prog Fs IoKind α}
    (h : ∀ fs, ∀ p ∉ touched, (m.exec fs).2.read p = fs.read p) :
    Moves (readsOutside touched) (probeFs m : Prog (World S) IoKind α) := by
  intro w p hp
  have hread := h w.fs p hp
  unfold probeFs
  simp only [Prog.exec_ofFun]
  rcases hr : m.exec w.fs with ⟨_ | a, fs'⟩ <;> rw [hr] at hread <;> exact hread

theorem createDirAll_reads (q : Path) (fs : Fs) (p : Path) :
    ((Fs.createDirAll q).exec fs).2.read p = fs.read p :=
  Fs.growsDirs_read (Fs.createDirAll_grows q fs) p

theorem read_set_ne {fs : Fs} {p q : Path} (b : Bytes) (hne : p ≠ q) :
    (fs.set q (.file b)).read p = fs.read p :=
  Fs.read_congr (by rw [Fs.node_set, if_neg hne])

theorem read_del_ne {fs : Fs} {p q : Path} (hne : p ≠ q) : (fs.del q).read p = fs.read p :=
  Fs.read_congr (by rw [Fs.node_del, if_neg hne])

theorem writeFile_reads {q p : Path} (b : Bytes) (hne : p ≠ q) (fs : Fs) :
    ((Fs.writeFile q b).exec fs).2.read p = fs.read p := by
  rcases Fs.exec_writeFile q b fs with ⟨-, -, he⟩ | ⟨e, he⟩
  · rw [he]
    exact read_set_ne b hne
  · rw [he]

theorem appendFile_reads {q p : Path} (b : Bytes) (hne : p ≠ q) (fs : Fs) :
    ((Fs.appendFile q b).exec fs).2.read p = fs.read p := by
  rcases Fs.exec_appendFile q b fs with ⟨c, -, he⟩ | ⟨-, e, he⟩
  · rw [he]
    exact read_set_ne _ hne
  · rw [he]

theorem removeFile_reads {q p : Path} (hne : p ≠ q) (fs : Fs) :
    ((Fs.removeFile q).exec fs).2.read p = fs.read p := by
  rcases Fs.exec_removeFile q fs with ⟨b, -, he⟩ | ⟨-, e, he, -⟩
  · rw [he]
    exact read_del_ne hne
  · rw [he]

variable {d : Digest} {tempfile finalPath : Path}

theorem receive_readsOutside (stream : List (Option Bytes)) (hasher : S.hash.State) (total : Nat) :
    Moves (readsOutside {tempfile}) (receive tempfile stream hasher total) := by
  induction stream generalizing hasher total with
  | nil => exact Moves.of_pure _
  | cons item stream ih =>
    cases item with
    | none => exact Moves.of_throw _
    | some chunk =>
      refine Moves.seq (Moves.of_mapError _ (onFs_readsOutside fun fs p hp => ?_)) fun _ => ih _ _
      exact appendFile_reads chunk hp fs

/-- The part of a fetch that can publish has not published when it fails. -/
theorem exec_produce_error_reads {stream : List (Option Bytes)} {e : PullThroughError}
    (h : (produce d tempfile finalPath stream).exec w = (.error e, w')) :
    (readsOutside {tempfile}).rel w w' := by
  rcases Prog.exec_bind_cases (receive tempfile stream S.hash.new 0) _ w with
    ⟨e', w₁, hrecv, hrun⟩ | ⟨x, w₁, hrecv, hrun⟩
  · cases (show (produce d tempfile finalPath stream).exec w = _ from hrun).symm.trans h
    exact (receive_readsOutside stream _ _).rel_of_exec hrecv
  have hfirst : (readsOutside {tempfile}).rel w w₁ :=
    (receive_readsOutside stream _ _).rel_of_exec hrecv
  have hrest := (show (produce d tempfile finalPath stream).exec w = _ from hrun).symm.trans h
  simp only at hrest
  split at hrest
  · cases hrest
    exact hfirst
  · rcases Prog.exec_bind_cases ((onFs (Fs.createDirAll finalPath.tail)).mapError PullThroughError.io)
      _ w₁ with ⟨e', w₂, hmk, hrun'⟩ | ⟨u, w₂, hmk, hrun'⟩
    · cases hrun'.symm.trans hrest
      exact (readsOutside {tempfile}).trans hfirst (Moves.rel_of_exec
        (Moves.of_mapError _ (onFs_readsOutside fun fs p _ => createDirAll_reads _ fs p)) hmk)
    · have hsecond : (readsOutside {tempfile}).rel w₁ w₂ := Moves.rel_of_exec
        (Moves.of_mapError _ (onFs_readsOutside fun fs p _ => createDirAll_reads _ fs p)) hmk
      have hrest' := hrun'.symm.trans hrest
      rcases exec_promote w₂ tempfile finalPath with ⟨b, -, -, he⟩ | ⟨e'', he⟩
      · rw [Prog.exec_bind_ok (exec_mapError_ok he)] at hrest'
        cases hrest'
      · rw [Prog.exec_bind_error (exec_mapError_error he)] at hrest'
        cases hrest'
        exact (readsOutside {tempfile}).trans hfirst hsecond

theorem exec_runProducer_error_reads {stream : List (Option Bytes)} {e : PullThroughError}
    (h : (runProducer d tempfile finalPath stream).exec w = (.error e, w')) :
    (readsOutside {tempfile}).rel w w' := by
  have hmk : Moves (readsOutside {tempfile}) ((onFs (Fs.createDirAll tempfile.tail)).mapError
      PullThroughError.io : Prog (World S) _ Unit) :=
    Moves.of_mapError _ (onFs_readsOutside fun fs p _ => createDirAll_reads _ fs p)
  have hopen : Moves (readsOutside {tempfile}) ((onFs (Fs.writeFile tempfile [])).mapError
      PullThroughError.io : Prog (World S) _ Unit) :=
    Moves.of_mapError _ (onFs_readsOutside fun fs p hp => writeFile_reads [] hp fs)
  have hremove : Moves (readsOutside {tempfile}) ((probeFs (Fs.removeFile tempfile)).attempt :
      Prog (World S) PullThroughError _) :=
    Moves.of_attempt (probeFs_readsOutside fun fs p hp => removeFile_reads hp fs)
  rcases Prog.exec_bind_cases ((onFs (Fs.createDirAll tempfile.tail)).mapError PullThroughError.io)
    _ w with ⟨e', w₁, hrun, hout⟩ | ⟨u, w₁, hrun, hout⟩
  · cases (show (runProducer d tempfile finalPath stream).exec w = _ from hout).symm.trans h
    exact hmk.rel_of_exec hrun
  have hfirst := hmk.rel_of_exec hrun
  have hrest := (show (runProducer d tempfile finalPath stream).exec w = _ from hout).symm.trans h
  rcases Prog.exec_bind_cases ((onFs (Fs.writeFile tempfile [])).mapError PullThroughError.io)
    _ w₁ with ⟨e', w₂, hrun₂, hout₂⟩ | ⟨u, w₂, hrun₂, hout₂⟩
  · cases hout₂.symm.trans hrest
    exact (readsOutside {tempfile}).trans hfirst (hopen.rel_of_exec hrun₂)
  have hsecond := (readsOutside {tempfile}).trans hfirst (hopen.rel_of_exec hrun₂)
  have hrest₂ := hout₂.symm.trans hrest
  rcases hprod : (produce d tempfile finalPath stream).exec w₂ with ⟨e' | n, w₃⟩
  · rw [Prog.exec_bind_ok (Prog.exec_attempt_eq.mpr hprod)] at hrest₂
    cases hrest₂
    exact (readsOutside {tempfile}).trans hsecond
      ((readsOutside {tempfile}).trans (exec_produce_error_reads hprod) (hremove w₃))
  · rw [Prog.exec_bind_ok (Prog.exec_attempt_eq.mpr hprod)] at hrest₂
    cases hrest₂

/-- Whatever its outcome, a fetch touches its temporary file and its blob. -/
theorem runProducer_readsOutside (stream : List (Option Bytes)) :
    Moves (readsOutside {tempfile, finalPath}) (runProducer (S := S) d tempfile finalPath stream) := by
  have hmono : ∀ {ε α : Type} {m : Prog (World S) ε α}, Moves (readsOutside {tempfile}) m →
      Moves (readsOutside {tempfile, finalPath}) m := fun hm => hm.weaken fun _ _ h p hp =>
    h p fun hp' => hp (Or.inl hp')
  have hpromote : Moves (readsOutside {tempfile, finalPath})
      (promote tempfile finalPath : Prog (World S) IoKind Unit) := by
    intro w p hp
    have hne : p ≠ tempfile ∧ p ≠ finalPath := by
      constructor
      · rintro rfl
        exact hp (Or.inl rfl)
      · rintro rfl
        exact hp (Or.inr rfl)
    rcases exec_promote w tempfile finalPath with ⟨b, -, -, he⟩ | ⟨e, he⟩
    · rw [he]
      exact (read_set_ne b hne.2).trans (read_del_ne hne.1)
    · rw [he]
  have hproduce : Moves (readsOutside {tempfile, finalPath})
      (produce (S := S) d tempfile finalPath stream) := by
    refine (hmono (receive_readsOutside stream _ _)).seq fun x => ?_
    refine Moves.of_ite (fun _ => Moves.of_throw _) fun _ => ?_
    refine Moves.seq (Moves.of_mapError _ (onFs_readsOutside fun fs p _ =>
      createDirAll_reads _ fs p)) fun _ => ?_
    exact (hpromote.of_mapError _).seq fun _ => Moves.of_pure _
  refine Moves.seq (Moves.of_mapError _ (onFs_readsOutside fun fs p _ =>
    createDirAll_reads _ fs p)) fun _ => ?_
  refine Moves.seq (hmono (Moves.of_mapError _ (onFs_readsOutside fun fs p hp =>
    writeFile_reads [] hp fs))) fun _ => ?_
  refine hproduce.of_attempt.seq fun r => ?_
  cases r with
  | ok n => exact Moves.of_pure _
  | error e =>
    exact (hmono (Moves.of_attempt (probeFs_readsOutside fun fs p hp => removeFile_reads hp fs))).seq
      fun _ => Moves.of_throw _

end Reads

/-- A pull changes no more than the blobs of its repository. -/
theorem repoView_of_pull (hrel : (Along S repo pullKinds).rel w w') (hstill : still.rel w w')
    (hw : Sound w) (hrepo : Plain repo) (hok : w'.log.ioFailed = false) {blobs : Digest → Option Bytes}
    (hblobs : ∀ d, w'.fs.read (blobPath S.root repo d) = blobs d) :
    repoView w' repo = { repoView w repo with blobs := blobs } := by
  have hkeeps := keepsParts_along hrel hrepo hw hok
  refine Holdings.ext (funext hblobs) ?_ ?_ ?_
  · exact hkeeps.tags (by simp [pullKinds]) (by simp [pullKinds])
  · funext t
    simp only [repoView_cached, hstill.1]
  · exact hkeeps.uploads (by simp [pullKinds]) (by simp [pullKinds])

theorem tempfilePath_ne_blobPath (root : Path) (repo : Str) (d d' : Digest) :
    blobPath root repo d' ≠ PullThrough.tempfilePath root repo d := fun he =>
  (scratch_tempfilePath root repo d).1 (he ▸ isBlobName_blobPath root repo d')

theorem exec_fetchBlob_error_reads {d : Digest} {reply : Option (List (Option Bytes))}
    {e : PullThroughError} (h : (fetchBlob repo d reply).exec w = (.error e, w')) :
    (readsOutside {PullThrough.tempfilePath S.root repo d}).rel w w' := by
  have hfirst : (fetchBlob repo d reply).exec w = _ := Prog.exec_bind_ok (exec_call w (.streamBlob repo d))
  rw [hfirst] at h
  cases reply with
  | none =>
    cases h
    exact fun _ _ => rfl
  | some stream =>
    rcases Prog.exec_bind_cases (runProducer d (PullThrough.tempfilePath S.root repo d)
      (blobPath S.root repo d) stream) _ (called w (.streamBlob repo d)) with
      ⟨e', w₁, hrun, hout⟩ | ⟨n, w₁, hrun, hout⟩
    · cases hout.symm.trans h
      have hreads : (readsOutside {PullThrough.tempfilePath S.root repo d}).rel
          (called w (.streamBlob repo d)) w' := exec_runProducer_error_reads hrun
      exact hreads
    · cases hout.symm.trans h

/-- A fetch that succeeds has put the chunks of the stream at the blob, one that fails has changed
nothing. -/
theorem exec_fetchBlob_view (hw : Sound w) (hrepo : Plain repo) (d : Digest)
    (reply : Option (List (Option Bytes))) :
    (∃ e w', (fetchBlob repo d reply).exec w = (.error e, w') ∧
      (w'.log.ioFailed = false → repoView w' repo = repoView w repo)) ∨
    ∃ (chunks : List Bytes) (w' : World S), reply = some (chunks.map some) ∧ S.hash.hex chunks.flatten = d.hex ∧
      (fetchBlob repo d reply).exec w = (.ok (tally chunks.flatten), w') ∧
      (w'.log.ioFailed = false → repoView w' repo = (repoView w repo).put d chunks.flatten) := by
  have halong : Moves (Along S repo pullKinds) (fetchBlob (S := S) repo d reply) :=
    fetchBlob_along (fun _ hk => hk) d reply
  by_cases hfetch : ∃ chunks, HeadGet.Fetchable w repo d reply chunks
  · obtain ⟨chunks, hfetch⟩ := hfetch
    obtain ⟨w', hrun, hread⟩ := HeadGet.exec_fetchBlob_ok hfetch
    refine Or.inr ⟨chunks, w', hfetch.reply, hfetch.hash, hrun, fun hok => ?_⟩
    refine repoView_of_pull (halong.rel_of_exec hrun) ((fetchBlob_still d reply).rel_of_exec hrun)
      hw hrepo hok fun d' => ?_
    by_cases hd : d' = d
    · subst hd
      simp [hread]
    · have hreads : Moves (readsOutside {PullThrough.tempfilePath S.root repo d, blobPath S.root repo d})
          (fetchBlob (S := S) repo d reply) := by
        refine Moves.seq (fun _ _ _ => rfl) fun _ => ?_
        cases reply with
        | none => exact Moves.of_throw _
        | some stream =>
          refine (runProducer_readsOutside stream).seq fun n => ?_
          exact Moves.seq (fun _ _ _ => rfl) fun _ => Moves.seq (fun _ _ _ => rfl) fun _ =>
            Moves.of_pure _
      rw [hreads.rel_of_exec hrun _ ?_, Function.update_of_ne hd]
      · rfl
      · rintro (hp | hp)
        · exact tempfilePath_ne_blobPath _ _ _ _ hp
        · exact hd (blobPath_injective hp)
  · obtain ⟨e, w', hrun⟩ := HeadGet.exec_fetchBlob_error hfetch
    refine Or.inl ⟨e, w', hrun, fun hok => ?_⟩
    refine repoView_of_pull (halong.rel_of_exec hrun) ((fetchBlob_still d reply).rel_of_exec hrun)
      hw hrepo hok fun d' => ?_
    exact exec_fetchBlob_error_reads hrun _ (tempfilePath_ne_blobPath _ _ _ _)

/-! ## Blobs -/

/-- What a request does to its repository conforms to the service. -/
def Conforms (S : Setup) (repo : Str) (req : Request) (action : Action) (w : World S)
    (out : Except Abort Response × World S) : Prop :=
  ∀ resp, out.1 = .ok resp → out.2.log.ioFailed = false →
    Serves S repo req (repoView w repo) action resp (repoView out.2 repo)

theorem Conforms.of_same {req : Request} {action : Action} (hsame : repoView w' repo = repoView w repo)
    (h : Serves S repo req (repoView w repo) action resp (repoView w repo)) :
    Conforms S repo req action w (.ok resp, w') := by
  intro resp' hresp _
  cases hresp
  rw [hsame]
  exact h

theorem Conforms.unchanged {req : Request} {action : Action}
    (h : Serves S repo req (repoView w repo) action resp (repoView w repo)) :
    Conforms S repo req action w (.ok resp, w) :=
  .of_same rfl h

theorem Conforms.of_failed {req : Request} {action : Action} {out : Except Abort Response × World S}
    (h : out.2.log.ioFailed = true) : Conforms S repo req action w out := by
  intro resp _ hok
  cases h.symm.trans hok

/-- A built response that the service lists. -/
theorem Conforms.of_build {req : Request} {action : Action} {status : Status}
    {headers : List (HeaderName × Str)} {body : Body}
    (h : Serves S repo req (repoView w repo) action ⟨status, headers, body⟩ (repoView w' repo)) :
    Conforms S repo req action w ((build status headers body : Handler S).exec w') := by
  rw [exec_build]
  intro resp hresp _
  simp only at hresp
  split at hresp
  · cases hresp
    exact h
  · cases hresp

theorem exec_streamBody (d : Digest) (w : World S) :
    (build .ok [(.dockerContentDigest, d.toStr), (.contentType, "application/octet-stream".toList),
      (.transferEncoding, "chunked".toList)] (.pullThrough d) : Handler S).exec w =
      (.ok (streamAnswer d), w) := HeadGet.exec_streamed d w

theorem exec_serveLocalBlob_view {m : BlobMeta} {b : Bytes} (d : Digest)
    (hb : w.fs.read m.path = some b) (withBody : Bool) :
    (serveLocalBlob m d withBody : Handler S).exec w = (.ok (blobAnswer d m.size b withBody), w) := by
  cases withBody with
  | true =>
    rcases HeadGet.exec_serveLocalBlob m d w with ⟨c, hc, he⟩ | ⟨hno, -⟩
    · rw [hb] at hc
      cases hc
      exact he
    · rw [hb] at hno
      cases hno
  | false => exact HeadGet.exec_sized m.size d w

/-- The metadata of a blob that is there has a length that was recorded. -/
theorem Ready.recorded (hw : Ready w) {d : Digest} {m : BlobMeta} {b : Bytes}
    (hsize : w.metaCache.lookup (repo, d) = some m ∨ m.size = b.length)
    (hb : w.fs.read (blobPath S.root repo d) = some b) : Recorded w d m.size := by
  rcases hsize with hlook | hsize
  · exact hw.sized repo d m hlook
  · obtain ⟨hhash, hmem⟩ := hw.sound.blob hb
    exact ⟨b, hmem, hhash, fun _ => hsize⟩

/-- A blob that is there is answered with its contents and a length that was recorded. -/
theorem exec_getBlob_held (hw : Ready w) {text : Str} {d : Digest} {b : Bytes}
    (hd : Digest.parse text = .ok d) (hb : (repoView w repo).blobs d = some b) (withBody : Bool)
    (up : Replies) : ∃ n w', (getBlob repo text withBody up : Handler S).exec w =
      (.ok (blobAnswer d n b withBody), w') ∧ Recorded w d n := by
  unfold getBlob
  simp only [hd]
  rcases exec_blobMeta_view hw.cache.agrees repo d with
    ⟨m, c, w₁, hmeta, hpeeks, hpath, hsize, hc⟩ | ⟨w₁, -, -, hno⟩ | ⟨e, w₁, -, hno, -⟩
  · cases hb.symm.trans hc
    have hread : w₁.fs.read m.path = some b := by rw [hpeeks.fs, hpath, hc]
    rw [Prog.exec_bind_ok (Prog.exec_attempt_eq.mpr hmeta)]
    exact ⟨m.size, w₁, exec_serveLocalBlob_view d hread withBody, hw.recorded hsize hc⟩
  · cases hb.symm.trans hno
  · cases hb.symm.trans hno

/-- A missing blob of a repository with an upstream. -/
theorem serveBlobViaPullthrough_conforms {req : Request} {text : Str} {d : Digest} (hw : Ready w)
    (hrepo : Plain repo) (hm : req.method = .get ∨ req.method = .head)
    (hd : Digest.parse text = .ok d) (hno : (repoView w repo).blobs d = none)
    (hroute : S.route repo ≠ none) :
    Conforms S repo req (.blob text) w ((serveBlobViaPullthrough repo d (req.method = .get)
      req.upstream.streamBlob : Handler S).exec w) := by
  rcases exec_fetchBlob_view hw.sound hrepo d req.upstream.streamBlob with
    ⟨e, w', hrun, hview⟩ | ⟨chunks, w', hreply, hhash, hrun, hview⟩
  · have hrest : (serveBlobViaPullthrough repo d (req.method = .get) req.upstream.streamBlob :
        Handler S).exec w = _ := Prog.exec_bind_ok (Prog.exec_attempt_eq.mpr hrun)
    rw [hrest]
    rcases hm with hm | hm
    · simp only [hm, decide_true, if_true, exec_streamBody]
      intro resp hresp hok
      cases hresp
      exact .streamed hm hd hno hroute (Or.inl (hview hok))
    · simp only [hm, reduceCtorEq, decide_false, Bool.false_eq_true, if_false]
      intro resp hresp hok
      cases hresp
      change Serves S repo req _ _ _ (repoView w' repo)
      rw [hview hok]
      exact .missed hm hd hno hroute
  · have hrest : (serveBlobViaPullthrough repo d (req.method = .get) req.upstream.streamBlob :
        Handler S).exec w = _ := Prog.exec_bind_ok (Prog.exec_attempt_eq.mpr hrun)
    rw [hrest]
    rcases hm with hm | hm
    · simp only [hm, decide_true, if_true, exec_streamBody]
      intro resp hresp hok
      cases hresp
      exact .streamed hm hd hno hroute (Or.inr ⟨chunks, hreply, hhash, hview hok⟩)
    · simp only [hm, reduceCtorEq, decide_false, Bool.false_eq_true, if_false, HeadGet.exec_sized]
      intro resp hresp hok
      cases hresp
      rw [hview hok]
      exact .awaited hm hd hno hroute hreply hhash

theorem getBlob_conforms {req : Request} (hw : Ready w) (hrepo : Plain repo)
    (hm : req.method = .get ∨ req.method = .head) (text : Str) :
    Conforms S repo req (.blob text) w
      ((getBlob repo text (req.method = .get) req.upstream : Handler S).exec w) := by
  unfold getBlob
  cases hd : Digest.parse text with
  | error e =>
    refine .unchanged (.badDigest ?_ hd)
    exact hm.imp id Or.inl
  | ok d =>
    simp only
    rcases exec_blobMeta_view hw.cache.agrees repo d with
      ⟨m, b, w₁, hmeta, hpeeks, hpath, hsize, hb⟩ | ⟨w₁, hmeta, hpeeks, hno⟩ | ⟨e, w₁, hmeta, -, hfailed⟩
    · rw [Prog.exec_bind_ok (Prog.exec_attempt_eq.mpr hmeta)]
      have hread : w₁.fs.read m.path = some b := by rw [hpeeks.fs, hpath, hb]
      simp only [exec_serveLocalBlob_view d hread]
      obtain ⟨c, -, hhash, hlen⟩ := hw.recorded hsize hb
      exact .of_same hpeeks.view (.blob hm hd hb hhash hlen)
    · rw [Prog.exec_bind_ok (Prog.exec_attempt_eq.mpr hmeta)]
      simp only
      cases hroute : S.route repo with
      | none => exact .of_same hpeeks.view (.noBlob hm hd hno hroute)
      | some p =>
        have hsame : repoView w₁ repo = repoView w repo := hpeeks.view
        intro resp hresp hok
        have hok₁ : w₁.log.ioFailed = false := Along.not_failed_before
          (serveBlobViaPullthrough_along subset_rfl d _ _ w₁) hok
        have hready : Ready w₁ := hw.along ((pull_blobMeta subset_rfl d).rel_of_exec hmeta)
          create_notMem_pullKinds hrepo hok₁
        have hserves := serveBlobViaPullthrough_conforms hready hrepo hm hd
          (by rw [hsame]; exact hno) (by rw [hroute]; simp) resp hresp hok
        rwa [hsame] at hserves
    · rw [Prog.exec_bind_ok (Prog.exec_attempt_eq.mpr hmeta)]
      exact .of_failed hfailed

/-! ## Manifests -/

/-- The handler of a manifest conforms to the service, for a repository that holds `a`. -/
def PullsManifest (S : Setup) (repo : Str) (req : Request) (reference : Str) (a : Repo)
    (out : Except Abort Response × World S) : Prop :=
  ∀ resp, out.1 = .ok resp → out.2.log.ioFailed = false →
    Serves S repo req a (.manifest reference) (applyIfNoneMatch req.ifNoneMatch resp)
      (repoView out.2 repo)

section Manifests

variable {req : Request} {reference : Str} {withBody : Bool} {a : Repo} {d : Digest}

/-- A stored blob is put, and nothing else changes. -/
theorem repoView_of_leaves {b : Bytes} (hw : DataNamed w) (hread : w'.fs.read (blobPath S.root repo d) = some b)
    (hleaves : ManifestPuts.Leaves {blobPath S.root repo d} w w') (htags : w'.localTags = w.localTags) :
    repoView w' repo = (repoView w repo).put d b := by
  refine Holdings.ext ?_ ?_ ?_ ?_
  · funext d'
    by_cases hd : d' = d
    · subst hd
      simpa using hread
    · rw [Holdings.put_blobs, Function.update_of_ne hd]
      exact hleaves.read (fun hp => hd (blobPath_injective hp)) (blobPath_not_scratch _ _ _)
  · funext t
    simp only [repoView_tags, localDigest, Holdings.put_tags, htags]
  · funext t
    simp only [repoView_cached, Holdings.put_cached, hleaves.upstreamTags]
  · funext s
    simp only [repoView_uploads, Holdings.put_uploads, hleaves.sessions]
    refine Option.bind_congr fun st hst => ?_
    have hname := hw _ _ hst
    refine hleaves.read (fun hp => ?_) fun hs => hs.2.1 hname
    exact not_isDataName_of_isBlobName (isBlobName_blobPath _ _ _) (Set.mem_singleton_iff.mp hp ▸ hname)

/-- An entry of the cache of tags changes what is remembered. -/
theorem repoView_of_ambient {t : Nat} (hw : DataNamed w) (hambient : Ambient w w')
    (htags : w'.upstreamTags = w.upstreamTags.insert (repo, reference) (d, t)) :
    repoView w' repo = (repoView w repo).remember reference d := by
  refine Holdings.ext ?_ ?_ ?_ ?_
  · funext d'
    exact hambient.fs.read (blobPath_not_scratch _ _ _) (Set.notMem_empty _)
  · funext t
    simp only [repoView_tags, localDigest, Holdings.remember_tags, hambient.tags]
  · funext t
    rw [repoView_cached, htags, Holdings.remember_cached]
    by_cases ht : t = reference
    · subst ht
      rw [AList.lookup_insert, Function.update_self]
      rfl
    · rw [AList.lookup_insert_ne fun he => ht (Prod.mk.inj he).2, Function.update_of_ne ht]
      rfl
  · funext s
    simp only [repoView_uploads, Holdings.remember_uploads, hambient.sessions]
    refine Option.bind_congr fun st hst => ?_
    exact hambient.fs.read (fun hs => hs.2.1 (hw _ _ hst)) (Set.notMem_empty _)

theorem putBlobBuffered_mismatch {b : Bytes} (hhash : ¬ S.hash.hex b = d.hex) :
    ((putBlobBuffered repo d b).exec w).2 = w := by
  unfold putBlobBuffered
  simp only [ne_eq, hhash, not_false_eq_true, if_true]
  rfl

/-- A manifest of the upstream is kept as `fetched` says. -/
theorem exec_fetchManifest_view (hw : DataNamed w) (repo reference : Str) (withBody : Bool)
    (m : ManifestResponse) : ∃ w',
    (fetchAndServeUpstreamManifest repo reference withBody (some m) : Handler S).exec w =
      (buildManifestResponse m.bytes m.contentType m.digest withBody : Handler S).exec w' ∧
    (w'.log.ioFailed = false → repoView w' repo = fetched S (repoView w repo) reference m) := by
  have hfirst : (fetchAndServeUpstreamManifest repo reference withBody (some m) :
      Handler S).exec w = _ := Prog.exec_bind_ok (exec_call w (.getManifest repo reference))
  rw [hfirst]
  simp only
  rw [Prog.exec_bind_ok (Prog.exec_attempt _ _)]
  -- what the store holds, before the tag is remembered
  obtain ⟨w₁, hw₁⟩ : ∃ w₁, w₁ = ((putBlobBuffered repo m.digest m.bytes).exec
    (called w (.getManifest repo reference))).2 := ⟨_, rfl⟩
  have hstored : w₁.log.ioFailed = false → DataNamed w₁ ∧ repoView w₁ repo =
      if S.hash.hex m.bytes = m.digest.hex then (repoView w repo).put m.digest m.bytes
      else repoView w repo := by
    intro hok
    by_cases hhash : S.hash.hex m.bytes = m.digest.hex
    · have hd : m.digest = S.digest m.bytes := (congrArg Digest.mk hhash).symm
      rw [hd] at hw₁
      rcases ManifestPuts.exec_putBlobBuffered_cases repo m.bytes
        (called w (.getManifest repo reference)) with
        ⟨x, w₂, hrun, hread, hleaves, htags⟩ | ⟨e, w₂, hrun, hfailed⟩
      · rw [hrun] at hw₁
        subst hw₁
        rw [if_pos hhash, hd]
        exact ⟨fun key st hst => hw key st (hleaves.sessions ▸ hst),
          repoView_of_leaves (w := called w _) hw hread hleaves htags⟩
      · rw [hrun] at hw₁
        subst hw₁
        cases hok.symm.trans hfailed
    · rw [putBlobBuffered_mismatch hhash] at hw₁
      subst hw₁
      rw [if_neg hhash]
      exact ⟨hw, rfl⟩
  rw [← hw₁]
  cases href : Digest.parse reference with
  | ok d' =>
    have hno : ¬ IsTag reference := by
      rintro ⟨e, he⟩
      cases href.symm.trans he
    refine ⟨w₁, rfl, fun hok => ?_⟩
    rw [(hstored hok).2, fetched, if_neg hno]
  | error e =>
    obtain ⟨w₂, t, he, htags, -⟩ := exec_tagCacheInsert (ε := Abort) w₁ repo reference m.digest
    have hambient : (Along S repo {.ambient}).rel w₁ w₂ :=
      (tagCacheInsert_along (K := {.ambient}) rfl repo reference m.digest).rel_of_exec he
    simp only
    rw [Prog.exec_bind_ok he]
    refine ⟨w₂, rfl, fun hok => ?_⟩
    obtain ⟨hnamed, hview⟩ := hstored (Along.not_failed_before hambient hok)
    have htag : IsTag reference := ⟨e, href⟩
    rw [repoView_of_ambient hnamed (ambient_of_along hambient) htags, hview, fetched, if_pos htag]

/-- The end of a pull that found nothing in the store. -/
theorem fetchManifestOrUnknown_pulls (hw : DataNamed w) (hview : repoView w repo = a)
    (hm : req.method = .get ∨ req.method = .head) (hwant : Wanting a reference req.upstream.resolveTag)
    (hpushed : ¬ PushedTag a reference) : PullsManifest S repo req reference a
      ((fetchManifestOrUnknown repo reference (req.method = .get) req.upstream : Handler S).exec w) := by
  unfold fetchManifestOrUnknown
  intro resp hresp hok
  cases hroute : S.route repo with
  | none =>
    simp only [hroute] at hresp ⊢
    cases hresp
    exact hview ▸ .noManifest hm (hview ▸ hwant) (Or.inr (Or.inl hroute))
  | some p =>
    simp only [hroute] at hresp hok ⊢
    cases hget : req.upstream.getManifest with
    | none =>
      have hrun : (fetchAndServeUpstreamManifest repo reference (req.method = .get) none :
          Handler S).exec w = (.ok (manifestUnknown reference), called w (.getManifest repo reference)) :=
        Prog.exec_bind_ok (exec_call w (.getManifest repo reference))
      rw [hget, hrun] at hresp
      cases hresp
      rw [hrun]
      have hsame : repoView (called w (.getManifest repo reference)) repo = a := hview
      rw [hsame]
      exact .noManifest hm hwant (Or.inr (Or.inr hget))
    | some m =>
      obtain ⟨w', hrun, hthen⟩ := exec_fetchManifest_view hw repo reference (req.method = .get) m
      rw [exec_manifestResponse] at hrun
      rw [hget, hrun] at hresp hok
      rw [hrun, hthen hok, hview]
      simp only at hresp
      split at hresp
      · cases hresp
        exact .fetchedManifest hm hwant hpushed (by simp [hroute]) hget
      · cases hresp

/-- The look of a manifest handler at the store. -/
inductive Looked (w : World S) (repo : Str) (d : Digest) (withBody : Bool) (reference : Str) :
    Except Abort Response × World S → Prop
  | found {b : Bytes} {w' : World S} {r : Except Abort Response}
      (hb : (repoView w repo).blobs d = some b) (hpeeks : Peeks w w')
      (hr : ∀ resp, r = .ok resp → resp = storedAnswer S d b withBody) :
      Looked w repo d withBody reference (r, w')
  | absent {w' : World S} (hb : (repoView w repo).blobs d = none) (hpeeks : Peeks w w') :
      Looked w repo d withBody reference (.ok (manifestUnknown reference), w')
  | blocked {out : Except Abort Response × World S} (hfailed : out.2.log.ioFailed = true) :
      Looked w repo d withBody reference out

theorem exec_serveLocalManifest_looked (hw : CacheAgrees w) (d : Digest) (reference : Str) (withBody : Bool) :
    Looked w repo d withBody reference
      ((serveLocalManifest repo d reference withBody : Handler S).exec w) := by
  unfold serveLocalManifest
  rcases exec_blobMeta_view hw repo d with
    ⟨m, b, w₁, hmeta, hpeeks, hpath, -, hb⟩ | ⟨w₁, hmeta, hpeeks, hno⟩ | ⟨e, w₁, hmeta, -, hfailed⟩
  · have hread : w₁.fs.read m.path = some b := by rw [hpeeks.fs, hpath, hb]
    rw [Prog.exec_bind_ok (Prog.exec_attempt_eq.mpr hmeta)]
    simp only
    rw [Prog.exec_bind_ok (Prog.exec_attempt_eq.mpr (exec_readBlobToBytes hread))]
    simp only
    rw [exec_manifestResponse]
    refine .found hb hpeeks fun resp hresp => ?_
    split at hresp
    · cases hresp
      rfl
    · cases hresp
  · rw [Prog.exec_bind_ok (Prog.exec_attempt_eq.mpr hmeta)]
    exact .absent hno hpeeks
  · rw [Prog.exec_bind_ok (Prog.exec_attempt_eq.mpr hmeta)]
    exact .blocked hfailed

theorem refers_iff_of_pushed (htag : IsTag reference) (hpushed : a.tags reference = some d)
    {d' : Digest} : Refers a reference d' ↔ d' = d := by
  obtain ⟨e, he⟩ := htag
  constructor
  · rintro (hd | ⟨-, h⟩ | ⟨-, hno, -⟩)
    · cases hd.symm.trans he
    · exact Option.some.inj (h.symm.trans hpushed)
    · cases hno.symm.trans hpushed
  · rintro rfl
    exact .tag ⟨e, he⟩ hpushed

theorem refers_iff_of_digest (hd : Digest.parse reference = .ok d) {d' : Digest} :
    Refers a reference d' ↔ d' = d := by
  constructor
  · rintro (h | ⟨⟨e, he⟩, -⟩ | ⟨⟨e, he⟩, -, -⟩)
    · exact Except.ok.inj (h.symm.trans hd)
    · cases hd.symm.trans he
    · cases hd.symm.trans he
  · rintro rfl
    exact .digest hd

theorem refers_iff_of_cached (htag : IsTag reference) (hno : a.tags reference = none) {d' : Digest} :
    Refers a reference d' ↔ a.cached reference = some d' := by
  obtain ⟨e, he⟩ := htag
  constructor
  · rintro (hd | ⟨-, h⟩ | ⟨-, -, h⟩)
    · cases hd.symm.trans he
    · cases hno.symm.trans h
    · exact h
  · exact .cached ⟨e, he⟩ hno

/-- A manifest that the store should have. -/
theorem serveLocalManifest_pulls (hw : CacheAgrees w) (hview : repoView w repo = a)
    (hm : req.method = .get ∨ req.method = .head) (href : Refers a reference d)
    (hwant : a.blobs d = none → Wanting a reference req.upstream.resolveTag ∧ PushedTag a reference) :
    PullsManifest S repo req reference a
      ((serveLocalManifest repo d reference (req.method = .get) : Handler S).exec w) := by
  have hlooked : Looked w repo d (req.method = .get) reference _ :=
    exec_serveLocalManifest_looked hw d reference (req.method = .get)
  generalize (serveLocalManifest repo d reference (req.method = .get) : Handler S).exec w = out at hlooked
  intro resp hresp hok
  cases hlooked with
  | found hb hpeeks hr =>
    rw [hr resp hresp, hpeeks.view, hview]
    exact .manifest hm href (hview ▸ hb)
  | absent hb hpeeks =>
    cases hresp
    obtain ⟨hwant, hpushed⟩ := hwant (hview ▸ hb)
    rw [hpeeks.view, hview]
    exact .noManifest hm hwant (Or.inl hpushed)
  | blocked hfailed => cases hok.symm.trans hfailed

/-- A digest that was remembered, or else the end of the pull. -/
theorem serveIfPresent_pulls (hw : CacheAgrees w) (hnamed : DataNamed w) (hview : repoView w repo = a)
    (hm : req.method = .get ∨ req.method = .head) (htag : IsTag reference)
    (hno : a.tags reference = none) (hcached : a.cached reference = some d) :
    PullsManifest S repo req reference a ((serveIfPresent repo d reference (req.method = .get)
      (fetchManifestOrUnknown repo reference (req.method = .get) req.upstream) : Handler S).exec w) := by
  have hpushed : ¬ PushedTag a reference := fun hp => hp.2 hno
  have href : Refers a reference d := .cached htag hno hcached
  unfold serveIfPresent
  obtain ⟨r, w₁, hmeta, hpeeks, hcases⟩ := exec_blobMeta_agrees hw repo d
  rw [Prog.exec_bind_ok (Prog.exec_attempt_eq.mpr hmeta)]
  have hview₁ : repoView w₁ repo = a := hpeeks.view.trans hview
  rcases hcases with ⟨m, b, rfl, -, hb⟩ | ⟨hnone, hr⟩
  · refine serveLocalManifest_pulls (hpeeks.agrees hw) hview₁ hm href fun hgone => ?_
    have hthere : a.blobs d = some b := hview ▸ hb
    cases hgone.symm.trans hthere
  · have hwant : Wanting a reference req.upstream.resolveTag := by
      refine Or.inl fun d' hd' => ?_
      rw [refers_iff_of_cached htag hno, hcached] at hd'
      cases hd'
      exact hview ▸ hnone
    have hfetch := fetchManifestOrUnknown_pulls (fun key st hst => hnamed key st (hpeeks.sessions ▸ hst))
      hview₁ hm hwant hpushed
    rcases r with e | _ | m
    · exact hfetch
    · exact hfetch
    · exact absurd rfl (hr m)

/-- A tag that was not pushed. -/
theorem getManifestByTag_pulls (hw : CacheAgrees w) (hnamed : DataNamed w) (hview : repoView w repo = a)
    (hm : req.method = .get ∨ req.method = .head) (htag : IsTag reference)
    (hno : a.tags reference = none) : PullsManifest S repo req reference a
      ((getManifestByTag repo reference (req.method = .get) req.upstream : Handler S).exec w) := by
  have hpushed : ¬ PushedTag a reference := fun hp => hp.2 hno
  have hlookup := exec_tagCacheLookup (ε := Abort) w repo reference
  unfold getManifestByTag
  cases hentry : w.upstreamTags.lookup (repo, reference) with
  | none =>
    simp only [hentry] at hlookup
    rw [Prog.exec_bind_ok hlookup]
    refine fetchManifestOrUnknown_pulls hnamed hview hm (Or.inl fun d hd => ?_) hpushed
    rw [refers_iff_of_cached htag hno, ← hview, repoView_cached, hentry] at hd
    cases hd
  | some entry =>
    obtain ⟨d, t⟩ := entry
    have hcached : a.cached reference = some d := by rw [← hview, repoView_cached, hentry]; rfl
    have hserve : ∀ v : World S, CacheAgrees v → DataNamed v → repoView v repo = a →
        PullsManifest S repo req reference a ((serveIfPresent repo d reference (req.method = .get)
          (fetchManifestOrUnknown repo reference (req.method = .get) req.upstream) :
          Handler S).exec v) :=
      fun v hv hnamed hview => serveIfPresent_pulls hv hnamed hview hm htag hno hcached
    simp only [hentry] at hlookup
    by_cases hyoung : w.tick.now - t < S.tagTtl
    · rw [if_pos hyoung] at hlookup
      rw [Prog.exec_bind_ok hlookup]
      exact hserve w.tick hw hnamed hview
    · rw [if_neg hyoung] at hlookup
      rw [Prog.exec_bind_ok hlookup]
      cases hroute : S.route repo with
      | none => exact hserve w.tick hw hnamed hview
      | some p =>
        simp only
        -- the upstream is asked whether the tag has moved
        rw [Prog.exec_bind_ok (exec_call w.tick _)]
        cases hhead : req.upstream.resolveTag with
        | none => exact hserve (called w.tick _) hw hnamed hview
        | some d' =>
          by_cases hsame : d' = d
          · subst hsame
            have htouch := exec_touch (ε := Abort) (w := called w.tick (.resolveTag repo reference)) hentry
            simp only [if_true]
            rw [Prog.exec_bind_ok htouch]
            refine hserve _ hw hnamed ?_
            rw [← hview]
            refine Holdings.ext rfl rfl (funext fun t' => ?_) rfl
            simp only [repoView_cached]
            by_cases ht : t' = reference
            · subst ht
              rw [AList.lookup_insert, hentry]
              rfl
            · rw [AList.lookup_insert_ne fun he => ht (Prod.mk.inj he).2]
              rfl
          · simp only [if_neg hsame]
            refine fetchManifestOrUnknown_pulls (w := called w.tick _) hnamed hview hm (Or.inr ?_) hpushed
            exact ⟨htag, hno, d, d', hcached, hhead, hsame⟩

/-- A digest, or else the upstream. -/
theorem getManifestByDigest_pulls (hw : CacheAgrees w) (hnamed : DataNamed w)
    (hm : req.method = .get ∨ req.method = .head) (hd : Digest.parse reference = .ok d) :
    PullsManifest S repo req reference (repoView w repo)
      ((getManifestByDigest repo reference d (req.method = .get) req.upstream : Handler S).exec w) := by
  have href : Refers (repoView w repo) reference d := .digest hd
  unfold getManifestByDigest
  rcases exec_blobMeta_view hw repo d with
    ⟨m, b, w₁, hmeta, hpeeks, -, -, hb⟩ | ⟨w₁, hmeta, hpeeks, hno⟩ | ⟨e, w₁, hmeta, -, hfailed⟩
  · rw [Prog.exec_bind_ok (Prog.exec_attempt_eq.mpr hmeta)]
    refine serveLocalManifest_pulls (hpeeks.agrees hw) hpeeks.view hm href fun hgone => ?_
    cases hb.symm.trans hgone
  · rw [Prog.exec_bind_ok (Prog.exec_attempt_eq.mpr hmeta)]
    refine fetchManifestOrUnknown_pulls (fun key st hst => hnamed key st (hpeeks.sessions ▸ hst))
      hpeeks.view hm (Or.inl fun d' hd' => ?_) ?_
    · obtain rfl := (refers_iff_of_digest hd).mp hd'
      exact hno
    · rintro ⟨⟨e, he⟩, -⟩
      cases hd.symm.trans he
  · rw [Prog.exec_bind_ok (Prog.exec_attempt_eq.mpr hmeta)]
    intro resp _ hok
    cases hok.symm.trans hfailed

theorem getManifest_pulls (hw : Ready w) (hm : req.method = .get ∨ req.method = .head) (reference : Str) :
    PullsManifest S repo req reference (repoView w repo)
      ((getManifest repo reference (req.method = .get) req.upstream : Handler S).exec w) := by
  have hagrees := hw.cache.agrees
  have hnamed := hw.sound.dataNamed
  unfold getManifest
  cases href : Digest.parse reference with
  | ok d => exact getManifestByDigest_pulls hagrees hnamed hm href
  | error e =>
    have htag : IsTag reference := ⟨e, href⟩
    simp only
    rw [Prog.exec_bind_ok (Prog.exec_get w)]
    cases hlocal : w.localTags.lookup (repo, reference) with
    | none =>
      have hno : (repoView w repo).tags reference = none := by simp [localDigest, hlocal]
      exact getManifestByTag_pulls hagrees hnamed rfl hm htag hno
    | some tag =>
      obtain ⟨d, hd⟩ := hw.typed _ _ hlocal
      have hparse : Digest.parse tag.digest = .ok d := by rw [hd, Digest.parse_toStr]
      have hpushed : (repoView w repo).tags reference = some d :=
        localDigest_eq_some.mpr ⟨tag, hlocal, hparse⟩
      simp only [hparse]
      refine serveLocalManifest_pulls hagrees rfl hm (.tag htag hpushed) fun hgone => ⟨Or.inl ?_, htag, ?_⟩
      · intro d' hd'
        obtain rfl := (refers_iff_of_pushed htag hpushed).mp hd'
        exact hgone
      · rw [hpushed]
        simp

end Manifests

/-! ## Listings -/

theorem listed_iff_known (hw : TagsTyped w) {t : Str} :
    Listed (repoView w repo) t ↔ t ∈ TagListing.known w repo := by
  rw [TagListing.mem_known, ← AList.lookup_isSome, ← AList.lookup_isSome]
  have hlocal : (repoView w repo).tags t ≠ none ↔ (w.localTags.lookup (repo, t)).isSome = true := by
    rw [← Option.isSome_iff_ne_none, Option.isSome_iff_exists]
    constructor
    · rintro ⟨d, hd⟩
      obtain ⟨m, hm, -⟩ := localDigest_eq_some.mp hd
      rw [hm]
      rfl
    · intro h
      obtain ⟨m, hm⟩ := Option.isSome_iff_exists.mp h
      obtain ⟨d, hd⟩ := hw _ _ hm
      exact ⟨d, localDigest_eq_some.mpr ⟨m, hm, by rw [hd, Digest.parse_toStr]⟩⟩
  have hcached : (repoView w repo).cached t ≠ none ↔ (w.upstreamTags.lookup (repo, t)).isSome = true := by
    simp [Option.isSome_iff_ne_none]
  rw [Listed, hlocal, hcached]

theorem sorted_pairwise (l : List Str) : (sorted l).Pairwise (· < ·) := by
  have hle : (sorted l).Pairwise (· ≤ ·) := List.pairwise_mergeSort' _ _
  have hne : (sorted l).Nodup := (List.mergeSort_perm _ _).nodup_iff.mpr l.nodup_dedup
  exact hle.imp₂ (fun a b h₁ h₂ => lt_of_le_of_ne h₁ h₂) hne

theorem listTags_conforms {req : Request} (hw : Ready w) (hm : req.method = .get) :
    Conforms S repo req .tagsList w ((listTags repo req.upstream : Handler S).exec w) := by
  have hknown : ∀ t, Listed (repoView w repo) t ↔ t ∈ TagListing.known w repo :=
    fun t => listed_iff_known hw.typed
  unfold listTags
  rw [Prog.exec_bind_ok (Prog.exec_get w)]
  cases hempty : (TagListing.known w repo).isEmpty with
  | true =>
    have hnone : ∀ t, ¬ Listed (repoView w repo) t := by
      intro t ht
      rw [hknown, List.isEmpty_iff.mp hempty] at ht
      cases ht
    have hasked : Serves S repo req _ .tagsList _ _ := .asked hm hnone
    rw [TagListing.known] at hempty
    simp only [hempty, if_true]
    cases hroute : S.route repo with
    | none =>
      rw [if_pos hroute] at hasked
      exact .unchanged hasked
    | some p =>
      rw [if_neg (by simp [hroute])] at hasked
      exact .of_same rfl hasked
  | false =>
    have hsome : ∃ t, Listed (repoView w repo) t := by
      obtain ⟨t, ht⟩ := List.exists_mem_of_ne_nil _ (List.isEmpty_eq_false_iff.mp hempty)
      exact ⟨t, (hknown t).mpr ht⟩
    have hlisted : Serves S repo req _ .tagsList _ _ := .listed hm hsome
      (sorted_pairwise (TagListing.known w repo)) (fun t => TagListing.mem_sorted.trans (hknown t).symm)
    rw [TagListing.known] at hempty hlisted
    simp only [hempty, Bool.false_eq_true, if_false]
    exact .unchanged hlisted

end Quill.Registry
