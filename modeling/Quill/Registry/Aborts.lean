import Quill.Registry.LocalTagsWin
import Quill.Registry.SelfConsistency

/-!
# Requests that abort the server

A response builder ends in `expect`, and in the release build a panic aborts the process.
The header values that come from a request are the repository name and the session in
`Location`, and the media type of a stored manifest in `Content-Type`; nothing checks
them before the response is built. So a push that the store accepts aborts exactly
when its path has a control character (`push_answers_iff`), and a manifest aborts every
pull of it exactly when its media type has one (`stored_manifest_answers_iff`).
-/

namespace Quill.Registry

open Text Files Cas World LocalStorage Uploads LocalTags TagCache

variable {S : Setup} {repo : Str}

/-- The handler returns a response. -/
def Answers (h : Handler S) (w : World S) : Prop := ∃ resp w', h.exec w = (.ok resp, w')

theorem answers_pure (resp : Response) (w : World S) : Answers (pure resp : Handler S) w :=
  ⟨resp, w, rfl⟩

theorem answers_build {status : Status} {headers : List (HeaderName × Str)} {body : Body}
    {w : World S} : Answers (build status headers body : Handler S) w ↔
      (headers.all fun h => legalHeaderValue h.2) = true := by
  unfold Answers
  rw [exec_build]
  constructor
  · rintro ⟨resp, w', he⟩
    by_contra hno
    rw [if_neg hno] at he
    cases he
  · intro hall
    rw [if_pos hall]
    exact ⟨_, _, rfl⟩

theorem answers_bind {α : Type} {m : Prog (World S) Abort α} {f : α → Handler S} {w w' : World S}
    {a : α} (hm : m.exec w = (.ok a, w')) : Answers (m >>= f) w ↔ Answers (f a) w' := by
  unfold Answers
  rw [Prog.exec_bind_ok hm]

/-! ## Pushes -/

theorem legalHeaderValue_newSessionId (nanos pid : Nat) :
    legalHeaderValue (newSessionId nanos pid) = true :=
  legalHeaderValue_of_isLowerHex fun _ hc => isLowerHex_of_mem_newSessionId hc

theorem legalHeaderValue_uploadLocation (repo session : Str) :
    legalHeaderValue (uploadLocation repo session) =
      (legalHeaderValue repo && legalHeaderValue session) := by
  have h₁ : legalHeaderValue "/v2/".toList = true := by decide
  have h₂ : legalHeaderValue "/blobs/uploads/".toList = true := by decide
  unfold uploadLocation
  rw [legalHeaderValue_append, legalHeaderValue_append, legalHeaderValue_append, h₁, h₂,
    Bool.true_and, Bool.and_true]

/-- A created session has the id that was drawn. -/
theorem exec_createSession_ok {w w' : World S} {session : Str}
    (h : (createSession repo).exec w = (.ok session, w')) : session = w.drawn := by
  obtain ⟨nanos, w₁, hwall, hdirs⟩ := Prog.exec_bind_eq_ok.mp h
  obtain ⟨_, w₂, -, hfile⟩ := Prog.exec_bind_eq_ok.mp hdirs
  obtain ⟨_, w₃, -, htime⟩ := Prog.exec_bind_eq_ok.mp hfile
  obtain ⟨now, w₄, -, hmeta⟩ := Prog.exec_bind_eq_ok.mp htime
  obtain ⟨_, w₅, -, hend⟩ := Prog.exec_bind_eq_ok.mp hmeta
  have hnanos : nanos = w.wall.headD 0 := (Except.ok.inj (Prod.mk.inj hwall).1).symm
  have hsession : newSessionId nanos S.pid = session := Except.ok.inj (Prod.mk.inj hend).1
  rw [← hsession, hnanos]
  rfl

/-- The store carries out the push, so that the handler comes to its response. -/
def Accepts (w : World S) (req : Request) (repo : Str) : Action → Prop
  | .uploadInit => req.method = .post ∧ ∃ w₁ session w₂,
      (ensureRepo repo).exec w = (.ok (), w₁) ∧ (createSession repo).exec w₁ = (.ok session, w₂)
  | .uploadSession s =>
    (req.method = .patch ∧ ∃ bytes total w', collectBody req.body maxUpload = .ok bytes ∧
      (append repo s bytes).exec w = (.ok total, w')) ∨
    (req.method = .put ∧ ∃ text d bytes r w', req.digestQuery = some text ∧
      Digest.parse text = .ok d ∧ collectBody req.body maxUpload = .ok bytes ∧
      (finalize repo s (if bytes.isEmpty then none else some bytes) d).exec w = (.ok r, w'))
  | .manifest r => req.method = .put ∧ ∃ bytes w₁ w₂ m w₃,
      (ensureRepo repo).exec w = (.ok (), w₁) ∧ collectBody req.body 33554432 = .ok bytes ∧
      (∀ d, Digest.parse r = .ok d → d = S.digest bytes) ∧
      (checkManifestBlobsPresent repo bytes).exec w₁ = (.ok none, w₂) ∧
      (putBlobBuffered repo (S.digest bytes) bytes).exec w₂ = (.ok m, w₃) ∧
      (IsTag r → ∃ w₄, (LocalTags.set repo r (S.digest bytes)).exec w₃ = (.ok (), w₄))
  | _ => False

/-- The request selects one of the handlers of a push. -/
def IsPush (req : Request) : Action → Prop
  | .uploadInit => req.method = .post
  | .uploadSession _ => req.method = .patch ∨ req.method = .put
  | .manifest _ => req.method = .put
  | _ => False

/-- What the handler writes into `Location` besides fixed text and digests is legal. -/
def LegalLocation (req : Request) (repo : Str) : Action → Prop
  | .uploadSession s => legalHeaderValue repo = true ∧
      (req.method = .patch → legalHeaderValue s = true)
  | _ => legalHeaderValue repo = true

theorem uploadInit_answers (w : World S) (req : Request) (hmethod : req.method = .post) :
    Answers (uploadInit repo : Handler S) w ↔
      (Accepts w req repo .uploadInit → legalHeaderValue repo = true) := by
  unfold uploadInit
  rcases hensure : (ensureRepo repo).exec w with ⟨e | ⟨⟨⟩⟩, w₁⟩
  · rw [answers_bind (Prog.exec_attempt_eq.mpr hensure)]
    refine ⟨fun _ hacc => ?_, fun _ => answers_pure _ _⟩
    obtain ⟨-, w₁', s, w₂, he, -⟩ := hacc
    cases hensure.symm.trans he
  · rw [answers_bind (Prog.exec_attempt_eq.mpr hensure)]
    simp only
    rcases hcreate : (createSession repo).exec w₁ with ⟨e | session, w₂⟩
    · rw [answers_bind (Prog.exec_attempt_eq.mpr hcreate)]
      refine ⟨fun _ hacc => ?_, fun _ => answers_pure _ _⟩
      obtain ⟨-, w₁', s, w₂', he, he'⟩ := hacc
      cases hensure.symm.trans he
      cases hcreate.symm.trans he'
    · rw [answers_bind (Prog.exec_attempt_eq.mpr hcreate)]
      have hacc : Accepts w req repo .uploadInit := ⟨hmethod, w₁, session, w₂, hensure, hcreate⟩
      have hsession : legalHeaderValue session = true := by
        rw [exec_createSession_ok hcreate]
        exact legalHeaderValue_newSessionId _ _
      have hrange : legalHeaderValue "0-0".toList = true := by decide
      simp only [answers_build, List.all_cons, List.all_nil, legalHeaderValue_uploadLocation,
        hsession, hrange, Bool.and_true]
      exact ⟨fun h _ => h, fun h => h hacc⟩

theorem uploadPatch_answers (w : World S) (req : Request) (hmethod : req.method = .patch)
    (session : Str) : Answers (uploadPatch repo session req.body : Handler S) w ↔
      (Accepts w req repo (.uploadSession session) →
        LegalLocation req repo (.uploadSession session)) := by
  have hacc : ∀ {bytes : Bytes} {out : Except UploadError Nat × World S},
      collectBody req.body maxUpload = .ok bytes → (append repo session bytes).exec w = out →
      Accepts w req repo (.uploadSession session) → ∃ total w', out = (.ok total, w') := by
    rintro bytes out hbytes hout (⟨-, bytes', total, w', hbytes', hrun⟩ | ⟨hput, -⟩)
    · cases hbytes.symm.trans hbytes'
      exact ⟨total, w', hout.symm.trans hrun⟩
    · rw [hmethod] at hput
      cases hput
  unfold uploadPatch
  cases hbytes : collectBody req.body maxUpload with
  | error resp =>
    refine ⟨fun _ h => ?_, fun _ => answers_pure _ _⟩
    rcases h with ⟨-, bytes', total, w', hbytes', -⟩ | ⟨hput, -⟩
    · cases hbytes.symm.trans hbytes'
    · rw [hmethod] at hput
      cases hput
  | ok bytes =>
    simp only
    rcases hrun : (append repo session bytes).exec w with ⟨e | total, w₁⟩
    · rw [answers_bind (Prog.exec_attempt_eq.mpr hrun)]
      refine ⟨fun _ h => ?_, fun _ => ?_⟩
      · obtain ⟨total, w', he⟩ := hacc hbytes hrun h
        cases he
      · cases e <;> exact answers_pure _ _
    · rw [answers_bind (Prog.exec_attempt_eq.mpr hrun)]
      have haccepts : Accepts w req repo (.uploadSession session) :=
        Or.inl ⟨hmethod, bytes, total, w₁, hbytes, hrun⟩
      have hrange : legalHeaderValue (if total = 0 then "0-0".toList
          else "0-".toList ++ decimal (total - 1)) = true := by
        split
        · decide
        · rw [legalHeaderValue_append, legalHeaderValue_decimal]
          decide
      simp only [answers_build, List.all_cons, List.all_nil, legalHeaderValue_uploadLocation,
        hrange, Bool.and_true, Bool.true_and, Bool.and_eq_true]
      constructor
      · rintro ⟨⟨hrepo, hsession⟩, -⟩ _
        exact ⟨hrepo, fun _ => hsession⟩
      · intro h
        obtain ⟨hrepo, hsession⟩ := h haccepts
        exact ⟨⟨hrepo, hsession hmethod⟩, hsession hmethod⟩

/-- A `Location` with a repository and a digest in it. -/
theorem legalHeaderValue_location (repo : Str) {middle : Str} (d : Digest)
    (hmiddle : legalHeaderValue middle = true) :
    legalHeaderValue ("/v2/".toList ++ repo ++ middle ++ d.toStr) = legalHeaderValue repo := by
  have h₁ : legalHeaderValue "/v2/".toList = true := by decide
  rw [legalHeaderValue_append, legalHeaderValue_append, legalHeaderValue_append, h₁, hmiddle,
    legalHeaderValue_toStr, Bool.true_and, Bool.and_true, Bool.and_true]

theorem uploadPut_answers (w : World S) (req : Request) (hmethod : req.method = .put)
    (session : Str) : Answers (uploadPut repo session req.digestQuery req.body : Handler S) w ↔
      (Accepts w req repo (.uploadSession session) →
        LegalLocation req repo (.uploadSession session)) := by
  have hput : Accepts w req repo (.uploadSession session) → ∃ text d bytes r w',
      req.digestQuery = some text ∧ Digest.parse text = .ok d ∧
      collectBody req.body maxUpload = .ok bytes ∧
      (finalize repo session (if bytes.isEmpty then none else some bytes) d).exec w = (.ok r, w') := by
    rintro (⟨hpatch, -⟩ | ⟨-, h⟩)
    · rw [hmethod] at hpatch
      cases hpatch
    · exact h
  unfold uploadPut
  cases hquery : req.digestQuery with
  | none =>
    refine ⟨fun _ h => ?_, fun _ => answers_pure _ _⟩
    obtain ⟨text, d, bytes, r, w', hq, -⟩ := hput h
    cases hquery.symm.trans hq
  | some text =>
    simp only
    cases hd : Digest.parse text with
    | error e =>
      refine ⟨fun _ h => ?_, fun _ => answers_pure _ _⟩
      obtain ⟨text', d, bytes, r, w', hq, hd', -⟩ := hput h
      cases hquery.symm.trans hq
      cases hd.symm.trans hd'
    | ok d =>
      simp only
      cases hbytes : collectBody req.body maxUpload with
      | error resp =>
        refine ⟨fun _ h => ?_, fun _ => answers_pure _ _⟩
        obtain ⟨text', d', bytes, r, w', -, -, hb, -⟩ := hput h
        cases hbytes.symm.trans hb
      | ok bytes =>
        simp only
        rcases hrun : (finalize repo session (if bytes.isEmpty then none else some bytes) d).exec w
          with ⟨e | r, w₁⟩
        · rw [answers_bind (Prog.exec_attempt_eq.mpr hrun)]
          refine ⟨fun _ h => ?_, fun _ => ?_⟩
          · obtain ⟨text', d', bytes', r, w', hq, hd', hb, he⟩ := hput h
            cases hquery.symm.trans hq
            cases hd.symm.trans hd'
            cases hbytes.symm.trans hb
            cases hrun.symm.trans he
          · cases e <;> exact answers_pure _ _
        · rw [answers_bind (Prog.exec_attempt_eq.mpr hrun)]
          have haccepts : Accepts w req repo (.uploadSession session) :=
            Or.inr ⟨hmethod, text, d, bytes, r, w₁, hquery, hd, hbytes, hrun⟩
          have hlocation := legalHeaderValue_location repo d
            (show legalHeaderValue "/blobs/".toList = true by decide)
          simp only [answers_build, List.all_cons, List.all_nil, hlocation, legalHeaderValue_toStr,
            Bool.and_true]
          constructor
          · intro hrepo _
            refine ⟨hrepo, fun hpatch => ?_⟩
            rw [hmethod] at hpatch
            cases hpatch
          · exact fun h => (h haccepts).1

theorem firstMissing_total (texts : List Str) (w : World S) :
    ∃ missing w', (firstMissing (S := S) repo texts).exec w = (.ok missing, w') := by
  induction texts generalizing w with
  | nil => exact ⟨none, w, rfl⟩
  | cons text texts ih =>
    unfold firstMissing
    cases Digest.parse text with
    | error e => exact ⟨some text, w, rfl⟩
    | ok d =>
      simp only
      rw [Prog.exec_bind_ok (Prog.exec_attempt _ w)]
      rcases ((blobMeta repo d).exec w).1 with e | _ | m
      · exact ⟨_, _, rfl⟩
      · exact ⟨_, _, rfl⟩
      · exact ih _

theorem checkManifestBlobsPresent_total (repo : Str) (bytes : Bytes) (w : World S) :
    ∃ missing w', (checkManifestBlobsPresent (S := S) repo bytes).exec w = (.ok missing, w') := by
  unfold checkManifestBlobsPresent
  cases S.serde.fromSlice bytes with
  | none => exact ⟨none, w, rfl⟩
  | some v => exact firstMissing_total _ w

/-- The tag of a manifest is recorded, if its reference is one. -/
def Tagged (repo reference : Str) (d : Digest) (w : World S) : Prop :=
  IsTag reference → ∃ w', (LocalTags.set repo reference d).exec w = (.ok (), w')

theorem storeManifest_answers (w : World S) (reference : Str) {contentType : Option Str}
    (hct : ∀ ct ∈ contentType, legalHeaderValue ct = true) (bytes : Bytes) :
    Answers (storeManifest repo reference contentType bytes : Handler S) w ↔
      ((∃ m w₁, (putBlobBuffered repo (S.digest bytes) bytes).exec w = (.ok m, w₁) ∧
        Tagged repo reference (S.digest bytes) w₁) → legalHeaderValue repo = true) := by
  have hcreated : ∀ v : World S, Answers (build .created
      ([(.location, "/v2/".toList ++ repo ++ "/manifests/".toList ++ (S.digest bytes).toStr),
        (.dockerContentDigest, (S.digest bytes).toStr)] ++
          (contentType.map fun ct => (HeaderName.contentType, ct)).toList) .empty : Handler S) v ↔
        legalHeaderValue repo = true := by
    intro v
    have hlocation := legalHeaderValue_location repo (S.digest bytes)
      (show legalHeaderValue "/manifests/".toList = true by decide)
    have htail : ((contentType.map fun ct => (HeaderName.contentType, ct)).toList.all
        fun h => legalHeaderValue h.2) = true := by
      cases hc : contentType with
      | none => rfl
      | some ct =>
        simp only [Option.map_some, Option.toList_some, List.all_cons, List.all_nil, Bool.and_true]
        exact hct ct hc
    rw [answers_build, List.all_append, htail]
    simp only [List.all_cons, List.all_nil, hlocation, legalHeaderValue_toStr, Bool.and_true]
  unfold storeManifest
  rcases hput : (putBlobBuffered repo (S.digest bytes) bytes).exec w with ⟨e | m, w₁⟩
  · rw [answers_bind (Prog.exec_attempt_eq.mpr hput)]
    refine ⟨?_, fun _ => answers_pure _ _⟩
    rintro - ⟨m, w₁', he, -⟩
    cases he
  · rw [answers_bind (Prog.exec_attempt_eq.mpr hput)]
    have hstored : (∃ m' w₁', (Except.ok (ε := StorageError) m, w₁) = (.ok m', w₁') ∧
        Tagged repo reference (S.digest bytes) w₁') ↔
          Tagged repo reference (S.digest bytes) w₁ := by
      refine ⟨?_, fun h => ⟨m, w₁, rfl, h⟩⟩
      rintro ⟨m', w₁', he, h⟩
      cases he
      exact h
    rw [hstored]
    simp only
    cases href : Digest.parse reference with
    | ok d =>
      have htagged : Tagged repo reference (S.digest bytes) w₁ := by
        rintro ⟨e, he⟩
        cases href.symm.trans he
      rw [hcreated]
      exact ⟨fun h _ => h, fun h => h htagged⟩
    | error e =>
      simp only
      rcases hset : (LocalTags.set repo reference (S.digest bytes)).exec w₁ with ⟨e' | ⟨⟨⟩⟩, w₂⟩
      · rw [answers_bind (Prog.exec_attempt_eq.mpr hset)]
        refine ⟨fun _ h => ?_, fun _ => answers_pure _ _⟩
        obtain ⟨w', he⟩ := h ⟨e, href⟩
        cases hset.symm.trans he
      · rw [answers_bind (Prog.exec_attempt_eq.mpr hset), hcreated]
        exact ⟨fun h _ => h, fun h => h fun _ => ⟨w₂, hset⟩⟩

theorem filter_eq_none_iff {reference : Str} {d : Digest} :
    (Digest.parse reference).toOption.filter (· ≠ d) = none ↔
      ∀ d', Digest.parse reference = .ok d' → d' = d := by
  cases href : Digest.parse reference with
  | error e => simp [Except.toOption]
  | ok d' => simp [Except.toOption, Option.filter]

theorem putManifest_answers (w : World S) (req : Request) (hmethod : req.method = .put)
    (hct : ∀ ct ∈ req.contentType, legalHeaderValue ct = true) (reference : Str) :
    Answers (putManifest repo reference req.contentType req.body : Handler S) w ↔
      (Accepts w req repo (.manifest reference) → legalHeaderValue repo = true) := by
  unfold putManifest
  rcases hensure : (ensureRepo repo).exec w with ⟨e | ⟨⟨⟩⟩, w₁⟩
  · rw [answers_bind (Prog.exec_attempt_eq.mpr hensure)]
    refine ⟨fun _ h => ?_, fun _ => answers_pure _ _⟩
    obtain ⟨-, bytes, w₁', w₂, m, w₃, he, -⟩ := h
    cases hensure.symm.trans he
  · rw [answers_bind (Prog.exec_attempt_eq.mpr hensure)]
    simp only
    cases hbytes : collectBody req.body 33554432 with
    | error resp =>
      refine ⟨fun _ h => ?_, fun _ => answers_pure _ _⟩
      obtain ⟨-, bytes, w₁', w₂, m, w₃, -, hb, -⟩ := h
      cases hbytes.symm.trans hb
    | ok bytes =>
      simp only
      cases hfilter : (Digest.parse reference).toOption.filter (· ≠ S.digest bytes) with
      | some other =>
        refine ⟨fun _ h => ?_, fun _ => answers_pure _ _⟩
        obtain ⟨-, bytes', w₁', w₂, m, w₃, -, hb, hd, -⟩ := h
        cases hbytes.symm.trans hb
        rw [filter_eq_none_iff.mpr hd] at hfilter
        cases hfilter
      | none =>
        have hd := filter_eq_none_iff.mp hfilter
        obtain ⟨missing, w₂, hcheck⟩ := checkManifestBlobsPresent_total repo bytes w₁
        simp only
        rw [answers_bind hcheck]
        cases missing with
        | some text =>
          refine ⟨fun _ h => ?_, fun _ => answers_pure _ _⟩
          obtain ⟨-, bytes', w₁', w₂', m, w₃, he, hb, -, hc, -⟩ := h
          cases hensure.symm.trans he
          cases hbytes.symm.trans hb
          cases hcheck.symm.trans hc
        | none =>
          simp only
          rw [storeManifest_answers w₂ reference hct bytes]
          constructor
          · intro h hacc
            obtain ⟨-, bytes', w₁', w₂', m, w₃, he, hb, -, hc, hput, htag⟩ := hacc
            cases hensure.symm.trans he
            cases hbytes.symm.trans hb
            cases hcheck.symm.trans hc
            exact h ⟨m, w₃, hput, htag⟩
          · rintro h ⟨m, w₃, hput, htag⟩
            exact h ⟨hmethod, bytes, w₁, w₂, m, w₃, hensure, hbytes, hd, hcheck, hput, htag⟩

/-- A push answers exactly when, if the store carries it out, the repository name and, in a `PATCH`,
the session have no control character but tabs; otherwise the process aborts after the store
has changed. -/
theorem push_answers_iff (S : Setup) (w : World S) (req : Request) (repo : Str) (action : Action)
    (hsplit : split req.rest = (repo, action)) (hrepo : repo ≠ []) (hpush : IsPush req action)
    (contentType : Option Bytes) (hct : req.contentType = contentType.bind Upstream.toStr) :
    Answers (dispatch req : Handler S) w ↔
      (Accepts w req repo action → LegalLocation req repo action) := by
  have hne : (split req.rest).1 ≠ [] := by
    rw [hsplit]
    exact hrepo
  have hlegal : ∀ ct ∈ req.contentType, legalHeaderValue ct = true := by
    intro ct hmem
    rw [hct] at hmem
    obtain ⟨value, -, hvalue⟩ := Option.bind_eq_some_iff.mp hmem
    exact Upstream.legalHeaderValue_toStr_value hvalue
  unfold Answers
  rw [dispatch_named hne, hsplit]
  cases action with
  | uploadInit =>
    have hmethod : req.method = .post := hpush
    simp only [route, hmethod, if_true]
    exact uploadInit_answers w req hmethod
  | uploadSession s =>
    rcases hpush with hmethod | hmethod
    · simp only [route, hmethod]
      exact uploadPatch_answers w req hmethod s
    · simp only [route, hmethod]
      exact uploadPut_answers w req hmethod s
  | manifest r =>
    have hmethod : req.method = .put := hpush
    simp only [route, hmethod]
    exact putManifest_answers w req hmethod hlegal r
  | blob d => exact absurd hpush id
  | tagsList => exact absurd hpush id
  | unknown => exact absurd hpush id

/-- A request that opens an upload. -/
def openUpload (rest : Str) : Request :=
  ⟨.post, rest, none, none, none, none, ⟨none, none, none, none⟩⟩

/-- A line break in the repository name, sent as `%0A`, ends the server. -/
theorem line_break_aborts_push :
    ¬ ∀ (S : Setup) (w : World S) (req : Request) (repo : Str) (action : Action),
      split req.rest = (repo, action) → repo ≠ [] → IsPush req action →
      (∃ contentType : Option Bytes, req.contentType = contentType.bind Upstream.toStr) →
      Accepts w req repo action → Answers (dispatch req : Handler S) w := by
  intro h
  have hrepo : ∀ w : World Codec.mirror,
      ((ensureRepo "a\nb".toList).exec w).1 = .ok () →
      ((createSession "a\nb".toList).exec ((ensureRepo "a\nb".toList).exec w).2).1.isOk = true →
      Accepts w (openUpload "a\nb/blobs/uploads/".toList) "a\nb".toList .uploadInit := by
    intro w h₁ h₂
    rcases hrun : (createSession "a\nb".toList).exec ((ensureRepo "a\nb".toList).exec w).2 with
      ⟨e | session, w₂⟩
    · rw [hrun] at h₂
      cases h₂
    · exact ⟨rfl, _, session, w₂, Prod.ext h₁ rfl, hrun⟩
  obtain ⟨resp, w', he⟩ := h Codec.mirror (World.start Codec.mirror [] [])
    (openUpload "a\nb/blobs/uploads/".toList) "a\nb".toList .uploadInit (by decide) (by decide)
    rfl ⟨none, rfl⟩ (hrepo _ (by decide) (by decide))
  have hpanic : ((dispatch (openUpload "a\nb/blobs/uploads/".toList) : Handler Codec.mirror).exec
      (World.start Codec.mirror [] [])).1 = .error .panic := by decide +kernel
  rw [he] at hpanic
  cases hpanic

/-- An upload to a repository with a printable name is opened. -/
theorem printable_name_answers :
    Answers (dispatch (openUpload "app/blobs/uploads/".toList) : Handler Codec.mirror)
      (World.start Codec.mirror [] []) :=
  (push_answers_iff Codec.mirror (World.start Codec.mirror [] [])
    (openUpload "app/blobs/uploads/".toList) "app".toList .uploadInit (by decide) (by decide)
    rfl none rfl).mpr fun _ => show legalHeaderValue "app".toList = true by decide

/-! ## Stored manifests -/

theorem answers_map (f : Response → Response) {h : Handler S} {w : World S} :
    Answers (f <$> h) w ↔ Answers h w := by
  unfold Answers
  rw [Prog.exec_map]
  rcases h.exec w with ⟨a | resp, w'⟩
  · constructor
    · rintro ⟨resp, w'', he⟩
      cases he
    · rintro ⟨resp, w'', he⟩
      cases he
  · exact ⟨fun _ => ⟨resp, w', rfl⟩, fun _ => ⟨f resp, w', rfl⟩⟩

theorem manifestResponse_answers {b : Bytes} {contentType : Str} {d : Digest} {withBody : Bool}
    {w : World S} : Answers (buildManifestResponse b contentType d withBody : Handler S) w ↔
      legalHeaderValue contentType = true := by
  unfold Answers
  rw [exec_manifestResponse]
  constructor
  · rintro ⟨resp, w', he⟩
    by_contra hno
    rw [if_neg hno] at he
    cases he
  · intro hlegal
    rw [if_pos hlegal]
    exact ⟨_, _, rfl⟩

/-- The request is a `GET` or `HEAD` of the manifest with this digest, by digest or by local tag. -/
def Requests (w : World S) (req : Request) (repo : Str) (d : Digest) : Prop :=
  (req.method = .get ∨ req.method = .head) ∧ ∃ reference,
    split req.rest = (repo, .manifest reference) ∧
      (Digest.parse reference = .ok d ∨ (IsTag reference ∧ localDigest w repo reference = some d))

/-- Every way to serve the stored manifest `b` ends in a response. -/
structure ServesSafely (w : World S) (repo : Str) (b : Bytes) : Prop where
  serve : ∀ reference withBody,
    Answers (serveLocalManifest repo (S.digest b) reference withBody : Handler S) w
  pulls : ∀ req, Requests w req repo (S.digest b) → Answers (dispatch req : Handler S) w

theorem getManifest_answers {w : World S} {reference : Str} {d : Digest}
    (hserve : ∀ w', Looks w w' → ∀ withBody,
      Answers (serveLocalManifest repo d reference withBody : Handler S) w')
    (hfile : w.fs.isFile (blobPath S.root repo d) = true)
    (href : Digest.parse reference = .ok d ∨ (IsTag reference ∧ localDigest w repo reference = some d))
    (withBody : Bool) (up : Replies) :
    Answers (getManifest repo reference withBody up : Handler S) w := by
  unfold getManifest
  rcases href with href | ⟨⟨e, href⟩, hlocal⟩
  · simp only [href]
    obtain ⟨w₁, hlooks, ⟨-, m, -, hmeta⟩ | ⟨hno, -, -⟩ | ⟨hno, -, -⟩⟩ := blobMeta_looks w repo d
    · unfold getManifestByDigest
      rw [answers_bind (Prog.exec_attempt_eq.mpr hmeta)]
      exact hserve w₁ hlooks withBody
    · simp [found, hfile] at hno
    · simp [found, hfile] at hno
  · simp only [href]
    rw [answers_bind (Prog.exec_get w)]
    obtain ⟨tag, htag, hd⟩ := localDigest_eq_some.mp hlocal
    simp only [htag, hd]
    exact hserve w (.refl w) withBody

theorem answers_unnamed {req : Request} (hrepo : (split req.rest).1 = []) (w : World S) :
    Answers (dispatch req : Handler S) w := by
  unfold dispatch
  split
  · unfold catalog
    rw [answers_bind (Prog.exec_get w)]
    cases listRepos S.root w.fs with
    | error e => exact answers_pure _ _
    | ok repos => exact answers_pure _ _
  · exact answers_pure _ _

theorem servesSafely_of_legal {w : World S} (hw : CachedPaths w) {b : Bytes} (hlegal : LegalMedia S b)
    (hb : w.fs.read (blobPath S.root repo (S.digest b)) = some b) : ServesSafely w repo b := by
  have hserve : ∀ w', Looks w w' → ∀ reference withBody,
      Answers (serveLocalManifest repo (S.digest b) reference withBody : Handler S) w' := by
    intro w' hlooks reference withBody
    have hb' : w'.fs.read (blobPath S.root repo (S.digest b)) = some b := by
      rw [hlooks.fs]
      exact hb
    obtain ⟨w₁, -, he⟩ := serveLocalManifest_present (hlooks.paths hw) hb' reference withBody
    unfold Answers
    rw [he]
    exact manifestResponse_answers.mpr hlegal
  refine ⟨fun reference withBody => hserve w (.refl w) reference withBody, ?_⟩
  rintro req ⟨hmethod, reference, hsplit, href⟩
  have hget : ∀ withBody, Answers (getManifest repo reference withBody req.upstream : Handler S) w :=
    fun withBody => getManifest_answers (fun w' h => hserve w' h reference)
      (by simp [Fs.isFile, hb]) href withBody req.upstream
  by_cases hrepo : (split req.rest).1 = []
  · exact answers_unnamed hrepo w
  · unfold Answers
    rw [dispatch_named hrepo, hsplit]
    rcases hmethod with hm | hm
    · simp only [route, hm]
      exact (answers_map _).mpr (hget true)
    · simp only [route, hm]
      exact (answers_map _).mpr (hget false)

/-- A manifest that was accepted went through its steps: it was stored, its tag was set, and the
answer was built. -/
theorem exec_storeManifest_created {reference : Str} {contentType : Option Str} {b : Bytes}
    {resp : Response} {w w' : World S}
    (h : (storeManifest repo reference contentType b : Handler S).exec w = (.ok resp, w'))
    (hstatus : resp.status = .created) :
    ∃ m w₁, (putBlobBuffered repo (S.digest b) b).exec w = (.ok m, w₁) ∧
      (w' = w₁ ∨ (LocalTags.set repo reference (S.digest b)).exec w₁ = (.ok (), w')) ∧
      (build .created ([(.location, "/v2/".toList ++ repo ++ "/manifests/".toList ++ (S.digest b).toStr),
        (.dockerContentDigest, (S.digest b).toStr)] ++
          (contentType.map fun ct => (.contentType, ct)).toList) .empty : Handler S).exec w' =
        (.ok resp, w') := by
  obtain ⟨r, w₁, hr, h⟩ := Prog.exec_bind_eq_ok.mp h
  have hput := Prog.exec_attempt_eq.mp hr
  cases r with
  | error e =>
    cases h
    cases hstatus
  | ok m =>
    simp only at h
    cases href : Digest.parse reference with
    | ok d =>
      rw [href] at h
      obtain ⟨-, rfl⟩ := exec_build_eq_ok h
      exact ⟨m, _, hput, Or.inl rfl, h⟩
    | error e =>
      rw [href] at h
      obtain ⟨r', w₂, hr', h⟩ := Prog.exec_bind_eq_ok.mp h
      have hset := Prog.exec_attempt_eq.mp hr'
      cases r' with
      | error e' =>
        cases h
        cases hstatus
      | ok u =>
        obtain ⟨-, rfl⟩ := exec_build_eq_ok h
        exact ⟨m, w₁, hput, Or.inr hset, h⟩

theorem read_of_stored {reference : Str} {contentType : Option Str} {b : Bytes} {resp : Response}
    {w w' : World S}
    (h : (storeManifest repo reference contentType b : Handler S).exec w = (.ok resp, w'))
    (hstatus : resp.status = .created) :
    w'.fs.read (blobPath S.root repo (S.digest b)) = some b := by
  obtain ⟨m, w₁, hput, hw', -⟩ := exec_storeManifest_created h hstatus
  obtain ⟨hread, -, -⟩ := exec_putBlobBuffered_ok hput
  rcases hw' with rfl | hset
  · exact hread
  · obtain ⟨r'', pushedAt, w₃, w₄, he, hamb, heff, -, -⟩ := exec_setTag w₁ repo reference (S.digest b)
    cases he.symm.trans hset
    cases heff with
    | @setTag _ fs' t d pushedAt' failed hfs =>
      show fs'.read (blobPath S.root repo (S.digest b)) = some b
      rw [hfs.read (blobPath_not_scratch _ _ _) (blobPath_ne_localTagsPath _ _ _ _),
        hamb.fs.read (blobPath_not_scratch _ _ _) (Set.notMem_empty _), hread]

/-- The content type of an accepted manifest can be sent. -/
theorem legal_of_stored {reference contentType : Str} {b : Bytes} {resp : Response} {w w' : World S}
    (h : (storeManifest repo reference (some contentType) b : Handler S).exec w = (.ok resp, w'))
    (hstatus : resp.status = .created) : legalHeaderValue contentType = true := by
  obtain ⟨m, w₁, -, -, hbuild⟩ := exec_storeManifest_created h hstatus
  rw [exec_build] at hbuild
  split at hbuild
  · rename_i hall
    exact List.all_eq_true.mp hall (.contentType, contentType) (by simp)
  · cases hbuild

/-- An accepted push ends with the storing of its manifest. -/
theorem exec_putManifest_created {reference : Str} {contentType : Option Str} {b : Bytes}
    {resp : Response} {w w' : World S}
    (h : (putManifest repo reference contentType (some b) : Handler S).exec w = (.ok resp, w'))
    (hstatus : resp.status = .created) :
    ∃ w₁, (storeManifest repo reference contentType b : Handler S).exec w₁ = (.ok resp, w') := by
  obtain ⟨r, w₀, -, h⟩ := Prog.exec_bind_eq_ok.mp h
  cases r with
  | error e =>
    cases h
    cases hstatus
  | ok u =>
    rcases collectBody_cases (some b) 33554432 with ⟨c, hc, hcoll⟩ | ⟨resp', hcoll, hne, -⟩
    · cases hc
      simp only [hcoll] at h
      cases hfilter : (Digest.parse reference).toOption.filter (· ≠ S.digest b) with
      | some other =>
        rw [hfilter] at h
        cases h
        cases hstatus
      | none =>
        rw [hfilter] at h
        obtain ⟨missing, w₁, -, h⟩ := Prog.exec_bind_eq_ok.mp h
        cases missing with
        | some text =>
          cases h
          cases hstatus
        | none => exact ⟨w₁, h⟩
    · simp only [hcoll] at h
      cases h
      exact absurd hstatus hne

/-- A manifest that the server accepts is served in every later state that still has it, by `GET`
and `HEAD`, by digest and by tag, exactly when its media type has no control character but tabs;
otherwise the first pull of it aborts the process. -/
theorem stored_manifest_answers_iff (S : Setup) (w : World S) (hw : CachedPaths w) (req : Request)
    (repo reference : Str) (hmethod : req.method = .put)
    (hsplit : split req.rest = (repo, .manifest reference)) (hrepo : repo ≠ []) (b : Bytes)
    (hbody : req.body = some b) (resp : Response) (w' : World S)
    (hrun : (dispatch req : Handler S).exec w = (.ok resp, w')) (hstatus : resp.status = .created) :
    (∀ ops w₂, w₂ = runOps w' ops → w₂.fs.read (blobPath S.root repo (S.digest b)) = some b →
      ServesSafely w₂ repo b) ↔
        legalHeaderValue (Manifest.mediaType (S.serde.fromSlice b)) = true := by
  have hw' : CachedPaths w' := by
    have hkept := hw.run (.request req)
    rwa [Op.run, hrun] at hkept
  have hne : (split req.rest).1 ≠ [] := by
    rw [hsplit]
    exact hrepo
  have hput : (putManifest repo reference req.contentType (some b) : Handler S).exec w =
      (.ok resp, w') := by
    rw [dispatch_named hne, hsplit] at hrun
    simpa only [route, hmethod, hbody] using hrun
  obtain ⟨w₁, hstore⟩ := exec_putManifest_created hput hstatus
  have hread := read_of_stored hstore hstatus
  constructor
  · intro h
    have hsafe := (h [] w' rfl hread).serve reference true
    obtain ⟨w₁, -, he⟩ := serveLocalManifest_present hw' hread reference true
    unfold Answers at hsafe
    rw [he] at hsafe
    exact manifestResponse_answers.mp hsafe
  · rintro hlegal ops w₂ rfl hb
    exact servesSafely_of_legal (hw'.runOps ops) hlegal hb

/-- The manifest `{"mediaType":"a\nb"}`, whose media type has a line break. -/
def brokenText : Str := "\x7b\"mediaType\":\"a\\nb\"\x7d".toList

def brokenSetup : Setup :=
  Codec.server [] [(brokenText, .obj [("mediaType".toList, .str "a\nb".toList)])]

def pushText (text : Str) : Request :=
  ⟨.put, "app/manifests/v1".toList, none, none, none, some (Codec.utf8 text), ⟨none, none, none, none⟩⟩

def pullApp : Request :=
  ⟨.get, "app/manifests/v1".toList, none, none, none, none, ⟨none, none, none, none⟩⟩

/-- The world after a push of the text. -/
def afterPush (text : Str) : World brokenSetup :=
  ((dispatch (pushText text) : Handler brokenSetup).exec (World.start brokenSetup [] [])).2

/-- The response to a push of the text. -/
def pushResponse (text : Str) : Response :=
  ⟨.created, [(.location, "/v2/app/manifests/".toList ++ (brokenSetup.digest (Codec.utf8 text)).toStr),
    (.dockerContentDigest, (brokenSetup.digest (Codec.utf8 text)).toStr)], .empty⟩

theorem exec_pushText {text : Str} (h : ((dispatch (pushText text) : Handler brokenSetup).exec
    (World.start brokenSetup [] [])).1 = .ok (pushResponse text)) :
    (dispatch (pushText text) : Handler brokenSetup).exec (World.start brokenSetup [] []) =
      (.ok (pushResponse text), afterPush text) := Prod.ext h rfl

/-- The manifest is accepted, and pulling it ends the server. -/
theorem line_break_aborts_pull :
    ¬ ∀ (S : Setup) (w : World S), CachedPaths w → ∀ (req : Request) (repo reference : Str),
      req.method = .put → split req.rest = (repo, .manifest reference) → repo ≠ [] →
      ∀ b, req.body = some b → ∀ (resp : Response) (w' : World S),
        (dispatch req : Handler S).exec w = (.ok resp, w') → resp.status = .created →
        ∀ ops w₂, w₂ = runOps w' ops →
          w₂.fs.read (blobPath S.root repo (S.digest b)) = some b → ServesSafely w₂ repo b := by
  intro h
  obtain ⟨hpush, hread, hlocal, hpanic⟩ :
      ((dispatch (pushText brokenText) : Handler brokenSetup).exec
        (World.start brokenSetup [] [])).1 = .ok (pushResponse brokenText) ∧
      (afterPush brokenText).fs.read (blobPath brokenSetup.root "app".toList
        (brokenSetup.digest (Codec.utf8 brokenText))) = some (Codec.utf8 brokenText) ∧
      localDigest (afterPush brokenText) "app".toList "v1".toList =
        some (brokenSetup.digest (Codec.utf8 brokenText)) ∧
      ((dispatch pullApp : Handler brokenSetup).exec (afterPush brokenText)).1 = .error .panic := by
    decide +kernel
  have hsafe := h brokenSetup (World.start brokenSetup [] []) (fun _ _ _ hm => by cases hm)
    (pushText brokenText) "app".toList "v1".toList rfl (by decide) (by decide) _ rfl
    (pushResponse brokenText) (afterPush brokenText) (exec_pushText hpush) rfl []
    (afterPush brokenText) rfl hread
  have hrequests : Requests (afterPush brokenText) pullApp "app".toList
      (brokenSetup.digest (Codec.utf8 brokenText)) :=
    ⟨Or.inl rfl, "v1".toList, by decide, Or.inr ⟨⟨.missingSeparator, by decide⟩, hlocal⟩⟩
  obtain ⟨resp, w', he⟩ := hsafe.pulls pullApp hrequests
  rw [he] at hpanic
  cases hpanic

/-- A manifest without a media type is served with the default one. -/
theorem plain_manifest_is_served :
    ServesSafely (afterPush "manifest".toList) "app".toList (Codec.utf8 "manifest".toList) := by
  obtain ⟨hpush, hread⟩ :
      ((dispatch (pushText "manifest".toList) : Handler brokenSetup).exec
        (World.start brokenSetup [] [])).1 = .ok (pushResponse "manifest".toList) ∧
      (afterPush "manifest".toList).fs.read (blobPath brokenSetup.root "app".toList
        (brokenSetup.digest (Codec.utf8 "manifest".toList))) = some (Codec.utf8 "manifest".toList) := by
    decide +kernel
  have hserves := (stored_manifest_answers_iff brokenSetup (World.start brokenSetup [] [])
    (fun _ _ _ hm => by cases hm) (pushText "manifest".toList) "app".toList "v1".toList rfl
    (by decide) (by decide) _ rfl (pushResponse "manifest".toList)
    (afterPush "manifest".toList) (exec_pushText hpush) rfl).mpr (by decide)
  exact hserves [] _ rfl hread

end Quill.Registry
