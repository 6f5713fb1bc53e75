import Quill.Registry.Histories
import Quill.Registry.SelfConsistency

/-!
# Conditional pulls

A client that has pulled a manifest can send its digest as `If-None-Match` with a later pull, of any
reference in any repository. It is told that it has the manifest exactly when it would be sent the same
bytes again, whatever happened in between (`revalidation_is_exact`). This needs a hash
without collisions on what was stored and, where a pull asks the upstream, a reply whose digest is the one
of its bytes.
-/

namespace Quill.Registry

open Text TagResolution

variable {S : Setup} {repo : Str} {req : Request} {a a' : Repo} {resp : Response} {reference : Str}

theorem applyIfNoneMatch_of_digest {condition digest : Str}
    (h : resp.header .dockerContentDigest = some digest) : applyIfNoneMatch (some condition) resp =
      if trimQuotes (trimBlank condition) = digest then
        ⟨.notModified, [(.dockerContentDigest, digest), (.etag, digest)], .empty⟩
      else resp := by
  simp only [applyIfNoneMatch, h]

theorem applyIfNoneMatch_of_none (ifNoneMatch : Option Str)
    (h : resp.header .dockerContentDigest = none) : applyIfNoneMatch ifNoneMatch resp = resp := by
  unfold applyIfNoneMatch
  rw [h]
  split
  · rename_i hsome
    cases hsome
  · rfl

/-- The manifest that an upstream sends has the digest that it names. -/
def Sincere (S : Setup) (req : Request) : Prop :=
  ∀ m, req.upstream.getManifest = some m → m.digest = S.digest m.bytes

/-- A pull of a manifest sends a blob that the repository has then, or nothing that has a digest. -/
theorem Serves.pulled (h : Serves S repo req a (.manifest reference) resp a') (hm : req.method = .get)
    (htrue : Sincere S req) : ∃ plain, resp = applyIfNoneMatch req.ifNoneMatch plain ∧
      ((∃ d b, plain.status = .ok ∧ plain.header .dockerContentDigest = some d.toStr ∧
          plain.body = .bytes b ∧ a'.blobs d = some b) ∨
        (plain.status = .notFound ∧ plain.header .dockerContentDigest = none ∧
          ∀ b, plain.body ≠ .bytes b)) := by
  cases h with
  | unsupported hno => exact absurd (Or.inl hm) hno
  | @manifest _ d b _ _ hb =>
    refine ⟨_, rfl, Or.inl ⟨d, b, rfl, rfl, ?_, hb⟩⟩
    rw [storedAnswer, decide_eq_true hm]
    rfl
  | noManifest =>
    exact ⟨_, rfl, Or.inr ⟨rfl, rfl, fun b hb => by cases hb⟩⟩
  | @fetchedManifest _ m _ _ _ _ hreply =>
    refine ⟨_, rfl, Or.inl ⟨m.digest, m.bytes, rfl, rfl, ?_, ?_⟩⟩
    · rw [fetchedAnswer, decide_eq_true hm]
      rfl
    · have hhash : S.hash.hex m.bytes = m.digest.hex := by
        rw [htrue m hreply]
        rfl
      unfold fetched
      rw [if_pos hhash]
      split <;> simp
  | unreadManifest hm' => cases hm.symm.trans hm'
  | otherDigest hm' => cases hm.symm.trans hm'
  | missingBlob hm' => cases hm.symm.trans hm'
  | pushed hm' => cases hm.symm.trans hm'
  | untagged hm' => cases hm.symm.trans hm'
  | noTag hm' => cases hm.symm.trans hm'
  | deletedManifest hm' => cases hm.symm.trans hm'

/-- What the condition of a pull makes of the answer that the pull would get without it. -/
theorem exec_pull_conditional {r : PlainName} {w w' : World S}
    (hsplit : split req.rest = (r.val, .manifest reference)) (hm : req.method = .get)
    (h : Exchanges S w (req, resp) w') : ∃ plain, Exchanges S w ({ req with ifNoneMatch := none }, plain) w' ∧
      resp = applyIfNoneMatch req.ifNoneMatch plain := by
  have hne : r.val ≠ [] := fun he => not_plain_nil (he ▸ r.property)
  have hwith := dispatch_getManifest (S := S) hm hsplit hne req.ifNoneMatch w
  have hwithout := dispatch_getManifest (S := S) hm hsplit hne none w
  have hrun : (dispatch { req with ifNoneMatch := req.ifNoneMatch } : Handler S).exec w = (.ok resp, w') := h
  rw [hwith] at hrun
  obtain ⟨hresp, hworld⟩ := Prod.mk.inj hrun
  cases hget : ((Registry.getManifest r.val reference true req.upstream : Handler S).exec w).1 with
  | error e =>
    rw [hget] at hresp
    cases hresp
  | ok plain =>
    rw [hget] at hresp
    refine ⟨plain, ?_, (Except.ok.inj hresp).symm⟩
    rw [Exchanges, hwithout, hget, hworld]
    rfl

/-- A manifest that was sent has the digest that was sent with it, and was stored. -/
theorem Ready.pulled {r : PlainName} {w w' : World S} (hw' : Ready w')
    (hsplit : split req.rest = (r.val, .manifest reference)) (hm : req.method = .get)
    (htrue : Sincere S req) (h : Shelf.Step S (view w) (req, resp) (view w')) :
    ∃ plain, resp = applyIfNoneMatch req.ifNoneMatch plain ∧
      ((∃ (d : Digest) (b : Bytes), plain.status = .ok ∧ plain.header .dockerContentDigest = some d.toStr ∧
          plain.body = .bytes b ∧ S.hash.hex b = d.hex ∧ b ∈ w'.log.stored) ∨
        (plain.status = .notFound ∧ plain.header .dockerContentDigest = none ∧
          ∀ b, plain.body ≠ .bytes b)) := by
  obtain ⟨-, hserves⟩ := (h.at r).resolve_right fun h => h.1 (by rw [hsplit])
  rw [hsplit] at hserves
  obtain ⟨plain, hresp, hplain⟩ := hserves.pulled hm htrue
  refine ⟨plain, hresp, hplain.imp_left ?_⟩
  rintro ⟨d, b, hstatus, hheader, hbody, hblob⟩
  obtain ⟨hhash, hmem⟩ := hw'.sound.blob (r := r.val) hblob
  exact ⟨d, b, hstatus, hheader, hbody, hhash, hmem⟩

/-- A client that pulled a manifest with the bytes `b` and sends its digest with a later pull is told
that nothing was modified exactly when the pull would send `b` without the condition, and gets the
answer without the condition otherwise. -/
theorem revalidation_is_exact {ticks wall : List Nat} {es es' : List Exchange} {first later : Request}
    {pulled answer : Response} {w : World S}
    (h : Served S ticks wall (es ++ [(first, pulled)] ++ es' ++ [(later, answer)]) w)
    (hplain : ∀ e ∈ es ++ [(first, pulled)] ++ es' ++ [(later, answer)], PlainRepo e.1)
    (hok : w.log.ioFailed = false) (hfree : CollisionFree S w.log.stored)
    {r r' : PlainName} {reference reference' : Str}
    (hfirst : split first.rest = (r.val, .manifest reference)) (hm : first.method = .get)
    (htrue : Sincere S first) (hstatus : pulled.status = .ok) {b : Bytes} (hbody : pulled.body = .bytes b)
    (hlater : split later.rest = (r'.val, .manifest reference')) (hm' : later.method = .get)
    (htrue' : Sincere S later) {condition : Str} (hcondition : later.ifNoneMatch = some condition)
    (hheader : pulled.header .dockerContentDigest = some (trimQuotes (trimBlank condition))) :
    ∃ w₁ plain, Served S ticks wall (es ++ [(first, pulled)] ++ es') w₁ ∧
      Exchanges S w₁ ({ later with ifNoneMatch := none }, plain) w ∧
      (answer.status = .notModified ↔ plain.body = .bytes b) ∧
      (answer.status ≠ .notModified → answer = plain) := by
  -- the worlds before the later pull and after the first one
  obtain ⟨w₃, hserved₃, hok₃, hready₃, hrun, -⟩ := h.last hplain hok
  have hplain₃ : ∀ e ∈ es ++ [(first, pulled)] ++ es', PlainRepo e.1 := fun e he =>
    hplain e (List.mem_append_left _ he)
  obtain ⟨w₂, htrace₂, htrace₃⟩ := Trace.append_iff.mp hserved₃.trace
  have hserved₂ : Served S ticks wall (es ++ [(first, pulled)]) w₂ := served_iff_trace.mpr htrace₂
  have hok₂ : w₂.log.ioFailed = false := (registry S).sane_start htrace₃ hok₃
  have hplain₂ : ∀ e ∈ es ++ [(first, pulled)], PlainRepo e.1 := fun e he =>
    hplain₃ e (List.mem_append_left _ he)
  have hready₂ := (hserved₂.shelf hplain₂ hok₂).1
  obtain ⟨w₁, -, -, -, -, hstep⟩ := hserved₂.last hplain₂ hok₂
  -- the bytes that the client has
  obtain ⟨plain₁, hpulled, hsent⟩ := hready₂.pulled hfirst hm htrue hstep
  have hsame : pulled = plain₁ := hpulled.trans (status_applyIfNoneMatch (hpulled ▸ hstatus))
  subst hsame
  obtain ⟨d, b', -, hd, hb', hhash, hmem⟩ := hsent.resolve_right fun hnone => hnone.2.2 b hbody
  cases hbody.symm.trans hb'
  have hdigest : trimQuotes (trimBlank condition) = d.toStr := Option.some.inj (hheader.symm.trans hd)
  have hstored₃ : w₃.log.stored ⊆ w.log.stored := stored_dispatch hready₃.sound.dataNamed hrun hok
  have hstored₂ : w₂.log.stored ⊆ w₃.log.stored :=
    (stored_of_trace htrace₃ hready₂.sound.dataNamed hok₃).2
  -- the answer without the condition
  obtain ⟨plain, hexchange, hanswer⟩ := exec_pull_conditional hlater hm' hrun
  obtain ⟨hready, hstep'⟩ := answers_step (e := ({ later with ifNoneMatch := none }, plain))
    (hplain (later, answer) (by simp)) hready₃ hok hexchange
  have hlater' : split ({ later with ifNoneMatch := none } : Request).rest = (r'.val, .manifest reference') :=
    hlater
  obtain ⟨plain', hplain', hsent'⟩ := hready.pulled hlater' hm' htrue' hstep'
  obtain rfl : plain = plain' := hplain'
  refine ⟨w₃, plain, hserved₃, hexchange, ?_⟩
  rw [hcondition] at hanswer
  rcases hsent' with ⟨d', c, hstatus', hd', hc, hhash', hmem'⟩ | ⟨hstatus', hno, hnobody⟩
  · by_cases hmatch : d = d'
    · -- the digest is the one of the client
      subst hmatch
      have hbc : b = c := hfree b (hstored₃ (hstored₂ hmem)) c hmem' (hhash.trans hhash'.symm)
      have hnot : answer.status = .notModified := by
        rw [hanswer, applyIfNoneMatch_of_digest hd', if_pos hdigest]
      exact ⟨⟨fun _ => hbc ▸ hc, fun _ => hnot⟩, fun hno => absurd hnot hno⟩
    · have hother : answer = plain := by
        rw [hanswer, applyIfNoneMatch_of_digest hd', hdigest,
          if_neg fun he => hmatch (Digest.toStr_injective he)]
      refine ⟨⟨fun hnot => ?_, fun hsend => ?_⟩, fun _ => hother⟩
      · rw [hother, hstatus'] at hnot
        cases hnot
      · cases hsend.symm.trans hc
        refine absurd (Digest.toStr_injective ?_) hmatch
        rw [Digest.toStr, Digest.toStr, ← hhash, ← hhash']
  · have hother : answer = plain := hanswer.trans (applyIfNoneMatch_of_none _ hno)
    refine ⟨⟨fun hnot => ?_, fun hsend => absurd hsend (hnobody b)⟩, fun _ => hother⟩
    rw [hother, hstatus'] at hnot
    cases hnot

/-! A pushed manifest is pulled, and pulled again under its digest in quotes. -/

def fetchApp : Request := ⟨.get, "app/manifests/v1".toList, none, none, none, none, noReplies⟩

def fetchAppAgain : Request :=
  { fetchApp with ifNoneMatch := some (" \"".toList ++ layerDigest.toStr ++ "\"".toList) }

def notModifiedApp : Response :=
  ⟨.notModified, [(.dockerContentDigest, layerDigest.toStr), (.etag, layerDigest.toStr)], .empty⟩

theorem unmodified_app_is_current : ∃ w w₁ : World ManifestPuts.blankServer, ∃ plain,
    Exchanges ManifestPuts.blankServer w₁ (fetchApp, plain) w ∧ plain.body = .bytes layer := by
  have hrun : ((serveAll ManifestPuts.fresh [pushApp, fetchApp, fetchAppAgain]).map fun p =>
      (p.1.map Prod.snd, p.2.log.ioFailed,
        decide (CollisionFree ManifestPuts.blankServer p.2.log.stored))) =
      some ([pushAppCreated, storedAnswer ManifestPuts.blankServer layerDigest layer true, notModifiedApp],
        false, true) := by decide +kernel
  obtain ⟨⟨es, w⟩, hall, hpair⟩ := Option.map_eq_some_iff.mp hrun
  obtain ⟨hresponses, hrest⟩ := Prod.mk.inj hpair
  obtain ⟨hok, hfree⟩ := Prod.mk.inj hrest
  obtain rfl := List.zip_of_prod (serveAll_requests hall) hresponses
  have hcut : Served ManifestPuts.blankServer [] [] ([(pushApp, pushAppCreated)] ++
      [(fetchApp, storedAnswer ManifestPuts.blankServer layerDigest layer true)] ++ [] ++
      [(fetchAppAgain, notModifiedApp)]) w := Served.serveAll hall
  have hreply : ∀ req : Request, req.upstream = noReplies → Sincere ManifestPuts.blankServer req := by
    intro req hreq m hm
    rw [hreq] at hm
    cases hm
  have hsplit : split fetchApp.rest = ((⟨"app".toList, by decide⟩ : PlainName).val, .manifest "v1".toList) := by
    decide +kernel
  obtain ⟨w₁, plain, -, hexchange, hcurrent, -⟩ := revalidation_is_exact hcut (plain_serveAll hall (by decide))
    hok (of_decide_eq_true hfree) hsplit rfl (hreply fetchApp rfl) rfl rfl hsplit rfl (hreply fetchAppAgain rfl)
    rfl (by decide +kernel)
  exact ⟨w, w₁, plain, hexchange, hcurrent.mp rfl⟩

end Quill.Registry
