import Quill.Registry.Response

/-!
# The client of an upstream

`get_manifest` and `resolve_tag` of `HttpUpstream` in `quill-upstream`, from the final reply
of the upstream to what the registry sees. The digest of a manifest is taken from the
`Docker-Content-Digest` header when there is one, and is computed from the body only
when there is none; nothing compares the two.
-/

namespace Quill.Upstream

open Text Registry

/-- The errors of the client. -/
inductive UpstreamError where
  | transport
  | status (code : Nat)
  | missingDigest
  | invalidDigest (text : Str)
  | invalidUrl (text : Str)
  deriving DecidableEq

/-- The final reply to a request; `body` is `none` when reading it fails. -/
structure HttpReply where
  status : Nat
  contentType : Option Bytes
  dockerContentDigest : Option Bytes
  body : Option Bytes

/-- `HeaderValue::to_str`: visible ASCII and tabs only. -/
def toStr (value : Bytes) : Option Str :=
  if value.all fun b => (32 ≤ b.toNat && b.toNat < 127) || b.toNat = 9 then
    some (value.map fun b => Char.ofNat b.toNat)
  else none

/-- `StatusCode::is_success`. -/
def HttpReply.isSuccess (r : HttpReply) : Bool := 200 ≤ r.status && r.status < 300

/-- The text of the digest header. -/
def HttpReply.digestText (r : HttpReply) : Option Str := r.dockerContentDigest.bind toStr

variable (S : Setup)

/-- `HttpUpstream::get_manifest`; `none` is a reply that never came. -/
def getManifest (reply : Option HttpReply) : Except UpstreamError ManifestResponse :=
  match reply with
  | none => .error .transport
  | some r =>
    if r.isSuccess = false then .error (.status r.status)
    else
      let contentType := (r.contentType.bind toStr).getD
        "application/vnd.oci.image.manifest.v1+json".toList
      match r.body with
      | none => .error .transport
      | some bytes =>
        match r.digestText with
        | none => .ok ⟨bytes, contentType, S.digest bytes⟩
        | some text =>
          match Digest.parse text with
          | .ok d => .ok ⟨bytes, contentType, d⟩
          | .error _ => .error (.invalidDigest text)

/-- `HttpUpstream::resolve_tag`. -/
def resolveTag (reply : Option HttpReply) : Except UpstreamError Digest :=
  match reply with
  | none => .error .transport
  | some r =>
    if r.isSuccess = false then .error (.status r.status)
    else
      match r.digestText with
      | none => .error .missingDigest
      | some text =>
        match Digest.parse text with
        | .ok d => .ok d
        | .error _ => .error (.invalidDigest text)

/-- The client turns the reply into a manifest: it is a success, its body can be read and its
digest header is absent or a digest. -/
def HttpReply.Usable (r : HttpReply) : Prop :=
  r.isSuccess = true ∧ r.body.isSome = true ∧
    ∀ text ∈ r.digestText, (Digest.parse text).isOk = true

instance (r : HttpReply) : Decidable r.Usable := inferInstanceAs (Decidable (_ ∧ _ ∧ _))

variable {S}

/-- A manifest that the client returns has the body of the reply, a visible content type, and
the digest of the header or, without a header, of the body. -/
theorem getManifest_eq_ok {reply : Option HttpReply} {m : ManifestResponse}
    (h : getManifest S reply = .ok m) :
    ∃ r, reply = some r ∧ r.Usable ∧ r.body = some m.bytes ∧
      (∀ text, r.digestText = some text → Digest.parse text = .ok m.digest) ∧
      (r.digestText = none → m.digest = S.digest m.bytes) ∧
      m.contentType = (r.contentType.bind toStr).getD
        "application/vnd.oci.image.manifest.v1+json".toList := by
  cases reply with
  | none => cases h
  | some r =>
    unfold getManifest at h
    cases hs : r.isSuccess with
    | false => simp [hs] at h
    | true =>
      cases hb : r.body with
      | none => simp [hs, hb] at h
      | some bytes =>
        cases ht : r.digestText with
        | none =>
          simp only [hs, hb, ht, Bool.true_eq_false, if_false, Except.ok.injEq] at h
          subst h
          exact ⟨r, rfl, ⟨hs, by simp [hb], by simp [ht]⟩, hb, by simp [ht], fun _ => rfl, rfl⟩
        | some text =>
          simp only [hs, hb, ht, Bool.true_eq_false, if_false] at h
          cases hd : Digest.parse text with
          | error e => simp [hd] at h
          | ok d =>
            simp only [hd, Except.ok.injEq] at h
            subst h
            refine ⟨r, rfl, ⟨hs, by simp [hb], ?_⟩, hb, ?_, fun hnone => ?_, rfl⟩
            · intro t ht'
              cases ht.symm.trans ht'
              rw [hd]
              rfl
            · intro t ht'
              cases ht.symm.trans ht'
              exact hd
            · rw [ht] at hnone
              cases hnone

theorem HttpReply.Usable.exists_manifest {r : HttpReply} (h : r.Usable) :
    ∃ m, getManifest S (some r) = .ok m := by
  obtain ⟨hs, hb, ht⟩ := h
  obtain ⟨bytes, hbytes⟩ := Option.isSome_iff_exists.mp hb
  unfold getManifest
  simp only [hs, hbytes, Bool.true_eq_false, if_false]
  cases htext : r.digestText with
  | none => exact ⟨_, rfl⟩
  | some text =>
    have hok := ht text htext
    simp only
    cases hd : Digest.parse text with
    | error e => simp [hd, Except.isOk, Except.toBool] at hok
    | ok d => exact ⟨_, rfl⟩

/-- A visible header value can be sent again. -/
theorem legalHeaderValue_toStr_value {value : Bytes} {text : Str} (h : toStr value = some text) :
    legalHeaderValue text = true := by
  unfold toStr at h
  split at h
  · rename_i hall
    cases h
    refine List.all_eq_true.mpr fun c hc => ?_
    obtain ⟨b, hb, rfl⟩ := List.mem_map.mp hc
    have hvisible := List.all_eq_true.mp hall b hb
    have hAll : ∀ n : Fin 256, ((32 ≤ n.val && n.val < 127) || n.val = 9) = true →
        (Char.ofNat n.val = '\t' || (32 ≤ (Char.ofNat n.val).toNat &&
          (Char.ofNat n.val).toNat ≠ 127)) = true := by decide +kernel
    exact hAll ⟨b.toNat, b.toNat_lt⟩ hvisible
  · cases h

theorem legalHeaderValue_contentType {reply : Option HttpReply} {m : ManifestResponse}
    (h : getManifest S reply = .ok m) : legalHeaderValue m.contentType = true := by
  obtain ⟨r, -, -, -, -, -, hct⟩ := getManifest_eq_ok h
  rw [hct]
  cases hv : r.contentType.bind toStr with
  | none => decide
  | some text =>
    obtain ⟨value, -, hvalue⟩ := Option.bind_eq_some_iff.mp hv
    exact legalHeaderValue_toStr_value hvalue

end Quill.Upstream
