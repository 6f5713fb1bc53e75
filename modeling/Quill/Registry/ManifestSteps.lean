import Quill.Base.Runs
import Quill.Registry.Changes
import Quill.Storage.Codec

/-!
# Manifest requests on one repository, step by step

Any number of `PUT` and `DELETE` requests for manifests of one repository take turns. A
`PUT` checks the manifest, persists its blob and then sets the tag; a `DELETE` of a digest
lists the tags that point to it, removes each of them and then deletes the blob. No lock spans
these sequences. The steps are the operations of the handlers themselves, and a
request that runs alone does what its handler does (`putManifest_alone`,
`deleteManifest_alone`).

A tag that is set after the listing, or a blob that is deleted between its `PUT` and the
setting of its tag, leaves a tag without a manifest (`late_tag_dangles`). Where neither
happens (`Orderly`), no tag ever dangles (`tags_never_dangle`).
-/

namespace Quill.Registry.ManifestSteps

open Text Files Cas World LocalStorage LocalTags

/-! ## The steps -/

/-- The requests that put or delete a manifest. -/
inductive Call where
  | put (reference : Str) (body : Option Bytes)
  | delete (reference : Str)

/-- The next step of a request. A `DELETE` of a digest that has listed its tags still has to remove
those of the list and then the blob. -/
inductive Phase where
  | prepare (reference : Str) (body : Option Bytes)
  | check (reference : Str) (b : Bytes)
  | persist (reference : Str) (b : Bytes)
  | setTag (tag : Str) (d : Digest)
  | removeTag (tag : Str)
  | list (d : Digest)
  | clear (d : Digest) (tags : List Str)
  | returned
  deriving DecidableEq

/-- The first step of a request. -/
def Call.start : Call → Phase
  | .put reference body => .prepare reference body
  | .delete reference =>
    match Digest.parse reference with
    | .error _ => .removeTag reference
    | .ok d => .list d

section Steps

variable {S : Setup} (repo : Str)

/-- What a `PUT` does once its repository is there: the body is read and compared with the
reference. -/
def afterEnsure (S : Setup) (reference : Str) (body : Option Bytes) : Phase :=
  match collectBody body 33554432 with
  | .error _ => .returned
  | .ok b =>
    match (Digest.parse reference).toOption.filter (· ≠ S.digest b) with
    | some _ => .returned
    | none => .check reference b

/-- What a `PUT` does once its blob is there: a tag is set, a digest is not. -/
def afterPersist (S : Setup) (reference : Str) (b : Bytes) : Phase :=
  match Digest.parse reference with
  | .ok _ => .returned
  | .error _ => .setTag reference (S.digest b)

/-- One step of a request. -/
def advance (w : World S) : Phase → Option (World S × Phase)
  | .prepare reference body =>
    let r := (ensureRepo repo).exec w
    some (r.2, match r.1 with
      | .error _ => .returned
      | .ok _ => afterEnsure S reference body)
  | .check reference b =>
    let r := (checkManifestBlobsPresent repo b : Prog (World S) Abort _).exec w
    some (r.2, match r.1 with
      | .ok none => .persist reference b
      | _ => .returned)
  | .persist reference b =>
    let r := (putBlobBuffered repo (S.digest b) b).exec w
    some (r.2, match r.1 with
      | .error _ => .returned
      | .ok _ => afterPersist S reference b)
  | .setTag tag d => some (((LocalTags.set repo tag d).exec w).2, .returned)
  | .removeTag tag => some (((LocalTags.remove repo tag).exec w).2, .returned)
  | .list d => some (w, .clear d (tagsOf w.localTags repo d))
  | .clear d (tag :: tags) => some (((LocalTags.remove repo tag).exec w).2, .clear d tags)
  | .clear d [] => some (((deleteBlob repo d).exec w).2, .returned)
  | .returned => none

/-- A request comes, or takes its next step. -/
inductive Act where
  | call (c : Call)
  | turn (i : Nat)

/-- One step of the server. -/
def step (s : Pool (World S) Phase) : Act → Option (Pool (World S) Phase)
  | .call c => some (s.spawn c.start)
  | .turn i => s.turn (advance repo) i

end Steps

/-! ## A request alone -/

section Alone

variable {S : Setup} {repo : Str} {w w' : World S}

theorem alone_returned (n : Nat) (w : World S) :
    Pool.alone (advance repo) n w .returned = w := Pool.alone_done rfl n

theorem storeManifest_alone (repo reference : Str) (contentType : Option Str) (b : Bytes)
    (w : World S) : ((storeManifest repo reference contentType b : Handler S).exec w).2 =
      Pool.alone (advance repo) 2 w (.persist reference b) := by
  have hbuild : ∀ (status : Status) (headers : List (HeaderName × Str)) (body : Body) (w : World S),
      ((build status headers body : Handler S).exec w).2 = w := by
    intro status headers body w
    unfold build
    split
    · rfl
    · rfl
  cases hput : (putBlobBuffered repo (S.digest b) b).exec w with
  | mk r w₁ =>
    have hrest : (storeManifest repo reference contentType b : Handler S).exec w = _ :=
      Prog.exec_bind_ok (Prog.exec_attempt_eq.mpr hput)
    rw [hrest]
    cases r with
    | error e =>
      have hstep : advance repo w (.persist reference b) = some (w₁, .returned) := by
        simp only [advance, hput]
      rw [Pool.alone_succ hstep, alone_returned]
      rfl
    | ok m =>
      have hstep : advance repo w (.persist reference b) = some (w₁, afterPersist S reference b) := by
        simp only [advance, hput]
      rw [Pool.alone_succ hstep, afterPersist]
      simp only
      cases Digest.parse reference with
      | ok d =>
        simp only [hbuild]
        exact (alone_returned 1 w₁).symm
      | error e =>
        have hset : Pool.alone (advance repo) 1 w₁ (.setTag reference (S.digest b)) =
            ((LocalTags.set repo reference (S.digest b)).exec w₁).2 := rfl
        simp only [hset]
        cases hrun : (LocalTags.set repo reference (S.digest b)).exec w₁ with
        | mk r w₂ =>
          rw [Prog.exec_bind_ok (Prog.exec_attempt_eq.mpr hrun)]
          cases r with
          | error e => rfl
          | ok u => exact hbuild _ _ _ w₂

/-- A `PUT` that runs alone leaves what `put_manifest` leaves. -/
theorem putManifest_alone (repo reference : Str) (contentType : Option Str) (body : Option Bytes)
    (w : World S) : ((putManifest repo reference contentType body : Handler S).exec w).2 =
      Pool.alone (advance repo) 4 w (Call.put reference body).start := by
  show _ = Pool.alone (advance repo) 4 w (.prepare reference body)
  cases hensure : (ensureRepo repo).exec w with
  | mk r w₁ =>
    have hrest : (putManifest repo reference contentType body : Handler S).exec w = _ :=
      Prog.exec_bind_ok (Prog.exec_attempt_eq.mpr hensure)
    rw [hrest]
    cases r with
    | error e =>
      have hstep : advance repo w (.prepare reference body) = some (w₁, .returned) := by
        simp only [advance, hensure]
      rw [Pool.alone_succ hstep, alone_returned]
      rfl
    | ok u =>
      have hstep : advance repo w (.prepare reference body) =
          some (w₁, afterEnsure S reference body) := by simp only [advance, hensure]
      rw [Pool.alone_succ hstep, afterEnsure]
      simp only
      cases collectBody body 33554432 with
      | error resp => exact (alone_returned 3 w₁).symm
      | ok b =>
        simp only
        cases (Digest.parse reference).toOption.filter (· ≠ S.digest b) with
        | some other => exact (alone_returned 3 w₁).symm
        | none =>
          simp only
          cases hcheck : (checkManifestBlobsPresent repo b : Prog (World S) Abort _).exec w₁ with
          | mk r w₂ =>
            rcases r with e | _ | missing
            · have hstep : advance repo w₁ (.check reference b) = some (w₂, .returned) := by
                simp only [advance, hcheck]
              rw [Pool.alone_succ hstep, alone_returned, Prog.exec_bind_error hcheck]
            · have hstep : advance repo w₁ (.check reference b) = some (w₂, .persist reference b) := by
                simp only [advance, hcheck]
              rw [Pool.alone_succ hstep, Prog.exec_bind_ok hcheck]
              exact storeManifest_alone repo reference contentType b w₂
            · have hstep : advance repo w₁ (.check reference b) = some (w₂, .returned) := by
                simp only [advance, hcheck]
              rw [Pool.alone_succ hstep, alone_returned, Prog.exec_bind_ok hcheck]
              rfl

theorem removeTags_alone (repo : Str) (d : Digest) (tags : List Str) (n : Nat) (w : World S) :
    Pool.alone (advance repo) (tags.length + n) w (.clear d tags) =
      Pool.alone (advance repo) n ((removeTags repo tags).exec w).2 (.clear d []) := by
  induction tags generalizing w with
  | nil =>
    rw [List.length_nil, Nat.zero_add]
    rfl
  | cons tag tags ih =>
    have hlen : (tag :: tags).length + n = tags.length + n + 1 := by
      rw [List.length_cons]
      omega
    have hstep : advance repo w (.clear d (tag :: tags)) =
        some (((LocalTags.remove repo tag).exec w).2, .clear d tags) := rfl
    rw [hlen, Pool.alone_succ hstep, ih]
    rfl

theorem removeTags_ok (repo : Str) (tags : List Str) (w : World S) :
    (removeTags repo tags).exec w = (.ok (), ((removeTags repo tags).exec w).2) := by
  induction tags generalizing w with
  | nil => rfl
  | cons tag tags ih => exact ih _

/-- A `DELETE` that runs alone leaves what `delete_manifest` leaves. -/
theorem deleteManifest_alone (repo reference : Str) (w : World S) :
    ∃ n, ((deleteManifest repo reference : Handler S).exec w).2 =
      Pool.alone (advance repo) n w (Call.delete reference).start := by
  cases hparse : Digest.parse reference with
  | error e =>
    refine ⟨1, ?_⟩
    have hstart : (Call.delete reference).start = .removeTag reference := by
      simp only [Call.start, hparse]
    have hrun : Pool.alone (advance repo) 1 w (.removeTag reference) = ((LocalTags.remove repo reference).exec w).2 :=
      rfl
    rw [hstart, hrun]
    unfold deleteManifest
    simp only [hparse]
    rw [Prog.exec_bind_ok (Prog.exec_attempt _ _)]
    rcases ((LocalTags.remove repo reference).exec w).1 with e | _ | _
    · rfl
    · rfl
    · rfl
  | ok d =>
    refine ⟨(tagsOf w.localTags repo d).length + 1 + 1, ?_⟩
    have hstart : (Call.delete reference).start = .list d := by simp only [Call.start, hparse]
    have hlist : advance repo w (.list d) = some (w, .clear d (tagsOf w.localTags repo d)) := rfl
    rw [hstart, Pool.alone_succ hlist, removeTags_alone]
    unfold deleteManifest
    simp only [hparse]
    rw [Prog.exec_bind_ok (Prog.exec_get w)]
    have hremove := removeTags_ok repo (tagsOf w.localTags repo d) w
    rw [tagsOf] at hremove ⊢
    rw [Prog.exec_bind_ok hremove, Prog.exec_bind_ok (Prog.exec_attempt _ _)]
    generalize ((removeTags repo _).exec w).2 = w₁
    show _ = ((deleteBlob repo d).exec w₁).2
    rcases ((deleteBlob repo d).exec w₁).1 with (_ | _ | _) | _
    · rfl
    · rfl
    · rfl
    · rfl

end Alone

/-! ## What a step does -/

section Changes

variable {S : Setup} {repo : Str} {w w' : World S}

/-- A step of a request, none of whose operations on files failed. -/
inductive Stepped (S : Setup) (repo : Str) (w w' : World S) : Phase → Phase → Prop
  | looked {p p' : Phase} (hkeep : Keeps ∅ w w') (htags : w'.localTags = w.localTags)
      (hset : ∀ tag d, p' ≠ .setTag tag d) (hclear : ∀ d tags, p' ≠ .clear d tags) :
      Stepped S repo w w' p p'
  | persisted {reference : Str} {b : Bytes} (hkeep : Keeps ∅ w w')
      (htags : w'.localTags = w.localTags)
      (hfile : w'.fs.isFile (blobPath S.root repo (S.digest b)) = true) :
      Stepped S repo w w' (.persist reference b) (.setTag reference (S.digest b))
  | tagged {tag : Str} {d : Digest} {pushedAt : Nat}
      (hkeep : Keeps {localTagsPath S.root repo} w w')
      (htags : w'.localTags = w.localTags.insert (repo, tag) ⟨d.toStr, pushedAt⟩) :
      Stepped S repo w w' (.setTag tag d) .returned
  | untagged {tag : Str} (h : Untagged S repo [tag] w w') :
      Stepped S repo w w' (.removeTag tag) .returned
  | listed {d : Digest} (h : w' = w) :
      Stepped S repo w w' (.list d) (.clear d (tagsOf w.localTags repo d))
  | cleared {d : Digest} {tag : Str} {tags : List Str} (h : Untagged S repo [tag] w w') :
      Stepped S repo w w' (.clear d (tag :: tags)) (.clear d tags)
  | deleted {d : Digest} (htags : w'.localTags = w.localTags)
      (hkeep : Keeps {blobPath S.root repo d} w w') :
      Stepped S repo w w' (.clear d []) .returned

theorem afterEnsure_cases (S : Setup) (reference : Str) (body : Option Bytes) :
    afterEnsure S reference body = .returned ∨ ∃ b, afterEnsure S reference body = .check reference b := by
  unfold afterEnsure
  split
  · exact Or.inl rfl
  · split
    · exact Or.inl rfl
    · exact Or.inr ⟨_, rfl⟩

/-- Every step changes the world by effects on the repository. -/
theorem advance_along {p p' : Phase} (h : advance repo w p = some (w', p')) :
    (Along S repo Set.univ).rel w w' := by
  cases p with
  | prepare reference body =>
    cases h
    exact ensureRepo_along (Set.mem_univ _) repo w
  | check reference b =>
    cases h
    exact checkManifestBlobsPresent_along (Set.subset_univ _) b w
  | persist reference b =>
    cases h
    exact putBlobBuffered_along (Set.mem_univ _) (Set.mem_univ _) (Set.mem_univ _) _ b w
  | setTag tag d =>
    cases h
    exact setTag_along (Set.mem_univ _) (Set.mem_univ _) tag d w
  | removeTag tag =>
    cases h
    exact removeTag_along (Set.mem_univ _) tag w
  | list d =>
    cases h
    exact (Along S repo Set.univ).refl w
  | clear d tags =>
    cases tags with
    | nil =>
      cases h
      exact deleteBlob_along (Set.mem_univ _) (Set.mem_univ _) d w
    | cons tag tags =>
      cases h
      exact removeTag_along (Set.mem_univ _) tag w
  | returned => cases h

theorem stepped_of_advance (hdata : DataNamed w) {p p' : Phase}
    (h : advance repo w p = some (w', p')) (hfailed : w'.log.ioFailed = false) :
    Stepped S repo w w' p p' := by
  have hlooked : ∀ {w₁ : World S} {p₁ : Phase}, (Along S repo pullKinds).rel w w₁ →
      (∀ tag d, p₁ ≠ .setTag tag d) → (∀ d tags, p₁ ≠ .clear d tags) → Stepped S repo w w₁ p p₁ := by
    intro w₁ p₁ halong hset hclear
    obtain ⟨-, hkeep, htags⟩ := quiet_keeps pullKinds_quiet halong hdata
    exact .looked hkeep htags hset hclear
  cases p with
  | prepare reference body =>
    cases h
    refine hlooked (ensureRepo_along (Or.inl rfl) repo w) ?_ ?_
    · intro tag d
      split
      · exact nofun
      · rcases afterEnsure_cases S reference body with he | ⟨b, he⟩ <;> rw [he] <;> exact nofun
    · intro d tags
      split
      · exact nofun
      · rcases afterEnsure_cases S reference body with he | ⟨b, he⟩ <;> rw [he] <;> exact nofun
  | check reference b =>
    cases h
    refine hlooked (checkManifestBlobsPresent_along (fun _ hk => hk) b w) ?_ ?_
    · intro tag d
      split <;> exact nofun
    · intro d tags
      split <;> exact nofun
  | persist reference b =>
    cases h
    have halong : (Along S repo pullKinds).rel w ((putBlobBuffered repo (S.digest b) b).exec w).2 :=
      putBlobBuffered_along (Or.inl rfl) (Or.inr (Or.inl rfl)) (Or.inr (Or.inr rfl)) (S.digest b) b w
    cases hput : (putBlobBuffered repo (S.digest b) b).exec w with
    | mk r w₁ =>
      rw [hput] at halong
      cases r with
      | error e => exact hlooked halong (fun _ _ => nofun) fun _ _ => nofun
      | ok m =>
        simp only [afterPersist]
        split
        · exact hlooked halong (fun _ _ => nofun) fun _ _ => nofun
        · obtain ⟨-, hkeep, htags⟩ := quiet_keeps pullKinds_quiet halong hdata
          refine .persisted hkeep htags ?_
          simp [Fs.isFile, (exec_putBlobBuffered_ok hput).1]
  | setTag tag d =>
    cases h
    obtain ⟨r, pushedAt, w₁, w₂, he, -, -, -, hok⟩ := exec_setTag w repo tag d
    rw [he] at hfailed ⊢
    have hrun : r = .ok () := hok.resolve_right (by rw [hfailed]; decide)
    obtain ⟨hkeep, ⟨pushedAt', htags⟩, -⟩ := exec_setTag_keeps (hrun ▸ he)
    exact .tagged hkeep htags
  | removeTag tag =>
    cases h
    exact .untagged (exec_remove_untagged rfl (Or.inl hfailed)).1
  | list d =>
    cases h
    exact .listed rfl
  | clear d tags =>
    cases tags with
    | nil =>
      cases h
      have hrun : (deleteBlob repo d).exec w = (_, _) := rfl
      obtain ⟨htags, hkeep, -⟩ := exec_deleteBlob_keeps hrun
      exact .deleted htags hkeep
    | cons tag tags =>
      cases h
      exact .cleared (exec_remove_untagged rfl (Or.inl hfailed)).1
  | returned => cases h

end Changes

/-! ## Tags have their manifests -/

section Tags

variable {S : Setup} (repo : Str)

/-- Every local tag of the repository points to a digest whose file is in the store. -/
def NoDangling (w : World S) : Prop :=
  ∀ tag m, w.localTags.lookup (repo, tag) = some m →
    ∃ d : Digest, m.digest = d.toStr ∧ w.fs.isFile (blobPath S.root repo d) = true

/-- The step sets a tag to the digest. -/
def Phase.sets (d : Digest) : Phase → Prop
  | .setTag _ e => e = d
  | _ => False

/-- A `DELETE` of the digest that has listed its tags will still remove this one. -/
def Phase.removes (tag : Str) (d : Digest) : Phase → Prop
  | .clear e tags => e = d → tag ∈ tags
  | _ => True

/-- A tag is set to a digest only when every `DELETE` of the digest that has listed its tags will
still remove it; a `DELETE` removes a blob only when no `PUT` is about to set a tag to it. -/
def Orderly (s : Pool (World S) Phase) : Act → Prop
  | .call _ => True
  | .turn i =>
    match s.tasks[i]? with
    | some (.setTag tag d) => ∀ p ∈ s.tasks, p.removes tag d
    | some (.clear d []) => ∀ p ∈ s.tasks, ¬ p.sets d
    | _ => True

/-- The invariant: every tag has its blob, also those that are about to be set, and a deletion of a
blob knows every tag of it. -/
structure Held (s : Pool (World S) Phase) : Prop where
  data : DataNamed s.memory
  tags : NoDangling repo s.memory
  pending : ∀ tag d, .setTag tag d ∈ s.tasks → s.memory.fs.isFile (blobPath S.root repo d) = true
  listed : ∀ d tags, .clear d tags ∈ s.tasks → ∀ tag m,
    s.memory.localTags.lookup (repo, tag) = some m → m.digest = d.toStr → tag ∈ tags

variable {repo}

theorem NoDangling.keeps {except : Set Path} {w w' : World S} (h : NoDangling repo w)
    (hkeep : Keeps except w w') (htags : w'.localTags = w.localTags)
    (hexcept : ∀ tag m d, w.localTags.lookup (repo, tag) = some m → m.digest = d.toStr →
      blobPath S.root repo d ∉ except) : NoDangling repo w' := by
  intro tag m hm
  rw [htags] at hm
  obtain ⟨d, hd, hfile⟩ := h tag m hm
  exact ⟨d, hd, hkeep.blobs _ (isBlobName_blobPath _ _ _) (hexcept tag m d hm hd) hfile⟩

theorem held_call {s : Pool (World S) Phase} (h : Held repo s) (c : Call) :
    Held repo (s.spawn c.start) := by
  have hmem : ∀ p, p ∈ (s.spawn c.start).tasks → p ∈ s.tasks ∨ p = c.start := by
    intro p hp
    rcases List.mem_append.mp hp with hp | hp
    · exact Or.inl hp
    · exact Or.inr (List.mem_singleton.mp hp)
  have hstart : (∀ tag d, Phase.setTag tag d ≠ c.start) ∧ ∀ d tags, Phase.clear d tags ≠ c.start := by
    cases c with
    | put reference body => exact ⟨fun _ _ => nofun, fun _ _ => nofun⟩
    | delete reference =>
      unfold Call.start
      simp only
      split
      · exact ⟨fun _ _ => nofun, fun _ _ => nofun⟩
      · exact ⟨fun _ _ => nofun, fun _ _ => nofun⟩
  refine ⟨h.data, h.tags, fun tag d hp => ?_, fun d tags hp => ?_⟩
  · exact h.pending tag d ((hmem _ hp).resolve_right (hstart.1 tag d))
  · exact h.listed d tags ((hmem _ hp).resolve_right (hstart.2 d tags))

section Step

variable {w w' : World S} {tasks tasks' : List Phase} {p' : Phase} (h : Held repo ⟨w, tasks⟩)
  (hdata : DataNamed w') (hmem : ∀ q ∈ tasks', q = p' ∨ q ∈ tasks)

include h hdata hmem

/-- A step that keeps all blobs and tags: the blob that it leads to is there. -/
theorem held_looked (hkeep : Keeps ∅ w w') (htags : w'.localTags = w.localTags)
    (hset : ∀ tag d, p' = .setTag tag d → w'.fs.isFile (blobPath S.root repo d) = true)
    (hclear : ∀ d tags, p' ≠ .clear d tags) : Held repo ⟨w', tasks'⟩ := by
  refine ⟨hdata, h.tags.keeps hkeep htags (fun _ _ _ _ _ => Set.notMem_empty _), fun tag d hq => ?_,
    fun d tags hq tag m hm => ?_⟩
  · rcases hmem _ hq with he | hq
    · exact hset tag d he.symm
    · exact hkeep.blobs _ (isBlobName_blobPath _ _ _) (Set.notMem_empty _) (h.pending tag d hq)
  · rcases hmem _ hq with he | hq
    · exact absurd he.symm (hclear d tags)
    · exact h.listed d tags hq tag m (htags ▸ hm)

theorem held_tagged {tag : Str} {d : Digest} {pushedAt : Nat} (hp' : p' = .returned)
    (hself : .setTag tag d ∈ tasks) (hset : ∀ q ∈ tasks, q.removes tag d)
    (hkeep : Keeps {localTagsPath S.root repo} w w')
    (htags : w'.localTags = w.localTags.insert (repo, tag) ⟨d.toStr, pushedAt⟩) :
    Held repo ⟨w', tasks'⟩ := by
  subst hp'
  have hstay : ∀ e : Digest, w.fs.isFile (blobPath S.root repo e) = true →
      w'.fs.isFile (blobPath S.root repo e) = true := fun e =>
    hkeep.blobs _ (isBlobName_blobPath _ _ _) (blobPath_ne_localTagsPath _ _ _ _)
  have hlook : ∀ t m, w'.localTags.lookup (repo, t) = some m →
      (t = tag ∧ m.digest = d.toStr) ∨ w.localTags.lookup (repo, t) = some m := by
    intro t m hm
    rw [htags] at hm
    by_cases hkey : t = tag
    · rw [hkey, AList.lookup_insert] at hm
      cases hm
      exact Or.inl ⟨hkey, rfl⟩
    · rw [AList.lookup_insert_ne fun he => hkey (Prod.mk.inj he).2] at hm
      exact Or.inr hm
  refine ⟨hdata, fun t m hm => ?_, fun t e hq => ?_, fun e tags hq t m hm hd => ?_⟩
  · rcases hlook t m hm with ⟨-, hd⟩ | hm
    · exact ⟨d, hd, hstay d (h.pending tag d hself)⟩
    · obtain ⟨e, he, hf⟩ := h.tags t m hm
      exact ⟨e, he, hstay e hf⟩
  · rcases hmem _ hq with he | hq
    · cases he
    · exact hstay e (h.pending t e hq)
  · rcases hmem _ hq with he | hq
    · cases he
    · rcases hlook t m hm with ⟨rfl, hd'⟩ | hm
      · exact hset _ hq (Digest.toStr_injective (hd.symm.trans hd'))
      · exact h.listed e tags hq t m hm hd

/-- A removed tag is no longer one that the request that removes it has to remove. -/
theorem held_untagged {tag : Str} (hun : Untagged S repo [tag] w w')
    (hset : ∀ tag d, p' ≠ .setTag tag d)
    (hclear : ∀ d tags, p' = .clear d tags → .clear d (tag :: tags) ∈ tasks) :
    Held repo ⟨w', tasks'⟩ := by
  have hstay : ∀ e : Digest, w.fs.isFile (blobPath S.root repo e) = true →
      w'.fs.isFile (blobPath S.root repo e) = true := fun e =>
    hun.keeps.blobs _ (isBlobName_blobPath _ _ _) (blobPath_ne_localTagsPath _ _ _ _)
  have hlook : ∀ t m, w'.localTags.lookup (repo, t) = some m →
      t ≠ tag ∧ w.localTags.lookup (repo, t) = some m := by
    intro t m hm
    rw [hun.lookup] at hm
    split at hm
    · cases hm
    · rename_i hne
      exact ⟨fun he => hne ⟨rfl, List.mem_singleton.mpr he⟩, hm⟩
  refine ⟨hdata, fun t m hm => ?_, fun t e hq => ?_, fun e tags hq t m hm hd => ?_⟩
  · obtain ⟨e, he, hf⟩ := h.tags t m (hlook t m hm).2
    exact ⟨e, he, hstay e hf⟩
  · rcases hmem _ hq with he | hq
    · exact absurd he.symm (hset t e)
    · exact hstay e (h.pending t e hq)
  · obtain ⟨hne, hold⟩ := hlook t m hm
    rcases hmem _ hq with he | hq
    · exact (List.mem_cons.mp (h.listed e (tag :: tags) (hclear e tags he.symm) t m hold hd)).resolve_left
        hne
    · exact h.listed e tags hq t m hold hd

/-- The blob of a digest is deleted once no tag points to it and none is about to. -/
theorem held_deleted {d : Digest} (hp' : p' = .returned) (hself : .clear d [] ∈ tasks)
    (hset : ∀ q ∈ tasks, ¬ q.sets d) (htags : w'.localTags = w.localTags)
    (hkeep : Keeps {blobPath S.root repo d} w w') : Held repo ⟨w', tasks'⟩ := by
  subst hp'
  have hother : ∀ e : Digest, e ≠ d → blobPath S.root repo e ∉ ({blobPath S.root repo d} : Set Path) :=
    fun e hne he => hne (blobPath_injective (Set.mem_singleton_iff.mp he))
  refine ⟨hdata, h.tags.keeps hkeep htags fun tag m e hm he => hother e ?_, fun tag e hq => ?_,
    fun e tags hq tag m hm => ?_⟩
  · rintro rfl
    exact absurd (h.listed e [] hself tag m hm he) List.not_mem_nil
  · rcases hmem _ hq with he | hq
    · cases he
    · exact hkeep.blobs _ (isBlobName_blobPath _ _ _) (hother e fun he => hset _ hq he)
        (h.pending tag e hq)
  · rcases hmem _ hq with he | hq
    · cases he
    · exact h.listed e tags hq tag m (htags ▸ hm)

end Step

/-- A turn of one request among the others. -/
theorem held_turn {s t : Pool (World S) Phase} {i : Nat} (h : Held repo s)
    (horderly : Orderly s (.turn i)) (hturn : s.turn (advance repo) i = some t)
    (hfailed : t.memory.log.ioFailed = false) : Held repo t := by
  obtain ⟨before, p, after, w', p', hget, htasks, hadv, rfl⟩ := Pool.turn_cases hturn
  obtain ⟨w, tasks⟩ := s
  simp only at htasks hadv hget
  have hdata : DataNamed w' := h.data.along (advance_along hadv)
  have hmem : ∀ q ∈ before ++ p' :: after, q = p' ∨ q ∈ tasks := by
    intro q hq
    rw [htasks]
    exact (Pool.mem_replace hq).imp_right And.right
  have hself : p ∈ tasks := by
    rw [htasks]
    simp
  simp only [Orderly, hget] at horderly
  cases stepped_of_advance h.data hadv hfailed with
  | looked hkeep htags hset hclear =>
    exact held_looked h hdata hmem hkeep htags (fun tag d he => absurd he (hset tag d)) hclear
  | persisted hkeep htags hfile =>
    refine held_looked h hdata hmem hkeep htags (fun tag d he => ?_) fun _ _ => nofun
    cases he
    exact hfile
  | tagged hkeep htags => exact held_tagged h hdata hmem rfl hself horderly hkeep htags
  | untagged hun => exact held_untagged h hdata hmem hun (fun _ _ => nofun) fun _ _ => nofun
  | listed he =>
    subst he
    refine ⟨h.data, h.tags, fun tag d hq => ?_, fun d tags hq tag m hm hd => ?_⟩
    · exact h.pending tag d ((hmem _ hq).resolve_left nofun)
    · rcases hmem _ hq with he | hq
      · cases he
        exact mem_tagsOf.mpr ⟨m, hm, hd⟩
      · exact h.listed d tags hq tag m hm hd
  | cleared hun =>
    refine held_untagged h hdata hmem hun (fun _ _ => nofun) fun d tags he => ?_
    cases he
    exact hself
  | deleted htags hkeep => exact held_deleted h hdata hmem rfl hself horderly htags hkeep

theorem held_step {s t : Pool (World S) Phase} {act : Act}
    (h : s.memory.log.ioFailed = false → Held repo s) (horderly : Orderly s act)
    (hstep : step repo s act = some t) (hfailed : t.memory.log.ioFailed = false) : Held repo t := by
  cases act with
  | call c =>
    cases hstep
    exact held_call (h hfailed) c
  | turn i =>
    refine held_turn (h ?_) horderly hstep hfailed
    obtain ⟨before, p, after, w', p', -, -, hadv, rfl⟩ := Pool.turn_cases hstep
    refine Bool.eq_false_iff.mpr fun hf => ?_
    have hstill := Evolution.star_keep (I := fun v : World S => v.log.ioFailed = true)
      (fun _ _ ⟨_, _, heff⟩ hv => heff.failed hv) (advance_along hadv) hf
    rw [hfailed] at hstill
    cases hstill

/-- In every run of `PUT` and `DELETE` requests for manifests of a repository that is orderly and
meets no file-system failure, every local tag points to a manifest that is there. -/
theorem tags_never_dangle (S : Setup) (repo : Str) (w : World S) (hdata : DataNamed w)
    (htags : NoDangling repo w) (s : Pool (World S) Phase)
    (hrun : (runs (step repo) Orderly).rel ⟨w, []⟩ s) (hfailed : s.memory.log.ioFailed = false) :
    NoDangling repo s.memory := by
  have hstart : Held repo (⟨w, []⟩ : Pool (World S) Phase) :=
    ⟨hdata, htags, fun _ _ hq => absurd hq List.not_mem_nil,
      fun _ _ hq => absurd hq List.not_mem_nil⟩
  have hheld := Evolution.star_keep
    (I := fun s : Pool (World S) Phase => s.memory.log.ioFailed = false → Held repo s)
    (fun _ _ ⟨_, horderly, hstep⟩ hs => held_step hs horderly hstep) hrun fun _ => hstart
  exact (hheld hfailed).tags

end Tags

/-! A tag that is pushed while its manifest is being deleted. -/

def pushed : Bytes := Codec.utf8 "manifest".toList

def pushedDigest : Digest := Codec.standalone.digest pushed

def theRepo : Str := "library/app".toList

def putTag : Call := .put "v1".toList (some pushed)

def deleteDigest : Call := .delete pushedDigest.toStr

def fresh : Pool (World Codec.standalone) Phase := ⟨World.start Codec.standalone [] [], []⟩

theorem dataNamed_fresh : DataNamed fresh.memory := fun key st h => absurd h (by simp [fresh, World.start])

theorem noDangling_fresh : NoDangling theRepo fresh.memory :=
  fun tag m h => absurd h (by simp [fresh, World.start])

/-- The tag is set, and its manifest is there or not. -/
def Tagged (s : Pool (World Codec.standalone) Phase) (present : Bool) : Prop :=
  (s.memory.localTags.lookup (theRepo, "v1".toList)).map LocalTagMeta.digest =
      some pushedDigest.toStr ∧
    s.memory.fs.isFile (blobPath Codec.standalone.root theRepo pushedDigest) = present

instance (s : Pool (World Codec.standalone) Phase) (present : Bool) : Decidable (Tagged s present) :=
  inferInstanceAs (Decidable (_ ∧ _))

instance (d : Digest) : DecidablePred (Phase.sets d) := fun p =>
  match p with
  | .setTag _ e => inferInstanceAs (Decidable (e = d))
  | .prepare _ _ | .check _ _ | .persist _ _ | .removeTag _ | .list _ | .clear _ _ | .returned =>
    .isFalse id

instance (tag : Str) (d : Digest) : DecidablePred (Phase.removes tag d) := fun p =>
  match p with
  | .clear e tags => inferInstanceAs (Decidable (e = d → tag ∈ tags))
  | .prepare _ _ | .check _ _ | .persist _ _ | .removeTag _ | .list _ | .setTag _ _ | .returned =>
    .isTrue trivial

instance {S : Setup} : DecidableRel (Orderly (S := S)) := fun s act =>
  match act with
  | .call _ => .isTrue trivial
  | .turn i => by
    unfold Orderly
    simp only
    split <;> infer_instance

/-- The `DELETE` lists no tags and deletes the blob that the `PUT` has persisted; then the `PUT` sets
its tag. Both requests are over, and the tag dangles. -/
theorem late_tag_dangles :
    ¬ ∀ (S : Setup) (repo : Str) (w : World S), DataNamed w → NoDangling repo w →
      ∀ s : Pool (World S) Phase, (runs (step repo) anyStep).rel ⟨w, []⟩ s →
        s.memory.log.ioFailed = false → (∀ p ∈ s.tasks, p = .returned) → NoDangling repo s.memory := by
  intro h
  obtain ⟨s, hrun, hfailed, hover, htag, hfile⟩ := exists_run_of_follow (step theRepo) anyStep fresh
    [.call putTag, .turn 0, .turn 0, .turn 0, .call deleteDigest, .turn 1, .turn 1, .turn 0]
    (fun s => s.memory.log.ioFailed = false ∧ (∀ p ∈ s.tasks, p = .returned) ∧ Tagged s false)
    (by decide +kernel)
  have hnone := h Codec.standalone theRepo _ dataNamed_fresh noDangling_fresh s hrun hfailed hover
  obtain ⟨m, hm, hd⟩ := Option.map_eq_some_iff.mp htag
  obtain ⟨d, hd', hthere⟩ := hnone _ m hm
  have hsame : d = pushedDigest := Digest.toStr_injective (hd'.symm.trans hd)
  rw [hsame, hfile] at hthere
  cases hthere

/-- The `DELETE` comes to its listing only after the tag was set, and a second `PUT` of the tag
persists its blob after the deletion. -/
theorem repeated_push_is_orderly :
    ∃ s : Pool (World Codec.standalone) Phase, (∀ p ∈ s.tasks, p = .returned) ∧ Tagged s true ∧
      NoDangling theRepo s.memory := by
  obtain ⟨s, hrun, hfailed, hover, htag⟩ := exists_run_of_follow (step theRepo) Orderly fresh
    [.call putTag, .call putTag, .call deleteDigest, .turn 0, .turn 1, .turn 0, .turn 0, .turn 0,
      .turn 2, .turn 2, .turn 1, .turn 2, .turn 1, .turn 1]
    (fun s => s.memory.log.ioFailed = false ∧ (∀ p ∈ s.tasks, p = .returned) ∧ Tagged s true)
    (by decide +kernel)
  exact ⟨s, hover, htag, tags_never_dangle Codec.standalone theRepo _ dataNamed_fresh noDangling_fresh s hrun
    hfailed⟩

end Quill.Registry.ManifestSteps
