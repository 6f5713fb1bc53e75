import Quill.Registry.Coherence
import Quill.Registry.UpstreamTags
import Quill.Storage.Codec

/-!
# Which tags a listing shows

`list_tags` shows the tags of the two maps, and the tags of the upstream only when both have
none of the repository (`mem_answered`). Pulls and pushes only add to the maps (`known_mono`), so the
first of them replaces the list of the upstream by the one tag it used.

A listing shows every tag, and no later listing shows fewer, exactly when the repository has no
tag in the maps or all tags of the upstream are there (`tags_stay_listed_iff`).
-/

namespace Quill.Registry.TagListing

open Text Files Cas World LocalStorage LocalTags

variable {S : Setup} {repo : Str} {w w' : World S}

/-! ## Listings -/

/-- The tags that the maps have for a repository. -/
def known (w : World S) (repo : Str) : List Str :=
  (LocalTags.listForRepo w.localTags repo).map Prod.fst ++ TagCache.listForRepo w repo

/-- The tags that `GET tags/list` answers with. -/
def answered (w : World S) (repo : Str) (up : Replies) : List Str :=
  match ((listTags repo up : Handler S).exec w).1 with
  | .ok ⟨_, _, .tags _ tags⟩ => tags
  | _ => []

theorem mem_sorted {l : List Str} {t : Str} : t ∈ sorted l ↔ t ∈ l := by
  unfold sorted
  rw [List.mem_mergeSort, List.mem_dedup]

theorem mem_known {t : Str} :
    t ∈ known w repo ↔ (repo, t) ∈ w.localTags ∨ (repo, t) ∈ w.upstreamTags := by
  have hlocal : t ∈ (LocalTags.listForRepo w.localTags repo).map Prod.fst ↔
      (repo, t) ∈ w.localTags := by
    rw [← AList.lookup_isSome, Option.isSome_iff_exists, List.mem_map]
    constructor
    · rintro ⟨⟨t', m⟩, hmem, rfl⟩
      exact ⟨m, mem_listForRepo.mp hmem⟩
    · rintro ⟨m, hm⟩
      exact ⟨(t, m), mem_listForRepo.mpr hm, rfl⟩
  have hcached : t ∈ TagCache.listForRepo w repo ↔ (repo, t) ∈ w.upstreamTags := by
    unfold TagCache.listForRepo
    rw [AList.mem_keys, List.mem_filterMap, AList.keys, List.keys, List.mem_map]
    constructor
    · rintro ⟨⟨⟨r, t'⟩, e⟩, hmem, he⟩
      obtain ⟨hr, ht⟩ := Option.ite_none_right_eq_some.mp he
      cases Option.some.inj ht
      exact ⟨_, hmem, congrArg (·, t') hr⟩
    · rintro ⟨⟨⟨r, t'⟩, e⟩, hmem, he⟩
      cases he
      exact ⟨_, hmem, if_pos rfl⟩
  unfold known
  rw [List.mem_append, hlocal, hcached]

/-- A listing has the tags of the maps or, when they have none, those of the upstream. -/
theorem mem_answered (hroute : (S.route repo).isSome = true) {up : Replies} {tags : List Str}
    (hup : up.listTags = some tags) {t : Str} :
    t ∈ answered w repo up ↔ if known w repo = [] then t ∈ tags else t ∈ known w repo := by
  obtain ⟨p, hp⟩ := Option.isSome_iff_exists.mp hroute
  have hget : (listTags repo up : Handler S).exec w = _ := Prog.exec_bind_ok (Prog.exec_get w)
  unfold answered
  rw [hget]
  by_cases hknown : known w repo = []
  · have hempty : ((LocalTags.listForRepo w.localTags repo).map Prod.fst ++
        TagCache.listForRepo w repo).isEmpty = true := List.isEmpty_iff.mpr hknown
    simp only [hempty, if_true, hp, hknown]
    show t ∈ sorted (up.listTags.getD []) ↔ _
    rw [hup, mem_sorted]
    rfl
  · have hempty : ((LocalTags.listForRepo w.localTags repo).map Prod.fst ++
        TagCache.listForRepo w repo).isEmpty = false := List.isEmpty_eq_false_iff.mpr hknown
    simp only [hempty, Bool.false_eq_true, if_false, hknown]
    exact mem_sorted

/-! ## Requests -/

/-- `GET` or `HEAD` of a manifest or a blob, or `PUT` of a manifest. -/
def Pulls (req : Request) : Prop :=
  match (split req.rest).2 with
  | .manifest _ => req.method = .get ∨ req.method = .head ∨ req.method = .put
  | .blob _ => req.method = .get ∨ req.method = .head
  | _ => False

/-- One answered request of the run. -/
def Served (w w' : World S) : Prop :=
  ∃ req resp, Pulls req ∧ (dispatch req : Handler S).exec w = (.ok resp, w')

/-- Only the removal of a tag makes the store of local tags smaller. -/
theorem Effect.keepsLocal {k : Kind} (h : Effect S repo k w w') (hk : k ≠ .removeTag)
    {key : Str × Str} (hkey : key ∈ w.localTags) : key ∈ w'.localTags := by
  cases h with
  | ambient h =>
    rw [h.tags]
    exact hkey
  | setTag tag d pushedAt failed hfs => exact (AList.mem_insert _).mpr (Or.inr hkey)
  | removeTag tag failed hfs => exact absurd rfl hk
  | _ => exact hkey

theorem not_removeTag_of_pulls {req : Request} (h : Pulls req) :
    req.command.kinds ⊆ { k | k ≠ .removeTag } := by
  have hother : Command.other.kinds ⊆ { k | k ≠ Kind.removeTag } := fun k hk => hk.elim
  unfold Request.command
  split
  · exact hother
  · unfold Pulls at h
    cases haction : (split req.rest).2 with
    | manifest reference =>
      rw [haction] at h
      simp only [routeCommand, manifestCommand]
      rcases h with hm | hm | hm
      · rw [hm]
        exact hother
      · rw [hm]
        exact hother
      · rw [hm]
        cases Digest.parse reference with
        | ok d => exact hother
        | error e =>
          intro k hk hremove
          cases (Set.mem_singleton_iff.mp hk).symm.trans hremove
    | blob digest =>
      rw [haction] at h
      simp only [routeCommand, blobCommand]
      rcases h with hm | hm
      · rw [hm]
        exact hother
      · rw [hm]
        exact hother
    | _ =>
      rw [haction] at h
      exact h.elim

theorem dispatch_keepsTags {req : Request} (h : Pulls req) :
    Moves keepsTags (dispatch req : Handler S) := by
  by_cases hrepo : (split req.rest).1 = []
  · intro w
    rw [dispatch_unnamed hrepo]
    exact keepsTags.refl w
  · rw [dispatch_named hrepo]
    unfold Pulls at h
    cases haction : (split req.rest).2 with
    | manifest reference =>
      rw [haction] at h
      simp only [route]
      rcases h with hm | hm | hm
      · rw [hm]
        exact (getManifest_keepsTags reference true req.upstream).of_map _
      · rw [hm]
        exact (getManifest_keepsTags reference false req.upstream).of_map _
      · rw [hm]
        exact Moves.keepsTags (putManifest_still reference req.contentType req.body)
    | blob digest =>
      rw [haction] at h
      simp only [route]
      rcases h with hm | hm
      · rw [hm]
        exact Moves.keepsTags (getBlob_still digest true req.upstream)
      · rw [hm]
        exact Moves.keepsTags (getBlob_still digest false req.upstream)
    | _ =>
      rw [haction] at h
      exact h.elim

/-- A pull or a push forgets no tag. -/
theorem known_served (h : Served w w') {t : Str} (ht : t ∈ known w repo) : t ∈ known w' repo := by
  obtain ⟨req, resp, hpulls, hrun⟩ := h
  rw [mem_known] at ht ⊢
  rcases ht with ht | ht
  · have halong : Moves (Along S (split req.rest).1 { k | k ≠ .removeTag }) (dispatch req : Handler S) := by
      refine dispatch_along ?_ ?_ req (fun _ _ => ?_) (not_removeTag_of_pulls hpulls)
      · intro k hk hremove
        subst hremove
        simp [pullKinds] at hk
      · exact fun he => nomatch he
      · exact fun he => nomatch he
    refine Or.inl (Evolution.star_keep (I := fun v : World S => (repo, t) ∈ v.localTags) ?_
      (halong.rel_of_exec hrun) ht)
    rintro v v' ⟨k, hk, heff⟩ hv
    exact Effect.keepsLocal heff hk hv
  · exact Or.inr ((dispatch_keepsTags hpulls).rel_of_exec hrun _ ht)

/-- In every run the known tags grow. -/
theorem known_mono (hrun : (Evolution.star Served).rel w w') {t : Str} (ht : t ∈ known w repo) :
    t ∈ known w' repo :=
  Evolution.star_keep (I := fun v : World S => t ∈ known v repo) (fun _ _ h hv => known_served h hv)
    hrun ht

/-! ## What stays listed -/

/-- The listing has every local tag, every cached tag and every tag of the upstream. -/
def ShowsAll (w : World S) (repo : Str) (up : Replies) (tags : List Str) : Prop :=
  ∀ t, (repo, t) ∈ w.localTags ∨ (repo, t) ∈ w.upstreamTags ∨ t ∈ tags → t ∈ answered w repo up

/-- The maps have no tag of the repository, or all that the upstream has. -/
def Complete (w : World S) (repo : Str) (tags : List Str) : Prop :=
  known w repo = [] ∨ ∀ t ∈ tags, t ∈ known w repo

theorem showsAll_iff (hroute : (S.route repo).isSome = true) {up : Replies} {tags : List Str}
    (hup : up.listTags = some tags) : ShowsAll w repo up tags ↔ Complete w repo tags := by
  unfold ShowsAll Complete
  by_cases hknown : known w repo = []
  · refine ⟨fun _ => Or.inl hknown, fun _ t ht => ?_⟩
    rw [mem_answered hroute hup, if_pos hknown]
    rcases ht with ht | ht | ht
    · exact absurd (mem_known.mpr (Or.inl ht)) (hknown ▸ List.not_mem_nil)
    · exact absurd (mem_known.mpr (Or.inr ht)) (hknown ▸ List.not_mem_nil)
    · exact ht
  · constructor
    · intro h
      refine Or.inr fun t ht => ?_
      have hshown := h t (Or.inr (Or.inr ht))
      rwa [mem_answered hroute hup, if_neg hknown] at hshown
    · intro h t ht
      rw [mem_answered hroute hup, if_neg hknown]
      rcases ht with ht | ht | ht
      · exact mem_known.mpr (Or.inl ht)
      · exact mem_known.mpr (Or.inr ht)
      · exact (h.resolve_left hknown) t ht

/-- For every run of pulls and pushes: the listings before and after show every tag, and the later
shows what the earlier does, exactly when in both states the maps have no tag of the repository
or all that the upstream has. -/
theorem tags_stay_listed_iff (S : Setup) (repo : Str) (hroute : (S.route repo).isSome = true)
    (up : Replies) (tags : List Str) (hup : up.listTags = some tags) (w w' : World S)
    (hrun : (Evolution.star Served).rel w w') :
    (ShowsAll w repo up tags ∧ ShowsAll w' repo up tags ∧
      ∀ t ∈ answered w repo up, t ∈ answered w' repo up) ↔
      Complete w repo tags ∧ Complete w' repo tags := by
  rw [showsAll_iff hroute hup, showsAll_iff hroute hup]
  refine ⟨fun h => ⟨h.1, h.2.1⟩, fun h => ⟨h.1, h.2, fun t ht => ?_⟩⟩
  rw [mem_answered hroute hup] at ht ⊢
  by_cases hknown' : known w' repo = []
  · have hknown : known w repo = [] := by
      refine List.eq_nil_iff_forall_not_mem.mpr fun t' ht' => ?_
      exact absurd (known_mono hrun ht') (hknown' ▸ List.not_mem_nil)
    rw [if_pos hknown] at ht
    rw [if_pos hknown']
    exact ht
  · rw [if_neg hknown']
    by_cases hknown : known w repo = []
    · rw [if_pos hknown] at ht
      exact (h.2.resolve_left hknown') t ht
    · rw [if_neg hknown] at ht
      exact known_mono hrun ht

/-! An upstream with the tags `v1` and `v2`, and a pull of the first. -/

def booted : World Codec.mirror := World.start Codec.mirror [] []

def app : Str := "library/app".toList

def v1 : Str := "v1".toList

def v2 : Str := "v2".toList

def manifest : Bytes := Codec.utf8 "manifest".toList

/-- The upstream has these tags, each with the same manifest. -/
def having (tags : List Str) : Replies :=
  ⟨none, some ⟨manifest, "application/vnd.oci.image.manifest.v1+json".toList, Codec.mirror.digest manifest⟩,
    none, some tags⟩

def pullTag (tag : Str) : Request :=
  ⟨.get, "library/app/manifests/".toList ++ tag, none, none, none, none, having [v1, v2]⟩

/-- The world after a pull of `v1`. -/
def pulledV1 : World Codec.mirror := ((dispatch (pullTag v1) : Handler Codec.mirror).exec booted).2

/-- The world after a pull of `v2` as well. -/
def pulledBoth : World Codec.mirror := ((dispatch (pullTag v2) : Handler Codec.mirror).exec pulledV1).2

/-- The answer to a pull. -/
def pullAnswer : Response :=
  ⟨.ok, [(.contentLength, decimal 8), (.dockerContentDigest, (Codec.mirror.digest manifest).toStr),
    (.contentType, "application/vnd.oci.image.manifest.v1+json".toList)], .bytes manifest⟩

theorem served_pullTag {w : World Codec.mirror} {tag : Str}
    (hsplit : split (pullTag tag).rest = (app, .manifest tag))
    (h : ((dispatch (pullTag tag) : Handler Codec.mirror).exec w).1 = .ok pullAnswer) :
    Served w ((dispatch (pullTag tag) : Handler Codec.mirror).exec w).2 := by
  refine ⟨pullTag tag, pullAnswer, ?_, Prod.ext h rfl⟩
  unfold Pulls
  rw [hsplit]
  exact Or.inl rfl

theorem served_pulledV1 : Served booted pulledV1 :=
  served_pullTag (by decide +kernel) (by decide +kernel)

theorem route_app : (Codec.mirror.route app).isSome = true := by decide

/-- After the pull of `v1` the listing has lost `v2`. -/
theorem pull_hides_tag : Served booted pulledV1 ∧ v2 ∈ answered booted app (having [v1, v2]) ∧
    v2 ∉ answered pulledV1 app (having [v1, v2]) := by
  obtain ⟨hbefore, hafter⟩ : known booted app = [] ∧ known pulledV1 app = [v1] := by decide +kernel
  refine ⟨served_pulledV1, ?_, fun hmem => ?_⟩
  · rw [mem_answered route_app rfl, if_pos hbefore]
    decide
  · rw [mem_answered route_app rfl, hafter, if_neg (List.cons_ne_nil _ _)] at hmem
    revert hmem
    decide

/-- When both tags were pulled nothing is lost. -/
theorem pulled_tags_stay_listed : ShowsAll booted app (having [v1, v2]) [v1, v2] ∧
    ShowsAll pulledBoth app (having [v1, v2]) [v1, v2] ∧
    ∀ t ∈ answered booted app (having [v1, v2]), t ∈ answered pulledBoth app (having [v1, v2]) := by
  obtain ⟨hbefore, hafter⟩ : known booted app = [] ∧ ∀ t ∈ [v1, v2], t ∈ known pulledBoth app := by
    decide +kernel
  have hboth : Served pulledV1 pulledBoth := served_pullTag (by decide +kernel) (by decide +kernel)
  exact (tags_stay_listed_iff Codec.mirror app route_app (having [v1, v2]) [v1, v2] rfl booted pulledBoth
    ((Relation.ReflTransGen.single served_pulledV1).tail hboth)).mpr ⟨Or.inl hbefore, Or.inr hafter⟩

end Quill.Registry.TagListing
