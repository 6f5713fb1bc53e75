import Quill.Base.Traces
import Quill.Server.Startup

/-!
# Which pushed tags survive a restart

After a restart the map of local tags is what the scan of `load_existing_local_tags` finds in the
sidecars. A run can leave the two apart in two ways: a tag was pushed to a repository that the scan
does not find, or the tag store changed the map and then failed to write the sidecar, so that the
push was answered with an error. The next push to the same repository writes all its tags.

`TagView` reads both sides of a tag off the answers of a run. The pushed tags survive exactly when
every push went to a findable repository and the two sides of each pushed tag agree
(`survive_restart_iff`). A deletion gives no answer from which the state of the sidecar
could be read, so runs with deletions are those whose steps find the sidecar writable
(`CarefulStep`).
-/

namespace Quill.Server

open Text Files Cas World LocalStorage LocalTags Registry

variable {S : Setup} {ticks wall : List Nat} {es : List Exchange} {w w' : World S}

/-! ## Both sides of a tag -/

/-- A tag as the answers of a run tell it: the digest it has in the map, and the digest it had there
when the sidecar of its repository was last written. -/
structure TagView where
  memory : Option Str
  disk : Option Str

/-- A push that the tag store takes in sets the tag in the map, also when the store fails
afterwards. Every push that is answered with `201 Created` writes the map of its repository. -/
def TagView.after (S : Setup) (repo tag : Str) (v : TagView) (e : Exchange) : TagView :=
  match e.1.command with
  | .push r t =>
    if r = repo then
      let memory :=
        if t = tag ∧ (e.2.status = .created ∨ e.2.refusesTag = true) then
          some (S.digest (e.1.body.getD [])).toStr
        else v.memory
      ⟨memory, if e.2.status = .created then memory else v.disk⟩
    else v
  | _ => v

/-- What the exchanges make of a pair of repository and tag. -/
def tagView (S : Setup) (es : List Exchange) (repo tag : Str) : TagView :=
  es.foldl (TagView.after S repo tag) ⟨none, none⟩

theorem tagView_append (S : Setup) (es : List Exchange) (e : Exchange) (repo tag : Str) :
    tagView S (es ++ [e]) repo tag = (tagView S es repo tag).after S repo tag e := by
  simp [tagView]

namespace TagView

variable {repo tag r t : Str} {v : TagView} {e : Exchange}

theorem after_elsewhere (h : ∀ t, e.1.command ≠ .push repo t) : v.after S repo tag e = v := by
  unfold after
  split
  · rename_i r t hc
    rw [if_neg]
    rintro rfl
    exact h t hc
  · rfl

theorem after_other (hc : e.1.command = .push r t) (hr : r ≠ repo) : v.after S repo tag e = v := by
  refine after_elsewhere fun t' hc' => hr ?_
  cases hc.symm.trans hc'
  rfl

/-- A push that never came to the tag store. -/
theorem after_turnedDown (hcreated : e.2.status ≠ .created) (hrefuses : e.2.refusesTag = false) :
    v.after S repo tag e = v := by
  unfold after
  split
  · simp [hcreated, hrefuses]
  · rfl

theorem after_created (hc : e.1.command = .push r t) (hs : e.2.status = .created) :
    v.after S r tag e =
      let digest := if t = tag then some (S.digest (e.1.body.getD [])).toStr else v.memory
      ⟨digest, digest⟩ := by
  unfold after
  simp [hc, hs]

theorem after_refused (hc : e.1.command = .push r t) (hs : e.2.status ≠ .created)
    (hr : e.2.refusesTag = true) :
    v.after S r tag e =
      ⟨if t = tag then some (S.digest (e.1.body.getD [])).toStr else v.memory, v.disk⟩ := by
  unfold after
  simp [hc, hs, hr]

/-- A push never takes a tag out of the map. -/
theorem isSome_after (hv : v.memory.isSome = true) (e : Exchange) :
    (v.after S repo tag e).memory.isSome = true := by
  unfold after
  split
  · split
    · dsimp only
      split
      · rfl
      · exact hv
    · exact hv
  · exact hv

end TagView

/-- The repository and the tag that a push sets. -/
def pushTarget : Command → Option (Str × Str)
  | .push repo tag => some (repo, tag)
  | _ => none

/-- The repository and the tag of every push that was answered with `201 Created`. -/
def pushedPairs (es : List Exchange) : List (Str × Str) :=
  es.filterMap fun e => if e.2.status = .created then pushTarget e.1.command else none

theorem mem_pushedPairs {repo tag : Str} :
    (repo, tag) ∈ pushedPairs es ↔
      ∃ e ∈ es, e.1.command = .push repo tag ∧ e.2.status = .created := by
  unfold pushedPairs
  simp only [List.mem_filterMap, Option.ite_none_right_eq_some]
  constructor
  · rintro ⟨e, he, hs, hc⟩
    unfold pushTarget at hc
    split at hc
    · cases hc
      exact ⟨e, he, ‹_›, hs⟩
    · cases hc
  · rintro ⟨e, he, hc, hs⟩
    exact ⟨e, he, hs, by rw [hc]; rfl⟩

/-- The two sides of every pushed tag agree. -/
def Settled (S : Setup) (es : List Exchange) : Prop :=
  ∀ key ∈ pushedPairs es, (tagView S es key.1 key.2).disk = (tagView S es key.1 key.2).memory

/-- After a restart every pushed tag has the digest it had before. -/
def Survives (S : Setup) (es : List Exchange) (w : World S) : Prop :=
  ∀ key ∈ pushedPairs es, ((loadExistingLocalTags S w.fs).lookup key).map LocalTagMeta.digest =
    (w.localTags.lookup key).map LocalTagMeta.digest

instance (S : Setup) (es : List Exchange) : Decidable (Settled S es) :=
  inferInstanceAs (Decidable (∀ key ∈ pushedPairs es, _))

instance (S : Setup) (es : List Exchange) (w : World S) : Decidable (Survives S es w) :=
  inferInstanceAs (Decidable (∀ key ∈ pushedPairs es, _))

/-! ## Runs without deletions -/

/-- A run that removes no tag. -/
def NoRemovals (es : List Exchange) : Prop := ∀ e ∈ es, e.1.command.removesFrom = none

instance (es : List Exchange) : Decidable (NoRemovals es) :=
  inferInstanceAs (Decidable (∀ e ∈ es, _))

theorem NoRemovals.init {e : Exchange} (h : NoRemovals (es ++ [e])) : NoRemovals es :=
  fun e' he => h e' (List.mem_append_left _ he)

theorem NoRemovals.last {e : Exchange} (h : NoRemovals (es ++ [e])) :
    e.1.command.removesFrom = none := h e (by simp)

/-- What a request that removes no tag does to a pair of sides: nothing, or it updates the tag of a
push, with or without the sidecar. -/
theorem step_cases {req : Request} {resp : Response}
    (hrun : (dispatch req : Handler S).exec w = (.ok resp, w')) (hdata : DataNamed w)
    (hremoves : req.command.removesFrom = none) :
    (w'.localTags = w.localTags ∧ (∀ repo tag v, TagView.after S repo tag v (req, resp) = v) ∧
      ∃ except, Keeps except w w' ∧ ∀ p ∈ except, ¬ IsTagsName p) ∨
    ∃ r t b pushedAt, req.command = .push r t ∧ req.body = some b ∧
      w'.localTags = w.localTags.insert (r, t) ⟨(S.digest b).toStr, pushedAt⟩ ∧
      ((resp.status = .created ∧ PushResult S r t b w w') ∨
        (resp.status ≠ .created ∧ resp.refusesTag = true ∧ Keeps ∅ w w')) := by
  have hcarries : ∀ repo, req.command.removesFrom = some repo → Carries repo w w' := by
    intro repo hrepo
    cases hremoves.symm.trans hrepo
  rcases dispatch_cases hrun hcarries with ⟨hchange, hrefuses⟩ | ⟨r, t, b, e, hc, hb, rfl, hrefused⟩
  · cases hchange with
    | quiet hcommand halong =>
      obtain ⟨-, hkeep, htags⟩ := quiet_keeps (fun _ hk => hk) halong hdata
      refine Or.inl ⟨htags, fun repo tag v => ?_, ∅, hkeep, fun _ hp => absurd hp (Set.notMem_empty _)⟩
      rcases hcommand with hother | ⟨r, t, hc, hne⟩
      · refine TagView.after_elsewhere fun t hc => ?_
        cases hother.symm.trans hc
      · exact TagView.after_turnedDown hne (hrefuses hne r t hc)
    | @pushed r t b hcommand hstatus hbody hsteps =>
      have hres := hsteps.result hdata
      obtain ⟨pushedAt, htags⟩ := hres.tags
      exact Or.inr ⟨r, t, b, pushedAt, hcommand, hbody, htags, Or.inl ⟨hstatus, hres⟩⟩
    | untagged hcommand =>
      rw [hcommand] at hremoves
      cases hremoves
    | manifestDeleted hcommand =>
      rw [hcommand] at hremoves
      cases hremoves
    | blobDeleted hcommand htags hkeep =>
      refine Or.inl ⟨htags, fun repo tag v => TagView.after_elsewhere fun t hc => ?_, _, hkeep,
        not_isTagsName_blobPath _ _ _⟩
      cases hcommand.symm.trans hc
  · obtain ⟨hkeep, pushedAt, htags⟩ := hrefused.result hdata
    exact Or.inr ⟨r, t, b, pushedAt, hc, hb, htags,
      Or.inr ⟨show Status.internalServerError ≠ .created by decide, rfl, hkeep⟩⟩

/-- The map has the digests of the view. -/
theorem memory_of_served (h : Served S ticks wall es w) (hno : NoRemovals es) (repo tag : Str) :
    (w.localTags.lookup (repo, tag)).map LocalTagMeta.digest = (tagView S es repo tag).memory := by
  induction h with
  | start => rfl
  | @serve es w w' req resp hprev hrun ih =>
    rw [tagView_append]
    have hbefore := ih hno.init
    rcases step_cases hrun hprev.dataNamed hno.last with
      ⟨htags, hview, -⟩ | ⟨r, t, b, pushedAt, hc, hb, htags, hend⟩
    · rw [htags, hview]
      exact hbefore
    · by_cases hr : r = repo
      · subst hr
        have hmemory : ((tagView S es r tag).after S r tag (req, resp)).memory =
            if t = tag then some (S.digest b).toStr else (tagView S es r tag).memory := by
          rcases hend with ⟨hs, -⟩ | ⟨hs, hrefuses, -⟩
          · rw [TagView.after_created hc hs, hb]
            rfl
          · rw [TagView.after_refused hc hs hrefuses, hb]
            rfl
        rw [hmemory, htags]
        by_cases ht : t = tag
        · subst ht
          rw [AList.lookup_insert, if_pos rfl]
          rfl
        · rw [AList.lookup_insert_ne fun he => ht (Prod.mk.inj he).2.symm, if_neg ht]
          exact hbefore
      · rw [TagView.after_other hc hr, htags,
          AList.lookup_insert_ne fun he => hr (Prod.mk.inj he).1.symm]
        exact hbefore

/-- A pushed tag is in the map. -/
theorem memory_of_pushed {repo tag : Str} (h : (repo, tag) ∈ pushedPairs es) :
    (tagView S es repo tag).memory.isSome = true := by
  obtain ⟨e, he, hc, hs⟩ := mem_pushedPairs.mp h
  have hkeep : ∀ (rest : List Exchange) (v : TagView), v.memory.isSome = true →
      (rest.foldl (TagView.after S repo tag) v).memory.isSome = true := by
    intro rest
    induction rest with
    | nil => exact fun _ hv => hv
    | cons e' rest ih => exact fun v hv => ih _ (TagView.isSome_after hv e')
  obtain ⟨before, rest, rfl⟩ := List.append_of_mem he
  rw [tagView, List.foldl_append, List.foldl_cons]
  refine hkeep rest _ ?_
  rw [TagView.after_created hc hs]
  simp

/-- The sidecars have the digests of the view, when every push went to a repository with `P`. -/
theorem saved_of_served {P : Str → Prop} (hP : Separate S P) (h : Served S ticks wall es w)
    (hno : NoRemovals es) (hpush : PushesTo P es) :
    ∃ tags, Saved S P tags w.fs ∧ ∀ repo tag,
      (tags repo tag).map LocalTagMeta.digest = (tagView S es repo tag).disk := by
  induction h with
  | start => exact ⟨_, synced_start P S ticks wall, fun _ _ => rfl⟩
  | @serve es w w' req resp hprev hrun ih =>
    obtain ⟨tags, hsaved, hdisk⟩ := ih hno.init fun e he => hpush e (List.mem_append_left _ he)
    have hmemory := memory_of_served (.serve hprev hrun) hno
    rcases step_cases hrun hprev.dataNamed hno.last with
      ⟨-, hview, except, hkeep, hexcept⟩ | ⟨r, t, b, pushedAt, hc, hb, htags, hend⟩
    · refine ⟨tags, hsaved.keeps hkeep hexcept, fun repo tag => ?_⟩
      rw [tagView_append, hview]
      exact hdisk repo tag
    · rcases hend with ⟨hs, hres⟩ | ⟨hs, hrefuses, hkeep⟩
      · let tags' := fun repo tag =>
          if repo = r then w'.localTags.lookup (repo, tag) else tags repo tag
        refine ⟨tags', ?_, fun repo tag => ?_⟩
        · refine hsaved.rewrite hP (hpush (req, resp) (by simp) r t hc hs) hres.keeps hres.dirs
            (fun repo tag hr => if_neg hr) (fun tag => ?_) hres.sidecar
          rw [lookup_snapshot]
          exact (if_pos rfl).symm
        · by_cases hr : repo = r
          · subst hr
            have hboth : (tagView S (es ++ [(req, resp)]) repo tag).disk =
                (tagView S (es ++ [(req, resp)]) repo tag).memory := by
              rw [tagView_append, TagView.after_created hc hs]
            rw [hboth, ← hmemory repo tag]
            exact congrArg _ (if_pos rfl)
          · rw [tagView_append, TagView.after_other hc fun he => hr he.symm, ← hdisk repo tag]
            exact congrArg _ (if_neg hr)
      · refine ⟨tags, hsaved.keeps hkeep fun _ hp => absurd hp (Set.notMem_empty _),
          fun repo tag => ?_⟩
        rw [hdisk, tagView_append]
        by_cases hr : r = repo
        · subst hr
          rw [TagView.after_refused hc hs hrefuses]
        · rw [TagView.after_other hc hr]

/-! ## Runs with deletions -/

/-- A request and its answer leave map and sidecars alike: a tag is pushed to a repository that the
scan finds, the tag store does not fail, and a deletion finds a sidecar that can be written. -/
structure Careful (S : Setup) (w : World S) (req : Request) (resp : Response) : Prop where
  found : resp.status = .created → ∀ key ∈ pushTarget req.command, Findable key.1
  kept : resp.refusesTag = false
  removed : ∀ repo ∈ req.command.removesFrom, Writable S w.fs repo

instance (w : World S) (req : Request) (resp : Response) : Decidable (Careful S w req resp) :=
  decidable_of_iff ((resp.status = .created → ∀ key ∈ pushTarget req.command, Findable key.1) ∧
      resp.refusesTag = false ∧ ∀ repo ∈ req.command.removesFrom, Writable S w.fs repo)
    ⟨fun h => ⟨h.1, h.2.1, h.2.2⟩, fun h => ⟨h.found, h.kept, h.removed⟩⟩

/-- An exchange that is careful in the state where it starts. -/
def CarefulStep (S : Setup) (w : World S) (e : Exchange) (w' : World S) : Prop :=
  Careful S w e.1 e.2 ∧ (dispatch e.1 : Handler S).exec w = (.ok e.2, w')

theorem served_of_careful (h : Trace (CarefulStep S) (World.start S ticks wall) es w) :
    Served S ticks wall es w := by
  induction h with
  | nil => exact .start
  | snoc _ hstep ih => exact .serve ih hstep.2

theorem synced_of_careful (h : Trace (CarefulStep S) (World.start S ticks wall) es w) :
    Synced Findable w := by
  induction h with
  | nil => exact synced_start Findable S ticks wall
  | snoc hprev hstep ih =>
    obtain ⟨hcareful, hrun⟩ := hstep
    rcases dispatch_cases hrun fun repo hrepo => Or.inr (hcareful.removed repo hrepo) with
      ⟨hchange, -⟩ | ⟨r, t, b, e, -, -, hresp, -⟩
    · refine synced_step (.of_plain fun _ h => h.1) hchange (served_of_careful hprev).dataNamed
        (fun r t hc hs => ?_) ih
      exact hcareful.found hs (r, t) (by rw [hc]; rfl)
    · have hkept := hcareful.kept
      rw [hresp] at hkept
      cases hkept

/-! ## The restart -/

/-- The scan after a run of careful steps restores the whole map, deletions included. Without
deletions, the pushed tags survive exactly when each was pushed to a repository that the scan finds
and no failed update of one is left standing. -/
theorem survive_restart_iff (S : Setup) (ticks wall : List Nat) (es : List Exchange) (w : World S) :
    (Trace (CarefulStep S) (World.start S ticks wall) es w → ∀ repo tag,
      (loadExistingLocalTags S w.fs).lookup (repo, tag) = w.localTags.lookup (repo, tag)) ∧
    (Served S ticks wall es w → NoRemovals es →
      (Survives S es w ↔ PushesTo Findable es ∧ Settled S es)) := by
  refine ⟨fun hrun => loaded_eq (synced_of_careful hrun), fun hrun hno => ?_⟩
  have hmemory := memory_of_served hrun hno
  have hdisk : PushesTo Findable es → ∀ repo tag,
      ((loadExistingLocalTags S w.fs).lookup (repo, tag)).map LocalTagMeta.digest =
        (tagView S es repo tag).disk := by
    intro hpush repo tag
    obtain ⟨tags, hsaved, htags⟩ := saved_of_served (.of_plain fun _ h => h.1) hrun hno hpush
    rw [loaded_eq hsaved, htags]
  constructor
  · intro hsurvive
    have hpush : PushesTo Findable es := by
      intro e he repo tag hc hs
      have hpushed := mem_pushedPairs.mpr ⟨e, he, hc, hs⟩
      have hsome := memory_of_pushed (S := S) hpushed
      rw [← hmemory, ← hsurvive _ hpushed, Option.isSome_map] at hsome
      obtain ⟨m, hm⟩ := Option.isSome_iff_exists.mp hsome
      exact findable_of_loaded (repo_of_command (by rw [hc]; rfl)).2 hm
    refine ⟨hpush, fun key hpushed => ?_⟩
    rw [← hdisk hpush, ← hmemory]
    exact hsurvive key hpushed
  · rintro ⟨hpush, hsettled⟩ key hpushed
    rw [hdisk hpush, hmemory]
    exact hsettled key hpushed

/-! A tag of a repository with a component `blobs`, which is a valid name; an update of a tag that fails,
because another repository lies where the sidecar's temporary file goes. -/

def putManifestV1 (repo text : Str) : Request :=
  ⟨.put, repo ++ "/manifests/v1".toList, none, none, none, some (Codec.utf8 text),
    ⟨none, none, none, none⟩⟩

def blobsRepo : Str := "library/blobs/app".toList

def appRepo : Str := "library/app".toList

/-- A repository whose directory is the temporary file of the other one's sidecar. -/
def tmpRepo : Str := "library/app/_local_tags.json.tmp".toList

/-- The tag is in the map after the push and not after the restart. -/
theorem blobs_component_loses_tag :
    ¬ ∀ (S : Setup) (ticks wall : List Nat) (es : List Exchange) (w : World S),
      Served S ticks wall es w → NoRemovals es → Survives S es w := by
  intro h
  obtain ⟨es, w, -, hserved, hno, hlost⟩ := exists_served Codec.standalone [] []
    [putManifestV1 blobsRepo "manifest".toList]
    (fun es w => NoRemovals es ∧ ¬ Survives Codec.standalone es w) (by decide +kernel)
  exact hlost (h _ [] [] es w hserved hno)

/-- A failed update of a tag is in the map and not in the sidecar, though the scan finds every
repository of the run. -/
theorem failed_update_is_undone : ∃ es w, Served Codec.standalone [] [] es w ∧ NoRemovals es ∧
    PushesTo Findable es ∧ ¬ Survives Codec.standalone es w := by
  obtain ⟨es, w, hall, hserved, hno, hlost⟩ := exists_served Codec.standalone [] []
    [putManifestV1 appRepo "manifest".toList, putManifestV1 tmpRepo "manifest".toList,
      putManifestV1 appRepo "other".toList]
    (fun es w => NoRemovals es ∧ ¬ Survives Codec.standalone es w) (by decide +kernel)
  exact ⟨es, w, hserved, hno, pushesTo_of_requests hall (by decide), hlost⟩

/-- A careful answer of the given status. -/
theorem careful_of_exec (w : World S) (req : Request) (status : Status)
    (h : ((dispatch req : Handler S).exec w).1.toOption.any
      (fun resp => decide (Careful S w req resp ∧ resp.status = status)) = true) :
    ∃ resp, CarefulStep S w (req, resp) ((dispatch req : Handler S).exec w).2 ∧
      resp.status = status := by
  rcases hrun : (dispatch req : Handler S).exec w with ⟨e | resp, w'⟩
  · rw [hrun] at h
    cases h
  · rw [hrun] at h
    obtain ⟨hcareful, hstatus⟩ := of_decide_eq_true h
    exact ⟨resp, ⟨hcareful, hrun⟩, hstatus⟩

def untagV1 : Request :=
  ⟨.delete, appRepo ++ "/manifests/v1".toList, none, none, none, none, ⟨none, none, none, none⟩⟩

def pushedV1 : World Codec.standalone :=
  ((dispatch (putManifestV1 appRepo "manifest".toList) : Handler Codec.standalone).exec
    (World.start Codec.standalone [] [])).2

/-- An update fails and the next one, which fails as well, sets the old digest again: the tag survives.
And a tag that was pushed and deleted stays away. -/
theorem plain_tags_survive :
    (∃ es w, Served Codec.standalone [] [] es w ∧
      es.map (fun e => e.2.status) =
        [.created, .created, .internalServerError, .internalServerError] ∧
      Survives Codec.standalone es w) ∧
    ∃ es w, Served Codec.standalone [] [] es w ∧
      es.map (fun e => e.2.status) = [.created, .accepted] ∧
      (loadExistingLocalTags Codec.standalone pushedV1.fs).lookup (appRepo, "v1".toList) ≠ none ∧
      (loadExistingLocalTags Codec.standalone w.fs).lookup (appRepo, "v1".toList) = none := by
  constructor
  · obtain ⟨es, w, hall, hserved, hno, hstatus, hsettled⟩ := exists_served Codec.standalone [] []
      [putManifestV1 appRepo "manifest".toList, putManifestV1 tmpRepo "manifest".toList,
        putManifestV1 appRepo "other".toList, putManifestV1 appRepo "manifest".toList]
      (fun es _ => NoRemovals es ∧ es.map (fun e => e.2.status) =
        [.created, .created, .internalServerError, .internalServerError] ∧
        Settled Codec.standalone es) (by decide +kernel)
    have hiff := (survive_restart_iff Codec.standalone [] [] es w).2 hserved hno
    exact ⟨es, w, hserved, hstatus, hiff.mpr ⟨pushesTo_of_requests hall (by decide), hsettled⟩⟩
  · obtain ⟨pushed, hpush, hcreated⟩ := careful_of_exec (World.start Codec.standalone [] [])
      (putManifestV1 appRepo "manifest".toList) .created (by decide +kernel)
    obtain ⟨removed, hremove, haccepted⟩ := careful_of_exec pushedV1 untagV1 .accepted
      (by decide +kernel)
    have hrun := Trace.snoc (Trace.snoc .nil hpush) hremove
    have hrestored := (survive_restart_iff Codec.standalone [] [] _ _).1 hrun
    refine ⟨_, _, served_of_careful hrun, by simp [hcreated, haccepted], by decide +kernel, ?_⟩
    rw [hrestored]
    decide +kernel

end Quill.Server
