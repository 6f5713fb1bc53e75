import Quill.Base.Traces
import Quill.Registry.LocalTagsWin
import Quill.Registry.PushService

/-!
# The server refines the service

While no file-system step fails, every request that the server answers is a step of the abstract
service between the repositories that `view` shows: the handler of its own repository conforms
(`route_conforms`), the other repositories stay as they are (`route_elsewhere`), and the invariants of
`Ready` hold again. `registry` packs this as a refinement, so every run of the server is a history of
the service.
-/

namespace Quill.Registry

open Text Files Cas World LocalStorage Uploads LocalTags

variable {S : Setup} {repo r : Str} {w w' : World S} {req : Request}

/-! ## Requests to a repository -/

theorem Serves.of_unsupported {action : Action} (h : ¬ Supported req.method action) :
    Conforms S repo req action w ((route.unsupported : Handler S).exec w) :=
  .unchanged (.unsupported h)

theorem PullsManifest.conforms {reference : Str} {m : Handler S}
    (h : PullsManifest S repo req reference (repoView w repo) (m.exec w)) :
    Conforms S repo req (.manifest reference) w
      (((applyIfNoneMatch req.ifNoneMatch ·) <$> m : Handler S).exec w) := by
  rw [Prog.exec_map]
  intro resp hresp hok
  generalize m.exec w = out at h hresp hok
  obtain ⟨e | resp', w'⟩ := out
  · cases hresp
  · cases hresp
    exact h resp' rfl hok

/-- The handler of a request conforms to the service. -/
theorem route_conforms (hw : Ready w) (hrepo : Plain repo) (req : Request) (action : Action) :
    Conforms S repo req action w ((route req repo action : Handler S).exec w) := by
  cases action with
  | blob d =>
    cases hm : req.method with
    | get =>
      have h := getBlob_conforms hw hrepo (Or.inl hm) d
      simpa only [route, hm, decide_true] using h
    | head =>
      have h := getBlob_conforms hw hrepo (Or.inr hm) d
      simpa only [route, hm, reduceCtorEq, decide_false] using h
    | delete => simpa only [route, hm] using deleteBlobRoute_conforms hw hm d
    | _ =>
      simp only [route, hm]
      exact Serves.of_unsupported (by simp [Supported, hm])
  | manifest reference =>
    cases hm : req.method with
    | get =>
      have h : PullsManifest S repo req reference _ _ := getManifest_pulls hw (Or.inl hm) reference
      simpa only [route, hm, decide_true] using h.conforms
    | head =>
      have h : PullsManifest S repo req reference _ _ := getManifest_pulls hw (Or.inr hm) reference
      simpa only [route, hm, reduceCtorEq, decide_false] using h.conforms
    | put => simpa only [route, hm] using putManifest_conforms hw hm reference
    | delete => simpa only [route, hm] using deleteManifest_conforms hw hrepo hm reference
    | _ =>
      simp only [route, hm]
      exact Serves.of_unsupported (by simp [Supported, hm])
  | tagsList =>
    by_cases hm : req.method = .get
    · simpa only [route, if_pos hm] using listTags_conforms hw hm
    · simp only [route, if_neg hm]
      exact Serves.of_unsupported hm
  | uploadInit =>
    by_cases hm : req.method = .post
    · simpa only [route, if_pos hm] using uploadInit_conforms hw hrepo hm
    · simp only [route, if_neg hm]
      exact Serves.of_unsupported hm
  | uploadSession session =>
    cases hm : req.method with
    | patch => simpa only [route, hm] using uploadPatch_conforms hw hrepo hm session
    | put => simpa only [route, hm] using uploadPut_conforms hw hrepo hm session
    | _ =>
      simp only [route, hm]
      exact Serves.of_unsupported (by simp [Supported, hm])
  | unknown => exact Serves.of_unsupported id

/-! ## Other repositories -/

/-- A pull of a manifest remembers nothing but the tag. -/
theorem cached_of_pull {reference : Str} {withBody : Bool} {up : Replies}
    {out : Except Abort Response × World S} (h : Pull S repo reference withBody up w out)
    {key : Str × Str} (hkey : key ≠ (repo, reference)) :
    out.2.upstreamTags.lookup key = w.upstreamTags.lookup key := by
  have hsettled : ∀ {v : World S}, Settles repo reference up.resolveTag w v →
      v.upstreamTags.lookup key = w.upstreamTags.lookup key := by
    intro v hv
    rcases hv.upstreamTags with hsame | ⟨d, t, t', -, -, -, -, hinsert⟩
    · rw [hsame]
    · rw [hinsert, AList.lookup_insert_ne hkey]
  cases h with
  | refused hasks hsettles => exact hsettled hsettles
  | stored hasks hsource hsettles =>
    rw [exec_manifestResponse]
    exact hsettled hsettles
  | @fetched w₁ hasks hsettles =>
    cases hreply : up.getManifest with
    | none =>
      have hrun : (fetchAndServeUpstreamManifest repo reference withBody none : Handler S).exec w₁ =
          (.ok (manifestUnknown reference), called w₁ (.getManifest repo reference)) :=
        Prog.exec_bind_ok (exec_call w₁ (.getManifest repo reference))
      rw [hrun]
      have hsame : w₁.upstreamTags.lookup key = w.upstreamTags.lookup key := hsettled hsettles
      exact hsame
    | some m =>
      obtain ⟨w₂, hfetched, hrun⟩ := exec_fetchManifest w₁ repo reference withBody m
      rw [hrun, exec_manifestResponse]
      rcases hfetched.upstreamTags with ⟨-, -, hsame⟩ | ⟨-, t', -, hinsert⟩
      · exact hsame ▸ hsettled hsettles
      · exact (hinsert ▸ AList.lookup_insert_ne hkey).trans (hsettled hsettles)

theorem uploadPatch_still (session : Str) (body : Option Bytes) :
    Moves still (uploadPatch repo session body : Handler S) := by
  unfold uploadPatch
  cases collectBody body maxUpload with
  | error resp => exact Moves.of_pure _
  | ok bytes =>
    refine (append_still repo session bytes).of_attempt.seq fun r => ?_
    rcases r with (_ | _ | _ | _) | total <;> first | exact Moves.of_pure _ | exact build_still _ _ _

theorem uploadPut_still (session : Str) (digestQuery : Option Str) (body : Option Bytes) :
    Moves still (uploadPut repo session digestQuery body : Handler S) := by
  unfold uploadPut
  cases digestQuery with
  | none => exact Moves.of_pure _
  | some text =>
    simp only
    cases Digest.parse text with
    | error e => exact Moves.of_pure _
    | ok d =>
      simp only
      cases collectBody body maxUpload with
      | error resp => exact Moves.of_pure _
      | ok bytes =>
        have hfinalize : Moves still (finalize (S := S) repo session
            (if bytes.isEmpty then none else some bytes) d) := by
          cases bytes with
          | nil => exact commit_still repo session d
          | cons x bytes => exact (append_still repo session _).seq fun _ => commit_still repo session d
        refine hfinalize.of_attempt.seq fun r => ?_
        rcases r with (_ | _ | _ | _) | total <;>
          first | exact Moves.of_pure _ | exact build_still _ _ _

theorem listTags_still (up : Replies) : Moves still (listTags repo up : Handler S) := by
  refine Moves.of_get.seq fun w => ?_
  refine Moves.of_ite (fun _ => ?_) fun _ => Moves.of_pure _
  cases S.route repo with
  | none => exact Moves.of_pure _
  | some p => exact (call_still _).seq fun _ => Moves.of_pure _

theorem deleteBlobRoute_still (digest : Str) : Moves still (deleteBlobRoute repo digest : Handler S) := by
  unfold deleteBlobRoute
  cases Digest.parse digest with
  | error e => exact Moves.of_pure _
  | ok d =>
    refine (deleteBlob_still d).of_attempt.seq fun r => ?_
    rcases r with (_ | _ | _) | u <;> exact Moves.of_pure _

/-- A request remembers nothing of the tags of other repositories. -/
theorem route_cached (hw : CachedPaths w) (req : Request) (action : Action) {key : Str × Str}
    (hkey : key.1 ≠ repo) : ((route req repo action : Handler S).exec w).2.upstreamTags.lookup key =
      w.upstreamTags.lookup key := by
  have hstill : ∀ {m : Handler S}, Moves still m →
      (m.exec w).2.upstreamTags.lookup key = w.upstreamTags.lookup key :=
    fun hm => congrArg (AList.lookup key) (hm w).1
  have hpull : ∀ reference withBody,
      ((getManifest repo reference withBody req.upstream : Handler S).exec w).2.upstreamTags.lookup key =
        w.upstreamTags.lookup key := fun reference withBody =>
    cached_of_pull (getManifest_pull hw repo reference withBody req.upstream) fun he =>
      hkey (congrArg Prod.fst he)
  have hun : Moves still (route.unsupported : Handler S) := Moves.of_pure _
  cases action with
  | blob d =>
    cases hm : req.method with
    | get => simpa only [route, hm] using hstill (getBlob_still d true req.upstream)
    | head => simpa only [route, hm] using hstill (getBlob_still d false req.upstream)
    | delete => simpa only [route, hm] using hstill (deleteBlobRoute_still d)
    | _ => simpa only [route, hm] using hstill hun
  | manifest reference =>
    cases hm : req.method with
    | get =>
      simp only [route, hm, Prog.exec_map]
      exact hpull reference true
    | head =>
      simp only [route, hm, Prog.exec_map]
      exact hpull reference false
    | put => simpa only [route, hm] using hstill (putManifest_still reference req.contentType req.body)
    | delete => simpa only [route, hm] using hstill (deleteManifest_still reference)
    | _ => simpa only [route, hm] using hstill hun
  | tagsList => exact hstill (Moves.of_ite (fun _ => listTags_still req.upstream) fun _ => hun)
  | uploadInit => exact hstill (Moves.of_ite (fun _ => uploadInit_still repo) fun _ => hun)
  | uploadSession session =>
    cases hm : req.method with
    | patch => simpa only [route, hm] using hstill (uploadPatch_still session req.body)
    | put => simpa only [route, hm] using hstill (uploadPut_still session req.digestQuery req.body)
    | _ => simpa only [route, hm] using hstill hun
  | unknown => exact hstill hun

theorem route_along_univ (req : Request) (action : Action) :
    Moves (Along S repo Set.univ) (route req repo action : Handler S) :=
  route_along (Set.subset_univ _) trivial req action (fun _ _ => trivial) (Set.subset_univ _)

/-- A request leaves the other repositories as they are. -/
theorem route_elsewhere (hw : Ready w) (hrepo : Plain repo) (hr : Plain r) (hne : r ≠ repo)
    (req : Request) (action : Action)
    (hok : ((route req repo action : Handler S).exec w).2.log.ioFailed = false) :
    repoView ((route req repo action : Handler S).exec w).2 r = repoView w r := by
  obtain ⟨-, hsame⟩ := sound_elsewhere (route_along_univ req action w) hrepo hw.sound hok
  have hown := hsame r hr hne
  refine Holdings.ext hown.blobs hown.tags (funext fun t => ?_) hown.uploads
  have hpaths : CachedPaths w := fun r' d m hm => (hw.cache r' d m hm).2.1
  simp only [repoView_cached]
  rw [route_cached hpaths req action hne]

/-- A request keeps the invariants. -/
theorem route_ready (hw : Ready w) (hrepo : Plain repo) (req : Request) (action : Action)
    (hok : ((route req repo action : Handler S).exec w).2.log.ioFailed = false) :
    Ready ((route req repo action : Handler S).exec w).2 := by
  by_cases hinit : action = .uploadInit ∧ req.method = .post
  · obtain ⟨rfl, hm⟩ := hinit
    simp only [route, if_pos hm] at hok ⊢
    exact ready_uploadInit hw hrepo hok
  · have halong : Moves (Along S repo { k | k ≠ .create }) (route req repo action : Handler S) := by
      refine route_along ?_ (by simp) req action (fun ha hm => absurd ⟨ha, hm⟩ hinit) ?_
      · rintro k (rfl | rfl | rfl) <;> simp
      · rintro k hk rfl
        cases hc : routeCommand req.method repo action <;> simp [hc, Command.kinds] at hk
    exact hw.along (halong w) (by simp) hrepo hok

/-! ## Listings of repositories -/

/-- The catalog lists repositories with tags, in order. -/
theorem exec_catalog_view (hw : Ready w) : ∃ names, (catalog : Handler S).exec w =
      (.ok (listing (.repositories names)), w) ∧ names.Pairwise (· ≤ ·) ∧
    ∀ r : PlainName, r.val ∈ names → ∃ t, Listed (view w r) t := by
  unfold catalog
  rw [Prog.exec_bind_ok (Prog.exec_get w)]
  have hrepos : ∃ repos, listRepos S.root w.fs = .ok repos ∧ repos.Pairwise (· ≤ ·) := by
    unfold listRepos
    rw [if_neg (by simp [hw.rooted])]
    exact ⟨_, rfl, List.pairwise_mergeSort' _ _⟩
  obtain ⟨repos, hlist, hsorted⟩ := hrepos
  simp only [hlist]
  refine ⟨_, rfl, hsorted.filter _, fun r hr => ?_⟩
  have htagged := (List.mem_filter.mp hr).2
  simp only [Bool.or_eq_true, Bool.not_eq_true', List.isEmpty_eq_false_iff] at htagged
  have hknown : TagListing.known w r.val ≠ [] := by
    intro h
    obtain ⟨h₁, h₂⟩ := List.append_eq_nil_iff.mp h
    rcases htagged with hne | hne
    · exact hne (List.map_eq_nil_iff.mp h₁)
    · exact hne h₂
  obtain ⟨t, ht⟩ := List.exists_mem_of_ne_nil _ hknown
  exact ⟨t, (listed_iff_known hw.typed).mpr ht⟩

/-! ## Runs -/

/-- The server answers a request. -/
def Exchanges (S : Setup) (w : World S) (e : Exchange) (w' : World S) : Prop :=
  (dispatch e.1 : Handler S).exec w = (.ok e.2, w')

theorem Served.trace {ticks wall : List Nat} {es : List Exchange} (h : Served S ticks wall es w) :
    Trace (Exchanges S) (World.start S ticks wall) es w := by
  induction h with
  | start => exact .nil
  | serve _ hrun ih => exact .snoc ih hrun

theorem served_iff_trace {ticks wall : List Nat} {es : List Exchange} :
    Served S ticks wall es w ↔ Trace (Exchanges S) (World.start S ticks wall) es w := by
  refine ⟨Served.trace, fun h => ?_⟩
  induction h with
  | nil => exact .start
  | @snoc es t u e _ hrun ih => exact .serve ih hrun

/-- One answered request is a step of the service. -/
theorem answers_step {e : Exchange} (hplain : PlainRepo e.1) (hw : Ready w)
    (hok : w'.log.ioFailed = false) (h : Exchanges S w e w') : Ready w' ∧ Shelf.Step S (view w) e (view w') := by
  obtain ⟨req, resp⟩ := e
  by_cases hrepo : (split req.rest).1 = []
  · obtain rfl : w' = w := by
      have hsame := dispatch_unnamed (S := S) hrepo w
      rw [show (dispatch req : Handler S).exec w = _ from h] at hsame
      exact hsame
    refine ⟨hw, ?_⟩
    by_cases hcatalog : req.rest = "_catalog".toList
    · obtain ⟨names, hrun, hsorted, hnames⟩ := exec_catalog_view hw
      have hresp : (dispatch req : Handler S).exec w' = (.ok resp, w') := h
      rw [dispatch, if_pos hcatalog, hrun] at hresp
      cases hresp
      exact .catalog hcatalog rfl hsorted hnames
    · have hresp : (dispatch req : Handler S).exec w' = (.ok resp, w') := h
      rw [dispatch, if_neg hcatalog, if_pos hrepo] at hresp
      cases hresp
      exact .unknown hrepo hcatalog rfl
  · have hname : Plain (split req.rest).1 := hplain hrepo
    have hrun : (route req (split req.rest).1 (split req.rest).2 : Handler S).exec w = (.ok resp, w') := by
      rw [← dispatch_named hrepo]
      exact h
    have hok' : ((route req (split req.rest).1 (split req.rest).2 : Handler S).exec w).2.log.ioFailed =
        false := by rw [hrun]; exact hok
    have hready := route_ready hw hname req _ hok'
    have hserves := route_conforms hw hname req _ resp (by rw [hrun]) hok'
    have helse := fun r hr hne => route_elsewhere (r := r) hw hname hr hne req _ hok'
    rw [hrun] at hready hserves helse
    refine ⟨hready, ?_⟩
    have hview : view w' = Function.update (view w) ⟨_, hname⟩ (repoView w' (split req.rest).1) := by
      funext r
      by_cases hr : r = ⟨_, hname⟩
      · subst hr
        rw [Function.update_self]
        rfl
      · rw [Function.update_of_ne hr]
        exact helse r.val r.property fun he => hr (Subtype.ext he)
    rw [hview]
    exact .named ⟨_, hname⟩ rfl hserves

/-- The server as a refinement of the service. -/
def registry (S : Setup) : Refinement (Exchanges S) (Shelf.Step S) where
  view := view
  inv := Ready
  sane w := w.log.ioFailed = false
  label e := PlainRepo e.1
  sane_before h hok := not_failed_before h hok
  sim hplain hw hok h := answers_step hplain hw hok h

/-- A run ends in a world with the invariants, whose repositories are those of a history of the
service. -/
theorem Served.shelf {ticks wall : List Nat} {es : List Exchange} (h : Served S ticks wall es w)
    (hplain : ∀ e ∈ es, PlainRepo e.1) (hok : w.log.ioFailed = false) :
    Ready w ∧ Trace (Shelf.Step S) Shelf.empty es (view w) := by
  have htrace := (registry S).trace h.trace hplain (ready_start S ticks wall) hok
  have hstart : (registry S).view (World.start S ticks wall) = Shelf.empty := view_start S ticks wall
  rwa [hstart] at htrace

/-- Every run without a failing file-system step is a history of the service, from empty repositories
to those that the files, maps and sessions of the server show. -/
theorem registry_refines_shelf {ticks wall : List Nat} {es : List Exchange}
    (h : Served S ticks wall es w) (hplain : ∀ e ∈ es, PlainRepo e.1) (hok : w.log.ioFailed = false) :
    Trace (Shelf.Step S) Shelf.empty es (view w) := (h.shelf hplain hok).2

/-! A chunk is uploaded, committed and pulled again. -/

def layer : Bytes := Codec.utf8 "layer".toList

def layerDigest : Digest := ManifestPuts.blankServer.digest layer

/-- The session id that is drawn while the clock reads 0. -/
def firstSession : Str := newSessionId 0 ManifestPuts.blankServer.pid

def startUpload : Request := ⟨.post, "app/blobs/uploads/".toList, none, none, none, none, noReplies⟩

def sendLayer : Request :=
  ⟨.patch, "app/blobs/uploads/".toList ++ firstSession, none, none, none, some layer, noReplies⟩

def commitLayer : Request := ⟨.put, "app/blobs/uploads/".toList ++ firstSession, some layerDigest.toStr, none,
  none, some [], noReplies⟩

def pullLayer : Request :=
  ⟨.get, "app/blobs/".toList ++ layerDigest.toStr, none, none, none, none, noReplies⟩

def uploadRequests : List Request := [startUpload, sendLayer, commitLayer, pullLayer]

def uploadResponses : List Response :=
  [sessionAnswer "app".toList firstSession "0-0".toList, sessionAnswer "app".toList firstSession "0-4".toList,
    uploadedAnswer "app".toList layerDigest, blobAnswer layerDigest 5 layer true]

def uploadExchanges : List Exchange := uploadRequests.zip uploadResponses

/-- The run has these responses, no step fails, and no two stored byte strings collide. -/
theorem upload_run : ∃ w : World ManifestPuts.blankServer,
    Served ManifestPuts.blankServer [] [] uploadExchanges w ∧ (∀ e ∈ uploadExchanges, PlainRepo e.1) ∧
      w.log.ioFailed = false ∧ CollisionFree ManifestPuts.blankServer w.log.stored := by
  have hrun : ((serveAll ManifestPuts.fresh uploadRequests).map fun p => (p.1.map Prod.snd,
      p.2.log.ioFailed, decide (CollisionFree ManifestPuts.blankServer p.2.log.stored))) =
        some (uploadResponses, false, true) := by decide +kernel
  obtain ⟨⟨es, w⟩, hall, hpair⟩ := Option.map_eq_some_iff.mp hrun
  obtain ⟨hresponses, hrest⟩ := Prod.mk.inj hpair
  obtain ⟨hok, hfree⟩ := Prod.mk.inj hrest
  obtain rfl : es = uploadExchanges := List.zip_of_prod (serveAll_requests hall) hresponses
  exact ⟨w, Served.serveAll hall, plain_serveAll hall (by decide), hok, of_decide_eq_true hfree⟩

theorem upload_is_shelf_history : ∃ w : World ManifestPuts.blankServer,
    Trace (Shelf.Step ManifestPuts.blankServer) Shelf.empty uploadExchanges (view w) := by
  obtain ⟨w, hserved, hplain, hok, -⟩ := upload_run
  exact ⟨w, registry_refines_shelf hserved hplain hok⟩

end Quill.Registry
