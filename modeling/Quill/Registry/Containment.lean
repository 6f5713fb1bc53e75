import Quill.Registry.Footprint
import Quill.Storage.Codec
import Mathlib.Algebra.Order.BigOperators.Group.List

/-!
# Requests and the storage root

The name of a repository is joined to the storage root as it was received. `Contained rest`
says that no request for `rest` changes anything at a path that is not strictly inside the
root, and that nothing at such a path has an influence on the answer or on what is written. It
is about every storage root, every orderly world in which the root exists (start-up
creates it), every method, query, body and upstream.

A repository name stays inside when it is relative and when its components never lead above their
start (`Descends`). `requests_stay_inside_iff` shows that this is needed as soon as the
action reaches files at all: other names lead out of some root.
-/

namespace Quill.Registry

open Text Files Cas World LocalStorage Uploads LocalTags PullThrough

/-! ## Names that descend -/

/-- From `depth` levels below the start, the components never lead above the start. -/
def descends : Nat → List Str → Bool
  | _, [] => true
  | depth, seg :: segs =>
    if seg = ['.', '.'] then depth ≠ 0 && descends (depth - 1) segs
    else if ValidName seg then descends (depth + 1) segs
    else descends depth segs

/-- The name is relative and never leads above the directory that it is joined to. -/
def Descends (repo : Str) : Prop :=
  repo.head? ≠ some '/' ∧ descends 0 (repo.splitOn '/') = true

instance (repo : Str) : Decidable (Descends repo) := inferInstanceAs (Decidable (_ ∧ _))

theorem resolve_cons (p : Path) (seg : Str) (segs : List Str) :
    resolve p (seg :: segs) = resolve (enter p seg) segs := rfl

theorem suffix_resolve {root : Path} (segs : List Str) (above : Path)
    (h : descends above.length segs = true) : root <:+ resolve (above ++ root) segs := by
  induction segs generalizing above with
  | nil => exact List.suffix_append _ _
  | cons seg segs ih =>
    rw [resolve_cons]
    unfold descends at h
    unfold enter
    by_cases hup : seg = ['.', '.']
    · simp only [if_pos hup, Bool.and_eq_true, decide_eq_true_eq] at h ⊢
      obtain ⟨hne, hrest⟩ := h
      cases above with
      | nil => exact absurd rfl hne
      | cons n above => exact ih above hrest
    · simp only [if_neg hup] at h ⊢
      by_cases hvalid : ValidName seg
      · simp only [if_pos hvalid] at h
        rw [dif_pos hvalid]
        exact ih (⟨seg, hvalid⟩ :: above) h
      · simp only [if_neg hvalid] at h
        rw [dif_neg hvalid]
        exact ih above h

theorem Descends.suffix {repo : Str} (h : Descends repo) (root : Path) :
    root <:+ repoDir root repo := by
  unfold repoDir join
  rw [if_neg h.1]
  exact suffix_resolve _ [] h.2

theorem mem_enter {n : Name} {p : Path} {seg : Str} (h : n ∈ enter p seg) : n ∈ p ∨ seg = n.val := by
  unfold enter at h
  split at h
  · exact Or.inl (List.mem_of_mem_tail h)
  · split at h
    · rcases List.mem_cons.mp h with rfl | h
      · exact Or.inr rfl
      · exact Or.inl h
    · exact Or.inl h

theorem notMem_resolve {n : Name} (segs : List Str) (hsegs : n.val ∉ segs) {p : Path} (hp : n ∉ p) :
    n ∉ resolve p segs := by
  induction segs generalizing p with
  | nil => exact hp
  | cons seg segs ih =>
    rw [List.mem_cons, not_or] at hsegs
    rw [resolve_cons]
    refine ih hsegs.2 fun hmem => ?_
    rcases mem_enter hmem with h | h
    · exact hp h
    · exact hsegs.1 h.symm

/-- Components that lead above their start leave a directory whose name they do not hold. -/
theorem notMem_of_not_descends {n : Name} (segs : List Str) (hsegs : n.val ∉ segs) (above : Path)
    (habove : n ∉ above) (h : descends above.length segs = false) :
    n ∉ resolve (above ++ [n]) segs := by
  induction segs generalizing above with
  | nil => simp [descends] at h
  | cons seg segs ih =>
    rw [List.mem_cons, not_or] at hsegs
    rw [resolve_cons]
    unfold descends at h
    unfold enter
    by_cases hup : seg = ['.', '.']
    · simp only [if_pos hup] at h ⊢
      cases above with
      | nil => exact notMem_resolve segs hsegs.2 (List.not_mem_nil)
      | cons m above =>
        have hrest : descends above.length segs = false := by simpa using h
        exact ih hsegs.2 above (fun hm => habove (List.mem_cons_of_mem _ hm)) hrest
    · simp only [if_neg hup] at h ⊢
      by_cases hvalid : ValidName seg
      · simp only [if_pos hvalid] at h
        rw [dif_pos hvalid]
        refine ih hsegs.2 (⟨seg, hvalid⟩ :: above) (fun hm => ?_) h
        rcases List.mem_cons.mp hm with he | hm
        · exact hsegs.1 (congrArg Subtype.val he)
        · exact habove hm
      · simp only [if_neg hvalid] at h
        rw [dif_neg hvalid]
        exact ih hsegs.2 above habove h

/-- A name made of a letter that no fixed name of the layout is made of. -/
def longName (k : Nat) : Name :=
  ⟨List.replicate (k + 1) 'z', by simp [List.replicate_succ], by simp [List.replicate_succ],
    by simp [List.replicate_succ], by simp [List.mem_replicate]⟩

theorem longName_ne {k : Nat} {n : Name} {c : Char} (hc : c ∈ n.val) (hz : c ≠ 'z') :
    longName k ≠ n := by
  rintro rfl
  exact hz (List.eq_of_mem_replicate hc)

/-- For a name that does not descend there is a root that it leads out of. -/
theorem exists_root_outside {repo : Str} (h : ¬ Descends repo) :
    ∃ k, longName k ∉ repoDir [longName k] repo := by
  let segs := repo.splitOn '/'
  let k := (segs.map List.length).sum
  have hfresh : (longName k).val ∉ segs := by
    intro hmem
    have hle := List.single_le_sum (l := segs.map List.length) (fun _ _ => Nat.zero_le _) _
      (List.mem_map_of_mem hmem)
    simp only [longName, List.length_replicate] at hle
    omega
  refine ⟨k, ?_⟩
  unfold repoDir join
  by_cases habs : repo.head? = some '/'
  · rw [if_pos habs]
    exact notMem_resolve segs hfresh List.not_mem_nil
  · rw [if_neg habs]
    have hclimb : descends 0 segs = false := by
      by_contra hne
      exact h ⟨habs, by simpa using hne⟩
    exact notMem_of_not_descends segs hfresh [] List.not_mem_nil hclimb

/-! ## Containment -/

/-- The path is strictly inside the directory. -/
def Inside (root p : Path) : Prop := root <:+ p ∧ p ≠ root

/-- The storage root and the directories above it exist. -/
def Rooted {S : Setup} (w : World S) : Prop := ∀ p, p <:+ S.root → w.fs.isDir p = true

/-- A request with this path touches nothing outside of the root and learns nothing about it, in any
server. -/
structure Contained (rest : Str) : Prop where
  /-- Nothing changes outside of the root. -/
  untouched : ∀ S : Setup, SessionRoundtrip S → ∀ (w : World S) (req : Request), req.rest = rest →
    Orderly w → Rooted w → ∀ p, ¬ Inside S.root p →
      ((dispatch req : Handler S).exec w).2.fs.read p = w.fs.read p ∧
        ((dispatch req : Handler S).exec w).2.fs.isDir p = w.fs.isDir p
  /-- Nothing outside of the root has an influence. -/
  unread : rest ≠ "_catalog".toList → ∀ S : Setup, SessionRoundtrip S →
    ∀ (w : World S) (fs : Fs) (req : Request), req.rest = rest → Orderly w →
      Orderly { w with fs := fs } → Rooted w → Rooted { w with fs := fs } →
      (∀ p, Inside S.root p → fs.node p = w.fs.node p) →
        ((dispatch req : Handler S).exec { w with fs := fs }).1 = ((dispatch req : Handler S).exec w).1 ∧
          ∀ p, Inside S.root p → ((dispatch req : Handler S).exec { w with fs := fs }).2.fs.node p =
            ((dispatch req : Handler S).exec w).2.fs.node p

/-- Some method of the action builds paths and uses them. -/
def Reaches : Action → Prop
  | .blob digest => ∃ d, Digest.parse digest = .ok d
  | .manifest _ => True
  | .uploadInit => True
  | .uploadSession session => ∃ nanos pid, session = newSessionId nanos pid
  | .tagsList => False
  | .unknown => False

variable {S : Setup} {repo : Str}

/-! ### Actions that reach no file -/

theorem exec_listTags_fs (up : Replies) (w : World S) (fs : Fs) :
    (listTags repo up : Handler S).exec { w with fs := fs } =
      (((listTags repo up : Handler S).exec w).1,
        { ((listTags repo up : Handler S).exec w).2 with fs := fs }) := by
  unfold listTags
  rw [Prog.exec_bind_ok (Prog.exec_get _), Prog.exec_bind_ok (Prog.exec_get _)]
  have hknown : TagCache.listForRepo { w with fs := fs } repo = TagCache.listForRepo w repo := rfl
  simp only [hknown]
  generalize (LocalTags.listForRepo w.localTags repo).map Prod.fst ++
    TagCache.listForRepo w repo = known
  by_cases hempty : known.isEmpty = true
  · simp only [if_pos hempty]
    cases S.route repo with
    | none => rfl
    | some p => rfl
  · simp only [if_neg hempty]
    rfl

/-- A session that no server can have given out is not known. -/
theorem lookup_unissued {w : World S} (hw : Orderly w) {session : Str} (h : ¬ Issued S session) :
    w.sessions.lookup (repo, session) = none := by
  cases hlook : w.sessions.lookup (repo, session) with
  | none => rfl
  | some st => exact absurd (hw.sessions repo session st hlook).2 h

section Missing

variable {w : World S} {session : Str} (h : w.sessions.lookup (repo, session) = none)

include h

theorem exec_append_missing (chunk : Bytes) :
    (append repo session chunk).exec w = (.error (.notFound session), w) := by
  unfold append
  rw [Prog.exec_bind_ok (Prog.exec_get w)]
  simp only [h, Prog.exec_throw]

theorem exec_commit_missing (d : Digest) :
    (commit repo session d).exec w = (.error (.notFound session), w) := by
  unfold commit
  rw [Prog.exec_bind_ok (Prog.exec_get w)]
  simp only [h, Prog.exec_throw]

theorem exec_finalize_missing (last : Option Bytes) (d : Digest) :
    (finalize repo session last d).exec w = (.error (.notFound session), w) := by
  unfold finalize
  cases last with
  | none => exact exec_commit_missing h d
  | some chunk =>
    simp only
    split
    · exact exec_commit_missing h d
    · exact Prog.exec_bind_error (exec_append_missing h chunk)

end Missing

theorem exec_uploadPatch_missing (session : Str) (body : Option Bytes) :
    ∃ resp, ∀ w' : World S, w'.sessions.lookup (repo, session) = none →
      (uploadPatch repo session body : Handler S).exec w' = (.ok resp, w') := by
  unfold uploadPatch
  cases collectBody body maxUpload with
  | error resp => exact ⟨resp, fun _ _ => rfl⟩
  | ok bytes =>
    refine ⟨sessionNotFound, fun w' hw' => ?_⟩
    exact Prog.exec_bind_ok (Prog.exec_attempt_eq.mpr (exec_append_missing hw' bytes))

theorem exec_uploadPut_missing (session : Str) (digestQuery : Option Str) (body : Option Bytes) :
    ∃ resp, ∀ w' : World S, w'.sessions.lookup (repo, session) = none →
      (uploadPut repo session digestQuery body : Handler S).exec w' = (.ok resp, w') := by
  unfold uploadPut
  cases digestQuery with
  | none => exact ⟨_, fun _ _ => rfl⟩
  | some text =>
    simp only
    cases Digest.parse text with
    | error e => exact ⟨_, fun _ _ => rfl⟩
    | ok d =>
      simp only
      cases collectBody body maxUpload with
      | error resp => exact ⟨resp, fun _ _ => rfl⟩
      | ok bytes =>
        refine ⟨sessionNotFound, fun w' hw' => ?_⟩
        exact Prog.exec_bind_ok (Prog.exec_attempt_eq.mpr (exec_finalize_missing hw' _ d))

/-- A program with a fixed answer that changes nothing. -/
theorem exec_fs_of_fixed {m : Handler S} {w : World S} {fs : Fs} {resp : Response}
    (h : m.exec w = (.ok resp, w)) (h' : m.exec { w with fs := fs } = (.ok resp, { w with fs := fs })) :
    m.exec { w with fs := fs } = ((m.exec w).1, { (m.exec w).2 with fs := fs }) := by
  rw [h, h']

theorem exec_route_unreached {w : World S} (hw : Orderly w) (req : Request) {action : Action}
    (h : ¬ Reaches action) (fs : Fs) :
    (route req repo action : Handler S).exec { w with fs := fs } =
      (((route req repo action : Handler S).exec w).1,
        { ((route req repo action : Handler S).exec w).2 with fs := fs }) := by
  cases action with
  | blob digest =>
    have herror : ∃ e, Digest.parse digest = .error e := by
      cases hd : Digest.parse digest with
      | error e => exact ⟨e, rfl⟩
      | ok d => exact absurd ⟨d, hd⟩ h
    obtain ⟨e, he⟩ := herror
    unfold route
    cases req.method <;> simp only [getBlob, deleteBlobRoute, he] <;> rfl
  | manifest r => exact absurd trivial h
  | tagsList =>
    simp only [route]
    by_cases hm : req.method = .get
    · simp only [if_pos hm]
      exact exec_listTags_fs req.upstream w fs
    · simp only [if_neg hm]
      rfl
  | uploadInit => exact absurd trivial h
  | uploadSession session =>
    have hlook : w.sessions.lookup (repo, session) = none :=
      lookup_unissued hw fun hissued => h (hissued.imp fun _ he => ⟨S.pid, he⟩)
    have hlook' : ({ w with fs := fs } : World S).sessions.lookup (repo, session) = none := hlook
    unfold route
    cases req.method with
    | patch =>
      obtain ⟨resp, hresp⟩ := exec_uploadPatch_missing (S := S) session req.body
      exact exec_fs_of_fixed (hresp w hlook) (hresp _ hlook')
    | put =>
      obtain ⟨resp, hresp⟩ := exec_uploadPut_missing (S := S) session req.digestQuery req.body
      exact exec_fs_of_fixed (hresp w hlook) (hresp _ hlook')
    | _ => rfl
  | unknown => rfl

theorem exec_dispatch_unreached {w : World S} (hw : Orderly w) (req : Request)
    (hcatalog : req.rest ≠ "_catalog".toList)
    (h : (split req.rest).1 ≠ [] → ¬ Reaches (split req.rest).2) (fs : Fs) :
    (dispatch req : Handler S).exec { w with fs := fs } =
      (((dispatch req : Handler S).exec w).1,
        { ((dispatch req : Handler S).exec w).2 with fs := fs }) := by
  unfold dispatch
  rw [if_neg hcatalog]
  by_cases hrepo : (split req.rest).1 = []
  · rw [if_pos hrepo]
    rfl
  · rw [if_neg hrepo]
    exact exec_route_unreached hw req (h hrepo) fs

/-! ### Names that descend stay inside -/

/-- A changed path is strictly inside the root, or was a directory before and is one now. -/
theorem unchanged_outside {fs fs' : Fs} (hdesc : S.root <:+ repoDir S.root repo)
    (h : (footprint S repo).Changes fs fs') (hroot : ∀ p, p <:+ S.root → fs.isDir p = true) {p : Path}
    (hp : ¬ Inside S.root p) : fs'.read p = fs.read p ∧ fs'.isDir p = fs.isDir p := by
  by_cases habove : p <:+ S.root
  · have hdir := hroot p habove
    have hdir' := h.dirs p hdir
    have hread : ∀ {t : Fs}, t.isDir p = true → p ≠ [] → t.read p = none := by
      intro t ht hne
      rw [Fs.read, (Fs.isDir_iff.mp ht).resolve_left hne]
    refine ⟨?_, hdir'.trans hdir.symm⟩
    by_cases hnil : p = []
    · subst hnil
      refine Fs.read_congr (h.outside fun hmem => ?_)
      exact hmem.1 rfl
    · rw [hread hdir hnil, hread hdir' hnil]
  · have hnode : fs'.node p = fs.node p := by
      refine h.outside fun hmem => ?_
      have hcases : p <:+ S.root ∨ S.root <:+ p := by
        rcases hmem.2 with hpr | hpr
        · exact List.suffix_or_suffix_of_suffix hpr hdesc
        · exact Or.inr (hdesc.trans hpr)
      have hin := hcases.resolve_left habove
      exact hp ⟨hin, fun he => habove (he ▸ List.suffix_refl _)⟩
    exact ⟨Fs.read_congr hnode, Fs.isDir_congr hnode⟩

theorem alike_of_inside {w : World S} {fs : Fs} (hdesc : S.root <:+ repoDir S.root repo)
    (hroot : Rooted w) (hroot' : Rooted { w with fs := fs })
    (h : ∀ p, Inside S.root p → fs.node p = w.fs.node p) :
    (confinement S repo).alike w { w with fs := fs } := by
  refine ⟨fs, rfl, fun p hp => ?_⟩
  by_cases habove : p <:+ S.root
  · have hdir := (Fs.isDir_iff.mp (hroot p habove)).resolve_left hp.1
    have hdir' := (Fs.isDir_iff.mp (hroot' p habove)).resolve_left hp.1
    exact hdir'.trans hdir.symm
  · have hcases : p <:+ S.root ∨ S.root <:+ p := by
      rcases hp.2 with hpr | hpr
      · exact List.suffix_or_suffix_of_suffix hpr hdesc
      · exact Or.inr (hdesc.trans hpr)
    exact h p ⟨hcases.resolve_left habove, fun he => habove (he ▸ List.suffix_refl _)⟩

/-- The inside of the root is in the footprint, or does not change. -/
theorem inside_agrees {fs₁ fs₂ fs₁' fs₂' : Fs} (h₁ : (footprint S repo).Changes fs₁ fs₁')
    (h₂ : (footprint S repo).Changes fs₂ fs₂') (hlike : (footprint S repo).confinement.alike fs₁' fs₂')
    {p : Path} (h : fs₂.node p = fs₁.node p) : fs₂'.node p = fs₁'.node p := by
  by_cases hp : p ∈ (footprint S repo).look
  · exact hlike p hp
  · rw [h₁.outside hp, h₂.outside hp, h]

theorem contained_of_descends {rest : Str}
    (h : (split rest).1 ≠ [] → Reaches (split rest).2 → Descends (split rest).1) : Contained rest := by
  by_cases hcatalog : rest = "_catalog".toList
  · refine ⟨fun S _ w req hrest _ _ p _ => ?_, fun hne => absurd hcatalog hne⟩
    have hsame : ((dispatch req : Handler S).exec w).2 = w := by
      unfold dispatch
      rw [if_pos (hrest.trans hcatalog)]
      exact exec_catalog w
    rw [hsame]
    exact ⟨rfl, rfl⟩
  · by_cases hreach : (split rest).1 ≠ [] ∧ Reaches (split rest).2
    · have hdesc := h hreach.1 hreach.2
      refine ⟨fun S hserde w req hrest hw hroot p hp => ?_,
        fun _ S hserde w fs req hrest hw hw' hroot hroot' hsame => ?_⟩
      · subst hrest
        exact unchanged_outside (hdesc.suffix S.root) ((dispatch_stays hserde req hcatalog).change hw)
          hroot hp
      · subst hrest
        have hstays := dispatch_stays hserde req hcatalog
        have hlike := alike_of_inside (hdesc.suffix S.root) hroot hroot' hsame
        obtain ⟨hout, fs', hend, hfs'⟩ := hstays.alike hw hw' hlike
        refine ⟨hout.symm, fun p hp => ?_⟩
        have hlike' : (footprint S (split req.rest).1).confinement.alike
            ((dispatch req : Handler S).exec w).2.fs
            ((dispatch req : Handler S).exec { w with fs := fs }).2.fs := by
          rw [hend]
          exact hfs'
        exact inside_agrees (hstays.change hw) (hstays.change hw') hlike' (hsame p hp)
    · have hun : (split rest).1 ≠ [] → ¬ Reaches (split rest).2 := fun hne hr => hreach ⟨hne, hr⟩
      refine ⟨fun S _ w req hrest hw _ p _ => ?_, fun _ S _ w fs req hrest hw _ _ _ hsame => ?_⟩
      · subst hrest
        have hexec := exec_dispatch_unreached hw req hcatalog hun w.fs
        have hfs : ((dispatch req : Handler S).exec w).2.fs = w.fs :=
          congrArg (fun r : Except Abort Response × World S => r.2.fs) hexec
        rw [hfs]
        exact ⟨rfl, rfl⟩
      · subst hrest
        have hself := exec_dispatch_unreached hw req hcatalog hun w.fs
        have hfs : ((dispatch req : Handler S).exec w).2.fs = w.fs :=
          congrArg (fun r : Except Abort Response × World S => r.2.fs) hself
        rw [exec_dispatch_unreached hw req hcatalog hun fs, hfs]
        exact ⟨rfl, hsame⟩

/-! ### Other names lead out of some root -/

section Escapes

/-- A server without upstreams that lists no session records. -/
def plainSetup (root : Path) (pid : Nat) : Setup where
  hash := Sha256.streaming
  serde := Codec.serde [] []
  root := root
  metaTtl := 30
  tagTtl := 300
  upstreams := []
  pid := pid

/-- That server on given files, with given sessions. -/
def plainWorld (root : Path) (pid : Nat) (fs : Fs)
    (sessions : AList fun _ : Str × Str => UploadState (plainSetup root pid).hash) :
    World (plainSetup root pid) :=
  { World.start (plainSetup root pid) [] [] with fs := fs, sessions := sessions }

theorem sessionRoundtrip_plain (root : Path) (pid : Nat) : SessionRoundtrip (plainSetup root pid) := by
  intro m m' h
  cases h

theorem orderly_plain {root : Path} {pid : Nat} {fs : Fs}
    {sessions : AList fun _ : Str × Str => UploadState (plainSetup root pid).hash}
    (h : ∀ repo session st, sessions.lookup (repo, session) = some st →
      st.dataPath = dataPath root repo session ∧ Issued (plainSetup root pid) session) :
    Orderly (plainWorld root pid fs sessions) := by
  refine ⟨fun p b _ n q session m _ _ hm => ?_, fun repo d m hm => ?_, h⟩
  · cases hm
  · cases hm

theorem orderly_plain_empty (root : Path) (pid : Nat) (fs : Fs) :
    Orderly (plainWorld root pid fs ∅) :=
  orderly_plain fun repo session st hst => by cases hst

theorem node_emptyRoot_self (n : Name) : (emptyRoot [n]).node [n] = some .dir := by
  rw [node_emptyRoot, if_pos ⟨List.suffix_refl _, List.cons_ne_nil _ _⟩]

theorem node_emptyRoot_notMem {n : Name} {p : Path} (h : n ∉ p) : (emptyRoot [n]).node p = none := by
  rw [node_emptyRoot, if_neg]
  rintro ⟨hp, hne⟩
  rcases List.suffix_cons_iff.mp hp with rfl | hp
  · exact h (List.mem_singleton_self n)
  · exact hne (List.suffix_nil.mp hp)

theorem rooted_plain {n : Name} {pid : Nat} {fs : Fs}
    {sessions : AList fun _ : Str × Str => UploadState (plainSetup [n] pid).hash}
    (h : fs.node [n] = some .dir) : Rooted (plainWorld [n] pid fs sessions) := by
  intro p hp
  rcases List.suffix_cons_iff.mp hp with rfl | hp
  · exact Fs.isDir_cons.mpr h
  · rw [List.suffix_nil.mp hp]
    rfl

theorem not_inside_of_notMem {n : Name} {p : Path} (h : n ∉ p) : ¬ Inside [n] p :=
  fun hin => h (hin.1.subset (List.mem_singleton_self n))

theorem ne_catalog {rest : Str} (h : (split rest).1 ≠ []) : rest ≠ "_catalog".toList := by
  rintro rfl
  exact h (by decide)

theorem exec_dispatch_route {rest : Str} (h : (split rest).1 ≠ []) {req : Request}
    (hreq : req.rest = rest) :
    (dispatch req : Handler S) = route req (split rest).1 (split rest).2 := by
  unfold dispatch
  rw [hreq, if_neg (ne_catalog h), if_neg h]

/-- A request without query, headers, body and upstream. -/
def bareRequest (method : Method) (rest : Str) : Request :=
  ⟨method, rest, none, none, none, none, ⟨none, none, none, none⟩⟩

/-- A chunk for a session whose data file cannot be opened. -/
theorem exec_append_failed {w : World S} {repo session : Str} {st : UploadState S.hash} {e : IoKind}
    {chunk : Bytes} (hlook : w.sessions.lookup (repo, session) = some st)
    (hopen : st.finalized = false)
    (hfile : (Fs.appendFile st.dataPath chunk).exec w.fs = (.error e, w.fs)) :
    (append repo session chunk).exec w = (.error (.io e), w.failed) := by
  unfold append
  rw [Prog.exec_bind_ok (Prog.exec_get w)]
  simp only [hlook, hopen, Bool.false_eq_true, if_false]
  exact Prog.exec_bind_error (exec_mapError_error (exec_onFs_error hfile))

/-- A request that creates the directories of its repository. -/
theorem not_contained_of_ensures {rest : Str} (req : Request) (hreq : req.rest = rest)
    (hensures : ∀ S : Setup, SessionRoundtrip S → ∃ k, (dispatch req : Handler S) =
      (ensureRepo (split rest).1).attempt >>= k ∧ ∀ r, Stays S (split rest).1 (k r))
    (hdesc : ¬ Descends (split rest).1) : ¬ Contained rest := by
  intro hcont
  obtain ⟨k, hk⟩ := exists_root_outside hdesc
  let n := longName k
  let path := blobsDir [n] (split rest).1
  have hout : n ∉ path := by
    simp only [path, blobsDir, List.mem_cons, not_or]
    exact ⟨longName_ne (c := 's') (by decide) (by decide),
      longName_ne (c := 'b') (by decide) (by decide), hk⟩
  have hroot : (emptyRoot [n]).node [n] = some .dir := node_emptyRoot_self n
  have hw := orderly_plain_empty [n] 0 (emptyRoot [n])
  obtain ⟨-, hsame⟩ := hcont.untouched (plainSetup [n] 0) (sessionRoundtrip_plain [n] 0)
    (plainWorld [n] 0 (emptyRoot [n]) ∅) req hreq hw (rooted_plain hroot) path
    (not_inside_of_notMem hout)
  obtain ⟨k', he, hk'⟩ := hensures (plainSetup [n] 0) (sessionRoundtrip_plain [n] 0)
  have hdir := isDir_of_ensures hk' hw (fun q _ => read_emptyRoot [n] q) (List.suffix_refl _)
  rw [he] at hsame
  have hbefore : (emptyRoot [n]).isDir path = true := hsame.symm.trans hdir
  rcases Fs.isDir_iff.mp hbefore with hnil | hnode
  · exact absurd hnil (List.cons_ne_nil _ _)
  · rw [node_emptyRoot_notMem hout] at hnode
    cases hnode

variable {rest : Str} (hrepo : (split rest).1 ≠ [])

include hrepo

theorem not_contained_blob {digest : Str} {d : Digest} (haction : (split rest).2 = .blob digest)
    (hd : Digest.parse digest = .ok d) (hdesc : ¬ Descends (split rest).1) : ¬ Contained rest := by
  intro hcont
  obtain ⟨k, hk⟩ := exists_root_outside hdesc
  let n := longName k
  let path := blobPath [n] (split rest).1 d
  have hout : n ∉ path := by
    simp only [path, blobPath, blobsDir, List.mem_cons, not_or]
    refine ⟨fun he => ?_, longName_ne (c := 's') (by decide) (by decide),
      longName_ne (c := 'b') (by decide) (by decide), hk⟩
    have hz : 'z' ∈ d.hex.val := by
      have hval : (longName k).val = d.hex.val := congrArg Subtype.val he
      rw [← hval]
      simp [longName]
    exact absurd (d.hex.property.2 _ hz) (by decide)
  let fs := (emptyRoot [n]).set path (.file [])
  have hpath : path ≠ [n] := fun he => hout (he ▸ List.mem_singleton_self n)
  have hread : fs.read path = some [] := by
    rw [Fs.read_eq_some, Fs.node_set, if_pos rfl]
  have hroot : fs.node [n] = some .dir := by
    rw [Fs.node_set, if_neg hpath.symm]
    exact node_emptyRoot_self n
  obtain ⟨hsame, -⟩ := hcont.untouched (plainSetup [n] 0) (sessionRoundtrip_plain [n] 0)
    (plainWorld [n] 0 fs ∅) (bareRequest .delete rest) rfl (orderly_plain_empty [n] 0 fs)
    (rooted_plain hroot) path (not_inside_of_notMem hout)
  have hremove : (Fs.removeFile path).exec fs = (.ok (), fs.del path) := by
    rcases Fs.exec_removeFile path fs with ⟨b, -, he⟩ | ⟨hnone, -⟩
    · exact he
    · rw [hread] at hnone
      cases hnone
  have hgone : ((dispatch (bareRequest .delete rest) : Handler (plainSetup [n] 0)).exec
      (plainWorld [n] 0 fs ∅)).2.fs = fs.del path := by
    have hprobe : (probeFs (Fs.removeFile path)).attempt.exec (plainWorld [n] 0 fs ∅) =
        ((.ok (.ok ()) : Except StorageError (Except IoKind Unit)),
          plainWorld [n] 0 (fs.del path) ∅) := by
      simp only [Prog.exec_attempt, probeFs, Prog.exec_ofFun]
      rw [show (plainWorld [n] 0 fs ∅).fs = fs from rfl, hremove]
      rfl
    have hdelete : (deleteBlob (S := plainSetup [n] 0) (split rest).1 d).exec (plainWorld [n] 0 fs ∅) =
        _ := Prog.exec_bind_ok hprobe
    rw [exec_dispatch_route hrepo rfl, haction]
    simp only [route, bareRequest, deleteBlobRoute, hd]
    rw [Prog.exec_bind_ok (Prog.exec_attempt_eq.mpr hdelete)]
    rfl
  have hnone : fs.read path = none := by
    rw [← show (plainWorld [n] 0 fs ∅).fs.read path = fs.read path from rfl, ← hsame, hgone, Fs.read,
      Fs.node_del, if_pos rfl]
  rw [hread] at hnone
  cases hnone

theorem not_contained_session {session : Str} {nanos pid : Nat}
    (haction : (split rest).2 = .uploadSession session) (hsession : session = newSessionId nanos pid)
    (hdesc : ¬ Descends (split rest).1) : ¬ Contained rest := by
  intro hcont
  obtain ⟨k, hk⟩ := exists_root_outside hdesc
  let n := longName k
  let path := dataPath [n] (split rest).1 session
  have hissued : Issued (plainSetup [n] pid) session := ⟨nanos, hsession⟩
  obtain ⟨m, hm, hjoin⟩ := hissued.join_eq (t := ".data".toList) (by decide) (by decide)
    (uploadsDir [n] (split rest).1)
  have hpath_eq : path = m :: uploadsDir [n] (split rest).1 := hjoin
  have hout : n ∉ path := by
    rw [hpath_eq]
    simp only [uploadsDir, List.mem_cons, not_or]
    refine ⟨longName_ne (c := '.') ?_ (by decide), longName_ne (c := '_') (by decide) (by decide), hk⟩
    rw [hm]
    simp
  let st : UploadState (plainSetup [n] pid).hash :=
    ⟨⟨session, (split rest).1, 0, 0, 0⟩, (plainSetup [n] pid).hash.new, path, false⟩
  let sessions : AList fun _ : Str × Str => UploadState (plainSetup [n] pid).hash :=
    AList.insert ((split rest).1, session) st ∅
  have horderly : ∀ fs, Orderly (plainWorld [n] pid fs sessions) := by
    intro fs
    refine orderly_plain fun repo' session' st' hst => ?_
    by_cases hkey : (repo', session') = ((split rest).1, session)
    · cases hkey
      rw [AList.lookup_insert] at hst
      cases hst
      exact ⟨rfl, hissued⟩
    · rw [AList.lookup_insert_ne hkey] at hst
      cases hst
  let fs := (emptyRoot [n]).set path .dir
  have hroot : (emptyRoot [n]).node [n] = some .dir := node_emptyRoot_self n
  have hroot' : fs.node [n] = some .dir := by
    rw [Fs.node_set]
    split
    · rfl
    · exact hroot
  have hinside : ∀ p, Inside [n] p → fs.node p = (emptyRoot [n]).node p := by
    intro p hp
    rw [Fs.node_set, if_neg]
    rintro rfl
    exact not_inside_of_notMem hout hp
  have hanswer : ∀ (files : Fs) (e : IoKind),
      (Fs.appendFile path []).exec files = (.error e, files) →
      ((dispatch { bareRequest .patch rest with body := some [] } :
        Handler (plainSetup [n] pid)).exec (plainWorld [n] pid files sessions)).1 =
          .ok (internalErr (.upload (.io e))) := by
    intro files e hfile
    have hlook : (plainWorld [n] pid files sessions).sessions.lookup ((split rest).1, session) =
        some st := AList.lookup_insert _
    have happend := exec_append_failed hlook rfl hfile
    rw [exec_dispatch_route hrepo rfl, haction]
    simp only [route, bareRequest, uploadPatch, collectBody]
    rw [if_neg (by decide)]
    simp only
    rw [Prog.exec_bind_ok (Prog.exec_attempt_eq.mpr happend)]
    rfl
  obtain ⟨hsame, -⟩ := hcont.unread (ne_catalog hrepo) (plainSetup [n] pid)
    (sessionRoundtrip_plain [n] pid) (plainWorld [n] pid (emptyRoot [n]) sessions) fs
    { bareRequest .patch rest with body := some [] } rfl (horderly _) (horderly _)
    (rooted_plain hroot) (rooted_plain hroot') hinside
  have hdir : (Fs.appendFile path []).exec fs = (.error .other, fs) := by
    simp only [Fs.appendFile, Fs.exec_io, fs, Fs.node_set, if_true]
  have hmissing : (Fs.appendFile path []).exec (emptyRoot [n]) = (.error .notFound, emptyRoot [n]) := by
    simp only [Fs.appendFile, Fs.exec_io, node_emptyRoot_notMem hout]
  have hother := hanswer fs .other hdir
  have hnone := hanswer (emptyRoot [n]) .notFound hmissing
  have hboth := (hother.symm.trans hsame).trans hnone
  simp [internalErr, errorResponse] at hboth

end Escapes

/-- Requests stay inside of the storage root exactly when the name of their repository never
leads above its start, or when their action reaches no file. -/
theorem requests_stay_inside_iff (rest : Str) :
    Contained rest ↔
      ((split rest).1 ≠ [] → Reaches (split rest).2 → Descends (split rest).1) := by
  refine ⟨fun hcont hrepo hreach => ?_, contained_of_descends⟩
  by_contra hdesc
  cases haction : (split rest).2 with
  | blob digest =>
    rw [haction] at hreach
    obtain ⟨d, hd⟩ := hreach
    exact not_contained_blob hrepo haction hd hdesc hcont
  | manifest r =>
    refine not_contained_of_ensures (bareRequest .put rest) rfl (fun S hserde => ?_) hdesc hcont
    rw [exec_dispatch_route hrepo rfl, haction]
    exact putManifest_ensures r none none
  | uploadInit =>
    refine not_contained_of_ensures (bareRequest .post rest) rfl (fun S hserde => ?_) hdesc hcont
    rw [exec_dispatch_route hrepo rfl, haction]
    exact uploadInit_ensures hserde
  | uploadSession session =>
    rw [haction] at hreach
    obtain ⟨nanos, pid, hsession⟩ := hreach
    exact not_contained_session hrepo haction hsession hdesc hcont
  | tagsList =>
    rw [haction] at hreach
    exact hreach
  | unknown =>
    rw [haction] at hreach
    exact hreach

/-- The names that the routes accept and that descend need not be plain. -/
example : Descends "a/./b//../c".toList ∧ ¬ Descends "a/../../b".toList ∧ ¬ Descends "/a".toList := by
  decide

/-! A deletion through a name that starts with `..`. -/

def strayRest : Str := "../etc/blobs/sha256:".toList ++ List.replicate 64 '0'

def strayDigest : Digest := ⟨⟨List.replicate 64 '0', by decide⟩⟩

def strayRoot : Path := Codec.dataRoot

/-- The file of another program, next to the storage root. -/
def strayPath : Path := [hexName strayDigest, sha256Name, blobsName, ⟨"etc".toList, by decide⟩]

def strayFs : Fs := (emptyRoot strayRoot).set strayPath (.file [1, 2, 3])

theorem delete_leaves_root :
    ¬ Inside strayRoot strayPath ∧ strayFs.read strayPath = some [1, 2, 3] ∧
      ((dispatch (bareRequest .delete strayRest) : Handler (plainSetup strayRoot 1)).exec
        (plainWorld strayRoot 1 strayFs ∅)).2.fs.read strayPath = none ∧ ¬ Contained strayRest := by
  have hout : ¬ Inside strayRoot strayPath := not_inside_of_notMem (by decide)
  have hbefore : strayFs.read strayPath = some [1, 2, 3] := by decide
  have hafter : ((dispatch (bareRequest .delete strayRest) : Handler (plainSetup strayRoot 1)).exec
      (plainWorld strayRoot 1 strayFs ∅)).2.fs.read strayPath = none := by decide +kernel
  refine ⟨hout, hbefore, hafter, fun hcont => ?_⟩
  obtain ⟨hsame, -⟩ := hcont.untouched (plainSetup strayRoot 1) (sessionRoundtrip_plain strayRoot 1)
    (plainWorld strayRoot 1 strayFs ∅) (bareRequest .delete strayRest) rfl
    (orderly_plain_empty strayRoot 1 strayFs) (rooted_plain (by decide)) strayPath hout
  have hnone : strayFs.read strayPath = none := hsame.symm.trans hafter
  rw [hbefore] at hnone
  cases hnone

end Quill.Registry
