import Quill.Registry.Coherence

/-!
# Sidecars follow the map of local tags

`Saved S P tags fs`: all tags belong to repositories with `P`, each of these has a sidecar, and
every sidecar on disk holds exactly the tags of its repository. `Synced P w` says this of the tags
in memory. Requests keep it as long as tags are only pushed to repositories with `P`, where
repositories with `P` have different directories. Plain names do (`Separate.of_plain`).
-/

namespace Quill.Registry

open Text Files Cas World LocalStorage Uploads LocalTags

variable {S : Setup} {repo : Str} {P : Str → Prop}

/-- Different repositories with `P` have different directories. -/
def Separate (S : Setup) (P : Str → Prop) : Prop :=
  ∀ r r', P r → P r' → repoDir S.root r = repoDir S.root r' → r = r'

theorem Separate.of_plain (hP : ∀ r, P r → Plain r) : Separate S P :=
  fun r r' hr hr' he => (hP r hr).join_injective (hP r' hr') he

/-- The sidecars hold the tags of repositories with `P`, and a repository with a tag has its
sidecar. -/
structure Saved (S : Setup) (P : Str → Prop) (tags : Str → Str → Option LocalTagMeta) (fs : Fs) :
    Prop where
  sidecars : ∀ q body, fs.read (localTagsName :: q) = some body →
    ∃ repo m, P repo ∧ q = repoDir S.root repo ∧ body = S.serde.tagsToVec m ∧
      ∀ tag, m.lookup tag = tags repo tag
  tagged : ∀ repo tag m, tags repo tag = some m →
    P repo ∧ DirsAbove S fs repo ∧ fs.isFile (localTagsPath S.root repo) = true

namespace Saved

variable {w w' : World S} {tags tags' : Str → Str → Option LocalTagMeta}

/-- A frame that leaves all sidecars alone. -/
theorem keeps {except : Set Path} (h : Saved S P tags w.fs) (hkeep : Keeps except w w')
    (hexcept : ∀ p ∈ except, ¬ IsTagsName p) : Saved S P tags w'.fs := by
  have hread : ∀ q, w'.fs.read (localTagsName :: q) = w.fs.read (localTagsName :: q) := fun q =>
    hkeep.sidecars _ ⟨q, rfl⟩ fun hmem => hexcept _ hmem ⟨q, rfl⟩
  refine ⟨fun q body hbody => ?_, fun r tag m hm => ?_⟩
  · rw [hread] at hbody
    exact h.sidecars q body hbody
  · obtain ⟨hr, hdirs, hfile⟩ := h.tagged r tag m hm
    refine ⟨hr, hdirs.keeps hkeep, ?_⟩
    rw [Fs.isFile, localTagsPath, hread]
    exact hfile

/-- The sidecar of one repository is rewritten. -/
theorem rewrite {m : OnDiskTags} (h : Saved S P tags w.fs) (hP : Separate S P) (hrepo : P repo)
    (hkeep : Keeps {localTagsPath S.root repo} w w') (hdirs : DirsAbove S w'.fs repo)
    (hother : ∀ r tag, r ≠ repo → tags' r tag = tags r tag)
    (hsame : ∀ tag, m.lookup tag = tags' repo tag)
    (hfile : w'.fs.read (localTagsPath S.root repo) = some (S.serde.tagsToVec m)) :
    Saved S P tags' w'.fs := by
  have hread : ∀ q, q ≠ repoDir S.root repo →
      w'.fs.read (localTagsName :: q) = w.fs.read (localTagsName :: q) := by
    intro q hq
    refine hkeep.sidecars _ ⟨q, rfl⟩ fun hmem => hq ?_
    exact (List.cons.inj (Set.mem_singleton_iff.mp hmem)).2
  refine ⟨fun q body hbody => ?_, fun r tag t ht => ?_⟩
  · by_cases hq : q = repoDir S.root repo
    · subst hq
      cases hfile.symm.trans hbody
      exact ⟨repo, m, hrepo, rfl, rfl, hsame⟩
    · rw [hread q hq] at hbody
      obtain ⟨r, m', hr, rfl, rfl, hlook⟩ := h.sidecars q body hbody
      have hne : r ≠ repo := fun he => hq (by rw [he])
      exact ⟨r, m', hr, rfl, rfl, fun tag => (hlook tag).trans (hother r tag hne).symm⟩
  · by_cases hr : r = repo
    · subst hr
      exact ⟨hrepo, hdirs, by simp [Fs.isFile, hfile]⟩
    · rw [hother r tag hr] at ht
      obtain ⟨hPr, hdirsr, hfiler⟩ := h.tagged r tag t ht
      refine ⟨hPr, hdirsr.keeps hkeep, ?_⟩
      have hq : repoDir S.root r ≠ repoDir S.root repo := fun he =>
        hr (hP r repo hPr hrepo he)
      rw [Fs.isFile, localTagsPath, hread _ hq]
      exact hfiler

end Saved

/-- The sidecars hold the tags in memory. -/
abbrev Synced (P : Str → Prop) (w : World S) : Prop :=
  Saved S P (fun repo tag => w.localTags.lookup (repo, tag)) w.fs

namespace Synced

variable {w w' : World S}

/-- The sidecar of a tagged repository. -/
theorem read_sidecar (h : Synced P w) (hP : Separate S P) {tag : Str} {t : LocalTagMeta}
    (htag : w.localTags.lookup (repo, tag) = some t) :
    ∃ m, w.fs.read (localTagsPath S.root repo) = some (S.serde.tagsToVec m) ∧
      ∀ tag, m.lookup tag = w.localTags.lookup (repo, tag) := by
  obtain ⟨hrepo, -, hfile⟩ := h.tagged repo tag t htag
  obtain ⟨body, hbody⟩ := Option.isSome_iff_exists.mp hfile
  obtain ⟨r, m, hr, hq, rfl, hlook⟩ := h.sidecars _ body hbody
  have hsame : repo = r := hP repo r hrepo hr hq
  subst hsame
  exact ⟨m, hbody, hlook⟩

/-- A frame that leaves all sidecars and the map alone. -/
theorem keeps {except : Set Path} (h : Synced P w) (hkeep : Keeps except w w')
    (hexcept : ∀ p ∈ except, ¬ IsTagsName p) (htags : w'.localTags = w.localTags) :
    Synced P w' := by
  unfold Synced
  rw [htags]
  exact Saved.keeps h hkeep hexcept

/-- The tags of one repository change and its sidecar is rewritten from them. -/
theorem rewrite (h : Synced P w) (hP : Separate S P) (hrepo : P repo)
    (hkeep : Keeps {localTagsPath S.root repo} w w') (hdirs : DirsAbove S w'.fs repo)
    (hother : ∀ r tag, r ≠ repo → w'.localTags.lookup (r, tag) = w.localTags.lookup (r, tag))
    (hfile : w'.fs.read (localTagsPath S.root repo) =
      some (S.serde.tagsToVec (snapshot w'.localTags repo))) : Synced P w' :=
  Saved.rewrite h hP hrepo hkeep hdirs hother (fun _ => lookup_snapshot _ _ _) hfile

theorem untagged {tags : List Str} (h : Synced P w) (hP : Separate S P)
    (hun : Untagged S repo tags w w') : Synced P w' := by
  rcases hun.sidecar with ⟨htags, hfs⟩ | ⟨⟨tag, m, hm⟩, hfile⟩
  · refine ⟨fun q body hbody => ?_, fun r tag m hm => ?_⟩
    · rw [hfs] at hbody
      rw [htags]
      exact h.sidecars q body hbody
    · rw [htags] at hm
      rw [hfs]
      exact h.tagged r tag m hm
  · obtain ⟨hrepo, hdirs, -⟩ := h.tagged repo tag m hm
    refine h.rewrite hP hrepo hun.keeps (hdirs.keeps hun.keeps) (fun r t hr => ?_) hfile
    rw [hun.lookup, if_neg fun hk => hr hk.1]

end Synced

theorem not_isTagsName_blobPath (root : Path) (r : Str) (d : Digest) :
    ∀ p ∈ ({blobPath root r d} : Set Path), ¬ IsTagsName p := by
  intro p hp
  rw [Set.mem_singleton_iff.mp hp]
  exact not_isTagsName_of_isBlobName (isBlobName_blobPath root r d)

/-- One request. -/
theorem synced_step {req : Request} {resp : Response} {w w' : World S} (hP : Separate S P)
    (hchange : Change S req resp w w') (hdata : DataNamed w)
    (hpush : ∀ r t, req.command = .push r t → resp.status = .created → P r) (h : Synced P w) : Synced P w' := by
  cases hchange with
  | quiet hcommand halong =>
    obtain ⟨-, hkeep, htags⟩ := quiet_keeps (fun _ hk => hk) halong hdata
    exact h.keeps hkeep (fun _ hp => absurd hp (Set.notMem_empty _)) htags
  | @pushed r t b hcommand hstatus hbody hsteps =>
    have hres := hsteps.result hdata
    obtain ⟨pushedAt, htags⟩ := hres.tags
    refine h.rewrite hP (hpush r t hcommand hstatus) hres.keeps hres.dirs (fun r' t' hr => ?_)
      hres.sidecar
    rw [htags, AList.lookup_insert_ne]
    exact fun he => hr (Prod.mk.inj he).1
  | untagged hcommand hun => exact h.untagged hP hun
  | manifestDeleted hcommand hun htags hkeep =>
    exact (h.untagged hP hun).keeps hkeep (not_isTagsName_blobPath _ _ _) htags
  | blobDeleted hcommand htags hkeep hrefused =>
    exact h.keeps hkeep (not_isTagsName_blobPath _ _ _) htags

theorem synced_start (P : Str → Prop) (S : Setup) (ticks wall : List Nat) :
    Synced P (World.start S ticks wall) := by
  refine ⟨fun q body hbody => ?_, fun r tag m hm => ?_⟩
  · have hnone : (World.start S ticks wall).fs.read (localTagsName :: q) = none := read_emptyRoot _ _
    rw [hnone] at hbody
    cases hbody
  · cases hm

/-- Every tag that the run pushed went to a repository with `P`. -/
def PushesTo (P : Str → Prop) (es : List Exchange) : Prop :=
  ∀ e ∈ es, ∀ repo tag, e.1.command = .push repo tag → e.2.status = .created → P repo

theorem pushesTo_of_requests {es : List Exchange} {w w' : World S} {reqs : List Request}
    (hall : serveAll w reqs = some (es, w')) (h : ∀ req ∈ reqs, ∀ r ∈ req.command.repo?, P r) :
    PushesTo P es := by
  intro e he r t hc _
  refine h e.1 (serveAll_requests hall ▸ List.mem_map_of_mem he) r ?_
  rw [hc]
  rfl

theorem Served.synced {ticks wall : List Nat} {es : List Exchange} {w : World S}
    (h : Served S ticks wall es w) (hP : Separate S P) (hpush : PushesTo P es)
    (hfailed : w.log.ioFailed = false) : Synced P w := by
  induction h with
  | start => exact synced_start P S ticks wall
  | @serve es w w' req resp hprev hrun ih =>
    have hbefore := not_failed_before hrun hfailed
    have hsynced := ih (fun e he => hpush e (List.mem_append_left _ he)) hbefore
    exact synced_step hP (dispatch_change hrun hfailed) hprev.dataNamed
      (hpush (req, resp) (by simp)) hsynced

end Quill.Registry
