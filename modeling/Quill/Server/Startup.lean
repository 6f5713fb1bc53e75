import Quill.Registry.Sidecars

/-!
# Local tags across a restart

`load_existing_local_tags` of `quill-server`: the scan at start-up that loads every
`_local_tags.json` below the root. It enters no directory named `blobs` or `_uploads`,
at any depth, and names a repository after its path below the root.

A repository whose name is plain and has no such component is found again (`Findable`), with
the tags that its sidecar holds (`loaded_eq`). The tags of any other repository are lost
(`findable_of_loaded`).
-/

namespace Quill.Server

open Text Files Cas World LocalStorage LocalTags Registry

variable {S : Setup}

/-! ## The scan -/

/-- The subdirectories that the scan enters. -/
def tagSubdirs (fs : Fs) (p : Path) : List Name :=
  (Gc.entries fs p).filter fun n => fs.isDir (n :: p) ∧ n ≠ blobsName ∧ n ≠ uploadsName

/-- The scan comes to a sidecar in the directory. -/
def hasSidecar (fs : Fs) (dir : Path) : Bool :=
  (Gc.entries fs dir).any fun n => fs.isDir (n :: dir) = false ∧ n = localTagsName

/-- One directory of the scan. A sidecar that does not load is reported and skipped. -/
def loadDir (S : Setup) (fs : Fs) (map : TagMap) (dir : Path) : TagMap :=
  if hasSidecar fs dir then
    match stripPrefix S.root dir with
    | some segs =>
      match loadRepo S fs (relative segs) map with
      | .ok map' => map'
      | .error _ => map
    | none => map
  else map

/-- `load_existing_local_tags` into an empty store. -/
def loadExistingLocalTags (S : Setup) (fs : Fs) : TagMap :=
  if fs.exists? S.root then
    (walk (tagSubdirs fs) (Gc.fuel fs) [S.root]).foldl (loadDir S fs) ∅
  else ∅

theorem mem_tagSubdirs {fs : Fs} {p : Path} {n : Name} :
    n ∈ tagSubdirs fs p ↔
      fs.isDir p = true ∧ fs.isDir (n :: p) = true ∧ n ≠ blobsName ∧ n ≠ uploadsName := by
  unfold tagSubdirs
  simp only [List.mem_filter, Gc.mem_entries, decide_eq_true_eq]
  constructor
  · rintro ⟨⟨hp, -⟩, hd, h₁, h₂⟩
    exact ⟨hp, hd, h₁, h₂⟩
  · rintro ⟨hp, hd, h₁, h₂⟩
    refine ⟨⟨hp, ?_⟩, hd, h₁, h₂⟩
    rw [Fs.isDir_cons.mp hd]
    rfl

theorem mem_scan {fs : Fs} {root q : Path} :
    q ∈ walk (tagSubdirs fs) (Gc.fuel fs) [root] ↔ Descends (tagSubdirs fs) root q := by
  have hkeys : ∀ p n, n ∈ tagSubdirs fs p → n :: p ∈ fs.nodes.keys := by
    intro p n hn
    have hd := (mem_tagSubdirs.mp hn).2.1
    rw [← AList.mem_keys, ← AList.lookup_isSome]
    change (fs.node (n :: p)).isSome = true
    rw [Fs.isDir_cons.mp hd]
    rfl
  have hnodup : ∀ p, (tagSubdirs fs p).Nodup := by
    intro p
    unfold tagSubdirs Gc.entries
    split
    · exact (fs.nodup_readDir p).filter _
    · exact List.nodup_nil
  exact mem_walk hkeys hnodup (Nat.lt_succ_self _)

theorem hasSidecar_iff {fs : Fs} {dir : Path} :
    hasSidecar fs dir = true ↔ fs.isDir dir = true ∧ fs.isFile (localTagsName :: dir) = true := by
  unfold hasSidecar
  simp only [List.any_eq_true, Gc.mem_entries, decide_eq_true_eq]
  constructor
  · rintro ⟨n, ⟨hp, hn⟩, hd, rfl⟩
    refine ⟨hp, ?_⟩
    obtain ⟨m, hm⟩ := Option.isSome_iff_exists.mp hn
    cases m with
    | dir => exact absurd hm (Fs.node_ne_dir_of_isDir hd)
    | file b => simp [Fs.isFile, Fs.read, hm]
  · rintro ⟨hp, hf⟩
    obtain ⟨b, hb⟩ := Option.isSome_iff_exists.mp hf
    have hnode := Fs.read_eq_some.mp hb
    refine ⟨localTagsName, ⟨hp, by rw [hnode]; rfl⟩, ?_, rfl⟩
    refine Bool.eq_false_iff.mpr fun hd => ?_
    rw [Fs.isDir_cons.mp hd] at hnode
    cases hnode

/-! ## What is loaded -/

theorem repoDir_relative (root segs : Path) : repoDir root (relative segs) = segs ++ root := by
  cases segs with
  | nil =>
    have hrel : relative [] = [] := rfl
    rw [hrel]
    simp [repoDir, join, resolve, enter, ValidName]
  | cons n segs => exact join_relative root (List.cons_ne_nil _ _)

/-- The tag in the sidecar of a directory, if the sidecar loads. -/
def sidecarTag (S : Setup) (fs : Fs) (dir : Path) (tag : Str) : Option LocalTagMeta :=
  if hasSidecar fs dir then
    ((fs.read (localTagsName :: dir)).bind S.serde.tagsFromStr).bind fun onDisk => onDisk.lookup tag
  else none

theorem lookup_loadDir (fs : Fs) (map : TagMap) (segs : Path) (repo tag : Str) :
    (loadDir S fs map (segs ++ S.root)).lookup (repo, tag) =
      if repo = relative segs then
        (sidecarTag S fs (segs ++ S.root) tag).or (map.lookup (repo, tag))
      else map.lookup (repo, tag) := by
  unfold loadDir sidecarTag
  cases hside : hasSidecar fs (segs ++ S.root) with
  | false => simp
  | true =>
    obtain ⟨-, hfile⟩ := hasSidecar_iff.mp hside
    obtain ⟨body, hbody⟩ := Option.isSome_iff_exists.mp hfile
    have hread : fs.read (localTagsPath S.root (relative segs)) = some body := by
      rw [localTagsPath, repoDir_relative]
      exact hbody
    simp only [if_true, stripPrefix_append, hbody, Option.bind_some]
    cases hparse : S.serde.tagsFromStr body with
    | none =>
      have hex : fs.exists? (localTagsPath S.root (relative segs)) = true := by
        simp [Fs.exists?, Fs.read_eq_some.mp hread]
      simp [loadRepo, hex, hread, hparse]
    | some onDisk =>
      obtain ⟨map', he, hlook⟩ := loadRepo_of_read hread hparse map
      simp only [he, hlook, Option.bind_some]

/-- When the directories of a scan that have the name of a repository agree on a tag, the
loaded map has it from any of them. -/
theorem lookup_foldl_loadDir {fs : Fs} {repo tag : Str} {v : Option LocalTagMeta} (dirs : List Path)
    (hroot : ∀ dir ∈ dirs, ∃ segs, dir = segs ++ S.root)
    (hv : ∀ segs, segs ++ S.root ∈ dirs → repo = relative segs →
      sidecarTag S fs (segs ++ S.root) tag = v) (map : TagMap) :
    ((∃ segs, segs ++ S.root ∈ dirs ∧ repo = relative segs) ∧
      (dirs.foldl (loadDir S fs) map).lookup (repo, tag) = v.or (map.lookup (repo, tag))) ∨
    ((¬ ∃ segs, segs ++ S.root ∈ dirs ∧ repo = relative segs) ∧
      (dirs.foldl (loadDir S fs) map).lookup (repo, tag) = map.lookup (repo, tag)) := by
  induction dirs generalizing map with
  | nil => exact Or.inr ⟨by simp, rfl⟩
  | cons dir dirs ih =>
    obtain ⟨segs, rfl⟩ := hroot dir List.mem_cons_self
    have hrest := ih (fun dir hd => hroot dir (List.mem_cons_of_mem _ hd))
      (fun segs hs => hv segs (List.mem_cons_of_mem _ hs)) (loadDir S fs map (segs ++ S.root))
    rw [List.foldl_cons]
    by_cases hname : repo = relative segs
    · have hhead : (loadDir S fs map (segs ++ S.root)).lookup (repo, tag) =
          v.or (map.lookup (repo, tag)) := by
        rw [lookup_loadDir, if_pos hname, hv segs List.mem_cons_self hname]
      refine Or.inl ⟨⟨segs, List.mem_cons_self, hname⟩, ?_⟩
      rcases hrest with ⟨-, h⟩ | ⟨-, h⟩
      · rw [h, hhead]
        cases v <;> rfl
      · rw [h, hhead]
    · have hhead : (loadDir S fs map (segs ++ S.root)).lookup (repo, tag) =
          map.lookup (repo, tag) := by rw [lookup_loadDir, if_neg hname]
      rw [hhead] at hrest
      rcases hrest with ⟨⟨segs', hmem, hn⟩, h⟩ | ⟨hno, h⟩
      · exact Or.inl ⟨⟨segs', List.mem_cons_of_mem _ hmem, hn⟩, h⟩
      · refine Or.inr ⟨?_, h⟩
        rintro ⟨segs', hmem, hn⟩
        rcases List.mem_cons.mp hmem with he | hmem
        · rw [List.append_cancel_right he] at hn
          exact hname hn
        · exact hno ⟨segs', hmem, hn⟩

/-! ## Names that the scan finds again -/

/-- Every component of the name is a name that the scan enters. -/
def Findable (repo : Str) : Prop :=
  Plain repo ∧ ∀ seg ∈ repo.splitOn '/', seg ≠ blobsName.val ∧ seg ≠ uploadsName.val

instance (repo : Str) : Decidable (Findable repo) := inferInstanceAs (Decidable (_ ∧ _))

theorem findable_relative {segs : Path} (h : segs ≠ []) :
    Findable (relative segs) ↔ ∀ n ∈ segs, n ≠ blobsName ∧ n ≠ uploadsName := by
  unfold Findable
  rw [splitOn_relative h]
  constructor
  · rintro ⟨-, hall⟩ n hn
    obtain ⟨h₁, h₂⟩ := hall n.val (List.mem_map.mpr ⟨n, List.mem_reverse.mpr hn, rfl⟩)
    exact ⟨fun he => h₁ (he ▸ rfl), fun he => h₂ (he ▸ rfl)⟩
  · intro hall
    refine ⟨plain_relative h, fun seg hseg => ?_⟩
    obtain ⟨n, hn, rfl⟩ := List.mem_map.mp hseg
    obtain ⟨h₁, h₂⟩ := hall n (List.mem_reverse.mp hn)
    exact ⟨fun he => h₁ (Subtype.ext he), fun he => h₂ (Subtype.ext he)⟩

/-- The scan descends through names it enters. -/
theorem names_of_descends {fs : Fs} {root : Path} (segs : Path)
    (h : Descends (tagSubdirs fs) root (segs ++ root)) :
    ∀ n ∈ segs, n ≠ blobsName ∧ n ≠ uploadsName := by
  induction segs with
  | nil => exact fun n hn => absurd hn List.not_mem_nil
  | cons m segs ih =>
    generalize hp : (m :: segs) ++ root = p at h
    cases h with
    | here =>
      have hlen := congrArg List.length hp
      simp at hlen
      omega
    | down above hm =>
      cases hp
      intro n hn
      rcases List.mem_cons.mp hn with rfl | hn
      · exact (mem_tagSubdirs.mp hm).2.2
      · exact ih above n hn

theorem descends_of_names {fs : Fs} {root : Path} (segs : Path)
    (hdirs : ∀ q, q <:+ segs ++ root → fs.isDir q = true)
    (hnames : ∀ n ∈ segs, n ≠ blobsName ∧ n ≠ uploadsName) :
    Descends (tagSubdirs fs) root (segs ++ root) := by
  induction segs with
  | nil => exact .here
  | cons n segs ih =>
    have hbelow : ∀ q, q <:+ segs ++ root → fs.isDir q = true := fun q hq =>
      hdirs q (hq.trans (List.suffix_cons _ _))
    refine .down (ih hbelow fun m hm => hnames m (List.mem_cons_of_mem _ hm)) ?_
    exact mem_tagSubdirs.mpr ⟨hbelow _ List.suffix_rfl, hdirs _ List.suffix_rfl,
      hnames n List.mem_cons_self⟩

/-- Every loaded tag belongs to a repository that the scan finds. -/
theorem findable_of_loaded {fs : Fs} {repo tag : Str} {m : LocalTagMeta} (hrepo : repo ≠ [])
    (h : (loadExistingLocalTags S fs).lookup (repo, tag) = some m) : Findable repo := by
  by_contra hno
  unfold loadExistingLocalTags at h
  split at h
  · have hroot : ∀ dir ∈ walk (tagSubdirs fs) (Gc.fuel fs) [S.root], ∃ segs, dir = segs ++ S.root := by
      intro dir hdir
      obtain ⟨segs, rfl⟩ := (mem_scan.mp hdir).suffix
      exact ⟨segs, rfl⟩
    have hnone : ∀ segs, segs ++ S.root ∈ walk (tagSubdirs fs) (Gc.fuel fs) [S.root] →
        repo ≠ relative segs := by
      rintro segs hmem rfl
      have hsegs : segs ≠ [] := by
        rintro rfl
        exact hrepo rfl
      exact hno ((findable_relative hsegs).mpr (names_of_descends segs (mem_scan.mp hmem)))
    have hagree : ∀ segs, segs ++ S.root ∈ walk (tagSubdirs fs) (Gc.fuel fs) [S.root] →
        repo = relative segs → sidecarTag S fs (segs ++ S.root) tag = none :=
      fun segs hmem hname => absurd hname (hnone segs hmem)
    rcases lookup_foldl_loadDir _ hroot hagree ∅ with ⟨⟨segs, hmem, hname⟩, -⟩ | ⟨-, hlook⟩
    · exact hnone segs hmem hname
    · rw [hlook] at h
      cases h
  · cases h

/-! ## Restarts -/

section Saved

variable {tags : Str → Str → Option LocalTagMeta} {fs : Fs}

/-- The directory of a tagged repository is visited and has a sidecar. -/
theorem visited_of_tagged (h : Saved S Findable tags fs) {repo tag : Str} {m : LocalTagMeta}
    (hm : tags repo tag = some m) :
    ∃ segs, repo = relative segs ∧ Descends (tagSubdirs fs) S.root (segs ++ S.root) ∧
      hasSidecar fs (segs ++ S.root) = true ∧ fs.isDir S.root = true := by
  obtain ⟨hfind, hdirs, hfile⟩ := h.tagged repo tag m hm
  obtain ⟨segs, hne, rfl⟩ := hfind.1.exists_relative
  have hdir : repoDir S.root (relative segs) = segs ++ S.root := repoDir_relative _ _
  have habove : ∀ q, q <:+ segs ++ S.root → fs.isDir q = true := by
    intro q hq
    refine hdirs q (hq.trans ?_)
    rw [← hdir]
    exact (List.suffix_cons _ _).trans (List.suffix_cons _ _)
  refine ⟨segs, rfl, descends_of_names segs habove ((findable_relative hne).mp hfind), ?_,
    habove _ (List.suffix_append _ _)⟩
  refine hasSidecar_iff.mpr ⟨habove _ List.suffix_rfl, ?_⟩
  rwa [localTagsPath, hdir] at hfile

/-- A visited directory has the saved tags of its repository. -/
theorem sidecarTag_eq (h : Saved S Findable tags fs) (segs : Path) (tag : Str) :
    sidecarTag S fs (segs ++ S.root) tag = tags (relative segs) tag := by
  unfold sidecarTag
  cases hside : hasSidecar fs (segs ++ S.root) with
  | true =>
    obtain ⟨-, hfile⟩ := hasSidecar_iff.mp hside
    obtain ⟨body, hbody⟩ := Option.isSome_iff_exists.mp hfile
    obtain ⟨repo, m, hfind, hdir, rfl, hlook⟩ := h.sidecars _ body hbody
    have hrepo : relative segs = repo := by
      rw [repoDir, hfind.1.join_eq] at hdir
      rw [List.append_cancel_right hdir, hfind.1.relative_segs]
    obtain ⟨m', hparse, hsame⟩ := S.serde.tags_roundtrip m
    rw [if_pos rfl, hbody, Option.bind_some, hparse, Option.bind_some, hsame, hlook, hrepo]
  | false =>
    rw [if_neg Bool.false_ne_true]
    cases hm : tags (relative segs) tag with
    | none => rfl
    | some m =>
      obtain ⟨segs', hname, -, hside', -⟩ := visited_of_tagged h hm
      have hdirs : segs ++ S.root = segs' ++ S.root := by
        rw [← repoDir_relative, ← repoDir_relative, hname]
      rw [← hdirs, hside] at hside'
      cases hside'

/-- The scan restores the saved tags. -/
theorem loaded_eq (h : Saved S Findable tags fs) (repo tag : Str) :
    (loadExistingLocalTags S fs).lookup (repo, tag) = tags repo tag := by
  unfold loadExistingLocalTags
  split
  · have hroot : ∀ dir ∈ walk (tagSubdirs fs) (Gc.fuel fs) [S.root],
        ∃ segs, dir = segs ++ S.root := by
      intro dir hdir
      obtain ⟨segs, rfl⟩ := (mem_scan.mp hdir).suffix
      exact ⟨segs, rfl⟩
    have hagree : ∀ segs, segs ++ S.root ∈ walk (tagSubdirs fs) (Gc.fuel fs) [S.root] →
        repo = relative segs → sidecarTag S fs (segs ++ S.root) tag = tags repo tag := by
      rintro segs - rfl
      exact sidecarTag_eq h segs tag
    rcases lookup_foldl_loadDir _ hroot hagree ∅ with ⟨-, hlook⟩ | ⟨hno, hlook⟩
    · rw [hlook]
      cases tags repo tag <;> rfl
    · rw [hlook]
      cases hm : tags repo tag with
      | none => rfl
      | some m =>
        obtain ⟨segs, hname, hdesc, -⟩ := visited_of_tagged h hm
        exact absurd ⟨segs, mem_scan.mpr hdesc, hname⟩ hno
  · rename_i hroot
    cases hm : tags repo tag with
    | none => rfl
    | some m =>
      obtain ⟨-, -, -, -, hdir⟩ := visited_of_tagged h hm
      rw [Gc.isDir_of_exists (Bool.not_eq_true _ ▸ hroot)] at hdir
      cases hdir

end Saved

end Quill.Server
