import Quill.Storage.World

/-!
# Locally pushed tags

`LocalTagsStore` of `quill-storage`: a map from `(repo, tag)` in memory and one sidecar
`_local_tags.json` for each repository, rewritten as a whole from a snapshot of the map
on every change. `loadRepo` reads a sidecar back into a map.
-/

namespace Quill.LocalTags

open Files Cas World

variable {S : Setup}

/-- The errors of the tag store. -/
inductive LocalTagsError where
  | io (e : IoKind)
  | json
  deriving DecidableEq

/-- The pushed tags of all repositories. -/
abbrev TagMap := AList fun _ : Str × Str => LocalTagMeta

/-- `LocalTagsStore::list_for_repo`. -/
def listForRepo (map : TagMap) (repo : Str) : List (Str × LocalTagMeta) :=
  map.entries.filterMap fun e => if e.1.1 = repo then some (e.1.2, e.2) else none

/-- The listing collected into a `HashMap`. -/
def snapshot (map : TagMap) (repo : Str) : OnDiskTags :=
  ((listForRepo map repo).map fun e => (⟨e.1, e.2⟩ : Sigma fun _ : Str => LocalTagMeta)).toAList

/-- `LocalTagsStore::load_repo`. -/
def loadRepo (S : Setup) (fs : Fs) (repo : Str) (map : TagMap) : Except LocalTagsError TagMap :=
  let path := localTagsPath S.root repo
  if fs.exists? path then
    match fs.read path with
    | none => .error (.io .other)
    | some body =>
      match S.serde.tagsFromStr body with
      | none => .error .json
      | some onDisk => .ok (onDisk.entries.foldl (fun m e => m.insert (repo, e.1) e.2) map)
  else .ok map

/-- The file that is renamed into the sidecar. -/
def tmpPath (S : Setup) (repo : Str) : Path := localTagsTmpName :: repoDir S.root repo

/-- `write_atomic`. -/
def writeSidecar (repo : Str) (value : OnDiskTags) : Prog (World S) LocalTagsError Unit := do
  (onFs (Fs.createDirAll (repoDir S.root repo))).mapError .io
  (onFs (Fs.writeAtomic (tmpPath S repo) (localTagsPath S.root repo)
    (S.serde.tagsToVec value))).mapError .io

/-- `LocalTagsStore::set`. -/
def set (repo tag : Str) (d : Digest) : Prog (World S) LocalTagsError Unit := do
  let pushedAt ← wallNow
  modify fun w => { w with localTags := w.localTags.insert (repo, tag) ⟨d.toStr, pushedAt⟩ }
  writeSidecar repo (snapshot (← get).localTags repo)

/-- `LocalTagsStore::remove`. -/
def remove (repo tag : Str) : Prog (World S) LocalTagsError Bool := do
  match (← get).localTags.lookup (repo, tag) with
  | none => return false
  | some _ =>
    modify fun w => { w with localTags := w.localTags.erase (repo, tag) }
    writeSidecar repo (snapshot (← get).localTags repo)
    return true

theorem mem_listForRepo {map : TagMap} {repo tag : Str} {m : LocalTagMeta} :
    (tag, m) ∈ listForRepo map repo ↔ map.lookup (repo, tag) = some m := by
  unfold listForRepo
  simp only [List.mem_filterMap, Option.ite_none_right_eq_some, Option.some.injEq]
  constructor
  · rintro ⟨⟨⟨r, t⟩, m'⟩, he, hr, hm⟩
    cases hr
    cases hm
    exact AList.mem_lookup_iff.mpr he
  · intro hlook
    exact ⟨⟨(repo, tag), m⟩, AList.mem_lookup_iff.mp hlook, rfl, rfl⟩

theorem loadRepo_congr {fs fs' : Fs} {repo : Str}
    (h : fs'.node (localTagsPath S.root repo) = fs.node (localTagsPath S.root repo)) (map : TagMap) :
    loadRepo S fs' repo map = loadRepo S fs repo map := by
  have hex : fs'.exists? (localTagsPath S.root repo) = fs.exists? (localTagsPath S.root repo) := by
    rw [Fs.exists?, Fs.exists?, h]
  unfold loadRepo
  simp only [hex, Fs.read_congr h]

/-! ## Snapshots -/

theorem dlookup_listForRepo (entries : List (Sigma fun _ : Str × Str => LocalTagMeta))
    (repo tag : Str) :
    ((entries.filterMap fun e => if e.1.1 = repo then some (e.1.2, e.2) else none).map
      fun e => (⟨e.1, e.2⟩ : Sigma fun _ : Str => LocalTagMeta)).dlookup tag =
      entries.dlookup (repo, tag) := by
  induction entries with
  | nil => rfl
  | cons e entries ih =>
    obtain ⟨⟨r, t⟩, m⟩ := e
    by_cases hr : r = repo
    · subst hr
      by_cases ht : t = tag
      · subst ht
        simp
      · have hne : (r, tag) ≠ (r, t) := fun he => ht (Prod.mk.inj he).2.symm
        simp only [List.filterMap_cons, if_true, List.map_cons]
        rw [List.dlookup_cons_ne _ _ (Ne.symm ht), ih, List.dlookup_cons_ne _ _ hne]
    · have hne : (repo, tag) ≠ (r, t) := fun he => hr (Prod.mk.inj he).1.symm
      simp only [List.filterMap_cons, if_neg hr]
      rw [ih, List.dlookup_cons_ne _ _ hne]

/-- A snapshot holds exactly the tags of its repository. -/
theorem lookup_snapshot (map : TagMap) (repo tag : Str) :
    (snapshot map repo).lookup tag = map.lookup (repo, tag) := by
  rw [snapshot, AList.lookup_to_alist]
  exact dlookup_listForRepo map.entries repo tag

/-! ## Loading -/

theorem lookup_foldl_insert (repo : Str) (es : List (Sigma fun _ : Str => LocalTagMeta))
    (hnodup : es.NodupKeys) (map : TagMap) (r tag : Str) :
    (es.foldl (fun m e => m.insert (repo, e.1) e.2) map).lookup (r, tag) =
      if r = repo then (es.dlookup tag).or (map.lookup (r, tag)) else map.lookup (r, tag) := by
  induction es generalizing map with
  | nil => simp
  | cons e es ih =>
    obtain ⟨t, m⟩ := e
    obtain ⟨hnot, hrest⟩ := List.nodupKeys_cons.mp hnodup
    rw [List.foldl_cons, ih hrest]
    by_cases hr : r = repo
    · subst hr
      simp only [if_true]
      by_cases ht : tag = t
      · subst ht
        rw [List.dlookup_eq_none.mpr hnot, List.dlookup_cons_eq, AList.lookup_insert]
        rfl
      · have hne : (r, tag) ≠ (r, t) := fun he => ht (Prod.mk.inj he).2
        rw [List.dlookup_cons_ne _ _ ht, AList.lookup_insert_ne hne]
    · have hne : (r, tag) ≠ (repo, t) := fun he => hr (Prod.mk.inj he).1
      simp only [if_neg hr]
      exact AList.lookup_insert_ne hne

/-- A sidecar that reads back as `onDisk` adds its tags to the map. -/
theorem loadRepo_of_read {fs : Fs} {repo : Str} {body : Bytes} {onDisk : OnDiskTags}
    (hread : fs.read (localTagsPath S.root repo) = some body)
    (hparse : S.serde.tagsFromStr body = some onDisk) (map : TagMap) :
    ∃ map', loadRepo S fs repo map = .ok map' ∧ ∀ r tag, map'.lookup (r, tag) =
      if r = repo then (onDisk.lookup tag).or (map.lookup (r, tag)) else map.lookup (r, tag) := by
  have hex : fs.exists? (localTagsPath S.root repo) = true := by
    simp [Fs.exists?, Fs.read_eq_some.mp hread]
  refine ⟨onDisk.entries.foldl (fun m e => m.insert (repo, e.1) e.2) map, ?_, fun r tag => ?_⟩
  · simp only [loadRepo, hex, if_true, hread, hparse]
  · exact lookup_foldl_insert repo onDisk.entries onDisk.nodupKeys map r tag

end Quill.LocalTags
