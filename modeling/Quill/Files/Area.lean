import Quill.Base.Confinement
import Quill.Files.Tree

/-!
# Operations confined to an area of the file system

An `Area` is a set of paths that may be looked at, closed under going to the parent, in
which some paths may hold files that are written and some may become directories. `fits`
says what the contents of a file have to satisfy at its path; this is the invariant of the
area. Each operation of the file system is confined to an area that has its paths.

The file system's root is a directory in every tree, so it belongs to no area.
-/

namespace Quill.Files

/-- The paths that an operation may look at, the files it may change and the directories it may
create, with what may stand in the files. -/
structure Area where
  look : Set Path
  files : Set Path
  dirs : Set Path
  fits : Path → Bytes → Prop
  files_look : files ⊆ look
  dirs_look : dirs ⊆ look
  look_suffix : ∀ {p q : Path}, p ∈ look → q <:+ p → q ≠ [] → q ∈ look
  dirs_suffix : ∀ {p q : Path}, p ∈ dirs → q <:+ p → q ≠ [] → q ∈ dirs

namespace Area

variable {A : Area} {fs fs' fs'' : Fs}

/-- Only files of the area change, and missing paths of it may become directories. -/
structure Changes (A : Area) (fs fs' : Fs) : Prop where
  node : ∀ p ∉ A.files, fs'.node p = fs.node p ∨
    (p ∈ A.dirs ∧ fs.node p = none ∧ fs'.node p = some .dir)
  dirs : ∀ p, fs.isDir p = true → fs'.isDir p = true
  made : ∀ p, fs'.isDir p = true → fs.isDir p = true ∨ p ∈ A.dirs
  connected : fs.Connected → fs'.Connected

namespace Changes

theorem refl (A : Area) (fs : Fs) : Changes A fs fs :=
  ⟨fun _ _ => Or.inl rfl, fun _ h => h, fun _ h => Or.inl h, id⟩

theorem trans (h : Changes A fs fs') (g : Changes A fs' fs'') : Changes A fs fs'' := by
  refine ⟨fun p hp => ?_, fun p hdir => g.dirs p (h.dirs p hdir), fun p hdir => ?_,
    fun hfs => g.connected (h.connected hfs)⟩
  on_goal 2 => exact (g.made p hdir).elim (h.made p) Or.inr
  rcases g.node p hp with hg | ⟨hdirs, hg, hg'⟩
  · rw [hg]
    exact h.node p hp
  · rcases h.node p hp with hh | ⟨-, hh, -⟩
    · exact Or.inr ⟨hdirs, hh ▸ hg, hg'⟩
    · exact Or.inr ⟨hdirs, hh, hg'⟩

theorem set {p : Path} {b : Bytes} (hp : p ∈ A.files) (hdir : fs.node p ≠ some .dir)
    (hparent : fs.Connected → fs.isDir p.tail = true) : Changes A fs (fs.set p (.file b)) where
  node q hq := by
    refine Or.inl ?_
    rw [Fs.node_set, if_neg]
    rintro rfl
    exact hq hp
  dirs q hq := Fs.isDir_set_file hdir hq
  made q hq := by
    refine Or.inl (Fs.isDir_iff.mpr ((Fs.isDir_iff.mp hq).imp_right fun hn => ?_))
    rw [Fs.node_set] at hn
    split at hn
    · cases hn
    · exact hn
  connected hfs := hfs.set_file hdir (hparent hfs)

theorem del {p : Path} (hp : p ∈ A.files) (hdir : fs.node p ≠ some .dir) :
    Changes A fs (fs.del p) where
  node q hq := by
    refine Or.inl ?_
    rw [Fs.node_del, if_neg]
    rintro rfl
    exact hq hp
  dirs q hq := Fs.isDir_del_file hdir hq
  made q hq := by
    refine Or.inl (Fs.isDir_iff.mpr ((Fs.isDir_iff.mp hq).imp_right fun hn => ?_))
    rw [Fs.node_del] at hn
    split at hn
    · cases hn
    · exact hn
  connected hfs := hfs.del_file hdir

/-- Outside of the area nothing changes. -/
theorem outside (h : Changes A fs fs') {p : Path} (hp : p ∉ A.look) : fs'.node p = fs.node p := by
  rcases h.node p fun hf => hp (A.files_look hf) with he | ⟨hd, -, -⟩
  · exact he
  · exact absurd (A.dirs_look hd) hp

end Changes

/-- The confinement of file-system programs to the area. -/
def confinement (A : Area) : Confinement Fs where
  inv fs := ∀ p b, fs.read p = some b → A.fits p b
  alike fs fs' := ∀ p ∈ A.look, fs'.node p = fs.node p
  change := ⟨Changes A, Changes.refl A, Changes.trans⟩

/-! ## What alike trees agree on -/

section Alike

variable (h : A.confinement.alike fs fs')

include h

theorem alike_isDir {p : Path} (hp : p = [] ∨ p ∈ A.look) : fs'.isDir p = fs.isDir p := by
  rcases hp with rfl | hp
  · rfl
  · exact Fs.isDir_congr (h p hp)

theorem alike_parent {p q : Path} (hp : p ∈ A.look) (hq : q <:+ p) : fs'.isDir q = fs.isDir q := by
  by_cases hnil : q = []
  · exact alike_isDir h (Or.inl hnil)
  · exact alike_isDir h (Or.inr (A.look_suffix hp hq hnil))

theorem alike_blocked {p : Path} (hp : p ∈ A.look) : fs'.blocked p = fs.blocked p := by
  unfold Fs.blocked
  refine Bool.eq_iff_iff.mpr ?_
  have hsame : ∀ q ∈ p.tail.tails,
      (fs'.isFile q && !fs'.isDir q) = (fs.isFile q && !fs.isDir q) := by
    intro q hq
    by_cases hnil : q = []
    · subst hnil
      simp [Fs.isDir_nil]
    · have hsuffix : q <:+ p := ((List.mem_tails _ _).mp hq).trans (List.tail_suffix p)
      have hnode := h q (A.look_suffix hp hsuffix hnil)
      rw [Fs.isFile, Fs.isFile, Fs.read_congr hnode, Fs.isDir_congr hnode]
  rw [List.any_eq_true, List.any_eq_true]
  constructor
  · rintro ⟨q, hq, ht⟩
    exact ⟨q, hq, (hsame q hq).symm.trans ht⟩
  · rintro ⟨q, hq, ht⟩
    exact ⟨q, hq, (hsame q hq).trans ht⟩

theorem alike_set (p : Path) (n : Node) : A.confinement.alike (fs.set p n) (fs'.set p n) := by
  intro q hq
  rw [Fs.node_set, Fs.node_set, h q hq]

theorem alike_del (p : Path) : A.confinement.alike (fs.del p) (fs'.del p) := by
  intro q hq
  rw [Fs.node_del, Fs.node_del, h q hq]

end Alike

/-! ## The invariant -/

theorem inv_set_file {p : Path} {b : Bytes} (hfs : A.confinement.inv fs) (hb : A.fits p b) :
    A.confinement.inv (fs.set p (.file b)) := by
  intro q c hc
  rw [Fs.read_eq_some, Fs.node_set] at hc
  by_cases hq : q = p
  · rw [if_pos hq] at hc
    cases hc
    rwa [hq]
  · rw [if_neg hq] at hc
    exact hfs q c (Fs.read_eq_some.mpr hc)

theorem inv_del {p : Path} (hfs : A.confinement.inv fs) : A.confinement.inv (fs.del p) := by
  intro q c hc
  rw [Fs.read_eq_some, Fs.node_del] at hc
  by_cases hq : q = p
  · rw [if_pos hq] at hc
    cases hc
  · rw [if_neg hq] at hc
    exact hfs q c (Fs.read_eq_some.mpr hc)

/-! ## The operations -/

theorem createDirAll_changes {p : Path} (hp : p = [] ∨ p ∈ A.dirs) (fs : Fs) :
    Changes A fs ((Fs.createDirAll p).exec fs).2 := by
  have hgrow := Fs.createDirAll_grows p fs
  have hdirs : ∀ q, q <:+ p → q ≠ [] → q ∈ A.dirs := by
    intro q hq hne
    rcases hp with rfl | hp
    · exact absurd (List.suffix_nil.mp hq) hne
    · exact A.dirs_suffix hp hq hne
  have hnode : ∀ q, ((Fs.createDirAll p).exec fs).2.node q = fs.node q ∨
      (q ∈ A.dirs ∧ fs.node q = none ∧ ((Fs.createDirAll p).exec fs).2.node q = some .dir) := by
    intro q
    rcases hgrow q with hsame | ⟨hnone, hdir⟩
    · exact Or.inl hsame
    · by_cases hq : q <:+ p
      · by_cases hne : q = []
        · subst hne
          exact Or.inl (Fs.createDirAll_node_nil p fs)
        · exact Or.inr ⟨hdirs q hq hne, hnone, hdir⟩
      · exact Or.inl (Fs.createDirAll_node hq fs)
  refine ⟨fun q _ => hnode q, fun q hq => Fs.growsDirs_isDir hgrow hq, fun q hq => ?_,
    fun hfs => hfs.createDirAll p⟩
  rcases hnode q with hsame | ⟨hmem, -⟩
  · rw [Fs.isDir_congr hsame] at hq
    exact Or.inl hq
  · exact Or.inr hmem

theorem createDirAll_alike {p : Path} (hp : p = [] ∨ p ∈ A.dirs) (hlike : A.confinement.alike fs fs') :
    ((Fs.createDirAll p).exec fs).1 = ((Fs.createDirAll p).exec fs').1 ∧
      A.confinement.alike ((Fs.createDirAll p).exec fs).2 ((Fs.createDirAll p).exec fs').2 := by
  induction p with
  | nil => exact ⟨rfl, hlike⟩
  | cons n p ih =>
    have hmem : n :: p ∈ A.dirs := hp.resolve_left (List.cons_ne_nil n p)
    have hparent : p = [] ∨ p ∈ A.dirs := by
      by_cases hnil : p = []
      · exact Or.inl hnil
      · exact Or.inr (A.dirs_suffix hmem (List.suffix_cons n p) hnil)
    obtain ⟨hout, hlike₁⟩ := ih hparent
    unfold Fs.createDirAll
    rcases Prog.exec_bind_cases (Fs.createDirAll p) _ fs with
      ⟨e, fs₁, hexec, hbind⟩ | ⟨⟨⟩, fs₁, hexec, hbind⟩
    · rw [hexec] at hout hlike₁
      have hexec' : (Fs.createDirAll p).exec fs' = (.error e, ((Fs.createDirAll p).exec fs').2) :=
        Prod.ext hout.symm rfl
      rw [hbind, Prog.exec_bind_error hexec']
      exact ⟨rfl, hlike₁⟩
    · rw [hexec] at hout hlike₁
      have hexec' : (Fs.createDirAll p).exec fs' = (.ok (), ((Fs.createDirAll p).exec fs').2) :=
        Prod.ext hout.symm rfl
      rw [hbind, Prog.exec_bind_ok hexec']
      simp only [Fs.exec_io, hlike₁ _ (A.dirs_look hmem)]
      cases hn : fs₁.node (n :: p) with
      | none => exact ⟨rfl, alike_set hlike₁ _ _⟩
      | some m => cases m <;> exact ⟨rfl, hlike₁⟩

theorem createDirAll_confined {p : Path} (hp : p = [] ∨ p ∈ A.dirs) :
    Confined A.confinement (Fs.createDirAll p) fun _ => True where
  inv {fs} hfs q b hb := by
    rw [Fs.growsDirs_read (Fs.createDirAll_grows p fs)] at hb
    exact hfs q b hb
  change {fs} _ := createDirAll_changes hp fs
  post _ _ := trivial
  alike _ _ hlike := createDirAll_alike hp hlike

theorem writeFile_confined {p : Path} {b : Bytes} (hp : p ∈ A.files) (hb : A.fits p b) :
    Confined A.confinement (Fs.writeFile p b) fun _ => True where
  inv {fs} hfs := by
    rcases Fs.exec_writeFile p b fs with ⟨-, -, he⟩ | ⟨e, he⟩
    · rw [he]
      exact inv_set_file hfs hb
    · rw [he]
      exact hfs
  change {fs} _ := by
    rcases Fs.exec_writeFile p b fs with ⟨hdir, hparent, he⟩ | ⟨e, he⟩
    · rw [he]
      exact Changes.set hp (Fs.node_ne_dir_of_isDir hdir) fun _ => hparent
    · rw [he]
      exact Changes.refl A fs
  post _ _ := trivial
  alike {fs fs'} _ _ hlike := by
    have hself := alike_parent hlike (A.files_look hp) (List.suffix_refl p)
    have hparent := alike_parent hlike (A.files_look hp) (List.tail_suffix p)
    simp only [Fs.writeFile, Fs.exec_io, hself, hparent]
    by_cases hroom : fs.isDir p.tail = true ∧ fs.isDir p = false
    · simp only [if_pos hroom]
      exact ⟨trivial, alike_set hlike _ _⟩
    · simp only [if_neg hroom]
      exact ⟨trivial, hlike⟩

theorem appendFile_confined {p : Path} {b : Bytes} (hp : p ∈ A.files)
    (hb : ∀ c, A.fits p (c ++ b)) : Confined A.confinement (Fs.appendFile p b) fun _ => True where
  inv {fs} hfs := by
    rcases Fs.exec_appendFile p b fs with ⟨c, -, he⟩ | ⟨-, e, he⟩
    · rw [he]
      exact inv_set_file hfs (hb c)
    · rw [he]
      exact hfs
  change {fs} _ := by
    rcases Fs.exec_appendFile p b fs with ⟨c, hc, he⟩ | ⟨-, e, he⟩
    · rw [he]
      exact Changes.set hp (Fs.node_ne_dir_of_read hc) fun hfs => hfs.isDir_tail hc
    · rw [he]
      exact Changes.refl A fs
  post _ _ := trivial
  alike {fs fs'} _ _ hlike := by
    simp only [Fs.appendFile, Fs.exec_io, hlike p (A.files_look hp)]
    cases hn : fs.node p with
    | none => exact ⟨rfl, hlike⟩
    | some m =>
      cases m with
      | dir => exact ⟨rfl, hlike⟩
      | file c => exact ⟨rfl, alike_set hlike _ _⟩

/-- A rename moves contents that fit their new path. -/
theorem rename_inv {src dst : Path} (hfits : ∀ b, fs.read src = some b → A.fits dst b)
    (hfs : A.confinement.inv fs) : A.confinement.inv ((Fs.rename src dst).exec fs).2 := by
  rcases Fs.exec_rename src dst fs with ⟨b, hb, -, -, he⟩ | ⟨e, he⟩
  · rw [he]
    exact inv_set_file (inv_del hfs) (hfits b hb)
  · rw [he]
    exact hfs

theorem rename_changes {src dst : Path} (hsrc : src ∈ A.files) (hdst : dst ∈ A.files) (fs : Fs) :
    Changes A fs ((Fs.rename src dst).exec fs).2 := by
  rcases Fs.exec_rename src dst fs with ⟨b, hb, hdir, hparent, he⟩ | ⟨e, he⟩
  · rw [he]
    have hsrcdir := Fs.node_ne_dir_of_read hb
    refine (Changes.del hsrc hsrcdir).trans (Changes.set hdst ?_ fun _ =>
      Fs.isDir_del_file hsrcdir hparent)
    rw [Fs.node_del]
    split
    · simp
    · exact Fs.node_ne_dir_of_isDir hdir
  · rw [he]
    exact Changes.refl A fs

theorem rename_alike {src dst : Path} (hsrc : src ∈ A.look) (hdst : dst ∈ A.look)
    (hlike : A.confinement.alike fs fs') :
    ((Fs.rename src dst).exec fs).1 = ((Fs.rename src dst).exec fs').1 ∧
      A.confinement.alike ((Fs.rename src dst).exec fs).2 ((Fs.rename src dst).exec fs').2 := by
  have hself := alike_parent hlike hdst (List.suffix_refl dst)
  have hparent := alike_parent hlike hdst (List.tail_suffix dst)
  simp only [Fs.rename, Fs.exec_io, hself, hparent, hlike src hsrc]
  cases hn : fs.node src with
  | none => exact ⟨rfl, hlike⟩
  | some m =>
    cases m with
    | dir => exact ⟨rfl, hlike⟩
    | file b =>
      by_cases hroom : fs.isDir dst.tail = true ∧ fs.isDir dst = false
      · simp only [if_pos hroom]
        exact ⟨trivial, alike_set (alike_del hlike _) _ _⟩
      · simp only [if_neg hroom]
        exact ⟨trivial, hlike⟩

theorem rename_confined {src dst : Path} (hsrc : src ∈ A.files) (hdst : dst ∈ A.files)
    (hfits : ∀ b, A.fits dst b) : Confined A.confinement (Fs.rename src dst) fun _ => True where
  inv hfs := rename_inv (fun b _ => hfits b) hfs
  change _ := rename_changes hsrc hdst _
  post _ _ := trivial
  alike _ _ hlike := rename_alike (A.files_look hsrc) (A.files_look hdst) hlike

theorem writeAtomic_confined {tmp dst : Path} {b : Bytes} (htmp : tmp ∈ A.files)
    (hdst : dst ∈ A.files) (htmpb : A.fits tmp b) (hdstb : A.fits dst b) :
    Confined A.confinement (Fs.writeAtomic tmp dst b) fun _ => True where
  inv {fs} hfs := by
    unfold Fs.writeAtomic
    rcases Fs.exec_writeFile tmp b fs with ⟨-, -, he⟩ | ⟨e, he⟩
    · rw [Prog.exec_bind_ok he]
      refine rename_inv (fun c hc => ?_) (inv_set_file hfs htmpb)
      rw [Fs.read_eq_some, Fs.node_set, if_pos rfl] at hc
      cases hc
      exact hdstb
    · rw [Prog.exec_bind_error he]
      exact hfs
  change {fs} hfs := by
    unfold Fs.writeAtomic
    refine Moves.rel_bind (E := A.confinement.change) ((writeFile_confined htmp htmpb).change hfs)
      fun _ fs₁ _ => rename_changes htmp hdst fs₁
  post _ _ := trivial
  alike {fs fs'} hfs hfs' hlike := by
    unfold Fs.writeAtomic
    obtain ⟨hout, hlike₁⟩ := (writeFile_confined htmp htmpb).alike hfs hfs' hlike
    rcases Prog.exec_bind_cases (Fs.writeFile tmp b) (fun _ => Fs.rename tmp dst) fs with
      ⟨e, fs₁, hexec, hbind⟩ | ⟨⟨⟩, fs₁, hexec, hbind⟩
    · rw [hexec] at hout hlike₁
      have hexec' : (Fs.writeFile tmp b).exec fs' = (.error e, ((Fs.writeFile tmp b).exec fs').2) :=
        Prod.ext hout.symm rfl
      rw [hbind, Prog.exec_bind_error hexec']
      exact ⟨rfl, hlike₁⟩
    · rw [hexec] at hout hlike₁
      have hexec' : (Fs.writeFile tmp b).exec fs' = (.ok (), ((Fs.writeFile tmp b).exec fs').2) :=
        Prod.ext hout.symm rfl
      rw [hbind, Prog.exec_bind_ok hexec']
      exact rename_alike (A.files_look htmp) (A.files_look hdst) hlike₁

theorem removeFile_confined {p : Path} (hp : p ∈ A.files) :
    Confined A.confinement (Fs.removeFile p) fun _ => True where
  inv {fs} hfs := by
    rcases Fs.exec_removeFile p fs with ⟨b, -, he⟩ | ⟨-, e, he, -⟩
    · rw [he]
      exact inv_del hfs
    · rw [he]
      exact hfs
  change {fs} _ := by
    rcases Fs.exec_removeFile p fs with ⟨b, hb, he⟩ | ⟨-, e, he, -⟩
    · rw [he]
      exact Changes.del hp (Fs.node_ne_dir_of_read hb)
    · rw [he]
      exact Changes.refl A fs
  post _ _ := trivial
  alike {fs fs'} _ _ hlike := by
    simp only [Fs.removeFile, Fs.exec_io, hlike p (A.files_look hp),
      alike_blocked hlike (A.files_look hp)]
    cases hn : fs.node p with
    | none => exact ⟨rfl, hlike⟩
    | some m =>
      cases m with
      | dir => exact ⟨rfl, hlike⟩
      | file b => exact ⟨rfl, alike_del hlike p⟩

theorem metadata_confined {p : Path} (hp : p ∈ A.look) :
    Confined A.confinement (Fs.metadata p) fun _ => True where
  inv {fs} hfs := by
    rcases Fs.exec_metadata p fs with ⟨n, -, he⟩ | ⟨-, he⟩ <;>
      · rw [he]
        exact hfs
  change {fs} _ := by
    rcases Fs.exec_metadata p fs with ⟨n, -, he⟩ | ⟨-, he⟩ <;>
      · rw [he]
        exact Changes.refl A fs
  post _ _ := trivial
  alike {fs fs'} _ _ hlike := by
    simp only [Fs.metadata, Fs.exec_io, hlike p hp, alike_blocked hlike hp]
    cases hn : fs.node p <;> exact ⟨rfl, hlike⟩

/-- What is read fits its path. -/
theorem readFile_confined {p : Path} (hp : p ∈ A.look) :
    Confined A.confinement (Fs.readFile p) (A.fits p) where
  inv {fs} hfs := by
    rcases Fs.exec_readFile p fs with ⟨b, -, he⟩ | ⟨-, e, he⟩ <;>
      · rw [he]
        exact hfs
  change {fs} _ := by
    rcases Fs.exec_readFile p fs with ⟨b, -, he⟩ | ⟨-, e, he⟩ <;>
      · rw [he]
        exact Changes.refl A fs
  post {fs c} hfs hc := by
    rcases Fs.exec_readFile p fs with ⟨b, hb, he⟩ | ⟨-, e, he⟩
    · rw [he] at hc
      cases hc
      exact hfs p _ hb
    · rw [he] at hc
      cases hc
  alike {fs fs'} _ _ hlike := by
    simp only [Fs.readFile, Fs.exec_io, hlike p hp, alike_blocked hlike hp]
    cases hn : fs.node p with
    | none => exact ⟨rfl, hlike⟩
    | some m => cases m <;> exact ⟨rfl, hlike⟩

end Area

end Quill.Files
