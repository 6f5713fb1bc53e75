import Quill.Base.Program
import Quill.Files.Path
import Mathlib.Data.List.AList

/-!
# A file system as a finite tree

`Fs` maps each existing path to a directory or to a regular file with its contents. The
operations are those of `std::fs` on a tree without symbolic links and without faults:
they fail only where the tree itself forbids the operation (a missing parent, a
directory in place of a file). `readDir` lists a directory in the order of the
underlying list, which stands for the unspecified order of the operating system.

The file system's root `[]` is always a directory. Each operation has one lemma that says
what it does to every path (`createDirAll_grows`, `exec_writeFile`, `exec_rename`,
`exec_removeFile`); `exec_writeAtomic` does so for a temporary file that is renamed over its
target.
-/

namespace Quill.Files

/-- What stands at a path. -/
inductive Node where
  | dir
  | file (data : Bytes)
  deriving DecidableEq

/-- The part of `io::ErrorKind` that callers distinguish. -/
inductive IoKind where
  | notFound
  | other
  deriving DecidableEq

/-- The directories and files of the file system. -/
structure Fs where
  nodes : AList fun _ : Path => Node

namespace Fs

/-- A file system with its root alone. -/
def empty : Fs := ⟨∅⟩

/-- What stands at the path, if anything does. -/
def node (fs : Fs) (p : Path) : Option Node := fs.nodes.lookup p

/-- The node is put at the path. -/
def set (fs : Fs) (p : Path) (n : Node) : Fs := ⟨fs.nodes.insert p n⟩

/-- Nothing stands at the path any more. -/
def del (fs : Fs) (p : Path) : Fs := ⟨fs.nodes.erase p⟩

theorem node_set (fs : Fs) (p q : Path) (n : Node) :
    (fs.set p n).node q = if q = p then some n else fs.node q := by
  unfold node set
  split
  · rename_i h
    rw [h, AList.lookup_insert]
  · rename_i h
    exact AList.lookup_insert_ne h

theorem node_del (fs : Fs) (p q : Path) :
    (fs.del p).node q = if q = p then none else fs.node q := by
  unfold node del
  split
  · rename_i h
    rw [h, AList.lookup_erase]
  · rename_i h
    exact AList.lookup_erase_ne h

/-! ## Queries -/

/-- Whether `Path::is_dir`; the root is one. -/
def isDir (fs : Fs) (p : Path) : Bool := p.isEmpty || fs.node p = some .dir

/-- The contents of a regular file. -/
def read (fs : Fs) (p : Path) : Option Bytes :=
  match fs.node p with
  | some (.file b) => some b
  | _ => none

/-- Whether `Path::is_file`. -/
def isFile (fs : Fs) (p : Path) : Bool := (fs.read p).isSome

/-- `Path::exists`. -/
def exists? (fs : Fs) (p : Path) : Bool := p.isEmpty || (fs.node p).isSome

/-- A component above `p` is a regular file. -/
def blocked (fs : Fs) (p : Path) : Bool := p.tail.tails.any fun q => fs.isFile q && !fs.isDir q

/-- `fs::read_dir`: the names in a directory. -/
def readDir (fs : Fs) (p : Path) : List Name :=
  fs.nodes.keys.filterMap fun k =>
    match k with
    | [] => none
    | n :: q => if q = p then some n else none

theorem read_eq_some {fs : Fs} {p : Path} {b : Bytes} :
    fs.read p = some b ↔ fs.node p = some (.file b) := by
  unfold read
  split
  · rename_i c h
    rw [h]
    simp
  · rename_i h
    constructor
    · intro he
      cases he
    · intro he
      exact absurd he (h b)

theorem read_eq_none {fs : Fs} {p : Path} :
    fs.read p = none ↔ ∀ b, fs.node p ≠ some (.file b) := by
  simp only [Option.eq_none_iff_forall_ne_some, ne_eq, read_eq_some]

theorem read_congr {fs fs' : Fs} {p : Path} (h : fs'.node p = fs.node p) :
    fs'.read p = fs.read p := by
  unfold read
  rw [h]

theorem isDir_congr {fs fs' : Fs} {p : Path} (h : fs'.node p = fs.node p) :
    fs'.isDir p = fs.isDir p := by
  unfold isDir
  rw [h]

theorem isDir_nil (fs : Fs) : fs.isDir [] = true := rfl

theorem isDir_cons {fs : Fs} {n : Name} {p : Path} :
    fs.isDir (n :: p) = true ↔ fs.node (n :: p) = some .dir := by
  simp [isDir]

theorem isDir_iff {fs : Fs} {p : Path} : fs.isDir p = true ↔ p = [] ∨ fs.node p = some .dir := by
  simp [isDir]

theorem node_ne_dir_of_isDir {fs : Fs} {p : Path} (h : fs.isDir p = false) :
    fs.node p ≠ some .dir := by
  intro he
  rw [isDir_iff.mpr (Or.inr he)] at h
  cases h

theorem node_ne_dir_of_read {fs : Fs} {p : Path} {b : Bytes} (h : fs.read p = some b) :
    fs.node p ≠ some .dir := by
  rw [read_eq_some.mp h]
  simp

/-- A file in place of something that is no directory hides no directory. -/
theorem isDir_set_file {fs : Fs} {p q : Path} {b : Bytes} (hp : fs.node p ≠ some .dir)
    (hq : fs.isDir q = true) : (fs.set p (.file b)).isDir q = true := by
  rcases isDir_iff.mp hq with rfl | h
  · rfl
  · refine isDir_iff.mpr (Or.inr ?_)
    rw [node_set, if_neg, h]
    rintro rfl
    exact hp h

theorem isDir_del_file {fs : Fs} {p q : Path} (hp : fs.node p ≠ some .dir)
    (hq : fs.isDir q = true) : (fs.del p).isDir q = true := by
  rcases isDir_iff.mp hq with rfl | h
  · rfl
  · refine isDir_iff.mpr (Or.inr ?_)
    rw [node_del, if_neg, h]
    rintro rfl
    exact hp h

theorem mem_readDir {fs : Fs} {p : Path} {n : Name} :
    n ∈ fs.readDir p ↔ (fs.node (n :: p)).isSome = true := by
  unfold readDir node
  rw [AList.lookup_isSome, AList.mem_keys, List.mem_filterMap]
  constructor
  · rintro ⟨k, hk, he⟩
    cases k with
    | nil => cases he
    | cons m q =>
      by_cases hq : q = p
      · simp only [hq, if_true, Option.some.injEq] at he
        rw [← he, ← hq]
        exact hk
      · simp [hq] at he
  · intro h
    exact ⟨n :: p, h, by simp⟩

theorem nodup_readDir (fs : Fs) (p : Path) : (fs.readDir p).Nodup := by
  unfold readDir
  refine List.Nodup.filterMap ?_ fs.nodes.keys_nodup
  intro k k' n hk hk'
  cases k with
  | nil => cases hk
  | cons m q =>
    cases k' with
    | nil => cases hk'
    | cons m' q' =>
      by_cases hq : q = p <;> by_cases hq' : q' = p <;> simp_all

/-! ## Operations -/

/-- A system call; one that fails changes nothing. -/
def io {α : Type} (r : Fs → Except IoKind (α × Fs)) : Prog Fs IoKind α :=
  Prog.ofFun fun fs =>
    match r fs with
    | .ok (a, fs') => (.ok a, fs')
    | .error e => (.error e, fs)

/-- `fs::create_dir_all`. -/
def createDirAll : Path → Prog Fs IoKind Unit
  | [] => pure ()
  | n :: p => do
    createDirAll p
    io fun fs =>
      match fs.node (n :: p) with
      | some .dir => .ok ((), fs)
      | some (.file _) => .error .other
      | none => .ok ((), fs.set (n :: p) .dir)

/-- `File::create`, `write_all` and `flush`: a regular file with exactly these contents. -/
def writeFile (p : Path) (b : Bytes) : Prog Fs IoKind Unit :=
  io fun fs =>
    if fs.isDir p.tail = true ∧ fs.isDir p = false then .ok ((), fs.set p (.file b))
    else .error (if fs.isDir p then .other else .notFound)

/-- Open with `append(true)`, `write_all` and `flush`. -/
def appendFile (p : Path) (b : Bytes) : Prog Fs IoKind Unit :=
  io fun fs =>
    match fs.node p with
    | some (.file c) => .ok ((), fs.set p (.file (c ++ b)))
    | some .dir => .error .other
    | none => .error .notFound

/-- `fs::rename` of a regular file. -/
def rename (src dst : Path) : Prog Fs IoKind Unit :=
  io fun fs =>
    match fs.node src with
    | some (.file b) =>
      if fs.isDir dst.tail = true ∧ fs.isDir dst = false then
        .ok ((), (fs.del src).set dst (.file b))
      else .error (if fs.isDir dst then .other else .notFound)
    | some .dir => .error .other
    | none => .error .notFound

/-- `fs::remove_file`. -/
def removeFile (p : Path) : Prog Fs IoKind Unit :=
  io fun fs =>
    match fs.node p with
    | some (.file _) => .ok ((), fs.del p)
    | some .dir => .error .other
    | none => .error (if fs.blocked p then .other else .notFound)

/-- `fs::metadata`. -/
def metadata (p : Path) : Prog Fs IoKind Node :=
  io fun fs =>
    match fs.node p with
    | some n => .ok (n, fs)
    | none => .error (if fs.blocked p then .other else .notFound)

/-- `fs::read` of a whole regular file. -/
def readFile (p : Path) : Prog Fs IoKind Bytes :=
  io fun fs =>
    match fs.node p with
    | some (.file b) => .ok (b, fs)
    | some .dir => .error .other
    | none => .error (if fs.blocked p then .other else .notFound)

/-- Write a temporary file and rename it over its target. -/
def writeAtomic (tmp dst : Path) (b : Bytes) : Prog Fs IoKind Unit := do
  writeFile tmp b
  rename tmp dst

/-! ## What the operations do -/

@[simp] theorem exec_io {α : Type} (r : Fs → Except IoKind (α × Fs)) (fs : Fs) :
    (io r).exec fs = match r fs with
      | .ok (a, fs') => (.ok a, fs')
      | .error e => (.error e, fs) := rfl

/-- Only missing paths change, and they become directories. -/
def growsDirs : Evolution Fs where
  rel fs fs' := ∀ q, fs'.node q = fs.node q ∨ (fs.node q = none ∧ fs'.node q = some .dir)
  refl _ _ := Or.inl rfl
  trans h g q := by
    rcases g q with hg | ⟨hg, hg'⟩
    · rw [hg]
      exact h q
    · rcases h q with hh | ⟨hh, hh'⟩
      · exact Or.inr ⟨hh ▸ hg, hg'⟩
      · exact Or.inr ⟨hh, hg'⟩

theorem growsDirs_read {fs fs' : Fs} (h : growsDirs.rel fs fs') (q : Path) :
    fs'.read q = fs.read q := by
  rcases h q with h | ⟨h, h'⟩
  · exact read_congr h
  · simp [read, h, h']

theorem growsDirs_isDir {fs fs' : Fs} (h : growsDirs.rel fs fs') {q : Path}
    (hq : fs.isDir q = true) : fs'.isDir q = true := by
  rcases h q with h | ⟨h, h'⟩
  · rw [isDir_congr h]
    exact hq
  · exact isDir_iff.mpr (Or.inr h')

theorem createDirAll_grows (p : Path) : Moves growsDirs (createDirAll p) := by
  induction p with
  | nil => exact Moves.of_pure ()
  | cons n p ih =>
    refine ih.seq fun _ fs q => ?_
    simp only [exec_io]
    cases h : fs.node (n :: p) with
    | none =>
      simp only [node_set]
      split
      · rename_i hq
        exact Or.inr ⟨hq ▸ h, rfl⟩
      · exact Or.inl rfl
    | some m =>
      cases m with
      | dir => exact Or.inl rfl
      | file b => exact Or.inl rfl

/-- Only the path and what is above it can change. -/
theorem createDirAll_node {p q : Path} (hq : ¬ q <:+ p) :
    Moves (Evolution.fixed fun fs => fs.node q) (createDirAll p) := by
  induction p with
  | nil => exact Moves.of_pure ()
  | cons n p ih =>
    refine (ih fun h => hq (h.trans (List.suffix_cons n p))).seq fun _ fs => ?_
    show ((io _).exec fs).2.node q = fs.node q
    simp only [exec_io]
    cases h : fs.node (n :: p) with
    | none =>
      rw [node_set, if_neg]
      intro he
      exact hq (he ▸ List.suffix_refl _)
    | some m =>
      cases m with
      | dir => rfl
      | file b => rfl

theorem createDirAll_node_nil (p : Path) :
    Moves (Evolution.fixed fun fs => fs.node []) (createDirAll p) := by
  induction p with
  | nil => exact Moves.of_pure ()
  | cons n p ih =>
    refine ih.seq fun _ fs => ?_
    show ((io _).exec fs).2.node [] = fs.node []
    simp only [exec_io]
    cases h : fs.node (n :: p) with
    | none => rw [node_set, if_neg (List.cons_ne_nil n p).symm]
    | some m => cases m <;> rfl

/-- After a successful `create_dir_all` the path and everything above it are directories. -/
theorem createDirAll_isDir {p q : Path} {fs fs' : Fs}
    (h : (createDirAll p).exec fs = (.ok (), fs')) (hq : q <:+ p) : fs'.isDir q = true := by
  induction p generalizing fs' with
  | nil =>
    rw [List.suffix_nil.mp hq]
    rfl
  | cons n p ih =>
    obtain ⟨⟨⟩, fs₁, h₁, h₂⟩ := Prog.exec_bind_eq_ok.mp h
    have hgrow : growsDirs.rel fs₁ fs' ∧ fs'.isDir (n :: p) = true := by
      simp only [exec_io] at h₂
      cases hn : fs₁.node (n :: p) with
      | none =>
        simp only [hn, Prod.mk.injEq, true_and] at h₂
        subst h₂
        refine ⟨fun r => ?_, isDir_cons.mpr (by simp [node_set])⟩
        rw [node_set]
        split
        · rename_i hr
          exact Or.inr ⟨hr ▸ hn, rfl⟩
        · exact Or.inl rfl
      | some m =>
        cases m with
        | dir =>
          simp only [hn, Prod.mk.injEq, true_and] at h₂
          subst h₂
          exact ⟨growsDirs.refl _, isDir_cons.mpr hn⟩
        | file b => simp [hn] at h₂
    rcases List.suffix_cons_iff.mp hq with rfl | hq
    · exact hgrow.2
    · exact growsDirs_isDir hgrow.1 (ih h₁ hq)

/-- Where no file is in the way, all directories can be created. -/
theorem exec_createDirAll {p : Path} {fs : Fs} (h : ∀ q, q <:+ p → q ≠ [] → fs.read q = none) :
    ∃ fs', (createDirAll p).exec fs = (.ok (), fs') := by
  induction p with
  | nil => exact ⟨fs, rfl⟩
  | cons n p ih =>
    obtain ⟨fs₁, h₁⟩ := ih fun q hq hne => h q (hq.trans (List.suffix_cons n p)) hne
    have hgrow : growsDirs.rel fs fs₁ := (createDirAll_grows p).rel_of_exec h₁
    have hread : fs₁.read (n :: p) = none :=
      (growsDirs_read hgrow _).trans (h _ (List.suffix_refl _) (List.cons_ne_nil n p))
    have hstep : (createDirAll (n :: p)).exec fs = _ := Prog.exec_bind_ok h₁
    rw [hstep, exec_io]
    cases hn : fs₁.node (n :: p) with
    | none => exact ⟨_, rfl⟩
    | some m =>
      cases m with
      | dir => exact ⟨_, rfl⟩
      | file b => exact absurd hn (read_eq_none.mp hread b)

theorem blocked_eq_false {fs : Fs} {p : Path} :
    fs.blocked p = false ↔ ∀ q, q <:+ p.tail → q ≠ [] → fs.read q = none := by
  simp only [blocked, List.any_eq_false, List.mem_tails, Bool.and_eq_true, Bool.not_eq_true',
    not_and, Bool.not_eq_false]
  constructor
  · intro h q hq hne
    by_contra hread
    obtain ⟨b, hb⟩ := Option.ne_none_iff_exists'.mp hread
    rcases isDir_iff.mp (h q hq (by simp [isFile, hb])) with hnil | hdir
    · exact hne hnil
    · exact node_ne_dir_of_read hb hdir
  · intro h q hq hfile
    by_contra hdir
    have hne : q ≠ [] := fun he => hdir (isDir_iff.mpr (Or.inl he))
    simp [isFile, h q hq hne] at hfile

/-- The directories above a path can be created exactly when none of them is a file. -/
theorem exec_createDirAll_iff {p : Path} {fs : Fs} :
    (∃ fs', (createDirAll p.tail).exec fs = (.ok (), fs')) ↔ fs.blocked p = false := by
  rw [blocked_eq_false]
  constructor
  · intro ⟨fs', he⟩ q hq hne
    rw [← growsDirs_read ((createDirAll_grows _).rel_of_exec he)]
    rcases isDir_iff.mp (createDirAll_isDir he hq) with hnil | hdir
    · exact absurd hnil hne
    · simp [read, hdir]
  · exact exec_createDirAll

theorem exec_writeFile (p : Path) (b : Bytes) (fs : Fs) :
    (fs.isDir p = false ∧ fs.isDir p.tail = true ∧
      (writeFile p b).exec fs = (.ok (), fs.set p (.file b))) ∨
    ∃ e, (writeFile p b).exec fs = (.error e, fs) := by
  simp only [writeFile, exec_io]
  by_cases h : fs.isDir p.tail = true ∧ fs.isDir p = false
  · exact Or.inl ⟨h.2, h.1, by simp [h]⟩
  · exact Or.inr ⟨_, by rw [if_neg h]⟩

theorem exec_appendFile (p : Path) (b : Bytes) (fs : Fs) :
    (∃ c, fs.read p = some c ∧
      (appendFile p b).exec fs = (.ok (), fs.set p (.file (c ++ b)))) ∨
    (fs.read p = none ∧ ∃ e, (appendFile p b).exec fs = (.error e, fs)) := by
  simp only [appendFile, exec_io, read]
  cases h : fs.node p with
  | none => exact Or.inr ⟨rfl, _, rfl⟩
  | some m =>
    cases m with
    | dir => exact Or.inr ⟨rfl, _, rfl⟩
    | file c => exact Or.inl ⟨c, rfl, rfl⟩

theorem exec_rename (src dst : Path) (fs : Fs) :
    (∃ b, fs.read src = some b ∧ fs.isDir dst = false ∧ fs.isDir dst.tail = true ∧
      (rename src dst).exec fs = (.ok (), (fs.del src).set dst (.file b))) ∨
    ∃ e, (rename src dst).exec fs = (.error e, fs) := by
  simp only [rename, exec_io, read]
  cases h : fs.node src with
  | none => exact Or.inr ⟨_, rfl⟩
  | some m =>
    cases m with
    | dir => exact Or.inr ⟨_, rfl⟩
    | file b =>
      by_cases hd : fs.isDir dst.tail = true ∧ fs.isDir dst = false
      · exact Or.inl ⟨b, rfl, hd.2, hd.1, by simp [hd]⟩
      · exact Or.inr ⟨_, by simp only [if_neg hd]; rfl⟩

theorem exec_rename_ok {src dst : Path} {fs : Fs} {b : Bytes} (hsrc : fs.read src = some b)
    (hparent : fs.isDir dst.tail = true) (hdst : fs.isDir dst = false) :
    (rename src dst).exec fs = (.ok (), (fs.del src).set dst (.file b)) := by
  simp only [rename, exec_io, read_eq_some.mp hsrc, if_pos (And.intro hparent hdst)]

/-- No file stands in the way of the directories above `p`, and `p` is no directory. -/
def HasRoom (fs : Fs) (p : Path) : Prop := (∀ q, q <:+ p.tail → fs.read q = none) ∧ fs.isDir p = false

/-- Where no file is in the way of a file, its directories can be created around it. -/
theorem exec_createDirAll_tail {fs : Fs} {p : Path} (hblocked : fs.blocked p = false)
    (hdir : fs.isDir p = false) :
    ∃ fs', (createDirAll p.tail).exec fs = (.ok (), fs') ∧ growsDirs.rel fs fs' ∧
      fs'.isDir p.tail = true ∧ fs'.isDir p = false := by
  obtain ⟨fs', he⟩ := exec_createDirAll_iff.mpr hblocked
  have hkeep : fs'.node p = fs.node p := by
    refine (createDirAll_node ?_).rel_of_exec he
    cases p with
    | nil => cases hdir
    | cons n p => exact fun hsuffix => absurd hsuffix.length_le (by simp)
  refine ⟨fs', he, (createDirAll_grows _).rel_of_exec he, createDirAll_isDir he (List.suffix_refl _), ?_⟩
  rw [isDir_congr hkeep]
  exact hdir

theorem HasRoom.exec_createDirAll {fs : Fs} {p : Path} (h : fs.HasRoom p) :
    ∃ fs', (createDirAll p.tail).exec fs = (.ok (), fs') ∧ growsDirs.rel fs fs' ∧
      fs'.isDir p.tail = true ∧ fs'.isDir p = false :=
  exec_createDirAll_tail (blocked_eq_false.mpr fun q hq _ => h.1 q hq) h.2

theorem exec_removeFile (p : Path) (fs : Fs) :
    (∃ b, fs.read p = some b ∧ (removeFile p).exec fs = (.ok (), fs.del p)) ∨
    (fs.read p = none ∧ ∃ e, (removeFile p).exec fs = (.error e, fs) ∧
      (e = .notFound → fs.node p = none)) := by
  simp only [removeFile, exec_io, read]
  cases h : fs.node p with
  | none => exact Or.inr ⟨rfl, _, rfl, fun _ => rfl⟩
  | some m =>
    cases m with
    | dir => exact Or.inr ⟨rfl, _, rfl, fun he => by cases he⟩
    | file b => exact Or.inl ⟨b, rfl, rfl⟩

theorem exec_metadata (p : Path) (fs : Fs) :
    (∃ n, fs.node p = some n ∧ (metadata p).exec fs = (.ok n, fs)) ∨
    (fs.node p = none ∧
      (metadata p).exec fs = (.error (if fs.blocked p then .other else .notFound), fs)) := by
  simp only [metadata, exec_io]
  cases h : fs.node p with
  | none => exact Or.inr ⟨rfl, rfl⟩
  | some n => exact Or.inl ⟨n, rfl, rfl⟩

theorem exec_readFile (p : Path) (fs : Fs) :
    (∃ b, fs.read p = some b ∧ (readFile p).exec fs = (.ok b, fs)) ∨
    (fs.read p = none ∧ ∃ e, (readFile p).exec fs = (.error e, fs)) := by
  simp only [readFile, exec_io, read]
  cases h : fs.node p with
  | none => exact Or.inr ⟨rfl, _, rfl⟩
  | some m =>
    cases m with
    | dir => exact Or.inr ⟨rfl, _, rfl⟩
    | file b => exact Or.inl ⟨b, rfl, rfl⟩

/-- The three ways an atomic write can end: nothing was written, only the temporary
file was written, or the target has the new contents and the temporary file is gone. -/
theorem exec_writeAtomic {tmp dst : Path} (hne : tmp ≠ dst) (b : Bytes) (fs : Fs) :
    (∃ e, (writeAtomic tmp dst b).exec fs = (.error e, fs)) ∨
    (fs.isDir tmp = false ∧
      ∃ e, (writeAtomic tmp dst b).exec fs = (.error e, fs.set tmp (.file b))) ∨
    (fs.isDir tmp = false ∧ fs.isDir dst = false ∧
      ∃ fs', (writeAtomic tmp dst b).exec fs = (.ok (), fs') ∧
        ∀ q, fs'.node q = if q = dst then some (.file b) else if q = tmp then none else fs.node q) := by
  unfold writeAtomic
  rcases exec_writeFile tmp b fs with ⟨hdir, -, hw⟩ | ⟨e, hw⟩
  · rw [Prog.exec_bind_ok hw]
    rcases exec_rename tmp dst (fs.set tmp (.file b)) with ⟨c, hc, hd, -, hr⟩ | ⟨e, hr⟩
    · refine Or.inr (Or.inr ⟨hdir, ?_, _, hr, ?_⟩)
      · have hnode : (fs.set tmp (.file b)).node dst = fs.node dst := by
          rw [node_set, if_neg hne.symm]
        rw [← isDir_congr hnode]
        exact hd
      · intro q
        have hcb : c = b := by
          rw [read_eq_some, node_set, if_pos rfl] at hc
          cases hc
          rfl
        rw [node_set, node_del, node_set, hcb]
        by_cases hq : q = dst
        · simp [hq]
        · by_cases hq' : q = tmp <;> simp [hq, hq']
    · exact Or.inr (Or.inl ⟨hdir, e, hr⟩)
  · exact Or.inl ⟨e, Prog.exec_bind_error hw⟩

/-- An atomic write in an existing directory, with no directory in the place of either file. -/
theorem exec_writeAtomic_ok {tmp dst : Path} (hne : tmp ≠ dst) (b : Bytes) {fs : Fs}
    (htmpdir : fs.isDir tmp.tail = true) (htmp : fs.isDir tmp = false)
    (hdstdir : fs.isDir dst.tail = true) (hdst : fs.isDir dst = false) :
    ∃ fs', (writeAtomic tmp dst b).exec fs = (.ok (), fs') ∧
      ∀ q, fs'.node q = if q = dst then some (.file b) else if q = tmp then none else fs.node q := by
  have hwrite : (writeFile tmp b).exec fs = (.ok (), fs.set tmp (.file b)) := by
    rw [writeFile, exec_io, if_pos ⟨htmpdir, htmp⟩]
  have hrename : (rename tmp dst).exec (fs.set tmp (.file b)) =
      (.ok (), ((fs.set tmp (.file b)).del tmp).set dst (.file b)) := by
    refine exec_rename_ok ?_ ?_ ?_
    · rw [read_eq_some, node_set, if_pos rfl]
    · exact isDir_set_file (node_ne_dir_of_isDir htmp) hdstdir
    · have hnode : (fs.set tmp (.file b)).node dst = fs.node dst := by rw [node_set, if_neg hne.symm]
      rw [isDir_congr hnode]
      exact hdst
  refine ⟨_, (Prog.exec_bind_ok hwrite).trans hrename, fun q => ?_⟩
  rw [node_set, node_del, node_set]
  by_cases hq : q = dst
  · simp [hq]
  · by_cases hq' : q = tmp <;> simp [hq, hq']

/-! ## Connected trees -/

/-- Everything that exists stands in a directory. -/
def Connected (fs : Fs) : Prop := ∀ n p, (fs.node (n :: p)).isSome = true → fs.isDir p = true

namespace Connected

variable {fs : Fs} {p : Path}

/-- What is above a directory are directories. -/
theorem isDir_suffix (h : fs.Connected) (hp : fs.isDir p = true) {q : Path} (hq : q <:+ p) :
    fs.isDir q = true := by
  induction p with
  | nil =>
    rw [List.suffix_nil.mp hq]
    rfl
  | cons n p ih =>
    rcases List.suffix_cons_iff.mp hq with rfl | hq
    · exact hp
    · refine ih (h n p ?_) hq
      rw [isDir_cons.mp hp]
      rfl

theorem isDir_tail (h : fs.Connected) {b : Bytes} (hp : fs.read p = some b) :
    fs.isDir p.tail = true := by
  cases p with
  | nil => rfl
  | cons n p =>
    refine h n p ?_
    rw [read_eq_some.mp hp]
    rfl

theorem set_file (h : fs.Connected) {b : Bytes} (hp : fs.node p ≠ some .dir)
    (hparent : fs.isDir p.tail = true) : (fs.set p (.file b)).Connected := by
  intro n q hq
  refine isDir_set_file hp ?_
  by_cases he : n :: q = p
  · subst he
    exact hparent
  · rw [node_set, if_neg he] at hq
    exact h n q hq

theorem del_file (h : fs.Connected) (hp : fs.node p ≠ some .dir) : (fs.del p).Connected := by
  intro n q hq
  refine isDir_del_file hp (h n q ?_)
  rw [node_del] at hq
  split at hq
  · cases hq
  · exact hq

theorem createDirAll (h : fs.Connected) (p : Path) : ((createDirAll p).exec fs).2.Connected := by
  induction p with
  | nil => exact h
  | cons n p ih =>
    unfold Fs.createDirAll
    rcases Prog.exec_bind_cases (Fs.createDirAll p) _ fs with ⟨e, fs₁, he, hbind⟩ | ⟨⟨⟩, fs₁, he, hbind⟩
    · rw [hbind]
      rwa [he] at ih
    · rw [hbind, exec_io]
      rw [he] at ih
      have hparent : fs₁.isDir p = true := createDirAll_isDir he (List.suffix_refl p)
      cases hn : fs₁.node (n :: p) with
      | none =>
        -- the new directory stands in the last one that was created
        intro m q hq
        have hgrow : growsDirs.rel fs₁ (fs₁.set (n :: p) .dir) := by
          intro r
          rw [node_set]
          split
          · rename_i hr
            exact Or.inr ⟨hr ▸ hn, rfl⟩
          · exact Or.inl rfl
        refine growsDirs_isDir hgrow ?_
        by_cases hmq : m :: q = n :: p
        · cases hmq
          exact hparent
        · rw [node_set, if_neg hmq] at hq
          exact ih m q hq
      | some k => cases k <;> exact ih

end Connected

end Fs

end Quill.Files
