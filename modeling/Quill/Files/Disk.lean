import Quill.Base.Text
import Mathlib.Logic.Function.Basic

/-!
# Files that outlive their paths

A `Disk` numbers its files: directory entries point to numbers, and a handle that was opened keeps
its file when the path is renamed or removed. Creating a path that exists empties its
file, otherwise the file is new. That the numbers in use are below `next` and that
no file has two names is part of the type.
-/

namespace Quill.Files

open Text

/-- Files with their contents and the paths that name them; an open file outlives its path. -/
structure Disk (π : Type) where
  contents : Nat → Bytes
  entry : π → Option Nat
  next : Nat
  entry_lt : ∀ {p file}, entry p = some file → file < next
  entry_inj : ∀ {p q file}, entry p = some file → entry q = some file → p = q

namespace Disk

variable {π : Type}

/-- No files and no paths. -/
def empty : Disk π := ⟨fun _ => [], fun _ => none, 0, nofun, nofun⟩

/-- The file that creating `p` gives. -/
def created (d : Disk π) (p : π) : Nat := (d.entry p).getD d.next

/-- A file that `p` does not name is not the one that creating `p` gives. -/
theorem created_ne {d : Disk π} {p : π} {file : Nat} (hlt : file < d.next)
    (hne : d.entry p ≠ some file) : d.created p ≠ file := by
  intro h
  unfold created at h
  cases hp : d.entry p with
  | none =>
    rw [hp] at h
    simp only [Option.getD_none] at h
    omega
  | some f =>
    rw [hp] at h hne
    exact hne (congrArg some h)

/-- The bytes are written at the end of the file. -/
def append (d : Disk π) (file : Nat) (b : Bytes) : Disk π :=
  { d with contents := Function.update d.contents file (d.contents file ++ b) }

@[simp] theorem append_contents (d : Disk π) (file : Nat) (b : Bytes) :
    (d.append file b).contents = Function.update d.contents file (d.contents file ++ b) := rfl

/-- The contents after a write of `b` at an offset; a gap is filled with zeros. -/
def overwrite (contents : Bytes) (offset : Nat) (b : Bytes) : Bytes :=
  (contents ++ List.replicate (offset - contents.length) 0).take offset ++ b ++
    contents.drop (offset + b.length)

theorem overwrite_end (contents b : Bytes) :
    overwrite contents contents.length b = contents ++ b := by
  unfold overwrite
  rw [Nat.sub_self, List.replicate_zero, List.append_nil, List.take_length,
    List.drop_of_length_le (Nat.le_add_right _ _), List.append_nil]

/-- A write through a handle at its offset. -/
def writeAt (d : Disk π) (file offset : Nat) (b : Bytes) : Disk π :=
  { d with contents := Function.update d.contents file (overwrite (d.contents file) offset b) }

/-- The file at a path and its contents. -/
def look (d : Disk π) (p : π) : Option (Nat × Bytes) :=
  (d.entry p).map fun file => (file, d.contents file)

theorem look_eq_some {d : Disk π} {p : π} {file : Nat} {b : Bytes} :
    d.look p = some (file, b) ↔ d.entry p = some file ∧ d.contents file = b := by
  unfold look
  cases h : d.entry p with
  | none => simp
  | some f =>
    simp only [Option.map_some, Option.some.injEq, Prod.mk.injEq]
    constructor
    · rintro ⟨rfl, hb⟩
      exact ⟨rfl, hb⟩
    · rintro ⟨rfl, hb⟩
      exact ⟨rfl, hb⟩

/-- New contents of one file show at the path of the file only. -/
theorem look_update {d d' : Disk π} {p q : π} {file : Nat} {b : Bytes} (hentry : d'.entry = d.entry)
    (hcontents : d'.contents = Function.update d.contents file b) (hp : d.entry p = some file)
    (hq : q ≠ p) : d'.look q = d.look q := by
  unfold look
  rw [hentry]
  cases h : d.entry q with
  | none => rfl
  | some f =>
    have hne : f ≠ file := fun he => hq (d.entry_inj h (he ▸ hp))
    rw [Option.map_some, Option.map_some, hcontents, Function.update_of_ne hne]

theorem look_append {d : Disk π} {p q : π} {file : Nat} (hp : d.entry p = some file) (b : Bytes)
    (hq : q ≠ p) : (d.append file b).look q = d.look q :=
  look_update rfl rfl hp hq

theorem look_writeAt {d : Disk π} {p q : π} {file : Nat} (hp : d.entry p = some file) (offset : Nat)
    (b : Bytes) (hq : q ≠ p) : (d.writeAt file offset b).look q = d.look q :=
  look_update rfl rfl hp hq

/-- A write at the end of the file. -/
theorem look_writeAt_end {d : Disk π} {p : π} {file : Nat} {done : Bytes}
    (h : d.look p = some (file, done)) (b : Bytes) :
    (d.writeAt file done.length b).look p = some (file, done ++ b) := by
  obtain ⟨hentry, hcontents⟩ := look_eq_some.mp h
  rw [look_eq_some]
  refine ⟨hentry, ?_⟩
  show Function.update d.contents file _ file = _
  rw [Function.update_self, hcontents, overwrite_end]

/-- The path that names the file that creating `p` gives is `p`. -/
theorem created_eq {d : Disk π} {p q : π} (h : d.entry q = some (d.created p)) : p = q := by
  by_contra hne
  have hcreated : d.created p ≠ d.created p := by
    refine created_ne (d.entry_lt h) fun hp => hne (d.entry_inj hp h)
  exact hcreated rfl

variable [DecidableEq π]

theorem update_inj {entry : π → Option Nat} {p : π} {file : Nat}
    (hinj : ∀ {q r f}, entry q = some f → entry r = some f → q = r)
    (hp : ∀ q, q ≠ p → entry q = some file → q = p) {q r : π} {f : Nat}
    (hq : Function.update entry p (some file) q = some f)
    (hr : Function.update entry p (some file) r = some f) : q = r := by
  by_cases hqp : q = p
  · by_cases hrp : r = p
    · rw [hqp, hrp]
    · rw [hqp, Function.update_self] at hq
      rw [Function.update_of_ne hrp] at hr
      cases hq
      exact hqp.trans (hp r hrp hr).symm
  · rw [Function.update_of_ne hqp] at hq
    by_cases hrp : r = p
    · rw [hrp, Function.update_self] at hr
      cases hr
      exact (hp q hqp hq).trans hrp.symm
    · rw [Function.update_of_ne hrp] at hr
      exact hinj hq hr

/-- `File::create`: an empty file at `p`. -/
def create (d : Disk π) (p : π) : Disk π where
  contents := Function.update d.contents (d.created p) []
  entry := Function.update d.entry p (some (d.created p))
  next := max d.next (d.created p + 1)
  entry_lt := by
    intro q file h
    by_cases hq : q = p
    · subst hq
      rw [Function.update_self] at h
      cases h
      omega
    · rw [Function.update_of_ne hq] at h
      have hlt := d.entry_lt h
      omega
  entry_inj := update_inj d.entry_inj fun q _ hq => (created_eq hq).symm

/-- The path is unlinked; the contents stay for those who have the file open. -/
def remove (d : Disk π) (p : π) : Disk π where
  contents := d.contents
  entry := Function.update d.entry p none
  next := d.next
  entry_lt := by
    intro q file h
    by_cases hq : q = p
    · subst hq
      rw [Function.update_self] at h
      cases h
    · rw [Function.update_of_ne hq] at h
      exact d.entry_lt h
  entry_inj := by
    intro q r file hq hr
    by_cases hqp : q = p
    · rw [hqp, Function.update_self] at hq
      cases hq
    · by_cases hrp : r = p
      · rw [hrp, Function.update_self] at hr
        cases hr
      · rw [Function.update_of_ne hqp] at hq
        rw [Function.update_of_ne hrp] at hr
        exact d.entry_inj hq hr

theorem remove_unnamed (d : Disk π) {p : π} {file : Nat} (h : d.entry p = some file) (q : π) :
    (d.remove p).entry q ≠ some file := by
  intro hq
  have hupdate : Function.update d.entry p none q = some file := hq
  by_cases hqp : q = p
  · rw [hqp, Function.update_self] at hupdate
    cases hupdate
  · rw [Function.update_of_ne hqp] at hupdate
    exact hqp (d.entry_inj hupdate h)

/-- Let `p` name the given file, which has no name. -/
def link (d : Disk π) (p : π) (file : Nat) (hfile : file < d.next)
    (hunnamed : ∀ q, d.entry q ≠ some file) : Disk π where
  contents := d.contents
  entry := Function.update d.entry p (some file)
  next := d.next
  entry_lt := by
    intro q f h
    by_cases hq : q = p
    · subst hq
      rw [Function.update_self] at h
      cases h
      exact hfile
    · rw [Function.update_of_ne hq] at h
      exact d.entry_lt h
  entry_inj := update_inj d.entry_inj fun q _ hq => absurd hq (hunnamed q)

/-- Move the file at `p`, if there is one, to `q`. -/
def rename (d : Disk π) (p q : π) : Option (Disk π) :=
  match h : d.entry p with
  | none => none
  | some file => some ((d.remove p).link q file (d.entry_lt h) (d.remove_unnamed h))

@[simp] theorem remove_contents (d : Disk π) (p : π) : (d.remove p).contents = d.contents := rfl

@[simp] theorem remove_entry (d : Disk π) (p : π) :
    (d.remove p).entry = Function.update d.entry p none := rfl

@[simp] theorem create_contents (d : Disk π) (p : π) :
    (d.create p).contents = Function.update d.contents (d.created p) [] := rfl

@[simp] theorem create_entry (d : Disk π) (p : π) :
    (d.create p).entry = Function.update d.entry p (some (d.created p)) := rfl

theorem next_le_create (d : Disk π) (p : π) : d.next ≤ (d.create p).next := le_max_left _ _

theorem created_lt (d : Disk π) (p : π) : d.created p < (d.create p).next :=
  Nat.lt_of_succ_le (le_max_right _ _)

theorem rename_eq_some {d d' : Disk π} {p q : π} (h : d.rename p q = some d') :
    ∃ file, d.entry p = some file ∧ d'.contents = d.contents ∧ d'.next = d.next ∧
      d'.entry = Function.update (Function.update d.entry p none) q (some file) := by
  unfold rename at h
  split at h
  · cases h
  · rename_i file hfile
    cases h
    exact ⟨file, hfile, rfl, rfl, rfl⟩

theorem rename_eq_none {d : Disk π} {p q : π} : d.rename p q = none ↔ d.entry p = none := by
  unfold rename
  split <;> simp_all

theorem look_create_self (d : Disk π) (p : π) : (d.create p).look p = some (d.created p, []) := by
  rw [look_eq_some, create_entry, create_contents, Function.update_self, Function.update_self]
  exact ⟨rfl, rfl⟩

theorem look_create (d : Disk π) {p q : π} (hq : q ≠ p) : (d.create p).look q = d.look q := by
  unfold look
  rw [create_entry, create_contents, Function.update_of_ne hq]
  cases h : d.entry q with
  | none => rfl
  | some f =>
    have hne : f ≠ d.created p := by
      intro he
      rw [he] at h
      exact hq (created_eq h).symm
    rw [Option.map_some, Option.map_some, Function.update_of_ne hne]

theorem look_remove (d : Disk π) {p q : π} (hq : q ≠ p) : (d.remove p).look q = d.look q := by
  unfold look
  rw [remove_entry, remove_contents, Function.update_of_ne hq]

/-- The file is at the target, no longer at the source, and other paths are as before. -/
theorem look_rename {d d' : Disk π} {p q : π} (h : d.rename p q = some d') (hne : p ≠ q) :
    d'.look q = d.look p ∧ d'.look p = none ∧ ∀ r, r ≠ p → r ≠ q → d'.look r = d.look r := by
  obtain ⟨file, hfile, hcontents, -, hentry⟩ := rename_eq_some h
  unfold look
  rw [hentry, hcontents]
  refine ⟨?_, ?_, fun r hp hq => ?_⟩
  · rw [Function.update_self, hfile]
  · rw [Function.update_of_ne hne, Function.update_self]
    rfl
  · rw [Function.update_of_ne hq, Function.update_of_ne hp]

end Disk

end Quill.Files
