import Quill.Base.Text
import Mathlib.Data.List.Infix

/-!
# Names and paths

A `Name` is a component a directory can hold: not empty, not `.` or `..`, and free of `/`.
A `Path` is an absolute path after resolution, as the list of its components with the
innermost first: the parent of `n :: p` is `p` and the file system's root is `[]`.

`join p s` is `Path::join` with the text resolved, on a tree without symbolic links: an absolute `s`
replaces `p`, empty components and `.` are dropped and `..` goes to the parent. This is where the
operating system comes to when all components on the way are directories; the way itself is
in `Quill.Files.Ways`. `relative` renders the components below a directory as text,
which is what `strip_prefix` followed by `to_string_lossy` gives. A text is `Plain` when
all its components are names; joining a plain text and rendering are inverse to each
other (`join_relative`, `Plain.exists_relative`).
-/

namespace Quill.Files

open Text

/-- A component that names an entry of a directory. -/
def ValidName (s : Str) : Prop := s ≠ [] ∧ s ≠ ['.'] ∧ s ≠ ['.', '.'] ∧ '/' ∉ s

instance (s : Str) : Decidable (ValidName s) := inferInstanceAs (Decidable (_ ∧ _))

/-- The name of an entry of a directory. -/
abbrev Name := { s : Str // ValidName s }

/-- A path from the file system's root, the last component first. -/
abbrev Path := List Name

/-- Enter one raw component. -/
def enter (p : Path) (s : Str) : Path :=
  if s = ['.', '.'] then p.tail
  else if h : ValidName s then ⟨s, h⟩ :: p
  else p

/-- Enter raw components one after the other. -/
def resolve (p : Path) (segments : List Str) : Path := segments.foldl enter p

/-- `Path::join`, resolved. -/
def join (p : Path) (s : Str) : Path :=
  resolve (if s.head? = some '/' then [] else p) (s.splitOn '/')

/-- The text of the components `segs` (innermost first) below some directory. -/
def relative (segs : Path) : Str := ['/'].intercalate (segs.reverse.map Subtype.val)

/-- `Path::strip_prefix`: the components of `q` below `p`. -/
def stripPrefix (p q : Path) : Option Path :=
  if p.isSuffixOf q then some (q.take (q.length - p.length)) else none

/-- Every component of the text is a name: none is empty, `.` or `..`. -/
def Plain (s : Str) : Prop := ∀ seg ∈ s.splitOn '/', ValidName seg

instance (s : Str) : Decidable (Plain s) := inferInstanceAs (Decidable (∀ seg ∈ _, _))

/-! ## Resolution -/

theorem enter_name (p : Path) (n : Name) : enter p n.val = n :: p := by
  have h : n.val ≠ ['.', '.'] := n.property.2.2.1
  simp [enter, h, n.property]

theorem resolve_names (p : Path) (names : List Name) :
    resolve p (names.map Subtype.val) = names.reverse ++ p := by
  induction names generalizing p with
  | nil => rfl
  | cons n names ih =>
    have h := ih (n :: p)
    simp only [resolve, List.map_cons, List.foldl_cons, enter_name] at h ⊢
    rw [h]
    simp

theorem stripPrefix_append (segs p : Path) : stripPrefix p (segs ++ p) = some segs := by
  have h : p.isSuffixOf (segs ++ p) = true :=
    List.isSuffixOf_iff_suffix.mpr (List.suffix_append _ _)
  simp [stripPrefix, h]

theorem stripPrefix_eq_some {p q segs : Path} : stripPrefix p q = some segs ↔ q = segs ++ p := by
  constructor
  · intro h
    unfold stripPrefix at h
    split at h
    · rename_i hsuffix
      obtain ⟨above, rfl⟩ := List.isSuffixOf_iff_suffix.mp hsuffix
      simp only [List.length_append, Nat.add_sub_cancel, List.take_left, Option.some.injEq] at h
      rw [h]
    · cases h
  · rintro rfl
    exact stripPrefix_append segs p

theorem splitOn_relative {segs : Path} (h : segs ≠ []) :
    (relative segs).splitOn '/' = segs.reverse.map Subtype.val := by
  apply List.splitOn_intercalate
  · intro l hl
    obtain ⟨n, -, rfl⟩ := List.mem_map.mp hl
    exact n.property.2.2.2
  · intro he
    exact h (List.reverse_eq_nil_iff.mp (List.map_eq_nil_iff.mp he))

theorem plain_relative {segs : Path} (h : segs ≠ []) : Plain (relative segs) := by
  intro seg hseg
  rw [splitOn_relative h] at hseg
  obtain ⟨n, -, rfl⟩ := List.mem_map.mp hseg
  exact n.property

theorem relative_ne_nil {segs : Path} (h : segs ≠ []) : relative segs ≠ [] := by
  intro he
  have hplain := plain_relative h
  rw [he] at hplain
  exact (hplain [] (by simp)).1 rfl

theorem Plain.head_ne {s : Str} (h : Plain s) : s.head? ≠ some '/' := by
  intro hs
  cases s with
  | nil => cases hs
  | cons c cs =>
    cases hs
    have hmem : ([] : Str) ∈ ('/' :: cs).splitOn '/' := by
      rw [List.splitOn_cons_eq_if_modifyHead]
      simp
    exact (h [] hmem).1 rfl

/-- The components of a plain text, innermost first. -/
def Plain.segs {s : Str} (h : Plain s) : Path :=
  ((s.splitOn '/').attach.map fun seg => (⟨seg.val, h seg.val seg.property⟩ : Name)).reverse

theorem Plain.segs_ne_nil {s : Str} (h : Plain s) : h.segs ≠ [] := by
  simp [Plain.segs]

theorem Plain.relative_segs {s : Str} (h : Plain s) : relative h.segs = s := by
  have hmap : h.segs.reverse.map Subtype.val = s.splitOn '/' := by
    simp [Plain.segs, List.map_map, Function.comp_def]
  rw [relative, hmap, List.intercalate_splitOn]

theorem Plain.mem_segs {s : Str} (h : Plain s) {n : Name} : n ∈ h.segs ↔ n.val ∈ s.splitOn '/' := by
  simp only [Plain.segs, List.mem_reverse, List.mem_map, List.mem_attach, true_and, Subtype.exists]
  constructor
  · rintro ⟨seg, hseg, rfl⟩
    exact hseg
  · exact fun hn => ⟨n.val, hn, rfl⟩

theorem Plain.exists_relative {s : Str} (h : Plain s) :
    ∃ segs, segs ≠ [] ∧ s = relative segs :=
  ⟨h.segs, h.segs_ne_nil, h.relative_segs.symm⟩

/-- Joining the rendered components leads back to them. -/
theorem join_relative (p : Path) {segs : Path} (h : segs ≠ []) :
    join p (relative segs) = segs ++ p := by
  unfold join
  rw [if_neg (plain_relative h).head_ne, splitOn_relative h, resolve_names, List.reverse_reverse]

theorem relative_injective {a b : Path} (ha : a ≠ []) (hb : b ≠ [])
    (h : relative a = relative b) : a = b := by
  have hs := congrArg (List.splitOn '/') h
  rw [splitOn_relative ha, splitOn_relative hb] at hs
  exact List.reverse_injective (List.map_injective_iff.mpr Subtype.val_injective hs)

theorem Plain.join_eq {s : Str} (h : Plain s) (p : Path) : join p s = h.segs ++ p := by
  rw [← join_relative p h.segs_ne_nil, h.relative_segs]

/-- Different plain texts lead to different paths. -/
theorem Plain.join_injective {s t : Str} (hs : Plain s) (ht : Plain t) {p : Path}
    (h : join p s = join p t) : s = t := by
  rw [hs.join_eq, ht.join_eq] at h
  rw [← hs.relative_segs, ← ht.relative_segs, List.append_cancel_right h]

theorem validName_of_length {s : Str} (hlen : 2 < s.length) (hs : '/' ∉ s) : ValidName s := by
  refine ⟨?_, ?_, ?_, hs⟩ <;>
    · rintro rfl
      simp at hlen

/-! ## Joining a text that ends in a fixed suffix -/

theorem join_name (p : Path) {s : Str} (h : ValidName s) : join p s = ⟨s, h⟩ :: p := by
  have hrel : relative [⟨s, h⟩] = s := by simp [relative]
  have hjoin := join_relative p (List.cons_ne_nil (⟨s, h⟩ : Name) [])
  rwa [hrel] at hjoin

theorem splitOn_append_of_notMem (s : Str) {t : Str} (ht : '/' ∉ t) :
    ∃ init last, '/' ∉ last ∧ s.splitOn '/' = init ++ [last] ∧
      (s ++ t).splitOn '/' = init ++ [last ++ t] := by
  induction s with
  | nil => exact ⟨[], [], by simp, by simp, by simp [List.splitOn_eq_singleton ht]⟩
  | cons c cs ih =>
    obtain ⟨init, last, hlast, h1, h2⟩ := ih
    simp only [List.cons_append, List.splitOn_cons_eq_if_modifyHead, h1, h2]
    by_cases hc : c = '/'
    · exact ⟨[] :: init, last, hlast, by simp [hc], by simp [hc]⟩
    · cases init with
      | nil =>
        refine ⟨[], c :: last, ?_, by simp [hc], by simp [hc]⟩
        simp only [List.mem_cons, not_or]
        exact ⟨fun he => hc he.symm, hlast⟩
      | cons i init => exact ⟨(c :: i) :: init, last, hlast, by simp [hc], by simp [hc]⟩

/-- A file name that ends in a long enough suffix keeps the suffix when it is joined. -/
theorem join_append_suffix (p : Path) (s : Str) {t : Str} (ht : '/' ∉ t) (hlen : 2 < t.length) :
    ∃ (n : Name) (q : Path), join p (s ++ t) = n :: q ∧ t <:+ n.val := by
  obtain ⟨init, last, hlast, -, hst⟩ := splitOn_append_of_notMem s ht
  have hlong : 2 < (last ++ t).length := by simp only [List.length_append]; omega
  have hvalid : ValidName (last ++ t) := validName_of_length hlong (by simp [hlast, ht])
  refine ⟨⟨last ++ t, hvalid⟩, resolve (if (s ++ t).head? = some '/' then [] else p) init, ?_,
    List.suffix_append _ _⟩
  unfold join
  rw [hst]
  simp only [resolve, List.foldl_append, List.foldl_cons, List.foldl_nil]
  exact enter_name _ ⟨last ++ t, hvalid⟩

end Quill.Files
