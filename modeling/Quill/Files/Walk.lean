import Quill.Files.Tree
import Mathlib.Data.List.Nodup

/-!
# Walking a directory tree with an explicit stack

`walk children fuel stack` is the loop that start-up scans and the collector share: pop a
directory, visit it, push the subdirectories that are to be entered. `children p` is the
list of the names that are entered below `p`, in the order in which they are pushed.

The loop visits the directories in preorder (`walk_eq_take`). When all entered paths lie
in a finite list, a fuel larger than the length of the list is enough: the loop then
visits exactly the directories that can be reached from its start by entered names
(`mem_walk`), each once (`nodup_walk`).
-/

namespace Quill.Files

/-- A depth-first walk over a stack of directories, which takes as many steps as there is fuel. -/
def walk (children : Path → List Name) : Nat → List Path → List Path
  | 0, _ => []
  | _ + 1, [] => []
  | fuel + 1, p :: stack =>
    p :: walk children fuel ((children p).reverse.map (fun n => n :: p) ++ stack)

/-- The directories that are entered from `r`. -/
inductive Descends (children : Path → List Name) (r : Path) : Path → Prop
  | here : Descends children r r
  | down {q : Path} {n : Name} (above : Descends children r q) (h : n ∈ children q) :
      Descends children r (n :: q)

/-- The preorder of the entered directories, at most `d` levels down. -/
def preorder (children : Path → List Name) : Nat → Path → List Path
  | 0, p => [p]
  | d + 1, p => p :: (children p).reverse.flatMap fun n => preorder children d (n :: p)

variable {children : Path → List Name}

/-- The loop stays below the directories it starts with. -/
theorem suffix_of_mem_walk {root : Path} {fuel : Nat} {stack : List Path}
    (h : ∀ p ∈ stack, root <:+ p) {q : Path} (hq : q ∈ walk children fuel stack) : root <:+ q := by
  induction fuel generalizing stack with
  | zero => cases hq
  | succ fuel ih =>
    cases stack with
    | nil => cases hq
    | cons p stack =>
      have hp := h p List.mem_cons_self
      rcases List.mem_cons.mp hq with rfl | hq
      · exact hp
      · refine ih (fun s hs => ?_) hq
        rcases List.mem_append.mp hs with hs | hs
        · obtain ⟨n, -, rfl⟩ := List.mem_map.mp hs
          exact hp.trans (List.suffix_cons _ _)
        · exact h s (List.mem_cons_of_mem _ hs)

namespace Descends

theorem suffix {r q : Path} (h : Descends children r q) : r <:+ q := by
  induction h with
  | here => exact List.suffix_rfl
  | down _ _ ih => exact ih.trans (List.suffix_cons _ _)

/-- Every name on the way is entered. -/
theorem enters {r q : Path} (h : Descends children r q) {n : Name} {s : Path} (hs : n :: s <:+ q)
    (hr : r <:+ s) : n ∈ children s := by
  induction h with
  | here =>
    have hlen := hs.length_le
    have hlen' := hr.length_le
    simp only [List.length_cons] at hlen
    omega
  | @down q m _ hm ih =>
    rcases List.suffix_cons_iff.mp hs with he | hs
    · obtain ⟨rfl, rfl⟩ := List.cons.inj he
      exact hm
    · exact ih hs

/-- A descent of at least one level starts with an entered name. -/
theorem iff_here_or_below {r q : Path} :
    Descends children r q ↔ q = r ∨ ∃ n ∈ children r, Descends children (n :: r) q := by
  constructor
  · intro h
    induction h with
    | here => exact Or.inl rfl
    | @down q n _ hn ih =>
      rcases ih with rfl | ⟨m, hm, hd⟩
      · exact Or.inr ⟨n, hn, .here⟩
      · exact Or.inr ⟨m, hm, .down hd hn⟩
  · rintro (rfl | ⟨n, hn, hd⟩)
    · exact .here
    · induction hd with
      | here => exact .down .here hn
      | down _ hm ih => exact .down ih hm

/-- Where every name on the way is entered, the descent reaches the end. -/
theorem of_enters {r segs : Path} (h : ∀ n s, n :: s <:+ segs → n ∈ children (s ++ r)) :
    Descends children r (segs ++ r) := by
  induction segs with
  | nil => exact .here
  | cons n segs ih =>
    refine .down (ih fun m s hs => h m s (hs.trans (List.suffix_cons n segs))) ?_
    exact h n segs (List.suffix_refl _)

end Descends

theorem mem_preorder {d : Nat} {p q : Path} :
    q ∈ preorder children d p ↔ Descends children p q ∧ q.length ≤ p.length + d := by
  induction d generalizing p with
  | zero =>
    simp only [preorder, List.mem_singleton]
    constructor
    · rintro rfl
      exact ⟨.here, le_rfl⟩
    · rintro ⟨h, hlen⟩
      exact (h.suffix.eq_of_length_le (by omega)).symm
  | succ d ih =>
    simp only [preorder, List.mem_cons, List.mem_flatMap, List.mem_reverse, ih,
      List.length_cons]
    rw [Descends.iff_here_or_below (r := p)]
    constructor
    · rintro (rfl | ⟨n, hn, hd, hlen⟩)
      · exact ⟨Or.inl rfl, by omega⟩
      · exact ⟨Or.inr ⟨n, hn, hd⟩, by omega⟩
    · rintro ⟨rfl | ⟨n, hn, hd⟩, hlen⟩
      · exact Or.inl rfl
      · exact Or.inr ⟨n, hn, hd, by omega⟩

theorem nodup_preorder (hnodup : ∀ p, (children p).Nodup) (d : Nat) (p : Path) :
    (preorder children d p).Nodup := by
  induction d generalizing p with
  | zero => exact List.nodup_singleton p
  | succ d ih =>
    rw [preorder, List.nodup_cons, List.nodup_flatMap]
    refine ⟨?_, fun n _ => ih _, ?_⟩
    · intro hmem
      obtain ⟨n, -, hn⟩ := List.mem_flatMap.mp hmem
      have hlen := (mem_preorder.mp hn).1.suffix.length_le
      simp only [List.length_cons] at hlen
      omega
    · refine (List.nodup_reverse.mpr (hnodup p)).imp ?_
      intro n m hne
      refine List.disjoint_iff_ne.mpr ?_
      rintro a ha b hb rfl
      -- both names are the component of `a` just below `p`
      have hn := (mem_preorder.mp ha).1.suffix
      have hm := (mem_preorder.mp hb).1.suffix
      have heq : n :: p = m :: p :=
        (List.suffix_of_suffix_length_le hn hm (by simp)).eq_of_length (by simp)
      exact hne (List.cons.inj heq).1

section Bounded

variable {bound : Nat} (hbound : ∀ p n, n ∈ children p → p.length < bound)

include hbound

theorem preorder_stable {d : Nat} {p : Path} (h : bound ≤ p.length + d) :
    preorder children (d + 1) p = preorder children d p := by
  induction d generalizing p with
  | zero =>
    have hnil : children p = [] := by
      refine List.eq_nil_iff_forall_not_mem.mpr fun n hn => ?_
      have := hbound p n hn
      omega
    simp [preorder, hnil]
  | succ d ih =>
    rw [preorder, preorder]
    congr 1
    apply List.flatMap_congr
    intro n _
    exact ih (by simp only [List.length_cons]; omega)

theorem walk_eq_take {d : Nat} (fuel : Nat) (stack : List Path)
    (h : ∀ p ∈ stack, bound ≤ p.length + d) :
    walk children fuel stack = (stack.flatMap (preorder children d)).take fuel := by
  induction fuel generalizing stack with
  | zero => simp [walk]
  | succ fuel ih =>
    cases stack with
    | nil => rfl
    | cons p stack =>
      have hp := h p List.mem_cons_self
      have hrest : ∀ q ∈ (children p).reverse.map (fun n => n :: p) ++ stack,
          bound ≤ q.length + d := by
        intro q hq
        rcases List.mem_append.mp hq with hq | hq
        · obtain ⟨n, -, rfl⟩ := List.mem_map.mp hq
          simp only [List.length_cons]
          omega
        · exact h q (List.mem_cons_of_mem _ hq)
      rw [walk, ih _ hrest, List.flatMap_cons, ← preorder_stable hbound hp, preorder,
        List.cons_append, List.take_succ_cons, List.flatMap_append, List.flatMap_map]

end Bounded

section Finite

variable {paths : List Path} (hpaths : ∀ p n, n ∈ children p → n :: p ∈ paths)
  (hnodup : ∀ p, (children p).Nodup)

include hpaths

theorem exists_bound : ∃ bound, ∀ p n, n ∈ children p → p.length < bound := by
  have hmax : ∃ bound, ∀ q ∈ paths, q.length < bound := by
    clear hpaths
    induction paths with
    | nil => exact ⟨0, by simp⟩
    | cons q paths ih =>
      obtain ⟨bound, hb⟩ := ih
      refine ⟨max bound (q.length + 1), fun r hr => ?_⟩
      rcases List.mem_cons.mp hr with rfl | hr
      · omega
      · have := hb r hr
        omega
  obtain ⟨bound, hb⟩ := hmax
  refine ⟨bound, fun p n hn => ?_⟩
  have := hb _ (hpaths p n hn)
  simp only [List.length_cons] at this
  omega

theorem Descends.mem_paths {r q : Path} (h : Descends children r q) : q ∈ r :: paths := by
  cases h with
  | here => exact List.mem_cons_self
  | down _ hn => exact List.mem_cons_of_mem _ (hpaths _ _ hn)

include hnodup

/-- With enough fuel the loop is the whole preorder. -/
theorem walk_eq_preorder {fuel : Nat} (hfuel : paths.length < fuel) (r : Path) :
    ∃ d, (∀ q, q ∈ preorder children d r ↔ Descends children r q) ∧
      walk children fuel [r] = preorder children d r := by
  obtain ⟨bound, hbound⟩ := exists_bound hpaths
  refine ⟨bound, fun q => ?_, ?_⟩
  · rw [mem_preorder]
    refine ⟨fun h => h.1, fun h => ⟨h, ?_⟩⟩
    cases h with
    | here => omega
    | down _ hn =>
      have := hbound _ _ hn
      simp only [List.length_cons]
      omega
  · rw [walk_eq_take (d := bound) hbound fuel [r] (by simp), List.flatMap_singleton]
    apply List.take_of_length_le
    have hsub : preorder children bound r ⊆ r :: paths := fun q hq =>
      (mem_preorder.mp hq).1.mem_paths hpaths
    have hlen := (List.subperm_of_subset (nodup_preorder hnodup bound r) hsub).length_le
    simp only [List.length_cons] at hlen
    omega

theorem mem_walk {fuel : Nat} (hfuel : paths.length < fuel) {r q : Path} :
    q ∈ walk children fuel [r] ↔ Descends children r q := by
  obtain ⟨d, hmem, heq⟩ := walk_eq_preorder hpaths hnodup hfuel r
  rw [heq, hmem]

theorem nodup_walk {fuel : Nat} (hfuel : paths.length < fuel) (r : Path) :
    (walk children fuel [r]).Nodup := by
  obtain ⟨d, -, heq⟩ := walk_eq_preorder hpaths hnodup hfuel r
  rw [heq]
  exact nodup_preorder hnodup d r

end Finite

end Quill.Files
