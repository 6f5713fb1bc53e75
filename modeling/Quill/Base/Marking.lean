import Mathlib.Data.Finset.Insert
import Mathlib.Order.Bounds.Basic

/-!
# Marking a graph with an explicit stack

A graph is a function `succ` from a node to the list of its successors. `Reach succ R` is
the least set that contains `R` and is closed under `succ` (`isLeast_reach`).

`mark succ fuel stack visited` is the usual loop over a stack and a set of visited nodes:
pop a node, skip it when it was visited, otherwise visit it and push its successors.
`Loop.turn` is one turn of it, without fuel. When only the nodes of a finite list have
successors, the stack and `budget` bound the number of turns (`Loop.Turns.le_weight`), so the loop
ends (`Loop.exists_end`) and has expanded no node twice (`Loop.Pursues`). A marking from a
closed set adds exactly what can be reached from the new root (`mem_mark`), and stays
closed (`mark_closed`).
-/

namespace Quill.Marking

variable {α : Type}

/-- The nodes that can be reached from `R`. -/
inductive Reach (succ : α → List α) (R : Set α) : α → Prop
  | root {x : α} (h : x ∈ R) : Reach succ R x
  | step {x y : α} (from_ : Reach succ R x) (h : y ∈ succ x) : Reach succ R y

/-- A set that contains the successors of its elements. -/
def Closed (succ : α → List α) (T : Set α) : Prop := ∀ x ∈ T, ∀ y ∈ succ x, y ∈ T

/-- Reachability is the least closed set that contains the roots. -/
theorem isLeast_reach (succ : α → List α) (R : Set α) :
    IsLeast { T : Set α | R ⊆ T ∧ Closed succ T } { x | Reach succ R x } := by
  refine ⟨⟨fun x hx => .root hx, fun x hx y hy => Reach.step hx hy⟩, ?_⟩
  rintro T ⟨hR, hT⟩ x hx
  induction hx with
  | root h => exact hR h
  | step _ h ih => exact hT _ ih _ h

theorem Reach.mem_of_closed {succ : α → List α} {R T : Set α} {x : α} (h : Reach succ R x)
    (hR : R ⊆ T) (hT : Closed succ T) : x ∈ T :=
  (isLeast_reach succ R).2 ⟨hR, hT⟩ h

theorem Reach.mono {succ succ' : α → List α} {R R' : Set α} (hR : R ⊆ R')
    (hsucc : ∀ x y, Reach succ R x → y ∈ succ x → y ∈ succ' x) {x : α} (h : Reach succ R x) :
    Reach succ' R' x := by
  induction h with
  | root h => exact .root (hR h)
  | step h hy ih => exact .step ih (hsucc _ _ h hy)

/-- What can be reached from a set can be reached from one of its members. -/
theorem reach_iff_exists {succ : α → List α} {R : Set α} {x : α} :
    Reach succ R x ↔ ∃ r ∈ R, Reach succ {r} x := by
  constructor
  · intro h
    refine h.mem_of_closed (T := { y | ∃ r ∈ R, Reach succ {r} y }) (fun r hr => ⟨r, hr, .root rfl⟩) ?_
    rintro y ⟨r, hr, hy⟩ z hz
    exact ⟨r, hr, .step hy hz⟩
  · rintro ⟨r, hr, h⟩
    exact h.mono (Set.singleton_subset_iff.mpr hr) fun _ _ _ hy => hy

variable [DecidableEq α]

def mark (succ : α → List α) : Nat → List α → Finset α → Finset α
  | 0, _, visited => visited
  | _ + 1, [], visited => visited
  | fuel + 1, x :: stack, visited =>
    if x ∈ visited then mark succ fuel stack visited
    else mark succ fuel ((succ x).reverse ++ stack) (insert x visited)

/-- How many successors the unvisited nodes of a list have in total. -/
def budget (succ : α → List α) : List α → Finset α → Nat
  | [], _ => 0
  | x :: nodes, visited =>
    (if x ∈ visited then 0 else (succ x).length) + budget succ nodes visited

theorem budget_mono (succ : α → List α) (nodes : List α) {visited visited' : Finset α} (h : visited ⊆ visited') :
    budget succ nodes visited' ≤ budget succ nodes visited := by
  induction nodes with
  | nil => exact le_rfl
  | cons a l ih =>
    simp only [budget]
    by_cases ha : a ∈ visited
    · have ha' := h ha
      simp only [ha, ha', if_true]
      omega
    · simp only [ha, if_false]
      split <;> omega

/-- Visiting a node pays for its successors. -/
theorem budget_insert (succ : α → List α) {nodes : List α} {x : α} {visited : Finset α} (hx : x ∈ nodes) (hnew : x ∉ visited) :
    budget succ nodes (insert x visited) + (succ x).length ≤ budget succ nodes visited := by
  induction nodes with
  | nil => cases hx
  | cons a l ih =>
    have hmono := budget_mono succ l (Finset.subset_insert x visited)
    simp only [budget]
    by_cases hax : a = x
    · subst hax
      simp only [Finset.mem_insert_self, if_true, hnew, if_false]
      omega
    · have hxl : x ∈ l := (List.mem_cons.mp hx).resolve_left (Ne.symm hax)
      have hrest := ih hxl
      by_cases ha : a ∈ visited
      · simp only [ha, Finset.mem_insert_of_mem ha, if_true]
        omega
      · have ha' : a ∉ insert x visited := fun h => (Finset.mem_insert.mp h).elim hax ha
        simp only [ha, ha', if_false]
        omega

/-- The nodes of a region have their successors in it, and only those of a finite list have
any. -/
structure Bounded (succ : α → List α) (region : Set α) (nodes : List α) : Prop where
  closed : Closed succ region
  finite : ∀ x ∈ region, x ∉ nodes → succ x = []

variable {succ : α → List α} {nodes : List α} {region : Set α}

/-! ## The loop turn by turn -/

/-- The loop between two turns; `expanded` records the nodes that were visited, in order. -/
structure Loop (α : Type) where
  stack : List α
  visited : Finset α
  expanded : List α

/-- One turn; the loop ends when its stack is empty. -/
def Loop.turn (succ : α → List α) (s : Loop α) : Option (Loop α) :=
  match s.stack with
  | [] => none
  | x :: stack =>
    if x ∈ s.visited then some { s with stack := stack }
    else some ⟨(succ x).reverse ++ stack, insert x s.visited, s.expanded ++ [x]⟩

/-- So many turns lead from one state of the loop to the other. -/
inductive Loop.Turns (succ : α → List α) : Nat → Loop α → Loop α → Prop
  | refl (s : Loop α) : Turns succ 0 s s
  | head {n : Nat} {s t u : Loop α} (h : s.turn succ = some t) (hrest : Turns succ n t u) :
      Turns succ (n + 1) s u

namespace Loop

variable {s t : Loop α} {n : Nat}

/-- The two kinds of turns. -/
theorem turn_cases (h : s.turn succ = some t) : ∃ x stack, s.stack = x :: stack ∧
    ((x ∈ s.visited ∧ t = { s with stack := stack }) ∨
      (x ∉ s.visited ∧
        t = ⟨(succ x).reverse ++ stack, insert x s.visited, s.expanded ++ [x]⟩)) := by
  unfold turn at h
  split at h
  · cases h
  · rename_i x stack hstack
    refine ⟨x, stack, hstack, ?_⟩
    split at h
    · cases h
      exact Or.inl ⟨‹_›, rfl⟩
    · cases h
      exact Or.inr ⟨‹_›, rfl⟩

theorem turn_eq_none : s.turn succ = none ↔ s.stack = [] := by
  unfold turn
  split
  · simp [*]
  · rename_i x stack hstack
    simp only [hstack, reduceCtorEq, iff_false]
    split <;> simp

/-- What every turn preserves is preserved by any number of turns. -/
theorem Turns.keep {I : Loop α → Prop} (hstep : ∀ s t, s.turn succ = some t → I s → I t)
    (h : Turns succ n s t) (hs : I s) : I t := by
  induction h with
  | refl s => exact hs
  | head hturn _ ih => exact ih (hstep _ _ hturn hs)

/-- The stack and what the unvisited nodes of the list can still put on it. -/
def weight (succ : α → List α) (nodes : List α) (s : Loop α) : Nat :=
  s.stack.length + budget succ nodes s.visited

/-- A turn stays in the region and gets lighter. -/
theorem turn_weight (hB : Bounded succ region nodes) (hstack : ∀ x ∈ s.stack, x ∈ region)
    (h : s.turn succ = some t) :
    (∀ x ∈ t.stack, x ∈ region) ∧ t.weight succ nodes + 1 ≤ s.weight succ nodes := by
  obtain ⟨x, stack, hs, ⟨hx, rfl⟩ | ⟨hx, rfl⟩⟩ := turn_cases h
  · refine ⟨fun y hy => hstack y (by rw [hs]; exact List.mem_cons_of_mem _ hy), ?_⟩
    simp only [weight, hs, List.length_cons]
    omega
  · have hin : x ∈ region := hstack x (by rw [hs]; exact List.mem_cons_self)
    constructor
    · intro y hy
      rcases List.mem_append.mp hy with hy | hy
      · exact hB.closed x hin y (List.mem_reverse.mp hy)
      · exact hstack y (by rw [hs]; exact List.mem_cons_of_mem _ hy)
    · simp only [weight, hs, List.length_append, List.length_reverse, List.length_cons]
      by_cases hn : x ∈ nodes
      · have hpays := budget_insert succ hn hx
        omega
      · have hmono := budget_mono succ nodes (Finset.subset_insert x s.visited)
        rw [hB.finite x hin hn]
        simp only [List.length_nil]
        omega

/-- No run of the loop has more turns than its weight. -/
theorem Turns.le_weight (hB : Bounded succ region nodes) (hstack : ∀ x ∈ s.stack, x ∈ region)
    (h : Turns succ n s t) : n + t.weight succ nodes ≤ s.weight succ nodes := by
  induction h with
  | refl s => omega
  | head hturn _ ih =>
    obtain ⟨hstack', hlighter⟩ := turn_weight hB hstack hturn
    have hrest := ih hstack'
    omega

/-- The loop ends. -/
theorem exists_end (hB : Bounded succ region nodes) (s : Loop α) (hstack : ∀ x ∈ s.stack, x ∈ region) :
    ∃ n t, Turns succ n s t ∧ t.stack = [] := by
  generalize hw : s.weight succ nodes = w
  induction w using Nat.strongRecOn generalizing s with
  | _ w ih =>
    cases hturn : s.turn succ with
    | none => exact ⟨0, s, .refl s, turn_eq_none.mp hturn⟩
    | some t =>
      obtain ⟨hstack', hlighter⟩ := turn_weight hB hstack hturn
      obtain ⟨n, u, hrest, hend⟩ := ih _ (by omega) t hstack' rfl
      exact ⟨n + 1, u, .head hturn hrest, hend⟩

/-- The marking with fuel for all turns is the end of the loop. -/
theorem Turns.mark_eq {fuel : Nat} (h : Turns succ n s t) (hend : t.stack = []) (hfuel : n ≤ fuel) :
    mark succ fuel s.stack s.visited = t.visited := by
  induction h generalizing fuel with
  | refl s =>
    rw [hend]
    cases fuel <;> rfl
  | head hturn _ ih =>
    obtain ⟨fuel, rfl⟩ : ∃ k, fuel = k + 1 := ⟨fuel - 1, by omega⟩
    have hrest := ih hend (Nat.le_of_succ_le_succ hfuel)
    obtain ⟨x, stack, hs, ⟨hx, rfl⟩ | ⟨hx, rfl⟩⟩ := turn_cases hturn
    · rw [hs, mark, if_pos hx]
      exact hrest
    · rw [hs, mark, if_neg hx]
      exact hrest

/-- What holds while the loop works off `stack` from `visited`: it visits what can be reached, each
node once, and the successors of an expanded node are visited or on the stack. -/
structure Pursues (succ : α → List α) (stack : List α) (visited : Finset α) (s : Loop α) : Prop where
  visited_iff : ∀ x, x ∈ s.visited ↔ x ∈ visited ∨ x ∈ s.expanded
  nodup : s.expanded.Nodup
  fresh : ∀ x ∈ s.expanded, x ∉ visited
  queued : ∀ x ∈ stack, x ∈ s.visited ∨ x ∈ s.stack
  pending : ∀ x ∈ s.expanded, ∀ y ∈ succ x, y ∈ s.visited ∨ y ∈ s.stack
  reached : ∀ x, x ∈ s.expanded ∨ x ∈ s.stack → Reach succ { y | y ∈ stack } x

omit [DecidableEq α] in
theorem pursues_start (stack : List α) (visited : Finset α) :
    Pursues succ stack visited ⟨stack, visited, []⟩ where
  visited_iff x := by simp
  nodup := List.nodup_nil
  fresh x hx := absurd hx List.not_mem_nil
  queued x hx := Or.inr hx
  pending x hx := absurd hx List.not_mem_nil
  reached x hx := .root (hx.resolve_left List.not_mem_nil)

theorem pursues_turn {stack : List α} {visited : Finset α} (h : s.turn succ = some t)
    (hs : Pursues succ stack visited s) : Pursues succ stack visited t := by
  obtain ⟨x, rest, hstack, ⟨hx, rfl⟩ | ⟨hx, rfl⟩⟩ := turn_cases h
  · -- the node was visited before
    have hleft : ∀ y, y ∈ s.visited ∨ y ∈ s.stack → y ∈ s.visited ∨ y ∈ rest := by
      intro y hy
      rcases hy with hy | hy
      · exact Or.inl hy
      · rw [hstack] at hy
        rcases List.mem_cons.mp hy with rfl | hy
        · exact Or.inl hx
        · exact Or.inr hy
    refine ⟨hs.visited_iff, hs.nodup, hs.fresh, fun y hy => hleft y (hs.queued y hy),
      fun y hy z hz => hleft z (hs.pending y hy z hz), fun y hy => hs.reached y ?_⟩
    exact hy.imp_right fun hy => by rw [hstack]; exact List.mem_cons_of_mem _ hy
  · have hroot : Reach succ { y | y ∈ stack } x :=
      hs.reached x (Or.inr (by rw [hstack]; exact List.mem_cons_self))
    have hold : x ∉ visited ∧ x ∉ s.expanded := by
      constructor
      · exact fun hv => hx ((hs.visited_iff x).mpr (Or.inl hv))
      · exact fun he => hx ((hs.visited_iff x).mpr (Or.inr he))
    have hleft : ∀ y, y ∈ s.visited ∨ y ∈ s.stack →
        y ∈ insert x s.visited ∨ y ∈ (succ x).reverse ++ rest := by
      intro y hy
      rcases hy with hy | hy
      · exact Or.inl (Finset.mem_insert_of_mem hy)
      · rw [hstack] at hy
        rcases List.mem_cons.mp hy with rfl | hy
        · exact Or.inl (Finset.mem_insert_self _ _)
        · exact Or.inr (List.mem_append_right _ hy)
    refine ⟨fun y => ?_, ?_, fun y hy => ?_, fun y hy => hleft y (hs.queued y hy), fun y hy z hz => ?_,
      fun y hy => ?_⟩
    · simp only [Finset.mem_insert, hs.visited_iff y, List.mem_append, List.mem_singleton]
      tauto
    · refine List.nodup_append.mpr ⟨hs.nodup, List.nodup_singleton x, fun y hy z hz he => ?_⟩
      rw [List.mem_singleton.mp hz] at he
      exact hold.2 (he ▸ hy)
    · rcases List.mem_append.mp hy with hy | hy
      · exact hs.fresh y hy
      · rw [List.mem_singleton.mp hy]
        exact hold.1
    · rcases List.mem_append.mp hy with hy | hy
      · exact hleft z (hs.pending y hy z hz)
      · rw [List.mem_singleton.mp hy] at hz
        exact Or.inr (List.mem_append_left _ (List.mem_reverse.mpr hz))
    · rcases hy with hy | hy
      · rcases List.mem_append.mp hy with hy | hy
        · exact hs.reached y (Or.inl hy)
        · rw [List.mem_singleton.mp hy]
          exact hroot
      · rcases List.mem_append.mp hy with hy | hy
        · exact .step hroot (List.mem_reverse.mp hy)
        · exact hs.reached y (Or.inr (by rw [hstack]; exact List.mem_cons_of_mem _ hy))

theorem Turns.pursues {stack : List α} {visited : Finset α}
    (h : Turns succ n ⟨stack, visited, []⟩ t) : Pursues succ stack visited t :=
  h.keep (fun _ _ hturn hs => pursues_turn hturn hs) (pursues_start stack visited)

omit [DecidableEq α] in
/-- At the end of the loop every successor of an expanded node is visited. -/
theorem Pursues.closed {stack : List α} {visited : Finset α} (h : Pursues succ stack visited s)
    (hend : s.stack = []) {x : α} (hx : x ∈ s.visited) (hnew : x ∉ visited) :
    ∀ y ∈ succ x, y ∈ s.visited := by
  intro y hy
  have hexpanded : x ∈ s.expanded := ((h.visited_iff x).mp hx).resolve_left hnew
  refine (h.pending x hexpanded y hy).resolve_right ?_
  rw [hend]
  exact List.not_mem_nil

end Loop

/-- The loop with enough fuel: it visits its stack, it visits nothing that cannot be
reached, and it leaves no successor of a visited node behind. -/
theorem mark_spec (hB : Bounded succ region nodes) (fuel : Nat) (stack : List α)
    (visited : Finset α) (hstack : ∀ x ∈ stack, x ∈ region)
    (hfuel : stack.length + budget succ nodes visited ≤ fuel)
    (hpending : ∀ x ∈ visited, ∀ y ∈ succ x, y ∈ visited ∨ y ∈ stack) :
    visited ⊆ mark succ fuel stack visited ∧
    (∀ x ∈ stack, x ∈ mark succ fuel stack visited) ∧
    (∀ x ∈ mark succ fuel stack visited, x ∈ visited ∨ Reach succ { y | y ∈ stack } x) ∧
    Closed succ { x | x ∈ mark succ fuel stack visited } := by
  obtain ⟨n, t, hturns, hend⟩ := Loop.exists_end hB ⟨stack, visited, []⟩ hstack
  have hcount : n ≤ fuel := by
    have hle := hturns.le_weight hB hstack
    simp only [Loop.weight] at hle
    omega
  rw [show mark succ fuel stack visited = t.visited from hturns.mark_eq hend hcount]
  have hpursues := hturns.pursues
  have hall : ∀ x, x ∈ t.visited ∨ x ∈ t.stack → x ∈ t.visited := by
    intro x hx
    exact hx.resolve_right (by rw [hend]; exact List.not_mem_nil)
  have hgrows : visited ⊆ t.visited := fun x hx => (hpursues.visited_iff x).mpr (Or.inl hx)
  have hvisits : ∀ x ∈ stack, x ∈ t.visited := fun x hx => hall x (hpursues.queued x hx)
  refine ⟨hgrows, hvisits, fun x hx => ?_, fun x hx y hy => ?_⟩
  · exact ((hpursues.visited_iff x).mp hx).imp_right fun he => hpursues.reached x (Or.inl he)
  · by_cases hold : x ∈ visited
    · exact (hpending x hold y hy).elim (fun h => hgrows h) (hvisits y)
    · exact hpursues.closed hend hx hold y hy

/-! ## Several roots -/

/-- The loop was run from one root after another on one set of visited nodes. -/
inductive Marks (succ : α → List α) : List α → Finset α → List α → Finset α → Prop
  | nil (visited : Finset α) : Marks succ [] visited [] visited
  | cons {r : α} {roots : List α} {visited visited' : Finset α} {expanded : List α} {n : Nat}
      {t : Loop α} (h : Loop.Turns succ n ⟨[r], visited, []⟩ t) (hend : t.stack = [])
      (hrest : Marks succ roots t.visited expanded visited') :
      Marks succ (r :: roots) visited (t.expanded ++ expanded) visited'

/-- No node is expanded twice, by whichever of the roots. -/
theorem Marks.nodup {roots expanded : List α} {visited visited' : Finset α}
    (h : Marks succ roots visited expanded visited') :
    expanded.Nodup ∧ ∀ x ∈ expanded, x ∉ visited := by
  induction h with
  | nil => exact ⟨List.nodup_nil, fun x hx => absurd hx List.not_mem_nil⟩
  | cons hturns _ _ ih =>
    have hpursues := hturns.pursues
    refine ⟨List.nodup_append.mpr ⟨hpursues.nodup, ih.1, fun x hx y hy he => ?_⟩, fun x hx => ?_⟩
    · exact ih.2 y hy ((hpursues.visited_iff y).mpr (Or.inr (he ▸ hx)))
    · rcases List.mem_append.mp hx with hx | hx
      · exact hpursues.fresh x hx
      · exact fun hv => ih.2 x hx ((hpursues.visited_iff x).mpr (Or.inl hv))

theorem Marks.mem_iff {roots expanded : List α} {visited visited' : Finset α}
    (h : Marks succ roots visited expanded visited') (x : α) :
    x ∈ visited' ↔ x ∈ visited ∨ x ∈ expanded := by
  induction h with
  | nil => simp
  | cons hturns _ _ ih => rw [ih, hturns.pursues.visited_iff, List.mem_append, or_assoc]

/-- Every successor of a newly visited node is visited. -/
theorem Marks.closed {roots expanded : List α} {visited visited' : Finset α}
    (h : Marks succ roots visited expanded visited') {x : α} (hx : x ∈ visited')
    (hnew : x ∉ visited) : ∀ y ∈ succ x, y ∈ visited' := by
  induction h with
  | nil => exact absurd hx hnew
  | @cons _ _ _ _ _ _ t hturns hend hrest ih =>
    by_cases hfirst : x ∈ t.visited
    · exact fun y hy => (hrest.mem_iff y).mpr (Or.inl (hturns.pursues.closed hend hfirst hnew y hy))
    · exact ih hx hfirst

theorem Marks.append {roots roots' expanded expanded' : List α} {visited visited' visited'' : Finset α}
    (h : Marks succ roots visited expanded visited')
    (g : Marks succ roots' visited' expanded' visited'') :
    Marks succ (roots ++ roots') visited (expanded ++ expanded') visited'' := by
  induction h with
  | nil => exact g
  | cons hturns hend _ ih =>
    rw [List.append_assoc]
    exact .cons hturns hend (ih g)

section FromClosed

variable (hB : Bounded succ region nodes) {visited : Finset α}
  (hclosed : Closed succ { x | x ∈ visited }) {fuel : Nat}
  (hfuel : 1 + budget succ nodes ∅ ≤ fuel) {r : α} (hr : r ∈ region)

include hB hclosed hfuel hr

theorem mark_closed : Closed succ { x | x ∈ mark succ fuel [r] visited } := by
  have hle := budget_mono succ nodes (Finset.empty_subset visited)
  exact (mark_spec hB fuel [r] visited (by simpa using hr)
    (by simp only [List.length_singleton]; omega) (fun x hx y hy => Or.inl (hclosed x hx y hy))).2.2.2

/-- A traversal from a closed set adds what can be reached from its root. -/
theorem mem_mark {x : α} :
    x ∈ mark succ fuel [r] visited ↔ x ∈ visited ∨ Reach succ {r} x := by
  have hle := budget_mono succ nodes (Finset.empty_subset visited)
  obtain ⟨h1, h2, h3, h4⟩ := mark_spec hB fuel [r] visited
    (by simpa using hr) (by simp only [List.length_singleton]; omega)
    (fun x hx y hy => Or.inl (hclosed x hx y hy))
  constructor
  · intro hx
    refine (h3 x hx).imp_right fun h => h.mono ?_ (fun _ _ _ hy => hy)
    intro y hy
    simpa using hy
  · rintro (hx | hx)
    · exact h1 hx
    · refine hx.mem_of_closed ?_ h4
      rintro y rfl
      exact h2 y List.mem_cons_self

end FromClosed

end Quill.Marking
