import Quill.Base.Program

/-!
# Tasks that take turns

A step function `σ → α → Option σ` takes one action at a time, where it is enabled.
`runs step G` relates a state to the states that are reached by actions that each meet
the guard `G` when they are taken; `follow` computes the state after a list of them.

A `Pool` is a shared memory with a list of tasks. One turn lets one task advance and leaves the
others where they are (`Pool.turn_cases`).
-/

namespace Quill

variable {σ α μ π : Type}

/-- The states reached by steps whose actions meet the guard when they are taken. -/
def runs (step : σ → α → Option σ) (G : σ → α → Prop) : Evolution σ :=
  .star fun s t => ∃ a, G s a ∧ step s a = some t

/-- The guard that every action meets. -/
def anyStep (_ : σ) (_ : α) : Prop := True

instance : DecidableRel (anyStep : σ → α → Prop) := fun _ _ => .isTrue trivial

/-- The state after a list of actions that meet the guard. -/
def follow (step : σ → α → Option σ) (G : σ → α → Prop) [DecidableRel G] : σ → List α → Option σ
  | s, [] => some s
  | s, a :: rest => if G s a then (step s a).bind fun t => follow step G t rest else none

theorem runs_of_follow {step : σ → α → Option σ} {G : σ → α → Prop} [DecidableRel G]
    {actions : List α} {s t : σ} (h : follow step G s actions = some t) :
    (runs step G).rel s t := by
  induction actions generalizing s with
  | nil =>
    cases h
    exact (runs step G).refl _
  | cons a rest ih =>
    unfold follow at h
    split at h
    · obtain ⟨u, hu, hrest⟩ := Option.bind_eq_some_iff.mp h
      exact (runs step G).trans (.single ⟨a, ‹_›, hu⟩) (ih hrest)
    · cases h

/-- A run that ends in a state of the given kind, found by following a list of actions. -/
theorem exists_run_of_follow (step : σ → α → Option σ) (G : σ → α → Prop) [DecidableRel G] (s : σ)
    (actions : List α) (P : σ → Prop) [DecidablePred P]
    (h : (follow step G s actions).any (fun t => decide (P t)) = true) :
    ∃ t, (runs step G).rel s t ∧ P t := by
  cases ht : follow step G s actions with
  | none =>
    rw [ht] at h
    cases h
  | some t =>
    rw [ht] at h
    exact ⟨t, runs_of_follow ht, of_decide_eq_true h⟩

/-- A shared memory with tasks that take turns on it. -/
structure Pool (μ π : Type) where
  memory : μ
  tasks : List π

namespace Pool

/-- The task with the given number advances. -/
def turn (advance : μ → π → Option (μ × π)) (s : Pool μ π) (i : Nat) : Option (Pool μ π) :=
  match s.tasks[i]? with
  | none => none
  | some p => (advance s.memory p).map fun r => ⟨r.1, s.tasks.set i r.2⟩

/-- A new task joins the pool. -/
def spawn (s : Pool μ π) (p : π) : Pool μ π := { s with tasks := s.tasks ++ [p] }

/-- The memory after a task has made up to `n` steps with no other task in between. -/
def alone (advance : μ → π → Option (μ × π)) : Nat → μ → π → μ
  | 0, m, _ => m
  | n + 1, m, p =>
    match advance m p with
    | none => m
    | some (m', p') => alone advance n m' p'

theorem alone_succ {advance : μ → π → Option (μ × π)} {m m' : μ} {p p' : π}
    (h : advance m p = some (m', p')) (n : Nat) :
    alone advance (n + 1) m p = alone advance n m' p' := by
  rw [alone, h]

theorem alone_done {advance : μ → π → Option (μ × π)} {m : μ} {p : π} (h : advance m p = none)
    (n : Nat) : alone advance n m p = m := by
  cases n with
  | zero => rfl
  | succ n => rw [alone, h]

/-- A turn replaces one task and keeps the others in their places. -/
theorem turn_cases {advance : μ → π → Option (μ × π)} {s t : Pool μ π} {i : Nat}
    (h : s.turn advance i = some t) :
    ∃ before p after m p', s.tasks[i]? = some p ∧ s.tasks = before ++ p :: after ∧
      advance s.memory p = some (m, p') ∧ t = ⟨m, before ++ p' :: after⟩ := by
  unfold turn at h
  split at h
  · cases h
  · obtain ⟨⟨m, p'⟩, hadv, rfl⟩ := Option.map_eq_some_iff.mp h
    rename_i p hp
    obtain ⟨hlt, hget⟩ := List.getElem?_eq_some_iff.mp hp
    refine ⟨s.tasks.take i, p, s.tasks.drop (i + 1), m, p', hp, ?_, hadv, ?_⟩
    · rw [← hget, ← List.drop_eq_getElem_cons hlt, List.take_append_drop]
    · rw [List.set_eq_take_append_cons_drop, if_pos hlt]

/-- The task with the number of the turn is the one that advanced. -/
theorem turn_task {advance : μ → π → Option (μ × π)} {s t : Pool μ π} {i : Nat}
    (h : s.turn advance i = some t) :
    ∃ p p', s.tasks[i]? = some p ∧ t.tasks[i]? = some p' ∧ advance s.memory p = some (t.memory, p') := by
  unfold turn at h
  split at h
  · cases h
  · obtain ⟨⟨m, p'⟩, hadv, rfl⟩ := Option.map_eq_some_iff.mp h
    rename_i p hp
    obtain ⟨hlt, -⟩ := List.getElem?_eq_some_iff.mp hp
    exact ⟨p, p', hp, by simp [hlt], hadv⟩

/-- The other tasks stay where they are. -/
theorem turn_others {advance : μ → π → Option (μ × π)} {s t : Pool μ π} {i j : Nat}
    (h : s.turn advance i = some t) (hj : j ≠ i) : t.tasks[j]? = s.tasks[j]? := by
  unfold turn at h
  split at h
  · cases h
  · obtain ⟨r, -, rfl⟩ := Option.map_eq_some_iff.mp h
    exact List.getElem?_set_ne hj.symm

/-- What a turn adds to a list read off the tasks comes from the task that advanced. -/
theorem mem_filterMap_replace {β : Type} {f : π → Option β} {before after : List π} {p p' : π}
    {b : β} (h : b ∈ (before ++ p' :: after).filterMap f) :
    f p' = some b ∨ b ∈ (before ++ p :: after).filterMap f := by
  obtain ⟨q, hq, hb⟩ := List.mem_filterMap.mp h
  rcases List.mem_append.mp hq with hq | hq
  · exact .inr (List.mem_filterMap.mpr ⟨q, List.mem_append_left _ hq, hb⟩)
  · rcases List.mem_cons.mp hq with rfl | hq
    · exact .inl hb
    · exact .inr (List.mem_filterMap.mpr
        ⟨q, List.mem_append_right _ (List.mem_cons_of_mem _ hq), hb⟩)

/-- No two tasks hold one key, after a turn in which a task keeps its key, gives it up or takes one
that is free. -/
theorem nodup_replace {β : Type} {f : π → Option β} {before after : List π} {p p' : π}
    (h : ((before ++ p :: after).filterMap f).Nodup)
    (hp : ∀ b, f p' = some b → f p = some b ∨ b ∉ (before ++ p :: after).filterMap f) :
    ((before ++ p' :: after).filterMap f).Nodup := by
  have hmid : ∀ q, ((before ++ q :: after).filterMap f).Perm
      ((f q).toList ++ (before ++ after).filterMap f) := by
    intro q
    have hperm := (List.perm_middle : (before ++ q :: after).Perm (q :: (before ++ after))).filterMap f
    refine hperm.trans ?_
    cases hq : f q with
    | none => simp [hq]
    | some b => simp [hq]
  rw [(hmid p).nodup_iff] at h
  rw [(hmid p').nodup_iff]
  have hrest : ((before ++ after).filterMap f).Nodup := (List.nodup_append.mp h).2.1
  cases hp' : f p' with
  | none => exact hrest
  | some b =>
    refine List.nodup_cons.mpr ⟨fun hb => ?_, hrest⟩
    rcases hp b hp' with hkeep | hfree
    · rw [hkeep] at h
      exact (List.nodup_cons.mp h).1 hb
    · exact hfree ((hmid p).mem_iff.mpr (List.mem_append_right _ hb))

/-- The other tasks do not hold the key of a task. -/
theorem others_without {β : Type} {f : π → Option β} {before after : List π} {p q : π} {b : β}
    (h : ((before ++ p :: after).filterMap f).Nodup) (hp : f p = some b)
    (hq : q ∈ before ++ after) : f q ≠ some b := by
  intro hqb
  have hperm := (List.perm_middle : (before ++ p :: after).Perm (p :: (before ++ after))).filterMap f
  rw [hperm.nodup_iff, List.filterMap_cons, hp] at h
  exact (List.nodup_cons.mp h).1 (List.mem_filterMap.mpr ⟨q, hq, hqb⟩)

theorem mem_of_other {before after : List π} {p q : π} (h : q ∈ before ++ after) :
    q ∈ before ++ p :: after := by
  rcases List.mem_append.mp h with hq | hq
  · exact List.mem_append_left _ hq
  · exact List.mem_append_right _ (List.mem_cons_of_mem _ hq)

theorem mem_replace {before after : List π} {p p' q : π} (h : q ∈ before ++ p' :: after) :
    q = p' ∨ q ∈ before ++ after ∧ q ∈ before ++ p :: after := by
  rcases List.mem_append.mp h with hq | hq
  · exact .inr ⟨List.mem_append_left _ hq, List.mem_append_left _ hq⟩
  · rcases List.mem_cons.mp hq with hq | hq
    · exact .inl hq
    · exact .inr ⟨List.mem_append_right _ hq, mem_of_other (List.mem_append_right _ hq)⟩

end Pool

end Quill
