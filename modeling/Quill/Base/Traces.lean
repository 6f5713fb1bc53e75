import Mathlib.Data.List.Induction

/-!
# Histories of labelled steps

A step relation `σ → ℓ → σ → Prop` relates a state, a label and a next state. `Trace step s ls t`
says that the labels `ls`, in this order, lead from `s` to `t`.

`Trace.keep` is the invariant rule, and `Trace.foldl` reads a component of the last state off the
labels. `Trace.filterMap` and `Trace.filter_iff` are about labels that do not matter: to another
system, or to the state. A `Refinement` looks at the states of one system as states of another, as long as they are
sane: every step is then a step of the other system with the same label, and every history a history
of it (`Refinement.trace`).
-/

namespace Quill

variable {σ τ ℓ : Type*}

/-- Labelled steps from a state, the last label at the end. -/
inductive Trace (step : σ → ℓ → σ → Prop) (s : σ) : List ℓ → σ → Prop
  | nil : Trace step s [] s
  | snoc {ls : List ℓ} {t u : σ} {l : ℓ} (h : Trace step s ls t) (hstep : step t l u) :
      Trace step s (ls ++ [l]) u

namespace Trace

variable {step : σ → ℓ → σ → Prop} {s t u : σ} {ls ls' : List ℓ} {l : ℓ}

theorem nil_iff : Trace step s [] t ↔ t = s := by
  constructor
  · intro h
    generalize hls : ([] : List ℓ) = ls at h
    cases h with
    | nil => rfl
    | snoc => exact absurd hls (by simp)
  · rintro rfl
    exact .nil

theorem snoc_iff : Trace step s (ls ++ [l]) u ↔ ∃ t, Trace step s ls t ∧ step t l u := by
  constructor
  · intro h
    generalize hls : ls ++ [l] = ls' at h
    cases h with
    | nil => exact absurd hls (by simp)
    | snoc h hstep =>
      obtain ⟨rfl, hl⟩ := List.append_inj' hls rfl
      cases hl
      exact ⟨_, h, hstep⟩
  · rintro ⟨t, h, hstep⟩
    exact .snoc h hstep

/-- A history is cut in two at any of its states. -/
theorem append_iff : Trace step s (ls ++ ls') u ↔ ∃ t, Trace step s ls t ∧ Trace step t ls' u := by
  induction ls' using List.reverseRecOn generalizing u with
  | nil => simp [nil_iff]
  | append_singleton ls' l ih =>
    rw [← List.append_assoc, snoc_iff]
    simp only [snoc_iff, ih]
    constructor
    · rintro ⟨v, ⟨t, h, h'⟩, hstep⟩
      exact ⟨t, h, v, h', hstep⟩
    · rintro ⟨t, h, v, h', hstep⟩
      exact ⟨v, ⟨t, h, h'⟩, hstep⟩

/-- What every step with an allowed label preserves. -/
theorem keep {I : σ → Prop} {P : ℓ → Prop} (hstep : ∀ {s l t}, P l → step s l t → I s → I t)
    (h : Trace step s ls t) (hls : ∀ l ∈ ls, P l) (hs : I s) : I t := by
  induction h with
  | nil => exact hs
  | snoc _ hlast ih =>
    exact hstep (hls _ (by simp)) hlast (ih fun l hl => hls l (List.mem_append_left _ hl))

/-- A component that every step changes as its label says is a function of the labels. -/
theorem foldl {β : Type*} {f : σ → β} {g : β → ℓ → β} (hstep : ∀ {s l t}, step s l t → f t = g (f s) l)
    (h : Trace step s ls t) : f t = ls.foldl g (f s) := by
  induction h with
  | nil => rfl
  | snoc _ hlast ih => rw [List.foldl_append, ← ih, hstep hlast]; rfl

/-- Steps that another system does not see are left out of the history that it sees. -/
theorem filterMap {ℓ' : Type*} {step' : τ → ℓ' → τ → Prop} {g : σ → τ} {f : ℓ → Option ℓ'} {I : σ → Prop}
    (hkeep : ∀ {s l t}, I s → step s l t → I t)
    (hseen : ∀ {s l l' t}, I s → step s l t → f l = some l' → step' (g s) l' (g t))
    (hidle : ∀ {s l t}, I s → step s l t → f l = none → g t = g s)
    (h : Trace step s ls t) (hs : I s) : I t ∧ Trace step' (g s) (ls.filterMap f) (g t) := by
  induction h with
  | nil => exact ⟨hs, .nil⟩
  | @snoc ls t u l _ hlast ih =>
    obtain ⟨ht, htrace⟩ := ih
    refine ⟨hkeep ht hlast, ?_⟩
    rw [List.filterMap_append]
    cases hl : f l with
    | none =>
      rw [List.filterMap_cons_none hl, List.filterMap_nil, List.append_nil, hidle ht hlast hl]
      exact htrace
    | some l' =>
      rw [List.filterMap_cons_some hl, List.filterMap_nil]
      exact .snoc htrace (hseen ht hlast hl)

/-- Where the labels outside `p` change nothing, a history is one of the labels in `p`, and the others
can stand anywhere in it. -/
theorem filter_iff {p : ℓ → Bool} {Q : ℓ → Prop} {I : σ → Prop} (hkeep : ∀ {s l t}, I s → step s l t → I t)
    (hidle : ∀ {s l t}, I s → p l = false → (step s l t ↔ t = s ∧ Q l)) (hs : I s) :
    Trace step s ls t ↔ Trace step s (ls.filter p) t ∧ ∀ l ∈ ls, p l = false → Q l := by
  have hinv : ∀ {ls u}, Trace step s ls u → I u := fun h =>
    keep (P := fun _ => True) (fun _ hst hs => hkeep hs hst) h (fun _ _ => trivial) hs
  induction ls using List.reverseRecOn generalizing t with
  | nil => simp
  | append_singleton ls l ih =>
    rw [snoc_iff, List.filter_append, List.forall_mem_append, List.forall_mem_singleton]
    cases hl : p l with
    | false =>
      rw [List.filter_cons_of_neg (by simp [hl]), List.filter_nil, List.append_nil]
      constructor
      · rintro ⟨u, h, hlast⟩
        obtain ⟨rfl, hq⟩ := (hidle (hinv h) hl).mp hlast
        obtain ⟨hfilter, hall⟩ := ih.mp h
        exact ⟨hfilter, hall, fun _ => hq⟩
      · rintro ⟨hfilter, hall, hq⟩
        have h := ih.mpr ⟨hfilter, hall⟩
        exact ⟨t, h, (hidle (hinv h) hl).mpr ⟨rfl, hq rfl⟩⟩
    | true =>
      rw [List.filter_cons_of_pos hl, List.filter_nil, snoc_iff]
      constructor
      · rintro ⟨u, h, hlast⟩
        obtain ⟨hfilter, hall⟩ := ih.mp h
        exact ⟨⟨u, hfilter, hlast⟩, hall, fun hf => by cases hf⟩
      · rintro ⟨⟨u, hfilter, hlast⟩, hall, -⟩
        exact ⟨u, ih.mpr ⟨hfilter, hall⟩, hlast⟩

end Trace

/-- The sane states of one system, seen as states of another. -/
structure Refinement (step : σ → ℓ → σ → Prop) (step' : τ → ℓ → τ → Prop) where
  view : σ → τ
  inv : σ → Prop
  sane : σ → Prop
  label : ℓ → Prop
  sane_before : ∀ {s l t}, step s l t → sane t → sane s
  sim : ∀ {s l t}, label l → inv s → sane t → step s l t → inv t ∧ step' (view s) l (view t)

namespace Refinement

variable {step : σ → ℓ → σ → Prop} {step' : τ → ℓ → τ → Prop} (R : Refinement step step')
  {s t : σ} {ls : List ℓ}

include R in
theorem sane_start (h : Trace step s ls t) (ht : R.sane t) : R.sane s := by
  induction h with
  | nil => exact ht
  | snoc _ hlast ih => exact ih (R.sane_before hlast ht)

include R in
/-- A history that ends in a sane state is a history of the other system. -/
theorem trace (h : Trace step s ls t) (hls : ∀ l ∈ ls, R.label l) (hs : R.inv s) (ht : R.sane t) :
    R.inv t ∧ Trace step' (R.view s) ls (R.view t) := by
  induction h with
  | nil => exact ⟨hs, .nil⟩
  | snoc _ hlast ih =>
    obtain ⟨hinv, htrace⟩ := ih (fun l hl => hls l (List.mem_append_left _ hl)) (R.sane_before hlast ht)
    obtain ⟨hinv', hstep'⟩ := R.sim (hls _ (by simp)) hinv ht hlast
    exact ⟨hinv', .snoc htrace hstep'⟩

end Refinement

end Quill
