import Quill.Base.Program

/-!
# Programs confined to a part of the state

A `Confinement` describes a part of a state: what holds of the state between operations
(`inv`), when two states agree on the part (`alike`), and which changes of the state are
changes of the part only (`change`).

`Confined C m Q` says two things about `m`. A run from a state with the invariant keeps
it, changes the state along `C.change` and returns values with `Q`. Runs from two states
that are alike have the same outcome and end in states that are alike again, so that
nothing outside of the part has an influence. The rules follow the syntax of programs.
-/

namespace Quill

/-- An area that a program is to stay in: the states it is claimed for, when two states are alike
inside, and the changes that stay inside. -/
structure Confinement (σ : Type) where
  inv : σ → Prop
  alike : σ → σ → Prop
  change : Evolution σ

/-- The program keeps to the area: what it does and answers depends on nothing outside, and it
changes nothing there. -/
structure Confined {σ ε α : Type} (C : Confinement σ) (m : Prog σ ε α) (Q : α → Prop) : Prop where
  inv : ∀ {s}, C.inv s → C.inv (m.exec s).2
  change : ∀ {s}, C.inv s → C.change.rel s (m.exec s).2
  post : ∀ {s a}, C.inv s → (m.exec s).1 = .ok a → Q a
  alike : ∀ {s t}, C.inv s → C.inv t → C.alike s t →
    (m.exec s).1 = (m.exec t).1 ∧ C.alike (m.exec s).2 (m.exec t).2

namespace Confined

variable {σ ε ε' α β : Type} {C : Confinement σ} {P : α → Prop} {Q : β → Prop}

theorem of_pure {a : α} (h : P a) : Confined C (pure a : Prog σ ε α) P where
  inv hs := hs
  change _ := C.change.refl _
  post _ he := by
    cases he
    exact h
  alike _ _ hst := ⟨rfl, hst⟩

theorem of_throw (e : ε) : Confined C (throw e : Prog σ ε α) P where
  inv hs := hs
  change _ := C.change.refl _
  post _ he := by cases he
  alike _ _ hst := ⟨rfl, hst⟩

/-- A sequence: the second part may rely on the postcondition of the first. -/
theorem seq {m : Prog σ ε α} {f : α → Prog σ ε β} (hm : Confined C m P)
    (hf : ∀ a, P a → Confined C (f a) Q) : Confined C (m >>= f) Q where
  inv {s} hs := by
    have hs₁ := hm.inv hs
    rcases Prog.exec_bind_cases m f s with ⟨e, s₁, hexec, hbind⟩ | ⟨a, s₁, hexec, hbind⟩
    · rw [hbind]
      rwa [hexec] at hs₁
    · rw [hbind]
      rw [hexec] at hs₁
      exact (hf a (hm.post hs (by rw [hexec]))).inv hs₁
  change {s} hs := by
    have hs₁ := hm.inv hs
    have hrel := hm.change hs
    rcases Prog.exec_bind_cases m f s with ⟨e, s₁, hexec, hbind⟩ | ⟨a, s₁, hexec, hbind⟩
    · rw [hbind]
      rwa [hexec] at hrel
    · rw [hbind]
      rw [hexec] at hs₁ hrel
      exact C.change.trans hrel ((hf a (hm.post hs (by rw [hexec]))).change hs₁)
  post {s b} hs he := by
    have hs₁ := hm.inv hs
    rcases Prog.exec_bind_cases m f s with ⟨e, s₁, hexec, hbind⟩ | ⟨a, s₁, hexec, hbind⟩
    · rw [hbind] at he
      cases he
    · rw [hbind] at he
      rw [hexec] at hs₁
      exact (hf a (hm.post hs (by rw [hexec]))).post hs₁ he
  alike {s t} hs ht hst := by
    obtain ⟨hout, hlike⟩ := hm.alike hs ht hst
    have hs₁ := hm.inv hs
    have ht₁ := hm.inv ht
    rcases Prog.exec_bind_cases m f s with ⟨e, s₁, hexec, hbind⟩ | ⟨a, s₁, hexec, hbind⟩
    · rw [hexec] at hout hlike
      have htexec : m.exec t = (.error e, (m.exec t).2) := Prod.ext hout.symm rfl
      rw [hbind, Prog.exec_bind_error htexec]
      exact ⟨rfl, hlike⟩
    · rw [hexec] at hout hlike hs₁
      have htexec : m.exec t = (.ok a, (m.exec t).2) := Prod.ext hout.symm rfl
      rw [hbind, Prog.exec_bind_ok htexec]
      exact (hf a (hm.post hs (by rw [hexec]))).alike hs₁ ht₁ hlike

theorem weaken {P' : α → Prop} {m : Prog σ ε α} (hm : Confined C m P) (h : ∀ a, P a → P' a) :
    Confined C m P' where
  inv := hm.inv
  change := hm.change
  post hs he := h _ (hm.post hs he)
  alike := hm.alike

/-- The postcondition of an attempt is that of its successes. -/
theorem of_attempt {m : Prog σ ε α} (hm : Confined C m P) :
    Confined C (m.attempt : Prog σ ε' (Except ε α)) (fun r => ∀ a, r = .ok a → P a) where
  inv := hm.inv
  change := hm.change
  post hs he a ha := by
    cases he
    exact hm.post hs ha
  alike hs ht hst := by
    obtain ⟨hout, hlike⟩ := hm.alike hs ht hst
    exact ⟨congrArg Except.ok hout, hlike⟩

theorem of_mapError {m : Prog σ ε α} (f : ε → ε') (hm : Confined C m P) :
    Confined C (m.mapError f) P where
  inv := hm.inv
  change := hm.change
  post {s a} hs he := by
    rw [Prog.exec_mapError] at he
    cases hr : (m.exec s).1 with
    | error e =>
      rw [hr] at he
      cases he
    | ok b =>
      rw [hr] at he
      cases he
      exact hm.post hs hr
  alike hs ht hst := by
    obtain ⟨hout, hlike⟩ := hm.alike hs ht hst
    exact ⟨congrArg (Except.mapError f) hout, hlike⟩

theorem of_ite {c : Prop} [Decidable c] {m m' : Prog σ ε α} (hm : c → Confined C m P)
    (hm' : ¬ c → Confined C m' P) : Confined C (if c then m else m') P := by
  split
  · exact hm ‹_›
  · exact hm' ‹_›

theorem of_map {m : Prog σ ε α} (f : α → β) (hm : Confined C m fun a => Q (f a)) :
    Confined C (f <$> m) Q := by
  rw [map_eq_pure_bind]
  exact hm.seq fun a ha => of_pure ha

/-- A look at the state, of which only the part counts. -/
theorem of_get {f : σ → Prog σ ε α} (hsame : ∀ s t, C.alike s t → f s = f t)
    (hf : ∀ s, C.inv s → Confined C (f s) P) : Confined C (get >>= f) P where
  inv {s} hs := by
    rw [Prog.exec_bind_ok (Prog.exec_get s)]
    exact (hf s hs).inv hs
  change {s} hs := by
    rw [Prog.exec_bind_ok (Prog.exec_get s)]
    exact (hf s hs).change hs
  post {s a} hs he := by
    rw [Prog.exec_bind_ok (Prog.exec_get s)] at he
    exact (hf s hs).post hs he
  alike {s t} hs ht hst := by
    rw [Prog.exec_bind_ok (Prog.exec_get s), Prog.exec_bind_ok (Prog.exec_get t), ← hsame s t hst]
    exact (hf s hs).alike hs ht hst

end Confined

end Quill
