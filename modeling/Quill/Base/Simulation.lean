import Quill.Base.Program

/-!
# Programs that behave alike

`Simulates R m m'` says that from states related by `R` both programs have the same outcome and
end in related states. As for `Moves`, the rules follow the syntax of programs.
-/

namespace Quill

/-- From related states, the same outcome and related states. -/
def Simulates {σ τ ε α : Type} (R : σ → τ → Prop) (m : Prog σ ε α) (m' : Prog τ ε α) : Prop :=
  ∀ s t, R s t → (m.exec s).1 = (m'.exec t).1 ∧ R (m.exec s).2 (m'.exec t).2

namespace Simulates

variable {σ τ ε ε' α β : Type} {R : σ → τ → Prop}

theorem of_pure (a : α) : Simulates R (pure a : Prog σ ε α) (pure a) := fun _ _ h => ⟨rfl, h⟩

theorem of_throw (e : ε) : Simulates R (throw e : Prog σ ε α) (throw e) := fun _ _ h => ⟨rfl, h⟩

theorem of_modify {f : σ → σ} {g : τ → τ} (h : ∀ s t, R s t → R (f s) (g t)) :
    Simulates R (modify f : Prog σ ε PUnit) (modify g) := fun s t hst => ⟨rfl, h s t hst⟩

/-- Both programs fail alike or both succeed alike. -/
theorem cases {m : Prog σ ε α} {m' : Prog τ ε α} (h : Simulates R m m') {s : σ} {t : τ} (hst : R s t) :
    (∃ e s' t', m.exec s = (.error e, s') ∧ m'.exec t = (.error e, t') ∧ R s' t') ∨
      ∃ a s' t', m.exec s = (.ok a, s') ∧ m'.exec t = (.ok a, t') ∧ R s' t' := by
  obtain ⟨hres, hst'⟩ := h s t hst
  rcases hs : m.exec s with ⟨e | a, s'⟩
  · rw [hs] at hres hst'
    exact Or.inl ⟨e, s', _, rfl, Prod.ext hres.symm rfl, hst'⟩
  · rw [hs] at hres hst'
    exact Or.inr ⟨a, s', _, rfl, Prod.ext hres.symm rfl, hst'⟩

theorem seq {m : Prog σ ε α} {m' : Prog τ ε α} {f : α → Prog σ ε β} {f' : α → Prog τ ε β}
    (hm : Simulates R m m') (hf : ∀ a, Simulates R (f a) (f' a)) :
    Simulates R (m >>= f) (m' >>= f') := by
  intro s t hst
  rcases hm.cases hst with ⟨e, s', t', hs, ht, hst'⟩ | ⟨a, s', t', hs, ht, hst'⟩
  · rw [Prog.exec_bind_error hs, Prog.exec_bind_error ht]
    exact ⟨rfl, hst'⟩
  · rw [Prog.exec_bind_ok hs, Prog.exec_bind_ok ht]
    exact hf a s' t' hst'

/-- Programs that look at the state first. -/
theorem of_get {f : σ → Prog σ ε α} {f' : τ → Prog τ ε α}
    (h : ∀ s t, R s t → ((f s).exec s).1 = ((f' t).exec t).1 ∧ R ((f s).exec s).2 ((f' t).exec t).2) :
    Simulates R (get >>= f) (get >>= f') := by
  intro s t hst
  rw [Prog.exec_bind_ok (Prog.exec_get s), Prog.exec_bind_ok (Prog.exec_get t)]
  exact h s t hst

theorem of_ite {c : Prop} [Decidable c] {m n : Prog σ ε α} {m' n' : Prog τ ε α}
    (hm : Simulates R m m') (hn : Simulates R n n') :
    Simulates R (if c then m else n) (if c then m' else n') := by
  split
  · exact hm
  · exact hn

theorem of_attempt {m : Prog σ ε α} {m' : Prog τ ε α} (h : Simulates R m m') :
    Simulates R (m.attempt : Prog σ ε' (Except ε α)) m'.attempt := by
  intro s t hst
  obtain ⟨hres, hst'⟩ := h s t hst
  exact ⟨congrArg Except.ok hres, hst'⟩

theorem of_mapError (f : ε → ε') {m : Prog σ ε α} {m' : Prog τ ε α} (h : Simulates R m m') :
    Simulates R (m.mapError f) (m'.mapError f) := by
  intro s t hst
  obtain ⟨hres, hst'⟩ := h s t hst
  exact ⟨congrArg (Except.mapError f) hres, hst'⟩

end Simulates

end Quill
