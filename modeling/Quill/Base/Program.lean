import Mathlib.Logic.Relation

/-!
# Stateful programs that can fail

`Prog σ ε α` is a computation over a state `σ` that ends in a value or in an error; an
error keeps the changes made to the state before it. `attempt` turns the error of an inner
program into a value, as a `match` on a `Result` does.

An `Evolution` is a reflexive and transitive relation between an earlier and a later
state. `Moves E m` says that every run of `m`, failed runs included, goes along `E`.
The rules below follow the syntax of programs, so that a fact about the primitive
operations is carried to every program built from them. `Evolution.keep I` is the
evolution that preserves the predicate `I`. `Gives m P` says that every value that `m`
returns satisfies `P`.
-/

namespace Quill

/-- A program that changes a state and may fail; a failure keeps the changes made before it. -/
abbrev Prog (σ ε α : Type) := ExceptT ε (StateM σ) α

namespace Prog

variable {σ τ ε ε' α β : Type}

/-- The outcome of a program and the state it leaves. -/
def exec (m : Prog σ ε α) (s : σ) : Except ε α × σ := StateT.run (ExceptT.run m) s

/-- The program that is given by its outcome and the state it leaves. -/
def ofFun (f : σ → Except ε α × σ) : Prog σ ε α := ExceptT.mk f

/-- The outcome of a program as a value, so that the caller goes on after a failure. -/
def attempt (m : Prog σ ε α) : Prog σ ε' (Except ε α) :=
  ofFun fun s => (.ok (m.exec s).1, (m.exec s).2)

/-- The error of a program, converted. -/
def mapError (f : ε → ε') (m : Prog σ ε α) : Prog σ ε' α :=
  ofFun fun s => ((m.exec s).1.mapError f, (m.exec s).2)

@[simp] theorem exec_pure (a : α) (s : σ) : (pure a : Prog σ ε α).exec s = (.ok a, s) := rfl

@[simp] theorem exec_throw (e : ε) (s : σ) :
    (throw e : Prog σ ε α).exec s = (.error e, s) := rfl

@[simp] theorem exec_ofFun (f : σ → Except ε α × σ) (s : σ) : (ofFun f).exec s = f s := rfl

@[simp] theorem exec_get (s : σ) : (get : Prog σ ε σ).exec s = (.ok s, s) := rfl

@[simp] theorem exec_modify (f : σ → σ) (s : σ) :
    (modify f : Prog σ ε PUnit).exec s = (.ok ⟨⟩, f s) := rfl

@[simp] theorem exec_attempt (m : Prog σ ε α) (s : σ) :
    (m.attempt : Prog σ ε' (Except ε α)).exec s = (.ok (m.exec s).1, (m.exec s).2) := rfl

@[simp] theorem exec_mapError (f : ε → ε') (m : Prog σ ε α) (s : σ) :
    (m.mapError f).exec s = ((m.exec s).1.mapError f, (m.exec s).2) := rfl

theorem exec_bind (m : Prog σ ε α) (f : α → Prog σ ε β) (s : σ) :
    (m >>= f).exec s = match m.exec s with
      | (.ok a, s') => (f a).exec s'
      | (.error e, s') => (.error e, s') := by
  unfold exec ExceptT.run StateT.run
  simp only [bind, ExceptT.bind, ExceptT.mk, StateT.bind, ExceptT.bindCont]
  cases m s with
  | mk r s' => cases r <;> rfl

theorem exec_map (f : α → β) (m : Prog σ ε α) (s : σ) :
    (f <$> m).exec s = ((m.exec s).1.map f, (m.exec s).2) := by
  rw [map_eq_pure_bind, exec_bind]
  rcases m.exec s with ⟨_ | _, _⟩ <;> rfl

theorem exec_bind_ok {m : Prog σ ε α} {f : α → Prog σ ε β} {s s' : σ} {a : α}
    (h : m.exec s = (.ok a, s')) : (m >>= f).exec s = (f a).exec s' := by
  rw [exec_bind, h]

theorem exec_bind_error {m : Prog σ ε α} {f : α → Prog σ ε β} {s s' : σ} {e : ε}
    (h : m.exec s = (.error e, s')) : (m >>= f).exec s = (.error e, s') := by
  rw [exec_bind, h]

/-- The two ways a sequence can go. -/
theorem exec_bind_cases (m : Prog σ ε α) (f : α → Prog σ ε β) (s : σ) :
    (∃ e s', m.exec s = (.error e, s') ∧ (m >>= f).exec s = (.error e, s')) ∨
      ∃ a s', m.exec s = (.ok a, s') ∧ (m >>= f).exec s = (f a).exec s' := by
  rcases h : m.exec s with ⟨e | a, s'⟩
  · exact Or.inl ⟨e, s', rfl, exec_bind_error h⟩
  · exact Or.inr ⟨a, s', rfl, exec_bind_ok h⟩

/-- A successful sequence passes through a successful first part. -/
theorem exec_bind_eq_ok {m : Prog σ ε α} {f : α → Prog σ ε β} {s t : σ} {b : β} :
    (m >>= f).exec s = (.ok b, t) ↔
      ∃ a s', m.exec s = (.ok a, s') ∧ (f a).exec s' = (.ok b, t) := by
  rw [exec_bind]
  constructor
  · intro h
    cases hm : m.exec s with
    | mk r s' =>
      rw [hm] at h
      cases r with
      | ok a => exact ⟨a, s', rfl, h⟩
      | error e => cases h
  · rintro ⟨a, s', hm, hf⟩
    rw [hm]
    exact hf

theorem exec_attempt_eq {m : Prog σ ε α} {s s' : σ} {r : Except ε α} :
    (m.attempt : Prog σ ε' (Except ε α)).exec s = (.ok r, s') ↔ m.exec s = (r, s') := by
  rw [exec_attempt]
  constructor
  · intro h
    obtain ⟨h₁, h₂⟩ := Prod.mk.inj h
    exact Prod.ext (Except.ok.inj h₁) h₂
  · intro h
    rw [h]

end Prog

/-! ## Evolutions -/

/-- A reflexive and transitive relation between an earlier and a later state. -/
structure Evolution (σ : Type) where
  rel : σ → σ → Prop
  refl : ∀ s, rel s s
  trans : ∀ {s t u}, rel s t → rel t u → rel s u

namespace Evolution

variable {σ τ : Type}

/-- The states keep the predicate `I`. -/
def keep (I : σ → Prop) : Evolution σ where
  rel s t := I s → I t
  refl _ h := h
  trans h g i := g (h i)

/-- The value of `f` does not change. -/
def fixed {α : Type} (f : σ → α) : Evolution σ where
  rel s t := f t = f s
  refl _ := rfl
  trans h g := g.trans h

/-- The evolution of a component of the state. -/
def along (E : Evolution σ) (view : τ → σ) : Evolution τ where
  rel s t := E.rel (view s) (view t)
  refl s := E.refl (view s)
  trans h g := E.trans h g

/-- Any number of steps of `r`. -/
def star (r : σ → σ → Prop) : Evolution σ where
  rel := Relation.ReflTransGen r
  refl _ := .refl
  trans h g := h.trans g

/-- What every step preserves is preserved by any number of steps. -/
theorem star_keep {r : σ → σ → Prop} {I : σ → Prop} (hstep : ∀ s t, r s t → I s → I t) {s t : σ}
    (h : (star r).rel s t) (hs : I s) : I t := by
  induction h with
  | refl => exact hs
  | tail _ hr ih => exact hstep _ _ hr ih

/-- Where every step goes along `E`, any number of steps does. -/
theorem star_rel {r : σ → σ → Prop} {E : Evolution σ} (hstep : ∀ s t, r s t → E.rel s t) {s t : σ}
    (h : (star r).rel s t) : E.rel s t := by
  induction h with
  | refl => exact E.refl _
  | tail _ hr ih => exact E.trans ih (hstep _ _ hr)

end Evolution

/-- Every run of `m` goes along `E`. -/
def Moves {σ ε α : Type} (E : Evolution σ) (m : Prog σ ε α) : Prop :=
  ∀ s, E.rel s (m.exec s).2

namespace Moves

variable {σ τ ε ε' α β : Type} {E : Evolution σ}

theorem rel_of_exec {m : Prog σ ε α} (hm : Moves E m) {s s' : σ} {r : Except ε α}
    (h : m.exec s = (r, s')) : E.rel s s' := by
  have hrel := hm s
  rwa [h] at hrel

theorem of_pure (a : α) : Moves E (pure a : Prog σ ε α) := fun s => E.refl s

theorem of_throw (e : ε) : Moves E (throw e : Prog σ ε α) := fun s => E.refl s

theorem of_get : Moves E (get : Prog σ ε σ) := fun s => E.refl s

theorem of_modify {f : σ → σ} (h : ∀ s, E.rel s (f s)) :
    Moves E (modify f : Prog σ ε PUnit) := h

/-- A sequence, with what the outcome of its first part says about the state in between. -/
theorem rel_bind {m : Prog σ ε α} {f : α → Prog σ ε β} {s : σ} (hm : E.rel s (m.exec s).2)
    (hf : ∀ a s', m.exec s = (.ok a, s') → E.rel s' ((f a).exec s').2) :
    E.rel s ((m >>= f).exec s).2 := by
  rw [Prog.exec_bind]
  cases hr : m.exec s with
  | mk r s' =>
    rw [hr] at hm
    cases r with
    | ok a => exact E.trans hm (hf a s' hr)
    | error e => exact hm

theorem seq {m : Prog σ ε α} {f : α → Prog σ ε β} (hm : Moves E m)
    (hf : ∀ a, Moves E (f a)) : Moves E (m >>= f) :=
  fun s => rel_bind (hm s) fun a s' _ => hf a s'

theorem of_attempt {m : Prog σ ε α} (hm : Moves E m) :
    Moves E (m.attempt : Prog σ ε' (Except ε α)) := hm

theorem of_mapError {m : Prog σ ε α} (f : ε → ε') (hm : Moves E m) : Moves E (m.mapError f) := hm

theorem of_ite {c : Prop} [Decidable c] {m m' : Prog σ ε α} (hm : c → Moves E m)
    (hm' : ¬ c → Moves E m') : Moves E (if c then m else m') := by
  split
  · exact hm ‹_›
  · exact hm' ‹_›

theorem of_map {m : Prog σ ε α} (f : α → β) (hm : Moves E m) : Moves E (f <$> m) := by
  rw [map_eq_pure_bind]
  exact hm.seq fun a => of_pure (f a)

theorem weaken {F : Evolution σ} {m : Prog σ ε α} (hm : Moves E m)
    (h : ∀ s t, E.rel s t → F.rel s t) : Moves F m := fun s => h s _ (hm s)

end Moves

/-! ## Results -/

/-- Every value that `m` returns satisfies `P`. -/
def Gives {σ ε α : Type} (m : Prog σ ε α) (P : α → Prop) : Prop :=
  ∀ s a s', m.exec s = (.ok a, s') → P a

namespace Gives

variable {σ ε α β : Type} {P : α → Prop} {Q : β → Prop}

theorem any (m : Prog σ ε α) : Gives m fun _ => True := fun _ _ _ _ => trivial

theorem of_pure {a : α} (h : P a) : Gives (pure a : Prog σ ε α) P := by
  intro s a' s' hrun
  cases hrun
  exact h

theorem of_throw (e : ε) : Gives (throw e : Prog σ ε α) P := by
  intro s a s' hrun
  cases hrun

theorem seq {m : Prog σ ε α} {f : α → Prog σ ε β} (hm : Gives m P)
    (hf : ∀ a, P a → Gives (f a) Q) : Gives (m >>= f) Q := by
  intro s b s' hrun
  obtain ⟨a, s₁, hfirst, hrest⟩ := Prog.exec_bind_eq_ok.mp hrun
  exact hf a (hm s a s₁ hfirst) s₁ b s' hrest

/-- A sequence whose last part does not depend on what the first part returns. -/
theorem last {m : Prog σ ε α} {f : α → Prog σ ε β} (hf : ∀ a, Gives (f a) Q) :
    Gives (m >>= f) Q :=
  (any m).seq fun a _ => hf a

theorem of_attempt {ε' : Type} {m : Prog σ ε α} (hm : Gives m P) :
    Gives (m.attempt : Prog σ ε' (Except ε α)) fun r => ∀ a, r = .ok a → P a := by
  intro s r s' hrun a hr
  rw [Prog.exec_attempt_eq, hr] at hrun
  exact hm s a s' hrun

theorem of_ite {c : Prop} [Decidable c] {m m' : Prog σ ε α} (hm : c → Gives m P)
    (hm' : ¬ c → Gives m' P) : Gives (if c then m else m') P := by
  split
  · exact hm ‹_›
  · exact hm' ‹_›

theorem of_map {m : Prog σ ε α} (f : α → β) (hm : Gives m fun a => Q (f a)) :
    Gives (f <$> m) Q := by
  rw [map_eq_pure_bind]
  exact hm.seq fun a ha => of_pure ha

end Gives

end Quill
