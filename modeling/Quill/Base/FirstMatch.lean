import Mathlib.Data.List.Perm.Basic
import Mathlib.Data.List.Forall2

/-!
# First match against a list of prefixes

A table is a list of entries, each with a key that is itself a list. `firstMatch` looks an
argument up by taking the first entry whose key is a prefix of it. The entry so found always
has the longest matching key exactly when no key hides a longer one behind it, and the order
of the table is irrelevant exactly when no key is a prefix of another entry's key.
-/

namespace Quill.Base

variable {α β : Type} [DecidableEq α] (key : β → List α)

/-- The first entry of the table whose key is a prefix of `x`. -/
def firstMatch (table : List β) (x : List α) : Option β :=
  table.find? fun b => (key b).isPrefixOf x

/-- An entry of the table whose key is a longest one among those that are prefixes of `x`; no
entry when no key is a prefix of `x`. -/
def IsLongestMatch (table : List β) (x : List α) : Option β → Prop
  | none => ∀ b ∈ table, ¬ key b <+: x
  | some b => b ∈ table ∧ key b <+: x ∧
      ∀ c ∈ table, key c <+: x → (key c).length ≤ (key b).length

/-- A key that properly extends the key of an earlier entry also stands before that entry. -/
def LongerFirst (table : List β) : Prop :=
  ∀ before b after, table = before ++ b :: after →
    ∀ c ∈ after, key b <+: key c → key b ≠ key c → ∃ d ∈ before, key d = key c

variable {key} {table table' : List β} {x : List α}

theorem firstMatch_eq_none : firstMatch key table x = none ↔ ∀ b ∈ table, ¬ key b <+: x := by
  simp [firstMatch, List.find?_eq_none]

theorem firstMatch_eq_some {b : β} :
    firstMatch key table x = some b ↔
      key b <+: x ∧ ∃ before after, table = before ++ b :: after ∧
        ∀ c ∈ before, ¬ key c <+: x := by
  simp only [firstMatch, List.find?_eq_some_iff_append, List.isPrefixOf_iff_prefix,
    ← Bool.not_eq_true, Bool.not_eq_eq_eq_not, Bool.not_true]

theorem firstMatch_cons_of_prefix {b : β} (h : key b <+: x) :
    firstMatch key (b :: table) x = some b := by
  apply firstMatch_eq_some.mpr
  exact ⟨h, [], table, rfl, fun c hc => absurd hc List.not_mem_nil⟩

/-- The first match is always a longest one exactly when no key hides a longer one. -/
theorem isLongestMatch_firstMatch_iff :
    (∀ x, IsLongestMatch key table x (firstMatch key table x)) ↔ LongerFirst key table := by
  constructor
  · intro h before b after htable c hc hbc hne
    -- looking up the longer key itself must find an entry with that key
    have hlongest := h (key c)
    have hmem : c ∈ table := by simp [htable, hc]
    cases hfirst : firstMatch key table (key c) with
    | none => exact absurd (List.prefix_refl _) (firstMatch_eq_none.mp hfirst c hmem)
    | some d =>
      rw [hfirst] at hlongest
      obtain ⟨hdc, before', after', htable', hbefore'⟩ := firstMatch_eq_some.mp hfirst
      have hlength : (key c).length ≤ (key d).length :=
        hlongest.2.2 c hmem (List.prefix_refl _)
      have hdc' : key d = key c := hdc.eq_of_length_le hlength
      refine ⟨d, ?_, hdc'⟩
      rcases List.append_eq_append_iff.mp (htable.symm.trans htable') with
        ⟨s, hs, hrest⟩ | ⟨s, hs, hrest⟩
      · cases s with
        | nil =>
          have hbd : b = d := (List.cons.inj hrest).1
          exact absurd (hbd ▸ hdc') hne
        | cons e s =>
          have hbe : b = e := (List.cons.inj hrest).1
          exact absurd hbc (hbefore' b (by simp [hs, hbe]))
      · cases s with
        | nil =>
          have hdb : d = b := (List.cons.inj hrest).1
          exact absurd (hdb ▸ hdc') hne
        | cons e s =>
          have hde : d = e := (List.cons.inj hrest).1
          simp [hs, hde]
  · intro h x
    cases hfirst : firstMatch key table x with
    | none => exact firstMatch_eq_none.mp hfirst
    | some b =>
      obtain ⟨hbx, before, after, htable, hbefore⟩ := firstMatch_eq_some.mp hfirst
      refine ⟨by simp [htable], hbx, fun c hc hcx => ?_⟩
      by_contra hlt
      have hbc : key b <+: key c := List.prefix_of_prefix_length_le hbx hcx (by omega)
      have hne : key b ≠ key c := by
        intro heq
        rw [heq] at hlt
        omega
      have hafter : c ∈ after := by
        rw [htable, List.mem_append, List.mem_cons] at hc
        rcases hc with hc | rfl | hc
        · exact absurd hcx (hbefore c hc)
        · exact absurd rfl hne
        · exact hc
      obtain ⟨d, hd, hdc⟩ := h before b after htable c hafter hbc hne
      exact hbefore d hd (hdc ▸ hcx)

/-- When no key is a prefix of another entry's key, the match is the only one. -/
theorem firstMatch_eq_some_of_antichain
    (h : ∀ b ∈ table, ∀ c ∈ table, key b <+: key c → b = c) {b : β} :
    firstMatch key table x = some b ↔ b ∈ table ∧ key b <+: x := by
  constructor
  · intro hfirst
    obtain ⟨hbx, before, after, htable, -⟩ := firstMatch_eq_some.mp hfirst
    exact ⟨by simp [htable], hbx⟩
  · intro ⟨hb, hbx⟩
    cases hfirst : firstMatch key table x with
    | none => exact absurd hbx (firstMatch_eq_none.mp hfirst b hb)
    | some c =>
      obtain ⟨hcx, before, after, htable, -⟩ := firstMatch_eq_some.mp hfirst
      have hc : c ∈ table := by simp [htable]
      rcases List.prefix_or_prefix_of_prefix hbx hcx with hbc | hcb
      · rw [h b hb c hc hbc]
      · rw [h c hc b hb hcb]

theorem firstMatch_perm_of_antichain
    (h : ∀ b ∈ table, ∀ c ∈ table, key b <+: key c → b = c) (hperm : table'.Perm table) :
    firstMatch key table' x = firstMatch key table x := by
  ext b
  have h' : ∀ b ∈ table', ∀ c ∈ table', key b <+: key c → b = c := by
    intro b hb c hc hbc
    exact h b (hperm.mem_iff.mp hb) c (hperm.mem_iff.mp hc) hbc
  rw [firstMatch_eq_some_of_antichain h', firstMatch_eq_some_of_antichain h, hperm.mem_iff]

/-- The order of the table is irrelevant exactly when no key is a prefix of another entry's
key. -/
theorem firstMatch_perm_iff :
    (∀ table' : List β, table'.Perm table →
        ∀ x, firstMatch key table' x = firstMatch key table x) ↔
      ∀ b ∈ table, ∀ c ∈ table, key b <+: key c → b = c := by
  constructor
  · intro h b hb c hc hbc
    -- either entry can be brought to the front
    have hfront : ∀ d ∈ table, key d <+: key c → firstMatch key table (key c) = some d := by
      intro d hd hdc
      obtain ⟨s, t, hst⟩ := List.append_of_mem hd
      have hperm : (d :: (s ++ t)).Perm table := hst ▸ List.perm_middle.symm
      rw [← h _ hperm]
      exact firstMatch_cons_of_prefix hdc
    have hb' := hfront b hb hbc
    have hc' := hfront c hc (List.prefix_refl _)
    exact Option.some.inj (hb'.symm.trans hc')
  · intro h table' hperm x
    exact firstMatch_perm_of_antichain h hperm

end Quill.Base
