import Quill.Files.Tree

/-!
# The way to a joined path

`join` drops `..` from the text together with the component before it. The operating system enters the
components one after the other: each of them has to be a directory, and `fs::create_dir_all` makes
those that are missing, also where a later `..` leaves them again. `way p s` lists the paths
that are entered on the way to `join p s`, from the root of the file system on, and `makeWay` is
`create_dir_all` on the unresolved path.

A text without `..` has no detours: its way is what lies above the joined path
(`way_eq_tails`), and `makeWay` is `createDirAll` of it (`exec_makeWay_way`). On a way that is entered
already, every operation comes to the joined path.
-/

namespace Quill.Files

open Text

/-- The paths entered by the components, without the components that lead nowhere. -/
def stations (p : Path) : List Str → List Path
  | [] => []
  | seg :: segs =>
    if enter p seg = p then stations p segs else enter p seg :: stations (enter p seg) segs

/-- The paths that the operating system enters on the way to `join p s`. -/
def way (p : Path) (s : Str) : List Path :=
  let start := if s.head? = some '/' then [] else p
  start.tails.reverse ++ stations start (s.splitOn '/')

/-- No component of the text leads upwards. -/
def Straight (s : Str) : Prop := ['.', '.'] ∉ s.splitOn '/'

instance (s : Str) : Decidable (Straight s) := inferInstanceAs (Decidable (_ ∉ _))

/-! ## What lies on the way -/

theorem enter_straight {seg : Str} (h : seg ≠ ['.', '.']) (p : Path) :
    enter p seg = p ∨ ∃ n, enter p seg = n :: p := by
  unfold enter
  rw [if_neg h]
  split
  · exact Or.inr ⟨_, rfl⟩
  · exact Or.inl rfl

theorem tails_stations {segs : List Str} (h : ['.', '.'] ∉ segs) (p : Path) :
    p.tails.reverse ++ stations p segs = (resolve p segs).tails.reverse := by
  induction segs generalizing p with
  | nil => simp [stations, resolve]
  | cons seg segs ih =>
    rw [List.mem_cons, not_or] at h
    have hresolve : resolve p (seg :: segs) = resolve (enter p seg) segs := rfl
    rw [hresolve, ← ih h.2, stations]
    rcases enter_straight (Ne.symm h.1) p with hstay | ⟨n, hdown⟩
    · rw [if_pos hstay, hstay]
    · rw [hdown, if_neg (List.cons_ne_self n p), List.tails_cons, List.reverse_cons,
        List.append_assoc, List.singleton_append]

/-- Without `..` there are no detours. -/
theorem way_eq_tails {s : Str} (h : Straight s) (p : Path) : way p s = (join p s).tails.reverse :=
  tails_stations h _

theorem mem_way_straight {s : Str} (h : Straight s) {p q : Path} : q ∈ way p s ↔ q <:+ join p s := by
  rw [way_eq_tails h, List.mem_reverse, List.mem_tails]

theorem suffix_or_station {q : Path} (segs : List Str) (p : Path) (h : q <:+ resolve p segs) :
    q <:+ p ∨ q ∈ stations p segs := by
  induction segs generalizing p with
  | nil => exact Or.inl h
  | cons seg segs ih =>
    have hrest : q <:+ resolve (enter p seg) segs := h
    rw [stations]
    split
    · rename_i hstay
      rw [hstay] at hrest
      exact ih p hrest
    · rcases ih _ hrest with hq | hq
      · by_cases hup : seg = ['.', '.']
        · rw [enter, if_pos hup] at hq
          exact Or.inl (hq.trans (List.tail_suffix p))
        · rcases enter_straight hup p with hstay | ⟨n, hdown⟩
          · rw [hstay] at hq
            exact Or.inl hq
          · rw [hdown] at hq ⊢
            rcases List.suffix_cons_iff.mp hq with rfl | hq
            · exact Or.inr List.mem_cons_self
            · exact Or.inl hq
      · exact Or.inr (List.mem_cons_of_mem _ hq)

/-- The joined path and what is above it lie on the way. -/
theorem mem_way_of_suffix {p q : Path} {s : Str} (h : q <:+ join p s) : q ∈ way p s := by
  rcases suffix_or_station _ _ h with hq | hq
  · exact List.mem_append_left _ (List.mem_reverse.mpr ((List.mem_tails _ _).mpr hq))
  · exact List.mem_append_right _ hq

/-! ## Making the way -/

namespace Fs

/-- Every path on the way is a directory. -/
def Entered (fs : Fs) (p : Path) (s : Str) : Prop := ∀ q ∈ way p s, fs.isDir q = true

instance (fs : Fs) (p : Path) (s : Str) : Decidable (fs.Entered p s) :=
  inferInstanceAs (Decidable (∀ q ∈ way p s, _))

/-- `mkdir`, where an existing directory is as good as a new one. -/
def makeDir : Path → Prog Fs IoKind Unit
  | [] => pure ()
  | n :: p => io fun fs =>
    match fs.node (n :: p) with
    | some .dir => .ok ((), fs)
    | some (.file _) => .error .other
    | none => .ok ((), fs.set (n :: p) .dir)

/-- `fs::create_dir_all` along a way. -/
def makeWay : List Path → Prog Fs IoKind Unit
  | [] => pure ()
  | q :: qs => do
    makeDir q
    makeWay qs

/-- Only missing paths of the list change, and they become directories. -/
def makes (qs : List Path) : Evolution Fs where
  rel fs fs' := ∀ q, fs'.node q = fs.node q ∨ (q ∈ qs ∧ fs.node q = none ∧ fs'.node q = some .dir)
  refl _ _ := Or.inl rfl
  trans h g q := by
    rcases g q with hg | ⟨hq, hg, hg'⟩
    · rw [hg]
      exact h q
    · rcases h q with hh | ⟨-, hh, -⟩
      · exact Or.inr ⟨hq, hh ▸ hg, hg'⟩
      · exact Or.inr ⟨hq, hh, hg'⟩

theorem makes_grows {qs : List Path} {fs fs' : Fs} (h : (makes qs).rel fs fs') :
    growsDirs.rel fs fs' := fun q => (h q).imp_right And.right

/-- The ends of `mkdir`: the path is a directory, or a file is in its place. -/
theorem exec_makeDir (q : Path) (fs : Fs) :
    (∃ fs', (makeDir q).exec fs = (.ok (), fs') ∧ (makes [q]).rel fs fs' ∧ fs'.isDir q = true) ∨
    ((makeDir q).exec fs = (.error .other, fs) ∧ fs.read q ≠ none) := by
  cases q with
  | nil => exact Or.inl ⟨fs, rfl, (makes _).refl fs, rfl⟩
  | cons n p =>
    simp only [makeDir, exec_io]
    cases hnode : fs.node (n :: p) with
    | none =>
      refine Or.inl ⟨_, rfl, fun q => ?_, isDir_cons.mpr (by rw [node_set, if_pos rfl])⟩
      rw [node_set]
      split
      · rename_i hq
        exact Or.inr ⟨List.mem_singleton.mpr hq, hq ▸ hnode, rfl⟩
      · exact Or.inl rfl
    | some m =>
      cases m with
      | dir => exact Or.inl ⟨fs, rfl, (makes _).refl fs, isDir_cons.mpr hnode⟩
      | file b => exact Or.inr ⟨rfl, by simp [read, hnode]⟩

/-- The ends of `create_dir_all`: the way is entered, or it comes to a file. -/
theorem exec_makeWay (qs : List Path) (fs : Fs) :
    (∃ fs', (makeWay qs).exec fs = (.ok (), fs') ∧ (makes qs).rel fs fs' ∧
      ∀ q ∈ qs, fs'.isDir q = true) ∨
    ∃ fs', (makeWay qs).exec fs = (.error .other, fs') ∧ (makes qs).rel fs fs' ∧
      ∃ q ∈ qs, fs.read q ≠ none := by
  have hmono : ∀ {q : Path} {qs : List Path} {fs fs' : Fs}, (makes [q]).rel fs fs' →
      (makes (q :: qs)).rel fs fs' := fun h p =>
    (h p).imp_right fun hp => ⟨by rw [List.mem_singleton.mp hp.1]; exact List.mem_cons_self, hp.2⟩
  have htail : ∀ {q : Path} {qs : List Path} {fs fs' : Fs}, (makes qs).rel fs fs' →
      (makes (q :: qs)).rel fs fs' := fun h p =>
    (h p).imp_right fun hp => ⟨List.mem_cons_of_mem _ hp.1, hp.2⟩
  induction qs generalizing fs with
  | nil => exact Or.inl ⟨fs, rfl, (makes _).refl fs, fun _ h => absurd h List.not_mem_nil⟩
  | cons q qs ih =>
    rcases exec_makeDir q fs with ⟨fs₁, he, hmake, hdir⟩ | ⟨he, hfile⟩
    · have hrest : (makeWay (q :: qs)).exec fs = (makeWay qs).exec fs₁ := Prog.exec_bind_ok he
      rw [hrest]
      rcases ih fs₁ with ⟨fs', hall, hmakes, hdirs⟩ | ⟨fs', hall, hmakes, q', hq', hfile⟩
      · refine Or.inl ⟨fs', hall, (makes _).trans (hmono hmake) (htail hmakes), fun p hp => ?_⟩
        rcases List.mem_cons.mp hp with rfl | hp
        · exact growsDirs_isDir (makes_grows hmakes) hdir
        · exact hdirs p hp
      · refine Or.inr ⟨fs', hall, (makes _).trans (hmono hmake) (htail hmakes), q',
          List.mem_cons_of_mem _ hq', ?_⟩
        rwa [growsDirs_read (makes_grows hmake)] at hfile
    · exact Or.inr ⟨fs, Prog.exec_bind_error he, (makes _).refl fs, q, List.mem_cons_self, hfile⟩

theorem exec_makeWay_append (qs qs' : List Path) (fs : Fs) :
    (makeWay (qs ++ qs')).exec fs = (do makeWay qs; makeWay qs' : Prog Fs IoKind Unit).exec fs := by
  induction qs generalizing fs with
  | nil => rfl
  | cons q qs ih =>
    rcases exec_makeDir q fs with ⟨fs₁, he, -⟩ | ⟨he, -⟩
    · have hleft : (makeWay (q :: qs ++ qs')).exec fs = (makeWay (qs ++ qs')).exec fs₁ :=
        Prog.exec_bind_ok he
      rw [hleft, ih]
      cases hqs : (makeWay qs).exec fs₁ with
      | mk r fs₂ =>
        have hhead : (makeWay (q :: qs)).exec fs = (r, fs₂) := (Prog.exec_bind_ok he).trans hqs
        cases r with
        | ok u => rw [Prog.exec_bind_ok hqs, Prog.exec_bind_ok hhead]
        | error e => rw [Prog.exec_bind_error hqs, Prog.exec_bind_error hhead]
    · have hhead : (makeWay (q :: qs)).exec fs = (.error .other, fs) := Prog.exec_bind_error he
      rw [Prog.exec_bind_error hhead]
      exact Prog.exec_bind_error he

theorem exec_makeWay_tails (p : Path) (fs : Fs) :
    (makeWay p.tails.reverse).exec fs = (createDirAll p).exec fs := by
  induction p generalizing fs with
  | nil => rfl
  | cons n p ih =>
    rw [List.tails_cons, List.reverse_cons, exec_makeWay_append]
    have hlast : ∀ fs, (makeWay [n :: p]).exec fs = (makeDir (n :: p)).exec fs := by
      intro fs
      rcases exec_makeDir (n :: p) fs with ⟨fs₁, he, -⟩ | ⟨he, -⟩
      · rw [he]
        exact Prog.exec_bind_ok he
      · rw [he]
        exact Prog.exec_bind_error he
    cases hp : (createDirAll p).exec fs with
    | mk r fs₁ =>
      have hway := (ih fs).trans hp
      have hall : (createDirAll (n :: p)) = (do createDirAll p; makeDir (n :: p)) := rfl
      rw [hall]
      cases r with
      | ok u => rw [Prog.exec_bind_ok hway, Prog.exec_bind_ok hp, hlast]
      | error e => rw [Prog.exec_bind_error hway, Prog.exec_bind_error hp]

/-- For a text without `..`, `create_dir_all` on the unresolved path is `createDirAll`. -/
theorem exec_makeWay_way {s : Str} (h : Straight s) (p : Path) (fs : Fs) :
    (makeWay (way p s)).exec fs = (createDirAll (join p s)).exec fs := by
  rw [way_eq_tails h, exec_makeWay_tails]

end Fs

end Quill.Files
