import Quill.Storage.GcSpec
import Quill.Storage.Codec

/-!
# Marking ends

The loop of `traverse` has no bound of its own: a blob can put any number of digests on the
stack, and these need not be the digests of any blobs. A digest is only expanded into others when
there is a file for it, so the references of the unvisited files and the stack together get smaller
with every turn (`traverse_turns`).

The visited set is shared between the roots and the repositories of a run. `markPhase` is
the loop from one root of `phaseRoots` after another (`marks_markPhase`), and expands nothing twice.
References are compared as digests, and the texts of one digest differ only in the case of their
letters (`parse_same_case`).
-/

namespace Quill.Gc

open Text Files Cas Marking LocalTags

/-- The roots a mark phase starts from, in order, up to the first sidecar that does not load. -/
def phaseRoots (S : Setup) (fs : Fs) (extra : List Digest) : List Str → List (Str × Digest)
  | [] => []
  | repo :: repos =>
    match loadRepo S fs repo ∅ with
    | .error _ => []
    | .ok map => (rootsOf map repo extra).map (fun d => (repo, d)) ++ phaseRoots S fs extra repos

/-- Two texts that differ only in the case of their letters name the same digest. -/
theorem parse_same_case {s s' : Str} {d d' : Digest} (h : Digest.parse s = .ok d)
    (h' : Digest.parse s' = .ok d') (hcase : s.map Char.toLower = s'.map Char.toLower) : d = d' := by
  apply Digest.toStr_injective
  rw [Digest.toStr_of_parse h, Digest.toStr_of_parse h', hcase]

section Turns

variable (S : Setup) (fs : Fs) (faults : Faults)

/-- The loop of a traversal ends, after at most so many turns, and `traverse` is what it has
visited then. -/
theorem traverse_turns (repo : Str) (root : Digest) (reachable : Finset (Str × Digest)) :
    (∀ n t, Loop.Turns (seen S fs faults) n ⟨[(repo, root)], reachable, []⟩ t →
      n ≤ 1 + budget (seen S fs faults) (blobNodes S fs repo) ∅) ∧
    ∃ n t, Loop.Turns (seen S fs faults) n ⟨[(repo, root)], reachable, []⟩ t ∧ t.stack = [] ∧
      t.visited = traverse S fs faults repo root reachable := by
  have hstack : ∀ x ∈ [(repo, root)], x ∈ { x : Str × Digest | x.1 = repo } := by
    intro x hx
    rw [List.mem_singleton.mp hx]
    rfl
  have hbound : ∀ n t, Loop.Turns (seen S fs faults) n ⟨[(repo, root)], reachable, []⟩ t →
      n ≤ 1 + budget (seen S fs faults) (blobNodes S fs repo) ∅ := by
    intro n t h
    have hweight := h.le_weight (bounded_seen S fs faults repo) hstack
    have hempty := budget_mono (seen S fs faults) (blobNodes S fs repo) (Finset.empty_subset reachable)
    simp only [Loop.weight, List.length_singleton] at hweight
    omega
  refine ⟨hbound, ?_⟩
  obtain ⟨n, t, hturns, hend⟩ := Loop.exists_end (bounded_seen S fs faults repo)
    ⟨[(repo, root)], reachable, []⟩ hstack
  exact ⟨n, t, hturns, hend, (hturns.mark_eq hend (hbound n t hturns)).symm⟩

/-- The loop over the roots of one repository. -/
theorem marks_roots (repo : Str) (roots : List Digest) (reachable : Finset (Str × Digest)) :
    ∃ expanded, Marks (seen S fs faults) (roots.map fun d => (repo, d)) reachable expanded
      (roots.foldl (fun acc r => traverse S fs faults repo r acc) reachable) := by
  induction roots generalizing reachable with
  | nil => exact ⟨[], .nil reachable⟩
  | cons root roots ih =>
    obtain ⟨-, n, t, hturns, hend, hvisited⟩ := traverse_turns S fs faults repo root reachable
    obtain ⟨expanded, hrest⟩ := ih (traverse S fs faults repo root reachable)
    refine ⟨t.expanded ++ expanded, .cons hturns hend ?_⟩
    rw [List.foldl_cons, hvisited]
    exact hrest

/-- A mark phase is the loop from one root after another. -/
theorem marks_markPhase (extra : List Digest) (repos : List Str) (reachable : Finset (Str × Digest))
    (k : Nat) : ∃ expanded out,
      Marks (seen S fs faults) (phaseRoots S fs extra repos) reachable expanded out ∧
      ∀ r, markPhase S fs faults extra repos reachable k = .ok r → r.1 = out := by
  induction repos generalizing reachable k with
  | nil =>
    refine ⟨[], reachable, .nil reachable, fun r h => ?_⟩
    cases h
    rfl
  | cons repo repos ih =>
    unfold phaseRoots markPhase
    cases loadRepo S fs repo ∅ with
    | error e => exact ⟨[], reachable, .nil reachable, by simp⟩
    | ok map =>
      obtain ⟨first, hfirst⟩ := marks_roots S fs faults repo
        (rootsOf map repo extra) reachable
      obtain ⟨rest, out, hrest, hout⟩ := ih
        ((rootsOf map repo extra).foldl (fun acc r => traverse S fs faults repo r acc) reachable)
        (k + (rootsOf map repo extra).length)
      exact ⟨first ++ rest, out, hfirst.append hrest, hout⟩

end Turns

/-! ## What a finished marking has done -/

/-- From the visited set `before` to `after`: every node was expanded once, and the references of
every present blob that is new are visited. -/
structure Finished (S : Setup) (fs : Fs) (faults : Faults) (before : Finset (Str × Digest))
    (expanded : List (Str × Digest)) (after : Finset (Str × Digest)) : Prop where
  once : expanded.Nodup
  fresh : ∀ x ∈ expanded, x ∉ before
  visited : ∀ x, x ∈ after ↔ x ∈ before ∨ x ∈ expanded
  closed : ∀ x ∈ after, x ∉ before → faults.read x.1 x.2 = false →
    ∀ d ∈ refs S fs x.1 x.2, (x.1, d) ∈ after

theorem Finished.of_marks {S : Setup} {fs : Fs} {faults : Faults}
    {roots expanded : List (Str × Digest)} {before after : Finset (Str × Digest)}
    (h : Marks (seen S fs faults) roots before expanded after) :
    Finished S fs faults before expanded after where
  once := h.nodup.1
  fresh := h.nodup.2
  visited := h.mem_iff
  closed x hx hnew hread d hd := by
    apply h.closed hx hnew
    refine mem_seen.mpr ⟨rfl, ?_⟩
    rw [seenRefs, hread]
    exact hd

/-- Marking ends on every store. Each loop over the stack has at most so many turns and reaches
its end, each digest of a repository is expanded at most once in a whole mark phase, and what is new
in the visited set is closed under references. -/
theorem marking_terminates (S : Setup) (fs : Fs) (faults : Faults) (reachable : Finset (Str × Digest)) :
    (∀ repo root,
      (∀ n t, Loop.Turns (seen S fs faults) n ⟨[(repo, root)], reachable, []⟩ t →
        n ≤ 1 + budget (seen S fs faults) (blobNodes S fs repo) ∅) ∧
      ∃ n t, Loop.Turns (seen S fs faults) n ⟨[(repo, root)], reachable, []⟩ t ∧ t.stack = [] ∧
        t.visited = traverse S fs faults repo root reachable ∧
        Finished S fs faults reachable t.expanded t.visited) ∧
    (∀ extra repos k, ∃ expanded out,
      Marks (seen S fs faults) (phaseRoots S fs extra repos) reachable expanded out ∧
      (∀ r, markPhase S fs faults extra repos reachable k = .ok r → r.1 = out) ∧
      Finished S fs faults reachable expanded out) ∧
    ∀ s s' d d', Digest.parse s = .ok d → Digest.parse s' = .ok d' →
      s.map Char.toLower = s'.map Char.toLower → d = d' := by
  refine ⟨fun repo root => ?_, fun extra repos k => ?_, fun s s' d d' h h' => parse_same_case h h'⟩
  · obtain ⟨hbound, n, t, hturns, hend, hvisited⟩ := traverse_turns S fs faults repo root reachable
    have hone : Marks (seen S fs faults) [(repo, root)] reachable (t.expanded ++ []) t.visited :=
      .cons hturns hend (.nil t.visited)
    rw [List.append_nil] at hone
    exact ⟨hbound, n, t, hturns, hend, hvisited, .of_marks hone⟩
  · obtain ⟨expanded, out, hmarks, hout⟩ := marks_markPhase S fs faults extra repos reachable k
    exact ⟨expanded, out, hmarks, hout, .of_marks hmarks⟩

/-! Two manifests that refer to each other. The first also refers to itself, in upper-case letters,
and the second to a blob that is absent. -/

def digestOfLetter (c : Char) (h : isLowerHex c = true) : Digest :=
  ⟨⟨List.replicate 64 c, by simp, fun _ hd => (List.eq_of_mem_replicate hd) ▸ h⟩⟩

def firstDigest : Digest := digestOfLetter 'a' (by decide)

def secondDigest : Digest := digestOfLetter 'b' (by decide)

def absentDigest : Digest := digestOfLetter 'c' (by decide)

def indexOf (references : List Str) : Json :=
  .obj [("manifests".toList, .arr (references.map fun s => .obj [("digest".toList, .str s)]))]

def cycleSetup : Setup := Codec.server []
  [("first".toList, indexOf ["sha256:".toList ++ List.replicate 64 'A', secondDigest.toStr]),
    ("second".toList, indexOf [firstDigest.toStr, absentDigest.toStr])]

def cycleTree : Fs :=
  ((emptyRoot (blobsDir cycleSetup.root "app".toList)).set
    (blobPath cycleSetup.root "app".toList firstDigest) (.file (Codec.utf8 "first".toList))).set
    (blobPath cycleSetup.root "app".toList secondDigest) (.file (Codec.utf8 "second".toList))

theorem cycle_is_marked_in_five_turns : ∃ n t,
    Loop.Turns (seen cycleSetup cycleTree .none) n ⟨[("app".toList, firstDigest)], ∅, []⟩ t ∧
      n ≤ 5 ∧ t.stack = [] ∧ t.expanded.Nodup ∧ t.visited = {("app".toList, firstDigest),
        ("app".toList, secondDigest), ("app".toList, absentDigest)} := by
  obtain ⟨hbound, n, t, hturns, hend, hvisited, hfinished⟩ :=
    (marking_terminates cycleSetup cycleTree .none ∅).1 "app".toList firstDigest
  have hfive : 1 + budget (seen cycleSetup cycleTree .none)
      (blobNodes cycleSetup cycleTree "app".toList) ∅ = 5 := by decide +kernel
  refine ⟨n, t, hturns, hfive ▸ hbound n t hturns, hend, hfinished.once, hvisited.trans ?_⟩
  decide +kernel

end Quill.Gc
