import Mathlib.Logic.Function.Basic
import Mathlib.Data.Option.Basic
import Mathlib.Tactic.Simps.Basic

/-!
# What a content-addressed repository holds

`Holdings D T I B` is the contents of a repository without anything of how it is stored: contents
under their digests, names that point to digests, names that another repository was last seen to
have for its digests, and drafts that grow until they become a content.

The operations change one component each. `rest` is what outlasts the process that works on the
repository.
-/

namespace Quill

variable {D T I B : Type*}

/-- What a repository holds: contents by digest, names that were given, names that were seen
elsewhere, and uploads in progress. -/
@[ext] structure Holdings (D T I B : Type*) where
  blobs : D → Option B
  tags : T → Option D
  cached : T → Option D
  uploads : I → Option B

namespace Holdings

/-- A repository that holds nothing. -/
def empty : Holdings D T I B := ⟨fun _ => none, fun _ => none, fun _ => none, fun _ => none⟩

/-- The content is stored under the digest. -/
@[simps] def put [DecidableEq D] (a : Holdings D T I B) (d : D) (b : B) : Holdings D T I B :=
  { a with blobs := Function.update a.blobs d (some b) }

/-- The content of the digest is gone. -/
@[simps] def drop [DecidableEq D] (a : Holdings D T I B) (d : D) : Holdings D T I B :=
  { a with blobs := Function.update a.blobs d none }

/-- The name is given to the digest. -/
@[simps] def tag [DecidableEq T] (a : Holdings D T I B) (t : T) (d : D) : Holdings D T I B :=
  { a with tags := Function.update a.tags t (some d) }

/-- The name is taken away. -/
@[simps] def untag [DecidableEq T] (a : Holdings D T I B) (t : T) : Holdings D T I B :=
  { a with tags := Function.update a.tags t none }

/-- Every name of the digest is taken away. -/
@[simps] def untagAll [DecidableEq D] (a : Holdings D T I B) (d : D) : Holdings D T I B :=
  { a with tags := fun t => (a.tags t).filter (· ≠ d) }

/-- The name is recorded as seen elsewhere. -/
@[simps] def remember [DecidableEq T] (a : Holdings D T I B) (t : T) (d : D) : Holdings D T I B :=
  { a with cached := Function.update a.cached t (some d) }

/-- The upload has received the bytes. -/
@[simps] def draft [DecidableEq I] (a : Holdings D T I B) (i : I) (b : B) : Holdings D T I B :=
  { a with uploads := Function.update a.uploads i (some b) }

/-- The upload is over. -/
@[simps] def endDraft [DecidableEq I] (a : Holdings D T I B) (i : I) : Holdings D T I B :=
  { a with uploads := Function.update a.uploads i none }

/-- The contents and their names alone. -/
@[simps] def rest (a : Holdings D T I B) : Holdings D T I B :=
  { a with cached := fun _ => none, uploads := fun _ => none }

theorem drop_of_none [DecidableEq D] {a : Holdings D T I B} {d : D} (h : a.blobs d = none) :
    a.drop d = a := by
  refine Holdings.ext ?_ rfl rfl rfl
  exact (congrArg (Function.update a.blobs d) h.symm).trans (Function.update_eq_self d a.blobs)

theorem draft_self [DecidableEq I] {a : Holdings D T I B} {i : I} {b : B} (h : a.uploads i = some b) :
    a.draft i b = a := by
  refine Holdings.ext rfl rfl rfl ?_
  exact (congrArg (Function.update a.uploads i) h.symm).trans (Function.update_eq_self i a.uploads)

theorem endDraft_draft [DecidableEq I] (a : Holdings D T I B) (i : I) (b : B) :
    (a.draft i b).endDraft i = a.endDraft i := by
  refine Holdings.ext rfl rfl rfl ?_
  exact Function.update_idem _ _ _

end Holdings

end Quill
