import Quill.Storage.Digest

/-!
# JSON values and the references of a manifest

`Json` is `serde_json::Value`. `configDigest` and `arrayDigests` are the accessor chains
that `check_manifest_blobs_present` and `GarbageCollector::traverse` both write out:
`v.get("config").get("digest")` and the `digest` of every element of an array field.
`requiredBlobs` is what a push has to find on disk, `references` what the collector
follows (`mem_references`); every required text that parses is followed (`mem_references_of_required`).
-/

namespace Quill

/-- A JSON value, the fields of an object in their order. -/
inductive Json where
  | null
  | bool (b : Bool)
  | num (text : Str)
  | str (s : Str)
  | arr (items : List Json)
  | obj (fields : List (Str × Json))

namespace Json

/-- `Value::get` with a string key. -/
def get (key : Str) : Json → Option Json
  | obj fields => (fields.find? fun f => f.1 = key).map Prod.snd
  | _ => none

def asStr : Json → Option Str
  | str s => some s
  | _ => none

def asArray : Json → Option (List Json)
  | arr items => some items
  | _ => none

end Json

namespace Manifest

/-- The `digest` of a descriptor. -/
def digestOf (v : Json) : Option Str := (v.get "digest".toList).bind Json.asStr

/-- The digest of `config`. -/
def configDigest (v : Json) : Option Str := (v.get "config".toList).bind digestOf

/-- The digests of the descriptors in an array. -/
def arrayDigests (key : Str) (v : Json) : List Str :=
  match (v.get key).bind Json.asArray with
  | some items => items.filterMap digestOf
  | none => []

/-- The blobs a pushed manifest must find on disk, in the order they are checked. -/
def requiredBlobs (v : Json) : List Str :=
  (configDigest v).toList ++ arrayDigests "layers".toList v

/-- The digests the collector pushes on its stack, in the order they are pushed. -/
def references (v : Json) : List Digest :=
  (requiredBlobs v ++ arrayDigests "manifests".toList v).filterMap fun s =>
    (Digest.parse s).toOption

/-- `sniff_manifest_content_type` after parsing. -/
def mediaType (v : Option Json) : Str :=
  match (v.bind (Json.get "mediaType".toList)).bind Json.asStr with
  | some mt => mt
  | none => "application/vnd.oci.image.manifest.v1+json".toList

theorem mem_references_of_required {v : Json} {s : Str} {d : Digest}
    (hs : s ∈ requiredBlobs v) (hd : Digest.parse s = .ok d) : d ∈ references v := by
  unfold references
  rw [List.mem_filterMap]
  exact ⟨s, List.mem_append_left _ hs, by rw [hd]; rfl⟩

theorem digestOf_eq_some {v : Json} {text : Str} :
    digestOf v = some text ↔ v.get "digest".toList = some (.str text) := by
  unfold digestOf
  cases v.get "digest".toList with
  | none => simp
  | some x => cases x <;> simp [Json.asStr]

theorem mem_arrayDigests {v : Json} {key text : Str} : text ∈ arrayDigests key v ↔
    ∃ items item, v.get key = some (.arr items) ∧ item ∈ items ∧
      item.get "digest".toList = some (.str text) := by
  unfold arrayDigests
  cases v.get key with
  | none => simp
  | some x => cases x <;> simp [Json.asArray, digestOf_eq_some]

theorem configDigest_eq_some {v : Json} {text : Str} : configDigest v = some text ↔
    ∃ config, v.get "config".toList = some config ∧ config.get "digest".toList = some (.str text) := by
  simp only [configDigest, Option.bind_eq_some_iff, digestOf_eq_some]

/-- A manifest refers to the digests of its config, its layers and its manifests that can be parsed. -/
theorem mem_references {v : Json} {d : Digest} : d ∈ references v ↔ ∃ text, Digest.parse text = .ok d ∧
    ((∃ config, v.get "config".toList = some config ∧ config.get "digest".toList = some (.str text)) ∨
      ∃ key ∈ ["layers".toList, "manifests".toList], ∃ items item, v.get key = some (.arr items) ∧
        item ∈ items ∧ item.get "digest".toList = some (.str text)) := by
  have hparse : ∀ text, (Digest.parse text).toOption = some d ↔ Digest.parse text = .ok d := by
    intro text
    cases Digest.parse text <;> simp [Except.toOption]
  simp only [references, requiredBlobs, List.mem_filterMap, List.mem_append, Option.mem_toList,
    configDigest_eq_some, mem_arrayDigests, hparse, List.mem_cons, List.not_mem_nil, or_false,
    exists_eq_or_imp, exists_eq_left, or_assoc]
  exact exists_congr fun text => and_comm

end Manifest

end Quill
