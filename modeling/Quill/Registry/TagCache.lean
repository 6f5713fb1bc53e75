import Quill.Storage.World

/-!
# The cache of upstream tags

`UpstreamTagCache` of `quill-registry`: which digest an upstream last had for a tag and
when it was asked. An entry is fresh until it is older than the time to live. Every
insertion rewrites the sidecar `_upstream_tags.json` of the repository and ignores
errors while doing so.
-/

namespace Quill.TagCache

open Files Cas World

variable {S : Setup} {ε : Type}

/-- What a lookup finds: an entry within its lifetime, an older one, or none. -/
inductive TagCacheState where
  | fresh (d : Digest)
  | stale (d : Digest)
  | miss

/-- `UpstreamTagCache::lookup`. -/
def lookup (repo tag : Str) : Prog (World S) ε TagCacheState := do
  match (← get).upstreamTags.lookup (repo, tag) with
  | none => return .miss
  | some (d, fetchedAt) =>
    let now ← instantNow
    return if now - fetchedAt < S.tagTtl then .fresh d else .stale d

/-- The tags of a repository with the texts of their digests. -/
def snapshot (w : World S) (repo : Str) : AList fun _ : Str => Str :=
  (w.upstreamTags.entries.filterMap fun e =>
    if e.1.1 = repo then some (⟨e.1.2, e.2.1.toStr⟩ : Sigma fun _ : Str => Str) else none).toAList

/-- `UpstreamTagCache::persist_repo`. -/
def persistRepo (repo : Str) : Prog (World S) ε Unit := do
  let _ ← (onFs (Fs.createDirAll (repoDir S.root repo))).attempt
  let body := S.serde.upstreamTagsToVec (snapshot (← get) repo)
  let _ ← (onFs (Fs.writeAtomic (upstreamTagsTmpName :: repoDir S.root repo)
    (upstreamTagsPath S.root repo) body)).attempt
  return ()

/-- `UpstreamTagCache::insert`. -/
def insert (repo tag : Str) (d : Digest) : Prog (World S) ε Unit := do
  let now ← instantNow
  modify fun w => { w with upstreamTags := w.upstreamTags.insert (repo, tag) (d, now) }
  persistRepo repo

/-- `UpstreamTagCache::touch`. -/
def touch (repo tag : Str) : Prog (World S) ε Unit := do
  match (← get).upstreamTags.lookup (repo, tag) with
  | none => return ()
  | some (d, _) =>
    let now ← instantNow
    modify fun w => { w with upstreamTags := w.upstreamTags.insert (repo, tag) (d, now) }

/-- `UpstreamTagCache::list_for_repo`. -/
def listForRepo (w : World S) (repo : Str) : List Str :=
  w.upstreamTags.entries.filterMap fun e => if e.1.1 = repo then some e.1.2 else none

end Quill.TagCache
