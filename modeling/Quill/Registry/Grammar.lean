import Quill.Registry.Routes
import Quill.Storage.Codec

/-!
# The grammar of the paths

`split` tries six patterns in turn, three of them at their last occurrence. Each pattern ends in
a component without a slash, so a path is read from its end: the last component and
what stands before the last slash decide which pattern matches, and at most one does
(`split_grammar`). Repository names are arbitrary, also with the words of the patterns in them.

Every `Location` of a response is read back to the repository of the request and to
the session, the blob or the manifest that the response is about (`locations_parse_back`).
-/

namespace Quill.Registry

open Text Files Cas World LocalStorage Uploads LocalTags TagCache PullThrough

/-! ## One pattern -/

theorem stripSuffix_cut {pat p word last : Str} (hword : '/' ∉ word) (hlast : '/' ∉ last) :
    stripSuffix (pat ++ '/' :: word) (p ++ '/' :: last) =
      if last = word then stripSuffix pat p else none := by
  ext repo
  have hcut : p ++ '/' :: last = repo ++ (pat ++ '/' :: word) ↔ p = repo ++ pat ∧ last = word := by
    rw [← List.append_assoc]
    constructor
    · intro h
      exact cut_unique h hlast hword
    · intro ⟨hp, hw⟩
      rw [hp, hw]
  by_cases h : last = word
  · rw [if_pos h, stripSuffix_eq_some, stripSuffix_eq_some, hcut]
    simp [h]
  · rw [if_neg h, stripSuffix_eq_some, hcut]
    simp [h]

theorem lastAfter_eq_some {pat rest repo last : Str} :
    lastAfter (pat ++ ['/']) rest = some (repo, last) ↔
      rest = repo ++ (pat ++ ['/']) ++ last ∧ last ≠ [] ∧ '/' ∉ last := by
  unfold lastAfter
  constructor
  · intro h
    cases hsplit : rsplitOnce (pat ++ ['/']) rest with
    | none => simp [hsplit] at h
    | some q =>
      obtain ⟨repo', last'⟩ := q
      simp only [hsplit] at h
      split at h
      · rename_i hlast
        cases h
        exact ⟨eq_of_rsplitOnce hsplit, hlast⟩
      · cases h
  · intro ⟨hrest, hne, hslash⟩
    rw [hrest, rsplitOnce_of_cut hslash]
    simp [hne, hslash]

theorem lastAfter_cut {pat p last : Str} (hlast : '/' ∉ last) :
    lastAfter (pat ++ ['/']) (p ++ '/' :: last) =
      if last = [] then none else (stripSuffix pat p).map fun repo => (repo, last) := by
  ext ⟨repo, x⟩
  have hcut : '/' ∉ x → (p ++ '/' :: last = repo ++ (pat ++ ['/']) ++ x ↔
      p = repo ++ pat ∧ last = x) := by
    intro hx
    have hassoc : repo ++ (pat ++ ['/']) ++ x = (repo ++ pat) ++ '/' :: x := by simp
    rw [hassoc]
    constructor
    · intro h
      exact cut_unique h hlast hx
    · intro ⟨hp, hw⟩
      rw [hp, hw]
  rw [lastAfter_eq_some]
  by_cases h : last = []
  · rw [if_pos h]
    constructor
    · intro ⟨hrest, hne, hx⟩
      obtain ⟨-, heq⟩ := (hcut hx).mp hrest
      exact absurd (heq.symm.trans h) hne
    · intro hnone
      cases hnone
  · rw [if_neg h, Option.map_eq_some_iff]
    constructor
    · intro ⟨hrest, hne, hx⟩
      obtain ⟨hp, heq⟩ := (hcut hx).mp hrest
      exact ⟨repo, stripSuffix_eq_some.mpr hp, by rw [heq]⟩
    · intro ⟨repo', hrepo, heq⟩
      obtain ⟨rfl, rfl⟩ := Prod.mk.inj heq
      exact ⟨(hcut hlast).mpr ⟨stripSuffix_eq_some.mp hrepo, rfl⟩, h, hlast⟩

/-! ## All patterns -/

/-- What the patterns ask of the text before the last slash. -/
inductive Before where
  | uploads
  | blobs
  | manifests
  | tags
  deriving DecidableEq

/-- The text that stands before the last component of a route. -/
def Before.text : Before → Str
  | .uploads => "/blobs/uploads".toList
  | .blobs => "/blobs".toList
  | .manifests => "/manifests".toList
  | .tags => "/tags".toList

theorem Before.end_append (b : Before) (repo : Str) :
    (repo ++ b.text).reverse.take 3 = b.text.reverse.take 3 := by
  have hlength : 3 ≤ b.text.reverse.length := by
    cases b <;> decide
  rw [List.reverse_append, List.take_append_of_le_length hlength]

/-- No two of them end one text. -/
theorem Before.unique {b b' : Before} {repo repo' : Str} (h : repo ++ b.text = repo' ++ b'.text) :
    b = b' ∧ repo = repo' := by
  have hends : ∀ b b' : Before, b.text.reverse.take 3 = b'.text.reverse.take 3 → b = b' := by
    intro b b'
    cases b <;> cases b' <;> decide
  have hb : b = b' := by
    apply hends
    rw [← b.end_append repo, ← b'.end_append repo', h]
  subst hb
  exact ⟨rfl, List.append_cancel_right h⟩

theorem Before.stripSuffix_append (b b' : Before) (repo : Str) :
    stripSuffix b.text (repo ++ b'.text) = if b = b' then some repo else none := by
  ext repo'
  rw [stripSuffix_eq_some]
  by_cases h : b = b'
  · rw [if_pos h, h, Option.some.injEq]
    exact ⟨fun heq => List.append_cancel_right heq, fun heq => by rw [heq]⟩
  · rw [if_neg h]
    constructor
    · intro heq
      exact absurd (Before.unique heq).1.symm h
    · intro hnone
      cases hnone

/-- What a path says, from the text before its last slash and the component after it. -/
def read (repo : Str) (last : Str) : Before → Str × Action
  | .uploads => if last = [] then (repo, .uploadInit) else (repo, .uploadSession last)
  | .blobs =>
    if last = [] then ([], .unknown)
    else if last = "uploads".toList then (repo, .uploadInit)
    else (repo, .blob last)
  | .manifests => if last = [] then ([], .unknown) else (repo, .manifest last)
  | .tags => if last = "list".toList then (repo, .tagsList) else ([], .unknown)

theorem split_patterns (rest : Str) :
    split rest =
      match stripSuffix (Before.uploads.text ++ '/' :: []) rest with
      | some repo => (repo, .uploadInit)
      | none =>
        match stripSuffix (Before.blobs.text ++ '/' :: "uploads".toList) rest with
        | some repo => (repo, .uploadInit)
        | none =>
          match lastAfter (Before.uploads.text ++ ['/']) rest with
          | some (repo, session) => (repo, .uploadSession session)
          | none =>
            match lastAfter (Before.blobs.text ++ ['/']) rest with
            | some (repo, digest) => (repo, .blob digest)
            | none =>
              match lastAfter (Before.manifests.text ++ ['/']) rest with
              | some (repo, reference) => (repo, .manifest reference)
              | none =>
                match stripSuffix (Before.tags.text ++ '/' :: "list".toList) rest with
                | some repo => (repo, .tagsList)
                | none => ([], .unknown) := rfl

/-- A path with one of the known texts before its last slash. -/
theorem split_known {repo last : Str} (b : Before) (hlast : '/' ∉ last) :
    split (repo ++ b.text ++ '/' :: last) = read repo last b := by
  have huploads : '/' ∉ "uploads".toList := by decide
  have hlist : '/' ∉ "list".toList := by decide
  rw [split_patterns, stripSuffix_cut List.not_mem_nil hlast, stripSuffix_cut huploads hlast,
    lastAfter_cut hlast, lastAfter_cut hlast, lastAfter_cut hlast, stripSuffix_cut hlist hlast]
  simp only [Before.stripSuffix_append]
  by_cases hnil : last = []
  · subst hnil
    cases b <;> simp [read]
  · by_cases hup : last = "uploads".toList
    · subst hup
      cases b <;> simp [read]
    · by_cases hls : last = "list".toList
      · subst hls
        cases b <;> simp [read]
      · cases b <;> simp only [hnil, hup, hls, read, if_false, reduceCtorEq, Option.map_some, Option.map_none, if_true]

/-! ## The grammar -/

/-- The spelling of an action on a repository. -/
def Spells (rest repo : Str) : Action → Prop
  | .uploadInit =>
    rest = repo ++ "/blobs/uploads".toList ∨ rest = repo ++ "/blobs/uploads/".toList
  | .uploadSession s => rest = repo ++ "/blobs/uploads/".toList ++ s ∧ s ≠ [] ∧ '/' ∉ s
  | .blob d =>
    rest = repo ++ "/blobs/".toList ++ d ∧ d ≠ [] ∧ '/' ∉ d ∧ d ≠ "uploads".toList
  | .manifest x => rest = repo ++ "/manifests/".toList ++ x ∧ x ≠ [] ∧ '/' ∉ x
  | .tagsList => rest = repo ++ "/tags/list".toList
  | .unknown => False

theorem split_append {repo last pat : Str} {b : Before} (hpat : pat = b.text ++ ['/'])
    (hlast : '/' ∉ last) : split (repo ++ pat ++ last) = read repo last b := by
  have hassoc : repo ++ (b.text ++ ['/']) ++ last = repo ++ b.text ++ '/' :: last := by simp
  rw [hpat, hassoc, split_known b hlast]

theorem uploads_pattern : "/blobs/uploads/".toList = Before.uploads.text ++ ['/'] := by
  decide

theorem blobs_pattern : "/blobs/".toList = Before.blobs.text ++ ['/'] := by decide

theorem manifests_pattern : "/manifests/".toList = Before.manifests.text ++ ['/'] := by
  decide

theorem split_of_spells {rest repo : Str} {action : Action} (h : Spells rest repo action) :
    split rest = (repo, action) := by
  cases action with
  | uploadInit =>
    unfold Spells at h
    rcases h with h | h
    · have hpat : "/blobs/uploads".toList = "/blobs/".toList ++ "uploads".toList := by
        decide
      have hne : "uploads".toList ≠ [] := by decide
      rw [h, hpat, ← List.append_assoc, split_append blobs_pattern (by decide), read,
        if_neg hne, if_pos rfl]
    · rw [h, ← List.append_nil (repo ++ _), split_append uploads_pattern List.not_mem_nil, read,
        if_pos rfl]
  | uploadSession s =>
    unfold Spells at h
    obtain ⟨h, hne, hslash⟩ := h
    rw [h, split_append uploads_pattern hslash, read, if_neg hne]
  | blob d =>
    unfold Spells at h
    obtain ⟨h, hne, hslash, huploads⟩ := h
    rw [h, split_append blobs_pattern hslash, read, if_neg hne, if_neg huploads]
  | manifest x =>
    unfold Spells at h
    obtain ⟨h, hne, hslash⟩ := h
    rw [h, split_append manifests_pattern hslash, read, if_neg hne]
  | tagsList =>
    unfold Spells at h
    have hpat : "/tags/list".toList = Before.tags.text ++ ['/'] ++ "list".toList := by
      decide
    rw [h, hpat, ← List.append_assoc, split_append rfl (by decide), read, if_pos rfl]
  | unknown => exact h.elim

/-- What is read from a known text before the last slash is spelt so. -/
theorem spells_of_read {repo repo' last : Str} {b : Before} {action : Action} (hlast : '/' ∉ last)
    (h : read repo last b = (repo', action)) :
    Spells (repo ++ b.text ++ '/' :: last) repo' action ∨ action = .unknown ∧ repo' = [] := by
  have hassoc : repo ++ b.text ++ '/' :: last = repo ++ (b.text ++ ['/']) ++ last := by simp
  rw [hassoc]
  cases b with
  | uploads =>
    rw [← uploads_pattern]
    rw [read] at h
    split at h
    · rename_i hnil
      cases h
      rw [hnil, List.append_nil]
      exact Or.inl (Or.inr rfl)
    · rename_i hne
      cases h
      exact Or.inl ⟨rfl, hne, hlast⟩
  | blobs =>
    rw [← blobs_pattern]
    rw [read] at h
    split at h
    · cases h
      exact Or.inr ⟨rfl, rfl⟩
    · rename_i hne
      split at h
      · rename_i huploads
        cases h
        have hpat : "/blobs/uploads".toList = "/blobs/".toList ++ "uploads".toList := by
          decide
        rw [huploads, List.append_assoc, ← hpat]
        exact Or.inl (Or.inl rfl)
      · rename_i huploads
        cases h
        exact Or.inl ⟨rfl, hne, hlast, huploads⟩
  | manifests =>
    rw [← manifests_pattern]
    rw [read] at h
    split at h
    · cases h
      exact Or.inr ⟨rfl, rfl⟩
    · rename_i hne
      cases h
      exact Or.inl ⟨rfl, hne, hlast⟩
  | tags =>
    rw [read] at h
    split at h
    · rename_i hlist
      cases h
      have hpat : "/tags/list".toList = Before.tags.text ++ ['/'] ++ "list".toList := by
        decide
      rw [hlist, List.append_assoc, ← hpat]
      exact Or.inl rfl
    · cases h
      exact Or.inr ⟨rfl, rfl⟩

/-- A path without a slash, or with none of the known texts before its last slash. -/
theorem split_other {rest : Str}
    (h : ∀ (repo : Str) (b : Before) (last : Str), '/' ∉ last →
      rest ≠ repo ++ b.text ++ '/' :: last) : split rest = ([], .unknown) := by
  have hstrip : ∀ (b : Before) (word : Str), '/' ∉ word →
      stripSuffix (b.text ++ '/' :: word) rest = none := by
    intro b word hword
    cases hs : stripSuffix (b.text ++ '/' :: word) rest with
    | none => rfl
    | some repo =>
      have hrest := stripSuffix_eq_some.mp hs
      rw [← List.append_assoc] at hrest
      exact absurd hrest (h repo b word hword)
  have hlast : ∀ b : Before, lastAfter (b.text ++ ['/']) rest = none := by
    intro b
    cases hs : lastAfter (b.text ++ ['/']) rest with
    | none => rfl
    | some q =>
      obtain ⟨repo, last⟩ := q
      obtain ⟨hrest, -, hslash⟩ := lastAfter_eq_some.mp hs
      have hassoc : repo ++ (b.text ++ ['/']) ++ last = repo ++ b.text ++ '/' :: last := by simp
      rw [hassoc] at hrest
      exact absurd hrest (h repo b last hslash)
  rw [split_patterns, hstrip .uploads [] List.not_mem_nil,
    hstrip .blobs "uploads".toList (by decide), hlast, hlast, hlast,
    hstrip .tags "list".toList (by decide)]

theorem spells_of_split {rest repo : Str} {action : Action} (h : split rest = (repo, action)) :
    Spells rest repo action ∨ action = .unknown ∧ repo = [] := by
  by_cases hknown : ∃ (repo' : Str) (b : Before) (last : Str), '/' ∉ last ∧
      rest = repo' ++ b.text ++ '/' :: last
  · obtain ⟨repo', b, last, hlast, rfl⟩ := hknown
    rw [split_known b hlast] at h
    exact spells_of_read hlast h
  · have hother : split rest = ([], .unknown) := split_other fun repo b last hlast heq =>
      hknown ⟨repo, b, last, hlast, heq⟩
    cases hother.symm.trans h
    exact Or.inr ⟨rfl, rfl⟩

/-- `split` reads exactly the grammar; what is spelt in no way is unknown. -/
theorem split_iff {rest repo : Str} {action : Action} :
    split rest = (repo, action) ↔ Spells rest repo action ∨
      action = .unknown ∧ repo = [] ∧ ∀ repo' action', ¬ Spells rest repo' action' := by
  constructor
  · intro h
    rcases spells_of_split h with hspells | ⟨rfl, rfl⟩
    · exact Or.inl hspells
    · refine Or.inr ⟨rfl, rfl, fun repo' action' hspells => ?_⟩
      cases h.symm.trans (split_of_spells hspells)
      exact hspells
  · intro h
    rcases h with hspells | ⟨rfl, rfl, hnone⟩
    · exact split_of_spells hspells
    · have hsplit : split rest = ((split rest).1, (split rest).2) := rfl
      rcases spells_of_split hsplit with hspells | ⟨haction, hrepo⟩
      · exact absurd hspells (hnone _ _)
      · exact Prod.ext hrepo haction

/-! ## Locations -/

section Locations

variable {S : Setup} {repo : Str}

/-- The response has no location. -/
def Unlocated (resp : Response) : Prop := resp.header .location = none

theorem gives_build {P : Response → Prop} {status : Status} {headers : List (HeaderName × Str)}
    {body : Body} (h : P ⟨status, headers, body⟩) :
    Gives (build status headers body : Handler S) P :=
  Gives.of_ite (fun _ => Gives.of_pure h) fun _ => Gives.of_throw _

theorem collectBody_eq_ok {body : Option Bytes} {limit : Nat} {bytes : Bytes}
    (h : collectBody body limit = .ok bytes) : body = some bytes := by
  unfold collectBody at h
  cases body with
  | none => cases h
  | some b =>
    simp only at h
    split at h
    · cases h
    · cases h
      rfl

theorem unlocated_collectBody {body : Option Bytes} {limit : Nat} {resp : Response}
    (h : collectBody body limit = .error resp) : Unlocated resp := by
  unfold collectBody at h
  cases body with
  | none =>
    cases h
    rfl
  | some b =>
    simp only at h
    split at h
    · cases h
      rfl
    · cases h

theorem serveLocalBlob_unlocated (m : BlobMeta) (d : Digest) (withBody : Bool) :
    Gives (serveLocalBlob m d withBody : Handler S) Unlocated := by
  apply Gives.of_ite
  · intro _
    apply Gives.last
    intro r
    cases r with
    | error e => exact Gives.of_pure rfl
    | ok b => exact gives_build rfl
  · intro _
    exact gives_build rfl

theorem serveBlobViaPullthrough_unlocated (d : Digest) (withBody : Bool)
    (reply : Option (List (Option Bytes))) :
    Gives (serveBlobViaPullthrough repo d withBody reply : Handler S) Unlocated := by
  apply Gives.last
  intro r
  cases r with
  | ok size =>
    apply Gives.of_ite
    · intro _
      exact gives_build rfl
    · intro _
      exact gives_build rfl
  | error e =>
    apply Gives.of_ite
    · intro _
      exact gives_build rfl
    · intro _
      exact Gives.of_pure rfl

theorem getBlob_unlocated (digest : Str) (withBody : Bool) (up : Replies) :
    Gives (getBlob repo digest withBody up : Handler S) Unlocated := by
  unfold getBlob
  cases Digest.parse digest with
  | error e => exact Gives.of_pure rfl
  | ok d =>
    apply Gives.last
    intro r
    match r with
    | .error e => exact Gives.of_pure rfl
    | .ok (some m) => exact serveLocalBlob_unlocated m d withBody
    | .ok none =>
      cases S.route repo with
      | none => exact Gives.of_pure rfl
      | some _ => exact serveBlobViaPullthrough_unlocated d withBody _

theorem deleteBlobRoute_unlocated (digest : Str) :
    Gives (deleteBlobRoute repo digest : Handler S) Unlocated := by
  unfold deleteBlobRoute
  cases Digest.parse digest with
  | error e => exact Gives.of_pure rfl
  | ok d =>
    apply Gives.last
    intro r
    match r with
    | .ok () => exact Gives.of_pure rfl
    | .error e => cases e <;> exact Gives.of_pure rfl

theorem serveLocalManifest_unlocated (d : Digest) (reference : Str) (withBody : Bool) :
    Gives (serveLocalManifest repo d reference withBody : Handler S) Unlocated := by
  apply Gives.last
  intro r
  match r with
  | .error e => exact Gives.of_pure rfl
  | .ok none => exact Gives.of_pure rfl
  | .ok (some m) =>
    apply Gives.last
    intro r
    cases r with
    | error e => exact Gives.of_pure rfl
    | ok bytes => exact gives_build rfl

theorem fetchManifestOrUnknown_unlocated (reference : Str) (withBody : Bool) (up : Replies) :
    Gives (fetchManifestOrUnknown repo reference withBody up : Handler S) Unlocated := by
  unfold fetchManifestOrUnknown
  cases S.route repo with
  | none => exact Gives.of_pure rfl
  | some _ =>
    apply Gives.last
    intro _
    cases up.getManifest with
    | none => exact Gives.of_pure rfl
    | some resp =>
      apply Gives.last
      intro _
      cases Digest.parse reference with
      | error e =>
        apply Gives.last
        intro _
        exact gives_build rfl
      | ok d => exact gives_build rfl

theorem serveIfPresent_unlocated (d : Digest) (reference : Str) (withBody : Bool) {h : Handler S}
    (hother : Gives h Unlocated) :
    Gives (serveIfPresent repo d reference withBody h) Unlocated := by
  apply Gives.last
  intro r
  match r with
  | .ok (some m) => exact serveLocalManifest_unlocated d reference withBody
  | .ok none => exact hother
  | .error e => exact hother

theorem getManifestByTag_unlocated (reference : Str) (withBody : Bool) (up : Replies) :
    Gives (getManifestByTag repo reference withBody up : Handler S) Unlocated := by
  have hfetch : Gives (fetchManifestOrUnknown repo reference withBody up : Handler S) Unlocated :=
    fetchManifestOrUnknown_unlocated reference withBody up
  apply Gives.last
  intro r
  cases r with
  | fresh d => exact serveIfPresent_unlocated d reference withBody hfetch
  | miss => cases S.route repo <;> exact hfetch
  | stale d =>
    cases S.route repo with
    | none => exact serveIfPresent_unlocated d reference withBody hfetch
    | some _ =>
      apply Gives.last
      intro _
      cases up.resolveTag with
      | none => exact serveIfPresent_unlocated d reference withBody hfetch
      | some d' =>
        apply Gives.of_ite
        · intro _
          apply Gives.last
          intro _
          exact serveIfPresent_unlocated d reference withBody hfetch
        · intro _
          exact hfetch

theorem getManifest_unlocated (reference : Str) (withBody : Bool) (up : Replies) :
    Gives (getManifest repo reference withBody up : Handler S) Unlocated := by
  unfold getManifest
  cases Digest.parse reference with
  | ok d =>
    apply Gives.last
    intro r
    match r with
    | .error e => exact Gives.of_pure rfl
    | .ok (some m) => exact serveLocalManifest_unlocated d reference withBody
    | .ok none => exact fetchManifestOrUnknown_unlocated reference withBody up
  | error e =>
    apply Gives.last
    intro w
    cases w.localTags.lookup (repo, reference) with
    | none => exact getManifestByTag_unlocated reference withBody up
    | some tag =>
      simp only
      cases Digest.parse tag.digest with
      | ok d => exact serveLocalManifest_unlocated d reference withBody
      | error e => exact getManifestByTag_unlocated reference withBody up

theorem applyIfNoneMatch_unlocated {ifNoneMatch : Option Str} {resp : Response}
    (h : Unlocated resp) : Unlocated (applyIfNoneMatch ifNoneMatch resp) := by
  unfold applyIfNoneMatch
  split
  · split
    · rfl
    · exact h
  · exact h

theorem deleteManifest_unlocated (reference : Str) :
    Gives (deleteManifest repo reference : Handler S) Unlocated := by
  unfold deleteManifest
  cases Digest.parse reference with
  | error e =>
    apply Gives.last
    intro r
    match r with
    | .ok true => exact Gives.of_pure rfl
    | .ok false => exact Gives.of_pure rfl
    | .error e => exact Gives.of_pure rfl
  | ok d =>
    apply Gives.last
    intro w
    apply Gives.last
    intro _
    apply Gives.last
    intro r
    match r with
    | .ok () => exact Gives.of_pure rfl
    | .error e => cases e <;> exact Gives.of_pure rfl

theorem listTags_unlocated (up : Replies) :
    Gives (listTags repo up : Handler S) Unlocated := by
  apply Gives.last
  intro w
  apply Gives.of_ite
  · intro _
    cases S.route repo with
    | none => exact Gives.of_pure rfl
    | some _ =>
      apply Gives.last
      intro _
      exact Gives.of_pure rfl
  · intro _
    exact Gives.of_pure rfl

theorem catalog_unlocated : Gives (catalog : Handler S) Unlocated := by
  apply Gives.last
  intro w
  cases listRepos S.root w.fs with
  | error e => exact Gives.of_pure rfl
  | ok repos => exact Gives.of_pure rfl

/-! The four handlers whose responses have a location. -/

theorem slash_notMem_toStr (d : Digest) : '/' ∉ d.toStr := by
  intro h
  rcases List.mem_append.mp h with h | h
  · revert h
    decide
  · rcases List.mem_cons.mp h with h | h
    · cases h
    · exact (ne_of_isLowerHex (d.hex.property.2 '/' h)).2.1 rfl

theorem toStr_ne_nil (d : Digest) : d.toStr ≠ [] := by simp [Digest.toStr]

theorem toStr_ne_uploads (d : Digest) : d.toStr ≠ "uploads".toList := by
  intro h
  have hlength := congrArg List.length h
  have hhex := d.hex.property.1
  simp [Digest.toStr, Digest.algorithm, hhex] at hlength

/-- A new session has a name that a path can end in. -/
theorem createSession_gives :
    Gives (createSession repo : Prog (World S) UploadError Str) fun s => s ≠ [] ∧ '/' ∉ s := by
  apply Gives.last
  intro nanos
  apply Gives.last
  intro _
  apply Gives.last
  intro _
  apply Gives.last
  intro _
  apply Gives.last
  intro _
  apply Gives.last
  intro _
  apply Gives.of_pure
  constructor
  · intro hnil
    have hlength := congrArg List.length hnil
    simp [newSessionId, length_hexText] at hlength
  · exact slash_notMem_newSessionId _ _

theorem uploadInit_gives :
    Gives (uploadInit repo : Handler S) fun resp => Unlocated resp ∨
      ∃ s, (s ≠ [] ∧ '/' ∉ s) ∧ resp.header .location = some (uploadLocation repo s) ∧
        resp.header .dockerUploadUuid = some s := by
  apply Gives.last
  intro r
  cases r with
  | error e => exact Gives.of_pure (Or.inl rfl)
  | ok _ =>
    refine createSession_gives.of_attempt.seq fun r hr => ?_
    cases r with
    | error e => exact Gives.of_pure (Or.inl rfl)
    | ok s => exact gives_build (Or.inr ⟨s, hr s rfl, rfl, rfl⟩)

theorem uploadPatch_gives (session : Str) (body : Option Bytes) :
    Gives (uploadPatch repo session body : Handler S) fun resp => Unlocated resp ∨
      resp.header .location = some (uploadLocation repo session) ∧
        resp.header .dockerUploadUuid = some session := by
  unfold uploadPatch
  cases hbody : collectBody body maxUpload with
  | error resp =>
    apply Gives.of_pure
    exact Or.inl (unlocated_collectBody hbody)
  | ok bytes =>
    apply Gives.last
    intro r
    match r with
    | .error e => cases e <;> exact Gives.of_pure (Or.inl rfl)
    | .ok total => exact gives_build (Or.inr ⟨rfl, rfl⟩)

theorem uploadPut_gives (session : Str) (digestQuery : Option Str) (body : Option Bytes) :
    Gives (uploadPut repo session digestQuery body : Handler S) fun resp => Unlocated resp ∨
      ∃ text d, digestQuery = some text ∧ Digest.parse text = .ok d ∧
        resp.header .location = some ("/v2/".toList ++ repo ++ "/blobs/".toList ++ d.toStr) ∧
        resp.header .dockerContentDigest = some d.toStr := by
  unfold uploadPut
  cases digestQuery with
  | none => exact Gives.of_pure (Or.inl rfl)
  | some text =>
    simp only
    cases hparse : Digest.parse text with
    | error e => exact Gives.of_pure (Or.inl rfl)
    | ok d =>
      cases hbody : collectBody body maxUpload with
      | error resp =>
        apply Gives.of_pure
        exact Or.inl (unlocated_collectBody hbody)
      | ok bytes =>
        apply Gives.last
        intro r
        match r with
        | .ok _ => exact gives_build (Or.inr ⟨text, d, rfl, hparse, rfl, rfl⟩)
        | .error e => cases e <;> exact Gives.of_pure (Or.inl rfl)

theorem putManifest_gives (reference : Str) (contentType : Option Str) (body : Option Bytes) :
    Gives (putManifest repo reference contentType body : Handler S) fun resp => Unlocated resp ∨
      ∃ b, body = some b ∧ resp.header .location =
          some ("/v2/".toList ++ repo ++ "/manifests/".toList ++ (S.digest b).toStr) ∧
        resp.header .dockerContentDigest = some (S.digest b).toStr := by
  apply Gives.last
  intro r
  cases r with
  | error e => exact Gives.of_pure (Or.inl rfl)
  | ok _ =>
    cases hbody : collectBody body 33554432 with
    | error resp =>
      apply Gives.of_pure
      exact Or.inl (unlocated_collectBody hbody)
    | ok bytes =>
      have hbytes := collectBody_eq_ok hbody
      simp only
      cases (Digest.parse reference).toOption.filter (· ≠ S.digest bytes) with
      | some other => exact Gives.of_pure (Or.inl rfl)
      | none =>
        apply Gives.last
        intro missing
        cases missing with
        | some text => exact Gives.of_pure (Or.inl rfl)
        | none =>
          apply Gives.last
          intro r
          have hcreated : Gives (build .created
              ([(.location, "/v2/".toList ++ repo ++ "/manifests/".toList ++ (S.digest bytes).toStr),
                (.dockerContentDigest, (S.digest bytes).toStr)] ++
                (contentType.map fun ct => (HeaderName.contentType, ct)).toList) .empty : Handler S)
              fun resp => Unlocated resp ∨ ∃ b, body = some b ∧ resp.header .location =
                  some ("/v2/".toList ++ repo ++ "/manifests/".toList ++ (S.digest b).toStr) ∧
                resp.header .dockerContentDigest = some (S.digest b).toStr :=
            gives_build (Or.inr ⟨bytes, hbytes, rfl, rfl⟩)
          cases r with
          | error e => exact Gives.of_pure (Or.inl rfl)
          | ok _ =>
            simp only
            cases Digest.parse reference with
            | ok d => exact hcreated
            | error e =>
              apply Gives.last
              intro r
              cases r with
              | error e => exact Gives.of_pure (Or.inl rfl)
              | ok _ => exact hcreated

/-- What the response to a request is about. -/
def About (S : Setup) (req : Request) (resp : Response) : Action → Prop
  | .uploadSession s =>
    resp.header .dockerUploadUuid = some s ∧ ∀ s', (split req.rest).2 = .uploadSession s' → s' = s
  | .blob d =>
    resp.header .dockerContentDigest = some d ∧ ∃ text d', req.digestQuery = some text ∧
      Digest.parse text = .ok d' ∧ d = d'.toStr
  | .manifest x =>
    resp.header .dockerContentDigest = some x ∧ ∃ b, req.body = some b ∧ x = (S.digest b).toStr
  | _ => False

/-- The location of a response, below `/v2/`, is read back to the repository of the request and
to what the response is about. -/
def ParsesBack (S : Setup) (req : Request) (resp : Response) : Prop :=
  ∀ location, resp.header .location = some location →
    ∃ rest action, location = "/v2/".toList ++ rest ∧
      split rest = ((split req.rest).1, action) ∧ About S req resp action

theorem parsesBack_of_unlocated {req : Request} {resp : Response} (h : Unlocated resp) :
    ParsesBack S req resp := by
  intro location hlocation
  rw [h] at hlocation
  cases hlocation

theorem parsesBack_of_eq {req : Request} {resp : Response} {location : Str} (rest : Str)
    (action : Action) (h : resp.header .location = some location)
    (hrest : location = "/v2/".toList ++ rest)
    (hspells : Spells rest (split req.rest).1 action) (habout : About S req resp action) :
    ParsesBack S req resp := by
  intro location' hlocation
  cases h.symm.trans hlocation
  exact ⟨rest, action, hrest, split_of_spells hspells, habout⟩

theorem uploadLocation_eq (repo s : Str) :
    uploadLocation repo s = "/v2/".toList ++ (repo ++ "/blobs/uploads/".toList ++ s) := by
  unfold uploadLocation
  rw [List.append_assoc, List.append_assoc, List.append_assoc]

/-- The responses of a session's own path. -/
theorem route_session_parsesBack (req : Request) {session : Str}
    (haction : (split req.rest).2 = .uploadSession session) :
    Gives (route req (split req.rest).1 (.uploadSession session) : Handler S)
      (ParsesBack S req) := by
  have hspells : Spells req.rest (split req.rest).1 (.uploadSession session) := by
    have hsplit : split req.rest = ((split req.rest).1, .uploadSession session) :=
      Prod.ext rfl haction
    rcases spells_of_split hsplit with h | ⟨h, -⟩
    · exact h
    · cases h
  cases hm : req.method with
  | patch =>
    simp only [route, hm]
    intro w resp w' hrun
    rcases uploadPatch_gives session req.body w resp w' hrun with hnone | ⟨hloc, huuid⟩
    · exact parsesBack_of_unlocated hnone
    · apply parsesBack_of_eq _ (.uploadSession session) hloc (uploadLocation_eq _ _)
      · exact ⟨rfl, hspells.2.1, hspells.2.2⟩
      · refine ⟨huuid, fun s' hs' => ?_⟩
        cases haction.symm.trans hs'
        rfl
  | put =>
    simp only [route, hm]
    intro w resp w' hrun
    rcases uploadPut_gives session req.digestQuery req.body w resp w' hrun with
      hnone | ⟨text, d, hquery, hparse, hloc, hdigest⟩
    · exact parsesBack_of_unlocated hnone
    · apply parsesBack_of_eq ((split req.rest).1 ++ "/blobs/".toList ++ d.toStr)
        (.blob d.toStr) hloc
      · rw [List.append_assoc, List.append_assoc, List.append_assoc]
      · exact ⟨rfl, toStr_ne_nil d, slash_notMem_toStr d, toStr_ne_uploads d⟩
      · exact ⟨hdigest, text, d, hquery, hparse, rfl⟩
  | _ =>
    simp only [route, hm]
    exact Gives.of_pure (parsesBack_of_unlocated rfl)

/-- Every location that the server answers with parses back. -/
theorem dispatch_parsesBack (req : Request) :
    Gives (dispatch req : Handler S) (ParsesBack S req) := by
  have hun : ∀ {h : Handler S}, Gives h Unlocated → Gives h (ParsesBack S req) := by
    intro h hgives w resp w' hrun
    exact parsesBack_of_unlocated (hgives w resp w' hrun)
  have hno : Gives (route.unsupported : Handler S) (ParsesBack S req) := hun (Gives.of_pure rfl)
  apply Gives.of_ite
  · intro _
    exact hun catalog_unlocated
  intro _
  apply Gives.of_ite
  · intro _
    exact hun (Gives.of_pure rfl)
  intro _
  cases haction : (split req.rest).2 with
  | blob d =>
    cases hm : req.method with
    | get => simpa only [route, hm] using hun (getBlob_unlocated d true req.upstream)
    | head => simpa only [route, hm] using hun (getBlob_unlocated d false req.upstream)
    | delete => simpa only [route, hm] using hun (deleteBlobRoute_unlocated d)
    | _ => simpa only [route, hm] using hno
  | manifest r =>
    have hget : ∀ withBody, Gives ((applyIfNoneMatch req.ifNoneMatch ·) <$>
        getManifest (split req.rest).1 r withBody req.upstream : Handler S) (ParsesBack S req) := by
      intro withBody
      apply hun
      apply Gives.of_map
      intro w resp w' hrun
      exact applyIfNoneMatch_unlocated (getManifest_unlocated r withBody req.upstream w resp w' hrun)
    cases hm : req.method with
    | get => simpa only [route, hm] using hget true
    | head => simpa only [route, hm] using hget false
    | delete => simpa only [route, hm] using hun (deleteManifest_unlocated r)
    | put =>
      simp only [route, hm]
      intro w resp w' hrun
      rcases putManifest_gives r req.contentType req.body w resp w' hrun with
        hnone | ⟨b, hbody, hloc, hdigest⟩
      · exact parsesBack_of_unlocated hnone
      · apply parsesBack_of_eq
          ((split req.rest).1 ++ "/manifests/".toList ++ (S.digest b).toStr)
          (.manifest (S.digest b).toStr) hloc
        · rw [List.append_assoc, List.append_assoc, List.append_assoc]
        · exact ⟨rfl, toStr_ne_nil _, slash_notMem_toStr _⟩
        · exact ⟨hdigest, b, hbody, rfl⟩
    | _ => simpa only [route, hm] using hno
  | tagsList =>
    apply Gives.of_ite
    · intro _
      exact hun (listTags_unlocated req.upstream)
    · intro _
      exact hno
  | uploadInit =>
    apply Gives.of_ite
    · intro _ w resp w' hrun
      rcases uploadInit_gives w resp w' hrun with hnone | ⟨s, hs, hloc, huuid⟩
      · exact parsesBack_of_unlocated hnone
      · apply parsesBack_of_eq _ (.uploadSession s) hloc (uploadLocation_eq _ _)
        · exact ⟨rfl, hs.1, hs.2⟩
        · refine ⟨huuid, fun s' hs' => ?_⟩
          cases haction.symm.trans hs'
    · intro _
      exact hno
  | uploadSession s => exact route_session_parsesBack req haction
  | unknown => exact hno

end Locations

/-- `split` reads exactly the grammar of the registry's paths: each action with the spelling that
belongs to it, and what is spelt in no way is unknown. Every location that the server emits
is read back. -/
theorem split_reads_the_grammar :
    (∀ rest repo : Str,
      (split rest = (repo, .uploadInit) ↔
        rest = repo ++ "/blobs/uploads".toList ∨ rest = repo ++ "/blobs/uploads/".toList) ∧
      (∀ s, split rest = (repo, .uploadSession s) ↔
        rest = repo ++ "/blobs/uploads/".toList ++ s ∧ s ≠ [] ∧ '/' ∉ s) ∧
      (∀ d, split rest = (repo, .blob d) ↔
        rest = repo ++ "/blobs/".toList ++ d ∧ d ≠ [] ∧ '/' ∉ d ∧ d ≠ "uploads".toList) ∧
      (∀ x, split rest = (repo, .manifest x) ↔
        rest = repo ++ "/manifests/".toList ++ x ∧ x ≠ [] ∧ '/' ∉ x) ∧
      (split rest = (repo, .tagsList) ↔ rest = repo ++ "/tags/list".toList) ∧
      (split rest = (repo, .unknown) ↔
        repo = [] ∧ ∀ repo' action, ¬ Spells rest repo' action)) ∧
    ∀ (S : Setup) (req : Request) (w w' : World S) (resp : Response),
      (dispatch req : Handler S).exec w = (.ok resp, w') → ParsesBack S req resp := by
  refine ⟨fun rest repo => ?_, fun S req w w' resp hrun => dispatch_parsesBack req w resp w' hrun⟩
  have hknown : ∀ action, action ≠ .unknown →
      (split rest = (repo, action) ↔ Spells rest repo action) := by
    intro action haction
    rw [split_iff]
    simp [haction]
  refine ⟨hknown .uploadInit (by simp), fun s => hknown (.uploadSession s) (by simp),
    fun d => hknown (.blob d) (by simp), fun x => hknown (.manifest x) (by simp),
    hknown .tagsList (by simp), ?_⟩
  rw [split_iff]
  simp [Spells]

/-- A request to open a session in a repository whose name is made of the words of the paths. -/
def keywordRequest : Request where
  method := .post
  rest := "manifests/tags/list/blobs/uploads/".toList
  digestQuery := none
  ifNoneMatch := none
  contentType := none
  body := none
  upstream := ⟨none, none, none, none⟩

theorem keyword_repo_parses_back :
    split keywordRequest.rest = ("manifests/tags/list".toList, .uploadInit) ∧
      ∃ resp w', (dispatch keywordRequest : Handler Codec.standalone).exec
          (World.start Codec.standalone [] []) = (.ok resp, w') ∧
        ParsesBack Codec.standalone keywordRequest resp := by
  refine ⟨((split_reads_the_grammar.1 _ _).1).mpr (Or.inr (by decide)), ?_⟩
  have hok : ((dispatch keywordRequest : Handler Codec.standalone).exec
      (World.start Codec.standalone [] [])).1.isOk = true := by decide +kernel
  rcases hrun : (dispatch keywordRequest : Handler Codec.standalone).exec
    (World.start Codec.standalone [] []) with ⟨e | resp, w'⟩
  · rw [hrun] at hok
    cases hok
  · exact ⟨resp, w', rfl, split_reads_the_grammar.2 _ _ _ _ _ hrun⟩

end Quill.Registry
