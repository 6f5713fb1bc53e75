import Quill.Base.FirstMatch
import Quill.Upstream.Client

/-!
# The router of upstreams

`UpstreamRouter` of `quill-upstream`: `build` makes a client for each configured upstream, in
the order of the configuration, and fails with the first one that cannot be made; `route`
takes the first entry whose `repo_prefix` is a prefix of the repository name. What comes from
outside, the parser of URLs and the builder of the HTTP client, are parameters.

`route` finds an upstream of the longest matching prefix for every name exactly when no prefix
of the configuration stands before a longer one that extends it.
-/

namespace Quill.Config

/-- `UpstreamAuth`. -/
inductive UpstreamAuth where
  | basic (username password : Str)
  deriving DecidableEq

/-- An upstream of the configuration. -/
structure Upstream where
  name : Str
  url : Str
  repoPrefix : Str
  auth : Option UpstreamAuth
  deriving DecidableEq

end Quill.Config

namespace Quill.Upstream

open Text Base

/-- How the client authenticates. -/
inductive AuthMode where
  | anonymous
  | basic (username password : Str)
  deriving DecidableEq

/-- The mode that `build` passes to the client. -/
def AuthMode.ofConfig (auth : Option Config.UpstreamAuth) : AuthMode :=
  match auth with
  | none => .anonymous
  | some (.basic username password) => .basic username password

/-- The URL parser, with the text of its error, and whether an HTTP client can be built. -/
structure Platform (Url : Type) where
  parseUrl : Str → Except Str Url
  clientBuilds : Bool

/-- The client of an upstream. -/
structure HttpUpstream (Url : Type) where
  name : Str
  baseUrl : Url
  authMode : AuthMode
  deriving DecidableEq

/-- An upstream as it is configured, with its client. -/
structure UpstreamEntry (Url : Type) where
  config : Config.Upstream
  client : HttpUpstream Url
  deriving DecidableEq

/-- The upstreams in the order of the configuration. -/
structure UpstreamRouter (Url : Type) where
  entries : List (UpstreamEntry Url)

variable {Url : Type} (P : Platform Url)

/-- `HttpUpstream::new`. -/
def HttpUpstream.new (name url : Str) (mode : AuthMode) : Except UpstreamError (HttpUpstream Url) :=
  match P.parseUrl url with
  | .error e => .error (.invalidUrl (url ++ ": ".toList ++ e))
  | .ok base => if P.clientBuilds then .ok ⟨name, base, mode⟩ else .error .transport

/-- The body of the loop of `build`. -/
def UpstreamEntry.make (u : Config.Upstream) : Except UpstreamError (UpstreamEntry Url) :=
  (HttpUpstream.new P u.name u.url (.ofConfig u.auth)).map fun client => ⟨u, client⟩

/-- The loop of `build`. -/
def UpstreamEntry.makeAll : List Config.Upstream → Except UpstreamError (List (UpstreamEntry Url))
  | [] => .ok []
  | u :: us =>
    match UpstreamEntry.make P u with
    | .error e => .error e
    | .ok entry => (UpstreamEntry.makeAll us).map fun entries => entry :: entries

namespace UpstreamRouter

/-- `UpstreamRouter::build`. -/
def build (upstreams : List Config.Upstream) : Except UpstreamError (UpstreamRouter Url) :=
  (UpstreamEntry.makeAll P upstreams).map fun entries => ⟨entries⟩

/-- `UpstreamRouter::route`. -/
def route (r : UpstreamRouter Url) (repo : Str) : Option (UpstreamEntry Url) :=
  r.entries.find? fun u => u.config.repoPrefix.isPrefixOf repo

/-- Whether no upstream is configured. -/
def isEmpty (r : UpstreamRouter Url) : Bool := r.entries.isEmpty

end UpstreamRouter

variable {P}

/-! ## What `build` makes -/

theorem UpstreamEntry.make_eq_ok {u : Config.Upstream} {e : UpstreamEntry Url}
    (h : UpstreamEntry.make P u = .ok e) : e.config = u := by
  unfold UpstreamEntry.make at h
  cases hnew : HttpUpstream.new P u.name u.url (.ofConfig u.auth) with
  | error e' => simp [hnew, Except.map] at h
  | ok client =>
    simp only [hnew, Except.map, Except.ok.injEq] at h
    rw [← h]

theorem UpstreamEntry.makeAll_eq_ok {us : List Config.Upstream} {es : List (UpstreamEntry Url)} :
    UpstreamEntry.makeAll P us = .ok es ↔
      List.Forall₂ (fun u e => UpstreamEntry.make P u = .ok e) us es := by
  induction us generalizing es with
  | nil =>
    rw [List.forall₂_nil_left_iff]
    exact ⟨fun h => (Except.ok.inj h).symm, fun h => h ▸ rfl⟩
  | cons u us ih =>
    rw [List.forall₂_cons_left_iff]
    constructor
    · intro h
      unfold UpstreamEntry.makeAll at h
      cases hmake : UpstreamEntry.make P u with
      | error e => simp [hmake] at h
      | ok entry =>
        cases hall : UpstreamEntry.makeAll P us with
        | error e => simp [hmake, hall, Except.map] at h
        | ok entries =>
          simp only [hmake, hall, Except.map, Except.ok.injEq] at h
          exact ⟨entry, entries, rfl, ih.mp hall, h.symm⟩
    · intro ⟨entry, entries, hmake, hall, hes⟩
      simp [UpstreamEntry.makeAll, hmake, ih.mpr hall, Except.map, hes]

namespace UpstreamRouter

theorem build_eq_ok {us : List Config.Upstream} {r : UpstreamRouter Url} :
    build P us = .ok r ↔
      List.Forall₂ (fun u e => UpstreamEntry.make P u = .ok e) us r.entries := by
  rw [← UpstreamEntry.makeAll_eq_ok]
  unfold build
  cases hall : UpstreamEntry.makeAll P us with
  | error e => simp [Except.map]
  | ok entries =>
    simp only [Except.map, Except.ok.injEq]
    exact ⟨fun h => h ▸ rfl, fun h => by rw [h]⟩

/-- The entries stand in the order of the configuration. -/
theorem map_config_of_build {us : List Config.Upstream} {r : UpstreamRouter Url}
    (h : build P us = .ok r) : r.entries.map UpstreamEntry.config = us := by
  have hall := build_eq_ok.mp h
  generalize r.entries = es at hall
  clear h
  induction hall with
  | nil => rfl
  | cons hmake _ ih => rw [List.map_cons, UpstreamEntry.make_eq_ok hmake, ih]

theorem make_of_mem_entries {us : List Config.Upstream} {r : UpstreamRouter Url}
    (h : build P us = .ok r) {e : UpstreamEntry Url} (he : e ∈ r.entries) :
    UpstreamEntry.make P e.config = .ok e := by
  have hall := build_eq_ok.mp h
  rw [← map_config_of_build h, List.forall₂_map_left_iff, List.forall₂_same] at hall
  exact hall e he

/-- Any order of a configuration that can be built can be built, with the same entries. -/
theorem exists_build_of_perm {us us' : List Config.Upstream} {r : UpstreamRouter Url}
    (h : build P us = .ok r) (hperm : us'.Perm us) :
    ∃ r', build P us' = .ok r' ∧ r'.entries.Perm r.entries := by
  obtain ⟨es, hes, hperm'⟩ := List.perm_comp_forall₂ hperm (build_eq_ok.mp h)
  exact ⟨⟨es⟩, build_eq_ok.mpr hes, hperm'⟩

/-- The registry's own routing table holds the prefixes alone. -/
theorem route_repoPrefix {S : Setup} {r : UpstreamRouter Url}
    (hS : S.upstreams = r.entries.map fun e => e.config.repoPrefix) (repo : Str) :
    S.route repo = (r.route repo).map fun e => e.config.repoPrefix := by
  unfold Setup.route route
  rw [hS, List.find?_map]
  rfl

/-! ## The most specific upstream -/

/-- The upstream of the longest configured prefix of the name, if there is one. -/
def RoutesLongest (r : UpstreamRouter Url) (repo : Str) : Prop :=
  match r.route repo with
  | none => ∀ e ∈ r.entries, ¬ e.config.repoPrefix <+: repo
  | some e => e ∈ r.entries ∧ e.config.repoPrefix <+: repo ∧
      ∀ f ∈ r.entries, f.config.repoPrefix <+: repo →
        f.config.repoPrefix.length ≤ e.config.repoPrefix.length

/-- An upstream whose prefix properly extends the prefix of an earlier one also has its prefix
configured before that one. -/
def SpecificFirst (us : List Config.Upstream) : Prop :=
  ∀ before u after, us = before ++ u :: after →
    ∀ v ∈ after, u.repoPrefix <+: v.repoPrefix → u.repoPrefix ≠ v.repoPrefix →
      ∃ t ∈ before, t.repoPrefix = v.repoPrefix

theorem specificFirst_iff {us : List Config.Upstream} {r : UpstreamRouter Url}
    (h : build P us = .ok r) :
    LongerFirst (fun e : UpstreamEntry Url => e.config.repoPrefix) r.entries ↔
      SpecificFirst us := by
  have hus := map_config_of_build h
  constructor
  · intro hlonger before u after heq v hv hprefix hne
    rw [heq] at hus
    obtain ⟨before', rest, hentries, hbefore, hrest⟩ := List.map_eq_append_iff.mp hus
    obtain ⟨e, after', hrest', he, hafter⟩ := List.map_eq_cons_iff.mp hrest
    rw [← hafter, List.mem_map] at hv
    obtain ⟨f, hf, hfv⟩ := hv
    rw [hrest'] at hentries
    rw [← he, ← hfv] at hprefix hne
    obtain ⟨d, hd, hdf⟩ := hlonger before' e after' hentries f hf hprefix hne
    have hdv : d.config.repoPrefix = v.repoPrefix := by
      rw [← hfv]
      exact hdf
    refine ⟨d.config, ?_, hdv⟩
    rw [← hbefore]
    exact List.mem_map_of_mem hd
  · intro hspecific before e after heq f hf hprefix hne
    rw [heq, List.map_append, List.map_cons] at hus
    obtain ⟨t, ht, htf⟩ := hspecific _ _ _ hus.symm f.config (List.mem_map_of_mem hf) hprefix hne
    obtain ⟨d, hd, rfl⟩ := List.mem_map.mp ht
    exact ⟨d, hd, htf⟩

theorem routesLongest_iff {r : UpstreamRouter Url} {repo : Str} :
    r.RoutesLongest repo ↔ IsLongestMatch (fun e : UpstreamEntry Url => e.config.repoPrefix)
      r.entries repo (firstMatch (fun e => e.config.repoPrefix) r.entries repo) := by
  unfold RoutesLongest IsLongestMatch
  rw [show r.route repo = firstMatch (fun e => e.config.repoPrefix) r.entries repo from rfl]
  cases firstMatch (fun e : UpstreamEntry Url => e.config.repoPrefix) r.entries repo <;> rfl

theorem antichain_iff {us : List Config.Upstream} {r : UpstreamRouter Url}
    (h : build P us = .ok r) (hnodup : (us.map Config.Upstream.repoPrefix).Nodup) :
    (∀ u ∈ us, ∀ v ∈ us, u.repoPrefix <+: v.repoPrefix → u.repoPrefix = v.repoPrefix) ↔
      ∀ e ∈ r.entries, ∀ f ∈ r.entries, e.config.repoPrefix <+: f.config.repoPrefix → e = f := by
  have hus := map_config_of_build h
  rw [← hus, List.map_map] at hnodup
  rw [← hus]
  simp only [List.forall_mem_map]
  constructor
  · intro hall e he f hf hprefix
    exact List.inj_on_of_nodup_map hnodup he hf (hall e he f hf hprefix)
  · intro hall e he f hf hprefix
    rw [hall e he f hf hprefix]

/-- `route` picks the most specific upstream for every name exactly when no prefix stands before
a longer one that extends it; and with distinct prefixes, the order of the configuration is
irrelevant exactly when no prefix extends another. -/
theorem route_most_specific_iff {us : List Config.Upstream} {r : UpstreamRouter Url}
    (h : build P us = .ok r) :
    ((∀ repo, r.RoutesLongest repo) ↔ SpecificFirst us) ∧
      ((us.map Config.Upstream.repoPrefix).Nodup →
        ((∀ us' : List Config.Upstream, us'.Perm us → ∃ r', build P us' = .ok r' ∧
            ∀ repo, r'.route repo = r.route repo) ↔
          ∀ u ∈ us, ∀ v ∈ us, u.repoPrefix <+: v.repoPrefix → u.repoPrefix = v.repoPrefix)) := by
  constructor
  · rw [← specificFirst_iff h, ← isLongestMatch_firstMatch_iff]
    exact forall_congr' fun repo => routesLongest_iff
  · intro hnodup
    rw [antichain_iff h hnodup, ← firstMatch_perm_iff]
    constructor
    · intro hall es hperm repo
      have hmake : ∀ e ∈ es, UpstreamEntry.make P e.config = .ok e := fun e he =>
        make_of_mem_entries h (hperm.mem_iff.mp he)
      have hbuild : build P (es.map UpstreamEntry.config) = .ok ⟨es⟩ := by
        rw [build_eq_ok, List.forall₂_map_left_iff, List.forall₂_same]
        exact hmake
      have hperm' : (es.map UpstreamEntry.config).Perm us := by
        rw [← map_config_of_build h]
        exact hperm.map _
      obtain ⟨r', hr', hroute⟩ := hall _ hperm'
      cases hbuild.symm.trans hr'
      exact hroute repo
    · intro hall us' hperm
      obtain ⟨r', hr', hperm'⟩ := exists_build_of_perm h hperm
      exact ⟨r', hr', fun repo => hall r'.entries hperm' repo⟩

/-! Two upstreams of which the second is the more specific one. -/

/-- URLs are kept as they are. -/
def plainPlatform : Platform Str where
  parseUrl := fun url => .ok url
  clientBuilds := true

def mirror : Config.Upstream :=
  ⟨"mirror".toList, "https://mirror".toList, "team/".toList, none⟩

def vault : Config.Upstream :=
  ⟨"vault".toList, "https://vault".toList, "team/secret/".toList,
    some (.basic "quill".toList "key".toList)⟩

theorem build_mirror_vault :
    build plainPlatform [mirror, vault] = .ok ⟨[⟨mirror, ⟨mirror.name, mirror.url, .anonymous⟩⟩,
      ⟨vault, ⟨vault.name, vault.url, .basic "quill".toList "key".toList⟩⟩]⟩ := rfl

theorem build_vault_mirror :
    build plainPlatform [vault, mirror] =
      .ok ⟨[⟨vault, ⟨vault.name, vault.url, .basic "quill".toList "key".toList⟩⟩,
        ⟨mirror, ⟨mirror.name, mirror.url, .anonymous⟩⟩]⟩ := rfl

theorem specificFirst_vault_mirror : SpecificFirst [vault, mirror] := by
  intro before u after heq v hv hprefix hne
  have hnot : ¬ vault.repoPrefix <+: mirror.repoPrefix := by decide
  match before, heq with
  | [], heq =>
    cases heq
    cases List.mem_singleton.mp hv
    exact absurd hprefix hnot
  | [_], heq =>
    cases heq
    exact absurd hv List.not_mem_nil
  | _ :: _ :: before, heq => simp at heq

/-- Every name is routed to the most specific upstream when that one stands first; the order
still matters, as one prefix extends the other. -/
theorem route_most_specific_vault_first :
    ∃ r, build plainPlatform [vault, mirror] = .ok r ∧ (∀ repo, r.RoutesLongest repo) ∧
      ¬ ∀ us' : List Config.Upstream, us'.Perm [vault, mirror] →
        ∃ r', build plainPlatform us' = .ok r' ∧ ∀ repo, r'.route repo = r.route repo := by
  obtain ⟨hlongest, hperm⟩ := route_most_specific_iff build_vault_mirror
  refine ⟨_, build_vault_mirror, hlongest.mpr specificFirst_vault_mirror, ?_⟩
  rw [hperm (by decide)]
  intro h
  have heq := h mirror (by simp) vault (by simp) (by decide)
  revert heq
  decide

/-- The general upstream stands first and takes the names of the specific one; in the other
order it does not. -/
theorem general_upstream_hides_specific :
    ∃ r r', build plainPlatform [mirror, vault] = .ok r ∧
      build plainPlatform [vault, mirror] = .ok r' ∧
      ((r.route "team/secret/app".toList).map fun e => e.config) = some mirror ∧
      ((r'.route "team/secret/app".toList).map fun e => e.config) = some vault ∧
      ¬ r.RoutesLongest "team/secret/app".toList := by
  refine ⟨_, _, build_mirror_vault, build_vault_mirror, by decide, by decide, ?_⟩
  rw [routesLongest_iff]
  intro h
  have hlength := h.2.2 _ (List.mem_cons_of_mem _ (List.mem_singleton_self _)) (by decide)
  revert hlength
  decide

end UpstreamRouter

end Quill.Upstream
