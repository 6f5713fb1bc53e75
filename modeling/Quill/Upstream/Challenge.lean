import Quill.Base.Text
import Mathlib.Data.List.AList
import Mathlib.Data.List.Perm.Basic

/-!
# Bearer challenges

`TokenRequest` of `quill-upstream`: the value of a `WWW-Authenticate` header is cut at every
comma, each part at its first equals sign, and the quotation marks around a value are taken
off. The parts are inserted into a map, so that of two parts with one name the later wins.

A challenge whose values have no quotation marks is read back as it was written, in any order
and spacing of its parameters, exactly when no value contains a comma: a comma inside quotation
marks ends the value as one outside does.
-/

namespace Quill.Upstream

open Text

/-- The parameters of a bearer challenge. -/
structure TokenRequest where
  realm : Str
  service : Option Str
  scope : Option Str
  deriving DecidableEq

namespace TokenRequest

/-- The parameters by name. -/
abbrev Params := AList fun _ : Str => Str

/-- The body of the loop of `parse`. -/
def insertParam (params : Params) (kv : Str) : Params :=
  match splitOnce '=' (trim kv) with
  | some (k, v) => params.insert (trim k) (trimQuotes (trim v))
  | none => params

/-- The loop of `parse`. -/
def readParams (rest : Str) : Params := (rest.splitOn ',').foldl insertParam ∅

/-- The end of `parse`, which takes the three parameters out of the map. -/
def ofParams (params : Params) : Option TokenRequest :=
  (params.lookup "realm".toList).map fun realm =>
    ⟨realm, params.lookup "service".toList, params.lookup "scope".toList⟩

/-- `TokenRequest::parse`. -/
def parse (header : Str) : Option TokenRequest :=
  if "Bearer ".toList.isPrefixOf (trim header) then
    ofParams (readParams ((trim header).drop "Bearer ".toList.length))
  else none

/-- `TokenRequest::cache_key`. -/
def cacheKey (r : TokenRequest) : Str × Str := (r.realm, r.scope.getD [])

/-! ## Challenges as they are written -/

/-- The parameters of a challenge. -/
def params (r : TokenRequest) : List (Str × Str) :=
  ("realm".toList, r.realm) ::
    (r.service.toList.map fun v => ("service".toList, v)) ++
      r.scope.toList.map fun v => ("scope".toList, v)

/-- A parameter with the blanks before and after it. -/
structure Spaced where
  left : Str
  param : Str × Str
  right : Str

/-- The blanks are blanks. -/
def Spaced.Blank (p : Spaced) : Prop :=
  (∀ c ∈ p.left, isWhitespace c = true) ∧ ∀ c ∈ p.right, isWhitespace c = true

theorem blank_of_all {ps : List Spaced}
    (h : (ps.all fun p => p.left.all isWhitespace && p.right.all isWhitespace) = true) :
    ∀ p ∈ ps, p.Blank := by
  intro p hp
  have hboth := List.all_eq_true.mp h p hp
  simp only [Bool.and_eq_true, List.all_eq_true] at hboth
  exact hboth

/-- `name="value"` between its blanks. -/
def Spaced.text (p : Spaced) : Str :=
  p.left ++ (p.param.1 ++ '=' :: '"' :: p.param.2 ++ ['"']) ++ p.right

/-- The value of the header. -/
def render (ps : List Spaced) : Str :=
  "Bearer ".toList ++ [','].intercalate (ps.map Spaced.text)

/-! ## Values without commas are read back -/

theorem isWhitespace_comma : isWhitespace ',' = false := by decide

/-- The name of one of the three parameters. -/
def IsName (n : Str) : Prop :=
  n = "realm".toList ∨ n = "service".toList ∨ n = "scope".toList

theorem isName_of_mem_params {r : TokenRequest} {p : Str × Str} (h : p ∈ r.params) :
    IsName p.1 := by
  simp only [params, List.cons_append, List.mem_cons, List.mem_append, List.mem_map] at h
  rcases h with rfl | ⟨v, -, rfl⟩ | ⟨v, -, rfl⟩
  · exact Or.inl rfl
  · exact Or.inr (Or.inl rfl)
  · exact Or.inr (Or.inr rfl)

theorem IsName.facts {n : Str} (h : IsName n) :
    trim n = n ∧ '=' ∉ n ∧ ',' ∉ n ∧ ∃ c, n.head? = some c ∧ isWhitespace c = false := by
  rcases h with rfl | rfl | rfl
  · exact ⟨by decide, by decide, by decide, 'r', rfl, by decide⟩
  · exact ⟨by decide, by decide, by decide, 's', rfl, by decide⟩
  · exact ⟨by decide, by decide, by decide, 's', rfl, by decide⟩

/-- The quotation marks come off a value that has none inside. -/
theorem trimQuotes_quoted {v : Str} (h : '"' ∉ v) : trimQuotes (trim ('"' :: v ++ ['"'])) = v := by
  have hquote : isWhitespace '"' = false := by decide
  have htrim : trim ('"' :: v ++ ['"']) = '"' :: v ++ ['"'] := by
    have hb := trim_between (p := isWhitespace) (l := []) (r := []) (s := '"' :: v ++ ['"'])
      (by simp) (by simp) (by simp [hquote]) ?_
    · rw [List.nil_append, List.append_nil] at hb
      exact hb
    · intro c hc
      rw [List.getLast?_append] at hc
      cases hc
      exact hquote
  rw [htrim]
  have hne : ∀ c ∈ v, decide (c = '"') = false := by
    intro c hc
    exact decide_eq_false fun heq => h (heq ▸ hc)
  have hb := trim_between (p := fun c => decide (c = '"')) (l := ['"']) (r := ['"']) (s := v)
    (by simp) (by simp) (fun c hc => hne c (List.mem_of_mem_head? hc))
    (fun c hc => hne c (List.mem_of_mem_getLast? hc))
  exact hb

/-- A parameter is inserted with its value. -/
theorem insertParam_text {p : Spaced} (hname : IsName p.param.1) (hblank : p.Blank)
    (hquote : '"' ∉ p.param.2) (params : Params) :
    insertParam params p.text = params.insert p.param.1 p.param.2 := by
  obtain ⟨htrim, heq, -, c, hhead, hc⟩ := hname.facts
  have hkv : trim p.text = p.param.1 ++ '=' :: ('"' :: p.param.2 ++ ['"']) := by
    have hb := trim_between (p := isWhitespace) (s := p.param.1 ++ '=' :: '"' :: p.param.2 ++ ['"'])
      hblank.1 hblank.2 ?_ ?_
    · simpa [Spaced.text, trim] using hb
    · intro a ha
      rw [List.append_assoc, List.head?_append, hhead] at ha
      cases ha
      exact hc
    · intro a ha
      rw [List.getLast?_append] at ha
      cases ha
      decide
  unfold insertParam
  rw [hkv, splitOnce_eq_some.mpr ⟨rfl, heq⟩]
  simp only [htrim, trimQuotes_quoted hquote]

theorem lookup_foldl_insert_of_notMem {ps : List (Str × Str)} {k : Str} (h : k ∉ ps.map Prod.fst)
    (acc : Params) :
    (ps.foldl (fun m p => m.insert p.1 p.2) acc).lookup k = acc.lookup k := by
  induction ps generalizing acc with
  | nil => rfl
  | cons p ps ih =>
    simp only [List.map_cons, List.mem_cons, not_or] at h
    rw [List.foldl_cons, ih h.2, AList.lookup_insert_ne h.1]

theorem lookup_foldl_insert_of_mem {ps : List (Str × Str)} (hnodup : (ps.map Prod.fst).Nodup)
    {p : Str × Str} (h : p ∈ ps) (acc : Params) :
    (ps.foldl (fun m p => m.insert p.1 p.2) acc).lookup p.1 = some p.2 := by
  induction ps generalizing acc with
  | nil => exact absurd h List.not_mem_nil
  | cons q ps ih =>
    simp only [List.map_cons, List.nodup_cons] at hnodup
    rw [List.foldl_cons]
    rcases List.mem_cons.mp h with rfl | h
    · rw [lookup_foldl_insert_of_notMem hnodup.1, AList.lookup_insert]
    · exact ih hnodup.2 h _

theorem nodup_params (r : TokenRequest) : (r.params.map Prod.fst).Nodup := by
  obtain ⟨realm, service, scope⟩ := r
  cases service <;> cases scope <;> simp [params]

/-- The map of a challenge's own parameters, inserted in any order. -/
theorem lookup_params {r : TokenRequest} {ps : List (Str × Str)} (h : ps.Perm r.params) :
    (ps.foldl (fun m p => m.insert p.1 p.2) (∅ : Params)).lookup "realm".toList = some r.realm ∧
      (ps.foldl (fun m p => m.insert p.1 p.2) (∅ : Params)).lookup "service".toList = r.service ∧
      (ps.foldl (fun m p => m.insert p.1 p.2) (∅ : Params)).lookup "scope".toList = r.scope := by
  have hnodup : (ps.map Prod.fst).Nodup := (h.map _).nodup_iff.mpr (nodup_params r)
  have hmem : ∀ p ∈ r.params,
      (ps.foldl (fun m p => m.insert p.1 p.2) (∅ : Params)).lookup p.1 = some p.2 := fun p hp =>
    lookup_foldl_insert_of_mem hnodup (h.mem_iff.mpr hp) ∅
  have hnone : ∀ k, k ∉ r.params.map Prod.fst →
      (ps.foldl (fun m p => m.insert p.1 p.2) (∅ : Params)).lookup k = none := by
    intro k hk
    rw [lookup_foldl_insert_of_notMem fun hk' => hk ((h.map _).mem_iff.mp hk')]
    rfl
  obtain ⟨realm, service, scope⟩ := r
  refine ⟨hmem ("realm".toList, realm) (by simp [params]), ?_, ?_⟩
  · cases service with
    | none => exact hnone _ (by cases scope <;> simp [params])
    | some v => exact hmem ("service".toList, v) (by simp [params])
  · cases scope with
    | none => exact hnone _ (by cases service <;> simp [params])
    | some v => exact hmem ("scope".toList, v) (by simp [params])

/-- What ends the last part ends the whole. -/
theorem intercalate_append_last (l : List Str) (a b : Str) :
    [','].intercalate (l ++ [a ++ b]) = [','].intercalate (l ++ [a]) ++ b := by
  induction l with
  | nil => simp
  | cons x l ih =>
    cases l with
    | nil => simp [List.intercalate_cons_cons]
    | cons y l =>
      simp only [List.cons_append, List.intercalate_cons_cons] at ih ⊢
      rw [ih]
      simp only [List.append_assoc]

/-- Trimming the header takes the blanks off the last parameter. -/
theorem trim_render {init : List Spaced} {last : Spaced} (hblank : last.Blank) :
    trim (render (init ++ [last])) = render (init ++ [{ last with right := [] }]) := by
  obtain ⟨start, hstart⟩ :
      ∃ start, ∀ right, ({ last with right := right } : Spaced).text = start ++ (['"'] ++ right) :=
    ⟨last.left ++ (last.param.1 ++ '=' :: '"' :: last.param.2), fun right => by simp [Spaced.text]⟩
  have hlast : last.text = start ++ (['"'] ++ last.right) := hstart last.right
  have hnone := hstart []
  unfold render
  rw [List.map_append, List.map_append, List.map_singleton, List.map_singleton, hlast, hnone,
    intercalate_append_last, intercalate_append_last, List.append_nil, ← List.append_assoc,
    ← List.append_assoc, ← List.append_assoc]
  generalize [','].intercalate (init.map Spaced.text ++ [start]) = body
  have hb := trim_between (p := isWhitespace) (l := []) (r := last.right)
    (s := "Bearer ".toList ++ body ++ ['"']) (by simp) hblank.2 ?_ ?_
  · exact hb
  · intro c hc
    have hhead : c = 'B' := by simpa using hc.symm
    rw [hhead]
    decide
  · intro c hc
    rw [List.getLast?_append] at hc
    cases hc
    decide

theorem foldl_insertParam {ps : List Spaced} (hname : ∀ p ∈ ps, IsName p.param.1)
    (hblank : ∀ p ∈ ps, p.Blank) (hquote : ∀ p ∈ ps, '"' ∉ p.param.2) (acc : Params) :
    (ps.map Spaced.text).foldl insertParam acc =
      (ps.map Spaced.param).foldl (fun m p => m.insert p.1 p.2) acc := by
  induction ps generalizing acc with
  | nil => rfl
  | cons p ps ih =>
    simp only [List.forall_mem_cons] at hname hblank hquote
    rw [List.map_cons, List.foldl_cons, insertParam_text hname.1 hblank.1 hquote.1,
      ih hname.2 hblank.2 hquote.2]
    rfl

theorem comma_notMem_text {p : Spaced} (hname : IsName p.param.1) (hblank : p.Blank)
    (hcomma : ',' ∉ p.param.2) : ',' ∉ p.text := by
  have hnotBlank : ∀ s : Str, (∀ c ∈ s, isWhitespace c = true) → ',' ∉ s := by
    intro s hs hmem
    have hcontra := hs ',' hmem
    rw [isWhitespace_comma] at hcontra
    cases hcontra
  have hl := hnotBlank p.left hblank.1
  have hr := hnotBlank p.right hblank.2
  have hn := hname.facts.2.2.1
  simp [Spaced.text, hl, hr, hn, hcomma]

theorem parse_render_of_comma_free {r : TokenRequest} {ps : List Spaced}
    (hperm : (ps.map Spaced.param).Perm r.params) (hblank : ∀ p ∈ ps, p.Blank)
    (hquote : ∀ p ∈ r.params, '"' ∉ p.2) (hcomma : ∀ p ∈ r.params, ',' ∉ p.2) :
    parse (render ps) = some r := by
  have hne : ps ≠ [] := by
    rintro rfl
    have hlength := hperm.length_eq
    simp [params] at hlength
  obtain ⟨init, last, rfl⟩ : ∃ init last, ps = init ++ [last] :=
    ⟨ps.dropLast, ps.getLast hne, (List.dropLast_append_getLast hne).symm⟩
  -- the parameters with the last blanks trimmed off
  obtain ⟨qs, hqs⟩ : ∃ qs, qs = init ++ [{ last with right := [] }] := ⟨_, rfl⟩
  have hparam : qs.map Spaced.param = (init ++ [last]).map Spaced.param := by simp [hqs]
  have hmem : ∀ q ∈ qs, q.param ∈ r.params := by
    intro q hq
    apply hperm.mem_iff.mp
    rw [← hparam]
    exact List.mem_map_of_mem hq
  have hblank' : ∀ q ∈ qs, q.Blank := by
    intro q hq
    rw [hqs, List.mem_append, List.mem_singleton] at hq
    rcases hq with hq | rfl
    · exact hblank q (List.mem_append_left _ hq)
    · exact ⟨(hblank last (by simp)).1, fun c hc => absurd hc List.not_mem_nil⟩
  have hname : ∀ q ∈ qs, IsName q.param.1 := fun q hq => isName_of_mem_params (hmem q hq)
  have htrim : trim (render (init ++ [last])) =
      "Bearer ".toList ++ [','].intercalate (qs.map Spaced.text) := by
    rw [trim_render (hblank last (by simp)), ← hqs]
    rfl
  have hsplit : ([','].intercalate (qs.map Spaced.text)).splitOn ',' = qs.map Spaced.text := by
    apply List.splitOn_intercalate
    · intro text htext
      obtain ⟨q, hq, rfl⟩ := List.mem_map.mp htext
      exact comma_notMem_text (hname q hq) (hblank' q hq) (hcomma _ (hmem q hq))
    · simp [hqs]
  obtain ⟨hrealm, hservice, hscope⟩ := lookup_params (hparam ▸ hperm)
  unfold parse
  rw [htrim, if_pos (List.isPrefixOf_iff_prefix.mpr (List.prefix_append _ _)), List.drop_left,
    readParams, hsplit, foldl_insertParam hname hblank' fun q hq => hquote _ (hmem q hq)]
  simp only [ofParams, hrealm, hservice, hscope, Option.map_some]

/-! ## What is read has no commas -/

theorem insertParam_comma_free {m : Params} {kv : Str} (hkv : ',' ∉ kv)
    (hm : ∀ k v, m.lookup k = some v → ',' ∉ v) {k v : Str}
    (h : (insertParam m kv).lookup k = some v) : ',' ∉ v := by
  unfold insertParam at h
  cases hsplit : splitOnce '=' (trim kv) with
  | none =>
    rw [hsplit] at h
    exact hm k v h
  | some q =>
    obtain ⟨k', v'⟩ := q
    rw [hsplit] at h
    simp only at h
    by_cases hk : k = trim k'
    · rw [hk, AList.lookup_insert] at h
      cases h
      intro hcomma
      have hv' : ',' ∈ v' := mem_of_mem_trim (mem_of_mem_trim hcomma)
      have htrim := (splitOnce_eq_some.mp hsplit).1
      have hmem : ',' ∈ trim kv := by simp [htrim, hv']
      exact hkv (mem_of_mem_trim hmem)
    · rw [AList.lookup_insert_ne hk] at h
      exact hm k v h

theorem foldl_insertParam_comma_free {parts : List Str} (hparts : ∀ part ∈ parts, ',' ∉ part)
    {m : Params} (hm : ∀ k v, m.lookup k = some v → ',' ∉ v) {k v : Str}
    (h : (parts.foldl insertParam m).lookup k = some v) : ',' ∉ v := by
  induction parts generalizing m with
  | nil => exact hm k v h
  | cons part parts ih =>
    simp only [List.forall_mem_cons] at hparts
    apply ih hparts.2 _ h
    intro k' v' h'
    exact insertParam_comma_free hparts.1 hm h'

theorem comma_free_of_parse {header : Str} {r : TokenRequest} (h : parse header = some r) :
    ∀ p ∈ r.params, ',' ∉ p.2 := by
  unfold parse at h
  split at h
  · have hfree : ∀ k v, (readParams ((trim header).drop "Bearer ".toList.length)).lookup k = some v →
        ',' ∉ v := by
      intro k v hv
      exact foldl_insertParam_comma_free (fun part hpart => notMem_of_mem_splitOn hpart)
        (fun k v hnone => by cases hnone) hv
    obtain ⟨realm, hrealm, rfl⟩ := Option.map_eq_some_iff.mp h
    intro p hp
    simp only [params, List.cons_append, List.mem_cons, List.mem_append, List.mem_map,
      Option.mem_toList] at hp
    rcases hp with rfl | ⟨v, hv, rfl⟩ | ⟨v, hv, rfl⟩
    · exact hfree _ _ hrealm
    · exact hfree _ _ hv
    · exact hfree _ _ hv
  · cases h

/-- A challenge without quotation marks in its values is read back, in any order and spacing,
exactly when no value contains a comma. -/
theorem parse_render_iff (r : TokenRequest) (hquote : ∀ p ∈ r.params, '"' ∉ p.2)
    (ps : List Spaced) (hperm : (ps.map Spaced.param).Perm r.params)
    (hblank : ∀ p ∈ ps, p.Blank) :
    parse (render ps) = some r ↔ ∀ p ∈ r.params, ',' ∉ p.2 :=
  ⟨comma_free_of_parse, parse_render_of_comma_free hperm hblank hquote⟩

/-! A challenge for one action, with its parameters in another order, and one for two actions. -/

def pullOnly : TokenRequest :=
  ⟨"https://auth/token".toList, some "registry".toList, some "repository:x:pull".toList⟩

def pullAndPush : TokenRequest :=
  ⟨"https://auth/token".toList, some "registry".toList, some "repository:x:pull,push".toList⟩

theorem parse_render_pullOnly :
    parse (render [⟨" ".toList, ("scope".toList, "repository:x:pull".toList), [] ⟩,
      ⟨[], ("realm".toList, "https://auth/token".toList), " ".toList⟩,
      ⟨" ".toList, ("service".toList, "registry".toList), "  ".toList⟩]) = some pullOnly := by
  apply (parse_render_iff pullOnly (by decide) _ (by decide) ?_).mpr
  · decide
  · exact blank_of_all (by decide)

/-- The scope for two actions, which has no quotation mark, is cut at its comma. -/
theorem scope_cut_at_comma :
    (∀ p ∈ pullAndPush.params, '"' ∉ p.2) ∧
      parse (render (pullAndPush.params.map fun p => ⟨[], p, []⟩)) = some pullOnly ∧
      parse (render (pullAndPush.params.map fun p => ⟨[], p, []⟩)) ≠ some pullAndPush := by
  refine ⟨?_, ?_, ?_⟩ <;> decide +kernel

end TokenRequest

end Quill.Upstream
