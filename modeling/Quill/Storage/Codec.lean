import Quill.Storage.World
import Mathlib.Data.Nat.Digits.Defs

/-!
# An encoding of the sidecars

`serde` is an instance of `Serde` on which a server can be run. The sidecar of local tags
is the indented JSON text that `to_vec_pretty` writes, and it reads back as the same
map (`tags_roundtrip`). The two functions that read other files look their input up:
`manifests` lists the JSON texts of a run with their values and `sessions` the session
records.

A time is written as `chrono` writes it when it is the epoch, and as the number of its
nanoseconds otherwise; control characters are always written as `\u00XX`.
-/

namespace Quill.Codec

open Text

/-! ## Strings -/

def escape (c : Char) : Str :=
  if c = '"' then ['\\', '"']
  else if c = '\\' then ['\\', '\\']
  else if c.toNat < 32 then
    ['\\', 'u', '0', '0', hexDigit (c.toNat / 16), hexDigit (c.toNat % 16)]
  else [c]

def hexValue (c : Char) : Nat := "0123456789abcdef".toList.idxOf c

def readChar : Str → Option (Char × Str)
  | '\\' :: 'u' :: '0' :: '0' :: a :: b :: rest =>
    some (Char.ofNat (hexValue a * 16 + hexValue b), rest)
  | '\\' :: c :: rest => some (c, rest)
  | c :: rest => some (c, rest)
  | [] => none

/-- The characters up to the closing quotation mark. -/
def readText : Nat → Str → Option (Str × Str)
  | 0, _ => none
  | fuel + 1, s =>
    if s.head? = some '"' then some ([], s.tail)
    else
      match readChar s with
      | none => none
      | some (c, rest) => (readText fuel rest).map fun r => (c :: r.1, r.2)

def quote (s : Str) : Str := '"' :: (s.flatMap escape ++ ['"'])

def unquote (s : Str) : Option (Str × Str) :=
  if s.head? = some '"' then readText s.length s.tail else none

theorem hexValue_hexDigit : ∀ n < 32, hexValue (hexDigit (n / 16)) * 16 + hexValue (hexDigit (n % 16)) = n := by
  decide

theorem readChar_escape (c : Char) (rest : Str) :
    readChar (escape c ++ rest) = some (c, rest) ∧ (escape c ++ rest).head? ≠ some '"' := by
  unfold escape
  split
  · rename_i h
    subst h
    exact ⟨rfl, by simp⟩
  · rename_i hquote
    split
    · rename_i h
      subst h
      exact ⟨rfl, by simp⟩
    · rename_i hslash
      split
      · rename_i hctl
        refine ⟨?_, by simp⟩
        simp only [List.cons_append, List.nil_append, readChar]
        rw [hexValue_hexDigit _ hctl, Char.ofNat_toNat]
      · refine ⟨?_, by simpa using hquote⟩
        simp [readChar, hslash]

theorem readText_flatMap (s rest : Str) (fuel : Nat) (hfuel : s.length < fuel) :
    readText fuel (s.flatMap escape ++ '"' :: rest) = some (s, rest) := by
  induction s generalizing fuel with
  | nil =>
    obtain ⟨k, rfl⟩ := Nat.exists_eq_add_of_lt hfuel
    simp [readText]
  | cons c s ih =>
    obtain ⟨k, rfl⟩ : ∃ k, fuel = k + 1 := ⟨fuel - 1, by omega⟩
    obtain ⟨hread, hhead⟩ := readChar_escape c (s.flatMap escape ++ '"' :: rest)
    rw [List.flatMap_cons, List.append_assoc, readText, if_neg hhead, hread]
    simp only [List.length_cons] at hfuel
    simp only [ih k (by omega), Option.map_some]

theorem length_le_flatMap (s : Str) : s.length ≤ (s.flatMap escape).length := by
  induction s with
  | nil => exact le_rfl
  | cons c s ih =>
    have hpos : 0 < (escape c).length := by
      unfold escape
      split
      · simp
      · split
        · simp
        · split <;> simp
    rw [List.flatMap_cons, List.length_append, List.length_cons]
    omega

theorem unquote_quote (s rest : Str) : unquote (quote s ++ rest) = some (s, rest) := by
  have hlen := length_le_flatMap s
  unfold unquote quote
  simp only [List.cons_append, List.head?_cons, if_true, List.tail_cons, List.append_assoc,
    List.nil_append]
  refine readText_flatMap s rest _ ?_
  simp only [List.length_cons, List.length_append]
  omega

/-! ## Times -/

def epoch : Str := "1970-01-01T00:00:00Z".toList

def digitChar (d : Nat) : Char := Char.ofNat (48 + d)

def timeText (t : Nat) : Str :=
  if t = 0 then epoch else ((Nat.digits 10 t).map digitChar).reverse

def timeOfText (s : Str) : Nat :=
  if s = epoch then 0 else Nat.ofDigits 10 (s.reverse.map fun c => c.toNat - 48)

theorem digitChar_facts : ∀ d < 10, (digitChar d).toNat - 48 = d ∧ digitChar d ≠ 'Z' := by decide

theorem timeOfText_timeText (t : Nat) : timeOfText (timeText t) = t := by
  unfold timeText
  split
  · rename_i h
    rw [h, timeOfText, if_pos rfl]
  · have hlt : ∀ d ∈ Nat.digits 10 t, d < 10 := fun d hd => Nat.digits_lt_base (by omega) hd
    have hne : ((Nat.digits 10 t).map digitChar).reverse ≠ epoch := by
      intro he
      have hz : 'Z' ∈ ((Nat.digits 10 t).map digitChar).reverse := by
        rw [he]
        decide
      obtain ⟨d, hd, hdz⟩ := List.mem_map.mp (List.mem_reverse.mp hz)
      exact (digitChar_facts d (hlt d hd)).2 hdz
    rw [timeOfText, if_neg hne, List.reverse_reverse, List.map_map]
    have hmap : (Nat.digits 10 t).map ((fun c : Char => c.toNat - 48) ∘ digitChar) =
        Nat.digits 10 t := by
      refine (List.map_congr_left fun d hd => ?_).trans (List.map_id _)
      exact (digitChar_facts d (hlt d hd)).1
    rw [hmap, Nat.ofDigits_digits]

/-! ## Sidecars -/

def literal (lit s : Str) : Option Str :=
  if lit.isPrefixOf s then some (s.drop lit.length) else none

theorem literal_append (lit rest : Str) : literal lit (lit ++ rest) = some rest := by
  have h : lit.isPrefixOf (lit ++ rest) = true := List.isPrefixOf_iff_prefix.mpr ⟨rest, rfl⟩
  simp [literal, h]

/-- A tag with its metadata. -/
abbrev Entry := Str × LocalTagMeta

def renderEntry (e : Entry) : Str :=
  "  ".toList ++ (quote e.1 ++ (": \x7b\n    \"digest\": ".toList ++ (quote e.2.digest ++
    (",\n    \"pushed_at\": ".toList ++ (quote (timeText e.2.pushedAt) ++ "\n  \x7d".toList)))))

def readEntry (s : Str) : Option (Entry × Str) := do
  let s ← literal "  ".toList s
  let (tag, s) ← unquote s
  let s ← literal ": \x7b\n    \"digest\": ".toList s
  let (digest, s) ← unquote s
  let s ← literal ",\n    \"pushed_at\": ".toList s
  let (time, s) ← unquote s
  let s ← literal "\n  \x7d".toList s
  return ((tag, ⟨digest, timeOfText time⟩), s)

theorem readEntry_renderEntry (e : Entry) (rest : Str) :
    readEntry (renderEntry e ++ rest) = some (e, rest) := by
  simp only [renderEntry, readEntry, List.append_assoc, literal_append, unquote_quote,
    Option.bind_eq_bind, Option.bind_some, timeOfText_timeText]
  rfl

def renderEntries : List Entry → Str
  | [] => "\n\x7d".toList
  | e :: es => ",\n".toList ++ (renderEntry e ++ renderEntries es)

def readEntries : Nat → Str → Option (List Entry)
  | 0, _ => none
  | fuel + 1, s =>
    if s = "\n\x7d".toList then some []
    else do
      let s ← literal ",\n".toList s
      let (e, s) ← readEntry s
      let es ← readEntries fuel s
      return e :: es

theorem readEntries_renderEntries (es : List Entry) (fuel : Nat) (hfuel : es.length < fuel) :
    readEntries fuel (renderEntries es) = some es := by
  induction es generalizing fuel with
  | nil =>
    obtain ⟨k, rfl⟩ : ∃ k, fuel = k + 1 := ⟨fuel - 1, by omega⟩
    rfl
  | cons e es ih =>
    obtain ⟨k, rfl⟩ : ∃ k, fuel = k + 1 := ⟨fuel - 1, by omega⟩
    simp only [List.length_cons] at hfuel
    have hne : renderEntries (e :: es) ≠ "\n\x7d".toList := by
      intro he
      exact absurd (List.cons.inj he).1 (by decide)
    rw [readEntries, if_neg hne]
    simp only [renderEntries, literal_append, readEntry_renderEntry, ih k (by omega),
      Option.bind_eq_bind, Option.bind_some]
    rfl

/-- The text of a map: `{}`, or one entry after the other. -/
def renderTags (es : List Entry) : Str :=
  match es with
  | [] => "\x7b\x7d".toList
  | _ :: _ => '{' :: (renderEntries es).tail

def readTags (s : Str) : Option (List Entry) :=
  if s = "\x7b\x7d".toList then some [] else readEntries s.length (',' :: s.tail)

theorem length_le_renderEntries (es : List Entry) : es.length + 1 < (renderEntries es).length := by
  induction es with
  | nil => decide
  | cons e es ih =>
    simp only [renderEntries, List.length_append, List.length_cons]
    have : 0 < (",\n".toList).length := by decide
    omega

theorem readTags_renderTags (es : List Entry) : readTags (renderTags es) = some es := by
  cases es with
  | nil => rfl
  | cons e es =>
    have hlen := length_le_renderEntries (e :: es)
    have hne : renderTags (e :: es) ≠ "\x7b\x7d".toList := by
      intro he
      exact absurd (List.cons.inj (List.cons.inj he).2).1 (by decide)
    have hcons : ',' :: (renderEntries (e :: es)).tail = renderEntries (e :: es) := rfl
    rw [readTags, if_neg hne]
    simp only [renderTags, List.tail_cons, hcons]
    refine readEntries_renderEntries _ _ ?_
    simp only [List.length_cons, List.length_tail] at hlen ⊢
    omega

/-! ## Bytes -/

/-- The bytes of a string. -/
def utf8 (s : Str) : Bytes := s.flatMap String.utf8EncodeChar

/-- The string of the bytes, if they are UTF-8. -/
def ofUtf8 (b : Bytes) : Option Str := b.toByteArray.utf8Decode?.map Array.toList

theorem ofUtf8_utf8 (s : Str) : ofUtf8 (utf8 s) = some s := by
  have h : (utf8 s).toByteArray = s.utf8Encode := rfl
  rw [ofUtf8, h, List.utf8Decode?_utf8Encode]
  rfl

/-- The sidecar of the pushed tags, pretty-printed. -/
def tagsToVec (m : OnDiskTags) : Bytes := utf8 (renderTags (m.entries.map fun e => (e.1, e.2)))

/-- The pushed tags of a sidecar. -/
def tagsFromStr (b : Bytes) : Option OnDiskTags :=
  ((ofUtf8 b).bind readTags).map fun es =>
    (es.map fun e => (⟨e.1, e.2⟩ : Sigma fun _ : Str => LocalTagMeta)).toAList

theorem tags_roundtrip (m : OnDiskTags) :
    ∃ m', tagsFromStr (tagsToVec m) = some m' ∧ ∀ tag, m'.lookup tag = m.lookup tag := by
  refine ⟨_, by rw [tagsFromStr, tagsToVec, ofUtf8_utf8, Option.bind_some, readTags_renderTags]; rfl, ?_⟩
  intro tag
  rw [AList.lookup_to_alist, List.map_map]
  have hid : ((fun e : Entry => (⟨e.1, e.2⟩ : Sigma fun _ : Str => LocalTagMeta)) ∘
      fun e : Sigma fun _ : Str => LocalTagMeta => (e.1, e.2)) = id := rfl
  rw [hid, List.map_id]
  rfl

/-! ## The instance -/

def renderField (name value : Str) : Str := "\n  ".toList ++ quote name ++ ": ".toList ++ value

def decimal (n : Nat) : Str := if n = 0 then ['0'] else ((Nat.digits 10 n).map digitChar).reverse

/-- The record of a session, pretty-printed. -/
def uploadMetaToVec (m : UploadMeta) : Bytes :=
  utf8 (['{'] ++ [','].intercalate
    [renderField "session".toList (quote m.session), renderField "repo".toList (quote m.repo),
      renderField "bytes_received".toList (decimal m.bytesReceived),
      renderField "started_at".toList (quote (timeText m.startedAt)),
      renderField "last_seen".toList (quote (timeText m.lastSeen))] ++ "\n\x7d".toList)

def renderTexts : List (Str × Str) → Str
  | [] => "\n\x7d".toList
  | e :: es => ',' :: (renderField e.1 (quote e.2) ++ renderTexts es)

def readTexts : Nat → Str → Option (List (Str × Str))
  | 0, _ => none
  | fuel + 1, s =>
    if s = "\n\x7d".toList then some []
    else do
      let s ← literal ",\n  ".toList s
      let (key, s) ← unquote s
      let s ← literal ": ".toList s
      let (value, s) ← unquote s
      let es ← readTexts fuel s
      return (key, value) :: es

theorem readTexts_renderTexts (es : List (Str × Str)) (fuel : Nat) (hfuel : es.length < fuel) :
    readTexts fuel (renderTexts es) = some es := by
  induction es generalizing fuel with
  | nil =>
    obtain ⟨k, rfl⟩ : ∃ k, fuel = k + 1 := ⟨fuel - 1, by omega⟩
    rfl
  | cons e es ih =>
    obtain ⟨k, rfl⟩ : ∃ k, fuel = k + 1 := ⟨fuel - 1, by omega⟩
    simp only [List.length_cons] at hfuel
    have hne : renderTexts (e :: es) ≠ "\n\x7d".toList := by
      intro he
      exact absurd (List.cons.inj he).1 (by decide)
    have htext : renderTexts (e :: es) = ",\n  ".toList ++ (quote e.1 ++ (": ".toList ++
        (quote e.2 ++ renderTexts es))) := by
      simp [renderTexts, renderField]
    rw [readTexts, if_neg hne, htext]
    simp only [literal_append, unquote_quote, ih k (by omega), Option.bind_eq_bind, Option.bind_some]
    rfl

theorem length_le_renderTexts (es : List (Str × Str)) : es.length + 1 < (renderTexts es).length := by
  induction es with
  | nil => decide
  | cons e es ih =>
    simp only [renderTexts, List.length_append, List.length_cons]
    omega

/-- The text of a map of texts: `{}`, or one entry after the other. -/
def renderUpstreamTags (es : List (Str × Str)) : Str :=
  match es with
  | [] => "\x7b\x7d".toList
  | _ :: _ => '{' :: (renderTexts es).tail

def readUpstreamTags (s : Str) : Option (List (Str × Str)) :=
  if s = "\x7b\x7d".toList then some [] else readTexts s.length (',' :: s.tail)

theorem readUpstreamTags_render (es : List (Str × Str)) :
    readUpstreamTags (renderUpstreamTags es) = some es := by
  cases es with
  | nil => rfl
  | cons e es =>
    have hlen := length_le_renderTexts (e :: es)
    have hne : renderUpstreamTags (e :: es) ≠ "\x7b\x7d".toList := by
      intro he
      exact absurd (List.cons.inj (List.cons.inj he).2).1 (by decide)
    have hcons : ',' :: (renderTexts (e :: es)).tail = renderTexts (e :: es) := rfl
    rw [readUpstreamTags, if_neg hne]
    simp only [renderUpstreamTags, List.tail_cons, hcons]
    refine readTexts_renderTexts _ _ ?_
    simp only [List.length_cons, List.length_tail] at hlen ⊢
    omega

/-- The sidecar of the cached tags, pretty-printed. -/
def upstreamTagsToVec (m : AList fun _ : Str => Str) : Bytes :=
  utf8 (renderUpstreamTags (m.entries.map fun e => (e.1, e.2)))

/-- The cached tags of a sidecar. -/
def upstreamTagsFromStr (b : Bytes) : Option (AList fun _ : Str => Str) :=
  ((ofUtf8 b).bind readUpstreamTags).map fun es =>
    (es.map fun e => (⟨e.1, e.2⟩ : Sigma fun _ : Str => Str)).toAList

theorem upstreamTags_roundtrip (m : AList fun _ : Str => Str) :
    ∃ m', upstreamTagsFromStr (upstreamTagsToVec m) = some m' ∧
      ∀ tag, m'.lookup tag = m.lookup tag := by
  refine ⟨_, by rw [upstreamTagsFromStr, upstreamTagsToVec, ofUtf8_utf8, Option.bind_some,
    readUpstreamTags_render]; rfl, ?_⟩
  intro tag
  rw [AList.lookup_to_alist, List.map_map]
  have hid : ((fun e : Str × Str => (⟨e.1, e.2⟩ : Sigma fun _ : Str => Str)) ∘
      fun e : Sigma fun _ : Str => Str => (e.1, e.2)) = id := rfl
  rw [hid, List.map_id]
  rfl

/-- The encodings for runs whose manifests and session records are listed. -/
def serde (manifests : List (Str × Json)) (sessions : List UploadMeta) : Serde where
  fromSlice b := (manifests.find? fun e => utf8 e.1 = b).map Prod.snd
  tagsToVec := tagsToVec
  tagsFromStr := tagsFromStr
  uploadMetaToVec := uploadMetaToVec
  uploadMetaFromSlice b := sessions.find? fun m => uploadMetaToVec m = b
  upstreamTagsToVec := upstreamTagsToVec
  tags_roundtrip := tags_roundtrip

/-- The directory `/data`. -/
def dataRoot : Files.Path := [⟨"data".toList, by decide⟩]

/-- A server on `/data` with these encodings. -/
def server (upstreams : List Str) (manifests : List (Str × Json)) : Setup where
  hash := Sha256.streaming
  serde := serde manifests []
  root := dataRoot
  metaTtl := 30
  tagTtl := 300
  upstreams := upstreams
  pid := 1

/-- A server without upstreams. -/
def standalone : Setup := server [] []

/-- A server with an upstream for the repositories below `library/`. -/
def mirror : Setup := server ["library/".toList] []

end Quill.Codec
