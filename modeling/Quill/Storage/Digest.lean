import Quill.Base.Hash

/-!
# Digests

`Digest` of `quill-storage`: the algorithm is always `sha256`, so a digest is its
lower-case hexadecimal text, and the type carries the shape that `Digest::parse` checks.
`parse` accepts either case of hexadecimal digits and lowers them; the rendered text of
a digest parses to the digest again (`parse_toStr`).
-/

namespace Quill

open Text

/-- Why a text is no digest. -/
inductive DigestError where
  | missingSeparator
  | unsupportedAlgorithm (algo : Str)
  | invalidHexLength (expected got : Nat)
  | invalidHex
  deriving DecidableEq

/-- A SHA-256 digest. -/
structure Digest where
  hex : Hex64
  deriving DecidableEq

namespace Digest

def algorithm : Str := "sha256".toList

theorem lower_hex {hex : Str} (hlen : utf8Len hex = 64)
    (hall : hex.all isAsciiHexdigit = true) : IsHex64 (hex.map Char.toLower) := by
  rw [utf8Len_of_hex hall] at hlen
  refine ⟨by simpa using hlen, fun c hc => ?_⟩
  obtain ⟨a, ha, rfl⟩ := List.mem_map.mp hc
  exact (isAsciiHexdigit_facts (List.all_eq_true.mp hall a ha)).2.1

/-- `Digest::parse`. -/
def parse (s : Str) : Except DigestError Digest :=
  match splitOnce ':' s with
  | none => .error .missingSeparator
  | some (algo, hex) =>
    if algo ≠ algorithm then .error (.unsupportedAlgorithm algo)
    else if hlen : utf8Len hex ≠ 64 then .error (.invalidHexLength 64 (utf8Len hex))
    else if hall : hex.all isAsciiHexdigit = true then
      .ok ⟨⟨hex.map Char.toLower, lower_hex (not_not.mp hlen) hall⟩⟩
    else .error .invalidHex

/-- The `Display` text `sha256:<hex>`. -/
def toStr (d : Digest) : Str := algorithm ++ ':' :: d.hex.val

theorem splitOnce_toStr (d : Digest) : splitOnce ':' d.toStr = some (algorithm, d.hex.val) := by
  simp [toStr, algorithm, splitOnce]

/-- The rendered text of a digest parses to that digest. -/
theorem parse_toStr (d : Digest) : parse d.toStr = .ok d := by
  obtain ⟨⟨hex, hlen, hlow⟩⟩ := d
  have hall : hex.all isAsciiHexdigit = true :=
    List.all_eq_true.mpr fun c hc => isAsciiHexdigit_of_isLowerHex (hlow c hc)
  have hmap : hex.map Char.toLower = hex := by
    refine (List.map_congr_left fun c hc => ?_).trans (List.map_id hex)
    exact (isAsciiHexdigit_facts (isAsciiHexdigit_of_isLowerHex (hlow c hc))).2.2 (hlow c hc)
  unfold parse
  rw [splitOnce_toStr]
  simp [utf8Len_of_hex hall, hlen, hall, hmap]

/-- A text that parses is the text of its digest but for the case of its letters. -/
theorem toStr_of_parse {s : Str} {d : Digest} (h : parse s = .ok d) : d.toStr = s.map Char.toLower := by
  unfold parse at h
  split at h
  · cases h
  · rename_i algo hex hsplit
    split at h
    · cases h
    · rename_i halgo
      split at h
      · cases h
      · split at h
        · cases h
          rw [(splitOnce_eq_some.mp hsplit).1, not_not.mp halgo, List.map_append]
          rfl
        · cases h

theorem toStr_injective {d d' : Digest} (h : d.toStr = d'.toStr) : d = d' := by
  have hp := parse_toStr d
  rw [h, parse_toStr] at hp
  exact (Except.ok.inj hp).symm

end Digest

end Quill
