import Mathlib.Algebra.GroupWithZero.Nat
import Mathlib.Data.List.Basic
import Mathlib.Tactic.DeriveFintype

/-!
# Strings as character lists

A Rust `str` is the list of its Unicode scalar values. The functions below are the
string operations of the standard library that a path or a header goes through:
`split_once`, `rsplit_once`, `strip_suffix`, `split('/')` (this is `List.splitOn`) and
`to_lowercase` on ASCII. `utf8Len` is `str::len`, which counts bytes.

A byte string is a list of bytes. `IsHex64` describes the lower-case hexadecimal text
of 32 bytes.
-/

namespace Quill

/-- A Rust string as its characters. -/
abbrev Str := List Char

/-- A byte string. -/
abbrev Bytes := List UInt8

namespace Text

/-- `str::len`: the number of bytes of the UTF-8 text. -/
def utf8Len (s : Str) : Nat := (s.map Char.utf8Size).sum

/-- `str::split_once` at a character. -/
def splitOnce (sep : Char) : Str → Option (Str × Str)
  | [] => none
  | c :: cs =>
    if c = sep then some ([], cs)
    else (splitOnce sep cs).map fun p => (c :: p.1, p.2)

/-- `str::rsplit_once`: split at the last occurrence of a nonempty pattern. -/
def rsplitOnce (pat : Str) : Str → Option (Str × Str)
  | [] => none
  | c :: cs =>
    match rsplitOnce pat cs with
    | some (l, r) => some (c :: l, r)
    | none => if pat.isPrefixOf (c :: cs) then some ([], (c :: cs).drop pat.length) else none

/-- `str::strip_suffix`. -/
def stripSuffix (suffix s : Str) : Option Str :=
  if suffix.isSuffixOf s then some (s.take (s.length - suffix.length)) else none

theorem stripSuffix_eq_some {suffix s t : Str} :
    stripSuffix suffix s = some t ↔ s = t ++ suffix := by
  unfold stripSuffix
  constructor
  · intro h
    split at h
    · rename_i hs
      obtain ⟨u, rfl⟩ := List.isSuffixOf_iff_suffix.mp hs
      simp only [List.length_append, Nat.add_sub_cancel, List.take_left,
        Option.some.injEq] at h
      rw [h]
    · cases h
  · rintro rfl
    have hs : suffix.isSuffixOf (t ++ suffix) = true :=
      List.isSuffixOf_iff_suffix.mpr (List.suffix_append _ _)
    simp [hs]

theorem splitOnce_eq_some {sep : Char} {s a b : Str} :
    splitOnce sep s = some (a, b) ↔ s = a ++ sep :: b ∧ sep ∉ a := by
  induction s generalizing a with
  | nil => simp [splitOnce]
  | cons c cs ih =>
    unfold splitOnce
    by_cases hc : c = sep
    · subst hc
      rw [if_pos rfl]
      constructor
      · intro h
        cases h
        exact ⟨rfl, List.not_mem_nil⟩
      · rintro ⟨h, hnot⟩
        cases a with
        | nil =>
          cases h
          rfl
        | cons d ds =>
          cases h
          exact absurd List.mem_cons_self hnot
    · rw [if_neg hc]
      constructor
      · intro h
        obtain ⟨⟨a', b'⟩, hsplit, he⟩ := Option.map_eq_some_iff.mp h
        cases he
        obtain ⟨rfl, hnot⟩ := ih.mp hsplit
        refine ⟨rfl, fun hmem => ?_⟩
        rcases List.mem_cons.mp hmem with he | hmem
        · exact hc he.symm
        · exact hnot hmem
      · rintro ⟨h, hnot⟩
        cases a with
        | nil =>
          cases h
          exact absurd rfl hc
        | cons d ds =>
          cases h
          rw [ih.mpr ⟨rfl, fun hmem => hnot (List.mem_cons_of_mem _ hmem)⟩]
          rfl

/-! ## The last separator -/

/-- A text is cut at its last separator in one way. -/
theorem cut_unique {sep : Char} {a a' b b' : Str} (h : a ++ sep :: b = a' ++ sep :: b')
    (hb : sep ∉ b) (hb' : sep ∉ b') : a = a' ∧ b = b' := by
  have hlength : b.length = b'.length := by
    have hsuffix : (sep :: b) <:+ a' ++ sep :: b' := h ▸ List.suffix_append a _
    have hsuffix' : (sep :: b') <:+ a' ++ sep :: b' := List.suffix_append a' _
    rcases Nat.lt_trichotomy b.length b'.length with hlt | heq | hgt
    · have hmem := List.suffix_of_suffix_length_le hsuffix
        ((List.suffix_cons sep b').trans hsuffix') hlt
      exact absurd (hmem.mem List.mem_cons_self) hb'
    · exact heq
    · have hmem := List.suffix_of_suffix_length_le hsuffix'
        ((List.suffix_cons sep b).trans hsuffix) hgt
      exact absurd (hmem.mem List.mem_cons_self) hb
  obtain ⟨ha, hcons⟩ := List.append_inj' h (by simp [hlength])
  exact ⟨ha, (List.cons.inj hcons).2⟩

theorem eq_of_rsplitOnce {pat s l r : Str} (h : rsplitOnce pat s = some (l, r)) :
    s = l ++ pat ++ r := by
  induction s generalizing l with
  | nil => cases h
  | cons c s ih =>
    unfold rsplitOnce at h
    cases hs : rsplitOnce pat s with
    | some q =>
      rw [hs] at h
      cases h
      rw [ih hs]
      rfl
    | none =>
      rw [hs] at h
      simp only at h
      split at h
      · rename_i hprefix
        cases h
        obtain ⟨t, ht⟩ := List.isPrefixOf_iff_prefix.mp hprefix
        rw [← ht, List.drop_left, List.nil_append]
      · cases h

/-- A pattern that ends in the last separator of a text occurs there last. -/
theorem rsplitOnce_of_cut {pat l r : Str} {sep : Char} (hr : sep ∉ r) :
    rsplitOnce (pat ++ [sep]) (l ++ (pat ++ [sep]) ++ r) = some (l, r) := by
  induction l with
  | cons c l ih =>
    rw [List.cons_append, List.cons_append, rsplitOnce, ih]
  | nil =>
    rw [List.nil_append]
    obtain ⟨c, s, hs⟩ : ∃ c s, pat ++ [sep] ++ r = c :: s :=
      List.exists_cons_of_ne_nil (by simp)
    have hnone : rsplitOnce (pat ++ [sep]) s = none := by
      cases hlater : rsplitOnce (pat ++ [sep]) s with
      | none => rfl
      | some q =>
        -- a later occurrence would put a separator into `r`
        obtain ⟨l', r'⟩ := q
        have heq : pat ++ sep :: r = (c :: l' ++ pat) ++ sep :: r' := by
          have hs' := eq_of_rsplitOnce hlater
          rw [hs'] at hs
          simpa using hs
        have hlong := congrArg List.length heq
        have hsuffix : (sep :: r') <:+ r := by
          have hwhole : (sep :: r') <:+ pat ++ sep :: r := heq ▸ List.suffix_append _ _
          apply List.suffix_of_suffix_length_le hwhole
            ((List.suffix_cons sep r).trans (List.suffix_append _ _))
          simp only [List.length_append, List.length_cons] at hlong ⊢
          omega
        exact absurd (hsuffix.mem List.mem_cons_self) hr
    have hstarts : (pat ++ [sep]).isPrefixOf (c :: s) = true :=
      List.isPrefixOf_iff_prefix.mpr (hs ▸ List.prefix_append _ _)
    rw [hs, rsplitOnce, hnone]
    simp only [hstarts, if_true]
    rw [← hs, List.drop_left]

/-! ## Trimming -/

/-- `char::is_whitespace`. -/
def isWhitespace (c : Char) : Bool :=
  (9 ≤ c.toNat && c.toNat ≤ 13) || (0x2000 ≤ c.toNat && c.toNat ≤ 0x200A) ||
    [0x20, 0x85, 0xA0, 0x1680, 0x2028, 0x2029, 0x202F, 0x205F, 0x3000].contains c.toNat

/-- `str::trim`. -/
def trim (s : Str) : Str := ((s.dropWhile isWhitespace).reverse.dropWhile isWhitespace).reverse

/-- `trim_matches` of quotation marks. -/
def trimQuotes (s : Str) : Str :=
  ((s.dropWhile (· = '"')).reverse.dropWhile (· = '"')).reverse

theorem dropWhile_of_head {p : Char → Bool} {s : Str} (h : ∀ c ∈ s.head?, p c = false) :
    s.dropWhile p = s := by
  cases s with
  | nil => rfl
  | cons c s => rw [List.dropWhile_cons_of_neg (by simp [h c rfl])]

/-- What stands between two runs of the trimmed characters is left, when it neither starts nor
ends with one. -/
theorem trim_between {p : Char → Bool} {l s r : Str} (hl : ∀ c ∈ l, p c = true)
    (hr : ∀ c ∈ r, p c = true) (hhead : ∀ c ∈ s.head?, p c = false)
    (hlast : ∀ c ∈ s.getLast?, p c = false) :
    (((l ++ s ++ r).dropWhile p).reverse.dropWhile p).reverse = s := by
  rw [List.append_assoc, List.dropWhile_append_of_pos hl]
  cases s with
  | nil =>
    have hdrop : r.dropWhile p = [] := by
      have h : (r ++ []).dropWhile p = ([] : Str).dropWhile p := List.dropWhile_append_of_pos hr
      rwa [List.append_nil] at h
    rw [List.nil_append, hdrop]
    rfl
  | cons c s =>
    rw [dropWhile_of_head (s := c :: s ++ r) (fun a ha => hhead a (by simpa using ha)),
      List.reverse_append,
      List.dropWhile_append_of_pos fun a ha => hr a (List.mem_reverse.mp ha),
      dropWhile_of_head (fun a ha => hlast a (by rwa [List.head?_reverse] at ha)),
      List.reverse_reverse]

theorem mem_of_mem_trim {p : Char → Bool} {s : Str} {c : Char}
    (h : c ∈ ((s.dropWhile p).reverse.dropWhile p).reverse) : c ∈ s := by
  have hdrop := (List.dropWhile_suffix p).mem (List.mem_reverse.mp h)
  exact (List.dropWhile_suffix p).mem (List.mem_reverse.mp hdrop)

/-- The parts between the separators have none. -/
theorem notMem_of_mem_splitOn {sep : Char} {s part : Str} (h : part ∈ s.splitOn sep) :
    sep ∉ part := by
  induction s generalizing part with
  | nil =>
    rw [List.splitOn_nil, List.mem_singleton] at h
    simp [h]
  | cons c s ih =>
    rw [List.splitOn_cons_eq_if_modifyHead] at h
    split at h
    · rcases List.mem_cons.mp h with rfl | h
      · exact List.not_mem_nil
      · exact ih h
    · rename_i hc
      cases hs : s.splitOn sep with
      | nil => simp [hs] at h
      | cons first rest =>
        rw [hs] at ih h
        rcases List.mem_cons.mp h with rfl | h
        · have hfirst := ih List.mem_cons_self
          simp only [beq_iff_eq] at hc
          simp only [List.mem_cons, not_or]
          exact ⟨fun heq => hc heq.symm, hfirst⟩
        · exact ih (List.mem_cons_of_mem _ h)

/-! ## Hexadecimal text -/

/-- A digit or one of the letters `a` to `f`. -/
def isLowerHex (c : Char) : Bool :=
  ('0' ≤ c && c ≤ '9') || ('a' ≤ c && c ≤ 'f')

/-- `char::is_ascii_hexdigit`. -/
def isAsciiHexdigit (c : Char) : Bool :=
  isLowerHex c || ('A' ≤ c && c ≤ 'F')

/-- The character of a hexadecimal digit. -/
def hexDigit (n : Nat) : Char :=
  "0123456789abcdef".toList.getD n '0'

/-- The lower-case text of `k` hexadecimal digits of `n`, most significant first. -/
def hexText : Nat → Nat → Str
  | 0, _ => []
  | k + 1, n => hexText k (n / 16) ++ [hexDigit (n % 16)]

/-- Lower-case hexadecimal text of 32 bytes. -/
def IsHex64 (s : Str) : Prop := s.length = 64 ∧ ∀ c ∈ s, isLowerHex c = true

instance (s : Str) : Decidable (IsHex64 s) :=
  decidable_of_iff (s.length = 64 ∧ s.all isLowerHex = true) (and_congr_right' List.all_eq_true)

/-- The text of a SHA-256 digest. -/
abbrev Hex64 := { s : Str // IsHex64 s }

theorem hexDigit_isLowerHex {n : Nat} (h : n < 16) : isLowerHex (hexDigit n) = true := by
  have hAll : ∀ m : Fin 16, isLowerHex (hexDigit m.val) = true := by decide
  exact hAll ⟨n, h⟩

theorem hexDigit_injective {m n : Nat} (hm : m < 16) (hn : n < 16) (h : hexDigit m = hexDigit n) :
    m = n := by
  have hAll : ∀ i j : Fin 16, hexDigit i.val = hexDigit j.val → i = j := by decide
  exact congrArg Fin.val (hAll ⟨m, hm⟩ ⟨n, hn⟩ h)

theorem hexText_injective {k m n : Nat} (hm : m < 16 ^ k) (hn : n < 16 ^ k)
    (h : hexText k m = hexText k n) : m = n := by
  induction k generalizing m n with
  | zero => omega
  | succ k ih =>
    obtain ⟨hinit, hlast⟩ := List.append_inj' h rfl
    have hdigit := hexDigit_injective (Nat.mod_lt m (by omega)) (Nat.mod_lt n (by omega))
      (List.cons.inj hlast).1
    have hrest := ih (by omega) (by omega) hinit
    omega

theorem length_hexText (k n : Nat) : (hexText k n).length = k := by
  induction k generalizing n with
  | zero => rfl
  | succ k ih => simp [hexText, ih]

theorem isLowerHex_of_mem_hexText {k n : Nat} {c : Char} (hc : c ∈ hexText k n) :
    isLowerHex c = true := by
  induction k generalizing n with
  | zero => simp [hexText] at hc
  | succ k ih =>
    rcases List.mem_append.mp hc with hc | hc
    · exact ih hc
    · rw [List.mem_singleton.mp hc]
      exact hexDigit_isLowerHex (Nat.mod_lt _ (by decide))

theorem toNat_lt_of_isAsciiHexdigit {c : Char} (h : isAsciiHexdigit c = true) :
    c.toNat < 128 := by
  simp only [isAsciiHexdigit, isLowerHex, Bool.or_eq_true, Bool.and_eq_true,
    decide_eq_true_eq] at h
  rcases h with (⟨-, h⟩ | ⟨-, h⟩) | ⟨-, h⟩
  · exact lt_of_le_of_lt (show c.toNat ≤ '9'.toNat from h) (by decide)
  · exact lt_of_le_of_lt (show c.toNat ≤ 'f'.toNat from h) (by decide)
  · exact lt_of_le_of_lt (show c.toNat ≤ 'F'.toNat from h) (by decide)

/-- A hexadecimal digit of either case is one byte long and is lowered to a lower-case digit;
a lower-case one is its own lower case. -/
theorem isAsciiHexdigit_facts {c : Char} (h : isAsciiHexdigit c = true) :
    c.utf8Size = 1 ∧ isLowerHex c.toLower = true ∧ (isLowerHex c = true → c.toLower = c) := by
  have hAll : ∀ n : Fin 128, isAsciiHexdigit (Char.ofNat n.val) = true →
      (Char.ofNat n.val).utf8Size = 1 ∧ isLowerHex (Char.ofNat n.val).toLower = true ∧
        (isLowerHex (Char.ofNat n.val) = true →
          (Char.ofNat n.val).toLower = Char.ofNat n.val) := by decide
  have := hAll ⟨c.toNat, toNat_lt_of_isAsciiHexdigit h⟩
  simp only [Char.ofNat_toNat] at this
  exact this h

theorem isAsciiHexdigit_of_isLowerHex {c : Char} (h : isLowerHex c = true) :
    isAsciiHexdigit c = true := by
  simp [isAsciiHexdigit, h]

theorem utf8Len_of_hex {s : Str} (h : s.all isAsciiHexdigit = true) : utf8Len s = s.length := by
  induction s with
  | nil => rfl
  | cons c cs ih =>
    simp only [List.all_cons, Bool.and_eq_true] at h
    have hcs := ih h.2
    simp only [utf8Len, List.map_cons, List.sum_cons, List.length_cons] at hcs ⊢
    rw [(isAsciiHexdigit_facts h.1).1, hcs]
    omega

/-- No lower-case hexadecimal digit is a dot, a slash, a dash or an underscore. -/
theorem ne_of_isLowerHex {c : Char} (h : isLowerHex c = true) :
    c ≠ '.' ∧ c ≠ '/' ∧ c ≠ '-' ∧ c ≠ '_' := by
  refine ⟨?_, ?_, ?_, ?_⟩ <;> rintro rfl <;> revert h <;> decide

end Text

end Quill
