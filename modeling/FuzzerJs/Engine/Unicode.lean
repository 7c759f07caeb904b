import FuzzerJs.Lib.Scan

/-!
# Characters: UTF-8, escapes and identifiers

The character level of the tokenizer: `unicode_from_utf8` and `unicode_to_utf8` of
`cutils.c`, `lre_parse_escape` of `libregexp.c`, and the classification of characters
that may start or continue an identifier.  The Unicode tables behind the latter
(`lre_is_id_start`, `lre_is_id_continue`, `lre_is_space`) are parameters, `Tables`.

None of these functions looks past a zero byte, which is what the lemmas named
`..._sameTo` say.
-/

namespace FuzzerJs
namespace Engine

open Scan

/-! ## Bytes -/

/-- The code of an ASCII character. -/
def ch (c : Char) : UInt8 := UInt8.ofNat c.toNat

/-- `is_digit`. -/
def isDigit (c : UInt8) : Bool := ch '0' ≤ c && c ≤ ch '9'

/-- `from_hex`, where `none` is the result `-1`. -/
def fromHex (c : UInt8) : Option ℕ :=
  if ch '0' ≤ c ∧ c ≤ ch '9' then some (c.toNat - (ch '0').toNat)
  else if ch 'A' ≤ c ∧ c ≤ ch 'F' then some (c.toNat - (ch 'A').toNat + 10)
  else if ch 'a' ≤ c ∧ c ≤ ch 'f' then some (c.toNat - (ch 'a').toNat + 10)
  else none

theorem fromHex_zero : fromHex 0 = none := by decide

/-! ## UTF-8 -/

/-- The number of continuation bytes that a leading byte announces. -/
def utf8Length (c : ℕ) : Option ℕ :=
  if 0xc0 ≤ c ∧ c ≤ 0xdf then some 1
  else if 0xe0 ≤ c ∧ c ≤ 0xef then some 2
  else if 0xf0 ≤ c ∧ c ≤ 0xf7 then some 3
  else if 0xf8 ≤ c ∧ c ≤ 0xfb then some 4
  else if 0xfc ≤ c ∧ c ≤ 0xfd then some 5
  else none

/-- `utf8_min_code[l - 1]`. -/
def utf8MinCode (l : ℕ) : ℕ := [0x80, 0x800, 0x10000, 0x00200000, 0x04000000].getD (l - 1) 0

/-- `utf8_first_code_mask[l - 1]`. -/
def utf8FirstCodeMask (l : ℕ) : ℕ := [0x1f, 0xf, 0x7, 0x3, 0x1].getD (l - 1) 0

/-- The loop over the continuation bytes. -/
def utf8Continue (m : Mem) (p : ℕ) : ℕ → ℕ → Option ℕ
  | 0, c => some c
  | l + 1, c =>
    let b := (m p).toNat
    if b < 0x80 ∨ 0xc0 ≤ b then none else utf8Continue m (p + 1) l (c <<< 6 ||| b &&& 0x3f)

/-- `unicode_from_utf8` with `max_len = UTF8_CHAR_LEN_MAX`: the character and the address after
it, or `none` for the result `-1`, which leaves the address unset. -/
def unicodeFromUtf8 (m : Mem) (p : ℕ) : Option (ℕ × ℕ) :=
  let c := (m p).toNat
  if c < 0x80 then some (c, p + 1)
  else
    match utf8Length c with
    | none => none
    | some l =>
      match utf8Continue m (p + 1) l (c &&& utf8FirstCodeMask l) with
      | none => none
      | some c => if c < utf8MinCode l then none else some (c, p + 1 + l)

/-- `unicode_to_utf8`. -/
def unicodeToUtf8 (c : ℕ) : List UInt8 :=
  let tail (shift : ℕ) : UInt8 := UInt8.ofNat ((c >>> shift) &&& 0x3f ||| 0x80)
  if c < 0x80 then [UInt8.ofNat c]
  else if c < 0x800 then [UInt8.ofNat (c >>> 6 ||| 0xc0), tail 0]
  else if c < 0x10000 then [UInt8.ofNat (c >>> 12 ||| 0xe0), tail 6, tail 0]
  else if c < 0x00200000 then [UInt8.ofNat (c >>> 18 ||| 0xf0), tail 12, tail 6, tail 0]
  else if c < 0x04000000 then
    [UInt8.ofNat (c >>> 24 ||| 0xf8), tail 18, tail 12, tail 6, tail 0]
  else if c < 0x80000000 then
    [UInt8.ofNat (c >>> 30 ||| 0xfc), tail 24, tail 18, tail 12, tail 6, tail 0]
  else []

/-- `string_buffer_putc`: a character as code units. -/
def codeUnitsOf (c : ℕ) : List UInt16 :=
  if c < 0x10000 then [UInt16.ofNat c]
  else
    let c := c - 0x10000
    [UInt16.ofNat ((c >>> 10) + 0xd800), UInt16.ofNat ((c &&& 0x3ff) + 0xdc00)]

example : codeUnitsOf 0x1f600 = [0xd83d, 0xde00] := by decide

/-- `CP_LS`. -/
def cpLS : ℕ := 0x2028

/-- `CP_PS`. -/
def cpPS : ℕ := 0x2029

/-! ## Identifiers -/

/-- The Unicode tables, for characters from 128 on; the result `-1` of a failed decoding reaches
them as `0xffffffff`. -/
structure Tables where
  isIdStart : ℕ → Bool
  isIdContinue : ℕ → Bool
  isSpace : ℕ → Bool

/-- `(uint32_t)-1`, what an invalid character is looked up as. -/
def invalidChar : ℕ := 0xffffffff

/-- `lre_id_start_table_ascii`: `$`, letters and `_`. -/
def isIdStartAscii (c : ℕ) : Bool :=
  c = 0x24 || c = 0x5f || (0x41 ≤ c && c ≤ 0x5a) || (0x61 ≤ c && c ≤ 0x7a)

/-- `lre_id_continue_table_ascii`: the same and the digits. -/
def isIdContinueAscii (c : ℕ) : Bool := isIdStartAscii c || (0x30 ≤ c && c ≤ 0x39)

/-- `lre_js_is_ident_first`. -/
def isIdentFirst (T : Tables) (c : ℕ) : Bool :=
  if c < 128 then isIdStartAscii c else T.isIdStart c

/-- `lre_js_is_ident_next`. -/
def isIdentNext (T : Tables) (c : ℕ) : Bool :=
  if c < 128 then isIdContinueAscii c else T.isIdContinue c || c = 0x200c || c = 0x200d

/-! ## Escapes -/

/-- The result of `lre_parse_escape`: the character and the address after it, `-1` or `-2`. -/
inductive Escape where
  | char (c next : ℕ)
  /-- `-1`: malformed escape. -/
  | malformed
  /-- `-2`: not an escape. -/
  | none
  deriving DecidableEq

/-- The loop after `\\u{`. -/
def escapeBraces (m : Mem) : ℕ → ℕ → ℕ → Res Escape
  | 0, _, _ => .timeout
  | fuel + 1, p, c =>
    match fromHex (m p) with
    | .none => .ok .malformed
    | some h =>
      let c := c <<< 4 ||| h
      if 0x10ffff < c then .ok .malformed
      else if m (p + 1) = ch '\x7d' then .ok (.char c (p + 2))
      else escapeBraces m fuel (p + 1) c

/-- The loop over `n` hexadecimal digits. -/
def escapeHex (m : Mem) : ℕ → ℕ → ℕ → Escape
  | 0, p, c => .char c p
  | n + 1, p, c =>
    match fromHex (m p) with
    | .none => .malformed
    | some h => escapeHex m n (p + 1) (c <<< 4 ||| h)

/-- Whether a byte is `0`, ..., `7`. -/
def isOctal (c : UInt8) : Bool := ch '0' ≤ c && c ≤ ch '7'

/-- A legacy octal sequence of one to three digits. -/
def escapeOctal (m : Mem) (p : ℕ) : Escape :=
  let digit (p : ℕ) : ℕ := (m p).toNat - (ch '0').toNat
  let c := digit p
  if !isOctal (m (p + 1)) then .char c (p + 1)
  else
    let c := c <<< 3 ||| digit (p + 1)
    if 32 ≤ c then .char c (p + 2)
    else if !isOctal (m (p + 2)) then .char c (p + 2)
    else .char (c <<< 3 ||| digit (p + 2)) (p + 3)

/-- The escapes of one letter. -/
def escapeLetter (c : UInt8) : Option ℕ :=
  if c = ch 'b' then some 0x08
  else if c = ch 'f' then some 0x0c
  else if c = ch 'n' then some 0x0a
  else if c = ch 'r' then some 0x0d
  else if c = ch 't' then some 0x09
  else if c = ch 'v' then some 0x0b
  else .none

/-- The escapes `\x` and `\u`, where `p` is the address after the letter and `n` the number of
digits that it calls for. -/
def escapeUnicode (m : Mem) (fuel n p : ℕ) : Res Escape :=
  if m p = ch '\x7b' then escapeBraces m fuel (p + 1) 0 else .ok (escapeHex m n p 0)

/-- `lre_parse_escape` with `allow_utf16 = 1`; `p` is the address after the backslash. -/
def parseEscape (m : Mem) (fuel p : ℕ) : Res Escape :=
  let c := m p
  match escapeLetter c with
  | some e => .ok (.char e (p + 1))
  | .none =>
    if c = ch 'x' then escapeUnicode m fuel 2 (p + 1)
    else if c = ch 'u' then escapeUnicode m fuel 4 (p + 1)
    else if isOctal c then .ok (escapeOctal m p)
    else .ok .none

/-! ## No look past a zero -/

section SameTo

variable {m m' : Mem} {q : ℕ}

theorem utf8Continue_sameTo (h : SameTo m m' q) :
    ∀ (l p c : ℕ), p ≤ q → utf8Continue m' p l c = utf8Continue m p l c := by
  intro l
  induction l with
  | zero => intro p c _; rfl
  | succ l ih =>
      intro p c hp
      rw [utf8Continue, utf8Continue, h.read hp]
      by_cases hb : (m p).toNat < 0x80 ∨ 0xc0 ≤ (m p).toNat
      · simp [hb]
      · have hne : m p ≠ 0 := by
          intro h0
          rw [h0] at hb
          exact hb (Or.inl (by decide))
        simp only [hb, if_false]
        exact ih (p + 1) _ (h.succ_le hp hne)

theorem unicodeFromUtf8_sameTo (h : SameTo m m' q) {p : ℕ} (hp : p ≤ q) :
    unicodeFromUtf8 m' p = unicodeFromUtf8 m p := by
  rw [unicodeFromUtf8, unicodeFromUtf8, h.read hp]
  by_cases hc : (m p).toNat < 0x80
  · simp [hc]
  · have hne : m p ≠ 0 := by
      intro h0
      rw [h0] at hc
      exact hc (by decide)
    simp only [hc, if_false, utf8Continue_sameTo h _ _ _ (h.succ_le hp hne)]

theorem fromHex_ne_zero {c : UInt8} {n : ℕ} (h : fromHex c = some n) : c ≠ 0 := by
  rintro rfl
  rw [fromHex_zero] at h
  exact absurd h (by simp)

theorem escapeBraces_sameTo (h : SameTo m m' q) :
    ∀ (fuel p c : ℕ), p ≤ q → escapeBraces m' fuel p c = escapeBraces m fuel p c := by
  intro fuel
  induction fuel with
  | zero => intro p c _; rfl
  | succ fuel ih =>
      intro p c hp
      rw [escapeBraces, escapeBraces, h.read hp]
      cases hx : fromHex (m p) with
      | none => rfl
      | some x =>
          have hp1 := h.succ_le hp (fromHex_ne_zero hx)
          simp only [h.read hp1, ih (p + 1) _ hp1]

theorem escapeHex_sameTo (h : SameTo m m' q) :
    ∀ (n p c : ℕ), p ≤ q → escapeHex m' n p c = escapeHex m n p c := by
  intro n
  induction n with
  | zero => intro p c _; rfl
  | succ n ih =>
      intro p c hp
      rw [escapeHex, escapeHex, h.read hp]
      cases hx : fromHex (m p) with
      | none => rfl
      | some x => exact ih (p + 1) _ (h.succ_le hp (fromHex_ne_zero hx))

theorem isOctal_ne_zero {c : UInt8} (h : isOctal c = true) : c ≠ 0 := by
  rintro rfl
  exact absurd h (by decide)

theorem escapeOctal_sameTo (h : SameTo m m' q) {p : ℕ} (hp : p ≤ q)
    (ho : isOctal (m p) = true) : escapeOctal m' p = escapeOctal m p := by
  have hp1 := h.succ_le hp (isOctal_ne_zero ho)
  simp only [escapeOctal, h.read hp, h.read hp1]
  cases h1 : isOctal (m (p + 1)) with
  | false => rfl
  | true =>
      have hp2 := h.succ_le hp1 (isOctal_ne_zero h1)
      simp only [h.read hp2]

theorem escapeUnicode_sameTo (h : SameTo m m' q) (fuel n : ℕ) {p : ℕ} (hp : p ≤ q) :
    escapeUnicode m' fuel n p = escapeUnicode m fuel n p := by
  rw [escapeUnicode, escapeUnicode, h.read hp]
  by_cases hb : m p = ch '\x7b'
  · have hp1 := h.succ_le hp (by rw [hb]; decide)
    rw [if_pos hb, if_pos hb, escapeBraces_sameTo h fuel _ _ hp1]
  · rw [if_neg hb, if_neg hb, escapeHex_sameTo h _ _ _ hp]

theorem parseEscape_sameTo (h : SameTo m m' q) (fuel : ℕ) {p : ℕ} (hp : p ≤ q) :
    parseEscape m' fuel p = parseEscape m fuel p := by
  simp only [parseEscape, h.read hp]
  cases escapeLetter (m p) with
  | some e => rfl
  | none =>
      by_cases hx : m p = ch 'x'
      · have hp1 := h.succ_le hp (by rw [hx]; decide)
        simp only [hx, if_true, escapeUnicode_sameTo h fuel 2 hp1]
      by_cases hu : m p = ch 'u'
      · have hp1 := h.succ_le hp (by rw [hu]; decide)
        simp only [hu, if_true, escapeUnicode_sameTo h fuel 4 hp1]
        rfl
      cases ho : isOctal (m p) with
      | false => simp [hx, hu]
      | true => simp only [hx, hu, if_false, escapeOctal_sameTo h hp ho]

end SameTo

end Engine
end FuzzerJs
