import FuzzerJs.Engine.Unicode

/-!
# Number literals

`js_atod` as `next_token` calls it: any radix prefix, legacy octal and underscores
accepted.  The text starts with a digit, or with a dot and a digit, so the branches for
spaces, signs and `Infinity` are not reached.

The literal is kept as it was scanned (`NumLit`).  Turning it into a double is the work
of `strtod` and of the floating point unit; all that is used of it is that a decimal
literal without point and exponent that is below `2 ^ 31` stands for that integer
(`NumLit.toInt32`).
-/

namespace FuzzerJs
namespace Engine

open Scan

/-- A scanned number literal. -/
inductive NumLit where
  /-- The text that is given to `strtod`. -/
  | decimal (text : List UInt8)
  /-- `n * radix ^ int_exp`. -/
  | radix (radix n intExp : ℕ)
  deriving DecidableEq

/-- `to_digit`. -/
def toDigit (c : UInt8) : ℕ :=
  if ch '0' ≤ c ∧ c ≤ ch '9' then c.toNat - (ch '0').toNat
  else if ch 'A' ≤ c ∧ c ≤ ch 'Z' then c.toNat - (ch 'A').toNat + 10
  else if ch 'a' ≤ c ∧ c ≤ ch 'z' then c.toNat - (ch 'a').toNat + 10
  else 36

/-- The bytes from `a` up to `b`. -/
def slice (m : Mem) (a b : ℕ) : List UInt8 := (List.range (b - a)).map fun i => m (a + i)

/-! ## Decimal literals -/

/-- The loop over digits with separators between them; `sep` says whether underscores are
accepted, and `blocked` where they are not. -/
def scanDigits (m : Mem) (sep : Bool) (blocked : Option ℕ) : ℕ → ℕ → Res ℕ
  | 0, _ => .timeout
  | fuel + 1, p =>
    if isDigit (m p) ||
        (sep && m p == ch '_' && blocked != some p && isDigit (m (p + 1))) then
      scanDigits m sep blocked fuel (p + 1)
    else .ok p

/-- Where the digits of an exponent start, after the letter `e` at `p` and a sign. -/
def exponentStart (m : Mem) (p : ℕ) : ℕ :=
  if m (p + 1) = ch '+' ∨ m (p + 1) = ch '-' then p + 2 else p + 1

/-- What follows the letter `e`; without digits it is not part of the literal. -/
def exponentDigits (m : Mem) (sep : Bool) (fuel p : ℕ) : Res ℕ :=
  if isDigit (m (exponentStart m p)) then
    scanDigits m sep none fuel (exponentStart m p + 1)
  else .ok p

/-- The exponent. -/
def scanExponent (m : Mem) (sep : Bool) (fuel start p : ℕ) : Res ℕ :=
  if start < p ∧ (m p = ch 'e' ∨ m p = ch 'E') then exponentDigits m sep fuel p else .ok p

/-- The fraction, from the point on. -/
def scanFraction (m : Mem) (sep : Bool) (fuel start p : ℕ) : Res ℕ :=
  if m p = ch '.' ∧ (start < p ∨ isDigit (m (p + 1)) = true) then
    scanDigits m sep none fuel (p + 1)
  else .ok p

/-- A decimal literal that starts at `p`, with no separator at `blocked`. -/
def scanDecimalFrom (m : Mem) (sep : Bool) (blocked : Option ℕ) (fuel p : ℕ) :
    Res (NumLit × ℕ) := do
  let p1 ← scanDigits m sep blocked fuel p
  let p2 ← scanFraction m sep fuel p p1
  let p3 ← scanExponent m sep fuel p p2
  return (.decimal ((slice m p p3).filter (· ≠ ch '_')), p3)

/-- A decimal literal: there is no separator after a single leading zero. -/
def scanDecimal (m : Mem) (sep : Bool) (fuel p : ℕ) : Res (NumLit × ℕ) :=
  scanDecimalFrom m sep (if m p = ch '0' then some (p + 1) else none) fuel p

/-! ## Literals with a radix -/

/-- Skip leading zeros. -/
def skipZeros (m : Mem) : ℕ → ℕ → Res ℕ
  | 0, _ => .timeout
  | fuel + 1, p => if m p = ch '0' then skipZeros m fuel (p + 1) else .ok p

/-- `n_max`: the largest value that takes one more digit without leaving 64 bits. -/
def nMax (radix : ℕ) : ℕ := (2 ^ 64 - 1 - (radix - 1)) / radix

/-- The address after a separator, if there is one at `p` with a digit after it. -/
def skipSep (m : Mem) (radix : ℕ) (sep : Bool) (p : ℕ) : ℕ :=
  if sep = true ∧ m p = ch '_' ∧ toDigit (m (p + 1)) < radix then p + 1 else p

/-- One turn of the loop below: the digit, if there is one, and its address. -/
def radixDigit (m : Mem) (radix : ℕ) (sep : Bool) (p : ℕ) : Option ℕ × ℕ :=
  let s := skipSep m radix sep p
  (if radix ≤ toDigit (m s) then none else some (toDigit (m s)), s)

/-- The loop over the digits of a literal with a radix. -/
def radixDigits (m : Mem) (radix : ℕ) (sep : Bool) : ℕ → ℕ → ℕ → ℕ → Res (NumLit × ℕ)
  | 0, _, _, _ => .timeout
  | fuel + 1, p, n, intExp =>
    if m p = 0 then .ok (.radix radix n intExp, p)
    else
      match radixDigit m radix sep p with
      | (none, p) => .ok (.radix radix n intExp, p)
      | (some c, p) =>
        if n ≤ nMax radix then radixDigits m radix sep fuel (p + 1) (n * radix + c) intExp
        else radixDigits m radix sep fuel (p + 1) n (intExp + 1)

/-- What follows a prefix. -/
def scanRadix (m : Mem) (radix : ℕ) (sep : Bool) (fuel p : ℕ) : Res (NumLit × ℕ) :=
  -- there must be a digit after the prefix
  if radix ≤ toDigit (m p) then .error "invalid number literal"
  else do
    let p ← skipZeros m fuel p
    radixDigits m radix sep fuel p 0 0

/-- The loop that looks for a digit `8` or `9` in a legacy octal literal. -/
def scanOctal (m : Mem) : ℕ → ℕ → Res ℕ
  | 0, _ => .timeout
  | fuel + 1, p => if isOctal (m p) then scanOctal m fuel (p + 1) else .ok p

/-- `js_atod`; its exception is reported as an invalid literal. -/
def atod (m : Mem) (fuel p : ℕ) : Res (NumLit × ℕ) :=
  if m p = ch '0' then
    if m (p + 1) = ch 'x' ∨ m (p + 1) = ch 'X' then scanRadix m 16 true fuel (p + 2)
    else if m (p + 1) = ch 'o' ∨ m (p + 1) = ch 'O' then scanRadix m 8 true fuel (p + 2)
    else if m (p + 1) = ch 'b' ∨ m (p + 1) = ch 'B' then scanRadix m 2 true fuel (p + 2)
    else if isDigit (m (p + 1)) then do
      let i ← scanOctal m fuel (p + 1)
      if m i = ch '8' ∨ m i = ch '9' then scanDecimal m false fuel p
      else scanRadix m 8 false fuel (p + 1)
    else scanDecimal m true fuel p
  else scanDecimal m true fuel p

/-! ## The integers among them -/

/-- The value of a list of digits. -/
def digitsValue (text : List UInt8) : ℕ :=
  text.foldl (fun n c => n * 10 + (c.toNat - (ch '0').toNat)) 0

/-- The value of a literal, when it is a plain decimal integer that `JS_NewFloat64` stores as
`JS_TAG_INT`. -/
def NumLit.toInt32 : NumLit → Option ℕ
  | .decimal text =>
    if text ≠ [] ∧ text.all isDigit ∧ digitsValue text < 2 ^ 31 then some (digitsValue text)
    else none
  | .radix _ _ _ => none

/-! ## No look past a zero -/

section SameTo

variable {m m' : Mem} {q : ℕ}

theorem slice_sameTo (h : SameTo m m' q) {a b : ℕ} (hb : b ≤ q) : slice m' a b = slice m a b := by
  refine List.map_congr_left fun i hi => h.read ?_
  have := List.mem_range.mp hi
  omega

theorem scanDigits_local (h : SameTo m m' q) (sep : Bool) (blocked : Option ℕ) :
    ∀ (fuel p : ℕ),
      Local (scanDigits m' sep blocked fuel p) (scanDigits m sep blocked fuel p) id p q := by
  intro fuel
  induction fuel with
  | zero => intro p; exact Local.timeout
  | succ fuel ih =>
      intro p
      refine Local.ite (fun hp => ?_) (fun _ => (ih (p + 1)).weaken (Nat.le_succ p))
        (fun _ => Local.ok le_rfl)
      rw [h.read hp]
      by_cases h0 : m p = 0
      · rw [h0, show (0 == ch '_') = false by decide]
        simp
      · rw [h.read (h.succ_le hp h0)]

theorem exponentStart_sameTo (h : SameTo m m' q) {p : ℕ} (hp : p ≤ q) (h0 : m p ≠ 0) :
    exponentStart m' p = exponentStart m p ∧ exponentStart m p ≤ q := by
  have hp1 := h.succ_le hp h0
  rw [exponentStart, exponentStart, h.read hp1]
  refine ⟨rfl, ?_⟩
  split
  · rename_i hsign
    exact h.succ_le hp1 (by rcases hsign with hs | hs <;> rw [hs] <;> decide)
  · exact hp1

theorem exponentDigits_local (h : SameTo m m' q) (sep : Bool) (fuel : ℕ) {p : ℕ}
    (h0 : m p ≠ 0) :
    Local (exponentDigits m' sep fuel p) (exponentDigits m sep fuel p) id p q := by
  have hle : p ≤ exponentStart m p := by
    rw [exponentStart]
    split <;> omega
  have hstart : p ≤ q → exponentDigits m' sep fuel p =
      if isDigit (m' (exponentStart m p)) = true then
        scanDigits m' sep none fuel (exponentStart m p + 1)
      else .ok p := by
    intro hp
    rw [exponentDigits, (exponentStart_sameTo h hp h0).1]
  refine Local.congr hstart (Local.ite (fun hp => ?_) ?_ (fun _ => Local.ok le_rfl))
  · rw [h.read (exponentStart_sameTo h hp h0).2]
  · intro _
    exact (scanDigits_local h sep none fuel _).weaken (by omega)

theorem scanExponent_local (h : SameTo m m' q) (sep : Bool) (fuel start p : ℕ) :
    Local (scanExponent m' sep fuel start p) (scanExponent m sep fuel start p) id p q := by
  refine Local.ite (fun hp => by rw [h.read hp]) ?_ (fun _ => Local.ok le_rfl)
  rintro ⟨-, he⟩
  exact exponentDigits_local h sep fuel (by rcases he with he | he <;> rw [he] <;> decide)

theorem scanFraction_local (h : SameTo m m' q) (sep : Bool) (fuel start p : ℕ) :
    Local (scanFraction m' sep fuel start p) (scanFraction m sep fuel start p) id p q := by
  refine Local.ite (fun hp => ?_)
    (fun _ => (scanDigits_local h sep none fuel (p + 1)).weaken (Nat.le_succ p))
    (fun _ => Local.ok le_rfl)
  rw [h.read hp]
  refine and_congr_right fun hdot => ?_
  rw [h.read (h.succ_le hp (by rw [hdot]; decide))]

theorem scanDecimal_local (h : SameTo m m' q) (sep : Bool) (fuel p : ℕ) :
    Local (scanDecimal m' sep fuel p) (scanDecimal m sep fuel p) Prod.snd p q := by
  have hblocked : p ≤ q → scanDecimal m' sep fuel p =
      scanDecimalFrom m' sep (if m p = ch '0' then some (p + 1) else none) fuel p := by
    intro hp
    rw [scanDecimal, h.read hp]
  refine Local.congr hblocked ?_
  refine Local.bind (scanDigits_local h sep _ fuel p) fun p1 _ => ?_
  refine Local.bind (scanFraction_local h sep fuel p p1) fun p2 _ => ?_
  refine Local.bind (scanExponent_local h sep fuel p p2) fun p3 _ => ?_
  refine Local.congr (fun hp3 => ?_) (Local.ok le_rfl)
  have hslice : slice m' p p3 = slice m p p3 := slice_sameTo h hp3
  rw [hslice, Res.pure_eq]

theorem skipZeros_local (h : SameTo m m' q) :
    ∀ (fuel p : ℕ), Local (skipZeros m' fuel p) (skipZeros m fuel p) id p q := by
  intro fuel
  induction fuel with
  | zero => intro p; exact Local.timeout
  | succ fuel ih =>
      intro p
      exact Local.ite (fun hp => by rw [h.read hp])
        (fun _ => (ih (p + 1)).weaken (Nat.le_succ p)) (fun _ => Local.ok le_rfl)

/-- The look ahead for a digit `8` or `9` stops at the zero. -/
theorem scanOctal_sameTo (h : SameTo m m' q) :
    ∀ (fuel p : ℕ), p ≤ q → scanOctal m' fuel p = scanOctal m fuel p ∧
      ∀ i, scanOctal m fuel p = .ok i → i ≤ q := by
  intro fuel
  induction fuel with
  | zero => intro p _; exact ⟨rfl, by simp [scanOctal]⟩
  | succ fuel ih =>
      intro p hp
      rw [scanOctal, scanOctal, h.read hp]
      cases ho : isOctal (m p) with
      | false =>
          refine ⟨rfl, ?_⟩
          rintro i ⟨⟩
          exact hp
      | true => exact ih (p + 1) (h.succ_le hp (isOctal_ne_zero ho))

theorem skipSep_sameTo (h : SameTo m m' q) (radix : ℕ) (sep : Bool) {p : ℕ} (hp : p ≤ q) :
    skipSep m' radix sep p = skipSep m radix sep p ∧ skipSep m radix sep p ≤ q := by
  rw [skipSep, skipSep, h.read hp]
  by_cases hu : m p = ch '_'
  · have hp1 := h.succ_le hp (by rw [hu]; decide)
    rw [h.read hp1]
    exact ⟨rfl, by split <;> omega⟩
  · simp [hu, hp]

theorem radixDigit_sameTo (h : SameTo m m' q) (radix : ℕ) (sep : Bool) {p : ℕ} (hp : p ≤ q) :
    radixDigit m' radix sep p = radixDigit m radix sep p := by
  obtain ⟨heq, hsq⟩ := skipSep_sameTo h radix sep hp
  rw [radixDigit, radixDigit, heq, h.read hsq]

theorem le_radixDigit (m : Mem) (radix : ℕ) (sep : Bool) (p : ℕ) :
    p ≤ (radixDigit m radix sep p).2 := by
  simp only [radixDigit, skipSep]
  split <;> omega

theorem radixDigits_local (h : SameTo m m' q) (radix : ℕ) (sep : Bool) :
    ∀ (fuel p n intExp : ℕ), Local (radixDigits m' radix sep fuel p n intExp)
      (radixDigits m radix sep fuel p n intExp) Prod.snd p q := by
  intro fuel
  induction fuel with
  | zero => intro p n intExp; exact Local.timeout
  | succ fuel ih =>
      intro p n intExp
      refine Local.ite (fun hp => by rw [h.read hp]) (fun _ => Local.ok le_rfl) fun _ => ?_
      refine Local.congr (fun hp => by rw [radixDigit_sameTo h radix sep hp]) ?_
      have hle := le_radixDigit m radix sep p
      cases hd : radixDigit m radix sep p with
      | mk d s =>
          rw [hd] at hle
          cases d with
          | none => exact Local.ok hle
          | some c =>
              refine Local.ite (fun _ => Iff.rfl) (fun _ => ?_) (fun _ => ?_)
              · exact (ih (s + 1) _ _).weaken (Nat.le_succ_of_le hle)
              · exact (ih (s + 1) _ _).weaken (Nat.le_succ_of_le hle)

theorem scanRadix_local (h : SameTo m m' q) (radix : ℕ) (sep : Bool) (fuel p : ℕ) :
    Local (scanRadix m' radix sep fuel p) (scanRadix m radix sep fuel p) Prod.snd p q := by
  refine Local.ite (fun hp => by rw [h.read hp]) (fun _ => Local.error) fun _ => ?_
  exact Local.bind (skipZeros_local h fuel p) fun p1 _ => radixDigits_local h radix sep fuel p1 0 0

/-- Number literals are local. -/
theorem atod_local (h : SameTo m m' q) (fuel p : ℕ) :
    Local (atod m' fuel p) (atod m fuel p) Prod.snd p q := by
  refine Local.ite (fun hp => by rw [h.read hp]) (fun hz => ?_)
    (fun _ => scanDecimal_local h true fuel p)
  have hnext : p ≤ q → m' (p + 1) = m (p + 1) := fun hp =>
    h.read (h.succ_le hp (by rw [hz]; decide))
  refine Local.ite (fun hp => by rw [hnext hp])
    (fun _ => (scanRadix_local h 16 true fuel (p + 2)).weaken (by omega)) fun _ => ?_
  refine Local.ite (fun hp => by rw [hnext hp])
    (fun _ => (scanRadix_local h 8 true fuel (p + 2)).weaken (by omega)) fun _ => ?_
  refine Local.ite (fun hp => by rw [hnext hp])
    (fun _ => (scanRadix_local h 2 true fuel (p + 2)).weaken (by omega)) fun _ => ?_
  refine Local.ite (fun hp => by rw [hnext hp]) (fun _ => ?_)
    (fun _ => scanDecimal_local h true fuel p)
  -- the digits are looked through before the literal is scanned from its start
  have hoctal : p ≤ q → _ := fun hp =>
    scanOctal_sameTo h fuel (p + 1) (h.succ_le hp (by rw [hz]; decide))
  refine Local.congr (fun hp => by rw [(hoctal hp).1]) ?_
  cases ho : scanOctal m fuel (p + 1) with
  | timeout => exact Local.timeout
  | error message => exact Local.error
  | ok i =>
      refine Local.ite (fun hp => by rw [h.read ((hoctal hp).2 i ho)])
        (fun _ => scanDecimal_local h false fuel p) (fun _ => ?_)
      exact (scanRadix_local h 8 false fuel (p + 1)).weaken (Nat.le_succ p)

end SameTo

end Engine
end FuzzerJs
