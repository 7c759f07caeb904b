import FuzzerJs.Engine.Number

/-!
# String literals and template parts

`js_parse_string` as `next_token` calls it (with a single or double quote, in code and not
in JSON), and `js_parse_template_part`.  Both are told where the buffer ends and refuse to
go on from there, but not every byte they look at is checked against that end, and a zero
byte inside the buffer is an ordinary character to them.
-/

namespace FuzzerJs
namespace Engine

open Scan

/-! ## Strings -/

/-- What one turn of the loop of `js_parse_string` does. -/
inductive StringStep where
  /-- The closing quote. -/
  | close (next : ℕ)
  /-- A character. -/
  | put (c next : ℕ)
  /-- An escaped line terminator, which counts as `lines` lines. -/
  | skip (next lines : ℕ)
  deriving DecidableEq

/-- The address where a turn leaves off. -/
def StringStep.next : StringStep → ℕ
  | .close next => next
  | .put _ next => next
  | .skip next _ => next

/-- A character from 128 on, in UTF-8; an escaped line or paragraph separator is skipped. -/
def stringUnicode (m : Mem) (escaped : Bool) (p : ℕ) : Res StringStep :=
  match unicodeFromUtf8 m p with
  | none => .error "invalid UTF-8 sequence"
  | some (c, next) =>
    if 0x10ffff < c then .error "invalid UTF-8 sequence"
    else if escaped && (c = cpLS || c = cpPS) then .ok (.skip next 0)
    else .ok (.put c next)

/-- The label `parse_escape`. -/
def stringParseEscape (m : Mem) (fuel p : ℕ) : Res StringStep := do
  match ← parseEscape m fuel p with
  | .char c next => return .put c next
  | .malformed => .error "malformed escape sequence in string literal"
  -- ignore the backslash
  | .none => return .put (m p).toNat (p + 1)

/-- The part of the loop after a backslash; `p` is the address after it. -/
def stringEscape (m : Mem) (bufEnd : ℕ) (strict : Bool) (fuel p : ℕ) : Res StringStep :=
  if m p = 0 then
    if bufEnd ≤ p then .error "unexpected end of string" else .ok (.put 0 (p + 1))
  else if m p = ch '\'' ∨ m p = ch '"' ∨ m p = ch '\\' then .ok (.put (m p).toNat (p + 1))
  else if m p = ch '\r' then .ok (.skip (if m (p + 1) = ch '\n' then p + 2 else p + 1) 1)
  else if m p = ch '\n' then .ok (.skip (p + 1) 1)
  else if isOctal (m p) = true ∧ strict = true then
    if m p = ch '0' ∧ isDigit (m (p + 1)) = false then .ok (.put 0 (p + 1))
    else .error "invalid octal syntax in strict mode"
  else if 0x80 ≤ m p then stringUnicode m true p
  else stringParseEscape m fuel p

/-- One turn of the loop of `js_parse_string`. -/
def stringStep (m : Mem) (bufEnd : ℕ) (strict : Bool) (sep : UInt8) (fuel p : ℕ) :
    Res StringStep :=
  if bufEnd ≤ p then .error "unexpected end of string"
  else if m p = ch '\n' ∨ m p = ch '\r' then .error "unexpected end of string"
  else if m p = sep then .ok (.close (p + 1))
  else if m p = ch '\\' then stringEscape m bufEnd strict fuel (p + 1)
  else if 0x80 ≤ m p then stringUnicode m false p
  else .ok (.put (m p).toNat (p + 1))

/-- The code units of a literal, the address after it and the line it ends on. -/
structure Literal where
  units : List UInt16
  next : ℕ
  lineNum : ℕ
  deriving DecidableEq

/-- `js_parse_string`, from the address after the opening quote. -/
def parseString (m : Mem) (bufEnd : ℕ) (strict : Bool) (sep : UInt8) :
    ℕ → ℕ → ℕ → Res Literal
  | 0, _, _ => .timeout
  | fuel + 1, p, lineNum => do
    match ← stringStep m bufEnd strict sep fuel p with
    | .close next => return ⟨[], next, lineNum⟩
    | .skip next lines => parseString m bufEnd strict sep fuel next (lineNum + lines)
    | .put c next =>
      let r ← parseString m bufEnd strict sep fuel next lineNum
      return { r with units := codeUnitsOf c ++ r.units }

/-! ## Template parts -/

/-- A character of a template part, the address after it and the lines it ends: newline
sequences are normalized. -/
def templateChar (m : Mem) (p : ℕ) : Res (ℕ × ℕ × ℕ) :=
  if m p = ch '\r' then .ok (0x0a, if m (p + 1) = ch '\n' then p + 2 else p + 1, 1)
  else if m p = ch '\n' then .ok (0x0a, p + 1, 1)
  else if 0x80 ≤ m p then
    match unicodeFromUtf8 m p with
    | none => .error "invalid UTF-8 sequence"
    | some (c, next) =>
      if 0x10ffff < c then .error "invalid UTF-8 sequence" else .ok (c, next, 0)
  else .ok ((m p).toNat, p + 1, 0)

/-- `js_parse_template_part`; the first component is the separator, a backquote or a dollar. -/
def parseTemplatePart (m : Mem) (bufEnd : ℕ) : ℕ → ℕ → ℕ → Res (UInt8 × Literal)
  | 0, _, _ => .timeout
  | fuel + 1, p, lineNum =>
    if bufEnd ≤ p then .error "unexpected end of string"
    else if m p = ch '\x60' then .ok (ch '\x60', ⟨[], p + 1, lineNum⟩)
    else if m p = ch '$' ∧ m (p + 1) = ch '\x7b' then .ok (ch '$', ⟨[], p + 2, lineNum⟩)
    else if m p = ch '\\' then
      if bufEnd ≤ p + 1 then .error "unexpected end of string"
      else do
        let (c, next, lines) ← templateChar m (p + 1)
        let (sep, r) ← parseTemplatePart m bufEnd fuel next (lineNum + lines)
        return (sep, { r with units := 0x5c :: codeUnitsOf c ++ r.units })
    else do
      let (c, next, lines) ← templateChar m p
      let (sep, r) ← parseTemplatePart m bufEnd fuel next (lineNum + lines)
      return (sep, { r with units := codeUnitsOf c ++ r.units })

/-! ## Locality -/

section Local

variable {m m' : Mem} {q : ℕ}

theorem unicodeFromUtf8_lt {p c next : ℕ} (h : unicodeFromUtf8 m p = some (c, next)) :
    p < next := by
  simp only [unicodeFromUtf8] at h
  split at h
  · simp only [Option.some.injEq, Prod.mk.injEq] at h
    omega
  · split at h
    · exact absurd h (by simp)
    · split at h
      · exact absurd h (by simp)
      · split at h
        · exact absurd h (by simp)
        · simp only [Option.some.injEq, Prod.mk.injEq] at h
          omega

theorem escapeBraces_lt : ∀ {fuel p c d next : ℕ},
    escapeBraces m fuel p c = .ok (.char d next) → p < next := by
  intro fuel
  induction fuel with
  | zero => intro p c d next h; exact absurd h (by simp [escapeBraces])
  | succ fuel ih =>
      intro p c d next h
      simp only [escapeBraces] at h
      split at h
      · exact absurd h (by simp)
      · split at h
        · exact absurd h (by simp)
        · split at h
          · cases h
            omega
          · have := ih h
            omega

theorem escapeHex_le : ∀ {n p c d next : ℕ}, escapeHex m n p c = .char d next → p ≤ next := by
  intro n
  induction n with
  | zero =>
      rintro p c d next ⟨⟩
      exact le_rfl
  | succ n ih =>
      intro p c d next h
      simp only [escapeHex] at h
      split at h
      · exact absurd h (by simp)
      · have := ih h
        omega

theorem escapeUnicode_le {fuel n p c next : ℕ}
    (h : escapeUnicode m fuel n p = .ok (.char c next)) : p ≤ next := by
  simp only [escapeUnicode] at h
  split at h
  · have := escapeBraces_lt h
    omega
  · exact escapeHex_le (by simpa using h)

theorem escapeOctal_lt {p c next : ℕ} (h : escapeOctal m p = .char c next) : p < next := by
  simp only [escapeOctal] at h
  split at h
  · cases h
    omega
  · split at h
    · cases h
      omega
    · split at h
      · cases h
        omega
      · cases h
        omega

/-- An escape is read forward. -/
theorem parseEscape_lt {fuel p c next : ℕ} (h : parseEscape m fuel p = .ok (.char c next)) :
    p < next := by
  simp only [parseEscape] at h
  split at h
  · cases h
    omega
  · split at h
    · exact escapeUnicode_le h
    · split at h
      · exact escapeUnicode_le h
      · split at h
        · exact escapeOctal_lt (by simpa using h)
        · exact absurd h (by simp)

theorem stringUnicode_local (h : SameTo m m' q) (escaped : Bool) (p : ℕ) :
    Local (stringUnicode m' escaped p) (stringUnicode m escaped p) StringStep.next p q := by
  refine Local.congr (fun hp => by rw [stringUnicode, unicodeFromUtf8_sameTo h hp]) ?_
  rw [stringUnicode]
  cases hu : unicodeFromUtf8 m p with
  | none => exact Local.error
  | some r =>
      obtain ⟨c, next⟩ := r
      have hlt := unicodeFromUtf8_lt hu
      refine Local.ite (fun _ => Iff.rfl) (fun _ => Local.error) fun _ => ?_
      exact Local.ite (fun _ => Iff.rfl) (fun _ => Local.ok hlt.le) (fun _ => Local.ok hlt.le)

theorem stringParseEscape_local (h : SameTo m m' q) (fuel p : ℕ) :
    Local (stringParseEscape m' fuel p) (stringParseEscape m fuel p) StringStep.next p q := by
  have heq : p ≤ q → stringParseEscape m' fuel p = stringParseEscape m fuel p := by
    intro hp
    rw [stringParseEscape, stringParseEscape, parseEscape_sameTo h fuel hp, h.read hp]
  refine Local.congr heq ?_
  rw [stringParseEscape]
  cases he : parseEscape m fuel p with
  | timeout => exact Local.timeout
  | error message => exact Local.error
  | ok e =>
      cases e with
      | char c next => exact Local.ok (parseEscape_lt he).le
      | malformed => exact Local.error
      | none => exact Local.ok (Nat.le_succ p)

theorem stringEscape_local (h : SameTo m m' q) (bufEnd : ℕ) (strict : Bool) (fuel p : ℕ) :
    Local (stringEscape m' bufEnd strict fuel p) (stringEscape m bufEnd strict fuel p)
      StringStep.next p q := by
  refine Local.ite (fun hp => by rw [h.read hp]) (fun _ => ?_) fun h0 => ?_
  · exact Local.ite (fun _ => Iff.rfl) (fun _ => Local.error) (fun _ => Local.ok (Nat.le_succ p))
  have hnext : p ≤ q → m' (p + 1) = m (p + 1) := fun hp => h.read (h.succ_le hp h0)
  refine Local.ite (fun hp => by rw [h.read hp]) (fun _ => ?_) fun _ => ?_
  · exact Local.congr (fun hp => by rw [h.read hp]) (Local.ok (Nat.le_succ p))
  refine Local.ite (fun hp => by rw [h.read hp]) (fun _ => ?_) fun _ => ?_
  · refine Local.congr (fun hp => by rw [hnext hp]) (Local.ok ?_)
    simp only [StringStep.next]
    split <;> omega
  refine Local.ite (fun hp => by rw [h.read hp]) (fun _ => Local.ok (Nat.le_succ p)) fun _ => ?_
  refine Local.ite (fun hp => by rw [h.read hp]) (fun _ => ?_) fun _ => ?_
  · exact Local.ite (fun hp => by rw [h.read hp, hnext hp]) (fun _ => Local.ok (Nat.le_succ p))
      (fun _ => Local.error)
  exact Local.ite (fun hp => by rw [h.read hp]) (fun _ => stringUnicode_local h true p)
    (fun _ => stringParseEscape_local h fuel p)

theorem stringStep_local (h : SameTo m m' q) (bufEnd : ℕ) (strict : Bool) (sep : UInt8)
    (fuel p : ℕ) :
    Local (stringStep m' bufEnd strict sep fuel p) (stringStep m bufEnd strict sep fuel p)
      StringStep.next p q := by
  refine Local.ite (fun _ => Iff.rfl) (fun _ => Local.error) fun _ => ?_
  refine Local.ite (fun hp => by rw [h.read hp]) (fun _ => Local.error) fun _ => ?_
  refine Local.ite (fun hp => by rw [h.read hp]) (fun _ => Local.ok (Nat.le_succ p)) fun _ => ?_
  refine Local.ite (fun hp => by rw [h.read hp]) (fun _ => ?_) fun _ => ?_
  · exact (stringEscape_local h bufEnd strict fuel (p + 1)).weaken (Nat.le_succ p)
  refine Local.ite (fun hp => by rw [h.read hp]) (fun _ => stringUnicode_local h false p)
    fun _ => ?_
  exact Local.congr (fun hp => by rw [h.read hp]) (Local.ok (Nat.le_succ p))

theorem parseString_local (h : SameTo m m' q) (bufEnd : ℕ) (strict : Bool) (sep : UInt8) :
    ∀ (fuel p lineNum : ℕ), Local (parseString m' bufEnd strict sep fuel p lineNum)
      (parseString m bufEnd strict sep fuel p lineNum) Literal.next p q := by
  intro fuel
  induction fuel with
  | zero => intro p lineNum; exact Local.timeout
  | succ fuel ih =>
      intro p lineNum
      refine Local.bind (stringStep_local h bufEnd strict sep fuel p) fun step _ => ?_
      cases step with
      | close next => exact Local.ok le_rfl
      | skip next lines => exact ih next _
      | put c next => exact Local.bind (ih next lineNum) fun r _ => Local.ok le_rfl

theorem templateChar_local (h : SameTo m m' q) (p : ℕ) :
    Local (templateChar m' p) (templateChar m p) (fun r => r.2.1) p q := by
  refine Local.ite (fun hp => by rw [h.read hp]) (fun hr => ?_) fun _ => ?_
  · have hnext : p ≤ q → m' (p + 1) = m (p + 1) := fun hp =>
      h.read (h.succ_le hp (by rw [hr]; decide))
    refine Local.congr (fun hp => by rw [hnext hp]) (Local.ok ?_)
    simp only
    split <;> omega
  refine Local.ite (fun hp => by rw [h.read hp]) (fun _ => Local.ok (Nat.le_succ p)) fun _ => ?_
  refine Local.ite (fun hp => by rw [h.read hp]) (fun _ => ?_) fun _ => ?_
  · refine Local.congr (fun hp => by rw [unicodeFromUtf8_sameTo h hp]) ?_
    cases hu : unicodeFromUtf8 m p with
    | none => exact Local.error
    | some r =>
        exact Local.ite (fun _ => Iff.rfl) (fun _ => Local.error)
          (fun _ => Local.ok (unicodeFromUtf8_lt hu).le)
  · exact Local.congr (fun hp => by rw [h.read hp]) (Local.ok (Nat.le_succ p))

theorem parseTemplatePart_local (h : SameTo m m' q) (bufEnd : ℕ) :
    ∀ (fuel p lineNum : ℕ), Local (parseTemplatePart m' bufEnd fuel p lineNum)
      (parseTemplatePart m bufEnd fuel p lineNum) (fun r => r.2.next) p q := by
  intro fuel
  induction fuel with
  | zero => intro p lineNum; exact Local.timeout
  | succ fuel ih =>
      intro p lineNum
      refine Local.ite (fun _ => Iff.rfl) (fun _ => Local.error) fun _ => ?_
      refine Local.ite (fun hp => by rw [h.read hp]) (fun _ => Local.ok (Nat.le_succ p))
        fun _ => ?_
      refine Local.ite (fun hp => ?_) (fun _ => Local.ok (by simp)) fun _ => ?_
      · rw [h.read hp]
        refine and_congr_right fun hd => ?_
        rw [h.read (h.succ_le hp (by rw [hd]; decide))]
      refine Local.ite (fun hp => by rw [h.read hp]) (fun _ => ?_) fun _ => ?_
      · refine Local.ite (fun _ => Iff.rfl) (fun _ => Local.error) fun _ => ?_
        refine ((templateChar_local h (p + 1)).weaken (Nat.le_succ p)).bind fun r _ => ?_
        exact Local.bind (ih r.2.1 _) fun r _ => Local.ok le_rfl
      · refine (templateChar_local h p).bind fun r _ => ?_
        exact Local.bind (ih r.2.1 _) fun r _ => Local.ok le_rfl

end Local

end Engine
end FuzzerJs
