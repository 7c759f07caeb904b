import FuzzerJs.Engine.LexerLocal
import FuzzerJs.Lib.Passing

/-!
# Tokens that pass no quote

Names, numbers and punctuators end in front of a zero, of a quote of any of the three kinds and
of a slash (`textMarks`).  So what the tokenizer makes of them, an error too, depends on nothing
behind the next of these bytes.

The lemmas follow the code of the scanners (`Scan.Plain`).
-/

namespace FuzzerJs
namespace Engine

open Scan

/-- The bytes at which a token ends or something other than a token may begin. -/
def textMarks : List UInt8 := [0, ch '\'', ch '"', ch '\x60', ch '/']

/-- The same and the backslash. -/
def escapeMarks : List UInt8 := ch '\\' :: textMarks

theorem textMarks_subset : textMarks ⊆ escapeMarks := List.subset_cons_self _ _

theorem zero_mem_textMarks : (0 : UInt8) ∈ textMarks := by decide

/-- A class of bytes without marks. -/
theorem notMem_of_class {S : List UInt8} {f : UInt8 → Bool} (hf : S.any f = false) {b : UInt8}
    (h : f b = true) : b ∉ S := by
  intro hb
  have hany : S.any f = true := List.any_eq_true.mpr ⟨b, hb, h⟩
  rw [hf] at hany
  exact absurd hany (by decide)

theorem isDigit_notMem {b : UInt8} (h : isDigit b = true) : b ∉ escapeMarks :=
  notMem_of_class (by decide) h

theorem isOctal_notMem {b : UInt8} (h : isOctal b = true) : b ∉ escapeMarks :=
  notMem_of_class (by decide) h

theorem fromHex_notMem {b : UInt8} {n : ℕ} (h : fromHex b = some n) : b ∉ escapeMarks :=
  notMem_of_class (f := fun b => (fromHex b).isSome) (by decide) (by rw [h]; rfl)

theorem toDigit_notMem {b : UInt8} {radix : ℕ} (hr : radix ≤ 36) (h : toDigit b < radix) :
    b ∉ escapeMarks :=
  notMem_of_class (f := fun b => decide (toDigit b < 36)) (by decide)
    (decide_eq_true (h.trans_le hr))

theorem high_notMem {b : UInt8} (h : 0x80 ≤ b) : b ∉ escapeMarks :=
  notMem_of_class (f := fun b => decide (0x80 ≤ b)) (by decide) (decide_eq_true h)

theorem isIdContinueAscii_notMem {b : UInt8} (h : isIdContinueAscii b.toNat = true) :
    b ∉ escapeMarks :=
  notMem_of_class (f := fun b => isIdContinueAscii b.toNat) (by decide) h

section Plain

variable {m m' : Mem} {q : ℕ}

theorem SameTo.mark (h : SameTo m m' q) : m q ∈ textMarks := by
  rw [h.zero]
  exact zero_mem_textMarks

/-! ## Characters -/

theorem utf8Continue_bytes : ∀ (l p c d : ℕ), utf8Continue m p l c = some d →
    ∀ i, p ≤ i → i < p + l → 0x80 ≤ (m i).toNat ∧ (m i).toNat < 0xc0 := by
  intro l
  induction l with
  | zero => intro p c d _ i hi hlt; omega
  | succ l ih =>
      intro p c d h i hi hlt
      simp only [utf8Continue] at h
      split at h
      · exact absurd h (by simp)
      · rename_i hb
        rcases Nat.eq_or_lt_of_le hi with rfl | hgt
        · omega
        · exact ih (p + 1) _ d h i hgt (by omega)

theorem high_of_toNat {b : UInt8} (h : 0x80 ≤ b.toNat) : 0x80 ≤ b := UInt8.le_iff_toNat_le.mpr h

/-- The bytes of a character from 128 on. -/
theorem unicodeFromUtf8_high {p c next : ℕ} (hp : 0x80 ≤ m p)
    (h : unicodeFromUtf8 m p = some (c, next)) : ∀ i, p ≤ i → i < next → 0x80 ≤ m i := by
  have hnat : 0x80 ≤ (m p).toNat := UInt8.le_iff_toNat_le.mp hp
  simp only [unicodeFromUtf8] at h
  rw [if_neg (not_lt.mpr hnat)] at h
  split at h
  · exact absurd h (by simp)
  · rename_i l hl
    split at h
    · exact absurd h (by simp)
    · rename_i d hd
      split at h
      · exact absurd h (by simp)
      · simp only [Option.some.injEq, Prod.mk.injEq] at h
        obtain ⟨-, rfl⟩ := h
        intro i hi hlt
        rcases Nat.eq_or_lt_of_le hi with rfl | hgt
        · exact hp
        · exact high_of_toNat (utf8Continue_bytes l (p + 1) _ d hd i hgt hlt).1

theorem unicodeFromUtf8_passes {p c next : ℕ} (hp : 0x80 ≤ m p)
    (h : unicodeFromUtf8 m p = some (c, next)) : Passes escapeMarks m p next :=
  ⟨(unicodeFromUtf8_lt h).le, fun i hi hlt => high_notMem (unicodeFromUtf8_high hp h i hi hlt)⟩

theorem escapeBraces_passes : ∀ {fuel p c d next : ℕ},
    escapeBraces m fuel p c = .ok (.char d next) → Passes escapeMarks m p next := by
  intro fuel
  induction fuel with
  | zero => intro p c d next h; exact absurd h (by simp [escapeBraces])
  | succ fuel ih =>
      intro p c d next h
      simp only [escapeBraces] at h
      split at h
      · exact absurd h (by simp)
      · rename_i x hx
        split at h
        · exact absurd h (by simp)
        · split at h
          · rename_i hclose
            cases h
            exact Passes.two (fromHex_notMem hx) (by rw [hclose]; decide)
          · exact (ih h).cons (fromHex_notMem hx)

theorem escapeHex_passes : ∀ {n p c d next : ℕ}, escapeHex m n p c = .char d next →
    Passes escapeMarks m p next := by
  intro n
  induction n with
  | zero =>
      rintro p c d next ⟨⟩
      exact Passes.refl _ _ _
  | succ n ih =>
      intro p c d next h
      simp only [escapeHex] at h
      split at h
      · exact absurd h (by simp)
      · rename_i x hx
        exact (ih h).cons (fromHex_notMem hx)

theorem escapeUnicode_passes {fuel n p c next : ℕ}
    (h : escapeUnicode m fuel n p = .ok (.char c next)) : Passes escapeMarks m p next := by
  simp only [escapeUnicode] at h
  split at h
  · rename_i hbrace
    exact (escapeBraces_passes h).cons (by rw [hbrace]; decide)
  · exact escapeHex_passes (by simpa using h)

theorem escapeOctal_passes {p c next : ℕ} (hp : isOctal (m p) = true)
    (h : escapeOctal m p = .char c next) : Passes escapeMarks m p next := by
  simp only [escapeOctal] at h
  split at h
  · cases h
    exact Passes.one (isOctal_notMem hp)
  · rename_i h1
    have ho1 : isOctal (m (p + 1)) = true := by simpa using h1
    have htwo := Passes.two (isOctal_notMem hp) (isOctal_notMem ho1)
    split at h
    · cases h
      exact htwo
    · split at h
      · cases h
        exact htwo
      · rename_i h2
        cases h
        have ho2 : isOctal (m (p + 1 + 1)) = true := by simpa using h2
        exact htwo.trans (Passes.one (isOctal_notMem ho2))

theorem escapeLetter_notMem {b : UInt8} {e : ℕ} (h : escapeLetter b = some e) : b ∉ escapeMarks :=
  notMem_of_class (f := fun b => (escapeLetter b).isSome) (by decide) (by rw [h]; rfl)

/-- An escape passes no mark. -/
theorem parseEscape_passes {fuel p c next : ℕ} (h : parseEscape m fuel p = .ok (.char c next)) :
    Passes escapeMarks m p next := by
  simp only [parseEscape] at h
  split at h
  · rename_i e he
    cases h
    exact Passes.one (escapeLetter_notMem he)
  · split at h
    · rename_i hx
      exact (escapeUnicode_passes h).cons (by rw [hx]; decide)
    · split at h
      · rename_i hu
        exact (escapeUnicode_passes h).cons (by rw [hu]; decide)
      · split at h
        · rename_i ho
          exact escapeOctal_passes ho (by simpa using h)
        · exact absurd h (by simp)

/-! ## Names -/

theorem identChar_passes {fuel p : ℕ} {hasEscape : Bool} {r : ℕ × ℕ × Bool}
    (h : identChar m fuel p hasEscape = .ok r)
    (hc : r.1 < 128 → isIdContinueAscii r.1 = true) : Passes textMarks m p r.2.1 := by
  rw [identChar] at h
  split at h
  · rename_i hbs
    have hmark : m p ∉ textMarks := by rw [hbs.1]; decide
    obtain ⟨e, he, hr⟩ := Res.bind_eq_ok.mp h
    cases e with
    | char c next =>
        cases hr
        exact ((parseEscape_passes he).mono textMarks_subset).cons hmark
    | malformed => cases hr; exact Passes.one hmark
    | none => cases hr; exact Passes.one hmark
  · split at h
    · rename_i hhigh
      split at h
      · rename_i hu
        cases h
        exact (unicodeFromUtf8_passes hhigh hu).mono textMarks_subset
      · cases h
        exact (Passes.one (high_notMem hhigh)).mono textMarks_subset
    · rename_i hlow
      cases h
      have hlt : (m p).toNat < 128 := by
        have := mt high_of_toNat hlow
        omega
      exact (Passes.one (isIdContinueAscii_notMem (hc hlt))).mono textMarks_subset

theorem isIdentNext_ascii {T : Tables} {c : ℕ} (h : isIdentNext T c = true) :
    c < 128 → isIdContinueAscii c = true := by
  intro hc
  rwa [isIdentNext, if_pos hc] at h

theorem isIdentFirst_ascii {T : Tables} {c : ℕ} (h : isIdentFirst T c = true) :
    c < 128 → isIdContinueAscii c = true := by
  intro hc
  rw [isIdentFirst, if_pos hc] at h
  rw [isIdContinueAscii, h, Bool.true_or]

theorem identLoop_plain (h : SameTo m m' q) (T : Tables) (tooLong : String) :
    ∀ (fuel p : ℕ) (buf : List UInt8) (c : ℕ) (hasEscape : Bool),
      Plain textMarks m (identLoop m' T tooLong fuel p buf c hasEscape)
        (identLoop m T tooLong fuel p buf c hasEscape) (fun r => r.2.2) p q := by
  intro fuel
  induction fuel with
  | zero => intro p buf c hasEscape; exact Plain.timeout
  | succ fuel ih =>
      intro p buf c hasEscape
      simp only [identLoop]
      refine Plain.congr (fun hp => by rw [identChar_sameTo h fuel hp]) ?_
      cases hc : identChar m fuel p hasEscape with
      | timeout => exact Plain.timeout
      | error message => exact Plain.error
      | ok r =>
          obtain ⟨d, next, esc⟩ := r
          refine Plain.ite (fun _ => Iff.rfl) (fun _ => Plain.ok (Passes.refl _ _ _)) fun hd => ?_
          refine Plain.ite (fun _ => Iff.rfl) (fun _ => Plain.error) fun _ => ?_
          have hnext := isIdentNext_ascii (by simpa using hd : isIdentNext T d = true)
          exact (ih next _ d esc).after (SameTo.mark h) (identChar_passes hc hnext)

theorem scanIdent_plain (h : SameTo m m' q) (cfg : LexConfig) (fuel p c : ℕ) (hasEscape : Bool) :
    Plain textMarks m (scanIdent cfg m' fuel p c hasEscape) (scanIdent cfg m fuel p c hasEscape)
      Prod.snd p q :=
  (identLoop_plain h cfg.tables _ fuel p [] c hasEscape).bind (SameTo.mark h)
    fun _ _ => Plain.ok (Passes.refl _ _ _)

theorem scanPrivateName_plain (h : SameTo m m' q) (cfg : LexConfig) (fuel p : ℕ) :
    Plain textMarks m (scanPrivateName cfg m' fuel p) (scanPrivateName cfg m fuel p) Prod.snd p q := by
  simp only [scanPrivateName]
  refine Plain.congr (fun hp => by rw [identChar_sameTo h fuel hp]) ?_
  cases hc : identChar m fuel p false with
  | timeout => exact Plain.timeout
  | error message => exact Plain.error
  | ok r =>
      obtain ⟨c, next, esc⟩ := r
      refine Plain.ite (fun _ => Iff.rfl) (fun _ => Plain.error) fun hd => ?_
      have hnext := isIdentFirst_ascii (by simpa using hd : isIdentFirst cfg.tables c = true)
      refine Plain.after (SameTo.mark h) (identChar_passes hc hnext) ?_
      exact (identLoop_plain h cfg.tables _ fuel next _ c false).bind (SameTo.mark h)
        fun _ _ => Plain.ok (Passes.refl _ _ _)

/-! ## Numbers -/

theorem digit_or_separator {b : UInt8} {sep x y : Bool}
    (h : (isDigit b || (sep && b == ch '_' && x && y)) = true) : b ∉ textMarks := by
  rcases Bool.or_eq_true _ _ ▸ h with hd | hs
  · exact fun hb => isDigit_notMem hd (textMarks_subset hb)
  · simp only [Bool.and_eq_true, beq_iff_eq] at hs
    rw [hs.1.1.2]
    decide

theorem scanDigits_plain (h : SameTo m m' q) (sep : Bool) (blocked : Option ℕ) :
    ∀ (fuel p : ℕ), Plain textMarks m (scanDigits m' sep blocked fuel p)
      (scanDigits m sep blocked fuel p) id p q := by
  intro fuel
  induction fuel with
  | zero => intro p; exact Plain.timeout
  | succ fuel ih =>
      intro p
      refine Plain.ite (fun hp => ?_) (fun hd => ?_) (fun _ => Plain.ok (Passes.refl _ _ _))
      · rw [h.read hp]
        by_cases h0 : m p = 0
        · rw [h0, show (0 == ch '_') = false by decide]
          simp
        · rw [h.read (h.succ_le hp h0)]
      · exact (ih (p + 1)).after (SameTo.mark h) (Passes.one (digit_or_separator hd))

theorem scanFraction_plain (h : SameTo m m' q) (sep : Bool) (fuel start p : ℕ) :
    Plain textMarks m (scanFraction m' sep fuel start p) (scanFraction m sep fuel start p) id p q := by
  refine Plain.ite (fun hp => ?_) (fun hd => ?_) (fun _ => Plain.ok (Passes.refl _ _ _))
  · rw [h.read hp]
    refine and_congr_right fun hdot => ?_
    rw [h.read (h.succ_le hp (by rw [hdot]; decide))]
  · have hdot : m p ∉ textMarks := by rw [hd.1]; decide
    exact (scanDigits_plain h sep none fuel (p + 1)).after (SameTo.mark h) (Passes.one hdot)

theorem scanExponent_plain (h : SameTo m m' q) (sep : Bool) (fuel start p : ℕ) :
    Plain textMarks m (scanExponent m' sep fuel start p) (scanExponent m sep fuel start p) id p q := by
  refine Plain.ite (fun hp => by rw [h.read hp]) (fun he => ?_) (fun _ => Plain.ok (Passes.refl _ _ _))
  have h0 : m p ≠ 0 := by rcases he.2 with he | he <;> rw [he] <;> decide
  have hmark : m p ∉ textMarks := by rcases he.2 with he | he <;> rw [he] <;> decide
  have hstart : p ≤ q → exponentDigits m' sep fuel p =
      if isDigit (m' (exponentStart m p)) = true then
        scanDigits m' sep none fuel (exponentStart m p + 1)
      else .ok p := by
    intro hp
    rw [exponentDigits, (exponentStart_sameTo h hp h0).1]
  have hpass : Passes textMarks m p (exponentStart m p) := by
    rw [exponentStart]
    split
    · rename_i hsign
      exact Passes.two hmark (by rcases hsign with hs | hs <;> rw [hs] <;> decide)
    · exact Passes.one hmark
  refine Plain.congr hstart (Plain.ite (fun hp => ?_) (fun hd => ?_)
    (fun _ => Plain.ok (Passes.refl _ _ _)))
  · rw [h.read (exponentStart_sameTo h hp h0).2]
  · have hdigit := Passes.one fun hb => isDigit_notMem hd (textMarks_subset hb)
    exact (scanDigits_plain h sep none fuel _).after (SameTo.mark h) (hpass.trans hdigit)

theorem scanDecimal_plain (h : SameTo m m' q) (sep : Bool) (fuel p : ℕ) :
    Plain textMarks m (scanDecimal m' sep fuel p) (scanDecimal m sep fuel p) Prod.snd p q := by
  have hblocked : p ≤ q → scanDecimal m' sep fuel p =
      scanDecimalFrom m' sep (if m p = ch '0' then some (p + 1) else none) fuel p := by
    intro hp
    rw [scanDecimal, h.read hp]
  refine Plain.congr hblocked ?_
  refine Plain.bind (SameTo.mark h) (scanDigits_plain h sep _ fuel p) fun p1 _ => ?_
  refine Plain.bind (SameTo.mark h) (scanFraction_plain h sep fuel p p1) fun p2 _ => ?_
  refine Plain.bind (SameTo.mark h) (scanExponent_plain h sep fuel p p2) fun p3 _ => ?_
  refine Plain.congr (fun hp3 => ?_) (Plain.ok (Passes.refl _ _ _))
  have hslice : slice m' p p3 = slice m p p3 := slice_sameTo h hp3
  rw [hslice, Res.pure_eq]

theorem skipZeros_plain (h : SameTo m m' q) :
    ∀ (fuel p : ℕ), Plain textMarks m (skipZeros m' fuel p) (skipZeros m fuel p) id p q := by
  intro fuel
  induction fuel with
  | zero => intro p; exact Plain.timeout
  | succ fuel ih =>
      intro p
      refine Plain.ite (fun hp => by rw [h.read hp]) (fun hz => ?_)
        (fun _ => Plain.ok (Passes.refl _ _ _))
      have hmark : m p ∉ textMarks := by rw [hz]; decide
      exact (ih (p + 1)).after (SameTo.mark h) (Passes.one hmark)

theorem skipSep_passes (radix : ℕ) (sep : Bool) (p : ℕ) :
    Passes textMarks m p (skipSep m radix sep p) := by
  rw [skipSep]
  split
  · rename_i hs
    exact Passes.one (by rw [hs.2.1]; decide)
  · exact Passes.refl _ _ _

theorem radixDigits_plain (h : SameTo m m' q) {radix : ℕ} (hr : radix ≤ 36) (sep : Bool) :
    ∀ (fuel p n intExp : ℕ), Plain textMarks m (radixDigits m' radix sep fuel p n intExp)
      (radixDigits m radix sep fuel p n intExp) Prod.snd p q := by
  intro fuel
  induction fuel with
  | zero => intro p n intExp; exact Plain.timeout
  | succ fuel ih =>
      intro p n intExp
      refine Plain.ite (fun hp => by rw [h.read hp]) (fun _ => Plain.ok (Passes.refl _ _ _))
        fun _ => ?_
      refine Plain.congr (fun hp => by rw [radixDigit_sameTo h radix sep hp]) ?_
      have hskip := @skipSep_passes m radix sep p
      rw [radixDigit]
      by_cases hd : radix ≤ toDigit (m (skipSep m radix sep p))
      · rw [if_pos hd]
        exact Plain.ok hskip
      · rw [if_neg hd]
        have hdigit : m (skipSep m radix sep p) ∉ textMarks := fun hb =>
          toDigit_notMem hr (not_le.mp hd) (textMarks_subset hb)
        have hpass := hskip.trans (Passes.one hdigit)
        exact Plain.ite (fun _ => Iff.rfl) (fun _ => (ih _ _ _).after (SameTo.mark h) hpass)
          (fun _ => (ih _ _ _).after (SameTo.mark h) hpass)

theorem scanRadix_plain (h : SameTo m m' q) {radix : ℕ} (hr : radix ≤ 36) (sep : Bool) (fuel p : ℕ) :
    Plain textMarks m (scanRadix m' radix sep fuel p) (scanRadix m radix sep fuel p) Prod.snd p q := by
  refine Plain.ite (fun hp => by rw [h.read hp]) (fun _ => Plain.error) fun _ => ?_
  exact Plain.bind (SameTo.mark h) (skipZeros_plain h fuel p) fun p1 _ =>
    radixDigits_plain h hr sep fuel p1 0 0

theorem atod_plain (h : SameTo m m' q) (fuel p : ℕ) :
    Plain textMarks m (atod m' fuel p) (atod m fuel p) Prod.snd p q := by
  refine Plain.ite (fun hp => by rw [h.read hp]) (fun hz => ?_)
    (fun _ => scanDecimal_plain h true fuel p)
  have hzero : m p ∉ textMarks := by rw [hz]; decide
  have hnext : p ≤ q → m' (p + 1) = m (p + 1) := fun hp =>
    h.read (h.succ_le hp (by rw [hz]; decide))
  have hradix : ∀ {a b : UInt8}, a ∉ textMarks → b ∉ textMarks → m (p + 1) = a ∨ m (p + 1) = b →
      Passes textMarks m p (p + 2) := by
    intro a b ha hb hab
    exact Passes.two hzero (by rcases hab with hab | hab <;> rw [hab] <;> assumption)
  refine Plain.ite (fun hp => by rw [hnext hp]) (fun hx => ?_) fun _ => ?_
  · exact (scanRadix_plain h (by decide) true fuel (p + 2)).after (SameTo.mark h)
      (hradix (by decide) (by decide) hx)
  refine Plain.ite (fun hp => by rw [hnext hp]) (fun hx => ?_) fun _ => ?_
  · exact (scanRadix_plain h (by decide) true fuel (p + 2)).after (SameTo.mark h)
      (hradix (by decide) (by decide) hx)
  refine Plain.ite (fun hp => by rw [hnext hp]) (fun hx => ?_) fun _ => ?_
  · exact (scanRadix_plain h (by decide) true fuel (p + 2)).after (SameTo.mark h)
      (hradix (by decide) (by decide) hx)
  refine Plain.ite (fun hp => by rw [hnext hp]) (fun _ => ?_)
    (fun _ => scanDecimal_plain h true fuel p)
  have hoctal : p ≤ q → _ := fun hp =>
    scanOctal_sameTo h fuel (p + 1) (h.succ_le hp (by rw [hz]; decide))
  refine Plain.congr (fun hp => by rw [(hoctal hp).1]) ?_
  cases ho : scanOctal m fuel (p + 1) with
  | timeout => exact Plain.timeout
  | error message => exact Plain.error
  | ok i =>
      refine Plain.ite (fun hp => by rw [h.read ((hoctal hp).2 i ho)])
        (fun _ => scanDecimal_plain h false fuel p) (fun _ => ?_)
      exact (scanRadix_plain h (by decide) false fuel (p + 1)).after (SameTo.mark h)
        (Passes.one hzero)

theorem scanNumber_plain (h : SameTo m m' q) (cfg : LexConfig) (fuel p : ℕ) :
    Plain textMarks m (scanNumber cfg m' fuel p) (scanNumber cfg m fuel p) Prod.snd p q := by
  refine (atod_plain h fuel p).bind (SameTo.mark h) fun r _ => ?_
  exact Plain.ite (fun hp => by rw [unicodeFromUtf8_sameTo h hp]) (fun _ => Plain.error)
    (fun _ => Plain.ok (Passes.refl _ _ _))

/-! ## Punctuators -/

theorem scanBackslash_plain (h : SameTo m m' q) (cfg : LexConfig) (fuel : ℕ) {p : ℕ}
    (hbs : m p = ch '\\') :
    Plain textMarks m (scanBackslash cfg m' fuel p) (scanBackslash cfg m fuel p) Prod.snd p q := by
  have hp1 : p ≤ q → p + 1 ≤ q := fun hp => h.succ_le hp (by rw [hbs]; decide)
  have hone : Passes textMarks m p (p + 1) := Passes.one (by rw [hbs]; decide)
  refine Plain.ite (fun hp => by rw [h.read (hp1 hp)]) (fun _ => ?_) (fun _ => Plain.ok hone)
  refine Plain.congr (fun hp => by rw [parseEscape_sameTo h fuel (hp1 hp)]) ?_
  cases he : parseEscape m fuel (p + 1) with
  | timeout => exact Plain.timeout
  | error message => exact Plain.error
  | ok e =>
      cases e with
      | char c next =>
          have hpass := hone.trans ((parseEscape_passes he).mono textMarks_subset)
          exact Plain.ite (fun _ => Iff.rfl)
            (fun _ => (scanIdent_plain h cfg fuel next c true).after (SameTo.mark h) hpass)
            (fun _ => Plain.ok hone)
      | malformed => exact Plain.ok hone
      | none => exact Plain.ok hone

theorem punctuator_mark₁ {c c1 : UInt8} (c2 c3 : UInt8) (h : c1 ∈ textMarks) :
    punctuator c c1 c2 c3 = none := by
  simp only [textMarks, List.mem_cons, List.not_mem_nil, or_false] at h
  rcases h with rfl | rfl | rfl | rfl | rfl
  all_goals simp +decide [punctuator]

/-- What is known of the third and fourth byte of a punctuator, if there is one. -/
def PunctBytes (c2 c3 : UInt8) (o : Option (Punct × ℕ)) : Prop :=
  ∀ r ∈ o, (2 < r.2 → c2 ∉ textMarks) ∧ (3 < r.2 → c3 ∉ textMarks) ∧ 2 ≤ r.2 ∧ r.2 ≤ 4

namespace PunctBytes

variable {c2 c3 : UInt8} {o o' : Option (Punct × ℕ)}

theorem none : PunctBytes c2 c3 none := fun r hr => absurd hr (by simp)

theorem two (op : Punct) : PunctBytes c2 c3 (some (op, 2)) := by
  rintro r ⟨⟩
  exact ⟨fun h => absurd h (show ¬ 2 < 2 by decide), fun h => absurd h (show ¬ 3 < 2 by decide), le_rfl,
    show 2 ≤ 4 by decide⟩

theorem three (op : Punct) (h2 : c2 ∉ textMarks) : PunctBytes c2 c3 (some (op, 3)) := by
  rintro r ⟨⟩
  exact ⟨fun _ => h2, fun h => absurd h (show ¬ 3 < 3 by decide), show 2 ≤ 3 by decide,
    show 3 ≤ 4 by decide⟩

theorem four (op : Punct) (h2 : c2 ∉ textMarks) (h3 : c3 ∉ textMarks) :
    PunctBytes c2 c3 (some (op, 4)) := by
  rintro r ⟨⟩
  exact ⟨fun _ => h2, fun _ => h3, show 2 ≤ 4 by decide, le_rfl⟩

theorem ite {P : Prop} [Decidable P] (h : P → PunctBytes c2 c3 o) (h' : PunctBytes c2 c3 o') :
    PunctBytes c2 c3 (if P then o else o') := by
  by_cases hP : P
  · rw [if_pos hP]
    exact h hP
  · rw [if_neg hP]
    exact h'

end PunctBytes

theorem punctuator_bytes (c c1 c2 c3 : UInt8) : PunctBytes c2 c3 (punctuator c c1 c2 c3) := by
  have hnot : ∀ {b d : UInt8}, b = d → d ∉ textMarks → b ∉ textMarks := fun h hd => h ▸ hd
  rw [punctuator]
  refine PunctBytes.ite (fun h => .three _ (hnot h.2.2 (by decide))) ?_
  refine PunctBytes.ite (fun _ => .two _) (PunctBytes.ite (fun _ => .two _) ?_)
  refine PunctBytes.ite (fun _ => .ite (fun h => .three _ (hnot h (by decide))) (.two _)) ?_
  refine PunctBytes.ite (fun _ => .two _) (PunctBytes.ite (fun _ => .two _) ?_)
  refine PunctBytes.ite (fun _ => .two _) (PunctBytes.ite (fun _ => .two _) ?_)
  refine PunctBytes.ite (fun _ => .two _) (PunctBytes.ite (fun _ => .two _) ?_)
  refine PunctBytes.ite (fun _ => .ite (fun h => .three _ (hnot h (by decide))) (.two _)) ?_
  refine PunctBytes.ite (fun _ => .two _) ?_
  refine PunctBytes.ite (fun _ => .ite (fun h => .ite (fun h' => ?_) ?_) ?_) ?_
  · exact .four _ (hnot h (by decide)) (hnot h' (by decide))
  · exact .three _ (hnot h (by decide))
  · exact .ite (fun h => .three _ (hnot h (by decide))) (.two _)
  refine PunctBytes.ite (fun _ => .ite (fun h => .three _ (hnot h (by decide))) (.two _)) ?_
  refine PunctBytes.ite (fun _ => .two _) ?_
  refine PunctBytes.ite (fun _ => .ite (fun h => .three _ (hnot h (by decide))) (.two _)) ?_
  refine PunctBytes.ite (fun _ => .two _) (PunctBytes.ite (fun _ => .two _) ?_)
  refine PunctBytes.ite (fun _ => .two _) (PunctBytes.ite (fun _ => .two _) ?_)
  exact PunctBytes.ite (fun _ => .two _) .none

/-- A punctuator that does not start with a slash passes no mark. -/
theorem scanPunctuator_passes {p : ℕ} (hp : m p ∉ textMarks) :
    Passes textMarks m p (scanPunctuator m p).2 := by
  unfold scanPunctuator
  split
  · rename_i op len hpunct
    obtain ⟨h2, h3, htwo, hfour⟩ := punctuator_bytes _ _ _ _ _ hpunct
    have h1 : m (p + 1) ∉ textMarks := by
      intro hmem
      rw [punctuator_mark₁ _ _ hmem] at hpunct
      exact absurd hpunct (by simp)
    have hpass := Passes.two hp h1
    rcases (by simp only at htwo hfour; omega : len = 2 ∨ len = 3 ∨ len = 4) with rfl | rfl | rfl
    · exact hpass
    · exact hpass.trans (Passes.one (h2 (by omega)))
    · exact hpass.trans (Passes.two (h2 (by omega)) (h3 (by omega)))
  · exact Passes.one hp

/-- The tokens that are neither text nor white space and start with an ASCII character. -/
theorem scanAscii_plain (h : SameTo m m' q) (cfg : LexConfig) (fuel : ℕ) {p : ℕ}
    (hmark : m p ∉ textMarks) :
    Plain textMarks m (scanAscii cfg m' fuel p) (scanAscii cfg m fuel p) Prod.snd p q := by
  refine Plain.ite (fun hp => by rw [h.read hp])
    (fun hb => scanBackslash_plain h cfg fuel hb) fun _ => ?_
  refine Plain.ite (fun hp => by rw [h.read hp]) (fun _ => ?_) fun _ => ?_
  · refine Plain.congr (fun hp => by rw [h.read hp]) ?_
    exact (scanIdent_plain h cfg fuel (p + 1) _ false).after (SameTo.mark h) (Passes.one hmark)
  refine Plain.ite (fun hp => by rw [h.read hp]) (fun _ => ?_) fun _ => ?_
  · exact (scanPrivateName_plain h cfg fuel (p + 1)).after (SameTo.mark h) (Passes.one hmark)
  refine Plain.ite (fun hp => ?_) (fun _ => scanNumber_plain h cfg fuel p) fun _ => ?_
  · rw [h.read hp]
    refine and_congr_right fun hd => ?_
    rw [h.read (h.succ_le hp (by rw [hd]; decide))]
  refine Plain.ite (fun hp => ?_) (fun _ => Plain.error) fun _ => ?_
  · rw [h.read hp]
    refine and_congr_right fun hd => ?_
    rw [h.read (h.succ_le hp (by rw [hd]; decide))]
  refine Plain.ite (fun hp => by rw [h.read hp]) (fun _ => scanNumber_plain h cfg fuel p)
    fun _ => ?_
  have heq : p ≤ q → Res.ok (scanPunctuator m' p) = .ok (scanPunctuator m p) := fun hp => by
    rw [scanPunctuator_sameTo h hp]
  exact Plain.congr heq (Plain.ok (scanPunctuator_passes hmark))

end Plain

end Engine
end FuzzerJs
