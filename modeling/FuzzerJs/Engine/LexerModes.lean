import FuzzerJs.Engine.LexerPlain

/-!
# Where a text ends

An automaton that reads a text byte by byte and knows no more of the language than where strings,
templates and comments begin and end (`LexMode`).  It stops at the first zero byte outside of these.

* `tokens_same_of_endsAt`: when it stops inside the text, the tokenizer comes to the same end, be it
  a sequence of tokens, an error or none at all, whatever stands behind the text.
* `modeAt_of_eof`: it does stop there, when the tokenizer finds `TOK_EOF` inside the text.
-/

namespace FuzzerJs
namespace Engine

open Scan

/-! ## The automaton -/

/-- Where a byte stands. -/
inductive LexMode where
  /-- Outside of strings, templates and comments. -/
  | code
  /-- There, behind a slash. -/
  | slash
  | str (sep : UInt8)
  | strEscape (sep : UInt8)
  | template
  | templateEscape
  /-- In a template, behind a dollar. -/
  | templateDollar
  /-- In a comment up to the end of the line, behind the two bytes `a` and `b`. -/
  | line (a b : UInt8)
  | block
  /-- In a block comment, behind an asterisk. -/
  | blockStar
  /-- Behind a zero in code. -/
  | eof
  deriving DecidableEq

/-- A byte of code. -/
def codeStep (b : UInt8) : LexMode :=
  if b = 0 then .eof
  else if b = ch '\'' ∨ b = ch '"' then .str b
  else if b = ch '\x60' then .template
  else if b = ch '/' then .slash
  else .code

/-- A byte of a template. -/
def templateStep (b : UInt8) : LexMode :=
  if b = ch '\x60' then .code
  else if b = ch '\\' then .templateEscape
  else if b = ch '$' then .templateDollar
  else .template

/-- One byte; U+2028 and U+2029 end a line, too. -/
def LexMode.step : LexMode → UInt8 → LexMode
  | .code, c => codeStep c
  | .slash, c => if c = ch '*' then .block else if c = ch '/' then .line 0 0 else codeStep c
  | .str sep, c => if c = sep then .code else if c = ch '\\' then .strEscape sep else .str sep
  | .strEscape sep, _ => .str sep
  | .template, c => templateStep c
  | .templateEscape, _ => .template
  | .templateDollar, c => if c = ch '\x7b' then .code else templateStep c
  | .line a b, c =>
    if c = ch '\r' ∨ c = ch '\n' ∨ (a = 0xe2 ∧ b = 0x80 ∧ (c = 0xa8 ∨ c = 0xa9)) then .code
    else .line b c
  | .block, c => if c = ch '*' then .blockStar else .block
  | .blockStar, c => if c = ch '/' then .code else if c = ch '*' then .blockStar else .block
  | .eof, _ => .eof

/-- The mode in which a text begins: `#!` makes its first line a comment. -/
def startMode (text : List UInt8) : LexMode :=
  if text.take 2 = [ch '#', ch '!'] then .line 0 0 else .code

/-- **A zero byte stands outside of strings, templates and comments.** -/
def Stops (text : List UInt8) : Prop := text.foldl LexMode.step (startMode text) = .eof

instance (text : List UInt8) : Decidable (Stops text) := inferInstanceAs (Decidable (_ = _))

example : Stops (asciiBytes "a = b /* c */ / d;" ++ [0] ++ asciiBytes "'") := by decide
example : ¬ Stops (asciiBytes "'" ++ [0] ++ asciiBytes "' // " ++ [0]) := by decide

/-! ## Its modes in a memory -/

/-- The mode behind `p` bytes. -/
def modeAt (m : Mem) (μ : LexMode) : ℕ → LexMode
  | 0 => μ
  | p + 1 => (modeAt m μ p).step (m p)

/-- At `p` the automaton does what it does in the mode `ν`. -/
structure Acts (m : Mem) (μ : LexMode) (p : ℕ) (ν : LexMode) : Prop where
  ne_eof : modeAt m μ p ≠ .eof
  step_eq : (modeAt m μ p).step (m p) = ν.step (m p)

/-- The automaton stops at `q`. -/
structure EndsAt (m : Mem) (μ : LexMode) (q : ℕ) : Prop where
  ne_eof : modeAt m μ q ≠ .eof
  eof : modeAt m μ (q + 1) = .eof

section Modes

variable {m m' : Mem} {μ ν : LexMode} {p q r : ℕ} {S : List UInt8}

theorem modeAt_eof_le (h : modeAt m μ p = .eof) (hr : p ≤ r) : modeAt m μ r = .eof := by
  induction r, hr using Nat.le_induction with
  | base => exact h
  | succ r _ ih => rw [modeAt, ih, LexMode.step]

/-- The automaton stops at a zero only. -/
theorem eq_zero_of_step {c : UInt8} (hν : ν ≠ .eof) (h : ν.step c = .eof) : c = 0 := by
  by_contra hc
  have hcode : codeStep c ≠ .eof := by
    rw [codeStep, if_neg hc]
    split
    · simp
    · split
      · simp
      · split <;> simp
  have htemplate : templateStep c ≠ .eof := by
    rw [templateStep]
    split
    · simp
    · split
      · simp
      · split <;> simp
  cases ν with
  | code => exact hcode h
  | slash =>
      rw [LexMode.step] at h
      split at h
      · simp at h
      · split at h
        · simp at h
        · exact hcode h
  | str sep =>
      rw [LexMode.step] at h
      split at h
      · simp at h
      · split at h <;> simp at h
  | strEscape sep => simp [LexMode.step] at h
  | template => exact htemplate h
  | templateEscape => simp [LexMode.step] at h
  | templateDollar =>
      rw [LexMode.step] at h
      split at h
      · simp at h
      · exact htemplate h
  | line a b =>
      rw [LexMode.step] at h
      split at h <;> simp at h
  | block =>
      rw [LexMode.step] at h
      split at h <;> simp at h
  | blockStar =>
      rw [LexMode.step] at h
      split at h
      · simp at h
      · split at h <;> simp at h
  | eof => exact hν rfl

theorem codeStep_eq {b : UInt8} (h : b ∉ textMarks) : codeStep b = .code := by
  simp only [textMarks, List.mem_cons, List.not_mem_nil, or_false, not_or] at h
  obtain ⟨h0, h1, h2, h3, h4⟩ := h
  rw [codeStep, if_neg h0, if_neg (not_or.mpr ⟨h1, h2⟩), if_neg h3, if_neg h4]

namespace EndsAt

theorem zero (h : EndsAt m μ q) : m q = 0 := eq_zero_of_step h.ne_eof h.eof

/-- A place at which the automaton has not stopped. -/
theorem le (h : EndsAt m μ q) (hr : modeAt m μ r ≠ .eof) : r ≤ q := by
  by_contra hlt
  exact hr (modeAt_eof_le h.eof (Nat.succ_le_of_lt (not_le.mp hlt)))

theorem sameTo (h : EndsAt m μ q) (hagree : ∀ i ≤ q, m' i = m i) : SameTo m m' q :=
  ⟨hagree, h.zero⟩

end EndsAt

theorem exists_endsAt (hμ : μ ≠ .eof) {n : ℕ} (h : modeAt m μ n = .eof) : ∃ q < n, EndsAt m μ q := by
  induction n with
  | zero => exact absurd h hμ
  | succ n ih =>
      by_cases hn : modeAt m μ n = .eof
      · obtain ⟨q, hq, hend⟩ := ih hn
        exact ⟨q, Nat.lt_succ_of_lt hq, hend⟩
      · exact ⟨n, Nat.lt_succ_self n, hn, h⟩

namespace Acts

theorem of_eq (h : modeAt m μ p = ν) (hν : ν ≠ .eof) : Acts m μ p ν := by
  refine ⟨?_, ?_⟩
  · rw [h]
    exact hν
  · rw [h]

theorem step (h : Acts m μ p ν) : modeAt m μ (p + 1) = ν.step (m p) := h.step_eq

/-- One byte that leaves a mode as it is. -/
theorem keep (h : Acts m μ p ν) (hkeep : ν.step (m p) = ν) : modeAt m μ (p + 1) = ν :=
  h.step.trans hkeep

/-- Bytes that leave a mode as it is. -/
theorem run (h : Acts m μ p ν) (hν : ν ≠ .eof) (hle : p ≤ r)
    (hkeep : ∀ i, p ≤ i → i < r → ν.step (m i) = ν) : Acts m μ r ν := by
  induction r, hle using Nat.le_induction with
  | base => exact h
  | succ r hr ih =>
      have hacts := ih fun i hi hlt => hkeep i hi (Nat.lt_succ_of_lt hlt)
      exact of_eq (hacts.keep (hkeep r hr (Nat.lt_succ_self r))) hν

/-- Behind one of them at least the automaton is in this mode. -/
theorem run_lt (h : Acts m μ p ν) (hν : ν ≠ .eof) (hlt : p < r)
    (hkeep : ∀ i, p ≤ i → i < r → ν.step (m i) = ν) : modeAt m μ r = ν := by
  obtain ⟨r, rfl⟩ := Nat.exists_eq_succ_of_ne_zero (Nat.ne_of_gt (Nat.lt_of_le_of_lt p.zero_le hlt))
  have hle := Nat.le_of_lt_succ hlt
  have hacts := h.run hν hle fun i hi hir => hkeep i hi (Nat.lt_succ_of_lt hir)
  exact hacts.keep (hkeep r hle (Nat.lt_succ_self r))

/-- Code without marks. -/
theorem code_passes (h : Acts m μ p .code) (hpass : Passes textMarks m p r) : Acts m μ r .code :=
  h.run (by simp) hpass.le fun i hi hlt => codeStep_eq (hpass.notMem i hi hlt)

end Acts

/-- The quotes of a string. -/
def IsQuote (sep : UInt8) : Prop := sep = ch '\'' ∨ sep = ch '"'

theorem str_step_eq {sep b : UInt8} (hsep : IsQuote sep) (h : b ∉ escapeMarks) :
    (LexMode.str sep).step b = .str sep := by
  have hmem : sep ∈ escapeMarks := by rcases hsep with rfl | rfl <;> decide
  have hne : b ≠ sep := by
    rintro rfl
    exact h hmem
  have hbs : b ≠ ch '\\' := by
    rintro rfl
    exact h (by decide)
  rw [LexMode.step, if_neg hne, if_neg hbs]

theorem high_ne {c d : UInt8} (hc : 0x80 ≤ c) (hd : d < 0x80) : c ≠ d := by
  rintro rfl
  exact absurd hc (UInt8.not_le.mpr hd)

theorem template_step_high {b : UInt8} (h : 0x80 ≤ b) : LexMode.template.step b = .template := by
  rw [LexMode.step, templateStep, if_neg (high_ne h (by decide)), if_neg (high_ne h (by decide)),
    if_neg (high_ne h (by decide))]

theorem block_step_high {b : UInt8} (h : 0x80 ≤ b) : LexMode.block.step b = .block := by
  rw [LexMode.step, if_neg (high_ne h (by decide))]

/-- A character from 128 on, in a mode that such bytes leave as it is. -/
theorem Acts.unicode {c next : ℕ} (h : Acts m μ p ν) (hν : ν ≠ .eof)
    (hkeep : ∀ b : UInt8, 0x80 ≤ b → ν.step b = ν) (hp : 0x80 ≤ m p)
    (hu : unicodeFromUtf8 m p = some (c, next)) : modeAt m μ next = ν :=
  h.run_lt hν (unicodeFromUtf8_lt hu) fun i hi hlt => hkeep _ (unicodeFromUtf8_high hp hu i hi hlt)

/-! ## Strings -/

/-- The mode behind a turn of the loop. -/
def StringStep.mode (sep : UInt8) : StringStep → LexMode
  | .close _ => .code
  | .put _ _ => .str sep
  | .skip _ _ => .str sep

theorem str_step_high {sep b : UInt8} (hsep : IsQuote sep) (h : 0x80 ≤ b) :
    (LexMode.str sep).step b = .str sep := str_step_eq hsep (high_notMem h)

/-- Behind the first byte of an escape the string goes on. -/
theorem strEscape_run {sep : UInt8} (hsep : IsQuote sep) (hm : modeAt m μ p = .strEscape sep)
    (hlt : p < r) (hkeep : ∀ i, p < i → i < r → m i ∉ escapeMarks) : modeAt m μ r = .str sep := by
  have hone : modeAt m μ (p + 1) = .str sep := by rw [modeAt, hm, LexMode.step]
  rcases Nat.eq_or_lt_of_le (Nat.succ_le_of_lt hlt) with rfl | hgt
  · exact hone
  · exact (Acts.of_eq hone (by simp)).run_lt (by simp) hgt fun i hi hir =>
      str_step_eq hsep (hkeep i (Nat.lt_of_succ_le hi) hir)

theorem stringEscape_mode {bufEnd fuel : ℕ} {strict : Bool} {sep : UInt8} {step : StringStep}
    (hsep : IsQuote sep) (hm : modeAt m μ p = .strEscape sep)
    (h : stringEscape m bufEnd strict fuel p = .ok step) :
    modeAt m μ step.next = step.mode sep := by
  have hone : modeAt m μ (p + 1) = .str sep := by rw [modeAt, hm, LexMode.step]
  rw [stringEscape] at h
  split at h
  · split at h
    · exact absurd h (by simp)
    · cases h
      exact hone
  split at h
  · cases h
    exact hone
  split at h
  · cases h
    simp only [StringStep.next, StringStep.mode]
    split
    · rename_i hlf
      refine strEscape_run hsep hm (by omega) fun i hi hlt => ?_
      rw [show i = p + 1 by omega, hlf]
      decide
    · exact hone
  split at h
  · cases h
    exact hone
  split at h
  · split at h
    · cases h
      exact hone
    · exact absurd h (by simp)
  split at h
  · rename_i hhigh
    rw [stringUnicode] at h
    split at h
    · exact absurd h (by simp)
    · rename_i c next hu
      have hnext : modeAt m μ next = .str sep :=
        strEscape_run hsep hm (unicodeFromUtf8_lt hu) fun i hi hlt =>
          high_notMem (unicodeFromUtf8_high hhigh hu i hi.le hlt)
      split at h
      · exact absurd h (by simp)
      · split at h
        · cases h
          exact hnext
        · cases h
          exact hnext
  · obtain ⟨e, he, hr⟩ := Res.bind_eq_ok.mp h
    cases e with
    | char c next =>
        cases hr
        exact strEscape_run hsep hm (parseEscape_lt he) fun i hi hlt =>
          (parseEscape_passes he).notMem i hi.le hlt
    | malformed => exact absurd hr (by simp)
    | none =>
        cases hr
        exact hone

theorem stringStep_mode {bufEnd fuel : ℕ} {strict : Bool} {sep : UInt8} {step : StringStep}
    (hsep : IsQuote sep) (hm : modeAt m μ p = .str sep)
    (h : stringStep m bufEnd strict sep fuel p = .ok step) :
    modeAt m μ step.next = step.mode sep := by
  have hnext : modeAt m μ (p + 1) = (LexMode.str sep).step (m p) := by rw [modeAt, hm]
  rw [stringStep] at h
  split at h
  · exact absurd h (by simp)
  split at h
  · exact absurd h (by simp)
  split at h
  · rename_i hclose
    cases h
    rw [StringStep.next, StringStep.mode, hnext, LexMode.step, if_pos hclose]
  rename_i hclose
  split at h
  · rename_i hbs
    refine stringEscape_mode hsep ?_ h
    rw [hnext, LexMode.step, if_neg hclose, if_pos hbs]
  rename_i hbs
  split at h
  · rename_i hhigh
    rw [stringUnicode] at h
    split at h
    · exact absurd h (by simp)
    · rename_i c next hu
      have hstr := (Acts.of_eq hm (by simp)).unicode (by simp) (fun b => str_step_high hsep) hhigh hu
      split at h
      · exact absurd h (by simp)
      · simp only [Bool.false_and, Bool.false_eq_true, if_false] at h
        cases h
        exact hstr
  · cases h
    rw [StringStep.next, StringStep.mode, hnext, LexMode.step, if_neg hclose, if_neg hbs]

theorem parseString_mode {bufEnd : ℕ} {strict : Bool} {sep : UInt8} (hsep : IsQuote sep) :
    ∀ (fuel p lineNum : ℕ) (r : Literal), modeAt m μ p = .str sep →
      parseString m bufEnd strict sep fuel p lineNum = .ok r → modeAt m μ r.next = .code := by
  intro fuel
  induction fuel with
  | zero => intro p lineNum r _ h; exact absurd h (by simp [parseString])
  | succ fuel ih =>
      intro p lineNum r hm h
      rw [parseString] at h
      obtain ⟨step, hstep, h⟩ := Res.bind_eq_ok.mp h
      have hnext := stringStep_mode hsep hm hstep
      cases step with
      | close next =>
          cases h
          exact hnext
      | skip next lines => exact ih next _ r hnext h
      | put c next =>
          obtain ⟨r', hr', h⟩ := Res.bind_eq_ok.mp h
          cases h
          exact ih next _ r' hnext hr'

theorem stringUnicode_same (h : SameTo m m' q) (escaped : Bool) (hp : p ≤ q) :
    stringUnicode m' escaped p = stringUnicode m escaped p := by
  rw [stringUnicode, stringUnicode, unicodeFromUtf8_sameTo h hp]

theorem stringEscape_same (hend : EndsAt m μ q) (h : SameTo m m' q) {sep : UInt8}
    (hm : modeAt m μ p = .strEscape sep) (bufEnd fuel : ℕ) (strict : Bool) :
    stringEscape m' bufEnd strict fuel p = stringEscape m bufEnd strict fuel p := by
  have hp : p ≤ q := hend.le (by rw [hm]; simp)
  have hp1 : p + 1 ≤ q := hend.le (by rw [modeAt, hm, LexMode.step]; simp)
  simp only [stringEscape, stringParseEscape, h.read hp, h.read hp1, stringUnicode_same h true hp,
    parseEscape_sameTo h fuel hp]

theorem stringStep_same (hend : EndsAt m μ q) (h : SameTo m m' q) {sep : UInt8}
    (hm : modeAt m μ p = .str sep) (bufEnd fuel : ℕ) (strict : Bool) :
    stringStep m' bufEnd strict sep fuel p = stringStep m bufEnd strict sep fuel p := by
  have hp : p ≤ q := hend.le (by rw [hm]; simp)
  rw [stringStep, stringStep, h.read hp]
  by_cases hclose : m p = sep
  · rw [if_pos hclose, if_pos hclose]
  by_cases hbs : m p = ch '\\'
  · have hesc : modeAt m μ (p + 1) = .strEscape sep := by
      rw [modeAt, hm, LexMode.step, if_neg hclose, if_pos hbs]
    rw [if_pos hbs, if_pos hbs, stringEscape_same hend h hesc]
  · rw [if_neg hbs, if_neg hbs, stringUnicode_same h false hp]

theorem parseString_same (hend : EndsAt m μ q) (h : SameTo m m' q) {sep : UInt8}
    (hsep : IsQuote sep) (bufEnd : ℕ) (strict : Bool) :
    ∀ fuel p lineNum, modeAt m μ p = .str sep →
      parseString m' bufEnd strict sep fuel p lineNum =
        parseString m bufEnd strict sep fuel p lineNum := by
  intro fuel
  induction fuel with
  | zero => intro p lineNum _; rfl
  | succ fuel ih =>
      intro p lineNum hm
      rw [parseString, parseString, stringStep_same hend h hm]
      cases hstep : stringStep m bufEnd strict sep fuel p with
      | timeout => rfl
      | error message => rfl
      | ok step =>
          have hnext := stringStep_mode hsep hm hstep
          cases step with
          | close next => rfl
          | skip next lines => exact ih next _ hnext
          | put c next => simp only [Res.ok_bind, ih next _ hnext]

/-! ## Templates -/

/-- What `templateChar` reads behind its first byte. -/
theorem templateChar_rest {c next lines : ℕ} (h : templateChar m p = .ok (c, next, lines)) :
    p < next ∧ ∀ i, p < i → i < next → templateStep (m i) = .template := by
  have hone : ∀ i, p < i → i < p + 1 → templateStep (m i) = .template := fun i hi hlt => by omega
  rw [templateChar] at h
  split at h
  · cases h
    split
    · rename_i hlf
      refine ⟨by omega, fun i hi hlt => ?_⟩
      rw [show i = p + 1 by omega, hlf]
      decide
    · exact ⟨Nat.lt_succ_self p, hone⟩
  split at h
  · cases h
    exact ⟨Nat.lt_succ_self p, hone⟩
  split at h
  · rename_i hhigh
    split at h
    · exact absurd h (by simp)
    · rename_i d next' hu
      split at h
      · exact absurd h (by simp)
      · cases h
        exact ⟨unicodeFromUtf8_lt hu, fun i hi hlt =>
          template_step_high (unicodeFromUtf8_high hhigh hu i hi.le hlt)⟩
  · cases h
    exact ⟨Nat.lt_succ_self p, hone⟩

/-- A dollar is read alone. -/
theorem templateChar_dollar {c next lines : ℕ} (hp : m p = ch '$')
    (h : templateChar m p = .ok (c, next, lines)) : next = p + 1 := by
  rw [templateChar, hp, if_neg (by decide), if_neg (by decide), if_neg (by decide)] at h
  cases h
  rfl

theorem templateChar_same (h : SameTo m m' q) (hp : p ≤ q) :
    templateChar m' p = templateChar m p := by
  rw [templateChar, templateChar, h.read hp, unicodeFromUtf8_sameTo h hp]
  by_cases hcr : m p = ch '\r'
  · rw [if_pos hcr, if_pos hcr, h.read (h.succ_le hp (by rw [hcr]; decide))]
  · rw [if_neg hcr, if_neg hcr]

/-- A character of a template that does not end it. -/
theorem template_char_acts {c next lines : ℕ} (hacts : Acts m μ p .template)
    (hclose : m p ≠ ch '\x60') (hbs : m p ≠ ch '\\')
    (hdollar : ¬ (m p = ch '$' ∧ m (p + 1) = ch '\x7b'))
    (h : templateChar m p = .ok (c, next, lines)) : Acts m μ next .template := by
  have hstep := hacts.step
  rw [LexMode.step, templateStep, if_neg hclose, if_neg hbs] at hstep
  by_cases hd : m p = ch '$'
  · obtain rfl := templateChar_dollar hd h
    rw [if_pos hd] at hstep
    refine ⟨by rw [hstep]; simp, ?_⟩
    rw [hstep]
    exact if_neg fun hb => hdollar ⟨hd, hb⟩
  · rw [if_neg hd] at hstep
    obtain ⟨hlt, hrest⟩ := templateChar_rest h
    exact (Acts.of_eq hstep (by simp)).run (by simp) hlt fun i hi hir =>
      hrest i (Nat.lt_of_succ_le hi) hir

/-- The same behind a backslash. -/
theorem template_escape_acts {c next lines : ℕ} (hacts : Acts m μ p .template) (hbs : m p = ch '\\')
    (h : templateChar m (p + 1) = .ok (c, next, lines)) : Acts m μ next .template := by
  have hstep := hacts.step
  rw [hbs, show LexMode.template.step (ch '\\') = .templateEscape by decide] at hstep
  obtain ⟨hlt, hrest⟩ := templateChar_rest h
  have hone : modeAt m μ (p + 1 + 1) = .template := by rw [modeAt, hstep, LexMode.step]
  exact (Acts.of_eq hone (by simp)).run (by simp) hlt fun i hi hir =>
    hrest i (Nat.lt_of_succ_le hi) hir

theorem parseTemplatePart_mode {bufEnd : ℕ} :
    ∀ (fuel p lineNum : ℕ) (r : UInt8 × Literal), Acts m μ p .template →
      parseTemplatePart m bufEnd fuel p lineNum = .ok r → modeAt m μ r.2.next = .code := by
  intro fuel
  induction fuel with
  | zero => intro p lineNum r _ h; exact absurd h (by simp [parseTemplatePart])
  | succ fuel ih =>
      intro p lineNum r hacts h
      rw [parseTemplatePart] at h
      split at h
      · exact absurd h (by simp)
      split at h
      · rename_i hclose
        cases h
        change modeAt m μ (p + 1) = _
        rw [hacts.step, hclose]
        decide
      rename_i hclose
      split at h
      · rename_i hdollar
        cases h
        change modeAt m μ (p + 1 + 1) = _
        rw [modeAt, hacts.step, hdollar.1, hdollar.2]
        decide
      rename_i hdollar
      split at h
      · rename_i hbs
        split at h
        · exact absurd h (by simp)
        · obtain ⟨⟨c, next, lines⟩, hchar, h⟩ := Res.bind_eq_ok.mp h
          obtain ⟨r', hr', h⟩ := Res.bind_eq_ok.mp h
          cases h
          exact ih next _ r' (template_escape_acts hacts hbs hchar) hr'
      · rename_i hbs
        obtain ⟨⟨c, next, lines⟩, hchar, h⟩ := Res.bind_eq_ok.mp h
        obtain ⟨r', hr', h⟩ := Res.bind_eq_ok.mp h
        cases h
        exact ih next _ r' (template_char_acts hacts hclose hbs hdollar hchar) hr'

theorem parseTemplatePart_same (hend : EndsAt m μ q) (h : SameTo m m' q) (bufEnd : ℕ) :
    ∀ fuel p lineNum, Acts m μ p .template →
      parseTemplatePart m' bufEnd fuel p lineNum = parseTemplatePart m bufEnd fuel p lineNum := by
  intro fuel
  induction fuel with
  | zero => intro p lineNum _; rfl
  | succ fuel ih =>
      intro p lineNum hacts
      have hp : p ≤ q := hend.le hacts.ne_eof
      rw [parseTemplatePart, parseTemplatePart, h.read hp]
      by_cases hclose : m p = ch '\x60'
      · rw [if_pos hclose, if_pos hclose]
      have hdollar : (m p = ch '$' ∧ m' (p + 1) = ch '\x7b') ↔
          (m p = ch '$' ∧ m (p + 1) = ch '\x7b') := by
        refine and_congr_right fun hd => ?_
        rw [h.read (h.succ_le hp (by rw [hd]; decide))]
      by_cases hd : m p = ch '$' ∧ m (p + 1) = ch '\x7b'
      · rw [if_neg hclose, if_neg hclose, if_pos (hdollar.mpr hd), if_pos hd]
      rw [if_neg hclose, if_neg hclose, if_neg (mt hdollar.mp hd), if_neg hd]
      by_cases hbs : m p = ch '\\'
      · have hp1 : p + 1 ≤ q := h.succ_le hp (by rw [hbs]; decide)
        rw [if_pos hbs, if_pos hbs, templateChar_same h hp1]
        cases hchar : templateChar m (p + 1) with
        | timeout => rfl
        | error message => rfl
        | ok r =>
            obtain ⟨c, next, lines⟩ := r
            simp only [Res.ok_bind, ih next _ (template_escape_acts hacts hbs hchar)]
      · rw [if_neg hbs, if_neg hbs, templateChar_same h hp]
        cases hchar : templateChar m p with
        | timeout => rfl
        | error message => rfl
        | ok r =>
            obtain ⟨c, next, lines⟩ := r
            simp only [Res.ok_bind, ih next _ (template_char_acts hacts hclose hbs hd hchar)]

/-! ## Comments -/

/-- A byte that does not end a comment. -/
theorem block_next_acts (hacts : Acts m μ p .block) (hclose : ¬ (m p = ch '*' ∧ m (p + 1) = ch '/')) :
    Acts m μ (p + 1) .block := by
  have hstep := hacts.step
  rw [LexMode.step] at hstep
  by_cases hstar : m p = ch '*'
  · rw [if_pos hstar] at hstep
    refine ⟨by rw [hstep]; simp, ?_⟩
    rw [hstep]
    exact if_neg fun hs => hclose ⟨hstar, hs⟩
  · rw [if_neg hstar] at hstep
    exact Acts.of_eq hstep (by simp)

theorem blockComment_mode {bufEnd : ℕ} :
    ∀ (fuel p lineNum : ℕ) (gotLf : Bool) (r : Comment), Acts m μ p .block →
      blockComment m bufEnd fuel p lineNum gotLf = .ok r → modeAt m μ r.next = .code := by
  intro fuel
  induction fuel with
  | zero => intro p lineNum gotLf r _ h; exact absurd h (by simp [blockComment])
  | succ fuel ih =>
      intro p lineNum gotLf r hacts h
      rw [blockComment] at h
      split at h
      · exact absurd h (by simp)
      split at h
      · rename_i hclose
        cases h
        change modeAt m μ (p + 1 + 1) = _
        rw [modeAt, hacts.step, hclose.1, hclose.2]
        decide
      rename_i hclose
      have hnext := block_next_acts hacts hclose
      split at h
      · exact ih _ _ _ r hnext h
      split at h
      · exact ih _ _ _ r hnext h
      split at h
      · rename_i hhigh
        split at h
        · exact ih _ _ _ r hacts h
        · rename_i c next hu
          refine ih _ _ _ r (Acts.of_eq ?_ (by simp)) h
          exact hacts.unicode (by simp) (fun b => block_step_high) hhigh hu
      · exact ih _ _ _ r hnext h

theorem blockComment_same (hend : EndsAt m μ q) (h : SameTo m m' q) (bufEnd : ℕ) :
    ∀ fuel p lineNum gotLf, Acts m μ p .block →
      blockComment m' bufEnd fuel p lineNum gotLf = blockComment m bufEnd fuel p lineNum gotLf := by
  intro fuel
  induction fuel with
  | zero => intro p lineNum gotLf _; rfl
  | succ fuel ih =>
      intro p lineNum gotLf hacts
      have hp : p ≤ q := hend.le hacts.ne_eof
      have hstar : (m p = ch '*' ∧ m' (p + 1) = ch '/') ↔ (m p = ch '*' ∧ m (p + 1) = ch '/') := by
        refine and_congr_right fun hs => ?_
        rw [h.read (h.succ_le hp (by rw [hs]; decide))]
      rw [blockComment, blockComment, h.read hp, unicodeFromUtf8_sameTo h hp]
      by_cases hzero : m p = 0 ∧ bufEnd ≤ p
      · rw [if_pos hzero, if_pos hzero]
      by_cases hclose : m p = ch '*' ∧ m (p + 1) = ch '/'
      · rw [if_neg hzero, if_neg hzero, if_pos (hstar.mpr hclose), if_pos hclose]
      have hnext := block_next_acts hacts hclose
      rw [if_neg hzero, if_neg hzero, if_neg (mt hstar.mp hclose), if_neg hclose, ih _ _ _ hnext,
        ih _ _ _ hnext, ih _ _ _ hnext]
      by_cases hhigh : 0x80 ≤ m p
      · cases hu : unicodeFromUtf8 m p with
        | none => simp only [ih _ _ _ hacts]
        | some r =>
            obtain ⟨c, next⟩ := r
            have hmode := hacts.unicode (by simp) (fun b => block_step_high) hhigh hu
            simp only [ih _ _ _ (Acts.of_eq hmode (by simp))]
      · rw [if_neg hhigh, if_neg hhigh]

/-- What a character from 128 on is made of. -/
theorem unicodeFromUtf8_inv {c next : ℕ} (hp : 0x80 ≤ m p)
    (hu : unicodeFromUtf8 m p = some (c, next)) :
    ∃ l, utf8Length (m p).toNat = some l ∧
      utf8Continue m (p + 1) l ((m p).toNat &&& utf8FirstCodeMask l) = some c ∧
      utf8MinCode l ≤ c ∧ next = p + 1 + l := by
  have hnat : 0x80 ≤ (m p).toNat := UInt8.le_iff_toNat_le.mp hp
  simp only [unicodeFromUtf8] at hu
  rw [if_neg (not_lt.mpr hnat)] at hu
  split at hu
  · exact absurd hu (by simp)
  · rename_i l hl
    split at hu
    · exact absurd hu (by simp)
    · rename_i d hd
      split at hu
      · exact absurd hu (by simp)
      · rename_i hmin
        simp only [Option.some.injEq, Prod.mk.injEq] at hu
        obtain ⟨rfl, rfl⟩ := hu
        exact ⟨l, hl, hd, not_lt.mp hmin, rfl⟩

theorem utf8Length_cases {n l : ℕ} (h : utf8Length n = some l) :
    (l = 1 ∧ 0xc0 ≤ n ∧ n ≤ 0xdf) ∨ (l = 2 ∧ 0xe0 ≤ n ∧ n ≤ 0xef) ∨
      ((l = 3 ∨ l = 4 ∨ l = 5) ∧ 0xf0 ≤ n) := by
  unfold utf8Length at h
  split at h
  · cases h
    omega
  split at h
  · cases h
    omega
  split at h
  · cases h
    omega
  split at h
  · cases h
    omega
  split at h
  · cases h
    omega
  · exact absurd h (by simp)

theorem utf8Continue_succ {l p c d : ℕ} (h : utf8Continue m p (l + 1) c = some d) :
    utf8Continue m (p + 1) l (c * 64 + (m p).toNat % 64) = some d := by
  have hbits : c <<< 6 ||| (m p).toNat &&& 0x3f = c * 64 + (m p).toNat % 64 := by
    have hmod : (m p).toNat &&& 0x3f = (m p).toNat % 64 := Nat.and_two_pow_sub_one_eq_mod _ 6
    have hlt : (m p).toNat % 64 < 2 ^ 6 := Nat.mod_lt _ (by decide)
    rw [hmod, ← Nat.shiftLeft_add_eq_or_of_lt hlt, Nat.shiftLeft_eq]
  simp only [utf8Continue] at h
  split at h
  · exact absurd h (by simp)
  · rwa [hbits] at h

/-- U+2028 and U+2029 in UTF-8. -/
theorem unicodeFromUtf8_line {c next : ℕ} (hp : 0x80 ≤ m p)
    (hu : unicodeFromUtf8 m p = some (c, next)) :
    ((c = cpLS ∨ c = cpPS) ↔ (m p).toNat = 0xe2 ∧ (m (p + 1)).toNat = 0x80 ∧
      ((m (p + 2)).toNat = 0xa8 ∨ (m (p + 2)).toNat = 0xa9)) ∧
    ((m p).toNat = 0xe2 → next = p + 3) := by
  obtain ⟨l, hl, hcont, hmin, rfl⟩ := unicodeFromUtf8_inv hp hu
  have hbytes := utf8Continue_bytes l (p + 1) _ c hcont
  rw [cpLS, cpPS]
  rcases utf8Length_cases hl with ⟨rfl, hlow, hhigh⟩ | ⟨rfl, hlow, hhigh⟩ | ⟨hl', hlow⟩
  · have hmask : (m p).toNat &&& utf8FirstCodeMask 1 = (m p).toNat % 32 :=
      Nat.and_two_pow_sub_one_eq_mod _ 5
    have hone := utf8Continue_succ hcont
    rw [hmask, utf8Continue, Option.some.injEq] at hone
    refine ⟨⟨fun h => by omega, fun h => by omega⟩, fun h => by omega⟩
  · have hmask : (m p).toNat &&& utf8FirstCodeMask 2 = (m p).toNat % 16 :=
      Nat.and_two_pow_sub_one_eq_mod _ 4
    have htwo := utf8Continue_succ (utf8Continue_succ hcont)
    rw [hmask, utf8Continue, Option.some.injEq] at htwo
    have h1 := hbytes (p + 1) le_rfl (by omega)
    have h2 := hbytes (p + 1 + 1) (by omega) (by omega)
    refine ⟨⟨fun h => ?_, fun h => ?_⟩, fun _ => rfl⟩
    · change _ ∧ _ ∧ ((m (p + 1 + 1)).toNat = _ ∨ (m (p + 1 + 1)).toNat = _)
      omega
    · change _ ∧ _ ∧ ((m (p + 1 + 1)).toNat = _ ∨ (m (p + 1 + 1)).toNat = _) at h
      omega
  · have hbig : 0x10000 ≤ utf8MinCode l := by rcases hl' with rfl | rfl | rfl <;> decide
    refine ⟨⟨fun h => by omega, fun h => by omega⟩, fun h => by omega⟩

/-- A byte in a line comment that does not end it. -/
theorem line_step {a b c : UInt8} (hm : modeAt m μ p = .line a b) (hc : m p = c)
    (hlf : c ≠ ch '\r' ∧ c ≠ ch '\n') (hls : ¬ (a = 0xe2 ∧ b = 0x80 ∧ (c = 0xa8 ∨ c = 0xa9))) :
    modeAt m μ (p + 1) = .line b c := by
  rw [modeAt, hm, hc, LexMode.step, if_neg]
  rintro (h | h | h)
  · exact hlf.1 h
  · exact hlf.2 h
  · exact hls h

theorem high_ne_lf {c : UInt8} (h : 0x80 ≤ c) : c ≠ ch '\r' ∧ c ≠ ch '\n' :=
  ⟨high_ne h (by decide), high_ne h (by decide)⟩

/-- The continuation bytes of a character that does not begin as U+2028 does. -/
theorem line_continue {l : ℕ} (hbytes : ∀ i, p ≤ i → i < p + l → 0x80 ≤ m i ∧ (m i).toNat < 0xc0)
    {a b : UInt8} (hm : modeAt m μ p = .line a b) (hb : b ≠ 0xe2) (hab : a = 0xe2 → b ≠ 0x80) :
    ∃ a b, modeAt m μ (p + l) = .line a b := by
  induction l generalizing p a b with
  | zero => exact ⟨a, b, hm⟩
  | succ l ih =>
      obtain ⟨hhigh, hlt⟩ := hbytes p le_rfl (by omega)
      have hnext := line_step hm rfl (high_ne_lf hhigh) fun h => hab h.1 h.2.1
      have hne : m p ≠ 0xe2 := by
        intro h
        rw [h] at hlt
        exact absurd hlt (by decide)
      rw [show p + (l + 1) = p + 1 + l by omega]
      exact ih (fun i hi hil => hbytes i (by omega) (by omega)) hnext hne fun h => absurd h hb

/-- A character from 128 on in a line comment; U+2028 and U+2029 end it. -/
theorem line_unicode {a b : UInt8} {c next : ℕ} (hm : modeAt m μ p = .line a b) (hp : 0x80 ≤ m p)
    (hu : unicodeFromUtf8 m p = some (c, next)) :
    if c = cpLS ∨ c = cpPS then modeAt m μ next = .code
    else ∃ a b, modeAt m μ next = .line a b := by
  obtain ⟨hline, hthree⟩ := unicodeFromUtf8_line hp hu
  obtain ⟨l, hl, hcont, -, hnext⟩ := unicodeFromUtf8_inv hp hu
  have hbytes := utf8Continue_bytes l (p + 1) _ c hcont
  have hlead : 0xc0 ≤ (m p).toNat := by
    rcases utf8Length_cases hl with h | h | h <;> omega
  have hlead' : m p ≠ 0xa8 ∧ m p ≠ 0xa9 ∧ m p ≠ 0x80 := by
    refine ⟨?_, ?_, ?_⟩ <;> intro h <;> rw [h] at hlead <;> exact absurd hlead (by decide)
  have hfirst : modeAt m μ (p + 1) = .line b (m p) := by
    refine line_step hm rfl (high_ne_lf hp) fun h => ?_
    exact h.2.2.elim hlead'.1 hlead'.2.1
  have htoNat : ∀ {x y : UInt8}, x.toNat = y.toNat ↔ x = y := UInt8.toNat_inj
  by_cases he2 : m p = 0xe2
  · -- three bytes, of which the last two decide
    have hnat : (m p).toNat = 0xe2 := by rw [he2]; rfl
    obtain rfl : next = p + 1 + 1 + 1 := hthree hnat
    obtain rfl : l = 2 := by omega
    have h1 := (hbytes (p + 1) le_rfl (by omega)).1
    have h2 := (hbytes (p + 1 + 1) (by omega) (by omega)).1
    have hsecond : modeAt m μ (p + 1 + 1) = .line (m p) (m (p + 1)) := by
      refine line_step hfirst rfl (high_ne_lf (high_of_toNat h1)) fun h => ?_
      exact hlead'.2.2 h.2.1
    by_cases hls : c = cpLS ∨ c = cpPS
    · rw [if_pos hls]
      obtain ⟨-, h80, h28⟩ := hline.mp hls
      rw [modeAt, hsecond, LexMode.step, if_pos]
      refine Or.inr (Or.inr ⟨he2, htoNat.mp h80, ?_⟩)
      exact h28.imp (fun h => htoNat.mp h) (fun h => htoNat.mp h)
    · rw [if_neg hls]
      refine ⟨_, _, line_step hsecond rfl (high_ne_lf (high_of_toNat h2)) fun h => ?_⟩
      refine hls (hline.mpr ⟨hnat, by rw [h.2.1]; rfl, ?_⟩)
      exact h.2.2.imp (fun h => by rw [show p + 2 = p + 1 + 1 from rfl, h]; rfl)
        (fun h => by rw [show p + 2 = p + 1 + 1 from rfl, h]; rfl)
  · have hls : ¬ (c = cpLS ∨ c = cpPS) := fun h => he2 (htoNat.mp (hline.mp h).1)
    rw [if_neg hls, hnext]
    refine line_continue (fun i hi hil => ?_) hfirst he2 fun _ => hlead'.2.2
    exact ⟨high_of_toNat (hbytes i hi hil).1, (hbytes i hi hil).2⟩

/-- A byte below 128 that does not end a line comment. -/
theorem line_ascii {a b : UInt8} (hm : modeAt m μ p = .line a b) (hlow : ¬ 0x80 ≤ m p)
    (hlf : ¬ (m p = ch '\r' ∨ m p = ch '\n')) : modeAt m μ (p + 1) = .line b (m p) := by
  have hls : ¬ (m p = ch '\r' ∨ m p = ch '\n' ∨ (a = 0xe2 ∧ b = 0x80 ∧ (m p = 0xa8 ∨ m p = 0xa9))) := by
    rintro (h | h | ⟨-, -, h | h⟩)
    · exact hlf (Or.inl h)
    · exact hlf (Or.inr h)
    · exact hlow (by rw [h]; decide)
    · exact hlow (by rw [h]; decide)
  rw [modeAt, hm, LexMode.step, if_neg hls]

/-- A line terminator is left to the code behind the comment. -/
theorem line_end_acts {a b : UInt8} (hm : modeAt m μ p = .line a b)
    (hlf : m p = ch '\r' ∨ m p = ch '\n') : Acts m μ p .code := by
  refine ⟨by rw [hm]; simp, ?_⟩
  have hcode : codeStep (m p) = .code := by rcases hlf with h | h <;> rw [h] <;> decide
  have hline : (LexMode.line a b).step (m p) = .code := if_pos (hlf.imp_right Or.inl)
  rw [hm, hline]
  exact hcode.symm

/-- Where a comment up to the end of the line leaves off: in code, or at the end of the buffer. -/
def LineEnd (m : Mem) (μ : LexMode) (bufEnd r : ℕ) : Prop :=
  Acts m μ r .code ∨ (bufEnd ≤ r ∧ modeAt m μ r ≠ .eof)

/-- A character from 128 on in the loop of a comment, and the rest of the loop. -/
theorem LineEnd.unicode {a b : UInt8} {bufEnd c next r : ℕ} {rest : Res ℕ}
    (hm : modeAt m μ p = .line a b) (hp : 0x80 ≤ m p) (hu : unicodeFromUtf8 m p = some (c, next))
    (hrest : (∃ a b, modeAt m μ next = .line a b) → rest = .ok r → LineEnd m μ bufEnd r)
    (h : (if c = cpLS || c = cpPS then .ok next else rest) = .ok r) : LineEnd m μ bufEnd r := by
  have hnext := line_unicode hm hp hu
  by_cases hls : c = cpLS ∨ c = cpPS
  · rw [if_pos (by simpa using hls)] at h
    cases h
    rw [if_pos hls] at hnext
    exact Or.inl (Acts.of_eq hnext (by simp))
  · rw [if_neg (by simpa using hls)] at h
    rw [if_neg hls] at hnext
    exact hrest hnext h

/-- Two loops that do the same in the comment do the same from such a character on. -/
theorem line_unicode_congr {a b : UInt8} {c next : ℕ} {rest rest' : Res ℕ}
    (hm : modeAt m μ p = .line a b) (hp : 0x80 ≤ m p) (hu : unicodeFromUtf8 m p = some (c, next))
    (hrest : (∃ a b, modeAt m μ next = .line a b) → rest' = rest) :
    (if c = cpLS || c = cpPS then .ok next else rest') =
      if c = cpLS || c = cpPS then .ok next else rest := by
  have hnext := line_unicode hm hp hu
  by_cases hls : c = cpLS ∨ c = cpPS
  · rw [if_pos (by simpa using hls), if_pos (by simpa using hls)]
  · rw [if_neg hls] at hnext
    rw [hrest hnext]

theorem lineComment_mode {bufEnd : ℕ} :
    ∀ (fuel p r : ℕ), (∃ a b, modeAt m μ p = .line a b) →
      lineComment m bufEnd fuel p = .ok r → LineEnd m μ bufEnd r := by
  intro fuel
  induction fuel with
  | zero => intro p r _ h; exact absurd h (by simp [lineComment])
  | succ fuel ih =>
      rintro p r ⟨a, b, hm⟩ h
      rw [lineComment] at h
      split at h
      · rename_i hzero
        cases h
        exact Or.inr ⟨hzero.2, by rw [hm]; simp⟩
      split at h
      · rename_i hlf
        cases h
        exact Or.inl (line_end_acts hm hlf)
      rename_i hlf
      split at h
      · rename_i hhigh
        split at h
        · exact ih p r ⟨a, b, hm⟩ h
        · rename_i c next hu
          exact LineEnd.unicode hm hhigh hu (ih next r) h
      · rename_i hlow
        exact ih _ r ⟨_, _, line_ascii hm hlow hlf⟩ h

theorem lineComment_same (hend : EndsAt m μ q) (h : SameTo m m' q) (bufEnd : ℕ) :
    ∀ fuel p, (∃ a b, modeAt m μ p = .line a b) →
      lineComment m' bufEnd fuel p = lineComment m bufEnd fuel p := by
  intro fuel
  induction fuel with
  | zero => intro p _; rfl
  | succ fuel ih =>
      rintro p ⟨a, b, hm⟩
      have hp : p ≤ q := hend.le (by rw [hm]; simp)
      rw [lineComment, lineComment, h.read hp, unicodeFromUtf8_sameTo h hp]
      by_cases hlf : m p = ch '\r' ∨ m p = ch '\n'
      · simp only [hlf, if_true]
      by_cases hhigh : 0x80 ≤ m p
      · cases hu : unicodeFromUtf8 m p with
        | none => simp only [hhigh, if_true, ih p ⟨a, b, hm⟩]
        | some r =>
            obtain ⟨c, next⟩ := r
            simp only [hhigh, if_true, line_unicode_congr hm hhigh hu (ih next)]
      · simp only [hhigh, if_false, ih _ ⟨_, _, line_ascii hm hhigh hlf⟩]

/-- The first line, which may be a comment for the shell. -/
theorem shebangLoop_mode {bufEnd : ℕ} :
    ∀ (fuel p r : ℕ), (∃ a b, modeAt m μ p = .line a b) →
      shebangLoop m bufEnd fuel p = .ok r → LineEnd m μ bufEnd r := by
  intro fuel
  induction fuel with
  | zero => intro p r _ h; exact absurd h (by simp [shebangLoop])
  | succ fuel ih =>
      rintro p r ⟨a, b, hm⟩ h
      rw [shebangLoop] at h
      split at h
      · rename_i hend
        cases h
        exact Or.inr ⟨hend, by rw [hm]; simp⟩
      split at h
      · rename_i hlf
        cases h
        exact Or.inl (line_end_acts hm hlf.symm)
      rename_i hlf
      split at h
      · rename_i hhigh
        split at h
        · exact ih p r ⟨a, b, hm⟩ h
        · rename_i c next hu
          exact LineEnd.unicode hm hhigh hu (ih next r) h
      · rename_i hlow
        exact ih _ r ⟨_, _, line_ascii hm hlow fun h => hlf h.symm⟩ h

theorem shebangLoop_same (hend : EndsAt m μ q) (h : SameTo m m' q) (bufEnd : ℕ) :
    ∀ fuel p, (∃ a b, modeAt m μ p = .line a b) →
      shebangLoop m' bufEnd fuel p = shebangLoop m bufEnd fuel p := by
  intro fuel
  induction fuel with
  | zero => intro p _; rfl
  | succ fuel ih =>
      rintro p ⟨a, b, hm⟩
      have hp : p ≤ q := hend.le (by rw [hm]; simp)
      rw [shebangLoop, shebangLoop, h.read hp, unicodeFromUtf8_sameTo h hp]
      by_cases hlf : m p = ch '\n' ∨ m p = ch '\r'
      · simp only [hlf, if_true]
      by_cases hhigh : 0x80 ≤ m p
      · cases hu : unicodeFromUtf8 m p with
        | none => simp only [hhigh, if_true, ih p ⟨a, b, hm⟩]
        | some r =>
            obtain ⟨c, next⟩ := r
            simp only [hhigh, if_true, line_unicode_congr hm hhigh hu (ih next)]
      · simp only [hhigh, if_false, ih _ ⟨_, _, line_ascii hm hhigh fun h => hlf h.symm⟩]

/-! ## Tokens -/

/-- A slash that opens no comment. -/
theorem scanAscii_slash (cfg : LexConfig) (fuel : ℕ) (hp : m p = ch '/') :
    scanAscii cfg m fuel p =
      .ok (if m (p + 1) = ch '=' then (.punct .divAssign, p + 2) else (.char (ch '/'), p + 1)) := by
  have hpunct : punctuator (ch '/') (m (p + 1)) (m (p + 2)) (m (p + 3)) =
      if m (p + 1) = ch '=' then some (.divAssign, 2) else none := by
    simp +decide [punctuator]
  have hascii : scanAscii cfg m fuel p = .ok (scanPunctuator m p) := by
    simp +decide [scanAscii, hp]
  rw [hascii, scanPunctuator, hp, hpunct]
  by_cases heq : m (p + 1) = ch '='
  · rw [if_pos heq, if_pos heq]
  · rw [if_neg heq, if_neg heq]

theorem slash_acts (hacts : Acts m μ p .code) (hp : m p = ch '/') (hstar : m (p + 1) ≠ ch '*')
    (hslash : m (p + 1) ≠ ch '/') {cfg : LexConfig} {fuel next : ℕ} {val : TokenVal}
    (h : scanAscii cfg m fuel p = .ok (val, next)) : Acts m μ next .code := by
  have hone : modeAt m μ (p + 1) = .slash := by
    rw [hacts.step, hp]
    decide
  have hcode : LexMode.slash.step (m (p + 1)) = codeStep (m (p + 1)) :=
    (if_neg hstar).trans (if_neg hslash)
  rw [scanAscii_slash cfg fuel hp] at h
  split at h
  · rename_i heq
    cases h
    refine Acts.of_eq (show modeAt m μ (p + 1 + 1) = .code from ?_) (by simp)
    rw [modeAt, hone, hcode, heq]
    decide
  · cases h
    refine ⟨by rw [hone]; simp, ?_⟩
    rw [hone]
    exact hcode

/-- Where a token leaves off: in code, or behind a place outside of the buffer. -/
def TokenEnd (m : Mem) (μ : LexMode) (bufEnd r : ℕ) : Prop :=
  Acts m μ r .code ∨ ∃ s ≤ r, bufEnd ≤ s ∧ modeAt m μ s ≠ .eof

theorem notMem_textMarks {b : UInt8} (h0 : b ≠ 0) (h1 : ¬ (b = ch '\'' ∨ b = ch '"'))
    (h2 : b ≠ ch '\x60') (h3 : b ≠ ch '/') : b ∉ textMarks := by
  simp only [textMarks, List.mem_cons, List.not_mem_nil, or_false, not_or]
  exact ⟨h0, fun h => h1 (Or.inl h), fun h => h1 (Or.inr h), h2, h3⟩

theorem codeStep_quote {b : UInt8} (h : b = ch '\'' ∨ b = ch '"') : codeStep b = .str b := by
  rcases h with rfl | rfl <;> decide

/-- The code behind a line terminator. -/
theorem lf_acts (hacts : Acts m μ p .code) (hp : m p = ch '\r') :
    Acts m μ (if m (p + 1) = ch '\n' then p + 2 else p + 1) .code := by
  have hone : modeAt m μ (p + 1) = .code := hacts.keep (by rw [hp]; decide)
  split
  · rename_i hlf
    exact Acts.of_eq ((Acts.of_eq hone (by simp)).keep (by rw [hlf]; decide)) (by simp)
  · exact Acts.of_eq hone (by simp)

/-- White space in a line. -/
theorem space_acts (hacts : Acts m μ p .code)
    (hp : m p = ch '\x0c' ∨ m p = ch '\x0b' ∨ m p = ch ' ' ∨ m p = ch '\t') :
    Acts m μ (p + 1) .code := by
  have hcode : codeStep (m p) = .code := by
    rcases hp with hp | hp | hp | hp <;> rw [hp] <;> decide
  exact Acts.of_eq (hacts.keep hcode) (by simp)

/-! What opens a text or a comment. -/

theorem template_opens (hacts : Acts m μ p .code) (hp : m p = ch '\x60') :
    Acts m μ (p + 1) .template := by
  have hmode : modeAt m μ (p + 1) = .template := by
    rw [hacts.step, hp]
    decide
  exact Acts.of_eq hmode (by simp)

theorem str_opens (hacts : Acts m μ p .code) (hp : m p = ch '\'' ∨ m p = ch '"') :
    modeAt m μ (p + 1) = .str (m p) := hacts.step.trans (codeStep_quote hp)

theorem block_opens (hacts : Acts m μ p .code) (hp : m p = ch '/' ∧ m (p + 1) = ch '*') :
    Acts m μ (p + 2) .block := by
  have hmode : modeAt m μ (p + 1 + 1) = .block := by
    rw [modeAt, hacts.step, hp.1, hp.2]
    decide
  exact Acts.of_eq hmode (by simp)

theorem line_opens (hacts : Acts m μ p .code) (hp : m p = ch '/' ∧ m (p + 1) = ch '/') :
    modeAt m μ (p + 2) = .line 0 0 := by
  change modeAt m μ (p + 1 + 1) = .line 0 0
  rw [modeAt, hacts.step, hp.1, hp.2]
  decide

theorem unicode_acts (hacts : Acts m μ p .code) (hhigh : 0x80 ≤ m p) :
    Acts m μ ((unicodeFromUtf8 m p).getD (invalidChar, p)).2 .code := by
  cases hu : unicodeFromUtf8 m p with
  | none => exact hacts
  | some r =>
      have hkeep : ∀ b : UInt8, 0x80 ≤ b → LexMode.code.step b = .code := fun b hb =>
        codeStep_eq fun hmem => high_notMem hb (textMarks_subset hmem)
      exact Acts.of_eq (hacts.unicode (by simp) hkeep hhigh hu) (by simp)

/-- Behind a token the automaton is in code again. -/
theorem scanToken_mode (h : SameTo m m' q) {cfg : LexConfig} (hcfg : cfg.allowHtmlComments = false)
    {bufEnd lastLine : ℕ} :
    ∀ (fuel p lineNum : ℕ) (gotLf : Bool) (r : Scanned), Acts m μ p .code →
      scanToken cfg m bufEnd lastLine fuel p lineNum gotLf = .ok r → TokenEnd m μ bufEnd r.next := by
  intro fuel
  induction fuel with
  | zero => intro p lineNum gotLf r _ hr; exact absurd hr (by simp [scanToken])
  | succ fuel ih =>
      intro p lineNum gotLf r hacts hr
      rw [scanToken] at hr
      by_cases h0 : m p = 0
      · rw [if_pos h0] at hr
        cases hr
        exact Or.inl hacts
      rw [if_neg h0] at hr
      by_cases h1 : m p = ch '\x60'
      · rw [if_pos h1] at hr
        obtain ⟨t, ht, hr⟩ := Res.bind_eq_ok.mp hr
        cases hr
        have hmode := parseTemplatePart_mode fuel _ _ t (template_opens hacts h1) ht
        exact Or.inl (Acts.of_eq hmode (by simp))
      rw [if_neg h1] at hr
      by_cases h2 : m p = ch '\'' ∨ m p = ch '"'
      · rw [if_pos h2] at hr
        obtain ⟨t, ht, hr⟩ := Res.bind_eq_ok.mp hr
        cases hr
        have hmode := parseString_mode h2 fuel _ _ t (str_opens hacts h2) ht
        exact Or.inl (Acts.of_eq hmode (by simp))
      rw [if_neg h2] at hr
      by_cases h3 : m p = ch '\r'
      · rw [if_pos h3] at hr
        exact ih _ _ _ r (lf_acts hacts h3) hr
      rw [if_neg h3] at hr
      by_cases h4 : m p = ch '\n'
      · rw [if_pos h4] at hr
        exact ih _ _ _ r (Acts.of_eq (hacts.keep (by rw [h4]; decide)) (by simp)) hr
      rw [if_neg h4] at hr
      by_cases h5 : m p = ch '\x0c' ∨ m p = ch '\x0b' ∨ m p = ch ' ' ∨ m p = ch '\t'
      · rw [if_pos h5] at hr
        exact ih _ _ _ r (space_acts hacts h5) hr
      rw [if_neg h5] at hr
      by_cases h6 : m p = ch '/' ∧ m (p + 1) = ch '*'
      · rw [if_pos h6] at hr
        obtain ⟨t, ht, hr⟩ := Res.bind_eq_ok.mp hr
        have hmode := blockComment_mode fuel _ _ _ t (block_opens hacts h6) ht
        exact ih _ _ _ r (Acts.of_eq hmode (by simp)) hr
      rw [if_neg h6] at hr
      by_cases h7 : m p = ch '/' ∧ m (p + 1) = ch '/'
      · rw [if_pos h7] at hr
        obtain ⟨t, ht, hr⟩ := Res.bind_eq_ok.mp hr
        rcases lineComment_mode fuel _ t ⟨0, 0, line_opens hacts h7⟩ ht with hend | ⟨hend, hne⟩
        · exact ih _ _ _ r hend hr
        · have hle := (scanToken_local h cfg bufEnd lastLine fuel t lineNum gotLf).le r hr
          exact Or.inr ⟨t, hle, hend, hne⟩
      rw [if_neg h7] at hr
      have h8 : ¬ isHtmlComment cfg m lastLine p lineNum := fun hhtml => by
        rw [hhtml.1] at hcfg
        exact absurd hcfg (by decide)
      rw [if_neg h8] at hr
      by_cases h9 : 0x80 ≤ m p
      · rw [if_pos h9] at hr
        have hnext := unicode_acts hacts h9
        simp only at hr
        split at hr
        · exact ih _ _ _ r hnext hr
        split at hr
        · exact ih _ _ _ r hnext hr
        split at hr
        · obtain ⟨t, ht, hr⟩ := Res.bind_eq_ok.mp hr
          cases hr
          exact Or.inl (hnext.code_passes ((scanIdent_plain h cfg fuel _ _ false).passes t ht))
        · exact absurd hr (by simp)
      · rw [if_neg h9] at hr
        obtain ⟨t, ht, hr⟩ := Res.bind_eq_ok.mp hr
        cases hr
        by_cases hslash : m p = ch '/'
        · exact Or.inl (slash_acts hacts hslash (fun hs => h6 ⟨hslash, hs⟩)
            (fun hs => h7 ⟨hslash, hs⟩) ht)
        · have hmark := notMem_textMarks h0 h2 h1 hslash
          exact Or.inl (hacts.code_passes ((scanAscii_plain h cfg fuel hmark).passes t ht))

/-- A token of which the automaton has not seen the end of the text. -/
theorem scanToken_same (hend : EndsAt m μ q) (h : SameTo m m' q) {cfg : LexConfig}
    (hcfg : cfg.allowHtmlComments = false) {bufEnd : ℕ} (hq : q < bufEnd) (lastLine : ℕ) :
    ∀ fuel p lineNum gotLf, Acts m μ p .code →
      scanToken cfg m' bufEnd lastLine fuel p lineNum gotLf =
        scanToken cfg m bufEnd lastLine fuel p lineNum gotLf := by
  intro fuel
  induction fuel with
  | zero => intro p lineNum gotLf _; rfl
  | succ fuel ih =>
      intro p lineNum gotLf hacts
      have hp : p ≤ q := hend.le hacts.ne_eof
      rw [scanToken, scanToken, h.read hp]
      by_cases h0 : m p = 0
      · rw [if_pos h0, if_pos h0]
      rw [if_neg h0, if_neg h0, h.read (h.succ_le hp h0)]
      by_cases h1 : m p = ch '\x60'
      · rw [if_pos h1, if_pos h1, parseTemplatePart_same hend h _ _ _ _ (template_opens hacts h1)]
      rw [if_neg h1, if_neg h1]
      by_cases h2 : m p = ch '\'' ∨ m p = ch '"'
      · rw [if_pos h2, if_pos h2, parseString_same hend h h2 _ _ _ _ _ (str_opens hacts h2)]
      rw [if_neg h2, if_neg h2]
      by_cases h3 : m p = ch '\r'
      · rw [if_pos h3, if_pos h3, ih _ _ _ (lf_acts hacts h3)]
      rw [if_neg h3, if_neg h3]
      by_cases h4 : m p = ch '\n'
      · have hlf := Acts.of_eq (hacts.keep (by rw [h4]; decide)) (by simp)
        rw [if_pos h4, if_pos h4, ih _ _ _ hlf]
      rw [if_neg h4, if_neg h4]
      by_cases h5 : m p = ch '\x0c' ∨ m p = ch '\x0b' ∨ m p = ch ' ' ∨ m p = ch '\t'
      · rw [if_pos h5, if_pos h5, ih _ _ _ (space_acts hacts h5)]
      rw [if_neg h5, if_neg h5]
      by_cases h6 : m p = ch '/' ∧ m (p + 1) = ch '*'
      · have hblock := block_opens hacts h6
        rw [if_pos h6, if_pos h6, blockComment_same hend h _ _ _ _ _ hblock]
        cases ht : blockComment m bufEnd fuel (p + 2) lineNum gotLf with
        | timeout => rfl
        | error message => rfl
        | ok t =>
            have hmode := blockComment_mode fuel _ _ _ t hblock ht
            exact ih _ _ _ (Acts.of_eq hmode (by simp))
      rw [if_neg h6, if_neg h6]
      by_cases h7 : m p = ch '/' ∧ m (p + 1) = ch '/'
      · have hline := line_opens hacts h7
        rw [if_pos h7, if_pos h7, lineComment_same hend h _ _ _ ⟨0, 0, hline⟩]
        cases ht : lineComment m bufEnd fuel (p + 2) with
        | timeout => rfl
        | error message => rfl
        | ok t =>
            rcases lineComment_mode fuel _ t ⟨0, 0, hline⟩ ht with hmode | ⟨hout, hne⟩
            · exact ih _ _ _ hmode
            · have := hend.le hne
              omega
      rw [if_neg h7, if_neg h7]
      have h8 : ∀ m : Mem, ¬ isHtmlComment cfg m lastLine p lineNum := fun m hhtml => by
        rw [hhtml.1] at hcfg
        exact absurd hcfg (by decide)
      rw [if_neg (h8 m'), if_neg (h8 m), unicodeFromUtf8_sameTo h hp]
      by_cases h9 : 0x80 ≤ m p
      · have hnext := unicode_acts hacts h9
        have hle := hend.le hnext.ne_eof
        rw [if_pos h9, if_pos h9]
        simp only [ih _ _ _ hnext, (scanIdent_plain h cfg fuel _ _ false).same hle]
      · rw [if_neg h9, if_neg h9]
        by_cases hslash : m p = ch '/'
        · have hslash' : m' p = ch '/' := (h.read hp).trans hslash
          rw [scanAscii_slash cfg fuel hslash, scanAscii_slash cfg fuel hslash',
            h.read (h.succ_le hp h0)]
        · have hmark := notMem_textMarks h0 h2 h1 hslash
          rw [(scanAscii_plain h cfg fuel hmark).same hp]

/-! ## The whole text -/

theorem tokensFrom_same (hend : EndsAt m μ q) (h : SameTo m m' q) {cfg : LexConfig}
    (hcfg : cfg.allowHtmlComments = false) {bufEnd : ℕ} (hq : q < bufEnd) (fuel : ℕ) :
    ∀ n s, Acts m μ s.bufPtr .code →
      tokensFrom cfg m' bufEnd fuel n s = tokensFrom cfg m bufEnd fuel n s := by
  intro n
  induction n with
  | zero => intro s _; rfl
  | succ n ih =>
      intro s hacts
      rw [tokensFrom, tokensFrom, nextToken, nextToken,
        scanToken_same hend h hcfg hq _ _ _ _ _ hacts]
      cases hr : scanToken cfg m bufEnd s.token.lineNum fuel s.bufPtr s.lineNum false with
      | timeout => rfl
      | error message => rfl
      | ok r =>
          have hnext : Acts m μ r.next .code := by
            rcases scanToken_mode h hcfg fuel _ _ _ r hacts hr with hmode | ⟨t, -, hout, hne⟩
            · exact hmode
            · have := hend.le hne
              omega
          simp only [Res.ok_bind, Res.pure_eq, ih ⟨r.next, _, _, _, _, _⟩ hnext]

theorem tokensFrom_mode (h : SameTo m m q) {cfg : LexConfig} (hcfg : cfg.allowHtmlComments = false)
    {bufEnd fuel : ℕ} :
    ∀ n s ts, Acts m μ s.bufPtr .code → tokensFrom cfg m bufEnd fuel n s = .ok ts →
      eofPtr ts < bufEnd → modeAt m μ (eofPtr ts + 1) = .eof := by
  intro n
  induction n with
  | zero => intro s ts _ hts; exact absurd hts (by simp [tokensFrom])
  | succ n ih =>
      intro s ts hacts hts hlt
      obtain ⟨s', hs', hts⟩ := Res.bind_eq_ok.mp hts
      have hnext : TokenEnd m μ bufEnd s'.bufPtr := by
        obtain ⟨r, hr, hs⟩ := Res.bind_eq_ok.mp hs'
        cases hs
        exact scanToken_mode h hcfg fuel _ _ _ r hacts hr
      by_cases heof : s'.token.val = .eof
      · rw [if_pos heof] at hts
        cases hts
        obtain ⟨hz, hptr⟩ := nextToken_eof hs' heof
        have hptr' : eofPtr [s'.token] = s'.token.ptr := rfl
        rw [hptr'] at hlt ⊢
        rw [hptr] at hnext
        rcases hnext with hmode | ⟨t, hle, hout, -⟩
        · rw [hmode.step, hz]
          decide
        · omega
      · rw [if_neg heof] at hts
        obtain ⟨ts', hts', hts⟩ := Res.bind_eq_ok.mp hts
        cases hts
        rw [eofPtr_cons _ (tokensFrom_eof hts').1] at hlt ⊢
        have hle := (tokensFrom_local h cfg bufEnd fuel n s').le ts' hts'
        rcases hnext with hmode | ⟨t, hlet, hout, -⟩
        · exact ih s' ts' hmode hts' hlt
        · omega

/-- The mode in which a memory begins. -/
def memMode (m : Mem) : LexMode := if m 0 = ch '#' ∧ m 1 = ch '!' then .line 0 0 else .code

/-- What `skip_shebang` leaves is code. -/
theorem skipShebang_mode {bufEnd fuel p : ℕ} (h : skipShebang m bufEnd fuel = .ok p) :
    LineEnd m (memMode m) bufEnd p := by
  rw [skipShebang] at h
  split at h
  · rename_i hbang
    have hline : modeAt m (memMode m) (0 + 1 + 1) = .line (ch '#') (ch '!') := by
      rw [modeAt, modeAt, modeAt, memMode, if_pos hbang, hbang.1, hbang.2]
      decide
    exact shebangLoop_mode fuel 2 p ⟨_, _, hline⟩ h
  · rename_i hbang
    cases h
    exact Or.inl (Acts.of_eq (show memMode m = .code from if_neg hbang) (by simp))

/-- **When the automaton stops inside the text, the tokenizer does not look behind it.** -/
theorem tokens_same_of_endsAt (hend : EndsAt m (memMode m) q) {cfg : LexConfig}
    (hcfg : cfg.allowHtmlComments = false) {bufEnd : ℕ} (hq : q < bufEnd)
    (hagree : ∀ i ≤ q, m' i = m i) (fuel : ℕ) :
    tokens cfg m' bufEnd fuel = tokens cfg m bufEnd fuel := by
  have h := hend.sameTo hagree
  have hbang : (m' 0 = ch '#' ∧ m' 1 = ch '!') ↔ (m 0 = ch '#' ∧ m 1 = ch '!') := by
    rw [h.read (Nat.zero_le q)]
    refine and_congr_right fun h0 => ?_
    rw [h.read (h.succ_le (Nat.zero_le q) (by rw [h0]; decide))]
  have hskip : skipShebang m' bufEnd fuel = skipShebang m bufEnd fuel := by
    rw [skipShebang, skipShebang]
    by_cases hb : m 0 = ch '#' ∧ m 1 = ch '!'
    · have hline : modeAt m (memMode m) (0 + 1 + 1) = .line (ch '#') (ch '!') := by
        rw [modeAt, modeAt, modeAt, memMode, if_pos hb, hb.1, hb.2]
        decide
      rw [if_pos hb, if_pos (hbang.mpr hb), shebangLoop_same hend h bufEnd fuel 2 ⟨_, _, hline⟩]
    · rw [if_neg hb, if_neg (mt hbang.mp hb)]
  rw [tokens, tokens, hskip]
  cases hp : skipShebang m bufEnd fuel with
  | timeout => rfl
  | error message => rfl
  | ok p =>
      rcases skipShebang_mode hp with hmode | ⟨hout, hne⟩
      · exact tokensFrom_same hend h hcfg hq fuel fuel (LexState.init p) hmode
      · have := hend.le hne
        omega

/-- **It does stop, when `TOK_EOF` is found inside the text.** -/
theorem modeAt_of_eof {cfg : LexConfig} (hcfg : cfg.allowHtmlComments = false) {bufEnd fuel : ℕ}
    {ts : List Token} (h : tokens cfg m bufEnd fuel = .ok ts) (hlt : eofPtr ts < bufEnd) :
    modeAt m (memMode m) (eofPtr ts + 1) = .eof := by
  have hsame : SameTo m m (eofPtr ts) := ⟨fun _ _ => rfl, tokens_eof h⟩
  obtain ⟨p, hp, hts⟩ := Res.bind_eq_ok.mp h
  rcases skipShebang_mode hp with hmode | ⟨hout, -⟩
  · exact tokensFrom_mode hsame hcfg fuel (LexState.init p) ts hmode hts hlt
  · have hle := (tokensFrom_local hsame cfg bufEnd fuel fuel (LexState.init p)).le ts hts
    have hptr : (LexState.init p).bufPtr = p := rfl
    omega

end Modes

end Engine
end FuzzerJs
