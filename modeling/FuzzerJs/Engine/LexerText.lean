import FuzzerJs.Engine.Lexer

/-!
# Tokens of a given text

What `next_token` makes of the pieces of text that a generated script consists of: a
name, a decimal number, a character that stands for itself, white space, a quoted
string.  Each lemma is about a text that stands at some address (`Scan.Reads`) in an
arbitrary memory; `Lexes` chains them into the token sequence of a whole buffer.
-/

namespace FuzzerJs
namespace Engine

open Scan

/-! ## Names -/

section Ident

variable {cfg : LexConfig} {m : Mem}

theorem isIdContinueAscii_lt {c : ℕ} (h : isIdContinueAscii c = true) : c < 128 := by
  simp only [isIdContinueAscii, isIdStartAscii, Bool.or_eq_true, Bool.and_eq_true,
    decide_eq_true_eq] at h
  omega

theorem unicodeToUtf8_toNat {b : UInt8} (h : b.toNat < 128) : unicodeToUtf8 b.toNat = [b] := by
  simp [unicodeToUtf8, h]

/-- An ASCII character other than a backslash stands for itself. -/
theorem identChar_ascii {p : ℕ} (h : (m p).toNat < 128) (hne : m p ≠ ch '\\') (fuel : ℕ)
    (hasEscape : Bool) : identChar m fuel p hasEscape = .ok ((m p).toNat, p + 1, hasEscape) := by
  have hlt : ¬ 0x80 ≤ m p := by
    rw [UInt8.le_iff_toNat_le]
    simpa using h
  rw [identChar, if_neg fun hb => hne hb.1, if_neg hlt]

theorem isIdContinueAscii_ne_backslash {b : UInt8} (h : isIdContinueAscii b.toNat = true) :
    b ≠ ch '\\' := by
  rintro rfl
  exact absurd h (by decide)

/-- The characters of a name, and one after it that ends it. -/
theorem identLoop_reads (T : Tables) (tooLong : String) {name : List UInt8} {stop : UInt8}
    (hname : ∀ b ∈ name, isIdContinueAscii b.toNat = true) (hstop : stop.toNat < 128)
    (hstop' : isIdContinueAscii stop.toNat = false) (hbs : stop ≠ ch '\\') :
    ∀ {p fuel : ℕ} {buf : List UInt8} {c : UInt8}, Reads m p (name ++ [stop]) → c.toNat < 128 →
      name.length < fuel → buf.length + name.length < identMax →
      identLoop m T tooLong fuel p buf c.toNat false =
        .ok (buf ++ c :: name, false, p + name.length) := by
  induction name with
  | nil =>
      intro p fuel buf c hread hc hfuel _
      obtain ⟨fuel, rfl⟩ : ∃ f, fuel = f + 1 := ⟨fuel - 1, by omega⟩
      have hp : m p = stop := hread.1
      have hnext : isIdentNext T stop.toNat = false := by rw [isIdentNext, if_pos hstop, hstop']
      rw [identLoop, identChar_ascii (by rw [hp]; exact hstop) (by rw [hp]; exact hbs),
        Res.ok_bind, unicodeToUtf8_toNat hc]
      simp only [hp, hnext, if_true, List.length_nil, Nat.add_zero]
  | cons b name ih =>
      intro p fuel buf c hread hc hfuel hlen
      rw [List.length_cons] at hfuel hlen
      obtain ⟨fuel, rfl⟩ : ∃ f, fuel = f + 1 := ⟨fuel - 1, by omega⟩
      have hp : m p = b := hread.1
      have hcont := hname b (by simp)
      have hb := isIdContinueAscii_lt hcont
      have hnext : isIdentNext T b.toNat = true := by rw [isIdentNext, if_pos hb, hcont]
      have hshort : ¬ identMax ≤ (buf ++ [c]).length := by
        rw [List.length_append, List.length_singleton]
        omega
      have hrest := ih (fun x hx => hname x (by simp [hx])) hread.2 hb
        (show name.length < fuel by omega)
        (show (buf ++ [c]).length + name.length < identMax by
          rw [List.length_append, List.length_singleton]; omega)
      rw [identLoop, identChar_ascii (by rw [hp]; exact hb)
        (by rw [hp]; exact isIdContinueAscii_ne_backslash hcont), Res.ok_bind,
        unicodeToUtf8_toNat hc]
      simp only [hp, hnext, Bool.true_eq_false, if_false, if_neg hshort, hrest]
      rw [List.append_assoc, List.length_cons, show p + 1 + name.length = p + (name.length + 1) by
        omega]
      rfl

end Ident

/-! ## Numbers -/

section Number

variable {m : Mem}

/-- The digits of a decimal number, up to a character that does not continue it. -/
theorem scanDigits_reads (sep : Bool) (blocked : Option ℕ) {ds : List UInt8} {stop : UInt8}
    (hds : ∀ d ∈ ds, isDigit d = true) (hstop : isDigit stop = false) (hsep : stop ≠ ch '_') :
    ∀ {p fuel : ℕ}, Reads m p (ds ++ [stop]) → ds.length < fuel →
      scanDigits m sep blocked fuel p = .ok (p + ds.length) := by
  induction ds with
  | nil =>
      intro p fuel hread hfuel
      obtain ⟨fuel, rfl⟩ : ∃ f, fuel = f + 1 := ⟨fuel - 1, by omega⟩
      have hp : m p = stop := hread.1
      simp [scanDigits, hp, hstop, hsep]
  | cons d ds ih =>
      intro p fuel hread hfuel
      rw [List.length_cons] at hfuel
      obtain ⟨fuel, rfl⟩ : ∃ f, fuel = f + 1 := ⟨fuel - 1, by omega⟩
      have hp : m p = d := hread.1
      rw [scanDigits, hp, hds d (by simp), Bool.true_or, if_pos rfl,
        ih (fun x hx => hds x (by simp [hx])) hread.2 (by omega), List.length_cons,
        show p + 1 + ds.length = p + (ds.length + 1) by omega]

theorem slice_reads {ds : List UInt8} :
    ∀ {p : ℕ}, Reads m p ds → slice m p (p + ds.length) = ds := by
  induction ds with
  | nil =>
      intro p _
      simp [slice]
  | cons d ds ih =>
      intro p hread
      have hrest := ih hread.2
      rw [slice, show p + 1 + ds.length - (p + 1) = ds.length by omega] at hrest
      rw [slice, List.length_cons, show p + (ds.length + 1) - p = ds.length + 1 by omega,
        List.range_succ_eq_map, List.map_cons, List.map_map, Nat.add_zero, hread.1]
      refine congrArg (d :: ·) (Eq.trans (List.map_congr_left fun i _ => ?_) hrest)
      simp only [Function.comp_apply]
      rw [show p + (i + 1) = p + 1 + i by omega]

theorem isDigit_ne_underscore {d : UInt8} (h : isDigit d = true) : d ≠ ch '_' := by
  rintro rfl
  exact absurd h (by decide)

/-- A decimal integer that a character follows which cannot be part of a number. -/
theorem atod_reads {ds : List UInt8} {stop : UInt8} (hne : ds ≠ [])
    (hds : ∀ d ∈ ds, isDigit d = true) (hzero : ds.head? = some (ch '0') → ds = [ch '0'])
    (hstop : stop ∈ [ch ',', ch ']']) {p fuel : ℕ} (hread : Reads m p (ds ++ [stop]))
    (hfuel : ds.length < fuel) :
    atod m fuel p = .ok (.decimal ds, p + ds.length) := by
  obtain ⟨hread', hlast, -⟩ := Reads.append_iff.mp hread
  have hnot : isDigit stop = false ∧ stop ≠ ch '_' ∧ stop ≠ ch '.' ∧ stop ≠ ch 'e' ∧
      stop ≠ ch 'E' := by
    revert hstop
    simp only [List.mem_cons, List.not_mem_nil, or_false]
    rintro (rfl | rfl) <;> decide
  obtain ⟨hd, hu, hdot, he, hE⟩ := hnot
  have hscan : ∀ sep, scanDecimal m sep fuel p = .ok (.decimal ds, p + ds.length) := by
    intro sep
    have hfilter : (ds.filter (· ≠ ch '_')) = ds :=
      List.filter_eq_self.mpr fun d hd => by simpa using isDigit_ne_underscore (hds d hd)
    rw [scanDecimal, scanDecimalFrom, scanDigits_reads sep _ hds hd hu hread hfuel, Res.ok_bind,
      scanFraction, hlast, if_neg fun h => hdot h.1, Res.ok_bind, scanExponent, hlast,
      if_neg fun h => h.2.elim he hE, Res.ok_bind, slice_reads hread', hfilter]
    rfl
  rw [atod]
  by_cases h0 : m p = ch '0'
  · -- a single zero, so what follows it is `stop`
    have hds0 : ds = [ch '0'] := by
      refine hzero ?_
      cases ds with
      | nil => exact absurd rfl hne
      | cons d ds => rw [List.head?_cons, ← h0, hread'.1]
    have h1 : m (p + 1) = stop := by
      rw [hds0] at hlast
      exact hlast
    have hprefix : stop ≠ ch 'x' ∧ stop ≠ ch 'X' ∧ stop ≠ ch 'o' ∧ stop ≠ ch 'O' ∧
        stop ≠ ch 'b' ∧ stop ≠ ch 'B' := by
      revert hstop
      simp only [List.mem_cons, List.not_mem_nil, or_false]
      rintro (rfl | rfl) <;> decide
    obtain ⟨hx, hX, ho, hO, hb, hB⟩ := hprefix
    rw [if_pos h0, h1, if_neg fun h => h.elim hx hX, if_neg fun h => h.elim ho hO,
      if_neg fun h => h.elim hb hB, hd]
    exact hscan true
  · rw [if_neg h0]
    exact hscan true

end Number

/-! ## Whole tokens -/

section Token

variable {cfg : LexConfig} {m : Mem} {bufEnd lastLine lineNum p fuel : ℕ} {gotLf : Bool}

/-- White space on the same line. -/
theorem scanToken_space (h : m p = ch ' ') :
    scanToken cfg m bufEnd lastLine (fuel + 1) p lineNum gotLf =
      scanToken cfg m bufEnd lastLine fuel (p + 1) lineNum gotLf := by
  rw [scanToken]
  simp [h, show ch ' ' ≠ 0 by decide, show ch ' ' ≠ ch '\x60' by decide,
    show ch ' ' ≠ ch '\'' by decide, show ch ' ' ≠ ch '"' by decide,
    show ch ' ' ≠ ch '\r' by decide, show ch ' ' ≠ ch '\n' by decide]

/-- The terminating zero. -/
theorem scanToken_zero (h : m p = 0) :
    scanToken cfg m bufEnd lastLine (fuel + 1) p lineNum gotLf =
      .ok ⟨.eof, p, lineNum, p, lineNum, gotLf⟩ := by
  rw [scanToken, if_pos h]

/-- The characters that none of the first cases of `next_token` is about. -/
def isPlainAscii (c : UInt8) : Bool :=
  c ≠ 0 && c ≠ ch '\x60' && c ≠ ch '\'' && c ≠ ch '"' && c ≠ ch '\r' && c ≠ ch '\n' &&
    c ≠ ch '\x0c' && c ≠ ch '\x0b' && c ≠ ch ' ' && c ≠ ch '\t' && c ≠ ch '/' && c ≠ ch '-' &&
    c ≠ ch '<' && c < 0x80

theorem scanToken_ascii (h : isPlainAscii (m p) = true) :
    scanToken cfg m bufEnd lastLine (fuel + 1) p lineNum gotLf =
      (scanAscii cfg m fuel p >>= fun r =>
        .ok ⟨r.1, p, lineNum, r.2, lineNum, gotLf⟩) := by
  simp only [isPlainAscii, Bool.and_eq_true, decide_eq_true_eq] at h
  obtain ⟨⟨⟨⟨⟨⟨⟨⟨⟨⟨⟨⟨⟨h0, h1⟩, h2⟩, h3⟩, h4⟩, h5⟩, h6⟩, h7⟩, h8⟩, h9⟩, h10⟩, h11⟩, h12⟩, h13⟩ := h
  rw [scanToken, if_neg h0, if_neg h1, if_neg fun h => h.elim h2 h3, if_neg h4, if_neg h5,
    if_neg fun h => h.elim h6 fun h => h.elim h7 fun h => h.elim h8 h9,
    if_neg fun h => h10 h.1, if_neg fun h => h10 h.1,
    if_neg fun h => h.2.elim (fun h => h11 h.1) (fun h => h12 h.1), if_neg (UInt8.not_le.mpr h13)]
  rfl

/-- The separators that only ever stand for themselves. -/
def separators : List UInt8 := [ch ';', ch ',', ch '(', ch ')', ch '[', ch ']']

theorem scanToken_separator (h : m p ∈ separators) :
    scanToken cfg m bufEnd lastLine (fuel + 1) p lineNum gotLf =
      .ok ⟨.char (m p), p, lineNum, p + 1, lineNum, gotLf⟩ := by
  have hplain : ∀ c ∈ separators, isPlainAscii c = true ∧ c ≠ ch '\\' ∧
      isIdStartAscii c.toNat = false ∧ c ≠ ch '#' ∧ c ≠ ch '.' ∧ c ≠ ch '0' ∧
      isDigit c = false := by decide +kernel
  obtain ⟨hp, hb, hi, hs, hd, h0, hdig⟩ := hplain _ h
  have hpunct : ∀ c ∈ separators, ∀ c1 c2 c3, punctuator c c1 c2 c3 = none := by
    intro c hc c1 c2 c3
    simp only [separators, List.mem_cons, List.not_mem_nil, or_false] at hc
    rcases hc with rfl | rfl | rfl | rfl | rfl | rfl <;> simp [punctuator, ch]
  rw [scanToken_ascii hp, scanAscii, if_neg hb, hi, if_neg Bool.false_ne_true, if_neg hs,
    if_neg fun h => hd h.1, if_neg fun h => h0 h.1, hdig, if_neg Bool.false_ne_true,
    scanPunctuator, hpunct _ h]
  rfl

/-- An equals sign before a space. -/
theorem scanToken_assign (h : m p = ch '=') (h1 : m (p + 1) = ch ' ') :
    scanToken cfg m bufEnd lastLine (fuel + 1) p lineNum gotLf =
      .ok ⟨.char (ch '='), p, lineNum, p + 1, lineNum, gotLf⟩ := by
  have hpunct : ∀ c2 c3, punctuator (ch '=') (ch ' ') c2 c3 = none := by
    intro c2 c3
    simp [punctuator, ch]
  rw [scanToken_ascii (by rw [h]; decide), scanAscii, h, if_neg (by decide), if_neg (by decide),
    if_neg (by decide), if_neg fun h => absurd h.1 (by decide),
    if_neg fun h => absurd h.1 (by decide), if_neg (by decide), scanPunctuator, h, h1, hpunct]
  rfl

theorem isIdStartAscii_isPlainAscii {b : UInt8} (h : isIdStartAscii b.toNat = true) :
    isPlainAscii b = true ∧ b ≠ ch '\\' := by
  have hall : ∀ b : Fin 256, isIdStartAscii (UInt8.ofNat b).toNat = true →
      isPlainAscii (UInt8.ofNat b) = true ∧ UInt8.ofNat b ≠ ch '\\' := by decide +kernel
  have hb := hall ⟨b.toNat, b.toNat_lt⟩
  simp only [UInt8.ofNat_toNat] at hb
  exact hb h

/-- A name of ASCII characters. -/
theorem scanToken_ident {b : UInt8} {name : List UInt8} {stop : UInt8}
    (hb : isIdStartAscii b.toNat = true) (hname : ∀ b ∈ name, isIdContinueAscii b.toNat = true)
    (hstop : stop.toNat < 128) (hstop' : isIdContinueAscii stop.toNat = false)
    (hbs : stop ≠ ch '\\') (hlen : name.length < identMax) (hfuel : name.length < fuel)
    (hread : Reads m p (b :: name ++ [stop])) :
    scanToken cfg m bufEnd lastLine (fuel + 1) p lineNum gotLf =
      .ok ⟨identToken cfg (b :: name) false, p, lineNum, p + 1 + name.length, lineNum, gotLf⟩ := by
  have hp : m p = b := hread.1
  obtain ⟨hplain, hne⟩ := isIdStartAscii_isPlainAscii hb
  have hcont : isIdContinueAscii b.toNat = true := by rw [isIdContinueAscii, hb, Bool.true_or]
  have hloop : identLoop m cfg.tables "identifier too long" fuel (p + 1) [] b.toNat false =
      .ok ([] ++ b :: name, false, p + 1 + name.length) :=
    identLoop_reads cfg.tables "identifier too long" hname hstop hstop' hbs hread.2
      (isIdContinueAscii_lt hcont) hfuel (by simpa using hlen)
  rw [scanToken_ascii (by rw [hp]; exact hplain), scanAscii, hp, if_neg hne, if_pos hb, scanIdent,
    hloop]
  rfl

/-- A decimal integer. -/
theorem scanToken_number {ds : List UInt8} {stop : UInt8} (hne : ds ≠ [])
    (hds : ∀ d ∈ ds, isDigit d = true) (hzero : ds.head? = some (ch '0') → ds = [ch '0'])
    (hstop : stop ∈ [ch ',', ch ']']) (hstrict : cfg.strict = false)
    (hread : Reads m p (ds ++ [stop])) (hfuel : ds.length < fuel) :
    scanToken cfg m bufEnd lastLine (fuel + 1) p lineNum gotLf =
      .ok ⟨.number (.decimal ds), p, lineNum, p + ds.length, lineNum, gotLf⟩ := by
  obtain ⟨hread', hlast, -⟩ := Reads.append_iff.mp hread
  have hdig : isDigit (m p) = true := by
    cases ds with
    | nil => exact absurd rfl hne
    | cons d ds => rw [hread'.1]; exact hds d (by simp)
  have hplain : ∀ b : Fin 256, isDigit (UInt8.ofNat b) = true → isPlainAscii (UInt8.ofNat b) = true ∧
      UInt8.ofNat b ≠ ch '\\' ∧ isIdStartAscii (UInt8.ofNat b).toNat = false ∧
      UInt8.ofNat b ≠ ch '#' ∧ UInt8.ofNat b ≠ ch '.' := by decide +kernel
  have hb := hplain ⟨(m p).toNat, (m p).toNat_lt⟩
  simp only [UInt8.ofNat_toNat] at hb
  obtain ⟨hp, hne', hi, hs, hdot⟩ := hb hdig
  have hnext : isIdentNext cfg.tables
      (((unicodeFromUtf8 m (p + ds.length)).map Prod.fst).getD invalidChar) = false := by
    rw [unicodeFromUtf8, hlast]
    simp only [List.mem_cons, List.not_mem_nil, or_false] at hstop
    rcases hstop with rfl | rfl <;> rfl
  rw [scanToken_ascii hp, scanAscii, if_neg hne', hi, if_neg Bool.false_ne_true, if_neg hs,
    if_neg fun h => hdot h.1, if_neg fun h => absurd (h.2.2.symm.trans hstrict) (by simp), if_pos hdig,
    scanNumber, atod_reads hne hds hzero hstop hread hfuel, Res.ok_bind]
  simp only [hnext, Bool.false_eq_true, if_false]
  rfl

/-- A string in double quotes. -/
theorem scanToken_string {r : Literal} (h : m p = ch '"')
    (hparse : parseString m bufEnd cfg.strict (ch '"') fuel (p + 1) lineNum = .ok r) :
    scanToken cfg m bufEnd lastLine (fuel + 1) p lineNum gotLf =
      .ok ⟨.string (ch '"') r.units, p, lineNum, r.next, r.lineNum, gotLf⟩ := by
  rw [scanToken, h, if_neg (by decide), if_neg (by decide), if_pos (Or.inr rfl), hparse]
  rfl

end Token

/-! ## Inside a string -/

section String

variable {m : Mem} {bufEnd lineNum p fuel : ℕ} {strict : Bool} {sep : UInt8}

/-- What the rest of a literal gives, with one more code unit in front. -/
def Literal.cons (u : UInt16) (r : Literal) : Literal := { r with units := u :: r.units }

theorem parseString_close (hend : p < bufEnd) (h : m p = ch '"') :
    parseString m bufEnd strict (ch '"') (fuel + 1) p lineNum = .ok ⟨[], p + 1, lineNum⟩ := by
  have hstep : stringStep m bufEnd strict (ch '"') fuel p = .ok (.close (p + 1)) := by
    rw [stringStep, if_neg (not_le.mpr hend), h, if_neg (by decide), if_pos rfl]
  rw [parseString, hstep]
  rfl

/-- The characters that stand for themselves in a string in double quotes. -/
def isStringAscii (c : UInt8) : Bool :=
  c ≠ ch '\n' && c ≠ ch '\r' && c ≠ ch '"' && c ≠ ch '\\' && c < 0x80

theorem parseString_plain (hend : p < bufEnd) (h : isStringAscii (m p) = true) {r : Literal}
    (hrest : parseString m bufEnd strict (ch '"') fuel (p + 1) lineNum = .ok r) :
    parseString m bufEnd strict (ch '"') (fuel + 1) p lineNum =
      .ok (r.cons (m p).toUInt16) := by
  simp only [isStringAscii, Bool.and_eq_true, decide_eq_true_eq] at h
  obtain ⟨⟨⟨⟨h1, h2⟩, h3⟩, h4⟩, h5⟩ := h
  have hstep : stringStep m bufEnd strict (ch '"') fuel p = .ok (.put (m p).toNat (p + 1)) := by
    rw [stringStep, if_neg (not_le.mpr hend), if_neg fun h => h.elim h1 h2, if_neg h3, if_neg h4,
      if_neg (UInt8.not_le.mpr h5)]
  have hlt : (m p).toNat < 0x10000 := by
    have := (m p).toNat_lt
    omega
  rw [parseString, hstep, Res.ok_bind]
  simp only [hrest, Res.ok_bind, codeUnitsOf, if_pos hlt, UInt16.ofNat_uInt8ToNat]
  rfl

/-- An escaped backslash. -/
theorem parseString_backslash (hend : p < bufEnd) (h : m p = ch '\\') (h1 : m (p + 1) = ch '\\')
    {r : Literal} (hrest : parseString m bufEnd strict (ch '"') fuel (p + 2) lineNum = .ok r) :
    parseString m bufEnd strict (ch '"') (fuel + 1) p lineNum =
      .ok (r.cons (ch '\\').toUInt16) := by
  have hstep : stringStep m bufEnd strict (ch '"') fuel p = .ok (.put (ch '\\').toNat (p + 2)) := by
    rw [stringStep, if_neg (not_le.mpr hend), h, if_neg (by decide), if_neg (by decide),
      if_pos rfl, stringEscape, h1, if_neg (by decide), if_pos (by decide)]
  rw [parseString, hstep, Res.ok_bind]
  simp only [hrest, Res.ok_bind]
  rfl

end String

/-! ## The tokens of a buffer -/

/-- From `p` on, all on the first line, there are the tokens `vs` and then the terminating
zero. -/
def Lexes (cfg : LexConfig) (m : Mem) (bufEnd fuel : ℕ) : ℕ → List TokenVal → Prop
  | p, [] => m p = 0
  | p, v :: vs => v ≠ .eof ∧ ∃ ptr next,
      scanToken cfg m bufEnd 1 fuel p 1 false = .ok ⟨v, ptr, 1, next, 1, false⟩ ∧
      Lexes cfg m bufEnd fuel next vs

/-- The same with addresses: each token comes with the one where it starts, and `q` is the
address of the zero. -/
def LexesAt (cfg : LexConfig) (m : Mem) (bufEnd fuel : ℕ) : ℕ → List (TokenVal × ℕ) → ℕ → Prop
  | p, [], q => p = q ∧ m p = 0
  | p, (v, ptr) :: vs, q => v ≠ .eof ∧ ∃ next,
      scanToken cfg m bufEnd 1 fuel p 1 false = .ok ⟨v, ptr, 1, next, 1, false⟩ ∧
      LexesAt cfg m bufEnd fuel next vs q

/-- The token sequence of the parser, of which it uses the values and the lines. -/
def OnLine (ts : List Token) (vs : List TokenVal) : Prop :=
  ts.map Token.val = vs ∧ ∀ t ∈ ts, t.lineNum = 1

section Lexes

variable {cfg : LexConfig} {m : Mem} {bufEnd fuel p : ℕ} {rest : List UInt8}
  {vs : List TokenVal}

/-- A token whose text stands at `p`, before the rest of the buffer. -/
theorem Lexes.cons (ptr : ℕ) {text : List UInt8} {v : TokenVal} (hread : Reads m p (text ++ rest))
    (hv : v ≠ .eof) (hscan : scanToken cfg m bufEnd 1 fuel p 1 false =
      .ok ⟨v, ptr, 1, p + text.length, 1, false⟩)
    (hrest : Reads m (p + text.length) rest → Lexes cfg m bufEnd fuel (p + text.length) vs) :
    Lexes cfg m bufEnd fuel p (v :: vs) :=
  ⟨hv, ptr, _, hscan, hrest (Reads.append_iff.mp hread).2⟩

theorem Lexes.separator {c : UInt8} (hc : c ∈ separators) (hread : Reads m p (c :: rest))
    (hrest : Reads m (p + 1) rest → Lexes cfg m bufEnd (fuel + 1) (p + 1) vs) :
    Lexes cfg m bufEnd (fuel + 1) p (.char c :: vs) := by
  have hread' : Reads m p ([c] ++ rest) := hread
  refine Lexes.cons p hread' (by simp) ?_ hrest
  rw [scanToken_separator (by rw [hread.1]; exact hc), hread.1]
  rfl

/-- A name: its characters, and those that may follow it. -/
structure NameText (name : List UInt8) (stop : UInt8) : Prop where
  start : (name.head?.map fun b => isIdStartAscii b.toNat) = some true
  continues : ∀ b ∈ name, isIdContinueAscii b.toNat = true
  length_lt : name.length < identMax
  stop_lt : stop.toNat < 128
  stop_continue : isIdContinueAscii stop.toNat = false
  stop_ne : stop ≠ ch '\\'

instance (name : List UInt8) (stop : UInt8) : Decidable (NameText name stop) :=
  decidable_of_iff (((name.head?.map fun b => isIdStartAscii b.toNat) = some true) ∧
      (∀ b ∈ name, isIdContinueAscii b.toNat = true) ∧ name.length < identMax ∧
      stop.toNat < 128 ∧ isIdContinueAscii stop.toNat = false ∧ stop ≠ ch '\\')
    ⟨fun ⟨h1, h2, h3, h4, h5, h6⟩ => ⟨h1, h2, h3, h4, h5, h6⟩,
      fun h => ⟨h.1, h.2, h.3, h.4, h.5, h.6⟩⟩

theorem NameText.scanToken {name : List UInt8} {stop : UInt8} (h : NameText name stop)
    {lastLine lineNum : ℕ} {gotLf : Bool} (hread : Reads m p (name ++ stop :: rest))
    (hfuel : name.length ≤ fuel) :
    scanToken cfg m bufEnd lastLine (fuel + 1) p lineNum gotLf =
      .ok ⟨identToken cfg name false, p, lineNum, p + name.length, lineNum, gotLf⟩ := by
  cases name with
  | nil => exact absurd h.start (by simp)
  | cons b name =>
      have hlen := h.length_lt
      rw [List.length_cons] at hlen hfuel
      have hread' : Reads m p (b :: name ++ [stop]) :=
        Reads.append_iff.mpr ⟨(Reads.append_iff.mp hread).1, (Reads.append_iff.mp hread).2.1, trivial⟩
      rw [scanToken_ident (by simpa using h.start) (fun x hx => h.continues x (by simp [hx]))
        h.stop_lt h.stop_continue h.stop_ne (by omega) (by omega) hread', List.length_cons,
        show p + 1 + name.length = p + (name.length + 1) by omega]

/-- A name after a space. -/
theorem NameText.scanToken_space {name : List UInt8} {stop : UInt8} (h : NameText name stop)
    {lastLine lineNum : ℕ} {gotLf : Bool} (hread : Reads m p (ch ' ' :: name ++ stop :: rest))
    (hfuel : name.length ≤ fuel) :
    Engine.scanToken cfg m bufEnd lastLine (fuel + 2) p lineNum gotLf =
      .ok ⟨identToken cfg name false, p + 1, lineNum, p + (ch ' ' :: name).length, lineNum,
        gotLf⟩ := by
  rw [Engine.scanToken_space hread.1, h.scanToken hread.2 hfuel, List.length_cons,
    show p + 1 + name.length = p + (name.length + 1) by omega]

theorem Lexes.spaceName {name : List UInt8} {stop : UInt8} (h : NameText name stop)
    (hread : Reads m p (ch ' ' :: name ++ stop :: rest)) (hfuel : name.length ≤ fuel)
    (hrest : Reads m (p + (name.length + 1)) (stop :: rest) →
      Lexes cfg m bufEnd (fuel + 2) (p + (name.length + 1)) vs) :
    Lexes cfg m bufEnd (fuel + 2) p (identToken cfg name false :: vs) :=
  Lexes.cons (p + 1) hread (identToken_ne_eof cfg name false) (h.scanToken_space hread hfuel) hrest

theorem Lexes.number {ds : List UInt8} {stop : UInt8} (hne : ds ≠ [])
    (hds : ∀ d ∈ ds, isDigit d = true) (hzero : ds.head? = some (ch '0') → ds = [ch '0'])
    (hstop : stop ∈ [ch ',', ch ']']) (hstrict : cfg.strict = false)
    (hread : Reads m p (ds ++ stop :: rest)) (hfuel : ds.length < fuel)
    (hrest : Reads m (p + ds.length) (stop :: rest) →
      Lexes cfg m bufEnd (fuel + 1) (p + ds.length) vs) :
    Lexes cfg m bufEnd (fuel + 1) p (.number (.decimal ds) :: vs) := by
  have hread' : Reads m p (ds ++ [stop]) :=
    Reads.append_iff.mpr ⟨(Reads.append_iff.mp hread).1, (Reads.append_iff.mp hread).2.1, trivial⟩
  exact Lexes.cons p hread (by simp) (scanToken_number hne hds hzero hstop hstrict hread' hfuel) hrest

end Lexes

/-- A token with its text, as in `Lexes.cons`. -/
theorem LexesAt.cons (ptr : ℕ) {cfg : LexConfig} {m : Mem} {bufEnd fuel p q : ℕ} {text rest : List UInt8}
    {v : TokenVal} {vs : List (TokenVal × ℕ)} (hread : Reads m p (text ++ rest)) (hv : v ≠ .eof)
    (hscan : scanToken cfg m bufEnd 1 fuel p 1 false =
      .ok ⟨v, ptr, 1, p + text.length, 1, false⟩)
    (hrest : Reads m (p + text.length) rest → LexesAt cfg m bufEnd fuel (p + text.length) vs q) :
    LexesAt cfg m bufEnd fuel p ((v, ptr) :: vs) q :=
  ⟨hv, _, hscan, hrest (Reads.append_iff.mp hread).2⟩

theorem LexesAt.separator {cfg : LexConfig} {m : Mem} {bufEnd fuel p q : ℕ} {rest : List UInt8}
    {vs : List (TokenVal × ℕ)} {c : UInt8} (hc : c ∈ separators) (hread : Reads m p (c :: rest))
    (hrest : Reads m (p + 1) rest → LexesAt cfg m bufEnd (fuel + 1) (p + 1) vs q) :
    LexesAt cfg m bufEnd (fuel + 1) p ((.char c, p) :: vs) q := by
  have hread' : Reads m p ([c] ++ rest) := hread
  refine LexesAt.cons p hread' (by simp) ?_ hrest
  rw [scanToken_separator (by rw [hread.1]; exact hc), hread.1]
  rfl

theorem Lexes.lexesAt {cfg : LexConfig} {m : Mem} {bufEnd fuel : ℕ} {vs : List TokenVal} :
    ∀ {p : ℕ}, Lexes cfg m bufEnd fuel p vs →
      ∃ ts q, LexesAt cfg m bufEnd fuel p ts q ∧ ts.map Prod.fst = vs := by
  induction vs with
  | nil => intro p h; exact ⟨[], p, ⟨rfl, h⟩, rfl⟩
  | cons v vs ih =>
      intro p h
      obtain ⟨hv, ptr, next, hscan, hrest⟩ := h
      obtain ⟨ts, q, hts, hvals⟩ := ih hrest
      exact ⟨(v, ptr) :: ts, q, ⟨hv, next, hscan, hts⟩, by rw [List.map_cons, hvals]⟩

theorem LexesAt.lexes {cfg : LexConfig} {m : Mem} {bufEnd fuel q : ℕ} {ts : List (TokenVal × ℕ)} :
    ∀ {p : ℕ}, LexesAt cfg m bufEnd fuel p ts q → Lexes cfg m bufEnd fuel p (ts.map Prod.fst) := by
  induction ts with
  | nil => intro p h; exact h.2
  | cons t ts ih =>
      intro p h
      obtain ⟨hv, next, hscan, hrest⟩ := h
      exact ⟨hv, t.2, next, hscan, ih hrest⟩

/-- The tokens, with the end of the file. -/
theorem LexesAt.tokensFrom {cfg : LexConfig} {m : Mem} {bufEnd fuel : ℕ}
    {ts : List (TokenVal × ℕ)} {q : ℕ} :
    ∀ {s : LexState} {n : ℕ}, LexesAt cfg m bufEnd (fuel + 1) s.bufPtr ts q → s.lineNum = 1 →
      s.token.lineNum = 1 → ts.length < n →
      tokensFrom cfg m bufEnd (fuel + 1) n s =
        .ok (ts.map (fun t => ⟨t.1, 1, t.2⟩) ++ [⟨.eof, 1, q⟩]) := by
  induction ts with
  | nil =>
      intro s n h hline _ hn
      obtain ⟨n, rfl⟩ : ∃ k, n = k + 1 := ⟨n - 1, by omega⟩
      rw [Engine.tokensFrom, nextToken, scanToken_zero h.2, hline, ← h.1]
      rfl
  | cons t ts ih =>
      intro s n h hline htoken hn
      rw [List.length_cons] at hn
      obtain ⟨n, rfl⟩ : ∃ k, n = k + 1 := ⟨n - 1, by omega⟩
      obtain ⟨hv, next, hscan, hrest⟩ := h
      have hts := ih (n := n) (s := ⟨next, 1, s.token.lineNum, s.bufPtr, false, ⟨t.1, 1, t.2⟩⟩)
        hrest rfl rfl (by omega)
      rw [Engine.tokensFrom, nextToken, htoken, hline, hscan, Res.ok_bind, Res.pure_eq, Res.ok_bind,
        if_neg hv]
      rw [htoken] at hts
      rw [hts]
      rfl

/-- Tokens with addresses, all of them on the first line. -/
theorem onLine_map (ts : List (TokenVal × ℕ)) (q : ℕ) :
    OnLine (ts.map (fun t => ⟨t.1, 1, t.2⟩) ++ [⟨.eof, 1, q⟩]) (ts.map Prod.fst ++ [.eof]) := by
  refine ⟨?_, ?_⟩
  · rw [List.map_append, List.map_map]
    rfl
  · intro t ht
    rcases List.mem_append.mp ht with ht | ht
    · obtain ⟨_, -, rfl⟩ := List.mem_map.mp ht
      rfl
    · rw [List.mem_singleton.mp ht]

theorem Lexes.tokensFrom {cfg : LexConfig} {m : Mem} {bufEnd fuel : ℕ} {vs : List TokenVal}
    {s : LexState} {n : ℕ} (h : Lexes cfg m bufEnd (fuel + 1) s.bufPtr vs) (hline : s.lineNum = 1)
    (htoken : s.token.lineNum = 1) (hn : vs.length < n) :
    ∃ ts, tokensFrom cfg m bufEnd (fuel + 1) n s = .ok ts ∧ OnLine ts (vs ++ [.eof]) := by
  obtain ⟨ts, q, hts, hvals⟩ := h.lexesAt
  have hlen : ts.length = vs.length := by rw [← hvals, List.length_map]
  have honLine := onLine_map ts q
  rw [hvals] at honLine
  exact ⟨_, hts.tokensFrom hline htoken (hlen ▸ hn), honLine⟩

end Engine
end FuzzerJs
