import FuzzerJs.Engine.LexerText
import FuzzerJs.Host.Compile

/-!
# The script that `JS::Run` generates

The text that hands the input to the engine, in its two forms, and the tokens that the
engine makes of it.  In binary mode the input is a list of decimal numbers between
brackets, in string mode a string literal with one escape sequence for each byte.

* `binaryScript_tokens`: in binary mode the numbers come back as they were written, for an
  input of any length.
* `body_parseString`: in string mode the literal is read as the *text* of the escape
  sequences, since each backslash is written twice.
-/

namespace FuzzerJs
namespace Host

open Engine Scan

/-! ## The generator -/

/-- `std::to_string` of a byte. -/
def decimalText (b : UInt8) : List UInt8 := (Nat.toDigits 10 b.toNat).map ch

/-- One digit of `%X`. -/
def hexDigit (n : ℕ) : UInt8 := ch (Nat.digitChar n).toUpper

/-- `sprintf` with the format `\\x%02X`, in which the C++ literal has four backslashes. -/
def hexText (b : UInt8) : List UInt8 :=
  [ch '\\', ch '\\', ch 'x', hexDigit (b.toNat / 16), hexDigit (b.toNat % 16)]

/-- `scriptHeader`. -/
def scriptHeader (asString : Bool) : List UInt8 :=
  if asString then asciiBytes "var FuzzerOutput; var FuzzerInput = \""
  else asciiBytes "var FuzzerOutput; var FuzzerInput = new Uint8Array(["

/-- `scriptBody`. -/
def scriptBody (asString : Bool) : List UInt8 → List UInt8
  | [] => []
  | b :: rest =>
    (if asString then hexText b
      else if rest = [] then decimalText b else decimalText b ++ [ch ',']) ++
      scriptBody asString rest

/-- `scriptFooter`. -/
def scriptFooter (asString : Bool) : List UInt8 :=
  if asString then asciiBytes "\";" else asciiBytes "]);"

/-- `script`. -/
def script (asString : Bool) (data : List UInt8) : List UInt8 :=
  scriptHeader asString ++ scriptBody asString data ++ scriptFooter asString

/-- `JS_Eval` with `JS_EVAL_TYPE_GLOBAL`: sloppy code, in which comments as in HTML are
allowed. -/
def globalConfig (T : Tables) : LexConfig := ⟨false, false, true, T⟩

/-- A text with zeros after it is there with its terminating zero. -/
theorem terminated_reads (text : List UInt8) : Reads (terminated text) 0 (text ++ [0]) := by
  refine Reads.of_getD fun i hi => ?_
  rw [List.length_append, List.length_singleton] at hi
  rw [terminated, Nat.zero_add]
  rcases Nat.lt_succ_iff_lt_or_eq.mp hi with hlt | rfl
  · rw [List.getD_append _ _ _ _ hlt]
  · simp

/-! ## Numbers -/

theorem ch_digitChar {d : ℕ} (h : d < 10) : ch (Nat.digitChar d) = UInt8.ofNat (48 + d) := by
  interval_cases d <;> rfl

theorem ch_digitChar_toNat {d : ℕ} (h : d < 10) : (ch (Nat.digitChar d)).toNat = 48 + d := by
  rw [ch_digitChar h, UInt8.toNat_ofNat_of_lt' (show 48 + d < 256 by omega)]

theorem digitsValue_concat (ds : List UInt8) (d : UInt8) :
    digitsValue (ds ++ [d]) = digitsValue ds * 10 + (d.toNat - 48) := by
  rw [digitsValue, List.foldl_append]
  rfl

/-- The digits of a number, most significant first. -/
theorem toDigits_induction {P : ℕ → List UInt8 → Prop}
    (hlow : ∀ n < 10, P n [ch (Nat.digitChar n)])
    (hhigh : ∀ n ds, 10 ≤ n → P (n / 10) ds → P n (ds ++ [ch (Nat.digitChar (n % 10))])) (n : ℕ) :
    P n ((Nat.toDigits 10 n).map ch) := by
  induction n using Nat.strong_induction_on with
  | _ n ih =>
      rw [Nat.toDigits_eq_if (by norm_num)]
      by_cases hn : n < 10
      · rw [if_pos hn]
        exact hlow n hn
      · rw [if_neg hn, List.map_append]
        exact hhigh n _ (not_lt.mp hn) (ih (n / 10) (by omega))

theorem isDigit_digitChar {d : ℕ} (h : d < 10) : isDigit (ch (Nat.digitChar d)) = true := by
  interval_cases d <;> rfl

theorem decimalText_ne_nil (b : UInt8) : decimalText b ≠ [] := by
  simp [decimalText, Nat.toDigits_ne_nil]

theorem decimalText_isDigit (b : UInt8) : ∀ d ∈ decimalText b, isDigit d = true := by
  refine toDigits_induction (P := fun _ ds => ∀ d ∈ ds, isDigit d = true) ?_ ?_ b.toNat
  · intro n hn d hd
    rw [List.mem_singleton.mp hd]
    exact isDigit_digitChar hn
  · intro n ds _ ih d hd
    rcases List.mem_append.mp hd with hd | hd
    · exact ih d hd
    · rw [List.mem_singleton.mp hd]
      exact isDigit_digitChar (Nat.mod_lt n (by norm_num))

/-- Only zero is written with a zero in front, so no text is read as an octal number. -/
theorem decimalText_head (b : UInt8) :
    (decimalText b).head? = some (ch '0') → decimalText b = [ch '0'] := by
  have hhead : (decimalText b).head? = some (ch '0') → b.toNat = 0 := by
    refine toDigits_induction
      (P := fun n ds => ds ≠ [] ∧ (ds.head? = some (ch '0') → n = 0)) ?_ ?_ b.toNat |>.2
    · intro n hn
      refine ⟨by simp, ?_⟩
      interval_cases n <;> decide
    · rintro n ds hn ⟨hne, ih⟩
      refine ⟨by simp, fun h => ?_⟩
      rw [List.head?_append_of_ne_nil ds hne] at h
      have := ih h
      omega
  intro h
  rw [decimalText, hhead h]
  rfl

/-- The value of the digits is the byte. -/
theorem digitsValue_decimalText (b : UInt8) : digitsValue (decimalText b) = b.toNat := by
  refine toDigits_induction (P := fun n ds => digitsValue ds = n) ?_ ?_ b.toNat
  · intro n hn
    rw [← List.nil_append [_], digitsValue_concat, ch_digitChar_toNat hn]
    simp [digitsValue]
  · intro n ds _ ih
    rw [digitsValue_concat, ih, ch_digitChar_toNat (Nat.mod_lt n (by norm_num))]
    omega

theorem length_decimalText_le (b : UInt8) : (decimalText b).length ≤ 3 := by
  rw [decimalText, List.length_map, Nat.length_toDigits_le_iff (by norm_num) (by norm_num)]
  exact b.toNat_lt.trans (by norm_num)

/-- The token of a byte. -/
def byteToken (b : UInt8) : TokenVal := .number (.decimal (decimalText b))

/-- Read as a number the token is the byte again. -/
theorem decimalText_toInt32 (b : UInt8) :
    NumLit.toInt32 (.decimal (decimalText b)) = some b.toNat := by
  have hlt : digitsValue (decimalText b) < 2 ^ 31 := by
    rw [digitsValue_decimalText]
    exact b.toNat_lt.trans (by norm_num)
  rw [NumLit.toInt32, if_pos ⟨decimalText_ne_nil b, List.all_eq_true.mpr (decimalText_isDigit b),
    hlt⟩, digitsValue_decimalText]

/-! ## Tokens of the binary script -/

/-- The tokens of the numbers and of the commas between them. -/
def elementTokens : List UInt8 → List TokenVal
  | [] => []
  | b :: rest =>
    if rest = [] then [byteToken b] else byteToken b :: .char (ch ',') :: elementTokens rest

/-- The tokens before the initial value of `FuzzerInput`. -/
def declarationTokens : List TokenVal :=
  [.keyword 7, .ident (asciiBytes "FuzzerOutput") false false, .char (ch ';'), .keyword 7,
    .ident (asciiBytes "FuzzerInput") false false, .char (ch '=')]

/-- The same with the addresses where they start. -/
def declarationPlaces : List (TokenVal × ℕ) :=
  [(.keyword 7, 0), (.ident (asciiBytes "FuzzerOutput") false false, 4), (.char (ch ';'), 16),
    (.keyword 7, 18), (.ident (asciiBytes "FuzzerInput") false false, 22), (.char (ch '='), 34)]

/-- The tokens of the script in binary mode. -/
def binaryTokens (data : List UInt8) : List TokenVal :=
  declarationTokens ++ [TokenVal.keyword 12, TokenVal.ident (asciiBytes "Uint8Array") false false,
    TokenVal.char (ch '('), TokenVal.char (ch '[')] ++ elementTokens data ++
    [TokenVal.char (ch ']'), TokenVal.char (ch ')'), TokenVal.char (ch ';')]

section Tokens

variable {T : Tables} {m : Mem} {bufEnd fuel p : ℕ} {rest : List UInt8} {vs : List TokenVal}

/-- The two declarations, up to the equals sign. -/
theorem declaration_lexesAt {vs : List (TokenVal × ℕ)} {q : ℕ} (hfuel : 12 ≤ fuel)
    (hread : Reads m 0 (asciiBytes "var FuzzerOutput; var FuzzerInput =" ++ ch ' ' :: rest))
    (hrest : Reads m 35 (ch ' ' :: rest) →
      LexesAt (globalConfig T) m bufEnd (fuel + 2) 35 vs q) :
    LexesAt (globalConfig T) m bufEnd (fuel + 2) 0 (declarationPlaces ++ vs) q := by
  have htext : asciiBytes "var FuzzerOutput; var FuzzerInput =" ++ ch ' ' :: rest =
      asciiBytes "var" ++ ch ' ' :: (asciiBytes "FuzzerOutput" ++ ch ';' :: ch ' ' ::
        (asciiBytes "var" ++ ch ' ' :: (asciiBytes "FuzzerInput" ++
          ([ch ' ', ch '='] ++ ch ' ' :: rest)))) := rfl
  have hvar : NameText (asciiBytes "var") (ch ' ') := by decide +kernel
  have hout : NameText (asciiBytes "FuzzerOutput") (ch ';') := by decide +kernel
  have hin : NameText (asciiBytes "FuzzerInput") (ch ' ') := by decide +kernel
  have hvarFuel : (asciiBytes "var").length ≤ fuel := le_trans (by decide) hfuel
  have hinFuel : (asciiBytes "FuzzerInput").length ≤ fuel := le_trans (by decide) hfuel
  rw [htext] at hread
  refine LexesAt.cons 0 hread (by simp) (hvar.scanToken hread hvarFuel.step) fun hread => ?_
  refine LexesAt.cons 4 hread (by simp) (hout.scanToken_space hread hfuel) fun hread => ?_
  refine LexesAt.separator (by decide) hread fun hread => ?_
  refine LexesAt.cons 18 hread (by simp) (hvar.scanToken_space hread hvarFuel) fun hread => ?_
  refine LexesAt.cons 22 hread (by simp) (hin.scanToken_space hread hinFuel) fun hread => ?_
  refine LexesAt.cons 34 hread (by simp) ?_ hrest
  rw [scanToken_space hread.1, scanToken_assign hread.2.1 hread.2.2.1]
  rfl

/-- The same without the addresses. -/
theorem declaration_lexes (hfuel : 12 ≤ fuel)
    (hread : Reads m 0 (asciiBytes "var FuzzerOutput; var FuzzerInput =" ++ ch ' ' :: rest))
    (hrest : Reads m 35 (ch ' ' :: rest) →
      Lexes (globalConfig T) m bufEnd (fuel + 2) 35 vs) :
    Lexes (globalConfig T) m bufEnd (fuel + 2) 0 (declarationTokens ++ vs) := by
  obtain ⟨ts, q, hts, rfl⟩ := (hrest (Reads.append_iff.mp hread).2).lexesAt
  exact (declaration_lexesAt hfuel hread fun _ => hts).lexes

/-- The numbers of the input, with the closing bracket after them. -/
theorem elements_lexes (hfuel : 3 < fuel) (data : List UInt8) :
    ∀ {p : ℕ}, Reads m p (scriptBody false data ++ ch ']' :: rest) →
      (∀ {p}, Reads m p (ch ']' :: rest) → Lexes (globalConfig T) m bufEnd (fuel + 1) p vs) →
      Lexes (globalConfig T) m bufEnd (fuel + 1) p (elementTokens data ++ vs) := by
  induction data with
  | nil => intro p hread hrest; exact hrest hread
  | cons b data ih =>
      intro p hread hrest
      have hlen : (decimalText b).length < fuel := (length_decimalText_le b).trans_lt hfuel
      rw [scriptBody] at hread
      rw [elementTokens]
      by_cases hdata : data = []
      · simp only [hdata, scriptBody, if_true, List.append_nil, Bool.false_eq_true, if_false] at hread
        rw [if_pos hdata]
        exact Lexes.number (decimalText_ne_nil b) (decimalText_isDigit b) (decimalText_head b)
          (by simp) rfl hread hlen hrest
      · simp only [hdata, if_false, Bool.false_eq_true, List.append_assoc,
          List.cons_append] at hread
        rw [if_neg hdata]
        refine Lexes.number (decimalText_ne_nil b) (decimalText_isDigit b) (decimalText_head b)
          (by simp) rfl hread hlen fun hread => ?_
        exact Lexes.separator (by decide) hread fun hread => ih hread hrest

/-- There is no `#!` at the start of a script. -/
theorem skipShebang_var (h : m 0 = ch 'v') : skipShebang m bufEnd fuel = .ok 0 := by
  rw [skipShebang, if_neg]
  rintro ⟨h', -⟩
  rw [h] at h'
  exact absurd h' (by decide)

theorem length_elementTokens_le (data : List UInt8) :
    (elementTokens data).length ≤ (scriptBody false data).length := by
  induction data with
  | nil => simp [elementTokens]
  | cons b data ih =>
      have hpos := List.length_pos_of_ne_nil (decimalText_ne_nil b)
      rw [elementTokens, scriptBody]
      by_cases hdata : data = []
      · simp only [hdata, if_true, Bool.false_eq_true, if_false, List.length_append,
          List.length_singleton]
        omega
      · simp only [hdata, if_false, Bool.false_eq_true, List.length_append, List.length_cons,
          List.length_nil]
        omega

/-- **The tokens of the script in binary mode**, for an input of any length: the brackets hold one
number for each byte, in the order of the input. -/
theorem binaryScript_tokens (T : Tables) (data : List UInt8)
    (hread : Reads m 0 (script false data ++ [0])) :
    ∃ ts, tokens (globalConfig T) m (script false data).length ((script false data).length + 2) =
        .ok ts ∧ OnLine ts (binaryTokens data ++ [.eof]) := by
  have hheader : scriptHeader false = asciiBytes "var FuzzerOutput; var FuzzerInput =" ++
      (ch ' ' :: asciiBytes "new") ++ (ch ' ' :: asciiBytes "Uint8Array") ++
      [ch '(', ch '['] := by decide
  have htext : script false data ++ [0] = asciiBytes "var FuzzerOutput; var FuzzerInput =" ++
      ch ' ' :: (asciiBytes "new" ++ ch ' ' :: (asciiBytes "Uint8Array" ++ ch '(' :: ch '[' ::
        (scriptBody false data ++ ch ']' :: ch ')' :: [ch ';', 0]))) := by
    rw [script, hheader]
    simp [scriptFooter, asciiBytes]
  have hlen : (script false data).length = 55 + (scriptBody false data).length := by
    simp [script, scriptHeader, scriptFooter, asciiBytes]
    omega
  have hlex : Lexes (globalConfig T) m (script false data).length
      ((script false data).length + 2) 0 (binaryTokens data) := by
    rw [htext] at hread
    rw [binaryTokens, List.append_assoc, List.append_assoc]
    refine declaration_lexes (by omega) hread fun hread => ?_
    refine Lexes.spaceName (by decide +kernel) hread (by simp [asciiBytes]; omega) fun hread => ?_
    refine Lexes.spaceName (by decide +kernel) hread (by simp [asciiBytes]; omega) fun hread => ?_
    refine Lexes.separator (by decide) hread fun hread => ?_
    refine Lexes.separator (by decide) hread fun hread => ?_
    refine elements_lexes (by omega) data hread fun hread => ?_
    refine Lexes.separator (by decide) hread fun hread => ?_
    refine Lexes.separator (by decide) hread fun hread => ?_
    exact Lexes.separator (by decide) hread fun hread => hread.1
  have hcount : (binaryTokens data).length < (script false data).length + 2 := by
    have := length_elementTokens_le data
    simp only [binaryTokens, declarationTokens, List.length_append, List.length_cons,
      List.length_nil]
    omega
  rw [tokens, skipShebang_var (by rw [htext] at hread; exact hread.1), Res.ok_bind]
  exact hlex.tokensFrom rfl rfl hcount

/-! ## Tokens of the string script -/

/-- What the escape sequence of a byte is read as: a backslash, an `x` and the two digits. -/
def escapeUnits (b : UInt8) : List UInt16 :=
  [ch '\\', ch 'x', hexDigit (b.toNat / 16), hexDigit (b.toNat % 16)].map UInt8.toUInt16

/-- The tokens of the script in string mode. -/
def stringTokens (data : List UInt8) : List TokenVal :=
  declarationTokens ++ [.string (ch '"') (data.flatMap escapeUnits), .char (ch ';')]

theorem hexDigit_isStringAscii {n : ℕ} (h : n < 16) : isStringAscii (hexDigit n) = true := by
  interval_cases n <;> decide

theorem length_scriptBody_true (data : List UInt8) :
    (scriptBody true data).length = 5 * data.length := by
  induction data with
  | nil => rfl
  | cons b data ih =>
      rw [scriptBody, List.length_append, ih, List.length_cons, if_pos rfl,
        show (hexText b).length = 5 from rfl]
      omega

/-- The literal, from its first escape sequence to its closing quote. -/
theorem body_parseString (data : List UInt8) :
    ∀ {p fuel : ℕ}, Reads m p (scriptBody true data ++ ch '"' :: rest) →
      p + (scriptBody true data).length < bufEnd → 4 * data.length < fuel →
      parseString m bufEnd false (ch '"') fuel p 1 =
        .ok ⟨data.flatMap escapeUnits, p + (scriptBody true data).length + 1, 1⟩ := by
  induction data with
  | nil =>
      intro p fuel hread hend hfuel
      obtain ⟨fuel, rfl⟩ : ∃ f, fuel = f + 1 := ⟨fuel - 1, by omega⟩
      exact parseString_close hend hread.1
  | cons b data ih =>
      intro p fuel hread hend hfuel
      have hhi := hexDigit_isStringAscii (show b.toNat / 16 < 16 by have := b.toNat_lt; omega)
      have hlo := hexDigit_isStringAscii (show b.toNat % 16 < 16 by omega)
      have hbody : scriptBody true (b :: data) = hexText b ++ scriptBody true data := rfl
      rw [hbody, List.length_append, show (hexText b).length = 5 from rfl] at hend
      rw [hbody, List.append_assoc] at hread
      obtain ⟨h0, h1, h2, h3, h4, hread⟩ := hread
      rw [List.length_cons] at hfuel
      obtain ⟨fuel, rfl⟩ : ∃ f, fuel = f + 4 := ⟨fuel - 4, by omega⟩
      have hrest : parseString m bufEnd false (ch '"') fuel (p + 5) 1 = _ :=
        ih hread (by omega) (by omega)
      have hlo' := parseString_plain (p := p + 4) (by omega) (by rw [h4]; exact hlo) hrest
      have hhi' := parseString_plain (p := p + 3) (by omega) (by rw [h3]; exact hhi) hlo'
      have hx := parseString_plain (p := p + 2) (by omega) (by rw [h2]; decide) hhi'
      rw [parseString_backslash (by omega) h0 h1 hx, h2, h3, h4, hbody, List.length_append,
        show (hexText b).length = 5 from rfl,
        show p + (5 + (scriptBody true data).length) = p + 5 + (scriptBody true data).length by omega]
      rfl

end Tokens

end Host
end FuzzerJs
