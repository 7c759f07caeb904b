import FuzzerJs.Host.Script

/-!
# The string literal contains the input

Whatever bytes the input has, the script of string mode is two declarations with one string
literal, which starts and ends at the quotes of the script itself; and different inputs
give different literals.  Both hold although the escape sequences are not read as the
bytes that they were written for.

* `escapeUnits_flatMap_injective`: the code units of the literal determine the input.
* `stringScript_tokens`: the tokens of the script, without their addresses.
* `stringInput_contained`: the tokens of the script with their addresses.
-/

namespace FuzzerJs
namespace Host

open Engine Scan

/-! ## Different inputs, different literals -/

theorem hexDigit_injOn {n n' : ℕ} (h : n < 16) (h' : n' < 16) (heq : hexDigit n = hexDigit n') :
    n = n' := by
  have hall : ∀ i < 16, ∀ j < 16, hexDigit i = hexDigit j → i = j := by decide
  exact hall n h n' h' heq

/-- The two digits of a byte determine it. -/
theorem escapeUnits_injective : Function.Injective escapeUnits := by
  intro b b' h
  have hinj : Function.Injective UInt8.toUInt16 := fun x y hxy => by
    have := congrArg UInt16.toNat hxy
    rwa [UInt8.toNat_toUInt16, UInt8.toNat_toUInt16, UInt8.toNat_inj] at this
  have hbytes := List.map_injective_iff.mpr hinj h
  simp only [List.cons.injEq, and_true, true_and] at hbytes
  have hb := b.toNat_lt
  have hb' := b'.toNat_lt
  have hhi := hexDigit_injOn (show b.toNat / 16 < 16 by omega) (show b'.toNat / 16 < 16 by omega)
    hbytes.1
  have hlo := hexDigit_injOn (show b.toNat % 16 < 16 by omega) (show b'.toNat % 16 < 16 by omega)
    hbytes.2
  apply UInt8.toNat_inj.mp
  omega

/-- The code units of the literal determine the input: every byte gives four of them. -/
theorem escapeUnits_flatMap_injective :
    Function.Injective fun data : List UInt8 => data.flatMap escapeUnits := by
  intro data data' h
  induction data generalizing data' with
  | nil =>
      cases data' with
      | nil => rfl
      | cons b' data' => exact absurd h (by simp [escapeUnits])
  | cons b data ih =>
      cases data' with
      | nil => exact absurd h (by simp [escapeUnits])
      | cons b' data' =>
          simp only [List.flatMap_cons] at h
          have hb := escapeUnits_injective (List.append_inj_left h rfl)
          have hdata := ih (List.append_inj_right h rfl)
          rw [hb, hdata]

/-! ## The tokens with their addresses -/

/-- The tokens of a script of `len` bytes in string mode.  The literal starts at the quote at
address 36, and the semicolon behind it is the last byte of the script. -/
def literalTokens (units : List UInt16) (len : ℕ) : List (TokenVal × ℕ) :=
  [(.keyword 7, 0), (.ident (asciiBytes "FuzzerOutput") false false, 4), (.char (ch ';'), 16),
    (.keyword 7, 18), (.ident (asciiBytes "FuzzerInput") false false, 22), (.char (ch '='), 34),
    (.string (ch '"') units, 36), (.char (ch ';'), len - 1)]

section Contained

variable {T : Tables} {m : Mem} {data : List UInt8}

theorem length_script_true (data : List UInt8) :
    (script true data).length = 39 + 5 * data.length := by
  rw [← length_scriptBody_true]
  simp [script, scriptHeader, scriptFooter, asciiBytes]
  omega

/-- The text of the script, cut at the equals sign and at the quotes. -/
theorem script_true_text (data : List UInt8) :
    script true data ++ [0] = asciiBytes "var FuzzerOutput; var FuzzerInput =" ++
      ch ' ' :: ch '"' :: (scriptBody true data ++ ch '"' :: [ch ';', 0]) := by
  have hheader : scriptHeader true = asciiBytes "var FuzzerOutput; var FuzzerInput =" ++
      [ch ' ', ch '"'] := by decide
  rw [script, hheader]
  simp [scriptFooter, asciiBytes]

/-- The literal is scanned from the space before its opening quote to its closing quote, which is
the last byte but one of the script. -/
theorem literal_scan (hread : Reads m 0 (script true data ++ [0])) :
    scanToken (globalConfig T) m (script true data).length 1 ((script true data).length + 2) 35 1
        false =
      .ok ⟨.string (ch '"') (data.flatMap escapeUnits), 36, 1, (script true data).length - 1, 1,
        false⟩ := by
  have hlen := length_script_true data
  have hbody := length_scriptBody_true data
  rw [script_true_text] at hread
  have hread' : Reads m 35 (ch ' ' :: ch '"' :: (scriptBody true data ++ ch '"' :: [ch ';', 0])) :=
    (Reads.append_iff.mp hread).2
  rw [scanToken_space hread'.1, scanToken_string hread'.2.1
    (body_parseString data hread'.2.2 (by omega) (by omega))]
  simp only [Res.ok.injEq, Scanned.mk.injEq, true_and, and_true]
  omega

theorem script_lexesAt (hread : Reads m 0 (script true data ++ [0])) :
    LexesAt (globalConfig T) m (script true data).length ((script true data).length + 2) 0
      (literalTokens (data.flatMap escapeUnits) (script true data).length)
      (script true data).length := by
  have hlen := length_script_true data
  have hbody := length_scriptBody_true data
  have hliteral := literal_scan (T := T) hread
  have hend : (script true data).length - 1 = 35 + ((scriptBody true data).length + 3) := by omega
  have htokens : literalTokens (data.flatMap escapeUnits) (script true data).length =
      declarationPlaces ++ [(.string (ch '"') (data.flatMap escapeUnits), 36),
        (.char (ch ';'), (script true data).length - 1)] := rfl
  have htext : (ch ' ' :: ch '"' :: scriptBody true data ++ [ch '"']).length =
      (scriptBody true data).length + 3 := by
    simp
  rw [script_true_text] at hread
  rw [htokens, hend, ← htext]
  rw [hend, ← htext] at hliteral
  refine declaration_lexesAt (by omega) hread fun hread => ?_
  have hread' : Reads m 35 ((ch ' ' :: ch '"' :: scriptBody true data ++ [ch '"']) ++ [ch ';', 0]) := by
    simpa using hread
  refine LexesAt.cons 36 hread' (by simp) hliteral fun hread => ?_
  refine LexesAt.separator (by decide) hread fun hread => ⟨?_, hread.1⟩
  rw [htext]
  omega

end Contained

/-- The script of `data`, in the memory `m`, is two declarations with one string of the value
`units`.  The scanner enters the string at the opening quote of the script, at address 36, and
leaves it behind the closing quote, which is the last byte but one. -/
structure InLiteral (T : Tables) (m : Mem) (data : List UInt8) (units : List UInt16) : Prop where
  tokens : tokens (globalConfig T) m (script true data).length ((script true data).length + 2) =
    .ok ((literalTokens units (script true data).length).map (fun t => ⟨t.1, 1, t.2⟩) ++
      [⟨.eof, 1, (script true data).length⟩])
  scan : scanToken (globalConfig T) m (script true data).length 1
      ((script true data).length + 2) 35 1 false =
    .ok ⟨.string (ch '"') units, 36, 1, (script true data).length - 1, 1, false⟩
  close : m ((script true data).length - 2) = ch '"'

theorem inLiteral_escapeUnits (T : Tables) {m : Mem} {data : List UInt8}
    (hread : Reads m 0 (script true data ++ [0])) :
    InLiteral T m data (data.flatMap escapeUnits) := by
  have hlen := length_script_true data
  refine ⟨?_, literal_scan hread, ?_⟩
  · have hfirst : m 0 = ch 'v' := by
      rw [script_true_text] at hread
      exact hread.1
    rw [tokens, skipShebang_var hfirst, Res.ok_bind]
    refine LexesAt.tokensFrom (script_lexesAt hread) rfl rfl ?_
    simp only [literalTokens, List.length_cons, List.length_nil]
    omega
  · have hbody := length_scriptBody_true data
    have htext : script true data ++ [0] = (asciiBytes "var FuzzerOutput; var FuzzerInput = \"" ++
        scriptBody true data) ++ ch '"' :: [ch ';', 0] := by
      simp [script, scriptHeader, scriptFooter, asciiBytes]
    rw [htext] at hread
    have hclose := (Reads.append_iff.mp hread).2.1
    rw [← hclose]
    congr 1
    rw [List.length_append, show (asciiBytes "var FuzzerOutput; var FuzzerInput = \"").length = 37
      from rfl]
    omega

/-- **The tokens of the script in string mode.**  The literal has four code units for each byte
of the input. -/
theorem stringScript_tokens (T : Tables) {m : Mem} (data : List UInt8)
    (hread : Reads m 0 (script true data ++ [0])) :
    ∃ ts, tokens (globalConfig T) m (script true data).length ((script true data).length + 2) =
        .ok ts ∧ OnLine ts (stringTokens data ++ [.eof]) :=
  ⟨_, (inLiteral_escapeUnits T hread).tokens, onLine_map _ _⟩

/-- **The input stays inside its literal, and is never conflated.**  Two memories hold the
scripts of two inputs, each with the zero that ends a `std::string`. -/
theorem stringInput_contained (T : Tables) (data data' : List UInt8) (m m' : Mem)
    (h : Reads m 0 (script true data ++ [0])) (h' : Reads m' 0 (script true data' ++ [0])) :
    ∃ units units', InLiteral T m data units ∧ InLiteral T m' data' units' ∧
      (data ≠ data' → units ≠ units') := by
  refine ⟨_, _, inLiteral_escapeUnits T h, inLiteral_escapeUnits T h', fun hne heq => ?_⟩
  exact hne (escapeUnits_flatMap_injective heq)

/-- Tables of an engine that knows no characters beyond ASCII. -/
def asciiTables : Tables := ⟨fun _ => false, fun _ => false, fun _ => false⟩

/-- A quote and a backslash, the two bytes that could end a literal or start an escape sequence. -/
theorem stringInput_contained_quote :
    ∃ units units', InLiteral asciiTables (terminated (script true [0x22])) [0x22] units ∧
      InLiteral asciiTables (terminated (script true [0x5c])) [0x5c] units' ∧ units ≠ units' := by
  obtain ⟨units, units', h, h', hne⟩ := stringInput_contained asciiTables [0x22] [0x5c] _ _
    (terminated_reads _) (terminated_reads _)
  exact ⟨units, units', h, h', hne (by decide)⟩

end Host
end FuzzerJs
