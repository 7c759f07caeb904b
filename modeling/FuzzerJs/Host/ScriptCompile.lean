import FuzzerJs.Host.Containment
import FuzzerJs.Host.OutputRead
import FuzzerJs.Host.ScriptFunction

/-!
# Compiling the generated script

The script of `JS::Run` from its text to its function.  The world in which it is compiled is
fresh (`Fresh`): the predefined atoms are in the table, there is room for the few that the
script makes, and no global name is one of its two variables.

* `Fresh.named`: the atoms of the three names of the script.
* `compileScript_binary`: the function of the binary script, for an input that fits.
* `binaryScript_fails`: more elements than the parser has indices for.
* `stringScript_parses`: the string script, up to `js_create_function`.
-/

namespace FuzzerJs
namespace Host

open Engine Scan

/-! ## The fresh world -/

/-- `"FuzzerOutput"`. -/
def outputName : List UInt16 := nameUnits (asciiBytes "FuzzerOutput")

/-- `"FuzzerInput"`. -/
def inputName : List UInt16 := nameUnits (asciiBytes "FuzzerInput")

/-- The world in which `JS::Run` evaluates its script. -/
structure Fresh (w : World) : Prop where
  size_le : w.atoms.size ≤ atomMax
  room : 4 ≤ w.atoms.room atomPolicy
  emptyString : IsAtom w.atoms atomEmptyString []
  ret : IsAtom w.atoms atomRet (nameUnits (asciiBytes "<ret>"))
  uint8Array : IsAtom w.atoms atomUint8Array (nameUnits (asciiBytes "Uint8Array"))
  /-- Every global name is an atom, and none is one of the variables of the script. -/
  names : ∀ a, (w.realm.globalObj.props a).isSome ∨ (w.realm.globalVarObj a).isSome →
    ∃ k, w.atoms.Holds a.toNat k ∧ k ≠ .string outputName ∧ k ≠ .string inputName
  extensible : w.realm.globalObj.extensible = true

/-- The names of the script, once it has been compiled in a fresh world. -/
structure Named (w : World) (filename out inp : JSAtom) (t : AtomTable) : Prop where
  names : ScriptNames w.atoms filename out inp t
  filenameAtom : IsAtom t filename (nameUnits (asciiBytes "<none>"))
  outAtom : IsAtom t out outputName
  inpAtom : IsAtom t inp inputName
  keeps : w.atoms.Keeps t
  size_le : t.size ≤ atomMax
  room : 1 ≤ t.room atomPolicy

theorem Fresh.named {w : World} (h : Fresh w) : ∃ filename out inp t, Named w filename out inp t := by
  obtain ⟨filename, t₁, hnew₁, hatom₁, hsize₁, hkeeps₁, hroom₁⟩ :=
    newAtomStr_spec (show isNumString (nameUnits (asciiBytes "<none>")) = none by decide) h.size_le
      (show 3 < w.atoms.room atomPolicy from h.room)
  obtain ⟨out, t₂, hnew₂, hatom₂, hsize₂, hkeeps₂, hroom₂⟩ :=
    newAtomStr_spec (show isNumString outputName = none by decide) hsize₁
      (show 2 < t₁.room atomPolicy from hroom₁)
  obtain ⟨inp, t₃, hnew₃, hatom₃, hsize₃, hkeeps₃, hroom₃⟩ :=
    newAtomStr_spec (show isNumString inputName = none by decide) hsize₂
      (show 1 < t₂.room atomPolicy from hroom₂)
  exact ⟨filename, out, inp, t₃, ⟨t₁, t₂, hnew₁, hnew₂, hnew₃⟩,
    (hatom₁.keeps hkeeps₂).keeps hkeeps₃, hatom₂.keeps hkeeps₃, hatom₃,
    (hkeeps₁.trans hkeeps₂).trans hkeeps₃, hsize₃, hroom₃⟩

section Named

variable {w : World} {filename out inp : JSAtom} {t : AtomTable}

theorem Fresh.undeclared (h : Fresh w) (hkeeps : w.atoms.Keeps t) {a : JSAtom}
    {units : List UInt16} (hatom : IsAtom t a units) (hunits : units = outputName ∨ units = inputName) :
    Undeclared w.realm a := by
  have hnot : ¬ ((w.realm.globalObj.props a).isSome ∨ (w.realm.globalVarObj a).isSome) := by
    intro hsome
    obtain ⟨k, hk, hout, hin⟩ := h.names a hsome
    have heq : k = .string units := (hkeeps.holds hk).key_eq hatom
    rcases hunits with rfl | rfl
    · exact hout heq
    · exact hin heq
  rw [not_or, Option.not_isSome_iff_eq_none, Option.not_isSome_iff_eq_none] at hnot
  exact ⟨hnot.1, h.extensible, hnot.2⟩

theorem Named.undeclared_out (hn : Named w filename out inp t) (h : Fresh w) :
    Undeclared w.realm out := h.undeclared hn.keeps hn.outAtom (Or.inl rfl)

theorem Named.undeclared_inp (hn : Named w filename out inp t) (h : Fresh w) :
    Undeclared w.realm inp := h.undeclared hn.keeps hn.inpAtom (Or.inr rfl)

/-- The names depend on the table only. -/
theorem Named.of_atoms {w' : World} (hn : Named w filename out inp t) (h : w.atoms = w'.atoms) :
    Named w' filename out inp t :=
  ⟨h ▸ hn.names, hn.filenameAtom, hn.outAtom, hn.inpAtom, h ▸ hn.keeps, hn.size_le, hn.room⟩

theorem Named.out_ne_inp (hn : Named w filename out inp t) : out ≠ inp :=
  hn.outAtom.ne hn.inpAtom (by decide)

theorem Named.inp_ne_filename (hn : Named w filename out inp t) : inp ≠ filename :=
  hn.inpAtom.ne hn.filenameAtom (by decide)

theorem Named.inp_ne_ret (hn : Named w filename out inp t) (h : Fresh w) : inp ≠ atomRet :=
  hn.inpAtom.ne (h.ret.keeps hn.keeps) (by decide)

theorem Named.inp_ne_uint8Array (hn : Named w filename out inp t) (h : Fresh w) :
    inp ≠ atomUint8Array :=
  hn.inpAtom.ne (h.uint8Array.keeps hn.keeps) (by decide)

theorem Named.out_ne_uint8Array (hn : Named w filename out inp t) (h : Fresh w) :
    out ≠ atomUint8Array :=
  hn.outAtom.ne (h.uint8Array.keeps hn.keeps) (by decide)

end Named

/-! ## Compiling -/

/-- `"<none>"`, the file name that `JS::Run` gives. -/
def noneName : List UInt16 := nameUnits (asciiBytes "<none>")

/-- Of the tokens of a text the parser sees the values and the lines. -/
theorem scriptTokens_onLine {cfg : LexConfig} {m : Mem} {len : ℕ} {ts : List Token}
    {vs : List TokenVal} (hts : tokens cfg m len (len + 2) = .ok ts) (h : OnLine ts vs) :
    scriptTokens cfg m len = .ok (vs.map (·, 1)) := by
  have hpairs : ts.map (fun t => (t.val, t.lineNum)) = vs.map (·, 1) := by
    rw [← h.1, List.map_map]
    exact List.map_congr_left fun t ht => by simp [h.2 t ht]
  rw [scriptTokens, hts]
  simp only [hpairs]

theorem length_le_elementTokens (data : List UInt8) : data.length ≤ (elementTokens data).length := by
  induction data with
  | nil => simp
  | cons b data ih =>
      rw [elementTokens]
      split
      · rename_i hdata
        simp [hdata]
      · simp only [List.length_cons]
        omega

section Compile

variable {T : Tables} {m : Mem} {w : World} {filename out inp : JSAtom} {t : AtomTable}
  {data : List UInt8}

theorem Named.keeps_valueAtoms (hn : Named w filename out inp t) :
    w.atoms.Keeps (valueAtoms t inp) :=
  ((hn.keeps.trans (keeps_dupAtom _ _)).trans (keeps_dupAtom _ _)).trans (keeps_dupAtom _ _)

/-- The script in the memory `m` is tokenised and parsed, into this function definition. -/
def ParsesTo (cfg : LexConfig) (m : Mem) (len : ℕ) (atoms : AtomTable) (fd : FunctionDef)
    (t : AtomTable) : Prop :=
  ∃ ts s₀ s, scriptTokens cfg m len = .ok ts ∧ initialState atoms noneName ts = .ok s₀ ∧
    parseProgram ts.length s₀ = .ok s ∧ s.fd = fd ∧ s.atoms = t

theorem ParsesTo.compileScript {cfg : LexConfig} {len : ℕ} {atoms : AtomTable} {fd : FunctionDef}
    (h : ParsesTo cfg m len atoms fd t) :
    compileScript cfg noneName m len atoms = createFunction fd t := by
  obtain ⟨ts, s₀, s, hts, hs₀, hs, rfl, rfl⟩ := h
  rw [Engine.compileScript, hts, Eval.ok_bind, hs₀, Eval.ok_bind, hs, Eval.ok_bind]

/-- The binary script begins with the declarations, and there is fuel for each of its elements. -/
theorem binaryScript_tokensAhead (T : Tables) (hread : Reads m 0 (script false data ++ [0])) :
    ∃ f, scriptTokens (globalConfig T) m (script false data).length =
        .ok ((declarationTokens ++ binaryValueTokens data [.char (ch ';'), .eof]).map (·, 1)) ∧
      ((declarationTokens ++ binaryValueTokens data [.char (ch ';'), .eof]).map (·, 1)).length =
        f + 6 + 3 ∧ data.length + 3 ≤ f := by
  obtain ⟨ts, hts, hline⟩ := binaryScript_tokens T data hread
  have htokens : binaryTokens data ++ [.eof] =
      declarationTokens ++ binaryValueTokens data [.char (ch ';'), .eof] := by
    simp [binaryTokens, binaryValueTokens, closeTokens]
  have hle := length_le_elementTokens data
  have hsum : ((binaryTokens data ++ [TokenVal.eof]).map (·, 1)).length =
      (elementTokens data).length + 14 := by
    simp [binaryTokens, declarationTokens]
  rw [← htokens]
  exact ⟨(elementTokens data).length + 5, scriptTokens_onLine hts hline, by omega, by omega⟩

theorem binaryValue_first (data : List UInt8) (vs : List TokenVal) (s : ParseState)
    (h : Ready s (.char (ch '=') :: binaryValueTokens data vs)) :
    Parses s.nextToken s [] s.atoms (binaryValueTokens data vs) :=
  h.nextToken_plain rfl rfl

/-- The binary script. -/
theorem binaryScript_parses (h : Fresh w) (hn : Named w filename out inp t)
    (hread : Reads m 0 (script false data ++ [0])) (hlen : data.length ≤ 0x7fffffff) :
    ∃ pos, ParsesTo (globalConfig T) m (script false data).length w.atoms
      (scriptDef filename (programCode inp (binaryCode 1 data)) pos 1 [out, inp] 1)
      (dupAtom t inp) := by
  obtain ⟨f, hts, hf, hfuel⟩ := binaryScript_tokensAhead T hread
  have hvalue : ∀ s, Ready s (binaryValueTokens data [.char (ch ';'), .eof]) →
      s.fd.lastOpcodeLineNum = 1 → s.fd.scopeLevel = 1 → s.atoms = valueAtoms t inp →
      Parses (parseAssignExpr (f + 6) s) s (binaryCode 1 data) (valueAtoms t inp)
        [.char (ch ';'), .eof] := by
    intro s hready hopcode hscope hatoms
    have hparse := binaryValue_parses hlen hfuel hready hopcode rfl
      (by rw [hatoms]; exact h.uint8Array.keeps hn.keeps_valueAtoms)
    rwa [hscope, hatoms] at hparse
  obtain ⟨s₀, s', pos, hok₀, hok', hfd, hatoms⟩ :=
    program_parses hn.names (binaryValue_first data _) hvalue
  rw [valueAtoms, dupAtom_freeAtom, dupAtom_freeAtom] at hatoms
  rw [← hf] at hok'
  exact ⟨pos, _, s₀, s', hts, hok₀, hok', hfd, hatoms⟩

/-- A binary script with more elements than the second loop takes. -/
theorem binaryScript_fails (h : Fresh w) (hn : Named w filename out inp t)
    (hread : Reads m 0 (script false data ++ [0])) (hlen : 0x7fffffff < data.length) :
    (compileScript (globalConfig T) noneName m (script false data).length w.atoms).Fails := by
  obtain ⟨f, hts, hf, hfuel⟩ := binaryScript_tokensAhead T hread
  have hvalue : ∀ s, Ready s (binaryValueTokens data [.char (ch ';'), .eof]) →
      s.fd.lastOpcodeLineNum = 1 → s.atoms = valueAtoms t inp →
      (parseAssignExpr (f + 6) s).Fails := by
    intro s hready hopcode hatoms
    exact binaryValue_fails hlen hfuel hready hopcode
      (by rw [hatoms]; exact h.uint8Array.keeps hn.keeps_valueAtoms)
  obtain ⟨s₀, hok₀, hfails⟩ := program_fails hn.names (binaryValue_first data _) hvalue
  rw [← hf] at hfails
  rw [Engine.compileScript, hts, Eval.ok_bind]
  change ((initialState w.atoms (nameUnits (asciiBytes "<none>")) _) >>= _).Fails
  rw [hok₀, Eval.ok_bind]
  exact hfails.bind _

/-- The string script. -/
theorem stringScript_parses (hn : Named w filename out inp t)
    (hread : Reads m 0 (script true data ++ [0])) {a : JSAtom} {t' : AtomTable}
    (hlen : (data.flatMap escapeUnits).length ≤ stringLenMax)
    (hnew : newAtomStr (valueAtoms t inp) (data.flatMap escapeUnits) = some (a, t'))
    (ha : atomIsTaggedInt a = false) :
    ∃ pos, ParsesTo (globalConfig T) m (script true data).length w.atoms
      (scriptDef filename (programCode inp [.pushAtomValue a]) pos 1 [out, inp] 1)
      (freeAtom (freeAtom t' inp) inp) := by
  obtain ⟨ts, hts, hline⟩ := stringScript_tokens T data hread
  have htokens : stringTokens data ++ [.eof] = declarationTokens ++
      [.string (ch '"') (data.flatMap escapeUnits), .char (ch ';'), .eof] := by
    simp [stringTokens]
  have hfirst : ∀ s, Ready s [.char (ch '='), .string (ch '"') (data.flatMap escapeUnits),
      .char (ch ';'), .eof] → Parses s.nextToken s [] s.atoms
        [.string (ch '"') (data.flatMap escapeUnits), .char (ch ';'), .eof] := by
    intro s hs
    refine ⟨⟨_, _, 1, 0, 1, s.fd, s.freeToken⟩, ?_, ⟨rfl, rfl⟩, FunctionDef.Grows.refl s.fd,
      freeToken_of_isPlain hs.token rfl⟩
    rw [ParseState.nextToken, hs.rest, hs.tokenLine]
    exact if_pos hlen
  have hvalue : ∀ s, Ready s [.string (ch '"') (data.flatMap escapeUnits), .char (ch ';'), .eof] →
      s.fd.lastOpcodeLineNum = 1 → s.fd.scopeLevel = 1 → s.atoms = valueAtoms t inp →
      Parses (parseAssignExpr 6 s) s [.pushAtomValue a] t' [.char (ch ';'), .eof] := by
    intro s hready hopcode _ hatoms
    exact stringValue_parses hready hopcode rfl (by rw [hatoms]; exact hnew) ha
  obtain ⟨s₀, s', pos, hok₀, hok', hfd, hatoms⟩ := program_parses hn.names hfirst hvalue
  rw [← htokens] at hok₀
  exact ⟨pos, _, s₀, s', scriptTokens_onLine hts hline, hok₀, hok', hfd, hatoms⟩

/-- **The function of the binary script**, with what compiling leaves of the atom table. -/
theorem compileScript_binary (h : Fresh w) (hn : Named w filename out inp t)
    (hread : Reads m 0 (script false data ++ [0])) (hlen : data.length ≤ maxDelivered) :
    ∃ n, compileScript (globalConfig T) noneName m (script false data).length w.atoms =
      .ok (⟨atomEval, filename, finalCode out inp (binaryFinal data), [atomRet], [], n⟩,
        compiledAtoms (dupAtom t inp) out inp) := by
  have hlen' : data.length ≤ 0x7fffffff := hlen.trans (by decide)
  obtain ⟨pos, hparses⟩ := binaryScript_parses (T := T) h hn hread hlen'
  obtain ⟨n, hcreate⟩ := createFunction_binary filename out pos (hn.inp_ne_ret h) hlen (dupAtom t inp)
  exact ⟨n, hparses.compileScript.trans hcreate⟩

end Compile

end Host
end FuzzerJs
