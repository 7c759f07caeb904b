import FuzzerJs.Engine.ParserText
import FuzzerJs.Host.Script

/-!
# The code of the generated script

What the parser emits for the script of `JS::Run`.  The array literal of binary mode is
where its two strategies meet: the first 32 elements are pushed on the stack, and each
of the others is stored with an instruction of its own.

* `array_parses`: the array literal, for an input of any length.
* `program_parses`: the two declarations, with an initial value of any kind.
-/

namespace FuzzerJs
namespace Host

open Engine Scan

/-! ## The array literal -/

/-- The elements that are created on the stack. -/
def stackCode (data : List UInt8) : List Instr := data.map fun b => .pushI32 b.toNat

/-- The elements that are stored at explicit indices, from `idx` on. -/
def fieldCode : ℕ → List UInt8 → List Instr
  | _, [] => []
  | idx, b :: rest =>
    .pushI32 b.toNat :: .defineField (atomFromUInt32 idx) :: fieldCode (idx + 1) rest

/-- The code of the array literal. -/
def arrayCode (data : List UInt8) : List Instr :=
  stackCode (data.take 32) ++ [Instr.arrayFrom (min data.length 32)] ++ fieldCode 32 (data.drop 32)

/-- The array literal with what follows it. -/
def closeTokens (data : List UInt8) (vs : List TokenVal) : List TokenVal :=
  elementTokens data ++ .char (ch ']') :: vs

theorem closeTokens_last (b : UInt8) (vs : List TokenVal) :
    closeTokens [b] vs = byteToken b :: closeTokens [] vs := rfl

theorem closeTokens_cons {data : List UInt8} (h : data ≠ []) (b : UInt8) (vs : List TokenVal) :
    closeTokens (b :: data) vs = byteToken b :: .char (ch ',') :: closeTokens data vs := by
  rw [closeTokens, elementTokens, if_neg h]
  rfl

theorem closeTokens_plain (data : List UInt8) (vs : List TokenVal) :
    ∃ v vs', closeTokens data vs = v :: vs' ∧ isPlain v = true := by
  cases data with
  | nil => exact ⟨_, _, rfl, rfl⟩
  | cons b data =>
      rw [closeTokens, elementTokens]
      split
      · exact ⟨_, _, rfl, rfl⟩
      · exact ⟨_, _, rfl, rfl⟩

section Array

variable {s : ParseState} {vs : List TokenVal} {fuel : ℕ}

theorem comma_parses {data : List UInt8} (h : Ready s (.char (ch ',') :: closeTokens data vs)) :
    Parses s.nextToken s [] s.atoms (closeTokens data vs) := by
  obtain ⟨v, vs', heq, hv⟩ := closeTokens_plain data vs
  rw [heq] at h ⊢
  exact h.nextToken_plain rfl hv

/-- One element: behind it is the closing bracket or a comma. -/
theorem element_parses (fuel : ℕ) {b : UInt8} {data : List UInt8}
    (h : Ready s (closeTokens (b :: data) vs)) (hline : s.fd.lastOpcodeLineNum = 1) :
    s.token = byteToken b ∧
    ∃ s', parseAssignExpr (fuel + 2) s = .ok s' ∧ s.fd.Grows [.pushI32 b.toNat] s'.fd ∧
      s'.atoms = s.atoms ∧
      ((s'.token = .char (ch ']') ∧ Ready s' (closeTokens data vs)) ∨
        (s'.token = .char (ch ',') ∧ Ready s' (.char (ch ',') :: closeTokens data vs))) := by
  by_cases hdata : data = []
  · subst hdata
    rw [closeTokens_last] at h
    obtain ⟨s', hok, hready, hgrows, hatoms⟩ := h.number hline (decimalText_toInt32 b) rfl
    exact ⟨h.token, s', hok, hgrows, hatoms, Or.inl ⟨hready.token, hready⟩⟩
  · rw [closeTokens_cons hdata] at h
    obtain ⟨s', hok, hready, hgrows, hatoms⟩ := h.number hline (decimalText_toInt32 b) rfl
    exact ⟨h.token, s', hok, hgrows, hatoms, Or.inr ⟨hready.token, hready⟩⟩

/-- One round of the first loop. -/
theorem arrayStack_step (fuel : ℕ) {b : UInt8} {data : List UInt8} {idx : ℕ} (hidx : idx < 32)
    (h : Ready s (closeTokens (b :: data) vs)) (hline : s.fd.lastOpcodeLineNum = 1) :
    ∃ s', parseArrayStack (fuel + 3) idx s = parseArrayStack (fuel + 2) (idx + 1) s' ∧
      Ready s' (closeTokens data vs) ∧ s.fd.Grows [.pushI32 b.toNat] s'.fd ∧
      s'.atoms = s.atoms := by
  obtain ⟨htoken, s₁, hok, hgrows, hatoms, hnext⟩ := element_parses fuel h hline
  rw [parseArrayStack, htoken, if_neg (by simp [byteToken]; omega), if_neg (by simp [byteToken]),
    hok, Eval.ok_bind]
  rcases hnext with ⟨hclose, hready⟩ | ⟨hcomma, hready⟩
  · refine ⟨s₁, ?_, hready, hgrows, hatoms⟩
    rw [hclose, if_neg (by decide), if_pos rfl]
  · obtain ⟨s', hnext, hready', hgrows', hatoms'⟩ := comma_parses hready
    refine ⟨s', ?_, hready', by simpa using hgrows.trans hgrows', hatoms'.trans hatoms⟩
    rw [hcomma, if_pos rfl, hnext, Eval.ok_bind]

/-- The first loop: it stops at the closing bracket or behind the element 31. -/
theorem arrayStack_parses (data : List UInt8) :
    ∀ (idx fuel : ℕ) {s : ParseState}, idx ≤ 32 → data.length + 3 ≤ fuel →
      Ready s (closeTokens data vs) → s.fd.lastOpcodeLineNum = 1 →
      ∃ s', parseArrayStack fuel idx s = .ok (idx + min data.length (32 - idx), s') ∧
        Ready s' (closeTokens (data.drop (32 - idx)) vs) ∧
        s.fd.Grows (stackCode (data.take (32 - idx))) s'.fd ∧ s'.atoms = s.atoms := by
  induction data with
  | nil =>
      intro idx fuel s hidx hfuel hready hline
      obtain ⟨fuel, rfl⟩ : ∃ f, fuel = f + 1 := ⟨fuel - 1, by omega⟩
      refine ⟨s, ?_, by simpa using hready, by simpa [stackCode] using FunctionDef.Grows.refl s.fd,
        rfl⟩
      rw [parseArrayStack, if_pos (Or.inl hready.token), List.length_nil, Nat.zero_min]
      rfl
  | cons b data ih =>
      intro idx fuel s hidx hfuel hready hline
      rw [List.length_cons] at hfuel
      obtain ⟨fuel, rfl⟩ : ∃ f, fuel = f + 3 := ⟨fuel - 3, by omega⟩
      rcases hidx.eq_or_lt with rfl | hlt
      · refine ⟨s, ?_, by simpa using hready,
          by simpa [stackCode] using FunctionDef.Grows.refl s.fd, rfl⟩
        rw [parseArrayStack, if_pos (Or.inr le_rfl), Nat.sub_self, Nat.min_zero]
      · obtain ⟨k, hk⟩ : ∃ k, 32 - idx = k + 1 := ⟨32 - idx - 1, by omega⟩
        have hk' : 32 - (idx + 1) = k := by omega
        have hmin : idx + min (data.length + 1) (k + 1) = idx + 1 + min data.length k := by omega
        rw [hk, List.take_succ_cons, List.drop_succ_cons, List.length_cons, hmin, ← hk']
        obtain ⟨s₁, hgo, hready₁, hgrows₁, hatoms₁⟩ := arrayStack_step fuel hlt hready hline
        obtain ⟨s₂, hok, hready₂, hgrows₂, hatoms₂⟩ :=
          ih (idx + 1) (fuel + 2) (Nat.succ_le_of_lt hlt) (by omega) hready₁ (hgrows₁.line.trans hline)
        exact ⟨s₂, hgo.trans hok, hready₂, hgrows₁.trans hgrows₂, hatoms₂.trans hatoms₁⟩

/-- One round of the second loop. -/
theorem arrayFields_step (fuel : ℕ) {b : UInt8} {data : List UInt8} {idx : ℕ} (hidx : idx < 0x7fffffff)
    (h : Ready s (closeTokens (b :: data) vs)) (hline : s.fd.lastOpcodeLineNum = 1) :
    ∃ s', parseArrayFields (fuel + 3) idx false s =
        parseArrayFields (fuel + 2) (idx + 1) false s' ∧
      Ready s' (closeTokens data vs) ∧
      s.fd.Grows [.pushI32 b.toNat, .defineField (atomFromUInt32 idx)] s'.fd ∧
      s'.atoms = s.atoms := by
  obtain ⟨htoken, s₁, hok, hgrows, hatoms, hnext⟩ := element_parses fuel h hline
  rw [parseArrayFields, htoken, if_neg (by simp [byteToken]; omega), if_neg (by simp [byteToken]),
    if_neg (by simp [byteToken]), hok, Eval.ok_bind]
  have hgrows' := hgrows.trans (emit_grows (hnext.elim (·.2.lastLineNum) (·.2.lastLineNum))
    (hgrows.line.trans hline) (.defineField (atomFromUInt32 idx)))
  rcases hnext with ⟨hclose, hready⟩ | ⟨hcomma, hready⟩
  · refine ⟨s₁.emit (.defineField (atomFromUInt32 idx)), ?_, hready.emit _, hgrows', hatoms⟩
    exact if_neg (by rw [emit_token, hclose]; decide)
  · obtain ⟨s', hnext, hready', hgrows'', hatoms'⟩ :=
      comma_parses (hready.emit (.defineField (atomFromUInt32 idx)))
    refine ⟨s', ?_, hready', by simpa using hgrows'.trans hgrows'', hatoms'.trans hatoms⟩
    refine (if_pos (by rw [emit_token, hcomma])).trans ?_
    rw [hnext, Eval.ok_bind]

/-- The second loop: the rest of the elements, without a hole. -/
theorem arrayFields_parses (data : List UInt8) :
    ∀ (idx fuel : ℕ) {s : ParseState}, idx + data.length ≤ 0x7fffffff → data.length + 3 ≤ fuel →
      Ready s (closeTokens data vs) → s.fd.lastOpcodeLineNum = 1 →
      ∃ s', parseArrayFields fuel idx false s = .ok (idx + data.length, false, s') ∧
        Ready s' (closeTokens [] vs) ∧ s.fd.Grows (fieldCode idx data) s'.fd ∧
        s'.atoms = s.atoms := by
  induction data with
  | nil =>
      intro idx fuel s hidx hfuel hready hline
      obtain ⟨fuel, rfl⟩ : ∃ f, fuel = f + 1 := ⟨fuel - 1, by omega⟩
      refine ⟨s, ?_, hready, FunctionDef.Grows.refl s.fd, rfl⟩
      rw [parseArrayFields, if_pos (Or.inl hready.token)]
      rfl
  | cons b data ih =>
      intro idx fuel s hidx hfuel hready hline
      rw [List.length_cons] at hidx hfuel
      obtain ⟨fuel, rfl⟩ : ∃ f, fuel = f + 3 := ⟨fuel - 3, by omega⟩
      obtain ⟨s₁, hgo, hready₁, hgrows₁, hatoms₁⟩ :=
        arrayFields_step fuel (show idx < 0x7fffffff by omega) hready hline
      obtain ⟨s₂, hok, hready₂, hgrows₂, hatoms₂⟩ :=
        ih (idx + 1) (fuel + 2) (by omega) (by omega) hready₁
          (hgrows₁.line.trans hline)
      refine ⟨s₂, ?_, hready₂, hgrows₁.trans hgrows₂, hatoms₂.trans hatoms₁⟩
      rw [hgo, hok, List.length_cons, Nat.add_right_comm, Nat.add_assoc]

/-- The look-ahead over the elements finds the token behind the closing bracket. -/
theorem skipParens_elements (data : List UInt8) (v : TokenVal) :
    skipParens [ch '['] ((closeTokens data (v :: vs)).map (·, 1)) = some v := by
  induction data with
  | nil => rfl
  | cons b data ih =>
      by_cases hdata : data = []
      · subst hdata
        rfl
      · rw [closeTokens_cons hdata]
        exact ih

/-- The second loop starts at 32, or has nothing to do. -/
theorem fieldCode_min (data : List UInt8) :
    fieldCode (min data.length 32) (data.drop 32) = fieldCode 32 (data.drop 32) := by
  by_cases h : data.length ≤ 32
  · rw [List.drop_eq_nil_of_le h]
    rfl
  · rw [min_eq_right (by omega)]

/-- **The array literal**, for an input of any length. -/
theorem array_parses {data : List UInt8} {v : TokenVal} (hlen : data.length ≤ 0x7fffffff)
    (hfuel : data.length + 3 ≤ fuel)
    (h : Ready s (.char (ch '[') :: closeTokens data (v :: vs)))
    (hline : s.fd.lastOpcodeLineNum = 1) (hv : endsExpr v = true) :
    Parses (parseAssignExpr (fuel + 3) s) s (arrayCode data) s.atoms (v :: vs) := by
  refine Parses.assignExpr ?_ hv
  have hassign : v ≠ .char (ch '=') := by rintro rfl; exact absurd hv (by decide)
  have hskip : skipParens [] ((s.token, s.tokenLine) :: s.rest) = some v := by
    rw [h.tokens]
    exact skipParens_elements data v
  rw [parsePostfixExpr, h.token]
  simp only [if_true]
  rw [← h.token, hskip]
  simp only [if_neg hassign]
  obtain ⟨v₀, vs₀, heq, hv₀⟩ := closeTokens_plain data (v :: vs)
  rw [heq] at h
  rw [parseArrayLiteral]
  refine Parses.bind_nil (h.nextToken_plain rfl hv₀) fun s₁ h₁ hline₁ _ hatoms₁ => ?_
  rw [← heq] at h₁
  replace hline₁ := hline₁.trans hline
  obtain ⟨s₂, hok₂, h₂, hgrows₂, hatoms₂⟩ :=
    arrayStack_parses data 0 fuel (Nat.zero_le 32) hfuel h₁ hline₁
  rw [Nat.zero_add, Nat.sub_zero] at hok₂
  have hgrows₃ := hgrows₂.trans
    (emit_grows h₂.lastLineNum (hgrows₂.line.trans hline₁) (.arrayFrom (min data.length 32)))
  obtain ⟨s₄, hok₄, h₄, hgrows₄, hatoms₄⟩ :=
    arrayFields_parses (data.drop 32) (min data.length 32) fuel
      (by rw [List.length_drop]; omega) (by rw [List.length_drop]; omega) (h₂.emit _)
      (hgrows₃.line.trans hline₁)
  rw [fieldCode_min] at hgrows₄
  rw [hok₂, Eval.ok_bind]
  simp only
  rw [hok₄, Eval.ok_bind]
  simp only [Bool.false_eq_true, if_false]
  rw [if_pos h₄.token, ParseState.expect, if_pos h₄.token]
  have hend := Parses.after_nil (hgrows₃.trans hgrows₄)
    (h₄.nextToken_plain rfl (isPlain_of_endsExpr hv))
  rwa [hatoms₄, emit_atoms, hatoms₂, hatoms₁] at hend

/-- The second loop gives up at the largest index. -/
theorem arrayFields_stops (data : List UInt8) :
    ∀ (idx fuel : ℕ) {s : ParseState}, idx ≤ 0x7fffffff → 0x7fffffff < idx + data.length →
      data.length + 3 ≤ fuel → Ready s (closeTokens data vs) → s.fd.lastOpcodeLineNum = 1 →
      ∃ r s', parseArrayFields fuel idx false s = .ok (r, false, s') ∧
        s'.token ≠ .char (ch ']') := by
  induction data with
  | nil =>
      intro idx fuel s hidx hlong
      exact absurd hlong (not_lt.mpr hidx)
  | cons b data ih =>
      intro idx fuel s hidx hlong hfuel hready hline
      rw [List.length_cons] at hlong hfuel
      obtain ⟨fuel, rfl⟩ : ∃ f, fuel = f + 3 := ⟨fuel - 3, by omega⟩
      rcases hidx.eq_or_lt with rfl | hlt
      · obtain ⟨htoken, -⟩ := element_parses fuel hready hline
        refine ⟨0x7fffffff, s, ?_, by rw [htoken]; simp [byteToken]⟩
        rw [parseArrayFields, if_pos (Or.inr le_rfl)]
      · obtain ⟨s₁, hgo, hready₁, hgrows₁, -⟩ := arrayFields_step fuel hlt hready hline
        rw [hgo]
        exact ih (idx + 1) (fuel + 2) hlt (by omega) (by omega) hready₁ (hgrows₁.line.trans hline)

/-- A literal with more elements needs an index on the stack, which is not modelled. -/
theorem array_fails {data : List UInt8} {v : TokenVal} (hlen : 0x7fffffff < data.length)
    (hfuel : data.length + 3 ≤ fuel)
    (h : Ready s (.char (ch '[') :: closeTokens data (v :: vs)))
    (hline : s.fd.lastOpcodeLineNum = 1) : (parseAssignExpr (fuel + 3) s).Fails := by
  have hskip : skipParens [] ((s.token, s.tokenLine) :: s.rest) = some v := by
    rw [h.tokens]
    exact skipParens_elements data v
  rw [parseAssignExpr]
  refine Eval.Fails.bind ?_ _
  rw [parsePostfixExpr, h.token]
  simp only [if_true]
  rw [← h.token, hskip]
  simp only
  split
  · exact Eval.outside_fails
  · obtain ⟨v₀, vs₀, heq, hv₀⟩ := closeTokens_plain data (v :: vs)
    rw [heq] at h
    obtain ⟨s₁, hok₁, h₁, hgrows₁, -⟩ := h.nextToken_plain rfl hv₀
    rw [← heq] at h₁
    have hline₁ := hgrows₁.line.trans hline
    obtain ⟨s₂, hok₂, h₂, hgrows₂, -⟩ :=
      arrayStack_parses data 0 fuel (Nat.zero_le 32) hfuel h₁ hline₁
    have hgrows₃ := hgrows₂.trans
      (emit_grows h₂.lastLineNum (hgrows₂.line.trans hline₁) (.arrayFrom (0 + min data.length 32)))
    obtain ⟨idx, s₃, hok₃, htoken₃⟩ := arrayFields_stops (data.drop 32) (0 + min data.length 32) fuel
      (by omega) (by rw [List.length_drop]; omega) (by rw [List.length_drop]; omega) (h₂.emit _)
      (hgrows₃.line.trans hline₁)
    rw [parseArrayLiteral, hok₁, Eval.ok_bind, hok₂, Eval.ok_bind]
    simp only
    rw [hok₃, Eval.ok_bind]
    simp only
    rw [if_neg htoken₃]
    exact Eval.outside_fails

/-! ## The initial value -/

/-- The code of the initial value in binary mode. -/
def binaryCode (scope : ℕ) (data : List UInt8) : List Instr :=
  [Instr.scopeGetVar atomUint8Array scope] ++
    ([Instr.dup] ++ arrayCode data ++ [Instr.callConstructor 1])

/-- The tokens of the initial value in binary mode, with what follows. -/
def binaryValueTokens (data : List UInt8) (vs : List TokenVal) : List TokenVal :=
  .keyword 12 :: .ident (asciiBytes "Uint8Array") false false :: .char (ch '(') :: .char (ch '[') ::
    closeTokens data (.char (ch ')') :: vs)

/-- The arguments of the constructor. -/
theorem arguments_parse {data : List UInt8} (hlen : data.length ≤ 0x7fffffff)
    (hfuel : data.length + 3 ≤ fuel)
    (h : Ready s (.char (ch '[') :: closeTokens data (.char (ch ')') :: vs)))
    (hline : s.fd.lastOpcodeLineNum = 1) :
    ∃ s', parseArguments (fuel + 4) 0 s = .ok (1, s') ∧ Ready s' (.char (ch ')') :: vs) ∧
      s.fd.Grows (arrayCode data) s'.fd ∧ s'.atoms = s.atoms := by
  obtain ⟨s', hok, h', hgrows, hatoms⟩ := array_parses hlen hfuel h hline rfl
  refine ⟨s', ?_, h', hgrows, hatoms⟩
  rw [parseArguments, h.token, if_neg (by decide), if_neg (by decide), if_neg (by decide), hok,
    Eval.ok_bind, if_pos h'.token]

/-- The call of the constructor, from the opening parenthesis on. -/
theorem constructorCall_parses {data : List UInt8} {v : TokenVal}
    (hlen : data.length ≤ 0x7fffffff) (hfuel : data.length + 3 ≤ fuel)
    (h : Ready s (.char (ch '(') :: .char (ch '[') :: closeTokens data (.char (ch ')') :: v :: vs)))
    (hline : s.fd.lastOpcodeLineNum = 1) (hv : endsExpr v = true) :
    Parses (do
      let s ← s.nextToken
      let (argc, s) ← parseArguments (fuel + 4) 0 (s.emit .dup)
      let s ← s.nextToken
      return s.emit (.callConstructor argc)) s
      ([Instr.dup] ++ arrayCode data ++ [Instr.callConstructor 1]) s.atoms (v :: vs) := by
  refine Parses.bind_nil (h.nextToken_plain rfl rfl) fun s₁ h₁ hline₁ _ hatoms₁ => ?_
  have hgrows := emit_grows h₁.lastLineNum (hline₁.trans hline) .dup
  obtain ⟨s₂, hok₂, h₂, hgrows₂, hatoms₂⟩ :=
    arguments_parse hlen hfuel (h₁.emit .dup) (hgrows.line.trans (hline₁.trans hline))
  rw [hok₂, Eval.ok_bind]
  refine Parses.after (hgrows.trans hgrows₂) ?_
  refine Parses.bind_nil (h₂.nextToken_plain rfl (isPlain_of_endsExpr hv))
    fun s₃ h₃ hline₃ _ hatoms₃ => ?_
  have hend := h₃.parses_emit (hline₃.trans ((hgrows.trans hgrows₂).line.trans
    (hline₁.trans hline))) (.callConstructor 1)
  rwa [hatoms₃, hatoms₂, emit_atoms, hatoms₁] at hend

/-- **The initial value in binary mode.** -/
theorem binaryValue_parses {data : List UInt8} {v : TokenVal} (hlen : data.length ≤ 0x7fffffff)
    (hfuel : data.length + 3 ≤ fuel) (h : Ready s (binaryValueTokens data (v :: vs)))
    (hline : s.fd.lastOpcodeLineNum = 1) (hv : endsExpr v = true)
    (hatom : IsAtom s.atoms atomUint8Array (nameUnits (asciiBytes "Uint8Array"))) :
    Parses (parseAssignExpr (fuel + 6) s) s (binaryCode s.fd.scopeLevel data) s.atoms
      (v :: vs) := by
  refine Parses.assignExpr ?_ hv
  obtain ⟨s₁, hok₁, h₁, hfd₁, hatoms₁, htoken₁⟩ :=
    h.nextToken_const rfl (by decide) (by decide) hatom (by decide)
  rw [parsePostfixExpr, h.token]
  simp only [if_true]
  rw [hok₁, Eval.ok_bind, h₁.token]
  simp only
  have hname := h₁.name (by rw [hfd₁, hline]) rfl
  rw [htoken₁, hfd₁, hatoms₁] at hname
  refine Parses.bind (hname.congr_fd hfd₁) fun s₂ h₂ hline₂ _ hatoms₂ => ?_
  rw [if_pos h₂.token, ← hatoms₂]
  exact constructorCall_parses hlen hfuel h₂ (hline₂.trans hline) hv

/-- A literal that is too long stops everything around it. -/
theorem binaryValue_fails {data : List UInt8} (hlen : 0x7fffffff < data.length)
    (hfuel : data.length + 3 ≤ fuel) (h : Ready s (binaryValueTokens data vs))
    (hline : s.fd.lastOpcodeLineNum = 1)
    (hatom : IsAtom s.atoms atomUint8Array (nameUnits (asciiBytes "Uint8Array"))) :
    (parseAssignExpr (fuel + 6) s).Fails := by
  obtain ⟨s₁, hok₁, h₁, hfd₁, -⟩ := h.nextToken_const rfl (by decide) (by decide) hatom (by decide)
  obtain ⟨s₂, hok₂, h₂, hgrows₂, -⟩ := h₁.name (by rw [hfd₁, hline]) rfl
  have hline₂ : s₂.fd.lastOpcodeLineNum = 1 := hgrows₂.line.trans (by rw [hfd₁, hline])
  obtain ⟨s₃, hok₃, h₃, hgrows₃, -⟩ := h₂.nextToken_plain rfl rfl
  have hline₃ := hgrows₃.line.trans hline₂
  have hline₄ := (emit_grows h₃.lastLineNum hline₃ .dup).line.trans hline₃
  have harray := array_fails hlen hfuel (h₃.emit .dup) hline₄
  rw [parseAssignExpr]
  refine Eval.Fails.bind ?_ _
  rw [parsePostfixExpr, h.token]
  simp only [if_true]
  rw [hok₁, Eval.ok_bind, h₁.token]
  simp only
  rw [hok₂, Eval.ok_bind, if_pos h₂.token, hok₃, Eval.ok_bind]
  refine Eval.Fails.bind ?_ _
  rw [parseArguments, (h₃.emit .dup).token, if_neg (by decide), if_neg (by decide),
    if_neg (by decide)]
  exact harray.bind _

/-- The initial value in string mode, as an atom.  Its text is not a number. -/
theorem stringValue_parses {units : List UInt16} {a : JSAtom} {t : AtomTable} {v : TokenVal}
    {sep : UInt8} (h : Ready s (.string sep units :: v :: vs)) (hline : s.fd.lastOpcodeLineNum = 1)
    (hv : endsExpr v = true) (hnew : newAtomStr s.atoms units = some (a, t))
    (ha : atomIsTaggedInt a = false) :
    Parses (parseAssignExpr (fuel + 2) s) s [.pushAtomValue a] t (v :: vs) := by
  refine Parses.assignExpr ?_ hv
  let s₁ : ParseState := { s with atoms := t }
  have h₁ : Ready s₁ (.string sep units :: v :: vs) := ⟨h.tokens, h.lastLineNum⟩
  have hpush : s.emitPushString units = .ok (s₁.emit (.pushAtomValue a)) := by
    rw [ParseState.emitPushString, hnew]
    simp only [ha, Bool.not_false, if_true]
    rfl
  rw [parsePostfixExpr, h.token]
  simp only
  rw [hpush, Eval.ok_bind]
  have hnext := (h₁.emit (.pushAtomValue a)).nextToken (isPlain_of_endsExpr hv)
  have hfree : (s₁.emit (.pushAtomValue a)).freeToken = t := by
    rw [ParseState.freeToken, emit_token, h₁.token]
    rfl
  rw [hfree] at hnext
  exact (Parses.after_nil (emit_grows h₁.lastLineNum hline _) hnext).congr_fd rfl

end Array

/-! ## The program -/

/-- The function that is under construction for the script. -/
def scriptDef (filename : JSAtom) (code : List Instr) (pos : Option ℕ) (line : ℕ)
    (hoisted : List JSAtom) (labels : ℕ) : FunctionDef :=
  ⟨atomEval, filename, code, pos, line, 1, [atomRet], hoisted, labels, []⟩

/-- The code of the script, with the code of the initial value in it. -/
def programCode (fuzzerInput : JSAtom) (value : List Instr) : List Instr :=
  [Instr.lineNum 0, Instr.enterScope 1, Instr.lineNum 1, Instr.scopeMakeRef fuzzerInput 0 1] ++
    value ++ [Instr.label 0, Instr.insert3, Instr.putRefValue, Instr.drop, Instr.getLoc 0, Instr.ret]

/-- The table when the initial value is parsed: there are new references to the name for the
declaration, for the reference to the variable and for the parser. -/
def valueAtoms (t : AtomTable) (fuzzerInput : JSAtom) : AtomTable :=
  dupAtom (dupAtom (dupAtom t fuzzerInput) fuzzerInput) fuzzerInput

theorem scriptDef_grows {filename : JSAtom} {code code' : List Instr} {pos : Option ℕ} {line : ℕ}
    {hoisted : List JSAtom} {labels : ℕ} {fd : FunctionDef}
    (h : (scriptDef filename code pos line hoisted labels).Grows code' fd) :
    fd = scriptDef filename (code ++ code') fd.lastOpcodePos line hoisted labels := h

section Program

variable {s : ParseState} {value : List TokenVal} {code : List Instr} {t t' : AtomTable}
  {a filename : JSAtom} {hoisted : List JSAtom} {pos : Option ℕ} {fuel : ℕ}

/-- The reference to the variable, before its initial value. -/
theorem makeRef_parses {vs : List TokenVal} (h : Ready s vs)
    (hfd : s.fd = scriptDef filename [.lineNum 0, .enterScope 1] pos 0 hoisted 0) :
    ∃ s', ((s.dup a).emit (.scopeGetVar a s.fd.scopeLevel)).getLvalue = .ok (s', a, 0) ∧
      Ready s' vs ∧ s'.fd = scriptDef filename
        [.lineNum 0, .enterScope 1, .lineNum 1, .scopeMakeRef a 0 1] (some 13) 1 hoisted 1 ∧
      s'.atoms = dupAtom (dupAtom s.atoms a) a := by
  refine ⟨{ s with
    fd := scriptDef filename [.lineNum 0, .enterScope 1, .lineNum 1, .scopeMakeRef a 0 1] (some 13) 1
      hoisted 1
    atoms := dupAtom (dupAtom s.atoms a) a }, ?_, ⟨h.tokens, h.lastLineNum⟩, rfl, rfl⟩
  simp [ParseState.dup, ParseState.emit, ParseState.getLvalue, FunctionDef.prevOpcode, hfd,
    h.lastLineNum, scriptDef, Instr.size]

/-- The assignment behind the initial value. -/
theorem putLvalue_parses {vs : List TokenVal} (h : Ready s vs)
    (hline : s.fd.lastOpcodeLineNum = 1) :
    Parses (.ok ((s.putLvalue a 0).emit .drop)) s [.label 0, .insert3, .putRefValue, .drop]
      (freeAtom s.atoms a) vs := by
  have hfree : Ready (s.free a) vs := ⟨h.tokens, h.lastLineNum⟩
  exact Ready.parses_emits [.label 0, .insert3, .putRefValue, .drop] hfree hline

/-- The initial value of `FuzzerInput`, up to the expression. -/
theorem initializer_start (fuel : ℕ) (ht : s.atoms = dupAtom t a)
    (hfd : s.fd = scriptDef filename [.lineNum 0, .enterScope 1] pos 0 hoisted 0)
    (hfirst : Parses s.nextToken s [] s.atoms value) :
    ∃ s', parseInitializer fuel a s =
        (parseAssignExpr fuel s' >>= fun s => .ok ((s.putLvalue a 0).emit .drop)) ∧
      Ready s' value ∧ s'.fd = scriptDef filename
        [.lineNum 0, .enterScope 1, .lineNum 1, .scopeMakeRef a 0 1] (some 13) 1 hoisted 1 ∧
      s'.atoms = valueAtoms t a := by
  obtain ⟨s₁, hok₁, h₁, hgrows₁, hatoms₁⟩ := hfirst
  rw [hfd] at hgrows₁
  obtain ⟨s₂, hok₂, h₂, hfd₂, hatoms₂⟩ := makeRef_parses (a := a) h₁ (scriptDef_grows hgrows₁)
  rw [hatoms₁, ht] at hatoms₂
  refine ⟨s₂, ?_, h₂, hfd₂, hatoms₂⟩
  rw [parseInitializer, hok₁, Eval.ok_bind, hok₂, Eval.ok_bind]
  rfl

/-- The initial value of `FuzzerInput`, of any kind. -/
theorem initializer_parses (ht : s.atoms = dupAtom t a)
    (hfd : s.fd = scriptDef filename [.lineNum 0, .enterScope 1] pos 0 hoisted 0)
    (hfirst : Parses s.nextToken s [] s.atoms value)
    (hvalue : ∀ s, Ready s value → s.fd.lastOpcodeLineNum = 1 → s.fd.scopeLevel = 1 →
      s.atoms = valueAtoms t a →
      Parses (parseAssignExpr fuel s) s code t' [.char (ch ';'), .eof]) :
    ∃ s' pos', parseInitializer fuel a s = .ok s' ∧ Ready s' [.char (ch ';'), .eof] ∧
      s'.fd = scriptDef filename ([Instr.lineNum 0, Instr.enterScope 1, Instr.lineNum 1,
        Instr.scopeMakeRef a 0 1] ++ code ++ [Instr.label 0, Instr.insert3, Instr.putRefValue,
        Instr.drop]) pos' 1 hoisted 1 ∧
      s'.atoms = freeAtom t' a := by
  obtain ⟨s₂, hstart, h₂, hfd₂, hatoms₂⟩ := initializer_start fuel ht hfd hfirst
  obtain ⟨s₃, hok₃, h₃, hgrows₃, hatoms₃⟩ := hvalue s₂ h₂ (by rw [hfd₂]; rfl) (by rw [hfd₂]; rfl)
    hatoms₂
  rw [hfd₂] at hgrows₃
  obtain ⟨s₄, hok₄, h₄, hgrows₄, hatoms₄⟩ := putLvalue_parses (a := a) h₃ hgrows₃.line
  refine ⟨s₄, s₄.fd.lastOpcodePos, ?_, h₄, ?_, by rw [hatoms₄, hatoms₃]⟩
  · rw [hstart, hok₃, Eval.ok_bind, hok₄]
  · rw [List.append_assoc]
    exact scriptDef_grows (hgrows₃.trans hgrows₄)

/-- The declaration of `FuzzerInput`, up to the equals sign. -/
theorem inputVar_start (fuel : ℕ) {name : List UInt8}
    (h : Ready s (.ident name false false :: .char (ch '=') :: value)) (ha : s.tokenAtom = a)
    (ht : s.atoms = t)
    (hfd : s.fd = scriptDef filename [.lineNum 0, .enterScope 1] pos 0 hoisted 0) :
    ∃ s' f, parseVar (fuel + 1) s = (parseInitializer fuel a s' >>= f) ∧
      (∀ s, s.token = .char (ch ';') → f s = .ok (s.free a)) ∧
      Ready s' (.char (ch '=') :: value) ∧ s'.atoms = dupAtom t a ∧
      s'.fd = scriptDef filename [.lineNum 0, .enterScope 1] pos 0 (hoisted ++ [a]) 0 := by
  subst ha ht
  refine ⟨⟨value.map (·, 1), .char (ch '='), 1, 0, 1,
    { s.fd with hoistedDefs := s.fd.hoistedDefs ++ [s.tokenAtom] }, dupAtom s.atoms s.tokenAtom⟩,
    fun s₁ => if s₁.token = .char (ch ',') then (s₁.free s.tokenAtom).nextToken >>= parseVar fuel
      else .ok (s₁.free s.tokenAtom), ?_, ?_, ⟨rfl, rfl⟩, rfl, by simp only [hfd]; rfl⟩
  · rw [parseVar, h.token]
    simp only [Bool.false_eq_true, if_false]
    rw [h.nextToken_dup_eq rfl, Eval.ok_bind]
    simp only [ParseState.defineVar, ParseState.dup, if_true]
    rfl
  · intro s₁ hs₁
    exact if_neg (by rw [hs₁]; decide)

/-- The declaration of `FuzzerInput`. -/
theorem inputVar_parses {name : List UInt8}
    (h : Ready s (.ident name false false :: .char (ch '=') :: value)) (ha : s.tokenAtom = a)
    (ht : s.atoms = t)
    (hfd : s.fd = scriptDef filename [.lineNum 0, .enterScope 1] pos 0 hoisted 0)
    (hfirst : ∀ s, Ready s (.char (ch '=') :: value) → Parses s.nextToken s [] s.atoms value)
    (hvalue : ∀ s, Ready s value → s.fd.lastOpcodeLineNum = 1 → s.fd.scopeLevel = 1 →
      s.atoms = valueAtoms t a →
      Parses (parseAssignExpr fuel s) s code t' [.char (ch ';'), .eof]) :
    ∃ s' pos', parseVar (fuel + 1) s = .ok s' ∧ Ready s' [.char (ch ';'), .eof] ∧
      s'.fd = scriptDef filename ([Instr.lineNum 0, Instr.enterScope 1, Instr.lineNum 1,
        Instr.scopeMakeRef a 0 1] ++ code ++ [Instr.label 0, Instr.insert3, Instr.putRefValue,
        Instr.drop]) pos' 1 (hoisted ++ [a]) 1 ∧
      s'.atoms = freeAtom (freeAtom t' a) a := by
  obtain ⟨s₁, f, hstart, hend, h₁, hatoms₁, hfd₁⟩ := inputVar_start fuel h ha ht hfd
  obtain ⟨s₂, pos₂, hok₂, h₂, hfd₂, hatoms₂⟩ :=
    initializer_parses hatoms₁ hfd₁ (hfirst s₁ h₁) hvalue
  refine ⟨s₂.free a, pos₂, ?_, ⟨h₂.tokens, h₂.lastLineNum⟩, hfd₂, congrArg (freeAtom · a) hatoms₂⟩
  rw [hstart, hok₂, Eval.ok_bind, hend s₂ h₂.token]

/-- The atoms of the three names in the script, in the order in which they are looked up or
made. -/
def ScriptNames (t : AtomTable) (filename fuzzerOutput fuzzerInput : JSAtom) (t' : AtomTable) :
    Prop :=
  ∃ t₁ t₂, newAtomStr t (nameUnits (asciiBytes "<none>")) = some (filename, t₁) ∧
    newAtomStr t₁ (nameUnits (asciiBytes "FuzzerOutput")) = some (fuzzerOutput, t₂) ∧
    newAtomStr t₂ (nameUnits (asciiBytes "FuzzerInput")) = some (fuzzerInput, t')

/-- The script, up to the second declaration. -/
theorem program_start {t₀ : AtomTable} {fuzzerOutput : JSAtom}
    (hnames : ScriptNames t₀ filename fuzzerOutput a t) :
    ∃ s₀ s₁ s₂, initialState t₀ (nameUnits (asciiBytes "<none>"))
        ((declarationTokens ++ value).map (·, 1)) = .ok s₀ ∧
      parseProgram (fuel + 3) s₀ = (parseSourceElements (fuel + 2) s₁ >>= fun s =>
        .ok ((s.emit (.getLoc 0)).emit .ret)) ∧
      Ready s₁ (.keyword 7 :: .ident (asciiBytes "FuzzerInput") false false :: .char (ch '=') ::
        value) ∧
      s₁.nextToken = .ok s₂ ∧
      Ready s₂ (.ident (asciiBytes "FuzzerInput") false false :: .char (ch '=') :: value) ∧
      s₂.fd = scriptDef filename [.lineNum 0, .enterScope 1] (some 5) 0 [fuzzerOutput] 0 ∧
      s₂.tokenAtom = a ∧ s₂.atoms = t := by
  obtain ⟨t₁, t₂, hfile, hout, hin⟩ := hnames
  let s₁ : ParseState := ⟨(declarationTokens.tail ++ value).map (·, 1), .keyword 7, 1, 0, 1,
    scriptDef filename [.lineNum 0, .enterScope 1] (some 5) 0 [] 0, t₁⟩
  have h₁ : Ready s₁ (declarationTokens ++ value) := ⟨rfl, rfl⟩
  have hnext₁ := h₁.nextToken_ident rfl (by decide) hout
  obtain ⟨s₂, hok₂, h₂, hfd₂, hatoms₂⟩ :=
    h₁.sourceElement hnext₁ (Ready.var (fuel + 1) ⟨rfl, rfl⟩) ⟨rfl, rfl⟩ rfl
  replace hatoms₂ : s₂.atoms = t₂ := hatoms₂
  replace hfd₂ : s₂.fd =
      scriptDef filename [.lineNum 0, .enterScope 1] (some 5) 0 [fuzzerOutput] 0 := hfd₂
  rw [← hatoms₂] at hin
  have hnext₂ := h₂.nextToken_ident rfl (by decide) hin
  let s₀ := ParseState.pushScope ⟨(declarationTokens ++ value).map (·, 1), .char (ch ' '), 1, 0, 0,
    FunctionDef.new filename, t₁⟩
  have hok₀ : s₀.nextToken = .ok { s₁ with fd := { s₁.fd with vars := [] } } := rfl
  refine ⟨s₀, s₂, _, by rw [initialState, hfile], ?_, h₂, hnext₂, ⟨rfl, rfl⟩, hfd₂, rfl, rfl⟩
  rw [parseProgram, hok₀, Eval.ok_bind]
  change ((parseSourceElements (fuel + 3) s₁) >>= fun s => _) = _
  rw [hok₂]
  rfl

/-- **The script**, for an initial value of any kind. -/
theorem program_parses {t₀ : AtomTable} {fuzzerOutput : JSAtom}
    (hnames : ScriptNames t₀ filename fuzzerOutput a t)
    (hfirst : ∀ s, Ready s (.char (ch '=') :: value) → Parses s.nextToken s [] s.atoms value)
    (hvalue : ∀ s, Ready s value → s.fd.lastOpcodeLineNum = 1 → s.fd.scopeLevel = 1 →
      s.atoms = valueAtoms t a →
      Parses (parseAssignExpr fuel s) s code t' [.char (ch ';'), .eof]) :
    ∃ s₀ s' pos, initialState t₀ (nameUnits (asciiBytes "<none>"))
        ((declarationTokens ++ value).map (·, 1)) = .ok s₀ ∧
      parseProgram (fuel + 3) s₀ = .ok s' ∧
      s'.fd = scriptDef filename (programCode a code) pos 1 [fuzzerOutput, a] 1 ∧
      s'.atoms = freeAtom (freeAtom t' a) a := by
  obtain ⟨s₀, s₁, s₂, hinit, hstart, h₁, hnext, h₂, hfd₂, ha, ht⟩ := program_start hnames
  obtain ⟨s₃, pos₃, hok₃, h₃, hfd₃, hatoms₃⟩ := inputVar_parses h₂ ha ht hfd₂ hfirst hvalue
  obtain ⟨s₄, hok₄, h₄, hfd₄, hatoms₄⟩ := h₁.sourceElement hnext hok₃ h₃ rfl
  obtain ⟨s₅, hok₅, h₅, hgrows₅, hatoms₅⟩ := Ready.parses_emits [.getLoc 0, .ret] h₄
    (by rw [hfd₄, hfd₃]; rfl)
  rw [hfd₄, hfd₃] at hgrows₅
  refine ⟨s₀, s₅, s₅.fd.lastOpcodePos, hinit, ?_, (scriptDef_grows hgrows₅).trans ?_,
    hatoms₅.trans (hatoms₄.trans hatoms₃)⟩
  · rw [hstart, hok₄, h₄.sourceEnd, Eval.ok_bind]
    exact hok₅
  · simp [programCode]

/-- **The script**, with an initial value that cannot be parsed. -/
theorem program_fails {t₀ : AtomTable} {fuzzerOutput : JSAtom}
    (hnames : ScriptNames t₀ filename fuzzerOutput a t)
    (hfirst : ∀ s, Ready s (.char (ch '=') :: value) → Parses s.nextToken s [] s.atoms value)
    (hvalue : ∀ s, Ready s value → s.fd.lastOpcodeLineNum = 1 → s.atoms = valueAtoms t a →
      (parseAssignExpr fuel s).Fails) :
    ∃ s₀, initialState t₀ (nameUnits (asciiBytes "<none>"))
        ((declarationTokens ++ value).map (·, 1)) = .ok s₀ ∧ (parseProgram (fuel + 3) s₀).Fails := by
  obtain ⟨s₀, s₁, s₂, hinit, hstart, h₁, hnext, h₂, hfd₂, ha, ht⟩ := program_start hnames
  obtain ⟨s₃, f, hvar, -, h₃, hatoms₃, hfd₃⟩ := inputVar_start fuel h₂ ha ht hfd₂
  obtain ⟨s₄, hvalue₄, h₄, hfd₄, hatoms₄⟩ :=
    initializer_start fuel hatoms₃ hfd₃ (hfirst s₃ h₃)
  refine ⟨s₀, hinit, ?_⟩
  rw [hstart, parseSourceElements, h₁.token]
  simp only [if_true]
  rw [hnext, Eval.ok_bind, hvar, hvalue₄]
  exact ((((hvalue s₄ h₄ (by rw [hfd₄]; rfl) hatoms₄).bind _).bind _).bind _).bind _

end Program

end Host
end FuzzerJs
