import FuzzerJs.Engine.Parser

/-!
# What the parser makes of given tokens

Rules for following the parser along a list of tokens that is known, all on the first
line.  `Ready s vs` says that the tokens `vs` are ahead, and `Parses r s code t vs` that a
parsing function that was called in the state `s` succeeds: it has appended `code` to the
function, left the atom table `t`, and has the tokens `vs` ahead.
-/

namespace FuzzerJs
namespace Engine

/-! ## States -/

/-- The tokens from the current one on are `vs`, and the line is the first. -/
structure Ready (s : ParseState) (vs : List TokenVal) : Prop where
  tokens : (s.token, s.tokenLine) :: s.rest = vs.map (·, 1)
  lastLineNum : s.lastLineNum = 1

/-- A function under construction with more code. -/
def FunctionDef.Grows (fd : FunctionDef) (code : List Instr) (fd' : FunctionDef) : Prop :=
  fd' = { fd with byteCode := fd.byteCode ++ code, lastOpcodePos := fd'.lastOpcodePos }

/-- A parsing function succeeds in the state `s`. -/
def Parses (r : Eval ParseState) (s : ParseState) (code : List Instr) (t : AtomTable)
    (vs : List TokenVal) : Prop :=
  ∃ s', r = .ok s' ∧ Ready s' vs ∧ s.fd.Grows code s'.fd ∧ s'.atoms = t

section Rules

variable {s s' : ParseState} {v v' : TokenVal} {vs vs' : List TokenVal} {code code' : List Instr}
  {t t' : AtomTable} {fd fd' fd'' : FunctionDef}

theorem Ready.token (h : Ready s (v :: vs)) : s.token = v :=
  (Prod.mk.inj (List.cons.inj h.tokens).1).1

theorem Ready.tokenLine (h : Ready s (v :: vs)) : s.tokenLine = 1 :=
  (Prod.mk.inj (List.cons.inj h.tokens).1).2

theorem Ready.rest (h : Ready s (v :: vs)) : s.rest = vs.map (·, 1) := (List.cons.inj h.tokens).2

theorem FunctionDef.Grows.refl (fd : FunctionDef) : fd.Grows [] fd := by
  simp [FunctionDef.Grows]

theorem FunctionDef.Grows.trans (h : fd.Grows code fd') (h' : fd'.Grows code' fd'') :
    fd.Grows (code ++ code') fd'' := by
  rw [FunctionDef.Grows] at *
  rw [h', h]
  simp

theorem FunctionDef.Grows.line (h : fd.Grows code fd') :
    fd'.lastOpcodeLineNum = fd.lastOpcodeLineNum := by
  rw [h]

theorem FunctionDef.Grows.scope (h : fd.Grows code fd') : fd'.scopeLevel = fd.scopeLevel := by
  rw [h]

/-- Two parts of a parsing function. -/
theorem Parses.bind {r : Eval ParseState} {f : ParseState → Eval ParseState}
    (h : Parses r s code t vs)
    (h' : ∀ s', Ready s' vs → s'.fd.lastOpcodeLineNum = s.fd.lastOpcodeLineNum →
      s'.fd.scopeLevel = s.fd.scopeLevel → s'.atoms = t → Parses (f s') s' code' t' vs') :
    Parses (r >>= f) s (code ++ code') t' vs' := by
  obtain ⟨s', rfl, hready, hgrows, hatoms⟩ := h
  obtain ⟨s'', hok, hready', hgrows', hatoms'⟩ := h' s' hready hgrows.line hgrows.scope hatoms
  exact ⟨s'', hok, hready', hgrows.trans hgrows', hatoms'⟩

/-- A first part that emits nothing. -/
theorem Parses.bind_nil {r : Eval ParseState} {f : ParseState → Eval ParseState}
    (h : Parses r s [] t vs)
    (h' : ∀ s', Ready s' vs → s'.fd.lastOpcodeLineNum = s.fd.lastOpcodeLineNum →
      s'.fd.scopeLevel = s.fd.scopeLevel → s'.atoms = t → Parses (f s') s' code t' vs') :
    Parses (r >>= f) s code t' vs' := by
  have hbind := h.bind h'
  rwa [List.nil_append] at hbind

/-- The code of a part that comes first. -/
theorem Parses.after {r : Eval ParseState} (hgrows : s.fd.Grows code s'.fd)
    (h : Parses r s' code' t vs) : Parses r s (code ++ code') t vs := by
  obtain ⟨s'', hok, hready, hgrows', hatoms⟩ := h
  exact ⟨s'', hok, hready, hgrows.trans hgrows', hatoms⟩

/-- A last part that emits nothing. -/
theorem Parses.after_nil {r : Eval ParseState} (hgrows : s.fd.Grows code s'.fd)
    (h : Parses r s' [] t vs) : Parses r s code t vs := by
  have hafter := h.after hgrows
  rwa [List.append_nil] at hafter

/-- Only the function of the state before matters. -/
theorem Parses.congr_fd {r : Eval ParseState} (h : Parses r s' code t vs) (hfd : s'.fd = s.fd) :
    Parses r s code t vs := by
  rw [Parses, hfd] at h
  exact h

theorem Parses.ok (h : Ready s vs) : Parses (.ok s) s [] s.atoms vs :=
  ⟨s, rfl, h, FunctionDef.Grows.refl s.fd, rfl⟩

/-- A parsing function that only gives its result back in another form. -/
theorem Parses.of_eq {r r' : Eval ParseState} (h : Parses r s code t vs) (heq : r' = r) :
    Parses r' s code t vs := heq ▸ h

/-! ## Emitting -/

@[simp]
theorem emit_token (s : ParseState) (i : Instr) : (s.emit i).token = s.token := rfl

@[simp]
theorem emit_atoms (s : ParseState) (i : Instr) : (s.emit i).atoms = s.atoms := rfl

theorem Ready.emit (h : Ready s vs) (i : Instr) : Ready (s.emit i) vs := ⟨h.tokens, h.lastLineNum⟩

theorem emit_grows (h : s.lastLineNum = 1) (hline : s.fd.lastOpcodeLineNum = 1) (i : Instr) :
    s.fd.Grows [i] (s.emit i).fd := by
  have hsame : s.fd.lastOpcodeLineNum = s.lastLineNum := hline.trans h.symm
  simp [ParseState.emit, FunctionDef.Grows, hsame]

/-- Emit an instruction and return. -/
theorem Ready.parses_emit (h : Ready s vs) (hline : s.fd.lastOpcodeLineNum = 1) (i : Instr) :
    Parses (.ok (s.emit i)) s [i] s.atoms vs :=
  ⟨_, rfl, h.emit i, emit_grows h.lastLineNum hline i, rfl⟩

/-- Emit several instructions and return. -/
theorem Ready.parses_emits (is : List Instr) :
    ∀ {s : ParseState}, Ready s vs → s.fd.lastOpcodeLineNum = 1 →
      Parses (.ok (is.foldl ParseState.emit s)) s is s.atoms vs := by
  induction is with
  | nil => intro s h _; exact Parses.ok h
  | cons i is ih =>
      intro s h hline
      have hgrows := emit_grows h.lastLineNum hline i
      exact Parses.after hgrows (ih (h.emit i) (hgrows.line.trans hline))

/-! ## Reading -/

/-- A token without a string. -/
def isPlain : TokenVal → Bool
  | .ident _ _ _ => false
  | .string _ _ => false
  | _ => true

/-- `next_token` to a plain token. -/
theorem Ready.nextToken_eq (h : Ready s (v :: v' :: vs)) (hv' : isPlain v' = true) :
    s.nextToken = .ok ⟨vs.map (·, 1), v', 1, 0, 1, s.fd, s.freeToken⟩ := by
  rw [ParseState.nextToken, h.rest, h.tokenLine]
  cases v' with
  | ident => exact absurd hv' nofun
  | string => exact absurd hv' nofun
  | _ => rfl

theorem Ready.nextToken (h : Ready s (v :: v' :: vs)) (hv' : isPlain v' = true) :
    Parses s.nextToken s [] s.freeToken (v' :: vs) :=
  ⟨_, h.nextToken_eq hv', ⟨rfl, rfl⟩, FunctionDef.Grows.refl s.fd, rfl⟩

theorem freeToken_of_isPlain (h : s.token = v) (hv : isPlain v = true) : s.freeToken = s.atoms := by
  rw [ParseState.freeToken, h]
  cases v with
  | ident => exact absurd hv nofun
  | _ => rfl

/-- `next_token` between plain tokens. -/
theorem Ready.nextToken_plain (h : Ready s (v :: v' :: vs)) (hv : isPlain v = true)
    (hv' : isPlain v' = true) : Parses s.nextToken s [] s.atoms (v' :: vs) := by
  rw [← freeToken_of_isPlain h.token hv]
  exact h.nextToken hv'

/-- The code units of a name. -/
def nameUnits (name : List UInt8) : List UInt16 := name.map UInt8.toUInt16

/-- `next_token` to a name. -/
theorem Ready.nextToken_ident {name : List UInt8} {e r : Bool} {a : JSAtom}
    (h : Ready s (v :: .ident name e r :: vs)) (hv : isPlain v = true)
    (hascii : name.all (· < 0x80) = true)
    (hnew : newAtomStr s.atoms (nameUnits name) = some (a, t)) :
    s.nextToken = .ok ⟨vs.map (·, 1), .ident name e r, 1, a, 1, s.fd, t⟩ := by
  rw [ParseState.nextToken, h.rest, h.tokenLine, freeToken_of_isPlain h.token hv]
  simp only [List.map_cons, if_pos hascii]
  rw [show name.map UInt8.toUInt16 = nameUnits name from rfl, hnew]

/-- `next_token` to a name whose atom is predefined. -/
theorem Ready.nextToken_const {name : List UInt8} {e r : Bool} {a : JSAtom}
    (h : Ready s (v :: .ident name e r :: vs)) (hv : isPlain v = true)
    (hascii : name.all (· < 0x80) = true) (hnum : isNumString (nameUnits name) = none)
    (hatom : IsAtom s.atoms a (nameUnits name)) (hconst : atomIsConst a = true) :
    ∃ s', s.nextToken = .ok s' ∧ Ready s' (.ident name e r :: vs) ∧ s'.fd = s.fd ∧
      s'.atoms = s.atoms ∧ s'.tokenAtom = a := by
  have hnew : newAtomStr s.atoms (nameUnits name) = some (a, s.atoms) := by
    rw [newAtomStr, hnum]
    exact newAtom_of_isAtom hatom hconst
  exact ⟨_, h.nextToken_ident hv hascii hnew, ⟨rfl, rfl⟩, rfl, rfl, rfl⟩

/-- Behind a name whose atom was duplicated, the reference of the token has gone. -/
theorem Ready.nextToken_dup_eq {name : List UInt8} {e r : Bool}
    (h : Ready s (.ident name e r :: v' :: vs)) (hv' : isPlain v' = true) :
    (s.dup s.tokenAtom).nextToken = .ok ⟨vs.map (·, 1), v', 1, 0, 1, s.fd, s.atoms⟩ := by
  have hdup : Ready (s.dup s.tokenAtom) (.ident name e r :: v' :: vs) := ⟨h.tokens, h.lastLineNum⟩
  have hfree : (s.dup s.tokenAtom).freeToken = s.atoms := by
    rw [ParseState.freeToken, hdup.token]
    exact dupAtom_freeAtom s.atoms s.tokenAtom
  rw [hdup.nextToken_eq hv', hfree]
  rfl

theorem Ready.nextToken_dup {name : List UInt8} {e r : Bool}
    (h : Ready s (.ident name e r :: v' :: vs)) (hv' : isPlain v' = true) :
    Parses (s.dup s.tokenAtom).nextToken s [] s.atoms (v' :: vs) :=
  ⟨_, h.nextToken_dup_eq hv', ⟨rfl, rfl⟩, FunctionDef.Grows.refl s.fd, rfl⟩

/-! ## Expressions -/

theorem isPlain_of_endsExpr (h : endsExpr v = true) : isPlain v = true := by
  cases v with
  | ident => exact absurd h (by simp [endsExpr])
  | string => exact absurd h (by simp [endsExpr])
  | _ => rfl

/-- `js_parse_assign_expr` of a postfix expression that ends there. -/
theorem Parses.assignExpr {fuel : ℕ} (h : Parses (parsePostfixExpr fuel s) s code t (v :: vs))
    (hend : endsExpr v = true) : Parses (parseAssignExpr (fuel + 1) s) s code t (v :: vs) := by
  obtain ⟨s', hok, hready, hgrows, hatoms⟩ := h
  refine ⟨s', ?_, hready, hgrows, hatoms⟩
  rw [parseAssignExpr, hok, Eval.ok_bind, hready.token, if_pos hend]

/-- A number. -/
theorem Ready.number {lit : NumLit} {n fuel : ℕ} (h : Ready s (.number lit :: v :: vs))
    (hline : s.fd.lastOpcodeLineNum = 1) (hlit : lit.toInt32 = some n) (hend : endsExpr v = true) :
    Parses (parseAssignExpr (fuel + 2) s) s [.pushI32 n] s.atoms (v :: vs) := by
  refine Parses.assignExpr ?_ hend
  refine Parses.of_eq (Parses.after (emit_grows h.lastLineNum hline (.pushI32 n))
    ((h.emit (.pushI32 n)).nextToken_plain rfl (isPlain_of_endsExpr hend))) ?_
  rw [parsePostfixExpr, h.token]
  simp only [hlit]

/-- A variable. -/
theorem Ready.name {name : List UInt8} {e : Bool} (h : Ready s (.ident name e false :: v :: vs))
    (hline : s.fd.lastOpcodeLineNum = 1) (hv : isPlain v = true) :
    Parses (parseName false s) s [.scopeGetVar s.tokenAtom s.fd.scopeLevel] s.atoms (v :: vs) := by
  rw [parseName, if_neg (by simp)]
  refine Parses.bind (h.nextToken_dup hv) fun s' h' hline' hscope' hatoms' => ?_
  rw [← hscope', ← hatoms']
  exact h'.parses_emit (hline'.trans hline) _

/-! ## Declarations -/

/-- A `var` without an initial value. -/
theorem Ready.var (fuel : ℕ) {name : List UInt8} {e : Bool}
    (h : Ready s (.ident name e false :: .char (ch ';') :: vs)) :
    parseVar (fuel + 1) s = .ok ⟨vs.map (·, 1), .char (ch ';'), 1, 0, 1,
      { s.fd with hoistedDefs := s.fd.hoistedDefs ++ [s.tokenAtom] }, s.atoms⟩ := by
  have hassign : ¬ TokenVal.char (ch ';') = .char (ch '=') := by decide
  have hcomma : ¬ TokenVal.char (ch ';') = .char (ch ',') := by decide
  rw [parseVar, h.token]
  simp only [Bool.false_eq_true, if_false]
  rw [h.nextToken_dup_eq rfl, Eval.ok_bind]
  simp only [ParseState.defineVar, ParseState.dup, ParseState.free, if_neg hassign, Eval.ok_bind,
    if_neg hcomma, dupAtom_freeAtom]

/-- One declaration of a script, up to its semicolon. -/
theorem Ready.sourceElement {s₁ s₂ : ParseState} {fuel : ℕ} (h : Ready s (.keyword 7 :: vs))
    (hnext : s.nextToken = .ok s₁) (hvar : parseVar fuel s₁ = .ok s₂)
    (h₂ : Ready s₂ (.char (ch ';') :: v' :: vs')) (hv' : isPlain v' = true) :
    ∃ s₃, parseSourceElements (fuel + 1) s = parseSourceElements fuel s₃ ∧
      Ready s₃ (v' :: vs') ∧ s₃.fd = s₂.fd ∧ s₃.atoms = s₂.atoms := by
  refine ⟨⟨vs'.map (·, 1), v', 1, 0, 1, s₂.fd, s₂.freeToken⟩, ?_, ⟨rfl, rfl⟩, rfl,
    freeToken_of_isPlain h₂.token rfl⟩
  rw [parseSourceElements, h.token]
  simp only [if_true]
  rw [hnext, Eval.ok_bind, hvar, Eval.ok_bind, ParseState.expectSemi, if_pos h₂.token,
    h₂.nextToken_eq hv', Eval.ok_bind]

theorem Ready.sourceEnd {fuel : ℕ} (h : Ready s (.eof :: vs)) :
    parseSourceElements (fuel + 1) s = .ok s := by
  rw [parseSourceElements, h.token]

end Rules

end Engine
end FuzzerJs
