import FuzzerJs.Engine.Bytecode
import FuzzerJs.Engine.Lexer

/-!
# The parser

The functions of the parser that handle a script of `var` declarations, with initial
values made of numbers, strings, names, array literals and `new` expressions.  They emit
the code of the first phase as they go.  A token that leads out of this fragment gives
the outcome `Eval.outside`; everything that stays inside is done as the source does it,
including its use of the atom table, which `next_token` and most of the emitting functions
change.

The recursive functions take fuel; it is used up by the nesting of expressions and by the
loops over the elements of a literal.
-/

namespace FuzzerJs
namespace Engine

/-! ## State -/

/-- The fields of `JSParseState`.  A token is its value and its line; the tokens that are not read
yet are in `rest`. -/
structure ParseState where
  rest : List (TokenVal × ℕ)
  token : TokenVal
  tokenLine : ℕ
  /-- `token.u.ident.atom`. -/
  tokenAtom : JSAtom
  lastLineNum : ℕ
  fd : FunctionDef
  atoms : AtomTable

namespace ParseState

variable (s : ParseState)

/-- `free_token`: of a keyword the atom is predefined, other tokens have none. -/
def freeToken : AtomTable :=
  match s.token with
  | .ident _ _ _ => freeAtom s.atoms s.tokenAtom
  | _ => s.atoms

/-- `next_token`. -/
def nextToken : Eval ParseState :=
  match s.rest with
  | [] => .outside
  | (val, line) :: rest =>
    let next (atom : JSAtom) (atoms : AtomTable) : ParseState :=
      ⟨rest, val, line, atom, s.tokenLine, s.fd, atoms⟩
    match val with
    | .ident name _ _ =>
      if name.all (· < 0x80) then
        match newAtomStr s.freeToken (name.map UInt8.toUInt16) with
        | some (atom, atoms) => .ok (next atom atoms)
        | none => .outside
      else .outside
    | .string _ units =>
      if units.length ≤ stringLenMax then .ok (next 0 s.freeToken)
      else .exception "string too long"
    | _ => .ok (next 0 s.freeToken)

/-- `emit_op`, with the operands of the instruction. -/
def emit (i : Instr) : ParseState :=
  -- use the line number of the last token used, not the next token
  let code :=
    if s.fd.lastOpcodeLineNum ≠ s.lastLineNum then s.fd.byteCode ++ [.lineNum s.lastLineNum]
    else s.fd.byteCode
  { s with fd :=
      { s.fd with
        byteCode := code ++ [i]
        lastOpcodePos := some (codeSize code)
        lastOpcodeLineNum := s.lastLineNum } }

/-- `JS_DupAtom`. -/
def dup (a : JSAtom) : ParseState := { s with atoms := dupAtom s.atoms a }

/-- `JS_FreeAtom`. -/
def free (a : JSAtom) : ParseState := { s with atoms := freeAtom s.atoms a }

/-- `js_parse_expect`. -/
def expect (c : Char) : Eval ParseState :=
  if s.token = .char (ch c) then s.nextToken
  else .exception ("expecting '" ++ c.toString ++ "'")

/-- `js_parse_expect_semi`; a line terminator instead of the semicolon is not followed. -/
def expectSemi : Eval ParseState :=
  if s.token = .char (ch ';') then s.nextToken
  else if s.token = .eof ∨ s.token = .char (ch '\x7d') then .ok s
  else .outside

/-- `push_scope`. -/
def pushScope : ParseState :=
  let scope := s.fd.scopeLevel + 1
  let s := s.emit (.enterScope scope)
  { s with fd := { s.fd with scopeLevel := scope } }

/-- `define_var` of a `var` in global code. -/
def defineVar (name : JSAtom) : ParseState :=
  let s := s.dup name
  { s with fd := { s.fd with hoistedDefs := s.fd.hoistedDefs ++ [name] } }

/-- `get_lvalue` with `keep = FALSE`, of a variable; what it returns is the name, with a
reference, and the label. -/
def getLvalue : Eval (ParseState × JSAtom × ℕ) :=
  match s.fd.prevOpcode with
  | some (.scopeGetVar name scope) =>
    -- remove the last opcode
    let label := s.fd.labelCount
    let fd := { s.fd with byteCode := s.fd.byteCode.dropLast, lastOpcodePos := none,
                          labelCount := label + 1 }
    let s := ({ s with fd := fd }.dup name).emit (.scopeMakeRef name label scope)
    .ok (s, name, label)
  | none => .exception "invalid assignment left-hand side"
  | _ => .outside

/-- `put_lvalue` of a reference. -/
def putLvalue (name : JSAtom) (label : ℕ) : ParseState :=
  (((s.free name).emit (.label label)).emit .insert3).emit .putRefValue

/-- `emit_push_const` of a string, as an atom if it is not a number. -/
def emitPushString (units : List UInt16) : Eval ParseState :=
  match newAtomStr s.atoms units with
  | none => .outside
  | some (atom, atoms) =>
    let s := { s with atoms := atoms }
    if !atomIsTaggedInt atom then .ok (s.emit (.pushAtomValue atom))
    else
      match JSString.ofUnits units with
      | none => .outside
      | some str =>
        let idx := s.fd.cpool.length
        let s := { s with fd := { s.fd with cpool := s.fd.cpool ++ [JSValue.string str] } }
        .ok (s.emit (.pushConst idx))

end ParseState

/-! ## Looking ahead -/

/-- `js_parse_skip_parens_token`: the token after the parentheses that the current token opens;
`opened` are the ones that are open.  Names and divisions, which would touch the atom table or
start a regular expression, are not followed. -/
def skipParens : List UInt8 → List (TokenVal × ℕ) → Option TokenVal
  | _, [] => none
  | opened, (val, _) :: rest =>
    let step : Option (Option (List UInt8)) :=
      match val with
      | .char c =>
        if c = ch '(' ∨ c = ch '[' ∨ c = ch '\x7b' then
          some (if 255 ≤ opened.length then none else some (c :: opened))
        else if c = ch ')' then some (if opened.head? = some (ch '(') then some opened.tail else none)
        else if c = ch ']' then some (if opened.head? = some (ch '[') then some opened.tail else none)
        else if c = ch '\x7d' then
          some (if opened.head? = some (ch '\x7b') then some opened.tail else none)
        else if c = ch '/' then none
        else some (some opened)
      | .number _ => some (some opened)
      | .string _ _ => some (some opened)
      | .eof => some none
      | _ => none
    match step with
    | none => none
    | some none => some .eof
    | some (some opened) =>
      if opened = [] then rest.head?.map Prod.fst else skipParens opened rest

/-- The tokens after which an expression of the fragment can end. -/
def endsExpr (val : TokenVal) : Bool :=
  val = .char (ch ',') || val = .char (ch ')') || val = .char (ch ']') || val = .char (ch ';') ||
    val = .eof

/-! ## Expressions -/

/-- A variable in an expression. -/
def parseName (isReserved : Bool) (s : ParseState) : Eval ParseState :=
  if isReserved then .exception "'%s' is a reserved identifier"
  else do
    let name := s.tokenAtom
    -- update line number before emitting code
    let s ← (s.dup name).nextToken
    return s.emit (.scopeGetVar name s.fd.scopeLevel)

mutual

/-- `js_parse_assign_expr`, for an expression without operators. -/
def parseAssignExpr : ℕ → ParseState → Eval ParseState
  | 0, _ => .outside
  | fuel + 1, s => do
    let s ← parsePostfixExpr fuel s
    if endsExpr s.token then .ok s else .outside

/-- `js_parse_postfix_expr`. -/
def parsePostfixExpr : ℕ → ParseState → Eval ParseState
  | 0, _ => .outside
  | fuel + 1, s =>
    match s.token with
    | .number lit =>
      match lit.toInt32 with
      | some v => (s.emit (.pushI32 v)).nextToken
      | none => .outside
    | .string _ units => do
      let s ← s.emitPushString units
      s.nextToken
    | .ident _ _ isReserved => parseName isReserved s
    | .keyword atom =>
      if atom = 12 then do
        -- `TOK_NEW`
        let s ← s.nextToken
        match s.token with
        | .ident _ _ isReserved =>
          let s ← parseName isReserved s
          if s.token = .char (ch '(') then do
            let s ← s.nextToken
            let s := s.emit .dup
            let (argc, s) ← parseArguments fuel 0 s
            let s ← s.nextToken
            return s.emit (.callConstructor argc)
          else return (s.emit .dup).emit (.callConstructor 0)
        | _ => .outside
      else .outside
    | .char c =>
      if c = ch '[' then
        match skipParens [] ((s.token, s.tokenLine) :: s.rest) with
        | none => .outside
        | some val => if val = .char (ch '=') then .outside else parseArrayLiteral fuel s
      else .outside
    | _ => .outside

/-- The loop over the arguments of a call. -/
def parseArguments : ℕ → ℕ → ParseState → Eval (ℕ × ParseState)
  | 0, _, _ => .outside
  | fuel + 1, argc, s =>
    if s.token = .char (ch ')') then .ok (argc, s)
    else if 65535 ≤ argc then .exception "Too many call arguments"
    else if s.token = .punct .ellipsis then .outside
    else do
      let s ← parseAssignExpr fuel s
      if s.token = .char (ch ')') then .ok (argc + 1, s)
      else do
        let s ← s.expect ','
        parseArguments fuel (argc + 1) s

/-- `js_parse_array_literal`. -/
def parseArrayLiteral : ℕ → ParseState → Eval ParseState
  | 0, _ => .outside
  | fuel + 1, s => do
    let s ← s.nextToken
    let (idx, s) ← parseArrayStack fuel 0 s
    let s := s.emit (.arrayFrom idx)
    let (idx, needLength, s) ← parseArrayFields fuel idx false s
    if s.token = .char (ch ']') then
      let s :=
        if needLength then
          ((s.emit .dup).emit (.pushI32 idx)).emit (.putField atomLength)
        else s
      s.expect ']'
    else .outside

/-- The first loop of `js_parse_array_literal`: small regular arrays are created on the
stack. -/
def parseArrayStack : ℕ → ℕ → ParseState → Eval (ℕ × ParseState)
  | 0, _, _ => .outside
  | fuel + 1, idx, s =>
    if s.token = .char (ch ']') ∨ 32 ≤ idx then .ok (idx, s)
    else if s.token = .char (ch ',') ∨ s.token = .punct .ellipsis then .ok (idx, s)
    else do
      let s ← parseAssignExpr fuel s
      -- accept trailing comma
      if s.token = .char (ch ',') then do
        let s ← s.nextToken
        parseArrayStack fuel (idx + 1) s
      else if s.token = .char (ch ']') then parseArrayStack fuel (idx + 1) s
      else .exception "expecting ']'"

/-- The second loop of `js_parse_array_literal`: larger arrays and holes are handled with explicit
indices. -/
def parseArrayFields : ℕ → ℕ → Bool → ParseState → Eval (ℕ × Bool × ParseState)
  | 0, _, _, _ => .outside
  | fuel + 1, idx, needLength, s =>
    if s.token = .char (ch ']') ∨ 0x7fffffff ≤ idx then .ok (idx, needLength, s)
    else if s.token = .punct .ellipsis then .ok (idx, needLength, s)
    else if s.token = .char (ch ',') then do
      let s ← s.nextToken
      parseArrayFields fuel (idx + 1) true s
    else do
      let s ← parseAssignExpr fuel s
      let s := s.emit (.defineField (atomFromUInt32 idx))
      if s.token = .char (ch ',') then do
        let s ← s.nextToken
        parseArrayFields fuel (idx + 1) false s
      else parseArrayFields fuel (idx + 1) false s

end

/-! ## Statements -/

/-- The initial value in `js_parse_var`; nothing in the fragment gives a function its name, so
`set_object_name` has nothing to do. -/
def parseInitializer (fuel : ℕ) (name : JSAtom) (s : ParseState) : Eval ParseState := do
  let s ← s.nextToken
  let (s, name1, label) ← ((s.dup name).emit (.scopeGetVar name s.fd.scopeLevel)).getLvalue
  let s ← parseAssignExpr fuel s
  return (s.putLvalue name1 label).emit .drop

/-- `js_parse_var`, for `var`. -/
def parseVar : ℕ → ParseState → Eval ParseState
  | 0, _ => .outside
  | fuel + 1, s =>
    match s.token with
    | .ident _ _ isReserved =>
      if isReserved then .exception "'%s' is a reserved identifier"
      else do
        let name := s.tokenAtom
        let s ← (s.dup name).nextToken
        let s := s.defineVar name
        let s ← if s.token = .char (ch '=') then parseInitializer fuel name s else .ok s
        let s := s.free name
        if s.token = .char (ch ',') then do
          let s ← s.nextToken
          parseVar fuel s
        else .ok s
    | .char c => if c = ch '[' ∨ c = ch '\x7b' then .outside else .exception "variable name expected"
    | _ => .exception "variable name expected"

/-- `js_parse_source_element`, up to `TOK_EOF`. -/
def parseSourceElements : ℕ → ParseState → Eval ParseState
  | 0, _ => .outside
  | fuel + 1, s =>
    match s.token with
    | .eof => .ok s
    | .keyword atom =>
      if atom = 7 then do
        -- `TOK_VAR`
        let s ← s.nextToken
        let s ← parseVar fuel s
        let s ← s.expectSemi
        parseSourceElements fuel s
      else .outside
    | .char c =>
      if c = ch ';' then do
        let s ← s.nextToken
        parseSourceElements fuel s
      else .outside
    | _ => .outside

/-- The state in which `__JS_EvalInternal` calls `js_parse_program`. -/
def initialState (atoms : AtomTable) (filename : List UInt16) (ts : List (TokenVal × ℕ)) :
    Eval ParseState :=
  match newAtomStr atoms filename with
  | none => .outside
  | some (filename, atoms) =>
    .ok (ParseState.pushScope ⟨ts, .char (ch ' '), 1, 0, 0, FunctionDef.new filename, atoms⟩)

/-- `js_parse_program` of a script, without directives. -/
def parseProgram (fuel : ℕ) (s : ParseState) : Eval ParseState := do
  let s ← s.nextToken
  match s.token with
  | .string _ _ => .outside
  | _ =>
    -- hidden variable for the return value
    let s := { s with fd := { s.fd with vars := [atomRet] } }
    let s ← parseSourceElements fuel s
    return (s.emit (.getLoc 0)).emit .ret

end Engine
end FuzzerJs
