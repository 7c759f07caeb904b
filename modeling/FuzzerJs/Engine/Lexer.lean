import FuzzerJs.Engine.Literal

/-!
# The tokenizer

`next_token` of `quickjs.c`, for code (not JSON) at the top level of a script or a
module.  The end of the text is found through its terminating zero: `TOK_EOF` is
returned for a zero byte at the start of a token, wherever it stands, and outside
strings, templates and comments nothing looks at `buf_end`.

A token keeps what the parser reads of it: its value, the address where it starts and
its line.  Identifiers are kept by name; their atoms are made from the names later.
-/

namespace FuzzerJs
namespace Engine

open Scan

/-! ## Tokens -/

/-- The punctuators of more than one character. -/
inductive Punct where
  | mulAssign | divAssign | modAssign | plusAssign | minusAssign | shlAssign | sarAssign
  | shrAssign | andAssign | xorAssign | orAssign | powAssign | dec | inc | shl | sar | shr
  | lte | gte | eq | strictEq | neq | strictNeq | land | lor | pow | arrow | ellipsis
  deriving DecidableEq, Repr

/-- `s->token.val` with the part of `s->token.u` that belongs to it. -/
inductive TokenVal where
  /-- `TOK_EOF`. -/
  | eof
  /-- A character that stands for itself. -/
  | char (c : UInt8)
  | punct (op : Punct)
  /-- `TOK_NUMBER`. -/
  | number (lit : NumLit)
  /-- `TOK_STRING`. -/
  | string (sep : UInt8) (units : List UInt16)
  /-- `TOK_TEMPLATE`. -/
  | template (sep : UInt8) (units : List UInt16)
  /-- `TOK_IDENT`. -/
  | ident (name : List UInt8) (hasEscape isReserved : Bool)
  /-- `TOK_FIRST_KEYWORD + atom - 1`. -/
  | keyword (atom : ℕ)
  /-- `TOK_PRIVATE_NAME`. -/
  | privateName (name : List UInt8)
  deriving DecidableEq

/-- `struct JSToken`. -/
structure Token where
  val : TokenVal
  lineNum : ℕ
  ptr : ℕ
  deriving DecidableEq

/-- The mode of the code: `JS_MODE_STRICT`, `s->is_module` and `s->allow_html_comments`, and
the Unicode tables. -/
structure LexConfig where
  strict : Bool
  isModule : Bool
  allowHtmlComments : Bool
  tables : Tables

/-! ## Identifiers and keywords -/

/-- The bytes of an ASCII text. -/
def asciiBytes (s : String) : List UInt8 := s.toList.map ch

/-- The names of the first atoms, which are the keywords; the first one is atom 1. -/
def keywordNames : List String :=
  ["null", "false", "true", "if", "else", "return", "var", "this", "delete", "void", "typeof",
    "new", "in", "instanceof", "do", "while", "for", "break", "continue", "switch", "case",
    "default", "throw", "try", "catch", "finally", "function", "debugger", "with", "class",
    "const", "enum", "export", "extends", "import", "super", "implements", "interface", "let",
    "package", "private", "protected", "public", "static", "yield", "await"]

/-- `JS_ATOM_LAST_KEYWORD`, the atom of `super`. -/
def lastKeyword : ℕ := 36

/-- `JS_ATOM_LAST_STRICT_KEYWORD`, the atom of `yield`. -/
def lastStrictKeyword : ℕ := 45

/-- `JS_ATOM_await`. -/
def awaitAtom : ℕ := 46

/-- The atom of a keyword. -/
def keywordAtom (name : List UInt8) : Option ℕ :=
  match keywordNames.findIdx? fun k => asciiBytes k == name with
  | some i => some (i + 1)
  | none => none

/-- The test that makes a name a keyword, outside generators and asynchronous functions. -/
def isKeyword (cfg : LexConfig) (atom : ℕ) : Bool :=
  decide (atom ≤ lastKeyword) || (decide (atom ≤ lastStrictKeyword) && cfg.strict) ||
    (decide (atom = awaitAtom) && cfg.isModule)

/-- The token for a scanned name. -/
def identToken (cfg : LexConfig) (name : List UInt8) (hasEscape : Bool) : TokenVal :=
  match keywordAtom name with
  | none => .ident name hasEscape false
  | some atom =>
    if isKeyword cfg atom then
      if hasEscape then .ident name hasEscape true else .keyword atom
    else .ident name hasEscape false

theorem identToken_ne_eof (cfg : LexConfig) (name : List UInt8) (hasEscape : Bool) :
    identToken cfg name hasEscape ≠ .eof := by
  unfold identToken
  split
  · simp
  · split
    · split <;> simp
    · simp

/-- A character of an identifier: its code, the address after it, and whether an escape was met
so far.  An invalid one is looked up as `-1` or `-2`. -/
def identChar (m : Mem) (fuel p : ℕ) (hasEscape : Bool) : Res (ℕ × ℕ × Bool) :=
  if m p = ch '\\' ∧ m (p + 1) = ch 'u' then do
    match ← parseEscape m fuel (p + 1) with
    | .char c next => return (c, next, true)
    | .malformed => return (invalidChar, p + 1, true)
    | .none => return (invalidChar - 1, p + 1, true)
  else if 0x80 ≤ m p then
    match unicodeFromUtf8 m p with
    | some (c, next) => .ok (c, next, hasEscape)
    | none => .ok (invalidChar, p + 1, hasEscape)
  else .ok ((m p).toNat, p + 1, hasEscape)

/-- The size of `buf` in `next_token`, less `UTF8_CHAR_LEN_MAX`. -/
def identMax : ℕ := 4096 - 6

/-- The loop that collects an identifier in `buf`, with the character `c` still to be added. -/
def identLoop (m : Mem) (T : Tables) (tooLong : String) :
    ℕ → ℕ → List UInt8 → ℕ → Bool → Res (List UInt8 × Bool × ℕ)
  | 0, _, _, _, _ => .timeout
  | fuel + 1, p, buf, c, hasEscape => do
    let buf := buf ++ unicodeToUtf8 c
    let (c, next, hasEscape) ← identChar m fuel p hasEscape
    if isIdentNext T c = false then .ok (buf, hasEscape, p)
    else if identMax ≤ buf.length then .error tooLong
    else identLoop m T tooLong fuel next buf c hasEscape

/-- The label `has_ident`: the first character is `c`, and `p` is the address after it. -/
def scanIdent (cfg : LexConfig) (m : Mem) (fuel p c : ℕ) (hasEscape : Bool) :
    Res (TokenVal × ℕ) := do
  let (name, hasEscape, next) ←
    identLoop m cfg.tables "identifier too long" fuel p [] c hasEscape
  return (identToken cfg name hasEscape, next)

/-- A private name; `p` is the address after the `#`. -/
def scanPrivateName (cfg : LexConfig) (m : Mem) (fuel p : ℕ) : Res (TokenVal × ℕ) := do
  let (c, next, _) ← identChar m fuel p false
  if isIdentFirst cfg.tables c = false then .error "invalid first character of private name"
  else
    let (name, _, next) ←
      identLoop m cfg.tables "private name too long" fuel next [ch '#'] c false
    return (.privateName name, next)

/-! ## Punctuators -/

/-- A punctuator from its first byte and the three bytes after it: which one it is and its
length.  What no case mentions is the label `def_token`. -/
def punctuator (c c1 c2 c3 : UInt8) : Option (Punct × ℕ) :=
  if c = ch '.' ∧ c1 = ch '.' ∧ c2 = ch '.' then some (.ellipsis, 3)
  else if c = ch '/' ∧ c1 = ch '=' then some (.divAssign, 2)
  else if c = ch '*' ∧ c1 = ch '=' then some (.mulAssign, 2)
  else if c = ch '*' ∧ c1 = ch '*' then
    if c2 = ch '=' then some (.powAssign, 3) else some (.pow, 2)
  else if c = ch '%' ∧ c1 = ch '=' then some (.modAssign, 2)
  else if c = ch '+' ∧ c1 = ch '=' then some (.plusAssign, 2)
  else if c = ch '+' ∧ c1 = ch '+' then some (.inc, 2)
  else if c = ch '-' ∧ c1 = ch '=' then some (.minusAssign, 2)
  else if c = ch '-' ∧ c1 = ch '-' then some (.dec, 2)
  else if c = ch '<' ∧ c1 = ch '=' then some (.lte, 2)
  else if c = ch '<' ∧ c1 = ch '<' then
    if c2 = ch '=' then some (.shlAssign, 3) else some (.shl, 2)
  else if c = ch '>' ∧ c1 = ch '=' then some (.gte, 2)
  else if c = ch '>' ∧ c1 = ch '>' then
    if c2 = ch '>' then if c3 = ch '=' then some (.shrAssign, 4) else some (.shr, 3)
    else if c2 = ch '=' then some (.sarAssign, 3)
    else some (.sar, 2)
  else if c = ch '=' ∧ c1 = ch '=' then
    if c2 = ch '=' then some (.strictEq, 3) else some (.eq, 2)
  else if c = ch '=' ∧ c1 = ch '>' then some (.arrow, 2)
  else if c = ch '!' ∧ c1 = ch '=' then
    if c2 = ch '=' then some (.strictNeq, 3) else some (.neq, 2)
  else if c = ch '&' ∧ c1 = ch '=' then some (.andAssign, 2)
  else if c = ch '&' ∧ c1 = ch '&' then some (.land, 2)
  else if c = ch '^' ∧ c1 = ch '=' then some (.xorAssign, 2)
  else if c = ch '|' ∧ c1 = ch '=' then some (.orAssign, 2)
  else if c = ch '|' ∧ c1 = ch '|' then some (.lor, 2)
  else none

/-- The punctuator at `p` and the address after it. -/
def scanPunctuator (m : Mem) (p : ℕ) : TokenVal × ℕ :=
  match punctuator (m p) (m (p + 1)) (m (p + 2)) (m (p + 3)) with
  | some (op, len) => (.punct op, p + len)
  | none => (.char (m p), p + 1)

/-! ## Comments -/

/-- Where a comment leaves off. -/
structure Comment where
  next : ℕ
  lineNum : ℕ
  gotLf : Bool

/-- A comment, from the address after its opening.  `unicode_from_utf8` does not move its
pointer when it fails, so an invalid sequence is looked at again for ever. -/
def blockComment (m : Mem) (bufEnd : ℕ) : ℕ → ℕ → ℕ → Bool → Res Comment
  | 0, _, _, _ => .timeout
  | fuel + 1, p, lineNum, gotLf =>
    if m p = 0 ∧ bufEnd ≤ p then .error "unexpected end of comment"
    else if m p = ch '*' ∧ m (p + 1) = ch '/' then .ok ⟨p + 2, lineNum, gotLf⟩
    else if m p = ch '\n' then blockComment m bufEnd fuel (p + 1) (lineNum + 1) true
    else if m p = ch '\r' then blockComment m bufEnd fuel (p + 1) lineNum true
    else if 0x80 ≤ m p then
      match unicodeFromUtf8 m p with
      | none => blockComment m bufEnd fuel p lineNum gotLf
      | some (c, next) =>
        blockComment m bufEnd fuel next lineNum (gotLf || c = cpLS || c = cpPS)
    else blockComment m bufEnd fuel (p + 1) lineNum gotLf

/-- The label `skip_line_comment`. -/
def lineComment (m : Mem) (bufEnd : ℕ) : ℕ → ℕ → Res ℕ
  | 0, _ => .timeout
  | fuel + 1, p =>
    if m p = 0 ∧ bufEnd ≤ p then .ok p
    else if m p = ch '\r' ∨ m p = ch '\n' then .ok p
    else if 0x80 ≤ m p then
      match unicodeFromUtf8 m p with
      | none => lineComment m bufEnd fuel p
      | some (c, next) =>
        -- line and paragraph separators are line terminators
        if c = cpLS || c = cpPS then .ok next else lineComment m bufEnd fuel next
    else lineComment m bufEnd fuel (p + 1)

/-- `skip_shebang`, from the start of the buffer. -/
def shebangLoop (m : Mem) (bufEnd : ℕ) : ℕ → ℕ → Res ℕ
  | 0, _ => .timeout
  | fuel + 1, p =>
    if bufEnd ≤ p then .ok p
    else if m p = ch '\n' ∨ m p = ch '\r' then .ok p
    else if 0x80 ≤ m p then
      match unicodeFromUtf8 m p with
      | none => shebangLoop m bufEnd fuel p
      | some (c, next) => if c = cpLS || c = cpPS then .ok next else shebangLoop m bufEnd fuel next
    else shebangLoop m bufEnd fuel (p + 1)

/-- `skip_shebang`. -/
def skipShebang (m : Mem) (bufEnd fuel : ℕ) : Res ℕ :=
  if m 0 = ch '#' ∧ m 1 = ch '!' then shebangLoop m bufEnd fuel 2 else .ok 0

/-! ## `next_token` -/

/-- A token as it was scanned, and what the scan leaves behind. -/
structure Scanned where
  val : TokenVal
  ptr : ℕ
  tokenLine : ℕ
  next : ℕ
  lineNum : ℕ
  gotLf : Bool

/-- The label `parse_number`. -/
def scanNumber (cfg : LexConfig) (m : Mem) (fuel p : ℕ) : Res (TokenVal × ℕ) := do
  let (lit, next) ← atod m fuel p
  -- a literal like `10instanceof Number` is rejected
  if isIdentNext cfg.tables (((unicodeFromUtf8 m next).map Prod.fst).getD invalidChar) then
    .error "invalid number literal"
  else return (.number lit, next)

/-- A backslash: an identifier if a Unicode escape that can start one follows. -/
def scanBackslash (cfg : LexConfig) (m : Mem) (fuel p : ℕ) : Res (TokenVal × ℕ) :=
  if m (p + 1) = ch 'u' then do
    match ← parseEscape m fuel (p + 1) with
    | .char c next =>
      if isIdentFirst cfg.tables c then scanIdent cfg m fuel next c true
      else return (.char (ch '\\'), p + 1)
    | _ => return (.char (ch '\\'), p + 1)
  else .ok (.char (ch '\\'), p + 1)

/-- The tokens that are neither text nor white space and start with an ASCII character. -/
def scanAscii (cfg : LexConfig) (m : Mem) (fuel p : ℕ) : Res (TokenVal × ℕ) :=
  if m p = ch '\\' then scanBackslash cfg m fuel p
  else if isIdStartAscii (m p).toNat then scanIdent cfg m fuel (p + 1) (m p).toNat false
  else if m p = ch '#' then scanPrivateName cfg m fuel (p + 1)
  else if m p = ch '.' ∧ isDigit (m (p + 1)) = true then scanNumber cfg m fuel p
  else if m p = ch '0' ∧ isDigit (m (p + 1)) = true ∧ cfg.strict = true then
    .error "octal literals are deprecated in strict mode"
  else if isDigit (m p) then scanNumber cfg m fuel p
  else .ok (scanPunctuator m p)

/-- Whether an HTML-like comment starts at `p`. -/
def isHtmlComment (cfg : LexConfig) (m : Mem) (lastLine p lineNum : ℕ) : Prop :=
  cfg.allowHtmlComments = true ∧
    ((m p = ch '-' ∧ m (p + 1) = ch '-' ∧ m (p + 2) = ch '>' ∧ lastLine ≠ lineNum) ∨
      (m p = ch '<' ∧ m (p + 1) = ch '!' ∧ m (p + 2) = ch '-' ∧ m (p + 3) = ch '-'))

instance (cfg : LexConfig) (m : Mem) (lastLine p lineNum : ℕ) :
    Decidable (isHtmlComment cfg m lastLine p lineNum) :=
  inferInstanceAs (Decidable (_ ∧ _))

/-- The body of `next_token`, from the label `redo` on; `lastLine` is `s->last_line_num`. -/
def scanToken (cfg : LexConfig) (m : Mem) (bufEnd lastLine : ℕ) :
    ℕ → ℕ → ℕ → Bool → Res Scanned
  | 0, _, _, _ => .timeout
  | fuel + 1, p, lineNum, gotLf =>
    if m p = 0 then .ok ⟨.eof, p, lineNum, p, lineNum, gotLf⟩
    else if m p = ch '\x60' then do
      let (sep, r) ← parseTemplatePart m bufEnd fuel (p + 1) lineNum
      return ⟨.template sep r.units, p, lineNum, r.next, r.lineNum, gotLf⟩
    else if m p = ch '\'' ∨ m p = ch '"' then do
      let r ← parseString m bufEnd cfg.strict (m p) fuel (p + 1) lineNum
      return ⟨.string (m p) r.units, p, lineNum, r.next, r.lineNum, gotLf⟩
    else if m p = ch '\r' then
      scanToken cfg m bufEnd lastLine fuel (if m (p + 1) = ch '\n' then p + 2 else p + 1)
        (lineNum + 1) true
    else if m p = ch '\n' then scanToken cfg m bufEnd lastLine fuel (p + 1) (lineNum + 1) true
    else if m p = ch '\x0c' ∨ m p = ch '\x0b' ∨ m p = ch ' ' ∨ m p = ch '\t' then
      scanToken cfg m bufEnd lastLine fuel (p + 1) lineNum gotLf
    else if m p = ch '/' ∧ m (p + 1) = ch '*' then do
      let r ← blockComment m bufEnd fuel (p + 2) lineNum gotLf
      scanToken cfg m bufEnd lastLine fuel r.next r.lineNum r.gotLf
    else if m p = ch '/' ∧ m (p + 1) = ch '/' then do
      let next ← lineComment m bufEnd fuel (p + 2)
      scanToken cfg m bufEnd lastLine fuel next lineNum gotLf
    else if isHtmlComment cfg m lastLine p lineNum then do
      let next ← lineComment m bufEnd fuel p
      scanToken cfg m bufEnd lastLine fuel next lineNum gotLf
    else if 0x80 ≤ m p then
      let (c, next) := (unicodeFromUtf8 m p).getD (invalidChar, p)
      if c = cpPS ∨ c = cpLS then scanToken cfg m bufEnd lastLine fuel next (lineNum + 1) true
      else if cfg.tables.isSpace c then scanToken cfg m bufEnd lastLine fuel next lineNum gotLf
      else if isIdentFirst cfg.tables c then do
        let (val, next) ← scanIdent cfg m fuel next c false
        return ⟨val, p, lineNum, next, lineNum, gotLf⟩
      else .error "unexpected character"
    else do
      let (val, next) ← scanAscii cfg m fuel p
      return ⟨val, p, lineNum, next, lineNum, gotLf⟩

/-- The fields of `JSParseState` that `next_token` reads and writes. -/
structure LexState where
  bufPtr : ℕ
  lineNum : ℕ
  lastLineNum : ℕ
  lastPtr : ℕ
  gotLf : Bool
  token : Token
  deriving DecidableEq

/-- `js_parse_init`, with the buffer pointer where `skip_shebang` leaves it. -/
def LexState.init (bufPtr : ℕ) : LexState := ⟨bufPtr, 1, 0, 0, false, ⟨.char (ch ' '), 1, 0⟩⟩

/-- `next_token`. -/
def nextToken (cfg : LexConfig) (m : Mem) (bufEnd fuel : ℕ) (s : LexState) : Res LexState := do
  let r ← scanToken cfg m bufEnd s.token.lineNum fuel s.bufPtr s.lineNum false
  return ⟨r.next, r.lineNum, s.token.lineNum, s.bufPtr, r.gotLf, ⟨r.val, r.tokenLine, r.ptr⟩⟩

/-- The tokens up to and including `TOK_EOF`. -/
def tokensFrom (cfg : LexConfig) (m : Mem) (bufEnd fuel : ℕ) : ℕ → LexState → Res (List Token)
  | 0, _ => .timeout
  | n + 1, s => do
    let s ← nextToken cfg m bufEnd fuel s
    if s.token.val = .eof then return [s.token]
    else
      let ts ← tokensFrom cfg m bufEnd fuel n s
      return s.token :: ts

/-- The tokens of a buffer. -/
def tokens (cfg : LexConfig) (m : Mem) (bufEnd fuel : ℕ) : Res (List Token) := do
  let p ← skipShebang m bufEnd fuel
  tokensFrom cfg m bufEnd fuel fuel (LexState.init p)

end Engine
end FuzzerJs
