import FuzzerJs.Engine.Bytecode

/-!
# From the parser's code to a function

`js_create_function`: `resolve_variables` turns scoped variable accesses into global ones
and instantiates the declarations, `resolve_labels` drops labels and line numbers and
chooses short instructions, and `compute_stack_size` checks what comes out.

Both passes keep the size of the code in an `int`.  With `2 ^ 31` bytes or more it is
negative, their loops do not run, and the instructions are lost (`scannedCode`).  A buffer
of `2 ^ 32` bytes or more, in which positions would be positive again and wrong, is
outside of the model.
-/

namespace FuzzerJs
namespace Engine

/-- The instructions that a loop up to `int bc_len = s->byte_code.size` runs over. -/
def scannedCode (code : List Instr) : List Instr := if codeSize code < 2 ^ 31 then code else []

/-! ## `resolve_variables` -/

/-- `can_opt_put_global_ref_value` and the end of `optimize_scope_make_global_ref`, in sloppy
code: what follows the label of a reference is replaced by a plain assignment. -/
def patchRef (label : ℕ) (name : JSAtom) : List Instr → Option (List Instr)
  | [] => none
  | i :: rest =>
    if i = .label label then
      match rest with
      | .insert3 :: .putRefValue :: rest => some (.dup :: .putVar name :: .nop :: rest)
      | _ => none
    else (patchRef label name rest).map (i :: ·)

/-- The atoms of the declarations, when `instantiate_hoisted_definitions` is done: each name is
duplicated for its instruction and then freed. -/
def hoistedAtoms (t : AtomTable) (names : List JSAtom) : AtomTable :=
  names.foldl (fun t name => freeAtom (dupAtom t name) name) t

/-- The loop of `resolve_variables`.  Local variables, code after a `return` and line numbers
in the middle of a pattern are not followed. -/
def resolveVariablesLoop (fd : FunctionDef) :
    ℕ → List Instr → AtomTable → Eval (List Instr × AtomTable)
  | _, [], t => .ok ([], t)
  | 0, _ :: _, _ => .outside
  | fuel + 1, i :: rest, t =>
    let put (out : List Instr) (rest : List Instr) (t : AtomTable) :
        Eval (List Instr × AtomTable) := do
      let (code, t) ← resolveVariablesLoop fd fuel rest t
      return (out ++ code, t)
    match i with
    | .scopeGetVar name _ =>
      if name ∈ fd.vars then .outside
      else put [.getVar name] rest (freeAtom (dupAtom t name) name)
    | .scopeMakeRef name label _ =>
      if name ∈ fd.vars then .outside
      else
        match patchRef label name rest with
        | some rest => put [] rest (freeAtom (dupAtom t name) name)
        | none => put [.makeVarRef name] rest (freeAtom (dupAtom t name) name)
    | .enterScope scope =>
      if scope = 1 then
        put (fd.hoistedDefs.map fun name => .defineVar name 0#8) rest
          (hoistedAtoms t fd.hoistedDefs)
      else .outside
    | .insert3 =>
      match rest with
      | .putRefValue :: .drop :: rest => put [.putRefValue] rest t
      | .lineNum _ :: _ => .outside
      | _ => put [.insert3] rest t
    | .ret => if rest = [] then .ok ([.ret], t) else .outside
    | .nop => put [] rest t
    | i => put [i] rest t

/-- `resolve_variables`. -/
def resolveVariables (fd : FunctionDef) (t : AtomTable) : Eval (List Instr × AtomTable) :=
  if 2 ^ 32 ≤ codeSize fd.byteCode then .outside
  else do
    -- first pass for runtime checks
    let checks := fd.hoistedDefs.map fun name => Instr.checkDefineVar name 0#8
    let t := fd.hoistedDefs.foldl dupAtom t
    let code := scannedCode fd.byteCode
    let (code, t) ← resolveVariablesLoop fd code.length code t
    return (checks ++ code, t)

/-! ## `resolve_labels` -/

/-- `push_short_int`. -/
def pushShortInt (v : ℤ) : Instr :=
  if -1 ≤ v ∧ v ≤ 7 then .pushShort v
  else if -128 ≤ v ∧ v ≤ 127 then .pushI8 v
  else if -32768 ≤ v ∧ v ≤ 32767 then .pushI16 v
  else .pushI32 v

/-- `put_short_code` of `OP_get_loc`. -/
def getLocShortCode (idx : ℕ) : Instr :=
  if idx < 4 then .getLocShort idx else if idx < 256 then .getLoc8 idx else .getLoc idx

/-- A constant that is pushed: push/drop pairs generated by the parser are removed.  `t` is the
table if the instruction `out` stays, and `dropped` if it goes. -/
def resolvePush (out : Instr) (t dropped : AtomTable) :
    List Instr → Eval (List Instr × List Instr × AtomTable)
  | .lineNum _ :: _ => .outside
  | .drop :: rest => .ok ([], rest, dropped)
  | rest => .ok ([out], rest, t)

/-- One round of the loop of `resolve_labels`: the code it emits, the code that is left and the
atom table. -/
def resolveLabelsStep (i : Instr) (rest : List Instr) (t : AtomTable) :
    Eval (List Instr × List Instr × AtomTable) :=
  match i with
  | .lineNum _ => .ok ([], rest, t)
  | .label _ => .ok ([], rest, t)
  | .pushI32 v => resolvePush (pushShortInt v) t t rest
  | .pushConst idx => .ok ([if idx < 256 then .pushConst8 idx else .pushConst idx], rest, t)
  | .pushAtomValue a =>
    if a = atomEmptyString then resolvePush .pushEmptyString (freeAtom t a) (freeAtom t a) rest
    else resolvePush (.pushAtomValue a) t (freeAtom t a) rest
  | .getLoc idx => .ok ([getLocShortCode idx], rest, t)
  | .ret => if rest = [] then .ok ([.ret], [], t) else .outside
  | i => .ok ([i], rest, t)

/-- The loop of `resolve_labels`. -/
def resolveLabelsLoop : ℕ → List Instr → AtomTable → Eval (List Instr × AtomTable)
  | _, [], t => .ok ([], t)
  | 0, _ :: _, _ => .outside
  | fuel + 1, i :: rest, t => do
    let (out, rest, t) ← resolveLabelsStep i rest t
    let (code, t) ← resolveLabelsLoop fuel rest t
    return (out ++ code, t)

/-- `resolve_labels`. -/
def resolveLabels (code : List Instr) (t : AtomTable) : Eval (List Instr × AtomTable) :=
  if 2 ^ 32 ≤ codeSize code then .outside
  else resolveLabelsLoop (scannedCode code).length (scannedCode code) t

/-! ## `compute_stack_size` -/

/-- `JS_STACK_SIZE_MAX`. -/
def stackSizeMax : ℕ := 65536

/-- `compute_stack_size_rec`, for code without jumps. -/
def computeStackSize : List Instr → ℕ → ℕ → Eval ℕ
  | [], _, _ => .exception "bytecode buffer overflow (op=%d, pc=%d)"
  | i :: rest, stackLen, stackLenMax =>
    if stackLen < i.nPop then .exception "stack underflow (op=%d, pc=%d)"
    else
      let stackLen := stackLen - i.nPop + i.nPush
      let stackLenMax := max stackLenMax stackLen
      if stackSizeMax < stackLenMax then .exception "stack overflow (op=%d, pc=%d)"
      else if i = .ret then .ok stackLenMax
      else computeStackSize rest stackLen stackLenMax

/-- `js_create_function`. -/
def createFunction (fd : FunctionDef) (t : AtomTable) : Eval (FunctionBytecode × AtomTable) := do
  let (code, t) ← resolveVariables fd t
  let (code, t) ← resolveLabels code t
  let stackSize ← computeStackSize code 0 0
  return (⟨fd.funcName, fd.filename, code, fd.vars, fd.cpool, stackSize⟩, t)

/-- `free_function_bytecode`: the atoms of the instructions, of the variables, and the two
names. -/
def freeFunction (f : FunctionBytecode) (t : AtomTable) : AtomTable :=
  freeAtom (freeAtom (freeAtoms (freeAtoms t (f.byteCode.filterMap Instr.atom?)) f.vardefs)
    f.funcName) f.filename

end Engine
end FuzzerJs
