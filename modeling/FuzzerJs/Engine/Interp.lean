import FuzzerJs.Engine.GlobalVar
import FuzzerJs.Engine.Parser
import FuzzerJs.Engine.Resolve

/-!
# Running a script

`JS_Eval` of a script of the fragment: tokens, code, function, and the interpreter loop of
`JS_CallInternal` for the instructions that occur in it.  The loop notes the offset of
each instruction before it executes it, which is where the coverage counters are marked.

Arrays are in a heap; an array of the fragment is a fast array, which has no holes.  What a
constructor does is a parameter.
-/

namespace FuzzerJs
namespace Engine

/-! ## The world outside the frame -/

/-- The objects that the fragment tells apart. -/
inductive HeapObj where
  /-- A fast array. -/
  | array (elems : List JSValue)
  /-- An object of class `JS_CLASS_UINT8_ARRAY`. -/
  | uint8Array (bytes : List UInt8)
  | other
  deriving DecidableEq

/-- The objects, by their references. -/
abbrev Heap := List HeapObj

/-- What a script can change. -/
structure World where
  realm : Realm
  heap : Heap
  atoms : AtomTable

/-- `JS_CallConstructorInternal` of a function with arguments: its effect on the heap and on the
atom table. -/
abbrev Construct := Heap → AtomTable → JSValue → List JSValue → Eval (JSValue × Heap × AtomTable)

/-- A stack frame; the top of the stack is the head of the list. -/
structure Frame where
  stack : List JSValue
  locals : List JSValue
  world : World

namespace Frame

/-- Push a value. -/
def push (fr : Frame) (v : JSValue) : Frame := { fr with stack := v :: fr.stack }

end Frame

/-! ## Instructions -/

/-- Whether `JS_DefineGlobalVar` adds a property, whose shape then refers to the name. -/
def addsGlobalVar (r : Realm) (name : JSAtom) (flags : BitVec 8) : Bool :=
  if isLexVar flags then (r.globalVarObj name).isNone
  else (r.globalObj.props name).isNone && r.globalObj.extensible

/-- `OP_get_var`; a getter would run code of the program. -/
def execGetVar (name : JSAtom) (fr : Frame) : Eval Frame :=
  match getGlobalVar fr.world.realm name (.error ⟨.referenceError, "%s is not defined", some name⟩)
    with
  | .value v =>
    let r := fr.world.realm
    let r :=
      match r.globalVarObj name with
      | some _ => r
      | none => { r with globalObj := autoInitProperty r.globalObj name }
    .ok ({ fr with world := { fr.world with realm := r } }.push v)
  | .calls _ => .outside
  | .error e => .exception e.message

/-- `OP_put_var`, on a variable that exists and has no setter. -/
def execPutVar (name : JSAtom) (fr : Frame) : Eval Frame :=
  match fr.stack with
  | [] => .outside
  | v :: stack =>
    let r := fr.world.realm
    let (result, r') := setGlobalVar r name v .write false .absent (.ok true)
    let done : Eval Frame :=
      match result with
      | .ok _ => .ok { fr with stack := stack, world := { fr.world with realm := r' } }
      | .error e => .exception e.message
    match r.globalVarObj name, r.globalObj.props name with
    | some _, _ => done
    | none, some ⟨_, .getset _ (some _)⟩ => .outside
    | none, some _ => done
    | none, none => .outside

/-- `OP_define_field` of an element of a fast array. -/
def execDefineField (name : JSAtom) (fr : Frame) : Eval Frame :=
  match fr.stack with
  | v :: .object ref :: stack =>
    match fr.world.heap[ref]? with
    | some (.array elems) =>
      let idx := atomToUInt32 name
      let store (elems : List JSValue) : Eval Frame :=
        .ok { fr with stack := .object ref :: stack
                      world := { fr.world with heap := fr.world.heap.set ref (.array elems) } }
      if !atomIsTaggedInt name then .outside
      else if idx = elems.length then store (elems ++ [v])
      else if idx < elems.length then store (elems.set idx v)
      else .outside
    | _ => .outside
  | _ => .outside

/-- `OP_call_constructor`. -/
def execCallConstructor (construct : Construct) (argc : ℕ) (fr : Frame) : Eval Frame :=
  match fr.stack.drop argc with
  | _ :: func :: stack => do
    let (v, heap, atoms) ←
      construct fr.world.heap fr.world.atoms func (fr.stack.take argc).reverse
    return ⟨v :: stack, fr.locals, ⟨fr.world.realm, heap, atoms⟩⟩
  | _ => .outside

/-- `OP_push_atom_value`. -/
def execPushAtomValue (a : JSAtom) (fr : Frame) : Eval Frame :=
  match (atomToUnits fr.world.atoms a).bind JSString.ofUnits with
  | some str => .ok (fr.push (.string str))
  | none => .outside

/-- One instruction other than `OP_return`. -/
def execInstr (construct : Construct) (cpool : List JSValue) (i : Instr) (fr : Frame) :
    Eval Frame :=
  let pushInt (v : ℤ) : Eval Frame := .ok (fr.push (.int (BitVec.ofInt 32 v)))
  let pushAt (l : List JSValue) (idx : ℕ) : Eval Frame :=
    match l[idx]? with
    | some v => .ok (fr.push v)
    | none => .outside
  match i with
  | .checkDefineVar name flags =>
    match checkDefineGlobalVar fr.world.realm name flags with
    | .ok () => .ok fr
    | .error e => .exception e.message
  | .defineVar name flags =>
    let r := fr.world.realm
    let t := fr.world.atoms
    let t := if addsGlobalVar r name flags then dupAtom t name else t
    .ok { fr with world := { fr.world with realm := defineGlobalVar r name flags, atoms := t } }
  | .getVar name => execGetVar name fr
  | .putVar name => execPutVar name fr
  | .pushI32 v => pushInt v
  | .pushShort v => pushInt v
  | .pushI8 v => pushInt v
  | .pushI16 v => pushInt v
  | .pushConst idx => pushAt cpool idx
  | .pushConst8 idx => pushAt cpool idx
  | .pushAtomValue a => execPushAtomValue a fr
  | .pushEmptyString => execPushAtomValue atomEmptyString fr
  | .arrayFrom argc =>
    if fr.stack.length < argc then .outside
    else
      .ok { fr with stack := .object fr.world.heap.length :: fr.stack.drop argc
                    world := { fr.world with heap :=
                      fr.world.heap ++ [.array (fr.stack.take argc).reverse] } }
  | .defineField name => execDefineField name fr
  | .callConstructor argc => execCallConstructor construct argc fr
  | .dup => match fr.stack with
    | v :: _ => .ok (fr.push v)
    | [] => .outside
  | .drop => match fr.stack with
    | _ :: stack => .ok { fr with stack := stack }
    | [] => .outside
  | .nop => .ok fr
  | .getLoc idx => pushAt fr.locals idx
  | .getLocShort idx => pushAt fr.locals idx
  | .getLoc8 idx => pushAt fr.locals idx
  | _ => .outside

/-- The loop of `JS_CallInternal`: the offsets of the instructions in the order of their
execution, and how the call ends. -/
def runCode (construct : Construct) (cpool : List JSValue) :
    ℕ → List Instr → Frame → List ℕ × Eval (JSValue × World)
  | pc, [], _ => ([pc], .outside)
  | pc, i :: rest, fr =>
    if i = .ret then
      match fr.stack with
      | v :: _ => ([pc], .ok (v, fr.world))
      | [] => ([pc], .outside)
    else
      match execInstr construct cpool i fr with
      | .ok fr =>
        let (pcs, r) := runCode construct cpool (pc + i.size) rest fr
        (pc :: pcs, r)
      | .exception message => ([pc], .exception message)
      | .outside => ([pc], .outside)

/-! ## `JS_Eval` -/

/-- The tokens of a script, up to its terminating zero. -/
def scriptTokens (cfg : LexConfig) (m : Scan.Mem) (len : ℕ) : Eval (List (TokenVal × ℕ)) :=
  match tokens cfg m len (len + 2) with
  | .ok ts => .ok (ts.map fun t => (t.val, t.lineNum))
  | .error message => .exception message
  | .timeout => .outside

/-- The compilation part of `__JS_EvalInternal`. -/
def compileScript (cfg : LexConfig) (filename : List UInt16) (m : Scan.Mem) (len : ℕ)
    (t : AtomTable) : Eval (FunctionBytecode × AtomTable) := do
  let ts ← scriptTokens cfg m len
  let s ← initialState t filename ts
  let s ← parseProgram ts.length s
  createFunction s.fd s.atoms

/-- `JS_Eval` of a script: the offsets that its code executes, and the world it leaves, with the
function freed. -/
def evalScript (construct : Construct) (cfg : LexConfig) (filename : List UInt16) (m : Scan.Mem)
    (len : ℕ) (w : World) : List ℕ × Eval World :=
  match compileScript cfg filename m len w.atoms with
  | .ok (f, t) =>
    let fr : Frame := ⟨[], f.vardefs.map fun _ => .undefined, { w with atoms := t }⟩
    let (pcs, r) := runCode construct f.cpool 0 f.byteCode fr
    (pcs, do
      let (_, w) ← r
      return { w with atoms := freeFunction f w.atoms })
  | .exception message => ([], .exception message)
  | .outside => ([], .outside)

end Engine
end FuzzerJs
