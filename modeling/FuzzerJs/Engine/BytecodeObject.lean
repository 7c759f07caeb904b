import FuzzerJs.Engine.BytecodeReader
import FuzzerJs.Lib.Wire

/-!
# What a bytecode file holds

`JS_ReadObject`, and the values that it makes: constants, functions with their variables and
their code, modules with their tables of imports and exports.  `BCObject` has what the format has
a place for.  The source text of a function is not written to a file, nor are the prototype of an
object, the flags of its properties and those that are not enumerable or named by symbols.

* `readObject`: the functions that the target then has, in the order in which they stand in the
  file.
* `readObject_named`: a loaded function is named by a predefined atom, by an integer or by
  one of the atoms of the file.
-/

namespace FuzzerJs
namespace Engine

open Read Wire

/-! ## Objects -/

/-- `JSVarDef`, without what is only used during compilation. -/
structure VarDef where
  varName : JSAtom
  scopeLevel : BitVec 32
  scopeNext : BitVec 32
  varKind : BitVec 4
  isFuncVar : Bool
  isConst : Bool
  isLexical : Bool
  isCaptured : Bool
  deriving DecidableEq

/-- `JSClosureVar`. -/
structure ClosureVar where
  varName : JSAtom
  varIdx : BitVec 16
  isLocal : Bool
  isArg : Bool
  isConst : Bool
  isLexical : Bool
  varKind : BitVec 3
  deriving DecidableEq

/-- The part of `b->debug` that is written to a file. -/
structure DebugInfo where
  filename : JSAtom
  lineNum : BitVec 32
  pc2lineBuf : List UInt8
  deriving DecidableEq

/-- `JSFunctionBytecode`, without its constant pool; `has_debug` says whether there is a
`debug`. -/
structure FunctionInfo where
  hasPrototype : Bool
  hasSimpleParameterList : Bool
  isDerivedClassConstructor : Bool
  needHomeObject : Bool
  funcKind : BitVec 2
  newTargetAllowed : Bool
  superCallAllowed : Bool
  superAllowed : Bool
  argumentsAllowed : Bool
  jsMode : UInt8
  funcName : JSAtom
  argCount : BitVec 16
  varCount : BitVec 16
  definedArgCount : BitVec 16
  stackSize : BitVec 16
  vardefs : List VarDef
  closureVar : List ClosureVar
  byteCode : List UInt8
  debug : Option DebugInfo
  deriving DecidableEq

/-- `JSExportEntry`; the type 0 is `JS_EXPORT_TYPE_LOCAL`. -/
inductive ExportEntry where
  | loc (varIdx : BitVec 32) (exportName : JSAtom)
  | indirect (exportType : UInt8) (ne : exportType ≠ 0) (reqModuleIdx : BitVec 32)
    (localName exportName : JSAtom)
  deriving DecidableEq

/-- `JSImportEntry`. -/
structure ImportEntry where
  varIdx : BitVec 32
  importName : JSAtom
  reqModuleIdx : BitVec 32
  deriving DecidableEq

/-- `JSModuleDef`, without its function and what is set when it is linked and evaluated. -/
structure ModuleInfo where
  moduleName : JSAtom
  reqModuleEntries : List JSAtom
  exportEntries : List ExportEntry
  starExportEntries : List (BitVec 32)
  importEntries : List ImportEntry
  deriving DecidableEq

/-- A value as a file holds it.  An object is the list of the property definitions that make it, and
the raw strings of a template are `undefined` if it has none. -/
inductive BCObject where
  | null
  | undefined
  | bool (b : Bool)
  | int32 (i : BitVec 32)
  | float64 (bits : BitVec 64)
  | string (data : JSStringData)
  | object (props : List (JSAtom × BCObject))
  | array (elems : List BCObject)
  | template (elems : List BCObject) (raw : BCObject)
  | function (info : FunctionInfo) (cpool : List BCObject)
  | module (info : ModuleInfo) (func : BCObject)

mutual

/-- The functions of an object, in the order in which they stand in the file. -/
def BCObject.functions : BCObject → List LoadedFunction
  | .object props => functionsOfProps props
  | .array elems => functionsOfList elems
  | .template elems raw => functionsOfList elems ++ raw.functions
  | .function info cpool => ⟨info.funcName, info.byteCode.length⟩ :: functionsOfList cpool
  | .module _ func => func.functions
  | _ => []

/-- The same for a list of objects. -/
def BCObject.functionsOfList : List BCObject → List LoadedFunction
  | [] => []
  | v :: vs => v.functions ++ functionsOfList vs

/-- The same for the properties of an object. -/
def BCObject.functionsOfProps : List (JSAtom × BCObject) → List LoadedFunction
  | [] => []
  | (_, v) :: props => v.functions ++ functionsOfProps props

end

/-! ## Code -/

/-- A number in `n` bytes, the low one first. -/
def toLittleEndian : ℕ → ℕ → List UInt8
  | 0, _ => []
  | n + 1, v => UInt8.ofNat v :: toLittleEndian n (v / 256)

/-- The operands of an instruction, with the atom among them replaced; `code` is what follows its
opcode. -/
def mapOperands {m : Type → Type} [Monad m] (fail : m (List UInt8)) (f : JSAtom → m JSAtom)
    (op : UInt8) (size : ℕ) (code : List UInt8) : m (List UInt8) :=
  if op.toNat ∈ atomOpcodes then
    if code.length < 4 then fail
    else do
      let a ← f (BitVec.ofNat 32 (littleEndian (code.take 4)))
      return toLittleEndian 4 a.toNat ++ (code.take (size - 1)).drop 4
  else return code.take (size - 1)

/-- The loop over the code in `JS_WriteFunctionBytecode` and `JS_ReadFunctionBytecode`. -/
def mapAtoms {m : Type → Type} [Monad m] (fail : m (List UInt8)) (f : JSAtom → m JSAtom) :
    ℕ → List UInt8 → m (List UInt8)
  | _, [] => return []
  | 0, _ :: _ => fail
  | fuel + 1, op :: code =>
    match opcodeSizes[op.toNat]? with
    | none => fail
    | some size => do
      let args ← mapOperands fail f op size code
      let rest ← mapAtoms fail f fuel (code.drop (size - 1))
      return op :: args ++ rest

/-- `JS_ReadFunctionBytecode`. -/
def readFunctionBytecode (names : List JSAtom) (len : ℕ) : Read (List UInt8) := do
  let code ← getBuf len
  mapAtoms outside (bcIdxToAtom names) code.length code

/-! ## The reader -/

/-- `bc_get_leb128_u16`. -/
def getLeb128U16 : Read (BitVec 16) := do
  let v ← getLeb128
  return v.setWidth 16

/-- `bc_get_sleb128`. -/
def getSleb128 : Read (BitVec 32) := do
  let v ← getLeb128
  return v >>> 1 ^^^ -(v &&& 1#32)

/-- One entry of `b->vardefs`. -/
def getVarDef (names : List JSAtom) : Read VarDef := do
  let varName ← bcGetAtom names
  let scopeLevel ← getLeb128
  let scopeNext ← getLeb128
  let v8 ← getU8
  let flag (idx : ℕ) : Bool := getFlag v8.toNat idx 1 = 1
  return ⟨varName, scopeLevel, scopeNext - 1, BitVec.ofNat 4 (getFlag v8.toNat 0 4), flag 4, flag 5,
    flag 6, flag 7⟩

/-- One entry of `b->closure_var`. -/
def getClosureVar (names : List JSAtom) : Read ClosureVar := do
  let varName ← bcGetAtom names
  let varIdx ← getLeb128
  let v8 ← getU8
  let flag (idx : ℕ) : Bool := getFlag v8.toNat idx 1 = 1
  return ⟨varName, varIdx.setWidth 16, flag 0, flag 1, flag 2, flag 3,
    BitVec.ofNat 3 (getFlag v8.toNat 4 4)⟩

/-- The debug information. -/
def getDebug (names : List JSAtom) : Read DebugInfo := do
  let filename ← bcGetAtom names
  let lineNum ← getLeb128
  let len ← getLeb128Int
  let pc2lineBuf ← getBuf len
  return ⟨filename, lineNum, pc2lineBuf⟩

/-- The debug information, if the flags of the function say that there is some. -/
def getDebug? (names : List JSAtom) (hasDebug : Bool) : Read (Option DebugInfo) :=
  if hasDebug then do
    let debug ← getDebug names
    return some debug
  else return none

/-- `BC_TAG_FUNCTION_BYTECODE`; `item` reads an entry of the constant pool. -/
def getFunction (names : List JSAtom) (item : Read BCObject) : Read BCObject := do
  let bytes ← getBuf 2
  let v16 := littleEndian bytes
  let flag (idx : ℕ) : Bool := getFlag v16 idx 1 = 1
  let jsMode ← getU8
  let funcName ← bcGetAtom names
  let argCount ← getLeb128U16
  let varCount ← getLeb128U16
  let definedArgCount ← getLeb128U16
  let stackSize ← getLeb128U16
  let closureVarCount ← getLeb128Int
  let cpoolCount ← getLeb128Int
  let byteCodeLen ← getLeb128Int
  let localCount ← getLeb128Int
  halfRead do
    let vardefs ← replicate (getVarDef names) localCount
    let closureVar ← replicate (getClosureVar names) closureVarCount
    let byteCode ← readFunctionBytecode names byteCodeLen
    let debug ← getDebug? names (flag 10)
    let cpool ← replicate item cpoolCount
    return .function ⟨flag 0, flag 1, flag 2, flag 3, BitVec.ofNat 2 (getFlag v16 4 2), flag 6, flag 7,
      flag 8, flag 9, jsMode, funcName, argCount, varCount, definedArgCount, stackSize, vardefs,
      closureVar, byteCode, debug⟩ cpool

/-- One entry of `m->export_entries`. -/
def getExport (names : List JSAtom) : Read ExportEntry := do
  let exportType ← getU8
  let idx ← getLeb128
  if h : exportType ≠ 0 then do
    let localName ← bcGetAtom names
    let exportName ← bcGetAtom names
    return .indirect exportType h idx localName exportName
  else do
    let exportName ← bcGetAtom names
    return .loc idx exportName

/-- One entry of `m->import_entries`. -/
def getImport (names : List JSAtom) : Read ImportEntry := do
  let varIdx ← getLeb128
  let importName ← bcGetAtom names
  let reqModuleIdx ← getLeb128
  return ⟨varIdx, importName, reqModuleIdx⟩

/-- `BC_TAG_MODULE`; `item` reads the function of the module. -/
def getModule (names : List JSAtom) (item : Read BCObject) : Read BCObject := do
  let moduleName ← bcGetAtom names
  let reqCount ← getLeb128Int
  let reqModuleEntries ← replicate (bcGetAtom names) reqCount
  let exportCount ← getLeb128Int
  let exportEntries ← replicate (getExport names) exportCount
  let starCount ← getLeb128Int
  let starExportEntries ← replicate getLeb128 starCount
  let importCount ← getLeb128Int
  let importEntries ← replicate (getImport names) importCount
  let func ← item
  return .module ⟨moduleName, reqModuleEntries, exportEntries, starExportEntries, importEntries⟩ func

/-- A property of an object. -/
def getProp (names : List JSAtom) (item : Read BCObject) : Read (JSAtom × BCObject) := do
  let a ← bcGetAtom names
  let v ← item
  return (a, v)

/-- The `switch` of `JS_ReadObjectRec`, without `CONFIG_BIGNUM`; `item` reads an object. -/
def getTagged (names : List JSAtom) (item : Read BCObject) (tag : UInt8) : Read BCObject :=
  match tag.toNat with
  | 1 => return .null
  | 2 => return .undefined
  | 3 => return .bool false
  | 4 => return .bool true
  | 5 => do
    let i ← getSleb128
    return .int32 i
  | 6 => do
    let bytes ← getBuf 8
    return .float64 (BitVec.ofNat 64 (littleEndian bytes))
  | 7 => do
    let data ← getString
    return .string data
  | 8 => do
    let count ← getLeb128
    let props ← replicate (getProp names item) count.toNat
    return .object props
  | 9 => do
    let len ← getLeb128
    let elems ← replicate item len.toNat
    return .array elems
  | 12 => do
    let len ← getLeb128
    let elems ← replicate item len.toNat
    let raw ← item
    return .template elems raw
  | 13 => getFunction names item
  | 14 => getModule names item
  | _ => throw "invalid tag (tag=%d pos=%u)"

/-- `JS_ReadObjectRec`.  Each level takes a byte, so the length of the buffer is fuel enough. -/
def getObjectRec (names : List JSAtom) : ℕ → Read BCObject
  | 0 => outside
  | fuel + 1 => do
    let tag ← getU8
    getTagged names (getObjectRec names fuel) tag

/-- `JS_ReadObject`: the object, and the atom table in which its names are. -/
def getObject (bytecode : List UInt8) (t : AtomTable) : Eval (BCObject × AtomTable) := do
  let ((names, t), rest) ← readObjectAtoms t bytecode
  let (v, _) ← getObjectRec names (rest.length + 1) rest
  return (v, t)

/-- `JS_ReadObject`: the functions of the target. -/
def readObject (bytecode : List UInt8) (t : AtomTable) : Eval (List LoadedFunction) := do
  let (v, _) ← getObject bytecode t
  return v.functions

/-! ## The functions of an object -/

theorem BCObject.functionsOfList_eq (vs : List BCObject) :
    functionsOfList vs = vs.flatMap functions := by
  induction vs with
  | nil => rfl
  | cons v vs ih => rw [functionsOfList, List.flatMap_cons, ih]

theorem BCObject.functionsOfProps_eq (props : List (JSAtom × BCObject)) :
    functionsOfProps props = props.flatMap fun p => p.2.functions := by
  induction props with
  | nil => rfl
  | cons p props ih =>
      obtain ⟨a, v⟩ := p
      rw [functionsOfProps, List.flatMap_cons, ih]

section Names

variable {names : List JSAtom} {P : JSAtom → Prop}

/-- The functions in an object have names of a given kind. -/
def BCObject.Named (P : JSAtom → Prop) (v : BCObject) : Prop := ∀ f ∈ v.functions, P f.funcName

theorem Read.Ensures.replicate {α : Type} {r : Read α} {Q : α → Prop} (h : r.Ensures Q) (n : ℕ) :
    Ensures (Wire.replicate r n) fun xs => ∀ x ∈ xs, Q x := by
  induction n with
  | zero => exact Ensures.pure (by simp)
  | succ n ih =>
      refine h.bind fun x hx => ih.bind fun xs hxs => Ensures.pure fun y hy => ?_
      rcases List.mem_cons.mp hy with rfl | hy
      · exact hx
      · exact hxs y hy

theorem named_functionsOfList {vs : List BCObject} (h : ∀ v ∈ vs, v.Named P) :
    ∀ f ∈ BCObject.functionsOfList vs, P f.funcName := by
  intro f hf
  rw [BCObject.functionsOfList_eq] at hf
  obtain ⟨v, hv, hf⟩ := List.mem_flatMap.mp hf
  exact h v hv f hf

theorem getFunction_ensures (hconst : ∀ a, atomIsConst a = true → P a) (hnames : ∀ a ∈ names, P a)
    {item : Read BCObject} (hitem : item.Ensures (BCObject.Named P)) :
    (getFunction names item).Ensures (BCObject.Named P) := by
  rw [getFunction]
  refine Ensures.after _ fun _ => Ensures.after _ fun _ =>
    (bcGetAtom_ensures hconst hnames).bind fun name hname => ?_
  refine Ensures.after _ fun _ => Ensures.after _ fun _ => Ensures.after _ fun _ =>
    Ensures.after _ fun _ => ?_
  refine Ensures.after _ fun _ => Ensures.after _ fun _ => Ensures.after _ fun _ =>
    Ensures.after _ fun _ => Ensures.halfRead ?_
  refine Ensures.after _ fun _ => Ensures.after _ fun _ => Ensures.after _ fun _ =>
    Ensures.after _ fun _ => ?_
  refine (Ensures.replicate hitem _).bind fun cpool hcpool => Ensures.pure fun f hf => ?_
  rw [BCObject.functions] at hf
  rcases List.mem_cons.mp hf with rfl | hf
  · exact hname
  · exact named_functionsOfList hcpool f hf

theorem getModule_ensures {item : Read BCObject} (hitem : item.Ensures (BCObject.Named P)) :
    (getModule names item).Ensures (BCObject.Named P) := by
  rw [getModule]
  refine Ensures.after _ fun _ => Ensures.after _ fun _ => Ensures.after _ fun _ =>
    Ensures.after _ fun _ => ?_
  refine Ensures.after _ fun _ => Ensures.after _ fun _ => Ensures.after _ fun _ =>
    Ensures.after _ fun _ => Ensures.after _ fun _ => ?_
  exact hitem.bind fun func hfunc => Ensures.pure fun f hf => hfunc f hf

/-- **The names of the functions in an object** are predefined, integers or of the file. -/
theorem getObjectRec_ensures (hconst : ∀ a, atomIsConst a = true → P a)
    (hnames : ∀ a ∈ names, P a) (fuel : ℕ) :
    (getObjectRec names fuel).Ensures (BCObject.Named P) := by
  induction fuel with
  | zero => exact Ensures.outside
  | succ fuel ih =>
      have hnone : ∀ {v : BCObject}, v.functions = [] →
          (pure v : Read BCObject).Ensures (BCObject.Named P) := fun hv => Ensures.pure fun f hf => by
        rw [hv] at hf
        simp at hf
      rw [getObjectRec]
      refine Ensures.after getU8 fun tag => ?_
      rw [getTagged]
      split
      · exact hnone rfl
      · exact hnone rfl
      · exact hnone rfl
      · exact hnone rfl
      · exact Ensures.after _ fun _ => hnone rfl
      · exact Ensures.after _ fun _ => hnone rfl
      · exact Ensures.after _ fun _ => hnone rfl
      · have hprop : (getProp names (getObjectRec names fuel)).Ensures fun p => p.2.Named P :=
          Ensures.after _ fun _ => ih.bind fun v hv => Ensures.pure hv
        refine Ensures.after _ fun _ => (Ensures.replicate hprop _).bind fun props hprops =>
          Ensures.pure fun f hf => ?_
        rw [BCObject.functions, BCObject.functionsOfProps_eq] at hf
        obtain ⟨p, hp, hf⟩ := List.mem_flatMap.mp hf
        exact hprops p hp f hf
      · refine Ensures.after _ fun _ => (Ensures.replicate ih _).bind fun elems helems =>
          Ensures.pure fun f hf => ?_
        rw [BCObject.functions] at hf
        exact named_functionsOfList helems f hf
      · refine Ensures.after _ fun _ => (Ensures.replicate ih _).bind fun elems helems =>
          ih.bind fun raw hraw => Ensures.pure fun f hf => ?_
        rw [BCObject.functions] at hf
        rcases List.mem_append.mp hf with hf | hf
        · exact named_functionsOfList helems f hf
        · exact hraw f hf
      · exact getFunction_ensures hconst hnames ih
      · exact getModule_ensures ih
      · exact Ensures.throw _

end Names

/-- **The names of the functions of the target** are alive in the table in which the strings of
the file have been made atoms. -/
theorem readObject_named {bytecode : List UInt8} {t : AtomTable} {fs : List LoadedFunction}
    (hsize : t.size ≤ atomMax) (h : readObject bytecode t = .ok fs) :
    ∃ names t' rest, readObjectAtoms t bytecode = .ok ((names, t'), rest) ∧ t.Keeps t' ∧
      ∀ f ∈ fs, Alive t' f.funcName := by
  obtain ⟨⟨v, t₁⟩, hget, heq⟩ := Eval.bind_eq_ok.mp h
  obtain rfl : v.functions = fs := Eval.ok.inj heq
  obtain ⟨⟨⟨names, t'⟩, rest⟩, hatoms, hrest⟩ := Eval.bind_eq_ok.mp hget
  obtain ⟨⟨w, rest'⟩, hrec, hpair⟩ := Eval.bind_eq_ok.mp hrest
  obtain rfl : w = v := (Prod.mk.inj (Eval.ok.inj hpair)).1
  obtain ⟨hkeeps, halive⟩ := readObjectAtoms_named hsize bytecode _ rest hatoms
  exact ⟨names, t', rest, hatoms, hkeeps,
    getObjectRec_ensures (fun _ => Or.inl) halive _ rest _ rest' hrec⟩

/-! ## The length of code -/

section Length

variable {names : List JSAtom}

theorem atomOpcodes_size {op size : ℕ} (hop : op ∈ atomOpcodes) (h : opcodeSizes[op]? = some size) :
    5 ≤ size := by
  have hall : ∀ op ∈ atomOpcodes, ∀ size ∈ opcodeSizes[op]?, 5 ≤ size := by decide
  exact hall op hop size h

theorem length_toLittleEndian (n v : ℕ) : (toLittleEndian n v).length = n := by
  induction n generalizing v with
  | zero => rfl
  | succ n ih => rw [toLittleEndian, List.length_cons, ih]

/-- Code is as long as it was. -/
theorem mapAtoms_length (f : JSAtom → Read JSAtom) (fuel : ℕ) : ∀ code : List UInt8,
    (mapAtoms outside f fuel code).Ensures fun code' => code'.length = code.length := by
  induction fuel with
  | zero =>
      intro code
      cases code with
      | nil => exact Ensures.pure rfl
      | cons op code => exact Ensures.outside
  | succ fuel ih =>
      intro code
      cases code with
      | nil => exact Ensures.pure rfl
      | cons op code =>
          rw [mapAtoms]
          cases hsize : opcodeSizes[op.toNat]? with
          | none => exact Ensures.outside
          | some size =>
              have hargs : (mapOperands outside f op size code).Ensures
                  fun args => args.length = min (size - 1) code.length := by
                rw [mapOperands]
                split
                · rename_i hop
                  have hfive := atomOpcodes_size hop hsize
                  split
                  · exact Ensures.outside
                  · refine Ensures.after _ fun a => Ensures.pure ?_
                    rw [List.length_append, length_toLittleEndian, List.length_drop, List.length_take]
                    omega
                · exact Ensures.pure (List.length_take ..)
              refine hargs.bind fun args hlen => (ih _).bind fun rest hrest => Ensures.pure ?_
              rw [List.length_drop] at hrest
              simp only [List.length_append, List.length_cons]
              omega

theorem getBuf_length (len : ℕ) : (getBuf len).Ensures fun bytes => bytes.length = len := by
  intro rest bytes rest' h
  rw [getBuf] at h
  split at h
  · exact absurd h (by simp [errorEnd])
  · rename_i hlen
    have heq := Eval.ok.inj h
    rw [← (Prod.mk.inj heq).1, List.length_take]
    omega

theorem readFunctionBytecode_length (len : ℕ) :
    (readFunctionBytecode names len).Ensures fun code => code.length = len := by
  refine (getBuf_length len).bind fun code hcode => ?_
  rw [← hcode]
  exact mapAtoms_length _ _ code

end Length

end Engine
end FuzzerJs
