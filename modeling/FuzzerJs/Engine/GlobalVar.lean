import FuzzerJs.Engine.GlobalObject

/-!
# Global variables

`JS_CheckDefineGlobalVar`, `JS_DefineGlobalVar`, `JS_DefineGlobalFunction`,
`JS_SetGlobalVar` and `JS_GetGlobalVar`, over the pair of objects that hold global names,
and the machine whose actions are all the operations of a program on that pair
(`GlobalOp`).  `run_pinned` is its invariant: no sequence of operations unpins a
property of the global object.
-/

namespace FuzzerJs
namespace Engine

/-! ## The two objects -/

/-- A lexical declaration.  `JS_DefineGlobalVar` is the only function that adds one, as a
configurable property of type `JS_PROP_NORMAL`. -/
structure LexVar where
  writable : Bool
  value : JSValue
  deriving DecidableEq

/-- `ctx->global_obj` and `ctx->global_var_obj`. -/
structure Realm where
  globalObj : Obj
  globalVarObj : JSAtom → Option LexVar

/-- `DEFINE_GLOBAL_LEX_VAR`. -/
def isLexVar (flags : BitVec 8) : Bool := flags.getLsbD 7

/-- `DEFINE_GLOBAL_FUNC_VAR`. -/
def isFuncVar (flags : BitVec 8) : Bool := flags.getLsbD 6

/-- `JS_PROP_WRITABLE` in the operand of `OP_define_var`. -/
def isWritable (flags : BitVec 8) : Bool := flags.getLsbD 1

/-- `JS_PROP_CONFIGURABLE` in the operand of `OP_define_var` and `OP_define_func`. -/
def isConfigurable (flags : BitVec 8) : Bool := flags.getLsbD 0

/-- The test of an existing property that a function declaration cannot take over. -/
def blocksFunction (p : Property) : Bool :=
  !p.flags.configurable && (p.slot.isGetset || !(p.flags.writable && p.flags.enumerable))

/-- `JS_CheckDefineGlobalVar`. -/
def checkDefineGlobalVar (r : Realm) (prop : JSAtom) (flags : BitVec 8) : Except JSError Unit :=
  let redeclaration : Except JSError Unit :=
    .error ⟨.syntaxError, "redeclaration of %s", some prop⟩
  let cannotDefine : Except JSError Unit :=
    .error ⟨.typeError, "cannot define variable %s", some prop⟩
  let checkLexical : Except JSError Unit :=
    match r.globalVarObj prop with
    | some _ => redeclaration
    | none => .ok ()
  match r.globalObj.props prop with
  | some p =>
    if isLexVar flags then if !p.flags.configurable then redeclaration else checkLexical
    else if isFuncVar flags && blocksFunction p then cannotDefine
    else checkLexical
  | none =>
    if !isLexVar flags && !r.globalObj.extensible then cannotDefine else checkLexical

/-- `JS_DefineGlobalVar`. -/
def defineGlobalVar (r : Realm) (prop : JSAtom) (flags : BitVec 8) : Realm :=
  if isLexVar flags then
    match r.globalVarObj prop with
    | some _ => r
    | none =>
      { r with globalVarObj :=
          Function.update r.globalVarObj prop (some ⟨isWritable flags, .uninitialized⟩) }
  else
    match r.globalObj.props prop with
    | some _ => r
    | none =>
      if !r.globalObj.extensible then r
      else
        let p : Property := ⟨⟨isConfigurable flags, true, true⟩, .normal .undefined⟩
        { r with globalObj := r.globalObj.put prop p }

/-- The descriptor of `JS_DefineGlobalFunction`. -/
def functionDescriptor (old : Option Property) (func : JSValue) (flags : BitVec 8) :
    Descriptor :=
  let replace : Bool :=
    match old with
    | none => true
    | some p => p.flags.configurable
  ⟨replace, replace, replace, false, false, true, replace && isConfigurable flags, replace,
    replace, true, func, none, none⟩

/-- `JS_DefineGlobalFunction`. -/
def defineGlobalFunction (sameValue : JSValue → JSValue → Bool) (r : Realm) (prop : JSAtom)
    (func : JSValue) (flags : BitVec 8) : Result × Realm :=
  let d := functionDescriptor (r.globalObj.props prop) func flags
  let (result, o) := defineProperty sameValue r.globalObj prop d
  (result, { r with globalObj := o })

/-- The argument `flag` of `JS_SetGlobalVar`. -/
inductive SetFlag where
  /-- Normal variable write. -/
  | write
  /-- Initialize lexical variable. -/
  | init
  /-- Normal variable write, strict check was done before. -/
  | checked
  deriving DecidableEq

/-- `JS_SetGlobalVar`; `strict` is the mode of the running function. -/
def setGlobalVar (r : Realm) (prop : JSAtom) (val : JSValue) (flag : SetFlag) (strict : Bool)
    (inherited : Inherited) (setterResult : Result) : Result × Realm :=
  match r.globalVarObj prop with
  | some v =>
    if flag ≠ .init && v.value = .uninitialized then
      (.error ⟨.referenceError, "%s is not initialized", some prop⟩, r)
    else if flag ≠ .init && !v.writable then (typeErrorReadOnly true prop, r)
    else
      (.ok false,
        { r with globalVarObj := Function.update r.globalVarObj prop (some ⟨v.writable, val⟩) })
  | none =>
    let noAdd := flag ≠ .checked && strict
    let (result, o) := setProperty r.globalObj prop val strict noAdd inherited setterResult
    (result, { r with globalObj := o })

/-- `JS_GetGlobalVar`. -/
def getGlobalVar (r : Realm) (prop : JSAtom) (inherited : ReadResult) : ReadResult :=
  match r.globalVarObj prop with
  | some v =>
    if v.value = .uninitialized then
      .error ⟨.referenceError, "%s is not initialized", some prop⟩
    else .value v.value
  | none => getProperty r.globalObj prop inherited

/-! ## Everything a program can do to them -/

/-- One operation on the global objects.  What depends on the rest of the heap (prototypes,
the results of setters, the mode of the running function) is part of the operation. -/
inductive GlobalOp where
  | defineProperty (prop : JSAtom) (d : Descriptor)
  | setProperty (prop : JSAtom) (val : JSValue) (throws noAdd : Bool) (inherited : Inherited)
      (setterResult : Result)
  | setReceiver (prop : JSAtom) (val : JSValue) (throws : Bool)
  | setGlobalVar (prop : JSAtom) (val : JSValue) (flag : SetFlag) (strict : Bool)
      (inherited : Inherited) (setterResult : Result)
  | deleteProperty (prop : JSAtom) (throws : Bool)
  | checkDefineGlobalVar (prop : JSAtom) (flags : BitVec 8)
  | defineGlobalVar (prop : JSAtom) (flags : BitVec 8)
  | defineGlobalFunction (prop : JSAtom) (func : JSValue) (flags : BitVec 8)
  | preventExtensions
  | setPrototype (proto : Option ℕ) (circular throws : Bool)
  /-- A read, which may store the value of an automatic property. -/
  | getProperty (prop : JSAtom)

/-- What an operation does to the global objects, whether it succeeds or throws. -/
def GlobalOp.step (sameValue : JSValue → JSValue → Bool) (op : GlobalOp) (r : Realm) : Realm :=
  match op with
  | .defineProperty prop d =>
    { r with globalObj := (Engine.defineProperty sameValue r.globalObj prop d).2 }
  | .setProperty prop val throws noAdd inherited setterResult =>
    { r with globalObj :=
        (Engine.setProperty r.globalObj prop val throws noAdd inherited setterResult).2 }
  | .setReceiver prop val throws =>
    { r with globalObj := (Engine.setReceiver sameValue r.globalObj prop val throws).2 }
  | .setGlobalVar prop val flag strict inherited setterResult =>
    (Engine.setGlobalVar r prop val flag strict inherited setterResult).2
  | .deleteProperty prop throws =>
    { r with globalObj := (Engine.deleteProperty r.globalObj prop throws).2 }
  | .checkDefineGlobalVar _ _ => r
  | .defineGlobalVar prop flags => Engine.defineGlobalVar r prop flags
  | .defineGlobalFunction prop func flags =>
    (Engine.defineGlobalFunction sameValue r prop func flags).2
  | .preventExtensions => { r with globalObj := Engine.preventExtensions r.globalObj }
  | .setPrototype proto circular throws =>
    { r with globalObj := (Engine.setPrototype r.globalObj proto circular throws).2 }
  | .getProperty prop => { r with globalObj := autoInitProperty r.globalObj prop }

section Pinned

variable (sameValue : JSValue → JSValue → Bool)

theorem defineGlobalVar_pinned {r : Realm} {prop : JSAtom} (h : Pinned r.globalObj prop)
    (other : JSAtom) (flags : BitVec 8) :
    Pinned (defineGlobalVar r other flags).globalObj prop := by
  unfold defineGlobalVar
  split
  · split
    · exact h
    · exact h
  · split
    · exact h
    · rename_i hnone
      split
      · exact h
      · refine h.put_ne _ ?_
        rintro rfl
        obtain ⟨_, _, hp, -⟩ := h
        rw [hp] at hnone
        exact absurd hnone (by simp)

theorem setGlobalVar_pinned {r : Realm} {prop : JSAtom} (h : Pinned r.globalObj prop)
    (other : JSAtom) (val : JSValue) (flag : SetFlag) (strict : Bool) (inherited : Inherited)
    (setterResult : Result) :
    Pinned (setGlobalVar r other val flag strict inherited setterResult).2.globalObj prop := by
  unfold setGlobalVar
  split
  · split
    · exact h
    · split
      · exact h
      · exact h
  · exact setProperty_pinned h other val strict _ inherited setterResult

/-- One operation keeps a pinned property pinned. -/
theorem step_pinned {prop : JSAtom} (op : GlobalOp) (r : Realm)
    (h : Pinned r.globalObj prop) : Pinned (op.step sameValue r).globalObj prop := by
  cases op with
  | defineProperty other d => exact defineProperty_pinned sameValue h other d
  | setProperty other val throws noAdd inherited setterResult =>
      exact setProperty_pinned h other val throws noAdd inherited setterResult
  | setReceiver other val throws => exact setReceiver_pinned sameValue h other val throws
  | setGlobalVar other val flag strict inherited setterResult =>
      exact setGlobalVar_pinned h other val flag strict inherited setterResult
  | deleteProperty other throws => exact deleteProperty_pinned h other throws
  | checkDefineGlobalVar other flags => exact h
  | defineGlobalVar other flags => exact defineGlobalVar_pinned h other flags
  | defineGlobalFunction other func flags => exact defineProperty_pinned sameValue h other _
  | preventExtensions => exact h
  | setPrototype proto circular throws => exact setPrototype_pinned h proto circular throws
  | getProperty other => exact autoInitProperty_pinned h other

/-- **No sequence of operations unpins a property.** -/
theorem run_pinned {prop : JSAtom} (ops : List GlobalOp) (r : Realm)
    (h : Pinned r.globalObj prop) :
    Pinned (Machine.run (GlobalOp.step sameValue) ops r).globalObj prop :=
  Machine.run_invariant (fun op r => step_pinned sameValue op r) ops r h

end Pinned

/-! ## Declaring and initialising a `var` -/

/-- A name that is not declared yet, on an extensible global object. -/
structure Undeclared (r : Realm) (prop : JSAtom) : Prop where
  props : r.globalObj.props prop = none
  extensible : r.globalObj.extensible = true
  lexical : r.globalVarObj prop = none

theorem Undeclared.check {r : Realm} {prop : JSAtom} (h : Undeclared r prop) (flags : BitVec 8) :
    checkDefineGlobalVar r prop flags = .ok () := by
  simp [checkDefineGlobalVar, h.props, h.extensible, h.lexical]

/-- `OP_define_var` of a `var` that global code declares. -/
theorem Undeclared.define {r : Realm} {prop : JSAtom} (h : Undeclared r prop) :
    defineGlobalVar r prop 0#8 =
      { r with globalObj := r.globalObj.put prop ⟨⟨false, true, true⟩, .normal .undefined⟩ } := by
  simp [defineGlobalVar, isLexVar, isConfigurable, h.props, h.extensible]

theorem Undeclared.define_other {r : Realm} {prop other : JSAtom} (h : Undeclared r prop)
    (hne : prop ≠ other) (h' : Undeclared r other) :
    Undeclared (defineGlobalVar r other 0#8) prop := by
  rw [h'.define]
  exact ⟨by rw [← h.props]; exact r.globalObj.put_props_ne _ hne, h.extensible, h.lexical⟩

theorem Undeclared.define_pinned {r : Realm} {prop : JSAtom} (h : Undeclared r prop) :
    Pinned (defineGlobalVar r prop 0#8).globalObj prop := by
  rw [h.define]
  exact pinned_put_self rfl ⟨_, rfl⟩

end Engine
end FuzzerJs
