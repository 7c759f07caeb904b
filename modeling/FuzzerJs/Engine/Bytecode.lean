import FuzzerJs.Engine.Atoms

/-!
# Instructions

The part of the instruction set that the code of a list of `var` declarations consists
of, in its three phases: as the parser emits it, as `resolve_variables` leaves it, and
with the short instructions that `resolve_labels` puts in.  Sizes and stack effects are
those of `quickjs-opcode.h`.
-/

namespace FuzzerJs
namespace Engine

/-! ## Outcomes -/

/-- How a part of an evaluation ends. -/
inductive Eval (α : Type) where
  | ok (a : α)
  /-- An exception is pending. -/
  | exception (message : String)
  /-- The script leaves the fragment that is modelled, or memory runs out. -/
  | outside
  deriving DecidableEq

namespace Eval

variable {α β : Type}

/-- Go on with the result, if there is one. -/
def bind (x : Eval α) (f : α → Eval β) : Eval β :=
  match x with
  | ok a => f a
  | exception message => exception message
  | outside => outside

instance : Monad Eval where
  pure := ok
  bind := bind

@[simp]
theorem pure_eq (a : α) : (pure a : Eval α) = ok a := rfl

@[simp]
theorem ok_bind (a : α) (f : α → Eval β) : (ok a >>= f) = f a := rfl

@[simp]
theorem exception_bind (message : String) (f : α → Eval β) :
    (exception message >>= f) = exception message := rfl

@[simp]
theorem outside_bind (f : α → Eval β) : (outside >>= f) = outside := rfl

/-- A computation in two parts gives a result exactly when both parts do. -/
theorem bind_eq_ok {x : Eval α} {f : α → Eval β} {b : β} :
    (x >>= f) = ok b ↔ ∃ a, x = ok a ∧ f a = ok b := by
  cases x with
  | ok a => simp
  | exception message => simp
  | outside => simp

instance : LawfulMonad Eval :=
  LawfulMonad.mk' Eval (fun x => by cases x <;> rfl) (fun _ _ => rfl)
    fun x _ _ => by cases x <;> rfl

/-- There is no result. -/
def Fails (x : Eval α) : Prop := ∀ a, x ≠ ok a

theorem outside_fails : (outside : Eval α).Fails := fun _ => by simp

theorem Fails.bind {x : Eval α} (h : x.Fails) (f : α → Eval β) : (x >>= f).Fails := by
  intro b hb
  obtain ⟨a, ha, -⟩ := bind_eq_ok.mp hb
  exact h a ha

end Eval

/-! ## Instructions -/

/-- An instruction with its operands. -/
inductive Instr where
  /-- Debug information, only in the first two phases. -/
  | lineNum (n : ℕ)
  /-- Only in the first phase, as are `scopeGetVar` and `scopeMakeRef`. -/
  | enterScope (scope : ℕ)
  | scopeGetVar (atom : JSAtom) (scope : ℕ)
  | scopeMakeRef (atom : JSAtom) (label scope : ℕ)
  /-- Only in the first two phases. -/
  | label (label : ℕ)
  | checkDefineVar (atom : JSAtom) (flags : BitVec 8)
  | defineVar (atom : JSAtom) (flags : BitVec 8)
  | getVar (atom : JSAtom)
  | putVar (atom : JSAtom)
  | makeVarRef (atom : JSAtom)
  | pushI32 (v : ℤ)
  | pushConst (idx : ℕ)
  | pushAtomValue (atom : JSAtom)
  | arrayFrom (argc : ℕ)
  | defineField (atom : JSAtom)
  | putField (atom : JSAtom)
  | callConstructor (argc : ℕ)
  | dup
  | drop
  | insert3
  | putRefValue
  | nop
  | getLoc (idx : ℕ)
  | ret
  /-- `push_minus1`, `push_0`, ..., `push_7`. -/
  | pushShort (v : ℤ)
  | pushI8 (v : ℤ)
  | pushI16 (v : ℤ)
  | pushConst8 (idx : ℕ)
  | pushEmptyString
  /-- `get_loc0`, ..., `get_loc3`. -/
  | getLocShort (idx : ℕ)
  | getLoc8 (idx : ℕ)
  deriving DecidableEq

namespace Instr

/-- The size in bytes. -/
def size : Instr → ℕ
  | lineNum _ => 5
  | enterScope _ => 3
  | scopeGetVar _ _ => 7
  | scopeMakeRef _ _ _ => 11
  | label _ => 5
  | checkDefineVar _ _ => 6
  | defineVar _ _ => 6
  | getVar _ => 5
  | putVar _ => 5
  | makeVarRef _ => 5
  | pushI32 _ => 5
  | pushConst _ => 5
  | pushAtomValue _ => 5
  | arrayFrom _ => 3
  | defineField _ => 5
  | putField _ => 5
  | callConstructor _ => 3
  | dup => 1
  | drop => 1
  | insert3 => 1
  | putRefValue => 1
  | nop => 1
  | getLoc _ => 3
  | ret => 1
  | pushShort _ => 1
  | pushI8 _ => 2
  | pushI16 _ => 3
  | pushConst8 _ => 2
  | pushEmptyString => 1
  | getLocShort _ => 1
  | getLoc8 _ => 2

/-- `n_pop`, with the operand of the instructions that take a variable number of values. -/
def nPop : Instr → ℕ
  | arrayFrom argc => argc
  | callConstructor argc => argc + 2
  | defineField _ => 2
  | putField _ => 2
  | putVar _ => 1
  | dup => 1
  | drop => 1
  | insert3 => 3
  | putRefValue => 3
  | ret => 1
  | _ => 0

/-- `n_push`. -/
def nPush : Instr → ℕ
  | dup => 2
  | insert3 => 4
  | makeVarRef _ => 2
  | scopeMakeRef _ _ _ => 2
  | scopeGetVar _ _ => 1
  | getVar _ => 1
  | pushI32 _ => 1
  | pushConst _ => 1
  | pushAtomValue _ => 1
  | arrayFrom _ => 1
  | defineField _ => 1
  | callConstructor _ => 1
  | getLoc _ => 1
  | pushShort _ => 1
  | pushI8 _ => 1
  | pushI16 _ => 1
  | pushConst8 _ => 1
  | pushEmptyString => 1
  | getLocShort _ => 1
  | getLoc8 _ => 1
  | _ => 0

/-- The atom that the instruction owns a reference to. -/
def atom? : Instr → Option JSAtom
  | scopeGetVar a _ => some a
  | scopeMakeRef a _ _ => some a
  | checkDefineVar a _ => some a
  | defineVar a _ => some a
  | getVar a => some a
  | putVar a => some a
  | makeVarRef a => some a
  | pushAtomValue a => some a
  | defineField a => some a
  | putField a => some a
  | _ => none

end Instr

/-- The size of a piece of code, as in `byte_code.size`. -/
def codeSize (code : List Instr) : ℕ := (code.map Instr.size).sum

@[simp]
theorem codeSize_nil : codeSize [] = 0 := rfl

@[simp]
theorem codeSize_cons (i : Instr) (code : List Instr) :
    codeSize (i :: code) = i.size + codeSize code := by
  simp [codeSize]

@[simp]
theorem codeSize_append (code code' : List Instr) :
    codeSize (code ++ code') = codeSize code + codeSize code' := by
  simp [codeSize]

/-! ## Functions under construction -/

/-- The fields of `JSFunctionDef` that the fragment uses. -/
structure FunctionDef where
  funcName : JSAtom
  filename : JSAtom
  byteCode : List Instr
  /-- `last_opcode_pos`, with `none` for `-1`. -/
  lastOpcodePos : Option ℕ
  lastOpcodeLineNum : ℕ
  scopeLevel : ℕ
  /-- The names of the local variables, all of scope level 0. -/
  vars : List JSAtom
  /-- The names of the global variables that the code declares with `var`. -/
  hoistedDefs : List JSAtom
  labelCount : ℕ
  cpool : List JSValue

/-- `js_new_function_def` for a script, with the file name already made an atom. -/
def FunctionDef.new (filename : JSAtom) : FunctionDef :=
  ⟨atomEval, filename, [], none, 1, 0, [], [], 0, []⟩

/-- `get_prev_opcode`.  The position is kept in an `int`, so that in a buffer of `2 ^ 31` bytes or
more it is negative. -/
def FunctionDef.prevOpcode (fd : FunctionDef) : Option Instr :=
  match fd.lastOpcodePos with
  | some pos => if pos % 2 ^ 32 < 2 ^ 31 then fd.byteCode.getLast? else none
  | none => none

/-- `JSFunctionBytecode`. -/
structure FunctionBytecode where
  funcName : JSAtom
  filename : JSAtom
  byteCode : List Instr
  vardefs : List JSAtom
  cpool : List JSValue
  stackSize : ℕ

end Engine
end FuzzerJs
