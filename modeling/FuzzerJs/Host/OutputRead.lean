import FuzzerJs.Engine.GlobalVar
import FuzzerJs.Host.Files
import FuzzerJs.Host.Output

/-!
# The target and the read of `FuzzerOutput`

`JS::Run` declares `FuzzerOutput` with a script of its own before it loads the target, and
reads the variable after the target and its pending jobs have finished.  Between the two
the target may do to the global object whatever it likes.  Since the script is global
code, its `var` is not configurable, and the read is safe: it finds a data property, so
it runs no code of the target and cannot fail (`output_read_safe`).
-/

namespace FuzzerJs
namespace Host

open Engine

/-- What the script of `JS::Run` does to the global objects when it is run: the two checks, the
two declarations, and the assignment of the input it has built. -/
def evalHeader (r : Realm) (fuzzerOutput fuzzerInput : JSAtom) (input : JSValue) :
    Except JSError Realm := do
  checkDefineGlobalVar r fuzzerOutput 0#8
  checkDefineGlobalVar r fuzzerInput 0#8
  let r := defineGlobalVar r fuzzerOutput 0#8
  let r := defineGlobalVar r fuzzerInput 0#8
  let (result, r) := setGlobalVar r fuzzerInput input .write false .absent (.ok true)
  let _ ← result
  return r

/-- The end of `JS::Run`: `JS_GetPropertyStr` on the global object, `exit(1)` on an exception,
and the extraction.  `inherited` is what the prototypes answer for a name that the object does
not have, `call` what a getter returns. -/
def readOutput (r : Realm) (fuzzerOutput : JSAtom) (inherited : ReadResult)
    (call : ℕ → Except JSError JSValue) : Outcome (Option (List UInt8)) :=
  match getProperty r.globalObj fuzzerOutput inherited with
  | .value v => .ok (runOutput v)
  | .calls getter =>
    match call getter with
    | .ok v => .ok (runOutput v)
    | .error _ => .exit 1
  | .error _ => .exit 1

/-- The script succeeds on a fresh realm, and leaves `FuzzerOutput` pinned. -/
theorem evalHeader_pinned {r : Realm} {fuzzerOutput fuzzerInput : JSAtom}
    (hout : Undeclared r fuzzerOutput) (hin : Undeclared r fuzzerInput)
    (hne : fuzzerOutput ≠ fuzzerInput) (input : JSValue) :
    ∃ r', evalHeader r fuzzerOutput fuzzerInput input = .ok r' ∧
      Pinned r'.globalObj fuzzerOutput := by
  have hin' := hin.define_other hne.symm hout
  have hpin := defineGlobalVar_pinned hout.define_pinned fuzzerInput 0#8
  have hset := setGlobalVar_pinned hpin fuzzerInput input .write false .absent (.ok true)
  have hres : (setGlobalVar (defineGlobalVar (defineGlobalVar r fuzzerOutput 0#8) fuzzerInput 0#8)
      fuzzerInput input .write false .absent (.ok true)).1 = .ok true := by
    rw [hin'.define]
    simp [setGlobalVar, hin'.lexical, setProperty]
  refine ⟨_, ?_, hset⟩
  rw [evalHeader, hout.check, hin.check]
  exact congrArg (fun res : Result => res.bind fun _ => Except.ok _) hres

/-- **The target cannot booby-trap the output read.**  After the script of `JS::Run`, every
sequence of operations on the global objects leaves `FuzzerOutput` an own, non-configurable data
property; so the read at the end gives a value, whatever the prototypes and getters of the
target are, and `JS::Run` reaches its extraction and not `exit(1)`. -/
theorem output_read_safe (sameValue : JSValue → JSValue → Bool) {r : Realm}
    {fuzzerOutput fuzzerInput : JSAtom} (hout : Undeclared r fuzzerOutput)
    (hin : Undeclared r fuzzerInput) (hne : fuzzerOutput ≠ fuzzerInput) (input : JSValue) :
    ∃ r₁, evalHeader r fuzzerOutput fuzzerInput input = .ok r₁ ∧
      ∀ (ops : List GlobalOp) (inherited : ReadResult) (call : ℕ → Except JSError JSValue),
        let r₂ := Machine.run (GlobalOp.step sameValue) ops r₁
        Pinned r₂.globalObj fuzzerOutput ∧
        ∃ v, getProperty r₂.globalObj fuzzerOutput inherited = .value v ∧
          readOutput r₂ fuzzerOutput inherited call = .ok (runOutput v) := by
  obtain ⟨r₁, hrun, hpin⟩ := evalHeader_pinned hout hin hne input
  refine ⟨r₁, hrun, fun ops inherited call => ?_⟩
  have hpin₂ := run_pinned sameValue ops r₁ hpin
  obtain ⟨v, hv⟩ := hpin₂.getProperty inherited
  exact ⟨hpin₂, v, hv, by rw [readOutput, hv]⟩

/-- A realm with nothing in it. -/
def emptyRealm : Realm := ⟨⟨fun _ => none, true, none⟩, fun _ => none⟩

/-- Attempts to give `FuzzerOutput` a getter, to delete it and to hide it behind a prototype, none
of which changes the read. -/
theorem output_read_safe_getter :
    ∃ r₁, evalHeader emptyRealm 196#32 197#32 .null = .ok r₁ ∧
      ∃ v, getProperty (Machine.run (GlobalOp.step fun _ _ => false)
        [.defineProperty 196#32 ⟨false, false, false, true, false, false, false, false, false,
          true, .undefined, some 7, none⟩, .deleteProperty 196#32 false, .preventExtensions,
          .setPrototype (some 3) false false] r₁).globalObj 196#32 (.calls 0) = .value v := by
  have hout : Undeclared emptyRealm 196#32 := ⟨rfl, rfl, rfl⟩
  have hin : Undeclared emptyRealm 197#32 := ⟨rfl, rfl, rfl⟩
  obtain ⟨r₁, hrun, h⟩ := output_read_safe (fun _ _ => false) hout hin (by decide) .null
  obtain ⟨-, v, hv, -⟩ := h _ (.calls 0) (fun _ => .ok .undefined)
  exact ⟨r₁, hrun, v, hv⟩

end Host
end FuzzerJs
