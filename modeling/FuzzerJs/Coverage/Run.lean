import FuzzerJs.Coverage.Target
import FuzzerJs.Host.OutputRead

/-!
# The whole of `JS::Run`

The script hands the input over, the bytecode is loaded and executed, the pending jobs are run,
and `FuzzerOutput` is read.  What the functions of the target do is a parameter (`Execution`);
everything around them is the code of the modules before.

* `JS.run`: the points that a call executes, and how it ends.
* `runTarget_points`: instructions that are the same by their place in the file are the same
  points, since the input does not show in the names of functions.
* `JS.run_counters`: so the counters of two calls differ by the instructions of the two scripts
  only, when the target executes the same instructions.
* `JS.run_output`: what is returned is the extraction of the value of `FuzzerOutput`.
-/

namespace FuzzerJs
namespace Host

open Engine Scan Coverage

/-- What the functions that were loaded do up to the end of `js_std_loop`: the instructions that
are executed, each by the number of its function in the file and its offset there, and the world
that is left. -/
abbrev Execution := List LoadedFunction → World → List (ℕ × ℕ) × Eval World

/-- The points of these instructions. -/
def pointsOf (fs : List LoadedFunction) (code : List (ℕ × ℕ)) : List Point :=
  code.filterMap fun p => fs[p.1]?.map fun f => (f.funcName, p.2)

/-- `js_std_eval_binary` and `js_std_loop`. -/
def runTarget (execute : Execution) (bytecode : List UInt8) (w : World) : List Point × Eval World :=
  match getObject bytecode w.atoms with
  | .ok (v, t) =>
    let (code, r) := execute v.functions { w with atoms := t }
    (pointsOf v.functions code, r)
  | .exception message => ([], .exception message)
  | .outside => ([], .outside)

/-- What the program answers when a property of the global object is read in a given world: its
prototypes, and its getters. -/
structure Answers where
  inherited : World → ReadResult
  call : World → ℕ → Except JSError JSValue

/-- The block "Extract output". -/
def extractOutput (answers : Answers) (w : World) : Eval (Outcome (Option (List UInt8))) :=
  match newAtomStr w.atoms outputName with
  | some (a, _) => .ok (readOutput w.realm a (answers.inherited w) (answers.call w))
  | none => .outside

/-- `JS::Run`: the points that it executes, and how it ends; an exception of the script or of the
target is followed by `exit(1)`. -/
def JS.run (construct : Construct) (T : Tables) (execute : Execution) (answers : Answers) (js : JS)
    (asString : Bool) (m : Mem) (w : World) (data : List UInt8) :
    List Point × Eval (Outcome (Option (List UInt8))) :=
  if js.bytecode = [] then ([], .ok (.exit 1))
  else
    let (pcs, r) := evalScript construct (globalConfig T) noneName m (script asString data).length w
    let header := pcs.map fun k => (atomEval, k)
    match r with
    | .ok w =>
      let (points, r) := runTarget execute js.bytecode w
      (header ++ points,
        match r with
        | .ok w => extractOutput answers w
        | .exception _ => .ok (.exit 1)
        | .outside => .outside)
    | .exception _ => (header, .ok (.exit 1))
    | .outside => (header, .outside)

section Run

variable {construct : Construct} {T : Tables} {execute : Execution} {answers : Answers} {js : JS}
  {asString : Bool} {m m₁ m₂ : Mem} {w w' w₁ w₂ : World} {ctor : JSValue} {data x y : List UInt8}
  {pcs : List ℕ}

/-- A call whose script does not fail. -/
theorem JS.run_eq (hcode : js.bytecode ≠ [])
    (heval : evalScript construct (globalConfig T) noneName m (script asString data).length w =
      (pcs, .ok w')) :
    js.run construct T execute answers asString m w data =
      (pcs.map (fun k => (atomEval, k)) ++ (runTarget execute js.bytecode w').1,
        match (runTarget execute js.bytecode w').2 with
        | .ok w => extractOutput answers w
        | .exception _ => .ok (.exit 1)
        | .outside => .outside) := by
  rw [JS.run, if_neg hcode, heval]

/-- **The same instructions are the same points**, when the table of atoms is the same. -/
theorem runTarget_points (bytecode : List UInt8) (hatoms : w₁.atoms = w₂.atoms)
    (hsame : ∀ fs t, (execute fs { w₁ with atoms := t }).1 = (execute fs { w₂ with atoms := t }).1) :
    (runTarget execute bytecode w₁).1 = (runTarget execute bytecode w₂).1 := by
  rw [runTarget, runTarget, hatoms]
  cases getObject bytecode w₂.atoms with
  | ok r => exact congrArg (pointsOf r.1.functions) (hsame r.1.functions r.2)
  | exception message => rfl
  | outside => rfl

/-- **Where two calls differ.**  When the target executes the same instructions in both, by their
places in the file, the counters differ exactly where one script marks an entry that neither the
other script nor the target marks. -/
theorem JS.run_counters (hcode : js.bytecode ≠ []) (h : Fresh w)
    (hctor : HasUint8Array w.realm ctor) (hindep : AtomsIndependent construct ctor)
    (hx : Reads m₁ 0 (script false x ++ [0])) (hy : Reads m₂ 0 (script false y ++ [0]))
    (hokx : (evalScript construct (globalConfig T) noneName m₁ (script false x).length w).2 = .ok w₁)
    (hoky : (evalScript construct (globalConfig T) noneName m₂ (script false y).length w).2 = .ok w₂)
    (hsame : ∀ fs t, (execute fs { w₁ with atoms := t }).1 = (execute fs { w₂ with atoms := t }).1) :
    symmDiff (coverage (js.run construct T execute answers false m₁ w x).1)
        (coverage (js.run construct T execute answers false m₂ w y).1) =
      symmDiff (headerCoverage x) (headerCoverage y) \
        coverage (runTarget execute js.bytecode w₁).1 := by
  have hatoms := evalScript_atoms h h rfl hctor hctor hindep hx hy hokx hoky
  rw [JS.run_eq hcode (evalScript_points h hctor hx hokx),
    JS.run_eq hcode (evalScript_points h hctor hy hoky), coverage_append, coverage_append,
    coverage_header, coverage_header, ← runTarget_points js.bytecode hatoms hsame]
  exact symmDiff_union_right _ _ _

/-- The script leaves `FuzzerOutput` pinned. -/
theorem evalScript_pinned {filename out inp : JSAtom} {t : AtomTable} (h : Fresh w)
    (hn : Named w filename out inp t) (hctor : HasUint8Array w.realm ctor)
    (hread : Reads m 0 (script false data ++ [0]))
    (hok : (evalScript construct (globalConfig T) noneName m (script false data).length w).2 =
      .ok w₁) : Pinned w₁.realm.globalObj out := by
  obtain ⟨v, heap, t', -, -, rfl⟩ := evalScript_binary_inv h hn hctor hread hok
  have hdefined := defineGlobalVar_pinned (hn.undeclared_out h).define_pinned inp 0#8
  exact hdefined.put_ne _ hn.out_ne_inp

/-- **What is returned.**  When all that the target does to the global objects is a sequence of
operations on them, and the name of the variable is still the atom under which it was declared,
the call returns the extraction of a value that the variable has. -/
theorem JS.run_output (sameValue : JSValue → JSValue → Bool) {filename out inp : JSAtom}
    {t t' : AtomTable} (hcode : js.bytecode ≠ []) (h : Fresh w) (hn : Named w filename out inp t)
    (hctor : HasUint8Array w.realm ctor) (hread : Reads m 0 (script false data ++ [0]))
    (hok : (evalScript construct (globalConfig T) noneName m (script false data).length w).2 = .ok w₁)
    (htarget : (runTarget execute js.bytecode w₁).2 = .ok w₂) (ops : List GlobalOp)
    (hops : w₂.realm = Machine.run (GlobalOp.step sameValue) ops w₁.realm)
    (hname : newAtomStr w₂.atoms outputName = some (out, t')) :
    ∃ v, getProperty w₂.realm.globalObj out (answers.inherited w₂) = .value v ∧
      (js.run construct T execute answers false m w data).2 = .ok (.ok (runOutput v)) := by
  have hpin : Pinned w₂.realm.globalObj out := by
    rw [hops]
    exact run_pinned sameValue ops w₁.realm (evalScript_pinned h hn hctor hread hok)
  obtain ⟨v, hv⟩ := hpin.getProperty (answers.inherited w₂)
  refine ⟨v, hv, ?_⟩
  rw [JS.run_eq hcode (evalScript_points h hctor hread hok), htarget]
  simp only [extractOutput, hname, readOutput, hv]

end Run

end Host
end FuzzerJs
