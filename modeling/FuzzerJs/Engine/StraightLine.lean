import FuzzerJs.Engine.Interp

/-!
# Straight-line code

Rules for following a piece of code through the passes of `js_create_function` and through
the interpreter, whatever code comes after it: `Resolves` for `resolve_variables`,
`resolveLabelsLoop_short` for `resolve_labels`, `Balanced` for `compute_stack_size` and
`Executes` for `JS_CallInternal`.  Each is closed under concatenation.
-/

namespace FuzzerJs
namespace Engine

/-! ## `resolve_variables` -/

section Resolves

variable {fd : FunctionDef} {code code' out out' : List Instr} {t t' t'' : AtomTable}

/-- The loop of `resolve_variables` turns `code` into `out`. -/
def Resolves (fd : FunctionDef) (code out : List Instr) (t t' : AtomTable) : Prop :=
  ∀ fuel rest c t'', resolveVariablesLoop fd fuel rest t' = .ok (c, t'') →
    resolveVariablesLoop fd (code.length + fuel) (code ++ rest) t = .ok (out ++ c, t'')

/-- The instructions that `resolve_variables` copies. -/
def Instr.isCopied : Instr → Bool
  | .scopeGetVar _ _ => false
  | .scopeMakeRef _ _ _ => false
  | .enterScope _ => false
  | .insert3 => false
  | .ret => false
  | .nop => false
  | _ => true

theorem Resolves.append (h : Resolves fd code out t t') (h' : Resolves fd code' out' t' t'') :
    Resolves fd (code ++ code') (out ++ out') t t'' := by
  intro fuel rest c t₃ hrest
  rw [List.length_append, Nat.add_assoc, List.append_assoc, List.append_assoc]
  exact h _ _ _ _ (h' _ _ _ _ hrest)

theorem Resolves.copy (fd : FunctionDef) {i : Instr} (h : i.isCopied = true) (t : AtomTable) :
    Resolves fd [i] [i] t t := by
  intro fuel rest c t'' hrest
  rw [List.length_singleton, Nat.add_comm, List.singleton_append]
  cases i with
  | scopeGetVar => exact absurd h nofun
  | scopeMakeRef => exact absurd h nofun
  | enterScope => exact absurd h nofun
  | insert3 => exact absurd h nofun
  | ret => exact absurd h nofun
  | nop => exact absurd h nofun
  | _ => simp only [resolveVariablesLoop, hrest, Eval.ok_bind, Eval.pure_eq]

theorem Resolves.copies (fd : FunctionDef) {code : List Instr}
    (h : ∀ i ∈ code, i.isCopied = true) (t : AtomTable) :
    Resolves fd code code t t := by
  induction code with
  | nil =>
      intro fuel rest c t'' hrest
      rw [List.length_nil, Nat.zero_add]
      exact hrest
  | cons i code ih =>
      have hi : Resolves fd [i] [i] t t := Resolves.copy fd (h i List.mem_cons_self) t
      exact hi.append (ih fun j hj => h j (List.mem_cons_of_mem i hj))

/-- A global variable that is read. -/
theorem Resolves.getVar {name : JSAtom} (h : name ∉ fd.vars) (scope : ℕ) (t : AtomTable) :
    Resolves fd [.scopeGetVar name scope] [.getVar name] t t := by
  intro fuel rest c t'' hrest
  rw [List.length_singleton, Nat.add_comm, List.singleton_append]
  simp only [resolveVariablesLoop, if_neg h, dupAtom_freeAtom, hrest, Eval.ok_bind, Eval.pure_eq]

/-- The declarations of the function. -/
theorem hoistedAtoms_eq (t : AtomTable) (names : List JSAtom) : hoistedAtoms t names = t := by
  induction names with
  | nil => rfl
  | cons name names ih => rw [hoistedAtoms, List.foldl_cons, dupAtom_freeAtom]; exact ih

theorem Resolves.enterScope (fd : FunctionDef) (t : AtomTable) :
    Resolves fd [.enterScope 1] (fd.hoistedDefs.map fun name => .defineVar name 0#8) t t := by
  intro fuel rest c t'' hrest
  rw [List.length_singleton, Nat.add_comm, List.singleton_append]
  simp only [resolveVariablesLoop, if_true, hoistedAtoms_eq, hrest, Eval.ok_bind, Eval.pure_eq]

/-- The search for a label passes over code without it. -/
theorem patchRef_append {label : ℕ} (name : JSAtom) (h : .label label ∉ code)
    (rest : List Instr) :
    patchRef label name (code ++ rest) = (patchRef label name rest).map (code ++ ·) := by
  induction code with
  | nil => simp
  | cons i code ih =>
      have hi : i ≠ .label label := fun heq => h (heq ▸ List.mem_cons_self)
      rw [List.cons_append, patchRef.eq_def]
      simp only [if_neg hi]
      rw [ih fun hmem => h (List.mem_cons_of_mem i hmem), Option.map_map]
      rfl

/-- An assignment to a global variable, with the value computed by `code`. -/
theorem Resolves.assign (scope : ℕ) {name : JSAtom} {label : ℕ} (hname : name ∉ fd.vars)
    (hlabel : .label label ∉ code) (h : Resolves fd code out t t') :
    Resolves fd (.scopeMakeRef name label scope :: code ++ [.label label, .insert3, .putRefValue])
      (out ++ [.dup, .putVar name]) t t' := by
  intro fuel rest c t'' hrest
  have hpatch : patchRef label name (code ++ (.label label :: .insert3 :: .putRefValue :: rest)) =
      some (code ++ (.dup :: .putVar name :: .nop :: rest)) := by
    rw [patchRef_append name hlabel, patchRef, if_pos rfl]
    rfl
  have htail : resolveVariablesLoop fd (fuel + 3) (.dup :: .putVar name :: .nop :: rest) t' =
      .ok (.dup :: .putVar name :: c, t'') := by
    simp [resolveVariablesLoop, hrest]
  have hall := h _ _ _ _ htail
  have hlen : (.scopeMakeRef name label scope :: code ++ [.label label, .insert3, .putRefValue] :
      List Instr).length + fuel = code.length + (fuel + 3) + 1 := by
    simp only [List.length_append, List.length_cons, List.length_nil]
    omega
  rw [hlen, List.append_assoc, List.cons_append]
  simp only [List.cons_append, List.nil_append, resolveVariablesLoop, if_neg hname, hpatch,
    dupAtom_freeAtom, hall, Eval.ok_bind, Eval.pure_eq, List.append_assoc]

end Resolves

/-! ## `resolve_labels` -/

/-- The instruction that `resolve_labels` puts in the place of one that stands alone. -/
def Instr.short : Instr → Instr
  | .pushI32 v => pushShortInt v
  | .pushConst idx => if idx < 256 then .pushConst8 idx else .pushConst idx
  | .getLoc idx => getLocShortCode idx
  | i => i

/-- The instructions of which that is all. -/
def Instr.isShortened : Instr → Bool
  | .lineNum _ => false
  | .label _ => false
  | .drop => false
  | .pushAtomValue _ => false
  | .ret => false
  | _ => true

/-- Code that may follow a constant. -/
def startsPlain : List Instr → Bool
  | .lineNum _ :: _ => false
  | .drop :: _ => false
  | _ => true

theorem startsPlain_append {code rest : List Instr} (h : ∀ i ∈ code, i.isShortened = true)
    (hrest : startsPlain rest = true) : startsPlain (code ++ rest) = true := by
  cases code with
  | nil => exact hrest
  | cons i code =>
      have hi := h i List.mem_cons_self
      cases i with
      | lineNum => exact absurd hi nofun
      | drop => exact absurd hi nofun
      | _ => rfl

theorem resolvePush_of_startsPlain {rest : List Instr} (h : startsPlain rest = true) (out : Instr)
    (t dropped : AtomTable) : resolvePush out t dropped rest = .ok ([out], rest, t) := by
  rw [resolvePush.eq_def]
  split
  · exact absurd h nofun
  · exact absurd h nofun
  · rfl

/-- One instruction of that kind. -/
theorem resolveLabelsStep_short {i : Instr} {rest : List Instr} (hi : i.isShortened = true)
    (hstart : startsPlain rest = true) (t : AtomTable) :
    resolveLabelsStep i rest t = .ok ([i.short], rest, t) := by
  cases i with
  | lineNum => exact absurd hi nofun
  | label => exact absurd hi nofun
  | drop => exact absurd hi nofun
  | pushAtomValue => exact absurd hi nofun
  | ret => exact absurd hi nofun
  | pushI32 v => exact resolvePush_of_startsPlain hstart _ t t
  | _ => rfl

theorem resolveLabelsLoop_step {i : Instr} {rest rest' out c : List Instr} {t t' t'' : AtomTable}
    {fuel : ℕ} (hstep : resolveLabelsStep i rest t = .ok (out, rest', t'))
    (hrest : resolveLabelsLoop fuel rest' t' = .ok (c, t'')) :
    resolveLabelsLoop (fuel + 1) (i :: rest) t = .ok (out ++ c, t'') := by
  rw [resolveLabelsLoop, hstep, Eval.ok_bind]
  simp only [hrest, Eval.ok_bind, Eval.pure_eq]

/-- `resolve_labels` on a piece of code. -/
theorem resolveLabelsLoop_short {code rest c : List Instr} {t t' : AtomTable} {fuel : ℕ}
    (h : ∀ i ∈ code, i.isShortened = true) (hstart : startsPlain rest = true)
    (hrest : resolveLabelsLoop fuel rest t = .ok (c, t')) :
    resolveLabelsLoop (code.length + fuel) (code ++ rest) t =
      .ok (code.map Instr.short ++ c, t') := by
  induction code with
  | nil =>
      rw [List.length_nil, Nat.zero_add]
      exact hrest
  | cons i code ih =>
      have hcode : ∀ j ∈ code, j.isShortened = true := fun j hj => h j (List.mem_cons_of_mem i hj)
      have hi := resolveLabelsStep_short (h i List.mem_cons_self) (startsPlain_append hcode hstart) t
      have hloop := resolveLabelsLoop_step hi (ih hcode)
      rw [List.length_cons, Nat.add_right_comm, List.cons_append]
      exact hloop

/-! ## `compute_stack_size` -/

/-- A piece of code that takes the stack from `d` to `d'` values, and nowhere too high or below
zero. -/
def Balanced (code : List Instr) (d d' : ℕ) : Prop :=
  ∀ rest m, m ≤ stackSizeMax → ∃ m', m' ≤ stackSizeMax ∧
    computeStackSize (code ++ rest) d m = computeStackSize rest d' m'

section Balanced

variable {code code' : List Instr} {d d' d'' : ℕ}

theorem Balanced.nil (d : ℕ) : Balanced [] d d := fun _ m hm => ⟨m, hm, rfl⟩

theorem Balanced.append (h : Balanced code d d') (h' : Balanced code' d' d'') :
    Balanced (code ++ code') d d'' := by
  intro rest m hm
  obtain ⟨m', hm', heq⟩ := h (code' ++ rest) m hm
  obtain ⟨m'', hm'', heq'⟩ := h' rest m' hm'
  exact ⟨m'', hm'', by rw [List.append_assoc, heq, heq']⟩

theorem Balanced.instr {i : Instr} (hret : i ≠ .ret) (hpop : i.nPop ≤ d)
    (hd : d - i.nPop + i.nPush = d') (hmax : d' ≤ stackSizeMax) : Balanced [i] d d' := by
  intro rest m hm
  refine ⟨max m d', max_le hm hmax, ?_⟩
  rw [List.singleton_append, computeStackSize, if_neg (not_lt.mpr hpop), hd]
  simp only
  rw [if_neg (not_lt.mpr (max_le hm hmax)), if_neg hret]

/-- The return at the end. -/
theorem Balanced.ret (h : Balanced code d 1) :
    ∃ n, computeStackSize (code ++ [.ret]) d 0 = .ok n := by
  obtain ⟨m, hm, heq⟩ := h [.ret] 0 (Nat.zero_le _)
  have hpop : ¬ 1 < Instr.ret.nPop := lt_irrefl 1
  have hmax : ¬ stackSizeMax < max m (1 - Instr.ret.nPop + Instr.ret.nPush) :=
    not_lt.mpr (max_le hm (Nat.zero_le _))
  refine ⟨max m 0, ?_⟩
  rw [heq]
  unfold computeStackSize
  rw [if_neg hpop]
  simp only
  rw [if_neg hmax, if_pos trivial]
  rfl

end Balanced

/-! ## `JS_CallInternal` -/

/-- The offsets of the instructions of a piece of code that starts at `pc`. -/
def offsets : ℕ → List Instr → List ℕ
  | _, [] => []
  | pc, i :: rest => pc :: offsets (pc + i.size) rest

theorem offsets_append (code code' : List Instr) (pc : ℕ) :
    offsets pc (code ++ code') = offsets pc code ++ offsets (pc + codeSize code) code' := by
  induction code generalizing pc with
  | nil => rfl
  | cons i code ih =>
      rw [List.cons_append, offsets, ih, offsets, codeSize_cons, Nat.add_assoc]
      rfl

/-- A piece of code takes a frame to another one. -/
def Executes (construct : Construct) (cpool : List JSValue) (code : List Instr) (fr fr' : Frame) :
    Prop :=
  ∀ pc rest, runCode construct cpool pc (code ++ rest) fr =
    (offsets pc code ++ (runCode construct cpool (pc + codeSize code) rest fr').1,
      (runCode construct cpool (pc + codeSize code) rest fr').2)

section Executes

variable {construct : Construct} {cpool : List JSValue} {code code' : List Instr}
  {fr fr' fr'' : Frame}

theorem Executes.nil (fr : Frame) : Executes construct cpool [] fr fr := fun _ _ => rfl

theorem Executes.append (h : Executes construct cpool code fr fr')
    (h' : Executes construct cpool code' fr' fr'') :
    Executes construct cpool (code ++ code') fr fr'' := by
  intro pc rest
  rw [List.append_assoc, h, h', codeSize_append, offsets_append, Nat.add_assoc, List.append_assoc]

theorem Executes.instr {i : Instr} (hret : i ≠ .ret) (h : execInstr construct cpool i fr = .ok fr') :
    Executes construct cpool [i] fr fr' := by
  intro pc rest
  rw [List.singleton_append, runCode, if_neg hret, h]
  rfl

/-- The return at the end. -/
theorem Executes.ret {v : JSValue} {stack : List JSValue} (h : Executes construct cpool code fr fr')
    (hstack : fr'.stack = v :: stack) (pc : ℕ) :
    runCode construct cpool pc (code ++ [.ret]) fr =
      (offsets pc (code ++ [.ret]), .ok (v, fr'.world)) := by
  rw [h, runCode, if_pos rfl, hstack, offsets_append]
  rfl

/-- A piece of code that ends in front of an instruction that fails. -/
theorem Executes.fails {i : Instr} (h : Executes construct cpool code fr fr') (hret : i ≠ .ret)
    (hfail : (execInstr construct cpool i fr').Fails) (pc : ℕ) (rest : List Instr) :
    (runCode construct cpool pc (code ++ i :: rest) fr).2.Fails := by
  intro r
  rw [h, runCode, if_neg hret]
  split
  · rename_i hok
    exact absurd hok (hfail _)
  · simp
  · simp

end Executes

end Engine
end FuzzerJs
