import FuzzerJs.Engine.StraightLine
import FuzzerJs.Host.ScriptCode

/-!
# The function of the generated script

What `js_create_function` makes of the code of the script.  The passes keep the size of
the code in an `int`, and an input of `214748376` bytes or more does not fit.

* `createFunction_script`: the function, for an initial value of any kind, while the code
  fits.
* `createFunction_overflow`: the exception, when it does not.
-/

namespace FuzzerJs
namespace Host

open Engine Scan

/-- The code of the script behind `resolve_variables`. -/
def resolvedCode (out inp : JSAtom) (value : List Instr) : List Instr :=
  [Instr.checkDefineVar out 0#8, Instr.checkDefineVar inp 0#8] ++
    ([Instr.lineNum 0, Instr.defineVar out 0#8, Instr.defineVar inp 0#8, Instr.lineNum 1] ++
      value ++ [Instr.dup, Instr.putVar inp, Instr.drop, Instr.getLoc 0, Instr.ret])

/-- The code of the script behind `resolve_labels`. -/
def finalCode (out inp : JSAtom) (value : List Instr) : List Instr :=
  [Instr.checkDefineVar out 0#8, Instr.checkDefineVar inp 0#8, Instr.defineVar out 0#8,
    Instr.defineVar inp 0#8] ++ value ++
    [Instr.dup, Instr.putVar inp, Instr.drop, Instr.getLocShort 0] ++ [Instr.ret]

/-- The table behind `resolve_variables`. -/
def compiledAtoms (t : AtomTable) (out inp : JSAtom) : AtomTable := dupAtom (dupAtom t out) inp

section Function

variable {filename out inp : JSAtom} {value value₂ value₃ : List Instr} {pos : Option ℕ}
  {t t' : AtomTable}

theorem resolveVariables_script (hne : inp ≠ atomRet) (hlabel : .label 0 ∉ value)
    (hsize : codeSize (programCode inp value) < 2 ^ 31)
    (hvalue : Resolves (scriptDef filename (programCode inp value) pos 1 [out, inp] 1) value value₂
      (compiledAtoms t out inp) (compiledAtoms t out inp)) :
    resolveVariables (scriptDef filename (programCode inp value) pos 1 [out, inp] 1) t =
      .ok (resolvedCode out inp value₂, compiledAtoms t out inp) := by
  set fd := scriptDef filename (programCode inp value) pos 1 [out, inp] 1 with hfd
  set T := compiledAtoms t out inp
  have hvars : inp ∉ fd.vars := by simpa [fd, scriptDef] using hne
  have hcopy : Resolves fd [.drop, .getLoc 0] [.drop, .getLoc 0] T T :=
    Resolves.copies fd (by decide) T
  have hscope := ((Resolves.copy fd (i := .lineNum 0) rfl T).append
    (Resolves.enterScope fd T)).append (Resolves.copy fd (i := .lineNum 1) rfl T)
  have hall := (hscope.append (Resolves.assign 1 hvars hlabel hvalue)).append hcopy
  have hloop := hall 1 [Instr.ret] [Instr.ret] T rfl
  have hcode : fd.byteCode = ([Instr.lineNum 0] ++ [Instr.enterScope 1] ++ [Instr.lineNum 1] ++
      (Instr.scopeMakeRef inp 0 1 :: value ++ [Instr.label 0, Instr.insert3, Instr.putRefValue]) ++
      [Instr.drop, Instr.getLoc 0]) ++ [Instr.ret] := by
    simp [fd, scriptDef, programCode]
  have hbytes : codeSize fd.byteCode < 2 ^ 31 := hsize
  have hscan : scannedCode fd.byteCode = fd.byteCode := if_pos hbytes
  rw [resolveVariables, if_neg (by omega)]
  simp only
  rw [hscan, hcode]
  change (resolveVariablesLoop fd _ _ T >>= _) = _
  rw [List.length_append, List.length_singleton, hloop, Eval.ok_bind, Eval.pure_eq]
  simp [resolvedCode, fd, scriptDef]

theorem resolveLabels_script (hsize : codeSize (resolvedCode out inp value₂) < 2 ^ 31)
    (hvalue : ∀ {fuel rest c}, startsPlain rest = true →
      resolveLabelsLoop fuel rest t = .ok (c, t) →
      resolveLabelsLoop (value₂.length + fuel) (value₂ ++ rest) t = .ok (value₃ ++ c, t)) :
    resolveLabels (resolvedCode out inp value₂) t = .ok (finalCode out inp value₃, t) := by
  have htail : resolveLabelsLoop 5 [.dup, .putVar inp, .drop, .getLoc 0, .ret] t =
      .ok ([.dup, .putVar inp, .drop, .getLocShort 0, .ret], t) := rfl
  have h₁ := resolveLabelsLoop_step (i := .lineNum 1) rfl (hvalue rfl htail)
  have h₂ := resolveLabelsLoop_step (i := .defineVar inp 0#8) rfl h₁
  have h₃ := resolveLabelsLoop_step (i := .defineVar out 0#8) rfl h₂
  have h₄ := resolveLabelsLoop_step (i := .lineNum 0) rfl h₃
  have h₅ := resolveLabelsLoop_step (i := .checkDefineVar inp 0#8) rfl h₄
  have h₆ := resolveLabelsLoop_step (i := .checkDefineVar out 0#8) rfl h₅
  have hlen : (resolvedCode out inp value₂).length = value₂.length + 5 + 6 := by
    simp [resolvedCode]
  have hscan : scannedCode (resolvedCode out inp value₂) = resolvedCode out inp value₂ :=
    if_pos hsize
  rw [resolveLabels, if_neg (by omega), hscan, hlen]
  refine Eq.trans ?_ (h₆.trans ?_)
  · simp [resolvedCode]
  · simp [finalCode]

theorem computeStackSize_script (out inp : JSAtom) (hvalue : Balanced value₃ 0 1) :
    ∃ n, computeStackSize (finalCode out inp value₃) 0 0 = .ok n := by
  have hzero : ∀ {i : Instr}, i ≠ .ret → i.nPop = 0 → i.nPush = 0 → Balanced [i] 0 0 :=
    fun hret hpop hpush => Balanced.instr hret (by omega) (by omega) (Nat.zero_le _)
  have hhead := ((hzero (i := .checkDefineVar out 0#8) (by simp) rfl rfl).append
    (hzero (i := .checkDefineVar inp 0#8) (by simp) rfl rfl)).append
    ((hzero (i := .defineVar out 0#8) (by simp) rfl rfl).append
      (hzero (i := .defineVar inp 0#8) (by simp) rfl rfl))
  have hdup : Balanced [.dup] 1 2 := Balanced.instr (by simp) le_rfl rfl (by decide)
  have hput : Balanced [.putVar inp] 2 1 := Balanced.instr (by simp) (Nat.le_succ 1) rfl (by decide)
  have hdrop : Balanced [.drop] 1 0 := Balanced.instr (by simp) le_rfl rfl (by decide)
  have hloc : Balanced [.getLocShort 0] 0 1 := Balanced.instr (by simp) le_rfl rfl (by decide)
  have htail := (hdup.append hput).append (hdrop.append hloc)
  have hcode : finalCode out inp value₃ = ([Instr.checkDefineVar out 0#8] ++
      [Instr.checkDefineVar inp 0#8] ++ ([Instr.defineVar out 0#8] ++ [Instr.defineVar inp 0#8]) ++
      value₃ ++ ([Instr.dup] ++ [Instr.putVar inp] ++ ([Instr.drop] ++ [Instr.getLocShort 0]))) ++
      [Instr.ret] := by
    simp [finalCode]
  rw [hcode]
  exact ((hhead.append hvalue).append htail).ret

/-- **The function of the script**, for an initial value of any kind. -/
theorem createFunction_script (hne : inp ≠ atomRet) (hlabel : .label 0 ∉ value)
    (hsize : codeSize (programCode inp value) < 2 ^ 31)
    (hsize₂ : codeSize (resolvedCode out inp value₂) < 2 ^ 31)
    (hvars : Resolves (scriptDef filename (programCode inp value) pos 1 [out, inp] 1) value value₂
      (compiledAtoms t out inp) (compiledAtoms t out inp))
    (hlabels : ∀ {fuel rest c}, startsPlain rest = true →
      resolveLabelsLoop fuel rest (compiledAtoms t out inp) = .ok (c, compiledAtoms t out inp) →
      resolveLabelsLoop (value₂.length + fuel) (value₂ ++ rest) (compiledAtoms t out inp) =
        .ok (value₃ ++ c, compiledAtoms t out inp))
    (hstack : Balanced value₃ 0 1) :
    ∃ n, createFunction (scriptDef filename (programCode inp value) pos 1 [out, inp] 1) t =
      .ok (⟨atomEval, filename, finalCode out inp value₃, [atomRet], [], n⟩,
        compiledAtoms t out inp) := by
  obtain ⟨n, hn⟩ := computeStackSize_script out inp hstack
  refine ⟨n, ?_⟩
  rw [createFunction, resolveVariables_script hne hlabel hsize hvars, Eval.ok_bind]
  simp only
  rw [resolveLabels_script hsize₂ hlabels, Eval.ok_bind]
  simp only
  rw [hn, Eval.ok_bind, Eval.pure_eq]
  rfl

/-- **Code of `2 ^ 31` bytes or more**: neither pass runs its loop, and the return is missing from
what is left. -/
theorem createFunction_overflow (hsize : 2 ^ 31 ≤ codeSize (programCode inp value))
    (hsize' : codeSize (programCode inp value) < 2 ^ 32) :
    createFunction (scriptDef filename (programCode inp value) pos 1 [out, inp] 1) t =
      .exception "bytecode buffer overflow (op=%d, pc=%d)" := by
  have hbytes : 2 ^ 31 ≤ codeSize (scriptDef filename (programCode inp value) pos 1 [out, inp]
    1).byteCode := hsize
  have hscan : scannedCode (scriptDef filename (programCode inp value) pos 1 [out, inp] 1).byteCode =
      [] := if_neg (not_lt.mpr hbytes)
  have hbytes' : codeSize (scriptDef filename (programCode inp value) pos 1 [out, inp]
    1).byteCode < 2 ^ 32 := hsize'
  have hvars : resolveVariables (scriptDef filename (programCode inp value) pos 1 [out, inp] 1) t =
      .ok ([.checkDefineVar out 0#8, .checkDefineVar inp 0#8], compiledAtoms t out inp) := by
    rw [resolveVariables, if_neg (not_le.mpr hbytes')]
    simp only
    rw [hscan]
    rfl
  have hlabels : resolveLabels [.checkDefineVar out 0#8, .checkDefineVar inp 0#8]
      (compiledAtoms t out inp) =
      .ok ([.checkDefineVar out 0#8, .checkDefineVar inp 0#8], compiledAtoms t out inp) := rfl
  rw [createFunction, hvars, Eval.ok_bind]
  simp only
  rw [hlabels, Eval.ok_bind]
  rfl

end Function

/-! ## Binary mode -/

/-- The initial value in binary mode behind `resolve_variables`. -/
def binaryValue (data : List UInt8) : List Instr :=
  [Instr.getVar atomUint8Array] ++ ([Instr.dup] ++ arrayCode data ++ [Instr.callConstructor 1])

theorem codeSize_stackCode (data : List UInt8) : codeSize (stackCode data) = 5 * data.length := by
  induction data with
  | nil => rfl
  | cons b data ih =>
      rw [stackCode, List.map_cons, codeSize_cons, List.length_cons]
      rw [stackCode] at ih
      rw [ih, Instr.size]
      omega

theorem codeSize_fieldCode (data : List UInt8) :
    ∀ idx, codeSize (fieldCode idx data) = 10 * data.length := by
  induction data with
  | nil => intro idx; rfl
  | cons b data ih =>
      intro idx
      rw [fieldCode, codeSize_cons, codeSize_cons, ih, List.length_cons, Instr.size, Instr.size]
      omega

theorem codeSize_arrayCode (data : List UInt8) :
    codeSize (arrayCode data) = 5 * min 32 data.length + 3 + 10 * (data.length - 32) := by
  rw [arrayCode, codeSize_append, codeSize_append, codeSize_stackCode, codeSize_fieldCode,
    List.length_take, List.length_drop]
  rfl

/-- The size that the first pass sees. -/
theorem codeSize_binaryProgram (inp : JSAtom) (data : List UInt8) :
    codeSize (programCode inp (binaryCode 1 data)) =
      50 + 5 * min 32 data.length + 10 * (data.length - 32) := by
  rw [programCode, binaryCode]
  simp only [codeSize_append, codeSize_arrayCode, codeSize_cons, codeSize_nil, Instr.size]
  omega

/-- The size that the second pass sees. -/
theorem codeSize_binaryResolved (out inp : JSAtom) (data : List UInt8) :
    codeSize (resolvedCode out inp (binaryValue data)) =
      57 + 5 * min 32 data.length + 10 * (data.length - 32) := by
  rw [resolvedCode, binaryValue]
  simp only [codeSize_append, codeSize_arrayCode, codeSize_cons, codeSize_nil, Instr.size]
  omega

/-- The instructions of an array literal. -/
theorem mem_fieldCode (data : List UInt8) :
    ∀ {idx : ℕ} {i : Instr}, i ∈ fieldCode idx data →
      (∃ v, i = .pushI32 v) ∨ ∃ n, i = .defineField (atomFromUInt32 n) := by
  induction data with
  | nil => intro idx i h; exact absurd h (by simp [fieldCode])
  | cons b data ih =>
      intro idx i h
      rw [fieldCode, List.mem_cons, List.mem_cons] at h
      rcases h with rfl | rfl | h
      · exact Or.inl ⟨_, rfl⟩
      · exact Or.inr ⟨_, rfl⟩
      · exact ih h

theorem mem_arrayCode {data : List UInt8} {i : Instr} (h : i ∈ arrayCode data) :
    (∃ v, i = .pushI32 v) ∨ (∃ n, i = .arrayFrom n) ∨ ∃ n, i = .defineField (atomFromUInt32 n) := by
  rw [arrayCode, List.mem_append, List.mem_append] at h
  rcases h with (h | h) | h
  · obtain ⟨b, -, rfl⟩ := List.mem_map.mp h
    exact Or.inl ⟨_, rfl⟩
  · exact Or.inr (Or.inl ⟨_, List.mem_singleton.mp h⟩)
  · rcases mem_fieldCode _ h with h | h
    · exact Or.inl h
    · exact Or.inr (Or.inr h)

/-- What holds of the instructions that occur holds of the whole value. -/
theorem forall_mem_binaryTail {P : Instr → Prop} (hpush : ∀ v, P (.pushI32 v))
    (harray : ∀ n, P (.arrayFrom n)) (hfield : ∀ n, P (.defineField (atomFromUInt32 n)))
    (hdup : P .dup) (hcall : P (.callConstructor 1)) (data : List UInt8) :
    ∀ i ∈ [Instr.dup] ++ arrayCode data ++ [Instr.callConstructor 1], P i := by
  intro i h
  rw [List.mem_append, List.mem_append, List.mem_singleton, List.mem_singleton] at h
  rcases h with (rfl | h) | rfl
  · exact hdup
  · rcases mem_arrayCode h with ⟨v, rfl⟩ | ⟨n, rfl⟩ | ⟨n, rfl⟩
    · exact hpush v
    · exact harray n
    · exact hfield n
  · exact hcall

theorem label_not_mem_binaryCode (scope : ℕ) (data : List UInt8) :
    .label 0 ∉ binaryCode scope data := by
  have htail := forall_mem_binaryTail (P := fun i => i ≠ .label 0) (by simp) (by simp) (by simp)
    (by simp) (by simp) data
  intro h
  rw [binaryCode, List.mem_append, List.mem_singleton] at h
  rcases h with h | h
  · exact absurd h (by simp)
  · exact htail _ h rfl

theorem binaryCode_resolves {fd : FunctionDef} (hvars : fd.vars = [atomRet]) (data : List UInt8)
    (t : AtomTable) : Resolves fd (binaryCode 1 data) (binaryValue data) t t := by
  have hname : atomUint8Array ∉ fd.vars := by rw [hvars]; decide
  have htail := forall_mem_binaryTail (P := fun i => i.isCopied = true) (fun _ => rfl)
    (fun _ => rfl) (fun _ => rfl) rfl rfl data
  exact (Resolves.getVar hname 1 t).append (Resolves.copies fd htail t)

/-- The initial value in binary mode behind `resolve_labels`. -/
def binaryFinal (data : List UInt8) : List Instr := (binaryValue data).map Instr.short

theorem binaryValue_isShortened (data : List UInt8) :
    ∀ i ∈ binaryValue data, i.isShortened = true := by
  intro i h
  rw [binaryValue, List.mem_append, List.mem_singleton] at h
  rcases h with rfl | h
  · rfl
  · exact forall_mem_binaryTail (P := fun i => i.isShortened = true) (fun _ => rfl) (fun _ => rfl)
      (fun _ => rfl) rfl rfl data i h

/-- A short constant pushes one value, as the long one does. -/
theorem pushShortInt_balanced (v : ℤ) {d : ℕ} (h : d < stackSizeMax) :
    Balanced [pushShortInt v] d (d + 1) := by
  rw [pushShortInt]
  split
  · exact Balanced.instr (by simp) (Nat.zero_le d) rfl h
  · split
    · exact Balanced.instr (by simp) (Nat.zero_le d) rfl h
    · split
      · exact Balanced.instr (by simp) (Nat.zero_le d) rfl h
      · exact Balanced.instr (by simp) (Nat.zero_le d) rfl h

theorem stackCode_balanced (data : List UInt8) :
    ∀ {d : ℕ}, d + data.length ≤ stackSizeMax →
      Balanced ((stackCode data).map Instr.short) d (d + data.length) := by
  induction data with
  | nil => intro d _; exact Balanced.nil d
  | cons b data ih =>
      intro d h
      rw [List.length_cons] at h ⊢
      have hrest := ih (d := d + 1) (by omega)
      rw [show d + 1 + data.length = d + (data.length + 1) by omega] at hrest
      exact (pushShortInt_balanced _ (by omega)).append hrest

theorem fieldCode_balanced (data : List UInt8) {d : ℕ} (hd : 0 < d) (h : d < stackSizeMax) :
    ∀ idx, Balanced ((fieldCode idx data).map Instr.short) d d := by
  induction data with
  | nil => intro idx; exact Balanced.nil d
  | cons b data ih =>
      intro idx
      have hfield : Balanced [.defineField (atomFromUInt32 idx)] (d + 1) d :=
        Balanced.instr (by simp) (Nat.succ_le_succ hd) (Nat.sub_add_cancel hd) h.le
      exact ((pushShortInt_balanced _ h).append hfield).append (ih (idx + 1))

/-- The constructor call leaves one value. -/
theorem binaryFinal_balanced (data : List UInt8) : Balanced (binaryFinal data) 0 1 := by
  have hget : Balanced [.getVar atomUint8Array] 0 1 :=
    Balanced.instr (by simp) le_rfl rfl (by decide)
  have hdup : Balanced [.dup] 1 2 := Balanced.instr (by simp) le_rfl rfl (by decide)
  have hcall : Balanced [.callConstructor 1] 3 1 := Balanced.instr (by simp) le_rfl rfl (by decide)
  have hlen : (data.take 32).length = min data.length 32 := by rw [List.length_take, min_comm]
  have hstack := stackCode_balanced (data.take 32) (d := 2) (by rw [hlen, stackSizeMax]; omega)
  rw [hlen] at hstack
  have harray : Balanced [.arrayFrom (min data.length 32)] (2 + min data.length 32) 3 :=
    Balanced.instr (by simp) (Nat.le_add_left _ 2) (by
      change 2 + min data.length 32 - min data.length 32 + 1 = 3
      omega) (by decide)
  have hfields := fieldCode_balanced (data.drop 32) (d := 3) (by omega) (by decide) 32
  have hcode : binaryFinal data = [Instr.getVar atomUint8Array] ++ ([Instr.dup] ++
      ((stackCode (data.take 32)).map Instr.short ++ [Instr.arrayFrom (min data.length 32)] ++
        (fieldCode 32 (data.drop 32)).map Instr.short) ++ [Instr.callConstructor 1]) := by
    simp [binaryFinal, binaryValue, arrayCode, Instr.short]
  rw [hcode]
  exact hget.append ((hdup.append ((hstack.append harray).append hfields)).append hcall)

/-- The longest input for which the size of the code fits an `int`. -/
def maxDelivered : ℕ := 214748375

/-- **The function of the binary script**, for an input that fits. -/
theorem createFunction_binary (filename out : JSAtom) {inp : JSAtom} (pos : Option ℕ)
    (hne : inp ≠ atomRet) {data : List UInt8} (hlen : data.length ≤ maxDelivered) (t : AtomTable) :
    ∃ n, createFunction
        (scriptDef filename (programCode inp (binaryCode 1 data)) pos 1 [out, inp] 1) t =
      .ok (⟨atomEval, filename, finalCode out inp (binaryFinal data), [atomRet], [], n⟩,
        compiledAtoms t out inp) := by
  rw [maxDelivered] at hlen
  refine createFunction_script hne (label_not_mem_binaryCode 1 data) ?_ ?_
    (binaryCode_resolves rfl data _) (resolveLabelsLoop_short (binaryValue_isShortened data))
    (binaryFinal_balanced data)
  · rw [codeSize_binaryProgram]
    omega
  · rw [codeSize_binaryResolved]
    omega

/-! ## String mode -/

/-- The initial value in string mode behind `resolve_labels`. -/
def stringFinal (a : JSAtom) : List Instr :=
  if a = atomEmptyString then [.pushEmptyString] else [.pushAtomValue a]

theorem stringFinal_balanced (a : JSAtom) : Balanced (stringFinal a) 0 1 := by
  rw [stringFinal]
  split
  · exact Balanced.instr (by simp) le_rfl rfl (by decide)
  · exact Balanced.instr (by simp) le_rfl rfl (by decide)

/-- The empty string loses its atom, which is predefined. -/
theorem resolveLabelsStep_string {rest : List Instr} (h : startsPlain rest = true) (a : JSAtom)
    (t : AtomTable) :
    resolveLabelsStep (.pushAtomValue a) rest t = .ok (stringFinal a, rest, t) := by
  have hfree : freeAtom t atomEmptyString = t := if_pos (by decide)
  have hstep : resolveLabelsStep (.pushAtomValue a) rest t =
      if a = atomEmptyString then resolvePush .pushEmptyString (freeAtom t a) (freeAtom t a) rest
      else resolvePush (.pushAtomValue a) t (freeAtom t a) rest := rfl
  rw [hstep, stringFinal]
  by_cases ha : a = atomEmptyString
  · rw [if_pos ha, if_pos ha, ha, hfree]
    exact resolvePush_of_startsPlain h _ t t
  · rw [if_neg ha, if_neg ha]
    exact resolvePush_of_startsPlain h _ t _

/-- **The function of the string script.** -/
theorem createFunction_string (filename out : JSAtom) {inp : JSAtom} (pos : Option ℕ)
    (hne : inp ≠ atomRet) (a : JSAtom) (t : AtomTable) :
    ∃ n, createFunction
        (scriptDef filename (programCode inp [.pushAtomValue a]) pos 1 [out, inp] 1) t =
      .ok (⟨atomEval, filename, finalCode out inp (stringFinal a), [atomRet], [], n⟩,
        compiledAtoms t out inp) := by
  refine createFunction_script hne (by simp) ?_ ?_ (Resolves.copy _ rfl _)
    (fun hstart hrest => ?_) (stringFinal_balanced a)
  · simp [programCode, Instr.size]
  · simp [resolvedCode, Instr.size]
  · rw [List.length_singleton, Nat.add_comm]
    exact resolveLabelsLoop_step (resolveLabelsStep_string hstart a _) hrest

end Host
end FuzzerJs
