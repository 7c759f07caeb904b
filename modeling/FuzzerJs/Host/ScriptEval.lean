import FuzzerJs.Host.ScriptCompile

/-!
# Evaluating the generated script

`JS_Eval` of the script of `JS::Run` in a fresh world, from the text to the world it leaves.

* `script_run`: the code of the script, with an initial value of any kind, does to the global
  objects what `evalHeader` says, and executes all its instructions in their order.
* `arrayCode_executes`: the array literal, for an input of any length.
* `evalScript_binary`, `evalScript_string`: the whole of `JS_Eval` in the two modes.
* `evalScript_overflow`, `evalScript_binary_bound`: what becomes of a longer input.
-/

namespace FuzzerJs
namespace Host

open Engine Scan

/-! ## Running -/

/-- The world behind the two declarations. -/
def declaredWorld (w : World) (out inp : JSAtom) : World :=
  ⟨defineGlobalVar (defineGlobalVar w.realm out 0#8) inp 0#8, w.heap,
    dupAtom (dupAtom w.atoms out) inp⟩

/-- The world behind the assignment of the initial value. -/
def assignedWorld (w : World) (inp : JSAtom) (v : JSValue) : World :=
  let o := w.realm.globalObj.put inp ⟨⟨false, true, true⟩, .normal v⟩
  { w with realm := { w.realm with globalObj := o } }

section Run

variable {construct : Construct} {w w' : World} {out inp : JSAtom} {value : List Instr} {v : JSValue}

theorem check_executes {fr : Frame} {a : JSAtom} (h : Undeclared fr.world.realm a) :
    Executes construct [] [.checkDefineVar a 0#8] fr fr := by
  refine Executes.instr (by simp) ?_
  unfold execInstr
  simp only [h.check]

theorem define_executes {fr : Frame} {a : JSAtom} (h : Undeclared fr.world.realm a) :
    Executes construct [] [.defineVar a 0#8] fr
      { fr with world := ⟨defineGlobalVar fr.world.realm a 0#8, fr.world.heap,
          dupAtom fr.world.atoms a⟩ } := by
  have hadds : addsGlobalVar fr.world.realm a 0#8 = true := by
    simp [addsGlobalVar, isLexVar, h.props, h.extensible]
  refine Executes.instr (by simp) ?_
  change Eval.ok (Frame.mk fr.stack fr.locals ⟨defineGlobalVar fr.world.realm a 0#8, fr.world.heap,
    if addsGlobalVar fr.world.realm a 0#8 then dupAtom fr.world.atoms a else fr.world.atoms⟩) = _
  rw [if_pos hadds]

/-- The two checks and the two declarations. -/
theorem declarations_execute (hout : Undeclared w.realm out) (hin : Undeclared w.realm inp)
    (hne : out ≠ inp) (locals : List JSValue) :
    Executes construct [] [.checkDefineVar out 0#8, .checkDefineVar inp 0#8, .defineVar out 0#8,
      .defineVar inp 0#8] ⟨[], locals, w⟩ ⟨[], locals, declaredWorld w out inp⟩ := by
  have hcheck : Executes construct [] ([.checkDefineVar out 0#8] ++ [.checkDefineVar inp 0#8])
      ⟨[], locals, w⟩ ⟨[], locals, w⟩ :=
    (check_executes hout).append (check_executes hin)
  exact hcheck.append ((define_executes hout).append
    (define_executes (hin.define_other hne.symm hout)))

/-- The assignment of the initial value, and the return value. -/
theorem assignment_executes (construct : Construct) (hlex : w'.realm.globalVarObj inp = none)
    (hprops : w'.realm.globalObj.props inp = some ⟨⟨false, true, true⟩, .normal .undefined⟩)
    (v : JSValue) :
    Executes construct [] [.dup, .putVar inp, .drop, .getLocShort 0] ⟨[v], [.undefined], w'⟩
      ⟨[.undefined], [.undefined], assignedWorld w' inp v⟩ := by
  have hput : execPutVar inp ⟨[v, v], [.undefined], w'⟩ =
      .ok ⟨[v], [.undefined], assignedWorld w' inp v⟩ := by
    simp [execPutVar, setGlobalVar, setProperty, assignedWorld, hlex, hprops]
  have hdup : Executes construct [] [.dup] ⟨[v], [.undefined], w'⟩ ⟨[v, v], [.undefined], w'⟩ :=
    Executes.instr (by simp) rfl
  have hput' : Executes construct [] [.putVar inp] ⟨[v, v], [.undefined], w'⟩
      ⟨[v], [.undefined], assignedWorld w' inp v⟩ := Executes.instr (by simp) hput
  have hdrop : Executes construct [] [.drop] ⟨[v], [.undefined], assignedWorld w' inp v⟩
      ⟨[], [.undefined], assignedWorld w' inp v⟩ := Executes.instr (by simp) rfl
  have hloc : Executes construct [] [.getLocShort 0] ⟨[], [.undefined], assignedWorld w' inp v⟩
      ⟨[.undefined], [.undefined], assignedWorld w' inp v⟩ := Executes.instr (by simp) rfl
  exact (hdup.append hput').append (hdrop.append hloc)

/-- **Running the code of the script**, with an initial value of any kind that leaves the global
objects alone: what happens to those is `evalHeader`, and every instruction is executed. -/
theorem script_run (hout : Undeclared w.realm out) (hin : Undeclared w.realm inp) (hne : out ≠ inp)
    (hrealm : w'.realm = (declaredWorld w out inp).realm)
    (hvalue : Executes construct [] value ⟨[], [.undefined], declaredWorld w out inp⟩
      ⟨[v], [.undefined], w'⟩) :
    evalHeader w.realm out inp v = .ok (assignedWorld w' inp v).realm ∧
      runCode construct [] 0 (finalCode out inp value) ⟨[], [.undefined], w⟩ =
        (offsets 0 (finalCode out inp value), .ok (.undefined, assignedWorld w' inp v)) := by
  have hin' := hin.define_other hne.symm hout
  have hdeclared : (declaredWorld w out inp).realm =
      defineGlobalVar (defineGlobalVar w.realm out 0#8) inp 0#8 := rfl
  have hlex : w'.realm.globalVarObj inp = none := by
    rw [hrealm, hdeclared, hin'.define]
    exact hin'.lexical
  have hprops : w'.realm.globalObj.props inp =
      some ⟨⟨false, true, true⟩, .normal .undefined⟩ := by
    rw [hrealm, hdeclared, hin'.define, Obj.put_props_self]
  constructor
  · have hset : setGlobalVar w'.realm inp v .write false .absent (.ok true) =
        (.ok true, (assignedWorld w' inp v).realm) := by
      simp [setGlobalVar, setProperty, assignedWorld, hlex, hprops]
    rw [hrealm, hdeclared] at hset
    rw [evalHeader, hout.check, hin.check]
    simp only [hset]
    rfl
  · have hall := ((declarations_execute hout hin hne [.undefined]).append hvalue).append
      (assignment_executes construct hlex hprops v)
    exact hall.ret rfl 0

end Run

/-! ## The initial value in binary mode -/

/-- The value of an element of the array. -/
def byteValue (b : UInt8) : JSValue := .int (BitVec.ofInt 32 b.toNat)

section Value

variable {construct : Construct} {cpool : List JSValue}

theorem pushShortInt_executes (v : ℤ) (fr : Frame) :
    Executes construct cpool [pushShortInt v] fr (fr.push (.int (BitVec.ofInt 32 v))) := by
  rw [pushShortInt]
  split
  · exact Executes.instr (by simp) rfl
  · split
    · exact Executes.instr (by simp) rfl
    · split
      · exact Executes.instr (by simp) rfl
      · exact Executes.instr (by simp) rfl

/-- A translation of instructions that keeps what an array literal is made of: `resolve_labels`
is one, and so is doing nothing. -/
structure KeepsLiterals (construct : Construct) (cpool : List JSValue) (f : Instr → Instr) :
    Prop where
  push : ∀ v fr, Executes construct cpool [f (.pushI32 v)] fr (fr.push (.int (BitVec.ofInt 32 v)))
  array : ∀ n, f (.arrayFrom n) = .arrayFrom n
  field : ∀ a, f (.defineField a) = .defineField a

theorem keepsLiterals_id : KeepsLiterals construct cpool id :=
  ⟨fun _ _ => Executes.instr (by simp) rfl, fun _ => rfl, fun _ => rfl⟩

theorem keepsLiterals_short : KeepsLiterals construct cpool Instr.short :=
  ⟨pushShortInt_executes, fun _ => rfl, fun _ => rfl⟩

/-- The elements that are created on the stack. -/
theorem stackCode_executes {f : Instr → Instr} (hf : KeepsLiterals construct cpool f)
    (data : List UInt8) :
    ∀ stack locals w, Executes construct cpool ((stackCode data).map f)
      ⟨stack, locals, w⟩ ⟨(data.map byteValue).reverse ++ stack, locals, w⟩ := by
  induction data with
  | nil => intro stack locals w; exact Executes.nil _
  | cons b data ih =>
      intro stack locals w
      have hpush : Executes construct cpool [f (.pushI32 b.toNat)] ⟨stack, locals, w⟩
        ⟨byteValue b :: stack, locals, w⟩ := hf.push _ _
      have hall := hpush.append (ih (byteValue b :: stack) locals w)
      rw [List.map_cons, List.reverse_cons, List.append_assoc]
      exact hall

/-- The array that takes them from there. -/
theorem arrayFrom_executes (elems stack locals : List JSValue) (w : World) :
    Executes construct cpool [.arrayFrom elems.length] ⟨elems.reverse ++ stack, locals, w⟩
      ⟨.object w.heap.length :: stack, locals, { w with heap := w.heap ++ [.array elems] }⟩ := by
  refine Executes.instr (by simp) ?_
  have hlen : ¬ (elems.reverse ++ stack).length < elems.length := by simp
  change (if (elems.reverse ++ stack).length < elems.length then Eval.outside else _) = _
  rw [if_neg hlen]
  have hdrop : (elems.reverse ++ stack).drop elems.length = stack := by
    rw [← List.length_reverse, List.drop_left]
  have htake : (elems.reverse ++ stack).take elems.length = elems.reverse := by
    rw [← List.length_reverse, List.take_left]
  simp only [hdrop, htake, List.reverse_reverse]

/-- One element that is stored at the end of the array. -/
theorem defineField_executes {heap : Heap} {elems : List JSValue} (hlt : elems.length < 2 ^ 31)
    (stack locals : List JSValue) (r : Realm) (t : AtomTable) (v : JSValue) :
    Executes construct cpool [.defineField (atomFromUInt32 elems.length)]
      ⟨v :: .object heap.length :: stack, locals, ⟨r, heap ++ [.array elems], t⟩⟩
      ⟨.object heap.length :: stack, locals, ⟨r, heap ++ [.array (elems ++ [v])], t⟩⟩ := by
  have hexec : execDefineField (atomFromUInt32 elems.length)
      ⟨v :: .object heap.length :: stack, locals, ⟨r, heap ++ [.array elems], t⟩⟩ =
      .ok ⟨.object heap.length :: stack, locals, ⟨r, heap ++ [.array (elems ++ [v])], t⟩⟩ := by
    simp [execDefineField, atomFromUInt32_isTaggedInt, atomToUInt32_atomFromUInt32 hlt]
  exact Executes.instr (by simp) hexec

/-- The elements that are stored at explicit indices. -/
theorem fieldCode_executes {f : Instr → Instr} (hf : KeepsLiterals construct cpool f) {heap : Heap}
    (stack locals : List JSValue) (r : Realm) (t : AtomTable) (data : List UInt8) :
    ∀ elems : List JSValue, elems.length + data.length < 2 ^ 31 →
      Executes construct cpool ((fieldCode elems.length data).map f)
        ⟨.object heap.length :: stack, locals, ⟨r, heap ++ [.array elems], t⟩⟩
        ⟨.object heap.length :: stack, locals,
          ⟨r, heap ++ [.array (elems ++ data.map byteValue)], t⟩⟩ := by
  induction data with
  | nil => intro elems _; rw [List.map_nil, List.append_nil]; exact Executes.nil _
  | cons b data ih =>
      intro elems hlen
      rw [List.length_cons] at hlen
      have hpush : Executes construct cpool [f (.pushI32 b.toNat)]
          ⟨.object heap.length :: stack, locals, ⟨r, heap ++ [.array elems], t⟩⟩
          ⟨byteValue b :: .object heap.length :: stack, locals, ⟨r, heap ++ [.array elems], t⟩⟩ :=
        hf.push _ _
      have hfield := hpush.append (defineField_executes (by omega) stack locals r t (byteValue b))
      have hcount : (elems ++ [byteValue b]).length = elems.length + 1 := List.length_append
      have hrest := ih (elems ++ [byteValue b]) (by omega)
      rw [hcount, List.append_assoc] at hrest
      rw [fieldCode, List.map_cons, List.map_cons, hf.field]
      exact hfield.append hrest

/-- **The array literal** makes the array of the bytes, with no hole. -/
theorem arrayCode_executes {f : Instr → Instr} (hf : KeepsLiterals construct cpool f)
    {data : List UInt8} (hlen : data.length < 2 ^ 31) (stack locals : List JSValue) (w : World) :
    Executes construct cpool ((arrayCode data).map f) ⟨stack, locals, w⟩
      ⟨.object w.heap.length :: stack, locals,
        ⟨w.realm, w.heap ++ [.array (data.map byteValue)], w.atoms⟩⟩ := by
  have hcount : ((data.take 32).map byteValue).length = min data.length 32 := by
    rw [List.length_map, List.length_take, min_comm]
  have hstack := stackCode_executes hf (data.take 32) stack locals w
  have harray : Executes construct cpool _ _ _ :=
    arrayFrom_executes ((data.take 32).map byteValue) stack locals w
  have hbound : ((data.take 32).map byteValue).length + (data.drop 32).length < 2 ^ 31 := by
    rw [hcount, List.length_drop]
    omega
  have hfields : Executes construct cpool _ ⟨.object w.heap.length :: stack, locals,
      ⟨w.realm, w.heap ++ [.array ((data.take 32).map byteValue)], w.atoms⟩⟩ _ :=
    fieldCode_executes hf stack locals w.realm w.atoms (data.drop 32) _ hbound
  rw [hcount, fieldCode_min, ← List.map_append, List.take_append_drop] at hfields
  rw [hcount] at harray
  have hcode : (arrayCode data).map f = (stackCode (data.take 32)).map f ++
      [.arrayFrom (min data.length 32)] ++ (fieldCode 32 (data.drop 32)).map f := by
    rw [arrayCode, List.map_append, List.map_append, List.map_singleton, hf.array]
  rw [hcode]
  exact (hstack.append harray).append hfields

/-- The constructor that the script calls is a global variable. -/
structure HasUint8Array (r : Realm) (ctor : JSValue) : Prop where
  lexical : r.globalVarObj atomUint8Array = none
  props : ∃ flags, r.globalObj.props atomUint8Array = some ⟨flags, .normal ctor⟩

theorem HasUint8Array.define {r : Realm} {ctor : JSValue} (h : HasUint8Array r ctor) {a : JSAtom}
    (ha : Undeclared r a) (hne : atomUint8Array ≠ a) :
    HasUint8Array (defineGlobalVar r a 0#8) ctor := by
  obtain ⟨flags, hprops⟩ := h.props
  rw [ha.define]
  exact ⟨h.lexical, flags, by rw [← hprops]; exact r.globalObj.put_props_ne _ hne⟩

theorem getUint8Array_executes {fr : Frame} {ctor : JSValue} (h : HasUint8Array fr.world.realm ctor) :
    Executes construct cpool [.getVar atomUint8Array] fr (fr.push ctor) := by
  obtain ⟨flags, hprops⟩ := h.props
  have hexec : execGetVar atomUint8Array fr = .ok (fr.push ctor) := by
    simp [execGetVar, getGlobalVar, getProperty, autoInitProperty, h.lexical, hprops]
  exact Executes.instr (by simp) hexec

/-- The arguments of the constructor call. -/
theorem binaryArguments_execute {w : World} {ctor : JSValue} (h : HasUint8Array w.realm ctor)
    {data : List UInt8} (hlen : data.length < 2 ^ 31) (locals : List JSValue) :
    Executes construct cpool
      ([Instr.getVar atomUint8Array] ++ ([Instr.dup] ++ (arrayCode data).map Instr.short))
      ⟨[], locals, w⟩
      ⟨[.object w.heap.length, ctor, ctor], locals,
        ⟨w.realm, w.heap ++ [.array (data.map byteValue)], w.atoms⟩⟩ := by
  have hget : Executes construct cpool [.getVar atomUint8Array] ⟨[], locals, w⟩
      ⟨[ctor], locals, w⟩ := getUint8Array_executes h
  have hdup : Executes construct cpool [.dup] ⟨[ctor], locals, w⟩ ⟨[ctor, ctor], locals, w⟩ :=
    Executes.instr (by simp) rfl
  exact hget.append (hdup.append
    (arrayCode_executes keepsLiterals_short hlen [ctor, ctor] locals w))

theorem binaryFinal_eq (data : List UInt8) :
    binaryFinal data = [Instr.getVar atomUint8Array] ++ ([Instr.dup] ++
      (arrayCode data).map Instr.short) ++ [Instr.callConstructor 1] := by
  simp [binaryFinal, binaryValue, Instr.short]

/-- The constructor call in the binary script. -/
def uint8ArrayCall (construct : Construct) (ctor : JSValue) (heap : Heap) (t : AtomTable)
    (data : List UInt8) : Eval (JSValue × Heap × AtomTable) :=
  construct (heap ++ [.array (data.map byteValue)]) t ctor [.object heap.length]

/-- The initial value in binary mode. -/
theorem binaryFinal_executes {w : World} {ctor v : JSValue} (h : HasUint8Array w.realm ctor)
    {data : List UInt8} (hlen : data.length < 2 ^ 31) (locals : List JSValue) {heap : Heap}
    {t : AtomTable} (hcall : uint8ArrayCall construct ctor w.heap w.atoms data = .ok (v, heap, t)) :
    Executes construct cpool (binaryFinal data) ⟨[], locals, w⟩ ⟨[v], locals, ⟨w.realm, heap, t⟩⟩ := by
  have hexec : execCallConstructor construct 1 ⟨[.object w.heap.length, ctor, ctor], locals,
      ⟨w.realm, w.heap ++ [.array (data.map byteValue)], w.atoms⟩⟩ =
      .ok ⟨[v], locals, ⟨w.realm, heap, t⟩⟩ := by
    rw [uint8ArrayCall] at hcall
    simp [execCallConstructor, hcall]
  rw [binaryFinal_eq]
  exact (binaryArguments_execute h hlen locals).append (Executes.instr (by simp) hexec)

end Value

/-! ## Freeing the function -/

/-- The table when the function of the script is freed, with the atoms `as` in the code of the
initial value. -/
def releasedAtoms (t : AtomTable) (filename out inp : JSAtom) (as : List JSAtom) : AtomTable :=
  freeAtom (freeAtoms t ([out, inp, out, inp] ++ as ++ [inp])) filename

theorem freeFunction_script (filename out inp : JSAtom) (value : List Instr) (n : ℕ)
    (t : AtomTable) :
    freeFunction ⟨atomEval, filename, finalCode out inp value, [atomRet], [], n⟩ t =
      releasedAtoms t filename out inp (value.filterMap Instr.atom?) := by
  have hatoms : (finalCode out inp value).filterMap Instr.atom? =
      [out, inp, out, inp] ++ value.filterMap Instr.atom? ++ [inp] := by
    rw [finalCode, List.filterMap_append, List.filterMap_append, List.filterMap_append]
    exact List.append_nil _
  have hret : ∀ t, freeAtoms t [atomRet] = t := freeAtoms_const (by simp [atomRet, atomIsConst, atomEnd])
  have heval : ∀ t, freeAtom t atomEval = t := fun t => freeAtom_const t (by decide)
  simp only [freeFunction, hret, heval, hatoms, releasedAtoms]

/-- The atoms of the array literal are predefined or integers. -/
theorem releasedAtoms_binary (t : AtomTable) (filename out inp : JSAtom) (data : List UInt8) :
    releasedAtoms t filename out inp ((binaryFinal data).filterMap Instr.atom?) =
      releasedAtoms t filename out inp [] := by
  have hpush : ∀ v a, (pushShortInt v).atom? = some a → atomIsConst a = true := by
    intro v a h
    rw [pushShortInt] at h
    split_ifs at h <;> exact absurd h (by simp [Instr.atom?])
  have htail := forall_mem_binaryTail
    (P := fun i => ∀ a, i.short.atom? = some a → atomIsConst a = true) hpush
    (fun n a h => absurd h (by simp [Instr.short, Instr.atom?]))
    (fun n a h => by
      rw [← Option.some.inj (show some (atomFromUInt32 n) = some a from h)]
      exact atomFromUInt32_isConst n)
    (fun a h => absurd h (by simp [Instr.short, Instr.atom?]))
    (fun a h => absurd h (by simp [Instr.short, Instr.atom?])) data
  have hconst : ∀ a ∈ (binaryFinal data).filterMap Instr.atom?, atomIsConst a = true := by
    intro a ha
    obtain ⟨i, hi, hia⟩ := List.mem_filterMap.mp ha
    obtain ⟨j, hj, rfl⟩ := List.mem_map.mp hi
    rcases List.mem_append.mp hj with hj | hj
    · rw [List.mem_singleton.mp hj] at hia
      rw [← Option.some.inj (show some atomUint8Array = some a from hia)]
      decide
    · exact htail j hj a hia
  rw [releasedAtoms, releasedAtoms, freeAtoms_append, freeAtoms_append, freeAtoms_const hconst,
    List.append_nil, freeAtoms_append]

/-! ## The whole of `JS_Eval` -/

/-- The global objects behind the script. -/
def inputRealm (r : Realm) (out inp : JSAtom) (v : JSValue) : Realm :=
  let r := defineGlobalVar (defineGlobalVar r out 0#8) inp 0#8
  { r with globalObj := r.globalObj.put inp ⟨⟨false, true, true⟩, .normal v⟩ }

/-- The table in which the initial value is computed: what compiling left, and a reference for
each of the two properties. -/
def runningAtoms (t : AtomTable) (out inp : JSAtom) : AtomTable :=
  dupAtom (dupAtom (compiledAtoms t out inp) out) inp

section Eval

variable {T : Tables} {m : Mem} {construct : Construct} {w : World} {filename out inp : JSAtom}
  {t t' : AtomTable} {heap : Heap} {ctor v : JSValue} {data : List UInt8}

/-- `JS_Eval` of a script that has been compiled, with an initial value of any kind. -/
theorem evalScript_of_compile {cfg : LexConfig} {len n : ℕ} {value : List Instr}
    (hcompile : compileScript cfg noneName m len w.atoms =
      .ok (⟨atomEval, filename, finalCode out inp value, [atomRet], [], n⟩, compiledAtoms t out inp))
    (hout : Undeclared w.realm out) (hin : Undeclared w.realm inp) (hne : out ≠ inp)
    (hvalue : Executes construct [] value
      ⟨[], [.undefined], declaredWorld ⟨w.realm, w.heap, compiledAtoms t out inp⟩ out inp⟩
      ⟨[v], [.undefined],
        ⟨(declaredWorld ⟨w.realm, w.heap, compiledAtoms t out inp⟩ out inp).realm, heap, t'⟩⟩) :
    evalHeader w.realm out inp v = .ok (inputRealm w.realm out inp v) ∧
      evalScript construct cfg noneName m len w = (offsets 0 (finalCode out inp value),
        .ok ⟨inputRealm w.realm out inp v, heap,
          releasedAtoms t' filename out inp (value.filterMap Instr.atom?)⟩) := by
  have hout' : Undeclared (World.mk w.realm w.heap (compiledAtoms t out inp)).realm out := hout
  have hrealm : (World.mk (declaredWorld w out inp).realm heap t').realm =
      (declaredWorld ⟨w.realm, w.heap, compiledAtoms t out inp⟩ out inp).realm := rfl
  obtain ⟨hheader, hrun⟩ := script_run hout' hin hne hrealm hvalue
  refine ⟨hheader, ?_⟩
  rw [evalScript, hcompile]
  simp only [List.map_cons, List.map_nil, hrun, Eval.ok_bind, Eval.pure_eq, freeFunction_script]
  rfl

/-- The two declarations leave the constructor alone. -/
theorem Named.declared_uint8Array (hn : Named w filename out inp t) (h : Fresh w)
    (hctor : HasUint8Array w.realm ctor) :
    HasUint8Array (defineGlobalVar (defineGlobalVar w.realm out 0#8) inp 0#8) ctor := by
  have hout := hn.undeclared_out h
  have hin := (hn.undeclared_inp h).define_other hn.out_ne_inp.symm hout
  exact (hctor.define hout (hn.out_ne_uint8Array h).symm).define hin (hn.inp_ne_uint8Array h).symm

/-- **`JS_Eval` of the binary script**, for an input that fits and with the result of the
constructor call. -/
theorem evalScript_binary (h : Fresh w) (hn : Named w filename out inp t)
    (hctor : HasUint8Array w.realm ctor) (hread : Reads m 0 (script false data ++ [0]))
    (hlen : data.length ≤ maxDelivered)
    (hcall : uint8ArrayCall construct ctor w.heap (runningAtoms (dupAtom t inp) out inp) data =
      .ok (v, heap, t')) :
    evalScript construct (globalConfig T) noneName m (script false data).length w =
      (offsets 0 (finalCode out inp (binaryFinal data)),
        .ok ⟨inputRealm w.realm out inp v, heap, releasedAtoms t' filename out inp []⟩) := by
  have hlen' : data.length < 2 ^ 31 := hlen.trans_lt (by decide)
  obtain ⟨n, hcompile⟩ := compileScript_binary (T := T) h hn hread hlen
  have heval := (evalScript_of_compile hcompile (hn.undeclared_out h) (hn.undeclared_inp h)
    hn.out_ne_inp (binaryFinal_executes (hn.declared_uint8Array h hctor) hlen' [.undefined] hcall)).2
  rwa [releasedAtoms_binary] at heval

/-- If the constructor call fails, so does the script. -/
theorem evalScript_binary_fails (h : Fresh w) (hn : Named w filename out inp t)
    (hctor : HasUint8Array w.realm ctor) (hread : Reads m 0 (script false data ++ [0]))
    (hlen : data.length ≤ maxDelivered)
    (hcall : (uint8ArrayCall construct ctor w.heap (runningAtoms (dupAtom t inp) out inp)
      data).Fails) :
    (evalScript construct (globalConfig T) noneName m (script false data).length w).2.Fails := by
  have hlen' : data.length < 2 ^ 31 := hlen.trans_lt (by decide)
  obtain ⟨n, hcompile⟩ := compileScript_binary (T := T) h hn hread hlen
  set w₁ : World := ⟨w.realm, w.heap, compiledAtoms (dupAtom t inp) out inp⟩
  have hout : Undeclared w₁.realm out := hn.undeclared_out h
  have hctor' : HasUint8Array (declaredWorld w₁ out inp).realm ctor := hn.declared_uint8Array h hctor
  have hdeclare : Executes construct [] _ _ _ :=
    declarations_execute hout (hn.undeclared_inp h) hn.out_ne_inp [.undefined]
  have hexec := hdeclare.append (binaryArguments_execute hctor' hlen' [.undefined])
  have hinstr : (execCallConstructor construct 1 ⟨[.object w.heap.length, ctor, ctor],
      [.undefined], ⟨(declaredWorld w₁ out inp).realm, w.heap ++ [.array (data.map byteValue)],
        runningAtoms (dupAtom t inp) out inp⟩⟩).Fails := hcall.bind _
  have hfails := hexec.fails (i := .callConstructor 1) (by simp) hinstr 0
    ([Instr.dup, Instr.putVar inp, Instr.drop, Instr.getLocShort 0] ++ [Instr.ret])
  have hcode : finalCode out inp (binaryFinal data) =
      [Instr.checkDefineVar out 0#8, Instr.checkDefineVar inp 0#8, Instr.defineVar out 0#8,
        Instr.defineVar inp 0#8] ++
        ([Instr.getVar atomUint8Array] ++ ([Instr.dup] ++ (arrayCode data).map Instr.short)) ++
        Instr.callConstructor 1 :: ([Instr.dup, Instr.putVar inp, Instr.drop, Instr.getLocShort 0] ++
          [Instr.ret]) := by
    rw [finalCode, binaryFinal_eq]
    simp
  rw [← hcode] at hfails
  rw [evalScript, hcompile]
  exact hfails.bind _

/-- A longer input ends in an exception, up to the length at which positions wrap around. -/
theorem evalScript_overflow (h : Fresh w) (hn : Named w filename out inp t)
    (hread : Reads m 0 (script false data ++ [0])) (hlen : maxDelivered < data.length)
    (hlen' : data.length ≤ 429496740) :
    evalScript construct (globalConfig T) noneName m (script false data).length w =
      ([], .exception "bytecode buffer overflow (op=%d, pc=%d)") := by
  rw [maxDelivered] at hlen
  obtain ⟨pos, hparses⟩ := binaryScript_parses (T := T) h hn hread (by omega)
  have hcompile := hparses.compileScript
  have hsize := codeSize_binaryProgram inp data
  rw [createFunction_overflow (by omega) (by omega)] at hcompile
  rw [evalScript, hcompile]

/-- What cannot be compiled is not run. -/
theorem evalScript_fails {cfg : LexConfig} {len : ℕ}
    (h : (compileScript cfg noneName m len w.atoms).Fails) :
    (evalScript construct cfg noneName m len w).2.Fails := by
  intro w'
  rw [evalScript]
  split
  · rename_i hcompile
    exact absurd hcompile (h _)
  · simp
  · simp

/-- **Only an input that fits gets through.** -/
theorem evalScript_binary_bound (h : Fresh w) (hn : Named w filename out inp t)
    (hread : Reads m 0 (script false data ++ [0])) {w' : World}
    (hok : (evalScript construct (globalConfig T) noneName m (script false data).length w).2 =
      .ok w') : data.length ≤ maxDelivered := by
  by_contra hlong
  rw [not_le] at hlong
  by_cases hwrap : data.length ≤ 429496740
  · rw [evalScript_overflow h hn hread hlong hwrap] at hok
    exact absurd hok (by simp)
  · by_cases hparse : data.length ≤ 0x7fffffff
    · obtain ⟨pos, hparses⟩ := binaryScript_parses (T := T) h hn hread hparse
      have hsize := codeSize_binaryProgram inp data
      refine evalScript_fails ?_ w' hok
      rw [hparses.compileScript, createFunction, resolveVariables, if_pos]
      · exact Eval.outside_fails
      · change 2 ^ 32 ≤ codeSize (programCode inp (binaryCode 1 data))
        omega
    · exact evalScript_fails (binaryScript_fails h hn hread (not_le.mp hparse)) w' hok

/-- What is known of a binary script that has been evaluated. -/
theorem evalScript_binary_inv (h : Fresh w) (hn : Named w filename out inp t)
    (hctor : HasUint8Array w.realm ctor) (hread : Reads m 0 (script false data ++ [0])) {w' : World}
    (hok : (evalScript construct (globalConfig T) noneName m (script false data).length w).2 =
      .ok w') :
    ∃ v heap t', uint8ArrayCall construct ctor w.heap (runningAtoms (dupAtom t inp) out inp) data =
        .ok (v, heap, t') ∧
      evalScript construct (globalConfig T) noneName m (script false data).length w =
        (offsets 0 (finalCode out inp (binaryFinal data)), .ok w') ∧
      w' = ⟨inputRealm w.realm out inp v, heap, releasedAtoms t' filename out inp []⟩ := by
  have hlen := evalScript_binary_bound h hn hread hok
  by_cases hcall : (uint8ArrayCall construct ctor w.heap (runningAtoms (dupAtom t inp) out inp)
      data).Fails
  · exact absurd hok (evalScript_binary_fails h hn hctor hread hlen hcall w')
  · rw [Eval.Fails, not_forall_not] at hcall
    obtain ⟨⟨v, heap, t'⟩, hcall⟩ := hcall
    have heval := evalScript_binary (T := T) h hn hctor hread hlen hcall
    rw [heval] at hok
    rw [Eval.ok.inj hok] at heval
    exact ⟨v, heap, t', hcall, heval, (Eval.ok.inj hok).symm⟩

/-! ## String mode -/

/-- The text of escape sequences is no number. -/
theorem isNumString_escapeUnits (data : List UInt8) :
    isNumString (data.flatMap escapeUnits) = none := by
  cases data with
  | nil => rfl
  | cons b data =>
      have hfirst : ∃ units, (b :: data).flatMap escapeUnits = 92 :: units := ⟨_, rfl⟩
      obtain ⟨units, hunits⟩ := hfirst
      rw [hunits]
      simp [isNumString]

theorem escapeUnits_ne_inputName (data : List UInt8) : data.flatMap escapeUnits ≠ inputName := by
  cases data with
  | nil => decide
  | cons b data =>
      intro h
      exact absurd (List.cons.inj (show (92 : UInt16) :: _ = 70 :: _ from h)).1 (by decide)

/-- The atom of the string literal. -/
theorem Named.literalAtom (hn : Named w filename out inp t) (data : List UInt8) :
    ∃ a t', newAtomStr (valueAtoms t inp) (data.flatMap escapeUnits) = some (a, t') ∧
      IsAtom t' a (data.flatMap escapeUnits) ∧ t'.size ≤ atomMax ∧ (valueAtoms t inp).Keeps t' := by
  have hsize : (valueAtoms t inp).size ≤ atomMax := by
    rw [valueAtoms, size_dupAtom, size_dupAtom, size_dupAtom]
    exact hn.size_le
  have hroom : 0 < (valueAtoms t inp).room atomPolicy := by
    rw [valueAtoms, room_dupAtom, room_dupAtom, room_dupAtom]
    exact hn.room
  obtain ⟨a, t', hnew, hatom, hsize', hkeeps, -⟩ :=
    newAtomStr_spec (isNumString_escapeUnits data) hsize hroom
  exact ⟨a, t', hnew, hatom, hsize', hkeeps⟩

theorem IsAtom.not_taggedInt {t : AtomTable} {a : JSAtom} {units : List UInt16}
    (h : IsAtom t a units) (hsize : t.size ≤ atomMax) : atomIsTaggedInt a = false := by
  have hlt := h.lt
  rw [atomMax] at hsize
  rw [atomIsTaggedInt, BitVec.msb_eq_false_iff_two_mul_lt]
  omega

/-- The value of the string literal, whichever instruction pushes it. -/
theorem stringFinal_executes {w : World} {cpool : List JSValue} {a : JSAtom} {units : List UInt16}
    (hatom : IsAtom w.atoms a units) (ha : atomIsTaggedInt a = false) {str : JSString}
    (hstr : JSString.ofUnits units = some str) (locals : List JSValue) :
    Executes construct cpool (stringFinal a) ⟨[], locals, w⟩ ⟨[.string str], locals, w⟩ := by
  have hunits : atomToUnits w.atoms a = some units := by
    obtain ⟨⟨k, n⟩, hslot, rfl⟩ := Option.map_eq_some_iff.mp hatom
    rw [atomToUnits, if_neg (by rw [ha]; simp), hslot]
  have hexec : execPushAtomValue a ⟨[], locals, w⟩ = .ok ⟨[.string str], locals, w⟩ := by
    rw [execPushAtomValue, hunits, Option.bind_some, hstr]
    rfl
  rw [stringFinal]
  split
  · rename_i heq
    rw [heq] at hexec
    exact Executes.instr (by simp) hexec
  · exact Executes.instr (by simp) hexec

/-- **`JS_Eval` of the string script**, as long as the literal is not longer than a string. -/
theorem evalScript_string (construct : Construct) (h : Fresh w) (hn : Named w filename out inp t)
    (hread : Reads m 0 (script true data ++ [0]))
    (hlen : (data.flatMap escapeUnits).length ≤ stringLenMax) :
    ∃ a t' str, IsAtom t' a (data.flatMap escapeUnits) ∧ (valueAtoms t inp).Keeps t' ∧
      str.codeUnits = data.flatMap escapeUnits ∧
      evalScript construct (globalConfig T) noneName m (script true data).length w =
        (offsets 0 (finalCode out inp (stringFinal a)),
          .ok ⟨inputRealm w.realm out inp (.string str), w.heap,
            releasedAtoms (runningAtoms (freeAtom (freeAtom t' inp) inp) out inp) filename out inp
              ((stringFinal a).filterMap Instr.atom?)⟩) := by
  obtain ⟨a, t', hnew, hatom, hsize, hkeeps⟩ := hn.literalAtom data
  obtain ⟨str, hstr⟩ := JSString.ofUnits_isSome hlen
  refine ⟨a, t', str, hatom, hkeeps, JSString.codeUnits_ofUnits hstr, ?_⟩
  have ha := IsAtom.not_taggedInt hatom hsize
  obtain ⟨pos, hparses⟩ := stringScript_parses (T := T) hn hread hlen hnew ha
  obtain ⟨n, hcreate⟩ := createFunction_string filename out pos (hn.inp_ne_ret h) a
    (freeAtom (freeAtom t' inp) inp)
  have hne : a ≠ inp := by
    refine hatom.ne ((hn.inpAtom.keeps ?_).keeps hkeeps) (escapeUnits_ne_inputName data)
    exact ((keeps_dupAtom _ _).trans (keeps_dupAtom _ _)).trans (keeps_dupAtom _ _)
  have hatom' : IsAtom (runningAtoms (freeAtom (freeAtom t' inp) inp) out inp) a
      (data.flatMap escapeUnits) :=
    (((((hatom.owned.free_ne hne).free_ne hne).1.dupAtom _).dupAtom _).dupAtom _).dupAtom _
  exact (evalScript_of_compile (hparses.compileScript.trans hcreate) (hn.undeclared_out h)
    (hn.undeclared_inp h) hn.out_ne_inp (stringFinal_executes hatom' ha hstr [.undefined])).2

/-! ## The name of the variable afterwards -/

/-- The property of the global object keeps its name alive when the function is freed. -/
theorem released_isAtom (hinp : Owned t inp inputName 2) (hout : inp ≠ out) (hfile : inp ≠ filename)
    (hkeeps : (runningAtoms t out inp).Keeps t') {as : List JSAtom} (has : inp ∉ as) :
    IsAtom (releasedAtoms t' filename out inp as) inp inputName := by
  have hrunning : Owned t' inp inputName 4 :=
    (((hinp.dup_ne hout).dup.dup_ne hout).dup).keeps hkeeps
  have hfirst : Owned (freeAtoms t' [out, inp, out, inp]) inp inputName 2 :=
    (((hrunning.free_ne hout).free (by decide)).free_ne hout).free (by decide)
  have hvalue : ∀ t, Owned t inp inputName 2 → Owned (freeAtoms t as) inp inputName 2 := by
    induction as with
    | nil => exact fun t ht => ht
    | cons a as ih =>
        rw [List.mem_cons, not_or] at has
        exact fun t ht => ih has.2 _ (ht.free_ne has.1)
  rw [releasedAtoms, freeAtoms_append, freeAtoms_append]
  exact (((hvalue _ hfirst).free (by decide)).free_ne hfile).1

end Eval

end Host
end FuzzerJs
