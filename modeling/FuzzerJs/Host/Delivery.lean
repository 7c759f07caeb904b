import FuzzerJs.Host.ScriptEval

/-!
# What the target finds in `FuzzerInput`

The two modes of `JS::Run`, from the input to the global variable.

* `binaryInput_delivered`: in binary mode the variable is an array of exactly the bytes of
  the input, as long as the code of the script fits an `int`.
* `stringInput_delivered_iff`: in string mode only the empty input arrives as it is; every
  other one arrives as the text of its escape sequences.
-/

namespace FuzzerJs
namespace Host

open Engine Scan

/-- The script evaluates, and in the world `w'` that it leaves `FuzzerInput` is `v`. -/
def Finds (construct : Construct) (cfg : LexConfig) (m : Mem) (len : ℕ) (w : World) (v : JSValue)
    (w' : World) : Prop :=
  (evalScript construct cfg noneName m len w).2 = .ok w' ∧
    ∃ a, Engine.IsAtom w'.atoms a inputName ∧
      ∀ inherited, getGlobalVar w'.realm a inherited = .value v

theorem Finds.unique {construct : Construct} {cfg : LexConfig} {m : Mem} {len : ℕ} {w : World}
    {v v' : JSValue} {w₁ w₂ : World} (h : Finds construct cfg m len w v w₁)
    (h' : Finds construct cfg m len w v' w₂) : v = v' ∧ w₁ = w₂ := by
  obtain ⟨hok, a, ha, hv⟩ := h
  obtain ⟨hok', a', ha', hv'⟩ := h'
  have hw : w₁ = w₂ := Eval.ok.inj (hok.symm.trans hok')
  subst hw
  have heq : a = a' := BitVec.eq_of_toNat_eq (w₁.atoms.unique _ _ _ ha ha')
  subst heq
  have hval := (hv (.value v)).symm.trans (hv' (.value v))
  exact ⟨ReadResult.value.inj hval, rfl⟩

/-- The script of any mode, evaluated with the value `v`. -/
theorem Named.finds {construct : Construct} {cfg : LexConfig} {m : Mem} {len : ℕ} {w : World}
    {filename out inp : JSAtom} {t t₁ t' : AtomTable} (hn : Named w filename out inp t)
    (h : Fresh w) {pcs : List ℕ} {v : JSValue} {heap : Heap} {as : List JSAtom}
    (heval : evalScript construct cfg noneName m len w =
      (pcs, .ok ⟨inputRealm w.realm out inp v, heap, releasedAtoms t' filename out inp as⟩))
    (hinp : Owned t₁ inp inputName 2) (hkeeps : (runningAtoms t₁ out inp).Keeps t')
    (has : inp ∉ as) :
    Finds construct cfg m len w v
      ⟨inputRealm w.realm out inp v, heap, releasedAtoms t' filename out inp as⟩ := by
  have hin := (hn.undeclared_inp h).define_other hn.out_ne_inp.symm (hn.undeclared_out h)
  have hlex : (defineGlobalVar (defineGlobalVar w.realm out 0#8) inp 0#8).globalVarObj inp = none := by
    rw [hin.define]
    exact hin.lexical
  refine ⟨by rw [heval], inp, ?_, fun inherited => ?_⟩
  · exact released_isAtom hinp hn.out_ne_inp.symm hn.inp_ne_filename hkeeps has
  · simp [getGlobalVar, getProperty, inputRealm, hlex]

/-! ## A small world -/

/-- The entries of a table that holds the predefined atoms the script needs. -/
def bareSlot (i : ℕ) : Option (AtomKey × ℕ) :=
  if i = 47 then some (.string [], 1)
  else if i = 80 then some (.string (nameUnits (asciiBytes "<ret>")), 1)
  else if i = 160 then some (.string (nameUnits (asciiBytes "Uint8Array")), 1)
  else none

theorem bareSlot_eq_some {i : ℕ} {a : AtomKey × ℕ} (h : bareSlot i = some a) :
    (i = 47 ∧ a = (.string [], 1)) ∨ (i = 80 ∧ a = (.string (nameUnits (asciiBytes "<ret>")), 1)) ∨
      (i = 160 ∧ a = (.string (nameUnits (asciiBytes "Uint8Array")), 1)) := by
  unfold bareSlot at h
  split_ifs at h with h₁ h₂ h₃
  · exact Or.inl ⟨h₁, (Option.some.inj h).symm⟩
  · exact Or.inr (Or.inl ⟨h₂, (Option.some.inj h).symm⟩)
  · exact Or.inr (Or.inr ⟨h₃, (Option.some.inj h).symm⟩)

/-- The table, with the three free entries that are behind the predefined ones. -/
def bareAtoms : AtomTable where
  slot := bareSlot
  size := 211
  free := [208, 209, 210]
  slot_lt i h := by
    obtain ⟨a, ha⟩ := Option.isSome_iff_exists.mp h
    rcases bareSlot_eq_some ha with ⟨rfl, -⟩ | ⟨rfl, -⟩ | ⟨rfl, -⟩ <;> decide
  free_lt := by decide
  free_empty := by decide
  free_nodup := by decide
  count_pos i a h := by
    rcases bareSlot_eq_some h with ⟨-, rfl⟩ | ⟨-, rfl⟩ | ⟨-, rfl⟩ <;> decide
  unique i j k hi hj := by
    obtain ⟨a, ha, rfl⟩ := Option.map_eq_some_iff.mp hi
    obtain ⟨b, hb, hab⟩ := Option.map_eq_some_iff.mp hj
    rcases bareSlot_eq_some ha with ⟨rfl, rfl⟩ | ⟨rfl, rfl⟩ | ⟨rfl, rfl⟩ <;>
      rcases bareSlot_eq_some hb with ⟨rfl, rfl⟩ | ⟨rfl, rfl⟩ | ⟨rfl, rfl⟩ <;>
        first | rfl | exact absurd hab (by decide)

/-- A world whose only global name is `Uint8Array`. -/
def bareWorld : World where
  realm := ⟨⟨fun a => if a = atomUint8Array then some ⟨⟨true, true, false⟩, .normal (.object 0)⟩
    else none, true, none⟩, fun _ => none⟩
  heap := [.other]
  atoms := bareAtoms

theorem bareWorld_fresh : Fresh bareWorld where
  size_le := by decide
  room := by decide
  emptyString := rfl
  ret := rfl
  uint8Array := rfl
  names a h := by
    have ha : a = atomUint8Array := by
      by_contra hne
      simp [bareWorld, hne] at h
    exact ⟨.string (nameUnits (asciiBytes "Uint8Array")), by rw [ha]; rfl, by decide, by decide⟩
  extensible := rfl

theorem bareWorld_hasUint8Array : HasUint8Array bareWorld.realm (.object 0) := ⟨rfl, _, rfl⟩

/-- The low byte of an integer. -/
def lowByte : JSValue → UInt8
  | .int i => UInt8.ofNat i.toNat
  | _ => 0

/-- A constructor that copies the elements of an array, and makes no atoms. -/
def copyElements : Construct := fun heap t _ args =>
  match args with
  | [.object ref] =>
    match heap[ref]? with
    | some (.array elems) =>
      .ok (.object heap.length, heap ++ [.uint8Array (elems.map lowByte)], t)
    | _ => .outside
  | _ => .outside

/-! ## Binary mode -/

/-- `new Uint8Array(a)` of a plain array makes a new object with the elements of the array modulo
256.  It may make atoms, but none that is in use goes. -/
def CopiesArray (construct : Construct) (ctor : JSValue) : Prop :=
  ∀ (heap : Heap) (t : AtomTable) (ref : ℕ) (ints : List (BitVec 32)),
    heap[ref]? = some (.array (ints.map .int)) →
    ∃ ref' heap' t', construct heap t ctor [.object ref] = .ok (.object ref', heap', t') ∧
      heap'[ref']? = some (.uint8Array (ints.map fun i => UInt8.ofNat i.toNat)) ∧ t.Keeps t'

/-- The input is delivered in binary mode: the text is parsed into an array literal of exactly its
bytes, without holes, and `FuzzerInput` is a `Uint8Array` of them. -/
structure BinaryDelivered (construct : Construct) (T : Tables) (m : Mem) (w : World)
    (data : List UInt8) : Prop where
  literal : ∃ fd t before lit after,
    ParsesTo (globalConfig T) m (script false data).length w.atoms fd t ∧
    fd.byteCode = before ++ lit ++ after ∧
    ∀ stack locals (u : World), Executes construct [] lit ⟨stack, locals, u⟩
      ⟨.object u.heap.length :: stack, locals,
        ⟨u.realm, u.heap ++ [.array (data.map byteValue)], u.atoms⟩⟩
  found : ∃ w' ref,
    Finds construct (globalConfig T) m (script false data).length w (.object ref) w' ∧
    w'.heap[ref]? = some (.uint8Array data)

theorem copyElements_copiesArray (ctor : JSValue) : CopiesArray copyElements ctor := by
  intro heap t ref ints h
  have hcall : copyElements heap t ctor [.object ref] = .ok (.object heap.length,
      heap ++ [.uint8Array ((ints.map JSValue.int).map lowByte)], t) := by
    simp only [copyElements, h]
  refine ⟨heap.length, _, t, hcall, ?_, Intern.Table.Keeps.refl t⟩
  rw [List.getElem?_concat_length, List.map_map]
  rfl

section Binary

variable {construct : Construct} {T : Tables} {m : Mem} {w : World} {ctor : JSValue}
  {data : List UInt8}

/-- Bytes survive the conversion to integers and back. -/
theorem CopiesArray.bytes (hcopy : CopiesArray construct ctor) (heap : Heap) (t : AtomTable)
    (data : List UInt8) :
    ∃ ref heap' t', uint8ArrayCall construct ctor heap t data = .ok (.object ref, heap', t') ∧
      heap'[ref]? = some (.uint8Array data) ∧ t.Keeps t' := by
  have hints : data.map byteValue = (data.map fun b => BitVec.ofInt 32 b.toNat).map .int := by
    rw [List.map_map]
    rfl
  have hbytes : (data.map fun b => BitVec.ofInt 32 b.toNat).map (fun i => UInt8.ofNat i.toNat) =
      data := by
    rw [List.map_map]
    refine (List.map_congr_left fun b _ => ?_).trans (List.map_id data)
    have hlt := b.toNat_lt
    simp only [Function.comp_apply, id_eq, BitVec.ofInt_natCast, BitVec.toNat_ofNat]
    rw [Nat.mod_eq_of_lt (by omega), UInt8.ofNat_toNat]
  have hcall := hcopy (heap ++ [.array (data.map byteValue)]) t heap.length
    (data.map fun b => BitVec.ofInt 32 b.toNat) (by rw [← hints, List.getElem?_concat_length])
  rwa [hbytes] at hcall

theorem Fresh.binaryDelivered (h : Fresh w) (hctor : HasUint8Array w.realm ctor)
    (hcopy : CopiesArray construct ctor) (hread : Reads m 0 (script false data ++ [0]))
    (hlen : data.length ≤ maxDelivered) : BinaryDelivered construct T m w data := by
  obtain ⟨filename, out, inp, t, hn⟩ := h.named
  have hlen' : data.length < 2 ^ 31 := hlen.trans_lt (by decide)
  constructor
  · obtain ⟨pos, hparses⟩ := binaryScript_parses (T := T) h hn hread (by omega)
    refine ⟨_, _, [.lineNum 0, .enterScope 1, .lineNum 1, .scopeMakeRef inp 0 1,
      .scopeGetVar atomUint8Array 1, .dup], arrayCode data, [.callConstructor 1, .label 0, .insert3,
      .putRefValue, .drop, .getLoc 0, .ret], hparses, ?_, ?_⟩
    · simp [scriptDef, programCode, binaryCode]
    · intro stack locals u
      have hexec : Executes construct [] ((arrayCode data).map id) _ _ :=
        arrayCode_executes keepsLiterals_id hlen' stack locals u
      rwa [List.map_id] at hexec
  · obtain ⟨ref, heap, t', hconstruct, hheap, hkeeps⟩ :=
      hcopy.bytes w.heap (runningAtoms (dupAtom t inp) out inp) data
    have heval := evalScript_binary (T := T) h hn hctor hread hlen hconstruct
    exact ⟨_, ref, hn.finds h heval hn.inpAtom.owned.dup hkeeps (by simp), hheap⟩

theorem Fresh.not_binaryDelivered (construct : Construct) (T : Tables) (h : Fresh w) (hread : Reads m 0 (script false data ++ [0]))
    (hlen : maxDelivered < data.length) (hlen' : data.length ≤ 429496740) :
    ¬ BinaryDelivered construct T m w data := by
  intro hdelivered
  obtain ⟨filename, out, inp, t, hn⟩ := h.named
  obtain ⟨w', ref, ⟨hok, -⟩, -⟩ := hdelivered.found
  rw [evalScript_overflow h hn hread hlen hlen'] at hok
  exact absurd hok (by simp)

/-- **Binary input is delivered as long as the code fits**, and up to the length at which the
positions in the code wrap around a second time, only then. -/
theorem binaryInput_delivered (T : Tables) (h : Fresh w) (hctor : HasUint8Array w.realm ctor)
    (hcopy : CopiesArray construct ctor) (hread : Reads m 0 (script false data ++ [0])) :
    (data.length ≤ maxDelivered → BinaryDelivered construct T m w data) ∧
    (data.length ≤ 429496740 →
      (BinaryDelivered construct T m w data ↔ data.length ≤ maxDelivered)) := by
  have hfits := h.binaryDelivered (T := T) hctor hcopy hread
  refine ⟨hfits, fun hlen => ⟨fun hdelivered => ?_, hfits⟩⟩
  by_contra hlong
  exact h.not_binaryDelivered construct T hread (not_le.mp hlong) hlen hdelivered

theorem bareWorld_delivers (data : List UInt8) (hlen : data.length ≤ maxDelivered) :
    BinaryDelivered copyElements asciiTables (terminated (script false data)) bareWorld data :=
  bareWorld_fresh.binaryDelivered bareWorld_hasUint8Array (copyElements_copiesArray _)
    (terminated_reads _) hlen

/-- Two bytes, in the small world. -/
theorem binaryInput_delivered_pair :
    BinaryDelivered copyElements asciiTables (terminated (script false [7, 200])) bareWorld
      [7, 200] :=
  (binaryInput_delivered asciiTables bareWorld_fresh bareWorld_hasUint8Array
    (copyElements_copiesArray _) (terminated_reads _)).1 (by decide)

/-- `214748376` zeros: their code has `2 ^ 31 + 2` bytes. -/
theorem binaryInput_not_delivered :
    ¬ ∀ data : List UInt8, data.length < 0x7fffffff →
      BinaryDelivered copyElements asciiTables (terminated (script false data)) bareWorld data := by
  intro hall
  have hlen : (List.replicate 214748376 (0 : UInt8)).length = 214748376 := List.length_replicate
  refine bareWorld_fresh.not_binaryDelivered copyElements asciiTables (terminated_reads _) ?_ ?_
    (hall (List.replicate 214748376 0) ?_)
  · rw [hlen]
    decide
  · rw [hlen]
    decide
  · rw [hlen]
    decide

end Binary

/-! ## String mode -/

/-- The input is delivered in string mode: `FuzzerInput` is a string with one code unit for each
byte. -/
def StringDelivered (construct : Construct) (T : Tables) (m : Mem) (w : World)
    (data : List UInt8) : Prop :=
  ∃ w' str, Finds construct (globalConfig T) m (script true data).length w (.string str) w' ∧
    str.codeUnits = data.map UInt8.toUInt16

section String

variable {T : Tables} {m : Mem} {w : World} {data : List UInt8}

theorem length_escapeUnits (data : List UInt8) :
    (data.flatMap escapeUnits).length = 4 * data.length := by
  induction data with
  | nil => rfl
  | cons b data ih =>
      rw [List.flatMap_cons, List.length_append, ih, List.length_cons,
        show (escapeUnits b).length = 4 from rfl]
      omega

/-- What is found in string mode is the text of the escape sequences. -/
theorem Fresh.finds_escapeUnits (construct : Construct) (h : Fresh w)
    (hread : Reads m 0 (script true data ++ [0])) (hlen : 4 * data.length ≤ stringLenMax) :
    ∃ w' str, Finds construct (globalConfig T) m (script true data).length w (.string str) w' ∧
      str.codeUnits = data.flatMap escapeUnits := by
  obtain ⟨filename, out, inp, t, hn⟩ := h.named
  rw [← length_escapeUnits] at hlen
  obtain ⟨a, t', str, hatom, hkeeps, hstr, heval⟩ :=
    evalScript_string (T := T) construct h hn hread hlen
  have hinp : Owned t' inp inputName 4 := hn.inpAtom.owned.dup.dup.dup.keeps hkeeps
  have hinp' : Owned (freeAtom (freeAtom t' inp) inp) inp inputName 2 :=
    (hinp.free (by decide)).free (by decide)
  have hne : inp ≠ a := hinp.1.ne hatom (escapeUnits_ne_inputName data).symm
  have hvalue : inp ∉ (stringFinal a).filterMap Instr.atom? := by
    rw [stringFinal]
    split
    · exact List.not_mem_nil
    · exact fun hmem => hne (List.mem_singleton.mp hmem)
  exact ⟨_, str, hn.finds h heval hinp' (Intern.Table.Keeps.refl _) hvalue, hstr⟩

/-- **In string mode only the empty input is delivered.** -/
theorem stringInput_delivered_iff (construct : Construct) (T : Tables) (h : Fresh w)
    (hread : Reads m 0 (script true data ++ [0])) (hlen : 4 * data.length ≤ stringLenMax) :
    StringDelivered construct T m w data ↔ data = [] := by
  obtain ⟨w₁, str₁, hfinds, hunits⟩ := h.finds_escapeUnits (T := T) construct hread hlen
  constructor
  · rintro ⟨w₂, str₂, hfinds₂, hunits₂⟩
    have hstr : str₁ = str₂ := JSValue.string.inj (hfinds.unique hfinds₂).1
    rw [← hstr, hunits] at hunits₂
    have hcount := congrArg List.length hunits₂
    rw [length_escapeUnits, List.length_map] at hcount
    exact List.length_eq_zero_iff.mp (by omega)
  · rintro rfl
    exact ⟨w₁, str₁, hfinds, hunits⟩

/-- The empty input, in the small world. -/
theorem stringInput_delivered_empty :
    StringDelivered copyElements asciiTables (terminated (script true [])) bareWorld [] :=
  (stringInput_delivered_iff copyElements asciiTables bareWorld_fresh (terminated_reads _)
    (by decide)).mpr rfl

/-- The letter `A` arrives as four letters. -/
theorem stringInput_not_delivered :
    ¬ ∀ data : List UInt8, 4 * data.length ≤ stringLenMax →
      StringDelivered copyElements asciiTables (terminated (script true data)) bareWorld data := by
  intro hall
  obtain ⟨w₁, str₁, hfinds, hunits⟩ := hall [0x41] (by decide)
  obtain ⟨w₂, str₂, hfinds₂, hunits₂⟩ := bareWorld_fresh.finds_escapeUnits (T := asciiTables)
    copyElements (terminated_reads (script true [0x41])) (by decide)
  have hstr : str₁ = str₂ := JSValue.string.inj (hfinds.unique hfinds₂).1
  rw [← hstr, hunits] at hunits₂
  exact absurd hunits₂ (by decide)

end String

end Host
end FuzzerJs
