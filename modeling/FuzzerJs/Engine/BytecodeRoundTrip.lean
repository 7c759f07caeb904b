import FuzzerJs.Engine.BytecodeWriter

/-!
# Reading back what was written

Every part of the reader takes what the writer puts for it (`Wire.Takes`): numbers, strings,
atoms, code, and with them whole objects (`BCObject.Fits.readsBack`).  Atoms get other numbers on
the way, in the object as well as in its code; `AtomResolves` is all that is asked of these numbers.
-/

namespace FuzzerJs
namespace Engine

open Read Wire

/-! ## Numbers -/

theorem takes_getU8 (v : UInt8) : Takes getU8 [v] v := fun _ => rfl

theorem takes_getBuf (bytes : List UInt8) : Takes (getBuf bytes.length) bytes bytes := by
  intro rest
  have hlen : ¬ (bytes ++ rest).length < bytes.length := by simp
  rw [getBuf, if_neg hlen, List.take_left, List.drop_left]
  rfl

theorem Takes.halfRead {α : Type} {r : Read α} {bytes : List UInt8} {a : α} (h : Takes r bytes a) :
    Takes (halfRead r) bytes a := fun rest => halfRead_eq_ok.mpr (h rest)

/-- A number of `n` bytes. -/
theorem takes_littleEndian (n v : ℕ) : Takes (getBuf n) (toLittleEndian n v) (toLittleEndian n v) := by
  have h := takes_getBuf (toLittleEndian n v)
  rwa [length_toLittleEndian] at h

theorem ushiftRight_seven_or (w : BitVec 32) (shift : ℕ) :
    (w &&& 0x7f#32) <<< shift ||| (w >>> 7) <<< (shift + 7) = w <<< shift := by
  have hmask : ∀ i, (0x7f#32).getLsbD i = decide (i < 7) := by
    intro i
    by_cases hi : i < 32
    · interval_cases i <;> rfl
    · rw [BitVec.getLsbD_of_ge _ _ (by omega)]
      simp
      omega
  apply BitVec.eq_of_getLsbD_eq
  intro i hi
  simp only [BitVec.getLsbD_or, BitVec.getLsbD_shiftLeft, BitVec.getLsbD_and,
    BitVec.getLsbD_ushiftRight, hmask]
  by_cases hs : i < shift
  · simp [hs, Nat.lt_add_right 7 hs]
  · by_cases hs' : i < shift + 7
    · simp [hs, hs', hi]
      omega
    · have hidx : 7 + (i - (shift + 7)) = i - shift := by omega
      simp [hs, hs', hi, hidx]
      omega

/-- The seven bits in a byte, with and without the mark that more follow. -/
theorem leb128_byte {n : ℕ} (h : n < 128) :
    (UInt8.ofNat n &&& 0x80 = 0 ∧ (UInt8.ofNat n &&& 0x7f).toNat = n) ∧
      (UInt8.ofNat n ||| 0x80) &&& 0x80 ≠ 0 ∧ ((UInt8.ofNat n ||| 0x80) &&& 0x7f).toNat = n := by
  revert n
  decide

/-- The loop of the reader, in front of what is left of a number. -/
theorem takes_getLeb128Loop (n : ℕ) : ∀ (shift : ℕ) (v w : BitVec 32), w.toNat < 2 ^ (7 * (n + 1)) →
    Takes (getLeb128Loop (n + 1) shift v) (putLeb128Loop (n + 1) w) (v ||| w <<< shift) := by
  have hlow : ∀ w : BitVec 32, (w &&& 0x7f#32).toNat < 128 := by
    intro w
    rw [BitVec.toNat_and]
    exact Nat.lt_of_le_of_lt Nat.and_le_right (by decide)
  have hback : ∀ w : BitVec 32, BitVec.ofNat 32 (w &&& 0x7f#32).toNat = w &&& 0x7f#32 :=
    fun w => by rw [BitVec.ofNat_toNat, BitVec.setWidth_eq]
  -- the last byte
  have hlast : ∀ (n shift : ℕ) (v w : BitVec 32), w >>> 7 = 0#32 →
      Takes (getLeb128Loop (n + 1) shift v) (putLeb128Loop (n + 1) w) (v ||| w <<< shift) := by
    intro n shift v w hw
    obtain ⟨⟨hstop, hbits⟩, -⟩ := leb128_byte (hlow w)
    rw [putLeb128Loop, if_pos hw, getLeb128Loop]
    refine (takes_getU8 _).last ?_
    have hall := ushiftRight_seven_or w shift
    rw [hw, BitVec.zero_shiftLeft, BitVec.or_zero] at hall
    simp only [hstop, hbits, hback, hall, if_true]
  induction n with
  | zero =>
      intro shift v w hw
      apply hlast
      apply BitVec.eq_of_toNat_eq
      rw [BitVec.toNat_ushiftRight, Nat.shiftRight_eq_div_pow]
      exact Nat.div_eq_of_lt hw
  | succ n ih =>
      intro shift v w hw
      by_cases hzero : w >>> 7 = 0#32
      · exact hlast (n + 1) shift v w hzero
      · obtain ⟨-, hmore, hbits⟩ := leb128_byte (hlow w)
        have hnext : (w >>> 7).toNat < 2 ^ (7 * (n + 1)) := by
          rw [BitVec.toNat_ushiftRight, Nat.shiftRight_eq_div_pow]
          apply Nat.div_lt_of_lt_mul
          rwa [← Nat.pow_add, Nat.add_comm, ← Nat.mul_succ]
        have hrest := ih (shift + 7) (v ||| (w &&& 0x7f#32) <<< shift) (w >>> 7) hnext
        rw [BitVec.or_assoc, ushiftRight_seven_or] at hrest
        rw [putLeb128Loop, if_neg hzero, getLeb128Loop]
        refine (takes_getU8 _).bind ?_
        simp only [hmore, hbits, hback, if_false]
        exact hrest

theorem takes_getLeb128 (v : BitVec 32) : Takes getLeb128 (putLeb128 v) v := by
  have h := takes_getLeb128Loop 4 0 0#32 v (v.isLt.trans (by decide))
  rwa [BitVec.shiftLeft_zero, BitVec.zero_or] at h

/-- A number that is cut to 16 bits. -/
theorem takes_getLeb128U16 (v : BitVec 16) : Takes getLeb128U16 (putLeb128 (v.setWidth 32)) v := by
  refine (takes_getLeb128 _).last ?_
  rw [BitVec.setWidth_setWidth_of_le _ (by decide), BitVec.setWidth_eq]

/-- The sign, which is written in the lowest bit, goes back to the highest. -/
theorem unzigzag (v : BitVec 32) :
    (2 * v ^^^ -(v >>> 31)) >>> 1 ^^^ -((2 * v ^^^ -(v >>> 31)) &&& 1#32) = v := by
  have htwo : 2 * v = v <<< 1 := by
    apply BitVec.eq_of_toNat_eq
    simp [BitVec.toNat_mul, Nat.shiftLeft_eq, Nat.mul_comm]
  have hsign : v >>> 31 = if v.getLsbD 31 then 1#32 else 0#32 := by
    apply BitVec.eq_of_getLsbD_eq
    intro i hi
    rw [BitVec.getLsbD_ushiftRight]
    cases i with
    | zero => cases v.getLsbD 31 <;> rfl
    | succ i =>
        rw [BitVec.getLsbD_of_ge _ _ (by omega)]
        cases v.getLsbD 31 <;> simp
  have hall : ∀ (b : Bool) (i : ℕ), i < 32 → (-(if b then 1#32 else 0#32)).getLsbD i = b := by
    intro b i hi
    cases b with
    | false => simp
    | true =>
        rw [if_pos rfl, show -1#32 = BitVec.allOnes 32 by decide, BitVec.getLsbD_allOnes]
        exact decide_eq_true hi
  -- the lowest bit of what is written is the sign
  have hlow : (v <<< 1 ^^^ -(if v.getLsbD 31 then 1#32 else 0#32)) &&& 1#32 =
      if v.getLsbD 31 then 1#32 else 0#32 := by
    apply BitVec.eq_of_getLsbD_eq
    intro i hi
    rw [BitVec.getLsbD_and, BitVec.getLsbD_xor, hall _ i hi, BitVec.getLsbD_shiftLeft]
    cases i with
    | zero => cases v.getLsbD 31 <;> rfl
    | succ i => cases v.getLsbD 31 <;> simp
  rw [htwo, hsign, hlow]
  apply BitVec.eq_of_getLsbD_eq
  intro i hi
  rw [BitVec.getLsbD_xor, hall _ i hi, BitVec.getLsbD_ushiftRight, BitVec.getLsbD_xor]
  by_cases hlast : i = 31
  · subst hlast
    rw [BitVec.getLsbD_of_ge _ _ (by omega), BitVec.getLsbD_of_ge _ _ (by omega)]
    simp
  · rw [hall _ (1 + i) (by omega), BitVec.getLsbD_shiftLeft]
    have hlt : 1 + i < 32 := by omega
    simp [hlt]

theorem takes_getSleb128 (v : BitVec 32) : Takes getSleb128 (putSleb128 v) v :=
  (takes_getLeb128 _).last (congrArg pure (unzigzag v))

/-- A number that is the size of something. -/
theorem takes_getLeb128Int {n : ℕ} (h : n < 2 ^ 31) :
    Takes getLeb128Int (putLeb128 (BitVec.ofNat 32 n)) n := by
  have hnat : (BitVec.ofNat 32 n).toNat = n := by
    rw [BitVec.toNat_ofNat]
    exact Nat.mod_eq_of_lt (by omega)
  have hmsb : (BitVec.ofNat 32 n).msb = false := by
    rw [BitVec.msb_eq_decide, hnat]
    exact decide_eq_false (by omega)
  refine (takes_getLeb128 _).last ?_
  rw [hmsb, hnat]
  rfl

/-! ## Objects with other atoms -/

/-- The same function with other atoms. -/
def FunctionInfo.relocate (ρ : JSAtom → JSAtom) (b : FunctionInfo) : FunctionInfo :=
  { b with
    funcName := ρ b.funcName
    vardefs := b.vardefs.map fun vd => { vd with varName := ρ vd.varName }
    closureVar := b.closureVar.map fun cv => { cv with varName := ρ cv.varName }
    byteCode := relocateCode ρ b.byteCode
    debug := b.debug.map fun d => { d with filename := ρ d.filename } }

/-- The same entry with other atoms. -/
def ExportEntry.relocate (ρ : JSAtom → JSAtom) : ExportEntry → ExportEntry
  | .loc varIdx exportName => .loc varIdx (ρ exportName)
  | .indirect exportType ne reqModuleIdx localName exportName =>
    .indirect exportType ne reqModuleIdx (ρ localName) (ρ exportName)

/-- The same module with other atoms. -/
def ModuleInfo.relocate (ρ : JSAtom → JSAtom) (m : ModuleInfo) : ModuleInfo :=
  ⟨ρ m.moduleName, m.reqModuleEntries.map ρ, m.exportEntries.map (ExportEntry.relocate ρ),
    m.starExportEntries, m.importEntries.map fun mi => { mi with importName := ρ mi.importName }⟩

mutual

/-- The same object with other atoms. -/
def BCObject.relocate (ρ : JSAtom → JSAtom) : BCObject → BCObject
  | .null => .null
  | .undefined => .undefined
  | .bool b => .bool b
  | .int32 i => .int32 i
  | .float64 bits => .float64 bits
  | .string data => .string data
  | .object props => .object (relocateProps ρ props)
  | .array elems => .array (relocateList ρ elems)
  | .template elems raw => .template (relocateList ρ elems) (raw.relocate ρ)
  | .function info cpool => .function (info.relocate ρ) (relocateList ρ cpool)
  | .module info func => .module (info.relocate ρ) (func.relocate ρ)

/-- The same for a list of objects. -/
def BCObject.relocateList (ρ : JSAtom → JSAtom) : List BCObject → List BCObject
  | [] => []
  | v :: vs => v.relocate ρ :: relocateList ρ vs

/-- The same for the properties of an object. -/
def BCObject.relocateProps (ρ : JSAtom → JSAtom) : List (JSAtom × BCObject) → List (JSAtom × BCObject)
  | [] => []
  | (a, v) :: props => (ρ a, v.relocate ρ) :: relocateProps ρ props

end

theorem BCObject.relocateList_eq (ρ : JSAtom → JSAtom) (vs : List BCObject) :
    relocateList ρ vs = vs.map (relocate ρ) := by
  induction vs with
  | nil => rfl
  | cons v vs ih => rw [relocateList, List.map_cons, ih]

theorem BCObject.relocateProps_eq (ρ : JSAtom → JSAtom) (props : List (JSAtom × BCObject)) :
    relocateProps ρ props = props.map fun p => (ρ p.1, p.2.relocate ρ) := by
  induction props with
  | nil => rfl
  | cons p props ih =>
      obtain ⟨a, v⟩ := p
      rw [relocateProps, List.map_cons, ih]

/-! ## Sizes -/

/-- The lengths of a function fit the numbers with which it is described. -/
structure FunctionInfo.Fits (b : FunctionInfo) : Prop where
  vardefs : b.vardefs = [] ∨ b.vardefs.length = b.argCount.toNat + b.varCount.toNat
  closureVar : b.closureVar.length < 2 ^ 31
  byteCode : b.byteCode.length < 2 ^ 31
  pc2lineBuf : ∀ d ∈ b.debug, d.pc2lineBuf.length < 2 ^ 31

/-- The lengths of the tables of a module. -/
structure ModuleInfo.Fits (m : ModuleInfo) : Prop where
  reqModuleEntries : m.reqModuleEntries.length < 2 ^ 31
  exportEntries : m.exportEntries.length < 2 ^ 31
  starExportEntries : m.starExportEntries.length < 2 ^ 31
  importEntries : m.importEntries.length < 2 ^ 31

/-- All lengths in an object fit the numbers with which they are written. -/
inductive BCObject.Fits : BCObject → Prop where
  | null : Fits .null
  | undefined : Fits .undefined
  | bool (b : Bool) : Fits (.bool b)
  | int32 (i : BitVec 32) : Fits (.int32 i)
  | float64 (bits : BitVec 64) : Fits (.float64 bits)
  | string {data : JSStringData} (h : data.length ≤ stringLenMax) : Fits (.string data)
  | object {props : List (JSAtom × BCObject)} (h : props.length < 2 ^ 32)
    (hprops : ∀ p ∈ props, Fits p.2) : Fits (.object props)
  | array {elems : List BCObject} (h : elems.length < 2 ^ 32) (helems : ∀ v ∈ elems, Fits v) :
    Fits (.array elems)
  | template {elems : List BCObject} {raw : BCObject} (h : elems.length < 2 ^ 32)
    (helems : ∀ v ∈ elems, Fits v) (hraw : Fits raw) : Fits (.template elems raw)
  | function {info : FunctionInfo} {cpool : List BCObject} (h : info.Fits)
    (hcount : cpool.length < 2 ^ 31) (hcpool : ∀ v ∈ cpool, Fits v) : Fits (.function info cpool)
  | module {info : ModuleInfo} {func : BCObject} (h : info.Fits) (hfunc : Fits func) :
    Fits (.module info func)

/-! ## Atoms and code -/

section Takes

variable {names : List JSAtom} {ix : JSAtom → BitVec 32} {ρ : JSAtom → JSAtom}

/-- The reader finds the atom `ρ a` under the number with which `a` is written. -/
structure AtomResolves (names : List JSAtom) (ix : JSAtom → BitVec 32) (ρ : JSAtom → JSAtom) (a : JSAtom) :
    Prop where
  get : bcIdxToAtom names (ix a) = pure (ρ a)
  tagged : atomIsTaggedInt a = true → ρ a = a
  untagged : atomIsTaggedInt a = false → (ix a).msb = false

theorem shiftLeft_one_ushiftRight {v : BitVec 32} (h : v.msb = false) : (v <<< 1) >>> 1 = v := by
  have hlt := BitVec.toNat_lt_of_msb_false h
  apply BitVec.eq_of_toNat_eq
  rw [BitVec.toNat_ushiftRight, BitVec.toNat_shiftLeft, Nat.shiftLeft_eq,
    Nat.mod_eq_of_lt (by omega), Nat.shiftRight_eq_div_pow]
  exact Nat.mul_div_cancel _ (by decide)

/-- A tagged integer is the tag and the integer. -/
theorem atomFromUInt32_of_isTaggedInt {a : JSAtom} (h : atomIsTaggedInt a = true) :
    atomFromUInt32 (a &&& 0x7fffffff#32).toNat = a := by
  have hsum : (0x7fffffff#32) ||| 0x80000000#32 = BitVec.allOnes 32 := by decide
  have htop : a &&& 0x80000000#32 = 0x80000000#32 := by
    apply BitVec.eq_of_getLsbD_eq
    intro i hi
    rw [BitVec.getLsbD_and]
    by_cases hlast : i = 31
    · have hbit : a.getLsbD 31 = true := h
      rw [hlast, hbit, Bool.true_and]
    · have hzero : (0x80000000#32).getLsbD i = false := by
        interval_cases i <;> first | rfl | exact absurd rfl hlast
      rw [hzero, Bool.and_false]
  rw [atomFromUInt32, BitVec.ofNat_toNat, BitVec.setWidth_eq]
  calc a &&& 0x7fffffff#32 ||| 0x80000000#32
      = a &&& 0x7fffffff#32 ||| a &&& 0x80000000#32 := by rw [htop]
    _ = a &&& (0x7fffffff#32 ||| 0x80000000#32) := BitVec.and_or_distrib_left.symm
    _ = a := by rw [hsum, BitVec.and_allOnes]

theorem takes_bcGetAtom {a : JSAtom} (h : AtomResolves names ix ρ a) :
    Takes (bcGetAtom names) (encodePut ix (.atom a)) (ρ a) := by
  rw [encodePut, bcGetAtom]
  cases ht : atomIsTaggedInt a with
  | true =>
      rw [if_pos rfl]
      refine (takes_getLeb128 _).last ?_
      have hmsb : (a &&& 0x7fffffff#32).msb = false := by
        rw [BitVec.msb_and, show (0x7fffffff#32).msb = false by decide, Bool.and_false]
      have hnat : BitVec.ofNat 32 (atomToUInt32 a) = a &&& 0x7fffffff#32 := by
        rw [atomToUInt32, BitVec.ofNat_toNat, BitVec.setWidth_eq]
      have hlow : ((a &&& 0x7fffffff#32) <<< 1 ||| 1#32).getLsbD 0 = true := by simp
      rw [hnat, hlow, if_pos rfl, BitVec.ushiftRight_or_distrib, shiftLeft_one_ushiftRight hmsb,
        show 1#32 >>> 1 = 0#32 by decide, BitVec.or_zero, h.tagged ht]
      exact congrArg pure (atomFromUInt32_of_isTaggedInt ht)
  | false =>
      rw [if_neg (by simp)]
      refine (takes_getLeb128 _).last ?_
      have hlow : (ix a <<< 1).getLsbD 0 = false := by simp
      rw [hlow, if_neg (by simp), shiftLeft_one_ushiftRight (h.untagged ht)]
      exact h.get

theorem CodeItem.length_relocate (f : JSAtom → JSAtom) (i : CodeItem) :
    (i.relocate f).bytes.length = i.bytes.length := by
  obtain ⟨op, atom?, args⟩ := i
  cases atom? with
  | none => rfl
  | some a => simp [relocate, bytes, length_toLittleEndian]

theorem CodeItem.Valid.relocate {i : CodeItem} (h : i.Valid) (f : JSAtom → JSAtom) :
    (i.relocate f).Valid := by
  refine ⟨?_, ?_⟩
  · rw [length_relocate]
    exact h.1
  · rw [CodeItem.relocate, Option.isSome_map]
    exact h.2

/-- Code with other atoms is as long as it was. -/
theorem IsCode.length_relocateCode {code : List UInt8} (h : IsCode code) (f : JSAtom → JSAtom) :
    (Engine.relocateCode f code).length = code.length := by
  rw [h.relocateCode, List.flatMap_map, List.length_flatMap]
  nth_rewrite 2 [← h.bytes_eq]
  rw [List.length_flatMap]
  simp only [CodeItem.length_relocate]

/-- The code of a function. -/
theorem takes_readFunctionBytecode {code : List UInt8}
    (h : (Put.code code).All (AtomResolves names ix ρ)) :
    Takes (readFunctionBytecode names code.length) (encodePut ix (.code code))
      (relocateCode ρ code) := by
  obtain ⟨hcode, hatoms⟩ := h
  have hvalid : ∀ i ∈ (codeItems code).map (CodeItem.relocate ix), i.Valid := by
    intro i hi
    obtain ⟨j, hj, rfl⟩ := List.mem_map.mp hi
    exact (hcode.valid j hj).relocate ix
  have hitem : ∀ i ∈ codeItems code, CodeItem.mapAtom (bcIdxToAtom names) (i.relocate ix) =
      pure (i.relocate ρ) := by
    intro i hi
    obtain ⟨op, atom?, args⟩ := i
    cases atom? with
    | none => rfl
    | some a =>
        have ha := (hatoms a (List.mem_flatMap.mpr ⟨_, hi, by simp⟩)).get
        simp only [CodeItem.relocate, CodeItem.mapAtom, Option.map_some, ha, pure_bind]
  have hitems : ((codeItems code).map (CodeItem.relocate ix)).mapM
      (CodeItem.mapAtom (bcIdxToAtom names)) = pure ((codeItems code).map (CodeItem.relocate ρ)) := by
    generalize codeItems code = items at hitem
    induction items with
    | nil => rfl
    | cons i items ih =>
        rw [List.map_cons, List.mapM_cons, hitem i List.mem_cons_self,
          ih fun j hj => hitem j (List.mem_cons_of_mem i hj), List.map_cons, pure_bind, pure_bind]
  have hbuf := takes_getBuf (relocateCode ix code)
  rw [hcode.length_relocateCode] at hbuf
  refine hbuf.last ?_
  rw [hcode.relocateCode, hcode.relocateCode, mapAtoms_bytes _ _ hvalid _ (le_refl _), hitems,
    map_pure]

/-! ## Parts of objects -/

@[simp]
theorem encodePuts_nil : encodePuts ix [] = [] := rfl

@[simp]
theorem encodePuts_cons (p : Put) (ps : List Put) :
    encodePuts ix (p :: ps) = encodePut ix p ++ encodePuts ix ps := List.flatMap_cons

@[simp]
theorem encodePuts_append (ps qs : List Put) :
    encodePuts ix (ps ++ qs) = encodePuts ix ps ++ encodePuts ix qs := List.flatMap_append

@[simp]
theorem encodePuts_flatMap {α : Type} (xs : List α) (f : α → List Put) :
    encodePuts ix (xs.flatMap f) = xs.flatMap fun x => encodePuts ix (f x) := List.flatMap_assoc

/-- A list whose items are put one after another. -/
theorem takes_replicate {α β : Type} {r : Read β} (puts : α → List Put) (item : α → β) {xs : List α}
    (h : ∀ x ∈ xs, Takes r (encodePuts ix (puts x)) (item x)) :
    Takes (replicate r xs.length) (encodePuts ix (xs.flatMap puts)) (xs.map item) := by
  rw [encodePuts_flatMap]
  exact Takes.replicate h

theorem wideUnits_flatMap (u : List UInt16) :
    wideUnits (u.flatMap fun x => toLittleEndian 2 x.toBitVec.toNat) = u := by
  induction u with
  | nil => rfl
  | cons x u ih =>
      rw [List.flatMap_cons]
      simp only [toLittleEndian, List.cons_append, List.nil_append, wideUnits]
      congr 1
      apply UInt16.toNat_inj.mp
      have := x.toNat_lt
      simp
      omega

theorem takes_getString {data : JSStringData} (h : data.length < 2 ^ 31) :
    Takes getString (encodePuts ix (writeString data)) data := by
  have hlen : ∀ {n : ℕ}, n < 2 ^ 32 → (BitVec.ofNat 32 n >>> 1).toNat = n / 2 := by
    intro n hn
    rw [BitVec.toNat_ushiftRight, BitVec.toNat_ofNat, Nat.mod_eq_of_lt hn,
      Nat.shiftRight_eq_div_pow, Nat.pow_one]
  cases data with
  | str8 u =>
      have hu : u.length < 2 ^ 31 := h
      simp only [writeString, encodePuts_cons, encodePuts_nil, List.append_nil, Put.count, encodePut]
      refine (takes_getLeb128 _).bind ?_
      have hlow : (BitVec.ofNat 32 (2 * u.length)).getLsbD 0 = false := by
        rw [BitVec.getLsbD_ofNat]
        simp
      rw [hlow, hlen (by omega), Nat.mul_div_cancel_left _ (by decide)]
      exact (takes_getBuf u).last rfl
  | str16 u =>
      have hu : u.length < 2 ^ 31 := h
      have hbytes : encodePuts ix (u.map fun x => Put.u16 x.toBitVec) =
          u.flatMap fun x => toLittleEndian 2 x.toBitVec.toNat := by
        rw [encodePuts, List.flatMap_map]
        rfl
      have hcount : (u.flatMap fun x => toLittleEndian 2 x.toBitVec.toNat).length = 2 * u.length := by
        rw [List.length_flatMap]
        simp [length_toLittleEndian, Nat.mul_comm]
      simp only [writeString, encodePuts_cons, Put.count, encodePut, hbytes]
      refine (takes_getLeb128 _).bind ?_
      have hlow : (BitVec.ofNat 32 (2 * u.length + 1)).getLsbD 0 = true := by
        rw [BitVec.getLsbD_ofNat]
        simp
      have hhalf : (2 * u.length + 1) / 2 = u.length := by omega
      rw [hlow, hlen (by omega), hhalf, ← hcount]
      refine (takes_getBuf _).last ?_
      rw [wideUnits_flatMap]

/-- A field of one bit. -/
theorem decide_toNat_eq_one (b : Bool) : decide (b.toNat = 1) = b := by cases b <;> rfl

theorem VarDef.flags_lt (vd : VarDef) : ∀ f ∈ vd.flags, f.1 < 2 ^ f.2 := by
  intro f hf
  simp only [flags, List.mem_cons, List.not_mem_nil, or_false] at hf
  rcases hf with rfl | rfl | rfl | rfl | rfl
  · exact vd.varKind.isLt
  all_goals exact Bool.toNat_lt _

theorem takes_getVarDef {vd : VarDef} (h : AtomResolves names ix ρ vd.varName) :
    Takes (getVarDef names) (encodePuts ix vd.puts) { vd with varName := ρ vd.varName } := by
  have hlt : setFlags vd.flags 0 0 < 2 ^ 8 := setFlags_lt (by simp) vd.flags_lt
  have hword : (UInt8.ofNat (setFlags vd.flags 0 0)).toNat = setFlags vd.flags 0 0 := by
    rw [UInt8.toNat_ofNat']
    exact Nat.mod_eq_of_lt hlt
  have h0 : getFlag (setFlags vd.flags 0 0) 0 4 = _ := getFlag_field vd.flags_lt 0 rfl
  have h1 : getFlag (setFlags vd.flags 0 0) 4 1 = _ := getFlag_field vd.flags_lt 1 rfl
  have h2 : getFlag (setFlags vd.flags 0 0) 5 1 = _ := getFlag_field vd.flags_lt 2 rfl
  have h3 : getFlag (setFlags vd.flags 0 0) 6 1 = _ := getFlag_field vd.flags_lt 3 rfl
  have h4 : getFlag (setFlags vd.flags 0 0) 7 1 = _ := getFlag_field vd.flags_lt 4 rfl
  simp only [VarDef.puts, encodePuts_cons, encodePuts_nil, List.append_nil]
  refine (takes_bcGetAtom h).bind ((takes_getLeb128 _).bind ((takes_getLeb128 _).bind
    ((takes_getU8 _).last ?_)))
  simp only [hword, h0, h1, h2, h3, h4, decide_toNat_eq_one, BitVec.ofNat_toNat, BitVec.setWidth_eq,
    BitVec.add_sub_cancel]

theorem ClosureVar.flags_lt (cv : ClosureVar) : ∀ f ∈ cv.flags, f.1 < 2 ^ f.2 := by
  intro f hf
  simp only [flags, List.mem_cons, List.not_mem_nil, or_false] at hf
  rcases hf with rfl | rfl | rfl | rfl | rfl
  · exact Bool.toNat_lt _
  · exact Bool.toNat_lt _
  · exact Bool.toNat_lt _
  · exact Bool.toNat_lt _
  · exact cv.varKind.isLt.trans (show 2 ^ 3 < 2 ^ 4 by decide)

theorem takes_getClosureVar {cv : ClosureVar} (h : AtomResolves names ix ρ cv.varName) :
    Takes (getClosureVar names) (encodePuts ix cv.puts) { cv with varName := ρ cv.varName } := by
  have hlt : setFlags cv.flags 0 0 < 2 ^ 8 := setFlags_lt (by simp) cv.flags_lt
  have hword : (UInt8.ofNat (setFlags cv.flags 0 0)).toNat = setFlags cv.flags 0 0 := by
    rw [UInt8.toNat_ofNat']
    exact Nat.mod_eq_of_lt hlt
  have h0 : getFlag (setFlags cv.flags 0 0) 0 1 = _ := getFlag_field cv.flags_lt 0 rfl
  have h1 : getFlag (setFlags cv.flags 0 0) 1 1 = _ := getFlag_field cv.flags_lt 1 rfl
  have h2 : getFlag (setFlags cv.flags 0 0) 2 1 = _ := getFlag_field cv.flags_lt 2 rfl
  have h3 : getFlag (setFlags cv.flags 0 0) 3 1 = _ := getFlag_field cv.flags_lt 3 rfl
  have h4 : getFlag (setFlags cv.flags 0 0) 4 4 = _ := getFlag_field cv.flags_lt 4 rfl
  have hidx : (cv.varIdx.setWidth 32).setWidth 16 = cv.varIdx := by
    rw [BitVec.setWidth_setWidth_of_le _ (by decide), BitVec.setWidth_eq]
  simp only [ClosureVar.puts, encodePuts_cons, encodePuts_nil, List.append_nil]
  refine (takes_bcGetAtom h).bind ((takes_getLeb128 _).bind ((takes_getU8 _).last ?_))
  simp only [hword, h0, h1, h2, h3, h4, decide_toNat_eq_one, BitVec.ofNat_toNat, BitVec.setWidth_eq,
    hidx]

theorem takes_getDebug? {debug : Option DebugInfo}
    (h : ∀ d ∈ debug, AtomResolves names ix ρ d.filename ∧ d.pc2lineBuf.length < 2 ^ 31) :
    Takes (getDebug? names debug.isSome) (encodePuts ix (debug.toList.flatMap DebugInfo.puts))
      (debug.map fun d => { d with filename := ρ d.filename }) := by
  cases debug with
  | none => exact Takes.pure none
  | some d =>
      obtain ⟨hname, hlen⟩ := h d rfl
      have htakes : Takes (getDebug names) (encodePuts ix d.puts)
          { d with filename := ρ d.filename } := by
        simp only [DebugInfo.puts, encodePuts_cons, encodePuts_nil, List.append_nil, Put.count]
        exact (takes_bcGetAtom hname).bind ((takes_getLeb128 _).bind
          ((takes_getLeb128Int hlen).bind ((takes_getBuf _).last rfl)))
      rw [Option.toList_some, List.flatMap_singleton]
      exact htakes.last rfl

theorem FunctionInfo.flags_lt (b : FunctionInfo) : ∀ f ∈ b.flags, f.1 < 2 ^ f.2 := by
  intro f hf
  simp only [flags, List.mem_cons, List.not_mem_nil, or_false] at hf
  rcases hf with rfl | rfl | rfl | rfl | rfl | rfl | rfl | rfl | rfl | rfl
  · exact Bool.toNat_lt _
  · exact Bool.toNat_lt _
  · exact Bool.toNat_lt _
  · exact Bool.toNat_lt _
  · exact b.funcKind.isLt
  all_goals exact Bool.toNat_lt _

/-- A function whose constant pool is read back. -/
theorem takes_getFunction {item : Read BCObject} {b : FunctionInfo} {cpool : List BCObject}
    (hfits : b.Fits) (hcount : cpool.length < 2 ^ 31)
    (hputs : ∀ p ∈ b.puts cpool.length, p.All (AtomResolves names ix ρ))
    (hcpool : ∀ v ∈ cpool, Takes item (encodePuts ix v.puts) (v.relocate ρ)) :
    Takes (getFunction names item) (encodePuts ix (b.puts cpool.length ++ BCObject.putsOfList cpool))
      ((BCObject.function b cpool).relocate ρ) := by
  have hlt : setFlags b.flags 0 0 < 2 ^ 16 :=
    (setFlags_lt (by simp) b.flags_lt).trans (show 2 ^ 11 < 2 ^ 16 by decide)
  have hword : littleEndian (toLittleEndian 2 (BitVec.ofNat 16 (setFlags b.flags 0 0)).toNat) =
      setFlags b.flags 0 0 := by
    rw [littleEndian_toLittleEndian, BitVec.toNat_ofNat, Nat.mod_eq_of_lt hlt]
    exact Nat.mod_eq_of_lt hlt
  have hfield := @getFlag_field _ b.flags_lt
  have h0 : getFlag (setFlags b.flags 0 0) 0 1 = _ := hfield 0 rfl
  have h1 : getFlag (setFlags b.flags 0 0) 1 1 = _ := hfield 1 rfl
  have h2 : getFlag (setFlags b.flags 0 0) 2 1 = _ := hfield 2 rfl
  have h3 : getFlag (setFlags b.flags 0 0) 3 1 = _ := hfield 3 rfl
  have h4 : getFlag (setFlags b.flags 0 0) 4 2 = _ := hfield 4 rfl
  have h5 : getFlag (setFlags b.flags 0 0) 6 1 = _ := hfield 5 rfl
  have h6 : getFlag (setFlags b.flags 0 0) 7 1 = _ := hfield 6 rfl
  have h7 : getFlag (setFlags b.flags 0 0) 8 1 = _ := hfield 7 rfl
  have h8 : getFlag (setFlags b.flags 0 0) 9 1 = _ := hfield 8 rfl
  have h9 : getFlag (setFlags b.flags 0 0) 10 1 = _ := hfield 9 rfl
  have hname : AtomResolves names ix ρ b.funcName := hputs (.atom b.funcName) (by simp [FunctionInfo.puts])
  have hcode := hputs (.code b.byteCode) (by simp [FunctionInfo.puts])
  have hvars : ∀ vd ∈ b.vardefs, AtomResolves names ix ρ vd.varName := by
    intro vd hvd
    have hmem : Put.atom vd.varName ∈ b.vardefs.flatMap VarDef.puts :=
      List.mem_flatMap.mpr ⟨vd, hvd, by simp [VarDef.puts]⟩
    exact hputs (.atom vd.varName)
      (by simp only [FunctionInfo.puts, List.mem_cons, List.mem_append, hmem, true_or, or_true])
  have hclosure : ∀ cv ∈ b.closureVar, AtomResolves names ix ρ cv.varName := by
    intro cv hcv
    have hmem : Put.atom cv.varName ∈ b.closureVar.flatMap ClosureVar.puts :=
      List.mem_flatMap.mpr ⟨cv, hcv, by simp [ClosureVar.puts]⟩
    exact hputs (.atom cv.varName)
      (by simp only [FunctionInfo.puts, List.mem_cons, List.mem_append, hmem, true_or, or_true])
  have hdebug : ∀ d ∈ b.debug, AtomResolves names ix ρ d.filename ∧ d.pc2lineBuf.length < 2 ^ 31 := by
    intro d hd
    have hmem : Put.atom d.filename ∈ b.debug.toList.flatMap DebugInfo.puts :=
      List.mem_flatMap.mpr ⟨d, Option.mem_toList.mpr hd, by simp [DebugInfo.puts]⟩
    exact ⟨hputs (.atom d.filename)
      (by simp only [FunctionInfo.puts, List.mem_cons, List.mem_append, hmem, or_true]),
      hfits.pc2lineBuf d hd⟩
  have hlocal : b.localCount = b.vardefs.length := by
    rw [FunctionInfo.localCount]
    rcases hfits.vardefs with hnil | hlen
    · simp [hnil]
    · split
      · rename_i hnil
        simp [hnil]
      · exact hlen.symm
  have hlocals : b.vardefs.length < 2 ^ 31 := by
    rcases hfits.vardefs with hnil | hlen
    · simp [hnil]
    · have := b.argCount.isLt
      have := b.varCount.isLt
      omega
  simp only [FunctionInfo.puts, List.cons_append, List.append_assoc, encodePuts_cons,
    encodePuts_append, Put.count, hlocal]
  refine (takes_littleEndian 2 _).bind ((takes_getU8 _).bind ((takes_bcGetAtom hname).bind ?_))
  refine (takes_getLeb128U16 _).bind ((takes_getLeb128U16 _).bind ((takes_getLeb128U16 _).bind
    ((takes_getLeb128U16 _).bind ?_)))
  refine (takes_getLeb128Int hfits.closureVar).bind ((takes_getLeb128Int hcount).bind
    ((takes_getLeb128Int hfits.byteCode).bind ((takes_getLeb128Int hlocals).bind ?_)))
  refine Takes.halfRead ?_
  refine (takes_replicate _ _ fun vd hvd => takes_getVarDef (hvars vd hvd)).bind
    ((takes_replicate _ _ fun cv hcv => takes_getClosureVar (hclosure cv hcv)).bind
      ((takes_readFunctionBytecode hcode).bind ?_))
  simp only [hword, h0, h1, h2, h3, h4, h5, h6, h7, h8, h9, decide_toNat_eq_one, BitVec.ofNat_toNat,
    BitVec.setWidth_eq]
  refine (takes_getDebug? hdebug).bind ?_
  rw [BCObject.putsOfList_eq]
  refine (takes_replicate _ _ hcpool).last ?_
  rw [BCObject.relocate, BCObject.relocateList_eq]
  rfl

theorem takes_getExport {e : ExportEntry} (h : ∀ p ∈ e.puts, p.All (AtomResolves names ix ρ)) :
    Takes (getExport names) (encodePuts ix e.puts) (e.relocate ρ) := by
  cases e with
  | loc varIdx exportName =>
      have hname : AtomResolves names ix ρ exportName := h (.atom exportName) (by simp [ExportEntry.puts])
      simp only [ExportEntry.puts, encodePuts_cons, encodePuts_nil, List.append_nil]
      refine (takes_getU8 _).bind ((takes_getLeb128 _).bind ?_)
      exact (takes_bcGetAtom hname).last rfl
  | indirect exportType ne reqModuleIdx localName exportName =>
      have hlocal : AtomResolves names ix ρ localName := h (.atom localName) (by simp [ExportEntry.puts])
      have hname : AtomResolves names ix ρ exportName := h (.atom exportName) (by simp [ExportEntry.puts])
      simp only [ExportEntry.puts, encodePuts_cons, encodePuts_nil, List.append_nil]
      refine (takes_getU8 _).bind ((takes_getLeb128 _).bind ?_)
      simp only [dif_pos ne]
      exact (takes_bcGetAtom hlocal).bind ((takes_bcGetAtom hname).last rfl)

theorem takes_getImport {mi : ImportEntry} (h : AtomResolves names ix ρ mi.importName) :
    Takes (getImport names) (encodePuts ix mi.puts) { mi with importName := ρ mi.importName } := by
  simp only [ImportEntry.puts, encodePuts_cons, encodePuts_nil, List.append_nil]
  exact (takes_getLeb128 _).bind ((takes_bcGetAtom h).bind ((takes_getLeb128 _).last rfl))

/-- A module whose function is read back. -/
theorem takes_getModule {item : Read BCObject} {m : ModuleInfo} {func : BCObject} (hfits : m.Fits)
    (hputs : ∀ p ∈ m.puts, p.All (AtomResolves names ix ρ))
    (hfunc : Takes item (encodePuts ix func.puts) (func.relocate ρ)) :
    Takes (getModule names item) (encodePuts ix (m.puts ++ func.puts))
      ((BCObject.module m func).relocate ρ) := by
  have hname : AtomResolves names ix ρ m.moduleName := hputs (.atom m.moduleName) (by simp [ModuleInfo.puts])
  have hreq : ∀ a ∈ m.reqModuleEntries, AtomResolves names ix ρ a :=
    fun a ha => hputs (.atom a) (by simp [ModuleInfo.puts, ha])
  have hexport : ∀ e ∈ m.exportEntries, ∀ p ∈ e.puts, p.All (AtomResolves names ix ρ) := by
    intro e he p hp
    have hmem : p ∈ m.exportEntries.flatMap ExportEntry.puts := List.mem_flatMap.mpr ⟨e, he, hp⟩
    exact hputs p
      (by simp only [ModuleInfo.puts, List.mem_cons, List.mem_append, hmem, true_or, or_true])
  have himport : ∀ mi ∈ m.importEntries, AtomResolves names ix ρ mi.importName := by
    intro mi hmi
    have hmem : Put.atom mi.importName ∈ m.importEntries.flatMap ImportEntry.puts :=
      List.mem_flatMap.mpr ⟨mi, hmi, by simp [ImportEntry.puts]⟩
    exact hputs (.atom mi.importName)
      (by simp only [ModuleInfo.puts, List.mem_cons, List.mem_append, hmem, or_true])
  have hone : ∀ p : Put, encodePuts ix [p] = encodePut ix p := fun p => List.append_nil _
  simp only [ModuleInfo.puts, List.cons_append, List.append_assoc, encodePuts_cons,
    encodePuts_append, Put.count]
  refine (takes_bcGetAtom hname).bind ((takes_getLeb128Int hfits.reqModuleEntries).bind ?_)
  have hreqs : Takes (replicate (bcGetAtom names) m.reqModuleEntries.length) _ _ :=
    takes_replicate (fun a => [Put.atom a]) ρ fun a ha => by
      rw [hone]
      exact takes_bcGetAtom (hreq a ha)
  refine hreqs.bind ((takes_getLeb128Int hfits.exportEntries).bind ?_)
  refine (takes_replicate _ _ fun e he => takes_getExport (hexport e he)).bind
    ((takes_getLeb128Int hfits.starExportEntries).bind ?_)
  have hstars : Takes (replicate getLeb128 m.starExportEntries.length) _ _ :=
    takes_replicate (fun i => [Put.leb128 i]) id fun i _ => by
      rw [hone]
      exact takes_getLeb128 i
  rw [List.map_id] at hstars
  refine hstars.bind ((takes_getLeb128Int hfits.importEntries).bind ?_)
  exact (takes_replicate _ _ fun mi hmi => takes_getImport (himport mi hmi)).bind (hfunc.last rfl)

/-! ## Objects -/

/-- Each part of a list is written within the length of the whole. -/
theorem length_encodePuts_le {α : Type} {xs : List α} (puts : α → List Put) {x : α} (h : x ∈ xs) :
    (encodePuts ix (puts x)).length ≤ (encodePuts ix (xs.flatMap puts)).length := by
  have hmem : encodePuts ix (puts x) ∈ xs.map fun x => encodePuts ix (puts x) :=
    List.mem_map.mpr ⟨x, h, rfl⟩
  rw [encodePuts_flatMap, List.flatMap_def]
  exact (List.sublist_flatten_of_mem hmem).length_le

/-- The tag takes one unit of fuel, which leaves enough for the bytes behind it. -/
theorem takes_tag {fuel : ℕ} {tag : UInt8} {puts : List Put} {v : BCObject}
    (hfuel : (encodePuts ix (.u8 tag :: puts)).length ≤ fuel)
    (h : ∀ fuel, (encodePuts ix puts).length ≤ fuel →
      Takes (getTagged names (getObjectRec names fuel) tag) (encodePuts ix puts) v) :
    Takes (getObjectRec names fuel) (encodePuts ix (.u8 tag :: puts)) v := by
  rw [encodePuts_cons, List.length_append] at hfuel
  cases fuel with
  | zero => simp [encodePut] at hfuel
  | succ fuel =>
      simp only [encodePut, List.length_singleton] at hfuel
      rw [encodePuts_cons, getObjectRec]
      exact (takes_getU8 tag).bind (h fuel (by omega))

theorem toNat_count {n : ℕ} (h : n < 2 ^ 32) : (BitVec.ofNat 32 n).toNat = n := by
  rw [BitVec.toNat_ofNat]
  exact Nat.mod_eq_of_lt h

/-- The object is read back, with any fuel that covers its bytes. -/
def ReadsBack (names : List JSAtom) (ix : JSAtom → BitVec 32) (ρ : JSAtom → JSAtom) (v : BCObject) :
    Prop :=
  (∀ p ∈ v.puts, p.All (AtomResolves names ix ρ)) → ∀ fuel, (encodePuts ix v.puts).length ≤ fuel →
    Takes (getObjectRec names fuel) (encodePuts ix v.puts) (v.relocate ρ)

/-- The objects of a list. -/
theorem ReadsBack.list {vs : List BCObject} {fuel : ℕ} (h : ∀ v ∈ vs, ReadsBack names ix ρ v)
    (hputs : ∀ p ∈ BCObject.putsOfList vs, p.All (AtomResolves names ix ρ))
    (hfuel : (encodePuts ix (BCObject.putsOfList vs)).length ≤ fuel) :
    ∀ v ∈ vs, Takes (getObjectRec names fuel) (encodePuts ix v.puts) (v.relocate ρ) := by
  intro v hv
  rw [BCObject.putsOfList_eq] at hputs hfuel
  exact h v hv (fun p hp => hputs p (List.mem_flatMap.mpr ⟨v, hv, hp⟩)) fuel
    ((length_encodePuts_le BCObject.puts hv).trans hfuel)

/-- The properties of an object. -/
theorem ReadsBack.props {props : List (JSAtom × BCObject)} {fuel : ℕ}
    (h : ∀ p ∈ props, ReadsBack names ix ρ p.2)
    (hputs : ∀ p ∈ BCObject.putsOfProps props, p.All (AtomResolves names ix ρ))
    (hfuel : (encodePuts ix (BCObject.putsOfProps props)).length ≤ fuel) :
    ∀ p ∈ props, Takes (getProp names (getObjectRec names fuel))
      (encodePuts ix (Put.atom p.1 :: p.2.puts)) (ρ p.1, p.2.relocate ρ) := by
  intro p hp
  rw [BCObject.putsOfProps_eq] at hputs hfuel
  have hputs' : ∀ q ∈ Put.atom p.1 :: p.2.puts, q.All (AtomResolves names ix ρ) :=
    fun q hq => hputs q (List.mem_flatMap.mpr ⟨p, hp, hq⟩)
  have hle := (length_encodePuts_le (fun p => Put.atom p.1 :: p.2.puts) hp).trans hfuel
  rw [encodePuts_cons, List.length_append] at hle
  have hname : AtomResolves names ix ρ p.1 := hputs' (Put.atom p.1) List.mem_cons_self
  have hvalue := h p hp (fun q hq => hputs' q (List.mem_cons_of_mem _ hq)) fuel (by omega)
  rw [encodePuts_cons, getProp]
  exact (takes_bcGetAtom hname).bind (hvalue.last rfl)

/-- **Every object that fits is read back.** -/
theorem BCObject.Fits.readsBack {v : BCObject} (hfits : v.Fits) : ReadsBack names ix ρ v := by
  induction hfits with
  | null => exact fun _ fuel hfuel => takes_tag hfuel fun _ _ => Takes.pure _
  | undefined => exact fun _ fuel hfuel => takes_tag hfuel fun _ _ => Takes.pure _
  | bool b =>
      intro _ fuel hfuel
      refine takes_tag hfuel fun _ _ => ?_
      cases b with
      | false => exact Takes.pure _
      | true => exact Takes.pure _
  | int32 i =>
      intro _ fuel hfuel
      refine takes_tag hfuel fun _ _ => ?_
      rw [encodePuts_cons, encodePuts_nil, List.append_nil]
      exact (takes_getSleb128 i).last rfl
  | float64 bits =>
      intro _ fuel hfuel
      refine takes_tag hfuel fun _ _ => ?_
      rw [encodePuts_cons, encodePuts_nil, List.append_nil]
      refine (takes_littleEndian 8 bits.toNat).last ?_
      rw [littleEndian_toLittleEndian, Nat.mod_eq_of_lt (by have := bits.isLt; omega),
        BitVec.ofNat_toNat, BitVec.setWidth_eq]
      rfl
  | string h =>
      intro _ fuel hfuel
      refine takes_tag hfuel fun _ _ => ?_
      exact (takes_getString (Nat.lt_of_le_of_lt h (by decide))).last rfl
  | @object props h hprops ih =>
      intro hputs fuel hfuel
      rw [BCObject.puts] at hputs hfuel ⊢
      simp only [List.forall_mem_cons] at hputs
      refine takes_tag hfuel fun fuel hfuel => ?_
      rw [encodePuts_cons] at hfuel ⊢
      rw [List.length_append] at hfuel
      have hread := ReadsBack.props ih hputs.2.2 (by omega : _ ≤ fuel)
      refine (takes_getLeb128 _).bind ?_
      rw [toNat_count h, BCObject.putsOfProps_eq]
      refine (takes_replicate _ _ hread).last ?_
      rw [BCObject.relocate, BCObject.relocateProps_eq]
  | @array elems h helems ih =>
      intro hputs fuel hfuel
      rw [BCObject.puts] at hputs hfuel ⊢
      simp only [List.forall_mem_cons] at hputs
      refine takes_tag hfuel fun fuel hfuel => ?_
      rw [encodePuts_cons] at hfuel ⊢
      rw [List.length_append] at hfuel
      have hread := ReadsBack.list ih hputs.2.2 (by omega : _ ≤ fuel)
      refine (takes_getLeb128 _).bind ?_
      rw [toNat_count h, BCObject.putsOfList_eq]
      refine (takes_replicate _ _ hread).last ?_
      rw [BCObject.relocate, BCObject.relocateList_eq]
  | @template elems raw h helems hraw ihelems ihraw =>
      intro hputs fuel hfuel
      rw [BCObject.puts] at hputs hfuel ⊢
      simp only [List.forall_mem_cons, List.forall_mem_append] at hputs
      refine takes_tag hfuel fun fuel hfuel => ?_
      rw [encodePuts_cons, encodePuts_append] at hfuel ⊢
      rw [List.length_append, List.length_append] at hfuel
      have hread := ReadsBack.list ihelems hputs.2.2.1 (by omega : _ ≤ fuel)
      refine (takes_getLeb128 _).bind ?_
      rw [toNat_count h, BCObject.putsOfList_eq]
      refine (takes_replicate _ _ hread).bind ((ihraw hputs.2.2.2 fuel (by omega)).last ?_)
      rw [BCObject.relocate, BCObject.relocateList_eq]
  | @function info cpool h hcount hcpool ih =>
      intro hputs fuel hfuel
      rw [BCObject.puts] at hputs hfuel ⊢
      simp only [List.forall_mem_cons, List.forall_mem_append] at hputs
      refine takes_tag hfuel fun fuel hfuel => ?_
      rw [encodePuts_append, List.length_append] at hfuel
      exact takes_getFunction h hcount hputs.2.1 (ReadsBack.list ih hputs.2.2 (by omega))
  | @module info func h hfunc ih =>
      intro hputs fuel hfuel
      rw [BCObject.puts] at hputs hfuel ⊢
      simp only [List.forall_mem_cons, List.forall_mem_append] at hputs
      refine takes_tag hfuel fun fuel hfuel => ?_
      rw [encodePuts_append, List.length_append] at hfuel
      exact takes_getModule h hputs.2.1 (ih hputs.2.2 fuel (by omega))

end Takes

end Engine
end FuzzerJs
