import FuzzerJs.Engine.Bytecode

/-!
# Loading bytecode

The parts of which `JS_ReadObject` with `JS_READ_OBJ_BYTECODE` is made: numbers, strings and
atoms.  The strings of the file become atoms, in the order in which they stand there, and
everything behind them refers to atoms by index.

* `readObjectAtoms_named`: the atoms are those of the strings, and stay so while others are made.
* `bcGetAtom_ensures`: what is looked up is a predefined atom, an integer or one of these atoms.
-/

namespace FuzzerJs
namespace Engine

/-! ## The reader -/

/-- A function that reads from the rest of the buffer. -/
abbrev Read (α : Type) := StateT (List UInt8) Eval α

namespace Read

/-- `bc_read_error_end`. -/
def errorEnd {α : Type} : Read α := fun _ => .exception "read after the end of the buffer"

/-- A pending exception. -/
def throw {α : Type} (message : String) : Read α := fun _ => .exception message

/-- Memory has run out, or the buffer has code that no compiler writes. -/
def outside {α : Type} : Read α := fun _ => .outside

/-- What holds of every result. -/
def Ensures {α : Type} (r : Read α) (P : α → Prop) : Prop :=
  ∀ rest a rest', r rest = .ok (a, rest') → P a

section Ensures

variable {α β : Type} {P : α → Prop} {Q : β → Prop}

theorem Ensures.trivial (r : Read α) : r.Ensures fun _ => True := fun _ _ _ _ => True.intro

theorem Ensures.pure {a : α} (h : P a) : (pure a : Read α).Ensures P := by
  intro rest b rest' hb
  have heq : (a, rest) = (b, rest') := Eval.ok.inj hb
  rwa [← (Prod.mk.inj heq).1]

theorem Ensures.bind {r : Read α} {f : α → Read β} (h : r.Ensures P)
    (h' : ∀ a, P a → (f a).Ensures Q) : (r >>= f).Ensures Q := by
  intro rest b rest' hb
  obtain ⟨⟨a, rest₁⟩, ha, hf⟩ := Eval.bind_eq_ok.mp hb
  exact h' a (h rest a rest₁ ha) rest₁ b rest' hf

/-- A part whose result does not matter. -/
theorem Ensures.after (r : Read α) {f : α → Read β} (h : ∀ a, (f a).Ensures Q) :
    (r >>= f).Ensures Q := (Ensures.trivial r).bind fun a _ => h a

theorem Ensures.throw (message : String) : (throw message : Read α).Ensures P := by
  intro rest a rest' h
  exact absurd h (by simp [Read.throw])

theorem Ensures.outside : (outside : Read α).Ensures P := by
  intro rest a rest' h
  exact absurd h (by simp [Read.outside])

end Ensures

/-- `bc_get_u8`. -/
def getU8 : Read UInt8 := fun rest =>
  match rest with
  | [] => errorEnd rest
  | b :: rest => .ok (b, rest)

/-- `bc_get_buf`, and the reading of numbers of several bytes. -/
def getBuf (len : ℕ) : Read (List UInt8) := fun rest =>
  if rest.length < len then errorEnd rest else .ok (rest.take len, rest.drop len)

/-- A number of several bytes, the low one first. -/
def littleEndian (bytes : List UInt8) : ℕ := bytes.foldr (fun b n => b.toNat + 256 * n) 0

/-- The loop of `get_leb128`, which reads at most five bytes. -/
def getLeb128Loop : ℕ → ℕ → BitVec 32 → Read (BitVec 32)
  | 0, _, _ => errorEnd
  | n + 1, shift, v => do
    let a ← getU8
    let v := v ||| BitVec.ofNat 32 (a &&& 0x7f).toNat <<< shift
    if a &&& 0x80 = 0 then return v else getLeb128Loop n (shift + 7) v

/-- `bc_get_leb128`. -/
def getLeb128 : Read (BitVec 32) := getLeb128Loop 5 0 0#32

/-- `bc_get_leb128_int`; a negative number is the size of nothing that could be allocated. -/
def getLeb128Int : Read ℕ := do
  let v ← getLeb128
  if v.msb then outside else return v.toNat

/-- The rest of a function of which the counts are known.  When it cannot be read, the label `fail`
has `free_function_bytecode` go through code, constants and variables with these counts, where the
pointers to them are still null; that is not followed. -/
def halfRead {α : Type} (r : Read α) : Read α := fun rest =>
  match r rest with
  | .exception _ => .outside
  | x => x

/-- What has been read in whole is not touched. -/
theorem halfRead_eq_ok {α : Type} {r : Read α} {rest : List UInt8} {x : α × List UInt8} :
    halfRead r rest = .ok x ↔ r rest = .ok x := by
  unfold halfRead
  cases r rest with
  | ok y => exact Iff.rfl
  | exception message => simp
  | outside => simp

theorem Ensures.halfRead {α : Type} {r : Read α} {P : α → Prop} (h : r.Ensures P) :
    (halfRead r).Ensures P := fun rest a rest' hr => h rest a rest' (halfRead_eq_ok.mp hr)

end Read

open Read

/-! ## Atoms -/

/-- `bc_idx_to_atom`; `names` is `s->idx_to_atom`. -/
def bcIdxToAtom (names : List JSAtom) (idx : BitVec 32) : Read JSAtom :=
  if atomIsTaggedInt idx then return idx
  else if idx.toNat < atomEnd then return idx
  else
    match names[idx.toNat - atomEnd]? with
    | some a => return a
    | none => throw "invalid atom index (pos=%u)"

/-- `bc_get_atom`. -/
def bcGetAtom (names : List JSAtom) : Read JSAtom := do
  let v ← getLeb128
  if v.getLsbD 0 then return atomFromUInt32 (v >>> 1).toNat
  else bcIdxToAtom names (v >>> 1)

/-- The code units of the storage of a wide string. -/
def wideUnits : List UInt8 → List UInt16
  | lo :: hi :: rest => UInt16.ofNat (lo.toNat + 256 * hi.toNat) :: wideUnits rest
  | _ => []

/-- `JS_ReadString`. -/
def getString : Read JSStringData := do
  let len ← getLeb128
  if len.getLsbD 0 then do
    let bytes ← getBuf (2 * (len >>> 1).toNat)
    return .str16 (wideUnits bytes)
  else do
    let bytes ← getBuf (len >>> 1).toNat
    return .str8 bytes

/-- The code units of a string of the file. -/
def readString : Read (List UInt16) := do
  match ← getString with
  | .str8 u => return u.map UInt8.toUInt16
  | .str16 u => return u

/-- The loop of `JS_ReadObjectAtoms`. -/
def readAtoms : ℕ → AtomTable → Read (List JSAtom × AtomTable)
  | 0, t => return ([], t)
  | n + 1, t => do
    let units ← readString
    match newAtomStr t units with
    | none => outside
    | some (a, t) => do
      let (names, t) ← readAtoms n t
      return (a :: names, t)

/-- `BC_VERSION`. -/
def bcVersion : UInt8 := 1

/-- `JS_ReadObjectAtoms`. -/
def readObjectAtoms (t : AtomTable) : Read (List JSAtom × AtomTable) := do
  let version ← getU8
  if version ≠ bcVersion then throw "invalid version (%d expected=%d)"
  else do
    let count ← getLeb128
    readAtoms count.toNat t

/-! ## Functions -/

/-- The sizes of the instructions in `opcode_info`, without the temporary ones. -/
def opcodeSizes : List ℕ :=
  [1, 5, 5, 5, 5, 5, 1, 1, 1, 1, 1, 1, 2, 3, 1, 1, 1, 1, 1, 1, 1, 1, 1, 1, 1, 1, 1, 1, 1, 1, 1, 1,
    1, 3, 3, 3, 3, 3, 3, 3, 1, 1, 1, 1, 1, 1, 1, 1, 6, 5, 3, 1, 1, 1, 1, 5, 5, 5, 5, 5, 5, 1, 1, 6,
    6, 6, 5, 5, 5, 1, 1, 1, 1, 1, 1, 1, 1, 5, 5, 1, 1, 1, 1, 1, 2, 6, 2, 6, 6, 3, 3, 3, 3, 3, 3, 3,
    3, 3, 3, 3, 3, 3, 3, 3, 3, 3, 5, 5, 5, 5, 5, 1, 1, 1, 1, 10, 10, 10, 10, 10, 10, 7, 7, 7, 5, 1,
    1, 1, 1, 2, 1, 1, 1, 1, 1, 1, 2, 1, 1, 1, 1, 1, 1, 1, 1, 1, 1, 1, 2, 2, 2, 1, 1, 1, 1, 5, 1, 1,
    1, 1, 1, 1, 1, 1, 1, 1, 1, 1, 1, 1, 1, 1, 1, 1, 1, 1, 1, 1, 1, 1, 1, 1, 1, 1, 1, 1, 1, 1, 2, 3,
    2, 2, 1, 2, 2, 2, 1, 1, 1, 1, 1, 1, 1, 1, 1, 1, 1, 1, 1, 1, 1, 1, 1, 1, 1, 1, 1, 1, 1, 1, 1, 1,
    1, 1, 1, 1, 1, 1, 1, 1, 1, 1, 1, 2, 2, 2, 3, 1, 1, 1, 1, 1, 1, 1]

/-- The instructions whose first operand is an atom. -/
def atomOpcodes : List ℕ :=
  [4, 5, 48, 55, 56, 57, 58, 59, 60, 63, 64, 65, 66, 67, 68, 77, 78, 85, 87, 88, 115, 116, 117, 118,
    119, 120, 121, 122, 123, 124, 155]

/-- What the counters need of a `JSFunctionBytecode`. -/
structure LoadedFunction where
  funcName : JSAtom
  byteCodeLen : ℕ
  deriving DecidableEq

/-! ## The names in a file -/

/-- An atom that is alive: a string of the table, a predefined one or an integer. -/
def Alive (t : AtomTable) (a : JSAtom) : Prop := atomIsConst a = true ∨ ∃ units, IsAtom t a units

theorem Alive.keeps {t t' : AtomTable} {a : JSAtom} (h : Alive t a) (hkeeps : t.Keeps t') :
    Alive t' a := h.imp_right fun ⟨units, hatom⟩ => ⟨units, hatom.keeps hkeeps⟩

theorem newAtomStr_alive {t t' : AtomTable} {a : JSAtom} {units : List UInt16}
    (hsize : t.size ≤ atomMax) (h : newAtomStr t units = some (a, t')) :
    Alive t' a ∧ t'.size ≤ atomMax ∧ t.Keeps t' := by
  have hnew : ∀ {a t'}, newAtom t (.string units) = some (a, t') →
      Alive t' a ∧ t'.size ≤ atomMax ∧ t.Keeps t' := by
    intro a t' h
    obtain ⟨hatom, hsize', hkeeps⟩ := newAtom_spec hsize h
    exact ⟨Or.inr ⟨units, hatom⟩, hsize', hkeeps⟩
  rw [newAtomStr] at h
  split at h
  · split at h
    · obtain ⟨rfl, rfl⟩ := Prod.mk.inj (Option.some.inj h)
      exact ⟨Or.inl (atomFromUInt32_isConst _), hsize, Intern.Table.Keeps.refl t⟩
    · exact hnew h
  · exact hnew h

/-- The strings of the file become atoms, which stay while the others are made. -/
theorem readAtoms_named (n : ℕ) : ∀ t : AtomTable, t.size ≤ atomMax →
    (readAtoms n t).Ensures fun r => t.Keeps r.2 ∧ ∀ a ∈ r.1, Alive r.2 a := by
  induction n with
  | zero => exact fun t _ => Ensures.pure ⟨Intern.Table.Keeps.refl t, by simp⟩
  | succ n ih =>
      intro t hsize
      rw [readAtoms]
      refine Ensures.after readString fun units => ?_
      split
      · exact Ensures.outside
      · rename_i a t₁ hnew
        obtain ⟨halive, hsize₁, hkeeps⟩ := newAtomStr_alive hsize hnew
        refine (ih t₁ hsize₁).bind fun r hr => Ensures.pure ⟨hkeeps.trans hr.1, fun b hb => ?_⟩
        rcases List.mem_cons.mp hb with rfl | hb
        · exact halive.keeps hr.1
        · exact hr.2 b hb

section Names

variable {names : List JSAtom} {P : JSAtom → Prop}

theorem bcIdxToAtom_ensures (hconst : ∀ a, atomIsConst a = true → P a) (hnames : ∀ a ∈ names, P a)
    (idx : BitVec 32) : (bcIdxToAtom names idx).Ensures P := by
  rw [bcIdxToAtom]
  split
  · rename_i htagged
    exact Ensures.pure (hconst _ (atomIsConst_of_isTaggedInt htagged))
  · split
    · rename_i hlt
      exact Ensures.pure (hconst _ (atomIsConst_of_lt hlt))
    · split
      · rename_i a ha
        exact Ensures.pure (hnames _ (List.mem_of_getElem? ha))
      · exact Ensures.throw _

theorem bcGetAtom_ensures (hconst : ∀ a, atomIsConst a = true → P a) (hnames : ∀ a ∈ names, P a) :
    (bcGetAtom names).Ensures P := by
  rw [bcGetAtom]
  refine Ensures.after getLeb128 fun v => ?_
  split
  · exact Ensures.pure (hconst _ (atomFromUInt32_isConst _))
  · exact bcIdxToAtom_ensures hconst hnames _

end Names

theorem readObjectAtoms_named {t : AtomTable} (hsize : t.size ≤ atomMax) :
    (readObjectAtoms t).Ensures fun r => t.Keeps r.2 ∧ ∀ a ∈ r.1, Alive r.2 a := by
  rw [readObjectAtoms]
  refine Ensures.after _ fun version => ?_
  split
  · exact Ensures.throw _
  · exact Ensures.after _ fun count => readAtoms_named _ t hsize

end Engine
end FuzzerJs
