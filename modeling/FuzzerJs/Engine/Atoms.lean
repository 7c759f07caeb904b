import FuzzerJs.Engine.Value
import FuzzerJs.Lib.Intern

/-!
# The atom table

`rt->atom_array` with its free list: `__JS_NewAtom`, `JS_DupAtom` and `JS_FreeAtom`.  The
table is an interning table (`Intern.Table`); what is particular to the engine is how it
grows, that the predefined atoms are permanent, and that small integers are atoms without
an entry.  The hash chains only make the search for a string faster.
-/

namespace FuzzerJs
namespace Engine

open Intern

/-! ## Atoms -/

/-- `JS_ATOM_END`: the atoms below it are predefined. -/
def atomEnd : ℕ := 208

/-- `JS_ATOM_empty_string`. -/
def atomEmptyString : JSAtom := 47#32

/-- `JS_ATOM_length`. -/
def atomLength : JSAtom := 48#32

/-- `JS_ATOM__eval_`. -/
def atomEval : JSAtom := 79#32

/-- `JS_ATOM__ret_`. -/
def atomRet : JSAtom := 80#32

/-- `JS_ATOM_Uint8Array`. -/
def atomUint8Array : JSAtom := 160#32

/-- `JS_ATOM_MAX`. -/
def atomMax : ℕ := 2 ^ 30 - 1

/-- `__JS_AtomIsConst`, in which tagged integers are negative. -/
def atomIsConst (a : JSAtom) : Bool := decide (a.toInt < atomEnd)

/-- `__JS_AtomIsTaggedInt`. -/
def atomIsTaggedInt (a : JSAtom) : Bool := a.msb

/-- `__JS_AtomFromUInt32`. -/
def atomFromUInt32 (n : ℕ) : JSAtom := BitVec.ofNat 32 n ||| 0x80000000#32

/-- `__JS_AtomToUInt32`. -/
def atomToUInt32 (a : JSAtom) : ℕ := (a &&& 0x7fffffff#32).toNat

theorem atomFromUInt32_isTaggedInt (n : ℕ) : atomIsTaggedInt (atomFromUInt32 n) = true := by
  rw [atomIsTaggedInt, atomFromUInt32, BitVec.msb_or,
    show (0x80000000#32).msb = true by decide, Bool.or_true]

theorem atomIsConst_of_isTaggedInt {a : JSAtom} (h : atomIsTaggedInt a = true) :
    atomIsConst a = true := by
  have hneg := BitVec.toInt_neg_of_msb_true h
  simp only [atomIsConst, decide_eq_true_eq]
  omega

theorem atomIsConst_of_lt {a : JSAtom} (h : a.toNat < atomEnd) : atomIsConst a = true := by
  have hint : a.toInt = a.toNat := BitVec.toInt_eq_toNat_of_lt (by rw [atomEnd] at h; omega)
  simp only [atomIsConst, decide_eq_true_eq, hint]
  exact_mod_cast h

theorem atomFromUInt32_isConst (n : ℕ) : atomIsConst (atomFromUInt32 n) = true :=
  atomIsConst_of_isTaggedInt (atomFromUInt32_isTaggedInt n)

/-- The index in a tagged integer. -/
theorem atomToUInt32_atomFromUInt32 {n : ℕ} (h : n < 2 ^ 31) :
    atomToUInt32 (atomFromUInt32 n) = n := by
  rw [atomToUInt32, atomFromUInt32, BitVec.and_comm, BitVec.and_or_distrib_left,
    show 0x7fffffff#32 &&& 0x80000000#32 = 0#32 by decide, BitVec.or_zero, BitVec.toNat_and,
    BitVec.toNat_ofNat, BitVec.toNat_ofNat, Nat.mod_eq_of_lt (show n < 2 ^ 32 by omega), Nat.and_comm]
  exact Nat.and_two_pow_sub_one_of_lt_two_pow h

/-! ## The table -/

/-- What an entry stands for; a symbol is equal to itself only, whatever its description. -/
inductive AtomKey where
  /-- `JS_ATOM_TYPE_STRING`. -/
  | string (units : List UInt16)
  /-- `JS_ATOM_TYPE_GLOBAL_SYMBOL`. -/
  | globalSymbol (units : List UInt16)
  /-- `JS_ATOM_TYPE_SYMBOL`. -/
  | symbol (index : ℕ)
  deriving DecidableEq

/-- The part of `JSRuntime` that numbers atoms. -/
abbrev AtomTable := Table AtomKey

/-- The size progression of `__JS_NewAtom`, for a table that has its first entries. -/
def atomPolicy (size : ℕ) : Option ℕ :=
  let newSize := max 211 (size * 3 / 2)
  if atomMax < newSize then none else some newSize

/-- `__JS_NewAtom` of a string that is not an atom yet, or whose atom is looked up; `none` is
the failure to grow. -/
def newAtom (t : AtomTable) (k : AtomKey) : Option (JSAtom × AtomTable) :=
  (t.intern atomPolicy (fun i => atomIsConst (BitVec.ofNat 32 i)) k).map fun r =>
    (BitVec.ofNat 32 r.1, r.2)

/-- `is_num_string`. -/
def isNumString (units : List UInt16) : Option ℕ :=
  let isNum (u : UInt16) : Bool := 48 ≤ u && u ≤ 57
  let value := units.foldl (fun n u => n * 10 + (u.toNat - 48)) 0
  if units = [] ∨ 10 < units.length ∨ !units.all isNum then none
  else if units.head? = some 48 ∧ units.length ≠ 1 then none
  else if 2 ^ 32 ≤ value then none
  else some value

/-- `JS_NewAtomStr`. -/
def newAtomStr (t : AtomTable) (units : List UInt16) : Option (JSAtom × AtomTable) :=
  match isNumString units with
  | some n => if n < 2 ^ 31 then some (atomFromUInt32 n, t) else newAtom t (.string units)
  | none => newAtom t (.string units)

/-- `JS_DupAtom`. -/
def dupAtom (t : AtomTable) (a : JSAtom) : AtomTable :=
  if atomIsConst a then t else t.addRef a.toNat

/-- `JS_FreeAtom`. -/
def freeAtom (t : AtomTable) (a : JSAtom) : AtomTable :=
  if atomIsConst a then t else t.release a.toNat

/-- Several of them. -/
def freeAtoms (t : AtomTable) (as : List JSAtom) : AtomTable := as.foldl freeAtom t

/-- `JS_AtomToValue`, for an atom that is a string. -/
def atomToUnits (t : AtomTable) (a : JSAtom) : Option (List UInt16) :=
  if atomIsTaggedInt a then some ((toString (atomToUInt32 a)).toList.map fun c => UInt16.ofNat c.toNat)
  else
    match t.slot a.toNat with
    | some (.string units, _) => some units
    | _ => none

/-! ## Laws -/

/-- The atom `a` is the string `units`. -/
def IsAtom (t : AtomTable) (a : JSAtom) (units : List UInt16) : Prop :=
  t.Holds a.toNat (.string units)

section Laws

variable {t t' : AtomTable} {a b : JSAtom} {units units' : List UInt16}

theorem IsAtom.ne (h : IsAtom t a units) (h' : IsAtom t b units') (hne : units ≠ units') :
    a ≠ b := by
  rintro rfl
  exact hne (AtomKey.string.inj (h.key_eq h'))

theorem dupAtom_freeAtom (t : AtomTable) (a : JSAtom) : freeAtom (dupAtom t a) a = t := by
  rw [freeAtom, dupAtom]
  by_cases h : atomIsConst a = true
  · simp [h]
  · simp [h, Table.addRef_release]

theorem IsAtom.dupAtom (h : IsAtom t a units) (b : JSAtom) : IsAtom (dupAtom t b) a units := by
  rw [Engine.dupAtom]
  split
  · exact h
  · exact h.addRef

@[simp]
theorem size_dupAtom (t : AtomTable) (a : JSAtom) : (dupAtom t a).size = t.size := by
  rw [dupAtom]
  split
  · rfl
  · rfl

@[simp]
theorem room_dupAtom (t : AtomTable) (a : JSAtom) :
    (dupAtom t a).room atomPolicy = t.room atomPolicy := by
  rw [dupAtom]
  split
  · rfl
  · exact Table.room_addRef atomPolicy

theorem atomPolicy_le (n n' : ℕ) (h : atomPolicy n = some n') : n' ≤ atomMax := by
  rw [atomPolicy] at h
  split at h
  · exact absurd h (by simp)
  · rename_i hle
    rw [← Option.some.inj h]
    exact not_lt.mp hle

/-- A new atom is the string it was made from, and the other entries keep their references. -/
theorem newAtom_spec (hsize : t.size ≤ atomMax)
    (h : newAtom t (.string units) = some (a, t')) :
    IsAtom t' a units ∧ t'.size ≤ atomMax ∧ t.Keeps t' := by
  rw [newAtom, Option.map_eq_some_iff] at h
  obtain ⟨⟨i, t₁⟩, hintern, heq⟩ := h
  simp only [Prod.mk.injEq] at heq
  obtain ⟨rfl, rfl⟩ := heq
  obtain ⟨hold, hkeep⟩ := Table.intern_spec hintern
  have hsize' := Table.intern_size_le atomPolicy_le hsize hintern
  refine ⟨?_, hsize', hkeep⟩
  have hlt : i < 2 ^ 32 := by
    have := hold.lt.trans_le hsize'
    rw [atomMax] at this
    omega
  rw [IsAtom, BitVec.toNat_ofNat, Nat.mod_eq_of_lt hlt]
  exact hold

/-- Looking up a predefined atom changes nothing. -/
theorem newAtom_of_isAtom (h : IsAtom t a units) (hconst : atomIsConst a = true) :
    newAtom t (.string units) = some (a, t) := by
  have hfind := h.find
  have hintern : t.intern atomPolicy (fun i => atomIsConst (BitVec.ofNat 32 i)) (.string units) =
      some (a.toNat, t) := by
    rw [Table.intern]
    split
    · rename_i i hi
      rw [hfind] at hi
      rw [← Option.some.inj hi, BitVec.ofNat_toNat, BitVec.setWidth_eq, hconst]
      rfl
    · rename_i hnone
      rw [hfind] at hnone
      exact absurd hnone (by simp)
  rw [newAtom, hintern, Option.map_some, BitVec.ofNat_toNat, BitVec.setWidth_eq]

/-- While there is room a string gets an atom. -/
theorem newAtom_room (units : List UInt16) {n : ℕ} (h : n < t.room atomPolicy) :
    ∃ a t', newAtom t (.string units) = some (a, t') ∧ n ≤ t'.room atomPolicy := by
  obtain ⟨i, t', hintern, hroom⟩ :=
    Table.intern_room (fun i => atomIsConst (BitVec.ofNat 32 i)) (.string units)
      (Nat.zero_lt_of_lt h)
  exact ⟨_, t', by rw [newAtom, hintern]; rfl, by omega⟩

theorem newAtomStr_spec (hnum : isNumString units = none) (hsize : t.size ≤ atomMax) {n : ℕ}
    (h : n < t.room atomPolicy) :
    ∃ a t', newAtomStr t units = some (a, t') ∧ IsAtom t' a units ∧ t'.size ≤ atomMax ∧
      t.Keeps t' ∧ n ≤ t'.room atomPolicy := by
  obtain ⟨a, t', hnew, hroom⟩ := newAtom_room units h
  obtain ⟨hatom, hsize', hkeeps⟩ := newAtom_spec hsize hnew
  exact ⟨a, t', by rw [newAtomStr, hnum, hnew], hatom, hsize', hkeeps, hroom⟩

/-- Every table smaller than this may grow. -/
def atomLimit : ℕ := 715827883

/-- How many atoms the table takes, however often it has to grow. -/
def atomCapacity (t : AtomTable) : ℕ := t.capacity atomLimit

theorem newAtomStr_capacity (units : List UInt16) (h : 0 < atomCapacity t) :
    ∃ a t', newAtomStr t units = some (a, t') ∧ atomCapacity t ≤ atomCapacity t' + 1 := by
  have hpolicy : ∀ n < atomLimit, ∃ n', atomPolicy n = some n' ∧ n < n' := by
    intro n hn
    rw [atomLimit] at hn
    refine ⟨max 211 (n * 3 / 2), if_neg ?_, ?_⟩
    · rw [atomMax]
      omega
    · omega
  have hnew : ∃ a t', newAtom t (.string units) = some (a, t') ∧
      atomCapacity t ≤ atomCapacity t' + 1 := by
    obtain ⟨i, t', hintern, hle⟩ :=
      Table.intern_capacity (fun i => atomIsConst (BitVec.ofNat 32 i)) (.string units) hpolicy h
    exact ⟨_, t', by rw [newAtom, hintern]; rfl, hle⟩
  rw [newAtomStr]
  split
  · split
    · exact ⟨_, t, rfl, Nat.le_succ _⟩
    · exact hnew
  · exact hnew

/-- The atom `a` is the one that `JS_NewAtomStr` gives for `units`. -/
def Names (t : AtomTable) (a : JSAtom) (units : List UInt16) : Prop :=
  match isNumString units with
  | some n => if n < 2 ^ 31 then a = atomFromUInt32 n else IsAtom t a units
  | none => IsAtom t a units

theorem newAtomStr_names (hsize : t.size ≤ atomMax) (h : newAtomStr t units = some (a, t')) :
    Names t' a units ∧ t'.size ≤ atomMax ∧ t.Keeps t' := by
  rw [newAtomStr] at h
  rw [Names]
  split at h
  · split at h
    · rename_i n _ hlt
      obtain ⟨rfl, rfl⟩ := Prod.mk.inj (Option.some.inj h)
      simp only [hlt, if_true]
      exact ⟨trivial, hsize, Table.Keeps.refl t⟩
    · rename_i n _ hge
      simp only [hge, if_false]
      exact newAtom_spec hsize h
  · exact newAtom_spec hsize h

theorem Names.keeps (h : Names t a units) (hkeeps : t.Keeps t') : Names t' a units := by
  rw [Names] at h ⊢
  split at h
  · rename_i n _
    by_cases hn : n < 2 ^ 31
    · simpa only [hn, if_true] using h
    · simp only [hn, if_false] at h ⊢
      exact hkeeps.holds h
  · exact hkeeps.holds h

theorem freeAtom_const (t : AtomTable) (h : atomIsConst a = true) : freeAtom t a = t := if_pos h

theorem freeAtoms_append (t : AtomTable) (as bs : List JSAtom) :
    freeAtoms t (as ++ bs) = freeAtoms (freeAtoms t as) bs := List.foldl_append

/-- Freeing atoms without a counter changes nothing. -/
theorem freeAtoms_const {as : List JSAtom} (h : ∀ a ∈ as, atomIsConst a = true) (t : AtomTable) :
    freeAtoms t as = t := by
  induction as with
  | nil => rfl
  | cons a as ih =>
      rw [freeAtoms, List.foldl_cons, freeAtom_const t (h a List.mem_cons_self)]
      exact ih fun b hb => h b (List.mem_cons_of_mem a hb)

end Laws

/-! ## Ownership -/

/-- The atom `a` is the string `units`, and unless it is predefined there are at least `n`
references to it. -/
def Owned (t : AtomTable) (a : JSAtom) (units : List UInt16) (n : ℕ) : Prop :=
  IsAtom t a units ∧ (atomIsConst a = false → t.Refs a.toNat (.string units) n)

section Owned

variable {t : AtomTable} {a b : JSAtom} {units : List UInt16} {n : ℕ}

theorem IsAtom.keeps {t' : AtomTable} (h : IsAtom t a units) (hkeeps : t.Keeps t') :
    IsAtom t' a units := hkeeps.holds h

theorem Owned.keeps {t' : AtomTable} (h : Owned t a units n) (hkeeps : t.Keeps t') :
    Owned t' a units n := ⟨h.1.keeps hkeeps, fun hconst => hkeeps _ _ _ (h.2 hconst)⟩

theorem keeps_dupAtom (t : AtomTable) (a : JSAtom) : t.Keeps (dupAtom t a) := by
  rw [dupAtom]
  split
  · exact Table.Keeps.refl t
  · exact Table.keeps_addRef t a.toNat

theorem IsAtom.owned (h : IsAtom t a units) : Owned t a units 1 := ⟨h, fun _ => h.refs⟩

theorem Owned.dup (h : Owned t a units n) : Owned (dupAtom t a) a units (n + 1) := by
  refine ⟨h.1.dupAtom a, fun hconst => ?_⟩
  rw [dupAtom, if_neg (by rw [hconst]; simp)]
  exact (h.2 hconst).addRef_self

theorem Owned.dup_ne (h : Owned t a units n) (hne : a ≠ b) : Owned (dupAtom t b) a units n := by
  refine ⟨h.1.dupAtom b, fun hconst => ?_⟩
  rw [dupAtom]
  split
  · exact h.2 hconst
  · exact (h.2 hconst).addRef_ne fun heq => hne (BitVec.eq_of_toNat_eq heq)

/-- An atom stays as long as other references to it remain. -/
theorem Owned.free (h : Owned t a units (n + 1)) (hn : 0 < n) :
    Owned (freeAtom t a) a units n := by
  rw [freeAtom]
  by_cases hconst : atomIsConst a = true
  · rw [if_pos hconst]
    exact ⟨h.1, fun hfalse => absurd hconst (by rw [hfalse]; simp)⟩
  · rw [if_neg hconst]
    have hrefs := (h.2 (Bool.eq_false_iff.mpr hconst)).release_self hn
    exact ⟨hrefs.1, fun _ => hrefs⟩

theorem Owned.free_ne (h : Owned t a units n) (hne : a ≠ b) : Owned (freeAtom t b) a units n := by
  have hne' : a.toNat ≠ b.toNat := fun heq => hne (BitVec.eq_of_toNat_eq heq)
  rw [freeAtom]
  split
  · exact h
  · exact ⟨h.1.release_ne hne', fun hconst => (h.2 hconst).release_ne hne'⟩

end Owned

end Engine
end FuzzerJs
