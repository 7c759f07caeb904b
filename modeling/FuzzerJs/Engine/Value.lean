import Mathlib

/-!
# Values of the engine

The tagged values that a script can leave in a variable, and the two
representations of `struct JSString`.  A string is a sequence of 16-bit code units
(`JSString.codeUnits`); the engine stores it either one byte or two bytes a unit,
and the same sequence may well be stored both ways.
-/

namespace FuzzerJs

/-- `JS_STRING_LEN_MAX`. -/
def stringLenMax : ℕ := 2 ^ 30 - 1

/-- The union `u` of `struct JSString`, told apart by `is_wide_char`. -/
inductive JSStringData where
  /-- `u.str8`: one byte for each code unit. -/
  | str8 (u : List UInt8)
  /-- `u.str16`: two bytes for each code unit. -/
  | str16 (u : List UInt16)
  deriving DecidableEq, Repr

/-- The number of code units. -/
def JSStringData.length : JSStringData → ℕ
  | .str8 u => u.length
  | .str16 u => u.length

/-- `struct JSString`: the engine refuses to build longer strings, so that the length fits
the 31 bits of the field `len`. -/
structure JSString where
  /-- The code units. -/
  data : JSStringData
  length_le : data.length ≤ stringLenMax
  deriving DecidableEq

namespace JSString

/-- The field `len`. -/
def len (s : JSString) : ℕ := s.data.length

/-- The string as the language sees it. -/
def codeUnits (s : JSString) : List UInt16 :=
  match s.data with
  | .str8 u => u.map UInt8.toUInt16
  | .str16 u => u

/-- The two bytes of a code unit, in the order of a little-endian memory. -/
def unitBytes (u : UInt16) : List UInt8 := [u.toUInt8, (u >>> 8).toUInt8]

/-- The bytes that hold the code units, from `u.str8` on. -/
def storage (s : JSString) : List UInt8 :=
  match s.data with
  | .str8 u => u
  | .str16 u => u.flatMap unitBytes

theorem length_codeUnits (s : JSString) : s.codeUnits.length = s.len := by
  rcases s with ⟨_ | _, _⟩ <;> simp [codeUnits, len, JSStringData.length]

/-- There is at least one byte of storage for each code unit. -/
theorem len_le_length_storage (s : JSString) : s.len ≤ s.storage.length := by
  rcases s with ⟨u | u, _⟩
  · exact le_refl _
  · have hbytes : (u.map fun x => (unitBytes x).length) = u.map fun _ => 2 :=
      List.map_congr_left fun _ _ => rfl
    simp only [storage, len, JSStringData.length, List.length_flatMap, hbytes, List.map_const',
      List.sum_replicate, smul_eq_mul]
    omega

theorem codeUnits_eq_nil_iff (s : JSString) : s.codeUnits = [] ↔ s.len = 0 := by
  rw [← List.length_eq_zero_iff, length_codeUnits]

/-- The string with given code units, stored in 8 bits when they all fit. -/
def ofUnits (units : List UInt16) : Option JSString :=
  if h : units.length ≤ stringLenMax then
    if units.all (· < 256) then
      some ⟨.str8 (units.map UInt16.toUInt8), by simpa [JSStringData.length] using h⟩
    else some ⟨.str16 units, h⟩
  else none

theorem codeUnits_ofUnits {units : List UInt16} {s : JSString} (h : ofUnits units = some s) :
    s.codeUnits = units := by
  rw [ofUnits] at h
  split at h
  · split at h
    · rename_i hall
      rw [← Option.some.inj h]
      change (units.map UInt16.toUInt8).map UInt8.toUInt16 = units
      rw [List.map_map]
      refine (List.map_congr_left fun u hu => ?_).trans (List.map_id _)
      have hlt := List.all_eq_true.mp hall u hu
      simp only [decide_eq_true_eq, UInt16.lt_iff_toNat_lt] at hlt
      apply UInt16.toNat_inj.mp
      simp only [Function.comp_apply, UInt8.toNat_toUInt16, UInt16.toNat_toUInt8, id_eq]
      exact Nat.mod_eq_of_lt hlt
    · rw [← Option.some.inj h]
      rfl
  · exact absurd h (by simp)

theorem ofUnits_isSome {units : List UInt16} (h : units.length ≤ stringLenMax) :
    ∃ s, ofUnits units = some s := by
  rw [ofUnits, dif_pos h]
  split
  · exact ⟨_, rfl⟩
  · exact ⟨_, rfl⟩

end JSString

/-- `JSValue`, by tag.  Objects and symbols are references into the heap.  `JS_EXCEPTION`,
which only says that an operation failed, is not a value here: such an operation returns an
error (`JSError`). -/
inductive JSValue where
  | undefined
  | null
  | bool (b : Bool)
  | int (i : BitVec 32)
  | float64 (bits : BitVec 64)
  | string (s : JSString)
  | symbol (ref : ℕ)
  | object (ref : ℕ)
  /-- `JS_UNINITIALIZED`, the content of a lexical variable before its declaration. -/
  | uninitialized
  deriving DecidableEq

/-- `JSAtom`: the number of an entry of the atom table, or an integer below `2 ^ 31`
tagged with bit 31. -/
abbrev JSAtom := BitVec 32

/-- The class of a thrown error. -/
inductive ErrorKind where
  | typeError
  | syntaxError
  | referenceError
  deriving DecidableEq, Repr

/-- A thrown error: its class and its message, where `atom` is the name printed for `%s`. -/
structure JSError where
  kind : ErrorKind
  message : String
  atom : Option JSAtom
  deriving DecidableEq

/-- The integer result of most operations: `TRUE` or `FALSE`, or `-1` with an error
pending. -/
abbrev Result := Except JSError Bool

end FuzzerJs
