import FuzzerJs.Lib.Residue
import FuzzerJs.Engine.Value

/-!
# The bytecode counters of the instrumented interpreter

At the top of its dispatch loop `JS_CallInternal` marks the program point that it
is about to execute,

    libfuzzer_bytecode_counter[((b->func_name+1) * (pc - b->byte_code_buf))
        % sizeof(libfuzzer_bytecode_counter)] = 1;

The expression mixes three C types: `func_name` is a 32-bit unsigned atom number,
the pointer difference is a 64-bit signed integer and `sizeof` is a 64-bit
unsigned one.  `counterIndex` follows these conversions bit for bit;
`pointIndex_eq` says what comes out of them in plain arithmetic.

Main results:

* `counter_resolution` — inside one function nothing overflows, and two offsets
  share a counter exactly when they agree modulo `65536 / gcd`;
* `counters_tell_functions_apart` — at one offset, which pairs of functions have
  different counters.
-/

namespace FuzzerJs
namespace Coverage

/-! ## The index expression -/

/-- `sizeof(libfuzzer_bytecode_counter)`. -/
def counterSize : ℕ := 65536

/-- `b->func_name+1`, an addition of 32-bit unsigned integers, which wraps. -/
def nameFactor (func_name : JSAtom) : BitVec 32 := func_name + 1#32

/-- `(b->func_name+1) * (pc - b->byte_code_buf)`: the unsigned factor is converted to
the 64-bit signed type of the pointer difference. -/
def pointProduct (func_name : JSAtom) (offset : BitVec 64) : BitVec 64 :=
  (nameFactor func_name).zeroExtend 64 * offset

/-- Whether the signed product leaves the 64-bit range, which C leaves undefined. -/
def productOverflows (func_name : JSAtom) (offset : BitVec 64) : Bool :=
  BitVec.smulOverflow ((nameFactor func_name).zeroExtend 64) offset

/-- The whole index: the product, converted to `size_t`, modulo the size of the table. -/
def counterIndex (func_name : JSAtom) (offset : BitVec 64) : ℕ :=
  (pointProduct func_name offset % BitVec.ofNat 64 counterSize).toNat

/-- The counter of the instruction at byte `offset` of a function. -/
def pointIndex (func_name : JSAtom) (offset : ℕ) : ℕ :=
  counterIndex func_name (BitVec.ofNat 64 offset)

theorem nameFactor_toNat (a : JSAtom) : (nameFactor a).toNat = (a.toNat + 1) % 2 ^ 32 := by
  simp [nameFactor]

theorem nameFactor_lt (a : JSAtom) : (nameFactor a).toNat < 2 ^ 32 := (nameFactor a).isLt

/-- The two reductions modulo `2 ^ 64` on the way do not show, since `65536` divides
`2 ^ 64`. -/
theorem pointIndex_eq (a : JSAtom) (p : ℕ) :
    pointIndex a p = (nameFactor a).toNat * p % counterSize := by
  have hdvd : counterSize ∣ 2 ^ 64 := by decide
  have hz : ((nameFactor a).zeroExtend 64).toNat = (nameFactor a).toNat :=
    BitVec.toNat_setWidth_of_le (by decide)
  rw [pointIndex, counterIndex, pointProduct, BitVec.toNat_umod, BitVec.toNat_mul, hz,
    BitVec.toNat_ofNat, BitVec.toNat_ofNat]
  rw [show counterSize % 2 ^ 64 = counterSize by decide, Nat.mod_mod_of_dvd _ hdvd,
    Nat.mul_mod, Nat.mod_mod_of_dvd _ hdvd, ← Nat.mul_mod]

theorem pointIndex_lt (a : JSAtom) (p : ℕ) : pointIndex a p < counterSize := by
  rw [pointIndex_eq]
  exact Nat.mod_lt _ (by decide)

/-- Every function marks counter 0 when it is entered: its first instruction is at
offset 0. -/
@[simp]
theorem pointIndex_zero (a : JSAtom) : pointIndex a 0 = 0 := by
  rw [pointIndex_eq, Nat.mul_zero, Nat.zero_mod]

/-- A factor below `2 ^ 32` and an offset that fits `byte_code_len` stay inside the
signed range. -/
theorem productOverflows_eq_false (a : JSAtom) {p : ℕ} (hp : p ≤ 2 ^ 31 - 1) :
    productOverflows a (BitVec.ofNat 64 p) = false := by
  have hf := nameFactor_lt a
  have hz : ((nameFactor a).zeroExtend 64).toInt = ((nameFactor a).toNat : ℤ) := by
    rw [BitVec.toInt_eq_toNat_of_lt]
    · rw [BitVec.toNat_setWidth_of_le (by decide)]
    · rw [BitVec.toNat_setWidth_of_le (by decide)]
      omega
  have ho : (BitVec.ofNat 64 p).toInt = (p : ℤ) := by
    rw [BitVec.toInt_eq_toNat_of_lt] <;> rw [BitVec.toNat_ofNat, Nat.mod_eq_of_lt (by omega)]
    omega
  have hle : (nameFactor a).toNat * p ≤ (2 ^ 32 - 1) * (2 ^ 31 - 1) :=
    Nat.mul_le_mul (by omega) hp
  have hlt : (nameFactor a).toNat * p < 2 ^ 63 := lt_of_le_of_lt hle (by norm_num)
  have hprod : ((nameFactor a).toNat : ℤ) * (p : ℤ) < 2 ^ 63 := by exact_mod_cast hlt
  have hnonneg : (0 : ℤ) ≤ ((nameFactor a).toNat : ℤ) * (p : ℤ) := by positivity
  rw [productOverflows, BitVec.smulOverflow, hz, ho]
  simp only [Bool.or_eq_false_iff, decide_eq_false_iff_not, not_le, not_lt, ge_iff_le]
  exact ⟨hprod, le_trans (by norm_num) hnonneg⟩

/-! ## Resolution inside one function -/

/-- Two offsets of one function share a counter exactly when they agree modulo what
`func_name + 1` leaves of `65536`. -/
theorem pointIndex_eq_iff_offset (a : JSAtom) (p q : ℕ) :
    pointIndex a p = pointIndex a q ↔
      p ≡ q [MOD counterSize / Nat.gcd (nameFactor a).toNat counterSize] := by
  rw [pointIndex_eq, pointIndex_eq, Residue.mul_mod_eq_iff (by decide), Nat.gcd_comm]

/-- The number of counters that the offsets of one function reach. -/
theorem card_image_pointIndex_le (a : JSAtom) (s : Finset ℕ) :
    (s.image (pointIndex a)).card ≤
      counterSize / Nat.gcd (nameFactor a).toNat counterSize := by
  have himage : s.image (pointIndex a) =
      s.image fun p => (nameFactor a).toNat * p % counterSize :=
    Finset.image_congr fun p _ => pointIndex_eq a p
  rw [himage, Nat.gcd_comm]
  exact Residue.card_image_mul_mod_le (by decide) _ s

/-- **Exact resolution of one function.**  On every offset that a `byte_code_len` allows
the signed product does not overflow and the index is inside the table; two offsets mark
the same counter exactly when they agree modulo `65536 / gcd ((a + 1) mod 2 ^ 32, 65536)`;
and when that gcd is `2 ^ j`, code of any length reaches at most `2 ^ (16 - j)` counters. -/
theorem counter_resolution (a : JSAtom) :
    (∀ p ≤ 2 ^ 31 - 1, productOverflows a (BitVec.ofNat 64 p) = false ∧
      pointIndex a p < counterSize) ∧
    (∀ p ≤ 2 ^ 31 - 1, ∀ q ≤ 2 ^ 31 - 1, pointIndex a p = pointIndex a q ↔
      p ≡ q [MOD 65536 / Nat.gcd ((a.toNat + 1) % 2 ^ 32) 65536]) ∧
    (∀ j, Nat.gcd ((a.toNat + 1) % 2 ^ 32) 65536 = 2 ^ j →
      ∀ len ≤ 2 ^ 31, ((Finset.range len).image (pointIndex a)).card ≤ 2 ^ (16 - j)) := by
  rw [← nameFactor_toNat]
  refine ⟨fun p hp => ⟨productOverflows_eq_false a hp, pointIndex_lt a p⟩,
    fun p _ q _ => pointIndex_eq_iff_offset a p q, ?_⟩
  intro j hj len _
  have hcard := card_image_pointIndex_le a (Finset.range len)
  rw [counterSize, hj] at hcard
  have hle : j ≤ 16 := by
    have hdvd : 2 ^ j ∣ 2 ^ 16 := by
      rw [← hj]
      exact Nat.gcd_dvd_right _ _
    exact (Nat.pow_dvd_pow_iff_le_right (by decide)).mp hdvd
  have hdiv : 65536 / 2 ^ j = 2 ^ (16 - j) := Nat.pow_div hle (by norm_num : 0 < 2)
  rwa [hdiv] at hcard

/-- `JS_ATOM__eval_`, the name of a script's top-level function, is atom 79: its factor 80
leaves `65536 / 16`, so offsets 4096 apart are not told apart. -/
theorem counter_resolution_eval :
    pointIndex 79#32 5 = pointIndex 79#32 4101 ∧
      ((Finset.range 100000).image (pointIndex 79#32)).card ≤ 2 ^ 12 :=
  ⟨((counter_resolution 79#32).2.1 5 (by norm_num) 4101 (by norm_num)).mpr (by decide),
    (counter_resolution 79#32).2.2 4 (by decide) 100000 (by norm_num)⟩

/-! ## Resolution between functions -/

/-- Below `65535` the factor `func_name + 1` neither wraps nor reaches `65536`. -/
theorem nameFactor_of_lt {a : JSAtom} (ha : a.toNat < 65535) :
    (nameFactor a).toNat = a.toNat + 1 := by
  rw [nameFactor_toNat, Nat.mod_eq_of_lt (by omega)]

/-- At one offset `k`, two functions share a counter exactly when their atoms agree modulo
what `k` leaves of `65536`. -/
theorem pointIndex_eq_iff_name {a b : JSAtom} (ha : a.toNat < 65535) (hb : b.toNat < 65535)
    (k : ℕ) :
    pointIndex a k = pointIndex b k ↔
      ((65536 / Nat.gcd k 65536 : ℕ) : ℤ) ∣ (a.toNat : ℤ) - b.toNat := by
  rw [pointIndex_eq, pointIndex_eq, nameFactor_of_lt ha, nameFactor_of_lt hb,
    Nat.mul_comm _ k, Nat.mul_comm _ k, Residue.mul_mod_eq_iff (by decide), Nat.gcd_comm,
    counterSize]
  have hswap : ((a.toNat : ℤ) - b.toNat) = ((a.toNat + 1 : ℕ) : ℤ) - ((b.toNat + 1 : ℕ) : ℤ) := by
    push_cast
    ring
  rw [hswap]
  constructor
  · intro h
    exact Nat.modEq_iff_dvd.mp h.symm
  · intro h
    exact (Nat.modEq_iff_dvd.mpr h).symm

/-- **Which functions the counters tell apart.**  At an offset `k` two different names below
`65535` mark different counters exactly when `65536 / gcd (k, 65536)` does not divide their
distance; at an odd offset they always do. -/
theorem counters_tell_functions_apart {a b : JSAtom} (k : ℕ) (ha : a.toNat < 65535)
    (hb : b.toNat < 65535) (hab : a ≠ b) :
    (pointIndex a k ≠ pointIndex b k ↔
      ¬ ((65536 / Nat.gcd k 65536 : ℕ) : ℤ) ∣ (a.toNat : ℤ) - b.toNat) ∧
    (k % 2 = 1 → pointIndex a k ≠ pointIndex b k) := by
  refine ⟨not_congr (pointIndex_eq_iff_name ha hb k), ?_⟩
  intro hodd heq
  have hcop : Nat.gcd k 65536 = 1 := by
    have h2 : Nat.Coprime k 2 := Nat.coprime_two_right.mpr (Nat.odd_iff.mpr hodd)
    exact Nat.Coprime.pow_right 16 h2
  have hdvd := (pointIndex_eq_iff_name ha hb k).mp heq
  rw [hcop] at hdvd
  have hne : a.toNat ≠ b.toNat := fun h => hab (BitVec.eq_of_toNat_eq h)
  obtain ⟨c, hc⟩ := hdvd
  have hcz : c = 0 := by omega
  rw [hcz, Int.mul_zero] at hc
  omega

/-- Atoms 200 and 201 are told apart at offset 7. -/
theorem counters_tell_functions_apart_seven : pointIndex 200#32 7 ≠ pointIndex 201#32 7 :=
  (counters_tell_functions_apart 7 (by decide) (by decide) (by decide)).2 (by decide)

/-- Atoms 200 and 216 are not, at offset 4096. -/
theorem functions_share_counter :
    ¬ (∀ (k : ℕ) (a b : JSAtom), k < 65536 → a.toNat < 65535 → b.toNat < 65535 → a ≠ b →
      pointIndex a k ≠ pointIndex b k) := by
  intro h
  exact h 4096 200#32 216#32 (by decide) (by decide) (by decide) (by decide) (by decide)

end Coverage
end FuzzerJs
