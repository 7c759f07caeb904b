import Mathlib

/-!
# Residues of multiples

What is left of a number after it is multiplied by a constant and reduced
modulo `m`.  Multiplication by `c` forgets exactly the factor that `c` shares
with `m`: two multiples agree modulo `m` precisely when the numbers agree modulo
`m / gcd m c` (`mul_mod_eq_iff`), so at most `m / gcd m c` residues are ever
reached (`card_image_mul_mod_le`).
-/

namespace Residue

/-- Two multiples of `c` agree modulo `m` exactly when the multiplied numbers
agree modulo what is left of `m` once the factor it shares with `c` is gone. -/
theorem mul_mod_eq_iff {m : ℕ} (hm : 0 < m) (c a b : ℕ) :
    c * a % m = c * b % m ↔ a ≡ b [MOD m / Nat.gcd m c] := by
  constructor
  · intro h
    exact Nat.ModEq.cancel_left_div_gcd hm h
  · intro h
    have hd : m ∣ c * (m / Nat.gcd m c) := by
      obtain ⟨k, hk⟩ := Nat.gcd_dvd_right m c
      refine ⟨k, ?_⟩
      calc c * (m / Nat.gcd m c)
          = Nat.gcd m c * k * (m / Nat.gcd m c) := by rw [← hk]
        _ = Nat.gcd m c * (m / Nat.gcd m c) * k := by ring
        _ = m * k := by rw [Nat.mul_div_cancel' (Nat.gcd_dvd_left m c)]
    have hc : c * a ≡ c * b [MOD c * (m / Nat.gcd m c)] := Nat.ModEq.mul_left' c h
    exact hc.of_dvd hd

/-- Multiplication by `c` reaches at most `m / gcd m c` residues modulo `m`. -/
theorem card_image_mul_mod_le {m : ℕ} (hm : 0 < m) (c : ℕ) (s : Finset ℕ) :
    (s.image fun a => c * a % m).card ≤ m / Nat.gcd m c := by
  set d := m / Nat.gcd m c with hd
  have hdpos : 0 < d := Nat.div_pos (Nat.gcd_le_left c hm) (Nat.gcd_pos_of_pos_left c hm)
  -- every multiple already occurs among the first `d` of them
  have hsub : (s.image fun a => c * a % m) ⊆ (Finset.range d).image fun a => c * a % m := by
    intro x hx
    obtain ⟨a, -, rfl⟩ := Finset.mem_image.mp hx
    refine Finset.mem_image.mpr ⟨a % d, Finset.mem_range.mpr (Nat.mod_lt a hdpos), ?_⟩
    exact (mul_mod_eq_iff hm c (a % d) a).mpr (Nat.mod_modEq a d)
  calc (s.image fun a => c * a % m).card
      ≤ ((Finset.range d).image fun a => c * a % m).card := Finset.card_le_card hsub
    _ ≤ (Finset.range d).card := Finset.card_image_le
    _ = d := Finset.card_range d

end Residue
