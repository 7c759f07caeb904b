import FuzzerJs.Lib.Scan

/-!
# Scans that pass no mark

Some bytes are marks: a scan that is not about them stops in front of the first one.  With the
terminating zero among the marks, such a scan never leaves the text.

* `Passes S m p r` says that no byte from `p` up to `r` is one of the marks `S`.
* `Plain S m x' x pos p q` is `Local` for such a scan: it passes no mark, and so the same scan of a
  memory that agrees up to the zero at `q` comes to the same end, be it a result, an error or
  none at all.  The rules follow the shape of the code.
-/

namespace Scan

/-- No byte from `p` up to `r` is a mark. -/
structure Passes (S : List UInt8) (m : Mem) (p r : ℕ) : Prop where
  le : p ≤ r
  notMem : ∀ i, p ≤ i → i < r → m i ∉ S

namespace Passes

variable {S S' : List UInt8} {m : Mem} {p q r : ℕ}

theorem refl (S : List UInt8) (m : Mem) (p : ℕ) : Passes S m p p :=
  ⟨le_rfl, fun _ hi hlt => absurd hlt (not_lt.mpr hi)⟩

theorem trans (h : Passes S m p q) (h' : Passes S m q r) : Passes S m p r := by
  refine ⟨h.le.trans h'.le, fun i hi hr => ?_⟩
  rcases lt_or_ge i q with hlt | hge
  · exact h.notMem i hi hlt
  · exact h'.notMem i hge hr

/-- One byte more, in front. -/
theorem cons (hp : m p ∉ S) (h : Passes S m (p + 1) r) : Passes S m p r := by
  refine ⟨(Nat.le_succ p).trans h.le, fun i hi hr => ?_⟩
  rcases Nat.eq_or_lt_of_le hi with rfl | hlt
  · exact hp
  · exact h.notMem i hlt hr

theorem one (hp : m p ∉ S) : Passes S m p (p + 1) := (refl S m (p + 1)).cons hp

theorem two (hp : m p ∉ S) (hp' : m (p + 1) ∉ S) : Passes S m p (p + 2) := (one hp').cons hp

theorem mono (h : Passes S m p r) (hsub : S' ⊆ S) : Passes S' m p r :=
  ⟨h.le, fun i hi hr hmem => h.notMem i hi hr (hsub hmem)⟩

/-- A mark is not passed. -/
theorem inside (h : Passes S m p r) (hq : m q ∈ S) (hp : p ≤ q) : r ≤ q := by
  by_contra hlt
  exact h.notMem q hp (not_le.mp hlt) hq

end Passes

/-- A scan `x` from `p` on that passes no mark, and the same scan `x'` of another memory, which ends
in the same way when it starts at or before `q`. -/
structure Plain {α : Type} (S : List UInt8) (m : Mem) (x' x : Res α) (pos : α → ℕ) (p q : ℕ) :
    Prop where
  same : p ≤ q → x' = x
  passes : ∀ a, x = .ok a → Passes S m p (pos a)

namespace Plain

variable {α β : Type} {S : List UInt8} {m : Mem} {x x' : Res α} {pos : α → ℕ} {p p' q : ℕ}

theorem ok {a : α} (h : Passes S m p (pos a)) : Plain S m (.ok a) (.ok a) pos p q := by
  refine ⟨fun _ => rfl, ?_⟩
  rintro b ⟨⟩
  exact h

theorem error {message : String} : Plain S m (.error message) (.error message) pos p q :=
  ⟨fun _ => rfl, by simp⟩

theorem timeout : Plain S m .timeout .timeout pos p q := ⟨fun _ => rfl, by simp⟩

/-- Replace the scan of the other memory by one that is equal to it. -/
theorem congr {y : Res α} (hy : p ≤ q → y = x') (h : Plain S m x' x pos p q) :
    Plain S m y x pos p q := ⟨fun hp => (hy hp).trans (h.same hp), h.passes⟩

/-- What follows bytes that are no marks. -/
theorem after (hq : m q ∈ S) (hp : Passes S m p p') (h : Plain S m x' x pos p' q) :
    Plain S m x' x pos p q :=
  ⟨fun hle => h.same (hp.inside hq hle), fun a ha => hp.trans (h.passes a ha)⟩

/-- A test that comes out the same. -/
theorem ite {c c' : Prop} [Decidable c] [Decidable c'] {y y' : Res α} (hc : p ≤ q → (c' ↔ c))
    (hpos : c → Plain S m x' x pos p q) (hneg : ¬ c → Plain S m y' y pos p q) :
    Plain S m (if c' then x' else y') (if c then x else y) pos p q := by
  by_cases h : c
  · rw [if_pos h]
    refine ⟨fun hp => ?_, (hpos h).passes⟩
    rw [if_pos ((hc hp).mpr h)]
    exact (hpos h).same hp
  · rw [if_neg h]
    refine ⟨fun hp => ?_, (hneg h).passes⟩
    rw [if_neg fun h' => h ((hc hp).mp h')]
    exact (hneg h).same hp

/-- One scan after another. -/
theorem bind {f f' : α → Res β} {pos' : β → ℕ} (hq : m q ∈ S) (hx : Plain S m x' x pos p q)
    (hf : ∀ a, x = .ok a → Plain S m (f' a) (f a) pos' (pos a) q) :
    Plain S m (x' >>= f') (x >>= f) pos' p q := by
  constructor
  · intro hp
    rw [hx.same hp]
    cases x with
    | ok a => exact (hf a rfl).same ((hx.passes a rfl).inside hq hp)
    | error message => rfl
    | timeout => rfl
  · intro b hb
    obtain ⟨a, ha, hab⟩ := Res.bind_eq_ok.mp hb
    exact (hx.passes a ha).trans ((hf a ha).passes b hab)

end Plain

end Scan
