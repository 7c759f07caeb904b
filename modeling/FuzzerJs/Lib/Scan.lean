import Mathlib

/-!
# Scanning memory that ends with a zero

A scanner reads bytes at increasing addresses until something tells it to stop.  It is
given no length: the memory goes on after the text (`Mem` is a total function), and what
normally stops it is a terminating zero.

Four ideas are developed here for such code.

* `Res` is the outcome of a scan that takes fuel for its loops: a result, an error with
  its message, or `timeout`.
* `SameTo m m' q` says that two memories agree up to and including `q`, where they hold a
  zero.  A scanner that looks at a byte only after it has seen that the byte before is not
  zero cannot tell them apart, as long as it starts at or before `q` (`SameTo.read` and
  `SameTo.succ_le` are the two rules for one step of such an argument).
* `Local x' x pos p q` is the same for a scan that may run over a zero: a scan `x` that
  starts at `p` ends no earlier, and if it ends at or before `q` then `x'`, the same scan of
  another memory, ends in the same way.  The rules `Local.ok`, `Local.ite`, `Local.bind`,
  ... follow the shape of the scanner's code.
* `Reads m p bs` says that the text `bs` stands at `p`, for the other direction: what a
  scanner makes of a given text.
-/

namespace Scan

/-- A memory, from the start of a buffer on. -/
abbrev Mem := ℕ → UInt8

/-- How a scan ends. -/
inductive Res (α : Type) where
  | ok (a : α)
  | error (message : String)
  | timeout
  deriving DecidableEq

namespace Res

variable {α β : Type}

/-- Go on with the result, if there is one. -/
def bind (x : Res α) (f : α → Res β) : Res β :=
  match x with
  | ok a => f a
  | error message => error message
  | timeout => timeout

instance : Monad Res where
  pure := ok
  bind := bind

@[simp]
theorem pure_eq (a : α) : (pure a : Res α) = ok a := rfl

@[simp]
theorem ok_bind (a : α) (f : α → Res β) : (ok a >>= f) = f a := rfl

@[simp]
theorem error_bind (message : String) (f : α → Res β) : (error message >>= f) = error message := rfl

@[simp]
theorem timeout_bind (f : α → Res β) : (timeout >>= f) = timeout := rfl

/-- A composed scan gives a result exactly when both of its parts do. -/
theorem bind_eq_ok {x : Res α} {f : α → Res β} {b : β} :
    (x >>= f) = ok b ↔ ∃ a, x = ok a ∧ f a = ok b := by
  cases x with
  | ok a => simp
  | error message => simp
  | timeout => simp

end Res

/-- Two memories that are the same up to `q`, where they hold a zero. -/
structure SameTo (m m' : Mem) (q : ℕ) : Prop where
  agree : ∀ i ≤ q, m' i = m i
  zero : m q = 0

namespace SameTo

variable {m m' : Mem} {p q : ℕ}

theorem read (h : SameTo m m' q) (hp : p ≤ q) : m' p = m p := h.agree p hp

/-- After a byte that is not zero the scan is still inside. -/
theorem succ_le (h : SameTo m m' q) (hp : p ≤ q) (hne : m p ≠ 0) : p + 1 ≤ q := by
  rcases Nat.lt_or_ge p q with hlt | hge
  · exact hlt
  · have hpq : p = q := le_antisymm hp hge
    rw [hpq] at hne
    exact absurd h.zero hne

theorem symm (h : SameTo m m' q) : SameTo m' m q :=
  ⟨fun i hi => (h.agree i hi).symm, by rw [h.agree q le_rfl, h.zero]⟩

end SameTo

/-! ## Local scans -/

/-- A scan `x` from `p` on, and the same scan `x'` of another memory, that depend only on what
stands before the end of the scan; `pos` is where a result leaves off. -/
structure Local {α : Type} (x' x : Res α) (pos : α → ℕ) (p q : ℕ) : Prop where
  le : ∀ a, x = .ok a → p ≤ pos a
  same : p ≤ q → ∀ a, x = .ok a → pos a ≤ q → x' = .ok a

namespace Local

variable {α β : Type} {x x' : Res α} {pos : α → ℕ} {p q : ℕ}

theorem ok {a : α} (h : p ≤ pos a) : Local (.ok a) (.ok a) pos p q := by
  refine ⟨?_, fun _ b hb _ => hb⟩
  rintro b ⟨⟩
  exact h

theorem error {message : String} : Local (.error message) (.error message) pos p q :=
  ⟨(by simp), fun _ => (by simp)⟩

theorem timeout {x' : Res α} : Local x' .timeout pos p q := ⟨(by simp), fun _ => (by simp)⟩

/-- What starts later may be seen as starting earlier. -/
theorem weaken {p₀ : ℕ} (hp : p₀ ≤ p) (h : Local x' x pos p q) : Local x' x pos p₀ q := by
  refine ⟨fun a ha => hp.trans (h.le a ha), fun _ a ha hq => ?_⟩
  exact h.same ((h.le a ha).trans hq) a ha hq

/-- A scan that is the same for both memories, when it starts inside, and goes forward. -/
theorem of_eq (heq : p ≤ q → x' = x) (hle : ∀ a, x = .ok a → p ≤ pos a) :
    Local x' x pos p q :=
  ⟨hle, fun hp a ha _ => by rw [heq hp, ha]⟩

/-- Replace the scan of the other memory by one that is equal to it when the scan starts
inside. -/
theorem congr {y : Res α} (hy : p ≤ q → y = x') (h : Local x' x pos p q) :
    Local y x pos p q := by
  refine ⟨h.le, fun hp a ha hq => ?_⟩
  rw [hy hp]
  exact h.same hp a ha hq

/-- A test that comes out the same for both memories when the scan starts inside. -/
theorem ite {c c' : Prop} [Decidable c] [Decidable c'] {y y' : Res α} (hc : p ≤ q → (c' ↔ c))
    (hpos : c → Local x' x pos p q) (hneg : ¬ c → Local y' y pos p q) :
    Local (if c' then x' else y') (if c then x else y) pos p q := by
  by_cases h : c
  · rw [if_pos h]
    refine ⟨(hpos h).le, fun hp a ha hq => ?_⟩
    rw [if_pos ((hc hp).mpr h)]
    exact (hpos h).same hp a ha hq
  · rw [if_neg h]
    refine ⟨(hneg h).le, fun hp a ha hq => ?_⟩
    rw [if_neg fun h' => h ((hc hp).mp h')]
    exact (hneg h).same hp a ha hq

/-- One scan after another. -/
theorem bind {f f' : α → Res β} {pos' : β → ℕ} (hx : Local x' x pos p q)
    (hf : ∀ a, x = .ok a → Local (f' a) (f a) pos' (pos a) q) :
    Local (x' >>= f') (x >>= f) pos' p q := by
  constructor
  · intro b hb
    obtain ⟨a, ha, hab⟩ := Res.bind_eq_ok.mp hb
    exact (hx.le a ha).trans ((hf a ha).le b hab)
  · intro hp b hb hq
    obtain ⟨a, ha, hab⟩ := Res.bind_eq_ok.mp hb
    have haq : pos a ≤ q := ((hf a ha).le b hab).trans hq
    rw [hx.same hp a ha haq]
    exact (hf a ha).same haq b hab hq

end Local

/-! ## Text in memory -/

/-- The bytes of a text stand at `p`. -/
def Reads (m : Mem) : ℕ → List UInt8 → Prop
  | _, [] => True
  | p, b :: bs => m p = b ∧ Reads m (p + 1) bs

namespace Reads

variable {m : Mem} {p : ℕ}

@[simp]
theorem cons_iff {b : UInt8} {bs : List UInt8} :
    Reads m p (b :: bs) ↔ m p = b ∧ Reads m (p + 1) bs := Iff.rfl

theorem append_iff {as bs : List UInt8} :
    Reads m p (as ++ bs) ↔ Reads m p as ∧ Reads m (p + as.length) bs := by
  induction as generalizing p with
  | nil => simp [Reads]
  | cons a as ih =>
      rw [List.cons_append, cons_iff, cons_iff, ih, List.length_cons, and_assoc]
      rw [show p + 1 + as.length = p + (as.length + 1) by omega]

/-- A text is what the memory holds in its place. -/
theorem of_getD {bs : List UInt8} (h : ∀ i < bs.length, m (p + i) = bs.getD i 0) :
    Reads m p bs := by
  induction bs generalizing p with
  | nil => trivial
  | cons b bs ih =>
      refine ⟨by simpa using h 0 (by simp), ih fun i hi => ?_⟩
      have hb := h (i + 1) (by simpa using hi)
      rw [show p + 1 + i = p + (i + 1) by omega, hb]
      simp

end Reads

end Scan
