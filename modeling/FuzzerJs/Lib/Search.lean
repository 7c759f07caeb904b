import Mathlib

/-!
# Depth-first searches

A recursive function that walks over a graph is a stack of pending calls: a call does its own
part, and puts the calls that it makes in front of those that are pending (`run`).  What such
a function does is proved with an invariant that may speak of the pending calls (`run_invariant`),
and a measure that every call brings down (`run_total`).

The second part is about graphs with finitely many nodes, where `children n` are the targets of
the edges of `n`, each as often as there are edges: counting the edges that leave a set of nodes
(`edges`), and the work that is left when each node is entered a limited number of times
(`work`).
-/

namespace Search

/-! ## Pending calls -/

section Run

variable {κ σ ε : Type}

/-- Execute the pending calls, the innermost first.  A call may fail with an error; the error is
`none` where the fuel is used up. -/
def run (exec : κ → σ → Except ε (List κ × σ)) : ℕ → List κ → σ → Except (Option ε) σ
  | _, [], s => .ok s
  | 0, _ :: _, _ => .error none
  | fuel + 1, c :: calls, s =>
    match exec c s with
    | .error e => .error (some e)
    | .ok (new, s') => run exec fuel (new ++ calls) s'

/-- What every call that succeeds keeps is true in the end. -/
theorem run_invariant {exec : κ → σ → Except ε (List κ × σ)} {Inv : List κ → σ → Prop}
    (hstep : ∀ c calls s new s', Inv (c :: calls) s → exec c s = .ok (new, s') → Inv (new ++ calls) s')
    {fuel : ℕ} : ∀ {calls : List κ} {s s' : σ}, Inv calls s → run exec fuel calls s = .ok s' →
      Inv [] s' := by
  induction fuel with
  | zero =>
      intro calls s s' h hrun
      cases calls with
      | nil =>
          obtain rfl : s = s' := Except.ok.inj hrun
          exact h
      | cons c calls => simp [run] at hrun
  | succ fuel ih =>
      intro calls s s' h hrun
      cases calls with
      | nil =>
          obtain rfl : s = s' := Except.ok.inj hrun
          exact h
      | cons c calls =>
          rw [run] at hrun
          cases hexec : exec c s with
          | error e => simp [hexec] at hrun
          | ok r =>
              obtain ⟨new, t⟩ := r
              rw [hexec] at hrun
              exact ih (hstep c calls s new t h hexec) hrun

/-- **Total correctness**: no call fails, the calls come to an end, and the invariant holds
then. -/
theorem run_total {exec : κ → σ → Except ε (List κ × σ)} {Inv : List κ → σ → Prop}
    {μ : List κ → σ → ℕ}
    (hstep : ∀ c calls s, Inv (c :: calls) s → ∃ new s', exec c s = .ok (new, s') ∧
      Inv (new ++ calls) s' ∧ μ (new ++ calls) s' < μ (c :: calls) s)
    {fuel : ℕ} : ∀ {calls : List κ} {s : σ}, Inv calls s → μ calls s ≤ fuel →
      ∃ s', run exec fuel calls s = .ok s' ∧ Inv [] s' := by
  induction fuel with
  | zero =>
      intro calls s h hfuel
      cases calls with
      | nil => exact ⟨s, rfl, h⟩
      | cons c calls =>
          obtain ⟨new, s', -, -, hlt⟩ := hstep c calls s h
          omega
  | succ fuel ih =>
      intro calls s h hfuel
      cases calls with
      | nil => exact ⟨s, rfl, h⟩
      | cons c calls =>
          obtain ⟨new, s', hexec, hinv, hlt⟩ := hstep c calls s h
          obtain ⟨t, hrun, ht⟩ := ih hinv (by omega)
          refine ⟨t, ?_, ht⟩
          rw [run, hexec]
          exact hrun

end Run

/-! ## Graphs -/

section Graph

variable {ν : Type} [Fintype ν] [DecidableEq ν] (children : ν → List ν)

/-- The second node can be reached from the first. -/
def Reach : ν → ν → Prop := Relation.ReflTransGen fun n m => m ∈ children n

omit [Fintype ν] [DecidableEq ν] in
/-- A set that is closed under children contains all that can be reached from it. -/
theorem Reach.mem {children : ν → List ν} {P : ν → Prop} {n m : ν} (h : Reach children n m)
    (hclosed : ∀ x, P x → ∀ y ∈ children x, P y) (hn : P n) : P m := by
  induction h with
  | refl => exact hn
  | tail _ hedge ih => exact hclosed _ ih _ hedge

open Classical in
/-- The number of edges to `m` that leave the nodes in `P`. -/
noncomputable def edges (P : ν → Prop) (m : ν) : ℕ := ∑ n, if P n then (children n).count m else 0

variable {children} {P Q : ν → Prop} {n m : ν}

theorem edges_congr (h : ∀ x, P x ↔ Q x) : edges children P m = edges children Q m := by
  have heq : P = Q := funext fun x => propext (h x)
  rw [heq]

theorem edges_none (h : ∀ x, ¬ P x) : edges children P m = 0 :=
  Finset.sum_eq_zero fun x _ => if_neg (h x)

/-- Only the nodes with an edge to `m` count. -/
theorem edges_congr_of_mem (h : ∀ x, m ∈ children x → (P x ↔ Q x)) :
    edges children P m = edges children Q m := by
  classical
  refine Finset.sum_congr rfl fun x _ => ?_
  by_cases hx : m ∈ children x
  · simp [h x hx]
  · simp [List.count_eq_zero.mpr hx]

/-- One node more. -/
theorem edges_insert (hn : ¬ P n) (hQ : ∀ x, Q x ↔ P x ∨ x = n) :
    edges children Q m = edges children P m + (children n).count m := by
  classical
  have hsplit : ∀ x, (if Q x then (children x).count m else 0) =
      (if P x then (children x).count m else 0) + if x = n then (children x).count m else 0 := by
    intro x
    by_cases hx : x = n
    · subst hx
      simp [hQ, hn]
    · simp [hQ, hx]
  rw [edges, Finset.sum_congr rfl fun x _ => hsplit x, Finset.sum_add_distrib, edges]
  congr 1
  rw [Finset.sum_ite_eq' Finset.univ n]
  simp

variable (children) in
theorem edges_mono (h : ∀ x, P x → Q x) : edges children P m ≤ edges children Q m := by
  classical
  refine Finset.sum_le_sum fun x _ => ?_
  by_cases hx : P x
  · simp [hx, h x hx]
  · simp [hx]

/-- A node with an edge to `m` makes a difference. -/
theorem edges_lt (h : ∀ x, P x → Q x) (hn : ¬ P n) (hQ : Q n) (hm : m ∈ children n) :
    edges children P m < edges children Q m := by
  have hinsert : edges children (fun x => P x ∨ x = n) m =
      edges children P m + (children n).count m := edges_insert hn fun _ => Iff.rfl
  have hle : edges children (fun x => P x ∨ x = n) m ≤ edges children Q m := by
    refine edges_mono children fun x hx => ?_
    rcases hx with hx | rfl
    · exact h x hx
    · exact hQ
  have hpos : 0 < (children n).count m := List.count_pos_iff.mpr hm
  omega

/-- Where an edge arrives, one of the nodes has it. -/
theorem exists_of_edges_pos (h : 0 < edges children P m) : ∃ x, P x ∧ m ∈ children x := by
  classical
  obtain ⟨x, -, hx⟩ := Finset.exists_ne_zero_of_sum_ne_zero (Nat.ne_of_gt h)
  by_cases hP : P x
  · rw [if_pos hP] at hx
    exact ⟨x, hP, List.count_pos_iff.mp (Nat.pos_of_ne_zero hx)⟩
  · rw [if_neg hP] at hx
    exact absurd rfl hx

/-- The edges of a set in two parts. -/
theorem edges_add (hdisj : ∀ x, P x → ¬ Q x) :
    edges children P m + edges children Q m = edges children (fun x => P x ∨ Q x) m := by
  classical
  rw [edges, edges, edges, ← Finset.sum_add_distrib]
  refine Finset.sum_congr rfl fun x _ => ?_
  by_cases hx : P x
  · simp [hx, hdisj x hx]
  · simp [hx]

variable (children) in
/-- What there is left to do, when the node `n` is entered `w n` times at most. -/
def work (w : ν → ℕ) : ℕ := ∑ n, w n * ((children n).length + 1)

variable (children) in
omit [DecidableEq ν] in
theorem work_mono {w w' : ν → ℕ} (h : ∀ x, w x ≤ w' x) : work children w ≤ work children w' :=
  Finset.sum_le_sum fun x _ => Nat.mul_le_mul_right _ (h x)

variable (children) in
/-- A node that is entered pays for the calls that it makes. -/
theorem work_enter {w : ν → ℕ} {k : ℕ} (h : k < w n) :
    work children (Function.update w n k) + (children n).length + 1 ≤ work children w := by
  have hupdate : ∀ x ∈ Finset.univ.erase n, Function.update w n k x * ((children x).length + 1) =
      w x * ((children x).length + 1) := by
    intro x hx
    rw [Function.update_of_ne (Finset.ne_of_mem_erase hx)]
  have hn : n ∈ (Finset.univ : Finset ν) := Finset.mem_univ n
  rw [work, work, ← Finset.add_sum_erase _ _ hn, ← Finset.add_sum_erase _ _ hn,
    Finset.sum_congr rfl hupdate, Function.update_self]
  have hle : (k + 1) * ((children n).length + 1) ≤ w n * ((children n).length + 1) :=
    Nat.mul_le_mul_right _ h
  rw [Nat.succ_mul] at hle
  omega

end Graph

end Search
