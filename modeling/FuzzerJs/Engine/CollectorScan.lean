import FuzzerJs.Engine.Collector

/-!
# What the collector frees

`gc_scan` goes over the objects twice.  The first time it keeps what has a reference from
outside, with everything that can be reached from there; what looks like garbage on the way may
be kept later.  The second time it restores the counters of the rest.

`gcSeparate_spec` is the result: exactly the objects that cannot be reached from outside are left to
be freed, and apart from that the heap is as it was.
-/

namespace FuzzerJs
namespace Engine

open Search

section Lists

variable {ν : Type} [DecidableEq ν]

theorem nextOf_append {xs ys : List ν} {x : ν} (h : x ∉ xs) :
    nextOf (xs ++ x :: ys) x = ys.head? := by
  induction xs with
  | nil => simp [nextOf]
  | cons y xs ih =>
      rw [List.mem_cons, not_or] at h
      rw [List.cons_append, nextOf, if_neg (Ne.symm h.1), ih h.2]

/-- The first element of a list from which another one is taken. -/
theorem head?_filter_ne {xs : List ν} {x : ν} (h : xs.head? ≠ some x) :
    (xs.filter fun y => y ≠ x).head? = xs.head? := by
  cases xs with
  | nil => rfl
  | cons y xs =>
      have hy : y ≠ x := by simpa using h
      simp [hy]

/-- Taking away the element that `el_next` points to. -/
theorem nextOf_filter {xs ys : List ν} {x : ν} (hnodup : (xs ++ ys).Nodup) (h : ys.head? = some x) :
    nextOf (xs ++ ys) x = (ys.filter fun y => y ≠ x).head? := by
  cases ys with
  | nil => exact absurd h (by simp)
  | cons y ys =>
      obtain rfl : y = x := by simpa using h
      have hsplit := List.nodup_append.mp hnodup
      have hys : y ∉ ys := (List.nodup_cons.mp hsplit.2.1).1
      have hxs : y ∉ xs := fun hy => hsplit.2.2 y hy y List.mem_cons_self rfl
      have hfilter : ys.filter (fun z => z ≠ y) = ys := by
        rw [List.filter_eq_self]
        intro z hz
        have hne : z ≠ y := fun heq => hys (heq ▸ hz)
        simpa using hne
      rw [nextOf_append hxs, List.filter_cons_of_neg (by simp), hfilter]

end Lists

section Scan

variable {ν : Type} [Fintype ν] [DecidableEq ν] {mem : ν → GCNode ν} {s₀ s : GCState ν} {ext : ν → ℕ}

/-- The node can be reached from one to which there is a reference from outside. -/
def Live (mem : ν → GCNode ν) (s₀ : GCState ν) (ext : ν → ℕ) (n : ν) : Prop :=
  ∃ r, Visited mem s₀ r ∧ ext r ≠ 0 ∧ Reach (heapChildren mem) r n

omit [Fintype ν] [DecidableEq ν] in
theorem Live.child {n m : ν} (h : Live mem s₀ ext n) (hm : m ∈ heapChildren mem n) :
    Live mem s₀ ext m := by
  obtain ⟨r, hr, hext, hreach⟩ := h
  exact ⟨r, hr, hext, hreach.tail hm⟩

/-- What is true during the first loop of `gc_scan`, when the objects of `L₁` have been looked at
and those of `L₂` have not.  The calls that are pending give references back to the nodes in
`inc`, `pend m` of them to the node `m`, and look at the nodes in `scan`. -/
structure ScanInv (mem : ν → GCNode ν) (s₀ : GCState ν) (ext : ν → ℕ) (L₁ L₂ : List ν)
    (inc scan : ν → Prop) (pend : ν → ℕ) (s : GCState ν) : Prop where
  count : ∀ m, s.refCount m + pend m =
    ext m + edges (heapChildren mem) (fun n => Visited mem s₀ n ∧ s.mark n = 0) m
  ext_le : ∀ m, ext m ≤ s.refCount m
  marks : ∀ n, s.mark n = 0 ∨ s.mark n = 1 ∨ s.mark n = 2
  visited : ∀ n, s.mark n ≠ 0 → Visited mem s₀ n
  live : ∀ n, Visited mem s₀ n → s.mark n = 0 → Live mem s₀ ext n
  dead : ∀ n, s.mark n = 2 → ext n = 0
  kept : ∀ n, Visited mem s₀ n → s.mark n = 0 → ∀ m ∈ heapChildren mem n, s.mark m = 0 ∨ inc m
  candidate : ∀ n, s.mark n = 2 → ∀ m ∈ heapChildren mem n, s.mark m ≠ 1 ∨ scan m
  before : ∀ n ∈ L₁, s.mark n ≠ 1 ∨ scan n
  tmpObjList : s.tmpObjList = (L₁ ++ L₂).filter fun n => s.mark n ≠ 0
  objList : ∀ n, n ∈ s.objList ↔ n ∈ L₁ ++ L₂ ∧ s.mark n = 0
  nodup : s.objList.Nodup
  elNext : s.elNext = (L₂.filter fun n => s.mark n ≠ 0).head?
  inc_live : ∀ m, inc m → Visited mem s₀ m ∧ Live mem s₀ ext m
  scan_visited : ∀ m, scan m → Visited mem s₀ m

variable {L₁ L₂ : List ν} {inc inc' scan scan' : ν → Prop} {pend pend' : ν → ℕ} {n : ν}

/-- A call that has nothing to do. -/
theorem ScanInv.skip (h : ScanInv mem s₀ ext L₁ L₂ inc scan pend s)
    (hinc : ∀ m, inc m → inc' m ∨ s.mark m = 0) (hinc' : ∀ m, inc' m → inc m)
    (hscan : ∀ m, scan m → scan' m ∨ s.mark m ≠ 1) (hscan' : ∀ m, scan' m → scan m) :
    ScanInv mem s₀ ext L₁ L₂ inc' scan' pend s where
  count := h.count
  ext_le := h.ext_le
  marks := h.marks
  visited := h.visited
  live := h.live
  dead := h.dead
  kept n hn h0 m hm := (h.kept n hn h0 m hm).elim Or.inl fun hi => (hinc m hi).symm
  candidate n hn m hm := (h.candidate n hn m hm).elim Or.inl fun hs => (hscan m hs).symm
  before n hn := (h.before n hn).elim Or.inl fun hs => (hscan n hs).symm
  tmpObjList := h.tmpObjList
  objList := h.objList
  nodup := h.nodup
  elNext := h.elNext
  inc_live m hm := h.inc_live m (hinc' m hm)
  scan_visited m hm := h.scan_visited m (hscan' m hm)

/-- One reference is given back. -/
theorem ScanInv.incref (h : ScanInv mem s₀ ext L₁ L₂ inc scan pend s) (hn : pend n = pend' n + 1)
    (hother : ∀ m, m ≠ n → pend m = pend' m) :
    ScanInv mem s₀ ext L₁ L₂ inc scan pend' (s.setRefCount n (s.refCount n + 1)) := by
  have hcount : ∀ m, (s.setRefCount n (s.refCount n + 1)).refCount m + pend' m =
      s.refCount m + pend m := by
    intro m
    by_cases hm : m = n
    · subst hm
      simp only [GCState.setRefCount, Function.update_self]
      omega
    · simp only [GCState.setRefCount, Function.update_of_ne hm]
      rw [hother m hm]
  refine { h with count := fun m => (hcount m).trans (h.count m), ext_le := fun m => ?_ }
  by_cases hm : m = n
  · subst hm
    simp only [GCState.setRefCount, Function.update_self]
    exact (h.ext_le m).trans (Nat.le_succ _)
  · simp only [GCState.setRefCount, Function.update_of_ne hm]
    exact h.ext_le m

omit [Fintype ν] in
/-- What is taken off when one node is kept. -/
theorem filter_update {L : List ν} {mark : ν → ℕ} :
    (L.filter fun x => Function.update mark n 0 x ≠ 0) =
      (L.filter fun x => mark x ≠ 0).filter fun x => x ≠ n := by
  rw [List.filter_filter]
  refine List.filter_congr fun x _ => ?_
  by_cases hx : x = n
  · simp [hx]
  · simp [hx]

/-- **A node is kept**: its children get their references back. -/
theorem ScanInv.keep (h : ScanInv mem s₀ ext L₁ L₂ inc scan pend s) (hnodup : (L₁ ++ L₂).Nodup)
    (hobj : ∀ x, x ∈ L₁ ++ L₂ ↔ (mem x).isObject = true) (hmark : s.mark n ≠ 0)
    (hlive : Live mem s₀ ext n) (hinc : ∀ m, inc m → inc' m ∨ m = n)
    (hinc' : ∀ m, inc' m → inc m ∨ m ∈ heapChildren mem n)
    (hchild : ∀ m ∈ heapChildren mem n, inc' m)
    (hscan : ∀ m, scan m → scan' m ∨ m = n) (hscan' : ∀ m, scan' m → scan m)
    (hpend : ∀ m, pend' m = pend m + (heapChildren mem n).count m) :
    ScanInv mem s₀ ext L₁ L₂ inc' scan' pend' (gcScanIncref mem n s).2 := by
  have hV : Visited mem s₀ n := h.visited n hmark
  have hzero : ∀ x, Function.update s.mark n 0 x = 0 ↔ s.mark x = 0 ∨ x = n := by
    intro x
    by_cases hx : x = n
    · simp [hx]
    · simp [hx]
  have hne : ∀ {x}, Function.update s.mark n 0 x ≠ 0 → s.mark x ≠ 0 :=
    fun hx h0 => hx ((hzero _).mpr (Or.inl h0))
  have htwo : ∀ {x}, Function.update s.mark n 0 x = 2 → s.mark x = 2 := by
    intro x hx
    by_cases hxn : x = n
    · subst hxn
      simp at hx
    · rwa [Function.update_of_ne hxn] at hx
  have hnotone : ∀ {x}, s.mark x ≠ 1 ∨ scan x → Function.update s.mark n 0 x ≠ 1 ∨ scan' x := by
    intro x hx
    by_cases hxn : x = n
    · subst hxn
      simp
    · rw [Function.update_of_ne hxn]
      exact hx.imp_right fun hs => (hscan x hs).resolve_right hxn
  -- what does not depend on whether the node is an object
  have hmarks : ∀ {t : GCState ν}, t.refCount = s.refCount → t.mark = Function.update s.mark n 0 →
      t.tmpObjList = (L₁ ++ L₂).filter (fun x => t.mark x ≠ 0) →
      (∀ x, x ∈ t.objList ↔ x ∈ L₁ ++ L₂ ∧ t.mark x = 0) → t.objList.Nodup →
      t.elNext = (L₂.filter fun x => t.mark x ≠ 0).head? →
      ScanInv mem s₀ ext L₁ L₂ inc' scan' pend' t := by
    intro t hrefs htmark htmp hobjs hnd hnext
    refine ⟨fun m => ?_, fun m => ?_, fun x => ?_, fun x hx => ?_, fun x hx h0 => ?_, fun x hx => ?_,
      fun x hx h0 m hm => ?_, fun x hx m hm => ?_, fun x hx => ?_, htmp, hobjs, hnd, hnext,
      fun m hm => ?_, fun m hm => h.scan_visited m (hscan' m hm)⟩
    · have hinsert : edges (heapChildren mem) (fun x => Visited mem s₀ x ∧ t.mark x = 0) m =
          edges (heapChildren mem) (fun x => Visited mem s₀ x ∧ s.mark x = 0) m +
            (heapChildren mem n).count m := by
        refine edges_insert (fun hP => hmark hP.2) fun x => ?_
        rw [htmark, hzero]
        by_cases hx : x = n
        · simp [hx, hV]
        · simp [hx]
      rw [hinsert, hrefs, hpend, ← Nat.add_assoc, ← Nat.add_assoc, h.count m]
    · rw [hrefs]
      exact h.ext_le m
    · rw [htmark]
      by_cases hx : x = n
      · simp [hx]
      · simpa [Function.update_of_ne hx] using h.marks x
    · rw [htmark] at hx
      exact h.visited x (hne hx)
    · rw [htmark] at h0
      rcases (hzero x).mp h0 with h0 | rfl
      · exact h.live x hx h0
      · exact hlive
    · rw [htmark] at hx
      exact h.dead x (htwo hx)
    · rw [htmark] at h0 ⊢
      rcases (hzero x).mp h0 with h0 | rfl
      · rw [hzero]
        rcases h.kept x hx h0 m hm with h1 | h1
        · exact Or.inl (Or.inl h1)
        · rcases hinc m h1 with h2 | h2
          · exact Or.inr h2
          · exact Or.inl (Or.inr h2)
      · exact Or.inr (hchild m hm)
    · rw [htmark] at hx ⊢
      exact hnotone (h.candidate x (htwo hx) m hm)
    · rw [htmark]
      exact hnotone (h.before x hx)
    · rcases hinc' m hm with hi | hi
      · exact h.inc_live m hi
      · exact ⟨hV.child hi, hlive.child hi⟩
  rw [gcScanIncref]
  dsimp only
  split
  · rename_i hobject
    have hmem : n ∈ L₁ ++ L₂ := (hobj n).mpr hobject
    refine hmarks rfl rfl ?_ ?_ ?_ ?_
    · change s.tmpObjList.erase n = _
      rw [h.tmpObjList, (hnodup.filter _).erase_eq_filter]
      refine Eq.trans (List.filter_congr fun x _ => ?_) filter_update.symm
      by_cases hx : x = n
      · simp [hx]
      · simp [hx]
    · intro x
      change x ∈ s.objList ++ [n] ↔ x ∈ L₁ ++ L₂ ∧ Function.update s.mark n 0 x = 0
      rw [List.mem_append, List.mem_singleton, h.objList, hzero]
      constructor
      · rintro (hx | rfl)
        · exact ⟨hx.1, Or.inl hx.2⟩
        · exact ⟨hmem, Or.inr rfl⟩
      · rintro ⟨hx, h0 | rfl⟩
        · exact Or.inl ⟨hx, h0⟩
        · exact Or.inr rfl
    · change (s.objList ++ [n]).Nodup
      refine List.nodup_append.mpr ⟨h.nodup, List.nodup_singleton n, ?_⟩
      rintro x hx y hy rfl
      rw [List.mem_singleton.mp hy] at hx
      exact hmark ((h.objList n).mp hx).2
    · change (if s.elNext = some n then nextOf s.tmpObjList n else s.elNext) =
        (L₂.filter fun x => Function.update s.mark n 0 x ≠ 0).head?
      rw [filter_update]
      split
      · rename_i hnext
        rw [h.elNext] at hnext
        rw [h.tmpObjList, List.filter_append]
        refine nextOf_filter ?_ hnext
        rw [← List.filter_append]
        exact hnodup.filter _
      · rename_i hnext
        rw [h.elNext] at hnext ⊢
        exact (head?_filter_ne hnext).symm
  · rename_i hobject
    have hmem : n ∉ L₁ ++ L₂ := fun hm => hobject ((hobj n).mp hm)
    have hkeep : ∀ {L : List ν}, (∀ x ∈ L, x ∈ L₁ ++ L₂) →
        (L.filter fun x => s.mark x ≠ 0) = L.filter fun x => Function.update s.mark n 0 x ≠ 0 := by
      intro L hL
      refine List.filter_congr fun x hx => ?_
      have hxn : x ≠ n := fun heq => hmem (heq ▸ hL x hx)
      rw [Function.update_of_ne hxn]
    refine hmarks rfl rfl ?_ ?_ h.nodup ?_
    · exact h.tmpObjList.trans (hkeep fun _ hx => hx)
    · intro x
      rw [h.objList]
      refine and_congr_right fun hx => ?_
      have hxn : x ≠ n := fun heq => hmem (heq ▸ hx)
      rw [hzero]
      simp [hxn]
    · exact h.elNext.trans (congrArg List.head? (hkeep fun _ hx => List.mem_append_right _ hx))

/-- **A node looks like garbage**: it is marked, and its children are looked at. -/
theorem ScanInv.suspect (h : ScanInv mem s₀ ext L₁ L₂ inc scan pend s) (hmark : s.mark n = 1)
    (hzero : s.refCount n = 0) (hinc : ∀ m, inc m ↔ inc' m) (hscan : ∀ m, scan m → scan' m ∨ m = n)
    (hscan' : ∀ m, scan' m → scan m ∨ m ∈ heapChildren mem n)
    (hchild : ∀ m ∈ heapChildren mem n, scan' m) :
    ScanInv mem s₀ ext L₁ L₂ inc' scan' pend { s with mark := Function.update s.mark n 2 } := by
  have hV : Visited mem s₀ n := h.visited n (by rw [hmark]; simp)
  have hsame : ∀ x, Function.update s.mark n 2 x = 0 ↔ s.mark x = 0 := by
    intro x
    by_cases hx : x = n
    · simp [hx, hmark]
    · simp [Function.update_of_ne hx]
  have hnotone : ∀ {x}, s.mark x ≠ 1 ∨ scan x → Function.update s.mark n 2 x ≠ 1 ∨ scan' x := by
    intro x hx
    by_cases hxn : x = n
    · subst hxn
      simp
    · rw [Function.update_of_ne hxn]
      exact hx.imp_right fun hs => (hscan x hs).resolve_right hxn
  have hfilter : ∀ L : List ν, (L.filter fun x => Function.update s.mark n 2 x ≠ 0) =
      L.filter fun x => s.mark x ≠ 0 := by
    intro L
    refine List.filter_congr fun x _ => ?_
    simp only [ne_eq, hsame]
  refine ⟨fun m => ?_, h.ext_le, fun x => ?_, fun x hx => ?_, fun x hx h0 => ?_, fun x hx => ?_,
    fun x hx h0 m hm => ?_, fun x hx m hm => ?_, fun x hx => hnotone (h.before x hx), ?_, fun x => ?_,
    h.nodup, ?_, fun m hm => h.inc_live m ((hinc m).mpr hm), fun m hm => ?_⟩
  · rw [edges_congr fun x => and_congr_right fun _ => hsame x]
    exact h.count m
  · by_cases hx : x = n
    · simp [hx]
    · simpa [Function.update_of_ne hx] using h.marks x
  · by_cases hxn : x = n
    · rwa [hxn]
    · exact h.visited x fun h0 => hx ((hsame x).mpr h0)
  · exact h.live x hx ((hsame x).mp h0)
  · by_cases hxn : x = n
    · rw [hxn]
      have hle := h.ext_le n
      omega
    · exact h.dead x (by simpa [Function.update_of_ne hxn] using hx)
  · rw [hsame, ← hinc]
    exact h.kept x hx ((hsame x).mp h0) m hm
  · by_cases hxn : x = n
    · rw [hxn] at hm
      exact Or.inr (hchild m hm)
    · exact hnotone (h.candidate x (by simpa [Function.update_of_ne hxn] using hx) m hm)
  · rw [hfilter]
    exact h.tmpObjList
  · rw [hsame]
    exact h.objList x
  · rw [hfilter]
    exact h.elNext
  · rcases hscan' m hm with hs | hs
    · exact h.scan_visited m hs
    · exact hV.child hs

/-! ## One round of the loop -/

/-- The invariant with the calls that are pending. -/
structure ScanCalls (mem : ν → GCNode ν) (s₀ : GCState ν) (ext : ν → ℕ) (L₁ L₂ : List ν)
    (calls : List (GCCall ν)) (s : GCState ν) : Prop where
  kinds : ∀ c ∈ calls, ∃ m, c = .scanIncrefChild m ∨ c = .scanObj m
  inv : ScanInv mem s₀ ext L₁ L₂ (fun m => .scanIncrefChild m ∈ calls) (fun m => .scanObj m ∈ calls)
    (fun m => calls.count (.scanIncrefChild m)) s

/-- How often a node is still to be entered: once as garbage, and once when it is kept. -/
def scanWeight (s : GCState ν) (n : ν) : ℕ := if s.mark n = 1 then 2 else if s.mark n = 2 then 1 else 0

/-- What there is left to do. -/
def scanWork (mem : ν → GCNode ν) (calls : List (GCCall ν)) (s : GCState ν) : ℕ :=
  calls.length + work (heapChildren mem) (scanWeight s)

omit [Fintype ν] in
theorem scanWeight_update {k : ℕ} {t : GCState ν} (ht : t.mark = Function.update s.mark n k) :
    scanWeight t = Function.update (scanWeight s) n (if k = 1 then 2 else if k = 2 then 1 else 0) := by
  funext x
  rw [scanWeight, ht]
  by_cases hx : x = n
  · simp [hx]
  · simp [Function.update_of_ne hx, scanWeight]

/-- Calls for the children are paid for. -/
theorem scanWork_lt {k : ℕ} {t : GCState ν} {calls : List (GCCall ν)} {c : GCCall ν}
    (call : ν → GCCall ν) (ht : t.mark = Function.update s.mark n k)
    (hk : (if k = 1 then 2 else if k = 2 then 1 else 0) < scanWeight s n) :
    scanWork mem ((heapChildren mem n).map call ++ calls) t < scanWork mem (c :: calls) s := by
  have hwork := work_enter (heapChildren mem) hk
  rw [scanWork, scanWork, scanWeight_update ht, List.length_append, List.length_map,
    List.length_cons]
  omega

omit [Fintype ν] in
theorem mark_gcScanIncref (n : ν) (s : GCState ν) :
    (gcScanIncref mem n s).2.mark = Function.update s.mark n 0 := by
  rw [gcScanIncref]
  dsimp only
  split
  · rfl
  · rfl

omit [Fintype ν] in
theorem count_map_scanIncrefChild (l : List ν) (m : ν) :
    (l.map GCCall.scanIncrefChild).count (.scanIncrefChild m) = l.count m :=
  List.count_map_of_injective l _ (fun _ _ h => GCCall.scanIncrefChild.inj h) m

variable {calls : List (GCCall ν)} {c : GCCall ν}

/-- A call that keeps the node `n`; `pend` are the references that are due without it. -/
theorem ScanCalls.keep (hcalls : ∀ c ∈ calls, ∃ m, c = .scanIncrefChild m ∨ c = .scanObj m)
    (h : ScanInv mem s₀ ext L₁ L₂ (fun m => .scanIncrefChild m ∈ c :: calls)
      (fun m => .scanObj m ∈ c :: calls) (fun m => calls.count (.scanIncrefChild m)) s)
    (hc : c = .scanIncrefChild n ∨ c = .scanObj n) (hnodup : (L₁ ++ L₂).Nodup)
    (hobj : ∀ x, x ∈ L₁ ++ L₂ ↔ (mem x).isObject = true) (hmark : s.mark n ≠ 0)
    (hlive : Live mem s₀ ext n) :
    ScanCalls mem s₀ ext L₁ L₂ ((gcScanIncref mem n s).1 ++ calls) (gcScanIncref mem n s).2 := by
  have hnew : (gcScanIncref mem n s).1 = (heapChildren mem n).map .scanIncrefChild := rfl
  have hsame : ∀ {d : GCCall ν} {m : ν}, d = .scanIncrefChild m ∨ d = .scanObj m → d ∈ c :: calls →
      d ∈ calls ∨ m = n := by
    intro d m hd hmem
    rcases List.mem_cons.mp hmem with rfl | hmem
    · rcases hd with rfl | rfl <;> rcases hc with hc | hc <;> simp at hc <;> exact Or.inr hc
    · exact Or.inl hmem
  rw [hnew]
  refine ⟨fun d hd => ?_, h.keep hnodup hobj hmark hlive (fun m hm => ?_) (fun m hm => ?_)
    (fun m hm => ?_) (fun m hm => ?_) (fun m hm => ?_) fun m => ?_⟩
  · rcases List.mem_append.mp hd with hd | hd
    · obtain ⟨m, -, rfl⟩ := List.mem_map.mp hd
      exact ⟨m, Or.inl rfl⟩
    · exact hcalls d hd
  · exact (hsame (Or.inl rfl) hm).imp_left (List.mem_append_right _)
  · rcases List.mem_append.mp hm with hm | hm
    · obtain ⟨x, hx, heq⟩ := List.mem_map.mp hm
      rw [← GCCall.scanIncrefChild.inj heq]
      exact Or.inr hx
    · exact Or.inl (List.mem_cons_of_mem _ hm)
  · exact List.mem_append_left _ (List.mem_map_of_mem hm)
  · exact (hsame (Or.inr rfl) hm).imp_left (List.mem_append_right _)
  · rcases List.mem_append.mp hm with hm | hm
    · obtain ⟨x, hx, heq⟩ := List.mem_map.mp hm
      exact absurd heq (by simp)
    · exact List.mem_cons_of_mem _ hm
  · rw [List.count_append, count_map_scanIncrefChild, Nat.add_comm]

/-- A node with references is live: they come from outside, or from a node that is kept. -/
theorem ScanInv.live_of_refCount (h : ScanInv mem s₀ ext L₁ L₂ inc scan pend s)
    (hmark : s.mark n ≠ 0) (hpos : 0 < s.refCount n) : Live mem s₀ ext n := by
  by_cases hext : ext n = 0
  · have hcount := h.count n
    have hedge : 0 < edges (heapChildren mem) (fun x => Visited mem s₀ x ∧ s.mark x = 0) n := by
      omega
    obtain ⟨x, ⟨hx, h0⟩, hmem⟩ := exists_of_edges_pos hedge
    exact (h.live x hx h0).child hmem
  · exact ⟨n, h.visited n hmark, hext, Relation.ReflTransGen.refl⟩

/-- **One call of the first loop.** -/
theorem ScanCalls.step (hnodup : (L₁ ++ L₂).Nodup)
    (hobj : ∀ x, x ∈ L₁ ++ L₂ ↔ (mem x).isObject = true) (c : GCCall ν) (calls : List (GCCall ν))
    (s : GCState ν) (h : ScanCalls mem s₀ ext L₁ L₂ (c :: calls) s) :
    ∃ new s', gcExec mem c s = .ok (new, s') ∧ ScanCalls mem s₀ ext L₁ L₂ (new ++ calls) s' ∧
      scanWork mem (new ++ calls) s' < scanWork mem (c :: calls) s := by
  have hcalls : ∀ d ∈ calls, ∃ m, d = .scanIncrefChild m ∨ d = .scanObj m :=
    fun d hd => h.kinds d (List.mem_cons_of_mem _ hd)
  have hpop : ∀ {t : GCState ν}, scanWeight t = scanWeight s →
      scanWork mem ([] ++ calls) t < scanWork mem (c :: calls) s := by
    intro t ht
    rw [scanWork, scanWork, ht, List.nil_append, List.length_cons]
    omega
  obtain ⟨n, rfl | rfl⟩ := h.kinds c List.mem_cons_self
  · -- a reference is given back
    have hinv : ScanInv mem s₀ ext L₁ L₂ (fun m => .scanIncrefChild m ∈ .scanIncrefChild n :: calls)
        (fun m => .scanObj m ∈ .scanIncrefChild n :: calls)
        (fun m => calls.count (.scanIncrefChild m)) (s.setRefCount n (s.refCount n + 1)) :=
      h.inv.incref List.count_cons_self fun m hm => List.count_cons_of_ne (by simpa using Ne.symm hm)
    have hlive := (h.inv.inc_live n List.mem_cons_self).2
    by_cases hmark : s.mark n = 0
    · refine ⟨[], _, if_neg (not_not.mpr hmark), ⟨hcalls, ?_⟩, hpop rfl⟩
      refine hinv.skip (fun m hm => ?_) (fun m hm => List.mem_cons_of_mem _ hm) (fun m hm => ?_)
        fun m hm => List.mem_cons_of_mem _ hm
      · rcases List.mem_cons.mp hm with heq | hm
        · rw [GCCall.scanIncrefChild.inj heq]
          exact Or.inr hmark
        · exact Or.inl hm
      · exact Or.inl ((List.mem_cons.mp hm).resolve_left (by simp))
    · refine ⟨_, _, if_pos hmark, ScanCalls.keep hcalls hinv (Or.inl rfl) hnodup hobj hmark hlive, ?_⟩
      refine scanWork_lt _ (mark_gcScanIncref n _) ?_
      rcases h.inv.marks n with h0 | h0 | h0
      · exact absurd h0 hmark
      · simp [scanWeight, h0]
      · simp [scanWeight, h0]
  · -- a node is looked at
    have hcount : ∀ m, (GCCall.scanObj n :: calls).count (.scanIncrefChild m) =
        calls.count (.scanIncrefChild m) := fun m => List.count_cons_of_ne (by simp)
    have hinv := h.inv
    simp only [hcount] at hinv
    by_cases hmark : s.mark n = 1
    · have hne : s.mark n ≠ 0 := by rw [hmark]; simp
      by_cases hpos : 0 < s.refCount n
      · refine ⟨_, _, (if_pos hmark).trans (if_pos hpos), ScanCalls.keep hcalls hinv (Or.inr rfl)
          hnodup hobj hne (hinv.live_of_refCount hne hpos), ?_⟩
        refine scanWork_lt _ (mark_gcScanIncref n _) ?_
        simp [scanWeight, hmark]
      · refine ⟨_, _, (if_pos hmark).trans (if_neg hpos), ⟨fun d hd => ?_, ?_⟩, ?_⟩
        · rcases List.mem_append.mp hd with hd | hd
          · obtain ⟨m, -, rfl⟩ := List.mem_map.mp hd
            exact ⟨m, Or.inr rfl⟩
          · exact hcalls d hd
        · have hnone : ∀ m, ((heapChildren mem n).map GCCall.scanObj).count (.scanIncrefChild m) = 0 :=
            fun m => List.count_eq_zero.mpr (by simp)
          simp only [List.count_append, hnone, Nat.zero_add]
          refine hinv.suspect hmark (by omega) (fun m => ?_) (fun m hm => ?_) (fun m hm => ?_)
            fun m hm => List.mem_append_left _ (List.mem_map_of_mem hm)
          · simp
          · rcases List.mem_cons.mp hm with heq | hm
            · exact Or.inr (GCCall.scanObj.inj heq)
            · exact Or.inl (List.mem_append_right _ hm)
          · rcases List.mem_append.mp hm with hm | hm
            · obtain ⟨x, hx, heq⟩ := List.mem_map.mp hm
              rw [← GCCall.scanObj.inj heq]
              exact Or.inr hx
            · exact Or.inl (List.mem_cons_of_mem _ hm)
        · refine scanWork_lt _ rfl ?_
          simp [scanWeight, hmark]
    · refine ⟨[], s, if_neg hmark, ⟨hcalls, ?_⟩, hpop rfl⟩
      refine hinv.skip (fun m hm => ?_) (fun m hm => List.mem_cons_of_mem _ hm) (fun m hm => ?_)
        fun m hm => List.mem_cons_of_mem _ hm
      · exact Or.inl ((List.mem_cons.mp hm).resolve_left (by simp))
      · rcases List.mem_cons.mp hm with heq | hm
        · rw [GCCall.scanObj.inj heq]
          exact Or.inr hmark
        · exact Or.inl hm

/-! ## The first loop -/

/-- Enough for every round. -/
def scanBound (mem : ν → GCNode ν) : ℕ := work (heapChildren mem) (fun _ => 2) + 1

omit [DecidableEq ν] in
theorem scanWork_le (n : ν) (s : GCState ν) : scanWork mem [.scanObj n] s ≤ scanBound mem := by
  have hle : work (heapChildren mem) (scanWeight s) ≤ work (heapChildren mem) (fun _ => 2) := by
    apply work_mono
    intro x
    unfold scanWeight
    split
    · simp
    · split <;> simp
  rw [scanWork, scanBound, List.length_singleton]
  omega

/-- What is true between two rounds, when `el` is the element to look at next. -/
abbrev ScanRest (mem : ν → GCNode ν) (s₀ : GCState ν) (ext : ν → ℕ) (L₁ L₂ : List ν)
    (el : Option ν) (s : GCState ν) : Prop :=
  ScanCalls mem s₀ ext L₁ L₂ [] { s with elNext := el }

/-- At the end of the list everything has been looked at. -/
theorem ScanRest.finish (h : ScanRest mem s₀ ext L₁ L₂ none s) :
    ScanRest mem s₀ ext (L₁ ++ L₂) [] none s := by
  have hnone : ∀ x ∈ L₂, s.mark x = 0 := by
    intro x hx
    have hnext := h.inv.elNext.symm
    rw [List.head?_eq_none_iff, List.filter_eq_nil_iff] at hnext
    simpa using hnext x hx
  refine ⟨h.kinds, { h.inv with before := fun x hx => ?_, tmpObjList := ?_, objList := ?_, elNext := rfl }⟩
  · rcases List.mem_append.mp hx with hx | hx
    · exact h.inv.before x hx
    · left
      simp [hnone x hx]
  · rw [List.append_nil]
    exact h.inv.tmpObjList
  · rw [List.append_nil]
    exact h.inv.objList

/-- The next element is taken: what stands between was kept in the meantime. -/
theorem ScanRest.next {p : ν} (h : ScanRest mem s₀ ext L₁ L₂ (some p) s)
    (hnodup : (L₁ ++ L₂).Nodup) : ∃ A B, L₂ = A ++ p :: B ∧
      ScanCalls mem s₀ ext (L₁ ++ A ++ [p]) B [.scanObj p]
        { s with elNext := nextOf s.tmpObjList p } := by
  have hnext := h.inv.elNext.symm
  rw [List.head?_filter, List.find?_eq_some_iff_append] at hnext
  obtain ⟨hp, A, B, rfl, hA⟩ := hnext
  have hmark : s.mark p ≠ 0 := by simpa using hp
  have hA : ∀ x ∈ A, s.mark x = 0 := by
    intro x hx
    simpa using hA x hx
  have hlist : L₁ ++ A ++ [p] ++ B = L₁ ++ (A ++ p :: B) := by simp
  have htmp : s.tmpObjList = L₁.filter (fun x => s.mark x ≠ 0) ++
      p :: B.filter fun x => s.mark x ≠ 0 := by
    have hAnil : A.filter (fun x => s.mark x ≠ 0) = [] := by
      rw [List.filter_eq_nil_iff]
      intro x hx
      simp [hA x hx]
    have heq := h.inv.tmpObjList
    simp only [List.filter_append, hAnil, List.nil_append, List.filter_cons, hp, if_true] at heq
    exact heq
  have hnot : p ∉ L₁.filter fun x => s.mark x ≠ 0 := by
    intro hmem
    have hdisj := (List.nodup_append.mp hnodup).2.2
    exact hdisj p (List.mem_of_mem_filter hmem) p (by simp) rfl
  refine ⟨A, B, rfl, ⟨?_, ?_⟩⟩
  · intro c hc
    exact ⟨p, Or.inr (List.mem_singleton.mp hc)⟩
  · refine { h.inv with
      kept := fun x hx h0 m hm => (h.inv.kept x hx h0 m hm).imp_right fun hi => absurd hi (by simp)
      candidate := fun x hx m hm =>
        (h.inv.candidate x hx m hm).imp_right fun hi => absurd hi (by simp)
      before := fun x hx => ?_, tmpObjList := ?_, objList := ?_, elNext := ?_
      inc_live := fun m hm => absurd hm (by simp), scan_visited := fun m hm => ?_ }
    · rcases List.mem_append.mp hx with hx | hx
      · rcases List.mem_append.mp hx with hx | hx
        · exact (h.inv.before x hx).imp_right fun hi => absurd hi (by simp)
        · left
          simp [hA x hx]
      · right
        rw [List.mem_singleton.mp hx]
        exact List.mem_singleton_self _
    · rw [hlist]
      exact h.inv.tmpObjList
    · rw [hlist]
      exact h.inv.objList
    · change nextOf s.tmpObjList p = _
      rw [htmp, nextOf_append hnot]
    · obtain rfl : m = p := GCCall.scanObj.inj (List.mem_singleton.mp hm)
      exact h.inv.visited m hmark

/-- **The first loop** comes to an end, with everything looked at. -/
theorem gcScanLoop_spec {fuel : ℕ} (hfuel : scanBound mem ≤ fuel) {rounds : ℕ} :
    ∀ {L₁ L₂ : List ν} {el : Option ν} {s : GCState ν}, (L₁ ++ L₂).Nodup →
      (∀ x, x ∈ L₁ ++ L₂ ↔ (mem x).isObject = true) → L₂.length ≤ rounds →
      ScanRest mem s₀ ext L₁ L₂ el s → ∃ s', gcScanLoop mem fuel rounds el s = .ok s' ∧
        ScanRest mem s₀ ext (L₁ ++ L₂) [] none s' := by
  induction rounds with
  | zero =>
      intro L₁ L₂ el s _ _ hlen h
      obtain rfl : L₂ = [] := List.length_eq_zero_iff.mp (by omega)
      obtain rfl : el = none := h.inv.elNext
      exact ⟨s, by unfold gcScanLoop; rfl, h.finish⟩
  | succ rounds ih =>
      intro L₁ L₂ el s hnodup hobj hlen h
      cases el with
      | none => exact ⟨s, by unfold gcScanLoop; rfl, h.finish⟩
      | some p =>
          obtain ⟨A, B, rfl, hcalls⟩ := h.next hnodup
          have hlist : L₁ ++ (A ++ p :: B) = L₁ ++ A ++ [p] ++ B := by simp
          rw [hlist] at hnodup hobj ⊢
          obtain ⟨t, hrun, ht⟩ := run_total (ScanCalls.step hnodup hobj) hcalls
            ((scanWork_le p _).trans hfuel)
          obtain ⟨s', hloop, hs'⟩ := @ih _ _ t.elNext t hnodup hobj
            (by simp at hlen; omega) ht
          refine ⟨s', ?_, hs'⟩
          unfold gcScanLoop
          rw [hrun]
          exact hloop

/-- After the first loop the mark tells what is live. -/
theorem ScanRest.live_iff {L : List ν} {n : ν} (h : ScanRest mem s₀ ext L [] none s)
    (hL : ∀ x ∈ s₀.objList, x ∈ L) (hn : Visited mem s₀ n) :
    (s.mark n = 0 ↔ Live mem s₀ ext n) ∧ (s.mark n = 2 ↔ ¬ Live mem s₀ ext n) := by
  have hone : ∀ x, Visited mem s₀ x → s.mark x ≠ 1 := by
    rintro x ⟨p, hp, hreach⟩
    refine (Reach.mem (P := fun x => Visited mem s₀ x ∧ s.mark x ≠ 1) hreach ?_ ?_).2
    · rintro x ⟨hx, h1⟩ y hy
      refine ⟨hx.child hy, ?_⟩
      rcases h.inv.marks x with h0 | h0 | h0
      · have hkept := (h.inv.kept x hx h0 y hy).resolve_right (by simp)
        simp [show s.mark y = 0 from hkept]
      · exact absurd h0 h1
      · exact (h.inv.candidate x h0 y hy).resolve_right (by simp)
    · exact ⟨⟨p, hp, Relation.ReflTransGen.refl⟩,
        (h.inv.before p (hL p hp)).resolve_right (by simp)⟩
  have hcases : ∀ x, Visited mem s₀ x → s.mark x = 0 ∨ s.mark x = 2 := fun x hx =>
    (h.inv.marks x).imp_right fun h12 => h12.resolve_left (hone x hx)
  have hlive : ∀ x, Live mem s₀ ext x → s.mark x = 0 := by
    rintro x ⟨r, hr, hext, hreach⟩
    refine (Reach.mem (P := fun x => Visited mem s₀ x ∧ s.mark x = 0) hreach ?_ ⟨hr, ?_⟩).2
    · rintro x ⟨hx, h0⟩ y hy
      exact ⟨hx.child hy, (h.inv.kept x hx h0 y hy).resolve_right (by simp)⟩
    · exact (hcases r hr).resolve_right fun h2 => hext (h.inv.dead r h2)
  refine ⟨⟨h.inv.live n hn, hlive n⟩, fun h2 hl => ?_, fun hl => ?_⟩
  · rw [hlive n hl] at h2
    simp at h2
  · exact (hcases n hn).resolve_left fun h0 => hl (h.inv.live n hn h0)

/-! ## The second loop -/

/-- The second loop of `gc_scan`. -/
def restorePass (ν : Type) : Pass ν where
  fresh := 2
  done := 3
  enter := .scanObj2
  child := .scanIncrefChild2
  step := 1
  fresh_ne := by simp
  enter_ne _ _ := by simp
  enter_inj _ _ h := GCCall.scanObj2.inj h
  child_inj _ _ h := GCCall.scanIncrefChild2.inj h

/-- What `gc_scan` leaves when it began with the references from outside in the counters. -/
structure Separated (mem : ν → GCNode ν) (s₀ : GCState ν) (ext : ν → ℕ) (s : GCState ν) : Prop where
  refCount : ∀ m, s.refCount m = ext m + edges (heapChildren mem) (Visited mem s₀) m
  garbage : ∀ n, s.mark n = 3 ↔ Visited mem s₀ n ∧ ¬ Live mem s₀ ext n
  kept : ∀ n, s.mark n = 0 ↔ ¬ (Visited mem s₀ n ∧ ¬ Live mem s₀ ext n)
  tmpObjList : ∀ n, n ∈ s.tmpObjList ↔ n ∈ s₀.objList ∧ ¬ Live mem s₀ ext n
  tmp_nodup : s.tmpObjList.Nodup
  objList : ∀ n, n ∈ s.objList ↔ n ∈ s₀.objList ∧ Live mem s₀ ext n
  nodup : s.objList.Nodup

omit [DecidableEq ν] in
theorem Pass.work_le (F : Pass ν) (calls : List (GCCall ν)) (s : GCState ν) :
    F.work mem calls s ≤ calls.length + scanBound mem := by
  have hle : Search.work (heapChildren mem) (F.weight s) ≤
      Search.work (heapChildren mem) (fun _ => 2) := by
    apply work_mono
    intro x
    unfold Pass.weight
    split <;> simp
  rw [Pass.work, scanBound]
  omega

/-- **The second loop** gives the garbage its references back. -/
theorem ScanRest.restore (h : ScanRest mem s₀ ext s₀.objList [] none s) (hnodup : s₀.objList.Nodup)
    {fuel : ℕ} (hfuel : s.tmpObjList.length + scanBound mem ≤ fuel) :
    ∃ t, run (gcExec mem) fuel (s.tmpObjList.map .scanObj2) s = .ok t ∧
      Separated mem s₀ ext t := by
  have hiff := fun n => h.live_iff (fun _ hx => hx) (n := n)
  have hzero : ∀ n, ¬ Visited mem s₀ n → s.mark n = 0 := fun n hn => by
    by_contra h0
    exact hn (h.inv.visited n h0)
  have htwo : ∀ n, s.mark n = 2 ↔ Visited mem s₀ n ∧ ¬ Live mem s₀ ext n := by
    intro n
    by_cases hn : Visited mem s₀ n
    · simp [hn, (hiff n hn).2]
    · simp [hn, hzero n hn]
  have hnot3 : ∀ n, s.mark n ≠ (restorePass ν).done := by
    intro n
    simp only [restorePass]
    rcases h.inv.marks n with h0 | h0 | h0 <;> simp [show s.mark n = _ from h0]
  have hwork : (restorePass ν).work mem (s.tmpObjList.map .scanObj2) s ≤ fuel := by
    refine (Pass.work_le _ _ _).trans ?_
    rwa [List.length_map]
  obtain ⟨t, hrun, hinv⟩ := @PassInv.run ν _ _ mem (restorePass ν) s.tmpObjList s fuel hnot3
    (fun n s => rfl) (fun n calls s _ => ⟨s.refCount n + 1, rfl, rfl⟩) hwork
  have htmp : s.tmpObjList = s₀.objList.filter fun n => s.mark n ≠ 0 := by
    simpa using h.inv.tmpObjList
  have hmem : ∀ n, n ∈ s.tmpObjList ↔ n ∈ s₀.objList ∧ ¬ Live mem s₀ ext n := by
    intro n
    rw [htmp, List.mem_filter]
    refine and_congr_right fun hn => ?_
    have hV : Visited mem s₀ n := ⟨n, hn, Relation.ReflTransGen.refl⟩
    simp [← (hiff n hV).1]
  -- a node is entered when it is garbage
  have hmarks : ∀ n, t.mark n = s.mark n ∨ s.mark n = 2 ∧ t.mark n = 3 := hinv.marks
  have hdone : ∀ n, t.mark n = 3 ↔ s.mark n = 2 := by
    refine fun n => ⟨fun h3 => ?_, fun h2 => ?_⟩
    · rcases hmarks n with heq | heq
      · exact absurd (heq.symm.trans h3) (hnot3 n)
      · exact heq.1
    · obtain ⟨⟨p, hp, hreach⟩, hdead⟩ := (htwo n).mp h2
      have hstep : ∀ x, t.mark x ≠ 2 → s.mark x = 2 → t.mark x = 3 := fun x hx hs =>
        ((hmarks x).resolve_left fun heq => hx (heq.trans hs)).2
      have hpath : ∀ x, Visited mem s₀ x → ¬ Live mem s₀ ext x → s.mark x = 2 :=
        fun x hx hl => (htwo x).mpr ⟨hx, hl⟩
      have hVp : Visited mem s₀ p := ⟨p, hp, Relation.ReflTransGen.refl⟩
      refine (Reach.mem (P := fun x => Visited mem s₀ x ∧ (¬ Live mem s₀ ext x → t.mark x = 3))
        hreach ?_ ⟨hVp, fun hl => ?_⟩).2 hdead
      · rintro x ⟨hx, h3⟩ y hy
        refine ⟨hx.child hy, fun hl => ?_⟩
        have hx3 := h3 fun hlx => hl (hlx.child hy)
        refine hstep y ?_ (hpath y (hx.child hy) hl)
        simpa [restorePass] using hinv.closed x hx3 y hy
      · refine hstep p ?_ (hpath p hVp hl)
        simpa [restorePass] using hinv.started p ((hmem p).mpr ⟨hp, hl⟩)
  have hgarbage : ∀ n, t.mark n = 3 ↔ Visited mem s₀ n ∧ ¬ Live mem s₀ ext n :=
    fun n => (hdone n).trans (htwo n)
  refine ⟨t, hrun, fun m => ?_, hgarbage, fun n => ?_, fun n => ?_, ?_, fun n => ?_, ?_⟩
  · have hcount : t.refCount m = s.refCount m +
        edges (heapChildren mem) (fun n => t.mark n = 3) m := by
      have := hinv.count m
      simp only [restorePass, List.count_nil] at this
      push_cast at this
      omega
    have hfirst : s.refCount m =
        ext m + edges (heapChildren mem) (fun n => Visited mem s₀ n ∧ s.mark n = 0) m := by
      simpa using h.inv.count m
    rw [hcount, hfirst, Nat.add_assoc, edges_add]
    · congr 1
      apply edges_congr
      intro x
      rw [hdone]
      by_cases hx : Visited mem s₀ x
      · simp only [hx, true_and, iff_true]
        rw [(hiff x hx).1, (hiff x hx).2]
        exact em _
      · simp [hx, htwo]
    · rintro x ⟨-, h0⟩ h3
      rw [hdone, h0] at h3
      simp at h3
  · rw [← htwo]
    constructor
    · intro h0 h2
      have h3 := (hdone n).mpr h2
      rw [h0] at h3
      simp at h3
    · intro h2
      have hsame := (hmarks n).resolve_right fun h => h2 h.1
      rw [hsame]
      by_contra h0
      have hV := h.inv.visited n h0
      exact h2 ((hiff n hV).2.mpr fun hl => h0 ((hiff n hV).1.mpr hl))
  · rw [hinv.tmpObjList]
    exact hmem n
  · rw [hinv.tmpObjList, htmp]
    exact hnodup.filter _
  · rw [hinv.objList]
    refine (h.inv.objList n).trans ?_
    rw [List.append_nil]
    refine and_congr_right fun hn => ?_
    exact (hiff n ⟨n, hn, Relation.ReflTransGen.refl⟩).1
  · rw [hinv.objList]
    exact h.inv.nodup

/-! ## The collector -/

/-- The references to a node that no node holds. -/
noncomputable def outsideRefs (mem : ν → GCNode ν) (s : GCState ν) (m : ν) : ℕ :=
  s.refCount m - edges (heapChildren mem) (Visited mem s) m

/-- A heap as the collector finds it: the counters cover the references, no node is marked, and
`obj_list` has every object once. -/
structure HeapValid (mem : ν → GCNode ν) (s : GCState ν) : Prop where
  covers : Covers mem s
  unmarked : ∀ n, s.mark n = 0
  nodup : s.objList.Nodup
  objects : ∀ n, n ∈ s.objList ↔ (mem n).isObject = true

/-- Enough calls for each of the passes. -/
def gcBound (mem : ν → GCNode ν) (s : GCState ν) : ℕ := s.objList.length + scanBound mem

/-- **The garbage is separated**, and no assertion fails on the way. -/
theorem gcSeparate_spec (h : HeapValid mem s₀) {fuel : ℕ} (hfuel : gcBound mem s₀ ≤ fuel) :
    ∃ s, gcSeparate mem fuel s₀ = .ok s ∧ Separated mem s₀ (outsideRefs mem s₀) s := by
  unfold gcBound at hfuel
  have hwork : (decrefPass ν).work mem (s₀.objList.map .decrefMark) s₀ ≤ fuel := by
    refine (Pass.work_le _ _ _).trans ?_
    rwa [List.length_map]
  obtain ⟨s₁, hdecref, hcount, hmarks, hvisited, hlist⟩ := gcDecref_spec h.covers h.unmarked hwork
  have hout : ∀ m, s₁.refCount m = outsideRefs mem s₀ m := by
    intro m
    have := hcount m
    unfold outsideRefs
    omega
  have hne : ∀ n, s₁.mark n ≠ 0 ↔ Visited mem s₀ n := by
    intro n
    rw [← hvisited]
    rcases hmarks n with h0 | h0 <;> simp [h0]
  have hfilter : s₀.objList.filter (fun n => s₁.mark n ≠ 0) = s₀.objList := by
    rw [List.filter_eq_self]
    intro n hn
    simpa using (hne n).mpr ⟨n, hn, Relation.ReflTransGen.refl⟩
  -- nothing has been looked at, and nothing is kept
  have hstart : ScanRest mem s₀ (outsideRefs mem s₀) [] s₀.objList s₀.objList.head?
      { s₁ with objList := [], tmpObjList := s₀.objList } := by
    refine ⟨by simp, ⟨fun m => ?_, fun m => (hout m).ge, fun n => (hmarks n).imp_right Or.inl,
      fun n hn => (hne n).mp hn, fun n hn h0 => absurd h0 ((hne n).mpr hn), fun n h2 => ?_,
      fun n hn h0 => absurd h0 ((hne n).mpr hn), fun n h2 => ?_, by simp, hfilter.symm, fun n => ?_,
      List.nodup_nil, by rw [hfilter], by simp, by simp⟩⟩
    · have hnone : edges (heapChildren mem) (fun n => Visited mem s₀ n ∧ s₁.mark n = 0) m = 0 := by
        apply edges_none
        rintro x ⟨hx, h0⟩
        exact (hne x).mpr hx h0
      simp [hout, hnone]
    · rcases hmarks n with h0 | h0 <;> simp [h0] at h2
    · rcases hmarks n with h0 | h0 <;> simp [h0] at h2
    · simp only [List.nil_append, List.not_mem_nil, false_iff, not_and]
      intro hn
      exact (hne n).mpr ⟨n, hn, Relation.ReflTransGen.refl⟩
  obtain ⟨s₂, hloop, hrest⟩ := gcScanLoop_spec (show scanBound mem ≤ fuel by omega)
    (by simpa using h.nodup) (by simpa using h.objects) le_rfl hstart
  have htmp : s₂.tmpObjList.length ≤ s₀.objList.length := by
    have heq : s₂.tmpObjList = _ := hrest.inv.tmpObjList
    rw [heq]
    simpa using List.length_filter_le _ _
  obtain ⟨s₃, hrun, hsep⟩ := hrest.restore h.nodup (show _ ≤ fuel by omega)
  refine ⟨s₃, ?_, hsep⟩
  unfold gcSeparate gcScan
  rw [hdecref]
  change (gcScanLoop mem fuel s₁.objList.length s₁.objList.head? _ >>= _) = _
  rw [hlist, hloop]
  exact hrun

end Scan

end Engine
end FuzzerJs
