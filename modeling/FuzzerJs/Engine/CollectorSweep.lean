import FuzzerJs.Engine.CollectorScan

/-!
# Freeing the cycles

`gc_free_cycles` frees the objects that `gc_scan` left in `tmp_obj_list`.  Freeing an object
takes back the references that it holds; an object whose counter becomes zero on the way is
left to the loop, anything else is freed at once.

The blocks of memory are given back exactly for the garbage, each of them once, and the counters
of the rest are those of a heap without the garbage (`gcFreeCycles_spec`).
-/

namespace FuzzerJs
namespace Engine

open Search

/-! ## The sweep -/

/-- A call that is pending. -/
inductive SweepCall (ν : Type) where
  /-- The body of the loop: the assertion and `free_object2`. -/
  | freeObject2 (n : ν)
  /-- `JS_FreeValueRT`, `js_free_shape`, `free_var_ref` or `js_async_function_free`. -/
  | freeValue (n : ν)
  /-- The end of the function that frees the node. -/
  | release (n : ν)
  deriving DecidableEq

/-- What the sweep changes. -/
structure SweepState (ν : Type) where
  refCount : ν → ℕ
  freeMark : ν → Bool
  freeObjList : List ν
  /-- What `js_free_rt` was called for. -/
  freed : List ν

/-- The references that a plain node gives up, in this order. -/
def GCNode.freeChildren {ν : Type} : GCNode ν → List ν
  | .object sh props gcMark _ => props.flatMap PropertySlot.children ++ sh :: gcMark
  | .functionBytecode cpool => (GCNode.functionBytecode cpool).markChildren
  | .varRef detached v => (GCNode.varRef detached v).markChildren
  | .asyncFunction isActive frame resolve reject =>
    (GCNode.asyncFunction isActive frame resolve reject).markChildren
  | .shape proto => (GCNode.shape proto).markChildren

theorem GCNode.freeChildren_perm {ν : Type} (x : GCNode ν) :
    x.freeChildren.Perm x.markChildren := by
  cases x with
  | object sh props gcMark finalizer => exact List.perm_middle
  | functionBytecode cpool => exact List.Perm.refl _
  | varRef detached v => exact List.Perm.refl _
  | asyncFunction isActive frame resolve reject => exact List.Perm.refl _
  | shape proto => exact List.Perm.refl _

section Sweep

variable {ν : Type} [DecidableEq ν] (mem : ν → GCNode ν)

/-- The calls that free a node. -/
def freeCalls (n : ν) : List (SweepCall ν) := (mem n).freeChildren.map .freeValue ++ [.release n]

/-- One reference less. -/
def SweepState.decref (s : SweepState ν) (n : ν) : SweepState ν :=
  { s with refCount := Function.update s.refCount n (s.refCount n - 1) }

/-- A call: the calls that it makes, and what it changes itself.  It fails where an assertion
does, where a counter would become negative, and where a node is freed that is not plain. -/
def sweepExec (mark : ν → ℕ) : SweepCall ν → SweepState ν →
    Except (GCError ν) (List (SweepCall ν) × SweepState ν)
  | .freeObject2 n, s =>
    if mark n ≠ 3 then .error (.mark n)
    else if s.freeMark n then .ok ([], s)
    else if (mem n).isPlain = false then .error (.finalizer n)
    else .ok (freeCalls mem n, { s with freeMark := Function.update s.freeMark n true })
  | .freeValue n, s =>
    if s.refCount n = 0 then .error (.refCount n)
    else
      let s := s.decref n
      -- in the sweep `free_object` does nothing
      if s.refCount n = 0 ∧ (mem n).isObject = false then
        if (mem n).isPlain = false then .error (.finalizer n) else .ok (freeCalls mem n, s)
      else .ok ([], s)
  | .release n, s =>
    if (mem n).isObject then .ok ([], { s with freeObjList := s.freeObjList ++ [n] })
    else .ok ([], { s with freed := s.freed ++ [n] })

/-- `gc_free_cycles`. -/
def gcFreeCycles (fuel : ℕ) (s : GCState ν) : GCResult ν (SweepState ν) := do
  let t ← run (sweepExec mem s.mark) fuel (s.tmpObjList.map .freeObject2)
    { refCount := s.refCount, freeMark := fun _ => false, freeObjList := [], freed := [] }
  return { t with freed := t.freed ++ t.freeObjList, freeObjList := [] }

end Sweep

/-! ## What is true during the sweep -/

section Invariant

variable {ν : Type} [Fintype ν] [DecidableEq ν] {mem : ν → GCNode ν} {s₀ : GCState ν} {ext : ν → ℕ}
  {roots : List ν} {calls : List (SweepCall ν)} {s : SweepState ν} {n m : ν}

/-- The node cannot be reached from outside. -/
def Garbage (mem : ν → GCNode ν) (s₀ : GCState ν) (ext : ν → ℕ) (n : ν) : Prop :=
  Visited mem s₀ n ∧ ¬ Live mem s₀ ext n

omit [Fintype ν] [DecidableEq ν] in
/-- Only garbage refers to garbage. -/
theorem Garbage.pred {x : ν} (h : Garbage mem s₀ ext m) (hx : Visited mem s₀ x)
    (hm : m ∈ heapChildren mem x) : Garbage mem s₀ ext x :=
  ⟨hx, fun hl => h.2 (hl.child hm)⟩

omit [Fintype ν] [DecidableEq ν] in
theorem Garbage.ext_eq (h : Garbage mem s₀ ext m) : ext m = 0 := by
  by_contra hext
  exact h.2 ⟨m, h.1, hext, Relation.ReflTransGen.refl⟩

omit [Fintype ν] [DecidableEq ν] in
/-- A live node has a reference from outside or from another live node. -/
theorem Live.pred (h : Live mem s₀ ext m) (hext : ext m = 0) :
    ∃ x, Visited mem s₀ x ∧ Live mem s₀ ext x ∧ m ∈ heapChildren mem x := by
  obtain ⟨r, hr, hne, hreach⟩ := h
  rcases Relation.ReflTransGen.cases_tail hreach with rfl | ⟨x, hx, hm⟩
  · exact absurd hext hne
  · have hV : Visited mem s₀ x := by
      obtain ⟨p, hp, hpr⟩ := hr
      exact ⟨p, hp, hpr.trans hx⟩
    exact ⟨x, hV, ⟨r, hr, hne, hx⟩, hm⟩

/-- The function that frees the node has been called. -/
def Entered (calls : List (SweepCall ν)) (s : SweepState ν) (n : ν) : Prop :=
  .release n ∈ calls ∨ n ∈ s.freed ++ s.freeObjList

instance : Decidable (Entered calls s n) := inferInstanceAs (Decidable (_ ∨ _))

/-- The part of the invariant that does not say which nodes have been entered. -/
structure SweepCore (mem : ν → GCNode ν) (s₀ : GCState ν) (ext : ν → ℕ)
    (calls : List (SweepCall ν)) (s : SweepState ν) : Prop where
  count : ∀ m, s.refCount m + edges (heapChildren mem) (Entered calls s) m =
    ext m + edges (heapChildren mem) (Visited mem s₀) m + calls.count (.freeValue m)
  garbage : ∀ n, Entered calls s n → Garbage mem s₀ ext n
  pending : ∀ m, .freeValue m ∈ calls → Visited mem s₀ m
  once : ∀ n, calls.count (.release n) + (s.freed ++ s.freeObjList).count n ≤ 1

/-- **What is true during the sweep** of the objects in `roots`: an object has been entered when
its mark is set, anything else that is garbage when its counter is zero. -/
structure SweepInv (mem : ν → GCNode ν) (s₀ : GCState ν) (ext : ν → ℕ) (roots : List ν)
    (calls : List (SweepCall ν)) (s : SweepState ν) : Prop where
  core : SweepCore mem s₀ ext calls s
  objects : ∀ n, (mem n).isObject = true → (s.freeMark n = true ↔ Entered calls s n)
  others : ∀ n, (mem n).isObject = false → Garbage mem s₀ ext n →
    (s.refCount n = 0 ↔ Entered calls s n)
  started : ∀ n ∈ roots, Entered calls s n ∨ .freeObject2 n ∈ calls
  kinds : ∀ n, .freeObject2 n ∈ calls → n ∈ roots

omit [Fintype ν] [DecidableEq ν] in
theorem entered_freeCalls (n x : ν) :
    Entered (freeCalls mem n ++ calls) s x ↔ Entered calls s x ∨ x = n := by
  unfold Entered freeCalls
  simp only [List.mem_append, List.mem_map, List.mem_singleton, SweepCall.release.injEq,
    reduceCtorEq, and_false, exists_false, false_or]
  tauto

omit [Fintype ν] in
theorem count_freeCalls (n m : ν) :
    (freeCalls mem n).count (.freeValue m) = (heapChildren mem n).count m := by
  have hinj : Function.Injective (@SweepCall.freeValue ν) := fun _ _ h =>
    SweepCall.freeValue.inj h
  rw [freeCalls, List.count_append, List.count_map_of_injective _ _ hinj,
    (mem n).freeChildren_perm.count_eq]
  simp

omit [Fintype ν] in
theorem mem_freeCalls {n : ν} (h : SweepCall.freeValue m ∈ freeCalls mem n) :
    m ∈ heapChildren mem n := by
  rw [← List.count_pos_iff, count_freeCalls] at h
  exact List.count_pos_iff.mp h

/-- **A node is freed**: its references are taken back. -/
theorem SweepCore.enter (h : SweepCore mem s₀ ext calls s) (hn : ¬ Entered calls s n)
    (hgarbage : Garbage mem s₀ ext n) :
    SweepCore mem s₀ ext (freeCalls mem n ++ calls) s := by
  refine ⟨fun m => ?_, fun x hx => ?_, fun m hm => ?_, fun x => ?_⟩
  · rw [edges_insert hn (entered_freeCalls n), List.count_append, count_freeCalls]
    have hold := h.count m
    omega
  · rcases (entered_freeCalls n x).mp hx with hx | rfl
    · exact h.garbage x hx
    · exact hgarbage
  · rcases List.mem_append.mp hm with hm | hm
    · exact hgarbage.1.child (mem_freeCalls hm)
    · exact h.pending m hm
  · have hnone : ((mem n).freeChildren.map SweepCall.freeValue).count (.release x) = 0 :=
      List.count_eq_zero.mpr (by simp)
    rw [List.count_append, freeCalls, List.count_append, hnone, Nat.zero_add]
    by_cases hx : x = n
    · subst hx
      rw [Entered, not_or] at hn
      rw [List.count_eq_zero.mpr hn.1, List.count_eq_zero.mpr hn.2]
      simp
    · have hne : [SweepCall.release n].count (.release x) = 0 :=
        List.count_eq_zero.mpr (by simpa using hx)
      rw [hne, Nat.zero_add]
      exact h.once x

/-! ## One call -/

/-- A call that enters no node and takes no reference back. -/
theorem SweepInv.skip {calls' : List (SweepCall ν)} {t : SweepState ν}
    (h : SweepInv mem s₀ ext roots calls s) (hentered : ∀ x, Entered calls' t x ↔ Entered calls s x)
    (hcount : ∀ m, calls'.count (.freeValue m) = calls.count (.freeValue m))
    (hrefs : t.refCount = s.refCount) (hmarks : t.freeMark = s.freeMark)
    (honce : ∀ x, calls'.count (.release x) + (t.freed ++ t.freeObjList).count x =
      calls.count (.release x) + (s.freed ++ s.freeObjList).count x)
    (hstart : ∀ x, .freeObject2 x ∈ calls → Entered calls s x ∨ .freeObject2 x ∈ calls')
    (hkinds : ∀ x, .freeObject2 x ∈ calls' → .freeObject2 x ∈ calls) :
    SweepInv mem s₀ ext roots calls' t := by
  refine ⟨⟨fun m => ?_, fun x hx => h.core.garbage x ((hentered x).mp hx), fun m hm => ?_,
    fun x => ?_⟩, fun x hx => ?_, fun x hx hg => ?_, fun x hx => ?_, fun x hx => h.kinds x (hkinds x hx)⟩
  · rw [edges_congr hentered, hcount, hrefs]
    exact h.core.count m
  · rw [← List.count_pos_iff, hcount, List.count_pos_iff] at hm
    exact h.core.pending m hm
  · rw [honce]
    exact h.core.once x
  · rw [hentered, hmarks]
    exact h.objects x hx
  · rw [hentered, hrefs]
    exact h.others x hx hg
  · rw [hentered]
    rcases h.started x hx with he | hc
    · exact Or.inl he
    · exact hstart x hc

/-- The block of a node is given back. -/
theorem SweepInv.release {t : SweepState ν}
    (h : SweepInv mem s₀ ext roots (.release n :: calls) s) (hrefs : t.refCount = s.refCount)
    (hmarks : t.freeMark = s.freeMark)
    (hlists : (t.freed ++ t.freeObjList).Perm (n :: (s.freed ++ s.freeObjList))) :
    SweepInv mem s₀ ext roots calls t ∧ ∀ x, Entered calls t x ↔ Entered (.release n :: calls) s x := by
  have hentered : ∀ x, Entered calls t x ↔ Entered (.release n :: calls) s x := by
    intro x
    unfold Entered
    rw [hlists.mem_iff, List.mem_cons, List.mem_cons, SweepCall.release.injEq]
    tauto
  refine ⟨h.skip hentered (fun m => ?_) hrefs hmarks (fun x => ?_) (fun x hx => ?_) fun x hx => ?_,
    hentered⟩
  · rw [List.count_cons_of_ne (by simp)]
  · rw [hlists.count_eq, List.count_cons, List.count_cons]
    by_cases hx : n = x
    · simp [hx]
      omega
    · simp [hx]
  · exact Or.inr ((List.mem_cons.mp hx).resolve_left (by simp))
  · exact List.mem_cons_of_mem _ hx

omit [Fintype ν] [DecidableEq ν] in
theorem entered_cons {c : SweepCall ν} (hc : ∀ n, c ≠ .release n) (x : ν) :
    Entered (c :: calls) s x ↔ Entered calls s x := by
  unfold Entered
  rw [List.mem_cons]
  simp [(hc x).symm]

/-- A reference is taken back. -/
theorem SweepCore.freeValue (h : SweepCore mem s₀ ext (.freeValue n :: calls) s) :
    s.refCount n ≠ 0 ∧ SweepCore mem s₀ ext calls (s.decref n) := by
  have hentered : ∀ x, Entered calls (s.decref n) x ↔ Entered (.freeValue n :: calls) s x :=
    fun x => (entered_cons (by simp) x).symm
  have hle : ∀ m, edges (heapChildren mem) (Entered (.freeValue n :: calls) s) m ≤
      edges (heapChildren mem) (Visited mem s₀) m :=
    fun m => edges_mono _ fun x hx => (h.garbage x hx).1
  have hpos : s.refCount n ≠ 0 := by
    have hcount := h.count n
    have hn := hle n
    rw [List.count_cons_self] at hcount
    omega
  refine ⟨hpos, fun m => ?_, fun x hx => h.garbage x ((hentered x).mp hx), fun m hm => ?_,
    fun x => ?_⟩
  · have hcount := h.count m
    rw [edges_congr hentered]
    by_cases hm : m = n
    · subst hm
      rw [List.count_cons_self] at hcount
      simp only [SweepState.decref, Function.update_self]
      omega
    · rw [List.count_cons_of_ne (by simpa using Ne.symm hm)] at hcount
      simpa only [SweepState.decref, Function.update_of_ne hm] using hcount
  · exact h.pending m (List.mem_cons_of_mem _ hm)
  · have honce := h.once x
    rwa [List.count_cons_of_ne (by simp)] at honce

/-- Where the last reference is taken back, the node is garbage. -/
theorem SweepCore.garbage_of_zero (h : SweepCore mem s₀ ext calls s) (hn : Visited mem s₀ n)
    (hzero : s.refCount n = 0) : Garbage mem s₀ ext n := by
  refine ⟨hn, fun hl => ?_⟩
  have hcount := h.count n
  have hle : edges (heapChildren mem) (Entered calls s) n ≤
      edges (heapChildren mem) (Visited mem s₀) n := edges_mono _ fun x hx => (h.garbage x hx).1
  have hext : ext n = 0 := by omega
  obtain ⟨x, hx, hlx, hedge⟩ := hl.pred hext
  have hlt : edges (heapChildren mem) (Entered calls s) n <
      edges (heapChildren mem) (Visited mem s₀) n :=
    edges_lt (fun y hy => (h.garbage y hy).1) (fun he => (h.garbage x he).2 hlx) hx hedge
  omega

/-- What there is left to do. -/
def sweepWork (mem : ν → GCNode ν) (calls : List (SweepCall ν)) (s : SweepState ν) : ℕ :=
  calls.length + work (heapChildren mem) fun n => if Entered calls s n then 0 else 1

theorem sweepWork_pop {c : SweepCall ν} {t : SweepState ν}
    (h : ∀ x, Entered calls t x ↔ Entered (c :: calls) s x) :
    sweepWork mem ([] ++ calls) t < sweepWork mem (c :: calls) s := by
  unfold sweepWork
  simp only [List.nil_append, h, List.length_cons]
  omega

theorem sweepWork_enter {c : SweepCall ν} {t : SweepState ν} (hn : ¬ Entered (c :: calls) s n)
    (h : ∀ x, Entered (freeCalls mem n ++ calls) t x ↔ Entered (c :: calls) s x ∨ x = n) :
    sweepWork mem (freeCalls mem n ++ calls) t < sweepWork mem (c :: calls) s := by
  have hweight : (fun x => if Entered (freeCalls mem n ++ calls) t x then 0 else 1) =
      Function.update (fun x => if Entered (c :: calls) s x then 0 else 1) n 0 := by
    funext x
    by_cases hx : x = n
    · simp [h, hx]
    · simp [h, hx]
  have hwork := work_enter (heapChildren mem) (n := n) (k := 0)
    (w := fun x => if Entered (c :: calls) s x then 0 else 1) (by simp [hn])
  have hlength : (freeCalls mem n).length = (heapChildren mem n).length + 1 := by
    rw [freeCalls, List.length_append, List.length_map, (mem n).freeChildren_perm.length_eq]
    rfl
  unfold sweepWork
  rw [hweight, List.length_append, hlength, List.length_cons]
  omega

/-- The loop comes to an object. -/
theorem SweepInv.freeObject2 (h : SweepInv mem s₀ ext roots (.freeObject2 n :: calls) s)
    (hobject : (mem n).isObject = true) (hgarbage : Garbage mem s₀ ext n)
    (hmark : s.freeMark n ≠ true) :
    SweepInv mem s₀ ext roots (freeCalls mem n ++ calls)
      { s with freeMark := Function.update s.freeMark n true } := by
  have hpop : ∀ x, Entered (.freeObject2 n :: calls) s x ↔ Entered calls s x :=
    entered_cons (by simp)
  have hn : ¬ Entered calls s n := fun he => hmark ((h.objects n hobject).mpr ((hpop n).mpr he))
  have hcore : SweepCore mem s₀ ext calls s := by
    refine ⟨fun m => ?_, fun x hx => h.core.garbage x ((hpop x).mpr hx),
      fun m hm => h.core.pending m (List.mem_cons_of_mem _ hm), fun x => ?_⟩
    · have hcount := h.core.count m
      rwa [edges_congr hpop, List.count_cons_of_ne (by simp)] at hcount
    · have honce := h.core.once x
      rwa [List.count_cons_of_ne (by simp)] at honce
  have hnew := hcore.enter hn hgarbage
  refine ⟨⟨hnew.count, hnew.garbage, hnew.pending, hnew.once⟩, fun x hx => ?_, fun x hx hg => ?_,
    fun x hx => ?_, fun x hx => ?_⟩
  · rw [entered_freeCalls]
    by_cases hxn : x = n
    · simp [hxn]
    · have hold := h.objects x hx
      simp only [Function.update_of_ne hxn, hxn, or_false]
      exact hold.trans (hpop x)
  · have hxn : x ≠ n := by
      rintro rfl
      rw [hobject] at hx
      simp at hx
    rw [entered_freeCalls]
    simp only [hxn, or_false]
    exact (h.others x hx hg).trans (hpop x)
  · rw [entered_freeCalls]
    rcases h.started x hx with he | hc
    · exact Or.inl (Or.inl ((hpop x).mp he))
    · rcases List.mem_cons.mp hc with heq | hc
      · exact Or.inl (Or.inr (SweepCall.freeObject2.inj heq))
      · exact Or.inr (List.mem_append_right _ hc)
  · refine h.kinds x (List.mem_cons_of_mem _ ?_)
    exact (List.mem_append.mp hx).resolve_left (by simp [freeCalls])

/-- A reference is taken back, and it was not the last one or the node is an object. -/
theorem SweepInv.freeValue (h : SweepInv mem s₀ ext roots (.freeValue n :: calls) s)
    (hleft : ¬ ((s.decref n).refCount n = 0 ∧ (mem n).isObject = false)) :
    SweepInv mem s₀ ext roots calls (s.decref n) := by
  have hpop : ∀ x, Entered calls (s.decref n) x ↔ Entered (.freeValue n :: calls) s x :=
    fun x => (entered_cons (by simp) x).symm
  obtain ⟨hpos, hcore⟩ := h.core.freeValue
  refine ⟨hcore, fun x hx => ?_, fun x hx hg => ?_, fun x hx => ?_,
    fun x hx => h.kinds x (List.mem_cons_of_mem _ hx)⟩
  · rw [hpop]
    exact h.objects x hx
  · rw [hpop, ← h.others x hx hg]
    by_cases hxn : x = n
    · subst hxn
      simp [hpos, show (s.decref x).refCount x ≠ 0 from fun h0 => hleft ⟨h0, hx⟩]
    · simp [SweepState.decref, Function.update_of_ne hxn]
  · rw [hpop]
    exact (h.started x hx).imp_right fun hc => (List.mem_cons.mp hc).resolve_left (by simp)

/-- The last reference to something that is not an object is taken back. -/
theorem SweepInv.freeLast (h : SweepInv mem s₀ ext roots (.freeValue n :: calls) s)
    (hzero : (s.decref n).refCount n = 0) (hobject : (mem n).isObject = false) :
    Garbage mem s₀ ext n ∧ ¬ Entered (.freeValue n :: calls) s n ∧
      SweepInv mem s₀ ext roots (freeCalls mem n ++ calls) (s.decref n) := by
  have hpop : ∀ x, Entered calls (s.decref n) x ↔ Entered (.freeValue n :: calls) s x :=
    fun x => (entered_cons (by simp) x).symm
  obtain ⟨hpos, hcore⟩ := h.core.freeValue
  have hgarbage : Garbage mem s₀ ext n :=
    hcore.garbage_of_zero (h.core.pending n List.mem_cons_self) hzero
  have hn : ¬ Entered (.freeValue n :: calls) s n :=
    fun he => hpos ((h.others n hobject hgarbage).mpr he)
  refine ⟨hgarbage, hn, hcore.enter (fun he => hn ((hpop n).mp he)) hgarbage, fun x hx => ?_,
    fun x hx hg => ?_, fun x hx => ?_, fun x hx => ?_⟩
  · have hxn : x ≠ n := by
      rintro rfl
      rw [hobject] at hx
      simp at hx
    rw [entered_freeCalls, hpop]
    simp only [hxn, or_false]
    exact h.objects x hx
  · rw [entered_freeCalls, hpop]
    by_cases hxn : x = n
    · subst hxn
      simp [hzero]
    · simpa [SweepState.decref, hxn] using h.others x hx hg
  · rw [entered_freeCalls, hpop]
    rcases h.started x hx with he | hc
    · exact Or.inl (Or.inl he)
    · exact Or.inr (List.mem_append_right _ ((List.mem_cons.mp hc).resolve_left (by simp)))
  · refine h.kinds x (List.mem_cons_of_mem _ ?_)
    exact (List.mem_append.mp hx).resolve_left (by simp [freeCalls])

/-- **One call of the sweep**: nothing fails. -/
theorem SweepInv.step {mark : ν → ℕ} (hobjects : ∀ n ∈ roots, (mem n).isObject = true)
    (hgarbage : ∀ n ∈ roots, Garbage mem s₀ ext n) (hmark : ∀ n ∈ roots, mark n = 3)
    (hplain : ∀ n, Garbage mem s₀ ext n → (mem n).isPlain = true) (c : SweepCall ν) (calls : List (SweepCall ν)) (s : SweepState ν)
    (h : SweepInv mem s₀ ext roots (c :: calls) s) :
    ∃ new s', sweepExec mem mark c s = .ok (new, s') ∧ SweepInv mem s₀ ext roots (new ++ calls) s' ∧
      sweepWork mem (new ++ calls) s' < sweepWork mem (c :: calls) s := by
  cases c with
  | freeObject2 n =>
      have hn := h.kinds n List.mem_cons_self
      have hpop : ∀ x, Entered calls s x ↔ Entered (.freeObject2 n :: calls) s x :=
        fun x => (entered_cons (by simp) x).symm
      have hassert : ¬ mark n ≠ 3 := not_not.mpr (hmark n hn)
      by_cases hfree : s.freeMark n = true
      · refine ⟨[], s, (if_neg hassert).trans (if_pos hfree), ?_, sweepWork_pop hpop⟩
        refine h.skip hpop (fun m => ?_) rfl rfl (fun x => ?_) (fun x hx => ?_) fun x hx => ?_
        · simp
        · simp
        · rcases List.mem_cons.mp hx with heq | hx
          · rw [SweepCall.freeObject2.inj heq]
            exact Or.inl ((h.objects n (hobjects n hn)).mp hfree)
          · exact Or.inr hx
        · exact List.mem_cons_of_mem _ hx
      · have hnew : ¬ Entered (.freeObject2 n :: calls) s n :=
          fun he => hfree ((h.objects n (hobjects n hn)).mpr he)
        have hfollowed : ¬ (mem n).isPlain = false := by simp [hplain n (hgarbage n hn)]
        refine ⟨_, _, (if_neg hassert).trans ((if_neg hfree).trans (if_neg hfollowed)),
          h.freeObject2 (hobjects n hn) (hgarbage n hn) hfree, sweepWork_enter hnew fun x => ?_⟩
        rw [entered_freeCalls]
        exact or_congr_left (hpop x)
  | freeValue n =>
      have hpos := h.core.freeValue.1
      by_cases hlast : (s.decref n).refCount n = 0 ∧ (mem n).isObject = false
      · obtain ⟨hgone, hnew, hinv⟩ := h.freeLast hlast.1 hlast.2
        have hfollowed : ¬ (mem n).isPlain = false := by simp [hplain n hgone]
        refine ⟨_, _, (if_neg hpos).trans ((if_pos hlast).trans (if_neg hfollowed)), hinv, sweepWork_enter hnew fun x => ?_⟩
        rw [entered_freeCalls]
        exact or_congr_left (entered_cons (by simp) x).symm
      · exact ⟨[], _, (if_neg hpos).trans (if_neg hlast), h.freeValue hlast,
          sweepWork_pop fun x => (entered_cons (by simp) x).symm⟩
  | release n =>
      by_cases hobject : (mem n).isObject = true
      · obtain ⟨hinv, hsame⟩ := @SweepInv.release ν _ _ mem s₀ ext roots calls s n
          { s with freeObjList := s.freeObjList ++ [n] } h rfl rfl (by
            rw [← List.append_assoc]
            exact List.perm_append_comm)
        exact ⟨[], _, if_pos hobject, hinv, sweepWork_pop hsame⟩
      · obtain ⟨hinv, hsame⟩ := @SweepInv.release ν _ _ mem s₀ ext roots calls s n
          { s with freed := s.freed ++ [n] } h rfl rfl (by
            simp)
        exact ⟨[], _, if_neg hobject, hinv, sweepWork_pop hsame⟩

/-! ## The whole collection -/

/-- Every cycle of the heap goes through an object. -/
def CyclesThroughObjects (mem : ν → GCNode ν) : Prop :=
  ∀ n, ¬ Relation.TransGen (fun x y => (mem x).isObject = false ∧ y ∈ heapChildren mem x) n n

/-- In the end all garbage has been freed. -/
theorem SweepInv.complete (h : SweepInv mem s₀ ext roots [] s)
    (hroots : ∀ n, (mem n).isObject = true → Garbage mem s₀ ext n → n ∈ roots)
    (hcycles : CyclesThroughObjects mem) (n : ν) : Garbage mem s₀ ext n → Entered [] s n := by
  have hwf : WellFounded
      (Relation.TransGen fun x y => (mem x).isObject = false ∧ y ∈ heapChildren mem x) :=
    haveI : Std.Irrefl (Relation.TransGen fun x y =>
      (mem x).isObject = false ∧ y ∈ heapChildren mem x) := ⟨hcycles⟩
    Finite.wellFounded_of_trans_of_irrefl _
  -- by induction on what refers to the node
  induction n using hwf.induction with
  | h n ih =>
      intro hn
      cases hobject : (mem n).isObject with
      | true => exact (h.started n (hroots n hobject hn)).resolve_right (by simp)
      | false =>
          have hedges : edges (heapChildren mem) (Entered [] s) n =
              edges (heapChildren mem) (Visited mem s₀) n := by
            apply edges_congr_of_mem
            intro x hx
            refine ⟨fun he => (h.core.garbage x he).1, fun hV => ?_⟩
            have hg := hn.pred hV hx
            cases hobj : (mem x).isObject with
            | true => exact (h.started x (hroots x hobj hg)).resolve_right (by simp)
            | false => exact ih x (Relation.TransGen.single ⟨hobj, hx⟩) hg
          have hcount := h.core.count n
          rw [hedges, hn.ext_eq, List.count_nil] at hcount
          exact (h.others n hobject hn).mp (by omega)

/-- `JS_RunGC`: the heap, and what was freed. -/
def runGC (mem : ν → GCNode ν) (fuel : ℕ) (s : GCState ν) :
    GCResult ν (GCState ν × List ν) := do
  let s ← gcSeparate mem fuel s
  let t ← gcFreeCycles mem fuel s
  return ({ s with refCount := t.refCount }, t.freed)

/-- **The sweep** frees the garbage. -/
theorem gcFreeCycles_spec {u : GCState ν} (h : Separated mem s₀ ext u)
    (hobj : ∀ n, n ∈ s₀.objList ↔ (mem n).isObject = true) (hcycles : CyclesThroughObjects mem)
    (hplain : ∀ n, Garbage mem s₀ ext n → (mem n).isPlain = true) {fuel : ℕ}
    (hfuel : u.tmpObjList.length + scanBound mem ≤ fuel) :
    ∃ t, gcFreeCycles mem fuel u = .ok t ∧ t.freed.Nodup ∧
      (∀ n, n ∈ t.freed ↔ Garbage mem s₀ ext n) ∧ ∀ m, ¬ Garbage mem s₀ ext m →
        t.refCount m = ext m + edges (heapChildren mem)
          (fun x => Visited mem s₀ x ∧ Live mem s₀ ext x) m ∧
        (Visited mem s₀ m → t.refCount m ≠ 0) := by
  have hself : ∀ {n}, n ∈ s₀.objList → Visited mem s₀ n :=
    fun hn => ⟨_, hn, Relation.ReflTransGen.refl⟩
  have hgarbage : ∀ n ∈ u.tmpObjList, Garbage mem s₀ ext n := by
    intro n hn
    have hmem := (h.tmpObjList n).mp hn
    exact ⟨hself hmem.1, hmem.2⟩
  have hobjects : ∀ n ∈ u.tmpObjList, (mem n).isObject = true :=
    fun n hn => (hobj n).mp ((h.tmpObjList n).mp hn).1
  have hmarks : ∀ n ∈ u.tmpObjList, u.mark n = 3 := fun n hn => (h.garbage n).mpr (hgarbage n hn)
  have hroots : ∀ n, (mem n).isObject = true → Garbage mem s₀ ext n → n ∈ u.tmpObjList :=
    fun n ho hg => (h.tmpObjList n).mpr ⟨(hobj n).mpr ho, hg.2⟩
  have hnone : ∀ n, ¬ Entered (u.tmpObjList.map .freeObject2) (⟨u.refCount, fun _ => false, [], []⟩ :
      SweepState ν) n := by
    intro n
    simp [Entered]
  have hstart : SweepInv mem s₀ ext u.tmpObjList (u.tmpObjList.map .freeObject2)
      ⟨u.refCount, fun _ => false, [], []⟩ := by
    refine ⟨⟨fun m => ?_, fun n hn => absurd hn (hnone n), by simp, fun n => ?_⟩, fun n hn => ?_,
      fun n hn hg => ?_, fun n hn => Or.inr (List.mem_map_of_mem hn), by simp⟩
    · rw [edges_none hnone, List.count_eq_zero.mpr (by simp)]
      exact h.refCount m
    · rw [List.count_eq_zero.mpr (by simp)]
      simp
    · simp [hnone n]
    · -- something that is not an object was reached over an edge
      obtain ⟨p, hp, hreach⟩ := hg.1
      have hpos : 0 < edges (heapChildren mem) (Visited mem s₀) n := by
        rcases Relation.ReflTransGen.cases_tail hreach with rfl | ⟨x, hx, hedge⟩
        · rw [(hobj n).mp hp] at hn
          simp at hn
        · have hlt := edges_lt (P := fun _ => False) (Q := Visited mem s₀) (m := n) (fun _ hf => hf.elim)
            not_false ⟨p, hp, hx⟩ hedge
          omega
      have hcount := h.refCount n
      simp only [hnone n, iff_false]
      omega
  have hwork : sweepWork mem (u.tmpObjList.map .freeObject2)
      (⟨u.refCount, fun _ => false, [], []⟩ : SweepState ν) ≤ fuel := by
    have hle : work (heapChildren mem) (fun n => if Entered (u.tmpObjList.map .freeObject2)
        (⟨u.refCount, fun _ => false, [], []⟩ : SweepState ν) n then 0 else 1) ≤
        work (heapChildren mem) (fun _ => 2) := by
      apply work_mono
      intro x
      split <;> simp
    unfold sweepWork
    unfold scanBound at hfuel
    rw [List.length_map]
    omega
  obtain ⟨t, hrun, hinv⟩ := run_total (SweepInv.step hobjects hgarbage hmarks hplain) hstart hwork
  have hentered : ∀ n, n ∈ t.freed ++ t.freeObjList ↔ Garbage mem s₀ ext n := by
    refine fun n => ⟨fun hn => hinv.core.garbage n (Or.inr hn), fun hn => ?_⟩
    exact (hinv.complete hroots hcycles n hn).resolve_left (by simp)
  refine ⟨{ t with freed := t.freed ++ t.freeObjList, freeObjList := [] }, ?_, ?_, hentered,
    fun m hm => ⟨?_, fun hV h0 => hm (hinv.core.garbage_of_zero hV h0)⟩⟩
  · unfold gcFreeCycles
    rw [hrun]
    rfl
  · rw [List.nodup_iff_count_le_one]
    intro n
    have honce := hinv.core.once n
    change (t.freed ++ t.freeObjList).count n ≤ 1
    omega
  · have hcount := hinv.core.count m
    have hiff : ∀ n, Entered [] t n ↔ Visited mem s₀ n ∧ ¬ Live mem s₀ ext n := by
      intro n
      exact Iff.trans (by simp [Entered]) (hentered n)
    have hsplit : edges (heapChildren mem) (fun x => Visited mem s₀ x ∧ Live mem s₀ ext x) m +
        edges (heapChildren mem) (fun x => Visited mem s₀ x ∧ ¬ Live mem s₀ ext x) m =
        edges (heapChildren mem) (Visited mem s₀) m := by
      rw [edges_add fun x hx hx' => hx'.2 hx.2]
      apply edges_congr
      intro x
      tauto
    rw [edges_congr hiff, List.count_nil] at hcount
    change t.refCount m = _
    omega

/-- What the garbage does not have, and who keeps the variables of frames. -/
structure FramesHeld (mem : ν → GCNode ν) (s : GCState ν) : Prop where
  /-- No generator with a frame, active asynchronous function or key of a weak map is garbage. -/
  plain : ∀ n, Garbage mem s (outsideRefs mem s) n → (mem n).isPlain = true
  /-- A variable in a frame has a reference from the stack, or from what has the frame. -/
  held : ∀ n v, mem n = .varRef false (some v) → outsideRefs mem s v ≠ 0 ∨
    ∃ g, Visited mem s g ∧ (mem g).hasFrame = true ∧ v ∈ heapChildren mem g

omit [Fintype ν] [DecidableEq ν] in
theorem GCNode.not_isPlain {x : GCNode ν} (h : x.hasFrame = true) : x.isPlain = false := by
  cases x with
  | object sh props gcMark finalizer => cases finalizer <;> simp [hasFrame, isPlain] at h ⊢
  | asyncFunction isActive frame resolve reject => simpa [hasFrame, isPlain] using h
  | functionBytecode cpool => simp [hasFrame] at h
  | varRef detached v => simp [hasFrame] at h
  | shape proto => simp [hasFrame] at h

omit [Fintype ν] [DecidableEq ν] in
theorem GCNode.mem_uses {x : GCNode ν} :
    m ∈ x.uses ↔ m ∈ x.markChildren ∨ x = .varRef false (some m) := by
  cases x with
  | varRef detached v => cases detached <;> simp [uses, markChildren]
  | object sh props gcMark finalizer => simp [uses]
  | functionBytecode cpool => simp [uses]
  | asyncFunction isActive frame resolve reject => simp [uses]
  | shape proto => simp [uses]

/-- A variable in a frame is not garbage. -/
theorem FramesHeld.not_garbage (h : FramesHeld mem s₀) {v : ν}
    (hn : mem n = .varRef false (some v)) : ¬ Garbage mem s₀ (outsideRefs mem s₀) v := by
  rintro hv
  rcases h.held n v hn with hext | ⟨g, hg, hframe, hedge⟩
  · exact hext hv.ext_eq
  · have hplain := h.plain g (hv.pred hg hedge)
    rw [GCNode.not_isPlain hframe] at hplain
    simp at hplain

/-- Two objects that refer to each other, a generator in use to which one of them refers, and the
shape of the three. -/
def sampleHeap : Fin 4 → GCNode (Fin 4)
  | 0 => .object 3 [.value none] [] .frame
  | 1 => .object 3 [.value (some 2), .deleted] [0] .marked
  | 2 => .object 3 [.getset (some 1) none] [] .marked
  | 3 => .shape none

/-- The references of `sampleHeap`, and one from outside to the object in use. -/
def sampleCounts : GCState (Fin 4) where
  refCount := fun
    | 0 => 2
    | 1 => 1
    | 2 => 1
    | 3 => 3
  mark := fun _ => 0
  objList := [0, 1, 2]
  tmpObjList := []
  elNext := none

example : (runGC sampleHeap 30 sampleCounts).toOption.map Prod.snd = some [1, 2] := by decide

theorem sampleHeap_valid : HeapValid sampleHeap sampleCounts where
  covers m := by
    refine (edges_mono (Q := fun _ => True) _ fun _ _ => trivial).trans ?_
    unfold edges
    simp only [if_true]
    revert m
    decide
  unmarked _ := rfl
  nodup := by decide
  objects := by decide

theorem sampleHeap_cycles : CyclesThroughObjects sampleHeap := by
  intro n h
  obtain ⟨x, hx, -⟩ := Relation.TransGen.head'_iff.mp h
  clear h
  revert n x
  decide

theorem sampleHeap_frames : FramesHeld sampleHeap sampleCounts where
  plain n hn := by
    by_contra hplain
    have honly : ∀ k, ¬ (sampleHeap k).isPlain = true → k = 0 := by decide
    obtain rfl := honly n hplain
    have hle : edges (heapChildren sampleHeap) (Visited sampleHeap sampleCounts) 0 ≤ 1 := by
      refine (edges_mono (Q := fun _ => True) _ fun _ _ => trivial).trans ?_
      unfold edges
      simp only [if_true]
      decide
    have hext := hn.ext_eq
    unfold outsideRefs at hext
    have hcount : sampleCounts.refCount 0 = 2 := rfl
    omega
  held n v hn := by
    fin_cases n <;> simp [sampleHeap] at hn

end Invariant

end Engine
end FuzzerJs
