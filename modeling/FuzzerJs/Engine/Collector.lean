import FuzzerJs.Lib.Search

/-!
# The cycle collector

`JS_RunGC` up to the point where the garbage is known: `gc_decref` takes off the references that
the objects hold to each other, and `gc_scan` puts them back while it separates what is still
referred to from outside from what is not.  The recursion of `mark_children` over the heap is a
stack of pending calls (`Search.run`).

The model keeps what the three passes see of the heap: the children of each node, its counter
and its mark, and the lists `obj_list` and `tmp_obj_list` with the pointer `el_next` into the
second one.
-/

namespace FuzzerJs
namespace Engine

open Search

/-! ## The heap -/

/-- A property of an object, by its type and flags.  A value counts when it refers to a node. -/
inductive PropertySlot (ν : Type) where
  /-- The atom of the property is `JS_ATOM_NULL`. -/
  | deleted
  | value (v : Option ν)
  /-- `JS_PROP_GETSET`. -/
  | getset (getter setter : Option ν)
  /-- `JS_PROP_VARREF`. -/
  | varRef (v : ν)
  /-- `JS_PROP_AUTOINIT`. -/
  | autoinit

/-- What freeing an object does behind its properties and its shape. -/
inductive Finalizer where
  /-- The finalizer gives up what `gc_mark` marks. -/
  | marked
  /-- The object has the frame of a generator: `close_var_refs` hands the variables of the frame
  to the closures that still use them. -/
  | frame
  /-- `first_weak_ref` is set: `reset_weak_ref` takes records out of weak maps. -/
  | weakKey
  deriving DecidableEq

/-- What the collector visits, by its tag. -/
inductive GCNode (ν : Type) where
  /-- `gcMark` is what the function `gc_mark` of the class marks. -/
  | object (shape : ν) (props : List (PropertySlot ν)) (gcMark : List ν) (finalizer : Finalizer)
  | functionBytecode (cpool : List (Option ν))
  /-- A variable that is `detached` from the stack holds a reference to its value.  Another one
  reads its value in a frame, and holds no reference. -/
  | varRef (detached : Bool) (value : Option ν)
  /-- `frame` is what `async_func_mark` marks. -/
  | asyncFunction (isActive : Bool) (frame : List ν) (resolve reject : Option ν)
  | shape (proto : Option ν)

/-- The part of `mark_children` for one property. -/
def PropertySlot.children {ν : Type} : PropertySlot ν → List ν
  | .deleted => []
  | .value v => v.toList
  | .getset getter setter => getter.toList ++ setter.toList
  | .varRef v => [v]
  | .autoinit => []

/-- `mark_children`: the nodes for which `mark_func` is called, in this order. -/
def GCNode.markChildren {ν : Type} : GCNode ν → List ν
  | .object sh props gcMark _ => sh :: (props.flatMap PropertySlot.children ++ gcMark)
  | .functionBytecode cpool => cpool.flatMap Option.toList
  | .varRef detached v => if detached then v.toList else []
  | .asyncFunction isActive frame resolve reject =>
    (if isActive then frame else []) ++ (resolve.toList ++ reject.toList)
  | .shape proto => proto.toList

/-- What a program can come to from a node: its children, and the value of a variable in a
frame. -/
def GCNode.uses {ν : Type} : GCNode ν → List ν
  | .varRef _ v => v.toList
  | x => x.markChildren

/-- `JS_IsObject`. -/
def GCNode.isObject {ν : Type} : GCNode ν → Bool
  | .object _ _ _ _ => true
  | _ => false

/-- The node has a frame of its own, which is not on the stack. -/
def GCNode.hasFrame {ν : Type} : GCNode ν → Bool
  | .object _ _ _ finalizer => finalizer = .frame
  | .asyncFunction isActive _ _ _ => isActive
  | _ => false

/-- Freeing the node does nothing but give up what it marks. -/
def GCNode.isPlain {ν : Type} : GCNode ν → Bool
  | .object _ _ _ finalizer => finalizer = .marked
  | .asyncFunction isActive _ _ _ => !isActive
  | _ => true

/-- The children of the nodes of a heap. -/
abbrev heapChildren {ν : Type} (mem : ν → GCNode ν) (n : ν) : List ν := (mem n).markChildren

/-- What the passes change. -/
structure GCState (ν : Type) where
  refCount : ν → ℕ
  mark : ν → ℕ
  objList : List ν
  tmpObjList : List ν
  elNext : Option ν

/-! ## The passes -/

/-- A call that is pending. -/
inductive GCCall (ν : Type) where
  | decrefMark (n : ν)
  | decrefChild (n : ν)
  | scanObj (n : ν)
  | scanIncrefChild (n : ν)
  | scanObj2 (n : ν)
  | scanIncrefChild2 (n : ν)
  deriving DecidableEq

/-- What can go wrong in a collection. -/
inductive GCError (ν : Type) where
  /-- `ref_count > 0`. -/
  | refCount (n : ν)
  /-- `mark == 3`. -/
  | mark (n : ν)
  /-- The node is not plain, and what freeing it does is not followed. -/
  | finalizer (n : ν)
  deriving DecidableEq

/-- The element behind `x`. -/
def nextOf {ν : Type} [DecidableEq ν] : List ν → ν → Option ν
  | [], _ => none
  | y :: ys, x => if y = x then ys.head? else nextOf ys x

section Passes

variable {ν : Type} [DecidableEq ν] (mem : ν → GCNode ν)

/-- A node with the mark `fresh` gets the mark `done`, and `child` is called for its children. -/
def enterNode (fresh done : ℕ) (child : ν → GCCall ν) (n : ν) (s : GCState ν) :
    List (GCCall ν) × GCState ν :=
  if s.mark n = fresh then
    ((heapChildren mem n).map child, { s with mark := Function.update s.mark n done })
  else ([], s)

/-- `gc_decref_mark`, up to the calls for the children. -/
def gcDecrefMark : ν → GCState ν → List (GCCall ν) × GCState ν := enterNode mem 0 1 .decrefChild

/-- Take an object from `tmp_obj_list` to the end of `obj_list`. -/
def keepObject (n : ν) (s : GCState ν) : GCState ν :=
  { s with
    elNext := if s.elNext = some n then nextOf s.tmpObjList n else s.elNext
    tmpObjList := s.tmpObjList.erase n
    objList := s.objList ++ [n] }

/-- `gc_scan_incref`, up to the calls for the children. -/
def gcScanIncref (n : ν) (s : GCState ν) : List (GCCall ν) × GCState ν :=
  let s := { s with mark := Function.update s.mark n 0 }
  ((heapChildren mem n).map .scanIncrefChild, if (mem n).isObject then keepObject n s else s)

/-- `gc_scan_obj2`, up to the calls for the children. -/
def gcScanObj2 : ν → GCState ν → List (GCCall ν) × GCState ν := enterNode mem 2 3 .scanIncrefChild2

/-- Another counter of one node. -/
def GCState.setRefCount (s : GCState ν) (n : ν) (k : ℕ) : GCState ν :=
  { s with refCount := Function.update s.refCount n k }

/-- A call: the calls that it makes, and what it changes itself.  It fails where an assertion
does. -/
def gcExec : GCCall ν → GCState ν → Except (GCError ν) (List (GCCall ν) × GCState ν)
  | .decrefMark n, s => .ok (gcDecrefMark mem n s)
  | .decrefChild n, s =>
    if s.refCount n = 0 then .error (.refCount n)
    else .ok (gcDecrefMark mem n (s.setRefCount n (s.refCount n - 1)))
  | .scanObj n, s =>
    if s.mark n = 1 then
      if 0 < s.refCount n then .ok (gcScanIncref mem n s)
      else .ok ((heapChildren mem n).map .scanObj, { s with mark := Function.update s.mark n 2 })
    else .ok ([], s)
  | .scanIncrefChild n, s =>
    let s := s.setRefCount n (s.refCount n + 1)
    if s.mark n ≠ 0 then .ok (gcScanIncref mem n s) else .ok ([], s)
  | .scanObj2 n, s => .ok (gcScanObj2 mem n s)
  | .scanIncrefChild2 n, s => .ok (gcScanObj2 mem n (s.setRefCount n (s.refCount n + 1)))

/-- A pass that may fail, or run out of fuel. -/
abbrev GCResult (ν α : Type) := Except (Option (GCError ν)) α

/-- `gc_decref`. -/
def gcDecref (fuel : ℕ) (s : GCState ν) : GCResult ν (GCState ν) :=
  run (gcExec mem) fuel (s.objList.map .decrefMark) s

/-- The first loop of `gc_scan`, from the element `el` on. -/
def gcScanLoop (fuel : ℕ) : ℕ → Option ν → GCState ν → GCResult ν (GCState ν)
  | _, none, s => .ok s
  | 0, some _, _ => .error none
  | n + 1, some p, s => do
    let s ← run (gcExec mem) fuel [.scanObj p] { s with elNext := nextOf s.tmpObjList p }
    gcScanLoop fuel n s.elNext s

/-- `gc_scan`. -/
def gcScan (fuel : ℕ) (s : GCState ν) : GCResult ν (GCState ν) := do
  let s ← gcScanLoop mem fuel s.objList.length s.objList.head?
    { s with objList := [], tmpObjList := s.objList }
  run (gcExec mem) fuel (s.tmpObjList.map .scanObj2) s

/-- The passes of `JS_RunGC` before `gc_free_cycles`: what is left in `tmp_obj_list` is to be
freed. -/
def gcSeparate (fuel : ℕ) (s : GCState ν) : GCResult ν (GCState ν) := do
  let s ← gcDecref mem fuel s
  gcScan mem fuel s

end Passes

/-! ## Passes that enter each node once -/

/-- What is the same in `gc_decref` and in the second loop of `gc_scan`: nodes with the mark
`fresh` are entered and get the mark `done`, and `step` is added to the counter of a node each
time that an edge leads to it. -/
structure Pass (ν : Type) where
  fresh : ℕ
  done : ℕ
  enter : ν → GCCall ν
  child : ν → GCCall ν
  step : ℤ
  fresh_ne : fresh ≠ done
  enter_ne : ∀ n m, enter n ≠ child m
  enter_inj : Function.Injective enter
  child_inj : Function.Injective child

section Pass

variable {ν : Type} [Fintype ν] [DecidableEq ν] {mem : ν → GCNode ν} {F : Pass ν}

/-- What is true during a pass that began with the state `s₁` and with calls for the nodes in
`roots`: the edges of a node that was entered have been followed, apart from those for which a
call is pending. -/
structure PassInv (mem : ν → GCNode ν) (F : Pass ν) (roots : List ν) (s₁ : GCState ν)
    (calls : List (GCCall ν)) (s : GCState ν) : Prop where
  count : ∀ m, (s.refCount m : ℤ) + F.step * calls.count (F.child m) =
    s₁.refCount m + F.step * edges (heapChildren mem) (fun n => s.mark n = F.done) m
  marks : ∀ n, s.mark n = s₁.mark n ∨ s₁.mark n = F.fresh ∧ s.mark n = F.done
  entered : ∀ n, s.mark n = F.done → ∃ p ∈ roots, Reach (heapChildren mem) p n
  closed : ∀ n, s.mark n = F.done → ∀ m ∈ heapChildren mem n,
    s.mark m ≠ F.fresh ∨ F.enter m ∈ calls ∨ F.child m ∈ calls
  started : ∀ n ∈ roots, s.mark n ≠ F.fresh ∨ F.enter n ∈ calls ∨ F.child n ∈ calls
  kinds : ∀ c ∈ calls, ∃ n, (∃ p ∈ roots, Reach (heapChildren mem) p n) ∧
    (c = F.enter n ∨ c = F.child n)
  objList : s.objList = s₁.objList
  tmpObjList : s.tmpObjList = s₁.tmpObjList

/-- How often a node is still to be entered. -/
def Pass.weight (F : Pass ν) (s : GCState ν) (n : ν) : ℕ := if s.mark n = F.fresh then 1 else 0

/-- What there is left to do in a pass. -/
def Pass.work (mem : ν → GCNode ν) (F : Pass ν) (calls : List (GCCall ν)) (s : GCState ν) : ℕ :=
  calls.length + Search.work (heapChildren mem) (F.weight s)

variable {roots : List ν} {s₁ s : GCState ν} {calls : List (GCCall ν)} {n : ν}

/-- The node is entered, if it is fresh. -/
theorem PassInv.enter (h : PassInv mem F roots s₁ (F.enter n :: calls) s) :
    PassInv mem F roots s₁ ((enterNode mem F.fresh F.done F.child n s).1 ++ calls)
        (enterNode mem F.fresh F.done F.child n s).2 ∧
      F.work mem ((enterNode mem F.fresh F.done F.child n s).1 ++ calls)
        (enterNode mem F.fresh F.done F.child n s).2 < F.work mem (F.enter n :: calls) s := by
  have hreach : ∃ p ∈ roots, Reach (heapChildren mem) p n := by
    obtain ⟨x, hx, heq⟩ := h.kinds _ List.mem_cons_self
    rcases heq with heq | heq
    · rwa [F.enter_inj heq]
    · exact absurd heq (F.enter_ne n x)
  have hcalls : ∀ m, (F.enter n :: calls).count (F.child m) = calls.count (F.child m) :=
    fun m => List.count_cons_of_ne (F.enter_ne n m)
  have hmem : ∀ {m}, F.enter m ∈ F.enter n :: calls ∨ F.child m ∈ F.enter n :: calls →
      m = n ∨ F.enter m ∈ calls ∨ F.child m ∈ calls := by
    intro m hm
    rcases hm with hm | hm
    · rcases List.mem_cons.mp hm with heq | hm
      · exact Or.inl (F.enter_inj heq)
      · exact Or.inr (Or.inl hm)
    · exact Or.inr (Or.inr ((List.mem_cons.mp hm).resolve_left (F.enter_ne n m).symm))
  by_cases hmark : s.mark n = F.fresh
  · have hdone : ∀ x, Function.update s.mark n F.done x = F.done ↔ s.mark x = F.done ∨ x = n := by
      intro x
      by_cases hx : x = n
      · simp [hx]
      · simp [hx]
    have hfresh : s₁.mark n = F.fresh := by
      rcases h.marks n with hm | hm
      · rwa [← hm]
      · exact hm.1
    -- a node that was entered or pending is so still, or it is `n`
    have hkeep : ∀ m, s.mark m ≠ F.fresh ∨ F.enter m ∈ F.enter n :: calls ∨
        F.child m ∈ F.enter n :: calls → Function.update s.mark n F.done m ≠ F.fresh ∨
        F.enter m ∈ (heapChildren mem n).map F.child ++ calls ∨
        F.child m ∈ (heapChildren mem n).map F.child ++ calls := by
      intro m hm
      by_cases hmn : m = n
      · rw [hmn, Function.update_self]
        exact Or.inl F.fresh_ne.symm
      · rw [Function.update_of_ne hmn]
        refine hm.imp_right fun hm => ?_
        exact ((hmem hm).resolve_left hmn).imp (List.mem_append_right _) (List.mem_append_right _)
    have hcount : ∀ m, ((heapChildren mem n).map F.child).count (F.child m) =
        (heapChildren mem n).count m := fun m => List.count_map_of_injective _ _ F.child_inj m
    rw [enterNode, if_pos hmark]
    refine ⟨⟨fun m => ?_, fun x => ?_, fun x hx => ?_, fun x hx m hm => ?_, fun x hx => ?_,
      fun c hc => ?_, h.objList, h.tmpObjList⟩, ?_⟩
    · have hold := h.count m
      rw [hcalls] at hold
      have hn : ¬ s.mark n = F.done := by
        rw [hmark]
        exact F.fresh_ne
      have hinsert : edges (heapChildren mem) (fun x => Function.update s.mark n F.done x = F.done) m =
          edges (heapChildren mem) (fun x => s.mark x = F.done) m + (heapChildren mem n).count m :=
        edges_insert (P := fun x => s.mark x = F.done) hn hdone
      rw [hinsert, List.count_append, hcount]
      push_cast
      rw [mul_add, mul_add]
      linarith
    · by_cases hx : x = n
      · rw [hx]
        exact Or.inr ⟨hfresh, Function.update_self ..⟩
      · dsimp only
        rw [Function.update_of_ne hx]
        exact h.marks x
    · rcases (hdone x).mp hx with hx | rfl
      · exact h.entered x hx
      · exact hreach
    · rcases (hdone x).mp hx with hx | rfl
      · exact hkeep m (h.closed x hx m hm)
      · exact Or.inr (Or.inr (List.mem_append_left _ (List.mem_map_of_mem hm)))
    · exact hkeep x (h.started x hx)
    · rcases List.mem_append.mp hc with hc | hc
      · obtain ⟨m, hm, rfl⟩ := List.mem_map.mp hc
        obtain ⟨p, hp, hpn⟩ := hreach
        exact ⟨m, ⟨p, hp, hpn.tail hm⟩, Or.inr rfl⟩
      · exact h.kinds c (List.mem_cons_of_mem _ hc)
    · have hweight : F.weight { s with mark := Function.update s.mark n F.done } =
          Function.update (F.weight s) n 0 := by
        funext x
        by_cases hx : x = n
        · simp [Pass.weight, hx, F.fresh_ne.symm]
        · simp [Pass.weight, Function.update_of_ne hx]
      have hwork := work_enter (heapChildren mem)
        (show 0 < F.weight s n by simp [Pass.weight, hmark])
      rw [Pass.work, Pass.work, hweight, List.length_append, List.length_map, List.length_cons]
      omega
  · have hkeep : ∀ m, s.mark m ≠ F.fresh ∨ F.enter m ∈ F.enter n :: calls ∨
        F.child m ∈ F.enter n :: calls → s.mark m ≠ F.fresh ∨ F.enter m ∈ calls ∨
        F.child m ∈ calls := by
      rintro m (hm | hm)
      · exact Or.inl hm
      · rcases hmem hm with rfl | hm
        · exact Or.inl hmark
        · exact Or.inr hm
    rw [enterNode, if_neg hmark, List.nil_append]
    refine ⟨⟨fun m => ?_, h.marks, h.entered, fun x hx m hm => hkeep m (h.closed x hx m hm),
      fun x hx => hkeep x (h.started x hx), fun c hc => h.kinds c (List.mem_cons_of_mem _ hc),
      h.objList, h.tmpObjList⟩, ?_⟩
    · rw [← h.count m, hcalls]
    · rw [Pass.work, Pass.work, List.length_cons]
      dsimp only
      omega

/-- An edge is followed: the counter changes, and the node is entered. -/
theorem PassInv.child (h : PassInv mem F roots s₁ (F.child n :: calls) s) {k : ℕ}
    (hk : (k : ℤ) = s.refCount n + F.step) :
    PassInv mem F roots s₁ (F.enter n :: calls) (s.setRefCount n k) := by
  have hreach : ∃ p ∈ roots, Reach (heapChildren mem) p n := by
    obtain ⟨x, hx, heq⟩ := h.kinds _ List.mem_cons_self
    rcases heq with heq | heq
    · exact absurd heq.symm (F.enter_ne x n)
    · rwa [F.child_inj heq]
  have hkeep : ∀ m, s.mark m ≠ F.fresh ∨ F.enter m ∈ F.child n :: calls ∨
      F.child m ∈ F.child n :: calls → s.mark m ≠ F.fresh ∨ F.enter m ∈ F.enter n :: calls ∨
      F.child m ∈ F.enter n :: calls := by
    rintro m (hm | hm | hm)
    · exact Or.inl hm
    · rcases List.mem_cons.mp hm with heq | hm
      · exact absurd heq (F.enter_ne m n)
      · exact Or.inr (Or.inl (List.mem_cons_of_mem _ hm))
    · rcases List.mem_cons.mp hm with heq | hm
      · rw [F.child_inj heq]
        exact Or.inr (Or.inl List.mem_cons_self)
      · exact Or.inr (Or.inr (List.mem_cons_of_mem _ hm))
  refine ⟨fun m => ?_, h.marks, h.entered, fun x hx m hm => hkeep m (h.closed x hx m hm),
    fun x hx => hkeep x (h.started x hx), fun c hc => ?_, h.objList, h.tmpObjList⟩
  · have hcount := h.count m
    rw [List.count_cons_of_ne (F.enter_ne n m)]
    by_cases hm : m = n
    · subst hm
      rw [List.count_cons_self] at hcount
      push_cast at hcount
      rw [mul_add, mul_one] at hcount
      simp only [GCState.setRefCount, Function.update_self, hk]
      linarith
    · rw [List.count_cons_of_ne fun heq => hm (F.child_inj heq).symm] at hcount
      simp only [GCState.setRefCount, Function.update_of_ne hm]
      exact hcount
  · rcases List.mem_cons.mp hc with rfl | hc
    · exact ⟨n, hreach, Or.inl rfl⟩
    · exact h.kinds c (List.mem_cons_of_mem _ hc)

/-- **A whole pass.**  `hexec` says that the calls do what a pass does, and do not fail. -/
theorem PassInv.run {fuel : ℕ} (hdone : ∀ n, s₁.mark n ≠ F.done)
    (henter : ∀ n s, gcExec mem (F.enter n) s = .ok (enterNode mem F.fresh F.done F.child n s))
    (hchild : ∀ n calls s, PassInv mem F roots s₁ (F.child n :: calls) s → ∃ k : ℕ,
      (k : ℤ) = s.refCount n + F.step ∧ gcExec mem (F.child n) s =
        .ok (enterNode mem F.fresh F.done F.child n (s.setRefCount n k)))
    (hfuel : F.work mem (roots.map F.enter) s₁ ≤ fuel) :
    ∃ s, Search.run (gcExec mem) fuel (roots.map F.enter) s₁ = .ok s ∧
      PassInv mem F roots s₁ [] s := by
  have hzero : ∀ m, edges (heapChildren mem) (fun n => s₁.mark n = F.done) m = 0 :=
    fun m => edges_none hdone
  refine run_total (fun c calls s h => ?_) ?_ hfuel
  · obtain ⟨n, -, rfl | rfl⟩ := h.kinds c List.mem_cons_self
    · exact ⟨_, _, henter n s, h.enter.1, h.enter.2⟩
    · obtain ⟨k, hk, hexec⟩ := hchild n calls s h
      exact ⟨_, _, hexec, (h.child hk).enter.1, (h.child hk).enter.2⟩
  · refine ⟨fun m => ?_, fun n => Or.inl rfl, fun n hn => absurd hn (hdone n),
      fun n hn => absurd hn (hdone n), fun n hn => Or.inr (Or.inl (List.mem_map_of_mem hn)),
      fun c hc => ?_, rfl, rfl⟩
    · have hcount : (roots.map F.enter).count (F.child m) = 0 := by
        rw [List.count_eq_zero]
        intro hm
        obtain ⟨x, -, heq⟩ := List.mem_map.mp hm
        exact F.enter_ne x m heq
      rw [hzero, hcount]
    · obtain ⟨n, hn, rfl⟩ := List.mem_map.mp hc
      exact ⟨n, ⟨n, hn, Relation.ReflTransGen.refl⟩, Or.inl rfl⟩

end Pass

/-! ## The first pass -/

section Decref

variable {ν : Type} [Fintype ν] [DecidableEq ν] {mem : ν → GCNode ν} {s₀ : GCState ν}

/-- Every node that an object refers to, directly or not. -/
def Visited (mem : ν → GCNode ν) (s : GCState ν) (n : ν) : Prop :=
  ∃ p ∈ s.objList, Reach (heapChildren mem) p n

omit [Fintype ν] [DecidableEq ν] in
theorem Visited.child {s : GCState ν} {n m : ν} (h : Visited mem s n) (hm : m ∈ heapChildren mem n) :
    Visited mem s m := by
  obtain ⟨p, hp, hreach⟩ := h
  exact ⟨p, hp, hreach.tail hm⟩

/-- The counters cover all references that the nodes hold to each other. -/
def Covers (mem : ν → GCNode ν) (s : GCState ν) : Prop :=
  ∀ m, edges (heapChildren mem) (Visited mem s) m ≤ s.refCount m

/-- `gc_decref`. -/
def decrefPass (ν : Type) : Pass ν where
  fresh := 0
  done := 1
  enter := .decrefMark
  child := .decrefChild
  step := -1
  fresh_ne := by simp
  enter_ne _ _ := by simp
  enter_inj _ _ h := GCCall.decrefMark.inj h
  child_inj _ _ h := GCCall.decrefChild.inj h

/-- **The first pass** marks what objects refer to, and leaves in each counter the references
that come from elsewhere. -/
theorem gcDecref_spec (hcovers : Covers mem s₀) (hmark : ∀ n, s₀.mark n = 0) {fuel : ℕ}
    (hfuel : (decrefPass ν).work mem (s₀.objList.map .decrefMark) s₀ ≤ fuel) :
    ∃ s, gcDecref mem fuel s₀ = .ok s ∧
      (∀ m, s.refCount m + edges (heapChildren mem) (Visited mem s₀) m = s₀.refCount m) ∧
      (∀ n, s.mark n = 0 ∨ s.mark n = 1) ∧ (∀ n, s.mark n = 1 ↔ Visited mem s₀ n) ∧
      s.objList = s₀.objList := by
  have hdone : ∀ n, s₀.mark n ≠ (decrefPass ν).done := fun n => by
    rw [hmark n]
    simp [decrefPass]
  -- the assertion in `gc_decref_child`
  have hchild : ∀ n calls s, PassInv mem (decrefPass ν) s₀.objList s₀ (.decrefChild n :: calls) s →
      ∃ k : ℕ, (k : ℤ) = s.refCount n + (decrefPass ν).step ∧ gcExec mem (.decrefChild n) s =
        .ok (gcDecrefMark mem n (s.setRefCount n k)) := by
    intro n calls s h
    have hcount := h.count n
    have hle : edges (heapChildren mem) (fun x => s.mark x = (decrefPass ν).done) n ≤
        s₀.refCount n := (edges_mono (heapChildren mem) h.entered).trans (hcovers n)
    have hself : (GCCall.decrefChild n :: calls).count ((decrefPass ν).child n) =
        calls.count (.decrefChild n) + 1 := List.count_cons_self
    rw [hself] at hcount
    simp only [decrefPass] at hcount hle
    push_cast at hcount
    have hpos : s.refCount n ≠ 0 := by omega
    refine ⟨s.refCount n - 1, ?_, if_neg hpos⟩
    simp only [decrefPass]
    omega
  obtain ⟨s, hrun, hinv⟩ := @PassInv.run ν _ _ mem (decrefPass ν) s₀.objList s₀ fuel hdone
    (fun n s => rfl) hchild hfuel
  have hmarks : ∀ n, s.mark n = 0 ∨ s.mark n = 1 := by
    intro n
    rcases hinv.marks n with h | h
    · exact Or.inl (h.trans (hmark n))
    · exact Or.inr h.2
  have hiff : ∀ n, s.mark n = 1 ↔ Visited mem s₀ n := by
    refine fun n => ⟨hinv.entered n, ?_⟩
    rintro ⟨p, hp, hreach⟩
    refine Reach.mem (P := fun x => s.mark x = 1) hreach (fun x hx y hy => ?_) ?_
    · exact (hmarks y).resolve_left (by simpa [decrefPass] using hinv.closed x hx y hy)
    · exact (hmarks p).resolve_left (by simpa [decrefPass] using hinv.started p hp)
  refine ⟨s, hrun, fun m => ?_, hmarks, hiff, hinv.objList⟩
  have hcount := hinv.count m
  have hedges : edges (heapChildren mem) (fun n => s.mark n = (decrefPass ν).done) m =
      edges (heapChildren mem) (Visited mem s₀) m := edges_congr hiff
  rw [hedges, List.count_nil] at hcount
  simp only [decrefPass] at hcount
  push_cast at hcount
  omega

end Decref

end Engine
end FuzzerJs
