import Mathlib

/-!
# Interning tables with a free list

A table gives small numbers to keys: the number of a key is the index of the slot that
holds it.  Slots count their references and go back to a free list when the count
reaches zero, so the number that a new key receives depends on everything that was
released before.  When no slot is free the table grows, by a policy that is a parameter
and may refuse.

The structure carries its invariant: what the free list names is free, it names it once,
and no key is in two slots.
-/

namespace Intern

/-- A table; a slot in use holds a key and the number of references to it. -/
@[ext]
structure Table (α : Type) where
  slot : ℕ → Option (α × ℕ)
  size : ℕ
  free : List ℕ
  slot_lt : ∀ i, (slot i).isSome → i < size
  free_lt : ∀ i ∈ free, i < size
  free_empty : ∀ i ∈ free, slot i = none
  free_nodup : free.Nodup
  count_pos : ∀ i a, slot i = some a → 0 < a.2
  unique : ∀ i j k, (slot i).map Prod.fst = some k → (slot j).map Prod.fst = some k → i = j

namespace Table

variable {α : Type}

/-- The slot `i` holds the key `k`. -/
def Holds (t : Table α) (i : ℕ) (k : α) : Prop := (t.slot i).map Prod.fst = some k

section Holds

variable {t : Table α} {i : ℕ} {k : α}

theorem Holds.isSome (h : t.Holds i k) : (t.slot i).isSome := by
  rw [Holds, Option.map_eq_some_iff] at h
  obtain ⟨a, ha, -⟩ := h
  rw [ha]
  rfl

theorem Holds.lt (h : t.Holds i k) : i < t.size := t.slot_lt i h.isSome

theorem Holds.key_eq {k' : α} (h : t.Holds i k) (h' : t.Holds i k') : k = k' :=
  Option.some.inj (h.symm.trans h')

end Holds

/-! ## References -/

/-- The count of a slot. -/
def count (t : Table α) (i : ℕ) : ℕ := ((t.slot i).map Prod.snd).getD 0

/-- The slots after the count of one of them was changed. -/
def withCount (t : Table α) (i n : ℕ) : ℕ → Option (α × ℕ) :=
  Function.update t.slot i ((t.slot i).map fun a => (a.1, n))

theorem withCount_key (t : Table α) (i n j : ℕ) :
    (t.withCount i n j).map Prod.fst = (t.slot j).map Prod.fst := by
  by_cases h : j = i
  · subst h
    rw [withCount, Function.update_self, Option.map_map]
    rfl
  · rw [withCount, Function.update_of_ne h]

theorem withCount_isSome (t : Table α) (i n j : ℕ) :
    (t.withCount i n j).isSome = (t.slot j).isSome := by
  rw [← Option.isSome_map, withCount_key, Option.isSome_map]

/-- Change the count of a slot. -/
def setCount (t : Table α) (i n : ℕ) (hn : 0 < n) : Table α where
  slot := t.withCount i n
  size := t.size
  free := t.free
  slot_lt j hj := t.slot_lt j (by rwa [withCount_isSome] at hj)
  free_lt := t.free_lt
  free_empty j hj := by
    have := t.withCount_isSome i n j
    rw [t.free_empty j hj] at this
    exact Option.isNone_iff_eq_none.mp (by simpa using this)
  free_nodup := t.free_nodup
  count_pos j a hj := by
    by_cases h : j = i
    · rw [h, withCount, Function.update_self, Option.map_eq_some_iff] at hj
      obtain ⟨b, -, rfl⟩ := hj
      exact hn
    · rw [withCount, Function.update_of_ne h] at hj
      exact t.count_pos j a hj
  unique j j' k hj hj' := t.unique j j' k (by rwa [withCount_key] at hj)
    (by rwa [withCount_key] at hj')

theorem setCount_slot (t : Table α) (i n : ℕ) (hn : 0 < n) : (t.setCount i n hn).slot =
    Function.update t.slot i ((t.slot i).map fun a => (a.1, n)) := rfl

/-- One reference more. -/
def addRef (t : Table α) (i : ℕ) : Table α := t.setCount i (t.count i + 1) (Nat.succ_pos _)

/-- Empty a slot in use, and put it at the head of the free list. -/
def clear (t : Table α) (i : ℕ) (h : (t.slot i).isSome) : Table α where
  slot := Function.update t.slot i none
  size := t.size
  free := i :: t.free
  slot_lt j hj := by
    by_cases hji : j = i
    · subst hji
      rw [Function.update_self] at hj
      exact absurd hj (by simp)
    · rw [Function.update_of_ne hji] at hj
      exact t.slot_lt j hj
  free_lt j hj := by
    rcases List.mem_cons.mp hj with rfl | hj
    · exact t.slot_lt j h
    · exact t.free_lt j hj
  free_empty j hj := by
    by_cases hji : j = i
    · rw [hji, Function.update_self]
    · rw [Function.update_of_ne hji]
      exact t.free_empty j ((List.mem_cons.mp hj).resolve_left hji)
  free_nodup := List.nodup_cons.mpr ⟨fun hi => by
    rw [t.free_empty i hi] at h
    exact absurd h (by simp), t.free_nodup⟩
  count_pos j a hj := by
    by_cases hji : j = i
    · rw [hji, Function.update_self] at hj
      exact absurd hj (by simp)
    · rw [Function.update_of_ne hji] at hj
      exact t.count_pos j a hj
  unique j j' k hj hj' := by
    have hne : ∀ {l}, (Function.update t.slot i none l).map Prod.fst = some k → l ≠ i := by
      rintro l hl rfl
      rw [Function.update_self] at hl
      exact absurd hl (by simp)
    have hj₁ := hne hj
    have hj₂ := hne hj'
    rw [Function.update_of_ne hj₁] at hj
    rw [Function.update_of_ne hj₂] at hj'
    exact t.unique j j' k hj hj'

/-- One reference less. -/
def release (t : Table α) (i : ℕ) : Table α :=
  if h : (t.slot i).isSome then
    if hn : 1 < t.count i then t.setCount i (t.count i - 1) (Nat.sub_pos_of_lt hn)
    else t.clear i h
  else t

/-! ## References -/

section Refs

variable {t : Table α} {i j : ℕ} {k : α}

theorem Holds.addRef (h : t.Holds j k) : (t.addRef i).Holds j k :=
  (withCount_key t i _ j).trans h

/-- Releasing one key leaves the others. -/
theorem Holds.release_ne (h : t.Holds j k) (hne : j ≠ i) : (t.release i).Holds j k := by
  rw [release]
  split
  · split
    · exact (withCount_key t i _ j).trans h
    · change (Function.update t.slot i none j).map Prod.fst = some k
      rw [Function.update_of_ne hne]
      exact h
  · exact h

/-- A reference that is taken and given back changes nothing. -/
theorem addRef_release (t : Table α) (i : ℕ) : (t.addRef i).release i = t := by
  cases hs : t.slot i with
  | none =>
      have hadd : t.addRef i = t := by
        refine Table.ext ?_ rfl rfl
        rw [addRef, setCount_slot, hs, Option.map_none, ← hs, Function.update_eq_self]
      rw [hadd, release, dif_neg (by rw [hs]; simp)]
  | some a =>
      have hpos := t.count_pos i a hs
      have hcount : t.count i = a.2 := by rw [count, hs]; rfl
      have hslot : (t.addRef i).slot i = some (a.1, a.2 + 1) := by
        rw [addRef, setCount_slot, Function.update_self, hs, hcount]
        rfl
      have hcount' : (t.addRef i).count i = a.2 + 1 := by rw [count, hslot]; rfl
      rw [release, dif_pos (by rw [hslot]; rfl), dif_pos (by rw [hcount']; omega)]
      refine Table.ext ?_ rfl rfl
      rw [setCount_slot, hslot, hcount', addRef, setCount_slot, Function.update_idem]
      simp only [Option.map_some, Nat.add_sub_cancel]
      rw [← hs, Function.update_eq_self]

/-- At least `n` references to a key. -/
def Refs (t : Table α) (i : ℕ) (k : α) (n : ℕ) : Prop := t.Holds i k ∧ n ≤ t.count i

/-- No key loses a reference. -/
def Keeps (t t' : Table α) : Prop := ∀ i k n, t.Refs i k n → t'.Refs i k n

theorem Keeps.refl (t : Table α) : t.Keeps t := fun _ _ _ h => h

theorem Keeps.trans {t' t'' : Table α} (h : t.Keeps t') (h' : t'.Keeps t'') : t.Keeps t'' :=
  fun i k n hrefs => h' i k n (h i k n hrefs)

theorem Keeps.holds {t' : Table α} (h : t.Keeps t') (hold : t.Holds i k) : t'.Holds i k :=
  (h i k 0 ⟨hold, Nat.zero_le _⟩).1

theorem Holds.refs (h : t.Holds i k) : t.Refs i k 1 := by
  refine ⟨h, ?_⟩
  obtain ⟨a, ha⟩ := Option.isSome_iff_exists.mp h.isSome
  rw [count, ha]
  exact t.count_pos i a ha

theorem count_setCount {n : ℕ} (hn : 0 < n) (h : t.Holds i k) :
    (t.setCount i n hn).count i = n := by
  obtain ⟨a, ha⟩ := Option.isSome_iff_exists.mp h.isSome
  rw [count, setCount_slot, Function.update_self, ha]
  rfl

theorem count_setCount_ne {n : ℕ} (hn : 0 < n) (hne : j ≠ i) :
    (t.setCount i n hn).count j = t.count j := by
  rw [count, setCount_slot, Function.update_of_ne hne]
  rfl

theorem Refs.addRef_self {n : ℕ} (h : t.Refs i k n) : (t.addRef i).Refs i k (n + 1) := by
  refine ⟨h.1.addRef, ?_⟩
  rw [Table.addRef, count_setCount _ h.1]
  exact Nat.succ_le_succ h.2

theorem Refs.addRef_ne {n : ℕ} (h : t.Refs j k n) (hne : j ≠ i) : (t.addRef i).Refs j k n := by
  refine ⟨h.1.addRef, ?_⟩
  rw [Table.addRef, count_setCount_ne _ hne]
  exact h.2

theorem Refs.addRef {n : ℕ} (h : t.Refs j k n) : (t.addRef i).Refs j k n := by
  by_cases hne : j = i
  · subst hne
    exact ⟨h.addRef_self.1, (Nat.le_succ n).trans h.addRef_self.2⟩
  · exact h.addRef_ne hne

theorem keeps_addRef (t : Table α) (i : ℕ) : t.Keeps (t.addRef i) := fun _ _ _ h => h.addRef

/-- As long as other references remain, the key stays. -/
theorem Refs.release_self {n : ℕ} (h : t.Refs i k (n + 1)) (hn : 0 < n) :
    (t.release i).Refs i k n := by
  have hcount : 1 < t.count i := lt_of_lt_of_le (Nat.succ_lt_succ hn) h.2
  rw [Table.release, dif_pos h.1.isSome, dif_pos hcount]
  refine ⟨(withCount_key t i _ i).trans h.1, ?_⟩
  rw [count_setCount _ h.1]
  exact Nat.le_sub_one_of_lt h.2

theorem Refs.release_ne {n : ℕ} (h : t.Refs j k n) (hne : j ≠ i) : (t.release i).Refs j k n := by
  refine ⟨h.1.release_ne hne, ?_⟩
  rw [Table.release]
  split
  · split
    · rw [count_setCount_ne _ hne]
      exact h.2
    · change n ≤ ((Function.update t.slot i none j).map Prod.snd).getD 0
      rw [Function.update_of_ne hne]
      exact h.2
  · exact h.2

end Refs

/-! ## New keys -/

section Intern

variable [DecidableEq α]

/-- The slot of a key. -/
def find (t : Table α) (k : α) : Option ℕ :=
  (List.range t.size).find? fun i => (t.slot i).map Prod.fst = some k

theorem find_holds {t : Table α} {k : α} {i : ℕ} (h : t.find k = some i) : t.Holds i k := by
  have hi := List.find?_some h
  simp only [decide_eq_true_eq] at hi
  exact hi

theorem Holds.find {t : Table α} {k : α} {i : ℕ} (h : t.Holds i k) : t.find k = some i := by
  cases hf : t.find k with
  | none =>
      have := List.find?_eq_none.mp hf i (List.mem_range.mpr h.lt)
      exact absurd h fun h => this (decide_eq_true h)
  | some j => rw [t.unique j i k (find_holds hf) h]

theorem find_none {t : Table α} {k : α} (h : t.find k = none) (i : ℕ) :
    ¬ t.Holds i k := by
  intro hi
  rw [hi.find] at h
  exact absurd h (by simp)

/-- New slots, when none is free; they are used in their order. -/
def grow (t : Table α) (newSize : ℕ) (hsize : t.size ≤ newSize) : Table α where
  slot := t.slot
  size := newSize
  free := (List.range (newSize - t.size)).map (t.size + ·)
  slot_lt i hi := (t.slot_lt i hi).trans_le hsize
  free_lt i hi := by
    obtain ⟨j, hj, rfl⟩ := List.mem_map.mp hi
    have := List.mem_range.mp hj
    omega
  free_empty i hi := by
    obtain ⟨j, hj, rfl⟩ := List.mem_map.mp hi
    by_contra hne
    have := t.slot_lt _ (Option.isSome_iff_ne_none.mpr hne)
    omega
  free_nodup := List.nodup_range.map fun a b hab => by simpa using hab
  count_pos := t.count_pos
  unique := t.unique

/-- Store a key that is not in the table in the first free slot. -/
def store (t : Table α) (k : α) (i : ℕ) (rest : List ℕ) (h : t.free = i :: rest)
    (hk : ∀ j, ¬ t.Holds j k) : Table α where
  slot := Function.update t.slot i (some (k, 1))
  size := t.size
  free := rest
  slot_lt j hj := by
    by_cases hji : j = i
    · rw [hji]
      exact t.free_lt i (by rw [h]; simp)
    · rw [Function.update_of_ne hji] at hj
      exact t.slot_lt j hj
  free_lt j hj := t.free_lt j (by rw [h]; simp [hj])
  free_empty j hj := by
    have hnodup := t.free_nodup
    rw [h, List.nodup_cons] at hnodup
    have hji : j ≠ i := by
      rintro rfl
      exact hnodup.1 hj
    rw [Function.update_of_ne hji]
    exact t.free_empty j (by rw [h]; simp [hj])
  free_nodup := by
    have hnodup := t.free_nodup
    rw [h, List.nodup_cons] at hnodup
    exact hnodup.2
  count_pos j a hj := by
    by_cases hji : j = i
    · rw [hji, Function.update_self] at hj
      rw [← Option.some.inj hj]
      exact Nat.one_pos
    · rw [Function.update_of_ne hji] at hj
      exact t.count_pos j a hj
  unique j j' k' hj hj' := by
    have hcase : ∀ {l}, (Function.update t.slot i (some (k, 1)) l).map Prod.fst = some k' →
        l = i ∧ k' = k ∨ l ≠ i ∧ t.Holds l k' := by
      intro l hl
      by_cases hli : l = i
      · rw [hli, Function.update_self] at hl
        exact Or.inl ⟨hli, (Option.some.inj hl).symm⟩
      · rw [Function.update_of_ne hli] at hl
        exact Or.inr ⟨hli, hl⟩
    rcases hcase hj with ⟨h₁, hk₁⟩ | ⟨-, h₁⟩
    · rcases hcase hj' with ⟨h₂, -⟩ | ⟨-, h₂⟩
      · rw [h₁, h₂]
      · rw [hk₁] at h₂
        exact absurd h₂ (hk j')
    · rcases hcase hj' with ⟨-, hk₂⟩ | ⟨-, h₂⟩
      · rw [hk₂] at h₁
        exact absurd h₁ (hk j)
      · exact t.unique j j' k' h₁ h₂

/-- Store a key, with what is free already. -/
def insert (t : Table α) (k : α) (hk : ∀ j, ¬ t.Holds j k) : Option (ℕ × Table α) :=
  match h : t.free with
  | [] => none
  | i :: rest => some (i, t.store k i rest h hk)

/-- The number of a key.  `policy` says how large a full table is to become, and `pinned` which
slots are permanent and do not count their references. -/
def intern (policy : ℕ → Option ℕ) (pinned : ℕ → Bool) (t : Table α) (k : α) :
    Option (ℕ × Table α) :=
  match hf : t.find k with
  | some i => some (i, if pinned i then t else t.addRef i)
  | none =>
    if t.free = [] then
      match policy t.size with
      | none => none
      | some newSize =>
        if hsize : t.size ≤ newSize then
          (t.grow newSize hsize).insert k fun j => find_none hf j
        else none
    else t.insert k (find_none hf)

omit [DecidableEq α] in
/-- What an insertion does: the key is in a slot that was free, and nothing else changes. -/
theorem insert_eq_some {t t' : Table α} {k : α} {hk : ∀ j, ¬ t.Holds j k} {i : ℕ}
    (h : t.insert k hk = some (i, t')) :
    i ∈ t.free ∧ t'.slot = Function.update t.slot i (some (k, 1)) ∧ t'.size = t.size ∧
      t.free = i :: t'.free := by
  rw [insert] at h
  split at h
  · exact absurd h (by simp)
  · rename_i j rest hfree
    simp only [Option.some.injEq, Prod.mk.injEq] at h
    obtain ⟨rfl, rfl⟩ := h
    exact ⟨by rw [hfree]; simp, rfl, rfl, hfree⟩

/-- What `intern` does to the keys: the new key is in its slot, and every other key is where it
was, with at least the references it had. -/
theorem intern_spec {policy : ℕ → Option ℕ} {pinned : ℕ → Bool} {t t' : Table α} {k : α} {i : ℕ}
    (h : intern policy pinned t k = some (i, t')) :
    t'.Holds i k ∧ t.Keeps t' := by
  have hput : ∀ {s : Table α} {hk : ∀ j, ¬ s.Holds j k}, s.slot = t.slot →
      s.insert k hk = some (i, t') → t'.Holds i k ∧ t.Keeps t' := by
    intro s hk hs hins
    obtain ⟨hi, hslot, -, -⟩ := insert_eq_some hins
    refine ⟨by rw [Holds, hslot, Function.update_self]; rfl, fun j k' n hj => ?_⟩
    have hji : j ≠ i := by
      rintro rfl
      have := hj.1.isSome
      rw [← hs, s.free_empty j hi] at this
      exact absurd this (by simp)
    rw [Refs, Holds, count, hslot, Function.update_of_ne hji, hs]
    exact hj
  rw [intern] at h
  split at h
  · rename_i j hf
    simp only [Option.some.injEq, Prod.mk.injEq] at h
    obtain ⟨rfl, rfl⟩ := h
    cases pinned j with
    | true => exact ⟨find_holds hf, Keeps.refl t⟩
    | false => exact ⟨(find_holds hf).addRef, keeps_addRef t j⟩
  · split at h
    · split at h
      · exact absurd h (by simp)
      · split at h
        · rename_i newSize _ hsize
          exact hput (s := t.grow newSize hsize) rfl h
        · exact absurd h (by simp)
    · exact hput rfl h

/-- The size grows within the bound of the policy. -/
theorem intern_size_le {policy : ℕ → Option ℕ} {pinned : ℕ → Bool} {t t' : Table α} {k : α}
    {i bound : ℕ} (hpolicy : ∀ n n', policy n = some n' → n' ≤ bound) (hsize : t.size ≤ bound)
    (h : intern policy pinned t k = some (i, t')) : t'.size ≤ bound := by
  rw [intern] at h
  split at h
  · rename_i j _
    simp only [Option.some.injEq, Prod.mk.injEq] at h
    rw [← h.2]
    cases pinned j <;> exact hsize
  · split at h
    · split at h
      · exact absurd h (by simp)
      · rename_i newSize hp
        split at h
        · obtain ⟨-, -, hs, -⟩ := insert_eq_some h
          rw [hs]
          exact hpolicy _ _ hp
        · exact absurd h (by simp)
    · obtain ⟨-, -, hs, -⟩ := insert_eq_some h
      rw [hs]
      exact hsize

/-! ## Room -/

/-- How many keys the table takes before it has to grow a second time. -/
def room (policy : ℕ → Option ℕ) (t : Table α) : ℕ :=
  t.free.length + ((policy t.size).getD 0 - t.size)

omit [DecidableEq α] in
theorem insert_isSome (t : Table α) {k : α} (hk : ∀ j, ¬ t.Holds j k) (h : t.free ≠ []) :
    ∃ i t', t.insert k hk = some (i, t') := by
  rw [insert]
  split
  · rename_i hnil
    exact absurd hnil h
  · exact ⟨_, _, rfl⟩

/-- While there is room a key gets a number, and takes up one place at most. -/
theorem intern_room {policy : ℕ → Option ℕ} (pinned : ℕ → Bool) {t : Table α} (k : α)
    (h : 0 < t.room policy) :
    ∃ i t', intern policy pinned t k = some (i, t') ∧ t.room policy ≤ t'.room policy + 1 := by
  rw [intern]
  split
  · rename_i i _
    refine ⟨_, _, rfl, ?_⟩
    cases pinned i <;> exact Nat.le_succ _
  · rename_i hf
    by_cases hfree : t.free = []
    · rw [if_pos hfree]
      rw [room, hfree] at h
      cases hp : policy t.size with
      | none =>
          rw [hp] at h
          simp at h
      | some newSize =>
          rw [hp] at h
          simp only [List.length_nil, Option.getD_some, Nat.zero_add] at h
          have hsize : t.size ≤ newSize := by omega
          simp only [dif_pos hsize]
          have hne : (t.grow newSize hsize).free ≠ [] := by
            rw [grow, ← List.length_pos_iff, List.length_map, List.length_range]
            exact h
          obtain ⟨i, t', hins⟩ := insert_isSome (t.grow newSize hsize) (fun j => find_none hf j) hne
          obtain ⟨-, -, -, hcons⟩ := insert_eq_some hins
          refine ⟨i, t', hins, ?_⟩
          have hlen := congrArg List.length hcons
          rw [grow, List.length_map, List.length_range, List.length_cons] at hlen
          rw [room, room, hfree, hp, Option.getD_some, List.length_nil]
          omega
    · rw [if_neg hfree]
      obtain ⟨i, t', hins⟩ := insert_isSome t (find_none hf) hfree
      obtain ⟨-, -, hsize, hcons⟩ := insert_eq_some hins
      refine ⟨i, t', hins, ?_⟩
      rw [room, room, hcons, hsize, List.length_cons]
      omega

/-- How many keys the table takes, when every table smaller than `bound` may grow. -/
def capacity (bound : ℕ) (t : Table α) : ℕ := t.free.length + (bound - t.size)

/-- Within its capacity the table grows as often as it has to. -/
theorem intern_capacity {policy : ℕ → Option ℕ} (pinned : ℕ → Bool) {t : Table α} (k : α) {bound : ℕ}
    (hpolicy : ∀ n < bound, ∃ n', policy n = some n' ∧ n < n') (h : 0 < t.capacity bound) :
    ∃ i t', intern policy pinned t k = some (i, t') ∧ t.capacity bound ≤ t'.capacity bound + 1 := by
  rw [intern]
  split
  · rename_i i _
    refine ⟨_, _, rfl, ?_⟩
    cases pinned i <;> exact Nat.le_succ _
  · rename_i hf
    by_cases hfree : t.free = []
    · rw [if_pos hfree]
      rw [capacity, hfree, List.length_nil, Nat.zero_add] at h
      obtain ⟨newSize, hp, hlt⟩ := hpolicy t.size (by omega)
      simp only [hp, dif_pos hlt.le]
      have hne : (t.grow newSize hlt.le).free ≠ [] := by
        rw [grow, ← List.length_pos_iff, List.length_map, List.length_range]
        omega
      obtain ⟨i, t', hins⟩ := insert_isSome (t.grow newSize hlt.le) (fun j => find_none hf j) hne
      obtain ⟨-, -, hsize, hcons⟩ := insert_eq_some hins
      refine ⟨i, t', hins, ?_⟩
      have hlen := congrArg List.length hcons
      rw [grow, List.length_map, List.length_range, List.length_cons] at hlen
      rw [capacity, capacity, hfree, hsize, List.length_nil]
      change 0 + (bound - t.size) ≤ t'.free.length + (bound - newSize) + 1
      omega
    · rw [if_neg hfree]
      obtain ⟨i, t', hins⟩ := insert_isSome t (find_none hf) hfree
      obtain ⟨-, -, hsize, hcons⟩ := insert_eq_some hins
      refine ⟨i, t', hins, ?_⟩
      rw [capacity, capacity, hcons, hsize, List.length_cons]
      omega

end Intern

section Room

variable {t : Table α} {i : ℕ}

theorem room_addRef (policy : ℕ → Option ℕ) : (t.addRef i).room policy = t.room policy := rfl

end Room

end Table

end Intern
