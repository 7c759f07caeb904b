import Mathlib

/-!
# Hash tables with chains

Entries are numbered, and each of them may have a key.  An entry with a key stands in the chain
of the bucket of its key: the bucket has a link to the first entry of the chain, and every entry
has a link to the next one.

* `find` walks along a chain until it comes to an entry with the key; `findPrev` also remembers
  the entry before.
* `Chains` says that the chains are as they should be.  It is kept when an entry is put in front
  of its chain (`Chains.push`) or taken out (`Chains.unlink`), and it can be built up anew, for
  other buckets, from a list of all entries (`Chains.pushAll`).
* `Chains.find_eq_some_iff`: an entry is found exactly when it has the key.
-/

namespace HashChain

/-- The links of a table. -/
structure Links where
  head : ℕ → Option ℕ
  next : ℕ → Option ℕ

/-- The entries of a chain that begins with a link. -/
def Linked (next : ℕ → Option ℕ) : Option ℕ → List ℕ → Prop
  | x, [] => x = none
  | x, i :: l => x = some i ∧ Linked next (next i) l

/-- The entry is put in front of a chain. -/
def Links.push (L : Links) (b i : ℕ) : Links where
  head := Function.update L.head b (some i)
  next := Function.update L.next i (L.head b)

/-- The entry is taken out of the chain, where it follows `prev` or is the first. -/
def Links.unlink (L : Links) (b : ℕ) (prev : Option ℕ) (i : ℕ) : Links :=
  match prev with
  | some p => { L with next := Function.update L.next p (L.next i) }
  | none => { L with head := Function.update L.head b (L.next i) }

section Chain

variable {next next' : ℕ → Option ℕ} {x : Option ℕ} {l : List ℕ}

theorem Linked.congr (h : Linked next x l) (hsame : ∀ i ∈ l, next' i = next i) :
    Linked next' x l := by
  induction l generalizing x with
  | nil => exact h
  | cons i l ih =>
      refine ⟨h.1, ?_⟩
      rw [hsame i List.mem_cons_self]
      exact ih h.2 fun j hj => hsame j (List.mem_cons_of_mem _ hj)

/-- Another link of an entry that is not in the chain. -/
theorem Linked.update (h : Linked next x l) {i : ℕ} (hi : i ∉ l) (y : Option ℕ) :
    Linked (Function.update next i y) x l := by
  refine h.congr fun j hj => Function.update_of_ne ?_ ..
  rintro rfl
  exact hi hj

/-- Taking an entry out of the middle. -/
theorem Linked.unlink {l₁ l₂ : List ℕ} {p i : ℕ} (h : Linked next x (l₁ ++ p :: i :: l₂))
    (hnodup : (l₁ ++ p :: i :: l₂).Nodup) :
    Linked (Function.update next p (next i)) x (l₁ ++ p :: l₂) := by
  induction l₁ generalizing x with
  | nil =>
      obtain ⟨hx, -, hrest⟩ := h
      have hp : p ∉ l₂ := by
        have := (List.nodup_cons.mp hnodup).1
        simp at this
        exact this.2
      refine ⟨hx, ?_⟩
      rw [Function.update_self]
      exact hrest.update hp _
  | cons j l₁ ih =>
      obtain ⟨hx, hrest⟩ := h
      obtain ⟨hj, hnodup⟩ := List.nodup_cons.mp hnodup
      have hjp : j ≠ p := by
        rintro rfl
        simp at hj
      refine ⟨hx, ?_⟩
      rw [Function.update_of_ne hjp]
      exact ih hrest hnodup

end Chain

section Table

variable {κ : Type} [DecidableEq κ]

/-- The first entry of the chain that has the key. -/
def find (key : ℕ → Option κ) (next : ℕ → Option ℕ) (k : κ) : ℕ → Option ℕ → Option ℕ
  | _, none => none
  | 0, some _ => none
  | fuel + 1, some i => if key i = some k then some i else find key next k fuel (next i)

/-- The same with the entry before it. -/
def findPrev (key : ℕ → Option κ) (next : ℕ → Option ℕ) (k : κ) :
    ℕ → Option ℕ → Option ℕ → Option (Option ℕ × ℕ)
  | _, _, none => none
  | 0, _, some _ => none
  | fuel + 1, prev, some i =>
    if key i = some k then some (prev, i) else findPrev key next k fuel (some i) (next i)

/-- Every entry with a key is in the chain of its bucket, and in no other. -/
def Chains (bucket : κ → ℕ) (key : ℕ → Option κ) (L : Links) : Prop :=
  ∀ b, ∃ l, Linked L.next (L.head b) l ∧ l.Nodup ∧ ∀ i, i ∈ l ↔ ∃ k, key i = some k ∧ bucket k = b

/-- No key stands at two entries, and the entries with keys are below `N`. -/
structure Keys (key : ℕ → Option κ) (N : ℕ) : Prop where
  unique : ∀ {i j k}, key i = some k → key j = some k → i = j
  lt : ∀ {i k}, key i = some k → i < N

variable {bucket : κ → ℕ} {key : ℕ → Option κ} {L : Links} {N fuel i : ℕ} {k : κ}

omit [DecidableEq κ] in
/-- The chains are not longer than the table. -/
theorem Keys.length_le (h : Keys key N) {l : List ℕ} (hnodup : l.Nodup)
    (hl : ∀ i ∈ l, ∃ k, key i = some k) : l.length ≤ N := by
  have hsub : l.toFinset ⊆ Finset.range N := by
    intro i hi
    obtain ⟨k, hk⟩ := hl i (List.mem_toFinset.mp hi)
    exact Finset.mem_range.mpr (h.lt hk)
  have hcard := Finset.card_le_card hsub
  rwa [Finset.card_range, List.toFinset_card_of_nodup hnodup] at hcard

theorem find_eq {next : ℕ → Option ℕ} {x : Option ℕ} {l : List ℕ} (h : Linked next x l)
    (hfuel : l.length ≤ fuel) :
    find key next k fuel x = l.find? fun i => key i = some k := by
  induction l generalizing x fuel with
  | nil =>
      obtain rfl : x = none := h
      unfold find
      rfl
  | cons i l ih =>
      obtain ⟨rfl, hrest⟩ := h
      cases fuel with
      | zero => simp at hfuel
      | succ fuel =>
          rw [find, List.find?_cons]
          by_cases hi : key i = some k
          · simp [hi]
          · rw [if_neg hi, ih hrest (by simpa using hfuel)]
            simp [hi]

/-- **What is found**: the entry with the key, if there is one. -/
theorem Chains.find_eq_some_iff (h : Chains bucket key L) (hkeys : Keys key N) (hfuel : N ≤ fuel) :
    find key L.next k fuel (L.head (bucket k)) = some i ↔ key i = some k := by
  obtain ⟨l, hlinked, hnodup, hmem⟩ := h (bucket k)
  have hlen := hkeys.length_le hnodup fun i hi => by
    obtain ⟨k', hk', -⟩ := (hmem i).mp hi
    exact ⟨k', hk'⟩
  rw [find_eq hlinked (hlen.trans hfuel)]
  constructor
  · intro hfind
    simpa using List.find?_some hfind
  · intro hi
    have hin : i ∈ l := (hmem i).mpr ⟨k, hi, rfl⟩
    cases hfind : l.find? fun i => key i = some k with
    | none =>
        have := List.find?_eq_none.mp hfind i hin
        simp [hi] at this
    | some j =>
        have hj : key j = some k := by simpa using List.find?_some hfind
        rw [hkeys.unique hj hi]

/-- Where `findPrev` comes to. -/
theorem findPrev_eq_some {next : ℕ → Option ℕ} {x prev p : Option ℕ} {l : List ℕ}
    (h : Linked next x l) (hfind : findPrev key next k fuel prev x = some (p, i)) :
    key i = some k ∧ ∃ l₁ l₂, l = l₁ ++ i :: l₂ ∧ p = l₁.getLast?.or prev := by
  induction l generalizing x fuel prev with
  | nil =>
      obtain rfl : x = none := h
      cases fuel <;> simp [findPrev] at hfind
  | cons j l ih =>
      obtain ⟨rfl, hrest⟩ := h
      cases fuel with
      | zero => simp [findPrev] at hfind
      | succ fuel =>
          rw [findPrev] at hfind
          by_cases hj : key j = some k
          · rw [if_pos hj] at hfind
            obtain ⟨rfl, rfl⟩ := Prod.mk.inj (Option.some.inj hfind)
            exact ⟨hj, [], l, rfl, rfl⟩
          · rw [if_neg hj] at hfind
            obtain ⟨hi, l₁, l₂, rfl, hp⟩ := ih hrest hfind
            refine ⟨hi, j :: l₁, l₂, rfl, ?_⟩
            rw [hp, List.getLast?_cons]
            cases l₁.getLast? <;> rfl

/-- `findPrev` finds what `find` finds. -/
theorem findPrev_isSome {next : ℕ → Option ℕ} {x : Option ℕ} {prev : Option ℕ} :
    (findPrev key next k fuel prev x).map Prod.snd = find key next k fuel x := by
  induction fuel generalizing x prev with
  | zero => cases x <;> rfl
  | succ fuel ih =>
      cases x with
      | none => rfl
      | some i =>
          rw [findPrev, find]
          by_cases hi : key i = some k
          · rw [if_pos hi, if_pos hi]
            rfl
          · rw [if_neg hi, if_neg hi, ih]

omit [DecidableEq κ] in
theorem chains_empty (bucket : κ → ℕ) (next : ℕ → Option ℕ) :
    Chains bucket (fun _ => none) ⟨fun _ => none, next⟩ := by
  intro b
  exact ⟨[], rfl, List.nodup_nil, by simp⟩

omit [DecidableEq κ] in
/-- Only the links of the buckets and of the entries with keys count. -/
theorem Chains.congr {L' : Links} (h : Chains bucket key L) (hhead : ∀ b, L'.head b = L.head b)
    (hnext : ∀ i k, key i = some k → L'.next i = L.next i) : Chains bucket key L' := by
  intro b
  obtain ⟨l, hlinked, hnodup, hmem⟩ := h b
  refine ⟨l, ?_, hnodup, hmem⟩
  rw [hhead]
  refine hlinked.congr fun i hi => ?_
  obtain ⟨k, hk, -⟩ := (hmem i).mp hi
  exact hnext i k hk

omit [DecidableEq κ] in
/-- **An entry gets a key.** -/
theorem Chains.push (h : Chains bucket key L) (hi : key i = none) (k : κ) :
    Chains bucket (Function.update key i (some k)) (L.push (bucket k) i) := by
  have hout : ∀ {b : ℕ} {l : List ℕ}, (∀ j, j ∈ l ↔ ∃ k, key j = some k ∧ bucket k = b) → i ∉ l := by
    intro b l hmem hin
    obtain ⟨k', hk', -⟩ := (hmem i).mp hin
    rw [hi] at hk'
    exact absurd hk' (by simp)
  intro b
  obtain ⟨l, hlinked, hnodup, hmem⟩ := h b
  by_cases hb : b = bucket k
  · subst hb
    refine ⟨i :: l, ⟨Function.update_self .., ?_⟩, List.nodup_cons.mpr ⟨hout hmem, hnodup⟩,
      fun j => ?_⟩
    · have hnext : (L.push (bucket k) i).next i = L.head (bucket k) := Function.update_self ..
      rw [hnext]
      exact hlinked.update (hout hmem) _
    · rw [List.mem_cons, hmem]
      by_cases hj : j = i
      · simp [hj]
      · simp [hj]
  · have hhead : (L.push (bucket k) i).head b = L.head b := Function.update_of_ne hb ..
    refine ⟨l, ?_, hnodup, fun j => ?_⟩
    · rw [hhead]
      exact hlinked.update (hout hmem) _
    · rw [hmem]
      by_cases hj : j = i
      · simp [hj, hi, Ne.symm hb]
      · simp [hj]

/-- **An entry loses its key.** -/
theorem Chains.unlink (h : Chains bucket key L) {p : Option ℕ}
    (hfind : findPrev key L.next k fuel none (L.head (bucket k)) = some (p, i)) :
    Chains bucket (Function.update key i none) (L.unlink (bucket k) p i) := by
  obtain ⟨l, hlinked, hnodup, hmem⟩ := h (bucket k)
  obtain ⟨hi, l₁, l₂, rfl, hp⟩ := findPrev_eq_some hlinked hfind
  have hmem' : ∀ j, j ∈ l₁ ++ l₂ ↔ ∃ k', Function.update key i none j = some k' ∧
      bucket k' = bucket k := by
    intro j
    have hperm : (l₁ ++ i :: l₂).Perm (i :: (l₁ ++ l₂)) := List.perm_middle
    have hnot : i ∉ l₁ ++ l₂ := (List.nodup_cons.mp (hperm.nodup_iff.mp hnodup)).1
    by_cases hj : j = i
    · subst hj
      simp [hnot]
    · rw [Function.update_of_ne hj, ← hmem, hperm.mem_iff, List.mem_cons]
      simp [hj]
  have hnodup' : (l₁ ++ l₂).Nodup := by
    have hsub : (l₁ ++ l₂).Sublist (l₁ ++ i :: l₂) :=
      (List.Sublist.refl l₁).append (List.sublist_cons_self i l₂)
    exact hsub.nodup hnodup
  -- the other chains do not meet this one
  have hother : ∀ b, b ≠ bucket k → ∃ l, Linked L.next (L.head b) l ∧ l.Nodup ∧
      (∀ j, j ∈ l ↔ ∃ k', Function.update key i none j = some k' ∧ bucket k' = b) ∧
      ∀ j ∈ l, j ∉ l₁ ++ i :: l₂ := by
    intro b hb
    obtain ⟨l, hl, hnd, hm⟩ := h b
    have hdisj : ∀ j ∈ l, j ∉ l₁ ++ i :: l₂ := by
      intro j hj hin
      obtain ⟨k', hk', rfl⟩ := (hm j).mp hj
      obtain ⟨k'', hk'', heq⟩ := (hmem j).mp hin
      rw [hk'] at hk''
      obtain rfl := Option.some.inj hk''
      exact hb heq
    refine ⟨l, hl, hnd, fun j => ?_, hdisj⟩
    by_cases hj : j = i
    · subst hj
      have hnot : j ∉ l := fun hin => hdisj j hin (by simp)
      simp [hnot]
    · rw [Function.update_of_ne hj]
      exact hm j
  intro b
  rcases List.eq_nil_or_concat l₁ with rfl | ⟨l₀, q, rfl⟩
  · -- the first of its chain
    obtain rfl : p = none := hp
    by_cases hb : b = bucket k
    · subst hb
      refine ⟨l₂, ?_, hnodup', hmem'⟩
      have hhead : (L.unlink (bucket k) none i).head (bucket k) = L.next i := Function.update_self ..
      rw [hhead]
      exact hlinked.2
    · obtain ⟨l, hl, hnd, hm, -⟩ := hother b hb
      refine ⟨l, ?_, hnd, hm⟩
      have hhead : (L.unlink (bucket k) none i).head b = L.head b := Function.update_of_ne hb ..
      rw [hhead]
      exact hl
  · rw [List.concat_eq_append] at *
    obtain rfl : p = some q := by
      rw [hp]
      simp
    by_cases hb : b = bucket k
    · subst hb
      refine ⟨l₀ ++ [q] ++ l₂, ?_, hnodup', hmem'⟩
      have hchain : Linked L.next (L.head (bucket k)) (l₀ ++ q :: i :: l₂) := by
        simpa using hlinked
      have hnd : (l₀ ++ q :: i :: l₂).Nodup := by simpa using hnodup
      simpa [Links.unlink] using hchain.unlink hnd
    · obtain ⟨l, hl, hnd, hm, hdisj⟩ := hother b hb
      refine ⟨l, ?_, hnd, hm⟩
      exact hl.update (fun hq => hdisj q hq (by simp)) _

/-! ## Other buckets -/

/-- Put the entries of a list in front of their chains, one after the other. -/
def Links.pushAll (bucket : κ → ℕ) (key : ℕ → Option κ) : List ℕ → Links → Links
  | [], L => L
  | i :: is, L => Links.pushAll bucket key is (match key i with
    | some k => L.push (bucket k) i
    | none => L)

/-- The entries of a set. -/
def restrict (key : ℕ → Option κ) (is : List ℕ) (i : ℕ) : Option κ := if i ∈ is then key i else none

omit [DecidableEq κ] in
theorem Chains.pushAll {is : List ℕ} : ∀ {seen : List ℕ} {L : Links},
    Chains bucket (restrict key seen) L → is.Nodup → (∀ i ∈ is, i ∉ seen) →
      Chains bucket (restrict key (is ++ seen)) (L.pushAll bucket key is) := by
  induction is with
  | nil => intro seen L h _ _; exact h
  | cons i is ih =>
      intro seen L h hnodup hnew
      obtain ⟨hi, hnodup⟩ := List.nodup_cons.mp hnodup
      have hnone : restrict key seen i = none := if_neg (hnew i List.mem_cons_self)
      have hstep : ∀ {L' : Links}, Chains bucket (restrict key (i :: seen)) L' →
          Chains bucket (restrict key (i :: is ++ seen)) (L'.pushAll bucket key is) := by
        intro L' hL'
        have hall := ih hL' hnodup fun j hj => by
          rw [List.mem_cons, not_or]
          refine ⟨?_, hnew j (List.mem_cons_of_mem _ hj)⟩
          rintro rfl
          exact hi hj
        have heq : restrict key (is ++ i :: seen) = restrict key (i :: is ++ seen) := by
          funext j
          unfold restrict
          congr 1
          simp
          tauto
        rwa [heq] at hall
      unfold Links.pushAll
      cases hkey : key i with
      | none =>
          refine hstep ?_
          have heq : restrict key (i :: seen) = restrict key seen := by
            funext j
            by_cases hj : j = i
            · simp [restrict, hj, hkey]
            · simp [restrict, hj]
          rwa [heq]
      | some k =>
          refine hstep ?_
          have heq : restrict key (i :: seen) = Function.update (restrict key seen) i (some k) := by
            funext j
            by_cases hj : j = i
            · simp [restrict, hj, hkey]
            · simp [restrict, hj]
          rw [heq]
          exact h.push hnone k

omit [DecidableEq κ] in
/-- **A new table** from a list of all entries. -/
theorem chains_pushAll (bucket : κ → ℕ) (next : ℕ → Option ℕ) {is : List ℕ} (hnodup : is.Nodup)
    (hall : ∀ i k, key i = some k → i ∈ is) :
    Chains bucket key (Links.pushAll bucket key is ⟨fun _ => none, next⟩) := by
  have hnone : restrict key [] = fun _ => none := rfl
  have h := @Chains.pushAll κ bucket key is [] _ (hnone ▸ chains_empty bucket next) hnodup (by simp)
  have heq : restrict key (is ++ []) = key := by
    funext i
    rw [List.append_nil, restrict]
    cases hkey : key i with
    | none => simp
    | some k => rw [if_pos (hall i k hkey)]
  rwa [heq] at h

end Table

end HashChain
