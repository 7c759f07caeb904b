import Mathlib

/-!
# Reading back what was written

A reader takes elements off the front of a list and may fail on the way (`StateT` over any
monad).  `Takes r bytes a` says that it takes exactly `bytes` and gives `a`, whatever comes
behind them; the rules follow the shape of the reader's code, so that the proof of a round
trip has one line for each field.

Two things that binary formats have besides are treated here as well: small numbers that
share a word (`setFlags`, `getFlag`), and keys that are numbered in the order in which the
writer meets them.  A writer of the second kind is described by what it writes once all
numbers are known (`Writes`): numbers are only ever added, so those that it used on the way
are the final ones.
-/

namespace Wire

/-! ## Readers -/

section Readers

variable {m : Type → Type} [Monad m] [LawfulMonad m] {σ α β : Type}

/-- The reader takes exactly `bytes` and gives `a`. -/
def Takes (r : StateT (List σ) m α) (bytes : List σ) (a : α) : Prop :=
  ∀ rest, r (bytes ++ rest) = pure (a, rest)

omit [LawfulMonad m] in
theorem Takes.pure (a : α) : Takes (Pure.pure a : StateT (List σ) m α) [] a := fun _ => rfl

/-- One part after another. -/
theorem Takes.bind {r : StateT (List σ) m α} {f : α → StateT (List σ) m β} {bytes bytes' : List σ}
    {a : α} {b : β} (h : Takes r bytes a) (h' : Takes (f a) bytes' b) :
    Takes (r >>= f) (bytes ++ bytes') b := by
  intro rest
  change (r (bytes ++ bytes' ++ rest) >>= fun p => f p.1 p.2) = Pure.pure (b, rest)
  rw [List.append_assoc, h, pure_bind]
  exact h' rest

/-- The last part, whose result is only packed up. -/
theorem Takes.last {r : StateT (List σ) m α} {f : α → StateT (List σ) m β} {bytes : List σ}
    {a : α} {b : β} (h : Takes r bytes a) (h' : f a = Pure.pure b) : Takes (r >>= f) bytes b := by
  rw [← List.append_nil bytes]
  refine h.bind ?_
  rw [h']
  exact Takes.pure b

/-- Read `n` times. -/
def replicate (r : StateT (List σ) m α) : ℕ → StateT (List σ) m (List α)
  | 0 => return []
  | n + 1 => do
    let x ← r
    let xs ← replicate r n
    return x :: xs

/-- A list whose items are written one after another. -/
theorem Takes.replicate {γ : Type} {r : StateT (List σ) m α} {bytes : γ → List σ} {item : γ → α}
    {xs : List γ} (h : ∀ x ∈ xs, Takes r (bytes x) (item x)) :
    Takes (replicate r xs.length) (xs.flatMap bytes) (xs.map item) := by
  induction xs with
  | nil => exact Takes.pure []
  | cons x xs ih =>
      have hxs := ih fun y hy => h y (List.mem_cons_of_mem x hy)
      rw [List.flatMap_cons, List.map_cons, List.length_cons, Wire.replicate]
      exact (h x List.mem_cons_self).bind (hxs.last rfl)

end Readers

/-! ## Numbers that share a word -/

/-- Put numbers of given widths side by side, the first one lowest; `idx` bits of `flags` are in
use already. -/
def setFlags : List (ℕ × ℕ) → ℕ → ℕ → ℕ
  | [], _, flags => flags
  | (val, width) :: fields, idx, flags => setFlags fields (idx + width) (flags ||| val <<< idx)

/-- The number of the given width at the bit `idx`. -/
def getFlag (flags idx width : ℕ) : ℕ := (flags >>> idx) &&& (2 ^ width - 1)

/-- The bits that the fields take up. -/
def widths (fields : List (ℕ × ℕ)) : ℕ := (fields.map Prod.snd).sum

section Flags

variable {fields : List (ℕ × ℕ)} {idx flags : ℕ}

/-- Fields that are put in later do not touch the bits below them. -/
theorem testBit_setFlags_of_lt {i : ℕ} (hi : i < idx) :
    (setFlags fields idx flags).testBit i = flags.testBit i := by
  induction fields generalizing idx flags with
  | nil => rfl
  | cons field fields ih =>
      obtain ⟨val, width⟩ := field
      rw [setFlags, ih (hi.trans_le (Nat.le_add_right idx width)), Nat.testBit_or,
        Nat.testBit_shiftLeft]
      simp [Nat.not_le.mpr hi]

/-- What is left of a word above the fields that are in it. -/
theorem setFlags_lt (hflags : flags < 2 ^ idx) (hfields : ∀ f ∈ fields, f.1 < 2 ^ f.2) :
    setFlags fields idx flags < 2 ^ (idx + widths fields) := by
  induction fields generalizing idx flags with
  | nil => exact hflags
  | cons field fields ih =>
      obtain ⟨val, width⟩ := field
      have hval : val < 2 ^ width := hfields (val, width) List.mem_cons_self
      have hor : flags ||| val <<< idx < 2 ^ (idx + width) := by
        refine Nat.or_lt_two_pow (hflags.trans_le (Nat.pow_le_pow_right Nat.two_pos (by omega))) ?_
        rw [Nat.shiftLeft_eq, Nat.mul_comm, Nat.pow_add]
        exact Nat.mul_lt_mul_of_pos_left hval (Nat.two_pow_pos idx)
      have := ih hor fun f hf => hfields f (List.mem_cons_of_mem _ hf)
      rwa [widths, List.map_cons, List.sum_cons, ← Nat.add_assoc]

/-- **Each field comes back**, from the bit behind the fields before it. -/
theorem getFlag_setFlags {before after : List (ℕ × ℕ)} {val width : ℕ}
    (hbefore : ∀ f ∈ before, f.1 < 2 ^ f.2) (hval : val < 2 ^ width) :
    getFlag (setFlags (before ++ (val, width) :: after) 0 0) (widths before) width = val := by
  have hsplit : ∀ (idx flags : ℕ), setFlags (before ++ (val, width) :: after) idx flags =
      setFlags after (idx + widths before + width)
        (setFlags before idx flags ||| val <<< (idx + widths before)) := by
    induction before with
    | nil => intro idx flags; rfl
    | cons field before ih =>
        intro idx flags
        obtain ⟨val', width'⟩ := field
        rw [List.cons_append, setFlags, ih (fun f hf => hbefore f (List.mem_cons_of_mem _ hf)),
          setFlags, widths, widths, List.map_cons, List.sum_cons]
        simp only [Nat.add_assoc]
  have hlow : setFlags before 0 0 < 2 ^ widths before := by
    simpa using @setFlags_lt before 0 0 (by simp) hbefore
  refine Nat.eq_of_testBit_eq fun i => ?_
  rw [getFlag, Nat.testBit_and, Nat.testBit_shiftRight, Nat.testBit_two_pow_sub_one, hsplit,
    Nat.zero_add]
  by_cases hi : i < width
  · rw [testBit_setFlags_of_lt (by omega), Nat.testBit_or, Nat.testBit_shiftLeft,
      Nat.testBit_lt_two_pow (hlow.trans_le (Nat.pow_le_pow_right Nat.two_pos (by omega)))]
    simp [hi]
  · have hhigh : val.testBit i = false :=
      Nat.testBit_lt_two_pow (hval.trans_le (Nat.pow_le_pow_right Nat.two_pos (by omega)))
    simp [hi, hhigh]

/-- The field with the index `k`. -/
theorem getFlag_field (h : ∀ f ∈ fields, f.1 < 2 ^ f.2) (k : ℕ) {val width : ℕ}
    (hk : fields[k]? = some (val, width)) :
    getFlag (setFlags fields 0 0) (widths (fields.take k)) width = val := by
  obtain ⟨hlt, hval⟩ := List.getElem?_eq_some_iff.mp hk
  have hsplit : fields = fields.take k ++ (val, width) :: fields.drop (k + 1) := by
    rw [← hval, List.cons_getElem_drop_succ, List.take_append_drop]
  have hmem : (val, width) ∈ fields := List.mem_of_getElem? hk
  have hbefore : ∀ f ∈ fields.take k, f.1 < 2 ^ f.2 := fun f hf => h f (List.mem_of_mem_take hf)
  have hget := @getFlag_setFlags _ (fields.drop (k + 1)) val width hbefore (h _ hmem)
  rwa [← hsplit] at hget

end Flags

/-! ## Keys that are numbered on the way -/

section Numbering

variable {m : Type → Type} [Monad m] [LawfulMonad m] {σ κ ι γ δ : Type}

/-- Where numbers come from: `look s k` is the number of the key `k` in the state `s`, if it is
known there, and a state comes after another when it has all its numbers. -/
structure Numbering (σ κ ι : Type) where
  ok : σ → Prop
  after : σ → σ → Prop
  known : σ → κ → Prop
  look : σ → κ → ι
  refl : ∀ s, after s s
  trans : ∀ s s' s'', after s s' → after s' s'' → after s s''
  known_after : ∀ s s' k, after s s' → known s k → known s' k

/-- What the writer gives is `val` of the final numbers: of those in its own last state, and in
every state after it.  The `keys` are known then. -/
def Writes (N : Numbering σ κ ι) (w : StateT σ m γ) (keys : List κ) (val : (κ → ι) → γ) : Prop :=
  ∀ s, N.ok s → ∃ c s', w s = pure (c, s') ∧ N.ok s' ∧ N.after s s' ∧ (∀ k ∈ keys, N.known s' k) ∧
    ∀ s'', N.ok s'' → N.after s' s'' → c = val (N.look s'')

variable {N : Numbering σ κ ι}

omit [LawfulMonad m] in
theorem Writes.pure (c : γ) : Writes N (Pure.pure c : StateT σ m γ) [] fun _ => c :=
  fun s hs => ⟨c, s, rfl, hs, N.refl s, by simp, fun _ _ _ => rfl⟩

theorem Writes.bind {w : StateT σ m γ} {f : γ → StateT σ m δ} {val : (κ → ι) → γ}
    {val' : γ → (κ → ι) → δ} {keys keys' : List κ} (h : Writes N w keys val)
    (h' : ∀ c, Writes N (f c) keys' (val' c)) :
    Writes N (w >>= f) (keys ++ keys') fun ix => val' (val ix) ix := by
  intro s hs
  obtain ⟨c, s₁, hw, hok, hafter, hkeys, hval⟩ := h s hs
  obtain ⟨d, s₂, hf, hok', hafter', hkeys', hval'⟩ := h' c s₁ hok
  refine ⟨d, s₂, ?_, hok', N.trans _ _ _ hafter hafter', fun k hk => ?_, fun s' hs' hle => ?_⟩
  · change (w s >>= fun p => f p.1 p.2) = _
    rw [hw, pure_bind]
    exact hf
  · rcases List.mem_append.mp hk with hk | hk
    · exact N.known_after _ _ k hafter' (hkeys k hk)
    · exact hkeys' k hk
  · have hc := hval s' hs' (N.trans _ _ _ hafter' hle)
    dsimp only
    rw [← hc]
    exact hval' s' hs' hle

/-- The last part, whose result is only packed up. -/
theorem Writes.map {w : StateT σ m γ} {val : (κ → ι) → γ} {keys : List κ} (h : Writes N w keys val)
    (f : γ → δ) : Writes N (f <$> w) keys fun ix => f (val ix) := by
  rw [map_eq_pure_bind, ← List.append_nil keys]
  exact h.bind fun c => Writes.pure (f c)

/-- Items that are written one after another. -/
theorem Writes.mapM {α : Type} {w : α → StateT σ m γ} {val : α → (κ → ι) → γ} {keys : α → List κ}
    {xs : List α} (h : ∀ x ∈ xs, Writes N (w x) (keys x) (val x)) :
    Writes N (xs.mapM w) (xs.flatMap keys) fun ix => xs.map fun x => val x ix := by
  induction xs with
  | nil => exact Writes.pure []
  | cons x xs ih =>
      have hxs := ih fun y hy => h y (List.mem_cons_of_mem x hy)
      rw [List.mapM_cons, List.flatMap_cons]
      simp only [← map_eq_pure_bind]
      exact (h x List.mem_cons_self).bind fun c => hxs.map (c :: ·)

end Numbering

end Wire
