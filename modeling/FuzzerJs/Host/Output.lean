import FuzzerJs.Engine.Value

/-!
# The output that `JS::Run` returns

After the target has run, `JS::Run` reads `FuzzerOutput`.  When it holds a string, the
length and then the characters are fetched with `JS_JSStringToChar`, which copies
`len` *bytes* of the storage of the string, whatever its representation, and ends them
with a zero; `std::string(char*)` then keeps what stands before the first zero.

The result determines the string only in part: `runOutput_faithful_iff` says exactly
which pairs of final values are reported faithfully.
-/

namespace FuzzerJs
namespace Host

/-! ## Extraction -/

/-- The return value of `JS_JSStringToChar`: the field `len`, or `-1` for a null pointer. -/
def jsStringToCharSize : Option JSString → ℤ
  | none => -1
  | some p => p.len

/-- What `JS_JSStringToChar` writes to a buffer of `len + 1` bytes. -/
def jsStringToChar (p : JSString) : List UInt8 := p.storage.take p.len ++ [0]

/-- `std::string(const char*)`: the bytes before the first zero. -/
def cString (buf : List UInt8) : List UInt8 := buf.takeWhile (· ≠ 0)

/-- `JS_IsString`. -/
def isString : JSValue → Bool
  | .string _ => true
  | _ => false

/-- The block "Extract output" of `JS::Run`, on the value of `FuzzerOutput`; `none` is
`std::nullopt`. -/
def runOutput (val : JSValue) : Option (List UInt8) :=
  match val with
  | .string p =>
    let size := jsStringToCharSize (some p)
    if size > 0 then some (cString (jsStringToChar p)) else none
  | _ => none

/-! ## Where the copy of a string stops -/

/-- The copy of `p` that is returned stops at `n`: no zero byte is stored before, and there
the string ends or a zero byte is stored. -/
def StopsAt (p : JSString) (n : ℕ) : Prop :=
  n ≤ p.len ∧ 0 ∉ p.storage.take n ∧ (n = p.len ∨ p.storage[n]? = some 0)

/-- Two strings are confusable when their storage agrees up to a point where both copies
stop. -/
def Confusable (p q : JSString) : Prop :=
  ∃ n, StopsAt p n ∧ StopsAt q n ∧ p.storage.take n = q.storage.take n

/-- Every list has a first zero, or none. -/
theorem exists_firstZero (l : List UInt8) :
    ∃ n ≤ l.length, 0 ∉ l.take n ∧ (n = l.length ∨ l[n]? = some 0) := by
  induction l with
  | nil => exact ⟨0, le_refl _, by simp, Or.inl rfl⟩
  | cons a t ih =>
      by_cases ha : a = 0
      · exact ⟨0, Nat.zero_le _, by simp, Or.inr (by simp [ha])⟩
      · obtain ⟨n, hn, h0, hstop⟩ := ih
        refine ⟨n + 1, by simpa using hn, ?_, ?_⟩
        · rw [List.take_succ_cons, List.mem_cons, not_or]
          exact ⟨fun h => ha h.symm, h0⟩
        · simpa using hstop

theorem takeWhile_ne_zero_eq_take {l : List UInt8} {n : ℕ} (h0 : 0 ∉ l.take n)
    (hn : l[n]? = some 0) : l.takeWhile (· ≠ 0) = l.take n := by
  induction l generalizing n with
  | nil => simp
  | cons a t ih =>
      cases n with
      | zero =>
          have ha : a = 0 := by simpa using hn
          simp [ha]
      | succ n =>
          rw [List.take_succ_cons, List.mem_cons, not_or] at h0
          have ha : a ≠ 0 := fun h => h0.1 h.symm
          rw [List.takeWhile_cons_of_pos (by simpa using ha), List.take_succ_cons]
          rw [ih h0.2 (by simpa using hn)]

/-- The copy of every string stops somewhere. -/
theorem exists_stopsAt (p : JSString) : ∃ n, StopsAt p n := by
  have hlen : (p.storage.take p.len).length = p.len := by
    rw [List.length_take, min_eq_left p.len_le_length_storage]
  obtain ⟨n, hn, h0, hstop⟩ := exists_firstZero (p.storage.take p.len)
  rw [hlen] at hn hstop
  rw [List.take_take, min_eq_left hn] at h0
  refine ⟨n, hn, h0, ?_⟩
  rcases hstop with hend | hzero
  · exact Or.inl hend
  · by_cases hend : n = p.len
    · exact Or.inl hend
    · rw [List.getElem?_take_of_lt (by omega)] at hzero
      exact Or.inr hzero

/-- What `JS::Run` returns for a string is its storage up to where the copy stops. -/
theorem cString_jsStringToChar {p : JSString} {n : ℕ} (h : StopsAt p n) :
    cString (jsStringToChar p) = p.storage.take n := by
  obtain ⟨hn, h0, hstop⟩ := h
  have hlen : (p.storage.take p.len).length = p.len := by
    rw [List.length_take, min_eq_left p.len_le_length_storage]
  have htake : (jsStringToChar p).take n = p.storage.take n := by
    rw [jsStringToChar, List.take_append_of_le_length (by omega), List.take_take, min_eq_left hn]
  have hzero : (jsStringToChar p)[n]? = some 0 := by
    rw [jsStringToChar]
    by_cases hend : n = p.len
    · rw [List.getElem?_append_right (by omega), hlen, hend, Nat.sub_self]
      rfl
    · rw [List.getElem?_append_left (by omega), List.getElem?_take_of_lt (by omega)]
      exact hstop.resolve_left hend
  rw [cString, takeWhile_ne_zero_eq_take (htake ▸ h0) hzero, htake]

theorem confusable_iff (p q : JSString) :
    Confusable p q ↔ cString (jsStringToChar p) = cString (jsStringToChar q) := by
  constructor
  · rintro ⟨n, hp, hq, heq⟩
    rw [cString_jsStringToChar hp, cString_jsStringToChar hq, heq]
  · intro h
    obtain ⟨n, hp⟩ := exists_stopsAt p
    obtain ⟨m, hq⟩ := exists_stopsAt q
    rw [cString_jsStringToChar hp, cString_jsStringToChar hq] at h
    -- both prefixes have their full length, so the two copies stop at the same place
    have hnm : n = m := by
      have hlp := p.len_le_length_storage
      have hlq := q.len_le_length_storage
      have hlen := congrArg List.length h
      rw [List.length_take, List.length_take, min_eq_left (hp.1.trans hlp),
        min_eq_left (hq.1.trans hlq)] at hlen
      exact hlen
    subst hnm
    exact ⟨n, hp, hq, h⟩

/-! ## Faithfulness -/

/-- The output of two runs that ended with `v` and `w` in `FuzzerOutput` is faithful: a run
returns a value exactly when it ended with a string, and two different strings give two
different results. -/
def OutputFaithful (v w : JSValue) : Prop :=
  ((runOutput v).isSome = isString v) ∧ ((runOutput w).isSome = isString w) ∧
    ∀ p q, v = .string p → w = .string q → p.codeUnits ≠ q.codeUnits →
      runOutput v ≠ runOutput w

theorem runOutput_string {p : JSString} (h : p.codeUnits ≠ []) :
    runOutput (.string p) = some (cString (jsStringToChar p)) := by
  have hpos : 0 < p.len := by
    rw [Ne, p.codeUnits_eq_nil_iff] at h
    omega
  have hsize : jsStringToCharSize (some p) > 0 := by
    simpa [jsStringToCharSize] using hpos
  simp [runOutput, hsize]

theorem runOutput_empty {p : JSString} (h : p.codeUnits = []) :
    runOutput (.string p) = none := by
  rw [p.codeUnits_eq_nil_iff] at h
  simp [runOutput, jsStringToCharSize, h]

/-- A value is reported exactly when it is a string, the empty string apart. -/
theorem runOutput_isSome_iff (v : JSValue) :
    (runOutput v).isSome = isString v ↔ ∀ p, v = .string p → p.codeUnits ≠ [] := by
  constructor
  · rintro h p rfl hp
    rw [runOutput_empty hp] at h
    exact absurd h (by simp [isString])
  · intro h
    cases v with
    | string p => rw [runOutput_string (h p rfl)]; rfl
    | _ => rfl

/-- **Which pairs of outputs are faithful.**  Exactly those where neither run ended with the
empty string and where two different strings are not confusable. -/
theorem runOutput_faithful_iff (v w : JSValue) :
    OutputFaithful v w ↔
      (∀ p, v = .string p → p.codeUnits ≠ []) ∧ (∀ q, w = .string q → q.codeUnits ≠ []) ∧
        ∀ p q, v = .string p → w = .string q → p.codeUnits ≠ q.codeUnits → ¬ Confusable p q := by
  rw [OutputFaithful, runOutput_isSome_iff, runOutput_isSome_iff]
  refine and_congr_right fun hv => and_congr_right fun hw => ?_
  refine forall_congr' fun p => forall_congr' fun q => forall_congr' fun hp =>
    forall_congr' fun hq => forall_congr' fun _ => not_congr ?_
  subst hp hq
  rw [runOutput_string (hv p rfl), runOutput_string (hw q rfl), confusable_iff, Option.some.injEq]

/-- The strings that are always reported faithfully against each other: stored one byte a
unit, not empty and without a zero unit. -/
theorem outputFaithful_of_latin1 {u w : List UInt8} (hu : u.length ≤ stringLenMax)
    (hw : w.length ≤ stringLenMax) (hu0 : u ≠ []) (hw0 : w ≠ []) (hz : 0 ∉ u) (hz' : 0 ∉ w) :
    OutputFaithful (.string ⟨.str8 u, hu⟩) (.string ⟨.str8 w, hw⟩) := by
  have hstop : ∀ {l : List UInt8} (hl : l.length ≤ stringLenMax) {n : ℕ}, 0 ∉ l →
      StopsAt ⟨.str8 l, hl⟩ n → n = l.length := by
    rintro l hl n hz ⟨-, -, hend | hzero⟩
    · exact hend
    · exact absurd (List.mem_of_getElem? hzero) hz
  rw [runOutput_faithful_iff]
  refine ⟨?_, ?_, ?_⟩
  · rintro p ⟨⟩
    simpa [JSString.codeUnits] using hu0
  · rintro q ⟨⟩
    simpa [JSString.codeUnits] using hw0
  · rintro p q ⟨⟩ ⟨⟩ hne ⟨n, hp, hq, heq⟩
    have hn := hstop hu hz hp
    have hm := hstop hw hz' hq
    refine hne ?_
    have hfull : u.take n = w.take n := heq
    rw [List.take_of_length_le (by omega), List.take_of_length_le (by omega)] at hfull
    exact congrArg (List.map UInt8.toUInt16) hfull

/-- Three ways to lose an output: the empty string is not reported; `"a"` and `"a\x00"` are
both reported as `"a"`; and so is the two-byte string `"aĀ"`, of which half is copied. -/
theorem runOutput_not_faithful :
    ¬ OutputFaithful (.string ⟨.str8 [], by decide⟩) .undefined ∧
    ¬ OutputFaithful (.string ⟨.str8 [0x61], by decide⟩)
      (.string ⟨.str8 [0x61, 0], by decide⟩) ∧
    ¬ OutputFaithful (.string ⟨.str8 [0x61], by decide⟩)
      (.string ⟨.str16 [0x61, 0x100], by decide⟩) := by
  refine ⟨fun h => ?_, fun h => ?_, fun h => ?_⟩
  · exact absurd h.1 (by decide)
  · exact h.2.2 _ _ rfl rfl (by decide) (by decide)
  · exact h.2.2 _ _ rfl rfl (by decide) (by decide)

end Host
end FuzzerJs
