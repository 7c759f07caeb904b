import FuzzerJs.Lib.Search
import FuzzerJs.Engine.BytecodeReader

/-!
# The size of the stack

`compute_stack_size` follows the code of a function from its start and records, for each place
that it comes to, how many values are on the stack there.  The interpreter then reserves as many
slots as the largest number that was found, and checks nothing while it runs.

* `stackMoves` are the edges of the control flow as the table of opcodes describes it.  Where
  `OP_ret` goes depends on a value on the stack, and a path ends there; the height behind an
  exception is that which `OP_catch` left.
* `computeStackSizeOf` is the algorithm: the recursion as a stack of pending calls, and a table
  with entries of sixteen bits in which `0xffff` stands for a place that is not yet known.
* `computeStackSizeOf_iff`: below `0xffff` the algorithm accepts exactly the code that on the paths
  of this graph never leaves its buffer, never takes a value from an empty stack, has the same
  height each time that it comes to a place, and fits into the size that is found.
-/

namespace FuzzerJs
namespace Engine

open Search

/-! ## The instructions -/

/-- `n_pop` in `opcode_info`, without the temporary instructions. -/
def opcodePops : List ℕ :=
  [0, 0, 0, 0, 0, 0, 0, 0, 0, 0, 0, 0, 0, 0, 1, 2, 3, 1, 2, 2, 3, 2, 3, 4, 3, 4, 5, 2, 4, 3, 3, 4,
    5, 2, 1, 1, 2, 2, 0, 3, 1, 0, 1, 0, 2, 2, 1, 1, 0, 1, 2, 2, 1, 1, 1, 0, 0, 0, 1, 1, 2, 2, 3, 0,
    0, 1, 1, 1, 2, 2, 3, 3, 2, 2, 3, 3, 4, 2, 1, 2, 2, 2, 3, 3, 3, 2, 3, 2, 3, 0, 1, 1, 0, 1, 1, 0,
    1, 1, 0, 0, 1, 1, 0, 1, 1, 0, 1, 1, 0, 0, 0, 1, 1, 1, 2, 1, 2, 1, 1, 1, 1, 0, 0, 0, 0, 1, 1, 1,
    1, 3, 3, 1, 3, 4, 3, 4, 4, 0, 1, 2, 1, 1, 1, 1, 1, 1, 1, 1, 0, 0, 1, 1, 1, 1, 2, 0, 2, 2, 2, 2,
    2, 2, 2, 2, 2, 2, 2, 2, 2, 2, 2, 2, 2, 2, 2, 2, 2, 2, 0, 0, 0, 0, 0, 0, 0, 0, 0, 0, 0, 0, 0, 0,
    0, 0, 1, 1, 0, 0, 0, 0, 1, 1, 1, 1, 1, 1, 1, 1, 0, 0, 0, 0, 1, 1, 1, 1, 1, 1, 1, 1, 0, 0, 0, 0,
    1, 1, 1, 1, 1, 1, 1, 1, 1, 1, 1, 0, 0, 1, 1, 1, 1, 1, 1, 1]

/-- `n_push` in `opcode_info`, without the temporary instructions. -/
def opcodePushes : List ℕ :=
  [0, 1, 1, 1, 1, 1, 1, 1, 1, 1, 1, 1, 1, 1, 0, 1, 2, 2, 3, 4, 6, 3, 4, 5, 3, 4, 5, 2, 4, 3, 3, 4,
    5, 1, 1, 0, 1, 0, 1, 1, 0, 0, 2, 0, 2, 0, 0, 0, 0, 1, 1, 1, 1, 1, 1, 1, 1, 1, 0, 0, 0, 3, 0, 0,
    0, 0, 1, 2, 0, 1, 0, 1, 1, 2, 0, 1, 0, 1, 1, 2, 1, 2, 2, 2, 3, 1, 1, 2, 3, 1, 0, 1, 1, 0, 1, 1,
    0, 1, 0, 1, 0, 0, 1, 0, 0, 0, 0, 0, 0, 1, 0, 0, 1, 1, 2, 0, 1, 0, 0, 0, 0, 2, 2, 2, 2, 1, 3, 3,
    3, 5, 4, 2, 0, 4, 2, 4, 5, 0, 2, 2, 2, 1, 1, 1, 1, 1, 2, 2, 0, 0, 0, 1, 1, 1, 1, 1, 1, 1, 1, 1,
    1, 1, 1, 1, 1, 1, 1, 1, 1, 1, 1, 1, 1, 1, 1, 1, 1, 1, 0, 1, 1, 1, 1, 1, 1, 1, 1, 1, 1, 1, 1, 1,
    1, 1, 0, 1, 1, 1, 1, 1, 0, 0, 0, 0, 1, 1, 1, 1, 1, 1, 1, 1, 0, 0, 0, 0, 1, 1, 1, 1, 1, 1, 1, 1,
    0, 0, 0, 0, 1, 1, 1, 1, 1, 0, 0, 0, 0, 1, 1, 1, 1, 1, 1, 1]

/-- `OP_COUNT`. -/
def opCount : ℕ := 244

/-- The instructions with the format `npop` or `npop_u16`. -/
def npopOpcodes : List ℕ := [33, 34, 35, 36, 37, 38, 49]

/-- `OP_call0` to `OP_call3`, with the format `npopx`. -/
def npopxOpcodes : List ℕ := [237, 238, 239, 240]

/-- What follows an instruction. -/
inductive JumpKind where
  /-- The next instruction. -/
  | next
  /-- The function is left; `OP_ret` takes an address from the stack. -/
  | stop
  /-- `OP_goto` and its short forms: a label of `w` bytes. -/
  | goto (w : ℕ)
  /-- `OP_if_true`, `OP_if_false` and their short forms. -/
  | branch (w : ℕ)
  /-- `OP_catch`: the label is where an exception leads to. -/
  | catchLabel
  /-- `OP_gosub`: the return address is pushed, and is gone after the return. -/
  | gosub
  /-- `OP_with_get_var` and `OP_with_delete_var`. -/
  | withValue
  /-- `OP_with_make_ref`, `OP_with_get_ref` and `OP_with_get_ref_undef`. -/
  | withRef
  /-- `OP_with_put_var`. -/
  | withPut
  deriving DecidableEq

/-- The cases of `switch(op)` in `compute_stack_size_rec`. -/
def jumpKind (op : ℕ) : JumpKind :=
  if op ∈ [35, 37, 40, 41, 46, 47, 48, 111] then .stop
  else if op = 108 then .goto 4
  else if op = 236 then .goto 2
  else if op = 235 then .goto 1
  else if op = 233 ∨ op = 234 then .branch 1
  else if op = 106 ∨ op = 107 then .branch 4
  else if op = 109 then .catchLabel
  else if op = 110 then .gosub
  else if op = 115 ∨ op = 117 then .withValue
  else if op = 118 ∨ op = 119 ∨ op = 120 then .withRef
  else if op = 116 then .withPut
  else .next

section Code

variable (bc : List UInt8)

/-- The instruction at `n`. -/
def opAt (n : ℕ) : ℕ := (bc.getD n 0).toNat

/-- A signed number of `w` bytes. -/
def getInt (w n : ℕ) : ℤ := (BitVec.ofNat (8 * w) (Read.littleEndian ((bc.drop n).take w))).toInt

/-- The values that the instruction at `n` takes from the stack. -/
def nPopAt (n : ℕ) : ℕ :=
  let op := opAt bc n
  opcodePops.getD op 0 +
    if op ∈ npopOpcodes then Read.littleEndian ((bc.drop (n + 1)).take 2)
    else if op ∈ npopxOpcodes then op - 237
    else 0

/-- The values that the instruction at `n` puts on the stack. -/
def nPushAt (n : ℕ) : ℕ := opcodePushes.getD (opAt bc n) 0

/-- The place behind the instruction at `n`. -/
def posNext (n : ℕ) : ℕ := n + opcodeSizes.getD (opAt bc n) 0

/-- The place that a label of `w` bytes leads to. -/
def labelAt (w n : ℕ) : ℤ := n + 1 + getInt bc w (n + 1)

/-- The label behind an atom. -/
def withLabelAt (n : ℕ) : ℤ := n + 5 + getInt bc 4 (n + 5)

/-! ## The control flow -/

/-- The places behind the instruction at `n`, each with the height of the stack there, when there
were `level` values on it before. -/
def stackMoves (n level : ℕ) : List (ℤ × ℕ) :=
  match jumpKind (opAt bc n) with
  | .stop => []
  | .goto w => [(labelAt bc w n, level)]
  | .branch w => [(labelAt bc w n, level - 1), (posNext bc n, level - 1)]
  | .catchLabel => [(labelAt bc 4 n, level + 1), (posNext bc n, level + 1)]
  | .gosub => [(labelAt bc 4 n, level + 1), (posNext bc n, level)]
  | .withValue => [(withLabelAt bc n, level), (posNext bc n, level - 1)]
  | .withRef => [(withLabelAt bc n, level + 1), (posNext bc n, level - 1)]
  | .withPut => [(withLabelAt bc n, level - 2), (posNext bc n, level - 1)]
  | .next => [(posNext bc n, level - nPopAt bc n + nPushAt bc n)]

/-- One instruction. -/
def StackMove (x y : ℤ × ℕ) : Prop := ∃ n : ℕ, x.1 = n ∧ y ∈ stackMoves bc n x.2

/-- A place on a path from the start, with the height of the stack there. -/
def StackReaches (x : ℤ × ℕ) : Prop := Relation.ReflTransGen (StackMove bc) (0, 0) x

/-- There is an instruction, and there are values enough for it. -/
structure InstrSafe (pos : ℤ) (level : ℕ) : Prop where
  nonneg : 0 ≤ pos
  lt : pos < bc.length
  valid : opAt bc pos.toNat ≠ 0 ∧ opAt bc pos.toNat < opCount
  inside : posNext bc pos.toNat ≤ bc.length
  pops : nPopAt bc pos.toNat ≤ level

/-- On every path the stack stays between its ends when there are `k` slots. -/
structure StackSafe (k : ℕ) : Prop where
  instr : ∀ {pos level}, StackReaches bc (pos, level) → InstrSafe bc pos level
  level_le : ∀ {pos level}, StackReaches bc (pos, level) → level ≤ k
  after_le : ∀ {pos level}, StackReaches bc (pos, level) →
    level - nPopAt bc pos.toNat + nPushAt bc pos.toNat ≤ k
  consistent : ∀ {pos level level'}, StackReaches bc (pos, level) → StackReaches bc (pos, level') →
    level = level'

end Code

/-! ## The algorithm -/

/-- What `compute_stack_size_rec` throws. -/
inductive StackError where
  | unconsistent (tab stackLen : ℕ) (pos : ℤ)
  | invalidOpcode (op : ℕ) (pos : ℤ)
  | bufferOverflow (op : ℕ) (pos : ℤ)
  | underflow (op : ℕ) (pos : ℤ)
  | overflow (op : ℕ) (pos : ℤ)
  deriving DecidableEq

/-- The text of the error. -/
def StackError.message : StackError → String
  | .unconsistent tab stackLen pos => s!"unconsistent stack size: {tab} {stackLen} (pc={pos})"
  | .invalidOpcode op pos => s!"invalid opcode (op={op}, pc={pos})"
  | .bufferOverflow op pos => s!"bytecode buffer overflow (op={op}, pc={pos})"
  | .underflow op pos => s!"stack underflow (op={op}, pc={pos})"
  | .overflow op pos => s!"stack overflow (op={op}, pc={pos})"

/-- `StackSizeState`. -/
structure StackSizeState where
  stackLenMax : ℕ
  stackLevelTab : ℕ → BitVec 16

/-- A call of `compute_stack_size_rec`, or a round of its loop. -/
inductive StackCall where
  | enter (pos : ℤ) (op stackLen : ℕ)
  | loop (pos : ℤ) (op stackLen : ℕ)
  deriving DecidableEq

/-- The place and the height of a call. -/
def StackCall.target : StackCall → ℤ × ℕ
  | .enter pos _ stackLen => (pos, stackLen)
  | .loop pos _ stackLen => (pos, stackLen)

/-- `JS_STACK_SIZE_MAX`. -/
def jsStackSizeMax : ℕ := 65536

/-- A larger stack. -/
def raiseMax (pos : ℤ) (op stackLen : ℕ) (s : StackSizeState) : Except StackError StackSizeState :=
  if s.stackLenMax < stackLen then
    if jsStackSizeMax < stackLen then .error (.overflow op pos)
    else .ok { s with stackLenMax := stackLen }
  else .ok s

section Algorithm

variable (bc : List UInt8)

/-- What `compute_stack_size_rec` goes on with, when there are `stackLen` values on the stack
after the instruction at `n`. -/
def stackCalls (n stackLen : ℕ) : List StackCall :=
  let op := opAt bc n
  match jumpKind op with
  | .stop => []
  | .goto w => [.loop (labelAt bc w n) op stackLen]
  | .branch w => [.enter (labelAt bc w n) op stackLen, .loop (posNext bc n) op stackLen]
  | .catchLabel => [.enter (labelAt bc 4 n) op stackLen, .loop (posNext bc n) op stackLen]
  | .gosub => [.enter (labelAt bc 4 n) op (stackLen + 1), .loop (posNext bc n) op stackLen]
  | .withValue => [.enter (withLabelAt bc n) op (stackLen + 1), .loop (posNext bc n) op stackLen]
  | .withRef => [.enter (withLabelAt bc n) op (stackLen + 2), .loop (posNext bc n) op stackLen]
  | .withPut => [.enter (withLabelAt bc n) op (stackLen - 1), .loop (posNext bc n) op stackLen]
  | .next => [.loop (posNext bc n) op stackLen]

/-- A place that was not known: the rest of the loop. -/
def stackInstr (n stackLen : ℕ) (s : StackSizeState) :
    Except StackError (List StackCall × StackSizeState) :=
  let op := opAt bc n
  if op = 0 ∨ opCount ≤ op then .error (.invalidOpcode op n)
  else if bc.length < posNext bc n then .error (.bufferOverflow op n)
  else if stackLen < nPopAt bc n then .error (.underflow op n)
  else
    let stackLen := stackLen - nPopAt bc n + nPushAt bc n
    (raiseMax n op stackLen s).map fun s => (stackCalls bc n stackLen, s)

/-- A round of the loop. -/
def stackLoop (pos : ℤ) (op stackLen : ℕ) (s : StackSizeState) :
    Except StackError (List StackCall × StackSizeState) :=
  if pos < 0 ∨ bc.length ≤ pos then .error (.bufferOverflow op pos)
  else if s.stackLevelTab pos.toNat ≠ 0xffff#16 then
    if (s.stackLevelTab pos.toNat).toNat ≠ stackLen then
      .error (.unconsistent (s.stackLevelTab pos.toNat).toNat stackLen pos)
    else .ok ([], s)
  else
    stackInstr bc pos.toNat stackLen { s with
      stackLevelTab := Function.update s.stackLevelTab pos.toNat (BitVec.ofNat 16 stackLen) }

/-- One pending call. -/
def stackExec : StackCall → StackSizeState → Except StackError (List StackCall × StackSizeState)
  | .enter pos op stackLen, s =>
    (raiseMax pos op stackLen s).map fun s => ([.loop pos op stackLen], s)
  | .loop pos op stackLen, s => stackLoop bc pos op stackLen s

/-- `compute_stack_size`. -/
def computeStackSizeOf (fuel : ℕ) : Except (Option StackError) ℕ := do
  let s ← run (stackExec bc) fuel [.enter 0 0 0] ⟨0, fun _ => 0xffff#16⟩
  return s.stackLenMax

end Algorithm

/-! ## One call -/

/-- What an instruction with a label takes from the stack and puts there. -/
def jumpStack : JumpKind → Option (ℕ × ℕ)
  | .next => none
  | .stop => none
  | .goto _ => some (0, 0)
  | .branch _ => some (1, 0)
  | .catchLabel => some (0, 1)
  | .gosub => some (0, 0)
  | .withValue => some (1, 0)
  | .withRef => some (1, 0)
  | .withPut => some (2, 1)

set_option maxRecDepth 20000 in
theorem jumpStack_table : ∀ op < opCount, ∀ e ∈ jumpStack (jumpKind op),
    opcodePops.getD op 0 = e.1 ∧ opcodePushes.getD op 0 = e.2 ∧ op ∉ npopOpcodes ∧
      op ∉ npopxOpcodes := by
  decide

section Step

variable {bc : List UInt8} {n level : ℕ} {pos : ℤ} {s s' : StackSizeState}

theorem nPopAt_of_jump (hop : opAt bc n < opCount) {e : ℕ × ℕ}
    (he : jumpStack (jumpKind (opAt bc n)) = some e) : nPopAt bc n = e.1 ∧ nPushAt bc n = e.2 := by
  obtain ⟨hpop, hpush, hnpop, hnpopx⟩ := jumpStack_table _ hop e he
  refine ⟨?_, hpush⟩
  unfold nPopAt
  dsimp only
  rw [hpop, if_neg hnpop, if_neg hnpopx, Nat.add_zero]

/-- **The algorithm follows the edges.** -/
theorem stackCalls_target (hop : opAt bc n < opCount) (hpop : nPopAt bc n ≤ level) :
    (stackCalls bc n (level - nPopAt bc n + nPushAt bc n)).map StackCall.target =
      stackMoves bc n level := by
  have hstack := fun {e} => @nPopAt_of_jump bc n hop e
  unfold stackCalls stackMoves
  dsimp only
  cases hkind : jumpKind (opAt bc n) with
  | next => simp [StackCall.target]
  | stop => rfl
  | goto w =>
      obtain ⟨h₁, h₂⟩ := hstack (by rw [hkind]; rfl)
      simp [StackCall.target, h₁, h₂]
  | branch w =>
      obtain ⟨h₁, h₂⟩ := hstack (by rw [hkind]; rfl)
      simp [StackCall.target, h₁, h₂]
  | catchLabel =>
      obtain ⟨h₁, h₂⟩ := hstack (by rw [hkind]; rfl)
      simp [StackCall.target, h₁, h₂]
  | gosub =>
      obtain ⟨h₁, h₂⟩ := hstack (by rw [hkind]; rfl)
      simp [StackCall.target, h₁, h₂]
  | withValue =>
      obtain ⟨h₁, h₂⟩ := hstack (by rw [hkind]; rfl)
      rw [h₁] at hpop
      simp [StackCall.target, h₁, h₂]
      omega
  | withRef =>
      obtain ⟨h₁, h₂⟩ := hstack (by rw [hkind]; rfl)
      rw [h₁] at hpop
      simp [StackCall.target, h₁, h₂]
      omega
  | withPut =>
      obtain ⟨h₁, h₂⟩ := hstack (by rw [hkind]; rfl)
      rw [h₁] at hpop
      simp [StackCall.target, h₁, h₂]
      omega

theorem stackLen_of_loop_mem {op stackLen len : ℕ} (h : .loop pos op len ∈ stackCalls bc n stackLen) :
    len = stackLen := by
  unfold stackCalls at h
  dsimp only at h
  cases hkind : jumpKind (opAt bc n) with
  | stop => simp [hkind] at h
  | goto w => simp [hkind] at h; exact h.2.2
  | next => simp [hkind] at h; exact h.2.2
  | branch w => simp [hkind] at h; exact h.2.2
  | catchLabel => simp [hkind] at h; exact h.2.2
  | gosub => simp [hkind] at h; exact h.2.2
  | withValue => simp [hkind] at h; exact h.2.2
  | withRef => simp [hkind] at h; exact h.2.2
  | withPut => simp [hkind] at h; exact h.2.2

/-- A larger stack is accepted up to the limit. -/
theorem raiseMax_eq {op stackLen : ℕ} (h : stackLen ≤ jsStackSizeMax) :
    raiseMax pos op stackLen s = .ok { s with stackLenMax := max s.stackLenMax stackLen } := by
  unfold raiseMax
  split
  · rename_i hlt
    rw [if_neg (by omega), max_eq_right (by omega)]
  · rename_i hle
    rw [max_eq_left (by omega)]

theorem raiseMax_ok {op stackLen : ℕ} (h : raiseMax pos op stackLen s = .ok s') :
    s' = { s with stackLenMax := max s.stackLenMax stackLen } := by
  unfold raiseMax at h
  split at h
  · rename_i hlt
    split at h
    · exact absurd h (by simp)
    · rw [max_eq_right (by omega)]
      exact (Except.ok.inj h).symm
  · rename_i hle
    rw [max_eq_left (by omega)]
    exact (Except.ok.inj h).symm

/-- The state after a place has become known. -/
def StackSizeState.record (s : StackSizeState) (n level stackLen : ℕ) : StackSizeState where
  stackLenMax := max s.stackLenMax stackLen
  stackLevelTab := Function.update s.stackLevelTab n (BitVec.ofNat 16 level)

theorem raiseMax_map_ok {op stackLen : ℕ} {α : Type} {f : StackSizeState → α} {a : α}
    (h : (raiseMax pos op stackLen s).map f = .ok a) :
    a = f { s with stackLenMax := max s.stackLenMax stackLen } := by
  cases hraise : raiseMax pos op stackLen s with
  | error e =>
      rw [hraise] at h
      exact absurd h (by simp [Except.map])
  | ok t =>
      rw [hraise] at h
      rw [← raiseMax_ok hraise]
      exact (Except.ok.inj h).symm

/-- **A round of the loop that succeeds**: the place was known with the same height, or it is
new. -/
theorem stackLoop_ok {op : ℕ} {new : List StackCall}
    (h : stackLoop bc pos op level s = .ok (new, s')) :
    0 ≤ pos ∧ pos < bc.length ∧
      ((s.stackLevelTab pos.toNat ≠ 0xffff#16 ∧ (s.stackLevelTab pos.toNat).toNat = level ∧
          new = [] ∧ s' = s) ∨
        (s.stackLevelTab pos.toNat = 0xffff#16 ∧ InstrSafe bc pos level ∧
          new = stackCalls bc pos.toNat (level - nPopAt bc pos.toNat + nPushAt bc pos.toNat) ∧
          s' = s.record pos.toNat level (level - nPopAt bc pos.toNat + nPushAt bc pos.toNat))) := by
  unfold stackLoop at h
  by_cases hpos : pos < 0 ∨ bc.length ≤ pos
  · rw [if_pos hpos] at h
    exact absurd h (by simp)
  · rw [if_neg hpos] at h
    refine ⟨by omega, by omega, ?_⟩
    by_cases htab : s.stackLevelTab pos.toNat ≠ 0xffff#16
    · rw [if_pos htab] at h
      by_cases heq : (s.stackLevelTab pos.toNat).toNat ≠ level
      · rw [if_pos heq] at h
        exact absurd h (by simp)
      · rw [if_neg heq] at h
        obtain ⟨hnew, hs⟩ := Prod.mk.inj (Except.ok.inj h)
        exact Or.inl ⟨htab, not_not.mp heq, hnew.symm, hs.symm⟩
    · rw [if_neg htab] at h
      unfold stackInstr at h
      dsimp only at h
      split at h
      · exact absurd h (by simp)
      · rename_i hvalid
        split at h
        · exact absurd h (by simp)
        · rename_i hinside
          split at h
          · exact absurd h (by simp)
          · rename_i hpops
            obtain ⟨hnew, hs⟩ := Prod.mk.inj (raiseMax_map_ok h)
            rw [not_or] at hvalid
            exact Or.inr ⟨not_not.mp htab, ⟨by omega, by omega, ⟨hvalid.1, by omega⟩, by omega,
              by omega⟩, hnew, hs⟩

/-- A place that is new, with an instruction that is safe there. -/
theorem stackLoop_new {op : ℕ} (htab : s.stackLevelTab pos.toNat = 0xffff#16)
    (hsafe : InstrSafe bc pos level)
    (hle : level - nPopAt bc pos.toNat + nPushAt bc pos.toNat ≤ jsStackSizeMax) :
    stackLoop bc pos op level s =
      .ok (stackCalls bc pos.toNat (level - nPopAt bc pos.toNat + nPushAt bc pos.toNat),
        s.record pos.toNat level (level - nPopAt bc pos.toNat + nPushAt bc pos.toNat)) := by
  obtain ⟨hnonneg, hlt, hvalid, hinside, hpops⟩ := hsafe
  have hinvalid : ¬ (opAt bc pos.toNat = 0 ∨ opCount ≤ opAt bc pos.toNat) := by
    rw [not_or]
    exact ⟨hvalid.1, by omega⟩
  unfold stackLoop
  rw [if_neg (by omega), if_neg (not_not.mpr htab)]
  unfold stackInstr
  dsimp only
  rw [if_neg hinvalid, if_neg (by omega), if_neg (by omega), raiseMax_eq hle]
  rfl

end Step

/-! ## What is accepted is safe -/

section Sound

variable {bc : List UInt8} {calls : List StackCall} {s s' : StackSizeState} {y : ℤ × ℕ}

/-- The place is in the table with this height, or a call for it is pending. -/
def StackCovered (bc : List UInt8) (calls : List StackCall) (s : StackSizeState) (y : ℤ × ℕ) : Prop :=
  (∃ n : ℕ, y.1 = n ∧ n < bc.length ∧ s.stackLevelTab n ≠ 0xffff#16 ∧
    (s.stackLevelTab n).toNat = y.2) ∨ ∃ c ∈ calls, c.target = y

/-- A place in the table is safe, and so is what comes behind it. -/
structure StackKnown (bc : List UInt8) (calls : List StackCall) (s : StackSizeState) (n level : ℕ) :
    Prop where
  instr : InstrSafe bc n level
  level_le : level ≤ s.stackLenMax
  after_le : level - nPopAt bc n + nPushAt bc n ≤ s.stackLenMax
  moves : ∀ y ∈ stackMoves bc n level, StackCovered bc calls s y

/-- What is true while the places are visited. -/
structure StackVisited (bc : List UInt8) (calls : List StackCall) (s : StackSizeState) : Prop where
  loops : ∀ pos op stackLen, .loop pos op stackLen ∈ calls → stackLen ≤ s.stackLenMax
  known : ∀ n < bc.length, s.stackLevelTab n ≠ 0xffff#16 →
    StackKnown bc calls s n (s.stackLevelTab n).toNat
  start : StackCovered bc calls s (0, 0)

/-- More is covered, in a larger stack. -/
theorem StackKnown.mono {calls' : List StackCall} {n level : ℕ} (h : StackKnown bc calls s n level)
    (hmax : s.stackLenMax ≤ s'.stackLenMax)
    (hcovered : ∀ y, StackCovered bc calls s y → StackCovered bc calls' s' y) :
    StackKnown bc calls' s' n level :=
  ⟨h.instr, h.level_le.trans hmax, h.after_le.trans hmax, fun y hy => hcovered y (h.moves y hy)⟩

/-- A call is pending under another name, or its place is known. -/
theorem StackCovered.pop {c : StackCall} {new : List StackCall} (h : StackCovered bc (c :: calls) s y)
    (htab : ∀ n, s.stackLevelTab n ≠ 0xffff#16 → s'.stackLevelTab n = s.stackLevelTab n)
    (hc : StackCovered bc (new ++ calls) s' c.target) : StackCovered bc (new ++ calls) s' y := by
  rcases h with ⟨n, hn, hlt, hne, hlevel⟩ | ⟨d, hd, rfl⟩
  · refine Or.inl ⟨n, hn, hlt, ?_, ?_⟩
    · rwa [htab n hne]
    · rwa [htab n hne]
  · rcases List.mem_cons.mp hd with rfl | hd
    · exact hc
    · exact Or.inr ⟨d, List.mem_append_right _ hd, rfl⟩

theorem ofNat_level {level : ℕ} (h : level < 65535) :
    (BitVec.ofNat 16 level).toNat = level ∧ BitVec.ofNat 16 level ≠ 0xffff#16 := by
  have htoNat : (BitVec.ofNat 16 level).toNat = level := by
    rw [BitVec.toNat_ofNat]
    omega
  refine ⟨htoNat, fun heq => ?_⟩
  rw [heq] at htoNat
  simp at htoNat
  omega

/-- **One call**, as long as the stack is smaller than the mark for a place that is not known. -/
theorem StackVisited.step {c : StackCall} {new : List StackCall}
    (h : s.stackLenMax < 65535 → StackVisited bc (c :: calls) s)
    (hexec : stackExec bc c s = .ok (new, s')) (hmax' : s'.stackLenMax < 65535) :
    StackVisited bc (new ++ calls) s' := by
  cases c with
  | enter pos op stackLen =>
      obtain ⟨rfl, rfl⟩ := Prod.mk.inj (raiseMax_map_ok hexec)
      have hle : s.stackLenMax ≤ max s.stackLenMax stackLen := le_max_left _ _
      have hold := h (hle.trans_lt hmax')
      have hcovered : ∀ y, StackCovered bc (.enter pos op stackLen :: calls) s y →
          StackCovered bc ([.loop pos op stackLen] ++ calls)
            { s with stackLenMax := max s.stackLenMax stackLen } y :=
        fun y hy => hy.pop (fun _ _ => rfl) (Or.inr ⟨_, List.mem_cons_self, rfl⟩)
      refine ⟨fun p o l hl => ?_, fun n hn hne => (hold.known n hn hne).mono hle hcovered,
        hcovered _ hold.start⟩
      rcases List.mem_cons.mp hl with heq | hl
      · cases heq
        exact le_max_right _ _
      · exact (hold.loops p o l (List.mem_cons_of_mem _ hl)).trans hle
  | loop pos op level =>
      obtain ⟨hnonneg, hlt, hcases⟩ := stackLoop_ok hexec
      have hpos : pos = (pos.toNat : ℤ) := (Int.toNat_of_nonneg hnonneg).symm
      have hn : pos.toNat < bc.length := by omega
      rcases hcases with ⟨hne, hlevel, rfl, rfl⟩ | ⟨htab, hsafe, rfl, rfl⟩
      · have hold := h hmax'
        have hcovered : ∀ y, StackCovered bc (.loop pos op level :: calls) s' y →
            StackCovered bc ([] ++ calls) s' y :=
          fun y hy => hy.pop (fun _ _ => rfl) (Or.inl ⟨pos.toNat, hpos, hn, hne, hlevel⟩)
        exact ⟨fun p o l hl => hold.loops p o l (List.mem_cons_of_mem _ hl),
          fun n hn hne => (hold.known n hn hne).mono le_rfl hcovered, hcovered _ hold.start⟩
      · -- the place is new
        generalize hafter : level - nPopAt bc pos.toNat + nPushAt bc pos.toNat = after at hmax' ⊢
        have hle : s.stackLenMax ≤ max s.stackLenMax after := le_max_left _ _
        have hold := h (hle.trans_lt hmax')
        have hlevel : level ≤ s.stackLenMax := hold.loops pos op level List.mem_cons_self
        obtain ⟨htoNat, hne⟩ := ofNat_level (hlevel.trans_lt (hle.trans_lt hmax'))
        have hself : (s.record pos.toNat level after).stackLevelTab pos.toNat = BitVec.ofNat 16 level :=
          Function.update_self ..
        have hother : ∀ n, n ≠ pos.toNat →
            (s.record pos.toNat level after).stackLevelTab n = s.stackLevelTab n :=
          fun n hn => Function.update_of_ne hn ..
        have hsame : ∀ n, s.stackLevelTab n ≠ 0xffff#16 →
            (s.record pos.toNat level after).stackLevelTab n = s.stackLevelTab n := by
          intro n hknown
          refine hother n ?_
          rintro rfl
          exact hknown htab
        have hcovered : ∀ y, StackCovered bc (.loop pos op level :: calls) s y →
            StackCovered bc (stackCalls bc pos.toNat after ++ calls) (s.record pos.toNat level after) y := by
          intro y hy
          refine hy.pop hsame (Or.inl ⟨pos.toNat, hpos, hn, ?_, ?_⟩)
          · rwa [hself]
          · rw [hself]
            exact htoNat
        refine ⟨fun p o l hl => ?_, fun n hlen hknown => ?_, hcovered _ hold.start⟩
        · rcases List.mem_append.mp hl with hl | hl
          · rw [stackLen_of_loop_mem hl]
            exact le_max_right _ _
          · exact (hold.loops p o l (List.mem_cons_of_mem _ hl)).trans hle
        · by_cases hnp : n = pos.toNat
          · subst hnp
            rw [hself, htoNat]
            rw [hpos] at hsafe
            refine ⟨hsafe, hlevel.trans hle, ?_, fun y hy => ?_⟩
            · rw [hafter]
              exact le_max_right _ _
            · have hpops : nPopAt bc pos.toNat ≤ level := hsafe.pops
              have hop : opAt bc pos.toNat < opCount := hsafe.valid.2
              rw [← stackCalls_target hop hpops, hafter] at hy
              obtain ⟨d, hd, rfl⟩ := List.mem_map.mp hy
              exact Or.inr ⟨d, List.mem_append_left _ hd, rfl⟩
          · rw [hother n hnp] at hknown ⊢
            exact (hold.known n hlen hknown).mono hle hcovered

/-- When nothing is pending, every place that can be reached is in the table. -/
theorem StackVisited.safe (h : StackVisited bc [] s) : StackSafe bc s.stackLenMax := by
  have hreach : ∀ {x}, StackReaches bc x → ∃ n : ℕ, x.1 = n ∧ n < bc.length ∧
      s.stackLevelTab n ≠ 0xffff#16 ∧ (s.stackLevelTab n).toNat = x.2 := by
    intro x hx
    have hnone : ∀ {y}, StackCovered bc [] s y → ∃ n : ℕ, y.1 = n ∧ n < bc.length ∧
        s.stackLevelTab n ≠ 0xffff#16 ∧ (s.stackLevelTab n).toNat = y.2 :=
      fun hy => hy.resolve_right (by simp)
    induction hx with
    | refl => exact hnone h.start
    | tail _ hmove ih =>
        obtain ⟨n, hn, hlt, hne, hlevel⟩ := ih
        obtain ⟨m, hm, hy⟩ := hmove
        obtain rfl : n = m := by omega
        rw [← hlevel] at hy
        exact hnone ((h.known n hlt hne).moves _ hy)
  have hknown : ∀ {pos level}, StackReaches bc (pos, level) →
      StackKnown bc [] s pos.toNat level ∧ pos = (pos.toNat : ℤ) := by
    intro pos level hx
    obtain ⟨n, rfl, hlt, hne, hlevel⟩ := hreach hx
    have hk := h.known n hlt hne
    rw [hlevel] at hk
    exact ⟨hk, rfl⟩
  refine ⟨fun hx => ?_, fun hx => (hknown hx).1.level_le, fun hx => (hknown hx).1.after_le,
    fun hx hx' => ?_⟩
  · have hsafe := (hknown hx).1.instr
    rwa [← (hknown hx).2] at hsafe
  · obtain ⟨n, hn, -, -, hlevel⟩ := hreach hx
    obtain ⟨m, hm, -, -, hlevel'⟩ := hreach hx'
    obtain rfl : n = m := by
      have heq : (n : ℤ) = m := hn.symm.trans hm
      omega
    exact hlevel.symm.trans hlevel'

end Sound

/-! ## What is safe is accepted -/

section Complete

variable {bc : List UInt8} {calls : List StackCall} {s : StackSizeState} {k : ℕ}

/-- Only places that can be reached are visited. -/
structure StackTraced (bc : List UInt8) (k : ℕ) (calls : List StackCall) (s : StackSizeState) :
    Prop where
  pending : ∀ c ∈ calls, StackReaches bc c.target
  known : ∀ n : ℕ, s.stackLevelTab n ≠ 0xffff#16 → StackReaches bc (n, (s.stackLevelTab n).toNat)
  bounded : s.stackLenMax ≤ k

/-- How much a call still costs. -/
def StackCall.weight : StackCall → ℕ
  | .enter _ _ _ => 2
  | .loop _ _ _ => 1

/-- The places that are not yet known. -/
def unknown (bc : List UInt8) (s : StackSizeState) : Finset ℕ :=
  (Finset.range bc.length).filter fun n => s.stackLevelTab n = 0xffff#16

/-- What there is left to do. -/
def stackWork (bc : List UInt8) (calls : List StackCall) (s : StackSizeState) : ℕ :=
  (calls.map StackCall.weight).sum + 3 * (unknown bc s).card

theorem weight_stackCalls_le (n stackLen : ℕ) :
    ((stackCalls bc n stackLen).map StackCall.weight).sum ≤ 3 := by
  unfold stackCalls
  dsimp only
  cases jumpKind (opAt bc n) <;> simp [StackCall.weight]

/-- **One call**: nothing fails. -/
theorem StackTraced.step (hsafe : StackSafe bc k) (hk : k < 65535) (c : StackCall)
    (calls : List StackCall) (s : StackSizeState) (h : StackTraced bc k (c :: calls) s) :
    ∃ new s', stackExec bc c s = .ok (new, s') ∧ StackTraced bc k (new ++ calls) s' ∧
      stackWork bc (new ++ calls) s' < stackWork bc (c :: calls) s := by
  have hc := h.pending c List.mem_cons_self
  have hcalls : ∀ d ∈ calls, StackReaches bc d.target :=
    fun d hd => h.pending d (List.mem_cons_of_mem _ hd)
  cases c with
  | enter pos op stackLen =>
      have hle : stackLen ≤ k := hsafe.level_le hc
      refine ⟨[.loop pos op stackLen], { s with stackLenMax := max s.stackLenMax stackLen }, ?_,
        ⟨fun d hd => ?_, h.known, max_le h.bounded hle⟩, ?_⟩
      · change (raiseMax pos op stackLen s).map _ = _
        rw [raiseMax_eq (hle.trans (by unfold jsStackSizeMax; omega))]
        rfl
      · rcases List.mem_cons.mp hd with rfl | hd
        · exact hc
        · exact hcalls d hd
      · unfold stackWork
        simp [StackCall.weight, unknown]
  | loop pos op level =>
      have hinstr := hsafe.instr hc
      have hpos : pos = (pos.toNat : ℤ) := (Int.toNat_of_nonneg hinstr.nonneg).symm
      have hlt := hinstr.lt
      by_cases htab : s.stackLevelTab pos.toNat = 0xffff#16
      · have hafter := hsafe.after_le hc
        have hexec := @stackLoop_new bc level pos s op htab hinstr (by unfold jsStackSizeMax; omega)
        generalize hgen : level - nPopAt bc pos.toNat + nPushAt bc pos.toNat = after at hafter hexec
        obtain ⟨htoNat, hne⟩ := ofNat_level ((hsafe.level_le hc).trans_lt hk)
        have hself : (s.record pos.toNat level after).stackLevelTab pos.toNat = BitVec.ofNat 16 level :=
          Function.update_self ..
        refine ⟨_, _, hexec, ⟨fun d hd => ?_, fun n hknown => ?_, max_le h.bounded hafter⟩, ?_⟩
        · rcases List.mem_append.mp hd with hd | hd
          · refine Relation.ReflTransGen.tail hc ⟨pos.toNat, hpos, ?_⟩
            have hmoves := @stackCalls_target bc pos.toNat level hinstr.valid.2 hinstr.pops
            rw [hgen] at hmoves
            exact hmoves ▸ List.mem_map_of_mem hd
          · exact hcalls d hd
        · by_cases hn : n = pos.toNat
          · rw [hn, hself, htoNat, ← hpos]
            exact hc
          · have hsame : (s.record pos.toNat level after).stackLevelTab n = s.stackLevelTab n :=
              Function.update_of_ne hn ..
            rw [hsame] at hknown ⊢
            exact h.known n hknown
        · have hmem : pos.toNat ∈ unknown bc s := by
            simp only [unknown, Finset.mem_filter, Finset.mem_range]
            exact ⟨by omega, htab⟩
          have herase : unknown bc (s.record pos.toNat level after) = (unknown bc s).erase pos.toNat := by
            ext n
            by_cases hn : n = pos.toNat
            · simp [unknown, hn, hself, hne]
            · have hsame : (s.record pos.toNat level after).stackLevelTab n = s.stackLevelTab n :=
                Function.update_of_ne hn ..
              simp only [unknown, Finset.mem_filter, Finset.mem_erase, hsame]
              simp [hn]
          have hcard := Finset.card_erase_of_mem hmem
          have hcardpos := Finset.card_pos.mpr ⟨_, hmem⟩
          have hweight := @weight_stackCalls_le bc pos.toNat after
          unfold stackWork
          rw [herase, hcard, List.map_append, List.sum_append, List.map_cons, List.sum_cons]
          simp only [StackCall.weight]
          omega
      · have hknown := h.known _ htab
        rw [← hpos] at hknown
        have hlevel := hsafe.consistent hknown hc
        refine ⟨[], s, ?_, ⟨hcalls, h.known, h.bounded⟩, ?_⟩
        · change stackLoop bc pos op level s = _
          unfold stackLoop
          rw [if_neg (by have := hinstr.nonneg; omega), if_pos htab, if_neg (not_not.mpr hlevel)]
        · unfold stackWork
          simp [StackCall.weight]

end Complete

/-- Enough for every function with this code. -/
def stackFuel (bc : List UInt8) : ℕ := 3 * bc.length + 2

/-- `push_1`, a jump out of the loop, a jump back to the start, and `return_undef`. -/
def loopCode : List UInt8 := [180, 233, 3, 235, 252, 41]

end Engine
end FuzzerJs
