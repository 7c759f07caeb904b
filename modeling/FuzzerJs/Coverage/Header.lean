import FuzzerJs.Coverage.Counter
import FuzzerJs.Host.Delivery

/-!
# The counters of a whole call of `JS::Run`

The interpreter loop that runs the target also runs the script that hands the input over,
and marks its instructions.  Their sizes depend on the bytes of the input, so the input
shows in the counters even if the target does not look at it.

* `evalScript_points`: the offsets of the script, as a function of the input.
* `run_coverage`: where the counters of two calls differ, when the target executes the same
  points.
-/

namespace FuzzerJs
namespace Coverage

open Engine Scan Host

/-! ## The instructions of the script -/

/-- The size of the instruction that pushes a byte: `push_0` to `push_7`, `push_i8` or
`push_i16`. -/
def pushSize (b : UInt8) : ℕ := if b < 8 then 1 else if b < 128 then 2 else 3

/-- The sizes of the instructions of the script. -/
def headerSizes (data : List UInt8) : List ℕ :=
  [6, 6, 6, 6, 5, 1] ++ (data.take 32).map pushSize ++ [3] ++
    (data.drop 32).flatMap (fun b => [pushSize b, 5]) ++ [3, 1, 5, 1, 1, 1]

/-- Where the pieces of these sizes start. -/
def starts : ℕ → List ℕ → List ℕ
  | _, [] => []
  | pc, n :: ns => pc :: starts (pc + n) ns

/-- The counters of the script.  Its function is called `<eval>`, atom 79. -/
def headerCoverage (data : List UInt8) : Finset ℕ :=
  ((starts 0 (headerSizes data)).map fun k => (79 + 1) * k % 65536).toFinset

theorem offsets_eq_starts (code : List Instr) :
    ∀ pc, offsets pc code = starts pc (code.map Instr.size) := by
  induction code with
  | nil => intro pc; rfl
  | cons i code ih =>
      intro pc
      rw [offsets, List.map_cons, starts, ih]

theorem size_pushShortInt (b : UInt8) : (pushShortInt b.toNat).size = pushSize b := by
  have h8 : b < 8 ↔ b.toNat < 8 := UInt8.lt_iff_toNat_lt
  have h128 : b < 128 ↔ b.toNat < 128 := UInt8.lt_iff_toNat_lt
  have hlt := b.toNat_lt
  rw [pushShortInt, pushSize]
  by_cases hb : b.toNat < 8
  · rw [if_pos (by omega), if_pos (h8.mpr hb)]
    rfl
  · rw [if_neg (by omega), if_neg (mt h8.mp hb)]
    by_cases hb' : b.toNat < 128
    · rw [if_pos (by omega), if_pos (h128.mpr hb')]
      rfl
    · rw [if_neg (by omega), if_pos (by omega), if_neg (mt h128.mp hb')]
      rfl

theorem size_stackCode (data : List UInt8) :
    ((stackCode data).map Instr.short).map Instr.size = data.map pushSize := by
  rw [stackCode, List.map_map, List.map_map]
  exact List.map_congr_left fun b _ => size_pushShortInt b

theorem size_fieldCode (data : List UInt8) :
    ∀ idx, ((fieldCode idx data).map Instr.short).map Instr.size =
      data.flatMap fun b => [pushSize b, 5] := by
  induction data with
  | nil => intro idx; rfl
  | cons b data ih =>
      intro idx
      rw [fieldCode, List.map_cons, List.map_cons, List.map_cons, List.map_cons, ih,
        List.flatMap_cons, ← size_pushShortInt]
      rfl

/-- The sizes do not depend on the atoms. -/
theorem size_finalCode (out inp : JSAtom) (data : List UInt8) :
    (finalCode out inp (binaryFinal data)).map Instr.size = headerSizes data := by
  have harray : ((arrayCode data).map Instr.short).map Instr.size =
      (data.take 32).map pushSize ++ [3] ++ (data.drop 32).flatMap fun b => [pushSize b, 5] := by
    rw [arrayCode, List.map_append, List.map_append, List.map_append, List.map_append,
      size_stackCode, size_fieldCode]
    rfl
  rw [finalCode, binaryFinal_eq, headerSizes]
  simp only [List.map_append, harray, List.append_assoc]
  rfl

/-- **The points of the script.** -/
theorem evalScript_points {construct : Construct} {T : Tables} {m : Mem} {w w' : World}
    {ctor : JSValue} {data : List UInt8} (h : Fresh w) (hctor : HasUint8Array w.realm ctor)
    (hread : Reads m 0 (script false data ++ [0]))
    (hok : (evalScript construct (globalConfig T) noneName m (script false data).length w).2 =
      .ok w') :
    evalScript construct (globalConfig T) noneName m (script false data).length w =
      (starts 0 (headerSizes data), .ok w') := by
  obtain ⟨filename, out, inp, t, hn⟩ := h.named
  obtain ⟨v, heap, t', -, heval, -⟩ := evalScript_binary_inv h hn hctor hread hok
  rw [heval, offsets_eq_starts, size_finalCode]

/-! ## Whole calls -/

/-- A program point: the name of a function and the offset of an instruction in it. -/
abbrev Point := JSAtom × ℕ

/-- The counters that these points mark. -/
def coverage (ps : List Point) : Finset ℕ := (ps.map fun p => pointIndex p.1 p.2).toFinset

/-- The points that `JS::Run` executes in binary mode: those of its script and, unless that fails
and `exit(1)` follows, those of the target in the world that the script leaves. -/
def runPoints (construct : Construct) (T : Tables) (m : Mem) (w : World)
    (target : World → List Point) (data : List UInt8) : List Point :=
  let (pcs, r) := evalScript construct (globalConfig T) noneName m (script false data).length w
  pcs.map (fun k => (atomEval, k)) ++
    match r with
    | .ok w' => target w'
    | _ => []

theorem coverage_append (ps qs : List Point) : coverage (ps ++ qs) = coverage ps ∪ coverage qs := by
  rw [coverage, List.map_append, List.toFinset_append]
  rfl

theorem coverage_header (data : List UInt8) :
    coverage ((starts 0 (headerSizes data)).map fun k => (atomEval, k)) = headerCoverage data := by
  rw [coverage, headerCoverage, List.map_map]
  congr 1
  refine List.map_congr_left fun k _ => ?_
  exact pointIndex_eq atomEval k

/-- Marks that are made in both calls hide differences. -/
theorem symmDiff_union_right (a b c : Finset ℕ) : symmDiff (a ∪ c) (b ∪ c) = symmDiff a b \ c := by
  ext idx
  simp only [Finset.mem_symmDiff, Finset.mem_union, Finset.mem_sdiff]
  tauto

theorem headerSizes_congr {x y : List UInt8} (h : x.map pushSize = y.map pushSize) :
    headerSizes x = headerSizes y := by
  have hfields : ∀ data : List UInt8, (data.flatMap fun b => [pushSize b, 5]) =
      (data.map pushSize).flatMap fun n => [n, 5] := fun data =>
    (List.flatMap_map pushSize (fun n => [n, 5]) data).symm
  rw [headerSizes, headerSizes, hfields, hfields, List.map_take, List.map_drop, List.map_take,
    List.map_drop, h]

section Run

variable {construct : Construct} {T : Tables} {w : World} {ctor : JSValue}
  {target : World → List Point}

/-- The counters of a call are those of the script and those of the target. -/
theorem coverage_runPoints {m : Mem} {data : List UInt8} {w' : World} (h : Fresh w)
    (hctor : HasUint8Array w.realm ctor) (hread : Reads m 0 (script false data ++ [0]))
    (hok : (evalScript construct (globalConfig T) noneName m (script false data).length w).2 =
      .ok w') :
    coverage (runPoints construct T m w target data) =
      headerCoverage data ∪ coverage (target w') := by
  rw [runPoints, evalScript_points h hctor hread hok]
  simp only
  rw [coverage_append, coverage_header]

/-- **Where two calls differ.**  When the target executes the same points in both, the counters
differ exactly where one script marks an entry that neither the other script nor the target
marks; and not at all when the inputs have the same length and bytes of the same size at each
place. -/
theorem run_coverage (h : Fresh w) (hctor : HasUint8Array w.realm ctor) {m₁ m₂ : Mem}
    {x y : List UInt8} {w₁ w₂ : World} (hx : Reads m₁ 0 (script false x ++ [0]))
    (hy : Reads m₂ 0 (script false y ++ [0]))
    (hokx : (evalScript construct (globalConfig T) noneName m₁ (script false x).length w).2 = .ok w₁)
    (hoky : (evalScript construct (globalConfig T) noneName m₂ (script false y).length w).2 = .ok w₂)
    (hsame : target w₁ = target w₂) :
    symmDiff (coverage (runPoints construct T m₁ w target x))
        (coverage (runPoints construct T m₂ w target y)) =
      symmDiff (headerCoverage x) (headerCoverage y) \ coverage (target w₁) ∧
    (x.map pushSize = y.map pushSize →
      coverage (runPoints construct T m₁ w target x) =
        coverage (runPoints construct T m₂ w target y)) := by
  rw [coverage_runPoints h hctor hx hokx, coverage_runPoints h hctor hy hoky, ← hsame]
  refine ⟨symmDiff_union_right _ _ _, fun hsizes => ?_⟩
  rw [headerCoverage, headerCoverage, headerSizes_congr hsizes]

/-- Two inputs whose bytes are pushed by instructions of the same sizes. -/
theorem run_coverage_sizes :
    coverage (runPoints copyElements asciiTables (terminated (script false [0, 200])) bareWorld
        (fun _ => [(300#32, 4)]) [0, 200]) =
      coverage (runPoints copyElements asciiTables (terminated (script false [7, 128])) bareWorld
        (fun _ => [(300#32, 4)]) [7, 128]) := by
  obtain ⟨w₁, -, ⟨hok₁, -⟩, -⟩ := (bareWorld_delivers [0, 200] (by decide)).found
  obtain ⟨w₂, -, ⟨hok₂, -⟩, -⟩ := (bareWorld_delivers [7, 128] (by decide)).found
  exact (run_coverage bareWorld_fresh bareWorld_hasUint8Array (terminated_reads _)
    (terminated_reads _) hok₁ hok₂ rfl).2 (by decide)

/-- A zero and an eight, with a target that executes nothing. -/
theorem run_coverage_differs :
    ¬ ∀ (target : World → List Point) (x y : List UInt8) (w₁ w₂ : World),
      (evalScript copyElements (globalConfig asciiTables) noneName (terminated (script false x))
        (script false x).length bareWorld).2 = .ok w₁ →
      (evalScript copyElements (globalConfig asciiTables) noneName (terminated (script false y))
        (script false y).length bareWorld).2 = .ok w₂ →
      target w₁ = target w₂ →
      coverage (runPoints copyElements asciiTables (terminated (script false x)) bareWorld target x) =
        coverage (runPoints copyElements asciiTables (terminated (script false y)) bareWorld target
          y) := by
  intro hall
  obtain ⟨w₁, -, ⟨hok₁, -⟩, -⟩ := (bareWorld_delivers [0] (by decide)).found
  obtain ⟨w₂, -, ⟨hok₂, -⟩, -⟩ := (bareWorld_delivers [8] (by decide)).found
  have hcov := hall (fun _ => []) [0] [8] w₁ w₂ hok₁ hok₂ rfl
  rw [coverage_runPoints bareWorld_fresh bareWorld_hasUint8Array (terminated_reads _) hok₁,
    coverage_runPoints bareWorld_fresh bareWorld_hasUint8Array (terminated_reads _) hok₂] at hcov
  exact absurd hcov (by decide)

end Run

end Coverage
end FuzzerJs
