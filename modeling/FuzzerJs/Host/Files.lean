import Mathlib

/-!
# Loading a target: `--js`, `to_bytecode` and `--bc`

A target reaches the fuzzer in two ways.  `--js=f` compiles the source file when the
harness starts; `to_bytecode f out` compiles it beforehand, and `--bc=out` loads the
bytes it left.  The three programs meet in the file system, which is the state here:
`to_bytecode` opens its output in append mode and never looks at the stream again, and
`JS::LoadFile` takes whatever the file holds.

`CompileJavascript` is a function of the name and the contents of the source file, the
parameter `compile` of this module; all it is known to do is to write at least the
version byte.

Files do not fail on the way: a file that exists can be opened and read to its end, and
what is written to a file that has been opened arrives there.

Main results:

* `toBytecode_runs` — what any number of runs of `to_bytecode` leaves in one output file;
* `loads_agree_iff` — when the two ways of loading leave the same bytecode.
-/

namespace FuzzerJs
namespace Host

/-! ## Files, exits and the `JS` object -/

/-- The name of a file, and any other argument of a program. -/
abbrev Path := List Char

/-- The bytes of a compiled module.  `JS_WriteObject` starts them with `BC_VERSION`, so
there is at least one. -/
structure Bytecode where
  bytes : List UInt8
  ne_nil : bytes ≠ []

/-- The files by name, and whether a name can be opened for appending.  A file that is there can
also be read. -/
structure FileSystem where
  contents : Path → Option (List UInt8)
  writable : Path → Bool

/-- How a program or one of its functions ends. -/
inductive Outcome (α : Type) where
  | ok (a : α)
  /-- `exit(code)`. -/
  | exit (code : ℕ)
  /-- An exception that nobody catches. -/
  | throw (what : String)
  deriving DecidableEq

/-- The class `JS`: the loaded bytecode and the memory limit. -/
structure JS where
  bytecode : List UInt8 := []
  memoryLimit : ℕ := 0
  deriving DecidableEq

/-- `JS::SetBytecode(const std::vector<uint8_t>&)`. -/
def JS.setBytecode (js : JS) (bytecode : List UInt8) : JS := { js with bytecode := bytecode }

/-- `JS::SetBytecode(const std::vector<char>&)`: the same bytes, read as unsigned. -/
def JS.setBytecodeChar (js : JS) (bytecode : List Int8) : JS :=
  js.setBytecode (bytecode.map Int8.toUInt8)

/-- `JS::LoadFile`.  `tellg` is `-1` for a file that cannot be opened, and its size
otherwise; the bytes land in a vector of (signed) `char`. -/
def loadFile (fs : FileSystem) (fn : Path) : Except String (List Int8) :=
  match fs.contents fn with
  | none => .error "LoadFile: Load error"
  | some bytes =>
    if bytes.length = 0 then .error "LoadFile: Load error" else .ok (bytes.map UInt8.toInt8)

/-- A name opened with `std::ios::app | std::ios::binary` and written to.  A missing file is
created; a failed open leaves a stream on which the write does nothing, and any other write is
complete. -/
def appendFile (fs : FileSystem) (fn : Path) (bytes : List UInt8) : FileSystem :=
  if fs.writable fn then
    let old := (fs.contents fn).getD []
    { fs with contents := Function.update fs.contents fn (some (old ++ bytes)) }
  else fs

section Programs

variable (compile : Path → List Int8 → Option Bytecode)

/-- `JS::CompileJavascript`: a file that cannot be read or compiled ends the program. -/
def compileJavascript (fs : FileSystem) (javascriptFilename : Path) : Outcome Bytecode :=
  match loadFile fs javascriptFilename with
  | .error _ => .exit 1
  | .ok buffer =>
    match compile javascriptFilename buffer with
    | none => .exit 1
    | some bc => .ok bc

/-- `main` of `to_bytecode`: its exit code, and the file system it leaves. -/
def toBytecode (fs : FileSystem) (argv : List Path) : ℕ × FileSystem :=
  match argv with
  | [_, src, out] =>
    match compileJavascript compile fs src with
    | .ok bc => (0, appendFile fs out bc.bytes)
    | .exit code => (code, fs)
    | .throw _ => (1, fs)
  | _ => (1, fs)

/-- One turn of the loop over `argv` in `LLVMFuzzerInitialize`; the flag is `haveCode`. -/
def initializeArg (fs : FileSystem) (st : JS × Bool) (curArg : Path) : Outcome (JS × Bool) :=
  if "--js=".toList.isPrefixOf curArg then
    match compileJavascript compile fs (curArg.drop 5) with
    | .ok bc => .ok (st.1.setBytecode bc.bytes, true)
    | .exit code => .exit code
    | .throw what => .throw what
  else if "--bc=".toList.isPrefixOf curArg then
    match loadFile fs (curArg.drop 5) with
    | .ok bc => .ok (st.1.setBytecodeChar bc, true)
    | .error what => .throw what
  else .ok st

/-- The loop over `argv` in `LLVMFuzzerInitialize`. -/
def initializeArgs (fs : FileSystem) : List Path → JS × Bool → Outcome (JS × Bool)
  | [], st => .ok st
  | curArg :: args, st =>
    match initializeArg compile fs st curArg with
    | .ok st => initializeArgs fs args st
    | .exit code => .exit code
    | .throw what => .throw what

/-- `LLVMFuzzerInitialize`: the object that the harness then runs. -/
def llvmFuzzerInitialize (fs : FileSystem) (argv : List Path) : Outcome JS :=
  match initializeArgs compile fs argv ({}, false) with
  | .ok (js, haveCode) =>
    if haveCode = false then .exit 1 else .ok { js with memoryLimit := 1024 * 1024 * 10 }
  | .exit code => .exit code
  | .throw what => .throw what

/-- The command line `jsfuzzer --js=f`. -/
def jsArgs (f : Path) : List Path := ["jsfuzzer".toList, "--js=".toList ++ f]

/-- The command line `jsfuzzer --bc=out`. -/
def bcArgs (out : Path) : List Path := ["jsfuzzer".toList, "--bc=".toList ++ out]

/-- The command line `to_bytecode f out`. -/
def toBytecodeArgs (f out : Path) : List Path := ["to_bytecode".toList, f, out]

/-! ## One step: what each program does -/

/-- The signed vector of `LoadFile` keeps every byte. -/
theorem map_toInt8_toUInt8 (bytes : List UInt8) :
    (bytes.map UInt8.toInt8).map Int8.toUInt8 = bytes := by
  rw [List.map_map]
  exact List.map_id'' (fun b => UInt8.toUInt8_toInt8 b) bytes

/-- `LoadFile` succeeds exactly on a file that holds something, and gives all of it. -/
theorem loadFile_eq_ok_iff {fs : FileSystem} {fn : Path} {buffer : List Int8} :
    loadFile fs fn = .ok buffer ↔
      ∃ bytes, fs.contents fn = some bytes ∧ bytes ≠ [] ∧ buffer = bytes.map UInt8.toInt8 := by
  unfold loadFile
  cases fs.contents fn with
  | none => simp
  | some bytes =>
      by_cases hb : bytes = []
      · simp [hb]
      · have hlen : ¬ bytes.length = 0 := by simpa using hb
        simp [hlen, hb, eq_comm]

/-- `to_bytecode f out` returns 0 exactly when the source compiles, whatever becomes of the
output file. -/
theorem toBytecode_eq_zero_iff {fs fs' : FileSystem} {f out : Path} :
    toBytecode compile fs (toBytecodeArgs f out) = (0, fs') ↔
      ∃ bc, compileJavascript compile fs f = .ok bc ∧ fs' = appendFile fs out bc.bytes := by
  have hcases : ∀ code, compileJavascript compile fs f = .exit code → code = 1 := by
    intro code h
    unfold compileJavascript at h
    split at h
    · simpa using h.symm
    · split at h
      · simpa using h.symm
      · exact absurd h (by simp)
  unfold toBytecode toBytecodeArgs
  simp only
  cases hc : compileJavascript compile fs f with
  | ok bc => simp [eq_comm]
  | exit code => simp [hcases code hc]
  | throw what => simp

/-- Starting the harness with `--js=f`. -/
theorem llvmFuzzerInitialize_js (fs : FileSystem) {f : Path} {bc : Bytecode}
    (h : compileJavascript compile fs f = .ok bc) :
    llvmFuzzerInitialize compile fs (jsArgs f) = .ok ⟨bc.bytes, 1024 * 1024 * 10⟩ := by
  have hprefix : "--js=".toList.isPrefixOf ("--js=".toList ++ f) = true := by simp
  have harg : initializeArg compile fs ({}, false) "jsfuzzer".toList = .ok ({}, false) := rfl
  have hjs : initializeArg compile fs ({}, false) ("--js=".toList ++ f) =
      .ok (⟨bc.bytes, 0⟩, true) := by
    rw [initializeArg, if_pos hprefix, show ("--js=".toList ++ f).drop 5 = f from rfl, h]
    rfl
  simp only [llvmFuzzerInitialize, jsArgs, initializeArgs, harg, hjs]
  rfl

/-- Starting the harness with `--bc=out` gives bytecode exactly when the file holds it. -/
theorem llvmFuzzerInitialize_bc (fs : FileSystem) (out : Path) (bytes : List UInt8)
    (hb : bytes ≠ []) :
    llvmFuzzerInitialize compile fs (bcArgs out) = .ok ⟨bytes, 1024 * 1024 * 10⟩ ↔
      fs.contents out = some bytes := by
  have hjs : "--js=".toList.isPrefixOf ("--bc=".toList ++ out) = false := rfl
  have hprefix : "--bc=".toList.isPrefixOf ("--bc=".toList ++ out) = true := by simp
  have harg : initializeArg compile fs ({}, false) "jsfuzzer".toList = .ok ({}, false) := rfl
  have hbc : initializeArg compile fs ({}, false) ("--bc=".toList ++ out) =
      match loadFile fs out with
      | .ok bc => .ok ((({} : JS).setBytecodeChar bc), true)
      | .error what => .throw what := by
    rw [initializeArg, hjs, if_neg (by decide), if_pos hprefix]
    rfl
  simp only [llvmFuzzerInitialize, bcArgs, initializeArgs, harg, hbc]
  cases hl : loadFile fs out with
  | ok buffer =>
      obtain ⟨stored, hstored, -, rfl⟩ := loadFile_eq_ok_iff.mp hl
      have hchar : ({} : JS).setBytecodeChar (stored.map UInt8.toInt8) = ⟨stored, 0⟩ := by
        rw [JS.setBytecodeChar, map_toInt8_toUInt8]
        rfl
      simp [hchar, hstored]
  | error what =>
      have hno : fs.contents out ≠ some bytes := by
        intro hc
        have hok := loadFile_eq_ok_iff.mpr ⟨bytes, hc, hb, rfl⟩
        rw [hl] at hok
        exact absurd hok (by simp)
      simp [hno]

/-! ## Runs of `to_bytecode` -/

theorem appendFile_contents_self {fs : FileSystem} {out : Path} (h : fs.writable out = true)
    (bytes : List UInt8) :
    (appendFile fs out bytes).contents out = some ((fs.contents out).getD [] ++ bytes) := by
  simp [appendFile, h]

theorem appendFile_contents_ne {fs : FileSystem} {out f : Path} (hne : f ≠ out)
    (bytes : List UInt8) : (appendFile fs out bytes).contents f = fs.contents f := by
  by_cases h : fs.writable out = true
  · simp [appendFile, h, Function.update_of_ne hne]
  · simp [appendFile, h]

@[simp]
theorem appendFile_writable (fs : FileSystem) (out : Path) (bytes : List UInt8) :
    (appendFile fs out bytes).writable = fs.writable := by
  unfold appendFile
  split <;> rfl

/-- Runs of `to_bytecode` with one output, each on a source of its own. -/
def toBytecodeRuns (out : Path) : List Path → FileSystem → FileSystem
  | [], fs => fs
  | f :: fsrc, fs =>
    toBytecodeRuns out fsrc (toBytecode compile fs (toBytecodeArgs f out)).2

theorem compileJavascript_congr {fs fs' : FileSystem} {f : Path}
    (h : fs'.contents f = fs.contents f) :
    compileJavascript compile fs' f = compileJavascript compile fs f := by
  rw [compileJavascript, compileJavascript, loadFile, loadFile, h]

/-- What one run of `to_bytecode` adds to its output: the compiled module, or nothing when
the source does not compile. -/
def written (fs : FileSystem) (f : Path) : List UInt8 :=
  match compileJavascript compile fs f with
  | .ok bc => bc.bytes
  | _ => []

/-- What one run can do to the file system, whatever it returns. -/
theorem toBytecode_cases (fs : FileSystem) (out f : Path) :
    ((toBytecode compile fs (toBytecodeArgs f out)).2 = fs ∧ written compile fs f = []) ∨
      (toBytecode compile fs (toBytecodeArgs f out)).2 =
        appendFile fs out (written compile fs f) := by
  simp only [toBytecode, toBytecodeArgs, written]
  cases compileJavascript compile fs f with
  | ok bc => exact Or.inr rfl
  | exit code => exact Or.inl ⟨rfl, rfl⟩
  | throw what => exact Or.inl ⟨rfl, rfl⟩

theorem toBytecode_contents {fs : FileSystem} {out : Path} (h : fs.writable out = true)
    (f : Path) :
    ((toBytecode compile fs (toBytecodeArgs f out)).2.contents out).getD [] =
      (fs.contents out).getD [] ++ written compile fs f := by
  rcases toBytecode_cases compile fs out f with ⟨hfs, hnil⟩ | hfs
  · rw [hfs, hnil, List.append_nil]
  · rw [hfs, appendFile_contents_self h, Option.getD_some]

/-- A run leaves every other file alone. -/
theorem toBytecode_frame (fs : FileSystem) (out f : Path) :
    (toBytecode compile fs (toBytecodeArgs f out)).2.writable = fs.writable ∧
      ∀ g, g ≠ out → (toBytecode compile fs (toBytecodeArgs f out)).2.contents g =
        fs.contents g := by
  rcases toBytecode_cases compile fs out f with ⟨hfs, -⟩ | hfs
  · rw [hfs]
    exact ⟨rfl, fun _ _ => rfl⟩
  · rw [hfs]
    exact ⟨appendFile_writable _ _ _, fun g hg => appendFile_contents_ne hg _⟩

/-- **Any number of runs** on sources other than the output: the output grows by each
compiled module in turn, and never forgets what it held. -/
theorem toBytecode_runs {out : Path} (fsrc : List Path) :
    ∀ fs : FileSystem, fs.writable out = true → out ∉ fsrc →
      ((toBytecodeRuns compile out fsrc fs).contents out).getD [] =
        (fs.contents out).getD [] ++ fsrc.flatMap (written compile fs) := by
  induction fsrc with
  | nil => intro fs _ _; simp [toBytecodeRuns]
  | cons f rest ih =>
      intro fs hw hout
      rw [List.mem_cons, not_or] at hout
      set fs' := (toBytecode compile fs (toBytecodeArgs f out)).2 with hfs'
      obtain ⟨hwr, hframe⟩ := toBytecode_frame compile fs out f
      -- the other sources are the same files as before the run
      have hsame : rest.flatMap (written compile fs') = rest.flatMap (written compile fs) := by
        refine List.flatMap_congr fun g hg => ?_
        have hgo : g ≠ out := fun h => hout.2 (h ▸ hg)
        rw [written, written, compileJavascript_congr compile (hframe g hgo)]
      have hrun := ih fs' (by rw [hfs', hwr]; exact hw) hout.2
      rw [toBytecodeRuns, ← hfs', hrun, hsame, hfs', toBytecode_contents compile hw f,
        List.flatMap_cons, List.append_assoc]

/-! ## The two ways of loading -/

/-- From the file system `fs`, the two ways of loading the target `f` agree: when
`to_bytecode f out` returns 0, the harness started with `--bc=out` on what it left holds the
bytecode of the harness started with `--js=f`. -/
def LoadsAgree (fs : FileSystem) (f out : Path) : Prop :=
  ∀ fs', toBytecode compile fs (toBytecodeArgs f out) = (0, fs') →
    llvmFuzzerInitialize compile fs' (bcArgs out) = llvmFuzzerInitialize compile fs (jsArgs f)

/-- **When the two ways of loading agree.**  For a source that compiles: exactly when the
output can be written and holds nothing yet, or cannot be written and already holds the
compiled module. -/
theorem loads_agree_iff (fs : FileSystem) (f out : Path) :
    LoadsAgree compile fs f out ↔
      ∀ bc, compileJavascript compile fs f = .ok bc →
        (fs.writable out = true ∧ (fs.contents out).getD [] = []) ∨
        (fs.writable out = false ∧ fs.contents out = some bc.bytes) := by
  have hstep : ∀ bc, compileJavascript compile fs f = .ok bc →
      (llvmFuzzerInitialize compile (appendFile fs out bc.bytes) (bcArgs out) =
          llvmFuzzerInitialize compile fs (jsArgs f) ↔
        (fs.writable out = true ∧ (fs.contents out).getD [] = []) ∨
        (fs.writable out = false ∧ fs.contents out = some bc.bytes)) := by
    intro bc hbc
    rw [llvmFuzzerInitialize_js compile fs hbc, llvmFuzzerInitialize_bc compile _ _ _ bc.ne_nil]
    cases hw : fs.writable out with
    | true => simp [appendFile_contents_self hw]
    | false => simp [appendFile, hw]
  constructor
  · intro h bc hbc
    exact (hstep bc hbc).mp (h _ ((toBytecode_eq_zero_iff compile).mpr ⟨bc, hbc, rfl⟩))
  · intro h fs' hrun
    obtain ⟨bc, hbc, rfl⟩ := (toBytecode_eq_zero_iff compile).mp hrun
    exact (hstep bc hbc).mpr (h bc hbc)

end Programs

/-- Whatever the compiler and the source, an output that already holds one byte is enough for
the two ways of loading to differ. -/
theorem loads_disagree :
    ¬ ∃ (compile : Path → List Int8 → Option Bytecode) (f : Path) (src : List UInt8),
      src ≠ [] ∧ (compile f (src.map UInt8.toInt8)).isSome = true ∧
        ∀ fs out, fs.contents f = some src → LoadsAgree compile fs f out := by
  rintro ⟨compile, f, src, hsrc, hacc, h⟩
  obtain ⟨bc, hbc⟩ := Option.isSome_iff_exists.mp hacc
  let fs : FileSystem :=
    ⟨Function.update (Function.update (fun _ => none) ('x' :: f) (some [0])) f (some src),
      fun _ => true⟩
  have hf : fs.contents f = some src := by simp [fs]
  have hout : fs.contents ('x' :: f) = some [0] := by simp [fs]
  have hcomp : compileJavascript compile fs f = .ok bc := by
    rw [compileJavascript, loadFile_eq_ok_iff.mpr ⟨src, hf, hsrc, rfl⟩]
    simp [hbc]
  have hagree := (loads_agree_iff compile fs f ('x' :: f)).mp (h fs _ hf) bc hcomp
  rw [hout] at hagree
  rcases hagree with ⟨-, hempty⟩ | ⟨hw, -⟩
  · exact absurd hempty (by decide)
  · exact absurd hw (by simp [fs])

end Host
end FuzzerJs
