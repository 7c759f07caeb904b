import FuzzerJs.Engine.BytecodeObject
import FuzzerJs.Coverage.Header

/-!
# The counters of the target

The counter of an instruction depends on the number of the atom that names its function,
and the strings of the bytecode become atoms behind everything that the script has done to
the table.  All that the script does there is the same for every input: the elements of the
array literal are integers, whose atoms have no entry.

* `evalScript_atoms`: the table behind the script does not depend on the input.
* `functions_keep_counters`: nor does the name of any function of the target, and so neither
  do its counters.
-/

namespace FuzzerJs
namespace Coverage

open Engine Scan Host

/-- What `new Uint8Array(a)` does to the atom table does not depend on `a`. -/
def AtomsIndependent (construct : Construct) (ctor : JSValue) : Prop :=
  ∀ (t : AtomTable) (heap₁ heap₂ heap₁' heap₂' : Heap) (ref₁ ref₂ : ℕ) (v₁ v₂ : JSValue)
    (t₁ t₂ : AtomTable), construct heap₁ t ctor [.object ref₁] = .ok (v₁, heap₁', t₁) →
    construct heap₂ t ctor [.object ref₂] = .ok (v₂, heap₂', t₂) → t₁ = t₂

theorem copyElements_atomsIndependent (ctor : JSValue) : AtomsIndependent copyElements ctor := by
  have hsame : ∀ {heap heap' : Heap} {t t' : AtomTable} {ref : ℕ} {v : JSValue},
      copyElements heap t ctor [.object ref] = .ok (v, heap', t') → t' = t := by
    intro heap heap' t t' ref v h
    simp only [copyElements] at h
    split at h
    · exact (Prod.mk.inj (Prod.mk.inj (Eval.ok.inj h)).2).2.symm
    · exact absurd h (by simp)
  intro t heap₁ heap₂ heap₁' heap₂' ref₁ ref₂ v₁ v₂ t₁ t₂ h₁ h₂
  rw [hsame h₁, hsame h₂]

section Target

variable {construct : Construct} {T : Tables} {ctor : JSValue} {u₁ u₂ w₁ w₂ : World} {m₁ m₂ : Mem}
  {x y : List UInt8}

/-- **The table behind the script does not depend on the input**, for two worlds that start with
the same one. -/
theorem evalScript_atoms (h₁ : Fresh u₁) (h₂ : Fresh u₂) (hatoms : u₁.atoms = u₂.atoms)
    (hctor₁ : HasUint8Array u₁.realm ctor) (hctor₂ : HasUint8Array u₂.realm ctor)
    (hindep : AtomsIndependent construct ctor) (hx : Reads m₁ 0 (script false x ++ [0]))
    (hy : Reads m₂ 0 (script false y ++ [0]))
    (hokx : (evalScript construct (globalConfig T) noneName m₁ (script false x).length u₁).2 =
      .ok w₁)
    (hoky : (evalScript construct (globalConfig T) noneName m₂ (script false y).length u₂).2 =
      .ok w₂) : w₁.atoms = w₂.atoms := by
  obtain ⟨filename, out, inp, t, hn₁⟩ := h₁.named
  have hn₂ : Named u₂ filename out inp t := hn₁.of_atoms hatoms
  obtain ⟨v₁, heap₁, t₁, hcall₁, -, rfl⟩ := evalScript_binary_inv h₁ hn₁ hctor₁ hx hokx
  obtain ⟨v₂, heap₂, t₂, hcall₂, -, rfl⟩ := evalScript_binary_inv h₂ hn₂ hctor₂ hy hoky
  rw [hindep _ _ _ _ _ _ _ _ _ _ _ hcall₁ hcall₂]

/-- **Each program point of the target keeps its counter.**  Two calls of `JS::Run` with any two
inputs load the same functions from one bytecode, under the same names. -/
theorem functions_keep_counters (h₁ : Fresh u₁) (h₂ : Fresh u₂) (hatoms : u₁.atoms = u₂.atoms)
    (hctor₁ : HasUint8Array u₁.realm ctor) (hctor₂ : HasUint8Array u₂.realm ctor)
    (hindep : AtomsIndependent construct ctor) (hx : Reads m₁ 0 (script false x ++ [0]))
    (hy : Reads m₂ 0 (script false y ++ [0]))
    (hokx : (evalScript construct (globalConfig T) noneName m₁ (script false x).length u₁).2 =
      .ok w₁)
    (hoky : (evalScript construct (globalConfig T) noneName m₂ (script false y).length u₂).2 =
      .ok w₂) (bytecode : List UInt8) :
    readObject bytecode w₁.atoms = readObject bytecode w₂.atoms ∧
    ∀ fs₁ fs₂, readObject bytecode w₁.atoms = .ok fs₁ → readObject bytecode w₂.atoms = .ok fs₂ →
      fs₁.length = fs₂.length ∧
      ∀ (i : ℕ) (f₁ f₂ : LoadedFunction), fs₁[i]? = some f₁ → fs₂[i]? = some f₂ →
        f₁.funcName = f₂.funcName ∧
          ∀ offset, pointIndex f₁.funcName offset = pointIndex f₂.funcName offset := by
  have heq := evalScript_atoms h₁ h₂ hatoms hctor₁ hctor₂ hindep hx hy hokx hoky
  refine ⟨by rw [heq], fun fs₁ fs₂ hfs₁ hfs₂ => ?_⟩
  rw [heq, hfs₂] at hfs₁
  obtain rfl := Eval.ok.inj hfs₁
  refine ⟨rfl, fun i f₁ f₂ hf₁ hf₂ => ?_⟩
  rw [hf₁] at hf₂
  obtain rfl := Option.some.inj hf₂
  exact ⟨rfl, fun _ => rfl⟩

end Target

/-- A file with one function, called `<eval>`, whose code is one instruction. -/
def evalBytecode : List UInt8 := [1, 0, 13, 0, 0, 0, 0x9e, 1, 0, 0, 0, 0, 0, 0, 1, 0, 41]

/-- An input of one byte and one of two. -/
theorem functions_keep_counters_eval :
    ∃ w₁ w₂, (evalScript copyElements (globalConfig asciiTables) noneName
        (terminated (script false [1])) (script false [1]).length bareWorld).2 = .ok w₁ ∧
      (evalScript copyElements (globalConfig asciiTables) noneName
        (terminated (script false [200, 3])) (script false [200, 3]).length bareWorld).2 = .ok w₂ ∧
      readObject evalBytecode w₁.atoms = .ok [⟨79#32, 1⟩] ∧
      readObject evalBytecode w₂.atoms = .ok [⟨79#32, 1⟩] := by
  obtain ⟨w₁, -, ⟨hok₁, -⟩, -⟩ := (bareWorld_delivers [1] (by decide)).found
  obtain ⟨w₂, -, ⟨hok₂, -⟩, -⟩ := (bareWorld_delivers [200, 3] (by decide)).found
  have hload : readObject evalBytecode w₁.atoms = .ok [⟨79#32, 1⟩] := by rfl
  have hkeep := (functions_keep_counters bareWorld_fresh bareWorld_fresh rfl bareWorld_hasUint8Array
    bareWorld_hasUint8Array (copyElements_atomsIndependent _) (terminated_reads _)
    (terminated_reads _) hok₁ hok₂ evalBytecode).1
  exact ⟨w₁, w₂, hok₁, hok₂, hload, by rw [← hkeep, hload]⟩

end Coverage
end FuzzerJs
