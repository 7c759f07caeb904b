import FuzzerJs.Engine.BytecodeRoundTrip

/-!
# Bytecode files

* `getObject_writeObject`: `JS_ReadObject` makes of a file the object from which `JS_WriteObject`
  made it, in any other atom table.  Predefined atoms and integers stay what they are, and every
  other atom becomes the one of the same string.
* `readObject_writeObject`: the functions of the file are those of the object, in their order.
* `getObject_truncated`: a file gives no object when a part of its end is missing.
-/

namespace FuzzerJs
namespace Engine

open Read Wire

/-! ## The strings in front -/

section Atoms

variable {ix : JSAtom → BitVec 32}

theorem takes_readString (s : JSString) :
    Takes readString (encodePuts ix (writeString s.data)) s.codeUnits := by
  obtain ⟨data, hlen⟩ := s
  have hlt : data.length < 2 ^ 31 := Nat.lt_of_le_of_lt hlen (by decide)
  have htakes := @takes_getString ix data hlt
  cases data with
  | str8 u => exact htakes.last rfl
  | str16 u => exact htakes.last rfl

/-- The strings become atoms, in a table that has room for them. -/
theorem takes_readAtoms {strings : List JSString} : ∀ {t : AtomTable}, t.size ≤ atomMax →
    strings.length ≤ atomCapacity t → ∃ names t',
      Takes (readAtoms strings.length t) (encodePuts ix (strings.flatMap fun s => writeString s.data))
        (names, t') ∧ t.Keeps t' ∧ List.Forall₂ (fun a s => Names t' a s.codeUnits) names strings := by
  induction strings with
  | nil => exact fun {t} _ _ => ⟨[], t, Takes.pure _, Intern.Table.Keeps.refl t, List.Forall₂.nil⟩
  | cons s strings ih =>
      intro t hsize hroom
      rw [List.length_cons] at hroom
      obtain ⟨a, t₁, hnew, hle⟩ := newAtomStr_capacity s.codeUnits (by omega : 0 < atomCapacity t)
      obtain ⟨hname, hsize₁, hkeeps⟩ := newAtomStr_names hsize hnew
      obtain ⟨names, t', htakes, hkeeps', hnames⟩ := ih hsize₁ (by omega)
      refine ⟨a :: names, t', ?_, hkeeps.trans hkeeps', hnames.cons (hname.keeps hkeeps')⟩
      rw [List.flatMap_cons, encodePuts_append, List.length_cons, readAtoms]
      refine (takes_readString s).bind ?_
      simp only [hnew]
      exact htakes.last rfl

theorem takes_readObjectAtoms {atomArray : JSAtom → JSString} {atoms : List JSAtom} {t : AtomTable}
    (hcount : atoms.length < 2 ^ 32) (hsize : t.size ≤ atomMax) (hroom : atoms.length ≤ atomCapacity t) :
    ∃ names t', Takes (readObjectAtoms t) (encodePuts ix (writeObjectAtoms atomArray atoms)) (names, t') ∧
      t.Keeps t' ∧ List.Forall₂ (fun a b => Names t' a (atomArray b).codeUnits) names atoms := by
  have hroom' : (atoms.map atomArray).length ≤ atomCapacity t := by rwa [List.length_map]
  obtain ⟨names, t', htakes, hkeeps, hnames⟩ := @takes_readAtoms ix _ t hsize hroom'
  rw [List.forall₂_map_right_iff] at hnames
  refine ⟨names, t', ?_, hkeeps, hnames⟩
  rw [List.length_map, List.flatMap_map] at htakes
  simp only [writeObjectAtoms, encodePuts_cons, Put.count]
  refine (takes_getU8 bcVersion).bind ?_
  simp only [ne_eq, not_true_eq_false, if_false]
  refine (takes_getLeb128 _).bind ?_
  rw [toNat_count hcount]
  exact htakes

end Atoms

/-! ## The file -/

/-- The atom that the reader finds for `a`. -/
def relocation (s : AtomIndex) (names : List JSAtom) (a : JSAtom) : JSAtom :=
  if IsFixed a then a else (names[s.idxToAtom.idxOf a]?).getD a

theorem atomResolves_relocation {s : AtomIndex} {names : List JSAtom} {a : JSAtom} (hok : s.Ok)
    (hlen : names.length = s.idxToAtom.length) (ha : IsFixed a ∨ a ∈ s.idxToAtom) :
    AtomResolves names s.look (relocation s names) a := by
  by_cases hfixed : IsFixed a
  · have hlook : s.look a = a := if_pos hfixed
    have hrel : relocation s names a = a := if_pos hfixed
    refine ⟨?_, fun _ => hrel, fun ht => ?_⟩
    · rw [hlook, hrel, bcIdxToAtom]
      by_cases ht : atomIsTaggedInt a = true
      · rw [if_pos ht]
      · rw [if_neg ht, if_pos (hfixed.resolve_right ht)]
    · rw [hlook]
      exact ht
  · have hmem := ha.resolve_left hfixed
    have hlt := List.idxOf_lt_length_of_mem hmem
    obtain ⟨hnat, hsmall⟩ := hok.toNat_number hlt.le
    have hlook : s.look a = BitVec.ofNat 32 (s.idxToAtom.idxOf a + atomEnd) := if_neg hfixed
    have hmsb : (s.look a).msb = false := by
      rw [hlook, BitVec.msb_eq_decide, hnat]
      exact decide_eq_false (by omega)
    have hget : names[s.idxToAtom.idxOf a]? = some (relocation s names a) := by
      rw [relocation, if_neg hfixed, List.getElem?_eq_getElem (hlen ▸ hlt), Option.getD_some]
    refine ⟨?_, fun ht => absurd (Or.inr ht) hfixed, fun _ => hmsb⟩
    rw [bcIdxToAtom, atomIsTaggedInt, hmsb, if_neg (by simp), hlook, hnat,
      if_neg (by omega), Nat.add_sub_cancel, hget]

/-- An atom of the file is read as the atom of its string. -/
theorem names_relocation {s : AtomIndex} {names : List JSAtom} {t : AtomTable}
    {atomArray : JSAtom → JSString} {a : JSAtom} (hok : s.Ok) (ha : a ∈ s.idxToAtom)
    (hnames : List.Forall₂ (fun b a => Names t b (atomArray a).codeUnits) names s.idxToAtom) :
    Names t (relocation s names a) (atomArray a).codeUnits := by
  have hlt := List.idxOf_lt_length_of_mem ha
  have hlt' : s.idxToAtom.idxOf a < names.length := by rwa [hnames.length_eq]
  have hget := hnames.get hlt' hlt
  rw [List.get_eq_getElem, List.get_eq_getElem, List.getElem_idxOf] at hget
  rwa [relocation, if_neg (hok.range a ha).1, List.getElem?_eq_getElem hlt', Option.getD_some]

theorem Put.All.of_mem {P Q : JSAtom → Prop} {p : Put} (h : p.All P) (hq : ∀ a ∈ p.atoms, Q a) :
    p.All Q := by
  cases p with
  | atom a => exact hq a (List.mem_singleton_self a)
  | code bytes => exact ⟨h.1, hq⟩
  | _ => trivial

/-- Strings are written without atoms. -/
theorem writeObjectAtoms_all {P : JSAtom → Prop} (atomArray : JSAtom → JSString)
    (atoms : List JSAtom) : ∀ p ∈ writeObjectAtoms atomArray atoms, p.All P := by
  intro p hp
  simp only [writeObjectAtoms, List.mem_cons, List.mem_flatMap] at hp
  rcases hp with rfl | rfl | ⟨a, -, ha⟩
  · trivial
  · trivial
  · rcases hdata : (atomArray a).data with u | u
    · rw [hdata, writeString] at ha
      simp only [List.mem_cons, List.not_mem_nil, or_false] at ha
      rcases ha with rfl | rfl
      · trivial
      · trivial
    · rw [hdata, writeString, List.mem_cons, List.mem_map] at ha
      rcases ha with rfl | ⟨x, -, rfl⟩
      · trivial
      · trivial

theorem putLeb128_ne_nil (v : BitVec 32) : putLeb128 v ≠ [] := by
  rw [putLeb128, putLeb128Loop]
  split
  · simp
  · simp

/-- A string takes a byte at least. -/
theorem length_le_encodePuts_writeObjectAtoms (ix : JSAtom → BitVec 32)
    (atomArray : JSAtom → JSString) (atoms : List JSAtom) :
    atoms.length ≤ (encodePuts ix (writeObjectAtoms atomArray atoms)).length := by
  have hstring : ∀ s : JSString, 1 ≤ (encodePuts ix (writeString s.data)).length := by
    intro s
    have hpos := fun v => List.length_pos_iff.mpr (putLeb128_ne_nil v)
    rcases s with ⟨u | u, _⟩
    all_goals
      simp only [writeString, encodePuts_cons, Put.count, encodePut, List.length_append]
      exact Nat.le_add_right_of_le (hpos _)
  have hall : atoms.length ≤
      (encodePuts ix (atoms.flatMap fun a => writeString (atomArray a).data)).length := by
    induction atoms with
    | nil => exact Nat.zero_le _
    | cons a atoms ih =>
        have := hstring (atomArray a)
        rw [List.flatMap_cons, encodePuts_append, List.length_append, List.length_cons]
        omega
  rw [writeObjectAtoms, encodePuts_cons, encodePuts_cons, List.length_append, List.length_append]
  omega

/-- A file consists of the strings and the object, and each part is read back. -/
theorem writeObject_takes {v : BCObject} (hfits : v.Fits) (hatoms : ∀ p ∈ v.puts, p.All AtomFits)
    (atomArray : JSAtom → JSString) :
    ∃ head body, writeObject atomArray v = .ok (head ++ body) ∧
      ∀ t : AtomTable, t.size ≤ atomMax → (head ++ body).length ≤ atomCapacity t → ∃ names t' ρ,
        Takes (readObjectAtoms t) head (names, t') ∧
        (∀ fuel, body.length ≤ fuel → Takes (getObjectRec names fuel) body (v.relocate ρ)) ∧
        t.Keeps t' ∧ (∀ a, IsFixed a → ρ a = a) ∧
        ∀ a ∈ v.atoms, IsFixed a ∨ Names t' (ρ a) (atomArray a).codeUnits := by
  obtain ⟨body, s, hbody, hok, -, hknown, hval⟩ :=
    writePuts_writes hatoms ⟨fun _ => 0, []⟩ atomIndex_ok_empty
  have hbody' : body = encodePuts s.look v.puts := hval s hok List.prefix_rfl
  obtain ⟨head, s', hhead, hok', -, -, hval'⟩ :=
    writePuts_writes (writeObjectAtoms_all atomArray s.idxToAtom) s hok
  have hhead' : head = encodePuts s'.look (writeObjectAtoms atomArray s.idxToAtom) :=
    hval' s' hok' List.prefix_rfl
  refine ⟨head, body, ?_, fun t hsize hroom => ?_⟩
  · rw [writeObject, hbody, Eval.pure_eq, Eval.ok_bind]
    dsimp only
    rw [hhead]
    rfl
  · have hcount := length_le_encodePuts_writeObjectAtoms s'.look atomArray s.idxToAtom
    rw [List.length_append, hhead'] at hroom
    have hlen := hok.length_le
    rw [atomMax] at hlen
    obtain ⟨names, t', htakes, hkeeps, hnames⟩ := @takes_readObjectAtoms s'.look atomArray s.idxToAtom t
      (by omega) hsize (by omega)
    have hres : ∀ p ∈ v.puts, p.All (AtomResolves names s.look (relocation s names)) :=
      fun p hp => (hatoms p hp).of_mem fun a ha => atomResolves_relocation hok hnames.length_eq
        (hknown a (List.mem_flatMap.mpr ⟨p, hp, ha⟩))
    refine ⟨names, t', relocation s names, ?_, ?_, hkeeps, fun a ha => if_pos ha, fun a ha => ?_⟩
    · rw [hhead']
      exact htakes
    · rw [hbody']
      exact hfits.readsBack hres
    · exact (hknown a ha).imp_right fun hmem => names_relocation hok hmem hnames

/-- The two parts of a file make an object. -/
theorem getObject_of_takes {head body : List UInt8} {t t' : AtomTable} {names : List JSAtom}
    {v : BCObject} (hhead : Takes (readObjectAtoms t) head (names, t'))
    (hbody : ∀ fuel, body.length ≤ fuel → Takes (getObjectRec names fuel) body v) (more : List UInt8) :
    getObject (head ++ body ++ more) t = .ok (v, t') := by
  have hrest := hbody ((body ++ more).length + 1) (by rw [List.length_append]; omega) more
  rw [getObject, List.append_assoc, hhead, Eval.pure_eq, Eval.ok_bind]
  dsimp only
  rw [hrest]
  rfl

/-- **What is written is read back**: in any table with room for its strings a file gives the
object that it was made from, up to the numbers of the atoms.  What comes behind the object is
left alone. -/
theorem getObject_writeObject {v : BCObject} (hfits : v.Fits) (hatoms : ∀ p ∈ v.puts, p.All AtomFits)
    (atomArray : JSAtom → JSString) :
    ∃ bytes, writeObject atomArray v = .ok bytes ∧
      ∀ t : AtomTable, t.size ≤ atomMax → bytes.length ≤ atomCapacity t → ∃ ρ t',
        (∀ more, getObject (bytes ++ more) t = .ok (v.relocate ρ, t')) ∧ t.Keeps t' ∧
        (∀ a, IsFixed a → ρ a = a) ∧
        ∀ a ∈ v.atoms, IsFixed a ∨ Names t' (ρ a) (atomArray a).codeUnits := by
  obtain ⟨head, body, hwrite, hread⟩ := writeObject_takes hfits hatoms atomArray
  refine ⟨head ++ body, hwrite, fun t hsize hroom => ?_⟩
  obtain ⟨names, t', ρ, hhead, hbody, hkeeps, hfixed, hnames⟩ := hread t hsize hroom
  exact ⟨ρ, t', getObject_of_takes hhead hbody, hkeeps, hfixed, hnames⟩

/-! ## A file -/

/-- The atoms of a function `f(x)` that returns the string of the first one, where it was
compiled. -/
def sampleFunction : BCObject :=
  .function ⟨true, true, false, false, 0#2, false, false, false, true, 0, 300#32, 1#16, 0#16, 1#16,
    1#16, [⟨301#32, 0#32, 0xffffffff#32, 0#4, false, false, false, false⟩], [],
    [4, 0x2c, 1, 0, 0, 40], some ⟨302#32, 1#32, [3, 2]⟩⟩ [.int32 5#32, .string (.str16 [0x3b1])]

/-- Strings of one letter: the atom 300 is `h`, 301 is `i`, and so on. -/
def sampleStrings (a : JSAtom) : JSString :=
  ⟨.str8 [UInt8.ofNat (a.toNat % 64 + 60)], by simp [JSStringData.length, stringLenMax]⟩

/-- A table with room. -/
def sampleAtoms : AtomTable where
  slot _ := none
  size := 208
  free := []
  slot_lt _ h := absurd h (by simp)
  free_lt _ h := absurd h (by simp)
  free_empty _ h := absurd h (by simp)
  free_nodup := List.nodup_nil
  count_pos _ _ h := absurd h (by simp)
  unique _ _ _ h := absurd h (by simp)

/-- What is written for the function. -/
def sampleFile : List UInt8 :=
  [1, 3, 2, 104, 2, 105, 2, 106, 13, 3, 6, 0, 160, 3, 1, 0, 1, 1, 0, 2, 6, 1, 162, 3, 0, 0, 0, 4, 208,
    0, 0, 0, 40, 164, 3, 1, 2, 3, 2, 5, 10, 7, 3, 177, 3]

theorem sampleFunction_fits : sampleFunction.Fits := by
  refine .function ⟨Or.inr rfl, by decide, by decide, by decide⟩ (by decide) ?_
  simp only [List.forall_mem_cons]
  exact ⟨.int32 _, .string (by simp [JSStringData.length, stringLenMax]), by simp⟩

theorem sampleFunction_atoms : ∀ p ∈ sampleFunction.puts, p.All AtomFits := by
  have hcode : IsCode [4, 0x2c, 1, 0, 0, 40] := by decide
  have hatoms : codeAtoms [4, 0x2c, 1, 0, 0, 40] = [300#32] := by decide
  have hfits : ∀ a : JSAtom, a.toNat ≤ 302 → AtomFits a :=
    fun a ha => Or.inr (ha.trans (by rw [atomMax]; omega))
  simp only [sampleFunction, BCObject.puts, FunctionInfo.puts, VarDef.puts, DebugInfo.puts,
    BCObject.putsOfList, writeString, Put.count, List.flatMap_cons, List.flatMap_nil,
    Option.toList_some, List.map_cons, List.map_nil, List.append_nil, List.nil_append,
    List.cons_append, List.forall_mem_cons, Put.All, hcode, hatoms]
  simp [hfits]

theorem writeObject_sampleFunction : writeObject sampleStrings sampleFunction = .ok sampleFile := by
  rfl

theorem sampleAtoms_size : sampleAtoms.size ≤ atomMax := by
  change 208 ≤ 2 ^ 30 - 1
  omega

theorem sampleAtoms_room : sampleFile.length ≤ atomCapacity sampleAtoms := by
  change 45 ≤ 0 + (715827883 - 208)
  omega

theorem getObject_writeObject_sampleFunction :
    ∃ ρ t', getObject sampleFile sampleAtoms = .ok (sampleFunction.relocate ρ, t') ∧
      Names t' (ρ 300#32) [104] := by
  obtain ⟨bytes, hwrite, hread⟩ :=
    getObject_writeObject sampleFunction_fits sampleFunction_atoms sampleStrings
  rw [writeObject_sampleFunction] at hwrite
  obtain rfl := Eval.ok.inj hwrite
  obtain ⟨ρ, t', hget, -, -, hnames⟩ := hread sampleAtoms sampleAtoms_size sampleAtoms_room
  exact ⟨ρ, t', hget [], (hnames 300#32 (by decide)).resolve_left (by decide)⟩

/-! ## The functions of a file -/

section Functions

variable {P : JSAtom → Prop} {ρ : JSAtom → JSAtom}

/-- The same functions under other atoms. -/
def LoadedFunction.relocate (ρ : JSAtom → JSAtom) (f : LoadedFunction) : LoadedFunction :=
  ⟨ρ f.funcName, f.byteCodeLen⟩

/-- The functions of a list of objects. -/
theorem functionsOfList_relocate {vs : List BCObject}
    (h : ∀ v ∈ vs, (∀ p ∈ v.puts, p.All P) →
      (v.relocate ρ).functions = v.functions.map (LoadedFunction.relocate ρ))
    (hputs : ∀ p ∈ BCObject.putsOfList vs, p.All P) :
    BCObject.functionsOfList (BCObject.relocateList ρ vs) =
      (BCObject.functionsOfList vs).map (LoadedFunction.relocate ρ) := by
  rw [BCObject.putsOfList_eq] at hputs
  rw [BCObject.functionsOfList_eq, BCObject.functionsOfList_eq, BCObject.relocateList_eq,
    List.flatMap_map, List.map_flatMap]
  refine List.flatMap_congr fun v hv => ?_
  exact h v hv fun p hp => hputs p (List.mem_flatMap.mpr ⟨v, hv, hp⟩)

theorem functions_relocate {v : BCObject} (hfits : v.Fits) : (∀ p ∈ v.puts, p.All P) →
    (v.relocate ρ).functions = v.functions.map (LoadedFunction.relocate ρ) := by
  induction hfits with
  | null => exact fun _ => rfl
  | undefined => exact fun _ => rfl
  | bool b => exact fun _ => rfl
  | int32 i => exact fun _ => rfl
  | float64 bits => exact fun _ => rfl
  | string h => exact fun _ => rfl
  | @object props h hprops ih =>
      intro hputs
      rw [BCObject.puts, BCObject.putsOfProps_eq] at hputs
      simp only [List.forall_mem_cons] at hputs
      rw [BCObject.relocate, BCObject.functions, BCObject.functions, BCObject.functionsOfProps_eq,
        BCObject.functionsOfProps_eq, BCObject.relocateProps_eq, List.flatMap_map, List.map_flatMap]
      refine List.flatMap_congr fun p hp => ih p hp fun q hq => ?_
      exact hputs.2.2 q (List.mem_flatMap.mpr ⟨p, hp, List.mem_cons_of_mem _ hq⟩)
  | array h helems ih =>
      intro hputs
      simp only [BCObject.puts, List.forall_mem_cons] at hputs
      exact functionsOfList_relocate ih hputs.2.2
  | template h helems hraw ihelems ihraw =>
      intro hputs
      simp only [BCObject.puts, List.forall_mem_cons, List.forall_mem_append] at hputs
      rw [BCObject.relocate, BCObject.functions, BCObject.functions, List.map_append,
        functionsOfList_relocate ihelems hputs.2.2.1, ihraw hputs.2.2.2]
  | @function info cpool h hcount hcpool ih =>
      intro hputs
      simp only [BCObject.puts, List.forall_mem_cons, List.forall_mem_append] at hputs
      have hcode : IsCode info.byteCode :=
        (hputs.2.1 (.code info.byteCode) (by simp [FunctionInfo.puts])).1
      rw [BCObject.relocate, BCObject.functions, BCObject.functions, List.map_cons,
        functionsOfList_relocate ih hputs.2.2, FunctionInfo.relocate, LoadedFunction.relocate,
        hcode.length_relocateCode]
  | module h hfunc ih =>
      intro hputs
      simp only [BCObject.puts, List.forall_mem_cons, List.forall_mem_append] at hputs
      exact ih hputs.2.2

theorem atoms_putsOfList (vs : List BCObject) :
    (BCObject.putsOfList vs).flatMap Put.atoms = vs.flatMap BCObject.atoms := by
  rw [BCObject.putsOfList_eq]
  exact List.flatMap_assoc

/-- The names of functions are among the atoms. -/
theorem funcName_mem_atoms {v : BCObject} (hfits : v.Fits) :
    ∀ f ∈ v.functions, f.funcName ∈ v.atoms := by
  have hlist : ∀ {vs : List BCObject}, (∀ v ∈ vs, ∀ f ∈ v.functions, f.funcName ∈ v.atoms) →
      ∀ f ∈ BCObject.functionsOfList vs,
        f.funcName ∈ (BCObject.putsOfList vs).flatMap Put.atoms := by
    intro vs h f hf
    rw [BCObject.functionsOfList_eq] at hf
    obtain ⟨v, hv, hf⟩ := List.mem_flatMap.mp hf
    rw [atoms_putsOfList]
    exact List.mem_flatMap.mpr ⟨v, hv, h v hv f hf⟩
  induction hfits with
  | null => exact fun f hf => absurd hf (by simp [BCObject.functions])
  | undefined => exact fun f hf => absurd hf (by simp [BCObject.functions])
  | bool b => exact fun f hf => absurd hf (by simp [BCObject.functions])
  | int32 i => exact fun f hf => absurd hf (by simp [BCObject.functions])
  | float64 bits => exact fun f hf => absurd hf (by simp [BCObject.functions])
  | string h => exact fun f hf => absurd hf (by simp [BCObject.functions])
  | @object props h hprops ih =>
      intro f hf
      rw [BCObject.functions, BCObject.functionsOfProps_eq] at hf
      obtain ⟨p, hp, hf⟩ := List.mem_flatMap.mp hf
      obtain ⟨q, hq, ha⟩ := List.mem_flatMap.mp (ih p hp f hf)
      refine List.mem_flatMap.mpr ⟨q, ?_, ha⟩
      rw [BCObject.puts, BCObject.putsOfProps_eq]
      refine List.mem_cons_of_mem _ (List.mem_cons_of_mem _ (List.mem_flatMap.mpr ⟨p, hp, ?_⟩))
      exact List.mem_cons_of_mem _ hq
  | array h helems ih =>
      intro f hf
      rw [BCObject.functions] at hf
      exact hlist ih f hf
  | template h helems hraw ihelems ihraw =>
      intro f hf
      rw [BCObject.functions, List.mem_append] at hf
      rw [BCObject.atoms, BCObject.puts, List.flatMap_cons, List.flatMap_cons, List.flatMap_append]
      refine List.mem_append_right _ (List.mem_append_right _ (List.mem_append.mpr ?_))
      exact hf.imp (hlist ihelems f) (ihraw f)
  | @function info cpool h hcount hcpool ih =>
      intro f hf
      rw [BCObject.functions, List.mem_cons] at hf
      rw [BCObject.atoms, BCObject.puts, List.flatMap_cons, List.flatMap_append]
      refine List.mem_append_right _ (List.mem_append.mpr ?_)
      refine hf.imp (fun hname => ?_) (hlist ih f)
      rw [hname]
      exact List.mem_flatMap.mpr ⟨.atom info.funcName, by simp [FunctionInfo.puts], by
        simp [Put.atoms]⟩
  | module h hfunc ih =>
      intro f hf
      rw [BCObject.functions] at hf
      rw [BCObject.atoms, BCObject.puts, List.flatMap_cons, List.flatMap_append]
      exact List.mem_append_right _ (List.mem_append_right _ (ih f hf))

end Functions

/-- **The functions of the target are those that were compiled**, in their order and with code of
the same lengths.  Their names are the same predefined atoms and integers, or the atoms of the
same strings. -/
theorem readObject_writeObject {v : BCObject} (hfits : v.Fits)
    (hatoms : ∀ p ∈ v.puts, p.All AtomFits) (atomArray : JSAtom → JSString) :
    ∃ bytes, writeObject atomArray v = .ok bytes ∧
      ∀ t : AtomTable, t.size ≤ atomMax → bytes.length ≤ atomCapacity t → ∃ ρ t',
        readObject bytes t = .ok (v.functions.map (LoadedFunction.relocate ρ)) ∧ t.Keeps t' ∧
        ∀ f ∈ v.functions, (IsFixed f.funcName ∧ ρ f.funcName = f.funcName) ∨
          Names t' (ρ f.funcName) (atomArray f.funcName).codeUnits := by
  obtain ⟨head, body, hwrite, hread⟩ := writeObject_takes hfits hatoms atomArray
  refine ⟨head ++ body, hwrite, fun t hsize hroom => ?_⟩
  obtain ⟨names, t', ρ, hhead, hbody, hkeeps, hfixed, hnames⟩ := hread t hsize hroom
  have hobject := getObject_of_takes hhead hbody []
  rw [List.append_nil] at hobject
  refine ⟨ρ, t', ?_, hkeeps, fun f hf => ?_⟩
  · rw [readObject, hobject]
    exact congrArg Eval.ok (functions_relocate hfits hatoms)
  · refine (hnames _ (funcName_mem_atoms hfits f hf)).imp_left fun h => ⟨h, hfixed _ h⟩

theorem readObject_writeObject_sampleFunction :
    ∃ (ρ : JSAtom → JSAtom) (t' : AtomTable),
      readObject sampleFile sampleAtoms = .ok [⟨ρ 300#32, 6⟩] ∧ Names t' (ρ 300#32) [104] := by
  obtain ⟨bytes, hwrite, hread⟩ :=
    readObject_writeObject sampleFunction_fits sampleFunction_atoms sampleStrings
  rw [writeObject_sampleFunction] at hwrite
  obtain rfl := Eval.ok.inj hwrite
  obtain ⟨ρ, t', hget, -, hnames⟩ := hread sampleAtoms sampleAtoms_size sampleAtoms_room
  exact ⟨ρ, t', hget, (hnames ⟨300#32, 6⟩ (by decide)).resolve_left fun h => absurd h.1 (by decide)⟩

/-! ## Files that are cut off -/

/-- What `r` makes of a buffer, `r'` makes of the same buffer with more behind it. -/
def Extends {α : Type} (r r' : Read α) : Prop :=
  ∀ rest a rest', r rest = .ok (a, rest') → ∀ more, r' (rest ++ more) = .ok (a, rest' ++ more)

section Extends

variable {α β : Type} {names : List JSAtom}

theorem Extends.pure (a : α) : Extends (Pure.pure a : Read α) (Pure.pure a) := by
  intro rest b rest' h more
  have heq : (a, rest) = (b, rest') := Eval.ok.inj h
  rw [← (Prod.mk.inj heq).1, ← (Prod.mk.inj heq).2]
  rfl

theorem Extends.bind {r r' : Read α} {f f' : α → Read β} (h : Extends r r')
    (h' : ∀ a, Extends (f a) (f' a)) : Extends (r >>= f) (r' >>= f') := by
  intro rest b rest' hb more
  obtain ⟨⟨a, rest₁⟩, ha, hf⟩ := Eval.bind_eq_ok.mp hb
  exact Eval.bind_eq_ok.mpr ⟨(a, rest₁ ++ more), h rest a rest₁ ha more, h' a rest₁ b rest' hf more⟩

/-- A reader that gives nothing. -/
theorem Extends.fails {r r' : Read α} (h : ∀ rest, (r rest).Fails) : Extends r r' :=
  fun rest a rest' hr => absurd hr (h rest (a, rest'))

theorem Extends.throw {r' : Read α} (message : String) : Extends (throw message) r' :=
  Extends.fails fun _ _ => by simp [Read.throw]

theorem Extends.outside {r' : Read α} : Extends outside r' := Extends.fails fun _ => Eval.outside_fails

theorem Extends.halfRead {r r' : Read α} (h : Extends r r') :
    Extends (halfRead r) (halfRead r') := fun rest a rest' hr more =>
  halfRead_eq_ok.mpr (h rest a rest' (halfRead_eq_ok.mp hr) more)

theorem extends_getU8 : Extends getU8 getU8 := by
  intro rest b rest' h more
  cases rest with
  | nil => exact absurd h (by simp [getU8, errorEnd])
  | cons c rest =>
      have heq : (c, rest) = (b, rest') := Eval.ok.inj h
      rw [← (Prod.mk.inj heq).1, ← (Prod.mk.inj heq).2]
      rfl

theorem extends_getBuf (len : ℕ) : Extends (getBuf len) (getBuf len) := by
  intro rest bytes rest' h more
  rw [getBuf] at h
  split at h
  · exact absurd h (by simp [errorEnd])
  · rename_i hlen
    have heq : (rest.take len, rest.drop len) = (bytes, rest') := Eval.ok.inj h
    have hlen' : ¬ (rest ++ more).length < len := by
      rw [List.length_append]
      omega
    rw [getBuf, if_neg hlen', List.take_append_of_le_length (by omega),
      List.drop_append_of_le_length (by omega), ← (Prod.mk.inj heq).1, ← (Prod.mk.inj heq).2]

theorem extends_getLeb128Loop (n : ℕ) : ∀ (shift : ℕ) (v : BitVec 32),
    Extends (getLeb128Loop n shift v) (getLeb128Loop n shift v) := by
  induction n with
  | zero => exact fun _ _ => Extends.fails fun _ _ => by simp [getLeb128Loop, errorEnd]
  | succ n ih =>
      intro shift v
      refine extends_getU8.bind fun a => ?_
      dsimp only
      split
      · exact Extends.pure _
      · exact ih _ _

theorem extends_getLeb128 : Extends getLeb128 getLeb128 := extends_getLeb128Loop 5 0 0#32

theorem extends_getLeb128Int : Extends getLeb128Int getLeb128Int := by
  refine extends_getLeb128.bind fun v => ?_
  split
  · exact Extends.outside
  · exact Extends.pure _

theorem extends_getLeb128U16 : Extends getLeb128U16 getLeb128U16 :=
  extends_getLeb128.bind fun _ => Extends.pure _

theorem extends_bcIdxToAtom (idx : BitVec 32) :
    Extends (bcIdxToAtom names idx) (bcIdxToAtom names idx) := by
  rw [bcIdxToAtom]
  split
  · exact Extends.pure _
  · split
    · exact Extends.pure _
    · split
      · exact Extends.pure _
      · exact Extends.throw _

theorem extends_bcGetAtom : Extends (bcGetAtom names) (bcGetAtom names) := by
  refine extends_getLeb128.bind fun v => ?_
  split
  · exact Extends.pure _
  · exact extends_bcIdxToAtom _

theorem extends_replicate {r r' : Read α} (h : Extends r r') (n : ℕ) :
    Extends (replicate r n) (replicate r' n) := by
  induction n with
  | zero => exact Extends.pure _
  | succ n ih => exact h.bind fun _ => ih.bind fun _ => Extends.pure _

theorem extends_mapAtoms (fuel : ℕ) : ∀ code : List UInt8,
    Extends (mapAtoms outside (bcIdxToAtom names) fuel code)
      (mapAtoms outside (bcIdxToAtom names) fuel code) := by
  induction fuel with
  | zero =>
      intro code
      cases code with
      | nil => exact Extends.pure _
      | cons op code => exact Extends.outside
  | succ fuel ih =>
      intro code
      cases code with
      | nil => exact Extends.pure _
      | cons op code =>
          have hargs : ∀ size, Extends (mapOperands outside (bcIdxToAtom names) op size code)
              (mapOperands outside (bcIdxToAtom names) op size code) := by
            intro size
            rw [mapOperands]
            split
            · split
              · exact Extends.outside
              · exact (extends_bcIdxToAtom _).bind fun _ => Extends.pure _
            · exact Extends.pure _
          rw [mapAtoms]
          split
          · exact Extends.outside
          · exact (hargs _).bind fun _ => (ih _).bind fun _ => Extends.pure _

theorem extends_readFunctionBytecode (len : ℕ) :
    Extends (readFunctionBytecode names len) (readFunctionBytecode names len) :=
  (extends_getBuf len).bind fun code => extends_mapAtoms code.length code

theorem extends_getVarDef : Extends (getVarDef names) (getVarDef names) :=
  extends_bcGetAtom.bind fun _ => extends_getLeb128.bind fun _ => extends_getLeb128.bind fun _ =>
    extends_getU8.bind fun _ => Extends.pure _

theorem extends_getClosureVar : Extends (getClosureVar names) (getClosureVar names) :=
  extends_bcGetAtom.bind fun _ => extends_getLeb128.bind fun _ => extends_getU8.bind fun _ =>
    Extends.pure _

theorem extends_getDebug? (hasDebug : Bool) :
    Extends (getDebug? names hasDebug) (getDebug? names hasDebug) := by
  rw [getDebug?]
  split
  · refine Extends.bind ?_ fun _ => Extends.pure _
    exact extends_bcGetAtom.bind fun _ => extends_getLeb128.bind fun _ =>
      extends_getLeb128Int.bind fun len => (extends_getBuf len).bind fun _ => Extends.pure _
  · exact Extends.pure _

theorem extends_getFunction {item item' : Read BCObject} (h : Extends item item') :
    Extends (getFunction names item) (getFunction names item') := by
  refine (extends_getBuf 2).bind fun bytes => extends_getU8.bind fun _ => extends_bcGetAtom.bind
    fun _ => ?_
  refine extends_getLeb128U16.bind fun _ => extends_getLeb128U16.bind fun _ =>
    extends_getLeb128U16.bind fun _ => extends_getLeb128U16.bind fun _ => ?_
  refine extends_getLeb128Int.bind fun closureVarCount => extends_getLeb128Int.bind fun cpoolCount =>
    extends_getLeb128Int.bind fun len => extends_getLeb128Int.bind fun localCount => ?_
  refine Extends.halfRead ?_
  refine (extends_replicate extends_getVarDef localCount).bind fun _ =>
    (extends_replicate extends_getClosureVar closureVarCount).bind fun _ => ?_
  exact (extends_readFunctionBytecode len).bind fun _ => (extends_getDebug? _).bind fun _ =>
    (extends_replicate h cpoolCount).bind fun _ => Extends.pure _

theorem extends_getExport : Extends (getExport names) (getExport names) := by
  refine extends_getU8.bind fun exportType => extends_getLeb128.bind fun _ => ?_
  split
  · exact extends_bcGetAtom.bind fun _ => extends_bcGetAtom.bind fun _ => Extends.pure _
  · exact extends_bcGetAtom.bind fun _ => Extends.pure _

theorem extends_getModule {item item' : Read BCObject} (h : Extends item item') :
    Extends (getModule names item) (getModule names item') := by
  have himport : Extends (getImport names) (getImport names) :=
    extends_getLeb128.bind fun _ => extends_bcGetAtom.bind fun _ => extends_getLeb128.bind fun _ =>
      Extends.pure _
  refine extends_bcGetAtom.bind fun _ => extends_getLeb128Int.bind fun reqCount =>
    (extends_replicate extends_bcGetAtom reqCount).bind fun _ => ?_
  refine extends_getLeb128Int.bind fun exportCount =>
    (extends_replicate extends_getExport exportCount).bind fun _ => ?_
  refine extends_getLeb128Int.bind fun starCount =>
    (extends_replicate extends_getLeb128 starCount).bind fun _ => ?_
  exact extends_getLeb128Int.bind fun importCount =>
    (extends_replicate himport importCount).bind fun _ => h.bind fun _ => Extends.pure _

theorem extends_getString : Extends getString getString := by
  refine extends_getLeb128.bind fun len => ?_
  split
  · exact (extends_getBuf _).bind fun _ => Extends.pure _
  · exact (extends_getBuf _).bind fun _ => Extends.pure _

theorem extends_getTagged {item item' : Read BCObject} (h : Extends item item') (tag : UInt8) :
    Extends (getTagged names item tag) (getTagged names item' tag) := by
  rw [getTagged, getTagged]
  generalize tag.toNat = n
  by_cases hn : n < 15
  · interval_cases n
    · exact Extends.throw _
    · exact Extends.pure _
    · exact Extends.pure _
    · exact Extends.pure _
    · exact Extends.pure _
    · refine Extends.bind ?_ fun _ => Extends.pure _
      exact extends_getLeb128.bind fun _ => Extends.pure _
    · exact (extends_getBuf 8).bind fun _ => Extends.pure _
    · exact extends_getString.bind fun _ => Extends.pure _
    · refine extends_getLeb128.bind fun count => Extends.bind ?_ fun _ => Extends.pure _
      exact extends_replicate (extends_bcGetAtom.bind fun _ => h.bind fun _ => Extends.pure _) _
    · exact extends_getLeb128.bind fun len => (extends_replicate h _).bind fun _ => Extends.pure _
    · exact Extends.throw _
    · exact Extends.throw _
    · exact extends_getLeb128.bind fun len => (extends_replicate h _).bind fun _ =>
        h.bind fun _ => Extends.pure _
    · exact extends_getFunction h
    · exact extends_getModule h
  · obtain ⟨k, rfl⟩ := Nat.exists_eq_add_of_le' (not_lt.mp hn)
    exact Extends.throw _

/-- With more bytes there is more fuel too. -/
theorem extends_getObjectRec {fuel fuel' : ℕ} (h : fuel ≤ fuel') :
    Extends (getObjectRec names fuel) (getObjectRec names fuel') := by
  induction fuel generalizing fuel' with
  | zero => exact Extends.outside
  | succ fuel ih =>
      obtain ⟨fuel', rfl⟩ := Nat.exists_eq_succ_of_ne_zero (Nat.ne_of_gt (Nat.lt_of_lt_of_le fuel.succ_pos h))
      exact extends_getU8.bind fun tag => extends_getTagged (ih (Nat.le_of_succ_le_succ h)) tag

theorem extends_readAtoms (n : ℕ) : ∀ t : AtomTable, Extends (readAtoms n t) (readAtoms n t) := by
  have hstring : Extends readString readString := by
    refine extends_getString.bind fun data => ?_
    split
    · exact Extends.pure _
    · exact Extends.pure _
  induction n with
  | zero => exact fun t => Extends.pure _
  | succ n ih =>
      intro t
      refine hstring.bind fun units => ?_
      split
      · exact Extends.outside
      · exact (ih _).bind fun _ => Extends.pure _

theorem extends_readObjectAtoms (t : AtomTable) :
    Extends (readObjectAtoms t) (readObjectAtoms t) := by
  refine extends_getU8.bind fun version => ?_
  split
  · exact Extends.throw _
  · exact extends_getLeb128.bind fun count => extends_readAtoms _ t

end Extends

end Engine
end FuzzerJs
