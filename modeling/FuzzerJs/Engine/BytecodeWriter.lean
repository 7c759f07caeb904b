import FuzzerJs.Engine.BytecodeObject

/-!
# Writing bytecode

`JS_WriteObject` with `JS_WRITE_OBJ_BYTECODE`.  The body of the file is a sequence of calls of
`bc_put_u8`, `bc_put_leb128` and so on, which depends on the object only (`BCObject.puts`).
Atoms are numbered from `JS_ATOM_END` on, in the order in which the calls come to them; their
strings are put in front of the body when all of them are known.

`writePuts_writes` says what comes of the numbering on the way: the body is what one would
write with the final numbers from the start.
-/

namespace FuzzerJs
namespace Engine

open Wire

/-! ## Numbers -/

/-- The loop of `dbuf_put_leb128`, which goes round once for every seven bits. -/
def putLeb128Loop : ℕ → BitVec 32 → List UInt8
  | 0, _ => []
  | n + 1, v =>
    let a := UInt8.ofNat (v &&& 0x7f#32).toNat
    if v >>> 7 = 0#32 then [a] else (a ||| 0x80) :: putLeb128Loop n (v >>> 7)

/-- `dbuf_put_leb128`. -/
def putLeb128 (v : BitVec 32) : List UInt8 := putLeb128Loop 5 v

/-- `dbuf_put_sleb128`. -/
def putSleb128 (v : BitVec 32) : List UInt8 := putLeb128 (2 * v ^^^ -(v >>> 31))

/-! ## The calls of a writer -/

/-- A call of `bc_put_u8` and the like, of `dbuf_put` or of `JS_WriteFunctionBytecode`. -/
inductive Put where
  | u8 (v : UInt8)
  | u16 (v : BitVec 16)
  | u64 (v : BitVec 64)
  | leb128 (v : BitVec 32)
  | sleb128 (v : BitVec 32)
  | atom (a : JSAtom)
  | buf (bytes : List UInt8)
  | code (code : List UInt8)

/-- A length or a count. -/
def Put.count (n : ℕ) : Put := .leb128 (BitVec.ofNat 32 n)

/-- `JS_WriteString`. -/
def writeString : JSStringData → List Put
  | .str8 u => [.count (2 * u.length), .buf u]
  | .str16 u => .count (2 * u.length + 1) :: u.map fun x => .u16 x.toBitVec

/-- The flags of an entry of `b->vardefs`, each with its width. -/
def VarDef.flags (vd : VarDef) : List (ℕ × ℕ) :=
  [(vd.varKind.toNat, 4), (vd.isFuncVar.toNat, 1), (vd.isConst.toNat, 1), (vd.isLexical.toNat, 1),
    (vd.isCaptured.toNat, 1)]

/-- One entry of `b->vardefs`. -/
def VarDef.puts (vd : VarDef) : List Put :=
  [.atom vd.varName, .leb128 vd.scopeLevel, .leb128 (vd.scopeNext + 1),
    .u8 (UInt8.ofNat (setFlags vd.flags 0 0))]

/-- The flags of an entry of `b->closure_var`, each with its width. -/
def ClosureVar.flags (cv : ClosureVar) : List (ℕ × ℕ) :=
  [(cv.isLocal.toNat, 1), (cv.isArg.toNat, 1), (cv.isConst.toNat, 1), (cv.isLexical.toNat, 1),
    (cv.varKind.toNat, 4)]

/-- One entry of `b->closure_var`. -/
def ClosureVar.puts (cv : ClosureVar) : List Put :=
  [.atom cv.varName, .leb128 (cv.varIdx.setWidth 32), .u8 (UInt8.ofNat (setFlags cv.flags 0 0))]

/-- The debug information. -/
def DebugInfo.puts (debug : DebugInfo) : List Put :=
  [.atom debug.filename, .leb128 debug.lineNum, .count debug.pc2lineBuf.length,
    .buf debug.pc2lineBuf]

/-- The flags of a function, each with its width. -/
def FunctionInfo.flags (b : FunctionInfo) : List (ℕ × ℕ) :=
  [(b.hasPrototype.toNat, 1), (b.hasSimpleParameterList.toNat, 1),
    (b.isDerivedClassConstructor.toNat, 1), (b.needHomeObject.toNat, 1), (b.funcKind.toNat, 2),
    (b.newTargetAllowed.toNat, 1), (b.superCallAllowed.toNat, 1), (b.superAllowed.toNat, 1),
    (b.argumentsAllowed.toNat, 1), (b.debug.isSome.toNat, 1)]

/-- The number of entries of `b->vardefs`, which may be missing. -/
def FunctionInfo.localCount (b : FunctionInfo) : ℕ :=
  if b.vardefs = [] then 0 else b.argCount.toNat + b.varCount.toNat

/-- What stands between `BC_TAG_FUNCTION_BYTECODE` and the constant pool. -/
def FunctionInfo.puts (b : FunctionInfo) (cpoolCount : ℕ) : List Put :=
  .u16 (BitVec.ofNat 16 (setFlags b.flags 0 0)) :: .u8 b.jsMode :: .atom b.funcName ::
    .leb128 (b.argCount.setWidth 32) :: .leb128 (b.varCount.setWidth 32) ::
    .leb128 (b.definedArgCount.setWidth 32) :: .leb128 (b.stackSize.setWidth 32) ::
    .count b.closureVar.length :: .count cpoolCount :: .count b.byteCode.length ::
    .count b.localCount :: (b.vardefs.flatMap VarDef.puts ++ (b.closureVar.flatMap ClosureVar.puts ++
      .code b.byteCode :: (b.debug.toList.flatMap DebugInfo.puts)))

/-- One entry of `m->export_entries`. -/
def ExportEntry.puts : ExportEntry → List Put
  | .loc varIdx exportName => [.u8 0, .leb128 varIdx, .atom exportName]
  | .indirect exportType _ reqModuleIdx localName exportName =>
    [.u8 exportType, .leb128 reqModuleIdx, .atom localName, .atom exportName]

/-- One entry of `m->import_entries`. -/
def ImportEntry.puts (mi : ImportEntry) : List Put :=
  [.leb128 mi.varIdx, .atom mi.importName, .leb128 mi.reqModuleIdx]

/-- What stands between `BC_TAG_MODULE` and the function of the module. -/
def ModuleInfo.puts (m : ModuleInfo) : List Put :=
  .atom m.moduleName :: .count m.reqModuleEntries.length ::
    (m.reqModuleEntries.flatMap (fun a => [Put.atom a]) ++
      .count m.exportEntries.length :: (m.exportEntries.flatMap ExportEntry.puts ++
        .count m.starExportEntries.length :: (m.starExportEntries.flatMap (fun i => [Put.leb128 i]) ++
          .count m.importEntries.length :: m.importEntries.flatMap ImportEntry.puts)))

mutual

/-- `JS_WriteObjectRec`, without `CONFIG_BIGNUM`. -/
def BCObject.puts : BCObject → List Put
  | .null => [.u8 1]
  | .undefined => [.u8 2]
  | .bool b => [.u8 (if b then 4 else 3)]
  | .int32 i => [.u8 5, .sleb128 i]
  | .float64 bits => [.u8 6, .u64 bits]
  | .string data => .u8 7 :: writeString data
  | .object props => .u8 8 :: .count props.length :: putsOfProps props
  | .array elems => .u8 9 :: .count elems.length :: putsOfList elems
  | .template elems raw => .u8 12 :: .count elems.length :: (putsOfList elems ++ raw.puts)
  | .function info cpool => .u8 13 :: (info.puts cpool.length ++ putsOfList cpool)
  | .module info func => .u8 14 :: (info.puts ++ func.puts)

/-- The same for a list of objects. -/
def BCObject.putsOfList : List BCObject → List Put
  | [] => []
  | v :: vs => v.puts ++ putsOfList vs

/-- The same for the properties of an object. -/
def BCObject.putsOfProps : List (JSAtom × BCObject) → List Put
  | [] => []
  | (a, v) :: props => .atom a :: v.puts ++ putsOfProps props

end

theorem BCObject.putsOfList_eq (vs : List BCObject) : putsOfList vs = vs.flatMap puts := by
  induction vs with
  | nil => rfl
  | cons v vs ih => rw [putsOfList, List.flatMap_cons, ih]

theorem BCObject.putsOfProps_eq (props : List (JSAtom × BCObject)) :
    putsOfProps props = props.flatMap fun p => Put.atom p.1 :: p.2.puts := by
  induction props with
  | nil => rfl
  | cons p props ih =>
      obtain ⟨a, v⟩ := p
      rw [putsOfProps, List.flatMap_cons, ih]

/-! ## Atoms -/

/-- The part of `BCWriterState` that numbers atoms.  An entry 0 of `atomToIdx` belongs to an atom
without a number, and so does an index behind the end of the array. -/
structure AtomIndex where
  atomToIdx : ℕ → BitVec 32
  idxToAtom : List JSAtom

/-- A part of the writer. -/
abbrev Write (α : Type) := StateT AtomIndex Eval α

/-- `bc_atom_to_idx`. -/
def bcAtomToIdx (atom : JSAtom) : Write (BitVec 32) := fun s =>
  if atom.toNat < atomEnd ∨ atomIsTaggedInt atom = true then .ok (atom, s)
  else
    let i := atom.toNat - atomEnd
    if s.atomToIdx i ≠ 0 then .ok (s.atomToIdx i, s)
    else
      let v := BitVec.ofNat 32 (s.idxToAtom.length + atomEnd)
      .ok (v, ⟨Function.update s.atomToIdx i v, s.idxToAtom ++ [atom]⟩)

/-- `bc_put_atom`. -/
def bcPutAtom (atom : JSAtom) : Write (List UInt8) :=
  if atomIsTaggedInt atom then return putLeb128 (BitVec.ofNat 32 (atomToUInt32 atom) <<< 1 ||| 1#32)
  else do
    let v ← bcAtomToIdx atom
    return putLeb128 (v <<< 1)

/-- What the writer does for one call.  Code that no compiler makes is not written. -/
def writePut : Put → Write (List UInt8)
  | .u8 v => return [v]
  | .u16 v => return toLittleEndian 2 v.toNat
  | .u64 v => return toLittleEndian 8 v.toNat
  | .leb128 v => return putLeb128 v
  | .sleb128 v => return putSleb128 v
  | .atom a => bcPutAtom a
  | .buf bytes => return bytes
  | .code code => mapAtoms (fun _ => .outside) bcAtomToIdx code.length code

/-- Several calls. -/
def writePuts (puts : List Put) : Write (List UInt8) := do
  let parts ← puts.mapM writePut
  return parts.flatten

/-- `JS_WriteObjectAtoms`; `atomArray` is `rt->atom_array`. -/
def writeObjectAtoms (atomArray : JSAtom → JSString) (atoms : List JSAtom) : List Put :=
  .u8 bcVersion :: .count atoms.length :: atoms.flatMap fun a => writeString (atomArray a).data

/-- `JS_WriteObject`. -/
def writeObject (atomArray : JSAtom → JSString) (v : BCObject) : Eval (List UInt8) := do
  let (body, s) ← writePuts v.puts ⟨fun _ => 0, []⟩
  let (head, _) ← writePuts (writeObjectAtoms atomArray s.idxToAtom) s
  return head ++ body

/-! ## Code as a list of instructions -/

/-- An instruction: its opcode, its atom if it has one, and the rest of its operands. -/
structure CodeItem where
  op : UInt8
  atom? : Option JSAtom
  args : List UInt8

namespace CodeItem

/-- The bytes of an instruction. -/
def bytes (i : CodeItem) : List UInt8 :=
  i.op :: (i.atom?.toList.flatMap (fun a => toLittleEndian 4 a.toNat) ++ i.args)

/-- The instruction has the operands that `opcode_info` gives it. -/
def Valid (i : CodeItem) : Prop :=
  opcodeSizes[i.op.toNat]? = some i.bytes.length ∧ (i.op.toNat ∈ atomOpcodes ↔ i.atom?.isSome)

/-- Another atom in the place of the one there is. -/
def mapAtom {m : Type → Type} [Monad m] (f : JSAtom → m JSAtom) (i : CodeItem) : m CodeItem :=
  match i.atom? with
  | none => return i
  | some a => do
    let b ← f a
    return ⟨i.op, some b, i.args⟩

instance (i : CodeItem) : Decidable i.Valid := inferInstanceAs (Decidable (_ ∧ _))

end CodeItem

/-- Cut code into instructions. -/
def splitCode : ℕ → List UInt8 → List CodeItem
  | _, [] => []
  | 0, _ :: _ => []
  | fuel + 1, op :: code =>
    let args := code.take ((opcodeSizes[op.toNat]?).getD 1 - 1)
    let item : CodeItem :=
      if op.toNat ∈ atomOpcodes then
        ⟨op, some (BitVec.ofNat 32 (Read.littleEndian (args.take 4))), args.drop 4⟩
      else ⟨op, none, args⟩
    item :: splitCode fuel (code.drop args.length)

/-- The instructions of a piece of code. -/
def codeItems (code : List UInt8) : List CodeItem := splitCode code.length code

/-- The atoms of a piece of code. -/
def codeAtoms (code : List UInt8) : List JSAtom := (codeItems code).flatMap fun i => i.atom?.toList

/-- What a compiler makes: whole instructions. -/
structure IsCode (code : List UInt8) : Prop where
  valid : ∀ i ∈ codeItems code, i.Valid
  bytes_eq : (codeItems code).flatMap CodeItem.bytes = code

instance (code : List UInt8) : Decidable (IsCode code) :=
  decidable_of_iff ((∀ i ∈ codeItems code, i.Valid) ∧ (codeItems code).flatMap CodeItem.bytes = code)
    ⟨fun h => ⟨h.1, h.2⟩, fun h => ⟨h.valid, h.bytes_eq⟩⟩

theorem littleEndian_toLittleEndian (n v : ℕ) :
    Read.littleEndian (toLittleEndian n v) = v % 256 ^ n := by
  induction n generalizing v with
  | zero => simp [toLittleEndian, Read.littleEndian, Nat.mod_one]
  | succ n ih =>
      have hcons : Read.littleEndian (toLittleEndian (n + 1) v) =
          v % 256 + 256 * Read.littleEndian (toLittleEndian n (v / 256)) := by
        simp [toLittleEndian, Read.littleEndian]
      rw [hcons, ih, Nat.pow_succ, Nat.mul_comm (256 ^ n), Nat.mod_mul]

theorem atom_toLittleEndian (a : JSAtom) :
    BitVec.ofNat 32 (Read.littleEndian (toLittleEndian 4 a.toNat)) = a := by
  rw [littleEndian_toLittleEndian, Nat.mod_eq_of_lt (by have := a.isLt; omega), BitVec.ofNat_toNat,
    BitVec.setWidth_eq]

/-- The loop over the code goes from one instruction to the next. -/
theorem mapAtoms_bytes {m : Type → Type} [Monad m] [LawfulMonad m] (fail : m (List UInt8))
    (f : JSAtom → m JSAtom) {items : List CodeItem} (h : ∀ i ∈ items, i.Valid) :
    ∀ fuel, (items.flatMap CodeItem.bytes).length ≤ fuel →
      mapAtoms fail f fuel (items.flatMap CodeItem.bytes) =
        (fun items' => items'.flatMap CodeItem.bytes) <$> items.mapM (CodeItem.mapAtom f) := by
  induction items with
  | nil =>
      intro fuel _
      cases fuel <;> simp [mapAtoms]
  | cons i items ih =>
      intro fuel hfuel
      obtain ⟨hsize, hatom⟩ := h i List.mem_cons_self
      have hrest := ih fun j hj => h j (List.mem_cons_of_mem i hj)
      rw [List.flatMap_cons, List.length_append] at hfuel
      obtain ⟨op, atom?, args⟩ := i
      cases fuel with
      | zero => simp [CodeItem.bytes] at hfuel
      | succ fuel =>
          have hlen : (items.flatMap CodeItem.bytes).length ≤ fuel := by
            simp only [CodeItem.bytes, List.length_cons] at hfuel
            omega
          cases atom? with
          | none =>
              have hop : op.toNat ∉ atomOpcodes := by simpa using hatom
              have hsize' : opcodeSizes[op.toNat]? = some (args.length + 1) := hsize
              simp only [List.flatMap_cons, CodeItem.bytes, Option.toList_none, List.flatMap_nil,
                List.nil_append, List.cons_append, mapAtoms, hsize', mapOperands, hop, if_false,
                pure_bind, Nat.add_sub_cancel, List.take_left, List.drop_left, hrest fuel hlen,
                List.mapM_cons, CodeItem.mapAtom, map_eq_pure_bind, bind_assoc]
          | some a =>
              have hop : op.toNat ∈ atomOpcodes := by simpa using hatom
              have hfour := length_toLittleEndian 4 a.toNat
              have hsize' : opcodeSizes[op.toNat]? =
                  some ((toLittleEndian 4 a.toNat ++ args).length + 1) := by
                rw [hsize]
                simp [CodeItem.bytes]
              have hlong : ¬ (toLittleEndian 4 a.toNat ++ (args ++ items.flatMap CodeItem.bytes)).length
                  < 4 := by
                rw [List.length_append]
                omega
              have htake : (toLittleEndian 4 a.toNat ++ (args ++ items.flatMap CodeItem.bytes)).take 4 =
                  toLittleEndian 4 a.toNat := by
                rw [← hfour]
                exact List.take_left
              have hargs : ((toLittleEndian 4 a.toNat ++ (args ++ items.flatMap CodeItem.bytes)).take
                  (toLittleEndian 4 a.toNat ++ args).length).drop 4 = args := by
                rw [← List.append_assoc, List.take_left, ← hfour]
                exact List.drop_left
              have hdrop : (toLittleEndian 4 a.toNat ++ (args ++ items.flatMap CodeItem.bytes)).drop
                  (toLittleEndian 4 a.toNat ++ args).length = items.flatMap CodeItem.bytes := by
                rw [← List.append_assoc]
                exact List.drop_left
              simp only [List.flatMap_cons, CodeItem.bytes, Option.toList_some, List.flatMap_nil,
                List.append_nil, List.cons_append, List.append_assoc, mapAtoms, hsize', mapOperands, hop,
                if_true, hlong, if_false, htake, hargs, hdrop, atom_toLittleEndian, bind_assoc,
                pure_bind, Nat.add_sub_cancel, hrest fuel hlen, List.mapM_cons, CodeItem.mapAtom,
                map_eq_pure_bind]

/-- Another atom in the place of the one there is, where nothing can fail. -/
def CodeItem.relocate (f : JSAtom → JSAtom) (i : CodeItem) : CodeItem := ⟨i.op, i.atom?.map f, i.args⟩

/-- Code with other atoms. -/
def relocateCode (f : JSAtom → JSAtom) (code : List UInt8) : List UInt8 :=
  Id.run (mapAtoms (pure []) (fun a => pure (f a)) code.length code)

theorem relocateCode_bytes {items : List CodeItem} (h : ∀ i ∈ items, i.Valid) (f : JSAtom → JSAtom) :
    relocateCode f (items.flatMap CodeItem.bytes) =
      (items.map (CodeItem.relocate f)).flatMap CodeItem.bytes := by
  have hitem : (CodeItem.mapAtom fun a => (pure (f a) : Id JSAtom)) =
      fun i => pure (CodeItem.relocate f i) := by
    funext i
    obtain ⟨op, atom?, args⟩ := i
    cases atom? with
    | none => rfl
    | some a => rfl
  rw [relocateCode, mapAtoms_bytes _ _ h _ (le_refl _), hitem, List.mapM_pure, map_pure]
  rfl

theorem IsCode.relocateCode {code : List UInt8} (h : IsCode code) (f : JSAtom → JSAtom) :
    relocateCode f code = ((codeItems code).map (CodeItem.relocate f)).flatMap CodeItem.bytes := by
  have hbytes := relocateCode_bytes h.valid f
  rwa [h.bytes_eq] at hbytes

/-! ## The numbers of atoms -/

/-- An atom of the table, or an integer. -/
def AtomFits (a : JSAtom) : Prop := atomIsTaggedInt a = true ∨ a.toNat ≤ atomMax

/-- The atom is written as it is. -/
def IsFixed (a : JSAtom) : Prop := a.toNat < atomEnd ∨ atomIsTaggedInt a = true

instance (a : JSAtom) : Decidable (IsFixed a) := inferInstanceAs (Decidable (_ ∨ _))

namespace AtomIndex

/-- The number of an atom. -/
def look (s : AtomIndex) (a : JSAtom) : BitVec 32 :=
  if IsFixed a then a else BitVec.ofNat 32 (s.idxToAtom.idxOf a + atomEnd)

/-- The two arrays say the same. -/
structure Ok (s : AtomIndex) : Prop where
  nodup : s.idxToAtom.Nodup
  range : ∀ a ∈ s.idxToAtom, ¬ IsFixed a ∧ a.toNat ≤ atomMax
  entry : ∀ a, ¬ IsFixed a → s.atomToIdx (a.toNat - atomEnd) =
    if a ∈ s.idxToAtom then BitVec.ofNat 32 (s.idxToAtom.idxOf a + atomEnd) else 0

variable {s : AtomIndex} {a : JSAtom}

/-- There are no more numbers than atoms. -/
theorem Ok.length_le (h : s.Ok) : s.idxToAtom.length ≤ atomMax + 1 := by
  have hnodup : (s.idxToAtom.map BitVec.toNat).Nodup :=
    h.nodup.map fun a b hab => BitVec.eq_of_toNat_eq hab
  have hsub : (s.idxToAtom.map BitVec.toNat).toFinset ⊆ Finset.range (atomMax + 1) := by
    intro n hn
    obtain ⟨a, ha, rfl⟩ := List.mem_map.mp (List.mem_toFinset.mp hn)
    exact Finset.mem_range.mpr (Nat.lt_succ_of_le (h.range a ha).2)
  have hcard := Finset.card_le_card hsub
  rwa [List.toFinset_card_of_nodup hnodup, List.length_map, Finset.card_range] at hcard

/-- Numbers are large and have no tag. -/
theorem Ok.toNat_number (h : s.Ok) {i : ℕ} (hi : i ≤ s.idxToAtom.length) :
    (BitVec.ofNat 32 (i + atomEnd)).toNat = i + atomEnd ∧ i + atomEnd < 2 ^ 31 := by
  have hle := h.length_le
  rw [atomMax] at hle
  rw [atomEnd]
  refine ⟨?_, by omega⟩
  rw [BitVec.toNat_ofNat]
  exact Nat.mod_eq_of_lt (by omega)

theorem idxOf_of_isPrefix {l l' : List JSAtom} (h : l <+: l') (ha : a ∈ l) :
    l'.idxOf a = l.idxOf a := by
  obtain ⟨r, rfl⟩ := h
  exact List.idxOf_append_of_mem ha

end AtomIndex

/-- Atoms are numbered in the order in which they are met. -/
def atomNumbering : Numbering AtomIndex JSAtom (BitVec 32) where
  ok := AtomIndex.Ok
  after s s' := s.idxToAtom <+: s'.idxToAtom
  known s a := IsFixed a ∨ a ∈ s.idxToAtom
  look := AtomIndex.look
  refl _ := List.prefix_rfl
  trans _ _ _ := List.IsPrefix.trans
  known_after _ _ _ hle := Or.imp_right fun ha => hle.mem ha

theorem atomIndex_ok_empty : AtomIndex.Ok ⟨fun _ => 0, []⟩ where
  nodup := List.nodup_nil
  range _ ha := absurd ha (by simp)
  entry _ _ := by simp

/-- `bc_atom_to_idx` gives the number that the atom has in the end. -/
theorem bcAtomToIdx_writes {a : JSAtom} (h : AtomFits a) :
    Writes atomNumbering (bcAtomToIdx a) [a] fun ix => ix a := by
  intro s hs
  by_cases hfixed : IsFixed a
  · refine ⟨a, s, if_pos hfixed, hs, List.prefix_rfl, ?_, fun s' _ _ => ?_⟩
    · exact List.forall_mem_singleton.mpr (Or.inl hfixed)
    · exact (if_pos hfixed).symm
  · have hentry := hs.entry a hfixed
    by_cases hmem : a ∈ s.idxToAtom
    · rw [if_pos hmem] at hentry
      have hlt := List.idxOf_lt_length_of_mem hmem
      obtain ⟨hnat, -⟩ := hs.toNat_number hlt.le
      have hne : s.atomToIdx (a.toNat - atomEnd) ≠ 0 := by
        intro h0
        rw [hentry] at h0
        have := congrArg BitVec.toNat h0
        rw [hnat] at this
        simp [atomEnd] at this
      refine ⟨_, s, (if_neg hfixed).trans (if_pos hne), hs, List.prefix_rfl, ?_, fun s' _ hle => ?_⟩
      · exact List.forall_mem_singleton.mpr (Or.inr hmem)
      · change _ = s'.look a
        rw [hentry, AtomIndex.look, if_neg hfixed, AtomIndex.idxOf_of_isPrefix hle hmem]
    · rw [if_neg hmem] at hentry
      have hlast : (s.idxToAtom ++ [a]).idxOf a = s.idxToAtom.length := by
        rw [List.idxOf_append_of_notMem hmem]
        simp
      refine ⟨_, _, (if_neg hfixed).trans (if_neg (not_not.mpr hentry)), ?_,
        List.prefix_append _ _, List.forall_mem_singleton.mpr (Or.inr (by simp)), fun s' _ hle => ?_⟩
      · refine ⟨?_, ?_, ?_⟩
        · exact List.nodup_append.mpr ⟨hs.nodup, List.nodup_singleton a, by
            rintro b hb c hc rfl
            rw [List.mem_singleton.mp hc] at hb
            exact hmem hb⟩
        · intro b hb
          rcases List.mem_append.mp hb with hb | hb
          · exact hs.range b hb
          · rw [List.mem_singleton.mp hb]
            exact ⟨hfixed, h.resolve_left fun ht => hfixed (Or.inr ht)⟩
        · intro b hb
          by_cases hba : b = a
          · subst hba
            simp only [Function.update_self, List.mem_append, List.mem_singleton, or_true, if_true,
              hlast]
          · have hne : b.toNat - atomEnd ≠ a.toNat - atomEnd := by
              have hb' := not_lt.mp fun hlt => hb (Or.inl hlt)
              have ha' := not_lt.mp fun hlt => hfixed (Or.inl hlt)
              intro heq
              exact hba (BitVec.eq_of_toNat_eq (by omega))
            simp only [Function.update_of_ne hne, hs.entry b hb, List.mem_append, List.mem_singleton,
              hba, or_false]
            by_cases hbm : b ∈ s.idxToAtom
            · rw [if_pos hbm, if_pos hbm, List.idxOf_append_of_mem hbm]
            · rw [if_neg hbm, if_neg hbm]
      · change _ = s'.look a
        rw [AtomIndex.look, if_neg hfixed, AtomIndex.idxOf_of_isPrefix hle (by simp), hlast]

/-! ## The body of the file -/

/-- What is written for a call, with given numbers of atoms. -/
def encodePut (ix : JSAtom → BitVec 32) : Put → List UInt8
  | .u8 v => [v]
  | .u16 v => toLittleEndian 2 v.toNat
  | .u64 v => toLittleEndian 8 v.toNat
  | .leb128 v => putLeb128 v
  | .sleb128 v => putSleb128 v
  | .atom a =>
    if atomIsTaggedInt a then putLeb128 (BitVec.ofNat 32 (atomToUInt32 a) <<< 1 ||| 1#32)
    else putLeb128 (ix a <<< 1)
  | .buf bytes => bytes
  | .code code => relocateCode ix code

/-- Several calls. -/
def encodePuts (ix : JSAtom → BitVec 32) (puts : List Put) : List UInt8 :=
  puts.flatMap (encodePut ix)

/-- The atoms that a call writes. -/
def Put.atoms : Put → List JSAtom
  | .atom a => [a]
  | .code bytes => codeAtoms bytes
  | _ => []

/-- The atoms of an object, and of its code. -/
def BCObject.atoms (v : BCObject) : List JSAtom := v.puts.flatMap Put.atoms

/-- Something holds of every atom that a call writes; code consists of whole instructions. -/
def Put.All (P : JSAtom → Prop) : Put → Prop
  | .atom a => P a
  | .code bytes => IsCode bytes ∧ ∀ a ∈ codeAtoms bytes, P a
  | _ => True

theorem writePut_writes {p : Put} (h : p.All AtomFits) :
    Writes atomNumbering (writePut p) p.atoms fun ix => encodePut ix p := by
  cases p with
  | u8 v => exact Writes.pure _
  | u16 v => exact Writes.pure _
  | u64 v => exact Writes.pure _
  | leb128 v => exact Writes.pure _
  | sleb128 v => exact Writes.pure _
  | buf bytes => exact Writes.pure _
  | atom a =>
      have hidx := bcAtomToIdx_writes (a := a) h
      simp only [writePut, bcPutAtom, encodePut]
      by_cases ht : atomIsTaggedInt a = true
      · simp only [ht, if_true]
        intro s hs
        exact ⟨_, s, rfl, hs, List.prefix_rfl,
          List.forall_mem_singleton.mpr (Or.inl (Or.inr ht)), fun _ _ _ => rfl⟩
      · simp only [ht]
        exact hidx.map fun v => putLeb128 (v <<< 1)
  | code code =>
      obtain ⟨hcode, hfits⟩ := h
      have hitem : ∀ i ∈ codeItems code, Writes atomNumbering (CodeItem.mapAtom bcAtomToIdx i)
          i.atom?.toList fun ix => CodeItem.relocate ix i := by
        intro i hi
        obtain ⟨op, atom?, args⟩ := i
        cases atom? with
        | none => exact Writes.pure _
        | some a =>
            have ha : AtomFits a := hfits a (List.mem_flatMap.mpr ⟨_, hi, by simp⟩)
            have hput := (bcAtomToIdx_writes ha).map fun b => CodeItem.mk op (some b) args
            rwa [map_eq_pure_bind] at hput
      have hbytes := mapAtoms_bytes (fun _ => .outside) bcAtomToIdx hcode.valid _ (le_refl _)
      rw [hcode.bytes_eq] at hbytes
      simp only [writePut, encodePut, hcode.relocateCode, hbytes]
      exact (Writes.mapM hitem).map fun items => items.flatMap CodeItem.bytes

/-- **Numbering on the way**: what is written is what the final numbers give. -/
theorem writePuts_writes {puts : List Put} (h : ∀ p ∈ puts, p.All AtomFits) :
    Writes atomNumbering (writePuts puts) (puts.flatMap Put.atoms) fun ix => encodePuts ix puts := by
  have hparts := (Writes.mapM fun p hp => writePut_writes (h p hp)).map List.flatten
  rwa [map_eq_pure_bind] at hparts

end Engine
end FuzzerJs
