import FuzzerJs.Engine.ShapeTable

/-!
# The table of shapes

`TableInv`: every shape counts the references to it, the table lists exactly the shapes that may
be shared, and the others have one reference.  This module says what the functions on shapes do
to the table, when the references are given.
-/

namespace FuzzerJs
namespace Engine

open HashChain

/-! ## Shapes and references -/

section Table

variable {π V : Type} [DecidableEq π] {st st' : ShapeState π V} {refs refs' : ℕ → ℕ} {id : ℕ}
  {sh : Shape π}

/-- The state of the shapes, when there are `refs id` references to the shape `id`. -/
structure TableInv (st : ShapeState π V) (refs : ℕ → ℕ) : Prop where
  fresh : ∀ {id}, st.nextShape ≤ id → st.shapes id = none
  unused : ∀ {id}, st.shapes id = none → refs id = 0
  count : ∀ {id sh}, st.shapes id = some sh → sh.refCount = refs id
  used : ∀ {id sh}, st.shapes id = some sh → 0 < refs id
  valid : ∀ {id sh}, st.shapes id = some sh → sh.Valid
  owned : ∀ {id sh}, st.shapes id = some sh → sh.isHashed = false → refs id = 1
  listed : ∀ b id, id ∈ st.shapeHash b ↔ ∃ sh, st.shapes id = some sh ∧ sh.isHashed = true ∧
    getShapeHash sh.hash st.shapeHashBits = b
  nodup : ∀ b, (st.shapeHash b).Nodup

/-- What has to be true of a shape with `n` references. -/
structure ShapeFits (sh : Shape π) (n : ℕ) : Prop where
  count : sh.refCount = n
  used : 0 < n
  valid : sh.Valid
  owned : sh.isHashed = false → n = 1

omit [DecidableEq π] in
theorem TableInv.fits (h : TableInv st refs) (hsh : st.shapes id = some sh) : ShapeFits sh (refs id) :=
  ⟨h.count hsh, h.used hsh, h.valid hsh, h.owned hsh⟩

omit [DecidableEq π] in
/-- **One shape changes**, is made or is freed. -/
theorem TableInv.update (h : TableInv st refs) {x : Option (Shape π)}
    (hshapes : st'.shapes = Function.update st.shapes id x)
    (hbits : st'.shapeHashBits = st.shapeHashBits) (hnext : st.nextShape ≤ st'.nextShape)
    (hid : x ≠ none → id < st'.nextShape) (hrefs : ∀ j, j ≠ id → refs' j = refs j)
    (hnone : x = none → refs' id = 0) (hsome : ∀ sh, x = some sh → ShapeFits sh (refs' id))
    (hother : ∀ b j, j ≠ id → (j ∈ st'.shapeHash b ↔ j ∈ st.shapeHash b))
    (hself : ∀ b, id ∈ st'.shapeHash b ↔ ∃ sh, x = some sh ∧ sh.isHashed = true ∧
      getShapeHash sh.hash st.shapeHashBits = b)
    (hnodup : ∀ b, (st'.shapeHash b).Nodup) : TableInv st' refs' := by
  have hsame : ∀ {j}, j ≠ id → st'.shapes j = st.shapes j := fun hj => by
    rw [hshapes, Function.update_of_ne hj]
  have hnew : st'.shapes id = x := by rw [hshapes, Function.update_self]
  have hfits : ∀ {j sh}, st'.shapes j = some sh → ShapeFits sh (refs' j) := by
    intro j sh hj
    by_cases hji : j = id
    · subst hji
      exact hsome sh (hnew.symm.trans hj)
    · rw [hrefs j hji]
      rw [hsame hji] at hj
      exact h.fits hj
  refine ⟨fun {j} hj => ?_, fun {j} hj => ?_, fun hj => (hfits hj).count, fun hj => (hfits hj).used,
    fun hj => (hfits hj).valid, fun hj => (hfits hj).owned, fun b j => ?_, hnodup⟩
  · by_cases hji : j = id
    · subst hji
      by_contra hne
      rw [hnew] at hne
      exact absurd (hid hne) (by omega)
    · rw [hsame hji]
      exact h.fresh (hnext.trans hj)
  · by_cases hji : j = id
    · subst hji
      exact hnone (hnew.symm.trans hj)
    · rw [hrefs j hji]
      rw [hsame hji] at hj
      exact h.unused hj
  · by_cases hji : j = id
    · subst hji
      rw [hself, hnew, hbits]
    · rw [hother b j hji, h.listed, hsame hji, hbits]

/-! ## The lists of the table -/

/-- The state without the shape in the table. -/
def ShapeState.dropHash (st : ShapeState π V) (id : ℕ) (hash : BitVec 32) : ShapeState π V :=
  let b := getShapeHash hash st.shapeHashBits
  { st with
    shapeHash := Function.update st.shapeHash b ((st.shapeHash b).erase id)
    shapeHashCount := st.shapeHashCount - 1 }

omit [DecidableEq π] in
theorem TableInv.hashUnlink (h : TableInv st refs) (hsh : st.shapes id = some sh)
    (hhashed : sh.isHashed = true) : st.hashUnlink id sh.hash = some (st.dropHash id sh.hash) :=
  if_pos ((h.listed _ id).mpr ⟨sh, hsh, hhashed, rfl⟩)

omit [DecidableEq π] in
/-- A shape stands in the list of its hash only. -/
theorem TableInv.mem_bucket (h : TableInv st refs) (hsh : st.shapes id = some sh) {b : ℕ}
    (hmem : id ∈ st.shapeHash b) : getShapeHash sh.hash st.shapeHashBits = b := by
  obtain ⟨sh', hsh', -, hb⟩ := (h.listed b id).mp hmem
  rw [hsh] at hsh'
  obtain rfl := Option.some.inj hsh'
  exact hb

omit [DecidableEq π] in
theorem TableInv.mem_dropHash (h : TableInv st refs) (hsh : st.shapes id = some sh) (b j : ℕ) :
    j ∈ (st.dropHash id sh.hash).shapeHash b ↔ j ∈ st.shapeHash b ∧ j ≠ id := by
  unfold ShapeState.dropHash
  dsimp only
  by_cases hb : b = getShapeHash sh.hash st.shapeHashBits
  · subst hb
    rw [Function.update_self, (h.nodup _).mem_erase_iff]
    tauto
  · rw [Function.update_of_ne hb]
    refine ⟨fun hj => ⟨hj, ?_⟩, fun hj => hj.1⟩
    rintro rfl
    exact hb (h.mem_bucket hsh hj).symm

omit [DecidableEq π] in
theorem TableInv.nodup_dropHash (h : TableInv st refs) (hash : BitVec 32) (b : ℕ) :
    ((st.dropHash id hash).shapeHash b).Nodup := by
  unfold ShapeState.dropHash
  dsimp only
  by_cases hb : b = getShapeHash hash st.shapeHashBits
  · subst hb
    rw [Function.update_self]
    exact (h.nodup _).erase id
  · rw [Function.update_of_ne hb]
    exact h.nodup b

omit [DecidableEq π] in
theorem mem_hashLink (st : ShapeState π V) (id : ℕ) (hash : BitVec 32) (b j : ℕ) :
    j ∈ (st.hashLink id hash).shapeHash b ↔
      (j = id ∧ getShapeHash hash st.shapeHashBits = b) ∨ j ∈ st.shapeHash b := by
  unfold ShapeState.hashLink
  dsimp only
  by_cases hb : b = getShapeHash hash st.shapeHashBits
  · subst hb
    rw [Function.update_self, List.mem_cons]
    simp
  · rw [Function.update_of_ne hb]
    simp [Ne.symm hb]

omit [DecidableEq π] in
theorem nodup_hashLink {hash : BitVec 32} (hnodup : ∀ b, (st.shapeHash b).Nodup)
    (hid : ∀ b, id ∉ st.shapeHash b) (b : ℕ) : ((st.hashLink id hash).shapeHash b).Nodup := by
  unfold ShapeState.hashLink
  dsimp only
  by_cases hb : b = getShapeHash hash st.shapeHashBits
  · subst hb
    rw [Function.update_self]
    exact List.nodup_cons.mpr ⟨hid _, hnodup _⟩
  · rw [Function.update_of_ne hb]
    exact hnodup b

/-! ## What the operations do to the shapes -/

/-- What an object shows of its shape. -/
def Shape.view (sh : Shape π) : Option π × List (Option JSAtom × ShapeFlags) := (sh.proto, sh.labels)

/-- The view of a shape. -/
def ShapeState.viewOf (st : ShapeState π V) (id : ℕ) :
    Option (Option π × List (Option JSAtom × ShapeFlags)) := (st.shapes id).map Shape.view

omit [DecidableEq π] in
theorem viewOf_setShape (st : ShapeState π V) (id : ℕ) (x : Option (Shape π)) (j : ℕ) :
    (st.setShape id x).viewOf j = if j = id then x.map Shape.view else st.viewOf j := by
  unfold ShapeState.viewOf ShapeState.setShape
  dsimp only
  by_cases hj : j = id
  · rw [hj, Function.update_self, if_pos rfl]
  · rw [Function.update_of_ne hj, if_neg hj]

omit [DecidableEq π] in
/-- One reference more to a shape that may be shared. -/
theorem TableInv.dupShape (h : TableInv st refs) (hsh : st.shapes id = some sh)
    (hhashed : sh.isHashed = true) :
    ∃ st', st.dupShape id = some st' ∧ TableInv st' (Function.update refs id (refs id + 1)) ∧
      st'.objects = st.objects ∧ (∀ j, j ≠ id → st'.shapes j = st.shapes j) ∧
      ∀ j, st'.viewOf j = st.viewOf j := by
  refine ⟨st.setShape id (some { sh with refCount := sh.refCount + 1 }), ?_, ?_, rfl,
    fun j hj => Function.update_of_ne hj .., fun j => ?_⟩
  · unfold ShapeState.dupShape
    rw [hsh]
    rfl
  · refine h.update rfl rfl le_rfl (fun _ => ?_) (fun j hj => Function.update_of_ne hj ..) (by simp)
      (fun sh' heq => ?_) (fun b j _ => Iff.rfl) (fun b => ?_) h.nodup
    · by_contra hid
      rw [h.fresh (Nat.not_lt.mp hid)] at hsh
      simp at hsh
    · obtain rfl := Option.some.inj heq
      rw [Function.update_self]
      have hfits := h.fits hsh
      refine ⟨?_, Nat.succ_pos _, ⟨hfits.valid.chains, hfits.valid.keys⟩, fun hf => ?_⟩
      · change sh.refCount + 1 = _
        rw [hfits.count]
      · have hfalse : sh.isHashed = false := hf
        rw [hhashed] at hfalse
        simp at hfalse
    · change id ∈ st.shapeHash b ↔ _
      rw [h.listed, hsh]
      simp
  · rw [viewOf_setShape]
    split
    · rename_i hj
      unfold ShapeState.viewOf
      rw [hj, hsh]
      rfl
    · rfl

omit [DecidableEq π] in
/-- One reference less. -/
theorem TableInv.freeShape (h : TableInv st refs) (hsh : st.shapes id = some sh) :
    ∃ st', st.freeShape id = some st' ∧ TableInv st' (Function.update refs id (refs id - 1)) ∧
      st'.objects = st.objects ∧ (∀ j, j ≠ id → st'.shapes j = st.shapes j) ∧
      ∀ j, j ≠ id ∨ 1 < refs id → st'.viewOf j = st.viewOf j := by
  have hfits := h.fits hsh
  have hlt : id < st.nextShape := by
    by_contra hid
    rw [h.fresh (Nat.not_lt.mp hid)] at hsh
    simp at hsh
  obtain hone | ⟨n, hn⟩ : refs id = 1 ∨ ∃ n, refs id = n + 2 := by
    have := hfits.used
    rcases Nat.lt_or_ge (refs id) 2 with h2 | h2
    · left; omega
    · exact Or.inr ⟨refs id - 2, by omega⟩
  · -- the last reference: the shape is freed
    have hcount : sh.refCount = 1 := hfits.count.trans hone
    have hview : ∀ (s : ShapeState π V), s.shapes = st.shapes → ∀ j, j ≠ id ∨ 1 < refs id →
        (s.setShape id none).viewOf j = st.viewOf j := by
      intro s hs j hj
      rw [viewOf_setShape, if_neg (hj.resolve_right (by omega))]
      unfold ShapeState.viewOf
      rw [hs]
    cases hhashed : sh.isHashed with
    | true =>
        refine ⟨(st.dropHash id sh.hash).setShape id none, ?_, ?_, rfl,
          fun j hj => Function.update_of_ne hj .., hview _ rfl⟩
        · unfold ShapeState.freeShape
          rw [hsh]
          simp only [Option.bind_eq_bind, Option.bind_some, hcount]
          rw [hhashed, if_pos rfl, h.hashUnlink hsh hhashed]
          rfl
        · refine h.update rfl rfl le_rfl (by simp) (fun j hj => Function.update_of_ne hj ..) (fun _ => ?_)
            (by simp) (fun b j hj => ?_) (fun b => ?_) (h.nodup_dropHash _)
          · rw [Function.update_self, hone]
          · exact (h.mem_dropHash hsh b j).trans (by simp [hj])
          · refine (h.mem_dropHash hsh b id).trans ?_
            simp
    | false =>
        refine ⟨st.setShape id none, ?_, ?_, rfl, fun j hj => Function.update_of_ne hj ..,
          hview _ rfl⟩
        · unfold ShapeState.freeShape
          rw [hsh]
          simp only [Option.bind_eq_bind, Option.bind_some, hcount]
          rw [hhashed]
          rfl
        · refine h.update rfl rfl le_rfl (by simp) (fun j hj => Function.update_of_ne hj ..) (fun _ => ?_)
            (by simp) (fun b j hj => Iff.rfl) (fun b => ?_) h.nodup
          · rw [Function.update_self, hone]
          · change id ∈ st.shapeHash b ↔ _
            rw [h.listed, hsh]
            simp [hhashed]
  · have hcount : sh.refCount = n + 2 := hfits.count.trans hn
    refine ⟨st.setShape id (some { sh with refCount := n + 1 }), ?_, ?_, rfl,
      fun j hj => Function.update_of_ne hj .., fun j _ => ?_⟩
    · unfold ShapeState.freeShape
      rw [hsh]
      simp only [Option.bind_eq_bind, Option.bind_some, hcount]
      rfl
    · refine h.update rfl rfl le_rfl (fun _ => hlt) (fun j hj => Function.update_of_ne hj ..) (by simp)
        (fun sh' heq => ?_) (fun b j _ => Iff.rfl) (fun b => ?_) h.nodup
      · obtain rfl := Option.some.inj heq
        rw [Function.update_self, hn]
        refine ⟨rfl, Nat.succ_pos n, ⟨hfits.valid.chains, hfits.valid.keys⟩, fun hf => ?_⟩
        have := hfits.owned hf
        omega
      · change id ∈ st.shapeHash b ↔ _
        rw [h.listed, hsh]
        simp
    · rw [viewOf_setShape]
      split
      · rename_i hj
        unfold ShapeState.viewOf
        rw [hj, hsh]
        rfl
      · rfl

omit [DecidableEq π] in
theorem TableInv.not_listed (h : TableInv st refs) (hnone : st.shapes id = none) (b : ℕ) :
    id ∉ st.shapeHash b := by
  intro hmem
  obtain ⟨sh', hsh', -⟩ := (h.listed b id).mp hmem
  rw [hnone] at hsh'
  simp at hsh'

/-- `js_new_shape2` and `js_clone_shape`: a new shape, in the table if it may be shared. -/
def ShapeState.enterShape (st : ShapeState π V) (sh : Shape π) : ShapeState π V :=
  if sh.isHashed then (st.allocShape sh).hashLink st.nextShape sh.hash else st.allocShape sh

omit [DecidableEq π] in
theorem shapes_enterShape (st : ShapeState π V) (sh : Shape π) :
    (st.enterShape sh).shapes = Function.update st.shapes st.nextShape (some sh) := by
  unfold ShapeState.enterShape
  split <;> rfl

omit [DecidableEq π] in
theorem objects_enterShape (st : ShapeState π V) (sh : Shape π) :
    (st.enterShape sh).objects = st.objects := by
  unfold ShapeState.enterShape
  split <;> rfl

omit [DecidableEq π] in
/-- A new shape, with one reference. -/
theorem TableInv.enterShape (h : TableInv st refs) (hfits : ShapeFits sh 1) :
    TableInv (st.enterShape sh) (Function.update refs st.nextShape 1) := by
  have hnone : st.shapes st.nextShape = none := h.fresh le_rfl
  have hsome : ∀ sh', some sh = some sh' →
      ShapeFits sh' (Function.update refs st.nextShape 1 st.nextShape) := by
    intro sh' heq
    rw [← Option.some.inj heq, Function.update_self]
    exact hfits
  unfold ShapeState.enterShape
  cases hhashed : sh.isHashed with
  | true =>
      rw [if_pos rfl]
      refine h.update rfl rfl (Nat.le_succ _) (fun _ => Nat.lt_succ_self _)
        (fun j hj => Function.update_of_ne hj ..) (by simp) hsome (fun b j hj => ?_) (fun b => ?_)
        (nodup_hashLink h.nodup fun b => h.not_listed hnone b)
      · refine (mem_hashLink _ _ _ b j).trans ?_
        simp [hj, ShapeState.allocShape]
      · refine (mem_hashLink _ _ _ b _).trans ?_
        have hnot : st.nextShape ∉ st.shapeHash b := h.not_listed hnone b
        simp [ShapeState.allocShape, hnot, hhashed]
  | false =>
      refine h.update rfl rfl (Nat.le_succ _) (fun _ => Nat.lt_succ_self _)
        (fun j hj => Function.update_of_ne hj ..) (by simp) hsome (fun b j hj => Iff.rfl) (fun b => ?_)
        h.nodup
      have hnot : st.nextShape ∉ st.shapeHash b := h.not_listed hnone b
      change st.nextShape ∈ st.shapeHash b ↔ _
      simp [hnot, hhashed]

section Replace

variable {sh' : Shape π}

omit [DecidableEq π] in
theorem TableInv.lt (h : TableInv st refs) (hsh : st.shapes id = some sh) : id < st.nextShape := by
  by_contra hid
  rw [h.fresh (Nat.not_lt.mp hid)] at hsh
  simp at hsh

omit [DecidableEq π] in
/-- A shape that is not in the table changes. -/
theorem TableInv.setShape (h : TableInv st refs) (hsh : st.shapes id = some sh)
    (hhashed : sh.isHashed = false) (hfits : ShapeFits sh' (refs id))
    (hhashed' : sh'.isHashed = false) : TableInv (st.setShape id (some sh')) refs := by
  refine h.update rfl rfl le_rfl (fun _ => h.lt hsh) (fun _ _ => rfl) (by simp)
    (fun x hx => Option.some.inj hx ▸ hfits) (fun b j hj => Iff.rfl) (fun b => ?_) h.nodup
  change id ∈ st.shapeHash b ↔ _
  rw [h.listed, hsh]
  simp [hhashed, hhashed']

omit [DecidableEq π] in
/-- A shape leaves the table and changes. -/
theorem TableInv.dropShape (h : TableInv st refs) (hsh : st.shapes id = some sh)
    (hfits : ShapeFits sh' (refs id)) (hhashed' : sh'.isHashed = false) :
    TableInv ((st.dropHash id sh.hash).setShape id (some sh')) refs := by
  refine h.update rfl rfl le_rfl (fun _ => h.lt hsh) (fun _ _ => rfl) (by simp)
    (fun x hx => Option.some.inj hx ▸ hfits) (fun b j hj => ?_) (fun b => ?_) (h.nodup_dropHash _)
  · exact (h.mem_dropHash hsh b j).trans (by simp [hj])
  · refine (h.mem_dropHash hsh b id).trans ?_
    simp [hhashed']

omit [DecidableEq π] in
/-- A shape changes, and stands at another place of the table. -/
theorem TableInv.relinkShape (h : TableInv st refs) (hsh : st.shapes id = some sh)
    (hfits : ShapeFits sh' (refs id)) (hhashed' : sh'.isHashed = true) :
    TableInv (((st.dropHash id sh.hash).setShape id (some sh')).hashLink id sh'.hash) refs := by
  have hnot : ∀ b, id ∉ ((st.dropHash id sh.hash).setShape id (some sh')).shapeHash b :=
    fun b hmem => ((h.mem_dropHash hsh b id).mp hmem).2 rfl
  refine h.update rfl rfl le_rfl (fun _ => h.lt hsh) (fun _ _ => rfl) (by simp)
    (fun x hx => Option.some.inj hx ▸ hfits) (fun b j hj => ?_) (fun b => ?_)
    (nodup_hashLink (fun b => h.nodup_dropHash _ b) hnot)
  · refine (mem_hashLink _ _ _ b j).trans ?_
    have hdrop := h.mem_dropHash hsh b j
    simp only [hj, false_and, false_or]
    exact hdrop.trans (by simp [hj])
  · refine (mem_hashLink _ _ _ b id).trans ?_
    simp only [hnot b, or_false, true_and]
    simp [hhashed', ShapeState.setShape, ShapeState.dropHash]

omit [DecidableEq π] in
/-- A shape that may or may not be in the table changes. -/
theorem TableInv.moveShape (h : TableInv st refs) (hsh : st.shapes id = some sh)
    (hfits : ShapeFits sh' (refs id)) (hhashed' : sh'.isHashed = sh.isHashed) (hash : BitVec 32) :
    ∃ st' sh₁, st.moveShape id sh sh' hash = some st' ∧ TableInv st' refs ∧
      st'.objects = st.objects ∧ st'.shapes = Function.update st.shapes id (some sh₁) ∧
      sh₁.view = sh'.view := by
  unfold ShapeState.moveShape
  cases hhashed : sh.isHashed with
  | true =>
      have hfits₁ : ShapeFits { sh' with hash := hash } (refs id) :=
        ⟨hfits.count, hfits.used, hfits.valid.congr rfl rfl rfl, hfits.owned⟩
      refine ⟨_, { sh' with hash := hash }, ?_, h.relinkShape hsh hfits₁ (hhashed'.trans hhashed), rfl,
        rfl, rfl⟩
      rw [if_pos rfl, h.hashUnlink hsh hhashed]
      rfl
  | false =>
      exact ⟨_, sh', rfl, h.setShape hsh hhashed hfits (hhashed'.trans hhashed), rfl, rfl, rfl⟩

end Replace

/-! ## A larger table -/

theorem getShapeHash_lt (hash : BitVec 32) (bits : ℕ) : getShapeHash hash bits < 2 ^ bits := by
  unfold getShapeHash
  rw [BitVec.toNat_ushiftRight, Nat.shiftRight_eq_div_pow, Nat.div_lt_iff_lt_mul (Nat.two_pow_pos _),
    ← Nat.pow_add]
  exact hash.isLt.trans_le (Nat.pow_le_pow_right Nat.two_pos (by omega))

omit [DecidableEq π] in
theorem mem_relinkShapes {shapes : ℕ → Option (Shape π)} {bits : ℕ} {ids : List ℕ}
    (table : ℕ → List ℕ) (b j : ℕ) : j ∈ relinkShapes shapes bits ids table b ↔
      j ∈ table b ∨ j ∈ ids ∧ ∃ sh, shapes j = some sh ∧ getShapeHash sh.hash bits = b := by
  induction ids generalizing table with
  | nil => simp [relinkShapes]
  | cons id ids ih =>
      unfold relinkShapes
      rw [ih, List.mem_cons]
      cases hid : shapes id with
      | none =>
          by_cases hj : j = id
          · simp [hj, hid]
          · simp [hj]
      | some sh =>
          dsimp only
          by_cases hj : j = id
          · by_cases hb : b = getShapeHash sh.hash bits
            · simp [hj, hb, hid]
            · simp [hj, Function.update_of_ne hb, hid, Ne.symm hb]
          · by_cases hb : b = getShapeHash sh.hash bits
            · simp [hj, hb]
            · simp [hj, Function.update_of_ne hb]

omit [DecidableEq π] in
theorem nodup_relinkShapes {shapes : ℕ → Option (Shape π)} {bits : ℕ} {ids : List ℕ}
    (hids : ids.Nodup) {table : ℕ → List ℕ} (hnodup : ∀ b, (table b).Nodup)
    (hnew : ∀ id ∈ ids, ∀ b, id ∉ table b) (b : ℕ) :
    (relinkShapes shapes bits ids table b).Nodup := by
  induction ids generalizing table with
  | nil => exact hnodup b
  | cons id ids ih =>
      obtain ⟨hid, hids⟩ := List.nodup_cons.mp hids
      have hne : ∀ j ∈ ids, j ≠ id := by
        rintro j hj rfl
        exact hid hj
      unfold relinkShapes
      cases shapes id with
      | none => exact ih hids hnodup fun j hj => hnew j (List.mem_cons_of_mem _ hj)
      | some sh =>
          refine ih hids (fun c => ?_) fun j hj c => ?_
          · by_cases hc : c = getShapeHash sh.hash bits
            · rw [hc]
              dsimp only
              rw [Function.update_self]
              exact List.nodup_cons.mpr ⟨hnew id List.mem_cons_self _, hnodup _⟩
            · dsimp only
              rw [Function.update_of_ne hc]
              exact hnodup c
          · by_cases hc : c = getShapeHash sh.hash bits
            · rw [hc]
              dsimp only
              rw [Function.update_self, List.mem_cons, not_or]
              exact ⟨hne j hj, hnew j (List.mem_cons_of_mem _ hj) _⟩
            · dsimp only
              rw [Function.update_of_ne hc]
              exact hnew j (List.mem_cons_of_mem _ hj) c

omit [DecidableEq π] in
/-- `resize_shape_hash` loses no shape. -/
theorem TableInv.resizeShapeHash (h : TableInv st refs) (bits : ℕ) :
    TableInv (st.resizeShapeHash bits) refs := by
  have hmem : ∀ j, j ∈ (List.range (2 ^ st.shapeHashBits)).flatMap st.shapeHash ↔
      ∃ sh, st.shapes j = some sh ∧ sh.isHashed = true := by
    intro j
    rw [List.mem_flatMap]
    constructor
    · rintro ⟨b, -, hj⟩
      obtain ⟨sh, hsh, hhashed, -⟩ := (h.listed b j).mp hj
      exact ⟨sh, hsh, hhashed⟩
    · rintro ⟨sh, hsh, hhashed⟩
      exact ⟨_, List.mem_range.mpr (getShapeHash_lt _ _), (h.listed _ j).mpr ⟨sh, hsh, hhashed, rfl⟩⟩
  have hids : ((List.range (2 ^ st.shapeHashBits)).flatMap st.shapeHash).Nodup := by
    rw [List.nodup_flatMap]
    refine ⟨fun b _ => h.nodup b, List.nodup_range.imp fun {b c} hbc => ?_⟩
    intro j hb hc
    obtain ⟨sh, hsh, -⟩ := (h.listed b j).mp hb
    exact hbc ((h.mem_bucket hsh hb).symm.trans (h.mem_bucket hsh hc))
  refine ⟨h.fresh, h.unused, h.count, h.used, h.valid, h.owned, fun b j => ?_,
    nodup_relinkShapes hids (by simp) (by simp)⟩
  refine (mem_relinkShapes _ b j).trans ?_
  rw [hmem]
  constructor
  · rintro (hj | ⟨⟨sh, hsh, hhashed⟩, sh', hsh', hb⟩)
    · simp at hj
    · rw [hsh] at hsh'
      obtain rfl := Option.some.inj hsh'
      exact ⟨sh, hsh, hhashed, hb⟩
  · rintro ⟨sh, hsh, hhashed, hb⟩
    exact Or.inr ⟨⟨sh, hsh, hhashed⟩, sh, hsh, hb⟩

omit [DecidableEq π] in
/-- The objects are not part of the table. -/
theorem TableInv.withObjects (h : TableInv st refs) {objects : List (Option (ShapedObject V))}
    (hrefs : ∀ id, refs' id = refs id) : TableInv { st with objects := objects } refs' := by
  obtain rfl : refs' = refs := funext hrefs
  exact ⟨h.fresh, h.unused, h.count, h.used, h.valid, h.owned, h.listed, h.nodup⟩

omit [DecidableEq π] in
theorem TableInv.setObject (h : TableInv st refs) {o : ℕ} {x : Option (ShapedObject V)}
    (hrefs : ∀ id, refs' id = refs id) : TableInv (st.setObject o x) refs' :=
  h.withObjects hrefs

end Table

end Engine
end FuzzerJs
