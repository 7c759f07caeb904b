import FuzzerJs.Engine.ShapeSharing

/-!
# Sharing is not seen

What an object has does not depend on how shapes are shared: in every run of operations each
object has the properties that it would have alone, in the order in which they were made, and no
assertion about the counters of shapes fails (`shapeRun_plain`).

* `ShapeInv`: the table of shapes is as it should be, where the references to a shape are the
  objects that have it.
* `ShapeState.plain`: the objects without their shapes.
* `plainStep`: the operations on objects that share nothing.
-/

namespace FuzzerJs
namespace Engine

open HashChain

/-! ## Objects without shapes -/

/-- An object with properties of its own. -/
structure PlainObject (π V : Type) where
  proto : Option π
  rows : List (PropRow V)
  deriving DecidableEq

section Plain

variable {π V : Type}

/-- A property is made, or gets other flags and another value. -/
def PlainObject.put (p : PlainObject π V) (a : JSAtom) (flags : ShapeFlags) (v : V) :
    PlainObject π V :=
  match rowLookup p.rows a with
  | none => { p with rows := p.rows ++ [(a, flags, v)] }
  | some _ => { p with rows := p.rows.map fun r => if r.1 = a then (r.1, flags, v) else r }

/-- A property is deleted, unless it is not configurable. -/
def PlainObject.delete (p : PlainObject π V) (a : JSAtom) : PlainObject π V × Bool :=
  match rowLookup p.rows a with
  | none => (p, true)
  | some (flags, _) =>
    if flags &&& 1 = 0 then (p, false)
    else ({ p with rows := p.rows.filter fun r => r.1 ≠ a }, true)

end Plain

section Objects

variable {π V : Type} {st st' : ShapeState π V} {o : ℕ} {obj : ShapedObject V} {sh : Shape π}

/-- How many objects have the shape. -/
def ShapeState.holders (st : ShapeState π V) (id : ℕ) : ℕ :=
  (st.objects.map (Option.map ShapedObject.shape)).count (some id)

/-- An object without its shape. -/
def ShapeState.plainOf (st : ShapeState π V) (obj : ShapedObject V) : Option (PlainObject π V) :=
  (st.viewOf obj.shape).map fun v => ⟨v.1, propRows v.2 obj.prop⟩

/-- The objects without their shapes. -/
def ShapeState.plain (st : ShapeState π V) : List (Option (PlainObject π V)) :=
  st.objects.map fun x => x.bind st.plainOf

/-- What is true of the shapes and objects at any time. -/
structure ShapeInv (st : ShapeState π V) : Prop where
  table : TableInv st st.holders
  sized : ∀ {o : ℕ} {obj : ShapedObject V} {sh : Shape π}, st.objects[o]? = some (some obj) →
    st.shapes obj.shape = some sh → obj.prop.length = sh.prop.length

/-! ## Who has a shape -/

theorem holders_set (ho : st.objects[o]? = some (some obj)) {x : Option (ShapedObject V)}
    (hset : st'.objects = st.objects.set o x) (id : ℕ) :
    st'.holders id = st.holders id - (if obj.shape = id then 1 else 0) +
      if x.map ShapedObject.shape = some id then 1 else 0 := by
  obtain ⟨hlt, hget⟩ := List.getElem?_eq_some_iff.mp ho
  unfold ShapeState.holders
  rw [hset, List.map_set, List.count_set (by simpa using hlt)]
  simp [hget]

theorem holders_pos (ho : st.objects[o]? = some (some obj)) : 0 < st.holders obj.shape :=
  List.count_pos_iff.mpr (List.mem_map.mpr ⟨some obj, List.mem_of_getElem? ho, rfl⟩)

/-- Two objects with one shape. -/
theorem one_lt_holders (ho : st.objects[o]? = some (some obj)) {o' : ℕ} {obj' : ShapedObject V}
    (ho' : st.objects[o']? = some (some obj')) (hne : o' ≠ o) (hshape : obj'.shape = obj.shape) :
    1 < st.holders obj.shape := by
  -- without the first object there is still the second
  have hgone : (st.setObject o none).objects = st.objects.set o none := rfl
  have hset := holders_set ho hgone obj.shape
  have hkept : (st.setObject o none).objects[o']? = some (some obj') := by
    unfold ShapeState.setObject
    rw [List.getElem?_set_ne (Ne.symm hne)]
    exact ho'
  have hpos := holders_pos hkept
  rw [hshape, hset] at hpos
  simp at hpos
  omega

theorem ShapeInv.shape (h : ShapeInv st) (ho : st.objects[o]? = some (some obj)) :
    ∃ sh, st.shapes obj.shape = some sh := by
  cases hsh : st.shapes obj.shape with
  | some sh => exact ⟨sh, rfl⟩
  | none =>
      have hzero := h.table.unused hsh
      have hpos := holders_pos ho
      omega

theorem object_eq_some : st.object o = some (obj, sh) ↔
    st.objects[o]? = some (some obj) ∧ st.shapes obj.shape = some sh := by
  unfold ShapeState.object
  cases hx : st.objects[o]? with
  | none => simp
  | some x =>
      cases x with
      | none => simp
      | some y =>
          simp only [Option.join_some, Option.bind_eq_bind, Option.bind_some, Option.some.injEq,
            Option.bind_eq_some_iff, Option.pure_def, Prod.mk.injEq]
          constructor
          · rintro ⟨sh', hsh, rfl, rfl⟩
            exact ⟨rfl, hsh⟩
          · rintro ⟨rfl, hsh⟩
            exact ⟨sh, hsh, rfl, rfl⟩

/-- No other object has a shape with one reference. -/
theorem ShapeInv.alone (h : ShapeInv st) (hobj : st.object o = some (obj, sh))
    (hcount : sh.refCount = 1) {o' : ℕ} {obj' : ShapedObject V}
    (ho' : st.objects[o']? = some (some obj')) (hne : o' ≠ o) : obj'.shape ≠ obj.shape := by
  obtain ⟨ho, hsh⟩ := object_eq_some.mp hobj
  intro hshape
  have hlt := one_lt_holders ho ho' hne hshape
  have hrefs := h.table.count hsh
  omega

/-! ## One object changes -/

/-- **One object changes**, or goes, and what the others show of their shapes stays. -/
theorem ShapeInv.set (h : ShapeInv st) {x : Option (ShapedObject V)}
    (hset : st'.objects = st.objects.set o x) (htable : TableInv st' st'.holders)
    (hself : ∀ obj', x = some obj' → ∀ sh, st'.shapes obj'.shape = some sh →
      obj'.prop.length = sh.prop.length)
    (hothers : ∀ (o' : ℕ) (obj' : ShapedObject V), o' ≠ o → st.objects[o']? = some (some obj') →
      st'.viewOf obj'.shape = st.viewOf obj'.shape) :
    ShapeInv st' ∧ st'.plain = st.plain.set o (x.bind st'.plainOf) := by
  have hkept : ∀ {o'}, o' ≠ o → st'.objects[o']? = st.objects[o']? := fun hne => by
    rw [hset, List.getElem?_set_ne (Ne.symm hne)]
  refine ⟨⟨htable, fun {o' obj' sh'} ho' hsh' => ?_⟩, ?_⟩
  · by_cases hne : o' = o
    · rw [hne, hset, List.getElem?_set_self'] at ho'
      cases hold : st.objects[o]? with
      | none => simp [hold] at ho'
      | some y => exact hself obj' (by simpa [hold] using ho') sh' hsh'
    · rw [hkept hne] at ho'
      have hview := hothers o' obj' hne ho'
      obtain ⟨sh, hsh⟩ := h.shape ho'
      unfold ShapeState.viewOf at hview
      rw [hsh, hsh'] at hview
      have hlabels : sh'.labels = sh.labels := congrArg Prod.snd (Option.some.inj hview)
      rw [h.sized ho' hsh, ← Shape.length_labels, ← hlabels, Shape.length_labels]
  · unfold ShapeState.plain
    rw [hset, List.map_set]
    refine List.ext_getElem? fun o' => ?_
    by_cases hne : o' = o
    · rw [hne, List.getElem?_set_self', List.getElem?_set_self', List.getElem?_map, List.getElem?_map]
      cases st.objects[o]? <;> rfl
    · rw [List.getElem?_set_ne (Ne.symm hne), List.getElem?_set_ne (Ne.symm hne), List.getElem?_map,
        List.getElem?_map]
      cases hy : st.objects[o']? with
      | none => rfl
      | some y =>
          cases y with
          | none => rfl
          | some obj' =>
              have hview := hothers o' obj' hne hy
              simp [ShapeState.plainOf, hview]

theorem plain_getElem (hobj : st.object o = some (obj, sh)) :
    st.plain[o]? = some (some ⟨sh.proto, sh.rows obj.prop⟩) := by
  obtain ⟨ho, hsh⟩ := object_eq_some.mp hobj
  unfold ShapeState.plain
  rw [List.getElem?_map, ho]
  simp [ShapeState.plainOf, ShapeState.viewOf, hsh, Shape.view, Shape.rows]

theorem set_getElem {α : Type} {l : List α} {i : ℕ} {a : α} (h : l[i]? = some a) : l.set i a = l := by
  obtain ⟨hlt, rfl⟩ := List.getElem?_eq_some_iff.mp h
  exact List.set_getElem_self hlt

/-- One object has become `obj'`, with the shape `sh'`, and the others are as they were. -/
structure ObjectBecomes (st st' : ShapeState π V) (o : ℕ) (obj' : ShapedObject V) (sh' : Shape π) :
    Prop where
  inv : ShapeInv st'
  plain : st'.plain = st.plain.set o (some ⟨sh'.proto, sh'.rows obj'.prop⟩)
  object : st'.object o = some (obj', sh')

section Becomes

variable {obj' : ShapedObject V} {sh' : Shape π}

theorem ShapeInv.becomes (h : ShapeInv st) (ho : st.objects[o]? = some (some obj))
    (hset : st'.objects = st.objects.set o (some obj')) (hsh' : st'.shapes obj'.shape = some sh')
    (htable : TableInv st' st'.holders) (hlen : obj'.prop.length = sh'.prop.length)
    (hothers : ∀ (o' : ℕ) (obj' : ShapedObject V), o' ≠ o → st.objects[o']? = some (some obj') →
      st'.viewOf obj'.shape = st.viewOf obj'.shape) : ObjectBecomes st st' o obj' sh' := by
  obtain ⟨hinv, hplain⟩ := h.set hset htable (fun x hx sh hsh => by
    obtain rfl := Option.some.inj hx
    rw [hsh'] at hsh
    obtain rfl := Option.some.inj hsh
    exact hlen) hothers
  have hlt := (List.getElem?_eq_some_iff.mp ho).1
  refine ⟨hinv, ?_, object_eq_some.mpr ⟨?_, hsh'⟩⟩
  · rw [hplain]
    simp [ShapeState.plainOf, ShapeState.viewOf, hsh', Shape.view, Shape.rows]
  · rw [hset, List.getElem?_set_self hlt]

/-- When a reference of `obj` to its shape goes, the other objects do not lose theirs. -/
theorem other_shape (ho : st.objects[o]? = some (some obj)) {o' : ℕ}
    (ho' : st.objects[o']? = some (some obj')) (hne : o' ≠ o) :
    obj'.shape ≠ obj.shape ∨ 1 < st.holders obj.shape := by
  by_cases hshape : obj'.shape = obj.shape
  · exact Or.inr (one_lt_holders ho ho' hne hshape)
  · exact Or.inl hshape

/-- An object that has its shape alone changes it in place. -/
theorem ShapeInv.replace (h : ShapeInv st) (hobj : st.object o = some (obj, sh))
    (hcount : sh.refCount = 1) (htable : TableInv st' st.holders) {values : List V}
    (hset : st'.objects = st.objects.set o (some { obj with prop := values }))
    (hshapes : st'.shapes = Function.update st.shapes obj.shape (some sh'))
    (hlen : values.length = sh'.prop.length) :
    ObjectBecomes st st' o { obj with prop := values } sh' := by
  obtain ⟨ho, hsh⟩ := object_eq_some.mp hobj
  have hholders : st'.holders = st.holders := by
    funext id
    have hpos := holders_pos ho
    rw [holders_set ho hset]
    by_cases hid : obj.shape = id
    · subst hid
      simp
      omega
    · simp [hid]
  refine h.becomes ho hset (by rw [hshapes, Function.update_self]) (by rwa [hholders]) hlen
    fun o' obj' hne ho' => ?_
  unfold ShapeState.viewOf
  rw [hshapes, Function.update_of_ne (h.alone hobj hcount ho' hne)]

end Becomes

/-! ## The operations -/

section Operations

variable [DecidableEq π] {a : JSAtom}

omit [DecidableEq π] in
/-- A copy shows the same. -/
theorem ShapeInv.cloneFor (h : ShapeInv st) (hobj : st.object o = some (obj, sh)) (hashed : Bool) :
    ∃ st', st.cloneFor o hashed = some st' ∧
      ObjectBecomes st st' o { obj with shape := st.nextShape }
        { sh with refCount := 1, isHashed := hashed } := by
  obtain ⟨ho, hsh⟩ := object_eq_some.mp hobj
  have hvalid := h.table.valid hsh
  have hlen := h.sized ho hsh
  have hne : obj.shape ≠ st.nextShape := (h.table.lt hsh).ne
  have hfits : ShapeFits { sh with refCount := 1, isHashed := hashed } 1 :=
    ⟨rfl, Nat.one_pos, ⟨hvalid.chains, hvalid.keys⟩, fun _ => rfl⟩
  have henter := h.table.enterShape hfits
  have hold : (st.enterShape { sh with refCount := 1, isHashed := hashed }).shapes obj.shape =
      some sh := by
    rw [shapes_enterShape, Function.update_of_ne hne, hsh]
  obtain ⟨st₂, hfree, htable, hobjs, hshapes, hviews⟩ := henter.freeShape hold
  rw [Function.update_of_ne hne] at htable hviews
  have hset : (st₂.setObject o (some { obj with shape := st.nextShape })).objects =
      st.objects.set o (some { obj with shape := st.nextShape }) := by
    unfold ShapeState.setObject
    rw [hobjs, objects_enterShape]
  refine ⟨st₂.setObject o (some { obj with shape := st.nextShape }), ?_,
    h.becomes ho hset ?_ (htable.setObject fun id => ?_) hlen fun o' obj' hne' ho' => ?_⟩
  · unfold ShapeState.cloneFor
    rw [hobj]
    simp only [Option.bind_eq_bind, Option.bind_some]
    unfold ShapeState.enterShape at hfree
    dsimp only at hfree
    rw [hfree]
    rfl
  · change st₂.shapes st.nextShape = _
    rw [hshapes _ hne.symm, shapes_enterShape, Function.update_self]
  · rw [holders_set ho hset]
    have hnext : st.holders st.nextShape = 0 := h.table.unused (h.table.fresh le_rfl)
    by_cases hid : id = obj.shape
    · subst hid
      simp [hne.symm]
    · by_cases hid' : id = st.nextShape
      · subst hid'
        simp [hne, hnext, Function.update_of_ne hid]
      · simp [Ne.symm hid, Ne.symm hid', Function.update_of_ne hid, Function.update_of_ne hid']
  · refine (hviews _ (other_shape ho ho' hne')).trans ?_
    obtain ⟨sh₁, hsh₁⟩ := h.shape ho'
    unfold ShapeState.viewOf
    rw [shapes_enterShape, Function.update_of_ne (h.table.lt hsh₁).ne]

omit [DecidableEq π] in
/-- `add_shape_property` changes the shape of one object. -/
theorem ShapeInv.growObject (h : ShapeInv st) (hobj : st.object o = some (obj, sh))
    (hcount : sh.refCount = 1) (ha : a ≠ 0) (hnew : ∀ i, sh.key i ≠ some a) (flags : ShapeFlags)
    (v : V) : ∃ st', st.growObject o a flags v = some st' ∧ ShapeInv st' ∧
      st'.plain = st.plain.set o (some ⟨sh.proto, sh.rows obj.prop ++ [(a, flags, v)]⟩) := by
  obtain ⟨ho, hsh⟩ := object_eq_some.mp hobj
  obtain ⟨hrefs, hhash, hproto⟩ := sh.frame_addProperty a flags
  have hfits := h.table.fits hsh
  have hvalid := hfits.valid.addProperty ha hnew flags
  have hlabels := sh.labels_addProperty ha flags
  have hlen := h.sized ho hsh
  obtain ⟨st₁, sh₁, hmove, htable, hobjs, hshapes, hview⟩ := h.table.moveShape hsh
    ⟨hrefs.trans hfits.count, hfits.used, hvalid, fun _ => hfits.count.symm.trans hcount⟩ hhash
    (nextShapeHash sh.hash a flags)
  have hlabels₁ : sh₁.labels = sh.labels ++ [(some a, flags)] :=
    (congrArg Prod.snd hview).trans hlabels
  have hproto₁ : sh₁.proto = sh.proto := (congrArg Prod.fst hview).trans hproto
  have hlen₁ : (obj.prop ++ [v]).length = sh₁.prop.length := by
    rw [← Shape.length_labels, hlabels₁, List.length_append, List.length_append, Shape.length_labels,
      hlen]
    rfl
  have hset : (st₁.setObject o (some { obj with prop := obj.prop ++ [v] })).objects =
      st.objects.set o (some { obj with prop := obj.prop ++ [v] }) := by
    unfold ShapeState.setObject
    rw [hobjs]
  have hbecomes := h.replace hobj hcount (htable.setObject fun _ => rfl) hset hshapes hlen₁
  refine ⟨_, ?_, hbecomes.inv, hbecomes.plain.trans ?_⟩
  · unfold ShapeState.growObject
    rw [hobj]
    simp only [Option.bind_eq_bind, Option.bind_some]
    rw [if_neg (not_not.mpr hcount), hmove]
    rfl
  · rw [Shape.rows_append hlabels₁ hlen, hproto₁]

omit [DecidableEq π] in
/-- The labels are read off the atoms and flags that `find_hashed_shape_prop` compares. -/
theorem Shape.labels_eq_raw (sh : Shape π) : sh.labels =
    (sh.prop.map ShapeProperty.raw).map fun r => (if r.1 = 0 then none else some r.1, r.2) := by
  unfold Shape.labels
  rw [List.map_map]
  rfl

/-- The shape that `find_hashed_shape_prop` finds. -/
theorem ShapeInv.findHashedShapeProp (h : ShapeInv st) (ha : a ≠ 0) {flags : ShapeFlags} {id : ℕ}
    (hfind : st.findHashedShapeProp sh a flags = some id) :
    ∃ sh₁, st.shapes id = some sh₁ ∧ sh₁.isHashed = true ∧
      sh₁.view = (sh.proto, sh.labels ++ [(some a, flags)]) := by
  obtain ⟨sh₁, hsh₁, hhashed, -⟩ := (h.table.listed _ id).mp (List.mem_of_find?_eq_some hfind)
  have hfound := List.find?_some hfind
  simp only [hsh₁, decide_eq_true_eq] at hfound
  obtain ⟨-, hproto, hraw⟩ := hfound
  refine ⟨sh₁, hsh₁, hhashed, ?_⟩
  unfold Shape.view
  rw [hproto, Shape.labels_eq_raw sh₁, hraw, List.map_append, ← Shape.labels_eq_raw,
    List.map_singleton, if_neg ha]

/-- A new property, in a shape that other objects have, too, or in one of its own. -/
theorem ShapeInv.addProperty (h : ShapeInv st) (hobj : st.object o = some (obj, sh)) (ha : a ≠ 0)
    (hnew : ∀ i, sh.key i ≠ some a) (flags : ShapeFlags) (v : V) :
    ∃ st', st.addProperty o a flags v = some st' ∧ ShapeInv st' ∧
      st'.plain = st.plain.set o (some ⟨sh.proto, sh.rows obj.prop ++ [(a, flags, v)]⟩) := by
  obtain ⟨ho, hsh⟩ := object_eq_some.mp hobj
  have hlen := h.sized ho hsh
  unfold ShapeState.addProperty
  rw [hobj]
  simp only [Option.bind_eq_bind, Option.bind_some]
  cases hhashed : sh.isHashed with
  | false =>
      rw [if_neg Bool.false_ne_true]
      exact h.growObject hobj ((h.table.count hsh).trans (h.table.owned hsh hhashed)) ha hnew flags v
  | true =>
      rw [if_pos rfl]
      cases hfind : st.findHashedShapeProp sh a flags with
      | none =>
          dsimp only
          by_cases hcount : sh.refCount = 1
          · rw [if_neg (not_not.mpr hcount)]
            exact h.growObject hobj hcount ha hnew flags v
          · rw [if_pos hcount]
            obtain ⟨st₁, hclone, hbecomes⟩ := h.cloneFor hobj true
            obtain ⟨st₂, hgrow, hinv, hplain₂⟩ := hbecomes.inv.growObject hbecomes.object rfl ha hnew
              flags v
            refine ⟨st₂, ?_, hinv, hplain₂.trans ?_⟩
            · rw [hclone, Option.bind_some, hgrow]
            · rw [hbecomes.plain, List.set_set]
              rfl
      | some id =>
          dsimp only
          obtain ⟨sh₁, hsh₁, hhashed₁, hview₁⟩ := h.findHashedShapeProp ha hfind
          have hlabels₁ : sh₁.labels = sh.labels ++ [(some a, flags)] := congrArg Prod.snd hview₁
          have hne : obj.shape ≠ id := by
            rintro rfl
            rw [hsh] at hsh₁
            obtain rfl := Option.some.inj hsh₁
            simp at hlabels₁
          obtain ⟨st₁, hdup, htable₁, hobjs₁, hshapes₁, hviews₁⟩ := h.table.dupShape hsh₁ hhashed₁
          obtain ⟨st₂, hfree, htable₂, hobjs₂, hshapes₂, hviews₂⟩ :=
            htable₁.freeShape ((hshapes₁ _ hne).trans hsh)
          rw [Function.update_of_ne hne] at htable₂ hviews₂
          have hview₂ : st₂.viewOf id = some (sh.proto, sh.labels ++ [(some a, flags)]) := by
            rw [hviews₂ id (Or.inl hne.symm), hviews₁, ← hview₁, ShapeState.viewOf, hsh₁]
            rfl
          obtain ⟨sh₂, hsh₂, hview₂⟩ := Option.map_eq_some_iff.mp hview₂
          have hlabels₂ : sh₂.labels = sh.labels ++ [(some a, flags)] := congrArg Prod.snd hview₂
          have hproto₂ : sh₂.proto = sh.proto := congrArg Prod.fst hview₂
          have hset : (st₂.setObject o (some ⟨id, obj.prop ++ [v]⟩)).objects =
              st.objects.set o (some ⟨id, obj.prop ++ [v]⟩) := by
            unfold ShapeState.setObject
            rw [hobjs₂, hobjs₁]
          have hlen₂ : (obj.prop ++ [v]).length = sh₂.prop.length := by
            rw [← Shape.length_labels, hlabels₂, List.length_append, List.length_append,
              Shape.length_labels, hlen]
            rfl
          have htable₃ : TableInv (st₂.setObject o (some ⟨id, obj.prop ++ [v]⟩))
              (st₂.setObject o (some ⟨id, obj.prop ++ [v]⟩)).holders := by
            refine htable₂.setObject fun j => ?_
            rw [holders_set ho hset]
            by_cases hj : j = obj.shape
            · subst hj
              simp [hne.symm]
            · by_cases hj' : j = id
              · subst hj'
                simp [hne, Function.update_of_ne hj]
              · simp [Ne.symm hj, Ne.symm hj', Function.update_of_ne hj, Function.update_of_ne hj']
          have hbecomes := h.becomes ho hset hsh₂ htable₃ hlen₂
            fun o' obj' hne' ho' => (hviews₂ _ (other_shape ho ho' hne')).trans (hviews₁ _)
          refine ⟨_, ?_, hbecomes.inv, hbecomes.plain.trans ?_⟩
          · rw [hdup, Option.bind_some, hfree]
            rfl
          · rw [Shape.rows_append hlabels₂ hlen, hproto₂]

/-! ## Changes of a shape -/

/-- The shape behind `js_shape_prepare_update`. -/
def Shape.ownCopy (sh : Shape π) : Shape π := { sh with refCount := 1, isHashed := false }

omit [DecidableEq π] in
theorem Shape.Valid.ownCopy (h : sh.Valid) : sh.ownCopy.Valid := h.congr rfl rfl rfl

omit [DecidableEq π] in
theorem Shape.rows_congr {sh' : Shape π} (hprop : sh'.prop = sh.prop) {values : List V} :
    sh'.rows values = sh.rows values := by
  unfold Shape.rows
  rw [Shape.labels_congr hprop]

omit [DecidableEq π] in
theorem Shape.rows_ownCopy (values : List V) : sh.ownCopy.rows values = sh.rows values :=
  Shape.rows_congr rfl

omit [DecidableEq π] in
/-- `js_shape_prepare_update` changes nothing that is seen. -/
theorem ShapeInv.prepareUpdate (h : ShapeInv st) (hobj : st.object o = some (obj, sh)) :
    ∃ st' id, st.prepareUpdate o = some st' ∧
      ObjectBecomes st st' o { obj with shape := id } sh.ownCopy := by
  obtain ⟨ho, hsh⟩ := object_eq_some.mp hobj
  have hfits := h.table.fits hsh
  have hlen := h.sized ho hsh
  unfold ShapeState.prepareUpdate
  rw [hobj]
  simp only [Option.bind_eq_bind, Option.bind_some]
  cases hhashed : sh.isHashed with
  | true =>
      rw [if_pos rfl]
      by_cases hcount : sh.refCount = 1
      · rw [if_neg (not_not.mpr hcount), h.table.hashUnlink hsh hhashed]
        have hfits' : ShapeFits sh.ownCopy (st.holders obj.shape) :=
          ⟨hcount.symm.trans hfits.count, hfits.used, hfits.valid.ownCopy,
            fun _ => hfits.count.symm.trans hcount⟩
        have hshape : ({ sh with isHashed := false } : Shape π) = sh.ownCopy := by
          unfold Shape.ownCopy
          rw [← hcount]
        refine ⟨_, obj.shape, rfl, ?_⟩
        rw [hshape]
        exact h.replace hobj hcount (h.table.dropShape hsh hfits' rfl) (set_getElem ho).symm rfl
          hlen
      · rw [if_pos hcount]
        obtain ⟨st', hclone, hbecomes⟩ := h.cloneFor hobj false
        exact ⟨st', _, hclone, hbecomes⟩
  | false =>
      rw [if_neg Bool.false_ne_true]
      have hcount : sh.refCount = 1 := hfits.count.trans (hfits.owned hhashed)
      have hshape : sh.ownCopy = sh := by
        unfold Shape.ownCopy
        rw [← hcount, ← hhashed]
      refine ⟨st, obj.shape, rfl, ?_⟩
      rw [hshape]
      exact ⟨h, (set_getElem (plain_getElem hobj)).symm, hobj⟩

omit [DecidableEq π] in
/-- Behind `js_shape_prepare_update` the shape can be changed. -/
theorem ShapeInv.update (h : ShapeInv st) (hobj : st.object o = some (obj, sh))
    {f : Shape π → Shape π} {g : List V → List V} (hcount : (f sh.ownCopy).refCount = 1)
    (hhashed : (f sh.ownCopy).isHashed = false) (hvalid : (f sh.ownCopy).Valid)
    (hlen : (g obj.prop).length = (f sh.ownCopy).prop.length) :
    ∃ st₁ st₂, st.prepareUpdate o = some st₁ ∧ st₁.modifyObject o f g = some st₂ ∧ ShapeInv st₂ ∧
      st₂.plain =
        st.plain.set o (some ⟨(f sh.ownCopy).proto, (f sh.ownCopy).rows (g obj.prop)⟩) := by
  obtain ⟨st₁, id, hprepare, hbecomes⟩ := h.prepareUpdate hobj
  obtain ⟨ho, hsh⟩ := object_eq_some.mp hbecomes.object
  have hone : st₁.holders id = 1 := hbecomes.inv.table.owned hsh rfl
  have hfits : ShapeFits (f sh.ownCopy) (st₁.holders id) := by
    rw [hone]
    exact ⟨hcount, Nat.one_pos, hvalid, fun _ => rfl⟩
  have hreplace := hbecomes.inv.replace hbecomes.object rfl
    ((hbecomes.inv.table.setShape hsh rfl hfits hhashed).setObject fun _ => rfl) rfl rfl hlen
  refine ⟨st₁, _, hprepare, ?_, hreplace.inv, hreplace.plain.trans ?_⟩
  · unfold ShapeState.modifyObject
    rw [hbecomes.object]
    rfl
  · rw [hbecomes.plain, List.set_set]

omit [DecidableEq π] in
/-- Only the values change, and the shape may be shared. -/
theorem ShapeInv.setValues (h : ShapeInv st) (hobj : st.object o = some (obj, sh))
    {g : List V → List V} (hlen : (g obj.prop).length = obj.prop.length) :
    ∃ st', st.modifyObject o id g = some st' ∧ ShapeInv st' ∧
      st'.plain = st.plain.set o (some ⟨sh.proto, sh.rows (g obj.prop)⟩) := by
  obtain ⟨ho, hsh⟩ := object_eq_some.mp hobj
  have hsame : st.setShape obj.shape (some sh) = st := by
    unfold ShapeState.setShape
    rw [← hsh, Function.update_eq_self]
  have hset : (st.setObject o (some { obj with prop := g obj.prop })).objects =
      st.objects.set o (some { obj with prop := g obj.prop }) := rfl
  have htable : TableInv (st.setObject o (some { obj with prop := g obj.prop }))
      (st.setObject o (some { obj with prop := g obj.prop })).holders := by
    refine h.table.setObject fun j => ?_
    have hpos := holders_pos ho
    rw [holders_set ho hset]
    by_cases hj : obj.shape = j
    · subst hj
      simp
      omega
    · simp [hj]
  have hbecomes := h.becomes ho hset hsh htable (hlen.trans (h.sized ho hsh)) fun _ _ _ _ => rfl
  refine ⟨_, ?_, hbecomes.inv, hbecomes.plain⟩
  unfold ShapeState.modifyObject
  rw [hobj]
  simp only [Option.bind_eq_bind, Option.bind_some, id_eq]
  rw [hsame]
  rfl

/-! ## What is done to a property -/

omit [DecidableEq π] in
/-- `find_own_property` finds what is seen. -/
theorem ShapeInv.getProperty (h : ShapeInv st) (hobj : st.object o = some (obj, sh)) (a : JSAtom) :
    st.getProperty o a = rowLookup (sh.rows obj.prop) a := by
  obtain ⟨ho, hsh⟩ := object_eq_some.mp hobj
  rw [(h.table.valid hsh).rowLookup_eq (h.sized ho hsh)]
  unfold ShapeState.getProperty
  rw [hobj]
  simp only [Option.bind_eq_bind, Option.bind_some]
  cases sh.findOwnProperty a with
  | none => rfl
  | some i =>
      simp only [Option.bind_some]
      cases sh.prop[i]? with
      | none => rfl
      | some pr => cases obj.prop[i]? <;> rfl

omit [DecidableEq π] in
/-- An entry that is found, and its row. -/
theorem Shape.Valid.entry (hvalid : sh.Valid) {values : List V}
    (hlen : values.length = sh.prop.length) {i : ℕ} (hfind : sh.findOwnProperty a = some i) :
    ∃ pr v, sh.prop[i]? = some pr ∧ rowLookup (sh.rows values) a = some (pr.flags, v) := by
  have hlt : i < sh.prop.length := hvalid.keys.lt (hvalid.findOwnProperty_eq_some.mp hfind)
  have hprop : sh.prop[i]? = some (sh.prop.get ⟨i, hlt⟩) := List.getElem?_eq_getElem _
  have hvalue : values[i]? = some (values.get ⟨i, hlen ▸ hlt⟩) := List.getElem?_eq_getElem _
  refine ⟨sh.prop.get ⟨i, hlt⟩, values.get ⟨i, hlen ▸ hlt⟩, hprop, ?_⟩
  rw [hvalid.rowLookup_eq hlen, hfind, Option.bind_some, hprop, Option.bind_some, hvalue]
  rfl

omit [DecidableEq π] in
theorem Shape.setFlags_self {i : ℕ} {pr : ShapeProperty} (hprop : sh.prop[i]? = some pr) :
    (sh.setFlags i pr.flags).prop = sh.prop := by
  unfold Shape.setFlags
  dsimp only
  refine List.ext_getElem? fun j => ?_
  rw [List.getElem?_modify]
  by_cases hj : i = j
  · subst hj
    rw [hprop]
    simp
  · simp [hj]

theorem ShapeInv.putProperty (h : ShapeInv st) (hobj : st.object o = some (obj, sh)) (ha : a ≠ 0)
    (flags : ShapeFlags) (v : V) : ∃ st', st.putProperty o a flags v = some st' ∧ ShapeInv st' ∧
      st'.plain = st.plain.set o (some (PlainObject.put ⟨sh.proto, sh.rows obj.prop⟩ a flags v)) := by
  obtain ⟨ho, hsh⟩ := object_eq_some.mp hobj
  have hvalid := h.table.valid hsh
  have hlen := h.sized ho hsh
  unfold ShapeState.putProperty
  rw [hobj]
  simp only [Option.bind_eq_bind, Option.bind_some]
  cases hfind : sh.findOwnProperty a with
  | none =>
      have hrow : rowLookup (sh.rows obj.prop) a = none := by
        rw [hvalid.rowLookup_eq hlen, hfind]
        rfl
      unfold PlainObject.put
      rw [hrow]
      exact h.addProperty hobj ha (hvalid.findOwnProperty_eq_none.mp hfind) flags v
  | some i =>
      obtain ⟨pr, w, hprop, hrow⟩ := hvalid.entry hlen hfind
      have hkey : sh.key i = some a := hvalid.findOwnProperty_eq_some.mp hfind
      unfold PlainObject.put
      simp only [hrow, hprop, Option.bind_some]
      by_cases hflags : flags = pr.flags
      · rw [if_neg (not_not.mpr hflags), hflags, ← hvalid.rows_setFlags hkey,
          Shape.rows_congr (Shape.setFlags_self hprop)]
        exact h.setValues hobj (List.length_modify ..)
      · rw [if_pos hflags]
        have hlen' : (obj.prop.modify i fun _ => v).length =
            (sh.ownCopy.setFlags i flags).prop.length := by
          rw [← Shape.length_labels, Shape.labels_setFlags, List.length_modify, List.length_modify,
            Shape.length_labels, hlen]
          rfl
        obtain ⟨st₁, st₂, hprepare, hmodify, hinv, hplain⟩ := h.update hobj
          (f := fun sh => sh.setFlags i flags) (g := fun vs => vs.modify i fun _ => v) rfl rfl
          (hvalid.ownCopy.setFlags i flags) hlen'
        refine ⟨st₂, ?_, hinv, hplain.trans ?_⟩
        · rw [hprepare, Option.bind_some, hmodify]
        · rw [hvalid.ownCopy.rows_setFlags hkey, Shape.rows_ownCopy]
          rfl

omit [DecidableEq π] in
theorem ShapeInv.deleteProperty (h : ShapeInv st) (hobj : st.object o = some (obj, sh)) (undef : V)
    (a : JSAtom) : ∃ st', st.deleteProperty undef o a =
        some (st', (PlainObject.delete ⟨sh.proto, sh.rows obj.prop⟩ a).2) ∧ ShapeInv st' ∧
      st'.plain = st.plain.set o (some (PlainObject.delete ⟨sh.proto, sh.rows obj.prop⟩ a).1) := by
  obtain ⟨ho, hsh⟩ := object_eq_some.mp hobj
  have hvalid := h.table.valid hsh
  have hlen := h.sized ho hsh
  have hsame := (set_getElem (plain_getElem hobj)).symm
  unfold ShapeState.deleteProperty
  rw [hobj]
  simp only [Option.bind_eq_bind, Option.bind_some]
  cases hprev : findPrev sh.key sh.links.next a sh.prop.length none (sh.propHash (sh.bucket a)) with
  | none =>
      have hfind : sh.findOwnProperty a = none := by
        unfold Shape.findOwnProperty
        rw [← findPrev_isSome, hprev]
        rfl
      have hrow : rowLookup (sh.rows obj.prop) a = none := by
        rw [hvalid.rowLookup_eq hlen, hfind]
        rfl
      unfold PlainObject.delete
      simp only [hrow]
      exact ⟨st, rfl, h, hsame⟩
  | some found =>
      obtain ⟨prev, i⟩ := found
      have hfind : sh.findOwnProperty a = some i := by
        unfold Shape.findOwnProperty
        rw [← findPrev_isSome, hprev]
        rfl
      obtain ⟨pr, w, hprop, hrow⟩ := hvalid.entry hlen hfind
      have hkey : sh.key i = some a := hvalid.findOwnProperty_eq_some.mp hfind
      unfold PlainObject.delete
      simp only [hrow, hprop, Option.bind_some]
      by_cases hflags : pr.flags &&& 1 = 0
      · simp only [if_pos hflags]
        exact ⟨st, rfl, h, hsame⟩
      · simp only [if_neg hflags]
        have hlen' : (obj.prop.modify i fun _ => undef).length =
            (sh.ownCopy.removeProperty a prev i).prop.length := by
          rw [← Shape.length_labels, Shape.labels_removeProperty, List.length_modify, List.length_modify,
            Shape.length_labels, hlen]
          rfl
        obtain ⟨st₁, st₂, hprepare, hmodify, hinv, hplain⟩ := h.update hobj
          (f := fun sh => sh.removeProperty a prev i) (g := fun vs => vs.modify i fun _ => undef) rfl rfl
          (hvalid.ownCopy.removeProperty hprev) hlen'
        refine ⟨st₂, ?_, hinv, hplain.trans ?_⟩
        · rw [hprepare, Option.bind_some, hmodify]
          rfl
        · rw [hvalid.ownCopy.rows_removeProperty hkey, Shape.rows_ownCopy]
          rfl

theorem ShapeInv.setPrototype (h : ShapeInv st) (hobj : st.object o = some (obj, sh))
    (proto : Option π) : ∃ st', st.setPrototype o proto = some st' ∧ ShapeInv st' ∧
      st'.plain = st.plain.set o (some ⟨proto, sh.rows obj.prop⟩) := by
  obtain ⟨ho, hsh⟩ := object_eq_some.mp hobj
  have hlen := h.sized ho hsh
  have hrows : Shape.rows { sh.ownCopy with proto := proto } obj.prop = sh.rows obj.prop :=
    Shape.rows_congr rfl
  unfold ShapeState.setPrototype
  rw [hobj]
  simp only [Option.bind_eq_bind, Option.bind_some]
  by_cases hproto : sh.proto = proto
  · rw [if_pos hproto, ← hproto]
    exact ⟨st, rfl, h, (set_getElem (plain_getElem hobj)).symm⟩
  · rw [if_neg hproto]
    obtain ⟨st₁, st₂, hprepare, hmodify, hinv, hplain⟩ := h.update hobj
      (f := fun sh => { sh with proto := proto }) (g := fun vs => vs) rfl rfl
      ((h.table.valid hsh).congr rfl rfl rfl) hlen
    refine ⟨st₂, ?_, hinv, hplain.trans ?_⟩
    · rw [hprepare, Option.bind_some]
      exact hmodify
    · exact congrArg (fun rows => st.plain.set o (some ⟨proto, rows⟩)) hrows

/-! ## Objects come and go -/

omit [DecidableEq π] in
/-- One object more. -/
theorem ShapeInv.push (h : ShapeInv st) (hobjs : st'.objects = st.objects ++ [some obj])
    (hsh : st'.shapes obj.shape = some sh) (hlen : obj.prop.length = sh.prop.length)
    (htable : TableInv st' (Function.update st.holders obj.shape (st.holders obj.shape + 1)))
    (hviews : ∀ (o' : ℕ) (obj' : ShapedObject V), st.objects[o']? = some (some obj') →
      st'.viewOf obj'.shape = st.viewOf obj'.shape) :
    ShapeInv st' ∧ st'.plain = st.plain ++ [some ⟨sh.proto, sh.rows obj.prop⟩] := by
  have hholders : st'.holders = Function.update st.holders obj.shape (st.holders obj.shape + 1) := by
    funext id
    unfold ShapeState.holders
    rw [hobjs, List.map_append, List.count_append]
    by_cases hid : id = obj.shape
    · subst hid
      simp
    · simp [Function.update_of_ne hid, Ne.symm hid]
  refine ⟨⟨by rwa [hholders], fun {o' obj' sh'} ho' hsh' => ?_⟩, ?_⟩
  · rw [hobjs] at ho'
    by_cases hlt : o' < st.objects.length
    · rw [List.getElem?_append_left hlt] at ho'
      have hview := hviews o' obj' ho'
      obtain ⟨sh₀, hsh₀⟩ := h.shape ho'
      unfold ShapeState.viewOf at hview
      rw [hsh₀, hsh'] at hview
      have hlabels : sh'.labels = sh₀.labels := congrArg Prod.snd (Option.some.inj hview)
      rw [h.sized ho' hsh₀, ← Shape.length_labels, ← hlabels, Shape.length_labels]
    · rw [List.getElem?_append_right (Nat.not_lt.mp hlt), List.getElem?_singleton] at ho'
      split at ho'
      · obtain rfl := Option.some.inj (Option.some.inj ho')
        rw [hsh] at hsh'
        obtain rfl := Option.some.inj hsh'
        exact hlen
      · simp at ho'
  · unfold ShapeState.plain
    rw [hobjs, List.map_append, List.map_singleton]
    congr 1
    · refine List.map_congr_left fun x hx => ?_
      cases x with
      | none => rfl
      | some obj' =>
          obtain ⟨o', ho'⟩ := List.mem_iff_getElem?.mp hx
          have hview := hviews o' obj' ho'
          simp [ShapeState.plainOf, hview]
    · simp [ShapeState.plainOf, ShapeState.viewOf, hsh, Shape.view, Shape.rows]

/-- The shape of a new object with a new shape. -/
def emptyShape (h : BitVec 32) (proto : Option π) : Shape π :=
  ⟨1, true, false, h, 3, 2, fun _ => none, [], proto⟩

omit [DecidableEq π] in
theorem emptyShape_fits (hash : BitVec 32) (proto : Option π) : ShapeFits (emptyShape hash proto) 1 := by
  refine ⟨rfl, Nat.one_pos, ⟨chains_empty _ _, ⟨fun {i j k} hi _ => ?_, fun {i k} hi => ?_⟩⟩, fun _ => rfl⟩
  · exact absurd hi (by simp [emptyShape, Shape.key])
  · exact absurd hi (by simp [emptyShape, Shape.key])

omit [DecidableEq π] in
/-- `js_new_shape`, which may make the table larger. -/
theorem ShapeInv.newShape (h : ShapeInv st) (hash : BitVec 32) (proto : Option π) :
    (st.newShape hash proto).objects = st.objects ∧
      (st.newShape hash proto).shapes =
        Function.update st.shapes st.nextShape (some (emptyShape hash proto)) ∧
      TableInv (st.newShape hash proto) (Function.update st.holders st.nextShape 1) := by
  unfold ShapeState.newShape
  dsimp only
  split
  · exact ⟨rfl, rfl, (h.table.resizeShapeHash _).enterShape (emptyShape_fits hash proto)⟩
  · exact ⟨rfl, rfl, h.table.enterShape (emptyShape_fits hash proto)⟩

theorem ShapeInv.newObject (h : ShapeInv st) (hash : BitVec 32) (proto : Option π) :
    ∃ st', st.newObject hash proto = some st' ∧ ShapeInv st' ∧
      st'.plain = st.plain ++ [some ⟨proto, []⟩] := by
  unfold ShapeState.newObject
  cases hfind : st.findHashedShapeProto hash proto with
  | some id =>
      dsimp only
      obtain ⟨sh, hsh, hhashed, -⟩ := (h.table.listed _ id).mp (List.mem_of_find?_eq_some hfind)
      have hfound := List.find?_some hfind
      simp only [hsh, decide_eq_true_eq] at hfound
      obtain ⟨-, hproto, hprop⟩ := hfound
      obtain ⟨st₁, hdup, htable, hobjs, -, hviews⟩ := h.table.dupShape hsh hhashed
      have hview : st₁.viewOf id = some sh.view := by
        rw [hviews, ShapeState.viewOf, hsh]
        rfl
      obtain ⟨sh₁, hsh₁, hview₁⟩ := Option.map_eq_some_iff.mp hview
      have hlabels : sh₁.labels = [] := by
        have hsame : sh₁.labels = sh.labels := congrArg Prod.snd hview₁
        rw [hsame]
        exact List.eq_nil_of_length_eq_zero (sh.length_labels.trans hprop)
      have hproto₁ : sh₁.proto = proto := (congrArg Prod.fst hview₁).trans hproto
      have hlen : sh₁.prop.length = 0 := by
        rw [← Shape.length_labels, hlabels]
        rfl
      have hobjs' : ShapeState.objects { st₁ with objects := st₁.objects ++ [some ⟨id, []⟩] } =
          st.objects ++ [some ⟨id, []⟩] := by
        rw [hobjs]
      obtain ⟨hinv, hplain⟩ := h.push hobjs' hsh₁ hlen.symm (htable.withObjects fun _ => rfl)
        fun o' obj' _ => hviews _
      refine ⟨_, ?_, hinv, hplain.trans ?_⟩
      · rw [hdup]
        rfl
      · rw [hproto₁, Shape.rows, hlabels]
        rfl
  | none =>
      dsimp only
      obtain ⟨hobjs, hshapes, htable⟩ := h.newShape hash proto
      have hzero : st.holders st.nextShape = 0 := h.table.unused (h.table.fresh le_rfl)
      have hobjs' : ShapeState.objects { st.newShape hash proto with
          objects := (st.newShape hash proto).objects ++ [some ⟨st.nextShape, []⟩] } =
          st.objects ++ [some ⟨st.nextShape, []⟩] := by
        rw [hobjs]
      have hsh : (st.newShape hash proto).shapes st.nextShape = some (emptyShape hash proto) := by
        rw [hshapes, Function.update_self]
      obtain ⟨hinv, hplain⟩ := h.push hobjs' hsh rfl
        (htable.withObjects fun id => by rw [hzero]) fun o' obj' ho' => by
          obtain ⟨sh₀, hsh₀⟩ := h.shape ho'
          unfold ShapeState.viewOf
          rw [hshapes, Function.update_of_ne (h.table.lt hsh₀).ne]
      exact ⟨_, rfl, hinv, hplain⟩

omit [DecidableEq π] in
theorem ShapeInv.freeObject (h : ShapeInv st) (hobj : st.object o = some (obj, sh)) :
    ∃ st', st.freeObject o = some st' ∧ ShapeInv st' ∧ st'.plain = st.plain.set o none := by
  obtain ⟨ho, hsh⟩ := object_eq_some.mp hobj
  obtain ⟨st₁, hfree, htable, hobjs, -, hviews⟩ := h.table.freeShape hsh
  have hset : (st₁.setObject o none).objects = st.objects.set o none := by
    unfold ShapeState.setObject
    rw [hobjs]
  have hholders : ∀ j, (st₁.setObject o none).holders j =
      Function.update st.holders obj.shape (st.holders obj.shape - 1) j := by
    intro j
    rw [holders_set ho hset]
    by_cases hj : j = obj.shape
    · subst hj
      simp
    · simp [Function.update_of_ne hj, Ne.symm hj]
  obtain ⟨hinv, hplain⟩ := h.set hset (htable.setObject hholders) (by simp)
    fun o' obj' hne ho' => hviews _ (other_shape ho ho' hne)
  refine ⟨st₁.setObject o none, ?_, hinv, hplain⟩
  unfold ShapeState.freeObject
  rw [hobj]
  simp only [Option.bind_eq_bind, Option.bind_some]
  rw [hfree]
  rfl

end Operations

end Objects

/-! ## Runs -/

/-- The name of a property is not `JS_ATOM_NULL`. -/
abbrev PropName := { a : JSAtom // a ≠ 0 }

/-- What a program does to its objects. -/
inductive ShapeOp (π V : Type) where
  | create (proto : Option π)
  | free (o : ℕ)
  | put (o : ℕ) (a : PropName) (flags : ShapeFlags) (v : V)
  | delete (o : ℕ) (a : PropName)
  | setPrototype (o : ℕ) (proto : Option π)
  | get (o : ℕ) (a : PropName)

/-- What the program is told. -/
inductive ShapeAnswer (V : Type) where
  | done
  | deleted (ok : Bool)
  | found (p : Option (ShapeFlags × V))

section Runs

variable {π V : Type} [DecidableEq π]

/-- One operation, as the engine does it: `protoHash` is the hash of a prototype, and `undef` what
a deleted property leaves.  There is no result when the object does not exist, and where an
assertion fails. -/
def shapeStep (protoHash : Option π → BitVec 32) (undef : V) (st : ShapeState π V) :
    ShapeOp π V → Option (ShapeState π V × ShapeAnswer V)
  | .create proto => (st.newObject (protoHash proto) proto).map (·, .done)
  | .free o => (st.freeObject o).map (·, .done)
  | .put o a flags v => (st.putProperty o a flags v).map (·, .done)
  | .delete o a => (st.deleteProperty undef o a).map fun r => (r.1, .deleted r.2)
  | .setPrototype o proto => (st.setPrototype o proto).map (·, .done)
  | .get o a => (st.object o).map fun _ => (st, .found (st.getProperty o a))

omit [DecidableEq π] in
/-- One operation on objects that share nothing. -/
def plainStep (ps : List (Option (PlainObject π V))) :
    ShapeOp π V → Option (List (Option (PlainObject π V)) × ShapeAnswer V)
  | .create proto => some (ps ++ [some ⟨proto, []⟩], .done)
  | .free o => (ps[o]?).join.map fun _ => (ps.set o none, .done)
  | .put o a flags v => (ps[o]?).join.map fun p => (ps.set o (some (p.put a flags v)), .done)
  | .delete o a => (ps[o]?).join.map fun p =>
    (ps.set o (some (p.delete a).1), .deleted (p.delete a).2)
  | .setPrototype o proto => (ps[o]?).join.map fun p => (ps.set o (some ⟨proto, p.rows⟩), .done)
  | .get o a => (ps[o]?).join.map fun p => (ps, .found (rowLookup p.rows a))

/-- Operations in turn, with their answers. -/
def runOps {σ α β : Type} (step : σ → α → Option (σ × β)) : List α → σ → Option (σ × List β)
  | [], s => some (s, [])
  | a :: as, s => do
    let (s₁, b) ← step s a
    let (s₂, bs) ← runOps step as s₁
    return (s₂, b :: bs)

/-- The state at the start, behind `init_shape_hash`. -/
def ShapeState.start : ShapeState π V := ⟨fun _ => none, 0, fun _ => [], 4, 0, []⟩

omit [DecidableEq π] in
theorem ShapeInv.start : ShapeInv (ShapeState.start : ShapeState π V) := by
  refine ⟨⟨fun _ => rfl, fun _ => rfl, ?_, ?_, ?_, ?_, ?_, ?_⟩, ?_⟩ <;> simp [ShapeState.start]

omit [DecidableEq π] in
/-- An object that does not exist. -/
theorem ShapeInv.object_eq_none {st : ShapeState π V} (h : ShapeInv st) {o : ℕ}
    (hobj : st.object o = none) : (st.plain[o]?).join = none := by
  unfold ShapeState.plain
  rw [List.getElem?_map]
  cases hx : st.objects[o]? with
  | none => rfl
  | some x =>
      cases x with
      | none => rfl
      | some obj =>
          obtain ⟨sh, hsh⟩ := h.shape hx
          rw [object_eq_some.mpr ⟨hx, hsh⟩] at hobj
          simp at hobj

/-- **One operation** does with shared shapes what it does without. -/
theorem shapeStep_plain {st : ShapeState π V} (h : ShapeInv st) (protoHash : Option π → BitVec 32)
    (undef : V) (op : ShapeOp π V) :
    (shapeStep protoHash undef st op = none ∧ plainStep st.plain op = none) ∨
      ∃ st' ans, shapeStep protoHash undef st op = some (st', ans) ∧ ShapeInv st' ∧
        plainStep st.plain op = some (st'.plain, ans) := by
  -- what is done to an object that does not exist fails on both sides
  have hmissing : ∀ {o}, st.object o = none → (st.plain[o]?).join = none := h.object_eq_none
  have hthere : ∀ {o obj sh}, st.object o = some (obj, sh) →
      (st.plain[o]?).join = some ⟨sh.proto, sh.rows obj.prop⟩ := fun hobj => by
    rw [plain_getElem hobj]
    rfl
  cases op with
  | create proto =>
      obtain ⟨st', hnew, hinv, hplain⟩ := h.newObject (protoHash proto) proto
      exact Or.inr ⟨st', .done, by simp [shapeStep, hnew], hinv, by simp [plainStep, hplain]⟩
  | free o =>
      cases hobj : st.object o with
      | none => exact Or.inl (by simp [shapeStep, plainStep, ShapeState.freeObject, hobj, hmissing hobj])
      | some p =>
          obtain ⟨st', hfree, hinv, hplain⟩ := h.freeObject hobj
          exact Or.inr ⟨st', .done, by simp [shapeStep, hfree], hinv,
            by simp [plainStep, hthere hobj, hplain]⟩
  | put o a flags v =>
      cases hobj : st.object o with
      | none => exact Or.inl (by simp [shapeStep, plainStep, ShapeState.putProperty, hobj, hmissing hobj])
      | some p =>
          obtain ⟨st', hput, hinv, hplain⟩ := h.putProperty hobj a.2 flags v
          exact Or.inr ⟨st', .done, by simp [shapeStep, hput], hinv,
            by simp [plainStep, hthere hobj, hplain]⟩
  | delete o a =>
      cases hobj : st.object o with
      | none =>
          exact Or.inl (by simp [shapeStep, plainStep, ShapeState.deleteProperty, hobj, hmissing hobj])
      | some p =>
          obtain ⟨st', hdelete, hinv, hplain⟩ := h.deleteProperty hobj undef a
          refine Or.inr ⟨st', .deleted (PlainObject.delete ⟨p.2.proto, p.2.rows p.1.prop⟩ a).2, ?_, hinv, ?_⟩
          · simp [shapeStep, hdelete]
          · simp [plainStep, hthere hobj, hplain]
  | setPrototype o proto =>
      cases hobj : st.object o with
      | none =>
          exact Or.inl (by simp [shapeStep, plainStep, ShapeState.setPrototype, hobj, hmissing hobj])
      | some p =>
          obtain ⟨st', hproto, hinv, hplain⟩ := h.setPrototype hobj proto
          exact Or.inr ⟨st', .done, by simp [shapeStep, hproto], hinv,
            by simp [plainStep, hthere hobj, hplain]⟩
  | get o a =>
      cases hobj : st.object o with
      | none => exact Or.inl (by simp [shapeStep, plainStep, hobj, hmissing hobj])
      | some p =>
          refine Or.inr ⟨st, .found (st.getProperty o a), ?_, h, ?_⟩
          · simp [shapeStep, hobj]
          · simp [plainStep, hthere hobj, h.getProperty hobj]

theorem runOps_plain (protoHash : Option π → BitVec 32) (undef : V) (ops : List (ShapeOp π V)) :
    ∀ {st : ShapeState π V}, ShapeInv st →
      (runOps (shapeStep protoHash undef) ops st).map (fun r => (r.1.plain, r.2)) =
        runOps plainStep ops st.plain := by
  induction ops with
  | nil =>
      intro st _
      rfl
  | cons op ops ih =>
      intro st h
      unfold runOps
      rcases shapeStep_plain h protoHash undef op with ⟨hshape, hplain⟩ | ⟨st', ans, hshape, hinv, hplain⟩
      · rw [hshape, hplain]
        rfl
      · rw [hshape, hplain]
        simp only [Option.bind_eq_bind, Option.bind_some]
        rw [← ih hinv]
        cases runOps (shapeStep protoHash undef) ops st' <;> rfl

/-- What is true of the shapes is true at the end of every run. -/
theorem runOps_inv (protoHash : Option π → BitVec 32) (undef : V) (ops : List (ShapeOp π V)) :
    ∀ {st st' : ShapeState π V} {answers : List (ShapeAnswer V)}, ShapeInv st →
      runOps (shapeStep protoHash undef) ops st = some (st', answers) → ShapeInv st' := by
  induction ops with
  | nil =>
      intro st st' answers h hrun
      obtain rfl : st = st' := congrArg Prod.fst (Option.some.inj hrun)
      exact h
  | cons op ops ih =>
      intro st st' answers h hrun
      unfold runOps at hrun
      rcases shapeStep_plain h protoHash undef op with ⟨hshape, -⟩ | ⟨st₁, ans, hshape, hinv, -⟩
      · rw [hshape] at hrun
        simp at hrun
      · rw [hshape] at hrun
        simp only [Option.bind_eq_bind, Option.bind_some] at hrun
        obtain ⟨r, hr, heq⟩ := Option.bind_eq_some_iff.mp hrun
        obtain rfl : r.1 = st' := congrArg Prod.fst (Option.some.inj heq)
        exact ih hinv hr

end Runs

end Engine
end FuzzerJs
