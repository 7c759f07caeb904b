import FuzzerJs.Lib.HashChain
import FuzzerJs.Engine.Atoms

/-!
# Shapes

A shape lists the names and the flags of the properties of an object; the values stand in the
object, in the same order.  The names are found through a hash table with chains that is part of
the shape.  An entry that is deleted stays in the list with the atom `JS_ATOM_NULL`, out of the
chains.

This module is about one shape: what `find_own_property`, `add_shape_property` with
`resize_properties`, and `delete_property` do to it, in terms of the properties of an object
with this shape (`Shape.rows`).
-/

namespace FuzzerJs
namespace Engine

open HashChain

/-- The flags of a property, six bits in `JSShapeProperty`. -/
abbrev ShapeFlags := BitVec 6

/-- `JSShapeProperty`; a `hash_next` of zero is `none`. -/
structure ShapeProperty where
  hashNext : Option ℕ
  flags : ShapeFlags
  atom : JSAtom
  deriving DecidableEq

/-- `JSShape`, for prototypes of the type `π`.  `propHash` is the array before the structure, and
`prop_count` the length of `prop`. -/
structure Shape (π : Type) where
  refCount : ℕ
  isHashed : Bool
  hasSmallArrayIndex : Bool
  hash : BitVec 32
  propHashMask : BitVec 32
  propSize : ℕ
  propHash : ℕ → Option ℕ
  prop : List ShapeProperty
  proto : Option π

/-- A property of an object. -/
abbrev PropRow (V : Type) := JSAtom × ShapeFlags × V

section Shape

variable {π V : Type}

/-- The bucket of an atom. -/
def Shape.bucket (sh : Shape π) (a : JSAtom) : ℕ := (a &&& sh.propHashMask).toNat

/-- The atom of an entry, unless it is `JS_ATOM_NULL`. -/
def ShapeProperty.key (pr : ShapeProperty) : Option JSAtom := if pr.atom = 0 then none else some pr.atom

/-- The atom of the entry with this index. -/
def Shape.key (sh : Shape π) (i : ℕ) : Option JSAtom := sh.prop[i]?.bind ShapeProperty.key

/-- The links of the hash table. -/
def Shape.links (sh : Shape π) : Links := ⟨sh.propHash, fun i => sh.prop[i]?.bind ShapeProperty.hashNext⟩

/-- `find_own_property`: the index of the property. -/
def Shape.findOwnProperty (sh : Shape π) (a : JSAtom) : Option ℕ :=
  find sh.key sh.links.next a sh.prop.length (sh.propHash (sh.bucket a))

/-- The loop that doubles the size of the hash table. -/
def growHashSize : ℕ → ℕ → ℕ → ℕ
  | 0, size, _ => size
  | fuel + 1, size, newSize => if size < newSize then growHashSize fuel (2 * size) newSize else size

/-- The loop of `resize_properties` that enters the properties into a new hash table. -/
def Shape.rehash (sh : Shape π) : Shape π :=
  let L := Links.pushAll sh.bucket sh.key (List.range sh.prop.length) ⟨fun _ => none, sh.links.next⟩
  { sh with
    propHash := L.head
    prop := sh.prop.mapIdx fun i pr => { pr with hashNext := L.next i } }

/-- `resize_properties`. -/
def Shape.resizeProperties (sh : Shape π) (count : ℕ) : Shape π :=
  let newSize := max count (sh.propSize * 3 / 2)
  let hashSize := sh.propHashMask.toNat + 1
  let newHashSize := growHashSize newSize hashSize newSize
  if newHashSize ≠ hashSize then
    Shape.rehash { sh with propHashMask := BitVec.ofNat 32 (newHashSize - 1), propSize := newSize }
  else { sh with propSize := newSize }

/-- The shape with room for one property more. -/
def Shape.withRoom (sh : Shape π) : Shape π :=
  if sh.propSize ≤ sh.prop.length then sh.resizeProperties (sh.prop.length + 1) else sh

/-- `add_shape_property`, up to the table of shapes. -/
def Shape.addProperty (sh : Shape π) (a : JSAtom) (flags : ShapeFlags) : Shape π :=
  let sh := sh.withRoom
  { sh with
    prop := sh.prop ++ [⟨sh.propHash (sh.bucket a), flags, a⟩]
    hasSmallArrayIndex := sh.hasSmallArrayIndex || atomIsTaggedInt a
    propHash := Function.update sh.propHash (sh.bucket a) (some sh.prop.length) }

/-- The entry is free. -/
def ShapeProperty.free (pr : ShapeProperty) : ShapeProperty := { pr with flags := 0, atom := 0 }

/-- The part of `delete_property` for the shape, when the property has the index `i` and follows
`prev` in its chain. -/
def Shape.removeProperty (sh : Shape π) (a : JSAtom) (prev : Option ℕ) (i : ℕ) : Shape π :=
  let L := sh.links.unlink (sh.bucket a) prev i
  { sh with
    propHash := L.head
    prop := (sh.prop.mapIdx fun j pr => { pr with hashNext := L.next j }).modify i ShapeProperty.free }

/-- Other flags for the property with this index. -/
def Shape.setFlags (sh : Shape π) (i : ℕ) (flags : ShapeFlags) : Shape π :=
  { sh with prop := sh.prop.modify i fun pr => { pr with flags := flags } }

/-- What an entry says about a property. -/
def ShapeProperty.label (pr : ShapeProperty) : Option JSAtom × ShapeFlags := (pr.key, pr.flags)

/-- The names and flags of all entries. -/
def Shape.labels (sh : Shape π) : List (Option JSAtom × ShapeFlags) := sh.prop.map ShapeProperty.label

/-- The properties that have these names, flags and values. -/
def propRows (labels : List (Option JSAtom × ShapeFlags)) (values : List V) : List (PropRow V) :=
  (labels.zip values).filterMap fun p => p.1.1.map fun a => (a, p.1.2, p.2)

/-- The properties of an object with this shape, in the order in which they were made. -/
def Shape.rows (sh : Shape π) (values : List V) : List (PropRow V) := propRows sh.labels values

/-- The chains lead to the properties, and no atom stands twice. -/
structure Shape.Valid (sh : Shape π) : Prop where
  chains : Chains sh.bucket sh.key sh.links
  keys : Keys sh.key sh.prop.length

theorem Shape.labels_congr {sh sh' : Shape π} (hprop : sh'.prop = sh.prop) : sh'.labels = sh.labels := by
  unfold Shape.labels
  rw [hprop]

/-- Nothing but the entries and the hash table counts. -/
theorem Shape.Valid.congr {sh sh' : Shape π} (h : sh.Valid) (hprop : sh'.prop = sh.prop)
    (hhash : sh'.propHash = sh.propHash) (hmask : sh'.propHashMask = sh.propHashMask) :
    sh'.Valid := by
  have hbucket : sh'.bucket = sh.bucket := by
    funext a
    unfold Shape.bucket
    rw [hmask]
  have hkey : sh'.key = sh.key := by
    funext i
    unfold Shape.key
    rw [hprop]
  have hlinks : sh'.links = sh.links := by
    unfold Shape.links
    rw [hprop, hhash]
  refine ⟨?_, ?_⟩
  · rw [hbucket, hkey, hlinks]
    exact h.chains
  · rw [hkey, hprop]
    exact h.keys

/-! ## Looking up -/

theorem Shape.Valid.findOwnProperty_eq_some {sh : Shape π} (h : sh.Valid) {a : JSAtom} {i : ℕ} :
    sh.findOwnProperty a = some i ↔ sh.key i = some a :=
  h.chains.find_eq_some_iff h.keys le_rfl

theorem Shape.Valid.findOwnProperty_eq_none {sh : Shape π} (h : sh.Valid) {a : JSAtom} :
    sh.findOwnProperty a = none ↔ ∀ i, sh.key i ≠ some a := by
  constructor
  · intro hnone i hi
    rw [h.findOwnProperty_eq_some.mpr hi] at hnone
    simp at hnone
  · intro hall
    cases hfind : sh.findOwnProperty a with
    | none => rfl
    | some i => exact absurd (h.findOwnProperty_eq_some.mp hfind) (hall i)

/-! ## The hash table -/

theorem Shape.key_eq (sh : Shape π) (i : ℕ) : sh.key i = sh.labels[i]?.bind Prod.fst := by
  unfold Shape.key Shape.labels
  rw [List.getElem?_map]
  cases sh.prop[i]? <;> rfl

theorem Shape.length_labels (sh : Shape π) : sh.labels.length = sh.prop.length := List.length_map _

theorem Shape.labels_rehash (sh : Shape π) : sh.rehash.labels = sh.labels := by
  unfold Shape.rehash Shape.labels
  dsimp only
  refine List.ext_getElem? fun i => ?_
  rw [List.getElem?_map, List.getElem?_mapIdx, List.getElem?_map]
  cases sh.prop[i]? <;> rfl

/-- The chains of the new hash table. -/
theorem Shape.valid_rehash {sh : Shape π} (h : Keys sh.key sh.prop.length) : sh.rehash.Valid := by
  have hkey : sh.rehash.key = sh.key := by
    funext i
    rw [Shape.key_eq, Shape.key_eq, Shape.labels_rehash]
  have hlen : sh.rehash.prop.length = sh.prop.length := by
    rw [← Shape.length_labels, Shape.labels_rehash, Shape.length_labels]
  refine ⟨?_, by rwa [hkey, hlen]⟩
  rw [hkey]
  refine (chains_pushAll sh.bucket sh.links.next List.nodup_range fun i k hk =>
    List.mem_range.mpr (h.lt hk)).congr (fun b => rfl) fun i k hk => ?_
  have hi := h.lt hk
  unfold Shape.rehash Shape.links
  dsimp only
  rw [List.getElem?_mapIdx, List.getElem?_eq_getElem hi]
  rfl

theorem Shape.labels_resizeProperties (sh : Shape π) (count : ℕ) :
    (sh.resizeProperties count).labels = sh.labels := by
  unfold Shape.resizeProperties
  dsimp only
  split
  · rw [Shape.labels_rehash]
    rfl
  · rfl

theorem Shape.Valid.resizeProperties {sh : Shape π} (h : sh.Valid) (count : ℕ) :
    (sh.resizeProperties count).Valid := by
  unfold Shape.resizeProperties
  dsimp only
  split
  · exact Shape.valid_rehash h.keys
  · exact ⟨h.chains, h.keys⟩

theorem Shape.labels_withRoom (sh : Shape π) : sh.withRoom.labels = sh.labels := by
  unfold Shape.withRoom
  split
  · exact Shape.labels_resizeProperties sh _
  · rfl

theorem Shape.Valid.withRoom {sh : Shape π} (h : sh.Valid) : sh.withRoom.Valid := by
  unfold Shape.withRoom
  split
  · exact h.resizeProperties _
  · exact h

/-! ## A property more -/

theorem ShapeProperty.key_of_ne {pr : ShapeProperty} (h : pr.atom ≠ 0) : pr.key = some pr.atom :=
  if_neg h

theorem Shape.labels_addProperty (sh : Shape π) {a : JSAtom} (ha : a ≠ 0) (flags : ShapeFlags) :
    (sh.addProperty a flags).labels = sh.labels ++ [(some a, flags)] := by
  have hroom := sh.labels_withRoom
  change (sh.withRoom.prop ++ [_]).map ShapeProperty.label = _
  rw [List.map_append, ← Shape.labels, hroom, List.map_singleton, ShapeProperty.label,
    ShapeProperty.key_of_ne ha]

/-- The rest of a shape is not changed. -/
theorem Shape.frame_addProperty (sh : Shape π) (a : JSAtom) (flags : ShapeFlags) :
    (sh.addProperty a flags).refCount = sh.refCount ∧
      (sh.addProperty a flags).isHashed = sh.isHashed ∧
      (sh.addProperty a flags).proto = sh.proto := by
  unfold Shape.addProperty Shape.withRoom Shape.resizeProperties
  dsimp only
  split
  · split <;> exact ⟨rfl, rfl, rfl⟩
  · exact ⟨rfl, rfl, rfl⟩

theorem Shape.Valid.addProperty {sh : Shape π} (h : sh.Valid) {a : JSAtom} (ha : a ≠ 0)
    (hnew : ∀ i, sh.key i ≠ some a) (flags : ShapeFlags) : (sh.addProperty a flags).Valid := by
  have hroom := h.withRoom
  have hlabels := sh.labels_withRoom
  have hkeyRoom : sh.withRoom.key = sh.key := by
    funext i
    rw [Shape.key_eq, Shape.key_eq, hlabels]
  have hlen : sh.withRoom.prop.length = sh.prop.length := by
    rw [← Shape.length_labels, hlabels, Shape.length_labels]
  have hlenNew : (sh.addProperty a flags).prop.length = sh.prop.length + 1 := by
    rw [← Shape.length_labels, Shape.labels_addProperty sh ha, List.length_append,
      Shape.length_labels]
    rfl
  have hkey : (sh.addProperty a flags).key = Function.update sh.key sh.prop.length (some a) := by
    funext i
    rw [Shape.key_eq, Shape.labels_addProperty sh ha]
    rcases lt_trichotomy i sh.prop.length with hi | rfl | hi
    · rw [List.getElem?_append_left (by rwa [Shape.length_labels]), Function.update_of_ne (by omega),
        Shape.key_eq]
    · rw [Function.update_self, ← Shape.length_labels]
      simp
    · rw [Function.update_of_ne (by omega), List.getElem?_eq_none
        (by rw [List.length_append, Shape.length_labels]; simp; omega)]
      cases hk : sh.key i with
      | none => rfl
      | some k =>
          have := h.keys.lt hk
          omega
  have hnone : sh.key sh.prop.length = none := by
    cases hk : sh.key sh.prop.length with
    | none => rfl
    | some k =>
        have := h.keys.lt hk
        omega
  refine ⟨?_, ⟨fun {i j k} hi hj => ?_, fun {i k} hi => ?_⟩⟩
  · rw [hkey]
    have hpush := hroom.chains.push (i := sh.prop.length) (by rw [hkeyRoom]; exact hnone) a
    rw [hkeyRoom] at hpush
    refine hpush.congr (fun b => ?_) fun i k hk => ?_
    · change Function.update sh.withRoom.propHash _ (some sh.withRoom.prop.length) b = _
      rw [hlen]
      rfl
    · change ((sh.withRoom.prop ++ [⟨sh.withRoom.propHash (sh.withRoom.bucket a), flags, a⟩])[i]?).bind
        ShapeProperty.hashNext = Function.update sh.withRoom.links.next sh.prop.length _ i
      by_cases hi : i = sh.prop.length
      · rw [hi, Function.update_self, List.getElem?_append_right hlen.le, hlen]
        simp [Shape.links]
      · have hlt : i < sh.withRoom.prop.length := by
          rw [Function.update_of_ne hi] at hk
          rw [hlen]
          exact h.keys.lt hk
        rw [Function.update_of_ne hi, List.getElem?_append_left hlt]
        rfl
  · rw [hkey] at hi hj
    by_cases hin : i = sh.prop.length
    · by_cases hjn : j = sh.prop.length
      · rw [hin, hjn]
      · rw [hin, Function.update_self] at hi
        rw [Function.update_of_ne hjn, ← hi] at hj
        exact absurd hj (hnew j)
    · by_cases hjn : j = sh.prop.length
      · rw [hjn, Function.update_self] at hj
        rw [Function.update_of_ne hin, ← hj] at hi
        exact absurd hi (hnew i)
      · rw [Function.update_of_ne hin] at hi
        rw [Function.update_of_ne hjn] at hj
        exact h.keys.unique hi hj
  · rw [hkey] at hi
    rw [hlenNew]
    by_cases hin : i = sh.prop.length
    · omega
    · rw [Function.update_of_ne hin] at hi
      have := h.keys.lt hi
      omega

/-! ## A property less, and other flags -/

theorem Shape.labels_removeProperty (sh : Shape π) (a : JSAtom) (prev : Option ℕ) (i : ℕ) :
    (sh.removeProperty a prev i).labels = sh.labels.modify i fun _ => (none, 0) := by
  unfold Shape.removeProperty Shape.labels
  dsimp only
  refine List.ext_getElem? fun j => ?_
  rw [List.getElem?_map, List.getElem?_modify, List.getElem?_modify, List.getElem?_mapIdx,
    List.getElem?_map]
  cases sh.prop[j]? with
  | none => rfl
  | some pr =>
      by_cases hj : i = j
      · simp [hj, ShapeProperty.label, ShapeProperty.key, ShapeProperty.free]
      · simp [hj, ShapeProperty.label, ShapeProperty.key]

theorem Shape.labels_setFlags (sh : Shape π) (i : ℕ) (flags : ShapeFlags) :
    (sh.setFlags i flags).labels = sh.labels.modify i fun l => (l.1, flags) := by
  unfold Shape.setFlags Shape.labels
  dsimp only
  refine List.ext_getElem? fun j => ?_
  rw [List.getElem?_map, List.getElem?_modify, List.getElem?_modify, List.getElem?_map]
  cases sh.prop[j]? with
  | none => rfl
  | some pr =>
      by_cases hj : i = j
      · simp [hj, ShapeProperty.label, ShapeProperty.key]
      · simp [hj]

theorem Shape.key_removeProperty (sh : Shape π) (a : JSAtom) (prev : Option ℕ) (i : ℕ) :
    (sh.removeProperty a prev i).key = Function.update sh.key i none := by
  funext j
  rw [Shape.key_eq, Shape.labels_removeProperty, List.getElem?_modify]
  by_cases hj : j = i
  · rw [hj, Function.update_self]
    cases sh.labels[i]? <;> simp
  · rw [Function.update_of_ne hj, Shape.key_eq]
    simp [Ne.symm hj]

theorem Shape.Valid.removeProperty {sh : Shape π} (h : sh.Valid) {a : JSAtom} {prev : Option ℕ}
    {i : ℕ} (hfind : findPrev sh.key sh.links.next a sh.prop.length none (sh.propHash (sh.bucket a)) =
      some (prev, i)) : (sh.removeProperty a prev i).Valid := by
  have hkey := sh.key_removeProperty a prev i
  have hlen : (sh.removeProperty a prev i).prop.length = sh.prop.length := by
    rw [← Shape.length_labels, Shape.labels_removeProperty, List.length_modify, Shape.length_labels]
  have hold : ∀ {j k}, (sh.removeProperty a prev i).key j = some k → sh.key j = some k ∧ j ≠ i := by
    intro j k hj
    rw [hkey] at hj
    by_cases hji : j = i
    · rw [hji, Function.update_self] at hj
      exact absurd hj (by simp)
    · rw [Function.update_of_ne hji] at hj
      exact ⟨hj, hji⟩
  refine ⟨?_, ⟨fun hi hj => h.keys.unique (hold hi).1 (hold hj).1, fun hi => ?_⟩⟩
  · have hunlink := h.chains.unlink hfind
    rw [← hkey] at hunlink
    refine hunlink.congr (fun b => rfl) fun j k hj => ?_
    have hlt := h.keys.lt (hold hj).1
    unfold Shape.removeProperty Shape.links
    dsimp only
    rw [List.getElem?_modify, List.getElem?_mapIdx, List.getElem?_eq_getElem hlt]
    simp [Ne.symm (hold hj).2]
  · rw [hlen]
    exact h.keys.lt (hold hi).1

theorem Shape.Valid.setFlags {sh : Shape π} (h : sh.Valid) (i : ℕ) (flags : ShapeFlags) :
    (sh.setFlags i flags).Valid := by
  have hkey : (sh.setFlags i flags).key = sh.key := by
    funext j
    rw [Shape.key_eq, Shape.key_eq, Shape.labels_setFlags, List.getElem?_modify]
    cases sh.labels[j]? with
    | none => rfl
    | some l => by_cases hj : i = j <;> simp [hj]
  have hlen : (sh.setFlags i flags).prop.length = sh.prop.length := List.length_modify ..
  refine ⟨?_, by rw [hkey, hlen]; exact h.keys⟩
  rw [hkey]
  refine h.chains.congr (fun b => rfl) fun j k hj => ?_
  unfold Shape.setFlags Shape.links
  dsimp only
  rw [List.getElem?_modify]
  cases sh.prop[j]? with
  | none => rfl
  | some pr => by_cases hj : i = j <;> simp [hj]

/-! ## Properties as rows -/

section Rows

variable {α β : Type} {g : α → Option β} {q : β → Bool} {xs : List α} {i : ℕ}

/-- One entry stops to count. -/
theorem filterMap_modify_none {f : α → α} (hf : ∀ x, g (f x) = none)
    (h : ∀ j x r, xs[j]? = some x → g x = some r → (q r = false ↔ j = i)) :
    (xs.modify i f).filterMap g = (xs.filterMap g).filter q := by
  induction xs generalizing i with
  | nil => simp
  | cons x xs ih =>
      cases i with
      | zero =>
          have hrest : (xs.filterMap g).filter q = xs.filterMap g := by
            rw [List.filter_eq_self]
            intro r hr
            obtain ⟨y, hy, hgy⟩ := List.mem_filterMap.mp hr
            obtain ⟨j, hj⟩ := List.mem_iff_getElem?.mp hy
            have := h (j + 1) y r hj hgy
            simpa using this
          rw [List.modify_zero_cons, List.filterMap_cons, hf, List.filterMap_cons]
          cases hgx : g x with
          | none => exact hrest.symm
          | some r =>
              have hr : q r = false := (h 0 x r rfl hgx).mpr rfl
              simp [hr, hrest]
      | succ i =>
          have hrest := @ih i fun j y r hj hy => (h (j + 1) y r hj hy).trans (by omega)
          rw [List.modify_succ_cons, List.filterMap_cons, List.filterMap_cons]
          cases hgx : g x with
          | none => exact hrest
          | some r =>
              have hr : q r ≠ false := fun hr => by simpa using (h 0 x r rfl hgx).mp hr
              simp [hr, hrest]

/-- One entry changes. -/
theorem filterMap_modify_map {f : α → α} {t : β → β} (hf : ∀ x, g (f x) = (g x).map t)
    (h : ∀ j x r, xs[j]? = some x → g x = some r → (q r = true ↔ j = i)) :
    (xs.modify i f).filterMap g = (xs.filterMap g).map fun r => if q r then t r else r := by
  induction xs generalizing i with
  | nil => simp
  | cons x xs ih =>
      cases i with
      | zero =>
          have hrest : (xs.filterMap g).map (fun r => if q r then t r else r) = xs.filterMap g := by
            refine (List.map_congr_left fun r hr => ?_).trans (List.map_id _)
            obtain ⟨y, hy, hgy⟩ := List.mem_filterMap.mp hr
            obtain ⟨j, hj⟩ := List.mem_iff_getElem?.mp hy
            have := h (j + 1) y r hj hgy
            simp at this
            simp [this]
          rw [List.modify_zero_cons, List.filterMap_cons, hf, List.filterMap_cons]
          cases hgx : g x with
          | none => exact hrest.symm
          | some r =>
              have hr : q r = true := (h 0 x r rfl hgx).mpr rfl
              simp [hr, hrest]
      | succ i =>
          have hrest := @ih i fun j y r hj hy => (h (j + 1) y r hj hy).trans (by omega)
          rw [List.modify_succ_cons, List.filterMap_cons, List.filterMap_cons]
          cases hgx : g x with
          | none => exact hrest
          | some r =>
              have hr : ¬ q r = true := fun hr => by simpa using (h 0 x r rfl hgx).mp hr
              simp [hr, hrest]

/-- The only row that is wanted is found. -/
theorem find?_filterMap {x : α} {r : β} (hx : xs[i]? = some x) (hr : g x = some r)
    (h : ∀ j y s, xs[j]? = some y → g y = some s → (q s = true ↔ j = i)) :
    (xs.filterMap g).find? q = some r := by
  cases hfind : (xs.filterMap g).find? q with
  | none =>
      have hmem : r ∈ xs.filterMap g := List.mem_filterMap.mpr ⟨x, List.mem_of_getElem? hx, hr⟩
      exact absurd ((h i x r hx hr).mpr rfl) (List.find?_eq_none.mp hfind r hmem)
  | some s =>
      obtain ⟨y, hy, hgy⟩ := List.mem_filterMap.mp (List.mem_of_find?_eq_some hfind)
      obtain ⟨j, hj⟩ := List.mem_iff_getElem?.mp hy
      obtain rfl : j = i := (h j y s hj hgy).mp (List.find?_some hfind)
      rw [hx] at hj
      obtain rfl := Option.some.inj hj
      exact hgy.symm.trans hr

theorem zip_modify {α β : Type} (f : α → α) (t : β → β) (as : List α) (bs : List β) (i : ℕ) :
    (as.modify i f).zip (bs.modify i t) = (as.zip bs).modify i (Prod.map f t) := by
  induction as generalizing bs i with
  | nil => simp
  | cons a as ih =>
      cases bs with
      | nil => simp
      | cons b bs =>
          cases i with
          | zero => rfl
          | succ i => simp [ih]

end Rows

/-- The property with this name. -/
def rowLookup (rows : List (PropRow V)) (a : JSAtom) : Option (ShapeFlags × V) :=
  (rows.find? fun r => r.1 = a).map Prod.snd

section Operations

variable {sh : Shape π} {values : List V} {a : JSAtom} {i : ℕ}

/-- The row of an entry. -/
def propRow (p : (Option JSAtom × ShapeFlags) × V) : Option (PropRow V) :=
  p.1.1.map fun a => (a, p.1.2, p.2)

theorem Shape.rows_eq (sh : Shape π) (values : List V) :
    sh.rows values = (sh.labels.zip values).filterMap propRow := rfl

/-- A row comes from the entry with its name. -/
theorem Shape.key_of_row {j : ℕ} {x : (Option JSAtom × ShapeFlags) × V} {r : PropRow V}
    (hx : (sh.labels.zip values)[j]? = some x) (hr : propRow x = some r) : sh.key j = some r.1 := by
  obtain ⟨⟨key, flags⟩, v⟩ := x
  have hlabel := (List.getElem?_zip_eq_some.mp hx).1
  rw [Shape.key_eq, hlabel]
  obtain ⟨b, rfl, rfl⟩ := Option.map_eq_some_iff.mp hr
  rfl

/-- The rows with a given name come from one entry. -/
theorem Shape.Valid.row_iff (h : sh.Valid) (hi : sh.key i = some a) :
    ∀ j x r, (sh.labels.zip values)[j]? = some x → propRow x = some r → (r.1 = a ↔ j = i) := by
  intro j x r hx hr
  have hkey := Shape.key_of_row hx hr
  constructor
  · rintro rfl
    exact h.keys.unique hkey hi
  · rintro rfl
    rw [hkey] at hi
    exact Option.some.inj hi

/-- One entry more. -/
theorem Shape.rows_append {sh' : Shape π} {flags : ShapeFlags}
    (hlabels : sh'.labels = sh.labels ++ [(some a, flags)]) (hlen : values.length = sh.prop.length)
    (v : V) : sh'.rows (values ++ [v]) = sh.rows values ++ [(a, flags, v)] := by
  have hzip : sh.labels.length = values.length := by rw [Shape.length_labels, hlen]
  rw [Shape.rows_eq, hlabels, List.zip_append hzip, List.filterMap_append]
  rfl

theorem Shape.Valid.rows_removeProperty (h : sh.Valid) (hi : sh.key i = some a) (prev : Option ℕ)
    (u : V) :
    (sh.removeProperty a prev i).rows (values.modify i fun _ => u) =
      (sh.rows values).filter fun r => r.1 ≠ a := by
  rw [Shape.rows_eq, Shape.labels_removeProperty, zip_modify]
  refine filterMap_modify_none (fun x => rfl) fun j x r hx hr => ?_
  simpa using h.row_iff hi j x r hx hr

theorem Shape.Valid.rows_setFlags (h : sh.Valid) (hi : sh.key i = some a) (flags : ShapeFlags)
    (v : V) :
    (sh.setFlags i flags).rows (values.modify i fun _ => v) =
      (sh.rows values).map fun r => if r.1 = a then (r.1, flags, v) else r := by
  rw [Shape.rows_eq, Shape.labels_setFlags, zip_modify]
  refine (filterMap_modify_map (q := fun r => r.1 = a) (t := fun r => (r.1, flags, v)) (fun x => ?_)
    fun j x r hx hr => ?_).trans ?_
  · obtain ⟨⟨key, f⟩, w⟩ := x
    cases key <;> rfl
  · simpa using h.row_iff hi j x r hx hr
  · simp [Shape.rows_eq]

/-- **A property is found where it is.** -/
theorem Shape.Valid.rowLookup_eq (h : sh.Valid) (hlen : values.length = sh.prop.length) :
    rowLookup (sh.rows values) a = (sh.findOwnProperty a).bind fun i =>
      (sh.prop[i]?).bind fun pr => (values[i]?).map fun v => (pr.flags, v) := by
  cases hfind : sh.findOwnProperty a with
  | none =>
      have hnone := h.findOwnProperty_eq_none.mp hfind
      have hrows : (sh.rows values).find? (fun r => r.1 = a) = none := by
        rw [List.find?_eq_none]
        intro r hr heq
        obtain ⟨x, hx, hrow⟩ := List.mem_filterMap.mp hr
        obtain ⟨j, hj⟩ := List.mem_iff_getElem?.mp hx
        have hkey := Shape.key_of_row hj hrow
        have hra : r.1 = a := by simpa using heq
        rw [hra] at hkey
        exact hnone j hkey
      rw [rowLookup, hrows]
      rfl
  | some i =>
      have hi := h.findOwnProperty_eq_some.mp hfind
      have hlt := h.keys.lt hi
      have hvalue : values[i]? = some (values.get ⟨i, by omega⟩) := List.getElem?_eq_getElem _
      have hprop : sh.prop[i]? = some (sh.prop.get ⟨i, hlt⟩) := List.getElem?_eq_getElem _
      have hlabel : sh.labels[i]? = some (some a, (sh.prop.get ⟨i, hlt⟩).flags) := by
        unfold Shape.key at hi
        unfold Shape.labels
        rw [hprop] at hi
        rw [List.getElem?_map, hprop]
        have hkey : (sh.prop.get ⟨i, hlt⟩).key = some a := hi
        simp only [Option.map_some, ShapeProperty.label, hkey]
      have hzip : (sh.labels.zip values)[i]? =
          some ((some a, (sh.prop.get ⟨i, hlt⟩).flags), values.get ⟨i, by omega⟩) :=
        List.getElem?_zip_eq_some.mpr ⟨hlabel, hvalue⟩
      have hrow := find?_filterMap (g := propRow) (q := fun r => decide (r.1 = a)) hzip rfl
        fun j x r hx hr => by simpa using h.row_iff hi j x r hx hr
      rw [rowLookup, Shape.rows_eq, hrow, Option.bind_some, hprop, Option.bind_some, hvalue]
      rfl

end Operations

end Shape

end Engine
end FuzzerJs
