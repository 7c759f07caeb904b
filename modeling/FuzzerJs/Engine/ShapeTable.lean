import FuzzerJs.Engine.Shape

/-!
# Shared shapes

Objects that got the same properties in the same order share one shape, which is found through a
hash table of all shapes.  A shape is changed in place when only one object uses it, and copied
before that when there are more; a shape from which a property was taken, or of which flags or the
prototype were changed, leaves the table and is never shared again.

`ShapeState` has the shapes, the table and the objects of a runtime; the operations on objects are
as the engine carries them out.
-/

namespace FuzzerJs
namespace Engine

open HashChain

/-! ## The state -/

/-- `JSObject`, as far as its properties go. -/
structure ShapedObject (V : Type) where
  shape : ℕ
  prop : List V

/-- The shapes and objects of a runtime. -/
structure ShapeState (π V : Type) where
  shapes : ℕ → Option (Shape π)
  /-- The next shape that `js_malloc` returns. -/
  nextShape : ℕ
  shapeHash : ℕ → List ℕ
  shapeHashBits : ℕ
  shapeHashCount : ℕ
  objects : List (Option (ShapedObject V))

/-- `shape_hash`. -/
def shapeHashStep (h val : BitVec 32) : BitVec 32 := (h + val) * 0x9e370001#32

/-- `get_shape_hash`. -/
def getShapeHash (h : BitVec 32) (bits : ℕ) : ℕ := (h >>> (32 - bits)).toNat

/-- The hash of a shape with one property more. -/
def nextShapeHash (h : BitVec 32) (a : JSAtom) (flags : ShapeFlags) : BitVec 32 :=
  shapeHashStep (shapeHashStep h a) (flags.setWidth 32)

/-- What `find_hashed_shape_prop` compares of an entry. -/
def ShapeProperty.raw (pr : ShapeProperty) : JSAtom × ShapeFlags := (pr.atom, pr.flags)

section State

variable {π V : Type} [DecidableEq π]

/-- `js_shape_hash_link`. -/
def ShapeState.hashLink (st : ShapeState π V) (id : ℕ) (h : BitVec 32) : ShapeState π V :=
  let b := getShapeHash h st.shapeHashBits
  { st with
    shapeHash := Function.update st.shapeHash b (id :: st.shapeHash b)
    shapeHashCount := st.shapeHashCount + 1 }

/-- `js_shape_hash_unlink`, which does not come to an end when the shape is not in the list. -/
def ShapeState.hashUnlink (st : ShapeState π V) (id : ℕ) (h : BitVec 32) :
    Option (ShapeState π V) :=
  let b := getShapeHash h st.shapeHashBits
  if id ∈ st.shapeHash b then
    some { st with
      shapeHash := Function.update st.shapeHash b ((st.shapeHash b).erase id)
      shapeHashCount := st.shapeHashCount - 1 }
  else none

/-- The inner loop of `resize_shape_hash`: the shapes of a list go into the new table. -/
def relinkShapes (shapes : ℕ → Option (Shape π)) (bits : ℕ) : List ℕ → (ℕ → List ℕ) → ℕ → List ℕ
  | [], table => table
  | id :: ids, table => relinkShapes shapes bits ids (match shapes id with
    | some sh =>
      let b := getShapeHash sh.hash bits
      Function.update table b (id :: table b)
    | none => table)

/-- `resize_shape_hash`. -/
def ShapeState.resizeShapeHash (st : ShapeState π V) (bits : ℕ) : ShapeState π V :=
  { st with
    shapeHashBits := bits
    shapeHash := relinkShapes st.shapes bits
      ((List.range (2 ^ st.shapeHashBits)).flatMap st.shapeHash) fun _ => [] }

/-- Another shape under the same address. -/
def ShapeState.setShape (st : ShapeState π V) (id : ℕ) (sh : Option (Shape π)) : ShapeState π V :=
  { st with shapes := Function.update st.shapes id sh }

/-- Another value of an object. -/
def ShapeState.setObject (st : ShapeState π V) (o : ℕ) (obj : Option (ShapedObject V)) :
    ShapeState π V :=
  { st with objects := st.objects.set o obj }

/-- A new shape. -/
def ShapeState.allocShape (st : ShapeState π V) (sh : Shape π) : ShapeState π V :=
  { st with
    shapes := Function.update st.shapes st.nextShape (some sh)
    nextShape := st.nextShape + 1 }

/-- `js_dup_shape`. -/
def ShapeState.dupShape (st : ShapeState π V) (id : ℕ) : Option (ShapeState π V) := do
  let sh ← st.shapes id
  return st.setShape id (some { sh with refCount := sh.refCount + 1 })

/-- `js_free_shape`. -/
def ShapeState.freeShape (st : ShapeState π V) (id : ℕ) : Option (ShapeState π V) := do
  let sh ← st.shapes id
  match sh.refCount with
  | 0 => none
  | 1 =>
    let st ← if sh.isHashed then st.hashUnlink id sh.hash else some st
    return st.setShape id none
  | n + 2 => return st.setShape id (some { sh with refCount := n + 1 })

/-- `find_hashed_shape_proto`; `h` is the hash of the prototype. -/
def ShapeState.findHashedShapeProto (st : ShapeState π V) (h : BitVec 32) (proto : Option π) :
    Option ℕ :=
  (st.shapeHash (getShapeHash h st.shapeHashBits)).find? fun id =>
    match st.shapes id with
    | some sh => sh.hash = h ∧ sh.proto = proto ∧ sh.prop.length = 0
    | none => false

/-- `find_hashed_shape_prop`. -/
def ShapeState.findHashedShapeProp (st : ShapeState π V) (sh : Shape π) (a : JSAtom)
    (flags : ShapeFlags) : Option ℕ :=
  let h := nextShapeHash sh.hash a flags
  (st.shapeHash (getShapeHash h st.shapeHashBits)).find? fun id =>
    match st.shapes id with
    | some sh1 => sh1.hash = h ∧ sh1.proto = sh.proto ∧
        sh1.prop.map ShapeProperty.raw = sh.prop.map ShapeProperty.raw ++ [(a, flags)]
    | none => false

/-- The object, and its shape. -/
def ShapeState.object (st : ShapeState π V) (o : ℕ) : Option (ShapedObject V × Shape π) := do
  let obj ← (st.objects[o]?).join
  let sh ← st.shapes obj.shape
  return (obj, sh)

/-! ## The operations -/

/-- `js_new_shape`; `h` is the hash of the prototype. -/
def ShapeState.newShape (st : ShapeState π V) (h : BitVec 32) (proto : Option π) :
    ShapeState π V :=
  let st := if 2 ^ st.shapeHashBits < 2 * (st.shapeHashCount + 1) then
    st.resizeShapeHash (st.shapeHashBits + 1) else st
  (st.allocShape ⟨1, true, false, h, 3, 2, fun _ => none, [], proto⟩).hashLink st.nextShape h

/-- `JS_NewObjectProtoClass`. -/
def ShapeState.newObject (st : ShapeState π V) (h : BitVec 32) (proto : Option π) :
    Option (ShapeState π V) := do
  match st.findHashedShapeProto h proto with
  | some id =>
    let st ← st.dupShape id
    return { st with objects := st.objects ++ [some ⟨id, []⟩] }
  | none =>
    let st' := st.newShape h proto
    return { st' with objects := st'.objects ++ [some ⟨st.nextShape, []⟩] }

/-- An object is freed. -/
def ShapeState.freeObject (st : ShapeState π V) (o : ℕ) : Option (ShapeState π V) := do
  let (obj, _) ← st.object o
  let st ← st.freeShape obj.shape
  return st.setObject o none

/-- The object gets a copy of its shape. -/
def ShapeState.cloneFor (st : ShapeState π V) (o : ℕ) (hashed : Bool) : Option (ShapeState π V) := do
  let (obj, sh) ← st.object o
  let st' := st.allocShape { sh with refCount := 1, isHashed := hashed }
  let st' := if hashed then st'.hashLink st.nextShape sh.hash else st'
  let st' ← st'.freeShape obj.shape
  return st'.setObject o (some { obj with shape := st.nextShape })

/-- The shape `id`, which was `sh`, becomes `sh'`; in the table it moves to the place of the hash
`h`. -/
def ShapeState.moveShape (st : ShapeState π V) (id : ℕ) (sh sh' : Shape π) (h : BitVec 32) :
    Option (ShapeState π V) :=
  if sh.isHashed then do
    let st ← st.hashUnlink id sh.hash
    return (st.setShape id (some { sh' with hash := h })).hashLink id h
  else some (st.setShape id (some sh'))

/-- The end of `add_property`: the assertion and `add_shape_property`. -/
def ShapeState.growObject (st : ShapeState π V) (o : ℕ) (a : JSAtom) (flags : ShapeFlags) (v : V) :
    Option (ShapeState π V) := do
  let (obj, sh) ← st.object o
  if sh.refCount ≠ 1 then none
  else
    let st ← st.moveShape obj.shape sh (sh.addProperty a flags) (nextShapeHash sh.hash a flags)
    return st.setObject o (some { obj with prop := obj.prop ++ [v] })

/-- `add_property`, and the value of the new property. -/
def ShapeState.addProperty (st : ShapeState π V) (o : ℕ) (a : JSAtom) (flags : ShapeFlags) (v : V) :
    Option (ShapeState π V) := do
  let (obj, sh) ← st.object o
  if sh.isHashed then
    match st.findHashedShapeProp sh a flags with
    | some id =>
      let st ← st.dupShape id
      let st ← st.freeShape obj.shape
      return st.setObject o (some ⟨id, obj.prop ++ [v]⟩)
    | none =>
      let st ← if sh.refCount ≠ 1 then st.cloneFor o true else some st
      st.growObject o a flags v
  else st.growObject o a flags v

/-- `js_shape_prepare_update`. -/
def ShapeState.prepareUpdate (st : ShapeState π V) (o : ℕ) : Option (ShapeState π V) := do
  let (obj, sh) ← st.object o
  if sh.isHashed then
    if sh.refCount ≠ 1 then st.cloneFor o false
    else
      let st ← st.hashUnlink obj.shape sh.hash
      return st.setShape obj.shape (some { sh with isHashed := false })
  else some st

/-- Change the shape of an object that may be changed, and the values. -/
def ShapeState.modifyObject (st : ShapeState π V) (o : ℕ) (f : Shape π → Shape π)
    (g : List V → List V) : Option (ShapeState π V) := do
  let (obj, sh) ← st.object o
  return (st.setShape obj.shape (some (f sh))).setObject o (some { obj with prop := g obj.prop })

/-- `delete_property`, for objects that are not exotic. -/
def ShapeState.deleteProperty (st : ShapeState π V) (undef : V) (o : ℕ) (a : JSAtom) :
    Option (ShapeState π V × Bool) := do
  let (_, sh) ← st.object o
  match findPrev sh.key sh.links.next a sh.prop.length none (sh.propHash (sh.bucket a)) with
  | none => return (st, true)
  | some (prev, i) =>
    let pr ← sh.prop[i]?
    -- `JS_PROP_CONFIGURABLE`
    if pr.flags &&& 1 = 0 then return (st, false)
    else
      let st ← st.prepareUpdate o
      let st ← st.modifyObject o (fun sh => sh.removeProperty a prev i) fun vs =>
        vs.modify i fun _ => undef
      return (st, true)

/-- A property is looked up, and gets other flags and another value or is made. -/
def ShapeState.putProperty (st : ShapeState π V) (o : ℕ) (a : JSAtom) (flags : ShapeFlags) (v : V) :
    Option (ShapeState π V) := do
  let (_, sh) ← st.object o
  match sh.findOwnProperty a with
  | none => st.addProperty o a flags v
  | some i =>
    let pr ← sh.prop[i]?
    -- `js_update_property_flags`
    if flags ≠ pr.flags then
      let st ← st.prepareUpdate o
      st.modifyObject o (fun sh => sh.setFlags i flags) fun vs => vs.modify i fun _ => v
    else st.modifyObject o id fun vs => vs.modify i fun _ => v

/-- The end of `JS_SetPrototypeInternal`. -/
def ShapeState.setPrototype (st : ShapeState π V) (o : ℕ) (proto : Option π) :
    Option (ShapeState π V) := do
  let (_, sh) ← st.object o
  if sh.proto = proto then some st
  else
    let st ← st.prepareUpdate o
    st.modifyObject o (fun sh => { sh with proto := proto }) id

/-- `find_own_property`: the flags and the value. -/
def ShapeState.getProperty (st : ShapeState π V) (o : ℕ) (a : JSAtom) : Option (ShapeFlags × V) := do
  let (obj, sh) ← st.object o
  let i ← sh.findOwnProperty a
  let pr ← sh.prop[i]?
  let v ← obj.prop[i]?
  return (pr.flags, v)

end State

end Engine
end FuzzerJs
