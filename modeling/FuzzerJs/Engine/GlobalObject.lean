import FuzzerJs.Engine.Value
import FuzzerJs.Lib.Machine

/-!
# Properties of the global object

The operations of `quickjs.c` on the two objects that hold global names:
`ctx->global_obj`, an ordinary extensible object of class `JS_CLASS_OBJECT` with the
`var` and `function` declarations, and `ctx->global_var_obj`, which holds the lexical
ones.  Neither is exotic, an array or a module namespace, so the branches for those
(`is_exotic`, `fast_array`, `JS_PROP_LENGTH`, `JS_CLASS_MODULE_NS`) do not occur here.

A property is a triple of flags and a slot, whose constructor is the type in
`JS_PROP_TMASK`.  None of the operations calls back into the program except the setter
of an accessor, which runs after the lookup is over; what it does is a further sequence of
the operations.

Each operation has one lemma on the properties that are *pinned*, that is own,
non-configurable and of type `JS_PROP_NORMAL`: a pinned property stays pinned
(`defineProperty_pinned`, `setProperty_pinned`, ...).
-/

namespace FuzzerJs
namespace Engine

/-! ## Objects -/

/-- `JS_PROP_CONFIGURABLE`, `JS_PROP_WRITABLE` and `JS_PROP_ENUMERABLE`. -/
structure PropFlags where
  configurable : Bool
  writable : Bool
  enumerable : Bool
  deriving DecidableEq

/-- `JS_PROP_C_W_E`. -/
def propCWE : PropFlags := ⟨true, true, true⟩

/-- The union of `JSProperty`, by `JS_PROP_TMASK`. -/
inductive Slot where
  /-- `JS_PROP_NORMAL`. -/
  | normal (value : JSValue)
  /-- `JS_PROP_GETSET`: references to two functions, or `NULL`. -/
  | getset (getter setter : Option ℕ)
  /-- `JS_PROP_VARREF`, with the value that the reference points to. -/
  | varref (value : JSValue)
  /-- `JS_PROP_AUTOINIT`, with the value that the initialisation function will store. -/
  | autoinit (value : JSValue)
  deriving DecidableEq

/-- A property of the shape and its slot. -/
structure Property where
  flags : PropFlags
  slot : Slot
  deriving DecidableEq

/-- An ordinary object. -/
structure Obj where
  props : JSAtom → Option Property
  extensible : Bool
  proto : Option ℕ

/-- Replace or add one property (`add_property` and the updates in place). -/
def Obj.put (o : Obj) (prop : JSAtom) (p : Property) : Obj :=
  { o with props := Function.update o.props prop (some p) }

@[simp]
theorem Obj.put_props_self (o : Obj) (prop : JSAtom) (p : Property) :
    (o.put prop p).props prop = some p := by
  simp [Obj.put]

theorem Obj.put_props_ne (o : Obj) {prop other : JSAtom} (p : Property) (h : other ≠ prop) :
    (o.put prop p).props other = o.props other := by
  simp [Obj.put, h]

/-- `JS_ThrowTypeErrorOrFalse`: `throws` says whether the flags ask for an exception. -/
def typeErrorOrFalse (throws : Bool) (message : String) : Result :=
  if throws then .error ⟨.typeError, message, none⟩ else .ok false

/-- `JS_ThrowTypeErrorReadOnly`. -/
def typeErrorReadOnly (throws : Bool) (prop : JSAtom) : Result :=
  if throws then .error ⟨.typeError, "%s is read-only", some prop⟩ else .ok false

/-! ## `JS_DefineProperty` -/

/-- The arguments of `JS_DefineProperty`: the flags, and the three values.  A getter or
setter that is not a function counts as `none`. -/
structure Descriptor where
  hasConfigurable : Bool
  hasWritable : Bool
  hasEnumerable : Bool
  hasGet : Bool
  hasSet : Bool
  hasValue : Bool
  configurable : Bool
  writable : Bool
  enumerable : Bool
  throws : Bool
  val : JSValue
  getter : Option ℕ
  setter : Option ℕ

namespace Descriptor

/-- `flags & (JS_PROP_HAS_GET | JS_PROP_HAS_SET)`. -/
def hasAccessor (d : Descriptor) : Bool := d.hasGet || d.hasSet

/-- `flags & (JS_PROP_HAS_VALUE | JS_PROP_HAS_WRITABLE | JS_PROP_HAS_GET | JS_PROP_HAS_SET)`. -/
def hasContent (d : Descriptor) : Bool := d.hasValue || d.hasWritable || d.hasGet || d.hasSet

end Descriptor

/-- Whether the type is `JS_PROP_GETSET`. -/
def Slot.isGetset : Slot → Bool
  | .getset _ _ => true
  | _ => false

/-- `check_define_prop_flags`. -/
def checkDefinePropFlags (p : Property) (d : Descriptor) : Bool :=
  if !p.flags.configurable &&
      ((d.hasConfigurable && d.configurable) ||
        (d.hasEnumerable && d.enumerable != p.flags.enumerable)) then false
  else if d.hasContent && !p.flags.configurable then
    if d.hasAccessor != p.slot.isGetset then false
    else if !d.hasAccessor && !p.slot.isGetset && !p.flags.writable then
      -- not writable: cannot set the writable bit
      !(d.hasWritable && d.writable)
    else true
  else true

section Define

variable (sameValue : JSValue → JSValue → Bool)

/-- The accessor part of the update of an existing property; `none` is the jump to
`not_configurable`. -/
def redefineAccessor (p : Property) (d : Descriptor) : Option Property :=
  let store (flags : PropFlags) (getter setter : Option ℕ) : Option Property :=
    some ⟨flags, .getset (if d.hasGet then d.getter else getter)
      (if d.hasSet then d.setter else setter)⟩
  match p.slot with
  | .getset getter setter =>
    if !p.flags.configurable &&
        ((d.hasGet && d.getter != getter) || (d.hasSet && d.setter != setter)) then none
    else store p.flags getter setter
  -- convert to getset; an automatic property is cleared first
  | _ => store { p.flags with writable := false } none none

/-- The data part of the update of an existing property. -/
def redefineData (p : Property) (d : Descriptor) : Option Property :=
  let store (flags : PropFlags) (value : JSValue) : Option Property :=
    some ⟨{ flags with writable := if d.hasWritable then d.writable else flags.writable },
      .normal (if d.hasValue then d.val else value)⟩
  match p.slot with
  -- convert to data descriptor
  | .getset _ _ => store { p.flags with writable := false } .undefined
  | .autoinit _ => store p.flags .undefined
  | .varref value =>
    let value := if d.hasValue then d.val else value
    -- if writable is set to false, no longer a reference
    if d.hasWritable && !d.writable then some ⟨{ p.flags with writable := false }, .normal value⟩
    else some ⟨p.flags, .varref value⟩
  | .normal value =>
    if !p.flags.configurable && !p.flags.writable && d.hasValue && !sameValue d.val value then none
    else store p.flags value

/-- `flags & mask` of the last step: the two attributes that every property has. -/
def applyMask (p : Property) (d : Descriptor) : Property :=
  { p with flags :=
      { p.flags with
        configurable := if d.hasConfigurable then d.configurable else p.flags.configurable
        enumerable := if d.hasEnumerable then d.enumerable else p.flags.enumerable } }

/-- The update of an existing property after its flags were checked. -/
def redefine (p : Property) (d : Descriptor) : Option Property :=
  let updated :=
    if d.hasContent then
      if d.hasAccessor then redefineAccessor p d else redefineData sameValue p d
    else some p
  updated.map fun p => applyMask p d

/-- `JS_CreateProperty`. -/
def createProperty (o : Obj) (prop : JSAtom) (d : Descriptor) : Result × Obj :=
  if !o.extensible then (typeErrorOrFalse d.throws "object is not extensible", o)
  else if d.hasAccessor then
    (.ok true, o.put prop ⟨⟨d.configurable, false, d.enumerable⟩,
      .getset (if d.hasGet then d.getter else none) (if d.hasSet then d.setter else none)⟩)
  else
    (.ok true, o.put prop ⟨⟨d.configurable, d.writable, d.enumerable⟩,
      .normal (if d.hasValue then d.val else .undefined)⟩)

/-- `JS_DefineProperty`. -/
def defineProperty (o : Obj) (prop : JSAtom) (d : Descriptor) : Result × Obj :=
  match o.props prop with
  | some p =>
    if !checkDefinePropFlags p d then
      (typeErrorOrFalse d.throws "property is not configurable", o)
    else
      match redefine sameValue p d with
      | none => (typeErrorOrFalse d.throws "property is not configurable", o)
      | some p' => (.ok true, o.put prop p')
  | none => createProperty o prop d

/-! ## Assignment, deletion and the rest -/

/-- What the prototype chain has to say to an assignment to a name that is not an own
property: nothing, that the name is read-only, or that a setter or an exotic object took the
assignment over. -/
inductive Inherited where
  | absent
  | readOnly
  | handled (result : Result)

/-- `JS_SetPropertyInternal` on the object itself.  `setterResult` is what a setter called on
the way returns; `noAdd` is the flag `JS_PROP_NO_ADD`. -/
def setProperty (o : Obj) (prop : JSAtom) (val : JSValue) (throws noAdd : Bool)
    (inherited : Inherited) (setterResult : Result) : Result × Obj :=
  match o.props prop with
  | some ⟨flags, .normal _⟩ =>
    if flags.writable then (.ok true, o.put prop ⟨flags, .normal val⟩)
    else (typeErrorReadOnly throws prop, o)
  | some ⟨_, .getset _ none⟩ =>
    (if throws then .error ⟨.typeError, "no setter for property", none⟩ else .ok true, o)
  | some ⟨_, .getset _ (some _)⟩ => (setterResult, o)
  | some ⟨flags, .varref _⟩ => (.ok true, o.put prop ⟨flags, .varref val⟩)
  -- the property is instantiated, and the assignment is tried again
  | some ⟨flags, .autoinit value⟩ =>
    if flags.writable then (.ok true, o.put prop ⟨flags, .normal val⟩)
    else (typeErrorReadOnly throws prop, o.put prop ⟨flags, .normal value⟩)
  | none =>
    match inherited with
    | .handled result => (result, o)
    | .readOnly => (typeErrorReadOnly throws prop, o)
    | .absent =>
      if noAdd then (.error ⟨.referenceError, "%s is not defined", some prop⟩, o)
      else if !o.extensible then (typeErrorOrFalse throws "object is not extensible", o)
      else (.ok true, o.put prop ⟨propCWE, .normal val⟩)

/-- The descriptor of a plain definition of a value, `JS_PROP_HAS_VALUE`. -/
def valueDescriptor (val : JSValue) : Descriptor :=
  ⟨false, false, false, false, false, true, false, false, false, false, val, none, none⟩

/-- The descriptor that adds an ordinary property, with all flags given and set. -/
def freshDescriptor (val : JSValue) (throws : Bool) : Descriptor :=
  ⟨true, true, true, false, false, true, true, true, true, throws, val, none, none⟩

/-- The end of `JS_SetPropertyGeneric`, on the receiver of `Reflect.set` or of an assignment
that reached another object first. -/
def setReceiver (o : Obj) (prop : JSAtom) (val : JSValue) (throws : Bool) : Result × Obj :=
  match o.props prop with
  | some ⟨_, .getset _ _⟩ => (typeErrorOrFalse throws "setter is forbidden", o)
  | some ⟨flags, _⟩ =>
    if !flags.writable then (typeErrorReadOnly throws prop, o)
    else defineProperty sameValue o prop (valueDescriptor val)
  | none => createProperty o prop (freshDescriptor val throws)

/-- `JS_DeleteProperty`. -/
def deleteProperty (o : Obj) (prop : JSAtom) (throws : Bool) : Result × Obj :=
  match o.props prop with
  | some p =>
    if !p.flags.configurable then (typeErrorOrFalse throws "could not delete property", o)
    else (.ok true, { o with props := Function.update o.props prop none })
  | none => (.ok true, o)

/-- `JS_PreventExtensions`. -/
def preventExtensions (o : Obj) : Obj := { o with extensible := false }

/-- `JS_SetPrototypeInternal`; `circular` is the outcome of the walk up from the new
prototype. -/
def setPrototype (o : Obj) (proto : Option ℕ) (circular throws : Bool) : Result × Obj :=
  if o.proto = proto then (.ok true, o)
  else if !o.extensible then (typeErrorOrFalse throws "object is not extensible", o)
  else if circular then (typeErrorOrFalse throws "circular prototype chain", o)
  else (.ok true, { o with proto := proto })

/-- `JS_AutoInitProperty`: reading an automatic property stores its value. -/
def autoInitProperty (o : Obj) (prop : JSAtom) : Obj :=
  match o.props prop with
  | some ⟨flags, .autoinit value⟩ => o.put prop ⟨flags, .normal value⟩
  | _ => o

end Define

/-- How `JS_GetPropertyInternal` ends. -/
inductive ReadResult where
  | value (v : JSValue)
  /-- A function of the program is called. -/
  | calls (getter : ℕ)
  | error (e : JSError)
  deriving DecidableEq

/-- `JS_GetPropertyInternal`, where `inherited` is what the prototype chain answers for a name
that is not an own property. -/
def getProperty (o : Obj) (prop : JSAtom) (inherited : ReadResult) : ReadResult :=
  match o.props prop with
  | some ⟨_, .normal value⟩ => .value value
  | some ⟨_, .getset none _⟩ => .value .undefined
  | some ⟨_, .getset (some getter) _⟩ => .calls getter
  | some ⟨_, .varref value⟩ =>
    if value = .uninitialized then .error ⟨.referenceError, "%s is not initialized", some prop⟩
    else .value value
  | some ⟨_, .autoinit value⟩ => .value value
  | none => inherited

/-! ## Pinned properties -/

/-- An own, non-configurable data property. -/
def Pinned (o : Obj) (prop : JSAtom) : Prop :=
  ∃ flags value, o.props prop = some ⟨flags, .normal value⟩ ∧ flags.configurable = false

theorem pinned_put_self {o : Obj} {prop : JSAtom} {p : Property}
    (hc : p.flags.configurable = false) (hs : ∃ value, p.slot = .normal value) :
    Pinned (o.put prop p) prop := by
  obtain ⟨value, hv⟩ := hs
  refine ⟨p.flags, value, ?_, hc⟩
  rw [Obj.put_props_self, ← hv]

theorem Pinned.put_ne {o : Obj} {prop other : JSAtom} (h : Pinned o prop) (p : Property)
    (hne : prop ≠ other) : Pinned (o.put other p) prop := by
  obtain ⟨flags, value, hp, hc⟩ := h
  exact ⟨flags, value, by rw [o.put_props_ne p hne, hp], hc⟩

/-- Reading a pinned property gives its value, without running any code. -/
theorem Pinned.getProperty {o : Obj} {prop : JSAtom} (h : Pinned o prop)
    (inherited : ReadResult) : ∃ v, getProperty o prop inherited = .value v := by
  obtain ⟨flags, value, hp, -⟩ := h
  exact ⟨value, by rw [Engine.getProperty, hp]⟩

section Pinned

variable (sameValue : JSValue → JSValue → Bool)

/-- An accepted descriptor for a non-configurable data property neither gives it a getter or
setter nor makes it configurable. -/
theorem checkDefinePropFlags_pinned {flags : PropFlags} {value : JSValue} {d : Descriptor}
    (hc : flags.configurable = false)
    (h : checkDefinePropFlags ⟨flags, .normal value⟩ d = true) :
    (d.hasContent = true → d.hasAccessor = false) ∧
      (d.hasConfigurable = true → d.configurable = false) := by
  unfold checkDefinePropFlags at h
  simp only [hc, Slot.isGetset, Bool.not_false, Bool.true_and, Bool.and_true] at h
  constructor
  · intro hcontent
    cases hacc : d.hasAccessor with
    | false => rfl
    | true => simp [hcontent, hacc] at h
  · intro hconf
    cases hset : d.configurable with
    | false => rfl
    | true => simp [hconf, hset] at h

/-- The update of a non-configurable data property leaves it one. -/
theorem redefine_pinned {flags : PropFlags} {value : JSValue} {d : Descriptor} {p' : Property}
    (hc : flags.configurable = false)
    (hcheck : checkDefinePropFlags ⟨flags, .normal value⟩ d = true)
    (h : redefine sameValue ⟨flags, .normal value⟩ d = some p') :
    p'.flags.configurable = false ∧ ∃ v, p'.slot = .normal v := by
  obtain ⟨hacc, hconf⟩ := checkDefinePropFlags_pinned hc hcheck
  -- the update before the mask keeps the type and the missing flag
  have hmid : ∀ p, (if d.hasContent then
      if d.hasAccessor then redefineAccessor ⟨flags, .normal value⟩ d
      else redefineData sameValue ⟨flags, .normal value⟩ d
      else some ⟨flags, .normal value⟩) = some p →
      p.flags.configurable = false ∧ ∃ v, p.slot = .normal v := by
    intro p hp
    cases hcontent : d.hasContent with
    | false =>
        rw [hcontent, if_neg (by decide), Option.some.injEq] at hp
        subst hp
        exact ⟨hc, value, rfl⟩
    | true =>
        rw [hcontent, if_pos rfl, hacc hcontent, if_neg (by decide)] at hp
        simp only [redefineData] at hp
        split at hp
        · exact absurd hp (by simp)
        · rw [Option.some.injEq] at hp
          subst hp
          exact ⟨hc, _, rfl⟩
  simp only [redefine, Option.map_eq_some_iff] at h
  obtain ⟨p, hp, rfl⟩ := h
  obtain ⟨hpc, v, hpv⟩ := hmid p hp
  refine ⟨?_, v, hpv⟩
  cases hset : d.hasConfigurable with
  | false => simp [applyMask, hset, hpc]
  | true => simp [applyMask, hset, hconf hset]

theorem createProperty_pinned {o : Obj} {prop other : JSAtom} (h : Pinned o prop)
    (hne : prop ≠ other) (d : Descriptor) : Pinned (createProperty o other d).2 prop := by
  unfold createProperty
  split
  · exact h
  · split
    · exact h.put_ne _ hne
    · exact h.put_ne _ hne

/-- `JS_DefineProperty` keeps a pinned property pinned, whatever the descriptor. -/
theorem defineProperty_pinned {o : Obj} {prop : JSAtom} (h : Pinned o prop) (other : JSAtom)
    (d : Descriptor) : Pinned (defineProperty sameValue o other d).2 prop := by
  by_cases hne : prop = other
  · subst hne
    obtain ⟨flags, value, hp, hc⟩ := h
    have hpin : Pinned o prop := ⟨flags, value, hp, hc⟩
    unfold defineProperty
    rw [hp]
    simp only
    split
    · exact hpin
    · rename_i hcheck
      split
      · exact hpin
      · rename_i p' hp'
        obtain ⟨hc', hs'⟩ := redefine_pinned sameValue hc (by simpa using hcheck) hp'
        exact pinned_put_self hc' hs'
  · unfold defineProperty
    split
    · split
      · exact h
      · split
        · exact h
        · exact h.put_ne _ hne
    · exact createProperty_pinned h hne d

/-- An assignment keeps a pinned property pinned. -/
theorem setProperty_pinned {o : Obj} {prop : JSAtom} (h : Pinned o prop) (other : JSAtom)
    (val : JSValue) (throws noAdd : Bool) (inherited : Inherited) (setterResult : Result) :
    Pinned (setProperty o other val throws noAdd inherited setterResult).2 prop := by
  by_cases hne : prop = other
  · subst hne
    obtain ⟨flags, value, hp, hc⟩ := h
    simp only [setProperty, hp]
    split
    · exact pinned_put_self hc ⟨val, rfl⟩
    · exact ⟨flags, value, hp, hc⟩
  · unfold setProperty
    split
    · split
      · exact h.put_ne _ hne
      · exact h
    · exact h
    · exact h
    · exact h.put_ne _ hne
    · split
      · exact h.put_ne _ hne
      · exact h.put_ne _ hne
    · split
      · exact h
      · exact h
      · split
        · exact h
        · split
          · exact h
          · exact h.put_ne _ hne

theorem setReceiver_pinned {o : Obj} {prop : JSAtom} (h : Pinned o prop) (other : JSAtom)
    (val : JSValue) (throws : Bool) :
    Pinned (setReceiver sameValue o other val throws).2 prop := by
  unfold setReceiver
  split
  · exact h
  · split
    · exact h
    · exact defineProperty_pinned sameValue h other _
  · rename_i hnone
    have hne : prop ≠ other := by
      rintro rfl
      obtain ⟨flags, value, hp, -⟩ := h
      rw [hp] at hnone
      exact absurd hnone (by simp)
    exact createProperty_pinned h hne _

theorem deleteProperty_pinned {o : Obj} {prop : JSAtom} (h : Pinned o prop) (other : JSAtom)
    (throws : Bool) : Pinned (deleteProperty o other throws).2 prop := by
  obtain ⟨flags, value, hp, hc⟩ := h
  have hpin : Pinned o prop := ⟨flags, value, hp, hc⟩
  unfold deleteProperty
  split
  · rename_i p hother
    split
    · exact hpin
    · rename_i hconf
      have hne : prop ≠ other := by
        rintro rfl
        rw [hp, Option.some.injEq] at hother
        subst hother
        simp [hc] at hconf
      exact ⟨flags, value, by simp [hne, hp], hc⟩
  · exact hpin

theorem setPrototype_pinned {o : Obj} {prop : JSAtom} (h : Pinned o prop) (proto : Option ℕ)
    (circular throws : Bool) : Pinned (setPrototype o proto circular throws).2 prop := by
  unfold setPrototype
  split
  · exact h
  · split
    · exact h
    · split
      · exact h
      · exact h

theorem autoInitProperty_pinned {o : Obj} {prop : JSAtom} (h : Pinned o prop)
    (other : JSAtom) : Pinned (autoInitProperty o other) prop := by
  unfold autoInitProperty
  split
  · rename_i hother
    refine h.put_ne _ ?_
    rintro rfl
    obtain ⟨flags, value, hp, -⟩ := h
    rw [hp] at hother
    simp at hother
  · exact h

end Pinned

end Engine
end FuzzerJs
