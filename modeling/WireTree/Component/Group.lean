/-
**Fields of a group.**

A group is two lists of fields, and a table that takes a name to a place in one of them.  Adding a
field puts it at the end of its list; removing one moves the later fields of the same list down by
one, together with their places in the table and, for optional fields, their presence marks.  A
name stands for one field, and an optional field has a name, since it is marked present by name.

A field may be changed in place, but not its name.

Main definitions:

* `WireTree.GroupOf.slot?`, `WireTree.GroupOf.field` — looking a field up;
* `WireTree.GroupOf.addField`, `WireTree.GroupOf.removeField` — changing the lists;
* `WireTree.GroupOf.modifyField` — changing what a field holds;
* `WireTree.GroupOf.isPresent`, `WireTree.GroupOf.setPresent` — presence of optional fields;
* `WireTree.GroupOf.get`, `WireTree.GroupOf.modifyAs`, `WireTree.GroupOf.enable` — typed access to
  the fields of a group of components.
-/

import WireTree.Component.Basic

set_option relaxedAutoImplicit false
set_option autoImplicit false

namespace WireTree

namespace Slot

/-- The place of a field after the one at `gone` has left. -/
def afterRemoval (gone : Slot) : Slot → Slot
  | required i =>
    match gone with
    | required j => required (if j < i then i - 1 else i)
    | optional _ => required i
  | optional i =>
    match gone with
    | optional j => optional (if j < i then i - 1 else i)
    | required _ => optional i

end Slot

namespace GroupOf

variable {α ρ : Type}

/-! ### Looking fields up -/

/-- The place of the field of a name, if there is one. -/
def slot? (g : GroupOf α) (name : String) : Option Slot := g.slots.lookup name

/-- Whether there is a field of a name. -/
def hasField (g : GroupOf α) (name : String) : Bool := (g.slot? name).isSome

/-- The field at a place, if there is one. -/
def fieldAt? (g : GroupOf α) : Slot → Option (Named α)
  | .required i => g.required[i]?
  | .optional i => g.optional[i]?

/-- The group with another field at a place. -/
def setFieldAt (g : GroupOf α) (slot : Slot) (c : Named α) : GroupOf α :=
  match slot with
  | .required i => { g with required := g.required.set i c }
  | .optional i => { g with optional := g.optional.set i c }

/-- The place of the field of a name, and the field. -/
def find (g : GroupOf α) (name : String) : Except WireError (Slot × Named α) :=
  match g.slot? name with
  | none => .error (.unknownField name)
  | some slot =>
    match g.fieldAt? slot with
    | none => .error (.unknownField name)
    | some c => .ok (slot, c)

/-- The field of a name. -/
def field (g : GroupOf α) (name : String) : Except WireError (Named α) :=
  match g.find name with
  | .error e => .error e
  | .ok (_, c) => .ok c

/-! ### Adding and removing fields -/

/-- The group with a field more, whatever its name. -/
def append (g : GroupOf α) (c : Named α) (optional : Bool) : GroupOf α :=
  if optional then
    { g with
      optional := g.optional ++ [c]
      indicator := g.indicator.resize (g.optional.length + 1)
      cachedSize := none }
  else { g with required := g.required ++ [c], cachedSize := none }

/-- The place that the next field will have. -/
def nextSlot (g : GroupOf α) (optional : Bool) : Slot :=
  if optional then .optional g.optional.length else .required g.required.length

/-- The group with a field more at the end of its list.  An optional field must have a name and
begins absent, and no two fields have the same name. -/
def addField (g : GroupOf α) (c : Named α) (optional : Bool) : Except WireError (GroupOf α) :=
  match c.name with
  | none => if optional then .error .unnamedOptional else .ok (g.append c optional)
  | some name =>
    if g.hasField name then .error (.duplicateField name)
    else .ok { g.append c optional with slots := g.slots ++ [(name, g.nextSlot optional)] }

/-- The table of names without one of them, after its field has left. -/
def slotsAfterRemoval (g : GroupOf α) (name : String) (gone : Slot) : List (String × Slot) :=
  (g.slots.filter fun entry => entry.1 != name).map fun entry =>
    (entry.1, gone.afterRemoval entry.2)

/-- The field of a name, and the group without it. -/
def removeField (g : GroupOf α) (name : String) : Except WireError (Named α × GroupOf α) :=
  match g.find name with
  | .error e => .error e
  | .ok (.required i, c) =>
    .ok (c, { g with
      required := g.required.eraseIdx i
      slots := g.slotsAfterRemoval name (.required i)
      cachedSize := none })
  | .ok (.optional i, c) =>
    match g.indicator.remove i with
    | .error e => .error e
    | .ok (_, indicator) =>
      .ok (c, { g with
        optional := g.optional.eraseIdx i
        indicator
        slots := g.slotsAfterRemoval name (.optional i)
        cachedSize := none })

/-! ### Changing fields -/

/-- Changes what the field of a name holds; the name stays. -/
def modifyField (g : GroupOf α) (name : String) (f : α → ρ × α) : Outcome (GroupOf α) ρ :=
  match g.find name with
  | .error e => (.error e, g)
  | .ok (slot, c) =>
    match f c.kind with
    | (r, kind) => (.ok r, (g.setFieldAt slot (c.withKind kind)).forget)

/-! ### Presence -/

/-- Whether the field of a name is present; a required field always is. -/
def isPresent (g : GroupOf α) (name : String) : Except WireError Bool :=
  match g.slot? name with
  | none => .error (.unknownField name)
  | some (.required _) => .ok true
  | some (.optional i) => .ok (g.indicator.get i)

/-- Marks the optional field of a name present or absent. -/
def setPresent (g : GroupOf α) (name : String) (present : Bool) : Except WireError (GroupOf α) :=
  match g.slot? name with
  | none => .error (.unknownField name)
  | some (.required _) => .error (.fieldNotOptional name)
  | some (.optional i) =>
    match g.indicator.set i present with
    | .error e => .error e
    | .ok indicator => .ok { g with indicator, cachedSize := none }

/-! ### Typed access -/

/-- What the field of a name holds, as contents of a variant. -/
def get (g : Group) (v : Variant) (name : String) : Except WireError v.Content :=
  match g.field name with
  | .error e => .error e
  | .ok c => c.kind.downcast v

/-- Changes what the field of a name holds, as contents of a variant. -/
def modifyAs (g : Group) (v : Variant) (name : String) (f : v.Content → ρ × v.Content) :
    Outcome Group ρ :=
  match g.find name with
  | .error e => (.error e, g)
  | .ok (slot, c) =>
    match c.kind.downcast v with
    | .error e => (.error e, g.forget)
    | .ok content =>
      match f content with
      | (r, content) =>
        (.ok r, (g.setFieldAt slot (c.withKind (Kind.ofContent v content))).forget)

/-- Marks the optional field of a name present and changes what it holds.  The variant is checked
before the mark is set. -/
def enable (g : Group) (v : Variant) (name : String) (f : v.Content → ρ × v.Content) :
    Outcome Group ρ :=
  match g.get v name with
  | .error e => (.error e, g)
  | .ok _ =>
    match g.setPresent name true with
    | .error e => (.error e, g)
    | .ok g => g.modifyAs v name f

end GroupOf

end WireTree
