/-
**Messages.**

A message is a group of fields with a type.  The type tells the receiver which fields to expect;
it is sent by other means, and only the fields are written.  A type has a number, which is its
tag, and not every number is the tag of a type.

Main definitions:

* `WireTree.MessageType`, with `id`, `ofId?` and `name` — the types, their tags and names;
* `WireTree.MessageType.lookup` — the type of a tag, or a failure;
* `WireTree.Message` — a type and a group of fields.

Main results:

* `WireTree.MessageType.ofId?_eq_some_iff` — a tag stands for one type.
-/

import WireTree.Component.Edit

set_option relaxedAutoImplicit false
set_option autoImplicit false

namespace WireTree

/-- The types of message. -/
inductive MessageType where
  /-- Does nothing. -/
  | noOp
  /-- The state of objects. -/
  | replication
  /-- The commands of a player. -/
  | ticcmd
  /-- The change to another map. -/
  | loadMap
  /-- The state of a client. -/
  | clientStatus
  /-- A line of talk. -/
  | chat
  /-- The death of a player. -/
  | obituary
deriving DecidableEq

namespace MessageType

/-- All types, in the order of their tags. -/
def all : List MessageType := [noOp, replication, ticcmd, loadMap, clientStatus, chat, obituary]

/-- The tag of a type. -/
def id : MessageType → UInt8
  | noOp => 0
  | replication => 1
  | ticcmd => 2
  | loadMap => 10
  | clientStatus => 11
  | chat => 20
  | obituary => 21

/-- The name of a type. -/
def name : MessageType → String
  | noOp => "NoOp"
  | replication => "Replication"
  | ticcmd => "Ticcmd"
  | loadMap => "LoadMap"
  | clientStatus => "ClientStatus"
  | chat => "Chat"
  | obituary => "Obituary"

/-- The type of a tag, if there is one. -/
def ofId? (id : UInt8) : Option MessageType := all.find? fun t => t.id == id

/-- The type of a tag. -/
def lookup (id : UInt8) : Except WireError MessageType :=
  match ofId? id with
  | some t => .ok t
  | none => .error (.unknownMessageType id.toNat)

@[simp] theorem ofId?_id (t : MessageType) : ofId? t.id = some t := by
  cases t <;> rfl

/-- A tag stands for one type. -/
theorem ofId?_eq_some_iff {id : UInt8} {t : MessageType} : ofId? id = some t ↔ t.id = id := by
  constructor
  · intro h
    simpa using List.find?_some h
  · rintro rfl
    exact ofId?_id t

end MessageType

/-- A group of fields with a type. -/
structure Message where
  /-- The type, which is not written. -/
  type : MessageType
  /-- The fields. -/
  payload : Group

namespace Message

variable {ρ : Type}

/-- A message without fields. -/
def empty (type : MessageType) : Message := ⟨type, .empty⟩

/-- Changes the fields of a message, with an answer. -/
def edit (m : Message) (e : Edit ρ) : ρ × Message :=
  match e .group m.payload with
  | (r, payload) => (r, { m with payload })

/-- The number of bits of a message by what it remembers, and the message with it remembered. -/
def measure (m : Message) : Nat × Message := m.edit Edit.measure

/-- Appends the fields of a message and tells how many bits they took. -/
def write (m : Message) (s : BitStream) : Outcome BitStream Nat := (Kind.group m.payload).write s

/-- Takes the fields of a message and tells how many bits they took. -/
def read (m : Message) (s : BitStream) : Outcome (Message × BitStream) Nat :=
  match m.edit (Edit.read s) with
  | ((r, s), m) => (r, m, s)

/-- Clears the fields of a message. -/
def clear (m : Message) : Message := (m.edit Edit.clear).2

@[simp] theorem type_edit (m : Message) (e : Edit ρ) : (m.edit e).2.type = m.type := rfl

end Message

end WireTree
