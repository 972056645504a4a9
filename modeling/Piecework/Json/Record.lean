import Piecework.Json.Format

/-!
# Records and alternatives

A record is an object with a fixed list of named fields.  Its members may come in
any order, unknown ones are skipped, and none may come twice.  It may also be
written as an array of its fields in order.

An alternative is one of two records, told apart by the text of one extra field.
All of its members have to be complete before the record is looked at, because the
telling field may be the last one.
-/

namespace Piecework.Json

/-- A named field. -/
structure Field (α : Type) where
  name : String
  format : Format α
  /-- What a missing field stands for; without it the field is required. -/
  missing : Option α
  /-- Values for which the field is not written. -/
  hides : α → Bool

namespace Field

/-- A field that is always there. -/
def required (name : String) (format : Format α) : Field α :=
  ⟨name, format, none, fun _ => false⟩

/-- A field that may be missing and is written as `null` when it has no value. -/
def nullable (name : String) (format : Format α) : Field (Option α) :=
  ⟨name, format.optional, some none, fun _ => false⟩

/-- A field that may be missing and is not written when it has no value. -/
def optional (name : String) (format : Format α) : Field (Option α) :=
  ⟨name, format.optional, some none, Option.isNone⟩

end Field

/-- The fields of a record, in order, over the product of their types. -/
inductive Fields : Type → Type 1 where
  | nil : Fields Unit
  | cons {α β : Type} (field : Field α) (rest : Fields β) : Fields (α × β)

namespace Fields

/-- A place for the value of each field, empty until the field is met. -/
@[reducible] def Slots : {γ : Type} → Fields γ → Type
  | _, .nil => Unit
  | _, @cons α _ _ rest => Option α × rest.Slots

/-- Slots of which none is filled. -/
def empty : {γ : Type} → (fields : Fields γ) → fields.Slots
  | _, .nil => ()
  | _, .cons _ rest => (none, rest.empty)

/-- Fills the slot of a name.  `none` when there is no such field; a second value
for a field is a fault, whatever it is. -/
def fill (room : Nat) (name : String) (v : Node) :
    {γ : Type} → (fields : Fields γ) → fields.Slots → Option (Except Fault fields.Slots)
  | _, .nil, _ => none
  | _, .cons field rest, slots =>
    if name = field.name then
      match slots.1 with
      | some _ => some (.error .otherShape)
      | none => some ((field.format.read room v).map fun a => (some a, slots.2))
    else
      (rest.fill room name v slots.2).map fun result => result.map fun others => (slots.1, others)

/-- The record in the slots, with a value for each field that is missing. -/
def finish : {γ : Type} → (fields : Fields γ) → fields.Slots → Except Fault γ
  | _, .nil, _ => .ok ()
  | _, .cons field rest, slots =>
    match slots.1.or field.missing with
    | none => .error .otherShape
    | some a => (rest.finish slots.2).map fun b => (a, b)

/-- Reads the members of an object into the slots. -/
def readMembers (room : Nat) {γ : Type} (fields : Fields γ) :
    fields.Slots → Members → Except Fault γ
  | slots, .done => fields.finish slots
  | _, .broken => .error .notJson
  | _, .next none _ _ => .error .notJson
  | slots, .next (some key) v rest =>
    match fields.fill room key v slots with
    | none => fields.readMembers room slots rest
    | some (.error e) => .error e
    | some (.ok slots) => fields.readMembers room slots rest

/-- Reads the fields in order from the items of an array.  `surplus` is the fault of
an array that goes on behind the last field. -/
def readItems (room : Nat) (surplus : Fault) :
    {γ : Type} → Fields γ → Items → Except Fault γ
  | _, .nil, .done => .ok ()
  | _, .nil, .broken => .error .notJson
  | _, .nil, .next .. => .error surplus
  | _, .cons field rest, .done =>
    match field.missing with
    | none => .error .otherShape
    | some a => (rest.readItems room surplus .done).map fun b => (a, b)
  | _, .cons _ _, .broken => .error .notJson
  | _, .cons field rest, .next v items =>
    match field.format.read room v with
    | .error e => .error e
    | .ok a => (rest.readItems room surplus items).map fun b => (a, b)

/-- The members of a record, in order. -/
def members : {γ : Type} → Fields γ → γ → List (String × Value)
  | _, .nil, () => []
  | _, .cons field rest, (a, b) =>
    let others := rest.members b
    if field.hides a then others else (field.name, field.format.write a) :: others

/-- The format of the record. -/
def format {γ : Type} (fields : Fields γ) : Format γ where
  read room
    | .object members => fields.readMembers (room - 1) fields.empty members
    | .array items => fields.readItems (room - 1) .notJson items
    | v => .error v.mismatch
  write c := .object (fields.members c)

end Fields

/-- One of two records, named by the text of the field `tag`. -/
structure Either (α β : Type) where
  tag : String
  leftName : String
  left : Fields α
  rightName : String
  right : Fields β

namespace Either

/-- Which record a tag names: `true` for the left one. -/
def side (e : Either α β) : Node → Except Fault Bool
  | .text (some s) =>
    if s = e.leftName then .ok true
    else if s = e.rightName then .ok false
    else .error .otherShape
  | v => .error v.mismatch

/-- Finds the side that the members name.  Every other member has to be whole. -/
def findSide (e : Either α β) (room : Nat) : Option Bool → Members → Except Fault Bool
  | found, .done => found.elim (.error .otherShape) .ok
  | _, .broken => .error .notJson
  | _, .next none _ _ => .error .notJson
  | found, .next (some key) v rest =>
    if key = e.tag then
      match found with
      | some _ => .error .otherShape
      | none =>
        match e.side v with
        | .error fault => .error fault
        | .ok side => e.findSide room (some side) rest
    else if v.isWhole room then e.findSide room found rest
    else .error .notJson

/-- Reads the record of a side from members or items. -/
def readSide (left : Except Fault α) (right : Except Fault β) :
    Bool → Except Fault (α ⊕ β)
  | true => left.map .inl
  | false => right.map .inr

/-- Reads the record from an object. -/
def readMembers (e : Either α β) (room : Nat) (members : Members) : Except Fault (α ⊕ β) :=
  match e.findSide room none members with
  | .error fault => .error fault
  | .ok side =>
    readSide (e.left.readMembers room e.left.empty members)
      (e.right.readMembers room e.right.empty members) side

/-- Reads the record from an array with the tag in front. -/
def readItems (e : Either α β) (room : Nat) : Items → Except Fault (α ⊕ β)
  | .done => .error .otherShape
  | .broken => .error .notJson
  | .next v rest =>
    match e.side v with
    | .error fault => .error fault
    | .ok side =>
      if rest.isWhole room then
        readSide (e.left.readItems room .otherShape rest)
          (e.right.readItems room .otherShape rest) side
      else .error .notJson

/-- The format of the alternative. -/
def format (e : Either α β) : Format (α ⊕ β) where
  read room
    | .object members => e.readMembers (room - 1) members
    | .array items => e.readItems (room - 1) items
    | v => .error v.mismatch
  write
    | .inl a => .object ((e.tag, .text e.leftName) :: e.left.members a)
    | .inr b => .object ((e.tag, .text e.rightName) :: e.right.members b)

end Either

end Piecework.Json
