import Piecework.Json.Node
import Piecework.Json.Value
import Piecework.Time.Reading

/-!
# Formats

A format says how values of one type are written in JSON and what is read as one.
Reading tells apart a text that is not JSON from JSON of another shape, and reports
whichever comes first in the text.
-/

namespace Piecework.Json

/-- Why a text is refused. -/
inductive Fault where
  /-- The text is not JSON, or says a number or a text that has no value. -/
  | notJson
  /-- The text is JSON, but not of the shape that is asked for. -/
  | otherShape
deriving DecidableEq, Repr

/-- The fault of a value that is not of the kind that is asked for.  A scalar is
read before its kind is looked at, so one without a value is not even JSON. -/
def Node.mismatch : Node → Fault
  | .broken => .notJson
  | .text none => .notJson
  | .number n => if n.value.isFinite then .otherShape else .notJson
  | _ => .otherShape

mutual

/-- Whether a value is complete, every number and text in it has a value, and it
nests at most `room` deep. -/
def Node.isWhole (room : Nat) : Node → Bool
  | .null | .bool _ => true
  | .number n => n.value.isFinite
  | .text s => s.isSome
  | .array items => 0 < room && items.isWhole (room - 1)
  | .object members => 0 < room && members.isWhole (room - 1)
  | .broken => false

/-- `Node.isWhole` for all items. -/
def Items.isWhole (room : Nat) : Items → Bool
  | .done => true
  | .next v rest => v.isWhole room && rest.isWhole room
  | .broken => false

/-- `Node.isWhole` for all members. -/
def Members.isWhole (room : Nat) : Members → Bool
  | .done => true
  | .next key v rest => key.isSome && v.isWhole room && rest.isWhole room
  | .broken => false

end

/-- How values of a type are written and read.  A reader is told how deep the value
may nest. -/
structure Format (α : Type) where
  read : Nat → Node → Except Fault α
  write : α → Value

namespace Format

/-- How deep a text may nest. -/
def maxDepth : Nat := 127

/-- Reads a document of which nothing may be left over. -/
def readWhole (f : Format α) (document : Document) : Except Fault α :=
  match f.read maxDepth document.root with
  | .error e => .error e
  | .ok a => if document.whole then .ok a else .error .notJson

/-- Reads a whole text. -/
def decode (f : Format α) (text : String) : Except Fault α :=
  f.readWhole (Document.ofChars text.toList)

/-- Reads a whole text in octets. -/
def decodeOctets (f : Format α) (octets : ByteArray) : Except Fault α :=
  f.readWhole (Document.ofTokens (Token.ofOctets octets))

/-- The compact text of a value. -/
def encode (f : Format α) (a : α) : String := (f.write a).toText

/-- The format of a type that is another way to look at `α`. -/
def imap (f : Format α) (make : α → β) (take : β → α) : Format β where
  read room v := (f.read room v).map make
  write b := f.write (take b)

/-! ## Scalars -/

/-- A text. -/
def text : Format String where
  read _
    | .text (some s) => .ok s
    | v => .error v.mismatch
  write := .text

/-- A truth value. -/
def bool : Format Bool where
  read _
    | .bool b => .ok b
    | v => .error v.mismatch
  write := .bool

/-- Any number that is finite as a float. -/
def float : Format Float where
  read _
    | .number n => if n.value.isFinite then .ok n.value else .error .notJson
    | v => .error v.mismatch
  write := .float

/-- An integer of `lo ≤ n ≤ hi`, written with neither a point nor an exponent. -/
def integer (lo hi : Int) : Format Int where
  read _
    | .number n =>
      match n.integer? with
      | some i => if lo ≤ i ∧ i ≤ hi then .ok i else .error (Node.number n).mismatch
      | none => .error (Node.number n).mismatch
    | v => .error v.mismatch
  write := .integer

/-- An identifier: a signed integer of 64 bits. -/
def identifier : Format Int :=
  integer Text.minId Text.maxId

/-- A natural number below `bound`. -/
def natural (bound : Nat) : Format Nat :=
  (integer 0 (bound - 1)).imap Int.toNat Int.ofNat

/-- A word of 64 bits. -/
def word : Format UInt64 :=
  (natural UInt64.size).imap UInt64.ofNat UInt64.toNat

/-- An instant, in UTC when it is written. -/
def instant : Format Time.Instant where
  read room v :=
    match text.read room v with
    | .error e => .error e
    | .ok s =>
      match Time.relaxed? s.toList with
      | some t => .ok t
      | none => .error .otherShape
  write t := .text t.text

/-- A value or nothing. -/
def optional (f : Format α) : Format (Option α) where
  read room
    | .null => .ok none
    | v => (f.read room v).map some
  write
    | some a => f.write a
    | none => .null

/-- One of a few named values: its name, or an object with its name and `null`.  No
value of another kind is looked into. -/
def choice (all : List α) (name : α → String) : Format α where
  read _
    | .text (some s) => (all.find? (name · == s)).elim (.error .otherShape) .ok
    | .object (.next (some key) v rest) =>
      match all.find? (name · == key), v, rest with
      | none, _, _ => .error .otherShape
      | some a, .null, .done => .ok a
      | some _, .null, _ => .error .notJson
      | some _, v, _ => .error v.mismatch
    | _ => .error .notJson
  write a := .text (name a)

/-! ## Arrays -/

/-- Reads the items of an array. -/
def readItems (f : Format α) (room : Nat) : Items → Except Fault (List α)
  | .done => .ok []
  | .broken => .error .notJson
  | .next v rest =>
    match f.read room v with
    | .error e => .error e
    | .ok a => (f.readItems room rest).map (a :: ·)

/-- An array of any length. -/
def list (f : Format α) : Format (List α) where
  read room
    | .array items => f.readItems (room - 1) items
    | v => .error v.mismatch
  write as := .array (as.map f.write)

end Format

end Piecework.Json
