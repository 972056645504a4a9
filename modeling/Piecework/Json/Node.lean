import Piecework.Json.Token

/-!
# JSON as it is read

The tree of a text, as far as the text goes.  Where the text stops being JSON the
tree has a broken end, so a reader that walks the tree from the front meets what
the text says first: a value of the wrong kind in an early place is found before a
break in a later one.
-/

namespace Piecework.Json

mutual

/-- A value in a text. -/
inductive Node where
  | null
  | bool (b : Bool)
  | number (n : Number)
  /-- A quoted text, without a value if half of a character stands on its own. -/
  | text (s : Option String)
  | array (items : Items)
  | object (members : Members)
  /-- Here the text breaks. -/
  | broken

/-- The items of an array. -/
inductive Items where
  | done
  | next (head : Node) (rest : Items)
  | broken

/-- The members of an object. -/
inductive Members where
  | done
  | next (key : Option String) (value : Node) (rest : Members)
  | broken

end

/-- Items in front of others. -/
def Items.ofList : List Node → Items → Items
  | [], tail => tail
  | v :: rest, tail => .next v (ofList rest tail)

/-- Members in front of others. -/
def Members.ofList : List (Option String × Node) → Members → Members
  | [], tail => tail
  | (key, v) :: rest, tail => .next key v (ofList rest tail)

/-- A whole text: its tree, and whether nothing but the tree is in it. -/
structure Document where
  root : Node
  whole : Bool

namespace Document

/-- A container that was opened and not closed yet, with what stands in it before
the value under way. -/
inductive Frame where
  | array (before : List Node)
  | object (before : List (Option String × Node)) (key : Option String)

namespace Frame

/-- The container when the text breaks behind the value. -/
def cut (value : Node) : Frame → Node
  | array before => .array (.ofList (before ++ [value]) .broken)
  | object before key => .object (.ofList (before ++ [(key, value)]) .broken)

end Frame

/-- The tree of a text that breaks behind a value. -/
def broken (value : Node) (frames : List Frame) : Document :=
  ⟨frames.foldl Frame.cut value, false⟩

mutual

/-- Reads a value and all that follows it. -/
def value (frames : List Frame) : List Token → Document
  | .null :: rest => after frames .null rest
  | .bool b :: rest => after frames (.bool b) rest
  | .number n :: rest => after frames (.number n) rest
  | .text s :: rest => after frames (.text s) rest
  | .beginArray :: .endArray :: rest => after frames (.array .done) rest
  | .beginArray :: rest => value (.array [] :: frames) rest
  | .beginObject :: .endObject :: rest => after frames (.object .done) rest
  | .beginObject :: .text key :: .colon :: rest => value (.object [] key :: frames) rest
  | .beginObject :: .text key :: _ => broken .broken (.object [] key :: frames)
  | .beginObject :: _ => broken (.object .broken) frames
  | _ => broken .broken frames

/-- Reads on behind a value. -/
def after (frames : List Frame) (v : Node) (tokens : List Token) : Document :=
  match frames, tokens with
  | [], [] => ⟨v, true⟩
  | [], _ :: _ => ⟨v, false⟩
  | .array before :: frames, .comma :: rest => value (.array (before ++ [v]) :: frames) rest
  | .array before :: frames, .endArray :: rest =>
    after frames (.array (.ofList (before ++ [v]) .done)) rest
  | .object before key :: frames, .comma :: .text key' :: .colon :: rest =>
    value (.object (before ++ [(key, v)]) key' :: frames) rest
  | .object before key :: frames, .comma :: .text key' :: _ =>
    broken .broken (.object (before ++ [(key, v)]) key' :: frames)
  | .object before key :: frames, .endObject :: rest =>
    after frames (.object (.ofList (before ++ [(key, v)]) .done)) rest
  | frames, _ => broken v frames

end

/-- The document with the given tokens. -/
def ofTokens (tokens : List Token) : Document :=
  value [] tokens

/-- The document in a text. -/
def ofChars (cs : List Char) : Document :=
  ofTokens (Token.ofChars cs)

end Document

end Piecework.Json
