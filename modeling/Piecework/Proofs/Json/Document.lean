import Piecework.Json.Format
import Piecework.Proofs.Json.Scanning

/-!
# Documents that were written

The text of a value is read as the tree of the value: `ofChars_chars`.  The induction goes over
the value.  What is carried through it is `Denotes`, which says of a piece of text that it is a
value wherever it stands: it is scanned as some tokens, and a reader inside of any containers
takes just these tokens for the value.

A float is only as good as its text.  `ReadsBack` says that the text of a float, on its own,
reads as the same float; then it does so inside of any other text.
-/

namespace Piecework.Json

open Token Document

/-! ## One token -/

namespace Document

variable (frames : List Frame) (v : Node) (rest : List Token)

theorem value_beginArray {first : Token} (h : first ≠ .endArray) :
    value frames (.beginArray :: first :: rest) = value (.array [] :: frames) (first :: rest) := by
  cases first <;> first | rfl | exact absurd rfl h

theorem value_beginObject (key : Option String) :
    value frames (.beginObject :: .text key :: .colon :: rest) =
      value (.object [] key :: frames) rest := rfl

theorem after_nil : after [] v [] = ⟨v, true⟩ := rfl

theorem after_comma (before : List Node) :
    after (.array before :: frames) v (.comma :: rest) =
      value (.array (before ++ [v]) :: frames) rest := rfl

theorem after_endArray (before : List Node) :
    after (.array before :: frames) v (.endArray :: rest) =
      after frames (.array (.ofList (before ++ [v]) .done)) rest := rfl

theorem after_comma_key (before : List (Option String × Node)) (key key' : Option String) :
    after (.object before key :: frames) v (.comma :: .text key' :: .colon :: rest) =
      value (.object (before ++ [(key, v)]) key' :: frames) rest := rfl

theorem after_endObject (before : List (Option String × Node)) (key : Option String) :
    after (.object before key :: frames) v (.endObject :: rest) =
      after frames (.object (.ofList (before ++ [(key, v)]) .done)) rest := rfl

end Document

/-! ## Values in a text -/

/-- The text is a value wherever it stands. -/
def Denotes (cs : List Char) (v : Node) : Prop :=
  ∃ tokens, Scans cs tokens ∧
    ∀ frames rest, value frames (tokens ++ rest) = after frames v rest

theorem Denotes.ofChars_eq {cs : List Char} {v : Node} (h : Denotes cs v) :
    Document.ofChars cs = ⟨v, true⟩ := by
  obtain ⟨tokens, hscans, hvalue⟩ := h
  have hroot := hvalue [] []
  rw [List.append_nil] at hroot
  rw [Document.ofChars, hscans.ofChars_eq, ofTokens, hroot, after_nil]

theorem denotes_null : Denotes ['n', 'u', 'l', 'l'] .null :=
  ⟨_, scans_null, fun _ _ => rfl⟩

theorem denotes_bool (b : Bool) : Denotes (Value.bool b).chars (.bool b) := by
  cases b
  · exact ⟨_, scans_false, fun _ _ => rfl⟩
  · exact ⟨_, scans_true, fun _ _ => rfl⟩

theorem denotes_quoted (s : String) : Denotes (quoted s) (.text (some s)) :=
  ⟨_, scans_quoted s, fun _ _ => rfl⟩

theorem denotes_number {cs : List Char} {n : Number} (h : Scans cs [.number n]) :
    Denotes cs (.number n) :=
  ⟨_, h, fun _ _ => rfl⟩

/-! ## Arrays -/

/-- The text is what stands between the brackets of an array.  Its first token does not close
the array. -/
def DenotesItems (cs : List Char) (items : Items) : Prop :=
  ∃ first tokens, first ≠ .endArray ∧ Scans (cs ++ [']']) (first :: tokens) ∧
    ∀ frames before rest, value (.array before :: frames) (first :: tokens ++ rest) =
      after frames (.array (.ofList before items)) rest

theorem Items.ofList_append (before : List Node) (v : Node) (items : Items) :
    Items.ofList (before ++ [v]) items = Items.ofList before (.next v items) := by
  induction before with
  | nil => rfl
  | cons w before ih => rw [List.cons_append, ofList, ofList, ih]

/-- A value does not begin with a token that closes an array. -/
theorem exists_first_of_value {tokens : List Token} {v : Node}
    (h : ∀ frames rest, value frames (tokens ++ rest) = after frames v rest) :
    ∃ first more, tokens = first :: more ∧ first ≠ .endArray := by
  have hroot := h [] []
  rw [List.append_nil, after_nil] at hroot
  cases tokens with
  | nil => cases congrArg Document.whole hroot
  | cons first more =>
    refine ⟨first, more, rfl, ?_⟩
    rintro rfl
    cases congrArg Document.whole hroot

theorem Denotes.lastItem {cs : List Char} {v : Node} (h : Denotes cs v) :
    DenotesItems cs (.next v .done) := by
  obtain ⟨tokens, hscans, hvalue⟩ := h
  obtain ⟨first, more, rfl, hfirst⟩ := exists_first_of_value hvalue
  refine ⟨first, more ++ [.endArray], hfirst, hscans.close rfl, fun frames before rest => ?_⟩
  have happend : first :: (more ++ [.endArray]) ++ rest = first :: more ++ .endArray :: rest := by
    simp
  rw [happend, hvalue, after_endArray, Items.ofList_append]

theorem Denotes.nextItem {cs ds : List Char} {v : Node} {items : Items} (h : Denotes cs v)
    (h' : DenotesItems ds items) : DenotesItems (cs ++ ',' :: ds) (.next v items) := by
  obtain ⟨tokens, hscans, hvalue⟩ := h
  obtain ⟨first', more', hfirst', hscans', hvalue'⟩ := h'
  obtain ⟨first, more, rfl, hfirst⟩ := exists_first_of_value hvalue
  refine ⟨first, more ++ .comma :: first' :: more', hfirst, ?_, fun frames before rest => ?_⟩
  · rw [List.append_assoc, List.cons_append]
    exact hscans.mark hscans' rfl
  · have happend : first :: (more ++ .comma :: first' :: more') ++ rest =
        first :: more ++ .comma :: (first' :: more' ++ rest) := by
      simp
    rw [happend, hvalue, after_comma, hvalue', Items.ofList_append]

theorem denotes_emptyArray : Denotes ['[', ']'] (.array .done) := by
  exact ⟨[.beginArray, .endArray], scans_of_advance (by decide), fun _ _ => rfl⟩

theorem DenotesItems.array {cs : List Char} {items : Items} (h : DenotesItems cs items) :
    Denotes ('[' :: cs ++ [']']) (.array items) := by
  obtain ⟨first, tokens, hfirst, hscans, hvalue⟩ := h
  refine ⟨.beginArray :: first :: tokens, fun rest hrest => ?_, fun frames rest => ?_⟩
  · rw [List.cons_append, List.cons_append,
      run_punctuation (rfl : punctuation? '[' = some .beginArray), hscans rest hrest]
    rfl
  · rw [List.cons_append, List.cons_append, value_beginArray _ _ hfirst]
    exact hvalue frames [] rest

/-! ## Objects -/

/-- The text is what stands between the braces of an object. -/
def DenotesMembers (cs : List Char) (members : Members) : Prop :=
  ∃ key tokens, Scans (cs ++ ['\x7d']) (.text key :: .colon :: tokens) ∧
    ∀ frames before rest, value (.object before key :: frames) (tokens ++ rest) =
      after frames (.object (.ofList before members)) rest

theorem Members.ofList_append (before : List (Option String × Node)) (key : Option String)
    (v : Node) (members : Members) :
    Members.ofList (before ++ [(key, v)]) members =
      Members.ofList before (.next key v members) := by
  induction before with
  | nil => rfl
  | cons w before ih => rw [List.cons_append, ofList, ofList, ih]

/-- A key with its value. -/
theorem scans_member (key : String) {cs : List Char} {tokens : List Token} (h : Scans cs tokens) :
    Scans (quoted key ++ ':' :: cs) (.text (some key) :: .colon :: tokens) :=
  (scans_quoted key).mark h rfl

theorem Denotes.lastMember {cs : List Char} {v : Node} (h : Denotes cs v) (key : String) :
    DenotesMembers (quoted key ++ ':' :: cs) (.next (some key) v .done) := by
  obtain ⟨tokens, hscans, hvalue⟩ := h
  refine ⟨some key, tokens ++ [.endObject], ?_, fun frames before rest => ?_⟩
  · exact (scans_member key hscans).close rfl
  · rw [List.append_assoc, hvalue, List.singleton_append, after_endObject, Members.ofList_append]

theorem Denotes.nextMember {cs ds : List Char} {v : Node} {members : Members} (h : Denotes cs v)
    (h' : DenotesMembers ds members) (key : String) :
    DenotesMembers ((quoted key ++ ':' :: cs) ++ ',' :: ds) (.next (some key) v members) := by
  obtain ⟨tokens, hscans, hvalue⟩ := h
  obtain ⟨key', tokens', hscans', hvalue'⟩ := h'
  refine ⟨some key, tokens ++ .comma :: .text key' :: .colon :: tokens', ?_,
    fun frames before rest => ?_⟩
  · rw [List.append_assoc, List.cons_append]
    exact (scans_member key hscans).mark hscans' rfl
  · rw [List.append_assoc, hvalue, List.cons_append, List.cons_append, List.cons_append,
      after_comma_key, hvalue', Members.ofList_append]

theorem denotes_emptyObject : Denotes ['\x7b', '\x7d'] (.object .done) := by
  exact ⟨[.beginObject, .endObject], scans_of_advance (by decide), fun _ _ => rfl⟩

theorem DenotesMembers.object {cs : List Char} {members : Members} (h : DenotesMembers cs members) :
    Denotes ('\x7b' :: cs ++ ['\x7d']) (.object members) := by
  obtain ⟨key, tokens, hscans, hvalue⟩ := h
  refine ⟨.beginObject :: .text key :: .colon :: tokens, fun rest hrest => ?_,
    fun frames rest => ?_⟩
  · rw [List.cons_append, List.cons_append,
      run_punctuation (rfl : punctuation? '\x7b' = some .beginObject), hscans rest hrest]
    rfl
  · rw [List.cons_append, List.cons_append, List.cons_append, value_beginObject]
    exact hvalue frames [] rest

/-! ## Floats -/

/-- The text of a float reads as the same float. -/
def ReadsBack (x : Float) : Prop := Format.float.decode (Format.float.encode x) = .ok x

instance (x : Float) : Decidable (ReadsBack x) :=
  inferInstanceAs (Decidable (_ = _))

theorem broken_eq_number_iff {v : Node} {frames : List Frame} {n : Number} :
    (broken v frames).root = .number n ↔ frames = [] ∧ v = .number n := by
  unfold broken
  induction frames generalizing v with
  | nil => simp
  | cons frame frames ih =>
    rw [List.foldl_cons, ih]
    cases frame <;> simp [Frame.cut]

/-- Only a number outside of all containers is read as a number. -/
theorem root_eq_number :
    (∀ frames tokens, ∀ n, (value frames tokens).root = .number n →
      frames = [] ∧ ∃ rest, tokens = .number n :: rest) ∧
    ∀ frames v tokens, ∀ n, (after frames v tokens).root = .number n →
      frames = [] ∧ v = .number n := by
  apply Document.value.mutual_induct
    (fun frames tokens => ∀ n, (value frames tokens).root = .number n →
      frames = [] ∧ ∃ rest, tokens = .number n :: rest)
    (fun frames v tokens => ∀ n, (after frames v tokens).root = .number n →
      frames = [] ∧ v = .number n)
  -- a branch goes on with a value, is behind one, or stops at the end or at a break
  all_goals
    intros
    simp_all [value, after, broken_eq_number_iff]

/-- A number that is all of a document is its only token. -/
theorem tokens_of_number {tokens : List Token} {n : Number}
    (h : ofTokens tokens = ⟨.number n, true⟩) : tokens = [.number n] := by
  obtain ⟨-, rest, rfl⟩ := root_eq_number.1 [] tokens n (by rw [← ofTokens, h])
  cases rest with
  | nil => rfl
  | cons => cases congrArg Document.whole h

/-- A whole text is read if its tree is, and if nothing but the tree is in it. -/
theorem Format.decode_eq_ok_iff {α : Type} {f : Format α} {text : String} {a : α} :
    f.decode text = .ok a ↔ f.read maxDepth (Document.ofChars text.toList).root = .ok a ∧
      (Document.ofChars text.toList).whole = true := by
  unfold decode readWhole
  cases f.read maxDepth (Document.ofChars text.toList).root with
  | error e => simp
  | ok b => split_ifs with hwhole <;> simp [hwhole]

/-- A text that is carried in UTF-8 is read as the text. -/
theorem Format.decodeOctets_toUTF8 {α : Type} (f : Format α) (text : String) :
    f.decodeOctets text.toUTF8 = f.decode text := by
  rw [decodeOctets, ofOctets_toUTF8]
  rfl

/-- Other octets have no text that could be read. -/
example : Format.text.decodeOctets ⟨#[0x22, 0x78, 0xFF, 0x22]⟩ = .error .notJson := by
  decide +kernel

theorem Format.read_float_eq_ok {room : Nat} {v : Node} {x : Float}
    (h : Format.float.read room v = .ok x) :
    ∃ n, v = .number n ∧ n.value = x ∧ x.isFinite = true := by
  cases v with
  | number n =>
    simp only [Format.float] at h
    split_ifs at h with hfinite
    cases h
    exact ⟨n, rfl, rfl, hfinite⟩
  | _ => cases h

/-- The text of a float that reads back is a number wherever it stands. -/
theorem ReadsBack.exists_number {x : Float} (h : ReadsBack x) :
    ∃ n, Scans (Decimal.jsonChars x) [.number n] ∧ n.value = x ∧ x.isFinite = true := by
  have hchars : (Format.float.encode x).toList = Decimal.jsonChars x := String.toList_ofList
  obtain ⟨hread, hwhole⟩ := Format.decode_eq_ok_iff.1 h
  rw [hchars] at hread hwhole
  obtain ⟨n, hroot, hvalue, hfinite⟩ := Format.read_float_eq_ok hread
  have hdocument : ofTokens (Token.ofChars (Decimal.jsonChars x)) = ⟨.number n, true⟩ := by
    rw [← hroot, ← hwhole]
    rfl
  exact ⟨n, scans_of_ofChars (tokens_of_number hdocument), hvalue, hfinite⟩

/-! ## Every value -/

namespace Value

mutual

/-- What is read from the text of a value. -/
def node : Value → Node
  | .null => .null
  | .bool b => .bool b
  | .integer n => .number (.ofInt n)
  | .float x => (Document.ofChars (Decimal.jsonChars x)).root
  | .text s => .text (some s)
  | .array items => .array (itemNodes items)
  | .object members => .object (memberNodes members)

/-- What is read from the texts of items. -/
def itemNodes : List Value → Items
  | [] => .done
  | v :: rest => .next v.node (itemNodes rest)

/-- What is read from the texts of members. -/
def memberNodes : List (String × Value) → Members
  | [] => .done
  | (key, v) :: rest => .next (some key) v.node (memberNodes rest)

end

mutual

/-- Integers fit into words, but for their signs, and floats read back. -/
def Readable : Value → Prop
  | .integer n => n.natAbs < UInt64.size
  | .float x => ReadsBack x
  | .array items => ReadableItems items
  | .object members => ReadableMembers members
  | _ => True

/-- `Readable` for all items. -/
def ReadableItems : List Value → Prop
  | [] => True
  | v :: rest => v.Readable ∧ ReadableItems rest

/-- `Readable` for all members. -/
def ReadableMembers : List (String × Value) → Prop
  | [] => True
  | (_, v) :: rest => v.Readable ∧ ReadableMembers rest

end

mutual

/-- The text of a value is that value wherever it stands. -/
theorem denotes : ∀ v : Value, v.Readable → Denotes v.chars v.node
  | .null, _ => denotes_null
  | .bool b, _ => denotes_bool b
  | .integer _, h => denotes_number (scans_integer h)
  | .float x, h => by
    obtain ⟨n, hscans, -⟩ := ReadsBack.exists_number h
    have hnumber := denotes_number hscans
    rw [node, hnumber.ofChars_eq]
    exact hnumber
  | .text s, _ => denotes_quoted s
  | .array [], _ => denotes_emptyArray
  | .array (v :: rest), h => (denotes_items (v :: rest) nofun h).array
  | .object [], _ => denotes_emptyObject
  | .object (m :: rest), h => (denotes_members (m :: rest) nofun h).object

theorem denotes_items : ∀ items : List Value, items ≠ [] → ReadableItems items →
    DenotesItems (separated (itemChars items)) (itemNodes items)
  | [v], _, h => (denotes v h.1).lastItem
  | v :: w :: rest, _, h => (denotes v h.1).nextItem (denotes_items (w :: rest) nofun h.2)

theorem denotes_members : ∀ members : List (String × Value), members ≠ [] →
    ReadableMembers members → DenotesMembers (separated (memberChars members)) (memberNodes members)
  | [(key, v)], _, h => (denotes v h.1).lastMember key
  | (key, v) :: m :: rest, _, h =>
    (denotes v h.1).nextMember (denotes_members (m :: rest) nofun h.2) key

end

/-- Reading the text of a value gives its tree. -/
theorem ofChars_chars (v : Value) (h : v.Readable) : Document.ofChars v.chars = ⟨v.node, true⟩ :=
  (denotes v h).ofChars_eq

end Value

end Piecework.Json
