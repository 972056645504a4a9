import Piecework.Proofs.Expr.Elsewhere

/-!
# Bytes behind a cursor

A text is bytes to a reader that looks for ASCII characters only.  `byteAt?` is what it sees, and
`Within` ties a byte offset to a cursor of the parser.

* `Cursor.Within.byteAt?` says which byte stands at a cursor, and `Cursor.Within.of_byteAt?` that
  it serves as well as the character, for all that is asked about ASCII characters.
* `current?` and `slice?` take a text apart at offsets.  They fail at an offset inside a character
  or behind the end, which no cursor has: `Cursor.Within.boundary`.
* `Boundary.succ`: behind an ASCII character stands another character, or nothing.
* What the parser looks for are ASCII characters, so it sees the same in the bytes as in the
  characters: `Cursor.Within.any_byteAt?` and the lemmas behind it.
-/

namespace Piecework.Expr

open String (utf8Len utf8Len_append utf8Len_cons utf8Len_toList)

/-! ## What is at an offset -/

/-- The byte at an offset, as the character of that number. -/
def byteAt? (s : String) (p : Nat) : Option Char :=
  s.toByteArray.data[p]?.map Char.ofUInt8

/-- The offset is in front of a character, or at the end. -/
abbrev Boundary (s : String) (p : Nat) : Prop := (⟨p⟩ : String.Pos.Raw).IsValid s

/-- The character at an offset, if there is any.  An offset inside a character has no answer. -/
def current? (s : String) (p : Nat) : Option (Option Char) :=
  if Boundary s p then some (String.Pos.Raw.get? s ⟨p⟩) else none

/-- The text from one offset to another.  Offsets in the wrong order, or inside characters, have no
answer. -/
def slice? (s : String) (first last : Nat) : Option String :=
  if first ≤ last ∧ Boundary s first ∧ Boundary s last then
    some (String.Pos.Raw.extract s ⟨first⟩ ⟨last⟩)
  else none

theorem Boundary.le {s : String} {p : Nat} (h : Boundary s p) : p ≤ s.utf8ByteSize :=
  h.le_utf8ByteSize

theorem current?_eq_none {s : String} {p : Nat} (h : current? s p = none) : ¬ Boundary s p := by
  intro hvalid
  rw [current?, if_pos hvalid] at h
  cases h

theorem slice?_eq_none {s : String} {first last : Nat} (h : slice? s first last = none) :
    ¬ (first ≤ last ∧ Boundary s first ∧ Boundary s last) := by
  intro hvalid
  rw [slice?, if_pos hvalid] at h
  cases h

theorem toList_data_toByteArray (s : String) :
    s.toByteArray.data.toList = s.toList.flatMap String.utf8EncodeChar := by
  conv_lhs => rw [← String.ofList_toList (s := s)]
  rw [String.toByteArray_ofList]
  exact List.toList_data_toByteArray

theorem length_utf8EncodeChars (cs : List Char) :
    (cs.flatMap String.utf8EncodeChar).length = utf8Len cs := by
  induction cs with
  | nil => rfl
  | cons x cs ih =>
    rw [List.flatMap_cons, List.length_append, ih, String.length_utf8EncodeChar, utf8Len_cons,
      Nat.add_comm]

/-! ## The first byte of a character -/

/-- There is an ASCII character. -/
def Ascii (o : Option Char) : Prop := ∃ b, o = some b ∧ b.toNat < 128

theorem not_ascii_none : ¬ Ascii none := by
  rintro ⟨b, hb, -⟩
  cases hb

theorem not_ascii_some {x : Char} (h : 128 ≤ x.toNat) : ¬ Ascii (some x) := by
  rintro ⟨b, hb, hlt⟩
  cases hb
  exact absurd hlt (Nat.not_lt.2 h)

/-- The first byte of a character, as the character of that number. -/
def lead (x : Char) : Char := Char.ofUInt8 ((String.utf8EncodeChar x).headD 0)

theorem toNat_lead (x : Char) :
    (lead x).toNat = ((String.utf8EncodeChar x).headD 0).toNat := rfl

/-- An ASCII character is one byte. -/
theorem lead_eq {x : Char} (h : x.toNat < 128) : lead x = x := by
  have hv : x.val.toNat ≤ 127 := Nat.le_of_lt_succ h
  apply Char.toNat_inj.1
  rw [toNat_lead, String.utf8EncodeChar, if_pos hv, List.headD_cons, UInt8.toNat_ofNat']
  exact Nat.mod_eq_of_lt (by omega)

/-- The bytes of the other characters are beyond ASCII. -/
theorem le_lead {x : Char} (h : 128 ≤ x.toNat) : 128 ≤ (lead x).toNat := by
  have hv : ¬ x.val.toNat ≤ 127 := Nat.not_le.2 h
  rw [toNat_lead, String.utf8EncodeChar, if_neg hv]
  split_ifs
  all_goals
    rw [List.headD_cons, UInt8.toNat_ofNat']
    omega

theorem utf8Size_of_lt {x : Char} (h : x.toNat < 128) : x.utf8Size = 1 :=
  Char.utf8Size_eq_one_iff.2 (Nat.le_of_lt_succ h)

/-! ## Cursors in a text -/

namespace Cursor

theorem position_advance_of_lt {c : Cursor} {x : Char} (hpeek : c.peek = some x)
    (hx : x.toNat < 128) : c.advance.position = c.position + 1 := by
  rw [position_advance hpeek, utf8Size_of_lt hx]

/-- The cursor is one of the text. -/
def Within (c : Cursor) (s : String) : Prop := ∃ front, (start s.toList).Passes front c

theorem within_start (s : String) : (start s.toList).Within s := ⟨[], rfl, rfl⟩

namespace Within

variable {c n : Cursor} {s : String}

theorem passes {front : List Char} (h : c.Within s) (hfront : c.Passes front n) : n.Within s := by
  obtain ⟨before, hbefore⟩ := h
  exact ⟨before ++ front, hbefore.trans hfront⟩

theorem skip (h : c.Within s) : c.skip.Within s := by
  obtain ⟨b, -, hpasses, -⟩ := c.skip_elsewhere
  exact h.passes hpasses

theorem advance {x : Char} (h : c.Within s) (hpeek : c.peek = some x) : c.advance.Within s := by
  have hpasses : c.Passes [x] c.advance := by
    refine ⟨rest_eq_of_peek hpeek, ?_⟩
    rw [position_advance hpeek, utf8Len_cons, String.utf8Len_nil, Nat.zero_add]
  exact h.passes hpasses

/-- The text and the position, in terms of what is in front of the cursor. -/
theorem exists_front (h : c.Within s) :
    ∃ front, s = String.ofList (front ++ c.rest) ∧ c.position = utf8Len front := by
  obtain ⟨front, hrest, hposition⟩ := h
  refine ⟨front, ?_, hposition.trans (Nat.zero_add _)⟩
  rw [← hrest]
  exact String.ofList_toList.symm

theorem boundary (h : c.Within s) : Boundary s c.position := by
  obtain ⟨front, rfl, hposition⟩ := h.exists_front
  rw [Boundary, String.Pos.Raw.isValid_iff_exists_append]
  refine ⟨String.ofList front, String.ofList c.rest, String.ofList_append, ?_⟩
  rw [String.rawEndPos_ofList, hposition]

theorem current? (h : c.Within s) : current? s c.position = some c.peek := by
  rw [Expr.current?, if_pos h.boundary]
  obtain ⟨front, rfl, hposition⟩ := h.exists_front
  rw [hposition, String.get?_of_valid]
  rfl

theorem slice? {run : List Char} (h : c.Within s) (hrun : c.Passes run n) :
    slice? s c.position n.position = some (String.ofList run) := by
  have hle : c.position ≤ n.position := by
    rw [hrun.2]
    exact Nat.le_add_right _ _
  rw [Expr.slice?, if_pos ⟨hle, h.boundary, (h.passes hrun).boundary⟩]
  obtain ⟨front, rfl, hposition⟩ := h.exists_front
  rw [hrun.2, hposition, hrun.1, ← List.append_assoc, String.extract_of_valid]

theorem byteAt? (h : c.Within s) : byteAt? s c.position = c.peek.map lead := by
  obtain ⟨front, rfl, hposition⟩ := h.exists_front
  rw [Expr.byteAt?, ← Array.getElem?_toList, toList_data_toByteArray, String.toList_ofList,
    List.flatMap_append, hposition, ← length_utf8EncodeChars,
    List.getElem?_append_right (Nat.le_refl _), Nat.sub_self, Cursor.peek]
  cases c.rest with
  | nil => rfl
  | cons x rest =>
    have hne := String.utf8EncodeChar_ne_nil (c := x)
    rw [List.flatMap_cons, List.getElem?_append_left (List.length_pos_iff.2 hne), List.head?_cons,
      Option.map_some, lead, List.headD_eq_head?_getD, ← List.head?_eq_getElem?,
      List.head?_eq_some_head hne]
    rfl

/-- Whoever makes no difference between the characters beyond ASCII and the end of the text may
look at the byte. -/
theorem of_byteAt? {α : Type} (h : c.Within s) {f : Option Char → α}
    (hf : ∀ x : Char, 128 ≤ x.toNat → f (some x) = f none) :
    f (Expr.byteAt? s c.position) = f c.peek := by
  rw [h.byteAt?]
  cases c.peek with
  | none => rfl
  | some x =>
    rw [Option.map_some]
    rcases Nat.lt_or_ge x.toNat 128 with hlt | hge
    · rw [lead_eq hlt]
    · rw [hf x hge, hf _ (le_lead hge)]

end Within

end Cursor

/-- Every boundary is the place of a cursor. -/
theorem Boundary.exists_within {s : String} {p : Nat} (h : Boundary s p) :
    ∃ c : Cursor, c.Within s ∧ c.position = p := by
  rw [Boundary, String.Pos.Raw.isValid_iff_exists_append] at h
  obtain ⟨front, rest, rfl, hp⟩ := h
  refine ⟨⟨rest.toList, p⟩, ⟨front.toList, String.toList_append, ?_⟩, rfl⟩
  rw [utf8Len_toList, ← String.byteIdx_rawEndPos, ← hp]
  exact (Nat.zero_add _).symm

/-- The byte behind an ASCII character starts the next one. -/
theorem Boundary.succ {s : String} {p : Nat} (h : Boundary s p) (hascii : Ascii (byteAt? s p)) :
    Boundary s (p + 1) := by
  obtain ⟨c, hc, rfl⟩ := h.exists_within
  obtain ⟨x, hx, hlt⟩ := hascii
  rw [hc.byteAt?, Option.map_eq_some_iff] at hx
  obtain ⟨y, hpeek, rfl⟩ := hx
  have hy : y.toNat < 128 := by
    by_contra hge
    exact absurd hlt (Nat.not_lt.2 (le_lead (Nat.not_lt.1 hge)))
  have hnext := (hc.advance hpeek).boundary
  rwa [Cursor.position_advance_of_lt hpeek hy] at hnext

/-! ## Characters that are looked for -/

theorem lt_of_isSpace {b : Char} (h : isSpace b = true) : b.toNat < 128 := by
  rcases isSpace_iff.1 h with rfl | rfl | rfl | rfl <;> decide

theorem lt_of_isNumeric {b : Char} (h : isNumeric b = true) : b.toNat < 128 := by
  rw [isNumeric, Bool.or_eq_true, beq_iff_eq] at h
  rcases h with rfl | hdigit
  · decide
  · exact Nat.lt_of_le_of_lt (Char.isDigit_iff_toNat.1 hdigit).2 (by decide)

theorem ascii_of_any {o : Option Char} {P : Char → Bool} (h : o.any P = true)
    (hP : ∀ {b}, P b = true → b.toNat < 128) : Ascii o := by
  obtain ⟨b, hb, hlooked⟩ := (Option.any_eq_true _ _).1 h
  exact ⟨b, hb, hP hlooked⟩

theorem ascii_of_sumOperator? {o : Option Char} {op : Operator} (h : sumOperator? o = some op) :
    Ascii o := by
  unfold sumOperator? at h
  split at h
  · exact ⟨_, rfl, by decide⟩
  · exact ⟨_, rfl, by decide⟩
  · cases h

theorem ascii_of_productOperator? {o : Option Char} {op : Operator}
    (h : productOperator? o = some op) : Ascii o := by
  unfold productOperator? at h
  split at h
  · exact ⟨_, rfl, by decide⟩
  · exact ⟨_, rfl, by decide⟩
  · cases h

namespace Cursor.Within

variable {c : Cursor} {s : String} (hc : c.Within s)

include hc

theorem any_byteAt? {P : Char → Bool} (hP : ∀ {b}, P b = true → b.toNat < 128) :
    (Expr.byteAt? s c.position).any P = c.peek.any P := by
  apply hc.of_byteAt? (f := fun o => o.any P)
  intro b hb
  rw [Option.any_some, Option.any_none, ← Bool.not_eq_true]
  exact fun hlooked => absurd (hP hlooked) (Nat.not_lt.2 hb)

theorem byteAt?_eq_some_iff {b : Char} (hb : b.toNat < 128) :
    Expr.byteAt? s c.position = some b ↔ c.peek = some b := by
  apply Iff.of_eq
  apply hc.of_byteAt? (f := fun o => o = some b)
  intro b' hb'
  simp only [Option.some.injEq, reduceCtorEq, eq_iff_iff, iff_false]
  rintro rfl
  omega

/-- An operator is an ASCII character. -/
theorem operator_byteAt? {f : Option Char → Option Operator}
    (hf : ∀ {o op}, f o = some op → Ascii o) : f (Expr.byteAt? s c.position) = f c.peek := by
  have hnone : ∀ {o}, ¬ Ascii o → f o = none := by
    intro o ho
    cases hop : f o with
    | none => rfl
    | some op => exact absurd (hf hop) ho
  apply hc.of_byteAt?
  intro x hx
  rw [hnone not_ascii_none, hnone (not_ascii_some hx)]

end Cursor.Within

end Piecework.Expr
