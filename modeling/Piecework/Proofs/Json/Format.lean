import Piecework.Proofs.Json.Document

/-!
# Formats that read back

A format `Keeps` a value if the value is read back from the tree of what is written for it.  The
reader may be told any depth from a certain one on, and the tree has to be whole at that depth,
since a reader of alternatives skips fields before it knows which of them it wants.  With the
text of the tree as the only thing between the two, `Keeps.decode_encode` follows.

In the other direction, `Reads` bounds what a format can give at all: an integer lies in its
range, and a float is finite.
-/

namespace Piecework.Json.Format

variable {α β : Type} {f : Format α} {depth : Nat} {a : α}

/-! ## Values that are read back -/

/-- With room for so many levels, the value is read back from the tree of what is written. -/
structure Keeps (f : Format α) (depth : Nat) (a : α) : Prop where
  readable : (f.write a).Readable
  whole : ∀ room, depth ≤ room → (f.write a).node.isWhole room = true
  read : ∀ room, depth ≤ room → f.read room (f.write a).node = .ok a

theorem Keeps.mono {depth' : Nat} (h : f.Keeps depth a) (hle : depth ≤ depth') :
    f.Keeps depth' a :=
  ⟨h.readable, fun room hroom => h.whole room (hle.trans hroom),
    fun room hroom => h.read room (hle.trans hroom)⟩

/-- What is kept is read back from its text. -/
theorem Keeps.decode_encode (h : f.Keeps depth a) (hdepth : depth ≤ maxDepth) :
    f.decode (f.encode a) = .ok a := by
  have htext : (f.encode a).toList = (f.write a).chars := String.toList_ofList
  rw [decode_eq_ok_iff, htext, Value.ofChars_chars _ h.readable]
  exact ⟨h.read _ hdepth, rfl⟩

theorem keeps_text (s : String) : text.Keeps 0 s :=
  ⟨trivial, fun _ _ => rfl, fun _ _ => rfl⟩

theorem keeps_bool (b : Bool) : bool.Keeps 0 b :=
  ⟨trivial, fun _ _ => rfl, fun _ _ => rfl⟩

theorem keeps_float {x : Float} (h : ReadsBack x) : float.Keeps 0 x := by
  obtain ⟨n, hscans, rfl, hfinite⟩ := h.exists_number
  have hnode : (float.write n.value).node = .number n := by
    change (Document.ofChars (Decimal.jsonChars n.value)).root = _
    rw [(denotes_number hscans).ofChars_eq]
  refine ⟨h, fun room _ => ?_, fun room _ => ?_⟩
  · rw [hnode]
    exact hfinite
  · rw [hnode]
    exact if_pos hfinite

theorem keeps_integer {lo hi n : Int} (hlo : lo ≤ n) (hhi : n ≤ hi)
    (hn : n.natAbs < UInt64.size) : (integer lo hi).Keeps 0 n := by
  refine ⟨hn, fun _ _ => Number.isFinite_ofInt hn, fun room _ => ?_⟩
  change (integer lo hi).read room (.number (.ofInt n)) = .ok n
  simp only [integer, Number.integer?_ofInt]
  exact if_pos ⟨hlo, hhi⟩

theorem keeps_identifier {n : Int} (hlo : Text.minId ≤ n) (hhi : n ≤ Text.maxId) :
    identifier.Keeps 0 n := by
  refine keeps_integer hlo hhi ?_
  unfold Text.minId at hlo
  unfold Text.maxId at hhi
  change n.natAbs < 18446744073709551616
  omega

theorem Keeps.imap {make : α → β} {take : β → α} {b : β} (h : f.Keeps depth a)
    (htake : take b = a) (hmake : make a = b) : (f.imap make take).Keeps depth b := by
  subst htake
  refine ⟨h.readable, h.whole, fun room hroom => ?_⟩
  change (f.read room (f.write (take b)).node).map make = _
  rw [h.read room hroom, Except.map, hmake]

theorem keeps_natural {bound n : Nat} (hn : n < bound) (hbound : bound ≤ UInt64.size) :
    (natural bound).Keeps 0 n :=
  (keeps_integer (by simp) (by simp; omega) (by simp; omega)).imap rfl (Int.toNat_natCast n)

theorem keeps_word (w : UInt64) : word.Keeps 0 w :=
  (keeps_natural w.toNat_lt (le_refl _)).imap rfl UInt64.ofNat_toNat

theorem keeps_none (f : Format α) : f.optional.Keeps 0 none :=
  ⟨trivial, fun _ _ => rfl, fun _ _ => rfl⟩

theorem Keeps.some (h : f.Keeps depth a) (hnull : (f.write a).node ≠ .null) :
    f.optional.Keeps depth (some a) := by
  refine ⟨h.readable, h.whole, fun room hroom => ?_⟩
  have hread := h.read room hroom
  change f.optional.read room (f.write a).node = _
  cases hnode : (f.write a).node with
  | null => exact absurd hnode hnull
  | _ =>
    rw [hnode] at hread
    simp only [optional, hread]
    rfl

theorem keeps_list {as : List α} (h : ∀ a ∈ as, f.Keeps depth a) :
    f.list.Keeps (depth + 1) as := by
  have hreadable : Value.ReadableItems (as.map f.write) := by
    induction as with
    | nil => trivial
    | cons a as ih =>
      exact ⟨(h a List.mem_cons_self).readable, ih fun b hb => h b (List.mem_cons_of_mem a hb)⟩
  have hitems (room : Nat) (hroom : depth ≤ room) :
      (Value.itemNodes (as.map f.write)).isWhole room = true ∧
        f.readItems room (Value.itemNodes (as.map f.write)) = .ok as := by
    clear hreadable
    induction as with
    | nil => exact ⟨rfl, rfl⟩
    | cons a as ih =>
      obtain ⟨hwhole, hread⟩ := ih fun b hb => h b (List.mem_cons_of_mem a hb)
      have ha := h a List.mem_cons_self
      rw [List.map_cons, Value.itemNodes, Items.isWhole, readItems, ha.whole room hroom,
        ha.read room hroom, hwhole, hread]
      exact ⟨rfl, rfl⟩
  refine ⟨hreadable, fun room hroom => ?_, fun room hroom => ?_⟩
  · change (decide (0 < room) && (Value.itemNodes (as.map f.write)).isWhole (room - 1)) = true
    rw [(hitems (room - 1) (by omega)).1, decide_eq_true (by omega : 0 < room)]
    rfl
  · exact (hitems (room - 1) (by omega)).2

/-! ## Values that are read at all -/

/-- Whatever is read has the property. -/
def Reads (f : Format α) (P : α → Prop) : Prop :=
  ∀ room v a, f.read room v = .ok a → P a

theorem reads_integer (lo hi : Int) : (integer lo hi).Reads fun n => lo ≤ n ∧ n ≤ hi := by
  intro room v n h
  cases v with
  | number m =>
    simp only [integer] at h
    split at h
    · split_ifs at h with hrange
      cases h
      exact hrange
    · cases h
  | _ => cases h

theorem reads_float : float.Reads fun x => x.isFinite = true := by
  intro room v x h
  obtain ⟨-, -, -, hfinite⟩ := read_float_eq_ok h
  exact hfinite

/-- What comes out of a change of the value was read before. -/
theorem exists_of_map_eq_ok {result : Except Fault α} {make : α → β} {b : β}
    (h : result.map make = .ok b) : ∃ a, result = .ok a ∧ make a = b := by
  cases result with
  | error e => cases h
  | ok a => exact ⟨a, rfl, Except.ok.inj h⟩

theorem Reads.imap {make : α → β} {take : β → α} {P : β → Prop}
    (h : f.Reads fun a => P (make a)) : (f.imap make take).Reads P := by
  intro room v b hread
  obtain ⟨a, hv, rfl⟩ := exists_of_map_eq_ok hread
  exact h room v a hv

theorem Reads.optional {P : α → Prop} (h : f.Reads P) :
    f.optional.Reads fun o => ∀ a ∈ o, P a := by
  intro room v o hread a ha
  cases v with
  | null =>
    cases hread
    cases ha
  | _ =>
    obtain ⟨b, hv, rfl⟩ := exists_of_map_eq_ok hread
    cases ha
    exact h room _ a hv

end Piecework.Json.Format
