import Piecework.Json.Record
import Piecework.Proofs.Json.Format

/-!
# Records that read back

A record is kept if its fields are, as far as they have different names and a field that is not
written is one that may be missing (`keeps_record`).  The members come in the order of the
fields, so the induction is on the fields: the first member fills the first slot, and what
follows does not touch it.

An alternative is kept if the record on its side is.  Its tag is no field of the record, and
all that the search for the tag passes over is whole (`keeps_left`, `keeps_right`).

What a record gives when it is read was read for each of its fields, or stands for a field that
is missing, whatever form the record came in: `given_of_read`.
-/

namespace Piecework.Json

open Format (exists_of_map_eq_ok)

namespace Field

variable {α : Type}

/-- The value is written and read back, or it is not written and a missing field stands for it. -/
structure Keeps (depth : Nat) (field : Field α) (a : α) : Prop where
  format : field.format.Keeps depth a
  missing : field.hides a = true → field.missing = some a

/-- The value was read, or it is what a missing field stands for. -/
def Given (field : Field α) (a : α) : Prop :=
  (∃ room v, field.format.read room v = .ok a) ∨ field.missing = some a

theorem keeps_required {name : String} {format : Format α} {depth : Nat} {a : α}
    (h : format.Keeps depth a) : (required name format).Keeps depth a :=
  ⟨h, nofun⟩

theorem keeps_nullable {name : String} {format : Format α} {depth : Nat} {o : Option α}
    (h : format.optional.Keeps depth o) : (nullable name format).Keeps depth o :=
  ⟨h, nofun⟩

theorem Given.of_required {name : String} {format : Format α} {P : α → Prop}
    (hreads : format.Reads P) {a : α} (h : (required name format).Given a) : P a := by
  rcases h with ⟨room, v, hread⟩ | hmissing
  · exact hreads room v a hread
  · cases hmissing

theorem Given.of_nullable {name : String} {format : Format α} {P : α → Prop}
    (hreads : format.Reads P) {o : Option α} (h : (nullable name format).Given o) :
    ∀ a ∈ o, P a := by
  rcases h with ⟨room, v, hread⟩ | hmissing
  · exact hreads.optional room v o hread
  · cases hmissing
    exact nofun

end Field

namespace Fields

variable {α β γ : Type}

/-- The names of the fields. -/
def names : {γ : Type} → Fields γ → List String
  | _, .nil => []
  | _, .cons field rest => field.name :: rest.names

/-- The property holds of each field with its value. -/
def Each (P : {α : Type} → Field α → α → Prop) : {γ : Type} → Fields γ → γ → Prop
  | _, .nil, _ => True
  | _, .cons field rest, c => P field c.1 ∧ rest.Each P c.2

/-! ## Reading members in order -/

theorem name_mem_of_members {fields : Fields γ} {c : γ} {m : String × Value}
    (h : m ∈ fields.members c) : m.1 ∈ fields.names := by
  induction fields with
  | nil => cases h
  | cons field rest ih =>
    obtain ⟨a, b⟩ := c
    rw [members] at h
    rw [names, List.mem_cons]
    split_ifs at h
    · exact .inr (ih h)
    · rcases List.mem_cons.1 h with rfl | h
      · exact .inl rfl
      · exact .inr (ih h)

/-- A name that is no field fills no slot. -/
theorem fill_eq_none {room : Nat} {name : String} {v : Node} {fields : Fields γ}
    (h : name ∉ fields.names) (slots : fields.Slots) : fields.fill room name v slots = none := by
  induction fields with
  | nil => rfl
  | cons field rest ih =>
    rw [names, List.mem_cons, not_or] at h
    rw [fill, if_neg h.1, ih h.2]
    rfl

/-- Members with other names leave the first field to its slot. -/
theorem readMembers_cons {room : Nat} {field : Field α} {rest : Fields β} {o : Option α}
    {slots : rest.Slots} {ms : List (String × Value)} {a : α} {b : β}
    (hfresh : ∀ m ∈ ms, m.1 ≠ field.name) (hslot : o.or field.missing = some a)
    (hrest : rest.readMembers room slots (Value.memberNodes ms) = .ok b) :
    (Fields.cons field rest).readMembers room (o, slots) (Value.memberNodes ms) = .ok (a, b) := by
  induction ms generalizing slots with
  | nil =>
    rw [Value.memberNodes, readMembers] at hrest ⊢
    rw [finish, hslot, hrest]
    rfl
  | cons m ms ih =>
    obtain ⟨key, v⟩ := m
    have hkey : key ≠ field.name := hfresh _ List.mem_cons_self
    have hmore : ∀ m ∈ ms, m.1 ≠ field.name := fun m hm => hfresh m (List.mem_cons_of_mem _ hm)
    rw [Value.memberNodes, readMembers] at hrest ⊢
    rw [fill, if_neg hkey]
    cases hfill : rest.fill room key v.node slots with
    | none =>
      rw [hfill] at hrest
      exact ih hmore hrest
    | some result =>
      rw [hfill] at hrest
      cases result with
      | error e => cases hrest
      | ok slots' => exact ih hmore hrest

theorem readMembers_members {depth room : Nat} {fields : Fields γ} {c : γ}
    (hnames : fields.names.Nodup) (h : fields.Each (Field.Keeps depth) c) (hroom : depth ≤ room) :
    fields.readMembers room fields.empty (Value.memberNodes (fields.members c)) = .ok c := by
  induction fields with
  | nil => rfl
  | cons field rest ih =>
    obtain ⟨a, b⟩ := c
    obtain ⟨ha, hb⟩ := h
    rw [names, List.nodup_cons] at hnames
    have hfresh : ∀ m ∈ rest.members b, m.1 ≠ field.name := fun m hm heq =>
      hnames.1 (heq ▸ name_mem_of_members hm)
    have hrest := ih hnames.2 hb
    rw [members]
    split_ifs with hhidden
    · exact readMembers_cons hfresh (ha.missing hhidden) hrest
    · rw [Value.memberNodes, readMembers, empty, fill, if_pos rfl, ha.format.read room hroom]
      exact readMembers_cons hfresh (Option.some_or) hrest

theorem readable_members {depth : Nat} {fields : Fields γ} {c : γ}
    (h : fields.Each (Field.Keeps depth) c) : Value.ReadableMembers (fields.members c) := by
  induction fields with
  | nil => trivial
  | cons field rest ih =>
    obtain ⟨a, b⟩ := c
    rw [members]
    split_ifs
    · exact ih h.2
    · exact ⟨h.1.format.readable, ih h.2⟩

theorem isWhole_members {depth room : Nat} {fields : Fields γ} {c : γ}
    (h : fields.Each (Field.Keeps depth) c) (hroom : depth ≤ room) :
    (Value.memberNodes (fields.members c)).isWhole room = true := by
  induction fields with
  | nil => rfl
  | cons field rest ih =>
    obtain ⟨a, b⟩ := c
    rw [members]
    split_ifs
    · exact ih h.2
    · rw [Value.memberNodes, Members.isWhole, h.1.format.whole room hroom, ih h.2]
      rfl

/-- A record is kept if each of its fields is. -/
theorem keeps_record {depth : Nat} {fields : Fields γ} {c : γ} (hnames : fields.names.Nodup)
    (h : fields.Each (Field.Keeps depth) c) : fields.format.Keeps (depth + 1) c := by
  refine ⟨readable_members h, fun room hroom => ?_, fun room hroom => ?_⟩
  · change (decide (0 < room) && (Value.memberNodes _).isWhole (room - 1)) = true
    rw [isWhole_members h (by omega), decide_eq_true (by omega : 0 < room)]
    rfl
  · exact readMembers_members hnames h (by omega)

/-! ## What a record gives -/

/-- Whatever stands in a slot was read for its field. -/
def Filled : {γ : Type} → (fields : Fields γ) → fields.Slots → Prop
  | _, .nil, _ => True
  | _, .cons field rest, slots =>
    (∀ a, slots.1 = some a → ∃ room v, field.format.read room v = .ok a) ∧ rest.Filled slots.2

theorem filled_empty (fields : Fields γ) : fields.Filled fields.empty := by
  induction fields with
  | nil => trivial
  | cons field rest ih => exact ⟨nofun, ih⟩

theorem Filled.fill {room : Nat} {name : String} {v : Node} {fields : Fields γ}
    {slots slots' : fields.Slots} (h : fields.Filled slots)
    (hfill : fields.fill room name v slots = some (.ok slots')) : fields.Filled slots' := by
  induction fields with
  | nil => cases hfill
  | cons field rest ih =>
    rw [Fields.fill] at hfill
    split_ifs at hfill with hname
    · split at hfill
      · cases hfill
      · obtain ⟨a, hread, rfl⟩ := exists_of_map_eq_ok (Option.some.inj hfill)
        refine ⟨fun b hb => ⟨room, v, ?_⟩, h.2⟩
        cases hb
        exact hread
    · obtain ⟨result, hresult, hmap⟩ := Option.map_eq_some_iff.1 hfill
      obtain ⟨others, rfl, rfl⟩ := exists_of_map_eq_ok hmap
      exact ⟨h.1, ih h.2 hresult⟩

theorem Filled.finish {fields : Fields γ} {slots : fields.Slots} {c : γ} (h : fields.Filled slots)
    (hfinish : fields.finish slots = .ok c) : fields.Each Field.Given c := by
  induction fields with
  | nil => trivial
  | cons field rest ih =>
    rw [Fields.finish] at hfinish
    split at hfinish
    · cases hfinish
    · rename_i a ha
      obtain ⟨b, hrest, rfl⟩ := exists_of_map_eq_ok hfinish
      refine ⟨?_, ih h.2 hrest⟩
      rcases Option.or_eq_some_iff.1 ha with hslot | ⟨-, hmissing⟩
      · exact .inl (h.1 a hslot)
      · exact .inr hmissing

theorem Filled.readMembers {room : Nat} {fields : Fields γ} {c : γ} :
    ∀ {slots : fields.Slots} (ms : Members), fields.Filled slots →
      fields.readMembers room slots ms = .ok c → fields.Each Field.Given c
  | _, .done, h, hread => h.finish hread
  | _, .broken, _, hread => nomatch hread
  | _, .next none _ _, _, hread => nomatch hread
  | slots, .next (some key) v rest, h, hread => by
    rw [Fields.readMembers] at hread
    split at hread
    · exact Filled.readMembers rest h hread
    · cases hread
    · rename_i slots' hfill
      exact Filled.readMembers rest (h.fill hfill) hread

theorem given_of_readItems {room : Nat} {surplus : Fault} {fields : Fields γ} {items : Items}
    {c : γ} (hread : fields.readItems room surplus items = .ok c) :
    fields.Each Field.Given c := by
  induction fields generalizing items with
  | nil => trivial
  | cons field rest ih =>
    cases items with
    | broken => cases hread
    | done =>
      rw [readItems] at hread
      split at hread
      · cases hread
      · rename_i a ha
        obtain ⟨b, hrest, rfl⟩ := exists_of_map_eq_ok hread
        exact ⟨.inr ha, ih hrest⟩
    | next v items =>
      rw [readItems] at hread
      split at hread
      · cases hread
      · rename_i a ha
        obtain ⟨b, hrest, rfl⟩ := exists_of_map_eq_ok hread
        exact ⟨.inl ⟨room, v, ha⟩, ih hrest⟩

/-- Each value of a record that was read is given by its field. -/
theorem given_of_read {fields : Fields γ} : fields.format.Reads (fields.Each Field.Given) := by
  intro room v c hread
  cases v with
  | object members => exact (filled_empty fields).readMembers members hread
  | array items => exact given_of_readItems hread
  | _ => cases hread

end Fields

/-! ## Alternatives -/

namespace Either

variable {α β : Type} {e : Either α β} {depth : Nat}

/-- Behind the tag, everything is passed over that is whole and no second tag. -/
theorem findSide_eq_ok {room : Nat} (side : Bool) {ms : List (String × Value)}
    (htag : ∀ m ∈ ms, m.1 ≠ e.tag) (hwhole : (Value.memberNodes ms).isWhole room = true) :
    e.findSide room (some side) (Value.memberNodes ms) = .ok side := by
  induction ms with
  | nil => rfl
  | cons m ms ih =>
    obtain ⟨key, v⟩ := m
    rw [Value.memberNodes, Members.isWhole, Bool.and_eq_true, Bool.and_eq_true] at hwhole
    rw [Value.memberNodes, findSide, if_neg (htag _ List.mem_cons_self), if_pos hwhole.1.2]
    exact ih (fun m hm => htag m (List.mem_cons_of_mem _ hm)) hwhole.2

/-- The members of a record behind a tag. -/
def tagged (e : Either α β) (name : String) (ms : List (String × Value)) :
    List (String × Value) :=
  (e.tag, .text name) :: ms

section Tagged

variable {γ : Type} {fields : Fields γ} {c : γ} {name : String} {room : Nat}

theorem findSide_tagged {side : Bool} (hname : e.side (.text (some name)) = .ok side)
    (hnames : (e.tag :: fields.names).Nodup) (h : fields.Each (Field.Keeps depth) c)
    (hroom : depth ≤ room) :
    e.findSide room none (Value.memberNodes (e.tagged name (fields.members c))) = .ok side := by
  rw [List.nodup_cons] at hnames
  have htag : ∀ m ∈ fields.members c, m.1 ≠ e.tag := fun m hm heq =>
    hnames.1 (heq ▸ Fields.name_mem_of_members hm)
  rw [tagged, Value.memberNodes, findSide, if_pos rfl, Value.node, hname]
  exact findSide_eq_ok side htag (Fields.isWhole_members h hroom)

theorem readMembers_tagged (hnames : (e.tag :: fields.names).Nodup)
    (h : fields.Each (Field.Keeps depth) c) (hroom : depth ≤ room) :
    fields.readMembers room fields.empty
      (Value.memberNodes (e.tagged name (fields.members c))) = .ok c := by
  rw [List.nodup_cons] at hnames
  rw [tagged, Value.memberNodes, Fields.readMembers, Fields.fill_eq_none hnames.1]
  exact Fields.readMembers_members hnames.2 h hroom

theorem isWhole_tagged (h : fields.Each (Field.Keeps depth) c) (hroom : depth + 1 ≤ room) :
    (Value.object (e.tagged name (fields.members c))).node.isWhole room = true := by
  change (decide (0 < room) && (Value.memberNodes (_ :: fields.members c)).isWhole (room - 1)) =
    true
  rw [Value.memberNodes, Members.isWhole, Fields.isWhole_members h (by omega),
    decide_eq_true (by omega : 0 < room)]
  rfl

end Tagged

/-- An alternative is kept if the record on the left is, and the tag tells the sides apart. -/
theorem keeps_left {a : α} (hnames : (e.tag :: e.left.names).Nodup)
    (h : e.left.Each (Field.Keeps depth) a) : e.format.Keeps (depth + 1) (.inl a) := by
  refine ⟨⟨trivial, Fields.readable_members h⟩, fun _ => isWhole_tagged h, fun room hroom => ?_⟩
  have hroom' : depth ≤ room - 1 := by omega
  change e.readMembers (room - 1)
    (Value.memberNodes (e.tagged e.leftName (e.left.members a))) = .ok (.inl a)
  rw [readMembers, findSide_tagged (if_pos rfl) hnames h hroom']
  change (e.left.readMembers _ _ _).map Sum.inl = _
  rw [readMembers_tagged hnames h hroom']
  rfl

/-- An alternative is kept if the record on the right is, and the tag tells the sides apart. -/
theorem keeps_right {b : β} (hnames : (e.tag :: e.right.names).Nodup)
    (hsides : e.rightName ≠ e.leftName) (h : e.right.Each (Field.Keeps depth) b) :
    e.format.Keeps (depth + 1) (.inr b) := by
  have hname : e.side (.text (some e.rightName)) = .ok false := by
    rw [side, if_neg hsides, if_pos rfl]
  refine ⟨⟨trivial, Fields.readable_members h⟩, fun _ => isWhole_tagged h, fun room hroom => ?_⟩
  have hroom' : depth ≤ room - 1 := by omega
  change e.readMembers (room - 1)
    (Value.memberNodes (e.tagged e.rightName (e.right.members b))) = .ok (.inr b)
  rw [readMembers, findSide_tagged hname hnames h hroom']
  change (e.right.readMembers _ _ _).map Sum.inr = _
  rw [readMembers_tagged hnames h hroom']
  rfl

/-- What an alternative gives when it is read is given by the fields of its side. -/
theorem given_of_read : e.format.Reads
    (Sum.elim (e.left.Each Field.Given) (e.right.Each Field.Given)) := by
  have hside {side : Bool} {l : Except Fault α} {r : Except Fault β} {s : α ⊕ β}
      (hl : ∀ a, l = .ok a → e.left.Each Field.Given a)
      (hr : ∀ b, r = .ok b → e.right.Each Field.Given b) (h : readSide l r side = .ok s) :
      Sum.elim (e.left.Each Field.Given) (e.right.Each Field.Given) s := by
    cases side with
    | true =>
      obtain ⟨a, ha, rfl⟩ := exists_of_map_eq_ok h
      exact hl a ha
    | false =>
      obtain ⟨b, hb, rfl⟩ := exists_of_map_eq_ok h
      exact hr b hb
  intro room v s hread
  cases v with
  | object members =>
    change e.readMembers (room - 1) members = .ok s at hread
    rw [readMembers] at hread
    split at hread
    · cases hread
    · exact hside (fun _ => (Fields.filled_empty _).readMembers members)
        (fun _ => (Fields.filled_empty _).readMembers members) hread
  | array items =>
    change e.readItems (room - 1) items = .ok s at hread
    cases items with
    | done | broken => cases hread
    | next v rest =>
      rw [readItems] at hread
      split at hread
      · cases hread
      · split_ifs at hread
        exact hside (fun _ => Fields.given_of_readItems) (fun _ => Fields.given_of_readItems) hread
  | _ => cases hread

end Either

end Piecework.Json
