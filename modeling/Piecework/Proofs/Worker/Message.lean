import Piecework.Proofs.Json.Record
import Piecework.Worker.Message

/-!
# Messages are read back

What one side of the wire writes is what the other side reads, for every message between a
worker and the server.  `Restores` says so of a format in both directions: any message that can
be written is given back by its text, and any message that was read, from whatever text, is one
that can be written.

An identifier can be written if it is a signed integer of 64 bits.  A float can be written if it
is finite, and it is given back if its text reads as the same float; nothing else is asked of
texts, times and the presence of an outcome.

Each kind of message has two lemmas: what it `Keeps`, and what its format `Reads`.
-/

namespace Piecework

open Json

namespace Json.Format

variable {α : Type}

/-- The identifiers in a message are signed integers of 64 bits, and its floats are finite. -/
structure Proper (ids : α → List Int) (floats : α → List Float) (m : α) : Prop where
  ids : ∀ id ∈ ids m, Text.minId ≤ id ∧ id ≤ Text.maxId
  floats : ∀ x ∈ floats m, x.isFinite = true

/-- Messages are given back by their texts, as long as the texts of their finite floats give these
back: every proper one, and every one that was read from any text. -/
structure Restores (f : Format α) (ids : α → List Int) (floats : α → List Float) : Prop where
  written : ∀ m, Proper ids floats m → (∀ x ∈ floats m, x.isFinite = true → ReadsBack x) →
    f.decode (f.encode m) = .ok m
  read : ∀ text m, f.decode text = .ok m → (∀ x ∈ floats m, x.isFinite = true → ReadsBack x) →
    f.decode (f.encode m) = .ok m

theorem restores {f : Format α} {ids : α → List Int} {floats : α → List Float} {depth : Nat}
    (hdepth : depth ≤ maxDepth) (hreads : f.Reads (Proper ids floats))
    (hkeeps : ∀ m, Proper ids floats m → (∀ x ∈ floats m, ReadsBack x) → f.Keeps depth m) :
    f.Restores ids floats := by
  have hwritten : ∀ m, Proper ids floats m → (∀ x ∈ floats m, x.isFinite = true → ReadsBack x) →
      f.decode (f.encode m) = .ok m := fun m hm hback =>
    (hkeeps m hm fun x hx => hback x hx (hm.floats x hx)).decode_encode hdepth
  refine ⟨hwritten, fun text m hread => hwritten m ?_⟩
  exact hreads _ _ m (decode_eq_ok_iff.1 hread).1

theorem reads_identifier : identifier.Reads fun n => Text.minId ≤ n ∧ n ≤ Text.maxId :=
  reads_integer _ _

end Json.Format

open Json.Format Json.Field

/-! ## Requests -/

theorem TaskRequest.keeps (m : TaskRequest) : TaskRequest.format.Keeps 1 m := by
  have hfields : fields.Each (Field.Keeps 0) (m.agent, ()) :=
    ⟨keeps_required (keeps_text _), trivial⟩
  exact (Fields.keeps_record (by decide) hfields).imap rfl rfl

/-! ## Assignments and replies -/

namespace Assignment

/-- The identifiers in an assignment. -/
def ids (m : Assignment) : List Int := [m.id]

/-- The floats in an assignment. -/
def floats (m : Assignment) : List Float := [m.operand1, m.operand2]

theorem keeps_fields {m : Assignment} (hm : Proper ids floats m)
    (hback : ∀ x ∈ m.floats, ReadsBack x) : fields.Each (Field.Keeps 0) m.toTuple := by
  obtain ⟨hlo, hhi⟩ := hm.ids m.id (by simp [ids])
  have hleft := hback m.operand1 (by simp [floats])
  have hright := hback m.operand2 (by simp [floats])
  exact ⟨keeps_required (keeps_identifier hlo hhi), keeps_required (keeps_float hleft),
    keeps_required (keeps_float hright), keeps_required (keeps_text _),
    keeps_required (keeps_word _), trivial⟩

theorem proper_of_given {c : Int × Float × Float × String × UInt64 × Unit}
    (h : fields.Each Field.Given c) : Proper ids floats (ofTuple c) := by
  obtain ⟨id, operand1, operand2, operator, time, _⟩ := c
  obtain ⟨hid, hleft, hright, -⟩ := h
  refine ⟨?_, ?_⟩
  · simp only [ids, ofTuple, List.mem_singleton, forall_eq]
    exact hid.of_required reads_identifier
  · simp only [floats, ofTuple, List.mem_cons, List.not_mem_nil, or_false, forall_eq_or_imp,
      forall_eq]
    exact ⟨hleft.of_required reads_float, hright.of_required reads_float⟩

theorem keeps {m : Assignment} (hm : Proper ids floats m)
    (hback : ∀ x ∈ m.floats, ReadsBack x) : format.Keeps 1 m :=
  (Fields.keeps_record (by decide) (keeps_fields hm hback)).imap rfl rfl

theorem reads : format.Reads (Proper ids floats) :=
  Reads.imap fun room v c h => proper_of_given (Fields.given_of_read room v c h)

end Assignment

namespace TaskReply

/-- The identifiers in a reply. -/
def ids : TaskReply → List Int
  | .task assignment => assignment.ids
  | .noTask _ => []

/-- The floats in a reply. -/
def floats : TaskReply → List Float
  | .task assignment => assignment.floats
  | .noTask _ => []

theorem keeps {m : TaskReply} (hm : Proper ids floats m) (hback : ∀ x ∈ m.floats, ReadsBack x) :
    format.Keeps 1 m := by
  cases m with
  | task assignment =>
    have hfields : kinds.left.Each (Field.Keeps 0) assignment.toTuple :=
      Assignment.keeps_fields ⟨hm.ids, hm.floats⟩ hback
    exact (Either.keeps_left (by decide) hfields).imap rfl rfl
  | noTask retryAfter =>
    have hfields : kinds.right.Each (Field.Keeps 0) (retryAfter, ()) :=
      ⟨keeps_required (keeps_word _), trivial⟩
    exact (Either.keeps_right (by decide) (by decide) hfields).imap rfl rfl

theorem reads : format.Reads (Proper ids floats) := by
  refine Reads.imap fun room v c h => ?_
  have hgiven := Either.given_of_read room v c h
  cases c with
  | inl c =>
    obtain ⟨hids, hfloats⟩ := Assignment.proper_of_given hgiven
    exact ⟨hids, hfloats⟩
  | inr c => exact ⟨nofun, nofun⟩

end TaskReply

/-! ## Outcomes and submissions -/

namespace Outcome

/-- The floats in an outcome. -/
def floats : Outcome → List Float
  | .result value => [value]
  | .error _ => []

theorem keeps {m : Outcome} (hback : ∀ x ∈ m.floats, ReadsBack x) : format.Keeps 1 m := by
  cases m with
  | result value =>
    have hfields : kinds.left.Each (Field.Keeps 0) (value, ()) :=
      ⟨keeps_required (keeps_float (hback value (by simp [floats]))), trivial⟩
    exact (Either.keeps_left (by decide) hfields).imap rfl rfl
  | error message =>
    have hfields : kinds.right.Each (Field.Keeps 0) (message, ()) :=
      ⟨keeps_required (keeps_text _), trivial⟩
    exact (Either.keeps_right (by decide) (by decide) hfields).imap rfl rfl

theorem reads : format.Reads fun m => ∀ x ∈ m.floats, x.isFinite = true := by
  refine Reads.imap fun room v c h => ?_
  have hgiven := Either.given_of_read room v c h
  cases c with
  | inl c =>
    simp only [floats, List.mem_singleton, forall_eq]
    exact hgiven.1.of_required reads_float
  | inr c => exact nofun

theorem node_ne_null (m : Outcome) : (format.write m).node ≠ .null := by
  cases m <;> exact nofun

end Outcome

namespace Submission

/-- The identifiers in a submission. -/
def ids (m : Submission) : List Int := [m.taskId]

/-- The floats in a submission. -/
def floats (m : Submission) : List Float := m.outcome.toList.flatMap Outcome.floats

theorem keeps {m : Submission} (hm : Proper ids floats m) (hback : ∀ x ∈ m.floats, ReadsBack x) :
    format.Keeps 2 m := by
  obtain ⟨taskId, agent, outcome⟩ := m
  obtain ⟨hlo, hhi⟩ := hm.ids taskId (by simp [ids])
  have houtcome : Outcome.format.optional.Keeps 1 outcome := by
    cases outcome with
    | none => exact (keeps_none _).mono (Nat.zero_le 1)
    | some o =>
      have ho : ∀ x ∈ o.floats, ReadsBack x := by simpa [floats] using hback
      exact (Outcome.keeps ho).some o.node_ne_null
  have hid := (keeps_identifier hlo hhi).mono (Nat.zero_le 1)
  have hagent := (keeps_text agent).mono (Nat.zero_le 1)
  have hfields : fields.Each (Field.Keeps 1) (taskId, agent, outcome, ()) :=
    ⟨keeps_required hid, keeps_required hagent, keeps_nullable houtcome, trivial⟩
  exact (Fields.keeps_record (by decide) hfields).imap rfl rfl

theorem reads : format.Reads (Proper ids floats) := by
  refine Reads.imap fun room v c h => ?_
  obtain ⟨taskId, agent, outcome, _⟩ := c
  obtain ⟨hid, -, houtcome, -⟩ := Fields.given_of_read room v _ h
  refine ⟨?_, ?_⟩
  · simp only [ids, List.mem_singleton, forall_eq]
    exact hid.of_required reads_identifier
  · intro x hx
    obtain ⟨o, ho, hxo⟩ := List.mem_flatMap.1 hx
    exact houtcome.of_nullable Outcome.reads o (Option.mem_toList.1 ho) x hxo

end Submission

theorem Receipt.keeps (m : Receipt) : Receipt.format.Keeps 1 m := by
  have hfields : fields.Each (Field.Keeps 0) (m.acknowledged, ()) :=
    ⟨keeps_required (keeps_bool _), trivial⟩
  exact (Fields.keeps_record (by decide) hfields).imap rfl rfl

/-! ## All messages -/

/-- Every message between a worker and the server is given back by its text, and so is every one
that was read from any text. -/
theorem messages_restored :
    TaskRequest.format.Restores (fun _ => []) (fun _ => []) ∧
    Assignment.format.Restores Assignment.ids Assignment.floats ∧
    TaskReply.format.Restores TaskReply.ids TaskReply.floats ∧
    Outcome.format.Restores (fun _ => []) Outcome.floats ∧
    Submission.format.Restores Submission.ids Submission.floats ∧
    Receipt.format.Restores (fun _ => []) (fun _ => []) := by
  have hone : 1 ≤ maxDepth := by decide
  have htwo : 2 ≤ maxDepth := by decide
  refine ⟨?_, ?_, ?_, ?_, ?_, ?_⟩
  · exact restores hone (fun _ _ _ _ => ⟨nofun, nofun⟩) fun m _ _ => m.keeps
  · exact restores hone Assignment.reads fun m => Assignment.keeps
  · exact restores hone TaskReply.reads fun m => TaskReply.keeps
  · have hreads : Outcome.format.Reads (Proper (fun _ => []) Outcome.floats) :=
      fun room v m h => ⟨nofun, Outcome.reads room v m h⟩
    exact restores hone hreads fun m _ => Outcome.keeps
  · exact restores htwo Submission.reads fun m => Submission.keeps
  · exact restores hone (fun _ _ _ _ => ⟨nofun, nofun⟩) fun m _ _ => m.keeps

/-- A task with the smallest identifier, negative zero, and the longest time. -/
def extremeReply : TaskReply :=
  .task ⟨Text.minId, -0.0, 0.1, "\"\\\x00\u20ac", 18446744073709551615⟩

theorem extremeReply_restored : TaskReply.format.decode
    "\x7b\"retry_after_seconds\":3,\"kind\":\"no_task\"\x7d" = .ok (.noTask 3) ∧
    TaskReply.format.decode (TaskReply.format.encode (.noTask 3)) = .ok (.noTask 3) ∧
    TaskReply.format.decode (TaskReply.format.encode extremeReply) = .ok extremeReply := by
  have hread : TaskReply.format.decode
      "\x7b\"retry_after_seconds\":3,\"kind\":\"no_task\"\x7d" = .ok (.noTask 3) := by
    decide +kernel
  have hproper : Proper TaskReply.ids TaskReply.floats extremeReply :=
    ⟨by decide, by decide +kernel⟩
  have hback : ∀ x ∈ extremeReply.floats, x.isFinite = true → ReadsBack x := by decide +kernel
  have hrestores := messages_restored.2.2.1
  exact ⟨hread, hrestores.read _ _ hread nofun, hrestores.written _ hproper hback⟩

end Piecework
