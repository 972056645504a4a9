import Piecework.Proofs.Decimal.Parts
import Piecework.Proofs.Json.Format
import Piecework.Proofs.Store.Effects
import Piecework.Proofs.Store.Meets

/-!
# What the columns of an expression give back

Steps go through JSON into a column of texts, results into a column of floats, and states into
another column of texts.  What is read from a row is what was written into it.

* `readSteps_encode`: any texts are read as they were written, since no text is escaped to a NUL
  and JSON gives every text back.
* `bind_columnFloat`: a column of floats gives back all but the sign of a zero, and nothing for a
  value that is no number.
* `marked_reads_back` puts the columns together: after the state, the result and the steps of an
  expression were overwritten, they are what is looked up and listed, and nothing else has changed.
-/

namespace Piecework

/-! ## Steps in a column -/

namespace Json

/-- No character is written as NUL. -/
theorem not_mem_escapeChar (c : Char) : '\x00' ∉ escapeChar c := by
  by_cases hcontrol : c.toNat < 0x20
  · have hall : ∀ n < 0x20, '\x00' ∉ escapeChar (Char.ofNat n) := by decide
    rw [← Char.ofNat_toNat c]
    exact hall c.toNat hcontrol
  · have hprints : 0x20 ≤ c.toNat := by omega
    have hne : '\x00' ≠ c := by
      rintro rfl
      exact hcontrol (by decide)
    unfold escapeChar
    rw [if_pos hprints]
    split_ifs <;> simp [hne]

theorem not_mem_quoted (s : String) : '\x00' ∉ quoted s := by
  simp only [quoted, List.cons_append, List.mem_cons, List.mem_append, List.mem_flatMap,
    not_or, not_exists, not_and]
  exact ⟨by decide, fun c _ => not_mem_escapeChar c, by decide⟩

theorem not_mem_separated {c : Char} {parts : List (List Char)} (hcomma : c ≠ ',')
    (h : ∀ cs ∈ parts, c ∉ cs) : c ∉ Value.separated parts := by
  induction parts with
  | nil => exact List.not_mem_nil
  | cons one more ih =>
    rw [List.forall_mem_cons] at h
    cases more with
    | nil => exact h.1
    | cons next more =>
      change c ∉ one ++ ',' :: Value.separated (next :: more)
      rw [List.mem_append, List.mem_cons]
      exact not_or.2 ⟨h.1, not_or.2 ⟨hcomma, ih h.2⟩⟩

end Json

/-- Nothing in the text of steps ends the text of a column. -/
theorem not_mem_encode_steps (lines : List String) :
    '\x00' ∉ (stepsFormat.encode lines).toList := by
  have hitems : ∀ cs ∈ Json.Value.itemChars (lines.map .text), '\x00' ∉ cs := by
    induction lines with
    | nil => nofun
    | cons s lines ih =>
      rw [List.map_cons, Json.Value.itemChars, List.forall_mem_cons]
      exact ⟨Json.not_mem_quoted s, ih⟩
  have hchars : (stepsFormat.encode lines).toList =
      '[' :: Json.Value.separated (Json.Value.itemChars (lines.map .text)) ++ [']'] :=
    String.toList_ofList
  rw [hchars]
  simp [Json.not_mem_separated (by decide : '\x00' ≠ ',') hitems]

/-- Steps are read as they were written. -/
theorem readSteps_encode (lines : List String) :
    readSteps (some (stepsFormat.encode lines)) = .ok (some lines) := by
  have hkeeps := Json.Format.keeps_list fun s (_ : s ∈ lines) => Json.Format.keeps_text s
  have hdecode : stepsFormat.decode (stepsFormat.encode lines) = .ok lines :=
    hkeeps.decode_encode (by decide)
  rw [readSteps, columnText_of_not_mem (not_mem_encode_steps lines), hdecode]

/-! ## Results in a column -/

/-- What a column of floats gives back of a value: nothing if it is no number, the positive zero
for the negative one, and any other value as it was written. -/
def givenBack : Option Float → Option Float
  | none => none
  | some x => if x.isNaN then none else if x = -0 then some 0 else some x

/-- There are two zeros. -/
theorem Number.eq_of_beq_zero {x : Float} (h : (x == 0) = true) : x = 0 ∨ x = -0 := by
  obtain ⟨sign, hparts⟩ := (beq_zero_iff x).1 h
  cases sign with
  | positive => exact .inl (parts_injective hparts)
  | negative => exact .inr (parts_injective (by rw [hparts, parts_neg, parts_zero]; rfl))

theorem columnFloat_eq (x : Float) : columnFloat x = givenBack (some x) := by
  rw [columnFloat, givenBack]
  by_cases hnumber : x.isNaN = true
  · rw [if_pos hnumber, if_pos hnumber]
  rw [if_neg hnumber, if_neg hnumber]
  by_cases hzero : (x == 0) = true
  · rw [if_pos hzero]
    rcases Number.eq_of_beq_zero hzero with rfl | rfl
    · exact (if_neg (by decide)).symm
    · exact (if_pos rfl).symm
  · have hne : x ≠ -0 := by
      rintro rfl
      exact hzero (by decide)
    rw [if_neg hzero, if_neg hne]

theorem bind_columnFloat (result : Option Float) : result.bind columnFloat = givenBack result := by
  cases result with
  | none => rfl
  | some x => exact columnFloat_eq x

/-! ## Rows that were marked -/

namespace Store

variable {s : Store} {r : ExpressionRow} (status : ExpressionStatus) (result : Option Float)
  (steps : Option (List String)) (now : Time.Instant)

/-- What an overwritten row reads as. -/
def marked (r : ExpressionRow) : Expression :=
  ⟨r.id, columnText r.owner, columnText r.source, status, givenBack result, steps,
    Time.ofStamp (columnText r.createdAt), Time.ofStamp (columnText now.stamp)⟩

/-- An overwritten row can be read, whether or not it could be read before. -/
theorem read_mark (r : ExpressionRow) :
    (mark status result steps now.stamp r).read = .ok (marked status result steps now r) := by
  have hsteps : readSteps (steps.map stepsFormat.encode) = .ok steps := by
    cases steps with
    | none => rfl
    | some lines => exact readSteps_encode lines
  unfold ExpressionRow.read
  simp only [mark, marked, hsteps, columnText_expressionStatus, ExpressionStatus.ofStored_name,
    bind_columnFloat]

/-- Where identifiers are keys, overwriting an expression replaces its row. -/
theorem replaces_setStatus (hkeys : (s.expressions.map ExpressionRow.id).Nodup)
    (hr : r ∈ s.expressions) :
    Replaces r (mark status result steps now.stamp r) s.expressions
      (s.setStatus now r.id status result steps).expressions := by
  obtain ⟨front, back, hrows⟩ := List.append_of_mem hr
  rw [hrows, List.map_append, List.map_cons, List.nodup_append, List.nodup_cons] at hkeys
  obtain ⟨-, ⟨hback, -⟩, hfront⟩ := hkeys
  have hsame : ∀ rows : List ExpressionRow, (∀ x ∈ rows, x.id ≠ r.id) →
      (rows.map fun x => if x.id == r.id then mark status result steps now.stamp x else x) =
        rows := by
    intro rows hne
    conv_rhs => rw [← List.map_id rows]
    exact List.map_congr_left fun x hx => if_neg (by simpa using hne x hx)
  refine ⟨front, back, hrows, ?_⟩
  show s.expressions.map (fun x => if x.id == r.id then mark status result steps now.stamp x
    else x) = _
  rw [hrows, List.map_append, List.map_cons, if_pos (beq_self_eq_true r.id), hsame front,
    hsame back]
  · exact fun x hx heq => hback (heq ▸ List.mem_map_of_mem hx)
  · exact fun x hx heq => hfront _ (List.mem_map_of_mem hx) _ List.mem_cons_self heq

/-- An overwritten expression is found. -/
theorem expression?_setStatus (hkeys : (s.expressions.map ExpressionRow.id).Nodup)
    (hr : r ∈ s.expressions) :
    (s.setStatus now r.id status result steps).expression? r.id =
      .ok (some (marked status result steps now r)) := by
  have hrows := replaces_setStatus status result steps now hkeys hr
  rw [hrows.map_eq (b := mark status result steps now.stamp r) rfl] at hkeys
  have hlook := expression?_of_nodup hkeys hrows.mem_new
  rw [read_mark] at hlook
  exact hlook

/-- A row that can be read is listed for its owner. -/
theorem mem_ownedBy {e : Expression} (hr : r ∈ s.expressions) (hread : r.read = .ok e) :
    e ∈ s.ownedBy r.owner := by
  rw [ownedBy, readableExpressions, List.mem_filterMap]
  refine ⟨r, List.mem_mergeSort.2 (List.mem_reverse.2 ?_), toOption_eq_some.2 hread⟩
  exact List.mem_filter.2 ⟨hr, beq_self_eq_true r.owner⟩

/-- What is read of a row before it is overwritten, apart from what is overwritten. -/
theorem marked_of_read {e : Expression} (h : r.read = .ok e) :
    marked status result steps now r =
      { e with status, steps
               result := givenBack result
               updatedAt := Time.ofStamp (columnText now.stamp) } := by
  unfold ExpressionRow.read at h
  split at h
  · cases h
  · cases h
    rw [marked]

end Store

/-- A site that has overwritten an expression has done so in its store. -/
theorem Site.store_of_setStatus {site site' : Site} {id : Int} {status : ExpressionStatus}
    {result : Option Float} {steps : Option (List String)}
    (h : site.answer (.setStatus id status result steps) = (.ok (), site')) :
    ∃ now, site'.store = site.store.setStatus now id status result steps := by
  obtain ⟨⟨now, reply, -, heq⟩ | ⟨failure, hrefused, -, -⟩, -⟩ :=
    Site.answer_cases (.setStatus id status result steps) site
  · rw [h] at heq
    exact ⟨now, (congrArg Prod.snd (Except.ok.inj heq)).symm⟩
  · rw [h] at hrefused
    cases hrefused

/-- After the state, the result and the steps of an expression were overwritten, a look at it
gives this state, these steps and, but for what a column of floats cannot hold, this result; it is
also listed, whatever was there before.  Its identifier, owner, source and time of creation, all
other expressions and all tasks are as they were. -/
theorem marked_reads_back {site site' : Site} {r : ExpressionRow}
    (hkeys : (site.store.expressions.map ExpressionRow.id).Nodup)
    (hr : r ∈ site.store.expressions) {status : ExpressionStatus} {result : Option Float}
    {steps : Option (List String)}
    (h : site.answer (.setStatus r.id status result steps) = (.ok (), site')) :
    ∃ e r', (∀ now, site'.store.answer now (.getExpression r.id) = .ok (some e, site'.store)) ∧
      (e.status = status ∧ e.steps = steps ∧ e.result = givenBack result) ∧
      (∀ now e₀ s, site.store.answer now (.getExpression r.id) = .ok (some e₀, s) →
        e.id = e₀.id ∧ e.owner = e₀.owner ∧ e.source = e₀.source ∧
          e.createdAt = e₀.createdAt) ∧
      (e ∈ site'.store.ownedBy r.owner ∧
        (status.isTerminal = false → e ∈ site'.store.unfinished)) ∧
      (Replaces r r' site.store.expressions site'.store.expressions ∧ r'.id = r.id ∧
        r'.owner = r.owner ∧ r'.source = r.source ∧ r'.createdAt = r.createdAt) ∧
      site'.store.tasks = site.store.tasks := by
  obtain ⟨now, hstore⟩ := Site.store_of_setStatus h
  have hrows := Store.replaces_setStatus status result steps now hkeys hr
  have hread := Store.read_mark status result steps now r
  have hlook := Store.expression?_setStatus status result steps now hkeys hr
  rw [← hstore] at hrows hlook
  have hlisted := Store.mem_ownedBy hrows.mem_new hread
  refine ⟨_, _, fun later => ?_, ⟨rfl, rfl, rfl⟩, fun later e₀ s hbefore => ?_,
    ⟨hlisted, fun hstatus => ?_⟩, ⟨hrows, rfl, rfl, rfl, rfl⟩, ?_⟩
  · show (site'.store.expression? r.id).map (·, site'.store) = _
    rw [hlook]
    rfl
  · have hbefore := (Store.map_pair_ok hbefore).1
    rw [Store.expression?_of_nodup hkeys hr] at hbefore
    have hreadable : r.read = .ok e₀ := by
      cases hr₀ : r.read with
      | error e =>
        rw [hr₀] at hbefore
        cases hbefore
      | ok e =>
        rw [hr₀] at hbefore
        cases hbefore
        rfl
    rw [Store.marked_of_read status result steps now hreadable]
    exact ⟨rfl, rfl, rfl, rfl⟩
  · refine Store.mem_unfinished.2 ⟨_, hrows.mem_new, ?_, hread⟩
    cases status with
    | pending | inProgress => rfl
    | done | error => cases hstatus
  · rw [hstore]
    rfl

/-- A site with one expression, whose steps cannot be read. -/
def brokenSteps : Site :=
  { Site.fresh with
    store := ⟨[], [⟨1, "alice", "0*-1", "in_progress", some 5, some "[", "", ""⟩], 0, 1⟩ }

/-- Lines with a quote, a backslash and control characters, and one with nothing in it. -/
def oddLines : List String := ["\"\\", "", "\x00\n"]

/-- The site after its expression was overwritten. -/
def mendedSteps : Site :=
  (brokenSteps.answer (.setStatus 1 .done (some (-0)) (some oddLines))).2

theorem mendedSteps_reads_back :
    brokenSteps.answer (.setStatus 1 .done (some (-0)) (some oddLines)) = (.ok (), mendedSteps) ∧
      ∃ e, (∀ now, mendedSteps.store.answer now (.getExpression 1) =
          .ok (some e, mendedSteps.store)) ∧
        e.status = .done ∧ e.steps = some oddLines ∧ e.result = some 0 := by
  have hdone : brokenSteps.answer (.setStatus 1 .done (some (-0)) (some oddLines)) =
      (.ok (), mendedSteps) := rfl
  obtain ⟨e, -, hlook, ⟨hstatus, hsteps, hresult⟩, -⟩ := marked_reads_back
    (by decide : (brokenSteps.store.expressions.map ExpressionRow.id).Nodup)
    List.mem_cons_self hdone
  have hzero : givenBack (some (-0)) = some 0 := by decide
  exact ⟨rfl, e, hlook, hstatus, hsteps, hresult.trans hzero⟩

end Piecework
