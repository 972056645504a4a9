import Piecework.Proofs.Store.History
import Piecework.Proofs.Time.Stamp

/-!
# The oldest task comes first

Rows are stamped by the clock when they are added, and a lease compares these stamps as texts.

* `oldest?_first`: the chosen row has the smallest stamp, and among those with the same stamp the
  smallest identifier.
* `Dated.history`: every row holds the stamp of a moment, as long as the clock shows the years 0 to
  9999.
* `stamps_tell_time`: stamps compare as moments do and read back as them, so that the task that is
  leased is the oldest one.
-/

namespace Piecework

open Time (Instant)

namespace Store

/-! ## The choice of a row -/

/-- The first row comes before the second one, or is the same: by stamp, then by identifier. -/
def Precedes (r r' : TaskRow) : Prop :=
  r.createdAt < r'.createdAt ∨ r.createdAt = r'.createdAt ∧ r.id ≤ r'.id

theorem Precedes.refl (r : TaskRow) : Precedes r r := .inr ⟨rfl, le_refl _⟩

theorem Precedes.trans {r r' r'' : TaskRow} (h : Precedes r r') (h' : Precedes r' r'') :
    Precedes r r'' := by
  rcases h with hlt | ⟨heq, hid⟩
  · rcases h' with hlt' | ⟨heq', -⟩
    · exact .inl (hlt.trans hlt')
    · exact .inl (heq' ▸ hlt)
  · rcases h' with hlt' | ⟨heq', hid'⟩
    · exact .inl (heq ▸ hlt')
    · exact .inr ⟨heq.trans heq', hid.trans hid'⟩

/-- The older one of two rows precedes both. -/
theorem older_precedes {r r' : TaskRow} (hid : r.id < r'.id) :
    Precedes (older r r') r ∧ Precedes (older r r') r' := by
  unfold older
  split_ifs with hlt
  · exact ⟨.inl hlt, .refl r'⟩
  · rcases lt_or_eq_of_le (not_lt.1 hlt) with hlt | heq
    · exact ⟨.refl r, .inl hlt⟩
    · exact ⟨.refl r, .inr ⟨heq, hid.le⟩⟩

/-- The induction is on the rows that are still to be looked at; each of them has a larger
identifier than the oldest row so far. -/
theorem foldl_older_precedes {rest : List TaskRow} {r : TaskRow}
    (hids : ((r :: rest).map TaskRow.id).Pairwise (· < ·)) :
    ∀ x ∈ r :: rest, Precedes (rest.foldl older r) x := by
  induction rest generalizing r with
  | nil =>
    intro x hx
    rw [List.mem_singleton.1 hx]
    exact .refl r
  | cons y rest ih =>
    simp only [List.map_cons, List.pairwise_cons, List.forall_mem_cons] at hids
    obtain ⟨⟨hry, hr⟩, hy, hrest⟩ := hids
    have holder : older r y = r ∨ older r y = y := by
      unfold older
      split_ifs
      · exact .inr rfl
      · exact .inl rfl
    have hnext : ((older r y :: rest).map TaskRow.id).Pairwise (· < ·) := by
      rw [List.map_cons, List.pairwise_cons]
      rcases holder with heq | heq
      · rw [heq]
        exact ⟨hr, hrest⟩
      · rw [heq]
        exact ⟨hy, hrest⟩
    have hfirst := ih hnext _ List.mem_cons_self
    have hboth := older_precedes hry
    rw [List.foldl_cons]
    simp only [List.forall_mem_cons]
    exact ⟨hfirst.trans hboth.1, hfirst.trans hboth.2,
      fun x hx => ih hnext x (List.mem_cons_of_mem _ hx)⟩

/-- The chosen row precedes all others. -/
theorem oldest?_first {rows : List TaskRow} {r : TaskRow} (h : oldest? rows = some r)
    (hids : (rows.map TaskRow.id).Pairwise (· < ·)) : ∀ x ∈ rows, Precedes r x := by
  cases rows with
  | nil => cases h
  | cons x rest =>
    cases h
    exact foldl_older_precedes hids

/-! ## Stamps in rows -/

/-- Every row of a task holds the stamp of the moment at which it was added. -/
def Dated (s : Store) : Prop :=
  ∀ r ∈ s.tasks, ∃ t : Instant, t.Stampable ∧ r.createdAt = t.stamp

theorem createdAt_updateTask {s s' : Store} {id : Int} {status : TaskStatus}
    {change : TaskRow → TaskRow} {held : Bool} (h : s.updateTask id status change = (held, s'))
    (hchange : ∀ r, (change r).createdAt = r.createdAt) :
    ∀ r' ∈ s'.tasks, ∃ r ∈ s.tasks, r'.createdAt = r.createdAt := by
  cases h
  intro r' hr'
  obtain ⟨r, hr, rfl⟩ := List.mem_map.1 hr'
  refine ⟨r, hr, ?_⟩
  dsimp only
  split_ifs
  · exact hchange r
  · rfl

/-- A row is stamped when it is added, and never again. -/
theorem createdAt_answer {s s' : Store} {now : Instant} {c : Call} {reply : c.Reply}
    (h : s.answer now c = .ok (reply, s')) :
    ∀ r' ∈ s'.tasks, r'.createdAt = now.stamp ∨ ∃ r ∈ s.tasks, r'.createdAt = r.createdAt := by
  intro r' hr'
  cases c with
  | migrate | listTasks | listOwned | listUnfinished | setStatus | createExpression =>
    cases h
    exact .inr ⟨r', hr', rfl⟩
  | getTask | getExpression | getOwnedExpression =>
    obtain ⟨-, rfl⟩ := map_pair_ok h
    exact .inr ⟨r', hr', rfl⟩
  | completeTask | failTask =>
    exact .inr (createdAt_updateTask (Except.ok.inj h) (fun _ => rfl) r' hr')
  | createTask e op lhs rhs path =>
    have h : s.createTask now e op lhs rhs path = .ok (reply, s') := h
    unfold createTask at h
    split at h
    · cases h
    · cases h
    · split_ifs at h
      cases h
      rcases List.mem_append.1 hr' with hold | hnew
      · exact .inr ⟨r', hold, rfl⟩
      · rw [List.mem_singleton.1 hnew]
        exact .inl rfl
  | lease =>
    have h : s.lease now = .ok (reply, s') := h
    unfold lease at h
    split at h
    · cases h
      exact .inr ⟨r', hr', rfl⟩
    · split at h
      · cases h
      · split at h
        rename_i hmoved
        cases h
        exact .inr (createdAt_updateTask hmoved (fun _ => rfl) r' hr')

theorem Dated.ask {s : Store} (h : s.Dated) {now : Instant} (hnow : now.Civil) (c : Call) :
    (s.ask now c).2.Dated := by
  unfold Store.ask
  split
  · rename_i reply s' heq
    intro r' hr'
    rcases createdAt_answer heq r' hr' with hnew | ⟨r, hr, hold⟩
    · exact ⟨now.toMicros, hnow.toMicros, by rw [hnew, Instant.stamp_toMicros]⟩
    · obtain ⟨t, ht, hstamp⟩ := h r hr
      exact ⟨t, ht, hold.trans hstamp⟩
  · exact h

theorem Dated.history {s : Store} (h : s.Dated) {calls : List (Instant × Call)}
    (hclock : ∀ call ∈ calls, call.1.Civil) : (s.history calls).2.Dated := by
  induction calls generalizing s with
  | nil => exact h
  | cons call rest ih =>
    rw [List.forall_mem_cons] at hclock
    exact ih (h.ask hclock.1 call.2) hclock.2

theorem dated_empty : empty.Dated := nofun

/-! ## Leases -/

/-- No row of a pending task was stamped before the task, and none that was stamped at the same
moment has a smaller identifier. -/
def IsOldest (k : Task) (s : Store) : Prop :=
  ∀ r ∈ s.tasks, r.isIn .pending = true → ∀ t : Instant, t.Stampable → r.createdAt = t.stamp →
    k.createdAt.Before t ∨ k.createdAt = t ∧ k.id ≤ r.id

/-- The task that is leased is the oldest one of those that wait. -/
theorem lease_oldest {s : Store} (hs : s.WellFormed) (hdated : s.Dated) (now : Instant)
    (hpending : ∃ r ∈ s.tasks, r.isIn .pending = true) :
    ∃ k s', s.lease now = .ok (some k, s') ∧
      (∃ r ∈ s.tasks, r.isIn .pending = true ∧ r.id = k.id ∧ r.createdAt = k.createdAt.stamp) ∧
      IsOldest k s := by
  cases hold : oldest? (s.tasks.filter (·.isIn .pending)) with
  | none =>
    obtain ⟨r, hr, hin⟩ := hpending
    have hmem : r ∈ s.tasks.filter (·.isIn .pending) := List.mem_filter.2 ⟨hr, hin⟩
    rw [eq_nil_of_oldest? hold] at hmem
    cases hmem
  | some row =>
    obtain ⟨hrow, hin⟩ := List.mem_filter.1 (mem_of_oldest? hold)
    obtain ⟨k, hread⟩ := (hs.tasks row hrow).exists_read
    obtain ⟨t, ht, hstamp⟩ := hdated row hrow
    have hcreated : k.createdAt = t := by
      rw [TaskRow.createdAt_of_read hread, hstamp,
        columnText_of_not_mem (Instant.nul_not_mem_stamp ht), Instant.ofStamp_stamp ht]
    have hid := TaskRow.id_of_read hread
    have hids : ((s.tasks.filter (·.isIn .pending)).map TaskRow.id).Pairwise (· < ·) :=
      hs.taskIds.sublist (List.filter_sublist.map _)
    have hoff : row.createdAt = k.createdAt.stamp := by rw [hstamp, hcreated]
    have hfirst : IsOldest k s := by
      intro r hr hin' u hu hr'
      rw [hcreated, hid, ← Instant.stamp_lt_iff ht hu, ← Instant.stamp_inj ht hu, ← hstamp, ← hr']
      exact oldest?_first hold hids r (List.mem_filter.2 ⟨hr, hin'⟩)
    exact ⟨_, _, lease_eq hold hread, ⟨row, hrow, hin, hid.symm, hoff⟩, hfirst⟩

/-- The order of stamps is the order of time, and a stamp is read back as its moment.  So a lease
hands out the oldest task that waits: in a store whose rows hold stamps, as they do whatever was
asked of it. -/
theorem stamps_tell_time :
    (∀ t u : Instant, t.Stampable → u.Stampable →
      (t.stamp < u.stamp ↔ t.Before u) ∧ (t.stamp = u.stamp ↔ t = u) ∧
        (u.stamp < t.stamp ↔ u.Before t)) ∧
    (∀ t : Instant, t.Stampable → Time.ofStamp t.stamp = t) ∧
    (∀ s : Store, s.WellFormed → s.Dated → (∃ r ∈ s.tasks, r.isIn .pending = true) →
      ∀ now, ∃ k s', s.lease now = .ok (some k, s') ∧
        (∃ r ∈ s.tasks, r.isIn .pending = true ∧ r.id = k.id ∧
          r.createdAt = k.createdAt.stamp) ∧
        IsOldest k s) ∧
    ∀ calls : List (Instant × Call), (∀ call ∈ calls, call.1.Civil) →
      (empty.history calls).2.WellFormed ∧ (empty.history calls).2.Dated := by
  refine ⟨fun t u ht hu => ?_, fun t ht => Instant.ofStamp_stamp ht, ?_, fun calls hclock => ?_⟩
  · exact ⟨Instant.stamp_lt_iff ht hu, Instant.stamp_inj ht hu, Instant.stamp_lt_iff hu ht⟩
  · exact fun s hs hdated hpending now => lease_oldest hs hdated now hpending
  · exact ⟨wellFormed_empty.history calls, dated_empty.history hclock⟩

/-- The last microsecond of a leap day. -/
def leapDay : Instant := .ofCivil ⟨2024, 2, 29⟩ ⟨23, 59, 59, 999999000⟩

/-- Two tasks of one expression, added around the end of a leap day. -/
def leapDayCalls : List (Instant × Call) :=
  [(leapDay, .createExpression "alice" "1+2+3"), (leapDay, .createTask 1 .add 1 2 ""),
    (leapDay.tick, .createTask 1 .add 2 3 "")]

theorem leapDay_before_tick :
    leapDay.stamp < leapDay.tick.stamp ∧ Time.ofStamp leapDay.stamp = leapDay ∧
      ∃ k s', (empty.history leapDayCalls).2.lease leapDay.tick = .ok (some k, s') ∧
        IsOldest k (empty.history leapDayCalls).2 := by
  obtain ⟨horder, hread, hlease, hdated⟩ := stamps_tell_time
  have hday : leapDay.Stampable := ⟨⟨by decide, by decide⟩, by decide⟩
  have htick : leapDay.tick.Stampable := ⟨⟨by decide, by decide⟩, by decide⟩
  obtain ⟨hwell, hstamps⟩ := hdated leapDayCalls (by
    simp only [leapDayCalls, List.forall_mem_cons]
    exact ⟨hday.toCivil, hday.toCivil, htick.toCivil, nofun⟩)
  obtain ⟨k, s', hk, -, holdest⟩ := hlease _ hwell hstamps (by decide) leapDay.tick
  exact ⟨(horder _ _ hday htick).1.2 (by decide), hread _ hday, k, s', hk, holdest⟩

end Store

end Piecework
