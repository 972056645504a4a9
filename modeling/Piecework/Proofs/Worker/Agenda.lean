import Mathlib.Data.List.Basic
import Mathlib.Logic.Function.Iterate
import Piecework.Worker.Agent

/-!
# Agendas

Whatever is put on an agenda is taken from it once, and in the order of time: nothing is taken early
and nothing that is due is passed over (`InOrder.next?`).  What is on an agenda, apart from the
times, is `due`, and `due_after` and `due_append` say how it changes.

Agents that take turns are a step that is made again and again (`Agent.work_eq_iterate`).
`exhausted_of_potential` says how many steps are enough: something that each step uses up bounds
their number, as in the turns of `Script` and the duties of `Pool`.
-/

namespace Piecework

namespace Agenda

variable {α : Type} {a : α} {g later : Agenda α} {entries : List (Nat × α)} {time wait : Nat}

/-! ## What is on an agenda -/

/-- What is to be done, the next thing first. -/
def due (g : Agenda α) : List α := g.entries.map Prod.snd

@[simp] theorem due_ofList (as : List α) : (ofList as).due = as := by
  rw [due, ofList, List.map_map]
  exact List.map_id as

theorem perm_insert (time : Nat) (a : α) (entries : List (Nat × α)) :
    (insert time a entries).Perm ((time, a) :: entries) := by
  induction entries with
  | nil => exact .refl _
  | cons entry rest ih =>
    rw [insert]
    split
    · exact .refl _
    · exact (ih.cons entry).trans (.swap ..)

theorem due_append (a : α) (g : Agenda α) : (g.append a).due.Perm (a :: g.due) :=
  (perm_insert g.now a g.entries).map Prod.snd

theorem due_after (wait : Nat) (a : α) (g : Agenda α) : (g.after wait a).due.Perm (a :: g.due) := by
  unfold after
  split
  · exact .refl _
  · exact (perm_insert _ a g.entries).map Prod.snd

theorem due_of_next? (h : g.next? = some (a, later)) : g.due = a :: later.due := by
  obtain ⟨now, _ | ⟨⟨time, b⟩, rest⟩⟩ := g <;> cases h
  rfl

theorem next?_eq_none_iff : g.next? = none ↔ g.due = [] := by
  obtain ⟨now, _ | ⟨⟨time, b⟩, rest⟩⟩ := g <;> simp [next?, due]

/-! ## The order of time -/

/-- The entries stand in the order of their times, and no time is over. -/
structure InOrder (g : Agenda α) : Prop where
  sorted : g.entries.Pairwise fun e e' => e.1 ≤ e'.1
  notOver : ∀ e ∈ g.entries, g.now ≤ e.1

theorem InOrder.ofList (as : List α) : (Agenda.ofList as).InOrder := by
  constructor
  · exact List.pairwise_map.2 (List.pairwise_of_forall fun _ _ => Nat.le_refl 0)
  · exact fun _ _ => Nat.zero_le _

theorem pairwise_insert (h : entries.Pairwise fun e e' => e.1 ≤ e'.1) (time : Nat) (a : α) :
    (insert time a entries).Pairwise fun e e' => e.1 ≤ e'.1 := by
  induction entries with
  | nil => exact List.pairwise_singleton _ _
  | cons entry rest ih =>
    obtain ⟨hfirst, hrest⟩ := List.pairwise_cons.1 h
    rw [insert]
    split
    · rename_i hlt
      refine List.pairwise_cons.2 ⟨List.forall_mem_cons.2 ⟨Nat.le_of_lt hlt, fun e he => ?_⟩, h⟩
      exact Nat.le_trans (Nat.le_of_lt hlt) (hfirst e he)
    · rename_i hle
      refine List.pairwise_cons.2 ⟨fun e he => ?_, ih hrest⟩
      rcases List.mem_cons.1 ((perm_insert time a rest).subset he) with rfl | he
      · exact Nat.le_of_not_lt hle
      · exact hfirst e he

theorem InOrder.insert (h : g.InOrder) (htime : g.now ≤ time) (a : α) :
    InOrder { g with entries := Agenda.insert time a g.entries } where
  sorted := pairwise_insert h.sorted time a
  notOver e he := by
    rcases List.mem_cons.1 ((perm_insert time a g.entries).subset he) with rfl | he
    · exact htime
    · exact h.notOver e he

theorem InOrder.append (h : g.InOrder) (a : α) : (g.append a).InOrder :=
  h.insert (Nat.le_refl _) a

theorem InOrder.after (h : g.InOrder) (wait : Nat) (a : α) : (g.after wait a).InOrder := by
  unfold Agenda.after
  split
  · exact ⟨List.pairwise_cons.2 ⟨h.notOver, h.sorted⟩,
      List.forall_mem_cons.2 ⟨Nat.le_refl _, h.notOver⟩⟩
  · exact h.insert (Nat.le_add_right _ _) a

/-- What is taken is due when it is taken, and there is nothing that was due before. -/
theorem InOrder.next? (h : g.InOrder) (hnext : g.next? = some (a, later)) :
    later.InOrder ∧ g.now ≤ later.now ∧ (later.now, a) ∈ g.entries ∧
      ∀ e ∈ g.entries, later.now ≤ e.1 := by
  obtain ⟨now, entries⟩ := g
  obtain ⟨hsorted, hnotOver⟩ := h
  cases entries with
  | nil => cases hnext
  | cons entry rest =>
    obtain ⟨time, b⟩ := entry
    cases hnext
    obtain ⟨hfirst, hrest⟩ := List.pairwise_cons.1 hsorted
    have htime : max now time = time := Nat.max_eq_right (hnotOver _ List.mem_cons_self)
    simp only [htime]
    exact ⟨⟨hrest, hfirst⟩, hnotOver _ List.mem_cons_self, List.mem_cons_self,
      List.forall_mem_cons.2 ⟨Nat.le_refl _, hfirst⟩⟩

end Agenda

/-! ## Running out -/

/-- Steps come to an end when each one uses something up, and as many as there is to use up are
enough. -/
theorem exhausted_of_potential {σ : Type} {next : σ → σ} (Inv Over : σ → Prop)
    (potential : σ → Nat)
    (hstep : ∀ x, Inv x → ¬Over x → Inv (next x) ∧ potential (next x) < potential x)
    (hover : ∀ x, Over x → next x = x) {n : Nat} {x : σ} (hx : Inv x) (hn : potential x ≤ n) :
    Over (next^[n] x) ∧ Inv (next^[n] x) := by
  induction n generalizing x with
  | zero =>
    refine ⟨Classical.not_not.1 fun hgoes => ?_, hx⟩
    have hless := (hstep x hx hgoes).2
    omega
  | succ n ih =>
    by_cases hgoes : Over x
    · rw [Function.iterate_fixed (hover x hgoes)]
      exact ⟨hgoes, hx⟩
    · obtain ⟨hinv, hless⟩ := hstep x hx hgoes
      rw [Function.iterate_succ_apply]
      exact ih hinv (by omega)

namespace Agent

variable {σ : Type} (peer : Peer σ) (errorBackoff : Nat)

/-- The next turn of agents, if one of them has not stopped yet. -/
def next (x : Agenda (String × Stage) × σ) : Agenda (String × Stage) × σ :=
  match x.1.next? with
  | none => x
  | some ((agent, stage), later) =>
    match turn peer errorBackoff agent stage (peer.wait (later.now - x.1.now) x.2) with
    | (none, s) => (later, s)
    | (some (wait, stage), s) => (later.after wait (agent, stage), s)

theorem work_eq_iterate (turns : Nat) (g : Agenda (String × Stage)) (s : σ) :
    work peer errorBackoff turns g s = ((next peer errorBackoff)^[turns] (g, s)).2 := by
  induction turns generalizing g s with
  | zero => rfl
  | succ turns ih =>
    cases hnext : g.next? with
    | none =>
      have hfixed : next peer errorBackoff (g, s) = (g, s) := by rw [next, hnext]
      rw [Function.iterate_fixed hfixed, work, hnext]
    | some taken =>
      obtain ⟨⟨agent, stage⟩, later⟩ := taken
      rw [Function.iterate_succ_apply, work, next, hnext]
      dsimp only
      rcases turn peer errorBackoff agent stage (peer.wait (later.now - g.now) s) with
        ⟨_ | ⟨wait, stage'⟩, s'⟩ <;> exact ih _ _

/-- Agents that take turns do so in the order of time. -/
theorem inOrder_iterate (turns : Nat) {g : Agenda (String × Stage)} (h : g.InOrder) (s : σ) :
    ((next peer errorBackoff)^[turns] (g, s)).1.InOrder := by
  induction turns generalizing g s with
  | zero => exact h
  | succ turns ih =>
    rw [Function.iterate_succ_apply, next]
    cases hnext : g.next? with
    | none => exact ih h s
    | some taken =>
      obtain ⟨⟨agent, stage⟩, later⟩ := taken
      have hlater := (h.next? hnext).1
      dsimp only
      rcases turn peer errorBackoff agent stage (peer.wait (later.now - g.now) s) with
        ⟨_ | ⟨wait, stage'⟩, s'⟩
      · exact ih hlater s'
      · exact ih (hlater.after _ _) s'

end Agent

end Piecework
