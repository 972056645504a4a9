import Mathlib.Data.List.Perm.Subperm
import Piecework.Proofs.Schedule.Standing

/-!
# The order in which operations are handed out

An operation gets one task, and gets it late enough: every operation below it was finished
before, by a task that is older.

* `exists_done_below`: what refilling has made ready has only finished tasks below it.
* `Sequenced` is the order, kept by a task that is added (`Sequenced.issue`) and by tasks that
  change hands (`Sequenced.later`).
* `InOrder` asks it of every expression of a store, and is kept by what others do
  (`InOrder.elsewhere`) and by what a pass may do (`InOrder.effect`).
* `Tracked.length_le`: there are no more tasks than operations.
-/

namespace Piecework

open Store (Issued Elsewhere)

namespace Tree

variable {tasks : List Task} {t l r : Tree} {p q : Path} {op : Operator}

/-- The operations of a tree that has come down to a number have been computed. -/
theorem exists_done_of_refillAt_leaf {v : Float} (h : t.refillAt tasks p = leaf v)
    (hat : t.at? q = some (node op l r)) :
    ∃ k ∈ tasks, k.path = Path.text (p ++ q) ∧ k.status = .done ∧ ∃ w, k.result = some w := by
  induction t generalizing p q v with
  | leaf w => exact absurd (at?_leaf hat).2 (by simp)
  | node op' l' r' ihl ihr =>
    obtain ⟨a, b, hl, hr, hresult⟩ := refillAt_eq_leaf.1 h
    cases q with
    | nil =>
      obtain ⟨k, hk, hdone, hcomputes, hv⟩ := exists_of_resultOf? hresult
      refine ⟨k, hk, ?_, hdone, v, hv⟩
      rw [List.append_nil]
      exact Task.path_of_computes hcomputes
    | cons side q =>
      rw [List.append_cons]
      cases side with
      | left => exact ihl hl hat
      | right => exact ihr hr hat

/-- The operations below a ready one have been computed. -/
theorem exists_done_below {x : Ready} (hx : x ∈ (t.refill tasks).frontier) (hq : q ≠ [])
    (hat : t.at? (x.path ++ q) = some (node op l r)) :
    ∃ k ∈ tasks, k.path = Path.text (x.path ++ q) ∧ k.status = .done ∧
      ∃ w, k.result = some w := by
  obtain ⟨u, hu, hrefill⟩ := exists_at?_of_refillAt (p := []) (mem_frontier.1 hx)
  obtain ⟨l', r', rfl, hl, hr, -⟩ := exists_node_of_refillAt hrefill
  rw [at?_append, hu, Option.bind_some] at hat
  cases q with
  | nil => exact absurd rfl hq
  | cons side q =>
    rw [List.append_cons]
    cases side with
    | left => exact exists_done_of_refillAt_leaf hl hat
    | right => exact exists_done_of_refillAt_leaf hr hat

end Tree

/-- There is at most one task for each operation. -/
theorem Tracked.length_le {t : Tree} {tasks : List Task} (h : Tracked t tasks) :
    tasks.length ≤ t.operationCount := by
  have hsubset : tasks.map Task.path ⊆ t.places.map Path.text := by
    intro path hpath
    obtain ⟨k, hk, rfl⟩ := List.mem_map.1 hpath
    obtain ⟨p, l, r, hp, hat⟩ := h.place k hk
    rw [hp]
    exact List.mem_map_of_mem (Tree.mem_places hat)
  have hle := (List.subperm_of_subset h.nodup hsubset).length_le
  rwa [List.length_map, List.length_map, Tree.length_places] at hle

/-! ## One expression -/

/-- Every operation below that of a task has a finished task that is older. -/
def Sequenced (t : Tree) (tasks : List Task) : Prop :=
  ∀ k ∈ tasks, ∀ p q op l r, k.path = Path.text p → q ≠ [] →
    t.at? (p ++ q) = some (.node op l r) →
    ∃ k' ∈ tasks, k'.path = Path.text (p ++ q) ∧ k'.id < k.id ∧ k'.status = .done ∧
      ∃ v, k'.result = some v

section Sequenced

variable {t : Tree} {tasks tasks' : List Task}

theorem sequenced_nil (t : Tree) : Sequenced t [] := by
  intro k hk
  cases hk

/-- The task of an open operation comes after those of the operations below it. -/
theorem Sequenced.issue (h : Sequenced t tasks) {x : Ready} (hx : Open t tasks x) {k : Task}
    (hk : k.IssuedFor x) (hnew : ∀ k' ∈ tasks, k'.id < k.id) : Sequenced t (tasks ++ [k]) := by
  intro k0 hk0 p q op l r hpath hq hat
  rw [List.mem_append, List.mem_singleton] at hk0
  rcases hk0 with hold | rfl
  · obtain ⟨k', hk', hbelow⟩ := h k0 hold p q op l r hpath hq hat
    exact ⟨k', List.mem_append_left _ hk', hbelow⟩
  · cases Path.text_injective (hk.path.symm.trans hpath)
    obtain ⟨k', hk', hpath', hdone, hresult⟩ := Tree.exists_done_below hx.ready hq hat
    exact ⟨k', List.mem_append_left _ hk', hpath', hnew k' hk', hdone, hresult⟩

/-- Finished tasks stay, and nobody changes the age of a task. -/
theorem Sequenced.later (h : Sequenced t tasks) (hlater : AllLater tasks tasks') :
    Sequenced t tasks' := by
  intro k hk p q op l r hpath hq hat
  obtain ⟨k0, hk0, hbecame⟩ := hlater.exists_old hk
  obtain ⟨k', hk', hpath', hid, hdone, hresult⟩ :=
    h k0 hk0 p q op l r (hbecame.path.symm.trans hpath) hq hat
  obtain ⟨k'', hk'', hbecame'⟩ := hlater.exists_new hk'
  cases hbecame'.done hdone
  exact ⟨k', hk'', hpath', by rw [hbecame.id]; exact hid, hdone, hresult⟩

end Sequenced

/-! ## All expressions -/

/-- The tasks of every expression were added in order. -/
def InOrder (s : Store) : Prop :=
  ∀ r ∈ s.expressions, ∀ t, r.Parses t → Sequenced t (s.tasksOf r.id)

section InOrder

variable {σ : Scope} {first : Int → Prop} {c : Call} {s s' : Store}

theorem inOrder_empty : InOrder .empty := by
  intro r hr
  cases hr

theorem InOrder.elsewhere (h : InOrder s) (hs : s.WellFormed) (he : Elsewhere c s s') :
    InOrder s' := by
  intro r hr t ht
  have hlater := he.meanwhile.tasks r.id
  cases he with
  | kept => exact h r hr t ht
  | moved _ hmoved =>
    rw [hmoved.expressions] at hr
    exact (h r hr t ht).later hlater
  | submitted _ _ hsubmitted =>
    obtain ⟨new, hrows, hid, -⟩ := hsubmitted.rows
    rw [hrows, List.mem_append, List.mem_singleton] at hr
    rcases hr with hr | rfl
    · exact (h r hr t ht).later hlater
    · rw [hid, hsubmitted.tasksOf_new hs]
      exact sequenced_nil t

theorem InOrder.effect (h : InOrder s) (hs : s.WellFormed) (he : Effect σ first c s s') :
    InOrder s' := by
  intro r hr t ht
  cases he with
  | read => exact h r hr t ht
  | @issued _ _ r0 t0 x k hr0 _ ht0 hx hk hid hissued =>
    rw [hissued.expressions] at hr
    by_cases heq : r.id = r0.id
    · cases hs.eq_of_id hr hr0 heq
      cases ht.unique ht0
      rw [← hid, hissued.tasksOf, hid]
      exact (h r hr t ht).issue hx hk fun k' hk' => hissued.id_lt hs hk'
    · rw [hissued.tasksOf_of_ne (hid ▸ heq)]
      exact h r hr t ht
  | marked _ _ hmarked =>
    rw [Store.tasksOf_congr hmarked.tasks]
    rcases hmarked.rows.mem_old hr with hold | rfl
    · exact h r hold t ht
    · exact h _ hmarked.rows.mem t ht

end InOrder

end Piecework
