import Piecework.Proofs.Schedule.Accounting
import Piecework.Proofs.Server.Traffic

/-!
# The dispatcher of a server with interleaved passes

The dispatcher of `Traffic` is a desk: a completion that a hand of it has, or whose pass has the
lock, is one that a worker took and is not through with.

* `Tallies.step`: one step of the traffic is one step of the desk, or leaves it as it is.
* `counts_of_quiescent`: when nothing is under way, every completion that was accepted was
  processed or has failed.
* `settle_counts`: so it is after the background work of a server.
-/

open Relation (ReflTransGen)

namespace Piecework

/-- A completion under way, with the attempts that are left. -/
def Case.open? {W : Type} (k : Case W) : Option (Int × Nat) := k.left.map (k.taskId, ·)

/-- The completion of a pass, with the attempts that are left. -/
def Errand.completion? (r : Errand) : Option (Int × Nat) :=
  match r.pass with
  | .after id => some (id, r.left)
  | .first .. | .resumed _ => none

namespace Traffic

/-- The completions that were taken and are under way. -/
def inHand (v : Traffic) : List (Int × Nat) :=
  v.hands ++ (v.running.bind Errand.completion?).toList

/-- The desk is the dispatcher of the traffic.  Its workers are as many as completions. -/
structure Tallies (d : Desk Nat) (v : Traffic) : Prop where
  dispatcher : d.dispatcher = v.server.dispatcher
  inHand : (d.cases.filterMap Case.open?).Perm v.inHand
  workers : ∀ k ∈ d.cases, k.worker < d.cases.length
  dropped : d.dropped = []

variable {d : Desk Nat} {v v' : Traffic}

/-- Nothing of what concerns the desk has changed. -/
theorem Tallies.idle (h : Tallies d v) (hdispatcher : v'.server.dispatcher = v.server.dispatcher)
    (hhand : v.inHand.Perm v'.inHand) : Tallies d v' :=
  ⟨h.dispatcher.trans hdispatcher.symm, h.inHand.trans hhand, h.workers, h.dropped⟩

theorem Tallies.notified (h : Tallies d v) (id : Int) (jobs : List Job) :
    Tallies (d.notify id) { v with
      server := { v.server with dispatcher := (v.server.dispatcher.notify id).2 }
      jobs } := by
  refine ⟨?_, h.inHand, h.workers, h.dropped⟩
  show (d.dispatcher.notify id).2 = (v.server.dispatcher.notify id).2
  rw [h.dispatcher]

/-- The worker of a completion that is taken is new. -/
theorem Tallies.taken (h : Tallies d v) {id : Int} {queue : List Int}
    (hqueue : v.server.dispatcher.queue = id :: queue) :
    ∃ d', Desk.Step d d' ∧ Tallies d' { v with
      server := { v.server with dispatcher := { v.server.dispatcher with queue } }
      hands := v.hands ++ [(id, v.server.dispatcher.attempts - 1)] } := by
  have hfree : ∀ k ∈ d.cases, k.worker = d.cases.length → k.underWay = false := by
    intro k hk hworker
    have hlt := h.workers k hk
    omega
  refine ⟨_, .take hfree (h.dispatcher ▸ hqueue), ?_, ?_, ?_, h.dropped⟩
  · show { d.dispatcher with queue } = { v.server.dispatcher with queue }
    rw [h.dispatcher]
  · show (List.filterMap Case.open? (d.cases ++ [_])).Perm
      (v.hands ++ [(id, v.server.dispatcher.attempts - 1)] ++ _)
    rw [List.filterMap_append, List.append_assoc, ← h.dispatcher]
    apply (h.inHand.append_right _).trans
    rw [Traffic.inHand, List.append_assoc]
    exact List.perm_append_comm.append_left _
  · intro k hk
    simp only [List.length_append, List.length_singleton]
    rcases List.mem_append.1 hk with hk | hk
    · have hlt := h.workers k hk
      omega
    · rw [List.mem_singleton.1 hk]
      exact Nat.lt_succ_self _

/-- The end of a pass after a completion is an attempt at it. -/
theorem Tallies.finished (h : Tallies d v) {id : Int} {left : Nat}
    {rest : Program Error ExpressionStatus} (result : Except Error ExpressionStatus)
    (hrunning : v.running = some ⟨.after id, left, rest⟩) :
    ∃ d', Desk.Step d d' ∧ Tallies d' (v.finish (.after id) left result) := by
  have hhand : (d.cases.filterMap Case.open?).Perm (v.hands ++ [(id, left)]) := by
    have hinHand := h.inHand
    rw [Traffic.inHand, hrunning] at hinHand
    exact hinHand
  have hmem : (id, left) ∈ d.cases.filterMap Case.open? := hhand.mem_iff.2 (by simp)
  obtain ⟨k, hk, hopen⟩ := List.mem_filterMap.1 hmem
  obtain ⟨left', hleft, heq⟩ := Option.map_eq_some_iff.1 hopen
  cases heq
  obtain ⟨front, back, hcases⟩ := List.append_of_mem hk
  -- the others stay in the hands that they are in
  have hothers : (front.filterMap Case.open? ++ back.filterMap Case.open?).Perm v.hands := by
    rw [hcases, List.filterMap_append, List.filterMap_cons_some hopen] at hhand
    exact List.perm_middle.symm.trans (hhand.trans List.perm_append_comm) |>.cons_inv
  refine ⟨_, .attempt result hcases hleft, ?_, ?_, ?_, h.dropped⟩
  · show { d.dispatcher with counts := d.dispatcher.counts.count (Verdict.of left result) } = _
    rw [h.dispatcher]
    rfl
  · show (List.filterMap Case.open? (front ++ k.attempted result left :: back)).Perm
      ((if Verdict.of left result = .retried then v.hands ++ [(k.taskId, left - 1)] else v.hands)
        ++ [])
    rw [List.append_nil, List.filterMap_append]
    split_ifs with hretried
    · have hagain : (k.attempted result left).open? = some (k.taskId, left - 1) := by
        simp [Case.open?, Case.attempted, hretried]
      rw [List.filterMap_cons_some hagain]
      exact List.perm_middle.trans ((hothers.cons _).trans (List.perm_append_singleton _ _).symm)
    · have hover : (k.attempted result left).open? = none := by
        simp [Case.open?, Case.attempted, hretried]
      rw [List.filterMap_cons_none hover]
      exact hothers
  · have hlength : (front ++ k.attempted result left :: back).length = d.cases.length := by
      simp [hcases]
    have hworkers := h.workers
    show ∀ k' ∈ front ++ k.attempted result left :: back, k'.worker < List.length _
    rw [hlength]
    generalize d.cases.length = n at hworkers ⊢
    rw [hcases, List.forall_mem_append, List.forall_mem_cons] at hworkers
    exact List.forall_mem_append.2 ⟨hworkers.1, List.forall_mem_cons.2 hworkers.2⟩

/-- A step of the traffic is a step of the desk, or none. -/
theorem Tallies.step (h : Tallies d v) (hstep : Step v v') :
    ∃ d', ReflTransGen Desk.Step d d' ∧ Tallies d' v' := by
  cases hstep with
  | wait | lease => exact ⟨d, .refl, h.idle rfl (.refl _)⟩
  | record submission =>
    refine ⟨d, .refl, ?_⟩
    unfold record Server.perform
    rcases v.server.site.perform (Workers.takeResult submission) with ⟨e | ⟨receipt, job⟩, site⟩
    · exact h.idle rfl (.refl _)
    · exact h.idle rfl (.refl _)
  | accept owner text =>
    refine ⟨d, .refl, ?_⟩
    unfold accept Server.perform
    rcases v.server.site.perform (Clients.submit owner text) with ⟨e | ⟨id, job⟩, site⟩
    · exact h.idle rfl (.refl _)
    · exact h.idle rfl (.refl _)
  | @answer front back job =>
    cases job with
    | schedule => exact ⟨d, .refl, h.idle rfl (.refl _)⟩
    | reschedule id => exact ⟨_, .single (.notify id), h.notified id (front ++ back)⟩
  | take hqueue =>
    obtain ⟨d', hstep, htallies⟩ := h.taken hqueue
    exact ⟨d', .single hstep, htallies⟩
  | first hidle =>
    refine ⟨d, .refl, h.idle rfl ?_⟩
    simp [Traffic.inHand, hidle, Errand.completion?]
  | @after front back id left hidle hhands =>
    refine ⟨d, .refl, h.idle rfl ?_⟩
    rw [Traffic.inHand, hidle, hhands, Option.bind_none, Option.toList_none, List.append_nil]
    show (front ++ (id, left) :: back).Perm (front ++ back ++ [(id, left)])
    exact List.perm_middle.trans (List.perm_append_singleton _ _).symm
  | proceed hrunning =>
    refine ⟨d, .refl, h.idle rfl ?_⟩
    simp [Traffic.inHand, onSite, hrunning, Errand.completion?]
  | @finish pass left result hrunning =>
    cases pass with
    | first | resumed =>
      refine ⟨d, .refl, h.idle rfl ?_⟩
      simp [Traffic.inHand, Traffic.finish, hrunning, Errand.completion?]
    | after id =>
      obtain ⟨d', hstep, htallies⟩ := h.finished result hrunning
      exact ⟨d', .single hstep, htallies⟩

theorem Tallies.run (h : Tallies d v) (hrun : ReflTransGen Step v v') :
    ∃ d', ReflTransGen Desk.Step d d' ∧ Tallies d' v' := by
  induction hrun with
  | refl => exact ⟨d, .refl, h⟩
  | tail _ hstep ih =>
    obtain ⟨d', hrun, htallies⟩ := ih
    obtain ⟨d'', hrun', htallies'⟩ := htallies.step hstep
    exact ⟨d'', hrun.trans hrun', htallies'⟩

/-- The desk has as many busy workers as there are completions under way. -/
theorem Tallies.length_busy (h : Tallies d v) : d.busy.length = v.inHand.length := by
  rw [← h.inHand.length_eq, List.length_filterMap_eq_countP, Desk.busy, List.length_map,
    ← List.countP_eq_length_filter]
  apply List.countP_congr
  intro k _
  simp [Case.open?, Case.underWay]

section Counts

variable {settings : DispatchSettings}

/-- A server whose dispatcher was just started. -/
theorem tallies_start (hdispatcher : v.server.dispatcher = .start settings) (hhands : v.hands = [])
    (hrunning : v.running = none) : Tallies (.start settings) v := by
  refine ⟨hdispatcher.symm, ?_, nofun, rfl⟩
  rw [inHand, hhands, hrunning]
  exact .refl _

/-- Every completion that was accepted was processed, or has failed, or is under way, or waits. -/
theorem counts_of_run (hdispatcher : v.server.dispatcher = .start settings) (hhands : v.hands = [])
    (hrunning : v.running = none) (hrun : ReflTransGen Step v v') :
    v'.server.dispatcher.counts.enqueued = v'.server.dispatcher.counts.processed +
      v'.server.dispatcher.counts.failed + v'.inHand.length +
        v'.server.dispatcher.queue.length := by
  obtain ⟨d, hdesk, htallies⟩ := (tallies_start hdispatcher hhands hrunning).run hrun
  have haccounts := (Desk.balanced_run hdesk).accounts.enqueued
  rw [htallies.length_busy, htallies.dropped, htallies.dispatcher] at haccounts
  exact haccounts

/-- When nothing is under way, every completion that was accepted was processed or has failed. -/
theorem counts_of_quiescent (hdispatcher : v.server.dispatcher = .start settings)
    (hhands : v.hands = []) (hrunning : v.running = none) (hrun : ReflTransGen Step v v')
    (hidle : v'.Quiescent) : v'.server.dispatcher.counts.enqueued =
      v'.server.dispatcher.counts.processed + v'.server.dispatcher.counts.failed := by
  have hcounts := counts_of_run hdispatcher hhands hrunning hrun
  have hnone : v'.inHand = [] := by
    rw [inHand, hidle.hands, hidle.running]
    rfl
  rw [hcounts, hnone, hidle.queue]
  rfl

/-- The background work of a server leaves no completion behind. -/
theorem settle_counts {server : Server} {jobs : List Job}
    (hdispatcher : v.server.dispatcher = .start settings) (hhands : v.hands = [])
    (hrunning : v.running = none) (hrun : ReflTransGen Step v ⟨server, jobs, [], none⟩) :
    server.settle.dispatcher.counts.enqueued = server.settle.dispatcher.counts.processed +
      server.settle.dispatcher.counts.failed :=
  counts_of_run hdispatcher hhands hrunning (hrun.trans (settle_run jobs server))

end Counts

end Traffic

end Piecework
