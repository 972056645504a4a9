import Mathlib.Algebra.GroupWithZero.Nat
import Mathlib.Data.List.Nodup
import Mathlib.Logic.Relation
import Piecework.Schedule.Dispatcher

/-!
# The books of the dispatcher

Any number of workers take completions from one queue, and each makes its attempts at what it has
taken, while others are queued and a shutdown may come at any time.  A `Desk` is a dispatcher with
its workers between two of these steps.  It keeps what the dispatcher does not: which completions
were accepted, which worker took which of them, what came of each attempt, and what was dropped.

* `Case.Sound` says how the attempts at one completion follow each other, and
  `Case.Sound.attempted` that one more attempt keeps it so.
* `Balanced.step` says the same of the books as a whole, one case for each kind of step.
* `run_accounts` reads off what the counters say, after any run.
-/

open Relation (ReflTransGen)

namespace Piecework

/-! ## Attempts -/

/-- An attempt that met a failure of the store. -/
def Repeatable {α : Type} (outcome : Except Error α) : Prop :=
  ∃ e, outcome = .error e ∧ e.isTransient = true

/-- An attempt is followed by another one if it met a failure of the store and another one is
allowed. -/
theorem Verdict.of_eq_retried_iff {α : Type} {left : Nat} {outcome : Except Error α} :
    Verdict.of left outcome = .retried ↔ Repeatable outcome ∧ 0 < left := by
  cases outcome with
  | ok a => simp [Verdict.of, Repeatable]
  | error e =>
    simp only [Verdict.of, Repeatable, Except.error.injEq, exists_eq_left']
    split_ifs with h <;> simp [h]

/-- What the last attempt means does not depend on how many were left. -/
theorem Verdict.of_zero_eq {α : Type} {left : Nat} {outcome : Except Error α}
    (h : Verdict.of left outcome ≠ .retried) : Verdict.of 0 outcome = Verdict.of left outcome := by
  cases outcome with
  | ok a => rfl
  | error e =>
    have hnot : ¬(e.isTransient = true ∧ 0 < left) := by
      intro hagain
      rw [Verdict.of, if_pos hagain] at h
      exact h rfl
    rw [Verdict.of, Verdict.of, if_neg hnot, if_neg (by simp)]

namespace DispatchCounts

variable (c : DispatchCounts) (verdict : Verdict)

@[simp] theorem enqueued_count : (c.count verdict).enqueued = c.enqueued := by
  cases verdict <;> rfl

theorem processed_count :
    (c.count verdict).processed = c.processed + if verdict = .processed then 1 else 0 := by
  cases verdict <;> rfl

theorem failed_count :
    (c.count verdict).failed = c.failed + if verdict = .failed then 1 else 0 := by
  cases verdict <;> rfl

/-- Each attempt is counted once. -/
theorem sum_count : (c.count verdict).processed + (c.count verdict).failed +
    (c.count verdict).retried = c.processed + c.failed + c.retried + 1 := by
  cases verdict with
  | processed | failed => show _ + _ + _ = _; simp only [count]; omega
  | retried => rfl

end DispatchCounts

/-- A completion that a worker has taken. -/
structure Case (W : Type) where
  worker : W
  taskId : Int
  /-- What came of the attempts so far. -/
  outcomes : List (Except Error ExpressionStatus)
  /-- While the worker has the completion, the attempts that are allowed behind the next one. -/
  left : Option Nat

namespace Case

variable {W : Type} {k : Case W} {attempts left : Nat} {outcome : Except Error ExpressionStatus}

/-- The worker still has the completion, or waits for another attempt at it. -/
def underWay (k : Case W) : Bool := k.left.isSome

/-- What the last attempt meant, once the worker is through. -/
def verdict? (k : Case W) : Option Verdict :=
  if k.underWay then none else k.outcomes.getLast?.map (Verdict.of 0)

/-- The worker makes an attempt. -/
def attempted (outcome : Except Error ExpressionStatus) (left : Nat) (k : Case W) : Case W :=
  { k with
    outcomes := k.outcomes ++ [outcome]
    left := if Verdict.of left outcome = .retried then some (left - 1) else none }

/-- How the attempts at a completion follow each other.  Only failures of the store are followed
by another attempt, and only as long as there are attempts left. -/
inductive Sound (attempts : Nat) : Case W → Prop
  | underWay {worker : W} {taskId : Int} {outcomes : List (Except Error ExpressionStatus)}
      {left : Nat} : (∀ outcome ∈ outcomes, Repeatable outcome) →
      outcomes.length + left + 1 = attempts → Sound attempts ⟨worker, taskId, outcomes, some left⟩
  | through {worker : W} {taskId : Int} {earlier : List (Except Error ExpressionStatus)}
      {last : Except Error ExpressionStatus} : (∀ outcome ∈ earlier, Repeatable outcome) →
      earlier.length < attempts → (Repeatable last → earlier.length + 1 = attempts) →
      Sound attempts ⟨worker, taskId, earlier ++ [last], none⟩

/-- The verdict on an attempt that is not repeated is the verdict on the completion. -/
theorem verdict?_attempted : (k.attempted outcome left).verdict? =
    if Verdict.of left outcome = .retried then none else some (Verdict.of left outcome) := by
  unfold verdict? underWay attempted
  by_cases h : Verdict.of left outcome = .retried
  · simp [h]
  · simp [h, Verdict.of_zero_eq h]

/-- One more attempt. -/
theorem Sound.attempted (h : k.Sound attempts) (hleft : k.left = some left)
    (outcome : Except Error ExpressionStatus) : (k.attempted outcome left).Sound attempts := by
  cases h with
  | through => cases hleft
  | @underWay worker taskId outcomes left' hrepeatable hlength =>
    cases hleft
    unfold Case.attempted
    split_ifs with hretried
    · rw [Verdict.of_eq_retried_iff] at hretried
      apply Sound.underWay
      · intro other hother
        rcases List.mem_append.1 hother with hother | hother
        · exact hrepeatable other hother
        · rw [List.mem_singleton.1 hother]
          exact hretried.1
      · show (outcomes ++ [outcome]).length + (left - 1) + 1 = attempts
        rw [List.length_append, List.length_singleton]
        omega
    · rw [Verdict.of_eq_retried_iff, not_and] at hretried
      apply Sound.through hrepeatable
      · omega
      · intro hlast
        have hnone := hretried hlast
        omega

theorem Sound.length_le (h : k.Sound attempts) : k.outcomes.length ≤ attempts := by
  cases h with
  | @underWay worker taskId outcomes left' _ hlength =>
    show outcomes.length ≤ attempts
    omega
  | @through worker taskId earlier last _ hlength =>
    show (earlier ++ [last]).length ≤ attempts
    rw [List.length_append, List.length_singleton]
    omega

/-- Every attempt behind which there is another one met a failure of the store. -/
theorem Sound.repeatable (h : k.Sound attempts) :
    ∀ outcome ∈ k.outcomes.dropLast, Repeatable outcome := by
  intro outcome houtcome
  cases h with
  | underWay hrepeatable => exact hrepeatable outcome ((List.dropLast_sublist _).subset houtcome)
  | through hrepeatable =>
    rw [List.dropLast_concat] at houtcome
    exact hrepeatable outcome houtcome

/-- A completion is under way, or was processed, or has failed. -/
theorem Sound.cases (h : k.Sound attempts) :
    (k.underWay = true ∧ k.verdict? = none) ∨
      k.underWay = false ∧ (k.verdict? = some .processed ∨ k.verdict? = some .failed) := by
  cases h with
  | underWay => exact .inl ⟨rfl, rfl⟩
  | @through worker taskId earlier last =>
    refine .inr ⟨rfl, ?_⟩
    have hlast : verdict? ⟨worker, taskId, earlier ++ [last], none⟩ = some (Verdict.of 0 last) := by
      simp [verdict?, Case.underWay]
    rw [hlast]
    cases last <;> simp [Verdict.of]

end Case

/-! ## Desks -/

/-- A dispatcher with its workers. -/
structure Desk (W : Type) where
  dispatcher : Dispatcher
  /-- The completions that were accepted, the oldest first. -/
  accepted : List Int
  /-- Those that were taken, in the same order. -/
  cases : List (Case W)
  /-- Those that a shutdown has dropped. -/
  dropped : List Int

namespace Desk

variable {W : Type} {d d' : Desk W} {settings : DispatchSettings}

/-- Nothing was accepted yet. -/
def start (settings : DispatchSettings) : Desk W := ⟨.start settings, [], [], []⟩

/-- The dispatcher is told of a completion. -/
def notify (id : Int) (d : Desk W) : Desk W :=
  { d with
    dispatcher := (d.dispatcher.notify id).2
    accepted := if (d.dispatcher.notify id).1 then d.accepted ++ [id] else d.accepted }

/-- One step.  A shutdown comes in two steps, since a worker may take something from the queue
before what waits there is dropped. -/
inductive Step : Desk W → Desk W → Prop
  | notify {d : Desk W} (id : Int) : Step d (d.notify id)
  /-- A worker that has nothing to do takes the oldest completion from the queue. -/
  | take {d : Desk W} {worker : W} {id : Int} {queue : List Int} :
      (∀ k ∈ d.cases, k.worker = worker → k.underWay = false) →
      d.dispatcher.queue = id :: queue →
      Step d { d with
        dispatcher := { d.dispatcher with queue }
        cases := d.cases ++ [⟨worker, id, [], some (d.dispatcher.attempts - 1)⟩] }
  /-- A worker makes an attempt, whatever comes of it. -/
  | attempt {d : Desk W} {front back : List (Case W)} {k : Case W} {left : Nat}
      (outcome : Except Error ExpressionStatus) :
      d.cases = front ++ k :: back → k.left = some left →
      Step d { d with
        dispatcher := { d.dispatcher with
          counts := d.dispatcher.counts.count (Verdict.of left outcome) }
        cases := front ++ k.attempted outcome left :: back }
  | close {d : Desk W} : Step d { d with dispatcher := { d.dispatcher with closed := true } }
  | drop {d : Desk W} : d.dispatcher.closed = true →
      Step d { d with
        dispatcher := { d.dispatcher with queue := [] }
        dropped := d.dropped ++ d.dispatcher.queue }

/-- Both steps of a shutdown. -/
theorem shutdown_run (d : Desk W) : ReflTransGen Step d
    { d with dispatcher := d.dispatcher.shutdown, dropped := d.dropped ++ d.dispatcher.queue } :=
  (ReflTransGen.single .close).tail (.drop rfl)

/-! ## The books are kept -/

/-- How many completions were processed, or how many have failed. -/
def ended (verdict : Verdict) (d : Desk W) : Nat :=
  d.cases.countP fun k => k.verdict? = some verdict

/-- The attempts that were made, at all completions. -/
def made (d : Desk W) : Nat := (d.cases.map fun k => k.outcomes.length).sum

/-- The workers that have something to do. -/
def busy (d : Desk W) : List W := (d.cases.filter Case.underWay).map Case.worker

/-- The books of a desk. -/
structure Balanced (d : Desk W) : Prop where
  sound : ∀ k ∈ d.cases, k.Sound d.dispatcher.attempts
  accepted : d.accepted = d.cases.map Case.taskId ++ (d.dropped ++ d.dispatcher.queue)
  dropped : d.dropped = [] ∨ d.dispatcher.closed = true ∧ d.dispatcher.queue = []
  busy : d.busy.Nodup
  enqueued : d.dispatcher.counts.enqueued = d.accepted.length
  processed : d.dispatcher.counts.processed = d.ended .processed
  failed : d.dispatcher.counts.failed = d.ended .failed
  made : d.made = d.dispatcher.counts.processed + d.dispatcher.counts.failed +
    d.dispatcher.counts.retried

theorem balanced_start : (start settings : Desk W).Balanced where
  sound := nofun
  accepted := rfl
  dropped := .inl rfl
  busy := .nil
  enqueued := rfl
  processed := rfl
  failed := rfl
  made := rfl

theorem notify_of_closed (h : d.dispatcher.closed = true) (id : Int) : d.notify id = d := by
  simp [Desk.notify, Dispatcher.notify, h]

theorem notify_of_open (h : d.dispatcher.closed = false) (id : Int) : d.notify id = { d with
    dispatcher := { d.dispatcher with
      queue := d.dispatcher.queue ++ [id]
      counts := { d.dispatcher.counts with enqueued := d.dispatcher.counts.enqueued + 1 } }
    accepted := d.accepted ++ [id] } := by
  simp [Desk.notify, Dispatcher.notify, h]

theorem Balanced.notified (h : d.Balanced) (id : Int) : (d.notify id).Balanced := by
  cases hclosed : d.dispatcher.closed with
  | true =>
    rw [notify_of_closed hclosed]
    exact h
  | false =>
    have hdropped : d.dropped = [] := by
      apply h.dropped.resolve_right
      rw [hclosed]
      simp
    rw [notify_of_open hclosed]
    refine { h with accepted := ?_, dropped := .inl hdropped, enqueued := ?_ }
    · show d.accepted ++ [id] =
        d.cases.map Case.taskId ++ (d.dropped ++ (d.dispatcher.queue ++ [id]))
      simp [h.accepted]
    · show d.dispatcher.counts.enqueued + 1 = (d.accepted ++ [id]).length
      simp [h.enqueued]

/-- A completion was taken. -/
theorem Balanced.taken (h : d.Balanced) {worker : W} {id : Int} {queue : List Int}
    (hfree : ∀ k ∈ d.cases, k.worker = worker → k.underWay = false)
    (hqueue : d.dispatcher.queue = id :: queue) :
    Balanced { d with
      dispatcher := { d.dispatcher with queue }
      cases := d.cases ++ [⟨worker, id, [], some (d.dispatcher.attempts - 1)⟩] } := by
  have hdropped : d.dropped = [] := by
    apply h.dropped.resolve_right
    rw [hqueue]
    simp
  have hattempts : 0 < d.dispatcher.attempts := by
    unfold Dispatcher.attempts
    omega
  refine { h with
    sound := ?_, accepted := ?_, dropped := .inl hdropped, busy := ?_, processed := ?_,
    failed := ?_, made := ?_ }
  · intro k hk
    rcases List.mem_append.1 hk with hk | hk
    · exact h.sound k hk
    · rw [List.mem_singleton.1 hk]
      apply Case.Sound.underWay (by simp)
      show 0 + (d.dispatcher.attempts - 1) + 1 = d.dispatcher.attempts
      omega
  · rw [h.accepted, hqueue, hdropped]
    simp
  · have hnot : worker ∉ d.busy := by
      intro hmem
      obtain ⟨k, hk, hworker⟩ := List.mem_map.1 hmem
      obtain ⟨hk, hbusy⟩ := List.mem_filter.1 hk
      rw [hfree k hk hworker] at hbusy
      cases hbusy
    have hbusy := h.busy
    unfold Desk.busy at hnot hbusy ⊢
    rw [List.filter_append, List.map_append]
    refine List.nodup_append.2 ⟨hbusy, List.nodup_singleton worker, ?_⟩
    intro w hw w' hw' heq
    rw [heq, List.mem_singleton.1 hw'] at hw
    exact hnot hw
  · rw [h.processed]
    simp [ended, Case.verdict?, Case.underWay]
  · rw [h.failed]
    simp [ended, Case.verdict?, Case.underWay]
  · rw [← h.made]
    simp [Desk.made]

section Attempt

variable {front back : List (Case W)} {k : Case W} {left : Nat}

/-- A completion counts from now on if it gets no further attempt. -/
theorem ended_attempted (hcases : d.cases = front ++ k :: back) (hleft : k.left = some left)
    (outcome : Except Error ExpressionStatus) {verdict : Verdict} (hverdict : verdict ≠ .retried) :
    Desk.ended verdict { d with cases := front ++ k.attempted outcome left :: back } =
      d.ended verdict + if Verdict.of left outcome = verdict then 1 else 0 := by
  have hnone : k.verdict? = none := by simp [Case.verdict?, Case.underWay, hleft]
  unfold ended
  rw [hcases, List.countP_append, List.countP_append, List.countP_cons, List.countP_cons, hnone,
    Case.verdict?_attempted]
  by_cases hretried : Verdict.of left outcome = .retried
  · simp [hretried, hverdict.symm]
  · simp [hretried, Nat.add_assoc]

/-- The worker is as busy as before, or free. -/
theorem busy_attempted (hcases : d.cases = front ++ k :: back) (hleft : k.left = some left)
    (outcome : Except Error ExpressionStatus) :
    (Desk.busy { d with cases := front ++ k.attempted outcome left :: back }).Sublist d.busy := by
  have hunderWay : k.underWay = true := by
    rw [Case.underWay, hleft]
    rfl
  unfold Desk.busy
  rw [hcases, List.filter_append, List.filter_append, List.map_append, List.map_append,
    List.filter_cons_of_pos hunderWay]
  apply List.Sublist.append (List.Sublist.refl _)
  cases hagain : (k.attempted outcome left).underWay with
  | true =>
    rw [List.filter_cons_of_pos hagain]
    exact List.Sublist.refl _
  | false =>
    rw [List.filter_cons_of_neg (by simp [hagain])]
    exact List.sublist_cons_self _ _

/-- An attempt was made. -/
theorem Balanced.tried (h : d.Balanced) (outcome : Except Error ExpressionStatus)
    (hcases : d.cases = front ++ k :: back) (hleft : k.left = some left) :
    Balanced { d with
      dispatcher := { d.dispatcher with
        counts := d.dispatcher.counts.count (Verdict.of left outcome) }
      cases := front ++ k.attempted outcome left :: back } := by
  refine { h with
    sound := ?_, accepted := ?_, busy := ?_, enqueued := ?_, processed := ?_, failed := ?_,
    made := ?_ }
  · have hsound := h.sound
    rw [hcases, List.forall_mem_append, List.forall_mem_cons] at hsound
    obtain ⟨hfront, hk, hback⟩ := hsound
    exact List.forall_mem_append.2
      ⟨hfront, List.forall_mem_cons.2 ⟨hk.attempted hleft outcome, hback⟩⟩
  · rw [h.accepted, hcases]
    simp [Case.attempted]
  · exact h.busy.sublist (busy_attempted hcases hleft outcome)
  · rw [DispatchCounts.enqueued_count]
    exact h.enqueued
  · rw [DispatchCounts.processed_count, h.processed]
    exact (ended_attempted hcases hleft outcome (by simp)).symm
  · rw [DispatchCounts.failed_count, h.failed]
    exact (ended_attempted hcases hleft outcome (by simp)).symm
  · rw [DispatchCounts.sum_count, ← h.made]
    simp only [Desk.made, hcases]
    simp [Case.attempted]
    omega

end Attempt

/-- Every step keeps the books. -/
theorem Balanced.step (h : d.Balanced) (hstep : Step d d') : d'.Balanced := by
  cases hstep with
  | notify id => exact h.notified id
  | take hfree hqueue => exact h.taken hfree hqueue
  | attempt outcome hcases hleft => exact h.tried outcome hcases hleft
  | close => exact { h with dropped := h.dropped.imp_right fun hdropped => ⟨rfl, hdropped.2⟩ }
  | drop hclosed =>
    refine { h with accepted := ?_, dropped := .inr ⟨hclosed, rfl⟩ }
    show d.accepted = d.cases.map Case.taskId ++ (d.dropped ++ d.dispatcher.queue ++ [])
    rw [h.accepted, List.append_nil]

theorem balanced_run (h : ReflTransGen Step (start settings) d) : d.Balanced := by
  induction h with
  | refl => exact balanced_start
  | tail _ hstep ih => exact ih.step hstep

/-! ## What the counters say -/

/-- The settings stay as they are. -/
theorem settings_run (h : ReflTransGen Step d d') :
    d'.dispatcher.settings = d.dispatcher.settings := by
  induction h with
  | refl => rfl
  | tail _ hstep ih =>
    rw [← ih]
    cases hstep with
    | notify id =>
      unfold Desk.notify Dispatcher.notify
      split_ifs <;> rfl
    | _ => rfl

/-- A dispatcher that was shut down stays so and accepts nothing. -/
theorem closed_run (h : ReflTransGen Step d d') (hclosed : d.dispatcher.closed = true) :
    d'.dispatcher.closed = true ∧ d'.accepted = d.accepted := by
  induction h with
  | refl => exact ⟨hclosed, rfl⟩
  | tail _ hstep ih =>
    obtain ⟨hclosed', haccepted⟩ := ih
    cases hstep with
    | notify id =>
      rw [notify_of_closed hclosed']
      exact ⟨hclosed', haccepted⟩
    | close => exact ⟨rfl, haccepted⟩
    | _ => exact ⟨hclosed', haccepted⟩

/-- Every completion that was taken is under way, or it ended in one of two ways. -/
theorem Balanced.length_cases (h : d.Balanced) :
    d.cases.length = d.ended .processed + d.ended .failed + d.busy.length := by
  have hsound := h.sound
  unfold ended Desk.busy
  rw [List.length_map, ← List.countP_eq_length_filter]
  generalize d.cases = cases at hsound
  induction cases with
  | nil => rfl
  | cons k cases ih =>
    have hrest := ih fun k' hk' => hsound k' (List.mem_cons_of_mem k hk')
    rw [List.length_cons, List.countP_cons, List.countP_cons, List.countP_cons, hrest]
    rcases (hsound k List.mem_cons_self).cases with ⟨hbusy, hverdict⟩ | ⟨hfree, hverdict | hverdict⟩
    · simp [hbusy, hverdict]
      omega
    · simp [hfree, hverdict]
      omega
    · simp [hfree, hverdict]
      omega

/-- What the books of a dispatcher say, when a completion gets so many attempts. -/
structure Accounts (attempts : Nat) (d : Desk W) : Prop where
  /-- What was accepted was taken in turn, each completion by one worker, or it was dropped, or it
  waits. -/
  accepted : d.accepted = d.cases.map Case.taskId ++ (d.dropped ++ d.dispatcher.queue)
  dropped : d.dispatcher.closed = false → d.dropped = []
  /-- A worker has one completion at a time. -/
  busy : d.busy.Nodup
  length_le : ∀ k ∈ d.cases, k.outcomes.length ≤ attempts
  /-- After a success, or a failure of another kind than the store's, there is no other attempt. -/
  repeatable : ∀ k ∈ d.cases, ∀ outcome ∈ k.outcomes.dropLast, Repeatable outcome
  /-- A completion that a worker is through with was processed or has failed. -/
  ended : ∀ k ∈ d.cases, k.underWay = false →
    k.verdict? = some .processed ∨ k.verdict? = some .failed
  processed : d.dispatcher.counts.processed = d.ended .processed
  failed : d.dispatcher.counts.failed = d.ended .failed
  made : d.made = d.dispatcher.counts.processed + d.dispatcher.counts.failed +
    d.dispatcher.counts.retried
  enqueued : d.dispatcher.counts.enqueued = d.dispatcher.counts.processed +
    d.dispatcher.counts.failed + d.busy.length + (d.dispatcher.queue.length + d.dropped.length)

theorem Balanced.accounts (h : d.Balanced) : d.Accounts d.dispatcher.attempts where
  accepted := h.accepted
  dropped hopen := h.dropped.resolve_right fun hnot => by simp [hopen] at hnot
  busy := h.busy
  length_le k hk := (h.sound k hk).length_le
  repeatable k hk := (h.sound k hk).repeatable
  ended k hk hover := by
    rcases (h.sound k hk).cases with ⟨hbusy, -⟩ | ⟨-, hverdict⟩
    · rw [hover] at hbusy
      cases hbusy
    · exact hverdict
  processed := h.processed
  failed := h.failed
  made := h.made
  enqueued := by
    rw [h.enqueued, h.processed, h.failed, ← h.length_cases, h.accepted]
    simp only [List.length_append, List.length_map]
    omega

/-- After any run the books are in order.  When no completion is under way, every one that was
accepted was processed, or has failed, or waits, or was dropped.  Once the dispatcher is closed,
nothing is accepted any more. -/
theorem run_accounts (h : ReflTransGen Step (start settings) d) :
    d.Accounts (max 1 settings.maxAttempts) ∧
      (d.busy = [] → d.dispatcher.counts.enqueued = d.dispatcher.counts.processed +
        d.dispatcher.counts.failed + (d.dispatcher.queue.length + d.dropped.length)) ∧
      (d.dispatcher.closed = true → ∀ d', ReflTransGen Step d d' → d'.accepted = d.accepted ∧
        d'.dispatcher.counts.enqueued = d.dispatcher.counts.enqueued) := by
  have hbalanced := balanced_run h
  have haccounts := hbalanced.accounts
  have hattempts : d.dispatcher.attempts = max 1 settings.maxAttempts := by
    rw [Dispatcher.attempts, settings_run h]
    rfl
  rw [hattempts] at haccounts
  refine ⟨haccounts, ?_, ?_⟩
  · intro hidle
    rw [haccounts.enqueued, hidle, List.length_nil, Nat.add_zero]
  · intro hclosed d' hrun
    have haccepted := (closed_run hrun hclosed).2
    refine ⟨haccepted, ?_⟩
    rw [(balanced_run (h.trans hrun)).enqueued, haccepted, hbalanced.enqueued]

/-- Two workers.  The first one needs a second attempt, and makes it after the shutdown, which
drops a third completion. -/
theorem shutdown_accounts : ∃ d : Desk Bool, ReflTransGen Step (start ⟨2, 2, 0⟩) d ∧
    d.dispatcher.closed = true ∧ d.dispatcher.counts = ⟨3, 1, 1, 1⟩ ∧ d.dropped = [9] ∧
    d.busy = [] ∧ d.Accounts 2 := by
  have hqueued : ReflTransGen Step (start ⟨2, 2, 0⟩ : Desk Bool)
      ⟨⟨⟨2, 2, 0⟩, [7, 8, 9], false, ⟨3, 0, 0, 0⟩⟩, [7, 8, 9], [], []⟩ :=
    ((ReflTransGen.single (.notify 7)).tail (.notify 8)).tail (.notify 9)
  have htaken : ReflTransGen Step (start ⟨2, 2, 0⟩ : Desk Bool)
      ⟨⟨⟨2, 2, 0⟩, [9], false, ⟨3, 0, 0, 0⟩⟩, [7, 8, 9],
        [⟨true, 7, [], some 1⟩, ⟨false, 8, [], some 1⟩], []⟩ :=
    (hqueued.tail (@Step.take Bool _ true 7 [8, 9] nofun rfl)).tail
      (@Step.take Bool _ false 8 [9] (by simp) rfl)
  let refused : Except Error ExpressionStatus := .error (.store (.query "disk I/O error"))
  have hretried := htaken.tail (@Step.attempt Bool _ [] _ _ _ refused rfl rfl)
  have hclosed := hretried.tail .close
  have hprocessed := hclosed.tail (@Step.attempt Bool _ [] _ _ _ (.ok .inProgress) rfl rfl)
  have hfailed := hprocessed.tail
    (@Step.attempt Bool _ [_] _ _ _ (.error (.notFound .task 8)) rfl rfl)
  have hrun := hfailed.tail (.drop rfl)
  exact ⟨_, hrun, rfl, rfl, rfl, rfl, (run_accounts hrun).1⟩

end Desk

end Piecework
