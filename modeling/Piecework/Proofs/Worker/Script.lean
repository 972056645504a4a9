import Mathlib.Algebra.GroupWithZero.Nat
import Piecework.Proofs.Worker.Agenda
import Piecework.Worker.Script

/-!
# Scripts are played to their end

Agents that a script is played to stop by themselves: the turns that are allowed for are enough, so
more of them would change nothing (`play_eq_run`).  When the sign to stop was not up at first, every
reply of the script was given, with one more question for the sign, and the tasks in the replies are
those that were submitted, each with its outcome (`play_accounts`).

`Played` says once what a turn can do, and `Accounts` is what it keeps.  A turn uses up a reply, a
task in hand, the sign or an agent, and `potential` counts what is left of them.
-/

namespace Piecework

open Agent (Stage)

/-- What a submission says of which task. -/
def Submission.told (s : Submission) : Int × Option Outcome := (s.taskId, s.outcome)

/-- What is to be said of a task. -/
def Assignment.told (a : Assignment) : Int × Option Outcome := (a.id, some a.outcome)

/-- The task in a reply. -/
def TaskReply.task? : Except Error TaskReply → Option Assignment
  | .ok (.task a) => some a
  | .ok (.noTask _) | .error _ => none

/-- Whether it was a question for a task. -/
def Asked.isQuestion : Asked → Bool
  | .task _ => true
  | .submission _ => false

/-- The submission that it was. -/
def Asked.submission? : Asked → Option Submission
  | .task _ => none
  | .submission s => some s

/-- The submission that an agent is about to make. -/
def Agent.Stage.submission? (agent : String) : Stage → Option Submission
  | .asking => none
  | .holding a => some (a.submission agent)

namespace Script

/-! ## A turn -/

/-- How many questions there were. -/
def questions (log : List Logged) : Nat := log.countP fun l => l.asked.isQuestion

/-- All submissions. -/
def submissions (log : List Logged) : List Submission := log.filterMap fun l => l.asked.submission?

/-- The tasks that replies bring. -/
def tasks (replies : List (Except Error TaskReply)) : List Assignment :=
  replies.filterMap TaskReply.task?

/-- The submissions that agents are about to make. -/
def inHand (due : List (String × Stage)) : List Submission :=
  due.filterMap fun turn => turn.2.submission? turn.1

/-- All that the turn of the first agent can do. -/
inductive Played : List (String × Stage) → Script → List (String × Stage) → Script → Prop
  /-- The agent sees the sign. -/
  | left {agent : String} {others : List (String × Stage)} {s : Script} :
      s.stopped = true → Played ((agent, .asking) :: others) s others s
  | taken {agent : String} {others : List (String × Stage)} {s : Script} {a : Assignment}
      {rest : List (Except Error TaskReply)} :
      s.stopped = false → s.replies = .ok (.task a) :: rest →
      Played ((agent, .asking) :: others) s ((agent, .holding a) :: others)
        { s.record (.task agent) with replies := rest }
  /-- There was no task, or the question failed. -/
  | rested {agent : String} {others : List (String × Stage)} {s : Script}
      {reply : Except Error TaskReply} {rest : List (Except Error TaskReply)} :
      s.stopped = false → s.replies = reply :: rest → TaskReply.task? reply = none →
      Played ((agent, .asking) :: others) s ((agent, .asking) :: others)
        { s.record (.task agent) with replies := rest }
  /-- There were no more replies, so the sign is raised. -/
  | ended {agent : String} {others : List (String × Stage)} {s : Script} :
      s.stopped = false → s.replies = [] →
      Played ((agent, .asking) :: others) s ((agent, .asking) :: others)
        { s.record (.task agent) with stopped := true }
  | submitted {agent : String} {others : List (String × Stage)} {s : Script} {a : Assignment}
      (receipts : List (Except Error Receipt)) :
      Played ((agent, .holding a) :: others) s ((agent, .asking) :: others)
        { s.record (.submission (a.submission agent)) with receipts }

/-- The turn of the agent that is due first. -/
theorem played_next {g : Agenda (String × Stage)} (errorBackoff : Nat) (s : Script)
    (h : g.due ≠ []) :
    ∃ waited due', Played g.due { s with waited } due'
        (Agent.next peer errorBackoff (g, s)).2 ∧
      (Agent.next peer errorBackoff (g, s)).1.due.Perm due' := by
  cases hnext : g.next? with
  | none => exact absurd (Agenda.next?_eq_none_iff.1 hnext) h
  | some taken =>
    obtain ⟨⟨agent, stage⟩, later⟩ := taken
    obtain ⟨replies, receipts, stopped, waited, log⟩ := s
    refine ⟨waited + (later.now - g.now), ?_⟩
    rw [Agenda.due_of_next? hnext, Agent.next, hnext]
    simp only [peer, Agent.turn, getTask, submit, record]
    cases stage with
    | asking =>
      cases stopped with
      | true => exact ⟨_, .left rfl, .refl _⟩
      | false =>
        rcases replies with _ | ⟨(error | a | pause), rest⟩
        · exact ⟨_, .ended rfl rfl, later.due_after _ _⟩
        · exact ⟨_, .rested rfl rfl rfl, later.due_after _ _⟩
        · exact ⟨_, .taken rfl rfl, later.due_after _ _⟩
        · exact ⟨_, .rested rfl rfl rfl, later.due_after _ _⟩
    | holding a =>
      -- whatever the receipt is, the agent asks again
      rcases receipts with _ | ⟨_ | _, rest⟩ <;>
        exact ⟨_, .submitted _, later.due_after _ _⟩

/-! ## What turns use up -/

/-- The turns that an agent needs until it looks for the sign and sees it. -/
def toGo : Stage → Nat
  | .asking => 1
  | .holding _ => 2

/-- The turns that are left: two for each reply, those of the agents, and one for the sign. -/
def potential (due : List (String × Stage)) (s : Script) : Nat :=
  2 * s.replies.length + (due.map fun turn => toGo turn.2).sum + (!s.stopped).toNat

section Played

variable {due due' : List (String × Stage)} {s s' : Script}

theorem potential_perm (h : due.Perm due') : potential due s = potential due' s := by
  rw [potential, (h.map _).sum_nat, potential]

theorem Played.potential_lt (h : Played due s due' s') : potential due' s' < potential due s := by
  cases h with
  | left =>
    simp only [potential, List.map_cons, List.sum_cons, toGo]
    omega
  | taken hstopped hreplies | rested hstopped hreplies =>
    simp only [potential, List.map_cons, List.sum_cons, toGo, record, hreplies, List.length_cons]
    omega
  | ended hstopped hreplies => simp [potential, record, hstopped, hreplies]
  | submitted =>
    simp only [potential, List.map_cons, List.sum_cons, toGo, record]
    omega

/-! ## What turns keep -/

/-- What was asked and submitted so far, and what is still to come. -/
structure Accounts (replies : List (Except Error TaskReply)) (due : List (String × Stage))
    (s : Script) : Prop where
  questions : questions s.log + s.replies.length + (!s.stopped).toNat = replies.length + 1
  /-- The tasks of the replies are submitted, in hand, or to come. -/
  told : ((submissions s.log ++ inHand due).map Submission.told ++
    (tasks s.replies).map Assignment.told).Perm ((tasks replies).map Assignment.told)
  /-- The sign is raised when there are no more replies. -/
  ended : s.stopped = true → s.replies = []
  /-- Nobody leaves before. -/
  staffed : s.stopped = false → due ≠ []

theorem Accounts.perm {replies : List (Except Error TaskReply)} (h : Accounts replies due s)
    (hperm : due.Perm due') : Accounts replies due' s where
  questions := h.questions
  told := (((hperm.filterMap _).append_left _).map _ |>.append_right _).symm.trans h.told
  ended := h.ended
  staffed hstopped := by
    rintro rfl
    exact h.staffed hstopped hperm.eq_nil

/-- It does not matter how long the agents have waited. -/
theorem Accounts.waited {replies : List (Except Error TaskReply)} (h : Accounts replies due s)
    (waited : Nat) : Accounts replies due { s with waited } :=
  ⟨h.questions, h.told, h.ended, h.staffed⟩

theorem questions_record (asked : Asked) (s : Script) :
    questions (s.record asked).log = questions s.log + asked.isQuestion.toNat := by
  rw [record, questions, List.countP_append, List.countP_singleton, questions]
  cases asked <;> rfl

theorem submissions_record (asked : Asked) (s : Script) :
    submissions (s.record asked).log = submissions s.log ++ asked.submission?.toList := by
  rw [record, submissions, List.filterMap_append, submissions]
  cases asked <;> rfl

theorem questions_task (agent : String) (s : Script) :
    questions (s.record (.task agent)).log = questions s.log + 1 :=
  questions_record _ s

/-- A question submits nothing. -/
theorem submissions_task (agent : String) (s : Script) :
    submissions (s.record (.task agent)).log = submissions s.log := by
  rw [submissions_record, Asked.submission?, Option.toList_none, List.append_nil]

theorem Played.accounts {replies : List (Except Error TaskReply)} (h : Played due s due' s')
    (haccounts : Accounts replies due s) : Accounts replies due' s' := by
  obtain ⟨hquestions, htold, hended, hstaffed⟩ := haccounts
  cases h with
  | left hstopped =>
    exact ⟨hquestions, htold, hended, fun hdown => absurd (hdown.symm.trans hstopped) (by decide)⟩
  | @taken agent others s a rest hstopped hreplies =>
    rw [hreplies] at hquestions htold
    rw [List.length_cons] at hquestions
    refine ⟨?_, ?_, fun hup => absurd (hup.symm.trans hstopped) (by decide), fun _ => nofun⟩
    · show questions (s.record (.task agent)).log + rest.length + (!s.stopped).toNat = _
      rw [questions_task]
      omega
    · -- the task goes from the replies to the hands
      refine List.Perm.trans ?_ htold
      show ((submissions (s.record (.task agent)).log ++ a.submission agent :: inHand others).map
        Submission.told ++ (tasks rest).map Assignment.told).Perm
        ((submissions s.log ++ inHand others).map Submission.told ++
          a.told :: (tasks rest).map Assignment.told)
      rw [submissions_task, List.map_append, List.map_append, List.map_cons, List.append_assoc,
        List.append_assoc]
      exact List.perm_middle.symm.append_left _
  | @rested agent others s reply rest hstopped hreplies hnone =>
    rw [hreplies] at hquestions htold
    rw [List.length_cons] at hquestions
    refine ⟨?_, ?_, fun hup => absurd (hup.symm.trans hstopped) (by decide), fun _ => nofun⟩
    · show questions (s.record (.task agent)).log + rest.length + (!s.stopped).toNat = _
      rw [questions_task]
      omega
    · rw [tasks, List.filterMap_cons_none hnone] at htold
      show ((submissions (s.record (.task agent)).log ++ inHand others).map Submission.told ++
        (tasks rest).map Assignment.told).Perm _
      rw [submissions_task]
      exact htold
  | @ended agent others s hstopped hreplies =>
    rw [hstopped] at hquestions
    refine ⟨?_, ?_, fun _ => hreplies, nofun⟩
    · show questions (s.record (.task agent)).log + s.replies.length + 0 = _
      rw [questions_task]
      exact (Nat.add_right_comm _ 1 _).trans hquestions
    · show ((submissions (s.record (.task agent)).log ++ inHand others).map Submission.told ++
        (tasks s.replies).map Assignment.told).Perm _
      rw [submissions_task]
      exact htold
  | @submitted agent others s a receipts =>
    refine ⟨?_, ?_, hended, fun _ => nofun⟩
    · show questions (s.record (.submission (a.submission agent))).log + s.replies.length +
        (!s.stopped).toNat = _
      rw [questions_record]
      exact hquestions
    · -- the task goes from the hands to the submissions
      show ((submissions (s.record (.submission (a.submission agent))).log ++ inHand others).map
        Submission.told ++ (tasks s.replies).map Assignment.told).Perm _
      rw [submissions_record, Asked.submission?, Option.toList_some, List.append_assoc]
      exact htold

end Played

/-! ## The end of a script -/

section Play

variable (agents : List String) (errorBackoff : Nat)

/-- The agents with nothing in their hands. -/
def crew (agents : List String) : List (String × Stage) := agents.map (·, .asking)

theorem potential_crew (s : Script) : potential (crew agents) s ≤ s.turns agents := by
  have hsum : ((crew agents).map fun turn => toGo turn.2).sum = agents.length := by
    simp [crew, toGo, Function.comp_def]
  have hsign := Bool.toNat_le (!s.stopped)
  rw [potential, turns, hsum]
  omega

/-- A turn uses something up. -/
theorem potential_next {x : Agenda (String × Stage) × Script} (h : x.1.due ≠ []) :
    potential (Agent.next peer errorBackoff x).1.due (Agent.next peer errorBackoff x).2 <
      potential x.1.due x.2 := by
  obtain ⟨waited, due', hplayed, hperm⟩ := played_next errorBackoff x.2 h
  rw [potential_perm hperm]
  exact hplayed.potential_lt

theorem next_of_due_eq_nil {x : Agenda (String × Stage) × Script} (h : x.1.due = []) :
    Agent.next peer errorBackoff x = x := by
  rw [Agent.next, Agenda.next?_eq_none_iff.2 h]

theorem Accounts.next {replies : List (Except Error TaskReply)}
    {x : Agenda (String × Stage) × Script} (h : Accounts replies x.1.due x.2)
    (hdue : x.1.due ≠ []) :
    Accounts replies (Agent.next peer errorBackoff x).1.due
      (Agent.next peer errorBackoff x).2 := by
  obtain ⟨waited, due', hplayed, hperm⟩ := played_next errorBackoff x.2 hdue
  exact (hplayed.accounts (h.waited waited)).perm hperm.symm

/-- The agents and the script after so many turns. -/
def after (n : Nat) (s : Script) : Agenda (String × Stage) × Script :=
  (Agent.next peer errorBackoff)^[n] (.ofList (crew agents), s)

theorem run_eq_after (n : Nat) (s : Script) :
    Agent.run peer errorBackoff agents n s = (after agents errorBackoff n s).2 :=
  Agent.work_eq_iterate peer errorBackoff n _ s

/-- After the turns that a script allows for all agents have stopped.  What every turn keeps is
still so. -/
theorem after_turns (Inv : Agenda (String × Stage) × Script → Prop)
    (hstep : ∀ x, Inv x → x.1.due ≠ [] → Inv (Agent.next peer errorBackoff x)) {s : Script}
    (hs : Inv (.ofList (crew agents), s)) :
    (after agents errorBackoff (s.turns agents) s).1.due = [] ∧
      Inv (after agents errorBackoff (s.turns agents) s) :=
  exhausted_of_potential Inv (fun x => x.1.due = []) (fun x => potential x.1.due x.2)
    (fun x hx hdue => ⟨hstep x hx hdue, potential_next errorBackoff hdue⟩)
    (fun _ => next_of_due_eq_nil errorBackoff) hs (by simpa using potential_crew agents s)

/-- More turns than a script allows for change nothing. -/
theorem play_eq_run (s : Script) {n : Nat} (hn : s.turns agents ≤ n) :
    s.play agents errorBackoff = Agent.run peer errorBackoff agents n s := by
  have hdue := (after_turns agents errorBackoff (fun _ => True) (fun _ _ _ => trivial)
    (s := s) trivial).1
  have hfixed := next_of_due_eq_nil errorBackoff hdue
  have hn' : n = (n - s.turns agents) + s.turns agents := by omega
  rw [play, run_eq_after, run_eq_after, hn', after, after, Function.iterate_add_apply]
  exact congrArg Prod.snd (Function.iterate_fixed hfixed _).symm

/-- A script that has not given the sign yet is played to its last reply, with one more question.
The tasks in the replies are just those that were submitted, each with its outcome. -/
theorem play_accounts {agents : List String} (hne : agents ≠ [])
    (replies : List (Except Error TaskReply)) (receipts : List (Except Error Receipt)) :
    let s := (start replies receipts false).play agents errorBackoff
    s.stopped = true ∧ s.replies = [] ∧ questions s.log = replies.length + 1 ∧
      ((submissions s.log).map Submission.told).Perm ((tasks replies).map Assignment.told) := by
  intro s
  have hstart : Accounts replies (crew agents) (start replies receipts false) := by
    refine ⟨by simp [start, questions], ?_, nofun, fun _ => by simpa [crew] using hne⟩
    have hhand : inHand (crew agents) = [] := by
      simp [inHand, crew, Agent.Stage.submission?]
    rw [hhand]
    exact .refl _
  obtain ⟨hdue, hquestions, htold, hended, hstaffed⟩ :=
    after_turns agents errorBackoff (fun x => Accounts replies x.1.due x.2)
      (fun _ hx hdue => hx.next errorBackoff hdue) (by simpa using hstart)
  rw [hdue] at htold hstaffed
  have hplayed : s = (after agents errorBackoff (turns agents (start replies receipts false))
      (start replies receipts false)).2 := run_eq_after agents errorBackoff _ _
  rw [← hplayed] at hquestions htold hended hstaffed
  have hstopped : s.stopped = true := by
    cases hsign : s.stopped with
    | true => rfl
    | false => exact absurd rfl (hstaffed hsign)
  have hreplies := hended hstopped
  rw [hstopped, hreplies] at hquestions
  refine ⟨hstopped, hreplies, by simpa using hquestions, ?_⟩
  rw [hreplies] at htold
  simpa [inHand, tasks] using htold

end Play

end Script

end Piecework
