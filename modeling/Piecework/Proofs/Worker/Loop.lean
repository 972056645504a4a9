import Mathlib.Logic.Function.Iterate
import Piecework.Worker.Agent

/-!
# What an agent takes, it finishes

An agent is put to a trial.  Its calls are answered in any way, with tasks, without them and with
failures, and the sign to stop rises at any moment, also between the look at the sign and the
question that follows it.  Whatever happens, the calls of the agent are rounds: a question, and if
that brought a task, at once the submission of its outcome.

* `Trial.peer` answers an agent and keeps its diary; `Trial.calls` are the calls of so many turns.
* `Shift` is an agent between two turns.  `Agent.work_eq` takes the agenda out of a run, and
  `Shift.turned_next` says once what a turn can do.
* `Rounds` is the shape of the calls, and `Trial.Prompt` says that no more than one question comes
  after the sign.  A turn keeps both (`Shift.Turned.kept`), and so does a run
  (`Shift.kept_iterate`).
* `Trial.tasks_finished` reads the result off.
-/

namespace Piecework

open Agent (Stage)

/-! ## Trials -/

/-- A call of an agent, with the answer to it. -/
inductive Exchange where
  | question (r : TaskRequest) (reply : Except Error TaskReply)
  | submission (s : Submission) (receipt : Except Error Receipt)

/-- A call, and whether the sign to stop was up when it was begun. -/
structure Entry where
  exchange : Exchange
  late : Bool

/-- Whether an agent asked for a task after the sign to stop. -/
def Entry.isLateQuestion (e : Entry) : Bool :=
  match e.exchange with
  | .question .. => e.late
  | .submission .. => false

/-- The moment that an agent has come to, and the calls that it has made. -/
structure Diary where
  moment : Nat
  calls : List Entry

namespace Diary

/-- The calls without the moments of them. -/
def exchanges (d : Diary) : List Exchange := d.calls.map Entry.exchange

/-- How many questions came after the sign to stop. -/
def lateQuestions (d : Diary) : Nat := d.calls.countP Entry.isLateQuestion

/-- Lets a moment pass. -/
def wait (d : Diary) : Diary := { d with moment := d.moment + 1 }

end Diary

/-- An agent, and what it meets with: the answer to each call, by the number of calls before it,
and the moment at which the sign to stop rises, if it ever does. -/
structure Trial where
  agent : String
  errorBackoff : Nat
  reply : Nat → Except Error TaskReply
  receipt : Nat → Except Error Receipt
  sign : Option Nat

namespace Trial

/-- Whether the sign is up. -/
def isUp (t : Trial) (moment : Nat) : Bool := t.sign.any fun risen => risen ≤ moment

/-- Writes a call down.  It takes a moment until the call is begun, and one more until it is
answered. -/
def record (t : Trial) (x : Exchange) (d : Diary) : Diary :=
  ⟨d.moment + 2, d.calls ++ [⟨x, t.isUp (d.moment + 1)⟩]⟩

/-- Writes down a question with its answer. -/
def ask (t : Trial) (r : TaskRequest) (d : Diary) : Diary :=
  t.record (.question r (t.reply d.calls.length)) d

/-- Writes down a submission with its answer. -/
def submit (t : Trial) (s : Submission) (d : Diary) : Diary :=
  t.record (.submission s (t.receipt d.calls.length)) d

/-- The surroundings of the agent. -/
def peer (t : Trial) : Peer Diary where
  getTask r d := (t.reply d.calls.length, t.ask r d)
  submit s d := (t.receipt d.calls.length, t.submit s d)
  wait _ d := d.wait
  stopped d := t.isUp d.moment

/-- The diary of the agent after so many turns. -/
def diary (t : Trial) (turns : Nat) : Diary :=
  Agent.run t.peer t.errorBackoff [t.agent] turns ⟨0, []⟩

/-- The calls that the agent makes in so many turns. -/
def calls (t : Trial) (turns : Nat) : List Exchange := (t.diary turns).exchanges

theorem exchanges_record (t : Trial) (x : Exchange) (d : Diary) :
    (t.record x d).exchanges = d.exchanges ++ [x] :=
  List.map_append

theorem isUp_of_le {t : Trial} {m m' : Nat} (h : t.isUp m = true) (hle : m ≤ m') :
    t.isUp m' = true := by
  unfold isUp at h ⊢
  cases hsign : t.sign with
  | none => rw [hsign] at h; cases h
  | some risen =>
    rw [hsign, Option.any_some, decide_eq_true_iff] at h
    exact decide_eq_true (Nat.le_trans h hle)

end Trial

/-! ## One turn after the other -/

/-- An agent between two turns: what it does next, if it has not stopped, and its diary. -/
structure Shift where
  stage : Option Stage
  diary : Diary

namespace Shift

/-- An agent that was not at work yet. -/
def start : Shift := ⟨some .asking, ⟨0, []⟩⟩

/-- The next turn. -/
def next (t : Trial) (x : Shift) : Shift :=
  match x.stage with
  | none => x
  | some stage =>
    let (after, d) := Agent.turn t.peer t.errorBackoff t.agent stage x.diary.wait
    ⟨after.map Prod.snd, d⟩

/-- The task in the hands of the agent. -/
def inHand (x : Shift) : Option Assignment :=
  match x.stage with
  | some (.holding a) => some a
  | some .asking | none => none

/-- All that a turn can do. -/
inductive Turned (t : Trial) : Shift → Shift → Prop
  | absent (d : Diary) : Turned t ⟨none, d⟩ ⟨none, d⟩
  /-- The sign is seen. -/
  | stopped (d : Diary) : Turned t ⟨some .asking, d⟩ ⟨none, d.wait⟩
  | taken (d : Diary) (a : Assignment) (hdown : t.isUp d.wait.moment = false)
      (htask : t.reply d.wait.calls.length = .ok (.task a)) :
      Turned t ⟨some .asking, d⟩ ⟨some (.holding a), t.ask ⟨t.agent⟩ d.wait⟩
  /-- There was no task, or the question failed. -/
  | rested (d : Diary) (hdown : t.isUp d.wait.moment = false)
      (hnone : ∀ a, t.reply d.wait.calls.length ≠ .ok (.task a)) :
      Turned t ⟨some .asking, d⟩ ⟨some .asking, t.ask ⟨t.agent⟩ d.wait⟩
  | submitted (d : Diary) (a : Assignment) :
      Turned t ⟨some (.holding a), d⟩
        ⟨some .asking, t.submit (a.submission t.agent) d.wait⟩

theorem turned_next (t : Trial) (x : Shift) : Turned t x (x.next t) := by
  obtain ⟨stage, d⟩ := x
  match stage with
  | none => exact .absent d
  | some (.holding a) =>
    simp only [next, Agent.turn, Trial.peer]
    cases t.receipt d.wait.calls.length <;> exact .submitted d a
  | some .asking =>
    by_cases hup : t.isUp d.wait.moment = true
    · simp only [next, Agent.turn, Trial.peer, hup, ↓reduceIte]
      exact .stopped d
    · have hdown : t.isUp d.wait.moment = false := Bool.eq_false_iff.2 hup
      match hreply : t.reply d.wait.calls.length with
      | .ok (.task a) =>
        simp only [next, Agent.turn, Trial.peer, if_neg hup, hreply]
        exact .taken d a hdown hreply
      | .ok (.noTask retryAfter) =>
        simp only [next, Agent.turn, Trial.peer, if_neg hup, hreply]
        exact .rested d hdown fun a h => nomatch hreply.symm.trans h
      | .error e =>
        simp only [next, Agent.turn, Trial.peer, if_neg hup, hreply]
        exact .rested d hdown fun a h => nomatch hreply.symm.trans h

end Shift

/-- A single agent works turn by turn, whatever its agenda says of the time. -/
theorem Agent.work_eq (t : Trial) (turns now time : Nat) (stage : Stage) (d : Diary) :
    Agent.work t.peer t.errorBackoff turns ⟨now, [(time, t.agent, stage)]⟩ d =
      ((Shift.next t)^[turns] ⟨some stage, d⟩).diary := by
  induction turns generalizing now time stage d with
  | zero => rfl
  | succ turns ih =>
    have hwait : t.peer.wait (max now time - now) d = d.wait := rfl
    rw [Function.iterate_succ_apply]
    simp only [work, Agenda.next?, hwait, Shift.next]
    match turn t.peer t.errorBackoff t.agent stage d.wait with
    | (none, d') =>
      -- The agent is not put on the agenda again, so nobody has a turn any more.
      rw [Option.map_none, Function.iterate_fixed rfl]
      cases turns <;> rfl
    | (some (wait, stage'), d') =>
      dsimp only [Agenda.after, Option.map_some]
      split <;> exact ih _ _ stage' d'

theorem Trial.diary_eq (t : Trial) (turns : Nat) :
    t.diary turns = ((Shift.next t)^[turns] .start).diary :=
  Agent.work_eq t turns 0 0 .asking ⟨0, []⟩

/-! ## Rounds -/

/-- A submission that says what became of a task. -/
structure Submission.Fulfils (agent : String) (a : Assignment) (s : Submission) : Prop where
  taskId : s.taskId = a.id
  agent : s.agent = agent
  result : ∀ v, compute a.operator a.operand1 a.operand2 = .ok v → s.outcome = some (.result v)
  error : ∀ e, compute a.operator a.operand1 a.operand2 = .error e →
    s.outcome = some (.error e.message)

theorem Assignment.fulfils (agent : String) (a : Assignment) :
    (a.submission agent).Fulfils agent a where
  taskId := rfl
  agent := rfl
  result v h := by rw [submission, outcome, h]
  error e h := by rw [submission, outcome, h]

/-- The calls of an agent that has a task in its hands, or none. -/
inductive Rounds (agent : String) : List Exchange → Option Assignment → Prop
  | nil : Rounds agent [] none
  /-- A question that brings no task. -/
  | rested {calls : List Exchange} (h : Rounds agent calls none) {reply : Except Error TaskReply}
      (hnone : ∀ a, reply ≠ .ok (.task a)) :
      Rounds agent (calls ++ [.question ⟨agent⟩ reply]) none
  /-- A question that brings a task. -/
  | taken {calls : List Exchange} (h : Rounds agent calls none) (a : Assignment) :
      Rounds agent (calls ++ [.question ⟨agent⟩ (.ok (.task a))]) (some a)
  /-- The submission of the task. -/
  | submitted {calls : List Exchange} {a : Assignment} (h : Rounds agent calls (some a))
      (receipt : Except Error Receipt) :
      Rounds agent (calls ++ [.submission (a.submission agent) receipt]) none

section Rounds

variable {agent : String} {calls calls' : List Exchange} {held : Option Assignment} {i : Nat}
  {x y : Exchange}

/-- Calls keep their places when more are made. -/
theorem Exchange.at_longer (h : calls[i]? = some x) (hlonger : calls <+: calls') :
    calls'[i]? = some x := by
  obtain ⟨rest, rfl⟩ := hlonger
  rw [List.getElem?_append_left (List.getElem?_eq_some_iff.1 h).1, h]

theorem Exchange.at_concat (h : calls[i]? = some x) : (calls ++ [y])[i]? = some x :=
  at_longer h (List.prefix_append ..)

/-- A call is an old one or the new one. -/
theorem Exchange.of_at_concat (h : (calls ++ [y])[i]? = some x) :
    calls[i]? = some x ∨ i = calls.length ∧ x = y := by
  rw [List.getElem?_append, List.getElem?_singleton] at h
  split at h
  · exact .inl h
  · split at h
    · exact .inr ⟨by omega, (Option.some.inj h).symm⟩
    · cases h

namespace Rounds

/-- The agent asks under its own name. -/
theorem asked (h : Rounds agent calls held) {r : TaskRequest} {reply : Except Error TaskReply}
    (hi : calls[i]? = some (.question r reply)) : r = ⟨agent⟩ := by
  induction h with
  | nil => cases hi
  | rested _ _ ih | taken _ _ ih =>
    rcases Exchange.of_at_concat hi with hold | ⟨-, hnew⟩
    · exact ih hold
    · cases hnew
      rfl
  | submitted _ _ ih =>
    rcases Exchange.of_at_concat hi with hold | ⟨-, hnew⟩
    · exact ih hold
    · cases hnew

/-- A task that a question has brought is submitted by the next call, or it is still in the hands
of the agent. -/
theorem finished (h : Rounds agent calls held) {r : TaskRequest} {a : Assignment}
    (hi : calls[i]? = some (.question r (.ok (.task a)))) :
    (∃ receipt, calls[i + 1]? = some (.submission (a.submission agent) receipt)) ∨
      i + 1 = calls.length ∧ held = some a := by
  induction h with
  | nil => cases hi
  | rested h hnone ih =>
    rcases Exchange.of_at_concat hi with hold | ⟨-, hnew⟩
    · rcases ih hold with ⟨receipt, hnext⟩ | ⟨-, hheld⟩
      · exact .inl ⟨receipt, Exchange.at_concat hnext⟩
      · cases hheld
    · cases hnew
      exact absurd rfl (hnone a)
  | taken h b ih =>
    rcases Exchange.of_at_concat hi with hold | ⟨hlast, hnew⟩
    · rcases ih hold with ⟨receipt, hnext⟩ | ⟨-, hheld⟩
      · exact .inl ⟨receipt, Exchange.at_concat hnext⟩
      · cases hheld
    · cases hnew
      exact .inr ⟨by rw [hlast, List.length_append, List.length_singleton], rfl⟩
  | submitted h receipt ih =>
    rcases Exchange.of_at_concat hi with hold | ⟨-, hnew⟩
    · rcases ih hold with ⟨receipt', hnext⟩ | ⟨hlast, hheld⟩
      · exact .inl ⟨receipt', Exchange.at_concat hnext⟩
      · cases hheld
        exact .inl ⟨receipt, by rw [hlast, List.getElem?_concat_length]⟩
    · cases hnew

/-- The last call of an agent with a task in its hands is the question that brought the task. -/
theorem exists_question {a : Assignment} (h : Rounds agent calls (some a)) :
    ∃ j, calls.length = j + 1 ∧ calls[j]? = some (.question ⟨agent⟩ (.ok (.task a))) := by
  cases h with
  | @taken front _ => exact ⟨front.length, List.length_append, List.getElem?_concat_length⟩

/-- Whatever is submitted is a task that the call before has brought. -/
theorem prompted (h : Rounds agent calls held) {s : Submission} {receipt : Except Error Receipt}
    (hi : calls[i]? = some (.submission s receipt)) :
    ∃ j a, i = j + 1 ∧ calls[j]? = some (.question ⟨agent⟩ (.ok (.task a))) := by
  induction h with
  | nil => cases hi
  | rested _ _ ih | taken _ _ ih =>
    rcases Exchange.of_at_concat hi with hold | ⟨-, hnew⟩
    · obtain ⟨j, a, hj, hquestion⟩ := ih hold
      exact ⟨j, a, hj, Exchange.at_concat hquestion⟩
    · cases hnew
  | submitted h _ ih =>
    rcases Exchange.of_at_concat hi with hold | ⟨hlast, -⟩
    · obtain ⟨j, a, hj, hquestion⟩ := ih hold
      exact ⟨j, a, hj, Exchange.at_concat hquestion⟩
    · obtain ⟨j, hj, hquestion⟩ := h.exists_question
      exact ⟨j, _, hlast.trans hj, Exchange.at_concat hquestion⟩

end Rounds

end Rounds

/-! ## The sign to stop -/

/-- No more than one question came after the sign, and if one did, then the sign is up. -/
structure Trial.Prompt (t : Trial) (d : Diary) : Prop where
  once : d.lateQuestions ≤ 1
  up : d.lateQuestions ≠ 0 → t.isUp d.moment = true

namespace Trial.Prompt

variable {t : Trial} {d : Diary}

theorem wait (h : t.Prompt d) : t.Prompt d.wait :=
  ⟨h.once, fun hlate => isUp_of_le (h.up hlate) (Nat.le_succ _)⟩

/-- A question after a look at the sign is the first one that can be late. -/
theorem ask (h : t.Prompt d) (hdown : t.isUp d.moment = false) (r : TaskRequest) :
    t.Prompt (t.ask r d) := by
  -- A late question before this one would mean that the sign was up at the look.
  have hnone : d.lateQuestions = 0 := by
    by_contra hlate
    exact Bool.false_ne_true (hdown.symm.trans (h.up hlate))
  have hcount : (t.ask r d).lateQuestions =
      d.lateQuestions + if t.isUp (d.moment + 1) = true then 1 else 0 :=
    List.countP_append.trans (congrArg _ List.countP_singleton)
  rw [hnone, Nat.zero_add] at hcount
  cases hup : t.isUp (d.moment + 1) with
  | true =>
    rw [hup] at hcount
    exact ⟨Nat.le_of_eq hcount, fun _ => isUp_of_le hup (Nat.le_succ _)⟩
  | false =>
    rw [hup] at hcount
    exact ⟨hcount ▸ Nat.zero_le 1, fun hlate => absurd hcount hlate⟩

/-- A submission is no question. -/
theorem submit (h : t.Prompt d) (s : Submission) : t.Prompt (t.submit s d) := by
  have hcount : (t.submit s d).lateQuestions = d.lateQuestions :=
    List.countP_append.trans (congrArg _ List.countP_singleton)
  refine ⟨?_, ?_⟩ <;> rw [hcount]
  · exact h.once
  · exact fun hlate => isUp_of_le (h.up hlate) (Nat.le_add_right _ 2)

end Trial.Prompt

/-! ## Whole runs -/

namespace Shift

variable {t : Trial} {x x' : Shift}

/-- What a turn keeps. -/
structure Kept (t : Trial) (x : Shift) : Prop where
  rounds : Rounds t.agent x.diary.exchanges x.inHand
  prompt : t.Prompt x.diary

theorem Turned.kept (h : Turned t x x') (hkept : x.Kept t) : x'.Kept t := by
  obtain ⟨hrounds, hprompt⟩ := hkept
  cases h with
  | absent d => exact ⟨hrounds, hprompt⟩
  | stopped d => exact ⟨hrounds, hprompt.wait⟩
  | taken d a hdown htask =>
    refine ⟨?_, hprompt.wait.ask hdown _⟩
    rw [Trial.ask, Trial.exchanges_record, htask]
    exact hrounds.taken a
  | rested d hdown hnone =>
    refine ⟨?_, hprompt.wait.ask hdown _⟩
    rw [Trial.ask, Trial.exchanges_record]
    exact hrounds.rested hnone
  | submitted d a =>
    refine ⟨?_, hprompt.wait.submit _⟩
    rw [Trial.submit, Trial.exchanges_record]
    exact hrounds.submitted _

/-- Calls are not taken back. -/
theorem Turned.longer (h : Turned t x x') : x.diary.exchanges <+: x'.diary.exchanges := by
  cases h with
  | absent | stopped => exact List.prefix_rfl
  | taken d | rested d | submitted d => exact ⟨_, (t.exchanges_record _ d.wait).symm⟩

/-- A task in the hands of the agent is submitted in the next turn. -/
theorem Turned.submits (h : Turned t x x') {a : Assignment} (ha : x.inHand = some a) :
    ∃ receipt, x'.diary.exchanges =
      x.diary.exchanges ++ [.submission (a.submission t.agent) receipt] := by
  cases h with
  | absent | stopped | taken | rested => cases ha
  | submitted d b =>
    cases ha
    exact ⟨_, t.exchanges_record _ d.wait⟩

theorem kept_iterate (t : Trial) (turns : Nat) : ((next t)^[turns] start).Kept t := by
  induction turns with
  | zero => exact ⟨.nil, ⟨Nat.zero_le _, fun h => absurd rfl h⟩⟩
  | succ turns ih =>
    rw [Function.iterate_succ_apply']
    exact (turned_next t _).kept ih

end Shift

/-- Whatever an agent is answered and whenever the sign to stop rises: each question that brings a
task is followed at once by a submission, for that task and by that agent, of the value or of the
error that the task comes to.  Nothing else is submitted.  At most one question is begun after the
sign. -/
theorem Trial.tasks_finished (t : Trial) (turns : Nat) :
    t.calls turns <+: t.calls (turns + 1) ∧
      (∀ (i : Nat) r reply, (t.calls turns)[i]? = some (.question r reply) → r = ⟨t.agent⟩) ∧
      (∀ (i : Nat) r a, (t.calls turns)[i]? = some (.question r (.ok (.task a))) →
        ∃ s receipt, (t.calls (turns + 1))[i + 1]? = some (.submission s receipt) ∧
          s.Fulfils t.agent a) ∧
      (∀ (i : Nat) s receipt, (t.calls turns)[i]? = some (.submission s receipt) →
        ∃ j r a, i = j + 1 ∧ (t.calls turns)[j]? = some (.question r (.ok (.task a)))) ∧
      (t.diary turns).lateQuestions ≤ 1 := by
  have hkept := Shift.kept_iterate t turns
  have hturn := Shift.turned_next t ((Shift.next t)^[turns] .start)
  rw [← Function.iterate_succ_apply' (Shift.next t)] at hturn
  rw [calls, calls, t.diary_eq, t.diary_eq]
  refine ⟨hturn.longer, fun i r reply hi => hkept.rounds.asked hi, fun i r a hi => ?_,
    fun i s receipt hi => ?_, hkept.prompt.once⟩
  · -- Either the submission was made by now, or the task is in hand and the next turn makes it.
    rcases hkept.rounds.finished hi with ⟨receipt, hnext⟩ | ⟨hlast, hheld⟩
    · exact ⟨_, receipt, Exchange.at_longer hnext hturn.longer, a.fulfils t.agent⟩
    · obtain ⟨receipt, hcalls⟩ := hturn.submits hheld
      exact ⟨_, receipt, by rw [hcalls, hlast, List.getElem?_concat_length], a.fulfils t.agent⟩
  · obtain ⟨j, a, hj, hquestion⟩ := hkept.rounds.prompted hi
    exact ⟨j, _, a, hj, hquestion⟩

/-- The first question is not heard, the second one brings a task, and the sign to stop rises
between the next look at it and the question that follows. -/
def lateSign : Trial where
  agent := "agent"
  errorBackoff := 10
  reply
    | 0 => .error (.protocol (.transport "refused"))
    | 1 => .ok (.task ⟨4, 9, 4, "-", 80⟩)
    | _ => .ok (.noTask 5)
  receipt _ := .ok ⟨true⟩
  sign := some 11

example : lateSign.calls 9 =
    [.question ⟨"agent"⟩ (.error (.protocol (.transport "refused"))),
      .question ⟨"agent"⟩ (.ok (.task ⟨4, 9, 4, "-", 80⟩)),
      .submission ⟨4, "agent", some (.result 5)⟩ (.ok ⟨true⟩),
      .question ⟨"agent"⟩ (.ok (.noTask 5))] ∧ (lateSign.diary 9).lateQuestions = 1 :=
  ⟨rfl, rfl⟩

end Piecework
