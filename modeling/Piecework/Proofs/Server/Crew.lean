import Piecework.Proofs.Server.Handover
import Piecework.Proofs.System.Value

/-!
# At most one agent per task

Agents take turns at a system in which everything else goes on: expressions are submitted,
passes are made and cut off, the store fails.  In one turn an agent leases a task, in the next
one it submits what it has in hand, and in between it may lose it.

The store does not know who has leased a task.  It is the state of the task and the way in
which agents work that keep them apart: a turn takes up a task that was waiting, or gives back
the one in hand (`turn_turned`), so the tasks in hand are different ones and in progress
(`Exclusive.step`).  `one_agent_per_task` states it for all runs.
-/

namespace Piecework

open Store (TaskIs Moves Moved)

/-- The task that an agent has in hand. -/
def Agent.Stage.taskId? : Agent.Stage → Option Int
  | .asking => none
  | .holding a => some a.id

/-- Whether a call takes a task or gives one back. -/
def Call.HandsOver : Call → Prop
  | .lease | .completeTask .. | .failTask _ => True
  | _ => False

/-- A system and the agents that work for it. -/
structure Crew where
  system : System
  agents : List (String × Agent.Stage)

namespace Crew

/-- The tasks that the agents have in hand. -/
def inHand (crew : Crew) : List Int := crew.agents.filterMap fun agent => agent.2.taskId?

/-- What goes on beside the agents: no task changes hands, and the store is not lost. -/
def Beside : Event → Prop
  | .serve c => ¬c.HandsOver
  | .lose => False
  | _ => True

/-- One event.  The server of a turn has the store of the system, and any failures ahead. -/
inductive Step : Crew → Crew → Prop
  | turn {y : System} {front back : List (String × Agent.Stage)} {agent : String}
      {stage stage' : Agent.Stage} {server : Server} {backoff wait : Nat} :
      server.site.store = y.store →
      (Agent.turn Server.peer backoff agent stage server).1 = some (wait, stage') →
      Step ⟨y, front ++ (agent, stage) :: back⟩
        ⟨{ y with store := (Agent.turn Server.peer backoff agent stage server).2.site.store },
          front ++ (agent, stage') :: back⟩
  /-- An agent loses what it has in hand. -/
  | drop {y : System} {front back : List (String × Agent.Stage)} {agent : String}
      {stage : Agent.Stage} :
      Step ⟨y, front ++ (agent, stage) :: back⟩ ⟨y, front ++ (agent, .asking) :: back⟩
  | join {y : System} {agents : List (String × Agent.Stage)} {agent : String} :
      Step ⟨y, agents⟩ ⟨y, agents ++ [(agent, .asking)]⟩
  | beside {y y' : System} {agents : List (String × Agent.Stage)} {event : Event} :
      Beside event → System.Step True y event y' → Step ⟨y, agents⟩ ⟨y', agents⟩

/-! ## Turns -/

/-- What a turn does to the store, by what the agent has in hand before and after it. -/
inductive Turned (s : Store) : Agent.Stage → Agent.Stage → Store → Prop
  | kept {stage : Agent.Stage} : Turned s stage .asking s
  | leased {s' : Store} {k k' : Task} {a : Assignment} : Moves .lease k k' → Moved k k' s s' →
      a.id = k.id → Turned s .asking (.holding a) s'
  | submitted {s' : Store} {c : Call} {k k' : Task} {a : Assignment} : Moves c k k' →
      Moved k k' s s' → k.id = a.id → Turned s (.holding a) .asking s'

section Turn

variable {server server' : Server} {backoff : Nat} {agent : String} {a : Assignment}

theorem turn_task (h : server.getTask ⟨agent⟩ = (.ok (.task a), server')) :
    Agent.turn Server.peer backoff agent .asking server =
      (some (a.operationTime.toNat, .holding a), server') := by
  have hget : Server.peer.getTask ⟨agent⟩ server = _ := h
  rw [Agent.turn, hget]
  rfl

theorem turn_noTask (backoff : Nat) {answer : Except Error TaskReply}
    (hnone : ∀ a, answer ≠ .ok (.task a))
    (h : server.getTask ⟨agent⟩ = (answer, server')) :
    ∃ wait, Agent.turn Server.peer backoff agent .asking server =
      (some (wait, .asking), server') := by
  have hget : Server.peer.getTask ⟨agent⟩ server = _ := h
  rw [Agent.turn, hget]
  rcases answer with e | a | retryAfter
  · exact ⟨_, rfl⟩
  · exact absurd rfl (hnone a)
  · exact ⟨_, rfl⟩

theorem turn_submit (server : Server) (backoff : Nat) (agent : String) (a : Assignment) :
    ∃ wait, Agent.turn Server.peer backoff agent (.holding a) server =
    (some (wait, .asking), (server.submitResult (a.submission agent)).2) := by
  have hsubmit : Server.peer.submit (a.submission agent) server =
      server.submitResult (a.submission agent) := rfl
  rw [Agent.turn, hsubmit]
  rcases server.submitResult (a.submission agent) with ⟨answer, server'⟩
  cases answer <;> exact ⟨_, rfl⟩

theorem turn_turned {wait : Nat} {stage stage' : Agent.Stage} (hs : server.site.store.WellFormed)
    (h : (Agent.turn Server.peer backoff agent stage server).1 = some (wait, stage')) :
    Turned server.site.store stage stage'
      (Agent.turn Server.peer backoff agent stage server).2.site.store := by
  cases stage with
  | asking =>
    have hhanded := Server.getTask_handed hs ⟨agent⟩
    cases hget : server.getTask ⟨agent⟩ with
    | mk answer server' =>
      rw [hget] at hhanded
      dsimp only at hhanded
      generalize hstore : server'.site.store = s' at hhanded
      cases hhanded with
      | task hmoves hmoved hid =>
        rw [turn_task hget] at h ⊢
        cases h
        rw [hstore]
        exact .leased hmoves hmoved hid
      | nothing hnone =>
        obtain ⟨wait', hturn⟩ := turn_noTask backoff hnone hget
        rw [hturn] at h ⊢
        cases h
        rw [hstore]
        exact .kept
  | holding a =>
    obtain ⟨wait', hturn⟩ := turn_submit server backoff agent a
    rw [hturn] at h ⊢
    cases h
    rcases Server.submitResult_recorded hs (a.submission agent) with
      ⟨-, hsame⟩ | ⟨-, outcome, k, k', -, hid, hmoves, hmoved⟩
    · rw [hsame]
      exact .kept
    · exact .submitted hmoves hmoved hid

end Turn

/-! ## The invariant -/

/-- The tasks in hand are different ones, and in progress. -/
structure Exclusive (crew : Crew) : Prop where
  sound : crew.system.Sound True
  distinct : crew.inHand.Nodup
  inProgress : ∀ id ∈ crew.inHand, TaskIs id .inProgress crew.system.store

section Exclusive

variable {crew crew' : Crew} {y y' : System} {front back agents : List (String × Agent.Stage)}
  {agent : String} {stage : Agent.Stage}

/-- The tasks in the hands of the other agents. -/
theorem inHand_eq (y : System) (front back : List (String × Agent.Stage)) (agent : String)
    (stage : Agent.Stage) :
    inHand ⟨y, front ++ (agent, stage) :: back⟩ =
      inHand ⟨y, front⟩ ++ (stage.taskId?.toList ++ inHand ⟨y, back⟩) := by
  unfold inHand
  rw [List.filterMap_append]
  cases stage <;> rfl

/-- An agent with nothing in hand is in nobody's way. -/
theorem Exclusive.drop (h : Exclusive ⟨y, front ++ (agent, stage) :: back⟩) :
    Exclusive ⟨y, front ++ (agent, .asking) :: back⟩ := by
  have hsub : (inHand ⟨y, front ++ (agent, .asking) :: back⟩).Sublist
      (inHand ⟨y, front ++ (agent, stage) :: back⟩) := by
    rw [inHand_eq, inHand_eq]
    exact (List.Sublist.refl _).append ((List.nil_sublist _).append (List.Sublist.refl _))
  exact ⟨h.sound, hsub.nodup h.distinct, fun id hid => h.inProgress id (hsub.subset hid)⟩

theorem Exclusive.join (h : Exclusive ⟨y, agents⟩) :
    Exclusive ⟨y, agents ++ [(agent, .asking)]⟩ := by
  have hsame : inHand ⟨y, agents ++ [(agent, .asking)]⟩ = inHand ⟨y, agents⟩ := by
    rw [inHand_eq]
    exact List.append_nil _
  refine ⟨h.sound, ?_, ?_⟩
  · rw [hsame]
    exact h.distinct
  · rw [hsame]
    exact h.inProgress

/-- A task is leased that nobody has in hand. -/
theorem Exclusive.leased (h : Exclusive ⟨y, front ++ (agent, .asking) :: back⟩) {s : Store}
    {k k' : Task} {a : Assignment} (hmoves : Moves .lease k k') (hmoved : Moved k k' y.store s)
    (hid : a.id = k.id) :
    Exclusive ⟨{ y with store := s }, front ++ (agent, .holding a) :: back⟩ := by
  have hothers : inHand ⟨y, front ++ (agent, .asking) :: back⟩ =
      inHand ⟨y, front⟩ ++ inHand ⟨y, back⟩ := inHand_eq ..
  have hdistinct := h.distinct
  have hprogress := h.inProgress
  rw [hothers] at hdistinct hprogress
  have hfree : k.id ∉ inHand ⟨y, front⟩ ++ inHand ⟨y, back⟩ := by
    intro hmem
    have hsame := (hprogress k.id hmem).unique hmoved.taskIs h.sound.store.wellFormed
    rw [hmoves.pending] at hsame
    cases hsame
  have hnow : inHand ⟨{ y with store := s }, front ++ (agent, .holding a) :: back⟩ =
      inHand ⟨y, front⟩ ++ k.id :: inHand ⟨y, back⟩ := hid ▸ inHand_eq ..
  refine ⟨h.sound.elsewhere (.moved hmoves hmoved), ?_, fun id hmem => ?_⟩
  · rw [hnow, List.nodup_middle, List.nodup_cons]
    exact ⟨hfree, hdistinct⟩
  · rw [hnow, List.mem_append, List.mem_cons, or_left_comm, ← List.mem_append] at hmem
    rcases hmem with rfl | hmem
    · have htask := hmoved.taskIs_new
      rwa [hmoves.inProgress, hmoves.later.id] at htask
    · exact (hprogress id hmem).moved hmoved fun heq => hfree (heq ▸ hmem)

/-- The task in hand is given back, and the others stay in hand. -/
theorem Exclusive.submitted {a : Assignment}
    (h : Exclusive ⟨y, front ++ (agent, .holding a) :: back⟩) {s : Store} {c : Call} {k k' : Task}
    (hmoves : Moves c k k') (hmoved : Moved k k' y.store s) (hid : k.id = a.id) :
    Exclusive ⟨{ y with store := s }, front ++ (agent, .asking) :: back⟩ := by
  have hbefore : inHand ⟨y, front ++ (agent, .holding a) :: back⟩ =
      inHand ⟨y, front⟩ ++ a.id :: inHand ⟨y, back⟩ := inHand_eq ..
  have hdistinct := h.distinct
  rw [hbefore, List.nodup_middle, List.nodup_cons] at hdistinct
  have hnow : inHand ⟨{ y with store := s }, front ++ (agent, .asking) :: back⟩ =
      inHand ⟨y, front⟩ ++ inHand ⟨y, back⟩ := inHand_eq ..
  refine ⟨h.sound.elsewhere (.moved hmoves hmoved), ?_, fun id hmem => ?_⟩
  · rw [hnow]
    exact hdistinct.2
  · rw [hnow] at hmem
    have hbefore' : id ∈ inHand ⟨y, front ++ (agent, .holding a) :: back⟩ := by
      rw [hbefore, List.mem_append, List.mem_cons, or_left_comm, ← List.mem_append]
      exact .inr hmem
    refine (h.inProgress id hbefore').moved hmoved fun heq => hdistinct.1 ?_
    rw [← hid, heq]
    exact hmem

/-- What goes on beside the agents leaves them what they have in hand. -/
theorem Exclusive.beside (h : Exclusive ⟨y, agents⟩) {event : Event} (hbeside : Beside event)
    (hstep : System.Step True y event y') : Exclusive ⟨y', agents⟩ := by
  refine ⟨h.sound.step hstep, h.distinct, fun id hid => ?_⟩
  have hprogress := h.inProgress id hid
  have hchanged := h.sound.changed hstep
  show TaskIs id .inProgress y'.store
  generalize y'.store = s at hchanged ⊢
  cases hchanged with
  | kept => exact hprogress
  | effect _ he => exact he.taskIs hprogress
  | lost => exact hbeside.elim
  | @elsewhere c _ he =>
    refine he.taskIs_inProgress h.sound.store.wellFormed hprogress ?_ ?_
    · rintro value rfl
      exact hbeside trivial
    · rintro rfl
      exact hbeside trivial

theorem Exclusive.step (h : Exclusive crew) (hstep : Step crew crew') : Exclusive crew' := by
  cases hstep with
  | drop => exact h.drop
  | join => exact h.join
  | beside hbeside hs => exact h.beside hbeside hs
  | @turn y front back agent stage stage' server backoff wait hstore hturn =>
    have hturned := turn_turned (hstore ▸ h.sound.store.wellFormed) hturn
    rw [hstore] at hturned
    generalize (Agent.turn Server.peer backoff agent stage server).2.site.store = s at hturned ⊢
    cases hturned with
    | kept => exact h.drop
    | leased hmoves hmoved hid => exact h.leased hmoves hmoved hid
    | submitted hmoves hmoved hid => exact h.submitted hmoves hmoved hid

theorem Exclusive.run (h : Exclusive crew) (hrun : Relation.ReflTransGen Step crew crew') :
    Exclusive crew' := by
  induction hrun with
  | refl => exact h
  | tail _ hstep ih => exact ih.step hstep

end Exclusive

/-! ## All runs -/

/-- Whatever agents, clients, passes and failures of the store are interleaved: no two agents
have the same task in hand, every task in hand is in progress, and an agent that hands in any
outcome of the task that it has in hand is acknowledged, unless the store fails. -/
theorem one_agent_per_task {crew crew' : Crew}
    (hstart : System.Run True (fun _ _ => True) .start crew.system)
    (hasking : ∀ agent ∈ crew.agents, agent.2 = .asking)
    (hrun : Relation.ReflTransGen Step crew crew') :
    crew'.inHand.Nodup ∧
      (∀ id ∈ crew'.inHand, ∃ r ∈ crew'.system.store.tasks,
        r.id = id ∧ r.status = TaskStatus.inProgress.name) ∧
      ∀ agent a, (agent, .holding a) ∈ crew'.agents → ∀ (server : Server) (outcome : Outcome),
        server.site.store = crew'.system.store →
        (server.site.outages.next (outcome.call a.id).method).1 = none →
        (server.submitResult ⟨a.id, agent, some outcome⟩).1 = .ok ⟨true⟩ := by
  have hnobody : crew.inHand = [] := by
    rw [inHand, List.filterMap_eq_nil_iff]
    intro agent hagent
    rw [hasking agent hagent]
    rfl
  have hfirst : Exclusive crew := by
    refine ⟨(System.sound_start True).run hstart, ?_, ?_⟩ <;> rw [hnobody]
    · exact List.nodup_nil
    · exact List.forall_mem_nil _
  have hlast := hfirst.run hrun
  have hwell := hlast.sound.store.wellFormed
  refine ⟨hlast.distinct, fun id hid => (hlast.inProgress id hid).exists_row hwell, ?_⟩
  intro agent a hagent server outcome hstore hpasses
  have hmem : a.id ∈ crew'.inHand := List.mem_filterMap.2 ⟨(agent, .holding a), hagent, rfl⟩
  have hprogress := hlast.inProgress a.id hmem
  rw [← hstore] at hwell hprogress
  exact Server.submitResult_acknowledged hwell rfl hprogress hpasses

/-- A server with the store of the sum, whose only task waits. -/
def sumServer : Server :=
  ⟨⟨System.sumIssued [], Site.dawn, []⟩, .start ⟨8, 3, 0⟩, ⟨.instant, 1⟩, [], false⟩

/-- Two agents, one of whom has the task of the sum in hand. -/
def sumCrew : Crew :=
  ⟨⟨(Agent.turn Server.peer 0 "bob" .asking sumServer).2.site.store, [], none⟩,
    [("bob", .holding ⟨1, 1, 2, "+", 0⟩), ("carol", .asking)]⟩

theorem sum_one_agent_per_task : sumCrew.inHand = [1] ∧
    (∃ r ∈ sumCrew.system.store.tasks, r.id = 1 ∧ r.status = TaskStatus.inProgress.name) ∧
    (Server.submitResult ⟨1, "bob", some (.result 3)⟩
      (Agent.turn Server.peer 0 "bob" .asking sumServer).2).1 = .ok ⟨true⟩ := by
  have hstart : System.Run True (fun _ _ => True) .start ⟨System.sumIssued [], [], none⟩ :=
    System.sumIssued_run (.inl trivial) (fun _ _ _ => trivial) fun _ _ _ => trivial
  have hturn : Step ⟨⟨System.sumIssued [], [], none⟩, [("bob", .asking), ("carol", .asking)]⟩
      sumCrew :=
    @Step.turn ⟨System.sumIssued [], [], none⟩ [] _ "bob" _ _ sumServer 0 0 rfl (by decide)
  obtain ⟨-, hprogress, hacknowledged⟩ :=
    one_agent_per_task hstart (by simp) (.single hturn)
  exact ⟨rfl, hprogress 1 List.mem_cons_self,
    hacknowledged "bob" _ List.mem_cons_self _ (.result 3) rfl (by decide)⟩

end Crew

end Piecework
