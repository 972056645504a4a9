import Piecework.Proofs.Expr.Agreement
import Piecework.Proofs.Server.Bookkeeping
import Piecework.Proofs.Worker.Agenda
import Piecework.Server.Pool

/-!
# Pools come to an end

A pool that is given the sign to stop has soon nothing more to do (`due_finish`): every agent has
submitted what it had in hand and has left, and every completion had its attempts.  So the work of a
pool is one of the runs of `Traffic`, the retries on its agenda being what the hands of the
dispatcher hold (`runPool_run`).  What is known of those runs holds for a pool, as that
no completion gets lost (`runPool_counts`).

`Tried` and `Performed` say once what an attempt and a duty can do.  Whatever they do, duties are
done in the order of time (`inOrder_work`).  With the sign up each duty uses something up:
`potential` weighs what is on the agenda and in the queue, and `remainder` allows for as much.
-/

open Relation (ReflTransGen)

namespace Piecework

open Agent (Stage)

/-- The completion that a hand keeps, with the attempts that are left. -/
def Duty.hand? : Duty → Option (Int × Nat)
  | .retry taskId left => some (taskId, left)
  | .agent .. | .listen => none

namespace Pool

variable {p p' : Pool} {duty : Duty} {taskId : Int} {left : Nat}

/-! ## What a duty can do -/

/-- The server after an attempt at a completion. -/
def tried (taskId : Int) (left : Nat) (p : Pool) : Server :=
  let (_, counts, site) :=
    Dispatcher.tryPass taskId left p.server.dispatcher.counts p.server.site
  { p.server with site, dispatcher := { p.server.dispatcher with counts } }

/-- The verdict on the attempt. -/
def verdict (taskId : Int) (left : Nat) (p : Pool) : Verdict :=
  (Dispatcher.tryPass taskId left p.server.dispatcher.counts p.server.site).1

/-- All that becomes of a hand that makes an attempt. -/
inductive Tried (taskId : Int) (left : Nat) (p : Pool) : Pool → Prop
  | again (wait : Nat) : p.verdict taskId left = .retried →
      Tried taskId left p
        { p with
          server := p.tried taskId left
          agenda := p.agenda.after wait (.retry taskId (left - 1)) }
  | freed : p.verdict taskId left ≠ .retried → p.free ≠ 0 →
      Tried taskId left p { p with server := p.tried taskId left, free := p.free + 1 }
  /-- There is no other free hand, so it goes back to the queue. -/
  | called : p.verdict taskId left ≠ .retried → p.free = 0 →
      Tried taskId left p
        { p with
          server := p.tried taskId left
          agenda := p.agenda.after 0 .listen
          free := 1
          called := true }

/-- There is another attempt only if one is left. -/
theorem left_pos (h : p.verdict taskId left = .retried) : 0 < left := by
  cases left with
  | zero => exact absurd h (Verdict.of_zero _)
  | succ left => exact Nat.succ_pos left

theorem tried_attempt (taskId : Int) (left : Nat) (p : Pool) :
    Tried taskId left p (p.attempt taskId left) := by
  have hagain := @Tried.again taskId left p
  have hfreed := @Tried.freed taskId left p
  have hcalled := @Tried.called taskId left p
  unfold attempt
  unfold tried verdict at hagain hfreed hcalled
  generalize Dispatcher.tryPass taskId left p.server.dispatcher.counts p.server.site = result
    at hagain hfreed hcalled ⊢
  obtain ⟨verdict, counts, site⟩ := result
  cases verdict with
  | retried => exact hagain _ rfl
  | processed | failed =>
    dsimp only
    split_ifs with hfree
    · exact hcalled nofun hfree
    · exact hfreed nofun hfree

/-- The pool when a hand has taken the first completion of its queue. -/
def taken (queue : List Int) (p : Pool) : Pool :=
  let p :=
    { p with
      server := { p.server with dispatcher := { p.server.dispatcher with queue } }
      free := p.free - 1 }
  if p.free = 0 then { p with called := false }
  else { p with called := true, agenda := p.agenda.append .listen }

theorem server_taken (queue : List Int) (p : Pool) : (p.taken queue).server =
    { p.server with dispatcher := { p.server.dispatcher with queue } } := by
  unfold taken
  dsimp only
  split_ifs <;> rfl

theorem agenda_taken (queue : List Int) (p : Pool) : (p.taken queue).agenda = p.agenda ∨
    (p.taken queue).agenda = p.agenda.append .listen := by
  unfold taken
  dsimp only
  split_ifs
  · exact .inl rfl
  · exact .inr rfl

/-- All that a duty can do to the pool from whose agenda it was taken. -/
inductive Performed (p : Pool) : Duty → Pool → Prop
  /-- An agent sees the sign. -/
  | left (name : String) : p.stopping = true → Performed p (.agent name .asking) p.call
  | asked (name : String) (stage : Stage) (wait : Nat) : p.stopping = false →
      Performed p (.agent name .asking)
        { p with
          server := (p.server.getTask ⟨name⟩).2
          agenda := p.agenda.after wait (.agent name stage) }.call
  | submitted (name : String) (a : Assignment) (wait : Nat) :
      Performed p (.agent name (.holding a))
        { p with
          server := (p.server.submitResult (a.submission name)).2
          agenda := p.agenda.after wait (.agent name .asking) }.call
  | idle : p.server.dispatcher.queue = [] → Performed p .listen { p with called := false }
  | listened {taskId : Int} {queue : List Int} {p' : Pool} :
      p.server.dispatcher.queue = taskId :: queue →
      Tried taskId ((p.taken queue).server.dispatcher.attempts - 1) (p.taken queue) p' →
      Performed p .listen p'
  | retried {taskId : Int} {left : Nat} {p' : Pool} : Tried taskId left p p' →
      Performed p (.retry taskId left) p'

theorem performed (errorBackoff : Nat) (duty : Duty) (p : Pool) :
    Performed p duty (p.perform errorBackoff duty) := by
  cases duty with
  | retry taskId left => exact .retried (tried_attempt taskId left p)
  | listen =>
    rw [perform, listen]
    split
    · rename_i hqueue
      exact .idle hqueue
    · rename_i hqueue
      exact .listened hqueue (tried_attempt _ _ _)
  | agent name stage =>
    cases stage with
    | asking =>
      rw [perform, Agent.turn]
      by_cases hstopping : peer.stopped p = true
      · rw [if_pos hstopping]
        exact .left name hstopping
      · have hdown : p.stopping = false := Bool.eq_false_iff.2 hstopping
        rw [if_neg hstopping]
        simp only [peer]
        match (p.server.getTask ⟨name⟩).1 with
        | .ok (.task a) => exact .asked name (.holding a) _ hdown
        | .ok (.noTask retryAfter) => exact .asked name .asking _ hdown
        | .error e => exact .asked name .asking _ hdown
    | holding a =>
      simp only [perform, Agent.turn, peer]
      cases (p.server.submitResult (a.submission name)).1 <;> exact .submitted name a _

/-- What the sign and the next duty keep is kept by the work of a pool. -/
theorem work_keeps (errorBackoff : Nat) (Inv : Pool → Prop)
    (hsign : ∀ p, Inv p → Inv { p with stopping := true })
    (hperform : ∀ p duty agenda, Inv p → p.agenda.next? = some (duty, agenda) →
      Inv (perform errorBackoff duty { p with agenda })) (h : Inv p) (duties : Nat) :
    Inv (p.work errorBackoff duties) := by
  induction duties generalizing p with
  | zero => exact h
  | succ duties ih =>
    rw [work]
    have hsigned : Inv (if p.agenda.isIdle && p.server.site.store.unfinished.isEmpty then
        { p with stopping := true } else p) := by
      split_ifs
      · exact hsign p h
      · exact h
    generalize (if p.agenda.isIdle && p.server.site.store.unfinished.isEmpty then
      { p with stopping := true } else p) = p' at hsigned
    split_ifs
    · exact hsigned
    · split
      · exact hsigned
      · rename_i duty agenda hnext
        exact ih (hperform p' duty agenda hsigned hnext)

/-! ## The order of time -/

theorem inOrder_call (h : p.agenda.InOrder) : p.call.agenda.InOrder := by
  unfold call
  split_ifs
  · exact h.append _
  · exact h

theorem Tried.inOrder (h : Tried taskId left p p') (hp : p.agenda.InOrder) :
    p'.agenda.InOrder := by
  cases h with
  | again wait => exact hp.after wait _
  | called => exact hp.after 0 _
  | freed => exact hp

theorem Performed.inOrder (h : Performed p duty p') (hp : p.agenda.InOrder) :
    p'.agenda.InOrder := by
  cases h with
  | left => exact inOrder_call hp
  | asked | submitted => exact inOrder_call (hp.after _ _)
  | idle => exact hp
  | @listened taskId queue p' hqueue htried =>
    refine htried.inOrder ?_
    rcases agenda_taken queue p with hagenda | hagenda <;> rw [hagenda]
    · exact hp
    · exact hp.append _
  | retried htried => exact htried.inOrder hp

/-- A pool does its duties in the order of time. -/
theorem inOrder_work (errorBackoff agents : Nat) (server : Server) (duties : Nat) :
    ((start agents server).work errorBackoff duties).agenda.InOrder :=
  work_keeps errorBackoff (fun p => p.agenda.InOrder) (fun _ hp => hp)
    (fun _ duty _ hp hnext => (performed errorBackoff duty _).inOrder (hp.next? hnext).1)
    (.ofList _) duties

/-! ## What is used up -/

/-- The duties that a duty leads to, itself included, when completions get so many attempts.  Who
has a task in hand also leaves a completion behind. -/
def weight (attempts : Nat) : Duty → Nat
  | .agent _ .asking => 1
  | .agent _ (.holding _) => attempts + 4
  | .listen => 1
  | .retry _ left => left + 2

/-- Whether the hand at the queue would be called. -/
def unheard (p : Pool) : Bool := !p.called && 0 < p.free && !p.server.dispatcher.queue.isEmpty

/-- The duties that are left at most, if no agent asks for a task any more. -/
def potential (attempts : Nat) (p : Pool) : Nat :=
  (p.agenda.due.map (weight attempts)).sum + (attempts + 1) * p.server.dispatcher.queue.length +
    p.unheard.toNat

section Potential

variable {attempts : Nat}

theorem potential_of_perm {agenda : Agenda Duty} {due : List Duty} (h : agenda.due.Perm due) :
    (agenda.due.map (weight attempts)).sum = (due.map (weight attempts)).sum :=
  (h.map _).sum_nat

/-- A call changes nothing about it. -/
theorem potential_call (p : Pool) : potential attempts p.call = potential attempts p := by
  unfold call
  split_ifs with hunheard
  · have hthen : p.unheard = true := hunheard
    have hnow : unheard { p with called := true, agenda := p.agenda.append .listen } = false := rfl
    simp only [potential, potential_of_perm (p.agenda.due_append _), hthen, hnow]
    simp only [List.map_cons, List.sum_cons, weight, Bool.toNat_true, Bool.toNat_false]
    omega
  · rfl

theorem queue_tried (taskId : Int) (left : Nat) (p : Pool) :
    (p.tried taskId left).dispatcher.queue = p.server.dispatcher.queue := rfl

theorem Tried.potential_lt (h : Tried taskId left p p') :
    potential attempts p' < potential attempts p + (left + 2) := by
  cases h with
  | again wait hretried =>
    have hleft : 0 < left := left_pos hretried
    have hsame : unheard { p with
        server := p.tried taskId left
        agenda := p.agenda.after wait (.retry taskId (left - 1)) } = p.unheard := rfl
    simp only [potential, potential_of_perm (p.agenda.due_after _ _), queue_tried, hsame,
      List.map_cons, List.sum_cons, weight]
    omega
  | freed hover hfree =>
    have hsame : unheard { p with server := p.tried taskId left, free := p.free + 1 } =
        p.unheard := by
      simp [unheard, queue_tried, Nat.pos_of_ne_zero hfree]
    simp only [potential, queue_tried, hsame]
    omega
  | called hover hfree =>
    have hheard : unheard { p with
        server := p.tried taskId left
        agenda := p.agenda.after 0 .listen
        free := 1
        called := true } = false := rfl
    simp only [potential, potential_of_perm (p.agenda.due_after _ _), queue_tried, hheard,
      List.map_cons, List.sum_cons, weight, Bool.toNat_false]
    omega

/-- A hand that takes a completion makes room for its attempts. -/
theorem potential_taken {queue : List Int} (hqueue : p.server.dispatcher.queue = taskId :: queue) :
    potential attempts (p.taken queue) + attempts ≤ potential attempts p := by
  have hheard : (p.taken queue).unheard = false := by
    unfold taken
    dsimp only
    split_ifs with hfree
    · simp [unheard, hfree]
    · rfl
  have hsum : ((p.taken queue).agenda.due.map (weight attempts)).sum ≤
      (p.agenda.due.map (weight attempts)).sum + 1 := by
    rcases agenda_taken queue p with hagenda | hagenda <;> rw [hagenda]
    · exact Nat.le_succ _
    · rw [potential_of_perm (p.agenda.due_append _), List.map_cons, List.sum_cons, weight,
        Nat.add_comm]
  have hrest : (p.taken queue).server.dispatcher.queue = queue := by rw [server_taken]
  simp only [potential, hheard, hrest, hqueue, List.length_cons, Bool.toNat_false, Nat.mul_succ]
  omega

/-- A submission leaves a completion behind, or nothing. -/
theorem submitResult_dispatcher (submission : Submission) (s : Server) :
    (s.submitResult submission).2.dispatcher = s.dispatcher ∨
      ∃ id, (s.submitResult submission).2.dispatcher = (s.dispatcher.notify id).2 := by
  unfold Server.submitResult Server.perform
  rcases s.site.perform (Workers.takeResult submission) with
    ⟨e | ⟨receipt, _ | ⟨id, text⟩ | id⟩, site⟩
  · exact .inl rfl
  · exact .inl rfl
  · exact .inl rfl
  · exact .inr ⟨id, rfl⟩

theorem length_queue_notify (id : Int) (d : Dispatcher) :
    (d.notify id).2.queue.length ≤ d.queue.length + 1 := by
  unfold Dispatcher.notify
  split_ifs <;> simp

theorem attempts_notify (id : Int) (d : Dispatcher) : (d.notify id).2.attempts = d.attempts := by
  unfold Dispatcher.notify
  split_ifs <;> rfl

/-- With the sign up, a duty uses up more than it leads to. -/
theorem Performed.potential_lt (h : Performed p duty p') (hstopping : p.stopping = true)
    (hattempts : p.server.dispatcher.attempts = attempts) :
    potential attempts p' < potential attempts p + weight attempts duty := by
  cases h with
  | left =>
    rw [potential_call, weight]
    exact Nat.lt_succ_self _
  | asked name stage wait hdown => exact absurd (hdown.symm.trans hstopping) (by decide)
  | submitted name a wait =>
    have hqueue : (p.server.submitResult (a.submission name)).2.dispatcher.queue.length ≤
        p.server.dispatcher.queue.length + 1 := by
      rcases submitResult_dispatcher (a.submission name) p.server with hsame | ⟨id, hnotified⟩
      · rw [hsame]
        exact Nat.le_succ _
      · rw [hnotified]
        exact length_queue_notify id _
    have hmore := Nat.mul_le_mul_left (attempts + 1) hqueue
    rw [potential_call, potential, potential, potential_of_perm (p.agenda.due_after _ _)]
    have hunheard := Bool.toNat_le (unheard { p with
      server := (p.server.submitResult (a.submission name)).2
      agenda := p.agenda.after wait (.agent name .asking) })
    simp only [List.map_cons, List.sum_cons, weight, Nat.mul_succ] at hmore ⊢
    omega
  | idle hqueue =>
    have hheard : unheard { p with called := false } = false := by simp [unheard, hqueue]
    simp only [potential, hheard, weight, Bool.toNat_false]
    omega
  | @listened id queue p' hqueue htried =>
    have hpos : 1 ≤ p.server.dispatcher.attempts := Nat.le_max_left _ _
    have hleft : potential attempts p' < potential attempts (p.taken queue) +
        ((p.taken queue).server.dispatcher.attempts - 1 + 2) := htried.potential_lt
    have htaken : potential attempts (p.taken queue) + attempts ≤ potential attempts p :=
      potential_taken hqueue
    have hsame : (p.taken queue).server.dispatcher.attempts = attempts := by
      rw [server_taken]
      exact hattempts
    rw [hsame] at hleft
    rw [weight]
    omega
  | retried htried => exact htried.potential_lt

end Potential

/-! ## A pool is traffic -/

/-- The completions that hands keep for another attempt. -/
def hands (due : List Duty) : List (Int × Nat) := due.filterMap Duty.hand?

/-- The traffic has come to where the pool is.  Its hands have what is kept on the agenda, and
`taken` besides. -/
structure Reaches (v : Traffic) (attempts : Nat) (taken : List (Int × Nat)) (p : Pool) : Prop where
  run : ∃ hs, hs.Perm (taken ++ hands p.agenda.due) ∧
    ReflTransGen Traffic.Step v ⟨p.server, [], hs, none⟩
  attempts_eq : p.server.dispatcher.attempts = attempts
  left_lt : ∀ h ∈ taken ++ hands p.agenda.due, h.2 < attempts

section Reaches

variable {v : Traffic} {attempts : Nat} {held held' : List (Int × Nat)}

/-- What the agenda says of agents and of the queue does not matter. -/
theorem Reaches.congr (h : Reaches v attempts held p) (hserver : p'.server = p.server)
    (hhands : (held' ++ hands p'.agenda.due).Perm (held ++ hands p.agenda.due)) :
    Reaches v attempts held' p' := by
  obtain ⟨⟨hs, hperm, hrun⟩, hattempts, hleft⟩ := h
  rw [← hserver] at hrun hattempts
  exact ⟨⟨hs, hperm.trans hhands.symm, hrun⟩, hattempts, fun h hmem => hleft h (hhands.subset hmem)⟩

/-- The server goes on and the hands keep what they have. -/
theorem Reaches.goesOn (h : Reaches v attempts held p)
    (hrun : ∀ hs, ReflTransGen Traffic.Step ⟨p.server, [], hs, none⟩ ⟨p'.server, [], hs, none⟩)
    (hattempts : p'.server.dispatcher.attempts = p.server.dispatcher.attempts)
    (hhands : (hands p'.agenda.due).Perm (hands p.agenda.due)) : Reaches v attempts held p' := by
  obtain ⟨⟨hs, hperm, hbefore⟩, hsame, hleft⟩ := h
  have hhands' := hhands.append_left held
  exact ⟨⟨hs, hperm.trans hhands'.symm, hbefore.trans (hrun hs)⟩, hattempts.trans hsame,
    fun h hmem => hleft h (hhands'.subset hmem)⟩

theorem hands_append_listen (g : Agenda Duty) :
    (hands (g.append .listen).due).Perm (hands g.due) := by
  have hdue := (g.due_append Duty.listen).filterMap Duty.hand?
  exact hdue

theorem Reaches.call (h : Reaches v attempts held p) : Reaches v attempts held p.call := by
  unfold Pool.call
  split_ifs
  · exact h.congr rfl ((hands_append_listen p.agenda).append_left held)
  · exact h

theorem tried_run (taskId : Int) (left : Nat) (p : Pool) (front back : List (Int × Nat)) :
    ReflTransGen Traffic.Step ⟨p.server, [], front ++ (taskId, left) :: back, none⟩
      ⟨p.tried taskId left, [],
        if p.verdict taskId left = .retried then front ++ back ++ [(taskId, left - 1)]
        else front ++ back, none⟩ :=
  Traffic.tryPass_run [] front back taskId left p.server

theorem Tried.reaches (h : Tried taskId left p p')
    (hreaches : Reaches v attempts [(taskId, left)] p) : Reaches v attempts [] p' := by
  obtain ⟨⟨hs, hperm, hrun⟩, hattempts, hleft⟩ := hreaches
  obtain ⟨front, back, rfl⟩ := List.append_of_mem (hperm.mem_iff.2 List.mem_cons_self)
  have hothers : (front ++ back).Perm (hands p.agenda.due) :=
    (List.perm_middle.symm.trans hperm).cons_inv
  have hafter := hrun.trans (tried_run taskId left p front back)
  obtain ⟨htaken, hleft'⟩ := List.forall_mem_cons.1 hleft
  cases h with
  | again wait hretried =>
    rw [if_pos hretried] at hafter
    have hagenda : (hands (p.agenda.after wait (.retry taskId (left - 1))).due).Perm
        ((taskId, left - 1) :: hands p.agenda.due) := (p.agenda.due_after _ _).filterMap _
    have hpos := left_pos hretried
    refine ⟨⟨_, ?_, hafter⟩, hattempts, fun h hmem => ?_⟩
    · exact (List.perm_append_singleton _ _).trans ((hothers.cons _).trans hagenda.symm)
    · rcases List.mem_cons.1 (hagenda.subset hmem) with rfl | hmem
      · dsimp only at htaken ⊢
        omega
      · exact hleft' h hmem
  | freed hover hfree =>
    rw [if_neg hover] at hafter
    exact ⟨⟨_, hothers, hafter⟩, hattempts, hleft'⟩
  | called hover hfree =>
    rw [if_neg hover] at hafter
    have hagenda : (hands (p.agenda.after 0 .listen).due).Perm (hands p.agenda.due) :=
      (p.agenda.due_after _ _).filterMap _
    exact ⟨⟨_, hothers.trans hagenda.symm, hafter⟩, hattempts,
      fun h hmem => hleft' h (hagenda.subset hmem)⟩

/-- A hand takes the first completion of the queue. -/
theorem Reaches.taken (h : Reaches v attempts [] p) {queue : List Int}
    (hqueue : p.server.dispatcher.queue = taskId :: queue) :
    Reaches v attempts [(taskId, (p.taken queue).server.dispatcher.attempts - 1)]
      (p.taken queue) := by
  obtain ⟨⟨hs, hperm, hrun⟩, hattempts, hleft⟩ := h
  have hagenda : (hands (p.taken queue).agenda.due).Perm (hands p.agenda.due) := by
    rcases agenda_taken queue p with hagenda | hagenda <;> rw [hagenda]
    exact hands_append_listen p.agenda
  have hsame : (p.taken queue).server.dispatcher.attempts = attempts := by
    rw [server_taken]
    exact hattempts
  have hpos : 1 ≤ attempts := hattempts ▸ Nat.le_max_left _ _
  have htake := hrun.tail (.take hqueue)
  rw [hattempts] at htake
  refine ⟨⟨hs ++ [(taskId, attempts - 1)], ?_, ?_⟩, hsame, ?_⟩
  · rw [hsame]
    exact (List.perm_append_singleton _ _).trans ((hperm.trans hagenda.symm).cons _)
  · rw [server_taken]
    exact htake
  · rw [hsame]
    refine List.forall_mem_cons.2 ⟨?_, fun h hmem => hleft h (hagenda.subset hmem)⟩
    dsimp only
    omega

/-- What an agent computes is a number. -/
theorem isNaN_of_submission {name : String} {a : Assignment} {value : Float}
    (h : (a.submission name).outcome = some (.result value)) : value.isNaN = false := by
  have houtcome : a.outcome = .result value := Option.some.inj h
  unfold Assignment.outcome at houtcome
  split at houtcome
  · rename_i v hcompute
    cases houtcome
    exact Number.isNaN_of_isFinite (Number.isFinite_of_compute hcompute)
  · cases houtcome

theorem Performed.reaches (h : Performed p duty p')
    (hreaches : Reaches v attempts duty.hand?.toList p) : Reaches v attempts [] p' := by
  cases h with
  | left => exact hreaches.call
  | asked name stage wait hdown =>
    exact Reaches.call (hreaches.goesOn (fun hs => .single (.lease ⟨name⟩)) rfl
      ((p.agenda.due_after _ _).filterMap Duty.hand?))
  | submitted name a wait =>
    have hattempts : (p.server.submitResult (a.submission name)).2.dispatcher.attempts =
        p.server.dispatcher.attempts := by
      rcases submitResult_dispatcher (a.submission name) p.server with hsame | ⟨id, hnotified⟩
      · rw [hsame]
      · rw [hnotified, attempts_notify]
    exact Reaches.call (hreaches.goesOn
      (fun hs => Traffic.submitResult_run _ (a.submission name) fun _ => isNaN_of_submission)
      hattempts ((p.agenda.due_after _ _).filterMap Duty.hand?))
  | idle hqueue => exact hreaches.congr rfl (.refl _)
  | listened hqueue htried => exact htried.reaches (hreaches.taken hqueue)
  | retried htried => exact htried.reaches hreaches

variable (errorBackoff : Nat)

theorem Reaches.perform (h : Reaches v attempts [] p) {agenda : Agenda Duty}
    (hnext : p.agenda.next? = some (duty, agenda)) :
    Reaches v attempts [] (Pool.perform errorBackoff duty { p with agenda }) := by
  refine (performed errorBackoff duty _).reaches (h.congr rfl ?_)
  rw [Agenda.due_of_next? hnext, hands, hands]
  cases hhand : duty.hand? with
  | none => rw [List.filterMap_cons_none hhand, Option.toList_none]
  | some kept =>
    rw [List.filterMap_cons_some hhand, Option.toList_some]
    exact .refl _

theorem Reaches.work (h : Reaches v attempts [] p) (duties : Nat) :
    Reaches v attempts [] (p.work errorBackoff duties) :=
  work_keeps errorBackoff (Reaches v attempts []) (fun _ hp => hp.congr rfl (.refl _))
    (fun _ _ _ hp hnext => hp.perform errorBackoff hnext) h duties

end Reaches

/-! ## The end of a pool -/

section Finish

variable {v : Traffic} {attempts : Nat} (errorBackoff : Nat)

theorem Tried.stopping (h : Tried taskId left p p') : p'.stopping = p.stopping := by
  cases h <;> rfl

theorem stopping_call (p : Pool) : p.call.stopping = p.stopping := by
  unfold call
  split_ifs <;> rfl

theorem stopping_taken (queue : List Int) (p : Pool) :
    (p.taken queue).stopping = p.stopping := by
  unfold taken
  dsimp only
  split_ifs <;> rfl

/-- Nobody takes the sign back. -/
theorem Performed.stopping (h : Performed p duty p') : p'.stopping = p.stopping := by
  cases h with
  | left | asked | submitted => exact stopping_call _
  | idle => rfl
  | listened hqueue htried => exact htried.stopping.trans (stopping_taken _ p)
  | retried htried => exact htried.stopping

/-- Does the next thing on the agenda. -/
def next (errorBackoff : Nat) (p : Pool) : Pool :=
  match p.agenda.next? with
  | none => p
  | some (duty, agenda) => { p with agenda }.perform errorBackoff duty

theorem stopping_next (h : p.stopping = true) : (p.next errorBackoff).stopping = true := by
  unfold next
  split
  · exact h
  · exact (performed errorBackoff _ _).stopping.trans h

/-- With the sign up, one thing is done after the other. -/
theorem work_eq_iterate (h : p.stopping = true) (duties : Nat) :
    p.work errorBackoff duties = (next errorBackoff)^[duties] p := by
  induction duties generalizing p with
  | zero => rfl
  | succ duties ih =>
    have hsigned : { p with stopping := true } = p := by rw [← h]
    have hgoes : (!p.stopping && p.isStuck) = false := by rw [h, Bool.not_true, Bool.false_and]
    rw [Function.iterate_succ_apply, work, hsigned, ite_self, if_neg (by rw [hgoes]; decide)]
    cases hnext : p.agenda.next? with
    | none =>
      have hfixed : p.next errorBackoff = p := by rw [next, hnext]
      rw [hfixed, Function.iterate_fixed hfixed]
    | some taken =>
      have hdone : p.next errorBackoff =
          Pool.perform errorBackoff taken.1 { p with agenda := taken.2 } := by rw [next, hnext]
      rw [hdone]
      exact ih (hdone ▸ stopping_next errorBackoff h)

/-- What a hand keeps weighs no more than what an agent has in hand. -/
theorem weight_le {due : List Duty} (h : ∀ k ∈ hands due, k.2 < attempts) (hmem : duty ∈ due) :
    weight attempts duty ≤ attempts + 4 := by
  match duty with
  | .agent _ .asking | .listen => exact Nat.le_add_left 1 (attempts + 3)
  | .agent _ (.holding _) => exact Nat.le_refl _
  | .retry taskId left =>
    have hleft := h (taskId, left) (List.mem_filterMap.2 ⟨_, hmem, rfl⟩)
    dsimp only [weight] at hleft ⊢
    omega

/-- The duties that a pool allows for are as many as there can be. -/
theorem potential_le_remainder (h : Reaches v attempts [] p) :
    potential attempts p ≤ p.remainder := by
  have hweights : (p.agenda.due.map (weight attempts)).sum ≤
      p.agenda.due.length * (attempts + 4) := by
    have hsum := List.sum_le_card_nsmul (p.agenda.due.map (weight attempts)) (attempts + 4)
      (List.forall_mem_map.2 fun _ hmem => weight_le h.left_lt hmem)
    simpa using hsum
  have hlength : p.agenda.due.length = p.agenda.entries.length := List.length_map _
  have hunheard := Bool.toNat_le p.unheard
  have hqueue := Nat.mul_le_mul_right p.server.dispatcher.queue.length
    (show attempts + 1 ≤ attempts + 4 by omega)
  have hremainder : p.remainder = p.agenda.entries.length * (attempts + 4) +
      (attempts + 4) * p.server.dispatcher.queue.length + (attempts + 4) := by
    rw [remainder, h.attempts_eq]
    ring
  rw [hlength] at hweights
  rw [potential, hremainder]
  omega

/-- With the sign up, a duty uses something up. -/
theorem potential_next (h : Reaches v attempts [] p) (hstopping : p.stopping = true)
    (hdue : p.agenda.due ≠ []) :
    potential attempts (p.next errorBackoff) < potential attempts p := by
  cases hnext : p.agenda.next? with
  | none => exact absurd (Agenda.next?_eq_none_iff.1 hnext) hdue
  | some taken =>
    obtain ⟨duty, agenda⟩ := taken
    have hless := (performed errorBackoff duty { p with agenda }).potential_lt hstopping
      h.attempts_eq
    have hwhole : potential attempts p = potential attempts { p with agenda } +
        weight attempts duty := by
      rw [potential, potential, Agenda.due_of_next? hnext, List.map_cons, List.sum_cons]
      have hsame : unheard { p with agenda } = p.unheard := rfl
      rw [hsame]
      dsimp only
      omega
    rw [next, hnext, hwhole]
    exact hless

theorem Reaches.next (h : Reaches v attempts [] p) :
    Reaches v attempts [] (p.next errorBackoff) := by
  unfold Pool.next
  split
  · exact h
  · rename_i duty agenda hnext
    exact h.perform errorBackoff hnext

/-- A pool that is given the sign to stop comes to an end: nothing is on its agenda any more. -/
theorem due_finish (h : Reaches v attempts [] p) :
    (p.finish errorBackoff).agenda.due = [] ∧
      Reaches v attempts [] (p.finish errorBackoff) := by
  have hstart : Reaches v attempts [] { p with stopping := true } := h.congr rfl (.refl _)
  have hover := exhausted_of_potential
    (fun p => p.stopping = true ∧ Reaches v attempts [] p) (fun p => p.agenda.due = [])
    (potential attempts)
    (fun p hp hdue => ⟨⟨stopping_next errorBackoff hp.1, hp.2.next errorBackoff⟩,
      potential_next errorBackoff hp.2 hp.1 hdue⟩)
    (fun p hdue => by rw [Pool.next, Agenda.next?_eq_none_iff.2 hdue]) ⟨rfl, hstart⟩
    (potential_le_remainder hstart)
  rw [finish, work_eq_iterate errorBackoff rfl]
  exact ⟨hover.1, hover.2.2⟩

theorem reaches_start (agents : Nat) (server : Server) :
    Reaches ⟨server, [], [], none⟩ server.dispatcher.attempts [] (.start agents server) := by
  have hhands : hands (start agents server).agenda.due = [] := by
    rw [start, Agenda.due_ofList, hands, List.filterMap_eq_nil_iff]
    intro duty hmem
    rw [List.eq_of_mem_replicate hmem]
    rfl
  refine ⟨⟨[], ?_, .refl⟩, rfl, ?_⟩
  · rw [hhands]
    exact .refl _
  · rw [hhands]
    exact nofun

end Finish

end Pool

namespace Server

/-- The work of a pool is made of requests and passes, and at the end nothing is under way. -/
theorem runPool_run (agents : Nat) (server : Server) :
    ReflTransGen Traffic.Step ⟨server, [], [], none⟩ ⟨server.runPool agents, [], [], none⟩ := by
  have hworked := (Pool.reaches_start agents server).work errorBackoff
    (Pool.start agents server).patience
  obtain ⟨hdue, ⟨hs, hperm, hrun⟩, -, -⟩ := Pool.due_finish errorBackoff hworked
  rw [hdue] at hperm
  cases hperm.eq_nil
  exact hrun.trans (Traffic.settle_run [] _)

/-- The completions that agents of a pool have left behind were processed or have failed. -/
theorem runPool_counts {settings : DispatchSettings} {server : Server}
    (hdispatcher : server.dispatcher = .start settings) (agents : Nat) :
    (server.runPool agents).dispatcher.counts.enqueued =
      (server.runPool agents).dispatcher.counts.processed +
        (server.runPool agents).dispatcher.counts.failed :=
  Traffic.counts_of_quiescent hdispatcher rfl rfl (runPool_run agents server)
    (Traffic.quiescent_settle _)

end Server

end Piecework
