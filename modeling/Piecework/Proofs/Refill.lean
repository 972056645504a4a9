import Piecework.Proofs.Expr.Agreement
import Piecework.Proofs.Expr.Derivation
import Piecework.Proofs.Expr.Frontier
import Piecework.Schedule.Pass

/-!
# What refilling does to a tree

A tree with results folded in is compared with the tree itself, and with the same tree
after further results were found.

* `resultOf?_of_mem` and `exists_of_resultOf?` say which task a result comes from.
* `refill_keeps_meaning`: as long as each result is what its operation gives, refilling
  changes neither the value of a tree nor the error that it ends in; `evaluate_refill` says
  so for the trees that the parser makes.
* `refillAt_eq_leaf_of_le` and `mem_frontier_of_le` compare two lists of tasks of which
  the second one knows more results: a number stays a number, and a ready operation
  stays ready until its own result is known.
* `refill_put`: one further result replaces one ready operation by a number.
-/

namespace Piecework

open Number (Agree Concur Kin apply_congr apply_kin beq_of_isFinite beq_self_iff)

/-! ## Where results come from -/

theorem Task.path_of_computes {k : Task} {path : String} {op : Operator} {a b : Float}
    (h : k.computes path op a b = true) : k.path = path := by
  simp only [computes, Bool.and_eq_true, beq_iff_eq] at h
  exact h.1.1.1

/-- A result is that of a finished task which computes the operation. -/
theorem exists_of_resultOf? {tasks : List Task} {path : String} {op : Operator} {a b v : Float}
    (h : resultOf? tasks path op a b = some v) :
    ∃ k ∈ tasks, k.status = .done ∧ k.computes path op a b = true ∧ k.result = some v := by
  obtain ⟨k, hk, hv⟩ := Option.bind_eq_some_iff.1 h
  have hfound := List.find?_some hk
  rw [Bool.and_eq_true, beq_iff_eq] at hfound
  exact ⟨k, List.mem_of_find?_eq_some hk, hfound.1, hfound.2, hv⟩

/-- Where no two tasks share a path, a finished task gives its result. -/
theorem resultOf?_of_mem {tasks : List Task} {k : Task} {path : String} {op : Operator}
    {a b v : Float} (hnodup : (tasks.map Task.path).Nodup) (hk : k ∈ tasks)
    (hdone : k.status = .done) (hcomputes : k.computes path op a b = true)
    (hresult : k.result = some v) : resultOf? tasks path op a b = some v := by
  have hfound : (finished? tasks path op a b).isSome := by
    rw [finished?, List.find?_isSome]
    exact ⟨k, hk, by rw [hdone, hcomputes]; rfl⟩
  obtain ⟨k', hk'⟩ := Option.isSome_iff_exists.1 hfound
  have hpath : k'.path = k.path := by
    have hcond := List.find?_some hk'
    rw [Bool.and_eq_true] at hcond
    rw [Task.path_of_computes hcond.2, Task.path_of_computes hcomputes]
  have hsame : k' = k :=
    List.inj_on_of_nodup_map hnodup (List.mem_of_find?_eq_some hk') hk hpath
  rw [resultOf?, hk', hsame]
  exact hresult

/-- Only finished tasks give results. -/
theorem resultOf?_doneTasks (tasks : List Task) (path : String) (op : Operator) (a b : Float) :
    resultOf? (Schedule.doneTasks tasks) path op a b = resultOf? tasks path op a b := by
  have hfind : finished? (Schedule.doneTasks tasks) path op a b = finished? tasks path op a b := by
    rw [finished?, Schedule.doneTasks, List.find?_filter, finished?]
    congr 1
    funext k
    cases k.status <;> simp
  rw [resultOf?, hfind, resultOf?]

namespace Tree

/-! ## One node -/

theorem collapse_eq_leaf {tasks : List Task} {p : Path} {op : Operator} {l r : Tree} {v : Float} :
    collapse tasks p op l r = leaf v ↔
      ∃ a b, l = leaf a ∧ r = leaf b ∧ resultOf? tasks p.text op a b = some v := by
  constructor
  · intro h
    unfold collapse at h
    split at h
    · rename_i a b
      split at h
      · rename_i w hw
        cases h
        exact ⟨a, b, rfl, rfl, hw⟩
      · cases h
    · cases h
  · rintro ⟨a, b, rfl, rfl, h⟩
    rw [collapse, h]

/-- A node that is not collapsed stays as it is, and has no result. -/
theorem collapse_eq_node {tasks : List Task} {p : Path} {op op' : Operator} {l r l' r' : Tree} :
    collapse tasks p op l r = node op' l' r' ↔
      (op = op' ∧ l = l' ∧ r = r') ∧
        ∀ a b, l = leaf a → r = leaf b → resultOf? tasks p.text op a b = none := by
  unfold collapse
  split
  · rename_i a b
    split
    · rename_i v hv
      refine iff_of_false (by simp) ?_
      rintro ⟨-, h⟩
      rw [h a b rfl rfl] at hv
      cases hv
    · rename_i hv
      rw [node.injEq]
      refine (and_iff_left ?_).symm
      intro a' b' ha hb
      cases ha
      cases hb
      exact hv
  · rename_i hnot
    rw [node.injEq]
    refine (and_iff_left ?_).symm
    intro a b ha hb
    exact absurd hb (hnot a b ha)

/-- Below an operation that is left after refilling, the tree was refilled too. -/
theorem refillAt_eq_node {tasks : List Task} {p : Path} {op op' : Operator} {l r l' r' : Tree} :
    (node op l r).refillAt tasks p = node op' l' r' ↔
      (op = op' ∧ l.refillAt tasks (p ++ [Side.left]) = l' ∧
        r.refillAt tasks (p ++ [Side.right]) = r') ∧
      ∀ a b, l.refillAt tasks (p ++ [Side.left]) = leaf a →
        r.refillAt tasks (p ++ [Side.right]) = leaf b → resultOf? tasks p.text op a b = none :=
  collapse_eq_node

theorem refillAt_eq_leaf {tasks : List Task} {p : Path} {op : Operator} {l r : Tree} {v : Float} :
    (node op l r).refillAt tasks p = leaf v ↔
      ∃ a b, l.refillAt tasks (p ++ [Side.left]) = leaf a ∧
        r.refillAt tasks (p ++ [Side.right]) = leaf b ∧ resultOf? tasks p.text op a b = some v :=
  collapse_eq_leaf

theorem not_leaf_of_at? {t l r : Tree} {p : Path} {op : Operator}
    (h : t.at? p = some (node op l r)) (v : Float) : t ≠ leaf v := by
  intro hv
  rw [hv] at h
  exact absurd (at?_leaf h).2 (by simp)

/-- A node with a side that is no number stays. -/
theorem refillAt_of_not_leaf {tasks : List Task} {p : Path} {op : Operator} {l r : Tree}
    (h : (∀ v, l.refillAt tasks (p ++ [Side.left]) ≠ leaf v) ∨
      ∀ v, r.refillAt tasks (p ++ [Side.right]) ≠ leaf v) :
    (node op l r).refillAt tasks p =
      node op (l.refillAt tasks (p ++ [Side.left])) (r.refillAt tasks (p ++ [Side.right])) := by
  refine refillAt_eq_node.2 ⟨⟨rfl, rfl, rfl⟩, fun a b ha hb => ?_⟩
  rcases h with h | h
  · exact absurd ha (h a)
  · exact absurd hb (h b)

/-- Refilling reads the tasks only through their results. -/
theorem refillAt_congr {tasks tasks' : List Task} {t : Tree} {p : Path}
    (h : ∀ q op a b, resultOf? tasks (p ++ q : Path).text op a b =
      resultOf? tasks' (p ++ q : Path).text op a b) :
    t.refillAt tasks p = t.refillAt tasks' p := by
  induction t generalizing p with
  | leaf v => rfl
  | node op l r ihl ihr =>
    have hhere : ∀ op a b, resultOf? tasks p.text op a b = resultOf? tasks' p.text op a b := by
      intro op a b
      simpa using h [] op a b
    have hl : l.refillAt tasks (p ++ [Side.left]) = l.refillAt tasks' (p ++ [Side.left]) := by
      refine ihl fun q => ?_
      rw [List.append_assoc]
      exact h _
    have hr : r.refillAt tasks (p ++ [Side.right]) = r.refillAt tasks' (p ++ [Side.right]) := by
      refine ihr fun q => ?_
      rw [List.append_assoc]
      exact h _
    rw [refillAt, refillAt, hl, hr]
    unfold collapse
    simp only [hhere]

theorem refill_congr {tasks tasks' : List Task} (t : Tree)
    (h : ∀ path op a b, resultOf? tasks path op a b = resultOf? tasks' path op a b) :
    t.refill tasks = t.refill tasks' :=
  refillAt_congr fun _ => h _

/-- It makes no difference whether unfinished tasks are left out first. -/
theorem refill_doneTasks (t : Tree) (tasks : List Task) :
    t.refill (Schedule.doneTasks tasks) = t.refill tasks :=
  refill_congr t (resultOf?_doneTasks tasks)

/-! ## The operations that are left -/

/-- What stands at a place after refilling is what stood there, refilled. -/
theorem exists_at?_of_refillAt {tasks : List Task} {t u : Tree} {p q : Path}
    (h : (t.refillAt tasks p).at? q = some u) :
    ∃ u', t.at? q = some u' ∧ u'.refillAt tasks (p ++ q) = u := by
  induction q generalizing t p with
  | nil =>
    rw [at?_nil] at h
    exact ⟨t, at?_nil t, by rw [List.append_nil]; exact Option.some.inj h⟩
  | cons side q ih =>
    cases t with
    | leaf v => cases h
    | node op l r =>
      cases hc : (node op l r).refillAt tasks p with
      | leaf v =>
        rw [hc] at h
        cases h
      | node op' l' r' =>
        rw [hc] at h
        obtain ⟨⟨rfl, hl, hr⟩, -⟩ := refillAt_eq_node.1 hc
        rw [List.append_cons]
        cases side with
        | left => exact ih (by rw [hl]; exact h)
        | right => exact ih (by rw [hr]; exact h)

/-- An operation that is left was one before. -/
theorem exists_node_of_refillAt {tasks : List Task} {t l r : Tree} {p : Path} {op : Operator}
    (h : t.refillAt tasks p = node op l r) :
    ∃ l' r', t = node op l' r' ∧ l'.refillAt tasks (p ++ [Side.left]) = l ∧
      r'.refillAt tasks (p ++ [Side.right]) = r ∧
        ∀ a b, l = leaf a → r = leaf b → resultOf? tasks p.text op a b = none := by
  cases t with
  | leaf v => cases h
  | node op' l' r' =>
    obtain ⟨⟨rfl, rfl, rfl⟩, hnone⟩ := refillAt_eq_node.1 h
    exact ⟨l', r', rfl, rfl, rfl, hnone⟩

/-- An operation that is left stands where it stood in the tree. -/
theorem at?_of_refillAt {tasks : List Task} {t l r : Tree} {p q : Path} {op : Operator}
    (h : (t.refillAt tasks p).at? q = some (node op l r)) :
    ∃ l' r', t.at? q = some (node op l' r') := by
  obtain ⟨u, hat, hu⟩ := exists_at?_of_refillAt h
  obtain ⟨l', r', rfl, -⟩ := exists_node_of_refillAt hu
  exact ⟨l', r', hat⟩

/-- The result of a ready operation is not known. -/
theorem resultOf?_eq_none_of_at? {tasks : List Task} {t : Tree} {p q : Path} {op : Operator}
    {a b : Float} (h : (t.refillAt tasks p).at? q = some (node op (leaf a) (leaf b))) :
    resultOf? tasks (p ++ q : Path).text op a b = none := by
  obtain ⟨u, -, hu⟩ := exists_at?_of_refillAt h
  obtain ⟨l', r', -, -, -, hnone⟩ := exists_node_of_refillAt hu
  exact hnone a b rfl rfl

theorem resultOf?_eq_none_of_mem_frontier {tasks : List Task} {t : Tree} {x : Ready}
    (h : x ∈ (t.refill tasks).frontier) :
    resultOf? tasks x.path.text x.op x.lhs x.rhs = none :=
  resultOf?_eq_none_of_at? (p := []) (mem_frontier.1 h)

/-! ## Further results -/

/-- The second list of tasks knows every result that the first one knows. -/
def KnowsMore (tasks tasks' : List Task) : Prop :=
  ∀ {path op a b v}, resultOf? tasks path op a b = some v → resultOf? tasks' path op a b = some v

/-- Two lists of tasks that know the same results bring a tree to the same. -/
theorem refill_eq_of_le {tasks tasks' : List Task} (hle : KnowsMore tasks tasks')
    (hge : KnowsMore tasks' tasks) (t : Tree) : t.refill tasks = t.refill tasks' :=
  t.refill_congr fun _ _ _ _ => Option.ext fun _ => ⟨fun hv => hle hv, fun hv => hge hv⟩

/-- What has come down to a number stays that number. -/
theorem refillAt_eq_leaf_of_le {tasks tasks' : List Task} (hle : KnowsMore tasks tasks') {t : Tree}
    {p : Path} {v : Float} (h : t.refillAt tasks p = leaf v) : t.refillAt tasks' p = leaf v := by
  induction t generalizing p v with
  | leaf w => exact h
  | node op l r ihl ihr =>
    obtain ⟨a, b, hl, hr, hv⟩ := refillAt_eq_leaf.1 h
    exact refillAt_eq_leaf.2 ⟨a, b, ihl hl, ihr hr, hle hv⟩

theorem at?_refillAt_of_le {tasks tasks' : List Task} (hle : KnowsMore tasks tasks') {t : Tree}
    {p q : Path} {op : Operator} {a b : Float}
    (h : (t.refillAt tasks p).at? q = some (node op (leaf a) (leaf b)))
    (hnone : resultOf? tasks' (p ++ q : Path).text op a b = none) :
    (t.refillAt tasks' p).at? q = some (node op (leaf a) (leaf b)) := by
  induction t generalizing p q with
  | leaf v => exact absurd (at?_leaf h).2 (by simp)
  | node op' l' r' ihl ihr =>
    cases hc : (node op' l' r').refillAt tasks p with
    | leaf v =>
      rw [hc] at h
      exact absurd (at?_leaf h).2 (by simp)
    | node op'' l'' r'' =>
      rw [hc] at h
      obtain ⟨⟨rfl, hl, hr⟩, -⟩ := refillAt_eq_node.1 hc
      cases q with
      | nil =>
        rw [at?_nil] at h
        cases h
        rw [List.append_nil] at hnone
        have hl' := refillAt_eq_leaf_of_le hle hl
        have hr' := refillAt_eq_leaf_of_le hle hr
        rw [at?_nil, Option.some.injEq]
        refine refillAt_eq_node.2 ⟨⟨rfl, hl', hr'⟩, fun a' b' ha hb => ?_⟩
        rw [hl', leaf.injEq] at ha
        rw [hr', leaf.injEq] at hb
        rw [← ha, ← hb]
        exact hnone
      | cons side q =>
        rw [List.append_cons] at hnone
        cases side with
        | left =>
          have hbelow : (l'.refillAt tasks (p ++ [Side.left])).at? q =
              some (node op (leaf a) (leaf b)) := by
            rw [hl]
            exact h
          have hat := ihl hbelow hnone
          have hleft := not_leaf_of_at? hat
          rw [refillAt_of_not_leaf (.inl hleft)]
          exact hat
        | right =>
          have hbelow : (r'.refillAt tasks (p ++ [Side.right])).at? q =
              some (node op (leaf a) (leaf b)) := by
            rw [hr]
            exact h
          have hat := ihr hbelow hnone
          have hright := not_leaf_of_at? hat
          rw [refillAt_of_not_leaf (.inr hright)]
          exact hat

/-- A ready operation stays ready until its own result is known. -/
theorem mem_frontier_of_le {tasks tasks' : List Task} (hle : KnowsMore tasks tasks') {t : Tree}
    {x : Ready} (h : x ∈ (t.refill tasks).frontier)
    (hnone : resultOf? tasks' x.path.text x.op x.lhs x.rhs = none) :
    x ∈ (t.refill tasks').frontier :=
  mem_frontier.2 (at?_refillAt_of_le (p := []) hle (mem_frontier.1 h) hnone)

/-- The second list of tasks has a result for one operation more than the first one,
and neither has one further up. -/
structure OneMore (tasks tasks' : List Task) (p : Path) (op : Operator) (a b v : Float) : Prop where
  here : resultOf? tasks' p.text op a b = some v
  elsewhere : ∀ {q : Path}, q ≠ p → ∀ op a b,
    resultOf? tasks' q.text op a b = resultOf? tasks q.text op a b
  above : ∀ {q : Path}, q <+: p → q ≠ p → ∀ op a b, resultOf? tasks q.text op a b = none

theorem refillAt_put {tasks tasks' : List Task} {t : Tree} {p q : Path} {op : Operator}
    {a b v : Float} (hmore : OneMore tasks tasks' (p ++ q) op a b v)
    (h : (t.refillAt tasks p).at? q = some (node op (leaf a) (leaf b))) :
    t.refillAt tasks' p = (t.refillAt tasks p).put q (leaf v) := by
  induction t generalizing p q with
  | leaf w => exact absurd (at?_leaf h).2 (by simp)
  | node op' l' r' ihl ihr =>
    cases hc : (node op' l' r').refillAt tasks p with
    | leaf w =>
      rw [hc] at h
      exact absurd (at?_leaf h).2 (by simp)
    | node op'' l'' r'' =>
      rw [hc] at h
      obtain ⟨⟨rfl, hl, hr⟩, -⟩ := refillAt_eq_node.1 hc
      -- a side on which nothing is new
      have hside : ∀ {u : Tree} {side : Side}, ¬(p ++ [side]) <+: (p ++ q) →
          u.refillAt tasks' (p ++ [side]) = u.refillAt tasks (p ++ [side]) := by
        intro u side hnot
        refine refillAt_congr fun q' => hmore.elsewhere ?_
        intro heq
        exact hnot ⟨q', heq⟩
      -- the node itself, when the news comes from below
      have hnode : ∀ {side q'} {u w : Tree}, q = side :: q' →
          collapse tasks' p op' u w = node op' u w := by
        intro side q' u w hq
        refine collapse_eq_node.2 ⟨⟨rfl, rfl, rfl⟩, fun a' b' _ _ => ?_⟩
        have hne : p ≠ p ++ q := by simp [hq]
        rw [hmore.elsewhere hne]
        exact hmore.above (List.prefix_append p q) hne _ _ _
      cases q with
      | nil =>
        rw [at?_nil] at h
        cases h
        rw [put_nil]
        have hbelow : ∀ side, ¬(p ++ [side]) <+: (p ++ []) := by
          intro side hpre
          have := hpre.length_le
          simp only [List.append_nil, List.length_append, List.length_singleton] at this
          omega
        refine refillAt_eq_leaf.2 ⟨a, b, ?_, ?_, by simpa using hmore.here⟩
        · rw [hside (hbelow _), hl]
        · rw [hside (hbelow _), hr]
      | cons side q =>
        rw [List.append_cons] at hmore
        cases side with
        | left =>
          have hleft := ihl hmore (by rw [hl]; exact h)
          rw [hl] at hleft
          rw [refillAt, hleft, hside (by simp), hr, hnode rfl, put]
        | right =>
          have hright := ihr hmore (by rw [hr]; exact h)
          rw [hr] at hright
          rw [refillAt, hright, hside (by simp), hl, hnode rfl, put]

/-- One further result replaces one ready operation by a number. -/
theorem refill_put {tasks tasks' : List Task} {t : Tree} {x : Ready} {v : Float}
    (hx : x ∈ (t.refill tasks).frontier)
    (hmore : OneMore tasks tasks' x.path x.op x.lhs x.rhs v) :
    t.refill tasks' = (t.refill tasks).put x.path (leaf v) :=
  refillAt_put (p := []) hmore (mem_frontier.1 hx)

end Tree

/-! ## Values -/

/-- The task has no result, or one that agrees with what its operation gives. -/
def Task.Exact (k : Task) : Prop :=
  ∀ r, k.status = .done → k.result = some r →
    ∃ v, k.operator.apply k.operand1 k.operand2 = .ok v ∧ (r == v) = true

/-- An exact task that computes an operation has a result which agrees with it. -/
theorem Task.Exact.agree {k : Task} (hk : k.Exact) {path : String} {op : Operator} {a b v : Float}
    (hdone : k.status = .done) (hcomputes : k.computes path op a b = true)
    (hresult : k.result = some v) : Agree (.ok v) (op.apply a b) := by
  simp only [Task.computes, Bool.and_eq_true, beq_iff_eq] at hcomputes
  obtain ⟨⟨⟨-, rfl⟩, ha⟩, hb⟩ := hcomputes
  obtain ⟨w, hw, hvw⟩ := hk v hdone hresult
  have hagree := apply_congr k.operator ha hb
  rw [hw] at hagree
  exact Agree.trans (show Agree (.ok v) (.ok w) from hvw) hagree

namespace Tree

/-- Operands with the same outcome make trees that agree. -/
theorem evaluate_node_congr (op : Operator) {l l' r r' : Tree}
    (hl : Concur l.evaluate l'.evaluate) (hr : Concur r.evaluate r'.evaluate) :
    Agree (node op l r).evaluate (node op l' r').evaluate := by
  unfold evaluate
  revert hl hr
  cases l.evaluate with
  | error e =>
    cases l'.evaluate with
    | error e' => exact fun hl _ => hl
    | ok a' => exact fun hl _ => hl.elim
  | ok a =>
    cases l'.evaluate with
    | error e' => exact fun hl _ => hl.elim
    | ok a' =>
      intro hl hr
      revert hr
      cases r.evaluate with
      | error e =>
        cases r'.evaluate with
        | error e' => exact fun hr => hr
        | ok b' => exact fun hr => hr.elim
      | ok b =>
        cases r'.evaluate with
        | error e' => exact fun hr => hr.elim
        | ok b' => exact fun hr => apply_kin op hl hr

section Exact

variable {tasks : List Task} (hexact : ∀ k ∈ tasks, k.Exact)
include hexact

/-- A node agrees with what it becomes, when its operands have the same outcome as before. -/
theorem agree_refillAt_node {op : Operator} {l r : Tree} {p : Path}
    (hl : Concur (l.refillAt tasks (p ++ [Side.left])).evaluate l.evaluate)
    (hr : Concur (r.refillAt tasks (p ++ [Side.right])).evaluate r.evaluate) :
    Agree ((node op l r).refillAt tasks p).evaluate (node op l r).evaluate := by
  have hnode := evaluate_node_congr op hl hr
  refine Agree.trans ?_ hnode
  cases hc : (node op l r).refillAt tasks p with
  | leaf v =>
    obtain ⟨a, b, ha, hb, hv⟩ := refillAt_eq_leaf.1 hc
    obtain ⟨k, hk, hdone, hcomputes, hresult⟩ := exists_of_resultOf? hv
    rw [ha, hb]
    exact (hexact k hk).agree hdone hcomputes hresult
  | node op' l' r' =>
    obtain ⟨⟨rfl, rfl, rfl⟩, -⟩ := refillAt_eq_node.1 hc
    exact hnode.trans hnode.symm

theorem concur_refillAt (t : Tree) (p : Path) :
    Concur (t.refillAt tasks p).evaluate t.evaluate := by
  induction t generalizing p with
  | leaf v => exact Kin.refl v
  | node op l r ihl ihr => exact (agree_refillAt_node hexact (ihl _) (ihr _)).concur

/-- Exact results change neither the value of a tree nor the error that it ends in, unless the
tree is a single leaf: that stays as it is. -/
theorem agree_refill_node (op : Operator) (l r : Tree) :
    Agree ((node op l r).refill tasks).evaluate (node op l r).evaluate :=
  agree_refillAt_node hexact (concur_refillAt hexact l _) (concur_refillAt hexact r _)

theorem evaluate_refill {t : Tree} (ht : t.Finite) :
    Agree (t.refill tasks).evaluate t.evaluate := by
  cases t with
  | leaf v => exact beq_of_isFinite ht
  | node op l r => exact agree_refill_node hexact op l r

/-- Whatever the leaves of a tree are, and whatever else is among the tasks, exact results keep
the error that the tree ends in, or a value that agrees.  A single leaf that is no number agrees
with nothing; refilling leaves it as it is. -/
theorem refill_keeps_meaning (t : Tree) :
    Agree (t.refill tasks).evaluate t.evaluate ∨
      ∃ v, v.isNaN = true ∧ t = leaf v ∧ t.refill tasks = leaf v := by
  cases t with
  | node op l r => exact .inl (agree_refill_node hexact op l r)
  | leaf v =>
    cases hv : v.isNaN with
    | true => exact .inr ⟨v, hv, rfl, rfl⟩
    | false => exact .inl ((beq_self_iff v).2 hv)

end Exact

/-- Tasks of `(1 + 2) * 3`: one that is not finished, one with operands that do not stand at its
place, one of a place that is not in the tree, and the finished sum, twice. -/
def mixedTasks : List Task :=
  [⟨4, 1, .mul, 3, 3, "", none, .inProgress, 0, .earliest, .earliest⟩,
    ⟨3, 1, .add, 2, 2, "L", some 4, .done, 1, .earliest, .earliest⟩,
    ⟨2, 1, .sub, 9, 4, "RR", some 5, .done, 0, .earliest, .earliest⟩,
    ⟨1, 1, .add, 1, 2, "L", some 3, .done, 0, .earliest, .earliest⟩,
    ⟨5, 1, .add, 1, 2, "L", some 3, .done, 0, .earliest, .earliest⟩]

theorem mixedTasks_exact : ∀ k ∈ mixedTasks, k.Exact := by
  intro k hk r _ hresult
  simp only [mixedTasks, List.mem_cons, List.not_mem_nil, or_false] at hk
  rcases hk with rfl | rfl | rfl | rfl | rfl <;> cases hresult
  all_goals exact ⟨_, rfl, by decide +kernel⟩

theorem mixedTasks_keep_meaning : (∀ k ∈ mixedTasks, k.Exact) ∧
    (node .mul (node .add (leaf 1) (leaf 2)) (leaf 3)).refill mixedTasks =
        node .mul (leaf 3) (leaf 3) ∧
      (Agree ((node .mul (node .add (leaf 1) (leaf 2)) (leaf 3)).refill mixedTasks).evaluate
          (node .mul (node .add (leaf 1) (leaf 2)) (leaf 3)).evaluate ∨
        ∃ v, v.isNaN = true ∧ node .mul (node .add (leaf 1) (leaf 2)) (leaf 3) = leaf v ∧
          (node .mul (node .add (leaf 1) (leaf 2)) (leaf 3)).refill mixedTasks = leaf v) :=
  ⟨mixedTasks_exact, by decide +kernel, refill_keeps_meaning mixedTasks_exact _⟩

/-- A single leaf that is no number does not agree with itself, with no task at all. -/
theorem nan_leaf_disagrees : (∀ k ∈ ([] : List Task), k.Exact) ∧
    ((leaf (0 / 0)).refill []).evaluate = .ok (0 / 0) ∧ (leaf (0 / 0)).evaluate = .ok (0 / 0) ∧
      ¬Agree ((leaf (0 / 0)).refill []).evaluate (leaf (0 / 0)).evaluate := by
  refine ⟨fun k hk => absurd hk (by simp), rfl, rfl, fun h => ?_⟩
  have hself : ((0 / 0 : Float) == 0 / 0) = false := by decide +kernel
  exact absurd (show ((0 / 0 : Float) == 0 / 0) = true from h) (by rw [hself]; decide)

/-- What a tree has come down to is its value, and a column has a place for it. -/
theorem exists_result_of_leaf {tasks : List Task} (hexact : ∀ k ∈ tasks, k.Exact) {t : Tree}
    (ht : t.Finite) {w : Float} (hleaf : t.refill tasks = leaf w) :
    ∃ v x, t.evaluate = .ok v ∧ columnFloat w = some x ∧ (x == v) = true := by
  have hagree : Agree (.ok w) t.evaluate := by
    have h := evaluate_refill hexact ht
    rwa [hleaf] at h
  obtain ⟨v, hv, hvw⟩ := Agree.of_ok hagree.symm
  obtain ⟨x, hx⟩ := Number.exists_columnFloat (Number.isNaN_of_beq (Number.beq_symm hvw))
  refine ⟨v, x, hv, hx, ?_⟩
  exact Number.beq_trans (Number.beq_symm (Number.columnFloat_agrees hx)) (Number.beq_symm hvw)

end Tree

end Piecework
