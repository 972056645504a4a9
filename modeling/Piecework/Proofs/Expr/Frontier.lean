import Mathlib.Data.List.Nodup
import Mathlib.Tactic.Common
import Piecework.Expr.Frontier

/-!
# Places in a tree

A path leads from the root of a tree to a subtree.  The frontier is described by what
stands at its paths, and replacing a ready node by a number is a change at one place.

* `at?_append` follows a path in two parts.
* `mem_frontier` says which operations are ready, `eq_of_mem_frontier` that no two of
  them share a place, and `exists_mem_frontier` that a tree which is not a number has
  one.
* `places` lists where the operations are, each place once.
* `put` replaces a subtree.  `at?_put_of_not_prefix` says that the other ready nodes stay where
  they are, and `operationCount_put` that one operation less is left.
-/

namespace Piecework

/-- The text of a path names the path. -/
theorem Path.text_injective : Function.Injective Path.text := by
  have hletter : Function.Injective Side.letter := by
    intro a b h
    cases a <;> cases b <;> first | rfl | exact absurd h (by decide)
  intro p q h
  have : p.map Side.letter = q.map Side.letter := by
    have := congrArg String.toList h
    rwa [Path.text, Path.text, String.toList_ofList, String.toList_ofList] at this
  exact List.map_injective_iff.2 hletter this

namespace Tree

@[simp]
theorem at?_nil (t : Tree) : t.at? [] = some t := by
  cases t <;> rfl

theorem at?_leaf {v : Float} {p : Path} {u : Tree} (h : (leaf v).at? p = some u) :
    p = [] ∧ u = leaf v := by
  cases p with
  | nil => exact ⟨rfl, (Option.some.inj h).symm⟩
  | cons side p => cases h

theorem at?_append (t : Tree) (p q : Path) : t.at? (p ++ q) = (t.at? p).bind (·.at? q) := by
  induction p generalizing t with
  | nil => simp
  | cons side p ih =>
    cases t with
    | leaf v => rfl
    | node op l r => cases side <;> exact ih _

/-! ## The frontier -/

theorem operation?_eq_some {t : Tree} {op : Operator} {a b : Float} :
    t.operation? = some (op, a, b) ↔ t = node op (leaf a) (leaf b) := by
  constructor
  · intro h
    unfold operation? at h
    split at h
    · cases h
      rfl
    · cases h
  · rintro rfl
    rfl

theorem mem_frontierAt_node {op : Operator} {l r : Tree} {p : Path} {x : Ready} :
    x ∈ (node op l r).frontierAt p ↔
      x ∈ l.frontierAt (p ++ [Side.left]) ∨ x ∈ r.frontierAt (p ++ [Side.right]) ∨
        (x.path = p ∧ node op l r = node x.op (leaf x.lhs) (leaf x.rhs)) := by
  rw [frontierAt, List.mem_append, List.mem_append, or_assoc]
  refine or_congr_right (or_congr_right ?_)
  rw [← operation?_eq_some]
  split
  · rename_i op' a b heq
    rw [heq]
    cases x
    simp [Option.some.injEq, Prod.mk.injEq, eq_comm]
  · rename_i heq
    simp [heq]

/-- The ready nodes of a tree with a path of its own. -/
theorem mem_frontierAt {t : Tree} {p : Path} {x : Ready} :
    x ∈ t.frontierAt p ↔
      ∃ q, x.path = p ++ q ∧ t.at? q = some (node x.op (leaf x.lhs) (leaf x.rhs)) := by
  induction t generalizing p with
  | leaf v =>
    constructor
    · exact fun h => absurd h List.not_mem_nil
    · rintro ⟨q, -, hq⟩
      exact absurd (at?_leaf hq).2 (by simp)
  | node op l r ihl ihr =>
    rw [mem_frontierAt_node, ihl, ihr]
    constructor
    · rintro (⟨q, hp, hq⟩ | ⟨q, hp, hq⟩ | ⟨hp, hq⟩)
      · exact ⟨.left :: q, by simpa using hp, hq⟩
      · exact ⟨.right :: q, by simpa using hp, hq⟩
      · exact ⟨[], by simpa using hp, by simpa using hq⟩
    · rintro ⟨q, hp, hq⟩
      cases q with
      | nil => exact .inr (.inr ⟨by simpa using hp, by simpa using hq⟩)
      | cons side q =>
        cases side with
        | left => exact .inl ⟨q, by simpa using hp, hq⟩
        | right => exact .inr (.inl ⟨q, by simpa using hp, hq⟩)

/-- An operation is ready when it stands at its place with two numbers below it. -/
theorem mem_frontier {t : Tree} {x : Ready} :
    x ∈ t.frontier ↔ t.at? x.path = some (node x.op (leaf x.lhs) (leaf x.rhs)) := by
  rw [frontier, mem_frontierAt]
  constructor
  · rintro ⟨q, hp, hq⟩
    rwa [hp]
  · exact fun h => ⟨x.path, rfl, h⟩

/-- No two ready operations share a place. -/
theorem eq_of_mem_frontier {t : Tree} {x y : Ready} (hx : x ∈ t.frontier) (hy : y ∈ t.frontier)
    (h : x.path = y.path) : x = y := by
  rw [mem_frontier] at hx hy
  rw [h, hy, Option.some.injEq, node.injEq, leaf.injEq, leaf.injEq] at hx
  obtain ⟨hop, ha, hb⟩ := hx
  cases x
  cases y
  simp_all

/-- Below a ready operation there are only numbers. -/
theorem prefix_of_mem_frontier {t : Tree} {x y : Ready} (hx : x ∈ t.frontier)
    (hy : y ∈ t.frontier) (h : x.path <+: y.path) : x = y := by
  obtain ⟨q, hq⟩ := h
  have hat := mem_frontier.1 hy
  rw [← hq, at?_append, mem_frontier.1 hx, Option.bind_some] at hat
  cases q with
  | nil => exact eq_of_mem_frontier hx hy (by simpa using hq)
  | cons side q =>
    cases side with
    | left => exact absurd (at?_leaf hat).2 (by simp)
    | right => exact absurd (at?_leaf hat).2 (by simp)

theorem nodup_frontierAt (t : Tree) (p : Path) : ((t.frontierAt p).map Ready.path).Nodup := by
  induction t generalizing p with
  | leaf v => exact List.nodup_nil
  | node op l r ihl ihr =>
    have hside : ∀ {x y : Ready}, x ∈ l.frontierAt (p ++ [Side.left]) →
        y ∈ r.frontierAt (p ++ [Side.right]) → x.path ≠ y.path := by
      intro x y hx hy
      obtain ⟨q, hq, -⟩ := mem_frontierAt.1 hx
      obtain ⟨q', hq', -⟩ := mem_frontierAt.1 hy
      simp [hq, hq']
    rw [frontierAt]
    split
    · rename_i op' a b heq
      rw [operation?_eq_some] at heq
      cases heq
      simp [frontierAt]
    · rw [List.append_nil, List.map_append, List.nodup_append]
      refine ⟨ihl _, ihr _, ?_⟩
      intro q hq q' hq'
      obtain ⟨x, hx, rfl⟩ := List.mem_map.1 hq
      obtain ⟨y, hy, rfl⟩ := List.mem_map.1 hq'
      exact hside hx hy

/-- The places of the ready operations differ. -/
theorem nodup_frontier (t : Tree) : (t.frontier.map Ready.path).Nodup := nodup_frontierAt t []

/-- A tree with an operation has a ready one. -/
theorem exists_mem_frontier {t : Tree} (h : t.isLeaf = false) : ∃ x, x ∈ t.frontier := by
  induction t with
  | leaf v => cases h
  | node op l r ihl ihr =>
    cases l with
    | node =>
      obtain ⟨x, hx⟩ := ihl rfl
      rw [mem_frontier] at hx
      exact ⟨⟨.left :: x.path, x.op, x.lhs, x.rhs⟩, mem_frontier.2 hx⟩
    | leaf a =>
      cases r with
      | node =>
        obtain ⟨x, hx⟩ := ihr rfl
        rw [mem_frontier] at hx
        exact ⟨⟨.right :: x.path, x.op, x.lhs, x.rhs⟩, mem_frontier.2 hx⟩
      | leaf b => exact ⟨⟨[], op, a, b⟩, mem_frontier.2 rfl⟩

theorem isLeaf_iff {t : Tree} : t.isLeaf = true ↔ ∃ v, t = leaf v := by
  cases t with
  | leaf v => exact iff_of_true rfl ⟨v, rfl⟩
  | node op l r => exact iff_of_false Bool.false_ne_true (by simp)

/-- Only a number has no ready operation. -/
theorem isLeaf_eq_false_iff {t : Tree} : t.isLeaf = false ↔ ∃ op l r, t = node op l r := by
  cases t with
  | leaf v => exact iff_of_false (by simp [isLeaf, value?]) (by simp)
  | node op l r => exact iff_of_true rfl ⟨op, l, r, rfl⟩

theorem frontier_eq_nil_iff {t : Tree} : t.frontier = [] ↔ t.isLeaf = true := by
  constructor
  · intro h
    by_contra hleaf
    obtain ⟨x, hx⟩ := exists_mem_frontier (by simpa using hleaf)
    rw [h] at hx
    exact List.not_mem_nil hx
  · intro h
    obtain ⟨v, rfl⟩ := isLeaf_iff.1 h
    rfl

/-- The places of the operations of a tree. -/
def places : Tree → List Path
  | leaf _ => []
  | node _ l r => [] :: (l.places.map (.left :: ·) ++ r.places.map (.right :: ·))

theorem length_places (t : Tree) : t.places.length = t.operationCount := by
  induction t with
  | leaf v => rfl
  | node op l r ihl ihr =>
    rw [places, List.length_cons, List.length_append, List.length_map, List.length_map, ihl, ihr,
      operationCount]
    omega

theorem mem_places {t l r : Tree} {p : Path} {op : Operator} (h : t.at? p = some (node op l r)) :
    p ∈ t.places := by
  induction p generalizing t with
  | nil =>
    rw [at?_nil, Option.some.injEq] at h
    rw [h]
    exact List.mem_cons_self
  | cons side p ih =>
    cases t with
    | leaf v => cases h
    | node op' l' r' =>
      refine List.mem_cons_of_mem _ (List.mem_append.2 ?_)
      cases side with
      | left => exact .inl (List.mem_map_of_mem (ih h))
      | right => exact .inr (List.mem_map_of_mem (ih h))

theorem exists_node_of_mem_places {t : Tree} {p : Path} (h : p ∈ t.places) :
    ∃ op l r, t.at? p = some (node op l r) := by
  induction t generalizing p with
  | leaf v => cases h
  | node op l r ihl ihr =>
    rw [places, List.mem_cons, List.mem_append, List.mem_map, List.mem_map] at h
    rcases h with rfl | ⟨q, hq, rfl⟩ | ⟨q, hq, rfl⟩
    · exact ⟨op, l, r, rfl⟩
    · exact ihl hq
    · exact ihr hq

theorem nodup_places (t : Tree) : t.places.Nodup := by
  induction t with
  | leaf v => exact List.nodup_nil
  | node op l r ihl ihr =>
    rw [places, List.nodup_cons, List.nodup_append]
    refine ⟨by simp, ihl.map List.cons_injective, ihr.map List.cons_injective, ?_⟩
    intro p hp q hq
    obtain ⟨p', -, rfl⟩ := List.mem_map.1 hp
    obtain ⟨q', -, rfl⟩ := List.mem_map.1 hq
    simp

/-! ## Trees with a value -/

theorem exists_evaluate_of_node {op : Operator} {l r : Tree} {v : Float}
    (h : (node op l r).evaluate = .ok v) :
    ∃ a b, l.evaluate = .ok a ∧ r.evaluate = .ok b ∧ op.apply a b = .ok v := by
  unfold evaluate at h
  cases hl : l.evaluate with
  | error e =>
    rw [hl] at h
    cases h
  | ok a =>
    cases hr : r.evaluate with
    | error e =>
      rw [hl, hr] at h
      cases h
    | ok b =>
      rw [hl, hr] at h
      exact ⟨a, b, rfl, rfl, h⟩

/-- In a tree with a value every subtree has one. -/
theorem exists_evaluate_of_at? {t u : Tree} {p : Path} {v : Float} (h : t.evaluate = .ok v)
    (hat : t.at? p = some u) : ∃ w, u.evaluate = .ok w := by
  induction p generalizing t v with
  | nil =>
    rw [at?_nil, Option.some.injEq] at hat
    exact ⟨v, hat ▸ h⟩
  | cons side p ih =>
    cases t with
    | leaf v => cases hat
    | node op l r =>
      obtain ⟨a, b, hl, hr, -⟩ := exists_evaluate_of_node h
      cases side with
      | left => exact ih hl hat
      | right => exact ih hr hat

/-- In a tree with a value every ready operation has one. -/
theorem exists_apply_of_mem_frontier {t : Tree} {x : Ready} {v : Float} (h : t.evaluate = .ok v)
    (hx : x ∈ t.frontier) : ∃ w, x.op.apply x.lhs x.rhs = .ok w :=
  exists_evaluate_of_at? h (mem_frontier.1 hx)

/-! ## Replacing a subtree -/

/-- The tree with another subtree at the end of a path.  A path that leads nowhere
changes nothing. -/
def put : Tree → Path → Tree → Tree
  | _, [], u => u
  | leaf v, _ :: _, _ => leaf v
  | node op l r, .left :: p, u => node op (l.put p u) r
  | node op l r, .right :: p, u => node op l (r.put p u)

@[simp]
theorem put_nil (t u : Tree) : t.put [] u = u := by
  cases t <;> rfl

/-- What stands at the end of the path is replaced. -/
theorem at?_put_self {t u w : Tree} {p : Path} (h : t.at? p = some w) :
    (t.put p u).at? p = some u := by
  induction p generalizing t with
  | nil => simp
  | cons side p ih =>
    cases t with
    | leaf v => cases h
    | node op l r => cases side <;> exact ih h

/-- What stands elsewhere is not changed. -/
theorem at?_put_of_not_prefix {t u : Tree} {p q : Path} (hpq : ¬p <+: q) (hqp : ¬q <+: p) :
    (t.put p u).at? q = t.at? q := by
  induction p generalizing t q with
  | nil => exact absurd List.nil_prefix hpq
  | cons side p ih =>
    cases q with
    | nil => exact absurd List.nil_prefix hqp
    | cons side' q =>
      cases t with
      | leaf v => rfl
      | node op l r =>
        cases side <;> cases side'
        · exact ih (by simpa using hpq) (by simpa using hqp)
        · rfl
        · rfl
        · exact ih (by simpa using hpq) (by simpa using hqp)

/-- The other ready operations stay ready when one of them is replaced by a number. -/
theorem mem_frontier_put {t : Tree} {x y : Ready} {v : Float} (hx : x ∈ t.frontier)
    (hy : y ∈ t.frontier) (hne : y ≠ x) : y ∈ (t.put x.path (leaf v)).frontier := by
  rw [mem_frontier, at?_put_of_not_prefix, mem_frontier.1 hy]
  · exact fun h => hne (prefix_of_mem_frontier hx hy h).symm
  · exact fun h => hne (prefix_of_mem_frontier hy hx h)

/-- Where there was no operation, there is none after a number was put somewhere. -/
theorem at?_put_leaf {t : Tree} {p q : Path} {v : Float} {op : Operator} {l r : Tree}
    (h : (t.put p (leaf v)).at? q = some (node op l r)) :
    ∃ l' r', t.at? q = some (node op l' r') := by
  induction p generalizing t q with
  | nil =>
    rw [put_nil] at h
    exact absurd (at?_leaf h).2 (by simp)
  | cons side p ih =>
    cases t with
    | leaf w => exact ⟨l, r, h⟩
    | node op' l' r' =>
      cases q with
      | nil =>
        cases side with
        | left =>
          cases h
          exact ⟨l', r, rfl⟩
        | right =>
          cases h
          exact ⟨l, r', rfl⟩
      | cons side' q =>
        cases side <;> cases side'
        · exact ih (t := l') h
        · exact ⟨l, r, h⟩
        · exact ⟨l, r, h⟩
        · exact ih (t := r') h

/-- An operation less is left when a ready one is replaced by a number. -/
theorem operationCount_put {t : Tree} {x : Ready} (v : Float) (hx : x ∈ t.frontier) :
    (t.put x.path (leaf v)).operationCount + 1 = t.operationCount := by
  rw [mem_frontier] at hx
  generalize x.path = p at hx
  induction p generalizing t with
  | nil =>
    rw [at?_nil, Option.some.injEq] at hx
    rw [hx]
    rfl
  | cons side p ih =>
    cases t with
    | leaf w => cases hx
    | node op l r =>
      cases side with
      | left =>
        have := ih (t := l) hx
        simp only [put, operationCount]
        omega
      | right =>
        have := ih (t := r) hx
        simp only [put, operationCount]
        omega

end Tree

end Piecework
