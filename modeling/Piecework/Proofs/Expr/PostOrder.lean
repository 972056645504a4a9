import Piecework.Proofs.Expr.Frontier

/-!
# The order of the frontier

A walk that visits both operands in front of their operator, the left one first, comes to the
nodes of a tree in an order that can be read off their paths: `Path.Before` compares two paths
where they part.

* `pairwise_frontierAt`: the frontier lists its operations in this order, by induction over the
  tree with the path from the root as a parameter.
* `eq_frontier_of_pairwise`: a list of the ready operations in this order is the frontier.
* `visit` walks a tree with one path, which grows on the way down and shrinks on the way back, and
  `visit_eq` says that it finds the frontier and leaves the path as it was.
* `frontier_lists_ready` says which operations are listed, and how.
-/

namespace Piecework

namespace Path

/-- The node at the first path is visited in front of the node at the second one: it belongs to
an operand of it, or it stands to the left where the paths part. -/
inductive Before : Path → Path → Prop
  | operand (side : Side) (p : Path) : Before (side :: p) []
  | parted (p q : Path) : Before (.left :: p) (.right :: q)
  | inside (side : Side) {p q : Path} : Before p q → Before (side :: p) (side :: q)

theorem Before.asymm {p q : Path} (h : Before p q) : ¬Before q p := by
  induction h with
  | operand | parted => exact nofun
  | inside side _ ih =>
    intro h
    cases h with
    | inside _ h => exact ih h

/-- Paths are compared behind what they have in common. -/
theorem Before.append_left {q q' : Path} (h : Before q q') (p : Path) :
    Before (p ++ q) (p ++ q') := by
  induction p with
  | nil => exact h
  | cons side p ih => exact .inside side ih

/-- A path whose text begins with the text of another one begins with that path. -/
theorem isPrefix_of_text {p q : Path} (h : p.text.toList <+: q.text.toList) : p <+: q := by
  obtain ⟨rest, hrest⟩ := h
  rw [text, text, String.toList_ofList, String.toList_ofList] at hrest
  obtain ⟨p', rest', hq, hp, -⟩ := List.map_eq_append_iff.1 hrest.symm
  have hsame : p' = p := text_injective (congrArg String.ofList hp)
  exact ⟨rest', by rw [hq, hsame]⟩

end Path

namespace Tree

/-- The frontier is listed in the order of the walk. -/
theorem pairwise_frontierAt (t : Tree) (p : Path) :
    (t.frontierAt p).Pairwise fun x y => Path.Before x.path y.path := by
  induction t generalizing p with
  | leaf v => exact List.Pairwise.nil
  | node op l r ihl ihr =>
    have hsides : ∀ x ∈ l.frontierAt (p ++ [Side.left]), ∀ y ∈ r.frontierAt (p ++ [Side.right]),
        Path.Before x.path y.path := by
      intro x hx y hy
      obtain ⟨q, hq, -⟩ := mem_frontierAt.1 hx
      obtain ⟨q', hq', -⟩ := mem_frontierAt.1 hy
      rw [hq, hq', List.append_assoc, List.append_assoc]
      exact (Path.Before.parted q q').append_left p
    have hbelow : ∀ side q, Path.Before (p ++ [side] ++ q) p := by
      intro side q
      have h := (Path.Before.operand side q).append_left p
      rwa [List.append_nil, ← List.singleton_append, ← List.append_assoc] at h
    have hroot : ∀ x ∈ l.frontierAt (p ++ [Side.left]) ++ r.frontierAt (p ++ [Side.right]),
        Path.Before x.path p := by
      intro x hx
      rcases List.mem_append.1 hx with hx | hx <;> obtain ⟨q, hq, -⟩ := mem_frontierAt.1 hx <;>
        exact hq ▸ hbelow _ q
    rw [frontierAt, List.pairwise_append]
    refine ⟨List.pairwise_append.2 ⟨ihl _, ihr _, hsides⟩, ?_, ?_⟩
    · split
      · exact List.pairwise_singleton _ _
      · exact List.Pairwise.nil
    · intro x hx y hy
      split at hy
      · rw [List.mem_singleton.1 hy]
        exact hroot x hx
      · cases hy

theorem pairwise_frontier (t : Tree) :
    t.frontier.Pairwise fun x y => Path.Before x.path y.path := t.pairwise_frontierAt []

/-- There is only one way to list the ready operations in this order. -/
theorem eq_frontier_of_pairwise {t : Tree} {xs : List Ready} (hmem : ∀ x, x ∈ xs ↔ x ∈ t.frontier)
    (hxs : xs.Pairwise fun x y => Path.Before x.path y.path) : xs = t.frontier := by
  have hne : ∀ {x y : Ready}, Path.Before x.path y.path → x ≠ y := by
    rintro x y h rfl
    exact h.asymm h
  have hperm : xs.Perm t.frontier :=
    (List.perm_ext_iff_of_nodup (hxs.imp hne) (t.pairwise_frontier.imp hne)).2 hmem
  exact hperm.eq_of_pairwise (fun x y _ _ h h' => absurd h' h.asymm) hxs t.pairwise_frontier

/-- A walk through a tree: the path to where it stands, and the ready operations found so far. -/
structure Walk where
  path : Path
  found : List Ready

namespace Walk

/-- Goes down to an operand. -/
def down (side : Side) (w : Walk) : Walk := { w with path := w.path ++ [side] }

/-- Comes back from an operand. -/
def up (w : Walk) : Walk := { w with path := w.path.dropLast }

theorem up_concat (p : Path) (side : Side) (found : List Ready) :
    up ⟨p ++ [side], found⟩ = ⟨p, found⟩ := by
  rw [up, List.dropLast_concat]

end Walk

/-- Walks through the operands and then looks at their operator. -/
def visit : Tree → Walk → Walk
  | leaf _, w => w
  | node op l r, w =>
    let w := (r.visit ((l.visit (w.down .left)).up.down .right)).up
    match (node op l r).operation? with
    | some (op, a, b) => { w with found := w.found ++ [⟨w.path, op, a, b⟩] }
    | none => w

theorem visit_eq (t : Tree) (w : Walk) : t.visit w = ⟨w.path, w.found ++ t.frontierAt w.path⟩ := by
  induction t generalizing w with
  | leaf v => rw [visit, frontierAt, List.append_nil]
  | node op l r ihl ihr =>
    simp only [visit, ihl, ihr, Walk.down, Walk.up_concat, frontierAt]
    cases (node op l r).operation? with
    | none => rw [List.append_nil, List.append_assoc]
    | some found => simp only [List.append_assoc]

/-- A walk with a single path finds the frontier and leaves the path as it was.  The frontier lists
the operations whose operands are both numbers and nothing else, operands in front of operators
and left in front of right, each with its operator, its operands and the path that leads to it.
Each comes once, and no path is the beginning of another one.  Only a number alone has an empty
frontier. -/
theorem frontier_lists_ready (t : Tree) :
    t.visit ⟨[], []⟩ = ⟨[], t.frontier⟩ ∧
      (∀ xs : List Ready, xs = t.frontier ↔
        (∀ x, x ∈ xs ↔ t.at? x.path = some (node x.op (leaf x.lhs) (leaf x.rhs))) ∧
          xs.Pairwise fun x y => Path.Before x.path y.path) ∧
      (t.frontier.map fun x => x.path.text).Nodup ∧
      (∀ x ∈ t.frontier, ∀ y ∈ t.frontier, x.path.text.toList <+: y.path.text.toList → x = y) ∧
      (t.frontier = [] ↔ ∃ v, t = leaf v) := by
  have hnodup : (t.frontier.map fun x => x.path.text).Nodup := by
    have h := t.nodup_frontier.map Path.text_injective
    rwa [List.map_map] at h
  refine ⟨t.visit_eq ⟨[], []⟩, fun xs => ⟨?_, ?_⟩, hnodup, ?_, ?_⟩
  · rintro rfl
    exact ⟨fun x => mem_frontier, t.pairwise_frontier⟩
  · rintro ⟨hmem, hxs⟩
    exact eq_frontier_of_pairwise (fun x => (hmem x).trans mem_frontier.symm) hxs
  · intro x hx y hy h
    exact prefix_of_mem_frontier hx hy (Path.isPrefix_of_text h)
  · rw [frontier_eq_nil_iff, isLeaf_iff]

/-- Two equal sums keep their places, and the product above them is not ready yet. -/
example : (node .mul (node .add (leaf 2) (leaf 3)) (node .add (leaf 2) (leaf 3))).frontier.map
    (fun x => x.path.text) = ["L", "R"] := by
  decide +kernel

end Tree

end Piecework
