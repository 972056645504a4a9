import Piecework.Proofs.Refill

/-!
# Folding in results step by step

A pass starts from the text each time and folds in all results at once.  This module compares
that with folding them into a tree in which earlier results have been folded in already, and
looks at what the order of the tasks has to do with it.

* `refill_append`: results may be folded in by instalments.
* `refillAt_pointwise`: two lists of tasks whose results match bring a tree to matching trees.
* `refill_instalments`: instalments, repetitions and the order of the tasks make no difference.
-/

namespace Piecework

open Number (Kin beq_symm beq_trans)

/-- Numbers that match are the same for every comparison. -/
def Indistinct (R : Float → Float → Prop) : Prop :=
  ∀ v w, R v w → ∀ x : Float, (x == v) = (x == w)

theorem indistinct_eq : Indistinct Eq := by
  intro v w h x
  rw [h]

theorem Number.beq_comm (a b : Float) : (a == b) = (b == a) :=
  Bool.eq_iff_iff.2 ⟨beq_symm, beq_symm⟩

theorem indistinct_kin : Indistinct Kin := by
  intro v w h x
  rw [Number.beq_comm x v, Number.beq_comm x w]
  exact h.beq_eq x

/-! ## Lists of tasks -/

theorem of_finished? {tasks : List Task} {path : String} {op : Operator} {a b : Float} {k : Task}
    (h : finished? tasks path op a b = some k) :
    k ∈ tasks ∧ k.status = .done ∧ k.computes path op a b = true := by
  have hmatch := List.find?_some h
  rw [Bool.and_eq_true, beq_iff_eq] at hmatch
  exact ⟨List.mem_of_find?_eq_some h, hmatch⟩

/-- A first match in a list is also the first one in a longer list. -/
theorem knowsMore_append (tasks later : List Task) : Tree.KnowsMore tasks (tasks ++ later) := by
  intro path op a b v h
  unfold resultOf? finished? at h ⊢
  rw [List.find?_append]
  cases hfound : tasks.find? fun k => k.status == .done && k.computes path op a b with
  | none =>
    rw [hfound] at h
    cases h
  | some k =>
    rw [hfound] at h
    exact h

/-- Two values that are there both or neither, and match if they are. -/
inductive Matched (R : Float → Float → Prop) : Option Float → Option Float → Prop
  | none : Matched R none none
  | some {v w : Float} : R v w → Matched R (some v) (some w)

theorem Matched.of_eq {R : Float → Float → Prop} (hrefl : ∀ v, R v v) {x y : Option Float}
    (h : x = y) : Matched R x y := by
  rw [h]
  cases y with
  | none => exact .none
  | some v => exact .some (hrefl v)

/-- Finished tasks of one place, with one operator and operands that are equal as numbers, have
matching results. -/
def Concordant (R : Float → Float → Prop) (tasks : List Task) : Prop :=
  ∀ k ∈ tasks, ∀ k' ∈ tasks, k.status = .done → k'.status = .done →
    k'.computes k.path k.operator k.operand1 k.operand2 = true → Matched R k.result k'.result

theorem Task.computes_iff {k : Task} {path : String} {op : Operator} {a b : Float} :
    k.computes path op a b = true ↔
      k.path = path ∧ k.operator = op ∧ (k.operand1 == a) = true ∧ (k.operand2 == b) = true := by
  simp only [computes, Bool.and_eq_true, beq_iff_eq, and_assoc]

/-- Two tasks that compute one operation compute the same one. -/
theorem Task.computes_of_computes {k k' : Task} {path : String} {op : Operator} {a b : Float}
    (h : k.computes path op a b = true) (h' : k'.computes path op a b = true) :
    k'.computes k.path k.operator k.operand1 k.operand2 = true := by
  rw [Task.computes_iff] at h h' ⊢
  refine ⟨h'.1.trans h.1.symm, h'.2.1.trans h.2.1.symm, ?_, ?_⟩
  · exact beq_trans h'.2.2.1 (beq_symm h.2.2.1)
  · exact beq_trans h'.2.2.2 (beq_symm h.2.2.2)

/-- In whatever order concordant tasks are searched, the results that are found match. -/
theorem Concordant.matched {R : Float → Float → Prop} {tasks tasks' : List Task}
    (h : Concordant R tasks) (hperm : tasks.Perm tasks') (path : String) (op : Operator)
    (a b : Float) : Matched R (resultOf? tasks path op a b) (resultOf? tasks' path op a b) := by
  unfold resultOf?
  cases hfound : finished? tasks path op a b with
  | none =>
    -- nothing is found in any order
    have hnone : finished? tasks' path op a b = none := by
      apply List.find?_eq_none.2
      intro k hk
      exact List.find?_eq_none.1 hfound k (hperm.mem_iff.2 hk)
    rw [hnone]
    exact .none
  | some k =>
    have hk := of_finished? hfound
    cases hfound' : finished? tasks' path op a b with
    | none =>
      have hnot := List.find?_eq_none.1 hfound' k (hperm.mem_iff.1 hk.1)
      simp [hk.2.1, hk.2.2] at hnot
    | some k' =>
      have hk' := of_finished? hfound'
      exact h k hk.1 k' (hperm.mem_iff.2 hk'.1) hk.2.1 hk'.2.1
        (Task.computes_of_computes hk.2.2 hk'.2.2)

/-- What is looked for need only be given up to equality of numbers. -/
theorem resultOf?_operands {a a' b b' : Float} (ha : ∀ x : Float, (x == a) = (x == a'))
    (hb : ∀ x : Float, (x == b) = (x == b')) (tasks : List Task) (path : String) (op : Operator) :
    resultOf? tasks path op a b = resultOf? tasks path op a' b' := by
  unfold resultOf? finished? Task.computes
  simp only [ha, hb]

namespace Tree

/-! ## Instalments -/

/-- What later results are folded in on top of earlier ones is what all of them bring the tree
to. -/
theorem refillAt_refillAt {tasks tasks' : List Task} (hle : KnowsMore tasks tasks') (t : Tree)
    (p : Path) : (t.refillAt tasks p).refillAt tasks' p = t.refillAt tasks' p := by
  induction t generalizing p with
  | leaf v => rfl
  | node op l r ihl ihr =>
    cases hc : (node op l r).refillAt tasks p with
    | leaf v =>
      -- a number is not folded any further
      show leaf v = _
      rw [refillAt_eq_leaf_of_le hle hc]
    | node op' l' r' =>
      have hparts := (refillAt_eq_node.1 hc).1
      rw [← hparts.1, ← hparts.2.1, ← hparts.2.2]
      simp only [refillAt, ihl, ihr]

theorem refill_append (t : Tree) (tasks later : List Task) :
    (t.refill tasks).refill (tasks ++ later) = t.refill (tasks ++ later) :=
  refillAt_refillAt (knowsMore_append tasks later) t []

/-! ## Order -/

/-- Trees of one shape, with the same operators, whose numbers match. -/
def Pointwise (R : Float → Float → Prop) : Tree → Tree → Prop
  | leaf v, leaf w => R v w
  | node op l r, node op' l' r' => op = op' ∧ l.Pointwise R l' ∧ r.Pointwise R r'
  | leaf _, node .. | node .., leaf _ => False

theorem Pointwise.eq {t t' : Tree} (h : t.Pointwise Eq t') : t = t' := by
  induction t generalizing t' with
  | leaf v =>
    cases t' with
    | leaf w => exact congrArg leaf h
    | node => exact absurd h id
  | node op l r ihl ihr =>
    cases t' with
    | leaf w => exact absurd h id
    | node op' l' r' => rw [h.1, ihl h.2.1, ihr h.2.2]

section Pointwise

variable {R : Float → Float → Prop} {tasks tasks' : List Task}

theorem collapse_leaf (tasks : List Task) (p : Path) (op : Operator) (a b : Float) :
    collapse tasks p op (leaf a) (leaf b) =
      (resultOf? tasks p.text op a b).elim (node op (leaf a) (leaf b)) leaf := by
  cases hresult : resultOf? tasks p.text op a b with
  | none => rw [collapse, hresult, Option.elim_none]
  | some v => rw [collapse, hresult, Option.elim_some]

theorem collapse_pointwise (hR : Indistinct R) {p : Path} {op : Operator} {l r l' r' : Tree}
    (hl : l.Pointwise R l') (hr : r.Pointwise R r')
    (h : ∀ a b, Matched R (resultOf? tasks p.text op a b) (resultOf? tasks' p.text op a b)) :
    (collapse tasks p op l r).Pointwise R (collapse tasks' p op l' r') := by
  cases l with
  | node =>
    cases l' with
    | leaf => exact absurd hl id
    | node => exact ⟨rfl, hl, hr⟩
  | leaf a =>
    cases l' with
    | node => exact absurd hl id
    | leaf a' =>
      cases r with
      | node =>
        cases r' with
        | leaf => exact absurd hr id
        | node => exact ⟨rfl, hl, hr⟩
      | leaf b =>
        cases r' with
        | node => exact absurd hr id
        | leaf b' =>
          have hmatched := h a b
          rw [resultOf?_operands (hR a a' hl) (hR b b' hr) tasks'] at hmatched
          rw [collapse_leaf, collapse_leaf]
          generalize resultOf? tasks p.text op a b = x at hmatched
          generalize resultOf? tasks' p.text op a' b' = y at hmatched
          cases hmatched with
          | none => exact ⟨rfl, hl, hr⟩
          | some hvw => exact hvw

theorem refillAt_pointwise (hR : Indistinct R) (hrefl : ∀ v, R v v)
    (h : ∀ path op a b, Matched R (resultOf? tasks path op a b) (resultOf? tasks' path op a b))
    (t : Tree) (p : Path) : (t.refillAt tasks p).Pointwise R (t.refillAt tasks' p) := by
  induction t generalizing p with
  | leaf v => exact hrefl v
  | node op l r ihl ihr => exact collapse_pointwise hR (ihl _) (ihr _) (h p.text op)

end Pointwise

/-- Results may be folded in by instalments, or again: that brings a tree to what all of them
bring it to at once.  So a number that stands for a result is not revised by later tasks; it only
vanishes into a number further up.  Nor does the order of concordant tasks make a difference:
where tasks of one operation have one result the tree is the same, and where their results are
only equal as numbers it has the same shape and equal numbers. -/
theorem refill_instalments (t : Tree) (tasks later : List Task) :
    (t.refill tasks).refill (tasks ++ later) = t.refill (tasks ++ later) ∧
    (t.refill tasks).refill tasks = t.refill tasks ∧
    (∀ p v u, (t.refill tasks).at? p = some (leaf v) →
      (t.refill (tasks ++ later)).at? p = some u → u = leaf v) ∧
    ∀ tasks', tasks.Perm tasks' →
      (Concordant Eq tasks → t.refill tasks = t.refill tasks') ∧
      (Concordant Kin tasks → (t.refill tasks).Pointwise Kin (t.refill tasks')) := by
  have happend := refill_append t tasks later
  refine ⟨happend, ?_, ?_, ?_⟩
  · have hself := refill_append t tasks []
    rwa [List.append_nil] at hself
  · intro p v u hv hu
    rw [← happend] at hu
    obtain ⟨u', hu', hrefill⟩ := exists_at?_of_refillAt (p := []) hu
    have hleaf : u' = leaf v := Option.some.inj (hu'.symm.trans hv)
    rw [hleaf] at hrefill
    exact hrefill.symm
  · intro tasks' hperm
    constructor
    · intro hconcordant
      apply Pointwise.eq
      exact refillAt_pointwise indistinct_eq Eq.refl (hconcordant.matched hperm) t []
    · intro hconcordant
      exact refillAt_pointwise indistinct_kin Kin.refl (hconcordant.matched hperm) t []

/-- The tree of `(0 + 2) * 3`. -/
def zeroTree : Tree := node .mul (node .add (leaf 0) (leaf 2)) (leaf 3)

/-- Tasks of that tree: the sum twice, once with the other zero, and the product, which is
not finished. -/
def zeroSums : List Task :=
  [⟨1, 1, .add, 0, 2, "L", some 2, .done, 0, .earliest, .earliest⟩,
    ⟨2, 1, .mul, 2, 3, "", none, .inProgress, 0, .earliest, .earliest⟩,
    ⟨3, 1, .add, -0, 2, "L", some 2, .done, 0, .earliest, .earliest⟩]

/-- A later task for the same sum, with another result. -/
def strayTask : Task := ⟨4, 1, .add, 0, 2, "L", some 9, .done, 0, .earliest, .earliest⟩

theorem zeroSums_concordant {R : Float → Float → Prop} (hrefl : ∀ v, R v v) :
    Concordant R zeroSums := by
  have hsame : ∀ k ∈ zeroSums, ∀ k' ∈ zeroSums, k.status = .done → k'.status = .done →
      k'.computes k.path k.operator k.operand1 k.operand2 = true → k.result = k'.result := by
    decide +kernel
  intro k hk k' hk' hdone hdone' hcomputes
  exact .of_eq hrefl (hsame k hk k' hk' hdone hdone' hcomputes)

theorem zeroSums_instalments :
    zeroTree.refill zeroSums = node .mul (leaf 2) (leaf 3) ∧
    (node .mul (leaf 2) (leaf 3)).refill (zeroSums ++ [strayTask]) =
      zeroTree.refill (zeroSums ++ [strayTask]) ∧
    (zeroTree.refill (zeroSums ++ [strayTask])).at? [.left] = some (leaf 2) ∧
    zeroSums.Perm zeroSums.reverse ∧ Concordant Eq zeroSums ∧ Concordant Kin zeroSums ∧
    zeroTree.refill zeroSums = zeroTree.refill zeroSums.reverse ∧
    (zeroTree.refill zeroSums).Pointwise Kin (zeroTree.refill zeroSums.reverse) := by
  have hrefilled : zeroTree.refill zeroSums = node .mul (leaf 2) (leaf 3) := by
    decide +kernel
  have hplace : ∃ u, (zeroTree.refill (zeroSums ++ [strayTask])).at? [.left] = some u := by
    apply Option.isSome_iff_exists.1
    decide +kernel
  obtain ⟨u, hu⟩ := hplace
  have hall := refill_instalments zeroTree zeroSums [strayTask]
  have hkept : u = leaf 2 := hall.2.2.1 [.left] 2 u (by rw [hrefilled]; rfl) hu
  have hperm := (List.reverse_perm zeroSums).symm
  have hexact := zeroSums_concordant Eq.refl
  have hequal := zeroSums_concordant Kin.refl
  have horder := hall.2.2.2 zeroSums.reverse hperm
  refine ⟨hrefilled, ?_, ?_, hperm, hexact, hequal, horder.1 hexact, horder.2 hequal⟩
  · rw [← hrefilled]
    exact hall.1
  · rw [hu, hkept]

end Tree

end Piecework
