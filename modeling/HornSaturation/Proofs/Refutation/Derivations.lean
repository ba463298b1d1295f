import HornSaturation.Proofs.Clause.Regular
import Mathlib.Data.Fintype.Card
import Mathlib.Data.Set.Finite.Basic
import Mathlib.Logic.Relation
import Mathlib.Order.Interval.Finset.Nat

/-!
# Derivations from clauses

The ground atoms that follow from the clauses of a problem are those that finitely many instances of
clauses lead to. An interpretation that satisfies the clauses makes all of them true, so none does
where `false` follows. A graph of steps is a derivation of its root if no cycle can be reached from
there.
-/

namespace HornSaturation

/-- Ground atoms that finitely many instances of the clauses of a problem lead to. -/
inductive NormalizedProblem.Derivable (z : ZeroDivision) (p : NormalizedProblem) :
    GroundAtom → Prop where
  | step {clause : NormalizedClause} {body : List GroundAtom} {head : GroundAtom}
      (hclause : clause ∈ p.clauses) (hinst : clause.HasInstance z p.relations body head)
      (hbody : ∀ g ∈ body, Derivable z p g) : Derivable z p head

/-- An interpretation satisfies a problem if it satisfies all clauses. -/
def NormalizedProblem.SatisfiedBy (z : ZeroDivision) (p : NormalizedProblem)
    (I : RelationId → List Value → Prop) : Prop :=
  ∀ clause ∈ p.clauses, clause.SatisfiedBy z p.relations I

namespace NormalizedProblem

variable {z : ZeroDivision} {p : NormalizedProblem} {g : GroundAtom}
  {I : RelationId → List Value → Prop}

/-- What follows from the clauses is true in every interpretation that satisfies them. -/
theorem Derivable.trueIn (h : p.Derivable z g) (hI : p.SatisfiedBy z I) : g.TrueIn I := by
  induction h with
  | step hclause hinst _ ih => exact hI _ hclause _ _ hinst ih

/-- Where `false` follows from the clauses, no interpretation satisfies them. -/
theorem not_satisfiedBy (h : p.Derivable z .falsum) : ¬ p.SatisfiedBy z I := fun hI => by
  obtain ⟨r, hr, -⟩ := h.trueIn hI
  cases hr

end NormalizedProblem

namespace Refutation

/-- A node of a refutation has another one among its children. -/
def Child (r : Refutation) (i j : Nat) : Prop := ∃ node, r.nodes[i]? = some node ∧ j ∈ node.children

/-- No node that can be reached from the root is derived from itself. -/
def Acyclic (r : Refutation) : Prop :=
  ∀ i, Relation.ReflTransGen r.Child 0 i → ¬ Relation.TransGen r.Child i i

/-- A node is derived by its clause from its children. -/
def StepAt (z : ZeroDivision) (p : NormalizedProblem) (r : Refutation) (node : RefutationNode) :
    Prop :=
  ∃ clause body, p.clauses[node.clause]? = some clause ∧
    List.Forall₂ (fun j g => ∃ child, r.nodes[j]? = some child ∧ child.atom = g) node.children
      body ∧
    clause.HasInstance z p.relations body node.atom

variable {z : ZeroDivision} {p : NormalizedProblem} {r : Refutation}

/-- A refutation in which children have greater numbers has no cycle. -/
theorem acyclic_of_lt (h : ∀ i j, r.Child i j → i < j) : r.Acyclic := by
  have hpath {i j : Nat} (hij : Relation.TransGen r.Child i j) : i < j := by
    induction hij with
    | single hchild => exact h _ _ hchild
    | tail _ hchild ih => exact ih.trans (h _ _ hchild)
  exact fun i _ hi => (hpath hi).false

/-- Finitely many nodes can be reached from the root. -/
private theorem finite_reached (hstep : ∀ node ∈ r.nodes, r.StepAt z p node) :
    Finite {i // Relation.ReflTransGen r.Child 0 i} := by
  refine ((Set.finite_le_nat r.nodes.length).subset fun i hi => ?_).to_subtype
  cases hi with
  | refl => exact Nat.zero_le _
  | tail _ hchild =>
    obtain ⟨node, hnode, hi⟩ := hchild
    obtain ⟨_, _, -, hchildren, -⟩ := hstep node (List.mem_of_getElem? hnode)
    obtain ⟨_, -, child, hchild, -⟩ := hchildren.exists_right hi
    exact (List.getElem?_eq_some_iff.mp hchild).1.le

/-- In an acyclic graph of steps, every atom that can be reached from the root is derivable. -/
theorem derivable_of_acyclic (hstep : ∀ node ∈ r.nodes, r.StepAt z p node) (hacyclic : r.Acyclic)
    {i : Nat} (hi : Relation.ReflTransGen r.Child 0 i) {node : RefutationNode}
    (hnode : r.nodes[i]? = some node) : p.Derivable z node.atom := by
  -- Descendants of reached nodes are a transitive and irreflexive relation on finitely many nodes.
  let below (a b : {i // Relation.ReflTransGen r.Child 0 i}) : Prop :=
    Relation.TransGen r.Child b.1 a.1
  have hfinite := finite_reached hstep
  have : IsTrans _ below := ⟨fun _ _ _ hab hbc => hbc.trans hab⟩
  have : Std.Irrefl below := ⟨fun a => hacyclic a.1 a.2⟩
  have hwf : WellFounded below := Finite.wellFounded_of_trans_of_irrefl below
  have hall (a : {i // Relation.ReflTransGen r.Child 0 i}) :
      ∀ node, r.nodes[a.1]? = some node → p.Derivable z node.atom := by
    induction a using hwf.induction with
    | h a ih =>
      intro node hnode
      obtain ⟨clause, body, hclause, hchildren, hinst⟩ := hstep node (List.mem_of_getElem? hnode)
      refine .step (List.mem_of_getElem? hclause) hinst fun g hg => ?_
      obtain ⟨j, hj, child, hchild, rfl⟩ := hchildren.flip.exists_right hg
      have hedge : r.Child a.1 j := ⟨node, hnode, hj⟩
      exact ih ⟨j, a.2.tail hedge⟩ (.single hedge) child hchild
  exact hall ⟨i, hi⟩ node hnode

end Refutation

/-- A fact about a number and a query about positive numbers. -/
def NormalizedProblem.noPositive : NormalizedProblem where
  relations := [⟨0, "P", [.int]⟩]
  clauses := [
    ⟨0, [], some ⟨0, 0⟩, .op .eq [.var ⟨"P@0_0", .int⟩, .int 3]⟩,
    ⟨1, [⟨0, 0⟩], none, .op .and [.op .eq [.var ⟨"P@0_0", .int⟩, .var ⟨"x", .int⟩],
      .op .gt [.var ⟨"x", .int⟩, .int 0]]⟩]

/-- A refutation of this problem. -/
def Refutation.noPositive : Refutation :=
  ⟨[⟨⟨none, []⟩, 1, [1]⟩, ⟨⟨some 0, [.int 3]⟩, 0, []⟩]⟩

end HornSaturation
