import HornSaturation.Proofs.Term.Valuation
import HornSaturation.Proofs.Vocabulary.Names
import HornSaturation.Refutation.Basic

/-!
# Regular clauses and their instances

A normalized clause is regular if its constraint is a formula over the argument symbols of its uses
and over plain variables, and if no relation is used twice at one occurrence. An instance of a
clause gives values to all its symbols that make the constraint true; it consists of the ground
atoms that the uses of the body and the head stand for.
-/

namespace HornSaturation

/-- Whether a variable is an argument symbol of a use. -/
def Atom.HasArgument (relations : List Relation) (a : Atom) (v : Var) : Prop :=
  ∃ vars, a.arguments relations = .ok vars ∧ v ∈ vars

/-- The ground atom that a use of a relation stands for under a valuation. -/
def Atom.Denotes (relations : List Relation) (ρ : Valuation) (a : Atom) (g : GroundAtom) : Prop :=
  g.relation = some a.relation ∧ ∃ vars, a.arguments relations = .ok vars ∧
    vars.map ρ.value = g.args

/-- The ground atom of the conclusion `false`. -/
def GroundAtom.falsum : GroundAtom := ⟨none, []⟩

/-- A ground atom is true in an interpretation of the relations; `false` never is. -/
def GroundAtom.TrueIn (I : RelationId → List Value → Prop) (g : GroundAtom) : Prop :=
  ∃ r, g.relation = some r ∧ I r g.args

/-- The ground atom that the head of a clause stands for under a valuation. -/
def Atom.HeadDenotes (relations : List Relation) (ρ : Valuation) (head : Option Atom)
    (g : GroundAtom) : Prop :=
  match head with
  | some a => a.Denotes relations ρ g
  | none => g = .falsum

namespace NormalizedClause

/-- The uses of relations in a clause, in the body and then in the head. -/
def uses (c : NormalizedClause) : List Atom := c.body ++ c.head.toList

/-- Ground atoms for the body and the head that make a clause say that the ones imply the other. -/
def HasInstance (z : ZeroDivision) (relations : List Relation) (c : NormalizedClause)
    (body : List GroundAtom) (head : GroundAtom) : Prop :=
  ∃ ρ : Valuation, c.constraint.Holds z ρ ∧ List.Forall₂ (Atom.Denotes relations ρ) c.body body ∧
    Atom.HeadDenotes relations ρ c.head head

/-- An interpretation of the relations satisfies a clause if it makes the heads of all instances
true whose bodies it makes true. -/
def SatisfiedBy (z : ZeroDivision) (relations : List Relation) (I : RelationId → List Value → Prop)
    (c : NormalizedClause) : Prop :=
  ∀ body head, c.HasInstance z relations body head → (∀ g ∈ body, g.TrueIn I) → head.TrueIn I

/-- What normalization makes of well-sorted clauses. -/
structure Regular (relations : List Relation) (c : NormalizedClause) : Prop where
  sorted : c.constraint.hasSort .bool = true
  known : ∀ a ∈ c.uses, ∃ vars, a.arguments relations = .ok vars
  distinct : c.uses.Nodup
  occurrences : ∀ v ∈ c.constraint.occurrences,
    (∃ a ∈ c.uses, a.HasArgument relations v) ∨ isReserved v.name = false

/-- Each argument symbol of a clause is equated with a term of its sort over plain variables. -/
def Binds (relations : List Relation) (c : NormalizedClause) : Prop :=
  ∀ a ∈ c.uses, ∀ v, a.HasArgument relations v → ∃ t,
    .equation (.var v) t ∈ c.constraint.conjuncts ∧ t.hasSort v.sort = true ∧
      ∀ w ∈ t.occurrences, isReserved w.name = false

variable {relations : List Relation} {c : NormalizedClause}

theorem headArguments_isMarked {vars : List Var} (h : c.headArguments relations = .ok vars)
    {v : Var} (hv : v ∈ vars) : v.IsMarked := by
  unfold headArguments at h
  split at h
  · exact Atom.arguments_isMarked h hv
  · rw [← Except.ok.inj h] at hv
    cases hv

/-- The relations of all uses are declared. -/
def Known (relations : List Relation) (c : NormalizedClause) : Prop :=
  ∀ a ∈ c.uses, ∃ vars, a.arguments relations = .ok vars

namespace Regular

theorem mem_uses_of_body {a : Atom} (ha : a ∈ c.body) : a ∈ c.uses := List.mem_append_left _ ha

theorem mem_uses_of_head {a : Atom} (ha : c.head = some a) : a ∈ c.uses :=
  List.mem_append_right _ (by simp [ha])

end Regular

theorem Known.headArguments_eq_ok (hc : c.Known relations) :
    ∃ vars, c.headArguments relations = .ok vars := by
  unfold headArguments
  cases hh : c.head with
  | none => exact ⟨[], rfl⟩
  | some a => exact hc a (Regular.mem_uses_of_head hh)

namespace Regular

/-- The symbols of the constraint of a regular clause are no local symbols. -/
theorem ne_localSymbol (hc : c.Regular relations) {v : Var} (hv : v ∈ c.constraint.occurrences)
    (n : Nat) (s : BaseSort) : v.name ≠ (localSymbol n s).name := by
  intro hname
  rcases hc.occurrences v hv with ⟨a, -, vars, hvars, hva⟩ | hplain
  · have hm : (localSymbol n s).IsMarked := by
      rw [Var.IsMarked, ← hname]
      exact Atom.arguments_isMarked hvars hva
    exact localSymbol_not_isMarked n s hm
  · rw [hname, localSymbol_isReserved] at hplain
    cases hplain

theorem headArguments_eq_ok (hc : c.Regular relations) :
    ∃ vars, c.headArguments relations = .ok vars := Known.headArguments_eq_ok hc.known

/-- The argument symbols of the body and of the head are different symbols. -/
theorem notMem_headArguments (hr : WellDeclared relations) (hc : c.Regular relations) {a : Atom}
    (ha : a ∈ c.body) {vars headVars : List Var} (hvars : a.arguments relations = .ok vars)
    (hhead : c.headArguments relations = .ok headVars) {v : Var} (hv : v ∈ vars) :
    v ∉ headVars := by
  intro hvh
  unfold headArguments at hhead
  cases hh : c.head with
  | none =>
    rw [hh] at hhead
    rw [← Except.ok.inj hhead] at hvh
    cases hvh
  | some b =>
    rw [hh] at hhead
    obtain ⟨rfl, -⟩ := Atom.arguments_inj hr.names hvars hhead hv hvh rfl
    have hdistinct := hc.distinct
    rw [uses, hh, Option.toList_some, List.nodup_append'] at hdistinct
    exact hdistinct.2.2 ha (by simp)

end Regular

end NormalizedClause

/-- What normalization makes of well-sorted problems. -/
structure NormalizedProblem.Regular (p : NormalizedProblem) : Prop where
  relations : WellDeclared p.relations
  clause : ∀ (i : Nat) (c : NormalizedClause), p.clauses[i]? = some c →
    c.index = i ∧ c.Regular p.relations

theorem NormalizedProblem.Regular.of_mem {p : NormalizedProblem} (hp : p.Regular)
    {c : NormalizedClause} (hc : c ∈ p.clauses) :
    p.clauses[c.index]? = some c ∧ c.Regular p.relations := by
  obtain ⟨i, hi⟩ := List.getElem?_of_mem hc
  obtain ⟨hindex, hreg⟩ := hp.clause i c hi
  exact ⟨hindex ▸ hi, hreg⟩

/-- Every clause carries its position, and the relations that it uses are declared. Normalization
makes this of any problem that it accepts, also of one that is not well sorted. -/
structure NormalizedProblem.Resolved (p : NormalizedProblem) : Prop where
  index : ∀ (i : Nat) (c : NormalizedClause), p.clauses[i]? = some c → c.index = i
  known : ∀ c ∈ p.clauses, c.Known p.relations

end HornSaturation
