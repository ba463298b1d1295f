import HornSaturation.Clause.Problem
import HornSaturation.Clause.Normalization
import HornSaturation.Proofs.Clause.Regular

/-!
# Clauses as they are stated

A stated clause is well sorted if its constraint is a formula, its relations are declared and each
is applied to terms of the declared sorts. An instance gives values to the variables of the clause
that make the constraint true; its ground atoms are the values of the applications.
-/

namespace HornSaturation

/-- Variables of one name are one variable. -/
def OneSort (vs : List Var) : Prop := ∀ v ∈ vs, ∀ w ∈ vs, v.name = w.name → v = w

instance (vs : List Var) : Decidable (OneSort vs) :=
  inferInstanceAs (Decidable (∀ v ∈ vs, ∀ w ∈ vs, v.name = w.name → v = w))

/-- No variable of a list has the name of a variable at another sort. -/
def Var.Alone (v : Var) (vs : List Var) : Prop := ∀ w ∈ vs, v.name = w.name → v = w

/-- The ground atom that an application stands for under a valuation. -/
def Application.Denotes (z : ZeroDivision) (ρ : Valuation) (a : Application) (g : GroundAtom) :
    Prop :=
  g.relation = some a.relation ∧ a.args.map (Term.meaning z ρ) = g.args.map some

/-- Well-sorted terms have values. -/
theorem Term.exists_values (z : ZeroDivision) (ρ : Valuation) {ts : List Term}
    {sorts : List BaseSort} (h : Term.haveSorts ts sorts = true) :
    ∃ values : List Value, ts.map (Term.meaning z ρ) = values.map some := by
  induction Term.haveSorts_iff.mp h with
  | nil => exact ⟨[], rfl⟩
  | cons hsort _ ih =>
    obtain ⟨x, hx, -⟩ := Term.exists_value z ρ hsort
    obtain ⟨values, hvalues⟩ := ih (Term.haveSorts_iff.mpr ‹_›)
    exact ⟨x :: values, by rw [List.map_cons, List.map_cons, hx, hvalues]⟩

namespace Clause

/-- The relation applications of a clause, in the body and then in the head. -/
def applications (c : Clause) : List Application := c.body ++ c.head.toList

/-- The variable occurrences of a clause. -/
def occurrences (c : Clause) : List Var := c.terms.flatMap Term.occurrences

theorem mem_occurrences_of_argument {c : Clause} {a : Application} (ha : a ∈ c.applications)
    {t : Term} (ht : t ∈ a.args) {v : Var} (hv : v ∈ t.occurrences) : v ∈ c.occurrences :=
  List.mem_flatMap.mpr ⟨t, List.mem_append_left _ (List.mem_flatMap.mpr ⟨a, ha, ht⟩), hv⟩

theorem mem_occurrences_of_condition {c : Clause} {v : Var} (hv : v ∈ c.condition.occurrences) :
    v ∈ c.occurrences := by
  cases hconstraint : c.constraint with
  | none => simp [condition, hconstraint] at hv
  | some t =>
    rw [condition, hconstraint, Option.getD_some] at hv
    exact List.mem_flatMap.mpr ⟨t, List.mem_append_right _ (by simp [hconstraint]), hv⟩

/-- The ground atom that the head of a clause stands for under a valuation. -/
def HeadDenotes (z : ZeroDivision) (ρ : Valuation) (head : Option Application) (g : GroundAtom) :
    Prop :=
  match head with
  | some a => a.Denotes z ρ g
  | none => g = .falsum

/-- Ground atoms for the body and the head that make a clause say that the ones imply the other. -/
def HasInstance (z : ZeroDivision) (c : Clause) (body : List GroundAtom) (head : GroundAtom) :
    Prop :=
  ∃ ρ : Valuation, c.condition.Holds z ρ ∧ List.Forall₂ (Application.Denotes z ρ) c.body body ∧
    HeadDenotes z ρ c.head head

/-- An interpretation of the relations satisfies a clause if it makes the heads of all instances
true whose bodies it makes true. -/
def SatisfiedBy (z : ZeroDivision) (I : RelationId → List Value → Prop) (c : Clause) : Prop :=
  ∀ body head, c.HasInstance z body head → (∀ g ∈ body, g.TrueIn I) → head.TrueIn I

/-- Every operator and every relation is applied to the right number and sorts of arguments, and
relations are not applied inside arguments or constraints. -/
structure WellSorted (relations : List Relation) (c : Clause) : Prop where
  condition : c.condition.hasSort .bool = true
  applications : ∀ a ∈ c.applications, ∃ r, relations[a.relation]? = some r ∧
    Term.haveSorts a.args r.sorts = true

instance (relations : List Relation) (c : Clause) : Decidable (c.WellSorted relations) :=
  decidable_of_iff (c.condition.hasSort .bool = true ∧ ∀ a ∈ c.applications,
      (relations[a.relation]?).any (fun r => Term.haveSorts a.args r.sorts) = true) <| by
    simp only [Option.any_eq_true]
    exact ⟨fun ⟨hc, ha⟩ => ⟨hc, ha⟩, fun ⟨hc, ha⟩ => ⟨hc, ha⟩⟩

/-- Under every valuation the applications of a well-sorted clause stand for ground atoms. -/
theorem WellSorted.exists_denotes {relations : List Relation} {c : Clause}
    (h : c.WellSorted relations) (z : ZeroDivision) (ρ : Valuation) :
    ∃ body head, List.Forall₂ (Application.Denotes z ρ) c.body body ∧
      HeadDenotes z ρ c.head head := by
  have hatom : ∀ a ∈ c.applications, ∃ g, a.Denotes z ρ g := fun a ha => by
    obtain ⟨r, -, hsorts⟩ := h.applications a ha
    obtain ⟨values, hvalues⟩ := Term.exists_values z ρ hsorts
    exact ⟨⟨some a.relation, values⟩, rfl, hvalues⟩
  have : Nonempty GroundAtom := ⟨.falsum⟩
  choose! atom hdenotes using hatom
  refine ⟨c.body.map atom, (c.head.map atom).getD .falsum, ?_, ?_⟩
  · rw [List.forall₂_map_right_iff, List.forall₂_same]
    exact fun a ha => hdenotes a (List.mem_append_left _ ha)
  · cases hhead : c.head with
    | none => rfl
    | some a => exact hdenotes a (List.mem_append_right _ (by simp [hhead]))

end Clause

/-- A problem whose relations have different names and whose clauses are well sorted. -/
structure Problem.WellSorted (p : Problem) : Prop where
  relations : WellDeclared p.relations
  clauses : ∀ c ∈ p.clauses, c.WellSorted p.relations

instance (p : Problem) : Decidable p.WellSorted :=
  decidable_of_iff (WellDeclared p.relations ∧ ∀ c ∈ p.clauses, c.WellSorted p.relations)
    ⟨fun ⟨hr, hc⟩ => ⟨hr, hc⟩, fun ⟨hr, hc⟩ => ⟨hr, hc⟩⟩

namespace NormalizedClause

/-- The symbols of a clause: the variable occurrences of its constraint and the argument symbols of
its uses. -/
def symbols (relations : List Relation) (c : NormalizedClause) : List Var :=
  c.constraint.occurrences ++ c.uses.flatMap fun a => ((a.arguments relations).toOption).getD []

theorem mem_symbols {relations : List Relation} {c : NormalizedClause} {v : Var} :
    v ∈ c.symbols relations ↔
      v ∈ c.constraint.occurrences ∨ ∃ a ∈ c.uses, a.HasArgument relations v := by
  simp only [symbols, List.mem_append, List.mem_flatMap, Atom.HasArgument]
  refine or_congr_right (exists_congr fun a => and_congr_right fun _ => ?_)
  cases a.arguments relations <;> simp [Except.toOption]

end NormalizedClause

/-- In every clause of a problem each name has one sort. -/
def NormalizedProblem.OneSorted (p : NormalizedProblem) : Prop :=
  ∀ c ∈ p.clauses, OneSort (c.symbols p.relations)

/-- The names of the plain variables of a problem and of the symbols that are made up. -/
def NormalizedProblem.UsesName (p : NormalizedProblem) (name : String) : Prop :=
  (∃ c ∈ p.clauses, ∃ v ∈ c.constraint.occurrences, isReserved v.name = false ∧ v.name = name) ∨
    ∃ n s, (localSymbol n s).name = name

end HornSaturation
