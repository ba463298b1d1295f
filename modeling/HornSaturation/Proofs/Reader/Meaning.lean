import HornSaturation.Proofs.Clause.Extraction
import HornSaturation.Proofs.Reader.Steps
import HornSaturation.Reader.Commands
import Mathlib

/-!
# Clauses mean what is read

A rule or a query reads a formula and adds the clause that it amounts to. In every interpretation of
the relations the clause of a rule is true exactly if the formula is, and the clause of a query
exactly if the formula is false.
-/

namespace HornSaturation.Reader

variable {s s₁ : Reading} {e : Term}

/-- The state of reading with some more clauses. -/
def Reading.adding (s : Reading) (cs : List Clause) : Reading :=
  { s with problem := { s.problem with clauses := s.problem.clauses ++ cs } }

/-- A rule adds the clause of its formula, if the formula needs one. -/
theorem run_readRule (h : readTerm.run s = .ok (e, s₁)) :
    readRule.run s = .ok ((), s₁.adding (Clause.ofFormula? e).toList) := by
  rw [readRule, run_bind_of_eq h]
  cases Clause.ofFormula? e with
  | none =>
    rw [Reading.adding, Option.toList_none, List.append_nil]
    rfl
  | some c => rfl

/-- A query that starts with a parenthesis adds the clause that its formula is contradictory. -/
theorem run_readQuery (hpeek : s.cursor.peek? = some '(') (h : readTerm.run s = .ok (e, s₁)) :
    readQuery.run s = .ok ((), s₁.adding [.ofBody e]) := by
  have hnext : peek?.run s = .ok (some '(', s) := hpeek ▸ rfl
  rw [readQuery, run_bind_of_eq hnext, if_pos rfl, run_bind_of_eq h]
  rfl

/-- Reading a formula as a clause preserves its meaning, for every reading of division by zero, in
every interpretation of the relations and under every valuation. A well-sorted formula of a rule is
true exactly if all added clauses are, of which there is one at most; the clause that a query in
parentheses adds is true exactly if its formula is false. -/
theorem added_clauses_mean_formula (hread : readTerm.run s = .ok (e, s₁))
    (hsort : e.hasSortIn s₁.problem.relations .bool = true) :
    (∃ clause? : Option Clause, readRule.run s = .ok ((), s₁.adding clause?.toList) ∧
      ∀ z I ρ, e.meaningIn z I ρ = some (.bool true) ↔ ∀ c ∈ clause?, c.HoldsIn z I ρ) ∧
    (s.cursor.peek? = some '(' →
      ∃ clause, readQuery.run s = .ok ((), s₁.adding [clause]) ∧
        ∀ z I ρ, clause.HoldsIn z I ρ ↔ e.meaningIn z I ρ = some (.bool false)) := by
  refine ⟨⟨_, run_readRule hread, fun z I ρ => ?_⟩, fun hpeek => ?_⟩
  · exact (Clause.holdsIn_ofFormula? (Term.hasSort_decided hsort)).symm
  · refine ⟨_, run_readQuery hpeek hread, fun z I ρ => ?_⟩
    rw [Clause.holdsIn_ofBody, Term.meaningIn_eq_false (Term.hasSort_decided hsort)]

/-- Before a formula that applies a relation in its premise and none in its conclusion. -/
def Reading.beforeBound : Reading where
  cursor := .start "(=> (and (P x) (not (P (+ x 1)))) (>= x 3))"
  problem := { relations := [⟨0, "P", [.int]⟩] }

theorem added_clauses_beforeBound : ∃ e s₁, readTerm.run .beforeBound = .ok (e, s₁) ∧
    e.hasSortIn s₁.problem.relations .bool = true ∧
    (∃ clause? : Option Clause, readRule.run .beforeBound = .ok ((), s₁.adding clause?.toList) ∧
      ∀ z I ρ, e.meaningIn z I ρ = some (.bool true) ↔ ∀ c ∈ clause?, c.HoldsIn z I ρ) ∧
    ∃ clause, readQuery.run .beforeBound = .ok ((), s₁.adding [clause]) ∧
      ∀ z I ρ, clause.HoldsIn z I ρ ↔ e.meaningIn z I ρ = some (.bool false) := by
  let x : Term := .var ⟨"x", .int⟩
  let e : Term := .op .implies [
    .op .and [.app "P" 0 [x], .op .not [.app "P" 0 [.op .add [x, .int 1]]]], .op .ge [x, .int 3]]
  let s₁ : Reading := { Reading.beforeBound with cursor := ⟨[], 43⟩ }
  have hread : readTerm.run .beforeBound = .ok (e, s₁) := by cbv
  have hsort : e.hasSortIn s₁.problem.relations .bool = true := by decide
  obtain ⟨hrule, hquery⟩ := added_clauses_mean_formula hread hsort
  exact ⟨e, s₁, hread, hsort, hrule, hquery rfl⟩

end HornSaturation.Reader
