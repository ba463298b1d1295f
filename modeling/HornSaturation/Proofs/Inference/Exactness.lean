import HornSaturation.Proofs.Clause.Normalization
import HornSaturation.Proofs.Inference.Resolution
import Mathlib

/-!
# What projection and hyperresolution keep

Projection keeps what a formula says of the symbols that are not eliminated. Hyperresolution with a
normalized clause always succeeds for units of the right relations, and the resolvent asserts the
exact image of what the units assert. Neither depends on the names of the symbols involved: one unit
may stand in several places, and its locals may be named like any other symbol.
-/

namespace HornSaturation

namespace Term

/-- A projected formula says of the symbols that stay what the formula says: under any values of
these, some values of the eliminated symbols make the one true exactly if some make the other true.
-/
theorem exists_holds_project_iff (z : ZeroDivision) (symbols : Symbols) {t : Term}
    (ht : t.hasSort .bool = true) (E : List Var) (foldFirst : Bool) :
    (project symbols t E foldFirst).hasSort .bool = true ∧
      (∀ v ∈ (project symbols t E foldFirst).vars, v ∈ t.vars) ∧
      ∀ ρ, (∃ ρ', Valuation.AgreeOff E ρ ρ' ∧ Holds z ρ' t) ↔
        ∃ ρ', Valuation.AgreeOff E ρ ρ' ∧ Holds z ρ' (project symbols t E foldFirst) := by
  have hprojects := projects_project z symbols ht E foldFirst
  refine ⟨hprojects.sorted, fun v hv => ?_, fun ρ => (hprojects.exact ρ).symm⟩
  rw [mem_vars] at hv ⊢
  exact hprojects.occurrences v hv

/-- An odd number `y = x + 1` that is at least five, by the even number `x = 2 * k` before it. -/
def oddFromEven : Term :=
  .op .and [.op .eq [.var ⟨"x", .int⟩, .op .mul [.int 2, .var ⟨"k", .int⟩]],
    .op .eq [.var ⟨"y", .int⟩, .op .add [.var ⟨"x", .int⟩, .int 1]],
    .op .ge [.var ⟨"y", .int⟩, .int 5]]

/-- Without `y` and `k` only the definition of `y` goes; no conjunct defines `k`. -/
theorem exists_holds_project_oddFromEven : oddFromEven.hasSort .bool = true ∧
    project {} oddFromEven [⟨"y", .int⟩, ⟨"k", .int⟩] false =
      .op .and [.op .eq [.var ⟨"x", .int⟩, .op .mul [.int 2, .var ⟨"k", .int⟩]],
        .op .ge [.op .add [.var ⟨"x", .int⟩, .int 1], .int 5]] ∧
    ∀ ρ, (∃ ρ', Valuation.AgreeOff [⟨"y", .int⟩, ⟨"k", .int⟩] ρ ρ' ∧
        Holds ⟨fun _ => 0, fun _ => 0⟩ ρ' oddFromEven) ↔
      ∃ ρ', Valuation.AgreeOff [⟨"y", .int⟩, ⟨"k", .int⟩] ρ ρ' ∧
        Holds ⟨fun _ => 0, fun _ => 0⟩ ρ' (project {} oddFromEven
          [⟨"y", .int⟩, ⟨"k", .int⟩] false) := by
  have ht : oddFromEven.hasSort .bool = true := by rfl
  refine ⟨ht, by cbv, ?_⟩
  exact (exists_holds_project_iff ⟨fun _ => 0, fun _ => 0⟩ {} ht _ false).2.2

end Term

/-- Hyperresolution with a normalized clause computes the exact image of the clause. The resolvent
stands at the occurrence of the head and has no symbols but the arguments there and symbols that are
taken by this inference; and every unit is read at the occurrence of its place. -/
theorem resolve_exact {relations : List Relation} (hr : WellDeclared relations) {c : Clause}
    {index : Nat} {nc : NormalizedClause} (hn : c.normalize relations index = .ok nc)
    (hsort : nc.constraint.hasSort .bool = true) {us : List UnitClause}
    (hheads : List.Forall₂ Atom.Takes nc.body us)
    (hsorts : ∀ u ∈ us, u.constraint.hasSort .bool = true) {s : Symbols} (hs : s.ready = true) :
    (∃ u s', (resolve Term.project relations nc us).run.run s = (.ok u, s') ∧
      u.head = nc.headRelation? ∧ u.polarity = .positive ∧
      u.occurrence = (nc.head.map (·.occurrence)).getD 0 ∧
      (∃ vars fresh, nc.headArguments relations = .ok vars ∧
        Taken s.allocated s'.allocated fresh ∧
        ∀ v ∈ u.constraint.occurrences, v ∈ vars ∨ v ∈ fresh) ∧
      ∀ z g, u.Asserts z relations g ↔ ∃ body, nc.HasInstance z relations body g ∧
        List.Forall₂ (UnitClause.Asserts z relations) us body) ∧
    ∀ position u, us[position]? = some u → ∀ s₀, ∃ a t s₁, nc.body[position]? = some a ∧
      (electronInstance relations nc position u).run.run s₀ = (.ok (a.occurrence, t), s₁) := by
  have hreg := Clause.regular_of_normalize hn hsort
  constructor
  · have hresolve := ensures_resolve hr hreg hsorts s
    obtain ⟨u, s', hrun, hu, vars, fresh, hvars, htaken, hocc⟩ := hresolve.exists_ok
      fun _ _ hfail => hfail.elim (by simp [hs]) (not_not_intro hheads)
    refine ⟨u, s', hrun, hu.head, hu.polarity, hu.occurrence, ⟨vars, fresh, ?_, htaken, hocc⟩,
      hu.asserts⟩
    rw [← hvars, NormalizedClause.headArguments, UnitClause.arguments, hu.head, hu.occurrence,
      NormalizedClause.headRelation?]
    cases nc.head <;> rfl
  · intro position u hu s₀
    have hmem : u ∈ us := List.mem_of_getElem? hu
    obtain ⟨a, ha, htakes⟩ : ∃ a, nc.body[position]? = some a ∧ a.Takes u := by
      obtain ⟨hi, rfl⟩ := List.getElem?_eq_some_iff.mp hu
      have hi' : position < nc.body.length := by
        have hlen := hheads.length_eq
        omega
      exact ⟨_, List.getElem?_eq_getElem hi', hheads.get hi' hi⟩
    have helectron := ensures_electronInstance hr hreg (hsorts u hmem) position s₀
    obtain ⟨⟨occurrence, t⟩, s₁, hrun, a', -, -, ha', -, hplace, -⟩ := helectron.exists_ok
      fun _ _ hfail => hfail a ha htakes
    obtain rfl := Option.some.inj (ha.symm.trans ha')
    obtain rfl : occurrence = a.occurrence := hplace
    exact ⟨a, t, s₁, ha, hrun⟩

/-- Sums of two members of a relation are in it, too. -/
def Clause.sums : Clause :=
  ⟨[⟨0, [.var ⟨"x", .int⟩]⟩, ⟨0, [.var ⟨"y", .int⟩]⟩], none,
    some ⟨0, [.op .add [.var ⟨"x", .int⟩, .var ⟨"y", .int⟩]]⟩⟩

/-- The normalized form of this clause, in which the relation has three occurrences. -/
def NormalizedClause.sums : NormalizedClause :=
  ⟨0, [⟨0, 0⟩, ⟨0, 1⟩], some ⟨0, 2⟩, .op .and [
    .op .eq [.var ⟨"P@0_0", .int⟩, .var ⟨"x", .int⟩],
    .op .eq [.var ⟨"P@1_0", .int⟩, .var ⟨"y", .int⟩],
    .op .eq [.var ⟨"P@2_0", .int⟩, .op .add [.var ⟨"x", .int⟩, .var ⟨"y", .int⟩]]]⟩

/-- All even numbers are in the relation; the local is named like an argument of the head. -/
def UnitClause.evens : UnitClause :=
  ⟨some 0, .positive, 1,
    .op .eq [.var ⟨"P@1_0", .int⟩, .op .mul [.int 2, .var ⟨"P@2_0", .int⟩]]⟩

/-- One unit serves as both premises. -/
theorem resolve_sums : ∃ u s',
    (resolve Term.project [⟨0, "P", [.int]⟩] .sums [.evens, .evens]).run.run
      { ready := true } = (.ok u, s') ∧ u.head = some 0 ∧ u.occurrence = 2 ∧
    ∀ z g, u.Asserts z [⟨0, "P", [.int]⟩] g ↔
      ∃ body, NormalizedClause.sums.HasInstance z [⟨0, "P", [.int]⟩] body g ∧
        List.Forall₂ (UnitClause.Asserts z [⟨0, "P", [.int]⟩]) [.evens, .evens] body := by
  have hr : WellDeclared [⟨0, "P", [.int]⟩] := by decide
  have hn : Clause.sums.normalize [⟨0, "P", [.int]⟩] 0 = .ok .sums := by rfl
  have hheads : List.Forall₂ Atom.Takes NormalizedClause.sums.body
      [UnitClause.evens, UnitClause.evens] := .cons rfl (.cons rfl .nil)
  have hsorts : ∀ u ∈ [UnitClause.evens, UnitClause.evens],
      u.constraint.hasSort .bool = true := by decide
  obtain ⟨⟨u, s', hrun, hhead, -, hocc, -, hasserts⟩, -⟩ :=
    resolve_exact hr hn rfl hheads hsorts (s := { ready := true }) rfl
  exact ⟨u, s', hrun, hhead, hocc, hasserts⟩

end HornSaturation
