import HornSaturation.Proofs.Refutation.Build
import HornSaturation.Proofs.Refutation.Check
import HornSaturation.Proofs.Refutation.Derivations
import HornSaturation.Proofs.Refutation.Existence
import HornSaturation.Proofs.Run.Solving
import HornSaturation.Run.OfProblem
import Mathlib

/-!
# Refutations are derivations of `false`

When a run answers with a refutation, the refutation is a derivation of `false` from instances of
the clauses as they were stated, over the unbounded integers. This holds for every search strategy
and whether or not the refutations of the oracle are right, because every step rests on a model. It
also holds whatever has been asserted before, as long as the assertions do not use the name of a
variable or of a symbol that is made up at two sorts. Then the model could have for a variable of a
clause a value of another sort.
-/

namespace HornSaturation

namespace Refutation

/-- A refutation in which node zero is `false`, no node is derived from itself, and every node is
derived from its children by an instance of its clause. -/
structure Genuine (p : Problem) (r : Refutation) : Prop where
  root : ∃ node, r.nodes[0]? = some node ∧ node.atom = .falsum
  acyclic : ∀ i, ¬ Relation.TransGen r.Child i i
  derived : ∀ node ∈ r.nodes, ∃ clause body, p.clauses[node.clause]? = some clause ∧
    List.Forall₂ (fun j g => ∃ child, r.nodes[j]? = some child ∧ child.atom = g) node.children
      body ∧
    ∀ z, clause.HasInstance z body node.atom

variable {p : NormalizedProblem} {store : Store} {root : UnitId} {drafts : List Draft}
  {w : Workspace}

/-- Expanding all units of an order, each before those that it was derived from. -/
theorem ensures_expandUnits {order : List UnitId} (hp : p.Regular) (hs : store.Sound p)
    (horder : store.Scheduled order)
    (hd : Drafting p store root (fun _ u => u ∈ order) drafts) (ho : w.oracle.Discerns p) :
    Ensures (order.foldlM (expandUnit store p) drafts) w
      (fun drafts' w' => w.oracle.Asked w'.oracle ∧
        Drafting p store root (fun _ _ => False) drafts' ∧ Grows drafts drafts')
      fun e _ => Stuck p store root w.oracle e := by
  induction order generalizing drafts w with
  | nil => exact ⟨.refl _, hd.mono fun _ _ _ hopen _ => List.not_mem_nil hopen, .refl drafts⟩
  | cons id order ih =>
    obtain ⟨hchildren, horder⟩ := horder
    simp only [List.foldlM_cons, ensures_bind]
    refine (ensures_expandUnit hp hs hchildren hd ho).mono ?_ fun _ _ h => h
    rintro drafts₁ w₁ ⟨hl₁, hd₁, hgrows₁⟩
    refine (ih horder hd₁ (ho.later hl₁.toLater)).mono ?_ fun _ _ hstuck =>
      hstuck.of_asked hl₁
    rintro drafts₂ w₂ ⟨hl₂, hd₂, hgrows₂⟩
    exact ⟨hl₁.trans hl₂, hd₂, hgrows₁.trans hgrows₂⟩

/-- A refutation that is made of drafts, the first of which is `false` and all of which are derived.
-/
def MadeOfDrafts (p : NormalizedProblem) (store : Store) (r : Refutation) : Prop :=
  ∃ root drafts, r.nodes = drafts.map (·.node) ∧
    Drafting p store root (fun _ _ => False) drafts ∧
      ∃ d, drafts[0]? = some d ∧ d.node.atom = .falsum

/-- Only a step of which the oracle does not find a model keeps the refutation of a unit without
head from being reconstructed. -/
theorem ensures_ofUnit_or_stuck {root : UnitId} {e : StoredUnit} (hp : p.Regular)
    (hs : store.Sound p) (he : store.get? root = some e) (hhead : e.unit.head = none)
    (ho : w.oracle.Discerns p) :
    Ensures (ofUnit store p root) w
      (fun r w' => w.oracle.Asked w'.oracle ∧ r.MadeOfDrafts p store)
      fun err _ => Stuck p store root w.oracle err := by
  obtain ⟨order, horder⟩ := hs.exists_derivationOrder he
  unfold ofUnit
  simp only [ensures_bind, horder, ensures_ok, he]
  obtain ⟨hroot, hscheduled⟩ := Store.scheduled_of_derivationOrder horder
  have hinferred : Inferred store root := by
    cases hprov : e.provenance with
    | fact clause => exact absurd hhead (hs.statedBy he hprov).1
    | derived nucleus electrons => exact ⟨e, nucleus, electrons, he, hprov⟩
  have hplace : place [] root .falsum e.provenance.clause =
      (0, [⟨root, ⟨.falsum, e.provenance.clause, []⟩⟩]) := rfl
  have hstart : Drafting p store root (fun _ u => u ∈ order)
      [⟨root, ⟨.falsum, e.provenance.clause, []⟩⟩] := by
    refine ⟨List.forall_mem_singleton.mpr ⟨e, he, rfl, hhead.symm, [], ?_, rfl⟩,
      List.forall_mem_singleton.mpr (.inl rfl), fun i d hd => .inr ?_⟩
    · rw [UnitClause.arguments, hhead]
    · obtain rfl := List.mem_singleton.mp (List.mem_of_getElem? hd)
      exact ⟨hroot, hinferred⟩
  refine (ensures_expandUnits hp hs hscheduled hstart ho).mono ?_ fun _ _ h => h
  rintro drafts w' ⟨hl, hd, hgrows⟩
  obtain ⟨d, hd₀, -, hatom, -⟩ := hgrows 0 _ rfl
  exact ⟨hl, root, drafts, rfl, hd, d, hd₀, hatom⟩

/-- A refutation that is made of drafts, of a problem in the clauses of which each name has one
sort. -/
def Drafted (p : NormalizedProblem) (store : Store) (r : Refutation) : Prop :=
  p.OneSorted ∧ r.MadeOfDrafts p store

/-- The refutation of a unit without head is made of drafts that are all derived. -/
theorem ensures_ofUnit {root : UnitId} {e : StoredUnit} (hp : p.Regular) (hone : p.OneSorted)
    (hs : store.Sound p) (he : store.get? root = some e) (hhead : e.unit.head = none)
    (ho : w.oracle.Discerns p) :
    Ensures (ofUnit store p root) w
      (fun r w' => w.oracle.Asked w'.oracle ∧ r.Drafted p store)
      fun err _ => Stuck p store root w.oracle err := by
  refine (ensures_ofUnit_or_stuck hp hs he hhead ho).mono ?_ fun _ _ h => h
  rintro r w' ⟨hasked, hmade⟩
  exact ⟨hasked, hone, hmade⟩

/-- Along the children of drafted nodes the units get older, so no node is derived from itself. -/
private theorem acyclic_of_drafting {r : Refutation} (hnodes : r.nodes = drafts.map (·.node))
    (hd : Drafting p store root (fun _ _ => False) drafts) (i : Nat) :
    ¬ Relation.TransGen r.Child i i := by
  have hchild {i j : Nat} (h : r.Child i j) : ∃ d d', drafts[i]? = some d ∧ drafts[j]? = some d' ∧
      d'.unit < d.unit := by
    obtain ⟨node, hnode, hj⟩ := h
    rw [hnodes, List.getElem?_map] at hnode
    obtain ⟨d, hget, rfl⟩ := Option.map_eq_some_iff.mp hnode
    obtain ⟨_, _, -, hstands, -⟩ := (hd.derived i d hget).resolve_right fun h => h.1
    obtain ⟨_, -, d', hd', hlt, -⟩ := hstands.exists_right hj
    exact ⟨d, d', hget, hd', hlt⟩
  have hpath {j : Nat} (h : Relation.TransGen r.Child i j) : ∃ d d', drafts[i]? = some d ∧
      drafts[j]? = some d' ∧ d'.unit < d.unit := by
    induction h with
    | single h => exact hchild h
    | tail _ h ih =>
      obtain ⟨d, d', hd, hd', hlt⟩ := ih
      obtain ⟨d₁, d'', hd₁, hd'', hlt'⟩ := hchild h
      obtain rfl := Option.some.inj (hd'.symm.trans hd₁)
      exact ⟨d, d'', hd, hd'', Nat.lt_trans hlt' hlt⟩
  intro h
  obtain ⟨d, d', hd, hd', hlt⟩ := hpath h
  obtain rfl := Option.some.inj (hd.symm.trans hd')
  exact Nat.lt_irrefl _ hlt

/-- A refutation that is made of derived drafts of a normalized problem is genuine for the problem
as it was stated. -/
theorem genuine_of_drafted {q : Problem} {r : Refutation} (hform : q.NormalForm p)
    (h : r.Drafted p store) : r.Genuine q := by
  obtain ⟨hone, _, drafts, hnodes, hd, d₀, hd₀, hatom⟩ := h
  refine ⟨⟨d₀.node, ?_, hatom⟩, acyclic_of_drafting hnodes hd, fun node hnode => ?_⟩
  · rw [hnodes, List.getElem?_map, hd₀, Option.map_some]
  · rw [hnodes] at hnode
    obtain ⟨d, hmem, rfl⟩ := List.mem_map.mp hnode
    obtain ⟨i, hi⟩ := List.getElem?_of_mem hmem
    obtain ⟨nc, atoms, hnc, hstands, hinst⟩ := (hd.derived i d hi).resolve_right fun h => h.1
    obtain ⟨-, c, hc, hnf⟩ := hform.clause _ nc hnc
    refine ⟨c, atoms, hc, hstands.imp fun j g hj => ?_, fun z => ?_⟩
    · obtain ⟨d', hd', -, hg⟩ := hj
      exact ⟨d'.node, by rw [hnodes, List.getElem?_map, hd', Option.map_some], hg⟩
    · exact (hnf.hasInstance z _ _).mp (hform.relations ▸ hinst hone z)

/-- The nodes of a genuine refutation are derived by the normalized clauses. -/
theorem Genuine.stepAt {q : Problem} {r : Refutation} (h : r.Genuine q) (hform : q.NormalForm p)
    {node : RefutationNode} (hnode : node ∈ r.nodes) (z : ZeroDivision) : r.StepAt z p node := by
  obtain ⟨clause, body, hclause, hchildren, hinst⟩ := h.derived node hnode
  obtain ⟨nc, hnc, hnf⟩ := hform.getElem? hclause
  exact ⟨nc, body, hnc, hchildren, (hnf.hasInstance z body node.atom).mpr (hinst z)⟩

end Refutation

variable {σ : Type} {m : Method σ} {p : NormalizedProblem} {c : Configuration} {r : Run σ}

/-- What a run reconstructs from a contradiction is genuine. -/
theorem Running.Reconstructed.genuine {problem : Problem} {refutation : Refutation} {r' : Run σ}
    (h : Running.Reconstructed p r refutation r') (hform : problem.NormalForm p)
    (hreg : p.Regular) (hone : p.OneSorted) (ho : r.workspace.oracle.Discerns p) :
    refutation.Genuine problem := by
  obtain ⟨r₁, root, hsteps, ⟨e, he, hhead⟩, hrun⟩ := h
  obtain ⟨-, hdrafted⟩ := (Refutation.ensures_ofUnit hreg hone hsteps.sound he hhead
    (ho.later hsteps.later)).of_ok hrun
  exact Refutation.genuine_of_drafted hform hdrafted

/-- When a run answers with a refutation, the refutation is genuine, unless the name of a variable or
of a symbol that is made up has been asserted at two sorts. -/
theorem genuine_of_unsat {problem : Problem} {refutation : Refutation} {r' : Run σ}
    (hw : problem.WellSorted) (hone : ∀ c ∈ problem.clauses, OneSort c.occurrences)
    (hn : problem.normalize = .ok p) (hm : m.IsUsual) (hr : r.Reachable m p)
    (ho : r.workspace.oracle.OneSortedOn p.UsesName)
    (h : (Running.solve m p c).run.run r = (.ok (.unsat refutation), r')) :
    refutation.Genuine problem := by
  have hform := problem.normalForm_of_normalize hw hn
  have hreg := hform.regular hw
  have hsorted := hform.oneSorted hone
  have hreconstructed : Running.Reconstructed p r refutation r' :=
    ((Running.ensures_solve hreg hm (hr.sound hreg hm)).of_ok h).unsat refutation rfl
  exact hreconstructed.genuine hform hreg hsorted
    (.oneSorted ho hsorted (problem.binds_of_normalize hw hn))

/-- A fact about a number and a query about positive numbers, as they may be stated. -/
def Problem.noPositive : Problem where
  relations := [⟨0, "P", [.int]⟩]
  clauses := [
    ⟨[], none, some ⟨0, [.int 3]⟩⟩,
    ⟨[⟨0, [.var ⟨"x", .int⟩]⟩], some (.op .gt [.var ⟨"x", .int⟩, .int 0]), none⟩]

theorem genuine_noPositive : Refutation.noPositive.Genuine .noPositive := by
  have hw : Problem.noPositive.WellSorted := by decide
  have hone : ∀ c ∈ Problem.noPositive.clauses, OneSort c.occurrences := by decide
  have hn : Problem.noPositive.normalize = .ok .noPositive := by rfl
  have hm : Method.IsUsual .standard := ⟨rfl, Subsumption.byImplication_onlyAsks⟩
  -- What is asserted is about the variable of the query.
  let oracle : Oracle :=
    { window := ⟨-4, 4⟩, cap := 1000, assertions := [.op .ne [.var ⟨"x", .int⟩, .int 1]] }
  have hr : (Run.start {} .noPositive oracle).Reachable .standard .noPositive := .start _ _
  have ho : oracle.OneSortedOn NormalizedProblem.noPositive.UsesName :=
    Oracle.oneSortedOn_of_oneSort (by decide)
  refine genuine_of_unsat (c := {}) hw hone hn hm hr ho (Prod.ext ?_ rfl)
  cbv

/-- Level saturation answers for a well-sorted problem with a refutation that is not genuine. -/
def Problem.Misrefuted (p : Problem) (o : Oracle) : Prop :=
  p.WellSorted ∧ (∀ c ∈ p.clauses, OneSort c.occurrences) ∧
    ∃ refutation, ((p.solve o {}).map (·.outcome) : Except Error Outcome) =
      .ok (.unsat refutation) ∧ ¬ refutation.Genuine p

open Refutation in
/-- A query about a truth value that is neither `true` nor `false`. -/
def Problem.neither : Problem := ⟨[], [⟨[], some (.op .and neitherValue), none⟩]⟩

open Refutation in
/-- A fact about zero that depends on such a truth value, and a query about all numbers. -/
def Problem.neitherZero : Problem where
  relations := [⟨0, "P", [.int]⟩]
  clauses := [
    ⟨[], some (.op .and neitherValue), some ⟨0, [.int 0]⟩⟩,
    ⟨[⟨0, [.var ⟨"x", .int⟩]⟩], none, none⟩]

/-- Assertions that use the name of a symbol that is made up at two sorts. -/
def Oracle.madeUpTwice (n : Nat) : List Term :=
  [.op .ne [.var (localSymbol n .bool), .bool true],
    .op .ge [.var (localSymbol n .int), .int 0]]

/-- No step is derived by a clause that depends on such a truth value. -/
theorem Refutation.not_genuine_of_neither {p : Problem} {r : Refutation} {node : RefutationNode}
    {clause : Clause} (hnode : node ∈ r.nodes) (hclause : p.clauses[node.clause]? = some clause)
    (hconstraint : clause.constraint = some (.op .and neitherValue)) : ¬ r.Genuine p := by
  intro h
  obtain ⟨clause', body, hclause', -, hinst⟩ := h.derived node hnode
  obtain rfl := Option.some.inj (hclause.symm.trans hclause')
  obtain ⟨ρ, hρ, -⟩ := hinst default
  rw [Clause.condition, hconstraint, Option.getD_some] at hρ
  exact not_all_neitherValue default ρ (Term.holds_and.mp hρ)

open Refutation in
/-- Where the name of a variable is asserted at two sorts, or those of symbols that are made up, the
oracle takes a number for a truth value, and a refutation is given that is not genuine. -/
theorem misrefuted_neither :
    Problem.neither.Misrefuted
      { window := ⟨0, 0⟩, cap := 100, assertions := neitherValue ++ [sameName] } ∧
    Problem.neitherZero.Misrefuted
      { window := ⟨0, 0⟩, cap := 100, assertions := [0, 2, 3].flatMap Oracle.madeUpTwice } := by
  refine ⟨⟨by decide, by decide, .singleStep, by cbv, ?_⟩,
    by decide, by decide, ⟨[⟨⟨none, []⟩, 1, [1]⟩, ⟨⟨some 0, [.int 0]⟩, 0, []⟩]⟩, by cbv, ?_⟩
  · exact not_genuine_of_neither List.mem_cons_self rfl rfl
  · exact not_genuine_of_neither (List.mem_cons_of_mem _ List.mem_cons_self) rfl rfl

end HornSaturation
