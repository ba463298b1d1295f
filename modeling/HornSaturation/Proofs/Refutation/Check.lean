import HornSaturation.Proofs.Data.Results
import HornSaturation.Proofs.Inference.Resolution
import HornSaturation.Proofs.Refutation.Derivations
import HornSaturation.Proofs.Refutation.Steps
import HornSaturation.Refutation.Check
import Mathlib

/-!
# What checking a refutation says

The check looks at one node at a time. A node that passes is derived from its children by an
instance of its clause, if the clause is well sorted and uses each name at one sort. The check does
not look for cycles, so what passes is a derivation of `false` if no cycle can be reached from the
root.
-/

namespace HornSaturation

namespace Refutation

variable {z : ZeroDivision} {p : NormalizedProblem} {r : Refutation} {node : RefutationNode}
  {clause : NormalizedClause} {o o' : Oracle} {ts : List Term}

/-- A child stands for a use of a relation, and formulas say which values it has. -/
def Supplies (p : NormalizedProblem) (r : Refutation) (ts : List Term) (j : Nat) (a : Atom) :
    Prop :=
  ∃ child vars, r.nodes[j]? = some child ∧ child.atom.relation = some a.relation ∧
    a.arguments p.relations = .ok vars ∧ ∀ t ∈ equations vars child.atom.args, t ∈ ts

theorem Supplies.mono {ts' : List Term} {j : Nat} {a : Atom} (h : r.Supplies p ts j a)
    (hts : ∀ t ∈ ts, t ∈ ts') : r.Supplies p ts' j a := by
  obtain ⟨child, vars, hchild, hrel, hvars, heqs⟩ := h
  exact ⟨child, vars, hchild, hrel, hvars, fun t ht => hts t (heqs t ht)⟩

/-- A formula for a step that is not the constraint of the clause is an equation for its symbols. -/
def IsEquationOf (p : NormalizedProblem) (clause : NormalizedClause) (t : Term) : Prop :=
  t.IsQuestion ∧ ∀ v ∈ t.occurrences, v ∈ clause.symbols p.relations

private theorem isEquationOf {a : Atom} (ha : a ∈ clause.uses) {vars : List Var}
    (hvars : a.arguments p.relations = .ok vars) (values : List Value) :
    ∀ t ∈ equations vars values, IsEquationOf p clause t := fun t ht =>
  ⟨isQuestion_equations t ht, fun _ hv => NormalizedClause.mem_symbols.mpr
    (.inr ⟨a, ha, vars, hvars, mem_of_mem_equations ht hv⟩)⟩

/-- The equations for the body of a clause say which values the children have. -/
theorem childEquations?_spec {position : Nat} {children : List Nat}
    (h : childEquations? p r clause position children = .ok (some ts))
    (hlen : children.length = (clause.body.drop position).length) :
    List.Forall₂ (r.Supplies p ts) children (clause.body.drop position) ∧
      ∀ t ∈ ts, IsEquationOf p clause t := by
  induction children generalizing position ts with
  | nil =>
    rw [List.length_eq_zero_iff.mp hlen.symm]
    obtain rfl := Option.some.inj (Except.ok.inj h)
    exact ⟨.nil, nofun⟩
  | cons j children ih =>
    unfold childEquations? at h
    split at h
    · next child a hchild ha =>
      split at h
      · next hrel =>
        obtain ⟨vars, hvars, h⟩ := Except.bind_eq_ok.mp h
        obtain ⟨more, hmore, h⟩ := Except.bind_eq_ok.mp h
        obtain ⟨more, rfl, rfl⟩ := Option.map_eq_some_iff.mp (Except.ok.inj h)
        rw [NormalizedClause.bodyArguments, ha] at hvars
        obtain ⟨hlt, rfl⟩ := List.getElem?_eq_some_iff.mp ha
        rw [List.drop_eq_getElem_cons hlt] at hlen ⊢
        obtain ⟨hsupplies, hequations⟩ := ih hmore (Nat.succ.inj hlen)
        have hown := isEquationOf (NormalizedClause.Regular.mem_uses_of_body (List.getElem_mem hlt))
          hvars child.atom.args
        refine ⟨.cons ⟨child, vars, hchild, hrel, hvars, fun t => List.mem_append_left _⟩ ?_, ?_⟩
        · exact hsupplies.imp fun _ _ hs => hs.mono fun _ => List.mem_append_right _
        · exact List.forall_mem_append.mpr ⟨hown, hequations⟩
      · cases h
    · cases h

/-- What the formulas for a node say about it. -/
structure Owes (p : NormalizedProblem) (r : Refutation) (node : RefutationNode)
    (clause : NormalizedClause) (headVars : List Var) (ts : List Term) : Prop where
  known : p.clauses[node.clause]? = some clause
  relation : node.atom.relation = clause.headRelation?
  arguments : clause.headArguments p.relations = .ok headVars
  length : headVars.length = node.atom.args.length
  constraint : clause.constraint ∈ ts
  values : ∀ t ∈ equations headVars node.atom.args, t ∈ ts
  children : List.Forall₂ (r.Supplies p ts) node.children clause.body
  others : ∀ t ∈ ts, t = clause.constraint ∨ IsEquationOf p clause t

theorem obligations?_spec (h : obligations? p r node = .ok (some ts)) :
    ∃ clause headVars, r.Owes p node clause headVars ts := by
  unfold obligations? at h
  split at h
  · cases h
  next clause hclause =>
  split at h
  · next hshape =>
    obtain ⟨hrel, hlen⟩ := hshape
    obtain ⟨headVars, hheadVars, h⟩ := Except.bind_eq_ok.mp h
    split at h
    · next hargs =>
      obtain ⟨more, hmore, h⟩ := Except.bind_eq_ok.mp h
      obtain ⟨more, rfl, rfl⟩ := Option.map_eq_some_iff.mp (Except.ok.inj h)
      obtain ⟨hsupplies, hequations⟩ := childEquations?_spec hmore (by rwa [List.drop_zero])
      refine ⟨clause, headVars, hclause, hrel, hheadVars, hargs, by simp, by simp +contextual,
        hsupplies.imp fun _ _ hs => hs.mono (by simp +contextual), ?_⟩
      refine List.forall_mem_cons.mpr ⟨.inl rfl, List.forall_mem_append.mpr ⟨fun t ht => .inr ?_,
        fun t ht => .inr (hequations t ht)⟩⟩
      exact ⟨isQuestion_equations t ht, fun v hv =>
        NormalizedClause.mem_symbols_of_mem_headArguments hheadVars (mem_of_mem_equations ht hv)⟩
    · cases h
  · cases h

/-- The formulas for a node have been found to have a model beside the assertions of an oracle. -/
def Confirmed (p : NormalizedProblem) (r : Refutation) (o : Oracle) (node : RefutationNode) :
    Prop :=
  ∃ clause headVars ts, r.Owes p node clause headVars ts ∧
    ∃ o₁ o₂ : Oracle, o₁.assertions = o.assertions ∧ o₁.checkWith ts = (.sat, o₂)

/-- A check that succeeds confirms all nodes. -/
theorem checkNodes_spec {nodes : List RefutationNode}
    (h : checkNodes p r nodes o = (.ok true, o')) :
    ∀ node ∈ nodes, r.Confirmed p o node := by
  induction nodes generalizing o with
  | nil => exact nofun
  | cons node nodes ih =>
    unfold checkNodes at h
    split at h
    · cases h
    · cases h
    next ts hts =>
    split at h
    · next o₂ hsat =>
      obtain ⟨clause, headVars, howes⟩ := obligations?_spec hts
      have hl := (Oracle.checkWith_spec hsat).1
      refine List.forall_mem_cons.mpr ⟨⟨clause, headVars, ts, howes, o, o₂, rfl, hsat⟩, ?_⟩
      intro node hnode
      obtain ⟨clause, headVars, ts, howes, o₁, o₂, ho, hsat⟩ := ih h node hnode
      exact ⟨clause, headVars, ts, howes, o₁, o₂, ho.trans hl.assertions, hsat⟩
    · cases h

section Derived

variable {ρ : Valuation}

/-- Where the children stand for the ground atoms of a body, the equations for the body are true. -/
theorem childEquations?_of_denotes {position : Nat} {children : List Nat} {gs : List GroundAtom}
    (hchildren : List.Forall₂ (fun j g => ∃ child, r.nodes[j]? = some child ∧ child.atom = g)
      children gs)
    (hbody : List.Forall₂ (Atom.Denotes p.relations ρ) (clause.body.drop position) gs) :
    ∃ ts, childEquations? p r clause position children = .ok (some ts) ∧
      ∀ t ∈ ts, t.Holds z ρ := by
  induction hchildren generalizing position with
  | nil => exact ⟨[], rfl, nofun⟩
  | @cons j g children gs hchild _ ih =>
    obtain ⟨child, hget, rfl⟩ := hchild
    obtain ⟨a, rest, ⟨hrelation, vars, hvars, hvalues⟩, hrest, hdrop⟩ :=
      List.forall₂_cons_right_iff.mp hbody
    have ha : clause.body[position]? = some a := by
      rw [← List.head?_drop, hdrop, List.head?_cons]
    have htail : clause.body.drop (position + 1) = rest := by
      rw [← List.tail_drop, hdrop, List.tail_cons]
    obtain ⟨more, hmore, htrue⟩ := ih (htail ▸ hrest)
    have harguments : clause.bodyArguments p.relations position = .ok vars := by
      rw [NormalizedClause.bodyArguments, ha]
      exact hvars
    refine ⟨equations vars child.atom.args ++ more, ?_, List.forall_mem_append.mpr ⟨?_, htrue⟩⟩
    · unfold childEquations?
      rw [hget, ha]
      dsimp only
      rw [if_pos hrelation, harguments, hmore]
      rfl
    · have hlength : vars.length = child.atom.args.length := by rw [← hvalues, List.length_map]
      exact (holds_equations hlength).mpr hvalues

/-- The formulas for a node that is derived from its children have a model. -/
theorem obligations?_of_stepAt (hp : p.Regular) (h : r.StepAt z p node) :
    ∃ ts, obligations? p r node = .ok (some ts) ∧
      ∃ ρ : Valuation, ∀ t ∈ ts, t.Holds z ρ := by
  obtain ⟨clause, body, hclause, hchildren, ρ, hρ, hbody, hhead⟩ := h
  obtain ⟨vars, hvars⟩ := (hp.clause _ clause hclause).2.headArguments_eq_ok
  obtain ⟨hrelation, hvalues⟩ := (headDenotes_iff hvars).mp hhead
  rw [← List.drop_zero (l := clause.body)] at hbody
  obtain ⟨more, hmore, htrue⟩ := childEquations?_of_denotes (z := z) hchildren hbody
  have hlength : vars.length = node.atom.args.length := by rw [← hvalues, List.length_map]
  have hshape : node.atom.relation = clause.headRelation? ∧
      node.children.length = clause.body.length :=
    ⟨hrelation, hchildren.length_eq.trans hbody.length_eq.symm⟩
  refine ⟨clause.constraint :: (equations vars node.atom.args ++ more), ?_, ρ, ?_⟩
  · unfold obligations?
    rw [hclause]
    dsimp only
    rw [if_pos hshape, hvars]
    dsimp only [bind, Except.bind]
    rw [if_pos hlength, hmore]
    rfl
  · refine List.forall_mem_cons.mpr ⟨hρ, List.forall_mem_append.mpr ⟨?_, htrue⟩⟩
    exact (holds_equations hlength).mpr hvalues

end Derived

/-- A check of nodes that come with formulas succeeds, unless the formulas of one of them are not
found to have a model. -/
theorem checkNodes_or {nodes : List RefutationNode}
    (hall : ∀ node ∈ nodes, ∃ ts, obligations? p r node = .ok (some ts)) :
    (checkNodes p r nodes o).1 = .ok true ∨ (checkNodes p r nodes o).1 = .ok false ∧
      ∃ node ∈ nodes, ∃ ts, obligations? p r node = .ok (some ts) ∧
        (o.checkWith ts).1 ≠ .sat := by
  induction nodes generalizing o with
  | nil => exact .inl rfl
  | cons node nodes ih =>
    obtain ⟨⟨ts, hts⟩, hall⟩ := List.forall_mem_cons.mp hall
    have hasked := o.checkWith_asked ts
    unfold checkNodes
    rw [hts]
    dsimp only
    split
    · next hsat =>
      rw [hsat] at hasked
      refine (ih hall).imp_right fun ⟨hfalse, node', hnode', ts', hts', hopen⟩ => ?_
      exact ⟨hfalse, node', List.mem_cons_of_mem node hnode', ts', hts',
        hasked.checkWith_fst ts' ▸ hopen⟩
    · next hopen hanswer =>
      refine .inr ⟨rfl, node, List.mem_cons_self, ts, hts, fun hsat => hopen ?_⟩
      rw [← hsat, hanswer]

/-- A node that is confirmed has as many values as its relation has arguments. -/
private theorem Owes.length_eq {headVars vars : List Var} {a : Atom}
    (h : r.Owes p node clause headVars ts) (hrel : node.atom.relation = some a.relation)
    (hvars : a.arguments p.relations = .ok vars) : vars.length = node.atom.args.length := by
  have hhead := h.arguments
  have hsame := h.relation.symm.trans hrel
  unfold NormalizedClause.headRelation? at hsame
  obtain ⟨b, hb, hab⟩ := Option.map_eq_some_iff.mp hsame
  unfold NormalizedClause.headArguments at hhead
  rw [hb] at hhead
  rw [← h.length]
  dsimp only at hhead
  unfold Atom.arguments at hhead hvars
  rw [hab] at hhead
  split at hvars
  · next relation hrelation =>
    rw [hrelation] at hhead
    rw [← Except.ok.inj hvars, ← Except.ok.inj hhead, Relation.arguments_length,
      Relation.arguments_length]
  · cases hvars

/-- A confirmed node without relation is `false`. -/
private theorem Owes.eq_falsum {headVars : List Var} (h : r.Owes p node clause headVars ts)
    (hnone : node.atom.relation = none) : node.atom = .falsum := by
  have hhead : clause.head = none := Option.map_eq_none_iff.mp (h.relation.symm.trans hnone)
  have hvars := h.arguments
  rw [NormalizedClause.headArguments, hhead] at hvars
  have hlen := h.length
  rw [← Except.ok.inj hvars] at hlen
  exact congrArg₂ GroundAtom.mk hnone (List.length_eq_zero_iff.mp hlen.symm)

/-- Where clauses are well sorted and use each name at one sort, beside what is asserted, a
confirmed node is derived from its children. -/
theorem stepAt_of_confirmed (hsort : ∀ c ∈ p.clauses, c.constraint.hasSort .bool = true)
    (hone : ∀ c ∈ p.clauses,
      OneSort (o.assertions.flatMap Term.occurrences ++ c.symbols p.relations))
    (hall : ∀ node ∈ r.nodes, r.Confirmed p o node) (hnode : node ∈ r.nodes) :
    r.StepAt z p node := by
  obtain ⟨clause, headVars, ts, howes, o₁, o₂, ho, hsat⟩ := hall node hnode
  have hclause := List.mem_of_getElem? howes.known
  have hsymbols {v : Var} (hv : v ∈ (o₁.assertions ++ ts).flatMap Term.occurrences ++ []) :
      v ∈ o.assertions.flatMap Term.occurrences ++ clause.symbols p.relations := by
    rw [List.append_nil, List.flatMap_append, ho, List.mem_append] at hv
    refine List.mem_append.mpr (hv.imp_right fun hv => ?_)
    obtain ⟨t, ht, hvt⟩ := List.mem_flatMap.mp hv
    rcases howes.others t ht with rfl | heq
    · exact NormalizedClause.mem_symbols.mpr (.inl hvt)
    · exact heq.2 v hvt
  have hholds : ∀ t ∈ ts, t.Holds z o₂.valuation := fun t ht => by
    refine Oracle.holds_of_sat hsat (fun v hv w hw => hone clause hclause v (hsymbols hv) w
      (hsymbols hw)) z t ht ?_
    exact (howes.others t ht).elim (fun h => .inl (h ▸ hsort clause hclause)) And.left
  obtain ⟨body, hchildren, hbody⟩ := howes.children.exists_common
    (T := fun j g => ∃ child, r.nodes[j]? = some child ∧ child.atom = g)
    (U := fun a g => a.Denotes p.relations o₂.valuation g) fun j a ⟨child, vars, hchild, hrel,
      hvars, heqs⟩ => by
    obtain ⟨_, _, _, hchildOwes, -⟩ := hall child (List.mem_of_getElem? hchild)
    have hlen := hchildOwes.length_eq hrel hvars
    refine ⟨child.atom, ⟨child, hchild, rfl⟩, hrel, vars, hvars, ?_⟩
    exact (holds_equations hlen).mp fun t ht => hholds t (heqs t ht)
  refine ⟨clause, body, howes.known, hchildren, o₂.valuation, hholds _ howes.constraint, hbody, ?_⟩
  refine (headDenotes_iff howes.arguments).mpr ⟨howes.relation, ?_⟩
  exact (holds_equations howes.length).mp fun t ht => hholds t (howes.values t ht)

/-- A refutation without cycles that passes the check is a derivation of `false`, so no
interpretation satisfies the clauses. -/
theorem derivable_of_check (hsort : ∀ c ∈ p.clauses, c.constraint.hasSort .bool = true)
    (hone : ∀ c ∈ p.clauses,
      OneSort (o.assertions.flatMap Term.occurrences ++ c.symbols p.relations))
    (hacyclic : r.Acyclic) (h : check p r o = (.ok true, o')) :
    p.Derivable z .falsum ∧ ∀ I, ¬ p.SatisfiedBy z I := by
  unfold check at h
  split at h
  · next root nodes hnodes =>
    split at h
    · next hroot =>
      have hall := checkNodes_spec h
      have hget : r.nodes[0]? = some root := by rw [hnodes]; rfl
      obtain ⟨clause, headVars, _, howes, -⟩ := hall root (List.mem_of_getElem? hget)
      have hderivable := derivable_of_acyclic
        (fun node hnode => stepAt_of_confirmed (z := z) hsort hone hall hnode) hacyclic .refl hget
      rw [howes.eq_falsum hroot] at hderivable
      exact ⟨hderivable, fun I => NormalizedProblem.not_satisfiedBy hderivable⟩
    · cases h
  · cases h

/-- An oracle for small integers. -/
def smallOracle : Oracle := { window := ⟨-2, 2⟩, cap := 1000 }

theorem derivable_noPositive :
    NormalizedProblem.noPositive.Derivable ⟨fun _ => 0, fun _ => 0⟩ .falsum := by
  have hacyclic : Refutation.noPositive.Acyclic := by
    refine acyclic_of_lt ?_
    rintro i j ⟨node, hnode, hj⟩
    match i with
    | 0 =>
      obtain rfl := Option.some.inj hnode
      obtain rfl := List.mem_singleton.mp hj
      exact Nat.zero_lt_one
    | 1 =>
      obtain rfl := Option.some.inj hnode
      cases hj
    | n + 2 => cases hnode
  refine (derivable_of_check (r := .noPositive) (o := smallOracle) (by decide) (by decide) hacyclic
    (Prod.ext ?_ rfl)).1
  cbv

/-- A refutation passes the check though `false` does not follow from the clauses. -/
def PassesWrongly (p : NormalizedProblem) (r : Refutation) (o : Oracle) : Prop :=
  (check p r o).1 = .ok true ∧ ∀ z, ¬ p.Derivable z .falsum

/-- A rule that derives a relation from itself and a query about this relation. -/
def circularProblem : NormalizedProblem where
  relations := [⟨0, "P", [.int]⟩]
  clauses := [
    ⟨0, [⟨0, 0⟩], some ⟨0, 1⟩, .op .and [.op .eq [.var ⟨"P@0_0", .int⟩, .var ⟨"x", .int⟩],
      .op .eq [.var ⟨"P@1_0", .int⟩, .var ⟨"x", .int⟩]]⟩,
    ⟨1, [⟨0, 0⟩], none, .op .eq [.var ⟨"P@0_0", .int⟩, .var ⟨"x", .int⟩]⟩]

/-- A step to `false` from an atom that is derived from itself. -/
def circular : Refutation := ⟨[⟨⟨none, []⟩, 1, [1]⟩, ⟨⟨some 0, [.int 0]⟩, 0, [1]⟩]⟩

/-- A query without body. -/
def queryProblem (constraint : Term) : NormalizedProblem := ⟨[], [⟨0, [], none, constraint⟩]⟩

/-- A single step to `false`. -/
def singleStep : Refutation := ⟨[⟨⟨none, []⟩, 0, []⟩]⟩

/-- A truth value that is neither `true` nor `false`. -/
def neitherValue : List Term :=
  [.op .ne [.var ⟨"b", .bool⟩, .bool true], .op .ne [.var ⟨"b", .bool⟩, .bool false]]

/-- An integer of the same name. -/
def sameName : Term := .op .ge [.var ⟨"b", .int⟩, .int 0]

theorem not_derivable_queryProblem {constraint : Term} (z : ZeroDivision)
    (h : ∀ ρ, ¬ constraint.Holds z ρ) : ¬ (queryProblem constraint).Derivable z .falsum := by
  intro hd
  refine NormalizedProblem.not_satisfiedBy (I := fun _ _ => False) hd ?_
  rintro clause hclause body head ⟨ρ, hρ, -⟩
  obtain rfl := List.mem_singleton.mp hclause
  exact absurd hρ (h ρ)

theorem not_all_neitherValue (z : ZeroDivision) (ρ : Valuation) :
    ¬ ∀ t ∈ neitherValue, t.Holds z ρ := by
  intro h
  obtain ⟨b, hb⟩ := Value.exists_bool (ρ.sorted ⟨"b", .bool⟩)
  cases b <;> simp [neitherValue, Term.Holds, Term.meaning_op, Op.value, hb] at h

/-- A circular refutation passes the check, and so do steps by a clause that is not well sorted, by
a clause with one name at two sorts, and beside an assertion that has a name of the clause at
another sort. -/
theorem passes_wrongly : PassesWrongly circularProblem circular smallOracle ∧
    PassesWrongly (queryProblem (.op .or [.var ⟨"x", .int⟩, .bool true])) singleStep smallOracle ∧
    PassesWrongly (queryProblem (.op .and (neitherValue ++ [sameName]))) singleStep smallOracle ∧
    PassesWrongly (queryProblem (.op .and neitherValue)) singleStep
      { smallOracle with assertions := neitherValue ++ [sameName] } := by
  refine ⟨⟨by cbv, fun z hd => ?_⟩, ⟨by cbv, fun z => not_derivable_queryProblem z fun ρ => ?_⟩,
    ⟨by cbv, fun z => not_derivable_queryProblem z fun ρ h => ?_⟩,
    ⟨by cbv, fun z => not_derivable_queryProblem z fun ρ h => ?_⟩⟩
  · refine NormalizedProblem.not_satisfiedBy (I := fun _ _ => False) hd ?_
    rintro clause hclause body head ⟨ρ, -, hbody, -⟩ htrue
    obtain ⟨a, ha⟩ : ∃ a, a ∈ clause.body := by
      simp only [circularProblem, List.mem_cons, List.not_mem_nil, or_false] at hclause
      rcases hclause with rfl | rfl <;> exact ⟨⟨0, 0⟩, List.mem_cons_self⟩
    obtain ⟨g, hg, -⟩ := hbody.exists_right ha
    obtain ⟨-, -, hfalse⟩ := htrue g hg
    exact hfalse.elim
  · obtain ⟨n, hn⟩ := Value.exists_int (ρ.sorted ⟨"x", .int⟩)
    simp [Term.Holds, Term.meaning_op, Op.value, hn, anyTrue, Value.toBool?]
  · exact not_all_neitherValue z ρ fun t ht => Term.holds_and.mp h t (List.mem_append_left _ ht)
  · exact not_all_neitherValue z ρ (Term.holds_and.mp h)

end Refutation

end HornSaturation
