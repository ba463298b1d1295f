import HornSaturation.Proofs.Clause.Normalization

/-!
# The tuples that a clause admits

An assignment gives values to names, whatever sorts are declared for them. A stated clause admits
tuples of arguments for its body and its head if under some assignment the terms of its applications
have these values and its constraint is true; a normalized clause does if under some assignment its
argument symbols have these values and its constraint is true. Normalization neither adds tuples nor
loses any. This needs no sorts: in any arithmetic and with any choice of values it is enough that
relations have different names, that the numbers of arguments are right and that no variable of the
clause is reserved.
-/

namespace HornSaturation

/-- The terms of an application have the values of a tuple. -/
def Application.EvaluatesTo (arith : Op → List Int → Option Int) (env : Assignment)
    (a : Application) (tuple : List Value) : Prop :=
  a.args.map (Term.evalWith arith fun v => env v.name) = tuple.map some

/-- The argument symbols of a use have the values of a tuple. -/
def Atom.ReadsAs (relations : List Relation) (env : Assignment) (a : Atom) (tuple : List Value) :
    Prop :=
  ∃ vars, a.arguments relations = .ok vars ∧ vars.map (fun v => env v.name) = tuple.map some

namespace Assignment

/-- All values that an assignment gives are at hand. -/
def Within (range : Value → Prop) (env : Assignment) : Prop :=
  ∀ name x, env name = some x → range x

/-- The assignment changed on the names of bound variables, to the values of the terms that they are
bound to. -/
def bind (arith : Op → List Int → Option Int) (env : Assignment) (bindings : Substitution) :
    Assignment := fun name =>
  match bindings.find? (·.1.name = name) with
  | some p => p.2.evalWith arith fun v => env v.name
  | none => env name

variable {arith : Op → List Int → Option Int} {env : Assignment} {bindings : Substitution}
variable {name : String}

/-- A changed assignment gives a name the value of a bound term, or what it was given before. -/
theorem bind_cases (arith : Op → List Int → Option Int) (env : Assignment)
    (bindings : Substitution) (name : String) :
    (∃ p ∈ bindings, p.1.name = name ∧
        env.bind arith bindings name = p.2.evalWith arith fun v => env v.name) ∨
      (∀ p ∈ bindings, p.1.name ≠ name) ∧ env.bind arith bindings name = env name := by
  unfold bind
  cases hfind : bindings.find? (·.1.name = name) with
  | some p =>
    have hname : p.1.name = name := by simpa using List.find?_some hfind
    exact .inl ⟨p, List.mem_of_find?_eq_some hfind, hname, rfl⟩
  | none => exact .inr ⟨by simpa using List.find?_eq_none.mp hfind, rfl⟩

theorem bind_of_notMem (h : ∀ p ∈ bindings, p.1.name ≠ name) :
    env.bind arith bindings name = env name := by
  rcases bind_cases arith env bindings name with ⟨p, hp, hname, -⟩ | ⟨-, hname⟩
  · exact absurd hname (h p hp)
  · exact hname

/-- If a name is bound to one term only, it gets the value of this term. -/
theorem bind_of_mem (hone : ∀ p ∈ bindings, ∀ q ∈ bindings, p.1.name = q.1.name → p.2 = q.2)
    {p : Var × Term} (hp : p ∈ bindings) :
    env.bind arith bindings p.1.name = p.2.evalWith arith fun v => env v.name := by
  rcases bind_cases arith env bindings p.1.name with ⟨q, hq, hname, hvalue⟩ | ⟨hnone, -⟩
  · rw [hvalue, hone q hq p hp hname]
  · exact absurd rfl (hnone p hp)

end Assignment

/-- Under an assignment a clause says that tuples in its body imply a tuple in its head. -/
structure Clause.AdmitsUnder (arith : Op → List Int → Option Int) (env : Assignment) (c : Clause)
    (body : List (List Value)) (head : Option (List Value)) : Prop where
  condition : c.condition.TrueUnder arith fun v => env v.name
  body : List.Forall₂ (Application.EvaluatesTo arith env) c.body body
  head : Option.Rel (Application.EvaluatesTo arith env) c.head head

/-- A clause admits tuples if it does under an assignment of values at hand. -/
def Clause.Admits (arith : Op → List Int → Option Int) (range : Value → Prop) (c : Clause)
    (body : List (List Value)) (head : Option (List Value)) : Prop :=
  ∃ env : Assignment, env.Within range ∧ c.AdmitsUnder arith env body head

namespace NormalizedClause

/-- Under an assignment a normalized clause says that tuples in its body imply a tuple in its head.
-/
structure AdmitsUnder (arith : Op → List Int → Option Int) (relations : List Relation)
    (env : Assignment) (c : NormalizedClause) (body : List (List Value))
    (head : Option (List Value)) : Prop where
  constraint : c.constraint.TrueUnder arith fun v => env v.name
  body : List.Forall₂ (Atom.ReadsAs relations env) c.body body
  head : Option.Rel (Atom.ReadsAs relations env) c.head head

/-- A normalized clause admits tuples if it does under an assignment of values at hand. -/
def Admits (arith : Op → List Int → Option Int) (range : Value → Prop) (relations : List Relation)
    (c : NormalizedClause) (body : List (List Value)) (head : Option (List Value)) : Prop :=
  ∃ env : Assignment, env.Within range ∧ c.AdmitsUnder arith relations env body head

end NormalizedClause

namespace Clause

variable {arith : Op → List Int → Option Int} {env : Assignment} {relations : List Relation}
variable {c : Clause} {index : Nat} {nc : NormalizedClause}
variable {body : List (List Value)} {head : Option (List Value)}

/-- Every application of a clause is applied to the declared number of terms. -/
def HasArities (relations : List Relation) (c : Clause) : Prop :=
  ∀ a ∈ c.applications, ∃ r, relations[a.relation]? = some r ∧ a.args.length = r.arity

/-- A use has as many argument symbols as terms. -/
theorem HasArities.length_eq (h : c.HasArities relations) {use : Atom × List Term}
    (huse : use ∈ c.numbered) {vars : List Var} (hvars : use.1.arguments relations = .ok vars) :
    vars.length = use.2.length := by
  obtain ⟨a, ha, hrelation, hargs⟩ := exists_application huse
  obtain ⟨r, hr, hlength⟩ := h a ha
  obtain ⟨r', hr', rfl⟩ := Atom.arguments_eq_ok.mp hvars
  obtain ⟨hr', -⟩ := relation?_eq_some.mp hr'
  rw [hrelation, hr] at hr'
  obtain rfl := Option.some.inj hr'
  rw [Relation.arguments_length, hargs, hlength]

/-- Where the equations of a use are true, its argument symbols have the values of the application.
-/
theorem UseAgrees.readsAs_iff {use : Atom × List Term} {a : Application} {tuple : List Value}
    (h : UseAgrees arith relations (fun v => env v.name) use)
    (hmatch : use.1.relation = a.relation ∧ use.2 = a.args) :
    use.1.ReadsAs relations env tuple ↔ a.EvaluatesTo arith env tuple := by
  obtain ⟨vars, values, hvars, hsymbols, hterms⟩ := h
  rw [Atom.ReadsAs, Application.EvaluatesTo, ← hmatch.2, hterms, ← hsymbols]
  constructor
  · rintro ⟨vars', hvars', htuple⟩
    rwa [Except.ok.inj (hvars.symm.trans hvars')]
  · intro htuple
    exact ⟨vars, hvars, htuple⟩

/-- Where the equations of all uses are true, a clause and its normalized form admit the same. -/
theorem admitsUnder_iff (h : c.normalize relations index = .ok nc) (ha : c.HasArities relations)
    (hagrees : ∀ use ∈ c.numbered, UseAgrees arith relations (fun v => env v.name) use) :
    nc.AdmitsUnder arith relations env body head ↔ c.AdmitsUnder arith env body head := by
  have hconstraint : nc.constraint.TrueUnder arith (fun v => env v.name) ↔
      c.condition.TrueUnder arith fun v => env v.name := by
    rw [trueUnder_constraint_iff h fun use huse _ => ha.length_eq huse]
    exact and_iff_right hagrees
  obtain ⟨-, -, -, hbody, hhead, -, -⟩ := normalize_spec h
  have hbodies : List.Forall₂ (Atom.ReadsAs relations env) nc.body body ↔
      List.Forall₂ (Application.EvaluatesTo arith env) c.body body := by
    rw [hbody]
    exact forall₂_numberUses_iff fun use huse _ hm _ => (hagrees use huse).readsAs_iff hm
  have hheads : Option.Rel (Atom.ReadsAs relations env) nc.head head ↔
      Option.Rel (Application.EvaluatesTo arith env) c.head head := by
    rw [hhead]
    cases hc : c.head with
    | none => cases head <;> simp
    | some a =>
      cases head with
      | none => simp
      | some tuple =>
        rw [Option.map_some, Option.rel_some_some, Option.rel_some_some]
        refine UseAgrees.readsAs_iff (hagrees (_, a.args) ?_) ⟨rfl, rfl⟩
        simp [numbered, hc]
  constructor
  · intro hn
    exact ⟨hconstraint.mp hn.constraint, hbodies.mp hn.body, hheads.mp hn.head⟩
  · intro hs
    exact ⟨hconstraint.mpr hs.condition, hbodies.mpr hs.body, hheads.mpr hs.head⟩

/-- Every application of an admitted clause has the values of one of the tuples. -/
theorem AdmitsUnder.exists_tuple (h : c.AdmitsUnder arith env body head) {a : Application}
    (ha : a ∈ c.applications) : ∃ tuple ∈ body ++ head.toList, a.EvaluatesTo arith env tuple := by
  rcases List.mem_append.mp ha with ha | ha
  · obtain ⟨tuple, htuple, hvalues⟩ := h.body.exists_right ha
    exact ⟨tuple, List.mem_append_left _ htuple, hvalues⟩
  · rw [Option.mem_toList] at ha
    have hhead := h.head
    rw [ha] at hhead
    cases hhead with
    | @some _ tuple hvalues => exact ⟨tuple, by simp, hvalues⟩

/-- What a clause admits depends on the values of its terms. -/
theorem AdmitsUnder.congr {env' : Assignment} (h : c.AdmitsUnder arith env body head)
    (heq : ∀ t ∈ c.terms, (t.evalWith arith fun v => env' v.name) =
      t.evalWith arith fun v => env v.name) : c.AdmitsUnder arith env' body head := by
  have happ {a : Application} (ha : a ∈ c.applications) {tuple : List Value}
      (hvalues : a.EvaluatesTo arith env tuple) : a.EvaluatesTo arith env' tuple := by
    rw [Application.EvaluatesTo, ← hvalues]
    apply List.map_congr_left
    intro t ht
    exact heq t (List.mem_append_left _ (List.mem_flatMap.mpr ⟨a, ha, ht⟩))
  constructor
  · rw [trueUnder_condition_iff]
    intro t ht
    rw [Term.TrueUnder, heq t (List.mem_append_right _ ht)]
    exact trueUnder_condition_iff.mp h.condition t ht
  · exact h.body.imp_mem fun a ha tuple _ => happ (List.mem_append_left _ ha)
  · have hhead := h.head
    cases hc : c.head with
    | none =>
      rw [hc] at hhead
      cases hhead
      exact .none
    | some a =>
      rw [hc] at hhead
      cases hhead with
      | some hvalues => exact .some (happ (by simp [applications, hc]) hvalues)

section Extension

variable (hplain : ∀ t ∈ c.terms, ∀ v ∈ t.occurrences, isReserved v.name = false)

include hplain

/-- The terms of a clause keep their values when argument symbols are given others, as no variable
is named like one. -/
theorem evalWith_bind_bindings {t : Term} (ht : t ∈ c.terms) :
    (t.evalWith arith fun v => env.bind arith (bindings relations c.numbered) v.name) =
      t.evalWith arith fun v => env v.name := by
  apply Term.evalWith_congr
  intro v hv
  apply Assignment.bind_of_notMem
  intro p hp hname
  have hmarked := isMarked_of_mem_bindings hp
  rw [Var.IsMarked, hname] at hmarked
  exact (not_isReserved (hplain t ht v hv)).1 hmarked

/-- An assignment under which all terms of the uses have values is changed on the argument symbols
so that the equations of all uses are true. -/
theorem useAgrees_bind (hr : (relations.map (·.name)).Nodup) (ha : c.HasArities relations)
    {use : Atom × List Term} (huse : use ∈ c.numbered) {vars : List Var}
    (hvars : use.1.arguments relations = .ok vars) {values : List Value}
    (hvalues : use.2.map (Term.evalWith arith fun v => env v.name) = values.map some) :
    UseAgrees arith relations
      (fun v => env.bind arith (bindings relations c.numbered) v.name) use := by
  refine ⟨vars, values, hvars, ?_, ?_⟩
  · rw [← hvalues]
    apply List.ext_getElem
    · simpa using ha.length_eq huse hvars
    · intro i hi hi'
      rw [List.getElem_map, List.getElem_map]
      rw [List.length_map] at hi hi'
      have hzip : i < (vars.zip use.2).length := by
        rw [List.length_zip]
        omega
      have hmem : (vars[i], use.2[i]) ∈ bindings relations c.numbered := by
        refine mem_bindings.mpr ⟨use, huse, vars, hvars, ?_⟩
        rw [← List.getElem_zip]
        exact List.getElem_mem hzip
      refine Assignment.bind_of_mem (fun p hp q hq hname => ?_) hmem
      exact bindings_functional hr c.numbered_nodup hp hq hname
  · rw [← hvalues]
    apply List.map_congr_left
    intro t ht
    exact evalWith_bind_bindings hplain (mem_terms_of_numbered huse ht)

end Extension

/-- The changed assignment takes its new values from the tuples. -/
theorem AdmitsUnder.within_bind {range : Value → Prop} (h : c.AdmitsUnder arith env body head)
    (henv : env.Within range) (hrange : ∀ tuple ∈ body ++ head.toList, ∀ x ∈ tuple, range x) :
    (env.bind arith (bindings relations c.numbered)).Within range := by
  intro name x hx
  rcases Assignment.bind_cases arith env (bindings relations c.numbered) name with
    ⟨⟨v, t⟩, hp, -, hname⟩ | ⟨-, hname⟩
  · rw [hname] at hx
    obtain ⟨use, huse, vars, -, hmem⟩ := mem_bindings.mp hp
    obtain ⟨a, ha, -, hargs⟩ := exists_application huse
    obtain ⟨tuple, htuple, hvalues⟩ := h.exists_tuple ha
    have hxt : some x ∈ tuple.map some := by
      rw [← hvalues, ← hx, ← hargs]
      exact List.mem_map_of_mem (List.of_mem_zip hmem).2
    exact hrange tuple htuple x (by simpa using hxt)
  · exact henv name x (hname ▸ hx)

/-- A clause and its normalized form admit the same tuples. -/
theorem admits_iff (hr : (relations.map (·.name)).Nodup) (ha : c.HasArities relations)
    (h : c.normalize relations index = .ok nc) {range : Value → Prop}
    (hrange : ∀ tuple ∈ body ++ head.toList, ∀ x ∈ tuple, range x) :
    nc.Admits arith range relations body head ↔ c.Admits arith range body head := by
  constructor
  · rintro ⟨env, henv, hn⟩
    have hagrees := ((trueUnder_constraint_iff h fun use huse _ => ha.length_eq huse).mp
      hn.constraint).1
    exact ⟨env, henv, (admitsUnder_iff h ha hagrees).mp hn⟩
  · rintro ⟨env, henv, hs⟩
    obtain ⟨equations, heqs, -, -, -, -, hplain⟩ := normalize_spec h
    refine ⟨env.bind arith (bindings relations c.numbered), hs.within_bind henv hrange, ?_⟩
    refine (admitsUnder_iff h ha fun use huse => ?_).mpr
      (hs.congr fun t ht => evalWith_bind_bindings hplain ht)
    obtain ⟨eqs, -, hbind⟩ := heqs.exists_right huse
    obtain ⟨vars, hvars, -⟩ := bindArguments_eq_ok.mp hbind
    obtain ⟨a, happ, -, hargs⟩ := exists_application huse
    obtain ⟨tuple, -, hvalues⟩ := hs.exists_tuple happ
    rw [Application.EvaluatesTo, ← hargs] at hvalues
    exact useAgrees_bind hplain hr ha huse hvars hvalues

end Clause

namespace Problem

variable {p : Problem} {np : NormalizedProblem}

/-- A valid problem applies its relations to the declared numbers of arguments. -/
theorem hasArities_of_validate (h : p.validate = .ok ()) {c : Clause} (hc : c ∈ p.clauses) :
    c.HasArities p.relations := by
  obtain ⟨_, hbody, h⟩ := Except.bind_eq_ok.mp (Except.forM_eq_ok.mp h c hc)
  obtain ⟨_, hhead, -⟩ := Except.bind_eq_ok.mp h
  intro a ha
  have hcheck : p.checkApplication a = .ok () := by
    rcases List.mem_append.mp ha with ha | ha
    · exact Except.forM_eq_ok.mp hbody a ha
    · exact Except.forM_eq_ok.mp hhead a ha
  unfold checkApplication at hcheck
  split at hcheck
  · cases hcheck
  · next r hr =>
    split at hcheck
    · next hlength => exact ⟨r, hr, hlength⟩
    · cases hcheck

/-- Normalization keeps the relations of every clause and what it admits, in every arithmetic and
for every choice of the values that assignments may give. -/
theorem admits_iff_of_normalize (h : p.normalize = .ok np)
    (hnames : (p.relations.map (·.name)).Nodup) :
    np.relations = p.relations ∧ np.clauses.length = p.clauses.length ∧
      ∀ (i : Nat) (c : Clause), p.clauses[i]? = some c → ∃ nc, np.clauses[i]? = some nc ∧
        nc.body.map (·.relation) = c.body.map (·.relation) ∧
        nc.headRelation? = c.head.map (·.relation) ∧
        ∀ (arith : Op → List Int → Option Int) (range : Value → Prop) (body : List (List Value))
          (head : Option (List Value)),
          (∀ tuple ∈ body ++ head.toList, ∀ x ∈ tuple, range x) →
            (nc.Admits arith range p.relations body head ↔ c.Admits arith range body head) := by
  obtain ⟨hvalid, hrelations, hlength, hclauses⟩ := normalize_spec h
  refine ⟨hrelations, hlength, fun i c hc => ?_⟩
  obtain ⟨nc, hnc, hone⟩ := hclauses i c hc
  have harities := hasArities_of_validate hvalid (List.mem_of_getElem? hc)
  obtain ⟨-, -, -, hbody, hhead, -, -⟩ := Clause.normalize_spec hone
  refine ⟨nc, hnc, hbody ▸ Clause.numberUses_relations [] c.body, ?_, ?_⟩
  · rw [NormalizedClause.headRelation?, hhead]
    cases c.head <;> rfl
  · intro arith range body head hrange
    exact Clause.admits_iff hnames harities hone hrange

end Problem

/-- The values of 64-bit arithmetic. -/
def Value.Is64Bit (x : Value) : Prop := ∀ n, x = .int n → int64Min ≤ n ∧ n ≤ int64Max

/-- Paths of two steps are paths: the relation is used twice in the body and again in the head. -/
def Clause.twoSteps : Clause :=
  let x : Term := .var ⟨"x", .int⟩
  let y : Term := .var ⟨"y", .int⟩
  let z : Term := .var ⟨"z", .int⟩
  { body := [⟨0, [x, y]⟩, ⟨0, [y, z]⟩]
    constraint := some (.op .lt [x, z])
    head := some ⟨0, [x, .op .add [z, .int 1]]⟩ }

def Problem.paths : Problem where
  relations := [⟨0, "P", [.int, .int]⟩]
  clauses := [.twoSteps]

theorem admits_twoSteps :
    ∃ np nc, Problem.paths.normalize = .ok np ∧ (Problem.paths.relations.map (·.name)).Nodup ∧
      np.clauses[0]? = some nc ∧
      nc.Admits checkedArithmetic Value.Is64Bit Problem.paths.relations
        [[.int 1, .int 2], [.int 2, .int 3]] (some [.int 1, .int 4]) ∧
      ¬ nc.Admits checkedArithmetic Value.Is64Bit Problem.paths.relations
        [[.int 1, .int 2], [.int 3, .int 3]] (some [.int 1, .int 4]) := by
  obtain ⟨np, hn⟩ : ∃ np, Problem.paths.normalize = .ok np := ⟨_, rfl⟩
  have hnames : (Problem.paths.relations.map (·.name)).Nodup := by decide
  obtain ⟨-, -, hclauses⟩ := Problem.admits_iff_of_normalize hn hnames
  obtain ⟨nc, hnc, -, -, hadmits⟩ := hclauses 0 .twoSteps rfl
  have hsmall (n : Int) (h : 1 ≤ n ∧ n ≤ 4) : (Value.int n).Is64Bit := by
    intro m hm
    obtain rfl := Value.int.inj hm
    simp only [int64Min, int64Max]
    omega
  refine ⟨np, nc, hn, hnames, hnc, (hadmits _ _ _ _ ?_).mpr ?_, mt (hadmits _ _ _ _ ?_).mp ?_⟩
  · simp [hsmall]
  · let env : Assignment := fun name =>
      some (.int (if name = "x" then 1 else if name = "y" then 2 else 3))
    refine ⟨env, ?_, rfl, .cons rfl (.cons rfl .nil), .some rfl⟩
    intro name v hv
    obtain rfl := Option.some.inj hv
    apply hsmall
    split
    · decide
    · split <;> decide
  · simp [hsmall]
  · -- The two uses in the body share the variable in the middle.
    rintro ⟨env, -, hadmitted⟩
    obtain ⟨⟨-, htwo⟩, hthree, -⟩ := by
      simpa [Clause.twoSteps, Application.EvaluatesTo] using hadmitted.body
    rw [htwo] at hthree
    cases hthree

end HornSaturation
