import HornSaturation.Clause.Problem
import HornSaturation.Proofs.Clause.Extraction
import HornSaturation.Proofs.Term.Renaming
import Mathlib.Logic.Equiv.Defs

/-!
# Renaming variables of clauses

A renaming passes through the connectives and through the sorting of conjuncts, since both look at
the shape of terms only. So the clause of a renamed formula is the renamed clause of the formula. It
passes through a substitution that is renamed with it.
-/

namespace HornSaturation

variable {g : Var → Var}

namespace Term

variable {t : Term} {ts : List Term}

@[simp] theorem rename_bool (b : Bool) : (Term.bool b).rename g = .bool b := rfl

@[simp] theorem rename_int (n : Int) : (Term.int n).rename g = .int n := rfl

@[simp] theorem rename_var (v : Var) : (Term.var v).rename g = .var (g v) := rfl

@[simp] theorem rename_op (o : Op) (args : List Term) :
    (Term.op o args).rename g = .op o (args.map (rename g)) := by
  rw [rename, bind, bindList_eq]
  rfl

@[simp] theorem rename_app (name : String) (r : RelationId) (args : List Term) :
    (Term.app name r args).rename g = .app name r (args.map (rename g)) := by
  rw [rename, bind, bindList_eq]
  rfl

@[simp] theorem rename_id : t.rename id = t := rename_eq_self fun _ _ => rfl

theorem sort_rename (hg : ∀ v, (g v).sort = v.sort) : (t.rename g).sort = t.sort := by
  induction t using structural with
  | bool b => rfl
  | int n => rfl
  | var v => exact hg v
  | app name r args ih =>
    rw [rename_app]
    rfl
  | op o args ih =>
    rw [rename_op]
    cases o with
    | ite =>
      -- Only a conditional takes its sort from an argument.
      match args with
      | [] | [_] => rfl
      | _ :: b :: _ => exact ih b (by simp)
    | _ => rfl

theorem conjuncts_rename : (t.rename g).conjuncts = t.conjuncts.map (rename g) := by
  induction t using structural with
  | bool b => cases b <;> rfl
  | int n => rfl
  | var v => rfl
  | app name r args ih =>
    rw [rename_app]
    simp [conjuncts]
  | op o args ih =>
    rw [rename_op]
    by_cases ho : o = .and
    · subst ho
      rw [conjuncts, conjuncts, conjunctsList_eq, conjunctsList_eq, List.flatMap_map,
        List.map_flatMap]
      exact List.flatMap_congr ih
    · simp [conjuncts_op ho]

theorem conjoin_rename : (conjoin ts).rename g = conjoin (ts.map (rename g)) := by
  have hflat : conjunctsList (ts.map (rename g)) = (conjunctsList ts).map (rename g) := by
    rw [conjunctsList_eq, conjunctsList_eq, List.flatMap_map, List.map_flatMap]
    exact List.flatMap_congr fun t _ => conjuncts_rename
  rw [conjoin, conjoin, hflat]
  rcases conjunctsList ts with _ | ⟨t, _ | ⟨u, us⟩⟩
  · rfl
  · rfl
  · exact rename_op _ _

theorem disjuncts_rename : (t.rename g).disjuncts = t.disjuncts.map (rename g) := by
  cases t with
  | bool b => cases b <;> rfl
  | int n => rfl
  | var v => rfl
  | app name r args =>
    rw [rename_app]
    simp [disjuncts]
  | op o args =>
    rw [rename_op]
    cases o with
    | or => rfl
    | _ => simp [disjuncts]

theorem disjoin_rename : (disjoin ts).rename g = disjoin (ts.map (rename g)) := by
  have hflat : (ts.map (rename g)).flatMap disjuncts = (ts.flatMap disjuncts).map (rename g) := by
    rw [List.flatMap_map, List.map_flatMap]
    exact List.flatMap_congr fun t _ => disjuncts_rename
  rw [disjoin, disjoin, hflat]
  rcases ts.flatMap disjuncts with _ | ⟨t, _ | ⟨u, us⟩⟩
  · rfl
  · rfl
  · exact rename_op _ _

theorem negate_rename : t.negate.rename g = (t.rename g).negate := by
  cases t with
  | bool b => rfl
  | int n => rfl
  | var v => rfl
  | app name r args => simp [negate]
  | op o args =>
    rw [rename_op]
    by_cases ho : o = .not
    · subst ho
      match args with
      | [] | [_] | _ :: _ :: _ => simp [negate]
    · simp [negate, ho]

section Substitution

variable {s : Substitution} {κ : Var → Var} {v w : Var} {g' : Var → Var}

/-- Where different variables of a substitution are renamed differently, a renamed variable has the
renamed image. -/
theorem image_renamed (h : ∀ e ∈ s, κ e.1 = w ↔ e.1 = v) :
    Substitution.image (s.map fun e => (κ e.1, e.2.rename g)) w =
      if v ∈ s.map Prod.fst then (s.image v).rename g else .var w := by
  have hlookup (l : Substitution) (hl : ∀ e ∈ l, κ e.1 = w ↔ e.1 = v) :
      (l.map fun e => (κ e.1, e.2.rename g)).lookup w = (l.lookup v).map (rename g) := by
    induction l with
    | nil => rfl
    | cons e l ih =>
      obtain ⟨he, hl⟩ := List.forall_mem_cons.mp hl
      rw [List.map_cons, List.lookup_cons, List.lookup_cons, ih hl]
      by_cases hev : e.1 = v
      · rw [beq_iff_eq.mpr (he.mpr hev).symm, beq_iff_eq.mpr hev.symm]
        rfl
      · rw [beq_eq_false_iff_ne.mpr fun h => hev (he.mp h.symm),
          beq_eq_false_iff_ne.mpr (Ne.symm hev)]
  rw [Substitution.image, ← List.map_reverse,
    hlookup _ fun e he => h e (List.mem_reverse.mp he), Substitution.image]
  cases hv : s.reverse.lookup v with
  | some t =>
    have hmem : v ∈ s.map Prod.fst := by
      obtain ⟨l₁, l₂, hl, -⟩ := List.lookup_eq_some_iff.mp hv
      exact List.mem_map.mpr ⟨(v, t), List.mem_reverse.mp (hl ▸ by simp), rfl⟩
    rw [if_pos hmem]
    rfl
  | none =>
    have hnot : v ∉ s.map Prod.fst := fun hmem => by
      obtain ⟨e, he, rfl⟩ := List.mem_map.mp hmem
      exact absurd (List.lookup_eq_none_iff.mp hv e (List.mem_reverse.mpr he)) (by simp)
    rw [if_neg hnot]
    rfl

/-- A substitution and a renaming may change places, if the substitution is renamed and the renaming
before it keeps apart what it replaces. -/
theorem substitute_renamed
    (hkeys : ∀ v ∈ t.occurrences, ∀ k ∈ s.map Prod.fst, κ k = g' v ↔ k = v)
    (hrest : ∀ v ∈ t.occurrences, v ∉ s.map Prod.fst → g' v = g v) :
    (t.rename g').substitute (s.map fun e => (κ e.1, e.2.rename g)) =
      (t.substitute s).rename g := by
  rw [substitute_eq_bind, substitute_eq_bind, rename, rename, bind_bind, bind_bind]
  refine bind_congr fun v hv => ?_
  change Substitution.image _ (g' v) = (s.image v).rename g
  rw [image_renamed fun e he => hkeys v hv e.1 (List.mem_map_of_mem he)]
  split
  · rfl
  · next hnot => rw [hrest v hv hnot, Substitution.image_of_notMem hnot, rename_var]

end Substitution

end Term

/-- The application with every variable renamed. -/
def Application.rename (g : Var → Var) (a : Application) : Application :=
  ⟨a.relation, a.args.map (Term.rename g)⟩

namespace Term

variable {t : Term}

theorem applications_rename :
    (t.rename g).applications = t.applications.map (Application.rename g) := by
  induction t using structural with
  | bool b => rfl
  | int n => rfl
  | var v => rfl
  | app name r args ih =>
    rw [rename_app]
    rfl
  | op o args ih =>
    rw [rename_op]
    by_cases ho : o = .and
    · subst ho
      rw [applications, applications, applicationsList_eq, applicationsList_eq, List.flatMap_map,
        List.map_flatMap]
      exact List.flatMap_congr ih
    · rw [(parts_op ho _).1, (parts_op ho _).1, List.map_nil]

theorem constraints_rename : (t.rename g).constraints = t.constraints.map (rename g) := by
  induction t using structural with
  | bool b => cases b <;> rfl
  | int n => rfl
  | var v => rfl
  | app name r args ih =>
    rw [rename_app]
    rfl
  | op o args ih =>
    rw [rename_op]
    by_cases ho : o = .and
    · subst ho
      rw [constraints, constraints, constraintsList_eq, constraintsList_eq, List.flatMap_map,
        List.map_flatMap]
      exact List.flatMap_congr ih
    · rw [(parts_op ho _).2, (parts_op ho _).2, List.map_singleton, rename_op]

end Term

namespace Clause

variable {t body head : Term}

/-- The clause with every variable renamed. -/
def rename (g : Var → Var) (c : Clause) : Clause :=
  ⟨c.body.map (Application.rename g), c.constraint.map (Term.rename g),
    c.head.map (Application.rename g)⟩

theorem constraintOf?_rename :
    constraintOf? (t.rename g) = (constraintOf? t).map (Term.rename g) := by
  rw [constraintOf?, constraintOf?, Term.constraints_rename]
  cases t.constraints with
  | nil => rfl
  | cons c cs => exact congrArg some Term.conjoin_rename.symm

theorem ofBody_rename : ofBody (t.rename g) = (ofBody t).rename g := by
  rw [ofBody, Term.applications_rename, constraintOf?_rename]
  rfl

theorem ofImplication?_rename :
    ofImplication? (body.rename g) (head.rename g) =
      (ofImplication? body head).map (rename g) := by
  cases head with
  | bool b =>
    cases b with
    | true => rfl
    | false => exact congrArg some ofBody_rename
  | app name r args =>
    rw [Term.rename_app, ofImplication?, ofImplication?, ofBody_rename]
    rfl
  | int n | var v =>
    simp only [Term.rename_int, Term.rename_var, ofImplication?, ofBody_rename,
      constraintOf?_rename]
    cases constraintOf? body <;> rfl
  | op o args =>
    simp only [Term.rename_op, ofImplication?, ofBody_rename, constraintOf?_rename]
    rw [← Term.rename_op, ← Term.negate_rename]
    cases constraintOf? body <;> simp [rename]

/-- The clause of a renamed formula is the renamed clause. -/
theorem ofFormula?_rename : ofFormula? (t.rename g) = (ofFormula? t).map (rename g) := by
  have hhead (t : Term) : ofImplication? (.bool true) (t.rename g) =
      (ofImplication? (.bool true) t).map (rename g) :=
    Term.rename_bool (g := g) true ▸ ofImplication?_rename
  cases t with
  | bool b => exact hhead (.bool b)
  | int n => exact hhead (.int n)
  | var v => exact hhead (.var v)
  | app name r args =>
    have happ := hhead (.app name r args)
    rw [Term.rename_app] at happ ⊢
    exact happ
  | op o args =>
    have hop := hhead (.op o args)
    rw [Term.rename_op] at hop ⊢
    cases o with
    | implies =>
      match args with
      | [body, head] => exact ofImplication?_rename
      | [] | [_] | _ :: _ :: _ :: _ => exact hop
    | not =>
      match args with
      | [body] => exact congrArg some ofBody_rename
      | [] | _ :: _ :: _ => exact hop
    | _ => exact hop

end Clause

/-- Clauses that differ by a permutation of variables that keeps sorts. -/
def Clause.SameUpToNames (c c' : Clause) : Prop :=
  ∃ π : Equiv.Perm Var, (∀ v, (π v).sort = v.sort) ∧ c' = c.rename π

theorem Clause.SameUpToNames.refl (c : Clause) : c.SameUpToNames c := by
  have hterms (ts : List Term) : ts.map (Term.rename id) = ts :=
    (List.map_congr_left fun _ _ => Term.rename_id).trans (List.map_id _)
  have happlication (a : Application) : a.rename id = a := by
    rw [Application.rename, hterms]
  refine ⟨Equiv.refl Var, fun _ => rfl, ?_⟩
  rw [Equiv.coe_refl, rename, List.map_congr_left fun a _ => happlication a, List.map_id']
  obtain ⟨body, constraint, head⟩ := c
  cases constraint <;> cases head <;> simp [happlication]

/-- The same relations are declared, and the same clauses are stated up to the names of their
variables. -/
structure Problem.SameUpToNames (p p' : Problem) : Prop where
  relations : p'.relations = p.relations
  clauses : List.Forall₂ Clause.SameUpToNames p.clauses p'.clauses

namespace Problem.SameUpToNames

variable {p p' : Problem}

theorem refl (p : Problem) : p.SameUpToNames p :=
  ⟨rfl, List.forall₂_same.mpr fun c _ => .refl c⟩

theorem declare (h : p.SameUpToNames p') (name : String) (sorts : List BaseSort) :
    (p.declare name sorts).SameUpToNames (p'.declare name sorts) :=
  ⟨by rw [Problem.declare, Problem.declare, h.relations], h.clauses⟩

theorem addClause (h : p.SameUpToNames p') {c c' : Clause} (hc : c.SameUpToNames c') :
    (p.addClause c).SameUpToNames (p'.addClause c') :=
  ⟨h.relations, List.rel_append h.clauses (.cons hc .nil)⟩

/-- The clauses of a formula and of the formula with its variables permuted. -/
theorem addFormula (h : p.SameUpToNames p') {π : Equiv.Perm Var} (hπ : ∀ v, (π v).sort = v.sort)
    (t : Term) : ((Clause.ofFormula? t).elim p p.addClause).SameUpToNames
      ((Clause.ofFormula? (t.rename π)).elim p' p'.addClause) := by
  rw [Clause.ofFormula?_rename]
  cases Clause.ofFormula? t with
  | none => exact h
  | some c => exact h.addClause ⟨π, hπ, rfl⟩

end Problem.SameUpToNames

end HornSaturation
