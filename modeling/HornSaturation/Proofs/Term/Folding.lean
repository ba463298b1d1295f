import HornSaturation.Proofs.Term.ArithmeticFolding
import HornSaturation.Proofs.Term.FoldingOrder
import HornSaturation.Proofs.Term.FoldingSorts

/-!
# Soundness of constant folding

Folding keeps the value that a term has in an exact arithmetic, whatever the term and the assignment
are. Each rule keeps it by itself, and folding from the leaves up keeps it because operators keep
their values when arguments become more defined. In 64-bit arithmetic folding may make a term more
or less defined, but it never gives it another value. A well-sorted term has a value under every
valuation, so there the folded term has exactly the same meaning. A folded conjunction implies its
conjuncts even if others of them are not well sorted or have variables with values of other sorts.
-/

namespace HornSaturation

namespace Term

section Values

variable {arith : Op → List Int → Option Int} (ha : FoldableArithmetic arith)
variable {env : Var → Option Value} {args : List Term}

include ha

/-- Folding an operator keeps its value, if folding a rebuilt term once more does. -/
private theorem kept_foldOp {again : Term → Term}
    (hagain : ∀ t, Kept (t.evalWith arith env) ((again t).evalWith arith env)) (o : Op) :
    Kept ((Term.op o args).evalWith arith env) ((foldOp again o args).evalWith arith env) := by
  unfold foldOp
  split
  · exact kept_foldAnd
  · exact kept_foldOr
  · exact .refl _
  · exact kept_negate
  · exact kept_foldImplication hagain _ _
  · exact kept_foldConditional again _ _ _
  all_goals first
    | exact kept_foldEquality (by simp)
    | exact kept_foldComparison (by simp)
    | exact kept_foldArithmetic ha (by simp)
    | exact .refl _

/-- Folding from the leaves up keeps values, if folding a rebuilt term once more does. -/
theorem kept_foldWith {again : Term → Term}
    (hagain : ∀ t, Kept (t.evalWith arith env) ((again t).evalWith arith env)) (t : Term) :
    Kept (t.evalWith arith env) ((t.foldWith again).evalWith arith env) := by
  induction t using structural with
  | bool b => exact .refl _
  | int n => exact .refl _
  | var v => exact .refl _
  | app name r args ih => exact .none _
  | op o args ih =>
    rw [foldWith, foldListWith_eq]
    refine Kept.trans ?_ (kept_foldOp ha hagain o)
    rw [evalWith_op, evalWith_op]
    refine o.value_kept (fun _ _ => .refl _) ?_
    simp only [KeptList, List.map_map, List.forall₂_map_left_iff, List.forall₂_map_right_iff,
      List.forall₂_same]
    exact ih

theorem kept_foldToDepth (n : Nat) (t : Term) :
    Kept (t.evalWith arith env) ((foldToDepth n t).evalWith arith env) := by
  induction n generalizing t with
  | zero => exact .refl _
  | succ n ih => exact kept_foldWith ha ih t

end Values

/-- Folding the constants of a term keeps its value. -/
theorem kept_foldConstants {arith : Op → List Int → Option Int} (ha : ExactArithmetic arith)
    {env : Var → Option Value} (t : Term) :
    Kept (t.evalWith arith env) (t.foldConstants.evalWith arith env) :=
  kept_foldToDepth ha.foldable t.size t

/-- Folding keeps the value that a term has over the unbounded integers. In 64-bit arithmetic one
form may be defined where the other is not, but they never have different values. -/
theorem exactEval_foldConstants (env : Assignment) (t : Term) :
    (∀ x, t.exactEval env = some x → t.foldConstants.exactEval env = some x) ∧
      ∀ x y, t.eval env = some x → t.foldConstants.eval env = some y → x = y := by
  have hkept : Kept (t.exactEval env) (t.foldConstants.exactEval env) :=
    kept_foldConstants exactArithmetic_integers t
  refine ⟨hkept, fun x y hx hy => ?_⟩
  have hfolded := hkept x (kept_exactEval env t x hx)
  rw [kept_exactEval env t.foldConstants y hy] at hfolded
  exact (Option.some.inj hfolded).symm

/-- A disjunction that is settled before its undefined arguments, and a sum of constants that do not
fit in the 64-bit range together. -/
def partlyUndefined : Term :=
  let x : Term := .var ⟨"x", .int⟩
  .op .and [
    .op .or [.op .le [x, .int 0], .app "R" 0 [x], .equation (.op .div [x, .int 0]) x],
    .equation (.op .add [x, .int int64Max, .int 1, .int (-1)]) (.int (int64Max - 5))]

theorem exactEval_foldConstants_partlyUndefined :
    let env : Assignment := fun _ => some (.int (-5))
    partlyUndefined.foldConstants ≠ partlyUndefined ∧
      partlyUndefined.foldConstants.exactEval env = some (.bool true) ∧
      ∃ x y, partlyUndefined.eval env = some x ∧ partlyUndefined.foldConstants.eval env = some y ∧
        x = y := by
  intro env
  have hplain : partlyUndefined.eval env = some (.bool true) := by decide +kernel
  have hfolded : partlyUndefined.foldConstants.eval env = some (.bool true) := by decide +kernel
  have hexact : partlyUndefined.exactEval env = some (.bool true) := by decide +kernel
  have hkept := exactEval_foldConstants env partlyUndefined
  exact ⟨by decide +kernel, hkept.1 _ hexact, _, _, hplain, hfolded, hkept.2 _ _ hplain hfolded⟩

end Term

/-- A term can stand for another of a sort: it has this sort and the same values. -/
structure Simplifies (z : ZeroDivision) (s : BaseSort) (t t' : Term) : Prop where
  sorted : t'.hasSort s = true
  meaning : ∀ ρ, t'.meaning z ρ = t.meaning z ρ

namespace Simplifies

variable {z : ZeroDivision} {s : BaseSort} {t t' : Term}

theorem refl (h : t.hasSort s = true) : Simplifies z s t t := ⟨h, fun _ => rfl⟩

theorem holds (h : Simplifies z s t t') (ρ : Valuation) : t'.Holds z ρ ↔ t.Holds z ρ := by
  rw [Term.Holds, Term.Holds, h.meaning]

/-- A well-sorted term always has a value, so what keeps its value has its meaning. -/
theorem of_kept (ht : t.hasSort s = true) (hs : t'.hasSort s = true)
    (h : ∀ ρ, Kept (t.meaning z ρ) (t'.meaning z ρ)) : Simplifies z s t t' := by
  refine ⟨hs, fun ρ => ?_⟩
  obtain ⟨x, hx, -⟩ := Term.exists_value z ρ ht
  rw [hx, h ρ x hx]

end Simplifies

namespace Term

variable {z : ZeroDivision} {ρ : Valuation} {args : List Term}

/-- Folding the constants of a well-sorted term is sound. -/
theorem simplifies_foldConstants (z : ZeroDivision) {t : Term} {s : BaseSort}
    (h : t.hasSort s = true) : Simplifies z s t t.foldConstants :=
  .of_kept h (hasSort_foldConstants h) fun _ => kept_foldConstants z.exactArithmetic t

section Assignments

variable {arith : Op → List Int → Option Int} {env : Var → Option Value}

/-- A folded conjunction is true only if all its conjuncts are, whatever their sorts. -/
private theorem trueUnder_of_foldAnd (h : TrueUnder arith env (foldAnd args)) :
    ∀ t ∈ args, TrueUnder arith env t := by
  intro t ht
  rw [foldAnd_eq_conjoin h, trueUnder_conjoin] at h
  have hadded : ∀ c ∈ t.addedConjuncts, TrueUnder arith env c := fun c hc =>
    h c (mem_addConjuncts.mpr (.inr ⟨t, ht, hc⟩))
  rcases addedConjuncts_cases t with ⟨ht, -⟩ | ht | ht
  · simp [ht]
  · rw [ht]
    exact trueUnder_and.mpr hadded
  · exact hadded t (by simp [ht])

/-- A folded conjunction is true only if its conjuncts are, folded each by itself. -/
theorem trueUnder_of_foldConstants_conjoin
    (h : TrueUnder arith env (conjoin args).foldConstants) {t c : Term} (ht : t ∈ args)
    (hc : c ∈ t.conjuncts) : TrueUnder arith env c.foldConstants := by
  have hflat : ∀ c ∈ conjunctsList args, TrueUnder arith env c.foldConstants := by
    unfold conjoin at h
    split at h
    · next hnil => simp [hnil]
    · next u hone => simpa [hone] using h
    · rw [foldConstants_op] at h
      exact List.forall_mem_map.mp (trueUnder_of_foldAnd h)
  refine hflat c ?_
  rw [conjunctsList_eq]
  exact List.mem_flatMap.mpr ⟨t, ht, hc⟩

/-- A folded conjunction is true only if its conjuncts have no other value. -/
theorem eq_true_of_foldConstants_conjoin (ha : ExactArithmetic arith)
    (h : TrueUnder arith env (conjoin args).foldConstants) {t : Term} (ht : t ∈ args) {x : Value}
    (hx : t.evalWith arith env = some x) : x = .bool true := by
  refine eq_true_of_conjuncts (fun c hc y hy => ?_) hx
  have hkept := kept_foldConstants ha c y hy
  exact Option.some.inj (hkept.symm.trans (trueUnder_of_foldConstants_conjoin h ht hc))

end Assignments

/-- A formula that a model decides: it is well sorted, or it is an equation between a variable and a
value, which may be of another sort. -/
def IsQuestion (t : Term) : Prop :=
  t.hasSort .bool = true ∨ ∃ (v : Var) (x : Value), t = equation (.var v) x.toTerm

/-- An equation between a variable and a term without it is folded by folding the term. -/
theorem foldConstants_equation {v : Var} {t : Term} (hv : v ∉ t.occurrences) :
    (equation (.var v) t).foldConstants = equation (.var v) t.foldConstants := by
  have hne : Term.var v ≠ t.foldConstants := fun h =>
    hv (mem_occurrences_foldConstants (h ▸ List.mem_singleton.mpr rfl))
  have hplain : plainEquality? (.var v) t.foldConstants = none := by
    simp [plainEquality?, hne]
  rw [equation, foldConstants_op]
  change foldEquality .eq [.var v, t.foldConstants] = _
  rw [foldEquality, hplain]
  rfl

/-- A formula that is true where its variables have the values of a valuation holds under it. -/
theorem holds_of_trueUnder {env : Var → Option Value} {t : Term}
    (henv : ∀ v ∈ t.occurrences, env v = some (ρ.value v)) (h : TrueUnder z.arithmetic env t) :
    t.Holds z ρ := by
  rwa [Holds, meaning, ← evalWith_congr henv]

/-- A folded conjunction implies every conjunct that is a question, if the variables that are left
in it have values of their sorts, whatever the others are. -/
theorem holds_of_foldConstants_conjoin {env : Var → Option Value}
    (h : TrueUnder z.arithmetic env (conjoin args).foldConstants) {t : Term} (ht : t ∈ args)
    (henv : ∀ c ∈ t.conjuncts, ∀ v ∈ c.foldConstants.occurrences, env v = some (ρ.value v))
    (hq : t.IsQuestion) : t.Holds z ρ := by
  refine holds_conjuncts.mp fun c hc => ?_
  have hfolded := holds_of_trueUnder (henv c hc) (trueUnder_of_foldConstants_conjoin h ht hc)
  rcases hq with hsort | ⟨v, x, rfl⟩
  · have hsort := hasSort_of_mem_conjuncts hsort hc
    exact ((simplifies_foldConstants z hsort).holds ρ).mp hfolded
  · obtain rfl : c = equation (.var v) x.toTerm := List.mem_singleton.mp hc
    have hvalue : x.toTerm.foldConstants = x.toTerm := by cases x <;> rfl
    rwa [foldConstants_equation (by simp), hvalue] at hfolded

end Term

end HornSaturation
