import HornSaturation.Proofs.Term.Gathering

/-!
# Folding connectives

Where a connective has a value, its folded form has the same value, whatever the arguments are: they
may be ill sorted, and some of them may be undefined. The order of the arguments matters for that,
since an undefined one does no harm behind one that settles the result, so verdicts are compared on
whole lists.
-/

namespace HornSaturation.Term

variable {arith : Op → List Int → Option Int} {env : Var → Option Value} {args : List Term}

section Verdicts

/-- The conjuncts of a formula have its verdict. -/
private theorem verdict_conjuncts (t : Term) :
    verdict false (t.conjuncts.map (evalWith arith env)) =
      verdict false [t.evalWith arith env] := by
  induction t using structural with
  | bool b => cases b <;> rfl
  | int n => rfl
  | var v => rfl
  | app name r args ih => rfl
  | op o args ih =>
    by_cases ho : o = .and
    · subst ho
      rw [conjuncts, conjunctsList_eq, verdict_flatMap ih, evalWith_op, Op.value,
        allTrue_eq_verdict, verdict_singleton]
    · rw [conjuncts_op ho]
      rfl

/-- A flattened conjunction keeps the verdict of what it is given. -/
theorem kept_conjoin :
    Kept ((verdict false (args.map (evalWith arith env))).map .bool)
      ((conjoin args).evalWith arith env) := by
  have hflat : verdict false ((conjunctsList args).map (evalWith arith env)) =
      verdict false (args.map (evalWith arith env)) := by
    rw [conjunctsList_eq]
    exact verdict_flatMap fun t _ => verdict_conjuncts t
  rw [← hflat, conjoin]
  split
  · next h => rw [h]; exact .refl _
  · next t h => rw [h]; exact kept_of_singleton
  · rw [evalWith_op, Op.value, allTrue_eq_verdict]
    exact .refl _

/-- A flattened disjunction keeps the verdict of what it is given. -/
theorem kept_disjoin :
    Kept ((verdict true (args.map (evalWith arith env))).map .bool)
      ((disjoin args).evalWith arith env) := by
  have hflat : verdict true ((args.flatMap disjuncts).map (evalWith arith env)) =
      verdict true (args.map (evalWith arith env)) := by
    refine verdict_flatMap fun t _ => ?_
    unfold disjuncts
    split
    · rfl
    · rw [evalWith_op, Op.value, anyTrue_eq_verdict, verdict_singleton]
    · rfl
  rw [← hflat, disjoin]
  split
  · next h => rw [h]; exact .refl _
  · next t h => rw [h]; exact kept_of_singleton
  · rw [evalWith_op, Op.value, anyTrue_eq_verdict]
    exact .refl _

/-- Adding a folded formula to the conjuncts kept so far has the verdict of the longer list. -/
private theorem verdict_addConjunct (kept : List Term) (t : Term) :
    verdict false ((addConjunct kept t).map (evalWith arith env)) =
      verdict false (kept.map (evalWith arith env) ++ [t.evalWith arith env]) := by
  unfold addConjunct
  split
  · rw [verdict_append]
    cases verdict false (kept.map (evalWith arith env)) with
    | none => rfl
    | some a => cases a <;> rfl
  · rw [List.map_append]
    refine verdict_append_congr rfl ?_
    rw [evalWith_op, Op.value, allTrue_eq_verdict, verdict_singleton]
  · split
    · next h =>
      exact (verdict_append_mem (List.mem_map_of_mem (List.contains_iff_mem.mp h))).symm
    · rw [List.map_append, List.map_singleton]

private theorem verdict_addConjuncts (kept : List Term) :
    verdict false ((args.foldl addConjunct kept).map (evalWith arith env)) =
      verdict false (kept.map (evalWith arith env) ++ args.map (evalWith arith env)) := by
  induction args generalizing kept with
  | nil => simp
  | cons t args ih =>
    rw [List.foldl_cons, ih, List.map_cons, ← List.singleton_append, ← List.append_assoc]
    exact verdict_append_congr (verdict_addConjunct kept t) rfl

/-- Adding a folded formula to the disjuncts kept so far has the verdict of the longer list. -/
private theorem verdict_addDisjunct (kept : List Term) (t : Term) :
    verdict true ((addDisjunct kept t).map (evalWith arith env)) =
      verdict true (kept.map (evalWith arith env) ++ [t.evalWith arith env]) := by
  unfold addDisjunct
  split
  · rw [verdict_append]
    cases verdict true (kept.map (evalWith arith env)) with
    | none => rfl
    | some a => cases a <;> rfl
  · split
    · next h =>
      exact (verdict_append_mem (List.mem_map_of_mem (List.contains_iff_mem.mp h))).symm
    · rw [List.map_append, List.map_singleton]

private theorem verdict_addDisjuncts (kept : List Term) :
    verdict true ((args.foldl addDisjunct kept).map (evalWith arith env)) =
      verdict true (kept.map (evalWith arith env) ++ args.map (evalWith arith env)) := by
  induction args generalizing kept with
  | nil => simp
  | cons t args ih =>
    rw [List.foldl_cons, ih, List.map_cons, ← List.singleton_append, ← List.append_assoc]
    exact verdict_append_congr (verdict_addDisjunct kept t) rfl

end Verdicts

/-- A negation keeps its value when the sign is removed from a formula that has one already. -/
theorem kept_negate {t : Term} :
    Kept ((Term.op .not [t]).evalWith arith env) (t.negate.evalWith arith env) := by
  rcases negate_cases t with ht | ht
  · conv_lhs => rw [ht]
    rcases h : t.negate.evalWith arith env with _ | ⟨⟨⟩⟩ | n <;>
      simp [Op.value, h, Value.toBool?, Kept]
  · rw [ht]
    exact .refl _

/-- A formula and its negation are never both true. -/
private theorem not_true_negate {t : Term} (h : t.evalWith arith env = some (.bool true)) :
    t.negate.evalWith arith env ≠ some (.bool true) := by
  have hnot : (Term.op .not [t]).evalWith arith env = some (.bool false) := by
    simp [Op.value, h, Value.toBool?]
  rw [kept_negate _ hnot]
  simp

/-- Folding a conjunction keeps its value. -/
theorem kept_foldAnd :
    Kept ((Term.op .and args).evalWith arith env) ((foldAnd args).evalWith arith env) := by
  have hkept : verdict false ((args.foldl addConjunct []).map (evalWith arith env)) =
      verdict false (args.map (evalWith arith env)) := verdict_addConjuncts []
  rw [evalWith_op, Op.value, allTrue_eq_verdict]
  unfold foldAnd
  split
  · next hany =>
    obtain ⟨t, ht, hf⟩ := List.any_eq_true.mp hany
    refine kept_of_settled fun hall => ?_
    have htrue := hall _ (List.mem_map_of_mem ht)
    simp [eq_of_isFalse hf] at htrue
  · dsimp only
    rw [← hkept]
    split
    · next hany =>
      obtain ⟨t, ht, hn⟩ := List.any_eq_true.mp hany
      refine kept_of_settled fun hall => ?_
      have htrue := hall _ (List.mem_map_of_mem ht)
      exact not_true_negate htrue (hall _ (List.mem_map_of_mem (List.contains_iff_mem.mp hn)))
    · exact kept_conjoin

/-- Folding a disjunction keeps its value. -/
theorem kept_foldOr :
    Kept ((Term.op .or args).evalWith arith env) ((foldOr args).evalWith arith env) := by
  rw [evalWith_op, Op.value, anyTrue_eq_verdict]
  unfold foldOr
  split
  · next hany =>
    obtain ⟨t, ht, hf⟩ := List.any_eq_true.mp hany
    refine kept_of_settled fun hall => ?_
    have hfalse := hall _ (List.mem_map_of_mem ht)
    simp [eq_of_isTrue hf] at hfalse
  · have hkept : verdict true ((args.foldl addDisjunct []).map (evalWith arith env)) =
        verdict true (args.map (evalWith arith env)) := verdict_addDisjuncts []
    rw [← hkept]
    exact kept_disjoin

/-- Folding an implication keeps its value, if folding a rebuilt term once more does. -/
theorem kept_foldImplication {again : Term → Term}
    (hagain : ∀ t, Kept (t.evalWith arith env) ((again t).evalWith arith env)) (a b : Term) :
    Kept ((Term.op .implies [a, b]).evalWith arith env)
      ((foldOp again .implies [a, b]).evalWith arith env) := by
  have himp : (Term.op .implies [a, b]).evalWith arith env =
      ((a.evalWith arith env).bind Value.toBool?).bind fun p =>
        if p then b.evalWith arith env else some (.bool true) := by
    rw [evalWith_op, List.map_cons, List.map_singleton]
    cases a.evalWith arith env <;> rfl
  simp only [foldOp]
  split
  · next h =>
    rw [himp]
    rcases Bool.or_eq_true_iff.mp h with h | h
    · rw [eq_of_isFalse h]
      exact .refl _
    · rw [eq_of_isTrue h]
      rcases a.evalWith arith env with _ | ⟨⟨⟩⟩ | n <;> simp [Value.toBool?, Kept]
  · split
    · next h =>
      rw [himp, eq_of_isTrue h]
      exact .refl _
    · split
      · next h =>
        refine Kept.trans ?_ (kept_negate.trans (hagain a.negate))
        rw [himp, eq_of_isFalse h, evalWith_op]
        rcases ha : a.evalWith arith env with _ | ⟨⟨⟩⟩ | n <;>
          simp [Op.value, ha, Value.toBool?, Kept]
      · exact .refl _

/-- Folding a conditional keeps its value. -/
theorem kept_foldConditional (again : Term → Term) (c t e : Term) :
    Kept ((Term.op .ite [c, t, e]).evalWith arith env)
      ((foldOp again .ite [c, t, e]).evalWith arith env) := by
  have hite : (Term.op .ite [c, t, e]).evalWith arith env =
      ((c.evalWith arith env).bind Value.toBool?).bind fun p =>
        if p then t.evalWith arith env else e.evalWith arith env := by
    rw [evalWith_op, List.map_cons, List.map_cons, List.map_singleton]
    cases c.evalWith arith env <;> rfl
  simp only [foldOp]
  split
  · next h =>
    rw [hite, eq_of_isTrue h]
    exact .refl _
  · split
    · next h =>
      rw [hite, eq_of_isFalse h]
      exact .refl _
    · split
      · next h =>
        rw [hite, h]
        rcases c.evalWith arith env with _ | ⟨⟨⟩⟩ | n <;> simp [Value.toBool?, Kept]
      · exact .refl _

end HornSaturation.Term
