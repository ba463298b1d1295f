import HornSaturation.Proofs.Oracle.Answers
import HornSaturation.Proofs.Oracle.Refutations

/-!
# What every refutation covers

How far the window is widened for confirming a refutation depends on the constants of the formula
and on the cap. Whatever they are, the margin is at least one: so a refutation covers the window and
the integers next to it, as far as the 64-bit range goes. The same is true of a formula that is
found valid.
-/

namespace HornSaturation

variable {env : Assignment}

/-- What is admitted of integers matters only for variables of integers. -/
theorem Assignment.Gives.imp {p q : Int → Prop} {v : Var} (h : env.Gives p v)
    (hpq : v.sort = .int → ∀ n, p n → q n) : env.Gives q v := by
  obtain ⟨x, hx, hs, hint⟩ := h
  refine ⟨x, hx, hs, fun n hn => ?_⟩
  subst hn
  exact hpq hs.symm n (hint n rfl)

/-- A margin is halved until it passes the test or is gone. -/
theorem pos_of_firstHalving? {passes : Nat → Bool} {margin m : Nat}
    (h : firstHalving? passes margin = some m) : 0 < m := by
  fun_induction firstHalving? passes margin with
  | case1 => cases h
  | case2 margin hmargin hpasses =>
    obtain rfl := Option.some.inj h
    omega
  | case3 margin hmargin hpasses ih => exact ih h

/-- The 64-bit integers in a window and next to it. -/
def Window.Near (w : Window) (n : Int) : Prop :=
  int64Min ≤ n ∧ n ≤ int64Max ∧ w.lo - 1 ≤ n ∧ n ≤ w.hi + 1

instance (w : Window) (n : Int) : Decidable (w.Near n) :=
  inferInstanceAs (Decidable (_ ∧ _ ∧ _ ∧ _))

/-- A window that is widened at all reaches the integers next to it. -/
theorem Window.contains_of_near {w w' : Window} {cap : Nat} {formula : Term} {vars : List Var}
    (h : w.widened? cap formula vars = some w') {n : Int} (hn : w.Near n) :
    w'.contains n = true := by
  unfold Window.widened? at h
  obtain ⟨margin, hmargin, rfl⟩ := Option.map_eq_some_iff.mp h
  have hpos := pos_of_firstHalving? hmargin
  obtain ⟨hmin, hmax, hlo, hhi⟩ := hn
  rw [contains_iff]
  simp only [widen, int64Min, int64Max] at hmin hmax ⊢
  omega

namespace Oracle

variable {o : Oracle}

/-- What is decided to have no model has been refuted in a window that contains, for every variable
of integers, the integers in the window of the oracle and next to it. -/
theorem exists_window_of_refuted (h : o.decide o.goal = .refuted) :
    ∃ w, searchWindow o.goal o.goal.vars w = .refuted ∧
      ∀ v ∈ o.goal.occurrences, v.sort = .int → ∀ n, o.window.Near n → w.contains n = true := by
  obtain ⟨hbase, hwide⟩ := decide_eq_refuted h
  by_cases hany : o.goal.vars.any (·.sort = .int) = true
  · obtain ⟨w, hw, hrefuted⟩ := hwide hany
    exact ⟨w, hrefuted, fun _ _ _ n hn => Window.contains_of_near hw hn⟩
  · refine ⟨o.window, hbase, fun v hv hs => absurd ?_ hany⟩
    exact List.any_eq_true.mpr ⟨v, Term.mem_vars.mpr hv, by simpa using hs⟩

/-- Assertions that are refuted are not all true where integers are from the window or next to it.
-/
theorem not_all_true_near (h : o.check.1 = .unsat)
    (henv : ∀ t ∈ o.assertions, ∀ v ∈ t.occurrences, env.Gives o.window.Near v) :
    ¬ ∀ t ∈ o.assertions, t.eval env = some (.bool true) := by
  have hrefuted : o.decide o.goal = .refuted := decide_of_unsat (Prod.ext h rfl)
  obtain ⟨w, hw, hnear⟩ := exists_window_of_refuted hrefuted
  apply not_all_true_of_refuted hw
  intro v hv
  obtain ⟨t, ht, hvt⟩ := exists_assertion_of_mem_goal hv
  exact (henv t ht v hvt).imp (hnear v hv)

/-- A formula is found valid where its negation is refuted beside the assertions. -/
theorem unsat_of_valid {t : Term} (h : (o.checkValid t).1 = .valid) :
    (o.push.assert t.negate).check.1 = .unsat := by
  rw [checkValid_eq] at h
  have hask : (o.checkWith [t.negate]).1 = (o.push.assert t.negate).check.1 := rfl
  rw [← hask]
  cases hanswer : (o.checkWith [t.negate]).1 with
  | unsat => rfl
  | sat | unknown =>
    rw [hanswer] at h
    cases h

/-- Every answer that there is no model covers all values of the sorts of the variables where the
integers are from the window or next to it: not all assertions are true there. Every answer that a
formula is valid covers them as well: where the assertions are true, the formula is not false. -/
theorem covers_near (o : Oracle) :
    (o.check.1 = .unsat → ∀ env : Assignment,
      (∀ t ∈ o.assertions, ∀ v ∈ t.occurrences, env.Gives o.window.Near v) →
        ¬ ∀ t ∈ o.assertions, t.eval env = some (.bool true)) ∧
      ∀ t, (o.checkValid t).1 = .valid → ∀ env : Assignment,
        (∀ u ∈ t :: o.assertions, ∀ v ∈ u.occurrences, env.Gives o.window.Near v) →
          (∀ u ∈ o.assertions, u.eval env = some (.bool true)) →
            t.eval env ≠ some (.bool false) := by
  refine ⟨fun h env henv => not_all_true_near h henv, fun t h env henv htrue hfalse => ?_⟩
  have hassertions : (o.push.assert t.negate).assertions = o.assertions ++ [t.negate] := rfl
  have hgives : ∀ u ∈ (o.push.assert t.negate).assertions, ∀ v ∈ u.occurrences,
      env.Gives o.window.Near v := by
    intro u hu v hv
    rw [hassertions, List.mem_append, List.mem_singleton] at hu
    rcases hu with hu | rfl
    · exact henv u (List.mem_cons_of_mem t hu) v hv
    · exact henv t List.mem_cons_self v (by simpa using hv)
  apply not_all_true_near (unsat_of_valid h) hgives
  intro u hu
  rw [hassertions, List.mem_append, List.mem_singleton] at hu
  rcases hu with hu | rfl
  · exact htrue u hu
  · exact Term.trueUnder_negate.mpr hfalse

/-- The square of minus one, which lies next to the window, is not three; and an integer next to the
window whose square is four is not greater than two. -/
theorem covers_near_squareIs :
    ((squareIs ⟨0, 1⟩ 3).check.1 = .unsat ∧ (⟨0, 1⟩ : Window).Near (-1) ∧
      ¬ ∀ t ∈ (squareIs ⟨0, 1⟩ 3).assertions,
        t.eval (fun _ => some (.int (-1))) = some (.bool true)) ∧
    ((squareIs ⟨0, 1⟩ 4).checkValid (.op .le [.var ⟨"x", .int⟩, .int 2])).1 = .valid ∧
      (⟨0, 1⟩ : Window).Near 2 ∧
      (∀ t ∈ (squareIs ⟨0, 1⟩ 4).assertions,
        t.eval (fun _ => some (.int 2)) = some (.bool true)) ∧
      (Term.op .le [.var ⟨"x", .int⟩, .int 2]).eval (fun _ => some (.int 2)) ≠
        some (.bool false) := by
  have hunsat : (squareIs ⟨0, 1⟩ 3).check.1 = .unsat := by decide +kernel
  have hvalid : ((squareIs ⟨0, 1⟩ 4).checkValid (.op .le [.var ⟨"x", .int⟩, .int 2])).1 =
      .valid := by decide +kernel
  have htrue : ∀ t ∈ (squareIs ⟨0, 1⟩ 4).assertions,
      t.eval (fun _ => some (.int 2)) = some (.bool true) := by decide +kernel
  have hminus : (⟨0, 1⟩ : Window).Near (-1) := by decide
  have htwo : (⟨0, 1⟩ : Window).Near 2 := by decide
  refine ⟨⟨hunsat, hminus, (covers_near _).1 hunsat _ ?_⟩, hvalid, htwo, htrue,
    (covers_near _).2 _ hvalid _ ?_ htrue⟩
  · simpa [squareIs, Term.equation, Assignment.Gives, Value.sort] using hminus
  · simpa [squareIs, Term.equation, Assignment.Gives, Value.sort] using htwo

end Oracle

end HornSaturation
