import HornSaturation.Proofs.Oracle.Models

/-!
# What a refutation rules out

A search that refutes a formula has evaluated it under every assignment of values from the window,
and the formula was defined and not true under each. What is true in 64-bit arithmetic stays true
over the unbounded integers, and folding keeps it true; so no assignment of values from a searched
window makes all assertions true.

The search that confirms a refutation is meant to reach past the constants of the formula. It does
for windows that are symmetric about zero, unless the cap forbids it. For other windows the margin
is measured from the end that is farther from zero, so the window may not reach the constants on the
other side.
-/

namespace HornSaturation

/-- An assignment gives a variable a value of its sort, and an integer only if it is admitted. -/
def Assignment.Gives (env : Assignment) (admitted : Int → Prop) (v : Var) : Prop :=
  ∃ x, env v.name = some x ∧ x.sort = v.sort ∧ ∀ n, x = .int n → admitted n

theorem Window.contains_iff {w : Window} {n : Int} :
    w.contains n = true ↔ w.lo ≤ n ∧ n ≤ w.hi := by
  simp [contains]

/-- The integers of a window are those that it contains. -/
theorem Window.mem_integers {w : Window} {n : Int} : n ∈ w.integers ↔ w.contains n = true := by
  have hsign : n ∈ (if n.natAbs = 0 then [0] else [(n.natAbs : Int), -(n.natAbs : Int)]) := by
    split
    · simp only [List.mem_singleton]
      omega
    · simp only [List.mem_cons, List.not_mem_nil, or_false]
      omega
  have hrange (h : w.contains n = true) : w.nearest ≤ n.natAbs ∧ n.natAbs ≤ w.farthest := by
    rw [contains_iff] at h
    simp only [nearest, farthest, contains_iff]
    constructor
    · split <;> omega
    · omega
  unfold integers
  simp only [List.mem_flatMap, List.mem_filter, List.mem_range'_1]
  refine ⟨fun ⟨_, _, _, h⟩ => h, fun h => ⟨n.natAbs, ?_, hsign, h⟩⟩
  have := hrange h
  omega

section Search

variable {formula : Term} {integers : List Int} {vs : List Var} {m : Model} {env : Assignment}

private theorem firstModel_eq_refuted {α : Type} {search : α → SearchResult}
    {sofar : SearchResult} {as : List α} (h : firstModel search sofar as = .refuted) :
    sofar = .refuted ∧ ∀ a ∈ as, search a = .refuted := by
  induction as generalizing sofar with
  | nil => exact ⟨h, by simp⟩
  | cons a as ih =>
    unfold firstModel at h
    split at h
    · cases h
    · next ha =>
      obtain ⟨hsofar, hall⟩ := ih h
      exact ⟨hsofar, List.forall_mem_cons.mpr ⟨ha, hall⟩⟩
    · cases (ih h).1

private theorem testModel_eq_refuted (h : testModel formula m = .refuted) :
    ∃ x, formula.eval (fun name => m.lookup name) = some x ∧ x ≠ .bool true := by
  unfold testModel at h
  split at h
  · cases h
  · next x hne hx => exact ⟨x, hx, fun e => hne (e ▸ rfl)⟩
  · cases h

/-- A refuted formula is defined and not true under every assignment that takes the values of the
variables tried from the search and agrees with what was given before on the other names. -/
private theorem searchFrom_eq_refuted (h : searchFrom formula integers vs m = .refuted)
    (henv : ∀ v ∈ vs, env.Gives (· ∈ integers) v)
    (hm : ∀ name, (∀ v ∈ vs, v.name ≠ name) → env name = m.lookup name) :
    ∃ x, formula.eval env = some x ∧ x ≠ .bool true := by
  induction vs generalizing m with
  | nil =>
    obtain rfl : env = fun name => m.lookup name := funext fun name => hm name (by simp)
    exact testModel_eq_refuted h
  | cons v vs ih =>
    obtain ⟨x, hx, hs, hint⟩ := henv v List.mem_cons_self
    have next (h : searchFrom formula integers vs ((v.name, x) :: m) = .refuted) :
        ∃ x, formula.eval env = some x ∧ x ≠ .bool true := by
      refine ih h (fun w hw => henv w (List.mem_cons_of_mem v hw)) fun name hname => ?_
      by_cases hv : v.name = name
      · rw [← hv, hx, List.lookup_cons_self]
      · rw [List.lookup_cons, beq_false_of_ne (Ne.symm hv)]
        exact hm name (List.forall_mem_cons.mpr ⟨hv, hname⟩)
    unfold searchFrom at h
    split at h
    · next hsort =>
      obtain ⟨b, rfl⟩ := Value.exists_bool (hs.trans hsort)
      exact next ((firstModel_eq_refuted h).2 b (by cases b <;> simp))
    · next hsort =>
      obtain ⟨n, rfl⟩ := Value.exists_int (hs.trans hsort)
      exact next ((firstModel_eq_refuted h).2 n (hint n rfl))

private theorem exists_mem_eraseDupsBy {α : Type} {r : α → α → Bool}
    (hr : ∀ a, r a a = true) {a : α} :
    ∀ {as : List α}, a ∈ as → ∃ b ∈ as.eraseDupsBy r, r a b = true
  | b :: as, h => by
    rw [List.eraseDupsBy_cons]
    rcases List.mem_cons.mp h with rfl | h
    · exact ⟨a, List.mem_cons_self, hr a⟩
    · by_cases hab : r a b = true
      · exact ⟨b, List.mem_cons_self, hab⟩
      · have hmem : a ∈ as.filter fun c => r c b == false :=
          List.mem_filter.mpr ⟨h, by simpa using hab⟩
        obtain ⟨c, hc, hac⟩ := exists_mem_eraseDupsBy hr hmem
        exact ⟨c, List.mem_cons_of_mem b hc, hac⟩
termination_by as => as.length
decreasing_by exact Nat.lt_succ_of_le (List.length_filter_le _ as)

/-- A formula that is refuted in a window is defined and not true under every assignment of values
from the window. -/
theorem searchWindow_eq_refuted {w : Window} (h : searchWindow formula formula.vars w = .refuted)
    (henv : ∀ v ∈ formula.occurrences, env.Gives (w.contains · = true) v) :
    ∃ x, formula.eval env = some x ∧ x ≠ .bool true := by
  -- The search gives no values to names that do not occur.
  let names := (searchOrder formula.vars).map Var.name
  let env' : Assignment := fun name => if name ∈ names then env name else none
  have hsame : formula.eval env' = formula.eval env := by
    refine Term.evalWith_congr fun v hv => ?_
    obtain ⟨u, hu, huv⟩ := exists_mem_eraseDupsBy (r := fun a b : Var => a.name == b.name)
      (by simp) (List.mem_reverse.mpr (Term.mem_vars.mpr hv))
    exact if_pos (List.mem_map.mpr ⟨u, hu, (beq_iff_eq.mp huv).symm⟩)
  rw [← hsame]
  refine searchFrom_eq_refuted h (fun v hv => ?_) fun name hname => ?_
  · have hvars : v ∈ formula.vars := mem_of_mem_searchOrder hv
    obtain ⟨x, hx, hs, hint⟩ := henv v (Term.mem_vars.mp hvars)
    refine ⟨x, (if_pos (List.mem_map_of_mem hv)).trans hx, hs, fun n hn => ?_⟩
    have hany : formula.vars.any (·.sort = .int) = true :=
      List.any_eq_true.mpr ⟨v, hvars, by simp [← hs, hn, Value.sort]⟩
    rw [if_pos hany]
    exact Window.mem_integers.mpr (hint n hn)
  · refine if_neg fun hmem => ?_
    obtain ⟨v, hv, hvn⟩ := List.mem_map.mp hmem
    exact hname v hv hvn

end Search

namespace Oracle

variable {o o' : Oracle} {env : Assignment}

private theorem search_eq_refuted {formula : Term} {vs : List Var} {w : Window}
    (h : o.search formula vs w = .refuted) : searchWindow formula vs w = .refuted := by
  unfold search at h
  split at h
  · exact h
  · cases h

/-- A refutation holds in the window of the oracle, and if there is a variable for an integer it has
been confirmed in the wider window. -/
theorem decide_eq_refuted {formula : Term} (h : o.decide formula = .refuted) :
    searchWindow formula formula.vars o.window = .refuted ∧
      (formula.vars.any (·.sort = .int) = true →
        ∃ w, o.window.widened? o.cap formula formula.vars = some w ∧
          searchWindow formula formula.vars w = .refuted) := by
  unfold decide at h
  dsimp only at h
  split at h
  · next hbase =>
    refine ⟨search_eq_refuted hbase, fun hany => ?_⟩
    rw [if_pos hany] at h
    split at h
    · next w hw => exact ⟨w, hw, search_eq_refuted h⟩
    · cases h
  · next hne => exact absurd h hne

theorem decide_of_unsat (h : o.check = (.unsat, o')) : o.decide o.goal = .refuted := by
  unfold check at h
  dsimp only at h
  split at h
  · cases h
  · next hd => exact hd
  · cases h

/-- What is true in 64-bit arithmetic makes the folded conjunction true over the integers. -/
private theorem goal_of_assertions (h : ∀ t ∈ o.assertions, t.eval env = some (.bool true)) :
    o.goal.exactEval env = some (.bool true) := by
  refine Term.kept_foldConstants exactArithmetic_integers _ _ (Term.kept_conjoin _ ?_)
  rw [← Bool.not_false, verdict_eq_not.mpr]
  · rfl
  · rw [List.forall_mem_map]
    exact fun t ht => Term.kept_exactEval env t _ (h t ht)

/-- No assignment of values from a window in which the assertions are refuted makes them all true.
-/
theorem not_all_true_of_refuted {w : Window}
    (h : searchWindow o.goal o.goal.vars w = .refuted)
    (henv : ∀ v ∈ o.goal.occurrences, env.Gives (w.contains · = true) v) :
    ¬ ∀ t ∈ o.assertions, t.eval env = some (.bool true) := by
  intro hall
  obtain ⟨x, hx, hne⟩ := searchWindow_eq_refuted h henv
  have hexact := Term.kept_exactEval env o.goal x hx
  exact hne (Option.some.inj (hexact.symm.trans (goal_of_assertions hall)))

theorem exists_assertion_of_mem_goal {v : Var} (hv : v ∈ o.goal.occurrences) :
    ∃ t ∈ o.assertions, v ∈ t.occurrences :=
  Term.mem_occurrences_conjoin (Term.mem_occurrences_foldConstants hv)

/-- The 64-bit integers up to the greatest magnitude of a constant of what is decided. -/
def WithinConstants (o : Oracle) (n : Int) : Prop :=
  int64Min ≤ n ∧ n ≤ int64Max ∧ n.natAbs ≤ o.goal.maxConstant

/-- The window in which a refutation is confirmed contains the integers up to the constants. -/
def ReachesConstants (o : Oracle) : Prop :=
  ∀ w, o.window.widened? o.cap o.goal o.goal.vars = some w →
    ∀ n, o.WithinConstants n → w.contains n = true

/-- A margin that passes the test is not halved. -/
private theorem firstHalving?_of_passes {passes : Nat → Bool} {margin : Nat} (hpos : 0 < margin)
    (h : passes margin = true) : firstHalving? passes margin = some margin := by
  rw [firstHalving?, if_neg (by omega), if_pos h]

/-- A window that is symmetric about zero is widened past the constants, if the cap allows the
margin to start with. -/
theorem reachesConstants_of_symmetric (hlo : o.window.lo = -o.window.hi) (hhi : 0 < o.window.hi)
    (hcap : (o.window.widen (o.window.margin o.goal)).assignments o.goal.vars ≤ o.cap) :
    o.ReachesConstants := by
  intro w hw n hn
  have hmargin : o.goal.maxConstant - o.window.farthest + 1 ≤ o.window.margin o.goal :=
    Nat.le_max_right _ _
  have hfar : o.window.farthest = o.window.hi.natAbs := by
    rw [Window.farthest, hlo]
    omega
  rw [Window.widened?, firstHalving?_of_passes (by omega) (by simpa using hcap)] at hw
  obtain rfl := Option.some.inj hw
  obtain ⟨hmin, hmax, hle⟩ := hn
  rw [Window.contains_iff]
  simp only [Window.widen, int64Min, int64Max] at hmin hmax ⊢
  omega

/-- Where the confirming window reaches the constants, assertions are only refuted if no assignment
of values up to the constants makes them all true. -/
theorem not_all_true_of_unsat (h : o.check = (.unsat, o')) (hreach : o.ReachesConstants)
    (henv : ∀ t ∈ o.assertions, ∀ v ∈ t.occurrences, env.Gives o.WithinConstants v) :
    ¬ ∀ t ∈ o.assertions, t.eval env = some (.bool true) := by
  obtain ⟨hbase, hwide⟩ := decide_eq_refuted (decide_of_unsat h)
  have hgives : ∀ v ∈ o.goal.occurrences, env.Gives o.WithinConstants v := fun v hv => by
    obtain ⟨t, ht, hvt⟩ := exists_assertion_of_mem_goal hv
    exact henv t ht v hvt
  by_cases hany : o.goal.vars.any (·.sort = .int) = true
  · obtain ⟨w, hw, hrefuted⟩ := hwide hany
    refine not_all_true_of_refuted hrefuted fun v hv => ?_
    obtain ⟨x, hx, hs, hint⟩ := hgives v hv
    exact ⟨x, hx, hs, fun n hn => hreach w hw n (hint n hn)⟩
  · -- Without a variable for an integer the values are all booleans.
    refine not_all_true_of_refuted hbase fun v hv => ?_
    obtain ⟨x, hx, hs, -⟩ := hgives v hv
    refine ⟨x, hx, hs, fun n hn => absurd (List.any_eq_true.mpr ⟨v, Term.mem_vars.mpr hv, ?_⟩) hany⟩
    simp [← hs, hn, Value.sort]

/-- An oracle to which an integer variable has been asserted to have a square. -/
def squareIs (window : Window) (n : Int) : Oracle where
  window
  cap := defaultCap
  assertions := [.equation (.op .mul [.var ⟨"x", .int⟩, .var ⟨"x", .int⟩]) (.int n)]

theorem not_true_squareIs_three :
    (squareIs ⟨-1, 1⟩ 3).check.1 = .unsat ∧
      ¬ ∀ t ∈ (squareIs ⟨-1, 1⟩ 3).assertions,
        t.eval (fun _ => some (.int 2)) = some (.bool true) := by
  have hunsat : (squareIs ⟨-1, 1⟩ 3).check.1 = .unsat := by decide +kernel
  refine ⟨hunsat, not_all_true_of_unsat (Prod.ext hunsat rfl) ?_ ?_⟩
  · exact reachesConstants_of_symmetric rfl (by decide) (by decide +kernel)
  · have hwithin : (squareIs ⟨-1, 1⟩ 3).WithinConstants 2 := by
      unfold WithinConstants
      decide +kernel
    simpa [squareIs, Term.equation, Assignment.Gives, Value.sort] using hwithin

/-- An oracle to which an integer variable has been asserted to equal a constant. -/
def equals (window : Window) (n : Int) : Oracle where
  window
  cap := defaultCap
  assertions := [.equation (.var ⟨"x", .int⟩) (.int n)]

/-- A window on one side of zero is not widened past a constant on the other side. -/
theorem unsat_of_equals_minusTwenty :
    ¬ ((equals ⟨0, 8⟩ (-20)).check.1 = .unsat →
      ∀ env : Assignment,
        (∀ t ∈ (equals ⟨0, 8⟩ (-20)).assertions, ∀ v ∈ t.occurrences,
          env.Gives (equals ⟨0, 8⟩ (-20)).WithinConstants v) →
        ¬ ∀ t ∈ (equals ⟨0, 8⟩ (-20)).assertions, t.eval env = some (.bool true)) := by
  intro hnever
  have hwithin : (equals ⟨0, 8⟩ (-20)).WithinConstants (-20) := by
    unfold WithinConstants
    decide +kernel
  refine hnever (by decide +kernel) (fun _ => some (.int (-20))) ?_ ?_
  · simpa [equals, Term.equation, Assignment.Gives, Value.sort] using hwithin
  · simp [equals, Term.equation, Term.eval, Op.value]

end Oracle

end HornSaturation
