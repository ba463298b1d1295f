import HornSaturation.Proofs.Term.Mentions
import HornSaturation.Proofs.Term.Truth
import HornSaturation.Proofs.Term.Verdicts

/-!
# Formulas

A formula is a well-sorted term of boolean sort. Building formulas keeps them formulas, adds no
variables, and the connectives mean what they say. Conjunctions need no hypothesis: they are true
exactly if all their parts are, whatever else the parts may be.
-/

namespace HornSaturation.Term

variable {z : ZeroDivision} {ρ ρ' : Valuation} {a b t : Term} {ts : List Term}

/-- The truth of a formula depends on the variables that occur in it. -/
theorem holds_congr (h : ∀ v ∈ t.occurrences, ρ.value v = ρ'.value v) :
    Holds z ρ t ↔ Holds z ρ' t := by
  rw [Holds, Holds, meaning, meaning, evalWith_congr fun v hv => congrArg some (h v hv)]

@[simp] theorem holds_bool {b : Bool} : Holds z ρ (.bool b) ↔ b = true := by
  simp [Holds, meaning]

@[simp] theorem meaning_bool (b : Bool) : (Term.bool b).meaning z ρ = some (.bool b) := rfl

@[simp] theorem meaning_int (n : Int) : (Term.int n).meaning z ρ = some (.int n) := rfl

@[simp] theorem meaning_var (v : Var) : (Term.var v).meaning z ρ = some (ρ.value v) := rfl

@[simp] theorem meaning_toTerm (x : Value) : x.toTerm.meaning z ρ = some x := evalWith_toTerm x

/-- A formula that is not true is false. -/
theorem meaning_of_not_holds (h : t.hasSort .bool = true) (hn : ¬ Holds z ρ t) :
    t.meaning z ρ = some (.bool false) := by
  obtain ⟨x, hx, hs⟩ := exists_value z ρ h
  obtain ⟨b, rfl⟩ := Value.exists_bool hs
  cases b with
  | true => exact absurd hx hn
  | false => exact hx

theorem holds_not (h : t.hasSort .bool = true) : Holds z ρ (.op .not [t]) ↔ ¬ Holds z ρ t := by
  by_cases hh : Holds z ρ t
  · have hx : t.meaning z ρ = some (.bool true) := hh
    simp [Holds, meaning_op, Op.value, hx, Value.toBool?]
  · have hx := meaning_of_not_holds h hh
    simp [Holds, meaning_op, Op.value, hx, Value.toBool?]

section Conjunction

variable {P : Term → Prop}

/-- A property of conjunctions and of `true` that comes from all parts comes from all conjuncts. -/
theorem forall_conjuncts (htrue : P (.bool true)) (hand : ∀ {us}, P (.op .and us) ↔ ∀ u ∈ us, P u) :
    (∀ c ∈ t.conjuncts, P c) ↔ P t := by
  induction t using structural with
  | bool b => cases b <;> simp [conjuncts, htrue]
  | int n => simp [conjuncts]
  | var v => simp [conjuncts]
  | app name r args ih => simp [conjuncts]
  | op o args ih =>
    by_cases ho : o = .and
    · subst ho
      rw [conjuncts, conjunctsList_eq, hand]
      simp only [List.forall_mem_flatMap]
      exact forall₂_congr ih
    · simp [conjuncts_op ho]

/-- Such a property comes to a flattened conjunction from all formulas of the list. -/
theorem conjoin_iff (htrue : P (.bool true)) (hand : ∀ {us}, P (.op .and us) ↔ ∀ u ∈ us, P u) :
    P (conjoin ts) ↔ ∀ t ∈ ts, P t := by
  have hflat : (∀ c ∈ conjunctsList ts, P c) ↔ ∀ t ∈ ts, P t := by
    rw [conjunctsList_eq]
    simp only [List.forall_mem_flatMap, forall_conjuncts htrue hand]
  rw [← hflat, conjoin]
  split
  · next h => simp [h, htrue]
  · next t h => simp [h]
  · rw [hand]

end Conjunction

section Assignments

variable {arith : Op → List Int → Option Int} {env : Var → Option Value}

/-- A formula is true where variables have some values, of whatever sorts. -/
def TrueUnder (arith : Op → List Int → Option Int) (env : Var → Option Value) (t : Term) : Prop :=
  t.evalWith arith env = some (.bool true)

@[simp] theorem trueUnder_bool {b : Bool} : TrueUnder arith env (.bool b) ↔ b = true := by
  simp [TrueUnder]

/-- A negation has the other truth value. -/
theorem evalWith_not {b : Bool} : (Term.op .not [t]).evalWith arith env = some (.bool b) ↔
    t.evalWith arith env = some (.bool !b) := by
  rw [evalWith_op]
  rcases h : t.evalWith arith env with _ | a | n
  · simp [Op.value, h]
  · cases a <;> cases b <;> simp [Op.value, h, Value.toBool?]
  · simp [Op.value, h, Value.toBool?]

/-- A conjunction is true exactly if all its parts are. -/
theorem trueUnder_and : TrueUnder arith env (.op .and ts) ↔ ∀ t ∈ ts, TrueUnder arith env t := by
  rw [TrueUnder, evalWith_op, Op.value, Option.map_eq_some_iff, allTrue_eq_verdict]
  simp only [Value.bool.injEq, exists_eq_right]
  rw [← Bool.not_false, verdict_eq_not, List.forall_mem_map, Bool.not_false]
  rfl

/-- An equation is true exactly if both sides have a common value. -/
theorem trueUnder_equation : TrueUnder arith env (equation a b) ↔
    ∃ x, a.evalWith arith env = some x ∧ b.evalWith arith env = some x := by
  rw [TrueUnder, equation, evalWith_op]
  simp only [Op.value, List.map_cons, List.map_nil, List.getD_cons_zero, List.getD_cons_succ]
  rcases a.evalWith arith env with _ | x
  · simp
  · rcases b.evalWith arith env with _ | y
    · simp
    · simpa using eq_comm

/-- The conjuncts of a formula are true exactly if the formula is. -/
theorem trueUnder_conjuncts :
    (∀ c ∈ t.conjuncts, TrueUnder arith env c) ↔ TrueUnder arith env t :=
  forall_conjuncts (by simp) trueUnder_and

/-- A formula has no other value than `true` if its conjuncts have none. -/
theorem eq_true_of_conjuncts
    (h : ∀ c ∈ t.conjuncts, ∀ x, c.evalWith arith env = some x → x = .bool true) {x : Value}
    (hx : t.evalWith arith env = some x) : x = .bool true := by
  induction t using structural generalizing x with
  | bool b =>
    cases b with
    | true => exact (Option.some.inj hx).symm
    | false => exact h _ (by simp [conjuncts]) x hx
  | int | var | app => exact h _ (by simp [conjuncts]) x hx
  | op o args ih =>
    by_cases ho : o = .and
    · subst ho
      rw [conjuncts, conjunctsList_eq, List.forall_mem_flatMap] at h
      rw [evalWith_op, Op.value, allTrue_eq_verdict] at hx
      obtain ⟨a, ha, rfl⟩ := Option.map_eq_some_iff.mp hx
      congr 1
      apply eq_not_of_verdict _ ha
      rw [List.forall_mem_map]
      intro t ht y hy
      exact ih t ht (h t ht) hy
    · exact h _ (by simp [conjuncts_op ho]) x hx

/-- A flattened conjunction is true exactly if all formulas of the list are. -/
theorem trueUnder_conjoin : TrueUnder arith env (conjoin ts) ↔ ∀ t ∈ ts, TrueUnder arith env t :=
  conjoin_iff (by simp) trueUnder_and

end Assignments

theorem holds_and : Holds z ρ (.op .and ts) ↔ ∀ t ∈ ts, Holds z ρ t := trueUnder_and

theorem holds_conjuncts : (∀ c ∈ t.conjuncts, Holds z ρ c) ↔ Holds z ρ t := trueUnder_conjuncts

theorem holds_conjoin : Holds z ρ (conjoin ts) ↔ ∀ t ∈ ts, Holds z ρ t := trueUnder_conjoin

/-- A disjunction of formulas is true exactly if one of them is. -/
theorem holds_or (h : ∀ t ∈ ts, t.hasSort .bool = true) :
    Holds z ρ (.op .or ts) ↔ ∃ t ∈ ts, Holds z ρ t := by
  rw [Holds, meaning_op, Op.value, Option.map_eq_some_iff]
  simp only [Value.bool.injEq, exists_eq_right]
  induction ts with
  | nil => simp [anyTrue]
  | cons t ts ih =>
    have ih := ih fun u hu => h u (List.mem_cons_of_mem t hu)
    rw [List.exists_mem_cons_iff, ← ih, List.map_cons]
    by_cases hh : Holds z ρ t
    · have hx : t.meaning z ρ = some (.bool true) := hh
      simp [anyTrue, hx, hh, Value.toBool?]
    · have hx := meaning_of_not_holds (h t List.mem_cons_self) hh
      simp [anyTrue, hx, hh, Value.toBool?]

theorem holds_implication (ha : a.hasSort .bool = true) :
    Holds z ρ (implication a b) ↔ (Holds z ρ a → Holds z ρ b) := by
  by_cases hh : Holds z ρ a
  · have hx : a.meaning z ρ = some (.bool true) := hh
    simp [Holds, implication, meaning_op, Op.value, hx, Value.toBool?]
  · have hx := meaning_of_not_holds ha hh
    simp [Holds, implication, meaning_op, Op.value, hx, Value.toBool?]

theorem holds_equation :
    Holds z ρ (equation a b) ↔ ∃ x, a.meaning z ρ = some x ∧ b.meaning z ρ = some x :=
  trueUnder_equation

theorem holds_equation_var {v : Var} :
    Holds z ρ (equation (.var v) t) ↔ t.meaning z ρ = some (ρ.value v) := by
  simp [holds_equation]

theorem holds_equation_toTerm {v : Var} {x : Value} :
    Holds z ρ (equation (.var v) x.toTerm) ↔ ρ.value v = x := by
  simp [holds_equation_var, eq_comm]

/-- The negation of a formula is the formula under a negation sign, or what is under its own. -/
theorem negate_cases (t : Term) : t = .op .not [t.negate] ∨ t.negate = .op .not [t] := by
  unfold negate
  split
  · exact .inl rfl
  · exact .inr rfl

/-- The negation of a formula is true where the formula is false, whatever the formula is. -/
theorem trueUnder_negate {arith : Op → List Int → Option Int} {env : Var → Option Value} :
    TrueUnder arith env t.negate ↔ t.evalWith arith env = some (.bool false) := by
  rcases negate_cases t with ht | ht
  · conv_rhs => rw [ht]
    exact (evalWith_not (b := false)).symm
  · rw [ht]
    exact evalWith_not

theorem holds_negate (h : t.hasSort .bool = true) : Holds z ρ t.negate ↔ ¬ Holds z ρ t := by
  rcases negate_cases t with ht | ht
  · rw [ht] at h
    obtain ⟨-, a, ha, hs⟩ := hasSort_not.mp h
    obtain rfl : t.negate = a := List.singleton_inj.mp ha
    conv_rhs => rw [ht, holds_not hs, not_not]
  · rw [ht, holds_not h]

theorem hasSort_equation {s : BaseSort} (ha : a.hasSort s = true) (hb : b.hasSort s = true) :
    (equation a b).hasSort .bool = true :=
  (hasSort_equality (.inl rfl)).mpr ⟨rfl, a, b, s, rfl, ha, hb⟩

theorem hasSort_implication (ha : a.hasSort .bool = true) (hb : b.hasSort .bool = true) :
    (implication a b).hasSort .bool = true :=
  (hasSort_connective (.inl rfl)).mpr ⟨rfl, a, b, rfl, ha, hb⟩

theorem hasSort_negate (h : t.hasSort .bool = true) : t.negate.hasSort .bool = true := by
  rcases negate_cases t with ht | ht
  · rw [ht] at h
    obtain ⟨-, a, ha, hs⟩ := hasSort_not.mp h
    rwa [← List.singleton_inj.mp ha] at hs
  · exact ht ▸ hasSort_not.mpr ⟨rfl, t, rfl, h⟩

theorem hasSort_of_mem_conjuncts (h : t.hasSort .bool = true) {c : Term} (hc : c ∈ t.conjuncts) :
    c.hasSort .bool = true := by
  induction t using structural with
  | bool b => cases b <;> simp_all [conjuncts]
  | int n => cases h
  | var v => simp_all [conjuncts]
  | app name r args ih => cases h
  | op o args ih =>
    by_cases ho : o = .and
    · subst ho
      rw [conjuncts, conjunctsList_eq] at hc
      obtain ⟨u, hu, hcu⟩ := List.mem_flatMap.mp hc
      exact ih u hu ((hasSort_and.mp h).2 u hu) hcu
    · rw [conjuncts_op ho, List.mem_singleton] at hc
      rwa [hc]

theorem hasSort_conjoin (h : ∀ t ∈ ts, t.hasSort .bool = true) :
    (conjoin ts).hasSort .bool = true := by
  have hflat : ∀ c ∈ conjunctsList ts, c.hasSort .bool = true := by
    intro c hc
    rw [conjunctsList_eq] at hc
    obtain ⟨t, ht, hct⟩ := List.mem_flatMap.mp hc
    exact hasSort_of_mem_conjuncts (h t ht) hct
  unfold conjoin
  split
  · exact hasSort_bool.mpr rfl
  · next t ht => exact hflat t (by simp [ht])
  · exact hasSort_and.mpr ⟨rfl, hflat⟩

@[simp] theorem occurrences_equation :
    (equation a b).occurrences = a.occurrences ++ b.occurrences := by
  simp [equation]

@[simp] theorem occurrences_implication :
    (implication a b).occurrences = a.occurrences ++ b.occurrences := by
  simp [implication]

@[simp] theorem occurrences_negate : t.negate.occurrences = t.occurrences := by
  rcases negate_cases t with ht | ht
  · conv_rhs => rw [ht]
    simp
  · simp [ht]

/-- A conjunct is its only conjunct. -/
theorem conjuncts_of_mem_conjuncts {c : Term} (h : c ∈ t.conjuncts) : c.conjuncts = [c] := by
  induction t using structural with
  | bool b => cases b <;> simp_all [conjuncts]
  | int n => simp_all [conjuncts]
  | var v => simp_all [conjuncts]
  | app name r args ih => simp_all [conjuncts]
  | op o args ih =>
    by_cases ho : o = .and
    · subst ho
      rw [conjuncts, conjunctsList_eq] at h
      obtain ⟨u, hu, hc⟩ := List.mem_flatMap.mp h
      exact ih u hu hc
    · rw [conjuncts_op ho, List.mem_singleton] at h
      rw [h, conjuncts_op ho]

/-- Flat lists of conjuncts are not changed by flattening. -/
theorem conjunctsList_conjunctsList (ts : List Term) :
    conjunctsList (conjunctsList ts) = conjunctsList ts := by
  have hsingle : ∀ c ∈ conjunctsList ts, c.conjuncts = [c] := fun c hc => by
    rw [conjunctsList_eq] at hc
    obtain ⟨t, -, hct⟩ := List.mem_flatMap.mp hc
    exact conjuncts_of_mem_conjuncts hct
  rw [conjunctsList_eq (conjunctsList ts), List.flatMap_congr hsingle, List.flatMap_singleton']

theorem conjuncts_conjoin (ts : List Term) : (conjoin ts).conjuncts = conjunctsList ts := by
  have hflat := conjunctsList_conjunctsList ts
  unfold conjoin
  split
  · next h => rw [h]; rfl
  · next t h =>
    rw [h]
    simpa [h, conjunctsList] using hflat
  · rw [conjuncts, hflat]

/-- The variables of a formula are those of its conjuncts. -/
theorem occurrences_conjuncts (t : Term) :
    t.conjuncts.flatMap occurrences = t.occurrences := by
  induction t using structural with
  | bool b => cases b <;> rfl
  | int n => rfl
  | var v => rfl
  | app name r args ih => simp [conjuncts]
  | op o args ih =>
    by_cases ho : o = .and
    · subst ho
      rw [conjuncts, conjunctsList_eq, List.flatMap_assoc, occurrences_op, List.flatMap_congr ih]
    · simp [conjuncts_op ho]

theorem mem_occurrences_of_conjunct {c : Term} (hc : c ∈ t.conjuncts) {v : Var}
    (hv : v ∈ c.occurrences) : v ∈ t.occurrences := by
  rw [← occurrences_conjuncts]
  exact List.mem_flatMap.mpr ⟨c, hc, hv⟩

theorem occurrences_conjunctsList (ts : List Term) :
    (conjunctsList ts).flatMap occurrences = ts.flatMap occurrences := by
  rw [conjunctsList_eq, List.flatMap_assoc, List.flatMap_congr fun t _ => occurrences_conjuncts t]

/-- A flattened conjunction has the variables of the formulas of the list, in the same order. -/
theorem occurrences_conjoin (ts : List Term) :
    (conjoin ts).occurrences = ts.flatMap occurrences := by
  rw [← occurrences_conjunctsList]
  unfold conjoin
  split
  · next h => simp [h]
  · next t h => simp [h]
  · exact occurrences_op _ _

theorem mem_occurrences_conjoin {v : Var} (hv : v ∈ (conjoin ts).occurrences) :
    ∃ t ∈ ts, v ∈ t.occurrences := by
  rwa [occurrences_conjoin, List.mem_flatMap] at hv

section Disjunction

theorem hasSort_of_mem_disjuncts (h : t.hasSort .bool = true) {c : Term} (hc : c ∈ t.disjuncts) :
    c.hasSort .bool = true := by
  rcases mem_disjuncts_or hc with rfl | ⟨args, rfl, ha⟩
  · exact h
  · exact (hasSort_or.mp h).2 c ha

/-- Some disjunct of a formula is true exactly if the formula is. -/
theorem holds_disjuncts (h : t.hasSort .bool = true) :
    (∃ c ∈ t.disjuncts, Holds z ρ c) ↔ Holds z ρ t := by
  unfold disjuncts
  split
  · simp
  · next args => rw [holds_or (hasSort_or.mp h).2]
  · simp

/-- A flattened disjunction is true exactly if one of the formulas of the list is. -/
theorem holds_disjoin (h : ∀ t ∈ ts, t.hasSort .bool = true) :
    Holds z ρ (disjoin ts) ↔ ∃ t ∈ ts, Holds z ρ t := by
  have hsort : ∀ c ∈ ts.flatMap disjuncts, c.hasSort .bool = true := fun c hc => by
    obtain ⟨t, ht, hct⟩ := List.mem_flatMap.mp hc
    exact hasSort_of_mem_disjuncts (h t ht) hct
  have hflat : (∃ c ∈ ts.flatMap disjuncts, Holds z ρ c) ↔ ∃ t ∈ ts, Holds z ρ t := by
    rw [List.exists_mem_flatMap]
    exact exists_congr fun t => and_congr_right fun ht => holds_disjuncts (h t ht)
  rw [← hflat, disjoin]
  split
  · next h => simp [h]
  · next t h => simp [h]
  · rw [holds_or hsort]

theorem hasSort_disjoin (h : ∀ t ∈ ts, t.hasSort .bool = true) :
    (disjoin ts).hasSort .bool = true := by
  have hflat : ∀ c ∈ ts.flatMap disjuncts, c.hasSort .bool = true := fun c hc => by
    obtain ⟨t, ht, hct⟩ := List.mem_flatMap.mp hc
    exact hasSort_of_mem_disjuncts (h t ht) hct
  unfold disjoin
  split
  · exact hasSort_bool.mpr rfl
  · next t ht => exact hflat t (by simp [ht])
  · exact hasSort_or.mpr ⟨rfl, hflat⟩

end Disjunction

end HornSaturation.Term
