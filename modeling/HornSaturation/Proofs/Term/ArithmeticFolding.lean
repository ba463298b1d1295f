import HornSaturation.Proofs.Term.ConnectiveFolding
import HornSaturation.Proofs.Term.ExactArithmetic

/-!
# Folding equations, comparisons and arithmetic

Where an equation, a comparison or an arithmetic operation has a value in an exact arithmetic, its
folded form has the same value. What the 64-bit range does not hold stays unfolded, so a constant
only stands for an operation whose value it is.
-/

namespace HornSaturation.Term

variable {arith : Op → List Int → Option Int} {env : Var → Option Value} {args : List Term}

/-- Equality that is plain is equality of values. -/
private theorem plainEquality?_spec {a b : Term} {e : Bool} (h : plainEquality? a b = some e)
    {x y : Value} (hx : a.evalWith arith env = some x) (hy : b.evalWith arith env = some y) :
    (x == y) = e := by
  unfold plainEquality? at h
  split at h
  · obtain rfl := Option.some.inj hx
    obtain rfl := Option.some.inj hy
    rw [← Option.some.inj h, Bool.eq_iff_iff, beq_iff_eq, beq_iff_eq, Value.int.injEq]
  · obtain rfl := Option.some.inj hx
    obtain rfl := Option.some.inj hy
    rw [← Option.some.inj h, Bool.eq_iff_iff, beq_iff_eq, beq_iff_eq, Value.bool.injEq]
  · split at h
    · next hab =>
      subst hab
      obtain rfl := Option.some.inj (hx.symm.trans hy)
      simpa using h
    · cases h

/-- Folding an equation keeps its value. -/
theorem kept_foldEquality {o : Op} (ho : o = .eq ∨ o = .iff ∨ o = .ne) :
    Kept ((Term.op o args).evalWith arith env) ((foldEquality o args).evalWith arith env) := by
  unfold foldEquality
  split
  · next a b =>
    split
    · next e he =>
      intro v hv
      have hargs : ∃ x y, a.evalWith arith env = some x ∧ b.evalWith arith env = some y ∧
          v = .bool (if o = .ne then !(x == y) else x == y) := by
        rw [evalWith_op] at hv
        rcases ho with rfl | rfl | rfl <;>
          obtain ⟨x, hx, y, hy, hxy⟩ := by simpa [Op.value, Option.bind_eq_some_iff] using hv
        all_goals exact ⟨x, y, hx, hy, by simp [← hxy, bne]⟩
      obtain ⟨x, y, hx, hy, rfl⟩ := hargs
      rw [plainEquality?_spec he hx hy]
      rfl
    · exact .refl _
  · exact .refl _

/-- Folding a comparison keeps its value. -/
theorem kept_foldComparison {o : Op} (ho : o = .lt ∨ o = .le ∨ o = .gt ∨ o = .ge) :
    Kept ((Term.op o args).evalWith arith env) ((foldComparison o args).evalWith arith env) := by
  have hvalue (a b : Term) : (Term.op o [a, b]).evalWith arith env =
      Op.value.compared o [a.evalWith arith env, b.evalWith arith env] := by
    rw [evalWith_op]
    rcases ho with rfl | rfl | rfl | rfl <;> rfl
  unfold foldComparison
  split
  · rw [hvalue]
    exact .refl _
  · next a b _ =>
    split
    · next hab =>
      subst hab
      rw [hvalue]
      rcases a.evalWith arith env with _ | b | n
      · exact .none _
      · exact .none _
      · rcases ho with rfl | rfl | rfl | rfl <;>
          simp [Op.value.compared, Value.toInt?, Op.compareInts, Kept]
    · exact .refl _
  · exact .refl _

/-- An arithmetic operation is defined on arguments that all have integer values. -/
theorem evalWith_arithmetic {o : Op}
    (ho : o = .add ∨ o = .sub ∨ o = .mul ∨ o = .div ∨ o = .mod ∨ o = .neg) :
    (Term.op o args).evalWith arith env =
      (allInts (args.map (evalWith arith env))).bind fun ns => (arith o ns).map .int := by
  have hvalue : o.value arith (args.map (evalWith arith env)) =
      (allInts (args.map (evalWith arith env))).bind fun ns =>
        (arith o ns).bind fun n => some (.int n) := by
    rcases ho with rfl | rfl | rfl | rfl | rfl | rfl <;> rfl
  rw [evalWith_op, hvalue]
  simp only [Option.map_eq_bind]
  rfl

/-- The integer that a term denotes; a term without an integer value counts as zero. -/
def integer (arith : Op → List Int → Option Int) (env : Var → Option Value) (t : Term) : Int :=
  ((t.evalWith arith env).bind Value.toInt?).getD 0

@[simp] theorem integer_int (n : Int) : (Term.int n).integer arith env = n := rfl

theorem integer_eq {t : Term} {n : Int} (h : t.evalWith arith env = some (.int n)) :
    t.integer arith env = n := by
  rw [integer, h]
  rfl

/-- The terms of a list denote integers exactly if each of them denotes its own. -/
theorem allInts_eq_some {ns : List Int} :
    allInts (args.map (evalWith arith env)) = some ns ↔
      (∀ t ∈ args, t.evalWith arith env = some (.int (t.integer arith env))) ∧
        ns = args.map (integer arith env) := by
  induction args generalizing ns with
  | nil => simp [allInts, eq_comm]
  | cons t args ih =>
    rw [List.map_cons, List.map_cons, List.forall_mem_cons]
    constructor
    · intro h
      obtain ⟨x, hx, h⟩ := Option.bind_eq_some_iff.mp h
      obtain ⟨n, hn, h⟩ := Option.bind_eq_some_iff.mp h
      obtain ⟨ms, hms, h⟩ := Option.bind_eq_some_iff.mp h
      obtain ⟨hargs, rfl⟩ := ih.mp hms
      cases x with
      | bool b => cases hn
      | int m =>
        obtain rfl := Option.some.inj hn
        rw [← Option.some.inj h, integer_eq hx]
        exact ⟨⟨hx, hargs⟩, rfl⟩
    · rintro ⟨⟨ht, hargs⟩, rfl⟩
      rw [ht, allInts, ih.mpr ⟨hargs, rfl⟩]
      rfl

/-- The sum of the integers that terms denote and of a number to start with. -/
def sumFrom (arith : Op → List Int → Option Int) (env : Var → Option Value) (c : Int)
    (ts : List Term) : Int :=
  (ts.map (integer arith env)).foldr (· + ·) c

@[simp] theorem sumFrom_nil (c : Int) : sumFrom arith env c [] = c := rfl

@[simp] theorem sumFrom_cons (c : Int) (t : Term) :
    sumFrom arith env c (t :: args) = t.integer arith env + sumFrom arith env c args := rfl

theorem sumFrom_append (c : Int) (ts : List Term) :
    sumFrom arith env c (ts ++ args) = sumFrom arith env (sumFrom arith env c args) ts := by
  simp [sumFrom]

theorem sumFrom_add (c n : Int) :
    sumFrom arith env (c + n) args = n + sumFrom arith env c args := by
  induction args with
  | nil => exact Int.add_comm c n
  | cons t args ih =>
    rw [sumFrom_cons, sumFrom_cons, ih]
    omega

/-- Splitting constants off a sum keeps the sum. -/
private theorem sumFrom_splitSum (args : List Term) (c : Int) :
    sumFrom arith env (splitSum c args).1 (splitSum c args).2 = sumFrom arith env c args := by
  induction args generalizing c with
  | nil => rfl
  | cons t args ih =>
    rcases splitSum_cons c t args with ⟨n, rfl, hs⟩ | hs
    · rw [hs, ih, sumFrom_add, sumFrom_cons, integer_int]
    · rw [hs, sumFrom_cons, sumFrom_cons, ih]

private theorem sumFrom_gathered (args : List Term) :
    sumFrom arith env 0 (gathered args) = sumFrom arith env 0 args := by
  rw [← sumFrom_splitSum args 0]
  unfold gathered
  split
  · next hzero => rw [hzero]
  · rw [sumFrom_append, sumFrom_cons, sumFrom_nil, integer_int, Int.add_zero]

/-- Splitting constants off a sum adds nothing to what its positive summands come to. -/
private theorem gain_splitSum (args : List Term) (c : Int) :
    positivePart (splitSum c args).1 + gain ((splitSum c args).2.map (integer arith env)) ≤
      positivePart c + gain (args.map (integer arith env)) := by
  induction args generalizing c with
  | nil => exact Int.le_refl _
  | cons t args ih =>
    rcases splitSum_cons c t args with ⟨n, rfl, hs⟩ | hs
    · have ih := ih (c + n)
      have hle := positivePart_add_le c n
      rw [hs, List.map_cons, integer_int, gain_cons]
      omega
    · have ih := ih c
      rw [hs, List.map_cons, List.map_cons, gain_cons, gain_cons]
      dsimp only
      omega

private theorem gain_gathered (args : List Term) :
    gain ((gathered args).map (integer arith env)) ≤ gain (args.map (integer arith env)) := by
  have hsplit : positivePart (splitSum 0 args).1 +
      gain ((splitSum 0 args).2.map (integer arith env)) ≤
        positivePart 0 + gain (args.map (integer arith env)) := gain_splitSum args 0
  have hzero : positivePart 0 = 0 := rfl
  unfold gathered
  split
  · next hnone =>
    rw [hnone] at hsplit
    omega
  · rw [List.map_append, gain_append, List.map_singleton, integer_int, gain_cons, gain_nil]
    omega

private theorem eq_of_constants? {ns : List Int}
    (h : constants? args = some ns) : args = ns.map Term.int := by
  induction args generalizing ns with
  | nil => rw [← Option.some.inj h, List.map_nil]
  | cons t args ih =>
    unfold constants? at h
    split at h
    · cases ‹t :: args = []›
    · next n ts heq =>
      obtain ⟨rfl, rfl⟩ := List.cons.inj heq
      obtain ⟨ms, hms, rfl⟩ := Option.map_eq_some_iff.mp h
      rw [ih hms, List.map_cons]
    · cases h

variable (ha : FoldableArithmetic arith)

include ha

/-- A sum of terms that denote integers keeps its value as a folded sum writes it. -/
private theorem kept_joinSum
    (h : ∀ t ∈ args, t.evalWith arith env = some (.int (t.integer arith env))) :
    Kept ((arith .add (args.map (integer arith env))).map .int)
      ((joinSum args).evalWith arith env) := by
  intro v hv
  obtain ⟨n, hn, rfl⟩ := Option.map_eq_some_iff.mp hv
  have hsum := ha.add_eq hn
  unfold joinSum
  split
  · rw [hsum]
    rfl
  · next t =>
    rw [hsum, h t List.mem_cons_self]
    simp
  · rw [evalWith_arithmetic (.inl rfl), allInts_eq_some.mpr ⟨h, rfl⟩, Option.bind_some, hn]
    rfl

/-- Folding a sum keeps its value. -/
theorem kept_foldSum :
    Kept ((Term.op .add args).evalWith arith env) ((foldSum args).evalWith arith env) := by
  intro v hv
  rw [evalWith_arithmetic (.inl rfl)] at hv
  obtain ⟨ns, hns, hv⟩ := Option.bind_eq_some_iff.mp hv
  obtain ⟨hargs, rfl⟩ := allInts_eq_some.mp hns
  have hgathered : ∀ t ∈ gathered args,
      t.evalWith arith env = some (.int (t.integer arith env)) := fun t ht => by
    rcases mem_gathered ht with h | rfl
    · exact hargs t h
    · rfl
  have hsum : total ((gathered args).map (integer arith env)) =
      total (args.map (integer arith env)) := sumFrom_gathered args
  rw [foldSum_eq]
  exact kept_joinSum ha hgathered v ((ha.gather hsum (gain_gathered args)).map v hv)

/-- Folding a product keeps its value. -/
theorem kept_foldProduct :
    Kept ((Term.op .mul args).evalWith arith env) ((foldProduct args).evalWith arith env) := by
  unfold foldProduct
  split
  · next a b =>
    -- A defined product is the product of two integers, so zero and one act as they do there.
    have kept {t : Term} (ht : ∀ m n, a.evalWith arith env = some (.int m) →
        b.evalWith arith env = some (.int n) → t.evalWith arith env = some (.int (m * n))) :
        Kept ((Term.op .mul [a, b]).evalWith arith env) (t.evalWith arith env) := by
      intro v hv
      rw [evalWith_arithmetic (by simp)] at hv
      obtain ⟨ns, hns, hv⟩ := Option.bind_eq_some_iff.mp hv
      obtain ⟨hargs, rfl⟩ := allInts_eq_some.mp hns
      obtain ⟨n, hn, rfl⟩ := Option.map_eq_some_iff.mp hv
      rw [ht _ _ (hargs a (by simp)) (hargs b (by simp)), ha.mul_eq hn]
    split
    · next h0 =>
      refine kept fun m n hm hn => ?_
      rcases h0 with rfl | rfl
      · simp [← Value.int.inj (Option.some.inj hm)]
      · simp [← Value.int.inj (Option.some.inj hn)]
    · split
      · next h1 =>
        refine kept fun m n hm hn => ?_
        subst h1
        simp [hn, ← Value.int.inj (Option.some.inj hm)]
      · split
        · next h1 =>
          refine kept fun m n hm hn => ?_
          subst h1
          simp [hm, ← Value.int.inj (Option.some.inj hn)]
        · exact .refl _
  · exact .refl _

/-- Applying the identities of an arithmetic operator keeps the value. -/
private theorem kept_foldIdentities (o : Op) :
    Kept ((Term.op o args).evalWith arith env) ((foldIdentities o args).evalWith arith env) := by
  unfold foldIdentities
  split
  · exact kept_foldSum ha
  · exact kept_foldProduct ha
  · next a b =>
    split
    · next hb =>
      subst hb
      intro v hv
      rw [evalWith_arithmetic (.inr (.inl rfl))] at hv
      obtain ⟨ns, hns, hv⟩ := Option.bind_eq_some_iff.mp hv
      obtain ⟨hargs, rfl⟩ := allInts_eq_some.mp hns
      obtain ⟨n, hn, rfl⟩ := Option.map_eq_some_iff.mp hv
      rw [hargs a (by simp), ha.sub_zero_eq hn]
    · exact .refl _
  · exact .refl _

/-- Folding an arithmetic operation keeps its value. -/
theorem kept_foldArithmetic {o : Op}
    (ho : o = .add ∨ o = .sub ∨ o = .mul ∨ o = .div ∨ o = .mod ∨ o = .neg) :
    Kept ((Term.op o args).evalWith arith env) ((foldArithmetic o args).evalWith arith env) := by
  unfold foldArithmetic
  split
  · next n hn =>
    obtain ⟨ns, hns, hchecked⟩ := Option.bind_eq_some_iff.mp hn
    obtain rfl := eq_of_constants? hns
    have hints : allInts ((ns.map Term.int).map (evalWith arith env)) = some ns := by
      rw [List.map_map]
      exact allInts_ints ns
    rw [evalWith_arithmetic ho, hints, Option.bind_some]
    exact (ha.checked hchecked).map
  · exact kept_foldIdentities ha o

end HornSaturation.Term
