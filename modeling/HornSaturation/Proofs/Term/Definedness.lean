import HornSaturation.Proofs.Term.Folding

/-!
# What folding may leave undefined

Folding moves the constants of a sum behind its other arguments, and a sum runs from left to right,
so a folded sum has other partial sums than the sum it comes from. One of them may leave the 64-bit
range although none did before. This is the only way in which folding loses a value. Where a sum
counts as defined as soon as its total fits, the folded term has the value that the term has; and
where no order of the summands leaves the range, it has this value in the 64-bit arithmetic itself.
-/

namespace HornSaturation

/-- The negative part of an integer. -/
def negativePart (n : Int) : Int := if n < 0 then n else 0

/-- The sum of the negative summands. -/
def loss (ns : List Int) : Int := total (ns.map negativePart)

@[simp] theorem loss_nil : loss [] = 0 := rfl

@[simp] theorem loss_cons (n : Int) (ns : List Int) : loss (n :: ns) = negativePart n + loss ns := rfl

private theorem parts (n : Int) :
    positivePart n + negativePart n = n ∧ 0 ≤ positivePart n ∧ negativePart n ≤ 0 := by
  simp only [positivePart, negativePart]
  omega

theorem gain_add_loss (ns : List Int) : gain ns + loss ns = total ns := by
  induction ns with
  | nil => rfl
  | cons n ns ih =>
    have hparts := parts n
    rw [gain_cons, loss_cons, total_cons]
    omega

theorem gain_nonneg (ns : List Int) : 0 ≤ gain ns := by
  induction ns with
  | nil => exact Int.le_refl 0
  | cons n ns ih => exact Int.add_nonneg (parts n).2.1 ih

theorem loss_nonpos (ns : List Int) : loss ns ≤ 0 := by
  induction ns with
  | nil => exact Int.le_refl 0
  | cons n ns ih => exact Int.add_nonpos (parts n).2.2 ih

/-- The order of the summands does not matter for their total. -/
theorem total_perm {ms ns : List Int} (h : ms.Perm ns) : total ms = total ns := by
  induction h with
  | nil => rfl
  | cons n _ ih => rw [total_cons, total_cons, ih]
  | swap m n ns =>
    simp only [total_cons]
    omega
  | trans _ _ ih ih' => exact ih.trans ih'

private theorem total_filter {f : Int → Int} {p : Int → Bool}
    (h : ∀ n, f n = if p n then n else 0) (ns : List Int) :
    total (ns.filter p) = total (ns.map f) := by
  induction ns with
  | nil => rfl
  | cons n ns ih =>
    rw [List.filter_cons, List.map_cons, total_cons, h]
    split
    · rw [total_cons, ih]
    · rw [ih, Int.zero_add]

theorem total_filter_pos (ns : List Int) : total (ns.filter (0 < ·)) = gain ns :=
  total_filter (fun n => by simp [positivePart]) ns

theorem total_filter_neg (ns : List Int) : total (ns.filter (· < 0)) = loss ns :=
  total_filter (fun n => by simp [negativePart]) ns

/-- The 64-bit arithmetic where only the total of a sum has to stay in the range. -/
def totalArithmetic : Op → List Int → Option Int
  | .add, ns => narrow (total ns)
  | o, ns => checkedArithmetic o ns

/-- The 64-bit arithmetic where no choice of summands may leave the range. -/
def steadyArithmetic : Op → List Int → Option Int
  | .add, ns => if int64Min ≤ loss ns ∧ gain ns ≤ int64Max then some (total ns) else none
  | o, ns => checkedArithmetic o ns

theorem narrow_eq_some {m n : Int} : narrow m = some n ↔ m = n ∧ int64Min ≤ m ∧ m ≤ int64Max := by
  unfold narrow
  split
  · next h => simp [h]
  · next h => exact ⟨nofun, fun ⟨_, hm⟩ => absurd hm h⟩

section Sums

variable {ns ms : List Int} {n : Int}

/-- The total of a checked sum is in the range. -/
theorem narrow_total_of_checked (h : checkedArithmetic .add ns = some n) :
    narrow (total ns) = some n := by
  have hfrom (ns : List Int) (a : Int) (ha : narrow a = some a)
      (h : ns.foldlM (fun acc m => narrow (acc + m)) a = some n) : narrow (a + total ns) = some n := by
    induction ns generalizing a with
    | nil => simpa [ha] using h
    | cons m ns ih =>
      obtain ⟨b, hb, h⟩ := Option.bind_eq_some_iff.mp h
      obtain rfl := narrow_eq hb
      rw [total_cons, ← Int.add_assoc]
      exact ih _ hb h
  simpa using hfrom ns 0 (by decide) h

/-- The summands that a checked sum begins with have a sum in the range. -/
theorem total_of_checked_append (h : checkedArithmetic .add (ms ++ ns) = some n) :
    int64Min ≤ total ms ∧ total ms ≤ int64Max := by
  have hfold : (ms ++ ns).foldlM (fun acc m => narrow (acc + m)) 0 = some n := h
  rw [List.foldlM_append] at hfold
  obtain ⟨a, ha, -⟩ := Option.bind_eq_some_iff.mp hfold
  exact (narrow_eq_some.mp (narrow_total_of_checked ha)).2

/-- A sum none of whose choices of summands leaves the range is defined. -/
theorem checked_of_envelope (hloss : int64Min ≤ loss ns) (hgain : gain ns ≤ int64Max) :
    checkedArithmetic .add ns = some (total ns) := by
  have hfrom (ns : List Int) (a : Int) (hloss : int64Min ≤ a + loss ns)
      (hgain : a + gain ns ≤ int64Max) :
      ns.foldlM (fun acc m => narrow (acc + m)) a = some (a + total ns) := by
    induction ns generalizing a with
    | nil => simp
    | cons m ns ih =>
      have hparts := parts m
      have hneg := loss_nonpos ns
      have hpos := gain_nonneg ns
      rw [loss_cons] at hloss
      rw [gain_cons] at hgain
      have hstep : narrow (a + m) = some (a + m) := narrow_eq_some.mpr ⟨rfl, by omega, by omega⟩
      rw [List.foldlM_cons, hstep, Option.bind_eq_bind, Option.bind_some,
        ih (a + m) (by omega) (by omega), total_cons, Int.add_assoc]
  rw [← Int.zero_add (total ns)]
  exact hfrom ns 0 (by simpa using hloss) (by simpa using hgain)

theorem steadyArithmetic_add_eq_some : steadyArithmetic .add ns = some n ↔
    total ns = n ∧ int64Min ≤ loss ns ∧ gain ns ≤ int64Max := by
  simp only [steadyArithmetic]
  split <;> simp_all

end Sums

theorem kept_totalArithmetic (o : Op) (ns : List Int) :
    Kept (checkedArithmetic o ns) (totalArithmetic o ns) := by
  unfold totalArithmetic
  split
  · exact fun n => narrow_total_of_checked
  · exact .refl _

theorem kept_steadyArithmetic (o : Op) (ns : List Int) :
    Kept (steadyArithmetic o ns) (checkedArithmetic o ns) := by
  unfold steadyArithmetic
  split
  · split
    · next h =>
      rw [checked_of_envelope h.1 h.2]
      exact .refl _
    · exact .none _
  · exact .refl _

/-- A sum is steady exactly if it is defined in whatever order its summands are added up. -/
theorem steadyArithmetic_add_iff {ns : List Int} {n : Int} :
    steadyArithmetic .add ns = some n ↔
      ∀ ms, ms.Perm ns → checkedArithmetic .add ms = some n := by
  constructor
  · intro h ms hms
    obtain ⟨rfl, hloss, hgain⟩ := steadyArithmetic_add_eq_some.mp h
    rw [← total_perm hms]
    refine checked_of_envelope ?_ ?_
    · rwa [loss, total_perm (hms.map _)]
    · rwa [gain, total_perm (hms.map _)]
  · intro h
    have hsum : total ns = n := narrow_eq (narrow_total_of_checked (h ns (.refl ns)))
    -- The greatest partial sum is that of the positive summands, the least that of the negative.
    have hpos := total_of_checked_append (h _ (List.filter_append_perm (0 < ·) ns))
    have hneg := total_of_checked_append (h _ (List.filter_append_perm (· < 0) ns))
    rw [total_filter_pos] at hpos
    rw [total_filter_neg] at hneg
    exact steadyArithmetic_add_eq_some.mpr ⟨hsum, hneg.1, hpos.2⟩

theorem foldable_totalArithmetic : FoldableArithmetic totalArithmetic where
  exact := by
    refine ⟨arithmetic some, exactArithmetic_integers, fun o ns => ?_⟩
    unfold totalArithmetic
    split
    · intro n hn
      rw [← narrow_eq hn]
      exact exactArithmetic_integers.add ns
    · exact kept_checkedArithmetic _ _
  gather hsum _ := by
    rw [totalArithmetic, totalArithmetic, hsum]
    exact .refl _

theorem foldable_steadyArithmetic : FoldableArithmetic steadyArithmetic where
  exact := ⟨arithmetic some, exactArithmetic_integers, fun o ns =>
    (kept_steadyArithmetic o ns).trans (kept_checkedArithmetic o ns)⟩
  gather {ns ms} hsum hgain n hn := by
    obtain ⟨rfl, hloss, hle⟩ := steadyArithmetic_add_eq_some.mp hn
    have hns := gain_add_loss ns
    have hms := gain_add_loss ms
    exact steadyArithmetic_add_eq_some.mpr ⟨hsum, by omega, by omega⟩

namespace Term

/-- The value of a term in 64-bit arithmetic, where of a sum only the total has to fit. -/
def totalEval (env : Assignment) (t : Term) : Option Value :=
  t.evalWith totalArithmetic fun v => env v.name

/-- The value of a term in 64-bit arithmetic, if no order of the summands of a sum overflows. -/
def steadyEval (env : Assignment) (t : Term) : Option Value :=
  t.evalWith steadyArithmetic fun v => env v.name

theorem kept_totalEval (env : Assignment) (t : Term) : Kept (t.eval env) (t.totalEval env) :=
  evalWith_kept kept_totalArithmetic fun _ _ => .refl _

theorem kept_steadyEval (env : Assignment) (t : Term) : Kept (t.steadyEval env) (t.eval env) :=
  evalWith_kept kept_steadyArithmetic fun _ _ => .refl _

/-- Folding loses a value only where a partial sum overflows: if of every sum only the total has to
fit, the folded term has the value that the term has in 64-bit arithmetic; and if the sums of the
term overflow in no order, the folded term has it in 64-bit arithmetic, too. -/
theorem eval_foldConstants (env : Assignment) (t : Term) :
    (∀ x, t.eval env = some x → t.foldConstants.totalEval env = some x) ∧
      ∀ x, t.steadyEval env = some x → t.eval env = some x ∧ t.foldConstants.eval env = some x := by
  refine ⟨fun x hx => ?_, fun x hx => ⟨kept_steadyEval env t x hx, ?_⟩⟩
  · exact kept_foldToDepth foldable_totalArithmetic t.size t x (kept_totalEval env t x hx)
  · have hfolded : t.foldConstants.steadyEval env = some x :=
      kept_foldToDepth foldable_steadyArithmetic t.size t x hx
    exact kept_steadyEval env t.foldConstants x hfolded

/-- Near the ends of the 64-bit range, on both sides of where a partial sum overflows. -/
theorem eval_foldConstants_nearLimits :
    let x : Term := .var ⟨"x", .int⟩
    let t : Term := .op .add [.int 3, x, x]
    let low : Assignment := fun _ => some (.int (-4611686018427387905))
    let high : Assignment := fun _ => some (.int 4611686018427387902)
    t.foldConstants ≠ t ∧ t.eval low = some (.int (-9223372036854775807)) ∧
      t.foldConstants.totalEval low = some (.int (-9223372036854775807)) ∧
      t.steadyEval high = some (.int int64Max) ∧
      t.foldConstants.eval high = some (.int int64Max) := by
  intro x t low high
  have hlow : t.eval low = some (.int (-9223372036854775807)) := by decide +kernel
  have hhigh : t.steadyEval high = some (.int int64Max) := by decide +kernel
  exact ⟨by decide +kernel, hlow, (eval_foldConstants low t).1 _ hlow, hhigh,
    ((eval_foldConstants high t).2 _ hhigh).2⟩

/-- A sum that begins with a constant has a value that the folded sum loses: two negative summands
overflow before the constant, now the last summand, makes up for it. -/
theorem eval_lost_by_folding :
    let x : Term := .var ⟨"x", .int⟩
    let t : Term := .op .add [.int 3, x, x]
    let env : Assignment := fun _ => some (.int (-4611686018427387905))
    t.foldConstants = .op .add [x, x, .int 3] ∧
      t.eval env = some (.int (-9223372036854775807)) ∧ t.foldConstants.eval env = none := by
  decide +kernel

end Term

end HornSaturation
