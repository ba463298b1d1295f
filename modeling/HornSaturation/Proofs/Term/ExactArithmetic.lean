import HornSaturation.Proofs.Term.Truth
import Mathlib.Data.List.Fold

/-!
# Exact arithmetic

Arithmetic is exact if it has the values of the 64-bit arithmetic wherever this is defined and adds,
multiplies and subtracts as the integers do. The arithmetic of the unbounded integers is exact,
whether division by zero is undefined or read in some way. A value that a term has in the 64-bit
arithmetic is its value in every exact one. Folding asks for less: an arithmetic may leave more
undefined, as long as a sum does not depend on how its summands are gathered.
-/

namespace HornSaturation

/-- Arithmetic that extends the 64-bit arithmetic to the unbounded integers. -/
structure ExactArithmetic (arith : Op → List Int → Option Int) : Prop where
  checked : ∀ o ns, Kept (checkedArithmetic o ns) (arith o ns)
  add : ∀ ns, arith .add ns = some (ns.foldr (· + ·) 0)
  mul : ∀ a b, arith .mul [a, b] = some (a * b)
  sub_zero : ∀ a, arith .sub [a, 0] = some a

/-- The sum of integers. -/
def total (ns : List Int) : Int := ns.foldr (· + ·) 0

/-- The positive part of an integer. -/
def positivePart (n : Int) : Int := if 0 < n then n else 0

/-- The sum of the positive summands. -/
def gain (ns : List Int) : Int := total (ns.map positivePart)

section Totals

variable (n : Int) (ms ns : List Int)

@[simp] theorem total_nil : total [] = 0 := rfl

@[simp] theorem total_cons : total (n :: ns) = n + total ns := rfl

@[simp] theorem total_append : total (ms ++ ns) = total ms + total ns := by
  induction ms with
  | nil => simp
  | cons m ms ih => rw [List.cons_append, total_cons, total_cons, ih, Int.add_assoc]

theorem positivePart_add_le (m n : Int) :
    positivePart (m + n) ≤ positivePart m + positivePart n := by
  simp only [positivePart]
  omega

@[simp] theorem gain_nil : gain [] = 0 := rfl

@[simp] theorem gain_cons : gain (n :: ns) = positivePart n + gain ns := rfl

@[simp] theorem gain_append : gain (ms ++ ns) = gain ms + gain ns := by
  simp [gain]

end Totals

/-- Arithmetic with which folding keeps values: what it defines has its exact value, and a sum of
the same total stays defined where the positive summands do not come to more. -/
structure FoldableArithmetic (arith : Op → List Int → Option Int) : Prop where
  exact : ∃ arith', ExactArithmetic arith' ∧ ∀ o ns, Kept (arith o ns) (arith' o ns)
  gather : ∀ {ns ms : List Int}, total ms = total ns → gain ms ≤ gain ns →
    Kept (arith .add ns) (arith .add ms)

section Foldable

variable {arith : Op → List Int → Option Int}

theorem ExactArithmetic.foldable (h : ExactArithmetic arith) : FoldableArithmetic arith where
  exact := ⟨arith, h, fun _ _ => .refl _⟩
  gather {ns ms} hsum _ := by
    have hadd (ns : List Int) : arith .add ns = some (total ns) := h.add ns
    rw [hadd, hadd, hsum]
    exact .refl _

namespace FoldableArithmetic

variable (h : FoldableArithmetic arith) {ns : List Int} {a b m n : Int}

include h

theorem checked {o : Op} (hm : checkedArithmetic o ns = some m) : Kept (arith o ns) (some m) := by
  obtain ⟨arith', hexact, hkept⟩ := h.exact
  intro n hn
  rw [← hkept o ns n hn, hexact.checked o ns m hm]

theorem add_eq (hn : arith .add ns = some n) : n = total ns := by
  obtain ⟨arith', hexact, hkept⟩ := h.exact
  exact Option.some.inj ((hkept _ _ n hn).symm.trans (hexact.add ns))

theorem mul_eq (hn : arith .mul [a, b] = some n) : n = a * b := by
  obtain ⟨arith', hexact, hkept⟩ := h.exact
  exact Option.some.inj ((hkept _ _ n hn).symm.trans (hexact.mul a b))

theorem sub_zero_eq (hn : arith .sub [a, 0] = some n) : n = a := by
  obtain ⟨arith', hexact, hkept⟩ := h.exact
  exact Option.some.inj ((hkept _ _ n hn).symm.trans (hexact.sub_zero a))

end FoldableArithmetic

end Foldable

theorem narrow_eq {m n : Int} (h : narrow m = some n) : m = n := by
  unfold narrow at h
  split at h
  · exact Option.some.inj h
  · cases h

private theorem kept_foldlM_narrow (f : Int → Int → Int) (ns : List Int) (a : Int) :
    Kept (ns.foldlM (fun acc m => narrow (f acc m)) a)
      (ns.foldlM (fun acc m => some (f acc m)) a) := by
  induction ns generalizing a with
  | nil => exact .refl _
  | cons m ns ih =>
    intro n hn
    obtain ⟨b, hb, hn⟩ := Option.bind_eq_some_iff.mp hn
    rw [← narrow_eq hb] at hn
    exact ih _ _ hn

/-- What is defined in the 64-bit range has the same value over the unbounded integers. -/
theorem kept_checkedArithmetic (o : Op) (ns : List Int) :
    Kept (checkedArithmetic o ns) (arithmetic some o ns) := by
  intro n h
  unfold checkedArithmetic arithmetic at h
  split at h
  · exact congrArg some (narrow_eq h)
  · exact kept_foldlM_narrow (· + ·) _ _ n h
  · exact kept_foldlM_narrow (· * ·) _ _ n h
  · exact congrArg some (narrow_eq h)
  · next a ms hne =>
    cases ms with
    | nil => exact absurd rfl hne
    | cons b ms => exact kept_foldlM_narrow (· - ·) _ _ n h
  · split at h
    · cases h
    · next hb => simp [arithmetic, hb, narrow_eq h]
  · split at h
    · cases h
    · next hb =>
      obtain ⟨-, -, hn⟩ := Option.map_eq_some_iff.mp h
      simp [arithmetic, hb, hn]
  · cases h

/-- The arithmetic of the integers is exact. -/
theorem exactArithmetic_integers : ExactArithmetic (arithmetic some) where
  checked := kept_checkedArithmetic
  add ns := by
    rw [← List.foldl_eq_foldr]
    exact (⟨fun _ => 0, fun _ => 0⟩ : ZeroDivision).arithmetic_add ns
  mul a b := by simp [arithmetic]
  sub_zero a := by simp [arithmetic]

namespace Term

/-- The value of a term over the unbounded integers, where division by zero has no value. -/
def exactEval (env : Assignment) (t : Term) : Option Value :=
  t.evalWith (arithmetic some) fun v => env v.name

/-- A value in the 64-bit range is the value over the unbounded integers. -/
theorem kept_exactEval (env : Assignment) (t : Term) : Kept (t.eval env) (t.exactEval env) :=
  evalWith_kept kept_checkedArithmetic fun _ _ => .refl _

end Term

namespace ZeroDivision

variable (z : ZeroDivision)

/-- A reading of division by zero defines more and changes nothing else. -/
theorem kept_arithmetic (o : Op) (ns : List Int) :
    Kept (HornSaturation.arithmetic some o ns) (z.arithmetic o ns) := by
  unfold ZeroDivision.arithmetic
  split
  · next a b =>
    change Kept (if b = 0 then none else some (a / b)) _
    split
    · exact .none _
    · exact .refl _
  · next a b =>
    change Kept (if b = 0 then none else some (a % b)) _
    split
    · exact .none _
    · exact .refl _
  · exact .refl _

/-- The arithmetic of the integers stays exact when division by zero is read in some way. -/
theorem exactArithmetic : ExactArithmetic z.arithmetic where
  checked o ns := (exactArithmetic_integers.checked o ns).trans (z.kept_arithmetic o ns)
  add ns := z.kept_arithmetic _ _ _ (exactArithmetic_integers.add ns)
  mul a b := z.kept_arithmetic _ _ _ (exactArithmetic_integers.mul a b)
  sub_zero a := z.kept_arithmetic _ _ _ (exactArithmetic_integers.sub_zero a)

end ZeroDivision

end HornSaturation
