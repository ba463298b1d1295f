import HornSaturation.Proofs.Oracle.Neighbours
import Mathlib

/-!
# Widened windows

A window of 64-bit integers is widened on both sides as far as the range goes, and the widened
window is one that may be searched; there is none exactly if even one more integer on each side is
too much. The widening is defined over the integers. A machine computes it with integers of 64 and
128 bits, where the number of assignments is given up as soon as it does not fit and the ends of the
window are cut off at the ends of the range. That computation is written down here operation by
operation: none of its results overflows, its loop ends after at most 64 halvings, and it gives the
same window.
-/

namespace HornSaturation

/-- A number as a signed machine integer, if it has no more than the given number of bits. -/
def signed? (bits : Nat) (n : Int) : Option Int :=
  if -2 ^ (bits - 1) ≤ n ∧ n < 2 ^ (bits - 1) then some n else none

/-- A number as an unsigned machine integer, if it has no more than the given number of bits. -/
def unsigned? (bits : Nat) (n : Int) : Option Nat :=
  if 0 ≤ n ∧ n < 2 ^ bits then some n.toNat else none

/-- A number cut off at the ends of the signed 64-bit range. -/
def saturate (n : Int) : Int := max int64Min (min n int64Max)

theorem signed?_of_mem {bits : Nat} {n : Int} (h : -2 ^ (bits - 1) ≤ n ∧ n < 2 ^ (bits - 1)) :
    signed? bits n = some n := if_pos h

theorem unsigned?_of_mem {bits : Nat} {n : Int} (h : 0 ≤ n ∧ n < 2 ^ bits) :
    unsigned? bits n = some n.toNat := if_pos h

theorem unsigned?_natCast (bits n : Nat) :
    unsigned? bits n = if n < 2 ^ bits then some n else none := by
  have hbits : (n : Int) < 2 ^ bits ↔ n < 2 ^ bits := by exact_mod_cast Iff.rfl
  simp [unsigned?, hbits]

/-- A sort has two values, or as many as there are integers to try. -/
def BaseSort.choices (integers : Nat) : BaseSort → Nat
  | .bool => 2
  | .int => integers

/-- The number of assignments, multiplied up from a number to start with. -/
def productFrom (integers : Nat) (n : Nat) (vars : List Var) : Nat :=
  vars.foldl (fun n v => n * v.sort.choices integers) n

/-- The number of assignments as a machine multiplies it up: it is given up as soon as a product
does not fit. -/
def productFrom? (integers : Nat) : Nat → List Var → Option Nat
  | n, [] => some n
  | n, v :: vars => do
    let product ← unsigned? 128 (n * v.sort.choices integers : Nat)
    productFrom? integers (← unsigned? 64 product) vars

section Products

variable {integers integers' cap : Nat}

theorem BaseSort.choices_mono (h : integers ≤ integers') (s : BaseSort) :
    s.choices integers ≤ s.choices integers' := by
  cases s with
  | bool => exact Nat.le_refl 2
  | int => exact h

theorem productFrom_mono (h : integers ≤ integers') (vars : List Var) {m n : Nat} (hmn : m ≤ n) :
    productFrom integers m vars ≤ productFrom integers' n vars := by
  induction vars generalizing m n with
  | nil => exact hmn
  | cons v vars ih => exact ih (Nat.mul_le_mul hmn (v.sort.choices_mono h))

/-- Where there are integers to try, multiplying by numbers of choices makes nothing smaller. -/
private theorem le_productFrom (h : 0 < integers) (vars : List Var) (n : Nat) :
    n ≤ productFrom integers n vars := by
  induction vars generalizing n with
  | nil => exact Nat.le_refl n
  | cons v vars ih =>
    have hpos : 0 < v.sort.choices integers := Nat.lt_of_lt_of_le
      (by cases v.sort <;> decide) (v.sort.choices_mono h)
    exact Nat.le_trans (Nat.le_mul_of_pos_right n hpos) (ih _)

/-- What is given up exceeds every cap, since no later factor makes a product smaller. -/
private theorem productFrom?_any (h : 0 < integers) (hcap : cap < 2 ^ 64) (vars : List Var)
    (n : Nat) :
    (productFrom? integers n vars).any (· ≤ cap) = decide (productFrom integers n vars ≤ cap) := by
  induction vars generalizing n with
  | nil => rfl
  | cons v vars ih =>
    have hle : n * v.sort.choices integers ≤ productFrom integers n (v :: vars) :=
      le_productFrom h vars _
    rw [productFrom?, unsigned?_natCast]
    by_cases hfits : n * v.sort.choices integers < 2 ^ 64
    · rw [if_pos (by omega), Option.bind_eq_bind, Option.bind_some, unsigned?_natCast,
        if_pos hfits]
      exact ih _
    · rw [decide_eq_false (by omega)]
      split
      · rw [Option.bind_eq_bind, Option.bind_some, unsigned?_natCast, if_neg hfits]
        rfl
      · rfl

end Products

section Halving

variable {passes : Nat → Bool} {margin m : Nat}

/-- The margin that is found passes the test. -/
theorem passes_of_firstHalving? (h : firstHalving? passes margin = some m) : passes m = true := by
  fun_induction firstHalving? passes margin with
  | case1 => cases h
  | case2 margin hmargin hpasses => rwa [← Option.some.inj h]
  | case3 margin hmargin hpasses ih => exact ih h

/-- Where one passes if any margin does, no margin is found exactly if one does not pass. -/
theorem firstHalving?_eq_none_iff (hmargin : 0 < margin)
    (hone : ∀ m, 0 < m → passes m = true → passes 1 = true) :
    firstHalving? passes margin = none ↔ passes 1 = false := by
  fun_induction firstHalving? passes margin with
  | case1 => omega
  | case2 margin hpos hpasses => simp [hone margin hmargin hpasses]
  | case3 margin hpos hpasses ih =>
    by_cases hm : margin = 1
    · subst hm
      rw [Bool.not_eq_true] at hpasses
      rw [firstHalving?, if_pos rfl, hpasses]
      simp
    · exact ih (by omega)

end Halving

namespace Window

variable {w w' : Window} {vars : List Var} {cap n : Nat} {formula : Term}

/-- A window of signed 64-bit integers that is not empty. -/
structure Is64Bit (w : Window) : Prop where
  least : int64Min ≤ w.lo
  nonempty : w.lo ≤ w.hi
  greatest : w.hi ≤ int64Max

instance (w : Window) : Decidable w.Is64Bit :=
  decidable_of_iff (int64Min ≤ w.lo ∧ w.lo ≤ w.hi ∧ w.hi ≤ int64Max)
    ⟨fun ⟨h, h', h''⟩ => ⟨h, h', h''⟩, fun ⟨h, h', h''⟩ => ⟨h, h', h''⟩⟩

theorem assignments_eq (w : Window) (vars : List Var) :
    w.assignments vars = productFrom w.width 1 vars := rfl

/-- A window within another one has no more assignments. -/
theorem assignments_mono (hlo : w'.lo ≤ w.lo) (hhi : w.hi ≤ w'.hi) (vars : List Var) :
    w.assignments vars ≤ w'.assignments vars := by
  have hwidth : w.width ≤ w'.width := by
    unfold width
    omega
  rw [assignments_eq, assignments_eq]
  exact productFrom_mono hwidth vars (Nat.le_refl 1)

/-- A window of 64-bit integers that contains another one and is larger on each side, unless the
range ends there. -/
structure Widens (w w' : Window) : Prop where
  is64Bit : w'.Is64Bit
  lo_le : w'.lo ≤ w.lo
  le_hi : w.hi ≤ w'.hi
  lo_lt : w.lo ≠ int64Min → w'.lo < w.lo
  lt_hi : w.hi ≠ int64Max → w.hi < w'.hi

/-- A margin makes a window larger. -/
theorem widens_widen (hw : w.Is64Bit) (hn : 0 < n) : w.Widens (w.widen n) := by
  obtain ⟨hmin, hle, hmax⟩ := hw
  simp only [int64Min, int64Max] at hmin hmax
  refine ⟨⟨?_, ?_, ?_⟩, ?_, ?_, ?_, ?_⟩ <;>
  · simp only [widen, int64Min, int64Max]
    omega

/-- A margin of one has the fewest assignments. -/
theorem assignments_widen_one_le (hn : 0 < n) (vars : List Var) :
    (w.widen 1).assignments vars ≤ (w.widen n).assignments vars := by
  apply assignments_mono <;>
  · simp only [widen, int64Min, int64Max]
    omega

theorem margin_pos (hw : w.Is64Bit) (formula : Term) : 0 < w.margin formula := by
  have := hw.nonempty
  simp only [margin, width, int64Max]
  omega

/-- A widened window is larger, and it may be searched. -/
theorem widened?_spec (hw : w.Is64Bit) (h : w.widened? cap formula vars = some w') :
    w.Widens w' ∧ w'.assignments vars ≤ cap := by
  obtain ⟨n, hn, rfl⟩ := Option.map_eq_some_iff.mp h
  exact ⟨widens_widen hw (pos_of_firstHalving? hn), by simpa using passes_of_firstHalving? hn⟩

/-- A window is not widened exactly if one more integer on each side is too much. -/
theorem widened?_eq_none_iff (hw : w.Is64Bit) :
    w.widened? cap formula vars = none ↔ cap < (w.widen 1).assignments vars := by
  rw [widened?, Option.map_eq_none_iff, firstHalving?_eq_none_iff (margin_pos hw formula)]
  · simp
  · intro n hn hpasses
    have hle := assignments_widen_one_le (w := w) hn vars
    simp only [decide_eq_true_eq] at hpasses ⊢
    omega

section Machine

/-- The number of integers in a window as a machine counts them. -/
def count? (w : Window) : Option Int := do
  let distance ← signed? 128 (w.hi - w.lo)
  signed? 128 (distance + 1)

/-- Whether a machine finds that a window may be searched under a cap; nothing if a result
overflows. -/
def fits? (w : Window) (cap : Nat) (vars : List Var) : Option Bool := do
  let integers ← unsigned? 128 (← w.count?)
  return (productFrom? integers 1 vars).any (· ≤ cap)

/-- The loop of a machine that halves a margin until the window may be searched; nothing if a result
overflows or the loop does not end within some number of rounds. -/
def halve? (w : Window) (cap : Nat) (vars : List Var) : Nat → Nat → Option (Option Window)
  | 0, _ => none
  | rounds + 1, margin =>
    if margin = 0 then some none
    else do
      let m := (signed? 64 margin).getD int64Max
      let window : Window := ⟨saturate (w.lo - m), saturate (w.hi + m)⟩
      if ← window.fits? cap vars then return some window
      else w.halve? cap vars rounds (margin / 2)

/-- The window for confirming a refutation as a machine computes it; nothing if a result overflows
or the loop does not end after 64 halvings. -/
def machineWidened? (w : Window) (cap : Nat) (formula : Term) (vars : List Var) :
    Option (Option Window) := do
  let width ← unsigned? 64 (min (← w.count?) int64Max)
  let below ← unsigned? 64 w.lo.natAbs
  let above ← unsigned? 64 w.hi.natAbs
  let constant ← unsigned? 64 formula.maxConstant
  let beyond := min (constant - max below above + 1) (2 ^ 64 - 1)
  w.halve? cap vars 65 (max width beyond)

private theorem count?_eq (hw : w.Is64Bit) : w.count? = some (w.hi - w.lo + 1) := by
  obtain ⟨hmin, hle, hmax⟩ := hw
  simp only [int64Min, int64Max] at hmin hmax
  rw [count?, signed?_of_mem (by omega)]
  exact signed?_of_mem (by omega)

private theorem fits?_eq (hw : w.Is64Bit) (hcap : cap < 2 ^ 64) (vars : List Var) :
    w.fits? cap vars = some (decide (w.assignments vars ≤ cap)) := by
  have hcount := count?_eq hw
  obtain ⟨hmin, hle, hmax⟩ := hw
  simp only [int64Min, int64Max] at hmin hmax
  have hintegers : unsigned? 128 (w.hi - w.lo + 1) = some w.width := unsigned?_of_mem (by omega)
  have hwidth : 0 < w.width := by
    unfold width
    omega
  rw [assignments_eq, ← productFrom?_any hwidth hcap]
  simp only [fits?, hcount, hintegers, Option.bind_eq_bind, Option.bind_some, Option.pure_def]

/-- The window that a machine makes of a margin. -/
private theorem saturated_eq_widen (hw : w.Is64Bit) (n : Nat) :
    (⟨saturate (w.lo - (signed? 64 n).getD int64Max),
      saturate (w.hi + (signed? 64 n).getD int64Max)⟩ : Window) = w.widen n := by
  have hmargin : (signed? 64 n).getD int64Max = min (n : Int) int64Max := by
    unfold signed?
    simp only [int64Max]
    split
    · rw [Option.getD_some]
      omega
    · rw [Option.getD_none]
      omega
  obtain ⟨hmin, hle, hmax⟩ := hw
  rw [hmargin]
  simp only [saturate, widen, int64Min, int64Max, Window.mk.injEq] at hmin hmax ⊢
  omega

/-- The loop of a machine finds the margin, and it ends as soon as the margin is used up. -/
private theorem halve?_eq (hw : w.Is64Bit) (hcap : cap < 2 ^ 64) {rounds : Nat}
    (h : n < 2 ^ rounds) :
    w.halve? cap vars (rounds + 1) n =
      some ((firstHalving? (fun m => (w.widen m).assignments vars ≤ cap) n).map w.widen) := by
  induction rounds generalizing n with
  | zero =>
    obtain rfl : n = 0 := by omega
    rw [halve?, firstHalving?]
    rfl
  | succ rounds ih =>
    rw [halve?, firstHalving?]
    by_cases hzero : n = 0
    · rw [if_pos hzero, if_pos hzero]
      rfl
    · rw [if_neg hzero, if_neg hzero]
      dsimp only
      rw [saturated_eq_widen hw, fits?_eq (widens_widen hw (by omega)).is64Bit hcap,
        Option.bind_eq_bind, Option.bind_some]
      split
      · rfl
      · rw [Nat.pow_succ] at h
        exact ih (by omega)

/-- A machine computes the window, without overflow and in at most 64 halvings. -/
theorem machineWidened?_eq (hw : w.Is64Bit) (hcap : cap < 2 ^ 64)
    (hformula : formula.maxConstant ≤ 2 ^ 63) :
    w.machineWidened? cap formula vars = some (w.widened? cap formula vars) := by
  have hcount := count?_eq hw
  have hloop (hmargin : w.margin formula < 2 ^ 64) :
      w.halve? cap vars 65 (w.margin formula) = some (w.widened? cap formula vars) :=
    halve?_eq hw hcap hmargin
  obtain ⟨hmin, hle, hmax⟩ := hw
  simp only [int64Min, int64Max] at hmin hmax
  have hwidth : unsigned? 64 (min (w.hi - w.lo + 1) int64Max) =
      some (min w.width int64Max.toNat) := by
    rw [unsigned?_of_mem (by simp only [int64Max]; omega)]
    simp only [width, int64Max, Option.some.injEq]
    omega
  have hbelow : unsigned? 64 w.lo.natAbs = some w.lo.natAbs := unsigned?_of_mem (by omega)
  have habove : unsigned? 64 w.hi.natAbs = some w.hi.natAbs := unsigned?_of_mem (by omega)
  have hconstant : unsigned? 64 formula.maxConstant = some formula.maxConstant :=
    unsigned?_of_mem (by omega)
  have hmargin : max (min w.width int64Max.toNat)
      (min (formula.maxConstant - max w.lo.natAbs w.hi.natAbs + 1) (2 ^ 64 - 1)) =
        w.margin formula := by
    rw [Nat.min_eq_left (a := formula.maxConstant - _ + 1) (by omega)]
    rfl
  simp only [machineWidened?, hcount, hwidth, hbelow, habove, hconstant, Option.bind_eq_bind,
    Option.bind_some, hmargin]
  apply hloop
  simp only [margin, int64Max]
  omega

end Machine

/-- A window of 64-bit integers is widened as a machine computes it, without overflow and in at most
64 halvings. The wider window is larger on each side unless the range ends there, and the cap allows
searching it; and there is none exactly if the cap does not even allow one more integer on each
side. -/
theorem widened?_exact (hw : w.Is64Bit) (hcap : cap < 2 ^ 64)
    (hformula : formula.maxConstant ≤ 2 ^ 63) (vars : List Var) :
    w.machineWidened? cap formula vars = some (w.widened? cap formula vars) ∧
      (∀ w', w.widened? cap formula vars = some w' → w.Widens w' ∧ w'.assignments vars ≤ cap) ∧
      (w.widened? cap formula vars = none ↔
        cap < (⟨max (w.lo - 1) int64Min, min (w.hi + 1) int64Max⟩ : Window).assignments vars) :=
  ⟨machineWidened?_eq hw hcap hformula, fun _ => widened?_spec hw, widened?_eq_none_iff hw⟩

/-- A constant of 1000 asks for a margin of 993, which the cap allows after two halvings. The whole
64-bit range has one integer more than the greatest cap. -/
theorem widened?_thousand :
    let formula : Term := .equation (.var ⟨"x", .int⟩) (.int 1000)
    let vars : List Var := [⟨"x", .int⟩, ⟨"b", .bool⟩]
    (Is64Bit ⟨0, 8⟩ ∧ 1010 < 2 ^ 64 ∧ formula.maxConstant ≤ 2 ^ 63 ∧
      Window.widened? ⟨0, 8⟩ 1010 formula vars = some ⟨-248, 256⟩ ∧
      ⟨-248, 256⟩ ≠ widen ⟨0, 8⟩ (margin ⟨0, 8⟩ formula) ∧
      assignments ⟨-248, 256⟩ vars ≤ 1010) ∧
    (Is64Bit ⟨int64Min, int64Max⟩ ∧
      Window.widened? ⟨int64Min, int64Max⟩ (2 ^ 64 - 1) formula vars = none ∧
      2 ^ 64 - 1 < assignments ⟨int64Min, int64Max⟩ vars) := by
  intro formula vars
  have hsmall : Is64Bit ⟨0, 8⟩ := by decide
  have hwhole : Is64Bit ⟨int64Min, int64Max⟩ := by decide
  have hcap : 1010 < 2 ^ 64 := by decide
  have hgreatest : 2 ^ 64 - 1 < 2 ^ 64 := by decide
  have hconstant : formula.maxConstant ≤ 2 ^ 63 := by decide
  obtain ⟨hmachine, hgrown, -⟩ := widened?_exact hsmall hcap hconstant vars
  obtain ⟨hmachine', -, hnone⟩ := widened?_exact hwhole hgreatest hconstant vars
  have hwidened : Window.widened? ⟨0, 8⟩ 1010 formula vars = some ⟨-248, 256⟩ :=
    Option.some.inj (hmachine.symm.trans (by decide +kernel))
  have hwidened' : Window.widened? ⟨int64Min, int64Max⟩ (2 ^ 64 - 1) formula vars = none :=
    Option.some.inj (hmachine'.symm.trans (by decide +kernel))
  exact ⟨⟨hsmall, hcap, hconstant, hwidened, by decide, (hgrown _ hwidened).2⟩,
    hwhole, hwidened', hnone.mp hwidened'⟩

end Window

end HornSaturation
