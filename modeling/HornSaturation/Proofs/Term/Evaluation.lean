import HornSaturation.Proofs.Term.Structure
import HornSaturation.Term.Eval
import Mathlib.Data.List.Forall2

/-!
# Evaluation by operators

The value of an application is determined by the values of its arguments. What an operator does with
them is a function of its own, which is monotone: where an argument or the arithmetic becomes more
defined, the value stays. Evaluation therefore depends on the variables that occur, and replacing
variables by terms is the same as assigning the values of these terms.
-/

namespace HornSaturation

/-- Whether all values of a list are true; the first false one settles it. -/
def allTrue : List (Option Value) → Option Bool
  | [] => some true
  | x :: xs => do
      let a ← (← x).toBool?
      if a then allTrue xs else return false

/-- Whether some value of a list is true; the first true one settles it. -/
def anyTrue : List (Option Value) → Option Bool
  | [] => some false
  | x :: xs => do
      let a ← (← x).toBool?
      if a then return true else anyTrue xs

/-- The integers of a list of values, if all are. -/
def allInts : List (Option Value) → Option (List Int)
  | [] => some []
  | x :: xs => do
      let n ← (← x).toInt?
      return n :: (← allInts xs)

/-- The value of an operator on the values of its arguments. -/
def Op.value (arith : Op → List Int → Option Int) : Op → List (Option Value) → Option Value
  | .and, xs => (allTrue xs).map .bool
  | .or, xs => (anyTrue xs).map .bool
  | .not, xs => do
      let a ← (← xs.getD 0 none).toBool?
      return .bool !a
  | .implies, xs => do
      let a ← (← xs.getD 0 none).toBool?
      if a then xs.getD 1 none else return .bool true
  | .ite, xs => do
      let c ← (← xs.getD 0 none).toBool?
      if c then xs.getD 1 none else xs.getD 2 none
  | .eq, xs | .iff, xs => do
      let a ← xs.getD 0 none
      let b ← xs.getD 1 none
      return .bool (a == b)
  | .ne, xs => do
      let a ← xs.getD 0 none
      let b ← xs.getD 1 none
      return .bool (a != b)
  | .lt, xs => compared .lt xs
  | .le, xs => compared .le xs
  | .gt, xs => compared .gt xs
  | .ge, xs => compared .ge xs
  | o, xs => do
      let ns ← allInts xs
      return .int (← arith o ns)
where
  /-- The comparison of the first two values. -/
  compared (o : Op) (xs : List (Option Value)) : Option Value := do
    let m ← (← xs.getD 0 none).toInt?
    let n ← (← xs.getD 1 none).toInt?
    return .bool (o.compareInts m n)

namespace Term

variable {arith : Op → List Int → Option Int} {env : Var → Option Value}

private theorem evalArg_eq (k : Nat) (ts : List Term) :
    evalArg arith env k ts = (ts.map (evalWith arith env)).getD k none := by
  induction ts generalizing k with
  | nil => simp [evalArg]
  | cons t ts ih => cases k <;> simp [evalArg, ih]

private theorem evalAll_eq (ts : List Term) :
    evalAll arith env ts = allTrue (ts.map (evalWith arith env)) := by
  induction ts with
  | nil => rfl
  | cons t ts ih => simp only [evalAll, ih, List.map_cons, allTrue]

private theorem evalAny_eq (ts : List Term) :
    evalAny arith env ts = anyTrue (ts.map (evalWith arith env)) := by
  induction ts with
  | nil => rfl
  | cons t ts ih => simp only [evalAny, ih, List.map_cons, anyTrue]

private theorem evalInts_eq (ts : List Term) :
    evalInts arith env ts = allInts (ts.map (evalWith arith env)) := by
  induction ts with
  | nil => rfl
  | cons t ts ih => simp only [evalInts, ih, List.map_cons, allInts]

private theorem evalComparison_eq (o : Op) (ts : List Term) :
    evalComparison arith env o ts = Op.value.compared o (ts.map (evalWith arith env)) := by
  match ts with
  | [] => rfl
  | [a] =>
    cases h : evalWith arith env a with
    | none => simp [evalComparison, Op.value.compared, h]
    | some x => cases x <;> simp [evalComparison, Op.value.compared, h, Value.toInt?]
  | a :: b :: ts => rfl

@[simp] theorem evalWith_bool (b : Bool) : evalWith arith env (.bool b) = some (.bool b) := rfl

@[simp] theorem evalWith_int (n : Int) : evalWith arith env (.int n) = some (.int n) := rfl

@[simp] theorem evalWith_var (v : Var) : evalWith arith env (.var v) = env v := rfl

@[simp] theorem evalWith_app (name : String) (r : RelationId) (args : List Term) :
    evalWith arith env (.app name r args) = none := rfl

@[simp] theorem evalWith_toTerm (x : Value) : evalWith arith env x.toTerm = some x := by
  cases x <;> rfl

/-- The value of an application, from the values of its arguments. -/
@[simp] theorem evalWith_op (o : Op) (args : List Term) :
    evalWith arith env (.op o args) = o.value arith (args.map (evalWith arith env)) := by
  cases o <;> simp only [evalWith, Op.value, evalArg_eq, evalAll_eq, evalAny_eq, evalInts_eq,
    evalComparison_eq]

/-- Assignments that agree on the variables of a term give it the same value. -/
theorem evalWith_congr {env' : Var → Option Value} {t : Term}
    (h : ∀ v ∈ t.occurrences, env v = env' v) : evalWith arith env t = evalWith arith env' t := by
  induction t using structural with
  | bool b => rfl
  | int n => rfl
  | var v => exact h v (by simp)
  | op o args ih =>
    rw [evalWith_op, evalWith_op]
    congr 1
    exact List.map_congr_left fun t ht =>
      ih t ht fun v hv => h v (by simpa using ⟨t, ht, hv⟩)
  | app name r args ih => rfl

/-- Replacing variables by terms assigns them the values of these terms. -/
theorem evalWith_bind (f : Var → Term) (t : Term) :
    evalWith arith env (t.bind f) = evalWith arith (fun v => evalWith arith env (f v)) t := by
  induction t using structural with
  | bool b => rfl
  | int n => rfl
  | var v => rfl
  | op o args ih =>
    rw [bind, bindList_eq, evalWith_op, evalWith_op, List.map_map]
    congr 1
    exact List.map_congr_left ih
  | app name r args ih => rfl

end Term

/-- A value that is kept where it is defined. -/
def Kept {α : Type} (x y : Option α) : Prop := ∀ a, x = some a → y = some a

namespace Kept

variable {α β : Type} {x y : Option α}

theorem refl (x : Option α) : Kept x x := fun _ h => h

theorem trans {w : Option α} (h : Kept x y) (h' : Kept y w) : Kept x w := fun a ha => h' a (h a ha)

theorem none (y : Option α) : Kept Option.none y := fun _ h => nomatch h

theorem bind {f g : α → Option β} (hx : Kept x y) (hf : ∀ a, Kept (f a) (g a)) :
    Kept (x >>= f) (y >>= g) := by
  intro b hb
  obtain ⟨a, ha, hab⟩ := Option.bind_eq_some_iff.mp hb
  exact Option.bind_eq_some_iff.mpr ⟨a, hx a ha, hf a b hab⟩

theorem map {f : α → β} (hx : Kept x y) : Kept (x.map f) (y.map f) := by
  intro b hb
  obtain ⟨a, ha, hab⟩ := Option.map_eq_some_iff.mp hb
  exact Option.map_eq_some_iff.mpr ⟨a, hx a ha, hab⟩

theorem ite {c : Prop} [Decidable c] {x' y' : Option α} (h : Kept x y) (h' : Kept x' y') :
    Kept (if c then x else x') (if c then y else y') := by
  split
  · exact h
  · exact h'

end Kept

/-- Lists of values of one length, kept place by place. -/
abbrev KeptList (xs ys : List (Option Value)) : Prop := List.Forall₂ Kept xs ys

namespace KeptList

variable {xs ys : List (Option Value)}

theorem getD (h : KeptList xs ys) (k : Nat) : Kept (xs.getD k none) (ys.getD k none) := by
  induction h generalizing k with
  | nil => exact .refl _
  | cons hx _ ih =>
    cases k with
    | zero => exact hx
    | succ k => exact ih k

theorem allTrue (h : KeptList xs ys) : Kept (allTrue xs) (allTrue ys) := by
  induction h with
  | nil => exact .refl _
  | cons hx _ ih => exact hx.bind fun _ => .bind (.refl _) fun _ => .ite ih (.refl _)

theorem anyTrue (h : KeptList xs ys) : Kept (anyTrue xs) (anyTrue ys) := by
  induction h with
  | nil => exact .refl _
  | cons hx _ ih => exact hx.bind fun _ => .bind (.refl _) fun _ => .ite (.refl _) ih

theorem allInts (h : KeptList xs ys) : Kept (allInts xs) (allInts ys) := by
  induction h with
  | nil => exact .refl _
  | cons hx _ ih => exact hx.bind fun _ => .bind (.refl _) fun _ => ih.bind fun _ => .refl _

end KeptList

/-- Operators keep their value where arguments and arithmetic become more defined. -/
theorem Op.value_kept {arith arith' : Op → List Int → Option Int}
    (ha : ∀ o ns, Kept (arith o ns) (arith' o ns)) (o : Op) {xs ys : List (Option Value)}
    (h : KeptList xs ys) : Kept (o.value arith xs) (o.value arith' ys) := by
  cases o with
  | and => exact h.allTrue.map
  | or => exact h.anyTrue.map
  | not => exact (h.getD 0).bind fun _ => .refl _
  | implies => exact (h.getD 0).bind fun _ => .bind (.refl _) fun _ => .ite (h.getD 1) (.refl _)
  | ite => exact (h.getD 0).bind fun _ => .bind (.refl _) fun _ => .ite (h.getD 1) (h.getD 2)
  | eq | iff | ne => exact (h.getD 0).bind fun _ => (h.getD 1).bind fun _ => .refl _
  | lt | le | gt | ge =>
    exact (h.getD 0).bind fun _ => .bind (.refl _) fun _ => (h.getD 1).bind fun _ => .refl _
  | add | sub | mul | div | mod | neg =>
    exact h.allInts.bind fun _ => (ha _ _).bind fun _ => .refl _

/-- A value stays where the arithmetic and the assignment become more defined. -/
theorem Term.evalWith_kept {arith arith' : Op → List Int → Option Int}
    (ha : ∀ o ns, Kept (arith o ns) (arith' o ns)) {env env' : Var → Option Value} {t : Term}
    (he : ∀ v ∈ t.occurrences, Kept (env v) (env' v)) :
    Kept (evalWith arith env t) (evalWith arith' env' t) := by
  induction t using structural with
  | bool b => exact .refl _
  | int n => exact .refl _
  | var v => exact he v (by simp)
  | op o args ih =>
    rw [evalWith_op, evalWith_op]
    refine o.value_kept ha ?_
    simp only [KeptList, List.forall₂_map_left_iff, List.forall₂_map_right_iff, List.forall₂_same]
    exact fun t ht => ih t ht fun v hv => he v (by simpa using ⟨t, ht, hv⟩)
  | app name r args ih => exact .refl _

end HornSaturation
