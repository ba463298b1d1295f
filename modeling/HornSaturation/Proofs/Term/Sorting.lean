import HornSaturation.Proofs.Term.Evaluation

/-!
# Well-sorted terms and their truth

A term is well sorted if every operator has the right number of arguments of the right sorts and no
relation is applied in it. Over the unbounded integers, with any fixed reading of division by zero,
a well-sorted term has a value of its sort under every valuation; its truth is defined by that
value.
-/

namespace HornSaturation

/-- The lists of sorts, of a given length, that an operator accepts for a result of a sort. -/
def Op.argumentSorts : Op → BaseSort → Nat → List (List BaseSort)
  | .not, .bool, _ => [[.bool]]
  | .and, .bool, n | .or, .bool, n => [.replicate n .bool]
  | .implies, .bool, _ | .iff, .bool, _ => [[.bool, .bool]]
  | .eq, .bool, _ | .ne, .bool, _ => [[.bool, .bool], [.int, .int]]
  | .lt, .bool, _ | .le, .bool, _ | .gt, .bool, _ | .ge, .bool, _ => [[.int, .int]]
  | .add, .int, n | .mul, .int, n => [.replicate n .int]
  | .sub, .int, n + 1 => [.replicate (n + 1) .int]
  | .div, .int, _ | .mod, .int, _ => [[.int, .int]]
  | .neg, .int, _ => [[.int]]
  | .ite, s, _ => [[.bool, s, s]]
  | _, _, _ => []

namespace Term

mutual
/-- Whether a term is well sorted, without relation applications, and has a sort. -/
def hasSort : Term → BaseSort → Bool
  | .bool _, s => s = .bool
  | .int _, s => s = .int
  | .var v, s => v.sort = s
  | .op o args, s => (o.argumentSorts s args.length).any fun sorts => haveSorts args sorts
  | .app .., _ => false
/-- Whether the terms of a list are well sorted and have the sorts of a list. -/
def haveSorts : List Term → List BaseSort → Bool
  | [], [] => true
  | t :: ts, s :: sorts => hasSort t s && haveSorts ts sorts
  | _, _ => false
end

-- The equations of these definitions are needed throughout; here they are derived once.
attribute [local simp] hasSort haveSorts Op.argumentSorts

theorem haveSorts_iff {ts : List Term} {sorts : List BaseSort} :
    haveSorts ts sorts = true ↔ List.Forall₂ (fun t s => t.hasSort s = true) ts sorts := by
  induction ts generalizing sorts with
  | nil => cases sorts <;> simp
  | cons t ts ih => cases sorts <;> simp [ih]

theorem haveSorts_replicate {ts : List Term} {s : BaseSort} :
    haveSorts ts (.replicate ts.length s) = true ↔ ∀ t ∈ ts, t.hasSort s = true := by
  induction ts with
  | nil => simp
  | cons t ts ih => simp [List.replicate_succ, ih]

theorem hasSort_op_iff {o : Op} {args : List Term} {s : BaseSort} :
    (Term.op o args).hasSort s = true ↔
      ∃ sorts ∈ o.argumentSorts s args.length, haveSorts args sorts = true := by
  rw [hasSort, List.any_eq_true]

@[simp] theorem hasSort_bool {b : Bool} {s : BaseSort} :
    (Term.bool b).hasSort s = true ↔ s = .bool := by simp

@[simp] theorem hasSort_int {n : Int} {s : BaseSort} :
    (Term.int n).hasSort s = true ↔ s = .int := by simp

@[simp] theorem hasSort_var {v : Var} {s : BaseSort} :
    (Term.var v).hasSort s = true ↔ v.sort = s := by simp

@[simp] theorem hasSort_toTerm {x : Value} {s : BaseSort} :
    x.toTerm.hasSort s = true ↔ s = x.sort := by
  cases x <;> simp [Value.toTerm, Value.sort]

private theorem haveSorts_one {args : List Term} {s : BaseSort} :
    haveSorts args [s] = true ↔ ∃ a, args = [a] ∧ a.hasSort s = true := by
  rcases args with _ | ⟨a, _ | ⟨b, rest⟩⟩ <;> simp

private theorem haveSorts_two {args : List Term} {s s' : BaseSort} :
    haveSorts args [s, s'] = true ↔
      ∃ a b, args = [a, b] ∧ a.hasSort s = true ∧ b.hasSort s' = true := by
  rcases args with _ | ⟨a, _ | ⟨b, _ | ⟨c, rest⟩⟩⟩ <;> simp

private theorem haveSorts_three {args : List Term} {s s' s'' : BaseSort} :
    haveSorts args [s, s', s''] = true ↔ ∃ a b c, args = [a, b, c] ∧ a.hasSort s = true ∧
      b.hasSort s' = true ∧ c.hasSort s'' = true := by
  rcases args with _ | ⟨a, _ | ⟨b, _ | ⟨c, _ | ⟨d, rest⟩⟩⟩⟩ <;> simp

section Inversion

variable {args : List Term} {s : BaseSort}

theorem hasSort_not : (Term.op .not args).hasSort s = true ↔
    s = .bool ∧ ∃ a, args = [a] ∧ a.hasSort .bool = true := by
  cases s <;> simp [haveSorts_one]

theorem hasSort_and : (Term.op .and args).hasSort s = true ↔
    s = .bool ∧ ∀ a ∈ args, a.hasSort .bool = true := by
  cases s <;> simp [haveSorts_replicate]

theorem hasSort_or : (Term.op .or args).hasSort s = true ↔
    s = .bool ∧ ∀ a ∈ args, a.hasSort .bool = true := by
  cases s <;> simp [haveSorts_replicate]

theorem hasSort_connective {o : Op} (ho : o = .implies ∨ o = .iff) :
    (Term.op o args).hasSort s = true ↔
      s = .bool ∧ ∃ a b, args = [a, b] ∧ a.hasSort .bool = true ∧ b.hasSort .bool = true := by
  rcases ho with rfl | rfl <;> cases s <;> simp [haveSorts_two]

theorem hasSort_equality {o : Op} (ho : o = .eq ∨ o = .ne) :
    (Term.op o args).hasSort s = true ↔
      s = .bool ∧ ∃ a b s', args = [a, b] ∧ a.hasSort s' = true ∧ b.hasSort s' = true := by
  rcases ho with rfl | rfl <;> cases s <;>
    simp only [hasSort_op_iff, Op.argumentSorts, List.mem_cons, List.not_mem_nil, or_false,
      exists_eq_or_imp, exists_eq_left, haveSorts_two, false_and, exists_false, true_and,
      reduceCtorEq]
  all_goals
    constructor
    · rintro (⟨a, b, h⟩ | ⟨a, b, h⟩)
      · exact ⟨a, b, .bool, h⟩
      · exact ⟨a, b, .int, h⟩
    · rintro ⟨a, b, s', h⟩
      cases s'
      · exact .inl ⟨a, b, h⟩
      · exact .inr ⟨a, b, h⟩

theorem hasSort_comparison {o : Op} (ho : o = .lt ∨ o = .le ∨ o = .gt ∨ o = .ge) :
    (Term.op o args).hasSort s = true ↔
      s = .bool ∧ ∃ a b, args = [a, b] ∧ a.hasSort .int = true ∧ b.hasSort .int = true := by
  rcases ho with rfl | rfl | rfl | rfl <;> cases s <;>
    simp [haveSorts_two]

theorem hasSort_sum {o : Op} (ho : o = .add ∨ o = .mul) :
    (Term.op o args).hasSort s = true ↔ s = .int ∧ ∀ a ∈ args, a.hasSort .int = true := by
  rcases ho with rfl | rfl <;> cases s <;>
    simp [haveSorts_replicate]

theorem hasSort_sub : (Term.op .sub args).hasSort s = true ↔
    s = .int ∧ args ≠ [] ∧ ∀ a ∈ args, a.hasSort .int = true := by
  cases args with
  | nil => cases s <;> simp
  | cons a args =>
    rw [← haveSorts_replicate, hasSort_op_iff, List.length_cons]
    cases s <;> simp

theorem hasSort_division {o : Op} (ho : o = .div ∨ o = .mod) :
    (Term.op o args).hasSort s = true ↔
      s = .int ∧ ∃ a b, args = [a, b] ∧ a.hasSort .int = true ∧ b.hasSort .int = true := by
  rcases ho with rfl | rfl <;> cases s <;> simp [haveSorts_two]

theorem hasSort_neg : (Term.op .neg args).hasSort s = true ↔
    s = .int ∧ ∃ a, args = [a] ∧ a.hasSort .int = true := by
  cases s <;> simp [haveSorts_one]

theorem hasSort_ite : (Term.op .ite args).hasSort s = true ↔ ∃ c t e, args = [c, t, e] ∧
    c.hasSort .bool = true ∧ t.hasSort s = true ∧ e.hasSort s = true := by
  cases s <;> simp [haveSorts_three]

end Inversion

end Term

end HornSaturation
