import HornSaturation.Proofs.Term.FoldingDepth

/-!
# Folding ends

Folding carries a bound on how deep its second rounds nest. Here its rules are read without one: the
arguments are folded, the rule of the operator is applied to what they become, and a term that the
rule has built anew is folded in turn. Whatever is folded on the way to the result of a term is
smaller than that term, so the rules lead from every term to exactly one result, and that is the one
which folding within the bound gives.
-/

namespace HornSaturation.Term

variable {o : Op} {args folded : List Term} {s t u : Term}

/-- The term that the rule of an operator builds from folded arguments and hands back to be folded:
the negated premise of an implication whose conclusion is `false`. -/
def rebuilt? : Op → List Term → Option Term
  | .implies, [a, .bool false] => if a.isTrue || a.isFalse then none else some a.negate
  | _, _ => none

/-- The only second round is that on the rebuilt term. -/
theorem foldOp_eq (again : Term → Term) (o : Op) (args : List Term) :
    foldOp again o args = (rebuilt? o args).elim (foldOp id o args) again := by
  by_cases h : ∃ a, o = .implies ∧ args = [a, .bool false]
  · obtain ⟨a, rfl, rfl⟩ := h
    have hfalse : (Term.bool false).isFalse = true := rfl
    have htrue : (Term.bool false).isTrue = false := rfl
    cases ht : a.isTrue <;> cases hf : a.isFalse <;>
      simp [foldOp, rebuilt?, ht, hf, htrue, hfalse]
  · have hnone : rebuilt? o args = none := by
      unfold rebuilt?
      split
      · next a => exact absurd ⟨a, rfl, rfl⟩ h
      · rfl
    rw [hnone, Option.elim_none]
    unfold foldOp
    split
    all_goals try rfl
    next a b =>
      have hb : b.isFalse = false := by
        apply Bool.eq_false_iff.mpr
        intro hb
        exact h ⟨a, rfl, by rw [eq_of_isFalse hb]⟩
      simp [hb]

/-- The conclusion `false` makes up for the sign of the negation. -/
theorem size_lt_of_rebuilt? (h : rebuilt? o args = some t) : t.size < (Term.op o args).size := by
  unfold rebuilt? at h
  split at h
  · next a =>
    split at h
    · cases h
    · obtain rfl := Option.some.inj h
      have hnegate := a.size_negate_le
      simp only [size_op, sizeList_cons, sizeList_nil, size_bool]
      omega
  · cases h

/-- Folding an operation, without a bound on second rounds. -/
theorem foldConstants_op_eq (o : Op) (args : List Term) :
    (Term.op o args).foldConstants = foldOp foldConstants o (args.map foldConstants) := by
  rw [foldConstants_op, foldOp_eq, foldOp_eq foldConstants]
  cases h : rebuilt? o (args.map foldConstants) with
  | none => rfl
  | some t =>
    have ht := size_lt_of_rebuilt? h
    have hargs := sizeList_map_foldConstants_le args
    rw [size_op] at ht
    exact foldToDepth_eq (by omega) (Nat.le_refl _)

mutual
/-- The rules lead from a term to a result, with second rounds nested as deep as it takes. -/
inductive Folds : Term → Term → Prop
  | bool (b : Bool) : Folds (.bool b) (.bool b)
  | int (n : Int) : Folds (.int n) (.int n)
  | var (v : Var) : Folds (.var v) (.var v)
  | app {name : String} {r : RelationId} {args folded : List Term} (hargs : FoldsAll args folded) :
      Folds (.app name r args) (.app name r folded)
  | op {o : Op} {args folded : List Term} (hargs : FoldsAll args folded)
      (hdone : rebuilt? o folded = none) : Folds (.op o args) (foldOp id o folded)
  | again {o : Op} {args folded : List Term} {t u : Term} (hargs : FoldsAll args folded)
      (hrebuilt : rebuilt? o folded = some t) (hagain : Folds t u) : Folds (.op o args) u
/-- The rules lead from the terms of a list to their results. -/
inductive FoldsAll : List Term → List Term → Prop
  | nil : FoldsAll [] []
  | cons {t u : Term} {ts us : List Term} (h : Folds t u) (hs : FoldsAll ts us) :
      FoldsAll (t :: ts) (u :: us)
end

/-- What is folded on the way to the result of a term: its arguments, and what the rule of its
operator rebuilds from their results. -/
inductive Calls : Term → Term → Prop
  | operand {o : Op} {args : List Term} {t : Term} (h : t ∈ args) : Calls (.op o args) t
  | argument {name : String} {r : RelationId} {args : List Term} {t : Term} (h : t ∈ args) :
      Calls (.app name r args) t
  | rebuilt {o : Op} {args folded : List Term} {t : Term} (hargs : FoldsAll args folded)
      (h : rebuilt? o folded = some t) : Calls (.op o args) t

mutual
theorem Folds.eq : ∀ {t u : Term}, Folds t u → t.foldConstants = u
  | _, _, .bool _ | _, _, .int _ | _, _, .var _ => rfl
  | _, _, .app hargs => by rw [foldConstants_app, hargs.eq]
  | _, _, .op hargs hdone => by
      rw [foldConstants_op_eq, hargs.eq, foldOp_eq, hdone, Option.elim_none]
  | _, _, .again hargs hrebuilt hagain => by
      rw [foldConstants_op_eq, hargs.eq, foldOp_eq, hrebuilt, Option.elim_some, hagain.eq]
theorem FoldsAll.eq : ∀ {ts us : List Term}, FoldsAll ts us → ts.map foldConstants = us
  | _, _, .nil => rfl
  | _, _, .cons h hs => by rw [List.map_cons, h.eq, hs.eq]
end

theorem size_lt_of_calls (h : Calls t s) : s.size < t.size := by
  cases h with
  | operand h | argument h => exact Nat.lt_succ_of_le (size_le_of_mem h)
  | @rebuilt o args folded _ hargs h =>
    have hfolded := sizeList_map_foldConstants_le args
    have hs := size_lt_of_rebuilt? h
    rw [hargs.eq] at hfolded
    rw [size_op] at hs ⊢
    omega

/-- Terms whose folding comes to an end make a list whose folding does. -/
theorem foldsAll_map (h : ∀ t ∈ args, Folds t t.foldConstants) :
    FoldsAll args (args.map foldConstants) := by
  induction args with
  | nil => exact .nil
  | cons t args ih =>
    exact .cons (h t List.mem_cons_self) (ih fun u hu => h u (List.mem_cons_of_mem t hu))

/-- By induction on the number of nodes, which is smaller for all that is folded on the way. -/
theorem folds_foldConstants (t : Term) : Folds t t.foldConstants := by
  induction hsize : t.size using Nat.strongRecOn generalizing t with
  | ind n ih =>
    subst hsize
    have hcalls : ∀ s, Calls t s → Folds s s.foldConstants := fun s hs =>
      ih s.size (size_lt_of_calls hs) s rfl
    cases t with
    | bool b => exact .bool b
    | int n => exact .int n
    | var v => exact .var v
    | app name r args =>
      rw [foldConstants_app]
      exact .app (foldsAll_map fun u hu => hcalls u (.argument hu))
    | op o args =>
      have hargs : FoldsAll args (args.map foldConstants) :=
        foldsAll_map fun u hu => hcalls u (.operand hu)
      rw [foldConstants_op_eq, foldOp_eq]
      cases hrebuilt : rebuilt? o (args.map foldConstants) with
      | none => exact .op hargs hrebuilt
      | some s => exact .again hargs hrebuilt (hcalls s (.rebuilt hargs hrebuilt))

/-- Folding never makes a term larger, and so it ends. A term that a rule rebuilds has fewer nodes
than the operation that the rule is applied to; what is folded on the way to the result of a term
has fewer nodes than the term; and without a bound on second rounds the rules lead from the term to
the folded term and nowhere else. -/
theorem foldConstants_total (t : Term) :
    t.foldConstants.size ≤ t.size ∧
      (∀ o args s, rebuilt? o args = some s → s.size < (Term.op o args).size) ∧
      (∀ s, Calls t s → s.size < t.size) ∧ ∀ u, Folds t u ↔ u = t.foldConstants := by
  refine ⟨size_foldConstants_le t, fun o args s => size_lt_of_rebuilt?,
    fun s => size_lt_of_calls, fun u => ?_⟩
  constructor
  · intro h
    exact h.eq.symm
  · rintro rfl
    exact folds_foldConstants t

/-- A conclusion that folds to `false` leaves the negated premise to be folded once more. -/
theorem foldConstants_total_implication :
    let p : Term := .var ⟨"p", .bool⟩
    let t : Term := .op .implies [p, .op .lt [.int 1, .int 0]]
    rebuilt? .implies [p, .bool false] = some (.op .not [p]) ∧ Calls t (.op .not [p]) ∧
      (Term.op .not [p]).size < t.size ∧ Folds t (.op .not [p]) := by
  intro p t
  have hrebuilt : rebuilt? .implies [p, .bool false] = some (.op .not [p]) := by decide
  have hconclusion : Folds (.op .lt [.int 1, .int 0]) (.bool false) :=
    ((foldConstants_total _).2.2.2 _).mpr (by decide)
  have hcalls : Calls t (.op .not [p]) :=
    .rebuilt (.cons (.var _) (.cons hconclusion .nil)) hrebuilt
  exact ⟨hrebuilt, hcalls, (foldConstants_total t).2.2.1 _ hcalls,
    ((foldConstants_total t).2.2.2 _).mpr (by decide)⟩

end HornSaturation.Term
