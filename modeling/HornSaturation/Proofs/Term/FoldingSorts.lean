import HornSaturation.Proofs.Data.Lists
import HornSaturation.Proofs.Term.Gathering

/-!
# Folding keeps sorts

A well-sorted term keeps its sort when its constants are folded: each rule gives a constant of that
sort, an argument that has it, or an operator applied to what it has gathered.
-/

namespace HornSaturation.Term

variable {args : List Term} {s : BaseSort}

private theorem hasSort_of_mem_addedConjuncts {t c : Term} (ht : t.hasSort .bool = true)
    (hc : c ∈ t.addedConjuncts) : c.hasSort .bool = true := by
  rcases addedConjuncts_cases t with ⟨-, h⟩ | h | h
  · simp [h] at hc
  · rw [h] at ht
    exact (hasSort_and.mp ht).2 c hc
  · rw [h, List.mem_singleton] at hc
    rwa [hc]

private theorem hasSort_foldAnd (h : ∀ t ∈ args, t.hasSort .bool = true) :
    (foldAnd args).hasSort .bool = true := by
  unfold foldAnd
  split
  · simp
  · dsimp only
    split
    · simp
    · refine hasSort_conjoin fun c hc => ?_
      simp only [mem_addConjuncts, List.not_mem_nil, false_or] at hc
      obtain ⟨t, ht, hct⟩ := hc
      exact hasSort_of_mem_addedConjuncts (h t ht) hct

private theorem hasSort_foldOr (h : ∀ t ∈ args, t.hasSort .bool = true) :
    (foldOr args).hasSort .bool = true := by
  unfold foldOr
  split
  · simp
  · refine hasSort_disjoin fun c hc => ?_
    simp only [mem_addDisjuncts, List.not_mem_nil, false_or] at hc
    exact h c hc.2

private theorem hasSort_foldEquality {o : Op} (hs : s = .bool)
    (h : (Term.op o args).hasSort s = true) : (foldEquality o args).hasSort s = true := by
  unfold foldEquality
  split
  · split
    · exact hasSort_bool.mpr hs
    · exact h
  · exact h

private theorem hasSort_foldComparison {o : Op} (hs : s = .bool)
    (h : (Term.op o args).hasSort s = true) : (foldComparison o args).hasSort s = true := by
  unfold foldComparison
  split
  · exact hasSort_bool.mpr hs
  · split
    · exact hasSort_bool.mpr hs
    · exact h
  · exact h

private theorem hasSort_foldSum (h : ∀ t ∈ args, t.hasSort .int = true) :
    (foldSum args).hasSort .int = true := by
  have hgathered : ∀ t ∈ gathered args, t.hasSort .int = true := fun t ht => by
    rcases mem_gathered ht with ha | rfl
    · exact h t ha
    · simp
  rw [foldSum_eq]
  unfold joinSum
  split
  · simp
  · next t ht => exact hgathered t (by simp [ht])
  · exact (hasSort_sum (.inl rfl)).mpr ⟨rfl, hgathered⟩

private theorem hasSort_foldProduct (h : ∀ t ∈ args, t.hasSort .int = true) :
    (foldProduct args).hasSort .int = true := by
  have hop : (Term.op .mul args).hasSort .int = true := (hasSort_sum (.inr rfl)).mpr ⟨rfl, h⟩
  unfold foldProduct
  split
  · split
    · simp
    split
    · exact h _ (by simp)
    split
    · exact h _ (by simp)
    · exact hop
  · exact hop

/-- An arithmetic operation is an integer. -/
private theorem sort_of_arithmetic {o : Op}
    (ho : o = .add ∨ o = .sub ∨ o = .mul ∨ o = .div ∨ o = .mod ∨ o = .neg)
    (h : (Term.op o args).hasSort s = true) : s = .int := by
  rcases ho with rfl | rfl | rfl | rfl | rfl | rfl
  · exact ((hasSort_sum (.inl rfl)).mp h).1
  · exact (hasSort_sub.mp h).1
  · exact ((hasSort_sum (.inr rfl)).mp h).1
  · exact ((hasSort_division (.inl rfl)).mp h).1
  · exact ((hasSort_division (.inr rfl)).mp h).1
  · exact (hasSort_neg.mp h).1

private theorem hasSort_foldArithmetic {o : Op}
    (ho : o = .add ∨ o = .sub ∨ o = .mul ∨ o = .div ∨ o = .mod ∨ o = .neg)
    (h : (Term.op o args).hasSort s = true) : (foldArithmetic o args).hasSort s = true := by
  obtain rfl := sort_of_arithmetic ho h
  unfold foldArithmetic
  split
  · simp
  unfold foldIdentities
  split
  · exact hasSort_foldSum ((hasSort_sum (.inl rfl)).mp h).2
  · exact hasSort_foldProduct ((hasSort_sum (.inr rfl)).mp h).2
  · split
    · exact (hasSort_sub.mp h).2.2 _ (by simp)
    · exact h
  · exact h

/-- Folding an operator keeps its sort, if folding a rebuilt term once more does. -/
private theorem hasSort_foldOp {again : Term → Term}
    (hagain : ∀ t s, t.hasSort s = true → (again t).hasSort s = true) {o : Op}
    (h : (Term.op o args).hasSort s = true) : (foldOp again o args).hasSort s = true := by
  cases o with
  | and =>
    obtain ⟨rfl, hargs⟩ := hasSort_and.mp h
    exact hasSort_foldAnd hargs
  | or =>
    obtain ⟨rfl, hargs⟩ := hasSort_or.mp h
    exact hasSort_foldOr hargs
  | not =>
    obtain ⟨rfl, t, rfl, ht⟩ := hasSort_not.mp h
    rcases foldOp_not again t with ⟨b, rfl, hb⟩ | hn
    · simp [hb]
    · rw [hn]
      exact hasSort_negate ht
  | implies =>
    obtain ⟨rfl, a, b, rfl, ha, hb⟩ := (hasSort_connective (.inl rfl)).mp h
    simp only [foldOp]
    split
    · simp
    split
    · exact hb
    split
    · exact hagain _ _ (hasSort_negate ha)
    · exact h
  | ite =>
    obtain ⟨c, t, e, rfl, -, ht, he⟩ := hasSort_ite.mp h
    simp only [foldOp]
    split
    · exact ht
    split
    · exact he
    split
    · exact ht
    · exact h
  | eq => exact hasSort_foldEquality ((hasSort_equality (.inl rfl)).mp h).1 h
  | iff => exact hasSort_foldEquality ((hasSort_connective (.inr rfl)).mp h).1 h
  | ne => exact hasSort_foldEquality ((hasSort_equality (.inr rfl)).mp h).1 h
  | lt | le | gt | ge => exact hasSort_foldComparison ((hasSort_comparison (by simp)).mp h).1 h
  | add | sub | mul | div | mod | neg => exact hasSort_foldArithmetic (by simp) h

/-- Folding from the leaves up keeps sorts, if folding a rebuilt term once more does. -/
theorem hasSort_foldWith {again : Term → Term}
    (hagain : ∀ t s, t.hasSort s = true → (again t).hasSort s = true) {t : Term}
    (h : t.hasSort s = true) : (t.foldWith again).hasSort s = true := by
  induction t using structural generalizing s with
  | bool b => exact h
  | int n => exact h
  | var v => exact h
  | app name r args ih => cases h
  | op o args ih =>
    rw [foldWith, foldListWith_eq]
    obtain ⟨sorts, hs, ha⟩ := hasSort_op_iff.mp h
    refine hasSort_foldOp hagain (hasSort_op_iff.mpr ⟨sorts, by rwa [List.length_map], ?_⟩)
    rw [haveSorts_iff, List.forall₂_map_left_iff]
    exact (haveSorts_iff.mp ha).imp_mem fun t ht s _ hts => ih t ht hts

theorem hasSort_foldToDepth (n : Nat) {t : Term} (h : t.hasSort s = true) :
    (foldToDepth n t).hasSort s = true := by
  induction n generalizing t s with
  | zero => exact h
  | succ n ih => exact hasSort_foldWith (fun _ _ => ih) h

/-- Folding the constants of a well-sorted term keeps its sort. -/
theorem hasSort_foldConstants {t : Term} (h : t.hasSort s = true) :
    t.foldConstants.hasSort s = true :=
  hasSort_foldToDepth t.size h

end HornSaturation.Term
