import HornSaturation.Proofs.Term.Gathering
import HornSaturation.Proofs.Term.Mentions

/-!
# Folding brings in nothing

Whatever the sorts of its subterms, a term keeps no variables and no relation applications but its
own when its constants are folded. Each rule gives a constant, an argument, or an operator applied
to what it has gathered from the arguments.
-/

namespace HornSaturation.Term

variable {V : Var → Prop} {R : RelationId → Prop}

/-- A term mentions nothing of some kind that the terms of a list do not mention. -/
def Within (V : Var → Prop) (R : RelationId → Prop) (args : List Term) (t : Term) : Prop :=
  t.Mentions V R → ∃ u ∈ args, u.Mentions V R

namespace Within

variable {args args' : List Term} {t u : Term}

theorem bool (b : Bool) : Within V R args (.bool b) := False.elim

theorem int (n : Int) : Within V R args (.int n) := False.elim

theorem mem (h : t ∈ args) : Within V R args t := fun hm => ⟨t, h, hm⟩

theorem op {o : Op} (h : ∀ t ∈ args', Within V R args t) : Within V R args (.op o args') := by
  intro hm
  obtain ⟨t, ht, hm⟩ := (mentions_op o args').mp hm
  exact h t ht hm

theorem self (o : Op) : Within V R args (.op o args) := op fun _ => mem

theorem negate (h : Within V R args t) : Within V R args t.negate := fun hm =>
  h (mentions_negate.mp hm)

theorem conjoin (h : ∀ t ∈ args', Within V R args t) : Within V R args (conjoin args') := by
  intro hm
  obtain ⟨t, ht, hm⟩ := mentions_conjoin.mp hm
  exact h t ht hm

theorem disjoin (h : ∀ t ∈ args', Within V R args t) : Within V R args (disjoin args') := by
  intro hm
  obtain ⟨t, ht, hm⟩ := exists_of_mentions_disjoin hm
  exact h t ht hm

end Within

variable {args : List Term}

theorem within_foldAnd : Within V R args (foldAnd args) := by
  have hkept : ∀ c ∈ args.foldl addConjunct [], Within V R args c := fun c hc => by
    simp only [mem_addConjuncts, List.not_mem_nil, false_or] at hc
    obtain ⟨t, ht, hct⟩ := hc
    refine fun hm => ⟨t, ht, ?_⟩
    rcases addedConjuncts_cases t with ⟨-, h⟩ | h | h
    · simp [h] at hct
    · rw [h, mentions_op]
      exact ⟨c, hct, hm⟩
    · rw [h, List.mem_singleton] at hct
      rwa [hct] at hm
  unfold foldAnd
  split
  · exact .bool false
  · dsimp only
    split
    · exact .bool false
    · exact .conjoin hkept

theorem within_foldOr : Within V R args (foldOr args) := by
  unfold foldOr
  split
  · exact .bool true
  · refine .disjoin fun c hc => ?_
    simp only [mem_addDisjuncts, List.not_mem_nil, false_or] at hc
    exact .mem hc.2

theorem within_foldEquality {o : Op} : Within V R args (foldEquality o args) := by
  unfold foldEquality
  split
  · split
    · exact .bool _
    · exact .self o
  · exact .self o

theorem within_foldComparison {o : Op} : Within V R args (foldComparison o args) := by
  unfold foldComparison
  split
  · exact .bool _
  · split
    · exact .bool _
    · exact .self o
  · exact .self o

theorem within_foldSum : Within V R args (foldSum args) := by
  have hmem : ∀ t ∈ gathered args, Within V R args t := fun t ht => by
    rcases mem_gathered ht with ha | rfl
    · exact .mem ha
    · exact .int _
  rw [foldSum_eq]
  unfold joinSum
  split
  · exact .int 0
  · next t h => exact hmem t (by simp [h])
  · exact .op hmem

theorem within_foldProduct : Within V R args (foldProduct args) := by
  unfold foldProduct
  split
  · split
    · exact .int 0
    split
    · exact .mem (by simp)
    split
    · exact .mem (by simp)
    · exact .self _
  · exact .self _

theorem within_foldArithmetic {o : Op} : Within V R args (foldArithmetic o args) := by
  unfold foldArithmetic
  split
  · exact .int _
  unfold foldIdentities
  split
  · exact within_foldSum
  · exact within_foldProduct
  · split
    · exact .mem (by simp)
    · exact .self _
  · exact .self _

/-- Folding an operator brings in nothing, if folding a rebuilt term once more does not. -/
theorem within_foldOp {again : Term → Term}
    (hagain : ∀ t, (again t).Mentions V R → t.Mentions V R) {o : Op} :
    Within V R args (foldOp again o args) := by
  unfold foldOp
  split
  · exact within_foldAnd
  · exact within_foldOr
  · exact .bool _
  · exact .negate (.mem (by simp))
  · next a b =>
    split
    · exact .bool true
    split
    · exact .mem (by simp)
    split
    · have hnegate : Within V R [a, b] a.negate := .negate (.mem (by simp))
      exact fun hm => hnegate (hagain _ hm)
    · exact .self _
  · split
    · exact .mem (by simp)
    split
    · exact .mem (by simp)
    split
    · exact .mem (by simp)
    · exact .self _
  all_goals first
    | exact within_foldEquality
    | exact within_foldComparison
    | exact within_foldArithmetic
    | exact .self _

theorem mentions_foldWith {again : Term → Term}
    (hagain : ∀ t, (again t).Mentions V R → t.Mentions V R) (t : Term) :
    (t.foldWith again).Mentions V R → t.Mentions V R := by
  induction t using structural with
  | bool b => exact id
  | int n => exact id
  | var v => exact id
  | op o args ih =>
    intro hm
    rw [foldWith, foldListWith_eq] at hm
    obtain ⟨u, hu, hm⟩ := within_foldOp hagain hm
    obtain ⟨t, ht, rfl⟩ := List.mem_map.mp hu
    exact (mentions_op o args).mpr ⟨t, ht, ih t ht hm⟩
  | app name r args ih =>
    intro hm
    rw [foldWith, foldListWith_eq, mentions_app] at hm
    rw [mentions_app]
    refine hm.imp_right ?_
    rintro ⟨u, hu, hm⟩
    obtain ⟨t, ht, rfl⟩ := List.mem_map.mp hu
    exact ⟨t, ht, ih t ht hm⟩

theorem mentions_foldToDepth (n : Nat) (t : Term) :
    (foldToDepth n t).Mentions V R → t.Mentions V R := by
  induction n generalizing t with
  | zero => exact id
  | succ n ih => exact mentions_foldWith ih t

/-- Folding the constants of a term brings in nothing. -/
theorem mentions_foldConstants {t : Term} (h : t.foldConstants.Mentions V R) : t.Mentions V R :=
  mentions_foldToDepth t.size t h

theorem mem_occurrences_foldConstants {t : Term} {v : Var} (hv : v ∈ t.foldConstants.occurrences) :
    v ∈ t.occurrences :=
  mentions_iff_mem_occurrences.mp (mentions_foldConstants (mentions_iff_mem_occurrences.mpr hv))

end HornSaturation.Term
