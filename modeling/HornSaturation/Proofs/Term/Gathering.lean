import HornSaturation.Proofs.Term.ExactArithmetic
import HornSaturation.Proofs.Term.Formulas

/-!
# What folding gathers

A folded conjunction or disjunction gathers what its arguments add, without repetitions, and a
folded sum gathers its constants. What is gathered comes from the arguments, whatever their sorts.
-/

namespace HornSaturation.Term

variable {args : List Term}

/-- What a folded formula adds to a conjunction. -/
def addedConjuncts : Term → List Term
  | .bool true => []
  | .op .and args => args
  | t => [t]

private theorem addedConjuncts_eq_singleton {t : Term} (htrue : t = .bool true → False)
    (hand : ∀ args, t = .op .and args → False) : t.addedConjuncts = [t] := by
  unfold addedConjuncts
  split <;> simp_all

private theorem mem_addConjunct {kept : List Term} {t c : Term} :
    c ∈ addConjunct kept t ↔ c ∈ kept ∨ c ∈ t.addedConjuncts := by
  unfold addConjunct
  split
  · simp [addedConjuncts]
  · simp [addedConjuncts]
  · next htrue hand =>
    rw [addedConjuncts_eq_singleton htrue hand, List.mem_singleton]
    split
    · next h =>
      have ht : t ∈ kept := by simpa using h
      exact ⟨.inl, fun hc => hc.elim id fun hc => hc ▸ ht⟩
    · simp

theorem mem_addConjuncts {kept : List Term} {c : Term} :
    c ∈ args.foldl addConjunct kept ↔ c ∈ kept ∨ ∃ t ∈ args, c ∈ t.addedConjuncts := by
  induction args generalizing kept with
  | nil => simp
  | cons t args ih => rw [List.foldl_cons, ih, mem_addConjunct, List.exists_mem_cons_iff, or_assoc]

theorem addedConjuncts_cases (t : Term) :
    t = .bool true ∧ t.addedConjuncts = [] ∨ t = .op .and t.addedConjuncts ∨
      t.addedConjuncts = [t] := by
  unfold addedConjuncts
  split
  · exact .inl ⟨rfl, rfl⟩
  · exact .inr (.inl rfl)
  · exact .inr (.inr rfl)

private theorem exists_addConjunct (kept : List Term) (t : Term) :
    ∃ added, addConjunct kept t = kept ++ added ∧ ∀ c ∈ added, c ∈ t.addedConjuncts := by
  unfold addConjunct
  split
  · exact ⟨[], (List.append_nil kept).symm, nofun⟩
  · next args => exact ⟨args, rfl, fun c hc => hc⟩
  · next htrue hand =>
    split
    · exact ⟨[], (List.append_nil kept).symm, nofun⟩
    · refine ⟨[t], rfl, fun c hc => ?_⟩
      rwa [addedConjuncts_eq_singleton htrue hand]

/-- What is gathered from more formulas comes after what has been kept so far. -/
theorem exists_addConjuncts (args kept : List Term) :
    ∃ added, args.foldl addConjunct kept = kept ++ added ∧
      ∀ c ∈ added, ∃ t ∈ args, c ∈ t.addedConjuncts := by
  induction args generalizing kept with
  | nil => exact ⟨[], (List.append_nil kept).symm, nofun⟩
  | cons t args ih =>
    obtain ⟨added, hadded, hfrom⟩ := exists_addConjunct kept t
    obtain ⟨more, hmore, hfrom'⟩ := ih (kept ++ added)
    refine ⟨added ++ more, ?_, List.forall_mem_append.mpr ⟨fun c hc => ?_, fun c hc => ?_⟩⟩
    · rw [List.foldl_cons, hadded, hmore, List.append_assoc]
    · exact ⟨t, List.mem_cons_self, hfrom c hc⟩
    · obtain ⟨u, hu, hcu⟩ := hfrom' c hc
      exact ⟨u, List.mem_cons_of_mem t hu, hcu⟩

/-- A formula has the variables of what it adds to a conjunction. -/
theorem mem_occurrences_addedConjuncts {t : Term} {v : Var} :
    v ∈ t.addedConjuncts.flatMap occurrences ↔ v ∈ t.occurrences := by
  rcases addedConjuncts_cases t with ⟨ht, h⟩ | h | h
  · rw [h, ht]; rfl
  · conv_rhs => rw [h, occurrences_op]
  · rw [h, List.flatMap_singleton]

/-- A folded conjunction that can be true is made of the conjuncts that its arguments add. -/
theorem foldAnd_eq_conjoin {arith : Op → List Int → Option Int} {env : Var → Option Value}
    (h : TrueUnder arith env (foldAnd args)) :
    foldAnd args = conjoin (args.foldl addConjunct []) := by
  unfold foldAnd at h ⊢
  split at h
  · simp at h
  · next hfalse =>
    rw [if_neg hfalse]
    dsimp only at h ⊢
    split at h
    · simp at h
    · next hclash => rw [if_neg hclash]

theorem eq_of_isTrue {t : Term} (h : t.isTrue = true) : t = .bool true := by
  unfold isTrue at h
  split at h
  · rfl
  · cases h

theorem eq_of_isFalse {t : Term} (h : t.isFalse = true) : t = .bool false := by
  unfold isFalse at h
  split at h
  · rfl
  · cases h

private theorem mem_addDisjunct {kept : List Term} {t c : Term} :
    c ∈ addDisjunct kept t ↔ c ∈ kept ∨ t ≠ .bool false ∧ c = t := by
  unfold addDisjunct
  split
  · simp
  · next hne =>
    split
    · next h =>
      have ht : t ∈ kept := by simpa using h
      exact ⟨.inl, fun hc => hc.elim id fun hc => hc.2 ▸ ht⟩
    · rw [List.mem_append, List.mem_singleton]
      exact or_congr_right ⟨fun hc => ⟨hne, hc⟩, And.right⟩

theorem mem_addDisjuncts {kept : List Term} {c : Term} :
    c ∈ args.foldl addDisjunct kept ↔ c ∈ kept ∨ c ≠ .bool false ∧ c ∈ args := by
  induction args generalizing kept with
  | nil => simp
  | cons t args ih =>
    rw [List.foldl_cons, ih, mem_addDisjunct, List.mem_cons, or_assoc]
    refine or_congr_right ⟨?_, ?_⟩
    · rintro (⟨hne, rfl⟩ | ⟨hne, hc⟩)
      · exact ⟨hne, .inl rfl⟩
      · exact ⟨hne, .inr hc⟩
    · rintro ⟨hne, rfl | hc⟩
      · exact .inl ⟨hne, rfl⟩
      · exact .inr ⟨hne, hc⟩

/-- A constant is split off a sum or stays, and any other argument stays. -/
theorem splitSum_cons (c : Int) (t : Term) (ts : List Term) :
    (∃ n, t = .int n ∧ splitSum c (t :: ts) = splitSum (c + n) ts) ∨
      splitSum c (t :: ts) = ((splitSum c ts).1, t :: (splitSum c ts).2) := by
  cases t with
  | int n =>
    cases hn : narrow (c + n) with
    | none => exact .inr (by simp [splitSum, hn])
    | some c' =>
      obtain rfl := narrow_eq hn
      exact .inl ⟨n, rfl, by simp [splitSum, hn]⟩
  | bool | var | op | app => exact .inr rfl

theorem mem_of_mem_splitSum {c : Int} {t : Term} (ht : t ∈ (splitSum c args).2) :
    t ∈ args := by
  induction args generalizing c with
  | nil => exact ht
  | cons u args ih =>
    rcases splitSum_cons c u args with ⟨n, -, hs⟩ | hs
    · exact List.mem_cons_of_mem _ (ih (hs ▸ ht))
    · rw [hs] at ht
      exact List.mem_cons.mpr ((List.mem_cons.mp ht).imp_right ih)

/-- The sum of a list of terms, as a folded sum writes it. -/
def joinSum : List Term → Term
  | [] => .int 0
  | [t] => t
  | ts => .op .add ts

/-- The arguments of a folded sum: what no constant is split off from, and the gathered constant. -/
def gathered (args : List Term) : List Term :=
  if (splitSum 0 args).1 = 0 then (splitSum 0 args).2
  else (splitSum 0 args).2 ++ [.int (splitSum 0 args).1]

theorem foldSum_eq (args : List Term) : foldSum args = joinSum (gathered args) := rfl

theorem mem_gathered {t : Term} (ht : t ∈ gathered args) :
    t ∈ args ∨ t = .int (splitSum 0 args).1 := by
  unfold gathered at ht
  split at ht
  · exact .inl (mem_of_mem_splitSum ht)
  · exact (List.mem_append.mp ht).imp mem_of_mem_splitSum List.mem_singleton.mp

/-- Folding a negation negates a constant or the argument. -/
theorem foldOp_not (again : Term → Term) (t : Term) :
    (∃ b, t = .bool b ∧ foldOp again .not [t] = .bool !b) ∨
      foldOp again .not [t] = t.negate := by
  cases t with
  | bool b => exact .inl ⟨b, rfl, rfl⟩
  | int | var | op | app => exact .inr rfl

end HornSaturation.Term
