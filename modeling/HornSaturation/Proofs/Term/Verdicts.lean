import HornSaturation.Proofs.Term.Evaluation

/-!
# Verdicts on lists of truth values

A conjunction is settled by its first false argument and a disjunction by its first true one. Both
are one verdict, with the settling truth value as a parameter: it may be taken piece by piece, it is
not changed by a repetition, and a nested list may be flattened.
-/

namespace HornSaturation

/-- The verdict on a list of truth values that is settled by the first one equal to `b`. -/
def verdict (b : Bool) : List (Option Value) → Option Bool
  | [] => some !b
  | x :: xs => do
      let a ← (← x).toBool?
      if a = b then return b else verdict b xs

variable {b : Bool} {x : Option Value} {xs ys xs' ys' : List (Option Value)}

theorem allTrue_eq_verdict (xs : List (Option Value)) : allTrue xs = verdict false xs := by
  induction xs with
  | nil => rfl
  | cons x xs ih => rcases x with _ | ⟨⟨⟩⟩ | n <;> simp [allTrue, verdict, ih, Value.toBool?]

theorem anyTrue_eq_verdict (xs : List (Option Value)) : anyTrue xs = verdict true xs := by
  induction xs with
  | nil => rfl
  | cons x xs ih => rcases x with _ | ⟨⟨⟩⟩ | n <;> simp [anyTrue, verdict, ih, Value.toBool?]

/-- A list is not settled exactly if all its entries are the other truth value. -/
theorem verdict_eq_not : verdict b xs = some (!b) ↔ ∀ x ∈ xs, x = some (.bool !b) := by
  induction xs with
  | nil => simp [verdict]
  | cons x xs ih =>
    rw [List.forall_mem_cons, ← ih]
    rcases x with _ | a | n
    · simp [verdict]
    · cases a <;> cases b <;> simp [verdict, Value.toBool?]
    · simp [verdict, Value.toBool?]

/-- A list whose entries are the other truth value, as far as they are anything, is not settled. -/
theorem eq_not_of_verdict (h : ∀ x ∈ xs, ∀ v, x = some v → v = .bool !b) {a : Bool}
    (ha : verdict b xs = some a) : a = !b := by
  induction xs with
  | nil => exact (Option.some.inj ha).symm
  | cons x xs ih =>
    rw [List.forall_mem_cons] at h
    cases x with
    | none => cases ha
    | some v =>
      obtain rfl := h.1 v rfl
      apply ih h.2
      cases b <;> exact ha

theorem verdict_singleton (b : Bool) (o : Option Bool) : verdict b [o.map .bool] = o := by
  rcases o with _ | ⟨⟨⟩⟩ <;> cases b <;> rfl

/-- What a list of one entry settles is that entry. -/
theorem kept_of_singleton : Kept ((verdict b [x]).map .bool) x := by
  rcases x with _ | a | n
  · exact .refl _
  · rw [show verdict b [some (.bool a)] = some a from verdict_singleton b (some a)]
    exact .refl _
  · exact .none _

/-- A verdict is taken on the first part of a list and, if that does not settle it, on the rest. -/
theorem verdict_append :
    verdict b (xs ++ ys) = (verdict b xs).bind fun a => if a = b then some b else verdict b ys := by
  induction xs with
  | nil => cases b <;> rfl
  | cons x xs ih =>
    rcases x with _ | a | n
    · rfl
    · cases a <;> cases b <;> simp [verdict, ih, Value.toBool?]
    · rfl

theorem verdict_append_congr (h : verdict b xs = verdict b xs')
    (h' : verdict b ys = verdict b ys') :
    verdict b (xs ++ ys) = verdict b (xs' ++ ys') := by
  rw [verdict_append, verdict_append, h, h']

/-- A repetition at the end of a list changes no verdict. -/
theorem verdict_append_mem (h : x ∈ xs) : verdict b (xs ++ [x]) = verdict b xs := by
  rw [verdict_append]
  cases hxs : verdict b xs with
  | none => rfl
  | some a =>
    by_cases ha : a = b
    · simp [ha]
    · obtain rfl : a = !b := Bool.eq_not_of_ne ha
      rw [verdict_eq_not.mp hxs x h]
      simpa using verdict_singleton b (some !b)

/-- A list may be flattened if each part has the verdict of the entry that it stands for. -/
theorem verdict_flatMap {α : Type} {f : α → List α} {value : α → Option Value} {as : List α}
    (h : ∀ a ∈ as, verdict b ((f a).map value) = verdict b [value a]) :
    verdict b ((as.flatMap f).map value) = verdict b (as.map value) := by
  induction as with
  | nil => rfl
  | cons a as ih =>
    rw [List.flatMap_cons, List.map_append, List.map_cons, ← List.singleton_append]
    exact verdict_append_congr (h a List.mem_cons_self)
      (ih fun c hc => h c (List.mem_cons_of_mem a hc))

/-- A list that is not free of the settling value has no other verdict. -/
theorem kept_of_settled (h : ¬ ∀ x ∈ xs, x = some (.bool !b)) :
    Kept ((verdict b xs).map Value.bool) (some (Value.bool b)) := by
  intro v hv
  obtain ⟨a, ha, rfl⟩ := Option.map_eq_some_iff.mp hv
  have hne : a ≠ !b := fun e => h (verdict_eq_not.mp (e ▸ ha))
  rw [show a = b by simpa using Bool.eq_not_of_ne hne]

end HornSaturation
