import HornSaturation.Proofs.Oracle.Answers

/-!
# What an oracle is asked about

The oracle logs all formulas that are asserted when it checks them. A step asks only about formulas
of a kind if every formula that it adds to the log is of this kind, or was asserted before.
-/

namespace HornSaturation.Oracle

variable {Q : Term → Prop} {o o' o'' : Oracle}

/-- Whatever an oracle has been asked since an earlier state was about formulas of a kind, beside
those that had been asserted before. -/
structure AsksOnly (Q : Term → Prop) (o o' : Oracle) : Prop where
  assertions : o'.assertions = o.assertions
  asked : ∃ log, o'.asked = o.asked ++ log ∧ ∀ ts ∈ log, ∀ t ∈ ts, t ∈ o.assertions ∨ Q t

namespace AsksOnly

/-- What has no effect on the assertions and the log asks nothing. -/
theorem of_eq (hassertions : o'.assertions = o.assertions) (hasked : o'.asked = o.asked) :
    o.AsksOnly Q o' :=
  ⟨hassertions, [], by rw [hasked, List.append_nil], by simp⟩

theorem refl (o : Oracle) : o.AsksOnly Q o := .of_eq rfl rfl

theorem trans (h : o.AsksOnly Q o') (h' : o'.AsksOnly Q o'') : o.AsksOnly Q o'' := by
  obtain ⟨log, hlog, hall⟩ := h.asked
  obtain ⟨log', hlog', hall'⟩ := h'.asked
  refine ⟨h'.assertions.trans h.assertions, log ++ log', ?_, ?_⟩
  · rw [hlog', hlog, List.append_assoc]
  · rw [h.assertions] at hall'
    exact List.forall_mem_append.mpr ⟨hall, hall'⟩

end AsksOnly

/-- A check asks about the formulas that it is given. -/
theorem asksOnly_checkWith {ts : List Term} (h : ∀ t ∈ ts, Q t) (o : Oracle) :
    o.AsksOnly Q (o.checkWith ts).2 := by
  refine ⟨(checkWith_spec rfl).1.assertions, [o.assertions ++ ts], asked_checkWith o ts, ?_⟩
  rw [List.forall_mem_singleton]
  exact fun t ht => (List.mem_append.mp ht).imp_right (h t)

/-- A check for validity asks about the negation of a formula. -/
theorem asksOnly_checkValid {t : Term} (h : Q t.negate) (o : Oracle) :
    o.AsksOnly Q (o.checkValid t).2 := by
  rw [checkValid_eq]
  exact asksOnly_checkWith (List.forall_mem_singleton.mpr h) o

theorem asksOnly_implies {premise conclusion : Term}
    (h : Q (Term.implication premise conclusion).negate) (o : Oracle) :
    o.AsksOnly Q (o.implies premise conclusion).2 := by
  have hcount : o.AsksOnly Q { o with implications := o.implications + 1 } := .of_eq rfl rfl
  have hvalid := asksOnly_checkValid h { o with implications := o.implications + 1 }
  unfold implies
  dsimp only
  split <;>
  · next heq =>
    rw [heq] at hvalid
    exact hcount.trans hvalid

/-- Announcing theories and relations asks nothing. -/
theorem asksOnly_declare (o : Oracle) (ts : List Theory) (rs : List Relation) :
    o.AsksOnly Q (rs.foldl declareRelation (o.declareTheories ts)) := by
  have hrelation (o : Oracle) (r : Relation) : o.AsksOnly Q (o.declareRelation r) := by
    unfold declareRelation
    split
    · exact .refl o
    · exact .of_eq rfl rfl
  have hrelations (o : Oracle) : o.AsksOnly Q (rs.foldl declareRelation o) := by
    induction rs generalizing o with
    | nil => exact .refl o
    | cons r rs ih => exact (hrelation o r).trans (ih _)
  have htheories : o.AsksOnly Q (o.declareTheories ts) := .of_eq rfl rfl
  exact htheories.trans (hrelations _)

end HornSaturation.Oracle
