import HornSaturation.Proofs.Oracle.Answers
import HornSaturation.Solution.Check

/-!
# What checking a solution says

The check asks for the validity of one formula for each clause and stops at the first that is not
confirmed. So a check that succeeds has confirmed all formulas, and clauses without formula have
been passed over. A check that does not succeed has come to a formula that the oracle does not
confirm, whatever it has been asked before.
-/

namespace HornSaturation.Solution

variable {α : Type} {formula? : α → Except Error (Option Term)} {as : List α} {o o' : Oracle}

/-- Checking formulas only asks questions. -/
theorem checkAll_asked : o.Asked (checkAll formula? as o).2 := by
  induction as generalizing o with
  | nil => exact .refl o
  | cons a as ih =>
    unfold checkAll
    split
    · exact .refl o
    · exact ih
    · next t _ =>
      have hasked := o.checkValid_asked t
      split
      · next hvalid =>
        rw [hvalid] at hasked
        exact hasked.trans ih
      · next hvalid =>
        rw [hvalid] at hasked
        exact hasked

/-- A check that succeeds has confirmed all formulas. -/
theorem checkAll_confirms (h : (checkAll formula? as o).1 = .ok true) :
    ∀ a ∈ as, ∃ t?, formula? a = .ok t? ∧ ∀ t, t? = some t → (o.checkValid t).1 = .valid := by
  induction as generalizing o with
  | nil => exact nofun
  | cons a as ih =>
    unfold checkAll at h
    split at h
    · cases h
    · next hnone => exact List.forall_mem_cons.mpr ⟨⟨none, hnone, nofun⟩, ih h⟩
    · next t hsome =>
      have hasked := o.checkValid_asked t
      split at h
      · next o₁ hvalid =>
        rw [hvalid] at hasked
        refine List.forall_mem_cons.mpr ⟨⟨some t, hsome, fun t' ht' => ?_⟩, fun b hb => ?_⟩
        · obtain rfl := Option.some.inj ht'
          rw [hvalid]
        · obtain ⟨t?, ht?, hconfirmed⟩ := ih h b hb
          refine ⟨t?, ht?, fun t' ht' => ?_⟩
          rw [← hasked.checkValid_fst]
          exact hconfirmed t' ht'
      · cases h

/-- A check that comes to no error succeeds, unless one of the formulas is not confirmed. -/
theorem checkAll_or (hall : ∀ a ∈ as, ∃ t?, formula? a = .ok t?) :
    (checkAll formula? as o).1 = .ok true ∨ (checkAll formula? as o).1 = .ok false ∧
      ∃ a ∈ as, ∃ t, formula? a = .ok (some t) ∧ (o.checkValid t).1 ≠ .valid := by
  induction as generalizing o with
  | nil => exact .inl rfl
  | cons a as ih =>
    obtain ⟨⟨t?, ht?⟩, hall⟩ := List.forall_mem_cons.mp hall
    unfold checkAll
    rw [ht?]
    cases t? with
    | none =>
      refine (ih hall).imp_right fun ⟨hfalse, b, hb, hopen⟩ => ?_
      exact ⟨hfalse, b, List.mem_cons_of_mem a hb, hopen⟩
    | some t =>
      have hasked := o.checkValid_asked t
      dsimp only
      split
      · next hvalid =>
        rw [hvalid] at hasked
        refine (ih hall).imp_right fun ⟨hfalse, b, hb, t', ht', hopen⟩ => ?_
        exact ⟨hfalse, b, List.mem_cons_of_mem a hb, t', ht', hasked.checkValid_fst t' ▸ hopen⟩
      · next hopen hanswer =>
        refine .inr ⟨rfl, a, List.mem_cons_self, t, ht?, fun hvalid => hopen ?_⟩
        rw [← hvalid, hanswer]

/-- Formulas that pass the check of a sound oracle without assertions are true. -/
theorem checkAll_spec {z : ZeroDivision} {n : Nat} (ho : o.PlainSince n)
    (h : checkAll formula? as o = (.ok true, o')) (hs : o'.SoundSince z n) :
    ∀ a ∈ as, ∃ t?, formula? a = .ok t? ∧
      ∀ t, t? = some t → t.hasSort .bool = true → ∀ ρ, t.Holds z ρ := by
  induction as generalizing o with
  | nil => exact nofun
  | cons a as ih =>
    unfold checkAll at h
    split at h
    · cases h
    · next hnone => exact List.forall_mem_cons.mpr ⟨⟨none, hnone, nofun⟩, ih ho h⟩
    · next t hsome =>
      split at h
      · next o₁ hvalid =>
        have hl := Oracle.checkValid_later hvalid
        refine List.forall_mem_cons.mpr
          ⟨⟨some t, hsome, fun t' ht' hsort ρ => ?_⟩, ih (ho.later hl) h⟩
        obtain rfl := Option.some.inj ht'
        have hl' : o₁.Later o' := by
          have hrest : o₁.Asked (checkAll formula? as o₁).2 := checkAll_asked
          rw [h] at hrest
          exact hrest.toLater
        exact Oracle.holds_of_valid hvalid ho (hs.of_later hl') hsort ρ
      · cases h

end HornSaturation.Solution
