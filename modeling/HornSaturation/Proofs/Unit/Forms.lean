import HornSaturation.Proofs.Data.Results
import HornSaturation.Proofs.Unit.Arguments

/-!
# Forms of a unit

A unit can be brought to another occurrence and to its canonical form. Neither changes its head, its
well-formedness or what it admits.
-/

namespace HornSaturation.UnitClause

variable {z : ZeroDivision} {relations : List Relation} {u u' : UnitClause} {vars : List Var}

/-- A unit that can stand for another: it has the same head and admits the same. -/
structure SameAs (relations : List Relation) (u u' : UnitClause) : Prop where
  head : u'.head = u.head
  polarity : u'.polarity = u.polarity
  wellFormed : u'.WellFormed relations
  admits : ∀ z xs, u'.Admits z relations xs ↔ u.Admits z relations xs

theorem SameAs.trans {u'' : UnitClause} (h : u.SameAs relations u')
    (h' : u'.SameAs relations u'') : u.SameAs relations u'' :=
  ⟨h'.head.trans h.head, h'.polarity.trans h.polarity, h'.wellFormed,
    fun z xs => (h'.admits z xs).trans (h.admits z xs)⟩

/-- Moving a unit to an occurrence keeps what it admits. -/
theorem atOccurrence_spec {occurrence : Nat} (hw : u.WellFormed relations)
    (h : u.atOccurrence relations occurrence = .ok u') :
    u.SameAs relations u' ∧ u'.occurrence = occurrence := by
  obtain ⟨vars, hvars, hocc⟩ := hw.arguments
  obtain ⟨s, hs, h⟩ := Except.bind_eq_ok.mp h
  obtain rfl := Except.ok.inj h
  obtain ⟨sources, targets, moved, rfl, hm, hst⟩ := moveArguments_spec hvars hs
  have hg : Moves vars moved [] [] (Substitution.rename sources targets) := by
    simpa using moves_rename hvars hm hst .nil (by simp) .nil (by simp) rfl
  have hkeep : ∀ v ∈ u.constraint.occurrences, v ∉ vars →
      v ∈ ([] : List Var) ∨ Substitution.rename sources targets v = v ∧ v ∉ ([] : List Var) := by
    refine fun v _ hv => .inr ⟨Substitution.rename_of_notMem ?_, by simp⟩
    rcases hst with ⟨rfl, -⟩ | ⟨rfl, -⟩
    · exact hv
    · simp
  have hargs : ({ u with
      occurrence, constraint := u.constraint.substitute (.ofVars sources targets) } :
        UnitClause).arguments relations = .ok moved := hm
  obtain ⟨hwellFormed, hadmits⟩ :=
    moves_spec hw hvars hargs hg (by simp) hkeep (Term.substitute_ofVars _ _ _)
  exact ⟨⟨rfl, rfl, hwellFormed, hadmits⟩, rfl⟩

/-- The names of locals in canonical form are different, of the sorts of the locals and not marked. -/
theorem canonicalLocals_spec (locals : List Var) :
    (locals.mapIdx canonicalLocal).Nodup ∧
      (∀ v ∈ locals.mapIdx canonicalLocal, ¬ v.IsMarked) ∧
      (locals.mapIdx canonicalLocal).map Var.sort = locals.map Var.sort := by
  refine ⟨?_, fun v hv => ?_, ?_⟩
  · rw [List.nodup_iff_injective_get]
    intro i j hij
    simp only [List.get_eq_getElem, List.getElem_mapIdx] at hij
    exact Fin.ext (canonicalLocal_inj hij)
  · obtain ⟨i, hi, rfl⟩ := List.mem_mapIdx.mp hv
    exact canonicalLocal_not_isMarked i _
  · refine List.ext_getElem (by simp) fun i hi hi' => ?_
    simp [canonicalLocal]

/-- Bringing a unit to its canonical form keeps what it admits. -/
theorem canonical_spec (hw : u.WellFormed relations) (h : u.canonical relations = .ok u') :
    u.SameAs relations u' ∧ u'.occurrence = 0 := by
  obtain ⟨m, hm, h⟩ := Except.bind_eq_ok.mp h
  obtain ⟨locals, hlocals, h⟩ := Except.bind_eq_ok.mp h
  obtain rfl := Except.ok.inj h
  obtain ⟨hsame, hocc⟩ := atOccurrence_spec hw hm
  obtain ⟨vars, hvars, -⟩ := hsame.wellFormed.arguments
  obtain ⟨hnodup, hunmarked, hsort⟩ := canonicalLocals_spec locals
  have hg : Moves vars vars locals (locals.mapIdx canonicalLocal)
      (Substitution.rename locals (locals.mapIdx canonicalLocal)) := by
    have hstays : ({ m with occurrence := m.occurrence } : UnitClause).arguments relations =
        .ok vars := hvars
    simpa using moves_rename hvars hstays (.inr ⟨rfl, rfl, rfl⟩)
      (locals_nodup hlocals) (fun v hv => ((mem_locals hvars hlocals).mp hv).2) hnodup hunmarked
      hsort
  have hfit : ∀ v ∈ m.constraint.occurrences, v ∉ vars → v ∈ locals ∨
      Substitution.rename locals (locals.mapIdx canonicalLocal) v = v ∧
        v ∉ locals.mapIdx canonicalLocal :=
    fun v hv hvv => .inl ((mem_locals hvars hlocals).mpr ⟨hv, hvv⟩)
  have hargs : UnitClause.arguments relations { m with
      constraint := m.constraint.substitute (.ofVars locals (locals.mapIdx canonicalLocal)) } =
      .ok vars := hvars
  obtain ⟨hwellFormed, hadmits⟩ := moves_spec hsame.wellFormed hvars hargs hg hunmarked hfit
    (Term.substitute_ofVars _ _ _)
  exact ⟨hsame.trans ⟨rfl, rfl, hwellFormed, hadmits⟩, hocc⟩

end HornSaturation.UnitClause
