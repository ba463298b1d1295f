import HornSaturation.Proofs.Solution.Applications

/-!
# Formulas for stated clauses

The check of a stated clause asks about its formula, where the tag of a copy is made of the index of
the clause and the position of the application. The variables of a clause are not named like copies,
so the formula is valid exactly if the interpretations satisfy the clause, and each of its names has
one sort if this is so in the clause.
-/

namespace HornSaturation

namespace Solution

variable {relations : List Relation} {s : Solution} {c : Clause} {index : Nat}

/-- The tag of the copies at a position of a clause. -/
def positionTag (index position : Nat) : String := toString index ++ "_" ++ toString position

theorem positionTag_injective : Function.Injective (positionTag index) := fun _ _ h =>
  toString_injective ((String.append_right_inj _).mp h)

/-- The formulas for the applications of a body are their interpretations, applied to their
arguments. -/
theorem bodyFormulas_eq_ok {position : Nat} {body : List Application} {ts : List Term} :
    s.bodyFormulas index position body = .ok ts ↔
      List.Forall₂ (s.FormulaAt (positionTag index)) (body.zipIdx position) ts := by
  induction body generalizing position ts with
  | nil =>
    rw [List.zipIdx_nil, List.forall₂_nil_left_iff]
    exact ⟨fun h => (Except.ok.inj h).symm, fun h => h ▸ rfl⟩
  | cons a body ih =>
    rw [bodyFormulas, Except.bind_eq_ok, List.zipIdx_cons, List.forall₂_cons_left_iff]
    constructor
    · rintro ⟨i, hi, h⟩
      obtain ⟨ts', hts', heq⟩ := Except.bind_eq_ok.mp h
      exact ⟨_, ts', ⟨i, get_eq_ok.mp hi, rfl⟩, ih.mp hts', (Except.ok.inj heq).symm⟩
    · rintro ⟨_, ts', ⟨i, hi, rfl⟩, hts', rfl⟩
      exact ⟨i, get_eq_ok.mpr hi, Except.bind_eq_ok.mpr ⟨ts', ih.mpr hts', rfl⟩⟩

/-- What the check asks about a clause is what it has to ask. -/
theorem asks_of_clauseFormula? {t? : Option Term} (h : s.clauseFormula? index c = .ok t?) :
    s.Asks (positionTag index) c t? := by
  obtain ⟨ts, hts, h⟩ := Except.bind_eq_ok.mp h
  have hbody := bodyFormulas_eq_ok.mp hts
  dsimp only at h
  split at h
  · next hhead =>
    obtain rfl := Except.ok.inj h
    exact ⟨ts, _, hbody, by rw [hhead]; rfl, rfl⟩
  · next a hhead =>
    obtain ⟨i, hi, h⟩ := Except.bind_eq_ok.mp h
    split at h
    · next hempty =>
      obtain rfl := Except.ok.inj h
      refine ⟨ts, _, hbody, ?_, rfl⟩
      rw [hhead]
      exact ⟨i, get_eq_ok.mp hi, List.isEmpty_iff.mp hempty, rfl⟩
    · next hempty =>
      obtain rfl := Except.ok.inj h
      exact ⟨a, i, hhead, get_eq_ok.mp hi, by simpa using hempty⟩

/-- The formula of a well-sorted clause can be set up. -/
theorem Interprets.exists_clauseFormula? (hs : s.Interprets relations)
    (hr : WellDeclared relations) (hc : c.WellSorted relations) (index : Nat) :
    ∃ t?, s.clauseFormula? index c = .ok t? := by
  have hfits := hc.fits hr
  have hsorted (a : Application) (ha : a ∈ c.body) :=
    hfits.applications a (List.mem_append_left _ ha)
  obtain ⟨ts, hts⟩ := hs.exists_formulas (positionTag index) hsorted 0
  unfold clauseFormula?
  rw [bodyFormulas_eq_ok.mpr hts]
  cases hhead : c.head with
  | none => exact ⟨_, rfl⟩
  | some a =>
    obtain ⟨r, hid, -⟩ := hfits.applications a (List.mem_append_right _ (by simp [hhead]))
    obtain ⟨i, hi, -⟩ := hs a.relation r hid
    dsimp only [bind, Except.bind]
    rw [get_eq_ok.mpr hi]
    dsimp only
    split
    · exact ⟨_, rfl⟩
    · exact ⟨_, rfl⟩

/-- The formula of a clause is missing where the head is interpreted with existential variables. It
is valid exactly if the interpretations satisfy the clause, as no name of the clause is reserved. -/
theorem Interprets.clauseFormula?_spec (hs : s.Interprets relations) (hr : WellDeclared relations)
    (hc : c.WellSorted relations) (hplain : ∀ v ∈ c.occurrences, isReserved v.name = false)
    {t? : Option Term} (h : s.clauseFormula? index c = .ok t?) :
    (t? = none ↔ s.PassesOver c) ∧
    ∀ t, t? = some t → t.hasSort .bool = true ∧
      (∀ v ∈ t.occurrences, v ∈ c.occurrences ∨ s.IsCopyAt (positionTag index) c v) ∧
      ∀ z, (∀ ρ, t.Holds z ρ) ↔ c.SatisfiedBy z (s.Admits z) := by
  have hasks := asks_of_clauseFormula? h
  refine ⟨hasks.eq_none_iff, fun t ht => ?_⟩
  subst ht
  obtain ⟨hsort, hocc, hholds⟩ := hs.formula_spec (hc.fits hr) positionTag_injective hasks
  refine ⟨hsort, hocc, fun z => ⟨(hholds z).2 fun v hv n hcopy => ?_, (hholds z).1⟩⟩
  exact absurd ((hplain v hv).symm.trans hcopy.isReserved) Bool.false_ne_true

/-- Each name of the formula of a clause has one sort if this is so in the clause and its names are
not reserved. -/
theorem Interprets.oneSort_of_plain (hs : s.Interprets relations) (hr : WellDeclared relations)
    (hc : c.WellSorted relations) (hplain : ∀ v ∈ c.occurrences, isReserved v.name = false)
    (hone : OneSort c.occurrences) {vs : List Var}
    (hvs : ∀ v ∈ vs, v ∈ c.occurrences ∨ s.IsCopyAt (positionTag index) c v) : OneSort vs := by
  have wellFormed {n : Nat} {a : Application} {i : Interpretation} (ha : c.body[n]? = some a)
      (hi : s.get? a.relation = some i) : ∃ sorts, i.WellFormed sorts := by
    obtain ⟨r, hid, -⟩ :=
      (hc.fits hr).applications a (List.mem_append_left _ (List.mem_of_getElem? ha))
    exact ⟨r.sorts, hs.wellFormed hid hi⟩
  have apart {v w : Var} (hv : v ∈ c.occurrences) (hw : s.IsCopyAt (positionTag index) c w) :
      v.name ≠ w.name := by
    obtain ⟨n, a, i, ha, hi, hw⟩ := hw
    obtain ⟨sorts, hwell⟩ := wellFormed ha hi
    intro hname
    have hreserved := (hwell.isCopy hw).isReserved
    rw [← hname, hplain v hv] at hreserved
    cases hreserved
  intro v hv w hw hname
  rcases hvs v hv with hv | hv <;> rcases hvs w hw with hw | hw
  · exact hone v hv w hw hname
  · exact absurd hname (apart hv hw)
  · exact absurd hname.symm (apart hw hv)
  · obtain ⟨m, a, i, ha, hi, hv⟩ := hv
    obtain ⟨n, b, j, hb, hj, hw⟩ := hw
    obtain ⟨sorts, hwell⟩ := wellFormed ha hi
    obtain ⟨_, hwell'⟩ := wellFormed hb hj
    obtain rfl := positionTag_injective ((hwell.isCopy hv).tag_inj (hwell'.isCopy hw) hname)
    obtain rfl := Option.some.inj (ha.symm.trans hb)
    obtain rfl := Option.some.inj (hi.symm.trans hj)
    exact hwell.eq_of_name hv hw hname

end Solution

end HornSaturation
