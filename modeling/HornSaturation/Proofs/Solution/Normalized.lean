import HornSaturation.Proofs.Clause.Normalization
import HornSaturation.Proofs.Solution.Applications

/-!
# Formulas for normalized clauses

A use of a relation is an application to argument symbols, so a normalized clause can be spelled out
as a stated one. The formula that the check asks about is the formula of this clause. Its symbols
are marked or plain, and so none of them is a copy of an existential variable.
-/

namespace HornSaturation

variable {z : ZeroDivision} {relations : List Relation}

/-- A use as an application to its argument symbols. -/
def Atom.spelled (relations : List Relation) (a : Atom) : Application :=
  ⟨a.relation, ((a.arguments relations).toOption.getD []).map .var⟩

theorem Atom.spelled_eq {a : Atom} {vars : List Var} (h : a.arguments relations = .ok vars) :
    a.spelled relations = ⟨a.relation, vars.map .var⟩ := by
  rw [spelled, h]
  rfl

/-- A use stands for the same ground atom when it is spelled out. -/
theorem Atom.denotes_spelled {a : Atom} (h : ∃ vars, a.arguments relations = .ok vars)
    {ρ : Valuation} {g : GroundAtom} :
    (a.spelled relations).Denotes z ρ g ↔ a.Denotes relations ρ g := by
  obtain ⟨vars, hvars⟩ := h
  have hvalues : (vars.map Term.var).map (Term.meaning z ρ) = (vars.map ρ.value).map some := by
    rw [List.map_map, List.map_map]
    rfl
  rw [spelled_eq hvars, Application.Denotes, Denotes, hvalues,
    (List.map_injective_iff.mpr fun _ _ => Option.some.inj).eq_iff]
  refine and_congr_right fun _ => ⟨fun heq => ⟨vars, hvars, heq⟩, ?_⟩
  rintro ⟨vars', hvars', heq⟩
  obtain rfl := Except.ok.inj (hvars.symm.trans hvars')
  exact heq

namespace NormalizedClause

/-- A normalized clause as a stated one, with its uses spelled out. -/
def spelled (relations : List Relation) (c : NormalizedClause) : Clause :=
  ⟨c.body.map (Atom.spelled relations), some c.constraint, c.head.map (Atom.spelled relations)⟩

variable {c : NormalizedClause}

theorem mem_applications_spelled {b : Application} :
    b ∈ (c.spelled relations).applications ↔ ∃ a ∈ c.uses, b = a.spelled relations := by
  have heq : (c.spelled relations).applications = c.uses.map (Atom.spelled relations) := by
    cases hhead : c.head <;> simp [Clause.applications, spelled, uses, hhead]
  rw [heq, List.mem_map]
  exact exists_congr fun a => and_congr_right fun _ => eq_comm

namespace Regular

theorem fits_spelled (hc : c.Regular relations) : (c.spelled relations).Fits relations := by
  refine ⟨hc.sorted, fun b hb => ?_⟩
  obtain ⟨a, ha, rfl⟩ := mem_applications_spelled.mp hb
  obtain ⟨vars, hvars⟩ := hc.known a ha
  rw [Atom.spelled_eq hvars]
  obtain ⟨r, hr, rfl⟩ := Atom.arguments_eq_ok.mp hvars
  refine ⟨r, hr, ?_⟩
  rw [Term.haveSorts_iff, ← r.arguments_sort a.occurrence, List.forall₂_map_left_iff,
    List.forall₂_map_right_iff, List.forall₂_same]
  exact fun v _ => Term.hasSort_var.mpr rfl

/-- A clause says the same when it is spelled out. -/
theorem satisfiedBy_spelled (hc : c.Regular relations) {I : RelationId → List Value → Prop} :
    (c.spelled relations).SatisfiedBy z I ↔ c.SatisfiedBy z relations I := by
  refine forall₂_congr fun body head => imp_congr_left ?_
  refine exists_congr fun ρ => and_congr_right fun _ => and_congr ?_ ?_
  · rw [spelled, List.forall₂_map_left_iff]
    have hdenotes {a : Atom} (ha : a ∈ c.body) {g : GroundAtom} :=
      Atom.denotes_spelled (z := z) (ρ := ρ) (g := g) (hc.known a (mem_uses_of_body ha))
    exact ⟨fun h => h.imp_mem fun a ha g _ => (hdenotes ha).mp,
      fun h => h.imp_mem fun a ha g _ => (hdenotes ha).mpr⟩
  · cases hhead : c.head with
    | none => simp only [spelled, hhead, Option.map_none, Clause.HeadDenotes, Atom.HeadDenotes]
    | some a =>
      simp only [spelled, hhead, Option.map_some, Clause.HeadDenotes, Atom.HeadDenotes]
      exact Atom.denotes_spelled (hc.known a (mem_uses_of_head hhead))

/-- The symbols of a clause are marked or plain. -/
theorem isMarked_or_plain (hc : c.Regular relations) {v : Var}
    (hv : v ∈ (c.spelled relations).occurrences) : v.IsMarked ∨ isReserved v.name = false := by
  obtain ⟨t, ht, hvt⟩ := List.mem_flatMap.mp hv
  rcases List.mem_append.mp ht with ht | ht
  · obtain ⟨b, hb, htb⟩ := List.mem_flatMap.mp ht
    obtain ⟨a, ha, rfl⟩ := mem_applications_spelled.mp hb
    obtain ⟨vars, hvars⟩ := hc.known a ha
    rw [Atom.spelled_eq hvars] at htb
    obtain ⟨w, hw, rfl⟩ := List.mem_map.mp htb
    obtain rfl := List.mem_singleton.mp hvt
    exact .inl (Atom.arguments_isMarked hvars hw)
  · obtain rfl : t = c.constraint := by simpa [spelled] using ht
    exact (hc.occurrences v hvt).imp_left fun ⟨a, _, vars, hvars, hmem⟩ =>
      Atom.arguments_isMarked hvars hmem

end Regular

end NormalizedClause

namespace Solution

variable {s : Solution} {c : NormalizedClause}

/-- The tag of the copies at a position of a normalized body. -/
def useTag (position : Nat) : String := "b" ++ toString position

theorem useTag_injective : Function.Injective useTag := fun _ _ h =>
  toString_injective ((String.append_right_inj _).mp h)

private theorem notMem_useTag (n : Nat) : '@' ∉ (useTag n).toList := by
  simp only [useTag, String.toList_append, List.mem_append, not_or]
  exact ⟨by decide, notMem_toString rfl n⟩

/-- The formulas for the uses of a body are those for the applications that they spell. -/
theorem bodyUseFormulas_eq_ok {position : Nat} {body : List Atom} {ts : List Term}
    (hknown : ∀ a ∈ body, ∃ vars, a.arguments relations = .ok vars) :
    s.bodyUseFormulas relations position body = .ok ts ↔
      List.Forall₂ (s.FormulaAt useTag) ((body.map (Atom.spelled relations)).zipIdx position)
        ts := by
  induction body generalizing position ts with
  | nil =>
    rw [List.map_nil, List.zipIdx_nil, List.forall₂_nil_left_iff]
    exact ⟨fun h => (Except.ok.inj h).symm, fun h => h ▸ rfl⟩
  | cons a body ih =>
    obtain ⟨⟨vars, hvars⟩, hknown⟩ := List.forall_mem_cons.mp hknown
    rw [bodyUseFormulas, Except.bind_eq_ok, List.map_cons, List.zipIdx_cons,
      List.forall₂_cons_left_iff, Atom.spelled_eq hvars]
    constructor
    · rintro ⟨vars', hvars', h⟩
      obtain rfl := Except.ok.inj (hvars.symm.trans hvars')
      obtain ⟨i, hi, h⟩ := Except.bind_eq_ok.mp h
      obtain ⟨ts', hts', heq⟩ := Except.bind_eq_ok.mp h
      exact ⟨_, ts', ⟨i, get_eq_ok.mp hi, rfl⟩, (ih hknown).mp hts', (Except.ok.inj heq).symm⟩
    · rintro ⟨_, ts', ⟨i, hi, rfl⟩, hts', rfl⟩
      exact ⟨vars, hvars, Except.bind_eq_ok.mpr ⟨i, get_eq_ok.mpr hi,
        Except.bind_eq_ok.mpr ⟨ts', (ih hknown).mpr hts', rfl⟩⟩⟩

/-- The formula of a head is the one for the application that it spells; it is missing where the
head is interpreted with existential variables. -/
theorem headFormula?_spec {head : Option Atom} {u? : Option Term}
    (h : s.headFormula? relations head = .ok u?) :
    (u? = none → ∃ a i, head = some a ∧ s.get? a.relation = some i ∧ i.existentials ≠ []) ∧
    ∀ u, u? = some u → s.IsHeadFormula (head.map (Atom.spelled relations)) u := by
  cases head with
  | none =>
    obtain rfl := Except.ok.inj h
    exact ⟨nofun, fun u hu => (Option.some.inj hu).symm⟩
  | some a =>
    obtain ⟨i, hi, h⟩ := Except.bind_eq_ok.mp h
    split at h
    · next hempty =>
      obtain ⟨vars, hvars, h⟩ := Except.bind_eq_ok.mp h
      obtain rfl := Except.ok.inj h
      refine ⟨nofun, fun u hu => ⟨i, get_eq_ok.mp hi, List.isEmpty_iff.mp hempty, ?_⟩⟩
      rw [Atom.spelled_eq hvars]
      exact (Option.some.inj hu).symm
    · next hempty =>
      obtain rfl := Except.ok.inj h
      exact ⟨fun _ => ⟨a, i, rfl, get_eq_ok.mp hi, by simpa using hempty⟩, nofun⟩

/-- What the check asks about a normalized clause is what it has to ask about the clause that this
spells. -/
theorem asks_of_normalizedFormula? (hc : c.Regular relations) {t? : Option Term}
    (h : s.normalizedFormula? relations c = .ok t?) :
    s.Asks useTag (c.spelled relations) t? := by
  obtain ⟨head?, hhead, h⟩ := Except.bind_eq_ok.mp h
  obtain ⟨hnone, hsome⟩ := headFormula?_spec hhead
  cases head? with
  | none =>
    obtain rfl := Except.ok.inj h
    obtain ⟨a, i, ha, hi, hne⟩ := hnone rfl
    exact ⟨a.spelled relations, i, by rw [NormalizedClause.spelled, ha]; rfl, hi, hne⟩
  | some u =>
    obtain ⟨ts, hts, h⟩ := Except.bind_eq_ok.mp h
    obtain rfl := Except.ok.inj h
    exact ⟨ts, u, (bodyUseFormulas_eq_ok fun a ha =>
      hc.known a (NormalizedClause.Regular.mem_uses_of_body ha)).mp hts, hsome u rfl, rfl⟩

/-- Every declared relation has an interpretation, whatever that is. -/
def Complete (relations : List Relation) (s : Solution) : Prop :=
  ∀ id r, relation? relations id = some r → ∃ i, s.get? id = some i

/-- The interpretation of a use can be looked up. -/
theorem Complete.exists_get (hs : s.Complete relations) {a : Atom} {vars : List Var}
    (ha : a.arguments relations = .ok vars) : ∃ i, s.get a.relation = .ok i := by
  obtain ⟨r, hr, -⟩ := Atom.arguments_eq_ok.mp ha
  obtain ⟨i, hi⟩ := hs a.relation r hr
  exact ⟨i, get_eq_ok.mpr hi⟩

/-- The formulas for the uses of a body can be set up. -/
theorem Complete.exists_bodyUseFormulas (hs : s.Complete relations) {body : List Atom}
    (hknown : ∀ a ∈ body, ∃ vars, a.arguments relations = .ok vars) (position : Nat) :
    ∃ ts, s.bodyUseFormulas relations position body = .ok ts := by
  induction body generalizing position with
  | nil => exact ⟨[], rfl⟩
  | cons a body ih =>
    obtain ⟨⟨vars, hvars⟩, hknown⟩ := List.forall_mem_cons.mp hknown
    obtain ⟨i, hi⟩ := hs.exists_get hvars
    obtain ⟨ts, hts⟩ := ih hknown (position + 1)
    exact ⟨_, Except.bind_eq_ok.mpr ⟨vars, hvars, Except.bind_eq_ok.mpr ⟨i, hi,
      Except.bind_eq_ok.mpr ⟨ts, hts, rfl⟩⟩⟩⟩

/-- The formula of a head can be set up. -/
theorem Complete.exists_headFormula? (hs : s.Complete relations) (hc : c.Known relations) :
    ∃ u?, s.headFormula? relations c.head = .ok u? := by
  cases hh : c.head with
  | none => exact ⟨_, rfl⟩
  | some a =>
    obtain ⟨vars, hvars⟩ := hc a (NormalizedClause.Regular.mem_uses_of_head hh)
    obtain ⟨i, hi⟩ := hs.exists_get hvars
    by_cases hempty : i.existentials.isEmpty = true
    · exact ⟨_, Except.bind_eq_ok.mpr ⟨i, hi,
        (if_pos hempty).trans (Except.bind_eq_ok.mpr ⟨vars, hvars, rfl⟩)⟩⟩
    · exact ⟨_, Except.bind_eq_ok.mpr ⟨i, hi, if_neg hempty⟩⟩

/-- The formula of a normalized clause can be set up. -/
theorem Complete.exists_normalizedFormula? (hs : s.Complete relations) (hc : c.Known relations) :
    ∃ t?, s.normalizedFormula? relations c = .ok t? := by
  obtain ⟨u?, hu⟩ := hs.exists_headFormula? hc
  obtain ⟨ts, hts⟩ := hs.exists_bodyUseFormulas
    (fun a ha => hc a (NormalizedClause.Regular.mem_uses_of_body ha)) 0
  cases u? with
  | none => exact ⟨none, Except.bind_eq_ok.mpr ⟨none, hu, rfl⟩⟩
  | some u => exact ⟨_, Except.bind_eq_ok.mpr ⟨some u, hu, Except.bind_eq_ok.mpr ⟨ts, hts, rfl⟩⟩⟩

theorem Interprets.exists_normalizedFormula? (hs : s.Interprets relations)
    (hc : c.Regular relations) : ∃ t?, s.normalizedFormula? relations c = .ok t? := by
  have hcomplete : s.Complete relations := fun id r hr => (hs id r hr).imp fun _ h => h.1
  exact hcomplete.exists_normalizedFormula? hc.known

/-- The formula of a clause is missing where the head is interpreted with existential variables, and
otherwise it is valid exactly if the interpretations satisfy the clause. -/
theorem Interprets.normalizedFormula?_spec (hs : s.Interprets relations)
    (hc : c.Regular relations) {t? : Option Term}
    (h : s.normalizedFormula? relations c = .ok t?) :
    (t? = none ↔ s.PassesOver (c.spelled relations)) ∧
    ∀ t, t? = some t → t.hasSort .bool = true ∧
      ∀ z, (∀ ρ, t.Holds z ρ) ↔ c.SatisfiedBy z relations (s.Admits z) := by
  have hasks := asks_of_normalizedFormula? hc h
  refine ⟨hasks.eq_none_iff, fun t ht => ?_⟩
  subst ht
  obtain ⟨hsort, -, hholds⟩ := hs.formula_spec hc.fits_spelled useTag_injective hasks
  refine ⟨hsort, fun z => ?_⟩
  rw [← hc.satisfiedBy_spelled]
  refine ⟨(hholds z).2 fun v hv n hcopy => ?_, (hholds z).1⟩
  rcases hc.isMarked_or_plain hv with hmarked | hplain
  · exact hcopy.not_isMarked (notMem_useTag n) hmarked
  · exact absurd (hplain.symm.trans hcopy.isReserved) Bool.false_ne_true

/-- The check passes over a normalized clause if it passes over the stated one. -/
theorem passesOver_spelled {clause : Clause} (hnf : clause.NormalForm relations c) :
    s.PassesOver (c.spelled relations) ↔ s.PassesOver clause := by
  refine passesOver_congr ?_
  rw [← hnf.head, NormalizedClause.spelled, NormalizedClause.headRelation?, Option.map_map]
  rfl

end Solution

end HornSaturation
