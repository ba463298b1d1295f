import HornSaturation.Inference.Classification
import HornSaturation.Proofs.Oracle.Answers
import HornSaturation.Proofs.Unit.Store

/-!
# Redundant units

A unit that is dropped asserts nothing, or nothing that active units do not assert, and units that
are retired for a new one assert nothing that it does not assert. Both rest on the refutations of
the oracle, which are taken to be right.
-/

namespace HornSaturation

section Canonical

variable {z : ZeroDivision} {relations : List Relation} {u w c d : UnitClause} {r : RelationId}

/-- The canonical form of a unit speaks about the arguments at occurrence zero. -/
private theorem canonical_admits (hw : u.WellFormed relations) (hhead : u.head = some r)
    (h : u.canonical relations = .ok c) :
    ∃ vars, (Atom.mk r 0).arguments relations = .ok vars ∧ ∀ z xs, u.Admits z relations xs ↔
      ∃ ρ : Valuation, vars.map ρ.value = xs ∧ c.constraint.Holds z ρ := by
  obtain ⟨hsame, hocc⟩ := UnitClause.canonical_spec hw h
  obtain ⟨vars, hvars, -⟩ := hsame.wellFormed.arguments
  have hargs : (Atom.mk r 0).arguments relations = .ok vars := by
    rw [← hvars, UnitClause.arguments, hsame.head, hhead, hocc]
  exact ⟨vars, hargs, fun z xs => (hsame.admits z xs).symm.trans (UnitClause.admits_iff hvars)⟩

/-- A unit whose canonical constraint is implied by that of another one asserts as much. -/
private theorem asserts_of_canonical (hu : u.WellFormed relations) (hw : w.WellFormed relations)
    (hheadu : u.head = some r) (hheadw : w.head = some r) (hc : u.canonical relations = .ok c)
    (hd : w.canonical relations = .ok d)
    (himp : ∀ ρ, c.constraint.Holds z ρ → d.constraint.Holds z ρ) {g : GroundAtom}
    (hg : u.Asserts z relations g) : w.Asserts z relations g := by
  obtain ⟨vars, hvars, hadm⟩ := canonical_admits hu hheadu hc
  obtain ⟨vars', hvars', hadm'⟩ := canonical_admits hw hheadw hd
  obtain rfl := Except.ok.inj (hvars.symm.trans hvars')
  refine ⟨hheadw.trans (hheadu.symm.trans hg.1), (hadm' z _).mpr ?_⟩
  obtain ⟨ρ, hρ, hholds⟩ := (hadm z _).mp hg.2
  exact ⟨ρ, hρ, himp ρ hholds⟩

/-- So does one whose canonical constraint the oracle finds implied, if the refutation is right. -/
private theorem asserts_of_implies {o o' : Oracle} {n : Nat} (hu : u.WellFormed relations)
    (hw : w.WellFormed relations) (hheadu : u.head = some r) (hheadw : w.head = some r)
    (hc : u.canonical relations = .ok c) (hd : w.canonical relations = .ok d)
    (h : o.implies c.constraint d.constraint = (true, o')) (ho : o.PlainSince n)
    (hsound : o'.SoundSince z n) {g : GroundAtom} (hg : u.Asserts z relations g) :
    w.Asserts z relations g := by
  have hsortc := (UnitClause.canonical_spec hu hc).1.wellFormed.sorted
  have hsortd := (UnitClause.canonical_spec hw hd).1.wellFormed.sorted
  exact asserts_of_canonical hu hw hheadu hheadw hc hd
    (fun ρ hρ => Oracle.holds_of_implies h ho hsound hsortc hsortd hρ) hg

theorem aligned?_eq_some {t : Term} {locals : Bool}
    (h : Subsumption.aligned? relations u = some (t, locals)) :
    ∃ c, u.canonical relations = .ok c ∧ c.constraint = t := by
  unfold Subsumption.aligned? at h
  split at h
  · cases h
  next c hc =>
  split at h
  · cases h
  · exact ⟨c, hc, (Prod.mk.inj (Option.some.inj h)).1⟩

end Canonical

variable {z : ZeroDivision} {p : NormalizedProblem} {store : Store}
  {u c : UnitClause} {r : RelationId} {o o' : Oracle}

/-- An active unit with the same canonical form as another one asserts as much. -/
theorem Store.covers_of_containsIdentical (hs : store.Sound p) (hw : u.WellFormed p.relations)
    (h : store.containsIdentical u = true) {g : GroundAtom} (hg : u.Asserts z p.relations g) :
    store.Covers z g := by
  unfold containsIdentical at h
  split at h
  · next r c hhead hc =>
    obtain ⟨⟨i, w⟩, hmem, hsame⟩ := List.any_eq_true.mp h
    obtain ⟨e, he, hactive, rfl, hheadw⟩ := hs.listed.mem_unitsOf.mp hmem
    rw [hs.relations] at hc
    dsimp only at hsame
    split at hsame
    · next d hd =>
      rw [hs.relations] at hd
      have heq : d.constraint = c.constraint := of_decide_eq_true hsame
      have hasserts := asserts_of_canonical hw (hs.wellFormed i e he) hhead hheadw hc hd
        (fun ρ hρ => heq ▸ hρ) hg
      exact ⟨i, e, he, hactive, hs.relations ▸ hasserts⟩
    · cases hsame
  · cases h

/-- Looking for a unit that covers a constraint only asks questions. -/
theorem coveredByAny_later {relations : List Relation} {t : Term}
    {us : List (UnitId × UnitClause)} :
    o.Later (Subsumption.coveredByAny relations t us o).2 := by
  induction us generalizing o with
  | nil => exact .refl o
  | cons w us ih =>
    unfold Subsumption.coveredByAny
    split
    · exact ih
    split
    · exact .refl o
    split
    · exact ih
    split
    · next himp => exact Oracle.implies_later himp
    · next himp => exact (Oracle.implies_later himp).trans ih

/-- Whether a constraint covers a unit is found out by comparing the canonical constraint of the unit
with it, or by one question. -/
private theorem coveredBy_cons (relations : List Relation) (t : Term) (locals : Bool) (i : UnitId)
    (w : UnitClause) (us : List (UnitId × UnitClause)) (o : Oracle) :
    ∃ b o₁, Subsumption.coveredBy relations t locals ((i, w) :: us) o =
        (if b then i :: (Subsumption.coveredBy relations t locals us o₁).1
          else (Subsumption.coveredBy relations t locals us o₁).1,
          (Subsumption.coveredBy relations t locals us o₁).2) ∧
      (b = false ∧ o₁ = o ∨ ∃ d, w.canonical relations = .ok d ∧
        (b = true ∧ o₁ = o ∧ d.constraint = t ∨ o.implies d.constraint t = (b, o₁))) := by
  refine ⟨_, _, rfl, ?_⟩
  split
  · exact .inl ⟨rfl, rfl⟩
  next haligned =>
  obtain ⟨d, hd, rfl⟩ := aligned?_eq_some haligned
  split
  · next heq => exact .inr ⟨d, hd, .inl ⟨rfl, rfl, heq⟩⟩
  split
  · exact .inl ⟨rfl, rfl⟩
  · exact .inr ⟨d, hd, .inr rfl⟩

/-- Looking for the units that a constraint covers only asks questions. -/
theorem coveredBy_later {relations : List Relation} {t : Term} {locals : Bool}
    {us : List (UnitId × UnitClause)} :
    o.Later (Subsumption.coveredBy relations t locals us o).2 := by
  induction us generalizing o with
  | nil => exact .refl o
  | cons w us ih =>
    obtain ⟨b, o₁, heq, hfound⟩ := coveredBy_cons relations t locals w.1 w.2 us o
    rw [heq]
    rcases hfound with ⟨-, rfl⟩ | ⟨d, -, ⟨-, rfl, -⟩ | himp⟩
    · exact ih
    · exact ih
    · exact (Oracle.implies_later himp).trans ih

/-- The units that are taken to be covered by a constraint are some of those that have been looked
at, in the same order. -/
theorem coveredBy_sublist {relations : List Relation} {t : Term} {locals : Bool}
    {us : List (UnitId × UnitClause)} :
    (Subsumption.coveredBy relations t locals us o).1.Sublist (us.map Prod.fst) := by
  induction us generalizing o with
  | nil => exact .slnil
  | cons w us ih =>
    obtain ⟨b, o₁, heq, -⟩ := coveredBy_cons relations t locals w.1 w.2 us o
    rw [heq, List.map_cons]
    cases b with
    | true => exact ih.cons_cons w.1
    | false => exact ih.cons w.1

/-- Finding redundant units puts questions to the oracle and leaves nothing behind. -/
structure Subsumption.OnlyAsks (s : Subsumption) : Prop where
  forward (store : Store) (u : UnitClause) (o : Oracle) : o.Later (s.forward store u o).2
  backward (store : Store) (u : UnitClause) (o : Oracle) : o.Later (s.backward store u o).2

/-- Subsumption by implication only asks questions. -/
theorem Subsumption.byImplication_onlyAsks : Subsumption.OnlyAsks .byImplication := by
  refine ⟨fun store u o => ?_, fun store u o => ?_⟩
  · dsimp only [byImplication]
    split
    · exact coveredByAny_later
    · exact .refl o
  · dsimp only [byImplication]
    split
    · exact coveredBy_later
    · exact .refl o

/-- A canonical constraint that is taken to be covered is covered by one of the units. -/
theorem coveredByAny_spec {relations : List Relation} {us : List (UnitId × UnitClause)} {n : Nat}
    (hu : u.WellFormed relations) (hhead : u.head = some r) (hc : u.canonical relations = .ok c)
    (hus : ∀ w ∈ us, w.2.WellFormed relations ∧ w.2.head = some r) (ho : o.PlainSince n)
    (h : Subsumption.coveredByAny relations c.constraint us o = (true, o'))
    (hsound : o'.SoundSince z n) :
    ∃ w ∈ us, ∀ g, u.Asserts z relations g → w.2.Asserts z relations g := by
  induction us generalizing o with
  | nil => cases h
  | cons w us ih =>
    obtain ⟨i, w⟩ := w
    obtain ⟨⟨hw, hheadw⟩, hrest⟩ := List.forall_mem_cons.mp hus
    have skip {o₁ : Oracle} (hl : o.Later o₁)
        (h : Subsumption.coveredByAny relations c.constraint us o₁ = (true, o')) :
        ∃ w' ∈ (i, w) :: us, ∀ g, u.Asserts z relations g → w'.2.Asserts z relations g := by
      obtain ⟨w', hmem, hw'⟩ := ih hrest (ho.later hl) h
      exact ⟨w', List.mem_cons_of_mem _ hmem, hw'⟩
    unfold Subsumption.coveredByAny at h
    split at h
    · exact skip (.refl o) h
    next stored locals haligned =>
    obtain ⟨d, hd, rfl⟩ := aligned?_eq_some haligned
    split at h
    · next heq =>
      exact ⟨(i, w), List.mem_cons_self, fun g =>
        asserts_of_canonical hu hw hhead hheadw hc hd fun ρ hρ => heq ▸ hρ⟩
    split at h
    · exact skip (.refl o) h
    split at h
    · next himp =>
      obtain ⟨-, rfl⟩ := Prod.mk.inj h
      exact ⟨(i, w), List.mem_cons_self, fun g =>
        asserts_of_implies hu hw hhead hheadw hc hd himp ho hsound⟩
    · next himp => exact skip (Oracle.implies_later himp) h

/-- The units that are taken to be covered by a canonical constraint are covered. -/
theorem coveredBy_spec {relations : List Relation} {us : List (UnitId × UnitClause)}
    {locals : Bool} {ids : List UnitId} {n : Nat}
    (hu : u.WellFormed relations) (hhead : u.head = some r) (hc : u.canonical relations = .ok c)
    (hus : ∀ w ∈ us, w.2.WellFormed relations ∧ w.2.head = some r) (ho : o.PlainSince n)
    (h : Subsumption.coveredBy relations c.constraint locals us o = (ids, o'))
    (hsound : o'.SoundSince z n) :
    ∀ i ∈ ids, ∃ w, (i, w) ∈ us ∧ ∀ g, w.Asserts z relations g → u.Asserts z relations g := by
  induction us generalizing o ids with
  | nil =>
    obtain ⟨rfl, -⟩ := Prod.mk.inj h
    exact nofun
  | cons w us ih =>
    obtain ⟨i, w⟩ := w
    obtain ⟨⟨hw, hheadw⟩, hrest⟩ := List.forall_mem_cons.mp hus
    obtain ⟨b, o₁, heq, hfound⟩ := coveredBy_cons relations c.constraint locals i w us o
    rcases hrec : Subsumption.coveredBy relations c.constraint locals us o₁ with ⟨ids₁, o₂⟩
    rw [heq, hrec] at h
    obtain ⟨rfl, rfl⟩ := Prod.mk.inj h
    have hlater : o.Later o₁ := by
      rcases hfound with ⟨-, rfl⟩ | ⟨d, -, ⟨-, rfl, -⟩ | himp⟩
      · exact .refl _
      · exact .refl _
      · exact Oracle.implies_later himp
    have hsound₁ : o₁.SoundSince z n := by
      have hlater₁ : o₁.Later (ids₁, o₂).2 := hrec ▸ coveredBy_later
      exact hsound.of_later hlater₁
    have hold (j : UnitId) (hj : j ∈ ids₁) : ∃ w', (j, w') ∈ (i, w) :: us ∧
        ∀ g, w'.Asserts z relations g → u.Asserts z relations g := by
      obtain ⟨w', hmem, hw'⟩ := ih hrest (ho.later hlater) hrec j hj
      exact ⟨w', List.mem_cons_of_mem _ hmem, hw'⟩
    cases b with
    | false => exact hold
    | true =>
      refine List.forall_mem_cons.mpr ⟨⟨w, List.mem_cons_self, fun g => ?_⟩, hold⟩
      rcases hfound with ⟨hfalse, -⟩ | ⟨d, hd, ⟨-, -, heq⟩ | himp⟩
      · cases hfalse
      · exact asserts_of_canonical hw hu hheadw hhead hd hc fun ρ hρ => heq ▸ hρ
      · exact asserts_of_implies hw hu hheadw hhead hd hc himp ho hsound₁

/-- Subsumption by implication drops a unit only if an active unit covers it. -/
theorem forward_spec {n : Nat} (hs : store.Sound p) (hu : u.WellFormed p.relations)
    (ho : o.PlainSince n) (h : Subsumption.byImplication.forward store u o = (true, o'))
    (hsound : o'.SoundSince z n) {g : GroundAtom} (hg : u.Asserts z p.relations g) :
    store.Covers z g := by
  dsimp only [Subsumption.byImplication] at h
  split at h
  · next r t locals hhead haligned =>
    rw [hs.relations] at haligned h
    obtain ⟨c, hc, rfl⟩ := aligned?_eq_some haligned
    obtain ⟨⟨i, w⟩, hmem, hw⟩ := coveredByAny_spec hu hhead hc (fun ⟨i, w⟩ hmem => by
      obtain ⟨e, he, -, rfl, hheadw⟩ := hs.listed.mem_unitsOf.mp hmem
      exact ⟨hs.wellFormed i e he, hheadw⟩) ho h hsound
    obtain ⟨e, he, hactive, rfl, -⟩ := hs.listed.mem_unitsOf.mp hmem
    exact ⟨i, e, he, hactive, hs.relations ▸ hw g hg⟩
  · cases h

/-- Subsumption by implication retires only units that a new one covers. -/
theorem backward_spec {n : Nat} {ids : List UnitId} (hs : store.Sound p)
    (hu : u.WellFormed p.relations) (ho : o.PlainSince n)
    (h : Subsumption.byImplication.backward store u o = (ids, o')) (hsound : o'.SoundSince z n) :
    ∀ i ∈ ids, ∀ e, store.get? i = some e → ∀ g, e.unit.Asserts z p.relations g →
      u.Asserts z p.relations g := by
  dsimp only [Subsumption.byImplication] at h
  split at h
  · next r t locals hhead haligned =>
    rw [hs.relations] at haligned h
    obtain ⟨c, hc, rfl⟩ := aligned?_eq_some haligned
    have hcov := coveredBy_spec hu hhead hc (fun ⟨i, w⟩ hmem => by
      obtain ⟨e, he, -, rfl, hheadw⟩ := hs.listed.mem_unitsOf.mp hmem
      exact ⟨hs.wellFormed i e he, hheadw⟩) ho h hsound
    intro i hi e he
    obtain ⟨w, hmem, hw⟩ := hcov i hi
    obtain ⟨e', he', -, rfl, -⟩ := hs.listed.mem_unitsOf.mp hmem
    rwa [Option.some.inj (he.symm.trans he')]
  · obtain ⟨rfl, -⟩ := Prod.mk.inj h
    exact nofun

/-- A unit whose constraint has no model asserts nothing. -/
theorem not_asserts_of_not_holds {relations : List Relation}
    (h : ∀ ρ : Valuation, ¬ u.constraint.Holds z ρ) (g : GroundAtom) :
    ¬ u.Asserts z relations g := by
  rintro ⟨-, vars, -, ρ, -, hρ⟩
  exact h ρ hρ

/-- A refuting unit whose constraint is refuted asserts nothing. -/
theorem hasContradiction_spec {b : Bool} (h : hasContradiction u o = (b, o')) :
    o.Later o' ∧ (b = true → u.isRefutation = true) ∧
      (b = false → u.isRefutation = true → ∀ z n, o.PlainSince n → o'.SoundSince z n →
        ∀ ρ : Valuation, ¬ u.constraint.Holds z ρ) := by
  unfold hasContradiction at h
  split at h
  · next href =>
    split at h
    · next heq =>
      obtain ⟨rfl, rfl⟩ := Prod.mk.inj h
      refine ⟨(Oracle.checkWith_spec heq).1, nofun, fun _ _ z n ho hsound ρ hρ => ?_⟩
      exact Oracle.not_holds_of_unsat heq ho hsound ρ (List.forall_mem_singleton.mpr hρ)
    · next heq =>
      obtain ⟨rfl, rfl⟩ := Prod.mk.inj h
      exact ⟨(Oracle.checkWith_spec heq).1, fun _ => href, nofun⟩
  · next href =>
    obtain ⟨rfl, rfl⟩ := Prod.mk.inj h
    exact ⟨.refl o, nofun, fun _ h' => absurd h' href⟩

/-- A contradiction has been asked about and has not been denied. -/
theorem hasAnswered_of_hasContradiction (h : hasContradiction u o = (true, o')) :
    ∃ answer, o'.HasAnswered [u.constraint] answer ∧ answer ≠ .unsat := by
  unfold hasContradiction at h
  split at h
  · split at h
    · cases (Prod.mk.inj h).1
    · next answer o₁ hnot heq =>
      obtain ⟨-, rfl⟩ := Prod.mk.inj h
      exact ⟨answer, ⟨o, heq⟩, hnot⟩
  · cases (Prod.mk.inj h).1

/-- A constraint that is taken to be infeasible has no model. -/
theorem isInfeasible_spec {t : Term} {b : Bool} (h : isInfeasible t o = (b, o')) :
    o.Later o' ∧ (b = true → ∀ z n, o.PlainSince n → o'.SoundSince z n →
      ∀ ρ : Valuation, ¬ t.Holds z ρ) := by
  unfold isInfeasible at h
  split at h
  · next hfalse =>
    obtain ⟨rfl, rfl⟩ := Prod.mk.inj h
    refine ⟨.refl o, fun _ _ _ _ _ ρ hρ => ?_⟩
    rw [Term.eq_of_isFalse hfalse, Term.holds_bool] at hρ
    cases hρ
  · split at h
    · next heq =>
      obtain ⟨rfl, rfl⟩ := Prod.mk.inj h
      refine ⟨(Oracle.checkWith_spec heq).1, fun _ z n ho hsound ρ hρ => ?_⟩
      exact Oracle.not_holds_of_unsat heq ho hsound ρ (List.forall_mem_singleton.mpr hρ)
    · next heq =>
      obtain ⟨rfl, rfl⟩ := Prod.mk.inj h
      exact ⟨(Oracle.checkWith_spec heq).1, nofun⟩

/-- What the class of a unit says about it, as far as the refutations of the oracle are right. -/
def Classification.Right (z : ZeroDivision) (p : NormalizedProblem) (store : Store)
    (u : UnitClause) : Classification → Prop
  | .contradiction => True
  | .infeasible => ∀ ρ : Valuation, ¬ u.constraint.Holds z ρ
  | .forwardSubsumed => ∀ g, u.Asserts z p.relations g → store.Covers z g
  | .new removed => ∀ i ∈ removed, ∀ e, store.get? i = some e →
      ∀ g, e.unit.Asserts z p.relations g → u.Asserts z p.relations g

/-- What is classified as a contradiction has just been asked about. -/
theorem hasAnswered_of_classify {subsumption : Subsumption}
    (h : classify subsumption store u o = (.contradiction, o')) :
    ∃ answer, o'.HasAnswered [u.constraint] answer ∧ answer ≠ .unsat := by
  unfold classify at h
  split at h
  · split at h
    · next heq =>
      obtain ⟨-, rfl⟩ := Prod.mk.inj h
      exact hasAnswered_of_hasContradiction heq
    · cases (Prod.mk.inj h).1
  · split at h
    · cases (Prod.mk.inj h).1
    · split at h
      · cases (Prod.mk.inj h).1
      · split at h
        · cases (Prod.mk.inj h).1
        · cases (Prod.mk.inj h).1

theorem isRefutation_of_classify {subsumption : Subsumption}
    (h : classify subsumption store u o = (.contradiction, o')) : u.isRefutation = true := by
  unfold classify at h
  split at h
  · assumption
  · split at h
    · cases (Prod.mk.inj h).1
    · split at h
      · cases (Prod.mk.inj h).1
      · split at h
        · cases (Prod.mk.inj h).1
        · cases (Prod.mk.inj h).1

/-- Only refuting units are classified as contradictions, and with subsumption by implication the
class of a unit is right. -/
theorem classify_spec {subsumption : Subsumption} {cls : Classification} (hs : store.Sound p)
    (hu : u.WellFormed p.relations) (hasks : subsumption.OnlyAsks)
    (h : classify subsumption store u o = (cls, o')) :
    o.Later o' ∧ (cls = .contradiction → u.isRefutation = true) ∧
      (subsumption = .byImplication →
        ∀ z n, o.PlainSince n → o'.SoundSince z n → cls.Right z p store u) := by
  unfold classify at h
  split at h
  · next href =>
    split at h
    · next heq =>
      obtain ⟨rfl, rfl⟩ := Prod.mk.inj h
      obtain ⟨hl, -⟩ := hasContradiction_spec heq
      exact ⟨hl, fun _ => href, fun _ _ _ _ _ => trivial⟩
    · next heq =>
      obtain ⟨rfl, rfl⟩ := Prod.mk.inj h
      obtain ⟨hl, -, hnot⟩ := hasContradiction_spec heq
      exact ⟨hl, nofun, fun _ => hnot rfl href⟩
  split at h
  · next heq =>
    obtain ⟨rfl, rfl⟩ := Prod.mk.inj h
    obtain ⟨hl, hnot⟩ := isInfeasible_spec heq
    exact ⟨hl, nofun, fun _ => hnot rfl⟩
  next o₁ hfeasible =>
  have hl₁ := (isInfeasible_spec hfeasible).1
  split at h
  · next hidentical =>
    obtain ⟨rfl, rfl⟩ := Prod.mk.inj h
    exact ⟨hl₁, nofun, fun _ _ _ _ _ g hg => store.covers_of_containsIdentical hs hu hidentical hg⟩
  have hforward := hasks.forward store u o₁
  split at h
  · next o₂ heq =>
    obtain ⟨rfl, rfl⟩ := Prod.mk.inj h
    rw [heq] at hforward
    refine ⟨hl₁.trans hforward, nofun, fun hsub z n ho hsound g hg => ?_⟩
    subst hsub
    exact forward_spec hs hu (ho.later hl₁) heq hsound hg
  next o₂ heq =>
  rw [heq] at hforward
  have hbackward := hasks.backward store u o₂
  rcases heq : subsumption.backward store u o₂ with ⟨removed, o₃⟩
  rw [heq] at h hbackward
  obtain ⟨rfl, rfl⟩ := Prod.mk.inj h
  have hl₂ := hl₁.trans hforward
  refine ⟨hl₂.trans hbackward, nofun, fun hsub z n ho hsound => ?_⟩
  subst hsub
  exact backward_spec hs hu (ho.later hl₂) heq hsound

/-- A unit that is classified as new is no contradiction, no active unit has the same canonical
form, and the units that it makes redundant are listed under its relation. -/
theorem classify_eq_new {removed : List UnitId}
    (h : classify .byImplication store u o = (.new removed, o')) :
    u.isRefutation = false ∧ store.containsIdentical u = false ∧
      ∃ r, u.head = some r ∧ removed.Sublist (store.unitIds r) := by
  unfold classify at h
  split at h
  · split at h <;> cases (Prod.mk.inj h).1
  next href =>
  split at h
  · cases (Prod.mk.inj h).1
  split at h
  · cases (Prod.mk.inj h).1
  next hidentical =>
  split at h
  · cases (Prod.mk.inj h).1
  next o₂ _ =>
  rw [Bool.not_eq_true] at href hidentical
  obtain ⟨r, hr⟩ := Option.isSome_iff_exists.mp
    (Option.isNone_eq_false_iff.mp (Bool.or_eq_false_iff.mp href).1)
  refine ⟨href, hidentical, r, hr, ?_⟩
  rcases hb : Subsumption.byImplication.backward store u o₂ with ⟨ids, o₃⟩
  rw [hb] at h
  obtain rfl := Classification.new.inj (Prod.mk.inj h).1
  dsimp only [Subsumption.byImplication] at hb
  split at hb
  · next r' t locals hr' _ =>
    obtain rfl := Option.some.inj (hr.symm.trans hr')
    obtain rfl : _ = ids := congrArg Prod.fst hb
    exact coveredBy_sublist.trans (store.unitsOf_sublist r)
  · obtain ⟨rfl, -⟩ := Prod.mk.inj hb
    exact List.nil_sublist _

/-- The units that a new one makes redundant are stored. -/
theorem classify_new_spec {removed : List UnitId} (hl : store.Listed)
    (h : classify .byImplication store u o = (.new removed, o')) :
    u.isRefutation = false ∧ ∀ i ∈ removed, ∃ e, store.get? i = some e := by
  obtain ⟨href, -, r, -, hsub⟩ := classify_eq_new h
  refine ⟨href, fun i hi => ?_⟩
  obtain ⟨e, he, -⟩ := (hl r i).mp (hsub.subset hi)
  exact ⟨e, he⟩

end HornSaturation
