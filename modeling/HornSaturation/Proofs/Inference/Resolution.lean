import HornSaturation.Proofs.Inference.Electrons
import HornSaturation.Proofs.Inference.Projection
import HornSaturation.Proofs.Unit.Forms

/-!
# Exactness of hyperresolution

The resolvent of a regular clause with well-formed units asserts exactly the heads of those
instances of the clause whose body atoms the units assert. Projection keeps what a unit admits, and
so does the renaming of the symbols that it has left.
-/

namespace HornSaturation

/-- The ground atoms that a unit asserts. -/
def UnitClause.Asserts (z : ZeroDivision) (relations : List Relation) (u : UnitClause)
    (g : GroundAtom) : Prop :=
  u.head = g.relation ∧ u.Admits z relations g.args

variable {relations : List Relation}

/-- A unit that can stand for another asserts the same. -/
theorem UnitClause.SameAs.asserts {u u' : UnitClause} (h : u.SameAs relations u')
    (z : ZeroDivision) (g : GroundAtom) : u'.Asserts z relations g ↔ u.Asserts z relations g := by
  rw [Asserts, Asserts, h.head, h.admits]

/-- Units admit the arguments at consecutive uses exactly if they assert ground atoms that these
uses stand for. -/
theorem forall₂_admitsAt_iff {z : ZeroDivision} {ρ : Valuation} {body : List Atom}
    {us : List UnitClause} :
    List.Forall₂ (UnitClause.AdmitsAt z relations ρ) body us ↔
      ∃ gs, List.Forall₂ (Atom.Denotes relations ρ) body gs ∧
        List.Forall₂ (UnitClause.Asserts z relations) us gs := by
  constructor
  · intro h
    induction h with
    | nil => exact ⟨[], .nil, .nil⟩
    | @cons a u _ _ ha _ ih =>
      obtain ⟨gs, hgs, hus⟩ := ih
      obtain ⟨hhead, vars, hvars, hadm⟩ := ha
      exact ⟨⟨some a.relation, vars.map ρ.value⟩ :: gs, .cons ⟨rfl, vars, hvars, rfl⟩ hgs,
        .cons ⟨hhead, hadm⟩ hus⟩
  · rintro ⟨gs, hgs, hus⟩
    induction hgs generalizing us with
    | nil =>
      cases hus
      exact .nil
    | cons ha _ ih =>
      cases hus with
      | cons hu hus =>
        obtain ⟨hrel, vars, hvars, hvalues⟩ := ha
        exact .cons ⟨hu.1.trans hrel, vars, hvars, hvalues ▸ hu.2⟩ (ih hus)

/-- A unit whose symbols are its arguments and symbols that have been taken while the count went
from one number to another. -/
def UnitClause.TakesOnly (relations : List Relation) (lo hi : Nat) (u : UnitClause) : Prop :=
  ∃ vars fresh, u.arguments relations = .ok vars ∧ Taken lo hi fresh ∧
    ∀ v ∈ u.constraint.occurrences, v ∈ vars ∨ v ∈ fresh

/-- Eliminating symbols that are not arguments of a unit does not change what it admits. -/
theorem UnitClause.admits_projected {u : UnitClause} {z : ZeroDivision} {vars locals : List Var}
    {t : Term} (hvars : u.arguments relations = .ok vars) (hlocals : ∀ v ∈ vars, v ∉ locals)
    (h : Term.Projects z locals u.constraint t) (xs : List Value) :
    ({ u with constraint := t } : UnitClause).Admits z relations xs ↔ u.Admits z relations xs := by
  have hkeep {ρ ρ' : Valuation} (hoff : Valuation.AgreeOff locals ρ ρ') :
      vars.map ρ'.value = vars.map ρ.value :=
    List.map_congr_left fun v hv => hoff v (hlocals v hv)
  have hvars' : ({ u with constraint := t } : UnitClause).arguments relations = .ok vars := hvars
  rw [UnitClause.admits_iff hvars, UnitClause.admits_iff hvars']
  constructor
  · rintro ⟨ρ, rfl, hρ⟩
    obtain ⟨ρ', hoff, hρ'⟩ := (h.exact ρ).mp ⟨ρ, .refl _ ρ, hρ⟩
    exact ⟨ρ', hkeep hoff, hρ'⟩
  · rintro ⟨ρ, rfl, hρ⟩
    obtain ⟨ρ', hoff, hρ'⟩ := (h.exact ρ).mpr ⟨ρ, .refl _ ρ, hρ⟩
    exact ⟨ρ', hkeep hoff, hρ'⟩

/-- Reducing a unit keeps what it admits and leaves no symbols but its arguments and new ones. -/
theorem ensures_reduceUnit {u : UnitClause} {vars : List Var}
    (hvars : u.arguments relations = .ok vars) (hsort : u.constraint.hasSort .bool = true)
    (s : Symbols) :
    Ensures (reduceUnit Term.project relations u) s
      (fun u' s' => u.SameAs relations u' ∧ u'.occurrence = u.occurrence ∧
        u'.TakesOnly relations s.allocated s'.allocated)
      fun _ _ => False := by
  obtain ⟨locals, hlocals⟩ := UnitClause.locals_eq_ok hvars
  have hmem {v : Var} := UnitClause.mem_locals hvars hlocals (v := v)
  simp only [reduceUnit, hvars, hlocals, ensures_bind, ensures_ok, ensures_get, ensures_pure]
  have hproject (z : ZeroDivision) := Term.projects_project z s hsort locals true
  set reduced := Term.project s u.constraint locals true
  set survivors := reduced.vars.filter fun v => !vars.contains v with hsurvivors
  have hsurvivor (v : Var) : v ∈ survivors ↔ v ∈ reduced.occurrences ∧ v ∉ vars := by
    simp [hsurvivors]
  refine (ensures_freshLocals survivors s).mono ?_ fun _ _ => id
  rintro fresh s' ⟨htaken, hfs⟩
  have hunmarked : ∀ v ∈ fresh, ¬ v.IsMarked := fun v hv => htaken.not_isMarked hv
  have hstays : ({ u with occurrence := u.occurrence } : UnitClause).arguments relations =
      .ok vars := hvars
  have hg : UnitClause.Moves vars vars survivors fresh (Substitution.rename survivors fresh) := by
    have hg := UnitClause.moves_rename hvars hstays (.inr ⟨rfl, rfl, rfl⟩)
      ((List.nodup_eraseDups _).filter _) (fun v hv => ((hsurvivor v).mp hv).2) htaken.nodup
      hunmarked hfs
    rwa [List.nil_append, List.nil_append] at hg
  have hcases : ∀ v ∈ vars ++ reduced.occurrences, v ∈ vars ∨ v ∈ survivors := fun v hv => by
    by_cases hvv : v ∈ vars
    · exact .inl hvv
    · exact .inr ((hsurvivor v).mpr ⟨(List.mem_append.mp hv).resolve_left hvv, hvv⟩)
  have hreduced (z : ZeroDivision) := UnitClause.admits_projected hvars
    (fun v hv hl => (hmem.mp hl).2 hv) (hproject z)
  rw [Term.substitute_ofVars]
  have hargs : ({ u with constraint := reduced.rename (Substitution.rename survivors fresh) } :
      UnitClause).arguments relations = .ok (vars.map (Substitution.rename survivors fresh)) := by
    rw [hg.arguments]
    exact hvars
  have hocc : ∀ w ∈ (reduced.rename (Substitution.rename survivors fresh)).occurrences,
      w ∈ vars ∨ w ∈ fresh := by
    intro w hw
    obtain ⟨v, hv, rfl⟩ := Term.mem_occurrences_rename.mp hw
    exact (hcases v (List.mem_append_right _ hv)).imp hg.mem_moved hg.mem_others
  refine ⟨⟨rfl, rfl, ⟨?_, vars, hvars, fun w hw => ?_⟩, fun z xs => ?_⟩, trivial, vars, fresh,
    hvars, htaken, hocc⟩
  · exact Term.hasSort_rename hg.sort (hproject ⟨fun _ => 0, fun _ => 0⟩).sorted
  · exact (hocc w hw).imp_right (hunmarked w)
  · rw [← hreduced z xs]
    refine UnitClause.admits_rename (u := { u with constraint := reduced }) hg.sort
      (fun v hv w hw => hg.inj v w ?_ ?_) hvars hargs rfl
    · exact (hcases v hv).imp_right .inl
    · exact (hcases w hw).imp_right .inl

variable {c : NormalizedClause}

/-- What stands for the head of a clause is the relation of the head with the values of its argument
symbols. -/
theorem headDenotes_iff {ρ : Valuation} {g : GroundAtom} {vars : List Var}
    (hvars : c.headArguments relations = .ok vars) :
    Atom.HeadDenotes relations ρ c.head g ↔
      g.relation = c.headRelation? ∧ vars.map ρ.value = g.args := by
  unfold NormalizedClause.headArguments at hvars
  unfold NormalizedClause.headRelation? Atom.HeadDenotes
  cases hh : c.head with
  | none =>
    rw [hh] at hvars
    obtain rfl : [] = vars := Except.ok.inj hvars
    obtain ⟨relation, args⟩ := g
    simp [GroundAtom.falsum, eq_comm]
  | some a =>
    rw [hh] at hvars
    simp only [Atom.Denotes, Option.map_some]
    constructor
    · rintro ⟨hrel, vars', hvars', hvalues⟩
      obtain rfl := Except.ok.inj (hvars.symm.trans hvars')
      exact ⟨hrel, hvalues⟩
    · rintro ⟨hrel, hvalues⟩
      exact ⟨hrel, vars, hvars, hvalues⟩

/-- A unit that asserts exactly the heads of the instances of a clause whose bodies units assert. -/
structure Resolvent (relations : List Relation) (c : NormalizedClause) (us : List UnitClause)
    (u : UnitClause) : Prop where
  head : u.head = c.headRelation?
  polarity : u.polarity = .positive
  occurrence : u.occurrence = (c.head.map (·.occurrence)).getD 0
  wellFormed : u.WellFormed relations
  asserts : ∀ z g, u.Asserts z relations g ↔ ∃ body, c.HasInstance z relations body g ∧
    List.Forall₂ (UnitClause.Asserts z relations) us body

/-- The values of the head under which the constraint of a clause and the instances of units are
true are those for which the units admit the arguments of the body. -/
theorem exists_holds_conjoin_iff {z : ZeroDivision} (hc : c.Regular relations)
    {us : List UnitClause} {lo hi : Nat} {fresh headVars : List Var} {ts : List Term}
    (hhead : c.headArguments relations = .ok headVars) (hf : Taken lo hi fresh)
    (hts : AreInstances relations c.body us fresh ts) {xs : List Value} :
    (∃ ρ : Valuation, headVars.map ρ.value = xs ∧
        (Term.conjoin (c.constraint :: ts)).Holds z ρ) ↔
      ∃ ρ : Valuation, headVars.map ρ.value = xs ∧ c.constraint.Holds z ρ ∧
        List.Forall₂ (UnitClause.AdmitsAt z relations ρ) c.body us := by
  simp only [Term.holds_conjoin, List.forall_mem_cons]
  constructor
  · rintro ⟨ρ, hxs, hρ, hall⟩
    exact ⟨ρ, hxs, hρ, hts.sound z ρ hall⟩
  · rintro ⟨ρ, rfl, hρ, hadm⟩
    obtain ⟨ρ', hoff, hall⟩ := hts.complete z ρ hadm
    refine ⟨ρ', List.map_congr_left fun v hv => hoff v fun hvf => ?_, ?_, hall⟩
    · exact hf.not_isMarked hvf (NormalizedClause.headArguments_isMarked hhead hv)
    · refine (Term.holds_congr fun v hv => (hoff v fun hvf => ?_).symm).mp hρ
      obtain ⟨n, s, -, -, rfl⟩ := hf.numbers v hvf
      exact hc.ne_localSymbol hv n s rfl

/-- Hyperresolution is exact, and it succeeds with units of the right relations. -/
theorem ensures_resolve (hr : WellDeclared relations) (hc : c.Regular relations)
    {us : List UnitClause} (hsort : ∀ u ∈ us, u.constraint.hasSort .bool = true) (s : Symbols) :
    Ensures (resolve Term.project relations c us) s
      (fun u s' => Resolvent relations c us u ∧
        u.TakesOnly relations s.allocated s'.allocated)
      fun _ _ => s.ready = false ∨ ¬ List.Forall₂ Atom.Takes c.body us := by
  obtain ⟨headVars, hhead⟩ := hc.headArguments_eq_ok
  have hargs (t : Term) : ({
      head := c.headRelation?
      polarity := .positive
      occurrence := (c.head.map (·.occurrence)).getD 0
      constraint := t } : UnitClause).arguments relations = .ok headVars := by
    rw [← hhead]
    unfold NormalizedClause.headRelation? NormalizedClause.headArguments
    cases c.head <;> rfl
  unfold resolve
  simp only [ensures_bind, ensures_get]
  split
  · next hready =>
    simp only [ensures_bind, ensures_throw]
    exact .inl (by simpa using hready)
  split
  · next hlen =>
    simp only [ensures_bind, ensures_throw]
    exact .inr fun hall => hlen hall.length_eq.symm
  next hlen =>
    have hlen : us.length = (c.body.drop 0).length := by simpa using hlen
    simp only [ensures_bind, hhead, ensures_ok]
    refine (ensures_electronInstances hr hc hsort 0 s hlen).mono ?_ fun _ _ => .inr
    rintro ts s' ⟨fresh, htaken, hts⟩
    rw [List.drop_zero] at hts
    have hsorted : (Term.conjoin (c.constraint :: ts)).hasSort .bool = true :=
      Term.hasSort_conjoin (List.forall_mem_cons.mpr ⟨hc.sorted, hts.sorted⟩)
    have hreduce := ensures_reduceUnit (hargs (.conjoin (c.constraint :: ts))) hsorted s'
    refine hreduce.mono ?_ fun _ _ => False.elim
    rintro u s'' ⟨hu, hoccurrence, headVars', fresh', hvars', htaken', hocc⟩
    refine ⟨⟨hu.head, hu.polarity, hoccurrence, hu.wellFormed, fun z g => ?_⟩,
      headVars', fresh', hvars', htaken'.of_le htaken.le, hocc⟩
    rw [UnitClause.Asserts, hu.head, hu.admits, UnitClause.admits_iff (hargs _)]
    dsimp only
    rw [exists_holds_conjoin_iff hc hhead htaken hts]
    simp only [forall₂_admitsAt_iff, NormalizedClause.HasInstance, headDenotes_iff hhead]
    constructor
    · rintro ⟨hrel, ρ, hxs, hρ, body, hbody, hus⟩
      exact ⟨body, ⟨ρ, hρ, hbody, hrel.symm, hxs⟩, hus⟩
    · rintro ⟨body, ⟨ρ, hρ, hbody, hrel, hxs⟩, hus⟩
      exact ⟨hrel.symm, ρ, hxs, hρ, body, hbody, hus⟩

end HornSaturation
