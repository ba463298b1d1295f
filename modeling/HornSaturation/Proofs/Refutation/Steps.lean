import HornSaturation.Proofs.Inference.Electrons
import HornSaturation.Proofs.Oracle.SharedNames
import HornSaturation.Refutation.Build

/-!
# The formulas of a step

A step of a refutation is right if the constraint of its clause has a model in which the argument
symbols have the values of the ground atoms. Argument symbols and fresh symbols have one sort for
each name, so the oracle can be trusted about their values when it finds a model, and about the
constraint of the clause if its other symbols have one sort for each name, too. What has been
asserted before does not change this unless it uses one of the names at two sorts.
-/

namespace HornSaturation

namespace Refutation

variable {z : ZeroDivision} {ρ : Valuation} {vars : List Var} {values : List Value}

/-- Equations with values are true exactly if the symbols have these values. -/
theorem holds_equations (h : vars.length = values.length) :
    (∀ t ∈ equations vars values, t.Holds z ρ) ↔ vars.map ρ.value = values := by
  induction vars generalizing values with
  | nil =>
    rw [List.length_eq_zero_iff.mp h.symm]
    simp [equations]
  | cons v vars ih =>
    cases values with
    | nil => cases h
    | cons x values =>
      rw [equations, List.zipWith_cons_cons, List.forall_mem_cons, ← equations,
        ih (Nat.succ.inj h), Term.holds_equation_toTerm, List.map_cons, List.cons.injEq]

theorem isQuestion_equations : ∀ t ∈ equations vars values, t.IsQuestion := by
  unfold equations
  rw [← List.map_uncurry_zip_eq_zipWith]
  refine List.forall_mem_map.mpr fun ⟨v, x⟩ _ => .inr ⟨v, x, rfl⟩

theorem mem_of_mem_equations {t : Term} (ht : t ∈ equations vars values) {v : Var}
    (hv : v ∈ t.occurrences) : v ∈ vars := by
  unfold equations at ht
  rw [← List.map_uncurry_zip_eq_zipWith] at ht
  obtain ⟨⟨w, x⟩, hmem, rfl⟩ := List.mem_map.mp ht
  obtain rfl : v = w := by simpa using hv
  exact (List.of_mem_zip hmem).1

end Refutation

namespace NormalizedClause

variable {relations : List Relation} {c : NormalizedClause}

/-- The name of an argument symbol of a use has one sort in a clause. -/
theorem Regular.alone_argument (hr : WellDeclared relations) (hc : c.Regular relations) {a : Atom}
    {v : Var} (ha : a.HasArgument relations v) : v.Alone (c.symbols relations) := by
  obtain ⟨vars, hvars, hv⟩ := ha
  have inj {b : Atom} {w : Var} (hb : b.HasArgument relations w) (hname : v.name = w.name) :
      v = w := by
    obtain ⟨ws, hws, hw⟩ := hb
    exact (Atom.arguments_inj hr.names hvars hws hv hw hname).2
  intro w hw hname
  rcases mem_symbols.mp hw with hw | ⟨b, -, hb⟩
  · rcases hc.occurrences w hw with ⟨b, -, hb⟩ | hplain
    · exact inj hb hname
    · have hmark : '@' ∈ v.name.toList := Atom.arguments_isMarked hvars hv
      rw [hname] at hmark
      exact absurd hmark (not_isReserved hplain).1
  · exact inj hb hname

/-- What has one sort for its name in a clause has so beside fresh symbols, and so have these. -/
theorem Regular.alone {lo hi : Nat} {fresh vs : List Var} (hc : c.Regular relations)
    (hf : Taken lo hi fresh) (hvs : ∀ v ∈ vs, v ∈ c.symbols relations ∨ v ∈ fresh) {v : Var}
    (hv : v ∈ c.symbols relations ∧ v.Alone (c.symbols relations) ∨ v ∈ fresh) : v.Alone vs := by
  have apart {v w : Var} (hv : v ∈ c.symbols relations) (hw : w ∈ fresh) : v.name ≠ w.name := by
    rcases mem_symbols.mp hv with hv | ⟨a, -, vars, hvars, hva⟩
    · obtain ⟨n, s, -, -, rfl⟩ := hf.numbers w hw
      exact hc.ne_localSymbol hv n s
    · intro hname
      refine hf.not_isMarked hw ?_
      rw [Var.IsMarked, ← hname]
      exact Atom.arguments_isMarked hvars hva
  intro w hw hname
  rcases hv with ⟨hv, halone⟩ | hv <;> rcases hvs w hw with hw | hw
  · exact halone w hw hname
  · exact absurd hname (apart hv hw)
  · exact absurd hname.symm (apart hw hv)
  · exact List.inj_on_of_nodup_map hf.names hv hw hname

/-- The argument symbols of the head are those of a use. -/
theorem exists_use_of_mem_headArguments {vars : List Var}
    (h : c.headArguments relations = .ok vars) {v : Var} (hv : v ∈ vars) :
    ∃ a ∈ c.uses, a.HasArgument relations v := by
  unfold headArguments at h
  split at h
  · next a hhead => exact ⟨a, Regular.mem_uses_of_head hhead, vars, h, hv⟩
  · rw [← Except.ok.inj h] at hv
    cases hv

theorem mem_symbols_of_mem_headArguments {vars : List Var}
    (h : c.headArguments relations = .ok vars) {v : Var} (hv : v ∈ vars) :
    v ∈ c.symbols relations := mem_symbols.mpr (.inr (exists_use_of_mem_headArguments h hv))

end NormalizedClause

/-- An oracle that tells apart the sorts at which the formulas of a problem use names. -/
inductive Oracle.Discerns (o : Oracle) (p : NormalizedProblem) : Prop
  /-- Nothing is asserted. -/
  | plain (ho : o.assertions = [])
  /-- Assertions and clauses use each name at one sort, and arguments are equated with terms. -/
  | oneSorted (ho : o.OneSortedOn p.UsesName) (hone : p.OneSorted)
      (hbinds : ∀ c ∈ p.clauses, c.Binds p.relations)

namespace Oracle.Discerns

variable {p : NormalizedProblem} {clause : NormalizedClause} {o o' : Oracle} {formulas : List Term}
  {fresh : List Var} {lo hi : Nat} {t c : Term} {v : Var}

theorem later (h : o.Discerns p) (hl : o.Later o') : o'.Discerns p := by
  cases h with
  | plain ho => exact .plain (hl.assertions.trans ho)
  | oneSorted ho hone hbinds =>
    refine .oneSorted ?_ hone hbinds
    rwa [OneSortedOn, hl.assertions]

theorem oneSortedOn (h : o.Discerns p) : o.OneSortedOn p.UsesName := by
  cases h with
  | plain ho =>
    rw [OneSortedOn, ho]
    exact nofun
  | oneSorted ho _ _ => exact ho

section Step

variable (h : o.Discerns p) (hclause : clause ∈ p.clauses) (hc : clause.Regular p.relations)
  (hf : Taken lo hi fresh)
  (hsymbols : ∀ v ∈ formulas.flatMap Term.occurrences,
    v ∈ clause.symbols p.relations ∨ v ∈ fresh)
  (hmodel : o'.decide (Term.conjoin (o.assertions ++ formulas)).foldConstants = .model o'.model)

include h hmodel in
private theorem fits_of_usesName (ht : t ∈ formulas) (hct : c ∈ t.conjuncts)
    (hv : v ∈ c.foldConstants.occurrences) (hname : p.UsesName v.name)
    (halone : v.Alone (formulas.flatMap Term.occurrences)) : o'.Fits v := by
  refine fits_of_oneSort hmodel ht hct hv halone fun u hu huv w hw huw => ?_
  exact h.oneSortedOn u hu w hw (huv ▸ hname) huw

include h hc hf hsymbols hmodel

theorem fits_fresh (hv : v ∈ fresh) (ht : t ∈ formulas) (hct : c ∈ t.conjuncts)
    (hvc : v ∈ c.foldConstants.occurrences) : o'.Fits v := by
  obtain ⟨n, s, -, -, rfl⟩ := hf.numbers v hv
  exact h.fits_of_usesName hmodel ht hct hvc (.inr ⟨n, s, rfl⟩) (hc.alone hf hsymbols (.inr hv))

include hclause

theorem fits_plain (hone : OneSort (clause.symbols p.relations))
    (hconstraint : clause.constraint ∈ formulas) (hct : c ∈ clause.constraint.conjuncts)
    (hvc : v ∈ c.foldConstants.occurrences) (hplain : isReserved v.name = false) : o'.Fits v := by
  have hv := Term.mem_occurrences_of_conjunct hct (Term.mem_occurrences_foldConstants hvc)
  have hsymbol : v ∈ clause.symbols p.relations := NormalizedClause.mem_symbols.mpr (.inl hv)
  exact h.fits_of_usesName hmodel hconstraint hct hvc (.inl ⟨clause, hclause, v, hv, hplain, rfl⟩)
    (hc.alone hf hsymbols (.inl ⟨hsymbol, hone v hsymbol⟩))

/-- Argument symbols have values of their sorts: nothing else has their names, or what they are
equated with has a value of that sort. -/
theorem fits_argument (hr : WellDeclared p.relations) (hconstraint : clause.constraint ∈ formulas)
    {a : Atom} (ha : a ∈ clause.uses) (hv : a.HasArgument p.relations v) : o'.Fits v := by
  have hdiscerns := h
  cases h with
  | plain ho =>
    have hsymbol : v ∈ clause.symbols p.relations :=
      NormalizedClause.mem_symbols.mpr (.inr ⟨a, ha, hv⟩)
    rw [ho, List.nil_append] at hmodel
    exact fits_of_alone hmodel
      (hc.alone hf hsymbols (.inl ⟨hsymbol, hc.alone_argument hr hv⟩))
  | oneSorted ho hone hbinds =>
    obtain ⟨t, hct, hsort, hplain⟩ := hbinds clause hclause a ha v hv
    refine fits_of_equation hmodel (List.mem_append_right _ hconstraint) hct hsort (fun hvt => ?_)
      fun w hwc hwt => ?_
    · obtain ⟨vars, hvars, hv⟩ := hv
      exact (not_isReserved (hplain v hvt)).1 (Atom.arguments_isMarked hvars hv)
    · exact hdiscerns.fits_plain hclause hc hf hsymbols hmodel (hone clause hclause) hconstraint
        hct hwc (hplain w hwt)

end Step

end Oracle.Discerns

end HornSaturation
