import HornSaturation.Proofs.Clause.Stated
import HornSaturation.Proofs.Data.Lists
import HornSaturation.Proofs.Data.Results

/-!
# Normalization keeps instances

Normalization makes a regular clause of a well-sorted one, and the two have the same instances. An
instance of the stated clause is extended to the argument symbols by giving each the value of the
term that it is equated with, which is possible because every argument symbol belongs to one use and
occurs in no stated term.
-/

namespace HornSaturation

/-- The numbered uses of a body are its applications with their occurrences. -/
theorem numberUses_spec (before : List RelationId) (body : List Application) :
    List.Forall₂ (fun a use => use.1.relation = a.relation ∧ use.2 = a.args) body
      (numberUses before body) := by
  induction body generalizing before with
  | nil => exact .nil
  | cons a body ih => exact .cons ⟨rfl, rfl⟩ (ih _)

/-- The occurrences of a relation continue the count of the uses before. -/
theorem mem_numberUses {before : List RelationId} {body : List Application}
    {use : Atom × List Term} (h : use ∈ numberUses before body) :
    before.count use.1.relation ≤ use.1.occurrence ∧
      use.1.occurrence <
        before.count use.1.relation + (body.map (·.relation)).count use.1.relation := by
  induction body generalizing before with
  | nil => cases h
  | cons a body ih =>
    rcases List.mem_cons.mp h with rfl | h
    · simp
    · have ih := ih h
      rw [List.count_cons] at ih
      rw [List.map_cons, List.count_cons]
      omega

/-- No two uses of a body are one use. -/
theorem numberUses_nodup (before : List RelationId) (body : List Application) :
    ((numberUses before body).map (·.1)).Nodup := by
  induction body generalizing before with
  | nil => exact .nil
  | cons a body ih =>
    rw [numberUses, List.map_cons, List.nodup_cons]
    refine ⟨fun h => ?_, ih _⟩
    obtain ⟨use, huse, heq⟩ := List.mem_map.mp h
    have hcount := (mem_numberUses huse).1
    rw [heq] at hcount
    dsimp only at hcount
    rw [List.count_cons_self] at hcount
    omega

namespace Clause

variable {z : ZeroDivision} {relations : List Relation} {c : Clause}

/-- The uses of a clause with the terms that they are applied to. -/
def numbered (c : Clause) : List (Atom × List Term) :=
  numberUses [] c.body ++ (c.head.map fun a =>
    (Atom.mk a.relation ((c.body.map (·.relation)).count a.relation), a.args)).toList

theorem numbered_nodup (c : Clause) : (c.numbered.map (·.1)).Nodup := by
  rw [numbered, List.map_append, List.nodup_append']
  refine ⟨numberUses_nodup [] c.body, ?_, fun a ha hb => ?_⟩
  · cases c.head <;> simp
  · obtain ⟨use, huse, rfl⟩ := List.mem_map.mp ha
    have hcount := (mem_numberUses huse).2
    cases hh : c.head with
    | none => simp [hh] at hb
    | some b =>
      have heq : use.1 = ⟨b.relation, (c.body.map (·.relation)).count b.relation⟩ := by
        simpa [hh] using hb
      simp [heq] at hcount

theorem numbered_spec (c : Clause) :
    List.Forall₂ (fun a use => use.1.relation = a.relation ∧ use.2 = a.args) c.applications
      c.numbered := by
  refine List.rel_append (numberUses_spec [] c.body) ?_
  cases c.head with
  | none => exact .nil
  | some a => exact .cons ⟨rfl, rfl⟩ .nil

/-- Every use is the use of an application. -/
theorem exists_application {use : Atom × List Term} (h : use ∈ c.numbered) :
    ∃ a ∈ c.applications, use.1.relation = a.relation ∧ use.2 = a.args :=
  c.numbered_spec.flip.exists_right h

/-- The equations of a use, if its relation is declared. -/
theorem bindArguments_eq_ok {use : Atom × List Term} {equations : List Term} :
    bindArguments relations use = .ok equations ↔ ∃ vars, use.1.arguments relations = .ok vars ∧
      equations = vars.zipWith (fun v t => .equation (.var v) t) use.2 := by
  rw [bindArguments, Except.bind_eq_ok]
  exact exists_congr fun vars => and_congr_right fun _ =>
    ⟨fun h => (Except.ok.inj h).symm, fun h => h ▸ rfl⟩

/-- The parts of a normalized clause. -/
theorem normalize_spec {index : Nat} {nc : NormalizedClause}
    (h : c.normalize relations index = .ok nc) : ∃ equations,
      List.Forall₂ (fun use eqs => bindArguments relations use = .ok eqs) c.numbered equations ∧
      nc.index = index ∧ nc.body = (numberUses [] c.body).map (·.1) ∧
      nc.head = c.head.map (fun a =>
        ⟨a.relation, (c.body.map (·.relation)).count a.relation⟩) ∧
      nc.constraint = .conjoin (equations.flatten ++ c.constraint.toList) ∧
      ∀ t ∈ c.terms, ∀ v ∈ t.occurrences, isReserved v.name = false := by
  unfold normalize at h
  cases hreserved : c.reservedVar? with
  | some v =>
    rw [hreserved] at h
    cases h
  | none =>
    rw [hreserved] at h
    obtain ⟨equations, heqs, h⟩ := Except.bind_eq_ok.mp h
    dsimp only at h
    split at h
    · cases h
    obtain rfl := Except.ok.inj h
    refine ⟨equations, Except.mapM_eq_ok.mp heqs, rfl, rfl, ?_, rfl, fun t ht v hv => ?_⟩
    · cases c.head <;> rfl
    · have hnone := List.findSome?_eq_none_iff.mp hreserved t ht
      simpa using List.find?_eq_none.mp hnone v (Term.mem_vars.mpr hv)

section Agreement

variable {arith : Op → List Int → Option Int} {env : Var → Option Value}

/-- The argument symbols of a use have the values of the terms that stand in their places. -/
def UseAgrees (arith : Op → List Int → Option Int) (relations : List Relation)
    (env : Var → Option Value) (use : Atom × List Term) : Prop :=
  ∃ (vars : List Var) (values : List Value), use.1.arguments relations = .ok vars ∧
    vars.map env = values.map some ∧ use.2.map (Term.evalWith arith env) = values.map some

/-- Equations between variables and terms are true exactly if both have the same values. -/
theorem trueUnder_zipWith_equation {vars : List Var} {ts : List Term}
    (h : vars.length = ts.length) :
    (∀ e ∈ vars.zipWith (fun v t => Term.equation (.var v) t) ts, e.TrueUnder arith env) ↔
      ∃ values : List Value,
        vars.map env = values.map some ∧ ts.map (Term.evalWith arith env) = values.map some := by
  induction vars generalizing ts with
  | nil =>
    rw [List.length_eq_zero_iff.mp h.symm]
    simp
  | cons v vars ih =>
    cases ts with
    | nil => cases h
    | cons t ts =>
      rw [List.zipWith_cons_cons, List.forall_mem_cons, ih (Nat.succ.inj h),
        Term.trueUnder_equation]
      constructor
      · rintro ⟨⟨x, hv, ht⟩, values, hvars, hts⟩
        refine ⟨x :: values, ?_, ?_⟩
        · rw [List.map_cons, List.map_cons, hvars]
          exact congrArg (· :: _) hv
        · rw [List.map_cons, List.map_cons, ht, hts]
      · rintro ⟨_ | ⟨x, values⟩, hvars, hts⟩
        · cases hvars
        · rw [List.map_cons, List.map_cons, List.cons.injEq] at hvars hts
          exact ⟨⟨x, hvars.1, hts.1⟩, values, hvars.2, hts.2⟩

/-- The equations of all uses are true exactly if the uses have the values of their terms. -/
theorem trueUnder_equations_iff {uses : List (Atom × List Term)} {equations : List (List Term)}
    (heqs : List.Forall₂ (fun use eqs => bindArguments relations use = .ok eqs) uses equations)
    (hlength : ∀ use ∈ uses, ∀ vars, use.1.arguments relations = .ok vars →
      vars.length = use.2.length) :
    (∀ e ∈ equations.flatten, e.TrueUnder arith env) ↔
      ∀ use ∈ uses, UseAgrees arith relations env use := by
  induction heqs with
  | nil => simp
  | @cons use eqs uses equations hbind _ ih =>
    rw [List.forall_mem_cons] at hlength
    obtain ⟨vars, hvars, rfl⟩ := bindArguments_eq_ok.mp hbind
    rw [List.flatten_cons, List.forall_mem_append, List.forall_mem_cons, ih hlength.2,
      trueUnder_zipWith_equation (hlength.1 vars hvars)]
    refine and_congr_left fun _ => ⟨fun ⟨values, h⟩ => ⟨vars, values, hvars, h⟩, ?_⟩
    rintro ⟨vars', values, hvars', h⟩
    obtain rfl := Except.ok.inj (hvars.symm.trans hvars')
    exact ⟨values, h⟩

/-- What the numbered uses of a body stand for is what its applications stand for, if this is so for
each. -/
theorem forall₂_numberUses_iff {γ : Type} {P : Atom → γ → Prop} {Q : Application → γ → Prop}
    (h : ∀ use ∈ c.numbered, ∀ a, use.1.relation = a.relation ∧ use.2 = a.args →
      ∀ g, P use.1 g ↔ Q a g) {gs : List γ} :
    List.Forall₂ P ((numberUses [] c.body).map (·.1)) gs ↔ List.Forall₂ Q c.body gs := by
  rw [List.forall₂_map_left_iff]
  have hmatch := (numberUses_spec [] c.body).imp_mem (S := fun a use => ∀ g, P use.1 g ↔ Q a g)
    fun a _ use huse => h use (List.mem_append_left _ huse) a
  constructor
  · intro huses
    exact hmatch.flip.of_common huses fun use a g hm => (hm g).mp
  · intro happs
    exact hmatch.of_common happs fun a use g hm => (hm g).mpr

end Agreement

/-- The uses of a clause have the values of their terms under a valuation. -/
abbrev UseHolds (z : ZeroDivision) (relations : List Relation) (ρ : Valuation)
    (use : Atom × List Term) : Prop :=
  UseAgrees z.arithmetic relations (fun v => some (ρ.value v)) use

/-- Where the equations of a use are true, the use and the application stand for the same. -/
theorem UseAgrees.denotes_iff {ρ : Valuation} {use : Atom × List Term} {a : Application}
    {g : GroundAtom} (h : UseHolds z relations ρ use)
    (hmatch : use.1.relation = a.relation ∧ use.2 = a.args) :
    use.1.Denotes relations ρ g ↔ a.Denotes z ρ g := by
  obtain ⟨vars, values, hvars, hsymbols, hterms⟩ := h
  have hvalues : vars.map ρ.value = values := by
    rw [← List.map_inj_right fun _ _ => Option.some.inj, ← hsymbols, List.map_map]
    rfl
  have hargs : a.args.map (Term.meaning z ρ) = values.map some := hmatch.2 ▸ hterms
  rw [Atom.Denotes, Application.Denotes, hmatch.1, hargs]
  refine and_congr_right fun _ => ?_
  rw [List.map_inj_right fun _ _ => Option.some.inj, ← hvalues]
  constructor
  · rintro ⟨vars', hvars', heq⟩
    rwa [Except.ok.inj (hvars.symm.trans hvars')]
  · exact fun heq => ⟨vars, hvars, heq⟩

/-- What well-sortedness says about the uses of a clause. -/
structure UseSorted (relations : List Relation) (c : Clause) (use : Atom × List Term) : Prop where
  arguments : ∃ vars, use.1.arguments relations = .ok vars ∧
    List.Forall₂ (fun v t => t.hasSort v.sort = true) vars use.2
  terms : ∀ t ∈ use.2, t ∈ c.terms

/-- The terms of a use are stated in the clause. -/
theorem mem_terms_of_numbered {use : Atom × List Term} (huse : use ∈ c.numbered) {t : Term}
    (ht : t ∈ use.2) : t ∈ c.terms := by
  obtain ⟨a, ha, -, hargs⟩ := exists_application huse
  rw [hargs] at ht
  exact List.mem_append_left _ (List.mem_flatMap.mpr ⟨a, ha, ht⟩)

theorem useSorted_of_mem (hw : c.WellSorted relations) {equations : List (List Term)}
    (heqs : List.Forall₂ (fun use eqs => bindArguments relations use = .ok eqs) c.numbered
      equations)
    {use : Atom × List Term} (huse : use ∈ c.numbered) : UseSorted relations c use := by
  obtain ⟨eqs, -, hbind⟩ := heqs.exists_right huse
  obtain ⟨vars, hvars, -⟩ := bindArguments_eq_ok.mp hbind
  obtain ⟨a, ha, hrel, hargs⟩ := exists_application huse
  obtain ⟨r, hr, hsorts⟩ := hw.applications a ha
  refine ⟨⟨vars, hvars, ?_⟩, fun t => mem_terms_of_numbered huse⟩
  obtain ⟨r', hr', rfl⟩ := Atom.arguments_eq_ok.mp hvars
  obtain ⟨hr', -⟩ := relation?_eq_some.mp hr'
  rw [hrel, hr] at hr'
  obtain rfl := Option.some.inj hr'
  rw [hargs]
  have hflip := (Term.haveSorts_iff.mp hsorts).flip
  rwa [← r.arguments_sort use.1.occurrence, List.forall₂_map_left_iff] at hflip

theorem UseSorted.length_eq {use : Atom × List Term} (h : UseSorted relations c use)
    {vars : List Var} (hvars : use.1.arguments relations = .ok vars) :
    vars.length = use.2.length := by
  obtain ⟨⟨vars', hvars', hsorts⟩, -⟩ := h
  obtain rfl := Except.ok.inj (hvars.symm.trans hvars')
  exact hsorts.length_eq

section Extension

variable {uses : List (Atom × List Term)}

/-- The argument symbols of uses with the terms that stand in their places. -/
def bindings (relations : List Relation) (uses : List (Atom × List Term)) : Substitution :=
  uses.flatMap fun use => (((use.1.arguments relations).toOption).getD []).zip use.2

theorem mem_bindings {v : Var} {t : Term} :
    (v, t) ∈ bindings relations uses ↔
      ∃ use ∈ uses, ∃ vars, use.1.arguments relations = .ok vars ∧ (v, t) ∈ vars.zip use.2 := by
  rw [bindings, List.mem_flatMap]
  refine exists_congr fun use => and_congr_right fun _ => ?_
  cases use.1.arguments relations <;> simp [Except.toOption]

theorem isMarked_of_mem_bindings {p : Var × Term} (h : p ∈ bindings relations uses) :
    p.1.IsMarked := by
  obtain ⟨use, -, vars, hvars, hmem⟩ := mem_bindings.mp h
  exact Atom.arguments_isMarked hvars (List.of_mem_zip hmem).1

/-- Every name of an argument symbol of different uses stands for one term. -/
theorem bindings_functional (hr : (relations.map (·.name)).Nodup)
    (hn : (uses.map (·.1)).Nodup) {v v' : Var} {t t' : Term}
    (h : (v, t) ∈ bindings relations uses) (h' : (v', t') ∈ bindings relations uses)
    (hname : v.name = v'.name) : t = t' := by
  obtain ⟨use, huse, vars, hvars, hmem⟩ := mem_bindings.mp h
  obtain ⟨use', huse', vars', hvars', hmem'⟩ := mem_bindings.mp h'
  obtain ⟨hatom, rfl⟩ := Atom.arguments_inj hr hvars hvars' (List.of_mem_zip hmem).1
    (List.of_mem_zip hmem').1 hname
  obtain rfl := List.inj_on_of_nodup_map hn huse huse' hatom
  obtain rfl := Except.ok.inj (hvars.symm.trans hvars')
  -- The argument symbols of one use differ from each other, so they stand at one place.
  obtain ⟨i, hi, hvt⟩ := List.mem_iff_getElem.mp hmem
  obtain ⟨j, hj, hvt'⟩ := List.mem_iff_getElem.mp hmem'
  rw [List.getElem_zip, Prod.mk.injEq] at hvt hvt'
  have hij := (Atom.arguments_nodup hvars).getElem_inj_iff.mp (hvt.1.trans hvt'.1.symm)
  subst hij
  exact hvt.2.symm.trans hvt'.2

/-- Any valuation can be changed on argument symbols so that the equations of all uses are true. -/
theorem exists_useHolds (hr : WellDeclared relations) (hn : (uses.map (·.1)).Nodup)
    (hs : ∀ use ∈ uses, UseSorted relations c use)
    (hplain : ∀ t ∈ c.terms, ∀ v ∈ t.occurrences, isReserved v.name = false) (ρ : Valuation) :
    ∃ ρ' : Valuation, (∀ use ∈ uses, UseHolds z relations ρ' use) ∧
      ∀ t ∈ c.terms, t.meaning z ρ' = t.meaning z ρ := by
  have hsorted : ∀ p ∈ bindings relations uses, p.2.hasSort p.1.sort = true := by
    rintro ⟨v, t⟩ hp
    obtain ⟨use, huse, vars, hvars, hmem⟩ := mem_bindings.mp hp
    obtain ⟨⟨vars', hvars', hsorts⟩, -⟩ := hs use huse
    obtain rfl := Except.ok.inj (hvars.symm.trans hvars')
    exact (List.forall₂_iff_zip.mp hsorts).2 hmem
  have himage := Substitution.image_sorted hsorted
  have hterm : ∀ t ∈ c.terms, t.meaning z (ρ.via z _ himage) = t.meaning z ρ := fun t ht => by
    refine Term.evalWith_congr fun v hv => ?_
    refine (ρ.meaning_of_image himage (Substitution.image_of_notMem fun hmem => ?_)).symm
    obtain ⟨⟨w, u⟩, hp, rfl⟩ := List.mem_map.mp hmem
    exact (not_isReserved (hplain t ht w hv)).1 (isMarked_of_mem_bindings hp)
  refine ⟨ρ.via z _ himage, fun use huse => ?_, hterm⟩
  obtain ⟨⟨vars, hvars, hsorts⟩, hterms⟩ := hs use huse
  refine ⟨vars, vars.map (ρ.via z _ himage).value, hvars, by simp, ?_⟩
  change use.2.map (Term.meaning z _) = _
  rw [List.map_map, List.map_congr_left fun t ht => hterm t (hterms t ht)]
  have hvalues : List.Forall₂ (· = ·) (use.2.map (Term.meaning z ρ))
      (vars.map (some ∘ (ρ.via z _ himage).value)) := by
    rw [List.forall₂_map_left_iff, List.forall₂_map_right_iff]
    refine (List.forall₂_iff_zip.mpr ⟨hsorts.length_eq, fun {v t} hmem => ?_⟩).flip
    refine ρ.meaning_of_image himage ?_
    have hbound : (v, t) ∈ bindings relations uses :=
      mem_bindings.mpr ⟨use, huse, vars, hvars, hmem⟩
    rcases Substitution.image_cases (bindings relations uses) v with hmem' | ⟨hnot, -⟩
    · exact bindings_functional hr.names hn hmem' hbound rfl
    · exact absurd (List.mem_map_of_mem hbound) hnot
  rwa [List.forall₂_eq_eq_eq] at hvalues

end Extension

/-- A normalized clause that says what a stated clause says. -/
structure NormalForm (relations : List Relation) (c : Clause) (nc : NormalizedClause) : Prop where
  regular : nc.Regular relations
  body : nc.body.map (·.relation) = c.body.map (·.relation)
  head : nc.headRelation? = c.head.map (·.relation)
  hasInstance : ∀ z body head, nc.HasInstance z relations body head ↔ c.HasInstance z body head
  oneSort : OneSort c.occurrences → OneSort (nc.symbols relations)

variable {index : Nat} {nc : NormalizedClause}

theorem NormalForm.body_eq_nil (h : c.NormalForm relations nc) : nc.body = [] ↔ c.body = [] := by
  rw [← List.map_eq_nil_iff (f := Atom.relation), h.body, List.map_eq_nil_iff]

theorem NormalForm.head_eq_none (h : c.NormalForm relations nc) :
    nc.head = none ↔ c.head = none := by
  rw [← Option.map_eq_none_iff (f := Atom.relation), ← Option.map_eq_none_iff (x := c.head),
    ← h.head, NormalizedClause.headRelation?]

theorem NormalForm.satisfiedBy (h : c.NormalForm relations nc) {z : ZeroDivision}
    {I : RelationId → List Value → Prop} : nc.SatisfiedBy z relations I ↔ c.SatisfiedBy z I :=
  forall₂_congr fun body head => imp_congr_left (h.hasInstance z body head)

/-- The uses of a normalized clause are the numbered uses of the clause. -/
theorem uses_of_normalize (h : c.normalize relations index = .ok nc) :
    nc.uses = c.numbered.map (·.1) := by
  obtain ⟨-, -, -, hbody, hhead, -, -⟩ := normalize_spec h
  rw [NormalizedClause.uses, hbody, hhead, numbered, List.map_append]
  cases c.head <;> rfl

/-- The symbols of a normalized constraint are argument symbols of the uses and plain variables that
are stated. -/
theorem occurrences_of_normalize (h : c.normalize relations index = .ok nc) :
    ∀ v ∈ nc.constraint.occurrences, (∃ a ∈ nc.uses, a.HasArgument relations v) ∨
      isReserved v.name = false ∧ v ∈ c.occurrences := by
  have huses := uses_of_normalize h
  obtain ⟨equations, heqs, -, -, -, hconstraint, hplain⟩ := normalize_spec h
  intro v hv
  have stated {t : Term} (ht : t ∈ c.terms) (hvt : v ∈ t.occurrences) :
      isReserved v.name = false ∧ v ∈ c.occurrences :=
    ⟨hplain t ht v hvt, List.mem_flatMap.mpr ⟨t, ht, hvt⟩⟩
  rw [hconstraint] at hv
  obtain ⟨t, ht, hvt⟩ := Term.mem_occurrences_conjoin hv
  rcases List.mem_append.mp ht with ht | ht
  · obtain ⟨eqs, heqmem, hte⟩ := List.mem_flatten.mp ht
    obtain ⟨use, huse, hbind⟩ := heqs.flip.exists_right heqmem
    obtain ⟨vars, hvars, rfl⟩ := bindArguments_eq_ok.mp hbind
    rw [← List.map_uncurry_zip_eq_zipWith] at hte
    obtain ⟨⟨w, u⟩, hwu, rfl⟩ := List.mem_map.mp hte
    rcases List.mem_append.mp (Term.occurrences_equation ▸ hvt) with hvw | hvu
    · obtain rfl := List.mem_singleton.mp hvw
      exact .inl ⟨use.1, huses ▸ List.mem_map_of_mem huse, vars, hvars,
        (List.of_mem_zip hwu).1⟩
    · exact .inr (stated (mem_terms_of_numbered huse (List.of_mem_zip hwu).2) hvu)
  · exact .inr (stated (List.mem_append_right _ ht) hvt)

/-- A clause that is normalized uses declared relations. -/
theorem known_of_normalize (h : c.normalize relations index = .ok nc) : nc.Known relations := by
  intro a ha
  obtain ⟨equations, heqs, -⟩ := normalize_spec h
  rw [uses_of_normalize h] at ha
  obtain ⟨use, huse, rfl⟩ := List.mem_map.mp ha
  obtain ⟨eqs, -, hbind⟩ := heqs.exists_right huse
  obtain ⟨vars, hvars, -⟩ := bindArguments_eq_ok.mp hbind
  exact ⟨vars, hvars⟩

/-- Normalization equates the argument symbols of a well-sorted clause with the arguments. -/
theorem binds_of_normalize (hw : c.WellSorted relations)
    (h : c.normalize relations index = .ok nc) : nc.Binds relations := by
  rintro a ha v ⟨vars, hvars, hv⟩
  rw [uses_of_normalize h] at ha
  obtain ⟨use, huse, rfl⟩ := List.mem_map.mp ha
  obtain ⟨equations, heqs, -, -, -, hconstraint, hplain⟩ := normalize_spec h
  obtain ⟨⟨vars', hvars', hsorts⟩, hterms⟩ := useSorted_of_mem hw heqs huse
  obtain rfl := Except.ok.inj (hvars.symm.trans hvars')
  obtain ⟨eqs, heqmem, hbind⟩ := heqs.exists_right huse
  obtain ⟨vars', hvars', rfl⟩ := bindArguments_eq_ok.mp hbind
  obtain rfl := Except.ok.inj (hvars.symm.trans hvars')
  obtain ⟨i, hi, rfl⟩ := List.mem_iff_getElem.mp hv
  have hi' : i < use.2.length := hsorts.length_eq ▸ hi
  have hequation : Term.equation (.var vars[i]) use.2[i] ∈
      vars.zipWith (fun v t => .equation (.var v) t) use.2 :=
    List.mem_iff_getElem.mpr ⟨i, by
      rw [List.length_zipWith]
      exact Nat.lt_min.mpr ⟨hi, hi'⟩, by simp⟩
  have hmem := List.mem_append_left c.constraint.toList
    (List.mem_flatten.mpr ⟨_, heqmem, hequation⟩)
  refine ⟨use.2[i], ?_, hsorts.get hi hi', hplain _ (hterms _ (List.getElem_mem hi'))⟩
  rw [hconstraint, Term.conjuncts_conjoin, Term.conjunctsList_eq]
  exact List.mem_flatMap.mpr ⟨_, hmem, List.mem_singleton.mpr rfl⟩

/-- A normalized clause is regular if its constraint is a formula. -/
theorem regular_of_normalize (h : c.normalize relations index = .ok nc)
    (hsort : nc.constraint.hasSort .bool = true) : nc.Regular relations :=
  ⟨hsort, known_of_normalize h, uses_of_normalize h ▸ c.numbered_nodup,
    fun v hv => (occurrences_of_normalize h v hv).imp_right And.left⟩

/-- The normalized constraint of a well-sorted clause is a formula. -/
theorem hasSort_of_normalize (hw : c.WellSorted relations)
    (h : c.normalize relations index = .ok nc) : nc.constraint.hasSort .bool = true := by
  obtain ⟨equations, heqs, -, -, -, hconstraint, -⟩ := normalize_spec h
  rw [hconstraint]
  refine Term.hasSort_conjoin fun t ht => ?_
  rcases List.mem_append.mp ht with ht | ht
  · obtain ⟨eqs, heqmem, hte⟩ := List.mem_flatten.mp ht
    obtain ⟨use, huse, hbind⟩ := heqs.flip.exists_right heqmem
    obtain ⟨vars, hvars, rfl⟩ := bindArguments_eq_ok.mp hbind
    obtain ⟨⟨vars', hvars', hsorts⟩, -⟩ := useSorted_of_mem hw heqs huse
    obtain rfl := Except.ok.inj (hvars.symm.trans hvars')
    rw [← List.map_uncurry_zip_eq_zipWith] at hte
    obtain ⟨⟨w, u⟩, hwu, rfl⟩ := List.mem_map.mp hte
    exact Term.hasSort_equation (Term.hasSort_var.mpr rfl)
      ((List.forall₂_iff_zip.mp hsorts).2 hwu)
  · have hcond := hw.condition
    rwa [condition, Option.mem_toList.mp ht, Option.getD_some] at hcond

theorem numberUses_relations (before : List RelationId) (body : List Application) :
    ((numberUses before body).map (·.1)).map (·.relation) = body.map (·.relation) := by
  induction body generalizing before with
  | nil => rfl
  | cons a body ih => simp only [numberUses, List.map_cons, ih]

/-- The constraint of a clause is true if it has one. -/
theorem trueUnder_condition_iff {arith : Op → List Int → Option Int} {env : Var → Option Value} :
    c.condition.TrueUnder arith env ↔ ∀ t ∈ c.constraint.toList, t.TrueUnder arith env := by
  unfold condition
  cases c.constraint <;> simp

theorem holds_condition_iff {ρ : Valuation} :
    c.condition.Holds z ρ ↔ ∀ t ∈ c.constraint.toList, t.Holds z ρ := trueUnder_condition_iff

/-- The normalized constraint is true exactly if the constraint of the clause is and all argument
symbols have the values of the terms in their places. -/
theorem trueUnder_constraint_iff {arith : Op → List Int → Option Int} {env : Var → Option Value}
    (h : c.normalize relations index = .ok nc)
    (hlength : ∀ use ∈ c.numbered, ∀ vars, use.1.arguments relations = .ok vars →
      vars.length = use.2.length) :
    nc.constraint.TrueUnder arith env ↔
      (∀ use ∈ c.numbered, UseAgrees arith relations env use) ∧
        c.condition.TrueUnder arith env := by
  obtain ⟨equations, heqs, -, -, -, hconstraint, -⟩ := normalize_spec h
  rw [hconstraint, Term.trueUnder_conjoin, List.forall_mem_append,
    trueUnder_equations_iff heqs hlength, trueUnder_condition_iff]

/-- Where the equations of all uses are true, the uses and the applications of a body stand for the
same ground atoms. -/
private theorem forall₂_denotes_iff {ρ : Valuation}
    (h : ∀ use ∈ c.numbered, UseHolds z relations ρ use) {body : List GroundAtom} :
    List.Forall₂ (Atom.Denotes relations ρ) ((numberUses [] c.body).map (·.1)) body ↔
      List.Forall₂ (Application.Denotes z ρ) c.body body :=
  forall₂_numberUses_iff fun use huse _ hm _ => (h use huse).denotes_iff hm

private theorem headDenotes_iff {ρ : Valuation}
    (h : ∀ use ∈ c.numbered, UseHolds z relations ρ use) {head : GroundAtom} :
    Atom.HeadDenotes relations ρ (c.head.map fun a =>
        ⟨a.relation, (c.body.map (·.relation)).count a.relation⟩) head ↔
      HeadDenotes z ρ c.head head := by
  cases hh : c.head with
  | none => exact .rfl
  | some a =>
    refine (h (⟨a.relation, _⟩, a.args) ?_).denotes_iff ⟨rfl, rfl⟩
    simp [numbered, hh]

/-- Normalization keeps what a clause says. -/
theorem normalForm_of_normalize (hr : WellDeclared relations) (hw : c.WellSorted relations)
    (h : c.normalize relations index = .ok nc) : NormalForm relations c nc := by
  have hregular := regular_of_normalize h (hasSort_of_normalize hw h)
  have hocc := occurrences_of_normalize h
  obtain ⟨equations, heqs, -, hbody, hhead, -, hplain⟩ := normalize_spec h
  have hsorted : ∀ use ∈ c.numbered, UseSorted relations c use := fun _ => useSorted_of_mem hw heqs
  refine ⟨hregular, hbody ▸ numberUses_relations [] c.body, ?_, fun z body head => ?_,
    fun hone v hv w hw hname => ?_⟩
  · rw [NormalizedClause.headRelation?, hhead]
    cases c.head <;> rfl
  · have hholds (ρ : Valuation) : nc.constraint.Holds z ρ ↔
        (∀ use ∈ c.numbered, UseHolds z relations ρ use) ∧ c.condition.Holds z ρ :=
      trueUnder_constraint_iff h fun use huse _ => (hsorted use huse).length_eq
    rw [NormalizedClause.HasInstance, HasInstance, hbody, hhead]
    constructor
    · rintro ⟨ρ, hρ, hb, hd⟩
      obtain ⟨huses, hcond⟩ := (hholds ρ).mp hρ
      exact ⟨ρ, hcond, (forall₂_denotes_iff huses).mp hb, (headDenotes_iff huses).mp hd⟩
    · rintro ⟨ρ, hcond, hb, hd⟩
      obtain ⟨ρ', huses, hterms⟩ := exists_useHolds hr c.numbered_nodup hsorted hplain ρ (z := z)
      have happ {a : Application} {g : GroundAtom} (ha : a ∈ c.applications)
          (hg : a.Denotes z ρ g) : a.Denotes z ρ' g := by
        refine ⟨hg.1, ?_⟩
        rw [← hg.2]
        exact List.map_congr_left fun t ht =>
          hterms t (List.mem_append_left _ (List.mem_flatMap.mpr ⟨a, ha, ht⟩))
      refine ⟨ρ', (hholds ρ').mpr ⟨huses, ?_⟩, (forall₂_denotes_iff huses).mpr ?_,
        (headDenotes_iff huses).mpr ?_⟩
      · refine holds_condition_iff.mpr fun t ht => ?_
        rw [Term.Holds, hterms t (List.mem_append_right _ ht)]
        exact holds_condition_iff.mp hcond t ht
      · exact hb.imp_mem fun a ha g _ => happ (List.mem_append_left _ ha)
      · cases hh : c.head with
        | none =>
          rw [hh] at hd
          exact hd
        | some a =>
          rw [hh] at hd
          exact happ (by simp [applications, hh]) hd
  · have cases {u : Var} (hu : u ∈ nc.symbols relations) :
        (∃ a ∈ nc.uses, a.HasArgument relations u) ∨
          isReserved u.name = false ∧ u ∈ c.occurrences :=
      (NormalizedClause.mem_symbols.mp hu).elim (hocc u) .inl
    rcases cases hv with ⟨a, -, vs, hvs, hva⟩ | ⟨hvr, hvo⟩ <;>
      rcases cases hw with ⟨b, -, ws, hws, hwb⟩ | ⟨hwr, hwo⟩
    · exact (Atom.arguments_inj hr.names hvs hws hva hwb hname).2
    · exact absurd (hname ▸ Atom.arguments_isMarked hvs hva) (not_isReserved hwr).1
    · exact absurd (hname ▸ Atom.arguments_isMarked hws hwb) (not_isReserved hvr).1
    · exact hone v hvo w hwo hname

end Clause

namespace Problem

variable {p : Problem} {np : NormalizedProblem}

/-- A problem in normalized form says what the stated problem says, clause by clause. -/
structure NormalForm (p : Problem) (np : NormalizedProblem) : Prop where
  relations : np.relations = p.relations
  length : np.clauses.length = p.clauses.length
  clause : ∀ (i : Nat) (nc : NormalizedClause), np.clauses[i]? = some nc → nc.index = i ∧
    ∃ c : Clause, p.clauses[i]? = some c ∧ c.NormalForm p.relations nc

/-- The parts of a normalized problem, which has been found valid before. -/
theorem normalize_spec (h : p.normalize = .ok np) :
    p.validate = .ok () ∧ np.relations = p.relations ∧
      np.clauses.length = p.clauses.length ∧ ∀ (i : Nat) (c : Clause), p.clauses[i]? = some c →
        ∃ nc, np.clauses[i]? = some nc ∧ c.normalize p.relations i = .ok nc := by
  obtain ⟨_, hvalid, h⟩ := Except.bind_eq_ok.mp h
  obtain ⟨clauses, hclauses, h⟩ := Except.bind_eq_ok.mp h
  obtain rfl := Except.ok.inj h
  have hall := Except.mapM_eq_ok.mp hclauses
  have hlength := hall.length_eq
  rw [List.length_zipIdx] at hlength
  refine ⟨hvalid, rfl, hlength.symm, fun i c hc => ?_⟩
  obtain ⟨hi, rfl⟩ := List.getElem?_eq_some_iff.mp hc
  have hone := hall.get (by simpa using hi) (hlength ▸ hi)
  simp only [List.get_eq_getElem, List.getElem_zipIdx, Nat.zero_add] at hone
  exact ⟨_, List.getElem?_eq_getElem (hlength ▸ hi), hone⟩

/-- Every normalized clause has been made from the stated one at its place. -/
theorem exists_clause_of_normalize (h : p.normalize = .ok np) {i : Nat} {nc : NormalizedClause}
    (hnc : np.clauses[i]? = some nc) :
    ∃ c, p.clauses[i]? = some c ∧ c.normalize p.relations i = .ok nc := by
  obtain ⟨-, -, hlength, hclauses⟩ := normalize_spec h
  obtain ⟨hi, -⟩ := List.getElem?_eq_some_iff.mp hnc
  have hc := List.getElem?_eq_getElem (hlength ▸ hi : i < p.clauses.length)
  obtain ⟨nc', hnc', hone⟩ := hclauses i _ hc
  obtain rfl := Option.some.inj (hnc'.symm.trans hnc)
  exact ⟨_, hc, hone⟩

/-- Normalization keeps what a problem says. -/
theorem normalForm_of_normalize (hw : p.WellSorted) (h : p.normalize = .ok np) :
    p.NormalForm np := by
  obtain ⟨-, hrelations, hlength, -⟩ := normalize_spec h
  refine ⟨hrelations, hlength, fun i nc hnc => ?_⟩
  obtain ⟨c, hc, hone⟩ := exists_clause_of_normalize h hnc
  obtain ⟨-, -, hindex, -⟩ := Clause.normalize_spec hone
  exact ⟨hindex, c, hc,
    Clause.normalForm_of_normalize hw.relations (hw.clauses c (List.mem_of_getElem? hc)) hone⟩

/-- Whatever a problem says, its normal form is resolved. -/
theorem resolved_of_normalize (h : p.normalize = .ok np) : np.Resolved := by
  obtain ⟨-, hrelations, -⟩ := normalize_spec h
  refine ⟨fun i nc hnc => ?_, fun nc hmem => ?_⟩
  · obtain ⟨c, -, hone⟩ := exists_clause_of_normalize h hnc
    exact (Clause.normalize_spec hone).choose_spec.2.1
  · obtain ⟨i, hnc⟩ := List.getElem?_of_mem hmem
    obtain ⟨c, -, hone⟩ := exists_clause_of_normalize h hnc
    exact hrelations ▸ Clause.known_of_normalize hone

/-- Every stated clause has its normal form at its place. -/
theorem NormalForm.getElem? (h : p.NormalForm np) {i : Nat} {c : Clause}
    (hc : p.clauses[i]? = some c) :
    ∃ nc, np.clauses[i]? = some nc ∧ c.NormalForm np.relations nc := by
  obtain ⟨hlt, -⟩ := List.getElem?_eq_some_iff.mp hc
  have hnc := List.getElem?_eq_getElem (h.length ▸ hlt)
  obtain ⟨-, c', hc', hform⟩ := h.clause i _ hnc
  obtain rfl := Option.some.inj (hc.symm.trans hc')
  exact ⟨_, hnc, h.relations ▸ hform⟩

theorem NormalForm.exists_normalized (h : p.NormalForm np) {c : Clause} (hc : c ∈ p.clauses) :
    ∃ (i : Nat) (nc : NormalizedClause), np.clauses[i]? = some nc ∧
      c.NormalForm np.relations nc := by
  obtain ⟨i, hi⟩ := List.getElem?_of_mem hc
  exact ⟨i, h.getElem? hi⟩

/-- The variables of a problem that can be normalized are not reserved. -/
theorem plain_of_normalize (h : p.normalize = .ok np) {c : Clause} (hc : c ∈ p.clauses) :
    ∀ v ∈ c.occurrences, isReserved v.name = false := by
  obtain ⟨-, -, -, hclauses⟩ := normalize_spec h
  obtain ⟨i, hi⟩ := List.getElem?_of_mem hc
  obtain ⟨nc, -, hnc⟩ := hclauses i c hi
  obtain ⟨_, -, -, -, -, -, hplain⟩ := Clause.normalize_spec hnc
  intro v hv
  obtain ⟨t, ht, hvt⟩ := List.mem_flatMap.mp hv
  exact hplain t ht v hvt

theorem binds_of_normalize (hw : p.WellSorted) (h : p.normalize = .ok np) :
    ∀ nc ∈ np.clauses, nc.Binds np.relations := by
  intro nc hnc
  obtain ⟨-, hrelations, -⟩ := normalize_spec h
  obtain ⟨i, hi⟩ := List.getElem?_of_mem hnc
  obtain ⟨c, hc, hone⟩ := exists_clause_of_normalize h hi
  rw [hrelations]
  exact Clause.binds_of_normalize (hw.clauses c (List.mem_of_getElem? hc)) hone

theorem NormalForm.regular (h : p.NormalForm np) (hw : p.WellSorted) : np.Regular := by
  refine ⟨h.relations ▸ hw.relations, fun i c hc => ?_⟩
  obtain ⟨hindex, _, -, hform⟩ := h.clause i c hc
  exact ⟨hindex, h.relations ▸ hform.regular⟩

theorem NormalForm.oneSorted (h : p.NormalForm np)
    (hone : ∀ c ∈ p.clauses, OneSort c.occurrences) : np.OneSorted := by
  intro nc hnc
  obtain ⟨i, hi⟩ := List.getElem?_of_mem hnc
  obtain ⟨-, c, hc, hform⟩ := h.clause i nc hi
  exact h.relations ▸ hform.oneSort (hone c (List.mem_of_getElem? hc))

end Problem

end HornSaturation
