import HornSaturation.Proofs.Refutation.Drafts
import HornSaturation.Proofs.Refutation.Order

/-!
# Reconstructed refutations are right

The model that the oracle finds for a step is a model of the clause and of the instances of the
units that it was resolved with. So the values that are read off it make the atom of the step an
instance of the clause, and they are admitted by the units of the children, which can then be
derived in turn.

A unit that admits the values of its draft gives the formulas of its step a model. So reconstruction
can only fail where the oracle does not find a model that exists, unless it fails at the root.
-/

namespace HornSaturation.Refutation

variable {p : NormalizedProblem} {store : Store} {root : UnitId} {drafts : List Draft}
  {w : Workspace} {clause : NormalizedClause}

/-- The constraints of stored units are those of the units as electrons. -/
theorem storedInstances_eq {relations : List Relation} {ids : List UnitId} {us : List UnitClause}
    (h : List.Forall₂ (fun i u => ∃ e, store.get? i = some e ∧ e.unit = u) ids us)
    (position : Nat) : storedInstances store relations clause position ids =
      electronInstances relations clause position us := by
  induction h generalizing position with
  | nil => rfl
  | @cons i u ids us hi _ ih =>
    obtain ⟨e, he, rfl⟩ := hi
    have hunit : storedUnit store i = .ok e.unit := by rw [storedUnit, he]
    rw [storedInstances, electronInstances, hunit, ← ih (position + 1)]
    rfl

/-- Reading values off the model. -/
theorem ensures_readValues {f : Var → Value} {vs : List Var}
    (h : ∀ v ∈ vs, w.oracle.eval (.var v) = some (f v)) {ok : List Value → Workspace → Prop}
    {fail : Error → Workspace → Prop} :
    Ensures (readValues vs) w ok fail ↔ ok (vs.map f) w := by
  induction vs generalizing ok with
  | nil => rfl
  | cons v vs ih =>
    obtain ⟨hv, hrest⟩ := List.forall_mem_cons.mp h
    simp only [readValues, ensures_bind, ensures_get, hv]
    rw [ih hrest]
    rfl

/-- A stored unit serves a use of a relation where it admits the values of the arguments. -/
def Serves (p : NormalizedProblem) (store : Store) (ρ : Valuation) (a : Atom) (i : UnitId) : Prop :=
  ∃ e, store.get? i = some e ∧ ∀ z, e.unit.AdmitsAt z p.relations ρ a

/-- The children of a node are placed with the values that the model gives to the arguments. -/
theorem ensures_placeChildren {ρ : Valuation} {bound : UnitId} {isOpen : Nat → UnitId → Prop}
    (hs : store.Sound p) {ids : List UnitId} (position : Nat)
    (heval : ∀ a ∈ clause.body, ∀ v, a.HasArgument p.relations v →
      w.oracle.eval (.var v) = some (ρ.value v))
    (hids : ∀ i ∈ ids, i < bound ∧ ∀ j, isOpen j i)
    (hserves : List.Forall₂ (Serves p store ρ) (clause.body.drop position) ids)
    (hd : Drafting p store root isOpen drafts) :
    Ensures (placeChildren store p.relations clause position ids drafts) w
      (fun result w' => w' = w ∧ Drafting p store root isOpen result.2 ∧ Grows drafts result.2 ∧
        ∃ atoms, List.Forall₂ (Stands result.2 bound) result.1 atoms ∧
          List.Forall₂ (Atom.Denotes p.relations ρ) (clause.body.drop position) atoms)
      fun _ _ => False := by
  induction ids generalizing position drafts with
  | nil =>
    rw [List.forall₂_nil_right_iff] at hserves
    exact ⟨rfl, hd, .refl drafts, [], .nil, hserves ▸ .nil⟩
  | cons i ids ih =>
    obtain ⟨⟨hbound, hopen⟩, hids⟩ := List.forall_mem_cons.mp hids
    cases hdrop : clause.body.drop position with
    | nil =>
      rw [hdrop] at hserves
      cases hserves
    | cons a rest =>
      rw [hdrop] at hserves
      obtain ⟨⟨e, he, hadm⟩, hrest⟩ := List.forall₂_cons.mp hserves
      have ha : clause.body[position]? = some a := by rw [← List.head?_drop, hdrop]; rfl
      have htail : clause.body.drop (position + 1) = rest := by rw [← List.tail_drop, hdrop]; rfl
      obtain ⟨hhead, vars, hvars, -⟩ := hadm ⟨fun _ => 0, fun _ => 0⟩
      obtain ⟨own, hown, -⟩ := (hs.wellFormed i e he).arguments
      have hsort : (vars.map ρ.value).map Value.sort = own.map Var.sort := by
        have hmoved : ({ e.unit with occurrence := a.occurrence } : UnitClause).arguments
            p.relations = .ok vars := by
          rw [← hvars, UnitClause.arguments, hhead]
        rw [← UnitClause.arguments_sort hown hmoved, List.map_map]
        exact List.map_congr_left fun v _ => ρ.sorted v
      have hadmits (z : ZeroDivision) : e.unit.Admits z p.relations (vars.map ρ.value) := by
        obtain ⟨-, vars', hvars', h⟩ := hadm z
        rwa [Except.ok.inj (hvars.symm.trans hvars')]
      have hread : ∀ v ∈ vars, w.oracle.eval (.var v) = some (ρ.value v) := fun v hv =>
        heval a (List.mem_of_getElem? ha) v ⟨vars, hvars, hv⟩
      simp only [placeChildren, ensures_bind, NormalizedClause.bodyArguments, ha, hvars, ensures_ok,
        ensures_readValues hread, he, Option.map_some]
      rcases hplace : place drafts i ⟨some a.relation, vars.map ρ.value⟩ e.provenance.clause with
        ⟨child, drafts₁⟩
      obtain ⟨hd₁, hgrows₁, d, hd, hunit, hatom⟩ :=
        place_spec hs hd he hhead.symm hown hsort hopen hadmits hplace
      refine (ih (position + 1) hids (htail ▸ hrest) hd₁).mono ?_ fun _ _ => id
      rintro ⟨children, drafts₂⟩ w' ⟨hw, hd₂, hgrows₂, atoms, hstands, hdenotes⟩
      refine ⟨hw, hd₂, hgrows₁.trans hgrows₂, ⟨some a.relation, vars.map ρ.value⟩ :: atoms,
        .cons ?_ hstands, .cons ⟨rfl, vars, hvars, rfl⟩ (htail ▸ hdenotes)⟩
      exact hgrows₂.stands ⟨d, hd, hunit ▸ hbound, hatom⟩

/-- Formulas that a model is asked for in the step that derives a stored unit by a clause: the
constraint of the clause, values for the arguments of its head, and the constraints of the units
that the unit was resolved with. -/
def IsStep (p : NormalizedProblem) (store : Store) (id : UnitId) (values : List Value) (k : Nat)
    (ts : List Term) : Prop :=
  ∃ e electrons clause headVars instances s s', store.get? id = some e ∧
    e.provenance = .derived k electrons ∧ p.clauses[k]? = some clause ∧
    clause.headArguments p.relations = .ok headVars ∧
    values.map Value.sort = headVars.map Var.sort ∧
    (storedInstances store p.relations clause 0 electrons).run.run s = (.ok instances, s') ∧
    ts = clause.constraint :: (equations headVars values ++ instances)

/-- The oracle does not find a model of the formulas of a step, though they have one if the unit of
the step admits the values. It does unless it is the unit at the root. -/
structure StuckAt (p : NormalizedProblem) (store : Store) (root : UnitId) (o : Oracle) (id : UnitId)
    (values : List Value) (k : Nat) (answer : Answer) (ts : List Term) : Prop where
  step : IsStep p store id values k ts
  asked : (o.checkWith ts).1 = answer
  notSat : answer ≠ .sat
  admitted : id = root ∨
    ∃ e, store.get? id = some e ∧ ∀ z, e.unit.Admits z p.relations values
  model : ∀ e, store.get? id = some e → (∀ z, e.unit.Admits z p.relations values) →
    ∀ z, ∃ ρ : Valuation, ∀ t ∈ ts, t.Holds z ρ

/-- An error that says that a step is not reproducible. -/
def Stuck (p : NormalizedProblem) (store : Store) (root : UnitId) (o : Oracle) (e : Error) : Prop :=
  ∃ id values k answer ts, e = .internal (.notReproducible k answer) ∧
    StuckAt p store root o id values k answer ts

/-- Asking before does not change on which steps the oracle gets stuck. -/
theorem Stuck.of_asked {o o' : Oracle} {e : Error} (h : o.Asked o')
    (hs : Stuck p store root o' e) : Stuck p store root o e := by
  obtain ⟨id, values, k, answer, ts, he, hstuck⟩ := hs
  have hasked := (h.checkWith_fst ts).symm.trans hstuck.asked
  exact ⟨id, values, k, answer, ts, he, { hstuck with asked := hasked }⟩

/-- The formulas of a step have a model if its unit admits the values of its atom. -/
theorem exists_model_of_admits {u : UnitClause} {g : GroundAtom} {headVars fresh : List Var}
    {us : List UnitClause} {ids : List UnitId} {ts : List Term} {lo hi : Nat} {z : ZeroDivision}
    (hs : store.Sound p) (hc : clause.Regular p.relations)
    (hhead : clause.headArguments p.relations = .ok headVars) (hf : Taken lo hi fresh)
    (hts : AreInstances p.relations clause.body us fresh ts)
    (hus : List.Forall₂ (fun i u => ∃ e, store.get? i = some e ∧ e.unit = u) ids us)
    (hderived : ∀ g, u.Asserts z p.relations g → ∃ body,
      clause.HasInstance z p.relations body g ∧ List.Forall₂ (store.AssertsAt z) ids body)
    (hrel : g.relation = u.head) (hadm : u.Admits z p.relations g.args) :
    ∃ ρ : Valuation, ∀ t ∈ clause.constraint :: (equations headVars g.args ++ ts),
      t.Holds z ρ := by
  obtain ⟨body, ⟨ρ, hρ, hbody, hdenotes⟩, hids⟩ := hderived g ⟨hrel.symm, hadm⟩
  have hasserts : List.Forall₂ (UnitClause.Asserts z p.relations) us body := by
    refine hus.of_common hids ?_
    rintro i u g ⟨e, he, rfl⟩ ⟨e', he', hg⟩
    obtain rfl := Option.some.inj (he.symm.trans he')
    rwa [← hs.relations]
  have hvalues := ((headDenotes_iff hhead).mp hdenotes).2
  have hadmits := forall₂_admitsAt_iff.mpr ⟨body, hbody, hasserts⟩
  obtain ⟨ρ', hvalues', hall⟩ :=
    (exists_holds_conjoin_iff hc hhead hf hts).mpr ⟨ρ, hvalues, hρ, hadmits⟩
  obtain ⟨hconstraint, hinstances⟩ := List.forall_mem_cons.mp (Term.holds_conjoin.mp hall)
  have hlen : headVars.length = g.args.length := by rw [← hvalues', List.length_map]
  refine ⟨ρ', List.forall_mem_cons.mpr ⟨hconstraint, fun t ht => ?_⟩⟩
  rcases List.mem_append.mp ht with ht | ht
  · exact (holds_equations hlen).mpr hvalues' t ht
  · exact hinstances t ht

section Model

variable {headVars fresh : List Var} {values : List Value} {us : List UnitClause} {ts : List Term}
  {lo hi : Nat} {o o' : Oracle}

/-- The formulas of a step are about symbols of its clause and fresh symbols. -/
theorem symbols_of_step (hhead : clause.headArguments p.relations = .ok headVars)
    (hts : AreInstances p.relations clause.body us fresh ts) {v : Var}
    (hv : v ∈ (clause.constraint :: (equations headVars values ++ ts)).flatMap Term.occurrences) :
    v ∈ clause.symbols p.relations ∨ v ∈ fresh := by
  rw [List.flatMap_cons, List.flatMap_append, List.mem_append, List.mem_append] at hv
  rcases hv with hv | hv | hv
  · exact .inl (NormalizedClause.mem_symbols.mpr (.inl hv))
  · obtain ⟨t, ht, hv⟩ := List.mem_flatMap.mp hv
    exact .inl (NormalizedClause.mem_symbols_of_mem_headArguments hhead (mem_of_mem_equations ht hv))
  · obtain ⟨t, ht, hv⟩ := List.mem_flatMap.mp hv
    refine (hts.occurrences t ht v hv).imp_left fun ⟨a, ha, hva⟩ => ?_
    exact NormalizedClause.mem_symbols.mpr
      (.inr ⟨a, NormalizedClause.Regular.mem_uses_of_body ha, hva⟩)

variable (hr : WellDeclared p.relations) (hclause : clause ∈ p.clauses)
  (hc : clause.Regular p.relations) (hhead : clause.headArguments p.relations = .ok headVars)
  (hf : Taken lo hi fresh) (hts : AreInstances p.relations clause.body us fresh ts)
  (ho : o.Discerns p)

include hr hclause hc hhead hf hts ho

section Found

variable (hmodel : o'.decide (Term.conjoin (o.assertions ++ clause.constraint ::
  (equations headVars values ++ ts))).foldConstants = .model o'.model)

include hmodel

/-- A model of the formulas of a step gives argument symbols values of their sorts. -/
theorem fits_argument_of_step {a : Atom} (ha : a ∈ clause.uses) {v : Var}
    (hv : a.HasArgument p.relations v) : o'.Fits v :=
  ho.fits_argument hclause hc hf (fun _ hv => symbols_of_step hhead hts hv) hmodel hr
    List.mem_cons_self ha hv

/-- It gives all symbols of the folded constraint of the clause values of their sorts, if each name
in the clause has one sort. -/
theorem fits_constraint_of_step (hone : OneSort (clause.symbols p.relations)) {c : Term}
    (hct : c ∈ clause.constraint.conjuncts) {v : Var} (hv : v ∈ c.foldConstants.occurrences) :
    o'.Fits v := by
  have hvt := Term.mem_occurrences_of_conjunct hct (Term.mem_occurrences_foldConstants hv)
  rcases hc.occurrences v hvt with ⟨a, ha, hva⟩ | hplain
  · exact fits_argument_of_step hr hclause hc hhead hf hts ho hmodel ha hva
  · exact ho.fits_plain hclause hc hf (fun _ hv => symbols_of_step hhead hts hv) hmodel hone
      List.mem_cons_self hct hv hplain

/-- It gives all symbols of the other folded formulas values of their sorts. -/
theorem fits_of_step {t c : Term} (ht : t ∈ equations headVars values ++ ts)
    (hct : c ∈ t.conjuncts) {v : Var} (hv : v ∈ c.foldConstants.occurrences) : o'.Fits v := by
  have hargument {a : Atom} (ha : a ∈ clause.uses) (hva : a.HasArgument p.relations v) :=
    fits_argument_of_step hr hclause hc hhead hf hts ho hmodel ha hva
  have hvt := Term.mem_occurrences_of_conjunct hct (Term.mem_occurrences_foldConstants hv)
  rcases List.mem_append.mp ht with hmem | hmem
  · obtain ⟨a, ha, hva⟩ :=
      NormalizedClause.exists_use_of_mem_headArguments hhead (mem_of_mem_equations hmem hvt)
    exact hargument ha hva
  · rcases hts.occurrences t hmem v hvt with ⟨a, ha, hva⟩ | hfresh
    · exact hargument (NormalizedClause.Regular.mem_uses_of_body ha) hva
    · exact ho.fits_fresh hc hf (fun _ hv => symbols_of_step hhead hts hv) hmodel hfresh
        (List.mem_cons_of_mem _ ht) hct hv

end Found

/-- A model of the formulas of a step makes it an instance of its clause, and gives argument values
that the units of the children admit. -/
theorem step_of_sat (hvalues : values.map Value.sort = headVars.map Var.sort)
    (h : o.checkWith (clause.constraint :: (equations headVars values ++ ts)) = (.sat, o')) :
    (OneSort (clause.symbols p.relations) → ∀ z, clause.constraint.Holds z o'.valuation) ∧
      headVars.map o'.valuation.value = values ∧
      (∀ z, List.Forall₂ (UnitClause.AdmitsAt z p.relations o'.valuation) clause.body us) ∧
      ∀ a ∈ clause.body, ∀ v, a.HasArgument p.relations v →
        o'.eval (.var v) = some (o'.valuation.value v) := by
  obtain ⟨-, -, hmodel⟩ := Oracle.checkWith_spec h
  replace hmodel := hmodel rfl
  have holds (z : ZeroDivision) {t : Term} (ht : t ∈ equations headVars values ++ ts)
      (hq : t.IsQuestion) : t.Holds z o'.valuation :=
    Oracle.holds_of_fits hmodel z (List.mem_append_right _ (List.mem_cons_of_mem _ ht))
      (fun _ hct _ hv => fits_of_step hr hclause hc hhead hf hts ho hmodel ht hct hv) hq
  have hlen : headVars.length = values.length := by
    simpa using (congrArg List.length hvalues).symm
  refine ⟨fun hone z => ?_, ?_, fun z => ?_, fun a ha v hv => ?_⟩
  · refine Oracle.holds_of_fits hmodel z (List.mem_append_right _ List.mem_cons_self) ?_
      (.inl hc.sorted)
    exact fun _ hct _ hv =>
      fits_constraint_of_step hr hclause hc hhead hf hts ho hmodel hone hct hv
  · refine (holds_equations (z := default) hlen).mp fun t ht => ?_
    exact holds _ (List.mem_append_left _ ht) (isQuestion_equations t ht)
  · refine hts.sound z _ fun t ht => ?_
    exact holds z (List.mem_append_right _ ht) (.inl (hts.sorted t ht))
  · exact Oracle.eval_var (fits_argument_of_step hr hclause hc hhead hf hts ho hmodel
      (NormalizedClause.Regular.mem_uses_of_body ha) hv)

end Model

/-- The argument symbols of a unit and of the head of its clause have the same sorts. -/
theorem sorts_eq {relations : List Relation} {u : UnitClause} {vars headVars : List Var}
    (hhead : u.head = clause.headRelation?) (hvars : u.arguments relations = .ok vars)
    (hheadVars : clause.headArguments relations = .ok headVars) :
    vars.map Var.sort = headVars.map Var.sort := by
  unfold NormalizedClause.headRelation? at hhead
  unfold NormalizedClause.headArguments at hheadVars
  cases hh : clause.head with
  | none =>
    rw [hh] at hhead hheadVars
    rw [UnitClause.arguments, hhead] at hvars
    rw [← Except.ok.inj hvars, ← Except.ok.inj hheadVars]
  | some a =>
    rw [hh] at hhead hheadVars
    have hmoved : ({ u with occurrence := a.occurrence } : UnitClause).arguments relations =
        .ok headVars := by
      rw [← hheadVars, UnitClause.arguments, hhead]
      rfl
    exact (UnitClause.arguments_sort hvars hmoved).symm

/-- Stored units that admit the arguments of a body serve it. -/
private theorem serves_of_admits {ρ : Valuation} {body : List Atom} {us : List UnitClause}
    {ids : List UnitId}
    (hus : List.Forall₂ (fun c u => ∃ e, store.get? c = some e ∧ e.unit = u) ids us)
    (h : ∀ z, List.Forall₂ (UnitClause.AdmitsAt z p.relations ρ) body us) :
    List.Forall₂ (Serves p store ρ) body ids := by
  have hlen := (h ⟨fun _ => 0, fun _ => 0⟩).length_eq
  have hall : List.Forall₂ (fun a u => ∀ z, UnitClause.AdmitsAt z p.relations ρ a u) body us :=
    List.forall₂_iff_zip.mpr ⟨hlen, fun {a u} hmem z => (List.forall₂_iff_zip.mp (h z)).2 hmem⟩
  refine hall.flip.of_common hus.flip ?_
  rintro u a c hua ⟨e, he, rfl⟩
  exact ⟨e, he, hua⟩

/-- Children that are placed for a step complete its draft if the step is an instance of the clause
of the draft. -/
private theorem ensures_placeStep {ρ : Valuation} {isOpen : Nat → UnitId → Prop} {i : Nat}
    {d : Draft} {ids : List UnitId} (hs : store.Sound p)
    (hclause : p.clauses[d.node.clause]? = some clause)
    (heval : ∀ a ∈ clause.body, ∀ v, a.HasArgument p.relations v →
      w.oracle.eval (.var v) = some (ρ.value v))
    (hids : ∀ c ∈ ids, c < d.unit ∧ ∀ j, isOpen j c)
    (hserves : List.Forall₂ (Serves p store ρ) clause.body ids)
    (hholds : p.OneSorted → ∀ z, clause.constraint.Holds z ρ)
    (hhead : Atom.HeadDenotes p.relations ρ clause.head d.node.atom)
    (hd : Drafting p store root isOpen drafts) (hi : drafts[i]? = some d) :
    Ensures (placeChildren store p.relations clause 0 ids drafts) w
      (fun result w' => w' = w ∧
        Drafting p store root (fun j u => j ≠ i ∧ isOpen j u) (setChildren result.2 i result.1) ∧
        Grows drafts (setChildren result.2 i result.1))
      fun _ _ => False := by
  refine (ensures_placeChildren hs 0 heval hids hserves hd).mono ?_ fun _ _ => id
  rintro ⟨children, drafts₁⟩ w' ⟨hw, hd₁, hgrows, atoms, hstands, hdenotes⟩
  obtain ⟨d₁, hd₁i, hunit, hatom, hcl⟩ := hgrows i d hi
  have hinst (hone : p.OneSorted) (z : ZeroDivision) :
      clause.HasInstance z p.relations atoms d₁.node.atom :=
    ⟨ρ, hholds hone z, hdenotes, hatom ▸ hhead⟩
  obtain ⟨hdone, hgrows'⟩ := setChildren_spec hd₁ hd₁i (hcl ▸ hclause) (hunit ▸ hstands) hinst
  exact ⟨hw, hdone, hgrows.trans hgrows'⟩

/-- Expanding a draft of a unit derives it. -/
theorem ensures_expandNode {e : StoredUnit} {k i : Nat} {d : Draft} {electrons : List UnitId}
    {headVars : List Var} {isOpen : Nat → UnitId → Prop} (hp : p.Regular) (hs : store.Sound p)
    (hclause : p.clauses[k]? = some clause)
    (hheadVars : clause.headArguments p.relations = .ok headVars)
    (he : store.get? d.unit = some e) (hprov : e.provenance = .derived k electrons)
    (hopen : ∀ c ∈ electrons, ∀ j, isOpen j c) (hd : Drafting p store root isOpen drafts)
    (hi : drafts[i]? = some d) (ho : w.oracle.Discerns p) :
    Ensures (expandNode store p.relations clause headVars electrons drafts i) w
      (fun drafts' w' => w.oracle.Asked w'.oracle ∧
        Drafting p store root (fun j u => j ≠ i ∧ isOpen j u) drafts' ∧ Grows drafts drafts')
      fun e _ => Stuck p store root w.oracle e := by
  obtain ⟨hindex, hc⟩ := hp.clause k clause hclause
  obtain ⟨clause', hclause', hhead, helectrons, hderived⟩ := hs.derivedFrom he hprov
  obtain rfl := Option.some.inj (hclause.symm.trans hclause')
  have hbefore := Store.stored_before_of_forall₂ helectrons
  have hus : List.Forall₂ (fun c u => ∃ e, store.get? c = some e ∧ e.unit = u) electrons
      (electrons.filterMap fun c => (store.get? c).map (·.unit)) :=
    Store.forall₂_units fun c hcm => (hbefore c hcm).2
  set us := electrons.filterMap fun c => (store.get? c).map (·.unit)
  have hw : ∀ u ∈ us, u.constraint.hasSort .bool = true := fun u hu => by
    obtain ⟨c, -, e, he, rfl⟩ := hus.flip.exists_right hu
    exact (hs.wellFormed c e he).sorted
  have hlen : us.length = (clause.body.drop 0).length := by
    rw [List.drop_zero, helectrons.length_eq, hus.length_eq]
  have htakes : List.Forall₂ Atom.Takes (clause.body.drop 0) us :=
    Store.forall₂_takes (helectrons.imp fun _ _ h => h.2) hus
  obtain ⟨e', he', hnode, hrel, own, hown, hsorts⟩ := hd.fits d (List.mem_of_getElem? hi)
  obtain rfl := Option.some.inj (he.symm.trans he')
  have hvalues := hsorts.trans (sorts_eq hhead hown hheadVars)
  simp only [expandNode, hi, Option.map_some, Option.getD_some, ensures_bind, ensures_allocate]
  have hinstances :=
    (ensures_electronInstances hp.relations hc hw 0 w.symbols hlen).and ensures_run
  rw [← storedInstances_eq hus] at hinstances
  refine hinstances.mono ?_ fun _ _ h => absurd htakes h.1
  rintro ts s ⟨⟨fresh, htaken, hts⟩, hrun⟩
  rw [List.drop_zero] at hts
  simp only [ensures_workspace_ask]
  rcases hcheck : w.oracle.checkWith (clause.constraint ::
    (equations headVars d.node.atom.args ++ ts)) with ⟨answer, o⟩
  have hasked : w.oracle.Asked o := by
    have hasked := w.oracle.checkWith_asked
      (clause.constraint :: (equations headVars d.node.atom.args ++ ts))
    rwa [hcheck] at hasked
  dsimp only
  split
  · next hanswer =>
    refine ⟨d.unit, d.node.atom.args, k, answer, _, by rw [hindex], {
      step := ⟨e, electrons, clause, headVars, ts, w.symbols, s, he, hprov, hclause, hheadVars,
        hvalues, hrun, rfl⟩
      asked := congrArg Prod.fst hcheck
      notSat := hanswer
      admitted := hd.admitted d (List.mem_of_getElem? hi)
      model := fun e' he' hadm z => ?_ }⟩
    obtain rfl := Option.some.inj (he.symm.trans he')
    exact exists_model_of_admits hs hc hheadVars htaken hts hus (hderived z) hrel (hadm z)
  next hsat =>
  rw [not_not] at hsat
  subst hsat
  obtain ⟨hholds, hheadValues, hadmits, heval⟩ :=
    step_of_sat hp.relations (List.mem_of_getElem? hclause) hc hheadVars htaken hts ho hvalues
      hcheck
  have hclauseAt : p.clauses[d.node.clause]? = some clause := by
    rw [hnode, hprov]
    exact hclause
  simp only [ensures_bind, ensures_pure]
  refine (ensures_placeStep (w := { oracle := o, symbols := s }) hs hclauseAt heval
    (fun c hcm => ⟨(hbefore c hcm).1, hopen c hcm⟩) (serves_of_admits hus hadmits)
    (fun hone => hholds (hone clause (List.mem_of_getElem? hclause)))
    ((headDenotes_iff hheadVars).mpr ⟨hrel.trans hhead, hheadValues⟩) hd hi).mono ?_
    fun _ _ => False.elim
  rintro ⟨children, drafts₁⟩ w' ⟨rfl, hdone, hgrows⟩
  exact ⟨hasked, hdone, hgrows⟩

/-- Expanding drafts of one unit, one after the other. -/
private theorem ensures_expandNodes {e : StoredUnit} {id k : Nat} {electrons todo : List UnitId}
    {headVars : List Var} (hp : p.Regular) (hs : store.Sound p)
    (hclause : p.clauses[k]? = some clause)
    (hheadVars : clause.headArguments p.relations = .ok headVars)
    (he : store.get? id = some e) (hprov : e.provenance = .derived k electrons)
    (htodo : ∀ c ∈ electrons, c ∈ todo) (placed : List Nat)
    (hplaced : ∀ i ∈ placed, ∃ d, drafts[i]? = some d ∧ d.unit = id)
    (hd : Drafting p store root (fun j u => u ∈ todo ∨ j ∈ placed) drafts)
    (ho : w.oracle.Discerns p) :
    Ensures (placed.foldlM (expandNode store p.relations clause headVars electrons) drafts) w
      (fun drafts' w' => w.oracle.Asked w'.oracle ∧
        Drafting p store root (fun _ u => u ∈ todo) drafts' ∧ Grows drafts drafts')
      fun e _ => Stuck p store root w.oracle e := by
  induction placed generalizing drafts w with
  | nil =>
    refine ⟨.refl _, hd.mono fun i d _ hopen _ => ?_, .refl drafts⟩
    exact hopen.resolve_right List.not_mem_nil
  | cons i placed ih =>
    obtain ⟨⟨d, hi, rfl⟩, hrest⟩ := List.forall_mem_cons.mp hplaced
    simp only [List.foldlM_cons, ensures_bind]
    refine (ensures_expandNode hp hs hclause hheadVars he hprov
      (fun c hc j => .inl (htodo c hc)) hd hi ho).mono ?_ fun _ _ => id
    rintro drafts₁ w₁ ⟨hl₁, hd₁, hgrows₁⟩
    have hrest₁ : ∀ j ∈ placed, ∃ d', drafts₁[j]? = some d' ∧ d'.unit = d.unit := fun j hj => by
      obtain ⟨d', hd', hunit⟩ := hrest j hj
      obtain ⟨d'', hd'', hunit', -⟩ := hgrows₁ j d' hd'
      exact ⟨d'', hd'', hunit'.trans hunit⟩
    have hopen₁ : Drafting p store root (fun j u => u ∈ todo ∨ j ∈ placed) drafts₁ :=
      hd₁.mono fun j d' _ h _ => h.2.imp_right fun hj =>
        (List.mem_cons.mp hj).resolve_left h.1
    refine (ih hrest₁ hopen₁ (ho.later hl₁.toLater)).mono ?_ fun _ _ hstuck =>
      hstuck.of_asked hl₁
    rintro drafts₂ w₂ ⟨hl₂, hd₂, hgrows₂⟩
    exact ⟨hl₁.trans hl₂, hd₂, hgrows₁.trans hgrows₂⟩

/-- Expanding all drafts of a unit. -/
theorem ensures_expandUnit {id : UnitId} {todo : List UnitId} (hp : p.Regular) (hs : store.Sound p)
    (htodo : ∀ e, store.get? id = some e → ∀ c ∈ e.provenance.electrons, c ∈ todo)
    (hd : Drafting p store root (fun _ u => u ∈ id :: todo) drafts)
    (ho : w.oracle.Discerns p) :
    Ensures (expandUnit store p drafts id) w
      (fun drafts' w' => w.oracle.Asked w'.oracle ∧
        Drafting p store root (fun _ u => u ∈ todo) drafts' ∧ Grows drafts drafts')
      fun e _ => Stuck p store root w.oracle e := by
  unfold expandUnit
  split
  · next nucleus electrons hprov =>
    obtain ⟨e, he, hprov⟩ := Option.map_eq_some_iff.mp hprov
    obtain ⟨clause, hclause, -⟩ := hs.derivedFrom he hprov
    obtain ⟨headVars, hheadVars⟩ := (hp.clause nucleus clause hclause).2.headArguments_eq_ok
    have hclauseAt : clauseAt p.clauses nucleus = .ok clause := by rw [clauseAt, hclause]
    simp only [hclauseAt, hheadVars, ensures_bind, ensures_ok]
    refine ensures_expandNodes hp hs hclause hheadVars he hprov
      (fun c hc => htodo e he c (hprov ▸ hc)) _ (fun i hi => ?_)
      (hd.mono fun i d hget hopen _ => ?_) ho
    · obtain ⟨-, hany⟩ := List.mem_filter.mp hi
      obtain ⟨d, hget, hunit⟩ := (Option.any_eq_true _ _).mp hany
      exact ⟨d, hget, of_decide_eq_true hunit⟩
    · rcases List.mem_cons.mp hopen with hunit | hopen
      · refine .inr (List.mem_filter.mpr ⟨List.mem_range.mpr ?_, by simp [hget, hunit]⟩)
        exact (List.getElem?_eq_some_iff.mp hget).1
      · exact .inl hopen
  · next hprov =>
    refine ⟨.refl _, hd.mono fun i d hget hopen hinf => ?_, .refl drafts⟩
    refine (List.mem_cons.mp hopen).resolve_left fun hunit => ?_
    obtain ⟨e, nucleus, electrons, he, heq⟩ := hinf
    rw [hunit] at he
    exact hprov nucleus electrons (by rw [he, Option.map_some, heq])

end HornSaturation.Refutation
