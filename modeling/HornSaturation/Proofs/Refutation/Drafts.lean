import HornSaturation.Proofs.Refutation.Steps
import HornSaturation.Proofs.Unit.Store

/-!
# Drafts of a refutation

While a refutation is under construction each draft stands for a stored unit, and it is derived from
its children by the clause that the unit comes from, unless the unit is still to be expanded. Drafts
are only added, and their atoms do not change, so what has been derived stays derived. Every unit
admits the values of its drafts, apart from the unit at the root, which is not placed for its
values. That the steps are instances of their clauses needs one sort for each name of a clause.
-/

namespace HornSaturation.Refutation

variable {p : NormalizedProblem} {store : Store} {root : UnitId}
  {drafts drafts' drafts'' : List Draft}

/-- A draft has the relation and the clause of its unit, and values of the right sorts. -/
def Draft.Fits (p : NormalizedProblem) (store : Store) (d : Draft) : Prop :=
  ∃ e, store.get? d.unit = some e ∧ d.node.clause = e.provenance.clause ∧
    d.node.atom.relation = e.unit.head ∧ ∃ vars, e.unit.arguments p.relations = .ok vars ∧
      d.node.atom.args.map Value.sort = vars.map Var.sort

/-- The unit of a draft admits the values of its atom. -/
def Draft.Admitted (p : NormalizedProblem) (store : Store) (d : Draft) : Prop :=
  ∃ e, store.get? d.unit = some e ∧ ∀ z, e.unit.Admits z p.relations d.node.atom.args

/-- A draft at a place stands for a ground atom, for a unit that was stored before another one. -/
def Stands (drafts : List Draft) (bound : UnitId) (i : Nat) (g : GroundAtom) : Prop :=
  ∃ d, drafts[i]? = some d ∧ d.unit < bound ∧ d.node.atom = g

/-- A draft is derived by its clause from its children. -/
def Draft.Derived (p : NormalizedProblem) (drafts : List Draft) (d : Draft) : Prop :=
  ∃ clause atoms, p.clauses[d.node.clause]? = some clause ∧
    List.Forall₂ (Stands drafts d.unit) d.node.children atoms ∧
    (p.OneSorted → ∀ z, clause.HasInstance z p.relations atoms d.node.atom)

/-- The unit has been derived by an inference. -/
def Inferred (store : Store) (id : UnitId) : Prop :=
  ∃ e nucleus electrons, store.get? id = some e ∧ e.provenance = .derived nucleus electrons

/-- Every draft is right, apart from those that are still to be expanded. -/
structure Drafting (p : NormalizedProblem) (store : Store) (root : UnitId)
    (isOpen : Nat → UnitId → Prop) (drafts : List Draft) : Prop where
  fits : ∀ d ∈ drafts, d.Fits p store
  admitted : ∀ d ∈ drafts, d.unit = root ∨ d.Admitted p store
  derived : ∀ (i : Nat) (d : Draft), drafts[i]? = some d →
    d.Derived p drafts ∨ isOpen i d.unit ∧ Inferred store d.unit

/-- Drafts keep their places, their units and their atoms. -/
def Grows (drafts drafts' : List Draft) : Prop :=
  ∀ (i : Nat) (d : Draft), drafts[i]? = some d → ∃ d', drafts'[i]? = some d' ∧ d'.unit = d.unit ∧
    d'.node.atom = d.node.atom ∧ d'.node.clause = d.node.clause

namespace Grows

theorem refl (drafts : List Draft) : Grows drafts drafts := fun _ d h => ⟨d, h, rfl, rfl, rfl⟩

theorem trans (h : Grows drafts drafts') (h' : Grows drafts' drafts'') : Grows drafts drafts'' := by
  intro i d hd
  obtain ⟨d', hd', hunit', hatom', hclause'⟩ := h i d hd
  obtain ⟨d'', hd'', hunit'', hatom'', hclause''⟩ := h' i d' hd'
  exact ⟨d'', hd'', hunit''.trans hunit', hatom''.trans hatom', hclause''.trans hclause'⟩

theorem stands (h : Grows drafts drafts') {bound : UnitId} {i : Nat} {g : GroundAtom}
    (hs : Stands drafts bound i g) : Stands drafts' bound i g := by
  obtain ⟨d, hd, hlt, rfl⟩ := hs
  obtain ⟨d', hd', hunit, hatom, -⟩ := h i d hd
  exact ⟨d', hd', hunit ▸ hlt, hatom⟩

/-- A draft that keeps its children stays derived. -/
theorem derived (h : Grows drafts drafts') {d d' : Draft} (hd : d.Derived p drafts)
    (hunit : d'.unit = d.unit) (hatom : d'.node.atom = d.node.atom)
    (hclause : d'.node.clause = d.node.clause) (hchildren : d'.node.children = d.node.children) :
    d'.Derived p drafts' := by
  obtain ⟨clause, atoms, hc, hstands, hinst⟩ := hd
  rw [Draft.Derived, hunit, hatom, hclause, hchildren]
  exact ⟨clause, atoms, hc, hstands.imp fun _ _ => h.stands, hinst⟩

end Grows

theorem Draft.Fits.congr {d d' : Draft} (h : d.Fits p store) (hunit : d'.unit = d.unit)
    (hatom : d'.node.atom = d.node.atom) (hclause : d'.node.clause = d.node.clause) :
    d'.Fits p store := by
  rw [Draft.Fits, hunit, hatom, hclause]
  exact h

theorem Draft.Admitted.congr {d d' : Draft} (h : d.Admitted p store) (hunit : d'.unit = d.unit)
    (hatom : d'.node.atom = d.node.atom) : d'.Admitted p store := by
  rw [Draft.Admitted, hunit, hatom]
  exact h

/-- Fewer drafts may be taken for open. -/
theorem Drafting.mono {isOpen isOpen' : Nat → UnitId → Prop}
    (h : Drafting p store root isOpen drafts)
    (hopen : ∀ (i : Nat) (d : Draft), drafts[i]? = some d → isOpen i d.unit →
      Inferred store d.unit → isOpen' i d.unit) : Drafting p store root isOpen' drafts := by
  refine ⟨h.fits, h.admitted, fun i d hd => (h.derived i d hd).imp_right fun ⟨ho, hi⟩ => ?_⟩
  exact ⟨hopen i d hd ho hi, hi⟩

/-- Adding a draft keeps the others. -/
private theorem grows_append (d : Draft) : Grows drafts (drafts ++ [d]) := fun _ d' hd' =>
  ⟨d', List.getElem?_append_left (List.getElem?_eq_some_iff.mp hd').1 ▸ hd', rfl, rfl, rfl⟩

/-- A stored unit of a fact is derived without children. -/
private theorem derived_or_inferred {id : UnitId} {e : StoredUnit} {atom : GroundAtom}
    (hs : store.Sound p) (he : store.get? id = some e) (hrel : atom.relation = e.unit.head)
    (hadm : ∀ z, e.unit.Admits z p.relations atom.args) (drafts : List Draft) :
    Draft.Derived p drafts ⟨id, ⟨atom, e.provenance.clause, []⟩⟩ ∨ Inferred store id := by
  cases hprov : e.provenance with
  | fact clause =>
    obtain ⟨-, c, hc, hinst⟩ := hs.statedBy he hprov
    exact .inl ⟨c, [], hc, .nil, fun _ z => hinst z atom ⟨hrel.symm, hadm z⟩⟩
  | derived nucleus electrons => exact .inr ⟨e, nucleus, electrons, he, hprov⟩

/-- Placing an atom that a stored unit admits. -/
theorem place_spec {isOpen : Nat → UnitId → Prop} {id : UnitId} {e : StoredUnit} {i : Nat}
    {atom : GroundAtom} {vars : List Var} (hs : store.Sound p)
    (hd : Drafting p store root isOpen drafts) (he : store.get? id = some e)
    (hrel : atom.relation = e.unit.head)
    (hvars : e.unit.arguments p.relations = .ok vars)
    (hsort : atom.args.map Value.sort = vars.map Var.sort) (hopen : ∀ i, isOpen i id)
    (hadm : ∀ z, e.unit.Admits z p.relations atom.args)
    (h : place drafts id atom e.provenance.clause = (i, drafts')) :
    Drafting p store root isOpen drafts' ∧ Grows drafts drafts' ∧
      ∃ d, drafts'[i]? = some d ∧ d.unit = id ∧ d.node.atom = atom := by
  unfold place at h
  split at h
  · next j hj =>
    obtain ⟨rfl, rfl⟩ := Prod.mk.inj h
    obtain ⟨hlt, hmatch, -⟩ := List.findIdx?_eq_some_iff_getElem.mp hj
    obtain ⟨hunit, hargs⟩ := of_decide_eq_true hmatch
    refine ⟨hd, .refl drafts, _, List.getElem?_eq_getElem hlt, hunit, ?_⟩
    obtain ⟨e', he', -, hrel', -⟩ := hd.fits _ (List.getElem_mem hlt)
    rw [hunit] at he'
    obtain rfl := Option.some.inj (he.symm.trans he')
    obtain ⟨relation, args⟩ := atom
    rw [← hrel] at hrel'
    exact congrArg₂ GroundAtom.mk hrel' hargs
  · obtain ⟨rfl, rfl⟩ := Prod.mk.inj h
    set new : Draft := ⟨id, ⟨atom, e.provenance.clause, []⟩⟩
    have hgrows : Grows drafts (drafts ++ [new]) := grows_append new
    refine ⟨⟨fun d hmem => ?_, fun d hmem => ?_, fun j d hget => ?_⟩, hgrows, new, by simp, rfl,
      rfl⟩
    · rcases List.mem_append.mp hmem with hmem | hmem
      · exact hd.fits d hmem
      · obtain rfl := List.mem_singleton.mp hmem
        exact ⟨e, he, rfl, hrel, vars, hvars, hsort⟩
    · rcases List.mem_append.mp hmem with hmem | hmem
      · exact hd.admitted d hmem
      · obtain rfl := List.mem_singleton.mp hmem
        exact .inr ⟨e, he, hadm⟩
    · rcases Nat.lt_or_ge j drafts.length with hlt | hge
      · rw [List.getElem?_append_left hlt] at hget
        exact (hd.derived j d hget).imp_left fun h => hgrows.derived h rfl rfl rfl rfl
      · rw [List.getElem?_append_right hge] at hget
        obtain rfl := List.mem_singleton.mp (List.mem_of_getElem? hget)
        exact (derived_or_inferred hs he hrel hadm _).imp_right fun h => ⟨hopen j, h⟩

/-- Giving children to a draft that is derived from them. -/
theorem setChildren_spec {isOpen : Nat → UnitId → Prop} {i : Nat} {d : Draft} {children : List Nat}
    {clause : NormalizedClause} {atoms : List GroundAtom} (hd : Drafting p store root isOpen drafts)
    (hi : drafts[i]? = some d) (hclause : p.clauses[d.node.clause]? = some clause)
    (hchildren : List.Forall₂ (Stands drafts d.unit) children atoms)
    (hinst : p.OneSorted → ∀ z, clause.HasInstance z p.relations atoms d.node.atom) :
    Drafting p store root (fun j u => j ≠ i ∧ isOpen j u) (setChildren drafts i children) ∧
      Grows drafts (setChildren drafts i children) := by
  have hget (j : Nat) : (setChildren drafts i children)[j]? = if i = j then
      (drafts[j]?).map (fun d => { d with node := { d.node with children } }) else drafts[j]? := by
    rw [setChildren, List.getElem?_modify]
    split <;> simp
  have hgrows : Grows drafts (setChildren drafts i children) := by
    intro j d' hd'
    rw [hget]
    split
    · refine ⟨{ d' with node := { d'.node with children } }, ?_, rfl, rfl, rfl⟩
      rw [hd', Option.map_some]
    · exact ⟨d', hd', rfl, rfl, rfl⟩
  have hold {j : Nat} {d' : Draft} (hd' : (setChildren drafts i children)[j]? = some d') :
      ∃ d₀, drafts[j]? = some d₀ ∧ d'.unit = d₀.unit ∧ d'.node.atom = d₀.node.atom ∧
        d'.node.clause = d₀.node.clause ∧
        d'.node.children = if i = j then children else d₀.node.children := by
    rw [hget] at hd'
    split at hd'
    · next hij =>
      obtain ⟨d₀, hd₀, rfl⟩ := Option.map_eq_some_iff.mp hd'
      exact ⟨d₀, hd₀, rfl, rfl, rfl, by rw [if_pos hij]⟩
    · next hij => exact ⟨d', hd', rfl, rfl, rfl, by rw [if_neg hij]⟩
  refine ⟨⟨fun d' hmem => ?_, fun d' hmem => ?_, fun j d' hd' => ?_⟩, hgrows⟩
  · obtain ⟨j, hj⟩ := List.getElem?_of_mem hmem
    obtain ⟨d₀, hd₀, hunit, hatom, hcl, -⟩ := hold hj
    exact (hd.fits d₀ (List.mem_of_getElem? hd₀)).congr hunit hatom hcl
  · obtain ⟨j, hj⟩ := List.getElem?_of_mem hmem
    obtain ⟨d₀, hd₀, hunit, hatom, -⟩ := hold hj
    exact (hd.admitted d₀ (List.mem_of_getElem? hd₀)).imp hunit.trans fun h =>
      h.congr hunit hatom
  · obtain ⟨d₀, hd₀, hunit, hatom, hcl, hch⟩ := hold hd'
    by_cases hij : i = j
    · subst hij
      obtain rfl := Option.some.inj (hi.symm.trans hd₀)
      rw [if_pos rfl] at hch
      refine .inl ⟨clause, atoms, hcl ▸ hclause, ?_, fun hone z => hatom ▸ hinst hone z⟩
      rw [hch, hunit]
      exact hchildren.imp fun _ _ => hgrows.stands
    · rw [if_neg hij] at hch
      rcases hd.derived j d₀ hd₀ with h | ⟨ho, hinf⟩
      · exact .inl (hgrows.derived h hunit hatom hcl hch)
      · exact .inr ⟨⟨Ne.symm hij, hunit ▸ ho⟩, hunit ▸ hinf⟩

end HornSaturation.Refutation
