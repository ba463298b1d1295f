import HornSaturation.Proofs.Unit.Consistency

/-!
# Coherent stores

In a coherent store every unit is of a declared relation, and its provenance names a clause and, for
each use in the body of the clause, a unit of that relation that was stored before. This says
nothing of constraints, so it needs no sorts. Storing, retiring and recording units keep a store
coherent.
-/

namespace HornSaturation.Store

variable {p : NormalizedProblem} {store store' : Store} {e : StoredUnit} {id : UnitId}

/-- Units that were stored before another one serve the uses in the body of a clause. -/
def Fits (p : NormalizedProblem) (store : Store) (id : UnitId) (nucleus : Nat)
    (electrons : List UnitId) : Prop :=
  ∃ c, p.clauses[nucleus]? = some c ∧
    List.Forall₂ (fun (a : Atom) i => i < id ∧ ∃ e, store.get? i = some e ∧
      e.unit.head = some a.relation) c.body electrons

/-- A provenance names a clause and earlier units that fit it, or a fact. -/
def Names (p : NormalizedProblem) (store : Store) (id : UnitId) : Provenance → Prop
  | .fact _ => True
  | .derived nucleus electrons => store.Fits p id nucleus electrons

/-- A store of units of declared relations, whose provenances name what fits. -/
structure Coherent (p : NormalizedProblem) (store : Store) : Prop where
  relations : store.relations = p.relations
  listed : store.Listed
  known : ∀ id e, store.get? id = some e → ∃ vars, e.unit.arguments p.relations = .ok vars
  names : ∀ id e, store.get? id = some e → store.Names p id e.provenance

/-- What fits goes on to fit. -/
theorem Fits.evolves {j nucleus : Nat} {electrons : List UnitId} (hev : store.Evolves store')
    (hj : id ≤ j) (h : store.Fits p id nucleus electrons) :
    store'.Fits p j nucleus electrons := by
  obtain ⟨c, hc, hes⟩ := h
  exact ⟨c, hc, hev.forall₂_before hj hes⟩

theorem Names.evolves {pr : Provenance} (hev : store.Evolves store') (h : store.Names p id pr) :
    store'.Names p id pr := by
  cases pr with
  | fact clause => trivial
  | derived nucleus electrons => exact Fits.evolves hev (Nat.le_refl id) h

namespace Coherent

theorem empty (p : NormalizedProblem) : Coherent p { relations := p.relations } := by
  have hnone (id : UnitId) : Store.get? { relations := p.relations } id = none := by simp [get?]
  refine ⟨rfl, (sound_empty p).listed, fun id e he => ?_, fun id e he => ?_⟩
  all_goals
    rw [hnone] at he
    cases he

/-- Adding a unit of a declared relation whose provenance names what fits. -/
theorem adds (h : store.Coherent p) (hadds : store.Adds e store')
    (he : ∃ vars, e.unit.arguments p.relations = .ok vars)
    (hnames : store.Names p store.size e.provenance) : store'.Coherent p := by
  refine ⟨hadds.relations.trans h.relations, hadds.listed h.listed, fun id f hf => ?_,
    fun id f hf => ?_⟩
  all_goals
    rw [hadds.entry] at hf
    split at hf
  · exact Option.some.inj hf ▸ he
  · exact h.known id f hf
  · next hid =>
    obtain rfl := Option.some.inj hf
    exact hid ▸ hnames.evolves hadds.evolves
  · exact (h.names id f hf).evolves hadds.evolves

theorem retire (h : store.Coherent p) (hretires : store.Retires id store') :
    store'.Coherent p := by
  refine ⟨hretires.relations.trans h.relations, hretires.listed h.listed, fun i e he => ?_,
    fun i e he => ?_⟩
  all_goals obtain ⟨f, hf, hunit, hprovenance, -⟩ := hretires.exists_before he
  · exact hunit ▸ h.known i f hf
  · exact hprovenance ▸ (h.names i f hf).evolves hretires.evolves

/-- Retiring units one after the other. -/
theorem foldlM_retire {ids : List UnitId} (h : store.Coherent p)
    (hretire : ids.foldlM Store.retire store = .ok store') :
    store'.Coherent p ∧ store.Evolves store' ∧ store'.size = store.size := by
  induction ids generalizing store with
  | nil =>
    obtain rfl := Except.ok.inj hretire
    exact ⟨h, .refl store, rfl⟩
  | cons i ids ih =>
    rw [List.foldlM_cons] at hretire
    obtain ⟨store₁, hfirst, hrest⟩ := Except.bind_eq_ok.mp hretire
    have hretires := retires_of_retire h.listed hfirst
    obtain ⟨hcoherent, hev, hsize⟩ := ih (h.retire hretires) hrest
    exact ⟨hcoherent, hretires.evolves.trans hev, hsize.trans (frame_of_retire hfirst).1⟩

end Coherent

end HornSaturation.Store
