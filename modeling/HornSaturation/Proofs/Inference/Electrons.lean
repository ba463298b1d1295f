import HornSaturation.Proofs.Clause.Regular
import HornSaturation.Proofs.Unit.Instances

/-!
# The electrons of an inference

The units that a clause is resolved with are read at the places of use in its body. In a regular
clause these places share no symbol with the head, so every unit is read in place. The instances of
all units are true together, for some values of the fresh symbols, exactly if each unit admits the
arguments of its place.
-/

namespace HornSaturation

/-- A unit of the relation of a use admits the values of its arguments. -/
def UnitClause.AdmitsAt (z : ZeroDivision) (relations : List Relation) (ρ : Valuation) (a : Atom)
    (u : UnitClause) : Prop :=
  u.head = some a.relation ∧ ∃ vars, a.arguments relations = .ok vars ∧
    u.Admits z relations (vars.map ρ.value)

/-- Formulas that are instances of units at consecutive uses. -/
structure AreInstances (relations : List Relation) (body : List Atom) (us : List UnitClause)
    (fresh : List Var) (ts : List Term) : Prop where
  sorted : ∀ t ∈ ts, t.hasSort .bool = true
  occurrences : ∀ t ∈ ts, ∀ v ∈ t.occurrences,
    (∃ a ∈ body, a.HasArgument relations v) ∨ v ∈ fresh
  sound : ∀ z ρ, (∀ t ∈ ts, t.Holds z ρ) →
    List.Forall₂ (UnitClause.AdmitsAt z relations ρ) body us
  complete : ∀ z ρ, List.Forall₂ (UnitClause.AdmitsAt z relations ρ) body us →
    Term.AllHoldFor z fresh ρ ts

variable {relations : List Relation}

/-- Changing unmarked symbols does not change what is admitted at a use. -/
theorem UnitClause.AdmitsAt.congr {z : ZeroDivision} {ρ ρ' : Valuation} {fresh : List Var}
    (hu : ∀ v ∈ fresh, ¬ v.IsMarked) (h : Valuation.AgreeOff fresh ρ ρ') {a : Atom}
    {u : UnitClause} (ha : u.AdmitsAt z relations ρ a) : u.AdmitsAt z relations ρ' a := by
  obtain ⟨hhead, vars, hvars, hadm⟩ := ha
  refine ⟨hhead, vars, hvars, ?_⟩
  rwa [List.map_congr_left fun v hv => h v fun hf => hu v hf (Atom.arguments_isMarked hvars hv)]

theorem AreInstances.nil : AreInstances relations [] [] [] [] :=
  ⟨by simp, by simp, fun _ _ _ => .nil, fun _ ρ _ => ⟨ρ, .refl _ ρ, by simp⟩⟩

/-- One more instance before others, with symbols that are new to them. -/
theorem AreInstances.cons {lo mid hi : Nat} {a : Atom} {body : List Atom} {u : UnitClause}
    {us : List UnitClause} {moved fresh fresh' : List Var} {t : Term} {ts : List Term}
    (hhead : u.head = some a.relation) (hm : a.arguments relations = .ok moved)
    (hf : Taken lo mid fresh) (hf' : Taken mid hi fresh')
    (ht : u.IsInstance relations moved fresh t) (hts : AreInstances relations body us fresh' ts) :
    AreInstances relations (a :: body) (u :: us) (fresh ++ fresh') (t :: ts) := by
  refine ⟨?_, ?_, fun z ρ hall => ?_, fun z ρ hall => ?_⟩
  · exact List.forall_mem_cons.mpr ⟨ht.sorted, hts.sorted⟩
  · refine List.forall_mem_cons.mpr ⟨fun v hv => ?_, fun t' ht' v hv => ?_⟩
    · rcases ht.occurrences v hv with hv | hv
      · exact .inl ⟨a, List.mem_cons_self, moved, hm, hv⟩
      · exact .inr (List.mem_append_left _ hv)
    · rcases hts.occurrences t' ht' v hv with ⟨b, hb, hv⟩ | hv
      · exact .inl ⟨b, List.mem_cons_of_mem a hb, hv⟩
      · exact .inr (List.mem_append_right _ hv)
  · obtain ⟨hfirst, hrest⟩ := List.forall_mem_cons.mp hall
    exact .cons ⟨hhead, moved, hm, ht.sound z ρ hfirst⟩ (hts.sound z ρ hrest)
  · obtain ⟨hfirst, hrest⟩ := List.forall₂_cons.mp hall
    obtain ⟨-, vars, hvars, hadm⟩ := hfirst
    obtain rfl : moved = vars := Except.ok.inj (hm.symm.trans hvars)
    -- The symbols taken later do not occur in the first instance.
    refine .cons (ht.complete z ρ hadm) (fun v hv hv' => ?_) fun ρ₁ hoff => hts.complete z ρ₁
      (hrest.imp fun b u hb => hb.congr (fun v hv => hf.not_isMarked hv) hoff)
    rcases ht.occurrences v hv with hv | hv
    · exact hf'.not_isMarked hv' (Atom.arguments_isMarked hm hv)
    · exact hf.name_ne hf' hv hv' rfl

variable {c : NormalizedClause}

/-- A unit is of the relation of a use, so that it can be read there. -/
def Atom.Takes (a : Atom) (u : UnitClause) : Prop := u.head = some a.relation

/-- A unit is read in place: the symbols of a place of use are not those of the head. -/
theorem ensures_electronInstance (hr : WellDeclared relations) (hc : c.Regular relations)
    {u : UnitClause} (hsort : u.constraint.hasSort .bool = true) (position : Nat) (s : Symbols) :
    Ensures (electronInstance relations c position u) s
      (fun r s' => ∃ a moved fresh, c.body[position]? = some a ∧ a.Takes u ∧
        r.1 = a.occurrence ∧ a.arguments relations = .ok moved ∧
        Taken s.allocated s'.allocated fresh ∧ u.IsInstance relations moved fresh r.2)
      fun _ _ => ∀ a, c.body[position]? = some a → ¬ a.Takes u := by
  unfold electronInstance
  cases ha : c.body[position]? with
  | none => simp only [ensures_throw, reduceCtorEq, false_implies, implies_true]
  | some a =>
    by_cases hhead : u.head = some a.relation
    · have hbody : a ∈ c.body := List.mem_of_getElem? ha
      obtain ⟨own, hown⟩ := hc.known a (NormalizedClause.Regular.mem_uses_of_body hbody)
      obtain ⟨vars, hvars⟩ := UnitClause.exists_arguments hhead hown
      obtain ⟨headVars, hheadVars⟩ := hc.headArguments_eq_ok
      simp only [hhead, ne_eq, not_true_eq_false, if_false, ensures_bind, hheadVars, ensures_ok]
      refine (UnitClause.ensures_instantiate hvars hsort a.occurrence s).mono ?_
        fun _ _ => False.elim
      rintro t s' ⟨moved, fresh, hm, htaken, ht⟩
      have hmoved : a.arguments relations = .ok moved := by
        simpa [UnitClause.arguments, hhead] using hm
      have hclear : ¬ t.vars.any headVars.contains = true := by
        rw [List.any_eq_true]
        rintro ⟨v, hv, hvh⟩
        have hvh : v ∈ headVars := by simpa using hvh
        rcases ht.occurrences v (Term.mem_vars.mp hv) with hv | hv
        · exact hc.notMem_headArguments hr (List.mem_of_getElem? ha) hmoved hheadVars hv hvh
        · exact htaken.not_isMarked hv (NormalizedClause.headArguments_isMarked hheadVars hvh)
      rw [if_neg hclear]
      exact ⟨a, moved, fresh, rfl, hhead, rfl, hmoved, htaken, ht⟩
    · simp only [hhead, ne_eq, not_false_eq_true, if_true, ensures_bind, ensures_throw]
      rintro b hb
      obtain rfl := Option.some.inj hb
      exact hhead

/-- The instances of units at consecutive uses of the body. -/
theorem ensures_electronInstances (hr : WellDeclared relations) (hc : c.Regular relations)
    {us : List UnitClause} (hsort : ∀ u ∈ us, u.constraint.hasSort .bool = true) (position : Nat)
    (s : Symbols) (hlen : us.length = (c.body.drop position).length) :
    Ensures (electronInstances relations c position us) s
      (fun ts s' => ∃ fresh, Taken s.allocated s'.allocated fresh ∧
        AreInstances relations (c.body.drop position) us fresh ts)
      fun _ _ => ¬ List.Forall₂ Atom.Takes (c.body.drop position) us := by
  induction us generalizing position s with
  | nil =>
    rw [List.length_eq_zero_iff.mp hlen.symm]
    exact ⟨[], .nil _, .nil⟩
  | cons u us ih =>
    have hdrop {a : Atom} (ha : c.body[position]? = some a) :
        c.body.drop position = a :: c.body.drop (position + 1) := by
      obtain ⟨hlt, hget⟩ := List.getElem?_eq_some_iff.mp ha
      rw [← hget, ← List.drop_eq_getElem_cons hlt]
    simp only [electronInstances, ensures_bind, ensures_pure]
    refine (ensures_electronInstance hr hc (hsort u List.mem_cons_self) position s).mono ?_ ?_
    · rintro ⟨occurrence, t⟩ s₁ ⟨a, moved, fresh, ha, hhead, -, hm, htaken, ht⟩
      have hlen' : us.length = (c.body.drop (position + 1)).length := by
        simpa [hdrop ha] using hlen
      rw [hdrop ha]
      refine (ih (fun u hu => hsort u (List.mem_cons_of_mem _ hu)) (position + 1) s₁ hlen').mono
        ?_ fun _ _ hrest hall => hrest (List.forall₂_cons.mp hall).2
      rintro ts s₂ ⟨fresh', htaken', hts⟩
      exact ⟨fresh ++ fresh', htaken.append htaken', .cons hhead hm htaken htaken' ht hts⟩
    · intro _ _ hwrong hall
      obtain ⟨a, body, htakes, -, heq⟩ := List.forall₂_cons_right_iff.mp hall
      have ha : c.body[position]? = some a := by
        rw [← List.head?_drop, heq, List.head?_cons]
      exact hwrong a ha htakes

end HornSaturation
