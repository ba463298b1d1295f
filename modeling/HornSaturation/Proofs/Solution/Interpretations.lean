import HornSaturation.Proofs.Data.Results
import HornSaturation.Proofs.Unit.Canonical
import HornSaturation.Solution.Basic

/-!
# Interpretations of relations

The interpretation of a relation admits exactly the values that active units assert the relation of,
if its further variables are read existentially: the disjunction of the units does, and neither
simplifying it nor renaming its symbols changes that.
-/

namespace HornSaturation

/-- Some active unit of a relation admits values. -/
def Store.Denotes (z : ZeroDivision) (relations : List Relation) (store : Store) (q : RelationId)
    (args : List Value) : Prop :=
  ∃ id e, store.get? id = some e ∧ e.active = true ∧ e.unit.head = some q ∧
    e.unit.Admits z relations args

theorem Store.Listed.denotes_iff {store : Store} (hl : store.Listed) {z : ZeroDivision}
    {relations : List Relation} {q : RelationId} {args : List Value} :
    store.Denotes z relations q args ↔ ∃ w ∈ store.unitsOf q, w.2.Admits z relations args := by
  constructor
  · rintro ⟨id, e, he, hactive, hhead, hadm⟩
    exact ⟨(id, e.unit), hl.mem_unitsOf.mpr ⟨e, he, hactive, rfl, hhead⟩, hadm⟩
  · rintro ⟨⟨id, u⟩, hw, hadm⟩
    obtain ⟨e, he, hactive, rfl, hhead⟩ := hl.mem_unitsOf.mp hw
    exact ⟨id, e, he, hactive, hhead, hadm⟩

namespace Interpretation

/-- Values that make the formula of an interpretation true, for some values of its existential
variables. -/
def Admits (z : ZeroDivision) (i : Interpretation) (args : List Value) : Prop :=
  ∃ ρ : Valuation, i.vars.map ρ.value = args ∧ i.formula.Holds z ρ

/-- The variables of an interpretation are positional and those that stand for locals are numbered;
its formula is well sorted and has no others. -/
structure WellFormed (sorts : List BaseSort) (i : Interpretation) : Prop where
  vars : i.vars = sorts.mapIdx Solution.positional
  existentials : ∃ locals : List Var, i.existentials = locals.mapIdx Solution.existential
  sorted : i.formula.hasSort .bool = true
  occurrences : ∀ v ∈ i.formula.occurrences, v ∈ i.vars ∨ v ∈ i.existentials

end Interpretation

namespace Solution

variable {z : ZeroDivision} {p : NormalizedProblem} {store : Store} {r : Relation}

/-- The disjunction of the active units of a relation says what they admit. -/
theorem disjunction_spec {relations : List Relation}
    (hunits : ∀ w ∈ store.unitsOf r.id, w.2.OfRelation relations r ∧
      w.2.constraint.hasSort .bool = true) :
    ∃ formula, disjunction store relations r = .ok formula ∧ formula.hasSort .bool = true ∧
      ∀ z args, (∃ ρ : Valuation, (r.arguments 0).map ρ.value = args ∧ formula.Holds z ρ) ↔
        ∃ w ∈ store.unitsOf r.id, w.2.Admits z relations args := by
  set units := (store.unitsOf r.id).map fun w => w.2.moved r 0 with hdef
  have hmoved : (store.unitsOf r.id).mapM (fun w => w.2.atOccurrence relations 0) =
      .ok units := by
    rw [Except.mapM_eq_ok, List.forall₂_map_right_iff, List.forall₂_same]
    exact fun w hw => (hunits w hw).1.atOccurrence_eq 0
  have hsort : ∀ t ∈ units.map (·.constraint), t.hasSort .bool = true := by
    rw [hdef, List.map_map]
    exact List.forall_mem_map.mpr fun w hw =>
      Term.hasSort_rename (r.move_sort _ _) (hunits w hw).2
  refine ⟨.disjoin (units.map (·.constraint)), ?_, Term.hasSort_disjoin hsort, fun z args => ?_⟩
  · rw [disjunction, hmoved]
    rfl
  -- A moved unit admits what the unit does, of the argument symbols at occurrence zero.
  have hadmits {w : UnitId × UnitClause} (hw : w ∈ store.unitsOf r.id) :
      w.2.Admits z relations args ↔ ∃ ρ : Valuation, (r.arguments 0).map ρ.value = args ∧
        (w.2.moved r 0).constraint.Holds z ρ := by
    have hunit := (hunits w hw).1
    rw [← hunit.admits_moved 0, UnitClause.admits_iff (hunit.moved 0).arguments]
    rfl
  simp only [Term.holds_disjoin hsort]
  constructor
  · rintro ⟨ρ, hargs, t, ht, hρ⟩
    rw [hdef, List.map_map] at ht
    obtain ⟨w, hw, rfl⟩ := List.mem_map.mp ht
    exact ⟨w, hw, (hadmits hw).mpr ⟨ρ, hargs, hρ⟩⟩
  · rintro ⟨w, hw, hadm⟩
    obtain ⟨ρ, hargs, hρ⟩ := (hadmits hw).mp hadm
    exact ⟨ρ, hargs, _, List.mem_map_of_mem (List.mem_map_of_mem hw), hρ⟩

theorem positional_injective {i j : Nat} {s s' : BaseSort}
    (h : positional i s = positional j s') : i = j :=
  toString_injective ((String.append_right_inj _).mp (congrArg Var.name h))

theorem existential_injective {i j : Nat} {v w : Var} (h : existential i v = existential j w) :
    i = j :=
  toString_injective ((String.append_right_inj _).mp (congrArg Var.name h))

theorem positional_ne_existential {i j : Nat} {s : BaseSort} {v : Var} :
    positional i s ≠ existential j v := by
  intro h
  have hname := congrArg (fun v : Var => v.name.toList) h
  simp [positional, existential, String.toList_append] at hname

/-- Numbering gives different variables, if it keeps numbers apart. -/
theorem nodup_mapIdx {α : Type} {f : Nat → α → Var}
    (hf : ∀ i j a b, f i a = f j b → i = j) (as : List α) : (as.mapIdx f).Nodup := by
  rw [List.nodup_iff_injective_get]
  intro i j hij
  simp only [List.get_eq_getElem, List.getElem_mapIdx] at hij
  exact Fin.ext (hf _ _ _ _ hij)

theorem map_sort_positional (sorts : List BaseSort) :
    (sorts.mapIdx positional).map Var.sort = sorts :=
  List.ext_getElem (by simp) fun j hj hj' => by simp [positional]

theorem map_sort_existential (vs : List Var) :
    (vs.mapIdx existential).map Var.sort = vs.map Var.sort :=
  List.ext_getElem (by simp) fun j hj hj' => by simp [existential]

/-- Positional and numbered variables are different variables. -/
theorem nodup_positional_append (sorts : List BaseSort) (locals : List Var) :
    (sorts.mapIdx positional ++ locals.mapIdx existential).Nodup := by
  refine List.nodup_append'.mpr ⟨nodup_mapIdx (fun _ _ _ _ => positional_injective) _,
    nodup_mapIdx (fun _ _ _ _ => existential_injective) _, fun v hv hv' => ?_⟩
  obtain ⟨j, hj, rfl⟩ := List.mem_mapIdx.mp hv
  obtain ⟨k, hk, heq⟩ := List.mem_mapIdx.mp hv'
  exact positional_ne_existential heq.symm

end Solution

namespace Interpretation.WellFormed

variable {sorts : List BaseSort} {i : Interpretation}

theorem nodup (h : i.WellFormed sorts) : (i.vars ++ i.existentials).Nodup := by
  obtain ⟨locals, hlocals⟩ := h.existentials
  rw [h.vars, hlocals]
  exact Solution.nodup_positional_append sorts locals

theorem vars_sort (h : i.WellFormed sorts) : i.vars.map Var.sort = sorts := by
  rw [h.vars, Solution.map_sort_positional]

end Interpretation.WellFormed

namespace Solution

variable {z : ZeroDivision} {p : NormalizedProblem} {store : Store} {r : Relation}

/-- Renaming the argument symbols to positional variables and all other symbols to numbered ones
makes an interpretation of a formula. -/
theorem wellFormed_rename {formula : Term} {locals : List Var} (hs : formula.hasSort .bool = true)
    (hlocals : locals.Nodup)
    (hmem : ∀ v, v ∈ locals ↔ v ∈ formula.occurrences ∧ v ∉ r.arguments 0) {i : Interpretation}
    (hi : i = ⟨r.sorts.mapIdx positional, locals.mapIdx existential, formula.substitute
      (.ofVars (r.arguments 0) (r.sorts.mapIdx positional) ++
        .ofVars locals (locals.mapIdx existential))⟩) :
    i.WellFormed r.sorts ∧ ∀ args, i.Admits z args ↔
      ∃ ρ : Valuation, (r.arguments 0).map ρ.value = args ∧ formula.Holds z ρ := by
  have hsorts : (r.sorts.mapIdx positional).map Var.sort = (r.arguments 0).map Var.sort := by
    rw [Relation.arguments_sort, map_sort_positional]
  have hlen : (r.arguments 0).length = (r.sorts.mapIdx positional).length := by
    simpa using (congrArg List.length hsorts).symm
  have hl : (r.arguments 0 ++ locals).length =
      (r.sorts.mapIdx positional ++ locals.mapIdx existential).length := by simp [hlen]
  have hn : (r.arguments 0 ++ locals).Nodup := List.nodup_append'.mpr
    ⟨r.arguments_nodup 0, hlocals, fun v hv hv' => ((hmem v).mp hv').2 hv⟩
  have hocc : ∀ v ∈ formula.occurrences, v ∈ r.arguments 0 ++ locals := fun v hv => by
    rw [List.mem_append, hmem]
    exact or_iff_not_imp_left.mpr fun hnot => ⟨hv, hnot⟩
  obtain ⟨hvars, hexistentials⟩ := List.append_inj
    ((List.map_append ..).symm.trans (Substitution.map_rename hn hl)) (by simpa using hlen)
  have hsort : ∀ v, (Substitution.rename (r.arguments 0 ++ locals)
      (r.sorts.mapIdx positional ++ locals.mapIdx existential) v).sort = v.sort :=
    Substitution.rename_sort (by simp only [List.map_append, hsorts, map_sort_existential])
  have hinj := fun v hv w hw => Substitution.rename_inj (v := v) (w := w) hn
    (nodup_positional_append r.sorts locals) hl (.inl hv) (.inl hw)
  rw [Substitution.ofVars_append hlen, Term.substitute_ofVars] at hi
  generalize Substitution.rename _ _ = g at *
  subst hi
  refine ⟨⟨rfl, ⟨locals, rfl⟩, Term.hasSort_rename hsort hs, fun w hw => ?_⟩, fun args => ?_⟩
  · obtain ⟨v, hv, rfl⟩ := Term.mem_occurrences_rename.mp hw
    rw [← hvars, ← hexistentials]
    exact (List.mem_append.mp (hocc v hv)).imp (List.mem_map_of_mem ·) (List.mem_map_of_mem ·)
  · rw [Interpretation.Admits, ← hvars]
    refine Term.exists_holds_rename hsort fun v hv w hw => ?_
    have hin : ∀ v ∈ r.arguments 0 ++ formula.occurrences, v ∈ r.arguments 0 ++ locals :=
      fun v hv => (List.mem_append.mp hv).elim (List.mem_append_left _) (hocc v)
    exact hinj v (hin v hv) w (hin w hw)

/-- The interpretation of a relation admits what its active units do. -/
theorem interpret_spec {relations : List Relation} (symbols : Symbols)
    (hunits : ∀ w ∈ store.unitsOf r.id, w.2.OfRelation relations r ∧
      w.2.constraint.hasSort .bool = true) :
    ∃ i, interpret Term.project symbols store relations r = .ok i ∧ i.WellFormed r.sorts ∧
      ∀ z args, i.Admits z args ↔ ∃ w ∈ store.unitsOf r.id, w.2.Admits z relations args := by
  obtain ⟨formula, hformula, hsort, hadmits⟩ := disjunction_spec hunits
  have hproject (z : ZeroDivision) := Term.projects_project z symbols hsort [] true
  have hnodup : (symbols.sort ((Term.project symbols formula [] true).vars.filter fun v =>
      !(r.arguments 0).contains v)).Nodup :=
    (List.mergeSort_perm _ _).nodup_iff.mpr ((List.nodup_eraseDups _).filter _)
  have hrename (z : ZeroDivision) := wellFormed_rename (z := z) (r := r) (hproject z).sorted
    hnodup (fun v => by simp [Symbols.sort]) rfl
  refine ⟨_, ?_, (hrename default).1, fun z args => ?_⟩
  · rw [interpret, hformula]
    rfl
  · rw [(hrename z).2, ← hadmits]
    exact exists_congr fun ρ => and_congr_right fun _ => by
      rw [← Term.holdsFor_nil, (hproject z).exact, Term.holdsFor_nil]

private theorem lookup_cons_eq (q id : RelationId) (i : Interpretation)
    (entries : List (RelationId × Interpretation)) :
    ((q, i) :: entries).lookup id = if id = q then some i else entries.lookup id := by
  by_cases h : id = q
  · simp [h]
  · simp [List.lookup_cons, beq_false_of_ne h, h]

private theorem lookup_insertSorted (q id : RelationId) (i : Interpretation)
    (entries : List (RelationId × Interpretation)) :
    (insertSorted q i entries).lookup id = if id = q then some i else entries.lookup id := by
  induction entries with
  | nil => rw [insertSorted, lookup_cons_eq]
  | cons entry entries ih =>
    obtain ⟨q', j⟩ := entry
    rw [insertSorted]
    split
    · rw [lookup_cons_eq]
    · split
      · next heq =>
        subst heq
        rw [lookup_cons_eq, lookup_cons_eq]
        split <;> rfl
      · next hne =>
        rw [lookup_cons_eq, lookup_cons_eq, ih]
        split_ifs with h h' <;> simp_all

@[simp] theorem get?_insert (s : Solution) (q id : RelationId) (i : Interpretation) :
    (s.insert q i).get? id = if id = q then some i else s.get? id :=
  lookup_insertSorted q id i s.interpretations

/-- Every relation has an interpretation. -/
def Interprets (relations : List Relation) (s : Solution) : Prop :=
  ∀ id r, relation? relations id = some r → ∃ i, s.get? id = some i ∧ i.WellFormed r.sorts

/-- The interpretation of a relation admits values. -/
def Admits (z : ZeroDivision) (s : Solution) (id : RelationId) (args : List Value) : Prop :=
  ∃ i, s.get? id = some i ∧ i.Admits z args

/-- The interpretations admit what active units assert. -/
def AmountsTo (z : ZeroDivision) (p : NormalizedProblem) (store : Store) (s : Solution) : Prop :=
  ∀ id r args, relation? p.relations id = some r →
    (s.Admits z id args ↔ store.Covers z ⟨some id, args⟩)

/-- Interpreting relations one by one sets their interpretations and no others. -/
theorem get?_of_foldlM {symbols : Symbols} {relations rs : List Relation}
    {s₀ s : Solution} (h : rs.foldlM (fun s r => do
      let i ← interpret Term.project symbols store relations r
      return s.insert r.id i) s₀ = .ok s) (id : RelationId) :
    (∃ r ∈ rs, r.id = id ∧ ∃ i, s.get? id = some i ∧
      interpret Term.project symbols store relations r = .ok i) ∨
    (∀ r ∈ rs, r.id ≠ id) ∧ s.get? id = s₀.get? id := by
  induction rs generalizing s₀ with
  | nil => exact .inr ⟨nofun, by rw [← Except.ok.inj h]⟩
  | cons r rs ih =>
    rw [List.foldlM_cons] at h
    obtain ⟨s₁, hs₁, h⟩ := Except.bind_eq_ok.mp h
    obtain ⟨i, hi, hs₁⟩ := Except.bind_eq_ok.mp hs₁
    obtain rfl := Except.ok.inj hs₁
    rcases ih h with ⟨r', hr', hfound⟩ | ⟨hnot, hget⟩
    · exact .inl ⟨r', List.mem_cons_of_mem _ hr', hfound⟩
    · rw [get?_insert] at hget
      by_cases hid : id = r.id
      · exact .inl ⟨r, List.mem_cons_self, hid.symm, i, by rw [hget, if_pos hid], hi⟩
      · exact .inr ⟨List.forall_mem_cons.mpr ⟨Ne.symm hid, hnot⟩, by rw [hget, if_neg hid]⟩

/-- The solution of a store interprets declared relations only. -/
theorem exists_relation_of_ofStore {symbols : Symbols} {s : Solution}
    (hr : WellDeclared p.relations) (h : ofStore Term.project symbols store p.relations = .ok s)
    {id : RelationId} {i : Interpretation} (hi : s.get? id = some i) :
    ∃ r, relation? p.relations id = some r := by
  rcases get?_of_foldlM h id with ⟨r, hmem, rfl, -⟩ | ⟨-, hnone⟩
  · obtain ⟨n, hn⟩ := List.getElem?_of_mem hmem
    obtain rfl := hr.positions n r hn
    exact ⟨r, relation?_eq_some.mpr ⟨hn, rfl⟩⟩
  · rw [hi] at hnone
    cases hnone

/-- What a solution says of a relation is made from the store. -/
theorem interpreted_of_ofStore {symbols : Symbols} {relations : List Relation} {s : Solution}
    (hids : (relations.map (·.id)).Nodup)
    (h : ofStore Term.project symbols store relations = .ok s) (hr : r ∈ relations) :
    ∃ i, s.get? r.id = some i ∧ interpret Term.project symbols store relations r = .ok i := by
  rcases get?_of_foldlM h r.id with ⟨r', hr', heq, hi⟩ | ⟨hnot, -⟩
  · obtain rfl := List.inj_on_of_nodup_map hids hr' hr heq
    exact hi
  · exact absurd rfl (hnot r hr)

end Solution

namespace Store.Sound

variable {z : ZeroDivision} {p : NormalizedProblem} {store : Store} {r : Relation}

/-- The active units of a sound store are well-formed units of their relations. -/
theorem unitsOf (hs : store.Sound p) (hr : relation? p.relations r.id = some r) :
    ∀ w ∈ store.unitsOf r.id, w.2.OfRelation p.relations r ∧
      w.2.constraint.hasSort .bool = true := by
  rintro ⟨id, u⟩ hw
  obtain ⟨e, he, -, rfl, hhead⟩ := hs.listed.mem_unitsOf.mp hw
  have hwell := hs.wellFormed id e he
  exact ⟨hwell.ofRelation hr hhead, hwell.sorted⟩

/-- A sound store covers an atom if an active unit of the relation admits the values. -/
theorem covers_iff (hs : store.Sound p) {args : List Value} :
    store.Covers z ⟨some r.id, args⟩ ↔
      ∃ w ∈ store.unitsOf r.id, w.2.Admits z p.relations args :=
  hs.relations ▸ hs.listed.denotes_iff

end Store.Sound

namespace Solution

variable {z : ZeroDivision} {p : NormalizedProblem} {store : Store}

/-- The solution of a store interprets every relation, by what its active units assert. -/
theorem ofStore_spec {symbols : Symbols} {s : Solution} (hr : WellDeclared p.relations)
    (hs : store.Sound p) (h : ofStore Term.project symbols store p.relations = .ok s) :
    s.Interprets p.relations ∧ s.AmountsTo z p store := by
  have hinterpret : ∀ id r, relation? p.relations id = some r → ∃ i, s.get? id = some i ∧
      i.WellFormed r.sorts ∧ ∀ args, i.Admits z args ↔ store.Covers z ⟨some id, args⟩ := by
    intro id r hid
    obtain ⟨hget, rfl⟩ := relation?_eq_some.mp hid
    obtain ⟨i, hi, hmade⟩ := interpreted_of_ofStore hr.nodup_ids h (List.mem_of_getElem? hget)
    obtain ⟨j, hj, hwell, hadmits⟩ := interpret_spec symbols (hs.unitsOf hid)
    obtain rfl := Except.ok.inj (hmade.symm.trans hj)
    exact ⟨i, hi, hwell, fun args => (hadmits z args).trans hs.covers_iff.symm⟩
  refine ⟨fun id r hid => ?_, fun id r args hid => ?_⟩
  · obtain ⟨i, hi, hwell, -⟩ := hinterpret id r hid
    exact ⟨i, hi, hwell⟩
  · obtain ⟨i, hi, -, hadmits⟩ := hinterpret id r hid
    rw [← hadmits, Admits]
    exact ⟨fun ⟨j, hj, h⟩ => Option.some.inj (hi.symm.trans hj) ▸ h, fun h => ⟨i, hi, h⟩⟩

end Solution

end HornSaturation
