import HornSaturation.Proofs.Solution.Interpretations

/-!
# Solutions of stores

A store denotes, for each relation, the values that its active units admit. Whatever locals the
units have and at whatever occurrences they are, the solution of the store can be made and says the
same. So it only depends on which units are active.
-/

namespace HornSaturation

namespace Store

variable {relations : List Relation} {store store' : Store} {r : Relation}

/-- A store that has come about by storing, retiring and recording. The active units of the given
relations have formulas as constraints, and none of their locals is an argument symbol. -/
structure OfUnits (relations : List Relation) (store : Store) : Prop where
  built : store.Built relations
  units : ∀ r ∈ relations, ∀ id e, store.get? id = some e → e.active = true →
    e.unit.head = some r.id → e.unit.OfRelation relations r ∧
      e.unit.constraint.hasSort .bool = true

/-- Every active unit of a store is active in another one, at some occurrence. -/
def UnitsWithin (relations : List Relation) (store store' : Store) : Prop :=
  ∀ id e, store.get? id = some e → e.active = true → ∃ id' e', store'.get? id' = some e' ∧
    e'.active = true ∧ e.unit.atOccurrence relations e'.unit.occurrence = .ok e'.unit

theorem OfUnits.unitsOf (h : store.OfUnits relations) (hr : r ∈ relations) :
    ∀ w ∈ store.unitsOf r.id, w.2.OfRelation relations r ∧
      w.2.constraint.hasSort .bool = true := by
  rintro ⟨id, u⟩ hw
  obtain ⟨e, he, hactive, rfl, hhead⟩ := h.built.spec.2.mem_unitsOf.mp hw
  exact h.units r hr id e he hactive hhead

/-- A store denotes what another one does that has its active units. -/
theorem OfUnits.denotes_of_within {z : ZeroDivision} {args : List Value}
    (h : store.OfUnits relations) (hw : store.UnitsWithin relations store') (hr : r ∈ relations)
    (hd : store.Denotes z relations r.id args) : store'.Denotes z relations r.id args := by
  obtain ⟨id, e, he, hactive, hhead, hadm⟩ := hd
  obtain ⟨id', e', he', hactive', hmove⟩ := hw id e he hactive
  have hunit := (h.units r hr id e he hactive hhead).1
  have hmoved := Except.ok.inj ((hunit.atOccurrence_eq e'.unit.occurrence).symm.trans hmove)
  refine ⟨id', e', he', hactive', ?_, ?_⟩
  · rw [← hmoved]
    exact hhead
  · rw [← hmoved]
    exact (hunit.admits_moved _).mpr hadm

end Store

namespace Solution

variable {relations rs : List Relation} {store store' : Store} {symbols : Symbols}

/-- An interpretation of a further relation is listed under its identifier. -/
theorem perm_insertSorted {q : RelationId} {i : Interpretation} :
    ∀ {entries : List (RelationId × Interpretation)}, q ∉ entries.map Prod.fst →
      ((insertSorted q i entries).map Prod.fst).Perm (q :: entries.map Prod.fst)
  | [], _ => .refl _
  | (q', j) :: entries, h => by
    obtain ⟨hne, hnot⟩ : q ≠ q' ∧ q ∉ entries.map Prod.fst := by simpa using h
    rw [insertSorted]
    split
    · exact .refl _
    · exact ((perm_insertSorted hnot).cons q').trans (.swap q q' _)

/-- If every relation can be interpreted, all of them are, each once. -/
theorem exists_foldlM (s₀ : Solution) (hids : (rs.map (·.id)).Nodup)
    (hnew : ∀ r ∈ rs, r.id ∉ s₀.interpretations.map Prod.fst)
    (h : ∀ r ∈ rs, ∃ i, interpret Term.project symbols store relations r = .ok i) :
    ∃ s, rs.foldlM (fun s r => do
        let i ← interpret Term.project symbols store relations r
        return s.insert r.id i) s₀ = .ok s ∧
      (s.interpretations.map Prod.fst).Perm
        (rs.map (·.id) ++ s₀.interpretations.map Prod.fst) := by
  induction rs generalizing s₀ with
  | nil => exact ⟨s₀, rfl, .refl _⟩
  | cons r rs ih =>
    obtain ⟨hnot, hids⟩ := List.nodup_cons.mp hids
    obtain ⟨hr, hnew⟩ := List.forall_mem_cons.mp hnew
    obtain ⟨⟨i, hi⟩, h⟩ := List.forall_mem_cons.mp h
    have hfirst := perm_insertSorted (i := i) hr
    have hnext : ∀ r' ∈ rs, r'.id ∉ (s₀.insert r.id i).interpretations.map Prod.fst := by
      intro r' hr' hmem
      rcases List.mem_cons.mp (hfirst.mem_iff.mp hmem) with heq | hmem
      · exact hnot (List.mem_map.mpr ⟨r', hr', heq⟩)
      · exact hnew r' hr' hmem
    obtain ⟨s, hs, hperm⟩ := ih (s₀.insert r.id i) hids hnext h
    refine ⟨s, ?_, hperm.trans ((hfirst.append_left _).trans List.perm_middle)⟩
    rw [List.foldlM_cons, hi]
    exact hs

/-- The solution of a store can be made, and it interprets the relations by what the store denotes.
-/
theorem exists_ofStore (hids : (relations.map (·.id)).Nodup) (h : store.OfUnits relations)
    (symbols : Symbols) :
    ∃ s, ofStore Term.project symbols store relations = .ok s ∧
      (s.interpretations.map Prod.fst).Perm (relations.map (·.id)) ∧
      ∀ r ∈ relations, ∃ i, s.get? r.id = some i ∧ i.WellFormed r.sorts ∧
        ∀ z args, i.Admits z args ↔ store.Denotes z relations r.id args := by
  have hinterpret := fun r hr => interpret_spec symbols (h.unitsOf (r := r) hr)
  obtain ⟨s, hs, hperm⟩ := exists_foldlM {} hids (fun _ _ => List.not_mem_nil) fun r hr =>
    (hinterpret r hr).imp fun _ hi => hi.1
  refine ⟨s, hs, by simpa using hperm, fun r hr => ?_⟩
  obtain ⟨i, hi, hmade⟩ := interpreted_of_ofStore hids hs hr
  obtain ⟨j, hj, hwell, hadmits⟩ := hinterpret r hr
  obtain rfl := Except.ok.inj (hmade.symm.trans hj)
  exact ⟨i, hi, hwell, fun z args => (hadmits z args).trans h.built.spec.2.denotes_iff.symm⟩

/-- What a solution says of a relation is what the store denotes. -/
theorem admits_iff_denotes {s : Solution} (hids : (relations.map (·.id)).Nodup)
    (h : store.OfUnits relations) (hs : ofStore Term.project symbols store relations = .ok s)
    {z : ZeroDivision} {q : RelationId} {args : List Value} :
    s.Admits z q args ↔ ∃ r ∈ relations, r.id = q ∧ store.Denotes z relations q args := by
  obtain ⟨s', hs', hperm, hinterprets⟩ := exists_ofStore hids h symbols
  obtain rfl := Except.ok.inj (hs.symm.trans hs')
  constructor
  · rintro ⟨i, hi, hadm⟩
    have hq : q ∈ s.interpretations.map Prod.fst := by
      obtain ⟨before, after, hsplit, -⟩ := List.lookup_eq_some_iff.mp hi
      simp [hsplit]
    obtain ⟨r, hr, rfl⟩ := List.mem_map.mp (hperm.mem_iff.mp hq)
    obtain ⟨j, hj, -, hadmits⟩ := hinterprets r hr
    obtain rfl := Option.some.inj (hi.symm.trans hj)
    exact ⟨r, hr, rfl, (hadmits z args).mp hadm⟩
  · rintro ⟨r, hr, rfl, hd⟩
    obtain ⟨i, hi, -, hadmits⟩ := hinterprets r hr
    exact ⟨i, hi, (hadmits z args).mpr hd⟩

/-- The solution of a store can be made. It has one interpretation for each relation, a well-formed
one, which admits exactly what the active units of the relation do. The solutions of two stores with
the same active units, whatever their order and occurrences, admit the same. -/
theorem ofStore_exact (hids : (relations.map (·.id)).Nodup) (h : store.OfUnits relations) :
    (∀ symbols, ∃ s, ofStore Term.project symbols store relations = .ok s ∧
      (s.interpretations.map Prod.fst).Perm (relations.map (·.id)) ∧
      ∀ r ∈ relations, ∃ i, s.get? r.id = some i ∧ i.WellFormed r.sorts ∧
        ∀ z args, i.Admits z args ↔ store.Denotes z relations r.id args) ∧
    ∀ store', store'.OfUnits relations → store.UnitsWithin relations store' →
      store'.UnitsWithin relations store → ∀ symbols symbols' s s',
        ofStore Term.project symbols store relations = .ok s →
        ofStore Term.project symbols' store' relations = .ok s' →
        ∀ z q args, s.Admits z q args ↔ s'.Admits z q args := by
  refine ⟨exists_ofStore hids h, fun store' h' hw hw' symbols symbols' s s' hs hs' z q args => ?_⟩
  rw [admits_iff_denotes hids h hs, admits_iff_denotes hids h' hs']
  refine exists_congr fun r => and_congr_right fun hr => and_congr_right ?_
  rintro rfl
  exact ⟨h.denotes_of_within hw hr, h'.denotes_of_within hw' hr⟩

end Solution

/-- The store with the multiples of two numbers, at two occurrences and with one name for the local.
-/
def Store.multiples (m : Int) (o : Nat) (n : Int) (k : Nat) : Store where
  relations := [.unary]
  entries := #[⟨.multiples m o "l!0", .fact 0, true⟩, ⟨.multiples n k "l!0", .fact 1, true⟩]
  activeUnits := [(0, [0, 1])]
  generation := 2

theorem Store.get?_multiples {m n : Int} {o k id : Nat} {e : StoredUnit}
    (he : (Store.multiples m o n k).get? id = some e) :
    e = ⟨.multiples m o "l!0", .fact 0, true⟩ ∨ e = ⟨.multiples n k "l!0", .fact 1, true⟩ := by
  simpa [multiples] using Array.mem_of_getElem? he

theorem Store.ofUnits_multiples (m : Int) (o : Nat) (n : Int) (k : Nat) :
    (Store.multiples m o n k).OfUnits [.unary] := by
  have hfirst : Store.insert { relations := [.unary] } (.multiples m o "l!0") (.fact 0) =
      .ok (0, ⟨[.unary], #[⟨.multiples m o "l!0", .fact 0, true⟩], [(0, [0])], [], 1⟩) := rfl
  have hsecond : Store.insert
      ⟨[.unary], #[⟨.multiples m o "l!0", .fact 0, true⟩], [(0, [0])], [], 1⟩
      (.multiples n k "l!0") (.fact 1) = .ok (1, .multiples m o n k) := rfl
  refine ⟨(Store.Built.empty.insert hfirst).insert hsecond, fun r hr id e he _ _ => ?_⟩
  obtain rfl := List.mem_singleton.mp hr
  rcases Store.get?_multiples he with rfl | rfl
  · exact ⟨UnitClause.ofRelation_multiples (by decide), rfl⟩
  · exact ⟨UnitClause.ofRelation_multiples (by decide), rfl⟩

/-- The multiples of two and of three have one solution, in either order. -/
theorem Solution.ofStore_multiples : ∃ s s' i,
    ofStore Term.project {} (.multiples 2 1 3 2) [.unary] = .ok s ∧
    ofStore Term.project { ready := true } (.multiples 3 0 2 4) [.unary] = .ok s' ∧
    s.get? 0 = some i ∧ i.WellFormed [.int] ∧
    (∀ z args, i.Admits z args ↔ (Store.multiples 2 1 3 2).Denotes z [.unary] 0 args) ∧
    ∀ z q args, s.Admits z q args ↔ s'.Admits z q args := by
  have h := Store.ofUnits_multiples 2 1 3 2
  have h' := Store.ofUnits_multiples 3 0 2 4
  have hids : ([.unary].map Relation.id).Nodup := by decide
  have hw : (Store.multiples 2 1 3 2).UnitsWithin [.unary] (.multiples 3 0 2 4) := by
    intro id e he _
    rcases Store.get?_multiples he with rfl | rfl
    · exact ⟨1, _, rfl, rfl, rfl⟩
    · exact ⟨0, _, rfl, rfl, rfl⟩
  have hw' : (Store.multiples 3 0 2 4).UnitsWithin [.unary] (.multiples 2 1 3 2) := by
    intro id e he _
    rcases Store.get?_multiples he with rfl | rfl
    · exact ⟨1, _, rfl, rfl, rfl⟩
    · exact ⟨0, _, rfl, rfl, rfl⟩
  obtain ⟨hmade, hsame⟩ := Solution.ofStore_exact hids h
  obtain ⟨s, hs, -, hinterprets⟩ := hmade {}
  obtain ⟨s', hs', -⟩ := (Solution.ofStore_exact hids h').1 { ready := true }
  obtain ⟨i, hi, hwell, hadmits⟩ := hinterprets _ List.mem_cons_self
  exact ⟨s, s', i, hs, hs', hi, hwell, hadmits, hsame _ h' hw hw' _ _ s s' hs hs'⟩

end HornSaturation
