import HornSaturation.Proofs.Term.Renaming
import HornSaturation.Proofs.Unit.Store

/-!
# Canonical forms

The canonical form of a unit has its arguments at occurrence zero and its locals numbered by first
appearance. The order of first appearances is not changed by a renaming, and numbering is itself a
renaming, so two units have one canonical form exactly if they are equivalent up to the names of
locals. All this needs of a unit is that none of its locals is an argument symbol of its relation.
-/

namespace HornSaturation

namespace Term

variable {t t' : Term} {vars : List Var}

/-- The term with its locals numbered by first appearance. -/
def numbered (vars : List Var) (t : Term) : Term :=
  t.rename (Substitution.rename (t.locals vars)
    ((t.locals vars).mapIdx UnitClause.canonicalLocal))

/-- A number only takes the sort from the local that it stands for. -/
theorem mapIdx_canonicalLocal_map {g : Var → Var} (hg : ∀ v, (g v).sort = v.sort) (vs : List Var) :
    (vs.map g).mapIdx UnitClause.canonicalLocal = vs.mapIdx UnitClause.canonicalLocal :=
  List.ext_getElem (by simp) fun i hi hi' => by simp [UnitClause.canonicalLocal, hg]

/-- Equivalent terms are numbered alike. -/
theorem AlphaEquivalent.numbered_eq (h : t.AlphaEquivalent vars t') :
    t'.numbered vars = t.numbered vars := by
  obtain ⟨g, hg, rfl⟩ := h
  rw [numbered, hg.locals_rename, mapIdx_canonicalLocal_map hg.sort, rename_rename, numbered]
  set numbers := (t.locals vars).mapIdx UnitClause.canonicalLocal
  have hlen : (t.locals vars).length = numbers.length := by simp [numbers]
  refine rename_congr fun v hv => ?_
  by_cases hvv : v ∈ vars
  · have hlocal : v ∉ t.locals vars := fun h => (mem_locals.mp h).2 hvv
    have hrenamed : v ∉ (t.locals vars).map g := by
      rw [← hg.locals_rename]
      exact fun h => (mem_locals.mp h).2 hvv
    rw [hg.given v hvv, Substitution.rename_of_notMem hrenamed,
      Substitution.rename_of_notMem hlocal]
  · have hrenamed : ((t.locals vars).map g).map
        (Substitution.rename ((t.locals vars).map g) numbers) =
        (t.locals vars).map (Substitution.rename (t.locals vars) numbers) :=
      (Substitution.map_rename (nodup_locals.map_on hg.inj) (by simpa using hlen)).trans
        (Substitution.map_rename nodup_locals hlen).symm
    rw [List.map_map] at hrenamed
    exact List.map_inj_left.mp hrenamed v (mem_locals.mpr ⟨hv, hvv⟩)

/-- Numbering is a renaming of locals. -/
theorem alphaEquivalent_numbered (hvars : ∀ v ∈ vars, v.IsMarked) :
    t.AlphaEquivalent vars (t.numbered vars) := by
  obtain ⟨hnodup, hunmarked, hsort⟩ := UnitClause.canonicalLocals_spec (t.locals vars)
  have hlen := (List.length_mapIdx (f := UnitClause.canonicalLocal) (l := t.locals vars)).symm
  refine ⟨_, ⟨Substitution.rename_sort hsort, fun v hv => ?_, fun v hv hvv hmem => ?_,
    fun v hv w hw => ?_⟩, rfl⟩
  · exact Substitution.rename_of_notMem fun h => (mem_locals.mp h).2 hv
  · exact hunmarked _ (Substitution.rename_mem nodup_locals hlen (mem_locals.mpr ⟨hv, hvv⟩))
      (hvars _ hmem)
  · exact Substitution.rename_inj nodup_locals hnodup hlen (.inl hv) (.inl hw)

/-- Numbering decides equivalence up to the names of locals. -/
theorem numbered_eq_iff (hvars : ∀ v ∈ vars, v.IsMarked) :
    t.numbered vars = t'.numbered vars ↔ t.AlphaEquivalent vars t' :=
  ⟨fun h => (h ▸ alphaEquivalent_numbered hvars).trans (alphaEquivalent_numbered hvars).symm,
    fun h => h.numbered_eq.symm⟩

theorem mem_occurrences_numbered {v : Var} (h : v ∈ (t.numbered vars).occurrences) :
    v ∈ vars ∨ ¬ v.IsMarked := by
  obtain ⟨w, hw, rfl⟩ := mem_occurrences_rename.mp h
  by_cases hwv : w ∈ vars
  · rw [Substitution.rename_of_notMem fun h => (mem_locals.mp h).2 hwv]
    exact .inl hwv
  · exact .inr ((UnitClause.canonicalLocals_spec _).2.1 _
      (Substitution.rename_mem nodup_locals (by simp) (mem_locals.mpr ⟨hw, hwv⟩)))

end Term

namespace Relation

variable {r : Relation} {o k : Nat} {v : Var}

/-- A variable that is an argument symbol of the relation at no occurrence. -/
def IsLocal (r : Relation) (v : Var) : Prop := ∀ o, v ∉ r.arguments o

/-- The renaming of the argument symbols of one occurrence to those of another one. -/
def move (r : Relation) (o k : Nat) : Var → Var :=
  Substitution.rename (r.arguments o) (r.arguments k)

theorem arguments_length_eq (r : Relation) (o k : Nat) :
    (r.arguments o).length = (r.arguments k).length := by
  rw [arguments_length, arguments_length]

theorem map_move (r : Relation) (o k : Nat) : (r.arguments o).map (r.move o k) = r.arguments k :=
  Substitution.map_rename (r.arguments_nodup o) (r.arguments_length_eq o k)

theorem move_mem (h : v ∈ r.arguments o) : r.move o k v ∈ r.arguments k :=
  r.map_move o k ▸ List.mem_map_of_mem h

theorem move_of_notMem (h : v ∉ r.arguments o) : r.move o k v = v :=
  Substitution.rename_of_notMem h

theorem IsLocal.move_eq (h : r.IsLocal v) : r.move o k v = v := move_of_notMem (h o)

theorem move_sort (r : Relation) (o k : Nat) (v : Var) : (r.move o k v).sort = v.sort :=
  Substitution.rename_sort (by rw [arguments_sort, arguments_sort]) v

/-- Two moves one after the other are one. -/
theorem move_move {j : Nat} (h : v ∈ r.arguments o ∨ r.IsLocal v) :
    r.move k j (r.move o k v) = r.move o j v := by
  rcases h with hv | hv
  · have hmap : ((r.arguments o).map (r.move o k)).map (r.move k j) =
        (r.arguments o).map (r.move o j) := by
      rw [map_move, map_move, map_move]
    rw [List.map_map] at hmap
    exact List.map_inj_left.mp hmap v hv
  · rw [hv.move_eq, hv.move_eq, hv.move_eq]

theorem move_self (r : Relation) (o : Nat) (v : Var) : r.move o o v = v := by
  by_cases hv : v ∈ r.arguments o
  · exact List.map_inj_left.mp ((r.map_move o o).trans (List.map_id _).symm) v hv
  · exact move_of_notMem hv

end Relation

namespace UnitClause

variable {z : ZeroDivision} {relations : List Relation} {r : Relation} {u u' : UnitClause}
  {k : Nat}

/-- A unit of a declared relation, none of whose locals is an argument symbol of the relation. -/
structure OfRelation (relations : List Relation) (r : Relation) (u : UnitClause) : Prop where
  declared : relation? relations r.id = some r
  head : u.head = some r.id
  symbols : ∀ v ∈ u.constraint.occurrences, v ∈ r.arguments u.occurrence ∨ r.IsLocal v

/-- The unit with its arguments at another occurrence. -/
def moved (r : Relation) (k : Nat) (u : UnitClause) : UnitClause :=
  { u with occurrence := k, constraint := u.constraint.rename (r.move u.occurrence k) }

/-- The unit with its arguments at occurrence zero and its locals numbered. -/
def numbered (r : Relation) (u : UnitClause) : UnitClause :=
  { u.moved r 0 with constraint := (u.moved r 0).constraint.numbered (r.arguments 0) }

/-- Once the arguments of two units are at an occurrence, a renaming of locals makes the constraint
of one into that of the other. -/
def AlphaEquivalentAt (relations : List Relation) (k : Nat) (u u' : UnitClause) : Prop :=
  ∃ m m' vars, u.atOccurrence relations k = .ok m ∧ u'.atOccurrence relations k = .ok m' ∧
    m.arguments relations = .ok vars ∧ m.constraint.AlphaEquivalent vars m'.constraint

/-- A well-formed unit has no local that is marked. -/
theorem WellFormed.ofRelation (hw : u.WellFormed relations)
    (hr : relation? relations r.id = some r) (hhead : u.head = some r.id) :
    u.OfRelation relations r := by
  refine ⟨hr, hhead, fun v hv => ?_⟩
  obtain ⟨vars, hvars, hocc⟩ := hw.arguments
  rw [UnitClause.arguments, hhead] at hvars
  obtain rfl := Except.ok.inj ((Atom.arguments_eq_ok.mpr ⟨r, hr, rfl⟩).symm.trans hvars)
  refine (hocc v hv).imp_right fun hunmarked o hmem => ?_
  obtain ⟨p, -, rfl⟩ := Relation.mem_arguments.mp hmem
  exact hunmarked (r.argument_isMarked o p)

namespace OfRelation

theorem arguments_at (h : u.OfRelation relations r) (k : Nat) :
    (Atom.mk r.id k).arguments relations = .ok (r.arguments k) :=
  Atom.arguments_eq_ok.mpr ⟨r, h.declared, rfl⟩

theorem arguments (h : u.OfRelation relations r) :
    u.arguments relations = .ok (r.arguments u.occurrence) := by
  rw [UnitClause.arguments, h.head]
  exact h.arguments_at _

theorem atOccurrence_eq (h : u.OfRelation relations r) (k : Nat) :
    u.atOccurrence relations k = .ok (u.moved r k) := by
  have hmove : ∃ s, u.moveArguments relations k = .ok s ∧
      u.constraint.substitute s = u.constraint.rename (r.move u.occurrence k) := by
    rw [moveArguments, h.head]
    dsimp only
    split
    · next hk =>
      rw [hk, Term.rename_eq_self fun v _ => r.move_self u.occurrence v]
      exact ⟨[], rfl, rfl⟩
    · rw [h.arguments_at, h.arguments_at]
      exact ⟨_, rfl, Term.substitute_ofVars _ _ _⟩
  obtain ⟨s, hs, hconstraint⟩ := hmove
  rw [atOccurrence, hs, UnitClause.moved, ← hconstraint]
  rfl

theorem moved (h : u.OfRelation relations r) (k : Nat) : (u.moved r k).OfRelation relations r := by
  refine ⟨h.declared, h.head, fun w hw => ?_⟩
  obtain ⟨v, hv, rfl⟩ := Term.mem_occurrences_rename.mp hw
  rcases h.symbols v hv with hvar | hlocal
  · exact .inl (Relation.move_mem hvar)
  · rw [hlocal.move_eq]
    exact .inr hlocal

/-- Moving twice is moving once. -/
theorem constraint_moved_moved (h : u.OfRelation relations r) (k j : Nat) :
    ((u.moved r k).moved r j).constraint = (u.moved r j).constraint :=
  Term.rename_rename.trans (Term.rename_congr fun v hv => Relation.move_move (h.symbols v hv))

/-- Moving a unit keeps what it admits. -/
theorem admits_moved (h : u.OfRelation relations r) (k : Nat) {xs : List Value} :
    (u.moved r k).Admits z relations xs ↔ u.Admits z relations xs := by
  refine admits_rename (r.move_sort _ _) (fun v hv w hw => ?_) h.arguments
    (by rw [r.map_move]; exact (h.moved k).arguments) rfl
  have hfits {v : Var} (hv : v ∈ r.arguments u.occurrence ++ u.constraint.occurrences) :
      v ∈ r.arguments u.occurrence ∨ v ∉ r.arguments k :=
    (List.mem_append.mp hv).elim .inl fun hv => (h.symbols v hv).imp_right fun hlocal => hlocal k
  exact Substitution.rename_inj (r.arguments_nodup _) (r.arguments_nodup _)
    (r.arguments_length_eq _ _) (hfits hv) (hfits hw)

theorem canonical_eq (h : u.OfRelation relations r) :
    u.canonical relations = .ok (u.numbered r) := by
  have hlocals : (u.moved r 0).locals relations =
      .ok ((u.moved r 0).constraint.locals (r.arguments 0)) := by
    rw [UnitClause.locals, (h.moved 0).arguments]
    rfl
  rw [canonical, h.atOccurrence_eq]
  dsimp only [bind, Except.bind]
  rw [hlocals]
  dsimp only
  rw [Term.substitute_ofVars]
  rfl

theorem numbered (h : u.OfRelation relations r) : (u.numbered r).OfRelation relations r := by
  refine ⟨h.declared, h.head, fun v hv => (Term.mem_occurrences_numbered hv).imp_right ?_⟩
  intro hunmarked o hmem
  obtain ⟨p, -, rfl⟩ := Relation.mem_arguments.mp hmem
  exact hunmarked (r.argument_isMarked o p)

private theorem isMarked_of_mem (o : Nat) : ∀ v ∈ r.arguments o, v.IsMarked := fun v hv => by
  obtain ⟨p, -, rfl⟩ := Relation.mem_arguments.mp hv
  exact r.argument_isMarked o p

/-- The canonical form of a unit admits what the unit does. -/
theorem admits_numbered (h : u.OfRelation relations r) {xs : List Value} :
    (u.numbered r).Admits z relations xs ↔ u.Admits z relations xs := by
  rw [← h.admits_moved 0, admits_iff h.numbered.arguments, admits_iff (h.moved 0).arguments]
  exact (Term.alphaEquivalent_numbered (isMarked_of_mem 0)).exists_holds_iff

/-- A unit in canonical form is its own canonical form. -/
theorem canonical_numbered (h : u.OfRelation relations r) :
    (u.numbered r).canonical relations = .ok (u.numbered r) := by
  have hstays : ((u.numbered r).moved r 0).constraint = (u.numbered r).constraint :=
    Term.rename_eq_self fun v _ => r.move_self 0 v
  have hagain : ((u.numbered r).constraint).numbered (r.arguments 0) = (u.numbered r).constraint :=
    (Term.alphaEquivalent_numbered (isMarked_of_mem 0)).numbered_eq
  rw [h.numbered.canonical_eq]
  exact congrArg (fun t => Except.ok { u.moved r 0 with constraint := t })
    ((congrArg (Term.numbered (r.arguments 0)) hstays).trans hagain)

theorem alphaEquivalentAt_iff (h : u.OfRelation relations r) (h' : u'.OfRelation relations r) :
    u.AlphaEquivalentAt relations k u' ↔
      (u.moved r k).constraint.AlphaEquivalent (r.arguments k) (u'.moved r k).constraint := by
  constructor
  · rintro ⟨m, m', vars, hm, hm', hvars, halpha⟩
    obtain rfl := Except.ok.inj ((h.atOccurrence_eq k).symm.trans hm)
    obtain rfl := Except.ok.inj ((h'.atOccurrence_eq k).symm.trans hm')
    obtain rfl := Except.ok.inj ((h.moved k).arguments.symm.trans hvars)
    exact halpha
  · exact fun halpha =>
      ⟨_, _, _, h.atOccurrence_eq k, h'.atOccurrence_eq k, (h.moved k).arguments, halpha⟩

/-- Units that are equivalent at one occurrence are at every other one. -/
theorem alphaEquivalentAt_move {j : Nat} (h : u.OfRelation relations r)
    (h' : u'.OfRelation relations r) (halpha : u.AlphaEquivalentAt relations k u') :
    u.AlphaEquivalentAt relations j u' := by
  rw [h.alphaEquivalentAt_iff h'] at halpha ⊢
  rw [← h.constraint_moved_moved k j, ← h'.constraint_moved_moved k j]
  refine halpha.move (fun v hv => Relation.move_mem hv) fun v hv => ?_
  have hlocal : r.IsLocal v := by
    rcases List.mem_append.mp hv with hv | hv
    · obtain ⟨hv, hvv⟩ := Term.mem_locals.mp hv
      exact ((h.moved k).symbols v hv).resolve_left hvv
    · obtain ⟨hv, hvv⟩ := Term.mem_locals.mp hv
      exact ((h'.moved k).symbols v hv).resolve_left hvv
  exact ⟨hlocal.move_eq, hlocal j⟩

/-- Two units of one relation have one canonical form exactly if they are equivalent. -/
theorem constraint_numbered_eq_iff (h : u.OfRelation relations r) (h' : u'.OfRelation relations r)
    (k : Nat) : (u.numbered r).constraint = (u'.numbered r).constraint ↔
      u.AlphaEquivalentAt relations k u' := by
  have hzero := h.alphaEquivalentAt_iff (k := 0) h'
  rw [UnitClause.numbered, UnitClause.numbered]
  exact (Term.numbered_eq_iff (isMarked_of_mem 0)).trans (hzero.symm.trans
    ⟨h.alphaEquivalentAt_move h', h.alphaEquivalentAt_move h'⟩)

end OfRelation

end UnitClause

/-- A store finds a unit identical exactly if an active unit of its relation is equivalent to it. -/
theorem Store.Built.containsIdentical_iff {relations : List Relation} {r : Relation} {store : Store}
    {u : UnitClause} (hb : store.Built relations) (h : u.OfRelation relations r)
    (hunits : ∀ id e, store.get? id = some e → e.active = true → e.unit.head = some r.id →
      e.unit.OfRelation relations r) (k : Nat) :
    store.containsIdentical u = true ↔ ∃ id e, store.get? id = some e ∧ e.active = true ∧
      e.unit.head = some r.id ∧ e.unit.AlphaEquivalentAt relations k u := by
  obtain ⟨hrelations, hlisted⟩ := hb.spec
  rw [containsIdentical, hrelations, h.head, h.canonical_eq]
  dsimp only
  rw [List.any_eq_true]
  constructor
  · rintro ⟨⟨id, w⟩, hw, hsame⟩
    obtain ⟨e, he, hactive, rfl, hhead⟩ := hlisted.mem_unitsOf.mp hw
    have hunit := hunits id e he hactive hhead
    rw [hunit.canonical_eq] at hsame
    exact ⟨id, e, he, hactive, hhead,
      (hunit.constraint_numbered_eq_iff h k).mp (of_decide_eq_true hsame)⟩
  · rintro ⟨id, e, he, hactive, hhead, halpha⟩
    have hunit := hunits id e he hactive hhead
    refine ⟨(id, e.unit), hlisted.mem_unitsOf.mpr ⟨e, he, hactive, rfl, hhead⟩, ?_⟩
    rw [hunit.canonical_eq]
    exact decide_eq_true ((hunit.constraint_numbered_eq_iff h k).mpr halpha)

/-- Canonical forms decide equivalence up to the names of locals: they are made, equal exactly for
equivalent units, their own canonical forms, and admit what the units do. So a store finds a unit
identical exactly if an active one of its relation is equivalent to it. -/
theorem UnitClause.canonical_exact {relations : List Relation} {r : Relation} {u u' : UnitClause}
    (h : u.OfRelation relations r) (h' : u'.OfRelation relations r) :
    (∃ c c', u.canonical relations = .ok c ∧ u'.canonical relations = .ok c' ∧
      (∀ k, c.constraint = c'.constraint ↔ u.AlphaEquivalentAt relations k u') ∧
      c.canonical relations = .ok c ∧
      ∀ z xs, c.Admits z relations xs ↔ u.Admits z relations xs) ∧
    ∀ store : Store, store.Built relations →
      (∀ id e, store.get? id = some e → e.active = true → e.unit.head = some r.id →
        e.unit.OfRelation relations r) →
      ∀ k, store.containsIdentical u = true ↔ ∃ id e, store.get? id = some e ∧
        e.active = true ∧ e.unit.head = some r.id ∧ e.unit.AlphaEquivalentAt relations k u :=
  ⟨⟨u.numbered r, u'.numbered r, h.canonical_eq, h'.canonical_eq, h.constraint_numbered_eq_iff h',
    h.canonical_numbered, fun _ _ => h.admits_numbered⟩,
    fun _ hb hunits k => hb.containsIdentical_iff h hunits k⟩

section Multiples

/-- A relation with one integer argument. -/
def Relation.unary : Relation := ⟨0, "R", [.int]⟩

/-- The unit that says that the multiples of a number are in the relation, with a local of some
name. -/
def UnitClause.multiples (n : Int) (occurrence : Nat) (name : String) : UnitClause :=
  ⟨some 0, .positive, occurrence, .op .eq [.var (Relation.unary.argument occurrence 0),
    .op .mul [.int n, .var ⟨name, .int⟩]]⟩

theorem UnitClause.ofRelation_multiples {n : Int} {occurrence : Nat} {name : String}
    (h : '@' ∉ name.toList) :
    (UnitClause.multiples n occurrence name).OfRelation [.unary] .unary := by
  refine ⟨rfl, rfl, fun v hv => ?_⟩
  have hcases : v = Relation.unary.argument occurrence 0 ∨ v = ⟨name, .int⟩ := by
    simpa [multiples] using hv
  rcases hcases with rfl | rfl
  · exact .inl (Relation.mem_arguments.mpr ⟨0, Nat.zero_lt_one, rfl⟩)
  · refine .inr fun o hmem => ?_
    obtain ⟨p, -, hp⟩ := Relation.mem_arguments.mp hmem
    have hmarked := Relation.unary.argument_isMarked o p
    rw [hp] at hmarked
    exact h hmarked

/-- The store with the even numbers. -/
def Store.evens : Store where
  relations := [.unary]
  entries := #[⟨.multiples 2 0 "l!0", .fact 0, true⟩]
  activeUnits := [(0, [0])]
  generation := 1

/-- The even numbers with another local, at another occurrence, are not new. -/
theorem UnitClause.canonical_multiples :
    (UnitClause.multiples 2 1 "l!2").canonical [.unary] = .ok (.multiples 2 0 "!c0") ∧
    (UnitClause.multiples 2 1 "l!2").AlphaEquivalentAt [.unary] 3 (.multiples 2 0 "l!0") ∧
    ∃ id e, Store.evens.get? id = some e ∧ e.active = true ∧ e.unit.head = some 0 ∧
      e.unit.AlphaEquivalentAt [.unary] 3 (.multiples 2 1 "l!2") := by
  have hfirst : (UnitClause.multiples 2 0 "l!0").OfRelation [.unary] .unary :=
    ofRelation_multiples (by decide)
  have hsecond : (UnitClause.multiples 2 1 "l!2").OfRelation [.unary] .unary :=
    ofRelation_multiples (by decide)
  have hinsert : Store.insert { relations := [.unary] } (.multiples 2 0 "l!0") (.fact 0) =
      .ok (0, .evens) := rfl
  have hbuilt : Store.evens.Built [.unary] := .insert .empty hinsert
  have hunits : ∀ id e, Store.evens.get? id = some e → e.active = true →
      e.unit.head = some Relation.unary.id → e.unit.OfRelation [.unary] .unary := by
    intro id e he _ _
    obtain ⟨hid, rfl⟩ := Array.getElem?_eq_some_iff.mp he
    obtain rfl : id = 0 := by simpa [Store.evens] using hid
    exact hfirst
  obtain ⟨⟨c, c', hc, hc', hiff, -⟩, hstore⟩ := UnitClause.canonical_exact hsecond hfirst
  have hcanonical : (UnitClause.multiples 2 1 "l!2").canonical [.unary] =
      .ok (.multiples 2 0 "!c0") := by rfl
  have hcanonical' : (UnitClause.multiples 2 0 "l!0").canonical [.unary] =
      .ok (.multiples 2 0 "!c0") := by rfl
  have hsame : c.constraint = c'.constraint := by
    rw [← Except.ok.inj (hcanonical.symm.trans hc), ← Except.ok.inj (hcanonical'.symm.trans hc')]
  exact ⟨hcanonical, (hiff 3).mp hsame, (hstore _ hbuilt hunits 3).mp (by decide)⟩

end Multiples

end HornSaturation
