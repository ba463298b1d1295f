import HornSaturation.Proofs.Term.Valuation
import HornSaturation.Proofs.Vocabulary.Names

/-!
# What a unit admits

A unit admits the argument values that make its constraint true for some values of its locals.
Moving the arguments to another occurrence and renaming the locals change the constraint but not
what is admitted, because no symbol is taken for another in a well-formed unit: besides its own
argument symbols it has only symbols that are not named like argument symbols.
-/

namespace HornSaturation

namespace UnitClause

/-- Argument values that make the constraint of a unit true for some values of its locals. -/
def Admits (z : ZeroDivision) (relations : List Relation) (u : UnitClause) (xs : List Value) :
    Prop :=
  ∃ vars, u.arguments relations = .ok vars ∧
    ∃ ρ : Valuation, vars.map ρ.value = xs ∧ u.constraint.Holds z ρ

/-- A unit with a declared head, whose constraint is a formula over its argument symbols and over
locals. -/
structure WellFormed (relations : List Relation) (u : UnitClause) : Prop where
  sorted : u.constraint.hasSort .bool = true
  arguments : ∃ vars, u.arguments relations = .ok vars ∧
    ∀ v ∈ u.constraint.occurrences, v ∈ vars ∨ ¬ v.IsMarked

variable {z : ZeroDivision} {relations : List Relation} {u u' : UnitClause} {vars : List Var}

theorem admits_iff (h : u.arguments relations = .ok vars) {xs : List Value} :
    u.Admits z relations xs ↔
      ∃ ρ : Valuation, vars.map ρ.value = xs ∧ u.constraint.Holds z ρ := by
  constructor
  · rintro ⟨vars', hvars, hρ⟩
    obtain rfl : vars = vars' := Except.ok.inj (h.symm.trans hvars)
    exact hρ
  · exact fun hρ => ⟨vars, h, hρ⟩

theorem arguments_nodup (h : u.arguments relations = .ok vars) : vars.Nodup := by
  unfold arguments at h
  split at h
  · exact Atom.arguments_nodup h
  · exact Except.ok.inj h ▸ .nil

theorem arguments_isMarked (h : u.arguments relations = .ok vars) {v : Var} (hv : v ∈ vars) :
    v.IsMarked := by
  unfold arguments at h
  split at h
  · exact Atom.arguments_isMarked h hv
  · rw [← Except.ok.inj h] at hv
    cases hv

/-- Renaming the symbols of a unit, and its arguments with them, keeps what it admits. -/
theorem admits_rename {g : Var → Var} (hg : ∀ v, (g v).sort = v.sort)
    (hinj : ∀ v ∈ vars ++ u.constraint.occurrences, ∀ w ∈ vars ++ u.constraint.occurrences,
      g v = g w → v = w)
    (h : u.arguments relations = .ok vars) (h' : u'.arguments relations = .ok (vars.map g))
    (hc : u'.constraint = u.constraint.rename g) {xs : List Value} :
    u'.Admits z relations xs ↔ u.Admits z relations xs := by
  rw [admits_iff h, admits_iff h', hc]
  exact Term.exists_holds_rename hg hinj

/-- The locals of a unit are the symbols of its constraint that are no argument symbols. -/
theorem mem_locals (h : u.arguments relations = .ok vars) {locals : List Var}
    (hl : u.locals relations = .ok locals) {v : Var} :
    v ∈ locals ↔ v ∈ u.constraint.occurrences ∧ v ∉ vars := by
  rw [UnitClause.locals, h] at hl
  rw [← Except.ok.inj hl]
  simp

theorem locals_nodup {locals : List Var} (hl : u.locals relations = .ok locals) :
    locals.Nodup := by
  unfold UnitClause.locals at hl
  cases h : u.arguments relations with
  | error e =>
    rw [h] at hl
    cases hl
  | ok vars =>
    rw [h] at hl
    rw [← Except.ok.inj hl]
    exact (List.nodup_eraseDups _).filter _

theorem locals_eq_ok (h : u.arguments relations = .ok vars) : ∃ locals,
    u.locals relations = .ok locals := by
  rw [UnitClause.locals, h]
  exact ⟨_, rfl⟩

/-- A unit has argument symbols if a use of its relation has them. -/
theorem exists_arguments {a : Atom} (hu : u.head = some a.relation)
    (ha : a.arguments relations = .ok vars) : ∃ own, u.arguments relations = .ok own := by
  obtain ⟨R, hR, -⟩ := Atom.arguments_eq_ok.mp ha
  refine ⟨R.arguments u.occurrence, ?_⟩
  rw [arguments, hu]
  exact Atom.arguments_eq_ok.mpr ⟨R, hR, rfl⟩

/-- A unit with argument symbols has them at every occurrence. -/
theorem exists_arguments_at (h : u.arguments relations = .ok vars) (occurrence : Nat) :
    ∃ moved, ({ u with occurrence } : UnitClause).arguments relations = .ok moved := by
  unfold arguments at h ⊢
  cases hhead : u.head with
  | none => exact ⟨[], rfl⟩
  | some r =>
    rw [hhead] at h
    obtain ⟨R, hR, -⟩ := Atom.arguments_eq_ok.mp h
    exact ⟨R.arguments occurrence, Atom.arguments_eq_ok.mpr ⟨R, hR, rfl⟩⟩

theorem exists_moveArguments (h : u.arguments relations = .ok vars) (occurrence : Nat) :
    ∃ s, u.moveArguments relations occurrence = .ok s := by
  obtain ⟨moved, hm⟩ := exists_arguments_at h occurrence
  unfold arguments at h hm
  unfold moveArguments
  cases hhead : u.head with
  | none => exact ⟨[], rfl⟩
  | some r =>
    rw [hhead] at h hm
    dsimp only at h hm ⊢
    split
    · exact ⟨[], rfl⟩
    · rw [h, hm]
      exact ⟨_, rfl⟩

/-- Moving the arguments is a renaming between two lists of argument symbols, or no renaming if they
stay where they are. -/
theorem moveArguments_spec {occurrence : Nat} {s : Substitution}
    (h : u.arguments relations = .ok vars)
    (hs : u.moveArguments relations occurrence = .ok s) :
    ∃ sources targets moved, s = .ofVars sources targets ∧
      ({ u with occurrence } : UnitClause).arguments relations = .ok moved ∧
      (sources = vars ∧ targets = moved ∨ sources = [] ∧ targets = [] ∧ moved = vars) := by
  unfold moveArguments at hs
  split at hs
  · next hhead =>
    refine ⟨[], [], vars, (Except.ok.inj hs).symm, ?_, .inr ⟨rfl, rfl, rfl⟩⟩
    simpa [arguments, hhead] using h
  · next r hhead =>
    split at hs
    · next hocc =>
      refine ⟨[], [], vars, (Except.ok.inj hs).symm, ?_, .inr ⟨rfl, rfl, rfl⟩⟩
      simpa [arguments, hhead, hocc] using h
    · have hsource : (Atom.mk r u.occurrence).arguments relations = .ok vars := by
        simpa [arguments, hhead] using h
      rw [hsource] at hs
      cases htarget : (Atom.mk r occurrence).arguments relations with
      | error e =>
        rw [htarget] at hs
        cases hs
      | ok targets =>
        rw [htarget] at hs
        refine ⟨vars, targets, targets, (Except.ok.inj hs).symm, ?_, .inl ⟨rfl, rfl⟩⟩
        simpa [arguments, hhead] using htarget

/-- The argument symbols of a unit at another occurrence have the same sorts. -/
theorem arguments_sort {occurrence : Nat} {moved : List Var}
    (h : u.arguments relations = .ok vars)
    (hm : ({ u with occurrence } : UnitClause).arguments relations = .ok moved) :
    moved.map Var.sort = vars.map Var.sort := by
  unfold arguments at h hm
  cases hhead : u.head with
  | none =>
    rw [hhead] at h hm
    rw [← Except.ok.inj h, ← Except.ok.inj hm]
  | some r =>
    rw [hhead] at h hm
    obtain ⟨R, hR, rfl⟩ := Atom.arguments_eq_ok.mp h
    obtain ⟨R', hR', rfl⟩ := Atom.arguments_eq_ok.mp hm
    obtain rfl := Option.some.inj (hR.symm.trans hR')
    rw [Relation.arguments_sort, Relation.arguments_sort]

/-- A renaming that moves the argument symbols of a unit to those of an occurrence, and some other
symbols to symbols that are no argument symbols, and that keeps all these apart. -/
structure Moves (vars moved locals locals' : List Var) (g : Var → Var) : Prop where
  sort : ∀ v, (g v).sort = v.sort
  arguments : vars.map g = moved
  others : locals.map g = locals'
  inj : ∀ v w, (v ∈ vars ∨ v ∈ locals ∨ ¬ v.IsMarked ∧ v ∉ locals') →
    (w ∈ vars ∨ w ∈ locals ∨ ¬ w.IsMarked ∧ w ∉ locals') → g v = g w → v = w

theorem Moves.mem_moved {moved locals locals' : List Var} {g : Var → Var}
    (hg : Moves vars moved locals locals' g) {v : Var} (hv : v ∈ vars) : g v ∈ moved :=
  hg.arguments ▸ List.mem_map_of_mem hv

theorem Moves.mem_others {moved locals locals' : List Var} {g : Var → Var}
    (hg : Moves vars moved locals locals' g) {v : Var} (hv : v ∈ locals) : g v ∈ locals' :=
  hg.others ▸ List.mem_map_of_mem hv

/-- A move of the arguments, with a renaming of other symbols beside it. -/
theorem moves_rename {sources targets moved others others' : List Var} {occurrence : Nat}
    (h : u.arguments relations = .ok vars)
    (hm : ({ u with occurrence } : UnitClause).arguments relations = .ok moved)
    (hst : sources = vars ∧ targets = moved ∨ sources = [] ∧ targets = [] ∧ moved = vars)
    (hn : others.Nodup) (hd : ∀ v ∈ others, v ∉ vars) (hn' : others'.Nodup)
    (hu : ∀ v ∈ others', ¬ v.IsMarked) (hs : others'.map Var.sort = others.map Var.sort) :
    Moves vars moved others others'
      (Substitution.rename (sources ++ others) (targets ++ others')) := by
  have hlen : others.length = others'.length := by simpa using (congrArg List.length hs).symm
  have hvn := arguments_nodup h
  have hmn := arguments_nodup hm
  have hsort := arguments_sort h hm
  have hvl : vars.length = moved.length := by simpa using (congrArg List.length hsort).symm
  have hmark : ∀ v ∈ vars, v ∉ others' := fun v hv hv' => hu v hv' (arguments_isMarked h hv)
  rcases hst with ⟨rfl, rfl⟩ | ⟨rfl, rfl, rfl⟩
  · have hn₁ : (sources ++ others).Nodup :=
      List.nodup_append'.mpr ⟨hvn, hn, fun v hv hv' => hd v hv' hv⟩
    have hn₂ : (targets ++ others').Nodup :=
      List.nodup_append'.mpr ⟨hmn, hn', fun v hv hv' => hu v hv' (arguments_isMarked hm hv)⟩
    have hl : (sources ++ others).length = (targets ++ others').length := by simp [hvl, hlen]
    have hmap := Substitution.map_rename hn₁ hl
    rw [List.map_append] at hmap
    obtain ⟨harg, hoth⟩ := List.append_inj hmap (by simpa using hvl)
    refine ⟨Substitution.rename_sort (by simp [hsort, hs]), harg, hoth, fun v w hv hw => ?_⟩
    have fits {v : Var} (hv : v ∈ sources ∨ v ∈ others ∨ ¬ v.IsMarked ∧ v ∉ others') :
        v ∈ sources ++ others ∨ v ∉ targets ++ others' := by
      rcases hv with hv | hv | ⟨hv, hv'⟩
      · exact .inl (List.mem_append_left _ hv)
      · exact .inl (List.mem_append_right _ hv)
      · refine .inr fun hmem => ?_
        rcases List.mem_append.mp hmem with hmem | hmem
        · exact hv (arguments_isMarked hm hmem)
        · exact hv' hmem
    exact Substitution.rename_inj hn₁ hn₂ hl (fits hv) (fits hw)
  · simp only [List.nil_append]
    refine ⟨Substitution.rename_sort hs, ?_, Substitution.map_rename hn hlen, fun v w hv hw => ?_⟩
    · rw [List.map_congr_left fun v hv => Substitution.rename_of_notMem fun hv' => hd v hv' hv,
        List.map_id']
    · have fits {v : Var} (hv : v ∈ moved ∨ v ∈ others ∨ ¬ v.IsMarked ∧ v ∉ others') :
          v ∈ others ∨ v ∉ others' := by
        rcases hv with hv | hv | hv
        · exact .inr (hmark v hv)
        · exact .inl hv
        · exact .inr hv.2
      exact Substitution.rename_inj hn hn' hlen (fits hv) (fits hw)

/-- A unit with its symbols moved is well formed and admits the same, if its locals are moved, too,
or keep clear of the new symbols. -/
theorem moves_spec {moved others others' : List Var} {g : Var → Var}
    (hw : u.WellFormed relations) (h : u.arguments relations = .ok vars)
    (h' : u'.arguments relations = .ok moved) (hg : Moves vars moved others others' g)
    (hu : ∀ v ∈ others', ¬ v.IsMarked)
    (hfit : ∀ v ∈ u.constraint.occurrences, v ∉ vars → v ∈ others ∨ g v = v ∧ v ∉ others')
    (hc : u'.constraint = u.constraint.rename g) :
    u'.WellFormed relations ∧ ∀ z xs, u'.Admits z relations xs ↔ u.Admits z relations xs := by
  have hocc : ∀ v ∈ u.constraint.occurrences, v ∈ vars ∨ ¬ v.IsMarked := by
    obtain ⟨vars', hvars', hocc⟩ := hw.arguments
    rwa [← Except.ok.inj (h.symm.trans hvars')] at hocc
  have fits : ∀ v ∈ vars ++ u.constraint.occurrences,
      v ∈ vars ∨ v ∈ others ∨ ¬ v.IsMarked ∧ v ∉ others' := fun v hv => by
    by_cases hvv : v ∈ vars
    · exact .inl hvv
    · have hvo := (List.mem_append.mp hv).resolve_left hvv
      rcases hfit v hvo hvv with ho | ⟨-, ho⟩
      · exact .inr (.inl ho)
      · exact .inr (.inr ⟨(hocc v hvo).resolve_left hvv, ho⟩)
  refine ⟨⟨?_, moved, h', fun w hw => ?_⟩, fun z xs => ?_⟩
  · rw [hc]
    exact Term.hasSort_rename hg.sort hw.sorted
  · rw [hc] at hw
    obtain ⟨v, hv, rfl⟩ := Term.mem_occurrences_rename.mp hw
    by_cases hvv : v ∈ vars
    · exact .inl (hg.mem_moved hvv)
    · rcases hfit v hv hvv with ho | ⟨hgv, -⟩
      · exact .inr (hu _ (hg.mem_others ho))
      · rw [hgv]
        exact .inr ((hocc v hv).resolve_left hvv)
  · rw [← hg.arguments] at h'
    exact admits_rename hg.sort
      (fun v hv w hw => hg.inj v w (fits v hv) (fits w hw)) h h' hc

end UnitClause

end HornSaturation
