import HornSaturation.Inference.Resolution
import HornSaturation.Proofs.Data.Ensures
import HornSaturation.Proofs.Data.Lists
import HornSaturation.Proofs.Inference.Projection
import HornSaturation.Proofs.Unit.Arguments

/-!
# Instances of units

An instance of a unit speaks about the argument symbols of a place of use and about fresh symbols in
the place of its locals. It is true for some values of the fresh symbols exactly if the unit admits
the values of these arguments. Instances at several places can be true together because the symbols
taken for one are new to the others.
-/

namespace HornSaturation

/-- Symbols that have been taken while the count went from one number to another. -/
structure Taken (lo hi : Nat) (vs : List Var) : Prop where
  le : lo ≤ hi
  names : (vs.map Var.name).Nodup
  numbers : ∀ v ∈ vs, ∃ n s, lo ≤ n ∧ n < hi ∧ v = localSymbol n s

namespace Taken

variable {lo mid hi : Nat} {vs ws : List Var}

theorem nil (n : Nat) : Taken n n [] := ⟨Nat.le_refl n, .nil, by simp⟩

theorem nodup (h : Taken lo hi vs) : vs.Nodup := h.names.of_map _

theorem not_isMarked (h : Taken lo hi vs) {v : Var} (hv : v ∈ vs) : ¬ v.IsMarked := by
  obtain ⟨n, s, -, -, rfl⟩ := h.numbers v hv
  exact localSymbol_not_isMarked n s

/-- Symbols of one name that have been taken are one symbol. -/
theorem eq_of_name (h : Taken lo hi vs) {v w : Var} (hv : v ∈ vs) (hw : w ∈ vs)
    (hname : v.name = w.name) : v = w :=
  List.inj_on_of_nodup_map h.names hv hw hname

/-- Symbols that have been taken after some point have been taken after an earlier one. -/
theorem of_le (h : Taken mid hi vs) (hle : lo ≤ mid) : Taken lo hi vs := by
  refine ⟨Nat.le_trans hle h.le, h.names, fun v hv => ?_⟩
  obtain ⟨n, s, hn, hhi, rfl⟩ := h.numbers v hv
  exact ⟨n, s, Nat.le_trans hle hn, hhi, rfl⟩

/-- Symbols taken one after the other have different names. -/
theorem name_ne (h : Taken lo mid vs) (h' : Taken mid hi ws) {v w : Var} (hv : v ∈ vs)
    (hw : w ∈ ws) : v.name ≠ w.name := by
  obtain ⟨m, s, -, hm, rfl⟩ := h.numbers v hv
  obtain ⟨n, s', hn, -, rfl⟩ := h'.numbers w hw
  intro hname
  have hmn := localSymbol_name_inj hname
  omega

theorem append (h : Taken lo mid vs) (h' : Taken mid hi ws) : Taken lo hi (vs ++ ws) := by
  refine ⟨Nat.le_trans h.le h'.le, ?_, fun v hv => ?_⟩
  · rw [List.map_append, List.nodup_append']
    refine ⟨h.names, h'.names, fun name hv hw => ?_⟩
    obtain ⟨v, hvv, rfl⟩ := List.mem_map.mp hv
    obtain ⟨w, hww, hname⟩ := List.mem_map.mp hw
    exact h.name_ne h' hvv hww hname.symm
  · rcases List.mem_append.mp hv with hv | hv
    · obtain ⟨n, s, hlo, hn, rfl⟩ := h.numbers v hv
      exact ⟨n, s, hlo, Nat.lt_of_lt_of_le hn h'.le, rfl⟩
    · obtain ⟨n, s, hn, hhi, rfl⟩ := h'.numbers v hv
      exact ⟨n, s, Nat.le_trans h.le hn, hhi, rfl⟩

end Taken

/-- Taking a symbol for each variable of a list gives new symbols of the same sorts. -/
theorem ensures_freshLocals (vs : List Var) (s : Symbols) :
    Ensures (freshLocals vs) s
      (fun ws s' => Taken s.allocated s'.allocated ws ∧ ws.map Var.sort = vs.map Var.sort)
      fun _ _ => False := by
  induction vs generalizing s with
  | nil => exact ⟨.nil _, rfl⟩
  | cons v vs ih =>
    simp only [freshLocals, ensures_bind, ensures_modifyGet, ensures_pure]
    refine (ih _).mono ?_ fun _ _ => id
    rintro ws s' ⟨htaken, hsort⟩
    have hone : Taken s.allocated (s.allocated + 1) [(s.fresh "l" v.sort).1] :=
      ⟨Nat.le_succ _, List.nodup_singleton _, List.forall_mem_singleton.mpr
        ⟨s.allocated, v.sort, Nat.le_refl _, Nat.lt_succ_self _, rfl⟩⟩
    refine ⟨hone.append htaken, ?_⟩
    rw [List.map_cons, List.map_cons, hsort]
    rfl

namespace UnitClause

variable {relations : List Relation} {u : UnitClause}

/-- A formula that is an instance of a unit: it speaks about arguments and about fresh symbols, and
it is true for some values of the fresh symbols exactly if the unit admits the arguments. -/
structure IsInstance (relations : List Relation) (u : UnitClause) (arguments fresh : List Var)
    (t : Term) : Prop where
  sorted : t.hasSort .bool = true
  occurrences : ∀ v ∈ t.occurrences, v ∈ arguments ∨ v ∈ fresh
  sound : ∀ z ρ, t.Holds z ρ → u.Admits z relations (arguments.map ρ.value)
  complete : ∀ z ρ, u.Admits z relations (arguments.map ρ.value) → t.HoldsFor z fresh ρ

/-- Moving the arguments of a unit and renaming its locals to fresh symbols gives an instance. -/
theorem isInstance_rename {vars moved locals fresh : List Var} {g : Var → Var}
    (hsort : u.constraint.hasSort .bool = true) (h : u.arguments relations = .ok vars)
    (hl : u.locals relations = .ok locals) (hg : Moves vars moved locals fresh g)
    (hmoved : ∀ v ∈ moved, v.IsMarked) (hu : ∀ v ∈ fresh, ¬ v.IsMarked) :
    u.IsInstance relations moved fresh (u.constraint.rename g) := by
  have hcases : ∀ v ∈ u.constraint.occurrences, v ∈ vars ∨ v ∈ locals := fun v hv => by
    by_cases hvv : v ∈ vars
    · exact .inl hvv
    · exact .inr ((mem_locals h hl).mpr ⟨hv, hvv⟩)
  refine ⟨Term.hasSort_rename hg.sort hsort, fun w hw => ?_, fun z ρ hρ => ?_,
    fun z ρ hρ => ?_⟩
  · obtain ⟨v, hv, rfl⟩ := Term.mem_occurrences_rename.mp hw
    exact (hcases v hv).imp hg.mem_moved hg.mem_others
  · refine (admits_iff h).mpr ⟨ρ.pull g hg.sort, ?_, (Term.holds_rename hg.sort).mp hρ⟩
    have hmap := congrArg (List.map ρ.value) hg.arguments
    rwa [List.map_map] at hmap
  · obtain ⟨ρ₀, hvalues, hρ₀⟩ := (admits_iff h).mp hρ
    rw [← hg.arguments] at hvalues
    rw [← hg.others]
    refine Term.holdsFor_rename hg.sort hcases
      (fun v hv w hw => hg.inj v w (.inr (.inl hv)) (.inr (.inl hw))) (fun v hv => ?_) hvalues hρ₀
    rw [hg.others]
    exact fun hv' => hu _ hv' (hmoved _ (hg.mem_moved hv))

/-- Instantiating a unit gives an instance of it, with fresh symbols. The locals are all renamed at
once, so they may have any names. -/
theorem ensures_instantiate {vars : List Var} (hvars : u.arguments relations = .ok vars)
    (hsort : u.constraint.hasSort .bool = true) (occurrence : Nat) (s : Symbols) :
    Ensures (u.instantiate relations occurrence) s
      (fun t s' => ∃ moved fresh,
        ({ u with occurrence } : UnitClause).arguments relations = .ok moved ∧
        Taken s.allocated s'.allocated fresh ∧ u.IsInstance relations moved fresh t)
      fun _ _ => False := by
  obtain ⟨move, hmove⟩ := exists_moveArguments hvars occurrence
  obtain ⟨locals, hlocals⟩ := locals_eq_ok hvars
  simp only [instantiate, hmove, hlocals, ensures_bind, ensures_ok, ensures_pure]
  refine (ensures_freshLocals locals s).mono ?_ fun _ _ => id
  rintro fresh s' ⟨htaken, hfresh⟩
  obtain ⟨sources, targets, moved, rfl, hm, hst⟩ := moveArguments_spec hvars hmove
  refine ⟨moved, fresh, hm, htaken, ?_⟩
  have hlen : sources.length = targets.length := by
    rcases hst with ⟨rfl, rfl⟩ | ⟨rfl, rfl, -⟩
    · simpa using (congrArg List.length (arguments_sort hvars hm)).symm
    · rfl
  rw [Substitution.ofVars_append hlen, Term.substitute_ofVars]
  have hunmarked : ∀ v ∈ fresh, ¬ v.IsMarked := fun v hv => htaken.not_isMarked hv
  exact isInstance_rename hsort hvars hlocals
    (moves_rename hvars hm hst (locals_nodup hlocals)
      (fun v hv => ((mem_locals hvars hlocals).mp hv).2) htaken.nodup hunmarked hfresh)
    (fun v hv => arguments_isMarked hm hv) hunmarked

end UnitClause

end HornSaturation
