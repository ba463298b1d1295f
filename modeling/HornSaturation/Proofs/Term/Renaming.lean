import HornSaturation.Proofs.Term.Valuation

/-!
# Renaming of locals

Some variables of a formula are given from outside, all others are its locals. Formulas are
equivalent up to the names of locals if a one-to-one renaming of the locals that keeps sorts makes
one into the other. Such a renaming can be undone and followed by another one, and what a formula
says of the given variables does not depend on it.
-/

namespace HornSaturation.Term

variable {t t' t'' : Term} {g g' : Var → Var} {vars : List Var}

/-- Replacements that agree on the variables of a term make the same of it. -/
theorem bind_congr {f f' : Var → Term} (h : ∀ v ∈ t.occurrences, f v = f' v) :
    t.bind f = t.bind f' := by
  induction t using structural with
  | bool b => rfl
  | int n => rfl
  | var v => exact h v (by simp)
  | op o args ih =>
    rw [occurrences_op] at h
    rw [bind, bind, bindList_eq, bindList_eq, List.map_congr_left fun t ht =>
      ih t ht fun v hv => h v (List.mem_flatMap.mpr ⟨t, ht, hv⟩)]
  | app name r args ih =>
    rw [occurrences_app] at h
    rw [bind, bind, bindList_eq, bindList_eq, List.map_congr_left fun t ht =>
      ih t ht fun v hv => h v (List.mem_flatMap.mpr ⟨t, ht, hv⟩)]

/-- Two replacements one after the other are one. -/
theorem bind_bind {f f' : Var → Term} : (t.bind f).bind f' = t.bind fun v => (f v).bind f' := by
  induction t using structural with
  | bool b => rfl
  | int n => rfl
  | var v => rfl
  | op o args ih | app name r args ih =>
    simp only [bind, bindList_eq, List.map_map]
    exact congrArg _ (List.map_congr_left ih)

theorem rename_congr (h : ∀ v ∈ t.occurrences, g v = g' v) : t.rename g = t.rename g' :=
  bind_congr fun v hv => congrArg Term.var (h v hv)

theorem rename_eq_self (h : ∀ v ∈ t.occurrences, g v = v) : t.rename g = t :=
  (bind_congr fun v hv => congrArg Term.var (h v hv)).trans (bind_var t)

theorem rename_rename : (t.rename g).rename g' = t.rename fun v => g' (g v) := bind_bind

theorem occurrences_rename : (t.rename g).occurrences = t.occurrences.map g := by
  induction t using structural with
  | bool b => rfl
  | int n => rfl
  | var v => rfl
  | op o args ih | app name r args ih =>
    simp only [rename, bind, bindList_eq, occurrences_op, occurrences_app, List.flatMap_map,
      List.map_flatMap]
    exact List.flatMap_congr ih

/-- The variables of a term besides given ones, each listed at its first occurrence. -/
def locals (vars : List Var) (t : Term) : List Var := t.vars.filter fun v => !vars.contains v

theorem mem_locals {v : Var} : v ∈ t.locals vars ↔ v ∈ t.occurrences ∧ v ∉ vars := by
  simp [locals]

theorem nodup_locals : (t.locals vars).Nodup := (List.nodup_eraseDups _).filter _

/-- A renaming of the locals of a term to locals, one to one and of the same sorts. -/
structure RenamesLocals (vars : List Var) (t : Term) (g : Var → Var) : Prop where
  sort : ∀ v, (g v).sort = v.sort
  given : ∀ v ∈ vars, g v = v
  others : ∀ v ∈ t.occurrences, v ∉ vars → g v ∉ vars
  inj : ∀ v ∈ t.locals vars, ∀ w ∈ t.locals vars, g v = g w → v = w

/-- A term is made of another one by a renaming of locals. -/
def AlphaEquivalent (vars : List Var) (t t' : Term) : Prop :=
  ∃ g, t.RenamesLocals vars g ∧ t' = t.rename g

namespace RenamesLocals

/-- A renaming of locals keeps apart all variables of the term and all given ones. -/
theorem injOn (h : t.RenamesLocals vars g) :
    ∀ v ∈ vars ++ t.occurrences, ∀ w ∈ vars ++ t.occurrences, g v = g w → v = w := by
  intro v hv w hw heq
  by_cases hvv : v ∈ vars <;> by_cases hwv : w ∈ vars
  · rwa [h.given v hvv, h.given w hwv] at heq
  · have hwo := (List.mem_append.mp hw).resolve_left hwv
    exact absurd (heq ▸ (h.given v hvv).symm ▸ hvv) (h.others w hwo hwv)
  · have hvo := (List.mem_append.mp hv).resolve_left hvv
    exact absurd (heq ▸ (h.given w hwv).symm ▸ hwv) (h.others v hvo hvv)
  · exact h.inj v (mem_locals.mpr ⟨(List.mem_append.mp hv).resolve_left hvv, hvv⟩)
      w (mem_locals.mpr ⟨(List.mem_append.mp hw).resolve_left hwv, hwv⟩) heq

/-- A variable is given exactly if what it is renamed to is. -/
theorem mem_iff (h : t.RenamesLocals vars g) {v : Var} (hv : v ∈ t.occurrences) :
    g v ∈ vars ↔ v ∈ vars :=
  ⟨fun hg => Classical.byContradiction fun hnot => h.others v hv hnot hg,
    fun hvv => (h.given v hvv).symm ▸ hvv⟩

/-- The locals keep the order of their first occurrences. -/
theorem locals_rename (h : t.RenamesLocals vars g) :
    (t.rename g).locals vars = (t.locals vars).map g := by
  have hvars : (t.rename g).vars = t.vars.map g := by
    rw [Term.vars, occurrences_rename]
    exact List.eraseDups_map fun v hv w hw =>
      h.injOn v (List.mem_append_right _ hv) w (List.mem_append_right _ hw)
  rw [locals, hvars, List.filter_map, locals]
  refine congrArg (List.map g) (List.filter_congr fun v hv => ?_)
  rw [Bool.eq_iff_iff]
  simp [h.mem_iff (mem_vars.mp hv)]

end RenamesLocals

namespace AlphaEquivalent

theorem refl (vars : List Var) (t : Term) : t.AlphaEquivalent vars t :=
  ⟨id, ⟨fun _ => rfl, fun _ _ => rfl, fun _ _ h => h, fun _ _ _ _ h => h⟩,
    (rename_eq_self fun _ _ => rfl).symm⟩

theorem symm (h : t.AlphaEquivalent vars t') : t'.AlphaEquivalent vars t := by
  obtain ⟨g, hg, rfl⟩ := h
  set back := Substitution.rename ((t.locals vars).map g) (t.locals vars) with hback
  have hsources : ((t.locals vars).map g).Nodup := nodup_locals.map_on hg.inj
  have hgiven : ∀ v ∈ vars, back v = v := fun v hv => by
    refine Substitution.rename_of_notMem fun hmem => ?_
    obtain ⟨w, hw, rfl⟩ := List.mem_map.mp hmem
    exact hg.others w (mem_locals.mp hw).1 (mem_locals.mp hw).2 hv
  have hundo : ∀ v ∈ t.occurrences, back (g v) = v := fun v hv => by
    by_cases hvv : v ∈ vars
    · rw [hg.given v hvv, hgiven v hvv]
    · have hmap : ((t.locals vars).map g).map back = t.locals vars :=
        Substitution.map_rename hsources (by simp)
      rw [List.map_map] at hmap
      exact List.map_inj_left.mp (hmap.trans (List.map_id _).symm) v (mem_locals.mpr ⟨hv, hvv⟩)
  refine ⟨back, ⟨Substitution.rename_sort ?_, hgiven, fun w hw hwv => ?_, ?_⟩, ?_⟩
  · rw [List.map_map]
    exact List.map_congr_left fun v _ => (hg.sort v).symm
  · obtain ⟨v, hv, rfl⟩ := mem_occurrences_rename.mp hw
    rw [hundo v hv]
    exact fun hvv => hwv ((hg.mem_iff hv).mpr hvv)
  · rw [hg.locals_rename]
    refine List.forall_mem_map.mpr fun v hv => List.forall_mem_map.mpr fun w hw heq => ?_
    rw [hundo v (mem_locals.mp hv).1, hundo w (mem_locals.mp hw).1] at heq
    exact congrArg g heq
  · rw [rename_rename, rename_eq_self hundo]

theorem trans (h : t.AlphaEquivalent vars t') (h' : t'.AlphaEquivalent vars t'') :
    t.AlphaEquivalent vars t'' := by
  obtain ⟨g, hg, rfl⟩ := h
  obtain ⟨g', hg', rfl⟩ := h'
  have hocc {v : Var} (hv : v ∈ t.occurrences) : g v ∈ (t.rename g).occurrences :=
    mem_occurrences_rename.mpr ⟨v, hv, rfl⟩
  have hinj := hg'.inj
  rw [hg.locals_rename] at hinj
  refine ⟨fun v => g' (g v), ⟨fun v => (hg'.sort _).trans (hg.sort v), fun v hv => ?_,
    fun v hv hvv => ?_, fun v hv w hw heq => ?_⟩, rename_rename⟩
  · rw [hg.given v hv, hg'.given v hv]
  · exact hg'.others _ (hocc hv) (hg.others v hv hvv)
  · exact hg.inj v hv w hw
      (hinj _ (List.mem_map_of_mem hv) _ (List.mem_map_of_mem hw) heq)

/-- What a formula says of the given variables does not depend on the names of its locals. -/
theorem exists_holds_iff {z : ZeroDivision} (h : t.AlphaEquivalent vars t') {xs : List Value} :
    (∃ ρ : Valuation, vars.map ρ.value = xs ∧ t'.Holds z ρ) ↔
      ∃ ρ : Valuation, vars.map ρ.value = xs ∧ t.Holds z ρ := by
  obtain ⟨g, hg, rfl⟩ := h
  have hvars : vars.map g = vars := (List.map_congr_left hg.given).trans (List.map_id _)
  have hrename : (∃ ρ : Valuation, (vars.map g).map ρ.value = xs ∧ (t.rename g).Holds z ρ) ↔
      ∃ ρ : Valuation, vars.map ρ.value = xs ∧ t.Holds z ρ :=
    exists_holds_rename hg.sort hg.injOn
  rwa [hvars] at hrename

/-- Formulas stay equivalent when their given variables are replaced by other ones, if none of their
locals is among these. -/
theorem move {h : Var → Var} {moved : List Var} (heq : t.AlphaEquivalent vars t')
    (hgiven : ∀ v ∈ vars, h v ∈ moved)
    (hlocal : ∀ v ∈ t.locals vars ++ t'.locals vars, h v = v ∧ v ∉ moved) :
    (t.rename h).AlphaEquivalent moved (t'.rename h) := by
  obtain ⟨g, hg, rfl⟩ := heq
  rw [hg.locals_rename] at hlocal
  have hold : ∀ v ∈ t.occurrences, v ∉ vars → h v = v ∧ v ∉ moved := fun v hv hvv =>
    hlocal v (List.mem_append_left _ (mem_locals.mpr ⟨hv, hvv⟩))
  have hnew : ∀ v ∈ t.occurrences, v ∉ vars → h (g v) = g v ∧ g v ∉ moved := fun v hv hvv =>
    hlocal _ (List.mem_append_right _ (List.mem_map_of_mem (mem_locals.mpr ⟨hv, hvv⟩)))
  -- A local of the moved formula is a local of the formula itself.
  have hback {w : Var} (hw : w ∈ (t.rename h).occurrences) (hwm : w ∉ moved) :
      w ∈ t.occurrences ∧ w ∉ vars := by
    obtain ⟨v, hv, rfl⟩ := mem_occurrences_rename.mp hw
    have hvv : v ∉ vars := fun hvv => hwm (hgiven v hvv)
    rw [(hold v hv hvv).1]
    exact ⟨hv, hvv⟩
  refine ⟨fun v => if v ∈ moved then v else g v, ⟨fun v => ?_, fun v hv => if_pos hv,
    fun w hw hwm => ?_, fun v hv w hw heq => ?_⟩, ?_⟩
  · split
    · rfl
    · exact hg.sort v
  · obtain ⟨hwo, hwv⟩ := hback hw hwm
    rw [if_neg hwm]
    exact (hnew w hwo hwv).2
  · obtain ⟨hvo, hvm⟩ := mem_locals.mp hv
    obtain ⟨hwo, hwm⟩ := mem_locals.mp hw
    rw [if_neg hvm, if_neg hwm] at heq
    exact hg.inj v (mem_locals.mpr (hback hvo hvm)) w (mem_locals.mpr (hback hwo hwm)) heq
  · rw [rename_rename, rename_rename]
    refine rename_congr fun v hv => ?_
    by_cases hvv : v ∈ vars
    · rw [hg.given v hvv, if_pos (hgiven v hvv)]
    · rw [(hold v hv hvv).1, (hnew v hv hvv).1, if_neg (hold v hv hvv).2]

end AlphaEquivalent

end HornSaturation.Term
