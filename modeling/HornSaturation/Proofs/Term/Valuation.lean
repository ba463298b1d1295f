import HornSaturation.Proofs.Term.Substitution

/-!
# Valuations under substitution

A valuation composed with a replacement gives each variable the value of its image, and a term has
under it the value that it has after the replacement. Conversely, values for the images of some
variables under an injective renaming can be chosen freely, beside any values for the others.
-/

namespace HornSaturation

namespace Valuation

variable {z : ZeroDivision}

/-- The valuation that gives each variable the value of what replaces it. -/
noncomputable def via (z : ZeroDivision) (ρ : Valuation) (f : Var → Term)
    (hf : ∀ v, (f v).hasSort v.sort = true) : Valuation where
  value v := (Term.exists_value z ρ (hf v)).choose
  sorted v := (Term.exists_value z ρ (hf v)).choose_spec.2

theorem meaning_image (ρ : Valuation) {f : Var → Term} (hf : ∀ v, (f v).hasSort v.sort = true)
    (v : Var) : (f v).meaning z ρ = some ((ρ.via z f hf).value v) :=
  (Term.exists_value z ρ (hf v)).choose_spec.1

theorem meaning_of_image (ρ : Valuation) {f : Var → Term}
    (hf : ∀ v, (f v).hasSort v.sort = true) {v : Var} {t : Term} (h : f v = t) :
    t.meaning z ρ = some ((ρ.via z f hf).value v) := h ▸ ρ.meaning_image hf v

/-- The valuation that gives each variable the value of the variable that it is renamed to. -/
def pull (ρ : Valuation) (g : Var → Var) (hg : ∀ v, (g v).sort = v.sort) : Valuation where
  value v := ρ.value (g v)
  sorted v := (ρ.sorted (g v)).trans (hg v)

/-- Two valuations agree on all variables but those of a list. -/
def AgreeOff (vs : List Var) (ρ ρ' : Valuation) : Prop := ∀ v, v ∉ vs → ρ'.value v = ρ.value v

theorem AgreeOff.refl (vs : List Var) (ρ : Valuation) : AgreeOff vs ρ ρ := fun _ _ => rfl

/-- Values for renamed variables can be prescribed, as long as the renaming keeps these variables
apart; all other variables keep the values of a given valuation. -/
theorem exists_glue (base ρ : Valuation) {S : List Var} {g : Var → Var}
    (hg : ∀ v ∈ S, (g v).sort = v.sort) (hinj : ∀ v ∈ S, ∀ w ∈ S, g v = g w → v = w) :
    ∃ ρ' : Valuation, (∀ v ∈ S, ρ'.value (g v) = ρ.value v) ∧
      ∀ w, (∀ v ∈ S, g v ≠ w) → ρ'.value w = base.value w := by
  classical
  refine ⟨⟨fun w => if h : ∃ v ∈ S, g v = w then ρ.value h.choose else base.value w, ?_⟩, ?_, ?_⟩
  · intro w
    split
    · next h =>
      obtain ⟨hv, hw⟩ := h.choose_spec
      rw [ρ.sorted, ← hg _ hv, hw]
    · exact base.sorted w
  · intro v hv
    have h : ∃ u ∈ S, g u = g v := ⟨v, hv, rfl⟩
    obtain ⟨hu, huv⟩ := h.choose_spec
    exact (dif_pos h).trans (by rw [hinj _ hu _ hv huv])
  · intro w hw
    exact dif_neg fun ⟨v, hv, hvw⟩ => hw v hv hvw

end Valuation

namespace Term

variable {z : ZeroDivision} {ρ : Valuation}

/-- Replacing variables is composing the valuation with the replacement. -/
theorem meaning_bind {f : Var → Term} (hf : ∀ v, (f v).hasSort v.sort = true) (t : Term) :
    (t.bind f).meaning z ρ = t.meaning z (ρ.via z f hf) := by
  rw [meaning, evalWith_bind, meaning]
  exact evalWith_congr fun v _ => ρ.meaning_image hf v

theorem holds_bind {f : Var → Term} (hf : ∀ v, (f v).hasSort v.sort = true) {t : Term} :
    (t.bind f).Holds z ρ ↔ t.Holds z (ρ.via z f hf) := by
  rw [Holds, meaning_bind hf, Holds]

/-- Replacing variables by terms of their sorts keeps sorts. -/
theorem hasSort_bind {f : Var → Term} (hf : ∀ v, (f v).hasSort v.sort = true) {t : Term}
    {s : BaseSort} (h : t.hasSort s = true) : (t.bind f).hasSort s = true := by
  induction t using structural generalizing s with
  | bool b => exact h
  | int n => exact h
  | var v => exact hasSort_var.mp h ▸ hf v
  | app name r args ih => cases h
  | op o args ih =>
    obtain ⟨sorts, hs, ha⟩ := hasSort_op_iff.mp h
    rw [bind, bindList_eq, hasSort_op_iff]
    refine ⟨sorts, by rwa [List.length_map], ?_⟩
    rw [haveSorts_iff, List.forall₂_map_left_iff]
    exact (haveSorts_iff.mp ha).imp_mem fun t ht s _ hts => ih t ht hts

section Renaming

variable {g : Var → Var} {t : Term}

/-- The term with every variable renamed. -/
def rename (g : Var → Var) (t : Term) : Term := t.bind fun v => .var (g v)

theorem mem_occurrences_rename {w : Var} :
    w ∈ (t.rename g).occurrences ↔ ∃ v ∈ t.occurrences, w = g v := by
  simp [rename, mem_occurrences_bind]

theorem hasSort_rename (hg : ∀ v, (g v).sort = v.sort) {s : BaseSort} (h : t.hasSort s = true) :
    (t.rename g).hasSort s = true :=
  hasSort_bind (fun v => by simp [hg v]) h

theorem holds_rename (hg : ∀ v, (g v).sort = v.sort) :
    (t.rename g).Holds z ρ ↔ t.Holds z (ρ.pull g hg) := by
  rw [Holds, meaning, rename, evalWith_bind]
  rfl

/-- A renaming that keeps apart the variables of a formula and some further variables loses nothing
that is said existentially: the renamed formula is true for some values of the renamed variables
exactly if the formula is for these values of the variables. -/
theorem exists_holds_rename (hg : ∀ v, (g v).sort = v.sort) {vars : List Var}
    (hinj : ∀ v ∈ vars ++ t.occurrences, ∀ w ∈ vars ++ t.occurrences, g v = g w → v = w)
    {xs : List Value} :
    (∃ ρ : Valuation, (vars.map g).map ρ.value = xs ∧ (t.rename g).Holds z ρ) ↔
      ∃ ρ : Valuation, vars.map ρ.value = xs ∧ t.Holds z ρ := by
  constructor
  · rintro ⟨ρ, rfl, hρ⟩
    exact ⟨ρ.pull g hg, by rw [List.map_map]; rfl, (holds_rename hg).mp hρ⟩
  · rintro ⟨ρ, rfl, hρ⟩
    obtain ⟨ρ', hρ', -⟩ := Valuation.exists_glue ρ ρ (fun v _ => hg v) hinj
    refine ⟨ρ', ?_, (holds_rename hg).mpr ?_⟩
    · rw [List.map_map]
      exact List.map_congr_left fun v hv => hρ' v (List.mem_append_left _ hv)
    · exact (holds_congr fun v hv => hρ' v (List.mem_append_right _ hv)).mpr hρ

theorem substitute_ofVars (sources targets : List Var) (t : Term) :
    t.substitute (.ofVars sources targets) = t.rename (Substitution.rename sources targets) := by
  rw [substitute_eq_bind, rename]
  exact congrArg t.bind (funext Substitution.image_ofVars)

end Renaming

section Existential

variable {t : Term} {vs ws : List Var}

/-- A formula is true for some values of the variables of a list. -/
def HoldsFor (z : ZeroDivision) (vs : List Var) (ρ : Valuation) (t : Term) : Prop :=
  ∃ ρ', Valuation.AgreeOff vs ρ ρ' ∧ Holds z ρ' t

/-- Formulas are true together for some values of the variables of a list. -/
def AllHoldFor (z : ZeroDivision) (vs : List Var) (ρ : Valuation) (ts : List Term) : Prop :=
  ∃ ρ', Valuation.AgreeOff vs ρ ρ' ∧ ∀ t ∈ ts, Holds z ρ' t

theorem holdsFor_nil : HoldsFor z [] ρ t ↔ Holds z ρ t :=
  ⟨fun ⟨_, hoff, h⟩ => (holds_congr fun v _ => hoff v List.not_mem_nil).mp h,
    fun h => ⟨ρ, .refl [] ρ, h⟩⟩

/-- One more formula can be true together with others if these can be for all values of its own
variables and it has none of theirs. -/
theorem AllHoldFor.cons {ts : List Term} (ht : HoldsFor z vs ρ t)
    (hclear : ∀ v ∈ t.occurrences, v ∉ ws)
    (hts : ∀ ρ', Valuation.AgreeOff vs ρ ρ' → AllHoldFor z ws ρ' ts) :
    AllHoldFor z (vs ++ ws) ρ (t :: ts) := by
  obtain ⟨ρ₁, hoff₁, hρ₁⟩ := ht
  obtain ⟨ρ₂, hoff₂, hρ₂⟩ := hts ρ₁ hoff₁
  refine ⟨ρ₂, fun v hv => ?_, List.forall_mem_cons.mpr ⟨?_, hρ₂⟩⟩
  · rw [List.mem_append, not_or] at hv
    rw [hoff₂ v hv.2, hoff₁ v hv.1]
  · exact (holds_congr fun v hv => (hoff₂ v (hclear v hv)).symm).mp hρ₁

/-- A formula that is true for some values of its locals beside given values of its other variables
is so after a renaming that keeps the locals apart and takes none for another variable. -/
theorem holdsFor_rename {g : Var → Var} {vars locals : List Var}
    (hg : ∀ v, (g v).sort = v.sort) (hocc : ∀ v ∈ t.occurrences, v ∈ vars ∨ v ∈ locals)
    (hinj : ∀ v ∈ locals, ∀ w ∈ locals, g v = g w → v = w)
    (hclear : ∀ v ∈ vars, g v ∉ locals.map g) {ρ₀ : Valuation}
    (hvalues : vars.map ρ₀.value = (vars.map g).map ρ.value) (h : Holds z ρ₀ t) :
    HoldsFor z (locals.map g) ρ (t.rename g) := by
  obtain ⟨ρ', hin, hout⟩ := Valuation.exists_glue ρ ρ₀ (fun v _ => hg v) hinj
  have hoff : Valuation.AgreeOff (locals.map g) ρ ρ' := fun w hw =>
    hout w fun v hv hvw => hw (hvw ▸ List.mem_map_of_mem hv)
  refine ⟨ρ', hoff, (holds_rename hg).mpr ((holds_congr fun v hv => ?_).mp h)⟩
  rcases hocc v hv with hvv | hvl
  · rw [List.map_map] at hvalues
    exact (List.map_inj_left.mp hvalues v hvv).trans (hoff _ (hclear v hvv)).symm
  · exact (hin v hvl).symm

end Existential

end Term

end HornSaturation
