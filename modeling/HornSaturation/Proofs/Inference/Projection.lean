import HornSaturation.Inference.Projection
import HornSaturation.Proofs.Term.Folding
import HornSaturation.Proofs.Term.Valuation

/-!
# Projection is exact

Eliminating symbols from a formula neither adds nor loses solutions: under any values of the other
variables, the result is true for some values of the symbols exactly if the formula is. One
elimination is exact because a conjunct that defines a symbol can always be met by giving the symbol
the value of its definition.
-/

namespace HornSaturation

namespace Term

variable {z : ZeroDivision} {ρ : Valuation} {v : Var} {t : Term}

/-- A conjunct is a definition of a symbol by a term: the symbol alone, its negation, or an equation
between the symbol and a term without it. -/
inductive IsDefinition (v : Var) : Term → Term → Prop where
  | alone : IsDefinition v (.var v) (.bool true)
  | negated : IsDefinition v (.op .not [.var v]) (.bool false)
  | left {o : Op} {t : Term} (ho : o = .eq ∨ o = .iff) (ht : v ∉ t.occurrences) :
      IsDefinition v (.op o [.var v, t]) t
  | right {o : Op} {t : Term} (ho : o = .eq ∨ o = .iff) (ht : v ∉ t.occurrences) :
      IsDefinition v (.op o [t, .var v]) t

/-- What is found as the definition of a symbol is one. -/
theorem isDefinition_of_definition? {c : Term} (h : definition? v c = some t) :
    IsDefinition v c t := by
  -- The two operators of equations are read in the same way.
  have equation {o : Op} (ho : o = .eq ∨ o = .iff) {a b : Term}
      (h : (if a = .var v ∧ !b.containsVar v then some b
        else if b = .var v ∧ !a.containsVar v then some a else none) = some t) :
      IsDefinition v (.op o [a, b]) t := by
    have notMem {u : Term} (hu : (!u.containsVar v) = true) : v ∉ u.occurrences := fun hv => by
      simp [containsVar_iff.mpr hv] at hu
    split at h
    · next hab =>
      obtain rfl := Option.some.inj h
      exact hab.1 ▸ .left ho (notMem hab.2)
    · split at h
      · next hab =>
        obtain rfl := Option.some.inj h
        exact hab.1 ▸ .right ho (notMem hab.2)
      · cases h
  unfold definition? at h
  split at h
  · split at h
    · next hw =>
      obtain rfl := Option.some.inj h
      exact hw ▸ .alone
    · cases h
  · split at h
    · next hw =>
      obtain rfl := Option.some.inj h
      exact hw ▸ .negated
    · cases h
  · exact equation (.inl rfl) h
  · exact equation (.inr rfl) h
  · cases h

/-- A conjunct defines a symbol by a term: it says that they have the same value. -/
structure Defines (v : Var) (c t : Term) : Prop where
  sorted : t.hasSort v.sort = true
  notMem : v ∉ t.occurrences
  occurrences : ∀ w ∈ t.occurrences, w ∈ c.occurrences
  holds : ∀ z ρ, Holds z ρ c ↔ t.meaning z ρ = some (ρ.value v)

/-- An equation between a symbol and a term without it defines the symbol. -/
private theorem defines_of_equality {o : Op} (ho : o = .eq ∨ o = .iff) {a b : Term}
    (h : (Term.op o [a, b]).hasSort .bool = true)
    (hab : a = .var v ∧ b = t ∨ b = .var v ∧ a = t) (hv : v ∉ t.occurrences) :
    Defines v (.op o [a, b]) t := by
  have hsort : ∃ s, a.hasSort s = true ∧ b.hasSort s = true := by
    rcases ho with rfl | rfl
    · obtain ⟨-, a', b', s, hargs, ha, hb⟩ := (hasSort_equality (.inl rfl)).mp h
      obtain ⟨rfl, rfl⟩ : a = a' ∧ b = b' := by simpa using hargs
      exact ⟨s, ha, hb⟩
    · obtain ⟨-, a', b', hargs, ha, hb⟩ := (hasSort_connective (.inr rfl)).mp h
      obtain ⟨rfl, rfl⟩ : a = a' ∧ b = b' := by simpa using hargs
      exact ⟨.bool, ha, hb⟩
  have hholds (z : ZeroDivision) (ρ : Valuation) :
      Holds z ρ (.op o [a, b]) ↔ ∃ x, a.meaning z ρ = some x ∧ b.meaning z ρ = some x := by
    rcases ho with rfl | rfl <;> exact holds_equation
  obtain ⟨s, ha, hb⟩ := hsort
  rcases hab with ⟨rfl, rfl⟩ | ⟨rfl, rfl⟩
  · exact ⟨hasSort_var.mp ha ▸ hb, hv, fun w hw => by simp [hw], fun z ρ => by simp [hholds]⟩
  · exact ⟨hasSort_var.mp hb ▸ ha, hv, fun w hw => by simp [hw],
      fun z ρ => by simp [hholds]⟩

/-- What is found as the definition of a symbol defines it. -/
theorem defines_of_definition? {c : Term} (hc : c.hasSort .bool = true)
    (h : definition? v c = some t) : Defines v c t := by
  cases isDefinition_of_definition? h with
  | alone =>
    exact ⟨by simpa using hasSort_var.mp hc, by simp, by simp,
      fun z ρ => by simp [Holds, eq_comm]⟩
  | negated =>
    obtain ⟨-, a, ha, hs⟩ := hasSort_not.mp hc
    obtain rfl : Term.var v = a := List.singleton_inj.mp ha
    refine ⟨by simpa using hasSort_var.mp hs, by simp, by simp, fun z ρ => ?_⟩
    obtain ⟨b, hb⟩ := Value.exists_bool ((ρ.sorted v).trans (hasSort_var.mp hs))
    rw [holds_not hs]
    cases b <;> simp [Holds, hb]
  | left ho ht => exact defines_of_equality ho hc (.inl ⟨rfl, rfl⟩) ht
  | right ho ht => exact defines_of_equality ho hc (.inr ⟨rfl, rfl⟩) ht

/-- The definition that is taken from a list of conjuncts comes from one of them. -/
theorem takeDefinition?_spec {cs rest : List Term} (h : takeDefinition? v cs = some (t, rest)) :
    ∃ c, definition? v c = some t ∧ ∀ d, d ∈ cs ↔ d = c ∨ d ∈ rest := by
  induction cs generalizing rest with
  | nil => cases h
  | cons c cs ih =>
    unfold takeDefinition? at h
    split at h
    · next hc =>
      obtain ⟨rfl, rfl⟩ := Prod.mk.inj (Option.some.inj h)
      exact ⟨c, hc, fun d => List.mem_cons⟩
    · obtain ⟨⟨t', rest'⟩, hrest, heq⟩ := Option.map_eq_some_iff.mp h
      obtain ⟨rfl, rfl⟩ := Prod.mk.inj heq
      obtain ⟨c', hc', hmem⟩ := ih hrest
      refine ⟨c', hc', fun d => ?_⟩
      rw [List.mem_cons, hmem, List.mem_cons, or_left_comm]

/-- A conjunct with a symbol replaced by its definition, as elimination writes it. -/
def inlined (v : Var) (t c : Term) : Term := (c.substitute [(v, t)]).foldConstants

section Inlining

variable {c : Term} (ht : t.hasSort v.sort = true)

private theorem image_inlined (w : Var) :
    (Substitution.image [(v, t)] w) = if w = v then t else .var w := by
  by_cases hw : w = v
  · subst hw
    rw [if_pos rfl]
    exact Substitution.image_of_mem (by simp) (by simp)
  · rw [if_neg hw]
    exact Substitution.image_of_notMem (by simpa using hw)

private theorem image_inlined_sorted (ht : t.hasSort v.sort = true) (w : Var) :
    (Substitution.image [(v, t)] w).hasSort w.sort = true :=
  Substitution.image_sorted (by simpa using ht) w

/-- The valuation that gives a symbol the value of its definition. -/
private noncomputable def updated (z : ZeroDivision) (ρ : Valuation) (v : Var) (t : Term)
    (ht : t.hasSort v.sort = true) : Valuation :=
  ρ.via z (Substitution.image [(v, t)]) (image_inlined_sorted ht)

private theorem meaning_eq_updated : t.meaning z ρ = some ((updated z ρ v t ht).value v) := by
  have himage := ρ.meaning_image (z := z) (image_inlined_sorted ht) v
  rwa [image_inlined, if_pos rfl] at himage

private theorem updated_of_ne {w : Var} (hw : w ≠ v) :
    (updated z ρ v t ht).value w = ρ.value w := by
  have himage := ρ.meaning_image (z := z) (image_inlined_sorted ht) w
  rw [image_inlined, if_neg hw, meaning_var] at himage
  exact (Option.some.inj himage).symm

include ht in
theorem hasSort_inlined (hc : c.hasSort .bool = true) : (inlined v t c).hasSort .bool = true :=
  hasSort_foldConstants (substitute_eq_bind _ c ▸ hasSort_bind (image_inlined_sorted ht) hc)

private theorem holds_inlined (hc : c.hasSort .bool = true) :
    (inlined v t c).Holds z ρ ↔ c.Holds z (updated z ρ v t ht) := by
  have hs := hasSort_bind (image_inlined_sorted ht) hc
  rw [inlined, substitute_eq_bind, (simplifies_foldConstants z hs).holds, holds_bind]
  rfl

theorem mem_occurrences_inlined {w : Var} (hw : w ∈ (inlined v t c).occurrences) :
    w ∈ c.occurrences ∨ w ∈ t.occurrences := by
  rw [inlined, substitute_eq_bind] at hw
  obtain ⟨u, hu, huw⟩ := mem_occurrences_bind.mp (mem_occurrences_foldConstants hw)
  rw [image_inlined] at huw
  split at huw
  · exact .inr huw
  · exact .inl (List.mem_singleton.mp huw ▸ hu)

/-- A symbol that its definition does not use is gone where the definition has taken its place. -/
theorem notMem_occurrences_inlined (hv : v ∉ t.occurrences) :
    v ∉ (inlined v t c).occurrences := by
  intro h
  rw [inlined, substitute_eq_bind] at h
  obtain ⟨u, -, huv⟩ := mem_occurrences_bind.mp (mem_occurrences_foldConstants h)
  rw [image_inlined] at huv
  split at huv
  · exact hv huv
  · next hne => exact hne (List.mem_singleton.mp huv).symm

end Inlining

/-- Replacing a symbol by its definition in all other conjuncts is exact. -/
theorem allHoldFor_inlined {E : List Var} {cs rest : List Term} {c : Term} (hv : v ∈ E)
    (hcs : ∀ d ∈ cs, d.hasSort .bool = true) (hdef : Defines v c t)
    (hmem : ∀ d, d ∈ cs ↔ d = c ∨ d ∈ rest) :
    AllHoldFor z E ρ (rest.map (inlined v t)) ↔ AllHoldFor z E ρ cs := by
  have hrest : ∀ d ∈ rest, d.hasSort .bool = true := fun d hd => hcs d ((hmem d).mpr (.inr hd))
  constructor
  · -- Give the symbol the value of its definition.
    rintro ⟨ρ', hoff, hall⟩
    have hsame : t.meaning z (updated z ρ' v t hdef.sorted) = t.meaning z ρ' :=
      evalWith_congr fun w hw =>
        congrArg some (updated_of_ne hdef.sorted fun hwv => hdef.notMem (hwv ▸ hw))
    refine ⟨updated z ρ' v t hdef.sorted, fun w hw => ?_, fun d hd => ?_⟩
    · rw [updated_of_ne hdef.sorted fun hwv : w = v => hw (hwv ▸ hv)]
      exact hoff w hw
    · rcases (hmem d).mp hd with rfl | hd
      · rw [hdef.holds, hsame, meaning_eq_updated hdef.sorted]
      · exact (holds_inlined hdef.sorted (hrest d hd)).mp (hall _ (List.mem_map_of_mem hd))
  · -- The symbol has the value of its definition already.
    rintro ⟨ρ', hoff, hall⟩
    refine ⟨ρ', hoff, List.forall_mem_map.mpr fun d hd => ?_⟩
    have hvalue := (hdef.holds z ρ').mp (hall c ((hmem c).mpr (.inl rfl)))
    rw [holds_inlined hdef.sorted (hrest d hd)]
    refine (holds_congr fun w _ => ?_).mp (hall d ((hmem d).mpr (.inr hd)))
    by_cases hw : w = v
    · subst hw
      exact Option.some.inj (hvalue.symm.trans (meaning_eq_updated hdef.sorted))
    · exact (updated_of_ne hdef.sorted hw).symm

/-- What elimination makes of conjuncts, in which some symbols may take any values: none if they
cannot be true together, and otherwise conjuncts that are true together whenever the others are. -/
structure Eliminates (z : ZeroDivision) (E : List Var) (cs cs' : List Term) : Prop where
  sorted : ∀ c ∈ cs', c.hasSort .bool = true
  occurrences : ∀ c ∈ cs', ∀ v ∈ c.occurrences, ∃ d ∈ cs, v ∈ d.occurrences
  exact : ∀ ρ, AllHoldFor z E ρ cs' ↔ AllHoldFor z E ρ cs

namespace Eliminates

variable {E : List Var} {cs cs' cs'' : List Term}

theorem refl (h : ∀ c ∈ cs, c.hasSort .bool = true) : Eliminates z E cs cs :=
  ⟨h, fun c hc _ hv => ⟨c, hc, hv⟩, fun _ => .rfl⟩

theorem trans (h : Eliminates z E cs cs') (h' : Eliminates z E cs' cs'') :
    Eliminates z E cs cs'' := by
  refine ⟨h'.sorted, fun c hc v hv => ?_, fun ρ => (h'.exact ρ).trans (h.exact ρ)⟩
  obtain ⟨d, hd, hvd⟩ := h'.occurrences c hc v hv
  exact h.occurrences d hd v hvd

end Eliminates

/-- One elimination. -/
private theorem eliminates_inlined {E : List Var} {cs rest : List Term} (hv : v ∈ E)
    (hcs : ∀ d ∈ cs, d.hasSort .bool = true) (h : takeDefinition? v cs = some (t, rest)) :
    Eliminates z E cs (rest.map (inlined v t)) := by
  obtain ⟨c, hc, hmem⟩ := takeDefinition?_spec h
  have hccs : c ∈ cs := (hmem c).mpr (.inl rfl)
  have hdef := defines_of_definition? (hcs c hccs) hc
  refine ⟨List.forall_mem_map.mpr fun d hd => ?_, List.forall_mem_map.mpr fun d hd w hw => ?_,
    fun ρ => allHoldFor_inlined hv hcs hdef hmem⟩
  · exact hasSort_inlined hdef.sorted (hcs d ((hmem d).mpr (.inr hd)))
  · have hdcs : d ∈ cs := (hmem d).mpr (.inr hd)
    rcases mem_occurrences_inlined hw with hw | hw
    · exact ⟨d, hdcs, hw⟩
    · exact ⟨c, hccs, hdef.occurrences w hw⟩

private theorem not_allHoldFor_of_false {E : List Var} {cs : List Term}
    (h : cs.any isFalse = true) : ¬ AllHoldFor z E ρ cs := by
  rintro ⟨ρ', -, hall⟩
  obtain ⟨c, hc, hf⟩ := List.any_eq_true.mp h
  simpa [eq_of_isFalse hf] using hall c hc

/-- Eliminating symbols one after the other is exact. -/
theorem eliminateEach_spec {E vs : List Var} {cs : List Term} (hvs : ∀ v ∈ vs, v ∈ E)
    (hcs : ∀ c ∈ cs, c.hasSort .bool = true) :
    match eliminateEach cs vs with
    | none => ∀ ρ, ¬ AllHoldFor z E ρ cs
    | some (cs', left) => Eliminates z E cs cs' ∧ ∀ v ∈ left, v ∈ vs := by
  induction vs generalizing cs with
  | nil => exact ⟨.refl hcs, fun _ => id⟩
  | cons v vs ih =>
    have hrest : ∀ w ∈ vs, w ∈ E := fun w hw => hvs w (List.mem_cons_of_mem v hw)
    unfold eliminateEach
    cases htake : takeDefinition? v cs with
    | none =>
      have ih := ih hrest hcs
      cases heach : eliminateEach cs vs with
      | none => simpa [heach] using ih
      | some r =>
        rw [heach] at ih
        exact ⟨ih.1, fun w hw =>
          List.mem_cons.mpr ((List.mem_cons.mp hw).imp_right (ih.2 w))⟩
    | some p =>
      obtain ⟨t, rest⟩ := p
      have hstep := eliminates_inlined (z := z) (hvs v List.mem_cons_self) hcs htake
      have ih := ih hrest hstep.sorted
      change match (if (rest.map (inlined v t)).any isFalse = true then none
        else eliminateEach (rest.map (inlined v t)) vs) with
        | none => ∀ ρ, ¬ AllHoldFor z E ρ cs
        | some (cs', left) => Eliminates z E cs cs' ∧ ∀ w ∈ left, w ∈ v :: vs
      by_cases hfalse : (rest.map (inlined v t)).any isFalse = true
      · rw [if_pos hfalse]
        exact fun ρ => mt (hstep.exact ρ).mpr (not_allHoldFor_of_false hfalse)
      · rw [if_neg hfalse]
        cases heach : eliminateEach (rest.map (inlined v t)) vs with
        | none =>
          rw [heach] at ih
          exact fun ρ => mt (hstep.exact ρ).mpr (ih ρ)
        | some r =>
          rw [heach] at ih
          exact ⟨hstep.trans ih.1, fun w hw => List.mem_cons_of_mem v (ih.2 w hw)⟩

/-- Eliminating symbols in rounds is exact. -/
theorem eliminateWithin_spec (n : Nat) {E vs : List Var} {cs : List Term} (hvs : ∀ v ∈ vs, v ∈ E)
    (hcs : ∀ c ∈ cs, c.hasSort .bool = true) :
    match eliminateWithin n cs vs with
    | none => ∀ ρ, ¬ AllHoldFor z E ρ cs
    | some cs' => Eliminates z E cs cs' := by
  induction n generalizing cs vs with
  | zero => exact .refl hcs
  | succ n ih =>
    have heach := eliminateEach_spec (z := z) hvs hcs
    unfold eliminateWithin
    cases h : eliminateEach cs vs with
    | none =>
      rw [h] at heach
      exact heach
    | some r =>
      obtain ⟨cs', left⟩ := r
      rw [h] at heach
      obtain ⟨hround, hleft⟩ := heach
      have ih := ih (fun v hv => hvs v (hleft v hv)) hround.sorted
      dsimp only
      by_cases hlen : left.length < vs.length
      · rw [if_pos hlen]
        cases hw : eliminateWithin n cs' left with
        | none =>
          rw [hw] at ih
          exact fun ρ => mt (hround.exact ρ).mpr (ih ρ)
        | some cs'' =>
          rw [hw] at ih
          exact hround.trans ih
      · rw [if_neg hlen]
        exact hround

/-- Folding conjuncts and joining them is folding their conjunction. -/
theorem foldConjuncts_spec {cs : List Term} (hcs : ∀ c ∈ cs, c.hasSort .bool = true) :
    (foldConjuncts cs).hasSort .bool = true ∧
      (∀ v ∈ (foldConjuncts cs).occurrences, ∃ c ∈ cs, v ∈ c.occurrences) ∧
      ∀ ρ, Holds z ρ (foldConjuncts cs) ↔ ∀ c ∈ cs, Holds z ρ c := by
  have hfold : ∀ c ∈ cs, Simplifies z .bool c c.foldConstants := fun c hc =>
    simplifies_foldConstants z (hcs c hc)
  have hall (ρ : Valuation) :
      (∀ c ∈ cs.map foldConstants, Holds z ρ c) ↔ ∀ c ∈ cs, Holds z ρ c := by
    rw [List.forall_mem_map]
    exact forall₂_congr fun c hc => (hfold c hc).holds ρ
  unfold foldConjuncts
  dsimp only
  split
  · next hfalse =>
    refine ⟨by simp, by simp, fun ρ => ?_⟩
    rw [← hall]
    refine ⟨fun h => by simp at h, fun h => ?_⟩
    exact absurd ⟨ρ, .refl [] ρ, h⟩ (not_allHoldFor_of_false (z := z) (E := []) (ρ := ρ) hfalse)
  · have hflat : ∀ c ∈ conjunctsList (cs.map foldConstants), ∃ d ∈ cs,
        c ∈ d.foldConstants.conjuncts := fun c hc => by
      rw [conjunctsList_eq] at hc
      simpa using hc
    have hsorted : ∀ c ∈ conjunctsList (cs.map foldConstants), c.hasSort .bool = true :=
      fun c hc => by
        obtain ⟨d, hd, hcd⟩ := hflat c hc
        exact hasSort_of_mem_conjuncts (hfold d hd).sorted hcd
    have hjoin := simplifies_foldConstants z (hasSort_conjoin hsorted)
    refine ⟨hjoin.sorted, fun v hv => ?_, fun ρ => ?_⟩
    · obtain ⟨c, hc, hvc⟩ := mem_occurrences_conjoin (mem_occurrences_foldConstants hv)
      obtain ⟨d, hd, hcd⟩ := hflat c hc
      exact ⟨d, hd, mem_occurrences_foldConstants (mem_occurrences_of_conjunct hcd hvc)⟩
    · rw [hjoin.holds, holds_conjoin, ← hall, conjunctsList_eq]
      simp only [List.forall_mem_flatMap, holds_conjuncts]

theorem mem_sort {symbols : Symbols} {vs : List Var} : v ∈ symbols.sort vs ↔ v ∈ vs :=
  (List.mergeSort_perm vs _).mem_iff

/-- What a simplifier promises: the result is a formula without further variables, true for some
values of the eliminated symbols exactly where the given formula is. -/
structure Projects (z : ZeroDivision) (E : List Var) (t t' : Term) : Prop where
  sorted : t'.hasSort .bool = true
  occurrences : ∀ v ∈ t'.occurrences, v ∈ t.occurrences
  exact : ∀ ρ, HoldsFor z E ρ t' ↔ HoldsFor z E ρ t

/-- Projection is exact. -/
theorem projects_project (z : ZeroDivision) (symbols : Symbols) {t : Term}
    (ht : t.hasSort .bool = true) (E : List Var) (foldFirst : Bool) :
    Projects z E t (project symbols t E foldFirst) := by
  have hfirst : Simplifies z .bool t (if foldFirst then t.foldConstants else t) := by
    split
    · exact simplifies_foldConstants z ht
    · exact .refl ht
  have hocc₀ : ∀ v ∈ (if foldFirst then t.foldConstants else t).occurrences,
      v ∈ t.occurrences := by
    split
    · exact fun _ => mem_occurrences_foldConstants
    · exact fun _ => id
  set u := if foldFirst then t.foldConstants else t with hu
  have hcs : ∀ c ∈ u.conjuncts, c.hasSort .bool = true := fun c hc =>
    hasSort_of_mem_conjuncts hfirst.sorted hc
  have hall (ρ : Valuation) : AllHoldFor z E ρ u.conjuncts ↔ HoldsFor z E ρ t := by
    simp only [AllHoldFor, HoldsFor, holds_conjuncts, hfirst.holds]
  have hpending : ∀ v ∈ symbols.sort E, v ∈ E := fun v => mem_sort.mp
  have hwithin := eliminateWithin_spec (z := z) (symbols.sort E).length hpending hcs
  have hproject : project symbols t E foldFirst =
      match eliminateWithin (symbols.sort E).length u.conjuncts (symbols.sort E) with
      | none => .bool false
      | some conjuncts => foldConjuncts conjuncts := rfl
  rw [hproject]
  cases h : eliminateWithin (symbols.sort E).length u.conjuncts (symbols.sort E) with
  | none =>
    rw [h] at hwithin
    refine ⟨by simp, by simp, fun ρ => ?_⟩
    rw [← hall]
    exact ⟨fun ⟨_, _, hf⟩ => by simp at hf, fun hf => absurd hf (hwithin ρ)⟩
  | some cs =>
    rw [h] at hwithin
    obtain ⟨hsort, hocc, hholds⟩ := foldConjuncts_spec (z := z) hwithin.sorted
    refine ⟨hsort, fun v hv => ?_, fun ρ => ?_⟩
    · obtain ⟨c, hc, hvc⟩ := hocc v hv
      obtain ⟨d, hd, hvd⟩ := hwithin.occurrences c hc v hvc
      exact hocc₀ v (mem_occurrences_of_conjunct hd hvd)
    · rw [← hall, ← hwithin.exact]
      simp only [AllHoldFor, HoldsFor, hholds]

end Term

end HornSaturation
