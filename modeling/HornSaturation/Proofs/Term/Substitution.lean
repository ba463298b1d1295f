import HornSaturation.Proofs.Data.Lists
import HornSaturation.Proofs.Term.Formulas
import Mathlib.Data.List.Nodup

/-!
# Substitution and renaming

A substitution acts on valuations: a term has after it the value that it had under the values of
the images. A renaming that keeps sorts and different variables apart can be undone on valuations,
so nothing that is said existentially about the renamed variables is lost.
-/

namespace HornSaturation

namespace Substitution

/-- What a substitution puts in the place of a variable. -/
def image (s : Substitution) (v : Var) : Term := (s.reverse.lookup v).getD (.var v)

variable {s : Substitution} {v : Var} {t : Term}

private theorem mem_of_lookup {l : Substitution} (h : l.lookup v = some t) : (v, t) ∈ l := by
  obtain ⟨l₁, l₂, rfl, -⟩ := List.lookup_eq_some_iff.mp h
  simp

/-- A variable has an image from the substitution, or stands for itself. -/
theorem image_cases (s : Substitution) (v : Var) :
    (v, s.image v) ∈ s ∨ v ∉ s.map Prod.fst ∧ s.image v = .var v := by
  unfold image
  cases h : s.reverse.lookup v with
  | some t => exact .inl (List.mem_reverse.mp (mem_of_lookup h))
  | none =>
    refine .inr ⟨fun hv => ?_, rfl⟩
    obtain ⟨p, hp, rfl⟩ := List.mem_map.mp hv
    exact absurd (List.lookup_eq_none_iff.mp h p (List.mem_reverse.mpr hp)) (by simp)

theorem image_of_notMem (h : v ∉ s.map Prod.fst) : s.image v = .var v := by
  rcases image_cases s v with hv | ⟨-, hv⟩
  · exact absurd (List.mem_map.mpr ⟨_, hv, rfl⟩) h
  · exact hv

/-- If every variable is listed once, its image is the term that it is listed with. -/
theorem image_of_mem (hs : (s.map Prod.fst).Nodup) (h : (v, t) ∈ s) : s.image v = t := by
  rcases image_cases s v with hv | ⟨hv, -⟩
  · exact (Prod.ext_iff.mp (List.inj_on_of_nodup_map hs hv h rfl)).2
  · exact absurd (List.mem_map.mpr ⟨_, h, rfl⟩) hv

/-- Terms listed beside different variables are the images of these. -/
theorem map_image_zip {vs : List Var} {ts : List Term} (hs : vs.Nodup)
    (hl : vs.length = ts.length) : vs.map (image (vs.zip ts)) = ts := by
  refine List.ext_getElem (by simpa using hl) fun i hi hi' => ?_
  rw [List.getElem_map]
  refine image_of_mem (by rwa [List.map_fst_zip (Nat.le_of_eq hl)]) ?_
  exact List.mem_iff_getElem.mpr ⟨i, by simp at hi ⊢; omega, List.getElem_zip⟩

/-- A substitution respects sorts if the images that it lists do. -/
theorem image_sorted (h : ∀ p ∈ s, p.2.hasSort p.1.sort = true) (v : Var) :
    (s.image v).hasSort v.sort = true := by
  rcases image_cases s v with hv | ⟨-, hv⟩
  · exact h _ hv
  · rw [hv]
    simp

/-- The variable that a renaming puts in the place of a variable. -/
def rename (sources targets : List Var) (v : Var) : Var :=
  ((sources.zip targets).reverse.lookup v).getD v

variable {sources targets : List Var}

private theorem lookup_map_snd {l : List (Var × Var)} :
    (l.map fun p => (p.1, Term.var p.2)).lookup v = (l.lookup v).map Term.var := by
  induction l with
  | nil => rfl
  | cons p l ih =>
    rw [List.map_cons, List.lookup_cons, List.lookup_cons]
    cases v == p.1
    · exact ih
    · rfl

theorem image_ofVars (v : Var) :
    (ofVars sources targets).image v = .var (rename sources targets v) := by
  have hzip : sources.zip (targets.map Term.var) =
      (sources.zip targets).map fun p => (p.1, Term.var p.2) := by
    rw [List.zip_map_right]
    rfl
  rw [image, ofVars, hzip, ← List.map_reverse, lookup_map_snd, rename]
  cases (sources.zip targets).reverse.lookup v <;> rfl

theorem rename_of_notMem (h : v ∉ sources) : rename sources targets v = v := by
  have hv : v ∉ (ofVars sources targets).map Prod.fst := fun hv => by
    obtain ⟨p, hp, rfl⟩ := List.mem_map.mp hv
    exact h (List.of_mem_zip hp).1
  simpa [image_ofVars] using image_of_notMem hv

/-- A renaming of different variables sends each to its partner. -/
theorem map_rename (hs : sources.Nodup) (hl : sources.length = targets.length) :
    sources.map (rename sources targets) = targets := by
  have hlen : sources.length = (targets.map Term.var).length := by simpa using hl
  have himage := map_image_zip hs hlen
  change sources.map (image (ofVars sources targets)) = _ at himage
  rw [List.map_congr_left fun v _ => image_ofVars v] at himage
  refine List.map_injective_iff.mpr (fun _ _ => Term.var.inj) ?_
  rwa [List.map_map]

theorem rename_mem (hs : sources.Nodup) (hl : sources.length = targets.length)
    (hv : v ∈ sources) : rename sources targets v ∈ targets := by
  have hmem := List.mem_map_of_mem (f := rename sources targets) hv
  rwa [map_rename hs hl] at hmem

/-- A renaming between lists of the same sorts keeps sorts. -/
theorem rename_sort (h : targets.map Var.sort = sources.map Var.sort) (v : Var) :
    (rename sources targets v).sort = v.sort := by
  have himage := image_sorted (s := ofVars sources targets) (fun p hp => ?_) v
  · simpa [image_ofVars] using himage
  · obtain ⟨i, hi, rfl⟩ := List.mem_iff_getElem.mp hp
    have hi' : i < sources.length ∧ i < targets.length := by
      simpa [ofVars, List.length_zip, Nat.lt_min] using hi
    have hsort : targets[i].sort = sources[i].sort := by
      have hget := congrArg (·[i]?) h
      simpa [hi'.1, hi'.2] using hget
    simpa [ofVars, List.getElem_zip] using hsort

/-- A renaming between lists of different variables keeps variables apart, as long as none that it
leaves alone is among the targets. -/
theorem rename_inj (hs : sources.Nodup) (ht : targets.Nodup)
    (hl : sources.length = targets.length) {v w : Var} (hv : v ∈ sources ∨ v ∉ targets)
    (hw : w ∈ sources ∨ w ∉ targets) (h : rename sources targets v = rename sources targets w) :
    v = w := by
  by_cases hvs : v ∈ sources <;> by_cases hws : w ∈ sources
  · exact List.inj_on_of_nodup_map (by rwa [map_rename hs hl]) hvs hws h
  · rw [rename_of_notMem hws] at h
    exact absurd (h ▸ rename_mem hs hl hvs) (hw.resolve_left hws)
  · rw [rename_of_notMem hvs] at h
    exact absurd (h ▸ rename_mem hs hl hws) (hv.resolve_left hvs)
  · rwa [rename_of_notMem hvs, rename_of_notMem hws] at h

/-- Two renamings side by side are one. -/
theorem ofVars_append {vs ws : List Var} (hl : sources.length = targets.length) :
    ofVars sources targets ++ ofVars vs ws = ofVars (sources ++ vs) (targets ++ ws) := by
  rw [ofVars, ofVars, ofVars, List.map_append, List.zip_append (by simpa using hl)]

end Substitution

/-- Substitution replaces every variable by its image. -/
theorem Term.substitute_eq_bind (s : Substitution) (t : Term) :
    t.substitute s = t.bind s.image := by
  unfold Term.substitute
  split
  · next h =>
    obtain rfl := List.reverse_eq_nil_iff.mp h
    exact (Term.bind_var t).symm
  · rfl

/-- A substitution brings in nothing but what its images mention. -/
theorem Term.mentions_substitute {V : Var → Prop} {R : RelationId → Prop} {s : Substitution}
    {t : Term} (h : (t.substitute s).Mentions V R) :
    t.Mentions V R ∨ ∃ p ∈ s, p.2.Mentions V R := by
  by_cases hs : ∃ p ∈ s, p.2.Mentions V R
  · exact .inr hs
  rw [substitute_eq_bind, mentions_bind] at h
  refine .inl (h.mono fun v hv => ?_)
  rcases s.image_cases v with hmem | ⟨-, himage⟩
  · exact absurd ⟨_, hmem, hv⟩ hs
  · rwa [himage] at hv

theorem Term.AppliesOnly.substitute {S : RelationId → Prop} {s : Substitution} {t : Term}
    (h : t.AppliesOnly S) (hs : ∀ p ∈ s, p.2.AppliesOnly S) : (t.substitute s).AppliesOnly S := by
  intro r hr
  rcases mentions_substitute hr with hm | ⟨p, hp, hm⟩
  · exact h r hm
  · exact hs p hp r hm

/-- Renaming variables brings in no relation. -/
theorem Substitution.appliesOnly_ofVars {S : RelationId → Prop} {sources targets : List Var} :
    ∀ p ∈ ofVars sources targets, p.2.AppliesOnly S := by
  intro p hp
  obtain ⟨v, -, hv⟩ := List.mem_map.mp (List.of_mem_zip hp).2
  exact hv ▸ Term.appliesOnly_var v

end HornSaturation
