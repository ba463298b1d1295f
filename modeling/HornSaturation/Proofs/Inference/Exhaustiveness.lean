import HornSaturation.Proofs.Inference.Projection
import HornSaturation.Proofs.Term.FoldingDepth

/-!
# Elimination is exhaustive

Elimination goes on until no conjunct defines a symbol that is to be eliminated: a symbol that is
left has no definition, and one that is not left does not occur any more. Afterwards the conjuncts
are folded and taken apart once more. Whatever is still a definition then has been brought up by
this last folding: a conjunct into which definitions were inlined may have become a conjunction, and
sums of large constants may come together only when they are folded a second time.
-/

namespace HornSaturation

namespace Term

variable {v w : Var} {t c : Term} {cs cs' rest : List Term} {vs left E : List Var}

/-- The definitions of a symbol are found. -/
theorem IsDefinition.isSome (h : IsDefinition v c t) : (definition? v c).isSome = true := by
  have hcontains {u : Term} (hu : v ∉ u.occurrences) : (!u.containsVar v) = true := by
    simpa using mt containsVar_iff.mp hu
  cases h with
  | alone => simp [definition?]
  | negated => simp [definition?]
  | left ho ht => rcases ho with rfl | rfl <;> simp [definition?, hcontains ht]
  | right ho ht =>
    rcases ho with rfl | rfl <;>
    · simp only [definition?]
      split
      · rfl
      · simp [hcontains ht]

/-- A definition of a symbol does not use it, and uses no other symbols than the conjunct does. -/
theorem IsDefinition.occurrences (h : IsDefinition v c t) :
    v ∈ c.occurrences ∧ v ∉ t.occurrences ∧ ∀ w ∈ t.occurrences, w ∈ c.occurrences := by
  cases h with
  | alone | negated => simp
  | left _ ht | right _ ht => exact ⟨by simp, ht, fun w hw => by simp [hw]⟩

/-- No conjunct of a list is a definition of a symbol. -/
def Undefined (v : Var) (cs : List Term) : Prop := ∀ c ∈ cs, definition? v c = none

/-- A symbol occurs in no conjunct of a list. -/
def Absent (v : Var) (cs : List Term) : Prop := ∀ c ∈ cs, v ∉ c.occurrences

theorem Undefined.not_isDefinition (h : Undefined v cs) (hc : c ∈ cs) : ¬ IsDefinition v c t :=
  fun hdef => by simpa [h c hc] using hdef.isSome

theorem Absent.undefined (h : Absent v cs) : Undefined v cs := fun c hc =>
  Option.eq_none_iff_forall_ne_some.mpr fun _ hdef =>
    h c hc (isDefinition_of_definition? hdef).occurrences.1

/-- Where no definition is taken, there is none. -/
theorem undefined_of_takeDefinition? (h : takeDefinition? v cs = none) : Undefined v cs := by
  induction cs with
  | nil => exact fun c hc => nomatch hc
  | cons c cs ih =>
    unfold takeDefinition? at h
    split at h
    · cases h
    · next hc => exact List.forall_mem_cons.mpr ⟨hc, ih (Option.map_eq_none_iff.mp h)⟩

/-- After a definition has been inlined, its symbol is gone. -/
theorem absent_inlined (h : takeDefinition? v cs = some (t, rest)) :
    Absent v (rest.map (inlined v t)) := by
  obtain ⟨c, hc, -⟩ := takeDefinition?_spec h
  exact List.forall_mem_map.mpr fun d _ =>
    notMem_occurrences_inlined (isDefinition_of_definition? hc).occurrences.2.1

/-- Inlining brings no symbol back. -/
theorem Absent.inlined (hw : Absent w cs) (h : takeDefinition? v cs = some (t, rest)) :
    Absent w (rest.map (inlined v t)) := by
  obtain ⟨c, hc, hmem⟩ := takeDefinition?_spec h
  refine List.forall_mem_map.mpr fun d hd hwd => ?_
  rcases mem_occurrences_inlined hwd with hwd | hwt
  · exact hw d ((hmem d).mpr (.inr hd)) hwd
  · have hdef := isDefinition_of_definition? hc
    exact hw c ((hmem c).mpr (.inl rfl)) (hdef.occurrences.2.2 w hwt)

/-- What one round makes of conjuncts and of the symbols to eliminate: the symbols that are not left
are gone, no symbol comes back, and if all symbols are left, none of them had a definition. -/
structure Round (cs : List Term) (vs : List Var) (cs' : List Term) (left : List Var) : Prop where
  gone : ∀ v ∈ vs, v ∈ left ∨ Absent v cs'
  absent : ∀ v, Absent v cs → Absent v cs'
  length_le : left.length ≤ vs.length
  idle : left.length = vs.length → cs' = cs ∧ ∀ v ∈ vs, Undefined v cs

namespace Round

theorem nil (cs : List Term) : Round cs [] cs [] where
  gone _ hv := nomatch hv
  absent _ := id
  length_le := Nat.le_refl 0
  idle _ := ⟨rfl, fun _ hv => nomatch hv⟩

/-- A symbol without a definition is left. -/
theorem cons_left (hv : Undefined v cs) (h : Round cs vs cs' left) :
    Round cs (v :: vs) cs' (v :: left) where
  gone := List.forall_mem_cons.mpr ⟨.inl List.mem_cons_self, fun w hw =>
    (h.gone w hw).imp_left (List.mem_cons_of_mem v)⟩
  absent := h.absent
  length_le := Nat.succ_le_succ h.length_le
  idle hlen := by
    obtain ⟨hcs, hvs⟩ := h.idle (Nat.succ.inj hlen)
    exact ⟨hcs, List.forall_mem_cons.mpr ⟨hv, hvs⟩⟩

/-- A symbol with a definition is eliminated. -/
theorem cons_gone (hv : takeDefinition? v cs = some (t, rest))
    (h : Round (rest.map (Term.inlined v t)) vs cs' left) : Round cs (v :: vs) cs' left where
  gone := List.forall_mem_cons.mpr ⟨.inr (h.absent v (absent_inlined hv)), h.gone⟩
  absent w hw := h.absent w (hw.inlined hv)
  length_le := Nat.le_succ_of_le h.length_le
  idle hlen := by
    have hle := h.length_le
    rw [hlen, List.length_cons] at hle
    omega

end Round

theorem round_of_eliminateEach (h : eliminateEach cs vs = some (cs', left)) :
    Round cs vs cs' left := by
  induction vs generalizing cs left with
  | nil =>
    obtain ⟨rfl, rfl⟩ := Prod.mk.inj (Option.some.inj h)
    exact .nil cs
  | cons v vs ih =>
    unfold eliminateEach at h
    split at h
    · next t rest htake =>
      dsimp only at h
      split at h
      · cases h
      · exact .cons_gone htake (ih h)
    · next htake =>
      obtain ⟨⟨cs₁, left₁⟩, heach, heq⟩ := Option.map_eq_some_iff.mp h
      obtain ⟨rfl, rfl⟩ := Prod.mk.inj heq
      exact .cons_left (undefined_of_takeDefinition? htake) (ih heach)

/-- With a round for each symbol, elimination goes on until no symbol has a definition. -/
theorem undefined_of_eliminateWithin {n : Nat} (hn : vs.length ≤ n)
    (h : eliminateWithin n cs vs = some cs') :
    (∀ v, Absent v cs → Absent v cs') ∧ ∀ v ∈ vs, Undefined v cs' := by
  induction n generalizing cs vs with
  | zero =>
    obtain rfl := List.length_eq_zero_iff.mp (Nat.le_zero.mp hn)
    obtain rfl := Option.some.inj h
    exact ⟨fun _ => id, fun _ hv => nomatch hv⟩
  | succ n ih =>
    unfold eliminateWithin at h
    split at h
    · cases h
    · next cs₁ left heach =>
      have hround := round_of_eliminateEach heach
      split at h
      · next hlt =>
        -- A symbol that this round has eliminated stays away in the later ones.
        obtain ⟨habsent, hleft⟩ := ih (by omega) h
        refine ⟨fun v hv => habsent v (hround.absent v hv), fun v hv => ?_⟩
        rcases hround.gone v hv with hv | hv
        · exact hleft v hv
        · exact (habsent v hv).undefined
      · next hlt =>
        -- A round that leaves all symbols has looked for a definition of each.
        obtain rfl := Option.some.inj h
        obtain ⟨rfl, hvs⟩ := hround.idle (by have := hround.length_le; omega)
        exact ⟨fun _ => id, hvs⟩

section LastFolding

variable {ts args : List Term} {d : Term}

/-- The conjuncts of a folded conjunction are those of the arguments, unless it is false. -/
theorem mem_conjuncts_foldAnd (h : d ∈ (foldAnd args).conjuncts) :
    d = .bool false ∨ ∃ t ∈ args, d ∈ t.conjuncts := by
  have hfalse (h : d ∈ (Term.bool false).conjuncts) : d = .bool false := List.mem_singleton.mp h
  unfold foldAnd at h
  split at h
  · exact .inl (hfalse h)
  · dsimp only at h
    split at h
    · exact .inl (hfalse h)
    · rw [conjuncts_conjoin, conjunctsList_eq] at h
      obtain ⟨c, hc, hd⟩ := List.mem_flatMap.mp h
      obtain ⟨t, ht, hct⟩ := (mem_addConjuncts.mp hc).resolve_left List.not_mem_nil
      refine .inr ⟨t, ht, ?_⟩
      rcases addedConjuncts_cases t with ⟨-, hadded⟩ | hadded | hadded
      · simp [hadded] at hct
      · rw [hadded, conjuncts, conjunctsList_eq]
        exact List.mem_flatMap.mpr ⟨c, hct, hd⟩
      · rw [hadded, List.mem_singleton] at hct
        exact hct ▸ hd

/-- A conjunct of a folded conjunction comes from folding one of the conjuncts. -/
theorem mem_conjuncts_foldConstants_conjoin (h : d ∈ (conjoin ts).foldConstants.conjuncts) :
    d = .bool false ∨ ∃ c ∈ conjunctsList ts, d ∈ c.foldConstants.conjuncts := by
  unfold conjoin at h
  split at h
  · cases h
  · next t ht => exact .inr ⟨t, by simp [ht], h⟩
  · rw [foldConstants_op] at h
    rcases mem_conjuncts_foldAnd h with h | ⟨t, ht, hd⟩
    · exact .inl h
    · obtain ⟨c, hc, rfl⟩ := List.mem_map.mp ht
      exact .inr ⟨c, hc, hd⟩

/-- A conjunct of folded conjuncts comes from folding one of them twice. -/
theorem mem_conjuncts_foldConjuncts (h : d ∈ (foldConjuncts cs).conjuncts) :
    d = .bool false ∨
      ∃ c ∈ cs, ∃ e ∈ c.foldConstants.conjuncts, d ∈ e.foldConstants.conjuncts := by
  unfold foldConjuncts at h
  dsimp only at h
  split at h
  · exact .inl (List.mem_singleton.mp h)
  · refine (mem_conjuncts_foldConstants_conjoin h).imp_right ?_
    rintro ⟨e, he, hd⟩
    rw [conjunctsList_conjunctsList, conjunctsList_eq] at he
    obtain ⟨t, ht, he⟩ := List.mem_flatMap.mp he
    obtain ⟨c, hc, rfl⟩ := List.mem_map.mp ht
    exact ⟨c, hc, e, he, hd⟩

end LastFolding

/-- The conjuncts with which elimination ends, if none of them becomes false. -/
def remaining? (symbols : Symbols) (formula : Term) (E : List Var) : Option (List Term) :=
  eliminateWithin (symbols.sort E).length formula.foldConstants.conjuncts (symbols.sort E)

/-- Folding the conjuncts and taking them apart once more gives no others. -/
def Settled (cs : List Term) : Prop := ∀ c ∈ cs, ∀ d ∈ c.foldConstants.conjuncts, d ∈ cs

/-- A conjunct has been brought up by the last folding: it is not one of the conjuncts with which
elimination ends, but comes from folding one of them. -/
def BroughtUp (symbols : Symbols) (formula : Term) (E : List Var) (d : Term) : Prop :=
  ∃ cs, remaining? symbols formula E = some cs ∧ d ∉ cs ∧
    ∃ c ∈ cs, ∃ e ∈ c.foldConstants.conjuncts, d ∈ e.foldConstants.conjuncts

/-- Elimination ends only where no symbol has a definition. -/
theorem undefined_of_remaining? {symbols : Symbols} {formula : Term}
    (h : remaining? symbols formula E = some cs) (hv : v ∈ E) : Undefined v cs :=
  (undefined_of_eliminateWithin (Nat.le_refl _) h).2 v (mem_sort.mpr hv)

theorem broughtUp_of_isDefinition {symbols : Symbols} {formula d : Term} (hv : v ∈ E)
    (hd : d ∈ (project symbols formula E true).conjuncts) (hdef : IsDefinition v d t) :
    BroughtUp symbols formula E d := by
  have hfalse : d ≠ .bool false := by
    rintro rfl
    cases hdef
  unfold project at hd
  dsimp only at hd
  split at hd
  · exact absurd (List.mem_singleton.mp hd) hfalse
  · next cs hcs =>
    have hremaining : remaining? symbols formula E = some cs := hcs
    have hnot : d ∉ cs := fun hd =>
      (undefined_of_remaining? hremaining hv).not_isDefinition hd hdef
    exact ⟨cs, hremaining, hnot, (mem_conjuncts_foldConjuncts hd).resolve_left hfalse⟩

/-- Elimination is exhaustive: whatever conjunct of the result is still a definition of a symbol
that was to be eliminated, the last folding has brought it up. Where folding settles, no conjunct of
the result is one. -/
theorem project_exhaustive (symbols : Symbols) (formula : Term) (E : List Var) :
    (∀ v ∈ E, ∀ c ∈ (project symbols formula E true).conjuncts, ∀ t, IsDefinition v c t →
      BroughtUp symbols formula E c) ∧
    ((∀ cs, remaining? symbols formula E = some cs → Settled cs) →
      ∀ v ∈ E, ∀ c ∈ (project symbols formula E true).conjuncts, ∀ t, ¬ IsDefinition v c t) := by
  refine ⟨fun v hv c hc t hdef => broughtUp_of_isDefinition hv hc hdef,
    fun h v hv c hc t hdef => ?_⟩
  obtain ⟨cs, hcs, hnot, d, hd, e, he, hce⟩ := broughtUp_of_isDefinition hv hc hdef
  have hsettled := h cs hcs
  exact hnot (hsettled e (hsettled d hd e he) c hce)

private theorem sort_pair {symbols : Symbols} (h : symbols.compare v w ≠ .gt) :
    symbols.sort [v, w] = [v, w] :=
  List.mergeSort_of_pairwise (by simpa using h)

/-- The first symbol has a definition only after the second has been eliminated. -/
theorem project_exhaustive_twoRounds :
    let a : Var := ⟨"a", .int⟩
    let x : Var := ⟨"x", .int⟩
    let bound : Term := .op .ge [.var ⟨"y", .int⟩, .var a]
    let formula : Term := .op .and [.op .eq [.op .mul [.var a, .var x], .int 3],
      .op .eq [.var x, .int 1], bound]
    project {} formula [a, x] true = .op .ge [.var ⟨"y", .int⟩, .int 3] ∧
      ∀ v ∈ [a, x], ∀ c ∈ (project {} formula [a, x] true).conjuncts,
        ∀ t, ¬ IsDefinition v c t := by
  intro a x bound formula
  have hsort : Symbols.sort {} [a, x] = [a, x] := sort_pair (by decide)
  have hremaining : remaining? {} formula [a, x] =
      some [.op .ge [.var ⟨"y", .int⟩, .int 3]] := by
    simp only [remaining?, hsort]
    decide
  refine ⟨?_, (project_exhaustive {} formula [a, x]).2 fun cs hcs => ?_⟩
  · simp only [project, hsort]
    decide
  · obtain rfl := Option.some.inj (hremaining.symm.trans hcs)
    unfold Settled
    decide

/-- A definition that is guarded by a symbol stays when the guard has been eliminated: the conjunct
that it stands in has become a conjunction, and conjunctions are taken apart at the end only. -/
theorem project_keeps_guarded :
    let b : Var := ⟨"b", .bool⟩
    let x : Var := ⟨"x", .int⟩
    let definition : Term := .op .eq [.var x, .int 1]
    let bound : Term := .op .ge [.var ⟨"y", .int⟩, .var x]
    let formula : Term := .op .and [.var b, .op .implies [.var b, .op .and [definition, bound]]]
    (project {} formula [b, x] true).conjuncts = [definition, bound] ∧
      IsDefinition x definition (.int 1) ∧
      ¬ ∀ v ∈ [b, x], ∀ c ∈ (project {} formula [b, x] true).conjuncts,
        ∀ t, ¬ IsDefinition v c t := by
  intro b x definition bound formula
  have hsort : Symbols.sort {} [b, x] = [b, x] := sort_pair (by decide)
  have hconjuncts : (project {} formula [b, x] true).conjuncts = [definition, bound] := by
    simp only [project, hsort]
    decide
  have hdef : IsDefinition x definition (.int 1) := .left (.inl rfl) (by decide)
  refine ⟨hconjuncts, hdef, fun h => h x (by simp) definition ?_ _ hdef⟩
  rw [hconjuncts]
  exact List.mem_cons_self

end Term

end HornSaturation
