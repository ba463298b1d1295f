import HornSaturation.Proofs.Reader.FreeNames

/-!
# Resolving in scopes that agree

Two scopes agree along a relation between names if related names have the same sorts in them. One
form follows another along such a relation if it resolves to the same term up to a renaming, and
leaves scopes behind that agree again. What follows part by part follows as a whole; in particular
every form follows itself between scopes that agree on its free names.
-/

namespace HornSaturation.Reader

namespace Scope

/-- Related names have the same sorts. -/
def Agree (ν : String → String → Prop) (σ σ' : Scope) : Prop :=
  ∀ y y', ν y y' → σ.sortOf y = σ'.sortOf y'

variable {ν ν' : String → String → Prop} {σ σ' τ τ' : Scope} {r : String → String} {y y' : String}

theorem Agree.mono (h : Agree ν σ σ') (hν : ∀ y y', ν' y y' → ν y y') : Agree ν' σ σ' :=
  fun y y' hy => h y y' (hν y y' hy)

/-- The first name is where the names of a list are renamed to the second one, and no other. -/
def Matches (r : String → String) (names : List String) (y y' : String) : Prop :=
  ∀ b ∈ names, b = y ↔ r b = y'

theorem sortOf_assign {b b' : String} {sort sort' : Option BaseSort} (hb : b = y ↔ b' = y')
    (hsort : b = y → sort.getD .int = sort'.getD .int)
    (hσ : b ≠ y → σ.sortOf y = σ'.sortOf y') :
    (σ.assign b sort).sortOf y = (σ'.assign b' sort').sortOf y' := by
  by_cases h : b = y
  · obtain rfl := h
    obtain rfl := hb.mp rfl
    rw [sortOf, sortOf, assign_self, assign_self, hsort rfl]
  · rw [sortOf, sortOf, assign_of_ne (Ne.symm h), assign_of_ne fun e => h (hb.mpr e.symm)]
    exact hσ h

theorem sortOf_declare {bound : List (String × BaseSort)} (hmatch : Matches r (bound.map Prod.fst) y y')
    (hσ : y ∉ bound.map Prod.fst → σ.sortOf y = σ'.sortOf y') :
    (σ.declare bound).sortOf y = (σ'.declare (bound.map fun b => (r b.1, b.2))).sortOf y' := by
  induction bound generalizing σ σ' with
  | nil => exact hσ List.not_mem_nil
  | cons b bound ih =>
    obtain ⟨hb, hbound⟩ := List.forall_mem_cons.mp hmatch
    refine ih hbound fun hy => sortOf_assign hb (fun _ => rfl) fun hne => hσ ?_
    exact not_or.mpr ⟨Ne.symm hne, hy⟩ ∘ List.mem_cons.mp

/-- The names of a `let` with the sorts of their values. -/
def sorted (values : List (String × Term)) : List (String × BaseSort) :=
  values.map fun e => (e.1, e.2.sort)

theorem enter_eq_declare (values : List (String × Term)) :
    (σ.enter values).2 = σ.declare (sorted values) := by
  induction values generalizing σ with
  | nil => rfl
  | cons v values ih => exact ih

theorem sortOf_leave {values values' : List (String × Term)}
    (hvalues : sorted values' = (sorted values).map fun b => (r b.1, b.2))
    (hmatch : Matches r (values.map Prod.fst) y y') (hσ : σ.sortOf y = σ'.sortOf y')
    (hτ : y ∉ values.map Prod.fst → τ.sortOf y = τ'.sortOf y') :
    (τ.leave (σ.enter values).1).sortOf y = (τ'.leave (σ'.enter values').1).sortOf y' := by
  induction values generalizing values' σ σ' τ τ' with
  | nil =>
    obtain rfl : values' = [] := by simpa [sorted] using hvalues
    exact hτ List.not_mem_nil
  | cons v values ih =>
    obtain ⟨b, t⟩ := v
    obtain ⟨hb, hmatch⟩ := List.forall_mem_cons.mp hmatch
    cases values' with
    | nil => simp [sorted] at hvalues
    | cons v' values' =>
      obtain ⟨b', t'⟩ := v'
      obtain ⟨hhead, htail⟩ := List.cons.inj hvalues
      obtain ⟨rfl, hsort⟩ := Prod.mk.inj hhead
      dsimp only at hb hsort
      change ((τ.assign b (σ b)).leave ((σ.assign b t.sort).enter values).1).sortOf y =
        ((τ'.assign (r b) (σ' (r b))).leave ((σ'.assign (r b) t'.sort).enter values').1).sortOf y'
      refine ih htail hmatch (sortOf_assign hb (fun _ => ?_) fun _ => hσ) fun hy =>
        sortOf_assign hb (fun h => ?_) fun hne => hτ ?_
      · exact hsort.symm
      · subst h
        obtain rfl := hb.mp rfl
        exact hσ
      · exact not_or.mpr ⟨Ne.symm hne, hy⟩ ∘ List.mem_cons.mp

end Scope

section Names

variable {p : Problem} {θ : Var → Var}

theorem nameTerm_congr {sort sort' : Option BaseSort} (h : sort.getD .int = sort'.getD .int)
    (x : String) : nameTerm p sort x = nameTerm p sort' x := by
  unfold nameTerm
  rw [h]

theorem applyName_rename {f : String} {ts : List Term} {t : Term} (h : applyName p f ts = .ok t) :
    applyName p f (ts.map (Term.rename θ)) = .ok (t.rename θ) := by
  unfold applyName at h ⊢
  rw [List.length_map, List.isEmpty_map]
  split at h
  · obtain rfl := Except.ok.inj h
    rw [Term.conjoin_rename]
  · obtain rfl := Except.ok.inj h
    rw [Term.disjoin_rename]
  split at h
  · split at h
    · split at h
      next hlen =>
        obtain rfl := Except.ok.inj h
        rw [if_pos hlen, Term.rename_op]
      · cases h
    · split at h
      · cases h
      next hne =>
        obtain rfl := Except.ok.inj h
        rw [if_neg hne, Term.rename_op]
  · split at h
    · split at h
      next hlen =>
        obtain rfl := Except.ok.inj h
        rw [if_pos hlen, Term.rename_app]
      · cases h
    · cases h

end Names

namespace Form

variable {p : Problem} {ν ν₁ : String → String → Prop} {θ θ₁ : Var → Var} {σ σ' τ : Scope}

/-- Between scopes that agree, the second form resolves to the renamed term of the first one, and
leaves scopes behind that agree. -/
def Follows (p : Problem) (ν : String → String → Prop) (θ : Var → Var) (f f' : Form) : Prop :=
  ∀ ⦃σ σ' t τ⦄, σ.Agree ν σ' → f.resolve p σ = some (t, τ) →
    ∃ τ', f'.resolve p σ' = some (t.rename θ, τ') ∧ τ.Agree ν τ'

theorem Follows.resolveArgs {fs fs' : List Form} {ts : List Term}
    (h : List.Forall₂ (Follows p ν θ) fs fs') (hσ : σ.Agree ν σ')
    (hts : Form.resolveArgs p fs σ = some (ts, τ)) :
    ∃ τ', Form.resolveArgs p fs' σ' = some (ts.map (Term.rename θ), τ') ∧ τ.Agree ν τ' := by
  induction h generalizing σ σ' ts with
  | nil =>
    obtain ⟨rfl, rfl⟩ := Prod.mk.inj (Option.some.inj hts)
    exact ⟨σ', rfl, hσ⟩
  | cons hf _ ih =>
    obtain ⟨t, σ₁, us, ht, hus, rfl⟩ := resolveArgs_cons.mp hts
    obtain ⟨σ₁', ht', hσ₁⟩ := hf hσ ht
    obtain ⟨τ', hus', hτ⟩ := ih hσ₁ hus
    exact ⟨τ', resolveArgs_cons.mpr ⟨_, σ₁', _, ht', hus', rfl⟩, hτ⟩

theorem Follows.apply {fs fs' : List Form} (f : String)
    (h : List.Forall₂ (Follows p ν θ) fs fs') : Follows p ν θ (.apply f fs) (.apply f fs') := by
  intro σ σ' t τ hσ ht
  obtain ⟨ts, hts, hf⟩ := resolve_apply.mp ht
  obtain ⟨τ', hts', hτ⟩ := Follows.resolveArgs h hσ hts
  exact ⟨τ', resolve_apply.mpr ⟨_, hts', applyName_rename hf⟩, hτ⟩

/-- A quantifier may rename its variables, if the body follows with these renamed. -/
theorem Follows.quantified {r : String → String} {bound : List (String × BaseSort)}
    {body body' : Form} (hbody : Follows p ν₁ θ body body')
    (hν₁ : ∀ y y', ν₁ y y' → Scope.Matches r (bound.map Prod.fst) y y' ∧
      (y ∉ bound.map Prod.fst → ν y y'))
    (hν : ∀ y y', ν y y' → ν₁ y y') :
    Follows p ν θ (.quantified bound body) (.quantified (bound.map fun b => (r b.1, b.2)) body') := by
  intro σ σ' t τ hσ ht
  have hdeclare : (σ.declare bound).Agree ν₁ (σ'.declare (bound.map fun b => (r b.1, b.2))) :=
    fun y y' hy => Scope.sortOf_declare (hν₁ y y' hy).1 fun hmem => hσ y y' ((hν₁ y y' hy).2 hmem)
  obtain ⟨τ', ht', hτ⟩ := hbody hdeclare ht
  exact ⟨τ', ht', hτ.mono hν⟩

theorem Follows.quantified_body {bound : List (String × BaseSort)} {body body' : Form}
    (hbody : Follows p ν₁ θ body body')
    (hν₁ : ∀ y y', ν₁ y y' → (∀ b ∈ bound.map Prod.fst, b = y ↔ b = y') ∧
      (y ∉ bound.map Prod.fst → ν y y'))
    (hν : ∀ y y', ν y y' → ν₁ y y') :
    Follows p ν θ (.quantified bound body) (.quantified bound body') := by
  have hsame : bound.map (fun b => (id b.1, b.2)) = bound := List.map_id bound
  have h := Follows.quantified (r := id) hbody hν₁ hν
  rwa [hsame] at h

/-- A `let` that lists a name at most once gives it its sort back, if the body does not declare it
again. -/
def Restores (bindings : List (String × Form)) (body : Form) (y : String) : Prop :=
  (bindings.map Prod.fst).count y ≤ 1 ∧ y ∉ body.redeclared

/-- A `let` may rename its names, if the values follow and the body follows with the names
renamed. -/
theorem Follows.letIn {r : String → String} {bindings bindings' : List (String × Form)}
    {body body' : Form} (hθ : ∀ v, (θ v).sort = v.sort)
    (hnames : bindings'.map Prod.fst = (bindings.map Prod.fst).map r)
    (hvalues : List.Forall₂ (Follows p ν θ) (bindings.map Prod.snd) (bindings'.map Prod.snd))
    (hbody : Follows p ν₁ θ₁ body body')
    (hν₁ : ∀ y y', ν₁ y y' → Scope.Matches r (bindings.map Prod.fst) y y' ∧
      (y ∉ bindings.map Prod.fst → ν y y'))
    (hν : ∀ y y', ν y y' →
      Scope.Matches r (bindings.map Prod.fst) y y' ∧ (y ∉ bindings.map Prod.fst → ν₁ y y') ∨
        Restores bindings body y ∧ Restores bindings' body' y')
    (hkeys : ∀ v : Var, v.name ∈ body.names → ∀ k : Var, k.name ∈ bindings.map Prod.fst →
      (⟨r k.name, k.sort⟩ = θ₁ v ↔ k = v))
    (hrest : ∀ v : Var, v.name ∈ body.redeclared ∨
      v.name ∉ bindings.map Prod.fst ∧ body.isFree v.name = true → θ₁ v = θ v) :
    Follows p ν θ (.letIn bindings body) (.letIn bindings' body') := by
  intro σ σ' t τ hσ ht
  obtain ⟨ts, σ₁, u, σ₂, hts, hu, rfl, rfl⟩ := resolve_letIn.mp ht
  obtain ⟨σ₁', hts', hσ₁⟩ := Follows.resolveArgs hvalues hσ hts
  set values := (bindings.map Prod.fst).zip ts with hdef
  set values' := (bindings'.map Prod.fst).zip (ts.map (Term.rename θ)) with hdef'
  have hlist : values.map Prod.fst = bindings.map Prod.fst :=
    List.map_fst_zip (by simp [length_resolveArgs hts])
  have hlist' : values'.map Prod.fst = bindings'.map Prod.fst :=
    List.map_fst_zip (by simpa using (length_resolveArgs hts').ge)
  have hpairs : values' = values.map fun e => (r e.1, e.2.rename θ) := by
    rw [hdef, hdef', hnames, List.zip_map]
    rfl
  have hsorted : Scope.sorted values' = (Scope.sorted values).map fun b => (r b.1, b.2) := by
    simp [Scope.sorted, hpairs, Term.sort_rename hθ]
  have hsubst : bindingSubstitution values' = (bindingSubstitution values).map
      fun e => (⟨r e.1.name, e.1.sort⟩, e.2.rename θ) := by
    simp [bindingSubstitution, hpairs, Term.sort_rename hθ]
  have hfst : (Scope.sorted values).map Prod.fst = bindings.map Prod.fst := by
    rw [← hlist, Scope.sorted, List.map_map]
    rfl
  have henter : (σ₁.enter values).2.Agree ν₁ (σ₁'.enter values').2 := by
    intro y y' hy
    rw [Scope.enter_eq_declare, Scope.enter_eq_declare, hsorted]
    exact Scope.sortOf_declare (hfst ▸ (hν₁ y y' hy).1) fun hmem =>
      hσ₁ y y' ((hν₁ y y' hy).2 (hfst ▸ hmem))
  obtain ⟨σ₂', hu', hσ₂⟩ := hbody henter hu
  refine ⟨_, resolve_letIn.mpr ⟨_, σ₁', _, σ₂', hts', hu', ?_, rfl⟩, ?_⟩
  · rw [← hdef', hsubst]
    have hmoved : ∀ v ∈ u.occurrences, ∀ k ∈ (bindingSubstitution values).map Prod.fst,
        (⟨r k.name, k.sort⟩ : Var) = θ₁ v ↔ k = v := by
      intro v hv k hk
      obtain ⟨e, he, rfl⟩ := List.mem_map.mp hk
      have hmem : e.1.name ∈ values.map Prod.fst :=
        List.mem_map.mpr ⟨_, (mem_bindingSubstitution.mp he).1, rfl⟩
      exact hkeys v (names_of_occurrences hu hv) e.1 (hlist ▸ hmem)
    refine (Term.substitute_renamed hmoved fun v hv hnot => hrest v ?_).symm
    refine (occurrences_resolve hu hv).imp_right fun hfree => ⟨fun hmem => ?_, hfree.1⟩
    exact hnot (mem_keys_of_sort (hlist ▸ hmem) hfree.2)
  · intro y y' hy
    rcases hν y y' hy with ⟨hmatch, hout⟩ | ⟨⟨hcount, hbodyy⟩, hcount', hbodyy'⟩
    · exact Scope.sortOf_leave hsorted (hlist ▸ hmatch) (hσ₁ y y' hy) fun hmem =>
        hσ₂ y y' (hout (hlist ▸ hmem))
    · rw [Scope.sortOf, Scope.sortOf, Scope.leave_enter (hlist ▸ hcount) (resolve_scope hu hbodyy),
        Scope.leave_enter (hlist' ▸ hcount') (resolve_scope hu' hbodyy')]
      exact hσ₁ y y' hy

/-- The names of a `let` are left alone by the relation and by the renaming. -/
theorem Follows.letIn_body {bindings bindings' : List (String × Form)} {body body' : Form}
    (hθ : ∀ v, (θ v).sort = v.sort)
    (hnames : bindings'.map Prod.fst = bindings.map Prod.fst)
    (hvalues : List.Forall₂ (Follows p ν θ) (bindings.map Prod.snd) (bindings'.map Prod.snd))
    (hbody : Follows p ν θ body body')
    (hν : ∀ y y', ν y y' → ∀ b ∈ bindings.map Prod.fst, b = y ↔ b = y')
    (hkeys : ∀ v : Var, v.name ∈ body.names → ∀ k : Var, k.name ∈ bindings.map Prod.fst →
      (k = θ v ↔ k = v)) :
    Follows p ν θ (.letIn bindings body) (.letIn bindings' body') :=
  .letIn (r := id) hθ (by rw [hnames, List.map_id]) hvalues hbody
    (fun y y' hy => ⟨hν y y' hy, fun _ => hy⟩) (fun y y' hy => .inl ⟨hν y y' hy, fun _ => hy⟩)
    hkeys fun _ _ => rfl

/-- Names are related to themselves where a `let` lists them or where they are related outside. -/
def Under (names : List String) (ν : String → String → Prop) (y y' : String) : Prop :=
  y = y' ∧ (y ∈ names ∨ ν y y')

/-- The body of a `let` is left alone by the renaming. -/
theorem Follows.letIn_values {bindings bindings' : List (String × Form)} {body : Form}
    (hθ : ∀ v, (θ v).sort = v.sort)
    (hnames : bindings'.map Prod.fst = bindings.map Prod.fst)
    (hvalues : List.Forall₂ (Follows p ν θ) (bindings.map Prod.snd) (bindings'.map Prod.snd))
    (hbody : Follows p (Under (bindings.map Prod.fst) ν) id body body)
    (hν : ∀ y y', ν y y' → y = y' ∨ Restores bindings body y ∧ Restores bindings' body y')
    (hrest : ∀ v : Var, v.name ∈ body.redeclared ∨
      v.name ∉ bindings.map Prod.fst ∧ body.isFree v.name = true → θ v = v) :
    Follows p ν θ (.letIn bindings body) (.letIn bindings' body) := by
  refine .letIn (r := id) hθ (by rw [hnames, List.map_id]) hvalues hbody ?_ ?_
    (fun _ _ _ _ => Iff.rfl) fun v hv => (hrest v hv).symm
  · rintro y _ ⟨rfl, hy⟩
    exact ⟨fun _ _ => Iff.rfl, hy.resolve_left⟩
  · intro y y' hy
    refine (hν y y' hy).imp_left fun heq => ?_
    subst heq
    exact ⟨fun _ _ => Iff.rfl, fun _ => ⟨rfl, .inr hy⟩⟩

/-- Scopes that agree on the free names of a form give it the same term. -/
theorem follows_self {f : Form} (hν : ∀ y y', ν y y' → y = y')
    (hfree : ∀ y, f.isFree y = true → ν y y) : Follows p ν id f f := by
  induction f using structural generalizing ν with
  | numeral n =>
    intro σ σ' t τ hσ ht
    obtain ⟨rfl, rfl⟩ := Prod.mk.inj (Option.some.inj ht)
    exact ⟨σ', rfl, hσ⟩
  | name x =>
    intro σ σ' t τ hσ ht
    obtain ⟨rfl, rfl⟩ := Prod.mk.inj (Option.some.inj ht)
    have hsort := hσ x x (hfree x (isFree_name.mpr rfl))
    refine ⟨σ', ?_, hσ⟩
    rw [resolve, Term.rename_id, nameTerm_congr hsort]
  | apply f args ih =>
    exact .apply f (List.forall₂_same.mpr fun g hg =>
      ih g hg hν fun y hy => hfree y (isFree_apply.mpr ⟨g, hg, hy⟩))
  | letIn bindings body ihv ihb =>
    refine .letIn_values (fun _ => rfl) rfl (List.forall₂_same.mpr ?_) ?_
      (fun y y' hy => .inl (hν y y' hy)) fun _ _ => rfl
    · exact List.forall_mem_map.mpr fun b hb =>
        ihv b hb hν fun y hy => hfree y (isFree_letIn.mpr (.inl ⟨b, hb, hy⟩))
    · refine ihb (fun y y' hy => hy.1) fun y hy => ⟨rfl, ?_⟩
      by_cases hmem : y ∈ bindings.map Prod.fst
      · exact .inl hmem
      · exact .inr (hfree y (isFree_letIn.mpr (.inr ⟨hmem, hy⟩)))
  | quantified bound body ih =>
    have hbody : Follows p (Under (bound.map Prod.fst) ν) id body body := by
      refine ih (fun y y' hy => hy.1) fun y hy => ⟨rfl, ?_⟩
      by_cases hmem : y ∈ bound.map Prod.fst
      · exact .inl hmem
      · exact .inr (hfree y (isFree_quantified.mpr ⟨hmem, hy⟩))
    refine .quantified_body hbody ?_ fun y y' hy => ⟨hν y y' hy, .inr hy⟩
    rintro y _ ⟨rfl, hy⟩
    exact ⟨fun _ _ => Iff.rfl, hy.resolve_left⟩

/-- A form that a renaming passes by follows itself. -/
theorem follows_apart {f : Form} (hν : ∀ y y', ν y y' → y = y')
    (hfree : ∀ y, f.isFree y = true → ν y y)
    (hθ : ∀ v : Var, v.name ∈ f.redeclared ∨ f.isFree v.name = true → θ v = v) :
    Follows p ν θ f f := by
  intro σ σ' t τ hσ ht
  obtain ⟨τ', ht', hτ⟩ := follows_self hν hfree hσ ht
  have hsame : t.rename θ = t.rename id := Term.rename_congr fun v hv =>
    hθ v ((occurrences_resolve ht hv).imp_right And.left)
  exact ⟨τ', hsame ▸ ht', hτ⟩

end Form

end HornSaturation.Reader
