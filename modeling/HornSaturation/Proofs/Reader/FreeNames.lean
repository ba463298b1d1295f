import HornSaturation.Proofs.Clause.Renaming
import HornSaturation.Proofs.Reader.Scopes

/-!
# Free names

A name is free in a form where no binder of the form gives it its meaning. The variables of the term
that a form stands for have free names and the sorts that these are in scope with; the only others
are those of the quantifiers inside, which are left behind in the term under their own names.
-/

namespace HornSaturation.Reader

/-- The sort that a variable is read with. -/
def Scope.sortOf (σ : Scope) (x : String) : BaseSort := (σ x).getD .int

namespace Form

section Free

mutual
/-- Whether a name stands in a form for a variable from outside. -/
def isFree (x : String) : Form → Bool
  | numeral _ => false
  | name y => x == y
  | apply _ args => isFreeInArgs x args
  | letIn bindings body =>
    isFreeInBindings x bindings || !(bindings.map Prod.fst).contains x && isFree x body
  | quantified bound body => !(bound.map Prod.fst).contains x && isFree x body
/-- Whether a name is free in a form of a list. -/
def isFreeInArgs (x : String) : List Form → Bool
  | [] => false
  | f :: fs => isFree x f || isFreeInArgs x fs
/-- Whether a name is free in a value of a `let`. -/
def isFreeInBindings (x : String) : List (String × Form) → Bool
  | [] => false
  | (_, f) :: bindings => isFree x f || isFreeInBindings x bindings
end

variable {x y z f : String} {args : List Form} {bindings : List (String × Form)} {body : Form}
  {bound : List (String × BaseSort)} {n : Int}

@[simp] theorem not_isFree_numeral : ¬ (numeral n).isFree x = true := Bool.false_ne_true

@[simp] theorem isFree_name : (name y).isFree x = true ↔ x = y := beq_iff_eq

@[simp] theorem isFree_apply :
    (apply f args).isFree x = true ↔ ∃ g ∈ args, g.isFree x = true := by
  have hargs : isFreeInArgs x args = args.any (isFree x) := by
    induction args with
    | nil => rfl
    | cons f fs ih => rw [isFreeInArgs, ih, List.any_cons]
  rw [isFree, hargs, List.any_eq_true]

@[simp] theorem isFree_letIn : (letIn bindings body).isFree x = true ↔
    (∃ b ∈ bindings, b.2.isFree x = true) ∨
      x ∉ bindings.map Prod.fst ∧ body.isFree x = true := by
  have hbindings : isFreeInBindings x bindings = bindings.any (isFree x ·.2) := by
    induction bindings with
    | nil => rfl
    | cons b bs ih => rw [isFreeInBindings, ih, List.any_cons]
  rw [isFree, hbindings, Bool.or_eq_true, List.any_eq_true, Bool.and_eq_true, Bool.not_eq_true',
    ← Bool.not_eq_true, List.contains_iff_mem]

@[simp] theorem isFree_quantified : (quantified bound body).isFree x = true ↔
    x ∉ bound.map Prod.fst ∧ body.isFree x = true := by
  rw [isFree, Bool.and_eq_true, Bool.not_eq_true', ← Bool.not_eq_true, List.contains_iff_mem]

/-- What is free is named. -/
theorem names_of_isFree {f : Form} (h : f.isFree x = true) : x ∈ f.names := by
  induction f using structural with
  | numeral n => exact absurd h not_isFree_numeral
  | name y => exact mem_names_name.mpr (isFree_name.mp h)
  | apply f args ih =>
    obtain ⟨g, hg, hx⟩ := isFree_apply.mp h
    exact mem_names_apply.mpr (.inr ⟨g, hg, ih g hg hx⟩)
  | letIn bindings body ihv ihb =>
    rcases isFree_letIn.mp h with ⟨b, hb, hx⟩ | ⟨-, hx⟩
    · exact mem_names_letIn.mpr (.inr (.inl ⟨b, hb, ihv b hb hx⟩))
    · exact mem_names_letIn.mpr (.inr (.inr (ihb hx)))
  | quantified bound body ih =>
    exact mem_names_quantified.mpr (.inr (ih (isFree_quantified.mp h).2))

mutual
/-- The form with the free occurrences of a name renamed. -/
def renameFree (x z : String) : Form → Form
  | numeral n => numeral n
  | name y => name (if y = x then z else y)
  | apply f args => apply f (renameFreeInArgs x z args)
  | letIn bindings body =>
    letIn (renameFreeInBindings x z bindings)
      (if x ∈ bindings.map Prod.fst then body else renameFree x z body)
  | quantified bound body =>
    quantified bound (if x ∈ bound.map Prod.fst then body else renameFree x z body)
/-- The forms of a list with the free occurrences of a name renamed. -/
def renameFreeInArgs (x z : String) : List Form → List Form
  | [] => []
  | f :: fs => renameFree x z f :: renameFreeInArgs x z fs
/-- The values of a `let` with the free occurrences of a name renamed. -/
def renameFreeInBindings (x z : String) : List (String × Form) → List (String × Form)
  | [] => []
  | (y, f) :: bindings => (y, renameFree x z f) :: renameFreeInBindings x z bindings
end

theorem renameFree_apply :
    (apply f args).renameFree x z = apply f (args.map (renameFree x z)) := by
  have hargs : renameFreeInArgs x z args = args.map (renameFree x z) := by
    induction args with
    | nil => rfl
    | cons f fs ih => rw [renameFreeInArgs, ih, List.map_cons]
  rw [renameFree, hargs]

theorem renameFree_letIn : (letIn bindings body).renameFree x z =
    letIn (bindings.map fun b => (b.1, b.2.renameFree x z))
      (if x ∈ bindings.map Prod.fst then body else body.renameFree x z) := by
  have hbindings : renameFreeInBindings x z bindings =
      bindings.map fun b => (b.1, b.2.renameFree x z) := by
    induction bindings with
    | nil => rfl
    | cons b bs ih => rw [renameFreeInBindings, ih, List.map_cons]
  rw [renameFree, hbindings]

/-- Where a name is not free, nothing is renamed. -/
theorem renameFree_eq_self {f : Form} (h : ¬ f.isFree x = true) : f.renameFree x z = f := by
  induction f using structural with
  | numeral n => rfl
  | name y => rw [renameFree, if_neg fun e => h (isFree_name.mpr e.symm)]
  | apply f args ih =>
    rw [isFree_apply] at h
    rw [renameFree_apply, List.map_congr_left fun g hg => ih g hg fun hx => h ⟨g, hg, hx⟩,
      List.map_id']
  | letIn bindings body ihv ihb =>
    rw [isFree_letIn, not_or] at h
    have hvalues : bindings.map (fun b => (b.1, b.2.renameFree x z)) = bindings.map id :=
      List.map_congr_left fun b hb => by rw [ihv b hb fun hx => h.1 ⟨b, hb, hx⟩]; rfl
    rw [renameFree_letIn, hvalues, List.map_id]
    split
    · rfl
    · next hx => rw [ihb fun hbody => h.2 ⟨hx, hbody⟩]
  | quantified bound body ih =>
    rw [isFree_quantified] at h
    rw [renameFree]
    split
    · rfl
    · next hx => rw [ih fun hbody => h ⟨hx, hbody⟩]

/-- Renaming free occurrences leaves the binders as they are. -/
theorem mem_redeclared_renameFree {f : Form} :
    y ∈ (f.renameFree x z).redeclared ↔ y ∈ f.redeclared := by
  induction f using structural with
  | numeral n => rfl
  | name y => simp [renameFree]
  | apply f args ih =>
    rw [renameFree_apply]
    simp only [mem_redeclared_apply, List.mem_map, exists_exists_and_eq_and]
    exact exists_congr fun g => and_congr_right fun hg => ih g hg
  | letIn bindings body ihv ihb =>
    have hbody : y ∈ (if x ∈ bindings.map Prod.fst then body else body.renameFree x z).redeclared ↔
        y ∈ body.redeclared := by
      split
      · rfl
      · exact ihb
    rw [renameFree_letIn, mem_redeclared_letIn, mem_redeclared_letIn, hbody, List.map_map]
    simp only [List.mem_map, exists_exists_and_eq_and]
    exact or_congr_right (or_congr_left (exists_congr fun b => and_congr_right fun hb => ihv b hb))
  | quantified bound body ih =>
    rw [renameFree, mem_redeclared_quantified, mem_redeclared_quantified]
    split
    · rfl
    · rw [ih]

end Free

end Form

section Variables

variable {p : Problem} {σ σ' : Scope} {v : Var} {t : Term}

theorem occurrences_nameTerm {sort : Option BaseSort} {x : String}
    (hv : v ∈ (nameTerm p sort x).occurrences) : v = ⟨x, sort.getD .int⟩ := by
  unfold nameTerm at hv
  split at hv
  · cases hv
  · cases hv
  · split at hv
    · cases hv
    · exact List.mem_singleton.mp hv

theorem occurrences_applyName {f : String} {args : List Term} (h : applyName p f args = .ok t)
    (hv : v ∈ t.occurrences) : ∃ a ∈ args, v ∈ a.occurrences := by
  unfold applyName at h
  split at h
  · obtain rfl := Except.ok.inj h
    exact Term.mem_occurrences_conjoin hv
  · obtain rfl := Except.ok.inj h
    obtain ⟨a, ha, hm⟩ := Term.exists_of_mentions_disjoin (Term.mentions_iff_mem_occurrences.mpr hv)
    exact ⟨a, ha, Term.mentions_iff_mem_occurrences.mp hm⟩
  split at h
  · split at h
    · split at h
      · obtain rfl := Except.ok.inj h
        simpa using hv
      · cases h
    · split at h
      · cases h
      · obtain rfl := Except.ok.inj h
        simpa using hv
  · split at h
    · split at h
      · obtain rfl := Except.ok.inj h
        simpa using hv
      · cases h
    · cases h

namespace Scope

variable {values : List (String × Term)} {x : String}

/-- In the body of a `let` a name has the sort of its last value. -/
theorem exists_enter_eq (h : x ∈ values.map Prod.fst) :
    ∃ t, (x, t) ∈ values ∧ (σ.enter values).2 x = some t.sort := by
  induction values generalizing σ with
  | nil => cases h
  | cons v values ih =>
    obtain ⟨y, u⟩ := v
    by_cases hx : x ∈ values.map Prod.fst
    · obtain ⟨t, ht, hsort⟩ := ih (σ := σ.assign y u.sort) hx
      exact ⟨t, List.mem_cons_of_mem _ ht, hsort⟩
    · obtain rfl := (List.mem_cons.mp h).resolve_right hx
      exact ⟨u, List.mem_cons_self, (enter_of_notMem hx).trans assign_self⟩

end Scope

theorem mem_bindingSubstitution {values : List (String × Term)} {e : Var × Term} :
    e ∈ bindingSubstitution values ↔ (e.1.name, e.2) ∈ values ∧ e.1.sort = e.2.sort := by
  obtain ⟨⟨x, sort⟩, t⟩ := e
  rw [bindingSubstitution, List.mem_map]
  constructor
  · rintro ⟨⟨y, u⟩, hmem, heq⟩
    obtain ⟨hv, rfl⟩ := Prod.mk.inj heq
    obtain ⟨rfl, rfl⟩ := Var.mk.inj hv
    exact ⟨hmem, rfl⟩
  · rintro ⟨hmem, hsort⟩
    exact ⟨(x, t), hmem, Prod.ext (congrArg (Var.mk x) hsort.symm) rfl⟩

/-- A variable with the name and the sort of a value is replaced in the body of a `let`. -/
theorem mem_keys_of_sort {values : List (String × Term)} (hname : v.name ∈ values.map Prod.fst)
    (hsort : v.sort = (σ.enter values).2.sortOf v.name) :
    v ∈ (bindingSubstitution values).map Prod.fst := by
  obtain ⟨a, ha, hscope⟩ := Scope.exists_enter_eq (σ := σ) hname
  rw [Scope.sortOf, hscope] at hsort
  exact List.mem_map.mpr ⟨(v, a), mem_bindingSubstitution.mpr ⟨ha, hsort⟩, rfl⟩

namespace Form

/-- Arguments are resolved one after the other, so a name has in each of them the sort that it has
before all of them, unless an earlier one declares it again. -/
theorem occurrences_resolveArgs {fs : List Form} {ts : List Term}
    (hfs : ∀ f ∈ fs, ∀ σ t σ', f.resolve p σ = some (t, σ') → v ∈ t.occurrences →
      v.name ∈ f.redeclared ∨ f.isFree v.name = true ∧ v.sort = σ.sortOf v.name)
    (h : resolveArgs p fs σ = some (ts, σ')) (ht : t ∈ ts) (hv : v ∈ t.occurrences) :
    (∃ f ∈ fs, v.name ∈ f.redeclared) ∨
      (∃ f ∈ fs, f.isFree v.name = true) ∧ v.sort = σ.sortOf v.name := by
  induction fs generalizing σ ts with
  | nil =>
    obtain ⟨rfl, -⟩ := Prod.mk.inj (Option.some.inj h)
    cases ht
  | cons f fs ih =>
    obtain ⟨hf, hfs⟩ := List.forall_mem_cons.mp hfs
    obtain ⟨u, σ₁, us, hu, hus, rfl⟩ := resolveArgs_cons.mp h
    by_cases hredeclared : v.name ∈ f.redeclared
    · exact .inl ⟨f, List.mem_cons_self, hredeclared⟩
    rcases List.mem_cons.mp ht with rfl | ht
    · obtain ⟨hfree, hsort⟩ := (hf σ _ σ₁ hu hv).resolve_left hredeclared
      exact .inr ⟨⟨f, List.mem_cons_self, hfree⟩, hsort⟩
    · have hscope : σ₁.sortOf v.name = σ.sortOf v.name := by
        rw [Scope.sortOf, resolve_scope hu hredeclared, Scope.sortOf]
      rcases ih hfs hus ht with ⟨g, hg, hx⟩ | ⟨⟨g, hg, hx⟩, hsort⟩
      · exact .inl ⟨g, List.mem_cons_of_mem _ hg, hx⟩
      · exact .inr ⟨⟨g, List.mem_cons_of_mem _ hg, hx⟩, hsort.trans hscope⟩

/-- A variable of the term that a form stands for is one of a quantifier in the form, or a free name
with the sort that it is in scope with. -/
theorem occurrences_resolve {f : Form} (h : f.resolve p σ = some (t, σ'))
    (hv : v ∈ t.occurrences) :
    v.name ∈ f.redeclared ∨ f.isFree v.name = true ∧ v.sort = σ.sortOf v.name := by
  induction f using structural generalizing σ t σ' v with
  | numeral n =>
    obtain ⟨rfl, -⟩ := Prod.mk.inj (Option.some.inj h)
    cases hv
  | name x =>
    obtain ⟨rfl, -⟩ := Prod.mk.inj (Option.some.inj h)
    obtain rfl := occurrences_nameTerm hv
    exact .inr ⟨isFree_name.mpr rfl, rfl⟩
  | apply f args ih =>
    obtain ⟨ts, hts, ht⟩ := resolve_apply.mp h
    obtain ⟨a, ha, hva⟩ := occurrences_applyName ht hv
    rw [mem_redeclared_apply, isFree_apply]
    exact occurrences_resolveArgs (fun g hg σ t σ' h hv => ih g hg h hv) hts ha hva
  | letIn bindings body ihv ihb =>
    obtain ⟨ts, σ₁, u, σ₂, hts, hu, rfl, -⟩ := resolve_letIn.mp h
    have hnames : ((bindings.map Prod.fst).zip ts).map Prod.fst = bindings.map Prod.fst :=
      List.map_fst_zip (by simp [length_resolveArgs hts])
    rw [mem_redeclared_letIn, isFree_letIn]
    rw [Term.substitute_eq_bind] at hv
    obtain ⟨w, hw, hvw⟩ := Term.mem_occurrences_bind.mp hv
    by_cases hvalues : ∃ b ∈ bindings, v.name ∈ b.2.redeclared
    · exact .inl (.inr (.inl hvalues))
    have hbefore : ∀ f ∈ bindings.map Prod.snd, v.name ∉ f.redeclared :=
      List.forall_mem_map.mpr fun b hb hmem => hvalues ⟨b, hb, hmem⟩
    rcases Substitution.image_cases (bindingSubstitution ((bindings.map Prod.fst).zip ts)) w with
      hmem | ⟨hnot, himage⟩
    · have hvalue := (List.of_mem_zip (mem_bindingSubstitution.mp hmem).1).2
      have hargs := occurrences_resolveArgs (List.forall_mem_map.mpr fun b hb σ t σ' h hv =>
        ihv b hb h hv) hts hvalue hvw
      obtain ⟨⟨f, hf, hx⟩, hsort⟩ := hargs.resolve_left fun ⟨f, hf, hx⟩ => hbefore f hf hx
      obtain ⟨b, hb, rfl⟩ := List.mem_map.mp hf
      exact .inr ⟨.inl ⟨b, hb, hx⟩, hsort⟩
    · rw [himage] at hvw
      obtain rfl := List.mem_singleton.mp hvw
      rcases ihb hu hw with hx | ⟨hfree, hsort⟩
      · exact .inl (.inr (.inr hx))
      by_cases hname : v.name ∈ bindings.map Prod.fst
      · exact absurd (mem_keys_of_sort (by rwa [hnames]) hsort) hnot
      · refine .inr ⟨.inr ⟨hname, hfree⟩, hsort.trans ?_⟩
        rw [Scope.sortOf, Scope.enter_of_notMem (by rwa [hnames]), resolveArgs_frame hts hbefore,
          Scope.sortOf]
  | quantified bound body ih =>
    rw [mem_redeclared_quantified, isFree_quantified]
    by_cases hbound : v.name ∈ bound.map Prod.fst
    · exact .inl (.inl hbound)
    · rcases ih h hv with hx | ⟨hfree, hsort⟩
      · exact .inl (.inr hx)
      · refine .inr ⟨⟨hbound, hfree⟩, hsort.trans ?_⟩
        rw [Scope.sortOf, Scope.declare_of_notMem hbound, Scope.sortOf]

/-- The variables of the term that a form stands for are named in the form. -/
theorem names_of_occurrences {f : Form} (h : f.resolve p σ = some (t, σ'))
    (hv : v ∈ t.occurrences) : v.name ∈ f.names :=
  (occurrences_resolve h hv).elim names_of_redeclared fun hfree => names_of_isFree hfree.1

end Form

end Variables

end HornSaturation.Reader
