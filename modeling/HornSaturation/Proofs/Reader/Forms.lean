import HornSaturation.Proofs.Reader.Syntax

/-!
# Forms by structure

Resolving goes through the arguments of a form and the values of a `let` in the same way, so that
one induction over forms with a hypothesis for every part serves all proofs. Resolving a form leaves
the sorts of variables as they were, apart from those of quantified variables and of names that one
`let` lists twice.
-/

namespace HornSaturation.Reader

namespace Form

/-- Induction over forms, with the property for all parts of a form. -/
@[elab_as_elim]
theorem structural {P : Form → Prop} (numeral : ∀ n, P (.numeral n)) (name : ∀ x, P (.name x))
    (apply : ∀ f args, (∀ g ∈ args, P g) → P (.apply f args))
    (letIn : ∀ bindings body, (∀ b ∈ bindings, P b.2) → P body → P (.letIn bindings body))
    (quantified : ∀ bound body, P body → P (.quantified bound body)) (f : Form) : P f :=
  Form.rec (motive_1 := P) (motive_2 := fun fs => ∀ g ∈ fs, P g)
    (motive_3 := fun bs => ∀ b ∈ bs, P b.2) (motive_4 := fun b => P b.2) numeral name
    (fun f args h => apply f args h) (fun bindings body h => letIn bindings body h)
    (fun bound body h => quantified bound body h) (fun _ h => absurd h List.not_mem_nil)
    (fun _ _ hf hfs g hg => (List.mem_cons.mp hg).elim (fun e => e ▸ hf) (hfs g))
    (fun _ h => absurd h List.not_mem_nil)
    (fun _ _ hb hbs b hb' => (List.mem_cons.mp hb').elim (fun e => e ▸ hb) (hbs b))
    (fun _ _ hf => hf) f

section Names

/-- The parts of a form. -/
def parts : Form → List Form
  | numeral _ | name _ => []
  | apply _ args => args
  | letIn bindings body => bindings.map Prod.snd ++ [body]
  | quantified _ body => [body]

mutual
/-- What a form and the forms inside it contribute. -/
def collect (own : Form → List String) : Form → List String
  | numeral n => own (.numeral n)
  | name x => own (.name x)
  | apply f args => own (.apply f args) ++ collectArgs own args
  | letIn bindings body =>
    own (.letIn bindings body) ++ (collectBindings own bindings ++ collect own body)
  | quantified bound body => own (.quantified bound body) ++ collect own body
/-- What the forms of a list contribute. -/
def collectArgs (own : Form → List String) : List Form → List String
  | [] => []
  | f :: fs => collect own f ++ collectArgs own fs
/-- What the values of a `let` contribute. -/
def collectBindings (own : Form → List String) : List (String × Form) → List String
  | [] => []
  | (_, f) :: bindings => collect own f ++ collectBindings own bindings
end

theorem mem_collect {own : Form → List String} {f : Form} {x : String} :
    x ∈ f.collect own ↔ x ∈ own f ∨ ∃ g ∈ f.parts, x ∈ g.collect own := by
  have hargs (fs : List Form) : collectArgs own fs = fs.flatMap (collect own) := by
    induction fs with
    | nil => rfl
    | cons f fs ih => rw [collectArgs, ih, List.flatMap_cons]
  have hbindings (bs : List (String × Form)) :
      collectBindings own bs = (bs.map Prod.snd).flatMap (collect own) := by
    induction bs with
    | nil => rfl
    | cons b bs ih => rw [collectBindings, ih, List.map_cons, List.flatMap_cons]
  cases f with
  | numeral n => simp [collect, parts]
  | name x => simp [collect, parts]
  | apply f args => simp [collect, parts, hargs]
  | letIn bindings body => simp [collect, parts, hbindings, or_and_right, exists_or]
  | quantified bound body => simp [collect, parts]

theorem exists_parts_letIn {P : Form → Prop} {bindings : List (String × Form)} {body : Form} :
    (∃ g ∈ (letIn bindings body).parts, P g) ↔ (∃ b ∈ bindings, P b.2) ∨ P body := by
  rw [parts]
  constructor
  · rintro ⟨g, hg, hP⟩
    rcases List.mem_append.mp hg with hg | hg
    · obtain ⟨b, hb, rfl⟩ := List.mem_map.mp hg
      exact .inl ⟨b, hb, hP⟩
    · exact .inr (List.mem_singleton.mp hg ▸ hP)
  · rintro (⟨b, hb, hP⟩ | hP)
    · exact ⟨b.2, List.mem_append_left _ (List.mem_map_of_mem hb), hP⟩
    · exact ⟨body, by simp, hP⟩

/-- The names in the outermost construct of a form. -/
def ownNames : Form → List String
  | numeral _ => []
  | name x => [x]
  | apply f _ => [f]
  | letIn bindings _ => bindings.map Prod.fst
  | quantified bound _ => bound.map Prod.fst

/-- The names that a form consists of. -/
def names : Form → List String := collect ownNames

/-- The names that the outermost construct of a form may leave with another sort. -/
def ownRedeclared : Form → List String
  | letIn bindings _ =>
    (bindings.map Prod.fst).filter fun x => 1 < (bindings.map Prod.fst).count x
  | quantified bound _ => bound.map Prod.fst
  | _ => []

/-- The names that may have another sort after a form: quantified variables, and names that one
`let` lists twice. -/
def redeclared : Form → List String := collect ownRedeclared

variable {x y f : String} {args : List Form} {bindings : List (String × Form)} {body : Form}
  {bound : List (String × BaseSort)} {n : Int}

theorem mem_names {f : Form} : x ∈ f.names ↔ x ∈ f.ownNames ∨ ∃ g ∈ f.parts, x ∈ g.names :=
  mem_collect

theorem mem_redeclared {f : Form} :
    x ∈ f.redeclared ↔ x ∈ f.ownRedeclared ∨ ∃ g ∈ f.parts, x ∈ g.redeclared := mem_collect

@[simp] theorem notMem_names_numeral : x ∉ (numeral n).names := by
  rw [mem_names]
  simp [ownNames, parts]

@[simp] theorem mem_names_name : x ∈ (name y).names ↔ x = y := by
  rw [mem_names]
  simp [ownNames, parts]

@[simp] theorem mem_names_apply :
    x ∈ (apply f args).names ↔ x = f ∨ ∃ g ∈ args, x ∈ g.names := by
  rw [mem_names]
  simp [ownNames, parts]

@[simp] theorem mem_names_letIn : x ∈ (letIn bindings body).names ↔
    x ∈ bindings.map Prod.fst ∨ (∃ b ∈ bindings, x ∈ b.2.names) ∨ x ∈ body.names := by
  rw [mem_names, exists_parts_letIn]
  rfl

@[simp] theorem mem_names_quantified :
    x ∈ (quantified bound body).names ↔ x ∈ bound.map Prod.fst ∨ x ∈ body.names := by
  rw [mem_names]
  simp [ownNames, parts]

@[simp] theorem notMem_redeclared_numeral : x ∉ (numeral n).redeclared := by
  rw [mem_redeclared]
  simp [ownRedeclared, parts]

@[simp] theorem notMem_redeclared_name : x ∉ (name y).redeclared := by
  rw [mem_redeclared]
  simp [ownRedeclared, parts]

@[simp] theorem mem_redeclared_apply :
    x ∈ (apply f args).redeclared ↔ ∃ g ∈ args, x ∈ g.redeclared := by
  rw [mem_redeclared]
  simp [ownRedeclared, parts]

@[simp] theorem mem_redeclared_letIn : x ∈ (letIn bindings body).redeclared ↔
    1 < (bindings.map Prod.fst).count x ∨ (∃ b ∈ bindings, x ∈ b.2.redeclared) ∨
      x ∈ body.redeclared := by
  rw [mem_redeclared, exists_parts_letIn, ownRedeclared, List.mem_filter, decide_eq_true_iff]
  refine or_congr_left (and_iff_right_of_imp fun h => List.count_pos_iff.mp ?_)
  omega

@[simp] theorem mem_redeclared_quantified :
    x ∈ (quantified bound body).redeclared ↔ x ∈ bound.map Prod.fst ∨ x ∈ body.redeclared := by
  rw [mem_redeclared]
  simp [ownRedeclared, parts]

/-- What is redeclared is named. -/
theorem names_of_redeclared {f : Form} (h : x ∈ f.redeclared) : x ∈ f.names := by
  induction f using structural with
  | numeral n => exact absurd h notMem_redeclared_numeral
  | name y => exact absurd h notMem_redeclared_name
  | apply f args ih =>
    obtain ⟨g, hg, hx⟩ := mem_redeclared_apply.mp h
    exact mem_names_apply.mpr (.inr ⟨g, hg, ih g hg hx⟩)
  | letIn bindings body ihv ihb =>
    rcases mem_redeclared_letIn.mp h with hcount | ⟨b, hb, hx⟩ | hx
    · exact mem_names_letIn.mpr (.inl (List.count_pos_iff.mp (by omega)))
    · exact mem_names_letIn.mpr (.inr (.inl ⟨b, hb, ihv b hb hx⟩))
    · exact mem_names_letIn.mpr (.inr (.inr (ihb hx)))
  | quantified bound body ih =>
    exact mem_names_quantified.mpr ((mem_redeclared_quantified.mp h).imp_right ih)

end Names

section Resolving

variable {p : Problem}

/-- A name stands for a variable if it is no constant and no relation without arguments. -/
theorem nameTerm_eq_var {x : String} (htrue : x ≠ "true") (hfalse : x ≠ "false")
    (hrelation : ∀ r ∈ p.named? x, r.sorts ≠ []) (sort : Option BaseSort) :
    nameTerm p sort x = .var ⟨x, sort.getD .int⟩ := by
  unfold nameTerm
  split
  · exact absurd rfl htrue
  · exact absurd rfl hfalse
  · split
    · next hr => exact absurd rfl (hrelation _ hr)
    · rfl

theorem toOption_eq_some {x : Except Error Term} {t : Term} :
    x.toOption = some t ↔ x = .ok t := by
  cases x <;> simp [Except.toOption]

variable {σ σ' : Scope} {t : Term} {ts : List Term}

theorem resolveArgs_cons {f : Form} {fs : List Form} :
    resolveArgs p (f :: fs) σ = some (ts, σ') ↔ ∃ t σ₁ us, f.resolve p σ = some (t, σ₁) ∧
      resolveArgs p fs σ₁ = some (us, σ') ∧ ts = t :: us := by
  simp only [resolveArgs, Option.bind_eq_bind, Option.bind_eq_some_iff, Prod.exists]
  constructor
  · rintro ⟨t, σ₁, ht, us, σ₂, hus, heq⟩
    obtain ⟨rfl, rfl⟩ := Prod.mk.inj (Option.some.inj heq)
    exact ⟨t, σ₁, us, ht, hus, rfl⟩
  · rintro ⟨t, σ₁, us, ht, hus, rfl⟩
    exact ⟨t, σ₁, ht, us, σ', hus, rfl⟩

theorem length_resolveArgs {fs : List Form} (h : resolveArgs p fs σ = some (ts, σ')) :
    ts.length = fs.length := by
  induction fs generalizing σ ts with
  | nil =>
    obtain ⟨rfl, -⟩ := Prod.mk.inj (Option.some.inj h)
    rfl
  | cons f fs ih =>
    obtain ⟨t, σ₁, us, -, hus, rfl⟩ := resolveArgs_cons.mp h
    rw [List.length_cons, List.length_cons, ih hus]

/-- The values of a `let` are resolved like arguments. -/
theorem resolveBindings_eq (bindings : List (String × Form)) (σ : Scope) :
    resolveBindings p bindings σ = (resolveArgs p (bindings.map Prod.snd) σ).map fun r =>
      ((bindings.map Prod.fst).zip r.1, r.2) := by
  induction bindings generalizing σ with
  | nil => rfl
  | cons b bindings ih =>
    obtain ⟨x, f⟩ := b
    simp only [resolveBindings, List.map_cons, resolveArgs]
    cases f.resolve p σ with
    | none => rfl
    | some r =>
      obtain ⟨t, σ₁⟩ := r
      simp only [Option.bind_eq_bind, Option.bind_some, ih]
      cases resolveArgs p (bindings.map Prod.snd) σ₁ <;> rfl

theorem resolve_apply {f : String} {args : List Form} :
    (apply f args).resolve p σ = some (t, σ') ↔
      ∃ ts, resolveArgs p args σ = some (ts, σ') ∧ applyName p f ts = .ok t := by
  simp only [resolve, Option.bind_eq_bind, Option.bind_eq_some_iff, Prod.exists]
  constructor
  · rintro ⟨ts, σ₁, hts, u, hu, heq⟩
    obtain ⟨rfl, rfl⟩ := Prod.mk.inj (Option.some.inj heq)
    exact ⟨ts, hts, toOption_eq_some.mp hu⟩
  · rintro ⟨ts, hts, hu⟩
    exact ⟨ts, σ', hts, t, toOption_eq_some.mpr hu, rfl⟩

/-- A `let` is resolved by resolving its values, then its body in their scope, and by putting the
values into the body. -/
theorem resolve_letIn {bindings : List (String × Form)} {body : Form} :
    (letIn bindings body).resolve p σ = some (t, σ') ↔ ∃ ts σ₁ u σ₂,
      resolveArgs p (bindings.map Prod.snd) σ = some (ts, σ₁) ∧
      body.resolve p (σ₁.enter ((bindings.map Prod.fst).zip ts)).2 = some (u, σ₂) ∧
      t = u.substitute (bindingSubstitution ((bindings.map Prod.fst).zip ts)) ∧
      σ' = σ₂.leave (σ₁.enter ((bindings.map Prod.fst).zip ts)).1 := by
  simp only [resolve, resolveBindings_eq, Option.bind_eq_bind, Option.bind_eq_some_iff,
    Option.map_eq_some_iff, Prod.exists]
  constructor
  · rintro ⟨_, _, ⟨ts, σ₁, hts, heq⟩, u, σ₂, hu, heq'⟩
    obtain ⟨rfl, rfl⟩ := Prod.mk.inj heq
    obtain ⟨rfl, rfl⟩ := Prod.mk.inj (Option.some.inj heq')
    exact ⟨ts, σ₁, u, σ₂, hts, hu, rfl, rfl⟩
  · rintro ⟨ts, σ₁, u, σ₂, hts, hu, rfl, rfl⟩
    exact ⟨_, σ₁, ⟨ts, σ₁, hts, rfl⟩, u, σ₂, hu, rfl⟩

end Resolving

end Form

end HornSaturation.Reader
