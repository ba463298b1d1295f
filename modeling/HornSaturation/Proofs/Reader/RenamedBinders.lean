import HornSaturation.Proofs.Reader.BoundNames

/-!
# Texts with a renamed binder

When one binder of a text gets a new name, the text declares the same relations and states the same
clauses, up to the names of their variables. The relations decide how a command is resolved, the
clauses before it do not; and a command that is not changed adds the same clause as before, unless it
reads a variable with the sort that a quantifier has left behind.
-/

namespace HornSaturation

namespace Reader

section Relations

variable {p p' : Problem}

theorem named?_congr (h : p.relations = p'.relations) (name : String) :
    p.named? name = p'.named? name := by
  rw [Problem.named?, h, Problem.named?]

theorem nameTerm_congr_relations (h : p.relations = p'.relations) (sort : Option BaseSort)
    (x : String) : nameTerm p sort x = nameTerm p' sort x := by
  unfold nameTerm
  rw [named?_congr h]

theorem applyName_congr (h : p.relations = p'.relations) (f : String) (ts : List Term) :
    applyName p f ts = applyName p' f ts := by
  unfold applyName
  rw [named?_congr h]

/-- Of a problem only the relations matter for the forms that are resolved. -/
theorem Form.resolve_congr (h : p.relations = p'.relations) (f : Form) (σ : Scope) :
    f.resolve p σ = f.resolve p' σ := by
  have hargs (fs : List Form) (hfs : ∀ f ∈ fs, ∀ σ, f.resolve p σ = f.resolve p' σ) (σ : Scope) :
      resolveArgs p fs σ = resolveArgs p' fs σ := by
    induction fs generalizing σ with
    | nil => rfl
    | cons f fs ih =>
      obtain ⟨hf, hfs⟩ := List.forall_mem_cons.mp hfs
      simp only [resolveArgs, hf, ih hfs]
  induction f using structural generalizing σ with
  | numeral n => rfl
  | name x => rw [resolve, resolve, nameTerm_congr_relations h]
  | apply f args ih => simp only [resolve, hargs args ih, applyName_congr h]
  | letIn bindings body ihv ihb =>
    simp only [resolve, resolveBindings_eq, ihb,
      hargs _ (List.forall_mem_map.mpr ihv)]
  | quantified bound body ih => exact ih _

end Relations

namespace Command

/-- The names that a command consists of. -/
def names : Command → List String
  | idle => []
  | relation name _ => [name]
  | declare x _ => [x]
  | rule f | query f => f.names
  | emptiness name => [name]

/-- The formula of a rule or of a query is changed. -/
inductive Changes (R : Form → Form → Prop) : Command → Command → Prop
  | rule {f f' : Form} (h : R f f') : Changes R (.rule f) (.rule f')
  | query {f f' : Form} (h : R f f') : Changes R (.query f) (.query f')

/-- Whether commands read a variable with the sort that it has before all of them. -/
def consults (x : String) : List Command → Bool
  | [] => false
  | declare y _ :: cmds => x != y && consults x cmds
  | rule f :: cmds | query f :: cmds => f.isFree x || consults x cmds
  | _ :: cmds => consults x cmds

end Command

section Commands

variable {cmd cmd' : Command} {cmds before after : List Command} {Γ Γ' Δ : Context}
  {ν ν' : String → String → Prop} {x z : String} {π : Equiv.Perm Var}

/-- A command whose formula follows adds the same clause up to names. -/
theorem Command.Changes.perform {R : Form → Form → Prop} (h : cmd.Changes R cmd')
    (hR : ∀ f f', R f f' → cmd.names = f.names → ∃ π : Equiv.Perm Var,
      (∀ v, (π v).sort = v.sort) ∧ Form.Follows Γ.problem ν π f f')
    (hp : Γ.problem.SameUpToNames Γ'.problem) (hσ : Γ.scope.Agree ν Γ'.scope)
    (hΔ : cmd.perform Γ = some Δ) : ∃ Δ', cmd'.perform Γ' = some Δ' ∧
      Δ.problem.SameUpToNames Δ'.problem ∧ Δ.scope.Agree ν Δ'.scope := by
  cases h with
  | @rule f f' h =>
    obtain ⟨⟨t, τ⟩, ht, heq⟩ := Option.bind_eq_some_iff.mp hΔ
    obtain rfl := Option.some.inj heq
    obtain ⟨π, hπ, hfollows⟩ := hR f f' h rfl
    obtain ⟨τ', ht', hτ⟩ := hfollows hσ ht
    rw [Form.resolve_congr hp.relations.symm] at ht'
    exact ⟨_, Option.bind_eq_some_iff.mpr ⟨_, ht', rfl⟩, hp.addFormula hπ t, hτ⟩
  | @query f f' h =>
    obtain ⟨⟨t, τ⟩, ht, heq⟩ := Option.bind_eq_some_iff.mp hΔ
    obtain rfl := Option.some.inj heq
    obtain ⟨π, hπ, hfollows⟩ := hR f f' h rfl
    obtain ⟨τ', ht', hτ⟩ := hfollows hσ ht
    rw [Form.resolve_congr hp.relations.symm] at ht'
    refine ⟨_, Option.bind_eq_some_iff.mpr ⟨_, ht', rfl⟩, ?_, hτ⟩
    exact hp.addClause ⟨π, hπ, Clause.ofBody_rename⟩

theorem Command.Changes.perform_self {f : Form} (hσ : Γ.scope.Agree ν Γ'.scope)
    (hΔ : cmd.perform Γ = some Δ) (hp : Γ.problem.SameUpToNames Γ'.problem)
    (h : cmd.Changes (fun g g' => g = f ∧ g' = f) cmd) (hν : ∀ y y', ν y y' → y = y')
    (hfree : ∀ y, f.isFree y = true → ν y y) : ∃ Δ', cmd.perform Γ' = some Δ' ∧
      Δ.problem.SameUpToNames Δ'.problem ∧ Δ.scope.Agree ν Δ'.scope := by
  refine h.perform ?_ hp hσ hΔ
  rintro _ _ ⟨rfl, rfl⟩ -
  exact ⟨Equiv.refl Var, fun _ => rfl, Form.follows_self hν hfree⟩

/-- Names keep their sorts, apart from a new one, and from one whose sort makes no difference to the
commands that follow. -/
def Consulted (x z : String) (cmds : List Command) (y y' : String) : Prop :=
  y = y' ∧ y ≠ z ∧ (y = x → Command.consults x cmds = true)

/-- A command that is not changed adds the same clause up to names, in scopes that agree on what
matters to it. -/
theorem perform_sameUpToNames (hz : z ∉ cmd.names) (hp : Γ.problem.SameUpToNames Γ'.problem)
    (hσ : Γ.scope.Agree (Consulted x z (cmd :: cmds)) Γ'.scope) (hΔ : cmd.perform Γ = some Δ) :
    ∃ Δ', cmd.perform Γ' = some Δ' ∧ Δ.problem.SameUpToNames Δ'.problem ∧
      Δ.scope.Agree (Consulted x z cmds) Δ'.scope := by
  cases cmd with
  | idle =>
    obtain rfl := Option.some.inj hΔ
    exact ⟨Γ', rfl, hp, hσ⟩
  | relation name sorts =>
    obtain rfl := Option.some.inj hΔ
    exact ⟨_, rfl, hp.declare name sorts, hσ⟩
  | declare y sort =>
    obtain rfl := Option.some.inj hΔ
    refine ⟨_, rfl, hp, ?_⟩
    rintro w _ ⟨rfl, hwz, hwx⟩
    refine Scope.sortOf_assign Iff.rfl (fun _ => rfl) fun hy => hσ w w ⟨rfl, hwz, fun e => ?_⟩
    subst e
    simp [Command.consults, hwx rfl, Ne.symm hy]
  | emptiness name =>
    obtain ⟨r, hr, heq⟩ := Option.bind_eq_some_iff.mp hΔ
    obtain rfl := Option.some.inj heq
    rw [named?_congr hp.relations.symm] at hr
    exact ⟨_, Option.bind_eq_some_iff.mpr ⟨r, hr, rfl⟩, hp.addClause (.refl _), hσ⟩
  | rule f | query f =>
    obtain ⟨Δ', hΔ', hp', hσ'⟩ := Command.Changes.perform_self (f := f) hσ hΔ hp
      (by constructor; exact ⟨rfl, rfl⟩) (fun _ _ hy => hy.1) fun y hy =>
        ⟨rfl, fun e => hz (e ▸ Form.names_of_isFree hy), fun e => by simp [Command.consults, ← e, hy]⟩
    refine ⟨Δ', hΔ', hp', hσ'.mono ?_⟩
    rintro y _ ⟨rfl, hyz, hyx⟩
    exact ⟨rfl, hyz, fun e => by simp [Command.consults, hyx e]⟩

theorem performAll_sameUpToNames (hz : ∀ cmd ∈ cmds, z ∉ cmd.names)
    (hp : Γ.problem.SameUpToNames Γ'.problem)
    (hσ : Γ.scope.Agree (Consulted x z cmds) Γ'.scope) (hΔ : performAll cmds Γ = some Δ) :
    ∃ Δ', performAll cmds Γ' = some Δ' ∧ Δ.problem.SameUpToNames Δ'.problem := by
  induction cmds generalizing Γ Γ' with
  | nil =>
    obtain rfl := Option.some.inj hΔ
    exact ⟨Γ', rfl, hp⟩
  | cons cmd cmds ih =>
    obtain ⟨hcmd, hcmds⟩ := List.forall_mem_cons.mp hz
    obtain ⟨Γ₁, hΓ₁, hΔ⟩ := Option.bind_eq_some_iff.mp hΔ
    obtain ⟨Γ₁', hΓ₁', hp₁, hσ₁⟩ := perform_sameUpToNames hcmd hp hσ hΓ₁
    obtain ⟨Δ', hΔ', hsame⟩ := ih hcmds hp₁ hσ₁ hΔ
    exact ⟨Δ', Option.bind_eq_some_iff.mpr ⟨Γ₁', hΓ₁', hΔ'⟩, hsame⟩

/-- The relations of a problem are those that its commands declare. -/
theorem relation_of_performAll (h : performAll cmds Γ = some Δ) {r : Relation}
    (hr : r ∈ Δ.problem.relations) :
    r ∈ Γ.problem.relations ∨ .relation r.name r.sorts ∈ cmds := by
  induction cmds generalizing Γ with
  | nil =>
    obtain rfl := Option.some.inj h
    exact .inl hr
  | cons cmd cmds ih =>
    obtain ⟨Γ₁, hΓ₁, h⟩ := Option.bind_eq_some_iff.mp h
    refine (ih h).elim (fun hr₁ => ?_) fun hmem => .inr (List.mem_cons_of_mem _ hmem)
    cases cmd with
    | idle | declare x sort =>
      obtain rfl := Option.some.inj hΓ₁
      exact .inl hr₁
    | relation name sorts =>
      obtain rfl := Option.some.inj hΓ₁
      rcases List.mem_append.mp hr₁ with hr₁ | hr₁
      · exact .inl hr₁
      · obtain rfl := List.mem_singleton.mp hr₁
        exact .inr List.mem_cons_self
    | rule f =>
      obtain ⟨⟨t, τ⟩, -, heq⟩ := Option.bind_eq_some_iff.mp hΓ₁
      obtain rfl := Option.some.inj heq
      refine .inl ?_
      cases hc : Clause.ofFormula? t <;> simpa [hc, Problem.addClause] using hr₁
    | query f =>
      obtain ⟨⟨t, τ⟩, -, heq⟩ := Option.bind_eq_some_iff.mp hΓ₁
      obtain rfl := Option.some.inj heq
      exact .inl hr₁
    | emptiness name =>
      obtain ⟨s, -, heq⟩ := Option.bind_eq_some_iff.mp hΓ₁
      obtain rfl := Option.some.inj heq
      exact .inl hr₁

end Commands

section Texts

variable {text text' : String} {p : Problem} {before after : List Command} {cmd cmd' : Command}
  {x z : String}

/-- A binder in one command gets a new name. The variable of a quantifier keeps its sort behind the
quantifier, so commands that read the old name with this sort must find the same sort without it. -/
inductive RenamesBinder (x z : String) (before after : List Command) (cmd cmd' : Command) : Prop
  | letName (h : cmd.Changes (Form.Changes (Form.RenamesLet x z) []) cmd')
  | quantified (h : cmd.Changes (Form.Changes (Form.RenamesQuantifier x z) [x]) cmd')
      (hbehind : Command.consults x after = true → ∀ Γ Γ',
        performAll (before ++ [cmd]) {} = some Γ → performAll (before ++ [cmd']) {} = some Γ' →
          Γ.scope.sortOf x = Γ'.scope.sortOf x)

/-- A name stands for a variable behind commands that declare no relation of this name, or none
without arguments. -/
theorem nameTerm_of_performAll {Γ : Context} (h : performAll before {} = some Γ)
    (htrue : x ≠ "true") (hfalse : x ≠ "false") (hrelation : .relation x [] ∉ before)
    (sort : Option BaseSort) : nameTerm Γ.problem sort x = .var ⟨x, sort.getD .int⟩ := by
  refine Form.nameTerm_eq_var htrue hfalse (fun r hr hsorts => hrelation ?_) sort
  have hname : r.name = x := by simpa using List.find?_some hr
  have hmem : r ∈ Γ.problem.relations := List.mem_reverse.mp (List.mem_of_find?_eq_some hr)
  have hdeclared := (relation_of_performAll h hmem).resolve_left List.not_mem_nil
  rwa [hname, hsorts] at hdeclared

/-- The renamed command adds the same clause up to names, and leaves names with the same sorts behind
as far as these matter. -/
theorem RenamesBinder.perform {Γ Δ : Context} (h : RenamesBinder x z before after cmd cmd')
    (hx : ∀ sort, nameTerm Γ.problem sort x = .var ⟨x, sort.getD .int⟩)
    (hz : ∀ sort, nameTerm Γ.problem sort z = .var ⟨z, sort.getD .int⟩) (hfresh : z ∉ cmd.names)
    (hΓ : performAll before {} = some Γ) (hΔ : cmd.perform Γ = some Δ) :
    ∃ Δ', cmd'.perform Γ = some Δ' ∧ Δ.problem.SameUpToNames Δ'.problem ∧
      Δ.scope.Agree (Consulted x z after) Δ'.scope := by
  have hself (names : List String) : Γ.scope.Agree (Form.Unmoved names) Γ.scope := by
    rintro y _ ⟨rfl, -⟩
    rfl
  cases h with
  | letName h =>
    have hR : ∀ f f', Form.Changes (Form.RenamesLet x z) [] f f' → cmd.names = f.names →
        ∃ π : Equiv.Perm Var, (∀ v, (π v).sort = v.sort) ∧
          Form.Follows Γ.problem (Form.Unmoved [z]) π f f' := by
      intro f f' hf hnames
      obtain ⟨π, hπ, hfollows⟩ := hf.follows (fun g g' hg hzg =>
        ⟨Equiv.refl Var, ⟨fun _ => rfl, fun _ _ => rfl⟩, hg.follows hx hz hzg⟩) (hnames ▸ hfresh)
      exact ⟨π, hπ.sort, hfollows⟩
    obtain ⟨Δ', hΔ', hp, hσ⟩ := h.perform hR (.refl _) (hself _) hΔ
    refine ⟨Δ', hΔ', hp, hσ.mono ?_⟩
    rintro y _ ⟨rfl, hyz, -⟩
    exact ⟨rfl, fun hmoved => hyz (List.mem_singleton.mp hmoved)⟩
  | quantified h hbehind =>
    have hR : ∀ f f', Form.Changes (Form.RenamesQuantifier x z) [x] f f' → cmd.names = f.names →
        ∃ π : Equiv.Perm Var, (∀ v, (π v).sort = v.sort) ∧
          Form.Follows Γ.problem (Form.Unmoved [z, x]) π f f' := by
      intro f f' hf hnames
      obtain ⟨π, hπ, hfollows⟩ := hf.follows (fun g g' hg => hg.follows hx hz) (hnames ▸ hfresh)
      exact ⟨π, hπ.sort, hfollows⟩
    obtain ⟨Δ', hΔ', hp, hσ⟩ := h.perform hR (.refl _) (hself _) hΔ
    refine ⟨Δ', hΔ', hp, ?_⟩
    rintro y _ ⟨rfl, hyz, hyx⟩
    by_cases hy : y = x
    · subst hy
      refine hbehind (hyx rfl) Δ Δ' ?_ ?_
      · simp [performAll_append, performAll, hΓ, hΔ]
      · simp [performAll_append, performAll, hΓ, hΔ']
    · exact hσ y y ⟨rfl, by simp [hyz, hy]⟩

/-- A new name for a binder makes no difference to the problem that a text states, up to the names of
variables. -/
theorem read_renamesBinder (h : Problem.read text = .ok p)
    (htext : Consists (.start text) (before ++ cmd :: after))
    (htext' : Consists (.start text') (before ++ cmd' :: after))
    (hbinder : RenamesBinder x z before after cmd cmd')
    (hx : x ≠ "true" ∧ x ≠ "false" ∧ .relation x [] ∉ before)
    (hz : z ≠ "true" ∧ z ≠ "false" ∧ ∀ c ∈ before ++ cmd :: after, z ∉ c.names) :
    ∃ p', Problem.read text' = .ok p' ∧ p'.relations = p.relations ∧
      List.Forall₂ Clause.SameUpToNames p.clauses p'.clauses := by
  obtain ⟨cmds, Δ, hcmds, hperform, rfl⟩ := read_eq_ok_iff.mp h
  obtain rfl := hcmds.unique htext
  obtain ⟨hztrue, hzfalse, hfresh⟩ := hz
  obtain ⟨hbefore, hfresh⟩ := List.forall_mem_append.mp hfresh
  obtain ⟨hcmd, hafter⟩ := List.forall_mem_cons.mp hfresh
  rw [performAll_append] at hperform
  obtain ⟨Γ, hΓ, hperform⟩ := Option.bind_eq_some_iff.mp hperform
  obtain ⟨Γ₁, hΓ₁, hperform⟩ := Option.bind_eq_some_iff.mp hperform
  have hxvar := nameTerm_of_performAll hΓ hx.1 hx.2.1 hx.2.2
  have hzvar := nameTerm_of_performAll hΓ hztrue hzfalse fun hmem =>
    hbefore _ hmem (List.mem_singleton.mpr rfl)
  obtain ⟨Γ₁', hΓ₁', hp, hσ⟩ := hbinder.perform hxvar hzvar hcmd hΓ hΓ₁
  obtain ⟨Δ', hΔ', hsame⟩ := performAll_sameUpToNames hafter hp hσ hperform
  refine ⟨Δ'.problem, read_eq_ok_iff.mpr ⟨_, Δ', htext', ?_, rfl⟩, hsame.relations, hsame.clauses⟩
  rw [performAll_append, hΓ]
  change performAll (cmd' :: after) Γ = some Δ'
  exact Option.bind_eq_some_iff.mpr ⟨Γ₁', hΓ₁', hΔ'⟩

/-- The quantifier of a rule is renamed; in its scope a `let` shadows the old name, and the query
behind the rule uses the name again. -/
theorem read_renamesBinder_shadowed :
    ∃ p', Problem.read ("(declare-rel P (Int))(rule (forall ((z Int)) " ++
        "(=> (P z) (let ((x 1)) (P x)))))(query (exists ((x Int)) (P x)))") = .ok p' ∧
      p'.relations = [⟨0, "P", [.int]⟩] ∧
      List.Forall₂ Clause.SameUpToNames
        [⟨[⟨0, [.var ⟨"x", .int⟩]⟩], none, some ⟨0, [.int 1]⟩⟩,
          ⟨[⟨0, [.var ⟨"x", .int⟩]⟩], none, none⟩] p'.clauses := by
  have hread : Problem.read ("(declare-rel P (Int))(rule (forall ((x Int)) " ++
        "(=> (P x) (let ((x 1)) (P x)))))(query (exists ((x Int)) (P x)))") =
      .ok ⟨[⟨0, "P", [.int]⟩], [⟨[⟨0, [.var ⟨"x", .int⟩]⟩], none, some ⟨0, [.int 1]⟩⟩,
        ⟨[⟨0, [.var ⟨"x", .int⟩]⟩], none, none⟩]⟩ := by cbv
  have hparse (x : String) (text : String) (hlen : text.toList.length ≤ 120)
      (hcommands : ∃ c, commandsWithin 120 (.start text) = some ([.relation "P" [.int],
        .rule (.quantified [(x, .int)] (.apply "=>" [.apply "P" [.name x],
          .letIn [("x", .numeral 1)] (.apply "P" [.name "x"])])),
        .query (.quantified [("x", .int)] (.apply "P" [.name "x"]))], c)) :
      Consists (.start text) ([.relation "P" [.int]] ++
        .rule (.quantified [(x, .int)] (.apply "=>" [.apply "P" [.name x],
          .letIn [("x", .numeral 1)] (.apply "P" [.name "x"])])) ::
        [.query (.quantified [("x", .int)] (.apply "P" [.name "x"]))]) :=
    (exists_commandsWithin_iff hlen).mp hcommands
  have hbinder : Form.RenamesQuantifier "x" "z"
      (.quantified [("x", .int)] (.apply "=>" [.apply "P" [.name "x"],
        .letIn [("x", .numeral 1)] (.apply "P" [.name "x"])]))
      (.quantified [("z", .int)] (.apply "=>" [.apply "P" [.name "z"],
        .letIn [("x", .numeral 1)] (.apply "P" [.name "x"])])) :=
    .intro [] .int [] _ (by simp) fun _ => by simp
  exact read_renamesBinder (z := "z") hread (hparse "x" _ (by decide) ⟨⟨[], 109⟩, by cbv⟩)
    (hparse "z" _ (by decide) ⟨⟨[], 109⟩, by cbv⟩)
    (.quantified (.rule (.here hbinder)) fun h => absurd h (by decide))
    (by simp) (by simp [Command.names])

/-- Two quantifiers side by side share their variable, since each leaves it behind under its name.
With a new name for one of them the clause asks for two numbers and not for one. -/
theorem read_sibling_quantifiers :
    ∃ cmd cmd' p p', cmd.Changes (Form.Changes (Form.RenamesQuantifier "x" "z") []) cmd' ∧
      (∀ c ∈ [.relation "P" [.int], cmd], "z" ∉ Command.names c) ∧
      Consists (.start ("(declare-rel P (Int))(query (and (exists ((x Int)) (P x)) " ++
        "(exists ((x Int)) (P x))))")) [.relation "P" [.int], cmd] ∧
      Consists (.start ("(declare-rel P (Int))(query (and (exists ((x Int)) (P x)) " ++
        "(exists ((z Int)) (P z))))")) [.relation "P" [.int], cmd'] ∧
      Problem.read ("(declare-rel P (Int))(query (and (exists ((x Int)) (P x)) " ++
        "(exists ((x Int)) (P x))))") = .ok p ∧
      Problem.read ("(declare-rel P (Int))(query (and (exists ((x Int)) (P x)) " ++
        "(exists ((z Int)) (P z))))") = .ok p' ∧
      ¬ List.Forall₂ Clause.SameUpToNames p.clauses p'.clauses := by
  have hbinder : Form.RenamesQuantifier "x" "z"
      (.quantified [("x", .int)] (.apply "P" [.name "x"]))
      (.quantified [("z", .int)] (.apply "P" [.name "z"])) :=
    .intro [] .int [] _ (by simp) fun _ => by simp
  have hplace : Form.Changes (Form.RenamesQuantifier "x" "z") [] _ _ := .argument "and"
    [.quantified [("x", .int)] (.apply "P" [.name "x"])] [] (by simp) (.here hbinder)
  refine ⟨_, _, ⟨[⟨0, "P", [.int]⟩],
      [⟨[⟨0, [.var ⟨"x", .int⟩]⟩, ⟨0, [.var ⟨"x", .int⟩]⟩], none, none⟩]⟩,
    ⟨[⟨0, "P", [.int]⟩], [⟨[⟨0, [.var ⟨"x", .int⟩]⟩, ⟨0, [.var ⟨"z", .int⟩]⟩], none, none⟩]⟩,
    .query hplace, by simp [Command.names], ?_, ?_, by cbv, by cbv, ?_⟩
  · exact (exists_commandsWithin_iff (n := 90) (by decide)).mp ⟨⟨[], 84⟩, by cbv⟩
  · exact (exists_commandsWithin_iff (n := 90) (by decide)).mp ⟨⟨[], 84⟩, by cbv⟩
  · intro h
    obtain ⟨π, -, hclause⟩ := (List.forall₂_cons.mp h).1
    have hvars : (⟨"x", .int⟩ : Var) = π ⟨"x", .int⟩ ∧ (⟨"z", .int⟩ : Var) = π ⟨"x", .int⟩ := by
      simpa [Clause.rename, Application.rename] using hclause
    exact absurd (hvars.1.trans hvars.2.symm) (by decide)

end Texts

end Reader

end HornSaturation
