import HornSaturation.Proofs.Oracle.Scopes
import HornSaturation.Refutation.Check

/-!
# Refutations in scopes

Reconstructing and checking a refutation gather the formulas of a step before they ask for a model.
It comes to the same if a scope is opened first and the formulas are asserted one after the other as
they are found, so that the scope may have to be closed in the middle of it, because something is
missing or does not fit.
-/

namespace HornSaturation.Refutation

variable {store : Store} {p : NormalizedProblem} {relations : List Relation}
  {clause : NormalizedClause} {r : Refutation} {w : Workspace}

/-- Asserts the constraints of stored units as they are used at consecutive body positions. -/
def assertInstances (store : Store) (relations : List Relation) (clause : NormalizedClause)
    (position : Nat) : List UnitId → Working Unit
  | [] => return
  | id :: ids => do
    let u ← storedUnit store id
    let (_, t) ← Working.allocate (electronInstance relations clause position u)
    Working.assert t
    assertInstances store relations clause (position + 1) ids

/-- Expands a node in a scope of its own. -/
def expandInScope (store : Store) (relations : List Relation) (clause : NormalizedClause)
    (headArguments : List Var) (electrons : List UnitId) (drafts : List Draft) (i : Nat) :
    Working (List Draft) := Working.inScope do
  Working.assert clause.constraint
  let values := ((drafts[i]?).map (·.node.atom.args)).getD []
  (equations headArguments values).forM Working.assert
  assertInstances store relations clause 0 electrons
  let answer ← Working.ask Oracle.check
  if answer ≠ .sat then throw (.internal (.notReproducible clause.index answer))
  let (children, drafts) ← placeChildren store relations clause 0 electrons drafts
  return setChildren drafts i children

/-- Asserting the constraints of stored units is gathering them and asserting them, except that some
may have been asserted before it fails. -/
theorem ensures_assertInstances {ids : List UnitId} {position : Nat}
    {ok : Unit → Workspace → Prop} {fail : Error → Workspace → Prop}
    (h : Ensures (storedInstances store relations clause position ids) w.symbols
      (fun ts s => ok () ⟨ts.foldl Oracle.assert w.oracle, s⟩)
      fun e s => ∀ ts : List Term, fail e ⟨ts.foldl Oracle.assert w.oracle, s⟩) :
    Ensures (assertInstances store relations clause position ids) w ok fail := by
  induction ids generalizing position w with
  | nil => exact h
  | cons id ids ih =>
    unfold storedInstances at h
    unfold assertInstances
    simp only [ensures_bind, ensures_liftM, ensures_allocate, ensures_pure,
      Working.ensures_assert] at h ⊢
    refine ⟨fun u hu => ?_, fun e he => h.2 e he []⟩
    refine (h.1 u hu).mono (fun t s h => ih ?_) fun e s h => h []
    exact h.mono (fun ts s h => h) fun e s h ts => h (t.2 :: ts)

/-- A step that does the same within a scope as after the scope has been closed. -/
def IgnoresScope {α : Type} (step : Working α) : Prop :=
  ∀ w (ok : α → Workspace → Prop) (fail : Error → Workspace → Prop),
    Ensures step { w with oracle := w.oracle.pop } ok fail →
      Ensures step w (fun a w' => ok a { w' with oracle := w'.oracle.pop })
        fun e w' => fail e { w' with oracle := w'.oracle.pop }

namespace IgnoresScope

variable {α β : Type}

theorem pure (a : α) : IgnoresScope (Pure.pure a) := fun _ _ _ h => h

theorem throw (e : Error) : IgnoresScope (MonadExcept.throw e : Working α) := fun _ _ _ h => h

theorem lift (x : Except Error α) : IgnoresScope (liftM x) := fun _ _ _ h =>
  ensures_liftM.mpr (ensures_liftM.mp h)

theorem bind {step : Working α} {f : α → Working β} (hstep : IgnoresScope step)
    (hf : ∀ a, IgnoresScope (f a)) : IgnoresScope (step >>= f) := by
  intro w ok fail h
  rw [ensures_bind] at h ⊢
  exact (hstep w _ _ h).mono (fun a w' => hf a w' ok fail) fun _ _ h => h

end IgnoresScope

/-- Values are read off the model, whatever is asserted. -/
theorem readValues_ignoresScope (vs : List Var) : IgnoresScope (readValues vs) := by
  induction vs with
  | nil => exact .pure []
  | cons v vs ih =>
    intro w ok fail h
    unfold readValues at h ⊢
    simp only [ensures_bind, ensures_get, Oracle.eval_pop] at h ⊢
    split at h
    · simp only [ensures_bind, ensures_pure] at h ⊢
      exact ih w _ _ h
    · exact h

theorem placeChildren_ignoresScope (ids : List UnitId) (position : Nat) (drafts : List Draft) :
    IgnoresScope (placeChildren store relations clause position ids drafts) := by
  induction ids generalizing position drafts with
  | nil => exact .pure _
  | cons id ids ih =>
    refine .bind (.lift _) fun vars => .bind (readValues_ignoresScope vars) fun values => ?_
    split
    · exact .bind (ih _ _) fun _ => .pure _
    · exact .throw _

/-- Expanding a node is expanding it in a scope of its own. -/
theorem expandNode_eq_inScope (headArguments : List Var) (electrons : List UnitId)
    (drafts : List Draft) (i : Nat) :
    expandNode store relations clause headArguments electrons drafts i =
      expandInScope store relations clause headArguments electrons drafts i := by
  refine (Working.eq_of_ensures fun w ok fail h => ?_).symm
  unfold expandNode at h
  simp only [ensures_bind, ensures_allocate, ensures_workspace_ask] at h
  unfold expandInScope
  simp only [Working.ensures_inScope, ensures_bind, Working.ensures_assert,
    Working.ensures_forM_assert]
  set head := equations headArguments (((drafts[i]?).map (·.node.atom.args)).getD [])
  have hasserted (ts : List Term) : ts.foldl Oracle.assert
      (head.foldl Oracle.assert (w.oracle.push.assert clause.constraint)) =
        (clause.constraint :: (head ++ ts)).foldl Oracle.assert w.oracle.push := by
    rw [List.foldl_cons, List.foldl_append]
  refine ensures_assertInstances (h.mono (fun ts s h => ?_) fun e s h ts => ?_)
  · simp only [ensures_workspace_ask, hasserted]
    rw [Oracle.checkWith_eq_pop] at h
    generalize ((clause.constraint :: (head ++ ts)).foldl Oracle.assert w.oracle.push).check =
      result at h ⊢
    have hplace : IgnoresScope (do
        let (children, drafts) ← placeChildren store relations clause 0 electrons drafts
        return setChildren drafts i children) :=
      .bind (placeChildren_ignoresScope _ _ _) fun _ => .pure _
    split at h
    · next hanswer =>
      rw [if_pos hanswer]
      exact IgnoresScope.bind (.throw _) (fun _ => hplace) ⟨result.2, s⟩ ok fail h
    · next hanswer =>
      rw [if_neg hanswer]
      exact hplace ⟨result.2, s⟩ ok fail h
  · rw [hasserted, Oracle.pop_foldl_assert]
    exact h

/-- Asserts the equations for the arguments at consecutive body positions, as long as the children
fit. -/
def assertChildren (p : NormalizedProblem) (r : Refutation) (clause : NormalizedClause)
    (position : Nat) : List Nat → Working Bool
  | [] => return true
  | i :: rest =>
    match r.nodes[i]?, clause.body[position]? with
    | some child, some a =>
      if child.atom.relation = some a.relation then do
        let vars ← clause.bodyArguments p.relations position
        (equations vars child.atom.args).forM Working.assert
        assertChildren p r clause (position + 1) rest
      else return false
    | _, _ => return false

/-- Checks a node in a scope of its own, once it has the shape of its clause. -/
def checkNodeInScope (p : NormalizedProblem) (r : Refutation) (node : RefutationNode) :
    Working Bool :=
  match p.clauses[node.clause]? with
  | none => return false
  | some clause =>
    if node.atom.relation = clause.headRelation? ∧ node.children.length = clause.body.length then
      Working.inScope do
        Working.assert clause.constraint
        let headArguments ← clause.headArguments p.relations
        if headArguments.length = node.atom.args.length then
          (equations headArguments node.atom.args).forM Working.assert
          if ← assertChildren p r clause 0 node.children then
            return (← Working.ask Oracle.check) = .sat
          else return false
        else return false
    else return false

/-- Checks the nodes of a list, each in a scope of its own. -/
def checkNodesInScopes (p : NormalizedProblem) (r : Refutation) :
    List RefutationNode → Working Bool
  | [] => return true
  | node :: rest => do
    if ← checkNodeInScope p r node then checkNodesInScopes p r rest else return false

/-- Checks that a refutation has the root `false`, and each of its nodes in a scope of its own. -/
def checkInScopes (p : NormalizedProblem) (r : Refutation) : Working Bool :=
  match r.nodes with
  | root :: _ =>
    if root.atom.relation = none then checkNodesInScopes p r r.nodes else return false
  | [] => return false

/-- What asserting the equations for the children comes to. -/
theorem ensures_assertChildren (children : List Nat) (position : Nat) (w : Workspace) :
    Ensures (assertChildren p r clause position children) w
      (fun fit w' => ∃ ts : List Term, w' = { w with oracle := ts.foldl Oracle.assert w.oracle } ∧
        childEquations? p r clause position children = .ok (if fit then some ts else none))
      fun e w' => ∃ ts : List Term, w' = { w with oracle := ts.foldl Oracle.assert w.oracle } ∧
        childEquations? p r clause position children = .error e := by
  induction children generalizing position w with
  | nil => exact ⟨[], rfl, rfl⟩
  | cons i rest ih =>
    cases hchild : r.nodes[i]? with
    | none => exact by simp only [assertChildren, childEquations?, hchild]; exact ⟨[], rfl, rfl⟩
    | some child =>
    cases ha : clause.body[position]? with
    | none => exact by simp only [assertChildren, childEquations?, hchild, ha]; exact ⟨[], rfl, rfl⟩
    | some a =>
    simp only [assertChildren, childEquations?, hchild, ha]
    split
    · simp only [ensures_bind, ensures_liftM, Working.ensures_forM_assert]
      refine ⟨fun vars hvars => ?_, fun e he => ⟨[], rfl, by rw [he]; rfl⟩⟩
      rw [hvars]
      refine (ih (position + 1) _).mono ?_ ?_
      · rintro fit w' ⟨ts, rfl, hts⟩
        refine ⟨equations vars child.atom.args ++ ts, by rw [List.foldl_append], ?_⟩
        rw [hts]
        cases fit <;> rfl
      · rintro e w' ⟨ts, rfl, hts⟩
        refine ⟨equations vars child.atom.args ++ ts, by rw [List.foldl_append], ?_⟩
        rw [hts]
        rfl
    · exact ⟨[], rfl, rfl⟩

/-- Checking a node in a scope of its own is gathering the formulas that have to have a common model
and asking for one. -/
theorem ensures_checkNodeInScope (node : RefutationNode) (w : Workspace) :
    Ensures (checkNodeInScope p r node) w
      (fun passed w' => w'.symbols = w.symbols ∧
        (obligations? p r node = .ok none ∧ passed = false ∧ w'.oracle = w.oracle ∨
          ∃ ts answer, obligations? p r node = .ok (some ts) ∧
            w.oracle.checkWith ts = (answer, w'.oracle) ∧ passed = decide (answer = .sat)))
      fun e w' => w' = w ∧ obligations? p r node = .error e := by
  unfold checkNodeInScope
  cases hclause : p.clauses[node.clause]? with
  | none => exact ⟨rfl, .inl ⟨by rw [obligations?, hclause], rfl, rfl⟩⟩
  | some clause =>
  dsimp only
  split
  · next hshape =>
    have hpop (ts : List Term) : (ts.foldl Oracle.assert
        (w.oracle.push.assert clause.constraint)).pop = w.oracle :=
      Oracle.pop_foldl_assert (clause.constraint :: ts) w.oracle
    have howed : obligations? p r node = do
        let vars ← clause.headArguments p.relations
        if vars.length = node.atom.args.length then
          let more ← childEquations? p r clause 0 node.children
          return more.map fun more =>
            clause.constraint :: (equations vars node.atom.args ++ more)
        else return none := by
      rw [obligations?, hclause]
      exact if_pos hshape
    simp only [Working.ensures_inScope, ensures_bind, ensures_liftM, Working.ensures_assert]
    refine ⟨fun vars hvars => ?_, fun e he => ?_⟩
    · rw [hvars] at howed
      split
      · next hlength =>
        replace howed := howed.trans (if_pos hlength)
        simp only [ensures_bind, Working.ensures_forM_assert]
        have hasserted (ts : List Term) : ts.foldl Oracle.assert
            ((equations vars node.atom.args).foldl Oracle.assert
              (w.oracle.push.assert clause.constraint)) =
            (clause.constraint :: (equations vars node.atom.args ++ ts)).foldl Oracle.assert
              w.oracle.push := by
          rw [List.foldl_cons, List.foldl_append]
        refine (ensures_assertChildren node.children 0 _).mono ?_ ?_
        · rintro fit w' ⟨ts, rfl, hts⟩
          rw [hts] at howed
          rw [hasserted]
          cases fit with
          | true => exact ⟨rfl, .inr ⟨_, _, howed, Oracle.checkWith_eq_pop _ _, rfl⟩⟩
          | false => exact ⟨rfl, .inl ⟨howed, rfl, Oracle.pop_foldl_assert _ _⟩⟩
        · rintro e w' ⟨ts, rfl, hts⟩
          rw [hts] at howed
          rw [hasserted, Oracle.pop_foldl_assert]
          exact ⟨rfl, howed⟩
      · next hlength => exact ⟨rfl, .inl ⟨howed.trans (if_neg hlength), rfl, hpop []⟩⟩
    · rw [he] at howed
      exact ⟨congrArg (Workspace.mk · w.symbols) (hpop []), howed⟩
  · next hshape =>
    refine ⟨rfl, .inl ⟨?_, rfl, rfl⟩⟩
    rw [obligations?, hclause]
    exact if_neg hshape

/-- Checking nodes is checking each of them in a scope of its own. -/
theorem checkNodesInScopes_run (nodes : List RefutationNode) (w : Workspace) :
    (checkNodesInScopes p r nodes).run.run w =
      ((checkNodes p r nodes w.oracle).1,
        { w with oracle := (checkNodes p r nodes w.oracle).2 }) := by
  have hends : Ensures (checkNodesInScopes p r nodes) w
      (fun passed w' => w'.symbols = w.symbols ∧
        checkNodes p r nodes w.oracle = (.ok passed, w'.oracle))
      fun e w' => w'.symbols = w.symbols ∧
        checkNodes p r nodes w.oracle = (.error e, w'.oracle) := by
    induction nodes generalizing w with
    | nil => exact ⟨rfl, rfl⟩
    | cons node rest ih =>
      unfold checkNodesInScopes checkNodes
      rw [ensures_bind]
      refine (ensures_checkNodeInScope node w).mono ?_ ?_
      · rintro passed w₁ ⟨hsymbols, ⟨howed, rfl, horacle⟩ | ⟨ts, answer, howed, hasked, rfl⟩⟩
        · rw [howed]
          exact ⟨hsymbols, Prod.ext rfl horacle.symm⟩
        · rw [howed]
          dsimp only
          rw [hasked]
          cases answer with
          | sat =>
            refine (ih w₁).mono ?_ ?_
            · exact fun _ _ h => ⟨h.1.trans hsymbols, h.2⟩
            · exact fun _ _ h => ⟨h.1.trans hsymbols, h.2⟩
          | unsat => exact ⟨hsymbols, rfl⟩
          | unknown => exact ⟨hsymbols, rfl⟩
      · rintro e w₁ ⟨rfl, howed⟩
        rw [howed]
        exact ⟨rfl, rfl⟩
  unfold Ensures at hends
  split at hends
  all_goals
    next result w' heq =>
    obtain ⟨hsymbols, hchecked⟩ := hends
    rw [heq, hchecked, ← hsymbols]

/-- Checking a refutation is checking it in scopes. -/
theorem checkInScopes_run (p : NormalizedProblem) (r : Refutation) (w : Workspace) :
    (checkInScopes p r).run.run w =
      ((r.check p w.oracle).1, { w with oracle := (r.check p w.oracle).2 }) := by
  unfold checkInScopes check
  cases r.nodes with
  | nil => rfl
  | cons root rest =>
    dsimp only
    split
    · exact checkNodesInScopes_run _ w
    · rfl

/-- Checking nodes leaves assertions and scopes as they were. -/
theorem sameScopes_checkNodes (nodes : List RefutationNode) (o : Oracle) :
    o.SameScopes (checkNodes p r nodes o).2 := by
  induction nodes generalizing o with
  | nil => exact .refl o
  | cons node rest ih =>
    unfold checkNodes
    split
    · exact .refl o
    · exact .refl o
    · split
      · next h => exact (Oracle.checkWith_spec h).1.sameScopes.trans (ih _)
      · next h => exact (Oracle.checkWith_spec h).1.sameScopes

/-- Checking a refutation leaves assertions and scopes as they were. -/
theorem sameScopes_check (p : NormalizedProblem) (r : Refutation) (o : Oracle) :
    o.SameScopes (r.check p o).2 := by
  unfold check
  split
  · split
    · exact sameScopes_checkNodes _ o
    · exact .refl o
  · exact .refl o

end HornSaturation.Refutation
