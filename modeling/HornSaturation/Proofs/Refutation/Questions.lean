import HornSaturation.Proofs.Clause.Nesting
import HornSaturation.Proofs.Inference.Nesting
import HornSaturation.Refutation.Build

/-!
# Reconstruction only asks

Reconstructing a refutation takes fresh symbols and asks about the constraints of clauses and of
stored units, together with equations between symbols and values. So whatever is true of a workspace
and stays true under that, stays true also when the reconstruction fails.
-/

namespace HornSaturation

variable {S : RelationId → Prop} {I : Workspace → Prop} {α : Type}

/-- What is true of a workspace stays true when symbols are taken, and when the oracle is asked
about formulas that apply relations of some kind only. -/
structure Workspace.Lasting (S : RelationId → Prop) (I : Workspace → Prop) : Prop where
  allocated : ∀ w symbols, I w → I { w with symbols }
  asked : ∀ w ts, (∀ t ∈ ts, t.AppliesOnly S) → I w →
    I { w with oracle := (w.oracle.checkWith ts).2 }

namespace Working

theorem maintains_allocate {step : Allocating α} {P : α → Prop}
    (hI : ∀ w symbols, I w → I { w with symbols }) (h : Maintains (fun _ => True) P step) :
    Maintains I P (allocate step) := fun w hw =>
  ensures_allocate.mpr <| (h w.symbols trivial).mono (fun _ s h => ⟨hI w s hw, h.2⟩)
    fun _ s _ => hI w s hw

theorem maintains_ask {question : Oracle → α × Oracle}
    (hI : ∀ w, I w → I { w with oracle := (question w.oracle).2 }) :
    Maintains I (fun _ => True) (ask question) := fun w hw => ⟨hI w hw, trivial⟩

end Working

theorem Value.appliesOnly_toTerm (x : Value) : x.toTerm.AppliesOnly S := by
  cases x with
  | bool b => exact Term.appliesOnly_bool b
  | int n => exact Term.appliesOnly_int n

namespace Refutation

variable {p : NormalizedProblem} {store : Store} {relations : List Relation}
  {clause : NormalizedClause}

theorem appliesOnly_equations (vars : List Var) (values : List Value) :
    ∀ t ∈ equations vars values, t.AppliesOnly S := by
  intro t ht
  rw [equations, ← List.map_uncurry_zip_eq_zipWith] at ht
  obtain ⟨⟨v, x⟩, -, rfl⟩ := List.mem_map.mp ht
  exact Term.appliesOnly_equation.mpr ⟨Term.appliesOnly_var v, x.appliesOnly_toTerm⟩

/-- Reading values off the model leaves the workspace alone. -/
theorem maintains_readValues (vs : List Var) :
    Maintains I (fun _ => True) (readValues vs) := by
  induction vs with
  | nil => exact .pure trivial
  | cons v vs ih =>
    refine Maintains.get.bind fun w _ => ?_
    split
    · exact ih.bind fun _ _ => .pure trivial
    · exact .throw _

/-- Placing nodes leaves the workspace alone. -/
theorem maintains_placeChildren (ids : List UnitId) (position : Nat) (drafts : List Draft) :
    Maintains I (fun _ => True) (placeChildren store relations clause position ids drafts) := by
  induction ids generalizing position drafts with
  | nil => exact .pure trivial
  | cons id ids ih =>
    refine .liftBind fun vars _ => ?_
    refine (maintains_readValues vars).bind fun values _ => ?_
    split
    · exact (ih _ _).bind fun _ _ => .pure trivial
    · exact .throw _

theorem maintains_storedInstances (hstore : store.AppliesOnly S) (ids : List UnitId)
    (position : Nat) :
    Maintains (fun _ => True) (fun ts => ∀ t ∈ ts, t.AppliesOnly S)
      (storedInstances store relations clause position ids) := by
  induction ids generalizing position with
  | nil => exact .pure (by simp)
  | cons id ids ih =>
    refine .liftBind fun u hu => ?_
    have hu : u.constraint.AppliesOnly S := by
      unfold storedUnit at hu
      split at hu
      · next e he => exact Except.ok.inj hu ▸ hstore id e he
      · cases hu
    refine (maintains_electronInstance hu position).bind fun r hr => ?_
    exact (ih (position + 1)).bind fun ts hts => .pure (List.forall_mem_cons.mpr ⟨hr, hts⟩)

theorem maintains_expandNode (hI : Workspace.Lasting S I) (hstore : store.AppliesOnly S)
    (hclause : clause.constraint.AppliesOnly S) {headArguments : List Var}
    {electrons : List UnitId} (drafts : List Draft) (i : Nat) :
    Maintains I (fun _ => True)
      (expandNode store relations clause headArguments electrons drafts i) := by
  refine (Working.maintains_allocate hI.allocated (maintains_storedInstances hstore _ 0)).bind
    fun instances hinstances => ?_
  have hquestion : ∀ t ∈ clause.constraint :: (equations headArguments
      (((drafts[i]?).map (·.node.atom.args)).getD []) ++ instances), t.AppliesOnly S :=
    List.forall_mem_cons.mpr ⟨hclause,
      List.forall_mem_append.mpr ⟨appliesOnly_equations _ _, hinstances⟩⟩
  refine (Working.maintains_ask fun w => hI.asked w _ hquestion).bind fun answer _ => ?_
  split
  · exact .throwBind _ _
  · exact (maintains_placeChildren _ _ _).bind fun _ _ => .pure trivial

theorem maintains_expandUnit (hI : Workspace.Lasting S I) (hp : p.AppliesOnly S)
    (hstore : store.AppliesOnly S) (drafts : List Draft) (id : UnitId) :
    Maintains I (fun _ => True) (expandUnit store p drafts id) := by
  unfold expandUnit
  split
  · next nucleus electrons _ =>
    refine .liftBind fun clause hclause => ?_
    have hclause : clause.constraint.AppliesOnly S := by
      unfold clauseAt at hclause
      split at hclause
      · next hget => exact Except.ok.inj hclause ▸ hp _ (List.mem_of_getElem? hget)
      · cases hclause
    refine .liftBind fun _ _ => ?_
    exact Maintains.foldlM (fun drafts _ i _ => maintains_expandNode hI hstore hclause drafts i)
      trivial
  · exact .pure trivial

/-- Reconstructing a refutation. -/
theorem maintains_ofUnit (hI : Workspace.Lasting S I) (hp : p.AppliesOnly S)
    (hstore : store.AppliesOnly S) (root : UnitId) :
    Maintains I (fun _ => True) (ofUnit store p root) := by
  refine .liftBind fun order _ => ?_
  split
  · refine Maintains.bind (P := fun _ => True) ?_ fun _ _ => .pure trivial
    exact Maintains.foldlM (fun drafts _ id _ => maintains_expandUnit hI hp hstore drafts id)
      trivial
  · exact .throw _

end Refutation

/-- A step of work that only asks the oracle. -/
def Working.OnlyAsks (step : Working α) : Prop :=
  ∀ w, Ensures step w (fun _ w' => w.oracle.Later w'.oracle) fun _ w' => w.oracle.Later w'.oracle

/-- Reconstructing a refutation only asks the oracle. -/
theorem Refutation.ofUnit_onlyAsks (store : Store) (p : NormalizedProblem) (root : UnitId) :
    (ofUnit store p root).OnlyAsks := by
  intro w
  have hlasting : Workspace.Lasting (fun _ => True) fun w' => w.oracle.Later w'.oracle :=
    ⟨fun _ _ => id, fun _ _ _ h => h.trans (Oracle.checkWith_spec rfl).1⟩
  have hp : p.AppliesOnly fun _ => True := fun _ _ _ _ => trivial
  have hstore : store.AppliesOnly fun _ => True := fun _ _ _ _ _ => trivial
  exact (maintains_ofUnit hlasting hp hstore root w (.refl _)).mono (fun _ _ h => h.1) fun _ _ => id

end HornSaturation
