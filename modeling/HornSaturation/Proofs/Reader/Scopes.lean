import HornSaturation.Proofs.Reader.Extent
import HornSaturation.Proofs.Reader.Forms
import Mathlib

/-!
# Which sorts reading changes

A `let` gives its names the sorts back that they had before. A quantifier does not, so its variables
keep their sorts behind it, in the same command and in later ones; and a `let` that lists a name
twice leaves it with the sort of a value. All other names have the sort of their last declaration.
-/

namespace HornSaturation.Reader

namespace Scope

variable {σ σ' : Scope} {x y : String} {sort : Option BaseSort} {values : List (String × Term)}

theorem assign_self : σ.assign x sort x = sort := if_pos rfl

theorem assign_of_ne (h : y ≠ x) : σ.assign x sort y = σ y := if_neg h

theorem declare_of_notMem {bound : List (String × BaseSort)} (h : x ∉ bound.map Prod.fst) :
    σ.declare bound x = σ x := by
  induction bound generalizing σ with
  | nil => rfl
  | cons b bound ih =>
    obtain ⟨hb, hbound⟩ := not_or.mp (List.mem_cons.not.mp h)
    rw [declare, ih hbound, assign_of_ne hb]

theorem enter_of_notMem (h : x ∉ values.map Prod.fst) : (σ.enter values).2 x = σ x := by
  induction values generalizing σ with
  | nil => rfl
  | cons v values ih =>
    obtain ⟨hv, hvalues⟩ := not_or.mp (List.mem_cons.not.mp h)
    rw [enter]
    exact (ih hvalues).trans (assign_of_ne hv)

theorem map_fst_enter : (σ.enter values).1.map Prod.fst = values.map Prod.fst := by
  induction values generalizing σ with
  | nil => rfl
  | cons v values ih => exact congrArg (v.1 :: ·) ih

theorem leave_of_notMem {old : List (String × Option BaseSort)} (h : x ∉ old.map Prod.fst) :
    σ.leave old x = σ x := by
  induction old generalizing σ with
  | nil => rfl
  | cons b old ih =>
    obtain ⟨hb, hold⟩ := not_or.mp (List.mem_cons.not.mp h)
    rw [leave, ih hold, assign_of_ne hb]

/-- A name that a `let` lists once gets its sort back. -/
theorem leave_enter_of_mem (h : x ∈ values.map Prod.fst) (hcount : (values.map Prod.fst).count x ≤ 1) :
    σ'.leave (σ.enter values).1 x = σ x := by
  induction values generalizing σ σ' with
  | nil => cases h
  | cons v values ih =>
    obtain ⟨y, t⟩ := v
    rw [enter, leave]
    rw [List.map_cons, List.count_cons] at hcount
    by_cases hy : y = x
    · subst hy
      have hvalues : y ∉ values.map Prod.fst := by
        refine List.count_eq_zero.mp ?_
        simp only [beq_self_eq_true, if_true] at hcount
        omega
      rw [leave_of_notMem (by rwa [map_fst_enter]), assign_self]
    · have hvalues := (List.mem_cons.mp h).resolve_left (Ne.symm hy)
      rw [ih hvalues (by omega), assign_of_ne (Ne.symm hy)]

/-- Any other name of a scope is left alone. -/
theorem leave_enter_of_notMem (h : x ∉ values.map Prod.fst) :
    σ'.leave (σ.enter values).1 x = σ' x := leave_of_notMem (by rwa [map_fst_enter])

/-- A name that a `let` lists at most once has its sort back, if the body leaves that as it is. -/
theorem leave_enter (hcount : (values.map Prod.fst).count x ≤ 1)
    (hbody : σ' x = (σ.enter values).2 x) : σ'.leave (σ.enter values).1 x = σ x := by
  by_cases hmem : x ∈ values.map Prod.fst
  · exact leave_enter_of_mem hmem hcount
  · rw [leave_enter_of_notMem hmem, hbody, enter_of_notMem hmem]

end Scope

namespace Form

variable {p : Problem} {x : String} {σ σ' : Scope}

theorem resolveArgs_scope {fs : List Form} {ts : List Term}
    (hfs : ∀ f ∈ fs, ∀ σ t σ', f.resolve p σ = some (t, σ') → σ' x = σ x)
    (h : resolveArgs p fs σ = some (ts, σ')) : σ' x = σ x := by
  induction fs generalizing σ ts with
  | nil =>
    obtain ⟨-, rfl⟩ := Prod.mk.inj (Option.some.inj h)
    rfl
  | cons f fs ih =>
    obtain ⟨hf, hfs⟩ := List.forall_mem_cons.mp hfs
    obtain ⟨t, σ₁, us, ht, hus, -⟩ := resolveArgs_cons.mp h
    rw [ih hfs hus, hf σ t σ₁ ht]

/-- A name that is not redeclared has the same sort before and after a form. -/
theorem resolve_scope {f : Form} {t : Term} (h : f.resolve p σ = some (t, σ'))
    (hx : x ∉ f.redeclared) : σ' x = σ x := by
  induction f using structural generalizing σ t σ' with
  | numeral n | name y =>
    obtain ⟨-, rfl⟩ := Prod.mk.inj (Option.some.inj h)
    rfl
  | apply f args ih =>
    obtain ⟨ts, hts, -⟩ := resolve_apply.mp h
    rw [mem_redeclared_apply] at hx
    exact resolveArgs_scope (fun g hg σ t σ' h => ih g hg h fun hmem => hx ⟨g, hg, hmem⟩) hts
  | letIn bindings body ihv ihb =>
    obtain ⟨ts, σ₁, u, σ₂, hts, hu, -, rfl⟩ := resolve_letIn.mp h
    rw [mem_redeclared_letIn, not_or, not_or] at hx
    obtain ⟨hcount, hvalues, hbody⟩ := hx
    have hnames : ((bindings.map Prod.fst).zip ts).map Prod.fst = bindings.map Prod.fst :=
      List.map_fst_zip (by simp [length_resolveArgs hts])
    have hbefore : σ₁ x = σ x := by
      refine resolveArgs_scope (List.forall_mem_map.mpr fun b hb σ t σ' h => ?_) hts
      exact ihv b hb h fun hmem => hvalues ⟨b, hb, hmem⟩
    rw [← hbefore]
    exact Scope.leave_enter (by rw [hnames]; omega) (ihb hu hbody)
  | quantified bound body ih =>
    rw [mem_redeclared_quantified, not_or] at hx
    rw [ih h hx.2, Scope.declare_of_notMem hx.1]

theorem resolveArgs_frame {fs : List Form} {ts : List Term}
    (h : resolveArgs p fs σ = some (ts, σ')) (hx : ∀ f ∈ fs, x ∉ f.redeclared) : σ' x = σ x :=
  resolveArgs_scope (fun f hf _ _ _ h => resolve_scope h (hx f hf)) h

end Form

namespace Command

/-- The names that may have another sort after a command that is no declaration. -/
def redeclared : Command → List String
  | rule f | query f => f.redeclared
  | _ => []

/-- The sort of a name after a command, by the declarations alone. -/
def sortAfter (x : String) (before : Option BaseSort) : Command → Option BaseSort
  | declare y sort => if x = y then some sort else before
  | _ => before

/-- The sort that the last declaration of a name gives it. -/
def declaredSort? (x : String) (cmds : List Command) : Option BaseSort :=
  cmds.foldl (sortAfter x) none

variable {cmd : Command} {cmds : List Command} {Γ Γ' : Context} {x : String}

theorem perform_scope (h : cmd.perform Γ = some Γ') (hx : x ∉ cmd.redeclared) :
    Γ'.scope x = cmd.sortAfter x (Γ.scope x) := by
  cases cmd with
  | idle | relation name sorts | declare y sort =>
    obtain rfl := Option.some.inj h
    rfl
  | rule f | query f =>
    obtain ⟨⟨t, σ⟩, ht, heq⟩ := Option.bind_eq_some_iff.mp h
    obtain rfl := Option.some.inj heq
    exact Form.resolve_scope ht hx
  | emptiness name =>
    obtain ⟨r, -, heq⟩ := Option.bind_eq_some_iff.mp h
    obtain rfl := Option.some.inj heq
    rfl

theorem performAll_scope (h : performAll cmds Γ = some Γ') (hx : ∀ cmd ∈ cmds, x ∉ cmd.redeclared) :
    Γ'.scope x = cmds.foldl (sortAfter x) (Γ.scope x) := by
  induction cmds generalizing Γ with
  | nil =>
    obtain rfl := Option.some.inj h
    rfl
  | cons cmd cmds ih =>
    obtain ⟨hcmd, hcmds⟩ := List.forall_mem_cons.mp hx
    obtain ⟨Γ₁, hΓ₁, h⟩ := Option.bind_eq_some_iff.mp h
    rw [ih h hcmds, perform_scope hΓ₁ hcmd, List.foldl_cons]

end Command

section Reading

variable {s s' : Reading}

theorem readTerm_lookup {t : Term} (h : readTerm.run s = .ok (t, s')) :
    ∃ f, parseForm s.cursor = some (f, s'.cursor) ∧
      ∀ x ∉ f.redeclared, s'.sorts.lookup x = s.sorts.lookup x := by
  have hout := outcome_eq_some.mpr ⟨s', h, rfl, rfl⟩
  rw [phased_readTerm] at hout
  obtain ⟨⟨f, c⟩, hf, hout⟩ := Option.bind_eq_some_iff.mp hout
  obtain ⟨⟨u, Γ⟩, hρ, heq⟩ := Option.map_eq_some_iff.mp hout
  obtain ⟨⟨v, σ⟩, hresolve, hΓ⟩ := Option.map_eq_some_iff.mp hρ
  obtain ⟨rfl, rfl⟩ := Prod.mk.inj hΓ
  obtain ⟨rfl, hc, hcontext⟩ := by simpa using heq
  obtain rfl := hc
  refine ⟨f, hf, fun x hx => ?_⟩
  exact (congrFun (congrArg Context.scope hcontext) x).symm.trans (f.resolve_scope hresolve hx)

theorem readCommandsWithin_lookup {n : Nat}
    (h : (readCommandsWithin n).run s = .ok ((), s')) :
    ∃ cmds, commandsWithin n s.cursor = some (cmds, s'.cursor) ∧
      ∀ x, (∀ cmd ∈ cmds, x ∉ cmd.redeclared) →
        s'.sorts.lookup x = cmds.foldl (Command.sortAfter x) (s.sorts.lookup x) := by
  have hout := outcome_eq_some.mpr ⟨s', h, rfl, rfl⟩
  rw [phased_readCommandsWithin] at hout
  obtain ⟨⟨cmds, c⟩, hcmds, hout⟩ := Option.bind_eq_some_iff.mp hout
  obtain ⟨⟨_, Γ⟩, hρ, heq⟩ := Option.map_eq_some_iff.mp hout
  obtain ⟨Γ', hperform, hΓ⟩ := Option.map_eq_some_iff.mp hρ
  obtain ⟨-, rfl⟩ := Prod.mk.inj hΓ
  obtain ⟨hc, hcontext⟩ := by simpa using heq
  obtain rfl := hc
  refine ⟨cmds, hcmds, fun x hx => ?_⟩
  exact (congrFun (congrArg Context.scope hcontext) x).symm.trans
    (Command.performAll_scope hperform hx)

/-- Reading a term leaves the declared sorts as they were, apart from names that the term declares
again. So behind some commands a name that none of their terms declares again has the sort of its
last declaration. -/
theorem sorts_of_declarations (s : Reading) (text : String) :
    (∀ t s', readTerm.run s = .ok (t, s') → ∃ f, parseForm s.cursor = some (f, s'.cursor) ∧
      ∀ x ∉ f.redeclared, s'.sorts.lookup x = s.sorts.lookup x) ∧
    ∀ n s', (readCommandsWithin n).run { cursor := .start text } = .ok ((), s') →
      ∃ cmds, commandsWithin n (.start text) = some (cmds, s'.cursor) ∧
        ∀ x, (∀ cmd ∈ cmds, x ∉ cmd.redeclared) →
          s'.sorts.lookup x = Command.declaredSort? x cmds :=
  ⟨fun _ _ h => readTerm_lookup h, fun _ _ h => readCommandsWithin_lookup h⟩

/-- The name of a `let` has its declared sort back behind it, and declarations last. -/
theorem sorts_of_declarations_shadowed :
    (∃ t s', readTerm.run { cursor := .start "(let ((x true)) x)", sorts := [("x", .int)] } =
        .ok (t, s') ∧ s'.sorts.lookup "x" = some .int) ∧
      ∃ s, (readCommandsWithin 2).run
          { cursor := .start "(declare-var x Int)(rule (exists ((y Int)) (< x y)))" } =
        .ok ((), s) ∧ s.sorts.lookup "x" = some .int := by
  constructor
  · have hread : readTerm.run { cursor := .start "(let ((x true)) x)", sorts := [("x", .int)] } =
        .ok (.bool true, ⟨⟨[], 18⟩, [("x", .int)], {}⟩) := by cbv
    have hparse : parseForm (.start "(let ((x true)) x)") =
        some (.letIn [("x", .name "true")] (.name "x"), ⟨[], 18⟩) := by cbv
    obtain ⟨f, hf, hsort⟩ := (sorts_of_declarations _ "").1 _ _ hread
    obtain ⟨rfl, -⟩ := Prod.mk.inj (Option.some.inj (hf.symm.trans hparse))
    exact ⟨_, _, hread, hsort "x" (by simp)⟩
  · have hread : (readCommandsWithin 2).run
        { cursor := .start "(declare-var x Int)(rule (exists ((y Int)) (< x y)))" } =
        .ok ((), ⟨⟨[], 52⟩, [("y", .int), ("x", .int)], ⟨[], [⟨[], some (.op .not
          [.op .lt [.var ⟨"x", .int⟩, .var ⟨"y", .int⟩]]), none⟩]⟩⟩) := by cbv
    have hparse : commandsWithin 2
        (.start "(declare-var x Int)(rule (exists ((y Int)) (< x y)))") =
        some ([.declare "x" .int, .rule (.quantified [("y", .int)]
          (.apply "<" [.name "x", .name "y"]))], ⟨[], 52⟩) := by cbv
    obtain ⟨cmds, hcmds, hsort⟩ := (sorts_of_declarations ⟨.start "", [], {}⟩ _).2 _ _ hread
    obtain ⟨rfl, -⟩ := Prod.mk.inj (Option.some.inj (hcmds.symm.trans hparse))
    exact ⟨_, hread, (hsort "x" (by simp [Command.redeclared])).trans (by decide)⟩

/-- Behind a quantifier its variable is declared, also where it has been declared with another sort;
a later rule takes it for a truth value here. -/
theorem sort_of_quantifier :
    (∃ t s', readTerm.run { cursor := .start "(exists ((x Bool)) x)", sorts := [("x", .int)] } =
        .ok (t, s') ∧ s'.sorts.lookup "x" = some .bool) ∧
      Problem.read ("(declare-rel P (Bool))(declare-var x Int)(rule (forall ((x Bool)) (P x)))" ++
          "(rule (P x))") =
        .ok ⟨[⟨0, "P", [.bool]⟩], [⟨[], none, some ⟨0, [.var ⟨"x", .bool⟩]⟩⟩,
          ⟨[], none, some ⟨0, [.var ⟨"x", .bool⟩]⟩⟩]⟩ := by
  refine ⟨⟨.var ⟨"x", .bool⟩, ⟨⟨[], 21⟩, [("x", .bool)], {}⟩, ?_, by decide⟩, ?_⟩
  · cbv
  · cbv

end Reading

end HornSaturation.Reader
