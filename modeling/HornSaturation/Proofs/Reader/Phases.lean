import HornSaturation.Proofs.Reader.Steps
import HornSaturation.Proofs.Reader.Syntax

/-!
# Reading is parsing and resolving

Tokens only move through the text, so they can be taken out of the readers of terms and commands.
What is left of these is parsing followed by resolving, for accepted and for refused texts alike.
-/

namespace HornSaturation.Reader

variable {α β F G : Type}

/-- The declared variables and the problem in a state of reading. -/
def Reading.context (s : Reading) : Context := ⟨fun x => s.sorts.lookup x, s.problem⟩

/-- What a step leads to, without regard to the causes of faults. -/
def outcome (x : Read α) (s : Reading) : Option (α × Cursor × Context) :=
  match x.run s with
  | .ok (a, s') => some (a, s'.cursor, s'.context)
  | .error _ => none

theorem outcome_eq_some {x : Read α} {s : Reading} {a : α} {c : Cursor} {Γ : Context} :
    outcome x s = some (a, c, Γ) ↔
      ∃ s', x.run s = .ok (a, s') ∧ s'.cursor = c ∧ s'.context = Γ := by
  unfold outcome
  cases x.run s with
  | error e => simp
  | ok r => simp [Prod.ext_iff, and_assoc]

/-- What follows a step has the outcome that it has from the state that the step leaves. -/
theorem outcome_bind_of_ok {x : Read β} {k : β → Read α} {s s' : Reading} {b : β}
    (h : x.run s = .ok (b, s')) : outcome (x >>= k) s = outcome (k b) s' := by
  rw [outcome, run_bind_of_eq h, outcome]

theorem outcome_bind_of_error {x : Read β} {k : β → Read α} {s : Reading} {e : Error}
    (h : x.run s = .error e) : outcome (x >>= k) s = none := by
  rw [outcome, StateT.run_bind, h]
  rfl

section Scanning

/-- A step that only moves through the text. -/
def Scans (x : Read α) : Prop := ∀ s,
  match scan x s.cursor with
  | some (a, c) => x.run s = .ok (a, { s with cursor := c })
  | none => ∃ e, x.run s = .error e

theorem Scans.of_run {x : Read α} {f : Cursor → Except Error (α × Cursor)}
    (h : ∀ s, x.run s = (f s.cursor).map fun r => (r.1, { s with cursor := r.2 })) : Scans x := by
  intro s
  rw [scan, h, h]
  cases f s.cursor with
  | error e => exact ⟨e, rfl⟩
  | ok r => rfl

theorem scans_move (f : Cursor → Cursor) : Scans (move f) :=
  .of_run (f := fun c => .ok ((), f c)) fun _ => rfl

theorem scans_peek? : Scans peek? := .of_run (f := fun c => .ok (c.peek?, c)) fun _ => rfl

theorem scans_skipBlanks : Scans skipBlanks := scans_move _

theorem scans_readRun (p : Char → Bool) : Scans (readRun p) :=
  .of_run (f := fun c => .ok (c.span p)) fun _ => rfl

theorem scans_fail {fault : InputFault} : Scans (fail fault : Read α) :=
  .of_run (f := fun _ => .error (.input fault)) fun _ => rfl

theorem Scans.pure (a : α) : Scans (pure a) := .of_run (f := fun c => .ok (a, c)) fun _ => rfl

/-- A fault is found at a place in the text. -/
theorem scans_failAt {fault : Nat → InputFault} :
    Scans (do fail (fault (← get).cursor.offset) : Read α) :=
  .of_run (f := fun c => .error (.input (fault c.offset))) fun _ => rfl

theorem Scans.scan_bind {x : Read β} {k : β → Read α} (hx : Scans x) :
    scan (x >>= k) = (scan x >>= fun b => scan (k b)) := by
  funext c
  have hrun := hx { cursor := c }
  change _ = (scan x c).bind fun r => scan (k r.1) r.2
  dsimp only at hrun
  cases hscan : scan x c with
  | none =>
    rw [hscan] at hrun
    obtain ⟨e, he⟩ := hrun
    rw [scan, StateT.run_bind, he]
    rfl
  | some r =>
    rw [hscan] at hrun
    rw [scan, run_bind_of_eq hrun]
    rfl

theorem Scans.bind {x : Read β} {k : β → Read α} (hx : Scans x) (hk : ∀ b, Scans (k b)) :
    Scans (x >>= k) := by
  intro s
  have hrun := hx s
  rw [hx.scan_bind]
  change match (scan x s.cursor).bind fun r => scan (k r.1) r.2 with
    | some (a, c) => (x >>= k).run s = .ok (a, { s with cursor := c })
    | none => ∃ e, (x >>= k).run s = .error e
  cases hscan : scan x s.cursor with
  | none =>
    rw [hscan] at hrun
    obtain ⟨e, he⟩ := hrun
    exact ⟨e, by rw [StateT.run_bind, he]; rfl⟩
  | some r =>
    rw [hscan] at hrun
    simp only [Option.bind_some, run_bind_of_eq hrun]
    exact hk r.1 { s with cursor := r.2 }

theorem scans_expect (expected : Char) : Scans (expect expected) := by
  refine scans_skipBlanks.bind fun _ => scans_peek?.bind fun next => ?_
  cases next with
  | none => exact scans_fail
  | some c =>
    dsimp only
    split
    · exact scans_move _
    · exact scans_failAt

theorem scans_readSymbol : Scans readSymbol := by
  refine scans_skipBlanks.bind fun _ => scans_peek?.bind fun next => ?_
  split
  · exact (scans_move _).bind fun _ => (scans_readRun _).bind fun _ => (scans_move _).bind fun _ =>
      .pure _
  · refine (scans_readRun _).bind fun name => ?_
    split
    · exact scans_failAt
    · exact .pure _

theorem scans_readNumeral : Scans readNumeral := by
  refine (scans_readRun _).bind fun digits => ?_
  split
  · exact .pure _
  · exact scans_fail

theorem scans_readSort : Scans readSort := by
  refine scans_readSymbol.bind fun name => ?_
  split
  · exact .pure _
  · exact .pure _
  · exact scans_fail

theorem scans_readSortsWithin (n : Nat) : Scans (readSortsWithin n) := by
  induction n with
  | zero => exact scans_fail
  | succ n ih =>
    rw [readSortsWithin]
    refine scans_skipBlanks.bind fun _ => scans_peek?.bind fun next => ?_
    split
    · exact .pure _
    · exact scans_readSort.bind fun _ => ih.bind fun _ => .pure _

/-- The number of characters left bounds the number of sorts. -/
theorem scans_readSorts :
    Scans (do readSortsWithin ((← get).cursor.rest.length + 1) : Read (List BaseSort)) := by
  intro s
  exact scans_readSortsWithin (s.cursor.rest.length + 1) s

theorem scans_finishCommand : Scans finishCommand :=
  scans_skipBlanks.bind fun _ => scans_expect _

end Scanning

section Phases

/-- A reader that comes to the same as parsing something and then resolving it. -/
def Phased (x : Read α) (φ : Parse F) (ρ : F → Context → Option (α × Context)) : Prop := ∀ s,
  outcome x s = (φ s.cursor).bind fun r => (ρ r.1 s.context).map fun r' => (r'.1, r.2, r'.2)

variable {x : Read α} {φ : Parse F} {ρ : F → Context → Option (α × Context)}

namespace Phased

theorem fail {fault : InputFault} : Phased (fail fault : Read α) (failure : Parse F) ρ :=
  fun _ => rfl

theorem pure {a : α} {f : F} (h : ∀ Γ, ρ f Γ = some (a, Γ)) :
    Phased (pure a : Read α) (pure f : Parse F) ρ := by
  intro s
  change _ = (ρ f s.context).map _
  rw [h]
  rfl

/-- A step through the text comes before parsing and resolving. -/
theorem scan {y : Read β} {k : β → Read α} {φ : β → Parse F} (hy : Scans y)
    (hk : ∀ b, Phased (k b) (φ b) ρ) : Phased (y >>= k) (scan y >>= φ) ρ := by
  intro s
  have hrun := hy s
  change _ = ((Reader.scan y s.cursor).bind fun r => φ r.1 r.2).bind _
  cases hscan : Reader.scan y s.cursor with
  | none =>
    rw [hscan] at hrun
    obtain ⟨e, he⟩ := hrun
    rw [outcome_bind_of_error he]
    rfl
  | some r =>
    rw [hscan] at hrun
    rw [outcome_bind_of_ok hrun]
    exact hk r.1 _

/-- A step that leaves the text alone comes before resolving. -/
theorem act {y : Read β} {k : β → Read α} {ρ : β → F → Context → Option (α × Context)}
    (effect : Context → β × Context)
    (hy : ∀ s, outcome y s = some ((effect s.context).1, s.cursor, (effect s.context).2))
    (hk : ∀ b, Phased (k b) φ (ρ b)) :
    Phased (y >>= k) φ fun f Γ => ρ (effect Γ).1 f (effect Γ).2 := by
  intro s
  obtain ⟨s', hrun, hcursor, hcontext⟩ := outcome_eq_some.mp (hy s)
  rw [outcome_bind_of_ok hrun, hk, hcursor, hcontext]

/-- Of two things that are read one after the other both can be parsed before the first one is
resolved. -/
theorem seq {y : Read β} {k : β → Read α} {φ : Parse F} {ψ : Parse G}
    {ρ : F → Context → Option (β × Context)} {ρ' : β → G → Context → Option (α × Context)}
    (hy : Phased y φ ρ) (hk : ∀ b, Phased (k b) ψ (ρ' b)) :
    Phased (y >>= k) (do let f ← φ; let g ← ψ; return (f, g))
      fun r Γ => (ρ r.1 Γ).bind fun b => ρ' b.1 r.2 b.2 := by
  intro s
  have hy := hy s
  change _ = ((φ s.cursor).bind fun r => (ψ r.2).bind fun r' => some ((r.1, r'.1), r'.2)).bind _
  cases hrun : y.run s with
  | error e =>
    rw [outcome, hrun] at hy
    rw [outcome_bind_of_error hrun]
    cases hφ : φ s.cursor with
    | none => rfl
    | some r =>
      simp only [hφ, Option.bind_some, eq_comm (a := none), Option.map_eq_none_iff] at hy
      cases hψ : ψ r.2 <;> simp [hψ, hy]
  | ok r =>
    obtain ⟨b, s'⟩ := r
    rw [outcome, hrun] at hy
    obtain ⟨⟨f, c⟩, hφ, hρ⟩ := Option.bind_eq_some_iff.mp hy.symm
    obtain ⟨⟨b', Γ⟩, hρ, heq⟩ := Option.map_eq_some_iff.mp hρ
    obtain ⟨rfl, rfl, rfl⟩ := by simpa using heq
    rw [outcome_bind_of_ok hrun, hk, hφ]
    cases hψ : ψ s'.cursor <;> simp [hψ, hρ]

theorem congr {φ' : Parse G} {ρ' : G → Context → Option (α × Context)} (m : F → G)
    (h : Phased x φ ρ) (hφ : φ' = m <$> φ) (hρ : ∀ f Γ, ρ' (m f) Γ = ρ f Γ) :
    Phased x φ' ρ' := by
  intro s
  rw [h, hφ]
  change _ = ((φ s.cursor).bind fun r => some (m r.1, r.2)).bind _
  cases φ s.cursor <;> simp [hρ]

/-- What is made of the result is made of it after resolving. -/
theorem result {g : α → β} (h : Phased x φ ρ) :
    Phased (x >>= fun a => Pure.pure (g a)) φ fun f Γ => (ρ f Γ).map fun r => (g r.1, r.2) := by
  have hpure (a : α) : Phased (Pure.pure (g a) : Read β) (Pure.pure () : Parse Unit)
      fun _ Γ => some (g a, Γ) := .pure fun _ => rfl
  refine (h.seq hpure).congr Prod.fst ?_ ?_
  · simp
  · intro f Γ
    cases ρ f.1 Γ <;> rfl

/-- A step through the text may also come last. -/
theorem before {y : Read β} (h : Phased x φ ρ) (hy : Scans y) :
    Phased (x >>= fun a => y >>= fun _ => Pure.pure a)
      (φ >>= fun f => Reader.scan y >>= fun _ => Pure.pure f) ρ := by
  have hlast (a : α) : Phased (y >>= fun _ => Pure.pure a)
      (Reader.scan y >>= fun _ => (Pure.pure () : Parse Unit)) fun _ Γ => some (a, Γ) :=
    .scan hy fun _ => .pure fun _ => rfl
  refine (h.seq hlast).congr Prod.fst ?_ ?_
  · simp
  · intro f Γ
    cases ρ f.1 Γ <;> rfl

end Phased

/-- Resolving in a context changes its scope only. -/
def inScope (ρ : Problem → Scope → Option (α × Scope)) (Γ : Context) : Option (α × Context) :=
  (ρ Γ.problem Γ.scope).map fun r => (r.1, { Γ with scope := r.2 })

theorem lookup_cons_ite (x y : String) (s : BaseSort) (sorts : List (String × BaseSort)) :
    ((x, s) :: sorts).lookup y = if y = x then some s else sorts.lookup y := by
  by_cases h : y = x
  · simp [h]
  · simp [List.lookup_cons, beq_false_of_ne h, h]

theorem lookup_filter_ne (x y : String) (sorts : List (String × BaseSort)) :
    (sorts.filter (·.1 ≠ x)).lookup y = if y = x then none else sorts.lookup y := by
  induction sorts with
  | nil => simp
  | cons p sorts ih =>
    obtain ⟨x', s⟩ := p
    rw [List.filter_cons, lookup_cons_ite]
    by_cases hx : x' = x
    · rw [if_neg (by simpa using hx), ih]
      by_cases hy : y = x
      · simp [hy]
      · simp [hy, show y ≠ x' from fun h => hy (h.trans hx)]
    · rw [if_pos (by simpa using hx), lookup_cons_ite, ih]
      by_cases hy : y = x
      · simp [hy, show x ≠ x' from fun h => hx h.symm]
      · simp [hy]

theorem outcome_setSort (x : String) (sort : Option BaseSort) (s : Reading) :
    outcome (setSort x sort) s =
      some ((), s.cursor, { s.context with scope := s.context.scope.assign x sort }) := by
  refine outcome_eq_some.mpr ⟨_, rfl, rfl, ?_⟩
  refine congrArg (Context.mk · s.problem) (funext fun y => ?_)
  cases sort with
  | none => exact lookup_filter_ne x y s.sorts
  | some sort =>
    refine (lookup_cons_ite ..).trans ?_
    rw [lookup_filter_ne]
    by_cases hy : y = x <;> simp [Scope.assign, Reading.context, hy]

theorem outcome_enterScope (bindings : List (String × Term)) (s : Reading) :
    outcome (enterScope bindings) s = some ((s.context.scope.enter bindings).1, s.cursor,
      { s.context with scope := (s.context.scope.enter bindings).2 }) := by
  induction bindings generalizing s with
  | nil => rfl
  | cons b bindings ih =>
    obtain ⟨x, t⟩ := b
    obtain ⟨s₁, hset, hcursor, hcontext⟩ := outcome_eq_some.mp (outcome_setSort x (some t.sort) s)
    obtain ⟨s₂, henter, hcursor', hcontext'⟩ := outcome_eq_some.mp (ih s₁)
    have hold : (sortOf? x).run s = .ok (s.context.scope x, s) := rfl
    rw [enterScope, outcome_bind_of_ok hold, outcome_bind_of_ok hset, outcome_bind_of_ok henter]
    refine outcome_eq_some.mpr ⟨s₂, ?_, ?_, ?_⟩
    · rw [hcontext]
      rfl
    · rw [hcursor', hcursor]
    · rw [hcontext', hcontext, Scope.enter]

theorem outcome_leaveScope (old : List (String × Option BaseSort)) (s : Reading) :
    outcome (leaveScope old) s =
      some ((), s.cursor, { s.context with scope := s.context.scope.leave old }) := by
  induction old generalizing s with
  | nil => rfl
  | cons b old ih =>
    obtain ⟨x, sort⟩ := b
    obtain ⟨s₁, hset, hcursor, hcontext⟩ := outcome_eq_some.mp (outcome_setSort x sort s)
    rw [leaveScope, outcome_bind_of_ok hset, ih, hcursor, hcontext, Scope.leave]

theorem phased_readNumeral : Phased (do return Term.int (← Reader.readNumeral))
    (do return Form.numeral (← scan Reader.readNumeral)) fun f => inScope fun p => f.resolve p :=
  .scan scans_readNumeral fun _ _ => rfl

theorem phased_readName :
    Phased readName (scan readSymbol >>= fun x => pure (Form.name x))
      fun (f : Form) => inScope fun p => f.resolve p := by
  refine .scan scans_readSymbol fun x => ?_
  intro s
  rfl

/-- The readers of terms, arguments, bindings and quantified variables parse and resolve. -/
structure PhasedWithin (n : Nat) : Prop where
  term : Phased (readTermWithin n) (formWithin n) fun f => inScope fun p => f.resolve p
  arguments : Phased (readArgsWithin n) (argsWithin n) fun fs => inScope fun p =>
    Form.resolveArgs p fs
  bindings : Phased (readBindingsWithin n) (bindingsWithin n) fun bs => inScope fun p =>
    Form.resolveBindings p bs
  bound : Phased (readBoundWithin n) (boundWithin n) fun bound Γ =>
    some ((), { Γ with scope := Γ.scope.declare bound })

namespace PhasedWithin

variable {n : Nat}

theorem zero : PhasedWithin 0 := ⟨.fail, .fail, .fail, .fail⟩

/-- The body of a `let` is resolved in the scope with its names. -/
theorem body (h : PhasedWithin n) (values : List (String × Term)) :
    Phased
      (do
        expect ')'
        let old ← enterScope values
        let body ← readTermWithin n
        expect ')'
        leaveScope old
        return body.substitute (bindingSubstitution values))
      (do
        scan (expect ')')
        let body ← formWithin n
        scan (expect ')')
        return body)
      fun body => inScope fun p σ => (body.resolve p (σ.enter values).2).map fun r =>
        (r.1.substitute (bindingSubstitution values), r.2.leave (σ.enter values).1) := by
  refine .scan (scans_expect _) fun _ => ?_
  have hleave (old : List (String × Option BaseSort)) (t : Term) :
      Phased (do leaveScope old; return t.substitute (bindingSubstitution values))
        (pure () : Parse Unit) fun _ Γ => some (t.substitute (bindingSubstitution values),
          { Γ with scope := Γ.scope.leave old }) := by
    intro s
    obtain ⟨s₁, hrun, hcursor, hcontext⟩ := outcome_eq_some.mp (outcome_leaveScope old s)
    rw [outcome_bind_of_ok hrun]
    exact outcome_eq_some.mpr ⟨s₁, rfl, hcursor, hcontext⟩
  refine (Phased.act (fun Γ => ((Γ.scope.enter values).1,
    { Γ with scope := (Γ.scope.enter values).2 })) (outcome_enterScope values) fun old =>
    h.term.seq fun t => .scan (scans_expect _) fun _ => hleave old t).congr Prod.fst ?_ ?_
  · simp
  · intro f Γ
    simp only [inScope, Option.map_map]
    cases f.1.resolve Γ.problem (Γ.scope.enter values).2 <;> rfl

theorem quantified (h : PhasedWithin n) :
    Phased
      (do
        readBoundWithin n
        expect ')'
        let body ← readTermWithin n
        expect ')'
        return body)
      (do
        let bound ← boundWithin n
        scan (expect ')')
        let body ← formWithin n
        scan (expect ')')
        return Form.quantified bound body)
      fun f => inScope fun p => f.resolve p := by
  refine (h.bound.seq fun _ => .scan (scans_expect _) fun _ => h.term.before
    (scans_expect _)).congr (fun r => .quantified r.1 r.2) ?_ ?_
  · simp
  · intro r Γ
    rfl

theorem applied (h : PhasedWithin n) (name : String) :
    Phased
      (do
        let args ← readArgsWithin n
        expect ')'
        applyName (← get).problem name args)
      (do
        let args ← argsWithin n
        scan (expect ')')
        return Form.apply name args)
      fun f => inScope fun p => f.resolve p := by
  have happly (args : List Term) : Phased (do applyName (← get).problem name args)
      (pure () : Parse Unit) fun _ Γ =>
        (applyName Γ.problem name args).toOption.map fun t => (t, Γ) := by
    intro s
    change _ = ((applyName s.problem name args).toOption.map fun t => (t, s.context)).map _
    cases h : applyName s.problem name args with
    | error e =>
      have hget : (get : Read Reading).run s = .ok (s, s) := rfl
      rw [outcome_bind_of_ok hget, h]
      rfl
    | ok t =>
      have hget : (get : Read Reading).run s = .ok (s, s) := rfl
      rw [outcome_bind_of_ok hget, h]
      rfl
  refine (h.arguments.seq fun args => .scan (scans_expect _) fun _ => happly args).congr
    (fun r => .apply name r.1) ?_ ?_
  · simp
  · rintro ⟨args, _⟩ Γ
    simp only [inScope, Form.resolve]
    cases Form.resolveArgs Γ.problem args Γ.scope with
    | none => rfl
    | some r => cases h : applyName Γ.problem name r.1 <;> simp [h, Except.toOption]

theorem readTerm (h : PhasedWithin n) : Phased (readTermWithin (n + 1)) (formWithin (n + 1))
    fun f => inScope fun p => f.resolve p := by
  rw [readTermWithin, formWithin]
  refine .scan scans_skipBlanks fun _ => .scan scans_peek? fun next => ?_
  split
  · refine .scan (scans_expect _) fun _ => .scan scans_readSymbol fun name =>
      .scan scans_skipBlanks fun _ => ?_
    split
    · refine .scan (scans_expect _) fun _ => ?_
      refine (h.bindings.seq fun bindings => h.body bindings).congr
        (fun r => .letIn r.1 r.2) ?_ ?_
      · simp
      · rintro ⟨bindings, body⟩ Γ
        simp only [inScope, Form.resolve]
        cases Form.resolveBindings Γ.problem bindings Γ.scope with
        | none => rfl
        | some r =>
          simp only [Option.bind_eq_bind, Option.bind_some, Option.map_some]
          cases body.resolve Γ.problem (r.2.enter r.1).2 <;> rfl
    · exact .scan (scans_expect _) fun _ => h.quantified
    · exact .scan (scans_expect _) fun _ => h.quantified
    · next hlet hforall hexists =>
      simpa only [hlet, hforall, hexists] using h.applied name
  · next c hparen =>
    by_cases hdigit : c.isDigit
    · simpa only [hparen, hdigit, if_true] using phased_readNumeral
    · simpa only [hparen, hdigit, if_false, Bool.false_eq_true] using phased_readName
  · exact .fail

theorem readArgs (h : PhasedWithin n) : Phased (readArgsWithin (n + 1)) (argsWithin (n + 1))
    fun fs => inScope fun p => Form.resolveArgs p fs := by
  rw [readArgsWithin, argsWithin]
  refine .scan scans_skipBlanks fun _ => .scan scans_peek? fun next => ?_
  split
  · exact .pure fun Γ => rfl
  · refine (h.term.seq fun t => h.arguments.result).congr (fun r => r.1 :: r.2) ?_ ?_
    · simp
    · rintro ⟨f, fs⟩ Γ
      simp only [inScope, Form.resolveArgs]
      cases f.resolve Γ.problem Γ.scope with
      | none => rfl
      | some r =>
        simp only [Option.bind_eq_bind, Option.bind_some, Option.map_some]
        cases Form.resolveArgs Γ.problem fs r.2 <;> rfl

theorem readBindings (h : PhasedWithin n) :
    Phased (readBindingsWithin (n + 1)) (bindingsWithin (n + 1))
      fun bs => inScope fun p => Form.resolveBindings p bs := by
  rw [readBindingsWithin, bindingsWithin]
  refine .scan scans_skipBlanks fun _ => .scan scans_peek? fun next => ?_
  split
  · exact .pure fun Γ => rfl
  · refine .scan (scans_expect _) fun _ => .scan scans_readSymbol fun name => ?_
    refine (h.term.seq fun t => .scan (scans_expect _) fun _ => h.bindings.result).congr
      (fun r => (name, r.1) :: r.2) ?_ ?_
    · simp
    · rintro ⟨f, bs⟩ Γ
      simp only [inScope, Form.resolveBindings]
      cases f.resolve Γ.problem Γ.scope with
      | none => rfl
      | some r =>
        simp only [Option.bind_eq_bind, Option.bind_some, Option.map_some]
        cases Form.resolveBindings Γ.problem bs r.2 <;> rfl

theorem readBound (h : PhasedWithin n) : Phased (readBoundWithin (n + 1)) (boundWithin (n + 1))
    fun bound Γ => some ((), { Γ with scope := Γ.scope.declare bound }) := by
  rw [readBoundWithin, boundWithin]
  refine .scan scans_skipBlanks fun _ => .scan scans_peek? fun next => ?_
  split
  · exact .pure fun Γ => rfl
  · refine .scan (scans_expect _) fun _ => .scan scans_readSymbol fun name =>
      .scan scans_readSort fun sort => .scan (scans_expect _) fun _ => ?_
    refine (Phased.act (fun Γ => ((), { Γ with scope := Γ.scope.assign name (some sort) }))
      (outcome_setSort name (some sort)) fun _ => h.bound).congr ((name, sort) :: ·) ?_ ?_
    · simp
    · intro bound Γ
      rfl

end PhasedWithin

/-- By induction on the number of characters left, which bounds the depth of terms. -/
theorem phasedWithin (n : Nat) : PhasedWithin n := by
  induction n with
  | zero => exact .zero
  | succ n ih => exact ⟨ih.readTerm, ih.readArgs, ih.readBindings, ih.readBound⟩

/-- Reading a term is parsing a form and resolving it. -/
theorem phased_readTerm :
    Phased readTerm parseForm fun f => inScope fun p => f.resolve p := by
  intro s
  have hget : (get : Read Reading).run s = .ok (s, s) := rfl
  rw [readTerm, outcome_bind_of_ok hget]
  exact (phasedWithin _).term s

/-- Reading a command is parsing it and performing it. -/
def PhasedCommand (x : Read Unit) (φ : Parse Command) : Prop :=
  Phased x φ fun c Γ => (c.perform Γ).map fun Γ' => ((), Γ')

theorem phasedCommand_readRelation (isFunction : Bool) :
    PhasedCommand (readRelation isFunction) (parseRelation isFunction) := by
  have hdeclare (name : String) (sorts : List BaseSort) :
      PhasedCommand (modifyProblem (·.declare name sorts))
        (return Command.relation name sorts) := fun s => rfl
  unfold readRelation parseRelation
  refine .scan scans_readSymbol fun name => .scan scans_skipBlanks fun _ =>
    .scan (scans_expect _) fun _ => ?_
  rw [← bind_assoc]
  refine .scan scans_readSorts fun sorts => .scan (scans_expect _) fun _ => ?_
  cases isFunction with
  | false => exact hdeclare name sorts
  | true =>
    refine .scan scans_readSort fun sort => ?_
    split
    · exact .fail
    · exact hdeclare name sorts

theorem phasedCommand_readVariable : PhasedCommand readVariable parseVariable :=
  .scan scans_readSymbol fun name => .scan scans_readSort fun sort s => by
    rw [outcome_setSort]
    rfl

theorem phasedCommand_readRule : PhasedCommand readRule parseRule := by
  have hread : readRule = readTerm >>= fun t =>
      (Clause.ofFormula? t).elim (pure ()) fun c => modifyProblem (·.addClause c) := by
    unfold readRule
    congr 1
    funext t
    cases Clause.ofFormula? t <;> rfl
  have hadd (t : Term) : Phased
      ((Clause.ofFormula? t).elim (pure ()) fun c => modifyProblem (·.addClause c))
      (pure () : Parse Unit) fun _ Γ =>
        some ((), { Γ with problem := (Clause.ofFormula? t).elim Γ.problem Γ.problem.addClause }) := by
    intro s
    cases Clause.ofFormula? t <;> rfl
  rw [hread]
  refine (phased_readTerm.seq hadd).congr (fun r => .rule r.1) (by simp [parseRule]) ?_
  rintro ⟨f, _⟩ Γ
  simp only [Command.perform, inScope]
  cases f.resolve Γ.problem Γ.scope <;> rfl

theorem phasedCommand_readQuery : PhasedCommand readQuery parseQuery := by
  refine .scan scans_peek? fun next => ?_
  split
  · have hadd (t : Term) : Phased (modifyProblem (·.addClause (.ofBody t))) (pure () : Parse Unit)
        fun _ Γ => some ((), { Γ with problem := Γ.problem.addClause (.ofBody t) }) :=
      fun s => rfl
    refine (phased_readTerm.seq hadd).congr (fun r => .query r.1) (by simp) ?_
    rintro ⟨f, _⟩ Γ
    simp only [Command.perform, inScope]
    cases f.resolve Γ.problem Γ.scope <;> rfl
  · refine .scan scans_readSymbol fun name s => ?_
    have hget : (get : Read Reading).run s = .ok (s, s) := rfl
    rw [outcome_bind_of_ok hget]
    change _ = (((s.problem.named? name).bind fun r => _).map _).map _
    cases s.problem.named? name <;> rfl

namespace PhasedCommand

variable {x : Read Unit} {φ : Parse Command}

theorem idle (h : Scans x) : PhasedCommand x (do scan x; return .idle) := by
  have hidle : PhasedCommand (pure ()) (pure Command.idle) := fun s => rfl
  simpa [PhasedCommand] using Phased.scan h fun _ => hidle

/-- Most commands end with a closing parenthesis. -/
theorem finish (h : PhasedCommand x φ) :
    PhasedCommand (do x; finishCommand) (do let c ← φ; scan finishCommand; return c) := by
  simpa [PhasedCommand] using h.before scans_finishCommand

theorem readCommand : PhasedCommand readCommand parseCommand := by
  unfold Reader.readCommand parseCommand parseCommandBody
  refine .scan (scans_expect _) fun _ => .scan scans_skipBlanks fun _ =>
    .scan scans_readSymbol fun name => .scan scans_skipBlanks fun _ => ?_
  split
  · exact .scan scans_readSymbol fun _ => idle scans_finishCommand
  · exact (phasedCommand_readRelation false).finish
  · exact (phasedCommand_readRelation true).finish
  · exact phasedCommand_readVariable.finish
  · exact phasedCommand_readVariable.finish
  · exact phasedCommand_readRule.finish
  · exact phasedCommand_readRule.finish
  · exact phasedCommand_readQuery.finish
  · next hlogic hrel hfun hvar hconst hrule hassert hquery =>
    have hskip : PhasedCommand (move Cursor.skipGroup) _ := idle (scans_move _)
    simpa only [PhasedCommand, hlogic, hrel, hfun, hvar, hconst, hrule, hassert, hquery] using hskip

end PhasedCommand

theorem phased_readCommandsWithin (n : Nat) :
    Phased (readCommandsWithin n) (commandsWithin n)
      fun cs Γ => (performAll cs Γ).map fun Γ' => ((), Γ') := by
  induction n with
  | zero => exact fun s => rfl
  | succ n ih =>
    refine .scan scans_skipBlanks fun _ => .scan scans_peek? fun next => ?_
    split
    · refine (PhasedCommand.readCommand.seq fun _ => ih).congr (fun r => r.1 :: r.2) (by simp) ?_
      rintro ⟨c, cs⟩ Γ
      simp only [performAll]
      cases c.perform Γ <;> rfl
    · exact fun s => rfl

end Phases

/-- A problem is read by parsing the commands of a text and performing them. -/
theorem read_eq_ok {text : String} {p : Problem} :
    Problem.read text = .ok p ↔ ∃ cs c Γ,
      commandsWithin text.toList.length (.start text) = some (cs, c) ∧
        performAll cs {} = some Γ ∧ Γ.problem = p := by
  have hphases := phased_readCommandsWithin text.toList.length { cursor := .start text }
  change outcome _ _ = (commandsWithin text.toList.length (.start text)).bind fun r =>
    ((performAll r.1 {}).map fun Γ => ((), Γ)).map fun r' => (r'.1, r.2, r'.2) at hphases
  have hread : Problem.read text = .ok p ↔ ∃ c Γ,
      outcome (readCommandsWithin text.toList.length) { cursor := .start text } = some ((), c, Γ) ∧
        Γ.problem = p := by
    rw [Problem.read, Except.bind_eq_ok]
    constructor
    · rintro ⟨⟨_, s⟩, hrun, hp⟩
      exact ⟨s.cursor, s.context, outcome_eq_some.mpr ⟨s, hrun, rfl, rfl⟩, Except.ok.inj hp⟩
    · rintro ⟨c, Γ, hout, rfl⟩
      obtain ⟨s, hrun, -, rfl⟩ := outcome_eq_some.mp hout
      exact ⟨((), s), hrun, rfl⟩
  rw [hread, hphases]
  simp only [Option.bind_eq_some_iff, Option.map_eq_some_iff]
  constructor
  · rintro ⟨c, Γ, ⟨⟨cs, c'⟩, hcs, _, ⟨Γ', hΓ, rfl⟩, heq⟩, rfl⟩
    obtain ⟨rfl, rfl⟩ := by simpa using heq
    exact ⟨cs, c', Γ', hcs, hΓ, rfl⟩
  · rintro ⟨cs, c, Γ, hcs, hΓ, rfl⟩
    exact ⟨c, Γ, ⟨(cs, c), hcs, _, ⟨Γ, hΓ, rfl⟩, rfl⟩, rfl⟩

end HornSaturation.Reader
