import HornSaturation.Run.Basic

/-!
# Steps that may fail

What a step guarantees is said by two conditions, one for the result and the state after success and
one for the error and the state after failure, because a failing step keeps the changes that it has
made before. Each way to build a step has a rule that reduces the guarantee of the whole to those of
the parts.
-/

namespace HornSaturation

section General

variable {ε σ α β : Type} {s : σ} {ok : α → σ → Prop} {ok' : β → σ → Prop} {fail : ε → σ → Prop}

/-- A step that is started in a state ends in success or failure as the conditions say. -/
def Ensures (x : ExceptT ε (StateM σ) α) (s : σ) (ok : α → σ → Prop) (fail : ε → σ → Prop) : Prop :=
  match (x.run.run s : Except ε α × σ) with
  | (.ok a, s') => ok a s'
  | (.error e, s') => fail e s'

theorem Ensures.mono {x : ExceptT ε (StateM σ) α} {ok₁ : α → σ → Prop} {fail₁ : ε → σ → Prop}
    (h : Ensures x s ok fail) (hok : ∀ a s', ok a s' → ok₁ a s')
    (hfail : ∀ e s', fail e s' → fail₁ e s') : Ensures x s ok₁ fail₁ := by
  unfold Ensures at h ⊢
  split
  · next a s' heq =>
    rw [heq] at h
    exact hok a s' h
  · next e s' heq =>
    rw [heq] at h
    exact hfail e s' h

theorem Ensures.and {x : ExceptT ε (StateM σ) α} {ok₁ : α → σ → Prop} {fail₁ : ε → σ → Prop}
    (h : Ensures x s ok fail) (h₁ : Ensures x s ok₁ fail₁) :
    Ensures x s (fun a s' => ok a s' ∧ ok₁ a s') fun e s' => fail e s' ∧ fail₁ e s' := by
  unfold Ensures at h h₁ ⊢
  split
  · next a s' heq =>
    rw [heq] at h h₁
    exact ⟨h, h₁⟩
  · next e s' heq =>
    rw [heq] at h h₁
    exact ⟨h, h₁⟩

/-- Every step ends as it does. -/
theorem ensures_run {x : ExceptT ε (StateM σ) α} :
    Ensures x s (fun a s' => x.run.run s = (.ok a, s'))
      fun e s' => x.run.run s = (.error e, s') := by
  unfold Ensures
  split <;> assumption

/-- What a step that has succeeded guarantees. -/
theorem Ensures.of_ok {x : ExceptT ε (StateM σ) α} {a : α} {s' : σ} (h : Ensures x s ok fail)
    (heq : x.run.run s = (.ok a, s')) : ok a s' := by
  unfold Ensures at h
  rwa [heq] at h

/-- A step that is known to succeed guarantees what holds then. -/
theorem ensures_iff_of_ok {x : ExceptT ε (StateM σ) α} {a : α} {s' : σ}
    (heq : x.run.run s = (.ok a, s')) : Ensures x s ok fail ↔ ok a s' := by
  unfold Ensures
  rw [heq]

/-- A step that cannot fail succeeds. -/
theorem Ensures.exists_ok {x : ExceptT ε (StateM σ) α} (h : Ensures x s ok fail)
    (hfail : ∀ e s', ¬ fail e s') : ∃ a s', x.run.run s = (.ok a, s') ∧ ok a s' := by
  unfold Ensures at h
  split at h
  · next a s' heq => exact ⟨a, s', heq, h⟩
  · next e s' heq => exact absurd h (hfail e s')

/-- A step that cannot succeed fails. -/
theorem Ensures.exists_error {x : ExceptT ε (StateM σ) α} (h : Ensures x s ok fail)
    (hok : ∀ a s', ¬ ok a s') : ∃ e s', x.run.run s = (.error e, s') ∧ fail e s' := by
  unfold Ensures at h
  split at h
  · next a s' heq => exact absurd h (hok a s')
  · next e s' heq => exact ⟨e, s', heq, h⟩

/-- What a step guarantees of the state whether it succeeds or fails. -/
theorem Ensures.final {x : ExceptT ε (StateM σ) α} {P : σ → Prop}
    (h : Ensures x s (fun _ s' => P s') fun _ s' => P s') : P (x.run.run s).2 := by
  unfold Ensures at h
  split at h
  · next heq => rwa [heq]
  · next heq => rwa [heq]

@[simp] theorem ensures_pure {a : α} :
    Ensures (pure a : ExceptT ε (StateM σ) α) s ok fail ↔ ok a s := .rfl

@[simp] theorem ensures_throw {e : ε} :
    Ensures (throw e : ExceptT ε (StateM σ) α) s ok fail ↔ fail e s := .rfl

/-- What follows a step that has succeeded goes on from the state that it has left. -/
theorem run_bind_of_ok {x : ExceptT ε (StateM σ) α} {f : α → ExceptT ε (StateM σ) β} {s' : σ}
    {a : α} (h : x.run.run s = (.ok a, s')) : (x >>= f).run.run s = (f a).run.run s' := by
  rw [ExceptT.run_bind, StateT.run_bind, h]
  rfl

/-- What follows a step that has failed is not done. -/
theorem run_bind_of_error {x : ExceptT ε (StateM σ) α} {f : α → ExceptT ε (StateM σ) β} {s' : σ}
    {e : ε} (h : x.run.run s = (.error e, s')) : (x >>= f).run.run s = (.error e, s') := by
  rw [ExceptT.run_bind, StateT.run_bind, h]
  rfl

/-- Two continuations that agree on what a step may leave agree after the step. -/
theorem run_bind_congr {x : ExceptT ε (StateM σ) α} {f g : α → ExceptT ε (StateM σ) β}
    (h : ∀ a s', x.run.run s = (.ok a, s') → (f a).run.run s' = (g a).run.run s') :
    (x >>= f).run.run s = (x >>= g).run.run s := by
  rcases hx : x.run.run s with ⟨e | a, s'⟩
  · rw [run_bind_of_error hx, run_bind_of_error hx]
  · rw [run_bind_of_ok hx, run_bind_of_ok hx, h a s' hx]

@[simp] theorem ensures_bind {x : ExceptT ε (StateM σ) α} {f : α → ExceptT ε (StateM σ) β} :
    Ensures (x >>= f) s ok' fail ↔
      Ensures x s (fun a s' => Ensures (f a) s' ok' fail) fail := by
  unfold Ensures
  rcases h : (x.run.run s : Except ε α × σ) with ⟨e | a, s'⟩
  · rw [run_bind_of_error h]
  · rw [run_bind_of_ok h]

@[simp] theorem ensures_get {ok : σ → σ → Prop} :
    Ensures (get : ExceptT ε (StateM σ) σ) s ok fail ↔ ok s s := .rfl

@[simp] theorem ensures_modify {f : σ → σ} {ok : PUnit → σ → Prop} :
    Ensures (modify f : ExceptT ε (StateM σ) PUnit) s ok fail ↔ ok ⟨⟩ (f s) := .rfl

@[simp] theorem ensures_modifyGet {f : σ → α × σ} :
    Ensures (modifyGet f : ExceptT ε (StateM σ) α) s ok fail ↔ ok (f s).1 (f s).2 := .rfl

@[simp] theorem ensures_ok {a : α} :
    Ensures (liftM (Except.ok a : Except ε α) : ExceptT ε (StateM σ) α) s ok fail ↔ ok a s := .rfl

@[simp] theorem ensures_error {e : ε} :
    Ensures (liftM (Except.error e : Except ε α) : ExceptT ε (StateM σ) α) s ok fail ↔
      fail e s := .rfl

/-- A step that only may fail. -/
theorem ensures_liftM {x : Except ε α} :
    Ensures (liftM x : ExceptT ε (StateM σ) α) s ok fail ↔
      (∀ a, x = .ok a → ok a s) ∧ ∀ e, x = .error e → fail e s := by
  cases x <;> simp

/-- A step that is started where an invariant holds keeps it, whether it succeeds or fails, and what
it gives back is of some kind. -/
def Maintains (I : σ → Prop) (P : α → Prop) (x : ExceptT ε (StateM σ) α) : Prop :=
  ∀ s, I s → Ensures x s (fun a s' => I s' ∧ P a) fun _ s' => I s'

namespace Maintains

variable {I : σ → Prop} {P : α → Prop} {Q : β → Prop}

/-- Where nothing is asked for, every step will do. -/
theorem any (x : ExceptT ε (StateM σ) α) : Maintains (fun _ => True) (fun _ => True) x :=
  fun _ _ => ensures_run.mono (fun _ _ _ => ⟨trivial, trivial⟩) fun _ _ _ => trivial

theorem pure {a : α} (h : P a) : Maintains I P (Pure.pure a : ExceptT ε (StateM σ) α) :=
  fun _ hs => ⟨hs, h⟩

theorem throw (e : ε) : Maintains I P (MonadExcept.throw e : ExceptT ε (StateM σ) α) :=
  fun _ hs => hs

theorem get : Maintains I I (MonadState.get : ExceptT ε (StateM σ) σ) := fun _ hs => ⟨hs, hs⟩

theorem bind {x : ExceptT ε (StateM σ) α} {f : α → ExceptT ε (StateM σ) β}
    (hx : Maintains I P x) (hf : ∀ a, P a → Maintains I Q (f a)) : Maintains I Q (x >>= f) :=
  fun s hs => ensures_bind.mpr <| (hx s hs).mono (fun a s' h => hf a h.2 s' h.1) fun _ _ => id

/-- A step that only may fail leaves the state to what follows. -/
theorem liftBind {x : Except ε α} {f : α → ExceptT ε (StateM σ) β}
    (hf : ∀ a, x = .ok a → Maintains I Q (f a)) :
    Maintains I Q ((liftM x : ExceptT ε (StateM σ) α) >>= f) := fun s hs =>
  ensures_bind.mpr <| ensures_liftM.mpr ⟨fun a ha => hf a ha s hs, fun _ _ => hs⟩

theorem throwBind (e : ε) (f : α → ExceptT ε (StateM σ) β) :
    Maintains I Q ((MonadExcept.throw e : ExceptT ε (StateM σ) α) >>= f) := fun _ hs => hs

theorem foldlM {f : β → α → ExceptT ε (StateM σ) β} {as : List α} {b : β}
    (hf : ∀ b, Q b → ∀ a ∈ as, Maintains I Q (f b a)) (hb : Q b) :
    Maintains I Q (as.foldlM f b) := by
  induction as generalizing b with
  | nil => exact .pure hb
  | cons a as ih =>
    refine (hf b hb a List.mem_cons_self).bind fun b' hb' => ih (fun b hb a ha => ?_) hb'
    exact hf b hb a (List.mem_cons_of_mem _ ha)

end Maintains

end General

section Parts

variable {α σ : Type}

@[simp] theorem ensures_allocate {step : Allocating α} {w : Workspace}
    {ok : α → Workspace → Prop} {fail : Error → Workspace → Prop} :
    Ensures (Working.allocate step) w ok fail ↔
      Ensures step w.symbols (fun a s => ok a { w with symbols := s })
        fun e s => fail e { w with symbols := s } := by
  have hrun : ((Working.allocate step).run.run w : Except Error α × Workspace) =
      ((step.run.run w.symbols : Except Error α × Symbols).1,
        { w with symbols := (step.run.run w.symbols : Except Error α × Symbols).2 }) := rfl
  unfold Ensures
  rw [hrun]
  rcases (step.run.run w.symbols : Except Error α × Symbols) with ⟨_ | _, _⟩ <;> rfl

@[simp] theorem ensures_work {step : Working α} {r : Run σ} {ok : α → Run σ → Prop}
    {fail : Error → Run σ → Prop} :
    Ensures (Running.work step) r ok fail ↔
      Ensures step r.workspace (fun a w => ok a { r with workspace := w })
        fun e w => fail e { r with workspace := w } := by
  have hrun : ((Running.work step).run.run r : Except Error α × Run σ) =
      ((step.run.run r.workspace : Except Error α × Workspace).1,
        { r with workspace := (step.run.run r.workspace : Except Error α × Workspace).2 }) := rfl
  unfold Ensures
  rw [hrun]
  rcases (step.run.run r.workspace : Except Error α × Workspace) with ⟨_ | _, _⟩ <;> rfl

@[simp] theorem ensures_workspace_ask {question : Oracle → α × Oracle} {w : Workspace}
    {ok : α → Workspace → Prop} {fail : Error → Workspace → Prop} :
    Ensures (Working.ask question) w ok fail ↔
      ok (question w.oracle).1 { w with oracle := (question w.oracle).2 } := .rfl

@[simp] theorem ensures_ask {question : Oracle → α × Oracle} {r : Run σ}
    {ok : α → Run σ → Prop} {fail : Error → Run σ → Prop} :
    Ensures (Running.ask question) r ok fail ↔
      ok (question r.workspace.oracle).1
        { r with workspace := { r.workspace with oracle := (question r.workspace.oracle).2 } } :=
  .rfl

@[simp] theorem ensures_report {e : Event} {r : Run σ} {ok : Unit → Run σ → Prop}
    {fail : Error → Run σ → Prop} :
    Ensures (Running.report e) r ok fail ↔ ok () { r with events := r.events ++ [e] } := .rfl

@[simp] theorem ensures_count {f : Statistics → Statistics} {r : Run σ} {ok : Unit → Run σ → Prop}
    {fail : Error → Run σ → Prop} :
    Ensures (Running.count f) r ok fail ↔ ok () { r with statistics := f r.statistics } := .rfl

theorem ensures_changeStore {f : Store → Except Error (α × Store)} {r : Run σ}
    {ok : α → Run σ → Prop} {fail : Error → Run σ → Prop} :
    Ensures (Running.changeStore f) r ok fail ↔
      (∀ a units, f r.units = .ok (a, units) → ok a { r with units }) ∧
        ∀ e, f r.units = .error e → fail e r := by
  simp only [Running.changeStore, ensures_bind, ensures_get, ensures_liftM, ensures_modify,
    ensures_pure, Prod.forall]

end Parts

end HornSaturation
