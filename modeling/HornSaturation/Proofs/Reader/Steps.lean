import HornSaturation.Proofs.Data.Results
import HornSaturation.Reader.Tokens

/-!
# Steps of reading

A step of reading gives a result and a later state, or finds fault with the input. What a step
guarantees if it finds no fault comes from what its parts guarantee. Reading a term changes the
place in the input and the variables in scope, but not the problem read so far.
-/

namespace HornSaturation.Reader

variable {α β : Type} {s s' : Reading}

/-- What follows a step goes on from the state that it has left. -/
theorem run_bind_of_eq {x : Read α} {f : α → Read β} {a : α} (h : x.run s = .ok (a, s')) :
    (x >>= f).run s = (f a).run s' := by
  rw [StateT.run_bind, h]
  rfl

theorem run_bind_eq_ok {x : Read α} {f : α → Read β} {b : β} :
    (x >>= f).run s = .ok (b, s') ↔
      ∃ a s₁, x.run s = .ok (a, s₁) ∧ (f a).run s₁ = .ok (b, s') := by
  rw [StateT.run_bind, Except.bind_eq_ok]
  exact Prod.exists

/-- A step leaves the problem as it is, and its result has some property. -/
def Yields (p : Problem) (P : α → Prop) (x : Read α) : Prop :=
  ∀ s a s', s.problem = p → x.run s = .ok (a, s') → s'.problem = p ∧ P a

namespace Yields

variable {p : Problem} {P : α → Prop} {Q : β → Prop}

theorem pure {a : α} (h : P a) : Yields p P (pure a) := by
  intro s b s' hs hrun
  obtain ⟨rfl, rfl⟩ := Prod.mk.inj (Except.ok.inj hrun)
  exact ⟨hs, h⟩

theorem fail {fault : InputFault} : Yields p P (fail fault) := by
  intro s a s' _ hrun
  cases hrun

theorem bind {x : Read α} {f : α → Read β} (hx : Yields p P x)
    (hf : ∀ a, P a → Yields p Q (f a)) : Yields p Q (x >>= f) := by
  intro s b s' hs hrun
  obtain ⟨a, s₁, ha, hb⟩ := run_bind_eq_ok.mp hrun
  obtain ⟨hs₁, hPa⟩ := hx s a s₁ hs ha
  exact hf a hPa s₁ b s' hs₁ hb

theorem mono {x : Read α} {P' : α → Prop} (h : Yields p P x) (hP : ∀ a, P a → P' a) :
    Yields p P' x := fun s a s' hs hrun => (h s a s' hs hrun).imp_right (hP a)

/-- Reading what the problem is. -/
theorem get : Yields p (fun s => s.problem = p) (get : Read Reading) := by
  intro s a s' hs hrun
  obtain ⟨rfl, rfl⟩ := Prod.mk.inj (Except.ok.inj hrun)
  exact ⟨hs, hs⟩

/-- Changing anything but the problem. -/
theorem modify {f : Reading → Reading} (hf : ∀ s, (f s).problem = s.problem) :
    Yields p (fun _ => True) (modify f : Read Unit) := by
  intro s a s' hs hrun
  obtain ⟨-, rfl⟩ := Prod.mk.inj (Except.ok.inj hrun)
  exact ⟨(hf s).trans hs, trivial⟩

theorem liftExcept {x : Except Error α} (h : ∀ a, x = .ok a → P a) :
    Yields p P (liftM x : Read α) := by
  intro s a s' hs hrun
  cases x with
  | error e => cases hrun
  | ok b =>
    obtain ⟨rfl, rfl⟩ := Prod.mk.inj (Except.ok.inj hrun)
    exact ⟨hs, h b rfl⟩

end Yields

section Tokens

variable {p : Problem}

theorem yields_move (f : Cursor → Cursor) : Yields p (fun _ => True) (move f) :=
  .modify fun _ => rfl

theorem yields_peek? : Yields p (fun _ => True) peek? :=
  Yields.get.bind fun _ _ => .pure trivial

theorem yields_skipBlanks : Yields p (fun _ => True) skipBlanks := yields_move _

theorem yields_readRun (q : Char → Bool) : Yields p (fun _ => True) (readRun q) := by
  refine Yields.get.bind fun s hs => ?_
  intro s₁ a s' hs₁ hrun
  obtain ⟨-, rfl⟩ := Prod.mk.inj (Except.ok.inj hrun)
  exact ⟨hs, trivial⟩

theorem yields_expect (c : Char) : Yields p (fun _ => True) (expect c) := by
  refine yields_skipBlanks.bind fun _ _ => yields_peek?.bind fun next _ => ?_
  cases next with
  | none => exact .fail
  | some d =>
    dsimp only
    split
    · exact yields_move _
    · exact Yields.get.bind fun _ _ => .fail

theorem yields_readSymbol : Yields p (fun _ => True) readSymbol := by
  refine yields_skipBlanks.bind fun _ _ => yields_peek?.bind fun next _ => ?_
  split
  · exact (yields_move _).bind fun _ _ => (yields_readRun _).bind fun _ _ =>
      (yields_move _).bind fun _ _ => .pure trivial
  · refine (yields_readRun _).bind fun name _ => ?_
    split
    · exact Yields.get.bind fun _ _ => Yields.fail
    · exact .pure trivial

theorem yields_readNumeral : Yields p (fun _ => True) readNumeral := by
  refine (yields_readRun _).bind fun digits _ => ?_
  split
  · exact .pure trivial
  · exact .fail

theorem yields_readSort : Yields p (fun _ => True) readSort := by
  refine yields_readSymbol.bind fun name _ => ?_
  split
  · exact .pure trivial
  · exact .pure trivial
  · exact .fail

theorem yields_sortOf? (name : String) : Yields p (fun _ => True) (sortOf? name) :=
  Yields.get.bind fun _ _ => .pure trivial

theorem yields_setSort (name : String) (sort : Option BaseSort) :
    Yields p (fun _ => True) (setSort name sort) := .modify fun _ => rfl

end Tokens

section Leading

variable {pre : Problem → Prop} {x : Read α}

/-- A step that starts with a problem of some kind leads to some results and problems. -/
def Leads (pre : Problem → Prop) (x : Read α) (post : α → Problem → Prop) : Prop :=
  ∀ s a s', pre s.problem → x.run s = .ok (a, s') → post a s'.problem

theorem Leads.bind {f : α → Read β} {mid : α → Problem → Prop} {post : β → Problem → Prop}
    (hx : Leads pre x mid) (hf : ∀ a, Leads (mid a) (f a) post) : Leads pre (x >>= f) post := by
  intro s b s' hs hrun
  obtain ⟨a, s₁, ha, hb⟩ := run_bind_eq_ok.mp hrun
  exact hf a s₁ b s' (hx s a s₁ hs ha) hb

/-- What leaves the problem as it is leads to what it yields beside. -/
theorem Yields.leads {P : Problem → α → Prop} (h : ∀ p, Yields p (P p) x) :
    Leads pre x fun a p => pre p ∧ P p a := by
  intro s a s' hs hrun
  obtain ⟨hp, ha⟩ := h s.problem s a s' rfl hrun
  rw [hp]
  exact ⟨hs, ha⟩

theorem Yields.leads' (h : ∀ p, Yields p (fun _ => True) x) : Leads pre x fun _ => pre :=
  fun s a s' hs hrun => (Yields.leads h s a s' hs hrun).1

theorem Leads.pure {a : α} {post : α → Problem → Prop} (h : ∀ p, pre p → post a p) :
    Leads pre (pure a) post := by
  intro s b s' hs hrun
  obtain ⟨rfl, rfl⟩ := Prod.mk.inj (Except.ok.inj hrun)
  exact h _ hs

theorem Leads.fail {fault : InputFault} {post : α → Problem → Prop} :
    Leads pre (fail fault) post := by
  intro s a s' _ hrun
  cases hrun

end Leading

end HornSaturation.Reader
