import HornSaturation.Proofs.Offsets.Boundaries
import HornSaturation.Proofs.Offsets.Reader

/-!
# Reading by offsets mirrors reading off a list

A step of reading by byte offsets mirrors a step that takes characters off a list if at the same
place of a text both come to the same. The steps of the one reader are put together as those of the
other are, so that what is mirrored is found part by part. Steps that leave the text alone are the
same for both.
-/

namespace HornSaturation.Reader

/-- A cursor stands in a text, and fewer characters are left to be read than there are rounds. -/
structure Cursor.Within (text : String) (rounds : Nat) (c : Cursor) : Prop where
  inText : c.In text
  length_lt : c.rest.length < rounds

namespace Cursor.Within

variable {text : String} {n m : Nat} {c : Cursor}

theorem mono (h : c.Within text n) (hnm : n ≤ m) : c.Within text m :=
  ⟨h.inText, Nat.lt_of_lt_of_le h.length_lt hnm⟩

theorem pass {ch : Char} {cs : List Char} (h : c.Within text n) (hrest : c.rest = ch :: cs) :
    Cursor.Within text (n - 1) ⟨cs, c.offset + ch.utf8Size⟩ := by
  refine ⟨h.inText.pass hrest, ?_⟩
  have hlength := h.length_lt
  rw [hrest, List.length_cons] at hlength
  exact Nat.lt_sub_of_add_lt hlength

end Cursor.Within

/-- The state of reading by offsets at the same place. -/
def Reading.atOffset (s : Reading) : ByOffset.State := ⟨s.cursor.offset, s.sorts, s.problem⟩

/-- The state with the cursor elsewhere. -/
def Reading.withCursor (s : Reading) (c : Cursor) : Reading := { s with cursor := c }

namespace ByOffset

variable {α β : Type} {text : String} {rounds : Nat} {b b' : State} {s s' : Reading} {c : Cursor}

/-- What a step comes to. -/
def result (x : Step α) (b : State) : Option (Except Stop (α × State)) := (x.run b).run

theorem result_bind_of_ok {x : Step α} {f : α → Step β} {a : α}
    (h : result x b = some (.ok (a, b'))) : result (x >>= f) b = result (f a) b' := by
  change (Option.bind (result x b) _ : Option _) = _
  rw [h]
  rfl

theorem result_bind_of_error {x : Step α} {f : α → Step β} {e : Stop}
    (h : result x b = some (.error e)) : result (x >>= f) b = some (.error e) := by
  change (Option.bind (result x b) _ : Option _) = _
  rw [h]
  rfl

theorem result_aside_of_ok {y : Read α} {a : α}
    (h : y.run ⟨⟨[], b.offset⟩, b.sorts, b.problem⟩ = .ok (a, s)) :
    result (aside y) b = some (.ok (a, ⟨b.offset, s.sorts, s.problem⟩)) := by
  rw [result, StateT.run, aside, h]
  rfl

theorem result_aside_of_error {y : Read α} {e : Error}
    (h : y.run ⟨⟨[], b.offset⟩, b.sorts, b.problem⟩ = .error e) :
    result (aside y) b = some (.error (.fault e)) := by
  rw [result, StateT.run, aside, h]
  rfl

/-- A step by offsets mirrors one that takes characters off a list: given more rounds than there are
characters left, it comes to the same result at the same place in the text, or finds the same fault.
Something is asked of the cursor before the step, and something is known of it after. -/
def Mirrors (text : String) (rounds : Nat) (P : Cursor → Prop) (x : Step α) (y : Read α)
    (Q : α → Cursor → Prop) : Prop :=
  ∀ s, s.cursor.Within text rounds → P s.cursor →
    match y.run s with
    | .error e => result x s.atOffset = some (.error (.fault e))
    | .ok (a, s') =>
      result x s.atOffset = some (.ok (a, s'.atOffset)) ∧ s'.cursor.Within text rounds ∧
        Q a s'.cursor

namespace Mirrors

variable {P P' : Cursor → Prop} {Q Q' : α → Cursor → Prop} {R : β → Cursor → Prop}
  {x : Step α} {y y' : Read α}

theorem bind {f : α → Step β} {g : α → Read β} (h : Mirrors text rounds P x y Q)
    (hf : ∀ a, Mirrors text rounds (Q a) (f a) (g a) R) :
    Mirrors text rounds P (x >>= f) (y >>= g) R := by
  intro s hin hP
  have h := h s hin hP
  cases hy : y.run s with
  | error e =>
    rw [hy] at h
    rw [StateT.run_bind, hy]
    exact result_bind_of_error h
  | ok r =>
    rw [hy] at h
    obtain ⟨hx, hin', hQ⟩ := h
    rw [run_bind_of_eq hy, result_bind_of_ok hx]
    exact hf r.1 r.2 hin' hQ

/-- A step that only finds something out mirrors nothing at all. -/
theorem bind_pure {a : α} {f : α → Step β} {z : Read β}
    (h : Mirrors text rounds P x (Pure.pure a) Q)
    (hf : Mirrors text rounds (Q a) (f a) z R) : Mirrors text rounds P (x >>= f) z R := by
  intro s hin hP
  obtain ⟨hx, hin', hQ⟩ := h s hin hP
  rw [result_bind_of_ok hx]
  exact hf s hin' hQ

theorem mono (h : Mirrors text rounds P x y Q) (hP : ∀ c, P' c → P c) (hQ : ∀ a c, Q a c → Q' a c) :
    Mirrors text rounds P' x y Q' := by
  intro s hin hP'
  have h := h s hin (hP _ hP')
  cases hy : y.run s with
  | error e => rwa [hy] at h
  | ok r =>
    rw [hy] at h
    exact ⟨h.1, h.2.1, hQ _ _ h.2.2⟩

theorem congr (h : Mirrors text rounds P x y Q) (hy : ∀ s, y'.run s = y.run s) :
    Mirrors text rounds P x y' Q := by
  intro s hin hP
  rw [hy]
  exact h s hin hP

theorem pure {a : α} (h : ∀ c, P c → Q a c) : Mirrors text rounds P (pure a) (pure a) Q :=
  fun s hin hP => ⟨rfl, hin, h s.cursor hP⟩

theorem fail {fault : InputFault} :
    Mirrors text rounds P (aside (fail fault)) (Reader.fail fault : Read α) Q := fun _ _ _ => rfl

/-- A fault is found at a place in the text. -/
theorem failAt {fault : Nat → InputFault} :
    Mirrors text rounds P (do aside (Reader.fail (fault (← offset))))
      (do Reader.fail (fault (← get).cursor.offset) : Read α) Q := fun _ _ _ => rfl

end Mirrors

/-- A step of reading that neither depends on the place in the text nor changes it. -/
def Still (y : Read α) : Prop :=
  ∀ s c, y.run (s.withCursor c) = (y.run s).map fun r => (r.1, r.2.withCursor c)

namespace Still

theorem pure (a : α) : Still (pure a) := fun _ _ => rfl

theorem bind {y : Read α} {g : α → Read β} (hy : Still y) (hg : ∀ a, Still (g a)) :
    Still (y >>= g) := by
  intro s c
  have h := hy s c
  cases hrun : y.run s with
  | error e =>
    rw [hrun] at h
    rw [StateT.run_bind, StateT.run_bind, h, hrun]
    rfl
  | ok r =>
    rw [hrun] at h
    rw [run_bind_of_eq (a := r.1) h, run_bind_of_eq hrun]
    exact hg r.1 r.2 c

/-- What depends on the problem only does not depend on the place. -/
theorem ofProblem {f : Problem → Except Error α} :
    Still (do f (← get).problem : Read α) := by
  intro s c
  change Except.bind (f s.problem) _ = Except.map _ (Except.bind (f s.problem) _)
  cases f s.problem <;> rfl

theorem sortOf? (name : String) : Still (sortOf? name) := fun _ _ => rfl

theorem setSort (name : String) (sort : Option BaseSort) : Still (setSort name sort) :=
  fun _ _ => rfl

theorem modifyProblem (f : Problem → Problem) : Still (modifyProblem f) := fun _ _ => rfl

theorem enterScope (bindings : List (String × Term)) : Still (enterScope bindings) := by
  induction bindings with
  | nil => exact .pure _
  | cons b bindings ih =>
    exact (sortOf? _).bind fun old => (setSort _ _).bind fun _ => ih.bind fun _ => .pure _

theorem leaveScope (old : List (String × Option BaseSort)) : Still (leaveScope old) := by
  induction old with
  | nil => exact .pure _
  | cons b old ih => exact (setSort _ _).bind fun _ => ih

/-- The step is run on a cursor with nothing left to be read, and does not notice. -/
theorem mirrors {y : Read α} {P : Cursor → Prop} (hy : Still y) :
    Mirrors text rounds P (aside y) y fun _ => P := by
  intro s hin hP
  have hhere := hy s s.cursor
  have haside := hy s ⟨[], s.cursor.offset⟩
  change y.run s = _ at hhere
  cases hrun : y.run s with
  | error e =>
    rw [hrun] at haside
    exact result_aside_of_error haside
  | ok r =>
    rw [hrun] at hhere haside
    have hcursor : r.2 = r.2.withCursor s.cursor := congrArg Prod.snd (Except.ok.inj hhere)
    have hsame : r.2.cursor = s.cursor := by
      rw [hcursor]
      rfl
    refine ⟨(result_aside_of_ok haside).trans ?_, hsame ▸ hin, hsame ▸ hP⟩
    change some (Except.ok (r.1, State.mk s.cursor.offset r.2.sorts r.2.problem)) = _
    rw [← hsame]
    rfl

end Still

end ByOffset

end HornSaturation.Reader
