import HornSaturation.Proofs.Offsets.Tokens

/-!
# Terms by offsets

Both readers of terms are bounded: the one by a number of rounds that has nothing to do with the
text, the other by the number of characters left. As long as less is left than either bound allows,
neither bound is ever met, by induction on the rounds.
-/

namespace HornSaturation.Reader.ByOffset

variable {α β : Type} {text : String} {rounds : Nat} {n m k : Nat}

/-- A list that a closing parenthesis ends: either that stands next, or an element is read. -/
theorem mirrors_list {empty more : Step α} {empty' more' : Read α}
    (hempty : Mirrors text rounds (Short n) empty empty' fun _ => Short n)
    (hmore : Mirrors text rounds (Short n) more more' fun _ => Short n) :
    Mirrors text rounds (Short n)
      (do skipBlanks text rounds; if (← current? text) = some ')' then empty else more)
      (do Reader.skipBlanks; if (← peek?) = some ')' then empty' else more') fun _ => Short n := by
  refine mirrors_skipBlanks.bind fun _ => mirrors_current?.bind fun next => ?_
  split
  · exact hempty.mono (fun _ h => h.1.1) fun _ _ h => h
  · exact hmore.mono (fun _ h => h.1.1) fun _ _ h => h

/-- What does not start with a parenthesis is a numeral or a name. -/
theorem mirrors_atom {ch : Char} : Mirrors text rounds
    (fun c => (Short n c ∧ c.skipBlanks = c) ∧ c.peek? = some ch)
    (do if ch.isDigit then return .int (← readNumeral text rounds) else readName text rounds)
    (do if ch.isDigit then return .int (← Reader.readNumeral) else Reader.readName)
    fun _ => Short (n - 1) := by
  by_cases hdigit : ch.isDigit = true
  · rw [if_pos hdigit, if_pos hdigit]
    refine Mirrors.bind ((mirrors_readNumeral (n := n)).mono ?_ fun _ _ h => h)
      fun i => .pure fun _ h => h
    rintro c ⟨⟨hshort, hblank⟩, hpeek⟩
    exact ⟨hblank, hshort, ch, hpeek, hdigit⟩
  · rw [if_neg hdigit, if_neg hdigit]
    exact mirrors_readName.mono (fun _ h => h.1.1) fun _ _ h => h

theorem mirrors_readBound (hn : k ≤ n - 1) (hm : k ≤ m - 1) : Mirrors text rounds (Short k)
    (readBound text rounds n) (readBoundWithin m) fun _ => Short k := by
  induction n generalizing m k with
  | zero =>
    obtain rfl : k = 0 := Nat.le_zero.mp hn
    exact .of_short_zero
  | succ n ih =>
    cases m with
    | zero =>
      obtain rfl : k = 0 := Nat.le_zero.mp hm
      exact .of_short_zero
    | succ m =>
      rw [readBound, readBoundWithin]
      refine mirrors_list (.pure fun _ hc => hc) ?_
      refine (mirrors_expect rfl).bind fun _ => mirrors_readSymbol.bind fun name => ?_
      refine mirrors_readSort.bind fun sort => (mirrors_expect rfl).bind fun _ => ?_
      refine (Still.setSort name (some sort)).mirrors.bind fun _ => ?_
      exact (ih (k := k - 1 - 1 - 1 - 1) (by omega) (by omega)).relax le_rfl (by omega)

/-- The readers of terms, arguments and bindings mirror those that are bounded by what is left,
where that is less than both bounds. A term takes something, a list may be empty. -/
structure MirrorsWithin (text : String) (rounds n m : Nat) : Prop where
  term : ∀ {k}, k ≤ n → k ≤ m → Mirrors text rounds (Short k)
    (readTerm text rounds n) (readTermWithin m) fun _ => Short (k - 1)
  arguments : ∀ {k}, k ≤ n - 1 → k ≤ m - 1 → Mirrors text rounds (Short k)
    (readArgs text rounds n) (readArgsWithin m) fun _ => Short k
  bindings : ∀ {k}, k ≤ n - 1 → k ≤ m - 1 → Mirrors text rounds (Short k)
    (readBindings text rounds n) (readBindingsWithin m) fun _ => Short k

namespace MirrorsWithin

theorem zero_rounds : MirrorsWithin text rounds 0 m := by
  constructor
  all_goals
    intro k hn _
    obtain rfl : k = 0 := Nat.le_zero.mp hn
    exact .of_short_zero

theorem zero_left : MirrorsWithin text rounds n 0 := by
  constructor
  all_goals
    intro k _ hm
    obtain rfl : k = 0 := Nat.le_zero.mp hm
    exact .of_short_zero

theorem arguments_succ (h : MirrorsWithin text rounds n m) (hn : k ≤ n) (hm : k ≤ m) :
    Mirrors text rounds (Short k) (readArgs text rounds (n + 1)) (readArgsWithin (m + 1))
      fun _ => Short k := by
  rw [readArgs, readArgsWithin]
  refine mirrors_list (.pure fun _ hc => hc) ?_
  refine (h.term hn hm).bind fun t => (h.arguments ?_ ?_).bind fun ts => ?_
  · omega
  · omega
  · exact .pure fun _ hc => hc.mono (Nat.sub_le k 1)

theorem bindings_succ (h : MirrorsWithin text rounds n m) (hn : k ≤ n) (hm : k ≤ m) :
    Mirrors text rounds (Short k) (readBindings text rounds (n + 1)) (readBindingsWithin (m + 1))
      fun _ => Short k := by
  rw [readBindings, readBindingsWithin]
  refine mirrors_list (.pure fun _ hc => hc) ?_
  refine (mirrors_expect rfl).bind fun _ => mirrors_readSymbol.bind fun name => ?_
  refine (h.term (by omega) (by omega)).bind fun value => (mirrors_expect rfl).bind fun _ => ?_
  refine (h.bindings (by omega) (by omega)).bind fun bindings => ?_
  exact .pure fun _ hc => hc.mono (by omega)

theorem letTerm (h : MirrorsWithin text rounds n m) (hn : k ≤ n - 1) (hm : k ≤ m - 1) :
    Mirrors text rounds (Short k)
      (readLet text rounds (readTerm text rounds n) (readBindings text rounds n))
      (do
        Reader.expect '('
        let bindings ← readBindingsWithin m
        Reader.expect ')'
        let old ← enterScope bindings
        let body ← readTermWithin m
        Reader.expect ')'
        leaveScope old
        return body.substitute (bindingSubstitution bindings))
      fun _ => Short (k - 1) := by
  refine (mirrors_expect rfl).bind fun _ => ?_
  refine (h.bindings (by omega) (by omega)).bind fun bindings => ?_
  refine (mirrors_expect rfl).bind fun _ => (Still.enterScope bindings).mirrors.bind fun old => ?_
  refine (h.term (by omega) (by omega)).bind fun body => (mirrors_expect rfl).bind fun _ => ?_
  exact (Still.leaveScope old).mirrors.bind fun _ => .pure fun _ hc => hc.mono (by omega)

theorem quantified (h : MirrorsWithin text rounds n m) (hn : k ≤ n - 1) (hm : k ≤ m - 1) :
    Mirrors text rounds (Short k)
      (readQuantified text rounds (readTerm text rounds n) (readBound text rounds n))
      (do
        Reader.expect '('
        readBoundWithin m
        Reader.expect ')'
        let body ← readTermWithin m
        Reader.expect ')'
        return body)
      fun _ => Short (k - 1) := by
  refine (mirrors_expect rfl).bind fun _ => (mirrors_readBound ?_ ?_).bind fun _ => ?_
  · omega
  · omega
  refine (mirrors_expect rfl).bind fun _ => ?_
  refine (h.term (by omega) (by omega)).bind fun body => (mirrors_expect rfl).bind fun _ => ?_
  exact .pure fun _ hc => hc.mono (by omega)

theorem application (h : MirrorsWithin text rounds n m) (hn : k ≤ n - 1) (hm : k ≤ m - 1)
    (name : String) :
    Mirrors text rounds (Short k)
      (readApplication text rounds (readArgs text rounds n) name)
      (do
        let args ← readArgsWithin m
        Reader.expect ')'
        applyName (← get).problem name args)
      fun _ => Short (k - 1) :=
  (h.arguments hn hm).bind fun args => (mirrors_expect rfl).bind fun _ =>
    (Still.ofProblem (f := fun p => applyName p name args)).mirrors

theorem compound (h : MirrorsWithin text rounds n m) (hn : k ≤ n + 1) (hm : k ≤ m + 1) :
    Mirrors text rounds (Short k)
      (readCompound text rounds (readTerm text rounds n) (readArgs text rounds n)
        (readBindings text rounds n) (readBound text rounds n))
      (do
        Reader.expect '('
        let name ← Reader.readSymbol
        Reader.skipBlanks
        match name with
        | "let" =>
          Reader.expect '('
          let bindings ← readBindingsWithin m
          Reader.expect ')'
          let old ← enterScope bindings
          let body ← readTermWithin m
          Reader.expect ')'
          leaveScope old
          return body.substitute (bindingSubstitution bindings)
        | "forall" | "exists" =>
          Reader.expect '('
          readBoundWithin m
          Reader.expect ')'
          let body ← readTermWithin m
          Reader.expect ')'
          return body
        | _ =>
          let args ← readArgsWithin m
          Reader.expect ')'
          applyName (← get).problem name args)
      fun _ => Short (k - 1) := by
  have hn' : k - 1 - 1 ≤ n - 1 := by omega
  have hm' : k - 1 - 1 ≤ m - 1 := by omega
  refine (mirrors_expect rfl).bind fun _ => mirrors_readSymbol.bind fun name =>
    mirrors_blanks.bind fun _ => ?_
  split
  · exact (h.letTerm hn' hm').relax le_rfl (by omega)
  · exact (h.quantified hn' hm').relax le_rfl (by omega)
  · exact (h.quantified hn' hm').relax le_rfl (by omega)
  · next hlet hforall hexists =>
    have happlied := h.application hn' hm' name
    simpa only [hlet, hforall, hexists] using happlied.relax le_rfl (by omega)

theorem term_succ (h : MirrorsWithin text rounds n m) (hn : k ≤ n + 1) (hm : k ≤ m + 1) :
    Mirrors text rounds (Short k) (readTerm text rounds (n + 1)) (readTermWithin (m + 1))
      fun _ => Short (k - 1) := by
  rw [readTerm, readTermWithin]
  refine mirrors_skipBlanks.bind fun _ => mirrors_current?.bind fun next => ?_
  cases next with
  | none => exact .fail
  | some ch =>
    by_cases hparen : ch = '('
    · subst hparen
      exact (h.compound hn hm).mono (fun _ hc => hc.1.1) fun _ _ hc => hc
    · simpa only [hparen, if_false] using mirrors_atom

theorem succ (h : MirrorsWithin text rounds n m) : MirrorsWithin text rounds (n + 1) (m + 1) :=
  ⟨h.term_succ, h.arguments_succ, h.bindings_succ⟩

end MirrorsWithin

theorem mirrorsWithin (text : String) (rounds n m : Nat) : MirrorsWithin text rounds n m := by
  induction n generalizing m with
  | zero => exact .zero_rounds
  | succ n ih =>
    cases m with
    | zero => exact .zero_left
    | succ m => exact (ih m).succ

theorem mirrors_readTerm : Mirrors text rounds (Short n) (readTerm text rounds rounds)
    Reader.readTerm fun _ => Short (n - 1) := by
  intro s hin hshort
  have hterm := (mirrorsWithin text rounds rounds (s.cursor.rest.length + 1)).term
    hin.length_lt le_rfl
  exact hterm.relax le_rfl (Nat.sub_le_sub_right hshort 1) s hin (Nat.lt_succ_self _)

end HornSaturation.Reader.ByOffset
