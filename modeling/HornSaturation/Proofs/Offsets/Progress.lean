import HornSaturation.Proofs.Offsets.Commands

/-!
# Reading makes progress

Wherever in a text a step of reading by offsets starts, as long as it is on a boundary between
characters, the step ends, and it ends on such a boundary. A symbol, a sort, a term and a command
take something from the text, so that no loop of the reader goes on for ever: two rounds more than
the text has bytes are never used up.
-/

namespace HornSaturation.Reader.ByOffset

variable {α : Type} {text : String} {rounds : Nat} {R : Nat → Nat → Prop} {x : Nat → Step α}

/-- A step of reading ends from every boundary of the text on. With rounds enough it comes to the
same however many there are: the input is at fault, or the step leaves the offset on a boundary that
is not past the end of the text, and the offset before and the one after are in a relation. In
particular the text is never cut inside a character. -/
def Ends (text : String) (R : Nat → Nat → Prop) (x : Nat → Step α) : Prop :=
  ∀ b : State, (⟨b.offset⟩ : String.Pos.Raw).IsValid text →
    ∃ r, (∀ rounds, text.utf8ByteSize + 1 < rounds → result (x rounds) b = some r) ∧
      ((∃ e, r = .error (.fault e)) ∨
        ∃ a b', r = .ok (a, b') ∧ (⟨b'.offset⟩ : String.Pos.Raw).IsValid text ∧
          R b.offset b'.offset ∧ b'.offset ≤ text.utf8ByteSize)

/-- A step by offsets agrees with one that takes characters off a list wherever in the text they
start. -/
def Agrees (text : String) (x : Nat → Step α) (y : Read α) : Prop :=
  ∀ s : Reading, s.cursor.In text → ∀ rounds, text.utf8ByteSize + 1 < rounds →
    result (x rounds) s.atOffset =
      match y.run s with
      | .ok (a, s') => some (.ok (a, s'.atOffset))
      | .error e => some (.error (.fault e))

theorem Agrees.of_mirrors {y : Read α}
    (h : ∀ rounds n, ∃ Q, Mirrors text rounds (Short (n + 1)) (x rounds) y Q) :
    Agrees text x y := by
  intro s hin rounds hrounds
  obtain ⟨Q, hQ⟩ := h rounds s.cursor.rest.length
  have hlength := hin.length_le
  have h := hQ s ⟨hin, by omega⟩ (Nat.lt_succ_self _)
  cases hrun : y.run s with
  | error e => rwa [hrun] at h
  | ok r =>
    rw [hrun] at h
    exact h.1

/-- What a step does is known by what it mirrors, which may depend on how much is left. -/
theorem Ends.of_mirrors (h : ∀ n, ∃ (y : Read α) (Q : α → Cursor → Prop),
    (∀ rounds, n + 1 < rounds → Mirrors text rounds (Short (n + 1)) (x rounds) y Q) ∧
      ∀ a (c c' : Cursor), c.In text → c'.In text → c.rest.length = n → Q a c' →
        R c.offset c'.offset) : Ends text R x := by
  intro b hb
  obtain ⟨c, hin, hoffset⟩ := exists_in_of_isValid hb
  let s : Reading := ⟨c, b.sorts, b.problem⟩
  have hstate : s.atOffset = b := by
    rw [Reading.atOffset, hoffset]
  have hlength := hin.length_le
  obtain ⟨y, Q, hmirrors, hR⟩ := h c.rest.length
  have h (rounds : Nat) (hrounds : text.utf8ByteSize + 1 < rounds) :=
    hmirrors rounds (by omega) s ⟨hin, Nat.lt_of_le_of_lt hlength (by omega)⟩ (Nat.lt_succ_self _)
  rw [hstate] at h
  cases hrun : y.run s with
  | error e =>
    rw [hrun] at h
    exact ⟨_, h, .inl ⟨e, rfl⟩⟩
  | ok r =>
    rw [hrun] at h
    obtain ⟨-, ⟨hin', -⟩, hQ⟩ := h (text.utf8ByteSize + 2) (Nat.lt_succ_self _)
    have hsize := hin'.offset_add
    refine ⟨_, fun rounds hrounds => (h rounds hrounds).1, .inr ⟨r.1, r.2.atOffset, rfl, ?_⟩⟩
    refine ⟨hin'.isValid, ?_, Nat.le.intro hsize⟩
    rw [← hoffset]
    exact hR r.1 c r.2.cursor hin hin' rfl hQ

/-- A step that leaves less to be read moves forward. -/
theorem Ends.forward (h : ∀ n, ∃ y, ∀ rounds, n + 1 < rounds →
    Mirrors text rounds (Short (n + 1)) (x rounds) y fun _ => Short n) : Ends text (· < ·) x := by
  refine .of_mirrors fun n => ?_
  obtain ⟨y, hy⟩ := h n
  refine ⟨y, _, hy, fun _ c c' hin hin' hlen hshort => hin.offset_lt hin' ?_⟩
  rw [hlen]
  exact hshort

/-- A step that leaves no more to be read does not move back. -/
theorem Ends.onward (h : ∀ n, ∃ y, ∀ rounds, n + 1 < rounds →
    Mirrors text rounds (Short (n + 1)) (x rounds) y fun _ => Short (n + 1)) :
    Ends text (· ≤ ·) x := by
  refine .of_mirrors fun n => ?_
  obtain ⟨y, hy⟩ := h n
  refine ⟨y, _, hy, fun _ c c' hin hin' hlen hshort => hin.offset_le hin' ?_⟩
  rw [hlen]
  exact Nat.le_of_lt_succ hshort

theorem Ends.of_tracks {x : Nat → Step Unit} {f : Cursor → Cursor}
    (h : ∀ rounds, Tracks text rounds (x rounds) f)
    (hf : ∀ c, (f c).rest.length ≤ c.rest.length) : Ends text (· ≤ ·) x :=
  .onward fun _ => ⟨_, fun rounds _ => (h rounds).mirrors fun c hc => Nat.lt_of_le_of_lt (hf c) hc⟩

section Steps

theorem ends_readSymbol : Ends text (· < ·) (readSymbol text) :=
  .forward fun _ => ⟨_, fun _ _ => mirrors_readSymbol⟩

theorem ends_readSort : Ends text (· < ·) (readSort text) :=
  .forward fun _ => ⟨_, fun _ _ => mirrors_readSort⟩

theorem ends_readTerm : Ends text (· < ·) fun rounds => readTerm text rounds rounds :=
  .forward fun _ => ⟨_, fun _ _ => mirrors_readTerm⟩

theorem ends_readCompound : Ends text (· < ·) fun rounds =>
    readCompound text rounds (readTerm text rounds rounds) (readArgs text rounds rounds)
      (readBindings text rounds rounds) (readBound text rounds rounds) :=
  .forward fun n => ⟨_, fun rounds h =>
    (mirrorsWithin text rounds rounds n).compound (by omega) le_rfl⟩

theorem ends_readLet : Ends text (· < ·) fun rounds =>
    readLet text rounds (readTerm text rounds rounds) (readBindings text rounds rounds) :=
  .forward fun n => ⟨_, fun rounds h =>
    (mirrorsWithin text rounds rounds (n + 2)).letTerm (by omega) le_rfl⟩

theorem ends_readQuantified : Ends text (· < ·) fun rounds =>
    readQuantified text rounds (readTerm text rounds rounds) (readBound text rounds rounds) :=
  .forward fun n => ⟨_, fun rounds h =>
    (mirrorsWithin text rounds rounds (n + 2)).quantified (by omega) le_rfl⟩

theorem ends_readApplication (name : String) : Ends text (· < ·) fun rounds =>
    readApplication text rounds (readArgs text rounds rounds) name :=
  .forward fun n => ⟨_, fun rounds h =>
    (mirrorsWithin text rounds rounds (n + 2)).application (by omega) le_rfl name⟩

/-- A command takes something, unless the text has ended before it. -/
theorem ends_readCommand :
    Ends text (fun o o' => o < text.utf8ByteSize → o < o') (readCommand text) := by
  refine .of_mirrors fun n => ⟨_, _, fun _ _ => mirrors_readCommand, ?_⟩
  rintro - c c' hin hin' hlen (hshort | hend) hbefore
  · exact hin.offset_lt hin' (hlen ▸ hshort)
  · have hsize := hin'.offset_add
    rw [hend, byteLength_nil] at hsize
    omega

end Steps

section Loops

theorem ends_skipBlanks : Ends text (· ≤ ·) (skipBlanks text) :=
  .of_tracks tracks_skipBlanks length_skipBlanks_le

theorem ends_skipWhile {p : Char → Bool} {width : Char → Nat}
    (hwidth : ∀ ch, p ch = true → width ch = ch.utf8Size) :
    Ends text (· ≤ ·) (skipWhile text p width) :=
  .of_tracks (tracks_skipWhile hwidth) (length_span_le p)

theorem ends_skipToBar : Ends text (· ≤ ·) (skipToBar text) :=
  .of_tracks tracks_skipToBar (length_span_le _)

theorem ends_skipGroup (depth : Nat) : Ends text (· ≤ ·) (skipGroup text (depth + 1)) := by
  refine .of_tracks (fun rounds => tracks_skipGroup rounds depth) fun c => ?_
  obtain ⟨u, hu, -⟩ := skipGroupFrom_append c.rest depth c.offset
  have hlength := congrArg List.length hu
  rw [List.length_append] at hlength
  omega

theorem ends_readArgs : Ends text (· ≤ ·) fun rounds => readArgs text rounds rounds :=
  .onward fun n => ⟨_, fun rounds h =>
    (mirrorsWithin text rounds rounds (n + 2)).arguments (by omega) le_rfl⟩

theorem ends_readBindings : Ends text (· ≤ ·) fun rounds => readBindings text rounds rounds :=
  .onward fun n => ⟨_, fun rounds h =>
    (mirrorsWithin text rounds rounds (n + 2)).bindings (by omega) le_rfl⟩

theorem ends_readBound : Ends text (· ≤ ·) fun rounds => readBound text rounds rounds :=
  .onward fun n => ⟨_, fun rounds h => mirrors_readBound (m := n + 2) (by omega) le_rfl⟩

theorem ends_readSorts : Ends text (· ≤ ·) fun rounds => readSorts text rounds rounds :=
  .onward fun n => ⟨_, fun rounds h => mirrors_readSorts text rounds (m := n + 1) (by omega) le_rfl⟩

/-- The commands end where the text ends. -/
theorem ends_readCommands : Ends text (fun _ o' => o' = text.utf8ByteSize) fun rounds =>
    readCommands text rounds rounds := by
  refine .of_mirrors fun n => ⟨_, _, fun rounds h =>
    mirrors_readCommands (m := n) (by omega) le_rfl, ?_⟩
  intro _ c c' _ hin' _ hend
  have hsize := hin'.offset_add
  rwa [hend, byteLength_nil, Nat.add_zero] at hsize

end Loops

/-- Symbols, sorts, terms of all forms and commands take something from the text, the loops end, and
what is read is what reading characters off a list comes to. -/
theorem reading_progresses (text : String) :
    (Ends text (· < ·) (readSymbol text) ∧ Ends text (· < ·) (readSort text) ∧
      (Ends text (· < ·) fun rounds => readTerm text rounds rounds) ∧
      (Ends text (· < ·) fun rounds =>
        readCompound text rounds (readTerm text rounds rounds) (readArgs text rounds rounds)
          (readBindings text rounds rounds) (readBound text rounds rounds)) ∧
      (Ends text (· < ·) fun rounds =>
        readLet text rounds (readTerm text rounds rounds) (readBindings text rounds rounds)) ∧
      (Ends text (· < ·) fun rounds =>
        readQuantified text rounds (readTerm text rounds rounds) (readBound text rounds rounds)) ∧
      (∀ name, Ends text (· < ·) fun rounds =>
        readApplication text rounds (readArgs text rounds rounds) name) ∧
      Ends text (fun o o' => o < text.utf8ByteSize → o < o') (readCommand text)) ∧
    ((Ends text (fun _ o' => o' = text.utf8ByteSize) fun rounds =>
        readCommands text rounds rounds) ∧
      (Ends text (· ≤ ·) fun rounds => readArgs text rounds rounds) ∧
      (Ends text (· ≤ ·) fun rounds => readSorts text rounds rounds) ∧
      (Ends text (· ≤ ·) fun rounds => readBindings text rounds rounds) ∧
      (Ends text (· ≤ ·) fun rounds => readBound text rounds rounds) ∧
      Ends text (· ≤ ·) (skipBlanks text) ∧
      Ends text (· ≤ ·) (skipWhile text (· ≠ '\n') Char.utf8Size) ∧
      Ends text (· ≤ ·) (skipWhile text isSymbolChar Char.utf8Size) ∧
      Ends text (· ≤ ·) (skipWhile text Char.isDigit fun _ => 1) ∧
      Ends text (· ≤ ·) (skipToBar text) ∧
      ∀ depth, Ends text (· ≤ ·) (skipGroup text (depth + 1))) ∧
    (Agrees text (readSymbol text) Reader.readSymbol ∧ Agrees text (readSort text) Reader.readSort ∧
      Agrees text (fun rounds => readTerm text rounds rounds) Reader.readTerm ∧
      Agrees text (readCommand text)
        (do Reader.skipBlanks; if (← peek?).isSome then Reader.readCommand)) ∧
    ∀ rounds, text.utf8ByteSize < rounds →
      read text rounds = some ((Problem.read text).mapError .fault) := by
  refine ⟨⟨ends_readSymbol, ends_readSort, ends_readTerm, ends_readCompound, ends_readLet,
    ends_readQuantified, ends_readApplication, ends_readCommand⟩,
    ⟨ends_readCommands, ends_readArgs, ends_readSorts, ends_readBindings, ends_readBound,
      ends_skipBlanks, ends_skipWhile fun _ _ => rfl, ends_skipWhile fun _ _ => rfl,
      ends_skipWhile fun _ h => (utf8Size_of_isDigit h).symm, ends_skipToBar, ends_skipGroup⟩,
    ⟨?_, ?_, ?_, ?_⟩, fun _ => read_eq⟩
  · exact .of_mirrors fun _ _ => ⟨_, mirrors_readSymbol⟩
  · exact .of_mirrors fun _ _ => ⟨_, mirrors_readSort⟩
  · exact .of_mirrors fun _ _ => ⟨_, mirrors_readTerm⟩
  · exact .of_mirrors fun _ _ => ⟨_, mirrors_readCommand⟩

/-- A symbol without its second bar is read up to the end of the text, past a character of two
bytes. -/
theorem reading_progresses_to_missing_bar :
    (⟨6⟩ : String.Pos.Raw).IsValid "(rule |é" ∧
    result (readSymbol "(rule |é" 11) ⟨6, [], {}⟩ = some (.ok ("é", ⟨9, [], {}⟩)) ∧
    read "(rule |é" 10 = some (.error (.fault (.input (.expectedBeforeEnd ')')))) := by
  have hin : Cursor.In "(rule |é" ⟨['|', 'é'], 6⟩ := ⟨['(', 'r', 'u', 'l', 'e', ' '], rfl, rfl⟩
  obtain ⟨-, -, ⟨hsymbol, -⟩, hread⟩ := reading_progresses "(rule |é"
  refine ⟨hin.isValid, (hsymbol ⟨⟨['|', 'é'], 6⟩, [], {}⟩ hin 11 ?_).trans ?_,
    (hread 10 ?_).trans ?_⟩
  · decide
  · rfl
  · decide
  · rfl

end HornSaturation.Reader.ByOffset
