import HornSaturation.Proofs.Offsets.Mirroring

/-!
# Moving through a text

The loops that move an offset on end where the cursor ends that passes the same characters over:
runs of characters with a property, blanks and comments, and groups. Each of them moves by whole
characters, so that every place on the way is a boundary. Off the boundaries nothing can be looked
at, and a loop that does not move on has no end.
-/

namespace HornSaturation.Reader.ByOffset

variable {α β : Type} {text : String} {rounds : Nat} {s : Reading} {c : Cursor} {P : Cursor → Prop}

section Looking

theorem result_offset (s : Reading) :
    result offset s.atOffset = some (.ok (s.cursor.offset, s.atOffset)) := rfl

/-- One character is passed over. -/
theorem result_move (s : Reading) (ch : Char) (cs : List Char) :
    result (move ch.utf8Size) s.atOffset =
      some (.ok ((), (s.withCursor ⟨cs, s.cursor.offset + ch.utf8Size⟩).atOffset)) := rfl

theorem result_current? (h : s.cursor.In text) :
    result (current? text) s.atOffset = some (.ok (s.cursor.peek?, s.atOffset)) := by
  obtain ⟨p, hp, hget⟩ := h.exists_pos
  rw [current?, result_bind_of_ok (result_offset s), hp, ← hget]
  rfl

/-- Off the boundaries between characters the text would be cut. -/
theorem result_current?_of_not_isValid {b : State}
    (h : ¬(⟨b.offset⟩ : String.Pos.Raw).IsValid text) :
    result (current? text) b = some (.error (.cut b.offset)) := by
  have hoffset : result offset b = some (.ok (b.offset, b)) := rfl
  have hslice : ¬(⟨b.offset⟩ : String.Pos.Raw).isValidForSlice text.toSlice = true := by
    intro hslice
    exact h (String.Pos.Raw.isValidForSlice_toSlice_iff.mp
      (String.Pos.Raw.isValidForSlice_eq_true_iff.mp hslice))
  have hpos : text.pos? ⟨b.offset⟩ = none := by
    rw [String.pos?, String.Slice.pos?, dif_neg hslice]
    rfl
  rw [current?, result_bind_of_ok hoffset, hpos]
  rfl

theorem result_current?_nil (h : s.cursor.In text) (hrest : s.cursor.rest = []) :
    result (current? text) s.atOffset = some (.ok (none, s.atOffset)) := by
  rw [result_current? h, Cursor.peek?, hrest]
  rfl

theorem result_current?_cons {ch : Char} {cs : List Char} (h : s.cursor.In text)
    (hrest : s.cursor.rest = ch :: cs) :
    result (current? text) s.atOffset = some (.ok (some ch, s.atOffset)) := by
  rw [result_current? h, Cursor.peek?, hrest]
  rfl

theorem result_inText (s : Reading) : result (inText text) s.atOffset =
    some (.ok (decide (s.cursor.offset < text.utf8ByteSize), s.atOffset)) := rfl

theorem result_inText_nil (h : s.cursor.In text) (hrest : s.cursor.rest = []) :
    result (inText text) s.atOffset = some (.ok (false, s.atOffset)) := by
  have hsize := h.offset_add
  rw [hrest, byteLength_nil] at hsize
  rw [result_inText, decide_eq_false (by omega)]

theorem result_inText_cons {ch : Char} {cs : List Char} (h : s.cursor.In text)
    (hrest : s.cursor.rest = ch :: cs) :
    result (inText text) s.atOffset = some (.ok (true, s.atOffset)) := by
  have hch := ch.utf8Size_pos
  have hsize := h.offset_add
  rw [hrest, byteLength_cons] at hsize
  rw [result_inText, decide_eq_true (by omega)]

/-- A run of characters is cut out of the text. -/
theorem result_cutFrom {run : List Char} {start : Nat}
    (h : Cursor.In text ⟨run ++ s.cursor.rest, start⟩)
    (hoffset : s.cursor.offset = start + byteLength run) :
    result (cutFrom text start) s.atOffset = some (.ok (String.ofList run, s.atOffset)) := by
  obtain ⟨before, htext, hstart⟩ := h
  dsimp only at htext hstart
  obtain ⟨p, hp, hsplits⟩ := exists_pos htext
  obtain ⟨q, hq, hsplits'⟩ := exists_pos (htext.trans (by rw [List.append_assoc]) :
    text = String.ofList (before ++ run ++ s.cursor.rest))
  obtain ⟨hle, hextract⟩ := extract_eq hsplits hsplits'
  rw [cutFrom, result_bind_of_ok (result_offset s), hoffset, hstart, ← byteLength_append, hp, hq]
  dsimp only
  rw [if_pos hle, hextract]
  rfl

end Looking

section Passing

variable {p : Char → Bool} {ch : Char} {cs : List Char}

theorem advance_of_nil (h : c.rest = []) : c.advance = c := by
  obtain ⟨rest, o⟩ := c
  obtain rfl : rest = [] := h
  rfl

theorem advance_of_cons (h : c.rest = ch :: cs) : c.advance = ⟨cs, c.offset + ch.utf8Size⟩ := by
  simp [Cursor.advance, h]

theorem span_nil (h : c.rest = []) : (c.span p).2 = c := by
  obtain ⟨rest, o⟩ := c
  obtain rfl : rest = [] := h
  rfl

theorem span_cons_of_pos (h : c.rest = ch :: cs) (hp : p ch = true) :
    (c.span p).2 = (Cursor.span p ⟨cs, c.offset + ch.utf8Size⟩).2 := by
  obtain ⟨rest, o⟩ := c
  obtain rfl : rest = ch :: cs := h
  simp [Cursor.span, hp, Nat.add_assoc]

theorem span_cons_of_neg (h : c.rest = ch :: cs) (hp : p ch = false) : (c.span p).2 = c := by
  obtain ⟨rest, o⟩ := c
  obtain rfl : rest = ch :: cs := h
  simp [Cursor.span, hp]

theorem length_span_le (p : Char → Bool) (c : Cursor) :
    (c.span p).2.rest.length ≤ c.rest.length :=
  (local_readRun p).length_le (scan_readRun p)

/-- An open comment is passed over up to the end of its line. -/
theorem skipBlanksFrom_true (o : Nat) (cs : List Char) :
    skipBlanksFrom o true cs = (Cursor.span (· ≠ '\n') ⟨cs, o⟩).2.skipBlanks := by
  induction cs generalizing o with
  | nil => rfl
  | cons ch cs ih =>
    rw [skipBlanksFrom]
    by_cases hch : ch = '\n'
    · subst hch
      rw [span_cons_of_neg rfl (by decide)]
      rfl
    · have hopen : (ch != '\n') = true := by simpa using hch
      have hpass : (Cursor.span (· ≠ '\n') ⟨ch :: cs, o⟩).2 =
          (Cursor.span (· ≠ '\n') ⟨cs, o + ch.utf8Size⟩).2 :=
        span_cons_of_pos rfl (by simpa using hch)
      rw [hpass, ← ih, hopen]

theorem skipBlanks_of_nil (h : c.rest = []) : c.skipBlanks = c := by
  rw [Cursor.skipBlanks, h, skipBlanksFrom, ← h]

theorem skipBlanks_of_blank (h : c.rest = ch :: cs) (hblank : Text.isBlank ch = true) :
    c.skipBlanks = Cursor.skipBlanks ⟨cs, c.offset + ch.utf8Size⟩ := by
  rw [Cursor.skipBlanks, h, skipBlanksFrom, if_pos hblank]
  rfl

theorem skipBlanks_of_comment (h : c.rest = ';' :: cs) :
    c.skipBlanks = (c.span (· ≠ '\n')).2.skipBlanks := by
  rw [span_cons_of_pos h (by decide), ← skipBlanksFrom_true, Cursor.skipBlanks, h, skipBlanksFrom,
    if_neg (by decide), if_pos rfl]

theorem skipBlanks_of_mark (h : c.rest = ch :: cs) (hblank : ¬Text.isBlank ch = true)
    (hcomment : ch ≠ ';') : c.skipBlanks = c := by
  rw [Cursor.skipBlanks, h, skipBlanksFrom, if_neg hblank, if_neg hcomment, ← h]

end Passing

/-- A step that only moves through the text, as a function on cursors does. -/
def Tracks (text : String) (rounds : Nat) (x : Step Unit) (f : Cursor → Cursor) : Prop :=
  ∀ s : Reading, s.cursor.Within text rounds →
    result x s.atOffset = some (.ok ((), (s.withCursor (f s.cursor)).atOffset)) ∧
      (f s.cursor).Within text rounds

theorem Tracks.mirrors {x : Step Unit} {f : Cursor → Cursor} {Q : Unit → Cursor → Prop}
    (h : Tracks text rounds x f) (hQ : ∀ c, P c → Q () (f c)) :
    Mirrors text rounds P x (Reader.move f) Q :=
  fun s hin hP => ⟨(h s hin).1, (h s hin).2, hQ s.cursor hP⟩

theorem Tracks.of_no_rounds {x : Step Unit} {f : Cursor → Cursor} : Tracks text 0 x f :=
  fun _ hin => absurd hin.length_lt (Nat.not_lt_zero _)

/-- What is left after one more character takes one round less. -/
theorem Tracks.onward {x : Step Unit} {f : Cursor → Cursor} {n : Nat} (h : Tracks text n x f)
    (s : Reading) (hin : c.Within text n) :
    result x (s.withCursor c).atOffset = some (.ok ((), (s.withCursor (f c)).atOffset)) ∧
      (f c).Within text (n + 1) :=
  ⟨(h (s.withCursor c) hin).1, (h (s.withCursor c) hin).2.mono n.le_succ⟩

theorem mirrors_current? :
    Mirrors text rounds P (current? text) peek? fun next c => P c ∧ c.peek? = next := by
  intro s hin hP
  exact ⟨result_current? hin.inText, hin, hP, rfl⟩

/-- The next character is passed over, if its width is known. -/
theorem mirrors_advance {bytes : Nat} {Q : Unit → Cursor → Prop}
    (hnext : ∀ c, P c → ∃ ch, c.peek? = some ch ∧ ch.utf8Size = bytes)
    (hQ : ∀ c, P c → Q () c.advance) :
    Mirrors text rounds P (move bytes) (Reader.move Cursor.advance) Q := by
  intro s hin hP
  obtain ⟨ch, hpeek, hbytes⟩ := hnext s.cursor hP
  obtain ⟨cs, hrest⟩ := List.head?_eq_some_iff.mp hpeek
  have hadvance := advance_of_cons hrest
  have hrun : (Reader.move Cursor.advance).run s = .ok ((), s.withCursor s.cursor.advance) := rfl
  rw [hrun, ← hbytes, result_move s ch cs, ← hadvance]
  refine ⟨rfl, ?_, hQ s.cursor hP⟩
  rw [hadvance]
  exact (hin.pass hrest).mono (Nat.sub_le rounds 1)

section Loops

/-- By induction on the rounds: in each of them the loop passes one character over, or it ends. -/
theorem tracks_skipWhile {p : Char → Bool} {width : Char → Nat}
    (hwidth : ∀ ch, p ch = true → width ch = ch.utf8Size) (n : Nat) :
    Tracks text n (skipWhile text p width n) fun c => (c.span p).2 := by
  induction n with
  | zero => exact .of_no_rounds
  | succ n ih =>
    intro s hin
    dsimp only
    rw [skipWhile]
    cases hrest : s.cursor.rest with
    | nil =>
      rw [result_bind_of_ok (result_current?_nil hin.inText hrest), span_nil hrest]
      exact ⟨rfl, hin⟩
    | cons ch cs =>
      rw [result_bind_of_ok (result_current?_cons hin.inText hrest)]
      dsimp only
      by_cases hp : p ch = true
      · rw [if_pos hp, hwidth ch hp, result_bind_of_ok (result_move s ch cs),
          span_cons_of_pos hrest hp]
        exact ih.onward s (hin.pass hrest)
      · rw [if_neg hp, span_cons_of_neg hrest (Bool.eq_false_iff.mpr hp)]
        exact ⟨rfl, hin⟩

/-- A loop that does not move its offset is never at its end. -/
theorem result_skipWhile_of_width_eq_zero {p : Char → Bool} {width : Char → Nat} {ch : Char}
    (hin : s.cursor.In text) (hpeek : s.cursor.peek? = some ch) (hp : p ch = true)
    (hwidth : width ch = 0) (n : Nat) : result (skipWhile text p width n) s.atOffset = none := by
  induction n with
  | zero => rfl
  | succ n ih =>
    have hmove : result (move 0) s.atOffset = some (.ok ((), s.atOffset)) := rfl
    rw [skipWhile, result_bind_of_ok (result_current? hin), hpeek]
    dsimp only
    rw [if_pos hp, hwidth, result_bind_of_ok hmove]
    exact ih

theorem tracks_comment (n : Nat) : Tracks text n (skipWhile text (· ≠ '\n') Char.utf8Size n)
    fun c => (c.span (· ≠ '\n')).2 := tracks_skipWhile (fun _ _ => rfl) n

/-- A comment is passed over in one round, by a loop of its own. -/
theorem tracks_skipBlanks (n : Nat) : Tracks text n (skipBlanks text n) Cursor.skipBlanks := by
  induction n with
  | zero => exact .of_no_rounds
  | succ n ih =>
    intro s hin
    rw [skipBlanks]
    cases hrest : s.cursor.rest with
    | nil =>
      rw [result_bind_of_ok (result_current?_nil hin.inText hrest), skipBlanks_of_nil hrest]
      exact ⟨rfl, hin⟩
    | cons ch cs =>
      rw [result_bind_of_ok (result_current?_cons hin.inText hrest)]
      dsimp only
      by_cases hblank : Text.isBlank ch = true
      · rw [if_pos hblank, result_bind_of_ok (result_move s ch cs),
          skipBlanks_of_blank hrest hblank]
        exact ih.onward s (hin.pass hrest)
      rw [if_neg hblank]
      by_cases hcomment : ch = ';'
      · subst hcomment
        obtain ⟨hline, hafter⟩ := tracks_comment (n + 1) s hin
        have hshorter : (s.cursor.span (· ≠ '\n')).2.rest.length < n := by
          have hle := length_span_le (· ≠ '\n') ⟨cs, s.cursor.offset + Char.utf8Size ';'⟩
          rw [← span_cons_of_pos hrest (by decide)] at hle
          exact Nat.lt_of_le_of_lt hle (hin.pass hrest).length_lt
        rw [if_pos rfl, result_bind_of_ok hline, skipBlanks_of_comment hrest]
        exact ih.onward s ⟨hafter.inText, hshorter⟩
      · rw [if_neg hcomment, skipBlanks_of_mark hrest hblank hcomment]
        exact ⟨rfl, hin⟩

theorem tracks_skipToBar (n : Nat) :
    Tracks text n (skipToBar text n) fun c => (c.span (· ≠ '|')).2 := by
  induction n with
  | zero => exact .of_no_rounds
  | succ n ih =>
    intro s hin
    dsimp only
    rw [skipToBar]
    cases hrest : s.cursor.rest with
    | nil =>
      rw [result_bind_of_ok (result_inText_nil hin.inText hrest), span_nil hrest]
      exact ⟨rfl, hin⟩
    | cons ch cs =>
      rw [result_bind_of_ok (result_inText_cons hin.inText hrest), if_pos rfl,
        result_bind_of_ok (result_current?_cons hin.inText hrest), Option.elim_some]
      by_cases hbar : ch = '|'
      · rw [if_neg (by simp [hbar]), span_cons_of_neg hrest (by simp [hbar])]
        exact ⟨rfl, hin⟩
      · rw [if_pos (by simpa using hbar), result_bind_of_ok (result_move s ch cs),
          span_cons_of_pos hrest (by simpa using hbar)]
        exact ih.onward s (hin.pass hrest)

/-- The loop is left when no group is open. -/
theorem result_skipGroup_zero {n : Nat} (hin : s.cursor.Within text n) :
    result (skipGroup text 0 n) s.atOffset = some (.ok ((), s.atOffset)) := by
  cases n with
  | zero => exact absurd hin.length_lt (Nat.not_lt_zero _)
  | succ n =>
    rw [skipGroup]
    rfl

/-- The loop over a group counts the group itself, too. -/
theorem tracks_skipGroup (n depth : Nat) : Tracks text n (skipGroup text (depth + 1) n)
    fun c => skipGroupFrom c.offset depth c.rest := by
  induction n generalizing depth with
  | zero => exact .of_no_rounds
  | succ n ih =>
    intro s hin
    dsimp only
    rw [skipGroup]
    cases hrest : s.cursor.rest with
    | nil =>
      have hstop : skipGroupFrom s.cursor.offset depth [] = ⟨[], s.cursor.offset⟩ := by
        simp [skipGroupFrom]
      rw [result_bind_of_ok (result_inText_nil hin.inText hrest), hstop, ← hrest]
      exact ⟨rfl, hin⟩
    | cons ch cs =>
      have hpass := hin.pass hrest
      rw [result_bind_of_ok (result_inText_cons hin.inText hrest), if_pos (by simp),
        result_bind_of_ok (result_current?_cons hin.inText hrest), Option.elim_some,
        skipGroupFrom_cons]
      dsimp only
      rw [result_bind_of_ok (result_move s ch cs)]
      unfold depthAfter
      by_cases hopen : ch = '('
      · rw [if_pos hopen]
        subst hopen
        exact (ih (depth + 1)).onward s hpass
      rw [if_neg hopen]
      by_cases hclose : ch = ')'
      · rw [if_pos hclose]
        subst hclose
        cases depth with
        | zero => exact ⟨result_skipGroup_zero (s := s.withCursor _) hpass, hpass.mono n.le_succ⟩
        | succ depth => exact (ih depth).onward s hpass
      · rw [if_neg hclose]
        split
        · next h => exact absurd (Option.some.inj h) hopen
        · next h => exact absurd (Option.some.inj h) hclose
        · exact (ih depth).onward s hpass

end Loops

end HornSaturation.Reader.ByOffset
