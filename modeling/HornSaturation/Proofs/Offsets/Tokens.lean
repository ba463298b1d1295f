import HornSaturation.Proofs.Offsets.Moves

/-!
# Tokens by offsets

What a token leaves to be read is shorter than what it is read from. The number of characters left
is what the loops and the recursion of the reader go down by, so each step says how it bounds it.
-/

namespace HornSaturation.Reader.ByOffset

variable {α β : Type} {text : String} {rounds : Nat} {c : Cursor} {n : Nat}

/-- Less than a number of characters is left to be read. -/
def Short (n : Nat) (c : Cursor) : Prop := c.rest.length < n

theorem Short.advance {ch : Char} (h : Short n c) (hpeek : c.peek? = some ch) :
    Short (n - 1) c.advance := by
  obtain ⟨cs, hrest⟩ := List.head?_eq_some_iff.mp hpeek
  unfold Short at h ⊢
  rw [hrest, List.length_cons] at h
  rw [advance_of_cons hrest]
  exact Nat.lt_sub_of_add_lt h

theorem Short.mono {m : Nat} (h : Short n c) (hnm : n ≤ m) : Short m c := Nat.lt_of_lt_of_le h hnm

theorem Short.of_run {ch : Char} {cs : List Char} (h : (ch :: cs ++ c.rest).length < n) :
    Short (n - 1) c := by
  rw [List.length_append, List.length_cons] at h
  unfold Short
  omega

theorem Mirrors.relax {x : Step α} {y : Read α} {k l m : Nat}
    (h : Mirrors text rounds (Short m) x y fun _ => Short k) (hm : n ≤ m) (hk : k ≤ l) :
    Mirrors text rounds (Short n) x y fun _ => Short l :=
  h.mono (fun _ hc => hc.mono hm) fun _ _ hc => hc.mono hk

theorem Mirrors.of_short_zero {x : Step α} {y : Read α} {Q : α → Cursor → Prop} :
    Mirrors text rounds (Short 0) x y Q := fun _ _ h => absurd h (Nat.not_lt_zero _)

theorem mirrors_skipBlanks : Mirrors text rounds (Short n) (skipBlanks text rounds)
    Reader.skipBlanks fun _ c => Short n c ∧ c.skipBlanks = c :=
  (tracks_skipBlanks rounds).mirrors fun c hc =>
    ⟨Nat.lt_of_le_of_lt (length_skipBlanks_le c) hc, skipBlanks_skipBlanks c⟩

theorem mirrors_blanks :
    Mirrors text rounds (Short n) (skipBlanks text rounds) Reader.skipBlanks fun _ => Short n :=
  mirrors_skipBlanks.mono (fun _ hc => hc) fun _ _ hc => hc.1

theorem mirrors_expect {ch : Char} (hch : ch.utf8Size = 1) : Mirrors text rounds (Short n)
    (expect text rounds ch) (Reader.expect ch) fun _ => Short (n - 1) := by
  refine mirrors_skipBlanks.bind fun _ => mirrors_current?.bind fun next => ?_
  cases next with
  | none => exact .fail
  | some d =>
    dsimp only
    by_cases hd : d = ch
    · rw [if_pos hd, if_pos hd]
      refine mirrors_advance ?_ ?_
      · rintro c ⟨-, hpeek⟩
        exact ⟨d, hpeek, hd ▸ hch⟩
      · rintro c ⟨⟨hshort, -⟩, hpeek⟩
        exact hshort.advance hpeek
    · rw [if_neg hd, if_neg hd]
      exact .failAt

theorem mirrors_offset {P : Cursor → Prop} {o : Nat} (h : ∀ c, P c → c.offset = o) :
    Mirrors text rounds P offset (pure o) fun _ => P := by
  intro s hin hP
  rw [← h s.cursor hP]
  exact ⟨rfl, hin, hP⟩

/-- The longest run of characters with a property from an offset on is behind the cursor. Of what
was to be read at that offset something is known. -/
structure Ran (text : String) (W : List Char → Prop) (p : Char → Bool) (start : Nat)
    (run : List Char) (c : Cursor) : Prop where
  from_start : Cursor.In text ⟨run ++ c.rest, start⟩
  offset_eq : c.offset = start + byteLength run
  stop : ∀ ch, c.peek? = some ch → p ch = false
  whole : W (run ++ c.rest)

theorem mirrors_run {p : Char → Bool} {x : Step Unit} {k : Nat → Step β} {g : List Char → Read β}
    {W : List Char → Prop} {R : β → Cursor → Prop} (hx : Tracks text rounds x fun c => (c.span p).2)
    (h : ∀ start run, Mirrors text rounds (Ran text W p start run) (k start) (g run) R) :
    Mirrors text rounds (fun c => W c.rest) (do let start ← offset; x; k start)
      (readRun p >>= g) R := by
  intro s hin hW
  have hsplit : s.cursor.rest.takeWhile p ++ s.cursor.rest.dropWhile p = s.cursor.rest :=
    List.takeWhile_append_dropWhile
  have hran : Ran text W p s.cursor.offset (s.cursor.rest.takeWhile p) (s.cursor.span p).2 := by
    refine ⟨?_, rfl, fun ch hch => ?_, ?_⟩
    · change Cursor.In text ⟨s.cursor.rest.takeWhile p ++ s.cursor.rest.dropWhile p, _⟩
      rw [hsplit]
      exact hin.inText
    · have hstop := List.head?_dropWhile_not p s.cursor.rest
      rwa [show (s.cursor.rest.dropWhile p).head? = some ch from hch] at hstop
    · change W (s.cursor.rest.takeWhile p ++ s.cursor.rest.dropWhile p)
      rwa [hsplit]
  obtain ⟨hresult, hin'⟩ := hx s hin
  have hrun : (readRun p).run s =
      .ok (s.cursor.rest.takeWhile p, s.withCursor (s.cursor.span p).2) := rfl
  rw [result_bind_of_ok (result_offset s), result_bind_of_ok hresult, run_bind_of_eq hrun]
  exact h _ _ (s.withCursor _) hin' hran

theorem mirrors_cutFrom {p : Char → Bool} {W : List Char → Prop} {start : Nat} {run : List Char} :
    Mirrors text rounds (Ran text W p start run) (cutFrom text start) (pure (String.ofList run))
      fun _ => Ran text W p start run :=
  fun _ hin h => ⟨result_cutFrom h.from_start h.offset_eq, hin, h⟩

/-- Behind the run between the bars the second bar stands, or the text ends. -/
theorem mirrors_closingBar {start : Nat} {run : List Char} {name : String} :
    Mirrors text rounds (Ran text (·.length < n) (· ≠ '|') start run)
      (do
        if (← current? text) = some '|' then move 1
        return name)
      (do
        Reader.move Cursor.advance
        return name)
      fun _ => Short n := by
  intro s hin hran
  have hrun : (do Reader.move Cursor.advance; return name : Read String).run s =
      .ok (name, s.withCursor s.cursor.advance) := rfl
  have hshort : Short n s.cursor.advance := by
    have hwhole := hran.whole
    rw [List.length_append] at hwhole
    rw [Short, Cursor.advance, List.length_drop]
    omega
  rw [hrun]
  cases hrest : s.cursor.rest with
  | nil =>
    have hend := advance_of_nil hrest
    rw [hend] at hshort ⊢
    rw [result_bind_of_ok (result_current?_nil hin.inText hrest)]
    exact ⟨rfl, hin, hshort⟩
  | cons ch cs =>
    have hbar : ch = '|' := by
      have hstop := hran.stop ch (by rw [Cursor.peek?, hrest]; rfl)
      simpa using hstop
    subst hbar
    have hpass := advance_of_cons hrest
    rw [hpass] at hshort ⊢
    rw [result_bind_of_ok (result_current?_cons hin.inText hrest)]
    exact ⟨rfl, (hin.pass hrest).mono (Nat.sub_le rounds 1), hshort⟩

theorem mirrors_quoted : Mirrors text rounds (Short n)
    (do
      let start ← offset
      skipToBar text rounds
      let name ← cutFrom text start
      if (← current? text) = some '|' then move 1
      return name)
    (do
      let name ← readRun (· ≠ '|')
      Reader.move Cursor.advance
      return String.ofList name)
    fun _ => Short n :=
  mirrors_run (W := (·.length < n)) (tracks_skipToBar rounds) fun _ _ =>
    mirrors_cutFrom.bind_pure mirrors_closingBar

/-- A run is empty where the offset has stayed. -/
theorem mirrors_plain : Mirrors text rounds (Short n)
    (do
      let start ← offset
      skipWhile text isSymbolChar Char.utf8Size rounds
      if start = (← offset) then aside (fail (.expectedSymbol start))
      cutFrom text start)
    (do
      let name ← readRun isSymbolChar
      if name.isEmpty then Reader.fail (.expectedSymbol (← get).cursor.offset)
      return String.ofList name)
    fun _ => Short (n - 1) := by
  refine mirrors_run (W := (·.length < n)) (tracks_skipWhile (fun _ _ => rfl) rounds)
    fun start run => ?_
  refine (mirrors_offset fun c h => h.offset_eq).bind_pure ?_
  cases run with
  | nil =>
    intro s hin hran
    have hstart : start = start + byteLength [] := rfl
    have hoffset : s.cursor.offset = start := hran.offset_eq
    rw [if_pos (show ([] : List Char).isEmpty = true from rfl), if_pos hstart, ← hoffset]
    rfl
  | cons ch cs =>
    have hsize := ch.utf8Size_pos
    rw [if_neg (by rw [byteLength_cons]; omega), if_neg (by simp)]
    exact mirrors_cutFrom.mono (fun _ h => h) fun _ _ h => .of_run h.whole

theorem mirrors_readSymbol : Mirrors text rounds (Short n) (readSymbol text rounds)
    Reader.readSymbol fun _ => Short (n - 1) := by
  refine mirrors_skipBlanks.bind fun _ => mirrors_current?.bind fun next => ?_
  by_cases hbar : next = some '|'
  · rw [if_pos hbar, if_pos hbar]
    refine (mirrors_advance (Q := fun _ => Short (n - 1)) ?_ ?_).bind fun _ => mirrors_quoted
    · rintro c ⟨-, hpeek⟩
      exact ⟨'|', hpeek.trans hbar, by decide⟩
    · rintro c ⟨⟨hshort, -⟩, hpeek⟩
      exact hshort.advance (hpeek.trans hbar)
  · rw [if_neg hbar, if_neg hbar]
    exact mirrors_plain.mono (fun _ h => h.1.1) fun _ _ h => h

/-- A numeral is read where a digit stands. -/
def AtDigit (n : Nat) (c : Cursor) : Prop :=
  c.skipBlanks = c ∧ c.rest.length < n ∧ ∃ d, c.peek? = some d ∧ d.isDigit = true

theorem utf8Size_of_isDigit {ch : Char} (h : ch.isDigit = true) : ch.utf8Size = 1 := by
  simp only [Char.isDigit, Bool.and_eq_true, decide_eq_true_eq] at h
  rw [Char.utf8Size_eq_one_iff]
  exact UInt32.le_trans h.2 (by decide)

theorem mirrors_readNumeral : Mirrors text rounds (AtDigit n) (readNumeral text rounds)
    Reader.readNumeral fun _ => Short (n - 1) := by
  have hblanks : Mirrors text rounds (AtDigit n) (skipBlanks text rounds) (pure ())
      fun _ => AtDigit n := by
    intro s hin hdigit
    have htracks := (tracks_skipBlanks rounds s hin).1
    rw [hdigit.1] at htracks
    exact ⟨htracks, hin, hdigit⟩
  refine hblanks.bind_pure ?_
  refine Mirrors.mono (mirrors_run
    (W := fun cs => cs.length < n ∧ ∃ d, cs.head? = some d ∧ d.isDigit = true)
    (tracks_skipWhile (fun ch h => (utf8Size_of_isDigit h).symm) rounds) fun start run => ?_)
    (fun _ h => h.2) fun _ _ h => h
  refine (mirrors_offset fun c h => h.offset_eq).bind_pure ?_
  dsimp only
  cases run with
  | nil =>
    -- The digit that the numeral starts with is in the run.
    intro s hin hran
    obtain ⟨-, d, hhead, hd⟩ := hran.whole
    exact absurd hd (by rw [hran.stop d hhead]; decide)
  | cons ch cs =>
    have hsize := ch.utf8Size_pos
    rw [if_neg (by rw [byteLength_cons]; omega)]
    refine mirrors_cutFrom.bind_pure ?_
    rw [String.toList_ofList]
    cases (Text.decimal? (ch :: cs)).filter (· ≤ int64Max) with
    | none => exact .fail
    | some i => exact .pure fun _ h => .of_run h.whole.1

/-- A step that begins with skipping blanks. -/
def SkipsBlanks (y : Read α) : Prop := ∀ s, y.run (s.withCursor s.cursor.skipBlanks) = y.run s

theorem skipsBlanks_skipBlanks : SkipsBlanks Reader.skipBlanks := by
  intro s
  change Except.ok ((), s.withCursor s.cursor.skipBlanks.skipBlanks) = _
  rw [skipBlanks_skipBlanks]
  rfl

theorem SkipsBlanks.bind {y : Read α} {g : α → Read β} (h : SkipsBlanks y) :
    SkipsBlanks (y >>= g) := by
  intro s
  rw [StateT.run_bind, StateT.run_bind, h s]

/-- Blanks may be skipped once more. -/
theorem SkipsBlanks.mirrors {y : Read α} {x : Step α} {Q : α → Cursor → Prop} (hy : SkipsBlanks y)
    (h : Mirrors text rounds (Short n) x y Q) :
    Mirrors text rounds (Short n) (do skipBlanks text rounds; x) y Q := by
  refine Mirrors.congr (y := do Reader.skipBlanks; y) (mirrors_blanks.bind fun _ => h) fun s => ?_
  exact (hy s).symm

theorem skipsBlanks_readSymbol : SkipsBlanks Reader.readSymbol := skipsBlanks_skipBlanks.bind

theorem mirrors_readSort : Mirrors text rounds (Short n) (readSort text rounds)
    Reader.readSort fun _ => Short (n - 1) := by
  refine SkipsBlanks.mirrors skipsBlanks_readSymbol.bind (mirrors_readSymbol.bind fun name => ?_)
  split
  · exact .pure fun _ h => h
  · exact .pure fun _ h => h
  · next hbool hint =>
    have hfail : Mirrors text rounds (Short (n - 1)) (aside (Reader.fail (.unsupportedSort name)))
        (Reader.fail (.unsupportedSort name) : Read BaseSort) fun _ => Short (n - 1) := .fail
    simpa only [hbool, hint] using hfail

theorem mirrors_readName : Mirrors text rounds (Short n) (readName text rounds)
    Reader.readName fun _ => Short (n - 1) := by
  have hname (name : String) :
      Still (do return nameTerm (← get).problem (← sortOf? name) name : Read Term) := fun _ _ => rfl
  exact mirrors_readSymbol.bind fun name => (hname name).mirrors.congr fun _ => rfl

end HornSaturation.Reader.ByOffset
