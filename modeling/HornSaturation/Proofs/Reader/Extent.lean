import HornSaturation.Proofs.Reader.Phases
import Mathlib.Data.List.TakeWhile

/-!
# How far parsing reads

What a parser makes of a text depends on the characters that it passes over and on the one after
them, which tells it where a token ends. So the same characters are parsed alike at another place
and in front of another text. The bound on the depth of terms does no harm as long as no more text
than before has to be parsed.
-/

namespace HornSaturation.Reader

variable {α β : Type}

@[simp] theorem byteLength_nil : byteLength [] = 0 := rfl

@[simp] theorem byteLength_cons (c : Char) (cs : List Char) :
    byteLength (c :: cs) = c.utf8Size + byteLength cs := by
  have hfold (n : Nat) : cs.foldl (fun n c => n + c.utf8Size) n = n + byteLength cs := by
    induction cs generalizing n with
    | nil => rfl
    | cons d cs ih => rw [byteLength, List.foldl_cons, List.foldl_cons, ih, ih (0 + _)]; omega
  rw [byteLength, List.foldl_cons, hfold]
  omega

theorem byteLength_append (u v : List Char) :
    byteLength (u ++ v) = byteLength u + byteLength v := by
  induction u with
  | nil => simp
  | cons c u ih => rw [List.cons_append, byteLength_cons, ih, byteLength_cons]; omega

/-- A parser reads a text in front of a remaining one, wherever that is. -/
def Reads (φ : Parse α) (u : List Char) (a : α) (r : List Char) : Prop :=
  ∀ o, φ ⟨u ++ r, o⟩ = some (a, ⟨r, o + byteLength u⟩)

/-- What a parser reads it reads in front of any text that starts with the same character and is not
shorter. -/
def Local (φ : Parse α) : Prop := ∀ c a c', φ c = some (a, c') →
  ∃ u, c.rest = u ++ c'.rest ∧
    ∀ r, r.head? = c'.rest.head? → c'.rest.length ≤ r.length → Reads φ u a r

/-- What a parser reads, if it does not come to the end of the input, it reads in front of any text
that is not shorter. -/
def Delimited (φ : Parse α) : Prop := ∀ c a c', φ c = some (a, c') → c'.rest ≠ [] →
  ∃ u, u ≠ [] ∧ c.rest = u ++ c'.rest ∧ ∀ r, c'.rest.length ≤ r.length → Reads φ u a r

theorem parse_bind_eq_some {φ : Parse α} {ψ : α → Parse β} {c c' : Cursor} {b : β} :
    (φ >>= ψ) c = some (b, c') ↔ ∃ a c₁, φ c = some (a, c₁) ∧ ψ a c₁ = some (b, c') := by
  change (φ c).bind (fun r => ψ r.1 r.2) = _ ↔ _
  rw [Option.bind_eq_some_iff]
  exact Prod.exists

namespace Reads

variable {φ : Parse α} {u v r : List Char} {a : α} {b : β}

theorem pure : Reads (pure a) [] a r := fun _ => rfl

theorem bind {ψ : α → Parse β} (h : Reads φ u a (v ++ r)) (h' : Reads (ψ a) v b r) :
    Reads (φ >>= ψ) (u ++ v) b r := by
  intro o
  rw [List.append_assoc, byteLength_append, ← Nat.add_assoc]
  exact parse_bind_eq_some.mpr ⟨a, _, h o, h' _⟩

/-- A step that stays where it is comes before another one. -/
theorem bind_nil {ψ : α → Parse β} (h : Reads φ [] a (u ++ r)) (h' : Reads (ψ a) u b r) :
    Reads (φ >>= ψ) u b r := bind h h'

theorem map {f : α → β} (h : Reads φ u a r) : Reads (φ >>= fun a => Pure.pure (f a)) u (f a) r := by
  intro o
  exact parse_bind_eq_some.mpr ⟨a, _, h o, rfl⟩

end Reads

namespace Local

variable {φ : Parse α} {ψ : α → Parse β}

theorem failure : Local (failure : Parse α) := fun _ _ _ h => by cases h

theorem pure (a : α) : Local (pure a) := by
  intro c b c' h
  obtain ⟨rfl, rfl⟩ := Prod.mk.inj (Option.some.inj h)
  exact ⟨[], rfl, fun r _ _ => Reads.pure⟩

theorem bind (hφ : Local φ) (hψ : ∀ a, Local (ψ a)) : Local (φ >>= ψ) := by
  intro c b c' h
  obtain ⟨a, c₁, ha, hb⟩ := parse_bind_eq_some.mp h
  obtain ⟨u, hu, hread⟩ := hφ c a c₁ ha
  obtain ⟨v, hv, hread'⟩ := hψ a c₁ b c' hb
  refine ⟨u ++ v, by rw [hu, hv, List.append_assoc], fun r hr hlen => ?_⟩
  refine (hread (v ++ r) ?_ ?_).bind (hread' r hr hlen)
  · rw [hv, List.head?_append, List.head?_append, hr]
  · rw [hv, List.length_append, List.length_append]
    omega

theorem scan_bind {x : Read α} {k : α → Read β} (hx : Scans x) (h : Local (scan x))
    (hk : ∀ a, Local (scan (k a))) : Local (scan (x >>= k)) := hx.scan_bind ▸ h.bind hk

/-- What a parser leaves is the end of what it has been given. -/
theorem exists_append (h : Local φ) {c c' : Cursor} {a : α} (ha : φ c = some (a, c')) :
    ∃ u, c.rest = u ++ c'.rest := (h c a c' ha).imp fun _ h => h.1

theorem length_le (h : Local φ) {c c' : Cursor} {a : α} (ha : φ c = some (a, c')) :
    c'.rest.length ≤ c.rest.length := by
  obtain ⟨u, hu⟩ := h.exists_append ha
  rw [hu, List.length_append]
  omega

/-- The same text is parsed alike at another place. -/
theorem move (h : Local φ) {c c₁ c' : Cursor} {a : α} (ha : φ c = some (a, c₁))
    (hc' : c'.rest = c.rest) : ∃ c₂, φ c' = some (a, c₂) ∧ c₂.rest = c₁.rest := by
  obtain ⟨u, hu, hread⟩ := h c a c₁ ha
  have hread' := hread c₁.rest rfl (Nat.le_refl _) c'.offset
  rw [← hu, ← hc'] at hread'
  exact ⟨_, hread', rfl⟩

/-- The last parser tells where it ends, so all before it may be followed by anything. -/
theorem bind_delimited (hφ : Local φ) (hψ : ∀ a, Delimited (ψ a)) : Delimited (φ >>= ψ) := by
  intro c b c' h hend
  obtain ⟨a, c₁, ha, hb⟩ := parse_bind_eq_some.mp h
  obtain ⟨u, hu, hread⟩ := hφ c a c₁ ha
  obtain ⟨v, hne, hv, hread'⟩ := hψ a c₁ b c' hb hend
  refine ⟨u ++ v, by simp [hne], by rw [hu, hv, List.append_assoc], fun r hlen => ?_⟩
  refine (hread (v ++ r) ?_ ?_).bind (hread' r hlen)
  · rw [hv, List.head?_append_of_ne_nil _ hne, List.head?_append_of_ne_nil _ hne]
  · rw [hv, List.length_append, List.length_append]
    omega

end Local

theorem Delimited.bind_pure {φ : Parse α} {f : α → β} (h : Delimited φ) :
    Delimited (φ >>= fun a => pure (f a)) := by
  intro c b c' hb hend
  obtain ⟨a, c₁, ha, hb⟩ := parse_bind_eq_some.mp hb
  obtain ⟨rfl, rfl⟩ := Prod.mk.inj (Option.some.inj hb)
  obtain ⟨u, hne, hu, hread⟩ := h c a c₁ ha hend
  exact ⟨u, hne, hu, fun r hlen => (hread r hlen).map⟩

section Tokens

variable {c c' : Cursor}

theorem scan_move (f : Cursor → Cursor) : scan (move f) c = some ((), f c) := rfl

theorem scan_peek? : scan peek? c = some (c.peek?, c) := rfl

theorem scan_skipBlanks : scan skipBlanks c = some ((), c.skipBlanks) := rfl

theorem scan_skipBlanks_bind {φ : Unit → Parse α} :
    (scan skipBlanks >>= φ) c = φ () c.skipBlanks := rfl

theorem scan_readRun (p : Char → Bool) : scan (readRun p) c = some (c.span p) := rfl

/-- Blanks and comments end in front of a character that starts neither, or with the text. -/
theorem skipBlanksFrom_append (cs : List Char) (inComment : Bool) (o : Nat) :
    ∃ u, cs = u ++ (skipBlanksFrom o inComment cs).rest ∧
      ∀ o' r, r.head? = (skipBlanksFrom o inComment cs).rest.head? →
        skipBlanksFrom o' inComment (u ++ r) = ⟨r, o' + byteLength u⟩ := by
  induction cs generalizing inComment o with
  | nil =>
    refine ⟨[], by simp [skipBlanksFrom], fun o' r hr => ?_⟩
    obtain rfl : r = [] := by simpa [skipBlanksFrom] using hr
    simp [skipBlanksFrom]
  | cons c cs ih =>
    -- The first character is passed over in the same way in front of every text.
    have hpass (b b' : Bool) (h : ∀ o cs,
        skipBlanksFrom o b (c :: cs) = skipBlanksFrom (o + c.utf8Size) b' cs) :
        ∃ u, c :: cs = u ++ (skipBlanksFrom o b (c :: cs)).rest ∧
          ∀ o' r, r.head? = (skipBlanksFrom o b (c :: cs)).rest.head? →
            skipBlanksFrom o' b (u ++ r) = ⟨r, o' + byteLength u⟩ := by
      obtain ⟨u, hu, hread⟩ := ih b' (o + c.utf8Size)
      rw [h]
      refine ⟨c :: u, by rw [List.cons_append, ← hu], fun o' r hr => ?_⟩
      rw [List.cons_append, h, hread _ r hr, byteLength_cons, Nat.add_assoc]
    cases inComment with
    | true => exact hpass true (c != '\n') fun o cs => by rw [skipBlanksFrom]
    | false =>
      by_cases hblank : Text.isBlank c = true
      · exact hpass false false fun o cs => by rw [skipBlanksFrom, if_pos hblank]
      by_cases hcomment : c = ';'
      · exact hpass false true fun o cs => by
          rw [skipBlanksFrom, if_neg hblank, if_pos hcomment]
      · have hstop (o : Nat) (cs : List Char) :
            skipBlanksFrom o false (c :: cs) = ⟨c :: cs, o⟩ := by
          rw [skipBlanksFrom, if_neg hblank, if_neg hcomment]
        rw [hstop]
        refine ⟨[], rfl, fun o' r hr => ?_⟩
        obtain ⟨r, rfl⟩ := List.head?_eq_some_iff.mp hr
        rw [List.nil_append, hstop]
        rfl

/-- Blanks and comments are passed over at once. -/
theorem skipBlanksFrom_skipBlanksFrom (cs : List Char) (inComment : Bool) (o o' : Nat) :
    skipBlanksFrom o' false (skipBlanksFrom o inComment cs).rest =
      ⟨(skipBlanksFrom o inComment cs).rest, o'⟩ := by
  induction cs generalizing inComment o with
  | nil => simp [skipBlanksFrom]
  | cons c cs ih =>
    cases inComment with
    | true =>
      rw [skipBlanksFrom]
      exact ih _ _
    | false =>
      rw [skipBlanksFrom]
      split
      · exact ih _ _
      · next hblank =>
        split
        · exact ih _ _
        · next hcomment => rw [skipBlanksFrom, if_neg hblank, if_neg hcomment]

theorem skipBlanks_skipBlanks (c : Cursor) : c.skipBlanks.skipBlanks = c.skipBlanks :=
  skipBlanksFrom_skipBlanksFrom _ _ _ _

/-- A step that starts by skipping blanks need not be preceded by that. -/
theorem scan_skipBlanks_skipBlanks (x : Read α) :
    (scan skipBlanks >>= fun _ => scan (skipBlanks >>= fun _ => x)) =
      scan (skipBlanks >>= fun _ => x) := by
  rw [scans_skipBlanks.scan_bind]
  funext c
  rw [scan_skipBlanks_bind, scan_skipBlanks_bind, scan_skipBlanks_bind, skipBlanks_skipBlanks]

theorem local_skipBlanks : Local (scan skipBlanks) := by
  intro c a c' h
  obtain ⟨-, rfl⟩ := Prod.mk.inj (Option.some.inj h)
  obtain ⟨u, hu, hread⟩ := skipBlanksFrom_append c.rest false c.offset
  exact ⟨u, hu, fun r hr _ o => congrArg (fun c => some ((), c)) (hread o r hr)⟩

theorem length_skipBlanks_le (c : Cursor) : c.skipBlanks.rest.length ≤ c.rest.length :=
  local_skipBlanks.length_le scan_skipBlanks

theorem local_peek? : Local (scan peek?) := by
  intro c a c' h
  obtain ⟨rfl, rfl⟩ := Prod.mk.inj (Option.some.inj h)
  refine ⟨[], rfl, fun r hr _ o => ?_⟩
  rw [scan_peek?, Cursor.peek?, Cursor.peek?, List.nil_append, hr]
  rfl

/-- A run of characters ends in front of one without the property, or with the text. -/
theorem reads_readRun {p : Char → Bool} {u r : List Char} (hu : ∀ c ∈ u, p c = true)
    (hr : ∀ c ∈ r.head?, p c = false) : Reads (scan (readRun p)) u u r := by
  have htake : (u ++ r).takeWhile p = u ∧ (u ++ r).dropWhile p = r := by
    rw [List.takeWhile_append_of_pos hu, List.dropWhile_append_of_pos hu]
    cases r with
    | nil => simp
    | cons c r =>
      have hc : ¬ p c = true := by simp [hr c rfl]
      rw [List.takeWhile_cons_of_neg hc, List.dropWhile_cons_of_neg hc, List.append_nil]
      exact ⟨rfl, rfl⟩
  intro o
  rw [scan_readRun, Cursor.span]
  dsimp only
  rw [htake.1, htake.2]

theorem local_readRun (p : Char → Bool) : Local (scan (readRun p)) := by
  intro c a c' h
  obtain ⟨rfl, rfl⟩ := Prod.mk.inj (Option.some.inj h)
  refine ⟨c.rest.takeWhile p, List.takeWhile_append_dropWhile.symm, fun r hr _ => ?_⟩
  refine reads_readRun (fun d hd => List.mem_takeWhile_imp hd) fun d hd => ?_
  rw [hr] at hd
  have hstop := List.head?_dropWhile_not p c.rest
  rwa [show (c.rest.dropWhile p).head? = some d from hd] at hstop

theorem reads_advance (ch : Char) (r : List Char) :
    Reads (scan (move Cursor.advance)) [ch] () r := fun o => by
  simp [scan_move, Cursor.advance]

theorem local_advance : Local (scan (move Cursor.advance)) := by
  intro c a c' h
  obtain ⟨-, rfl⟩ := Prod.mk.inj (Option.some.inj h)
  cases hc : c.rest with
  | nil =>
    refine ⟨[], by simp [Cursor.advance, hc], fun r hr _ o => ?_⟩
    obtain rfl : r = [] := by simpa [Cursor.advance, hc] using hr
    rfl
  | cons ch cs => exact ⟨[ch], by simp [Cursor.advance, hc], fun r _ _ => reads_advance ch r⟩

/-- An expected character is read behind blanks. -/
theorem reads_expect {ch : Char} {u r : List Char} (h : Reads (scan skipBlanks) u () (ch :: r)) :
    Reads (scan (expect ch)) (u ++ [ch]) () r := by
  rw [expect, scans_skipBlanks.scan_bind]
  refine Reads.bind h ?_
  rw [scans_peek?.scan_bind]
  refine Reads.bind_nil (a := some ch) (fun o => rfl) ?_
  simpa using reads_advance ch r

theorem scan_expect_eq_some {ch : Char} {a : Unit} (h : scan (expect ch) c = some (a, c')) :
    c.skipBlanks.rest = ch :: c'.rest := by
  rw [expect, scans_skipBlanks.scan_bind] at h
  obtain ⟨_, c₁, hskip, h⟩ := parse_bind_eq_some.mp h
  obtain ⟨-, rfl⟩ := Prod.mk.inj (Option.some.inj hskip)
  rw [scans_peek?.scan_bind] at h
  obtain ⟨next, c₁, hpeek, h⟩ := parse_bind_eq_some.mp h
  obtain ⟨rfl, rfl⟩ := Prod.mk.inj (Option.some.inj hpeek)
  cases hrest : c.skipBlanks.rest with
  | nil =>
    rw [Cursor.peek?, hrest] at h
    cases h
  | cons d cs =>
    simp only [Cursor.peek?, hrest, List.head?_cons] at h
    split at h
    · next hd =>
      obtain ⟨-, rfl⟩ := Prod.mk.inj (Option.some.inj h)
      simp [Cursor.advance, hrest, hd]
    · cases h

/-- It makes no difference what comes after an expected character. -/
theorem expect_append {ch : Char} {a : Unit} (h : scan (expect ch) c = some (a, c')) :
    ∃ u, u ≠ [] ∧ c.rest = u ++ c'.rest ∧
      ∀ r, c'.rest.length ≤ r.length → Reads (scan (expect ch)) u a r := by
  have hrest := scan_expect_eq_some h
  obtain ⟨u, hu, hread⟩ := local_skipBlanks c () c.skipBlanks rfl
  refine ⟨u ++ [ch], by simp, by rw [hu, hrest, List.append_assoc]; rfl, fun r hlen => ?_⟩
  refine reads_expect (hread (ch :: r) (by rw [hrest]; rfl) ?_)
  rw [hrest, List.length_cons, List.length_cons]
  omega

theorem delimited_expect (ch : Char) : Delimited (scan (expect ch)) :=
  fun _ _ _ h _ => expect_append h

theorem local_expect (ch : Char) : Local (scan (expect ch)) := fun _ _ _ h =>
  (expect_append h).imp fun _ h => ⟨h.2.1, fun r _ => h.2.2 r⟩

theorem local_readSymbol : Local (scan readSymbol) := by
  refine .scan_bind scans_skipBlanks local_skipBlanks fun _ =>
    .scan_bind scans_peek? local_peek? fun next => ?_
  split
  · exact .scan_bind (scans_move _) local_advance fun _ => .scan_bind (scans_readRun _)
      (local_readRun _) fun _ => .scan_bind (scans_move _) local_advance fun _ => .pure _
  · refine .scan_bind (scans_readRun _) (local_readRun _) fun name => ?_
    split
    · exact .failure
    · exact .pure _

theorem local_readNumeral : Local (scan readNumeral) := by
  refine .scan_bind (scans_readRun _) (local_readRun _) fun digits => ?_
  split
  · exact .pure _
  · exact .failure

theorem local_readSort : Local (scan readSort) := by
  refine .scan_bind scans_readSymbol local_readSymbol fun name => ?_
  split
  · exact .pure _
  · exact .pure _
  · exact .failure

theorem local_readSortsWithin (n : Nat) : Local (scan (readSortsWithin n)) := by
  induction n with
  | zero => exact .failure
  | succ n ih =>
    rw [readSortsWithin]
    refine .scan_bind scans_skipBlanks local_skipBlanks fun _ =>
      .scan_bind scans_peek? local_peek? fun next => ?_
    split
    · exact .pure _
    · exact .scan_bind scans_readSort local_readSort fun _ =>
        .scan_bind (scans_readSortsWithin n) ih fun _ => .pure _

theorem delimited_finishCommand : Delimited (scan finishCommand) := by
  rw [finishCommand, scans_skipBlanks.scan_bind]
  exact local_skipBlanks.bind_delimited fun _ => delimited_expect _

end Tokens

section Groups

/-- The number of open groups after one more character; none if the character closes the last one.
-/
def depthAfter (depth : Nat) (c : Char) : Option Nat :=
  if c = '(' then some (depth + 1)
  else if c = ')' then match depth with
    | 0 => none
    | depth + 1 => some depth
  else some depth

theorem skipGroupFrom_cons (o depth : Nat) (c : Char) (cs : List Char) :
    skipGroupFrom o depth (c :: cs) = match depthAfter depth c with
      | some depth' => skipGroupFrom (o + c.utf8Size) depth' cs
      | none => ⟨cs, o + c.utf8Size⟩ := by
  unfold depthAfter
  by_cases hopen : c = '('
  · subst hopen
    rw [if_pos rfl, skipGroupFrom]
    rfl
  rw [if_neg hopen]
  by_cases hclose : c = ')'
  · subst hclose
    rw [if_pos rfl]
    cases depth with
    | zero => rw [skipGroupFrom]; rfl
    | succ depth => rw [skipGroupFrom]; rfl
  · rw [if_neg hclose, skipGroupFrom] <;> simp_all

/-- Where a group ends does not depend on what comes after it. -/
theorem skipGroupFrom_append (cs : List Char) (depth o : Nat) :
    ∃ u, cs = u ++ (skipGroupFrom o depth cs).rest ∧
      ((skipGroupFrom o depth cs).rest ≠ [] → u ≠ []) ∧
      ∀ o' r, ((skipGroupFrom o depth cs).rest = [] → r = []) →
        skipGroupFrom o' depth (u ++ r) = ⟨r, o' + byteLength u⟩ := by
  induction cs generalizing depth o with
  | nil =>
    refine ⟨[], by simp [skipGroupFrom], fun h => absurd rfl h, fun o' r hr => ?_⟩
    obtain rfl := hr rfl
    rfl
  | cons c cs ih =>
    rw [skipGroupFrom_cons]
    cases hdepth : depthAfter depth c with
    | none =>
      refine ⟨[c], rfl, fun _ => by simp, fun o' r _ => ?_⟩
      rw [List.singleton_append, skipGroupFrom_cons, hdepth]
      simp
    | some depth' =>
      obtain ⟨u, hu, -, hread⟩ := ih depth' (o + c.utf8Size)
      refine ⟨c :: u, by rw [List.cons_append, ← hu], fun _ => by simp, fun o' r hr => ?_⟩
      rw [List.cons_append, skipGroupFrom_cons, hdepth]
      dsimp only
      rw [hread _ r hr, byteLength_cons, Nat.add_assoc]

theorem local_skipGroup : Local (scan (move Cursor.skipGroup)) := by
  intro c a c' h
  obtain ⟨-, rfl⟩ := Prod.mk.inj (Option.some.inj h)
  obtain ⟨u, hu, -, hread⟩ := skipGroupFrom_append c.rest 0 c.offset
  refine ⟨u, hu, fun r hr _ o => congrArg (fun c => some ((), c)) (hread o r fun hnil => ?_)⟩
  exact List.head?_eq_none_iff.mp (hr.trans (List.head?_eq_none_iff.mpr hnil))

theorem delimited_skipGroup : Delimited (scan (move Cursor.skipGroup)) := by
  intro c a c' h hend
  obtain ⟨-, rfl⟩ := Prod.mk.inj (Option.some.inj h)
  obtain ⟨u, hu, hne, hread⟩ := skipGroupFrom_append c.rest 0 c.offset
  exact ⟨u, hne hend, hu, fun r _ o =>
    congrArg (fun c => some ((), c)) (hread o r fun hnil => absurd hnil hend)⟩

end Groups

section Bounds

/-- What one parser reads another one reads too. -/
def Within (φ ψ : Parse α) : Prop := ∀ c r, φ c = some r → ψ c = some r

namespace Within

theorem refl (φ : Parse α) : Within φ φ := fun _ _ h => h

theorem failure (ψ : Parse α) : Within failure ψ := fun _ _ h => by cases h

theorem bind {φ φ' : Parse α} {ψ ψ' : α → Parse β} (hφ : Within φ φ') (hψ : ∀ a, Within (ψ a) (ψ' a)) :
    Within (φ >>= ψ) (φ' >>= ψ') := by
  rintro c ⟨b, c'⟩ h
  obtain ⟨a, c₁, ha, hb⟩ := parse_bind_eq_some.mp h
  exact parse_bind_eq_some.mpr ⟨a, c₁, hφ c _ ha, hψ a c₁ _ hb⟩

/-- A parser with a bound that may grow parses within every greater bound what it parses within one.
-/
theorem of_le {φ : Nat → Parse α} (h : ∀ n, Within (φ n) (φ (n + 1))) {m n : Nat} (hmn : m ≤ n) :
    Within (φ m) (φ n) := by
  induction hmn with
  | refl => exact refl _
  | step _ ih => exact fun c r hr => h _ c r (ih c r hr)

end Within

/-- The number of characters left is a bound that grows with the text. -/
theorem Local.bounded {φ : Nat → Parse α} (h : ∀ n, Local (φ n))
    (hgrow : ∀ n, Within (φ n) (φ (n + 1))) : Local fun c => φ (c.rest.length + 1) c := by
  intro c a c' ha
  obtain ⟨u, hu, hread⟩ := h _ c a c' ha
  refine ⟨u, hu, fun r hr hlen o => Within.of_le hgrow ?_ _ _ (hread r hr hlen o)⟩
  rw [hu]
  simp only [List.length_append]
  omega

theorem within_readSortsWithin (n : Nat) :
    Within (scan (readSortsWithin n)) (scan (readSortsWithin (n + 1))) := by
  induction n with
  | zero => exact .failure _
  | succ n ih =>
    have hstep (n : Nat) : scan (readSortsWithin (n + 1)) = do
        scan skipBlanks
        if (← scan peek?) = some ')' then return []
        let sort ← scan readSort
        return sort :: (← scan (readSortsWithin n)) := by
      rw [readSortsWithin, scans_skipBlanks.scan_bind]
      refine bind_congr fun _ => ?_
      rw [scans_peek?.scan_bind]
      refine bind_congr fun next => ?_
      split
      · rfl
      · rw [scans_readSort.scan_bind]
        refine bind_congr fun sort => ?_
        rw [(scans_readSortsWithin n).scan_bind]
        rfl
    rw [hstep, hstep]
    refine .bind (.refl _) fun _ => .bind (.refl _) fun next => ?_
    split
    · exact .refl _
    · exact .bind (.refl _) fun _ => .bind ih fun _ => .refl _

/-- The parsers of terms, arguments, bindings and quantified variables parse no less with a greater
bound. -/
structure Growing (n : Nat) : Prop where
  term : Within (formWithin n) (formWithin (n + 1))
  arguments : Within (argsWithin n) (argsWithin (n + 1))
  bindings : Within (bindingsWithin n) (bindingsWithin (n + 1))
  bound : Within (boundWithin n) (boundWithin (n + 1))

theorem growing (n : Nat) : Growing n := by
  induction n with
  | zero => exact ⟨.failure _, .failure _, .failure _, .failure _⟩
  | succ n ih =>
    constructor
    · rw [formWithin, formWithin]
      refine .bind (.refl _) fun _ => .bind (.refl _) fun next => ?_
      split
      · refine .bind (.refl _) fun _ => .bind (.refl _) fun name => .bind (.refl _) fun _ => ?_
        split
        · exact .bind (.refl _) fun _ => .bind ih.bindings fun _ => .bind (.refl _) fun _ =>
            .bind ih.term fun _ => .refl _
        · exact .bind (.refl _) fun _ => .bind ih.bound fun _ => .bind (.refl _) fun _ =>
            .bind ih.term fun _ => .refl _
        · exact .bind (.refl _) fun _ => .bind ih.bound fun _ => .bind (.refl _) fun _ =>
            .bind ih.term fun _ => .refl _
        · exact .bind ih.arguments fun _ => .refl _
      · exact .refl _
      · exact .refl _
    · rw [argsWithin, argsWithin]
      refine .bind (.refl _) fun _ => .bind (.refl _) fun next => ?_
      split
      · exact .refl _
      · exact .bind ih.term fun _ => .bind ih.arguments fun _ => .refl _
    · rw [bindingsWithin, bindingsWithin]
      refine .bind (.refl _) fun _ => .bind (.refl _) fun next => ?_
      split
      · exact .refl _
      · exact .bind (.refl _) fun _ => .bind (.refl _) fun _ => .bind ih.term fun _ =>
          .bind (.refl _) fun _ => .bind ih.bindings fun _ => .refl _
    · rw [boundWithin, boundWithin]
      refine .bind (.refl _) fun _ => .bind (.refl _) fun next => ?_
      split
      · exact .refl _
      · exact .bind (.refl _) fun _ => .bind (.refl _) fun _ => .bind (.refl _) fun _ =>
          .bind (.refl _) fun _ => .bind ih.bound fun _ => .refl _

/-- The parsers of terms, arguments, bindings and quantified variables are local. -/
structure LocalWithin (n : Nat) : Prop where
  term : Local (formWithin n)
  arguments : Local (argsWithin n)
  bindings : Local (bindingsWithin n)
  bound : Local (boundWithin n)

theorem localWithin (n : Nat) : LocalWithin n := by
  induction n with
  | zero => exact ⟨.failure, .failure, .failure, .failure⟩
  | succ n ih =>
    constructor
    · rw [formWithin]
      refine local_skipBlanks.bind fun _ => local_peek?.bind fun next => ?_
      split
      · refine (local_expect _).bind fun _ => local_readSymbol.bind fun name =>
          local_skipBlanks.bind fun _ => ?_
        have hquantified (hn : LocalWithin n) : Local (do
            scan (expect '(')
            let bound ← boundWithin n
            scan (expect ')')
            let body ← formWithin n
            scan (expect ')')
            return Form.quantified bound body) :=
          (local_expect _).bind fun _ => hn.bound.bind fun _ => (local_expect _).bind fun _ =>
            hn.term.bind fun _ => (local_expect _).bind fun _ => .pure _
        split
        · exact (local_expect _).bind fun _ => ih.bindings.bind fun _ =>
            (local_expect _).bind fun _ => ih.term.bind fun _ => (local_expect _).bind fun _ =>
            .pure _
        · exact hquantified ih
        · exact hquantified ih
        · exact ih.arguments.bind fun _ => (local_expect _).bind fun _ => .pure _
      · split
        · exact local_readNumeral.bind fun _ => .pure _
        · exact local_readSymbol.bind fun _ => .pure _
      · exact .failure
    · rw [argsWithin]
      refine local_skipBlanks.bind fun _ => local_peek?.bind fun next => ?_
      split
      · exact .pure _
      · exact ih.term.bind fun _ => ih.arguments.bind fun _ => .pure _
    · rw [bindingsWithin]
      refine local_skipBlanks.bind fun _ => local_peek?.bind fun next => ?_
      split
      · exact .pure _
      · exact (local_expect _).bind fun _ => local_readSymbol.bind fun _ => ih.term.bind fun _ =>
          (local_expect _).bind fun _ => ih.bindings.bind fun _ => .pure _
    · rw [boundWithin]
      refine local_skipBlanks.bind fun _ => local_peek?.bind fun next => ?_
      split
      · exact .pure _
      · exact (local_expect _).bind fun _ => local_readSymbol.bind fun _ =>
          local_readSort.bind fun _ => (local_expect _).bind fun _ => ih.bound.bind fun _ =>
          .pure _

theorem local_parseForm : Local parseForm :=
  .bounded (fun n => (localWithin n).term) fun n => (growing n).term

end Bounds

section Commands

theorem local_parseRelation (isFunction : Bool) : Local (parseRelation isFunction) := by
  unfold parseRelation
  refine local_readSymbol.bind fun _ => local_skipBlanks.bind fun _ =>
    (local_expect _).bind fun _ => (Local.bounded local_readSortsWithin
    within_readSortsWithin).bind fun _ => (local_expect _).bind fun _ => ?_
  cases isFunction with
  | false => exact .pure _
  | true =>
    refine local_readSort.bind fun sort => ?_
    split
    · exact Local.failure.bind fun _ => .pure _
    · exact .pure _

theorem local_parseVariable : Local parseVariable :=
  local_readSymbol.bind fun _ => local_readSort.bind fun _ => .pure _

theorem local_parseRule : Local parseRule := local_parseForm.bind fun _ => .pure _

theorem local_parseQuery : Local parseQuery := by
  refine local_peek?.bind fun next => ?_
  split
  · exact local_parseForm.bind fun _ => .pure _
  · exact local_readSymbol.bind fun _ => .pure _

theorem Local.finish {φ : Parse Command} (h : Local φ) :
    Local (do let c ← φ; scan finishCommand; return c) :=
  h.bind fun _ => (Local.scan_bind scans_skipBlanks local_skipBlanks fun _ =>
    local_expect _).bind fun _ => .pure _

theorem Local.finish_delimited {φ : Parse Command} (h : Local φ) :
    Delimited (do let c ← φ; scan finishCommand; return c) :=
  h.bind_delimited fun _ => delimited_finishCommand.bind_pure

theorem local_parseCommandBody : Local parseCommandBody := by
  refine local_skipBlanks.bind fun _ => local_readSymbol.bind fun name =>
    local_skipBlanks.bind fun _ => ?_
  split
  · exact local_readSymbol.bind fun _ => (Local.pure Command.idle).finish
  · exact (local_parseRelation false).finish
  · exact (local_parseRelation true).finish
  · exact local_parseVariable.finish
  · exact local_parseVariable.finish
  · exact local_parseRule.finish
  · exact local_parseRule.finish
  · exact local_parseQuery.finish
  · exact local_skipGroup.bind fun _ => .pure _

/-- A command ends with a parenthesis, unless it is one that is skipped up to the end of the input.
-/
theorem delimited_parseCommandBody : Delimited parseCommandBody := by
  refine local_skipBlanks.bind_delimited fun _ => local_readSymbol.bind_delimited fun name =>
    local_skipBlanks.bind_delimited fun _ => ?_
  split
  · exact local_readSymbol.bind_delimited fun _ => (Local.pure Command.idle).finish_delimited
  · exact (local_parseRelation false).finish_delimited
  · exact (local_parseRelation true).finish_delimited
  · exact local_parseVariable.finish_delimited
  · exact local_parseVariable.finish_delimited
  · exact local_parseRule.finish_delimited
  · exact local_parseRule.finish_delimited
  · exact local_parseQuery.finish_delimited
  · exact delimited_skipGroup.bind_pure

theorem delimited_parseCommand : Delimited parseCommand :=
  (local_expect _).bind_delimited fun _ => delimited_parseCommandBody

theorem local_parseCommand : Local parseCommand :=
  (local_expect _).bind fun _ => local_parseCommandBody

/-- A command has at least its first parenthesis. -/
theorem length_lt_of_parseCommand {c c' : Cursor} {cmd : Command}
    (h : parseCommand c = some (cmd, c')) : c'.rest.length < c.rest.length := by
  obtain ⟨_, c₁, hopen, hbody⟩ := parse_bind_eq_some.mp h
  refine Nat.lt_of_lt_of_le ?_ (length_skipBlanks_le c)
  rw [scan_expect_eq_some hopen, List.length_cons]
  exact Nat.lt_succ_of_le (local_parseCommandBody.length_le hbody)

end Commands

/-- A text consists of commands with blanks and comments around them. -/
inductive Consists : Cursor → List Command → Prop
  | done {c : Cursor} (h : c.skipBlanks.rest = []) : Consists c []
  | next {c c' : Cursor} {cmd : Command} {cmds : List Command}
      (hcmd : parseCommand c.skipBlanks = some (cmd, c')) (hcmds : Consists c' cmds) :
      Consists c (cmd :: cmds)

section Scripts

variable {c : Cursor} {cmds : List Command}

/-- The loop over the commands, with one round taken out. -/
theorem commandsWithin_succ (n : Nat) (c : Cursor) :
    commandsWithin (n + 1) c = if c.skipBlanks.rest = [] then some ([], c.skipBlanks)
      else (parseCommand c.skipBlanks).bind fun r =>
        (commandsWithin n r.2).map fun r' => (r.1 :: r'.1, r'.2) := by
  have hround : commandsWithin (n + 1) c =
      (if c.skipBlanks.peek?.isSome then do
        let c ← parseCommand
        return c :: (← commandsWithin n)
      else return [] : Parse (List Command)) c.skipBlanks := rfl
  rw [hround, Cursor.peek?]
  cases hrest : c.skipBlanks.rest with
  | nil => rfl
  | cons ch cs =>
    change (parseCommand c.skipBlanks).bind (fun r => (commandsWithin n r.2).bind fun r' => _) = _
    simp only [reduceCtorEq, if_false]
    refine congrArg (Option.bind _) (funext fun r => ?_)
    cases commandsWithin n r.2 <;> rfl

theorem Consists.eq_nil (h : Consists c cmds) (hc : c.skipBlanks.rest = []) : cmds = [] := by
  cases h with
  | done => rfl
  | next hcmd =>
    have hlen := length_lt_of_parseCommand hcmd
    rw [hc] at hlen
    exact absurd hlen (Nat.not_lt_zero _)

/-- By induction on the bound, which the number of characters left does not exceed: each command
takes some of them. -/
theorem exists_commandsWithin_iff {n : Nat} (hn : c.rest.length ≤ n) :
    (∃ c', commandsWithin n c = some (cmds, c')) ↔ Consists c cmds := by
  induction n generalizing c cmds with
  | zero =>
    have hend : c.skipBlanks.rest = [] := by
      have hlen := length_skipBlanks_le c
      exact List.length_eq_zero_iff.mp (by omega)
    constructor
    · rintro ⟨c', h⟩
      obtain ⟨rfl, -⟩ := Prod.mk.inj (Option.some.inj h)
      exact .done hend
    · intro h
      obtain rfl := h.eq_nil hend
      exact ⟨c, rfl⟩
  | succ n ih =>
    rw [commandsWithin_succ]
    by_cases hend : c.skipBlanks.rest = []
    · rw [if_pos hend]
      constructor
      · rintro ⟨c', h⟩
        obtain ⟨rfl, -⟩ := Prod.mk.inj (Option.some.inj h)
        exact .done hend
      · intro h
        obtain rfl := h.eq_nil hend
        exact ⟨_, rfl⟩
    · rw [if_neg hend]
      have hshorter {c' : Cursor} {cmd : Command}
          (h : parseCommand c.skipBlanks = some (cmd, c')) : c'.rest.length ≤ n := by
        have hlt := length_lt_of_parseCommand h
        have hle := length_skipBlanks_le c
        omega
      constructor
      · rintro ⟨c', h⟩
        obtain ⟨⟨cmd, c₁⟩, hcmd, h⟩ := Option.bind_eq_some_iff.mp h
        obtain ⟨⟨cmds', c₂⟩, hcmds, heq⟩ := Option.map_eq_some_iff.mp h
        obtain ⟨rfl, -⟩ := Prod.mk.inj heq
        exact .next hcmd ((ih (hshorter hcmd)).mp ⟨c₂, hcmds⟩)
      · intro h
        cases h with
        | done h => exact absurd h hend
        | next hcmd hcmds =>
          obtain ⟨c', h⟩ := (ih (hshorter hcmd)).mpr hcmds
          exact ⟨c', by rw [hcmd, Option.bind_some, h, Option.map_some]⟩

theorem performAll_append (cmds cmds' : List Command) (Γ : Context) :
    performAll (cmds ++ cmds') Γ = (performAll cmds Γ).bind (performAll cmds') := by
  induction cmds generalizing Γ with
  | nil => rfl
  | cons cmd cmds ih =>
    simp only [List.cons_append, performAll]
    cases cmd.perform Γ with
    | none => rfl
    | some Γ' => exact ih Γ'

/-- A text consists of its commands and of no others. -/
theorem Consists.unique {cmds' : List Command} (h : Consists c cmds)
    (h' : Consists c cmds') : cmds = cmds' := by
  obtain ⟨_, hcmds⟩ := (exists_commandsWithin_iff (Nat.le_refl _)).mpr h
  obtain ⟨_, hcmds'⟩ := (exists_commandsWithin_iff (Nat.le_refl _)).mpr h'
  exact (Prod.mk.inj (Option.some.inj (hcmds.symm.trans hcmds'))).1

/-- A text is accepted if it consists of commands that can be performed. -/
theorem read_eq_ok_iff {text : String} {p : Problem} :
    Problem.read text = .ok p ↔
      ∃ cmds Γ, Consists (.start text) cmds ∧ performAll cmds {} = some Γ ∧ Γ.problem = p := by
  rw [read_eq_ok]
  refine exists_congr fun cmds => ?_
  rw [← exists_commandsWithin_iff (c := .start text) (Nat.le_refl _)]
  simp only [Cursor.start]
  constructor
  · rintro ⟨c, Γ, hcmds, hΓ⟩
    exact ⟨Γ, ⟨c, hcmds⟩, hΓ⟩
  · rintro ⟨Γ, ⟨c, hcmds⟩, hΓ⟩
    exact ⟨c, Γ, hcmds, hΓ⟩

end Scripts

end HornSaturation.Reader
