import HornSaturation.Proofs.Reader.Extent
import HornSaturation.Proofs.Reader.Forms
import HornSaturation.Proofs.Term.ConnectiveFolding
import HornSaturation.Proofs.Vocabulary.Names
import HornSaturation.Term.Printer
import Mathlib

/-!
# Printed terms are read back

The text of a term spells a form that resolves to a term of the same value. It need not be the term
itself: a negative constant becomes a negation, an equivalence an equation, a difference of one term
its negation, and nested conjunctions and disjunctions are flattened.
-/

namespace HornSaturation

namespace Reader

section Characters

/-- The ranges, ends included, of the blanks beyond ASCII. -/
def blankRanges : List (Nat × Nat) :=
  [(0x85, 0x85), (0xA0, 0xA0), (0x1680, 0x1680), (0x2000, 0x200A), (0x2028, 0x2029),
    (0x202F, 0x202F), (0x205F, 0x205F), (0x3000, 0x3000)]

theorem disjoint_blankRanges : ∀ r ∈ Text.alphanumericRanges.toList, ∀ b ∈ blankRanges,
    b.2 < r.1 ∨ r.2 < b.1 := by decide +kernel

theorem exists_blankRange {c : Char} (h : Text.isBlank c = true) (hc : ¬ c.toNat < 0x80) :
    ∃ b ∈ blankRanges, b.1 ≤ c.toNat ∧ c.toNat ≤ b.2 := by
  simp only [Text.isBlank, Bool.or_eq_true, Bool.and_eq_true, decide_eq_true_eq, beq_iff_eq] at h
  simp only [blankRanges, List.mem_cons, List.not_mem_nil, or_false, exists_eq_or_imp,
    exists_eq_left]
  omega

theorem isAlphanum_iff {c : Char} : c.isAlphanum = true ↔
    65 ≤ c.toNat ∧ c.toNat ≤ 90 ∨ 97 ≤ c.toNat ∧ c.toNat ≤ 122 ∨ 48 ≤ c.toNat ∧ c.toNat ≤ 57 := by
  simp [Char.isAlphanum, Char.isAlpha, Char.isUpper, Char.isLower, Char.isDigit,
    UInt32.le_iff_toNat_le, or_assoc]

/-- No blank is a letter or a number. -/
theorem isBlank_of_isAlphanumeric {c : Char} (h : Text.isAlphanumeric c = true) :
    Text.isBlank c = false := by
  refine Bool.eq_false_iff.mpr fun hblank => ?_
  unfold Text.isAlphanumeric at h
  split at h
  · next hascii =>
    rw [isAlphanum_iff] at h
    simp only [Text.isBlank, Bool.or_eq_true, Bool.and_eq_true, decide_eq_true_eq, beq_iff_eq]
      at hblank
    omega
  · next hascii =>
    obtain ⟨b, hb, hlo, hhi⟩ := exists_blankRange hblank hascii
    rw [← Array.any_toList, List.any_eq_true] at h
    obtain ⟨r, hr, hrange⟩ := h
    simp only [Bool.and_eq_true, decide_eq_true_eq] at hrange
    have hdisjoint := disjoint_blankRanges r hr b hb
    omega

/-- No blank may stand in a symbol. -/
theorem isBlank_of_isSymbolChar {c : Char} (h : isSymbolChar c = true) :
    Text.isBlank c = false := by
  rcases Bool.or_eq_true_iff.mp h with h | h
  · exact isBlank_of_isAlphanumeric h
  · have hmarks : symbolMarks.all fun c => !Text.isBlank c := by decide
    simpa using List.all_eq_true.mp hmarks c (List.contains_iff_mem.mp h)

theorem ne_of_isSymbolChar {c d : Char} (h : isSymbolChar c = true) (hd : isSymbolChar d = false) :
    c ≠ d := fun e => by
  rw [e, hd] at h
  cases h

theorem isSymbolChar_of_isDigit {c : Char} (h : c.isDigit = true) : isSymbolChar c = true := by
  have halpha : c.isAlphanum = true := by rw [Char.isAlphanum, h, Bool.or_true]
  have hascii : c.toNat < 0x80 := by
    have := isAlphanum_iff.mp halpha
    omega
  rw [isSymbolChar, Text.isAlphanumeric, if_pos hascii, halpha, Bool.true_or]

end Characters

section Tokens

variable {u r : List Char}

/-- A text that does not start with a blank or a comment. -/
def Solid (r : List Char) : Prop := ∀ c ∈ r.head?, Text.isBlank c = false ∧ c ≠ ';'

theorem Solid.of_symbol (hne : u ≠ []) (hu : ∀ c ∈ u, isSymbolChar c = true) : Solid (u ++ r) := by
  intro c hc
  rw [List.head?_append_of_ne_nil _ hne] at hc
  have hsymbol := hu c (List.mem_of_head? hc)
  exact ⟨isBlank_of_isSymbolChar hsymbol, ne_of_isSymbolChar hsymbol (by decide)⟩

theorem Solid.skipBlanks_eq (h : Solid r) (o : Nat) : (Cursor.mk r o).skipBlanks = ⟨r, o⟩ := by
  cases r with
  | nil => rfl
  | cons c r =>
    obtain ⟨hblank, hcomment⟩ := h c rfl
    rw [Cursor.skipBlanks, skipBlanksFrom, if_neg (by simp [hblank]), if_neg hcomment]

theorem Solid.reads (h : Solid r) : Reads (scan skipBlanks) [] () r := fun o =>
  congrArg (fun c => some ((), c)) (h.skipBlanks_eq o)

theorem Solid.reads_space (h : Solid r) : Reads (scan skipBlanks) [' '] () r := fun o =>
  congrArg (fun c => some ((), c)) (h.skipBlanks_eq (o + 1))

theorem reads_peek? : Reads (scan peek?) [] r.head? r := fun _ => rfl

theorem reads_readSymbol (hne : u ≠ []) (hu : ∀ c ∈ u, isSymbolChar c = true)
    (hr : ∀ c ∈ r.head?, isSymbolChar c = false) :
    Reads (scan readSymbol) u (String.ofList u) r := by
  have hbar : ¬ (u ++ r).head? = some '|' := fun h => by
    rw [List.head?_append_of_ne_nil _ hne] at h
    exact ne_of_isSymbolChar (hu _ (List.mem_of_head? h)) (by decide) rfl
  rw [readSymbol, scans_skipBlanks.scan_bind]
  refine Reads.bind_nil (Solid.of_symbol hne hu).reads ?_
  rw [scans_peek?.scan_bind]
  refine Reads.bind_nil reads_peek? ?_
  rw [if_neg hbar, (scans_readRun _).scan_bind]
  have hempty : u.isEmpty = false := by simpa using hne
  intro o
  refine parse_bind_eq_some.mpr ⟨u, _, reads_readRun hu hr o, ?_⟩
  rw [hempty]
  rfl

theorem reads_readNumeral {n : Nat} (hu : ∀ c ∈ u, c.isDigit = true)
    (hr : ∀ c ∈ r.head?, isSymbolChar c = false)
    (hvalue : (Text.decimal? u).filter (· ≤ int64Max) = some n) :
    Reads (scan readNumeral) u (n : Int) r := by
  have hdigit : ∀ c ∈ r.head?, c.isDigit = false := fun c hc => Bool.eq_false_iff.mpr fun h => by
    have := hr c hc
    rw [isSymbolChar_of_isDigit h] at this
    cases this
  rw [readNumeral, (scans_readRun _).scan_bind]
  intro o
  refine parse_bind_eq_some.mpr ⟨u, _, reads_readRun hu hdigit o, ?_⟩
  rw [hvalue]
  rfl

end Tokens

section Forms

variable {α β : Type} {n : Nat} {u v r : List Char} {name : String}

/-- A numeral is parsed as a number. -/
theorem reads_numeral {k : Nat} (hk : (k : Int) ≤ int64Max)
    (hr : ∀ c ∈ r.head?, isSymbolChar c = false) :
    Reads (formWithin (n + 1)) (toString k).toList (.numeral k) r := by
  have hne : (toString k).toList ≠ [] := by rw [toList_toString]; exact Nat.toDigits_ne_nil
  have hdigits : ∀ c ∈ (toString k).toList, c.isDigit = true := fun c hc => by
    rw [toList_toString] at hc
    exact Nat.isDigit_of_mem_toDigits (by decide) (by decide) hc
  have hsymbols : ∀ c ∈ (toString k).toList, isSymbolChar c = true := fun c hc =>
    isSymbolChar_of_isDigit (hdigits c hc)
  have hvalue : (Text.decimal? (toString k).toList).filter (· ≤ int64Max) = some k := by
    rw [decimal?_toString]
    simpa using hk
  rw [formWithin]
  refine Reads.bind_nil (Solid.of_symbol hne hsymbols).reads ?_
  refine Reads.bind_nil reads_peek? ?_
  have hread := (reads_readNumeral hdigits hr hvalue).map (f := Form.numeral)
  generalize (toString k).toList = u at hne hdigits hsymbols hread ⊢
  obtain ⟨c, u, rfl⟩ := List.exists_cons_of_ne_nil hne
  have hparen : c ≠ '(' := ne_of_isSymbolChar (hsymbols c (by simp)) (by decide)
  simp only [List.cons_append, List.head?_cons]
  rw [if_pos (hdigits c (by simp))]
  exact hread

/-- A plain symbol in front of no arguments. -/
theorem reads_name (hne : u ≠ []) (hu : ∀ c ∈ u, isSymbolChar c = true)
    (hdigit : ∀ c ∈ u.head?, c.isDigit = false) (hr : ∀ c ∈ r.head?, isSymbolChar c = false) :
    Reads (formWithin (n + 1)) u (.name (String.ofList u)) r := by
  rw [formWithin]
  refine Reads.bind_nil (Solid.of_symbol hne hu).reads ?_
  refine Reads.bind_nil reads_peek? ?_
  obtain ⟨c, u, rfl⟩ := List.exists_cons_of_ne_nil hne
  have hparen : c ≠ '(' := ne_of_isSymbolChar (hu c (by simp)) (by decide)
  have hc : ¬ c.isDigit = true := by simp [hdigit c rfl]
  simp only [List.cons_append, List.head?_cons]
  rw [if_neg hc]
  exact (reads_readSymbol hne hu hr).map

/-- A parser that skips blanks and comments first. -/
def SkipsBlanks (φ : Parse α) : Prop := ∀ c, φ c.skipBlanks = φ c

theorem SkipsBlanks.bind {φ : Parse α} {ψ : α → Parse β} (h : SkipsBlanks φ) :
    SkipsBlanks (φ >>= ψ) := fun c => by
  change (φ c.skipBlanks).bind _ = (φ c).bind _
  rw [h]

theorem SkipsBlanks.reads {φ : Parse α} {a : α} (h : SkipsBlanks φ) (hφ : Reads φ u a r) :
    Reads (scan skipBlanks >>= fun _ => φ) u a r := fun o => by
  rw [scan_skipBlanks_bind, h]
  exact hφ o

theorem skipsBlanks_argsWithin : SkipsBlanks (argsWithin (n + 1)) := fun c => by
  rw [argsWithin, scan_skipBlanks_bind, scan_skipBlanks_bind, skipBlanks_skipBlanks]

/-- A name in front of arguments is parsed as an application, unless it is a binder. -/
theorem reads_apply {args : List Form} (hne : u ≠ []) (hu : ∀ c ∈ u, isSymbolChar c = true)
    (hname : String.ofList u ∉ ["let", "forall", "exists"])
    (hv : ∀ c ∈ (v ++ [')']).head?, isSymbolChar c = false)
    (hargs : Reads (argsWithin (n + 1)) v args (')' :: r)) :
    Reads (formWithin (n + 2)) ('(' :: (u ++ (v ++ [')']))) (.apply (String.ofList u) args) r := by
  have hopen : Solid ('(' :: (u ++ (v ++ [')'])) ++ r) := by
    intro c hc
    obtain rfl := Option.some.inj hc
    decide
  have hclose : Solid (')' :: r) := by
    intro c hc
    obtain rfl := Option.some.inj hc
    decide
  have hafter : ∀ c ∈ (v ++ [')'] ++ r).head?, isSymbolChar c = false := by
    rw [List.head?_append_of_ne_nil _ (by simp)]
    exact hv
  rw [formWithin]
  refine Reads.bind_nil hopen.reads (Reads.bind_nil reads_peek? ?_)
  simp only [List.cons_append, List.head?_cons]
  refine Reads.bind (u := ['(']) (reads_expect (u := []) hopen.reads) ?_
  refine Reads.bind (reads_readSymbol hne hu hafter) ?_
  simp only [List.mem_cons, List.not_mem_nil, or_false, not_or] at hname
  have hrest : Reads (do
      let args ← argsWithin (n + 1)
      scan (expect ')')
      return Form.apply (String.ofList u) args) (v ++ [')']) (.apply (String.ofList u) args) r :=
    Reads.bind hargs (reads_expect (u := []) hclose.reads).map
  split
  · next h => exact absurd h hname.1
  · next h => exact absurd h hname.2.1
  · next h => exact absurd h hname.2.2
  · exact skipsBlanks_argsWithin.bind.reads hrest

end Forms

end Reader

/-- Whether an operator is read with a number of arguments. -/
def Op.accepts : Op → Nat → Bool
  | .and, _ | .or, _ => true
  | .add, n | .sub, n | .mul, n => 0 < n
  | .not, n | .neg, n => n = 1
  | .ite, n => n = 3
  | _, n => n = 2

/-- A name that is read as a variable where it stands without bars. -/
structure PlainVariable (p : Problem) (x : String) : Prop where
  ne_empty : x ≠ ""
  symbol : ∀ c ∈ x.toList, Reader.isSymbolChar c = true
  head : ∀ c ∈ x.toList.head?, c.isDigit = false
  not_true : x ≠ "true"
  not_false : x ≠ "false"
  relation : ∀ r ∈ p.named? x, r.sorts ≠ []

/-- Terms whose text can be read: without relation applications, with numbers of arguments that are
read, with constants in the range of their absolute values, and with declared variables. -/
inductive Term.Readable (p : Problem) (σ : Reader.Scope) : Term → Prop
  | bool (b : Bool) : Readable p σ (.bool b)
  | int {n : Int} (hmin : int64Min < n) (hmax : n ≤ int64Max) : Readable p σ (.int n)
  | var {v : Var} (hname : PlainVariable p v.name) (hsort : σ v.name = some v.sort) :
      Readable p σ (.var v)
  | op {o : Op} {args : List Term} (hcount : o.accepts args.length = true)
      (hargs : ∀ t ∈ args, Readable p σ t) : Readable p σ (.op o args)

namespace Reader

open Term (Readable render renderArgs renderInt)

mutual
/-- The form that the text of a term spells. -/
def spelled : Term → Form
  | .bool b => .name (if b then "true" else "false")
  | .int n => if n < 0 then .apply "-" [.numeral n.natAbs] else .numeral n
  | .var v => .name v.name
  | .op o args => .apply o.render (spelledList args)
  | .app name _ args => .apply name (spelledList args)
/-- The forms that the texts of arguments spell. -/
def spelledList : List Term → List Form
  | [] => []
  | t :: ts => spelled t :: spelledList ts
end

variable {p : Problem} {σ : Scope} {t : Term} {r : List Char}

section Parsing

/-- Spellings of operators are plain symbols and no binders. -/
theorem render_symbol (o : Op) : o.render.toList ≠ [] ∧
    (∀ c ∈ o.render.toList, isSymbolChar c = true) ∧ o.render ∉ ["let", "forall", "exists"] := by
  have hsymbols : o.render.toList.all isSymbolChar := by cases o <;> decide
  exact ⟨by cases o <;> decide, List.all_eq_true.mp hsymbols, by cases o <;> decide⟩

theorem renderInt_ofNat (k : Nat) : renderInt k = toString k := by
  rw [renderInt, if_neg (by omega)]
  rfl

/-- A negative constant is written like the negation of its absolute value. -/
theorem render_neg {n : Int} (h : n < 0) :
    render (.int n) = render (.op .neg [.int n.natAbs]) ∧
      spelled (.int n) = spelled (.op .neg [.int n.natAbs]) := by
  have habs : ¬ (n.natAbs : Int) < 0 := by omega
  constructor
  · rw [render, render, renderInt, if_pos h, renderArgs, renderArgs, render, renderInt_ofNat,
      String.append_empty]
    rfl
  · simp only [spelled, spelledList, if_pos h, if_neg habs]
    rfl

theorem toList_renderArgs_cons (t : Term) (ts : List Term) :
    (renderArgs (t :: ts)).toList = ' ' :: (t.render.toList ++ (renderArgs ts).toList) := by
  rw [renderArgs]
  simp [String.toList_append]

theorem toList_render_op (o : Op) (args : List Term) : (render (.op o args)).toList =
    '(' :: (o.render.toList ++ ((renderArgs args).toList ++ [')'])) := by
  rw [render]
  simp [String.toList_append]

/-- The text of a term starts with a parenthesis or a symbol. -/
theorem head_render (h : t.Readable p σ) :
    ∃ c u, t.render.toList = c :: u ∧ (c = '(' ∨ isSymbolChar c = true) := by
  cases h with
  | bool b =>
    cases b with
    | true => exact ⟨'t', "rue".toList, by rw [render]; rfl, .inr (by decide)⟩
    | false => exact ⟨'f', "alse".toList, by rw [render]; rfl, .inr (by decide)⟩
  | @int n hmin hmax =>
    rw [render]
    rcases Int.lt_or_le n 0 with hn | hn
    · exact ⟨_, _, by rw [← render, (render_neg hn).1]; exact toList_render_op _ _, .inl rfl⟩
    · obtain ⟨k, rfl⟩ := Int.eq_ofNat_of_zero_le hn
      have hne : (toString k).toList ≠ [] := by rw [toList_toString]; exact Nat.toDigits_ne_nil
      obtain ⟨c, u, hu⟩ := List.exists_cons_of_ne_nil hne
      refine ⟨c, u, by rw [← hu, ← renderInt_ofNat], .inr (isSymbolChar_of_isDigit ?_)⟩
      rw [toList_toString] at hu
      exact Nat.isDigit_of_mem_toDigits (by decide) (by decide) (hu ▸ List.mem_cons_self)
  | @var v hname hsort =>
    have hne : v.name.toList ≠ [] := by simpa using hname.ne_empty
    obtain ⟨c, u, hu⟩ := List.exists_cons_of_ne_nil hne
    exact ⟨c, u, by rw [render, hu], .inr (hname.symbol c (hu ▸ List.mem_cons_self))⟩
  | op hcount hargs => exact ⟨_, _, toList_render_op _ _, .inl rfl⟩

/-- What follows an argument is no part of it. -/
theorem head_renderArgs (ts : List Term) :
    ∀ c ∈ ((renderArgs ts).toList ++ ')' :: r).head?, isSymbolChar c = false := by
  cases ts with
  | nil =>
    rw [renderArgs]
    intro c hc
    obtain rfl := Option.some.inj hc
    decide
  | cons t ts =>
    rw [toList_renderArgs_cons]
    intro c hc
    obtain rfl := Option.some.inj hc
    decide

/-- By induction on the arguments: each takes at least the blank before it. -/
theorem reads_spelledList {args : List Term} (hreadable : ∀ t ∈ args, t.Readable p σ)
    (hargs : ∀ t ∈ args, ∀ r n, (∀ c ∈ r.head?, isSymbolChar c = false) →
      (t.render.toList ++ r).length < n → Reads (formWithin n) t.render.toList (spelled t) r)
    {n : Nat} (hn : ((renderArgs args).toList ++ ')' :: r).length < n) :
    Reads (argsWithin n) (renderArgs args).toList (spelledList args) (')' :: r) := by
  induction args generalizing n with
  | nil =>
    obtain ⟨n, rfl⟩ := Nat.exists_eq_succ_of_ne_zero (Nat.ne_zero_of_lt hn)
    have hclose : Solid (')' :: r) := by
      intro c hc
      obtain rfl := Option.some.inj hc
      decide
    rw [argsWithin, renderArgs]
    exact Reads.bind_nil hclose.reads (Reads.bind_nil reads_peek? Reads.pure)
  | cons t ts ih =>
    obtain ⟨n, rfl⟩ := Nat.exists_eq_succ_of_ne_zero (Nat.ne_zero_of_lt hn)
    obtain ⟨ht, hts⟩ := List.forall_mem_cons.mp hreadable
    obtain ⟨hread, hreads⟩ := List.forall_mem_cons.mp hargs
    obtain ⟨c, u, hu, hc⟩ := head_render ht
    rw [toList_renderArgs_cons] at hn ⊢
    simp only [List.cons_append, List.length_cons, List.append_assoc, List.length_append] at hn
    have hlen : t.render.toList.length = u.length + 1 := by rw [hu, List.length_cons]
    have hsolid : Solid (t.render.toList ++ (renderArgs ts).toList ++ ')' :: r) := by
      rw [hu]
      intro d hd
      obtain rfl := Option.some.inj hd
      rcases hc with rfl | hc
      · decide
      · exact ⟨isBlank_of_isSymbolChar hc, ne_of_isSymbolChar hc (by decide)⟩
    have hnext : ¬ (t.render.toList ++ (renderArgs ts).toList ++ ')' :: r).head? = some ')' := by
      rw [hu]
      intro hd
      obtain rfl := Option.some.inj hd
      rcases hc with hc | hc
      · cases hc
      · exact ne_of_isSymbolChar hc (by decide) rfl
    change Reads _ ([' '] ++ (t.render.toList ++ (renderArgs ts).toList)) _ _
    rw [argsWithin]
    refine Reads.bind hsolid.reads_space (Reads.bind_nil reads_peek? ?_)
    rw [if_neg hnext]
    refine Reads.bind (hread _ n (head_renderArgs ts) ?_) (Reads.map (ih hts hreads ?_))
    all_goals
      simp only [List.length_append, List.length_cons]
      omega

/-- The text of an operation is parsed if those of its arguments are. -/
theorem reads_operation {o : Op} {args : List Term} (hreadable : ∀ t ∈ args, t.Readable p σ)
    (hargs : ∀ t ∈ args, ∀ r n, (∀ c ∈ r.head?, isSymbolChar c = false) →
      (t.render.toList ++ r).length < n → Reads (formWithin n) t.render.toList (spelled t) r)
    {n : Nat} (hn : ((render (.op o args)).toList ++ r).length < n) :
    Reads (formWithin n) (render (.op o args)).toList (spelled (.op o args)) r := by
  obtain ⟨hne, hsymbol, hbinder⟩ := render_symbol o
  have hpos := List.length_pos_iff.mpr hne
  rw [toList_render_op] at hn ⊢
  simp only [List.cons_append, List.length_cons, List.append_assoc, List.length_append,
    List.length_nil] at hn
  obtain ⟨n, rfl⟩ : ∃ m, n = m + 2 := ⟨n - 2, by omega⟩
  have hread := reads_apply (r := r) hne hsymbol (by rwa [String.ofList_toList])
    (head_renderArgs args) (reads_spelledList (n := n + 1) hreadable hargs ?_)
  · rwa [String.ofList_toList] at hread
  · simp only [List.length_append, List.length_cons]
    omega

/-- The text of a term is parsed as the form that it spells, up to a character that may not stand in
a symbol. -/
theorem reads_spelled (h : t.Readable p σ) : ∀ r n, (∀ c ∈ r.head?, isSymbolChar c = false) →
    (t.render.toList ++ r).length < n → Reads (formWithin n) t.render.toList (spelled t) r := by
  have hnat {k r n} (hmax : (k : Nat) ≤ int64Max) (hr : ∀ c ∈ r.head?, isSymbolChar c = false)
      (hn : ((render (.int k)).toList ++ r).length < n) :
      Reads (formWithin n) (render (.int k)).toList (spelled (.int k)) r := by
    obtain ⟨n, rfl⟩ := Nat.exists_eq_succ_of_ne_zero (Nat.ne_zero_of_lt hn)
    rw [render, spelled, if_neg (by omega), renderInt_ofNat]
    exact reads_numeral hmax hr
  induction h with
  | bool b =>
    intro r n hr hn
    obtain ⟨n, rfl⟩ := Nat.exists_eq_succ_of_ne_zero (Nat.ne_zero_of_lt hn)
    cases b with
    | true =>
      rw [render, spelled]
      exact reads_name (u := "true".toList) (by decide) (List.all_eq_true.mp (by decide))
        (by rintro _ ⟨⟩; decide) hr
    | false =>
      rw [render, spelled]
      exact reads_name (u := "false".toList) (by decide) (List.all_eq_true.mp (by decide))
        (by rintro _ ⟨⟩; decide) hr
  | @int k hmin hmax =>
    intro r n hr hn
    rcases Int.lt_or_le k 0 with hk | hk
    · have habs : (k.natAbs : Int) ≤ int64Max := by
        unfold int64Min int64Max at *
        omega
      have hreadable : ∀ t ∈ [Term.int k.natAbs], t.Readable p σ :=
        List.forall_mem_singleton.mpr (.int (by unfold int64Min; omega) habs)
      rw [(render_neg hk).1] at hn ⊢
      rw [(render_neg hk).2]
      exact reads_operation hreadable (List.forall_mem_singleton.mpr fun r n => hnat habs) hn
    · obtain ⟨m, rfl⟩ := Int.eq_ofNat_of_zero_le hk
      exact hnat hmax hr hn
  | @var v hname hsort =>
    intro r n hr hn
    obtain ⟨n, rfl⟩ := Nat.exists_eq_succ_of_ne_zero (Nat.ne_zero_of_lt hn)
    have hread := reads_name (n := n) (u := v.name.toList) (by simpa using hname.ne_empty)
      hname.symbol hname.head hr
    rw [String.ofList_toList] at hread
    rw [render, spelled]
    exact hread
  | op hcount hargs ih =>
    intro r n hr hn
    exact reads_operation hargs ih hn

end Parsing

section Resolving

variable {args ts : List Term}

/-- An operator that is read by its spelling has the value that it had, where that is defined. -/
theorem applyName_render {o : Op} (h : o.accepts ts.length = true) :
    ∃ t, applyName p o.render ts = .ok t ∧ ∀ env : Var → Option Value,
      Kept (o.value checkedArithmetic (ts.map (Term.evalWith checkedArithmetic env)))
        (t.evalWith checkedArithmetic env) := by
  have hsame (o' : Op) (happly : applyName p o.render ts = .ok (.op o' ts))
      (hvalue : ∀ xs, xs.length = ts.length →
        o.value checkedArithmetic xs = o'.value checkedArithmetic xs) :
      ∃ t, applyName p o.render ts = .ok t ∧ ∀ env : Var → Option Value,
        Kept (o.value checkedArithmetic (ts.map (Term.evalWith checkedArithmetic env)))
          (t.evalWith checkedArithmetic env) := by
    refine ⟨_, happly, fun env => ?_⟩
    rw [Term.evalWith_op, hvalue _ (by simp)]
    exact .refl _
  cases o with
  | and =>
    refine ⟨.conjoin ts, rfl, fun env => ?_⟩
    rw [Op.value, allTrue_eq_verdict]
    exact Term.kept_conjoin
  | or =>
    refine ⟨.disjoin ts, rfl, fun env => ?_⟩
    rw [Op.value, anyTrue_eq_verdict]
    exact Term.kept_disjoin
  | sub =>
    -- A difference of one term is read as its negation.
    by_cases hone : ts.length = 1
    · refine hsame .neg (by simp [applyName, Op.render, operator?, arity?, hone]) fun xs hxs => ?_
      obtain ⟨x, rfl⟩ := List.length_eq_one_iff.mp (hxs.trans hone)
      rcases x with _ | a | n <;> rfl
    · have hne : ts ≠ [] := List.length_pos_iff.mp (by simpa [Op.accepts] using h)
      refine hsame .sub ?_ fun _ _ => rfl
      simp [applyName, Op.render, operator?, arity?, hone, hne]
  | add | mul =>
    have hne : ts ≠ [] := List.length_pos_iff.mp (by simpa [Op.accepts] using h)
    refine hsame _ ?_ fun _ _ => rfl
    simp [applyName, Op.render, operator?, arity?, hne]
  | not | neg =>
    have hlen : ts.length = 1 := by simpa [Op.accepts] using h
    refine hsame _ ?_ fun _ _ => rfl
    simp [applyName, Op.render, operator?, arity?, hlen]
  | ite =>
    have hlen : ts.length = 3 := by simpa [Op.accepts] using h
    refine hsame _ ?_ fun _ _ => rfl
    simp [applyName, Op.render, operator?, arity?, hlen]
  | implies | iff | eq | ne | lt | le | gt | ge | div | mod =>
    have hlen : ts.length = 2 := by simpa [Op.accepts] using h
    first
      | refine hsame .eq ?_ fun _ _ => rfl
      | refine hsame _ ?_ fun _ _ => rfl
    all_goals simp [applyName, Op.render, operator?, arity?, hlen]

theorem resolve_spelledList
    (hargs : ∀ t ∈ args, ∃ u, (spelled t).resolve p σ = some (u, σ) ∧
      ∀ env : Var → Option Value, Kept (t.evalWith checkedArithmetic env)
        (u.evalWith checkedArithmetic env)) :
    ∃ us, Form.resolveArgs p (spelledList args) σ = some (us, σ) ∧ us.length = args.length ∧
      ∀ env : Var → Option Value, KeptList (args.map (Term.evalWith checkedArithmetic env))
        (us.map (Term.evalWith checkedArithmetic env)) := by
  induction args with
  | nil => exact ⟨[], rfl, rfl, fun _ => .nil⟩
  | cons t ts ih =>
    obtain ⟨⟨u, hu, hkept⟩, hts⟩ := List.forall_mem_cons.mp hargs
    obtain ⟨us, hus, hlen, hkepts⟩ := ih hts
    refine ⟨u :: us, ?_, by simp [hlen], fun env => .cons (hkept env) (hkepts env)⟩
    rw [spelledList]
    exact Form.resolveArgs_cons.mpr ⟨u, σ, us, hu, hus, rfl⟩

/-- The form that the text of a term spells resolves to a term with the same value, where that is
defined. -/
theorem resolve_spelled (h : t.Readable p σ) :
    ∃ u, (spelled t).resolve p σ = some (u, σ) ∧ ∀ env : Var → Option Value,
      Kept (t.evalWith checkedArithmetic env) (u.evalWith checkedArithmetic env) := by
  induction h with
  | bool b => cases b <;> exact ⟨_, rfl, fun _ => .refl _⟩
  | @int k hmin hmax =>
    rcases Int.lt_or_le k 0 with hk | hk
    · have habs : -(k.natAbs : Int) = k := by omega
      have hnarrow : narrow k = some k := if_pos ⟨Int.le_of_lt hmin, hmax⟩
      rw [spelled, if_pos hk]
      refine ⟨.op .neg [.int k.natAbs], rfl, fun env => ?_⟩
      have hneg (m : Int) : Op.value checkedArithmetic .neg [some (.int m)] =
          (narrow (-m)).map .int := by
        cases h : narrow (-m) <;>
          simp [Op.value, allInts, Value.toInt?, checkedArithmetic, arithmetic, h]
      have hvalue : Op.value checkedArithmetic .neg [some (.int k.natAbs)] = some (.int k) := by
        rw [hneg, habs, hnarrow, Option.map_some]
      rw [Term.evalWith_op]
      exact hvalue ▸ .refl _
    · obtain ⟨m, rfl⟩ := Int.eq_ofNat_of_zero_le hk
      rw [spelled, if_neg (by omega)]
      exact ⟨_, rfl, fun _ => .refl _⟩
  | @var v hname hsort =>
    refine ⟨.var v, ?_, fun _ => .refl _⟩
    rw [spelled, Form.resolve, Form.nameTerm_eq_var hname.not_true hname.not_false hname.relation,
      hsort]
    rfl
  | @op o args hcount hargs ih =>
    obtain ⟨us, hus, hlen, hkepts⟩ := resolve_spelledList ih
    obtain ⟨u, hu, hkept⟩ := applyName_render (p := p) (o := o) (hlen ▸ hcount)
    rw [spelled]
    refine ⟨u, Form.resolve_apply.mpr ⟨us, hus, hu⟩, fun env => ?_⟩
    rw [Term.evalWith_op]
    exact (o.value_kept (fun _ _ => .refl _) (hkepts env)).trans (hkept env)

end Resolving

/-- The text of a term is read up to the next delimiter, as a term that has its value under every
assignment that gives it one. -/
theorem readTerm_render {s : Reading} {t : Term} {r : List Char}
    (ht : t.Readable s.problem fun x => s.sorts.lookup x)
    (hr : ∀ c ∈ r.head?, isSymbolChar c = false) (hrest : s.cursor.rest = t.render.toList ++ r) :
    ∃ u s', readTerm.run s = .ok (u, s') ∧
      s'.cursor = ⟨r, s.cursor.offset + byteLength t.render.toList⟩ ∧
      ∀ env x, t.eval env = some x → u.eval env = some x := by
  obtain ⟨u, hu, hkept⟩ := resolve_spelled ht
  have hparse : parseForm s.cursor =
      some (spelled t, ⟨r, s.cursor.offset + byteLength t.render.toList⟩) := by
    have hread := reads_spelled ht r (s.cursor.rest.length + 1) hr (by rw [hrest]; omega)
      s.cursor.offset
    rwa [← hrest] at hread
  have hout : outcome readTerm s = some (u, ⟨r, s.cursor.offset + byteLength t.render.toList⟩,
      s.context) := by
    rw [phased_readTerm, hparse]
    change (((spelled t).resolve s.problem fun x => s.sorts.lookup x).map _).map _ = _
    rw [hu]
    rfl
  obtain ⟨s', hrun, hcursor, -⟩ := outcome_eq_some.mp hout
  exact ⟨u, s', hrun, hcursor, fun env x hx => hkept _ x hx⟩

/-- A difference of one variable comes back as its negation, and a conjunction of one formula as that
formula. -/
theorem readTerm_render_difference :
    ∃ u s', readTerm.run { cursor := .start "(and (<= (- x) (- 5))))", sorts := [("x", .int)] } =
        .ok (u, s') ∧ s'.cursor = ⟨[')'], 22⟩ ∧
      ∀ env x, Term.eval env (.op .and [.op .le [.op .sub [.var ⟨"x", .int⟩], .int (-5)]]) =
        some x → u.eval env = some x := by
  have hx : PlainVariable {} "x" :=
    ⟨by decide, List.all_eq_true.mp (by decide), by rintro _ ⟨⟩; decide, by decide, by decide,
      fun r hr => by cases hr⟩
  have hdifference : Readable {} (fun x => [("x", BaseSort.int)].lookup x)
      (.op .sub [.var ⟨"x", .int⟩]) :=
    .op rfl (List.forall_mem_singleton.mpr (.var hx rfl))
  have hfive : Readable {} (fun x => [("x", BaseSort.int)].lookup x) (.int (-5)) :=
    .int (by decide) (by decide)
  have hle : Readable {} (fun x => [("x", BaseSort.int)].lookup x)
      (.op .le [.op .sub [.var ⟨"x", .int⟩], .int (-5)]) :=
    .op rfl (List.forall_mem_cons.mpr ⟨hdifference, List.forall_mem_singleton.mpr hfive⟩)
  have htext : render (.op .and [.op .le [.op .sub [.var ⟨"x", .int⟩], .int (-5)]]) =
      "(and (<= (- x) (- 5)))" := by cbv
  obtain ⟨u, s', hrun, hcursor, heval⟩ := readTerm_render (r := [')'])
    (s := { cursor := .start "(and (<= (- x) (- 5))))", sorts := [("x", .int)] })
    (.op rfl (List.forall_mem_singleton.mpr hle)) (by rintro _ ⟨⟩; decide) (by rw [htext]; rfl)
  rw [htext] at hcursor
  exact ⟨u, s', hrun, hcursor, heval⟩

end Reader

end HornSaturation
