import HornSaturation.Proofs.Reader.Extent
import Mathlib

/-!
# Skipped commands

A command without meaning ends where its parentheses balance, whatever they stand in. So a problem
does not change when such a command is put between two others, as long as its parentheses balance
with those counted that stand in quoted symbols, in strings and in comments.
-/

namespace HornSaturation.Reader

section Places

/-- Blanks and comments that end with their lines. -/
inductive Layout : List Char → Prop
  | nil : Layout []
  | blank {c : Char} {u : List Char} (hc : Text.isBlank c = true) (h : Layout u) : Layout (c :: u)
  | comment {line u : List Char} (hline : '\n' ∉ line) (h : Layout u) :
      Layout (';' :: (line ++ '\n' :: u))

/-- An open comment goes to the end of its line. -/
theorem skipBlanksFrom_comment {line : List Char} (hline : '\n' ∉ line) (o : Nat) (r : List Char) :
    skipBlanksFrom o true (line ++ '\n' :: r) =
      skipBlanksFrom (o + byteLength (line ++ ['\n'])) false r := by
  induction line generalizing o with
  | nil => simp [skipBlanksFrom]
  | cons c line ih =>
    obtain ⟨hc, hline⟩ := not_or.mp (List.mem_cons.not.mp hline)
    have hopen : (c != '\n') = true := by simpa using Ne.symm hc
    rw [List.cons_append, skipBlanksFrom, hopen, ih hline, List.cons_append, byteLength_cons,
      Nat.add_assoc]

theorem Layout.skipBlanksFrom_append {u : List Char} (h : Layout u) (o : Nat) (r : List Char) :
    skipBlanksFrom o false (u ++ r) = skipBlanksFrom (o + byteLength u) false r := by
  induction h generalizing o with
  | nil => rfl
  | blank hc _ ih =>
    rw [List.cons_append, skipBlanksFrom, if_pos hc, ih, byteLength_cons, Nat.add_assoc]
  | @comment line u hline _ ih =>
    have hblank : ¬ Text.isBlank ';' = true := by decide
    rw [List.cons_append, skipBlanksFrom, if_neg hblank, if_pos rfl, List.append_assoc,
      List.cons_append, skipBlanksFrom_comment hline, ih]
    simp only [byteLength_cons, byteLength_append, byteLength_nil]
    congr 1
    omega

/-- Reading a text comes to a place behind some of its commands. -/
inductive Comes : Cursor → List Command → Cursor → Prop
  | here (c : Cursor) : Comes c [] c
  | next {c c₁ c' : Cursor} {cmd : Command} {cmds : List Command}
      (hcmd : parseCommand c.skipBlanks = some (cmd, c₁)) (h : Comes c₁ cmds c') :
      Comes c (cmd :: cmds) c'

namespace Comes

variable {c c' : Cursor} {cmds all : List Command}

/-- Reading comes as far in front of another text. -/
theorem exists_append (h : Comes c cmds c') (hend : c'.rest ≠ []) : ∃ u, c.rest = u ++ c'.rest ∧
    ∀ r o, c'.rest.length ≤ r.length → Comes ⟨u ++ r, o⟩ cmds ⟨r, o + byteLength u⟩ := by
  induction h with
  | here c => exact ⟨[], rfl, fun r o _ => .here _⟩
  | @next c c₁ c' cmd cmds hcmd _ ih =>
    obtain ⟨u, hu, hcomes⟩ := ih hend
    have hdelimited := local_skipBlanks.bind_delimited fun _ => delimited_parseCommand
    have hrest : c₁.rest ≠ [] := by simp [hu, hend]
    obtain ⟨v, -, hv, hread⟩ :=
      hdelimited c cmd c₁ (parse_bind_eq_some.mpr ⟨(), _, scan_skipBlanks, hcmd⟩) hrest
    refine ⟨v ++ u, by rw [hv, hu, List.append_assoc], fun r o hlen => ?_⟩
    rw [List.append_assoc, byteLength_append, ← Nat.add_assoc]
    have hlen' : c₁.rest.length ≤ (u ++ r).length := by
      rw [hu, List.length_append, List.length_append]
      omega
    obtain ⟨_, c₂, hskip, hcmd'⟩ := parse_bind_eq_some.mp (hread (u ++ r) hlen' o)
    obtain ⟨-, rfl⟩ := Prod.mk.inj (Option.some.inj hskip)
    exact .next hcmd' (hcomes r _ hlen)

theorem consists (h : Comes c cmds c') {cmds' : List Command} (h' : Consists c' cmds') :
    Consists c (cmds ++ cmds') := by
  induction h with
  | here c => exact h'
  | next hcmd _ ih => exact .next hcmd (ih h')

/-- The commands of a text are those up to a place and those after it. -/
theorem exists_consists (h : Comes c cmds c') (hall : Consists c all) :
    ∃ cmds', all = cmds ++ cmds' ∧ Consists c' cmds' := by
  induction h generalizing all with
  | here c => exact ⟨all, rfl, hall⟩
  | next hcmd _ ih =>
    cases hall with
    | done hend =>
      have hlen := length_lt_of_parseCommand hcmd
      rw [hend] at hlen
      exact absurd hlen (Nat.not_lt_zero _)
    | next hcmd' hcmds =>
      obtain ⟨rfl, rfl⟩ := Prod.mk.inj (Option.some.inj (hcmd.symm.trans hcmd'))
      obtain ⟨cmds', rfl, h'⟩ := ih hcmds
      exact ⟨cmds', rfl, h'⟩

end Comes

/-- Commands are the same wherever their text stands. -/
theorem Consists.move {c c' : Cursor} {cmds : List Command} (h : Consists c cmds)
    (hrest : c'.rest = c.rest) : Consists c' cmds := by
  induction h generalizing c' with
  | done hend =>
    obtain ⟨c₂, hskip, hrest'⟩ := local_skipBlanks.move scan_skipBlanks hrest
    obtain ⟨-, rfl⟩ := Prod.mk.inj (Option.some.inj hskip)
    exact .done (hrest'.trans hend)
  | next hcmd _ ih =>
    have hlocal := local_skipBlanks.bind fun _ => local_parseCommand
    obtain ⟨c₂, h, hrest'⟩ :=
      hlocal.move (parse_bind_eq_some.mpr ⟨(), _, scan_skipBlanks, hcmd⟩) hrest
    obtain ⟨_, c₃, hskip, hcmd'⟩ := parse_bind_eq_some.mp h
    obtain ⟨-, rfl⟩ := Prod.mk.inj (Option.some.inj hskip)
    exact .next hcmd' (ih hrest')

theorem Consists.congr {c c' : Cursor} {cmds : List Command} (h : Consists c cmds)
    (hskip : c'.skipBlanks = c.skipBlanks) : Consists c' cmds := by
  cases h with
  | done hend => exact .done (hskip ▸ hend)
  | next hcmd hcmds => exact .next (hskip ▸ hcmd) hcmds

/-- A place in a text, with blanks or comments before it, that is not inside a command. -/
structure BetweenCommands (before after : List Char) : Prop where
  after_ne : after ≠ []
  exists_comes : ∃ u layout cmds o, before = u ++ layout ∧ Layout layout ∧
    Comes ⟨before ++ after, 0⟩ cmds ⟨layout ++ after, o⟩

end Places

section Groups

/-- Every group that is opened is closed again, and no other one; every parenthesis counts. -/
def Balanced (u : List Char) : Prop := u.foldlM depthAfter 0 = some 0

/-- A balanced text is passed over. -/
theorem skipGroupFrom_of_depth {u : List Char} {depth depth' : Nat}
    (h : u.foldlM depthAfter depth = some depth') (o : Nat) (r : List Char) :
    skipGroupFrom o depth (u ++ r) = skipGroupFrom (o + byteLength u) depth' r := by
  induction u generalizing o depth with
  | nil =>
    obtain rfl := Option.some.inj h
    rfl
  | cons c u ih =>
    rw [List.foldlM_cons] at h
    obtain ⟨depth₁, hc, h⟩ := Option.bind_eq_some_iff.mp h
    rw [List.cons_append, skipGroupFrom_cons, hc]
    dsimp only
    rw [ih h, byteLength_cons, Nat.add_assoc]

theorem Balanced.reads_skipGroup {u : List Char} (h : Balanced u) (r : List Char) :
    Reads (scan (move Cursor.skipGroup)) (u ++ [')']) () r := by
  intro o
  rw [scan_move, Cursor.skipGroup, List.append_assoc, skipGroupFrom_of_depth h,
    List.singleton_append, skipGroupFrom_cons]
  simp [depthAfter, byteLength_append, Nat.add_assoc]

/-- The names of the commands that are not skipped. -/
def commandNames : List String :=
  ["set-logic", "declare-rel", "declare-fun", "declare-var", "declare-const", "rule", "assert",
    "query"]

/-- A command that is skipped as a whole: its name is none of those with a meaning, and what comes
after the name is balanced. -/
inductive Skipped : List Char → Prop
  | intro (inner body : List Char) {name : String} {c : Cursor}
      (hname : scan readSymbol ⟨inner ++ [')'], 0⟩ = some (name, c)) (hother : name ∉ commandNames)
      (hbody : c.skipBlanks.rest = body ++ [')']) (hbalanced : Balanced body) :
      Skipped ('(' :: (inner ++ [')']))

/-- A skipped command is read without effect in front of any text. -/
theorem Skipped.reads {u : List Char} (h : Skipped u) (r : List Char) :
    Reads parseCommand u .idle r := by
  obtain @⟨inner, body, name, c, hname, hother, hbody, hbalanced⟩ := h
  obtain ⟨v, hv, hsymbol⟩ := local_readSymbol _ _ _ hname
  obtain ⟨w, hw, hblanks⟩ := local_skipBlanks c () c.skipBlanks rfl
  rw [hbody] at hw hblanks
  have hrest : c.rest ≠ [] := by simp [hw]
  have htext : '(' :: (inner ++ [')']) = ['('] ++ (v ++ (w ++ (body ++ [')']))) := by
    rw [show inner ++ [')'] = v ++ c.rest from hv, hw]
    rfl
  have hopen : Reads (scan skipBlanks) [] () ('(' :: (v ++ (w ++ (body ++ [')'])) ++ r)) := by
    intro o
    rfl
  have hsymbol : Reads (scan readSymbol) v name (w ++ (body ++ [')']) ++ r) := by
    rw [hw] at hsymbol hrest
    refine hsymbol _ (List.head?_append_of_ne_nil _ hrest) ?_
    rw [@List.length_append _ _ r]
    omega
  have hblanks : Reads (scan skipBlanks) w () (body ++ [')'] ++ r) := by
    refine hblanks _ (List.head?_append_of_ne_nil _ (by simp)) ?_
    rw [@List.length_append _ _ r]
    omega
  rw [htext]
  refine (reads_expect hopen).bind ?_
  unfold parseCommandBody
  rw [← bind_assoc, readSymbol, scan_skipBlanks_skipBlanks]
  refine Reads.bind hsymbol (hblanks.bind ?_)
  split
  case h_9 => exact (hbalanced.reads_skipGroup r).map
  all_goals exact absurd (by simp [commandNames]) hother

end Groups

theorem Skipped.skipBlanks_append {u : List Char} (h : Skipped u) (r : List Char) (o : Nat) :
    (Cursor.mk (u ++ r) o).skipBlanks = ⟨u ++ r, o⟩ := by
  cases h
  rfl

/-- A skipped command between two commands of an accepted text changes nothing. -/
theorem read_insert_skipped {text : String} {before after inserted : List Char} {p : Problem}
    (h : Problem.read text = .ok p) (htext : text.toList = before ++ after)
    (hplace : BetweenCommands before after) (hskipped : Skipped inserted) :
    Problem.read (String.ofList (before ++ inserted ++ after)) = .ok p := by
  obtain ⟨cmds, Γ, hcmds, hperform, rfl⟩ := read_eq_ok_iff.mp h
  obtain ⟨hafter, u, layout, cmds₁, o, rfl, hlayout, hcomes⟩ := hplace
  rw [Cursor.start, htext] at hcmds
  obtain ⟨cmds₂, rfl, hrest⟩ := hcomes.exists_consists hcmds
  obtain ⟨v, hv, hcomes'⟩ := hcomes.exists_append (by simp [hafter])
  obtain rfl : u = v := by
    have hsame : u ++ (layout ++ after) = v ++ (layout ++ after) := by
      rw [← hv, List.append_assoc]
    exact List.append_cancel_right hsame
  refine read_eq_ok_iff.mpr ⟨cmds₁ ++ .idle :: cmds₂, Γ, ?_, ?_, rfl⟩
  · have hpass (r : List Char) (o : Nat) :
        (Cursor.mk (layout ++ r) o).skipBlanks = (Cursor.mk r (o + byteLength layout)).skipBlanks :=
      hlayout.skipBlanksFrom_append o r
    have hlater := hcomes' (layout ++ (inserted ++ after)) 0 (by simp)
    rw [Cursor.start, String.toList_ofList, List.append_assoc, List.append_assoc]
    have hcmd (o : Nat) : parseCommand (Cursor.mk (inserted ++ after) o).skipBlanks =
        some (.idle, ⟨after, o + byteLength inserted⟩) := by
      rw [hskipped.skipBlanks_append]
      exact hskipped.reads after o
    refine hlater.consists (.congr (.next (hcmd _) ?_) (hpass _ _))
    exact Consists.move (hrest.congr (hpass after o).symm) rfl
  · rw [performAll_append] at hperform ⊢
    exact hperform

/-- Parentheses in a quoted symbol do no harm where they balance. -/
theorem read_insert_skipped_note :
    Problem.read (String.ofList ("(declare-rel P())\n".toList ++ "(set-info :n |(a)|)".toList ++
      "(rule P)".toList)) = .ok ⟨[⟨0, "P", []⟩], [⟨[], none, some ⟨0, []⟩⟩]⟩ := by
  have hread : Problem.read "(declare-rel P())\n(rule P)" =
      .ok ⟨[⟨0, "P", []⟩], [⟨[], none, some ⟨0, []⟩⟩]⟩ := by cbv
  have hdeclare : parseCommand ⟨"(declare-rel P())\n(rule P)".toList, 0⟩ =
      some (.relation "P" [], ⟨"\n(rule P)".toList, 17⟩) := by cbv
  have hplace : BetweenCommands "(declare-rel P())\n".toList "(rule P)".toList :=
    ⟨by decide, "(declare-rel P())".toList, "\n".toList, [.relation "P" []], 17, by rfl,
      .blank (by decide) .nil, .next hdeclare (.here _)⟩
  have hname : scan readSymbol ⟨"set-info :n |(a)|".toList ++ [')'], 0⟩ =
      some ("set-info", ⟨" :n |(a)|)".toList, 8⟩) := by cbv
  have hbalanced : Balanced ":n |(a)|".toList := by
    unfold Balanced
    decide
  exact read_insert_skipped hread (by rfl) hplace
    (.intro "set-info :n |(a)|".toList _ hname (by decide) (by rfl) hbalanced)

section Tokens

/-- What a character stands in: nothing, a quoted symbol, a string or a comment. -/
inductive Quoting where
  | none | bars | string | comment
  deriving DecidableEq

/-- What the next character stands in. -/
def Quoting.next : Quoting → Char → Quoting
  | .none, '|' => .bars
  | .none, '"' => .string
  | .none, ';' => .comment
  | .bars, '|' => .none
  | .string, '"' => .none
  | .comment, '\n' => .none
  | q, _ => q

/-- The number of open groups after one more character, where parentheses in quoted symbols, in
strings and in comments do not count. -/
def tokenDepthAfter (state : Quoting × Nat) (c : Char) : Option (Quoting × Nat) :=
  if state.1 = .none then (depthAfter state.2 c).map fun depth => (state.1.next c, depth)
  else some (state.1.next c, state.2)

/-- Every group that is opened is closed again, and so is every quotation. -/
def TokensBalanced (u : List Char) : Prop := u.foldlM tokenDepthAfter (.none, 0) = some (.none, 0)

/-- A parenthesis in a string counts where a command is skipped, so the rule after the command is
taken for a part of it. -/
theorem read_insert_string :
    BetweenCommands "(declare-rel P())\n".toList "(rule P)".toList ∧
      TokensBalanced "set-info :n \"(\"".toList ∧
      Problem.read (String.ofList ("(declare-rel P())\n".toList ++ "(rule P)".toList)) =
        .ok ⟨[⟨0, "P", []⟩], [⟨[], none, some ⟨0, []⟩⟩]⟩ ∧
      Problem.read (String.ofList ("(declare-rel P())\n".toList ++ "(set-info :n \"(\")".toList ++
        "(rule P)".toList)) = .ok ⟨[⟨0, "P", []⟩], []⟩ := by
  have hdeclare : parseCommand ⟨"(declare-rel P())\n(rule P)".toList, 0⟩ =
      some (.relation "P" [], ⟨"\n(rule P)".toList, 17⟩) := by cbv
  have hplace : BetweenCommands "(declare-rel P())\n".toList "(rule P)".toList :=
    ⟨by decide, "(declare-rel P())".toList, "\n".toList, [.relation "P" []], 17, by rfl,
      .blank (by decide) .nil, .next hdeclare (.here _)⟩
  have htokens : TokensBalanced "set-info :n \"(\"".toList := by
    unfold TokensBalanced
    decide
  exact ⟨hplace, htokens, by cbv, by cbv⟩

end Tokens

end HornSaturation.Reader
