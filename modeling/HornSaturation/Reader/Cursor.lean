import HornSaturation.Text.Alphanumeric
import HornSaturation.Text.Blank

/-!
# Reading characters

A cursor is the text that is still to be read together with the number of bytes read before it,
which is what error messages report. Blanks and comments are skipped together; a comment runs from a
semicolon to the end of its line. A skipped command ends where its parentheses balance, and there
every parenthesis counts, wherever it stands.
-/

namespace HornSaturation.Reader

/-- A place in the input. -/
structure Cursor where
  /-- The characters still to be read. -/
  rest : List Char
  /-- The number of UTF-8 bytes read so far. -/
  offset : Nat

/-- The number of bytes of the UTF-8 form of a text. -/
def byteLength (cs : List Char) : Nat := cs.foldl (fun n c => n + c.utf8Size) 0

namespace Cursor

/-- The start of a text. -/
def start (text : String) : Cursor := ⟨text.toList, 0⟩

/-- The next character. -/
def peek? (c : Cursor) : Option Char := c.rest.head?

/-- The place after the next character. -/
def advance (c : Cursor) : Cursor := ⟨c.rest.drop 1, c.offset + byteLength (c.rest.take 1)⟩

/-- Splits off the longest run of characters with a property. -/
def span (p : Char → Bool) (c : Cursor) : List Char × Cursor :=
  let run := c.rest.takeWhile p
  (run, ⟨c.rest.dropWhile p, c.offset + byteLength run⟩)

end Cursor

/-- The first place from which neither a blank nor a comment starts, where a comment may be open. -/
def skipBlanksFrom (offset : Nat) : (inComment : Bool) → List Char → Cursor
  | _, [] => ⟨[], offset⟩
  | true, c :: cs => skipBlanksFrom (offset + c.utf8Size) (c != '\n') cs
  | false, c :: cs =>
    if Text.isBlank c then skipBlanksFrom (offset + c.utf8Size) false cs
    else if c = ';' then skipBlanksFrom (offset + c.utf8Size) true cs
    else ⟨c :: cs, offset⟩

/-- The place after the parenthesis that closes the current group, with `depth` further groups open
inside it; the end of the text if there is none. -/
def skipGroupFrom (offset : Nat) : (depth : Nat) → List Char → Cursor
  | _, [] => ⟨[], offset⟩
  | depth, '(' :: cs => skipGroupFrom (offset + 1) (depth + 1) cs
  | 0, ')' :: cs => ⟨cs, offset + 1⟩
  | depth + 1, ')' :: cs => skipGroupFrom (offset + 1) depth cs
  | depth, c :: cs => skipGroupFrom (offset + c.utf8Size) depth cs

/-- The place after the blanks and comments that come next. -/
def Cursor.skipBlanks (c : Cursor) : Cursor := skipBlanksFrom c.offset false c.rest

/-- The place after the parenthesis that closes the current group. -/
def Cursor.skipGroup (c : Cursor) : Cursor := skipGroupFrom c.offset 0 c.rest

/-- The marks that may stand in a symbol beside letters and numbers. -/
def symbolMarks : List Char :=
  ['_', '-', '+', '*', '/', '.', '!', '@', '#', '$', '%', '^', '&', '<', '>', '=', '?', '~', '\'']

/-- Whether a character may stand in a symbol without bars. -/
def isSymbolChar (c : Char) : Bool := Text.isAlphanumeric c || symbolMarks.contains c

end HornSaturation.Reader
