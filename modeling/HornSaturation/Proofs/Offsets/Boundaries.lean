import HornSaturation.Proofs.Reader.Extent

/-!
# Boundaries between characters

A cursor that counts the bytes before it stands on a boundary between characters of its text, and
on each boundary there is a cursor. What is found there by the offset alone, the next character or
the text between two boundaries, is what the cursor holds as characters still to be read.
-/

namespace HornSaturation.Reader

variable {text : String} {c c' : Cursor}

/-- A cursor stands in a text: what it leaves to be read is the end of the text, and it counts the
bytes before that. -/
def Cursor.In (text : String) (c : Cursor) : Prop :=
  ∃ before, text = String.ofList (before ++ c.rest) ∧ c.offset = byteLength before

theorem utf8ByteSize_ofList (cs : List Char) :
    (String.ofList cs).utf8ByteSize = byteLength cs := by
  induction cs with
  | nil => rfl
  | cons c cs ih =>
    rw [← List.singleton_append, String.ofList_append, String.utf8ByteSize_append, ih,
      ← String.singleton_eq_ofList, String.utf8ByteSize_singleton, List.singleton_append,
      byteLength_cons]

theorem length_le_byteLength (cs : List Char) : cs.length ≤ byteLength cs := by
  induction cs with
  | nil => rfl
  | cons c cs ih =>
    have hc := c.utf8Size_pos
    rw [List.length_cons, byteLength_cons]
    omega

section Positions

variable {before run rest : List Char}

theorem isValid_byteLength (h : text = String.ofList (before ++ rest)) :
    (⟨byteLength before⟩ : String.Pos.Raw).IsValid text := by
  apply String.Pos.Raw.isValid_iff_exists_append.mpr
  refine ⟨String.ofList before, String.ofList rest, ?_, ?_⟩
  · rw [h, String.ofList_append]
  · rw [← utf8ByteSize_ofList]
    rfl

/-- The position between two parts of a text is found by its offset. -/
theorem exists_pos (h : text = String.ofList (before ++ rest)) :
    ∃ p, text.pos? ⟨byteLength before⟩ = some p ∧
      p.Splits (String.ofList before) (String.ofList rest) := by
  have hvalid := isValid_byteLength h
  have hslice : (⟨byteLength before⟩ : String.Pos.Raw).isValidForSlice text.toSlice = true :=
    String.Pos.Raw.isValidForSlice_eq_true_iff.mpr hvalid.toSlice
  refine ⟨text.pos _ hvalid, ?_, ?_, ?_⟩
  · rw [String.pos?, String.Slice.pos?, dif_pos hslice]
    rfl
  · rw [h, String.ofList_append]
  · change (⟨byteLength before⟩ : String.Pos.Raw) = _
    rw [← utf8ByteSize_ofList]
    rfl

theorem get?_eq_head? {p : text.Pos} (h : p.Splits (String.ofList before) (String.ofList rest)) :
    p.get? = rest.head? := by
  cases rest with
  | nil =>
    have hend : p = text.endPos := h.eq_endPos_iff.mpr rfl
    rw [String.Pos.get?_eq_none hend]
    rfl
  | cons c cs =>
    have hsplit : p.Splits (String.ofList before) (String.singleton c ++ String.ofList cs) := by
      rw [String.singleton_eq_ofList, ← String.ofList_append]
      exact h
    have hend : p ≠ text.endPos := hsplit.ne_endPos_of_singleton
    rw [String.Pos.get?_eq_some_get hend, hsplit.next.get_eq_of_singleton]
    rfl

/-- What stands between two positions is cut out of the text. -/
theorem extract_eq {p q : text.Pos}
    (hp : p.Splits (String.ofList before) (String.ofList (run ++ rest)))
    (hq : q.Splits (String.ofList (before ++ run)) (String.ofList rest)) :
    p ≤ q ∧ String.extract p q = String.ofList run := by
  have hpq : ∃ h, (text.slice p q h).copy = String.ofList run := by
    apply String.copy_slice_eq_iff_splits.mpr
    refine ⟨String.ofList before, String.ofList rest, ?_, ?_⟩
    · rwa [← String.ofList_append]
    · rwa [← String.ofList_append]
  obtain ⟨hle, hslice⟩ := hpq
  refine ⟨hle, ?_⟩
  rw [← hslice]
  apply String.toByteArray_inj.mp
  rw [String.toByteArray_extract, String.toByteArray_copy_slice]

end Positions

namespace Cursor.In

theorem start (text : String) : (Cursor.start text).In text := by
  refine ⟨[], ?_, rfl⟩
  rw [List.nil_append, Cursor.start, String.ofList_toList]

theorem isValid (h : c.In text) : (⟨c.offset⟩ : String.Pos.Raw).IsValid text := by
  obtain ⟨before, htext, hoffset⟩ := h
  rw [hoffset]
  exact isValid_byteLength htext

/-- The bytes before a cursor and those after it make up the text. -/
theorem offset_add (h : c.In text) : c.offset + byteLength c.rest = text.utf8ByteSize := by
  obtain ⟨before, htext, hoffset⟩ := h
  rw [htext, utf8ByteSize_ofList, byteLength_append, hoffset]

/-- No more characters are left to be read than the text has bytes. -/
theorem length_le (h : c.In text) : c.rest.length ≤ text.utf8ByteSize := by
  have hsize := h.offset_add
  have hlength := length_le_byteLength c.rest
  omega

theorem exists_pos (h : c.In text) :
    ∃ p, text.pos? ⟨c.offset⟩ = some p ∧ p.get? = c.peek? := by
  obtain ⟨before, htext, hoffset⟩ := h
  obtain ⟨p, hp, hsplits⟩ := Reader.exists_pos htext
  rw [hoffset]
  exact ⟨p, hp, get?_eq_head? hsplits⟩

/-- A character is passed over. -/
theorem pass {ch : Char} {cs : List Char} (h : c.In text) (hrest : c.rest = ch :: cs) :
    Cursor.In text ⟨cs, c.offset + ch.utf8Size⟩ := by
  obtain ⟨before, htext, hoffset⟩ := h
  refine ⟨before ++ [ch], ?_, ?_⟩
  · rw [htext, hrest, List.append_assoc]
    rfl
  · rw [hoffset, byteLength_append, byteLength_cons, byteLength_nil, Nat.add_zero]

/-- Of two cursors in a text the one that leaves less to be read has more behind it. -/
theorem exists_run (h : c.In text) (h' : c'.In text) (hle : c'.rest.length ≤ c.rest.length) :
    ∃ run, c.rest = run ++ c'.rest ∧ c'.offset = c.offset + byteLength run := by
  obtain ⟨before, htext, hoffset⟩ := h
  obtain ⟨before', htext', hoffset'⟩ := h'
  have happend : before ++ c.rest = before' ++ c'.rest :=
    String.ofList_injective (htext.symm.trans htext')
  rw [hoffset, hoffset']
  rcases List.append_eq_append_iff.mp happend with ⟨run, hbefore, hrest⟩ | ⟨run, hbefore, hrest⟩
  · refine ⟨run, hrest, ?_⟩
    rw [hbefore, byteLength_append]
  · have hrun : run = [] := by
      rw [hrest, List.length_append] at hle
      exact List.length_eq_zero_iff.mp (by omega)
    subst hrun
    refine ⟨[], hrest.symm, ?_⟩
    rw [hbefore, List.append_nil, byteLength_nil, Nat.add_zero]

theorem offset_le (h : c.In text) (h' : c'.In text) (hle : c'.rest.length ≤ c.rest.length) :
    c.offset ≤ c'.offset := by
  obtain ⟨run, -, hoffset⟩ := h.exists_run h' hle
  omega

theorem offset_lt (h : c.In text) (h' : c'.In text) (hlt : c'.rest.length < c.rest.length) :
    c.offset < c'.offset := by
  obtain ⟨run, hrest, hoffset⟩ := h.exists_run h' hlt.le
  have hrun := length_le_byteLength run
  rw [hrest, List.length_append] at hlt
  omega

end Cursor.In

/-- On each boundary there is a cursor. -/
theorem exists_in_of_isValid {o : Nat} (h : (⟨o⟩ : String.Pos.Raw).IsValid text) :
    ∃ c : Cursor, c.In text ∧ c.offset = o := by
  obtain ⟨front, back, htext, hoffset⟩ := String.Pos.Raw.isValid_iff_exists_append.mp h
  refine ⟨⟨back.toList, o⟩, ⟨front.toList, ?_, ?_⟩, rfl⟩
  · rw [htext, String.ofList_append, String.ofList_toList, String.ofList_toList]
  · rw [← utf8ByteSize_ofList, String.ofList_toList]
    exact congrArg String.Pos.Raw.byteIdx hoffset

end HornSaturation.Reader
