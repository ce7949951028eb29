import Mathlib.Data.List.GetD
import Mathlib.Data.String.Basic
import Stencil.LineIndex

/-!
# A line index finds the place that counting finds

There are two ways to the location of a byte: to count on from the start of the text,
character by character, or to look the byte up among the offsets of the newlines. They
agree on every boundary between characters. A text up to a boundary has a last line, and
the newline in front of that line is the last of the newlines that the offset is behind;
so the row is the number of these newlines, and the column is the length of the line.
-/

namespace Stencil

open String (utf8Len)

namespace Text

theorem utf8Len_toList (text : String) : utf8Len text.toList = text.utf8ByteSize := by
  rw [← String.utf8ByteSize_ofList, String.ofList_toList]

/-- A text has no newline, or it has a last one. -/
theorem exists_last_line (text : List Char) :
    '\n' ∉ text ∨ ∃ before last, text = before ++ '\n' :: last ∧ '\n' ∉ last := by
  by_cases h : '\n' ∈ text.reverse
  · obtain ⟨last, before, htext, hlast⟩ := List.eq_append_cons_of_mem h
    refine Or.inr ⟨before.reverse, last.reverse, ?_, by simpa using hlast⟩
    rw [← List.reverse_reverse text, htext]
    simp
  · exact Or.inl (by simpa using h)

end Text

namespace Location

theorem offset_advanceOver (l : Location) (text : List Char) :
    (l.advanceOver text).offset = l.offset + utf8Len text := by
  induction text generalizing l with
  | nil => rfl
  | cons c rest ih =>
      rw [String.utf8Len_cons, Nat.add_comm (utf8Len rest), ← Nat.add_assoc, ← offset_advance]
      exact ih (l.advance c)

theorem row_advanceOver (l : Location) (text : List Char) :
    (l.advanceOver text).row = l.row + text.count '\n' := by
  induction text generalizing l with
  | nil => rfl
  | cons c rest ih =>
      have hrow : (l.advance c).row = l.row + if c = '\n' then 1 else 0 := by
        rw [advance]
        split <;> rfl
      have hrest := ih (l.advance c)
      rw [hrow] at hrest
      refine hrest.trans ?_
      rw [List.count_cons, Nat.add_assoc, Nat.add_comm (if c = '\n' then 1 else 0)]
      simp only [beq_iff_eq]

theorem column_advanceOver (l : Location) {text : List Char} (h : '\n' ∉ text) :
    (l.advanceOver text).column = l.column + text.length := by
  induction text generalizing l with
  | nil => rfl
  | cons c rest ih =>
      rw [List.mem_cons, not_or] at h
      have hcolumn : (l.advance c).column = l.column + 1 := by
        rw [advance, if_neg (fun e => h.1 e.symm)]
      have hrest := ih (l.advance c) h.2
      rw [hcolumn] at hrest
      refine hrest.trans ?_
      rw [List.length_cons]
      omega

/-- Behind a newline the column is counted afresh. -/
theorem column_advanceOver_line (l : Location) (before : List Char) {last : List Char}
    (h : '\n' ∉ last) : (l.advanceOver (before ++ '\n' :: last)).column = last.length := by
  rw [advanceOver_append]
  have hline : ((l.advanceOver before).advance '\n').column = 0 := by
    rw [advance, if_pos rfl]
  exact (column_advanceOver _ h).trans (by rw [hline, Nat.zero_add])

end Location

namespace LineIndex

theorem breaksFrom_append (offset : Nat) (first second : List Char) :
    breaksFrom offset (first ++ second) =
      breaksFrom offset first ++ breaksFrom (offset + utf8Len first) second := by
  induction first generalizing offset with
  | nil => rfl
  | cons c rest ih =>
      rw [List.cons_append, breaksFrom, breaksFrom, ih, String.utf8Len_cons, Nat.add_assoc,
        Nat.add_comm c.utf8Size]
      split <;> rfl

theorem breaksFrom_of_not_mem (offset : Nat) {text : List Char} (h : '\n' ∉ text) :
    breaksFrom offset text = [] := by
  induction text generalizing offset with
  | nil => rfl
  | cons c rest ih =>
      rw [List.mem_cons, not_or] at h
      rw [breaksFrom, ih _ h.2, if_neg (fun e => h.1 e.symm)]

theorem length_breaksFrom (offset : Nat) (text : List Char) :
    (breaksFrom offset text).length = text.count '\n' := by
  induction text generalizing offset with
  | nil => rfl
  | cons c rest ih =>
      rw [breaksFrom, List.count_cons, ← ih (offset + c.utf8Size)]
      split
      · next h => simp [h]
      · next h => simp [h]

theorem bounds_of_mem_breaksFrom {offset x : Nat} {text : List Char}
    (h : x ∈ breaksFrom offset text) : offset ≤ x ∧ x < offset + utf8Len text := by
  induction text generalizing offset with
  | nil => cases h
  | cons c rest ih =>
      have hlater (h : x ∈ breaksFrom (offset + c.utf8Size) rest) :
          offset ≤ x ∧ x < offset + utf8Len (c :: rest) := by
        obtain ⟨hlow, hhigh⟩ := ih h
        rw [String.utf8Len_cons]
        omega
      have hpos := c.utf8Size_pos
      rw [breaksFrom] at h
      split at h
      · rcases List.mem_cons.mp h with rfl | h
        · rw [String.utf8Len_cons]
          omega
        · exact hlater h
      · exact hlater h

/-- The newlines in front of a boundary are those of the text up to there. -/
theorem countP_breaksFrom (before rest : List Char) :
    (breaksFrom 0 (before ++ rest)).countP (fun x => decide (x < utf8Len before)) =
      before.count '\n' := by
  rw [breaksFrom_append, List.countP_append, ← length_breaksFrom 0 before]
  have hbefore : (breaksFrom 0 before).countP (fun x => decide (x < utf8Len before)) =
      (breaksFrom 0 before).length := by
    refine List.countP_eq_length.mpr fun x hx => ?_
    have hbounds := bounds_of_mem_breaksFrom hx
    exact decide_eq_true (by omega)
  have hrest : (breaksFrom (0 + utf8Len before) rest).countP
      (fun x => decide (x < utf8Len before)) = 0 := by
    refine List.countP_eq_zero.mpr fun x hx => ?_
    have hbounds := bounds_of_mem_breaksFrom hx
    simp only [decide_eq_true_eq]
    omega
  rw [hbefore, hrest, Nat.add_zero]

theorem dropBytes?_append (first second : List Char) :
    dropBytes? (utf8Len first) (first ++ second) = some second := by
  induction first with
  | nil => rw [String.utf8Len_nil, dropBytes?, List.nil_append]
  | cons c rest ih =>
      obtain ⟨n, hn⟩ : ∃ n, utf8Len (c :: rest) = n + 1 :=
        Nat.exists_eq_succ_of_ne_zero (by
          have := c.utf8Size_pos
          rw [String.utf8Len_cons]
          omega)
      rw [hn, List.cons_append, dropBytes?, ← hn, String.utf8Len_cons, if_pos (Nat.le_add_left _ _),
        Nat.add_sub_cancel, ih]

theorem takeBytes?_append (first second : List Char) :
    takeBytes? (utf8Len first) (first ++ second) = some first := by
  induction first with
  | nil => rw [String.utf8Len_nil, takeBytes?]
  | cons c rest ih =>
      obtain ⟨n, hn⟩ : ∃ n, utf8Len (c :: rest) = n + 1 :=
        Nat.exists_eq_succ_of_ne_zero (by
          have := c.utf8Size_pos
          rw [String.utf8Len_cons]
          omega)
      rw [hn, List.cons_append, takeBytes?, ← hn, String.utf8Len_cons, if_pos (Nat.le_add_left _ _),
        Nat.add_sub_cancel, ih]
      rfl

/-- Where the line starts that a boundary is on. -/
theorem lineStart_breaks {text : String} {lines last rest : List Char}
    (h : text.toList = lines ++ '\n' :: last ++ rest) (hlast : '\n' ∉ last) :
    (ofText text).breaks.getD (lines.count '\n') 0 + 1 = utf8Len (lines ++ ['\n']) := by
  have hbreaks : (ofText text).breaks =
      breaksFrom 0 lines ++
        utf8Len lines :: breaksFrom (utf8Len lines + 1 + utf8Len last) rest := by
    have hnewline : breaksFrom (utf8Len lines) ('\n' :: last) = [utf8Len lines] := by
      rw [breaksFrom, breaksFrom_of_not_mem _ hlast, if_pos rfl]
    rw [ofText, h, breaksFrom_append, breaksFrom_append, Nat.zero_add, hnewline]
    simp only [String.utf8Len_append, String.utf8Len_cons, List.append_assoc, List.singleton_append,
      Nat.zero_add]
    rw [show utf8Len lines + (utf8Len last + '\n'.utf8Size) = utf8Len lines + 1 + utf8Len last by
      rw [show '\n'.utf8Size = 1 from rfl]
      omega]
  rw [hbreaks, ← length_breaksFrom 0 lines, List.getD_append_right _ _ _ _ (Nat.le_refl _),
    Nat.sub_self, String.utf8Len_append]
  rfl

/-- The location that an index finds for a boundary is the one that counting finds. -/
theorem location?_utf8Len {text : String} {before rest : List Char}
    (h : text.toList = before ++ rest) :
    (ofText text).location? (utf8Len before) text = some (Location.start.advanceOver before) := by
  have hlength : ¬ (ofText text).length < utf8Len before := by
    have hbytes := Text.utf8Len_toList text
    rw [h, String.utf8Len_append] at hbytes
    have hsize : (ofText text).length = text.utf8ByteSize := rfl
    omega
  have hcount : (ofText text).breaks.countP (· < utf8Len before) = before.count '\n' := by
    rw [ofText, h]
    exact countP_breaksFrom before rest
  have hoffset : (Location.start.advanceOver before).offset = utf8Len before :=
    (Location.offset_advanceOver _ _).trans (Nat.zero_add _)
  have hrow : (Location.start.advanceOver before).row = before.count '\n' :=
    (Location.row_advanceOver _ _).trans (Nat.zero_add _)
  have hlocation {column : Nat} (hcolumn : (Location.start.advanceOver before).column = column) :
      some (Location.mk (utf8Len before) (before.count '\n') column) =
        some (Location.start.advanceOver before) := by
    rw [← hoffset, ← hrow, ← hcolumn]
  rw [location?, if_neg hlength]
  dsimp only
  rw [hcount]
  rcases Text.exists_last_line before with hline | ⟨lines, last, rfl, hlast⟩
  · have hcolumn : (Location.start.advanceOver before).column = before.length :=
      (Location.column_advanceOver _ hline).trans (Nat.zero_add _)
    have htake : takeBytes? (utf8Len before - 0) text.toList = some before := by
      rw [h, Nat.sub_zero, takeBytes?_append]
    rw [← hlocation hcolumn, List.count_eq_zero.mpr hline]
    simp only [dropBytes?, Option.bind_eq_bind, Option.bind_some, htake,
      Option.pure_def]
  · have hnewlines : (lines ++ '\n' :: last).count '\n' = lines.count '\n' + 1 := by
      rw [List.count_append, List.count_cons_self, List.count_eq_zero.mpr hlast, Nat.zero_add]
    have hdrop : dropBytes? (utf8Len (lines ++ ['\n'])) text.toList = some (last ++ rest) := by
      rw [h, show lines ++ '\n' :: last ++ rest = (lines ++ ['\n']) ++ (last ++ rest) by simp,
        dropBytes?_append]
    have htake : takeBytes? (utf8Len (lines ++ '\n' :: last) - utf8Len (lines ++ ['\n']))
        (last ++ rest) = some last := by
      rw [show lines ++ '\n' :: last = (lines ++ ['\n']) ++ last by simp, String.utf8Len_append,
        Nat.add_sub_cancel_left, takeBytes?_append]
    rw [← hlocation (Location.column_advanceOver_line _ lines hlast), hnewlines]
    dsimp only
    rw [lineStart_breaks h hlast]
    simp only [Option.bind_eq_bind, hdrop, Option.bind_some, htake, Option.pure_def]

end LineIndex

end Stencil
