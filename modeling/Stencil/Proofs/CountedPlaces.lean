import Stencil.Proofs.Tiling

/-!
# Where there is a location, and which one

A line index has a location for an offset exactly if the offset is a boundary between two
characters. An offset inside a character has the same newlines in front of it as the character,
since a newline is one byte long, so that its line starts where the character's does, and no
characters fill what is between.

The location counts newlines and the characters behind the last one, as the scanner does on its
way, so the two ends of every token and the place of an error are where the index finds them.
-/

namespace Stencil

open String (utf8Len)

namespace Text

variable {text last : List Char}

/-- The characters of a text behind its last newline, all of them if it has none. -/
def lastLine (text : List Char) : List Char := (text.reverse.takeWhile (· != '\n')).reverse

theorem lastLine_of_not_mem (h : '\n' ∉ text) : lastLine text = text := by
  have hall : ∀ c ∈ text.reverse, (c != '\n') = true := by
    intro c hc
    rw [bne_iff_ne]
    rintro rfl
    exact h (List.mem_reverse.mp hc)
  rw [lastLine, List.takeWhile_eq_self_iff.mpr hall, List.reverse_reverse]

theorem lastLine_append (lines : List Char) (h : '\n' ∉ last) :
    lastLine (lines ++ '\n' :: last) = last := by
  have hall : ∀ c ∈ last.reverse, (c != '\n') = true := by
    intro c hc
    rw [bne_iff_ne]
    rintro rfl
    exact h (List.mem_reverse.mp hc)
  have hreverse : (lines ++ '\n' :: last).reverse = last.reverse ++ '\n' :: lines.reverse := by simp
  rw [lastLine, hreverse, List.takeWhile_append_of_pos hall, List.takeWhile_cons_of_neg (by decide),
    List.append_nil, List.reverse_reverse]

/-- A boundary of a text is as far from its start as some characters are long. -/
theorem isValid_iff {text : String} {o : Nat} : (⟨o⟩ : String.Pos.Raw).IsValid text ↔
    ∃ before rest, text.toList = before ++ rest ∧ utf8Len before = o := by
  rw [String.Pos.Raw.isValid_iff_exists_append]
  constructor
  · rintro ⟨before, rest, rfl, ho⟩
    refine ⟨before.toList, rest.toList, String.toList_append, ?_⟩
    rw [utf8Len_toList, ← String.byteIdx_rawEndPos, ← ho]
  · rintro ⟨before, rest, htext, rfl⟩
    refine ⟨.ofList before, .ofList rest, ?_, ?_⟩
    · rw [← String.ofList_append, ← htext, String.ofList_toList]
    · rw [← String.utf8ByteSize_ofList]
      rfl

/-- An offset that is not behind a text is a boundary of it or inside one of its characters. -/
theorem boundary_or_inside (text : List Char) {o : Nat} (h : o ≤ utf8Len text) :
    (∃ before rest, text = before ++ rest ∧ utf8Len before = o) ∨
      ∃ before c rest, text = before ++ c :: rest ∧ utf8Len before < o ∧
        o < utf8Len before + c.utf8Size := by
  induction text generalizing o with
  | nil => exact Or.inl ⟨[], [], rfl, (Nat.le_zero.mp h).symm⟩
  | cons c text ih =>
      rw [String.utf8Len_cons] at h
      by_cases hzero : o = 0
      · exact Or.inl ⟨[], c :: text, rfl, hzero.symm⟩
      by_cases hinside : o < c.utf8Size
      · refine Or.inr ⟨[], c, text, rfl, ?_, ?_⟩
        · rw [String.utf8Len_nil]
          omega
        · rwa [String.utf8Len_nil, Nat.zero_add]
      rcases ih (o := o - c.utf8Size) (by omega) with
        ⟨before, rest, rfl, hbefore⟩ | ⟨before, d, rest, rfl, hlow, hhigh⟩
      · refine Or.inl ⟨c :: before, rest, rfl, ?_⟩
        rw [String.utf8Len_cons]
        omega
      · refine Or.inr ⟨c :: before, d, rest, rfl, ?_⟩
        rw [String.utf8Len_cons]
        omega

end Text

/-- Counting along a text gives its bytes, its newlines and the characters behind the last one. -/
theorem Location.advanceOver_start (text : List Char) : Location.start.advanceOver text =
    ⟨utf8Len text, text.count '\n', (Text.lastLine text).length⟩ := by
  have hoffset : (Location.start.advanceOver text).offset = utf8Len text :=
    (offset_advanceOver _ _).trans (Nat.zero_add _)
  have hrow : (Location.start.advanceOver text).row = text.count '\n' :=
    (row_advanceOver _ _).trans (Nat.zero_add _)
  have hcolumn : (Location.start.advanceOver text).column = (Text.lastLine text).length := by
    rcases Text.exists_last_line text with hline | ⟨lines, last, rfl, hlast⟩
    · rw [Text.lastLine_of_not_mem hline]
      exact (column_advanceOver _ hline).trans (Nat.zero_add _)
    · rw [Text.lastLine_append lines hlast]
      exact column_advanceOver_line _ lines hlast
  rw [← hoffset, ← hrow, ← hcolumn]

namespace LineIndex

variable {first rest : List Char} {c : Char} {k o : Nat}

theorem takeBytes?_inside (hlow : 0 < k) (hhigh : k < c.utf8Size) :
    takeBytes? (utf8Len first + k) (first ++ c :: rest) = none := by
  obtain ⟨n, hn⟩ : ∃ n, utf8Len first + k = n + 1 := Nat.exists_eq_succ_of_ne_zero (by omega)
  induction first generalizing n with
  | nil =>
      rw [String.utf8Len_nil, Nat.zero_add] at hn
      rw [String.utf8Len_nil, Nat.zero_add, hn, List.nil_append, takeBytes?, if_neg (by omega)]
  | cons d first ih =>
      rw [String.utf8Len_cons] at hn ⊢
      obtain ⟨m, hm⟩ : ∃ m, utf8Len first + k = m + 1 := Nat.exists_eq_succ_of_ne_zero (by omega)
      have hpos := d.utf8Size_pos
      rw [hn, List.cons_append, takeBytes?, if_pos (by omega), ← hn,
        show utf8Len first + d.utf8Size + k - d.utf8Size = utf8Len first + k by omega, ih m hm]
      rfl

/-- The newlines in front of an offset inside a character are those in front of the character. -/
theorem countP_breaksFrom_inside {before : List Char} (hlow : utf8Len before < o)
    (hhigh : o < utf8Len before + c.utf8Size) :
    (breaksFrom 0 (before ++ c :: rest)).countP (fun x => decide (x < o)) = before.count '\n' := by
  rw [← countP_breaksFrom before (c :: rest)]
  refine List.countP_congr fun x hx => ?_
  rw [decide_eq_true_eq, decide_eq_true_eq]
  -- A newline is one byte long, so there is nothing inside of it.
  have hc : c ≠ '\n' := by
    rintro rfl
    have : '\n'.utf8Size = 1 := rfl
    omega
  rw [breaksFrom_append, breaksFrom, if_neg hc, List.mem_append] at hx
  rcases hx with hx | hx
  · have := bounds_of_mem_breaksFrom hx
    omega
  · have := bounds_of_mem_breaksFrom hx
    omega

/-- There is no location inside a character. -/
theorem location?_inside {text : String} {before : List Char}
    (h : text.toList = before ++ c :: rest) (hlow : utf8Len before < o)
    (hhigh : o < utf8Len before + c.utf8Size) : (ofText text).location? o text = none := by
  have hcount : (ofText text).breaks.countP (· < o) = before.count '\n' := by
    rw [ofText, h]
    exact countP_breaksFrom_inside hlow hhigh
  rw [location?]
  split
  · rfl
  dsimp only
  rw [hcount]
  rcases Text.exists_last_line before with hline | ⟨lines, last, rfl, hlast⟩
  · have htake : takeBytes? (o - 0) text.toList = none := by
      rw [h, show o - 0 = utf8Len before + (o - utf8Len before) by omega]
      exact takeBytes?_inside (by omega) (by omega)
    rw [List.count_eq_zero.mpr hline]
    simp only [dropBytes?, Option.bind_eq_bind, Option.bind_some, htake, Option.bind_none]
  · have hnewlines : (lines ++ '\n' :: last).count '\n' = lines.count '\n' + 1 := by
      rw [List.count_append, List.count_cons_self, List.count_eq_zero.mpr hlast, Nat.zero_add]
    have hsplit : lines ++ '\n' :: last ++ c :: rest =
        (lines ++ ['\n']) ++ (last ++ c :: rest) := by
      simp
    have hlength : utf8Len (lines ++ '\n' :: last) = utf8Len (lines ++ ['\n']) + utf8Len last := by
      rw [← String.utf8Len_append]
      simp
    have hdrop : dropBytes? (utf8Len (lines ++ ['\n'])) text.toList = some (last ++ c :: rest) := by
      rw [h, hsplit, dropBytes?_append]
    have htake : takeBytes? (o - utf8Len (lines ++ ['\n'])) (last ++ c :: rest) = none := by
      rw [show o - utf8Len (lines ++ ['\n']) =
        utf8Len last + (o - utf8Len (lines ++ '\n' :: last)) by omega]
      exact takeBytes?_inside (by omega) (by omega)
    rw [hnewlines]
    dsimp only
    rw [lineStart_breaks h hlast]
    simp only [Option.bind_eq_bind, hdrop, Option.bind_some, htake, Option.bind_none]

theorem isSome_location?_iff {text : String} :
    ((ofText text).location? o text).isSome ↔
      o ≤ text.utf8ByteSize ∧ (⟨o⟩ : String.Pos.Raw).IsValid text := by
  rw [Text.isValid_iff]
  constructor
  · intro h
    have hlength : o ≤ text.utf8ByteSize := by
      by_contra hbehind
      have hlt : (ofText text).length < o := Nat.not_le.mp hbehind
      rw [location?, if_pos hlt] at h
      cases h
    refine ⟨hlength, ?_⟩
    rw [← Text.utf8Len_toList] at hlength
    rcases Text.boundary_or_inside text.toList hlength with
      hboundary | ⟨before, c, rest, htext, hin⟩
    · exact hboundary
    · rw [location?_inside htext hin.1 hin.2] at h
      cases h
  · rintro ⟨-, before, rest, htext, rfl⟩
    rw [location?_utf8Len htext]
    rfl

/-- An index has a location for exactly the boundaries of its text, which counts the newlines in
front of the boundary and the characters behind the last one; and it has for both ends of each
token, and of an error, the location that the scanner has counted. -/
theorem location?_counted (text : String) :
    (∀ o, ((ofText text).location? o text).isSome ↔
      o ≤ text.utf8ByteSize ∧ (⟨o⟩ : String.Pos.Raw).IsValid text) ∧
    (∀ before rest, text.toList = before ++ rest →
      (ofText text).location? (utf8Len before) text =
        some ⟨utf8Len before, before.count '\n', (Text.lastLine before).length⟩) ∧
    (∀ t ∈ (Scan.ofText text).tokens,
      (ofText text).location? t.range.first.offset text = some t.range.first ∧
        (ofText text).location? t.range.last.offset text = some t.range.last) ∧
    ∀ e, (Scan.ofText text).error = some e →
      (ofText text).location? e.range.first.offset text = some e.range.first ∧
        (ofText text).location? e.range.last.offset text = some e.range.last := by
  obtain ⟨left, htext, -, hsome⟩ := Scan.exists_leftover_ofText text
  have hstart : Location.start.Faces text.toList
      (Token.textOf (Scan.ofText text).tokens ++ left) := by
    rw [← htext]
    exact Location.faces_start _
  refine ⟨fun o => isSome_location?_iff, fun before rest hbefore => ?_, fun t ht => ?_,
    fun e he => ?_⟩
  · rw [location?_utf8Len hbefore, Location.advanceOver_start]
  · obtain ⟨after, hfirst, hlast, -⟩ := (Scan.row_ofText text).faces hstart ht
    refine ⟨hfirst.location?, ?_⟩
    rw [hlast]
    exact (hfirst.advanceOver _).location?
  · obtain ⟨hrange, -⟩ := hsome e he
    rw [hrange]
    exact ⟨(hstart.advanceOver _).location?, (hstart.advanceOver _).location?⟩

end LineIndex

end Stencil
