import Mathlib.Data.List.Chain
import Stencil.Proofs.Boundaries
import Stencil.Proofs.Seams

/-!
# Tokens tile their text

A token's range is counted along with the characters that make it up, and a token starts where
the one in front of it ends. So a row of tokens is laid end to end (`Token.Row`), which is all
that has to be known of it: a token's text is what stands between its two offsets, and both
ends of it are boundaries of the text.

What a cut leaves over is the text from the bracket on that is not closed, and nothing where
every bracket is closed (`Scan.exists_leftover`). Two literals would have been gathered into
one, so that there is a directive between any two of them.
-/

namespace Stencil

open String (utf8Len)

/-- What stands in a text between two byte offsets; none where one of them is inside a character
or behind the end. -/
def Text.between? (first last : Nat) (text : List Char) : Option (List Char) := do
  let rest ← LineIndex.dropBytes? first text
  LineIndex.takeBytes? (last - first) rest

/-- Where a mark is not found, it is nowhere. -/
theorem Text.not_infix_of_before?_eq_none {mark text : List Char} (h : before? mark text = none) :
    ¬ mark <:+: text := by
  induction text with
  | nil =>
      rw [before?] at h
      split at h
      · cases h
      · next hempty =>
          rw [List.infix_nil]
          exact fun hnil => hempty (by rw [hnil]; rfl)
  | cons c rest ih =>
      rw [before?] at h
      split at h
      · cases h
      · next hbegin =>
          rw [List.infix_cons_iff, not_or, ← List.isPrefixOf_iff_prefix]
          exact ⟨hbegin, ih (Option.map_eq_none_iff.mp h)⟩

namespace Token

/-- The text of a row of tokens. -/
def textOf (tokens : List Token) : List Char := tokens.flatMap fun t => t.raw.toList

/-- Whether tokens are laid end to end from a location on, none of them empty. -/
def Row (l : Location) : List Token → Prop
  | [] => True
  | t :: rest =>
      t.raw.toList ≠ [] ∧ t.range = ⟨l, l.advanceOver t.raw.toList⟩ ∧ Row t.range.last rest

variable {l : Location} {tokens first second : List Token} {t : Token} {text rest : List Char}

theorem textOf_append (first second : List Token) :
    textOf (first ++ second) = textOf first ++ textOf second := List.flatMap_append

theorem row_append : Row l (first ++ second) ↔
    Row l first ∧ Row (l.advanceOver (textOf first)) second := by
  induction first generalizing l with
  | nil => exact ⟨fun h => ⟨trivial, h⟩, And.right⟩
  | cons t first ih =>
      have htext : textOf (t :: first) = t.raw.toList ++ textOf first := List.flatMap_cons
      rw [List.cons_append, Row, Row, ih, htext, Location.advanceOver_append]
      constructor
      · rintro ⟨hraw, hrange, hfirst, hsecond⟩
        rw [hrange] at hsecond
        exact ⟨⟨hraw, hrange, hfirst⟩, hsecond⟩
      · rintro ⟨⟨hraw, hrange, hfirst⟩, hsecond⟩
        rw [← show t.range.last = l.advanceOver t.raw.toList by rw [hrange]] at hsecond
        exact ⟨hraw, hrange, hfirst, hsecond⟩

theorem Row.first_of_head? (h : Row l tokens) (ht : tokens.head? = some t) : t.range.first = l := by
  cases tokens with
  | nil => cases ht
  | cons u tokens =>
      cases ht
      obtain ⟨-, hrange, -⟩ := h
      rw [hrange]

theorem Row.isChain (h : Row l tokens) :
    tokens.IsChain fun t u => u.range.first = t.range.last := by
  induction tokens generalizing l with
  | nil => exact .nil
  | cons t tokens ih =>
      obtain ⟨-, -, hrest⟩ := h
      exact (ih hrest).cons fun u hu => hrest.first_of_head? hu

/-- A token of a row stands where its range says. -/
theorem Row.faces (h : Row l tokens) (hl : l.Faces text (textOf tokens ++ rest)) (ht : t ∈ tokens) :
    ∃ after, t.range.first.Faces text (t.raw.toList ++ after) ∧
      t.range.last = t.range.first.advanceOver t.raw.toList ∧ t.raw.toList ≠ [] := by
  obtain ⟨before, behind, rfl⟩ := List.append_of_mem ht
  obtain ⟨-, hraw, hrange, -⟩ := row_append.mp h
  have hbehind : textOf (t :: behind) = t.raw.toList ++ textOf behind := List.flatMap_cons
  rw [textOf_append, hbehind, List.append_assoc, List.append_assoc] at hl
  rw [hrange]
  exact ⟨textOf behind ++ rest, hl.advanceOver _, rfl, hraw⟩

end Token

/-- The text between the ends of what stands at a boundary is what stands there. -/
theorem Location.Faces.between? {text raw after : List Char} {l : Location}
    (h : l.Faces text (raw ++ after)) :
    Text.between? l.offset (l.advanceOver raw).offset text = some raw := by
  obtain ⟨passed, rfl, rfl⟩ := h
  have hoffset : (Location.start.advanceOver passed).offset = utf8Len passed :=
    (offset_advanceOver _ _).trans (Nat.zero_add _)
  rw [Text.between?, offset_advanceOver _ raw, Nat.add_sub_cancel_left, hoffset,
    LineIndex.dropBytes?_append, Option.bind_eq_bind, Option.bind_some, LineIndex.takeBytes?_append]

namespace Scan

variable {mode : Mode} {text raw : List Char} {content : Token.Content} {n : Nat}
  {marks : List Mark} {start : Location} {pending : List Char}

/-! ## What a cut leaves over -/

/-- The text of a mark. -/
def Mark.chars : Mark → List Char
  | .char c => [c]
  | .directive _ raw => raw

/-- A bracket is found to be open where it stands without a partner behind it. -/
theorem eq_of_find_unclosed {c : Char} {rest : List Char} {b : Bracket}
    (h : find mode c rest = .unclosed b) :
    ∃ later, c :: rest = b.opening ++ later ∧ ¬ b.closing <:+: later := by
  unfold find at h
  split at h
  · next bracket hbracket =>
      have hat : Bracket.at? (c :: rest) = some bracket := by
        split at hbracket
        · exact hbracket
        · cases hbracket
      obtain ⟨o, tail, hopening, htext⟩ := Bracket.eq_of_at? hat
      cases htext
      split at h
      · cases h
      · next hbody =>
          cases h
          rw [List.drop_succ_cons, List.drop_zero] at hbody
          exact ⟨tail, by rw [hopening]; rfl, Text.not_infix_of_before?_eq_none hbody⟩
  · split at h
    · cases h
    · cases h

/-- The marks of a cut are the text, up to the bracket that is not closed if there is one. -/
theorem exists_leftover (mode : Mode) (n : Nat) (text : List Char) :
    ∃ left, text.drop n = (cut mode n text).marks.flatMap Mark.chars ++ left ∧
      ((cut mode n text).unclosed = none → left = []) ∧
      ∀ b, (cut mode n text).unclosed = some b →
        ∃ later, left = b.opening ++ later ∧ ¬ b.closing <:+: later := by
  induction text generalizing mode n with
  | nil =>
      refine ⟨[], ?_, fun _ => rfl, fun b hb => ?_⟩
      · rw [cut, List.drop_nil]
        rfl
      · rw [cut] at hb
        cases hb
  | cons c rest ih =>
      cases n with
      | succ n =>
          rw [cut, List.drop_succ_cons]
          exact ih mode n
      | zero =>
          rw [cut, List.drop_zero]
          rcases find_cases mode c rest with
            hfind | ⟨content, raw, after, hfind, -, -, hrest⟩ | ⟨bracket, hfind, -⟩
          · rw [hfind]
            obtain ⟨left, htext, hleft⟩ := ih (mode.next c rest) 0
            rw [List.drop_zero] at htext
            exact ⟨left, congrArg (c :: ·) htext, hleft⟩
          · rw [hfind]
            obtain ⟨left, htext, hleft⟩ := ih mode raw.length
            have hdrop : rest.drop raw.length = after := by rw [hrest, List.drop_left]
            rw [hdrop] at htext
            refine ⟨left, ?_, hleft⟩
            dsimp only
            rw [List.flatMap_cons, List.append_assoc, List.length_cons, Nat.add_sub_cancel, ← htext,
              hrest]
            rfl
          · rw [hfind]
            have hleft (b : Bracket) (hb : some bracket = some b) :
                ∃ later, c :: rest = b.opening ++ later ∧ ¬ b.closing <:+: later := by
              cases hb
              exact eq_of_find_unclosed hfind
            refine ⟨c :: rest, rfl, fun hnone => ?_, hleft⟩
            cases hnone

/-! ## The tokens of some marks -/

theorem textOf_literal (start : Location) (chars : List Char) :
    Token.textOf (literal start chars) = chars := by
  rw [literal]
  cases chars <;> simp [Token.textOf]

theorem textOf_gather (start : Location) (pending : List Char) (marks : List Mark) :
    Token.textOf (gather start pending marks) = pending.reverse ++ marks.flatMap Mark.chars := by
  induction marks generalizing start pending with
  | nil => rw [gather, textOf_literal, List.flatMap_nil, List.append_nil]
  | cons mark marks ih =>
      cases mark with
      | char c => rw [gather, ih, List.reverse_cons, List.append_assoc]; rfl
      | directive content raw =>
          rw [gather, Token.textOf, List.flatMap_append, List.flatMap_cons, String.toList_ofList]
          exact congrArg₂ _ (textOf_literal _ _) (congrArg _ (ih _ _))

theorem row_literal (start : Location) (chars : List Char) :
    Token.Row start (literal start chars) := by
  rw [literal]
  split
  · exact trivial
  · next hempty =>
      rw [List.isEmpty_iff] at hempty
      exact ⟨by rwa [String.toList_ofList], by rw [String.toList_ofList], trivial⟩

theorem row_gather (h : ∀ content raw, .directive content raw ∈ marks → raw ≠ [])
    (start : Location) (pending : List Char) : Token.Row start (gather start pending marks) := by
  induction marks generalizing start pending with
  | nil => exact row_literal start pending.reverse
  | cons mark marks ih =>
      have hlater := ih fun content raw hmem => h content raw (List.mem_cons_of_mem _ hmem)
      cases mark with
      | char c => exact hlater start (c :: pending)
      | directive content raw =>
          rw [gather, Token.row_append, textOf_literal]
          refine ⟨row_literal start pending.reverse, ?_, ?_, hlater _ []⟩
          · rw [String.toList_ofList]
            exact h content raw List.mem_cons_self
          · rw [String.toList_ofList]

/-- Behind a literal comes a directive. -/
theorem apart_gather (h : ∀ content raw, .directive content raw ∈ marks → content ≠ .literal)
    (start : Location) (pending : List Char) : (gather start pending marks).IsChain
      fun t u => ¬ (t.content = .literal ∧ u.content = .literal) := by
  have hliteral (start : Location) (chars : List Char) : (literal start chars).IsChain
      fun t u => ¬ (t.content = .literal ∧ u.content = .literal) := by
    rw [literal]
    split
    · exact .nil
    · exact .singleton _
  induction marks generalizing start pending with
  | nil => exact hliteral start pending.reverse
  | cons mark marks ih =>
      have hlater := ih fun content raw hmem => h content raw (List.mem_cons_of_mem _ hmem)
      cases mark with
      | char c => exact hlater start (c :: pending)
      | directive content raw =>
          have hcontent := h content raw List.mem_cons_self
          refine (hliteral _ _).append ((hlater _ []).cons fun u _ hboth => hcontent hboth.1) ?_
          intro t _ u hu hboth
          cases hu
          exact hcontent hboth.2

theorem finish_eq (start : Location) (marks : List Mark) :
    finish start marks = start.advanceOver (marks.flatMap Mark.chars) := by
  induction marks generalizing start with
  | nil => rfl
  | cons mark marks ih =>
      cases mark with
      | char c => exact ih (start.advance c)
      | directive content raw =>
          rw [finish, ih, List.flatMap_cons, Location.advanceOver_append]
          rfl

/-! ## The tokens of a text -/

theorem row_ofText (text : String) : Token.Row .start (ofText text).tokens :=
  row_gather (fun _ _ hmem => (directive_of_mem_cut hmem).1) .start []

/-- A text is that of its tokens and what is left over; with an error a bracket is left over, at the
error's place. -/
theorem exists_leftover_ofText (text : String) :
    ∃ left, text.toList = Token.textOf (ofText text).tokens ++ left ∧
      ((ofText text).error = none → left = []) ∧
      ∀ e, (ofText text).error = some e →
        e.range = .empty (Location.start.advanceOver (Token.textOf (ofText text).tokens)) ∧
          ∃ later, left = e.bracket.opening ++ later ∧ ¬ e.bracket.closing <:+: later := by
  obtain ⟨left, htext, hnone, hsome⟩ := exists_leftover .plain 0 text.toList
  have htokens : Token.textOf (ofText text).tokens =
      (cut .plain 0 text.toList).marks.flatMap Mark.chars := textOf_gather .start [] _
  rw [htokens]
  refine ⟨left, htext, fun herror => hnone (error_eq_none_iff.mp herror), fun e he => ?_⟩
  obtain ⟨b, hb, rfl⟩ := Option.map_eq_some_iff.mp he
  exact ⟨by rw [finish_eq], hsome b hb⟩

/-- Whether tokens tile a text: none is empty, they are laid end to end from the start, each is what
stands between its offsets, no two literals are neighbours, and together they are the text up to
the bracket of the error, if there is one. -/
structure Tiles (scan : Scan) (text : List Char) : Prop where
  nonempty : ∀ t ∈ scan.tokens, t.raw ≠ "" ∧ t.range.first.offset < t.range.last.offset
  start : ∀ t, scan.tokens.head? = some t → t.range.first = .start
  contiguous : scan.tokens.IsChain fun t u => u.range.first = t.range.last
  between : ∀ t ∈ scan.tokens,
    Text.between? t.range.first.offset t.range.last.offset text = some t.raw.toList
  apart : scan.tokens.IsChain fun t u => ¬ (t.content = .literal ∧ u.content = .literal)
  whole : scan.error = none → Token.textOf scan.tokens = text
  upToError : ∀ e, scan.error = some e →
    e.range = .empty (Location.start.advanceOver (Token.textOf scan.tokens)) ∧
      ∃ later, text = Token.textOf scan.tokens ++ (e.bracket.opening ++ later) ∧
        ¬ e.bracket.closing <:+: later

/-- The tokens of a text tile it. -/
theorem tiles_ofText (text : String) : (ofText text).Tiles text.toList := by
  obtain ⟨left, htext, hnone, hsome⟩ := exists_leftover_ofText text
  have hstart : Location.start.Faces text.toList (Token.textOf (ofText text).tokens ++ left) := by
    rw [← htext]
    exact Location.faces_start _
  have hfaces (t : Token) (ht : t ∈ (ofText text).tokens) := (row_ofText text).faces hstart ht
  refine ⟨fun t ht => ?_, fun t ht => (row_ofText text).first_of_head? ht,
    (row_ofText text).isChain, fun t ht => ?_,
    apart_gather (fun _ _ hmem => (directive_of_mem_cut hmem).2) .start [], fun herror => ?_,
    fun e he => ?_⟩
  · obtain ⟨after, -, hlast, hraw⟩ := hfaces t ht
    refine ⟨fun hempty => hraw (by rw [hempty]; rfl), ?_⟩
    rw [hlast, Location.offset_advanceOver]
    exact Nat.lt_add_of_pos_right (Nat.pos_of_ne_zero (mt String.utf8Len_eq_zero.mp hraw))
  · obtain ⟨after, hfirst, hlast, -⟩ := hfaces t ht
    rw [hlast]
    exact hfirst.between?
  · rw [hnone herror, List.append_nil] at htext
    exact htext.symm
  · obtain ⟨hrange, later, rfl, hlater⟩ := hsome e he
    exact ⟨hrange, later, htext, hlater⟩

end Scan

end Stencil
