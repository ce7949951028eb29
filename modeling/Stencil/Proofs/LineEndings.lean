import Mathlib.Data.List.DropRight
import Stencil.Proofs.ControlBlocks
import Stencil.Proofs.Relocation
import Stencil.Proofs.Tiling
import Stencil.Proofs.WrittenValues

/-!
# Line ends

A text may have a carriage return in front of each newline. Whatever looks ahead in it looks for
something that stands on one line, so that it finds the same there, with the same rest but for
the line ends: a carriage return is a blank character and begins nothing, and behind it the
scanner is in a mode from which the newline leads to where it leads without. So the cut of such
a text is the cut of the text, mark by mark with other line ends.

The carriage return is the last character of its row, and the newline ends the row whatever its
column, so that all else stands in the same row and column. The reader is between lexemes or in a
comment behind the pair if it is behind the newline alone; in a string a newline is a fault. So
the draft is the same, rows and columns included, if it has no fault.
-/

namespace Stencil

namespace Text

variable {c : Char} {text mark : List Char}

/-! ## Carriage returns -/

/-- A character, with a carriage return in front of it if it is a newline. -/
def lineEnd (c : Char) : List Char := if c = '\n' then ['\r', '\n'] else [c]

/-- A text with a carriage return in front of each newline. -/
def crlf (text : List Char) : List Char := text.flatMap lineEnd

theorem crlf_newline (text : List Char) : crlf ('\n' :: text) = '\r' :: '\n' :: crlf text := rfl

theorem crlf_cons (h : c ≠ '\n') (text : List Char) : crlf (c :: text) = c :: crlf text := by
  rw [crlf, List.flatMap_cons, lineEnd, if_neg h]
  rfl

theorem crlf_append (first second : List Char) :
    crlf (first ++ second) = crlf first ++ crlf second := List.flatMap_append

theorem crlf_of_not_mem (h : '\n' ∉ text) : crlf text = text := by
  induction text with
  | nil => rfl
  | cons c text ih =>
      rw [crlf_cons (List.ne_of_not_mem_cons h).symm, ih (List.not_mem_of_not_mem_cons h)]

variable {p : Char → Bool}

theorem dropWhile_crlf (hp : p '\r' = p '\n') (text : List Char) :
    (crlf text).dropWhile p = crlf (text.dropWhile p) := by
  induction text with
  | nil => rfl
  | cons c text ih =>
      by_cases hc : c = '\n'
      · subst hc
        rw [crlf_newline, List.dropWhile_cons, List.dropWhile_cons, List.dropWhile_cons, hp]
        split
        · exact ih
        · rfl
      · rw [crlf_cons hc, List.dropWhile_cons, List.dropWhile_cons]
        split
        · exact ih
        · rw [crlf_cons hc]

theorem rdropWhile_crlf (hp : p '\r' = p '\n') (text : List Char) :
    (crlf text).rdropWhile p = crlf (text.rdropWhile p) := by
  induction text using List.reverseRecOn with
  | nil => rfl
  | append_singleton text c ih =>
      by_cases hc : c = '\n'
      · subst hc
        have hpair : crlf (text ++ ['\n']) = crlf text ++ ['\r'] ++ ['\n'] := by
          rw [crlf_append, List.append_assoc]
          rfl
        rw [hpair, List.rdropWhile_concat, List.rdropWhile_concat, List.rdropWhile_concat, hp]
        split
        · exact ih
        · exact hpair.symm
      · have hsame : crlf (text ++ [c]) = crlf text ++ [c] := by rw [crlf_append, crlf_cons hc]; rfl
        rw [hsame, List.rdropWhile_concat, List.rdropWhile_concat]
        split
        · exact ih
        · exact hsame.symm

/-- Line ends in the middle of a text are not trimmed. -/
theorem trim_crlf (text : List Char) : trim (crlf text) = crlf (trim text) := by
  show ((crlf text).dropWhile isBlank).rdropWhile isBlank =
    crlf ((text.dropWhile isBlank).rdropWhile isBlank)
  rw [dropWhile_crlf rfl, rdropWhile_crlf rfl]

/-! ## Looking ahead -/

/-- Whether a mark has no character of a line end. -/
def InLine (mark : List Char) : Prop := '\r' ∉ mark ∧ '\n' ∉ mark

instance (mark : List Char) : Decidable (InLine mark) :=
  inferInstanceAs (Decidable ('\r' ∉ mark ∧ '\n' ∉ mark))

theorem InLine.tail (h : InLine (c :: mark)) : InLine mark :=
  ⟨List.not_mem_of_not_mem_cons h.1, List.not_mem_of_not_mem_cons h.2⟩

theorem InLine.head_ne (h : InLine (c :: mark)) : c ≠ '\r' ∧ c ≠ '\n' :=
  ⟨(List.ne_of_not_mem_cons h.1).symm, (List.ne_of_not_mem_cons h.2).symm⟩

theorem head?_crlf (hc : c ≠ '\r' ∧ c ≠ '\n') (text : List Char) :
    (crlf text).head? = some c ↔ text.head? = some c := by
  cases text with
  | nil => rfl
  | cons d text =>
      by_cases hd : d = '\n'
      · subst hd
        rw [crlf_newline, List.head?_cons, List.head?_cons]
        exact iff_of_false (fun h => hc.1 (Option.some.inj h).symm)
          fun h => hc.2 (Option.some.inj h).symm
      · rw [crlf_cons hd, List.head?_cons, List.head?_cons]

theorem after?_crlf (h : InLine mark) (text : List Char) :
    after? mark (crlf text) = (after? mark text).map crlf := by
  induction mark generalizing text with
  | nil => rfl
  | cons m mark ih =>
      cases text with
      | nil => rfl
      | cons c text =>
          by_cases hc : c = '\n'
          · subst hc
            rw [crlf_newline, after?, after?, if_neg h.head_ne.1, if_neg h.head_ne.2]
            rfl
          · rw [crlf_cons hc, after?, after?]
            split
            · exact ih h.tail text
            · rfl

theorem isPrefixOf_crlf (h : InLine mark) (text : List Char) :
    mark.isPrefixOf (crlf text) = mark.isPrefixOf text := by
  induction mark generalizing text with
  | nil => rfl
  | cons m mark ih =>
      cases text with
      | nil => rfl
      | cons c text =>
          by_cases hc : c = '\n'
          · subst hc
            rw [crlf_newline, List.isPrefixOf, List.isPrefixOf, beq_false_of_ne h.head_ne.1,
              beq_false_of_ne h.head_ne.2]
            rfl
          · rw [crlf_cons hc, List.isPrefixOf, List.isPrefixOf, ih h.tail]

theorem before?_crlf (h : InLine (c :: mark)) (text : List Char) :
    before? (c :: mark) (crlf text) = (before? (c :: mark) text).map crlf := by
  induction text with
  | nil => rfl
  | cons d text ih =>
      by_cases hd : d = '\n'
      · subst hd
        have hnot (e : Char) (he : c ≠ e) (rest : List Char) :
            ¬ (c :: mark).isPrefixOf (e :: rest) = true := by simp [List.isPrefixOf, he]
        rw [crlf_newline, before?, before?, before?, if_neg (hnot _ h.head_ne.1 _),
          if_neg (hnot _ h.head_ne.2 _), if_neg (hnot _ h.head_ne.2 _), ih]
        cases before? (c :: mark) text <;> rfl
      · rw [crlf_cons hd, before?, before?, ← crlf_cons hd, isPrefixOf_crlf h, ih]
        split
        · rfl
        · cases before? (c :: mark) text with
          | none => rfl
          | some body => exact congrArg some (crlf_cons hd body).symm

end Text

open Text (crlf)

namespace Link

theorem upTo?_crlf {close : Char} (h : close ≠ '\r' ∧ close ≠ '\n') (text : List Char) :
    upTo? close (crlf text) = (upTo? close text).map (Prod.map id crlf) := by
  induction text with
  | nil => rfl
  | cons c text ih =>
      by_cases hc : c = '\n'
      · subst hc
        rw [Text.crlf_newline, upTo?, if_neg h.1.symm, if_neg (by decide), upTo?, if_neg h.2.symm,
          if_pos rfl, upTo?, if_neg h.2.symm, if_pos rfl]
        rfl
      · rw [Text.crlf_cons hc, upTo?, upTo?, if_neg hc, if_neg hc, ih]
        split
        · rfl
        · cases upTo? close text <;> rfl

/-- A link stands on one line. -/
theorem read?_crlf (text : List Char) :
    read? (crlf text) = (read? text).map (Prod.map id crlf) := by
  have hslashes := Text.after?_crlf (by decide : Text.InLine ['/', '/'])
  have hbracket := Text.after?_crlf (by decide : Text.InLine ['['])
  have hparenthesis := Text.after?_crlf (by decide : Text.InLine ['('])
  have hclose := upTo?_crlf (by decide : ']' ≠ '\r' ∧ ']' ≠ '\n')
  have hend := upTo?_crlf (by decide : ')' ≠ '\r' ∧ ')' ≠ '\n')
  have hblank := Text.dropWhile_crlf (rfl : Text.isInlineBlank '\r' = Text.isInlineBlank '\n')
  -- The same parts are asked for in the same order, and the rest of each is passed on.
  simp only [read?, hslashes, hbracket, hparenthesis, hclose, hend, hblank, Option.bind_eq_bind,
    Option.bind_map, Option.map_bind, Function.comp_def, Prod.map_fst, Prod.map_snd, id,
    apply_ite (Option.map (Prod.map id crlf)), Option.map_none, Option.map_some, Prod.map_apply]

end Link

/-! ## The cut of a text with other line ends -/

/-- The content of a directive with other line ends in it. -/
def Token.Content.crlf : Token.Content → Token.Content
  | .variable expression => .variable (String.ofList (Text.crlf expression.toList))
  | .control statement => .control (String.ofList (Text.crlf statement.toList))
  | content => content

namespace Scan

variable {mode : Mode} {c : Char} {rest text : List Char} {marks : List Mark}

def Find.crlf : Find → Find
  | .directive content raw => .directive content.crlf (Text.crlf raw)
  | found => found

def Mark.crlf : Mark → List Mark
  | .char c => (Text.lineEnd c).map .char
  | .directive content raw => [.directive content.crlf (Text.crlf raw)]

namespace Bracket

variable (b : Bracket)

theorem content_crlf (body : List Char) : b.content (crlf body) = (b.content body).crlf := by
  cases b <;> simp [content, Token.Content.crlf, Text.trim_crlf]

theorem opening_crlf : crlf b.opening = b.opening := by cases b <;> rfl

theorem closing_crlf : crlf b.closing = b.closing := by cases b <;> rfl

theorem ne_newline {b : Bracket} {o : Char} (h : b.opening = ['\x7b', o]) : o ≠ '\n' := by
  cases b <;> (cases h; decide)

theorem before?_closing_crlf (text : List Char) :
    Text.before? b.closing (crlf text) = (Text.before? b.closing text).map crlf := by
  cases b <;> exact Text.before?_crlf (by decide) text

theorem at?_crlf (text : List Char) : at? (crlf text) = at? text := by
  rw [at?, at?, Text.isPrefixOf_crlf (by decide), Text.isPrefixOf_crlf (by decide)]

end Bracket

theorem Mode.next_crlf (mode : Mode) (c : Char) (rest : List Char) :
    mode.next c (crlf rest) = mode.next c rest := by
  have hstar := Text.head?_crlf (by decide : '*' ≠ '\r' ∧ '*' ≠ '\n') rest
  have hslash := Text.head?_crlf (by decide : '/' ≠ '\r' ∧ '/' ≠ '\n') rest
  cases mode <;> simp only [Mode.next, hstar, hslash]

/-- What the scanner finds in front of other line ends. -/
theorem find_crlf (hc : c ≠ '\n') (mode : Mode) (rest : List Char) :
    find mode c (crlf rest) = (find mode c rest).crlf := by
  rcases find_cases mode c rest with
    hfind | ⟨content, raw, after, hfind, -⟩ | ⟨bracket, hfind, -⟩
  · rw [hfind]
    obtain ⟨hat, hread, -⟩ := find_eq_literal_iff.mp hfind
    refine find_eq_literal_iff.mpr ⟨fun hsees => ?_, fun hplain => ?_, mode.next_crlf c rest⟩
    · rw [← Text.crlf_cons hc, Bracket.at?_crlf, hat hsees]
    · rw [← Text.crlf_cons hc, Link.read?_crlf, hread hplain]
      rfl
  · rw [hfind]
    refine find_eq_directive_iff.mpr ((find_eq_directive_iff.mp hfind).imp ?_ ?_)
    · rintro ⟨hsees, b, body, hat, hbody, rfl, hraw⟩
      obtain ⟨o, tail, hopening, htext⟩ := Bracket.eq_of_at? hat
      obtain ⟨rfl, rfl⟩ := List.cons.inj htext
      refine ⟨hsees, b, crlf body, ?_, ?_, (b.content_crlf body).symm, ?_⟩
      · rw [← Text.crlf_cons hc, Bracket.at?_crlf, hat]
      · rw [Text.crlf_cons (Bracket.ne_newline hopening), List.drop_succ_cons, List.drop_zero,
          b.before?_closing_crlf]
        exact congrArg (Option.map crlf) hbody
      · rw [hraw, Text.crlf_append, Text.crlf_append, b.opening_crlf, b.closing_crlf]
    · rintro ⟨hplain, hat, link, after, hraw, htext, rfl⟩
      refine ⟨hplain, ?_, link, crlf after, ?_, ?_, rfl⟩
      · rw [← Text.crlf_cons hc, Bracket.at?_crlf, hat]
      · rwa [Text.crlf_of_not_mem hraw.newline_not_mem]
      · rw [← Text.crlf_cons hc, htext, Text.crlf_append]
  · rw [hfind]
    obtain ⟨hsees, hat, hbody⟩ := find_eq_unclosed_iff.mp hfind
    obtain ⟨o, tail, hopening, htext⟩ := Bracket.eq_of_at? hat
    obtain ⟨rfl, rfl⟩ := List.cons.inj htext
    refine find_eq_unclosed_iff.mpr ⟨hsees, ?_, ?_⟩
    · rw [← Text.crlf_cons hc, Bracket.at?_crlf, hat]
    · rw [Text.crlf_cons (Bracket.ne_newline hopening), List.drop_succ_cons, List.drop_zero,
        bracket.before?_closing_crlf]
      exact congrArg (Option.map crlf) hbody

/-- Behind a carriage return and a newline the mode is as behind the newline. -/
theorem Mode.next_newline (mode : Mode) (rest rest' : List Char) :
    (mode.next '\r' ('\n' :: rest')).next '\n' rest' = mode.next '\n' rest := by
  cases mode <;> simp [Mode.next]

/-- What is cut from a text with other line ends is what is cut from the text, with other line
ends. -/
theorem cut_crlf (mode : Mode) (text : List Char) :
    cut mode 0 (crlf text) =
      ⟨(cut mode 0 text).marks.flatMap Mark.crlf, (cut mode 0 text).unclosed⟩ := by
  induction hlength : text.length using Nat.strong_induction_on generalizing mode text with
  | _ n ih =>
  subst hlength
  cases text with
  | nil => rfl
  | cons c rest =>
  by_cases hc : c = '\n'
  · subst hc
    have hfind (mode : Mode) (d : Char) (hd : d ≠ '\x7b' ∧ d ≠ '/') (rest : List Char) :
        find mode d rest = .literal (mode.next d rest) := find_of_ne_brace hd.1 (fun _ => hd.2) rest
    rw [Text.crlf_newline, cut, hfind mode '\r' (by decide)]
    dsimp only
    rw [cut, hfind _ '\n' (by decide)]
    dsimp only
    rw [Mode.next_newline mode rest, ih _ (Nat.lt_succ_self _) (mode.next '\n' rest) rest rfl, cut,
      hfind mode '\n' (by decide)]
    rfl
  · have hcrlf := find_crlf hc mode rest
    cases hfind : find mode c rest with
    | literal next =>
        rw [hfind] at hcrlf
        rw [Text.crlf_cons hc, cut, hcrlf, cut, hfind]
        dsimp only [Find.crlf]
        rw [ih _ (Nat.lt_succ_self _) next rest rfl, List.flatMap_cons, Mark.crlf, Text.lineEnd,
          if_neg hc]
        rfl
    | directive content raw =>
        rw [hfind] at hcrlf
        obtain ⟨second, htext, hne, -, hcut⟩ := cut_directive hfind
        obtain ⟨second', htext', -, -, hcut'⟩ := cut_directive hcrlf
        -- What follows the directive is what follows it in the text.
        obtain rfl : second' = crlf second := by
          rw [← Text.crlf_cons hc, htext, Text.crlf_append] at htext'
          exact (List.append_cancel_left htext').symm
        have hshorter : second.length < (c :: rest).length := by
          rw [htext, List.length_append]
          have := List.length_pos_of_ne_nil hne
          omega
        rw [Text.crlf_cons hc, hcut', hcut, ih _ hshorter mode second rfl]
        rfl
    | unclosed b =>
        rw [hfind] at hcrlf
        rw [Text.crlf_cons hc, cut, hcrlf, cut, hfind]
        rfl

theorem Mark.countP_crlf {kind : TokenKind} (h : kind ≠ .literal) (mark : Mark) :
    mark.crlf.countP (·.kind == kind) = [mark].countP (·.kind == kind) := by
  cases mark with
  | char c =>
      rw [crlf, Text.lineEnd]
      split <;> simp [Mark.kind, Ne.symm h]
  | directive content raw => cases content <;> rfl

/-- As many directives of a kind are cut from a text with other line ends. -/
theorem countP_crlf {kind : TokenKind} (h : kind ≠ .literal) (marks : List Mark) :
    (marks.flatMap Mark.crlf).countP (·.kind == kind) = marks.countP (·.kind == kind) := by
  induction marks with
  | nil => rfl
  | cons mark marks ih =>
      rw [List.flatMap_cons, List.countP_append, mark.countP_crlf h, ih, ← List.countP_append]
      rfl

theorem chars_crlf (marks : List Mark) :
    (marks.flatMap Mark.crlf).flatMap Mark.chars = crlf (marks.flatMap Mark.chars) := by
  induction marks with
  | nil => rfl
  | cons mark marks ih =>
      rw [List.flatMap_cons, List.flatMap_append, ih, List.flatMap_cons, Text.crlf_append]
      refine congrArg (· ++ _) ?_
      cases mark with
      | char c =>
          rw [Mark.crlf, Mark.chars, crlf, List.flatMap_singleton, Text.lineEnd]
          split <;> rfl
      | directive content raw => exact List.append_nil _

end Scan

/-! ## Rows and columns -/

namespace Location

/-- A location without its offset, as people are shown it. -/
def shown (l : Location) : Location := ⟨0, l.row, l.column⟩

variable {l l' : Location}

theorem shown_eq_iff : l'.shown = l.shown ↔ l'.row = l.row ∧ l'.column = l.column := by
  simp [shown]

theorem shown_advance (h : l'.shown = l.shown) (c : Char) :
    (l'.advance c).shown = (l.advance c).shown := by
  obtain ⟨hrow, hcolumn⟩ := shown_eq_iff.mp h
  rw [shown_eq_iff, advance, advance]
  split
  · exact ⟨congrArg (· + 1) hrow, rfl⟩
  · exact ⟨hrow, congrArg (· + 1) hcolumn⟩

theorem shown_advanceOver (h : l'.shown = l.shown) (text : List Char) :
    (l'.advanceOver text).shown = (l.advanceOver text).shown := by
  induction text generalizing l l' with
  | nil => exact h
  | cons c text ih => exact ih (shown_advance h c)

/-- A newline ends its row whatever the column, so that a carriage return before it does not
matter. -/
theorem shown_advance_newline (h : l'.shown = l.shown) :
    ((l'.advance '\r').advance '\n').shown = (l.advance '\n').shown :=
  shown_eq_iff.mpr ⟨congrArg (· + 1) (shown_eq_iff.mp h).1, rfl⟩

theorem shown_advanceOver_crlf (h : l'.shown = l.shown) (text : List Char) :
    (l'.advanceOver (crlf text)).shown = (l.advanceOver text).shown := by
  induction text generalizing l l' with
  | nil => exact h
  | cons c text ih =>
      by_cases hc : c = '\n'
      · subst hc
        exact ih (shown_advance_newline h)
      · rw [Text.crlf_cons hc]
        exact ih (shown_advance h c)

theorem keepsShown_shown : KeepsShown shown := fun _ => ⟨rfl, rfl⟩

end Location

/-- Whether atoms are shown like others, but for a carriage return in front of each newline. -/
inductive Atom.Crlf : List Atom → List Atom → Prop
  | nil : Crlf [] []
  | same {a a' : Atom} {atoms atoms' : List Atom} (h : a'.relocate .shown = a.relocate .shown)
      (later : Crlf atoms atoms') : Crlf (a :: atoms) (a' :: atoms')
  | newline (place cr lf : Location) {atoms atoms' : List Atom}
      (later : Crlf atoms atoms') :
      Crlf (.char place '\n' :: atoms) (.char cr '\r' :: .char lf '\n' :: atoms')

theorem Atom.Crlf.directives {atoms atoms' : List Atom} (h : Atom.Crlf atoms atoms') :
    (atoms'.filterMap Atom.directive?).map (Directive.relocate .shown) =
      (atoms.filterMap Atom.directive?).map (Directive.relocate .shown) := by
  induction h with
  | nil => rfl
  | @same a a' _ _ h _ ih =>
      have hdirective : (Atom.directive? a').map (Directive.relocate .shown) =
          (Atom.directive? a).map (Directive.relocate .shown) := by
        have hrelocate (a : Atom) : (Atom.directive? a).map (Directive.relocate .shown) =
            Atom.directive? (a.relocate .shown) := by cases a <;> rfl
        rw [hrelocate, hrelocate, h]
      rw [List.filterMap_cons, List.filterMap_cons]
      cases hd : Atom.directive? a <;> cases hd' : Atom.directive? a' <;> rw [hd, hd'] at hdirective
      · exact ih
      · cases hdirective
      · cases hdirective
      · rw [List.map_cons, List.map_cons, ih]
        exact congrArg (· :: _) (Option.some.inj hdirective)
  | newline _ _ _ _ ih => exact ih

namespace Scan

variable {mode : Mode} {content : Token.Content} {raw text : List Char} {marks : List Mark}

/-- Whether a mark gives no directive, or gives one that stays as it is with other line ends. -/
def Mark.InLine : Mark → Prop
  | .char _ | .directive (.control _) _ => True
  | .directive .literal _ => False
  | .directive content raw => content.crlf = content ∧ Text.crlf raw = raw

theorem inLine_of_mem_cut {n : Nat} {mark : Mark} (hmem : mark ∈ (cut mode n text).marks)
    (h : ∀ expression raw, mark = .directive (.variable expression) raw → '\n' ∉ raw) :
    mark.InLine := by
  cases mark with
  | char c => exact trivial
  | directive content raw =>
      obtain ⟨mode, c, rest, hfind⟩ := exists_find_of_mem_cut hmem
      rcases find_eq_directive_iff.mp hfind with
        ⟨-, b, body, -, -, rfl, rfl⟩ | ⟨-, -, link, after, hraw, -, rfl⟩
      · cases b with
        | control => exact trivial
        | «variable» =>
            have hline := h _ _ rfl
            have hbody : '\n' ∉ body := fun hin => hline (by simp [hin])
            refine ⟨?_, Text.crlf_of_not_mem hline⟩
            rw [← Bracket.content_crlf, Text.crlf_of_not_mem hbody]
      · exact ⟨rfl, Text.crlf_of_not_mem hraw.newline_not_mem⟩

/-- The atoms of marks with other line ends, from where the same is shown. -/
theorem Spot.crlf_atoms {place place' : Location} (hplace : place'.shown = place.shown) (n : Nat)
    (pending : Bool) (h : ∀ mark ∈ marks, mark.InLine) :
    Atom.Crlf (atoms ⟨n, pending, place⟩ marks)
      (atoms ⟨n, pending, place'⟩ (marks.flatMap Mark.crlf)) := by
  induction marks generalizing n pending place place' with
  | nil => exact .nil
  | cons mark marks ih =>
      obtain ⟨hmark, hlater⟩ := List.forall_mem_cons.mp h
      have hrange (raw : List Char) : (Range.mk place' (place'.advanceOver raw)).relocate .shown =
          (Range.mk place (place.advanceOver raw)).relocate .shown :=
        congrArg₂ Range.mk hplace (Location.shown_advanceOver hplace raw)
      cases mark with
      | char c =>
          rw [List.flatMap_cons, Mark.crlf, Text.lineEnd]
          split
          · next hc =>
              subst hc
              exact .newline _ _ _ (ih (Location.shown_advance_newline hplace) n true hlater)
          · exact .same (congrArg (Atom.char · c) hplace)
              (ih (Location.shown_advance hplace c) n true hlater)
      | directive content raw =>
          have hsame := ih (Location.shown_advanceOver hplace raw) (free ⟨n, pending, place⟩ + 1)
            false hlater
          rw [List.flatMap_cons, Mark.crlf]
          cases content with
          | literal => exact hmark.elim
          | control statement =>
              exact .same rfl (ih (Location.shown_advanceOver_crlf hplace raw) _ false hlater)
          | «variable» expression =>
              rw [hmark.1, hmark.2]
              exact .same (congrArg (fun r => Atom.directive ⟨_, .variable expression, _, r⟩)
                (hrange raw)) hsame
          | link link =>
              rw [hmark.1, hmark.2]
              exact .same (congrArg (fun r => Atom.directive ⟨_, .link link, _, r⟩) (hrange raw))
                hsame

end Scan

/-! ## The reader at a line end -/

namespace Lexeme.Reading

/-- Behind a carriage return and a newline the reader has come to where it comes to behind the
newline, and has given the same, if it is in no string. -/
theorem step_newline (r : Reading) (place cr lf : Location) :
    (∃ begin pieces at' fault, r.step (.char place '\n') = breakOff begin pieces at' fault) ∨
      (((r.step (.char cr '\r')).1.step (.char lf '\n')).1 =
          (r.step (.char place '\n')).1 ∧
        (r.step (.char cr '\r')).2 ++
            ((r.step (.char cr '\r')).1.step (.char lf '\n')).2 =
          (r.step (.char place '\n')).2) := by
  have hdigit (e : Escape) (at' : Location) (chars : List Char) :
      digit e at' chars '\n' = badEscape e at' := by
    have hhex : Json.Reader.hexDigit? '\n' = none := rfl
    rw [digit.eq_def]
    split
    · next c₃ c₂ c₁ =>
        have hnone : Json.Reader.hex4? c₁ c₂ c₃ '\n' = none := by simp [Json.Reader.hex4?, hhex]
        rw [hnone]
    · rfl
  cases r with
  | between | slash | lineComment | blockComment | blockStar | number | word | stopped =>
      exact Or.inr ⟨rfl, rfl⟩
  | text | escape | digitsMissing | pairBackslash | pairLetter => exact Or.inl ⟨_, _, _, _, rfl⟩
  | digits e first chars => exact Or.inl ⟨_, _, _, _, hdigit e first chars⟩
  | noDigits e => exact Or.inl ⟨_, _, _, _, hdigit e place []⟩

end Lexeme.Reading

/-! ## Drafts -/

namespace Draft

namespace Cursor

variable {f : Location → Location} {k k' : Cursor} {atoms atoms' : List Atom}

theorem Failed.step (h : k.Failed) (a : Atom) : (k.step a).Failed := by
  obtain ⟨draft, hdraft⟩ := h
  refine ⟨draft, ?_⟩
  show (k.reading.step a).2.foldl Builder.step k.builder = _
  rw [hdraft, Builder.foldl_step_stopped]

theorem Failed.foldl (h : k.Failed) (atoms : List Atom) : (atoms.foldl Cursor.step k).Failed :=
  List.foldlRecOn (motive := Failed) atoms Cursor.step h fun _ hk a _ => hk.step a

theorem failed_relocate : (k.relocate f).Failed ↔ k.Failed := by
  obtain ⟨reading, builder⟩ := k
  constructor
  · rintro ⟨draft, hdraft⟩
    cases builder with
    | stopped draft => exact ⟨draft, rfl⟩
    | _ => cases hdraft
  · rintro ⟨draft, rfl⟩
    exact ⟨draft.relocate f, rfl⟩

theorem step_newline (k : Cursor) (place cr lf : Location)
    (h : ¬ (k.step (.char place '\n')).Failed) :
    (k.step (.char cr '\r')).step (.char lf '\n') = k.step (.char place '\n') := by
  rcases k.reading.step_newline place cr lf with
    ⟨begin, pieces, at', fault, hbroken⟩ | ⟨hreading, hlexemes⟩
  · obtain ⟨draft, hdraft⟩ := Builder.step_brokenText k.builder begin pieces.reverse at' fault
    refine absurd ⟨draft, ?_⟩ h
    rw [step, hbroken]
    exact hdraft
  · have hstep (k : Cursor) (a : Atom) : k.step a =
        ⟨(k.reading.step a).1, (k.reading.step a).2.foldl Builder.step k.builder⟩ := rfl
    rw [hstep, hstep k, hstep k, ← hreading, ← hlexemes, List.foldl_append]

/-- Behind other line ends a cursor is where it is behind the newlines, if there is no fault. -/
theorem relocate_foldl_crlf (h : Atom.Crlf atoms atoms')
    (hk : k'.relocate .shown = k.relocate .shown) (hend : ¬ (atoms.foldl step k).Failed) :
    (atoms'.foldl step k').relocate .shown = (atoms.foldl step k).relocate .shown := by
  induction h generalizing k k' with
  | nil => exact hk
  | @same a a' _ _ ha _ ih =>
      refine ih ?_ hend
      rw [← step_relocate, ← step_relocate, hk, ha]
  | @newline place cr lf atoms _ _ ih =>
      have hsame : (k'.step (.char place '\n')).relocate .shown =
          (k.step (.char place '\n')).relocate .shown := by
        rw [← step_relocate, ← step_relocate, hk]
      have hgoes : ¬ (k'.step (.char place '\n')).Failed := by
        rw [← failed_relocate (f := .shown), hsame, failed_relocate]
        exact fun hfailed => hend (hfailed.foldl atoms)
      rw [List.foldl_cons, List.foldl_cons, k'.step_newline place cr lf hgoes]
      exact ih hsame hend

end Cursor

theorem relocate_ofTokens_crlf {tokens tokens' : List Token}
    (h : Atom.Crlf (Atom.ofTokens 0 tokens) (Atom.ofTokens 0 tokens'))
    (hlast : (endOfTokens tokens').shown = (endOfTokens tokens).shown)
    (hfault : (ofTokens tokens).fault = none) :
    (ofTokens tokens').relocate .shown = (ofTokens tokens).relocate .shown := by
  have hend : ¬ (Cursor.after (Atom.ofTokens 0 tokens)).Failed := by
    rintro ⟨draft, hdraft⟩
    obtain ⟨rfl, hsome⟩ := Cursor.ofTokens_of_failed (List.append_nil _).symm hdraft
    rw [hfault] at hsome
    cases hsome
  have hcursor : (Cursor.after (Atom.ofTokens 0 tokens')).relocate .shown =
      (Cursor.after (Atom.ofTokens 0 tokens)).relocate .shown :=
    Cursor.relocate_foldl_crlf h rfl hend
  rw [← Cursor.finish_after, ← Cursor.finish_after, ← Cursor.finish_relocate,
    ← Cursor.finish_relocate, hcursor, hlast]

end Draft

/-! ## Texts -/

namespace Scan

/-- Whether a text has no variable that goes over the end of a line. -/
def VariablesInLine (text : String) : Prop :=
  ∀ t ∈ (ofText text).tokens, t.kind = .variable → '\n' ∉ t.raw.toList

instance (text : String) : Decidable (VariablesInLine text) :=
  inferInstanceAs (Decidable (∀ t ∈ (ofText text).tokens, t.kind = .variable → '\n' ∉ t.raw.toList))

/-- Whether a text is scanned to the end and is shown like another one: it has the same directives
and comes to the same draft, in the same rows and columns. -/
structure ShownLike (text text' : String) : Prop where
  scan : (ofText text').error = none
  directives : (Directive.ofTokens 0 (ofText text').tokens).map (Directive.relocate .shown) =
    (Directive.ofTokens 0 (ofText text).tokens).map (Directive.relocate .shown)
  draft : (Draft.ofTokens (ofText text').tokens).relocate .shown =
    (Draft.ofTokens (ofText text).tokens).relocate .shown
  counts : Setting.counts (ofText text').tokens = Setting.counts (ofText text).tokens

theorem shownLike_refl {text : String} (h : (ofText text).error = none) : ShownLike text text :=
  ⟨h, rfl, rfl, rfl⟩

/-- A text with other line ends is shown like the text, if it has no fault and no variable goes over
the end of a line. -/
theorem shownLike_crlf {text text' : String} (htext : text'.toList = crlf text.toList)
    (hscan : (ofText text).error = none)
    (hfault : (Draft.ofTokens (ofText text).tokens).fault = none) (hlines : VariablesInLine text) :
    ShownLike text text' := by
  have hcut := cut_crlf .plain text.toList
  have hmarks : ∀ mark ∈ (cut .plain 0 text.toList).marks, mark.InLine := by
    intro mark hmem
    refine inLine_of_mem_cut hmem ?_
    rintro expression raw rfl
    obtain ⟨range, hrange⟩ := exists_mem_gather hmem .start []
    have hraw := hlines _ hrange rfl
    rwa [String.toList_ofList] at hraw
  have hatoms : Atom.Crlf (Atom.ofTokens 0 (ofText text).tokens)
      (Atom.ofTokens 0 (ofText text').tokens) := by
    rw [atoms_ofText, atoms_ofText, htext, hcut]
    exact Spot.crlf_atoms rfl 0 false hmarks
  have hlast : (endOfTokens (ofText text').tokens).shown =
      (endOfTokens (ofText text).tokens).shown := by
    rw [endOfTokens_ofText, endOfTokens_ofText, htext, hcut, finish_eq, finish_eq, chars_crlf]
    exact Location.shown_advanceOver_crlf rfl _
  have hcount {kind : TokenKind} (hkind : kind ≠ .literal) :
      (ofText text').tokens.countP (·.kind == kind) =
        (ofText text).tokens.countP (·.kind == kind) := by
    have htokens (text : String) : (ofText text).tokens.countP (·.kind == kind) =
        (cut .plain 0 text.toList).marks.countP (·.kind == kind) := countP_gather hkind .start [] _
    rw [htokens, htokens, htext, hcut, countP_crlf hkind]
  refine ⟨?_, ?_, Draft.relocate_ofTokens_crlf hatoms hlast hfault, ?_⟩
  · rw [error_eq_none_iff, htext, hcut]
    exact error_eq_none_iff.mp hscan
  · rw [Directive.ofTokens_eq, Directive.ofTokens_eq]
    exact hatoms.directives
  · rw [Setting.counts, Setting.counts, hcount TokenKind.noConfusion, hcount TokenKind.noConfusion]

end Scan

end Stencil
