import Stencil.Proofs.Cursor
import Stencil.Proofs.Reading

/-!
# Places are only carried along

The reader and the builder look at characters and directives, never at where these stand: a
location is put down where a lexeme, a value or a fault begins, and that is all. So reading a
template whose places have been changed by some function is reading the template and changing the
places afterwards, one step at a time.

A value is read off a draft without its places, and an entry of a map shows a line and a column.
-/

namespace Stencil

variable (f : Location → Location)

/-! ## Other places -/

def Range.relocate (r : Range) : Range := ⟨f r.first, f r.last⟩

def Directive.relocate (d : Directive) : Directive := { d with range := d.range.relocate f }

def Piece.relocate : Piece → Piece
  | .char c => .char c
  | .variable d => .variable (d.relocate f)

def Atom.relocate : Atom → Atom
  | .char place c => .char (f place) c
  | .gap => .gap
  | .directive d => .directive (d.relocate f)

namespace Lexeme

def Kind.relocate : Kind → Kind
  | .mark c => .mark c
  | .text pieces => .text (pieces.map (Piece.relocate f))
  | .number chars => .number chars
  | .word chars => .word chars
  | .directive d => .directive (d.relocate f)
  | .stray c => .stray c
  | .brokenText pieces place fault =>
      .brokenText (pieces.map (Piece.relocate f)) (f place) fault
  | .openComment => .openComment

def relocate (l : Lexeme) : Lexeme := ⟨f l.place, l.kind.relocate f⟩

def Escape.relocate (e : Escape) : Escape :=
  ⟨f e.start, e.pieces.map (Piece.relocate f), f e.letter, e.high⟩

def Reading.relocate : Reading → Reading
  | .between => .between
  | .slash start => .slash (f start)
  | .lineComment => .lineComment
  | .blockComment start => .blockComment (f start)
  | .blockStar start => .blockStar (f start)
  | .text start pieces => .text (f start) (pieces.map (Piece.relocate f))
  | .escape start pieces => .escape (f start) (pieces.map (Piece.relocate f))
  | .digits e place chars => .digits (e.relocate f) (f place) chars
  | .noDigits e => .noDigits (e.relocate f)
  | .digitsMissing e => .digitsMissing (e.relocate f)
  | .pairBackslash e => .pairBackslash (e.relocate f)
  | .pairLetter e => .pairLetter (e.relocate f)
  | .number start chars => .number (f start) chars
  | .word start chars => .word (f start) chars
  | .stopped => .stopped

end Lexeme

mutual

def Node.relocate : Node → Node
  | .scalar value => .scalar value
  | .text pieces => .text (pieces.map (Piece.relocate f))
  | .directive d => .directive (d.relocate f)
  | .array elements => .array elements.relocate
  | .object members => .object members.relocate
  | .broken pieces => .broken (pieces.map (Piece.relocate f))

def Elements.relocate : Elements → Elements
  | .none => .none
  | .add earlier place node => .add earlier.relocate (f place) node.relocate

def Members.relocate : Members → Members
  | .none => .none
  | .add earlier place key node =>
      .add earlier.relocate (f place) (key.map (Piece.relocate f)) node.relocate
  | .spread earlier d => .spread earlier.relocate (d.relocate f)

end

def FaultAt.relocate (fault : FaultAt) : FaultAt := ⟨f fault.place, fault.fault⟩

namespace Draft

def relocate (draft : Draft) : Draft :=
  ⟨draft.leading.map (Directive.relocate f),
    draft.body.map fun body => (f body.1, body.2.relocate f),
    draft.trailing.map (Directive.relocate f), draft.fault.map (FaultAt.relocate f)⟩

def Hole.relocate : Hole → Hole
  | .body leading => .body (leading.map (Directive.relocate f))
  | .element outer start earlier => .element outer.relocate (f start) (earlier.relocate f)
  | .member outer start earlier place key =>
      .member outer.relocate (f start) (earlier.relocate f) (f place)
        (key.map (Piece.relocate f))

def Builder.relocate : Builder → Builder
  | .body leading => .body (leading.map (Directive.relocate f))
  | .element outer start earlier => .element (outer.relocate f) (f start) (earlier.relocate f)
  | .afterElement outer start earlier =>
      .afterElement (outer.relocate f) (f start) (earlier.relocate f)
  | .member outer start earlier => .member (outer.relocate f) (f start) (earlier.relocate f)
  | .afterMember outer start earlier =>
      .afterMember (outer.relocate f) (f start) (earlier.relocate f)
  | .afterLink outer start earlier => .afterLink (outer.relocate f) (f start) (earlier.relocate f)
  | .colon outer start earlier place key =>
      .colon (outer.relocate f) (f start) (earlier.relocate f) (f place)
        (key.map (Piece.relocate f))
  | .memberValue outer start earlier place key =>
      .memberValue (outer.relocate f) (f start) (earlier.relocate f) (f place)
        (key.map (Piece.relocate f))
  | .finished leading start value trailing =>
      .finished (leading.map (Directive.relocate f)) (f start) (value.relocate f)
        (trailing.map (Directive.relocate f))
  | .stopped draft => .stopped (draft.relocate f)

def Cursor.relocate (k : Cursor) : Cursor := ⟨k.reading.relocate f, k.builder.relocate f⟩

end Draft

variable {f}

theorem Directive.meaning_eq_of_relocate {d d' : Directive} (h : d'.relocate f = d.relocate f) :
    d'.meaning = d.meaning := (congrArg Directive.meaning h :)

theorem Directive.number_eq_of_relocate {d d' : Directive} (h : d'.relocate f = d.relocate f) :
    d'.number = d.number := (congrArg Directive.number h :)

theorem Directive.isLink_relocate (d : Directive) : (d.relocate f).isLink = d.isLink := rfl

/-! ## The reader -/

namespace Lexeme.Reading

variable {r : Reading} {e : Escape}

/-- What a step of the reader gives, at other places. -/
def relocateStep (f : Location → Location) (next : Reading × List Lexeme) :
    Reading × List Lexeme :=
  (next.1.relocate f, next.2.map (Lexeme.relocate f))

theorem breakOff_relocate (begin : Location) (pieces : List Piece) (place : Location)
    (fault : Fault) :
    breakOff (f begin) (pieces.map (Piece.relocate f)) (f place) fault =
      relocateStep f (breakOff begin pieces place fault) := by
  simp [breakOff, relocateStep, relocate, Lexeme.relocate, Kind.relocate]

theorem badEscape_relocate (e : Escape) (place : Location) :
    badEscape (e.relocate f) (f place) = relocateStep f (badEscape e place) :=
  breakOff_relocate e.start e.pieces place .invalidUnicodeEscape

theorem escaped_relocate (e : Escape) (n : Nat) :
    escaped (e.relocate f) n = relocateStep f (escaped e n) := by
  rw [escaped, escaped, show (e.relocate f).high = e.high from rfl]
  cases e.high with
  | some high =>
      dsimp only
      split
      · rfl
      · exact badEscape_relocate e e.letter
  | none =>
      dsimp only
      split
      · rfl
      · split
        · exact badEscape_relocate e e.letter
        · rfl

theorem digit_relocate (e : Escape) (place : Location) (chars : List Char) (c : Char) :
    digit (e.relocate f) (f place) chars c = relocateStep f (digit e place chars c) := by
  rw [digit.eq_def, digit.eq_def]
  split
  · split
    · exact escaped_relocate e _
    · exact badEscape_relocate e place
  · split
    · rfl
    · exact badEscape_relocate e place

theorem start_relocate (place : Location) (c : Char) :
    start (f place) c = relocateStep f (start place c) := by
  rw [start, start]
  repeat' split
  all_goals rfl

theorem fresh_relocate (a : Atom) : fresh (a.relocate f) = relocateStep f (fresh a) := by
  cases a with
  | char place c => exact start_relocate place c
  | gap => rfl
  | directive d => rfl

theorem complete_relocate (l : Lexeme) (a : Atom) :
    complete (l.relocate f) (a.relocate f) = relocateStep f (complete l a) := by
  rw [complete, fresh_relocate]
  rfl

theorem inText_relocate (begin : Location) (pieces : List Piece) (a : Atom) :
    inText (f begin) (pieces.map (Piece.relocate f)) (a.relocate f) =
      relocateStep f (inText begin pieces a) := by
  cases a with
  | char place c =>
      simp only [inText, Atom.relocate]
      split
      · simp [relocateStep, relocate, Lexeme.relocate, Kind.relocate]
      · split
        · rfl
        · split
          · exact breakOff_relocate begin pieces begin .openString
          · split
            · exact breakOff_relocate begin pieces place (.controlCharacter c)
            · rfl
  | gap => rfl
  | directive d =>
      by_cases hlink : d.isLink = true
      · simp only [inText, Atom.relocate, Directive.isLink_relocate, hlink, if_true]
        exact breakOff_relocate begin pieces begin .openString
      · simp only [inText, Atom.relocate, Directive.isLink_relocate, hlink]
        rfl

theorem inEscape_relocate (begin : Location) (pieces : List Piece) (a : Atom) :
    inEscape (f begin) (pieces.map (Piece.relocate f)) (a.relocate f) =
      relocateStep f (inEscape begin pieces a) := by
  cases a with
  | char place c =>
      simp only [inEscape, Atom.relocate]
      split
      · rfl
      · split
        · rfl
        · exact breakOff_relocate begin pieces place (.invalidEscape c)
  | gap => rfl
  | directive d => exact breakOff_relocate begin pieces d.range.first .openEscape

/-- A step of the reader at other places is the step, at other places. -/
theorem step_relocate (r : Reading) (a : Atom) :
    (r.relocate f).step (a.relocate f) = relocateStep f (r.step a) := by
  cases r with
  | between => exact fresh_relocate a
  | slash begin =>
      cases a with
      | char place c =>
          simp only [relocate, Atom.relocate, step]
          split
          · rfl
          · split
            · rfl
            · exact complete_relocate ⟨begin, .stray '/'⟩ (.char place c)
      | gap => rfl
      | directive d => rfl
  | lineComment =>
      cases a with
      | char place c =>
          simp only [relocate, Atom.relocate, step]
          split
          · exact start_relocate place c
          · rfl
      | gap => rfl
      | directive d => rfl
  | blockComment begin =>
      cases a with
      | char place c =>
          simp only [relocate, Atom.relocate, step]
          split <;> rfl
      | gap => rfl
      | directive d => rfl
  | blockStar begin =>
      cases a with
      | char place c =>
          simp only [relocate, Atom.relocate, step]
          repeat' split
          all_goals rfl
      | gap => rfl
      | directive d => rfl
  | text begin pieces => exact inText_relocate begin pieces a
  | escape begin pieces => exact inEscape_relocate begin pieces a
  | digits e place chars =>
      cases a with
      | char _ c => exact digit_relocate e place chars c
      | gap => exact badEscape_relocate e place
      | directive d => exact badEscape_relocate e place
  | noDigits e =>
      cases a with
      | char place c => exact digit_relocate e place [] c
      | gap => rfl
      | directive d => exact badEscape_relocate e d.range.first
  | digitsMissing e =>
      cases a with
      | char place c => exact badEscape_relocate e place
      | gap => rfl
      | directive d => exact badEscape_relocate e d.range.first
  | pairBackslash e =>
      cases a with
      | char place c =>
          simp only [relocate, Atom.relocate, step]
          split
          · rfl
          · exact badEscape_relocate e e.letter
      | gap => exact badEscape_relocate e e.letter
      | directive d => exact badEscape_relocate e e.letter
  | pairLetter e =>
      cases a with
      | char place c =>
          simp only [relocate, Atom.relocate, step]
          split
          · rfl
          · exact badEscape_relocate e e.letter
      | gap => exact badEscape_relocate e e.letter
      | directive d => exact badEscape_relocate e e.letter
  | number begin chars =>
      cases a with
      | char place c =>
          simp only [relocate, Atom.relocate, step]
          split
          · rfl
          · exact complete_relocate ⟨begin, .number chars.reverse⟩ (.char place c)
      | gap => rfl
      | directive d => rfl
  | word begin chars =>
      cases a with
      | char place c =>
          simp only [relocate, Atom.relocate, step]
          split
          · rfl
          · exact complete_relocate ⟨begin, .word chars.reverse⟩ (.char place c)
      | gap => rfl
      | directive d => rfl
  | stopped => rfl

theorem finish_relocate (r : Reading) (last : Location) :
    (r.relocate f).finish (f last) = (r.finish last).map (Lexeme.relocate f) := by
  cases r with
  | text begin pieces =>
      exact congrArg Prod.snd (breakOff_relocate begin pieces begin .openString)
  | escape begin pieces =>
      exact congrArg Prod.snd (breakOff_relocate begin pieces last .openEscape)
  | noDigits e | digitsMissing e => exact congrArg Prod.snd (badEscape_relocate e last)
  | digits e place chars => exact congrArg Prod.snd (badEscape_relocate e place)
  | pairBackslash e | pairLetter e => exact congrArg Prod.snd (badEscape_relocate e e.letter)
  | between | slash | lineComment | blockComment | blockStar | number | word | stopped => rfl

end Lexeme.Reading

/-! ## The builder -/

namespace Draft

namespace Hole

theorem fill_relocate (hole : Hole) (start : Location) (value : Node) :
    (hole.relocate f).fill (f start) (value.relocate f) = (hole.fill start value).relocate f := by
  cases hole with
  | body leading => rfl
  | element outer first earlier => rfl
  | member outer first earlier place key => rfl

theorem stop_relocate (hole : Hole) (start : Location) (value : Node) (fault : FaultAt) :
    (hole.relocate f).stop (f start) (value.relocate f) (fault.relocate f) =
      (hole.stop start value fault).relocate f := by
  have hclose : (hole.relocate f).close (f start) (value.relocate f) =
      ((hole.close start value).1.map (Directive.relocate f), f (hole.close start value).2.1,
        (hole.close start value).2.2.relocate f) := by
    induction hole generalizing start value with
    | body leading => rfl
    | element outer first earlier ih => exact ih first (.array (earlier.add start value))
    | member outer first earlier place key ih =>
        exact ih first (.object (earlier.add place key value))
  rw [stop, hclose]
  rfl

end Hole

namespace Builder

variable {hole outer : Hole} {start : Location} {earlier : Members} {l : Lexeme}

theorem failValue_relocate (hole : Hole) (start : Location) (value : Node) (place : Location)
    (fault : Fault) :
    failValue (hole.relocate f) (f start) (value.relocate f) (f place) fault =
      (failValue hole start value place fault).relocate f :=
  congrArg Builder.stopped (hole.stop_relocate start value ⟨place, fault⟩)

theorem failBroken_relocate (hole : Hole) (start place : Location) (fault : Fault) :
    failValue (hole.relocate f) (f start) (.broken []) (f place) fault =
      (failValue hole start (.broken []) place fault).relocate f :=
  failValue_relocate hole start (.broken []) place fault

theorem takeValue_relocate (hole : Hole) (l : Lexeme) :
    takeValue (hole.relocate f) (l.relocate f) = (takeValue hole l).relocate f := by
  obtain ⟨place, kind⟩ := l
  cases kind with
  | mark c =>
      simp only [takeValue, Lexeme.relocate, Lexeme.Kind.relocate]
      split
      all_goals
        first
        | contradiction
        | rfl
        | exact failBroken_relocate ..
  | text pieces => exact hole.fill_relocate place (.text pieces)
  | number chars =>
      simp only [takeValue, Lexeme.relocate, Lexeme.Kind.relocate]
      split
      · exact hole.fill_relocate place (.scalar _)
      · exact failBroken_relocate ..
  | word chars =>
      simp only [takeValue, Lexeme.relocate, Lexeme.Kind.relocate]
      split
      · exact hole.fill_relocate place (.scalar _)
      · exact hole.fill_relocate place (.scalar _)
      · exact hole.fill_relocate place (.scalar _)
      · exact failBroken_relocate ..
  | directive d => exact hole.fill_relocate place (.directive d)
  | stray c => exact failBroken_relocate ..
  | brokenText pieces faultPlace fault =>
      exact failValue_relocate hole place (.broken pieces) faultPlace fault
  | openComment => exact failBroken_relocate ..

theorem takeMember_relocate (outer : Hole) (start : Location) (earlier : Members) (l : Lexeme) :
    takeMember (outer.relocate f) (f start) (earlier.relocate f) (l.relocate f) =
      (takeMember outer start earlier l).relocate f := by
  have hfail (place : Location) (fault : Fault) :=
    failValue_relocate (f := f) outer start (.object earlier) place fault
  obtain ⟨place, kind⟩ := l
  cases kind with
  | mark c =>
      simp only [takeMember, Lexeme.relocate, Lexeme.Kind.relocate]
      split
      all_goals
        first
        | contradiction
        | exact outer.fill_relocate start (.object earlier)
        | exact hfail place (.notAKey _)
  | text pieces => rfl
  | number chars =>
      simp only [takeMember, Lexeme.relocate, Lexeme.Kind.relocate]
      exact hfail place (.notAKey _)
  | word chars =>
      simp only [takeMember, Lexeme.relocate, Lexeme.Kind.relocate]
      exact hfail place (.notAKey _)
  | directive d =>
      by_cases hlink : d.isLink = true
      · simp only [takeMember, Lexeme.relocate, Lexeme.Kind.relocate, Directive.isLink_relocate,
          hlink, if_true]
        rfl
      · simp only [takeMember, Lexeme.relocate, Lexeme.Kind.relocate, Directive.isLink_relocate,
          hlink]
        rfl
  | stray c => exact hfail place (.notAKey _)
  | brokenText pieces faultPlace fault =>
      exact failValue_relocate outer start (.object (earlier.add place pieces (.broken [])))
        faultPlace fault
  | openComment => exact hfail place .openComment

/-- A step of the builder at other places is the step, at other places. -/
theorem step_relocate (b : Builder) (l : Lexeme) :
    (b.relocate f).step (l.relocate f) = (b.step l).relocate f := by
  obtain ⟨place, kind⟩ := l
  cases b with
  | body leading =>
      have hvalue := takeValue_relocate (f := f) (.body leading) ⟨place, kind⟩
      cases kind with
      | openComment => rfl
      | directive d =>
          by_cases hlink : d.isLink = true
          · simp only [step, relocate, Lexeme.relocate, Lexeme.Kind.relocate,
              Directive.isLink_relocate, hlink, if_true, List.map_append, List.map_cons,
              List.map_nil]
          · simp only [step, relocate, Lexeme.relocate, Lexeme.Kind.relocate,
              Directive.isLink_relocate, hlink]
            exact hvalue
      | mark | text | number | word | stray | brokenText => exact hvalue
  | element outer start earlier =>
      have hvalue := takeValue_relocate (f := f) (.element outer start earlier) ⟨place, kind⟩
      cases kind with
      | openComment => exact failValue_relocate outer start (.array earlier) place .openComment
      | mark c =>
          simp only [step, relocate, Lexeme.relocate, Lexeme.Kind.relocate]
          split
          all_goals
            first
            | contradiction
            | exact outer.fill_relocate start (.array earlier)
            | exact hvalue
      | directive | text | number | word | stray | brokenText => exact hvalue
  | afterElement outer start earlier =>
      have hvalue := takeValue_relocate (f := f) (.element outer start earlier) ⟨place, kind⟩
      have hfail (fault : Fault) :=
        failValue_relocate (f := f) outer start (.array earlier) place fault
      cases kind with
      | mark c =>
          simp only [step, relocate, Lexeme.relocate, Lexeme.Kind.relocate]
          split
          all_goals
            first
            | contradiction
            | rfl
            | exact outer.fill_relocate start (.array earlier)
            | exact hfail _
      | directive d =>
          by_cases hlink : d.isLink = true
          · simp only [step, relocate, Lexeme.relocate, Lexeme.Kind.relocate,
              Directive.isLink_relocate, hlink, if_true]
            exact hvalue
          · simp only [step, relocate, Lexeme.relocate, Lexeme.Kind.relocate,
              Directive.isLink_relocate, hlink]
            exact hfail _
      | text | number | word | stray | brokenText => exact hfail (.missing .commaOrBracket)
      | openComment => exact hfail .openComment
  | member outer start earlier => exact takeMember_relocate outer start earlier ⟨place, kind⟩
  | afterMember outer start earlier =>
      have hmember := takeMember_relocate (f := f) outer start earlier ⟨place, kind⟩
      have hfail (fault : Fault) :=
        failValue_relocate (f := f) outer start (.object earlier) place fault
      cases kind with
      | mark c =>
          simp only [step, relocate, Lexeme.relocate, Lexeme.Kind.relocate]
          split
          all_goals
            first
            | contradiction
            | rfl
            | exact outer.fill_relocate start (.object earlier)
            | exact hfail _
      | directive d =>
          by_cases hlink : d.isLink = true
          · simp only [step, relocate, Lexeme.relocate, Lexeme.Kind.relocate,
              Directive.isLink_relocate, hlink, if_true]
            exact hmember
          · simp only [step, relocate, Lexeme.relocate, Lexeme.Kind.relocate,
              Directive.isLink_relocate, hlink]
            exact hfail _
      | text | number | word | stray | brokenText => exact hfail (.missing .commaOrBrace)
      | openComment => exact hfail .openComment
  | afterLink outer start earlier =>
      have hmember := takeMember_relocate (f := f) outer start earlier ⟨place, kind⟩
      cases kind with
      | mark c =>
          simp only [step, relocate, Lexeme.relocate, Lexeme.Kind.relocate]
          split
          all_goals
            first
            | contradiction
            | rfl
            | exact hmember
      | directive | text | number | word | stray | brokenText | openComment => exact hmember
  | colon outer start earlier keyPlace key =>
      have hfail (fault : Fault) := failValue_relocate (f := f) outer start
        (.object (earlier.add keyPlace key (.broken []))) place fault
      cases kind with
      | mark c =>
          simp only [step, relocate, Lexeme.relocate, Lexeme.Kind.relocate]
          split
          all_goals
            first
            | contradiction
            | rfl
            | exact hfail _
      | directive | text | number | word | stray | brokenText => exact hfail (.missing .colon)
      | openComment => exact hfail .openComment
  | memberValue outer start earlier keyPlace key =>
      exact takeValue_relocate (.member outer start earlier keyPlace key) ⟨place, kind⟩
  | finished leading start value trailing =>
      cases kind with
      | directive d =>
          by_cases hlink : d.isLink = true
          · simp only [step, relocate, Lexeme.relocate, Lexeme.Kind.relocate,
              Directive.isLink_relocate, hlink, if_true, List.map_append, List.map_cons,
              List.map_nil]
          · simp only [step, relocate, Lexeme.relocate, Lexeme.Kind.relocate,
              Directive.isLink_relocate, hlink]
            rfl
      | mark | text | number | word | stray | brokenText | openComment => rfl
  | stopped draft => rfl

theorem foldl_relocate (b : Builder) (lexemes : List Lexeme) :
    (lexemes.map (Lexeme.relocate f)).foldl step (b.relocate f) =
      (lexemes.foldl step b).relocate f := by
  induction lexemes generalizing b with
  | nil => rfl
  | cons l lexemes ih =>
      rw [List.map_cons, List.foldl_cons, step_relocate, ih]
      rfl

theorem finish_relocate (b : Builder) (last : Location) :
    (b.relocate f).finish (f last) = (b.finish last).relocate f := by
  cases b with
  | element outer start earlier | afterElement outer start earlier =>
      exact outer.stop_relocate start (.array earlier) ⟨last, _⟩
  | member outer start earlier | afterMember outer start earlier
  | afterLink outer start earlier =>
      exact outer.stop_relocate start (.object earlier) ⟨last, _⟩
  | colon outer start earlier place key | memberValue outer start earlier place key =>
      exact outer.stop_relocate start (.object (earlier.add place key (.broken []))) ⟨last, _⟩
  | body | finished | stopped => rfl

end Builder

namespace Cursor

theorem step_relocate (k : Cursor) (a : Atom) :
    (k.relocate f).step (a.relocate f) = (k.step a).relocate f := by
  rw [step, show (k.relocate f).reading = k.reading.relocate f from rfl,
    Lexeme.Reading.step_relocate]
  exact congrArg (Cursor.mk _) (Builder.foldl_relocate k.builder (k.reading.step a).2)

/-- The draft at other places is the draft, at other places. -/
theorem finish_relocate (k : Cursor) (last : Location) :
    (k.relocate f).finish (f last) = (k.finish last).relocate f := by
  rw [finish, finish, show (k.relocate f).reading = k.reading.relocate f from rfl,
    Lexeme.Reading.finish_relocate]
  exact (congrArg (Builder.finish (f last)) (Builder.foldl_relocate k.builder _)).trans
    (Builder.finish_relocate _ last)

end Cursor

end Draft

/-! ## What is read and demanded -/

def Demand.relocate (f : Location → Location) : Demand → Demand
  | .value d => .value (d.relocate f)
  | .members d => .members (d.relocate f)
  | .fault found => .fault (found.relocate f)

@[simp] theorem Node.isBroken_relocate (node : Node) :
    (node.relocate f).isBroken = node.isBroken := by
  cases node <;> rfl

@[simp] theorem Node.kind_relocate (node : Node) : (node.relocate f).kind = node.kind := by
  cases node <;> rfl

theorem Piece.demands_relocate (pieces : List Piece) :
    Piece.demands (pieces.map (Piece.relocate f)) =
      (Piece.demands pieces).map (Demand.relocate f) := by
  induction pieces with
  | nil => rfl
  | cons piece pieces ih =>
      cases piece with
      | char c => exact ih
      | «variable» d => exact congrArg (_ :: ·) ih

theorem Piece.read_relocate (look : Look) (pieces : List Piece) :
    Piece.read look (pieces.map (Piece.relocate f)) =
      Piece.read (fun d => look (d.relocate f)) pieces := by
  induction pieces with
  | nil => rfl
  | cons piece pieces ih =>
      cases piece with
      | char c => exact congrArg (c :: ·) ih
      | «variable» d => exact congrArg ((look (d.relocate f)).1.inlineText ++ ·) ih

mutual

theorem Node.demands_relocate (node : Node) :
    (node.relocate f).demands = node.demands.map (Demand.relocate f) := by
  match node with
  | .scalar _ | .directive _ => rfl
  | .text pieces | .broken pieces => exact Piece.demands_relocate pieces
  | .array elements => exact Elements.demands_relocate elements
  | .object members => exact Members.demands_relocate members

theorem Elements.demands_relocate (elements : Elements) :
    (elements.relocate f).demands = elements.demands.map (Demand.relocate f) := by
  match elements with
  | .none => rfl
  | .add earlier place node =>
      rw [Elements.relocate, Elements.demands, Elements.demands, List.map_append,
        Elements.demands_relocate earlier, Node.demands_relocate node]

theorem Members.demands_relocate (members : Members) :
    (members.relocate f).demands = members.demands.map (Demand.relocate f) := by
  match members with
  | .none => rfl
  | .add earlier place key node =>
      rw [Members.relocate, Members.demands, Members.demands, List.map_append, List.map_append,
        Members.demands_relocate earlier, Piece.demands_relocate, Node.demands_relocate node]
  | .spread earlier d =>
      rw [Members.relocate, Members.demands, Members.demands, List.map_append,
        Members.demands_relocate earlier]
      rfl

end

mutual

theorem Node.read_relocate (look : Look) (node : Node) :
    (node.relocate f).read look = node.read fun d => look (d.relocate f) := by
  match node with
  | .scalar _ | .directive _ | .broken _ => rfl
  | .text pieces => exact congrArg (Json.string ∘ String.ofList) (Piece.read_relocate look pieces)
  | .array elements => exact congrArg Json.array (Elements.read_relocate look elements)
  | .object members => exact congrArg Json.object (Members.read_relocate look members)

theorem Elements.read_relocate (look : Look) (elements : Elements) :
    (elements.relocate f).read look = elements.read fun d => look (d.relocate f) := by
  match elements with
  | .none => rfl
  | .add earlier place node =>
      rw [Elements.relocate, Elements.read, Elements.read, Node.isBroken_relocate,
        Elements.read_relocate look earlier, Node.read_relocate look node]

theorem Members.read_relocate (look : Look) (members : Members) :
    (members.relocate f).read look = members.read fun d => look (d.relocate f) := by
  match members with
  | .none => rfl
  | .add earlier place key node =>
      rw [Members.relocate, Members.read, Members.read, Node.isBroken_relocate,
        Members.read_relocate look earlier, Piece.read_relocate, Node.read_relocate look node]
  | .spread earlier d =>
      rw [Members.relocate, Members.read, Members.read, Members.read_relocate look earlier]

end

/-- Whether people are shown the same of a place and of the other one. -/
def KeepsShown (f : Location → Location) : Prop :=
  ∀ l, (f l).line = l.line ∧ (f l).displayColumn = l.displayColumn

theorem Origin.ofLocation_relocate (hf : KeepsShown f) (file : String) (l : Location)
    (kind : TokenKind) : Origin.ofLocation file (f l) kind = .ofLocation file l kind := by
  rw [ofLocation, ofLocation, (hf l).1, (hf l).2]

theorem Scope.spreadEntries_relocate (hf : KeepsShown f) (path : Path) (p : Pointer)
    (d : Directive) (x : Json × Option SourceMap) :
    spreadEntries path p (d.relocate f) x = spreadEntries path p d x := by
  obtain ⟨value, map⟩ := x
  have horigin := Origin.ofLocation_relocate hf path.text d.range.first
  cases value with
  | object members =>
      cases map with
      | some map => rfl
      | none =>
          rw [spreadEntries, spreadEntries]
          exact congrArg (members.map ·) (funext fun m => congrArg (Prod.mk _) (horigin _))
  | null | bool | number | string | array => cases map <;> rfl

mutual

theorem Node.entries_relocate (hf : KeepsShown f) (path : Path) (look : Look) (p : Pointer)
    (node : Node) :
    (node.relocate f).entries path look p =
      node.entries path (fun d => look (d.relocate f)) p := by
  match node with
  | .scalar _ | .text _ | .directive _ | .broken _ => rfl
  | .array elements => exact Elements.entries_relocate hf path look p elements
  | .object members => exact Members.entries_relocate hf path look p members

theorem Elements.entries_relocate (hf : KeepsShown f) (path : Path) (look : Look) (p : Pointer)
    (elements : Elements) :
    (elements.relocate f).entries path look p =
      elements.entries path (fun d => look (d.relocate f)) p := by
  match elements with
  | .none => rfl
  | .add earlier place node =>
      simp only [Elements.relocate, Elements.entries, Node.isBroken_relocate, Node.kind_relocate,
        Elements.entries_relocate hf path look p earlier, Elements.read_relocate,
        Node.entries_relocate hf path look _ node, Origin.ofLocation_relocate hf]

theorem Members.entries_relocate (hf : KeepsShown f) (path : Path) (look : Look) (p : Pointer)
    (members : Members) :
    (members.relocate f).entries path look p =
      members.entries path (fun d => look (d.relocate f)) p := by
  match members with
  | .none => rfl
  | .add earlier place key node =>
      simp only [Members.relocate, Members.entries, Node.isBroken_relocate,
        Members.entries_relocate hf path look p earlier, Piece.read_relocate,
        Node.entries_relocate hf path look _ node, Origin.ofLocation_relocate hf]
  | .spread earlier d =>
      rw [Members.relocate, Members.entries, Members.entries,
        Members.entries_relocate hf path look p earlier, Scope.spreadEntries_relocate hf]

end

theorem Draft.entries_relocate (hf : KeepsShown f) (path : Path) (look : Look) (draft : Draft) :
    (draft.relocate f).entries path look =
      draft.entries path fun d => look (d.relocate f) := by
  obtain ⟨leading, body, trailing, fault⟩ := draft
  cases body with
  | none => rfl
  | some body =>
      obtain ⟨place, node⟩ := body
      simp only [entries, relocate, Option.map_some, Node.entries_relocate hf path,
        Node.kind_relocate, Origin.ofLocation_relocate hf]

namespace Draft

theorem read_relocate (look : Look) (draft : Draft) :
    (draft.relocate f).read look = draft.read fun d => look (d.relocate f) := by
  obtain ⟨leading, body, trailing, fault⟩ := draft
  cases body with
  | none => rfl
  | some body => exact Node.read_relocate look body.2

theorem demands_relocate (links : List Directive) (draft : Draft) :
    (draft.relocate f).demands (links.map (Directive.relocate f)) =
      (draft.demands links).map (Demand.relocate f) := by
  have hbody : (draft.relocate f).bodyDemands = draft.bodyDemands.map (Demand.relocate f) := by
    obtain ⟨leading, body, trailing, fault⟩ := draft
    cases body with
    | none => rfl
    | some body => exact Node.demands_relocate body.2
  have hvalues (directives : List Directive) :
      (directives.map (Directive.relocate f)).map Demand.value =
        (directives.map Demand.value).map (Demand.relocate f) := by
    rw [List.map_map, List.map_map]
    rfl
  have hfault : (draft.relocate f).fault.toList.map Demand.fault =
      (draft.fault.toList.map Demand.fault).map (Demand.relocate f) := by
    obtain ⟨leading, body, trailing, fault⟩ := draft
    cases fault <;> rfl
  rw [demands, demands, List.map_append, List.map_append, List.map_append, List.map_append, hbody,
    hfault, ← hvalues, ← hvalues, ← hvalues]
  rfl

end Draft

end Stencil
