import Stencil.Proofs.Parsing
import Stencil.Proofs.SameTexts

/-!
# Interpolation

The inside of a string is made of runs of characters, in which escapes stand whole, of variables
and of control blocks. The reader goes over it without completing a lexeme, and so the string is
one lexeme: its pieces are the characters that the runs denote and the variables, in order. No
value is asked for. When the string is assembled the pieces have long been told apart, and its
text is the texts of the pieces, one after the other.

So what a value brings into a string is only ever text: the string can be replaced by one with all
of its text written out as characters, whatever these characters are, and the template reads as
before (`Draft.drafts_withText`).
-/

namespace Stencil

open Draft (Builder Cursor Hole)
open Json.Reader (hex4?)

/-! ## The inside of a string -/

/-- How the pieces of a string are written. A run is what could be all of a string without
directives, up to its closing quote. -/
inductive Piece.Written : List Atom → List Piece → Prop
  | done : Written [] []
  | run {text chars : List Char} {atoms : List Atom} {pieces : List Piece} (place : Location)
      (h : Grammar.Inside (text ++ ['"']) chars []) (later : Written atoms pieces) :
      Written (Atom.chars place text ++ atoms) (chars.map .char ++ pieces)
  | value {d : Directive} {atoms : List Atom} {pieces : List Piece} (h : d.isLink = false)
      (later : Written atoms pieces) : Written (.directive d :: atoms) (.variable d :: pieces)
  | gap {atoms : List Atom} {pieces : List Piece} (later : Written atoms pieces) :
      Written (.gap :: atoms) pieces

namespace Lexeme.Reading

/-- Whether a reader comes over some atoms without completing a lexeme. -/
inductive Passes : Reading → List Atom → Reading → Prop
  | here (r : Reading) : Passes r [] r
  | step {r next last : Reading} {a : Atom} {atoms : List Atom} (h : r.step a = (next, []))
      (later : Passes next atoms last) : Passes r (a :: atoms) last

variable {r next last : Reading} {first second : List Atom}

theorem Passes.append (h : Passes r first next) (h' : Passes next second last) :
    Passes r (first ++ second) last := by
  induction h with
  | here r => exact h'
  | step hstep _ ih => exact .step hstep (ih h')

theorem Passes.foldl (h : Passes r first next) (b : Builder) :
    first.foldl Cursor.step ⟨r, b⟩ = ⟨next, b⟩ := by
  induction h with
  | here r => rfl
  | @step r next last a atoms hstep _ ih =>
      have hcursor : Cursor.step ⟨r, b⟩ a = ⟨next, b⟩ := by
        simp only [Cursor.step, hstep, List.foldl_nil]
      rw [List.foldl_cons, hcursor, ih]

theorem passes_digits {a b c d : Char} {n : Nat} {e : Escape} {place : Location} {text : List Char}
    (h : hex4? a b c d = some n) (hescaped : escaped e n = (next, []))
    (later : ∀ place, Passes next (Atom.chars place text) last) :
    Passes (.noDigits e) (Atom.chars place (a :: b :: c :: d :: text)) last := by
  obtain ⟨ha, hb, hc, -⟩ := isSome_of_hex4? h
  have hfirst (p : Location) : (noDigits e).step (.char p a) = (.digits e p [a], []) := if_pos ha
  have hsecond (p q : Location) :
      (digits e p [a]).step (.char q b) = (.digits e p [b, a], []) := if_pos hb
  have hthird (p q : Location) :
      (digits e p [b, a]).step (.char q c) = (.digits e p [c, b, a], []) := if_pos hc
  have hfourth (p q : Location) : (digits e p [c, b, a]).step (.char q d) = (next, []) := by
    simp only [step, digit, h, hescaped]
  exact .step (hfirst _) (.step (hsecond _ _) (.step (hthird _ _) (.step (hfourth _ _) (later _))))

/-- The reader goes over the inside of a string as far as the closing quote. -/
theorem exists_passes_of_inside {inside chars rest : List Char}
    (h : Grammar.Inside inside chars rest) (begin : Location) :
    ∃ text, inside = text ++ '"' :: rest ∧ ∀ place pieces,
      Passes (.text begin pieces) (Atom.chars place text)
        (.text begin ((chars.map .char).reverse ++ pieces)) := by
  have hlater {c : Char} {chars : List Char} (pieces : List Piece) :
      ((c :: chars).map Piece.char).reverse ++ pieces =
        (chars.map .char).reverse ++ .char c :: pieces := by simp
  have hbackslash (place : Location) (pieces : List Piece) :
      (Reading.text begin pieces).step (.char place '\\') = (.escape begin pieces, []) := rfl
  have hu (place : Location) (pieces : List Piece) :
      (Reading.escape begin pieces).step (.char place 'u') =
        (.noDigits ⟨begin, pieces, place, none⟩, []) := rfl
  induction h with
  | close rest => exact ⟨[], rfl, fun place pieces => .here _⟩
  | @plain c inside chars rest hquote hplain hcontrol later ih =>
      obtain ⟨text, rfl, ih⟩ := ih
      refine ⟨c :: text, rfl, fun place pieces => ?_⟩
      rw [hlater]
      refine .step ?_ (ih _ _)
      rw [step, inText, if_neg hquote, if_neg hplain, if_neg (ne_newline hcontrol),
        if_neg (Nat.not_lt.mpr hcontrol)]
  | @escape e c inside chars rest hescape later ih =>
      have hsimple := Grammar.mem_escapes_iff.mp hescape
      obtain ⟨text, rfl, ih⟩ := ih
      refine ⟨'\\' :: e :: text, rfl, fun place pieces => ?_⟩
      have hnotU : e ≠ 'u' := by
        rintro rfl
        cases hsimple
      rw [hlater]
      refine .step (hbackslash _ _) (.step ?_ (ih _ _))
      rw [step, inEscape, if_neg hnotU, hsimple]
  | @code a b c d n inside chars rest hcode hscalar later ih =>
      have hcode := Grammar.code_iff.mp hcode
      obtain ⟨hhigh, hlow⟩ := Grammar.scalar_iff.mp hscalar
      obtain ⟨text, rfl, ih⟩ := ih
      refine ⟨'\\' :: 'u' :: a :: b :: c :: d :: text, rfl, fun place pieces => ?_⟩
      rw [hlater]
      refine .step (hbackslash _ _) (.step (hu _ _) (passes_digits hcode ?_ fun _ => ih _ _))
      simp only [escaped, hhigh, hlow, Bool.false_eq_true, if_false]
  | @pair a b c d a' b' c' d' high low inside chars rest hcode hhigh hcode' hlow later ih =>
      have hcode := Grammar.code_iff.mp hcode
      have hcode' := Grammar.code_iff.mp hcode'
      have hhigh := Grammar.isHighSurrogate_add hhigh
      have hlow := Grammar.isLowSurrogate_add hlow
      rw [← Grammar.pairChar_add]
      obtain ⟨text, rfl, ih⟩ := ih
      refine ⟨'\\' :: 'u' :: a :: b :: c :: d :: '\\' :: 'u' :: a' :: b' :: c' :: d' :: text, rfl,
        fun place pieces => ?_⟩
      rw [hlater]
      -- The first surrogate is kept until the second one is there.
      have hfirst (q : Location) : escaped ⟨begin, pieces, q, none⟩ (0xd800 + high) =
          (.pairBackslash ⟨begin, pieces, q, some (0xd800 + high)⟩, []) := by
        simp only [escaped, hhigh, if_true]
      have hsecond (q : Location) :
          escaped ⟨begin, pieces, q, some (0xd800 + high)⟩ (0xdc00 + low) =
            (.text begin
              (.char (Json.Reader.pairChar (0xd800 + high) (0xdc00 + low)) :: pieces), []) := by
        simp only [escaped, hlow, if_true]
      refine .step (hbackslash _ _) (.step (hu _ _) (passes_digits hcode (hfirst _) fun _ => ?_))
      exact .step rfl (.step rfl (passes_digits hcode' (hsecond _) fun _ => ih _ _))

theorem passes_written {body : List Atom} {pieces : List Piece} (h : Piece.Written body pieces)
    (begin : Location) (before : List Piece) :
    Passes (.text begin before) body (.text begin (pieces.reverse ++ before)) := by
  induction h generalizing before with
  | done => exact .here _
  | @run text chars atoms pieces place hinside later ih =>
      obtain ⟨text', htext, hpasses⟩ := exists_passes_of_inside hinside begin
      obtain rfl := List.append_cancel_right htext
      rw [List.reverse_append, List.append_assoc]
      exact (hpasses place before).append (ih _)
  | value hlink later ih =>
      rw [List.reverse_cons, List.append_assoc]
      refine .step ?_ (ih _)
      rw [step, inText, if_neg (by rw [hlink]; exact Bool.false_ne_true)]
      rfl
  | gap later ih => exact .step rfl (ih before)

end Lexeme.Reading

/-- What a piece adds to its string. A variable adds the text of a string, nothing for null, and
else its value as compact JSON. -/
def Piece.part (s : Scope) : Piece → Work (List Char)
  | .char c => return [c]
  | .variable d => do
      match ← s.resolve d with
      | (.string text, _) => return text.toList
      | (.null, _) => return []
      | (value, _) => return value.compactText

theorem Piece.assemble_eq_flatten (s : Scope) (pieces : List Piece) :
    Piece.assemble s pieces = do
      let parts ← pieces.mapM (Piece.part s)
      return parts.flatten := by
  induction pieces with
  | nil => simp [assemble]
  | cons piece pieces ih =>
      match piece with
      | .char c => simp [assemble, part, ih]
      | .variable d =>
          have hpart : part s (.variable d) = do
              let found ← s.resolve d
              return found.1.inlineText := by
            refine bind_congr fun found => ?_
            obtain ⟨value, map⟩ := found
            cases value <;> rfl
          simp [assemble, hpart, ih]

/-! ## Strings of a template -/

namespace Draft

variable {text : String} {before body later : List Atom} {place close : Location}
  {pieces : List Piece} {b : Builder}

/-- The draft that a builder comes to if it takes a plain string, made of the given characters, and
then what is left of the template. -/
def Builder.withText (b : Builder) (place : Location) (chars : List Char) (last : Location)
    (later : List Atom) : Draft :=
  ((Lexeme.ofAtoms last later).foldl step (b.step ⟨place, .text (chars.map .char)⟩)).finish last

theorem Cursor.after_text
    (hopens : Cursor.after (before ++ [.char place '"']) = ⟨.text place [], b⟩)
    (hbody : Piece.Written body pieces) (close : Location) :
    Cursor.after (before ++ .char place '"' :: (body ++ [.char close '"'])) =
      ⟨.between, b.step ⟨place, .text pieces⟩⟩ := by
  have hsplit : before ++ .char place '"' :: (body ++ [.char close '"']) =
      (before ++ [.char place '"']) ++ (body ++ [.char close '"']) := by simp
  have hclose : (Lexeme.Reading.text place pieces.reverse).step (.char close '"') =
      (.between, [⟨place, .text pieces⟩]) := by
    rw [Lexeme.Reading.step, Lexeme.Reading.inText, if_pos rfl, List.reverse_reverse]
  rw [hsplit, Cursor.after, List.foldl_append, List.foldl_append]
  show [Atom.char close '"'].foldl step
    (body.foldl step (Cursor.after (before ++ [.char place '"']))) = _
  rw [hopens, (Lexeme.Reading.passes_written hbody place []).foldl b, List.append_nil,
    List.foldl_cons, List.foldl_nil, step, hclose]
  rfl

/-- A string with what its values bring into it is the string with just that text, plain. -/
theorem drafts_withText (look : Look) (b : Builder) (place : Location) (pieces : List Piece)
    (last : Location) (later : List Atom) :
    look.Drafts
      (((Lexeme.ofAtoms last later).foldl Builder.step (b.step ⟨place, .text pieces⟩)).finish last)
      (b.withText place (Piece.read look pieces) last later) := by
  have htext : Piece.read look pieces = Piece.read look ((Piece.read look pieces).map .char) :=
    (Builder.read_chars look _).symm
  exact ((Look.builders_text b place htext).foldl _).finish last

/-- Interpolation is concatenation. A string that opens in a scanned template and is well written up
to a closing quote is read as its pieces, and reading goes on behind the quote; its text is that of
the pieces, one after the other; and what becomes of the template is what would become of it if that
text stood there as plain characters.

The text of a key is a name, and this much a rendered key may still change: it may come to be the
name of another member, and then one member is left of the two, as with names that are written
out. -/
theorem interpolation_is_concatenation
    (hatoms : Atom.ofTokens 0 (Scan.ofText text).tokens =
      before ++ .char place '"' :: (body ++ .char close '"' :: later))
    (hopens : Cursor.after (before ++ [.char place '"']) = ⟨.text place [], b⟩)
    (hbody : Piece.Written body pieces) :
    Cursor.after (before ++ .char place '"' :: (body ++ [.char close '"'])) =
        ⟨.between, b.step ⟨place, .text pieces⟩⟩ ∧
      (∀ s : Scope, Piece.assemble s pieces = do
        let parts ← pieces.mapM (Piece.part s)
        return parts.flatten) ∧
      ∀ (s : Scope) (links : List Directive),
        s.Reads ((ofTokens (Scan.ofText text).tokens).assemble s links)
          ((ofTokens (Scan.ofText text).tokens).demands links) fun look =>
            ((b.withText place (Piece.read look pieces) (endOfTokens (Scan.ofText text).tokens)
                later).read look,
              (b.withText place (Piece.read look pieces) (endOfTokens (Scan.ofText text).tokens)
                later).entries s.path look) := by
  have hcursor := Cursor.after_text hopens hbody close
  refine ⟨hcursor, fun s => Piece.assemble_eq_flatten s pieces, fun s links => ?_⟩
  have hdraft : ofTokens (Scan.ofText text).tokens =
      ((Lexeme.ofAtoms (endOfTokens (Scan.ofText text).tokens) later).foldl Builder.step
        (b.step ⟨place, .text pieces⟩)).finish (endOfTokens (Scan.ofText text).tokens) := by
    have hsplit : before ++ .char place '"' :: (body ++ .char close '"' :: later) =
        (before ++ .char place '"' :: (body ++ [.char close '"'])) ++ later := by simp
    rw [← Cursor.finish_after, hatoms, hsplit, Cursor.after, List.foldl_append]
    show (later.foldl Cursor.step (Cursor.after _)).finish _ = _
    rw [hcursor, Cursor.finish_foldl]
    rfl
  refine (reads_assemble s links _).congr fun look => ?_
  have halike := drafts_withText look b place pieces (endOfTokens (Scan.ofText text).tokens) later
  rw [← hdraft] at halike
  exact Prod.ext halike.read (halike.entries s.path)

/-! ### A string with a variable, a control block and two escapes -/

def labelText : String := "\x7b\"k\": \"x\x7b\x7b a \x7d\x7d\\n\x7b% if b %\x7d\\ud83d\\ude00\"\x7d"

def labelFront : List Atom := Atom.chars .start ['\x7b', '"', 'k', '"', ':', ' ']

def labelVariable : Directive := ⟨1, .variable "a", "\x7b\x7b a \x7d\x7d", ⟨⟨8, 0, 8⟩, ⟨15, 0, 15⟩⟩⟩

def labelBody : List Atom :=
  Atom.chars ⟨7, 0, 7⟩ ['x'] ++ .directive labelVariable ::
    (Atom.chars ⟨15, 0, 15⟩ ['\\', 'n'] ++ .gap :: (Atom.chars ⟨27, 0, 27⟩
      ['\\', 'u', 'd', '8', '3', 'd', '\\', 'u', 'd', 'e', '0', '0'] ++ []))

def labelPieces : List Piece := [.char 'x', .variable labelVariable, .char '\n', .char '😀']

theorem written_label : Piece.Written labelBody labelPieces := by
  have hplain : Grammar.Inside (['x'] ++ ['"']) ['x'] [] :=
    .plain (by decide) (by decide) (by decide) (.close [])
  have hbreak : Grammar.Inside (['\\', 'n'] ++ ['"']) ['\n'] [] :=
    .escape (by decide) (.close [])
  have hface : Grammar.Inside
      (['\\', 'u', 'd', '8', '3', 'd', '\\', 'u', 'd', 'e', '0', '0'] ++ ['"']) ['😀'] [] := by
    have hhigh : Grammar.Code 'd' '8' '3' 'd' (0xd800 + 0x3d) :=
      Grammar.code_iff.mpr (by decide)
    have hlow : Grammar.Code 'd' 'e' '0' '0' (0xdc00 + 0x200) :=
      Grammar.code_iff.mpr (by decide)
    have hpair : Char.ofNat (0x10000 + 0x3d * 0x400 + 0x200) = '😀' := by decide +kernel
    exact hpair ▸ .pair hhigh (by decide) hlow (by decide) (.close [])
  exact .run ⟨7, 0, 7⟩ hplain <| .value rfl <| .run ⟨15, 0, 15⟩ hbreak <| .gap <|
    .run ⟨27, 0, 27⟩ hface .done

/-- The text of the variable's value stands in the middle of the member's value, whatever it is. -/
theorem interpolation_is_concatenation_label :
    Atom.ofTokens 0 (Scan.ofText labelText).tokens =
        labelFront ++ .char ⟨6, 0, 6⟩ '"' :: (labelBody ++ .char ⟨39, 0, 39⟩ '"' ::
          [.char ⟨40, 0, 40⟩ '\x7d']) ∧
      Cursor.after (labelFront ++ [.char ⟨6, 0, 6⟩ '"']) =
        ⟨.text ⟨6, 0, 6⟩ [], .memberValue (.body []) .start .none ⟨1, 0, 1⟩ [.char 'k']⟩ ∧
      Piece.Written labelBody labelPieces ∧
      ∀ (s : Scope) (links : List Directive),
        s.Reads ((ofTokens (Scan.ofText labelText).tokens).assemble s links)
          ((ofTokens (Scan.ofText labelText).tokens).demands links) fun look =>
            (.object [("k", .string (String.ofList
              ('x' :: ((look labelVariable).1.inlineText ++ ['\n', '😀']))))],
            [(Pointer.root.key "k", .ofLocation s.path.text ⟨1, 0, 1⟩ .literal),
              (.root, .ofLocation s.path.text ⟨0, 0, 0⟩ .literal)]) := by
  have hatoms : Atom.ofTokens 0 (Scan.ofText labelText).tokens =
      labelFront ++ .char ⟨6, 0, 6⟩ '"' :: (labelBody ++ .char ⟨39, 0, 39⟩ '"' ::
        [.char ⟨40, 0, 40⟩ '\x7d']) := by decide +kernel
  have hopens : Cursor.after (labelFront ++ [.char ⟨6, 0, 6⟩ '"']) =
      ⟨.text ⟨6, 0, 6⟩ [], .memberValue (.body []) .start .none ⟨1, 0, 1⟩ [.char 'k']⟩ := by rfl
  refine ⟨hatoms, hopens, written_label, fun s links => ?_⟩
  obtain ⟨-, -, hreads⟩ := interpolation_is_concatenation hatoms hopens written_label
  refine (hreads s links).congr fun look => Prod.ext ?_ rfl
  show Json.object [("k", .string (String.ofList
    (Piece.read look ((Piece.read look labelPieces).map .char))))] = _
  rw [Builder.read_chars]
  rfl

end Draft

end Stencil
