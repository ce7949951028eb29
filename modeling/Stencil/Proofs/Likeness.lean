import Mathlib.Data.List.Forall2
import Stencil.Proofs.Cursor
import Stencil.Proofs.Reading

/-!
# Templates that are alike

Two templates that differ in one place are read alike everywhere else: the same lexemes
with other locations, and directives with other numbers. What is said about two such
drafts is always of one form. A directive of the one has a twin in the other, twins stand
for the same value, and the demands of the one draft are related to those of the other.
`Likeness` is the list of what is needed of the relations; the parts of drafts are alike
when they read the same and their demands are related.

A step of the reader and a step of the builder keep likeness, one case for each state.
Only the first draft must be without a fault, so a builder that has stopped is like any
other.
-/

namespace Stencil

/-- Relations between two templates: of directives, of what directives stand for, and of rows of
demands. -/
structure Likeness where
  twins : Directive → Directive → Prop
  looks : Look → Look → Prop
  rows : List Demand → List Demand → Prop
  isLink_eq {d d' : Directive} : twins d d' → d.isLink = d'.isLink
  value_eq {d d' : Directive} {look look' : Look} :
    twins d d' → looks look look' → (look d).1 = (look' d').1
  nil : rows [] []
  append {first second first' second' : List Demand} :
    rows first first' → rows second second' → rows (first ++ second) (first' ++ second')
  value {d d' : Directive} : twins d d' → rows [.value d] [.value d']
  members {d d' : Directive} : twins d d' → rows [.members d] [.members d']

namespace Likeness

variable (K : Likeness)

/-! ## Parts of drafts -/

inductive Pieces : Piece → Piece → Prop
  | char (c : Char) : Pieces (.char c) (.char c)
  | twin {d d' : Directive} (h : K.twins d d') : Pieces (.variable d) (.variable d')

/-- Whether two nodes are whole and alike. -/
structure Nodes (node node' : Node) : Prop where
  whole : node.isBroken = false
  whole' : node'.isBroken = false
  rows : K.rows node.demands node'.demands
  read {look look' : Look} : K.looks look look' → node.read look = node'.read look'

structure Rows (elements elements' : Elements) : Prop where
  rows : K.rows elements.demands elements'.demands
  read {look look' : Look} : K.looks look look' → elements.read look = elements'.read look'

structure Fields (members members' : Members) : Prop where
  rows : K.rows members.demands members'.demands
  read {look look' : Look} : K.looks look look' → members.read look = members'.read look'

variable {K} {d d' : Directive} {place place' : Location} {pieces pieces' : List Piece}
  {node node' : Node} {elements elements' : Elements} {members members' : Members}
  {look look' : Look}

theorem rows_pieces (h : List.Forall₂ K.Pieces pieces pieces') :
    K.rows (Piece.demands pieces) (Piece.demands pieces') := by
  induction h with
  | nil => exact K.nil
  | cons hpiece _ ih =>
      cases hpiece with
      | char c => exact ih
      | twin hd => exact K.append (K.value hd) ih

theorem read_pieces (h : List.Forall₂ K.Pieces pieces pieces') (hlook : K.looks look look') :
    Piece.read look pieces = Piece.read look' pieces' := by
  induction h with
  | nil => rfl
  | cons hpiece _ ih =>
      cases hpiece with
      | char c => rw [Piece.read, Piece.read, ih]
      | twin hd => rw [Piece.read, Piece.read, ih, K.value_eq hd hlook]

theorem nodes_scalar (value : Json) : K.Nodes (.scalar value) (.scalar value) :=
  ⟨rfl, rfl, K.nil, fun _ => rfl⟩

theorem nodes_text (h : List.Forall₂ K.Pieces pieces pieces') :
    K.Nodes (.text pieces) (.text pieces') :=
  ⟨rfl, rfl, rows_pieces h, fun hlook => by rw [Node.read, Node.read, read_pieces h hlook]⟩

theorem nodes_directive (h : K.twins d d') : K.Nodes (.directive d) (.directive d') :=
  ⟨rfl, rfl, K.value h, fun hlook => K.value_eq h hlook⟩

theorem nodes_array (h : K.Rows elements elements') :
    K.Nodes (.array elements) (.array elements') :=
  ⟨rfl, rfl, h.rows, fun hlook => by rw [Node.read, Node.read, h.read hlook]⟩

theorem nodes_object (h : K.Fields members members') :
    K.Nodes (.object members) (.object members') :=
  ⟨rfl, rfl, h.rows, fun hlook => by rw [Node.read, Node.read, h.read hlook]⟩

theorem rows_none : K.Rows .none .none := ⟨K.nil, fun _ => rfl⟩

theorem Rows.add (h : K.Rows elements elements') (hnode : K.Nodes node node') :
    K.Rows (elements.add place node) (elements'.add place' node') where
  rows := K.append h.rows hnode.rows
  read hlook := by
    simp only [Elements.read, hnode.whole, hnode.whole', Bool.false_eq_true, if_false,
      h.read hlook, hnode.read hlook]

theorem fields_none : K.Fields .none .none := ⟨K.nil, fun _ => rfl⟩

theorem Fields.add (h : K.Fields members members') (hkey : List.Forall₂ K.Pieces pieces pieces')
    (hnode : K.Nodes node node') :
    K.Fields (members.add place pieces node) (members'.add place' pieces' node') where
  rows := K.append h.rows (K.append (rows_pieces hkey) hnode.rows)
  read hlook := by
    simp only [Members.read, hnode.whole, hnode.whole', Bool.false_eq_true, if_false,
      h.read hlook, hnode.read hlook, read_pieces hkey hlook]

theorem Fields.spread (h : K.Fields members members') (hd : K.twins d d') :
    K.Fields (members.spread d) (members'.spread d') where
  rows := K.append h.rows (K.members hd)
  read hlook := by simp only [Members.read, h.read hlook, K.value_eq hd hlook]

/-! ## Atoms and lexemes -/

variable (K)

inductive Atoms : Atom → Atom → Prop
  | char (place place' : Location) (c : Char) : Atoms (.char place c) (.char place' c)
  | gap : Atoms .gap .gap
  | directive {d d' : Directive} (h : K.twins d d') : Atoms (.directive d) (.directive d')

/-- Whether two kinds of lexemes are alike; one that is always a fault is like any other. -/
inductive Kinds : Lexeme.Kind → Lexeme.Kind → Prop
  | mark (c : Char) : Kinds (.mark c) (.mark c)
  | text {pieces pieces' : List Piece} (h : List.Forall₂ K.Pieces pieces pieces') :
      Kinds (.text pieces) (.text pieces')
  | number (chars : List Char) : Kinds (.number chars) (.number chars)
  | word (chars : List Char) : Kinds (.word chars) (.word chars)
  | directive {d d' : Directive} (h : K.twins d d') : Kinds (.directive d) (.directive d')
  | stray (c : Char) : Kinds (.stray c) (.stray c)
  | brokenText (pieces : List Piece) (place : Location) (fault : Fault) (kind' : Lexeme.Kind) :
      Kinds (.brokenText pieces place fault) kind'
  | openComment (kind' : Lexeme.Kind) : Kinds .openComment kind'

def Lexemes (l l' : Lexeme) : Prop := K.Kinds l.kind l'.kind

/-- Whether two escapes are alike. -/
structure Escapes (e e' : Lexeme.Escape) : Prop where
  pieces : List.Forall₂ K.Pieces e.pieces e'.pieces
  high : e.high = e'.high

inductive Readings : Lexeme.Reading → Lexeme.Reading → Prop
  | between : Readings .between .between
  | slash (begin begin' : Location) : Readings (.slash begin) (.slash begin')
  | lineComment : Readings .lineComment .lineComment
  | blockComment (begin begin' : Location) : Readings (.blockComment begin) (.blockComment begin')
  | blockStar (begin begin' : Location) : Readings (.blockStar begin) (.blockStar begin')
  | text (begin begin' : Location) {pieces pieces' : List Piece}
      (h : List.Forall₂ K.Pieces pieces pieces') :
      Readings (.text begin pieces) (.text begin' pieces')
  | escape (begin begin' : Location) {pieces pieces' : List Piece}
      (h : List.Forall₂ K.Pieces pieces pieces') :
      Readings (.escape begin pieces) (.escape begin' pieces')
  | digits {e e' : Lexeme.Escape} (h : K.Escapes e e') (place place' : Location)
      (chars : List Char) : Readings (.digits e place chars) (.digits e' place' chars)
  | noDigits {e e' : Lexeme.Escape} (h : K.Escapes e e') : Readings (.noDigits e) (.noDigits e')
  | digitsMissing {e e' : Lexeme.Escape} (h : K.Escapes e e') :
      Readings (.digitsMissing e) (.digitsMissing e')
  | pairBackslash {e e' : Lexeme.Escape} (h : K.Escapes e e') :
      Readings (.pairBackslash e) (.pairBackslash e')
  | pairLetter {e e' : Lexeme.Escape} (h : K.Escapes e e') :
      Readings (.pairLetter e) (.pairLetter e')
  | number (begin begin' : Location) (chars : List Char) :
      Readings (.number begin chars) (.number begin' chars)
  | word (begin begin' : Location) (chars : List Char) :
      Readings (.word begin chars) (.word begin' chars)
  | stopped : Readings .stopped .stopped

/-- Whether two steps of readers come to like states and give like lexemes. -/
def Results (next next' : Lexeme.Reading × List Lexeme) : Prop :=
  K.Readings next.1 next'.1 ∧ List.Forall₂ K.Lexemes next.2 next'.2

/-! ## The reader -/

namespace Results

open Lexeme Lexeme.Reading

variable {K} {r r' : Reading} {e e' : Escape} {a a' : Atom}

theorem silent (h : K.Readings r r') : K.Results (r, []) (r', []) := ⟨h, .nil⟩

theorem single (h : K.Readings r r') {place place' : Location} {kind kind' : Lexeme.Kind}
    (hkind : K.Kinds kind kind') : K.Results (r, [⟨place, kind⟩]) (r', [⟨place', kind'⟩]) :=
  ⟨h, .cons hkind .nil⟩

theorem breakOff (begin begin' : Location) (pieces pieces' : List Piece) (place place' : Location)
    (fault fault' : Fault) :
    K.Results (Reading.breakOff begin pieces place fault)
      (Reading.breakOff begin' pieces' place' fault') :=
  single .stopped (.brokenText _ _ _ _)

theorem badEscape (place place' : Location) :
    K.Results (Reading.badEscape e place) (Reading.badEscape e' place') := breakOff ..

theorem escaped (h : K.Escapes e e') (n : Nat) :
    K.Results (Reading.escaped e n) (Reading.escaped e' n) := by
  rw [Reading.escaped, Reading.escaped, ← h.high]
  cases e.high with
  | some high =>
      dsimp only
      split
      · exact silent (.text _ _ (.cons (.char _) h.pieces))
      · exact badEscape _ _
  | none =>
      dsimp only
      split
      · exact silent (.pairBackslash ⟨h.pieces, rfl⟩)
      · split
        · exact badEscape _ _
        · exact silent (.text _ _ (.cons (.char _) h.pieces))

theorem digit (h : K.Escapes e e') (place place' : Location) (chars : List Char) (c : Char) :
    K.Results (Reading.digit e place chars c) (Reading.digit e' place' chars c) := by
  rw [Reading.digit.eq_def, Reading.digit.eq_def]
  split
  · split
    · exact escaped h _
    · exact badEscape _ _
  · split
    · exact silent (.digits h _ _ _)
    · exact badEscape _ _

theorem start (place place' : Location) (c : Char) :
    K.Results (Reading.start place c) (Reading.start place' c) := by
  rw [Reading.start, Reading.start]
  split
  · exact silent .between
  · split
    · exact silent (.slash _ _)
    · split
      · exact silent (.text _ _ .nil)
      · split
        · exact single .between (.mark c)
        · split
          · exact silent (.number _ _ _)
          · split
            · exact silent (.word _ _ _)
            · exact single .between (.stray c)

theorem fresh (h : K.Atoms a a') : K.Results (Reading.fresh a) (Reading.fresh a') := by
  cases h with
  | char place place' c => exact start place place' c
  | gap => exact silent .between
  | directive hd => exact single .between (.directive hd)

theorem complete (h : K.Atoms a a') {place place' : Location} {kind kind' : Lexeme.Kind}
    (hkind : K.Kinds kind kind') :
    K.Results (Reading.complete ⟨place, kind⟩ a) (Reading.complete ⟨place', kind'⟩ a') :=
  ⟨(fresh h).1, .cons hkind (fresh h).2⟩

theorem inText (h : K.Atoms a a') (begin begin' : Location) {pieces pieces' : List Piece}
    (hpieces : List.Forall₂ K.Pieces pieces pieces') :
    K.Results (Reading.inText begin pieces a) (Reading.inText begin' pieces' a') := by
  cases h with
  | char place place' c =>
      rw [Reading.inText, Reading.inText]
      split
      · exact single .between (.text (List.rel_reverse hpieces))
      · split
        · exact silent (.escape _ _ hpieces)
        · split
          · exact breakOff ..
          · split
            · exact breakOff ..
            · exact silent (.text _ _ (.cons (.char c) hpieces))
  | gap => exact silent (.text _ _ hpieces)
  | directive hd =>
      rw [Reading.inText, Reading.inText, K.isLink_eq hd]
      split
      · exact breakOff ..
      · exact silent (.text _ _ (.cons (.twin hd) hpieces))

theorem inEscape (h : K.Atoms a a') (begin begin' : Location) {pieces pieces' : List Piece}
    (hpieces : List.Forall₂ K.Pieces pieces pieces') :
    K.Results (Reading.inEscape begin pieces a) (Reading.inEscape begin' pieces' a') := by
  cases h with
  | char place place' c =>
      rw [Reading.inEscape, Reading.inEscape]
      split
      · exact silent (.noDigits ⟨hpieces, rfl⟩)
      · split
        · exact silent (.text _ _ (.cons (.char _) hpieces))
        · exact breakOff ..
  | gap => exact silent (.escape _ _ hpieces)
  | directive hd => exact breakOff ..

end Results

/-- A step of the reader keeps likeness. -/
theorem Readings.step {K : Likeness} {r r' : Lexeme.Reading} {a a' : Atom} (h : K.Readings r r')
    (ha : K.Atoms a a') : K.Results (r.step a) (r'.step a') := by
  cases h with
  | between => exact .fresh ha
  | slash begin begin' =>
      cases ha with
      | char place place' c =>
          simp only [Lexeme.Reading.step]
          split
          · exact .silent .lineComment
          · split
            · exact .silent (.blockComment _ _)
            · exact .complete (.char _ _ c) (.stray '/')
      | gap => exact .complete .gap (.stray '/')
      | directive hd => exact .complete (.directive hd) (.stray '/')
  | lineComment =>
      cases ha with
      | char place place' c =>
          simp only [Lexeme.Reading.step]
          split
          · exact .start _ _ c
          · exact .silent .lineComment
      | gap => exact .fresh .gap
      | directive hd => exact .fresh (.directive hd)
  | blockComment begin begin' =>
      cases ha with
      | char place place' c =>
          simp only [Lexeme.Reading.step]
          split
          · exact .silent (.blockStar _ _)
          · exact .silent (.blockComment _ _)
      | gap => exact .silent (.blockComment _ _)
      | directive hd => exact .silent (.blockComment _ _)
  | blockStar begin begin' =>
      cases ha with
      | char place place' c =>
          simp only [Lexeme.Reading.step]
          split
          · exact .silent .between
          · split
            · exact .silent (.blockStar _ _)
            · exact .silent (.blockComment _ _)
      | gap => exact .silent (.blockComment _ _)
      | directive hd => exact .silent (.blockComment _ _)
  | text begin begin' hpieces => exact .inText ha begin begin' hpieces
  | escape begin begin' hpieces => exact .inEscape ha begin begin' hpieces
  | digits he place place' chars =>
      cases ha with
      | char _ _ c => exact .digit he place place' chars c
      | gap => exact .badEscape place place'
      | directive hd => exact .badEscape place place'
  | noDigits he =>
      cases ha with
      | char place place' c => exact .digit he place place' [] c
      | gap => exact .silent (.digitsMissing he)
      | directive hd => exact .badEscape _ _
  | digitsMissing he =>
      cases ha with
      | char place place' c => exact .badEscape place place'
      | gap => exact .silent (.digitsMissing he)
      | directive hd => exact .badEscape _ _
  | pairBackslash he =>
      cases ha with
      | char place place' c =>
          simp only [Lexeme.Reading.step]
          split
          · exact .silent (.pairLetter he)
          · exact .badEscape _ _
      | gap => exact .badEscape _ _
      | directive hd => exact .badEscape _ _
  | pairLetter he =>
      cases ha with
      | char place place' c =>
          simp only [Lexeme.Reading.step]
          split
          · exact .silent (.noDigits he)
          · exact .badEscape _ _
      | gap => exact .badEscape _ _
      | directive hd => exact .badEscape _ _
  | number begin begin' chars =>
      cases ha with
      | char place place' c =>
          simp only [Lexeme.Reading.step]
          split
          · exact .silent (.number _ _ _)
          · exact .complete (.char _ _ c) (.number _)
      | gap => exact .complete .gap (.number _)
      | directive hd => exact .complete (.directive hd) (.number _)
  | word begin begin' chars =>
      cases ha with
      | char place place' c =>
          simp only [Lexeme.Reading.step]
          split
          · exact .silent (.word _ _ _)
          · exact .complete (.char _ _ c) (.word _)
      | gap => exact .complete .gap (.word _)
      | directive hd => exact .complete (.directive hd) (.word _)
  | stopped => exact .silent .stopped

/-- What the reader gives at the end is alike. -/
theorem Readings.finish {K : Likeness} {r r' : Lexeme.Reading} (h : K.Readings r r')
    (last last' : Location) : List.Forall₂ K.Lexemes (r.finish last) (r'.finish last') := by
  cases h with
  | between | lineComment | stopped => exact .nil
  | slash begin begin' => exact .cons (.stray '/') .nil
  | number begin begin' chars => exact .cons (.number _) .nil
  | word begin begin' chars => exact .cons (.word _) .nil
  | blockComment | blockStar => exact .cons (.openComment _) .nil
  | _ => exact .cons (.brokenText _ _ _ _) .nil

/-! ## The builder -/

/-- Whether the places of two values are alike. -/
inductive Holes : Draft.Hole → Draft.Hole → Prop
  | body {leading leading' : List Directive} (h : List.Forall₂ K.twins leading leading') :
      Holes (.body leading) (.body leading')
  | element {outer outer' : Draft.Hole} (houter : Holes outer outer') (start start' : Location)
      {earlier earlier' : Elements} (h : K.Rows earlier earlier') :
      Holes (.element outer start earlier) (.element outer' start' earlier')
  | member {outer outer' : Draft.Hole} (houter : Holes outer outer') (start start' : Location)
      {earlier earlier' : Members} (h : K.Fields earlier earlier') (place place' : Location)
      {key key' : List Piece} (hkey : List.Forall₂ K.Pieces key key') :
      Holes (.member outer start earlier place key) (.member outer' start' earlier' place' key')

/-- Whether two builders are alike; one that has stopped with a fault is like any other. -/
inductive Builders : Draft.Builder → Draft.Builder → Prop
  | body {leading leading' : List Directive} (h : List.Forall₂ K.twins leading leading') :
      Builders (.body leading) (.body leading')
  | element {outer outer' : Draft.Hole} (houter : K.Holes outer outer') (start start' : Location)
      {earlier earlier' : Elements} (h : K.Rows earlier earlier') :
      Builders (.element outer start earlier) (.element outer' start' earlier')
  | afterElement {outer outer' : Draft.Hole} (houter : K.Holes outer outer')
      (start start' : Location) {earlier earlier' : Elements} (h : K.Rows earlier earlier') :
      Builders (.afterElement outer start earlier) (.afterElement outer' start' earlier')
  | member {outer outer' : Draft.Hole} (houter : K.Holes outer outer') (start start' : Location)
      {earlier earlier' : Members} (h : K.Fields earlier earlier') :
      Builders (.member outer start earlier) (.member outer' start' earlier')
  | afterMember {outer outer' : Draft.Hole} (houter : K.Holes outer outer')
      (start start' : Location) {earlier earlier' : Members} (h : K.Fields earlier earlier') :
      Builders (.afterMember outer start earlier) (.afterMember outer' start' earlier')
  | afterLink {outer outer' : Draft.Hole} (houter : K.Holes outer outer')
      (start start' : Location) {earlier earlier' : Members} (h : K.Fields earlier earlier') :
      Builders (.afterLink outer start earlier) (.afterLink outer' start' earlier')
  | colon {outer outer' : Draft.Hole} (houter : K.Holes outer outer') (start start' : Location)
      {earlier earlier' : Members} (h : K.Fields earlier earlier') (place place' : Location)
      {key key' : List Piece} (hkey : List.Forall₂ K.Pieces key key') :
      Builders (.colon outer start earlier place key) (.colon outer' start' earlier' place' key')
  | memberValue {outer outer' : Draft.Hole} (houter : K.Holes outer outer')
      (start start' : Location) {earlier earlier' : Members} (h : K.Fields earlier earlier')
      (place place' : Location) {key key' : List Piece} (hkey : List.Forall₂ K.Pieces key key') :
      Builders (.memberValue outer start earlier place key)
        (.memberValue outer' start' earlier' place' key')
  | finished {leading leading' trailing trailing' : List Directive}
      (h : List.Forall₂ K.twins leading leading') (start start' : Location) {value value' : Node}
      (hvalue : K.Nodes value value') (htrailing : List.Forall₂ K.twins trailing trailing') :
      Builders (.finished leading start value trailing) (.finished leading' start' value' trailing')
  | stopped {draft : Draft} (h : draft.fault.isSome) (b' : Draft.Builder) :
      Builders (.stopped draft) b'

/-- Whether a draft without a fault has a draft without a fault like it. -/
structure Drafts (draft draft' : Draft) : Prop where
  fault : draft'.fault = none
  leading : List.Forall₂ K.twins draft.leading draft'.leading
  body : (draft.body = none ∧ draft'.body = none) ∨ ∃ place node place' node',
    draft.body = some (place, node) ∧ draft'.body = some (place', node') ∧ K.Nodes node node'
  trailing : List.Forall₂ K.twins draft.trailing draft'.trailing

variable {K} {hole hole' outer outer' : Draft.Hole} {start start' : Location} {l l' : Lexeme}
  {earlier earlier' : Members}

theorem Holes.fill (h : K.Holes hole hole') (hnode : K.Nodes node node') (start start' : Location) :
    K.Builders (hole.fill start node) (hole'.fill start' node') := by
  cases h with
  | body h => exact .finished h _ _ hnode .nil
  | element houter first first' h => exact .afterElement houter _ _ (h.add hnode)
  | member houter first first' h place place' hkey =>
      exact .afterMember houter _ _ (h.add hkey hnode)

theorem Builders.failValue (hole : Draft.Hole) (start : Location) (value : Node) (place : Location)
    (fault : Fault) (b' : Draft.Builder) :
    K.Builders (Draft.Builder.failValue hole start value place fault) b' := .stopped rfl b'

theorem Builders.takeValue (h : K.Holes hole hole') (hl : K.Lexemes l l') :
    K.Builders (Draft.Builder.takeValue hole l) (Draft.Builder.takeValue hole' l') := by
  obtain ⟨place, kind⟩ := l
  obtain ⟨place', kind'⟩ := l'
  change K.Kinds kind kind' at hl
  cases hl with
  | mark c =>
      simp only [Draft.Builder.takeValue]
      split
      all_goals
        first
        | contradiction
        | exact .member h _ _ fields_none
        | exact .element h _ _ rows_none
        | exact .failValue ..
  | text hpieces => exact h.fill (nodes_text hpieces) _ _
  | number chars =>
      simp only [Draft.Builder.takeValue]
      split
      · exact h.fill (nodes_scalar _) _ _
      · exact .failValue ..
  | word chars =>
      simp only [Draft.Builder.takeValue]
      split
      · exact h.fill (nodes_scalar _) _ _
      · exact h.fill (nodes_scalar _) _ _
      · exact h.fill (nodes_scalar _) _ _
      · exact .failValue ..
  | directive hd => exact h.fill (nodes_directive hd) _ _
  | stray c => exact .failValue ..
  | brokenText => exact .failValue ..
  | openComment => exact .failValue ..

theorem Builders.takeMember (houter : K.Holes outer outer') (h : K.Fields earlier earlier')
    (hl : K.Lexemes l l') :
    K.Builders (Draft.Builder.takeMember outer start earlier l)
      (Draft.Builder.takeMember outer' start' earlier' l') := by
  obtain ⟨place, kind⟩ := l
  obtain ⟨place', kind'⟩ := l'
  change K.Kinds kind kind' at hl
  cases hl with
  | mark c =>
      simp only [Draft.Builder.takeMember]
      split
      all_goals
        first
        | contradiction
        | exact houter.fill (nodes_object h) _ _
        | exact .failValue ..
  | text hkey => exact .colon houter _ _ h _ _ hkey
  | directive hd =>
      simp only [Draft.Builder.takeMember, K.isLink_eq hd]
      split
      · exact .afterLink houter _ _ (h.spread hd)
      · exact .afterMember houter _ _ (h.spread hd)
  | number | word | stray | brokenText | openComment => exact .failValue ..

/-- A step of the builder keeps likeness. -/
theorem Builders.step {b b' : Draft.Builder} (h : K.Builders b b') (hl : K.Lexemes l l') :
    K.Builders (b.step l) (b'.step l') := by
  obtain ⟨place, kind⟩ := l
  obtain ⟨place', kind'⟩ := l'
  have hkind : K.Kinds kind kind' := hl
  cases h with
  | body h =>
      cases hkind with
      | openComment => exact .stopped rfl _
      | brokenText => exact .stopped rfl _
      | directive hd =>
          simp only [Draft.Builder.step, K.isLink_eq hd]
          split
          · exact .body (List.rel_append h (.cons hd .nil))
          · exact .takeValue (.body h) hl
      | mark | text | number | word | stray => exact .takeValue (.body h) hl
  | element houter first first' h =>
      cases hkind with
      | openComment => exact .stopped rfl _
      | brokenText => exact .stopped rfl _
      | mark c =>
          simp only [Draft.Builder.step]
          split
          all_goals
            first
            | contradiction
            | exact houter.fill (nodes_array h) _ _
            | exact .takeValue (.element houter _ _ h) hl
      | directive | text | number | word | stray => exact .takeValue (.element houter _ _ h) hl
  | afterElement houter first first' h =>
      cases hkind with
      | mark c =>
          simp only [Draft.Builder.step]
          split
          all_goals
            first
            | contradiction
            | exact .element houter _ _ h
            | exact houter.fill (nodes_array h) _ _
            | exact .failValue ..
      | directive hd =>
          simp only [Draft.Builder.step, K.isLink_eq hd]
          split
          · exact .takeValue (.element houter _ _ h) hl
          · exact .failValue ..
      | text | number | word | stray | brokenText | openComment => exact .failValue ..
  | member houter first first' h => exact .takeMember houter h hl
  | afterMember houter first first' h =>
      cases hkind with
      | mark c =>
          simp only [Draft.Builder.step]
          split
          all_goals
            first
            | contradiction
            | exact .member houter _ _ h
            | exact houter.fill (nodes_object h) _ _
            | exact .failValue ..
      | directive hd =>
          simp only [Draft.Builder.step, K.isLink_eq hd]
          split
          · exact .takeMember houter h hl
          · exact .failValue ..
      | text | number | word | stray | brokenText | openComment => exact .failValue ..
  | afterLink houter first first' h =>
      cases hkind with
      | mark c =>
          simp only [Draft.Builder.step]
          split
          all_goals
            first
            | contradiction
            | exact .member houter _ _ h
            | exact .takeMember houter h hl
      | brokenText | openComment => exact .stopped rfl _
      | directive | text | number | word | stray => exact .takeMember houter h hl
  | colon houter first first' h keyPlace keyPlace' hkey =>
      cases hkind with
      | mark c =>
          simp only [Draft.Builder.step]
          split
          all_goals
            first
            | contradiction
            | exact .memberValue houter _ _ h _ _ hkey
            | exact .failValue ..
      | directive | text | number | word | stray | brokenText | openComment => exact .failValue ..
  | memberValue houter first first' h keyPlace keyPlace' hkey =>
      exact .takeValue (.member houter _ _ h _ _ hkey) hl
  | finished h first first' hvalue htrailing =>
      cases hkind with
      | directive hd =>
          simp only [Draft.Builder.step, K.isLink_eq hd]
          split
          · exact .finished h _ _ hvalue (List.rel_append htrailing (.cons hd .nil))
          · exact .stopped rfl _
      | mark | text | number | word | stray | brokenText | openComment => exact .stopped rfl _
  | stopped hfault b' => exact .stopped hfault _

theorem Builders.foldl {b b' : Draft.Builder} (h : K.Builders b b') {lexemes lexemes' : List Lexeme}
    (hlexemes : List.Forall₂ K.Lexemes lexemes lexemes') :
    K.Builders (lexemes.foldl Draft.Builder.step b) (lexemes'.foldl Draft.Builder.step b') := by
  induction hlexemes generalizing b b' with
  | nil => exact h
  | cons hl _ ih => exact ih (h.step hl)

/-- At the end of two templates, a draft without a fault has one like it. -/
theorem Builders.finish {b b' : Draft.Builder} (h : K.Builders b b') (last last' : Location)
    (hfault : (b.finish last).fault = none) : K.Drafts (b.finish last) (b'.finish last') := by
  cases h with
  | body h => exact ⟨rfl, h, Or.inl ⟨rfl, rfl⟩, .nil⟩
  | finished h first first' hvalue htrailing =>
      exact ⟨rfl, h, Or.inr ⟨_, _, _, _, rfl, rfl, hvalue⟩, htrailing⟩
  | stopped hstopped b' =>
      rw [show ∀ draft, (Draft.Builder.stopped draft).finish last = draft from
        fun _ => rfl] at hfault
      rw [hfault] at hstopped
      cases hstopped
  | _ => cases hfault

/-! ## The cursor -/

variable (K)

structure Cursors (k k' : Draft.Cursor) : Prop where
  reading : K.Readings k.reading k'.reading
  builder : K.Builders k.builder k'.builder

variable {K} {k k' : Draft.Cursor}

theorem cursors_start : K.Cursors .start .start := ⟨.between, .body .nil⟩

theorem Cursors.step {a a' : Atom} (h : K.Cursors k k') (ha : K.Atoms a a') :
    K.Cursors (k.step a) (k'.step a') :=
  ⟨(h.reading.step ha).1, h.builder.foldl (h.reading.step ha).2⟩

theorem Cursors.foldl {atoms atoms' : List Atom} (h : K.Cursors k k')
    (hatoms : List.Forall₂ K.Atoms atoms atoms') :
    K.Cursors (atoms.foldl Draft.Cursor.step k) (atoms'.foldl Draft.Cursor.step k') := by
  induction hatoms generalizing k k' with
  | nil => exact h
  | cons ha _ ih => exact ih (h.step ha)

theorem Cursors.finish (h : K.Cursors k k') (last last' : Location)
    (hfault : (k.finish last).fault = none) : K.Drafts (k.finish last) (k'.finish last') :=
  (h.builder.foldl (h.reading.finish last last')).finish last last' hfault

/-! ## Drafts that are alike -/

theorem Drafts.bodyDemands {draft draft' : Draft} (h : K.Drafts draft draft') :
    K.rows draft.bodyDemands draft'.bodyDemands := by
  rcases h.body with ⟨hnone, hnone'⟩ | ⟨place, node, place', node', hsome, hsome', hnode⟩
  · rw [Draft.bodyDemands, Draft.bodyDemands, hnone, hnone']
    exact K.nil
  · rw [Draft.bodyDemands, Draft.bodyDemands, hsome, hsome']
    exact hnode.rows

theorem Drafts.read {draft draft' : Draft} (h : K.Drafts draft draft')
    (hlook : K.looks look look') : draft.read look = draft'.read look' := by
  rcases h.body with ⟨hnone, hnone'⟩ | ⟨place, node, place', node', hsome, hsome', hnode⟩
  · rw [Draft.read, Draft.read, hnone, hnone']
  · rw [Draft.read, Draft.read, hsome, hsome']
    exact hnode.read hlook

theorem rows_values {directives directives' : List Directive}
    (h : List.Forall₂ K.twins directives directives') :
    K.rows (directives.map .value) (directives'.map .value) := by
  induction h with
  | nil => exact K.nil
  | cons hd _ ih => exact K.append (K.value hd) ih

/-- All demands of like drafts are related, if the first one has no fault. -/
theorem Drafts.demands {draft draft' : Draft} (h : K.Drafts draft draft')
    (hfault : draft.fault = none) {links links' : List Directive}
    (hlinks : List.Forall₂ K.twins links links') :
    K.rows (draft.demands links) (draft'.demands links') := by
  rw [Draft.demands, Draft.demands, hfault, h.fault]
  exact K.append (rows_values h.leading) <| K.append h.bodyDemands <|
    K.append (rows_values h.trailing) <| rows_values hlinks

end Likeness

end Stencil
