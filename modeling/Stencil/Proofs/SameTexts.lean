import Stencil.Proofs.Cursor
import Stencil.Proofs.Reading

/-!
# Strings with the same text

Under a look every string has a text, and the text is all that a draft's value and the entries of
its map take from the string's pieces. That is shown by a congruence. Nodes, elements and members
are alike if they read the same; everything that is put together from alike parts is alike; so a
step of the builder keeps builders alike, whatever lexeme it takes. Builders come to be alike where
one took a string and the other took one with the same text (`Look.builders_text`), and then their
drafts read the same.

The builders may stop at a fault. They do so at the same lexeme, and what was finished by then is
alike.
-/

namespace Stencil

open Draft (Builder Hole)

namespace Look

variable (look : Look)

/-- Whether two nodes read alike, wherever they are. -/
structure Nodes (node node' : Node) : Prop where
  isBroken : node.isBroken = node'.isBroken
  kind : node.kind = node'.kind
  read : node.read look = node'.read look
  entries (path : Path) (p : Pointer) : node.entries path look p = node'.entries path look p

structure Rows (elements elements' : Elements) : Prop where
  read : elements.read look = elements'.read look
  entries (path : Path) (p : Pointer) :
    elements.entries path look p = elements'.entries path look p

structure Fields (members members' : Members) : Prop where
  read : members.read look = members'.read look
  entries (path : Path) (p : Pointer) :
    members.entries path look p = members'.entries path look p

/-- Whether two drafts have the same value and the same map. -/
structure Drafts (draft draft' : Draft) : Prop where
  read : draft.read look = draft'.read look
  entries (path : Path) : draft.entries path look = draft'.entries path look

inductive Holes : Hole → Hole → Prop
  | body (leading : List Directive) : Holes (.body leading) (.body leading)
  | element {outer outer' : Hole} (houter : Holes outer outer') (start : Location)
      {earlier earlier' : Elements} (h : look.Rows earlier earlier') :
      Holes (.element outer start earlier) (.element outer' start earlier')
  | member {outer outer' : Hole} (houter : Holes outer outer') (start : Location)
      {earlier earlier' : Members} (h : look.Fields earlier earlier') (place : Location)
      {key key' : List Piece} (hkey : Piece.read look key = Piece.read look key') :
      Holes (.member outer start earlier place key) (.member outer' start earlier' place key')

/-- Whether two builders stand at the same place, with alike things finished around it. -/
inductive Builders : Builder → Builder → Prop
  | body (leading : List Directive) : Builders (.body leading) (.body leading)
  | element {outer outer' : Hole} (houter : look.Holes outer outer') (start : Location)
      {earlier earlier' : Elements} (h : look.Rows earlier earlier') :
      Builders (.element outer start earlier) (.element outer' start earlier')
  | afterElement {outer outer' : Hole} (houter : look.Holes outer outer') (start : Location)
      {earlier earlier' : Elements} (h : look.Rows earlier earlier') :
      Builders (.afterElement outer start earlier) (.afterElement outer' start earlier')
  | member {outer outer' : Hole} (houter : look.Holes outer outer') (start : Location)
      {earlier earlier' : Members} (h : look.Fields earlier earlier') :
      Builders (.member outer start earlier) (.member outer' start earlier')
  | afterMember {outer outer' : Hole} (houter : look.Holes outer outer') (start : Location)
      {earlier earlier' : Members} (h : look.Fields earlier earlier') :
      Builders (.afterMember outer start earlier) (.afterMember outer' start earlier')
  | afterLink {outer outer' : Hole} (houter : look.Holes outer outer') (start : Location)
      {earlier earlier' : Members} (h : look.Fields earlier earlier') :
      Builders (.afterLink outer start earlier) (.afterLink outer' start earlier')
  | colon {outer outer' : Hole} (houter : look.Holes outer outer') (start : Location)
      {earlier earlier' : Members} (h : look.Fields earlier earlier') (place : Location)
      {key key' : List Piece} (hkey : Piece.read look key = Piece.read look key') :
      Builders (.colon outer start earlier place key) (.colon outer' start earlier' place key')
  | memberValue {outer outer' : Hole} (houter : look.Holes outer outer') (start : Location)
      {earlier earlier' : Members} (h : look.Fields earlier earlier') (place : Location)
      {key key' : List Piece} (hkey : Piece.read look key = Piece.read look key') :
      Builders (.memberValue outer start earlier place key)
        (.memberValue outer' start earlier' place key')
  | finished (leading : List Directive) (start : Location) {value value' : Node}
      (h : look.Nodes value value') (trailing : List Directive) :
      Builders (.finished leading start value trailing) (.finished leading start value' trailing)
  | stopped {draft draft' : Draft} (h : look.Drafts draft draft') :
      Builders (.stopped draft) (.stopped draft')

variable {look} {node node' : Node} {elements elements' : Elements} {members members' : Members}
  {pieces pieces' : List Piece} {hole hole' : Hole} {b b' : Builder}

theorem Nodes.refl (node : Node) : look.Nodes node node := ⟨rfl, rfl, rfl, fun _ _ => rfl⟩

theorem Rows.refl (elements : Elements) : look.Rows elements elements := ⟨rfl, fun _ _ => rfl⟩

theorem Fields.refl (members : Members) : look.Fields members members := ⟨rfl, fun _ _ => rfl⟩

theorem nodes_text (h : Piece.read look pieces = Piece.read look pieces') :
    look.Nodes (.text pieces) (.text pieces') :=
  ⟨rfl, rfl, by rw [Node.read, Node.read, h], fun _ _ => rfl⟩

theorem nodes_array (h : look.Rows elements elements') :
    look.Nodes (.array elements) (.array elements') :=
  ⟨rfl, rfl, by rw [Node.read, Node.read, h.read], h.entries⟩

theorem nodes_object (h : look.Fields members members') :
    look.Nodes (.object members) (.object members') :=
  ⟨rfl, rfl, by rw [Node.read, Node.read, h.read], h.entries⟩

theorem Rows.add (h : look.Rows elements elements') (place : Location)
    (hnode : look.Nodes node node') :
    look.Rows (elements.add place node) (elements'.add place node') where
  read := by simp only [Elements.read, hnode.isBroken, h.read, hnode.read]
  entries path p := by
    simp only [Elements.entries, hnode.isBroken, hnode.kind, h.read, h.entries, hnode.entries]

theorem Fields.add (h : look.Fields members members') (place : Location)
    (hkey : Piece.read look pieces = Piece.read look pieces') (hnode : look.Nodes node node') :
    look.Fields (members.add place pieces node) (members'.add place pieces' node') where
  read := by simp only [Members.read, hnode.isBroken, h.read, hkey, hnode.read]
  entries path p := by
    simp only [Members.entries, hnode.isBroken, h.entries, hkey, hnode.entries]

theorem Fields.spread (h : look.Fields members members') (d : Directive) :
    look.Fields (members.spread d) (members'.spread d) where
  read := by simp only [Members.read, h.read]
  entries path p := by simp only [Members.entries, h.entries]

theorem Nodes.drafts (h : look.Nodes node node') (leading trailing : List Directive)
    (start : Location) (fault : Option FaultAt) :
    look.Drafts ⟨leading, some (start, node), trailing, fault⟩
      ⟨leading, some (start, node'), trailing, fault⟩ where
  read := h.read
  entries path := by simp only [Draft.entries, h.entries, h.kind]

theorem Holes.refl (hole : Hole) : look.Holes hole hole := by
  induction hole with
  | body leading => exact .body leading
  | element outer start earlier ih => exact .element ih start (.refl earlier)
  | member outer start earlier place key ih => exact .member ih start (.refl earlier) place rfl

theorem Builders.refl (b : Builder) : look.Builders b b := by
  cases b with
  | body leading => exact .body leading
  | element outer start earlier => exact .element (.refl outer) start (.refl earlier)
  | afterElement outer start earlier => exact .afterElement (.refl outer) start (.refl earlier)
  | member outer start earlier => exact .member (.refl outer) start (.refl earlier)
  | afterMember outer start earlier => exact .afterMember (.refl outer) start (.refl earlier)
  | afterLink outer start earlier => exact .afterLink (.refl outer) start (.refl earlier)
  | colon outer start earlier place key =>
      exact .colon (.refl outer) start (.refl earlier) place rfl
  | memberValue outer start earlier place key =>
      exact .memberValue (.refl outer) start (.refl earlier) place rfl
  | finished leading start value trailing => exact .finished leading start (.refl value) trailing
  | stopped draft => exact .stopped ⟨rfl, fun _ => rfl⟩

theorem Holes.fill (h : look.Holes hole hole') (start : Location) (hnode : look.Nodes node node') :
    look.Builders (hole.fill start node) (hole'.fill start node') := by
  cases h with
  | body leading => exact .finished leading start hnode []
  | element houter first h => exact .afterElement houter first (h.add start hnode)
  | member houter first h place hkey => exact .afterMember houter first (h.add place hkey hnode)

theorem Holes.stop (h : look.Holes hole hole') (start : Location) (hnode : look.Nodes node node')
    (fault : FaultAt) :
    look.Drafts (hole.stop start node fault) (hole'.stop start node' fault) := by
  have hclose : ∃ leading first value value', hole.close start node = (leading, first, value) ∧
      hole'.close start node' = (leading, first, value') ∧ look.Nodes value value' := by
    induction h generalizing start node node' with
    | body leading => exact ⟨leading, start, node, node', rfl, rfl, hnode⟩
    | element houter first h ih => exact ih first (nodes_array (h.add start hnode))
    | member houter first h place hkey ih => exact ih first (nodes_object (h.add place hkey hnode))
  obtain ⟨leading, first, value, value', hvalue, hvalue', halike⟩ := hclose
  rw [Hole.stop, Hole.stop, hvalue, hvalue']
  exact halike.drafts leading [] first (some fault)

theorem Builders.failValue (h : look.Holes hole hole') (start : Location)
    (hnode : look.Nodes node node') (place : Location) (fault : Fault) :
    look.Builders (Builder.failValue hole start node place fault)
      (Builder.failValue hole' start node' place fault) :=
  .stopped (h.stop start hnode ⟨place, fault⟩)

/-! ### A step keeps likeness -/

theorem Builders.takeValue (h : look.Holes hole hole') (l : Lexeme) :
    look.Builders (Builder.takeValue hole l) (Builder.takeValue hole' l) := by
  obtain ⟨place, kind⟩ := l
  have hfail (fault : Fault) :
      look.Builders (Builder.failValue hole place (.broken []) place fault)
        (Builder.failValue hole' place (.broken []) place fault) :=
    .failValue h place (.refl _) place fault
  cases kind with
  | mark c =>
      simp only [Builder.takeValue]
      split
      all_goals
        first
        | contradiction
        | exact .member h _ (.refl _)
        | exact .element h _ (.refl _)
        | exact hfail _
  | text pieces => exact h.fill place (.refl _)
  | number chars =>
      simp only [Builder.takeValue]
      split
      · exact h.fill place (.refl _)
      · exact hfail _
  | word chars =>
      simp only [Builder.takeValue]
      split
      · exact h.fill place (.refl _)
      · exact h.fill place (.refl _)
      · exact h.fill place (.refl _)
      · exact hfail _
  | directive d => exact h.fill place (.refl _)
  | stray c => exact hfail _
  | brokenText pieces faultPlace fault => exact .failValue h place (.refl _) faultPlace fault
  | openComment => exact hfail _

theorem Builders.takeMember (houter : look.Holes hole hole') (start : Location)
    (h : look.Fields members members') (l : Lexeme) :
    look.Builders (Builder.takeMember hole start members l)
      (Builder.takeMember hole' start members' l) := by
  obtain ⟨place, kind⟩ := l
  have hfail (fault : Fault) :
      look.Builders (Builder.failValue hole start (.object members) place fault)
        (Builder.failValue hole' start (.object members') place fault) :=
    .failValue houter start (nodes_object h) place fault
  cases kind with
  | mark c =>
      simp only [Builder.takeMember]
      split
      all_goals
        first
        | contradiction
        | exact houter.fill start (nodes_object h)
        | exact hfail _
  | text key => exact .colon houter start h place rfl
  | directive d =>
      simp only [Builder.takeMember]
      split
      · exact .afterLink houter start (h.spread d)
      · exact .afterMember houter start (h.spread d)
  | brokenText pieces faultPlace fault =>
      exact .failValue houter start (nodes_object (h.add place rfl (.refl _))) faultPlace fault
  | number | word | stray | openComment => exact hfail _

theorem Builders.step (h : look.Builders b b') (l : Lexeme) :
    look.Builders (b.step l) (b'.step l) := by
  obtain ⟨place, kind⟩ := l
  cases h with
  | body leading => exact .refl _
  | element houter start h =>
      have hvalue := Builders.takeValue (.element houter start h) ⟨place, kind⟩
      cases kind with
      | mark c =>
          simp only [Builder.step]
          split
          all_goals
            first
            | contradiction
            | exact houter.fill start (nodes_array h)
            | exact hvalue
      | openComment => exact .failValue houter start (nodes_array h) place _
      | directive | text | number | word | stray | brokenText => exact hvalue
  | afterElement houter start h =>
      have hfail (fault : Fault) := Builders.failValue houter start (nodes_array h) place fault
      cases kind with
      | mark c =>
          simp only [Builder.step]
          split
          all_goals
            first
            | contradiction
            | exact .element houter start h
            | exact houter.fill start (nodes_array h)
            | exact hfail _
      | directive d =>
          simp only [Builder.step]
          split
          · exact .takeValue (.element houter start h) _
          · exact hfail _
      | text | number | word | stray | brokenText | openComment => exact hfail _
  | member houter start h => exact .takeMember houter start h _
  | afterMember houter start h =>
      have hfail (fault : Fault) := Builders.failValue houter start (nodes_object h) place fault
      cases kind with
      | mark c =>
          simp only [Builder.step]
          split
          all_goals
            first
            | contradiction
            | exact .member houter start h
            | exact houter.fill start (nodes_object h)
            | exact hfail _
      | directive d =>
          simp only [Builder.step]
          split
          · exact .takeMember houter start h _
          · exact hfail _
      | text | number | word | stray | brokenText | openComment => exact hfail _
  | afterLink houter start h =>
      have hmember := Builders.takeMember houter start h ⟨place, kind⟩
      cases kind with
      | mark c =>
          simp only [Builder.step]
          split
          all_goals
            first
            | contradiction
            | exact .member houter start h
            | exact hmember
      | directive | text | number | word | stray | brokenText | openComment => exact hmember
  | colon houter start h keyPlace hkey =>
      have hfail (fault : Fault) := Builders.failValue houter start
        (nodes_object (h.add keyPlace hkey (.refl (.broken [])))) place fault
      cases kind with
      | mark c =>
          simp only [Builder.step]
          split
          all_goals
            first
            | contradiction
            | exact .memberValue houter start h keyPlace hkey
            | exact hfail _
      | directive | text | number | word | stray | brokenText | openComment => exact hfail _
  | memberValue houter start h keyPlace hkey =>
      exact .takeValue (.member houter start h keyPlace hkey) _
  | finished leading start h trailing =>
      cases kind with
      | directive d =>
          simp only [Builder.step]
          split
          · exact .finished leading start h (trailing ++ [d])
          · exact .stopped (h.drafts leading trailing start _)
      | mark | text | number | word | stray | brokenText | openComment =>
          exact .stopped (h.drafts leading trailing start _)
  | stopped h => exact .stopped h

theorem Builders.foldl (h : look.Builders b b') (lexemes : List Lexeme) :
    look.Builders (lexemes.foldl Builder.step b) (lexemes.foldl Builder.step b') := by
  induction lexemes generalizing b b' with
  | nil => exact h
  | cons l lexemes ih => exact ih (h.step l)

theorem Builders.finish (h : look.Builders b b') (last : Location) :
    look.Drafts (b.finish last) (b'.finish last) := by
  cases h with
  | body leading => exact ⟨rfl, fun _ => rfl⟩
  | element houter start h | afterElement houter start h =>
      exact houter.stop start (nodes_array h) _
  | member houter start h | afterMember houter start h | afterLink houter start h =>
      exact houter.stop start (nodes_object h) _
  | colon houter start h place hkey | memberValue houter start h place hkey =>
      exact houter.stop start (nodes_object (h.add place hkey (.refl _))) _
  | finished leading start h trailing => exact h.drafts leading trailing start none
  | stopped h => exact h

/-- A string and one with the same text make alike builders, be it a value, a key, or where no
string may stand. -/
theorem builders_text (b : Builder) (place : Location)
    (h : Piece.read look pieces = Piece.read look pieces') :
    look.Builders (b.step ⟨place, .text pieces⟩) (b.step ⟨place, .text pieces'⟩) := by
  have hvalue (hole : Hole) :
      look.Builders (hole.fill place (.text pieces)) (hole.fill place (.text pieces')) :=
    (Holes.refl hole).fill place (nodes_text h)
  have hkey (outer : Hole) (start : Location) (earlier : Members) :
      look.Builders (.colon outer start earlier place pieces)
        (.colon outer start earlier place pieces') :=
    .colon (.refl outer) start (.refl earlier) place h
  cases b with
  | body leading => exact hvalue (.body leading)
  | element outer start earlier => exact hvalue (.element outer start earlier)
  | memberValue outer start earlier keyPlace key =>
      exact hvalue (.member outer start earlier keyPlace key)
  | member outer start earlier | afterLink outer start earlier => exact hkey outer start earlier
  | afterElement | afterMember | colon | finished | stopped => exact .refl _

end Look

end Stencil
