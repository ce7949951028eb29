import Stencil.Proofs.Beginnings
import Stencil.Proofs.PlainTemplates
import Stencil.Proofs.Seams
import Stencil.Proofs.SilentSpreads

/-!
# Texts that break off

A text without directives is cut off somewhere. What the scanner and the reader have done by then
they do for the whole text as well, so the builder stands where it stands on its way through the
whole text, and one lexeme may be half read.

The builder's way is looked at from its end: what stands finished in the builder is in the value
that comes out, at its place, and nothing comes in front of it (`Builder.LeadsTo`). Going back by a
step keeps that, so it is so for every builder on the way. Where a builder stops or the text ends,
the open containers are closed, and the draft starts the whole one.

The lexeme that is half read is the whole lexeme, or stops the builder. A number would do neither,
hence a text may not be cut inside one.
-/

namespace Stencil

open Lexeme (Reading)

/-! ## The scanner and the reader at the cut -/

namespace Scan

variable {mode next : Mode} {c : Char} {front back : List Char}

/-- What is literal stays literal where the text ends early. -/
theorem find_front (h : find mode c (front ++ back) = .literal next) :
    ∃ next', find mode c front = .literal next' ∧ (front ≠ [] → next' = next) := by
  rw [find_eq_literal_iff] at h
  obtain ⟨hat, hread, hnext⟩ := h
  refine ⟨_, find_eq_literal_iff.mpr ⟨fun hsees => ?_, fun hplain => ?_, rfl⟩, fun hfront => ?_⟩
  · by_cases hfront : front = []
    · simp [hfront, Bracket.at?, Bracket.opening, List.isPrefixOf]
    · have happend := Bracket.at?_append c hfront [] back
      rw [List.append_nil] at happend
      rw [happend]
      exact hat hsees
  · cases hlink : Link.read? (c :: front) with
    | none => rfl
    | some found =>
        obtain ⟨raw, hraw, htext⟩ := Link.read?_eq_some_iff.mp hlink
        have hwhole : c :: (front ++ back) = raw ++ (found.2 ++ back) := by
          rw [← List.cons_append, htext, List.append_assoc]
        cases (hread hplain).symm.trans (Link.read?_eq_some_iff.mpr ⟨raw, hraw, hwhole⟩)
  · have happend := mode.next_append c hfront [] back
    rw [List.append_nil] at happend
    rw [happend]
    exact hnext

theorem cut_front (h : cut mode 0 (front ++ back) = ⟨(front ++ back).map .char, none⟩) :
    cut mode 0 front = ⟨front.map .char, none⟩ := by
  induction front generalizing mode with
  | nil => rw [cut, List.map_nil]
  | cons c front ih =>
      rw [List.cons_append, cut] at h
      cases hfind : find mode c (front ++ back) with
      | literal next =>
          rw [hfind] at h
          obtain ⟨hmarks, hunclosed⟩ := Cut.mk.inj h
          have hlater : cut next 0 (front ++ back) = ⟨(front ++ back).map .char, none⟩ := by
            rw [← (List.cons.inj hmarks).2, ← hunclosed]
          obtain ⟨next', hfront, hnext⟩ := find_front hfind
          have hrest : cut next' 0 front = ⟨front.map .char, none⟩ := by
            by_cases hempty : front = []
            · rw [hempty, cut, List.map_nil]
            · rw [hnext hempty]
              exact ih hlater
          rw [cut, hfront]
          dsimp only
          rw [hrest]
          rfl
      | directive content raw =>
          rw [hfind] at h
          cases (List.cons.inj (Cut.mk.inj h).1).1
      | unclosed bracket =>
          rw [hfind] at h
          cases (Cut.mk.inj h).2

end Scan

namespace Lexeme

/-- Whether a reader is in the middle of a number. -/
def Reading.inNumber : Reading → Bool
  | .number _ _ => true
  | _ => false

/-- Whether a text is cut inside a number: the reader is in one, and what follows continues it. -/
def CutsNumber (front back : List Char) : Prop :=
  (Reading.between.after (Atom.chars .start front)).inNumber = true ∧
    back.head?.any Json.Reader.isNumberChar = true

instance (front back : List Char) : Decidable (CutsNumber front back) :=
  inferInstanceAs (Decidable (_ ∧ _))

/-- The words that stand for a value. -/
def keywords : List String := ["true", "false", "null"]

/-- No keyword goes on as another one. -/
theorem eq_nil_of_keywords {word tail : List Char} (h : String.ofList word ∈ keywords)
    (h' : String.ofList (word ++ tail) ∈ keywords) : tail = [] := by
  have hchars {chars : List Char} (h : String.ofList chars ∈ keywords) :
      chars ∈ keywords.map String.toList := by
    rw [← String.toList_ofList (l := chars)]
    exact List.mem_map_of_mem h
  have hword := hchars h
  have hwhole := hchars h'
  simp only [keywords, List.map_cons, List.map_nil, List.mem_cons, List.not_mem_nil, or_false]
    at hword hwhole
  rcases hword with rfl | rfl | rfl <;> simpa using hwhole

end Lexeme

namespace Draft

/-! ## What a builder leads to -/

variable {root node first : Node} {start : Location} {l : Lexeme} {b : Builder} {draft : Draft}
  {hole : Hole} {outer : Hole} {earlier : Elements} {members : Members}

/-- Whether a value that starts somewhere is the one in a place, in the node that comes out. -/
def Hole.Holds (root : Node) : Hole → Location → Node → Prop
  | .body _, _, value => value = root
  | .element outer first earlier, start, value =>
      ∃ elements, (earlier.add start value).Grows elements ∧
        outer.Holds root first (.array elements)
  | .member outer first earlier place key, _, value =>
      ∃ members, (earlier.add place key value).Grows members ∧
        outer.Holds root first (.object members)

/-- Whether the node that comes out has a place. -/
def Hole.Within (root : Node) : Hole → Prop
  | .body _ => True
  | .element outer first earlier =>
      ∃ elements, earlier.Grows elements ∧ outer.Holds root first (.array elements)
  | .member outer first earlier place key =>
      ∃ node members, (earlier.add place key node).Grows members ∧
        outer.Holds root first (.object members)

/-- Whether an object that starts with some members stands in the node that comes out. -/
def Hole.HoldsMembers (root : Node) (outer : Hole) (start : Location) (earlier : Members) : Prop :=
  ∃ members, earlier.Grows members ∧ outer.Holds root start (.object members)

/-- Whether a node can come out where a builder goes on: what is finished in the builder stands in
the node. -/
def Builder.LeadsTo (root : Node) : Builder → Prop
  | .body _ => True
  | .element outer start earlier | .afterElement outer start earlier =>
      (Hole.element outer start earlier).Within root
  | .member outer start earlier | .afterMember outer start earlier
  | .afterLink outer start earlier => outer.HoldsMembers root start earlier
  | .colon outer start earlier place key | .memberValue outer start earlier place key =>
      (Hole.member outer start earlier place key).Within root
  | .finished _ _ value _ => value = root
  | .stopped _ => False

/-- Whether the value of a draft starts a node. -/
def Starts (draft : Draft) (root : Node) : Prop :=
  ∀ place value, draft.body = some (place, value) → value.Starts root

namespace Hole

theorem Holds.within (h : hole.Holds root start node) : hole.Within root := by
  cases hole with
  | body leading => trivial
  | element outer begin earlier =>
      obtain ⟨elements, hgrows, houter⟩ := h
      exact ⟨elements, hgrows.of_add, houter⟩
  | member outer begin earlier place key =>
      obtain ⟨members, hgrows, houter⟩ := h
      exact ⟨node, members, hgrows, houter⟩

theorem Within.holdsMembers {place : Location} {key : List Piece}
    (h : (Hole.member outer start members place key).Within root) :
    outer.HoldsMembers root start members := by
  obtain ⟨node, members, hgrows, houter⟩ := h
  exact ⟨members, hgrows.of_add, houter⟩

theorem holds_of_fill (h : (hole.fill start node).LeadsTo root) : hole.Holds root start node := by
  cases hole with
  | body leading => exact h
  | element outer begin earlier => exact h
  | member outer begin earlier place key => exact h

/-- Where less of a value than comes out is closed with all around it, the node is started. -/
theorem Holds.starts_stop (h : hole.Holds root start node) (hfirst : first.Starts node)
    (fault : FaultAt) : (hole.stop start first fault).Starts root := by
  have hclose : (hole.close start first).2.2.Starts root := by
    induction hole generalizing start node first with
    | body leading =>
        obtain rfl : node = root := h
        exact hfirst
    | element outer begin earlier ih =>
        obtain ⟨elements, hgrows, houter⟩ := h
        exact ih houter (.arrayInside hfirst hgrows)
    | member outer begin earlier place key ih =>
        obtain ⟨members, hgrows, houter⟩ := h
        exact ih houter (.objectInside hfirst hgrows)
  intro place value hbody
  cases hbody
  exact hclose

theorem Within.starts_broken (h : hole.Within root) (start : Location) (pieces : List Piece)
    (fault : FaultAt) : (hole.stop start (.broken pieces) fault).Starts root := by
  cases hole with
  | body leading =>
      intro place value hbody
      cases hbody
      exact .broken pieces root
  | element outer begin earlier =>
      obtain ⟨elements, hgrows, houter⟩ := h
      exact houter.starts_stop (.arrayBroken start pieces hgrows) fault
  | member outer begin earlier place key =>
      obtain ⟨node, members, hgrows, houter⟩ := h
      exact houter.starts_stop (.objectInside (.broken pieces node) hgrows) fault

theorem Within.starts_array (h : (Hole.element outer start earlier).Within root) (fault : FaultAt) :
    (outer.stop start (.array earlier) fault).Starts root := by
  obtain ⟨elements, hgrows, houter⟩ := h
  exact houter.starts_stop (.array hgrows) fault

theorem HoldsMembers.starts_object (h : outer.HoldsMembers root start members) (fault : FaultAt) :
    (outer.stop start (.object members) fault).Starts root := by
  obtain ⟨members, hgrows, houter⟩ := h
  exact houter.starts_stop (.object hgrows) fault

theorem Within.starts_object {place : Location} {key : List Piece}
    (h : (Hole.member outer start members place key).Within root) (fault : FaultAt) :
    (outer.stop start (.object (members.add place key (.broken []))) fault).Starts root := by
  obtain ⟨node, members, hgrows, houter⟩ := h
  exact houter.starts_stop (.objectInside (.broken [] node) hgrows) fault

end Hole

namespace Builder

/-! ## Back by a step -/

theorem within_of_takeValue (h : (takeValue hole l).LeadsTo root) : hole.Within root := by
  unfold takeValue at h
  repeat' split at h
  all_goals
    first
    | exact (Hole.holds_of_fill h).within
    | exact h.elim
    | (obtain ⟨_, _, houter⟩ := h; exact houter.within)

theorem holdsMembers_of_takeMember (h : (takeMember outer start members l).LeadsTo root) :
    outer.HoldsMembers root start members := by
  unfold takeMember at h
  split at h
  · exact ⟨members, .refl, Hole.holds_of_fill h⟩
  · exact Hole.Within.holdsMembers h
  · split at h
    · obtain ⟨later, hgrows, houter⟩ := h
      exact ⟨later, hgrows.of_spread, houter⟩
    · obtain ⟨later, hgrows, houter⟩ := h
      exact ⟨later, hgrows.of_spread, houter⟩
  · exact h.elim
  · exact h.elim
  · exact h.elim

/-- What comes out behind a step comes out in front of it. -/
theorem leadsTo_of_step (h : (b.step l).LeadsTo root) : b.LeadsTo root := by
  cases b with
  | body leading => trivial
  | element outer start earlier =>
      simp only [step] at h
      split at h
      · exact ⟨earlier, .refl, Hole.holds_of_fill h⟩
      · exact h.elim
      · exact within_of_takeValue h
  | afterElement outer start earlier =>
      simp only [step] at h
      split at h
      · exact h
      · exact ⟨earlier, .refl, Hole.holds_of_fill h⟩
      · split at h
        · exact within_of_takeValue h
        · exact h.elim
      · exact h.elim
  | member outer start earlier => exact holdsMembers_of_takeMember h
  | afterMember outer start earlier =>
      simp only [step] at h
      split at h
      · exact h
      · exact ⟨earlier, .refl, Hole.holds_of_fill h⟩
      · split at h
        · exact holdsMembers_of_takeMember h
        · exact h.elim
      · exact h.elim
  | afterLink outer start earlier =>
      simp only [step] at h
      split at h
      · exact h
      · exact holdsMembers_of_takeMember h
  | colon outer start earlier place key =>
      simp only [step] at h
      split at h
      · exact h
      · exact h.elim
  | memberValue outer start earlier place key => exact within_of_takeValue h
  | finished leading start value trailing =>
      simp only [step] at h
      split at h
      · exact h.elim
      · split at h
        · exact h
        · exact h.elim
      · exact h.elim
  | stopped draft => exact h

theorem leadsTo_of_foldl {lexemes : List Lexeme} (h : (lexemes.foldl step b).LeadsTo root) :
    b.LeadsTo root := by
  induction lexemes generalizing b with
  | nil => exact h
  | cons l lexemes ih => exact leadsTo_of_step (ih h)

/-- A draft without a fault comes out of the builder that it is the end of. -/
theorem exists_leadsTo (hb : b.FaultIfStopped) {last : Location}
    (hfault : (b.finish last).fault = none) : ∃ root, b.LeadsTo root ∧
      ((b.finish last).body = none ∧ root = .broken [] ∨
        ∃ place, (b.finish last).body = some (place, root)) := by
  cases b with
  | body leading => exact ⟨.broken [], trivial, Or.inl ⟨rfl, rfl⟩⟩
  | finished leading start value trailing => exact ⟨value, rfl, Or.inr ⟨start, rfl⟩⟩
  | stopped draft =>
      have hsome := hb draft rfl
      rw [show draft.fault = none from hfault] at hsome
      cases hsome
  | element | afterElement | member | afterMember | afterLink | colon | memberValue =>
      cases hfault

/-! ## Where the text ends -/

theorem starts_of_takeValue (hhole : hole.Within root) (h : takeValue hole l = .stopped draft) :
    draft.Starts root := by
  unfold takeValue at h
  repeat' split at h
  all_goals
    first
    | exact absurd h (fill_ne_stopped _ _ _ _)
    | (cases h; exact hhole.starts_broken _ _ _)
    | cases h

theorem starts_of_takeMember (hmembers : outer.HoldsMembers root start members)
    (h : takeMember outer start members l = .stopped draft) : draft.Starts root := by
  unfold takeMember at h
  split at h
  · exact absurd h (fill_ne_stopped _ _ _ _)
  · cases h
  · split at h
    · cases h
    · cases h
  · cases h
    obtain ⟨later, hgrows, houter⟩ := hmembers
    exact houter.starts_stop (.objectBroken _ _ _ hgrows) _
  · cases h
    exact hmembers.starts_object _
  · cases h
    exact hmembers.starts_object _

/-- Where a builder stops, its draft starts what the builder led to. -/
theorem LeadsTo.starts_of_step (hb : b.LeadsTo root) (h : b.step l = .stopped draft) :
    draft.Starts root := by
  cases b with
  | body leading =>
      have hhole : (Hole.body leading).Within root := trivial
      simp only [step] at h
      split at h
      · cases h
        exact fun _ _ hbody => by cases hbody
      · split at h
        · cases h
        · exact starts_of_takeValue hhole h
      · exact starts_of_takeValue hhole h
  | element outer start earlier =>
      have hhole : (Hole.element outer start earlier).Within root := hb
      simp only [step] at h
      split at h
      · exact absurd h (fill_ne_stopped _ _ _ _)
      · cases h
        exact hb.starts_array _
      · exact starts_of_takeValue hhole h
  | afterElement outer start earlier =>
      have hhole : (Hole.element outer start earlier).Within root := hb
      simp only [step] at h
      split at h
      · cases h
      · exact absurd h (fill_ne_stopped _ _ _ _)
      · split at h
        · exact starts_of_takeValue hhole h
        · cases h
          exact hb.starts_array _
      · cases h
        exact hb.starts_array _
  | member outer start earlier => exact starts_of_takeMember hb h
  | afterMember outer start earlier =>
      simp only [step] at h
      split at h
      · cases h
      · exact absurd h (fill_ne_stopped _ _ _ _)
      · split at h
        · exact starts_of_takeMember hb h
        · cases h
          exact hb.starts_object _
      · cases h
        exact hb.starts_object _
  | afterLink outer start earlier =>
      simp only [step] at h
      split at h
      · cases h
      · exact starts_of_takeMember hb h
  | colon outer start earlier place key =>
      simp only [step] at h
      split at h
      · cases h
      · cases h
        exact hb.starts_object _
  | memberValue outer start earlier place key =>
      have hhole : (Hole.member outer start earlier place key).Within root := hb
      exact starts_of_takeValue hhole h
  | finished leading start value trailing =>
      obtain rfl : value = root := hb
      simp only [step] at h
      repeat' split at h
      all_goals
        first
        | (cases h; exact fun _ _ hbody => by cases hbody; exact .whole _)
        | cases h
  | stopped draft => exact hb.elim

/-- Where the text ends, the draft starts what the builder led to. -/
theorem LeadsTo.starts_finish (hb : b.LeadsTo root) (last : Location) :
    (b.finish last).Starts root := by
  cases b with
  | body leading => exact fun _ _ hbody => by cases hbody
  | element outer start earlier | afterElement outer start earlier => exact hb.starts_array _
  | member outer start earlier | afterMember outer start earlier
  | afterLink outer start earlier => exact hb.starts_object _
  | colon outer start earlier place key | memberValue outer start earlier place key =>
      exact hb.starts_object _
  | finished leading start value trailing =>
      obtain rfl : value = root := hb
      exact fun _ _ hbody => by cases hbody; exact .whole _
  | stopped draft => exact hb.elim

theorem exists_stopped_of_stray (b : Builder) (place : Location) (c : Char) :
    ∃ draft, b.step ⟨place, .stray c⟩ = .stopped draft := by
  cases b <;> exact ⟨_, rfl⟩

theorem exists_stopped_of_openComment (b : Builder) (place : Location) :
    ∃ draft, b.step ⟨place, .openComment⟩ = .stopped draft := by
  cases b <;> exact ⟨_, rfl⟩

theorem exists_stopped_of_word (b : Builder) (place : Location) {chars : List Char}
    (h : String.ofList chars ∉ Lexeme.keywords) :
    ∃ draft, b.step ⟨place, .word chars⟩ = .stopped draft := by
  have hvalue (hole : Hole) : ∃ draft, takeValue hole ⟨place, .word chars⟩ = .stopped draft := by
    simp only [Lexeme.keywords, List.mem_cons, List.not_mem_nil, or_false, not_or] at h
    simp only [takeValue]
    split
    · next hword => exact absurd hword h.1
    · next hword => exact absurd hword h.2.1
    · next hword => exact absurd hword h.2.2
    · exact ⟨_, rfl⟩
  cases b with
  | body leading => exact hvalue _
  | element outer start earlier => exact hvalue _
  | memberValue outer start earlier place key => exact hvalue _
  | afterElement | member | afterMember | afterLink | colon | finished | stopped =>
      exact ⟨_, rfl⟩

/-- A last lexeme that stops the builder leaves what starts the whole. -/
theorem LeadsTo.starts_last (hb : b.LeadsTo root) (h : ∃ draft, b.step l = .stopped draft)
    (last : Location) : ((b.step l).finish last).Starts root := by
  obtain ⟨draft, hdraft⟩ := h
  rw [hdraft]
  exact hb.starts_of_step hdraft

end Builder

/-- Where the text ends in front of what leads to a node, the draft starts the node, unless a
number goes on. -/
theorem Cursor.starts_finish {k : Cursor} {back : List Char} {place last : Location}
    (h : ((k.reading.run last (Atom.chars place back)).foldl Builder.step k.builder).LeadsTo root)
    (hnumber : ¬ (k.reading.inNumber = true ∧ back.head?.any Json.Reader.isNumberChar = true))
    (last' : Location) : (k.finish last').Starts root := by
  obtain ⟨r, b⟩ := k
  have hb : b.LeadsTo root := Builder.leadsTo_of_foldl h
  rw [finish]
  dsimp only at h hnumber ⊢
  cases r with
  | between | lineComment | stopped => exact hb.starts_finish last'
  | slash begin => exact hb.starts_last (b.exists_stopped_of_stray begin '/') last'
  | blockComment begin | blockStar begin =>
      exact hb.starts_last (b.exists_stopped_of_openComment begin) last'
  | text begin pieces | escape begin pieces =>
      exact hb.starts_last (b.step_brokenText begin pieces.reverse _ _) last'
  | noDigits e | digitsMissing e | digits e | pairBackslash e | pairLetter e =>
      exact hb.starts_last (b.step_brokenText e.start e.pieces.reverse _ _) last'
  | number begin digits =>
      obtain ⟨q, hlex⟩ := Reading.lex_number last begin digits place back
      have hends : back.takeWhile Json.Reader.isNumberChar = [] := by
        cases back with
        | nil => rfl
        | cons c back => exact List.takeWhile_cons_of_neg fun hc => hnumber ⟨rfl, hc⟩
      rw [← Reading.lex, hlex, hends, List.append_nil, List.foldl_cons] at h
      exact (Builder.leadsTo_of_foldl h).starts_finish last'
  | word begin chars =>
      obtain ⟨q, hlex⟩ := Reading.lex_word last begin chars place back
      rw [← Reading.lex, hlex, List.foldl_cons] at h
      have hwhole := Builder.leadsTo_of_foldl h
      by_cases hword : String.ofList chars.reverse ∈ Lexeme.keywords
      · have hkeyword : String.ofList (chars.reverse ++ back.takeWhile Lexeme.isWordChar) ∈
            Lexeme.keywords := by
          by_contra hnot
          obtain ⟨draft, hdraft⟩ := b.exists_stopped_of_word begin hnot
          rw [hdraft] at hwhole
          exact hwhole
        rw [Lexeme.eq_nil_of_keywords hword hkeyword, List.append_nil] at hwhole
        exact hwhole.starts_finish last'
      · exact hb.starts_last (b.exists_stopped_of_word begin hword) last'

/-- The draft of a text that breaks off starts what comes out of the whole text. -/
theorem starts_of_front {text front : String} {back : List Char}
    (htext : text.toList = front.toList ++ back)
    (hcut : Scan.cut .plain 0 text.toList = ⟨text.toList.map .char, none⟩)
    (hnumber : ¬ Lexeme.CutsNumber front.toList back)
    (hfault : (Draft.ofTokens (Scan.ofText text).tokens).fault = none) :
    ∃ root, (Draft.ofTokens (Scan.ofText front).tokens).Starts root ∧
      ((Draft.ofTokens (Scan.ofText text).tokens).body = none ∧ root = .broken [] ∨
        ∃ place, (Draft.ofTokens (Scan.ofText text).tokens).body = some (place, root)) := by
  obtain ⟨herror, hliteral⟩ := Scan.literal_iff_cut.mpr hcut
  rw [htext] at hcut
  obtain ⟨herror', hliteral'⟩ := Scan.literal_iff_cut.mpr (Scan.cut_front hcut)
  have hatoms := Scan.atoms_of_literal herror hliteral
  rw [htext, Atom.chars_append] at hatoms
  have hdraft := Cursor.finish_after (Scan.ofText text).tokens
  rw [hatoms, Cursor.after, List.foldl_append, Cursor.finish_foldl] at hdraft
  rw [← hdraft] at hfault ⊢
  obtain ⟨root, hleads, hbody⟩ := Builder.exists_leadsTo
    ((Cursor.faultIfStopped_after (Atom.chars .start front.toList)).foldl _) hfault
  refine ⟨root, ?_, hbody⟩
  rw [← Cursor.finish_after, Scan.atoms_of_literal herror' hliteral']
  refine Cursor.starts_finish hleads (fun hcut => hnumber ⟨?_, hcut.2⟩) _
  rw [← Cursor.reading_after]
  exact hcut.1

end Draft

namespace Extraction

variable {s s' : Setting} {root root' path : Path} {text? text'? : Option String}
  {text front : String} {w w' : Watch}

/-- The value and the map of a text without directives are read off its draft. -/
theorem read_of_literal (hopens : s.Opens root text? path text w)
    (herror : (Scan.ofText text).error = none)
    (hliteral : ∀ t ∈ (Scan.ofText text).tokens, t.content = .literal) :
    (run s root text?).value = (Draft.ofTokens (Scan.ofText text).tokens).read .blank ∧
      (run s root text?).map =
        if s.options.buildSourceMap then
          .ofList ((Draft.ofTokens (Scan.ofText text).tokens).entries path .blank)
        else .empty := by
  obtain ⟨-, hbody, -⟩ := Draft.of_literal hliteral
  have hagree (look : Look) : look.Agree .blank
      (Draft.ofTokens (Scan.ofText text).tokens).bodyDemands := by
    rw [hbody]
    exact fun _ hdemand => by cases hdemand
  have hpath (follow : Directive → Link → Run Assembled) :
      (s.scope path (Scan.ofText text).tokens follow).path = path := rfl
  rw [hopens.run_eq, Setting.assembleRoot, Setting.assembleText_ok s herror]
  dsimp only [Setting.reading]
  rw [Draft.read_congr _ (hagree _).values, hpath, Draft.entries_congr path _ (hagree _)]
  exact ⟨rfl, rfl⟩

/-- A text without directives that is extracted without a problem, and in which no object writes a
member again, may break off anywhere but inside a number: one problem comes of it at most, the
syntax error there; the value is null or a beginning of the whole value; and every entry of the map
but that of the root is in the whole map. -/
theorem truncated_begins {back : List Char} (hopens : s.Opens root text? path text w)
    (hopens' : s'.Opens root' text'? path front w')
    (hmap : s'.options.buildSourceMap = true → s.options.buildSourceMap = true)
    (hliteral : ∀ t ∈ (Scan.ofText text).tokens, t.content = .literal)
    (hclean : (run s root text?).problems = [])
    (hdistinct : (Draft.ofTokens (Scan.ofText text).tokens).Distinct .blank)
    (htext : text.toList = front.toList ++ back)
    (hnumber : ¬ Lexeme.CutsNumber front.toList back) :
    let e := run s root text?
    let e' := run s' root' text'?
    e'.problems.length ≤ 1 ∧ (∀ p ∈ e'.problems, p.kind = .parseError) ∧
      (e'.value = .null ∨ e'.value.Begins e.value) ∧
      ∀ entry ∈ e'.map.entries, entry.1 ≠ .root → entry ∈ e.map.entries := by
  intro e e'
  have hassembles := Setting.Assembles.root hopens
  have herror := hassembles.error_eq_none hclean
  have hfault := hassembles.fault_eq_none herror hclean
  have hcut := Scan.literal_iff_cut.mp ⟨herror, hliteral⟩
  obtain ⟨node, hstarts, hbody⟩ := Draft.starts_of_front htext hcut hnumber hfault
  rw [htext] at hcut
  obtain ⟨herror', hliteral'⟩ := Scan.literal_iff_cut.mpr (Scan.cut_front hcut)
  obtain ⟨hvalue, hentries⟩ := read_of_literal hopens herror hliteral
  obtain ⟨hvalue', hentries'⟩ := read_of_literal hopens' herror' hliteral'
  obtain ⟨-, -, hproblems'⟩ := run_of_literal hopens' herror' hliteral'
  -- What comes out of the whole text, also where there is no value.
  obtain ⟨hread, hinside, hnode⟩ : e.value = node.read .blank ∧
      (node.entries path .blank .root ⊆
        (Draft.ofTokens (Scan.ofText text).tokens).entries path .blank) ∧
      node.Distinct .blank := by
    rw [show e.value = _ from hvalue]
    unfold Draft.Distinct at hdistinct
    unfold Draft.read Draft.entries
    rcases hbody with ⟨hbody, rfl⟩ | ⟨place, hbody⟩
    · rw [hbody]
      exact ⟨rfl, List.nil_subset _, trivial⟩
    · rw [hbody] at hdistinct ⊢
      exact ⟨rfl, List.subset_append_left _ _, hdistinct⟩
  refine ⟨?_, ?_, ?_, fun entry hentry hne => ?_⟩
  · rw [show e'.problems = _ from hproblems', List.length_map]
    exact Option.length_toList_le
  · intro p hp
    rw [show e'.problems = _ from hproblems'] at hp
    obtain ⟨f, -, rfl⟩ := List.mem_map.mp hp
    rfl
  · rw [show e'.value = _ from hvalue', hread]
    unfold Draft.read
    cases hfront : (Draft.ofTokens (Scan.ofText front).tokens).body with
    | none => exact Or.inl rfl
    | some body =>
        obtain ⟨place, value⟩ := body
        by_cases hbroken : value.isBroken = true
        · cases value with
          | broken pieces => exact Or.inl rfl
          | scalar | text | directive | array | object => cases hbroken
        · exact Or.inr ((hstarts place value hfront).begins hbroken hnode)
  · rw [show e'.map = _ from hentries'] at hentry
    by_cases hbuild' : s'.options.buildSourceMap = true
    · rw [if_pos hbuild'] at hentry
      have hmem := SourceMap.mem_of_mem_ofList hentry
      rw [show e.map = _ from hentries, if_pos (hmap hbuild'),
        SourceMap.entries_ofList (Draft.nodup_entries hdistinct path)]
      unfold Draft.entries at hmem
      cases hfront : (Draft.ofTokens (Scan.ofText front).tokens).body with
      | none =>
          rw [hfront] at hmem
          cases hmem
      | some body =>
          obtain ⟨place, value⟩ := body
          rw [hfront] at hmem
          rcases List.mem_append.mp hmem with hmem | hroot
          · exact hinside ((hstarts place value hfront).entries_subset path .blank .root hmem)
          · exact absurd (congrArg Prod.fst (List.mem_singleton.mp hroot)) hne
    · rw [if_neg hbuild'] at hentry
      cases hentry

end Extraction

namespace Shelf

def nestedText : String := "\x7b\"a\": [12, \x7b\"b\": \"x\", \"d\": 3\x7d], \"c\": true\x7d"

def nested : Shelf := ⟨[(⟨"/p/root.tmpl"⟩, nestedText)]⟩

/-- The text up to a key of the inner object. -/
def nestedFront : String := "\x7b\"a\": [12, \x7b\"b\": \"x\", \"d\""

end Shelf

theorem Extraction.truncated_begins_nested :
    let s := Shelf.nested.setting (.standard ⟨"/p"⟩)
    let e := Extraction.run s ⟨"root.tmpl"⟩ none
    let e' := Extraction.run s ⟨"root.tmpl"⟩ (some Shelf.nestedFront)
    e.problems = [] ∧ e'.problems.length = 1 ∧
      e'.value.compact = "\x7b\"a\":[12,\x7b\"b\":\"x\"\x7d]\x7d" ∧
      e'.value.Begins e.value ∧
      ∀ entry ∈ e'.map.entries, entry.1 ≠ .root → entry ∈ e.map.entries := by
  intro s e e'
  have hopens : s.Opens ⟨"root.tmpl"⟩ none ⟨"/p/root.tmpl"⟩ Shelf.nestedText _ :=
    .file (by decide +kernel) (by decide +kernel)
  have hopens' : s.Opens ⟨"root.tmpl"⟩ (some Shelf.nestedFront) ⟨"/p/root.tmpl"⟩
      Shelf.nestedFront _ := .given Shelf.nestedFront (by decide +kernel)
  have hclean : e.problems = [] := by decide +kernel
  have hlength : e'.problems.length = 1 := by decide +kernel
  have hvalue : e'.value.compact = "\x7b\"a\":[12,\x7b\"b\":\"x\"\x7d]\x7d" := by decide +kernel
  have hback : Shelf.nestedText.toList = Shelf.nestedFront.toList ++
      Shelf.nestedText.toList.drop Shelf.nestedFront.length := by decide +kernel
  obtain ⟨-, -, hbegins, hentries⟩ := Extraction.truncated_begins hopens hopens' id
    (by decide +kernel) hclean (by decide +kernel) hback (by decide +kernel)
  refine ⟨hclean, hlength, hvalue, hbegins.resolve_left fun hnull => ?_, hentries⟩
  rw [hnull] at hvalue
  exact absurd hvalue (by decide +kernel)

end Stencil
