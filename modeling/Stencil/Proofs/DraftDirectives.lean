import Stencil.Proofs.Reading

/-!
# What a draft holds is there in its tokens

No directive is made up on the way from tokens to a draft, and no place. Reading
lexemes and building drafts both carry what they have met so far, a string's pieces
or the open containers, and one step moves what is known of the atom or the lexeme at
hand into what is carried or into what is complete.

`Law` says what is known of a template: of the characters at their places, of the
directives, and of the places at which something may be wrong. `Stands` says of every
stage that it keeps to the law. A lexeme is placed at the character it starts with, so
a node is too, and the kind of node is told by that character.

If nothing is asked of characters and places, the law is about directives only:
whatever holds of all directives of the tokens holds of all directives that the draft
demands, and a variable that takes a link's value takes it from a link of the same
template.
-/

namespace Stencil

/-- What is known of the characters of a template, of its directives, and of the places of its
faults. -/
structure Law where
  char : Location → Char → Prop
  directive : Directive → Prop
  place : Location → Prop
  place_of_char {l : Location} {c : Char} (h : char l c) : place l
  place_of_directive {d : Directive} (h : directive d) : place d.range.first

/-- The law that asks something of directives only. -/
def Law.ofDirectives (P : Directive → Prop) : Law :=
  ⟨fun _ _ => True, P, fun _ => True, fun _ => trivial, fun _ => trivial⟩

variable {P : Directive → Prop} {L : Law}

/-! ## Reading lexemes -/

/-- Whether all variables of a string have a property. -/
def Piece.Within (P : Directive → Prop) (pieces : List Piece) : Prop :=
  ∀ d, .variable d ∈ pieces → P d

theorem Piece.within_nil : Piece.Within P [] := fun _ h => absurd h List.not_mem_nil

theorem Piece.within_char {c : Char} {pieces : List Piece} (h : Piece.Within P pieces) :
    Piece.Within P (.char c :: pieces) := by
  intro d hd
  rcases List.mem_cons.mp hd with h' | h'
  · cases h'
  · exact h d h'

theorem Piece.within_variable {d : Directive} {pieces : List Piece} (hd : P d)
    (h : Piece.Within P pieces) : Piece.Within P (.variable d :: pieces) := by
  intro e he
  rcases List.mem_cons.mp he with h' | h'
  · cases h'; exact hd
  · exact h e h'

theorem Piece.within_reverse {pieces : List Piece} (h : Piece.Within P pieces) :
    Piece.Within P pieces.reverse := fun d hd => h d (List.mem_reverse.mp hd)

def Atom.Stands (L : Law) : Atom → Prop
  | .char place c => L.char place c
  | .gap => True
  | .directive d => L.directive d

namespace Lexeme

/-- Whether a lexeme is placed at the character it starts with, and keeps to the law inside. -/
def Stands (L : Law) (l : Lexeme) : Prop :=
  match l.kind with
  | .mark c | .stray c => L.char l.place c
  | .text pieces => L.char l.place '"' ∧ Piece.Within L.directive pieces
  | .number chars => ∃ c rest, chars = c :: rest ∧ isNumberStart c ∧ L.char l.place c
  | .word chars => ∃ c rest, chars = c :: rest ∧ L.char l.place c
  | .directive d => l.place = d.range.first ∧ L.directive d
  | .brokenText pieces place _ =>
      L.char l.place '"' ∧ Piece.Within L.directive pieces ∧ L.place place
  | .openComment => L.char l.place '/'

theorem Stands.place {l : Lexeme} (h : l.Stands L) : L.place l.place := by
  obtain ⟨place, kind⟩ := l
  cases kind with
  | mark c | stray c | openComment => exact L.place_of_char h
  | text pieces => exact L.place_of_char h.1
  | number chars =>
      obtain ⟨c, rest, -, -, hc⟩ := h
      exact L.place_of_char hc
  | word chars =>
      obtain ⟨c, rest, -, hc⟩ := h
      exact L.place_of_char hc
  | directive d =>
      obtain ⟨rfl, hd⟩ := h
      exact L.place_of_directive hd
  | brokenText pieces at' fault => exact L.place_of_char h.1

/-- Whether an escape that is being read keeps to the law. -/
structure Escape.Stands (L : Law) (e : Escape) : Prop where
  start : L.char e.start '"'
  pieces : Piece.Within L.directive e.pieces
  letter : L.place e.letter

namespace Reading

/-- Whether what a reader carries keeps to the law. -/
def Stands (L : Law) : Reading → Prop
  | .between | .lineComment | .stopped => True
  | .slash start | .blockComment start | .blockStar start => L.char start '/'
  | .text start pieces | .escape start pieces =>
      L.char start '"' ∧ Piece.Within L.directive pieces
  | .digits e place _ => e.Stands L ∧ L.place place
  | .noDigits e | .digitsMissing e | .pairBackslash e | .pairLetter e => e.Stands L
  | .number start chars =>
      ∃ c rest, chars.reverse = c :: rest ∧ isNumberStart c ∧ L.char start c
  | .word start chars => ∃ c rest, chars.reverse = c :: rest ∧ L.char start c

/-- Whether all that a step leaves, carried on or complete, keeps to the law. -/
def Leaves (L : Law) (next : Reading × List Lexeme) : Prop :=
  next.1.Stands L ∧ ∀ l ∈ next.2, l.Stands L

theorem leaves_nil {r : Reading} (h : r.Stands L) : Leaves L (r, []) :=
  ⟨h, fun _ hl => absurd hl List.not_mem_nil⟩

theorem leaves_single {r : Reading} {l : Lexeme} (h : r.Stands L) (hl : l.Stands L) :
    Leaves L (r, [l]) := by
  refine ⟨h, fun m hm => ?_⟩
  rw [List.mem_singleton.mp hm]
  exact hl

theorem leaves_breakOff {pieces : List Piece} {start place : Location} (hstart : L.char start '"')
    (h : Piece.Within L.directive pieces) (hplace : L.place place) (fault : Fault) :
    Leaves L (breakOff start pieces place fault) :=
  leaves_single trivial ⟨hstart, Piece.within_reverse h, hplace⟩

theorem leaves_badEscape {e : Escape} {place : Location} (h : e.Stands L) (hplace : L.place place) :
    Leaves L (badEscape e place) := leaves_breakOff h.start h.pieces hplace _

theorem leaves_escaped {e : Escape} (h : e.Stands L) (n : Nat) : Leaves L (escaped e n) := by
  unfold escaped
  split
  · split
    · exact leaves_nil ⟨h.start, Piece.within_char h.pieces⟩
    · exact leaves_badEscape h h.letter
  · split
    · exact leaves_nil ⟨h.start, h.pieces, h.letter⟩
    · split
      · exact leaves_badEscape h h.letter
      · exact leaves_nil ⟨h.start, Piece.within_char h.pieces⟩

theorem leaves_digit {e : Escape} {place : Location} (h : e.Stands L) (hplace : L.place place)
    (chars : List Char) (c : Char) : Leaves L (digit e place chars c) := by
  unfold digit
  split
  · split
    · exact leaves_escaped h _
    · exact leaves_badEscape h hplace
  · split
    · exact leaves_nil ⟨h, hplace⟩
    · exact leaves_badEscape h hplace

theorem leaves_start {place : Location} {c : Char} (h : L.char place c) :
    Leaves L (start place c) := by
  unfold start
  split
  · exact leaves_nil trivial
  · split
    · next hc =>
        subst hc
        exact leaves_nil h
    · split
      · next hc =>
          subst hc
          exact leaves_nil ⟨h, Piece.within_nil⟩
      · split
        · exact leaves_single trivial h
        · split
          · next hnumber => exact leaves_nil ⟨c, [], rfl, hnumber, h⟩
          · split
            · exact leaves_nil ⟨c, [], rfl, h⟩
            · exact leaves_single trivial h

theorem leaves_fresh {a : Atom} (h : a.Stands L) : Leaves L (fresh a) := by
  cases a with
  | char place c => exact leaves_start h
  | gap => exact leaves_nil trivial
  | directive d => exact leaves_single trivial ⟨rfl, h⟩

theorem leaves_complete {l : Lexeme} {a : Atom} (hl : l.Stands L) (h : a.Stands L) :
    Leaves L (complete l a) := by
  obtain ⟨hnext, hlexemes⟩ := leaves_fresh h
  refine ⟨hnext, fun m hm => ?_⟩
  rcases List.mem_cons.mp hm with rfl | hm
  · exact hl
  · exact hlexemes m hm

theorem leaves_inText {pieces : List Piece} {a : Atom} {begin : Location}
    (hbegin : L.char begin '"') (h : Piece.Within L.directive pieces) (ha : a.Stands L) :
    Leaves L (inText begin pieces a) := by
  cases a with
  | char place c =>
      simp only [inText]
      split
      · exact leaves_single trivial ⟨hbegin, Piece.within_reverse h⟩
      · split
        · exact leaves_nil ⟨hbegin, h⟩
        · split
          · exact leaves_breakOff hbegin h (L.place_of_char hbegin) _
          · split
            · exact leaves_breakOff hbegin h (L.place_of_char ha) _
            · exact leaves_nil ⟨hbegin, Piece.within_char h⟩
  | gap => exact leaves_nil ⟨hbegin, h⟩
  | directive d =>
      simp only [inText]
      split
      · exact leaves_breakOff hbegin h (L.place_of_char hbegin) _
      · exact leaves_nil ⟨hbegin, Piece.within_variable ha h⟩

theorem leaves_inEscape {pieces : List Piece} {a : Atom} {begin : Location}
    (hbegin : L.char begin '"') (h : Piece.Within L.directive pieces) (ha : a.Stands L) :
    Leaves L (inEscape begin pieces a) := by
  cases a with
  | char place c =>
      simp only [inEscape]
      split
      · exact leaves_nil ⟨hbegin, h, L.place_of_char ha⟩
      · split
        · exact leaves_nil ⟨hbegin, Piece.within_char h⟩
        · exact leaves_breakOff hbegin h (L.place_of_char ha) _
  | gap => exact leaves_nil ⟨hbegin, h⟩
  | directive d => exact leaves_breakOff hbegin h (L.place_of_directive ha) _

theorem exists_reverse_cons {chars rest : List Char} {c : Char} (h : chars.reverse = c :: rest)
    (last : Char) : (last :: chars).reverse = c :: (rest ++ [last]) := by
  rw [List.reverse_cons, h]
  rfl

theorem leaves_step {r : Reading} {a : Atom} (hr : r.Stands L) (ha : a.Stands L) :
    Leaves L (r.step a) := by
  cases r with
  | between => exact leaves_fresh ha
  | slash begin =>
      cases a <;> simp only [step]
      case char place c =>
        split
        · exact leaves_nil trivial
        · split
          · exact leaves_nil hr
          · exact leaves_complete hr ha
      all_goals exact leaves_complete hr ha
  | lineComment =>
      cases a <;> simp only [step]
      case char place c =>
        split
        · exact leaves_start ha
        · exact leaves_nil trivial
      all_goals exact leaves_fresh ha
  | blockComment begin =>
      cases a <;> simp only [step]
      case char place c => refine leaves_nil ?_; split <;> exact hr
      all_goals exact leaves_nil hr
  | blockStar begin =>
      cases a <;> simp only [step]
      case char place c =>
        refine leaves_nil ?_
        split
        · trivial
        · split <;> exact hr
      all_goals exact leaves_nil hr
  | text begin pieces => exact leaves_inText hr.1 hr.2 ha
  | escape begin pieces => exact leaves_inEscape hr.1 hr.2 ha
  | digits e place chars =>
      cases a with
      | char place' c => exact leaves_digit hr.1 hr.2 _ _
      | gap => exact leaves_badEscape hr.1 hr.2
      | directive d => exact leaves_badEscape hr.1 hr.2
  | noDigits e =>
      cases a with
      | char place c => exact leaves_digit hr (L.place_of_char ha) _ _
      | gap => exact leaves_nil hr
      | directive d => exact leaves_badEscape hr (L.place_of_directive ha)
  | digitsMissing e =>
      cases a with
      | char place c => exact leaves_badEscape hr (L.place_of_char ha)
      | gap => exact leaves_nil hr
      | directive d => exact leaves_badEscape hr (L.place_of_directive ha)
  | pairBackslash e =>
      cases a <;> simp only [step]
      case char place c =>
        split
        · exact leaves_nil hr
        · exact leaves_badEscape hr hr.letter
      all_goals exact leaves_badEscape hr hr.letter
  | pairLetter e =>
      cases a <;> simp only [step]
      case char place c =>
        split
        · exact leaves_nil hr
        · exact leaves_badEscape hr hr.letter
      all_goals exact leaves_badEscape hr hr.letter
  | number begin chars =>
      obtain ⟨first, rest, hchars, hnumber, hfirst⟩ := hr
      have hcomplete : Leaves L (complete ⟨begin, .number chars.reverse⟩ a) :=
        leaves_complete ⟨first, rest, hchars, hnumber, hfirst⟩ ha
      cases a <;> simp only [step]
      case char place c =>
        split
        · exact leaves_nil ⟨first, _, exists_reverse_cons hchars c, hnumber, hfirst⟩
        · exact hcomplete
      all_goals exact hcomplete
  | word begin chars =>
      obtain ⟨first, rest, hchars, hfirst⟩ := hr
      have hcomplete : Leaves L (complete ⟨begin, .word chars.reverse⟩ a) :=
        leaves_complete ⟨first, rest, hchars, hfirst⟩ ha
      cases a <;> simp only [step]
      case char place c =>
        split
        · exact leaves_nil ⟨first, _, exists_reverse_cons hchars c, hfirst⟩
        · exact hcomplete
      all_goals exact hcomplete
  | stopped => exact leaves_nil trivial

theorem stands_finish {r : Reading} {last : Location} (hr : r.Stands L) (hlast : L.place last) :
    ∀ l ∈ r.finish last, l.Stands L := by
  cases r with
  | between | lineComment | stopped => exact fun _ hl => absurd hl List.not_mem_nil
  | slash | blockComment | blockStar | number | word =>
      intro l hl
      rw [List.mem_singleton.mp hl]
      exact hr
  | text begin pieces => exact (leaves_breakOff hr.1 hr.2 (L.place_of_char hr.1) _).2
  | escape begin pieces => exact (leaves_breakOff hr.1 hr.2 hlast _).2
  | digits e place => exact (leaves_badEscape hr.1 hr.2).2
  | noDigits e | digitsMissing e => exact (leaves_badEscape hr hlast).2
  | pairBackslash e | pairLetter e => exact (leaves_badEscape hr hr.letter).2

theorem stands_run {atoms : List Atom} {last : Location} (ha : ∀ a ∈ atoms, a.Stands L)
    (hlast : L.place last) {r : Reading} (hr : r.Stands L) :
    ∀ l ∈ run last r atoms, l.Stands L := by
  induction atoms generalizing r with
  | nil => exact stands_finish hr hlast
  | cons a rest ih =>
      obtain ⟨hnext, hlexemes⟩ := leaves_step hr (ha a (by simp))
      intro l hl
      rcases List.mem_append.mp hl with hl | hl
      · exact hlexemes l hl
      · exact ih (fun b hb => ha b (List.mem_cons_of_mem _ hb)) hnext l hl

end Reading

end Lexeme

/-! ## Building drafts -/

/-- Whether nothing is inside a value. -/
def Json.isFlat : Json → Bool
  | .array items => items.isEmpty
  | .object members => members.isEmpty
  | .null | .bool _ | .number _ | .string _ => true

/-- Whether a character begins a number, a truth value or null. -/
def Json.beginsScalar (c : Char) : Bool :=
  Lexeme.isNumberStart c || c == 't' || c == 'f' || c == 'n'

mutual

/-- Whether a node is placed at the character it starts with, and keeps to the law inside. -/
def Node.Stands (L : Law) (place : Location) : Node → Prop
  | .scalar value => value.isFlat ∧ ∃ c, Json.beginsScalar c ∧ L.char place c
  | .text pieces => L.char place '"' ∧ Piece.Within L.directive pieces
  | .directive d => place = d.range.first ∧ L.directive d
  | .array elements => L.char place '[' ∧ elements.Stands L
  | .object members => L.char place '\x7b' ∧ members.Stands L
  | .broken pieces => L.place place ∧ Piece.Within L.directive pieces

def Elements.Stands (L : Law) : Elements → Prop
  | .none => True
  | .add earlier place node => earlier.Stands L ∧ node.Stands L place

/-- A member is placed at its key; where its value is placed is not kept. -/
def Members.Stands (L : Law) : Members → Prop
  | .none => True
  | .add earlier place key node =>
      earlier.Stands L ∧ L.char place '"' ∧ Piece.Within L.directive key ∧
        ∃ inner, node.Stands L inner
  | .spread earlier d => earlier.Stands L ∧ L.directive d

end

theorem Members.stands_broken {earlier : Members} {place : Location} {key pieces : List Piece}
    (h : earlier.Stands L) (hplace : L.char place '"') (hkey : Piece.Within L.directive key)
    (hpieces : Piece.Within L.directive pieces) :
    (earlier.add place key (.broken pieces)).Stands L :=
  ⟨h, hplace, hkey, place, L.place_of_char hplace, hpieces⟩

namespace Draft

/-- Whether all that a draft holds keeps to the law; without a fault its value is whole. -/
structure Stands (L : Law) (draft : Draft) : Prop where
  leading : ∀ d ∈ draft.leading, L.directive d
  body : ∀ place node, draft.body = some (place, node) → node.Stands L place
  trailing : ∀ d ∈ draft.trailing, L.directive d
  fault : ∀ f, draft.fault = some f → L.place f.place
  whole : draft.fault = none → ∀ place node, draft.body = some (place, node) →
    node.isBroken = false

/-- Whether all that is around a place keeps to the law. -/
def Hole.Stands (L : Law) : Hole → Prop
  | .body leading => ∀ d ∈ leading, L.directive d
  | .element outer start earlier => outer.Stands L ∧ L.char start '[' ∧ earlier.Stands L
  | .member outer start earlier place key =>
      outer.Stands L ∧ L.char start '\x7b' ∧ earlier.Stands L ∧ L.char place '"' ∧
        Piece.Within L.directive key

/-- Whether all that a builder carries keeps to the law. -/
def Builder.Stands (L : Law) : Builder → Prop
  | .body leading => ∀ d ∈ leading, L.directive d
  | .element outer start earlier | .afterElement outer start earlier =>
      outer.Stands L ∧ L.char start '[' ∧ earlier.Stands L
  | .member outer start earlier | .afterMember outer start earlier
  | .afterLink outer start earlier => outer.Stands L ∧ L.char start '\x7b' ∧ earlier.Stands L
  | .colon outer start earlier place key | .memberValue outer start earlier place key =>
      outer.Stands L ∧ L.char start '\x7b' ∧ earlier.Stands L ∧ L.char place '"' ∧
        Piece.Within L.directive key
  | .finished leading start value trailing =>
      (∀ d ∈ leading, L.directive d) ∧ (value.Stands L start ∧ value.isBroken = false) ∧
        ∀ d ∈ trailing, L.directive d
  | .stopped draft => draft.Stands L

/-- A draft that ends at a fault behind a value. -/
theorem stands_faulty {leading trailing : List Directive} {start : Location} {value : Node}
    {fault : FaultAt} (hleading : ∀ d ∈ leading, L.directive d) (hvalue : value.Stands L start)
    (htrailing : ∀ d ∈ trailing, L.directive d) (hfault : L.place fault.place) :
    Draft.Stands L ⟨leading, some (start, value), trailing, some fault⟩ where
  leading := hleading
  body place node h := by cases h; exact hvalue
  trailing := htrailing
  fault f h := by cases h; exact hfault
  whole h := by cases h

/-- A draft without a value. -/
theorem stands_blank {leading : List Directive} {fault : Option FaultAt}
    (hleading : ∀ d ∈ leading, L.directive d) (hfault : ∀ f, fault = some f → L.place f.place) :
    Draft.Stands L ⟨leading, none, [], fault⟩ where
  leading := hleading
  body place node h := by cases h
  trailing _ hd := absurd hd List.not_mem_nil
  fault := hfault
  whole _ place node h := by cases h

namespace Hole

theorem stands_fill {h : Hole} {start : Location} {value : Node} (hh : h.Stands L)
    (hv : value.Stands L start) (hwhole : value.isBroken = false) :
    (h.fill start value).Stands L := by
  cases h with
  | body leading => exact ⟨hh, ⟨hv, hwhole⟩, fun _ hd => absurd hd List.not_mem_nil⟩
  | element outer first earlier => exact ⟨hh.1, hh.2.1, hh.2.2, hv⟩
  | member outer first earlier place key =>
      obtain ⟨houter, hfirst, hearlier, hplace, hkey⟩ := hh
      exact ⟨houter, hfirst, hearlier, hplace, hkey, start, hv⟩

theorem stands_close {h : Hole} {start : Location} {value : Node} (hh : h.Stands L)
    (hv : value.Stands L start) :
    (∀ d ∈ (h.close start value).1, L.directive d) ∧
      (h.close start value).2.2.Stands L (h.close start value).2.1 := by
  induction h generalizing value start with
  | body leading => exact ⟨hh, hv⟩
  | element outer first earlier ih => exact ih hh.1 ⟨hh.2.1, hh.2.2, hv⟩
  | member outer first earlier place key ih =>
      obtain ⟨houter, hfirst, hearlier, hplace, hkey⟩ := hh
      exact ih houter ⟨hfirst, hearlier, hplace, hkey, start, hv⟩

theorem stands_stop {h : Hole} {start : Location} {value : Node} {fault : FaultAt}
    (hh : h.Stands L) (hv : value.Stands L start) (hfault : L.place fault.place) :
    (h.stop start value fault).Stands L := by
  obtain ⟨hleading, hbody⟩ := stands_close hh hv
  exact stands_faulty hleading hbody (fun _ hd => absurd hd List.not_mem_nil) hfault

end Hole

namespace Builder

theorem stands_takeValue {hole : Hole} {l : Lexeme} (hh : hole.Stands L) (hl : l.Stands L) :
    (takeValue hole l).Stands L := by
  have hplace := hl.place
  have hbroken (fault : Fault) : (hole.stop l.place (.broken []) ⟨l.place, fault⟩).Stands L :=
    Hole.stands_stop hh ⟨hplace, Piece.within_nil⟩ hplace
  obtain ⟨place, kind⟩ := l
  cases kind <;> simp only [takeValue, failValue]
  case directive d => exact Hole.stands_fill hh hl rfl
  case text pieces => exact Hole.stands_fill hh hl rfl
  case number chars =>
      obtain ⟨c, rest, -, hnumber, hc⟩ := hl
      split
      · exact Hole.stands_fill hh ⟨rfl, c, by simp [Json.beginsScalar, hnumber], hc⟩ rfl
      · exact hbroken _
  case word chars =>
      obtain ⟨c, rest, rfl, hc⟩ := hl
      have hfirst {first : Char} {word : List Char}
          (h : String.ofList (c :: rest) = String.ofList (first :: word)) : c = first := by
        have hchars := congrArg String.toList h
        rw [String.toList_ofList, String.toList_ofList] at hchars
        cases hchars
        rfl
      split
      · next hword => exact Hole.stands_fill hh ⟨rfl, c, by rw [@hfirst 't' _ hword]; rfl, hc⟩ rfl
      · next hword => exact Hole.stands_fill hh ⟨rfl, c, by rw [@hfirst 'f' _ hword]; rfl, hc⟩ rfl
      · next hword => exact Hole.stands_fill hh ⟨rfl, c, by rw [@hfirst 'n' _ hword]; rfl, hc⟩ rfl
      · exact hbroken _
  case mark c =>
      split
      all_goals first
        | exact hbroken _
        | contradiction
        | next hmark =>
            cases hmark
            exact ⟨hh, hl, trivial⟩
  case stray c => exact hbroken _
  case brokenText pieces at' fault =>
      exact Hole.stands_stop hh ⟨hplace, hl.2.1⟩ hl.2.2
  case openComment => exact hbroken _

theorem stands_takeMember {outer : Hole} {start : Location} {earlier : Members} {l : Lexeme}
    (ho : outer.Stands L) (hstart : L.char start '\x7b') (he : earlier.Stands L)
    (hl : l.Stands L) : (takeMember outer start earlier l).Stands L := by
  have hplace := hl.place
  obtain ⟨place, kind⟩ := l
  simp only [takeMember, failValue]
  split
  · exact Hole.stands_fill ho ⟨hstart, he⟩ rfl
  · exact ⟨ho, hstart, he, hl⟩
  · split <;> exact ⟨ho, hstart, he, hl.2⟩
  · exact Hole.stands_stop ho
      ⟨hstart, Members.stands_broken he hl.1 hl.2.1 Piece.within_nil⟩ hl.2.2
  · exact Hole.stands_stop ho ⟨hstart, he⟩ hplace
  · exact Hole.stands_stop ho ⟨hstart, he⟩ hplace

theorem stands_step {b : Builder} {l : Lexeme} (hb : b.Stands L) (hl : l.Stands L) :
    (b.step l).Stands L := by
  have hplace := hl.place
  cases b with
  | body leading =>
      obtain ⟨place, kind⟩ := l
      simp only [step]
      split
      · exact stands_blank hb fun f hf => by cases hf; exact hplace
      · split
        · intro e he
          rcases List.mem_append.mp he with he | he
          · exact hb e he
          · rw [List.mem_singleton.mp he]; exact hl.2
        · exact stands_takeValue hb hl
      · exact stands_takeValue hb hl
  | element outer start earlier =>
      obtain ⟨houter, hcontainer⟩ := hb
      obtain ⟨place, kind⟩ := l
      simp only [step, failValue]
      split
      · exact Hole.stands_fill houter hcontainer rfl
      · exact Hole.stands_stop houter hcontainer hplace
      · exact stands_takeValue ⟨houter, hcontainer⟩ hl
  | afterElement outer start earlier =>
      obtain ⟨houter, hcontainer⟩ := hb
      obtain ⟨place, kind⟩ := l
      simp only [step, failValue]
      split
      · exact ⟨houter, hcontainer⟩
      · exact Hole.stands_fill houter hcontainer rfl
      · split
        · exact stands_takeValue ⟨houter, hcontainer⟩ hl
        · exact Hole.stands_stop houter hcontainer hplace
      · exact Hole.stands_stop houter hcontainer hplace
  | member outer start earlier => exact stands_takeMember hb.1 hb.2.1 hb.2.2 hl
  | afterMember outer start earlier =>
      obtain ⟨houter, hcontainer⟩ := hb
      obtain ⟨place, kind⟩ := l
      simp only [step, failValue]
      split
      · exact ⟨houter, hcontainer⟩
      · exact Hole.stands_fill houter hcontainer rfl
      · split
        · exact stands_takeMember houter hcontainer.1 hcontainer.2 hl
        · exact Hole.stands_stop houter hcontainer hplace
      · exact Hole.stands_stop houter hcontainer hplace
  | afterLink outer start earlier =>
      simp only [step]
      split
      · exact hb
      · exact stands_takeMember hb.1 hb.2.1 hb.2.2 hl
  | colon outer start earlier at' key =>
      simp only [step, failValue]
      split
      · exact hb
      · obtain ⟨houter, hstart, hearlier, hat, hkey⟩ := hb
        exact Hole.stands_stop houter
          ⟨hstart, Members.stands_broken hearlier hat hkey Piece.within_nil⟩ hplace
  | memberValue outer start earlier at' key => exact stands_takeValue hb hl
  | finished leading start value trailing =>
      obtain ⟨hleading, ⟨hvalue, hwhole⟩, htrailing⟩ := hb
      obtain ⟨place, kind⟩ := l
      simp only [step]
      split
      · exact stands_faulty hleading hvalue htrailing hplace
      · split
        · refine ⟨hleading, ⟨hvalue, hwhole⟩, fun e he => ?_⟩
          rcases List.mem_append.mp he with he | he
          · exact htrailing e he
          · rw [List.mem_singleton.mp he]; exact hl.2
        · exact stands_faulty hleading hvalue htrailing hplace
      · exact stands_faulty hleading hvalue htrailing hplace
  | stopped draft => exact hb

theorem stands_finish {b : Builder} {last : Location} (hb : b.Stands L) (hlast : L.place last) :
    (b.finish last).Stands L := by
  cases b with
  | body leading => exact stands_blank hb fun _ hf => by cases hf
  | element outer start earlier | afterElement outer start earlier =>
      exact Hole.stands_stop hb.1 hb.2 hlast
  | member outer start earlier | afterMember outer start earlier | afterLink outer start earlier =>
      exact Hole.stands_stop hb.1 hb.2 hlast
  | colon outer start earlier place key | memberValue outer start earlier place key =>
      obtain ⟨houter, hstart, hearlier, hplace, hkey⟩ := hb
      exact Hole.stands_stop houter
        ⟨hstart, Members.stands_broken hearlier hplace hkey Piece.within_nil⟩ hlast
  | finished leading start value trailing =>
      obtain ⟨hleading, ⟨hvalue, hwhole⟩, htrailing⟩ := hb
      constructor
      case leading => exact hleading
      case body => intro place node h; cases h; exact hvalue
      case trailing => exact htrailing
      case fault => intro f h; cases h
      case whole => intro _ place node h; cases h; exact hwhole
  | stopped draft => exact hb

theorem stands_foldl {lexemes : List Lexeme} (hl : ∀ l ∈ lexemes, l.Stands L) {b : Builder}
    (hb : b.Stands L) : (lexemes.foldl step b).Stands L := by
  induction lexemes generalizing b with
  | nil => exact hb
  | cons l rest ih =>
      exact ih (fun m hm => hl m (List.mem_cons_of_mem _ hm)) (stands_step hb (hl l (by simp)))

end Builder

/-- The draft of tokens keeps to a law that their atoms keep to. -/
theorem stands_ofTokens {tokens : List Token} (h : ∀ a ∈ Atom.ofTokens 0 tokens, a.Stands L)
    (hlast : L.place (endOfTokens tokens)) : (Draft.ofTokens tokens).Stands L := by
  have hlexemes := Lexeme.Reading.stands_run h hlast (r := .between) trivial
  exact Builder.stands_finish (Builder.stands_foldl hlexemes
    (b := .body []) fun _ hd => absurd hd List.not_mem_nil) hlast

end Draft

/-! ## From tokens to demands -/

/-- Whether the directives of all of some demands have a property. -/
def Demand.Within (P : Directive → Prop) (demands : List Demand) : Prop :=
  ∀ demand ∈ demands, ∀ d, demand.directive? = some d → P d

namespace Demand

theorem within_nil : Demand.Within P [] := fun _ h => absurd h List.not_mem_nil

theorem within_append {first second : List Demand} (h : Demand.Within P first)
    (h' : Demand.Within P second) : Demand.Within P (first ++ second) := by
  intro demand hmem d hd
  rcases List.mem_append.mp hmem with hmem | hmem
  · exact h demand hmem d hd
  · exact h' demand hmem d hd

theorem within_single {demand : Demand} {d : Directive} (h : demand.directive? = some d)
    (hd : P d) : Demand.Within P [demand] := by
  intro e he f hf
  rw [List.mem_singleton.mp he, h] at hf
  cases hf
  exact hd

theorem within_values {directives : List Directive} (h : ∀ d ∈ directives, P d) :
    Demand.Within P (directives.map .value) := by
  intro demand hmem d hd
  obtain ⟨e, he, rfl⟩ := List.mem_map.mp hmem
  cases hd
  exact h d he

theorem within_faults (faults : List FaultAt) : Demand.Within P (faults.map .fault) := by
  intro demand hmem d hd
  obtain ⟨f, -, rfl⟩ := List.mem_map.mp hmem
  cases hd

end Demand

theorem Piece.within_demands {pieces : List Piece} (h : Piece.Within P pieces) :
    Demand.Within P (Piece.demands pieces) := by
  induction pieces with
  | nil => exact Demand.within_nil
  | cons piece rest ih =>
      have hrest : Demand.Within P (Piece.demands rest) :=
        ih fun d hd => h d (List.mem_cons_of_mem _ hd)
      match piece with
      | .char c => exact hrest
      | .variable d => exact Demand.within_append (Demand.within_single rfl (h d (by simp))) hrest

mutual

/-- A node that keeps to a law demands directives that do. -/
theorem Node.Stands.demands {node : Node} {place : Location} (h : node.Stands L place) :
    Demand.Within L.directive node.demands := by
  match node with
  | .scalar _ => exact Demand.within_nil
  | .text pieces | .broken pieces => exact Piece.within_demands h.2
  | .directive d => exact Demand.within_single rfl h.2
  | .array elements => exact Elements.Stands.demands h.2
  | .object members => exact Members.Stands.demands h.2

theorem Elements.Stands.demands {elements : Elements} (h : elements.Stands L) :
    Demand.Within L.directive elements.demands := by
  match elements with
  | .none => exact Demand.within_nil
  | .add earlier place node =>
      exact Demand.within_append (Elements.Stands.demands h.1) (Node.Stands.demands h.2)

theorem Members.Stands.demands {members : Members} (h : members.Stands L) :
    Demand.Within L.directive members.demands := by
  match members with
  | .none => exact Demand.within_nil
  | .add earlier place key node =>
      obtain ⟨hearlier, -, hkey, inner, hnode⟩ := h
      exact Demand.within_append (Members.Stands.demands hearlier)
        (Demand.within_append (Piece.within_demands hkey) (Node.Stands.demands hnode))
  | .spread earlier d =>
      exact Demand.within_append (Members.Stands.demands h.1) (Demand.within_single rfl h.2)

end

theorem Draft.Stands.bodyDemands {draft : Draft} (h : draft.Stands L) :
    Demand.Within L.directive draft.bodyDemands := by
  rw [Draft.bodyDemands]
  split
  · exact Demand.within_nil
  · next place node hbody => exact (h.body place node hbody).demands

theorem Draft.Stands.demands {draft : Draft} (h : draft.Stands L) {links : List Directive}
    (hlinks : ∀ d ∈ links, L.directive d) : Demand.Within L.directive (draft.demands links) :=
  Demand.within_append (Demand.within_values h.leading) (Demand.within_append h.bodyDemands
    (Demand.within_append (Demand.within_values h.trailing)
      (Demand.within_append (Demand.within_faults _) (Demand.within_values hlinks))))

theorem Atom.stands_chars (h : ∀ l c, L.char l c) (place : Location) (text : List Char) :
    ∀ a ∈ Atom.chars place text, a.Stands L := by
  induction text generalizing place with
  | nil => exact fun _ ha => absurd ha List.not_mem_nil
  | cons c rest ih =>
      intro a ha
      rcases List.mem_cons.mp ha with rfl | ha
      · exact h _ _
      · exact ih _ a ha

theorem Atom.stands_ofTokens (hchar : ∀ l c, L.char l c) {number : Nat} {tokens : List Token}
    (h : ∀ d ∈ Directive.ofTokens number tokens, L.directive d) :
    ∀ a ∈ Atom.ofTokens number tokens, a.Stands L := by
  induction tokens generalizing number with
  | nil => exact fun _ ha => absurd ha List.not_mem_nil
  | cons t rest ih =>
      have hfirst : ∀ d ∈ (Directive.ofToken? number t).toList, L.directive d :=
        fun d hd => h d (List.mem_append_left _ hd)
      have hdirectives : ∀ a ∈ (Directive.ofToken? number t).toList.map Atom.directive,
          a.Stands L := by
        intro a ha
        obtain ⟨d, hd, rfl⟩ := List.mem_map.mp ha
        exact hfirst d hd
      intro a ha
      rcases List.mem_append.mp ha with ha | ha
      · unfold Atom.ofToken at ha
        split at ha
        · exact Atom.stands_chars hchar _ _ a ha
        · rw [List.mem_singleton.mp ha]; trivial
        · exact hdirectives a ha
      · exact ih (fun d hd => h d (List.mem_append_right _ hd)) a ha

/-- A draft's directives have what the tokens' directives have, whatever the characters. -/
theorem Draft.stands_of_directives {tokens : List Token}
    (h : ∀ d ∈ Directive.ofTokens 0 tokens, P d) :
    (Draft.ofTokens tokens).Stands (.ofDirectives P) :=
  Draft.stands_ofTokens (Atom.stands_ofTokens (L := .ofDirectives P) (fun _ _ => trivial) h) trivial

/-- Whatever a template demands is about one of its own directives. -/
theorem Setting.within_demands {tokens : List Token} {demand : Demand} {d : Directive}
    (hmem : demand ∈ Setting.demands tokens) (hd : demand.directive? = some d) :
    d ∈ Directive.ofTokens 0 tokens :=
  (Draft.stands_of_directives (P := (· ∈ Directive.ofTokens 0 tokens)) fun _ h => h).demands
    (fun _ h => (List.mem_filter.mp h).1) demand hmem d hd

/-- Every link of a template is demanded. -/
theorem Setting.value_mem_demands {tokens : List Token} {d : Directive}
    (hd : d ∈ Directive.ofTokens 0 tokens) (hlink : d.isLink = true) :
    .value d ∈ Setting.demands tokens := by
  have hlinks : Demand.value d ∈
      ((Directive.ofTokens 0 tokens).filter Directive.isLink).map .value :=
    List.mem_map_of_mem (List.mem_filter.mpr ⟨hd, hlink⟩)
  unfold Setting.demands Draft.demands
  simp only [List.mem_append]
  exact Or.inr (Or.inr (Or.inr (Or.inr hlinks)))

/-! ## The links of a template -/

theorem Directive.number_of_ofToken? {number : Nat} {t : Token} {d : Directive}
    (h : Directive.ofToken? number t = some d) : d.number = number := by
  unfold Directive.ofToken? at h
  split at h
  · cases h; rfl
  · cases h; rfl
  · cases h

theorem Directive.meaning_of_ofToken? {number : Nat} {t : Token} {d : Directive}
    {expression : String} (hcontent : t.content = .variable expression)
    (h : Directive.ofToken? number t = some d) : d.meaning = .variable expression := by
  rw [Directive.ofToken?, hcontent] at h
  cases h
  rfl

theorem Directive.le_number {number : Nat} {tokens : List Token} {d : Directive}
    (hd : d ∈ Directive.ofTokens number tokens) : number ≤ d.number := by
  induction tokens generalizing number with
  | nil => cases hd
  | cons t rest ih =>
      rcases List.mem_append.mp hd with hd | hd
      · exact Nat.le_of_eq (Directive.number_of_ofToken? (Option.mem_toList.mp hd)).symm
      · exact Nat.le_of_succ_le (ih hd)

/-- The number tells the directives of a template apart. -/
theorem Directive.eq_of_number_eq {number : Nat} {tokens : List Token} {d e : Directive}
    (hd : d ∈ Directive.ofTokens number tokens) (he : e ∈ Directive.ofTokens number tokens)
    (h : d.number = e.number) : d = e := by
  induction tokens generalizing number with
  | nil => cases hd
  | cons t rest ih =>
      rcases List.mem_append.mp hd with hd | hd <;> rcases List.mem_append.mp he with he | he
      · rw [Option.mem_toList] at hd he
        exact Option.some.inj (hd.symm.trans he)
      · have hdn := Directive.number_of_ofToken? (Option.mem_toList.mp hd)
        have hen := Directive.le_number he
        omega
      · have hdn := Directive.le_number hd
        have hen := Directive.number_of_ofToken? (Option.mem_toList.mp he)
        omega
      · exact ih hd he

/-- The links among the directives are the links among the tokens. -/
theorem Directive.exists_link_iff {number : Nat} {tokens : List Token} {link : Link} :
    (∃ d ∈ Directive.ofTokens number tokens, d.meaning = .link link) ↔
      ∃ t ∈ tokens, t.content = .link link := by
  induction tokens generalizing number with
  | nil => simp [Directive.ofTokens]
  | cons t rest ih =>
      have hfirst : (∃ d ∈ (Directive.ofToken? number t).toList, d.meaning = .link link) ↔
          t.content = .link link := by
        unfold Directive.ofToken?
        split
        · next h => simp [h]
        · next h => simp [h]
        · next h => simpa using h link
      constructor
      · rintro ⟨d, hd, hlink⟩
        rcases List.mem_append.mp hd with hd | hd
        · exact ⟨t, by simp, hfirst.mp ⟨d, hd, hlink⟩⟩
        · obtain ⟨u, hu, hcontent⟩ := ih.mp ⟨d, hd, hlink⟩
          exact ⟨u, List.mem_cons_of_mem _ hu, hcontent⟩
      · rintro ⟨u, hu, hcontent⟩
        rcases List.mem_cons.mp hu with rfl | hu
        · obtain ⟨d, hd, hlink⟩ := hfirst.mpr hcontent
          exact ⟨d, List.mem_append_left _ hd, hlink⟩
        · obtain ⟨d, hd, hlink⟩ := ih.mpr ⟨u, hu, hcontent⟩
          exact ⟨d, List.mem_append_right _ hd, hlink⟩

end Stencil
