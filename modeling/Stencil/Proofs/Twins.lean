import Stencil.Proofs.Likeness
import Stencil.Proofs.Seams

/-!
# The same marks in two places

Marks become atoms alike wherever they stand: only locations and the numbers of directives
differ. So two texts that have some marks in common have atoms in common, up to likeness,
if the relation of twins takes no account of more than the spots allow. From the atoms one
also has the directives of a text, and its links.

A number or a word ends where something comes that does not continue it, so a gap in that
place changes nothing. Neither does a gap between lexemes or inside a string.
-/

namespace Stencil

theorem exists_mem_of_forall₂ {α β : Type*} {R : α → β → Prop} {l : List α} {l' : List β}
    (h : List.Forall₂ R l l') {b : β} (hb : b ∈ l') : ∃ a ∈ l, R a b := by
  induction h with
  | nil => cases hb
  | cons hab _ ih =>
      rcases List.mem_cons.mp hb with rfl | hb
      · exact ⟨_, List.mem_cons_self, hab⟩
      · obtain ⟨a, ha, hr⟩ := ih hb
        exact ⟨a, List.mem_cons_of_mem _ ha, hr⟩

/-! ## Directives among atoms -/

def Atom.directive? : Atom → Option Directive
  | .directive d => some d
  | _ => none

theorem Atom.filterMap_chars (place : Location) (text : List Char) :
    (Atom.chars place text).filterMap Atom.directive? = [] := by
  induction text generalizing place with
  | nil => rfl
  | cons c text ih => exact ih (place.advance c)

/-- The directives of a row of tokens are those among its atoms. -/
theorem Directive.ofTokens_eq (number : Nat) (tokens : List Token) :
    Directive.ofTokens number tokens =
      (Atom.ofTokens number tokens).filterMap Atom.directive? := by
  induction tokens generalizing number with
  | nil => rfl
  | cons t tokens ih =>
      rw [Directive.ofTokens, Atom.ofTokens, List.filterMap_append, ih, Atom.ofToken]
      refine congrArg (· ++ _) ?_
      cases hcontent : t.content with
      | literal => simp [Directive.ofToken?, hcontent, Atom.filterMap_chars]
      | control => simp [Directive.ofToken?, hcontent, Atom.directive?]
      | «variable» | link => simp [Directive.ofToken?, hcontent, Atom.directive?]

namespace Likeness

variable {K : Likeness} {atoms atoms' : List Atom}

theorem twins_directives (h : List.Forall₂ K.Atoms atoms atoms') :
    List.Forall₂ K.twins (atoms.filterMap Atom.directive?) (atoms'.filterMap Atom.directive?) := by
  induction h with
  | nil => exact .nil
  | cons ha _ ih =>
      cases ha with
      | char => exact ih
      | gap => exact ih
      | directive hd => exact .cons hd ih

/-- The links of two rows of twins are twins. -/
theorem twins_links {directives directives' : List Directive}
    (h : List.Forall₂ K.twins directives directives') :
    List.Forall₂ K.twins (directives.filter Directive.isLink)
      (directives'.filter Directive.isLink) := by
  induction h with
  | nil => exact .nil
  | @cons d d' _ _ hd _ ih =>
      rw [List.filter_cons, List.filter_cons, K.isLink_eq hd]
      split
      · exact .cons hd ih
      · exact ih

/-! ## The same marks -/

theorem atoms_chars (place place' : Location) (text : List Char) :
    List.Forall₂ K.Atoms (Atom.chars place text) (Atom.chars place' text) := by
  induction text generalizing place place' with
  | nil => exact .nil
  | cons c text ih => exact .cons (.char _ _ c) (ih _ _)

/-- A mark becomes like atoms at two spots, if directives with the numbers that are free there are
twins when they say the same. -/
theorem atoms_give {x y : Scan.Spot} (htwins : ∀ d d' : Directive, d.number = x.free →
      d'.number = y.free → d'.meaning = d.meaning → d'.raw = d.raw → K.twins d d')
    (mark : Scan.Mark) : List.Forall₂ K.Atoms (x.give mark) (y.give mark) :=
  match mark with
  | .char c => .cons (.char _ _ c) .nil
  | .directive .literal _ => atoms_chars _ _ _
  | .directive (.control _) _ => .cons .gap .nil
  | .directive (.variable _) _ => .cons (.directive (htwins _ _ rfl rfl rfl rfl)) .nil
  | .directive (.link _) _ => .cons (.directive (htwins _ _ rfl rfl rfl rfl)) .nil

theorem atoms_marks {R : Scan.Spot → Scan.Spot → Prop}
    (hpass : ∀ x y mark, R x y → R (x.pass mark) (y.pass mark))
    (htwins : ∀ x y d d', R x y → d.number = x.free → d'.number = y.free →
      d'.meaning = d.meaning → d'.raw = d.raw → K.twins d d')
    {x y : Scan.Spot} (h : R x y) (marks : List Scan.Mark) :
    List.Forall₂ K.Atoms (x.atoms marks) (y.atoms marks) := by
  induction marks generalizing x y with
  | nil => exact .nil
  | cons mark marks ih =>
      exact List.rel_append (atoms_give (fun d d' => htwins x y d d' h) mark)
        (ih (hpass x y mark h))

end Likeness

/-! ## Gaps that change nothing -/

namespace Lexeme.Reading

/-- Whether a gap may stand where a reader is when a character or something else comes next: it is
between two lexemes, or in a string between two characters. -/
def Admits (next : Option Char) : Reading → Prop
  | .between | .text .. => True
  | .number .. => ∀ c, next = some c → Json.Reader.isNumberChar c = false
  | .word .. => ∀ c, next = some c → isWordChar c = false
  | _ => False

instance (next : Option Char) : (r : Reading) → Decidable (r.Admits next)
  | .between | .text .. => .isTrue trivial
  | .number .. =>
      match next with
      | none => .isTrue fun _ hc => by cases hc
      | some c => decidable_of_iff (Json.Reader.isNumberChar c = false)
          ⟨fun h _ hc => Option.some.inj hc ▸ h, fun h => h c rfl⟩
  | .word .. =>
      match next with
      | none => .isTrue fun _ hc => by cases hc
      | some c => decidable_of_iff (isWordChar c = false)
          ⟨fun h _ hc => Option.some.inj hc ▸ h, fun h => h c rfl⟩
  | .slash _ | .lineComment | .blockComment _ | .blockStar _ | .escape .. | .digits .. | .noDigits _
  | .digitsMissing _ | .pairBackslash _ | .pairLetter _ | .stopped => .isFalse id

end Lexeme.Reading

/-- The character that an atom is. -/
def Atom.char? : Atom → Option Char
  | .char _ c => some c
  | _ => none

namespace Draft.Cursor

variable {k : Cursor}

theorem step_gap_step {a : Atom} (h : k.reading.Admits a.char?) :
    (k.step .gap).step a = k.step a := by
  obtain ⟨reading, builder⟩ := k
  cases reading with
  | between => rfl
  | text begin pieces => rfl
  | number begin chars =>
      cases a with
      | char place c =>
          have hc : Json.Reader.isNumberChar c = false := h c rfl
          simp only [step, Lexeme.Reading.step, hc, Bool.false_eq_true, if_false]
          rfl
      | gap => rfl
      | directive d => rfl
  | word begin chars =>
      cases a with
      | char place c =>
          have hc : Lexeme.isWordChar c = false := h c rfl
          simp only [step, Lexeme.Reading.step, hc, Bool.false_eq_true, if_false]
          rfl
      | gap => rfl
      | directive d => rfl
  | _ => exact h.elim

/-- Where a gap may stand, a template comes to the same draft with it. -/
theorem finish_foldl_gap {later : List Atom} (h : k.reading.Admits (later.head?.bind Atom.char?))
    (last : Location) :
    (later.foldl step (k.step .gap)).finish last = (later.foldl step k).finish last := by
  cases later with
  | cons a later => rw [List.foldl_cons, step_gap_step h, List.foldl_cons]
  | nil =>
      obtain ⟨reading, builder⟩ := k
      cases reading with
      | between | text | number | word => rfl
      | _ => exact h.elim

end Draft.Cursor

end Stencil
