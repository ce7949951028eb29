import Mathlib.Data.List.Forall2
import Stencil.Atom
import Stencil.Token.Scan

/-!
# The scanner's way through a text

Scanning gives tokens, and assembly reads tokens as atoms. What is in between can be
forgotten: the scanner visits the text place by place, each time in some mode, and
finds a literal character or a directive there, and the atoms of the tokens are what it
found, one for each visit and at the same place.

Where a directive is found, its text stands there, so that the scanner goes on behind
it; that is all the theory needs to know about how directives are recognized.
-/

namespace Stencil

namespace Text

theorem eq_of_before? {mark text body : List Char} (h : before? mark text = some body) :
    ∃ after, text = body ++ mark ++ after := by
  induction text generalizing body with
  | nil =>
      rw [before?] at h
      split at h
      · next hempty =>
          cases h
          exact ⟨[], by simp [List.isEmpty_iff.mp hempty]⟩
      · cases h
  | cons c rest ih =>
      rw [before?] at h
      split at h
      · next hprefix =>
          cases h
          obtain ⟨after, hafter⟩ := List.isPrefixOf_iff_prefix.mp hprefix
          exact ⟨after, hafter.symm⟩
      · obtain ⟨inner, hinner, rfl⟩ := Option.map_eq_some_iff.mp h
        obtain ⟨after, hafter⟩ := ih hinner
        exact ⟨after, by simp [hafter]⟩

end Text

namespace Link

theorem suffix_of_upTo? {close : Char} {text inner rest : List Char}
    (h : upTo? close text = some (inner, rest)) : rest <:+ text := by
  induction text generalizing inner with
  | nil => cases h
  | cons c text ih =>
      rw [upTo?] at h
      split at h
      · cases h
        exact List.suffix_cons c rest
      · split at h
        · cases h
        · obtain ⟨⟨inner', rest'⟩, hinner, hpair⟩ := Option.map_eq_some_iff.mp h
          cases hpair
          exact (ih hinner).trans (List.suffix_cons c text)

theorem eq_of_read? {text after : List Char} {link : Link}
    (h : read? text = some (link, after)) : ∃ raw, text = '/' :: raw ++ after := by
  simp only [read?, Option.bind_eq_bind, Option.bind_eq_some_iff] at h
  obtain ⟨body, hbody, inner, hinner, ⟨description, rest⟩, hdescription, target, htarget,
    ⟨path, last⟩, hpath, hlink⟩ := h
  obtain rfl : last = after := by
    split at hlink
    · cases hlink
    · cases hlink
      rfl
  rw [Text.after?_eq_some_iff] at hbody hinner htarget
  have hsuffix : last <:+ '/' :: body :=
    (suffix_of_upTo? hpath).trans <| List.IsSuffix.trans ⟨['('], htarget.symm⟩ <|
      (suffix_of_upTo? hdescription).trans <| List.IsSuffix.trans ⟨['['], hinner.symm⟩ <|
      (List.dropWhile_suffix _).trans (List.suffix_cons _ _)
  obtain ⟨raw, hraw⟩ := hsuffix
  refine ⟨raw, ?_⟩
  show text = '/' :: (raw ++ last)
  rw [hraw]
  exact hbody

end Link

namespace Scan

theorem Bracket.eq_of_at? {text : List Char} {b : Bracket} (h : Bracket.at? text = some b) :
    ∃ o tail, b.opening = ['\x7b', o] ∧ text = '\x7b' :: o :: tail := by
  have hprefix : b.opening <+: text := by
    rw [Bracket.at?] at h
    split at h
    · next hvariable =>
        cases h
        exact List.isPrefixOf_iff_prefix.mp hvariable
    · split at h
      · next hcontrol =>
          cases h
          exact List.isPrefixOf_iff_prefix.mp hcontrol
      · cases h
  obtain ⟨tail, rfl⟩ := hprefix
  match b with
  | .variable => exact ⟨'\x7b', tail, rfl, rfl⟩
  | .control => exact ⟨'%', tail, rfl, rfl⟩

/-- What may stand at a place: a character, a directive whose text the text goes on with, or a
bracket that is not closed. -/
theorem find_cases (mode : Mode) (c : Char) (rest : List Char) :
    find mode c rest = .literal (mode.next c rest) ∨
    (∃ content raw after, find mode c rest = .directive content (c :: raw) ∧
      mode.seesBrackets = true ∧ content ≠ .literal ∧ rest = raw ++ after) ∨
    ∃ bracket, find mode c rest = .unclosed bracket ∧ mode.seesBrackets = true := by
  unfold find
  cases hbracket : (if mode.seesBrackets then Bracket.at? (c :: rest) else none) with
  | some bracket =>
      obtain ⟨hsees, hat⟩ : mode.seesBrackets = true ∧ Bracket.at? (c :: rest) = some bracket := by
        split at hbracket
        · next hsees => exact ⟨hsees, hbracket⟩
        · cases hbracket
      obtain ⟨o, tail, hopening, htext⟩ := Bracket.eq_of_at? hat
      cases htext
      simp only [List.drop_succ_cons, List.drop_zero]
      cases hbody : Text.before? bracket.closing tail with
      | none => exact Or.inr (Or.inr ⟨bracket, rfl, hsees⟩)
      | some body =>
          obtain ⟨after, rfl⟩ := Text.eq_of_before? hbody
          refine Or.inr (Or.inl ⟨bracket.content body, o :: (body ++ bracket.closing), after, ?_,
            hsees, ?_, rfl⟩)
          · dsimp only
            rw [hopening]
            rfl
          · cases bracket <;> exact Token.Content.noConfusion
  | none =>
      dsimp only
      cases hlink : (if mode = .plain then Link.read? (c :: rest) else none) with
      | none => exact Or.inl rfl
      | some found =>
          obtain ⟨link, after⟩ := found
          obtain ⟨rfl, hread⟩ : mode = .plain ∧ Link.read? (c :: rest) = some (link, after) := by
            split at hlink
            · next hplain => exact ⟨hplain, hlink⟩
            · cases hlink
          obtain ⟨raw, htext⟩ := Link.eq_of_read? hread
          cases htext
          refine Or.inr (Or.inl ⟨.link link, raw, after, ?_, rfl, Token.Content.noConfusion, rfl⟩)
          have htake : ('/' :: (raw ++ after)).take ((raw ++ after).length + 1 - after.length) =
              '/' :: raw := by
            rw [List.length_append, show raw.length + after.length + 1 - after.length =
              raw.length + 1 by omega, List.take_succ_cons, List.take_left]
          dsimp only
          exact congrArg _ htake

/-! ## Directives of a cut -/

section Directives

variable {mode : Mode} {n : Nat} {text raw : List Char} {content : Token.Content}

/-- A directive of a cut was found somewhere. -/
theorem exists_find_of_mem_cut (h : .directive content raw ∈ (cut mode n text).marks) :
    ∃ mode c rest, find mode c rest = .directive content raw := by
  induction text generalizing mode n with
  | nil =>
      rw [cut] at h
      cases h
  | cons c rest ih =>
      cases n with
      | succ n =>
          rw [cut] at h
          exact ih h
      | zero =>
          rw [cut] at h
          cases hfind : find mode c rest with
          | literal next =>
              rw [hfind] at h
              exact ih (List.mem_of_ne_of_mem Mark.noConfusion h)
          | directive content' raw' =>
              rw [hfind] at h
              rcases List.mem_cons.mp h with heq | h
              · cases heq
                exact ⟨mode, c, rest, hfind⟩
              · exact ih h
          | unclosed bracket =>
              rw [hfind] at h
              cases h

theorem directive_of_mem_cut (h : .directive content raw ∈ (cut mode n text).marks) :
    raw ≠ [] ∧ content ≠ .literal := by
  obtain ⟨mode, c, rest, hdirective⟩ := exists_find_of_mem_cut h
  rcases find_cases mode c rest with
    hfind | ⟨content', raw', after, hfind, -, hcontent, -⟩ | ⟨bracket, hfind, -⟩
  · cases hfind.symm.trans hdirective
  · cases hfind.symm.trans hdirective
    exact ⟨List.cons_ne_nil _ _, hcontent⟩
  · cases hfind.symm.trans hdirective

/-- A directive that was cut from a text is one of its tokens. -/
theorem exists_mem_gather {marks : List Mark} (h : .directive content raw ∈ marks)
    (start : Location) (pending : List Char) :
    ∃ range, ⟨content, String.ofList raw, range⟩ ∈ gather start pending marks := by
  induction marks generalizing start pending with
  | nil => cases h
  | cons mark marks ih =>
      cases mark with
      | char c => exact ih (List.mem_of_ne_of_mem Mark.noConfusion h) start (c :: pending)
      | directive content' raw' =>
          rcases List.mem_cons.mp h with heq | h
          · cases heq
            exact ⟨_, List.mem_append_right _ List.mem_cons_self⟩
          · obtain ⟨range, hrange⟩ := ih h _ []
            exact ⟨range, List.mem_append_right _ (List.mem_cons_of_mem _ hrange)⟩

end Directives

theorem gather_map_char (start : Location) (pending text : List Char) :
    gather start pending (text.map .char) = literal start (pending.reverse ++ text) := by
  induction text generalizing pending with
  | nil => rw [List.map_nil, gather, List.append_nil]
  | cons c text ih =>
      rw [List.map_cons, gather, ih, List.reverse_cons, List.append_assoc]
      rfl

/-! ## Visits -/

/-- A place where the scanner looks for something, in what mode, and what it finds. -/
structure Visit where
  place : Location
  mode : Mode
  mark : Mark

/-- The visits of the scanner, with the first `passed` characters belonging to a directive. -/
def visits (mode : Mode) : (passed : Nat) → Location → List Char → List Visit
  | _, _, [] => []
  | passed + 1, place, c :: rest => visits mode passed (place.advance c) rest
  | 0, place, c :: rest =>
      match find mode c rest with
      | .literal next => ⟨place, mode, .char c⟩ :: visits next 0 (place.advance c) rest
      | .directive content raw =>
          ⟨place, mode, .directive content raw⟩ ::
            visits mode (raw.length - 1) (place.advance c) rest
      | .unclosed _ => []

/-- The mode in which the scanner comes to its end. -/
def lastMode (mode : Mode) : (passed : Nat) → List Char → Mode
  | _, [] => mode
  | passed + 1, _ :: rest => lastMode mode passed rest
  | 0, c :: rest =>
      match find mode c rest with
      | .literal next => lastMode next 0 rest
      | .directive _ raw => lastMode mode (raw.length - 1) rest
      | .unclosed _ => mode

/-- Whether an atom is what a visit found. -/
def Visit.Gives (v : Visit) : Atom → Prop
  | .char place c => v.mark = .char c ∧ v.place = place
  | .gap => ∃ statement raw, v.mark = .directive (.control statement) raw
  | .directive d =>
      v.place = d.range.first ∧
        ((∃ expression raw, v.mark = .directive (.variable expression) raw ∧ d.isLink = false) ∨
          ∃ link raw, v.mark = .directive (.link link) raw ∧ d.isLink = true)

theorem Visit.Gives.eq_char {v : Visit} {a : Atom} {c : Char} (h : v.Gives a)
    (hmark : v.mark = .char c) : a = .char v.place c := by
  cases a with
  | char place d =>
      obtain ⟨hd, rfl⟩ := h
      cases hmark.symm.trans hd
      rfl
  | gap =>
      obtain ⟨_, _, hgap⟩ := h
      cases hmark.symm.trans hgap
  | directive d =>
      obtain ⟨-, ⟨_, _, hd, -⟩ | ⟨_, _, hd, -⟩⟩ := h
      · cases hmark.symm.trans hd
      · cases hmark.symm.trans hd

theorem Visit.Gives.ne_char {v : Visit} {a : Atom} {content : Token.Content} {raw : List Char}
    (h : v.Gives a) (hmark : v.mark = .directive content raw) :
    ∀ place c, a ≠ .char place c := by
  rintro place c rfl
  cases hmark.symm.trans h.1

theorem map_mark_visits (mode : Mode) (passed : Nat) (place : Location) (text : List Char) :
    (visits mode passed place text).map Visit.mark = (cut mode passed text).marks := by
  induction text generalizing mode passed place with
  | nil => rw [visits, cut, List.map_nil]
  | cons c rest ih =>
      match passed with
      | passed + 1 =>
          rw [visits, cut]
          exact ih ..
      | 0 =>
          rw [visits, cut]
          cases find mode c rest with
          | literal next => exact congrArg _ (ih ..)
          | directive content raw => exact congrArg _ (ih ..)
          | unclosed bracket => rfl

theorem offset_lt_of_mem_visits {mode : Mode} {passed : Nat} {place : Location} {c : Char}
    {rest : List Char} {v : Visit} (h : v ∈ visits mode passed (place.advance c) rest) :
    place.offset < v.place.offset := by
  have hadvance (place : Location) (c : Char) : place.offset < (place.advance c).offset := by
    rw [Location.offset_advance]
    exact Nat.lt_add_of_pos_right c.utf8Size_pos
  induction rest generalizing mode passed place c with
  | nil => cases h
  | cons d rest ih =>
      have hlater {mode : Mode} {passed : Nat}
          (h : v ∈ visits mode passed ((place.advance c).advance d) rest) :
          place.offset < v.place.offset := Nat.lt_trans (hadvance place c) (ih h)
      match passed with
      | passed + 1 => exact hlater h
      | 0 =>
          rw [visits] at h
          split at h
          · rcases List.mem_cons.mp h with rfl | h
            · exact hadvance place c
            · exact hlater h
          · rcases List.mem_cons.mp h with rfl | h
            · exact hadvance place c
            · exact hlater h
          · cases h

/-- No two visits are at the same byte. -/
theorem pairwise_visits (mode : Mode) (passed : Nat) (place : Location) (text : List Char) :
    (visits mode passed place text).Pairwise fun u v => u.place.offset < v.place.offset := by
  induction text generalizing mode passed place with
  | nil => exact List.Pairwise.nil
  | cons c rest ih =>
      match passed with
      | passed + 1 => exact ih ..
      | 0 =>
          rw [visits]
          split
          · exact List.pairwise_cons.mpr ⟨fun _ h => offset_lt_of_mem_visits h, ih ..⟩
          · exact List.pairwise_cons.mpr ⟨fun _ h => offset_lt_of_mem_visits h, ih ..⟩
          · exact List.Pairwise.nil

end Scan

/-! ## The atoms of the tokens -/

namespace Atom

theorem chars_append (l : Location) (first second : List Char) :
    chars l (first ++ second) = chars l first ++ chars (l.advanceOver first) second := by
  induction first generalizing l with
  | nil => rfl
  | cons c rest ih => exact congrArg _ (ih (l.advance c))

theorem ofTokens_append (n : Nat) (first second : List Token) :
    ofTokens n (first ++ second) = ofTokens n first ++ ofTokens (n + first.length) second := by
  induction first generalizing n with
  | nil => rfl
  | cons t rest ih =>
      rw [List.cons_append, ofTokens, ih, ofTokens, List.append_assoc, List.length_cons,
        Nat.add_assoc, Nat.add_comm 1]

theorem ofTokens_literal (n : Nat) (l : Location) (text : List Char) :
    ofTokens n (Scan.literal l text) = chars l text := by
  rw [Scan.literal]
  split
  · next hempty => rw [List.isEmpty_iff.mp hempty]; rfl
  · simp [ofTokens, ofToken]

end Atom

namespace Scan

/-- The atom of a directive is what the visit found. -/
theorem gives_ofToken {content : Token.Content} (h : content ≠ .literal) (n : Nat) (raw : List Char)
    (mode : Mode) (range : Range) :
    ∃ a, Atom.ofToken n ⟨content, String.ofList raw, range⟩ = [a] ∧
      Visit.Gives ⟨range.first, mode, .directive content raw⟩ a := by
  match content with
  | .literal => exact absurd rfl h
  | .variable expression => exact ⟨_, rfl, rfl, Or.inl ⟨expression, raw, rfl, rfl⟩⟩
  | .link link => exact ⟨_, rfl, rfl, Or.inr ⟨link, raw, rfl, rfl⟩⟩
  | .control statement => exact ⟨.gap, rfl, statement, raw, rfl⟩

/-- The atoms of the tokens of a cut are what the visits found, behind the characters that were
pending before the cut. -/
theorem gives_gather (mode : Mode) (n : Nat) {passed : Nat} {place start : Location}
    {pending text : List Char}
    (hplace : place.advanceOver (text.take passed) = start.advanceOver pending.reverse) :
    ∃ atoms, Atom.ofTokens n (gather start pending (cut mode passed text).marks) =
        Atom.chars start pending.reverse ++ atoms ∧
      List.Forall₂ Visit.Gives (visits mode passed place text) atoms := by
  induction text generalizing mode passed n place start pending with
  | nil =>
      refine ⟨[], ?_, by rw [visits]; exact .nil⟩
      rw [cut, gather, Atom.ofTokens_literal, List.append_nil]
  | cons c rest ih =>
      match passed with
      | passed + 1 => exact ih mode n hplace
      | 0 =>
          have hhere : place = start.advanceOver pending.reverse := hplace
          rcases find_cases mode c rest with
            hfind | ⟨content, raw, after, hfind, -, hcontent, rfl⟩ | ⟨bracket, hfind, -⟩
          · have hnext : (place.advance c).advanceOver (rest.take 0) =
                start.advanceOver (c :: pending).reverse := by
              rw [List.reverse_cons, Location.advanceOver_append, ← hhere]
              rfl
            obtain ⟨atoms, hatoms, hgives⟩ := ih (mode.next c rest) n hnext
            refine ⟨.char place c :: atoms, ?_, ?_⟩
            · simp only [cut, hfind, gather]
              rw [hatoms, List.reverse_cons, Atom.chars_append, ← hhere, List.append_assoc]
              rfl
            · simp only [visits, hfind]
              exact .cons ⟨rfl, rfl⟩ hgives
          · -- The directive's text begins with `c`, so what is passed over is the rest of it.
            have hnext : (place.advance c).advanceOver ((raw ++ after).take raw.length) =
                (place.advanceOver (c :: raw)).advanceOver ([] : List Char).reverse := by
              rw [List.take_left]
              rfl
            obtain ⟨a, ha, hgive⟩ := gives_ofToken hcontent
              (n + (literal start pending.reverse).length) (c :: raw) mode
              ⟨place, place.advanceOver (c :: raw)⟩
            obtain ⟨atoms, hatoms, hgives⟩ :=
              ih mode (n + (literal start pending.reverse).length + 1) hnext
            refine ⟨a :: atoms, ?_, ?_⟩
            · simp only [cut, hfind, gather, List.length_cons, Nat.add_sub_cancel]
              rw [Atom.ofTokens_append, Atom.ofTokens_literal, Atom.ofTokens, ← hhere, ha, hatoms]
              rfl
            · simp only [visits, hfind, List.length_cons, Nat.add_sub_cancel]
              exact .cons hgive hgives
          · refine ⟨[], ?_, ?_⟩
            · simp only [cut, hfind, gather]
              rw [Atom.ofTokens_literal, List.append_nil]
            · simp only [visits, hfind]
              exact .nil

theorem gives_ofText (text : String) :
    List.Forall₂ Visit.Gives (visits .plain 0 .start text.toList)
      (Atom.ofTokens 0 (Scan.ofText text).tokens) := by
  have hstart : Location.start.advanceOver (text.toList.take 0) =
      Location.start.advanceOver ([] : List Char).reverse := rfl
  obtain ⟨atoms, hatoms, hgives⟩ := gives_gather .plain 0 hstart
  rw [Scan.ofText, hatoms]
  exact hgives

end Scan

end Stencil
