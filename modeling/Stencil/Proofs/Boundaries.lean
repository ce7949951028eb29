import Stencil.Proofs.DraftDirectives
import Stencil.Proofs.LineIndexes
import Stencil.Proofs.Scanning

/-!
# Places are boundaries of the text

The scanner counts its place along, so a place that it visits is a boundary of the text,
and what it finds there stands behind the boundary: a character, or a directive that
begins with its two opening characters. The atoms of the tokens are what the visits found.
So the characters, the directives and the faults of a template all keep to one law, the
law of its text (`Law.ofText`), and every place that a draft holds is a boundary with the
right characters behind it.
-/

namespace Stencil

/-- Whether a location is a boundary of a text, with the characters `rest` behind it. -/
def Location.Faces (text rest : List Char) (l : Location) : Prop :=
  ∃ passed, text = passed ++ rest ∧ l = Location.start.advanceOver passed

namespace Location

variable {text rest : List Char} {l : Location}

theorem faces_start (text : List Char) : Location.start.Faces text text := ⟨[], rfl, rfl⟩

theorem Faces.advanceOver (chars : List Char) (h : l.Faces text (chars ++ rest)) :
    (l.advanceOver chars).Faces text rest := by
  obtain ⟨passed, rfl, rfl⟩ := h
  exact ⟨passed ++ chars, (List.append_assoc ..).symm, (advanceOver_append ..).symm⟩

theorem Faces.advance {c : Char} (h : l.Faces text (c :: rest)) :
    (l.advance c).Faces text rest := Faces.advanceOver [c] h

/-- The line index finds every boundary. -/
theorem Faces.location? {text : String} (h : l.Faces text.toList rest) :
    (LineIndex.ofText text).location? l.offset text = some l := by
  obtain ⟨passed, htext, rfl⟩ := h
  have hoffset : (Location.start.advanceOver passed).offset = String.utf8Len passed :=
    (offset_advanceOver _ _).trans (Nat.zero_add _)
  rw [hoffset]
  exact LineIndex.location?_utf8Len htext

end Location

/-- Whether a character begins a value that is not a directive. -/
def Json.beginsValue (c : Char) : Bool :=
  c == '"' || c == '\x7b' || c == '[' || Json.beginsScalar c

/-- Whether some characters begin the way text of a kind does that makes a value. -/
def TokenKind.Begins (rest : List Char) : TokenKind → Prop
  | .literal => ∃ c tail, rest = c :: tail ∧ Json.beginsValue c = true
  | .variable => ['\x7b', '\x7b'] <+: rest
  | .importDirective => ['/', '/'] <+: rest
  | .controlBlock => False

/-! ## Visits -/

namespace Scan

/-- Whether a mark is what some characters begin with. -/
def Mark.Begins (rest : List Char) : Mark → Prop
  | .char c => ∃ tail, rest = c :: tail
  | .directive (.variable _) _ => TokenKind.variable.Begins rest
  | .directive (.link _) _ => TokenKind.importDirective.Begins rest
  | .directive _ _ => True

/-- A directive is found where its opening characters are. -/
theorem begins_of_find {mode : Mode} {c : Char} {rest raw : List Char} {content : Token.Content}
    (h : find mode c rest = .directive content raw) :
    (Mark.directive content raw).Begins (c :: rest) := by
  unfold find at h
  split at h
  · next bracket hbracket =>
      have hat : Bracket.at? (c :: rest) = some bracket := by
        split at hbracket
        · exact hbracket
        · cases hbracket
      split at h
      · cases h
        rw [Bracket.at?] at hat
        split at hat
        · next hopening =>
            cases hat
            exact List.isPrefixOf_iff_prefix.mp hopening
        · split at hat
          · cases hat
            trivial
          · cases hat
      · cases h
  · split at h
    · next link after hlink =>
        cases h
        have hread : Link.read? (c :: rest) = some (link, after) := by
          split at hlink
          · exact hlink
          · cases hlink
        obtain ⟨body, hbody, -⟩ := Option.bind_eq_some_iff.mp hread
        exact ⟨body, (Text.after?_eq_some_iff.mp hbody).symm⟩
    · cases h

/-- A visit is at a boundary, in front of what it finds. -/
theorem faces_of_mem_visits {total : List Char} {mode : Mode} {passed : Nat} {place : Location}
    {text : List Char} (hplace : place.Faces total text) {v : Visit}
    (h : v ∈ visits mode passed place text) :
    ∃ rest, v.place.Faces total rest ∧ v.mark.Begins rest := by
  induction text generalizing mode passed place with
  | nil =>
      rw [visits] at h
      cases h
  | cons c rest ih =>
      have hnext := hplace.advance
      cases passed with
      | succ passed =>
          rw [visits] at h
          exact ih hnext h
      | zero =>
          rw [visits] at h
          split at h
          · rcases List.mem_cons.mp h with rfl | h
            · exact ⟨c :: rest, hplace, rest, rfl⟩
            · exact ih hnext h
          · next content raw hfind =>
              rcases List.mem_cons.mp h with rfl | h
              · exact ⟨c :: rest, hplace, begins_of_find hfind⟩
              · exact ih hnext h
          · cases h

/-- The marks of a cut end at a boundary. -/
theorem faces_finish {total : List Char} (mode : Mode) (passed : Nat) {place : Location}
    {text : List Char} (hplace : place.Faces total (text.drop passed)) :
    ∃ rest, (finish place (cut mode passed text).marks).Faces total rest := by
  induction text generalizing mode passed place with
  | nil =>
      rw [cut]
      exact ⟨_, hplace⟩
  | cons c rest ih =>
      cases passed with
      | succ passed =>
          rw [cut]
          exact ih mode passed hplace
      | zero =>
          rw [List.drop_zero] at hplace
          rcases find_cases mode c rest with
            hfind | ⟨content, raw, after, hfind, -, -, rfl⟩ | ⟨bracket, hfind, -⟩
          · simp only [cut, hfind, finish]
            exact ih _ 0 hplace.advance
          · -- The directive's text begins with `c`, so what is passed over is the rest of it.
            simp only [cut, hfind, finish, List.length_cons, Nat.add_sub_cancel]
            refine ih mode raw.length ?_
            rw [List.drop_left]
            exact Location.Faces.advanceOver (c :: raw) hplace
          · simp only [cut, hfind, finish]
            exact ⟨_, hplace⟩

/-- The last token ends where the marks end. -/
theorem lastOf_gather (start : Location) (pending : List Char) (marks : List Mark) :
    ((gather start pending marks).getLast?.map fun t => t.range.last).getD start =
      finish (start.advanceOver pending.reverse) marks := by
  induction marks generalizing start pending with
  | nil =>
      rw [gather, literal]
      split
      · next hempty =>
          rw [List.isEmpty_iff.mp hempty]
          rfl
      · rfl
  | cons mark marks ih =>
      cases mark with
      | char c =>
          rw [gather, ih, List.reverse_cons, Location.advanceOver_append]
          rfl
      | directive content raw =>
          rw [gather, finish, List.getLast?_append_of_ne_nil _ (List.cons_ne_nil _ _),
            List.getLast?_cons]
          have hlater := ih ((start.advanceOver pending.reverse).advanceOver raw) []
          cases hlast : (gather ((start.advanceOver pending.reverse).advanceOver raw) []
              marks).getLast? with
          | none =>
              rw [hlast] at hlater
              exact hlater
          | some t =>
              rw [hlast] at hlater
              exact hlater

variable (text : String)

theorem endOfTokens_ofText : endOfTokens (Scan.ofText text).tokens =
    finish .start (cut .plain 0 text.toList).marks := by
  refine Eq.trans ?_ (lastOf_gather .start [] (cut .plain 0 text.toList).marks)
  rw [endOfTokens, Scan.ofText]
  cases (gather .start [] (cut .plain 0 text.toList).marks).getLast? <;> rfl

/-- The tokens of a text end at a boundary. -/
theorem faces_endOfTokens :
    ∃ rest, (endOfTokens (Scan.ofText text).tokens).Faces text.toList rest := by
  rw [endOfTokens_ofText]
  exact faces_finish .plain 0 (Location.faces_start text.toList)

/-- A bracket that is not closed is at a boundary. -/
theorem faces_of_error {error : ScanError} (h : (Scan.ofText text).error = some error) :
    ∃ rest, error.range.first.Faces text.toList rest := by
  obtain ⟨bracket, -, rfl⟩ := Option.map_eq_some_iff.mp h
  exact faces_finish .plain 0 (Location.faces_start text.toList)

end Scan

/-! ## The law of a text -/

/-- The law that a text gives: characters and directives stand where they are placed, and faults
are at boundaries. -/
def Law.ofText (text : String) : Law where
  char l c := ∃ tail, l.Faces text.toList (c :: tail)
  directive d := ∃ rest, d.range.first.Faces text.toList rest ∧ d.kind.Begins rest
  place l := ∃ rest, l.Faces text.toList rest
  place_of_char h := by
    obtain ⟨tail, htail⟩ := h
    exact ⟨_, htail⟩
  place_of_directive h := by
    obtain ⟨rest, hrest, -⟩ := h
    exact ⟨rest, hrest⟩

theorem Directive.kind_of_isLink {d : Directive} (h : d.isLink = true) :
    d.kind = .importDirective := by
  rw [isLink] at h
  split at h
  · cases h
  · next link hmeaning => rw [kind, hmeaning]

theorem Directive.kind_of_not_isLink {d : Directive} (h : d.isLink = false) :
    d.kind = .variable := by
  rw [isLink] at h
  split at h
  · next expression hmeaning => rw [kind, hmeaning]
  · cases h

/-- What a visit found keeps to the law of the text. -/
theorem Scan.Visit.Gives.stands {text : String} {v : Visit} {a : Atom} (h : v.Gives a)
    {rest : List Char} (hplace : v.place.Faces text.toList rest) (hmark : v.mark.Begins rest) :
    a.Stands (.ofText text) := by
  cases a with
  | char place c =>
      obtain ⟨hchar, rfl⟩ := h
      rw [hchar] at hmark
      obtain ⟨tail, rfl⟩ := hmark
      exact ⟨tail, hplace⟩
  | gap => trivial
  | directive d =>
      obtain ⟨hfirst, ⟨expression, raw, hdirective, hkind⟩ | ⟨link, raw, hdirective, hkind⟩⟩ := h
      · rw [hdirective] at hmark
        exact ⟨rest, hfirst ▸ hplace, by rw [Directive.kind_of_not_isLink hkind]; exact hmark⟩
      · rw [hdirective] at hmark
        exact ⟨rest, hfirst ▸ hplace, by rw [Directive.kind_of_isLink hkind]; exact hmark⟩

theorem Atom.stands_ofText (text : String) :
    ∀ a ∈ Atom.ofTokens 0 (Scan.ofText text).tokens, a.Stands (.ofText text) := by
  intro a ha
  obtain ⟨hlength, hgives⟩ := List.forall₂_iff_get.mp (Scan.gives_ofText text)
  obtain ⟨n, hn, rfl⟩ := List.getElem_of_mem ha
  have hvisit : n < (Scan.visits .plain 0 .start text.toList).length := hlength ▸ hn
  obtain ⟨rest, hplace, hmark⟩ := Scan.faces_of_mem_visits (Location.faces_start text.toList)
    (List.getElem_mem hvisit)
  exact (hgives n hvisit hn).stands hplace hmark

/-- The draft of a text keeps to the law of the text. -/
theorem Draft.stands_ofText (text : String) :
    (Draft.ofTokens (Scan.ofText text).tokens).Stands (.ofText text) :=
  Draft.stands_ofTokens (Atom.stands_ofText text) (Scan.faces_endOfTokens text)

theorem Atom.directive_mem_ofTokens {number : Nat} {tokens : List Token} {d : Directive}
    (h : d ∈ Directive.ofTokens number tokens) : .directive d ∈ Atom.ofTokens number tokens := by
  induction tokens generalizing number with
  | nil => cases h
  | cons t rest ih =>
      rcases List.mem_append.mp h with h | h
      · refine List.mem_append_left _ ?_
        have hcontent := Option.mem_toList.mp h
        rw [Directive.ofToken?] at hcontent
        rw [Atom.ofToken]
        split
        · next hliteral =>
            rw [hliteral] at hcontent
            cases hcontent
        · next hcontrol =>
            rw [hcontrol] at hcontent
            cases hcontent
        · exact List.mem_map_of_mem h
      · exact List.mem_append_right _ (ih h)

/-- A directive of a text is in front of its own characters. -/
theorem Directive.faces {text : String} {d : Directive}
    (h : d ∈ Directive.ofTokens 0 (Scan.ofText text).tokens) :
    ∃ rest, d.range.first.Faces text.toList rest ∧ d.kind.Begins rest :=
  Atom.stands_ofText text _ (Atom.directive_mem_ofTokens h)

end Stencil
