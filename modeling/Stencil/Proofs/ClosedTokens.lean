import Stencil.Proofs.Seams

/-!
# Closed tokens

The scanner looks ahead without a bound: to the partner of a bracket, to the end of a comment's
line, to the end of a block comment. What it looks for is nevertheless part of what it finds. A
directive is found with its end, and behind a comment the scanner can find a directive only once
the comment is over. So a token that has something closed behind it is the same token whatever
text is added; only a literal at the end may go on, or turn out to begin a directive.

More text makes one cut of another (`Scan.Grows`): the cuts have the same marks up to the place
where the first has nothing but literal characters left, or ends at an open bracket. That is shown
along the text, and carried over to the tokens along the marks.
-/

namespace Stencil

namespace Token

/-- The tokens of a row without a literal at the end, unless the row was `stopped` there. -/
def closed (stopped : Bool) : List Token → List Token
  | [] => []
  | [t] => if stopped = false ∧ t.content = .literal then [] else [t]
  | t :: u :: rest => t :: closed stopped (u :: rest)

variable {stopped : Bool}

theorem closed_append_cons (first : List Token) (t : Token) (rest : List Token) :
    closed stopped (first ++ t :: rest) = first ++ closed stopped (t :: rest) := by
  induction first with
  | nil => rfl
  | cons u first ih =>
      obtain ⟨v, later, hlater⟩ : ∃ v later, first ++ t :: rest = v :: later :=
        List.exists_cons_of_ne_nil (by simp)
      rw [List.cons_append, List.cons_append, ← ih, hlater]
      rfl

theorem closed_cons {t : Token} (h : t.content ≠ .literal) (rest : List Token) :
    closed stopped (t :: rest) = t :: closed stopped rest := by
  cases rest with
  | nil => exact if_neg fun hboth => h hboth.2
  | cons u rest => rfl

theorem closed_isPrefix (stopped : Bool) (tokens : List Token) :
    closed stopped tokens <+: tokens := by
  induction tokens with
  | nil => exact List.nil_prefix
  | cons t rest ih =>
      cases rest with
      | nil =>
          show (if stopped = false ∧ t.content = .literal then [] else [t]) <+: [t]
          split
          · exact List.nil_prefix
          · exact List.prefix_rfl
      | cons u rest => exact (List.prefix_cons_inj t).mpr ih

end Token

namespace Scan

/-- The tokens of a scan that are closed. They are all tokens but a literal at the end; where the
scan stopped at an open bracket, that literal is closed as well, as it ends before the bracket. -/
def closed (scan : Scan) : List Token := Token.closed scan.error.isSome scan.tokens

/-! ## Growing cuts -/

/-- How a cut may change when there is more text behind it. -/
inductive Grows : Cut → Cut → Prop
  /-- Literal characters at the end are open. -/
  | chars (text : List Char) (whole : Cut) : Grows ⟨text.map .char, none⟩ whole
  | char {cut whole : Cut} (c : Char) (later : Grows cut whole) :
      Grows ⟨.char c :: cut.marks, cut.unclosed⟩ ⟨.char c :: whole.marks, whole.unclosed⟩
  | directive {cut whole : Cut} {content : Token.Content} (raw : List Char)
      (h : content ≠ .literal) (later : Grows cut whole) :
      Grows ⟨.directive content raw :: cut.marks, cut.unclosed⟩
        ⟨.directive content raw :: whole.marks, whole.unclosed⟩
  /-- A bracket may still be open. -/
  | still (bracket : Bracket) : Grows ⟨[], some bracket⟩ ⟨[], some bracket⟩
  /-- Or it has found its partner. -/
  | closes (bracket : Bracket) {content : Token.Content} (raw : List Char) (marks : List Mark)
      (unclosed : Option Bracket) (h : content ≠ .literal) :
      Grows ⟨[], some bracket⟩ ⟨.directive content raw :: marks, unclosed⟩

/-- In a comment that goes on to the end there is nothing but characters. -/
theorem cut_lineComment {text : List Char} (h : '\n' ∉ text) :
    cut .lineComment 0 text = ⟨text.map .char, none⟩ := by
  induction text with
  | nil => rfl
  | cons c rest ih =>
      obtain ⟨hc, hrest⟩ := not_or.mp (mt List.mem_cons.mpr h)
      have hfind : find .lineComment c rest = .literal .lineComment :=
        find_eq_literal_iff.mpr ⟨fun hsees => Bool.noConfusion hsees,
          fun hplain => Mode.noConfusion hplain, by rw [Mode.next, if_neg (Ne.symm hc)]⟩
      rw [cut, hfind]
      dsimp only
      rw [ih hrest]
      rfl

/-- An open bracket stays open when text is added, or the text has its partner. -/
theorem find_unclosed_append {mode : Mode} {c : Char} {rest : List Char} {bracket : Bracket}
    (h : find mode c rest = .unclosed bracket) (more : List Char) :
    find mode c (rest ++ more) = .unclosed bracket ∨
      ∃ content raw, find mode c (rest ++ more) = .directive content raw ∧ content ≠ .literal := by
  obtain ⟨hsees, hat, -⟩ := find_eq_unclosed_iff.mp h
  have hrest : rest ≠ [] := by
    obtain ⟨o, tail, -, htext⟩ := Bracket.eq_of_at? hat
    cases htext
    exact List.cons_ne_nil o tail
  have hsame : Bracket.at? (c :: (rest ++ more)) = some bracket := by
    rw [← hat, Bracket.at?_append c hrest more [], List.append_nil]
  cases hbody : Text.before? bracket.closing ((rest ++ more).drop 1) with
  | none => exact Or.inl (find_eq_unclosed_iff.mpr ⟨hsees, hsame, hbody⟩)
  | some body =>
      have hdirective := find_eq_directive_iff.mpr
        (Or.inl ⟨hsees, bracket, body, hsame, hbody, rfl, rfl⟩)
      refine Or.inr ⟨_, _, hdirective, ?_⟩
      cases bracket <;> exact Token.Content.noConfusion

/-- The cut of a text grows when text is added. -/
theorem grows_append (mode : Mode) (n : Nat) (text more : List Char) :
    Grows (cut mode n text) (cut mode n (text ++ more)) := by
  induction text generalizing mode n with
  | nil =>
      rw [cut]
      exact .chars [] _
  | cons c rest ih =>
      cases n with
      | succ n => exact ih mode n
      | zero =>
          rw [List.cons_append, cut, cut]
          rcases find_cases mode c rest with
            hfind | ⟨content, raw, after, hfind, -, hcontent, rfl⟩ | ⟨bracket, hfind, -⟩
          · -- A comment without an end is open, and so is the last character.
            by_cases hopen : rest = [] ∨ (mode.next c rest = .lineComment ∧ '\n' ∉ rest)
            · have hcut : cut (mode.next c rest) 0 rest = ⟨rest.map .char, none⟩ := by
                rcases hopen with rfl | ⟨hnext, hline⟩
                · rw [cut, List.map_nil]
                · rw [hnext]
                  exact cut_lineComment hline
              rw [hfind]
              dsimp only
              rw [hcut]
              exact .chars (c :: rest) _
            · rw [not_or, not_and_not_right] at hopen
              have hsame : find mode c (rest ++ more) = .literal (mode.next c rest) :=
                find_literal_append (by rwa [List.append_nil]) hopen.1 hopen.2 more
              rw [hfind, hsame]
              exact .char c (ih _ 0)
          · have hsame : find mode c (raw ++ after ++ more) = .directive content (c :: raw) :=
              find_directive_append (by rwa [List.append_nil]) (by simp) more
            rw [hfind, hsame]
            exact .directive (c :: raw) hcontent (ih mode _)
          · rw [hfind]
            rcases find_unclosed_append hfind more with hstill | ⟨content, raw, hcloses, hcontent⟩
            · rw [hstill]
              exact .still bracket
            · rw [hcloses]
              exact .closes bracket raw _ _ hcontent

/-! ## The tokens of growing cuts -/

theorem closed_gather_directive (stopped : Bool) {content : Token.Content}
    (h : content ≠ .literal) (raw : List Char) (start : Location) (pending : List Char)
    (marks : List Mark) :
    let first := start.advanceOver pending.reverse
    let last := first.advanceOver raw
    Token.closed stopped (gather start pending (.directive content raw :: marks)) =
      literal start pending.reverse ++ ⟨content, String.ofList raw, ⟨first, last⟩⟩ ::
        Token.closed stopped (gather last [] marks) := by
  dsimp only
  rw [gather, Token.closed_append_cons, Token.closed_cons]
  exact h

/-- The closed tokens of a cut stay what they are when it grows. -/
theorem Grows.closed {cut whole : Cut} (h : Grows cut whole) (start : Location)
    (pending : List Char) :
    Token.closed cut.unclosed.isSome (gather start pending cut.marks) <+:
      Token.closed whole.unclosed.isSome (gather start pending whole.marks) := by
  induction h generalizing start pending with
  | chars text whole =>
      have hnone : Token.closed false (literal start (pending.reverse ++ text)) = [] := by
        rw [literal]
        split
        · rfl
        · rfl
      rw [gather_map_char]
      exact hnone ▸ List.nil_prefix
  | char c later ih => exact ih start (c :: pending)
  | directive raw hcontent later ih =>
      rw [closed_gather_directive _ hcontent, closed_gather_directive _ hcontent,
        List.prefix_append_right_inj, List.prefix_cons_inj]
      exact ih _ []
  | still bracket => exact List.prefix_rfl
  | closes bracket raw marks unclosed hcontent =>
      rw [closed_gather_directive _ hcontent]
      exact (Token.closed_isPrefix true _).trans (List.prefix_append _ _)

theorem closed_ofText (text : String) :
    (ofText text).closed = Token.closed (cut .plain 0 text.toList).unclosed.isSome
      (gather .start [] (cut .plain 0 text.toList).marks) := by
  rw [closed, ofText, Option.isSome_map]

/-- Added text changes no closed token: they come first among the tokens of the longer text, where
they are closed as well. -/
theorem closed_tokens_stay (text more : String) :
    (ofText text).closed <+: (ofText (text ++ more)).closed ∧
      (ofText text).closed <+: (ofText (text ++ more)).tokens := by
  have hclosed : (ofText text).closed <+: (ofText (text ++ more)).closed := by
    rw [closed_ofText, closed_ofText, String.toList_append]
    exact (grows_append .plain 0 text.toList more.toList).closed .start []
  exact ⟨hclosed, hclosed.trans (Token.closed_isPrefix _ _)⟩

end Scan

end Stencil
