import Mathlib.Data.List.Infix
import Mathlib.Data.List.TakeWhile
import Stencil.Proofs.LockStep

/-!
# Seams

A text is made of two parts, and the scanner comes through the first one to where the
second begins. If it stands there between two marks, in plain text or in a string, then
what it has found does not depend on the second part, although it looks ahead: a directive
that was found ends before the seam, and a comment that was not a link has come to the end
of its line. Only the last character could have been the beginning of something, a brace
of a bracket or a slash of a comment.

So parts of texts can be exchanged. A scanner that arrives at a seam arrives there also
when another text follows, and the cut is what it found so far and the cut of what follows.
-/

namespace Stencil

/-! ## Looking ahead -/

namespace Text

/-- A mark that is found with all of it in the first part is found whatever follows. -/
theorem before?_append {mark first second body : List Char}
    (h : before? mark (first ++ second) = some body)
    (hlength : body.length + mark.length ≤ first.length) (other : List Char) :
    before? mark (first ++ other) = some body := by
  induction first generalizing body with
  | nil =>
      obtain ⟨rfl, rfl⟩ : body = [] ∧ mark = [] := by simpa using hlength
      cases other <;> simp [before?]
  | cons c first ih =>
      rw [List.cons_append, before?] at h ⊢
      have hbegin {text : List Char} (hmark : mark.length ≤ (c :: first).length) :
          mark.isPrefixOf (c :: (first ++ text)) = true ↔ mark <+: c :: first := by
        rw [List.isPrefixOf_iff_prefix, ← List.cons_append]
        exact ⟨fun h => List.prefix_of_prefix_length_le h (List.prefix_append _ _) hmark,
          fun h => h.trans (List.prefix_append _ _)⟩
      have hmark : mark.length ≤ (c :: first).length := by omega
      by_cases hhere : mark <+: c :: first
      · rw [if_pos ((hbegin hmark).mpr hhere)] at h ⊢
        exact h
      · rw [if_neg (mt (hbegin hmark).mp hhere)] at h ⊢
        obtain ⟨inner, hinner, rfl⟩ := Option.map_eq_some_iff.mp h
        rw [ih hinner (by simp at hlength; omega)]
        rfl

/-- The text before a mark of two different characters, where it does not hold the mark. -/
theorem before?_pair {x y : Char} (hne : x ≠ y) {body : List Char} (h : ¬ [x, y] <:+: body)
    (rest : List Char) : before? [x, y] (body ++ x :: y :: rest) = some body := by
  induction body with
  | nil => simp [before?, List.isPrefixOf]
  | cons c body ih =>
      rw [List.cons_append, before?, if_neg,
        ih fun hin => h (hin.trans (List.suffix_cons c body).isInfix)]
      · rfl
      · intro hbegin
        rw [List.isPrefixOf_iff_prefix, List.cons_prefix_cons] at hbegin
        obtain ⟨rfl, hnext⟩ := hbegin
        cases body with
        | nil =>
            rw [List.nil_append, List.cons_prefix_cons] at hnext
            exact hne hnext.1.symm
        | cons d body =>
            rw [List.cons_append, List.cons_prefix_cons] at hnext
            obtain ⟨rfl, -⟩ := hnext
            exact h ⟨[], body, rfl⟩

end Text

namespace Link

theorem upTo?_eq_some_iff {close : Char} {text inner rest : List Char} :
    upTo? close text = some (inner, rest) ↔
      text = inner ++ close :: rest ∧ close ∉ inner ∧ '\n' ∉ inner := by
  induction text generalizing inner with
  | nil => simp [upTo?]
  | cons c text ih =>
      rw [upTo?]
      split
      · next hclose =>
          subst hclose
          cases inner with
          | nil => simp [eq_comm]
          | cons d inner => simp +contextual [eq_comm]
      · next hclose =>
          split
          · next hnewline =>
              subst hnewline
              cases inner with
              | nil => simp [hclose]
              | cons d inner => simp +contextual [eq_comm]
          · next hnewline =>
              cases inner with
              | nil => simp [hclose]
              | cons d inner =>
                  simp only [Option.map_eq_some_iff, Prod.exists, Prod.mk.injEq, List.cons.injEq,
                    List.cons_append, List.mem_cons, not_or]
                  constructor
                  · rintro ⟨_, _, h, ⟨rfl, rfl⟩, rfl⟩
                    obtain ⟨rfl, hin, hline⟩ := ih.mp h
                    exact ⟨⟨rfl, rfl⟩, ⟨fun h => hclose h.symm, hin⟩,
                      fun h => hnewline h.symm, hline⟩
                  · rintro ⟨⟨rfl, htext⟩, ⟨-, hin⟩, -, hline⟩
                    exact ⟨inner, rest, ih.mpr ⟨htext, hin, hline⟩, ⟨rfl, rfl⟩, rfl⟩

/-- Whether a text is that of a link, up to the closing parenthesis. -/
def Spells (raw : List Char) (link : Link) : Prop :=
  ∃ blanks description path : List Char,
    raw = '/' :: '/' :: (blanks ++ '[' :: (description ++ ']' :: '(' :: (path ++ [')']))) ∧
      (∀ c ∈ blanks, Text.isInlineBlank c = true) ∧ (']' ∉ description ∧ '\n' ∉ description) ∧
      (')' ∉ path ∧ '\n' ∉ path) ∧ (Text.trim path).isEmpty = false ∧
      link = ⟨String.ofList (Text.trim description), String.ofList (Text.trim path)⟩

theorem Spells.newline_not_mem {raw : List Char} {link : Link} (h : Spells raw link) :
    '\n' ∉ raw := by
  obtain ⟨blanks, description, path, rfl, hblanks, ⟨-, hdescription⟩, ⟨-, hpath⟩, -⟩ := h
  have hblank : '\n' ∉ blanks := fun hmem => absurd (hblanks _ hmem) (by decide)
  simp [hblank, hdescription, hpath]

/-- A link is read where its text stands, and nothing behind it matters. -/
theorem read?_eq_some_iff {text after : List Char} {link : Link} :
    read? text = some (link, after) ↔ ∃ raw, Spells raw link ∧ text = raw ++ after := by
  simp only [read?, Option.bind_eq_bind, Option.bind_eq_some_iff, Text.after?_eq_some_iff,
    Prod.exists, upTo?_eq_some_iff]
  constructor
  · rintro ⟨body, rfl, inner, hinner, description, _, ⟨rfl, hdescription⟩, target, rfl, path, rest,
      ⟨rfl, hpath⟩, hlink⟩
    split at hlink
    · cases hlink
    · next hempty =>
        cases hlink
        refine ⟨_, ⟨body.takeWhile Text.isInlineBlank, description, path, rfl, fun c hc => ?_,
          hdescription, hpath, Bool.not_eq_true _ ▸ hempty, rfl⟩, ?_⟩
        · exact List.mem_takeWhile_imp hc
        · have hbody :
              body.takeWhile Text.isInlineBlank ++ body.dropWhile Text.isInlineBlank = body :=
            List.takeWhile_append_dropWhile
          generalize body.takeWhile Text.isInlineBlank = blanks at hbody ⊢
          rw [← hbody, hinner]
          simp
  · rintro ⟨_, ⟨blanks, description, path, rfl, hblanks, hdescription, hpath, hempty, rfl⟩, rfl⟩
    refine ⟨blanks ++ '[' :: (description ++ ']' :: '(' :: (path ++ ')' :: after)), by simp,
      description ++ ']' :: '(' :: (path ++ ')' :: after), ?_, description, _,
      ⟨rfl, hdescription⟩, _, rfl, path, after, ⟨rfl, hpath⟩, ?_⟩
    · rw [List.dropWhile_append_of_pos hblanks, List.dropWhile_cons_of_neg (by decide)]
      rfl
    · rw [if_neg]
      simp [hempty]

end Link

namespace Scan

variable {mode next : Mode} {c : Char} {rest first second raw : List Char} {content : Token.Content}

theorem find_eq_literal_iff :
    find mode c rest = .literal next ↔
      (mode.seesBrackets = true → Bracket.at? (c :: rest) = none) ∧
        (mode = .plain → Link.read? (c :: rest) = none) ∧ mode.next c rest = next := by
  unfold find
  by_cases hsees : mode.seesBrackets = true
  · simp only [hsees, if_true, forall_const]
    cases Bracket.at? (c :: rest) with
    | some b =>
        dsimp only
        cases Text.before? b.closing (rest.drop 1) <;> simp
    | none =>
        by_cases hplain : mode = .plain
        · simp only [hplain, if_true, true_and]
          cases Link.read? (c :: rest) <;> simp
        · simp [hplain]
  · have hplain : mode ≠ .plain := by
      rintro rfl
      exact hsees rfl
    simp [hsees, hplain]

/-- What a directive is where the scanner finds one: a bracket with its partner, or a link. -/
theorem find_eq_directive_iff :
    find mode c rest = .directive content raw ↔
      (mode.seesBrackets = true ∧ ∃ b body, Bracket.at? (c :: rest) = some b ∧
        Text.before? b.closing (rest.drop 1) = some body ∧ content = b.content body ∧
        raw = b.opening ++ body ++ b.closing) ∨
      (mode = .plain ∧ Bracket.at? (c :: rest) = none ∧ ∃ link after, Link.Spells raw link ∧
        c :: rest = raw ++ after ∧ content = .link link) := by
  unfold find
  by_cases hsees : mode.seesBrackets = true
  · simp only [hsees, if_true, true_and]
    cases hat : Bracket.at? (c :: rest) with
    | some b =>
        dsimp only
        cases hbody : Text.before? b.closing (rest.drop 1) <;>
          simp [-List.drop_one, hbody, eq_comm]
    | none =>
        by_cases hplain : mode = .plain
        · simp only [hplain, if_true, true_and]
          cases hread : Link.read? (c :: rest) with
          | none =>
              refine iff_of_false Find.noConfusion ?_
              rintro (⟨b, body, hb, -⟩ | ⟨link, after, hraw, htext, -⟩)
              · cases hb
              · cases hread.symm.trans (Link.read?_eq_some_iff.mpr ⟨raw, hraw, htext⟩)
          | some found =>
              obtain ⟨link, after⟩ := found
              obtain ⟨raw', hraw', htext⟩ := Link.read?_eq_some_iff.mp hread
              have htake : (c :: rest).take (rest.length + 1 - after.length) = raw' := by
                have hlength : rest.length + 1 = raw'.length + after.length := by
                  simpa using congrArg List.length htext
                rw [hlength, Nat.add_sub_cancel, htext, List.take_left]
              simp only [htake, Find.directive.injEq, reduceCtorEq, false_and, exists_false,
                false_or]
              constructor
              · rintro ⟨rfl, rfl⟩
                exact ⟨link, after, hraw', htext, rfl⟩
              · rintro ⟨link', after', hraw, htext', rfl⟩
                have hread' := Link.read?_eq_some_iff.mpr ⟨raw, hraw, htext'⟩
                cases hread.symm.trans hread'
                exact ⟨rfl, List.append_cancel_right (htext.symm.trans htext')⟩
        · simp [hplain]
  · have hplain : mode ≠ .plain := by
      rintro rfl
      exact hsees rfl
    simp [hsees, hplain]

theorem find_eq_unclosed_iff {b : Bracket} :
    find mode c rest = .unclosed b ↔ mode.seesBrackets = true ∧
      Bracket.at? (c :: rest) = some b ∧ Text.before? b.closing (rest.drop 1) = none := by
  unfold find
  by_cases hsees : mode.seesBrackets = true
  · simp only [hsees, if_true, true_and]
    cases hat : Bracket.at? (c :: rest) with
    | some b' =>
        dsimp only
        by_cases hb : b' = b
        · subst hb
          cases Text.before? b'.closing (rest.drop 1) <;> simp
        · cases Text.before? b'.closing (rest.drop 1) <;> simp [hb]
    | none =>
        dsimp only
        split <;> simp
  · simp only [hsees, Bool.false_eq_true, if_false, false_and, iff_false]
    split <;> exact Find.noConfusion

theorem Bracket.at?_append (c : Char) (h : first ≠ []) (second other : List Char) :
    Bracket.at? (c :: (first ++ second)) = Bracket.at? (c :: (first ++ other)) := by
  obtain ⟨d, first, rfl⟩ := List.exists_cons_of_ne_nil h
  simp [Bracket.at?, Bracket.opening, List.isPrefixOf]

theorem Mode.next_append (mode : Mode) (c : Char) (h : first ≠ []) (second other : List Char) :
    mode.next c (first ++ second) = mode.next c (first ++ other) := by
  obtain ⟨d, first, rfl⟩ := List.exists_cons_of_ne_nil h
  rfl

/-- A directive that ends before the seam is found whatever follows. -/
theorem find_directive_append (h : find mode c (first ++ second) = .directive content raw)
    (hlength : raw.length ≤ first.length + 1) (other : List Char) :
    find mode c (first ++ other) = .directive content raw := by
  rw [find_eq_directive_iff] at h ⊢
  rcases h with ⟨hsees, b, body, hat, hbody, hcontent, rfl⟩ |
    ⟨hplain, hat, link, after, hraw, htext, hcontent⟩
  · have htwo : b.opening.length = 2 ∧ b.closing.length = 2 := by cases b <;> exact ⟨rfl, rfl⟩
    simp only [List.length_append, htwo] at hlength
    cases first with
    | nil =>
        rw [List.length_nil] at hlength
        omega
    | cons d first =>
        refine Or.inl ⟨hsees, b, body, ?_, ?_, hcontent, rfl⟩
        · rw [← hat]
          exact Bracket.at?_append c (List.cons_ne_nil d first) other second
        · refine Text.before?_append hbody ?_ other
          rw [List.length_cons] at hlength
          omega
  · obtain ⟨raw', rfl⟩ : ∃ raw', raw = '/' :: '/' :: raw' := by
      obtain ⟨blanks, description, path, rfl, -⟩ := hraw
      exact ⟨_, rfl⟩
    have hfirst : first ≠ [] := by
      rintro rfl
      simp at hlength
    obtain ⟨inner, hinner⟩ : '/' :: '/' :: raw' <+: c :: first := by
      have hwhole : '/' :: '/' :: raw' <+: c :: (first ++ second) := ⟨after, htext.symm⟩
      exact List.prefix_of_prefix_length_le hwhole (List.prefix_append (c :: first) second)
        (by simpa using hlength)
    refine Or.inr ⟨hplain, ?_, link, inner ++ other, hraw, ?_, hcontent⟩
    · rw [← hat]
      exact Bracket.at?_append c hfirst other second
    · rw [← List.append_assoc, hinner]
      rfl

/-- Literal text is literal text whatever follows: a comment that has come to the end of its line
before the seam is not a link. -/
theorem find_literal_append (h : find mode c (first ++ second) = .literal next)
    (hfirst : first ≠ []) (hline : next = .lineComment → '\n' ∈ first) (other : List Char) :
    find mode c (first ++ other) = .literal next := by
  have hfind := h
  rw [find_eq_literal_iff] at h ⊢
  obtain ⟨hat, hread, hnext⟩ := h
  refine ⟨fun hsees => ?_, fun hplain => ?_, ?_⟩
  · rw [Bracket.at?_append c hfirst other second]
    exact hat hsees
  · cases hother : Link.read? (c :: (first ++ other)) with
    | none => rfl
    | some found =>
        obtain ⟨link, after⟩ := found
        obtain ⟨raw, hraw, htext⟩ := Link.read?_eq_some_iff.mp hother
        -- The text of the link would end before the end of the line, and so before the seam.
        have hslashes : ∃ raw', raw = '/' :: '/' :: raw' := by
          obtain ⟨blanks, description, path, rfl, -⟩ := hraw
          exact ⟨_, rfl⟩
        have hnewline : '\n' ∈ c :: first := by
          obtain ⟨raw', rfl⟩ := hslashes
          obtain ⟨d, first, rfl⟩ := List.exists_cons_of_ne_nil hfirst
          obtain ⟨rfl, hrest⟩ := List.cons.inj htext
          obtain ⟨rfl, -⟩ := List.cons.inj hrest
          refine List.mem_cons_of_mem _ (hline ?_)
          rw [← hnext, hplain]
          rfl
        have hbegin : raw <+: c :: first := by
          rw [← List.cons_append, List.append_eq_append_iff] at htext
          rcases htext with ⟨a, rfl, -⟩ | ⟨a, ha, -⟩
          · exact absurd (List.mem_append_left a hnewline) hraw.newline_not_mem
          · exact ⟨a, ha.symm⟩
        obtain ⟨inner, hinner⟩ := hbegin
        have hsecond : Link.read? (c :: (first ++ second)) = some (link, inner ++ second) :=
          Link.read?_eq_some_iff.mpr ⟨raw, hraw, by
            rw [← List.append_assoc, hinner]
            rfl⟩
        rw [hread hplain] at hsecond
        cases hsecond
  · rw [← hnext]
    exact mode.next_append c hfirst other second

/-- A character that can begin neither a bracket nor a comment is found alike whatever follows, if
brackets are seen behind it. -/
theorem find_exchange {m : Mode} (h : find m c rest = .literal mode)
    (hsees : mode.seesBrackets = true) (hbrace : m.seesBrackets = true → c ≠ '\x7b')
    (hslash : ¬ (m = .plain ∧ c = '/')) (other : List Char) : find m c other = .literal mode := by
  rw [find_eq_literal_iff] at h ⊢
  obtain ⟨-, -, hnext⟩ := h
  refine ⟨fun hm => ?_, fun hplain => ?_, ?_⟩
  · simp [Bracket.at?, Bracket.opening, List.isPrefixOf, Ne.symm (hbrace hm)]
  · cases hread : Link.read? (c :: other) with
    | none => rfl
    | some found =>
        obtain ⟨raw, ⟨_, _, _, rfl, -⟩, htext⟩ := Link.read?_eq_some_iff.mp hread
        exact absurd ⟨hplain, (List.cons.inj htext).1⟩ hslash
  · rw [← hnext]
    cases m with
    | plain =>
        have hc : c ≠ '/' := fun hc => hslash ⟨rfl, hc⟩
        simp [Mode.next, hc]
    | blockComment =>
        rw [← hnext, Mode.next] at hsees
        split at hsees <;> cases hsees
    | _ => rfl

/-! ## Arriving at a seam -/

/-- Whether the scanner, with `passed` characters of a directive to pass over, comes through the
first part of a text to the seam, what marks it makes, and in what mode it arrives. `last` is the
last character that was visited and the mode of that visit. -/
inductive Arrives (second : List Char) : Option (Mode × Char) → Mode → Nat → List Char →
    List Mark → Option (Mode × Char) → Mode → Prop
  | here (last : Option (Mode × Char)) (mode : Mode) : Arrives second last mode 0 [] [] last mode
  | passed {last last' : Option (Mode × Char)} {mode mode' : Mode} {n : Nat} {c : Char}
      {first : List Char} {marks : List Mark}
      (later : Arrives second last mode n first marks last' mode') :
      Arrives second last mode (n + 1) (c :: first) marks last' mode'
  | char {last last' : Option (Mode × Char)} {mode next mode' : Mode} {c : Char}
      {first : List Char} {marks : List Mark} (h : find mode c (first ++ second) = .literal next)
      (later : Arrives second (some (mode, c)) next 0 first marks last' mode') :
      Arrives second last mode 0 (c :: first) (.char c :: marks) last' mode'
  | directive {last last' : Option (Mode × Char)} {mode mode' : Mode} {c : Char}
      {first raw : List Char} {content : Token.Content} {marks : List Mark}
      (h : find mode c (first ++ second) = .directive content raw)
      (later : Arrives second none mode (raw.length - 1) first marks last' mode') :
      Arrives second last mode 0 (c :: first) (.directive content raw :: marks) last' mode'

namespace Arrives

variable {last last' : Option (Mode × Char)} {mode' : Mode} {n : Nat} {marks : List Mark}

/-- What is cut from a text is cut from the first part, and then from the second. -/
theorem cut_eq (h : Arrives second last mode n first marks last' mode') :
    cut mode n (first ++ second) =
      ⟨marks ++ (cut mode' 0 second).marks, (cut mode' 0 second).unclosed⟩ := by
  induction h with
  | here => rfl
  | passed later ih => exact ih
  | char hfind later ih =>
      rw [List.cons_append, cut, hfind]
      dsimp only
      rw [ih]
      rfl
  | directive hfind later ih =>
      rw [List.cons_append, cut, hfind]
      dsimp only
      rw [ih]
      rfl

theorem le_length (h : Arrives second last mode n first marks last' mode') : n ≤ first.length := by
  induction h with
  | here => exact Nat.le_refl _
  | passed later ih => exact Nat.succ_le_succ ih
  | char => exact Nat.zero_le _
  | directive => exact Nat.zero_le _

/-- A comment that was open is closed at the end of its line, if the scanner comes to where it sees
brackets. -/
theorem newline_mem (h : Arrives second last mode n first marks last' mode')
    (hmode : mode = .lineComment) (hsees : mode'.seesBrackets = true) : '\n' ∈ first := by
  induction h with
  | here =>
      subst hmode
      cases hsees
  | passed later ih => exact List.mem_cons_of_mem _ (ih hmode hsees)
  | @char _ _ _ _ _ c _ _ hfind later ih =>
      by_cases hc : c = '\n'
      · exact hc ▸ List.mem_cons_self
      · refine List.mem_cons_of_mem _ (ih ?_ hsees)
        rw [← (find_eq_literal_iff.mp hfind).2.2, hmode]
        simp [Mode.next, hc]
  | directive hfind later ih =>
      exact List.mem_cons_of_mem _ (ih hmode hsees)

/-- The scanner arrives at a seam whatever follows, if it arrives where brackets are seen and the
last character before the seam is the same literal character. -/
theorem exchange (h : Arrives second last mode n first marks last' mode')
    (hsees : mode'.seesBrackets = true) (other : List Char)
    (hlast : ∀ m c, last' = some (m, c) → find m c other = .literal mode') :
    Arrives other last mode n first marks last' mode' := by
  induction h with
  | here => exact .here _ _
  | passed later ih => exact .passed (ih hsees hlast)
  | @char _ _ mode next _ c first _ hfind later ih =>
      cases first with
      | nil =>
          cases later
          exact .char (hlast _ _ rfl) (.here _ _)
      | cons d first =>
          refine .char
            (find_literal_append hfind (List.cons_ne_nil d first) (fun hnext => ?_) other)
            (ih hsees hlast)
          exact later.newline_mem hnext hsees
  | directive hfind later ih =>
      refine .directive (find_directive_append hfind ?_ other) (ih hsees hlast)
      have := later.le_length
      omega

/-- The last visit of the scanner was to the last character, unless that belongs to a directive. -/
theorem last_cases {m : Mode} {c : Char} (h : Arrives second last mode n first marks last' mode')
    (hlast : last' = some (m, c)) :
    (first.length = n ∧ last' = last ∧ mode' = mode) ∨
      (first.getLast? = some c ∧ find m c second = .literal mode') := by
  induction h with
  | here => exact Or.inl ⟨rfl, rfl, rfl⟩
  | @passed _ _ _ _ _ d first _ later ih =>
      refine (ih hlast).imp (fun ⟨hlength, hsame⟩ => ⟨congrArg (· + 1) hlength, hsame⟩) ?_
      rintro ⟨hget, hfind⟩
      exact ⟨by rw [List.getLast?_cons, hget]; rfl, hfind⟩
  | @char _ _ _ _ _ d first _ hfind later ih =>
      refine Or.inr ?_
      rcases ih hlast with ⟨hlength, hsame, rfl⟩ | ⟨hget, hfind'⟩
      · obtain rfl := List.eq_nil_of_length_eq_zero hlength
        cases hlast.symm.trans hsame
        exact ⟨rfl, hfind⟩
      · exact ⟨by rw [List.getLast?_cons, hget]; rfl, hfind'⟩
  | @directive _ _ _ _ d first _ _ _ hfind later ih =>
      refine Or.inr ?_
      rcases ih hlast with ⟨-, hsame, -⟩ | ⟨hget, hfind'⟩
      · cases hlast.symm.trans hsame
      · exact ⟨by rw [List.getLast?_cons, hget]; rfl, hfind'⟩

theorem find_last {m : Mode} {c : Char} (h : Arrives second none mode n first marks last' mode')
    (hlast : last' = some (m, c)) :
    first.getLast? = some c ∧ find m c second = .literal mode' := by
  rcases h.last_cases hlast with ⟨-, hsame, -⟩ | hfind
  · cases hlast.symm.trans hsame
  · exact hfind

/-- The scanner arrives at a seam whatever follows, if it arrives where brackets are seen and the
last character before the seam is no slash in plain text and no brace where brackets are seen. -/
theorem replace (h : Arrives second none mode n first marks last' mode')
    (hsees : mode'.seesBrackets = true) (hslash : last' ≠ some (.plain, '/'))
    (hbrace : ∀ m, last' = some (m, '\x7b') → m.seesBrackets = false) (other : List Char) :
    Arrives other none mode n first marks last' mode' := by
  refine h.exchange hsees other fun m c hlast => ?_
  refine find_exchange (h.find_last hlast).2 hsees (fun hm => ?_) ?_ other
  · rintro rfl
    rw [hbrace m hlast] at hm
    cases hm
  · rintro ⟨rfl, rfl⟩
    exact hslash hlast

end Arrives

/-- A text that is cut without an open bracket is come through to its end. -/
theorem arrives_at_end {n : Nat} {text : List Char} (hn : n ≤ text.length)
    (h : (cut mode n text).unclosed = none) (last : Option (Mode × Char)) :
    ∃ last', Arrives [] last mode n text (cut mode n text).marks last' (lastMode mode n text) := by
  induction text generalizing mode n last with
  | nil =>
      obtain rfl : n = 0 := Nat.le_zero.mp hn
      exact ⟨last, .here last mode⟩
  | cons c rest ih =>
      match n with
      | n + 1 =>
          obtain ⟨last', hlater⟩ := ih (Nat.le_of_succ_le_succ hn) h last
          exact ⟨last', .passed hlater⟩
      | 0 =>
          rw [cut] at h ⊢
          rw [lastMode]
          rcases find_cases mode c rest with
            hfind | ⟨content, raw, after, hfind, -, -, hrest⟩ | ⟨bracket, hfind, -⟩
          · rw [hfind] at h ⊢
            obtain ⟨last', hlater⟩ := ih (Nat.zero_le _) h (some (mode, c))
            exact ⟨last', .char (by rw [List.append_nil]; exact hfind) hlater⟩
          · rw [hfind] at h ⊢
            have hraw : (c :: raw).length - 1 ≤ rest.length := by
              rw [hrest, List.length_append, List.length_cons]
              omega
            obtain ⟨last', hlater⟩ := ih hraw h none
            exact ⟨last', .directive (by rw [List.append_nil]; exact hfind) hlater⟩
          · rw [hfind] at h
            cases h

theorem error_eq_none_iff {text : String} :
    (ofText text).error = none ↔ (cut .plain 0 text.toList).unclosed = none :=
  Option.map_eq_none_iff

theorem cut_passed (mode : Mode) (first second : List Char) :
    cut mode first.length (first ++ second) = cut mode 0 second := by
  induction first with
  | nil => rfl
  | cons c first ih => exact ih

/-- What is cut from a text at a directive. -/
theorem cut_directive (h : find mode c rest = .directive content raw) :
    ∃ second, c :: rest = raw ++ second ∧ raw ≠ [] ∧ mode.seesBrackets = true ∧
      cut mode 0 (c :: rest) =
        ⟨.directive content raw :: (cut mode 0 second).marks, (cut mode 0 second).unclosed⟩ := by
  rcases find_cases mode c rest with
    hfind | ⟨content', raw', second, hfind, hsees, -, rfl⟩ | ⟨bracket, hfind, -⟩
  · cases hfind.symm.trans h
  · cases hfind.symm.trans h
    refine ⟨second, rfl, List.cons_ne_nil _ _, hsees, ?_⟩
    have hpassed : cut mode ((c :: raw').length - 1) (raw' ++ second) = cut mode 0 second :=
      cut_passed mode raw' second
    rw [cut, hfind]
    dsimp only
    rw [hpassed]
  · cases hfind.symm.trans h

/-- A bracket with its partner is a directive wherever brackets are seen. -/
theorem cut_bracket (hsees : mode.seesBrackets = true) (b : Bracket) {body after : List Char}
    (h : Text.before? b.closing (body ++ (b.closing ++ after)) = some body) :
    cut mode 0 (b.opening ++ body ++ b.closing ++ after) =
      ⟨.directive (b.content body) (b.opening ++ body ++ b.closing) :: (cut mode 0 after).marks,
        (cut mode 0 after).unclosed⟩ := by
  obtain ⟨o, hopening, hat⟩ : ∃ o, b.opening = ['\x7b', o] ∧
      ∀ rest, Bracket.at? ('\x7b' :: o :: rest) = some b := by
    cases b <;> exact ⟨_, rfl, fun _ => rfl⟩
  have hfind : find mode '\x7b' (o :: (body ++ (b.closing ++ after))) =
      .directive (b.content body) (b.opening ++ body ++ b.closing) :=
    find_eq_directive_iff.mpr (Or.inl ⟨hsees, b, body, hat _, h, rfl, rfl⟩)
  have hpassed := cut_passed mode (o :: (body ++ b.closing)) after
  have htext : b.opening ++ body ++ b.closing ++ after =
      '\x7b' :: o :: (body ++ (b.closing ++ after)) := by simp [hopening]
  have hlength : (b.opening ++ body ++ b.closing).length - 1 =
      (o :: (body ++ b.closing)).length := by
    simp [hopening]
  rw [htext, cut, hfind]
  dsimp only
  rw [hlength, show o :: (body ++ (b.closing ++ after)) = o :: (body ++ b.closing) ++ after by simp,
    hpassed]

/-! ## The atoms of marks -/

/-- Where the next mark is made into atoms: its location, the number of the literal token that is
pending or else of the next token, and whether there are pending characters. -/
structure Spot where
  number : Nat
  pending : Bool
  place : Location

namespace Spot

/-- The number of a directive at the spot. -/
def free (x : Spot) : Nat := if x.pending then x.number + 1 else x.number

/-- The spot behind a mark. -/
def pass (x : Spot) : Mark → Spot
  | .char c => ⟨x.number, true, x.place.advance c⟩
  | .directive _ raw => ⟨x.free + 1, false, x.place.advanceOver raw⟩

/-- The atoms of a mark. -/
def give (x : Spot) : Mark → List Atom
  | .char c => [.char x.place c]
  | .directive content raw =>
      Atom.ofToken x.free ⟨content, String.ofList raw, ⟨x.place, x.place.advanceOver raw⟩⟩

def atoms (x : Spot) : List Mark → List Atom
  | [] => []
  | mark :: marks => x.give mark ++ (x.pass mark).atoms marks

def after (x : Spot) (marks : List Mark) : Spot := marks.foldl pass x

theorem atoms_append (x : Spot) (marks more : List Mark) :
    x.atoms (marks ++ more) = x.atoms marks ++ (x.after marks).atoms more := by
  induction marks generalizing x with
  | nil => rfl
  | cons mark marks ih =>
      rw [List.cons_append, atoms, ih, atoms, List.append_assoc]
      rfl

/-- The spot at the beginning of a text. -/
def start : Spot := ⟨0, false, .start⟩

theorem ofTokens_gather (n : Nat) (start : Location) (pending : List Char) (marks : List Mark) :
    Atom.ofTokens n (gather start pending marks) =
      Atom.chars start pending.reverse ++
        atoms ⟨n, !pending.isEmpty, start.advanceOver pending.reverse⟩ marks := by
  induction marks generalizing n start pending with
  | nil => rw [gather, Atom.ofTokens_literal, atoms, List.append_nil]
  | cons mark marks ih =>
      cases mark with
      | char c =>
          rw [gather, ih, List.reverse_cons, Atom.chars_append, Location.advanceOver_append,
            List.append_assoc]
          rfl
      | directive content raw =>
          rw [gather, Atom.ofTokens_append, Atom.ofTokens_literal, Atom.ofTokens, ih]
          have hfree : n + (literal start pending.reverse).length =
              free ⟨n, !pending.isEmpty, start.advanceOver pending.reverse⟩ := by
            rw [literal, free]
            cases pending <;> simp
          rw [hfree]
          rfl

end Spot

/-- The atoms of a text are those of the marks it is cut into. -/
theorem atoms_ofText (text : String) :
    Atom.ofTokens 0 (ofText text).tokens = Spot.start.atoms (cut .plain 0 text.toList).marks :=
  Spot.ofTokens_gather 0 .start [] _

end Scan

/-! ## The reader at a seam -/

namespace Lexeme.Reading

open Scan (Arrives Spot Mode)

variable {r : Reading} {mode mode' : Mode} {last last' : Option (Mode × Char)} {n : Nat}
  {first second : List Char} {marks : List Scan.Mark}

/-- Whether a reader has come behind a slash that may open a comment, or has stopped. -/
def AtSlash (r : Reading) : Prop := r = .stopped ∨ ∃ begin, r = .slash begin

theorem InStep.atSlash {rest : List Char} (h : r.InStep .plain ('/' :: rest)) (place : Location) :
    (r.step (.char place '/')).1.AtSlash := by
  rcases h with rfl | h
  · exact Or.inl rfl
  cases r with
  | between => exact Or.inr ⟨place, rfl⟩
  | number begin chars => exact Or.inr ⟨place, rfl⟩
  | word begin chars => exact Or.inr ⟨place, by rw [step, if_neg (by decide)]; rfl⟩
  | slash begin =>
      rw [mode?, List.head?_cons, if_neg (by decide), if_pos rfl] at h
      cases h
  | blockStar begin =>
      rw [mode?, List.head?_cons, if_pos rfl] at h
      cases h
  | _ => cases h

/-- Where the scanner arrives, the reader is in step with it. If the last character was a slash in
plain text, the reader is behind a slash. -/
theorem InStep.arrives (h : r.InStep mode ((first ++ second).drop n))
    (hlast : last = some (.plain, '/') → r.AtSlash)
    (harrives : Arrives second last mode n first marks last' mode') (x : Spot) :
    (r.after (x.atoms marks)).InStep mode' second ∧
      (last' = some (.plain, '/') → (r.after (x.atoms marks)).AtSlash) := by
  induction harrives generalizing r x with
  | here => exact ⟨h, hlast⟩
  | passed later ih => exact ih h hlast x
  | @char _ _ mode next _ c first _ hfind later ih =>
      obtain ⟨-, -, rfl⟩ := Scan.find_eq_literal_iff.mp hfind
      refine ih (h.step_char x.place) (fun hslash => ?_) (x.pass (.char c))
      cases hslash
      exact h.atSlash x.place
  | @directive _ _ mode _ c first raw content _ hfind later ih =>
      rcases Scan.find_cases mode c (first ++ second) with
        hother | ⟨content', raw', after, hother, hsees, hcontent, hrest⟩ | ⟨bracket, hother, -⟩
      · cases hother.symm.trans hfind
      · cases hother.symm.trans hfind
        obtain ⟨a, ha, hgives⟩ := Scan.gives_ofToken hcontent x.free (c :: raw') mode
          ⟨x.place, x.place.advanceOver (c :: raw')⟩
        rw [Spot.atoms, Spot.give, ha]
        refine ih ?_ (fun hnone => by cases hnone) _
        exact h.step_other hsees (hgives.ne_char rfl) _
      · cases hother.symm.trans hfind

end Lexeme.Reading

end Stencil
