import Stencil.Proofs.Cursor
import Stencil.Proofs.Lexing
import Stencil.Proofs.Reading

/-!
# Parsing by the grammar

The builder takes the lexemes of a text one by one, with what is open around it kept in its
hole. The grammar is a recursion on phrases. Between the two stands one kind of equation: a
builder that has a phrase before it comes, behind the phrase, to the builder with the phrase
filled in, whatever the builder was.

That a derived phrase is taken so is an induction on its derivation (`takes_of_derives`). The
other way round, a builder that has no fault at the end of the text has had none anywhere, so
at each place the next lexeme was one it does not refuse. The induction is on the length of
the text: it begins with trivia and a lexeme, and what is left behind them is shorter.
-/

namespace Stencil

namespace Draft.Builder

open Grammar (Phrase Derives Document Trivia Inside)
open Lexeme (Delimited Spells First)

variable (last : Location)

/-- The builder behind the lexemes of a text. -/
def along (last place : Location) (text : List Char) (b : Builder) : Builder :=
  (Lexeme.Reading.between.lex last place text).foldl step b

theorem along_stopped (place : Location) (text : List Char) (draft : Draft) :
    along last place text (.stopped draft) = .stopped draft :=
  foldl_step_stopped draft _

theorem along_trivia {text rest : List Char} (h : Trivia text rest) (place : Location) :
    ∃ q, ∀ b, along last place text b = along last q rest b := by
  obtain ⟨q, hq⟩ := Lexeme.Reading.lex_trivia last h place
  exact ⟨q, fun b => by rw [along, hq]; rfl⟩

/-! ## What the grammar derives is accepted -/

/-- Whether a lexeme is the first one of a value. -/
def StartsValue : Lexeme.Kind → Prop
  | .text _ | .number _ | .word _ => True
  | .mark c => c = '[' ∨ c = '\x7b'
  | _ => False

/-- Whether a builder takes the first lexeme of a value for a value at a place. -/
def Awaits (b : Builder) (hole : Hole) : Prop :=
  ∀ place k, StartsValue k → b.step ⟨place, k⟩ = takeValue hole ⟨place, k⟩

theorem awaits_body (leading : List Directive) : Awaits (.body leading) (.body leading) := by
  intro place k hk
  cases k with
  | text | number | word | mark => rfl
  | directive | stray | brokenText | openComment => cases hk

theorem awaits_element (outer : Hole) (start : Location) (earlier : Elements) :
    Awaits (.element outer start earlier) (.element outer start earlier) := by
  intro place k hk
  cases k with
  | text | number | word => rfl
  | mark c => rcases hk with rfl | rfl <;> rfl
  | directive | stray | brokenText | openComment => cases hk

theorem awaits_memberValue (outer : Hole) (start : Location) (earlier : Members) (place : Location)
    (key : List Piece) : Awaits (.memberValue outer start earlier place key)
      (.member outer start earlier place key) :=
  fun _ _ _ => rfl

/-- Whether a node is finished and has a value that does not depend on any directive. -/
def Denotes (node : Node) (v : Json) : Prop :=
  node.isBroken = false ∧ ∀ look, node.read look = v

theorem read_chars (look : Look) (chars : List Char) :
    Piece.read look (chars.map .char) = chars := by
  induction chars with
  | nil => rfl
  | cons c chars ih => exact congrArg _ ih

theorem takeValue_word {word : List Char} {v : Json} (h : Grammar.Word word v) (hole : Hole)
    (place : Location) : takeValue hole ⟨place, .word word⟩ = hole.fill place (.scalar v) := by
  cases h <;> rfl

theorem takeValue_number {p : Json.Number.Parts} {cs : List Char} (h : Grammar.Number p cs)
    (hfits : ¬ p.Overflows) (hole : Hole) (place : Location) :
    takeValue hole ⟨place, .number cs⟩ = hole.fill place (.scalar (.number p.value)) := by
  have hnumber : Json.Number.ofText? cs = some p.value := by
    rw [Json.Number.ofText?, Grammar.ofText?_eq_some_iff.mpr h]
    exact Json.Number.ofParts_eq_some_iff.mpr ⟨hfits, rfl⟩
  simp only [takeValue, hnumber]

/-- What a builder makes of a phrase, in a text that goes on with `rest`. -/
def Takes (text rest : List Char) : Phrase → Prop
  | .value v | .padded v =>
      Delimited rest → ∀ place b hole, Awaits b hole →
        ∃ start node q, Denotes node v ∧
          along last place text b = along last q rest (hole.fill start node)
  | .items vs =>
      ∀ place outer start earlier, ∃ elements q,
        (∀ look, elements.read look = earlier.read look ++ vs) ∧
        along last place text (.element outer start earlier) =
          along last q rest (outer.fill start (.array elements))
  | .members ms =>
      ∀ place outer start earlier, ∃ members q,
        (∀ look, members.read look =
          ms.foldl (fun table m => Assoc.insert m.1 m.2 table) (earlier.read look)) ∧
        along last place text (.member outer start earlier) =
          along last q rest (outer.fill start (.object members))

theorem along_mark {c : Char} (h : Lexeme.isMark c = true) (place : Location) (text : List Char)
    (b : Builder) :
    along last place (c :: text) b =
      along last (place.advance c) text (b.step ⟨place, .mark c⟩) := by
  rw [along, Lexeme.lex_mark last h]
  rfl

theorem along_string {text chars rest : List Char} (h : Inside text chars rest) (place : Location) :
    ∃ q, ∀ b, along last place ('"' :: text) b =
      along last q rest (b.step ⟨place, .text (chars.map .char)⟩) := by
  obtain ⟨q, hq⟩ := Lexeme.lex_string last h place
  exact ⟨q, fun b => by rw [along, hq]; rfl⟩

/-- The key of a member and its colon. -/
theorem along_key {text quoted key colon next : List Char} (before : Trivia text ('"' :: quoted))
    (hkey : Inside quoted key colon) (hcolon : Trivia colon (':' :: next)) (place : Location)
    (outer : Hole) (start : Location) (earlier : Members) :
    ∃ place' q, along last place text (.member outer start earlier) =
      along last q next (.memberValue outer start earlier place' (key.map .char)) := by
  obtain ⟨q, hq⟩ := along_trivia last before place
  obtain ⟨q', hq'⟩ := along_string last hkey q
  obtain ⟨q'', hq''⟩ := along_trivia last hcolon q'
  refine ⟨q, q''.advance ':', ?_⟩
  rw [hq, hq', hq'', along_mark last rfl]
  rfl

theorem takes_of_derives {phrase : Phrase} {text rest : List Char} (h : Derives phrase text rest) :
    Takes last text rest phrase := by
  induction h with
  | @word v word rest h =>
      intro hrest place b hole hb
      obtain ⟨q, hq⟩ := Lexeme.lex_keyword last h hrest place
      refine ⟨place, .scalar v, q, ⟨rfl, fun _ => rfl⟩, ?_⟩
      rw [along, hq, List.foldl_cons, hb place (.word word) trivial, takeValue_word h]
      rfl
  | @number p cs rest h hfits =>
      intro hrest place b hole hb
      obtain ⟨c, tail, rfl, hc, htail⟩ := h.exists_cons
      obtain ⟨q, hq⟩ := Lexeme.lex_numeral last hc htail hrest place
      refine ⟨place, .scalar (.number p.value), q, ⟨rfl, fun _ => rfl⟩, ?_⟩
      rw [along, hq, List.foldl_cons, hb place (.number _) trivial, takeValue_number h hfits]
      rfl
  | @text text chars rest h =>
      intro hrest place b hole hb
      obtain ⟨q, hq⟩ := along_string last h place
      refine ⟨place, .text (chars.map .char), q, ⟨rfl, fun look => ?_⟩, ?_⟩
      · rw [Node.read, read_chars]
      · rw [hq, hb place (.text _) trivial]
        rfl
  | array h ih =>
      intro hrest place b hole hb
      obtain ⟨elements, q, hread, hq⟩ := ih (place.advance '[') hole place .none
      refine ⟨place, .array elements, q, ⟨rfl, fun look => ?_⟩, ?_⟩
      · rw [Node.read, hread]
        rfl
      · rw [along_mark last rfl, hb place (.mark '[') (Or.inl rfl)]
        exact hq
  | object h ih =>
      intro hrest place b hole hb
      obtain ⟨members, q, hread, hq⟩ := ih (place.advance '\x7b') hole place .none
      refine ⟨place, .object members, q, ⟨rfl, fun look => ?_⟩, ?_⟩
      · rw [Node.read, hread]
        rfl
      · rw [along_mark last rfl, hb place (.mark '\x7b') (Or.inr rfl)]
        exact hq
  | padded before h behind ih =>
      intro hrest place b hole hb
      obtain ⟨q, hq⟩ := along_trivia last before place
      obtain ⟨start, node, q', hnode, hvalue⟩ := ih (hrest.of_trivia behind) q b hole hb
      obtain ⟨q'', hq''⟩ := along_trivia last behind q'
      exact ⟨start, node, q'', hnode, by rw [hq, hvalue, hq'']⟩
  | noItem h =>
      intro place outer start earlier
      obtain ⟨q, hq⟩ := along_trivia last h place
      refine ⟨earlier, q.advance ']', fun look => (List.append_nil _).symm, ?_⟩
      rw [hq, along_mark last rfl]
      rfl
  | lastItem h ih =>
      intro place outer start earlier
      obtain ⟨begin, node, q, hnode, hq⟩ := ih (Lexeme.delimited_cons (by decide) _) place _ _
        (awaits_element outer start earlier)
      refine ⟨earlier.add begin node, q.advance ']', fun look => ?_, ?_⟩
      · rw [Elements.read, hnode.1, hnode.2]
        rfl
      · rw [hq, along_mark last rfl]
        rfl
  | @item v vs text next rest h later ih ih' =>
      intro place outer start earlier
      obtain ⟨begin, node, q, hnode, hq⟩ := ih (Lexeme.delimited_cons (by decide) _) place _ _
        (awaits_element outer start earlier)
      obtain ⟨elements, q', hread, hq'⟩ := ih' (q.advance ',') outer start (earlier.add begin node)
      refine ⟨elements, q', fun look => ?_, ?_⟩
      · rw [hread, Elements.read, hnode.1, hnode.2]
        exact List.append_assoc _ [v] vs
      · rw [hq, along_mark last rfl]
        exact hq'
  | noMember h =>
      intro place outer start earlier
      obtain ⟨q, hq⟩ := along_trivia last h place
      refine ⟨earlier, q.advance '\x7d', fun look => rfl, ?_⟩
      rw [hq, along_mark last rfl]
      rfl
  | @lastMember v text quoted key colon next rest before hkey hcolon h ih =>
      intro place outer start earlier
      obtain ⟨place', q, hq⟩ := along_key last before hkey hcolon place outer start earlier
      obtain ⟨begin, node, q', hnode, hq'⟩ := ih (Lexeme.delimited_cons (by decide) _) q _ _
        (awaits_memberValue outer start earlier place' (key.map .char))
      refine ⟨earlier.add place' (key.map .char) node, q'.advance '\x7d', fun look => ?_, ?_⟩
      · rw [Members.read, hnode.1, hnode.2, read_chars]
        rfl
      · rw [hq, hq', along_mark last rfl]
        rfl
  | @member v ms text quoted key colon next more rest before hkey hcolon h later ih ih' =>
      intro place outer start earlier
      obtain ⟨place', q, hq⟩ := along_key last before hkey hcolon place outer start earlier
      obtain ⟨begin, node, q', hnode, hq'⟩ := ih (Lexeme.delimited_cons (by decide) _) q _ _
        (awaits_memberValue outer start earlier place' (key.map .char))
      obtain ⟨members, q'', hread, hq''⟩ := ih' (q'.advance ',') outer start
        (earlier.add place' (key.map .char) node)
      refine ⟨members, q'', fun look => ?_, ?_⟩
      · rw [hread, Members.read, hnode.1, hnode.2, read_chars]
        rfl
      · rw [hq, hq', along_mark last rfl]
        exact hq''

/-! ## What is accepted the grammar derives -/

/-- Whether a builder has no fault when the text ends. -/
def Clean (b : Builder) : Prop := (b.finish last).fault = none

theorem not_clean_stopped {draft : Draft} (h : draft.fault.isSome) (place : Location)
    (text : List Char) : ¬ Clean last (along last place text (.stopped draft)) := by
  intro hclean
  rw [along_stopped] at hclean
  have hnone : draft.fault = none := hclean
  rw [hnone] at h
  cases h

theorem not_clean_failValue {hole : Hole} {start p place : Location} {value : Node} {fault : Fault}
    {text : List Char} :
    ¬ Clean last (along last place text (failValue hole start value p fault)) :=
  not_clean_stopped last (fault_of_failValue rfl) place text

theorem step_faulty {b : Builder} (hb : b.FaultIfStopped) {l : Lexeme} (h : l.kind.Faulty) :
    ∃ draft, b.step l = .stopped draft ∧ draft.fault.isSome := by
  obtain ⟨draft, hdraft⟩ : ∃ draft, b.step l = .stopped draft := by
    obtain ⟨place, kind⟩ := l
    cases kind with
    | brokenText pieces at_ fault => exact step_brokenText b place pieces at_ fault
    | openComment => cases b <;> exact ⟨_, rfl⟩
    | text | mark | number | word | directive | stray => cases h
  exact ⟨draft, hdraft, (fault_of_step hdraft).elim (hb draft) id⟩

/-- A text that a builder takes without a fault is trivia, or it begins with a lexeme. -/
theorem along_cases {b : Builder} (hb : b.FaultIfStopped) {place : Location} {text : List Char}
    (h : Clean last (along last place text b)) :
    (Trivia text [] ∧ Clean last b) ∨
      ∃ start rest k p q, Trivia text start ∧ Spells k start rest ∧
        along last place text b = along last q rest (b.step ⟨p, k⟩) := by
  have hfirst := Lexeme.first_lex last place text
  rw [along] at h ⊢
  generalize Lexeme.Reading.between.lex last place text = ls at hfirst h ⊢
  cases hfirst with
  | none htrivia => exact Or.inl ⟨htrivia, h⟩
  | some htrivia hspells p q => exact Or.inr ⟨_, _, _, p, q, htrivia, hspells, rfl⟩
  | fault hfaulty =>
      obtain ⟨draft, hdraft, hfault⟩ := step_faulty hb hfaulty
      rw [List.foldl_cons, hdraft] at h
      exact absurd h (not_clean_stopped last hfault place [])

theorem takeValue_word_cases (hole : Hole) (place : Location) (chars : List Char) :
    (∃ v, Grammar.Word chars v) ∨
      ∃ fault, takeValue hole ⟨place, .word chars⟩ =
        failValue hole place (.broken []) place fault := by
  have hchars {word : String} (h : String.ofList chars = word) : chars = word.toList := by
    rw [← h, String.toList_ofList]
  simp only [takeValue]
  split
  · next hword => exact Or.inl ⟨_, by rw [hchars hword]; exact .true⟩
  · next hword => exact Or.inl ⟨_, by rw [hchars hword]; exact .false⟩
  · next hword => exact Or.inl ⟨_, by rw [hchars hword]; exact .null⟩
  · exact Or.inr ⟨_, rfl⟩

/-- Whether the items that a builder takes from a text are items of the grammar. -/
def ItemsFrom (text : List Char) : Prop :=
  ∀ place outer start earlier, Clean last (along last place text (.element outer start earlier)) →
    ∃ vs rest q elements, Derives (.items vs) text rest ∧ rest.length < text.length ∧
      along last place text (.element outer start earlier) =
        along last q rest (outer.fill start (.array elements))

def MembersFrom (text : List Char) : Prop :=
  ∀ place outer start earlier, Clean last (along last place text (.member outer start earlier)) →
    ∃ ms rest q members, Derives (.members ms) text rest ∧ rest.length < text.length ∧
      along last place text (.member outer start earlier) =
        along last q rest (outer.fill start (.object members))

/-- Whether the containers in texts shorter than a number are containers of the grammar. -/
def ContainersFrom (n : Nat) : Prop :=
  ∀ text : List Char, text.length < n → ItemsFrom last text ∧ MembersFrom last text

theorem value_from {k : Lexeme.Kind} {start rest : List Char} (h : Spells k start rest)
    (ih : ContainersFrom last start.length)
    {hole : Hole} {place q : Location}
    (hclean : Clean last (along last q rest (takeValue hole ⟨place, k⟩))) :
    ∃ v after begin node q', Derives (.value v) start after ∧ after.length < start.length ∧
      along last q rest (takeValue hole ⟨place, k⟩) =
        along last q' after (hole.fill begin node) := by
  cases h with
  | @mark c hc rest =>
      have hless : rest.length < (c :: rest).length := Nat.lt_succ_self _
      rcases Lexeme.isMark_iff.mp hc with rfl | rfl | rfl | rfl | rfl | rfl
      any_goals exact absurd hclean (not_clean_failValue last)
      · obtain ⟨ms, after, q', members, hderives, hshorter, heq⟩ :=
          (ih rest hless).2 q hole place .none hclean
        exact ⟨_, after, place, .object members, q', .object hderives, Nat.lt_succ_of_lt hshorter,
          heq⟩
      · obtain ⟨vs, after, q', elements, hderives, hshorter, heq⟩ :=
          (ih rest hless).1 q hole place .none hclean
        exact ⟨_, after, place, .array elements, q', .array hderives, Nat.lt_succ_of_lt hshorter,
          heq⟩
  | @text text chars rest h =>
      exact ⟨_, rest, place, .text (chars.map .char), q, .text h,
        Nat.lt_succ_of_lt h.length_lt, rfl⟩
  | number c text =>
      have hless : (text.dropWhile Json.Reader.isNumberChar).length < (c :: text).length :=
        Nat.lt_succ_of_le (List.dropWhile_suffix _).length_le
      cases hnumber : Json.Number.ofText? (c :: text.takeWhile Json.Reader.isNumberChar) with
      | none =>
          simp only [takeValue, hnumber] at hclean
          exact absurd hclean (not_clean_failValue last)
      | some n =>
          obtain ⟨p, hparts, hvalue⟩ := Option.bind_eq_some_iff.mp hnumber
          obtain ⟨hfits, rfl⟩ := Json.Number.ofParts_eq_some_iff.mp hvalue
          have hderives : Derives (.value (.number p.value))
              (c :: text.takeWhile Json.Reader.isNumberChar ++
                text.dropWhile Json.Reader.isNumberChar) _ :=
            .number (Grammar.ofText?_eq_some_iff.mp hparts) hfits
          rw [List.cons_append, List.takeWhile_append_dropWhile] at hderives
          refine ⟨_, _, place, .scalar (.number p.value), q, hderives, hless, ?_⟩
          simp only [takeValue, hnumber]
  | word c text =>
      have hless : (text.dropWhile Lexeme.isWordChar).length < (c :: text).length :=
        Nat.lt_succ_of_le (List.dropWhile_suffix _).length_le
      rcases takeValue_word_cases hole place (c :: text.takeWhile Lexeme.isWordChar) with
        ⟨v, hword⟩ | ⟨fault, hfault⟩
      · have hderives : Derives (.value v)
            (c :: text.takeWhile Lexeme.isWordChar ++ text.dropWhile Lexeme.isWordChar) _ :=
          .word hword
        rw [List.cons_append, List.takeWhile_append_dropWhile] at hderives
        exact ⟨v, _, place, .scalar v, q, hderives, hless, by rw [takeValue_word hword]⟩
      · rw [hfault] at hclean
        exact absurd hclean (not_clean_failValue last)
  | stray c rest => exact absurd hclean (not_clean_failValue last)

/-- Whether a builder stops at a lexeme. -/
def Refuses (b : Builder) (k : Lexeme.Kind) : Prop :=
  ∀ place, ∃ draft, b.step ⟨place, k⟩ = .stopped draft ∧ draft.fault.isSome

theorem not_clean_of_refuses {b : Builder} {k : Lexeme.Kind} (h : b.Refuses k)
    (p place : Location) (text : List Char) :
    ¬ Clean last (along last place text (b.step ⟨p, k⟩)) := by
  obtain ⟨draft, hdraft, hfault⟩ := h p
  rw [hdraft]
  exact not_clean_stopped last hfault place text

theorem not_clean_endIn (b : Builder) {hole : Hole} {start : Location} {value : Node}
    {expected : Expected} (h : b.finish last = endIn hole start value last expected) :
    ¬ Clean last b := by
  intro hclean
  rw [Clean, h, endIn] at hclean
  cases hclean

/-- Where a builder takes nothing but some marks, one of them comes next. -/
theorem mark_of_clean {b : Builder} (hb : b.FaultIfStopped) (hend : ¬ Clean last b)
    {marks : List Char}
    (hother : ∀ k, (∀ d, k ≠ .directive d) → (∀ c ∈ marks, k ≠ .mark c) → b.Refuses k)
    {place : Location} {text : List Char} (h : Clean last (along last place text b)) :
    ∃ c ∈ marks, ∃ rest p q, Trivia text (c :: rest) ∧
      along last place text b = along last q rest (b.step ⟨p, .mark c⟩) := by
  rcases along_cases last hb h with ⟨-, hclean⟩ | ⟨begin, rest, k, p, q, htrivia, hspells, hq⟩
  · exact absurd hclean hend
  · by_cases hmark : ∃ c ∈ marks, k = .mark c
    · obtain ⟨c, hc, rfl⟩ := hmark
      cases hspells with
      | mark _ rest => exact ⟨c, hc, rest, p, q, htrivia, hq⟩
    · have hrefuses := hother k hspells.ne_directive fun c hc hk => hmark ⟨c, hc, hk⟩
      rw [hq] at h
      exact absurd h (not_clean_of_refuses last hrefuses p q rest)

theorem refuses_afterElement {outer : Hole} {start : Location} {earlier : Elements}
    (k : Lexeme.Kind) (hk : ∀ d, k ≠ .directive d) (h : ∀ c ∈ [',', ']'], k ≠ .mark c) :
    (Builder.afterElement outer start earlier).Refuses k := by
  intro place
  cases k with
  | directive d => exact absurd rfl (hk d)
  | mark c =>
      simp only [step]
      split
      · next heq => exact absurd heq (h ',' (by simp))
      · next heq => exact absurd heq (h ']' (by simp))
      · next heq => cases heq
      · exact ⟨_, rfl, rfl⟩
  | text | number | word | stray | brokenText | openComment => exact ⟨_, rfl, rfl⟩

theorem refuses_afterMember {outer : Hole} {start : Location} {earlier : Members}
    (k : Lexeme.Kind) (hk : ∀ d, k ≠ .directive d) (h : ∀ c ∈ [',', '\x7d'], k ≠ .mark c) :
    (Builder.afterMember outer start earlier).Refuses k := by
  intro place
  cases k with
  | directive d => exact absurd rfl (hk d)
  | mark c =>
      simp only [step]
      split
      · next heq => exact absurd heq (h ',' (by simp))
      · next heq => exact absurd heq (h '\x7d' (by simp))
      · next heq => cases heq
      · exact ⟨_, rfl, rfl⟩
  | text | number | word | stray | brokenText | openComment => exact ⟨_, rfl, rfl⟩

theorem refuses_colon {outer : Hole} {start place : Location} {earlier : Members}
    {key : List Piece} (k : Lexeme.Kind) (h : ∀ c ∈ [':'], k ≠ .mark c) :
    (Builder.colon outer start earlier place key).Refuses k := by
  intro place
  cases k with
  | mark c =>
      simp only [step]
      split
      · next heq => exact absurd heq (h ':' (by simp))
      · exact ⟨_, rfl, rfl⟩
  | text | number | word | stray | directive | brokenText | openComment => exact ⟨_, rfl, rfl⟩

theorem refuses_finished {leading trailing : List Directive} {start : Location} {value : Node}
    (k : Lexeme.Kind) (hk : ∀ d, k ≠ .directive d) :
    (Builder.finished leading start value trailing).Refuses k := by
  intro place
  cases k with
  | directive d => exact absurd rfl (hk d)
  | text | mark | number | word | stray | brokenText | openComment => exact ⟨_, rfl, rfl⟩

theorem items_from {text : List Char} (ih : ContainersFrom last text.length) :
    ItemsFrom last text := by
  intro place outer start earlier hclean
  rcases along_cases last (fun _ => Builder.noConfusion) hclean with
    ⟨-, hend⟩ | ⟨begin, rest, k, p, q, htrivia, hspells, hq⟩
  · exact absurd hend (not_clean_endIn last _ rfl)
  have hbegin := htrivia.length_le
  by_cases hclose : k = .mark ']'
  · subst hclose
    cases hspells with
    | mark _ rest => exact ⟨[], rest, q, earlier, .noItem htrivia, hbegin, hq⟩
  · have hstep : step (.element outer start earlier) ⟨p, k⟩ =
        takeValue (.element outer start earlier) ⟨p, k⟩ := by
      cases hspells with
      | mark hc rest =>
          simp only [step]
      | text | number | word | stray => rfl
    rw [hstep] at hq
    rw [hq] at hclean
    obtain ⟨v, after, first, node, q', hvalue, hshorter, hq'⟩ := value_from last hspells
      (fun text h => ih text (Nat.lt_of_lt_of_le h hbegin)) hclean
    rw [hq'] at hclean hq
    obtain ⟨c, hc, next, p', q'', hbehind, hq''⟩ :=
      mark_of_clean last (fun _ => Builder.noConfusion)
      (not_clean_endIn last _ rfl) refuses_afterElement hclean
    have hnext := hbehind.length_le
    rw [List.length_cons] at hnext
    simp only [List.mem_cons, List.not_mem_nil, or_false] at hc
    rcases hc with rfl | rfl
    · have hmore :
          Clean last (along last q'' next (.element outer start (earlier.add first node))) :=
        hq'' ▸ hclean
      obtain ⟨vs, rest, q₃, elements, hitems, hless, hq₃⟩ :=
        (ih next (by omega)).1 q'' outer start _ hmore
      refine ⟨v :: vs, rest, q₃, elements, .item (.padded htrivia hvalue hbehind) hitems, ?_,
        hq.trans (hq''.trans hq₃)⟩
      omega
    · refine ⟨[v], next, q'', _, .lastItem (.padded htrivia hvalue hbehind), ?_, hq.trans hq''⟩
      omega

theorem members_from {text : List Char} (ih : ContainersFrom last text.length) :
    MembersFrom last text := by
  intro place outer start earlier hclean
  rcases along_cases last (fun _ => Builder.noConfusion) hclean with
    ⟨-, hend⟩ | ⟨begin, rest, k, p, q, htrivia, hspells, hq⟩
  · exact absurd hend (not_clean_endIn last _ rfl)
  have hbegin := htrivia.length_le
  rw [hq] at hclean
  cases hspells with
  | mark hc rest =>
      rcases Lexeme.isMark_iff.mp hc with rfl | rfl | rfl | rfl | rfl | rfl
      any_goals exact absurd hclean (not_clean_failValue last)
      exact ⟨[], rest, q, earlier, .noMember htrivia, hbegin, hq⟩
  | number | word | stray => exact absurd hclean (not_clean_failValue last)
  | @text quoted chars colon hkey =>
      have hcolon := hkey.length_lt
      rw [List.length_cons] at hbegin
      obtain ⟨c, hc, between, p', q', hmark, hq'⟩ :=
        mark_of_clean last (fun _ => Builder.noConfusion)
        (not_clean_endIn last _ rfl) (fun k _ => refuses_colon k) hclean
      obtain rfl : c = ':' := by simpa using hc
      have hbetween := hmark.length_le
      rw [List.length_cons] at hbetween
      have hvalueClean : Clean last (along last q' between
          (.memberValue outer start earlier p (chars.map .char))) := hq' ▸ hclean
      rcases along_cases last (fun _ => Builder.noConfusion) hvalueClean with
        ⟨-, hend⟩ | ⟨first, rest, k, p'', q'', hbefore, hspells, hq''⟩
      · exact absurd hend (not_clean_endIn last _ rfl)
      have hfirst := hbefore.length_le
      rw [hq''] at hvalueClean
      obtain ⟨v, after, place', node, q₃, hvalue, hshorter, hq₃⟩ := value_from last hspells
        (fun text h => ih text (by omega)) hvalueClean
      have hnodeClean : Clean last (along last q₃ after (.afterMember outer start
          (earlier.add p (chars.map .char) node))) := hq₃ ▸ hvalueClean
      obtain ⟨c, hc, next, p₄, q₄, hbehind, hq₄⟩ :=
        mark_of_clean last (fun _ => Builder.noConfusion)
        (not_clean_endIn last _ rfl) refuses_afterMember hnodeClean
      have hnext := hbehind.length_le
      rw [List.length_cons] at hnext
      have hall := hq.trans (hq'.trans (hq''.trans (hq₃.trans hq₄)))
      simp only [List.mem_cons, List.not_mem_nil, or_false] at hc
      rcases hc with rfl | rfl
      · have hmore : Clean last (along last q₄ next (.member outer start
            (earlier.add p (chars.map .char) node))) := hq₄ ▸ hnodeClean
        obtain ⟨ms, rest, q₅, members, hmembers, hless, hq₅⟩ :=
          (ih next (by omega)).2 q₄ outer start _ hmore
        refine ⟨_ :: ms, rest, q₅, members,
          .member htrivia hkey hmark (.padded hbefore hvalue hbehind) hmembers, ?_, hall.trans hq₅⟩
        omega
      · refine ⟨[_], next, q₄, _,
          .lastMember htrivia hkey hmark (.padded hbefore hvalue hbehind), ?_, hall⟩
        omega

theorem containers_from (n : Nat) : ContainersFrom last n := by
  induction n with
  | zero => exact fun text h => absurd h (Nat.not_lt_zero _)
  | succ n ih =>
      intro text h
      have hshorter : ContainersFrom last text.length :=
        fun text' h' => ih text' (Nat.lt_of_lt_of_le h' (Nat.le_of_lt_succ h))
      exact ⟨items_from last hshorter, members_from last hshorter⟩

/-- A text that is taken without a fault is a document. -/
theorem document_of_clean {place : Location} {text : List Char}
    (h : Clean last (along last place text (.body []))) : ∃ v, Document text v := by
  rcases along_cases last (fun _ => Builder.noConfusion) h with
    ⟨htrivia, -⟩ | ⟨begin, rest, k, p, q, htrivia, hspells, hq⟩
  · exact ⟨.null, .trivia htrivia⟩
  · have hstep : step (.body []) ⟨p, k⟩ = takeValue (.body []) ⟨p, k⟩ := by
      cases hspells with
      | mark | text | number | word | stray => rfl
    rw [hstep] at hq
    rw [hq] at h
    obtain ⟨v, after, first, node, q', hvalue, -, hq'⟩ := value_from last hspells
      (containers_from last _) h
    rw [hq'] at h
    rcases along_cases last (fun _ => Builder.noConfusion) h with
      ⟨hbehind, -⟩ | ⟨begin', rest', k', p', q'', -, hspells', hq''⟩
    · exact ⟨v, .value (.padded htrivia hvalue hbehind)⟩
    · rw [hq''] at h
      exact absurd h
        (not_clean_of_refuses last (refuses_finished k' hspells'.ne_directive) p' q'' rest')

/-- A document is taken without a fault and read as what it denotes. -/
theorem clean_of_document {text : List Char} {v : Json} (h : Document text v) (place : Location) :
    Clean last (along last place text (.body [])) ∧
      ∀ look, ((along last place text (.body [])).finish last).read look = v := by
  cases h with
  | trivia htrivia =>
      obtain ⟨q, hq⟩ := along_trivia last htrivia place
      rw [hq]
      exact ⟨rfl, fun _ => rfl⟩
  | value hvalue =>
      obtain ⟨start, node, q, hnode, hq⟩ :=
        takes_of_derives last hvalue Lexeme.delimited_nil place _ _ (awaits_body [])
      rw [hq]
      exact ⟨rfl, hnode.2⟩

end Draft.Builder

end Stencil
