import Stencil.Proofs.Tiling
import Stencil.Proofs.TwinRuns
import Stencil.Proofs.WrittenValues

/-!
# Literal text in the place of a variable

A variable that stands between two lexemes can be taken out of its text and literal text put
there. The scanner comes to the place as it did before, takes the literal text as such, and
finds behind it what it found behind the variable. So the atoms of the two texts are the same
but for what stands in the place, and for the numbers and locations behind it.

If the text is that of the variable's value, the reader comes out of it where it came out of
the variable: a value that was awaited is filled in, or members are added. A number or a word
at the end of it does not run on into what follows, since behind a variable neither can stand.
The two drafts are alike then, if the variable stands for the value.
-/

namespace Stencil

namespace Scan

variable {mode mode' : Mode} {c : Char} {first second rest raw text : List Char}
  {content : Token.Content} {last last' : Option (Mode × Char)} {n : Nat}
  {marks earlier later : List Mark} {front back : List Token} {t : Token}

/-! ## Marks and tokens -/

theorem content_of_mem_literal (start : Location) (chars : List Char)
    (h : t ∈ literal start chars) :
    t.content = .literal := by
  rw [literal] at h
  split at h
  · cases h
  · rw [List.mem_singleton.mp h]

/-- A directive among the tokens of some marks is one of the marks; the tokens in front of it and
behind it are those of the marks there. -/
theorem exists_marks_of_gather {start : Location} {pending : List Char}
    (h : gather start pending marks = front ++ t :: back) (ht : t.content ≠ .literal) :
    ∃ earlier raw later place, marks = earlier ++ .directive t.content raw :: later ∧
      front = gather start pending earlier ∧ back = gather place [] later := by
  induction marks generalizing start pending front with
  | nil =>
      refine absurd (content_of_mem_literal start pending.reverse ?_) ht
      rw [← gather, h]
      simp
  | cons mark marks ih =>
      cases mark with
      | char c =>
          obtain ⟨earlier, raw, later, place, rfl, rfl, rfl⟩ := ih h
          exact ⟨.char c :: earlier, raw, later, place, rfl, rfl, rfl⟩
      | directive content raw =>
          rw [gather] at h
          rcases List.append_eq_append_iff.mp h with ⟨tail, rfl, hrest⟩ | ⟨tail, hliteral, hrest⟩
          · cases tail with
            | nil =>
                obtain ⟨rfl, rfl⟩ := List.cons.inj hrest
                exact ⟨[], raw, marks, _, rfl, by rw [gather, List.append_nil], rfl⟩
            | cons u tail =>
                obtain ⟨rfl, htail⟩ := List.cons.inj hrest
                obtain ⟨earlier, raw', later, place, rfl, rfl, rfl⟩ := ih htail
                exact ⟨.directive content raw :: earlier, raw', later, place, rfl,
                  by rw [gather], rfl⟩
          · cases tail with
            | nil =>
                obtain ⟨rfl, rfl⟩ := List.cons.inj hrest
                exact ⟨[], raw, marks, _, rfl, by rw [gather, hliteral, List.append_nil], rfl⟩
            | cons u tail =>
                obtain ⟨rfl, -⟩ := List.cons.inj hrest
                refine absurd (content_of_mem_literal start pending.reverse ?_) ht
                rw [hliteral]
                simp

/-! ## The scanner at the place -/

/-- Where a directive is cut from a text, the scanner arrives and finds it. -/
theorem exists_arrives (hn : n ≤ text.length)
    (h : (cut mode n text).marks = earlier ++ .directive content raw :: later)
    (last : Option (Mode × Char)) : ∃ first c rest last' mode', text = first ++ c :: rest ∧
      Arrives (c :: rest) last mode n first earlier last' mode' ∧
      find mode' c rest = .directive content raw := by
  induction text generalizing mode n last earlier with
  | nil =>
      rw [cut] at h
      simp at h
  | cons c rest ih =>
      cases n with
      | succ n =>
          obtain ⟨first, d, rest, last', mode', rfl, harrives, hfind⟩ :=
            ih (Nat.le_of_succ_le_succ hn) h last
          exact ⟨c :: first, d, rest, last', mode', rfl, .passed harrives, hfind⟩
      | zero =>
          rw [cut] at h
          rcases find_cases mode c rest with
            hfind | ⟨content', raw', after, hfind, -, -, hrest⟩ | ⟨bracket, hfind, -⟩
          · rw [hfind] at h
            cases earlier with
            | nil => cases (List.cons.inj h).1
            | cons mark earlier =>
                obtain ⟨rfl, htail⟩ := List.cons.inj h
                obtain ⟨first, d, rest, last', mode', rfl, harrives, hfind'⟩ :=
                  ih (Nat.zero_le _) htail (some (mode, c))
                exact ⟨c :: first, d, rest, last', mode', rfl, .char hfind harrives, hfind'⟩
          · rw [hfind] at h
            cases earlier with
            | nil =>
                cases (List.cons.inj h).1
                exact ⟨[], c, rest, last, mode, rfl, .here last mode, hfind⟩
            | cons mark earlier =>
                obtain ⟨rfl, htail⟩ := List.cons.inj h
                have hraw : (c :: raw').length - 1 ≤ rest.length := by
                  rw [hrest, List.length_append, List.length_cons]
                  omega
                obtain ⟨first, d, rest, last', mode', rfl, harrives, hfind'⟩ := ih hraw htail none
                exact ⟨c :: first, d, rest, last', mode', rfl, .directive hfind harrives, hfind'⟩
          · rw [hfind] at h
            simp at h

/-- What the scanner comes through is the text of the marks it makes. -/
theorem Arrives.drop_eq (h : Arrives second last mode n first marks last' mode') :
    first.drop n = marks.flatMap Mark.chars := by
  induction h with
  | here => rfl
  | passed later ih => exact ih
  | char hfind later ih => exact congrArg (_ :: ·) ih
  | @directive _ _ _ _ c first raw _ _ hfind later ih =>
      obtain ⟨after, htext, hraw, -⟩ := cut_directive hfind
      have hlength : raw.length ≤ (c :: first).length := by
        have := later.le_length
        rw [List.length_cons]
        omega
      have htake : (c :: first).take raw.length = raw := by
        have happend : ((c :: first) ++ second).take raw.length = raw := by
          rw [List.cons_append, htext, List.take_left]
        rwa [List.take_append_of_le_length hlength] at happend
      have hdrop : (c :: first).drop raw.length = first.drop (raw.length - 1) := by
        cases raw with
        | nil => exact absurd rfl hraw
        | cons d raw => rfl
      rw [List.flatMap_cons, ← ih, ← hdrop, List.drop_zero, Mark.chars]
      exact (htake ▸ List.take_append_drop raw.length (c :: first)).symm

/-- A text that is cut without an open bracket is the text of its marks. -/
theorem flatMap_marks_cut (h : (cut mode 0 text).unclosed = none) :
    (cut mode 0 text).marks.flatMap Mark.chars = text := by
  obtain ⟨last', harrives⟩ := arrives_at_end (Nat.zero_le _) h none
  exact harrives.drop_eq.symm

theorem eq_brace_of_find {expression : String}
    (h : find mode c rest = .directive (.variable expression) raw) : c = '\x7b' := by
  rcases find_eq_directive_iff.mp h with
    ⟨-, bracket, body, hat, -⟩ | ⟨-, -, link, after, -, -, hcontent⟩
  · obtain ⟨o, tail, -, htext⟩ := Bracket.eq_of_at? hat
    exact (List.cons.inj htext).1
  · cases hcontent

/-- Where a variable stands between two lexemes, literal text may stand instead: what is cut in
front of the variable and behind it is cut there too. -/
theorem exists_cut_replaced {text expression : String} (hscan : (ofText text).error = none)
    (htokens : (ofText text).tokens = front ++ t :: back)
    (hcontent : t.content = .variable expression)
    (hreading : (Draft.Cursor.after (Atom.ofTokens 0 front)).reading = .between) :
    ∃ earlier later place, front = gather .start [] earlier ∧ back = gather place [] later ∧
      ∀ inline, Passes .plain inline .plain →
        cut .plain 0 (Token.textOf front ++ inline ++ Token.textOf back) =
          ⟨earlier ++ inline.map .char ++ later, none⟩ := by
  have hclosed := error_eq_none_iff.mp hscan
  obtain ⟨earlier, raw, later, place, hmarks, rfl, rfl⟩ := exists_marks_of_gather htokens (by
    rw [hcontent]
    exact Token.Content.noConfusion)
  obtain ⟨first, c, rest, last, mode, htext, harrives, hfind⟩ :=
    exists_arrives (Nat.zero_le _) hmarks none
  obtain ⟨second, hrest, -, hsees, hcut⟩ := cut_directive hfind
  have hwhole := harrives.cut_eq
  rw [← htext, hcut] at hwhole
  rw [hwhole] at hmarks hclosed
  obtain ⟨-, rfl⟩ := List.cons.inj (List.append_cancel_left hmarks)
  -- The reader is between two lexemes, so the scanner is in plain text and not behind a slash.
  rw [Spot.ofTokens_gather] at hreading
  obtain ⟨hstep, hslash⟩ := Lexeme.Reading.InStep.arrives (r := .between) (Or.inr rfl)
    (fun hlast => by cases hlast) harrives Spot.start
  rw [Draft.Cursor.reading_after] at hreading
  change Lexeme.Reading.between.after (Spot.start.atoms earlier) = .between at hreading
  rw [hreading] at hstep hslash
  obtain rfl : mode = .plain := by
    rcases hstep with hstopped | hmode
    · cases hstopped
    · exact (Option.some.inj hmode).symm
  have harrives' (other : List Char) : Arrives other none .plain 0 first earlier last .plain := by
    refine harrives.replace hsees (fun hlast => ?_) (fun m hlast => ?_) other
    · rcases hslash hlast with hstopped | ⟨begin, hbegin⟩
      · cases hstopped
      · cases hbegin
    · rw [hcontent] at hfind
      obtain rfl := eq_brace_of_find hfind
      obtain ⟨hat, -⟩ := find_eq_literal_iff.mp (harrives.find_last hlast).2
      by_contra hm
      have := hat (by simpa using hm)
      simp [Bracket.at?, Bracket.opening, List.isPrefixOf] at this
  refine ⟨earlier, _, place, rfl, rfl, fun inline hinline => ?_⟩
  have hfirst : Token.textOf (gather .start [] earlier) = first := by
    rw [textOf_gather]
    exact harrives.drop_eq.symm
  have hsecond : Token.textOf (gather place [] (cut .plain 0 second).marks) = second := by
    rw [textOf_gather]
    exact flatMap_marks_cut hclosed
  rw [hfirst, hsecond, List.append_assoc, (harrives' _).cut_eq, hinline second, hclosed,
    List.append_assoc]

end Scan

/-! ## The reader behind the place -/

namespace Draft

open Lexeme (Reading isNumberStart isWordChar isMark)
open Json.Reader (isNumberChar)

namespace Builder

variable {b : Builder} {v : Json} {k : Lexeme.Kind}

/-- Whether a builder ends with a fault at whatever is neither a directive nor a mark. -/
def RefusesPlain (b : Builder) : Prop :=
  ∀ k : Lexeme.Kind, (∀ d, k ≠ .directive d) → (∀ c, k ≠ .mark c) → b.Refuses k

theorem refusesPlain_afterMember (outer : Hole) (start : Location) (earlier : Members) :
    (Builder.afterMember outer start earlier).RefusesPlain :=
  fun k hd hmark => refuses_afterMember k hd fun c _ => hmark c

/-- Behind a finished value, nothing but a directive or a mark may come. -/
theorem refusesPlain_fill (hole : Hole) (start : Location) (node : Node) :
    (hole.fill start node).RefusesPlain := by
  intro k hd hmark
  cases hole with
  | body leading => exact refuses_finished k hd
  | element outer first earlier => exact refuses_afterElement k hd fun c _ => hmark c
  | member outer first earlier place key => exact refusesPlain_afterMember _ _ _ k hd hmark

/-- Whether a value is expected where a builder stands. -/
def atValue : Builder → Bool
  | .body _ | .element .. | .memberValue .. => true
  | _ => false

/-- Whether a member of an object is expected where a builder stands. -/
def atMember : Builder → Bool
  | .member .. | .afterLink .. => true
  | _ => false

/-- The text that may stand for a value in the place of a variable: where a value is expected the
value's own, and where a member of an object is expected that of the value's members. -/
inductive Inlines (v : Json) (b : Builder) : List Char → Prop
  | value (hb : b.atValue = true) : Inlines v b v.compactText
  | members {members : List (String × Json)} (hb : b.atMember = true) (hv : v = .object members)
      (hne : members ≠ []) : Inlines v b (Json.compactMembers members)

/-- Such a text is literal text to the scanner. -/
theorem Inlines.passes {inline : List Char} (h : b.Inlines v inline) (hv : v.Writable) :
    Scan.Passes .plain inline .plain := by
  cases h with
  | value hb => exact Scan.passes_compactText v hv
  | members hb hobject hne =>
      subst hobject
      exact Scan.passes_compactMembers hv.2

end Builder

namespace Cursor

variable {b : Builder} {later : List Atom} {last place : Location} {c : Char}

/-- A number or a word that has begun is the next lexeme, whatever comes. -/
theorem exists_run (last begin : Location) (chars : List Char) (atoms : List Atom) :
    (∃ all more, (Reading.number begin chars).run last atoms = ⟨begin, .number all⟩ :: more) ∧
      ∃ all more, (Reading.word begin chars).run last atoms = ⟨begin, .word all⟩ :: more := by
  induction atoms generalizing chars with
  | nil => exact ⟨⟨_, _, rfl⟩, _, _, rfl⟩
  | cons a atoms ih =>
      cases a with
      | char place c =>
          constructor
          · simp only [Reading.run, Reading.step]
            split
            · exact (ih _).1
            · exact ⟨_, _, rfl⟩
          · simp only [Reading.run, Reading.step]
            split
            · exact (ih _).2
            · exact ⟨_, _, rfl⟩
      | gap | directive => exact ⟨⟨_, _, rfl⟩, _, _, rfl⟩

/-- Where nothing but a directive or a mark may come, what continues a number or a word is a
fault. -/
theorem fault_of_runs_on (hb : b.RefusesPlain)
    (hc : ¬ (isNumberChar c = false ∧ isWordChar c = false)) :
    (((Atom.char place c :: later).foldl step ⟨.between, b⟩).finish last).fault.isSome := by
  obtain ⟨q, k, more, hrun, hd, hmark⟩ : ∃ q k more,
      Reading.between.run last (.char place c :: later) = ⟨q, k⟩ :: more ∧
        (∀ d, k ≠ .directive d) ∧ ∀ c, k ≠ .mark c := by
    have hfiller : Lexeme.isFiller c = false := by
      by_contra h
      exact hc (Lexeme.delimits_filler (by simpa using h))
    have hslash : c ≠ '/' := by rintro rfl; exact hc (by decide)
    have hquote : c ≠ '"' := by rintro rfl; exact hc (by decide)
    have hmark : isMark c = false := by
      by_contra h
      rcases Lexeme.isMark_iff.mp (by simpa using h) with rfl | rfl | rfl | rfl | rfl | rfl <;>
        exact hc (by decide)
    simp only [Reading.run, Reading.step, Reading.fresh, Reading.start, hfiller, hslash, hquote,
      hmark, Bool.false_eq_true, if_false]
    split
    · obtain ⟨all, more, hrun⟩ := (exists_run last place [c] later).1
      exact ⟨_, _, _, hrun, fun _ => Lexeme.Kind.noConfusion, fun _ => Lexeme.Kind.noConfusion⟩
    · split
      · obtain ⟨all, more, hrun⟩ := (exists_run last place [c] later).2
        exact ⟨_, _, _, hrun, fun _ => Lexeme.Kind.noConfusion, fun _ => Lexeme.Kind.noConfusion⟩
      · exact ⟨_, _, _, rfl, fun _ => Lexeme.Kind.noConfusion, fun _ => Lexeme.Kind.noConfusion⟩
  obtain ⟨draft, hdraft, hfault⟩ := hb k hd hmark q
  rw [finish_foldl, hrun, List.foldl_cons, hdraft, Builder.foldl_step_stopped]
  exact hfault

/-- What comes behind a text is read as from between two lexemes, if it does not run on. -/
theorem Comes.finish_foldl {k : Cursor} (h : k.Comes b)
    (hnext : ∀ c, later.head?.bind Atom.char? = some c →
      isNumberChar c = false ∧ isWordChar c = false) (last : Location) :
    (later.foldl Cursor.step k).finish last =
      (later.foldl Cursor.step ⟨.between, b⟩).finish last := by
  rw [← finish_foldl_gap (h.admits _ hnext), h.gap]

end Cursor

end Draft

/-! ## Drafts of the two texts -/

/-- Templates are alike when they come to the same value if directives stand for what they say and
the variables of one expression for one value, and when whatever gives members in the second one
does so in the first. -/
def Likeness.standing (expression : String) (v : Json) : Likeness where
  twins := Directive.Twin fun _ _ => True
  looks look look' := ∃ f, f (.variable expression) = v ∧ look = Look.ofMeaning f ∧
    look' = Look.ofMeaning f
  rows demands demands' := ∀ d', .members d' ∈ demands' →
    ∃ d, .members d ∈ demands ∧ d.meaning = d'.meaning
  isLink_eq h := h.isLink_eq
  value_eq h := by
    rintro ⟨f, -, rfl, rfl⟩
    rw [Look.ofMeaning, Look.ofMeaning, h.meaning]
  nil _ h := by cases h
  append h h' d' hd' := by
    rcases List.mem_append.mp hd' with hd' | hd'
    · obtain ⟨d, hd, hmeaning⟩ := h d' hd'
      exact ⟨d, List.mem_append_left _ hd, hmeaning⟩
    · obtain ⟨d, hd, hmeaning⟩ := h' d' hd'
      exact ⟨d, List.mem_append_right _ hd, hmeaning⟩
  value _ d' hd' := by simp at hd'
  members h _ hd' := by
    cases List.mem_singleton.mp hd'
    exact ⟨_, List.mem_singleton_self _, h.meaning.symm⟩

namespace Likeness

variable {expression : String} {v : Json} {d : Directive}

theorem standing_twins_refl (d : Directive) : (standing expression v).twins d d :=
  ⟨trivial, rfl, rfl⟩

theorem standing_rows_refl (demands : List Demand) : (standing expression v).rows demands demands :=
  fun d hd => ⟨d, hd, rfl⟩

theorem standing_looks {look look' : Look} (h : (standing expression v).looks look look') :
    look' = look := by
  obtain ⟨f, -, rfl, rfl⟩ := h
  rfl

theorem standing_pieces_refl (pieces : List Piece) :
    List.Forall₂ (standing expression v).Pieces pieces pieces :=
  List.forall₂_same.mpr fun piece _ => by
    match piece with
    | .char c => exact .char c
    | .variable d => exact .twin (standing_twins_refl d)

theorem standing_elements_refl (elements : Elements) :
    (standing expression v).Rows elements elements :=
  ⟨standing_rows_refl _, fun hlook => by rw [standing_looks hlook]⟩

theorem standing_members_refl (members : Members) :
    (standing expression v).Fields members members :=
  ⟨standing_rows_refl _, fun hlook => by rw [standing_looks hlook]⟩

theorem standing_holes_refl (hole : Draft.Hole) : (standing expression v).Holes hole hole := by
  induction hole with
  | body leading => exact .body (List.forall₂_same.mpr fun d _ => standing_twins_refl d)
  | element outer start earlier ih => exact .element ih _ _ (standing_elements_refl earlier)
  | member outer start earlier place key ih =>
      exact .member ih _ _ (standing_members_refl earlier) _ _ (standing_pieces_refl key)

/-- A variable is like a node that says its value. -/
theorem nodes_of_value (hd : d.meaning = .variable expression) {node : Node} (h : node.Says v) :
    (standing expression v).Nodes (.directive d) node where
  whole := rfl
  whole' := h.whole
  rows := by
    rw [h.demands]
    exact fun d' hd' => by cases hd'
  read := by
    rintro _ look' ⟨f, hf, rfl, rfl⟩
    rw [h.read, Node.read, Look.ofMeaning, hd, hf]

/-- A variable that gives its members is like the members written out. -/
theorem fields_adds (hd : d.meaning = .variable expression) {earlier later : Members}
    {members : List (String × Json)} (hv : v = .object members) (h : earlier.Adds later members) :
    (standing expression v).Fields (earlier.spread d) later where
  rows := by
    rw [h.demands, Members.demands]
    exact fun d' hd' => ⟨d', List.mem_append_left _ hd', rfl⟩
  read := by
    rintro _ look' ⟨f, hf, rfl, rfl⟩
    rw [h.read, Members.read, Look.ofMeaning, hd, hf, hv]
    rfl

open Draft (Cursor)

/-- Behind a variable that stands between two lexemes a builder stands as it does, up to likeness,
behind the text of the variable's value. -/
theorem builders_inlined {b : Draft.Builder} {inline : List Char}
    (hd : d.meaning = .variable expression) (hv : v.Writable) (h : b.Inlines v inline)
    (place : Location) : ∃ left right,
      (⟨.between, b⟩ : Cursor).step (.directive d) = ⟨.between, left⟩ ∧ left.RefusesPlain ∧
      ((⟨.between, b⟩ : Cursor).along place inline).Comes right ∧
      (standing expression v).Builders left right := by
  have hlink : d.isLink = false := by rw [Directive.isLink, hd]
  have hvalue {hole : Draft.Hole} (hb : b.Awaits hole)
      (hstep : b.step ⟨d.range.first, .directive d⟩ = hole.fill d.range.first (.directive d))
      : ∃ left right,
        (⟨.between, b⟩ : Cursor).step (.directive d) = ⟨.between, left⟩ ∧ left.RefusesPlain ∧
        ((⟨.between, b⟩ : Cursor).along place v.compactText).Comes right ∧
        (standing expression v).Builders left right := by
    obtain ⟨node, hsays, hcomes⟩ := comes_value v hv hb place
    exact ⟨_, _, congrArg (Cursor.mk .between) hstep,
      Draft.Builder.refusesPlain_fill hole d.range.first (.directive d), hcomes,
      (standing_holes_refl hole).fill (nodes_of_value hd hsays) d.range.first place⟩
  have hmembers {outer : Draft.Hole} {start : Location} {earlier : Members}
      {members : List (String × Json)} (hobject : v = .object members) (hne : members ≠ [])
      (hb : b.TakesKey outer start earlier)
      (hstep : b.step ⟨d.range.first, .directive d⟩ = .afterMember outer start (earlier.spread d)) :
      ∃ left right,
        (⟨.between, b⟩ : Cursor).step (.directive d) = ⟨.between, left⟩ ∧ left.RefusesPlain ∧
        ((⟨.between, b⟩ : Cursor).along place (Json.compactMembers members)).Comes right ∧
        (standing expression v).Builders left right := by
    have hwritable : Json.WritableMembers members := by
      subst hobject
      exact hv.2
    obtain ⟨later, hadds, hcomes⟩ := comes_members members hne hwritable hb place
    exact ⟨_, _, congrArg (Cursor.mk .between) hstep,
      Draft.Builder.refusesPlain_afterMember outer start (earlier.spread d), hcomes,
      .afterMember (standing_holes_refl outer) start start (fields_adds hd hobject hadds)⟩
  cases h with
  | value hb =>
      cases b with
      | body leading =>
          exact hvalue (Draft.Builder.awaits_body leading) (by simp [Draft.Builder.step, hlink,
            Draft.Builder.takeValue])
      | element outer start earlier =>
          exact hvalue (Draft.Builder.awaits_element outer start earlier) rfl
      | memberValue outer start earlier keyPlace key =>
          exact hvalue (Draft.Builder.awaits_memberValue outer start earlier keyPlace key) rfl
      | _ => cases hb
  | members hb hobject hne =>
      cases b with
      | member outer start earlier | afterLink outer start earlier =>
          exact hmembers hobject hne (fun _ _ => rfl) (by simp [Draft.Builder.step,
            Draft.Builder.takeMember, hlink])
      | _ => cases hb

/-- Behind such a place, the drafts of what is left are alike, if the first one has no fault. -/
theorem drafts_inlined {b : Draft.Builder} {inline : List Char} {later later' : List Atom}
    (hd : d.meaning = .variable expression) (hv : v.Writable) (h : b.Inlines v inline)
    (place last last' : Location) (hlater : List.Forall₂ (standing expression v).Atoms later later')
    (hfault : (((Atom.directive d :: later).foldl Cursor.step ⟨.between, b⟩).finish last).fault =
      none) :
    (standing expression v).Drafts
      (((Atom.directive d :: later).foldl Cursor.step ⟨.between, b⟩).finish last)
      (((Atom.chars place inline ++ later').foldl Cursor.step ⟨.between, b⟩).finish last') := by
  obtain ⟨left, right, hstep, hrefuses, hcomes, hbuilders⟩ := builders_inlined hd hv h place
  rw [List.foldl_cons, hstep] at hfault ⊢
  have hnext : ∀ c, later'.head?.bind Atom.char? = some c →
      Json.Reader.isNumberChar c = false ∧ Lexeme.isWordChar c = false := by
    intro c hc
    by_contra hruns
    cases hlater with
    | nil => cases hc
    | cons ha _ =>
        cases ha with
        | char p _ c =>
            cases hc
            exact Option.isSome_iff_ne_none.mp (Cursor.fault_of_runs_on hrefuses hruns) hfault
        | gap | directive => cases hc
  rw [List.foldl_append, show (Atom.chars place inline).foldl Cursor.step ⟨.between, b⟩ =
    (⟨.between, b⟩ : Cursor).along place inline from rfl, hcomes.finish_foldl hnext]
  exact (Cursors.foldl ⟨.between, hbuilders⟩ hlater).finish last last' hfault

end Likeness

namespace Scan

variable {front back : List Token} {t : Token} {text expression : String} {v : Json}
  {inline : List Char} {d : Directive}

theorem Spot.atoms_map_char (x : Spot) (chars : List Char) :
    x.atoms (chars.map .char) = Atom.chars x.place chars := by
  induction chars generalizing x with
  | nil => rfl
  | cons c chars ih => exact congrArg (_ :: ·) (ih _)

/-- The atoms of a text with a variable between two lexemes, and of the text with literal text
there. -/
theorem exists_atoms_replaced (hscan : (ofText text).error = none)
    (htokens : (ofText text).tokens = front ++ t :: back)
    (hcontent : t.content = .variable expression) (hd : Directive.ofToken? front.length t = some d)
    (hreading : (Draft.Cursor.after (Atom.ofTokens 0 front)).reading = .between)
    (hinline : Passes .plain inline .plain) {text' : String}
    (htext' : text'.toList = Token.textOf front ++ inline ++ Token.textOf back) :
    (ofText text').error = none ∧ ∃ place later later',
      Atom.ofTokens 0 (ofText text).tokens = Atom.ofTokens 0 front ++ .directive d :: later ∧
      Atom.ofTokens 0 (ofText text').tokens =
        Atom.ofTokens 0 front ++ (Atom.chars place inline ++ later') ∧
      List.Forall₂ (Likeness.standing expression v).Atoms later later' := by
  obtain ⟨earlier, later, place, rfl, rfl, hcut⟩ :=
    exists_cut_replaced hscan htokens hcontent hreading
  have hcut' := hcut inline hinline
  rw [← htext'] at hcut'
  have htoken : Atom.ofToken (gather .start [] earlier).length t = [.directive d] := by
    rw [Atom.ofToken, hcontent]
    dsimp only
    rw [hd]
    rfl
  have hatoms : Atom.ofTokens 0 (ofText text).tokens =
      Atom.ofTokens 0 (gather .start [] earlier) ++
        .directive d :: Spot.atoms ⟨(gather .start [] earlier).length + 1, false, place⟩ later := by
    rw [htokens, Atom.ofTokens_append, Atom.ofTokens, Nat.zero_add, htoken,
      Spot.ofTokens_gather _ place]
    rfl
  have hatoms' : Atom.ofTokens 0 (ofText text').tokens =
      Atom.ofTokens 0 (gather .start [] earlier) ++
        (Atom.chars (Spot.start.after earlier).place inline ++
          ((Spot.start.after earlier).after (inline.map .char)).atoms later) := by
    rw [atoms_ofText, hcut', List.append_assoc, Spot.atoms_append, Spot.atoms_append,
      Spot.atoms_map_char, Spot.ofTokens_gather]
    rfl
  refine ⟨error_eq_none_iff.mpr (by rw [hcut']), _, _, _, hatoms, hatoms', ?_⟩
  have htwins (d d' : Directive) (hmeaning : d'.meaning = d.meaning) (hraw : d'.raw = d.raw) :
      (Likeness.standing expression v).twins d d' := ⟨trivial, hmeaning, hraw⟩
  exact Likeness.atoms_marks (R := fun _ _ => True) (fun _ _ _ _ => trivial)
    (fun _ _ d d' _ _ _ => htwins d d') trivial later

/-- A variable that stands between two lexemes may be written out: the text's other directives stay,
and the drafts are alike if the variable stands for the value that is written. -/
theorem drafts_replaced (hscan : (ofText text).error = none)
    (hfault : (Draft.ofTokens (ofText text).tokens).fault = none)
    (htokens : (ofText text).tokens = front ++ t :: back)
    (hcontent : t.content = .variable expression) (hd : Directive.ofToken? front.length t = some d)
    (hreading : (Draft.Cursor.after (Atom.ofTokens 0 front)).reading = .between)
    (hv : v.Writable)
    (hinlines : (Draft.Cursor.after (Atom.ofTokens 0 front)).builder.Inlines v inline)
    {text' : String} (htext' : text'.toList = Token.textOf front ++ inline ++ Token.textOf back) :
    (ofText text').error = none ∧
      (Likeness.standing expression v).Drafts (Draft.ofTokens (ofText text).tokens)
        (Draft.ofTokens (ofText text').tokens) ∧
      ∃ earlier later, Directive.ofTokens 0 (ofText text).tokens = earlier ++ d :: later ∧
        List.Forall₂ (Directive.Twin fun _ _ => True) (earlier ++ later)
          (Directive.ofTokens 0 (ofText text').tokens) := by
  have hmeaning := Directive.meaning_of_ofToken? hcontent hd
  obtain ⟨hscan', place, later, later', hatoms, hatoms', hlater⟩ :=
    exists_atoms_replaced (v := v) hscan htokens hcontent hd hreading (hinlines.passes hv) htext'
  refine ⟨hscan', ?_, (Directive.ofTokens 0 front), later.filterMap Atom.directive?, ?_, ?_⟩
  · rw [← Draft.Cursor.finish_after, hatoms, Draft.Cursor.after, List.foldl_append] at hfault ⊢
    rw [← Draft.Cursor.finish_after, hatoms', Draft.Cursor.after, List.foldl_append]
    change ((List.foldl _ (Draft.Cursor.after (Atom.ofTokens 0 front)) _).finish _).fault = _
      at hfault
    change (Likeness.standing expression v).Drafts
      ((List.foldl _ (Draft.Cursor.after (Atom.ofTokens 0 front)) _).finish _)
      ((List.foldl _ (Draft.Cursor.after (Atom.ofTokens 0 front)) _).finish _)
    generalize Draft.Cursor.after (Atom.ofTokens 0 front) = k at hreading hinlines hfault ⊢
    obtain ⟨reading, b⟩ := k
    obtain rfl : reading = .between := hreading
    exact Likeness.drafts_inlined hmeaning hv hinlines place _ _ hlater hfault
  · rw [Directive.ofTokens_eq, hatoms, List.filterMap_append, ← Directive.ofTokens_eq]
    rfl
  · rw [Directive.ofTokens_eq, Directive.ofTokens_eq, hatoms', List.filterMap_append,
      List.filterMap_append, Atom.filterMap_chars, List.nil_append]
    exact List.rel_append (List.forall₂_same.mpr fun d _ => ⟨trivial, rfl, rfl⟩)
      (Likeness.twins_directives hlater)

end Scan

end Stencil
