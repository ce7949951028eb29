import Stencil.Proofs.TwinRuns

/-!
# Control blocks have no width

A control block may be put between two lexemes, or in a string between two characters that
are written there, without changing what a template means. The scanner comes to the place
in plain text or in a string, finds the block, and goes on in the same mode; the reader
takes a gap, which it does not notice there. The tokens behind the block have other numbers
and places, and that is all.

A place is described by the text before it. That text can be scanned on its own, so the
place is not inside a directive, and it does not end in a brace, with which the block
would open a variable. Where the reader is behind it says the rest.
-/

namespace Stencil

namespace Scan

/-- Whether a control block may be put between two parts of a text. -/
structure Admits (before after : List Char) : Prop where
  closed : (ofText (String.ofList before)).error = none
  brace : before.getLast? ≠ some '\x7b'
  reading : (Lexeme.Reading.between.after
    (Atom.ofTokens 0 (ofText (String.ofList before)).tokens)).Admits after.head?

/-- The text of a control block. -/
def controlText (body : List Char) : List Char :=
  Bracket.control.opening ++ body ++ Bracket.control.closing

def controlMark (body : List Char) : Mark :=
  .directive (Bracket.control.content body) (controlText body)

/-! ## Where the scanner comes to -/

variable {mode : Mode} {c : Char} {before after body : List Char} {marks : List Mark}

/-- What is cut from a text that admits a control block, without and with the block. -/
theorem Admits.exists_cut (h : Admits before after) (hbody : ¬ ['%', '\x7d'] <:+: body) :
    ∃ marks mode, (Lexeme.Reading.between.after (Spot.start.atoms marks)).Admits after.head? ∧
      cut .plain 0 (before ++ after) =
        ⟨marks ++ (cut mode 0 after).marks, (cut mode 0 after).unclosed⟩ ∧
      cut .plain 0 (before ++ (controlText body ++ after)) =
        ⟨marks ++ controlMark body :: (cut mode 0 after).marks, (cut mode 0 after).unclosed⟩ := by
  have hclosed := error_eq_none_iff.mp h.closed
  have hadmits := h.reading
  rw [atoms_ofText] at hadmits
  rw [String.toList_ofList] at hclosed hadmits
  obtain ⟨last, harrives⟩ := arrives_at_end (Nat.zero_le _) hclosed none
  generalize (cut .plain 0 before).marks = marks at hadmits harrives
  generalize lastMode .plain 0 before = mode at harrives
  obtain ⟨hstep, hslash⟩ := Lexeme.Reading.InStep.arrives (r := .between) (Or.inr rfl)
    (fun hlast => by cases hlast) harrives Spot.start
  have hsees : mode.seesBrackets = true ∧ last ≠ some (.plain, '/') := by
    generalize Lexeme.Reading.between.after (Spot.start.atoms marks) = r at hadmits hstep hslash
    have hnot (hr : r.AtSlash) : False := by
      rcases hr with rfl | ⟨begin, rfl⟩ <;> exact hadmits
    refine ⟨?_, fun hlast => hnot (hslash hlast)⟩
    rcases hstep with rfl | hmode
    · exact hadmits.elim
    · cases r with
      | between | number | word | text =>
          cases hmode
          rfl
      | _ => exact hadmits.elim
  have hcut (other : List Char) := harrives.replace hsees.1 hsees.2
    (fun m hlast => absurd (harrives.find_last hlast).1 h.brace) other
  refine ⟨marks, mode, hadmits, (hcut after).cut_eq, ?_⟩
  rw [(hcut _).cut_eq, controlText, cut_bracket hsees.1 .control]
  · rfl
  · have := Text.before?_pair (x := '%') (y := '\x7d') (by decide) hbody after
    exact this

/-! ## Numbers behind a block -/

/-- Numbers from `m` on are raised by `k`. -/
def Shifted (m k n n' : Nat) : Prop := n' = if n < m then n else n + k

theorem matching_shifted (m k : Nat) : Table.Matching (Shifted m k) := by
  rintro a _ b _ rfl rfl
  split <;> split <;> omega

namespace Spot

variable {x y : Spot} {d : Directive}

theorem number_le_free (x : Spot) : x.number ≤ x.free := by
  rw [free]
  split <;> omega

theorem free_le_number_succ (x : Spot) : x.free ≤ x.number + 1 := by
  rw [free]
  split <;> omega

/-- Whether two spots differ in what comes of numbers by `k`, from `m` on. -/
structure Apart (m k : Nat) (x y : Spot) : Prop where
  free_le : m ≤ x.free
  pending : y.pending = x.pending
  number : y.number = x.number + k

theorem Apart.free_eq {m k : Nat} (h : Apart m k x y) : y.free = x.free + k := by
  rw [free, free, h.pending, h.number]
  split <;> omega

theorem Apart.pass {m k : Nat} (h : Apart m k x y) (mark : Mark) :
    Apart m k (x.pass mark) (y.pass mark) :=
  match mark with
  | .char _ => ⟨h.free_le.trans x.free_le_number_succ, rfl, h.number⟩
  | .directive _ _ =>
      ⟨h.free_le.trans (Nat.le_succ _), rfl, by
        show y.free + 1 = x.free + 1 + k
        rw [h.free_eq]
        omega⟩

theorem twin_of_free {m k : Nat} (hm : m ≤ x.free) (hy : y.free = x.free + k) {d d' : Directive}
    (hd : d.number = x.free) (hd' : d'.number = y.free) (hmeaning : d'.meaning = d.meaning)
    (hraw : d'.raw = d.raw) : d.Twin (Shifted m k) d' :=
  ⟨by rw [Shifted, hd, hd', hy, if_neg (Nat.not_lt.mpr hm)], hmeaning, hraw⟩

/-- The atoms of marks behind a directive are those without it, with other numbers. A literal token
that the directive cuts in two raises the numbers once more. -/
theorem exists_shifted (x : Spot) (content : Token.Content) (raw : List Char) (marks : List Mark) :
    ∃ k, List.Forall₂ (Likeness.numbered (Shifted x.free k)).Atoms (x.atoms marks)
      ((x.pass (.directive content raw)).atoms marks) := by
  have hrest {m k : Nat} {x y : Spot} (h : Apart m k x y) (marks : List Mark) :
      List.Forall₂ (Likeness.numbered (Shifted m k)).Atoms (x.atoms marks) (y.atoms marks) :=
    Likeness.atoms_marks (R := Apart m k) (fun _ _ mark h => h.pass mark)
      (fun _ _ _ _ h => twin_of_free h.free_le h.free_eq) h marks
  match marks with
  | [] => exact ⟨0, .nil⟩
  | .char c :: marks =>
      have hapart : Apart x.free (x.free + 1 - x.number) (x.pass (.char c))
          ((x.pass (.directive content raw)).pass (.char c)) := by
        refine ⟨x.free_le_number_succ, rfl, ?_⟩
        have := x.number_le_free
        show x.free + 1 = x.number + (x.free + 1 - x.number)
        omega
      exact ⟨_, .cons (.char _ _ c) (hrest hapart marks)⟩
  | .directive content' raw' :: marks =>
      have hapart : Apart x.free 1 (x.pass (.directive content' raw'))
          ((x.pass (.directive content raw)).pass (.directive content' raw')) :=
        ⟨Nat.le_succ _, rfl, rfl⟩
      exact ⟨1, List.rel_append
        (Likeness.atoms_give (fun _ _ => twin_of_free (Nat.le_refl _) rfl) _) (hrest hapart marks)⟩

theorem free_le_free_pass (x : Spot) (mark : Mark) : x.free ≤ (x.pass mark).free :=
  match mark with
  | .char _ => x.free_le_number_succ
  | .directive _ _ => Nat.le_succ _

theorem free_le_free_after (x : Spot) (marks : List Mark) : x.free ≤ (x.after marks).free := by
  induction marks generalizing x with
  | nil => exact Nat.le_refl _
  | cons mark marks ih => exact (x.free_le_free_pass mark).trans (ih _)

theorem number_lt_of_mem_give {mark : Mark} (h : .directive d ∈ x.give mark) :
    d.number < (x.pass mark).free := by
  have hfree {content : Token.Content} {raw : List Char} (hd : d.number = x.free) :
      d.number < (x.pass (.directive content raw)).free := hd ▸ Nat.lt_succ_self _
  match mark with
  | .char c => simp [give] at h
  | .directive .literal raw =>
      have hnone : d ∈ (Atom.chars x.place (String.ofList raw).toList).filterMap Atom.directive? :=
        List.mem_filterMap.mpr ⟨_, h, rfl⟩
      rw [Atom.filterMap_chars] at hnone
      cases hnone
  | .directive (.control _) raw => simp [give, Atom.ofToken] at h
  | .directive (.variable _) raw =>
      simp only [give, Atom.ofToken, Directive.ofToken?, Option.toList_some, List.map_cons,
        List.map_nil, List.mem_singleton, Atom.directive.injEq] at h
      exact hfree (h ▸ rfl)
  | .directive (.link _) raw =>
      simp only [give, Atom.ofToken, Directive.ofToken?, Option.toList_some, List.map_cons,
        List.map_nil, List.mem_singleton, Atom.directive.injEq] at h
      exact hfree (h ▸ rfl)

theorem number_lt_of_mem_atoms (h : .directive d ∈ x.atoms marks) :
    d.number < (x.after marks).free := by
  induction marks generalizing x with
  | nil => cases h
  | cons mark marks ih =>
      rcases List.mem_append.mp h with h | h
      · exact (number_lt_of_mem_give h).trans_le (free_le_free_after _ marks)
      · exact ih h

/-- With numbers below `m` as they are, the atoms of marks are like themselves. -/
theorem atoms_refl (marks : List Mark) (k : Nat) :
    List.Forall₂ (Likeness.numbered (Shifted (x.after marks).free k)).Atoms (x.atoms marks)
      (x.atoms marks) := by
  refine List.forall₂_same.mpr fun a ha => ?_
  match a with
  | .char place c => exact .char _ _ c
  | .gap => exact .gap
  | .directive d => exact .directive ⟨(if_pos (number_lt_of_mem_atoms ha)).symm, rfl, rfl⟩

end Spot

/-! ## The same drafts -/

/-- Behind a place, a character that the reader gets is the next one of the text. -/
theorem head?_of_atoms {x : Spot} {text : List Char}
    (h : (x.atoms (cut mode 0 text).marks).head?.bind Atom.char? = some c) :
    text.head? = some c := by
  match text with
  | [] => cases h
  | d :: rest =>
      rw [cut] at h
      rcases find_cases mode d rest with
        hfind | ⟨content, raw, after, hfind, -, hcontent, -⟩ | ⟨bracket, hfind, -⟩
      · rw [hfind] at h
        exact h
      · rw [hfind] at h
        obtain ⟨a, ha, hgives⟩ := gives_ofToken hcontent x.free (d :: raw) mode
          ⟨x.place, x.place.advanceOver (d :: raw)⟩
        have hchar : a.char? = some c := by
          dsimp only at h
          rw [Spot.atoms, Spot.give, ha] at h
          exact h
        cases a with
        | char place e => exact absurd rfl (hgives.ne_char rfl place e)
        | gap | directive => cases hchar
      · rw [hfind] at h
        cases h

/-- The atoms of a text without a control block, and with it: in the place of the block is a gap, at
which the reader admits one, and behind it the directives have other numbers. -/
theorem Admits.exists_atoms (h : Admits before after) (hbody : ¬ ['%', '\x7d'] <:+: body)
    {text text' : String} (htext : text.toList = before ++ after)
    (htext' : text'.toList = before ++ (controlText body ++ after)) :
    ∃ front later later' m k,
      Atom.ofTokens 0 (ofText text).tokens = front ++ later ∧
      Atom.ofTokens 0 (ofText text').tokens = front ++ .gap :: later' ∧
      (Draft.Cursor.after front).reading.Admits (later.head?.bind Atom.char?) ∧
      List.Forall₂ (Likeness.numbered (Shifted m k)).Atoms (front ++ .gap :: later)
        (front ++ .gap :: later') := by
  obtain ⟨marks, mode, hadmits, hcut, hcut'⟩ := h.exists_cut hbody
  obtain ⟨k, hlater⟩ := (Spot.start.after marks).exists_shifted (Bracket.control.content body)
    (controlText body) (cut mode 0 after).marks
  refine ⟨Spot.start.atoms marks, _, _, _, k, ?_, ?_, ?_,
    List.rel_append (Spot.atoms_refl marks k) (.cons .gap hlater)⟩
  · rw [atoms_ofText, htext, hcut, Spot.atoms_append]
  · rw [atoms_ofText, htext', hcut', Spot.atoms_append]
    rfl
  · rw [Draft.Cursor.reading_after]
    cases hchar : ((Spot.start.after marks).atoms (cut mode 0 after).marks).head?.bind
        Atom.char? with
    | none =>
        generalize Lexeme.Reading.between.after (Spot.start.atoms marks) = r at hadmits
        cases r with
        | number | word => exact fun c hc => by cases hc
        | _ => exact hadmits
    | some c =>
        rw [← head?_of_atoms hchar]
        exact hadmits

/-- The directives of a text and its draft are like those with the control block. -/
theorem Admits.drafts (h : Admits before after) (hbody : ¬ ['%', '\x7d'] <:+: body)
    {text text' : String} (htext : text.toList = before ++ after)
    (htext' : text'.toList = before ++ (controlText body ++ after))
    (hfault : (Draft.ofTokens (ofText text).tokens).fault = none) :
    ∃ N, Table.Matching N ∧
      List.Forall₂ (Directive.Twin N) (Directive.ofTokens 0 (ofText text).tokens)
        (Directive.ofTokens 0 (ofText text').tokens) ∧
      (Likeness.numbered N).Drafts (Draft.ofTokens (ofText text).tokens)
        (Draft.ofTokens (ofText text').tokens) := by
  obtain ⟨front, later, later', m, k, hatoms, hatoms', hadmits, hlike⟩ :=
    h.exists_atoms hbody htext htext'
  have hdraft (last : Location) : (Draft.Cursor.after (front ++ .gap :: later)).finish last =
      (Draft.Cursor.after (front ++ later)).finish last := by
    rw [Draft.Cursor.after, Draft.Cursor.after, List.foldl_append, List.foldl_append,
      List.foldl_cons]
    exact Draft.Cursor.finish_foldl_gap hadmits last
  refine ⟨_, matching_shifted m k, ?_, ?_⟩
  · have hdirectives := Likeness.twins_directives hlike
    rw [Directive.ofTokens_eq, Directive.ofTokens_eq, hatoms, hatoms']
    rw [List.filterMap_append, List.filterMap_cons] at hdirectives
    rw [List.filterMap_append]
    exact hdirectives
  · rw [← Draft.Cursor.finish_after] at hfault
    rw [← Draft.Cursor.finish_after, ← Draft.Cursor.finish_after]
    rw [hatoms, ← hdraft] at hfault ⊢
    rw [hatoms']
    exact ((Likeness.cursors_start).foldl hlike).finish _ _ hfault

/-! ## Counts -/

/-- The kind of the token that a mark is, or belongs to. -/
def Mark.kind : Mark → TokenKind
  | .char _ => .literal
  | .directive content raw => Token.kind ⟨content, String.ofList raw, .empty .start⟩

theorem countP_literal {kind : TokenKind} (h : kind ≠ .literal) (start : Location)
    (chars : List Char) : (literal start chars).countP (·.kind == kind) = 0 := by
  rw [literal]
  split
  · rfl
  · rw [List.countP_singleton, if_neg]
    rw [beq_iff_eq]
    exact Ne.symm h

/-- The directives of one kind are as many among the tokens as among the marks. -/
theorem countP_gather {kind : TokenKind} (h : kind ≠ .literal) (start : Location)
    (pending : List Char) (marks : List Mark) :
    (gather start pending marks).countP (·.kind == kind) = marks.countP (·.kind == kind) := by
  induction marks generalizing start pending with
  | nil => rw [gather, countP_literal h]; rfl
  | cons mark marks ih =>
      cases mark with
      | char c =>
          rw [gather, ih, List.countP_cons_of_neg]
          rw [beq_iff_eq]
          exact Ne.symm h
      | directive content raw =>
          simp only [gather, List.countP_append, countP_literal h, List.countP_cons, ih]
          rw [Nat.zero_add]
          rfl

/-- A text with the control block has one control block more, and as many variables. -/
theorem Admits.counts (h : Admits before after) (hbody : ¬ ['%', '\x7d'] <:+: body)
    {text text' : String} (htext : text.toList = before ++ after)
    (htext' : text'.toList = before ++ (controlText body ++ after)) :
    (Setting.counts (ofText text').tokens).variableCount =
        (Setting.counts (ofText text).tokens).variableCount ∧
      (Setting.counts (ofText text').tokens).controlCount =
        (Setting.counts (ofText text).tokens).controlCount + 1 := by
  obtain ⟨marks, mode, -, hcut, hcut'⟩ := h.exists_cut hbody
  have hcount {kind : TokenKind} (hkind : kind ≠ .literal) :
      (ofText text').tokens.countP (·.kind == kind) = (ofText text).tokens.countP (·.kind == kind) +
        if (controlMark body).kind == kind then 1 else 0 := by
    have htokens (text : String) : (ofText text).tokens.countP (·.kind == kind) =
        (cut .plain 0 text.toList).marks.countP (·.kind == kind) := countP_gather hkind .start [] _
    rw [htokens, htokens, htext, htext', hcut, hcut', List.countP_append, List.countP_append,
      List.countP_cons, Nat.add_assoc]
  exact ⟨hcount TokenKind.noConfusion, hcount TokenKind.noConfusion⟩

end Scan

/-! ## Extractions -/

/-- A control block in the root, at a place that admits one, changes nothing but places and the
number of control blocks. -/
theorem Extraction.control_block_inserted {s s' : Setting} {root path : Path}
    {text? text?' : Option String} {text text' : String} {w : Watch}
    {before after body : List Char}
    (hopens : s.Opens root text? path text w) (hopens' : s'.Opens root text?' path text' w)
    (hagree : s.AgreeExcept s' path) (hscan : (Scan.ofText text).error = none)
    (hfault : (Draft.ofTokens (Scan.ofText text).tokens).fault = none)
    (hadmits : Scan.Admits before after) (hbody : ¬ ['%', '\x7d'] <:+: body)
    (htext : text.toList = before ++ after)
    (htext' : text'.toList = before ++ (Scan.controlText body ++ after)) :
    let e := Extraction.run s root text?
    let e' := Extraction.run s' root text?'
    e'.value = e.value ∧
      e'.ledger.imports.map ImportRecord.unplaced = e.ledger.imports.map ImportRecord.unplaced ∧
      e'.problems.map Problem.unplaced = e.problems.map Problem.unplaced ∧
      e'.ledger.variableCount = e.ledger.variableCount ∧
      e'.ledger.controlCount = e.ledger.controlCount + 1 := by
  have hscan' : (Scan.ofText text').error = none := by
    obtain ⟨marks, mode, -, hcut, hcut'⟩ := hadmits.exists_cut hbody
    rw [Scan.error_eq_none_iff, htext, hcut] at hscan
    rw [Scan.error_eq_none_iff, htext', hcut']
    exact hscan
  obtain ⟨N, hN, hdirectives, hdrafts⟩ := hadmits.drafts hbody htext htext' hfault
  obtain ⟨hvalue, l, l', hl, hledger, hledger'⟩ :=
    hagree.run_alike hN hopens hopens' hscan hscan' hdirectives hfault hdrafts
  obtain ⟨hvariables, hcontrols⟩ := hadmits.counts hbody htext htext'
  refine ⟨hvalue, ?_, ?_, ?_, ?_⟩
  · rw [hledger, hledger']
    exact congrArg Ledger.imports hl
  · rw [problems, problems, hledger, hledger']
    exact congrArg Ledger.problems hl
  · rw [hledger, hledger']
    show 0 + (_ + l'.variableCount) = 0 + (_ + l.variableCount)
    have hl' : l'.variableCount = l.variableCount := (congrArg Ledger.variableCount hl :)
    rw [hvariables, hl']
  · rw [hledger, hledger']
    show 0 + (_ + l'.controlCount) = 0 + (_ + l.controlCount) + 1
    have hl' : l'.controlCount = l.controlCount := (congrArg Ledger.controlCount hl :)
    rw [hcontrols, hl']
    omega

/-- A file that imports another one, in two parts. -/
def Shelf.importingText : String := "// [A](a)\n\x7b\"k"

def Shelf.importingRest : String := "\": \x7b\x7b a \x7d\x7d\x7d"

def Shelf.importing : Shelf :=
  ⟨[(⟨"/p/root.tmpl"⟩, importingText ++ importingRest), (⟨"/p/a.tmpl"⟩, "[1]")]⟩

/-- The text with a control block in the middle of the key. -/
def Shelf.importingNoted : String := importingText ++ "\x7b% note %\x7d" ++ importingRest

theorem Extraction.control_block_inserted_in_key :
    let root : Path := ⟨"/p/root.tmpl"⟩
    let text := Shelf.importingText ++ Shelf.importingRest
    let s := Shelf.importing.setting (.standard ⟨"/p"⟩)
    let s' := (Shelf.importing.add root Shelf.importingNoted).setting (.standard ⟨"/p"⟩)
    s.Opens ⟨"root.tmpl"⟩ none root text ⟨1, false, false⟩ ∧
      s'.Opens ⟨"root.tmpl"⟩ none root Shelf.importingNoted ⟨1, false, false⟩ ∧
      s.AgreeExcept s' root ∧ (Scan.ofText text).error = none ∧
      (Draft.ofTokens (Scan.ofText text).tokens).fault = none ∧
      Scan.Admits Shelf.importingText.toList Shelf.importingRest.toList ∧
      ¬ ['%', '\x7d'] <:+: " note ".toList ∧
      (Extraction.run s' ⟨"root.tmpl"⟩ none).value = (Extraction.run s ⟨"root.tmpl"⟩ none).value ∧
      (Extraction.run s' ⟨"root.tmpl"⟩ none).ledger.controlCount =
        (Extraction.run s ⟨"root.tmpl"⟩ none).ledger.controlCount + 1 := by
  have hroot : Path.normalize ⟨"/p/root.tmpl"⟩ = ⟨"/p/root.tmpl"⟩ := by decide +kernel
  have hread : Shelf.importing.read ⟨"/p/root.tmpl"⟩ =
      .ok (Shelf.importingText ++ Shelf.importingRest) := by decide +kernel
  have hcanon : Shelf.importing.canonicalize ((Options.standard ⟨"/p"⟩).placeOf ⟨"root.tmpl"⟩) =
      .ok ⟨"/p/root.tmpl"⟩ := by decide +kernel
  have hagree := Shelf.agreeExcept_add hroot hread (.standard ⟨"/p"⟩) Shelf.importingNoted
  have hopens := Shelf.opens_file hcanon hread
  have hopens' := Shelf.opens_add hcanon hread Shelf.importingNoted
  have hscan : (Scan.ofText (Shelf.importingText ++ Shelf.importingRest)).error = none := by
    decide +kernel
  have hfault : (Draft.ofTokens
      (Scan.ofText (Shelf.importingText ++ Shelf.importingRest)).tokens).fault = none := by
    decide +kernel
  have hadmits : Scan.Admits Shelf.importingText.toList Shelf.importingRest.toList :=
    ⟨by decide +kernel, by decide +kernel, by decide +kernel⟩
  have hbody : ¬ ['%', '\x7d'] <:+: " note ".toList := by decide +kernel
  have htext : (Shelf.importingText ++ Shelf.importingRest).toList =
      Shelf.importingText.toList ++ Shelf.importingRest.toList := by decide +kernel
  have htext' : Shelf.importingNoted.toList = Shelf.importingText.toList ++
      (Scan.controlText " note ".toList ++ Shelf.importingRest.toList) := by decide +kernel
  obtain ⟨hvalue, -, -, -, hcount⟩ := Extraction.control_block_inserted hopens hopens' hagree hscan
    hfault hadmits hbody htext htext'
  exact ⟨hopens, hopens', hagree, hscan, hfault, hadmits, hbody, hvalue, hcount⟩

end Stencil
