import Stencil.Proofs.CleanRuns
import Stencil.Proofs.Replacements

/-!
# Values written out

In a clean extraction a variable may be written out: in the text of a file that is assembled,
the compact text of its value is put in its place, or that of the value's members where a member
of an object is expected. The extraction then comes to the same value, and still without a
problem.

The new text has no link that the old one does not have, and its directives mean the same, so
that both come to one value if the variable stands for what is written. Every other file is as
it was. What succeeds on the old shelf therefore succeeds on the new one, file by file, and what
succeeds there is what an extraction from there gives.
-/

namespace Stencil

namespace Setting

/-- Whether a second text comes to what a first one comes to if the variables of an expression stand
for a value: it is without problems of its own, its directives take the values of the same links,
and it asks for no members that the first one does not ask for. -/
structure Rewrites (expression : String) (v : Json) (text text' : String) : Prop where
  scan : (Scan.ofText text').error = none
  fault : (Draft.ofTokens (Scan.ofText text').tokens).fault = none
  declares : ∀ link, Declares text' link → Declares text link
  links : linkFor? text' = linkFor? text
  members : ∀ d', .members d' ∈ demands (Scan.ofText text').tokens →
    ∃ d, .members d ∈ demands (Scan.ofText text).tokens ∧ d.meaning = d'.meaning
  read : ∀ f : Directive.Meaning → Json, f (.variable expression) = v →
    (Draft.ofTokens (Scan.ofText text').tokens).read (.ofMeaning f) =
      (Draft.ofTokens (Scan.ofText text).tokens).read (.ofMeaning f)

theorem Rewrites.refl {expression : String} {v : Json} {text : String}
    (hscan : (Scan.ofText text).error = none)
    (hfault : (Draft.ofTokens (Scan.ofText text).tokens).fault = none) :
    Rewrites expression v text text :=
  ⟨hscan, hfault, fun _ h => h, rfl, fun d hd => ⟨d, hd, rfl⟩, fun _ _ => rfl⟩

variable {s s' : Setting} {V : Path → Json} {expression : String} {v : Json}
  {text text' : String} {front back : List Token} {t : Token} {d : Directive}
  {inline : List Char} {file path : Path} {depth : Nat} {trail : List Path}

/-- A variable that stands between two lexemes may be written out as its value. -/
theorem rewrites_inlined (hscan : (Scan.ofText text).error = none)
    (hfault : (Draft.ofTokens (Scan.ofText text).tokens).fault = none)
    (htokens : (Scan.ofText text).tokens = front ++ t :: back)
    (hcontent : t.content = .variable expression) (hd : Directive.ofToken? front.length t = some d)
    (hreading : (Draft.Cursor.after (Atom.ofTokens 0 front)).reading = .between)
    (hv : v.Writable)
    (hinlines : (Draft.Cursor.after (Atom.ofTokens 0 front)).builder.Inlines v inline)
    (htext' : text'.toList = Token.textOf front ++ inline ++ Token.textOf back) :
    Rewrites expression v text text' := by
  obtain ⟨hscan', hdrafts, earlier, later, hdirectives, htwins⟩ :=
    Scan.drafts_replaced hscan hfault htokens hcontent hd hreading hv hinlines htext'
  have hmeaning := Directive.meaning_of_ofToken? hcontent hd
  refine ⟨hscan', hdrafts.fault, ?_, ?_, ?_, fun f hf => (hdrafts.read ⟨f, hf, rfl, rfl⟩).symm⟩
  · rintro link ⟨d', -, hmem, hlink⟩
    obtain ⟨e, he, htwin⟩ := exists_mem_of_forall₂ htwins hmem
    refine ⟨e, hscan, ?_, htwin.meaning.symm.trans hlink⟩
    rw [hdirectives]
    rcases List.mem_append.mp he with he | he
    · exact List.mem_append_left _ he
    · exact List.mem_append_right _ (List.mem_cons_of_mem _ he)
  · have hnames : linkNames (earlier ++ d :: later) = linkNames (earlier ++ later) := by
      simp [linkNames, List.filterMap_append, hmeaning]
    funext m
    cases m with
    | link link => rfl
    | «variable» name =>
        have hfound := twin_linkNames htwins (Placeholder.identifier name)
        rw [linkFor?, linkFor?, hdirectives, hnames]
        generalize Assoc.find? (Placeholder.identifier name) (linkNames (earlier ++ later)) =
          found at hfound
        generalize Assoc.find? (Placeholder.identifier name) _ = found' at hfound ⊢
        cases hfound with
        | none => rfl
        | some hsame => exact congrArg some hsame.2
  · have hlinks : (earlier ++ d :: later).filter Directive.isLink =
        (earlier ++ later).filter Directive.isLink := by
      simp [List.filter_append, Directive.isLink, hmeaning]
    have hrows := hdrafts.demands hfault (Likeness.twins_links htwins)
    rw [← hlinks, ← hdirectives] at hrows
    exact hrows

/-- What directives mean is the same under two settings, if they take the values of the same
links. -/
theorem AgreeExcept.meant_eq (h : s.AgreeExcept s' file) (hlinks : linkFor? text' = linkFor? text) :
    s'.meant V path text' = s.meant V path text := by
  funext m
  unfold meant valueBehind targetOf
  rw [hlinks, h.canonicalize, h.options]

theorem ComesTo.rewritten (hself : s.ComesTo V path text) (h : s.AgreeExcept s' file)
    (hrewrites : Rewrites expression v text text')
    (hv : s.meant V path text (.variable expression) = v) : s'.ComesTo V path text' := by
  have hmeant : s'.meant V path text' = s.meant V path text := h.meant_eq hrewrites.links
  refine ⟨hrewrites.scan, hrewrites.fault, ?_, fun d' hd' => ?_⟩
  · rw [hmeant, hrewrites.read _ hv]
    exact hself.value
  · obtain ⟨d, hd, hmeaning⟩ := hrewrites.members d' hd'
    rw [GivesMembers, hmeant, hrewrites.links, ← hmeaning]
    exact hself.members d hd

/-- What succeeds goes on to succeed with the same values when one file is rewritten. -/
theorem Succeeds.rewritten (h : s.Succeeds V depth trail path) (hagree : s.AgreeExcept s' file)
    (hread : s.loader.read file = .ok text) (hread' : s'.loader.read file = .ok text')
    (hrewrites : Rewrites expression v text text')
    (hv : s.meant V file text (.variable expression) = v)
    (hpath : ∃ asked, s.loader.canonicalize asked = .ok path) : s'.Succeeds V depth trail path := by
  induction h with
  | @file depth trail path content next hcontent hself hdepth hcanon htrail hlater ih =>
  obtain ⟨content', u, hcontent', hcontents, hmeans⟩ : ∃ content' u,
      s'.loader.read path = .ok content' ∧ Rewrites expression u content content' ∧
        s.meant V path content (.variable expression) = u := by
    by_cases hfile : path = file
    · subst hfile
      obtain rfl : text = content := Except.ok.inj (hread.symm.trans hcontent)
      exact ⟨text', v, hread', hrewrites, hv⟩
    · obtain ⟨asked, hasked⟩ := hpath
      exact ⟨content, _, (hagree.read asked path hasked hfile).trans hcontent,
        .refl hself.scan hself.fault, rfl⟩
  refine .file next hcontent' (hself.rewritten hagree hcontents hmeans)
    (fun link hlink => hdepth link (hcontents.declares link hlink)) (fun link hlink => ?_)
    (fun link hlink => htrail link (hcontents.declares link hlink)) fun link hlink => ?_
  · rw [canonicalize_targetOf_congr hagree.options hagree.canonicalize]
    exact hcanon link (hcontents.declares link hlink)
  · have hlink := hcontents.declares link hlink
    exact ih link hlink ⟨_, hcanon link hlink⟩

theorem Assembles.exists_canonicalize {root : Path} {w : Watch}
    (h : s.Assembles root none depth trail path text w) :
    ∃ asked, s.loader.canonicalize asked = .ok path := by
  cases h with
  | root h =>
      cases h with
      | file hcanon hread => exact ⟨_, hcanon⟩
  | link h hfollows hcanon hmem hraised hread => exact ⟨_, hcanon⟩

theorem Assembles.exists_opens {root : Path} {text? : Option String} {w : Watch}
    (h : s.Assembles root text? depth trail path text w) :
    ∃ path text w, s.Opens root text? path text w := by
  induction h with
  | root h => exact ⟨_, _, _, h⟩
  | link h hfollows hcanon hmem hraised hread ih => exact ih

end Setting

/-- In a clean extraction from a shelf, the text of a variable's value may stand in the place of the
variable, in any file that is assembled: the extraction then comes to the same value without a
problem. -/
theorem Extraction.value_written_inline {S : Shelf} {o : Options} {root path : Path} {depth : Nat}
    {trail : List Path} {text text' expression : String} {w : Watch} {front back : List Token}
    {t : Token} {d : Directive} {v : Json} {inline : List Char}
    (hclean : (Extraction.run (S.setting o) root none).Clean)
    (h : (S.setting o).Assembles root none depth trail path text w)
    (htokens : (Scan.ofText text).tokens = front ++ t :: back)
    (hcontent : t.content = .variable expression) (hd : Directive.ofToken? front.length t = some d)
    (hreading : (Draft.Cursor.after (Atom.ofTokens 0 front)).reading = .between)
    (hlook : ((S.setting o).lookAt depth trail path text w d).1 = v) (hv : v.Writable)
    (hinlines : (Draft.Cursor.after (Atom.ofTokens 0 front)).builder.Inlines v inline)
    (htext' : text'.toList = Token.textOf front ++ inline ++ Token.textOf back) :
    (Extraction.run ((S.add path text').setting o) root none).value =
        (Extraction.run (S.setting o) root none).value ∧
      (Extraction.run ((S.add path text').setting o) root none).problems = [] := by
  obtain ⟨V, hV⟩ := Setting.exists_values hclean
  obtain ⟨asked, hasked⟩ := h.exists_canonicalize
  have hnormal : path.normalize = path := by
    obtain ⟨-, rfl⟩ := Shelf.canonicalize_eq_ok_iff.mp hasked
    exact Path.normalize_normalize asked
  have hscan := h.error_eq_none hclean.problems
  have hrewrites := Setting.rewrites_inlined hscan (h.fault_eq_none hscan hclean.problems) htokens
    hcontent hd hreading hv hinlines htext'
  have hmeaning : d.meaning = .variable expression := by
    rw [Directive.ofToken?, hcontent] at hd
    cases hd
    rfl
  have hmeant : (S.setting o).meant V path text (.variable expression) = v := by
    have hin : d ∈ Directive.ofTokens 0 (Scan.ofText text).tokens := by
      rw [htokens, Directive.ofTokens_eq, Atom.ofTokens_append, Atom.ofTokens]
      simp [Atom.ofToken, hcontent, hd, Atom.directive?]
    rw [← hlook, (h.lookAt_eq hclean hV hin).1, hmeaning]
  have hagree : (S.setting o).AgreeExcept ((S.add path text').setting o) path :=
    Shelf.agreeExcept_add hnormal h.read_eq o _
  obtain ⟨rootPath, rootText, w₀, hopens⟩ := h.exists_opens
  have hroot : (S.setting o).Assembles root none _ _ _ _ _ := .root hopens
  have hsucceeds : ((S.add path text').setting o).Succeeds V o.maxImportDepth [rootPath] rootPath :=
    (hroot.succeeds hclean hV).rewritten hagree h.read_eq (Shelf.read_add S path _) hrewrites hmeant
      hroot.exists_canonicalize
  obtain ⟨rootText', hread'⟩ := hsucceeds.exists_read
  have hvalue : (Extraction.run (S.setting o) root none).value = V rootPath := by
    rw [hopens.run_eq]
    exact hV hroot
  cases hopens with
  | file hcanon hread =>
  have hopens' := Setting.Opens.file (s := (S.add path text').setting o)
    ((congrFun hagree.canonicalize _).trans hcanon) hread'
  obtain ⟨hvalue', hproblems'⟩ :=
    Shelf.assembleText_of_succeeds hsucceeds hread' (Shelf.calm_of_opens hopens')
  constructor
  · rw [hopens'.run_eq, hvalue]
    exact hvalue'
  · rw [problems, hopens'.run_eq]
    exact hproblems'

namespace Shelf

/-- A file with a variable for a member's value, called like the link above it. -/
def quotedText : String := "// [A](a)\n\x7b\"k\": \x7b\x7b a \x7d\x7d, \"n\": 2\x7d"

/-- The file with the variable written out. -/
def unquotedText : String := "// [A](a)\n\x7b\"k\": \x7b\"x\":[-1,\"\\\"y/\"]\x7d, \"n\": 2\x7d"

def quoted : Shelf :=
  ⟨[(⟨"/p/root.tmpl"⟩, quotedText), (⟨"/p/a.tmpl"⟩, "\x7b\"x\": [-1, \"\\\"y/\"]\x7d")]⟩

/-- The tokens of the file in front of the variable, the variable, and those behind it. -/
def quotedFront : List Token := (Scan.ofText quotedText).tokens.take 2

def quotedVariable : Token := ⟨.variable "a", "\x7b\x7b a \x7d\x7d", ⟨⟨16, 1, 6⟩, ⟨23, 1, 13⟩⟩⟩

def quotedBack : List Token := (Scan.ofText quotedText).tokens.drop 3

/-- What the variable stands for. -/
def quotedValue : Json :=
  ((quoted.setting (.standard ⟨"/p"⟩)).lookAt 10 [⟨"/p/root.tmpl"⟩] ⟨"/p/root.tmpl"⟩ quotedText
    ⟨1, false, false⟩ ⟨2, .variable "a", quotedVariable.raw, quotedVariable.range⟩).1

end Shelf

theorem Extraction.value_written_inline_quoted :
    (Extraction.run (Shelf.quoted.setting (.standard ⟨"/p"⟩)) ⟨"root.tmpl"⟩ none).Clean ∧
      (Shelf.quoted.setting (.standard ⟨"/p"⟩)).Assembles ⟨"root.tmpl"⟩ none 10
        [⟨"/p/root.tmpl"⟩] ⟨"/p/root.tmpl"⟩ Shelf.quotedText ⟨1, false, false⟩ ∧
      (Scan.ofText Shelf.quotedText).tokens =
        Shelf.quotedFront ++ Shelf.quotedVariable :: Shelf.quotedBack ∧
      Shelf.quotedValue.Writable ∧
      (Draft.Cursor.after (Atom.ofTokens 0 Shelf.quotedFront)).reading = .between ∧
      (Draft.Cursor.after (Atom.ofTokens 0 Shelf.quotedFront)).builder.Inlines
        Shelf.quotedValue Shelf.quotedValue.compactText ∧
      (Extraction.run ((Shelf.quoted.add ⟨"/p/root.tmpl"⟩ Shelf.unquotedText).setting
          (.standard ⟨"/p"⟩)) ⟨"root.tmpl"⟩ none).value =
        (Extraction.run (Shelf.quoted.setting (.standard ⟨"/p"⟩)) ⟨"root.tmpl"⟩ none).value ∧
      (Extraction.run ((Shelf.quoted.add ⟨"/p/root.tmpl"⟩ Shelf.unquotedText).setting
          (.standard ⟨"/p"⟩)) ⟨"root.tmpl"⟩ none).problems = [] := by
  have hcanon : Shelf.quoted.canonicalize ((Options.standard ⟨"/p"⟩).placeOf ⟨"root.tmpl"⟩) =
      .ok ⟨"/p/root.tmpl"⟩ := by decide +kernel
  have hread : Shelf.quoted.read ⟨"/p/root.tmpl"⟩ = .ok Shelf.quotedText := by decide +kernel
  have hproblems : (Extraction.run (Shelf.quoted.setting (.standard ⟨"/p"⟩)) ⟨"root.tmpl"⟩
      none).problems = [] := List.isEmpty_iff.mp (by decide +kernel)
  have hforward : ∀ r ∈ (Extraction.run (Shelf.quoted.setting (.standard ⟨"/p"⟩)) ⟨"root.tmpl"⟩
      none).ledger.imports, r.isRecursive = false := by decide +kernel
  have hassembles : (Shelf.quoted.setting (.standard ⟨"/p"⟩)).Assembles ⟨"root.tmpl"⟩ none 10
      [⟨"/p/root.tmpl"⟩] ⟨"/p/root.tmpl"⟩ Shelf.quotedText ⟨1, false, false⟩ :=
    .root (Shelf.opens_file hcanon hread)
  have htokens : (Scan.ofText Shelf.quotedText).tokens =
      Shelf.quotedFront ++ Shelf.quotedVariable :: Shelf.quotedBack := by decide +kernel
  have hd : Directive.ofToken? Shelf.quotedFront.length Shelf.quotedVariable =
      some ⟨2, .variable "a", Shelf.quotedVariable.raw, Shelf.quotedVariable.range⟩ := by
    decide +kernel
  have hreading : (Draft.Cursor.after (Atom.ofTokens 0 Shelf.quotedFront)).reading = .between := by
    decide +kernel
  have hvalue :
      (Draft.Cursor.after (Atom.ofTokens 0 Shelf.quotedFront)).builder.atValue = true := by
    decide +kernel
  have hwritable : decide Shelf.quotedValue.Writable = true := by decide +kernel
  have htext : Shelf.unquotedText.toList = Token.textOf Shelf.quotedFront ++
      Shelf.quotedValue.compactText ++ Token.textOf Shelf.quotedBack := by decide +kernel
  have hclean : (Extraction.run (Shelf.quoted.setting (.standard ⟨"/p"⟩)) ⟨"root.tmpl"⟩
      none).Clean := ⟨hproblems, hforward⟩
  have hinlines : (Draft.Cursor.after (Atom.ofTokens 0 Shelf.quotedFront)).builder.Inlines
      Shelf.quotedValue Shelf.quotedValue.compactText := .value hvalue
  have hlook : ((Shelf.quoted.setting (.standard ⟨"/p"⟩)).lookAt 10 [⟨"/p/root.tmpl"⟩]
      ⟨"/p/root.tmpl"⟩ Shelf.quotedText ⟨1, false, false⟩
      ⟨2, .variable "a", Shelf.quotedVariable.raw, Shelf.quotedVariable.range⟩).1 =
        Shelf.quotedValue := by
    rw [Shelf.quotedValue]
  -- Nothing below needs the value itself, and unfolding it would run the extraction.
  generalize Shelf.quotedValue = v at hlook hwritable hinlines htext ⊢
  exact ⟨hclean, hassembles, htokens, of_decide_eq_true hwritable, hreading, hinlines,
    Extraction.value_written_inline hclean hassembles htokens rfl hd hreading hlook
      (of_decide_eq_true hwritable) hinlines htext⟩

end Stencil
