import Stencil.Proofs.Parsing
import Stencil.Proofs.Scanning
import Stencil.Proofs.Visits

/-!
# Templates without directives

A text in which the scanner finds no directive is read character by character, and all that its
draft can demand is a place for its fault. So whether it is extracted without a problem, and
with what value, is a matter of syntax alone, and the syntax is that of the grammar.
-/

namespace Stencil

/-! ## Texts without directives -/

namespace Scan

/-- Where no directive is found and no bracket is left open, all of the text is literal. -/
theorem marks_eq_map_char {mode : Mode} {text : List Char}
    (hunclosed : (cut mode 0 text).unclosed = none)
    (h : ∀ content raw, .directive content raw ∉ (cut mode 0 text).marks) :
    (cut mode 0 text).marks = text.map .char := by
  induction text generalizing mode with
  | nil => rw [cut, List.map_nil]
  | cons c rest ih =>
      rw [cut] at h hunclosed ⊢
      cases hfind : find mode c rest with
      | literal next =>
          rw [hfind] at h hunclosed
          exact congrArg _ (ih hunclosed fun content raw hmem =>
            h content raw (List.mem_cons_of_mem _ hmem))
      | directive content raw =>
          rw [hfind] at h
          exact absurd List.mem_cons_self (h content raw)
      | unclosed bracket =>
          rw [hfind] at hunclosed
          cases hunclosed

/-- A text's tokens are all literal exactly if nothing but characters is cut from it. -/
theorem literal_iff_cut {text : String} :
    ((ofText text).error = none ∧ ∀ t ∈ (ofText text).tokens, t.content = .literal) ↔
      cut .plain 0 text.toList = ⟨text.toList.map .char, none⟩ := by
  constructor
  · rintro ⟨herror, h⟩
    have hunclosed : (cut .plain 0 text.toList).unclosed = none := Option.map_eq_none_iff.mp herror
    have hmarks := marks_eq_map_char hunclosed fun content raw hmem => by
      obtain ⟨range, hrange⟩ := exists_mem_gather hmem .start []
      exact (directive_of_mem_cut hmem).2 (h _ hrange)
    rw [← hmarks, ← hunclosed]
  · intro hcut
    simp only [ofText, hcut, Option.map_none, gather_map_char, literal, true_and]
    split
    · simp
    · simp

/-- The atoms of a text whose tokens are all literal are its characters. -/
theorem atoms_of_literal {text : String} (herror : (ofText text).error = none)
    (h : ∀ t ∈ (ofText text).tokens, t.content = .literal) :
    Atom.ofTokens 0 (ofText text).tokens = Atom.chars .start text.toList := by
  have hcut := literal_iff_cut.mp ⟨herror, h⟩
  have htokens : (ofText text).tokens = literal .start text.toList := by
    show gather .start [] (cut .plain 0 text.toList).marks = _
    rw [hcut, gather_map_char]
    rfl
  rw [htokens, Atom.ofTokens_literal]

end Scan

/-! ## Extractions -/

theorem Directive.ofTokens_of_literal {tokens : List Token}
    (h : ∀ t ∈ tokens, t.content = .literal) (number : Nat) :
    Directive.ofTokens number tokens = [] := by
  induction tokens generalizing number with
  | nil => rfl
  | cons t tokens ih =>
      rw [ofTokens, ih fun t ht => h t (List.mem_cons_of_mem _ ht), ofToken?,
        h t List.mem_cons_self]
      rfl

/-- Without directives the value of a template demands nothing, and no links stand around it. -/
theorem Draft.of_literal {tokens : List Token} (h : ∀ t ∈ tokens, t.content = .literal) :
    (Draft.ofTokens tokens).leading = [] ∧ (Draft.ofTokens tokens).bodyDemands = [] ∧
      (Draft.ofTokens tokens).trailing = [] := by
  have hnone := Directive.ofTokens_of_literal h 0
  have hwithin : (Draft.ofTokens tokens).Stands (.ofDirectives fun _ => False) :=
    Draft.stands_of_directives fun d hd => by
      rw [hnone] at hd
      cases hd
  refine ⟨List.eq_nil_iff_forall_not_mem.mpr hwithin.leading,
    List.eq_nil_iff_forall_not_mem.mpr fun demand hmem => ?_,
    List.eq_nil_iff_forall_not_mem.mpr hwithin.trailing⟩
  have hdirective : demand.directive?.isSome := by
    rw [Draft.bodyDemands] at hmem
    split at hmem
    · cases hmem
    · exact Node.isSome_of_mem_demands _ hmem
  obtain ⟨d, hd⟩ := Option.isSome_iff_exists.mp hdirective
  exact hwithin.bodyDemands demand hmem d hd

/-- Without directives a template demands nothing but a place for its fault. -/
theorem Setting.demands_of_literal {tokens : List Token} (h : ∀ t ∈ tokens, t.content = .literal) :
    Setting.demands tokens = (Draft.ofTokens tokens).fault.toList.map .fault := by
  obtain ⟨hleading, hbody, htrailing⟩ := Draft.of_literal h
  rw [Setting.demands, Draft.demands, hleading, htrailing, hbody, Directive.ofTokens_of_literal h 0]
  simp

namespace Extraction

variable {s : Setting} {root path : Path} {text? : Option String} {text : String} {w : Watch}

/-- The value of a text without directives is read off its draft, and the fault of the draft is
its one problem. -/
theorem run_of_literal (hopens : s.Opens root text? path text w)
    (herror : (Scan.ofText text).error = none)
    (hliteral : ∀ t ∈ (Scan.ofText text).tokens, t.content = .literal) :
    ∃ look, (run s root text?).value = (Draft.ofTokens (Scan.ofText text).tokens).read look ∧
      (run s root text?).problems =
        (Draft.ofTokens (Scan.ofText text).tokens).fault.toList.map fun f =>
          .ofLocation (.fault f.fault) path f.place := by
  rw [hopens.run_eq, Setting.assembleRoot, Setting.assembleText_ok s herror]
  dsimp only
  rw [Setting.demands_of_literal hliteral]
  generalize hscope : s.scope path (Scan.ofText text).tokens _ = scope
  have hpath : scope.path = path := by
    rw [← hscope]
    rfl
  refine ⟨_, rfl, ?_⟩
  rw [← hpath]
  cases (Draft.ofTokens (Scan.ofText text).tokens).fault with
  | none => rfl
  | some f => rfl

/-- A text without directives is extracted without a problem exactly when it is a document of
the grammar, and its value is then what the document denotes. -/
theorem accepts_documents (hopens : s.Opens root text? path text w)
    (herror : (Scan.ofText text).error = none)
    (hliteral : ∀ t ∈ (Scan.ofText text).tokens, t.content = .literal) :
    ((run s root text?).problems = [] ↔ ∃ v, Grammar.Document text.toList v) ∧
      ∀ v, Grammar.Document text.toList v → (run s root text?).value = v := by
  obtain ⟨look, hvalue, hproblems⟩ := run_of_literal hopens herror hliteral
  have hdraft : Draft.ofTokens (Scan.ofText text).tokens =
      (Draft.Builder.along (endOfTokens (Scan.ofText text).tokens) .start text.toList
        (.body [])).finish (endOfTokens (Scan.ofText text).tokens) := by
    rw [Draft.ofTokens, Scan.atoms_of_literal herror hliteral]
    rfl
  rw [hproblems, hvalue, hdraft]
  constructor
  · constructor
    · intro hnone
      rw [List.map_eq_nil_iff, Option.toList_eq_nil_iff] at hnone
      exact Draft.Builder.document_of_clean _ hnone
    · rintro ⟨v, hv⟩
      rw [List.map_eq_nil_iff, Option.toList_eq_nil_iff]
      exact (Draft.Builder.clean_of_document _ hv _).1
  · intro v hv
    exact (Draft.Builder.clean_of_document _ hv _).2 look

end Extraction

namespace Shelf

/-- Comments, extra commas and a key that is written again. -/
def commentedText : String :=
  "// list\n\x7b\"a\": 1, \"b\": [2, /* two */], \"a\": \"\\ud83d\\ude00\",\x7d"

def commented : Shelf := ⟨[(⟨"/r.tmpl"⟩, commentedText)]⟩

end Shelf

theorem Extraction.accepts_documents_commented :
    let s := Shelf.commented.setting (.standard ⟨"/"⟩)
    let e := Extraction.run s ⟨"r.tmpl"⟩ none
    (∃ w, s.Opens ⟨"r.tmpl"⟩ none ⟨"/r.tmpl"⟩ Shelf.commentedText w) ∧
      (Scan.ofText Shelf.commentedText).error = none ∧
      (∀ t ∈ (Scan.ofText Shelf.commentedText).tokens, t.content = .literal) ∧
      e.problems = [] ∧ Grammar.Document Shelf.commentedText.toList e.value := by
  intro s e
  have hopens : s.Opens ⟨"r.tmpl"⟩ none ⟨"/r.tmpl"⟩ Shelf.commentedText _ :=
    .file (by decide +kernel) (by decide +kernel)
  have hscan : (Scan.ofText Shelf.commentedText).error = none := by decide +kernel
  have hliteral : ∀ t ∈ (Scan.ofText Shelf.commentedText).tokens, t.content = .literal := by
    decide +kernel
  have hproblems : e.problems = [] := by decide +kernel
  have haccepts := Extraction.accepts_documents hopens hscan hliteral
  obtain ⟨v, hv⟩ := haccepts.1.mp hproblems
  have hvalue : e.value = v := haccepts.2 v hv
  exact ⟨⟨_, hopens⟩, hscan, hliteral, hproblems, hvalue ▸ hv⟩

end Stencil
