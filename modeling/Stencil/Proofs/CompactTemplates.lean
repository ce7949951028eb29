import Stencil.Proofs.MapCoverage
import Stencil.Proofs.PlainTemplates
import Stencil.Proofs.PointerTexts
import Stencil.Proofs.WrittenValues

/-!
# Compact text is a template

What is printed can be fed back: the compact text of a value is a template without directives,
and extracted it gives the value again, with an entry in its map for each node. The entries
have different pointers as tokens, and these are escaped into different texts.
-/

namespace Stencil

/-! ## The draft of a compact text -/

theorem Draft.Cursor.Comes.finish {k : Draft.Cursor} {b : Draft.Builder} (h : k.Comes b)
    (last : Location) : k.finish last = b.finish last := by
  have hgap : (([] : List Atom).foldl Draft.Cursor.step (k.step .gap)).finish last =
      (([] : List Atom).foldl Draft.Cursor.step k).finish last :=
    finish_foldl_gap (h.admits _ fun _ hc => by cases hc) last
  rw [List.foldl_nil, List.foldl_nil, h.gap] at hgap
  exact hgap.symm

namespace Json

variable {v : Json}

theorem cut_compact (h : v.Writable) :
    Scan.cut .plain 0 v.compact.toList = ⟨v.compact.toList.map .char, none⟩ := by
  have hcut := Scan.passes_compactText v h []
  rw [compact, String.toList_ofList]
  simpa [Scan.cut] using hcut

theorem scan_compact (h : v.Writable) : (Scan.ofText v.compact).error = none ∧
    ∀ t ∈ (Scan.ofText v.compact).tokens, t.content = .literal :=
  Scan.literal_iff_cut.mpr (cut_compact h)

/-- The draft of a compact text is the value and nothing else. -/
theorem draft_compact (h : v.Writable) : ∃ node, node.Says v ∧
    Draft.ofTokens (Scan.ofText v.compact).tokens =
      ⟨[], some (.start, node), [], none⟩ := by
  obtain ⟨hscan, hliteral⟩ := scan_compact h
  obtain ⟨node, hnode, hcomes⟩ := comes_value v h (Draft.Builder.awaits_body []) .start
  refine ⟨node, hnode, ?_⟩
  rw [← Draft.Cursor.finish_after, Scan.atoms_of_literal hscan hliteral, compact,
    String.toList_ofList]
  exact hcomes.finish _

end Json

/-- The pointers of a written value are those of its nodes. -/
theorem Node.Says.mem_inside_iff {node : Node} {v : Json} (h : node.Says v) {L : Law}
    {place : Location} (hstands : node.Stands L place) (look : Look) {ts : List String} :
    ts ∈ node.inside look ++ [[]] ↔ v.Has ts := by
  -- No directive is looked at, so all may stand for null.
  let blank : Look := fun _ => (.null, none)
  have hblank : node.inside look = node.inside blank := by
    have hentries : node.entries ⟨""⟩ look .root = node.entries ⟨""⟩ blank .root :=
      Node.entries_congr ⟨""⟩ .root node fun demand hmem => by
        rw [h.demands] at hmem
        cases hmem
    have htokens := congrArg (List.map fun e : Entry => e.1.tokens) hentries
    rw [Node.tokens_entries, Node.tokens_entries] at htokens
    simpa [Pointer.root] using htokens
  have hcovered : ∀ d, Covered (blank d) := fun d => covered_of_isFlat rfl
  have haddresses : ∀ d, Addresses (blank d) := fun d ts hts => absurd hts List.not_mem_nil
  have hinside := (node.has_inside_iff fun d => (haddresses d).headed).mpr
    (node.tidy_of_distinct haddresses (h.distinct blank))
  rw [h.read] at hinside
  rw [hblank, List.mem_append, List.mem_singleton]
  constructor
  · rintro (hts | rfl)
    · exact hinside ts hts
    · exact Json.has_nil v
  · intro hts
    by_cases hnil : ts = []
    · exact Or.inr hnil
    · rw [← h.read blank] at hts
      exact Or.inl (node.mem_inside hcovered hstands hts hnil)

namespace Extraction

/-- Every value whose numbers are integers of 64 bits and whose strings and names open no bracket is
extracted from its compact text: without problems, imports, variables and control blocks, the
members in their order, and, if there is to be a map, with one entry for each node. -/
theorem compact_text_extracts {s : Setting} {root path : Path} {text? : Option String} {v : Json}
    {w : Watch} (hopens : s.Opens root text? path v.compact w) (h : v.Writable) :
    let e := run s root text?
    e.problems = [] ∧ e.value = v ∧ e.ledger.imports = [] ∧ e.ledger.variableCount = 0 ∧
      e.ledger.controlCount = 0 ∧
      (s.options.buildSourceMap = true → ∀ ts, ⟨ts⟩ ∈ Assoc.keys e.map.entries ↔ v.Has ts) ∧
      (e.map.entries.map fun entry => entry.1.text).Nodup := by
  intro e
  obtain ⟨hscan, hliteral⟩ := Json.scan_compact h
  obtain ⟨node, hnode, hdraft⟩ := Json.draft_compact h
  have hstands : (Draft.ofTokens (Scan.ofText v.compact).tokens).Stands
      (.ofDirectives fun _ => True) := Draft.stands_of_directives fun _ _ => trivial
  rw [hdraft] at hstands
  have hcount (kind : TokenKind) (hkind : kind ≠ .literal) :
      (Scan.ofText v.compact).tokens.countP (fun t => t.kind == kind) = 0 := by
    refine List.countP_eq_zero.mpr fun t ht => ?_
    have hliteral : t.kind = .literal := by rw [Token.kind, hliteral t ht]
    rw [hliteral, beq_iff_eq]
    exact hkind.symm
  obtain ⟨scope, look, hrun⟩ : ∃ (scope : Scope) (look : Look), e =
      ⟨node.read look, if s.options.buildSourceMap then
          .ofList (Draft.entries scope.path look ⟨[], some (.start, node), [], none⟩) else .empty,
        Setting.readLedger path v.compact ++
          (Setting.counts (Scan.ofText v.compact).tokens ++ .empty)⟩ := by
    have hrun : e = _ := hopens.run_eq
    rw [Setting.assembleRoot, Setting.assembleText_ok s hscan] at hrun
    simp only [Setting.demands_of_literal hliteral, Setting.reading, hdraft] at hrun
    exact ⟨_, _, hrun⟩
  have htokens : (Draft.entries scope.path look ⟨[], some (.start, node), [], none⟩).map
      (fun entry => entry.1.tokens) = node.inside look ++ [[]] := by
    simp [Draft.entries, Node.tokens_entries, Pointer.root]
  refine ⟨by rw [hrun]; rfl, by rw [hrun, hnode.read], by rw [hrun]; rfl, ?_, ?_,
    fun hmap ts => ?_, ?_⟩
  · rw [hrun]
    show 0 + ((Scan.ofText v.compact).tokens.countP _ + 0) = 0
    rw [hcount .variable (by decide)]
  · rw [hrun]
    show 0 + ((Scan.ofText v.compact).tokens.countP _ + 0) = 0
    rw [hcount .controlBlock (by decide)]
  · rw [hrun, if_pos hmap, SourceMap.mem_keys_iff, SourceMap.mem_tokens_ofList, htokens]
    exact hnode.mem_inside_iff (hstands.body _ _ rfl) look
  · have htexts := e.map.nodup.map (f := Pointer.text) fun _ _ => Pointer.text_injective
    rwa [Assoc.keys, List.map_map] at htexts

end Extraction

namespace Shelf

/-- A value whose strings and names look like comments, links, escapes and brackets. -/
def trickyValue : Json :=
  .object [
    ("a/b~1", .array [.number (.integer (-(2 ^ 63))), .number (.integer (2 ^ 64 - 1)), .array []]),
    ("", .string "// [A](a) /* \"\x7b % \x7b \\ \n\x01\ufeffé"),
    ("\x7d\x7d", .object [("\"", .null), ("a/b~1", .bool true), ("\x7b", .object [])])]

def tricky : Shelf := ⟨[(⟨"/p/root.tmpl"⟩, trickyValue.compact)]⟩

end Shelf

theorem Extraction.compact_text_extracts_tricky :
    let s := Shelf.tricky.setting (.standard ⟨"/p"⟩)
    let e := Extraction.run s ⟨"root.tmpl"⟩ none
    Shelf.trickyValue.Writable ∧
      (∃ w, s.Opens ⟨"root.tmpl"⟩ none ⟨"/p/root.tmpl"⟩ Shelf.trickyValue.compact w) ∧
      s.options.buildSourceMap = true ∧ e.problems = [] ∧ e.value = Shelf.trickyValue ∧
      ⟨["a/b~1", "1"]⟩ ∈ Assoc.keys e.map.entries := by
  intro s e
  have hopens : s.Opens ⟨"root.tmpl"⟩ none ⟨"/p/root.tmpl"⟩ Shelf.trickyValue.compact _ :=
    .file (by decide +kernel) (by decide +kernel)
  have hwritable : Shelf.trickyValue.Writable := by decide +kernel
  obtain ⟨hproblems, hvalue, -, -, -, hmap, -⟩ :=
    Extraction.compact_text_extracts hopens hwritable
  refine ⟨hwritable, ⟨_, hopens⟩, rfl, hproblems, hvalue, ?_⟩
  exact (hmap rfl ["a/b~1", "1"]).mpr (by decide +kernel)

end Stencil
