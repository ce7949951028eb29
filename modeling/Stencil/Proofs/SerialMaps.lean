import Mathlib.Data.List.Forall2
import Stencil.Proofs.MapHistories
import Stencil.Proofs.PlainJson
import Stencil.SourceMap.Serial

/-!
# Maps written out and read in

A map is written out as its entries, in order. What is read in is a list of values that each say
an entry (`Says`), and they are written one after the other; so what becomes of them is what
becomes of any row of writes. Each pointer comes once, where it was said first, with what was said
of it last.

The entries of a map have different pointers, and writing them again one after the other is to
have them as they were. That is why a map comes back from its own list, and from the text of that
list if its lines and columns are numbers of 64 bits, which is all that JSON can say of integers.
-/

namespace Stencil

theorem TokenKind.ofName?_eq_some_iff {name : String} {kind : TokenKind} :
    ofName? name = some kind ↔ name = kind.name := by
  constructor
  · intro h
    rw [ofName?] at h
    have hname := List.find?_some h
    exact (of_decide_eq_true hname).symm
  · rintro rfl
    cases kind <;> rfl

/-- Whether an origin's numbers are such as JSON has for integers. -/
def Origin.Fits (o : Origin) : Prop := o.line < 2 ^ 64 ∧ o.column < 2 ^ 64

theorem mapM_eq_some_iff {α β : Type} {f : α → Option β} {as : List α} {bs : List β} :
    as.mapM f = some bs ↔ List.Forall₂ (fun a b => f a = some b) as bs := by
  induction as generalizing bs with
  | nil => simp [eq_comm]
  | cons a as ih =>
      rw [List.forall₂_cons_left_iff]
      simp only [List.mapM_cons, Option.bind_eq_bind, Option.pure_def, Option.bind_eq_some_iff,
        Option.some.injEq, ih]
      constructor
      · rintro ⟨b, hb, bs', hbs, rfl⟩
        exact ⟨b, bs', hb, hbs, rfl⟩
      · rintro ⟨b, bs', hb, hbs, rfl⟩
        exact ⟨b, hb, bs', hbs, rfl⟩

namespace Json

theorem string?_eq_some_iff {v : Json} {text : String} :
    v.string? = some text ↔ v = .string text := by
  cases v <;> simp [string?]

theorem nat?_eq_some_iff {v : Json} {n : Nat} : v.nat? = some n ↔ v = .ofNat n := by
  unfold nat? ofNat
  split
  · next m => simp
  · next hother =>
      refine iff_of_false (fun h => by cases h) ?_
      rintro rfl
      exact hother n rfl

end Json

namespace SourceMap

/-! ## What a value says -/

/-- Whether a value says a kind: by its name alone, or with null for it in an object. -/
inductive SaysKind : Json → TokenKind → Prop
  | name (kind : TokenKind) : SaysKind (.string kind.name) kind
  | member (kind : TokenKind) : SaysKind (.object [(kind.name, .null)]) kind

/-- Whether five values say an entry. -/
structure SayEntry (pointer file line column kind : Json) (entry : Pointer × Origin) : Prop where
  pointer : pointer = .string entry.1.text
  file : file = .string entry.2.file
  line : line = .ofNat entry.2.line
  column : column = .ofNat entry.2.column
  kind : SaysKind kind entry.2.kind

/-- Whether a value says an entry: by the five values in a row, or by an object with five members
among those it has. -/
inductive Says : Json → Pointer × Origin → Prop
  | row {pointer file line column kind : Json} {entry : Pointer × Origin}
      (h : SayEntry pointer file line column kind entry) :
      Says (.array [pointer, file, line, column, kind]) entry
  | members {members : List (String × Json)} {pointer file line column kind : Json}
      {entry : Pointer × Origin} (hpointer : Assoc.find? "pointer" members = some pointer)
      (hfile : Assoc.find? "sourceFile" members = some file)
      (hline : Assoc.find? "line" members = some line)
      (hcolumn : Assoc.find? "column" members = some column)
      (hkind : Assoc.find? "tokenKind" members = some kind)
      (h : SayEntry pointer file line column kind entry) : Says (.object members) entry

theorem kindOfJson?_eq_some_iff {v : Json} {kind : TokenKind} :
    kindOfJson? v = some kind ↔ SaysKind v kind := by
  constructor
  · intro h
    unfold kindOfJson? at h
    split at h
    · obtain rfl := TokenKind.ofName?_eq_some_iff.mp h
      exact .name kind
    · obtain rfl := TokenKind.ofName?_eq_some_iff.mp h
      exact .member kind
    · cases h
  · intro h
    cases h <;> exact TokenKind.ofName?_eq_some_iff.mpr rfl

theorem entryOfValues?_eq_some_iff {pointer file line column kind : Json}
    {entry : Pointer × Origin} : entryOfValues? pointer file line column kind = some entry ↔
      SayEntry pointer file line column kind entry := by
  have hparse {text : String} {p : Pointer} :
      (Pointer.parse? text).toOption = some p ↔ p.text = text := by
    rw [← Pointer.parse?_eq_ok_iff]
    cases Pointer.parse? text <;> simp [Except.toOption]
  simp only [entryOfValues?, bind, pure, Option.bind_eq_some_iff, Json.string?_eq_some_iff,
    Json.nat?_eq_some_iff, kindOfJson?_eq_some_iff, hparse, Option.some.injEq]
  constructor
  · rintro ⟨_, rfl, p, rfl, f, rfl, l, rfl, c, rfl, k, hkind, rfl⟩
    exact ⟨rfl, rfl, rfl, rfl, hkind⟩
  · rintro ⟨hpointer, hfile, hline, hcolumn, hkind⟩
    exact ⟨_, hpointer, _, rfl, _, hfile, _, hline, _, hcolumn, _, hkind, rfl⟩

theorem entryOfJson?_eq_some_iff {v : Json} {entry : Pointer × Origin} :
    entryOfJson? v = some entry ↔ Says v entry := by
  constructor
  · intro h
    unfold entryOfJson? at h
    split at h
    · exact .row (entryOfValues?_eq_some_iff.mp h)
    · simp only [bind, Option.bind_eq_some_iff] at h
      obtain ⟨pointer, hpointer, file, hfile, line, hline, column, hcolumn, kind, hkind, h⟩ := h
      exact .members hpointer hfile hline hcolumn hkind (entryOfValues?_eq_some_iff.mp h)
    · cases h
  · intro h
    cases h with
    | row h => exact entryOfValues?_eq_some_iff.mpr h
    | members hpointer hfile hline hcolumn hkind h =>
        simp only [entryOfJson?, Json.member?, hpointer, hfile, hline, hcolumn, hkind, bind,
          Option.bind]
        exact entryOfValues?_eq_some_iff.mpr h

theorem says_entryToJson (entry : Pointer × Origin) : Says (entryToJson entry) entry :=
  .members rfl rfl rfl rfl rfl ⟨rfl, rfl, rfl, rfl, .name _⟩

/-! ## Reading and writing -/

theorem eq_of_entries_eq {map other : SourceMap} (h : map.entries = other.entries) :
    map = other := by
  cases map
  cases other
  cases h
  rfl

theorem entries_ofList_eq_settled (writes : List (Pointer × Origin)) :
    (ofList writes).entries = settled writes :=
  (records_empty.insertAll writes).entries

/-- What is read is what all that was said comes to. -/
theorem ofJson?_eq_some_iff {value : Json} {map : SourceMap} : ofJson? value = some map ↔
    ∃ items writes, value = .array items ∧ List.Forall₂ Says items writes ∧
      map.entries = settled writes := by
  have hitems {items : List Json} : value.items? = some items ↔ value = .array items := by
    cases value <;> simp [Json.items?]
  simp only [ofJson?, bind, pure, Option.bind_eq_some_iff, hitems, mapM_eq_some_iff,
    entryOfJson?_eq_some_iff, Option.some.injEq, ← entries_ofList_eq_settled]
  constructor
  · rintro ⟨items, rfl, writes, hsays, rfl⟩
    exact ⟨items, writes, rfl, hsays, rfl⟩
  · rintro ⟨items, writes, rfl, hsays, hentries⟩
    exact ⟨items, rfl, writes, hsays, (eq_of_entries_eq hentries).symm⟩

theorem ofJson?_toJson (map : SourceMap) : ofJson? map.toJson = some map := by
  refine ofJson?_eq_some_iff.mpr ⟨_, map.entries, rfl, ?_, ?_⟩
  · rw [List.forall₂_map_left_iff, List.forall₂_same]
    exact fun entry _ => says_entryToJson entry
  · rw [← entries_ofList_eq_settled, entries_ofList map.nodup]

theorem plain_entryToJson {entry : Pointer × Origin} (h : entry.2.Fits) (nesting : Nat) :
    (entryToJson entry).Plain (nesting + 1) := by
  have hfits {n : Nat} (hn : n < 2 ^ 64) : (Json.ofNat n).Plain nesting :=
    ⟨by omega, by omega⟩
  have hnames : ["pointer", "sourceFile", "line", "column", "tokenKind"].Nodup := by decide
  exact ⟨hnames, trivial, trivial, hfits h.1, hfits h.2, trivial, trivial⟩

theorem plain_toJson {map : SourceMap} (h : ∀ entry ∈ map.entries, entry.2.Fits) :
    map.toJson.Plain Json.maxNesting := by
  refine Json.plainItems_iff.mpr fun item hitem => ?_
  obtain ⟨entry, hentry, rfl⟩ := List.mem_map.mp hitem
  exact plain_entryToJson (h entry hentry) _

/-- A map comes back from its list of entries, and from the text of that list. A list that is read
comes to its entries with each pointer once, where it is said first and with what is said of it
last, and that is also what the list of the map says again. -/
theorem maps_survive_serialization :
    (∀ h : History, ofJson? h.map.toJson = some h.map ∧
      ((∀ entry ∈ h.map.entries, entry.2.Fits) →
        (Json.ofText? Json.maxNesting h.map.toJson.compact).bind ofJson? = some h.map)) ∧
    (∀ value map, ofJson? value = some map ↔ ∃ items writes, value = .array items ∧
      List.Forall₂ Says items writes ∧ map.entries = settled writes) ∧
    ∀ items writes, List.Forall₂ Says items writes → ∃ map, ofJson? (.array items) = some map ∧
      map.toJson = .array ((settled writes).map entryToJson) ∧
      ofJson? map.toJson = some map := by
  refine ⟨fun h => ⟨ofJson?_toJson h.map, fun hfits => ?_⟩, fun _ _ => ofJson?_eq_some_iff,
    fun items writes hsays => ?_⟩
  · rw [Json.ofText?_compact (plain_toJson hfits), Option.bind_some, ofJson?_toJson]
  · refine ⟨ofList writes, ?_, ?_, ofJson?_toJson _⟩
    · exact ofJson?_eq_some_iff.mpr ⟨items, writes, rfl, hsays, entries_ofList_eq_settled writes⟩
    · rw [toJson, entries_ofList_eq_settled]

end SourceMap

end Stencil
