import Mathlib.Data.Set.Subsingleton
import Stencil.Proofs.LineIndexes
import Stencil.Proofs.Seams

/-!
# Links are read where they are spelled

A link is read by looking for its parts from left to right: the slashes, the bracket behind
the blanks, the first bracket that closes, a parenthesis at once, the first parenthesis that
closes. How a link is spelled can be said without looking for anything, as the parts with a
condition on each (`Link.Spelling`), and a link is read from a text exactly where the text
begins with a spelling.

The search loses nothing, since a text begins with one spelling at most: each part ends at
the first character that it must not hold. The spelling is all that the reading depends on.
What stands behind the last parenthesis is left as it is, and the scanner goes on there, as
many bytes further as the parts have.
-/

namespace Stencil

open String (utf8Len)

namespace Text

variable {text inner : List Char}

/-- Whether a text has blanks around `inner`, and `inner` none at its ends. -/
def Trims (text inner : List Char) : Prop :=
  (∃ front back, text = front ++ inner ++ back ∧ ∀ c ∈ front ++ back, isBlank c = true) ∧
    ∀ c, inner.head? = some c ∨ inner.getLast? = some c → isBlank c = false

theorem not_isBlank_of_head?_dropWhile {c : Char} (h : (text.dropWhile isBlank).head? = some c) :
    isBlank c = false := by
  have hfirst := List.head?_dropWhile_not isBlank text
  rwa [h] at hfirst

theorem dropWhile_isBlank_append {front : List Char} (hfront : ∀ c ∈ front, isBlank c = true)
    (h : ∀ c, inner.head? = some c → isBlank c = false) :
    (front ++ inner).dropWhile isBlank = inner := by
  rw [List.dropWhile_append_of_pos hfront]
  cases inner with
  | nil => rfl
  | cons c inner => rw [List.dropWhile_cons_of_neg (by simp [h c rfl])]

theorem exists_append_dropWhile (text : List Char) :
    ∃ front, text = front ++ text.dropWhile isBlank ∧ ∀ c ∈ front, isBlank c = true :=
  ⟨text.takeWhile isBlank, List.takeWhile_append_dropWhile.symm, fun _ => List.mem_takeWhile_imp⟩

theorem trims_trim (text : List Char) : Trims text (trim text) := by
  obtain ⟨front, hfront, hfrontBlank⟩ := exists_append_dropWhile text
  obtain ⟨back, hback, hbackBlank⟩ := exists_append_dropWhile (text.dropWhile isBlank).reverse
  have hkept : text.dropWhile isBlank = trim text ++ back.reverse := by
    rw [trim, ← List.reverse_append, ← hback, List.reverse_reverse]
  refine ⟨⟨front, back.reverse, ?_, fun c hc => ?_⟩, fun c hc => ?_⟩
  · rw [List.append_assoc, ← hkept, ← hfront]
  · rcases List.mem_append.mp hc with hc | hc
    · exact hfrontBlank c hc
    · exact hbackBlank c (List.mem_reverse.mp hc)
  · rcases hc with hhead | hlast
    · have hfirst : (text.dropWhile isBlank).head? = some c := by
        rw [hkept, List.head?_append, hhead, Option.some_or]
      exact not_isBlank_of_head?_dropWhile hfirst
    · rw [trim, List.getLast?_reverse] at hlast
      exact not_isBlank_of_head?_dropWhile hlast

theorem Trims.trim_eq (h : Trims text inner) : trim text = inner := by
  obtain ⟨⟨front, back, rfl, hblank⟩, hends⟩ := h
  by_cases hinner : inner = []
  · -- The blanks of both sides stand together, and trimming at the front takes them all.
    subst hinner
    have hnone : (front ++ [] ++ back).dropWhile isBlank = [] := by
      rw [List.dropWhile_eq_nil_iff, List.append_nil]
      exact hblank
    rw [trim, hnone]
    rfl
  · have hstart : (front ++ (inner ++ back)).dropWhile isBlank = inner ++ back :=
      dropWhile_isBlank_append (fun c hc => hblank c (List.mem_append_left _ hc)) fun c hc =>
        hends c (Or.inl (by rwa [List.head?_append_of_ne_nil _ hinner] at hc))
    have hend : (back.reverse ++ inner.reverse).dropWhile isBlank = inner.reverse :=
      dropWhile_isBlank_append
        (fun c hc => hblank c (List.mem_append_right _ (List.mem_reverse.mp hc)))
        fun c hc => hends c (Or.inr (by rwa [List.head?_reverse] at hc))
    rw [trim, List.append_assoc, hstart, List.reverse_append, hend, List.reverse_reverse]

theorem trim_eq_iff : trim text = inner ↔ Trims text inner :=
  ⟨fun h => h ▸ trims_trim text, Trims.trim_eq⟩

theorem trim_eq_nil_iff : trim text = [] ↔ ∀ c ∈ text, isBlank c = true := by
  rw [trim_eq_iff]
  constructor
  · rintro ⟨⟨front, back, rfl, hblank⟩, -⟩
    rwa [List.append_nil]
  · intro h
    exact ⟨⟨text, [], by simp, by simpa using h⟩, by simp⟩

/-- Spaces and tabs take a byte each. -/
theorem utf8Len_inline (h : ∀ c ∈ text, c = ' ' ∨ c = '\t') : utf8Len text = text.length := by
  induction text with
  | nil => rfl
  | cons c rest ih =>
      have hc : c.utf8Size = 1 := by
        rcases h c List.mem_cons_self with rfl | rfl <;> rfl
      rw [String.utf8Len_cons, ih fun d hd => h d (List.mem_cons_of_mem _ hd), hc, List.length_cons]

/-- What a text begins with up to the first `x`, and what follows that, are determined. -/
theorem eq_of_append_cons {x : Char} {first first' rest rest' : List Char} (hfirst : x ∉ first)
    (hfirst' : x ∉ first') (h : first ++ x :: rest = first' ++ x :: rest') :
    first = first' ∧ rest = rest' := by
  induction first generalizing first' with
  | nil =>
      cases first' with
      | nil => exact ⟨rfl, (List.cons.inj h).2⟩
      | cons c first' => exact absurd (List.cons.inj h).1 (List.ne_of_not_mem_cons hfirst')
  | cons c first ih =>
      cases first' with
      | nil => exact absurd (List.cons.inj h).1.symm (List.ne_of_not_mem_cons hfirst)
      | cons c' first' =>
          obtain ⟨rfl, htail⟩ := List.cons.inj h
          obtain ⟨rfl, hrest⟩ := ih (List.not_mem_of_not_mem_cons hfirst)
            (List.not_mem_of_not_mem_cons hfirst') htail
          exact ⟨rfl, hrest⟩

end Text

namespace Link

/-- A link as it is spelled, in its parts. -/
@[ext]
structure Spelling where
  blanks : List Char
  description : List Char
  path : List Char
  blanks_inline : ∀ c ∈ blanks, c = ' ' ∨ c = '\t'
  description_open : ∀ c ∈ description, c ≠ ']' ∧ c ≠ '\n'
  path_open : ∀ c ∈ path, c ≠ ')' ∧ c ≠ '\n'
  path_not_blank : ∃ c ∈ path, Text.isBlank c = false

namespace Spelling

variable {s s' : Spelling}

def text (s : Spelling) : List Char :=
  '/' :: '/' :: (s.blanks ++ '[' :: (s.description ++ ']' :: '(' :: (s.path ++ [')'])))

def link (s : Spelling) : Link :=
  ⟨String.ofList (Text.trim s.description), String.ofList (Text.trim s.path)⟩

/-- The token of a link that is spelled at a place. -/
def token (s : Spelling) (place : Location) : Token :=
  ⟨.link s.link, String.ofList s.text, ⟨place, place.advanceOver s.text⟩⟩

theorem text_append (s : Spelling) (after : List Char) : s.text ++ after = '/' :: '/' ::
    (s.blanks ++ '[' :: (s.description ++ ']' :: '(' :: (s.path ++ ')' :: after))) := by
  simp [text]

theorem spells_iff {raw : List Char} {link : Link} :
    Spells raw link ↔ ∃ s : Spelling, s.text = raw ∧ s.link = link := by
  have hblank {path : List Char} :
      (Text.trim path).isEmpty = false ↔ ∃ c ∈ path, Text.isBlank c = false := by
    rw [List.isEmpty_eq_false_iff, Ne, Text.trim_eq_nil_iff]
    simp
  constructor
  · rintro ⟨blanks, description, path, rfl, hblanks, hdescription, hpath, hempty, rfl⟩
    refine ⟨⟨blanks, description, path, fun c hc => ?_, fun c hc => ?_, fun c hc => ?_,
      hblank.mp hempty⟩, rfl, rfl⟩
    · simpa [Text.isInlineBlank] using hblanks c hc
    · exact ⟨ne_of_mem_of_not_mem hc hdescription.1, ne_of_mem_of_not_mem hc hdescription.2⟩
    · exact ⟨ne_of_mem_of_not_mem hc hpath.1, ne_of_mem_of_not_mem hc hpath.2⟩
  · rintro ⟨s, rfl, rfl⟩
    refine ⟨s.blanks, s.description, s.path, rfl, fun c hc => ?_,
      ⟨fun h => (s.description_open _ h).1 rfl, fun h => (s.description_open _ h).2 rfl⟩,
      ⟨fun h => (s.path_open _ h).1 rfl, fun h => (s.path_open _ h).2 rfl⟩,
      hblank.mpr s.path_not_blank, rfl⟩
    simpa [Text.isInlineBlank] using s.blanks_inline c hc

/-- A text begins with one spelling at most. -/
theorem eq_of_append_eq {after after' : List Char} (h : s.text ++ after = s'.text ++ after') :
    s = s' ∧ after = after' := by
  have hblanks (s : Spelling) : '[' ∉ s.blanks := fun h => by
    rcases s.blanks_inline _ h with h | h <;> cases h
  have hdescription (s : Spelling) : ']' ∉ s.description := fun h => (s.description_open _ h).1 rfl
  have hpath (s : Spelling) : ')' ∉ s.path := fun h => (s.path_open _ h).1 rfl
  rw [text_append, text_append] at h
  -- Each part ends at the first character that it must not hold.
  obtain ⟨hsame, h⟩ := Text.eq_of_append_cons (hblanks s) (hblanks s')
    (List.cons.inj (List.cons.inj h).2).2
  obtain ⟨hsame', h⟩ := Text.eq_of_append_cons (hdescription s) (hdescription s') h
  obtain ⟨hsame'', hafter⟩ := Text.eq_of_append_cons (hpath s) (hpath s') (List.cons.inj h).2
  exact ⟨Spelling.ext hsame hsame' hsame'', hafter⟩

/-- The bytes of a spelling are those of its parts and of what stands around them. -/
theorem utf8Len_text (s : Spelling) : utf8Len s.text =
    2 + s.blanks.length + 1 + utf8Len s.description + 1 + 1 + utf8Len s.path + 1 := by
  have hsigns : '/'.utf8Size = 1 ∧ '['.utf8Size = 1 ∧ ']'.utf8Size = 1 ∧ '('.utf8Size = 1 ∧
      ')'.utf8Size = 1 := ⟨rfl, rfl, rfl, rfl, rfl⟩
  simp only [text, String.utf8Len_cons, String.utf8Len_append, String.utf8Len_nil,
    Text.utf8Len_inline s.blanks_inline, hsigns]
  omega

theorem length_range_token (s : Spelling) (place : Location) :
    (s.token place).range.length = (s.token place).raw.utf8ByteSize := by
  show (place.advanceOver s.text).offset - place.offset = (String.ofList s.text).utf8ByteSize
  rw [Location.offset_advanceOver, Nat.add_sub_cancel_left, String.utf8ByteSize_ofList]

end Spelling

theorem read?_eq_some_iff_spelling {text after : List Char} {link : Link} :
    read? text = some (link, after) ↔
      ∃ s : Spelling, s.link = link ∧ text = s.text ++ after := by
  simp only [read?_eq_some_iff, Spelling.spells_iff]
  constructor
  · rintro ⟨raw, ⟨s, rfl, hlink⟩, htext⟩
    exact ⟨s, hlink, htext⟩
  · rintro ⟨s, hlink, htext⟩
    exact ⟨s.text, ⟨s, rfl, hlink⟩, htext⟩

end Link

namespace Scan

open Link (Spelling)

/-- In plain text a spelling is cut off as a link, and the cut goes on behind it. -/
theorem cut_spelling (s : Spelling) (after : List Char) : cut .plain 0 (s.text ++ after) =
    ⟨.directive (.link s.link) s.text :: (cut .plain 0 after).marks,
      (cut .plain 0 after).unclosed⟩ := by
  obtain ⟨rest, htext⟩ : ∃ rest, s.text ++ after = '/' :: rest := ⟨_, s.text_append after⟩
  have hfind : find .plain '/' rest = .directive (.link s.link) s.text :=
    find_eq_directive_iff.mpr (Or.inr ⟨rfl, rfl, s.link, after,
      Spelling.spells_iff.mpr ⟨s, rfl, rfl⟩, htext.symm, rfl⟩)
  obtain ⟨second, hsecond, -, -, hcut⟩ := cut_directive hfind
  rw [← htext] at hsecond hcut
  rw [hcut, List.append_cancel_left hsecond]

theorem gather_spelling (s : Spelling) (after : List Char) (start : Location)
    (pending : List Char) :
    let token := s.token (start.advanceOver pending.reverse)
    gather start pending (cut .plain 0 (s.text ++ after)).marks =
      literal start pending.reverse ++
        token :: gather token.range.last [] (cut .plain 0 after).marks := by
  rw [cut_spelling, gather]
  rfl

end Scan

namespace Link

open Scan (cut gather literal)

/-- A link is read from a text exactly where the text begins with a spelling, which is the only one
that it begins with. The description and the path are the spelled ones without the blanks around
them, and what is left to read is what stands behind the spelling, whatever that is. The scanner
makes a token of the spelling, as many bytes long as the parts have, and goes on behind it. -/
theorem links_read_where_spelled :
    (∀ text, (read? text).isSome ↔ ∃ s : Spelling, s.text <+: text) ∧
    (∀ text, {s : Spelling | s.text <+: text}.Subsingleton) ∧
    ∀ s : Spelling,
      Text.Trims s.description s.link.description.toList ∧
      Text.Trims s.path s.link.path.toList ∧
      (String.ofList s.text).utf8ByteSize =
        2 + s.blanks.length + 1 + utf8Len s.description + 1 + 1 + utf8Len s.path + 1 ∧
      ∀ after, read? (s.text ++ after) = some (s.link, after) ∧
        ∀ start pending,
          let token := s.token (Location.advanceOver start pending.reverse)
          token.range.length = token.raw.utf8ByteSize ∧
          gather start pending (cut .plain 0 (s.text ++ after)).marks =
            literal start pending.reverse ++
              token :: gather token.range.last [] (cut .plain 0 after).marks := by
  refine ⟨fun text => ?_, fun text s hs s' hs' => ?_, fun s => ⟨?_, ?_, ?_, fun after => ⟨?_, ?_⟩⟩⟩
  · rw [Option.isSome_iff_exists]
    constructor
    · rintro ⟨⟨link, after⟩, hread⟩
      obtain ⟨s, -, rfl⟩ := read?_eq_some_iff_spelling.mp hread
      exact ⟨s, List.prefix_append _ _⟩
    · rintro ⟨s, after, rfl⟩
      exact ⟨(s.link, after), read?_eq_some_iff_spelling.mpr ⟨s, rfl, rfl⟩⟩
  · obtain ⟨after, rfl⟩ := hs
    obtain ⟨after', hafter⟩ := hs'
    exact (Spelling.eq_of_append_eq hafter.symm).1
  · rw [Spelling.link, String.toList_ofList]
    exact Text.trims_trim s.description
  · rw [Spelling.link, String.toList_ofList]
    exact Text.trims_trim s.path
  · rw [String.utf8ByteSize_ofList, s.utf8Len_text]
  · exact read?_eq_some_iff_spelling.mpr ⟨s, rfl, rfl⟩
  · intro start pending token
    exact ⟨s.length_range_token _, Scan.gather_spelling s after start pending⟩

/-- The parts are trimmed, and a carriage return stands behind the link. -/
example : read? "//[ A thing ]( x/y.tmpl )\r\nrest".toList =
    some (⟨"A thing", "x/y.tmpl"⟩, "\r\nrest".toList) := by decide

example : read? "// [A]( \t)".toList = none := by decide

end Link

end Stencil
