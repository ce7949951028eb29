import Stencil.Proofs.MapAddresses
import Stencil.Proofs.Parsing
import Stencil.Proofs.PrintedValues
import Stencil.Proofs.Twins

/-!
# Values written into templates

The compact text of a value is literal text to the scanner, wherever plain text stands, if no
bracket opens in its strings. To the reader it is the value again: the builder that waits for
a value has it filled in behind the text. Both are said with whatever may follow behind the
text. Only at the end of a number or a word does the reader wait for what follows, so what is
said about the cursor there is what it comes to at the next gap.

The induction is over the value; the items of an array and the members of an object are taken
one by one into what was there before.
-/

namespace Stencil

/-! ## Values that can be written -/

/-- Whether no bracket opens in a text. -/
def Scan.Bracketless (text : List Char) : Prop := ∀ b : Bracket, ¬ b.opening <:+: text

instance (text : List Char) : Decidable (Scan.Bracketless text) :=
  decidable_of_iff
    (¬ Scan.Bracket.variable.opening <:+: text ∧ ¬ Scan.Bracket.control.opening <:+: text)
    ⟨fun h b => by cases b; exacts [h.1, h.2], fun h => ⟨h .variable, h .control⟩⟩

instance : (n : Json.Number) → Decidable n.Fits
  | .integer _ => inferInstanceAs (Decidable (_ ∧ _))
  | .double _ => isFalse id

namespace Json

mutual

/-- Whether a value's compact text can stand in a template: its numbers are integers of 64 bits, no
object has a member twice, and no bracket opens in a string or a name. -/
def Writable : Json → Prop
  | .null | .bool _ => True
  | .number n => n.Fits
  | .string text => Scan.Bracketless text.toList
  | .array items => WritableItems items
  | .object members => (Assoc.keys members).Nodup ∧ WritableMembers members

def WritableItems : List Json → Prop
  | [] => True
  | item :: rest => item.Writable ∧ WritableItems rest

def WritableMembers : List (String × Json) → Prop
  | [] => True
  | (name, value) :: rest =>
      Scan.Bracketless name.toList ∧ value.Writable ∧ WritableMembers rest

end

mutual

def decidableWritable : (v : Json) → Decidable v.Writable
  | .null | .bool _ => isTrue trivial
  | .number n => inferInstanceAs (Decidable n.Fits)
  | .string text => inferInstanceAs (Decidable (Scan.Bracketless text.toList))
  | .array items => decidableWritableItems items
  | .object members => @instDecidableAnd _ _ inferInstance (decidableWritableMembers members)

def decidableWritableItems : (items : List Json) → Decidable (WritableItems items)
  | [] => isTrue trivial
  | item :: rest => @instDecidableAnd _ _ item.decidableWritable (decidableWritableItems rest)

def decidableWritableMembers :
    (members : List (String × Json)) → Decidable (WritableMembers members)
  | [] => isTrue trivial
  | (_, value) :: rest => @instDecidableAnd _ _ inferInstance
      (@instDecidableAnd _ _ value.decidableWritable (decidableWritableMembers rest))

end

instance (v : Json) : Decidable v.Writable := v.decidableWritable

end Json

/-! ## The scanner -/

namespace Scan

variable {mode mode' m : Mode} {c : Char} {text : List Char}

theorem Bracketless.tail (h : Bracketless (c :: text)) : Bracketless text :=
  fun b hin => h b (hin.trans (List.suffix_cons c text).isInfix)

theorem Bracketless.ne_head {d : Char} (h : Bracketless ('\x7b' :: d :: text)) :
    d ≠ '\x7b' ∧ d ≠ '%' := by
  constructor
  · rintro rfl
    exact h .variable ⟨[], text, rfl⟩
  · rintro rfl
    exact h .control ⟨[], text, rfl⟩

/-- Whether the scanner takes a text for literal text, whatever follows, and in what mode it comes
to the end. -/
def Passes (mode : Mode) (text : List Char) (mode' : Mode) : Prop :=
  ∀ rest, cut mode 0 (text ++ rest) =
    ⟨text.map .char ++ (cut mode' 0 rest).marks, (cut mode' 0 rest).unclosed⟩

theorem passes_nil (mode : Mode) : Passes mode [] mode := fun _ => rfl

theorem Passes.cons (hfind : ∀ rest, find mode c (text ++ rest) = .literal m)
    (h : Passes m text mode') : Passes mode (c :: text) mode' := by
  intro rest
  rw [List.cons_append, cut, hfind]
  dsimp only
  rw [h rest]
  rfl

theorem Passes.append {more : List Char} {mode'' : Mode} (h : Passes mode text mode')
    (h' : Passes mode' more mode'') : Passes mode (text ++ more) mode'' := by
  intro rest
  rw [List.append_assoc, h, h', List.map_append, List.append_assoc]

/-- A character that opens nothing is literal. -/
theorem find_of_ne_brace (hbrace : c ≠ '\x7b') (hslash : mode = .plain → c ≠ '/')
    (rest : List Char) : find mode c rest = .literal (mode.next c rest) := by
  refine find_eq_literal_iff.mpr ⟨fun _ => ?_, fun hplain => ?_, rfl⟩
  · simp [Bracket.at?, Bracket.opening, List.isPrefixOf, Ne.symm hbrace]
  · cases hread : Link.read? (c :: rest) with
    | none => rfl
    | some found =>
        obtain ⟨raw, ⟨_, _, _, rfl, -⟩, htext⟩ := Link.read?_eq_some_iff.mp hread
        exact absurd (List.cons.inj htext).1 (hslash hplain)

/-- A brace is literal where no bracket opens with it. -/
theorem find_brace {d : Char} (hopens : d ≠ '\x7b' ∧ d ≠ '%') (rest : List Char) :
    find mode '\x7b' (d :: rest) = .literal (mode.next '\x7b' (d :: rest)) := by
  refine find_eq_literal_iff.mpr ⟨fun _ => ?_, fun _ => ?_, rfl⟩
  · simp [Bracket.at?, Bracket.opening, List.isPrefixOf, Ne.symm hopens.1, Ne.symm hopens.2]
  · cases hread : Link.read? ('\x7b' :: d :: rest) with
    | none => rfl
    | some found =>
        obtain ⟨raw, ⟨_, _, _, rfl, -⟩, htext⟩ := Link.read?_eq_some_iff.mp hread
        cases htext

theorem passes_of_ne (h : ∀ c ∈ text, c ≠ '\x7b' ∧ c ≠ '/' ∧ c ≠ '"') :
    Passes .plain text .plain := by
  induction text with
  | nil => exact passes_nil .plain
  | cons c text ih =>
      obtain ⟨hbrace, hslash, hquote⟩ := h c List.mem_cons_self
      refine .cons (fun rest => ?_) (ih fun _ hd => h _ (List.mem_cons_of_mem _ hd))
      rw [find_of_ne_brace hbrace (fun _ => hslash), Mode.next]
      simp [hslash, hquote]

/-! ### Strings -/

theorem passes_escaped (hbrace : c ≠ '\x7b') (hnewline : c ≠ '\n')
    (h : Passes .string text mode') : Passes .string ('\\' :: c :: text) mode' := by
  refine .cons (m := .escape) (fun rest => ?_) (.cons (m := .string) (fun rest => ?_) h)
  · rw [find_of_ne_brace (by decide) (fun h => by cases h)]
    rfl
  · rw [find_of_ne_brace hbrace (fun h => by cases h), Mode.next, if_neg hnewline]

/-- A character of a string that is neither a backslash nor ends it. -/
theorem passes_inside (hfind : ∀ rest, find .string c (text ++ rest) =
      .literal (Mode.next .string c (text ++ rest)))
    (hbackslash : c ≠ '\\') (hquote : c ≠ '"') (hnewline : c ≠ '\n')
    (h : Passes .string text mode') : Passes .string (c :: text) mode' := by
  refine .cons (m := .string) (fun rest => ?_) h
  rw [hfind, Mode.next, if_neg hbackslash, if_neg (not_or.mpr ⟨hquote, hnewline⟩)]

theorem passes_hexText {n : Nat} (hn : n < 0x20) (h : Passes .string text mode') :
    Passes .string (Json.hexText 4 n ++ text) mode' := by
  have hdigits : ∀ c ∈ Json.hexText 4 n, c ≠ '\x7b' ∧ c ≠ '\\' ∧ c ≠ '"' ∧ c ≠ '\n' := by
    have hne {c : Char} (h : (Json.Reader.hexDigit? c).isSome) :
        c ≠ '\x7b' ∧ c ≠ '\\' ∧ c ≠ '"' ∧ c ≠ '\n' := by
      refine ⟨?_, ?_, ?_, ?_⟩ <;> rintro rfl <;> cases h
    obtain ⟨c₁, c₂, c₃, c₄, htext, hcode⟩ := Json.hexText_four hn
    obtain ⟨h₁, h₂, h₃, h₄⟩ := Lexeme.Reading.isSome_of_hex4? hcode
    rw [htext]
    simp only [List.forall_mem_cons]
    exact ⟨hne h₁, hne h₂, hne h₃, hne h₄, by simp⟩
  generalize Json.hexText 4 n = digits at hdigits ⊢
  induction digits with
  | nil => exact h
  | cons c digits ih =>
      obtain ⟨hbrace, hbackslash, hquote, hnewline⟩ := hdigits c List.mem_cons_self
      exact passes_inside (fun rest => find_of_ne_brace hbrace (fun h => by cases h) _) hbackslash
        hquote hnewline (ih fun d hd => hdigits d (List.mem_cons_of_mem _ hd))

/-- What follows a brace in a string, where no bracket opens with it. -/
theorem exists_head_escaped (h : Bracketless ('\x7b' :: text)) :
    ∃ d tail, text.flatMap Json.escapeChar ++ ['"'] = d :: tail ∧ d ≠ '\x7b' ∧ d ≠ '%' := by
  cases text with
  | nil => exact ⟨_, _, rfl, by decide⟩
  | cons c text =>
      obtain ⟨hbrace, hpercent⟩ := h.ne_head
      rw [List.flatMap_cons]
      unfold Json.escapeChar
      split
      case h_8 =>
        split
        · exact ⟨_, _, rfl, by decide⟩
        · exact ⟨_, _, rfl, hbrace, hpercent⟩
      all_goals exact ⟨_, _, rfl, by decide⟩

/-- A string without brackets is passed, from behind its opening quote on. -/
theorem passes_stringTail (h : Bracketless text) :
    Passes .string (text.flatMap Json.escapeChar ++ ['"']) .plain := by
  induction text with
  | nil =>
      refine .cons (m := .plain) (fun rest => ?_) (passes_nil .plain)
      rw [find_of_ne_brace (by decide) (fun h => by cases h)]
      rfl
  | cons c text ih =>
      have htail := ih h.tail
      by_cases hbrace : c = '\x7b'
      · subst hbrace
        obtain ⟨d, tail, htext, hd⟩ := exists_head_escaped h
        show Passes .string ('\x7b' :: (text.flatMap Json.escapeChar ++ ['"'])) .plain
        refine passes_inside (fun rest => ?_) (by decide) (by decide) (by decide) htail
        rw [htext]
        exact find_brace hd _
      · rw [List.flatMap_cons, List.append_assoc]
        unfold Json.escapeChar
        split
        case h_8 hquote hbackslash _ _ hnewline _ _ =>
          split
          · next hcontrol =>
              exact passes_escaped (by decide) (by decide) (passes_hexText hcontrol htail)
          · exact passes_inside (fun rest => find_of_ne_brace hbrace (fun h => by cases h) _)
              hbackslash hquote hnewline htail
        all_goals exact passes_escaped (by decide) (by decide) htail

theorem passes_quote (h : Bracketless text) : Passes .plain (Json.quote text) .plain := by
  refine .cons (m := .string) (fun rest => ?_) (passes_stringTail h)
  rw [find_of_ne_brace (by decide) fun _ => by decide]
  rfl

/-! ### Values -/

theorem passes_mark (h : Lexeme.isMark c = true) (hbrace : c ≠ '\x7b') :
    Passes .plain [c] .plain := by
  refine passes_of_ne fun d hd => ?_
  obtain rfl := List.mem_singleton.mp hd
  refine ⟨hbrace, ?_, ?_⟩ <;> rintro rfl <;> cases h

theorem passes_word {v : Json} (h : Grammar.Word text v) : Passes .plain text .plain := by
  refine passes_of_ne ?_
  cases h <;> simp

/-- Texts with commas between them are passed when each one is. -/
theorem passes_commas {texts : List (List Char)} (h : ∀ text ∈ texts, Passes .plain text .plain) :
    Passes .plain ([','].intercalate texts) .plain := by
  induction texts with
  | nil => exact passes_nil .plain
  | cons text texts ih =>
      obtain ⟨htext, htexts⟩ := List.forall_mem_cons.mp h
      cases texts with
      | nil => simpa using htext
      | cons next texts =>
          rw [List.intercalate_cons_cons]
          exact (htext.append (passes_mark rfl (by decide))).append (ih htexts)

theorem passes_number {n : Json.Number} (h : n.Canonical) : Passes .plain n.text .plain := by
  refine passes_of_ne fun c hc => ?_
  have hchar := (Json.number_text h).2 c hc
  refine ⟨?_, ?_, ?_⟩ <;> rintro rfl <;> cases hchar

/-- The opening brace of an object, behind which there is a name or the closing brace. -/
theorem passes_object {members : List (String × Json)}
    (h : Passes .plain (Json.compactMembers members) .plain) :
    Passes .plain (Json.object members).compactText .plain := by
  have hclosed := h.append (passes_mark (c := '\x7d') rfl (by decide))
  obtain ⟨d, tail, htext, hd⟩ : ∃ d tail, Json.compactMembers members ++ ['\x7d'] = d :: tail ∧
      d ≠ '\x7b' ∧ d ≠ '%' := by
    match members with
    | [] => exact ⟨_, _, rfl, by decide⟩
    | [_] | _ :: _ :: _ => exact ⟨_, _, rfl, by decide⟩
  rw [Json.compactText, List.cons_append]
  refine .cons (m := .plain) (fun rest => ?_) hclosed
  rw [htext]
  exact find_brace hd _

mutual

theorem passes_compactText : (v : Json) → v.Writable → Passes .plain v.compactText .plain
  | .null, _ => passes_word .null
  | .bool true, _ => passes_word .true
  | .bool false, _ => passes_word .false
  | .number _, h => passes_number h.canonical
  | .string _, h => passes_quote h
  | .array items, h => by
      rw [Json.compactText, Json.compactItems_eq]
      exact ((passes_mark (c := '[') rfl (by decide)).append
        (passes_commas (passes_items items h))).append (passes_mark rfl (by decide))
  | .object members, h => by
      refine passes_object ?_
      rw [Json.compactMembers_eq]
      exact passes_commas (passes_members members h.2)

theorem passes_items : (items : List Json) → Json.WritableItems items →
    ∀ text ∈ items.map Json.compactText, Passes .plain text .plain
  | [], _ => by simp
  | item :: rest, h =>
      List.forall_mem_cons.mpr ⟨passes_compactText item h.1, passes_items rest h.2⟩

theorem passes_members : (members : List (String × Json)) → Json.WritableMembers members →
    ∀ text ∈ members.map Json.memberText, Passes .plain text .plain
  | [], _ => by simp
  | (_, value) :: rest, h => List.forall_mem_cons.mpr
      ⟨(passes_quote h.1).append ((passes_mark (c := ':') rfl (by decide)).append
        (passes_compactText value h.2.1)), passes_members rest h.2.2⟩

end

theorem passes_compactMembers {members : List (String × Json)} (h : Json.WritableMembers members) :
    Passes .plain (Json.compactMembers members) .plain := by
  rw [Json.compactMembers_eq]
  exact passes_commas (passes_members members h)

end Scan

/-! ## The reader -/

namespace Draft.Cursor

open Json.Reader (isNumberChar)
open Lexeme (isNumberStart isWordChar)

/-- The cursor behind the characters of a text. -/
def along (k : Cursor) (place : Location) (text : List Char) : Cursor :=
  (Atom.chars place text).foldl step k

variable {k : Cursor} {b : Builder} {place : Location} {text : List Char}

theorem along_append (k : Cursor) (place : Location) (text more : List Char) :
    k.along place (text ++ more) = (k.along place text).along (place.advanceOver text) more := by
  induction text generalizing k place with
  | nil => rfl
  | cons c text ih => exact ih (k.step (.char place c)) (place.advance c)

/-- Whether a cursor is between lexemes with a builder as soon as what comes next continues no
number and no word. -/
structure Comes (k : Cursor) (b : Builder) : Prop where
  gap : k.step .gap = ⟨.between, b⟩
  admits : ∀ next : Option Char,
    (∀ c, next = some c → isNumberChar c = false ∧ isWordChar c = false) → k.reading.Admits next

theorem comes_between (b : Builder) : Comes ⟨.between, b⟩ b := ⟨rfl, fun _ _ => trivial⟩

theorem Comes.step (h : k.Comes b) {a : Atom}
    (ha : ∀ c, a.char? = some c → isNumberChar c = false ∧ isWordChar c = false) :
    k.step a = (⟨.between, b⟩ : Cursor).step a := by
  rw [← step_gap_step (h.admits _ ha), h.gap]

theorem Comes.step_mark (h : k.Comes b) {c : Char} (hc : Lexeme.isMark c = true) (p : Location) :
    k.step (.char p c) = ⟨.between, b.step ⟨p, .mark c⟩⟩ := by
  rw [h.step fun d hd => ?_]
  · rcases Lexeme.isMark_iff.mp hc with rfl | rfl | rfl | rfl | rfl | rfl <;> rfl
  · cases hd
    rcases Lexeme.isMark_iff.mp hc with rfl | rfl | rfl | rfl | rfl | rfl <;> decide

/-! ### Strings, words and numbers -/

/-- The reader takes an escaped character back. -/
theorem along_escapeChar (start q : Location) (pieces : List Piece) (c : Char) :
    (⟨.text start pieces, b⟩ : Cursor).along q (Json.escapeChar c) =
      ⟨.text start (.char c :: pieces), b⟩ := by
  unfold Json.escapeChar
  split
  case h_8 hquote hbackslash _ _ hnewline _ _ =>
    split
    · next hcontrol =>
        obtain ⟨c₁, c₂, c₃, c₄, htext, hcode⟩ := Json.hexText_four hcontrol
        obtain ⟨h₁, h₂, h₃, -⟩ := Lexeme.Reading.isSome_of_hex4? hcode
        obtain ⟨hhigh, hlow⟩ := Json.not_surrogate hcontrol
        rw [htext]
        simp [along, Atom.chars, step, Lexeme.Reading.step, Lexeme.Reading.inText,
          Lexeme.Reading.inEscape, Lexeme.Reading.digit, Lexeme.Reading.escaped, h₁, h₂, h₃, hcode,
          hhigh, hlow]
    · next hplain =>
        have hquote : c ≠ '"' := hquote
        have hbackslash : c ≠ '\\' := hbackslash
        have hnewline : c ≠ '\n' := hnewline
        simp [along, Atom.chars, step, Lexeme.Reading.step, Lexeme.Reading.inText, hquote,
          hbackslash, hnewline, hplain]
  all_goals rfl

theorem along_stringTail (start q : Location) (pieces : List Piece) (text : List Char) :
    (⟨.text start pieces, b⟩ : Cursor).along q (text.flatMap Json.escapeChar ++ ['"']) =
      ⟨.between, b.step ⟨start, .text (pieces.reverse ++ text.map .char)⟩⟩ := by
  induction text generalizing pieces q with
  | nil =>
      rw [List.map_nil, List.append_nil]
      rfl
  | cons c text ih =>
      rw [List.flatMap_cons, List.append_assoc, along_append, along_escapeChar, ih,
        List.reverse_cons, List.append_assoc]
      rfl

theorem along_quote (place : Location) (text : List Char) :
    (⟨.between, b⟩ : Cursor).along place (Json.quote text) =
      ⟨.between, b.step ⟨place, .text (text.map .char)⟩⟩ :=
  along_stringTail place (place.advance '"') [] text

theorem comes_word {v : Json} (h : Grammar.Word text v) (place : Location) :
    ((⟨.between, b⟩ : Cursor).along place text).Comes (b.step ⟨place, .word text⟩) := by
  cases h <;> exact ⟨rfl, fun next hnext c hc => (hnext c hc).2⟩

theorem comes_number {c : Char} {cs : List Char} (hc : isNumberStart c = true)
    (hcs : ∀ d ∈ cs, isNumberChar d = true) (place : Location) :
    ((⟨.between, b⟩ : Cursor).along place (c :: cs)).Comes (b.step ⟨place, .number (c :: cs)⟩) := by
  have hdigits (done : List Char) (q : Location) :
      (⟨.number place done, b⟩ : Cursor).along q cs = ⟨.number place (cs.reverse ++ done), b⟩ := by
    induction cs generalizing done q with
    | nil => rfl
    | cons d cs ih =>
        obtain ⟨hd, hcs⟩ := List.forall_mem_cons.mp hcs
        have hstep : (⟨.number place done, b⟩ : Cursor).step (.char q d) =
            ⟨.number place (d :: done), b⟩ := by
          simp [step, Lexeme.Reading.step, hd]
        show ((⟨.number place done, b⟩ : Cursor).step (.char q d)).along (q.advance d) cs = _
        rw [hstep, ih hcs, List.reverse_cons, List.append_assoc]
        rfl
  have hfirst : (⟨.between, b⟩ : Cursor).step (.char place c) = ⟨.number place [c], b⟩ := by
    obtain ⟨hfiller, hslash, hquote, hmark⟩ := Lexeme.isFiller_of_isNumberStart hc
    simp [step, Lexeme.Reading.step, Lexeme.Reading.fresh, Lexeme.Reading.start, hfiller, hslash,
      hquote, hmark, hc]
  show (((⟨.between, b⟩ : Cursor).step (.char place c)).along (place.advance c) cs).Comes _
  rw [hfirst, hdigits]
  refine ⟨?_, fun next hnext d hd => (hnext d hd).1⟩
  simp [step, Lexeme.Reading.step, Lexeme.Reading.complete, Lexeme.Reading.fresh]

end Draft.Cursor

/-! ## Values that are read back -/

/-- Whether a node is a value that is written out: it is whole and without directives, and no object
in it has a member twice. -/
structure Node.Says (node : Node) (v : Json) : Prop where
  whole : node.isBroken = false
  demands : node.demands = []
  read : ∀ look, node.read look = v
  distinct : ∀ look, node.Distinct look

/-- Whether elements are some earlier ones and written items behind them. -/
structure Elements.Adds (earlier later : Elements) (items : List Json) : Prop where
  demands : later.demands = earlier.demands
  read : ∀ look, later.read look = earlier.read look ++ items
  distinct : ∀ look, earlier.Distinct look → later.Distinct look

/-- Whether members are some earlier ones and written members behind them. -/
structure Members.Adds (earlier later : Members) (members : List (String × Json)) : Prop where
  demands : later.demands = earlier.demands
  read : ∀ look, later.read look =
    members.foldl (fun table m => Assoc.insert m.1 m.2 table) (earlier.read look)
  names : ∀ look, later.names look = earlier.names look ++ Assoc.keys members
  distinct : ∀ look, earlier.Distinct look → later.Distinct look

theorem Node.says_scalar (v : Json) : (Node.scalar v).Says v :=
  ⟨rfl, rfl, fun _ => rfl, fun _ => trivial⟩

theorem Piece.demands_chars (chars : List Char) : Piece.demands (chars.map .char) = [] := by
  induction chars with
  | nil => rfl
  | cons c chars ih => exact ih

theorem Node.says_text (text : String) :
    (Node.text (text.toList.map .char)).Says (.string text) where
  whole := rfl
  demands := Piece.demands_chars text.toList
  read look := by rw [Node.read, Draft.Builder.read_chars, String.ofList_toList]
  distinct _ := trivial

theorem Elements.Adds.array {later : Elements} {items : List Json}
    (h : Elements.none.Adds later items) : (Node.array later).Says (.array items) where
  whole := rfl
  demands := h.demands
  read look := by
    rw [Node.read, h.read]
    rfl
  distinct look := h.distinct look trivial

theorem Members.Adds.object {later : Members} {members : List (String × Json)}
    (hkeys : (Assoc.keys members).Nodup) (h : Members.none.Adds later members) :
    (Node.object later).Says (.object members) where
  whole := rfl
  demands := h.demands
  read look := by
    rw [Node.read, h.read]
    exact congrArg Json.object (Assoc.ofList_of_nodup hkeys)
  distinct look := by
    refine ⟨?_, h.distinct look trivial⟩
    rw [h.names]
    exact hkeys

theorem Elements.adds_nil (earlier : Elements) : earlier.Adds earlier [] :=
  ⟨rfl, fun _ => (List.append_nil _).symm, fun _ h => h⟩

theorem Elements.Adds.add {earlier later : Elements} {items : List Json} {v : Json} {node : Node}
    (hnode : node.Says v) (place : Location) (h : (earlier.add place node).Adds later items) :
    earlier.Adds later (v :: items) where
  demands := by rw [h.demands, Elements.demands, hnode.demands, List.append_nil]
  read look := by
    rw [h.read, Elements.read, hnode.whole, hnode.read]
    exact List.append_assoc _ [v] items
  distinct look hearlier := h.distinct look ⟨hearlier, hnode.distinct look⟩

theorem Members.adds_nil (earlier : Members) : earlier.Adds earlier [] :=
  ⟨rfl, fun _ => rfl, fun _ => (List.append_nil _).symm, fun _ h => h⟩

theorem Members.Adds.add {earlier later : Members} {members : List (String × Json)} {v : Json}
    {node : Node} (hnode : node.Says v) (place : Location) (name : String)
    (h : (earlier.add place (name.toList.map .char) node).Adds later members) :
    earlier.Adds later ((name, v) :: members) where
  demands := by
    rw [h.demands, Members.demands, Piece.demands_chars, hnode.demands, List.append_nil,
      List.append_nil]
  read look := by
    rw [h.read, Members.read, hnode.whole, hnode.read, Draft.Builder.read_chars,
      String.ofList_toList]
    rfl
  names look := by
    rw [h.names, Members.names, hnode.whole, Draft.Builder.read_chars, String.ofList_toList]
    exact List.append_assoc _ [name] _
  distinct look hearlier := h.distinct look ⟨hearlier, hnode.distinct look⟩

/-! ### The induction -/

namespace Draft.Builder

/-- Whether a builder takes a string for the key of a member. -/
def TakesKey (b : Builder) (outer : Hole) (start : Location) (earlier : Members) : Prop :=
  ∀ place key, b.step ⟨place, .text key⟩ = .colon outer start earlier place key

end Draft.Builder

open Draft (Builder Hole Cursor)

variable {b : Builder} {hole outer : Hole} {start : Location}

theorem comes_word {word : List Char} {v : Json} (hb : b.Awaits hole) (h : Grammar.Word word v)
    (place : Location) : ∃ node, node.Says v ∧
      ((⟨.between, b⟩ : Cursor).along place word).Comes (hole.fill place node) := by
  refine ⟨_, Node.says_scalar v, ?_⟩
  have hcomes := Cursor.comes_word (b := b) h place
  rwa [hb place (.word word) trivial, Builder.takeValue_word h] at hcomes

theorem comes_number {n : Json.Number} (hb : b.Awaits hole) (h : n.Fits) (place : Location) :
    ∃ node, node.Says (.number n) ∧
      ((⟨.between, b⟩ : Cursor).along place n.text).Comes (hole.fill place node) := by
  obtain ⟨⟨c, cs, htext, hc⟩, hcs⟩ := Json.number_text h.canonical
  have hread := Json.Number.ofText?_text h
  rw [htext] at hcs hread ⊢
  have hcomes := Cursor.comes_number (b := b) hc (List.forall_mem_cons.mp hcs).2 place
  rw [hb place (.number _) trivial] at hcomes
  simp only [Builder.takeValue, hread] at hcomes
  exact ⟨_, Node.says_scalar _, hcomes⟩

theorem comes_array {items : List Json} (hb : b.Awaits hole) (place : Location)
    (h : items ≠ [] → ∃ later, Elements.none.Adds later items ∧
      ((⟨.between, .element hole place .none⟩ : Cursor).along (place.advance '[')
        (Json.compactItems items)).Comes (.afterElement hole place later)) :
    ∃ node, node.Says (.array items) ∧ ((⟨.between, b⟩ : Cursor).along place
      (Json.array items).compactText).Comes (hole.fill place node) := by
  have hopen : (⟨.between, b⟩ : Cursor).step (.char place '[') =
      ⟨.between, .element hole place .none⟩ := by
    rw [(Cursor.comes_between b).step_mark rfl, hb place (.mark '[') (Or.inl rfl)]
    rfl
  by_cases hitems : items = []
  · subst hitems
    refine ⟨_, (Elements.adds_nil .none).array, ?_⟩
    show (((⟨.between, b⟩ : Cursor).step (.char place '[')).step (.char _ ']')).Comes _
    rw [hopen]
    exact Cursor.comes_between _
  · obtain ⟨later, hlater, hcomes⟩ := h hitems
    refine ⟨_, hlater.array, ?_⟩
    show (((⟨.between, b⟩ : Cursor).step (.char place '[')).along _
      (Json.compactItems items ++ [']'])).Comes _
    rw [hopen, Cursor.along_append]
    show (Cursor.step _ (.char _ ']')).Comes _
    rw [hcomes.step_mark rfl]
    exact Cursor.comes_between _

theorem comes_object {members : List (String × Json)} (hkeys : (Assoc.keys members).Nodup)
    (hb : b.Awaits hole) (place : Location)
    (h : members ≠ [] → ∃ later, Members.none.Adds later members ∧
      ((⟨.between, .member hole place .none⟩ : Cursor).along (place.advance '\x7b')
        (Json.compactMembers members)).Comes (.afterMember hole place later)) :
    ∃ node, node.Says (.object members) ∧ ((⟨.between, b⟩ : Cursor).along place
      (Json.object members).compactText).Comes (hole.fill place node) := by
  have hopen : (⟨.between, b⟩ : Cursor).step (.char place '\x7b') =
      ⟨.between, .member hole place .none⟩ := by
    rw [(Cursor.comes_between b).step_mark rfl, hb place (.mark '\x7b') (Or.inr rfl)]
    rfl
  by_cases hmembers : members = []
  · subst hmembers
    refine ⟨_, (Members.adds_nil .none).object hkeys, ?_⟩
    show (((⟨.between, b⟩ : Cursor).step (.char place '\x7b')).step (.char _ '\x7d')).Comes _
    rw [hopen]
    exact Cursor.comes_between _
  · obtain ⟨later, hlater, hcomes⟩ := h hmembers
    refine ⟨_, hlater.object hkeys, ?_⟩
    show (((⟨.between, b⟩ : Cursor).step (.char place '\x7b')).along _
      (Json.compactMembers members ++ ['\x7d'])).Comes _
    rw [hopen, Cursor.along_append]
    show (Cursor.step _ (.char _ '\x7d')).Comes _
    rw [hcomes.step_mark rfl]
    exact Cursor.comes_between _

/-- A member's text, given what comes of the text of its value. -/
theorem comes_member {earlier : Members} {name : String} {v : Json} {text : List Char}
    (hb : b.TakesKey outer start earlier) (place : Location)
    (h : ∀ {b hole}, b.Awaits hole → ∀ place, ∃ node, node.Says v ∧
      ((⟨.between, b⟩ : Cursor).along place text).Comes (hole.fill place node)) :
    ∃ p node, node.Says v ∧ ((⟨.between, b⟩ : Cursor).along place
      (Json.quote name.toList ++ ':' :: text)).Comes
        (.afterMember outer start (earlier.add p (name.toList.map .char) node)) := by
  rw [Cursor.along_append, Cursor.along_quote, hb]
  generalize place.advanceOver (Json.quote name.toList) = q
  obtain ⟨node, hnode, hcomes⟩ := h (Builder.awaits_memberValue outer start earlier place
    (name.toList.map .char)) (q.advance ':')
  exact ⟨place, node, hnode, hcomes⟩

mutual

/-- Where a value is awaited, its text comes to the value. -/
theorem comes_value : (v : Json) → v.Writable → ∀ {b hole}, b.Awaits hole → ∀ place,
    ∃ node, node.Says v ∧
      ((⟨.between, b⟩ : Cursor).along place v.compactText).Comes (hole.fill place node)
  | .null, _, _, _, hb, place => comes_word hb .null place
  | .bool true, _, _, _, hb, place => comes_word hb .true place
  | .bool false, _, _, _, hb, place => comes_word hb .false place
  | .number _, h, _, _, hb, place => comes_number hb h place
  | .string text, _, b, hole, hb, place => by
      refine ⟨_, Node.says_text text, ?_⟩
      rw [Json.compactText, Cursor.along_quote, hb place (.text _) trivial]
      exact Cursor.comes_between _
  | .array items, h, b, hole, hb, place =>
      comes_array hb place fun hne => comes_items items hne h hole place .none _
  | .object members, h, b, hole, hb, place =>
      comes_object h.1 hb place fun hne =>
        comes_members members hne h.2 (fun _ _ => rfl) (place.advance '\x7b')

theorem comes_items : (items : List Json) → items ≠ [] → Json.WritableItems items →
    ∀ (outer : Hole) (start : Location) (earlier : Elements) (place : Location),
      ∃ later, earlier.Adds later items ∧
        ((⟨.between, .element outer start earlier⟩ : Cursor).along place
          (Json.compactItems items)).Comes (.afterElement outer start later)
  | [], hne, _, _, _, _, _ => absurd rfl hne
  | [item], _, h, outer, start, earlier, place => by
      obtain ⟨node, hnode, hcomes⟩ :=
        comes_value item h.1 (Builder.awaits_element outer start earlier) place
      exact ⟨_, (Elements.adds_nil _).add hnode place, hcomes⟩
  | item :: next :: rest, _, h, outer, start, earlier, place => by
      obtain ⟨node, hnode, hcomes⟩ :=
        comes_value item h.1 (Builder.awaits_element outer start earlier) place
      obtain ⟨later, hlater, hrest⟩ := comes_items (next :: rest) (List.cons_ne_nil _ _) h.2 outer
        start (earlier.add place node) ((place.advanceOver item.compactText).advance ',')
      refine ⟨later, hlater.add hnode place, ?_⟩
      show (Cursor.along _ place
        (item.compactText ++ ',' :: Json.compactItems (next :: rest))).Comes _
      rw [Cursor.along_append]
      show (Cursor.along (Cursor.step _ (.char _ ',')) _ _).Comes _
      rw [hcomes.step_mark rfl]
      exact hrest

theorem comes_members : (members : List (String × Json)) → members ≠ [] →
    Json.WritableMembers members → ∀ {b outer start earlier},
      b.TakesKey outer start earlier → ∀ place, ∃ later, earlier.Adds later members ∧
        ((⟨.between, b⟩ : Cursor).along place (Json.compactMembers members)).Comes
          (.afterMember outer start later)
  | [], hne, _, _, _, _, _, _, _ => absurd rfl hne
  | [(name, value)], _, h, b, outer, start, earlier, hb, place => by
      obtain ⟨p, node, hnode, hcomes⟩ := comes_member hb place (comes_value value h.2.1)
      exact ⟨_, (Members.adds_nil _).add hnode p name, hcomes⟩
  | (name, value) :: next :: rest, _, h, b, outer, start, earlier, hb, place => by
      obtain ⟨p, node, hnode, hcomes⟩ := comes_member hb place (comes_value value h.2.1)
      obtain ⟨later, hlater, hrest⟩ := comes_members (next :: rest) (List.cons_ne_nil _ _) h.2.2
        (b := .member outer start (earlier.add p (name.toList.map .char) node)) (fun _ _ => rfl)
        ((place.advanceOver (Json.quote name.toList ++ ':' :: value.compactText)).advance ',')
      refine ⟨later, hlater.add hnode p name, ?_⟩
      show (Cursor.along _ place (Json.quote name.toList ++ ':' :: value.compactText ++
        ',' :: Json.compactMembers (next :: rest))).Comes _
      rw [Cursor.along_append]
      show (Cursor.along (Cursor.step _ (.char _ ',')) _ _).Comes _
      rw [hcomes.step_mark rfl]
      exact hrest

end

end Stencil
