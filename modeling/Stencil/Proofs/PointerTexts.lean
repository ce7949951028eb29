import Mathlib.Data.List.Infix
import Stencil.Pointer

/-!
# Pointers as texts

Outside, a pointer is its text, and what is done with pointers could be done on texts: going
down to a child writes a slash and the escaped token behind the text, hanging one document
under another writes one text behind the other, and going up cuts the text at its last slash.
That this comes to the same as working on lists of tokens rests on two facts. An escaped token
has no slash in it, so the slashes of a text are where its tokens begin; and escaping can be
undone, so no two tokens are written alike.

Main statement: `texts_are_token_lists`. The texts that are accepted are exactly those of token
lists, each of one list only, and each operation on lists is the one on texts.
-/

namespace Stencil

namespace Text

/-- A text with `image` in the place of each occurrence of a character. -/
def replace (c : Char) (image text : List Char) : List Char :=
  text.flatMap fun d => if d = c then image else [d]

/-- What stands before the last occurrence of a character, if there is one. -/
def beforeLast? (c : Char) : List Char → Option (List Char)
  | [] => none
  | d :: rest =>
      match beforeLast? c rest with
      | some front => some (d :: front)
      | none => if d = c then some [] else none

theorem beforeLast?_of_notMem {c : Char} {text : List Char} (h : c ∉ text) :
    beforeLast? c text = none := by
  induction text with
  | nil => rfl
  | cons d rest ih =>
      rw [List.mem_cons, not_or] at h
      rw [beforeLast?, ih h.2]
      exact if_neg (Ne.symm h.1)

theorem beforeLast?_append {c : Char} {behind : List Char} (h : c ∉ behind) (front : List Char) :
    beforeLast? c (front ++ c :: behind) = some front := by
  induction front with
  | nil =>
      rw [List.nil_append, beforeLast?, beforeLast?_of_notMem h]
      exact if_pos rfl
  | cons d front ih => rw [List.cons_append, beforeLast?, ih]

end Text

namespace Pointer

variable {p q : Pointer} {s : String}

/-! ## Escaping -/

section Equations

variable {c : Char} {rest : List Char}

@[simp] theorem escape_nil : escape [] = [] := rfl

@[simp] theorem escape_tilde : escape ('~' :: rest) = '~' :: '0' :: escape rest := rfl

@[simp] theorem escape_slash : escape ('/' :: rest) = '~' :: '1' :: escape rest := rfl

theorem escape_cons (htilde : c ≠ '~') (hslash : c ≠ '/') :
    escape (c :: rest) = c :: escape rest := escape.eq_4 c rest htilde hslash

@[simp] theorem encode_nil : encode [] = [] := rfl

@[simp] theorem encode_cons (token : String) (rest : List String) :
    encode (token :: rest) = '/' :: (escape token.toList ++ encode rest) := rfl

@[simp] theorem decode_slash : decode ('/' :: rest) = (decode rest).map ([] :: ·) := rfl

@[simp] theorem decode_tilde_zero :
    decode ('~' :: '0' :: rest) = (decode rest).map (extendFirst '~') := rfl

@[simp] theorem decode_tilde_one :
    decode ('~' :: '1' :: rest) = (decode rest).map (extendFirst '/') := rfl

theorem decode_cons (htilde : c ≠ '~') (hslash : c ≠ '/') :
    decode (c :: rest) = (decode rest).map (extendFirst c) := by
  rw [decode]
  · exact hslash
  all_goals
    intros
    contradiction

end Equations

/-- Escaping is replacing twice, the tildes first: the other way round, the tildes that the slashes
leave would be escaped again. -/
theorem escape_eq_replace (chars : List Char) :
    escape chars = Text.replace '/' ['~', '1'] (Text.replace '~' ['~', '0'] chars) := by
  induction chars with
  | nil => rfl
  | cons c chars ih =>
      simp only [Text.replace] at ih ⊢
      by_cases htilde : c = '~'
      · subst htilde
        simp [ih]
      by_cases hslash : c = '/'
      · subst hslash
        simp [ih]
      · simp [escape_cons htilde hslash, ih, htilde, hslash]

theorem slash_notMem_escape (chars : List Char) : '/' ∉ escape chars := by
  induction chars with
  | nil => exact List.not_mem_nil
  | cons c chars ih =>
      by_cases htilde : c = '~'
      · subst htilde
        simp [ih]
      by_cases hslash : c = '/'
      · subst hslash
        simp [ih]
      · simp [escape_cons htilde hslash, ih, Ne.symm hslash]

/-- What holds neither a tilde nor a slash is written as it is. -/
theorem escape_eq_self {chars : List Char} (htilde : '~' ∉ chars) (hslash : '/' ∉ chars) :
    escape chars = chars := by
  induction chars with
  | nil => rfl
  | cons c chars ih =>
      rw [List.mem_cons, not_or] at htilde hslash
      rw [escape_cons (Ne.symm htilde.1) (Ne.symm hslash.1), ih htilde.2 hslash.2]

/-- The characters of a token are taken back, in front of what is decoded behind them. -/
theorem decode_escape (chars : List Char) {tail first : List Char} {others : List (List Char)}
    (h : decode tail = some (first :: others)) :
    decode (escape chars ++ tail) = some ((chars ++ first) :: others) := by
  induction chars with
  | nil => exact h
  | cons c chars ih =>
      by_cases htilde : c = '~'
      · subst htilde
        simp [ih, extendFirst]
      by_cases hslash : c = '/'
      · subst hslash
        simp [ih, extendFirst]
      · simp [escape_cons htilde hslash, decode_cons htilde hslash, ih, extendFirst]

theorem decode_encode (token : String) (rest : List String) :
    decode (escape token.toList ++ encode rest) = some ((token :: rest).map String.toList) := by
  induction rest generalizing token with
  | nil => simpa using decode_escape token.toList (show decode [] = some [[]] from rfl)
  | cons next rest ih =>
      have htail :
          decode (encode (next :: rest)) = some ([] :: (next :: rest).map String.toList) := by
        rw [encode_cons, decode_slash, ih]
        rfl
      simpa using decode_escape token.toList htail

/-- What is decoded was written by escaping: there is a first token, and the others follow it. -/
theorem exists_of_decode {text : List Char} {tokens : List (List Char)}
    (h : decode text = some tokens) :
    ∃ first others, tokens = first :: others ∧
      text = escape first ++ encode (others.map String.ofList) := by
  fun_induction decode text generalizing tokens with
  | case1 =>
      cases h
      exact ⟨[], [], rfl, rfl⟩
  | case2 rest ih =>
      obtain ⟨later, hlater, rfl⟩ := Option.map_eq_some_iff.mp h
      obtain ⟨first, others, rfl, rfl⟩ := ih hlater
      exact ⟨[], first :: others, rfl, by simp⟩
  | case3 rest ih | case4 rest ih =>
      obtain ⟨later, hlater, rfl⟩ := Option.map_eq_some_iff.mp h
      obtain ⟨first, others, rfl, rfl⟩ := ih hlater
      exact ⟨_ :: first, others, rfl, rfl⟩
  | case5 => cases h
  | case6 c rest hslash _ _ htilde ih =>
      obtain ⟨later, hlater, rfl⟩ := Option.map_eq_some_iff.mp h
      obtain ⟨first, others, rfl, rfl⟩ := ih hlater
      exact ⟨c :: first, others, rfl, by rw [escape_cons htilde hslash]; rfl⟩

/-- Whether each tilde of a text begins an escape. -/
def Escapes (text : List Char) : Prop :=
  ∀ before after, text = before ++ '~' :: after →
    after.head? = some '0' ∨ after.head? = some '1'

theorem escapes_cons {c : Char} {text : List Char} : Escapes (c :: text) ↔
    (c = '~' → text.head? = some '0' ∨ text.head? = some '1') ∧ Escapes text := by
  constructor
  · intro h
    exact ⟨fun hc => h [] text (by rw [hc]; rfl),
      fun before after htext => h (c :: before) after (congrArg (c :: ·) htext)⟩
  · rintro ⟨hhere, hlater⟩ before after htext
    cases before with
    | nil =>
        obtain ⟨rfl, rfl⟩ := List.cons.inj htext
        exact hhere rfl
    | cons d before => exact hlater before after (List.cons.inj htext).2

theorem isSome_decode_iff {text : List Char} : (decode text).isSome ↔ Escapes text := by
  fun_induction decode text with
  | case1 => exact iff_of_true rfl fun before after h => by simp at h
  | case2 rest ih => simp [escapes_cons, ih]
  | case3 rest ih | case4 rest ih => simp [escapes_cons, ih]
  | case5 rest hzero hone =>
      refine iff_of_false Bool.false_ne_true fun h => ?_
      rcases (escapes_cons.mp h).1 rfl with hhead | hhead
      · obtain ⟨later, rfl⟩ := List.head?_eq_some_iff.mp hhead
        exact hzero later rfl
      · obtain ⟨later, rfl⟩ := List.head?_eq_some_iff.mp hhead
        exact hone later rfl
  | case6 c rest _ _ _ htilde ih =>
      have hc : (c = '~') = False := eq_false htilde
      simp [escapes_cons, ih, hc]

/-! ## Texts -/

theorem encode_append (first second : List String) :
    encode (first ++ second) = encode first ++ encode second := by
  induction first with
  | nil => rfl
  | cons token first ih => simp [ih]

/-- The text of a pointer is read as that pointer. -/
theorem parse?_text (p : Pointer) : parse? p.text = .ok p := by
  obtain ⟨tokens⟩ := p
  cases tokens with
  | nil => rfl
  | cons token rest =>
      simp [parse?, text, decode_encode, Function.comp_def]

theorem text_injective {p q : Pointer} (h : p.text = q.text) : p = q := by
  have hparse := congrArg parse? h
  rw [parse?_text, parse?_text] at hparse
  exact Except.ok.inj hparse

/-- What is read is the pointer with that text, and nothing else is. -/
theorem parse?_eq_ok_iff : parse? s = .ok p ↔ p.text = s := by
  refine ⟨fun h => ?_, fun h => h ▸ parse?_text p⟩
  unfold parse? at h
  split at h
  · next hempty =>
      cases h
      exact (String.toList_eq_nil_iff.mp hempty).symm
  · next rest hrest =>
      split at h
      · next tokens htokens =>
          cases h
          obtain ⟨first, others, rfl, rfl⟩ := exists_of_decode htokens
          rw [text, ← String.toList_inj, hrest]
          simp
      · cases h
  · cases h

/-- The texts that are read: the empty one, and those with a slash in front and escapes behind. -/
theorem exists_parse?_iff : (∃ p, parse? s = .ok p) ↔
    s = "" ∨ ∃ rest, s.toList = '/' :: rest ∧ Escapes rest := by
  unfold parse?
  split
  · next hempty =>
      exact iff_of_true ⟨root, rfl⟩ (Or.inl (String.toList_eq_nil_iff.mp hempty))
  · next rest hrest =>
      have hne : s ≠ "" := by
        rintro rfl
        cases hrest
      simp only [hrest, hne, List.cons.injEq, true_and, false_or, exists_eq_left',
        ← isSome_decode_iff]
      cases decode rest <;> simp
  · next hempty hslash =>
      refine iff_of_false (fun ⟨_, h⟩ => by cases h) ?_
      rintro (rfl | ⟨rest, hrest, -⟩)
      · exact hempty rfl
      · exact hslash rest hrest

theorem text_key (p : Pointer) (name : String) :
    (p.key name).text = p.text ++ String.ofList ('/' :: escape name.toList) := by
  simp [text, key, encode_append]

/-- Decimal digits need no escaping. -/
theorem text_index (p : Pointer) (n : Nat) : (p.index n).text = p.text ++ "/" ++ toString n := by
  have hdigits : (toString n).toList = Nat.toDigits 10 n := by simp
  have hdigit {c : Char} (hc : c ∈ (toString n).toList) : c.isDigit = true :=
    Nat.isDigit_of_mem_toDigits (by decide) (by decide) (hdigits ▸ hc)
  have hescape : escape (toString n).toList = (toString n).toList :=
    escape_eq_self (fun h => absurd (hdigit h) (by decide)) fun h => absurd (hdigit h) (by decide)
  rw [index, text_key, hescape, ← String.toList_inj]
  simp

theorem text_join (p q : Pointer) : (p.join q).text = p.text ++ q.text := by
  simp [text, join, encode_append]

/-- Going up is cutting the text at its last slash. -/
theorem beforeLast?_text (p : Pointer) :
    Text.beforeLast? '/' p.text.toList = p.parent?.map fun q => q.text.toList := by
  obtain ⟨tokens⟩ := p
  obtain rfl | ⟨front, token, rfl⟩ := tokens.eq_nil_or_concat'
  · rfl
  · have hparent : parent? ⟨front ++ [token]⟩ = some ⟨front⟩ := by simp [parent?]
    simpa [hparent, text, encode_append] using
      Text.beforeLast?_append (slash_notMem_escape token.toList) (encode front)

theorem ancestors_eq (p : Pointer) : p.ancestors = p.tokens.inits.reverse.map mk := by
  have hinits : p.tokens.inits =
      (List.range (p.tokens.length + 1)).map fun n => p.tokens.take n :=
    List.ext_getElem (by simp) fun n _ _ => by simp [List.getElem_inits]
  simp [hinits, ancestors]

/-- The ancestors are what going up again and again comes to. -/
theorem ancestors_eq_cons (p : Pointer) :
    p.ancestors = p :: (p.parent?.map ancestors).getD [] := by
  obtain ⟨tokens⟩ := p
  obtain rfl | ⟨front, token, rfl⟩ := tokens.eq_nil_or_concat'
  · rfl
  · have hparent : parent? ⟨front ++ [token]⟩ = some ⟨front⟩ := by simp [parent?]
    have hinits : (front ++ [token]).inits = front.inits ++ [front ++ [token]] := by
      simp [List.inits_append]
    rw [hparent, ancestors_eq, hinits, List.reverse_append, List.reverse_singleton,
      List.singleton_append, List.map_cons, Option.map_some, Option.getD_some, ancestors_eq]

/-! ## Token lists -/

/-- The pointer that is come to from the root by going down to children with the given names. -/
def ofNames (names : List String) : Pointer := names.foldl key root

theorem ofNames_eq (names : List String) : ofNames names = ⟨names⟩ := by
  have hfold (p : Pointer) : names.foldl key p = ⟨p.tokens ++ names⟩ := by
    induction names generalizing p with
    | nil => simp
    | cons name names ih => simp [ih, key]
  exact hfold root

/-- Pointers are lists of names, one text for each list. -/
theorem texts_are_token_lists :
    -- A child's text is the text, a slash and the name with tildes and then slashes replaced.
    (∀ (p : Pointer) (name : String) (n : Nat),
      (p.key name).text.toList = p.text.toList ++ '/' ::
        Text.replace '/' ['~', '1'] (Text.replace '~' ['~', '0'] name.toList) ∧
      p.index n = p.key (toString n) ∧ (p.index n).text = p.text ++ "/" ++ toString n) ∧
    -- The texts that are read are those of the lists, each of one list, and nothing is changed.
    (Function.Injective fun names => (ofNames names).text) ∧
    (∀ s, (∃ p, parse? s = .ok p) ↔ ∃ names, s = (ofNames names).text) ∧
    (∀ s, (∃ p, parse? s = .ok p) ↔
      s = "" ∨ ∃ rest, s.toList = '/' :: rest ∧ Escapes rest) ∧
    (∀ s p, parse? s = .ok p ↔ p.text = s) ∧
    -- Joining is appending, of the lists and of the texts.
    (∀ names others, (ofNames names).join (ofNames others) = ofNames (names ++ others)) ∧
    (∀ p q : Pointer, (p.join q).text = p.text ++ q.text) ∧
    -- The parent is the list without its last name, and the text before its last slash.
    (∀ names name, (ofNames (names ++ [name])).parent? = some (ofNames names)) ∧
    root.parent? = none ∧
    (∀ p : Pointer, Text.beforeLast? '/' p.text.toList = p.parent?.map fun q => q.text.toList) ∧
    -- The ancestors are the beginnings of the list, the longest first, as going up comes to them.
    (∀ names, (ofNames names).ancestors = names.inits.reverse.map ofNames) ∧
    (∀ p : Pointer, p.ancestors = p :: (p.parent?.map ancestors).getD []) := by
  refine ⟨fun p name n => ⟨?_, rfl, text_index p n⟩, ?_, fun s => ?_, fun s => exists_parse?_iff,
    fun s p => parse?_eq_ok_iff, fun names others => ?_, text_join, fun names name => ?_, rfl,
    beforeLast?_text, fun names => ?_, ancestors_eq_cons⟩
  · rw [text_key, escape_eq_replace, String.toList_append, String.toList_ofList]
  · intro names others h
    have hsame := text_injective h
    rw [ofNames_eq, ofNames_eq] at hsame
    exact congrArg tokens hsame
  · constructor
    · rintro ⟨p, hp⟩
      exact ⟨p.tokens, by rw [ofNames_eq, parse?_eq_ok_iff.mp hp]⟩
    · rintro ⟨names, rfl⟩
      exact ⟨ofNames names, parse?_text _⟩
  · simp only [ofNames_eq, join]
  · simp [ofNames_eq, parent?]
  · rw [ancestors_eq, ofNames_eq]
    exact List.map_congr_left fun front _ => (ofNames_eq front).symm

end Pointer

end Stencil
