import Stencil.Cache
import Stencil.Proofs.PrintedValues

/-!
# What a cache key tells

The bytes of a key are the root's path, its text and the fingerprint of the options, with a NUL
between them. A fingerprint is itself put together from texts with names between them, and two
of those texts are free: the base path and the extension. A base path can contain what follows
the base path in a fingerprint, and an extension what precedes the extension, and then two
different options have the same fingerprint (`Options.Shifted`).

Where no NUL stands in the way, that is all that can happen (`keyBytes_eq_iff`). The default
values are the end of a fingerprint, and their compact text is recognized there. What is left
is cut at its semicolons: the flags contain none but those in front of their names, and the names
are different. The numbers among the default values have to be in the form that they are kept in,
as they are in options that are read (`Options.Read.canonical`).
-/

namespace Stencil

/-! ## Bytes -/

theorem loop_toList (bytes : ByteArray) (i : Nat) (done : List UInt8) :
    ByteArray.toList.loop bytes i done = done.reverse ++ bytes.data.toList.drop i := by
  induction i, done using ByteArray.toList.loop.induct bytes with
  | case1 i done hlt ih =>
      have hi : i < bytes.data.toList.length := by simpa using hlt
      have hget : bytes.get! i = bytes.data.toList[i] := by
        rw [ByteArray.get!, Array.getElem_toList]
        exact getElem!_pos bytes.data i (by simpa using hlt)
      rw [ByteArray.toList.loop, if_pos hlt, ih, List.drop_eq_getElem_cons hi, hget,
        List.reverse_cons, List.append_assoc, List.singleton_append]
  | case2 i done hge =>
      have hi : bytes.data.toList.length ≤ i := by simpa using hge
      rw [ByteArray.toList.loop, if_neg hge, List.drop_eq_nil_of_le hi, List.append_nil]

theorem utf8_eq (text : String) : Digest.utf8 text = text.toByteArray.data.toList := by
  rw [Digest.utf8, String.toUTF8, ByteArray.toList, loop_toList, List.reverse_nil, List.nil_append,
    List.drop_zero]

theorem utf8_append (a b : String) : Digest.utf8 (a ++ b) = Digest.utf8 a ++ Digest.utf8 b := by
  rw [utf8_eq, utf8_eq, utf8_eq, String.toByteArray_append, ByteArray.data_append,
    Array.toList_append]

theorem utf8_inj {a b : String} : Digest.utf8 a = Digest.utf8 b ↔ a = b := by
  rw [utf8_eq, utf8_eq, Array.toList_inj, ← ByteArray.ext_iff, String.toByteArray_inj]

/-- The bytes of a key as those of one text. -/
theorem keyBytes_eq (root : Path) (text : String) (options : Options) :
    Cache.keyBytes root text options =
      Digest.utf8 (root.text ++ "\x00" ++ text ++ "\x00" ++ options.fingerprint) := by
  have hnul : Digest.utf8 "\x00" = [0] := by
    rw [utf8_eq]
    rfl
  simp only [Cache.keyBytes, utf8_append, hnul, List.append_assoc, List.cons_append,
    List.nil_append]

/-! ## Texts cut at a separator -/

section Separators

variable {α : Type} {sep : α}

theorem eq_of_first_separator {s t u v : List α} (hs : sep ∉ s) (hu : sep ∉ u)
    (h : s ++ sep :: t = u ++ sep :: v) : s = u ∧ t = v := by
  obtain ⟨x, rfl, hx⟩ := Json.exists_append_of_notMem hs h
  cases x with
  | nil => simpa using hx
  | cons y ys =>
      cases hx
      exact absurd (List.mem_append_right s List.mem_cons_self) hu

theorem eq_of_last_separator {s t u v : List α} (ht : sep ∉ t) (hv : sep ∉ v)
    (h : s ++ sep :: t = u ++ sep :: v) : s = u ∧ t = v := by
  have hreverse : t.reverse ++ sep :: s.reverse = v.reverse ++ sep :: u.reverse := by
    simpa using congrArg List.reverse h
  obtain ⟨htv, hsu⟩ := eq_of_first_separator (by simpa using ht) (by simpa using hv) hreverse
  exact ⟨List.reverse_inj.mp hsu, List.reverse_inj.mp htv⟩

/-- Segments, each behind a separator, and an end. -/
def chain (sep : α) : List (List α) → List α → List α
  | [], last => last
  | segment :: rest, last => sep :: (segment ++ chain sep rest last)

/-- Where a segment that begins like none of a chain's segments is found in the chain, it is found
in the chain's end. -/
theorem exists_of_chain_eq {segments : List (List α)} {last segment rest t : List α}
    (hsep : ∀ s ∈ segments, sep ∉ s)
    (hother : ∀ s ∈ segments, ∀ x y, s ++ x ≠ segment ++ y)
    (h : chain sep segments last = t ++ sep :: (segment ++ rest)) :
    ∃ x, t = chain sep segments x ∧ last = x ++ sep :: (segment ++ rest) := by
  induction segments generalizing t with
  | nil => exact ⟨t, rfl, h⟩
  | cons s segments ih =>
      obtain ⟨hs, hsegments⟩ := List.forall_mem_cons.mp hsep
      obtain ⟨hfirst, hothers⟩ := List.forall_mem_cons.mp hother
      cases t with
      | nil =>
          rw [chain, List.nil_append, List.cons.injEq] at h
          exact absurd h.2 (hfirst _ _)
      | cons c t =>
          rw [chain, List.cons_append, List.cons.injEq] at h
          obtain ⟨rfl, h⟩ := h
          obtain ⟨t', rfl, ht'⟩ := Json.exists_append_of_notMem hs h
          obtain ⟨x, rfl, hx⟩ := ih hsegments hothers ht'
          exact ⟨x, rfl, hx⟩

end Separators

namespace Options

/-- The first flag with its name. -/
def firstSegment (o : Options) : String := "recursive=" ++ toString o.allowRecursiveImports

/-- The other flags, and the name of the extension. -/
def laterSegments (o : Options) : List String :=
  ["depth=" ++ toString o.maxImportDepth, "map=" ++ toString o.buildSourceMap, "ext="]

def segments (o : Options) : List (List Char) :=
  o.firstSegment.toList :: o.laterSegments.map String.toList

/-- What stands in a fingerprint between the base path and the extension. -/
def flags (o : Options) : String :=
  ";" ++ o.firstSegment ++ ";" ++ ("depth=" ++ toString o.maxImportDepth) ++
    ";" ++ ("map=" ++ toString o.buildSourceMap) ++ ";" ++ "ext="

/-- Whether a base path goes on into the flags and the extension, as the other options write
them, and has given up as much of its extension. -/
def Shifted (o p : Options) : Prop :=
  ∃ x : String, o.basePath.text = p.basePath.text ++ p.flags ++ x ∧
    p.templateExtension = x ++ o.flags ++ o.templateExtension ∧ o.defaultValues = p.defaultValues

theorem toList_flags_append (o : Options) (text : String) :
    (o.flags ++ text).toList = chain ';' o.segments text.toList := by
  have hsemicolon : ";".toList = [';'] := rfl
  simp only [flags, String.toList_append, hsemicolon, segments, laterSegments, firstSegment, chain,
    List.map_cons, List.map_nil, List.append_assoc, List.cons_append, List.nil_append]

theorem fingerprint_eq (o : Options) :
    o.fingerprint = "base=" ++ o.basePath.text ++ (o.flags ++ o.templateExtension) ++
      ";defaults=" ++ (Json.object o.defaultValues).compact := by
  have hrecursive : ";recursive=" = ";" ++ "recursive=" := by decide
  have hdepth : ";depth=" = ";" ++ "depth=" := by decide
  have hext : ";ext=" = ";" ++ "ext=" := by decide
  have hdefaults : ";defaults=" = ";" ++ "defaults=" := by decide
  have hstring (text : String) : toString text = text := rfl
  simp only [fingerprint, flags, firstSegment, hrecursive, hdepth, hext, hdefaults, hstring,
    String.append_assoc]

theorem toList_fingerprint (o : Options) :
    o.fingerprint.toList = ("base=".toList ++ (o.basePath.text.toList ++
      chain ';' o.segments o.templateExtension.toList)) ++
        ';' :: ("defaults=".toList ++ (Json.object o.defaultValues).compactText) := by
  rw [fingerprint_eq, String.toList_append, String.toList_append, String.toList_append,
    toList_flags_append, String.toList_append, Json.compact, String.toList_ofList]
  simp

/-- The letters of the flags, their values apart from digits. -/
def letters : List Char := "recursive=depth=map=ext=truefalse".toList

theorem notMem_segments (o : Options) {c : Char} (hdigit : c.isDigit = false)
    (hletters : c ∉ letters) : ∀ s ∈ o.segments, c ∉ s := by
  have hname {name : List Char} (h : name ⊆ letters) : c ∉ name := fun hc => hletters (h hc)
  have hdepth : c ∉ (toString o.maxImportDepth).toList := by
    rw [Nat.toString_eq_ofList_toDigits, String.toList_ofList]
    intro hc
    rw [isDigit_of_mem_toDigits _ c hc] at hdigit
    cases hdigit
  have hbool (b : Bool) : c ∉ (toString b).toList := by
    cases b <;> exact hname (by decide)
  simp only [segments, firstSegment, laterSegments, List.map_cons, List.map_nil,
    String.toList_append, List.forall_mem_cons, List.mem_append, not_or, List.not_mem_nil,
    false_implies, implies_true, and_true]
  exact ⟨⟨hname (by decide), hbool _⟩, ⟨hname (by decide), hdepth⟩, ⟨hname (by decide), hbool _⟩,
    hname (by decide)⟩

/-- No later segment begins as a first one does. -/
theorem later_ne_first (o p : Options) :
    ∀ s ∈ o.laterSegments.map String.toList, ∀ x y, s ++ x ≠ p.firstSegment.toList ++ y := by
  simp [laterSegments, firstSegment, String.toList_append]

theorem eq_of_segments {o p : Options} {a b : List Char}
    (h : chain ';' o.segments a = chain ';' p.segments b) :
    o.allowRecursiveImports = p.allowRecursiveImports ∧ o.maxImportDepth = p.maxImportDepth ∧
      o.buildSourceMap = p.buildSourceMap ∧ a = b := by
  have hbool {b b' : Bool} (h : (toString b).toList = (toString b').toList) : b = b' := by
    cases b <;> cases b' <;> first | rfl | exact absurd h (by decide)
  have hnat {n n' : Nat} (h : (toString n).toList = (toString n').toList) : n = n' := by
    rw [Nat.toString_eq_ofList_toDigits, Nat.toString_eq_ofList_toDigits, String.toList_ofList,
      String.toList_ofList] at h
    rw [← Nat.ofDigitChars_ten_toDigits (n := n), h, Nat.ofDigitChars_ten_toDigits]
  have hfree (o : Options) := o.notMem_segments (c := ';') rfl (by decide)
  simp only [segments, laterSegments, firstSegment, List.map_cons, List.map_nil,
    String.toList_append, List.forall_mem_cons] at hfree
  simp only [segments, laterSegments, firstSegment, List.map_cons, List.map_nil,
    String.toList_append, chain, List.cons.injEq, true_and] at h
  obtain ⟨hrecursive, h⟩ := eq_of_first_separator (hfree o).1 (hfree p).1 h
  obtain ⟨hdepth, h⟩ := eq_of_first_separator (hfree o).2.1 (hfree p).2.1 h
  obtain ⟨hmap, h⟩ := eq_of_first_separator (hfree o).2.2.1 (hfree p).2.2.1 h
  exact ⟨hbool (List.append_cancel_left hrecursive), hnat (List.append_cancel_left hdepth),
    hbool (List.append_cancel_left hmap), List.append_cancel_left h⟩

/-- In the flags with something behind them, flags are found at the beginning or behind. -/
theorem overlap_of_segments {o p : Options} {a b t : List Char}
    (h : chain ';' o.segments a = t ++ chain ';' p.segments b) :
    t = [] ∨ ∃ x, t = chain ';' o.segments x ∧ a = x ++ chain ';' p.segments b := by
  cases t with
  | nil => exact Or.inl rfl
  | cons c t =>
      refine Or.inr ?_
      have hfree := o.notMem_segments (c := ';') rfl (by decide)
      rw [segments, List.forall_mem_cons] at hfree
      simp only [segments, chain, List.cons_append, List.cons.injEq] at h ⊢
      obtain ⟨rfl, h⟩ := h
      obtain ⟨t, rfl, ht⟩ := Json.exists_append_of_notMem hfree.1 h
      obtain ⟨x, rfl, hx⟩ := exists_of_chain_eq hfree.2 (later_ne_first o p) ht
      exact ⟨x, ⟨rfl, rfl⟩, hx⟩

/-- Two fingerprints are the same in three cases only. -/
theorem fingerprint_eq_iff {o p : Options} (ho : (Json.object o.defaultValues).Canonical)
    (hp : (Json.object p.defaultValues).Canonical) :
    o.fingerprint = p.fingerprint ↔ o = p ∨ o.Shifted p ∨ p.Shifted o := by
  have hshifted {o p : Options} (h : o.Shifted p) : o.fingerprint = p.fingerprint := by
    obtain ⟨x, hbase, hextension, hdefaults⟩ := h
    rw [fingerprint_eq, fingerprint_eq, hbase, hextension, hdefaults]
    simp only [String.append_assoc]
  constructor
  · intro h
    have hlist := congrArg String.toList h
    rw [toList_fingerprint, toList_fingerprint] at hlist
    obtain ⟨hfront, hvalues⟩ := Json.eq_of_append_quiet (Json.quiet_compactText _ ho)
      (Json.quiet_compactText _ hp) (by decide) (by decide) hlist
    have hdefaults : o.defaultValues = p.defaultValues :=
      Json.object.inj (Json.eq_of_compactText_eq ho hp hvalues)
    -- The longer base path is the other one, or goes on into its flags.
    have hlonger {o p : Options} {t : List Char} (hdefaults : o.defaultValues = p.defaultValues)
        (hbase : p.basePath.text.toList = o.basePath.text.toList ++ t)
        (h : chain ';' o.segments o.templateExtension.toList =
          t ++ chain ';' p.segments p.templateExtension.toList) : o = p ∨ p.Shifted o := by
      rcases overlap_of_segments h with rfl | ⟨x, rfl, hx⟩
      · obtain ⟨hrecursive, hdepth, hmap, hextension⟩ := eq_of_segments h
        rw [List.append_nil, String.toList_inj] at hbase
        rw [String.toList_inj] at hextension
        obtain ⟨_, _, ⟨_⟩, _, _, _⟩ := o
        obtain ⟨_, _, ⟨_⟩, _, _, _⟩ := p
        cases hrecursive
        cases hdepth
        cases hmap
        cases hextension
        cases hbase
        cases hdefaults
        exact Or.inl rfl
      · refine Or.inr ⟨String.ofList x, ?_, ?_, hdefaults.symm⟩
        · rw [← String.toList_inj, hbase, String.append_assoc, String.toList_append,
            toList_flags_append, String.toList_ofList]
        · rw [← String.toList_inj, hx, String.append_assoc, String.toList_append,
            toList_flags_append, String.toList_ofList]
    rcases List.append_eq_append_iff.mp (List.append_cancel_left hfront) with
      ⟨t, hbase, ht⟩ | ⟨t, hbase, ht⟩
    · exact (hlonger hdefaults hbase ht).imp_right Or.inr
    · exact (hlonger hdefaults.symm hbase ht).imp Eq.symm Or.inl
  · rintro (rfl | h | h)
    · rfl
    · exact hshifted h
    · exact (hshifted h).symm

/-- Whether options are read from a text. -/
def Read (o : Options) : Prop :=
  ∃ nesting text value base, Json.ofText? nesting text = some value ∧ ofJson? base value = some o

theorem canonical_sortByName {members : List (String × Json)} (h : Json.CanonicalMembers members) :
    (Json.object (sortByName members)).Canonical := by
  refine Json.canonicalMembers_iff.mpr fun m hm => Json.canonicalMembers_iff.mp h m ?_
  rw [sortByName, List.mem_mergeSort] at hm
  exact Assoc.mem_of_mem_ofList hm

/-- The default values of options that are read are in the form that numbers are kept in. -/
theorem Read.canonical {o : Options} (h : o.Read) : (Json.object o.defaultValues).Canonical := by
  obtain ⟨nesting, text, value, base, htext, hvalue⟩ := h
  have hcanonical := Json.canonical_of_ofText? htext
  unfold ofJson? at hvalue
  split at hvalue
  · next members =>
      simp only [Option.bind_eq_bind, Option.bind_eq_some_iff] at hvalue
      obtain ⟨_, _, _, _, _, _, defaults, hdefaults, _, _, _, _, ho⟩ := hvalue
      cases ho
      unfold memberOr at hdefaults
      split at hdefaults
      · cases hdefaults
        trivial
      · next member hmember =>
          have hmember := Json.canonicalMembers_iff.mp hcanonical _ (Assoc.mem_of_find? hmember)
          cases member with
          | object members =>
              cases hdefaults
              exact canonical_sortByName hmember
          | null | bool | number | string | array => cases hdefaults
  · cases hvalue

/-- So of options that are read no more has to be known. -/
theorem fingerprint_eq_iff_of_read {o p : Options} (ho : o.Read) (hp : p.Read) :
    o.fingerprint = p.fingerprint ↔ o = p ∨ o.Shifted p ∨ p.Shifted o :=
  fingerprint_eq_iff ho.canonical hp.canonical

theorem not_shifted_of_basePath_eq {o p : Options} (h : o.basePath = p.basePath) :
    ¬ o.Shifted p := by
  rintro ⟨x, hbase, -⟩
  rw [h, String.append_assoc, ← String.toList_inj, String.toList_append,
    toList_flags_append] at hbase
  exact absurd (List.append_right_eq_self.mp hbase.symm) (List.cons_ne_nil _ _)

/-- The fingerprint of options without a NUL has none. -/
theorem nul_notMem_fingerprint {o : Options} (hvalues : (Json.object o.defaultValues).Canonical)
    (hbase : '\x00' ∉ o.basePath.text.toList) (hextension : '\x00' ∉ o.templateExtension.toList) :
    '\x00' ∉ o.fingerprint.toList := by
  have hchain (segments : List (List Char)) (last : List Char)
      (hsegments : ∀ s ∈ segments, '\x00' ∉ s) (hlast : '\x00' ∉ last) :
      '\x00' ∉ chain ';' segments last := by
    induction segments with
    | nil => exact hlast
    | cons s segments ih =>
        obtain ⟨hs, hsegments⟩ := List.forall_mem_cons.mp hsegments
        simp [chain, hs, ih hsegments]
  have hflags := hchain o.segments _ (o.notMem_segments rfl (by decide)) hextension
  have hquiet := (Json.quiet_compactText _ hvalues).nul_notMem
  rw [toList_fingerprint]
  simp [hbase, hflags, hquiet]

end Options

namespace Cache

/-- Where a NUL cannot be mistaken, two keys are made of the same bytes exactly when they are of
one root, one text, and options that are the same or shifted. -/
theorem keyBytes_eq_iff {root root' : Path} {text text' : String} {o p : Options}
    (hroot : '\x00' ∉ root.text.toList) (hroot' : '\x00' ∉ root'.text.toList)
    (hnul : '\x00' ∉ text.toList ∧ '\x00' ∉ text'.toList ∨
      ('\x00' ∉ o.basePath.text.toList ∧ '\x00' ∉ o.templateExtension.toList) ∧
        '\x00' ∉ p.basePath.text.toList ∧ '\x00' ∉ p.templateExtension.toList)
    (ho : (Json.object o.defaultValues).Canonical) (hp : (Json.object p.defaultValues).Canonical) :
    keyBytes root text o = keyBytes root' text' p ↔
      root = root' ∧ text = text' ∧ (o = p ∨ o.Shifted p ∨ p.Shifted o) := by
  rw [← Options.fingerprint_eq_iff ho hp, keyBytes_eq, keyBytes_eq, utf8_inj, ← String.toList_inj]
  simp only [String.toList_append, List.append_assoc]
  constructor
  · intro h
    obtain ⟨hroots, h⟩ := eq_of_first_separator hroot hroot' h
    have hrest : text.toList = text'.toList ∧ o.fingerprint.toList = p.fingerprint.toList := by
      rcases hnul with ⟨htext, htext'⟩ | ⟨⟨hbase, hextension⟩, hbase', hextension'⟩
      · exact eq_of_first_separator htext htext' h
      · exact eq_of_last_separator (Options.nul_notMem_fingerprint ho hbase hextension)
          (Options.nul_notMem_fingerprint hp hbase' hextension') h
    obtain ⟨⟩ := root
    obtain ⟨⟩ := root'
    exact ⟨congrArg Path.mk (String.toList_inj.mp hroots), String.toList_inj.mp hrest.1,
      String.toList_inj.mp hrest.2⟩
  · rintro ⟨rfl, rfl, h⟩
    rw [h]

/-- Options with a default value, and the same ones with another depth. -/
theorem keyBytes_ne_deeper :
    let shallow : Options := { Options.standard ⟨"/a"⟩ with
      defaultValues := [("one", .number (.double ⟨false, ⟨2 ^ 52, -52⟩⟩))] }
    let deep : Options := { shallow with maxImportDepth := 11 }
    keyBytes ⟨"/r"⟩ "1" shallow ≠ keyBytes ⟨"/r"⟩ "1" deep := by
  intro shallow deep
  have hvalues : (Json.object shallow.defaultValues).Canonical :=
    ⟨⟨by decide, by decide, by decide, by decide⟩, trivial⟩
  have hiff : keyBytes ⟨"/r"⟩ "1" shallow = keyBytes ⟨"/r"⟩ "1" deep ↔ _ :=
    keyBytes_eq_iff (by decide) (by decide) (Or.inl (by decide)) hvalues hvalues
  rw [ne_eq, hiff]
  rintro ⟨-, -, h | h | h⟩
  · exact absurd (congrArg Options.maxImportDepth h) (by decide)
  · exact Options.not_shifted_of_basePath_eq (o := shallow) (p := deep) rfl h
  · exact Options.not_shifted_of_basePath_eq (o := deep) (p := shallow) rfl h

/-- The bytes of a key do not tell the options: what follows the base path in a fingerprint can be
a part of the base path. -/
theorem not_injective_keyBytes :
    ¬ ∀ (root root' : Path) (text text' : String) (o p : Options),
      keyBytes root text o = keyBytes root' text' p →
        root = root' ∧ text = text' ∧ o.basePath = p.basePath ∧
          o.allowRecursiveImports = p.allowRecursiveImports ∧
          o.maxImportDepth = p.maxImportDepth ∧ o.buildSourceMap = p.buildSourceMap ∧
          o.templateExtension = p.templateExtension ∧ o.defaultValues = p.defaultValues := by
  intro h
  let long : Options := { Options.standard ⟨"/a;recursive=false;depth=10;map=true;ext=b"⟩ with
    templateExtension := "c" }
  let short : Options := { Options.standard ⟨"/a"⟩ with
    templateExtension := "b;recursive=false;depth=10;map=true;ext=c" }
  have hsame : long.fingerprint = short.fingerprint :=
    (Options.fingerprint_eq_iff (o := long) (p := short) trivial trivial).mpr
      (Or.inr (Or.inl ⟨"b", by decide, by decide, rfl⟩))
  have hbase := (h ⟨"/p/root.tmpl"⟩ ⟨"/p/root.tmpl"⟩ "1" "1" long short (by
    rw [keyBytes_eq, keyBytes_eq, hsame])).2.2.1
  exact absurd hbase (by decide)

end Cache

end Stencil
