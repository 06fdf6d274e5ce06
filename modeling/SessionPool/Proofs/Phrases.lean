import Mathlib.Data.List.Basic
import SessionPool.Translation

/-!
# The phrases that a pattern recognises

A pattern without repetition spells finitely many texts.  To search for it is to look for one of
them, so that what a pattern recognises can be written down as a list of phrases, and nothing has to
be known of choices, brackets and optional parts, or of the ways in which a search tries them.

* `Pattern.spellings`: all texts that a pattern spells.
* `Pattern.mem_rests_iff`: a pattern takes a front part of a text that it spells, and leaves the
  rest; one case for each form of a pattern.
* `Pattern.occursIn_iff_contains`: a search finds what contains one of the spellings.
* `standard_dialect_recognises`: the phrases of the standard dialect.
-/

namespace SessionPool

variable {foldCase : Bool}

namespace Text

/-- A byte as it is compared: with `foldCase` a capital counts as its small letter. -/
def foldByte (foldCase : Bool) (b : UInt8) : UInt8 := if foldCase then lowerByte b else b

/-- A text as it is compared. -/
def folded (foldCase : Bool) (t : Text) : Text := t.map (foldByte foldCase)

theorem folded_true (t : Text) : t.folded true = t.lower := rfl

theorem folded_append (t u : Text) :
    (t ++ u).folded foldCase = t.folded foldCase ++ u.folded foldCase := List.map_append

/-- A text that is compared falls apart as it does itself. -/
theorem folded_eq_append_iff {t x y : Text} : t.folded foldCase = x ++ y ↔
    ∃ u v : Text, t = u ++ v ∧ u.folded foldCase = x ∧ v.folded foldCase = y :=
  List.map_eq_append_iff

/-- One of these phrases stands in the text, in whatever case. -/
def Mentions (t : Text) (phrases : List String) : Prop :=
  ∃ phrase ∈ phrases, t.lower.Contains (ascii phrase)

end Text

namespace Pattern

variable {p q : Pattern} {b : UInt8} {t r x : Text}

theorem sameByte_iff {a : UInt8} : sameByte foldCase a b = true ↔
    Text.foldByte foldCase a = Text.foldByte foldCase b := by
  cases foldCase <;> simp [sameByte, Text.foldByte]

/-! ## What a pattern spells -/

/-- All texts that a pattern spells. -/
def spellings : Pattern → List Text
  | empty => [[]]
  | byte b => [[b]]
  | seq p q => p.spellings.flatMap fun s => q.spellings.map fun u => s ++ u
  | choice p q => p.spellings ++ q.spellings
  | optional p => p.spellings ++ [[]]

/-- A pattern spells a text, as it is compared. -/
def Spells (foldCase : Bool) (p : Pattern) (x : Text) : Prop :=
  ∃ s ∈ p.spellings, x.folded foldCase = s.folded foldCase

theorem spells_empty_iff : empty.Spells foldCase x ↔ x = [] := by
  simp [Spells, spellings, Text.folded]

theorem spells_byte_iff : (byte b).Spells foldCase x ↔
    ∃ c, x = [c] ∧ sameByte foldCase b c = true := by
  simp only [Spells, spellings, List.mem_singleton, exists_eq_left, sameByte_iff, Text.folded,
    List.map_cons, List.map_nil]
  rw [List.map_eq_singleton_iff]
  exact exists_congr fun c => and_congr_right fun _ => eq_comm

theorem spells_seq_iff : (seq p q).Spells foldCase x ↔
    ∃ y z, x = y ++ z ∧ p.Spells foldCase y ∧ q.Spells foldCase z := by
  simp only [Spells, spellings, List.mem_flatMap, List.mem_map]
  constructor
  · rintro ⟨_, ⟨s, hs, u, hu, rfl⟩, hx⟩
    rw [Text.folded_append, Text.folded_eq_append_iff] at hx
    obtain ⟨y, z, rfl, hy, hz⟩ := hx
    exact ⟨y, z, rfl, ⟨s, hs, hy⟩, u, hu, hz⟩
  · rintro ⟨y, z, rfl, ⟨s, hs, hy⟩, u, hu, hz⟩
    exact ⟨s ++ u, ⟨s, hs, u, hu, rfl⟩, by rw [Text.folded_append, Text.folded_append, hy, hz]⟩

theorem spells_choice_iff : (choice p q).Spells foldCase x ↔
    p.Spells foldCase x ∨ q.Spells foldCase x := by
  simp only [Spells, spellings, List.mem_append, or_and_right, exists_or]

theorem spells_optional_iff : (optional p).Spells foldCase x ↔
    p.Spells foldCase x ∨ x = [] := by
  simp only [Spells, spellings, List.mem_append, or_and_right, exists_or]
  exact or_congr_right spells_empty_iff

/-! ## What a pattern takes -/

/-- A byte is taken from the front of a text if it stands there. -/
theorem mem_rests_byte_iff : r ∈ (byte b).rests foldCase t ↔
    ∃ c, t = c :: r ∧ sameByte foldCase b c = true := by
  cases t with
  | nil => simp [rests]
  | cons c t =>
    rw [rests]
    split
    · next h =>
      rw [List.mem_singleton]
      refine ⟨fun hr => ⟨c, by rw [hr], h⟩, ?_⟩
      rintro ⟨d, hd, -⟩
      exact (List.cons.inj hd).2.symm
    · next h =>
      refine ⟨fun hr => absurd hr List.not_mem_nil, ?_⟩
      rintro ⟨d, hd, hsame⟩
      obtain ⟨rfl, -⟩ := List.cons.inj hd
      exact absurd hsame h

/-- A pattern takes a front part of a text that it spells. -/
theorem mem_rests_iff : ∀ {p : Pattern} {t r : Text}, r ∈ p.rests foldCase t ↔
    ∃ x, t = x ++ r ∧ p.Spells foldCase x
  | empty, t, r => by
    simp only [rests, List.mem_singleton, spells_empty_iff, exists_eq_right, List.nil_append,
      eq_comm]
  | byte b, t, r => by
    simp only [mem_rests_byte_iff, spells_byte_iff]
    constructor
    · rintro ⟨c, rfl, hsame⟩
      exact ⟨[c], rfl, c, rfl, hsame⟩
    · rintro ⟨_, rfl, c, rfl, hsame⟩
      exact ⟨c, rfl, hsame⟩
  | seq p q, t, r => by
    simp only [rests, List.mem_flatMap, spells_seq_iff, mem_rests_iff (p := p),
      mem_rests_iff (p := q)]
    constructor
    · rintro ⟨_, ⟨y, rfl, hy⟩, z, rfl, hz⟩
      exact ⟨y ++ z, (List.append_assoc y z r).symm, y, z, rfl, hy, hz⟩
    · rintro ⟨_, rfl, y, z, rfl, hy, hz⟩
      exact ⟨z ++ r, ⟨y, List.append_assoc y z r, hy⟩, z, rfl, hz⟩
  | choice p q, t, r => by
    simp only [rests, List.mem_append, spells_choice_iff, mem_rests_iff (p := p),
      mem_rests_iff (p := q), and_or_left, exists_or]
  | optional p, t, r => by
    simp only [rests, List.mem_append, List.mem_singleton, spells_optional_iff,
      mem_rests_iff (p := p), and_or_left, exists_or, exists_eq_right, List.nil_append]
    rw [eq_comm (a := r)]

/-- A search finds what contains one of the spellings. -/
theorem occursIn_iff_contains : p.occursIn foldCase t = true ↔
    ∃ s ∈ p.spellings, (t.folded foldCase).Contains (s.folded foldCase) := by
  rw [occursIn_iff]
  constructor
  · rintro ⟨before, after, rfl, hne⟩
    obtain ⟨r, hr⟩ := List.exists_mem_of_ne_nil _ hne
    obtain ⟨x, rfl, s, hs, hx⟩ := mem_rests_iff.mp hr
    refine ⟨s, hs, before.folded foldCase, r.folded foldCase, ?_⟩
    rw [Text.folded_append, Text.folded_append, hx, List.append_assoc]
  · rintro ⟨s, hs, u, v, ht⟩
    obtain ⟨front, r, rfl, hfront, -⟩ := Text.folded_eq_append_iff.mp ht
    obtain ⟨before, x, rfl, -, hx⟩ := Text.folded_eq_append_iff.mp hfront
    exact ⟨before, x ++ r, List.append_assoc before x r,
      List.ne_nil_of_mem (mem_rests_iff.mpr ⟨x, rfl, s, hs, hx⟩)⟩

end Pattern

/-! ## Searches -/

namespace Search

variable {s : Search} {t t' : Text}

/-- A search that pays no regard to case finds what mentions one of its phrases. -/
theorem finds_iff_mentions {phrases : List String} (folds : s.foldCase = true)
    (spellings : s.pattern.spellings = phrases.map Text.ascii)
    (small : ∀ phrase ∈ phrases, (Text.ascii phrase).lower = Text.ascii phrase) :
    s.finds t = true ↔ t.Mentions phrases := by
  rw [finds, Pattern.occursIn_iff_contains, spellings, folds]
  simp only [List.mem_map, exists_exists_and_eq_and, Text.folded_true]
  exact exists_congr fun phrase => and_congr_right fun h => by rw [small phrase h]

/-- A search that pays no regard to case cannot tell texts apart that differ in nothing else. -/
theorem finds_congr (folds : s.foldCase = true) (h : t.lower = t'.lower) :
    s.finds t = s.finds t' := by
  rw [Bool.eq_iff_iff, finds, finds, Pattern.occursIn_iff_contains,
    Pattern.occursIn_iff_contains, folds, Text.folded_true, Text.folded_true, h]

/-- What is found in a text is found in every text around it. -/
theorem finds_append (h : s.finds t = true) (before after : Text) :
    s.finds (before ++ t ++ after) = true := by
  rw [finds, Pattern.occursIn_iff_contains] at h ⊢
  obtain ⟨phrase, hphrase, u, v, ht⟩ := h
  refine ⟨phrase, hphrase, before.folded s.foldCase ++ u, v ++ after.folded s.foldCase, ?_⟩
  simp only [Text.folded_append, ht, List.append_assoc]

end Search

/-- The kind of a failure depends on the text of the reply only by what is recognised in it. -/
theorem classify_congr {w : Wording} {t t' : Text} (notFound : w.notFound t = w.notFound t')
    (accessDenied : w.accessDenied t = w.accessDenied t')
    (alreadyExists : w.alreadyExists t = w.alreadyExists t')
    (directoryNotEmpty : w.directoryNotEmpty t = w.directoryNotEmpty t') (a : Attempt)
    (code : Int) : classify w a ⟨code, t⟩ = classify w a ⟨code, t'⟩ := by
  simp only [classify, notFound, accessDenied, alreadyExists, directoryNotEmpty]

/-! ## The standard dialect -/

namespace Dialect

theorem notFound_standard_iff (t : Text) : standard.notFound.finds t = true ↔
    t.Mentions ["no such file", "no such directory", "not found", "does not exist",
      "can'not find", "cannot find", "can't find"] :=
  Search.finds_iff_mentions rfl (by decide +kernel) (by decide +kernel)

theorem accessDenied_standard_iff (t : Text) : standard.accessDenied.finds t = true ↔
    t.Mentions ["permission denied", "access is denied", "access denied", "not permitted",
      "insufficient privileges"] :=
  Search.finds_iff_mentions rfl (by decide +kernel) (by decide +kernel)

theorem alreadyExists_standard_iff (t : Text) : standard.alreadyExists.finds t = true ↔
    t.Mentions ["already exists", "file exists"] :=
  Search.finds_iff_mentions rfl (by decide +kernel) (by decide +kernel)

theorem directoryNotEmpty_standard_iff (t : Text) :
    standard.directoryNotEmpty.finds t = true ↔ t.Mentions ["not empty"] :=
  Search.finds_iff_mentions rfl (by decide +kernel) (by decide +kernel)

end Dialect

/-- The standard dialect recognises these phrases, in whatever case and whatever stands around
them, and nothing else. -/
theorem standard_dialect_recognises :
    (∀ t, Dialect.standard.notFound.finds t = true ↔
      t.Mentions ["no such file", "no such directory", "not found", "does not exist",
        "can'not find", "cannot find", "can't find"]) ∧
    (∀ t, Dialect.standard.accessDenied.finds t = true ↔
      t.Mentions ["permission denied", "access is denied", "access denied", "not permitted",
        "insufficient privileges"]) ∧
    (∀ t, Dialect.standard.alreadyExists.finds t = true ↔
      t.Mentions ["already exists", "file exists"]) ∧
    (∀ t, Dialect.standard.directoryNotEmpty.finds t = true ↔ t.Mentions ["not empty"]) ∧
    (∀ (a : Attempt) (code : Int) (t t' : Text), t.lower = t'.lower →
      (translate Dialect.standard.wording a ⟨code, t⟩).kind =
        (translate Dialect.standard.wording a ⟨code, t'⟩).kind) ∧
    ∀ (s : Search) (before t after : Text), s.finds t = true →
      s.finds (before ++ t ++ after) = true := by
  refine ⟨Dialect.notFound_standard_iff, Dialect.accessDenied_standard_iff,
    Dialect.alreadyExists_standard_iff, Dialect.directoryNotEmpty_standard_iff, ?_, ?_⟩
  · intro a code t t' h
    exact classify_congr (Search.finds_congr rfl h) (Search.finds_congr rfl h)
      (Search.finds_congr rfl h) (Search.finds_congr rfl h) a code
  · exact fun s before t after h => Search.finds_append h before after

/-- A phrase in capitals, with a path behind it that looks like another. -/
theorem standard_dialect_recognises_inCapitals :
    Dialect.standard.notFound.finds (Text.ascii "CAN'NOT FIND") = true ∧
    Dialect.standard.notFound.finds
      (Text.ascii "550 " ++ Text.ascii "CAN'NOT FIND" ++ Text.ascii " /not/empty") = true ∧
    (Text.ascii "550 CAN'NOT FIND /not/empty").lower =
      (Text.ascii "550 can'not find /NOT/EMPTY").lower ∧
    (translate Dialect.standard.wording (.delete (Text.ascii "/") true)
        ⟨500, Text.ascii "550 CAN'NOT FIND /not/empty"⟩).kind =
      (translate Dialect.standard.wording (.delete (Text.ascii "/") true)
        ⟨500, Text.ascii "550 can'not find /NOT/EMPTY"⟩).kind := by
  have hfinds : Dialect.standard.notFound.finds (Text.ascii "CAN'NOT FIND") = true :=
    (standard_dialect_recognises.1 _).mpr ⟨"can'not find", by decide, [], [], by decide +kernel⟩
  have hlower : (Text.ascii "550 CAN'NOT FIND /not/empty").lower =
      (Text.ascii "550 can'not find /NOT/EMPTY").lower := by decide +kernel
  obtain ⟨-, -, -, -, hcase, hmore⟩ := standard_dialect_recognises
  exact ⟨hfinds, hmore _ _ _ _ hfinds, hlower, hcase _ _ _ _ hlower⟩

end SessionPool
