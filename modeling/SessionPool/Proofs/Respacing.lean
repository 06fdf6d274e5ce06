import Mathlib.Data.List.Forall2
import Mathlib.Logic.Relation
import SessionPool.Proofs.Assignments

/-!
# The layout of a settings file

How a file is laid out says nothing.  Lines may end in a line feed or in a carriage return and a
line feed; there may be empty lines and remarks between them, blanks at their ends, and blanks
around the first equals sign of an assignment.  All of these are changes of the bytes of a file, and
each is carried through to what its lines say (`statements`): one that leaves the lines apart from
each other as they were does not change this list, and one that puts lines in adds only such as say
nothing.

* `Text.Frames`: a part of a text that is one of its lines.
* `Respaces`, `Inserts`: the changes to a file.
* `statements_of_respaces`, `spoken_of_inserts`: what they do to what its lines say.
* `Reader.alike_foldl`: what a reader makes of lines that say nothing.
* `layout_is_immaterial`: all changes, one after the other.
-/

namespace SessionPool
namespace Text

variable {t u line above below : Text} {b : UInt8} {ls ms : List Text}

/-! ## Lines -/

/-- A text ends where a line ends: it is empty, or a line feed is its last byte. -/
def EndsLine (t : Text) : Prop := t = [] ∨ ∃ u, t = u ++ [lineFeed]

/-- Between these two texts `line` is one of the lines. -/
structure Frames (above line below : Text) : Prop where
  above : EndsLine above
  whole : lineFeed ∉ line
  below : (below = [] ∧ line ≠ []) ∨ ∃ t, below = lineFeed :: t

theorem beforeLines_ne_nil (b : UInt8) (ls : List Text) : beforeLines b ls ≠ [] := by
  unfold beforeLines
  split
  · exact List.cons_ne_nil _ _
  · cases ls <;> exact List.cons_ne_nil _ _

/-- A byte joins the first line, whatever lines come behind it. -/
theorem beforeLines_append (h : ls ≠ []) :
    beforeLines b (ls ++ ms) = beforeLines b ls ++ ms := by
  obtain ⟨l, ls, rfl⟩ := List.exists_cons_of_ne_nil h
  unfold beforeLines
  split <;> rfl

/-- Behind a line feed the lines are those of the rest. -/
theorem lines_append_append (t u : Text) :
    lines (t ++ lineFeed :: u) = lines (t ++ [lineFeed]) ++ lines u := by
  induction t with
  | nil => rfl
  | cons b t ih =>
    have hne : lines (t ++ [lineFeed]) ≠ [] := by
      cases t with
      | nil => exact List.cons_ne_nil _ _
      | cons c t => exact beforeLines_ne_nil c _
    rw [List.cons_append, List.cons_append, lines_cons, lines_cons, ih, beforeLines_append hne]

/-- A line feed behind a text ends its last line, or is a line of its own. -/
theorem lines_concat_lineFeed (t : Text) :
    lines (t ++ [lineFeed]) = lines t ∨ lines (t ++ [lineFeed]) = lines t ++ [[]] := by
  induction t with
  | nil => exact .inr rfl
  | cons b t ih =>
    rw [List.cons_append, lines_cons, lines_cons]
    rcases ih with ih | ih
    · exact .inl (by rw [ih])
    · rw [ih]
      by_cases hne : lines t = []
      · rw [hne]
        by_cases hb : b = lineFeed
        · exact .inr (by rw [hb]; rfl)
        · exact .inl (by simp [beforeLines, hb])
      · exact .inr (beforeLines_append hne)

/-- Where a line ends another begins. -/
theorem EndsLine.lines_append (h : above.EndsLine) (t : Text) :
    lines (above ++ t) = lines above ++ lines t := by
  rcases h with rfl | ⟨u, rfl⟩
  · rfl
  · rw [List.append_assoc, List.singleton_append, lines_append_append]

/-- A text without line feeds is one line, unless it is empty. -/
theorem lines_of_notMem (h : lineFeed ∉ t) : lines t = if t = [] then [] else [t] := by
  induction t with
  | nil => rfl
  | cons b t ih =>
    rw [List.mem_cons, not_or] at h
    rw [lines_cons, ih h.2, if_neg (List.cons_ne_nil b t)]
    cases t <;> simp [beforeLines, Ne.symm h.1]

/-- A line is found between the lines above it and those below. -/
theorem Frames.lines_eq (h : Frames above line below) :
    lines (above ++ line ++ below) = lines above ++ line :: lines (below.drop 1) := by
  obtain ⟨habove, hline, ⟨rfl, hne⟩ | ⟨t, rfl⟩⟩ := h
  · rw [List.append_nil, habove.lines_append, lines_of_notMem hline, if_neg hne]
    rfl
  · rw [List.append_assoc, habove.lines_append, lines_append_lineFeed t hline]
    rfl

/-! ## Line ends -/

/-- A text with a carriage return before every line feed. -/
def crlf (t : Text) : Text := t.flatMap fun b => if b = lineFeed then [13, lineFeed] else [b]

/-- Every line has a carriage return at its end then, except perhaps the last one. -/
theorem lines_crlf (t : Text) :
    List.Forall₂ (fun l l' => l' = l ∨ l' = l ++ [13]) (lines t) (lines t.crlf) := by
  induction t with
  | nil => exact .nil
  | cons b t ih =>
    rw [crlf, List.flatMap_cons, ← crlf, lines_cons]
    by_cases hb : b = lineFeed
    · subst hb
      exact .cons (.inr rfl) ih
    · rw [if_neg hb, List.singleton_append, lines_cons]
      generalize lines t = ls, lines (crlf t) = ls' at ih ⊢
      cases ih with
      | nil => simp [beforeLines, hb]
      | cons hl hls =>
        simp only [beforeLines, if_neg hb]
        exact .cons (hl.imp (congrArg _) (congrArg _)) hls

/-! ## Blanks -/

/-- Blanks around a text are trimmed away with its own. -/
theorem trim_append {before after : Text} (hbefore : ∀ b ∈ before, isBlank b = true)
    (hafter : ∀ b ∈ after, isBlank b = true) (t : Text) :
    (before ++ t ++ after).trim = t.trim := by
  obtain ⟨⟨front, back, ht, hfront, hback⟩, hbare⟩ := trims_trim t
  refine Trims.trim_eq ⟨⟨before ++ front, back ++ after, ?_, ?_, ?_⟩, hbare⟩
  · conv_lhs => rw [ht]
    simp only [List.append_assoc]
  · exact List.forall_mem_append.mpr ⟨hbefore, hfront⟩
  · exact List.forall_mem_append.mpr ⟨hback, hafter⟩

theorem trim_append_left {before : Text} (h : ∀ b ∈ before, isBlank b = true) (t : Text) :
    (before ++ t).trim = t.trim := by
  simpa using trim_append h (List.forall_mem_nil _) t

theorem trim_append_right {after : Text} (h : ∀ b ∈ after, isBlank b = true) (t : Text) :
    (t ++ after).trim = t.trim := trim_append (List.forall_mem_nil _) h t

/-- The first byte that is left by trimming is the first that is not a blank. -/
theorem head?_trim (t : Text) : t.trim.head? = t.find? fun b => !isBlank b := by
  obtain ⟨⟨before, after, ht, hbefore, hafter⟩, hbare⟩ := trims_trim t
  have hnone : ∀ {u : Text}, (∀ b ∈ u, isBlank b = true) →
      u.find? (fun b => !isBlank b) = none := fun h => by simpa using h
  generalize t.trim = core at ht hbare
  rw [ht, List.find?_append, List.find?_append, hnone hbefore, hnone hafter]
  cases core with
  | nil => rfl
  | cons b core => simp [hbare.head b rfl]

/-- The blanks at the front of a text can be told from what follows. -/
theorem exists_front (t : Text) : ∃ front core : Text, t = front ++ core ∧
    (∀ b ∈ front, isBlank b = true) ∧ ∀ b ∈ core.head?, isBlank b = false :=
  ⟨t.takeWhile isBlank, t.dropWhile isBlank, List.takeWhile_append_dropWhile.symm,
    fun _ hb => List.mem_takeWhile_imp hb, fun _ hb => eq_false_of_mem_head?_dropWhile isBlank hb⟩

/-- The blanks at the end of a text can be told from what is before them. -/
theorem exists_back (t : Text) : ∃ core back : Text, t = core ++ back ∧
    (∀ b ∈ back, isBlank b = true) ∧ ∀ b ∈ core.getLast?, isBlank b = false := by
  obtain ⟨front, core, ht, hfront, hcore⟩ := exists_front t.reverse
  refine ⟨core.reverse, front.reverse, ?_, by simpa using hfront, by simpa using hcore⟩
  rw [← List.reverse_append, ← ht, List.reverse_reverse]

/-- It does not matter from which end a text is read that is trimmed at both. -/
theorem trim_reverse (t : Text) : Text.trim t.reverse = t.trim.reverse := by
  obtain ⟨⟨before, after, ht, hbefore, hafter⟩, hbare⟩ := trims_trim t
  refine Trims.trim_eq ⟨⟨after.reverse, before.reverse, ?_, ?_, ?_⟩, ?_, ?_⟩
  · conv_lhs => rw [ht]
    simp only [List.reverse_append, List.append_assoc]
  · simpa using hafter
  · simpa using hbefore
  · simpa using hbare.last
  · simpa using hbare.head

/-- The last byte that is left is the last that is not a blank. -/
theorem getLast?_trim (t : Text) : t.trim.getLast? = t.reverse.find? fun b => !isBlank b := by
  rw [← head?_trim, trim_reverse, List.head?_reverse]

end Text

namespace Settings

/-! ## What a line says -/

namespace Line

variable {line line' before after : Text}

/-- A line says what is left of it when it is trimmed. -/
theorem ofText_congr (h : line.trim = line'.trim) : ofText line = ofText line' := by
  simp only [ofText, h]

/-- A remark: behind blanks the line begins with a number sign or a semicolon. -/
def Remarks (line : Text) : Prop :=
  ∃ (blanks : Text) (mark : UInt8) (rest : Text), line = blanks ++ mark :: rest ∧
    (∀ b ∈ blanks, Text.isBlank b = true) ∧ (mark = 35 ∨ mark = 59)

/-- A line that says nothing: there are only blanks in it, or it is a remark. -/
def IsVoid (line : Text) : Prop := (∀ b ∈ line, Text.isBlank b = true) ∨ Remarks line

theorem remarks_iff : Remarks line ↔ isRemark line.trim = true := by
  have hmark : ∀ mark : UInt8, Text.isBlank mark = false →
      (line.trim.head? = some mark ↔ ∃ blanks rest, line = blanks ++ mark :: rest ∧
        ∀ b ∈ blanks, Text.isBlank b = true) := by
    intro mark hmark
    rw [Text.head?_trim, List.find?_eq_some_iff_append]
    simp [hmark]
  rw [isRemark, Bool.or_eq_true, beq_iff_eq, beq_iff_eq, hmark 35 rfl, hmark 59 rfl]
  constructor
  · rintro ⟨blanks, mark, rest, hline, hblanks, rfl | rfl⟩
    · exact .inl ⟨blanks, rest, hline, hblanks⟩
    · exact .inr ⟨blanks, rest, hline, hblanks⟩
  · rintro (⟨blanks, rest, hline, hblanks⟩ | ⟨blanks, rest, hline, hblanks⟩)
    · exact ⟨blanks, 35, rest, hline, hblanks, .inl rfl⟩
    · exact ⟨blanks, 59, rest, hline, hblanks, .inr rfl⟩

theorem exists_heads_iff : (∃ name, Heads line name) ↔ isHeader line.trim = true := by
  rw [isHeader_iff]
  exact exists_congr fun name => Text.trim_eq_iff.symm

theorem ofText_of_isVoid (h : IsVoid line) : ofText line = nothing := by
  have htest : (line.trim.isEmpty || isRemark line.trim) = true := by
    rw [Bool.or_eq_true]
    refine h.imp (fun hblank => ?_) remarks_iff.mp
    have htrim : line.trim = [] :=
      Text.Trims.trim_eq ⟨⟨line, [], by simp, hblank, by simp⟩, ⟨by simp, by simp⟩⟩
    rw [htrim]
    rfl
  simp only [ofText]
  exact if_pos htest

/-- Trimming a line with an equals sign takes away the blanks before the text at its left, and those
behind the text at its right. -/
theorem trims_split (before after : Text) :
    ∃ key value : Text, Text.Trims (before ++ equalsSign :: after) (key ++ equalsSign :: value) ∧
      key ⊆ before ∧ key.trim = before.trim ∧ value.trim = after.trim := by
  obtain ⟨front, key, rfl, hfront, hkey⟩ := Text.exists_front before
  obtain ⟨value, back, rfl, hback, hvalue⟩ := Text.exists_back after
  refine ⟨key, value, ⟨⟨front, back, by simp, hfront, hback⟩, ?_, ?_⟩,
    List.subset_append_right front key, ?_, ?_⟩
  · intro b hb
    cases key with
    | nil =>
      obtain rfl := Option.some.inj hb
      decide
    | cons c key => exact hkey b hb
  · intro b hb
    rw [List.getLast?_append_of_ne_nil _ (List.cons_ne_nil _ _), List.getLast?_cons] at hb
    cases hlast : value.getLast? with
    | none =>
      rw [hlast] at hb
      obtain rfl := Option.some.inj hb
      decide
    | some c =>
      rw [hlast] at hb
      obtain rfl := Option.some.inj hb
      exact hvalue c hlast
  · exact (Text.trim_append_left hfront key).symm
  · exact (Text.trim_append_right hback value).symm

/-- An assignment says what stands before its first equals sign, and what stands behind it. -/
theorem ofText_split (first : equalsSign ∉ before)
    (noRemark : isRemark (Text.trim (before ++ equalsSign :: after)) = false)
    (noHeader : isHeader (Text.trim (before ++ equalsSign :: after)) = false) :
    ofText (before ++ equalsSign :: after) =
      .assignment before.trim (Text.unquote after.trim) := by
  obtain ⟨key, value, htrims, hsub, hkey, hvalue⟩ := trims_split before after
  rw [htrims.trim_eq] at noRemark noHeader
  obtain ⟨htake, hdrop⟩ := split_equalsSign value fun h => first (hsub h)
  have hmem : (key ++ equalsSign :: value).contains equalsSign = true := by simp
  rw [ofText_eq htrims (by simp) noRemark, if_neg (by simp [noHeader]), if_pos hmem, htake, hdrop,
    hkey, hvalue]

/-- A space, a tab or a carriage return. -/
def IsPadding (b : UInt8) : Prop := b = 32 ∨ b = 9 ∨ b = 13

theorem IsPadding.isBlank {b : UInt8} (h : IsPadding b) : Text.isBlank b = true := by
  rcases h with rfl | rfl | rfl <;> decide

theorem lineFeed_notMem_of_isPadding {t : Text} (h : ∀ b ∈ t, IsPadding b) :
    Text.lineFeed ∉ t := by
  intro hmem
  rcases h _ hmem with h | h | h <;> cases h

/-- The padding of a line is changed: something is added at its ends, or on both sides of the first
equals sign of an assignment. -/
inductive Padded : Text → Text → Prop
  | ends {front back : Text} (line : Text) (hfront : ∀ b ∈ front, IsPadding b)
      (hback : ∀ b ∈ back, IsPadding b) : Padded line (front ++ line ++ back)
  | around {before after left right : Text} (first : equalsSign ∉ before)
      (noRemark : ¬ Remarks (before ++ equalsSign :: after))
      (noHeader : ∀ name, ¬ Heads (before ++ equalsSign :: after) name)
      (hleft : ∀ b ∈ left, IsPadding b) (hright : ∀ b ∈ right, IsPadding b) :
      Padded (before ++ equalsSign :: after) (before ++ left ++ equalsSign :: (right ++ after))

section Around

variable (before after : Text)

/-- What is added around an equals sign does not come to stand at the front of a trimmed line. -/
theorem head?_trim_around (right : Text) {left : Text} (h : ∀ b ∈ left, Text.isBlank b = true) :
    (Text.trim (before ++ left ++ equalsSign :: (right ++ after))).head? =
      (Text.trim (before ++ equalsSign :: after)).head? := by
  have hnone : left.find? (fun b => !Text.isBlank b) = none := by simpa using h
  rw [Text.head?_trim, Text.head?_trim]
  simp [List.find?_append, hnone, show Text.isBlank equalsSign = false from rfl]

/-- Nor does it come to stand at the end. -/
theorem getLast?_trim_around (left : Text) {right : Text}
    (h : ∀ b ∈ right, Text.isBlank b = true) :
    (Text.trim (before ++ left ++ equalsSign :: (right ++ after))).getLast? =
      (Text.trim (before ++ equalsSign :: after)).getLast? := by
  have hnone : right.reverse.find? (fun b => !Text.isBlank b) = none := by simpa using h
  rw [Text.getLast?_trim, Text.getLast?_trim]
  simp [List.find?_append, hnone, show Text.isBlank equalsSign = false from rfl]

end Around

/-- Padding says nothing. -/
theorem Padded.ofText_eq (h : Padded line line') : ofText line' = ofText line := by
  cases h with
  | ends line hfront hback =>
    exact ofText_congr (Text.trim_append (fun b hb => (hfront b hb).isBlank)
      (fun b hb => (hback b hb).isBlank) line)
  | @around before after left right first noRemark noHeader hleft hright =>
    have hleft' : ∀ b ∈ left, Text.isBlank b = true := fun b hb => (hleft b hb).isBlank
    have hright' : ∀ b ∈ right, Text.isBlank b = true := fun b hb => (hright b hb).isBlank
    rw [remarks_iff, Bool.not_eq_true] at noRemark
    rw [← not_exists, exists_heads_iff, Bool.not_eq_true] at noHeader
    have hhead := head?_trim_around before after right hleft'
    have hlast := getLast?_trim_around before after left hright'
    have first' : equalsSign ∉ before ++ left := by
      rw [List.mem_append, not_or]
      exact ⟨first, fun hmem => by cases hleft' _ hmem⟩
    rw [ofText_split first noRemark noHeader, ofText_split first']
    · rw [Text.trim_append_right hleft', Text.trim_append_left hright']
    · rwa [isRemark, hhead]
    · rwa [isHeader, hhead, hlast]

/-- A line that is padded is still one line, and is not empty if it was not. -/
theorem Padded.whole (h : Padded line line') (hline : Text.lineFeed ∉ line) :
    Text.lineFeed ∉ line' ∧ (line ≠ [] → line' ≠ []) := by
  cases h with
  | ends line hfront hback =>
    refine ⟨?_, fun hne hnil => hne ?_⟩
    · simp [hline, lineFeed_notMem_of_isPadding hfront, lineFeed_notMem_of_isPadding hback]
    · exact (List.append_eq_nil_iff.mp (List.append_eq_nil_iff.mp hnil).1).2
  | around first noRemark noHeader hleft hright =>
    rw [List.mem_append, List.mem_cons, not_or, not_or] at hline
    simp [hline, lineFeed_notMem_of_isPadding hleft, lineFeed_notMem_of_isPadding hright]

end Line

/-! ## Changes of a file -/

variable {content content' above below line : Text}

/-- The lines of a file stay apart as they are: all line feeds get a carriage return, or the padding
of one line is changed. -/
inductive Respaces : Text → Text → Prop
  | crlf (content : Text) : Respaces content content.crlf
  | line {above line line' below : Text} (frames : Text.Frames above line below)
      (padded : Line.Padded line line') :
      Respaces (above ++ line ++ below) (above ++ line' ++ below)

/-- A line that says nothing is put into a file: above another line, behind the last one, or at the
end of a file that ends with a line feed. -/
inductive Inserts : Text → Text → Prop
  | above {above below line : Text} (ends : above.EndsLine) (whole : Text.lineFeed ∉ line)
      (void : Line.IsVoid line) :
      Inserts (above ++ below) (above ++ (line ++ Text.lineFeed :: below))
  | behind {content line : Text} (whole : Text.lineFeed ∉ line) (void : Line.IsVoid line) :
      Inserts content (content ++ Text.lineFeed :: line)
  | atEnd {content line : Text} (ends : content.EndsLine) (whole : Text.lineFeed ∉ line)
      (void : Line.IsVoid line) : Inserts content (content ++ line)

/-- What the lines of a file say, one after the other. -/
def statements (content : Text) : List Line := (Text.lines content).map Line.ofText

/-- What those of them say that say anything. -/
def spoken (content : Text) : List Line := (statements content).filter (· ≠ .nothing)

/-- All lines say the same as before. -/
theorem statements_of_respaces (h : Respaces content content') :
    statements content' = statements content := by
  cases h with
  | crlf =>
    have hlines : List.Forall₂ (fun l l' => Line.ofText l = Line.ofText l')
        (Text.lines content) (Text.lines content.crlf) := by
      refine (Text.lines_crlf content).imp ?_
      rintro l _ (rfl | rfl)
      · rfl
      · exact Line.ofText_congr
          (Text.trim_append_right (List.forall_mem_singleton.mpr rfl) l).symm
    rw [statements, statements, ← List.forall₂_eq_eq_eq, List.forall₂_map_left_iff,
      List.forall₂_map_right_iff]
    exact hlines.flip.imp fun _ _ => Eq.symm
  | @line above line line' below frames padded =>
    obtain ⟨hwhole, hne⟩ := padded.whole frames.whole
    have frames' : Text.Frames above line' below :=
      ⟨frames.above, hwhole, frames.below.imp_left (And.imp_right hne)⟩
    rw [statements, statements, frames.lines_eq, frames'.lines_eq, List.map_append, List.map_append,
      List.map_cons, List.map_cons, padded.ofText_eq]

/-- What one line says that says nothing, or no line at all. -/
theorem spoken_of_isVoid (whole : Text.lineFeed ∉ line) (void : Line.IsVoid line) :
    spoken line = [] := by
  rw [spoken, statements, Text.lines_of_notMem whole]
  split
  · rfl
  · simp [Line.ofText_of_isVoid void]

theorem spoken_append_lines {u v : Text}
    (h : Text.lines (content ++ content') = Text.lines u ++ Text.lines v) :
    spoken (content ++ content') = spoken u ++ spoken v := by
  rw [spoken, statements, h, List.map_append, List.filter_append]
  rfl

/-- A line feed at the end of a file adds nothing. -/
theorem spoken_concat_lineFeed (content : Text) :
    spoken (content ++ [Text.lineFeed]) = spoken content := by
  rw [spoken, statements]
  rcases Text.lines_concat_lineFeed content with h | h
  · rw [h]
    rfl
  · rw [h, List.map_append, List.filter_append]
    exact List.append_nil _

/-- What is put in adds nothing to what is said. -/
theorem spoken_of_inserts (h : Inserts content content') : spoken content' = spoken content := by
  cases h with
  | @above above below line ends whole void =>
    have hline := Text.lines_append_lineFeed below whole
    rw [spoken, spoken, statements, statements, ends.lines_append, ends.lines_append, hline]
    simp [Line.ofText_of_isVoid void]
  | @behind content line whole void =>
    rw [spoken_append_lines (Text.lines_append_append content line), spoken_concat_lineFeed,
      spoken_of_isVoid whole void, List.append_nil]
  | @atEnd content line ends whole void =>
    rw [spoken_append_lines (ends.lines_append line), spoken_of_isVoid whole void,
      List.append_nil]

/-! ## What the reader makes of it -/

/-- A warning without the number of its line. -/
def Warning.unnumbered (w : Warning) : Text × Text × Refusal := (w.key, w.value, w.refusal)

namespace Reader

variable {r r' : Reader}

/-- Takes what the next line says. -/
def next (r : Reader) (l : Line) : Reader := take { r with count := r.count + 1 } l

/-- What is read is what the lines say. -/
theorem file_eq (content : Text) : file content = (statements content).foldl next {} := by
  rw [statements, List.foldl_map]
  rfl

/-- Two readers have read the same, perhaps on other lines. -/
structure Alike (r r' : Reader) : Prop where
  current : r'.current = r.current
  settings : r'.settings = r.settings
  warnings : r'.warnings.map Warning.unnumbered = r.warnings.map Warning.unnumbered

/-- They are still alike when both are told the same. -/
theorem Alike.next (h : r.Alike r') (l : Line) : (r.next l).Alike (r'.next l) := by
  obtain ⟨hcurrent, hsettings, hwarnings⟩ := h
  cases l with
  | nothing | other => exact ⟨hcurrent, hsettings, hwarnings⟩
  | header name => exact ⟨rfl, hsettings, hwarnings⟩
  | assignment key value =>
    simp only [Reader.next, take, store, hcurrent, hsettings]
    cases Key.find? r.current key with
    | none => exact ⟨rfl, rfl, hwarnings⟩
    | some k =>
      simp only
      cases k.assign value r.settings with
      | ok s => exact ⟨rfl, rfl, hwarnings⟩
      | error refusal =>
        refine ⟨rfl, rfl, ?_⟩
        simp only [List.map_append, hwarnings]
        rfl

/-- Lines that say nothing only count. -/
theorem alike_foldl (h : r.Alike r') (ls : List Line) :
    (ls.foldl next r).Alike ((ls.filter (· ≠ .nothing)).foldl next r') := by
  induction ls generalizing r r' with
  | nil => exact h
  | cons l ls ih =>
    by_cases hl : l = .nothing
    · subst hl
      exact ih ⟨h.current, h.settings, h.warnings⟩
    · rw [List.filter_cons_of_pos (by simpa using hl)]
      exact ih (h.next l)

/-- Files in which the same is said are read alike. -/
theorem alike_of_spoken (h : spoken content' = spoken content) :
    (file content').settings = (file content).settings ∧
      (file content').warnings.map Warning.unnumbered =
        (file content).warnings.map Warning.unnumbered := by
  have hfile : ∀ content, (file content).Alike ((spoken content).foldl next {}) := fun content =>
    file_eq content ▸ alike_foldl ⟨rfl, rfl, rfl⟩ _
  have hcontent := hfile content
  have hcontent' := h ▸ hfile content'
  exact ⟨hcontent'.settings.symm.trans hcontent.settings,
    hcontent'.warnings.symm.trans hcontent.warnings⟩

end Reader

/-! ## Any number of changes -/

/-- A change of the layout of a file. -/
def Relays (content content' : Text) : Prop := Respaces content content' ∨ Inserts content content'

theorem statements_of_respacings (h : Relation.ReflTransGen Respaces content content') :
    statements content' = statements content := by
  induction h with
  | refl => rfl
  | tail _ hstep ih => exact (statements_of_respaces hstep).trans ih

theorem spoken_of_relayings (h : Relation.ReflTransGen Relays content content') :
    spoken content' = spoken content := by
  induction h with
  | refl => rfl
  | tail _ hstep ih =>
    rcases hstep with hstep | hstep
    · exact (congrArg _ (statements_of_respaces hstep)).trans ih
    · exact (spoken_of_inserts hstep).trans ih

/-- However the layout of a file is changed, the same is read from it, and the same is warned of on
lines of perhaps other numbers.  If the lines stay apart as they are, all warnings are the same. -/
theorem layout_is_immaterial (h : Relation.ReflTransGen Relays content content') (path : Text) :
    ofFile content' = ofFile content ∧
    (∃ ws ws' : List Warning, fileEntries path content = ws.map (Warning.entry path) ∧
      fileEntries path content' = ws'.map (Warning.entry path) ∧
        ws'.map Warning.unnumbered = ws.map Warning.unnumbered) ∧
    (Relation.ReflTransGen Respaces content content' →
      fileEntries path content' = fileEntries path content) := by
  obtain ⟨hsettings, hwarnings⟩ := Reader.alike_of_spoken (spoken_of_relayings h)
  refine ⟨hsettings, ⟨_, _, rfl, rfl, hwarnings⟩, fun hrespaces => ?_⟩
  rw [fileEntries, fileEntries, Reader.file_eq, Reader.file_eq,
    statements_of_respacings hrespaces]

/-- A file with an unreadable number on its second line. -/
def dense : Text := Text.ascii "[pool]\n" ++ Text.ascii "max_clients=x" ++ Text.ascii "\nuser=1"

/-- The same with blanks around an equals sign and other line ends. -/
def spaced : Text :=
  Text.crlf (Text.ascii "[pool]\n" ++ Text.ascii "max_clients\t= x" ++ Text.ascii "\nuser=1")

/-- The same with a remark above the section. -/
def remarked : Text := Text.ascii " ;=[" ++ Text.lineFeed :: spaced

theorem layout_is_immaterial_remarked :
    Relation.ReflTransGen Respaces dense spaced ∧ Relation.ReflTransGen Relays dense remarked ∧
      ofFile remarked = ofFile dense ∧
      fileEntries [] spaced = fileEntries [] dense ∧
      fileEntries [] remarked ≠ fileEntries [] dense := by
  have hspaced : Relation.ReflTransGen Respaces dense spaced := by
    have frames : Text.Frames (Text.ascii "[pool]\n") (Text.ascii "max_clients=x")
        (Text.ascii "\nuser=1") :=
      ⟨.inr ⟨Text.ascii "[pool]", by decide⟩, by decide, .inr ⟨Text.ascii "user=1", by decide⟩⟩
    have padded : Line.Padded (Text.ascii "max_clients=x") (Text.ascii "max_clients\t= x") :=
      @Line.Padded.around (Text.ascii "max_clients") (Text.ascii "x") [9] [32] (by decide)
        (mt Line.remarks_iff.mp (by decide))
        (not_exists.mp (mt Line.exists_heads_iff.mp (by decide))) (by simp [Line.IsPadding])
        (by simp [Line.IsPadding])
    exact .tail (.single (.line frames padded)) (.crlf _)
  have hrelays : Relation.ReflTransGen Relays dense spaced := hspaced.lift id fun _ _ => .inl
  have hremarked : Relation.ReflTransGen Relays dense remarked := by
    refine hrelays.tail (.inr ?_)
    exact @Inserts.above [] spaced (Text.ascii " ;=[") (.inl rfl) (by decide)
      (.inr ⟨[32], 59, Text.ascii "=[", rfl, List.forall_mem_singleton.mpr rfl, .inr rfl⟩)
  exact ⟨hspaced, hremarked, (layout_is_immaterial hremarked []).1,
    (layout_is_immaterial hrelays []).2.2 hspaced,
    by decide +kernel⟩

end Settings
end SessionPool
