import SessionPool.Text

/-!
# Patterns in reply texts

Servers word their failures differently, so a failure is recognised by searching its text for a
pattern.  A pattern is built from bytes by juxtaposition, by the choice `|`, by grouping in round
brackets and by `?`, which makes the byte or group before it optional.  It matches a text if some
part of the text spells it out; with `foldCase` the ASCII letters of both sides are compared
without regard to case.

`Pattern.rests` is the meaning of a pattern: what may remain of a text after the pattern has taken
a front part of it.  It lists every way of matching, of which there can be very many.  So a search
follows all of them at once: `Pattern.reach` carries marks on the places of the text through the
pattern, from all the places where a match may begin to all those where it may end.  Its work is
the size of the pattern times that of the text, and `Pattern.occursIn_iff` says that it finds just
what the meaning promises.

`Pattern.ofText` reads the written form in one pass over its bytes.  Open brackets are kept on a
stack of levels; a level holds the choices completed so far and the items of the current one.
-/

namespace SessionPool

/-- A pattern. -/
inductive Pattern where
  /-- Matches the empty text. -/
  | empty
  /-- Matches one byte. -/
  | byte (b : UInt8)
  /-- Matches the two parts one after the other. -/
  | seq (first second : Pattern)
  /-- Matches what either part matches. -/
  | choice (left right : Pattern)
  /-- Matches what the part matches, or the empty text. -/
  | optional (part : Pattern)
  deriving DecidableEq, Inhabited

namespace Pattern

/-! ## Matching -/

/-- Two bytes count as equal: always if they are, and with `foldCase` also if they are the two
cases of one ASCII letter. -/
def sameByte (foldCase : Bool) (a b : UInt8) : Bool :=
  if foldCase then Text.lowerByte a == Text.lowerByte b else a == b

/-- What may remain of a text after the pattern has taken a front part of it. -/
def rests (foldCase : Bool) : Pattern → Text → List Text
  | empty, t => [t]
  | byte _, [] => []
  | byte b, c :: t => if sameByte foldCase b c then [t] else []
  | seq p q, t => (p.rests foldCase t).flatMap (q.rests foldCase)
  | choice p q, t => p.rests foldCase t ++ q.rests foldCase t
  | optional p, t => p.rests foldCase t ++ [t]

/-! ## Searching -/

/-- Where a pattern leads from marked places of a text.  There is one place before each byte and one
at the end, and a mark for each of them. -/
def reach (foldCase : Bool) (t : Text) : Pattern → List Bool → List Bool
  | empty, marks => marks
  | byte b, marks => false :: List.zipWith (fun m c => m && sameByte foldCase b c) marks t
  | seq p q, marks => q.reach foldCase t (p.reach foldCase t marks)
  | choice p q, marks =>
    List.zipWith or (p.reach foldCase t marks) (q.reach foldCase t marks)
  | optional p, marks => List.zipWith or (p.reach foldCase t marks) marks

/-- The pattern matches some part of the text. -/
def occursIn (foldCase : Bool) (p : Pattern) (t : Text) : Bool :=
  (p.reach foldCase t (List.replicate (t.length + 1) true)).contains true

/-! ## The written form -/

/-- One open bracket, or the outermost level: the choices already completed and the items of the
current choice, last one first. -/
structure Level where
  finished : List Pattern := []
  items : List Pattern := []

/-- Items, last one first, one after the other. -/
def sequence : List Pattern → Pattern
  | [] => empty
  | p :: ps => ps.foldl (fun tail q => seq q tail) p

/-- The pattern that a level stands for: a choice between its finished choices, first one first,
and the current one. -/
def Level.pattern (l : Level) : Pattern :=
  l.finished.foldl (fun right left => choice left right) (sequence l.items)

/-- A level with one more item in its current choice. -/
def Level.push (l : Level) (p : Pattern) : Level := { l with items := p :: l.items }

/-- A level whose last item has become optional.  With nothing before it, a question mark asks
for nothing. -/
def Level.makeOptional (l : Level) : Level :=
  match l.items with
  | [] => l
  | p :: ps => { l with items := optional p :: ps }

/-- A level whose current choice is complete. -/
def Level.next (l : Level) : Level := { finished := sequence l.items :: l.finished, items := [] }

/-- Reads the written form, with the innermost open level and the levels around it. -/
def read (l : Level) (outer : List Level) : Text → Pattern
  | [] => (outer.foldl (fun inner around => around.push inner.pattern) l).pattern
  | b :: t =>
    if b = 40 then read {} (l :: outer) t
    else if b = 41 then
      match outer with
      | [] => read (l.push (byte b)) [] t
      | around :: outer => read (around.push l.pattern) outer t
    else if b = 124 then read l.next outer t
    else if b = 63 then read l.makeOptional outer t
    else read (l.push (byte b)) outer t

/-- The pattern with this written form.  A bracket that is never closed ends with the text. -/
def ofText (t : Text) : Pattern := read {} [] t

/-! ## The search finds what the meaning promises -/

/-- What remains is an end of the text. -/
theorem suffix_of_mem_rests {foldCase : Bool} :
    ∀ {p : Pattern} {t r : Text}, r ∈ p.rests foldCase t → r <:+ t
  | empty, t, r, h => by
    rw [rests, List.mem_singleton] at h
    exact h ▸ List.suffix_refl t
  | byte b, [], r, h => by simp [rests] at h
  | byte b, c :: t, r, h => by
    rw [rests] at h
    split at h
    · rw [List.mem_singleton] at h
      exact h ▸ List.suffix_cons c t
    · simp at h
  | seq p q, t, r, h => by
    rw [rests, List.mem_flatMap] at h
    obtain ⟨u, hu, hr⟩ := h
    exact (suffix_of_mem_rests hr).trans (suffix_of_mem_rests hu)
  | choice p q, t, r, h => by
    rw [rests, List.mem_append] at h
    exact h.elim suffix_of_mem_rests suffix_of_mem_rests
  | optional p, t, r, h => by
    rw [rests, List.mem_append, List.mem_singleton] at h
    exact h.elim suffix_of_mem_rests fun h => h ▸ List.suffix_refl t

/-- Two places of a text with the same end after them are the same place. -/
theorem place_unique {t : Text} {i j : Nat} (hi : i ≤ t.length) (hj : j ≤ t.length)
    (h : t.drop i = t.drop j) : i = j := by
  have hl := congrArg List.length h
  rw [List.length_drop, List.length_drop] at hl
  omega

/-- The end of a text after a place that a mark can stand on. -/
theorem place_le {t : Text} {marks : List Bool} (hm : marks.length = t.length + 1) {i : Nat}
    (h : marks[i]? = some true) : i ≤ t.length := by
  have hi := (List.getElem?_eq_some_iff.mp h).1
  omega

/-- A place is marked in one or in the other. -/
theorem getElem?_zipWith_or : ∀ {ms ns : List Bool}, ms.length = ns.length → ∀ (j : Nat),
    (List.zipWith or ms ns)[j]? = some true ↔ ms[j]? = some true ∨ ns[j]? = some true
  | [], [], _, j => by simp
  | m :: ms, n :: ns, h, 0 => by simp
  | m :: ms, n :: ns, h, j + 1 => by
    simpa using getElem?_zipWith_or (by simpa using h) j

/-- No mark is lost and none is added. -/
theorem length_reach {foldCase : Bool} {t : Text} : ∀ {p : Pattern} {marks : List Bool},
    marks.length = t.length + 1 → (p.reach foldCase t marks).length = t.length + 1
  | empty, _, h => h
  | byte _, _, h => by simp [reach, h]
  | seq p q, _, h => length_reach (p := q) (length_reach (p := p) h)
  | choice p q, _, h => by
    rw [reach, List.length_zipWith, length_reach (p := p) h, length_reach (p := q) h, Nat.min_self]
  | optional p, _, h => by
    rw [reach, List.length_zipWith, length_reach (p := p) h, h, Nat.min_self]

/-- A byte leads from each marked place before it to the place after it. -/
theorem getElem?_reach_byte {foldCase : Bool} {t : Text} {b : UInt8} {marks : List Bool}
    (hm : marks.length = t.length + 1) (j : Nat) :
    ((byte b).reach foldCase t marks)[j]? = some true ↔
      j ≤ t.length ∧ ∃ i, marks[i]? = some true ∧
        t.drop j ∈ (byte b).rests foldCase (t.drop i) := by
  constructor
  · intro h
    cases j with
    | zero => simp [reach] at h
    | succ i =>
      rw [reach, List.getElem?_cons_succ, List.getElem?_zipWith] at h
      split at h
      · rename_i m c hmark hc
        rw [Option.some.injEq, Bool.and_eq_true] at h
        have hi := (List.getElem?_eq_some_iff.mp hc).1
        refine ⟨hi, i, h.1 ▸ hmark, ?_⟩
        rw [List.drop_eq_getElem_cons hi, rests, (List.getElem?_eq_some_iff.mp hc).2, if_pos h.2]
        exact List.mem_singleton_self _
      · simp at h
  · rintro ⟨hj, i, hmark, hr⟩
    have hi := place_le hm hmark
    cases hd : t.drop i with
    | nil => simp [hd, rests] at hr
    | cons c r =>
      rw [hd, rests] at hr
      split at hr
      · rename_i hc
        have hlt : i < t.length := by
          have := congrArg List.length hd
          rw [List.length_drop, List.length_cons] at this
          omega
        rw [List.drop_eq_getElem_cons hlt, List.cons.injEq] at hd
        rw [List.mem_singleton, ← hd.2] at hr
        rw [place_unique hj hlt hr, reach, List.getElem?_cons_succ, List.getElem?_zipWith, hmark,
          List.getElem?_eq_getElem hlt, hd.1]
        simpa using hc
      · simp at hr

/-- A pattern leads from a marked place to those after which the end of the text is one of its
rests. -/
theorem getElem?_reach {foldCase : Bool} {t : Text} : ∀ {p : Pattern} {marks : List Bool},
    marks.length = t.length + 1 → ∀ (j : Nat),
    (p.reach foldCase t marks)[j]? = some true ↔
      j ≤ t.length ∧ ∃ i, marks[i]? = some true ∧ t.drop j ∈ p.rests foldCase (t.drop i)
  | empty, marks, hm, j => by
    constructor
    · intro h
      exact ⟨place_le hm h, j, h, List.mem_singleton_self _⟩
    · rintro ⟨hj, i, hi, hr⟩
      rw [rests, List.mem_singleton] at hr
      exact place_unique hj (place_le hm hi) hr ▸ hi
  | byte b, marks, hm, j => getElem?_reach_byte hm j
  | seq p q, marks, hm, j => by
    rw [reach, getElem?_reach (length_reach hm)]
    refine and_congr_right fun _ => ?_
    constructor
    · rintro ⟨k, hk, hr⟩
      obtain ⟨-, i, hi, hu⟩ := (getElem?_reach hm k).mp hk
      exact ⟨i, hi, by rw [rests, List.mem_flatMap]; exact ⟨_, hu, hr⟩⟩
    · rintro ⟨i, hi, hr⟩
      rw [rests, List.mem_flatMap] at hr
      obtain ⟨u, hu, hr⟩ := hr
      have hsuffix := (suffix_of_mem_rests hu).trans (List.drop_suffix i t)
      have hdrop : u = t.drop (t.length - u.length) := List.suffix_iff_eq_drop.mp hsuffix
      refine ⟨t.length - u.length, (getElem?_reach hm _).mpr ⟨Nat.sub_le _ _, i, hi, ?_⟩, ?_⟩
      · rw [← hdrop]
        exact hu
      · rw [← hdrop]
        exact hr
  | choice p q, marks, hm, j => by
    rw [reach, getElem?_zipWith_or (by rw [length_reach hm, length_reach hm]),
      getElem?_reach hm, getElem?_reach hm, ← and_or_left]
    refine and_congr_right fun _ => ?_
    simp only [rests, List.mem_append]
    constructor
    · rintro (⟨i, hi, hr⟩ | ⟨i, hi, hr⟩)
      · exact ⟨i, hi, Or.inl hr⟩
      · exact ⟨i, hi, Or.inr hr⟩
    · rintro ⟨i, hi, hr | hr⟩
      · exact Or.inl ⟨i, hi, hr⟩
      · exact Or.inr ⟨i, hi, hr⟩
  | optional p, marks, hm, j => by
    rw [reach, getElem?_zipWith_or (by rw [length_reach hm, hm]), getElem?_reach hm]
    simp only [rests, List.mem_append, List.mem_singleton]
    constructor
    · rintro (⟨hj, i, hi, hr⟩ | h)
      · exact ⟨hj, i, hi, Or.inl hr⟩
      · exact ⟨place_le hm h, j, h, Or.inr rfl⟩
    · rintro ⟨hj, i, hi, hr | hr⟩
      · exact Or.inl ⟨hj, i, hi, hr⟩
      · exact Or.inr (place_unique hj (place_le hm hi) hr ▸ hi)

/-- A pattern occurs in a text when it matches a front part of some end of it. -/
theorem occursIn_iff {foldCase : Bool} {p : Pattern} {t : Text} :
    p.occursIn foldCase t = true ↔
      ∃ before after, t = before ++ after ∧ p.rests foldCase after ≠ [] := by
  have hm : (List.replicate (t.length + 1) true).length = t.length + 1 := List.length_replicate
  rw [occursIn, List.contains_iff_mem, List.mem_iff_getElem?]
  constructor
  · rintro ⟨j, hj⟩
    obtain ⟨-, i, -, hr⟩ := (getElem?_reach hm j).mp hj
    exact ⟨t.take i, t.drop i, (List.take_append_drop i t).symm, List.ne_nil_of_mem hr⟩
  · rintro ⟨before, after, rfl, hr⟩
    obtain ⟨r, hr⟩ := List.exists_mem_of_ne_nil _ hr
    have hsuffix := (suffix_of_mem_rests hr).trans (List.suffix_append before after)
    have hdrop : r = (before ++ after).drop ((before ++ after).length - r.length) :=
      List.suffix_iff_eq_drop.mp hsuffix
    refine ⟨(before ++ after).length - r.length, (getElem?_reach hm _).mpr
      ⟨Nat.sub_le _ _, before.length, ?_, ?_⟩⟩
    · rw [List.getElem?_replicate, if_pos (by rw [List.length_append]; omega)]
    · rw [← hdrop, List.drop_left]
      exact hr

end Pattern

/-- A pattern together with the way it is compared. -/
structure Search where
  pattern : Pattern
  foldCase : Bool
  deriving DecidableEq, Inhabited

namespace Search

/-- The search that a written pattern asks for. -/
def ofText (t : Text) (foldCase : Bool) : Search := ⟨Pattern.ofText t, foldCase⟩

/-- The text holds a match. -/
def finds (s : Search) (t : Text) : Bool := s.pattern.occursIn s.foldCase t

end Search
end SessionPool
