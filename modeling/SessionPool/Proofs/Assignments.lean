import Mathlib.Data.List.Induction
import SessionPool.Proofs.Spelling
import SessionPool.Settings.Reader

/-!
# The last valid assignment wins

A settings file is read in one pass, with a section and a line number in mind and settings that are
filled in as one goes.  What comes of it can be said without any of this.  A field has the value of
the last line that assigns a valid one to it, or its default; and every assignment of an invalid
number is warned of, and nothing else.

Which lines assign what is said of the lines alone: of the texts before and behind the first equals
sign of a line, and of the nearest header above it.

* `Line.Assigns`, `Line.Heads`: what a single line says.
* `Kind.Gives`, `Kind.Refuses`: what a written value comes to.
* `Assigns`: a line of a file assigns a value to a key.
* `Prevails`, `Warns`: the assignment that a field has its value from, and those warned of.
* `Reader.follows`: one line after the other, the reader comes to exactly this.
-/

namespace SessionPool
namespace Settings

/-! ## What is stored under a key -/

/-- What can be stored under a key. -/
inductive Kind where
  | text
  | switch
  /-- A number of this range. -/
  | number (least greatest : Int)

/-- What is stored under a key. -/
inductive Datum where
  | text (t : Text)
  | switch (on : Bool)
  | number (n : Int)
  deriving DecidableEq

namespace Key

/-- What can be stored under each key. -/
def kind : Key → Kind
  | host | user | password | account | level | file => .text
  | passiveMode | console => .switch
  | port => .number 1 65535
  | connectTimeout | readTimeout | acquireTimeout => .number 0 Number.greatest
  | maxClients | initialClients | keepAliveInterval => .number 0 greatestCount

/-- What some settings have under each key. -/
def get (s : Settings) : Key → Datum
  | host => .text s.connection.host
  | port => .number s.connection.port.toNat
  | user => .text s.connection.user
  | password => .text s.connection.password
  | account => .text s.connection.account
  | passiveMode => .switch s.connection.passiveMode
  | connectTimeout => .number s.connection.connectTimeout
  | readTimeout => .number s.connection.readTimeout
  | maxClients => .number s.pool.maxClients.toNat
  | acquireTimeout => .number s.pool.acquireTimeout
  | initialClients => .number s.pool.initialClients.toNat
  | keepAliveInterval => .number s.pool.keepAliveInterval
  | level => .text s.journal.level
  | file => .text s.journal.file
  | console => .switch s.journal.console

end Key

/-- Settings are what they have under all keys. -/
theorem eq_of_get {s s' : Settings} (h : ∀ k, Key.get s k = Key.get s' k) : s = s' := by
  obtain ⟨⟨_, port, _, _, _, _, _, _⟩, ⟨max, _, initial, _⟩, ⟨_, _, _⟩⟩ := s
  obtain ⟨⟨_, port', _, _, _, _, _, _⟩, ⟨max', _, initial', _⟩, ⟨_, _, _⟩⟩ := s'
  have hport : port = port' :=
    UInt16.toNat_inj.mp (Int.ofNat_inj.mp (Datum.number.inj (h .port)))
  have hmax : max = max' :=
    UInt64.toNat_inj.mp (Int.ofNat_inj.mp (Datum.number.inj (h .maxClients)))
  have hinitial : initial = initial' :=
    UInt64.toNat_inj.mp (Int.ofNat_inj.mp (Datum.number.inj (h .initialClients)))
  obtain rfl := Datum.text.inj (h .host)
  obtain rfl := Datum.text.inj (h .user)
  obtain rfl := Datum.text.inj (h .password)
  obtain rfl := Datum.text.inj (h .account)
  obtain rfl := Datum.switch.inj (h .passiveMode)
  obtain rfl := Datum.number.inj (h .connectTimeout)
  obtain rfl := Datum.number.inj (h .readTimeout)
  obtain rfl := Datum.number.inj (h .acquireTimeout)
  obtain rfl := Datum.number.inj (h .keepAliveInterval)
  obtain rfl := Datum.text.inj (h .level)
  obtain rfl := Datum.text.inj (h .file)
  obtain rfl := Datum.switch.inj (h .console)
  rw [hport, hmax, hinitial]

/-! ## Written values -/

/-- A written value gives this for a key of a kind: a text is taken as it is, a switch is on for
three words only, and a number has to be in range. -/
inductive Kind.Gives : Kind → Text → Datum → Prop where
  | text (value : Text) : Gives .text value (.text value)
  | switch (value : Text) : Gives .switch value (.switch (decide
      (value = Text.ascii "true" ∨ value = Text.ascii "1" ∨ value = Text.ascii "yes")))
  | number {value : Text} {n least greatest : Int} (reads : Number.Reads value n)
      (least_le : least ≤ n) (le_greatest : n ≤ greatest) :
      Gives (.number least greatest) value (.number n)

/-- A written value gives nothing for a key of a kind, for this reason. -/
inductive Kind.Refuses : Kind → Text → Refusal → Prop where
  | unreadable {value : Text} {least greatest : Int} (unread : ∀ n, ¬ Number.Reads value n) :
      Refuses (.number least greatest) value .unreadable
  | outside {value : Text} {n least greatest : Int} (reads : Number.Reads value n)
      (beyond : n < least ∨ greatest < n) :
      Refuses (.number least greatest) value (.outside value least greatest)

variable {kind : Kind} {k k' : Key} {value : Text} {d d' : Datum} {r : Refusal}

namespace Kind

theorem Gives.unique (h : kind.Gives value d) (h' : kind.Gives value d') : d = d' := by
  cases h with
  | text | switch => cases h'; rfl
  | number reads =>
    cases h' with
    | number reads' => rw [reads.unique reads']

theorem Refuses.unique {r' : Refusal} (h : kind.Refuses value r) (h' : kind.Refuses value r') :
    r = r' := by
  cases h with
  | unreadable unread =>
    cases h' with
    | unreadable => rfl
    | outside reads => exact absurd reads (unread _)
  | outside reads =>
    cases h' with
    | unreadable unread => exact absurd reads (unread _)
    | outside => rfl

/-- What is refused gives nothing. -/
theorem Refuses.not_gives (h : kind.Refuses value r) : ¬ kind.Gives value d := by
  intro hd
  cases h with
  | unreadable unread =>
    cases hd with
    | number reads => exact unread _ reads
  | outside reads beyond =>
    cases hd with
    | number reads' least_le le_greatest =>
      obtain rfl := reads.unique reads'
      omega

/-- A written value gives something, or it is refused. -/
theorem gives_or_refuses (kind : Kind) (value : Text) :
    (∃ d, kind.Gives value d) ∨ ∃ r, kind.Refuses value r := by
  cases kind with
  | text => exact .inl ⟨_, .text value⟩
  | switch => exact .inl ⟨_, .switch value⟩
  | number least greatest =>
    by_cases hread : ∃ n, Number.Reads value n
    · obtain ⟨n, reads⟩ := hread
      by_cases hrange : least ≤ n ∧ n ≤ greatest
      · exact .inl ⟨_, .number reads hrange.1 hrange.2⟩
      · exact .inr ⟨_, .outside reads (by omega)⟩
    · exact .inr ⟨_, .unreadable (not_exists.mp hread)⟩

end Kind

theorem numberIn_of_reads {n least greatest : Int} (reads : Number.Reads value n)
    (h : least ≤ n ∧ n ≤ greatest) : numberIn least greatest value = .ok n := by
  rw [numberIn, Number.read?_eq_some_iff.mpr reads]
  exact if_pos h

/-- What a written value gives is stored under its key, and under no other. -/
theorem Key.assign_of_gives (h : k.kind.Gives value d) (s : Settings) :
    ∃ s', k.assign value s = .ok s' ∧ get s' k = d ∧ ∀ k' ≠ k, get s' k' = get s k' := by
  cases k with
  | host | user | password | account | level | file =>
    cases h
    exact ⟨_, rfl, rfl, fun k' hk => by cases k' <;> first | rfl | exact absurd rfl hk⟩
  | passiveMode | console =>
    cases h
    refine ⟨_, rfl, ?_, fun k' hk => by cases k' <;> first | rfl | exact absurd rfl hk⟩
    simp [get, isOn, Bool.or_assoc]
  | connectTimeout | readTimeout | acquireTimeout | keepAliveInterval =>
    cases h with
    | number reads least_le le_greatest =>
      rw [assign, numberIn_of_reads reads ⟨least_le, le_greatest⟩]
      exact ⟨_, rfl, rfl, fun k' hk => by cases k' <;> first | rfl | exact absurd rfl hk⟩
  | port =>
    cases h with
    | @number _ n _ _ reads least_le le_greatest =>
      rw [assign, numberIn_of_reads reads ⟨least_le, le_greatest⟩]
      refine ⟨_, rfl, ?_, fun k' hk => by cases k' <;> first | rfl | exact absurd rfl hk⟩
      have hsize : n.toNat < UInt16.size := show n.toNat < 65536 by omega
      rw [get, UInt16.toNat_ofNat_of_lt' hsize, Int.toNat_of_nonneg (by omega)]
  | maxClients | initialClients =>
    cases h with
    | @number _ n _ _ reads least_le le_greatest =>
      rw [assign, numberIn_of_reads reads ⟨least_le, le_greatest⟩]
      refine ⟨_, rfl, ?_, fun k' hk => by cases k' <;> first | rfl | exact absurd rfl hk⟩
      have hsize : n.toNat < UInt64.size := show n.toNat < 18446744073709551616 by
        have : greatestCount = 2147483647 := rfl
        omega
      rw [get, UInt64.toNat_ofNat_of_lt' hsize, Int.toNat_of_nonneg least_le]

/-- What is refused is not stored. -/
theorem Key.assign_of_refuses (h : k.kind.Refuses value r) (s : Settings) :
    k.assign value s = .error r := by
  have hnumber : ∀ {least greatest : Int}, Kind.Refuses (.number least greatest) value r →
      numberIn least greatest value = .error r := by
    intro least greatest h
    cases h with
    | unreadable unread => rw [numberIn, Number.read?_eq_none_iff.mpr unread]
    | @outside _ n _ _ reads beyond =>
      rw [numberIn, Number.read?_eq_some_iff.mpr reads]
      exact if_neg (by omega)
  cases k with
  | host | user | password | account | level | file | passiveMode | console => cases h
  | port | connectTimeout | readTimeout | acquireTimeout | maxClients | initialClients
  | keepAliveInterval =>
    rw [assign, hnumber h]
    rfl

/-- Every key is found by its names. -/
theorem Key.find?_names (k : Key) : find? k.group.name k.name = some k := by
  cases k <;> decide

/-- A section and a name belong to one key at most. -/
theorem Key.eq_of_names (hgroup : k.group.name = k'.group.name) (hname : k.name = k'.name) :
    k = k' :=
  Option.some.inj ((find?_names k).symm.trans ((hgroup ▸ hname ▸ find?_names k' : _)))

theorem Key.find?_eq_some_iff {sectionName keyName : Text} :
    find? sectionName keyName = some k ↔ k.group.name = sectionName ∧ k.name = keyName := by
  constructor
  · intro h
    have hk := List.find?_some h
    simpa using hk
  · rintro ⟨rfl, rfl⟩
    exact find?_names k

/-! ## What a line says -/

namespace Line

/-- The line is the header of the section of this name. -/
def Heads (line name : Text) : Prop := Text.Trims line (91 :: name ++ [93])

/-- The line assigns this value to this key: after trimming it is neither a remark nor a header,
the key stands before its first equals sign, and the value behind it, perhaps in quotes. -/
def Assigns (line key value : Text) : Prop :=
  ∃ core before after raw : Text, Text.Trims line core ∧
    core.head? ≠ some 35 ∧ core.head? ≠ some 59 ∧ (∀ name, core ≠ 91 :: name ++ [93]) ∧
    core = before ++ equalsSign :: after ∧ equalsSign ∉ before ∧
    Text.Trims before key ∧ Text.Trims after raw ∧ Text.Unquotes raw value

variable {line name key core before after : Text}

theorem isHeader_iff : isHeader core = true ↔ ∃ name, core = 91 :: name ++ [93] := by
  constructor
  · intro h
    simp only [isHeader, Bool.and_eq_true, beq_iff_eq] at h
    obtain ⟨rest, rfl⟩ := List.head?_eq_some_iff.mp h.1
    have hne : rest ≠ [] := by
      rintro rfl
      simp at h
    have hlast : rest.getLast hne = 93 := by
      have := h.2
      rwa [List.getLast?_cons, List.getLast?_eq_some_getLast hne, Option.getD_some,
        Option.some.injEq] at this
    have hrest : rest.dropLast ++ [93] = rest := hlast ▸ List.dropLast_concat_getLast hne
    exact ⟨rest.dropLast, by rw [List.cons_append, hrest]⟩
  · rintro ⟨name, rfl⟩
    have hlast : (91 :: name ++ [93]).getLast? = some (93 : UInt8) := List.getLast?_concat
    rw [isHeader, hlast]
    rfl

/-- A line that is left to be taken for a header or an assignment. -/
theorem ofText_eq (htrim : Text.Trims line core) (hne : core ≠ [])
    (hremark : isRemark core = false) :
    ofText line =
      if isHeader core then header (core.drop 1).dropLast
      else if core.contains equalsSign then
        assignment (Text.trim (core.takeWhile (· ≠ equalsSign)))
          (Text.unquote (Text.trim ((core.dropWhile (· ≠ equalsSign)).drop 1)))
      else other := by
  rw [ofText, htrim.trim_eq]
  exact if_neg (by simp [hne, hremark])

/-- The text before the first equals sign, and the text behind it. -/
theorem split_equalsSign (after : Text) (h : equalsSign ∉ before) :
    (before ++ equalsSign :: after).takeWhile (· ≠ equalsSign) = before ∧
      ((before ++ equalsSign :: after).dropWhile (· ≠ equalsSign)).drop 1 = after := by
  have hbefore : ∀ b ∈ before, decide (b ≠ equalsSign) = true :=
    fun b hb => decide_eq_true fun hb' => h (hb' ▸ hb)
  have hrest : ∀ b ∈ (equalsSign :: after).head?, decide (b ≠ equalsSign) = false := by
    rintro b hb
    obtain rfl := Option.some.inj hb
    decide
  rw [Text.takeWhile_append_eq hbefore hrest, Text.dropWhile_append_eq hbefore hrest]
  exact ⟨rfl, rfl⟩

theorem ofText_of_heads (h : Heads line name) : ofText line = .header name := by
  have hheader : isHeader (91 :: name ++ [93]) = true := isHeader_iff.mpr ⟨name, rfl⟩
  rw [ofText_eq h (List.cons_ne_nil _ _) rfl, if_pos hheader]
  simp

theorem ofText_of_assigns (h : Assigns line key value) : ofText line = .assignment key value := by
  obtain ⟨core, before, after, raw, htrim, h35, h59, hheader, rfl, hnot, hkey, hraw, hvalue⟩ := h
  obtain ⟨htake, hdrop⟩ := split_equalsSign after hnot
  have hremark : isRemark (before ++ equalsSign :: after) = false := by
    rw [isRemark, Bool.or_eq_false_iff, beq_eq_false_iff_ne, beq_eq_false_iff_ne]
    exact ⟨h35, h59⟩
  have hno : ¬ isHeader (before ++ equalsSign :: after) = true :=
    fun h => (isHeader_iff.mp h).elim hheader
  have hmem : (before ++ equalsSign :: after).contains equalsSign = true := by simp
  rw [ofText_eq htrim (by simp) hremark, if_neg hno, if_pos hmem, htake, hdrop, hkey.trim_eq,
    hraw.trim_eq, Text.unquote_eq_iff.mpr hvalue]

/-- What is taken for a header is one, and what is taken for an assignment is one. -/
theorem of_ofText (line : Text) : (∀ name, ofText line = .header name → Heads line name) ∧
    ∀ key value, ofText line = .assignment key value → Assigns line key value := by
  have htrim : Text.Trims line line.trim := Text.trims_trim line
  by_cases hremark : line.trim = [] ∨ isRemark line.trim = true
  · have hnothing : ofText line = nothing := by
      rw [ofText]
      exact if_pos (by simpa using hremark)
    rw [hnothing]
    exact ⟨nofun, nofun⟩
  rw [not_or, Bool.not_eq_true] at hremark
  rw [ofText_eq htrim hremark.1 hremark.2]
  split
  · next hheader =>
    obtain ⟨name, hname⟩ := isHeader_iff.mp hheader
    refine ⟨fun name' h => ?_, nofun⟩
    rw [hname] at h
    simp only [List.cons_append, List.drop_succ_cons, List.drop_zero, List.dropLast_concat,
      header.injEq] at h
    rw [hname] at htrim
    exact h ▸ htrim
  · next hheader =>
    split
    · next hmem =>
      refine ⟨nofun, fun key value h => ?_⟩
      rw [List.contains_eq_mem, decide_eq_true_eq] at hmem
      obtain ⟨before, after, hcore, hnot⟩ := List.eq_append_cons_of_mem hmem
      obtain ⟨htake, hdrop⟩ := split_equalsSign after hnot
      rw [hcore, htake, hdrop, assignment.injEq] at h
      simp only [isRemark, Bool.or_eq_false_iff, beq_eq_false_iff_ne, ne_eq] at hremark
      exact ⟨line.trim, before, after, Text.trim after, htrim, hremark.2.1, hremark.2.2,
        fun name hname => hheader (isHeader_iff.mpr ⟨name, hname⟩), hcore, hnot,
        Text.trim_eq_iff.mp h.1, Text.trims_trim after, Text.unquote_eq_iff.mp h.2⟩
    · exact ⟨nofun, nofun⟩

theorem ofText_eq_header_iff : ofText line = .header name ↔ Heads line name :=
  ⟨(of_ofText line).1 name, ofText_of_heads⟩

theorem ofText_eq_assignment_iff : ofText line = .assignment key value ↔ Assigns line key value :=
  ⟨(of_ofText line).2 key value, ofText_of_assigns⟩

theorem Heads.unique {other : Text} (h : Heads line name) (h' : Heads line other) :
    name = other :=
  header.inj ((ofText_of_heads h).symm.trans (ofText_of_heads h'))

theorem Assigns.unique {key' value' : Text} (h : Assigns line key value)
    (h' : Assigns line key' value') : key = key' ∧ value = value' :=
  assignment.inj ((ofText_of_assigns h).symm.trans (ofText_of_assigns h'))

/-- A header assigns nothing. -/
theorem Heads.not_assigns (h : Heads line name) : ¬ Assigns line key value := by
  intro h'
  have hsays := ofText_of_heads h
  rw [ofText_of_assigns h'] at hsays
  cases hsays

end Line

/-! ## What a file says -/

/-- These lines end in the section of this name: it is that of the last header among them. -/
def InSection (ls : List Text) (name : Text) : Prop :=
  ∃ (above : List Text) (header : Text) (between : List Text), ls = above ++ header :: between ∧
    Line.Heads header name ∧ ∀ l ∈ between, ∀ other, ¬ Line.Heads l other

/-- The line of this index assigns a value to a key: it does so by its name, and in the section of
its group. -/
def Assigns (ls : List Text) (i : ℕ) (k : Key) (value : Text) : Prop :=
  ∃ line, ls[i]? = some line ∧ Line.Assigns line k.name value ∧ InSection (ls.take i) k.group.name

/-- Some line assigns this to a key, and no later line assigns anything valid to it. -/
def Prevails (ls : List Text) (k : Key) (d : Datum) : Prop :=
  ∃ i value, Assigns ls i k value ∧ k.kind.Gives value d ∧
    ∀ j value' d', i < j → Assigns ls j k value' → ¬ k.kind.Gives value' d'

/-- No line assigns anything valid to a key. -/
def Unassigned (ls : List Text) (k : Key) : Prop :=
  ∀ i value d, Assigns ls i k value → ¬ k.kind.Gives value d

/-- A line assigns something invalid to a key, and this is the warning of it.  Lines are counted
from one. -/
def Warns (ls : List Text) (w : Warning) : Prop :=
  ∃ i k, w.line = i + 1 ∧ w.key = k.name ∧ Assigns ls i k w.value ∧
    k.kind.Refuses w.value w.refusal

variable {ls : List Text} {l name : Text} {i : ℕ} {w : Warning}

theorem inSection_concat : InSection (ls ++ [l]) name ↔
    Line.Heads l name ∨ (∀ other, ¬ Line.Heads l other) ∧ InSection ls name := by
  constructor
  · rintro ⟨above, header, between, hls, hheads, hbetween⟩
    rcases List.eq_nil_or_concat between with rfl | ⟨between, last, rfl⟩
    · obtain ⟨-, hl⟩ := List.append_inj' hls rfl
      exact .inl ((List.cons.inj hl).1 ▸ hheads)
    · rw [List.concat_eq_append, ← List.cons_append, ← List.append_assoc] at hls
      obtain ⟨rfl, hl⟩ := List.append_inj' hls rfl
      obtain rfl := (List.cons.inj hl).1
      rw [List.concat_eq_append] at hbetween
      exact .inr ⟨hbetween l (by simp), above, header, between, rfl, hheads,
        fun l' hl' => hbetween l' (by simp [hl'])⟩
  · rintro (h | ⟨hnot, above, header, between, rfl, hheads, hbetween⟩)
    · exact ⟨ls, l, [], rfl, h, by simp⟩
    · refine ⟨above, header, between ++ [l], by simp, hheads, fun l' hl' => ?_⟩
      rcases List.mem_append.mp hl' with hl' | hl'
      · exact hbetween l' hl'
      · exact List.mem_singleton.mp hl' ▸ hnot

/-- One line more says what the others say, and what it says in their section. -/
theorem assigns_concat : Assigns (ls ++ [l]) i k value ↔
    Assigns ls i k value ∨
      i = ls.length ∧ Line.Assigns l k.name value ∧ InSection ls k.group.name := by
  rcases Nat.lt_trichotomy i ls.length with hi | rfl | hi
  · simp [Assigns, List.getElem?_append_left hi, List.take_append_of_le_length hi.le, hi.ne]
  · simp [Assigns]
  · have hnone : (ls ++ [l])[i]? = none :=
      List.getElem?_eq_none (List.length_append.trans_le (Nat.succ_le_of_lt hi))
    simp [Assigns, hnone, List.getElem?_eq_none hi.le, hi.ne']

theorem Assigns.lt (h : Assigns ls i k value) : i < ls.length := by
  obtain ⟨line, hline, -⟩ := h
  exact (List.getElem?_eq_some_iff.mp hline).1

/-- More lines do not change what a line says. -/
theorem Assigns.append (h : Assigns ls i k value) (more : List Text) :
    Assigns (ls ++ more) i k value := by
  have hi := h.lt
  obtain ⟨line, hline, hassigns, hsection⟩ := h
  exact ⟨line, by rw [List.getElem?_append_left hi, hline], hassigns,
    by rwa [List.take_append_of_le_length hi.le]⟩

/-- A line that assigns nothing valid to a key does not change what prevails for it. -/
theorem Prevails.concat (h : Prevails ls k d)
    (hnot : ∀ value d', Line.Assigns l k.name value → InSection ls k.group.name →
      ¬ k.kind.Gives value d') : Prevails (ls ++ [l]) k d := by
  obtain ⟨i, value, hassigns, hgives, hlast⟩ := h
  refine ⟨i, value, hassigns.append [l], hgives, fun j value' d' hj h' => ?_⟩
  rcases assigns_concat.mp h' with h' | ⟨-, hline, hsection⟩
  · exact hlast j value' d' hj h'
  · exact hnot value' d' hline hsection

theorem Unassigned.concat (h : Unassigned ls k)
    (hnot : ∀ value d', Line.Assigns l k.name value → InSection ls k.group.name →
      ¬ k.kind.Gives value d') : Unassigned (ls ++ [l]) k := by
  intro i value d' h'
  rcases assigns_concat.mp h' with h' | ⟨-, hline, hsection⟩
  · exact h i value d' h'
  · exact hnot value d' hline hsection

/-- What the last line assigns prevails. -/
theorem prevails_concat (hline : Line.Assigns l k.name value)
    (hsection : InSection ls k.group.name) (h : k.kind.Gives value d) :
    Prevails (ls ++ [l]) k d := by
  refine ⟨ls.length, value, assigns_concat.mpr (.inr ⟨rfl, hline, hsection⟩), h, ?_⟩
  intro j value' d' hj h'
  have hlt := h'.lt
  rw [List.length_append, List.length_singleton] at hlt
  omega

/-! ## One line after the other -/

/-- A reader has in mind what some lines say. -/
structure Reader.Follows (r : Reader) (ls : List Text) : Prop where
  count : r.count = ls.length
  current : ∀ name ≠ [], r.current = name ↔ InSection ls name
  settings : ∀ k, Prevails ls k (k.get r.settings) ∨
    Unassigned ls k ∧ k.get r.settings = k.get {}
  warned : ∀ w, w ∈ r.warnings ↔ Warns ls w
  ordered : r.warnings.Pairwise fun w w' => w.line < w'.line

namespace Reader

variable {r : Reader}

theorem Warns.line_le (h : Warns ls w) : w.line ≤ ls.length := by
  obtain ⟨i, k, hline, -, hassigns, -⟩ := h
  exact hline ▸ hassigns.lt

/-- A line is taken that assigns nothing that could be refused. -/
theorem warns_concat_of_not (hnot : ∀ (k : Key) value refusal, Line.Assigns l k.name value →
      InSection ls k.group.name → ¬ k.kind.Refuses value refusal) :
    Warns (ls ++ [l]) w ↔ Warns ls w := by
  constructor
  · rintro ⟨i, k, hline, hkey, hassigns, hrefuses⟩
    rcases assigns_concat.mp hassigns with h | ⟨-, hl, hsection⟩
    · exact ⟨i, k, hline, hkey, h, hrefuses⟩
    · exact absurd hrefuses (hnot k _ _ hl hsection)
  · rintro ⟨i, k, hline, hkey, hassigns, hrefuses⟩
    exact ⟨i, k, hline, hkey, hassigns.append [l], hrefuses⟩

/-- A line that assigns nothing to any key. -/
theorem Follows.pass (h : r.Follows ls)
    (hnot : ∀ (k : Key) value, Line.Assigns l k.name value → ¬ InSection ls k.group.name)
    {current : Text}
    (hcurrent : ∀ name ≠ [], current = name ↔ InSection (ls ++ [l]) name) :
    Follows { r with count := r.count + 1, current } (ls ++ [l]) where
  count := by simp [h.count]
  current := hcurrent
  settings k := (h.settings k).imp
    (fun hp => hp.concat fun value _ hl hs => absurd hs (hnot k value hl))
    (fun hu => ⟨hu.1.concat fun value _ hl hs => absurd hs (hnot k value hl), hu.2⟩)
  warned w := (h.warned w).trans
    (warns_concat_of_not fun k value _ hl hs => absurd hs (hnot k value hl)).symm
  ordered := h.ordered

/-- The section does not change with a line that is no header. -/
theorem Follows.current_concat (h : r.Follows ls) (hnot : ∀ other, ¬ Line.Heads l other) :
    ∀ name ≠ [], r.current = name ↔ InSection (ls ++ [l]) name := by
  intro name hname
  rw [inSection_concat, h.current name hname]
  exact ⟨fun hs => .inr ⟨hnot, hs⟩, fun hs => hs.elim (fun hh => absurd hh (hnot name)) And.right⟩

theorem Group.name_ne_nil (g : Group) : g.name ≠ [] := by
  cases g <;> decide

/-- A line that assigns a valid value to a key of the section. -/
theorem Follows.store (h : r.Follows ls) (hline : Line.Assigns l k.name value)
    (hsection : InSection ls k.group.name) (hgives : k.kind.Gives value d)
    (honly : ∀ (k' : Key) value', Line.Assigns l k'.name value' → InSection ls k'.group.name →
      k' = k ∧ value' = value) (hnot : ∀ other, ¬ Line.Heads l other) {s : Settings}
    (hs : k.get s = d ∧ ∀ k' ≠ k, k'.get s = k'.get r.settings) :
    Follows { r with count := r.count + 1, settings := s } (ls ++ [l]) where
  count := by simp [h.count]
  current := h.current_concat hnot
  settings k' := by
    by_cases hk : k' = k
    · exact .inl (hk ▸ hs.1 ▸ prevails_concat hline hsection hgives)
    · have hother : ∀ value' d', Line.Assigns l k'.name value' → InSection ls k'.group.name →
          ¬ k'.kind.Gives value' d' :=
        fun value' _ hl hsec => absurd (honly k' value' hl hsec).1 hk
      rw [hs.2 k' hk]
      exact (h.settings k').imp (·.concat hother) fun hu => ⟨hu.1.concat hother, hu.2⟩
  warned w := by
    refine (h.warned w).trans (warns_concat_of_not fun k' value' _ hl hsec hrefuses => ?_).symm
    obtain ⟨rfl, rfl⟩ := honly k' value' hl hsec
    exact hrefuses.not_gives hgives
  ordered := h.ordered

/-- A line that assigns an invalid value to a key of the section. -/
theorem Follows.warn (h : r.Follows ls) (hline : Line.Assigns l k.name value)
    (hsection : InSection ls k.group.name) {refusal : Refusal}
    (hrefuses : k.kind.Refuses value refusal)
    (honly : ∀ (k' : Key) value', Line.Assigns l k'.name value' → InSection ls k'.group.name →
      k' = k ∧ value' = value) (hnot : ∀ other, ¬ Line.Heads l other) :
    Follows { r with
      count := r.count + 1
      warnings := r.warnings ++ [⟨r.count + 1, k.name, value, refusal⟩] } (ls ++ [l]) where
  count := by simp [h.count]
  current := h.current_concat hnot
  settings k' := by
    have hnone : ∀ value' d', Line.Assigns l k'.name value' → InSection ls k'.group.name →
        ¬ k'.kind.Gives value' d' := by
      intro value' d' hl hsec
      obtain ⟨rfl, rfl⟩ := honly k' value' hl hsec
      exact hrefuses.not_gives
    exact (h.settings k').imp (·.concat hnone) fun hu => ⟨hu.1.concat hnone, hu.2⟩
  warned w := by
    rw [List.mem_append, List.mem_singleton, h.warned w]
    constructor
    · rintro (⟨i, k', hw, hkey, hassigns, hr⟩ | rfl)
      · exact ⟨i, k', hw, hkey, hassigns.append [l], hr⟩
      · exact ⟨ls.length, k, congrArg (· + 1) h.count, rfl,
          assigns_concat.mpr (.inr ⟨rfl, hline, hsection⟩), hrefuses⟩
    · rintro ⟨i, k', hw, hkey, hassigns, hr⟩
      rcases assigns_concat.mp hassigns with hassigns | ⟨rfl, hl, hsec⟩
      · exact .inl ⟨i, k', hw, hkey, hassigns, hr⟩
      · obtain ⟨rfl, hvalue⟩ := honly k' w.value hl hsec
        obtain ⟨line, key, value', refusal'⟩ := w
        obtain rfl : value' = value := hvalue
        obtain rfl : refusal' = refusal := hr.unique hrefuses
        obtain rfl : line = ls.length + 1 := hw
        obtain rfl : key = k'.name := hkey
        rw [h.count]
        exact .inr rfl
  ordered := by
    rw [List.pairwise_append]
    refine ⟨h.ordered, List.pairwise_singleton _ _, fun w hw w' hw' => ?_⟩
    obtain rfl := List.mem_singleton.mp hw'
    have := Warns.line_le ((h.warned w).mp hw)
    simp only [h.count]
    omega

/-- A header. -/
theorem Follows.head (h : r.Follows ls) (hheads : Line.Heads l name) :
    (r.line l).Follows (ls ++ [l]) := by
  rw [Reader.line, Line.ofText_of_heads hheads]
  refine h.pass (fun k value hl => absurd hl hheads.not_assigns) fun other _ => ?_
  rw [inSection_concat]
  refine ⟨fun heq => .inl (heq ▸ hheads), ?_⟩
  rintro (hother | ⟨hnot, -⟩)
  · exact hheads.unique hother
  · exact absurd hheads (hnot name)

/-- An assignment, which is to a key of the section or to none. -/
theorem Follows.assign {key : Text} (h : r.Follows ls) (hassigns : Line.Assigns l key value) :
    (r.line l).Follows (ls ++ [l]) := by
  have hnot : ∀ other, ¬ Line.Heads l other := fun other hh => hh.not_assigns hassigns
  have hcurrent : ∀ k : Key, InSection ls k.group.name ↔ k.group.name = r.current :=
    fun k => (h.current _ (Group.name_ne_nil _)).symm.trans eq_comm
  rw [Reader.line, Line.ofText_of_assigns hassigns, take, Reader.store]
  cases hfind : Key.find? r.current key with
  | none =>
    refine h.pass (fun k value' hl hsec => ?_) (h.current_concat hnot)
    have hk := Key.find?_eq_some_iff.mpr ⟨(hcurrent k).mp hsec, (hl.unique hassigns).1⟩
    rw [hfind] at hk
    cases hk
  | some k =>
    obtain ⟨hgroup, rfl⟩ := Key.find?_eq_some_iff.mp hfind
    have hsection : InSection ls k.group.name := (hcurrent k).mpr hgroup
    have honly : ∀ (k' : Key) value', Line.Assigns l k'.name value' →
        InSection ls k'.group.name → k' = k ∧ value' = value := by
      intro k' value' hl hsec
      obtain ⟨hname, hvalue⟩ := hl.unique hassigns
      exact ⟨Key.eq_of_names (((hcurrent k').mp hsec).trans hgroup.symm) hname, hvalue⟩
    rcases Kind.gives_or_refuses k.kind value with ⟨d, hgives⟩ | ⟨refusal, hrefuses⟩
    · obtain ⟨s, hs, hget⟩ := Key.assign_of_gives hgives r.settings
      simp only [hs]
      exact h.store hassigns hsection hgives honly hnot hget
    · simp only [Key.assign_of_refuses hrefuses]
      exact h.warn hassigns hsection hrefuses honly hnot

/-- The reader goes on to follow with every line. -/
theorem Follows.line (h : r.Follows ls) (l : Text) : (r.line l).Follows (ls ++ [l]) := by
  cases hsays : Line.ofText l with
  | nothing | other =>
    have hheads : ∀ other, ¬ Line.Heads l other := fun other hh => by
      rw [← Line.ofText_eq_header_iff, hsays] at hh
      cases hh
    rw [Reader.line, hsays]
    refine h.pass (fun k value hl => ?_) (h.current_concat hheads)
    rw [← Line.ofText_eq_assignment_iff, hsays] at hl
    cases hl
  | header name => exact h.head (Line.ofText_eq_header_iff.mp hsays)
  | assignment key value => exact h.assign (Line.ofText_eq_assignment_iff.mp hsays)

/-- A reader follows the lines of a file. -/
theorem follows (ls : List Text) : (ls.foldl Reader.line {}).Follows ls := by
  induction ls using List.reverseRecOn with
  | nil =>
    have hnone : ∀ i k value, ¬ Assigns [] i k value := fun i k value h => by
      simpa using h.lt
    refine ⟨rfl, fun name hname => ?_, fun k => .inr ⟨fun i value d h => ?_, rfl⟩,
      fun w => ⟨nofun, ?_⟩, List.Pairwise.nil⟩
    · refine ⟨fun h => absurd h.symm hname, ?_⟩
      rintro ⟨above, header, between, hls, -⟩
      simp at hls
    · exact absurd h (hnone i k value)
    · rintro ⟨i, k, -, -, h, -⟩
      exact absurd h (hnone i k w.value)
  | append_singleton ls l ih =>
    rw [List.foldl_append]
    exact ih.line l

end Reader

/-- Each field has the value of the last line that assigns a valid one to it, or its default, and
there is one warning for every line that assigns an invalid number to a field, in their order. -/
theorem last_valid_assignment_wins (content path : Text) :
    (∀ k : Key, Prevails (Text.lines content) k (k.get (ofFile content)) ∨
      Unassigned (Text.lines content) k ∧ k.get (ofFile content) = k.get {}) ∧
    ∃ ws : List Warning, fileEntries path content = ws.map (Warning.entry path) ∧
      (∀ w, w ∈ ws ↔ Warns (Text.lines content) w) ∧
      ws.Pairwise fun w w' => w.line < w'.line := by
  have h : (Reader.file content).Follows (Text.lines content) := Reader.follows _
  exact ⟨h.settings, _, rfl, h.warned, h.ordered⟩

/-- A valid number stays if an invalid one comes after it. -/
example : (ofFile (Text.ascii
    "[pool]\nmax_clients = 7\n[other]\nmax_clients = 8\n[pool]\nmax_clients = none")
      ).pool.maxClients = 7 := by decide +kernel

end Settings
end SessionPool
