import SessionPool.Proofs.Assignments
import SessionPool.Settings.Writer

/-!
# Whatever is written is read back

Settings can be written into a file and read from it again, whatever their texts are, as long as
there is no line feed in them.  A text may look like a remark, a header, an assignment or the end of
a quotation: a line is looked at from its two ends and up to its first equals sign, and in the line
of a key there is nothing of the text at these places but the quotation marks around it.

What a file says is known from its lines (`Settings.Reader.follows`), so that it is enough to know
what the lines say that are written, wherever they stand.

* `Kind.Holds`, `Writable`: what can be written.
* `assigns_keyLine`, `heads_headerLine`: what the lines say.
* `inSection_part`, `assigns_part`: what the lines of one group say behind others.
* `written_settings_read_back`: the settings are those that were written, and nothing is warned of.
-/

namespace SessionPool
namespace Settings

/-! ## What can be written -/

/-- What can be written under a key of a kind so that it is read back: a text without line feeds, a
switch, a number in range. -/
inductive Kind.Holds : Kind → Datum → Prop where
  | text {t : Text} (whole : Text.lineFeed ∉ t) : Holds .text (.text t)
  | switch (on : Bool) : Holds .switch (.switch on)
  | number {n least greatest : Int} (least_le : least ≤ n) (le_greatest : n ≤ greatest) :
      Holds (.number least greatest) (.number n)

/-- Settings that can be written down. -/
def Writable (s : Settings) : Prop := ∀ k : Key, k.kind.Holds (k.get s)

namespace Datum

/-- What is written for a field. -/
def written : Datum → Text
  | .text t => quoted t
  | .switch on => onOff on
  | .number n => Text.ofInt n

/-- What is written for a field, without the quotes around it. -/
def value : Datum → Text
  | .text t => t
  | .switch on => onOff on
  | .number n => Text.ofInt n

end Datum

variable {s : Settings} {k : Key} {d : Datum} {kind : Kind}

theorem written_eq (s : Settings) (k : Key) : s.written k = (k.get s).written := by
  cases k <;> rfl

/-- The ranges of numbers begin with zero or one and end with a number of 64 bits. -/
theorem Key.range_of_kind {least greatest : Int} (h : k.kind = .number least greatest) :
    0 ≤ least ∧ greatest ≤ Number.greatest := by
  cases k with
  | host | user | password | account | level | file | passiveMode | console => cases h
  | port | connectTimeout | readTimeout | acquireTimeout | maxClients | initialClients
  | keepAliveInterval =>
    cases h
    decide

/-! ## What is written for a field -/

/-- A text in quotes is not empty, and has no blank at its ends. -/
theorem bare_quoted {t : Text} (hwhole : Text.lineFeed ∉ t) :
    quoted t ≠ [] ∧ Text.Bare (quoted t) ∧ Text.lineFeed ∉ quoted t := by
  have hends : quoted t = 34 :: (t ++ [34]) := rfl
  have hlast : (quoted t).getLast? = some 34 := List.getLast?_concat (l := 34 :: t)
  refine ⟨List.cons_ne_nil _ _, ⟨fun b hb => ?_, fun b hb => ?_⟩, fun hmem => ?_⟩
  · exact Option.some.inj hb ▸ rfl
  · rw [hlast] at hb
    exact Option.some.inj hb ▸ rfl
  · rw [hends, List.mem_cons, List.mem_append, List.mem_singleton] at hmem
    rcases hmem with hmem | hmem | hmem
    · cases hmem
    · exact hwhole hmem
    · cases hmem

/-- A number in decimal is not empty, and has nothing but digits in it. -/
theorem bare_decimal (n : ℕ) :
    Text.decimal n ≠ [] ∧ Text.Bare (Text.decimal n) ∧ Text.lineFeed ∉ Text.decimal n := by
  refine ⟨Number.decimal_ne_nil n, ⟨fun b hb => ?_, fun b hb => ?_⟩, fun hmem => ?_⟩
  · exact Number.isBlank_of_isDigit (Number.isDigit_of_mem_decimal (List.mem_of_mem_head? hb))
  · exact Number.isBlank_of_isDigit (Number.isDigit_of_mem_decimal (List.mem_of_mem_getLast? hb))
  · cases Number.isDigit_of_mem_decimal hmem

section Fields

variable (h : k.kind.Holds d)

include h

theorem holds_cases : (∃ t, d = .text t ∧ Text.lineFeed ∉ t) ∨ (∃ on, d = .switch on) ∨
    ∃ n : ℕ, d = .number n ∧ (n : Int) ≤ Number.greatest := by
  generalize hkind : k.kind = kind at h
  cases h with
  | text whole => exact .inl ⟨_, rfl, whole⟩
  | switch on => exact .inr (.inl ⟨on, rfl⟩)
  | @number n least greatest least_le le_greatest =>
    obtain ⟨hleast, hgreatest⟩ := Key.range_of_kind hkind
    obtain ⟨m, rfl⟩ := Int.eq_ofNat_of_zero_le (Int.le_trans hleast least_le)
    exact .inr (.inr ⟨m, rfl, Int.le_trans le_greatest hgreatest⟩)

/-- A field is read from what is written for it. -/
theorem gives_value : k.kind.Gives d.value d := by
  generalize hkind : k.kind = kind at h
  cases h with
  | @text t whole => exact .text t
  | switch on =>
    have hon : on = decide (onOff on = Text.ascii "true" ∨ onOff on = Text.ascii "1" ∨
        onOff on = Text.ascii "yes") := by
      cases on <;> decide +kernel
    have hgives := Kind.Gives.switch (onOff on)
    rw [← hon] at hgives
    exact hgives
  | @number n least greatest least_le le_greatest =>
    obtain ⟨hleast, hgreatest⟩ := Key.range_of_kind hkind
    obtain ⟨m, rfl⟩ := Int.eq_ofNat_of_zero_le (Int.le_trans hleast least_le)
    exact .number (Number.reads_decimal (Int.le_trans le_greatest hgreatest)) least_le le_greatest

/-- Only the quotes around a text are taken off. -/
theorem unquotes_written : Text.Unquotes d.written d.value := by
  rcases holds_cases h with ⟨t, rfl, -⟩ | ⟨on, rfl⟩ | ⟨n, rfl, -⟩
  · exact .inl ⟨34, .inl rfl, rfl⟩
  · refine .inr ⟨rfl, fun q inner hq ht => ?_⟩
    have hhead : (onOff on).head? = some q := congrArg List.head? ht
    rcases hq with rfl | rfl
    · cases on <;> cases hhead
    · cases on <;> cases hhead
  · refine .inr ⟨rfl, fun q inner hq ht => ?_⟩
    have hdigit : Text.isDigit q = true :=
      Number.isDigit_of_mem_decimal (m := n) (List.mem_of_mem_head? (congrArg List.head? ht))
    rcases hq with rfl | rfl
    · cases hdigit
    · cases hdigit

/-- What is written for a field is not empty, has no blank at its ends and no line feed in it. -/
theorem bare_written : d.written ≠ [] ∧ Text.Bare d.written ∧ Text.lineFeed ∉ d.written := by
  rcases holds_cases h with ⟨t, rfl, hwhole⟩ | ⟨on, rfl⟩ | ⟨n, rfl, -⟩
  · exact bare_quoted hwhole
  · cases on
    all_goals exact ⟨by decide +kernel, ⟨by decide +kernel, by decide +kernel⟩, by decide +kernel⟩
  · exact bare_decimal n

end Fields

/-! ## What the lines say -/

/-- The name of a key begins with a letter, ends with no blank, and has no equals sign or line feed
in it. -/
theorem Key.name_spec (k : Key) : Text.Bare k.name ∧ equalsSign ∉ k.name ∧
    Text.lineFeed ∉ k.name ∧ ∃ b ∈ k.name.head?, b ≠ 35 ∧ b ≠ 59 ∧ b ≠ 91 := by
  cases k
  all_goals
    exact ⟨⟨by decide +kernel, by decide +kernel⟩, by decide +kernel, by decide +kernel, _, rfl,
      by decide +kernel⟩

/-- The line of a key assigns to it what is written. -/
theorem assigns_keyLine (h : k.kind.Holds (k.get s)) :
    Line.Assigns (s.keyLine k) k.name (k.get s).value := by
  obtain ⟨hne, hbare, -⟩ := bare_written h
  obtain ⟨hname, hequals, -, b, hb, h35, h59, h91⟩ := k.name_spec
  have hcore : s.keyLine k = (k.name ++ [32]) ++ equalsSign :: (32 :: s.written k) := by
    simp [keyLine, show Text.ascii " = " = [32, equalsSign, 32] from by decide +kernel]
  have hhead : (s.keyLine k).head? = some b := by
    rw [hcore, List.append_assoc]
    exact Text.mem_head?_of_append hb
  have hlast : (s.keyLine k).getLast? = (s.written k).getLast? := by
    rw [hcore, written_eq, List.getLast?_append_of_ne_nil _ (List.cons_ne_nil _ _),
      List.getLast?_cons_cons, List.getLast?_cons, List.getLast?_eq_some_getLast hne]
    rfl
  rw [written_eq] at hlast
  refine ⟨s.keyLine k, k.name ++ [32], 32 :: s.written k, s.written k, Text.Bare.trims ⟨?_, ?_⟩,
    ?_, ?_, fun other hother => ?_, hcore, ?_, ?_, ?_, ?_⟩
  · intro b' hb'
    rw [hhead] at hb'
    exact Option.some.inj hb' ▸ hname.head b hb
  · intro b' hb'
    rw [hlast] at hb'
    exact hbare.last b' hb'
  · rw [hhead]
    exact fun heq => h35 (Option.some.inj heq)
  · rw [hhead]
    exact fun heq => h59 (Option.some.inj heq)
  · rw [hother] at hhead
    exact h91 (Option.some.inj hhead).symm
  · rw [List.mem_append, not_or]
    exact ⟨hequals, by decide +kernel⟩
  · exact ⟨⟨[], [32], by simp, by simp, by decide +kernel⟩, hname⟩
  · rw [written_eq]
    exact ⟨⟨[32], [], by simp, by decide +kernel, by simp⟩, hbare⟩
  · rw [written_eq]
    exact unquotes_written h

/-- The line that begins the section of a group is its header. -/
theorem heads_headerLine (g : Group) : Line.Heads (headerLine g) g.name := by
  have hbare : Text.Bare (headerLine g) := by
    cases g
    all_goals exact ⟨by decide +kernel, by decide +kernel⟩
  exact hbare.trims

theorem lineFeed_notMem_headerLine (g : Group) : Text.lineFeed ∉ headerLine g := by
  cases g <;> decide +kernel

theorem lineFeed_notMem_keyLine (h : k.kind.Holds (k.get s)) :
    Text.lineFeed ∉ s.keyLine k := by
  obtain ⟨-, -, hname, -⟩ := k.name_spec
  rw [keyLine, written_eq, List.mem_append, List.mem_append, not_or, not_or]
  exact ⟨⟨hname, by decide +kernel⟩, (bare_written h).2.2⟩

/-! ## What the lines of a group say -/

/-- The lines of a group. -/
def partLines (s : Settings) (g : Group) (ks : List Key) : List Text :=
  headerLine g :: ks.map s.keyLine

theorem partLines_concat (g : Group) (ks : List Key) (k : Key) :
    s.partLines g (ks ++ [k]) = s.partLines g ks ++ [s.keyLine k] := by
  simp [partLines]

section Part

variable (hs : s.Writable) (ls : List Text) (g : Group)

include hs

theorem not_heads_keyLine (k : Key) (name : Text) : ¬ Line.Heads (s.keyLine k) name :=
  fun h => h.not_assigns (assigns_keyLine (hs k))

/-- Behind the lines of a group one is in its section. -/
theorem inSection_part (ks : List Key) {name : Text} :
    InSection (ls ++ s.partLines g ks) name ↔ g.name = name := by
  induction ks using List.reverseRecOn with
  | nil =>
    rw [partLines, List.map_nil, inSection_concat]
    refine ⟨?_, fun h => .inl (h ▸ heads_headerLine g)⟩
    rintro (h | ⟨hnot, -⟩)
    · exact (heads_headerLine g).unique h
    · exact absurd (heads_headerLine g) (hnot _)
  | append_singleton ks k ih =>
    rw [partLines_concat, ← List.append_assoc, inSection_concat, ih]
    exact ⟨fun h => h.elim (fun h => absurd h (not_heads_keyLine hs k _)) And.right,
      fun h => .inr ⟨not_heads_keyLine hs k, h⟩⟩

/-- The lines of a group assign what is written to its keys, and nothing else. -/
theorem assigns_part (ks : List Key) (hks : ∀ k ∈ ks, k.group = g) :
    (∀ {i k value}, Assigns (ls ++ s.partLines g ks) i k value →
      Assigns ls i k value ∨ value = (k.get s).value) ∧
    ∀ k ∈ ks, ∃ i, Assigns (ls ++ s.partLines g ks) i k (k.get s).value := by
  induction ks using List.reverseRecOn with
  | nil =>
    refine ⟨fun {i k value} h => ?_, nofun⟩
    rcases assigns_concat.mp h with h | ⟨-, h, -⟩
    · exact .inl h
    · exact absurd h (heads_headerLine g).not_assigns
  | append_singleton ks k ih =>
    obtain ⟨honly, hall⟩ := ih fun k' hk' => hks k' (List.mem_append_left _ hk')
    have hgroup : k.group = g := hks k (by simp)
    rw [partLines_concat, ← List.append_assoc]
    refine ⟨fun {i k' value} h => ?_, fun k' hk' => ?_⟩
    · rcases assigns_concat.mp h with h | ⟨-, hline, hsection⟩
      · exact honly h
      · obtain ⟨hname, hvalue⟩ := hline.unique (assigns_keyLine (hs k))
        rw [inSection_part hs ls g ks, ← hgroup] at hsection
        obtain rfl := Key.eq_of_names hsection hname.symm
        exact .inr hvalue
    · rcases List.mem_append.mp hk' with hk' | hk'
      · obtain ⟨i, hi⟩ := hall k' hk'
        exact ⟨i, hi.append _⟩
      · obtain rfl := List.mem_singleton.mp hk'
        exact ⟨_, assigns_concat.mpr (.inr ⟨rfl, assigns_keyLine (hs k'),
          (inSection_part hs ls g ks).mpr (by rw [hgroup])⟩)⟩

/-- The lines of a file assign what is written to the keys that they name, and nothing else. -/
theorem assigns_writtenLines {layout : Layout}
    (hlayout : ∀ part ∈ layout, ∀ k ∈ part.2, k.group = part.1) :
    (∀ {i k value}, Assigns (s.writtenLines layout) i k value → value = (k.get s).value) ∧
    ∀ part ∈ layout, ∀ k ∈ part.2, ∃ i, Assigns (s.writtenLines layout) i k (k.get s).value := by
  induction layout using List.reverseRecOn with
  | nil => exact ⟨fun {i k value} h => absurd h.lt (Nat.not_lt_zero i), nofun⟩
  | append_singleton layout part ih =>
    obtain ⟨honly, hall⟩ := ih fun part' h => hlayout part' (List.mem_append_left _ h)
    have hlines : s.writtenLines (layout ++ [part]) =
        s.writtenLines layout ++ s.partLines part.1 part.2 := by
      simp [writtenLines, partLines]
    obtain ⟨hmore, hpart⟩ := assigns_part hs (s.writtenLines layout) part.1 part.2
      (hlayout part (by simp))
    rw [hlines]
    refine ⟨fun {i k value} h => (hmore h).elim honly id, fun part' h k hk => ?_⟩
    rcases List.mem_append.mp h with h | h
    · obtain ⟨i, hi⟩ := hall part' h k hk
      exact ⟨i, hi.append _⟩
    · obtain rfl := List.mem_singleton.mp h
      exact hpart k hk

end Part

/-! ## Reading what was written -/

/-- A complete layout names every key in the section of its group. -/
theorem Layout.IsComplete.exists_part {layout : Layout} (h : layout.IsComplete) (k : Key) :
    ∃ part ∈ layout, k ∈ part.2 := by
  have hgroup : k.group ∈ layout.map Prod.fst :=
    h.groups.mem_iff.mpr (by cases k.group <;> decide)
  obtain ⟨part, hpart, hfst⟩ := List.mem_map.mp hgroup
  refine ⟨part, hpart, (h.keys part hpart).mem_iff.mpr ?_⟩
  rw [List.mem_filter, decide_eq_true_eq]
  exact ⟨by cases k <;> decide, hfst.symm⟩

theorem Layout.IsComplete.group_eq {layout : Layout} (h : layout.IsComplete) :
    ∀ part ∈ layout, ∀ k ∈ part.2, k.group = part.1 := by
  intro part hpart k hk
  have hmem := (h.keys part hpart).mem_iff.mp hk
  rw [List.mem_filter, decide_eq_true_eq] at hmem
  exact hmem.2

/-- The lines of a file that is written are the lines that were written. -/
theorem lines_toFile (hs : s.Writable) (layout : Layout) :
    Text.lines (s.toFile layout) = s.writtenLines layout := by
  refine Text.lines_flatMap fun l hl => ?_
  obtain ⟨part, -, hl⟩ := List.mem_flatMap.mp hl
  rcases List.mem_cons.mp hl with rfl | hl
  · exact lineFeed_notMem_headerLine part.1
  · obtain ⟨k, -, rfl⟩ := List.mem_map.mp hl
    exact lineFeed_notMem_keyLine (hs k)

/-- Settings are read back as they were written, in whatever order their sections and the keys in
them stand in the file, and nothing is warned of. -/
theorem written_settings_read_back {s : Settings} (hs : s.Writable) {layout : Layout}
    (hlayout : layout.IsComplete) (path : Text) :
    ofFile (s.toFile layout) = s ∧ fileEntries path (s.toFile layout) = [] := by
  have hfollows : (Reader.file (s.toFile layout)).Follows (s.writtenLines layout) := by
    rw [← lines_toFile hs layout]
    exact Reader.follows _
  obtain ⟨honly, hall⟩ := assigns_writtenLines hs hlayout.group_eq
  constructor
  · refine eq_of_get fun k => ?_
    obtain ⟨part, hpart, hk⟩ := hlayout.exists_part k
    obtain ⟨i, hassigns⟩ := hall part hpart k hk
    have hgives : k.kind.Gives (k.get s).value (k.get s) := gives_value (hs k)
    rcases hfollows.settings k with ⟨j, value, hassigns', hgives', -⟩ | ⟨hnone, -⟩
    · rw [honly hassigns'] at hgives'
      exact hgives'.unique hgives
    · exact absurd hgives (hnone i _ _ hassigns)
  · rw [fileEntries, List.map_eq_nil_iff, List.eq_nil_iff_forall_not_mem]
    intro w hw
    obtain ⟨i, k, -, -, hassigns, hrefuses⟩ := (hfollows.warned w).mp hw
    rw [honly hassigns] at hrefuses
    exact hrefuses.not_gives (gives_value (hs k))

/-- Settings whose texts look like everything that a file can contain. -/
def misleading : Settings where
  connection :=
    { host := Text.ascii " [pool] ", port := 65535, user := Text.ascii "\"",
      password := Text.ascii "\" # ; = ]\r\x00\t'", account := Text.ascii "''",
      connectTimeout := Number.greatest, readTimeout := 0, passiveMode := false }
  pool :=
    { maxClients := 0, acquireTimeout := Number.greatest, initialClients := 2147483647,
      keepAliveInterval := greatestCount }
  journal := { level := [], file := Text.ascii "level = \"debug\"", console := false }

/-- The usual layout from its end to its beginning. -/
def Layout.backwards : Layout := (Layout.usual.map fun part => (part.1, part.2.reverse)).reverse

theorem written_settings_read_back_misleading :
    misleading.Writable ∧ Layout.backwards.IsComplete ∧
      ofFile (misleading.toFile .backwards) = misleading ∧
      fileEntries (Text.ascii "config.ini") (misleading.toFile .backwards) = [] := by
  have hwritable : misleading.Writable := by
    intro k
    cases k
    all_goals
      constructor
      all_goals decide
  have hcomplete : Layout.backwards.IsComplete := ⟨by decide, by decide⟩
  exact ⟨hwritable, hcomplete,
    written_settings_read_back hwritable hcomplete (Text.ascii "config.ini")⟩

end Settings
end SessionPool
