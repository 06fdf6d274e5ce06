import Mathlib.Order.WellFounded
import SessionPool.Translation

/-!
# What a reply stands for

The text of a reply may speak of several failures at once, and its code of yet another.  Then one
ground goes before the other.  Which grounds apply depends on what was tried, so that each of them
is stated for the operations one by one; and of those that apply the first decides.

* `Ground.Applies`: when each of the six grounds applies.
* `Ground.Decides`: the ground that applies while none before it does.
* `Attempt.Concerns`: what a failure repeats of the attempt.
* `Ground.Decides.classify_eq`: the kind of a failure is that of the ground that decides.
* `translation_by_precedence`: all that a failure says.
-/

namespace SessionPool

variable {w : Wording} {a : Attempt} {r : Reply}

/-! ## Grounds -/

/-- The grounds on which a reply is taken for a failure of some kind. -/
inductive Ground where
  | fullDirectory
  | missingRights
  | takenName
  | missingByText
  | missingByCode
  | unclear
  deriving DecidableEq

namespace Ground

/-- The place of a ground in the order of precedence. -/
def rank : Ground → ℕ
  | fullDirectory => 1
  | missingRights => 2
  | takenName => 3
  | missingByText => 4
  | missingByCode => 5
  | unclear => 6

/-- The kind of failure that a ground speaks for. -/
def kind : Ground → FailureKind
  | fullDirectory => .directoryNotEmpty
  | missingRights => .accessDenied
  | takenName => .alreadyExists
  | missingByText => .notFound
  | missingByCode => .notFound
  | unclear => .ioError

/-- A ground applies to an attempt and the reply to it. -/
inductive Applies (w : Wording) : Ground → Attempt → Reply → Prop
  /-- A directory was to be deleted, and the text says that it is not empty. -/
  | notEmpty {path : Text} {r : Reply} (text : w.directoryNotEmpty r.text = true) :
      Applies w fullDirectory (.delete path true) r
  /-- The text says that rights are missing. -/
  | denied {a : Attempt} {r : Reply} (text : w.accessDenied r.text = true) :
      Applies w missingRights a r
  /-- The code says so: nobody is logged in, or an account is needed. -/
  | notLoggedIn {a : Attempt} {r : Reply} (code : r.code = 530 ∨ r.code = 532) :
      Applies w missingRights a r
  /-- A directory was to be created, and the text says that its name is taken. -/
  | createDirectory {path : Text} {r : Reply} (text : w.alreadyExists r.text = true) :
      Applies w takenName (.createDirectory path) r
  /-- The text says so of the target of a copy. -/
  | copy {source target : Text} {r : Reply} (text : w.alreadyExists r.text = true) :
      Applies w takenName (.copy source target) r
  /-- The text says so of the target of a move. -/
  | move {source target : Text} {r : Reply} (text : w.alreadyExists r.text = true) :
      Applies w takenName (.move source target) r
  /-- The text says so of a file that was to be new. -/
  | newFile {path : Text} {options : List OpenOption} {r : Reply}
      (text : w.alreadyExists r.text = true) (new : .createNew ∈ options) :
      Applies w takenName (.newOutputStream path options) r
  /-- A directory was to be created, and the code says that it is there. -/
  | directoryThere {path : Text} {r : Reply} (code : r.code = 521) :
      Applies w takenName (.createDirectory path) r
  /-- The text says that something is missing. -/
  | notFound {a : Attempt} {r : Reply} (text : w.notFound r.text = true) :
      Applies w missingByText a r
  /-- The code says that a file is not available, and the attempt was not one to create it. -/
  | unavailable {a : Attempt} {r : Reply} (code : r.code = 450 ∨ r.code = 550)
      (noDirectory : ∀ path, a ≠ .createDirectory path)
      (noNewFile : ∀ path options, a = .newOutputStream path options →
        .create ∉ options ∧ .createNew ∉ options) :
      Applies w missingByCode a r
  /-- Failures that nothing is known about. -/
  | unknown {a : Attempt} {r : Reply} : Applies w unclear a r

/-- The ground that decides applies, and none before it does. -/
structure Decides (w : Wording) (g : Ground) (a : Attempt) (r : Reply) : Prop where
  applies : g.Applies w a r
  first : ∀ g' : Ground, g'.rank < g.rank → ¬ g'.Applies w a r

/-! ## When a ground applies -/

/-- The test that a ground is found by. -/
def test (w : Wording) (a : Attempt) (r : Reply) : Ground → Bool
  | fullDirectory => a.deletesDirectory && w.directoryNotEmpty r.text
  | missingRights => w.accessDenied r.text || isRightsCode r.code
  | takenName => a.needsNewName && w.alreadyExists r.text || a.createsDirectory && r.code == 521
  | missingByText => w.notFound r.text
  | missingByCode => isUnavailableCode r.code && a.needsExisting
  | unclear => true

/-- What is found by its test applies. -/
theorem applies_of_test {g : Ground} (h : g.test w a r = true) : g.Applies w a r := by
  cases g with
  | fullDirectory =>
    rw [test, Bool.and_eq_true] at h
    cases a with
    | delete path isDirectory =>
      obtain ⟨rfl, text⟩ : isDirectory = true ∧ _ := h
      exact .notEmpty text
    | _ => cases h.1
  | missingRights =>
    rw [test, isRightsCode, Bool.or_eq_true, Bool.or_eq_true, beq_iff_eq, beq_iff_eq] at h
    exact h.elim .denied .notLoggedIn
  | takenName =>
    rw [test, Bool.or_eq_true, Bool.and_eq_true, Bool.and_eq_true, beq_iff_eq] at h
    rcases h with ⟨hnew, text⟩ | ⟨hcreates, code⟩
    · cases a with
      | createDirectory => exact .createDirectory text
      | copy => exact .copy text
      | move => exact .move text
      | newOutputStream => exact .newFile text (List.contains_iff_mem.mp hnew)
      | _ => cases hnew
    · cases a with
      | createDirectory => exact .directoryThere code
      | _ => cases hcreates
  | missingByText => exact .notFound h
  | missingByCode =>
    rw [test, isUnavailableCode, Bool.and_eq_true, Bool.or_eq_true, beq_iff_eq, beq_iff_eq] at h
    refine .unavailable h.1 ?_ ?_
    · rintro path rfl
      cases h.2
    · rintro path options rfl
      simpa [Attempt.needsExisting, and_comm] using h.2
  | unclear => exact .unknown

/-- What applies is found by its test. -/
theorem Applies.test_eq {g : Ground} (h : g.Applies w a r) : g.test w a r = true := by
  cases h with
  | notEmpty text | createDirectory text | copy text | move text => simp [test, text,
      Attempt.deletesDirectory, Attempt.needsNewName]
  | denied text | notFound text => simp [test, text]
  | notLoggedIn code => simp [test, isRightsCode, code]
  | newFile text new => simp [test, text, Attempt.needsNewName, new]
  | directoryThere code => simp [test, code, Attempt.createsDirectory]
  | unavailable code noDirectory noNewFile =>
    rw [test, isUnavailableCode, Bool.and_eq_true, Bool.or_eq_true, beq_iff_eq, beq_iff_eq]
    refine ⟨code, ?_⟩
    cases a with
    | createDirectory path => exact absurd rfl (noDirectory path)
    | newOutputStream path options =>
      obtain ⟨hcreate, hnew⟩ := noNewFile path options rfl
      simp [Attempt.needsExisting, hcreate, hnew]
    | _ => rfl
  | unknown => rfl

/-- A ground applies if and only if its test finds it. -/
theorem applies_iff {g : Ground} : g.Applies w a r ↔ g.test w a r = true :=
  ⟨Applies.test_eq, applies_of_test⟩

/-! ## The first that applies -/

/-- Some ground decides, since the last one always applies. -/
theorem exists_decides (w : Wording) (a : Attempt) (r : Reply) : ∃ g : Ground, g.Decides w a r := by
  obtain ⟨g, happlies, hfirst⟩ := (measure rank).wf.has_min {g | g.Applies w a r} ⟨_, .unknown⟩
  exact ⟨g, happlies, fun g' hlt h' => hfirst g' h' hlt⟩

/-- The tests are made in the order of precedence. -/
theorem classify_eq_ite : classify w a r =
    if fullDirectory.test w a r then .directoryNotEmpty
    else if missingRights.test w a r then .accessDenied
    else if takenName.test w a r then .alreadyExists
    else if missingByText.test w a r then .notFound
    else if missingByCode.test w a r then .notFound
    else .ioError := by
  have htaken (k : FailureKind) : (if takenName.test w a r then .alreadyExists else k) =
      if a.needsNewName && w.alreadyExists r.text then .alreadyExists
      else if a.createsDirectory && r.code == 521 then .alreadyExists else k := by
    cases htext : a.needsNewName && w.alreadyExists r.text <;> simp [test, htext]
  rw [htaken]
  rfl

/-- The kind of a failure is that of the ground that decides. -/
theorem Decides.classify_eq {g : Ground} (h : g.Decides w a r) : classify w a r = g.kind := by
  have htest : g.test w a r = true := applies_iff.mp h.applies
  have hfirst : ∀ g' : Ground, g'.rank < g.rank → g'.test w a r = false := fun g' hlt =>
    Bool.not_eq_true _ ▸ mt applies_iff.mpr (h.first g' hlt)
  rw [classify_eq_ite]
  cases g with
  | fullDirectory => rw [if_pos htest, kind]
  | missingRights => rw [hfirst fullDirectory (by decide), if_pos htest]; rfl
  | takenName =>
    rw [hfirst fullDirectory (by decide), hfirst missingRights (by decide), if_pos htest]
    rfl
  | missingByText =>
    rw [hfirst fullDirectory (by decide), hfirst missingRights (by decide),
      hfirst takenName (by decide), if_pos htest]
    rfl
  | missingByCode =>
    rw [hfirst fullDirectory (by decide), hfirst missingRights (by decide),
      hfirst takenName (by decide), hfirst missingByText (by decide), if_pos htest]
    rfl
  | unclear =>
    rw [hfirst fullDirectory (by decide), hfirst missingRights (by decide),
      hfirst takenName (by decide), hfirst missingByText (by decide),
      hfirst missingByCode (by decide)]
    rfl

end Ground

/-! ## The whole failure -/

/-- The operation that was tried, the path that it was about, and where a copy or a move was to
go. -/
inductive Attempt.Concerns : Attempt → FileOperation → Text → Text → Prop
  | getFile (path : Text) : Concerns (.getFile path) .getFile path []
  | changeDirectory (path : Text) : Concerns (.changeDirectory path) .changeDirectory path []
  | createDirectory (path : Text) : Concerns (.createDirectory path) .createDirectory path []
  | delete (path : Text) (isDirectory : Bool) :
      Concerns (.delete path isDirectory) .delete path []
  | newInputStream (path : Text) : Concerns (.newInputStream path) .newInputStream path []
  | newOutputStream (path : Text) (options : List OpenOption) :
      Concerns (.newOutputStream path options) .newOutputStream path []
  | copy (source target : Text) : Concerns (.copy source target) .copy source target
  | move (source target : Text) : Concerns (.move source target) .move source target

/-- A failure repeats what was tried. -/
theorem concerns_translate (w : Wording) (a : Attempt) (r : Reply) :
    a.Concerns (translate w a r).operation (translate w a r).file (translate w a r).other := by
  cases a with
  | getFile path => exact .getFile path
  | changeDirectory path => exact .changeDirectory path
  | createDirectory path => exact .createDirectory path
  | delete path isDirectory => exact .delete path isDirectory
  | newInputStream path => exact .newInputStream path
  | newOutputStream path options => exact .newOutputStream path options
  | copy source target => exact .copy source target
  | move source target => exact .move source target

/-- A translator whose members all go by one wording translates every attempt by it. -/
theorem Translator.apply_ofWording (w : Wording) (a : Attempt) :
    (ofWording w).apply a = translate w a := by
  cases a <;> rfl

/-- What is cut from a text begins with a zero byte. -/
theorem Text.exists_eq_uptoNul_append (t : Text) :
    ∃ cut : Text, t = t.uptoNul ++ cut ∧ ∀ b ∈ cut.head?, b = 0 := by
  refine ⟨t.dropWhile (· ≠ 0), List.takeWhile_append_dropWhile.symm, fun b hb => ?_⟩
  have hnot := List.head?_dropWhile_not (· ≠ 0) t
  rw [Option.mem_def.mp hb] at hnot
  simpa using hnot

/-- Whether a reply is translated directly or by the member of a translator, the kind of the failure
is that of the first ground that applies.  The failure repeats what was tried, the code of the
reply, and its text as far as there is no zero byte in it. -/
theorem translation_by_precedence (w : Wording) (a : Attempt) (r : Reply) :
    (Translator.ofWording w).apply a r = translate w a r ∧
    (∀ k, (translate w a r).kind = k ↔ ∃ g : Ground, g.Decides w a r ∧ g.kind = k) ∧
    a.Concerns (translate w a r).operation (translate w a r).file (translate w a r).other ∧
    (translate w a r).reply.code = r.code ∧
    ∃ cut, r.text = (translate w a r).text ++ cut ∧ (0 : UInt8) ∉ (translate w a r).text ∧
      ∀ b ∈ cut.head?, b = 0 := by
  have hkind : ∀ k, classify w a r = k ↔ ∃ g : Ground, g.Decides w a r ∧ g.kind = k := by
    intro k
    constructor
    · rintro rfl
      obtain ⟨g, hg⟩ := Ground.exists_decides w a r
      exact ⟨g, hg, hg.classify_eq.symm⟩
    · rintro ⟨g, hg, rfl⟩
      exact hg.classify_eq
  obtain ⟨cut, htext, hcut⟩ := Text.exists_eq_uptoNul_append r.text
  exact ⟨congrFun (Translator.apply_ofWording w a) r, hkind, concerns_translate w a r, rfl, cut,
    htext, Text.zero_notMem_uptoNul r.text, hcut⟩

/-- A directory that is not empty is not deleted, whatever else is said. -/
example : (translate Dialect.standard.wording (.delete (Text.ascii "/in") true)
    ⟨532, Text.ascii "532 Not empty: /in, permission denied"⟩).kind = .directoryNotEmpty := by
  decide +kernel

end SessionPool
