import BitReaders.Proofs.Files.Writes
import BitReaders.Proofs.Json.Positions
import BitReaders.Proofs.Runs.Stages
import BitReaders.Proofs.Text.Utf8

/-!
# Runs with an override document

A run that is given a document reports what is wrong with it as a message of its own, with two
exceptions: octets that are no text, and an integer with more digits than are read, end the run
without one.

- `Octets.Readable`: the octets are a text, and no integer of it is too long.
- `documentOf_of_readable`, `documentOf_of_not_readable`: readable octets hold a document or are
  refused; others are at fault.
- `Reported`: a run that ends as a user may expect, by its status and its messages.
- `run_reported_iff`: **a run reports what is wrong** with its document just if the document is
  absent or readable.
-/

namespace BitReaders

/-! ## Readable octets -/

/-- The octets are a text, and no integer of it has more digits than are read. -/
def Octets.Readable (content : Octets) : Prop :=
  ∃ cs, content = Utf8.encode cs ∧ ∀ n, Json.read (foldLineEnds cs) ≠ .error (.oversized n)

/-- A text without a long run of digits is readable. -/
theorem Octets.readable_encode {cs : List Char}
    (h : ∀ ds, ds <:+: foldLineEnds cs → (∀ d ∈ ds, d.isDigit) → ds.length ≤ Numeral.maxDigits) :
    Octets.Readable (Utf8.encode cs) := by
  refine ⟨cs, rfl, fun n hn => ?_⟩
  obtain ⟨hlong, ds, hinfix, hlength, hdigits⟩ := Json.exists_digits_of_read_eq_oversized hn
  have hshort := h ds hinfix hdigits
  omega

section DocumentOf

variable {content : Octets} (p : Path)

/-- Readable octets hold a document, or are refused. -/
theorem documentOf_of_readable (h : content.Readable) :
    (∃ d, documentOf p content = .ok d) ∨ ∃ r, documentOf p content = .error (.refused r) := by
  obtain ⟨cs, rfl, hsize⟩ := h
  cases hread : Json.read (foldLineEnds cs) with
  | ok d => exact .inl ⟨d, by simp only [documentOf, Utf8.decode_encode, hread]⟩
  | error e =>
    cases e with
    | malformed issue place =>
      exact .inr ⟨.malformed p issue place, by simp only [documentOf, Utf8.decode_encode, hread]⟩
    | oversized n => exact absurd hread (hsize n)

/-- Other octets are at fault. -/
theorem documentOf_of_not_readable (h : ¬ content.Readable) :
    ∃ f, documentOf p content = .error (.fault f) := by
  unfold documentOf
  cases hdecode : Utf8.decode content with
  | error flaw => exact ⟨.undecodable flaw, rfl⟩
  | ok cs =>
    obtain ⟨n, hn⟩ : ∃ n, Json.read (foldLineEnds cs) = .error (.oversized n) := by
      by_contra hall
      exact h ⟨cs, Utf8.decode_eq_ok_iff.mp hdecode, fun n hn => hall ⟨n, hn⟩⟩
    exact ⟨.oversized n, by simp only [hn]⟩

end DocumentOf

/-- What is in the file that a path leads to; nothing if there is no file. -/
def Volume.Holds (v : Volume) (p : Path) : Option Octets → Prop
  | none => v.readFile p = .error .notFound
  | some content => v.readFile p = .ok content

theorem Volume.Holds.readDocument_eq {v : Volume} {p : Path} {content? : Option Octets}
    (h : v.Holds p content?) (hnull : p.hasNull = false) :
    v.readDocument p = content?.elim (.error (.refused (.missing p))) (documentOf p) := by
  cases content? with
  | none =>
    have hp : ¬ p.hasNull = true := by simp [hnull]
    have hread : v.readFile p = .error .notFound := h
    rw [Volume.readDocument, if_neg hp, hread]
    rfl
  | some content => exact Volume.readDocument_eq_documentOf h hnull

namespace Readers

/-! ## Reported runs -/

/-- A run with status 0, or with status 2, a message of the program and nothing else printed. -/
def Reported (o : Outcome) : Prop :=
  o.ending = .exit 0 ∨
    o.ending = .exit 2 ∧ o.stdout = "" ∧ ∃ message, o.stderr = "readergen.py: ERROR: " ++ message

theorem reported_complaint (c : Complaint) (v : Volume) :
    Reported (Trouble.outcome v (.complaint c)) :=
  .inr ⟨rfl, rfl, c.message ++ "\n", by
    show manual.program ++ ": ERROR: " ++ c.message ++ "\n" = _
    rw [String.append_assoc]
    rfl⟩

theorem not_reported_abort (a : Abort) (v : Volume) :
    ¬ Reported (Trouble.outcome v (.abort a)) := by
  rintro (h | ⟨h, -, -⟩)
  · cases h
  · cases h

/-- The settings print a text, after the override document at the path `p`. -/
structure Settings.Prints (s : Settings) (p : Path) : Prop extends s.Kept where
  document : s.axesPath? = some p
  usable : p.hasNull = false
  printed : s.outPath? = none

variable {s : Settings} {p : Path} {v : Volume}

theorem Settings.Prints.prepare_eq (h : s.Prints p) :
    s.prepare v = (overridden p (v.readDocument p)).bind s.report := by
  rw [Settings.prepare, Settings.catalogue, h.document]

theorem Settings.Prints.deliver_reported (h : s.Prints p) (r : Report) :
    Reported (s.deliver r v) := by
  rw [Settings.deliver, h.printed]
  exact .inl rfl

/-- Where the document is refused or does not fit, that is the complaint of the run. -/
theorem exists_complaint_of_overridden_eq_error {document : Except Failure Json.Value}
    (hdocument : ∀ f, document ≠ .error (.fault f)) {t : Trouble}
    (h : overridden p document = .error t) : ∃ c, t = .complaint c := by
  unfold overridden at h
  split at h
  · rename_i failure
    cases failure with
    | refused r =>
      cases h
      exact ⟨.document r, rfl⟩
    | fault f => exact absurd rfl (hdocument f)
  · split at h
    · cases h
    · rename_i e _
      cases h
      exact ⟨.override p.toString e, rfl⟩

/-- A document that is read or refused leads to a report or to a complaint. -/
theorem run_reported (h : s.Prints p) {argv : List String} (hparse : grammar.parse {} argv = .ok s)
    (hdocument : ∀ f, v.readDocument p ≠ .error (.fault f)) : Reported (run argv v) := by
  cases hprepare : s.prepare v with
  | ok r =>
    rw [run_eq_deliver hparse hprepare]
    exact h.deliver_reported r
  | error t =>
    rw [run_eq_outcome hparse hprepare]
    rw [h.prepare_eq] at hprepare
    -- The trouble is with the document, or with the report after it.
    cases hc : overridden p (v.readDocument p) with
    | error u =>
      obtain ⟨c, rfl⟩ := exists_complaint_of_overridden_eq_error hdocument hc
      rw [hc] at hprepare
      cases hprepare
      exact reported_complaint c v
    | ok c =>
      rw [hc] at hprepare
      obtain ⟨r, rfl⟩ := exists_complaint_of_report_eq_error h.toKept hprepare
      exact reported_complaint _ v

/-- A document at fault ends the run without a message. -/
theorem run_eq_abort (h : s.Prints p) {argv : List String} (hparse : grammar.parse {} argv = .ok s)
    {f : Fault} (hdocument : v.readDocument p = .error (.fault f)) :
    run argv v = Trouble.outcome v (.abort (.access f)) := by
  refine run_eq_outcome hparse ?_
  rw [h.prepare_eq, hdocument]
  rfl

/-- **A run reports what is wrong** with its document, or succeeds, just if the document is absent
or readable. -/
theorem run_reported_iff {argv : List String} (hparse : grammar.parse {} argv = .ok s)
    (h : s.Prints p) {content? : Option Octets} (hfile : v.Holds p content?) :
    Reported (run argv v) ↔ ∀ content ∈ content?, content.Readable := by
  have hread := hfile.readDocument_eq h.usable
  constructor
  · rintro hrun content rfl
    by_contra hcontent
    obtain ⟨f, hf⟩ := documentOf_of_not_readable p hcontent
    rw [run_eq_abort h hparse (hread.trans hf)] at hrun
    exact not_reported_abort _ v hrun
  · intro hcontent
    refine run_reported h hparse fun f hf => ?_
    rw [hread] at hf
    cases content? with
    | none => cases hf
    | some content =>
      rcases documentOf_of_readable p (hcontent content rfl) with ⟨d, hd⟩ | ⟨r, hr⟩
      · cases hd.symm.trans hf
      · cases hr.symm.trans hf

/-- A volume with one file. -/
def onlyFile (name : String) (content : Octets) : Volume :=
  ⟨[([name], .file content)], []⟩

/-- The settings of a run with a document and no other option. -/
theorem prints_document : Settings.Prints { axes := "a.json" } ⟨"", ["a.json"]⟩ where
  expander := nofun
  indexDir := nofun
  wiredSubdir := nofun
  document := rfl
  usable := by decide
  printed := rfl

/-- A document of one digit. -/
theorem run_reported_iff_digit :
    Reported (run ["--axes", "a.json"] (onlyFile "a.json" [0x31])) ↔
      ∀ content ∈ some [0x31], Octets.Readable content :=
  run_reported_iff (v := onlyFile "a.json" [0x31]) rfl prints_document rfl

/-- One octet that begins no character ends the run without a message. -/
theorem not_reported_octet :
    grammar.parse {} ["--axes", "a.json"] = .ok { axes := "a.json" } ∧
      (onlyFile "a.json" [0xFF]).Holds ⟨"", ["a.json"]⟩ (some [0xFF]) ∧
      run ["--axes", "a.json"] (onlyFile "a.json" [0xFF]) =
        ⟨.abort (.access (.undecodable ⟨.start, 0, 0xFF, 1⟩)), "", "",
          onlyFile "a.json" [0xFF]⟩ ∧
      ¬ Reported (run ["--axes", "a.json"] (onlyFile "a.json" [0xFF])) := by
  have hrun : run ["--axes", "a.json"] (onlyFile "a.json" [0xFF]) =
      ⟨.abort (.access (.undecodable ⟨.start, 0, 0xFF, 1⟩)), "", "",
        onlyFile "a.json" [0xFF]⟩ := rfl
  refine ⟨rfl, rfl, hrun, ?_⟩
  rw [hrun]
  exact not_reported_abort _ _

end Readers

end BitReaders
