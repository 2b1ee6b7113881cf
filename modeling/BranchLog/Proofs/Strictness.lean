import BranchLog.Proofs.Joining
import BranchLog.Proofs.ScanCounts
import Mathlib

/-!
# Strict and lenient scans

A strict scan finds what a lenient scan finds without a warning, and nothing else. The two pass
over the same files; `readFiles_strict_eq_ok_iff` says that they part at the first file that a
lenient scan would warn of.
-/
namespace BranchLog

section Reading

variable {input : Path} {strict : Bool} {files : List LogFile} {reading : Reading}

theorem readFiles_eq_ok_iff (h : files ≠ []) :
    readFiles input strict files = .ok reading ↔
      (∀ f ∈ files, f.refusal? strict = none) ∧ files.foldl Reading.absorb {} = reading := by
  rw [readFiles_eq input strict h, ← List.findSome?_eq_none_iff]
  cases files.findSome? (LogFile.refusal? strict) <;> simp

theorem warnings_of_files (files : List LogFile) :
    (files.foldl Reading.absorb {}).warnings = #[] ↔ ∀ f ∈ files, f.shortLines = [] := by
  have hw := Reading.warnings_foldl_absorb {} files
  rw [← Array.toList_eq_nil_iff, hw]
  simp

/-- Every warning of a lenient reading is an error of a strict one. -/
theorem readFiles_strict_eq_ok_iff :
    readFiles input true files = .ok reading ↔
      readFiles input false files = .ok reading ∧ reading.warnings = #[] := by
  by_cases h : files = []
  · subst h
    simp only [readFiles, List.isEmpty_nil, if_true]
    constructor
    · intro hr
      cases hr
    · rintro ⟨hr, hw⟩
      cases hr
      simp at hw
  · rw [readFiles_eq_ok_iff h, readFiles_eq_ok_iff h]
    constructor
    · rintro ⟨hfiles, rfl⟩
      have hboth := fun f hf => LogFile.refusal?_strict_eq_none_iff.1 (hfiles f hf)
      exact ⟨⟨fun f hf => (hboth f hf).1, rfl⟩,
        (warnings_of_files files).2 fun f hf => (hboth f hf).2⟩
    · rintro ⟨⟨hfiles, rfl⟩, hw⟩
      have hshort := (warnings_of_files files).1 hw
      exact ⟨fun f hf => LogFile.refusal?_strict_eq_none_iff.2 ⟨hfiles f hf, hshort f hf⟩, rfl⟩

theorem readFiles_strict_fails (h : ∃ e, readFiles input false files = .error e) :
    ∃ e, readFiles input true files = .error e := by
  cases hs : readFiles input true files with
  | error e => exact ⟨e, rfl⟩
  | ok reading =>
    obtain ⟨e, he⟩ := h
    rw [(readFiles_strict_eq_ok_iff.1 hs).1] at he
    cases he

theorem ne_nil_of_readFiles_strict (h : readFiles input true files = .ok reading) :
    files ≠ [] := by
  rintro rfl
  simp [readFiles] at h

end Reading

section Scan

variable {t : FileTree} {now : String} {input : Path} {place : Location} {strict : Bool}
  {files : List LogFile}

theorem scan_eq_missing_iff {p : Path} :
    scan t now input strict = .ok (.missing p) ↔
      input = p ∧ ∃ fault, t.resolve input = .error fault := by
  rcases scan_cases t now input strict with ⟨fault, hp, hs⟩ |
    ⟨place, hp, ⟨ho, hs⟩ | ⟨ho, fault, hf, hs⟩ | ⟨ho, files, hf, hs⟩⟩
  · simp [hp, hs]
  · simp [hp, hs]
  · simp [hp, hs]
  · rw [hs]
    cases readFiles input strict files <;> simp [hp, Except.map]

/-- An open pipe is never what a scan fails at. -/
theorem readFiles_of_isOpenPipe (hp : t.resolve input = .ok place)
    (ho : t.isOpenPipe place = true) (hf : t.logFiles input place = .ok files) (strict : Bool) :
    ∃ reading, readFiles input strict files = .ok reading := by
  rw [logFiles_of_isOpenPipe ho] at hf
  cases hf
  obtain ⟨-, hlong, -⟩ := FileTree.resolve_eq_ok_iff.1 hp
  have hlines : ∀ line ∈ Text.lines "".toList, ¬IsShort line := by decide +kernel
  have hnone : LogFile.refusal? strict ⟨input, .empty⟩ = none :=
    LogFile.refusal?_toByteArray hlong hlines strict
  rw [readFiles_eq input strict (List.cons_ne_nil _ _), List.findSome?_singleton, hnone]
  exact ⟨_, rfl⟩

theorem scan_eq_error_iff {e : ScanError} :
    scan t now input strict = .error e ↔
      ∃ place, t.resolve input = .ok place ∧
        ((∃ fault, t.logFiles input place = .error fault ∧ e = .walk input fault) ∨
          ∃ files, t.logFiles input place = .ok files ∧
            readFiles input strict files = .error e) := by
  rcases scan_cases t now input strict with ⟨fault, hp, hs⟩ |
    ⟨place, hp, ⟨ho, hs⟩ | ⟨ho, fault, hf, hs⟩ | ⟨ho, files, hf, hs⟩⟩
  · simp [hp, hs]
  · have hf := logFiles_of_isOpenPipe ho input
    obtain ⟨reading, hr⟩ := readFiles_of_isOpenPipe hp ho hf strict
    simp [hp, hs, hf, hr]
  · simp [hp, hf, hs, eq_comm]
  · rw [hs]
    cases hr : readFiles input strict files <;> simp [hp, hf, hr, Except.map]

/-- A strict scan and a lenient one of the same tree: equal reports where there is no warning,
missing together, and no error that only the lenient scan has. -/
theorem strict_scan_iff_lenient (t : FileTree) (input : Path) (now now' : String) :
    (∀ r, scan t now input true = .ok (.scanned r) ↔
      ∃ r', scan t now' input false = .ok (.scanned r') ∧ r'.warnings = [] ∧
        r = { r' with strict := true, generatedAt := now }) ∧
    (∀ p, scan t now input true = .ok (.missing p) ↔
      scan t now' input false = .ok (.missing p)) ∧
    ((∃ e, scan t now' input false = .error e) → ∃ e, scan t now input true = .error e) ∧
    ∀ r, scan t now input true = .ok (.scanned r) → r.warnings = [] ∧ 1 ≤ r.files := by
  refine ⟨fun r => ?_, fun p => ?_, ?_, fun r hr => ?_⟩
  · constructor
    · intro h
      obtain ⟨place, files, reading, hp, ho, hf, hr, rfl⟩ := scan_eq_scanned_iff.1 h
      obtain ⟨hlenient, hw⟩ := readFiles_strict_eq_ok_iff.1 hr
      refine ⟨_, scan_eq_scanned_iff.2 ⟨place, files, reading, hp, ho, hf, hlenient, rfl⟩, ?_, rfl⟩
      simp [Report.ofReading, hw]
    · rintro ⟨r', h, hw, rfl⟩
      obtain ⟨place, files, reading, hp, ho, hf, hr, rfl⟩ := scan_eq_scanned_iff.1 h
      have hnone : reading.warnings = #[] := Array.toList_eq_nil_iff.1 hw
      have hstrict := readFiles_strict_eq_ok_iff.2 ⟨hr, hnone⟩
      exact scan_eq_scanned_iff.2 ⟨place, files, reading, hp, ho, hf, hstrict, rfl⟩
  · rw [scan_eq_missing_iff, scan_eq_missing_iff]
  · rintro ⟨e, he⟩
    obtain ⟨place, hp, ⟨fault, hf, -⟩ | ⟨files, hf, hr⟩⟩ := scan_eq_error_iff.1 he
    · exact ⟨_, scan_eq_error_iff.2 ⟨place, hp, .inl ⟨fault, hf, rfl⟩⟩⟩
    · obtain ⟨e', hr'⟩ := readFiles_strict_fails ⟨e, hr⟩
      exact ⟨e', scan_eq_error_iff.2 ⟨place, hp, .inr ⟨files, hf, hr'⟩⟩⟩
  · obtain ⟨place, files, reading, -, -, -, hread, rfl⟩ := scan_eq_scanned_iff.1 hr
    obtain ⟨-, hw⟩ := readFiles_strict_eq_ok_iff.1 hread
    refine ⟨by simp [Report.ofReading, hw], ?_⟩
    exact List.length_pos_iff.2 (ne_nil_of_readFiles_strict hread)

end Scan

end BranchLog
