import BranchLog.Proofs.ShortLines

/-!
# What a report counts

A scan reads its files one after the other into one tally. `tally_of_readFiles` shows that the
tally is that of all lines of all files in their order, whence `report_counts`.
-/
namespace BranchLog

theorem Reading.tally_foldl_absorb (r : Reading) (files : List LogFile) :
    (files.foldl absorb r).tally = (files.flatMap LogFile.lines).foldl Tally.read r.tally := by
  induction files generalizing r with
  | nil => rfl
  | cons f rest ih =>
    rw [List.foldl_cons, ih, List.flatMap_cons, List.foldl_append]
    rfl

theorem tally_of_readFiles {input : Path} {strict : Bool} {files : List LogFile} {r : Reading}
    (h : readFiles input strict files = .ok r) :
    (∀ f ∈ files, ∃ text, f.text = .ok text) ∧
      r.tally.Counts (files.flatMap LogFile.lines) := by
  cases files with
  | nil =>
    cases strict with
    | true => cases h
    | false =>
      cases h
      exact ⟨by simp, Tally.Counts.empty⟩
  | cons f rest =>
    rw [readFiles_eq input strict (List.cons_ne_nil f rest)] at h
    split at h
    · cases h
    · next hnone =>
      cases h
      rw [Reading.tally_foldl_absorb]
      refine ⟨fun g hg => ?_, Tally.Counts.empty.foldl_read _⟩
      exact LogFile.exists_text_of_refusal? (List.findSome?_eq_none_iff.1 hnone g hg)

section Scan

variable {t : FileTree} {now : String} {input : Path} {place : Location} {strict : Bool}
  {files : List LogFile}

theorem scan_of_isOpenPipe (hp : t.resolve input = .ok place) (ho : t.isOpenPipe place = true)
    (now : String) (strict : Bool) : scan t now input strict = .ok .waiting := by
  rw [scan, hp]
  exact if_pos ho

/-- What is found at an open pipe. -/
theorem logFiles_of_isOpenPipe (ho : t.isOpenPipe place = true) (input : Path) :
    t.logFiles input place = .ok [⟨input, .empty⟩] := by
  rw [FileTree.logFiles, FileTree.isOpenPipe_iff.1 ho]
  rfl

theorem isOpenPipe_of_logFiles_error {fault : WalkFault}
    (hf : t.logFiles input place = .error fault) : t.isOpenPipe place = false := by
  cases ho : t.isOpenPipe place with
  | true => cases hf.symm.trans (logFiles_of_isOpenPipe ho input)
  | false => rfl

theorem scan_of_logFiles_error {fault : WalkFault} (hp : t.resolve input = .ok place)
    (hf : t.logFiles input place = .error fault) (now : String) (strict : Bool) :
    scan t now input strict = .error (.walk input fault) := by
  rw [scan, hp]
  simp only [isOpenPipe_of_logFiles_error hf, hf]
  rfl

/-- Behind the walk a scan does nothing but read. -/
theorem scan_of_files (hp : t.resolve input = .ok place) (ho : t.isOpenPipe place = false)
    (hf : t.logFiles input place = .ok files) (now : String) (strict : Bool) :
    scan t now input strict =
      (readFiles input strict files).map fun r => .scanned (.ofReading now input strict files r) := by
  rw [scan, hp]
  simp only [ho, hf]
  cases readFiles input strict files <;> rfl

/-- All that a scan can come to, by what it finds at its input. -/
theorem scan_cases (t : FileTree) (now : String) (input : Path) (strict : Bool) :
    (∃ fault, t.resolve input = .error fault ∧ scan t now input strict = .ok (.missing input)) ∨
    ∃ place, t.resolve input = .ok place ∧
      ((t.isOpenPipe place = true ∧ scan t now input strict = .ok .waiting) ∨
      (t.isOpenPipe place = false ∧ ∃ fault, t.logFiles input place = .error fault ∧
        scan t now input strict = .error (.walk input fault)) ∨
      (t.isOpenPipe place = false ∧ ∃ files, t.logFiles input place = .ok files ∧
        scan t now input strict = (readFiles input strict files).map fun r =>
          .scanned (.ofReading now input strict files r))) := by
  cases hp : t.resolve input with
  | error fault => exact .inl ⟨fault, rfl, by rw [scan, hp]⟩
  | ok place =>
    refine .inr ⟨place, rfl, ?_⟩
    cases ho : t.isOpenPipe place with
    | true => exact .inl ⟨rfl, scan_of_isOpenPipe hp ho now strict⟩
    | false =>
      cases hf : t.logFiles input place with
      | error fault =>
        exact .inr (.inl ⟨rfl, fault, rfl, scan_of_logFiles_error hp hf now strict⟩)
      | ok files =>
        exact .inr (.inr ⟨rfl, files, rfl, scan_of_files hp ho hf now strict⟩)

theorem scan_eq_scanned_iff {r : Report} :
    scan t now input strict = .ok (.scanned r) ↔
      ∃ place files reading, t.resolve input = .ok place ∧ t.isOpenPipe place = false ∧
        t.logFiles input place = .ok files ∧ readFiles input strict files = .ok reading ∧
        .ofReading now input strict files reading = r := by
  rcases scan_cases t now input strict with ⟨fault, hp, hs⟩ |
    ⟨place, hp, ⟨ho, hs⟩ | ⟨ho, fault, hf, hs⟩ | ⟨ho, files, hf, hs⟩⟩
  · simp [hp, hs]
  · simp [hp, ho, hs]
  · simp [hp, ho, hf, hs]
  · rw [hs]
    cases hr : readFiles input strict files <;> simp [hp, ho, hf, hr, Except.map]

end Scan

theorem ascending_types (t : Tally) :
    t.types.Pairwise (fun a b => Text.encode a < Text.encode b) :=
  Text.pairwise_encode_keys t.counts

def nameA : Name := ⟨[0x61], by decide⟩

def nameB : Name := ⟨[0x62], by decide⟩

theorem LogFile.refusal?_toByteArray {p : Path} (hp : p.isTooLong = false) {text : String}
    (h : ∀ line ∈ Text.lines text.toList, ¬IsShort line) (strict : Bool) :
    refusal? strict ⟨p, text.toByteArray⟩ = none := by
  have ht := text_toByteArray hp text
  have hshort : shortLines ⟨p, text.toByteArray⟩ = [] := by
    rw [shortLines, lines_of_text ht]
    exact shortLines_eq_nil_iff.2 h
  rw [refusal?_of_text ht, hshort]
  cases strict <;> rfl

end BranchLog
