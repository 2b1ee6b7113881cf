import BranchLog.Proofs.ListedFiles
import BranchLog.Proofs.SamePlace
import Mathlib

/-!
# Two scans of one place

Two scans agree if they fail with the same kind of error at the same place below their inputs, or
report the same but for paths. Scans of one place by different paths agree: their walks come to the
same chains in the same order, and the files they read hold the same text.
-/
namespace BranchLog

/-- Two errors or two results, related as `E` and `R` say. -/
inductive Agree {ε ε' α α' : Type} (E : ε → ε' → Prop) (R : α → α' → Prop) :
    Except ε α → Except ε' α' → Prop
  | error {e : ε} {e' : ε'} (h : E e e') : Agree E R (.error e) (.error e')
  | ok {a : α} {a' : α'} (h : R a a') : Agree E R (.ok a) (.ok a')

namespace FileTree

/-- Files at one place below two paths, which read the same. -/
structure FilesAgree (p p' : Path) (f f' : LogFile) : Prop where
  path : ∃ c, f.path = p.joins c ∧ f'.path = p'.joins c
  text : f.text = f'.text

abbrev FileListsAgree (p p' : Path) : List LogFile → List LogFile → Prop :=
  List.Forall₂ (FilesAgree p p')

section Walk

variable {t : FileTree} {p p' : Path} {place : Location} {c : List Name} {e : Entry}
  {data : ByteArray}

theorem SamePlace.filesAgree (h : t.SamePlace p p' c) (data : ByteArray) :
    FilesAgree p p' ⟨p.joins c, data⟩ ⟨p'.joins c, data⟩ where
  path := ⟨c, rfl, rfl⟩
  text := by simp [LogFile.text, h.short, h.short']

theorem SamePlace.holdsLog_iff (h : t.SamePlace p p' c) :
    t.HoldsLog p c data ↔ t.HoldsLog p' c data := by
  simp [HoldsLog, h.leadsTo_iff, h.short, h.short']

theorem Tells.mem_files_iff (h : t.Tells p c (.ok e)) :
    ⟨p.joins c, data⟩ ∈ e.files ↔ t.HoldsLog p c data := by
  have hgood : ¬t.IsBad p c := by
    cases e <;> exact h.1
  exact ⟨fun hf => (h.mem_sightFiles hf).2,
    fun hdata => h.sightFiles_of_holdsLog (f := ⟨p.joins c, data⟩) hgood rfl hdata⟩

theorem Tells.files_eq (h : t.Tells p c (.ok e)) :
    e.files = [] ∨ ∃ data, e.files = [⟨p.joins c, data⟩] := by
  rcases sightFiles_eq (.ok e) with hnone | ⟨⟨path, data⟩, hone⟩
  · exact .inl hnone
  · have hmem : ⟨path, data⟩ ∈ sightFiles (.ok e) := hone ▸ List.mem_singleton_self _
    obtain ⟨rfl, -⟩ := h.mem_sightFiles hmem
    exact .inr ⟨data, hone⟩

/-- An entry gives a file below both paths or below neither. -/
theorem Tells.fileListsAgree {e' : Entry} (hc : t.SamePlace p p' c) (h : t.Tells p c (.ok e))
    (h' : t.Tells p' c (.ok e')) : FileListsAgree p p' e.files e'.files := by
  have hmem (data : ByteArray) :
      ⟨p.joins c, data⟩ ∈ e.files ↔ ⟨p'.joins c, data⟩ ∈ e'.files := by
    rw [h.mem_files_iff, h'.mem_files_iff, hc.holdsLog_iff]
  rcases h.files_eq with he | ⟨data, he⟩ <;> rcases h'.files_eq with he' | ⟨data', he'⟩ <;>
    rw [he, he'] at hmem ⊢
  · exact .nil
  · exact absurd ((hmem data').2 (List.mem_singleton_self _)) List.not_mem_nil
  · exact absurd ((hmem data).1 (List.mem_singleton_self _)) List.not_mem_nil
  · cases List.mem_singleton.1 ((hmem data).1 (List.mem_singleton_self _))
    exact .cons (hc.filesAgree data) .nil

/-- What a walk makes of two sights of one place. -/
abbrev SightsAgree (p p' : Path) : Sight → Sight → Prop :=
  Agree (FaultsAgree p p') fun e e' => FileListsAgree p p' e.files e'.files

theorem Tells.sightsAgree {s s' : Sight} (hsame : ∀ q, q <+: c → t.SamePlace p p' q)
    (h : t.Tells p c s) (h' : t.Tells p' c s') : SightsAgree p p' s s' := by
  have halike : ∀ q, q <+: c → Alike t t p p' q := fun q hq => alike_of_samePlace hsame hq
  cases s with
  | error fault =>
    obtain ⟨fault', hfault', hagree⟩ := FaultAt.exists_of_alike halike h
    obtain ⟨fault'', rfl, hfault''⟩ := h'.error_of_isBad (isBad_iff.2 ⟨fault', hfault'⟩)
    cases hfault'.unique hfault''
    exact .error hagree
  | ok e =>
    cases s' with
    | error fault' =>
      have hbad : t.IsBad p c :=
        (isBad_iff.2 ⟨fault', h'⟩).of_alike fun q hq => (halike q hq).symm
      obtain ⟨fault, hs, -⟩ := h.error_of_isBad hbad
      cases hs
    | ok e' => exact .ok (h.fileListsAgree (hsame c (List.prefix_refl c)) h')

theorem forall₂_of_map_eq {α β γ : Type} {f : α → γ} {g : β → γ} {R : α → β → Prop} {l : List α}
    {l' : List β} (h : l.map f = l'.map g) (hR : ∀ a ∈ l, ∀ b ∈ l', f a = g b → R a b) :
    List.Forall₂ R l l' := by
  induction l generalizing l' with
  | nil =>
    rw [List.map_eq_nil_iff.1 h.symm]
    exact .nil
  | cons a l ih =>
    cases l' with
    | nil => cases h
    | cons b l' =>
      obtain ⟨hab, ht⟩ := List.cons.inj h
      refine .cons (hR a List.mem_cons_self b List.mem_cons_self hab) (ih ht fun x hx y hy => ?_)
      exact hR x (List.mem_cons_of_mem _ hx) y (List.mem_cons_of_mem _ hy)

theorem mem_map_survey_iff (hp : t.resolve p = .ok place) (hdir : t.isDirectory place) :
    c ∈ (t.survey ⟨p, place⟩ [] (t.names place)).map Prod.fst ↔ c ≠ [] ∧ t.IsReached p c := by
  constructor
  · intro h
    obtain ⟨⟨c, s⟩, hs, rfl⟩ := List.mem_map.1 h
    obtain ⟨hne, hreached, -⟩ := mem_survey_reached hp hdir hs
    exact ⟨hne, hreached⟩
  · rintro ⟨hne, hreached⟩
    obtain ⟨s, hs⟩ := exists_mem_survey hp hdir hne hreached
    exact List.mem_map.2 ⟨_, hs, rfl⟩

section Limits

variable (hp : t.resolve p = .ok place) (hp' : t.resolve p' = .ok place)
  (hl : t.WithinLimits p) (hl' : t.WithinLimits p')

include hp hp' hl hl'

/-- Two surveys of one place list the same chains in the same order. -/
theorem map_survey_eq (hdir : t.isDirectory place) :
    (t.survey ⟨p, place⟩ [] (t.names place)).map Prod.fst =
      (t.survey ⟨p', place⟩ [] (t.names place)).map Prod.fst := by
  have hsorted (input : Path) :
      ((t.survey ⟨input, place⟩ [] (t.names place)).map Prod.fst).Pairwise (· < ·) :=
    List.pairwise_map.2 (pairwise_survey (t.ascending_names place))
  refine (hsorted p).eq_of_mem_iff (hsorted p') fun c => ?_
  rw [mem_map_survey_iff hp hdir, mem_map_survey_iff hp' hdir]
  refine and_congr_right fun _ => ⟨fun h => ?_, fun h => ?_⟩
  · exact (isReached_of_samePlace hp hp' hl hl' h).1
  · exact (isReached_of_samePlace hp' hp hl' hl h).1

theorem survey_agree (hdir : t.isDirectory place) :
    List.Forall₂ (fun q q' => SightsAgree p p' q.2 q'.2)
      (t.survey ⟨p, place⟩ [] (t.names place)) (t.survey ⟨p', place⟩ [] (t.names place)) := by
  refine forall₂_of_map_eq (map_survey_eq hp hp' hl hl' hdir) ?_
  rintro ⟨c, s⟩ hs ⟨_, s'⟩ hs' rfl
  obtain ⟨-, hreached, htells⟩ := mem_survey_reached hp hdir hs
  obtain ⟨-, -, htells'⟩ := mem_survey_reached hp' hdir hs'
  exact htells.sightsAgree (isReached_of_samePlace hp hp' hl hl' hreached).2 htells'

end Limits

theorem gather_agree {l l' : List (List Name × Sight)}
    (h : List.Forall₂ (fun q q' => SightsAgree p p' q.2 q'.2) l l') :
    Agree (FaultsAgree p p') (FileListsAgree p p') (gather l) (gather l') := by
  induction h with
  | nil => exact .ok .nil
  | @cons q q' l l' hq _ ih =>
    obtain ⟨c, s⟩ := q
    obtain ⟨c', s'⟩ := q'
    cases hq with
    | error hfault => exact .error hfault
    | ok hfiles =>
      rw [gather, gather]
      generalize gather l = files at ih
      generalize gather l' = files' at ih
      cases ih with
      | error hfault => exact .error hfault
      | ok hrest => exact .ok (List.rel_append hfiles hrest)

/-- Two walks of one place fail alike or find the same files. -/
theorem logFiles_agree (hp : t.resolve p = .ok place) (hp' : t.resolve p' = .ok place)
    (hl : t.WithinLimits p) (hl' : t.WithinLimits p') :
    Agree (FaultsAgree p p') (FileListsAgree p p') (t.logFiles p place) (t.logFiles p' place) := by
  by_cases hdir : t.isDirectory place
  · rw [logFiles_directory hdir, logFiles_directory hdir, walk_eq_gather, walk_eq_gather]
    exact gather_agree (survey_agree hp hp' hl hl' hdir)
  · obtain ⟨data, hfound⟩ := logFiles_of_not_isDirectory hdir
    rw [hfound, hfound]
    exact .ok (.cons ((samePlace_nil hp hp').filesAgree data) .nil)

end Walk

end FileTree

/-- Short lines of files at one place below two paths. -/
inductive ShortLinesAgree (p p' : Path) : ShortLine → ShortLine → Prop
  | line (c : List Name) (number found : Nat) :
    ShortLinesAgree p p' ⟨(p.joins c).display, number, found⟩ ⟨(p'.joins c).display, number, found⟩

inductive WarningsAgree (p p' : Path) : Warning → Warning → Prop
  | noFiles : WarningsAgree p p' ⟨.ignoredFile, noFilesMessage p⟩ ⟨.ignoredFile, noFilesMessage p'⟩
  | shortLine {s s' : ShortLine} (h : ShortLinesAgree p p' s s') :
    WarningsAgree p p' s.warning s'.warning

inductive ErrorsAgree (p p' : Path) : ScanError → ScanError → Prop
  | walk {fault fault' : WalkFault} (h : FileTree.FaultsAgree p p' fault fault') :
    ErrorsAgree p p' (.walk p fault) (.walk p' fault')
  | noFiles : ErrorsAgree p p' (.noFiles p) (.noFiles p')
  | unreadable (c : List Name) (fault : ReadFault) :
    ErrorsAgree p p' (.unreadable (p.joins c) fault) (.unreadable (p'.joins c) fault)
  | shortLine {s s' : ShortLine} (h : ShortLinesAgree p p' s s') :
    ErrorsAgree p p' (.shortLine s) (.shortLine s')

structure ReadingsAgree (p p' : Path) (r r' : Reading) : Prop where
  tally : r.tally = r'.tally
  warnings : List.Forall₂ (WarningsAgree p p') r.warnings.toList r'.warnings.toList

/-- Reports of two inputs that differ in nothing but paths and the time. -/
structure ReportsAgree (p p' : Path) (r r' : Report) : Prop where
  path : r.path = p
  path' : r'.path = p'
  version : r.version = r'.version
  strict : r.strict = r'.strict
  files : r.files = r'.files
  lines : r.lines = r'.lines
  matched : r.matched = r'.matched
  types : r.types = r'.types
  counts : r.counts = r'.counts
  warnings : List.Forall₂ (WarningsAgree p p') r.warnings r'.warnings

inductive ResultsAgree (p p' : Path) : ScanResult → ScanResult → Prop
  | scanned {r r' : Report} (h : ReportsAgree p p' r r') :
    ResultsAgree p p' (.scanned r) (.scanned r')
  | waiting : ResultsAgree p p' .waiting .waiting

section Reading

variable {p p' : Path} {f f' : LogFile} {r r' : Reading} {files files' : List LogFile}

theorem shortLines_agree (p p' : Path) (c : List Name) (number : Nat)
    (lines : List (List Char)) :
    List.Forall₂ (ShortLinesAgree p p') (shortLines (p.joins c).display number lines)
      (shortLines (p'.joins c).display number lines) := by
  refine List.rel_filterMap ?_ (List.forall₂_eq_eq_eq ▸ rfl)
  rintro ⟨line, n⟩ _ rfl
  simp only [short?]
  split
  · exact .some (.line c n _)
  · exact .none

namespace FileTree.FilesAgree

theorem lines_eq (h : FilesAgree p p' f f') : f.lines = f'.lines := by
  rw [LogFile.lines, LogFile.lines, h.text]

theorem shortLines (h : FilesAgree p p' f f') :
    List.Forall₂ (ShortLinesAgree p p') f.shortLines f'.shortLines := by
  obtain ⟨c, hf, hf'⟩ := h.path
  rw [LogFile.shortLines, LogFile.shortLines, h.lines_eq, hf, hf']
  exact shortLines_agree p p' c 1 f'.lines

theorem refusal? (h : FilesAgree p p' f f') (strict : Bool) :
    Option.Rel (ErrorsAgree p p') (f.refusal? strict) (f'.refusal? strict) := by
  obtain ⟨c, hf, hf'⟩ := h.path
  have hshort := h.shortLines
  rw [LogFile.refusal?, LogFile.refusal?, h.text]
  cases f'.text with
  | error fault =>
    rw [hf, hf']
    exact .some (.unreadable c fault)
  | ok text =>
    cases strict with
    | false => exact .none
    | true =>
      generalize f.shortLines = lines at hshort
      generalize f'.shortLines = lines' at hshort
      cases hshort with
      | nil => exact .none
      | cons hs _ => exact .some (.shortLine hs)

theorem absorb (h : FilesAgree p p' f f') (hr : ReadingsAgree p p' r r') :
    ReadingsAgree p p' (r.absorb f) (r'.absorb f') where
  tally := by rw [Reading.absorb, Reading.absorb, Reading.readAll, hr.tally, h.lines_eq]; rfl
  warnings := by
    have hwarnings := List.rel_map (fun _ _ hs => WarningsAgree.shortLine hs) h.shortLines
    have hall := List.rel_append hr.warnings hwarnings
    simpa [Reading.absorb, Reading.readAll, LogFile.shortLines] using hall

theorem addFile (h : FilesAgree p p' f f') (hr : ReadingsAgree p p' r r') (strict : Bool) :
    Agree (ErrorsAgree p p') (ReadingsAgree p p') (r.addFile strict f) (r'.addFile strict f') := by
  have hrefusal := h.refusal? strict
  rw [Reading.addFile_eq, Reading.addFile_eq]
  generalize f.refusal? strict = refusal at hrefusal
  generalize f'.refusal? strict = refusal' at hrefusal
  cases hrefusal with
  | none => exact .ok (h.absorb hr)
  | some he => exact .error he

end FileTree.FilesAgree

theorem foldlM_addFile_agree (h : FileTree.FileListsAgree p p' files files')
    (hr : ReadingsAgree p p' r r') (strict : Bool) :
    Agree (ErrorsAgree p p') (ReadingsAgree p p')
      (files.foldlM (fun r f => r.addFile strict f) r)
      (files'.foldlM (fun r f => r.addFile strict f) r') := by
  induction h generalizing r r' with
  | nil => exact .ok hr
  | @cons f f' files files' hf _ ih =>
    have hstep := hf.addFile hr strict
    rw [List.foldlM_cons, List.foldlM_cons]
    generalize r.addFile strict f = x at hstep
    generalize r'.addFile strict f' = x' at hstep
    cases hstep with
    | error he => exact .error he
    | ok hr => exact ih hr

theorem readFiles_agree (h : FileTree.FileListsAgree p p' files files') (strict : Bool) :
    Agree (ErrorsAgree p p') (ReadingsAgree p p') (readFiles p strict files)
      (readFiles p' strict files') := by
  cases h with
  | nil =>
    cases strict with
    | true => exact .error .noFiles
    | false => exact .ok ⟨rfl, .cons .noFiles .nil⟩
  | cons hf hfiles => exact foldlM_addFile_agree (.cons hf hfiles) ⟨rfl, .nil⟩ strict

theorem ReadingsAgree.ofReading (hr : ReadingsAgree p p' r r')
    (hfiles : FileTree.FileListsAgree p p' files files') (now now' : String) (strict : Bool) :
    ReportsAgree p p' (.ofReading now p strict files r)
      (.ofReading now' p' strict files' r') where
  path := rfl
  path' := rfl
  version := rfl
  strict := rfl
  files := hfiles.length_eq
  lines := by simp only [Report.ofReading, hr.tally]
  matched := by simp only [Report.ofReading, hr.tally]
  types := by simp only [Report.ofReading, hr.tally]
  counts := by simp only [Report.ofReading, hr.tally]
  warnings := hr.warnings

end Reading

/-- Scans of one place by two paths agree, if none of the paths below runs into a limit. -/
theorem scan_same_place {t : FileTree} {p p' : Path} {place : Location}
    (hp : t.resolve p = .ok place) (hp' : t.resolve p' = .ok place) (hl : t.WithinLimits p)
    (hl' : t.WithinLimits p') (now now' : String) (strict : Bool) :
    Agree (ErrorsAgree p p') (ResultsAgree p p') (scan t now p strict) (scan t now' p' strict) := by
  have hwalk := FileTree.logFiles_agree hp hp' hl hl'
  cases ho : t.isOpenPipe place with
  | true =>
    rw [scan_of_isOpenPipe hp ho, scan_of_isOpenPipe hp' ho]
    exact .ok .waiting
  | false =>
    generalize hf : t.logFiles p place = found at hwalk
    generalize hf' : t.logFiles p' place = found' at hwalk
    cases hwalk with
    | error hfault =>
      rw [scan_of_logFiles_error hp hf, scan_of_logFiles_error hp' hf']
      exact .error (.walk hfault)
    | @ok files files' hfiles =>
      have hread := readFiles_agree hfiles strict
      rw [scan_of_files hp ho hf, scan_of_files hp' ho hf']
      generalize readFiles p strict files = reading at hread
      generalize readFiles p' strict files' = reading' at hread
      cases hread with
      | error he => exact .error he
      | ok hr => exact .ok (.scanned (hr.ofReading hfiles now now' strict))

theorem FileTree.withinLimits_of_survey {t : FileTree} {input : Path} {place : Location}
    (hp : t.resolve input = .ok place) (hdir : t.isDirectory place)
    (h : ∀ s ∈ t.survey ⟨input, place⟩ [] (t.names place), ∃ d, t.LeadsTo input s.1 d) :
    t.WithinLimits input := by
  intro c hreached
  by_cases hne : c = []
  · subst hne
    exact not_isCutShort_of_resolve hp
  · obtain ⟨s, hs⟩ := exists_mem_survey hp hdir hne hreached
    obtain ⟨d, hd⟩ := h _ hs
    exact not_isCutShort_of_resolve hd

/-- A directory with a log in it, and a link to the directory. -/
def linkedLog : FileTree where
  root := [(nameA, .directory [(nameA, .file log.toByteArray)]), (nameB, .link (.ofString "a"))]
where
  log : String := "[Br Condition] Instruction: x\n"

theorem scan_same_place_linkedLog :
    linkedLog.resolve (.ofString "a") = .ok [nameA] ∧
      linkedLog.resolve (.ofString "b/") = .ok [nameA] ∧
      linkedLog.WithinLimits (.ofString "a") ∧ linkedLog.WithinLimits (.ofString "b/") ∧
      Agree (ErrorsAgree (.ofString "a") (.ofString "b/"))
        (ResultsAgree (.ofString "a") (.ofString "b/")) (scan linkedLog "" (.ofString "a") true)
        (scan linkedLog "" (.ofString "b/") true) := by
  have hp : linkedLog.resolve (.ofString "a") = .ok [nameA] := by cbv
  have hp' : linkedLog.resolve (.ofString "b/") = .ok [nameA] := by cbv
  have hlimits {input : Path} (hi : linkedLog.resolve input = .ok [nameA])
      (hleads : linkedLog.resolve (input.join nameA) = .ok [nameA, nameA]) :
      linkedLog.WithinLimits input := by
    have hnames : linkedLog.names [nameA] = [nameA] := by cbv
    have hentry : linkedLog.entryAt ⟨input, [nameA]⟩ [] nameA =
        .ok (.leaf (some ⟨input.join nameA, linkedLog.log.toByteArray⟩)) := by cbv
    refine FileTree.withinLimits_of_survey hi rfl ?_
    rw [hnames, FileTree.survey_cons_stop (by simp [hentry]), FileTree.survey]
    exact List.forall_mem_singleton.2 ⟨_, hleads⟩
  have hl := hlimits hp (by cbv)
  have hl' := hlimits hp' (by cbv)
  exact ⟨hp, hp', hl, hl', scan_same_place hp hp' hl hl' "" "" true⟩

end BranchLog
