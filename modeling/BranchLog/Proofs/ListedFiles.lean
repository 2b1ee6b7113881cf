import BranchLog.Proofs.WalkFailure
import Mathlib

/-!
# Which files a walk lists

A walk that does not fail lists a file for each chain of names that leads to one, in the order of
the names. A file whose path is too long is listed all the same: it is not looked up before it
is read.
-/
namespace BranchLog

namespace FileTree

section Listed

variable {t : FileTree} {input : Path} {place : Location} {c : List Name} {f : LogFile}
  {files : List LogFile}

theorem sightFiles_eq (s : Sight) : sightFiles s = [] ∨ ∃ f, sightFiles s = [f] := by
  cases s with
  | error fault => exact .inl rfl
  | ok e =>
    cases e with
    | enter v => exact .inl rfl
    | leaf found =>
      cases found with
      | none => exact .inl rfl
      | some f => exact .inr ⟨f, rfl⟩

theorem Tells.mem_sightFiles {s : Sight} (h : t.Tells input c s) (hf : f ∈ sightFiles s) :
    f.path = input.joins c ∧ t.HoldsLog input c f.data := by
  cases s with
  | error fault => cases hf
  | ok e =>
    cases e with
    | enter v => cases hf
    | leaf found => exact (h.2.2 f).1 (Option.mem_toList.1 hf)

/-- Where a file is to be found nothing else is. -/
theorem Tells.sightFiles_of_holdsLog {s : Sight} (h : t.Tells input c s)
    (hgood : ¬t.IsBad input c) (hpath : f.path = input.joins c)
    (hf : t.HoldsLog input c f.data) : f ∈ sightFiles s := by
  cases s with
  | error fault => exact absurd (isBad_iff.2 ⟨fault, h⟩) hgood
  | ok e =>
    cases e with
    | enter v =>
      obtain ⟨-, -, hleads, hdir⟩ := h
      obtain ⟨entries, he⟩ := isDirectory_iff.1 hdir
      rw [hleads.holdsLog_iff, he] at hf
      cases hf
    | leaf found => exact Option.mem_toList.2 ((h.2.2 f).2 ⟨hpath, hf⟩)

/-- The chains of the files among sights, in their order. -/
theorem exists_chains (p : Path) (sights : List (List Name × Sight))
    (h : ∀ s ∈ sights, ∀ f ∈ sightFiles s.2, f.path = p.joins s.1) :
    ∃ chains : List (List Name), chains.Sublist (sights.map Prod.fst) ∧
      (sights.flatMap fun s => sightFiles s.2).map LogFile.path = chains.map p.joins := by
  induction sights with
  | nil => exact ⟨[], .slnil, rfl⟩
  | cons s rest ih =>
    obtain ⟨hs, hrest⟩ := List.forall_mem_cons.1 h
    obtain ⟨chains, hsub, heq⟩ := ih hrest
    rw [List.flatMap_cons, List.map_append, heq]
    rcases sightFiles_eq s.2 with hnone | ⟨f, hf⟩
    · exact ⟨chains, hsub.cons _, by rw [hnone]; rfl⟩
    · refine ⟨s.1 :: chains, hsub.cons_cons _, ?_⟩
      rw [hf, List.map_singleton, hs f (by simp [hf])]
      rfl

/-- The files of an input are those of different chains of names, which ascend. -/
theorem exists_ascending_chains (hp : t.resolve input = .ok place)
    (h : t.logFiles input place = .ok files) :
    ∃ chains : List (List Name), files.map LogFile.path = chains.map input.joins ∧
      chains.Pairwise (· < ·) := by
  by_cases hdir : t.isDirectory place
  · rw [logFiles_directory hdir, walk_eq_gather, gather_eq_ok_iff] at h
    obtain ⟨-, rfl⟩ := h
    have hpath : ∀ s ∈ t.survey ⟨input, place⟩ [] (t.names place), ∀ f ∈ sightFiles s.2,
        f.path = input.joins s.1 :=
      fun s hs f hf => ((mem_survey_reached hp hdir hs).2.2.mem_sightFiles hf).1
    obtain ⟨chains, hsub, heq⟩ := exists_chains input _ hpath
    have hchains : chains.Pairwise (· < ·) :=
      (List.pairwise_map.2 (pairwise_survey (t.ascending_names place))).sublist hsub
    exact ⟨chains, heq, hchains⟩
  · obtain ⟨data, hfound⟩ := logFiles_of_not_isDirectory hdir
    rw [hfound] at h
    cases h
    exact ⟨[[]], rfl, List.pairwise_singleton _ _⟩

theorem nodup_paths (hp : t.resolve input = .ok place) (h : t.logFiles input place = .ok files) :
    (files.map LogFile.path).Nodup := by
  obtain ⟨chains, heq, hchains⟩ := exists_ascending_chains hp h
  have hnodup : chains.Nodup := hchains.imp fun hab => Std.ne_of_lt hab
  rw [heq]
  exact hnodup.map input.joins_injective

/-- A walk that does not fail lists the files below its input, each under every path to it and
under each path once. -/
theorem walk_lists_files (hp : t.resolve input = .ok place) (hdir : t.isDirectory place)
    (h : t.logFiles input place = .ok files) :
    (∀ f, f ∈ files ↔ ∃ c, c ≠ [] ∧ f.path = input.joins c ∧ t.IsChain input c ∧
      ((∃ d, t.LeadsTo input c d ∧ t.node? d = some (.file f.data)) ∨
        (input.joins c).isTooLong ∧ t.lastNode? input c = some (.file f.data))) ∧
    (files.map LogFile.path).Nodup ∧
    (∃ chains : List (List Name), files.map LogFile.path = chains.map input.joins ∧
      chains.Pairwise (· < ·)) ∧
    Function.Injective input.joins := by
  refine ⟨?_, nodup_paths hp h, exists_ascending_chains hp h, input.joins_injective⟩
  rw [logFiles_directory hdir] at h
  have hgood : ∀ c, t.IsChain input c → ¬t.IsBad input c :=
    fun c hc => not_isBad_of_walk hp hdir h hc
  rw [walk_eq_gather, gather_eq_ok_iff] at h
  obtain ⟨-, rfl⟩ := h
  refine fun f => ⟨fun hf => ?_, ?_⟩
  · obtain ⟨⟨c, s⟩, hs, hf⟩ := List.mem_flatMap.1 hf
    obtain ⟨hne, hreached, htells⟩ := mem_survey_reached hp hdir hs
    obtain ⟨hpath, hlog⟩ := htells.mem_sightFiles hf
    exact ⟨c, hne, hpath, hreached.1, hlog⟩
  · rintro ⟨c, hne, hpath, hchain, hlog⟩
    have hreached : t.IsReached input c :=
      ⟨hchain, fun q hq hbad => absurd hbad (hgood q (hchain.of_isPrefix hq))⟩
    obtain ⟨s, hs⟩ := exists_mem_survey hp hdir hne hreached
    obtain ⟨-, -, htells⟩ := mem_survey_reached hp hdir hs
    exact List.mem_flatMap.2
      ⟨(c, s), hs, htells.sightFiles_of_holdsLog (hgood c hchain) hpath hlog⟩

theorem walk_cons_leaf {here : Visit} {above : List Visit} {n : Name} {found : Option LogFile}
    (h : t.entryAt here above n = .ok (.leaf found)) (rest : List Name) :
    t.walk here above (n :: rest) = (t.walk here above rest).map (found.toList ++ ·) := by
  rw [walk_eq_gather, survey_cons_stop (by simp [h]), h, gather, walk_eq_gather, Entry.files]

/-- A file and a link to it. -/
def fileAndLink : FileTree where
  root := [(nameB, .link ⟨nameA.bytes⟩), (nameA, .file .empty)]

theorem walk_lists_files_fileAndLink :
    ∃ files, fileAndLink.resolve (.ofString ".") = .ok [] ∧ fileAndLink.isDirectory [] = true ∧
      fileAndLink.logFiles (.ofString ".") [] = .ok files ∧
      (files.map LogFile.path).Nodup ∧
      ∃ f ∈ files, f.path = (Path.ofString ".").joins [nameB] := by
  have hp : fileAndLink.resolve (.ofString ".") = .ok [] := by cbv
  have hnames : fileAndLink.names [] = [nameA, nameB] := by cbv
  have hfile : fileAndLink.entryAt ⟨.ofString ".", []⟩ [] nameA =
      .ok (.leaf (some ⟨.ofString "./a", .empty⟩)) := by cbv
  have hlink : fileAndLink.entryAt ⟨.ofString ".", []⟩ [] nameB =
      .ok (.leaf (some ⟨.ofString "./b", .empty⟩)) := by cbv
  have hfiles : fileAndLink.logFiles (.ofString ".") [] =
      .ok [⟨.ofString "./a", .empty⟩, ⟨.ofString "./b", .empty⟩] := by
    rw [logFiles_directory rfl, hnames, walk_cons_leaf hfile, walk_cons_leaf hlink, walk]
    rfl
  have hchain : fileAndLink.IsChain (.ofString ".") [nameB] :=
    isChain_singleton_iff.2 (by cbv)
  have hleads : fileAndLink.resolve ((Path.ofString ".").joins [nameB]) = .ok [nameA] := by
    cbv
  obtain ⟨hmem, hnodup, -⟩ := walk_lists_files hp rfl hfiles
  have hlisted := (hmem ⟨(Path.ofString ".").joins [nameB], .empty⟩).2
    ⟨[nameB], by simp, rfl, hchain, .inl ⟨[nameA], hleads, by cbv⟩⟩
  exact ⟨_, hp, rfl, hfiles, hnodup, _, hlisted, rfl⟩

theorem logFiles_single (input : Path) (data : ByteArray) :
    (single (.file data)).logFiles input [] = .ok [⟨input.join nameA, data⟩] := by
  have hnames : (single (.file data)).names [] = [nameA] := by cbv
  have hentry : (single (.file data)).entryAt ⟨input, []⟩ [] nameA =
      .ok (.leaf (some ⟨input.join nameA, data⟩)) := by
    simp [entryAt, leafAt, node?, single, Node.child?]
  rw [logFiles_directory rfl, hnames, walk_cons_leaf hentry, walk]
  rfl

/-- A file is listed that no path leads to. -/
theorem walk_lists_file_without_path :
    ¬∀ (t : FileTree) (input : Path) (place : Location) (files : List LogFile),
      t.resolve input = .ok place → t.isDirectory place = true →
      t.logFiles input place = .ok files → ∀ p, p ∈ files.map LogFile.path ↔
        ∃ c, c ≠ [] ∧ p = input.joins c ∧ t.IsChain input c ∧
          ∃ d data, t.LeadsTo input c d ∧ t.node? d = some (.file data) := by
  intro h
  have hfiles := logFiles_single longDot .empty
  have hlisted := h _ _ _ _ (resolve_longDot _) rfl hfiles (longDot.join nameA)
  have hmem (p : Path) : p ∈ [(⟨p, .empty⟩ : LogFile)].map LogFile.path := by simp
  obtain ⟨c, hne, -, -, d, data, hd, -⟩ := hlisted.1 (hmem _)
  have hlong := isTooLong_longDot c hne
  rw [hd.not_isTooLong] at hlong
  cases hlong

end Listed

end FileTree

end BranchLog
