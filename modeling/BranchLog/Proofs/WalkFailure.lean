import BranchLog.Proofs.ScanCounts
import BranchLog.Proofs.WalkChains
import Mathlib

/-!
# When a walk fails

A walk fails if there is a bad chain, and tells the first of those it comes to, in the order of
the names. Chains that are `Alike` are bad in the same way, below one input or two. `SameLook` is what
a walk looks at in a tree; trees that look the same up to the first bad chain fail in the same way.
-/
namespace BranchLog

namespace FileTree

structure IsFirstBad (t : FileTree) (input : Path) (c : List Name) : Prop where
  reached : t.IsReached input c
  bad : t.IsBad input c
  first : ∀ r, t.IsReached input r → t.IsBad input r → c ≤ r

/-- A chain below two inputs, in trees that need not be one, looks the same. -/
structure Alike (t t' : FileTree) (p p' : Path) (c : List Name) : Prop where
  kind : t.kind? p c = t'.kind? p' c
  resolve : t.resolve (p.joins c) = t'.resolve (p'.joins c)
  long : (p.joins c).isTooLong = (p'.joins c).isTooLong
  directory : ∀ d, t.LeadsTo p c d → t.isDirectory d = t'.isDirectory d

/-- One fault below two inputs. -/
inductive FaultsAgree (p p' : Path) : WalkFault → WalkFault → Prop
  | loop (c q : List Name) :
    FaultsAgree p p' (.loop (p.joins c) (p.joins q)) (.loop (p'.joins c) (p'.joins q))
  | unresolved (c : List Name) (fault : Fault) :
    FaultsAgree p p' (.unresolved (p.joins c) fault) (.unresolved (p'.joins c) fault)

section Alike

variable {t t' : FileTree} {p p' : Path} {c q : List Name} {d : Location} {fault : WalkFault}

theorem FaultsAgree.eq {fault' : WalkFault} (h : FaultsAgree p p fault fault') : fault = fault' := by
  cases h <;> rfl

theorem Alike.leadsTo_iff (h : Alike t t' p p' c) : t.LeadsTo p c d ↔ t'.LeadsTo p' c d := by
  rw [LeadsTo, LeadsTo, h.resolve]

theorem Alike.symm (h : Alike t t' p p' c) : Alike t' t p' p c where
  kind := h.kind.symm
  resolve := h.resolve.symm
  long := h.long.symm
  directory d hd := (h.directory d (h.leadsTo_iff.2 hd)).symm

theorem IsInnermost.of_alike (h : ∀ r, r <+: c → Alike t t' p p' r)
    (hq : t.IsInnermost p c d q) : t'.IsInnermost p' c d q where
  isPrefix := hq.isPrefix
  leads := (h q hq.isPrefix).leadsTo_iff.1 hq.leads
  longest r hr hd := hq.longest r hr ((h r hr).leadsTo_iff.2 hd)

theorem FaultAt.exists_of_alike (h : ∀ q, q <+: c → Alike t t' p p' q)
    (hfault : t.FaultAt p c fault) :
    ∃ fault', t'.FaultAt p' c fault' ∧ FaultsAgree p p' fault fault' := by
  have hc := h c (List.prefix_refl c)
  cases hfault with
  | dead hlink hf => exact ⟨_, .dead (hc.kind ▸ hlink) (hc.resolve ▸ hf), .unresolved c _⟩
  | loop hlink hleads hd hq =>
    have hq := hq.of_alike fun r hr => h r (hr.trans (List.dropLast_prefix c))
    have hd := hc.directory _ hleads ▸ hd
    exact ⟨_, .loop (hc.kind ▸ hlink) (hc.leadsTo_iff.1 hleads) hd hq, .loop c _⟩
  | long hdir hlong => exact ⟨_, .long (hc.kind ▸ hdir) (hc.long ▸ hlong), .unresolved c _⟩

theorem IsBad.of_alike (h : ∀ q, q <+: c → Alike t t' p p' q) (hbad : t.IsBad p c) :
    t'.IsBad p' c := by
  obtain ⟨fault, hfault⟩ := isBad_iff.1 hbad
  obtain ⟨fault', hfault', -⟩ := hfault.exists_of_alike h
  exact isBad_iff.2 ⟨fault', hfault'⟩

theorem IsReached.of_alike (h : ∀ q, q <+: c → Alike t t' p p' q) (hreached : t.IsReached p c) :
    t'.IsReached p' c := by
  obtain ⟨hchain, hfirst⟩ := hreached
  refine ⟨fun q hq hne => ?_, fun q hq hbad => ?_⟩
  · have hsome := hchain q hq hne
    rwa [← Option.isSome_map (f := Node.kind), ← kind?, ← (h q hq).kind, kind?,
      Option.isSome_map]
  · exact hfirst q hq (hbad.of_alike fun r hr => (h r (hr.trans hq)).symm)

end Alike

/-- The data of files is not among it. -/
structure SameLook (t t' : FileTree) (input : Path) (c : List Name) : Prop where
  kind : t.kind? input c = t'.kind? input c
  resolve : t.resolve (input.joins c) = t'.resolve (input.joins c)
  directory : ∀ d, t.LeadsTo input c d → t.isDirectory d = t'.isDirectory d

section Failure

variable {t t' : FileTree} {input : Path} {place : Location} {c : List Name} {fault : WalkFault}

theorem Tells.error_of_isBad {s : Sight} (h : t.Tells input c s) (hbad : t.IsBad input c) :
    ∃ fault, s = .error fault ∧ t.FaultAt input c fault := by
  cases s with
  | error fault => exact ⟨fault, rfl, h⟩
  | ok e =>
    cases e with
    | leaf found => exact absurd hbad h.1
    | enter v => exact absurd hbad h.1

theorem walk_eq_error_iff (hp : t.resolve input = .ok place) (hdir : t.isDirectory place) :
    t.walk ⟨input, place⟩ [] (t.names place) = .error fault ↔
      ∃ c, t.IsFirstBad input c ∧ t.FaultAt input c fault := by
  have hsorted : (t.survey ⟨input, place⟩ [] (t.names place)).Pairwise (fun p q => p.1 < q.1) :=
    pairwise_survey (t.ascending_names place)
  rw [walk_eq_gather, gather_eq_error_iff]
  constructor
  · rintro ⟨before, c, after, hsplit, hbefore⟩
    have hmem : (c, .error fault) ∈ t.survey ⟨input, place⟩ [] (t.names place) := by
      simp [hsplit]
    obtain ⟨-, hreached, hfault⟩ := mem_survey_reached hp hdir hmem
    refine ⟨c, ⟨hreached, isBad_iff.2 ⟨fault, hfault⟩, fun r hr hbad => ?_⟩, hfault⟩
    obtain ⟨s, hs⟩ := exists_mem_survey hp hdir (ne_nil_of_isBad hbad) hr
    obtain ⟨-, -, htells⟩ := mem_survey_reached hp hdir hs
    obtain ⟨fault', rfl, -⟩ := htells.error_of_isBad hbad
    rw [hsplit] at hs hsorted
    -- it is no error before the first one, so it is that one or greater
    rcases List.mem_append.1 hs with hs | hs
    · exact absurd rfl (hbefore _ hs fault')
    · rcases List.mem_cons.1 hs with hs | hs
      · cases hs
        exact Std.le_refl _
      · have hlt := List.rel_of_pairwise_cons (List.pairwise_append.1 hsorted).2.1 hs
        exact Std.le_of_lt hlt
  · rintro ⟨c, ⟨hreached, hbad, hfirst⟩, hfault⟩
    obtain ⟨s, hs⟩ := exists_mem_survey hp hdir (ne_nil_of_isBad hbad) hreached
    obtain ⟨-, -, htells⟩ := mem_survey_reached hp hdir hs
    obtain ⟨fault', rfl, hfault'⟩ := htells.error_of_isBad hbad
    cases hfault.unique hfault'
    obtain ⟨before, after, hsplit⟩ := List.append_of_mem hs
    refine ⟨before, c, after, hsplit, ?_⟩
    rintro ⟨r, s⟩ hr fault' rfl
    have hmem : (r, .error fault') ∈ t.survey ⟨input, place⟩ [] (t.names place) := by
      rw [hsplit]
      exact List.mem_append_left _ hr
    obtain ⟨-, hr', hfault'⟩ := mem_survey_reached hp hdir hmem
    have hle := hfirst r hr' (isBad_iff.2 ⟨fault', hfault'⟩)
    rw [hsplit] at hsorted
    have hlt := (List.pairwise_append.1 hsorted).2.2 _ hr _ (List.mem_cons_self ..)
    exact Std.not_lt.2 hle hlt

/-- On the way to a bad chain the first that is bad is reached. -/
theorem exists_reached_of_isBad (hchain : t.IsChain input c)
    (h : ∃ q, q <+: c ∧ t.IsBad input q) :
    ∃ q, q <+: c ∧ t.IsReached input q ∧ t.IsBad input q := by
  induction c using List.reverseRecOn with
  | nil =>
    obtain ⟨q, hq, hbad⟩ := h
    exact absurd (List.prefix_nil.1 hq) (ne_nil_of_isBad hbad)
  | append_singleton c n ih =>
    have hc : c <+: c ++ [n] := List.prefix_append c [n]
    by_cases hbefore : ∃ q, q <+: c ∧ t.IsBad input q
    · obtain ⟨q, hq, hrest⟩ := ih (hchain.of_isPrefix hc) hbefore
      exact ⟨q, hq.trans hc, hrest⟩
    · have heq : ∀ q, q <+: c ++ [n] → t.IsBad input q → q = c ++ [n] := by
        intro q hq hbad
        rcases List.prefix_concat_iff.1 hq with hq | hq
        · exact hq
        · exact absurd ⟨q, hq, hbad⟩ hbefore
      obtain ⟨q, hq, hbad⟩ := h
      cases heq q hq hbad
      exact ⟨c ++ [n], hq, ⟨hchain, heq⟩, hbad⟩

theorem not_isBad_of_walk {files : List LogFile} (hp : t.resolve input = .ok place)
    (hdir : t.isDirectory place)
    (h : t.walk ⟨input, place⟩ [] (t.names place) = .ok files) (hchain : t.IsChain input c) :
    ¬t.IsBad input c := by
  intro hbad
  obtain ⟨q, -, hreached, hbad⟩ := exists_reached_of_isBad hchain ⟨c, List.prefix_refl _, hbad⟩
  obtain ⟨s, hs⟩ := exists_mem_survey hp hdir (ne_nil_of_isBad hbad) hreached
  obtain ⟨-, -, htells⟩ := mem_survey_reached hp hdir hs
  obtain ⟨fault, rfl, -⟩ := htells.error_of_isBad hbad
  rw [walk_eq_gather, gather_eq_ok_iff] at h
  exact h.1 _ hs fault rfl

theorem exists_isFirstBad (hp : t.resolve input = .ok place) (hdir : t.isDirectory place)
    (hchain : t.IsChain input c) (hbad : t.IsBad input c) : ∃ r, t.IsFirstBad input r := by
  cases h : t.walk ⟨input, place⟩ [] (t.names place) with
  | ok files => exact absurd hbad (not_isBad_of_walk hp hdir h hchain)
  | error fault =>
    obtain ⟨r, hr, -⟩ := (walk_eq_error_iff hp hdir).1 h
    exact ⟨r, hr⟩

theorem SameLook.leadsTo_iff {d : Location} (h : SameLook t t' input c) :
    t.LeadsTo input c d ↔ t'.LeadsTo input c d := by
  rw [LeadsTo, LeadsTo, h.resolve]

theorem SameLook.alike (h : SameLook t t' input c) : Alike t t' input input c :=
  ⟨h.kind, h.resolve, rfl, h.directory⟩

theorem faultAt_of_sameLook (h : ∀ q, q <+: c → SameLook t t' input q)
    (hfault : t.FaultAt input c fault) : t'.FaultAt input c fault := by
  obtain ⟨fault', hfault', hagree⟩ := hfault.exists_of_alike fun q hq => (h q hq).alike
  rwa [hagree.eq]

theorem le_of_isPrefix {q : List Name} (hq : q <+: c) : q ≤ c := by
  obtain ⟨r, rfl⟩ := hq
  exact List.le_append_left

theorem isFirstBad_of_sameLook (h : ∀ q, q ≤ c → SameLook t t' input q)
    (hfirst : t.IsFirstBad input c) : t'.IsFirstBad input c := by
  have halike {r : List Name} (hr : r ≤ c) : ∀ q, q <+: r → Alike t t' input input q :=
    fun q hq => (h q (Std.le_trans (le_of_isPrefix hq) hr)).alike
  refine ⟨hfirst.reached.of_alike (halike (Std.le_refl c)),
    hfirst.bad.of_alike (halike (Std.le_refl c)), fun r hr hbad => ?_⟩
  by_contra hlt
  -- a smaller one would be bad in the first tree too
  have hsame : ∀ q, q <+: r → Alike t' t input input q :=
    fun q hq => (halike (Std.le_of_lt (Std.not_le.1 hlt)) q hq).symm
  exact hlt (hfirst.first r (hr.of_alike hsame) (hbad.of_alike hsame))

theorem logFiles_directory (hdir : t.isDirectory place) :
    t.logFiles input place = t.walk ⟨input, place⟩ [] (t.names place) := by
  obtain ⟨entries, he⟩ := isDirectory_iff.1 hdir
  rw [logFiles, he]

/-- All but a directory is found as one file. -/
theorem logFiles_of_not_isDirectory (hdir : ¬t.isDirectory place) :
    ∃ data, ∀ input, t.logFiles input place = .ok [⟨input, data⟩] := by
  simp only [logFiles]
  split
  · next entries he => exact absurd (isDirectory_iff.2 ⟨entries, he⟩) hdir
  all_goals exact ⟨_, fun _ => rfl⟩

theorem logFiles_eq_error_iff (hp : t.resolve input = .ok place) (hdir : t.isDirectory place) :
    t.logFiles input place = .error fault ↔
      ∃ c, t.IsFirstBad input c ∧ t.FaultAt input c fault := by
  rw [logFiles_directory hdir, walk_eq_error_iff hp hdir]

theorem logFiles_fails_iff (hp : t.resolve input = .ok place) (hdir : t.isDirectory place) :
    (∃ fault, t.logFiles input place = .error fault) ↔
      ∃ c, t.IsChain input c ∧ t.IsBad input c := by
  constructor
  · rintro ⟨fault, hfault⟩
    obtain ⟨c, hc, -⟩ := (logFiles_eq_error_iff hp hdir).1 hfault
    exact ⟨c, hc.reached.1, hc.bad⟩
  · rintro ⟨c, hchain, hbad⟩
    obtain ⟨r, hr⟩ := exists_isFirstBad hp hdir hchain hbad
    obtain ⟨fault, hfault⟩ := isBad_iff.1 hr.bad
    exact ⟨fault, (logFiles_eq_error_iff hp hdir).2 ⟨r, hr, hfault⟩⟩

end Failure

end FileTree

section Scan

variable {t : FileTree} {input p : Path} {place : Location} {strict : Bool} {now : String}
  {fault : WalkFault}

theorem Reading.addFile_ne_walk {r : Reading} {f : LogFile} :
    r.addFile strict f ≠ .error (.walk p fault) := by
  rw [addFile]
  split
  · simp
  · split <;> simp

theorem readFiles_ne_walk {files : List LogFile} :
    readFiles input strict files ≠ .error (.walk p fault) := by
  have hfold (r : Reading) :
      files.foldlM (fun r f => r.addFile strict f) r ≠ .error (.walk p fault) := by
    induction files generalizing r with
    | nil => simp [pure, Except.pure]
    | cons f rest ih =>
      rw [List.foldlM_cons]
      cases hf : r.addFile strict f with
      | error e =>
        intro h
        cases h
        exact Reading.addFile_ne_walk hf
      | ok r' => exact ih r'
  rw [readFiles]
  split
  · split <;> simp
  · exact hfold {}

/-- A scan fails to walk before it reads any of the files. -/
theorem scan_eq_walk_iff (hp : t.resolve input = .ok place) :
    scan t now input strict = .error (.walk p fault) ↔
      p = input ∧ t.logFiles input place = .error fault := by
  cases hf : t.logFiles input place with
  | error fault' => simp [scan_of_logFiles_error hp hf, eq_comm]
  | ok files =>
    cases ho : t.isOpenPipe place with
    | true => simp [scan_of_isOpenPipe hp ho]
    | false =>
      have hne : readFiles input strict files ≠ .error (.walk p fault) := readFiles_ne_walk
      rw [scan_of_files hp ho hf]
      cases hr : readFiles input strict files with
      | ok r => simp [Except.map]
      | error e =>
        rw [hr] at hne
        simpa [Except.map] using hne

theorem resolve_of_isTooLong (h : p.isTooLong) : t.resolve p = .error .nameTooLong := by
  have hne : p.bytes ≠ [] := by
    intro hb
    simp [Path.isTooLong, hb] at h
  simp [FileTree.resolve, hne, h]

theorem FileTree.FaultAt.causes {c : List Name} (h : t.FaultAt input c fault) :
    (∃ f, t.resolve (input.joins c) = .error f ∧ fault.causes =
      ["IO error for operation on " ++ (input.joins c).display ++ ": " ++ f.message, f.message]) ∨
    ∃ d q, t.LeadsTo input c d ∧ t.IsInnermost input c.dropLast d q ∧ fault.causes =
      ["File system loop found: " ++ (input.joins c).display ++ " points to an ancestor " ++
        (input.joins q).display] := by
  cases h with
  | dead hlink hfault => exact .inl ⟨_, hfault, rfl⟩
  | loop hlink hleads hd hq => exact .inr ⟨_, _, hleads, hq, rfl⟩
  | long hdir hlong => exact .inl ⟨_, resolve_of_isTooLong hlong, rfl⟩

/-- A walk fails exactly if there is a bad chain. The scan then tells why the first of them is bad,
and so does any scan of a tree that looks the same up to it, whatever else there is. -/
theorem walk_fails_at_first_bad (now : String) (strict : Bool) (hp : t.resolve input = .ok place)
    (hdir : t.isDirectory place) :
    ((∃ fault, t.logFiles input place = .error fault) ↔
      ∃ c, t.IsChain input c ∧ t.IsBad input c) ∧
    ((∃ c, t.IsChain input c ∧ t.IsBad input c) →
      ∃ c e, t.IsFirstBad input c ∧ scan t now input strict = .error e ∧
        e.message = "failed to walk " ++ input.display ∧
        ((∃ f, t.resolve (input.joins c) = .error f ∧ e.causes =
          ["IO error for operation on " ++ (input.joins c).display ++ ": " ++ f.message,
            f.message]) ∨
        ∃ d q, t.LeadsTo input c d ∧ t.IsInnermost input c.dropLast d q ∧ e.causes =
          ["File system loop found: " ++ (input.joins c).display ++ " points to an ancestor " ++
            (input.joins q).display]) ∧
        ∀ t' now' strict', (∀ q, q ≤ c → FileTree.SameLook t t' input q) →
          scan t' now' input strict' = .error e) := by
  refine ⟨FileTree.logFiles_fails_iff hp hdir, ?_⟩
  rintro ⟨c, hchain, hbad⟩
  obtain ⟨r, hr⟩ := FileTree.exists_isFirstBad hp hdir hchain hbad
  obtain ⟨fault, hfault⟩ := FileTree.isBad_iff.1 hr.bad
  have hlog := (FileTree.logFiles_eq_error_iff hp hdir).2 ⟨r, hr, hfault⟩
  refine ⟨r, .walk input fault, hr, (scan_eq_walk_iff hp).2 ⟨rfl, hlog⟩, rfl,
    hfault.causes, fun t' now' strict' hsame => ?_⟩
  have hstart := hsame [] (List.nil_le r)
  have hp' : t'.resolve input = .ok place := hstart.leadsTo_iff.1 hp
  have hdir' : t'.isDirectory place := by rwa [← hstart.directory place hp]
  have hfault' := FileTree.faultAt_of_sameLook (fun q hq => hsame q (FileTree.le_of_isPrefix hq))
    hfault
  have hlog' := (FileTree.logFiles_eq_error_iff hp' hdir').2
    ⟨r, FileTree.isFirstBad_of_sameLook hsame hr, hfault'⟩
  exact (scan_eq_walk_iff hp').2 ⟨rfl, hlog'⟩

/-- One link that leads nowhere, and before it in the order of names one that closes a loop. -/
def twoBadLinks : FileTree where
  root := [(nameB, .link (.ofString "x")), (nameA, .link (.ofString "."))]

theorem walk_fails_at_first_bad_twoBadLinks :
    twoBadLinks.resolve (.ofString ".") = .ok [] ∧ twoBadLinks.isDirectory [] = true ∧
      ∃ c e, twoBadLinks.IsFirstBad (.ofString ".") c ∧
        scan twoBadLinks "" (.ofString ".") false = .error e ∧
        e.message = "failed to walk " ++ (Path.ofString ".").display := by
  have hp : twoBadLinks.resolve (.ofString ".") = .ok [] := by cbv
  have hdir : twoBadLinks.isDirectory [] = true := by cbv
  let c : List Name := [nameA]
  have hkind : twoBadLinks.kind? (.ofString ".") c = some .link := by cbv
  have hleads : twoBadLinks.LeadsTo (.ofString ".") c [] := by
    have h : twoBadLinks.resolve ((Path.ofString ".").joins c) = .ok [] := by cbv
    exact h
  have hchain : twoBadLinks.IsChain (.ofString ".") c :=
    FileTree.isChain_singleton_iff.2 (by cbv)
  have hbad : twoBadLinks.IsBad (.ofString ".") c :=
    .inr (.inl ⟨hkind, [], hleads, hdir, [], List.nil_prefix, hp⟩)
  obtain ⟨r, e, hr, he, hmessage, -⟩ :=
    (walk_fails_at_first_bad "" false hp hdir).2 ⟨c, hchain, hbad⟩
  exact ⟨hp, hdir, r, e, hr, he, hmessage⟩

/-- A tree with one entry. -/
def single (x : Node) : FileTree where
  root := [(nameA, x)]

/-- The working directory by a path that leaves no room for a name behind it. -/
def longDot : Path := ⟨[dot] ++ List.replicate 4094 slash⟩

theorem resolve_longDot (x : Node) : (single x).resolve longDot = .ok [] := by
  have hdot : (single x).resolve ⟨[dot]⟩ = .ok [] := by cbv
  exact FileTree.resolve_append_slashes hdot rfl (by decide)

theorem isTooLong_longDot (c : List Name) (hc : c ≠ []) : (longDot.joins c).isTooLong := by
  have hl := longDot.length_joins_gt hc
  have hd : longDot.bytes.length = 4095 := by
    rw [longDot, List.length_append, List.length_replicate]
    rfl
  rw [Path.isTooLong, decide_eq_true_eq, longestPath]
  omega

theorem lastNode?_longDot (x : Node) : (single x).lastNode? longDot [nameA] = some x := by
  have hstart : (single x).LeadsTo longDot [] [] := resolve_longDot x
  have hentry := FileTree.lastNode?_concat (n := nameA) hstart
  rw [List.nil_append] at hentry
  rw [hentry]
  simp [FileTree.node?, single, Node.child?]

theorem isChain_longDot (x : Node) : (single x).IsChain longDot [nameA] := by
  rw [FileTree.isChain_singleton_iff, lastNode?_longDot]
  rfl

theorem kind_single_directory {place : Location} {x : Node}
    (h : (single (.directory [])).node? place = some x) : x.kind = .directory := by
  have hnode : x = .directory (single (.directory [])).root ∨ x = .directory [] := by
    induction place generalizing x with
    | nil => exact .inl (Option.some.inj h).symm
    | cons n above ih =>
      obtain ⟨y, hy, hx⟩ := Option.bind_eq_some_iff.1 h
      rcases ih hy with rfl | rfl
      · have hmem := Node.mem_of_lookup hx
        simp only [single, List.mem_singleton, Prod.mk.injEq] at hmem
        exact .inr hmem.2
      · simp [Node.child?] at hx
  rcases hnode with rfl | rfl <;> rfl

/-- Where no path is left for a directory, a walk fails without any link. -/
theorem walk_fails_without_links :
    ¬∀ (t : FileTree) (input : Path) (place : Location), t.resolve input = .ok place →
      t.isDirectory place = true → ((∃ fault, t.logFiles input place = .error fault) ↔
        ∃ c, t.IsChain input c ∧ (t.IsDeadLink input c ∨ t.IsLoopLink input c)) := by
  intro h
  have hp := resolve_longDot (.directory [])
  have hkind : (single (.directory [])).kind? longDot [nameA] = some .directory := by
    rw [FileTree.kind?, lastNode?_longDot]
    rfl
  have hbad : (single (.directory [])).IsBad longDot [nameA] :=
    .inr (.inr ⟨hkind, isTooLong_longDot _ (by simp)⟩)
  have hfails := (FileTree.logFiles_fails_iff hp rfl).2 ⟨_, isChain_longDot _, hbad⟩
  obtain ⟨d, -, hd⟩ := (h _ _ _ hp rfl).1 hfails
  have hlink : (single (.directory [])).kind? longDot d = some .link := hd.elim And.left And.left
  obtain ⟨x, hx, hxlink⟩ := Option.map_eq_some_iff.1 hlink
  obtain ⟨place, hplace⟩ := FileTree.exists_node?_of_lastNode? hx
  rw [kind_single_directory hplace] at hxlink
  cases hxlink

end Scan

end BranchLog
