import BranchLog.FileTree.Walk
import Mathlib

/-!
# A walk step by step

`advance` takes a walk one entry further on a stack of the directories that it is in, without a
measure. `Entered` is what every step keeps: a directory that was entered by a link lies elsewhere
than all directories below it on the stack. `walk_ends` says where the steps end.
-/
namespace BranchLog.FileTree

/-- A directory that a walk is in, and the names it has not come to. -/
structure Frame where
  visit : Visit
  linked : Bool
  left : List Name

inductive Walker where
  | going (stack : List Frame) (found : List LogFile)
  | ended (result : Except WalkFault (List LogFile))

def isLink (t : FileTree) (place : Location) : Bool :=
  match t.node? place with
  | some (.link _) => true
  | _ => false

def advance (t : FileTree) : Walker → Walker
  | .going [] found => .ended (.ok found)
  | .going (⟨_, _, []⟩ :: below) found => .going below found
  | .going (⟨v, linked, n :: rest⟩ :: below) found =>
    match t.entryAt v (below.map Frame.visit) n with
    | .error fault => .ended (.error fault)
    | .ok (.leaf f) => .going (⟨v, linked, rest⟩ :: below) (found ++ f.toList)
    | .ok (.enter w) =>
      .going (⟨w, t.isLink (n :: v.place), t.names w.place⟩ :: ⟨v, linked, rest⟩ :: below) found
  | .ended result => .ended result

def begin (t : FileTree) (here : Visit) : Walker := .going [⟨here, false, t.names here.place⟩] []

section Advance

variable {t : FileTree} {v w : Visit} {linked : Bool} {n : Name} {rest : List Name}
  {below : List Frame} {found : List LogFile}

theorem advance_error {fault : WalkFault}
    (h : t.entryAt v (below.map Frame.visit) n = .error fault) :
    t.advance (.going (⟨v, linked, n :: rest⟩ :: below) found) = .ended (.error fault) := by
  rw [advance, h]

theorem advance_leaf {f : Option LogFile}
    (h : t.entryAt v (below.map Frame.visit) n = .ok (.leaf f)) :
    t.advance (.going (⟨v, linked, n :: rest⟩ :: below) found) =
      .going (⟨v, linked, rest⟩ :: below) (found ++ f.toList) := by
  rw [advance, h]

theorem advance_enter (h : t.entryAt v (below.map Frame.visit) n = .ok (.enter w)) :
    t.advance (.going (⟨v, linked, n :: rest⟩ :: below) found) =
      .going (⟨w, t.isLink (n :: v.place), t.names w.place⟩ :: ⟨v, linked, rest⟩ :: below)
        found := by
  rw [advance, h]

end Advance

/-- What comes of the innermost directory: the walk of the names left in it. -/
theorem exists_advance_eq (t : FileTree) (here : Visit) (linked : Bool) (ns : List Name)
    (below : List Frame) (found : List LogFile) :
    ∃ k, t.advance^[k] (.going (⟨here, linked, ns⟩ :: below) found) =
      match t.walk here (below.map Frame.visit) ns with
      | .error fault => .ended (.error fault)
      | .ok files => .going below (found ++ files) := by
  generalize habove : below.map Frame.visit = above
  -- the recursion of the walk; an entered directory is a run of its own, one frame higher
  fun_induction t.walk here above ns generalizing linked below found with
  | case1 here above =>
    refine ⟨1, ?_⟩
    simp [advance]
  | case2 here above n rest fault h =>
    subst habove
    exact ⟨1, advance_error h⟩
  | case3 here above n rest f h ih =>
    subst habove
    obtain ⟨k, hk⟩ := ih linked below (found ++ f.toList) rfl
    refine ⟨k + 1, ?_⟩
    rw [Function.iterate_succ_apply, advance_leaf h, hk]
    cases t.walk here (below.map Frame.visit) rest with
    | error fault => rfl
    | ok files => simp [Except.map]
  | case4 here above n rest v h fault hv ih =>
    subst habove
    obtain ⟨k, hk⟩ := ih (t.isLink (n :: here.place)) (⟨here, linked, rest⟩ :: below) found rfl
    refine ⟨k + 1, ?_⟩
    rw [Function.iterate_succ_apply, advance_enter h, hk, hv]
  | case5 here above n rest v h inner hv ih ih' =>
    subst habove
    obtain ⟨k, hk⟩ := ih (t.isLink (n :: here.place)) (⟨here, linked, rest⟩ :: below) found rfl
    obtain ⟨m, hm⟩ := ih' linked below (found ++ inner) rfl
    refine ⟨m + (k + 1), ?_⟩
    rw [Function.iterate_add_apply, Function.iterate_succ_apply, advance_enter h, hk, hv, hm]
    cases t.walk here (below.map Frame.visit) rest with
    | error fault => rfl
    | ok files => simp [Except.map]

theorem exists_advance_eq_ended (t : FileTree) (here : Visit) :
    ∃ k, t.advance^[k] (t.begin here) = .ended (t.walk here [] (t.names here.place)) := by
  obtain ⟨k, hk⟩ := t.exists_advance_eq here false (t.names here.place) [] []
  rw [List.map_nil] at hk
  cases hw : t.walk here [] (t.names here.place) with
  | error fault =>
    rw [hw] at hk
    exact ⟨k, hk⟩
  | ok files =>
    rw [hw] at hk
    refine ⟨k + 1, ?_⟩
    rw [Function.iterate_succ_apply', begin, hk]
    rfl

/-- A directory entered by a link is not among those below it, and at the bottom is the start. -/
structure Entered (t : FileTree) (here : Visit) (stack : List Frame) : Prop where
  apart : stack.Pairwise fun f g => f.linked → f.visit.place ≠ g.visit.place
  directory : ∀ f ∈ stack, f.linked → t.isDirectory f.visit.place
  bottom : ∀ f ∈ stack.getLast?, f.visit = here ∧ f.linked = false

section Entered

variable {t : FileTree} {here v w : Visit} {linked : Bool} {n : Name} {ns rest : List Name}
  {below : List Frame}

theorem enter_link {above : List Visit} (h : t.entryAt v above n = .ok (.enter w))
    (hlink : t.isLink (n :: v.place)) :
    t.isDirectory w.place ∧ ∀ a ∈ v :: above, a.place ≠ w.place := by
  obtain ⟨target, hn⟩ : ∃ target, t.node? (n :: v.place) = some (.link target) := by
    rw [isLink] at hlink
    split at hlink
    · next target hn => exact ⟨target, hn⟩
    · cases hlink
  simp only [entryAt, hn] at h
  split at h
  · next place hplace =>
    rw [linkedEntry] at h
    split at h
    · next hdir =>
      split at h
      · cases h
      · next hfind =>
        cases h
        exact ⟨hdir, by simpa using hfind⟩
    · rw [leafAt] at h
      split at h <;> cases h
  · cases h

theorem entered_begin (t : FileTree) (here : Visit) :
    t.Entered here [⟨here, false, t.names here.place⟩] where
  apart := List.pairwise_singleton ..
  directory := by simp
  bottom := by simp

theorem Entered.tail {f : Frame} (h : t.Entered here (f :: below)) : t.Entered here below where
  apart := h.apart.of_cons
  directory g hg := h.directory g (List.mem_cons_of_mem _ hg)
  bottom := by
    cases below with
    | nil => simp
    | cons g r => simpa only [List.getLast?_cons_cons] using h.bottom

theorem Entered.left (h : t.Entered here (⟨v, linked, ns⟩ :: below)) :
    t.Entered here (⟨v, linked, rest⟩ :: below) where
  apart := by
    obtain ⟨hv, hbelow⟩ := List.pairwise_cons.1 h.apart
    exact List.pairwise_cons.2 ⟨hv, hbelow⟩
  directory := by
    obtain ⟨hv, hbelow⟩ := List.forall_mem_cons.1 h.directory
    exact List.forall_mem_cons.2 ⟨hv, hbelow⟩
  bottom := by
    have hb := h.bottom
    cases below with
    | nil => simpa using hb
    | cons g r => simpa only [List.getLast?_cons_cons] using hb

theorem Entered.enter (hs : t.Entered here (⟨v, linked, ns⟩ :: below))
    (h : t.entryAt v (below.map Frame.visit) n = .ok (.enter w)) :
    t.Entered here (⟨w, t.isLink (n :: v.place), rest⟩ :: ⟨v, linked, ns⟩ :: below) where
  apart := by
    refine List.pairwise_cons.2 ⟨fun g hg hlink heq => ?_, hs.apart⟩
    have hg : g.visit ∈ v :: below.map Frame.visit := by
      rcases List.mem_cons.1 hg with rfl | hg
      · exact List.mem_cons_self ..
      · exact List.mem_cons_of_mem _ (List.mem_map_of_mem hg)
    exact (enter_link h hlink).2 g.visit hg heq.symm
  directory := by
    refine List.forall_mem_cons.2 ⟨fun hlink => ?_, hs.directory⟩
    exact (enter_link h hlink).1
  bottom := by
    rw [List.getLast?_cons_cons]
    exact hs.bottom

/-- A step takes a name, leaves a directory or enters one. -/
theorem entered_advance {s : Walker} (hs : ∀ stack found, s = .going stack found →
    t.Entered here stack) {stack : List Frame} {found : List LogFile}
    (h : t.advance s = .going stack found) : t.Entered here stack := by
  cases s with
  | ended result => cases h
  | going frames got =>
    have hf := hs frames got rfl
    cases frames with
    | nil => cases h
    | cons f below =>
      obtain ⟨v, linked, left⟩ := f
      cases left with
      | nil =>
        cases h
        exact hf.tail
      | cons n rest =>
        rw [advance] at h
        split at h
        · cases h
        · cases h
          exact hf.left
        · next w hw =>
          cases h
          exact hf.left.enter hw

theorem entered_run {k : Nat} {stack : List Frame} {found : List LogFile}
    (h : t.advance^[k] (t.begin here) = .going stack found) : t.Entered here stack := by
  induction k generalizing stack found with
  | zero =>
    cases h
    exact t.entered_begin here
  | succ k ih =>
    rw [Function.iterate_succ_apply'] at h
    exact entered_advance (fun _ _ hs => ih hs) h

def linkedPlaces (stack : List Frame) : List Location :=
  (stack.filter Frame.linked).map (·.visit.place)

theorem mem_linkedPlaces_iff {stack : List Frame} {d : Location} :
    d ∈ linkedPlaces stack ↔ ∃ f ∈ stack, f.linked = true ∧ f.visit.place = d := by
  simp [linkedPlaces, and_assoc]

theorem Entered.nodup {stack : List Frame} (h : t.Entered here stack) :
    (linkedPlaces stack).Nodup := by
  refine List.pairwise_map.2 (List.pairwise_filter.2 (h.apart.imp ?_))
  exact fun {f g} hfg hf _ => hfg hf

theorem Entered.start_not_mem {stack : List Frame} (h : t.Entered here stack) :
    here.place ∉ linkedPlaces stack := by
  intro hmem
  obtain ⟨f, hf, hlinked, hplace⟩ := mem_linkedPlaces_iff.1 hmem
  obtain ⟨upper, g, rfl⟩ := (List.eq_nil_or_concat' stack).resolve_left (List.ne_nil_of_mem hf)
  obtain ⟨hg, hnot⟩ := h.bottom g (by simp)
  rcases List.mem_append.1 hf with hf | hf
  · have hne := (List.pairwise_append.1 h.apart).2.2 f hf g (List.mem_singleton_self g) hlinked
    rw [hg] at hne
    exact hne hplace
  · rw [List.mem_singleton.1 hf, hnot] at hlinked
    cases hlinked

theorem finite_directories (t : FileTree) : {d | t.isDirectory d = true}.Finite :=
  t.directories.finite_toSet.subset fun _ hd => mem_directories hd

/-- The start and the directories entered by a link are so many directories of the tree. -/
theorem Entered.length_lt {stack : List Frame} (h : t.Entered here stack)
    (hdir : t.isDirectory here.place) :
    (linkedPlaces stack).length < {d | t.isDirectory d = true}.ncard := by
  have hnodup : (here.place :: linkedPlaces stack).Nodup :=
    List.nodup_cons.2 ⟨h.start_not_mem, h.nodup⟩
  have hsubset : ((here.place :: linkedPlaces stack).toFinset : Set Location) ⊆
      {d | t.isDirectory d = true} := by
    intro d hd
    rcases List.mem_cons.1 (List.mem_toFinset.1 hd) with rfl | hd
    · exact hdir
    · obtain ⟨f, hf, hlinked, rfl⟩ := mem_linkedPlaces_iff.1 hd
      exact h.directory f hf hlinked
  have hcard := Set.ncard_le_ncard hsubset t.finite_directories
  rw [Set.ncard_coe_finset, List.toFinset_card_of_nodup hnodup] at hcard
  exact hcard

end Entered

def outer : Name := ⟨[0x70], by decide⟩

def inner : Name := ⟨[0x71], by decide⟩

def back : Name := ⟨[0x6c], by decide⟩

/-- A link in a directory of a directory, back to the outer one. -/
def linkBack : FileTree where
  root := [(outer, .directory [(inner, .directory [(back, .link ⟨[dot, dot]⟩)])])]

def innerStart : Visit := ⟨.ofString "p/q", [inner, outer]⟩

/-- From the inner directory a walk goes by the link to the outer one, and on to where it began. -/
theorem linkBack_reenters :
    ∃ f l g, linkBack.advance^[2] (linkBack.begin innerStart) = .going [f, l, g] [] ∧
      f.linked = false ∧ l.linked = true ∧ f.visit.place = g.visit.place := by
  let outside : Visit := ⟨.ofString "p/q/l", [outer]⟩
  let again : Visit := ⟨.ofString "p/q/l/q", [inner, outer]⟩
  have hnames : linkBack.names [inner, outer] = [back] := by cbv
  have hnames' : linkBack.names [outer] = [inner] := by cbv
  have hlink : linkBack.entryAt innerStart [] back = .ok (.enter outside) := by cbv
  have hdir : linkBack.entryAt outside [innerStart] inner = .ok (.enter again) := by cbv
  refine ⟨⟨again, false, [back]⟩, ⟨outside, true, []⟩, ⟨innerStart, false, []⟩, ?_, rfl, rfl, rfl⟩
  have hbegin : linkBack.begin innerStart = .going [⟨innerStart, false, [back]⟩] [] := by
    rw [begin, ← hnames]
    rfl
  have hstep : linkBack.advance (.going [⟨innerStart, false, [back]⟩] []) =
      .going [⟨outside, true, [inner]⟩, ⟨innerStart, false, []⟩] [] := by
    rw [advance_enter hlink, hnames']
    rfl
  have hstep' : linkBack.advance (.going [⟨outside, true, [inner]⟩, ⟨innerStart, false, []⟩] []) =
      .going [⟨again, false, [back]⟩, ⟨outside, true, []⟩, ⟨innerStart, false, []⟩] [] := by
    rw [advance_enter hdir, hnames]
    rfl
  rw [hbegin, Function.iterate_succ_apply, hstep, Function.iterate_one, hstep']

/-- A walk ends, whatever the links. Of the directories it is in at any time, those entered by a
link are all different and none is the start, so there are fewer of them than directories in the
tree; but a directory that no link leads to may be entered again below a link. -/
theorem walk_ends {t : FileTree} {input : Path} {place : Location} (hdir : t.isDirectory place) :
    (∃ k, t.advance^[k] (t.begin ⟨input, place⟩) = .ended (t.logFiles input place)) ∧
    (∀ k stack found, t.advance^[k] (t.begin ⟨input, place⟩) = .going stack found →
      (linkedPlaces stack).Nodup ∧ place ∉ linkedPlaces stack ∧
      (linkedPlaces stack).length < {d | t.isDirectory d = true}.ncard) ∧
    ∃ (t' : FileTree) (here : Visit) (k : Nat) (f l g : Frame),
      t'.isDirectory here.place = true ∧
      t'.advance^[k] (t'.begin here) = .going [f, l, g] [] ∧
      f.linked = false ∧ l.linked = true ∧ f.visit.place = g.visit.place := by
  obtain ⟨entries, he⟩ := isDirectory_iff.1 hdir
  refine ⟨?_, fun k stack found hk => ?_, ?_⟩
  · rw [logFiles, he]
    exact t.exists_advance_eq_ended ⟨input, place⟩
  · have hs := entered_run hk
    exact ⟨hs.nodup, hs.start_not_mem, hs.length_lt hdir⟩
  · obtain ⟨f, l, g, hsteps, hagain⟩ := linkBack_reenters
    exact ⟨linkBack, innerStart, 2, f, l, g, by cbv, hsteps, hagain⟩

theorem walk_ends_linkBack :
    linkBack.isDirectory innerStart.place = true ∧
      ∃ k, linkBack.advance^[k] (linkBack.begin innerStart) =
        .ended (linkBack.logFiles innerStart.path innerStart.place) := by
  have hdir : linkBack.isDirectory innerStart.place = true := by cbv
  exact ⟨hdir, (walk_ends hdir).1⟩

end BranchLog.FileTree
