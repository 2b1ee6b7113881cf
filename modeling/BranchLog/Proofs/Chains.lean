import BranchLog.Proofs.Joining
import BranchLog.Proofs.Survey
import Mathlib

/-!
# Chains of names below an input

What is below an input is told here by paths alone, without a walk: a chain of names is there if
each name is that of an entry of the directory that the names before it lead to. A chain is bad if
a walk cannot go on from it; `FaultAt` is what is wrong then, and by `FaultAt.unique` nothing else.
-/
namespace BranchLog

inductive Kind where
  | file
  | pipe
  | link
  | directory
  deriving DecidableEq

def Node.kind : Node → Kind
  | .file _ => .file
  | .pipe _ => .pipe
  | .link _ => .link
  | .directory _ => .directory

namespace FileTree

/-- What the last name stands for, in the directory that the names before it lead to. -/
def lastNode? (t : FileTree) (input : Path) (c : List Name) : Option Node :=
  match c.getLast?, t.resolve (input.joins c.dropLast) with
  | some n, .ok d => t.node? (n :: d)
  | _, _ => none

def kind? (t : FileTree) (input : Path) (c : List Name) : Option Kind :=
  (t.lastNode? input c).map Node.kind

def IsChain (t : FileTree) (input : Path) (c : List Name) : Prop :=
  ∀ q, q <+: c → q ≠ [] → (t.lastNode? input q).isSome

/-- Links are followed. -/
def LeadsTo (t : FileTree) (input : Path) (c : List Name) (d : Location) : Prop :=
  t.resolve (input.joins c) = .ok d

structure IsInnermost (t : FileTree) (input : Path) (c : List Name) (d : Location)
    (q : List Name) : Prop where
  isPrefix : q <+: c
  leads : t.LeadsTo input q d
  longest : ∀ r, r <+: c → t.LeadsTo input r d → r.length ≤ q.length

def IsDeadLink (t : FileTree) (input : Path) (c : List Name) : Prop :=
  t.kind? input c = some .link ∧ ∀ d, ¬t.LeadsTo input c d

/-- A link to a directory that the names before it went through, the start included. -/
def IsLoopLink (t : FileTree) (input : Path) (c : List Name) : Prop :=
  t.kind? input c = some .link ∧ ∃ d, t.LeadsTo input c d ∧ t.isDirectory d ∧
    ∃ q, q <+: c.dropLast ∧ t.LeadsTo input q d

/-- A directory that cannot be looked up, though it is there. -/
def IsLongDirectory (t : FileTree) (input : Path) (c : List Name) : Prop :=
  t.kind? input c = some .directory ∧ (input.joins c).isTooLong

def IsBad (t : FileTree) (input : Path) (c : List Name) : Prop :=
  t.IsDeadLink input c ∨ t.IsLoopLink input c ∨ t.IsLongDirectory input c

/-- What a walk reports of a bad chain. -/
inductive FaultAt (t : FileTree) (input : Path) (c : List Name) : WalkFault → Prop where
  | dead {fault : Fault} (hlink : t.kind? input c = some .link)
    (hfault : t.resolve (input.joins c) = .error fault) :
    FaultAt t input c (.unresolved (input.joins c) fault)
  | loop {d : Location} {q : List Name} (hlink : t.kind? input c = some .link)
    (hleads : t.LeadsTo input c d) (hd : t.isDirectory d)
    (hq : t.IsInnermost input c.dropLast d q) :
    FaultAt t input c (.loop (input.joins c) (input.joins q))
  | long (hdir : t.kind? input c = some .directory) (hlong : (input.joins c).isTooLong) :
    FaultAt t input c (.unresolved (input.joins c) .nameTooLong)

/-- No chain before it on the way is bad. -/
def IsReached (t : FileTree) (input : Path) (c : List Name) : Prop :=
  t.IsChain input c ∧ ∀ q, q <+: c → t.IsBad input q → q = c

/-- A file is listed where it is found, even if its path is too long to be read by. -/
def HoldsLog (t : FileTree) (input : Path) (c : List Name) (data : ByteArray) : Prop :=
  (∃ d, t.LeadsTo input c d ∧ t.node? d = some (.file data)) ∨
    (input.joins c).isTooLong ∧ t.lastNode? input c = some (.file data)

section Chains

variable {t : FileTree} {input : Path} {c q : List Name} {n : Name} {d : Location}

theorem kind?_nil : t.kind? input [] = none := rfl

theorem lastNode?_concat (hc : t.LeadsTo input c d) :
    t.lastNode? input (c ++ [n]) = t.node? (n :: d) := by
  rw [LeadsTo] at hc
  rw [lastNode?, List.getLast?_concat, List.dropLast_concat, hc]

theorem exists_node?_of_lastNode? {x : Node} (h : t.lastNode? input c = some x) :
    ∃ place, t.node? place = some x := by
  rw [lastNode?] at h
  split at h
  · exact ⟨_, h⟩
  · cases h

theorem leadsTo_of_lastNode? (h : (t.lastNode? input (c ++ [n])).isSome) :
    ∃ d, t.LeadsTo input c d ∧ t.isDirectory d := by
  rw [lastNode?, List.getLast?_concat, List.dropLast_concat] at h
  cases hd : t.resolve (input.joins c) with
  | error fault => simp [hd] at h
  | ok d =>
    rw [hd] at h
    obtain ⟨x, hx⟩ := Option.isSome_iff_exists.1 h
    exact ⟨d, hd, isDirectory_of_entry hx⟩

theorem LeadsTo.unique {d' : Location} (h : t.LeadsTo input c d) (h' : t.LeadsTo input c d') :
    d = d' := by
  rw [LeadsTo] at h h'
  rw [h] at h'
  exact Except.ok.inj h'

theorem isChain_nil : t.IsChain input [] := by
  intro q hq hne
  exact absurd (List.prefix_nil.1 hq) hne

theorem IsChain.of_isPrefix (h : t.IsChain input c) (hq : q <+: c) : t.IsChain input q :=
  fun r hr hne => h r (hr.trans hq) hne

theorem isChain_concat_iff : t.IsChain input (c ++ [n]) ↔
    t.IsChain input c ∧ (t.lastNode? input (c ++ [n])).isSome := by
  constructor
  · intro h
    exact ⟨h.of_isPrefix (List.prefix_append c [n]), h _ (List.prefix_refl _) (by simp)⟩
  · rintro ⟨hc, hn⟩ q hq hne
    rcases List.prefix_concat_iff.1 hq with rfl | hq
    · exact hn
    · exact hc q hq hne

theorem isChain_singleton_iff : t.IsChain input [n] ↔ (t.lastNode? input [n]).isSome := by
  rw [← List.nil_append [n], isChain_concat_iff, and_iff_right isChain_nil]

theorem isInnermost_concat_self (h : t.LeadsTo input (c ++ [n]) d) :
    t.IsInnermost input (c ++ [n]) d q ↔ q = c ++ [n] := by
  constructor
  · intro hq
    exact hq.isPrefix.eq_of_length_le (hq.longest _ (List.prefix_refl _) h)
  · rintro rfl
    exact ⟨List.prefix_refl _, h, fun r hr _ => hr.length_le⟩

theorem isInnermost_concat_of_not (h : ¬t.LeadsTo input (c ++ [n]) d) :
    t.IsInnermost input (c ++ [n]) d q ↔ t.IsInnermost input c d q := by
  have hiff (r : List Name) (hr : t.LeadsTo input r d) : r <+: c ++ [n] ↔ r <+: c := by
    rw [List.prefix_concat_iff]
    constructor
    · rintro (rfl | hp)
      · exact absurd hr h
      · exact hp
    · exact .inr
  constructor
  · intro hq
    exact ⟨(hiff q hq.leads).1 hq.isPrefix, hq.leads,
      fun r hr hd => hq.longest r ((hiff r hd).2 hr) hd⟩
  · intro hq
    exact ⟨(hiff q hq.leads).2 hq.isPrefix, hq.leads,
      fun r hr hd => hq.longest r ((hiff r hd).1 hr) hd⟩

theorem exists_isInnermost (hq : q <+: c) (h : t.LeadsTo input q d) :
    ∃ r, t.IsInnermost input c d r := by
  induction c using List.reverseRecOn with
  | nil =>
    cases List.prefix_nil.1 hq
    exact ⟨[], hq, h, fun r hr _ => hr.length_le⟩
  | append_singleton c n ih =>
    by_cases hn : t.LeadsTo input (c ++ [n]) d
    · exact ⟨c ++ [n], (isInnermost_concat_self hn).2 rfl⟩
    · rcases List.prefix_concat_iff.1 hq with rfl | hq
      · exact absurd h hn
      · obtain ⟨r, hr⟩ := ih hq
        exact ⟨r, (isInnermost_concat_of_not hn).2 hr⟩

theorem isBad_iff : t.IsBad input c ↔ ∃ fault, t.FaultAt input c fault := by
  constructor
  · rintro (⟨hlink, hdead⟩ | ⟨hlink, d, hleads, hd, q, hq, hqd⟩ | ⟨hdir, hlong⟩)
    · cases hr : t.resolve (input.joins c) with
      | error fault => exact ⟨_, .dead hlink hr⟩
      | ok d => exact absurd hr (hdead d)
    · obtain ⟨r, hr⟩ := exists_isInnermost hq hqd
      exact ⟨_, .loop hlink hleads hd hr⟩
    · exact ⟨_, .long hdir hlong⟩
  · rintro ⟨fault, h⟩
    cases h with
    | dead hlink hfault =>
      refine .inl ⟨hlink, fun d hd => ?_⟩
      rw [LeadsTo, hfault] at hd
      cases hd
    | loop hlink hleads hd hq => exact .inr (.inl ⟨hlink, _, hleads, hd, _, hq.isPrefix, hq.leads⟩)
    | long hdir hlong => exact .inr (.inr ⟨hdir, hlong⟩)

theorem IsInnermost.unique {r : List Name} (hq : t.IsInnermost input c d q)
    (hr : t.IsInnermost input c d r) : q = r := by
  have hle := hr.longest q hq.isPrefix hq.leads
  have hge := hq.longest r hr.isPrefix hr.leads
  have hp := List.prefix_of_prefix_length_le hq.isPrefix hr.isPrefix hle
  exact hp.eq_of_length_le hge

theorem FaultAt.unique {fault fault' : WalkFault} (h : t.FaultAt input c fault)
    (h' : t.FaultAt input c fault') : fault = fault' := by
  cases h with
  | dead hlink hfault =>
    cases h' with
    | dead hlink' hfault' =>
      rw [hfault] at hfault'
      cases hfault'
      rfl
    | loop hlink' hleads hd hq =>
      rw [LeadsTo, hfault] at hleads
      cases hleads
    | long hdir hlong =>
      rw [hlink] at hdir
      cases hdir
  | loop hlink hleads hd hq =>
    cases h' with
    | dead hlink' hfault =>
      rw [LeadsTo, hfault] at hleads
      cases hleads
    | loop hlink' hleads' hd' hq' =>
      cases hleads.unique hleads'
      rw [hq.unique hq']
    | long hdir hlong =>
      rw [hlink] at hdir
      cases hdir
  | long hdir hlong =>
    cases h' with
    | dead hlink hfault =>
      rw [hlink] at hdir
      cases hdir
    | loop hlink hleads hd hq =>
      rw [hlink] at hdir
      cases hdir
    | long hdir' hlong' => rfl

theorem isBad_link_iff (hlink : t.kind? input c = some .link) (hd : t.LeadsTo input c d) :
    t.IsBad input c ↔ t.isDirectory d ∧ ∃ q, q <+: c.dropLast ∧ t.LeadsTo input q d := by
  constructor
  · rintro (⟨-, hdead⟩ | ⟨-, d', hd', hdir, hq⟩ | ⟨hdir, -⟩)
    · exact absurd hd (hdead d)
    · cases hd.unique hd'
      exact ⟨hdir, hq⟩
    · rw [hlink] at hdir
      cases hdir
  · rintro ⟨hdir, hq⟩
    exact .inr (.inl ⟨hlink, d, hd, hdir, hq⟩)

theorem isBad_directory_iff (hdir : t.kind? input c = some .directory) :
    t.IsBad input c ↔ (input.joins c).isTooLong := by
  constructor
  · rintro (⟨hlink, -⟩ | ⟨hlink, -⟩ | ⟨-, hlong⟩)
    · rw [hdir] at hlink
      cases hlink
    · rw [hdir] at hlink
      cases hlink
    · exact hlong
  · intro hlong
    exact .inr (.inr ⟨hdir, hlong⟩)

theorem not_isBad (hlink : t.kind? input c ≠ some .link)
    (hdir : t.kind? input c ≠ some .directory) : ¬t.IsBad input c := by
  rintro (⟨h, -⟩ | ⟨h, -⟩ | ⟨h, -⟩)
  · exact hlink h
  · exact hlink h
  · exact hdir h

theorem ne_nil_of_isBad (h : t.IsBad input c) : c ≠ [] := by
  rintro rfl
  exact not_isBad (by simp [kind?_nil]) (by simp [kind?_nil]) h

end Chains

end FileTree

end BranchLog
