import BranchLog.Proofs.Chains
import Mathlib

/-!
# What a walk comes across, told by paths

The invariant of a walk is `Stands`: the directories it is in are the ones that the beginnings of
its chain of names lead to. From it follows what the walk makes of each entry (`Stands.tells`), and
with that which chains it enters and which it sees.
-/
namespace BranchLog.FileTree

/-- A walk stands in `here` below `above` when it has entered the chain `c`. -/
structure Stands (t : FileTree) (input : Path) (here : Visit) (above : List Visit)
    (c : List Name) : Prop where
  path : here.path = input.joins c
  leads : t.LeadsTo input c here.place
  isDirectory : t.isDirectory here.place
  ancestor : ∀ d v, (here :: above).find? (·.place = d) = some v ↔
    ∃ q, t.IsInnermost input c d q ∧ v = ⟨input.joins q, d⟩

/-- What a walk makes of a chain, if it sees it. -/
def Tells (t : FileTree) (input : Path) (c : List Name) : Sight → Prop
  | .error fault => t.FaultAt input c fault
  | .ok (.enter v) => ¬t.IsBad input c ∧ v.path = input.joins c ∧ t.LeadsTo input c v.place ∧
    t.isDirectory v.place
  | .ok (.leaf found) => ¬t.IsBad input c ∧ (∀ d, t.LeadsTo input c d → t.isDirectory d = false) ∧
    ∀ f, found = some f ↔ f.path = input.joins c ∧ t.HoldsLog input c f.data

section Entry

variable {t : FileTree} {input : Path} {here v : Visit} {above : List Visit} {c : List Name}
  {n : Name} {d : Location} {fault : WalkFault}

theorem LeadsTo.not_isTooLong (h : t.LeadsTo input c d) :
    (input.joins c).isTooLong = false :=
  (resolve_eq_ok_iff.1 h).2.1

theorem LeadsTo.holdsLog_iff (h : t.LeadsTo input c d) {data : ByteArray} :
    t.HoldsLog input c data ↔ t.node? d = some (.file data) := by
  constructor
  · rintro (⟨d', hd', hdata⟩ | ⟨hlong, -⟩)
    · cases h.unique hd'
      exact hdata
    · rw [h.not_isTooLong] at hlong
      cases hlong
  · exact fun hdata => .inl ⟨d, h, hdata⟩

theorem leafAt_eq_leaf (t : FileTree) (path : Path) (place : Location) :
    ∃ found, t.leafAt path place = .leaf found ∧
      ∀ f, found = some f ↔ f.path = path ∧ t.node? place = some (.file f.data) := by
  rw [leafAt]
  split
  · next data hdata =>
    refine ⟨_, rfl, fun f => ?_⟩
    obtain ⟨p, b⟩ := f
    simp [hdata, eq_comm]
  · next hne =>
    refine ⟨_, rfl, fun f => ⟨fun h => ?_, fun h => absurd h.2 (hne f.data)⟩⟩
    cases h

theorem isDirectory_eq_false {place : Location} {x : Node} (hx : t.node? place = some x)
    (hdir : x.kind ≠ .directory) : t.isDirectory place = false := by
  rw [isDirectory, hx]
  cases x with
  | directory entries => exact absurd rfl hdir
  | _ => rfl

theorem Stands.find?_eq_none_iff (hs : t.Stands input here above c) :
    (here :: above).find? (·.place = d) = none ↔ ∀ q, q <+: c → ¬t.LeadsTo input q d := by
  constructor
  · intro h q hq hqd
    obtain ⟨r, hr⟩ := exists_isInnermost hq hqd
    have hsome := (hs.ancestor d _).2 ⟨r, hr, rfl⟩
    rw [h] at hsome
    cases hsome
  · intro h
    cases hf : (here :: above).find? (·.place = d) with
    | none => rfl
    | some v =>
      obtain ⟨q, hq, -⟩ := (hs.ancestor d v).1 hf
      exact absurd hq.leads (h q hq.isPrefix)

theorem Stands.join_eq (hs : t.Stands input here above c) (n : Name) :
    here.path.join n = input.joins (c ++ [n]) := by
  rw [Path.joins_concat, hs.path]

theorem Stands.kind?_eq (hs : t.Stands input here above c) :
    t.kind? input (c ++ [n]) = (t.node? (n :: here.place)).map Node.kind := by
  rw [kind?, lastNode?_concat hs.leads]

theorem Stands.resolve_eq (hs : t.Stands input here above c) {x : Node}
    (hx : t.node? (n :: here.place) = some x) (hlink : x.kind ≠ .link) :
    t.resolve (input.joins (c ++ [n])) =
      if (input.joins (c ++ [n])).isTooLong then .error .nameTooLong
      else .ok (n :: here.place) := by
  have hne : ∀ target, x ≠ .link target := by
    rintro target rfl
    exact hlink rfl
  rw [Path.joins_concat]
  exact resolve_join_entry hs.leads hx hne

theorem Stands.tells_link {target : Path} (hs : t.Stands input here above c)
    (hx : t.node? (n :: here.place) = some (.link target)) :
    t.Tells input (c ++ [n]) (t.entryAt here above n) := by
  have hkind : t.kind? input (c ++ [n]) = some .link := by rw [hs.kind?_eq, hx]; rfl
  simp only [entryAt, hx, hs.join_eq]
  split
  · next d hd =>
    have hleads : t.LeadsTo input (c ++ [n]) d := hd
    have hbad := isBad_link_iff hkind hleads
    rw [List.dropLast_concat] at hbad
    rw [linkedEntry]
    split
    · next hdir =>
      split
      · next ancestor hfind =>
        obtain ⟨q, hq, rfl⟩ := (hs.ancestor d ancestor).1 hfind
        exact .loop hkind hleads hdir (by rwa [List.dropLast_concat])
      · next hfind =>
        refine ⟨fun h => ?_, rfl, hleads, hdir⟩
        obtain ⟨-, q, hq, hqd⟩ := hbad.1 h
        exact hs.find?_eq_none_iff.1 hfind q hq hqd
    · next hdir =>
      obtain ⟨found, hfound, hf⟩ := t.leafAt_eq_leaf (input.joins (c ++ [n])) d
      rw [hfound]
      refine ⟨fun h => hdir (hbad.1 h).1, fun d' hd' => ?_, fun f => ?_⟩
      · cases hleads.unique hd'
        simpa using hdir
      · rw [hf, hleads.holdsLog_iff]
  · next fault hfault => exact .dead hkind hfault

theorem Stands.tells_directory {entries : List (Name × Node)} (hs : t.Stands input here above c)
    (hx : t.node? (n :: here.place) = some (.directory entries)) :
    t.Tells input (c ++ [n]) (t.entryAt here above n) := by
  have hkind : t.kind? input (c ++ [n]) = some .directory := by rw [hs.kind?_eq, hx]; rfl
  have hresolve := hs.resolve_eq hx (by simp [Node.kind])
  have hbad := isBad_directory_iff hkind
  simp only [entryAt, hx, hs.join_eq]
  split
  · next hlong => exact .long hkind hlong
  · next hlong =>
    rw [if_neg hlong] at hresolve
    exact ⟨mt hbad.1 hlong, rfl, hresolve, isDirectory_iff.2 ⟨entries, hx⟩⟩

theorem Stands.tells_other {x : Node} (hs : t.Stands input here above c)
    (hx : t.node? (n :: here.place) = some x) (hlink : x.kind ≠ .link)
    (hdir : x.kind ≠ .directory) :
    t.Tells input (c ++ [n]) (t.entryAt here above n) := by
  have hkind : t.kind? input (c ++ [n]) = some x.kind := by rw [hs.kind?_eq, hx]; rfl
  have hresolve := hs.resolve_eq hx hlink
  have hentry : t.entryAt here above n =
      .ok (t.leafAt (input.joins (c ++ [n])) (n :: here.place)) := by
    rw [← hs.join_eq, entryAt, hx]
    cases x with
    | link target => exact absurd rfl hlink
    | directory entries => exact absurd rfl hdir
    | _ => rfl
  obtain ⟨found, hfound, hf⟩ := t.leafAt_eq_leaf (input.joins (c ++ [n])) (n :: here.place)
  rw [hentry, hfound]
  refine ⟨not_isBad (by simpa [hkind]) (by simpa [hkind]), fun d hd => ?_, fun f => ?_⟩
  · have hlong := hd.not_isTooLong
    rw [LeadsTo, hresolve, hlong] at hd
    cases hd
    exact isDirectory_eq_false hx hdir
  · rw [hf]
    by_cases hlong : (input.joins (c ++ [n])).isTooLong
    · have hentry := lastNode?_concat (n := n) hs.leads
      have hnone : ∀ d, ¬t.LeadsTo input (c ++ [n]) d := by
        intro d hd
        rw [hd.not_isTooLong] at hlong
        cases hlong
      simp [HoldsLog, hnone, hlong, hentry]
    · rw [if_neg hlong] at hresolve
      have hleads : t.LeadsTo input (c ++ [n]) (n :: here.place) := hresolve
      rw [hleads.holdsLog_iff]

theorem Stands.tells (hs : t.Stands input here above c)
    (hn : (t.node? (n :: here.place)).isSome) :
    t.Tells input (c ++ [n]) (t.entryAt here above n) := by
  obtain ⟨x, hx⟩ := Option.isSome_iff_exists.1 hn
  cases x with
  | link target => exact hs.tells_link hx
  | directory entries => exact hs.tells_directory hx
  | file data => exact hs.tells_other hx (by simp [Node.kind]) (by simp [Node.kind])
  | pipe written => exact hs.tells_other hx (by simp [Node.kind]) (by simp [Node.kind])

theorem stands_start {place : Location} (hp : t.resolve input = .ok place)
    (hdir : t.isDirectory place) : t.Stands input ⟨input, place⟩ [] [] where
  path := rfl
  leads := hp
  isDirectory := hdir
  ancestor := by
    intro d v
    have hstart : t.LeadsTo input [] place := hp
    rw [List.find?_cons]
    constructor
    · intro hv
      by_cases hd : place = d
      · subst hd
        obtain rfl : (⟨input, place⟩ : Visit) = v := by simpa using hv
        exact ⟨[], ⟨List.prefix_refl _, hstart, fun r hr _ => hr.length_le⟩, rfl⟩
      · simp [hd] at hv
    · rintro ⟨q, hq, rfl⟩
      cases List.prefix_nil.1 hq.isPrefix
      cases hstart.unique hq.leads
      simp

theorem Stands.enter (hs : t.Stands input here above c)
    (h : t.entryAt here above n = .ok (.enter v)) :
    t.Stands input v (here :: above) (c ++ [n]) := by
  have htells := hs.tells (isSome_node?_of_enter h)
  rw [h] at htells
  obtain ⟨-, hpath, hleads, hdir⟩ := htells
  refine ⟨hpath, hleads, hdir, fun d w => ?_⟩
  rw [List.find?_cons]
  by_cases hd : v.place = d
  · subst hd
    simp only [decide_true, isInnermost_concat_self hleads, exists_eq_left, Option.some.injEq]
    rw [← hpath, eq_comm]
  · have hnot : ¬t.LeadsTo input (c ++ [n]) d := fun h => hd (hleads.unique h)
    simp only [decide_eq_false hd, isInnermost_concat_of_not hnot]
    exact hs.ancestor d w

end Entry

section Walk

variable {t : FileTree} {input : Path} {place : Location} {c : List Name} {s : Sight}

theorem stands_of_enter? (hp : t.resolve input = .ok place) (hdir : t.isDirectory place)
    {w : Visit} {b : List Visit} (h : t.enter? ⟨input, place⟩ [] c = some (w, b)) :
    t.Stands input w b c ∧ t.IsChain input c ∧ ∀ q, q <+: c → ¬t.IsBad input q := by
  induction c using List.reverseRecOn generalizing w b with
  | nil =>
    cases h
    refine ⟨stands_start hp hdir, isChain_nil, fun q hq hbad => ?_⟩
    exact ne_nil_of_isBad hbad (List.prefix_nil.1 hq)
  | append_singleton c n ih =>
    obtain ⟨w, b, hc, hn, rfl⟩ := enter?_concat_eq_some_iff.1 h
    obtain ⟨hs, hchain, hgood⟩ := ih hc
    have hnode := isSome_node?_of_enter hn
    have htells := hs.tells hnode
    rw [hn] at htells
    refine ⟨hs.enter hn, isChain_concat_iff.2 ⟨hchain, ?_⟩, fun q hq => ?_⟩
    · rwa [lastNode?_concat hs.leads]
    · rcases List.prefix_concat_iff.1 hq with rfl | hq
      · exact htells.1
      · exact hgood q hq

/-- A walk enters the chains to directories on which nothing is bad. -/
theorem exists_enter? (hp : t.resolve input = .ok place) (hdir : t.isDirectory place)
    (hchain : t.IsChain input c) (hgood : ∀ q, q <+: c → ¬t.IsBad input q)
    (hleads : ∃ d, t.LeadsTo input c d ∧ t.isDirectory d) :
    ∃ w b, t.enter? ⟨input, place⟩ [] c = some (w, b) := by
  -- from the last name backwards: the chain before it leads to the directory that holds it
  induction c using List.reverseRecOn with
  | nil => exact ⟨_, _, rfl⟩
  | append_singleton c n ih =>
    obtain ⟨hc, hn⟩ := isChain_concat_iff.1 hchain
    obtain ⟨w, b, hwb⟩ := ih hc (fun q hq => hgood q (hq.trans (List.prefix_append c [n])))
      (leadsTo_of_lastNode? hn)
    obtain ⟨hs, -, -⟩ := stands_of_enter? hp hdir hwb
    rw [lastNode?_concat hs.leads] at hn
    have htells := hs.tells hn
    obtain ⟨d, hd, hdd⟩ := hleads
    cases he : t.entryAt w b n with
    | error fault =>
      rw [he] at htells
      exact absurd (isBad_iff.2 ⟨fault, htells⟩) (hgood _ (List.prefix_refl _))
    | ok e =>
      rw [he] at htells
      cases e with
      | leaf found =>
        have hnot := htells.2.1 d hd
        rw [hdd] at hnot
        cases hnot
      | enter v => exact ⟨v, w :: b, enter?_concat_eq_some_iff.2 ⟨w, b, hwb, he, rfl⟩⟩

theorem mem_survey_reached (hp : t.resolve input = .ok place) (hdir : t.isDirectory place)
    (h : (c, s) ∈ t.survey ⟨input, place⟩ [] (t.names place)) :
    c ≠ [] ∧ t.IsReached input c ∧ t.Tells input c s := by
  obtain ⟨m, -, r, hr⟩ := exists_cons_of_mem_survey h
  have hne : c ≠ [] := by
    rintro rfl
    cases hr
  obtain ⟨c, n, rfl⟩ := (List.eq_nil_or_concat' c).resolve_left hne
  obtain ⟨w, b, hwb, hn, rfl⟩ := mem_survey_concat_iff.1 h
  obtain ⟨hs, hchain, hgood⟩ := stands_of_enter? hp hdir hwb
  have hnode := mem_names_iff.1 hn
  refine ⟨hne, ⟨isChain_concat_iff.2 ⟨hchain, ?_⟩, fun q hq hbad => ?_⟩, hs.tells hnode⟩
  · rwa [lastNode?_concat hs.leads]
  · rcases List.prefix_concat_iff.1 hq with rfl | hq
    · rfl
    · exact absurd hbad (hgood q hq)

theorem exists_mem_survey (hp : t.resolve input = .ok place) (hdir : t.isDirectory place)
    (hne : c ≠ []) (h : t.IsReached input c) :
    ∃ s, (c, s) ∈ t.survey ⟨input, place⟩ [] (t.names place) := by
  obtain ⟨c, n, rfl⟩ := (List.eq_nil_or_concat' c).resolve_left hne
  obtain ⟨hchain, hfirst⟩ := h
  obtain ⟨hc, hn⟩ := isChain_concat_iff.1 hchain
  have hgood : ∀ q, q <+: c → ¬t.IsBad input q := by
    intro q hq hbad
    have hlen := hq.length_le
    have heq := hfirst q (hq.trans (List.prefix_append c [n])) hbad
    rw [heq, List.length_append, List.length_singleton] at hlen
    omega
  obtain ⟨w, b, hwb⟩ := exists_enter? hp hdir hc hgood (leadsTo_of_lastNode? hn)
  obtain ⟨hs, -, -⟩ := stands_of_enter? hp hdir hwb
  rw [lastNode?_concat hs.leads] at hn
  exact ⟨_, mem_survey_concat_iff.2 ⟨w, b, hwb, mem_names_iff.2 hn, rfl⟩⟩

end Walk

end BranchLog.FileTree
