import BranchLog.FileTree.Walk
import Mathlib

/-!
# All that a walk comes across

`survey` lists every entry of the directories that a walk enters, with the chain of names to it and
what the walk makes of it, and goes on behind errors. `walk_eq_gather` gets the walk back: the
files of a survey, or its first error. `pairwise_survey` puts the chains in strict order of their
names and `mem_survey` says which entries are there.
-/
namespace BranchLog

abbrev Sight := Except WalkFault FileTree.Entry

namespace FileTree

def survey (t : FileTree) (here : Visit) (above : List Visit) :
    List Name → List (List Name × Sight)
  | [] => []
  | n :: rest =>
    ([n], t.entryAt here above n) ::
      ((match _h : t.entryAt here above n with
        | .ok (.enter v) =>
          (t.survey v (here :: above) (t.names v.place)).map fun s => (n :: s.1, s.2)
        | _ => []) ++ t.survey here above rest)
termination_by names => (t.remaining here above, names.length)
decreasing_by
  · exact enter_decreases _h
  · exact rest_decreases

def Entry.files : Entry → List LogFile
  | .leaf found => found.toList
  | .enter _ => []

def sightFiles : Sight → List LogFile
  | .ok e => e.files
  | .error _ => []

/-- The files among sights, unless one of them is an error. -/
def gather : List (List Name × Sight) → Except WalkFault (List LogFile)
  | [] => .ok []
  | (_, .error fault) :: _ => .error fault
  | (_, .ok e) :: rest => (gather rest).map (e.files ++ ·)

theorem gather_append (s r : List (List Name × Sight)) :
    gather (s ++ r) = (gather s).bind fun files => (gather r).map (files ++ ·) := by
  induction s with
  | nil => cases hr : gather r <;> simp [gather, hr, Except.bind, Except.map]
  | cons p s ih =>
    obtain ⟨c, fault | e⟩ := p
    · rfl
    · rw [List.cons_append, gather, gather, ih]
      cases gather s with
      | error fault => rfl
      | ok files => cases gather r <;> simp [Except.bind, Except.map]

theorem gather_map (f : List Name → List Name) (s : List (List Name × Sight)) :
    gather (s.map fun p => (f p.1, p.2)) = gather s := by
  induction s with
  | nil => rfl
  | cons p s ih =>
    obtain ⟨c, fault | e⟩ := p
    · rfl
    · rw [List.map_cons, gather, gather, ih]

section Cons

variable {t : FileTree} {here : Visit} {above : List Visit} {n : Name}

theorem survey_cons_stop (h : ∀ v, t.entryAt here above n ≠ .ok (.enter v)) (rest : List Name) :
    t.survey here above (n :: rest) =
      ([n], t.entryAt here above n) :: t.survey here above rest := by
  rw [survey]
  split
  · next v hv => exact absurd hv (h v)
  · rw [List.nil_append]

theorem survey_cons_enter {v : Visit} (h : t.entryAt here above n = .ok (.enter v))
    (rest : List Name) :
    t.survey here above (n :: rest) =
      ([n], .ok (.enter v)) ::
        ((t.survey v (here :: above) (t.names v.place)).map (fun s => (n :: s.1, s.2)) ++
          t.survey here above rest) := by
  rw [survey]
  split
  · next w hw =>
    rw [h] at hw
    cases hw
    rw [h]
  · next hne => exact absurd h (hne v)

end Cons

/-- A walk is its survey up to the first error. -/
theorem walk_eq_gather (t : FileTree) (here : Visit) (above : List Visit) (ns : List Name) :
    t.walk here above ns = gather (t.survey here above ns) := by
  fun_induction t.walk here above ns with
  | case1 here above => rw [survey, gather]
  | case2 here above n rest fault h =>
    rw [survey_cons_stop (by simp [h]), h, gather]
  | case3 here above n rest found h ih =>
    rw [survey_cons_stop (by simp [h]), h, gather, ih, Entry.files]
  | case4 here above n rest v h fault hv ih =>
    rw [survey_cons_enter h, gather, gather_append, gather_map, ← ih, hv]
    rfl
  | case5 here above n rest v h inner hv ih ih' =>
    rw [survey_cons_enter h, gather, gather_append, gather_map, ← ih, ← ih', hv, Entry.files]
    cases t.walk here above rest <;> rfl

theorem gather_eq_ok_iff {s : List (List Name × Sight)} {files : List LogFile} :
    gather s = .ok files ↔
      (∀ p ∈ s, ∀ fault, p.2 ≠ .error fault) ∧ s.flatMap (fun p => sightFiles p.2) = files := by
  induction s generalizing files with
  | nil => simp [gather]
  | cons p s ih =>
    obtain ⟨c, fault | e⟩ := p
    · simp [gather]
    · rw [gather, List.flatMap_cons, List.forall_mem_cons]
      cases hs : gather s with
      | error fault =>
        constructor
        · intro h
          cases h
        · rintro ⟨⟨-, hok⟩, -⟩
          have h := ih.2 ⟨hok, rfl⟩
          rw [hs] at h
          cases h
      | ok inner =>
        obtain ⟨hok, rfl⟩ := ih.1 hs
        constructor
        · intro h
          exact ⟨⟨by simp, hok⟩, Except.ok.inj h⟩
        · rintro ⟨-, rfl⟩
          rfl

/-- The error is the first among the sights. -/
theorem gather_eq_error_iff {s : List (List Name × Sight)} {fault : WalkFault} :
    gather s = .error fault ↔
      ∃ before c after, s = before ++ (c, .error fault) :: after ∧
        ∀ p ∈ before, ∀ fault', p.2 ≠ .error fault' := by
  constructor
  · intro h
    induction s with
    | nil => cases h
    | cons p s ih =>
      obtain ⟨c, fault' | e⟩ := p
      · cases h
        exact ⟨[], c, s, rfl, by simp⟩
      · rw [gather] at h
        cases hs : gather s with
        | ok files => simp [hs, Except.map] at h
        | error fault' =>
          rw [hs] at h
          cases h
          obtain ⟨before, d, after, rfl, hbefore⟩ := ih hs
          exact ⟨(c, .ok e) :: before, d, after, rfl, by simpa using hbefore⟩
  · rintro ⟨before, c, after, rfl, hbefore⟩
    rw [gather_append, gather_eq_ok_iff.2 ⟨hbefore, rfl⟩]
    rfl

theorem ascending_names (t : FileTree) (place : Location) :
    (t.names place).Pairwise (· < ·) := by
  rw [names]
  split
  · next entries h => exact List.pairwise_map.2 (Table.ofList entries).ascending
  · exact .nil

theorem mem_names_iff {t : FileTree} {place : Location} {n : Name} :
    n ∈ t.names place ↔ (t.node? (n :: place)).isSome := by
  rw [names, node?]
  cases t.node? place with
  | none => simp
  | some x =>
    cases x with
    | directory entries =>
      exact Table.mem_keys_iff.trans (by rw [Table.isSome_get?_ofList]; rfl)
    | _ => simp [Node.child?]

/-- A survey sees the named entries, and below those that are entered what there is. -/
theorem mem_survey_iff {t : FileTree} {here : Visit} {above : List Visit} {ns : List Name}
    {p : List Name × Sight} :
    p ∈ t.survey here above ns ↔ ∃ n ∈ ns, p = ([n], t.entryAt here above n) ∨
      ∃ v, t.entryAt here above n = .ok (.enter v) ∧
        ∃ q ∈ t.survey v (here :: above) (t.names v.place), p = (n :: q.1, q.2) := by
  induction ns with
  | nil => simp [survey]
  | cons n rest ih =>
    rw [List.exists_mem_cons_iff, ← ih]
    by_cases h : ∃ v, t.entryAt here above n = .ok (.enter v)
    · obtain ⟨v, hv⟩ := h
      rw [survey_cons_enter hv, hv]
      simp [eq_comm, or_assoc]
    · have hne : ∀ v, t.entryAt here above n ≠ .ok (.enter v) := fun v hv => h ⟨v, hv⟩
      rw [survey_cons_stop hne]
      simp [hne]

theorem exists_cons_of_mem_survey {t : FileTree} {here : Visit} {above : List Visit}
    {ns : List Name} {p : List Name × Sight} (h : p ∈ t.survey here above ns) :
    ∃ n ∈ ns, ∃ r, p.1 = n :: r := by
  obtain ⟨n, hn, rfl | ⟨v, -, q, -, rfl⟩⟩ := mem_survey_iff.1 h
  · exact ⟨n, hn, [], rfl⟩
  · exact ⟨n, hn, q.1, rfl⟩

/-- What is below an entry stands behind it and before the next. -/
theorem pairwise_below {n : Name} {s : Sight} {inner rest : List (List Name × Sight)}
    (hinner : inner.Pairwise (fun p q => p.1 < q.1)) (hne : ∀ p ∈ inner, ∃ m r, p.1 = m :: r)
    (hrest : rest.Pairwise (fun p q => p.1 < q.1)) (hlt : ∀ p ∈ rest, ∃ m r, p.1 = m :: r ∧ n < m) :
    (([n], s) :: (inner.map (fun p => (n :: p.1, p.2)) ++ rest)).Pairwise
      (fun p q => p.1 < q.1) := by
  rw [List.pairwise_cons, List.pairwise_append, List.pairwise_map]
  refine ⟨?_, ?_, hrest, ?_⟩
  · intro p hp
    rcases List.mem_append.1 hp with hp | hp
    · obtain ⟨q, hq, rfl⟩ := List.mem_map.1 hp
      obtain ⟨m, r, hm⟩ := hne q hq
      rw [hm]
      exact List.Lex.cons .nil
    · obtain ⟨m, r, hm, hnm⟩ := hlt p hp
      rw [hm]
      exact List.Lex.rel hnm
  · exact hinner.imp fun hpq => List.Lex.cons hpq
  · intro p hp q hq
    obtain ⟨p, -, rfl⟩ := List.mem_map.1 hp
    obtain ⟨m, r, hm, hnm⟩ := hlt q hq
    rw [hm]
    exact List.Lex.rel hnm

theorem pairwise_survey {t : FileTree} {here : Visit} {above : List Visit} {ns : List Name}
    (hns : ns.Pairwise (· < ·)) : (t.survey here above ns).Pairwise (fun p q => p.1 < q.1) := by
  fun_induction t.survey here above ns with
  | case1 here above => exact .nil
  | case2 here above n rest ih ih' =>
    obtain ⟨hn, hrest⟩ := List.pairwise_cons.1 hns
    have hlt : ∀ p ∈ t.survey here above rest, ∃ m r, p.1 = m :: r ∧ n < m := by
      intro p hp
      obtain ⟨m, hm, r, hr⟩ := exists_cons_of_mem_survey hp
      exact ⟨m, r, hr, hn m hm⟩
    split
    · next v hv =>
      refine pairwise_below (ih v hv (t.ascending_names v.place)) ?_ (ih' hrest) hlt
      intro p hp
      obtain ⟨m, -, r, hr⟩ := exists_cons_of_mem_survey hp
      exact ⟨m, r, hr⟩
    · exact pairwise_below .nil (by simp) (ih' hrest) hlt

theorem isSome_node?_of_enter {t : FileTree} {here v : Visit} {above : List Visit} {n : Name}
    (h : t.entryAt here above n = .ok (.enter v)) : (t.node? (n :: here.place)).isSome := by
  rw [entryAt] at h
  split at h
  · next hn => rw [hn, Option.isSome_some]
  · next hn => rw [hn, Option.isSome_some]
  · rw [leafAt] at h
    split at h <;> cases h

/-- Where a chain of names leads a walk by entering one directory after the other. -/
def enter? (t : FileTree) (here : Visit) (above : List Visit) :
    List Name → Option (Visit × List Visit)
  | [] => some (here, above)
  | n :: c =>
    match t.entryAt here above n with
    | .ok (.enter v) => t.enter? v (here :: above) c
    | _ => none

theorem enter?_cons_eq_some_iff {t : FileTree} {here : Visit} {above : List Visit} {n : Name}
    {c : List Name} {e : Visit × List Visit} :
    t.enter? here above (n :: c) = some e ↔
      ∃ v, t.entryAt here above n = .ok (.enter v) ∧ t.enter? v (here :: above) c = some e := by
  rw [enter?]
  split
  · next v hv => simp [hv]
  · next hne =>
    constructor
    · intro h
      cases h
    · rintro ⟨v, hv, -⟩
      exact absurd hv (hne v)

theorem enter?_concat_eq_some_iff {t : FileTree} {here : Visit} {above : List Visit} {n : Name}
    {c : List Name} {v : Visit} {trail : List Visit} :
    t.enter? here above (c ++ [n]) = some (v, trail) ↔
      ∃ w b, t.enter? here above c = some (w, b) ∧ t.entryAt w b n = .ok (.enter v) ∧
        trail = w :: b := by
  induction c generalizing here above with
  | nil =>
    rw [List.nil_append, enter?_cons_eq_some_iff]
    simp [enter?, eq_comm]
  | cons m c ih =>
    rw [List.cons_append, enter?_cons_eq_some_iff]
    simp only [ih, enter?_cons_eq_some_iff]
    constructor
    · rintro ⟨u, hu, w, b, hwb, hv⟩
      exact ⟨w, b, ⟨u, hu, hwb⟩, hv⟩
    · rintro ⟨w, b, ⟨u, hu, hwb⟩, hv⟩
      exact ⟨u, hu, w, b, hwb, hv⟩

theorem mem_survey_concat_iff {t : FileTree} {here : Visit} {above : List Visit}
    {c : List Name} {n : Name} {s : Sight} :
    (c ++ [n], s) ∈ t.survey here above (t.names here.place) ↔
      ∃ w b, t.enter? here above c = some (w, b) ∧ n ∈ t.names w.place ∧ s = t.entryAt w b n := by
  induction c generalizing here above with
  | nil =>
    constructor
    · intro h
      obtain ⟨m, hm, h | ⟨v, -, q, hq, h⟩⟩ := mem_survey_iff.1 h
      · cases h
        exact ⟨here, above, rfl, hm, rfl⟩
      · obtain ⟨k, -, r, hr⟩ := exists_cons_of_mem_survey hq
        simp [hr] at h
    · rintro ⟨w, b, h, hn, rfl⟩
      cases h
      exact mem_survey_iff.2 ⟨n, hn, .inl rfl⟩
  | cons m c ih =>
    constructor
    · intro h
      obtain ⟨k, hk, h | ⟨v, hv, ⟨d, r⟩, hq, h⟩⟩ := mem_survey_iff.1 h
      · simp at h
      · cases h
        obtain ⟨w, b, hc, hn⟩ := ih.1 hq
        exact ⟨w, b, enter?_cons_eq_some_iff.2 ⟨v, hv, hc⟩, hn⟩
    · rintro ⟨w, b, h, hn⟩
      obtain ⟨v, hv, hc⟩ := enter?_cons_eq_some_iff.1 h
      -- what is entered is an entry, so it need not be asked for
      have hm : m ∈ t.names here.place := mem_names_iff.2 (isSome_node?_of_enter hv)
      exact mem_survey_iff.2 ⟨m, hm, .inr ⟨v, hv, (c ++ [n], s), ih.2 ⟨w, b, hc, hn⟩, rfl⟩⟩

end FileTree

end BranchLog
