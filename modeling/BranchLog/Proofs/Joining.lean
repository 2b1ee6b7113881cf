import BranchLog.FileTree.Resolve
import Mathlib

/-!
# Paths made by joining names

The steps of a joined path are those of the path it began with and one step down for each name, so
a chain of names can be read off. `resolve_join` says where a joined path leads: from the place of
the path before by one more step.
-/
namespace BranchLog

namespace Path

@[simp]
theorem steps_nil : (⟨[]⟩ : Path).steps = [.stay] := rfl

theorem steps_append_slash (b r : List UInt8) :
    (⟨b ++ slash :: r⟩ : Path).steps = (⟨b⟩ : Path).steps ++ (⟨r⟩ : Path).steps := by
  simp only [steps, List.splitOn_append_cons_self, List.map_append]

theorem steps_append_slashes (b : List UInt8) (k : Nat) :
    (⟨b ++ List.replicate k slash⟩ : Path).steps =
      (⟨b⟩ : Path).steps ++ List.replicate k .stay := by
  induction k with
  | zero => simp
  | succ k ih =>
    rw [List.replicate_succ', ← List.append_assoc, steps_append_slash, ih, steps_nil,
      List.append_assoc, List.replicate_succ']

theorem steps_name (n : Name) : (⟨n.bytes⟩ : Path).steps = [.down n] := by
  have hn : slash ∉ n.bytes := n.isName.2.1
  rw [steps, List.splitOn_eq_singleton hn, List.map_singleton, Step.ofPiece_name]

theorem name_ne_nil (n : Name) : n.bytes ≠ [] := by
  intro h
  have hn := n.isName.1
  simp [h] at hn

theorem endsInSlash_iff {p : Path} : p.endsInSlash = true ↔ ∃ b, p.bytes = b ++ [slash] := by
  rw [endsInSlash, decide_eq_true_eq, List.getLast?_eq_some_iff]

theorem endsInSlash_join (p : Path) (n : Name) : (p.join n).endsInSlash = false := by
  have hn : slash ∉ n.bytes := n.isName.2.1
  have hl : n.bytes.getLast? ≠ some slash := fun h => hn (List.mem_of_getLast? h)
  have hlast (b : List UInt8) : (b ++ n.bytes).getLast? = n.bytes.getLast? :=
    List.getLast?_append_of_ne_nil b (name_ne_nil n)
  rw [join]
  split
  · simpa [endsInSlash, hlast] using hl
  · have hs := hlast (p.bytes ++ [slash])
    rw [List.append_assoc, List.singleton_append] at hs
    simpa [endsInSlash, hs] using hl

theorem steps_of_endsInSlash {p : Path} (hp : p.endsInSlash = true) :
    ∃ b, p.bytes = b ++ [slash] ∧ p.steps = (⟨b⟩ : Path).steps ++ [.stay] := by
  obtain ⟨b, hb⟩ := endsInSlash_iff.1 hp
  have hs := steps_append_slash b []
  rw [steps_nil, ← hb] at hs
  exact ⟨b, hb, hs⟩

/-- A name takes the place of an empty last piece or goes behind the last piece. -/
theorem steps_join (p : Path) (n : Name) :
    (p.join n).steps = (if p.endsInSlash then p.steps.dropLast else p.steps) ++ [.down n] := by
  rw [join]
  by_cases hp : p.endsInSlash
  · obtain ⟨b, hb, hs⟩ := steps_of_endsInSlash hp
    rw [if_pos hp, if_pos hp, hs, hb, List.append_assoc, List.singleton_append,
      steps_append_slash, steps_name, List.dropLast_concat]
  · rw [if_neg hp, if_neg hp, steps_append_slash, steps_name]

theorem length_join_gt (p : Path) (n : Name) : p.bytes.length < (p.join n).bytes.length := by
  have hn := List.length_pos_of_ne_nil (name_ne_nil n)
  rw [join]
  split
  · rw [List.length_append]
    omega
  · rw [List.length_append, List.length_cons]
    omega

theorem join_ne_nil (p : Path) (n : Name) : (p.join n).bytes ≠ [] :=
  List.ne_nil_of_length_pos (Nat.zero_lt_of_lt (length_join_gt p n))

theorem isAbsolute_join {p : Path} (hp : p.bytes ≠ []) (n : Name) :
    (p.join n).isAbsolute = p.isAbsolute := by
  obtain ⟨c, r, hc⟩ := List.exists_cons_of_ne_nil hp
  rw [join]
  split <;> simp [isAbsolute, hc]

/-- The path of the entry that a chain of names leads to. -/
def joins (p : Path) (c : List Name) : Path := c.foldl join p

@[simp]
theorem joins_nil (p : Path) : p.joins [] = p := rfl

theorem joins_concat (p : Path) (c : List Name) (n : Name) :
    p.joins (c ++ [n]) = (p.joins c).join n := by
  rw [joins, List.foldl_append]
  rfl

theorem steps_joins (p : Path) {c : List Name} (hc : c ≠ []) :
    (p.joins c).steps =
      (if p.endsInSlash then p.steps.dropLast else p.steps) ++ c.map .down := by
  induction c using List.reverseRecOn with
  | nil => exact absurd rfl hc
  | append_singleton c n ih =>
    rw [joins_concat, steps_join, List.map_append, List.map_singleton]
    cases c using List.reverseRecOn with
    | nil => rfl
    | append_singleton b m =>
      have he : (p.joins (b ++ [m])).endsInSlash = false := by
        rw [joins_concat]
        exact endsInSlash_join ..
      rw [he, ih (by simp)]
      simp

theorem length_joins_gt (p : Path) {c : List Name} (hc : c ≠ []) :
    p.bytes.length < (p.joins c).bytes.length := by
  induction c using List.reverseRecOn with
  | nil => exact absurd rfl hc
  | append_singleton c n ih =>
    have hl := length_join_gt (p.joins c) n
    rw [joins_concat]
    cases c with
    | nil => exact hl
    | cons m r =>
      have hi := ih (by simp)
      omega

/-- However the path is spelled, no two chains give one path below it. -/
theorem joins_injective (p : Path) : Function.Injective p.joins := by
  intro c d h
  by_cases hc : c = []
  · by_cases hd : d = []
    · rw [hc, hd]
    · have hl := length_joins_gt p hd
      rw [← h, hc, joins_nil] at hl
      omega
  · by_cases hd : d = []
    · have hl := length_joins_gt p hc
      rw [h, hd, joins_nil] at hl
      omega
    · have hs := congrArg steps h
      rw [steps_joins p hc, steps_joins p hd] at hs
      have hm := List.append_cancel_left hs
      exact List.map_injective_iff.2 (fun a b hab => Step.down.inj hab) hm

end Path

namespace FileTree

theorem start_join {p : Path} (hp : p.bytes ≠ []) (n : Name) (place : Location) :
    start place (p.join n) = start place p := by
  rw [start, start, Path.isAbsolute_join hp]

@[simp]
theorem follow_nil (t : FileTree) (w : Way) : t.follow w [] = .ok w := by
  rw [follow]

/-- Steps are taken one after the other, with the links that the way before has left. -/
theorem follow_append (t : FileTree) (w : Way) (s r : List Step) :
    t.follow w (s ++ r) = (t.follow w s).bind (t.follow · r) := by
  fun_induction t.follow w s with
  | case1 w => rfl
  | case2 links place rest entries h ih =>
    rw [List.cons_append, follow, h]
    exact ih
  | case3 links place rest entries h ih =>
    rw [List.cons_append, follow, h]
    exact ih
  | case4 links place rest entries h fault =>
    rw [List.cons_append, follow, h]
    rfl
  | case5 links place rest entries h n hn =>
    rw [List.cons_append, follow, h]
    simp only [hn]
    rfl
  | case6 place rest entries h n target hn =>
    rw [List.cons_append, follow, h]
    simp only [hn]
    rfl
  | case7 place rest entries h n target left hn ih =>
    rw [List.cons_append, follow, h]
    simp only [hn]
    rw [← List.append_assoc]
    exact ih
  | case8 place rest entries h n x links hzero hsucc hn ih =>
    have hx : ∀ target, x ≠ .link target := by
      intro target hx
      cases links with
      | zero => exact hzero target rfl hx
      | succ left => exact hsucc target left rfl hx
    rw [List.cons_append, follow, h]
    cases x with
    | link target => exact absurd rfl (hx target)
    | _ =>
      simp only [hn]
      exact ih
  | case9 links place step rest h =>
    rw [List.cons_append, follow]
    split
    · next entries he => exact absurd he (h entries)
    · rfl

theorem exists_entries {t : FileTree} {place : Location} {n : Name} {x : Node}
    (h : t.node? (n :: place) = some x) :
    ∃ entries, t.node? place = some (.directory entries) ∧ entries.lookup n = some x := by
  obtain ⟨y, hy, hx⟩ := Option.bind_eq_some_iff.1 h
  cases y with
  | directory entries => exact ⟨entries, hy, hx⟩
  | _ => simp [Node.child?] at hx

theorem isDirectory_of_entry {t : FileTree} {place : Location} {n : Name} {x : Node}
    (h : t.node? (n :: place) = some x) : t.isDirectory place = true := by
  obtain ⟨entries, he, -⟩ := exists_entries h
  exact isDirectory_iff.2 ⟨entries, he⟩

theorem eq_of_follow_stay {t : FileTree} {w v : Way} (h : t.follow w [.stay] = .ok v) : w = v := by
  obtain ⟨links, place⟩ := w
  rw [follow] at h
  split at h
  · rw [follow_nil] at h
    exact Except.ok.inj h
  · cases h

theorem follow_stays {t : FileTree} {w : Way} (h : t.isDirectory w.place) (k : Nat) :
    t.follow w (List.replicate k .stay) = .ok w := by
  obtain ⟨entries, he⟩ := isDirectory_iff.1 h
  induction k with
  | zero => exact follow_nil t w
  | succ k ih =>
    rw [List.replicate_succ, follow, he]
    exact ih

theorem follow_down {t : FileTree} {links : Nat} {place : Location} {n : Name} {x : Node}
    (h : t.node? (n :: place) = some x) (hx : ∀ target, x ≠ .link target) :
    t.follow ⟨links, place⟩ [.down n] = .ok ⟨links, n :: place⟩ := by
  obtain ⟨entries, he, hl⟩ := exists_entries h
  rw [follow, he]
  cases x with
  | link target => exact absurd rfl (hx target)
  | _ => simp only [hl, follow_nil]

theorem resolve_eq {t : FileTree} {p : Path} (hp : p.bytes ≠ []) :
    t.resolve p = if p.isTooLong then .error .nameTooLong
      else (t.follow ⟨mostLinks, start t.working p⟩ p.steps).map Way.place := by
  simp [resolve, resolveFrom, hp]

theorem resolve_eq_ok_iff {t : FileTree} {p : Path} {d : Location} :
    t.resolve p = .ok d ↔ p.bytes ≠ [] ∧ p.isTooLong = false ∧
      ∃ w, t.follow ⟨mostLinks, start t.working p⟩ p.steps = .ok w ∧ w.place = d := by
  rw [resolve, resolveFrom]
  by_cases he : p.bytes = []
  · simp [he]
  · by_cases hl : p.isTooLong = true
    · simp [he, hl]
    · cases hw : t.follow ⟨mostLinks, start t.working p⟩ p.steps <;> simp [he, hl, Except.map]

theorem resolve_append_slashes {t : FileTree} {p : Path} {d : Location}
    (hp : t.resolve p = .ok d) (hd : t.isDirectory d) {k : Nat}
    (hk : p.bytes.length + k ≤ longestPath) :
    t.resolve ⟨p.bytes ++ List.replicate k slash⟩ = .ok d := by
  obtain ⟨he, -, w, hw, rfl⟩ := resolve_eq_ok_iff.1 hp
  have hstart : start t.working ⟨p.bytes ++ List.replicate k slash⟩ = start t.working p := by
    obtain ⟨b, r, hb⟩ := List.exists_cons_of_ne_nil he
    simp [start, Path.isAbsolute, hb]
  refine resolve_eq_ok_iff.2 ⟨by simp [he], by simpa [Path.isTooLong] using hk, w, ?_, rfl⟩
  rw [hstart, Path.steps_append_slashes, follow_append, hw]
  exact follow_stays hd k

/-- A joined path goes on from where its beginning leads. -/
theorem follow_join {t : FileTree} {p : Path} {b : Nat} {w : Way} (hp : p.bytes ≠ [])
    (hw : t.follow ⟨b, start t.working p⟩ p.steps = .ok w) (n : Name) :
    t.follow ⟨b, start t.working (p.join n)⟩ (p.join n).steps = t.follow w [.down n] := by
  rw [start_join hp, Path.steps_join, follow_append]
  by_cases hs : p.endsInSlash = true
  · obtain ⟨q, -, hq⟩ := Path.steps_of_endsInSlash hs
    rw [if_pos hs, hq, List.dropLast_concat]
    rw [hq, follow_append] at hw
    cases hv : t.follow ⟨b, start t.working p⟩ (⟨q⟩ : Path).steps with
    | error e => simp [hv, Except.bind] at hw
    | ok v =>
      rw [hv] at hw
      cases eq_of_follow_stay hw
      rfl
  · rw [if_neg hs, hw]
    rfl

theorem resolve_join {t : FileTree} {p : Path} {d : Location} (hp : t.resolve p = .ok d)
    (n : Name) :
    ∃ links, t.resolve (p.join n) = if (p.join n).isTooLong then .error .nameTooLong
      else (t.follow ⟨links, d⟩ [.down n]).map Way.place := by
  obtain ⟨he, -, w, hw, rfl⟩ := resolve_eq_ok_iff.1 hp
  refine ⟨w.links, ?_⟩
  rw [resolve_eq (Path.join_ne_nil p n), follow_join he hw n]

/-- What is no link lies where its directory lies. -/
theorem resolve_join_entry {t : FileTree} {p : Path} {d : Location} {n : Name} {x : Node}
    (hp : t.resolve p = .ok d) (h : t.node? (n :: d) = some x) (hx : ∀ target, x ≠ .link target) :
    t.resolve (p.join n) =
      if (p.join n).isTooLong then .error .nameTooLong else .ok (n :: d) := by
  obtain ⟨links, hr⟩ := resolve_join hp n
  rw [hr, follow_down h hx]
  rfl

end FileTree

end BranchLog
