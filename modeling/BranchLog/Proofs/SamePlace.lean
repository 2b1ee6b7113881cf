import BranchLog.Proofs.WalkFailure
import Mathlib

/-!
# Two paths to one place

What is below a directory does not depend on the path to it, but for limits that a path may run
into: it is too long, or its links are too many where more links would do. Up to these limits the
same chains are reached below two paths to one place (`isReached_of_samePlace`), lead to the same
places and are bad in the same way.
-/
namespace BranchLog

namespace FileTree

section Links

variable {t : FileTree} {p p' : Path} {d : Location} {n : Name}

/-- More links at the start are more links at the end, unless they were too few. -/
theorem follow_add (t : FileTree) (w : Way) (steps : List Step) (k : Nat)
    (h : t.follow w steps ≠ .error .tooManyLinks) :
    t.follow ⟨w.links + k, w.place⟩ steps =
      (t.follow w steps).map fun v => ⟨v.links + k, v.place⟩ := by
  fun_induction t.follow w steps with
  | case1 w => rw [follow_nil]; rfl
  | case2 links place rest entries hx ih =>
    rw [follow, hx]
    exact ih h
  | case3 links place rest entries hx ih =>
    rw [follow, hx]
    exact ih h
  | case4 links place rest entries hx fault =>
    rw [follow, hx]
    rfl
  | case5 links place rest entries hx n hn =>
    rw [follow, hx]
    simp only [hn]
    rfl
  | case6 place rest entries hx n target hn => exact absurd rfl h
  | case7 place rest entries hx n target left hn ih =>
    rw [follow, hx]
    simp only [hn, Nat.succ_add]
    exact ih h
  | case8 place rest entries hx n x links hzero hsucc hn ih =>
    rw [follow, hx]
    cases x with
    | link target =>
      cases links with
      | zero => exact absurd rfl (hzero target rfl)
      | succ left => exact absurd rfl (hsucc target left rfl)
    | _ =>
      simp only [hn]
      exact ih h
  | case9 links place step rest hx =>
    rw [follow]
    split
    · next entries he => exact absurd he (hx entries)
    · rfl

/-- Too long, or given up at the last link where with more links the way would have gone on. -/
def IsCutShort (t : FileTree) (p : Path) : Prop :=
  p.isTooLong = true ∨ t.resolve p = .error .tooManyLinks ∧
    ∃ links, t.follow ⟨links, start t.working p⟩ p.steps ≠ .error .tooManyLinks

theorem not_isCutShort_of_resolve (h : t.resolve p = .ok d) : ¬t.IsCutShort p := by
  rintro (hlong | ⟨hlinks, -⟩)
  · rw [(resolve_eq_ok_iff.1 h).2.1] at hlong
    cases hlong
  · rw [h] at hlinks
    cases hlinks

/-- With `k` links more than `w` has left, the step ends where it ends with those of `w`. -/
theorem map_follow_down {w : Way} (hp : t.resolve p = .ok w.place)
    (hw : t.follow ⟨mostLinks, start t.working p⟩ p.steps = .ok w)
    (h : ¬t.IsCutShort (p.join n)) (k : Nat) :
    (t.follow ⟨w.links + k, w.place⟩ [.down n]).map Way.place = t.resolve (p.join n) := by
  have hne := (resolve_eq_ok_iff.1 hp).1
  have hshort : (p.join n).isTooLong = false := by
    by_contra hlong
    exact h (.inl (Bool.eq_true_of_not_eq_false hlong))
  have hresolve := resolve_eq (t := t) (Path.join_ne_nil p n)
  rw [if_neg (by simp [hshort])] at hresolve
  rw [follow_join hne hw] at hresolve
  by_cases hlinks : t.follow w [.down n] = .error .tooManyLinks
  · -- more links do not help, so they do not help behind `p` either
    have hall : ∀ links, t.follow ⟨links, start t.working (p.join n)⟩ (p.join n).steps =
        .error .tooManyLinks := by
      intro links
      by_contra hne
      exact h (.inr ⟨by rw [hresolve, hlinks]; rfl, links, hne⟩)
    have hmore := follow_add t ⟨mostLinks, start t.working p⟩ p.steps k (by simp [hw])
    rw [hw] at hmore
    have hjoin := hall (mostLinks + k)
    rw [follow_join hne hmore] at hjoin
    rw [hresolve, hlinks, hjoin]
  · rw [follow_add t w _ k hlinks, hresolve]
    cases t.follow w [.down n] <;> rfl

theorem resolve_join_congr (hp : t.resolve p = .ok d) (hp' : t.resolve p' = .ok d)
    (h : ¬t.IsCutShort (p.join n)) (h' : ¬t.IsCutShort (p'.join n)) :
    t.resolve (p.join n) = t.resolve (p'.join n) := by
  obtain ⟨-, -, w, hw, rfl⟩ := resolve_eq_ok_iff.1 hp
  obtain ⟨-, -, w', hw', hplace⟩ := resolve_eq_ok_iff.1 hp'
  rw [← hplace] at hp'
  rw [← map_follow_down hp hw h w'.links, ← map_follow_down hp' hw' h' w.links, hplace,
    Nat.add_comm]

end Links

/-- No path that a walk comes to is cut short. -/
def WithinLimits (t : FileTree) (input : Path) : Prop :=
  ∀ c, t.IsReached input c → ¬t.IsCutShort (input.joins c)

/-- Below two paths a chain leads to the same place or nowhere for the same reason. -/
structure SamePlace (t : FileTree) (p p' : Path) (c : List Name) : Prop where
  resolve : t.resolve (p.joins c) = t.resolve (p'.joins c)
  short : (p.joins c).isTooLong = false
  short' : (p'.joins c).isTooLong = false

section Chains

variable {t : FileTree} {p p' : Path} {place d : Location} {c q : List Name}

theorem samePlace_nil (hp : t.resolve p = .ok place) (hp' : t.resolve p' = .ok place) :
    t.SamePlace p p' [] :=
  ⟨hp.trans hp'.symm, (resolve_eq_ok_iff.1 hp).2.1, (resolve_eq_ok_iff.1 hp').2.1⟩

theorem SamePlace.leadsTo_iff (h : t.SamePlace p p' c) :
    t.LeadsTo p c d ↔ t.LeadsTo p' c d := by
  rw [LeadsTo, LeadsTo, h.resolve]

theorem SamePlace.lastNode?_eq (h : t.SamePlace p p' c.dropLast) :
    t.lastNode? p c = t.lastNode? p' c := by
  rw [lastNode?, lastNode?, h.resolve]

/-- What the last name stands for depends on where the names before it lead. -/
theorem SamePlace.alike (h : t.SamePlace p p' c) (hlast : t.SamePlace p p' c.dropLast) :
    Alike t t p p' c where
  kind := by rw [kind?, kind?, hlast.lastNode?_eq]
  resolve := h.resolve
  long := h.short.trans h.short'.symm
  directory _ _ := rfl

theorem alike_of_samePlace (h : ∀ q, q <+: c → t.SamePlace p p' q) (hq : q <+: c) :
    Alike t t p p' q :=
  (h q hq).alike (h _ ((List.dropLast_prefix q).trans hq))

theorem IsReached.of_isPrefix (h : t.IsReached p c) (hq : q <+: c) : t.IsReached p q := by
  refine ⟨h.1.of_isPrefix hq, fun r hr hbad => ?_⟩
  obtain rfl := h.2 r (hr.trans hq) hbad
  exact hr.eq_of_length_le hq.length_le

/-- Below two paths to one place the same chains are reached, and all lead to the same places. -/
theorem isReached_of_samePlace (hp : t.resolve p = .ok place) (hp' : t.resolve p' = .ok place)
    (hl : t.WithinLimits p) (hl' : t.WithinLimits p') (h : t.IsReached p c) :
    t.IsReached p' c ∧ ∀ q, q <+: c → t.SamePlace p p' q := by
  induction c using List.reverseRecOn with
  | nil =>
    refine ⟨⟨isChain_nil, fun q hq _ => List.prefix_nil.1 hq⟩, fun q hq => ?_⟩
    rw [List.prefix_nil.1 hq]
    exact samePlace_nil hp hp'
  | append_singleton c n ih =>
    obtain ⟨hreached, hsame⟩ := ih (h.of_isPrefix (List.prefix_append c [n]))
    have hlast : t.SamePlace p p' (c ++ [n]).dropLast := by
      rw [List.dropLast_concat]
      exact hsame c (List.prefix_refl c)
    have hsome := (isChain_concat_iff.1 h.1).2
    have hchain := isChain_concat_iff.2 ⟨hreached.1, hlast.lastNode?_eq ▸ hsome⟩
    have hreached' : t.IsReached p' (c ++ [n]) := by
      refine ⟨hchain, fun q hq hbad => ?_⟩
      rcases List.prefix_concat_iff.1 hq with rfl | hq'
      · rfl
      · exact h.2 q hq (hbad.of_alike fun r hr => (alike_of_samePlace hsame (hr.trans hq')).symm)
    obtain ⟨d, hd, -⟩ := leadsTo_of_lastNode? hsome
    have hcut := hl _ h
    have hcut' := hl' _ hreached'
    refine ⟨hreached', fun q hq => ?_⟩
    rcases List.prefix_concat_iff.1 hq with rfl | hq
    · refine ⟨?_, ?_, ?_⟩
      · rw [Path.joins_concat] at hcut hcut' ⊢
        rw [Path.joins_concat]
        exact resolve_join_congr hd ((hsame c (List.prefix_refl c)).leadsTo_iff.1 hd) hcut hcut'
      · exact Bool.eq_false_of_not_eq_true fun hlong => hcut (.inl hlong)
      · exact Bool.eq_false_of_not_eq_true fun hlong => hcut' (.inl hlong)
    · exact hsame q hq

end Chains

end FileTree

end BranchLog
