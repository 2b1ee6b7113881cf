import BranchLog.Proofs.CommandLine

/-!
# Which refusals are final

A command line is refused by one of its arguments, or at its end for the option that still waits or
for the input (`Options.parse_eq_error_iff`). What an argument refuses stays refused, whatever
follows and in any environment. Nothing else does: two arguments more overtake a refusal at the end
(`Options.parse_append_late`, `refusedByArgument_iff`). As the end refuses nothing but values
(`Draft.canWait_of_finish`), a refusal of another kind is final.
-/
namespace BranchLog

/-- A fold fails at an element that is refused after all before it were taken. -/
theorem foldlM_eq_error_iff {ε α β : Type} {f : β → α → Except ε β} {l : List α} {b : β} {e : ε} :
    l.foldlM f b = .error e ↔ ∃ before a after b', l = before ++ a :: after ∧
      before.foldlM f b = .ok b' ∧ f b' a = .error e := by
  induction l generalizing b with
  | nil => simp [pure, Except.pure]
  | cons x l ih =>
    rw [List.foldlM_cons, bind_eq_error_iff]
    constructor
    · rintro (h | ⟨b₁, hb₁, h⟩)
      · exact ⟨[], x, l, b, rfl, rfl, h⟩
      · obtain ⟨before, a, after, b', rfl, hb', h⟩ := ih.1 h
        exact ⟨x :: before, a, after, b', rfl, bind_eq_ok_iff.2 ⟨b₁, hb₁, hb'⟩, h⟩
    · rintro ⟨_ | ⟨y, before⟩, a, after, b', heq, hb', h⟩
      · cases heq
        cases hb'
        exact .inl h
      · cases heq
        obtain ⟨b₁, hb₁, hb'⟩ := bind_eq_ok_iff.1 hb'
        exact .inr ⟨b₁, hb₁, ih.2 ⟨before, a, after, b', rfl, hb', h⟩⟩

/-- The refusals that can wait for the end of the arguments. -/
inductive Refusal.CanWait : Refusal → Prop
  | invalidValue : CanWait .invalidValue
  | argumentConflict : CanWait .argumentConflict

namespace Draft

/-- What becomes of a draft when no argument is left. -/
def finish (d : Draft) (environment : Option (List UInt8)) : Except Refusal Options := do
  let d ← d.settleWaiting
  d.toOptions environment

section Finish

variable {d : Draft} {environment : Option (List UInt8)} {r : Refusal}

theorem canWait_of_settle {s : Setting} {value : List UInt8} (h : d.settle s value = .error r) :
    r.CanWait := by
  rcases settle_eq_error_iff.1 h with ⟨-, rfl⟩ | ⟨-, -, rfl⟩
  · exact .argumentConflict
  · exact .invalidValue

theorem canWait_of_settleWaiting (h : d.settleWaiting = .error r) : r.CanWait := by
  rcases settleWaiting_eq_error_iff.1 h with ⟨s, -, rfl⟩ | ⟨s, value, -, h⟩
  · exact .invalidValue
  · exact canWait_of_settle h

theorem canWait_of_toOptions (h : d.toOptions environment = .error r) : r.CanWait := by
  rcases bind_eq_error_iff.1 h with h | ⟨input, -, h⟩
  · obtain ⟨-, -, rfl⟩ := Options.chooseInput_eq_error_iff.1 h
    exact .invalidValue
  · cases h

/-- An unknown argument, a value too many and a request for help are never found at the end. -/
theorem canWait_of_finish (h : d.finish environment = .error r) : r.CanWait := by
  rcases bind_eq_error_iff.1 h with h | ⟨d', -, h⟩
  · exact canWait_of_settleWaiting h
  · exact canWait_of_toOptions h

theorem read_of_finished (h : d.finished = true) (argument : List UInt8) :
    d.read argument = .error .unknownArgument := by
  simp [read, h]

/-- Nothing may follow the end mark, not even a second one. -/
theorem foldlM_read_late (d : Draft) (argument : List UInt8) :
    [Argument.ending, argument].foldlM Draft.read d = .error .unknownArgument := by
  rw [List.foldlM_cons, bind_eq_error_iff]
  cases hf : d.finished with
  | true => exact .inl (read_of_finished hf _)
  | false =>
    refine .inr ⟨_, read_ending hf, ?_⟩
    rw [List.foldlM_cons, bind_eq_error_iff]
    exact .inl (read_of_finished rfl argument)

end Finish

end Draft

/-- One of the arguments is refused, after what those before it have settled. -/
def RefusedByArgument (arguments : List (List UInt8)) (r : Refusal) : Prop :=
  ∃ before argument after d, arguments = before ++ argument :: after ∧
    before.foldlM Draft.read {} = .ok d ∧ d.read argument = .error r

section Parse

variable {arguments : List (List UInt8)} {environment : Option (List UInt8)} {r : Refusal}

theorem RefusedByArgument.append (h : RefusedByArgument arguments r) (more : List (List UInt8)) :
    RefusedByArgument (arguments ++ more) r := by
  obtain ⟨before, argument, after, d, rfl, hd, hr⟩ := h
  exact ⟨before, argument, after ++ more, d, by simp, hd, hr⟩

theorem Options.parse_eq_error_iff :
    Options.parse arguments environment = .error r ↔ RefusedByArgument arguments r ∨
      ∃ d, arguments.foldlM Draft.read {} = .ok d ∧ d.finish environment = .error r := by
  have hparse : Options.parse arguments environment =
      arguments.foldlM Draft.read {} >>= fun d => d.finish environment := rfl
  rw [hparse, bind_eq_error_iff, foldlM_eq_error_iff]
  rfl

theorem Options.parse_append_late {d : Draft} (hd : arguments.foldlM Draft.read {} = .ok d)
    (argument : List UInt8) :
    Options.parse (arguments ++ [Argument.ending, argument]) environment =
      .error .unknownArgument := by
  refine parse_eq_error_iff.2 (.inl (foldlM_eq_error_iff.1 ?_))
  rw [List.foldlM_append, hd]
  exact Draft.foldlM_read_late d argument

/-- The refusals by an argument are the final ones. -/
theorem refusedByArgument_iff :
    RefusedByArgument arguments r ↔
      ∀ more environment, Options.parse (arguments ++ more) environment = .error r := by
  constructor
  · intro h more environment
    exact Options.parse_eq_error_iff.2 (.inl (h.append more))
  · intro h
    have hempty := h [] none
    rw [List.append_nil] at hempty
    rcases Options.parse_eq_error_iff.1 hempty with hr | ⟨d, hd, hr⟩
    · exact hr
    -- Refused at the end, and yet refused with an unknown argument behind: the kinds differ.
    · have hlate := (h [Argument.ending, []] none).symm.trans (Options.parse_append_late hd [])
      cases hlate
      cases Draft.canWait_of_finish hr

/-- A value that is missing at the end is no final refusal: the next argument may be that value. -/
example :
    Options.parse [Argument.named "input"] none = .error .invalidValue ∧
      Options.parse [Argument.named "input", Text.encode "log"] none =
        .ok { input := .ofString "log" } := by
  decide +kernel

end Parse

/-- An unknown argument, a value too many and a request for help end the reading for good: with any
arguments behind and in any environment the refusal is the same, and hence the exit code. -/
theorem Options.refusal_by_argument_stays {arguments : List (List UInt8)}
    {environment : Option (List UInt8)} {r : Refusal}
    (h : parse arguments environment = .error r)
    (hr : r = .unknownArgument ∨ r = .tooManyValues ∨ r = .displayHelp)
    (more : List (List UInt8)) (environment' : Option (List UInt8)) :
    parse (arguments ++ more) environment' = .error r := by
  have hnot : ¬r.CanWait := by
    rcases hr with rfl | rfl | rfl <;> exact nofun
  rcases parse_eq_error_iff.1 h with hrefused | ⟨d, -, hfinish⟩
  · exact refusedByArgument_iff.1 hrefused more environment'
  · exact absurd (Draft.canWait_of_finish hfinish) hnot

/-- A format that does not exist waits for its refusal, and the value too many comes first. -/
def valuedFlag : List (List UInt8) := ["--format", "xml", "--strict=1"].map Text.encode

theorem Options.refusal_by_argument_stays_valuedFlag :
    parse valuedFlag (some []) = .error .tooManyValues ∧
      parse (valuedFlag ++ [Argument.named "help", Argument.ending]) none = .error .tooManyValues :=
  have h : parse valuedFlag (some []) = .error .tooManyValues := by decide +kernel
  ⟨h, refusal_by_argument_stays h (.inr (.inl rfl)) _ _⟩

end BranchLog
