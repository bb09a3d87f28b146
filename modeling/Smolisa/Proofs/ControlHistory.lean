import Smolisa.Proofs.LastWriter

/-!
# The History of a Control Unit

A control unit has three calls that change it: a word is latched, a cycle is observed, or everything
is cleared. The machine makes them in a fixed order, but nothing in the control unit depends on
that. This module says what the unit puts out after any calls in any order, in terms of the calls
alone. All that counts is the last latch, if there was no reset behind it, and the last condition
test observed behind that latch. What came before the latch is forgotten, and so is every other
observation.

Every list of calls is of one of two forms: nothing has been latched since the start or the last
reset, or there is a last latch with nothing but observations behind it.

## Main results

* `ControlUnit.after_of_observations` — observations change the zero latch only.
* `ControlUnit.after_latch` — the state behind the last latch.
* `ControlCall.nothingLatched_or_latch` — the two forms of a list of calls.
* `ControlUnit.history_law` — **the output of a control unit is a function of its history.**
-/

namespace Smolisa

/-- Something that changes a control unit. -/
inductive ControlCall
  | latch (word ip : Word) (profile : Profile)
  | observe (micro : MicroOp) (out : AluOutput)
  | reset

namespace ControlCall

/-- The call is an observation. -/
def Observes : ControlCall → Prop
  | .observe _ _ => True
  | .latch _ _ _ | .reset => False

/-- The zero flag that a call reports, if it is the observation of a condition test. -/
def testedZero? : ControlCall → Option Bool
  | .observe .testCondition out => some out.zero
  | _ => none

/-- Nothing has been latched since the start or the last reset. -/
def NothingLatched (calls : List ControlCall) : Prop :=
  ∃ front back, calls = front ++ back ∧ (front = [] ∨ ∃ earlier, front = earlier ++ [.reset]) ∧
    ∀ word ip profile, .latch word ip profile ∉ back

/-- **The two forms of a list of calls.** -/
theorem nothingLatched_or_latch (calls : List ControlCall) :
    NothingLatched calls ∨
      ∃ front word ip profile back, calls = front ++ .latch word ip profile :: back ∧
        ∀ call ∈ back, call.Observes := by
  -- The induction is at the end of the list, where the last call decides.
  induction calls using List.reverseRecOn with
  | nil => exact .inl ⟨[], [], rfl, .inl rfl, fun _ _ _ => List.not_mem_nil⟩
  | append_singleton calls call ih =>
      cases call with
      | latch word ip profile =>
          exact .inr ⟨calls, word, ip, profile, [], rfl, fun _ hmem => absurd hmem List.not_mem_nil⟩
      | reset =>
          exact .inl ⟨calls ++ [.reset], [], (List.append_nil _).symm, .inr ⟨calls, rfl⟩,
            fun _ _ _ => List.not_mem_nil⟩
      | observe micro out =>
          rcases ih with ⟨front, back, rfl, hfront, hback⟩ |
            ⟨front, word, ip, profile, back, rfl, hback⟩
          · refine .inl ⟨front, back ++ [.observe micro out], List.append_assoc _ _ _, hfront, ?_⟩
            intro word ip profile hmem
            rcases List.mem_append.1 hmem with hmem | hmem
            · exact hback word ip profile hmem
            · cases List.mem_singleton.1 hmem
          · refine .inr ⟨front, word, ip, profile, back ++ [.observe micro out], by simp, ?_⟩
            intro call hmem
            rcases List.mem_append.1 hmem with hmem | hmem
            · exact hback call hmem
            · rw [List.mem_singleton.1 hmem]
              trivial

end ControlCall

namespace ControlUnit

open ControlCall

/-- The control unit after a call. -/
def apply (c : ControlUnit) : ControlCall → ControlUnit
  | .latch word ip profile => (c.latch word ip profile).2
  | .observe micro out => c.observe micro out
  | .reset => .empty

/-- The control unit after a list of calls. -/
def after (c : ControlUnit) (calls : List ControlCall) : ControlUnit :=
  calls.foldl apply c

/-- A latch succeeds with the opcode that the word decodes to. -/
theorem fst_latch_eq_ok_iff {c : ControlUnit} {word ip : Word} {profile : Profile} {op : Opcode} :
    (c.latch word ip profile).1 = .ok op ↔ word.opcode? profile = some op := by
  cases h : word.opcode? profile with
  | none => simp [latch_of_none h]
  | some op' => simp [latch_of_some h]

/-- A latch fails exactly if the word does not decode, and reports its opcode nibble and where it
was fetched. -/
theorem fst_latch_eq_error_iff {c : ControlUnit} {word ip : Word} {profile : Profile}
    {fault : Fault} :
    (c.latch word ip profile).1 = .error fault ↔
      word.opcode? profile = none ∧ fault = .unknownOpcode word.opcodeNibble ip := by
  cases h : word.opcode? profile with
  | none => simp [latch_of_none h, eq_comm]
  | some op => simp [latch_of_some h]

theorem after_append (c : ControlUnit) (first second : List ControlCall) :
    c.after (first ++ second) = (c.after first).after second :=
  List.foldl_append

/-- An observation sets the zero latch to the flag of a condition test, and otherwise nothing. -/
theorem apply_of_observes {call : ControlCall} (h : call.Observes) (c : ControlUnit) :
    c.apply call = { c with zeroLatch := call.testedZero?.getD c.zeroLatch } := by
  cases call with
  | latch | reset => cases h
  | observe micro out => cases micro <;> rfl

/-- **Observations change the zero latch only.** It is the flag of the last condition test. -/
theorem after_of_observations {calls : List ControlCall} (h : ∀ call ∈ calls, call.Observes)
    (c : ControlUnit) :
    c.after calls = { c with zeroLatch := latest testedZero? calls c.zeroLatch } := by
  induction calls generalizing c with
  | nil => rfl
  | cons call rest ih =>
      have hfirst := apply_of_observes (h call List.mem_cons_self) c
      have hrest := ih (fun call hmem => h call (List.mem_cons_of_mem _ hmem)) (c.apply call)
      rw [hfirst] at hrest
      rw [latest_cons, after, List.foldl_cons, hfirst]
      exact hrest

/-- **The state behind the last latch.** It holds the word that was latched, what the word decodes
to, and the flag of the last condition test since then. -/
theorem after_latch (c : ControlUnit) (word ip : Word) (profile : Profile)
    {back : List ControlCall} (h : ∀ call ∈ back, call.Observes) :
    c.after (.latch word ip profile :: back) =
      ⟨some word, word.opcode? profile, latest testedZero? back false⟩ := by
  rw [after, List.foldl_cons, apply, snd_latch]
  exact after_of_observations h _

/-- Calls that latch nothing keep it that nothing is latched. -/
theorem after_of_not_latch {calls : List ControlCall}
    (h : ∀ word ip profile, .latch word ip profile ∉ calls) {c : ControlUnit}
    (hc : c.instruction = none ∧ c.opcode = none) :
    (c.after calls).instruction = none ∧ (c.after calls).opcode = none := by
  induction calls generalizing c with
  | nil => exact hc
  | cons call rest ih =>
      refine ih (fun word ip profile hmem => h word ip profile (List.mem_cons_of_mem _ hmem)) ?_
      cases call with
      | latch word ip profile => exact absurd List.mem_cons_self (h word ip profile)
      | reset => exact ⟨rfl, rfl⟩
      | observe micro out =>
          have hobserves : (ControlCall.observe micro out).Observes := trivial
          rw [apply_of_observes hobserves]
          exact hc

/-- If nothing has been latched since the start or the last reset, then there is neither a word nor
an opcode. -/
theorem after_of_nothingLatched {calls : List ControlCall} (h : NothingLatched calls) :
    (empty.after calls).instruction = none ∧ (empty.after calls).opcode = none := by
  obtain ⟨front, back, rfl, hfront, hback⟩ := h
  have hempty : empty.after front = empty := by
    rcases hfront with rfl | ⟨earlier, rfl⟩
    · rfl
    · rw [after_append]
      rfl
  rw [after_append, hempty]
  exact after_of_not_latch hback ⟨rfl, rfl⟩

/-- A conditional move writes its register exactly if the condition of its opcode holds. -/
theorem writesRegister_conditionalMove {op : Opcode} {zero : Bool} :
    (Bus.decode op .conditionalMove zero).writesRegister = true ↔
      op = .lrz ∧ zero = true ∨ op = .lrnz ∧ zero = false := by
  cases op <;> cases zero <;> simp [Bus.decode, Bus.conditionalMove, Bus.moves]

/-- **The output of a control unit is a function of its history.** Take any calls to a control unit
that starts empty. The bus of the fetch is always the same. If nothing has been latched since the
start or the last reset, then no word is latched, and the bus of every other cycle is idle, whatever
has been observed. If there is a last latch with nothing but observations behind it, then its word
is latched, also if it did not decode. If it did not, the bus of every cycle but the fetch is idle.
If it did, the bus of every cycle is the decoded one of its opcode, with the zero flag of the last
condition test observed since that latch, which is clear if there was none; in particular the
conditional move writes exactly if the condition holds for this flag. Neither the calls in front of
the latch nor the observations of other cycles have any influence. And there is no third case. -/
theorem history_law (calls : List ControlCall) :
    (empty.after calls).bus .fetch = .fetch ∧
    (NothingLatched calls →
      (empty.after calls).instruction = none ∧
      ∀ micro, micro ≠ .fetch → (empty.after calls).bus micro = .idle) ∧
    (∀ front word ip profile back, calls = front ++ .latch word ip profile :: back →
      (∀ call ∈ back, call.Observes) →
      (empty.after calls).instruction = some word ∧
      (∀ fault, ((empty.after front).latch word ip profile).1 = .error fault →
        ∀ micro, micro ≠ .fetch → (empty.after calls).bus micro = .idle) ∧
      (∀ op, ((empty.after front).latch word ip profile).1 = .ok op →
        (∀ micro, (empty.after calls).bus micro =
          .decode op micro (latest testedZero? back false)) ∧
        (((empty.after calls).bus .conditionalMove).writesRegister = true ↔
          op = .lrz ∧ latest testedZero? back false = true ∨
          op = .lrnz ∧ latest testedZero? back false = false)) ∧
      ∀ front' back', (∀ call ∈ back', call.Observes) →
        back'.filterMap testedZero? = back.filterMap testedZero? →
        empty.after (front' ++ .latch word ip profile :: back') = empty.after calls) ∧
    (NothingLatched calls ∨
      ∃ front word ip profile back, calls = front ++ .latch word ip profile :: back ∧
        ∀ call ∈ back, call.Observes) := by
  refine ⟨bus_fetch _, fun h => ?_, ?_, nothingLatched_or_latch calls⟩
  · obtain ⟨hword, hop⟩ := after_of_nothingLatched h
    exact ⟨hword, fun _ => bus_of_no_opcode hop⟩
  · rintro front word ip profile back rfl hback
    rw [after_append, after_latch _ _ _ _ hback]
    refine ⟨rfl, fun fault hfault => ?_, fun op hop => ?_, fun front' back' hback' hsame => ?_⟩
    · exact fun _ => bus_of_no_opcode (fst_latch_eq_error_iff.1 hfault).1
    · have hbus := bus_of_opcode (c := ⟨some word, word.opcode? profile,
        latest testedZero? back false⟩) (fst_latch_eq_ok_iff.1 hop)
      refine ⟨hbus, ?_⟩
      rw [hbus, writesRegister_conditionalMove]
    · rw [after_append, after_latch _ _ _ _ hback', latest, hsame, ← latest]

/-- A conditional opcode behind an addition and its condition test. Of the three cycles observed
since then only the second counts, and the move writes. Behind an unknown opcode nothing is written,
and its word is latched. -/
theorem history_law_conditional :
    let word := Word.encodeRegister .lrz .g1 .g2 .g3
    let front : List ControlCall := [.latch (Word.encodeRegister .add .g1 .g2 .g3) 0 .full,
      .observe .testCondition ⟨5, false⟩]
    let back : List ControlCall := [.observe .execute ⟨7, false⟩, .observe .testCondition ⟨0, true⟩,
      .observe .conditionalMove ⟨9, false⟩]
    (∀ call ∈ back, call.Observes) ∧
    ((empty.after (front ++ .latch word 2 .full :: back)).bus .conditionalMove).writesRegister =
      true ∧
    (empty.after (front ++ .latch word 2 .datapath :: back)).instruction = some word ∧
    (empty.after (front ++ .latch word 2 .datapath :: back)).bus .conditionalMove = .idle := by
  intro word front back
  have hback : ∀ call ∈ back, call.Observes := by simp [back, Observes]
  obtain ⟨-, -, hfull, -⟩ := history_law (front ++ .latch word 2 .full :: back)
  obtain ⟨-, -, hdecoded, -⟩ := hfull _ _ _ _ _ rfl hback
  obtain ⟨-, -, hdatapath, -⟩ := history_law (front ++ .latch word 2 .datapath :: back)
  obtain ⟨hword, hunknown, -⟩ := hdatapath _ _ _ _ _ rfl hback
  have hsome : word.opcode? .full = some .lrz := by decide
  have hnone : word.opcode? .datapath = none := by decide
  exact ⟨hback, (hdecoded _ (fst_latch_eq_ok_iff.2 hsome)).2.2 (.inl ⟨rfl, rfl⟩), hword,
    hunknown _ (fst_latch_eq_error_iff.2 ⟨hnone, rfl⟩) .conditionalMove (by decide)⟩

end ControlUnit

end Smolisa
