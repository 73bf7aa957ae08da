import Intension.Proofs.Program.Jumps
import Intension.Proofs.Program.Slots
import Intension.Proofs.Program.Streams

namespace Intension

/-- The instructions that have what they need, but for values on the stack, where tuples have the
    given length. -/
inductive Instruction.Sound (slots : Nat) : Instruction → Prop
  | push (k : Word) : Sound slots (.push k)
  | load {slot : Nat} (bound : slot < slots) : Sound slots (.load slot)
  | count (members : Nat) : Sound slots (.count members)
  | test {op : Operator} (membership : op = .mem ∨ op = .notMem) (members : Nat) :
      Sound slots (.apply op (members + 2))
  | operator {op : Operator} {arity : Nat} (plain : Expr.Plain op) (accepted : op.arity.accepts arity) :
      Sound slots (.apply op arity)

namespace Program

/-- Code that leaves a single value in place of as many values as are given. -/
inductive Balanced (slots : Nat) : Nat → List Instruction → Prop
  | nil : Balanced slots 1 []
  | cons {i : Instruction} {rest : List Instruction} {height : Nat} (sound : i.Sound slots)
      (enough : i.arity ≤ height) (others : Balanced slots (height - i.arity + 1) rest) :
      Balanced slots height (i :: rest)

theorem balanced_cons {slots height : Nat} {i : Instruction} {rest : List Instruction} :
    Balanced slots height (i :: rest) ↔
      i.Sound slots ∧ i.arity ≤ height ∧ Balanced slots (height - i.arity + 1) rest := by
  constructor
  · intro balanced
    cases balanced with
    | cons sound enough others => exact ⟨sound, enough, others⟩
  · rintro ⟨sound, enough, others⟩
    exact .cons sound enough others

theorem Balanced.sound {slots height : Nat} {code : List Instruction}
    (balanced : Balanced slots height code) : ∀ i ∈ code, i.Sound slots := by
  induction balanced with
  | nil => exact fun i member => absurd member List.not_mem_nil
  | cons sound enough others ih =>
    intro j member
    rcases List.mem_cons.mp member with rfl | member
    · exact sound
    · exact ih j member

theorem slotCount_numberless {ts : List Token} (numberless : ts.filterMap Token.slot? = []) :
    slotCount ts = .ok (variableIds ts).length := by
  simp [slotCount, slotsUsed, numberless, distinctBy]

theorem lt_of_slotCount {ts : List Token} {slots : Nat} (counted : slotCount ts = .ok slots) {i : Nat}
    (used : i ∈ ts.filterMap Token.slot?) : i < slots := by
  by_cases unnamed : ts.filterMap Token.var? = []
  · exact ((slotCount_unnamed unnamed slots).mp counted i).mp used
  · rw [slotCount_mixed unnamed (List.ne_nil_of_mem used)] at counted
    cases counted

theorem idxOf_lt_of_slotCount {ts : List Token} {slots : Nat} (counted : slotCount ts = .ok slots)
    {v : Variable} (named : v ∈ ts.filterMap Token.var?) : (variableIds ts).idxOf v.id < slots := by
  by_cases numberless : ts.filterMap Token.slot? = []
  · rw [slotCount_numberless numberless] at counted
    cases counted
    exact List.idxOf_lt_length_of_mem (mem_distinctBy_id.mpr (List.mem_map_of_mem named))
  · rw [slotCount_mixed (List.ne_nil_of_mem named) numberless] at counted
    cases counted

theorem sound_of_instruction {ts : List Token} {slots : Nat} (counted : slotCount ts = .ok slots)
    {t : Token} (member : t ∈ ts) {previous : Option Instruction} {position : Nat} {i : Instruction}
    (found : instruction (variableIds ts) previous position t = .ok i) : i.Sound slots := by
  cases t with
  | int k =>
    cases found
    exact .push k
  | slot n =>
    cases found
    exact .load (lt_of_slotCount counted (List.mem_filterMap.mpr ⟨.slot n, member, rfl⟩))
  | var v =>
    cases found
    exact .load (idxOf_lt_of_slotCount counted (List.mem_filterMap.mpr ⟨.var v, member, rfl⟩))
  | unknown word => cases found
  | op o arity =>
    rcases operatorInstruction_eq_ok found with ⟨rfl, rfl⟩ | ⟨membership, _, members, _, rfl⟩ |
      ⟨plain, accepted, rfl⟩
    · exact .count arity
    · exact .test membership members
    · exact .operator plain accepted

theorem balanced_of_assemble {ts : List Token} {slots : Nat} (counted : slotCount ts = .ok slots)
    {us : List Token} (part : us ⊆ ts) {previous : Option Instruction} {height position : Nat}
    {code : List Instruction}
    (found : assemble (variableIds ts) previous height position us = .ok code) :
    Balanced slots height code := by
  induction us generalizing previous height position code with
  | nil =>
    simp only [assemble] at found
    split at found
    · rename_i one
      cases found
      rw [one]
      exact .nil
    · cases found
  | cons t us ih =>
    obtain ⟨i, rest, first, enough, others⟩ := assemble_cons_eq_ok found
    rw [assemble_cons _ _ _ _ _ _ first enough, others] at found
    cases found
    obtain ⟨member, part⟩ := List.cons_subset.mp part
    exact .cons (sound_of_instruction counted member first) enough (ih part others)

theorem balanced_of_lowered {ts : List Token} {slots : Nat} {code : List Instruction}
    (found : lowered ts = .ok (slots, code)) : Balanced slots 0 code := by
  obtain ⟨_, counted, assembled⟩ := lowered_eq_ok_iff.mp found
  exact balanced_of_assemble counted (List.Subset.refl ts) assembled

/-- Behind the connective a jump leads to, the value that decides it lies where the value of the
    connective would. -/
theorem Balanced.behind {slots height base passed n : Nat} {code : List Instruction} {c : Connective}
    (balanced : Balanced slots (height + base) code)
    (found : jumpFrom height passed code = some ⟨c, passed + n⟩) :
    n < code.length ∧ Balanced slots (base + 1) (code.drop (n + 1)) := by
  induction code generalizing height passed n with
  | nil => cases found
  | cons i rest ih =>
    obtain ⟨_, _, others⟩ := balanced_cons.mp balanced
    rcases jumpFrom_cons_eq_some found with ⟨rfl, arity, _⟩ | ⟨m, rfl, fewer, found⟩
    · rw [show height + base - i.arity + 1 = base + 1 by omega] at others
      exact ⟨Nat.zero_lt_succ _, others⟩
    · rw [show height + base - i.arity + 1 = height - i.arity + 1 + base by omega] at others
      obtain ⟨inside, landed⟩ := ih others found
      exact ⟨Nat.succ_lt_succ inside, landed⟩

end Program

end Intension
