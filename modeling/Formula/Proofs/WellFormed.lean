import Formula.Proofs.Acceptance
import Formula.Proofs.Verified

/-!
# Parsed programs pass their check

The parser counts the depth of the stack while it writes, and the check counts it again from the
code and the tables.  Both counts are heights along the mnemonics of the tree.

* `Program.Tabulates` says that the tables of a program are those of mnemonics.  Then an instruction
  pops what its mnemonic pops, and what it names exists.
* `verify_iff_peakFrom_le` says of the code of a tree that it passes the check exactly if the
  declared stack is at least the peak.
* `verify_iff_of_parse` is the result for parsed programs: with any declared stack, the check passes
  exactly if that stack is at least the one that the parser declared.
-/

namespace Formula

namespace Mnemonic

/-- Every mnemonic finds its operands, from a height on. -/
def Grounded (height : Nat) : List Mnemonic → Prop
  | [] => True
  | m :: ms => m.arity ≤ height ∧ Grounded (heightAfter height m) ms

theorem grounded_append {n : Nat} {ms ms' : List Mnemonic} :
    Grounded n (ms ++ ms') ↔ Grounded n ms ∧ Grounded (heightFrom n ms) ms' := by
  induction ms generalizing n with
  | nil => simp [Grounded]
  | cons m ms ih => simp [Grounded, ih, and_assoc]

end Mnemonic

open Mnemonic

/-- The nodes of a tree find their operands. -/
theorem Tree.grounded_postorder (x : Tree) (n : Nat) : Grounded n x.postorder := by
  induction x generalizing n with
  | constant | input => simp [postorder, Grounded, Mnemonic.arity]
  | sign negative x ih =>
    cases negative <;> simp [postorder, grounded_append, ih, Grounded, Mnemonic.arity]
  | binary op x y ihx ihy =>
    simp [postorder, grounded_append, ihx, ihy, Grounded, Mnemonic.arity]
  | call₁ f unary x ih => simp [postorder, grounded_append, ih, Grounded, Mnemonic.arity, unary]
  | call₂ f pair x y ihx ihy =>
    simp [postorder, grounded_append, ihx, ihy, Grounded, Mnemonic.arity, pair]

namespace Program

/-- The tables of a program are those of mnemonics. -/
structure Tabulates (p : Program) (ms : List Mnemonic) : Prop where
  constants : p.constants.toList.map some = (spellings ms).map Pool.value?
  functions : p.functions.toList = Mnemonic.functions ms

/-- The instruction of a mnemonic in the tables of mnemonics. -/
abbrev coded (ms : List Mnemonic) (m : Mnemonic) : Instruction :=
  m.instruction (spellings ms) (Mnemonic.functions ms)

namespace Tabulates

variable {p : Program} {ms : List Mnemonic}

/-- A constant is found at the place of its spelling. -/
theorem getElem?_constants (h : p.Tabulates ms) {s : String} (hs : .constant s ∈ ms) :
    p.constants[(spellings ms).idxOf s]? = Pool.value? s := by
  have hlt : (spellings ms).idxOf s < (spellings ms).length :=
    List.idxOf_lt_length_of_mem (mem_spellings.mpr hs)
  have hget := congrArg (·[(spellings ms).idxOf s]?) h.constants
  simp only [List.getElem?_map, List.getElem?_eq_getElem hlt, List.getElem_idxOf hlt,
    Option.map_some, Array.getElem?_toList] at hget
  obtain ⟨x, hx, hsome⟩ := Option.map_eq_some_iff.mp hget
  rw [hx, hsome]

/-- A function is found at its place. -/
theorem getElem?_functions (h : p.Tabulates ms) {f : FunctionName} (hf : .call f ∈ ms) :
    p.functions[(Mnemonic.functions ms).idxOf f]? = some f := by
  have hlt : (Mnemonic.functions ms).idxOf f < (Mnemonic.functions ms).length :=
    List.idxOf_lt_length_of_mem (mem_functions.mpr hf)
  rw [← Array.getElem?_toList, h.functions, List.getElem?_eq_getElem hlt,
    List.getElem_idxOf hlt]

theorem pops?_coded (h : p.Tabulates ms) {m : Mnemonic} (hm : m ∈ ms) :
    (coded ms m).pops? p.functions = some m.arity := by
  cases m with
  | constant | input | negate => rfl
  | operator op => cases op <;> rfl
  | call f => simp [coded, instruction, Instruction.pops?, h.getElem?_functions hm, arity]

/-- What a coded mnemonic loads exists. -/
theorem names_coded (h : p.Tabulates ms) {m : Mnemonic} (hm : m ∈ ms)
    (hinputs : ∀ slot, m = .input slot → slot < p.inputs) : p.Names (coded ms m) := by
  cases m with
  | constant s =>
    have hlen := congrArg List.length h.constants
    rw [List.length_map, List.length_map, Array.length_toList] at hlen
    show (spellings ms).idxOf s < p.constants.size
    rw [hlen]
    exact List.idxOf_lt_length_of_mem (mem_spellings.mpr hm)
  | input slot => exact hinputs slot rfl
  | negate => trivial
  | operator op => cases op <;> trivial
  | call f => trivial

/-- Coded mnemonics climb along their heights, if the declared stack is at least their peak. -/
theorem climbs_coded (h : p.Tabulates ms) {ms' : List Mnemonic} (hsub : ms' ⊆ ms)
    (hinputs : ∀ slot, .input slot ∈ ms → slot < p.inputs) {n : Nat} (hgrounded : Grounded n ms')
    (hpeak : peakFrom n ms' ≤ p.maxStack) :
    p.Climbs n (ms'.map (coded ms)) (heightFrom n ms') := by
  induction ms' generalizing n with
  | nil => exact .nil n
  | cons m ms' ih =>
    obtain ⟨hm, hsub⟩ := List.cons_subset.mp hsub
    have hpeaks : heightAfter n m ≤ p.maxStack ∧ peakFrom (heightAfter n m) ms' ≤ p.maxStack :=
      max_le_iff.mp hpeak
    refine .cons ⟨?_, ⟨m.arity, h.pops?_coded hm, hgrounded.1, rfl⟩, hpeaks.1⟩
      (ih hsub hgrounded.2 hpeaks.2)
    exact h.names_coded hm fun slot hslot => hinputs slot (hslot ▸ hm)

/-- Coded mnemonics climb only within the declared stack. -/
theorem peakFrom_le (h : p.Tabulates ms) {ms' : List Mnemonic} (hsub : ms' ⊆ ms) {n depth : Nat}
    (hclimbs : p.Climbs n (ms'.map (coded ms)) depth) : peakFrom n ms' ≤ p.maxStack := by
  induction ms' generalizing n with
  | nil => exact Nat.zero_le _
  | cons m ms' ih =>
    obtain ⟨hm, hsub⟩ := List.cons_subset.mp hsub
    cases hclimbs with
    | cons first rest =>
      obtain ⟨pops, hpops, -, hmid⟩ := first.pops
      rw [h.pops?_coded hm] at hpops
      cases hpops
      subst hmid
      exact max_le first.room (ih hsub rest)

end Tabulates

/-- The code of a tree passes the check exactly if the declared stack is at least the peak. -/
theorem verify_iff_peakFrom_le {p : Program} {x : Tree} (h : p.Tabulates x.postorder)
    (hcode : p.code.toList = assemble x.postorder)
    (hinputs : ∀ slot, .input slot ∈ x.postorder → slot < p.inputs) :
    p.verify = .ok () ↔ peakFrom 0 x.postorder ≤ p.maxStack := by
  rw [verify_eq_ok_iff, hcode]
  constructor
  · exact h.peakFrom_le (List.Subset.refl _)
  · intro hpeak
    have hclimbs := h.climbs_coded (List.Subset.refl _) hinputs (x.grounded_postorder 0) hpeak
    rwa [Tree.heightFrom_postorder] at hclimbs

end Program

/-- A finished draft has the tables of its mnemonics. -/
theorem Draft.Encodes.tabulates {d : Draft} {ms : List Mnemonic} (h : d.Encodes ms)
    (source : String) (inputs : Nat) : (d.toProgram source inputs).Tabulates ms :=
  ⟨h.pool.values, h.functions⟩

/-- **The parser declares the least stack that passes the check.** -/
theorem verify_iff_of_parse {scope : Scope} {source : String} {p : Program}
    (h : parse scope source = .ok p) (k : Nat) :
    Program.verify { p with maxStack := k } = .ok () ↔ p.maxStack ≤ k := by
  obtain ⟨offset, x, d, -, hx, -, henc, rfl⟩ := encodes_of_parse h
  have htables : Program.Tabulates { d.toProgram source scope.inputs with maxStack := k }
      x.postorder := ⟨henc.pool.values, henc.functions⟩
  rw [Program.verify_iff_peakFrom_le htables henc.code fun slot hm => (hx.stems hm).1]
  show _ ≤ k ↔ d.peak ≤ k
  rw [henc.peak]

/-- Parsed programs pass their check. -/
theorem verify_of_parse {scope : Scope} {source : String} {p : Program}
    (h : parse scope source = .ok p) : p.verify = .ok () :=
  (verify_iff_of_parse h p.maxStack).mpr (Nat.le_refl _)

end Formula
