import Formula.Proofs.Tables

/-!
# Writing code

A draft holds code, a pool of constants, a table of functions and two counters.  `Draft.Encodes`
says all of it at once, of a list of mnemonics: the code is their assembly, the tables hold what
they use in the order of first use, and the counters are the height of the stack after them and its
peak.

Everything the parser writes appends mnemonics.

* A constant needs its spelling to have a value, and a place in the pool if it is new.  `Fits` is
  the condition on the mnemonics written so far, and the only one that a formula can break.
* An operator or a call finds its operands when the height says so.
-/

namespace Formula

namespace Mnemonic

/-- The constants have values and there is room for them. -/
def Fits (ms : List Mnemonic) : Prop :=
  (spellings ms).length ≤ Pool.capacity ∧ ∀ s ∈ spellings ms, (Pool.value? s).isSome = true

/-- What is written later does not make room. -/
theorem Fits.of_isPrefix {ms ms' : List Mnemonic} (h : Fits ms') (hms : ms <+: ms') : Fits ms := by
  obtain ⟨more, rfl⟩ := hms
  have hspellings := spellings_isPrefix ms more
  exact ⟨Nat.le_trans hspellings.length_le h.1, fun s hs => h.2 s (hspellings.subset hs)⟩

end Mnemonic

/-- The mnemonics of a waiting operator. -/
def WaitingOp.mnemonics : WaitingOp → List Mnemonic
  | sign false => []
  | sign true => [.negate]
  | binary op => [.operator op]

/-- How many operands a waiting operator takes. -/
def WaitingOp.arity : WaitingOp → Nat
  | sign _ => 1
  | binary _ => 2

/-- A draft is what mnemonics come to. -/
structure Draft.Encodes (d : Draft) (ms : List Mnemonic) : Prop where
  pool : d.pool.Holds (Mnemonic.spellings ms)
  functions : d.functions.entries.toList = Mnemonic.functions ms
  code : d.code.toList = Mnemonic.assemble ms
  depth : d.depth = Mnemonic.heightFrom 0 ms
  peak : d.peak = Mnemonic.peakFrom 0 ms

namespace Draft

open Mnemonic

theorem encodes_empty : empty.Encodes [] := ⟨Pool.holds_empty, rfl, rfl, rfl, rfl⟩

namespace Encodes

variable {d : Draft} {ms : List Mnemonic}

/-- What has been written fits. -/
theorem fits (h : d.Encodes ms) : Fits ms := by
  refine ⟨h.pool.room, fun s hs => ?_⟩
  have hv : Pool.value? s ∈ (spellings ms).map Pool.value? := List.mem_map_of_mem hs
  rw [← h.pool.values] at hv
  obtain ⟨x, -, hx⟩ := List.mem_map.mp hv
  rw [← hx]
  rfl

/-- One more mnemonic, with tables that have what it needs. -/
theorem concat (h : d.Encodes ms) {m : Mnemonic} {pool : Pool} {functions : FunctionTable}
    {i : Instruction} {depth peak : Nat} (hpool : pool.Holds (spellings (ms ++ [m])))
    (hfun : functions.entries.toList = Mnemonic.functions (ms ++ [m]))
    (hi : i = m.instruction (spellings (ms ++ [m])) (Mnemonic.functions (ms ++ [m])))
    (hdepth : depth = heightAfter d.depth m) (hpeak : peak = max d.peak depth) :
    Encodes ⟨pool, functions, d.code.push i, depth, peak⟩ (ms ++ [m]) where
  pool := hpool
  functions := hfun
  code := by rw [Array.toList_push, h.code, assemble_concat, hi]
  depth := by rw [hdepth, h.depth, heightFrom_append]; rfl
  peak := by rw [hpeak, hdepth, h.peak, h.depth, peakFrom_concat]

/-- A mnemonic that refers to no table and finds its operands. -/
theorem reduce (h : d.Encodes ms) (m : Mnemonic) (i : Instruction) (arity : Nat)
    (hs : m.spelling? = none) (hf : m.function? = none)
    (hi : ∀ cs fs, m.instruction cs fs = i) (harity : m.arity = arity) (hpos : 0 < arity)
    (henough : arity ≤ heightFrom 0 ms) :
    ∃ d', d.reduce? i arity = some d' ∧ d'.Encodes (ms ++ [m]) := by
  have hdepth : arity ≤ d.depth := h.depth ▸ henough
  have hpeak : d.depth ≤ d.peak := by
    rw [h.depth, h.peak]
    exact heightFrom_le_peakFrom ms
  refine ⟨_, if_neg (Nat.not_lt.mpr hdepth), ?_⟩
  refine h.concat ?_ ?_ (hi _ _).symm ?_ ?_
  · rw [spellings_concat ms hs]
    exact h.pool
  · rw [functions_concat ms hf]
    exact h.functions
  · rw [heightAfter, harity]
  · exact (Nat.max_eq_left (by omega)).symm

/-- Loading an input. -/
theorem loadInput (h : d.Encodes ms) (slot : Nat) :
    (d.loadInput slot).Encodes (ms ++ [.input slot]) := by
  refine h.concat ?_ ?_ rfl ?_ rfl
  · rw [spellings_concat ms rfl]
    exact h.pool
  · rw [functions_concat ms rfl]
    exact h.functions
  · rfl

/-- Loading a constant that fits. -/
theorem loadConstant (h : d.Encodes ms) {s : String} (hfits : Fits (ms ++ [.constant s])) :
    ∃ d', d.loadConstant? s = some d' ∧ d'.Encodes (ms ++ [.constant s]) := by
  have hfun : d.functions.entries.toList = Mnemonic.functions (ms ++ [.constant s]) := by
    rw [functions_concat ms rfl]
    exact h.functions
  by_cases hm : s ∈ spellings ms
  · obtain ⟨entry, hintern, hindex⟩ := h.pool.intern_of_mem hm
    refine ⟨_, by simp only [loadConstant?, hintern]; rfl, h.concat ?_ hfun ?_ rfl rfl⟩
    · rw [spellings_constant_of_mem hm]
      exact h.pool
    · rw [spellings_constant_of_mem hm, hindex]
      rfl
  · have hsp := spellings_constant_of_notMem hm
    obtain ⟨hroom, hvalues⟩ := hfits
    rw [hsp, List.length_append, List.length_singleton] at hroom
    obtain ⟨x, hx⟩ := Option.isSome_iff_exists.mp (hvalues s (by rw [hsp]; simp))
    obtain ⟨hintern, hholds⟩ := h.pool.intern_of_notMem hm hx hroom
    refine ⟨_, by simp only [loadConstant?, hintern]; rfl, h.concat ?_ hfun ?_ rfl rfl⟩
    · rw [hsp]
      exact hholds
    · rw [hsp]
      simp [instruction, List.idxOf_append_of_notMem hm]

/-- Loading a constant that does not fit. -/
theorem loadConstant_of_not_fits (h : d.Encodes ms) {s : String}
    (hfits : ¬ Fits (ms ++ [.constant s])) : d.loadConstant? s = none := by
  have hm : s ∉ spellings ms := fun hm => hfits (by
    unfold Fits
    rw [spellings_constant_of_mem hm]
    exact h.fits)
  have hbad : ¬ ((Pool.value? s).isSome = true ∧ (spellings ms).length < Pool.capacity) := by
    rintro ⟨hv, hroom⟩
    refine hfits ⟨?_, ?_⟩
    · rw [spellings_constant_of_notMem hm, List.length_append, List.length_singleton]
      exact hroom
    · rw [spellings_constant_of_notMem hm]
      intro t ht
      rcases List.mem_append.mp ht with ht | ht
      · exact h.fits.2 t ht
      · rw [List.mem_singleton.mp ht]
        exact hv
  simp only [loadConstant?, h.pool.intern_of_not_fits hm hbad]

/-- Writing a waiting operator that finds its operands. -/
theorem emit (h : d.Encodes ms) {w : Waiting} (henough : w.op.arity ≤ heightFrom 0 ms) :
    ∃ d', d.emit w = .ok d' ∧ d'.Encodes (ms ++ w.op.mnemonics) := by
  unfold Draft.emit
  cases hop : w.op with
  | sign negative =>
    rw [hop] at henough
    cases negative with
    | false => exact ⟨d, rfl, by simpa [WaitingOp.mnemonics] using h⟩
    | true =>
      obtain ⟨d', hd, henc⟩ :=
        h.reduce .negate .neg 1 rfl rfl (fun _ _ => rfl) rfl Nat.one_pos henough
      exact ⟨d', by simp only [WaitingOp.instruction?, hd], henc⟩
  | binary op =>
    rw [hop] at henough
    obtain ⟨d', hd, henc⟩ :=
      h.reduce (.operator op) (.ofOperator op) 2 rfl rfl (fun _ _ => rfl) rfl Nat.two_pos henough
    exact ⟨d', by simp only [WaitingOp.instruction?, hd], henc⟩

/-- Writing a call whose arguments are on the stack. -/
theorem emitCall (h : d.Encodes ms) {f : FunctionName} (offset : Nat) {depth : Nat}
    (hdepth : heightFrom 0 ms = depth + f.arity) :
    ∃ d', d.emitCall offset f depth = .ok d' ∧ d'.Encodes (ms ++ [.call f]) := by
  obtain ⟨functions, hintern, hentries⟩ := FunctionTable.intern_functions h.functions f
  have hd : d.depth = depth + f.arity := h.depth.trans hdepth
  have hpeak : d.depth ≤ d.peak := by
    rw [h.depth, h.peak]
    exact heightFrom_le_peakFrom ms
  have hpos := f.arity_pos
  unfold Draft.emitCall
  rw [if_pos hd, hintern]
  simp only [reduce?, if_neg (show ¬ d.depth < f.arity by omega)]
  refine ⟨_, rfl, h.concat ?_ hentries rfl rfl ?_⟩
  · rw [spellings_concat ms rfl]
    exact h.pool
  · exact (Nat.max_eq_left (by omega)).symm

end Encodes

end Draft

end Formula
