import Formula.Program.OfFormula
import Formula.Proofs.Interpreting
import Formula.Proofs.Meaning
import Formula.Proofs.Spelling

/-!
# The program of a tree

What the parser makes of an accepted formula depends on the text through its tree alone:
`Tree.program` is the program, field by field, and `parse_eq_ok_iff` says that `parse` gives it
exactly to the texts that are spelled by a derivation with room for it.  Statements about two texts
with one tree, or about a text that was put together, need nothing else of the parser.
-/

namespace Formula

open Mnemonic

/-- The program of a tree: its code in post-order, the tables in the order of first use, and the
least stack. -/
def Tree.program (x : Tree) (source : String) (inputs : Nat) : Program where
  source := source
  inputs := inputs
  maxStack := peakFrom 0 x.postorder
  constants := ((Mnemonic.spellings x.postorder).filterMap Pool.value?).toArray
  functions := (Mnemonic.functions x.postorder).toArray
  code := (assemble x.postorder).toArray

/-- What a draft of a tree becomes. -/
theorem Draft.Encodes.toProgram_eq {d : Draft} {x : Tree} (h : d.Encodes x.postorder)
    (source : String) (inputs : Nat) : d.toProgram source inputs = x.program source inputs := by
  have hconstants : d.pool.values =
      ((Mnemonic.spellings x.postorder).filterMap Pool.value?).toArray := by
    have hvalues := congrArg (List.filterMap id) h.pool.values
    rw [List.filterMap_map, List.filterMap_map, Function.id_comp, Function.id_comp,
      List.filterMap_some] at hvalues
    rw [← hvalues, Array.toArray_toList]
  have hfunctions : d.functions.entries = (Mnemonic.functions x.postorder).toArray := by
    rw [← h.functions, Array.toArray_toList]
  have hcode : d.code = (assemble x.postorder).toArray := by rw [← h.code, Array.toArray_toList]
  simp only [toProgram, Tree.program, h.peak, hconstants, hfunctions, hcode]

/-- The constants of a derived tree have values, so that only their number matters. -/
theorem fits_of_derives {scope : Scope} {source : String} {x : Tree}
    (hx : Derives scope .expr (lexemes source) x) (hroom : x.spellings.toFinset.card ≤ 65536) :
    Fits x.postorder := by
  refine ⟨x.length_spellings ▸ hroom, fun s hs => ?_⟩
  rcases hx.stems (mem_spellings.mp hs) with hnumber | rfl | rfl
  · obtain ⟨t, ht, hlexeme⟩ := List.mem_map.mp hnumber
    exact value?_of_mem_scan ht hlexeme
  · rfl
  · rfl

/-- **What the parser makes of a text.**  It gives the program of a tree to exactly the texts that
are spelled by lexemes from which the tree is derived, with few enough open parentheses and
constants. -/
theorem parse_eq_ok_iff {scope : Scope} {source : String} {p : Program} :
    parse scope source = .ok p ↔
      ∃ ls x, Spells source.toList ls [] ∧ Derives scope .expr ls x ∧ NestsWithin 256 ls ∧
        x.spellings.toFinset.card ≤ 65536 ∧ p = x.program source scope.inputs := by
  constructor
  · intro h
    obtain ⟨offset, x, d, hend, hx, hnests, henc, rfl⟩ := encodes_of_parse h
    exact ⟨lexemes source, x, (spells_of_scan hend).1, hx, hnests,
      x.length_spellings ▸ henc.fits.1, henc.toProgram_eq source scope.inputs⟩
  · rintro ⟨ls, x, hspells, hx, hnests, hroom, rfl⟩
    obtain ⟨rfl, hend⟩ := scan_of_spells hspells
    obtain ⟨p, hp⟩ := exists_parse hend hx hnests (fits_of_derives hx hroom)
    obtain ⟨_, y, d, -, hy, -, henc, rfl⟩ := encodes_of_parse hp
    obtain rfl := hy.unique hx
    rw [hp, henc.toProgram_eq source scope.inputs]

/-- A formula over numbered inputs is parsed if instructions can reach the inputs. -/
theorem Program.ofFormula_eq_ok_iff {source : String} {inputs : Nat} {p : Program} :
    ofFormula source inputs = .ok p ↔
      inputs ≤ 65536 ∧ parse (.numbered inputs) source = .ok p := by
  show (if 65536 < inputs then _ else _) = _ ↔ _
  split
  · simp only [reduceCtorEq, false_iff]
    omega
  · simp only [show inputs ≤ 65536 by omega, true_and]

section Parsed

variable {scope : Scope} {source : String} {x : Tree}

/-- The tables of a parsed program are those of the tree. -/
theorem Tree.tabulates_of_parse (h : parse scope source = .ok (x.program source scope.inputs))
    (hx : Derives scope .expr (lexemes source) x) :
    (x.program source scope.inputs).Tabulates x.postorder := by
  obtain ⟨_, y, d, -, hy, -, henc, hprogram⟩ := encodes_of_parse h
  obtain rfl := hy.unique hx
  rw [hprogram]
  exact henc.tabulates source scope.inputs

/-- The code of a parsed program leaves the value of the tree. -/
theorem Tree.results?_of_parse {α : Type}
    (h : parse scope source = .ok (x.program source scope.inputs))
    (hx : Derives scope .expr (lexemes source) x) (a : Arithmetic α) {point : Array α}
    (hpoint : point.size = scope.inputs) :
    ∃ v, x.value? a point = some v ∧
      (x.program source scope.inputs).results? a point = some [v] := by
  have hinputs : (x.program source scope.inputs).inputs ≤ point.size := Nat.le_of_eq hpoint.symm
  obtain ⟨v, hresults, -⟩ := Machine.evaluateOn_of_verify (verify_of_parse h) a hinputs
  refine ⟨v, ?_, hresults⟩
  have hcode : (x.program source scope.inputs).code.toList =
      x.postorder.map (Program.coded x.postorder) ++ [] := by
    rw [List.append_nil]
    rfl
  rw [Program.results?, hcode,
    (tabulates_of_parse h hx).execute_postorder (List.Subset.refl _)] at hresults
  obtain ⟨w, hw, hexec⟩ := Option.bind_eq_some_iff.mp hresults
  cases hexec
  exact hw

end Parsed

end Formula
