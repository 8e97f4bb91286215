import Formula.Proofs.Interpreting
import Formula.Proofs.WellFormed

/-!
# The meaning of a formula

A tree has a value at a point, found by walking the tree, and the machine finds a value by running
code.  `execute_postorder` says that the code of a tree pushes the value of the tree, whatever is on
the stack and whatever code follows; the induction is on the tree.  The equation holds for trees
without a value too: then the code has no result.

With `encodes_of_parse` this gives the meaning of a formula: `evaluate_of_parse`.
-/

namespace Formula

open Mnemonic

variable {α : Type}

namespace Program

variable {p : Program} {ms : List Mnemonic} {a : Arithmetic α} {point : Array α} {vs : List α}

/-! ## The effect of a mnemonic -/

theorem effect_negate : p.effect a point vs (coded ms .negate) = replaceTop a.neg vs := rfl

theorem effect_operator (op : Operator) :
    p.effect a point vs (coded ms (.operator op)) = replaceTwo (a.operate op) vs := by
  cases op <;> rfl

theorem Tabulates.effect_constant (h : p.Tabulates ms) {s : String} (hs : .constant s ∈ ms) :
    p.effect a point vs (coded ms (.constant s)) = (Pool.value? s).map (a.const · :: vs) := by
  simp only [coded, instruction, effect, h.getElem?_constants hs]

theorem Tabulates.effect_call (h : p.Tabulates ms) {f : FunctionName} (hf : .call f ∈ ms) :
    p.effect a point vs (coded ms (.call f)) =
      if f.arity = 2 then replaceTwo (a.apply₂ f.builtin) vs
      else replaceTop (a.apply₁ f.builtin) vs := by
  simp only [coded, instruction, effect, h.getElem?_functions hf, Option.bind_some]

/-! ## The code of a tree -/

theorem execute_cons (choose : Choice α) (before : List Instruction) (i : Instruction)
    (code : List Instruction) :
    p.execute choose point before vs (i :: code) =
      (p.effect (choose before i) point vs i).bind fun vs =>
        p.execute choose point (i :: before) vs code := rfl

/-- **The code of a tree pushes the value of the tree.** -/
theorem Tabulates.execute_postorder (h : p.Tabulates ms) {x : Tree} (hsub : x.postorder ⊆ ms)
    (vs : List α) (before code : List Instruction) :
    p.execute (fun _ _ => a) point before vs (x.postorder.map (coded ms) ++ code) =
      (x.value? a point).bind fun v =>
        p.execute (fun _ _ => a) point ((x.postorder.map (coded ms)).reverse ++ before) (v :: vs)
          code := by
  induction x generalizing vs before code with
  | constant s =>
    simp only [Tree.postorder, List.map_singleton, List.singleton_append, execute_cons,
      h.effect_constant (hsub (List.mem_singleton_self _)), Tree.value?]
    cases Pool.value? s <;> rfl
  | input slot =>
    simp only [Tree.postorder, List.map_singleton, List.singleton_append, execute_cons, Tree.value?]
    show (point[slot]?.map (· :: vs)).bind _ = _
    cases point[slot]? <;> rfl
  | sign negative x ih =>
    cases negative with
    | false => exact ih hsub vs before code
    | true =>
      obtain ⟨hx, -⟩ := List.append_subset.mp hsub
      simp only [Tree.postorder, List.map_append, List.append_assoc, List.map_singleton,
        List.reverse_append, List.singleton_append, ih hx, execute_cons, effect_negate,
        Tree.value?]
      cases x.value? a point <;> rfl
  | binary op x y ihx ihy =>
    obtain ⟨hxy, -⟩ := List.append_subset.mp hsub
    obtain ⟨hx, hy⟩ := List.append_subset.mp hxy
    simp only [Tree.postorder, List.map_append, List.append_assoc, List.map_singleton,
      List.reverse_append, List.singleton_append, ihx hx, ihy hy, execute_cons, effect_operator,
      Tree.value?]
    cases x.value? a point <;> cases y.value? a point <;> rfl
  | call₁ f unary x ih =>
    obtain ⟨hx, hf⟩ := List.append_subset.mp hsub
    have harity : ¬ f.arity = 2 := by omega
    simp only [Tree.postorder, List.map_append, List.append_assoc, List.map_singleton,
      List.reverse_append, List.singleton_append, ih hx, execute_cons,
      h.effect_call (hf (List.mem_singleton_self _)), if_neg harity, Tree.value?]
    cases x.value? a point <;> rfl
  | call₂ f pair x y ihx ihy =>
    obtain ⟨hxy, hf⟩ := List.append_subset.mp hsub
    obtain ⟨hx, hy⟩ := List.append_subset.mp hxy
    simp only [Tree.postorder, List.map_append, List.append_assoc, List.map_singleton,
      List.reverse_append, List.singleton_append, ihx hx, ihy hy, execute_cons,
      h.effect_call (hf (List.mem_singleton_self _)), if_pos pair, Tree.value?]
    cases x.value? a point <;> cases y.value? a point <;> rfl

end Program

/-- **The meaning of a formula.**  An accepted formula has one tree.  Its program is the code of the
tree in post-order, with the tables of what the tree uses, and at every point of the right length
the machine gives the value that is found by walking the tree.  So does interpreting the program,
if memory has room for its stack at eight bytes for each cell. -/
theorem evaluate_of_parse {scope : Scope} {source : String} {p : Program}
    (h : parse scope source = .ok p) :
    ∃ tree, Derives scope .expr (lexemes source) tree ∧
      (∀ other, Derives scope .expr (lexemes source) other → other = tree) ∧
      p.code.toList = assemble tree.postorder ∧
      p.constants.toList.map some = (spellings tree.postorder).map Pool.value? ∧
      p.functions.toList = Mnemonic.functions tree.postorder ∧
      ∀ (α : Type) (a : Arithmetic α) (point : Array α), point.size = scope.inputs →
        ∃ v, tree.value? a point = some v ∧ Machine.evaluate a p point = .ok v ∧
          (p.maxStack * 8 ≤ 2 ^ 63 - 1 → Machine.interpret a p point = .ok v) := by
  have hverify := verify_of_parse h
  obtain ⟨offset, x, d, -, hx, -, henc, rfl⟩ := encodes_of_parse h
  have htables := henc.tabulates source scope.inputs
  refine ⟨x, hx, fun other hother => hother.unique hx, henc.code, htables.constants,
    htables.functions, fun α a point hpoint => ?_⟩
  have hinputs : (d.toProgram source scope.inputs).inputs ≤ point.size := Nat.le_of_eq hpoint.symm
  obtain ⟨v, hexec, heval⟩ :=
    Machine.evaluateBy_of_verify hverify (fun _ _ => a) hinputs (a.const .zero)
  rw [Machine.evaluateBy_eq_evaluate fun _ _ _ _ => rfl] at heval
  have hinterpret : (d.toProgram source scope.inputs).maxStack * 8 ≤ 2 ^ 63 - 1 →
      Machine.interpret a (d.toProgram source scope.inputs) point = .ok v := fun hroom => by
    rw [Machine.interpret_eq_evaluate, if_pos (Machine.hasRow_iff.mpr (.inr hroom)), heval]
  refine ⟨v, ?_, heval, hinterpret⟩
  have hcode : (d.toProgram source scope.inputs).code.toList =
      x.postorder.map (Program.coded x.postorder) ++ [] := by
    rw [List.append_nil]
    exact henc.code
  rw [hcode, htables.execute_postorder (List.Subset.refl _)] at hexec
  obtain ⟨w, hw, hexec⟩ := Option.bind_eq_some_iff.mp hexec
  cases hexec
  exact hw

/-- Signed exponents take the whole power after them, and a sign in front the whole power too. -/
theorem evaluate_of_parse_signed :
    ∃ p, parse ⟨3, []⟩ "x0^-x1^-max(x2,x0)*-x1^x2" = .ok p ∧
      p.code.toList = [.loadInput 0, .loadInput 1, .loadInput 2, .loadInput 0, .call 0, .neg, .pow,
        .neg, .pow, .loadInput 1, .loadInput 2, .pow, .neg, .mul] ∧
      ∃ tree, Derives ⟨3, []⟩ .expr (lexemes "x0^-x1^-max(x2,x0)*-x1^x2") tree ∧
        p.code.toList = assemble tree.postorder ∧
        ∀ x y z : Float, ∃ v, tree.value? .float #[x, y, z] = some v ∧
          Machine.evaluate .float p #[x, y, z] = .ok v ∧
          Machine.interpret .float p #[x, y, z] = .ok v := by
  have hstack : (parse ⟨3, []⟩ "x0^-x1^-max(x2,x0)*-x1^x2").toOption.map (·.maxStack) = some 4 := by
    decide +kernel
  have hcode : (parse ⟨3, []⟩ "x0^-x1^-max(x2,x0)*-x1^x2").toOption.map (·.code.toList) =
      some [.loadInput 0, .loadInput 1, .loadInput 2, .loadInput 0, .call 0, .neg, .pow, .neg, .pow,
        .loadInput 1, .loadInput 2, .pow, .neg, .mul] := by
    decide +kernel
  cases hparse : parse ⟨3, []⟩ "x0^-x1^-max(x2,x0)*-x1^x2" with
  | error e =>
    rw [hparse] at hcode
    cases hcode
  | ok p =>
    rw [hparse] at hcode hstack
    have hfour : p.maxStack = 4 := Option.some.inj hstack
    obtain ⟨tree, hderives, -, htree, -, -, hvalue⟩ := evaluate_of_parse hparse
    refine ⟨p, rfl, Option.some.inj hcode, tree, hderives, htree, fun x y z => ?_⟩
    obtain ⟨v, htreeValue, hmachine, hinterpret⟩ := hvalue Float .float #[x, y, z] rfl
    exact ⟨v, htreeValue, hmachine, hinterpret (by rw [hfour]; decide)⟩

end Formula
