import Formula.Proofs.TreePrograms

/-!
# Parsing undoes rendering

A tree is written with a pair of parentheses around every operator and every argument list, so that
nothing depends on how tightly operators bind.  Reading the text gives the tree back: `parse` makes
the program of the tree, and running the program walks the tree.

The text is taken apart in two steps, with the lexemes `Tree.parenthesized` between them.

* **Characters to lexemes.**  A numeral or a name in a rendering is always followed by a character
  that ends it: a blank, an operator, a comma or a parenthesis.  So the rendering spells its lexemes
  in front of any rest that begins with such a character.
* **Lexemes to the tree.**  Every part of a rendering is a primary, which fits wherever an operand
  is expected.

The parentheses also bound the stack.  An operand that waits for another one waits inside a
parenthesis of its own, so the stack is never deeper than the text nests, by more than one value.
-/

namespace Formula

open Mnemonic

namespace Tree

/-- The text of a tree with all its parentheses, and with a gap on both sides of an operator. -/
def render (gap : String) : Tree → String
  | constant spelling => spelling
  | input slot => Scope.inputName slot
  | sign negative x => "(" ++ (if negative then "-" else "+") ++ x.render gap ++ ")"
  | binary op x y =>
    "(" ++ x.render gap ++ gap ++ op.symbol.toString ++ gap ++ y.render gap ++ ")"
  | call₁ f _ x => f.spelling ++ "(" ++ x.render gap ++ ")"
  | call₂ f _ x y => f.spelling ++ "(" ++ x.render gap ++ ", " ++ y.render gap ++ ")"

/-- The lexemes of a tree with all its parentheses. -/
def parenthesized : Tree → List Lexeme
  | constant spelling => [.number spelling]
  | input slot => [.name (Scope.inputName slot)]
  | sign negative x =>
    .openParen :: .operator (if negative then .minus else .plus) ::
      (x.parenthesized ++ [.closeParen])
  | binary op x y =>
    .openParen :: (x.parenthesized ++ .operator op :: (y.parenthesized ++ [.closeParen]))
  | call₁ f _ x => .name f.spelling :: .openParen :: (x.parenthesized ++ [.closeParen])
  | call₂ f _ x y =>
    .name f.spelling :: .openParen ::
      (x.parenthesized ++ .comma :: (y.parenthesized ++ [.closeParen]))

/-- How many parentheses lie in each other. -/
def nesting : Tree → Nat
  | constant _ | input _ => 0
  | sign _ x | call₁ _ _ x => x.nesting + 1
  | binary _ x y | call₂ _ _ x y => max x.nesting y.nesting + 1

end Tree

/-! ## From characters to lexemes -/

/-- After a gap as well, the next lexeme ends what stands before the gap. -/
theorem Lexeme.separates_head {bs cs : List Char} (hbs : ∀ c ∈ bs, Text.isBlank c = true)
    (hcs : ∀ c ∈ cs.head?, Lexeme.separates c = true) :
    ∀ c ∈ (bs ++ cs).head?, Lexeme.separates c = true := by
  cases bs with
  | nil => exact hcs
  | cons b bs =>
    intro c hc
    obtain rfl : b = c := by simpa using hc
    exact Lexeme.separates_of_isBlank (hbs b (by simp))

/-- A closing parenthesis ends what stands before it. -/
theorem Lexeme.separates_close (cs : List Char) :
    ∀ c ∈ (")".toList ++ cs).head?, Lexeme.separates c = true := by
  intro c hc
  obtain rfl : ')' = c := by simpa using hc
  decide

theorem Spells.closeParen {cs rest : List Char} {ls : List Lexeme}
    (h : Spells cs ls (")".toList ++ rest)) :
    Spells (cs ++ ")".toList) (ls ++ [.closeParen]) rest :=
  h.trans (Spells.lexeme (l := .closeParen) trivial (.nil rest))

theorem FunctionName.stands_spelling (f : FunctionName) : (Lexeme.name f.spelling).Stands none :=
  ⟨by cases f <;> decide, by simp⟩

namespace Tree

variable {gap : String} {x : Tree}

theorem mem_spellings {s : String} : s ∈ x.spellings ↔ .constant s ∈ x.postorder := by
  rw [← Mnemonic.mem_spellings, Mnemonic.spellings, List.mem_eraseDups, spellings]

/-- What is loaded under a sign is loaded by the whole. -/
theorem postorder_subset_sign (negative : Bool) (x : Tree) :
    x.postorder ⊆ (sign negative x).postorder := by
  cases negative with
  | false => exact List.Subset.refl _
  | true => exact List.subset_append_left ..

theorem postorder_subset_left (y : List Mnemonic) (m : Mnemonic) :
    x.postorder ⊆ x.postorder ++ y ++ [m] := fun m' hm => by simp [hm]

theorem postorder_subset_right (y : List Mnemonic) (m : Mnemonic) :
    x.postorder ⊆ y ++ x.postorder ++ [m] := fun m' hm => by simp [hm]

/-- The name of a function and the parenthesis after it. -/
theorem spells_opening (f : FunctionName) {cs rest : List Char} {ls : List Lexeme}
    (h : Spells cs ls rest) :
    Spells (f.spelling.toList ++ ("(".toList ++ cs)) (.name f.spelling :: .openParen :: ls) rest :=
  Spells.lexeme (l := .name f.spelling) (f.stands_spelling.separated (by decide))
    (Spells.lexeme (l := .openParen) trivial h)

/-- **A rendering spells its lexemes,** in front of what ends the last of them. -/
theorem spells_render (hgap : ∀ c ∈ gap.toList, Text.isBlank c = true)
    (hnumerals : ∀ s, .constant s ∈ x.postorder → Numeral.Ends s.toList none) (rest : List Char)
    (hrest : ∀ c ∈ rest.head?, Lexeme.separates c = true) :
    Spells (x.render gap).toList x.parenthesized rest := by
  induction x generalizing rest with
  | constant s =>
    exact .single (l := .number s) (hnumerals s (List.mem_singleton_self _)) hrest
  | input slot =>
    exact .single (l := .name (Scope.inputName slot)) ⟨Scope.isName_inputName slot, by simp⟩ hrest
  | sign negative x ih =>
    have hx := ih (fun s hs => hnumerals s (postorder_subset_sign negative x hs)) _
      (Lexeme.separates_close rest)
    simp only [render, parenthesized, String.toList_append, List.append_assoc]
    cases negative with
    | false =>
      exact Spells.lexeme (l := .openParen) trivial
        (Spells.lexeme (l := .operator .plus) trivial hx.closeParen)
    | true =>
      exact Spells.lexeme (l := .openParen) trivial
        (Spells.lexeme (l := .operator .minus) trivial hx.closeParen)
  | binary op x y ihx ihy =>
    have hy := ihy (fun s hs => hnumerals s (postorder_subset_right _ _ hs)) _
      (Lexeme.separates_close rest)
    have hop := (Spells.blanks hgap _).trans
      (Spells.lexeme (l := .operator op) trivial ((Spells.blanks hgap _).trans hy.closeParen))
    -- the gap ends the left operand, or the operator if there is no gap
    have hx := ihx (fun s hs => hnumerals s (postorder_subset_left _ _ hs))
      (gap.toList ++ (op.symbol.toString.toList ++ (gap.toList ++
        ((y.render gap).toList ++ (")".toList ++ rest)))))
      (Lexeme.separates_head hgap (by simpa using Lexeme.separates_symbol op))
    simp only [render, parenthesized, String.toList_append, List.append_assoc]
    refine Spells.lexeme (l := .openParen) trivial (Spells.trans ?_ hop)
    simpa using hx
  | call₁ f unary x ih =>
    have hx := ih (fun s hs => hnumerals s (List.subset_append_left _ _ hs)) _
      (Lexeme.separates_close rest)
    simp only [render, parenthesized, String.toList_append, List.append_assoc]
    exact spells_opening f hx.closeParen
  | call₂ f pair x y ihx ihy =>
    have hy := ihy (fun s hs => hnumerals s (postorder_subset_right _ _ hs)) _
      (Lexeme.separates_close rest)
    have hcomma : Spells (", ".toList ++ ((y.render gap).toList ++ ")".toList))
        (.comma :: (y.parenthesized ++ [.closeParen])) rest :=
      Spells.lexeme (l := .comma) trivial (Spells.blank (by decide) hy.closeParen)
    have hx := ihx (fun s hs => hnumerals s (postorder_subset_left _ _ hs))
      (", ".toList ++ ((y.render gap).toList ++ (")".toList ++ rest)))
      (by simp [Lexeme.separates, Text.isNameChar])
    simp only [render, parenthesized, String.toList_append, List.append_assoc]
    refine spells_opening f (Spells.trans ?_ hcomma)
    simpa using hx

end Tree

/-! ## From lexemes to the tree -/

namespace Derives

variable {scope : Scope} {w : List Lexeme} {x : Tree}

theorem power_of_primary (h : Derives scope .primary w x) : Derives scope .power w x :=
  .unsigned (.base h)

theorem product_of_primary (h : Derives scope .primary w x) : Derives scope (.product true) w x :=
  .firstFactor (.bare h.power_of_primary)

theorem expr_of_primary (h : Derives scope .primary w x) : Derives scope .expr w x :=
  .firstProduct h.product_of_primary

end Derives

namespace Tree

variable {scope : Scope} {x : Tree}

/-- **A rendering is a primary with the tree of its own.** -/
theorem derives_parenthesized (hnames : scope.names = [])
    (hslots : ∀ slot, .input slot ∈ x.postorder → scope.Reaches slot) :
    Derives scope .primary x.parenthesized x := by
  induction x with
  | constant s => exact .number s
  | input slot =>
    refine .input (Scope.ofSpelling?_inputName slot) (Scope.denotes_inputName ?_ ?_)
    · rw [hnames]
      exact List.not_mem_nil
    · exact hslots slot (List.mem_singleton_self _)
  | sign negative x ih =>
    have hx := ih fun slot hm => hslots slot (postorder_subset_sign negative x hm)
    have hsigned : Derives scope .factor
        (.operator (if negative then .minus else .plus) :: x.parenthesized) (.sign negative x) := by
      cases negative <;> exact .signed rfl hx.power_of_primary
    exact .group (.firstProduct (.firstFactor hsigned))
  | binary op x y ihx ihy =>
    have hx := ihx fun slot hm => hslots slot (postorder_subset_left _ _ hm)
    have hy := ihy fun slot hm => hslots slot (postorder_subset_right _ _ hm)
    have hinner : Derives scope .expr (x.parenthesized ++ .operator op :: y.parenthesized)
        (.binary op x y) := by
      cases op with
      | plus | minus => exact .plus rfl hx.expr_of_primary (.firstPower hy.power_of_primary)
      | star | slash =>
        exact .firstProduct (.times rfl hx.product_of_primary (.bare hy.power_of_primary))
      | caret => exact .firstProduct (.firstFactor (.bare (.unsigned (.raise (.base hx) hy))))
    simpa [parenthesized] using Derives.group hinner
  | call₁ f unary x ih =>
    have hx := ih fun slot hm => hslots slot (List.subset_append_left _ _ hm)
    exact .call₁ f unary hx.expr_of_primary
  | call₂ f pair x y ihx ihy =>
    have hx := ihx fun slot hm => hslots slot (postorder_subset_left _ _ hm)
    have hy := ihy fun slot hm => hslots slot (postorder_subset_right _ _ hm)
    exact .call₂ f pair hx.expr_of_primary hy.expr_of_primary

/-! ## Parentheses and the stack -/

/-- A rendering nests as deep as its tree, and closes what it opens. -/
theorem nestsFrom_parenthesized (x : Tree) (k n : Nat) (w : List Lexeme) :
    NestsFrom k n (x.parenthesized ++ w) ↔ k + x.nesting ≤ n ∧ NestsFrom k n w := by
  induction x generalizing k w with
  | constant s =>
    rw [parenthesized, List.singleton_append, nestsFrom_flat (by simp) (by simp), nesting]
    exact ⟨fun h => ⟨h.le, h⟩, And.right⟩
  | input slot =>
    rw [parenthesized, List.singleton_append, nestsFrom_flat (by simp) (by simp), nesting]
    exact ⟨fun h => ⟨h.le, h⟩, And.right⟩
  | sign negative x ih =>
    rw [parenthesized, List.cons_append, List.cons_append, List.append_assoc, nestsFrom_open,
      nestsFrom_flat (by simp) (by simp), ih, List.singleton_append, nestsFrom_close, nesting,
      ← and_assoc, ← and_assoc]
    exact and_congr_left fun _ => by omega
  | binary op x y ihx ihy =>
    rw [parenthesized, List.cons_append, List.append_assoc, List.cons_append, List.append_assoc,
      nestsFrom_open, ihx, nestsFrom_flat (by simp) (by simp), ihy, List.singleton_append,
      nestsFrom_close, nesting, ← and_assoc, ← and_assoc, ← and_assoc]
    exact and_congr_left fun _ => by omega
  | call₁ f unary x ih =>
    rw [parenthesized, List.cons_append, List.cons_append, List.append_assoc,
      nestsFrom_flat (by simp) (by simp), nestsFrom_open, ih, List.singleton_append,
      nestsFrom_close, nesting, ← and_assoc, ← and_assoc]
    exact and_congr_left fun _ => by omega
  | call₂ f pair x y ihx ihy =>
    rw [parenthesized, List.cons_append, List.cons_append, List.append_assoc, List.cons_append,
      List.append_assoc, nestsFrom_flat (by simp) (by simp), nestsFrom_open, ihx,
      nestsFrom_flat (by simp) (by simp), ihy, List.singleton_append, nestsFrom_close, nesting,
      ← and_assoc, ← and_assoc, ← and_assoc]
    exact and_congr_left fun _ => by omega

/-- The stack of a tree is at most one value deeper than its rendering nests. -/
theorem peakFrom_postorder_le (x : Tree) (n : Nat) :
    peakFrom n x.postorder ≤ n + 1 + x.nesting := by
  induction x generalizing n with
  | constant s => simp [postorder, peakFrom, heightAfter, arity, nesting]
  | input slot => simp [postorder, peakFrom, heightAfter, arity, nesting]
  | sign negative x ih =>
    have hx := ih n
    cases negative with
    | false =>
      simp only [postorder, nesting]
      omega
    | true =>
      simp only [postorder, nesting, peakFrom_append, peakFrom, heightFrom_postorder, heightAfter,
        arity]
      omega
  | binary op x y ihx ihy =>
    have hx := ihx n
    have hy := ihy (n + 1)
    simp only [postorder, nesting, peakFrom_append, peakFrom, heightFrom_append,
      heightFrom_postorder, heightAfter, arity]
    omega
  | call₁ f unary x ih =>
    have hx := ih n
    simp only [postorder, nesting, peakFrom_append, peakFrom, heightFrom_postorder, heightAfter,
      arity, unary]
    omega
  | call₂ f pair x y ihx ihy =>
    have hx := ihx n
    have hy := ihy (n + 1)
    simp only [postorder, nesting, peakFrom_append, peakFrom, heightFrom_append,
      heightFrom_postorder, heightAfter, arity, pair]
    omega

end Tree

/-- **Parsing undoes rendering.**  A tree whose numerals are numerals and whose inputs are declared,
written with all its parentheses, is accepted if the text does not nest too deeply and has not too
many constants.  The code of the program is the tree in post-order, with the tables of what the tree
uses, and at every point of the right length interpreting it gives the value of the tree. -/
theorem ofFormula_render {gap : String} {x : Tree} {inputs : Nat}
    (hgap : ∀ c ∈ gap.toList, Text.isBlank c = true)
    (hnumerals : ∀ s ∈ x.spellings, lexemes s = [.number s])
    (hslots : ∀ slot, .input slot ∈ x.postorder → slot < inputs) (hinputs : inputs ≤ 65536)
    (hnests : NestsWithin 256 (lexemes (x.render gap)))
    (hroom : x.spellings.toFinset.card ≤ 65536) :
    ∃ p, Program.ofFormula (x.render gap) inputs = .ok p ∧
      p.code.toList = assemble x.postorder ∧
      p.constants.toList.map some = (Mnemonic.spellings x.postorder).map Pool.value? ∧
      p.functions.toList = Mnemonic.functions x.postorder ∧
      ∀ (α : Type) (a : Arithmetic α) (point : Array α), point.size = inputs →
        ∃ v, x.value? a point = some v ∧ Machine.interpret a p point = .ok v := by
  have hspells : Spells (x.render gap).toList x.parenthesized [] := by
    refine x.spells_render hgap (fun s hs => ?_) [] (by simp)
    exact Numeral.ends_of_lexemes (hnumerals s (Tree.mem_spellings.mpr hs))
  have hlexemes : lexemes (x.render gap) = x.parenthesized := (scan_of_spells hspells).1
  have hprimary : Derives (.numbered inputs) .primary x.parenthesized x := by
    refine Tree.derives_parenthesized rfl fun slot hm => ⟨hslots slot hm, ?_⟩
    have hslot := hslots slot hm
    omega
  have hderives := hprimary.expr_of_primary
  rw [hlexemes] at hnests
  have hparse : parse (.numbered inputs) (x.render gap) = .ok (x.program (x.render gap) inputs) :=
    parse_eq_ok_iff.mpr ⟨_, x, hspells, hderives, hnests, hroom, rfl⟩
  rw [← hlexemes] at hderives
  have htables := Tree.tabulates_of_parse hparse hderives
  refine ⟨_, Program.ofFormula_eq_ok_iff.mpr ⟨hinputs, hparse⟩, rfl, htables.constants,
    htables.functions, fun α a point hpoint => ?_⟩
  obtain ⟨v, hv, hresults⟩ := Tree.results?_of_parse hparse hderives a hpoint
  refine ⟨v, hv, ?_⟩
  have hstack : (x.program (x.render gap) inputs).maxStack * 8 ≤ 2 ^ 63 - 1 := by
    have hdeep := (x.nestsFrom_parenthesized 0 256 []).mp
      (by rw [List.append_nil]; exact nestsFrom_zero.mpr hnests)
    have hpeak := x.peakFrom_postorder_le 0
    show peakFrom 0 x.postorder * 8 ≤ _
    omega
  rw [Machine.interpret_eq_ite (verify_of_parse hparse) (Nat.le_of_eq hpoint.symm) hresults,
    if_pos (.inr hstack)]

/-- A tree whose numerals come to stand next to signs and points. -/
def Tree.crowded : Tree :=
  .call₂ .max rfl (.sign true (.constant "1e-3"))
    (.binary .caret (.input 1) (.binary .minus (.constant "2.") (.constant ".5")))

theorem ofFormula_render_crowded :
    Tree.crowded.render "" = "max((-1e-3), (x1^(2.-.5)))" ∧
      ∃ p, Program.ofFormula (Tree.crowded.render "") 2 = .ok p ∧
        p.code.toList = [.loadConst 0, .neg, .loadInput 1, .loadConst 1, .loadConst 2, .sub, .pow,
          .call 0] ∧
        ∀ x y : Float, ∃ v, Tree.crowded.value? .float #[x, y] = some v ∧
          Machine.interpret .float p #[x, y] = .ok v := by
  have hnumerals : ∀ s ∈ Tree.crowded.spellings, lexemes s = [.number s] := by decide +kernel
  have hslots : ∀ slot, .input slot ∈ Tree.crowded.postorder → slot < 2 := by
    intro slot hm
    obtain rfl : slot = 1 := by simpa [Tree.crowded, Tree.postorder] using hm
    decide
  have hnests : NestsWithin 256 (lexemes (Tree.crowded.render "")) := by
    have hlexemes : lexemes (Tree.crowded.render "") = Tree.crowded.parenthesized ++ [] := by
      decide +kernel
    rw [hlexemes, ← nestsFrom_zero, Tree.nestsFrom_parenthesized]
    exact ⟨by decide, fun u hu => by simp [List.prefix_nil.mp hu]⟩
  obtain ⟨p, hp, hcode, -, -, hvalue⟩ :=
    @ofFormula_render "" Tree.crowded 2 (by simp) hnumerals hslots (by decide) hnests (by decide)
  exact ⟨by decide +kernel, p, hp, hcode.trans (by decide +kernel),
    fun x y => hvalue Float .float #[x, y] rfl⟩

end Formula
