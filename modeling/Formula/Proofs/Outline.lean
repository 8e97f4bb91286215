import Formula.Parser
import Formula.Proofs.Grammar

/-!
# Building the tree

An outline is what the parser knows between two tokens, with trees in the place of code: the left
operands of the operators that wait, the arguments that are complete, and the operand that was read
last.  It takes lexemes one at a time, by the same precedence rule as the parser and with none of
its tables, limits and positions, and it says `none` where the parser has an error to report.

`Outline.tree?` reads a whole formula in this way.  The main statement, `tree?_eq_some_iff`, is that
it finds exactly the trees that the grammar derives.  Since it is a function, the grammar derives at
most one tree for a formula.

## Both directions speak of closing

An operator that arrives closes the holes that bind at least as tightly as itself.  `Closes` says
what becomes of an operand and the holes above some of the holes; levels only matter where the
closing stops.

* **What is found is derived.**  `Pending` and `Enclosed` say what has been read so far at the
  innermost level and outside of it.  `Accounts` puts them together, and each lexeme preserves it.
* **What is derived is found.**  From a place where a phrase fits, reading its lexemes leaves an
  operand and holes that close to the tree of the phrase.  The induction is on the derivation.
-/

namespace Formula

/-- What waits for an operand on its right. -/
inductive Hole where
  | sign (negative : Bool)
  | left (op : Operator) (x : Tree)

namespace Hole

/-- The operator that waits. -/
def op : Hole → WaitingOp
  | sign negative => .sign negative
  | left op _ => .binary op

/-- How tightly a hole binds. -/
def level (h : Hole) : Nat := h.op.level

@[simp] theorem level_sign (negative : Bool) : (sign negative).level = 3 := rfl

@[simp] theorem level_caret (x : Tree) : (left .caret x).level = 4 := rfl

/-- The tree of a hole with its operand. -/
def fill : Hole → Tree → Tree
  | sign negative, x => .sign negative x
  | left op y, x => .binary op y x

/-- Whether a sign may follow. -/
def admitsSign : Hole → Bool
  | sign _ => false
  | left op _ => !op.isSign

end Hole

/-- Whether a sign may stand where an operand is expected. -/
def signAllowed (hs : List Hole) : Bool := (hs.head?.map Hole.admitsSign).getD true

/-- An operand put into all the holes, the first one innermost. -/
def closeAll (x : Tree) (hs : List Hole) : Tree := hs.foldl (fun x h => h.fill x) x

/-- An operand put into the holes that bind at least as tightly as a level, and the other holes. -/
def closeAbove (level : Nat) (x : Tree) : List Hole → Tree × List Hole
  | [] => (x, [])
  | h :: hs => if level ≤ h.level then closeAbove level (h.fill x) hs else (x, h :: hs)

/-- An open parenthesis with the holes outside of it, and the argument before a comma. -/
inductive Enclosure where
  | group (outside : List Hole)
  | call (f : FunctionName) (complete : Option Tree) (outside : List Hole)

/-- What was read last: nothing that an operator could follow, a name, or an operand. -/
inductive Focus where
  | operand
  | name (spelling : String)
  | tree (x : Tree)

/-- The tree of a name in the place of an operand. -/
def nameTree? (scope : Scope) (name : String) : Option Tree :=
  match FunctionName.ofSpelling? name with
  | some _ => none
  | none =>
    match scope.resolve name with
    | .ok (.input slot) => some (.input slot)
    | .ok .constant => some (.constant name)
    | .error _ => none

/-- The operand that was read last. -/
def Focus.settle? (scope : Scope) : Focus → Option Tree
  | operand => none
  | name spelling => nameTree? scope spelling
  | tree x => some x

/-- A formula read up to a place. -/
structure Outline where
  focus : Focus
  holes : List Hole
  enclosures : List Enclosure

namespace Outline

/-- Before the first lexeme. -/
def start : Outline := ⟨.operand, [], []⟩

/-- A lexeme where an operand is expected. -/
def operand (o : Outline) : Lexeme → Option Outline
  | .number spelling => some { o with focus := .tree (.constant spelling) }
  | .name spelling => some { o with focus := .name spelling }
  | .openParen => some ⟨.operand, [], .group o.holes :: o.enclosures⟩
  | .operator op =>
    if op.isSign && signAllowed o.holes then
      some { o with holes := .sign (op == .minus) :: o.holes }
    else none
  | .closeParen | .comma => none

/-- A closing parenthesis after a complete expression. -/
def close (x : Tree) : List Enclosure → Option Outline
  | [] => none
  | .group outside :: es => some ⟨.tree x, outside, es⟩
  | .call f none outside :: es =>
    if h : f.arity = 1 then some ⟨.tree (.call₁ f h x), outside, es⟩ else none
  | .call f (some y) outside :: es =>
    if h : f.arity = 2 then some ⟨.tree (.call₂ f h y x), outside, es⟩ else none

/-- A comma after a complete expression. -/
def comma (x : Tree) : List Enclosure → Option Outline
  | .call f none outside :: es =>
    if f.arity = 2 then some ⟨.operand, [], .call f (some x) outside :: es⟩ else none
  | _ => none

/-- A lexeme after an operand. -/
def operator (o : Outline) (x : Tree) : Lexeme → Option Outline
  | .operator op =>
    let (y, hs) := closeAbove (WaitingOp.binary op).level x o.holes
    some ⟨.operand, .left op y :: hs, o.enclosures⟩
  | .closeParen => close (closeAll x o.holes) o.enclosures
  | .comma => comma (closeAll x o.holes) o.enclosures
  | .number _ | .name _ | .openParen => none

/-- One lexeme. -/
def step (scope : Scope) (o : Outline) (l : Lexeme) : Option Outline :=
  match o.focus with
  | .operand => o.operand l
  | .tree x => o.operator x l
  | .name spelling =>
    if l = .openParen then
      (FunctionName.ofSpelling? spelling).map fun f =>
        ⟨.operand, [], .call f none o.holes :: o.enclosures⟩
    else (nameTree? scope spelling).bind fun x => o.operator x l

/-- The end of the formula. -/
def finish (scope : Scope) (o : Outline) : Option Tree :=
  match o.enclosures with
  | [] => (o.focus.settle? scope).map fun x => closeAll x o.holes
  | _ :: _ => none

/-- The tree of a formula. -/
def tree? (scope : Scope) (w : List Lexeme) : Option Tree :=
  (w.foldlM (step scope) start).bind (finish scope)

/-! ## What one lexeme can do -/

/-- The ways in which an outline takes a lexeme.  Where an operand has been read, a name counts as
the operand it stands for. -/
inductive Moves (scope : Scope) : Outline → Lexeme → Outline → Prop
  -- where an operand is expected
  | number (spelling : String) (hs : List Hole) (es : List Enclosure) :
      Moves scope ⟨.operand, hs, es⟩ (.number spelling) ⟨.tree (.constant spelling), hs, es⟩
  | name (spelling : String) (hs : List Hole) (es : List Enclosure) :
      Moves scope ⟨.operand, hs, es⟩ (.name spelling) ⟨.name spelling, hs, es⟩
  | group (hs : List Hole) (es : List Enclosure) :
      Moves scope ⟨.operand, hs, es⟩ .openParen ⟨.operand, [], .group hs :: es⟩
  | sign {op : Operator} {hs : List Hole} (es : List Enclosure) (isSign : op.isSign = true)
      (allowed : signAllowed hs = true) :
      Moves scope ⟨.operand, hs, es⟩ (.operator op) ⟨.operand, .sign (op == .minus) :: hs, es⟩
  -- after the name of a function
  | call (f : FunctionName) (hs : List Hole) (es : List Enclosure) :
      Moves scope ⟨.name f.spelling, hs, es⟩ .openParen ⟨.operand, [], .call f none hs :: es⟩
  -- after an operand
  | binary {focus : Focus} {x : Tree} (settled : focus.settle? scope = some x) (op : Operator)
      (hs : List Hole) (es : List Enclosure) :
      Moves scope ⟨focus, hs, es⟩ (.operator op)
        ⟨.operand, .left op (closeAbove (WaitingOp.binary op).level x hs).1 ::
          (closeAbove (WaitingOp.binary op).level x hs).2, es⟩
  | closeGroup {focus : Focus} {x : Tree} (settled : focus.settle? scope = some x)
      (hs outside : List Hole) (es : List Enclosure) :
      Moves scope ⟨focus, hs, .group outside :: es⟩ .closeParen ⟨.tree (closeAll x hs), outside, es⟩
  | closeCall₁ {focus : Focus} {x : Tree} (settled : focus.settle? scope = some x)
      (f : FunctionName) (unary : f.arity = 1) (hs outside : List Hole) (es : List Enclosure) :
      Moves scope ⟨focus, hs, .call f none outside :: es⟩ .closeParen
        ⟨.tree (.call₁ f unary (closeAll x hs)), outside, es⟩
  | closeCall₂ {focus : Focus} {x : Tree} (settled : focus.settle? scope = some x)
      (f : FunctionName) (pair : f.arity = 2) (y : Tree) (hs outside : List Hole)
      (es : List Enclosure) :
      Moves scope ⟨focus, hs, .call f (some y) outside :: es⟩ .closeParen
        ⟨.tree (.call₂ f pair y (closeAll x hs)), outside, es⟩
  | comma {focus : Focus} {x : Tree} (settled : focus.settle? scope = some x)
      (f : FunctionName) (pair : f.arity = 2) (hs outside : List Hole) (es : List Enclosure) :
      Moves scope ⟨focus, hs, .call f none outside :: es⟩ .comma
        ⟨.operand, [], .call f (some (closeAll x hs)) outside :: es⟩

theorem moves_of_operator {scope : Scope} {focus : Focus} {hs : List Hole} {es : List Enclosure}
    {x : Tree} {l : Lexeme} {o' : Outline} (settled : focus.settle? scope = some x)
    (h : operator ⟨focus, hs, es⟩ x l = some o') : Moves scope ⟨focus, hs, es⟩ l o' := by
  cases l with
  | operator op =>
    cases h
    exact .binary settled op hs es
  | closeParen =>
    simp only [operator] at h
    unfold close at h
    split at h
    · cases h
    · cases h
      exact .closeGroup settled hs _ _
    · split at h
      · cases h
        exact .closeCall₁ settled _ _ hs _ _
      · cases h
    · split at h
      · cases h
        exact .closeCall₂ settled _ _ _ hs _ _
      · cases h
  | comma =>
    simp only [operator] at h
    unfold comma at h
    split at h
    · split at h
      · rename_i pair
        cases h
        exact .comma settled _ pair hs _ _
      · cases h
    · cases h
  | number | name | openParen => cases h

/-- **What one lexeme can do.** -/
theorem moves_of_step {scope : Scope} {o o' : Outline} {l : Lexeme}
    (h : o.step scope l = some o') : Moves scope o l o' := by
  obtain ⟨focus, hs, es⟩ := o
  cases focus with
  | operand =>
    cases l with
    | number spelling => cases h; exact .number spelling hs es
    | name spelling => cases h; exact .name spelling hs es
    | openParen => cases h; exact .group hs es
    | operator op =>
      simp only [step, operand] at h
      split at h
      · rename_i hsign
        rw [Bool.and_eq_true] at hsign
        cases h
        exact .sign es hsign.1 hsign.2
      · cases h
    | closeParen | comma => cases h
  | tree x => exact moves_of_operator rfl h
  | name spelling =>
    by_cases hl : l = .openParen
    · subst hl
      simp only [step, if_true] at h
      obtain ⟨f, hf, rfl⟩ := Option.map_eq_some_iff.mp h
      rw [← FunctionName.spelling_of_ofSpelling? hf]
      exact .call f hs es
    · simp only [step, if_neg hl] at h
      obtain ⟨x, hx, h⟩ := Option.bind_eq_some_iff.mp h
      exact moves_of_operator hx h

end Outline

/-! ## Closing holes -/

/-- An operand and holes become another operand and the last of the holes, and what was filled in
between binds at least as tightly as a level. -/
def Closes (level : Nat) (x : Tree) (hs : List Hole) (y : Tree) (rest : List Hole) : Prop :=
  ∃ top, hs = top ++ rest ∧ (∀ h ∈ top, level ≤ h.level) ∧ closeAll x top = y

namespace Closes

theorem refl (level : Nat) (x : Tree) (hs : List Hole) : Closes level x hs x hs :=
  ⟨[], rfl, by simp, rfl⟩

theorem fill {level : Nat} {x y : Tree} {h : Hole} {hs rest : List Hole} (hl : level ≤ h.level)
    (hc : Closes level (h.fill x) hs y rest) : Closes level x (h :: hs) y rest := by
  obtain ⟨top, rfl, hlevels, hy⟩ := hc
  exact ⟨h :: top, rfl, List.forall_mem_cons.mpr ⟨hl, hlevels⟩, hy⟩

theorem trans {level : Nat} {x y z : Tree} {hs hs' rest : List Hole}
    (h₁ : Closes level x hs y hs') (h₂ : Closes level y hs' z rest) :
    Closes level x hs z rest := by
  obtain ⟨top, rfl, hl, rfl⟩ := h₁
  obtain ⟨top', rfl, hl', rfl⟩ := h₂
  refine ⟨top ++ top', by rw [List.append_assoc], ?_, by rw [closeAll, List.foldl_append]; rfl⟩
  intro h hm
  rcases List.mem_append.mp hm with hm | hm
  · exact hl h hm
  · exact hl' h hm

theorem mono {level level' : Nat} {x y : Tree} {hs rest : List Hole} (hle : level' ≤ level)
    (h : Closes level x hs y rest) : Closes level' x hs y rest := by
  obtain ⟨top, hhs, hl, hy⟩ := h
  exact ⟨top, hhs, fun h hm => Nat.le_trans hle (hl h hm), hy⟩

theorem closeAll_eq {level : Nat} {x y : Tree} {hs : List Hole} (h : Closes level x hs y []) :
    closeAll x hs = y := by
  obtain ⟨top, rfl, -, rfl⟩ := h
  rw [List.append_nil]

/-- A closing that stops at a looser hole is what an arriving operator does. -/
theorem closeAbove_eq {level : Nat} {x y : Tree} {hs rest : List Hole}
    (h : Closes level x hs y rest) (hrest : ∀ h ∈ rest.head?, h.level < level) :
    closeAbove level x hs = (y, rest) := by
  obtain ⟨top, rfl, hl, rfl⟩ := h
  induction top generalizing x with
  | nil =>
    cases rest with
    | nil => rfl
    | cons h rest =>
      have hlt : h.level < level := hrest h (by simp)
      rw [List.nil_append, closeAbove, if_neg (by omega)]
      rfl
  | cons h top ih =>
    rw [List.cons_append, closeAbove, if_pos (hl h (by simp))]
    exact ih fun h' hm => hl h' (List.mem_cons_of_mem _ hm)

end Closes

end Formula
