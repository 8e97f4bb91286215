import Formula.Proofs.Outline

/-!
# Outlines and the grammar

`Outline.tree?` finds exactly the trees that the grammar derives.

## What has been read

At the innermost level, `Pending c w hs` says that the lexemes `w` have been read, that the holes
`hs` wait, and that a phrase of kind `c` is to come next.  Its constructors are the places of the
grammar where an operand can stand, so it also says which holes can lie on each other.  Closing
holes of `Pending` is derivation in reverse: `Pending.close_primary`, `close_factor`, `close_power`
and `close_product` take a phrase that was read to a larger phrase, up to the whole expression.

Outside of it, `Enclosed u es` says that `u` has been read up to the innermost open parenthesis or
the comma after it.
-/

namespace Formula

variable {scope : Scope}

/-! ## Names -/

theorem nameTree?_eq_some_iff {name : String} {x : Tree} :
    nameTree? scope name = some x ↔ Derives scope .primary [.name name] x := by
  unfold nameTree?
  constructor
  · intro h
    cases hf : FunctionName.ofSpelling? name with
    | some f => rw [hf] at h; cases h
    | none =>
      rw [hf] at h
      cases hr : scope.resolve name with
      | error cause => rw [hr] at h; cases h
      | ok operand =>
        rw [hr] at h
        cases operand with
        | input slot => cases h; exact .input hf (Scope.resolve_eq_ok_iff.mp hr)
        | constant => cases h; exact .constant hf (Scope.resolve_eq_ok_iff.mp hr)
  · intro h
    generalize hw : [Lexeme.name name] = w at h
    cases h with
    | constant free means =>
      cases hw
      rw [free, Scope.resolve_eq_ok_iff.mpr means]
    | input free means =>
      cases hw
      rw [free, Scope.resolve_eq_ok_iff.mpr means]
    | number | group | call₁ | call₂ => simp at hw

/-! ## What has been read at the innermost level -/

/-- After the lexemes, with the holes waiting, a phrase of a kind is to come. -/
inductive Pending (scope : Scope) : Phrase → List Lexeme → List Hole → Prop
  | first : Pending scope (.product true) [] []
  | addend {u : List Lexeme} {x : Tree} {op : Operator} (isSign : op.isSign = true)
      (left : Derives scope .expr u x) :
      Pending scope (.product false) (u ++ [.operator op]) [.left op x]
  | firstFactor {w : List Lexeme} {hs : List Hole} (outer : Pending scope (.product true) w hs) :
      Pending scope .factor w hs
  | multiplicand {s : Bool} {w u : List Lexeme} {hs : List Hole} {x : Tree} {op : Operator}
      (isTimes : op.isTimes = true) (outer : Pending scope (.product s) w hs)
      (left : Derives scope (.product s) u x) :
      Pending scope .factor (w ++ (u ++ [.operator op])) (.left op x :: hs)
  | firstPower {w : List Lexeme} {hs : List Hole} (outer : Pending scope (.product false) w hs) :
      Pending scope .power w hs
  | bare {w : List Lexeme} {hs : List Hole} (outer : Pending scope .factor w hs) :
      Pending scope .power w hs
  | signed {w : List Lexeme} {hs : List Hole} {op : Operator} (isSign : op.isSign = true)
      (outer : Pending scope .factor w hs) :
      Pending scope .power (w ++ [.operator op]) (.sign (op == .minus) :: hs)
  | exponent {w u : List Lexeme} {hs : List Hole} {x : Tree} {op : Operator}
      (isSign : op.isSign = true) (outer : Pending scope .power w hs)
      (left : Derives scope .chain u x) :
      Pending scope .power (w ++ (u ++ [.operator .caret, .operator op]))
        (.sign (op == .minus) :: .left .caret x :: hs)
  | base {w : List Lexeme} {hs : List Hole} (outer : Pending scope .power w hs) :
      Pending scope .primary w hs
  | caret {w u : List Lexeme} {hs : List Hole} {x : Tree} (outer : Pending scope .power w hs)
      (left : Derives scope .chain u x) :
      Pending scope .primary (w ++ (u ++ [.operator .caret])) (.left .caret x :: hs)

theorem level_of_isSign {op : Operator} (h : op.isSign = true) :
    (WaitingOp.binary op).level = 1 := by
  cases op <;> first | rfl | cases h

theorem level_of_isTimes {op : Operator} (h : op.isTimes = true) :
    (WaitingOp.binary op).level = 2 := by
  cases op <;> first | rfl | cases h

namespace Pending

/-- An operator of a product does not close what lies under a product. -/
theorem head_product {s : Bool} {w : List Lexeme} {hs : List Hole}
    (h : Pending scope (.product s) w hs) : ∀ h ∈ hs.head?, h.level < 2 := by
  cases h with
  | first => simp
  | addend isSign => simp [Hole.level, Hole.op, level_of_isSign isSign]

/-- A caret does not close what lies under a power. -/
theorem head_power {w : List Lexeme} {hs : List Hole} (h : Pending scope .power w hs) :
    ∀ h ∈ hs.head?, h.level < 4 := by
  cases h with
  | firstPower outer => exact fun h hm => Nat.lt_of_lt_of_le (outer.head_product h hm) (by decide)
  | bare outer =>
    cases outer with
    | firstFactor outer =>
      exact fun h hm => Nat.lt_of_lt_of_le (outer.head_product h hm) (by decide)
    | multiplicand isTimes => simp [Hole.level, Hole.op, level_of_isTimes isTimes]
  | signed => simp
  | exponent => simp

/-! ### Closing -/

/-- A primary is the end of a chain. -/
theorem close_primary {w u : List Lexeme} {hs : List Hole} {x : Tree}
    (h : Pending scope .primary w hs) (hx : Derives scope .primary u x) :
    ∃ w' u' y rest, w ++ u = w' ++ u' ∧ Closes 4 x hs y rest ∧ Pending scope .power w' rest ∧
      Derives scope .chain u' y := by
  cases h with
  | base outer => exact ⟨w, u, x, hs, rfl, .refl .., outer, .base hx⟩
  | @caret w' v hs x' outer left =>
    refine ⟨w', v ++ .operator .caret :: u, .binary .caret x' x, hs, by simp, ?_, outer,
      .raise left hx⟩
    exact Closes.fill (by simp) (.refl ..)

/-- A factor is the end of a product. -/
theorem close_factor {w u : List Lexeme} {hs : List Hole} {x : Tree}
    (h : Pending scope .factor w hs) (hx : Derives scope .factor u x) :
    ∃ s w' u' y rest, w ++ u = w' ++ u' ∧ Closes 2 x hs y rest ∧
      Pending scope (.product s) w' rest ∧ Derives scope (.product s) u' y := by
  cases h with
  | firstFactor outer => exact ⟨true, w, u, x, hs, rfl, .refl .., outer, .firstFactor hx⟩
  | @multiplicand s w' v hs x' op isTimes outer left =>
    refine ⟨s, w', v ++ .operator op :: u, .binary op x' x, hs, by simp, ?_, outer,
      .times isTimes left hx⟩
    exact Closes.fill (level_of_isTimes isTimes).ge (.refl ..)

/-- A power is the end of a product as well, through the signs and exponents it stands in. -/
theorem close_power {w u : List Lexeme} {hs : List Hole} {x : Tree}
    (h : Pending scope .power w hs) (hx : Derives scope .power u x) :
    ∃ s w' u' y rest, w ++ u = w' ++ u' ∧ Closes 2 x hs y rest ∧
      Pending scope (.product s) w' rest ∧ Derives scope (.product s) u' y := by
  generalize hc : Phrase.power = c at h
  induction h generalizing u x with
  | firstPower outer => exact ⟨false, _, u, x, _, rfl, .refl .., outer, .firstPower hx⟩
  | bare outer => exact outer.close_factor (.bare hx)
  | @signed w hs op isSign outer =>
    obtain ⟨s, w', u', y, rest, heq, hcl, hp, hd⟩ := outer.close_factor (.signed isSign hx)
    exact ⟨s, w', u', y, rest, by rw [← heq]; simp, hcl.fill (by simp), hp, hd⟩
  | @exponent w v hs x' op isSign outer left ih =>
    obtain ⟨s, w', u', y, rest, heq, hcl, hp, hd⟩ := ih (.exponent isSign left hx) rfl
    refine ⟨s, w', u', y, rest, by rw [← heq]; simp, ?_, hp, hd⟩
    exact Closes.fill (by simp) (hcl.fill (by simp))
  | first | addend | firstFactor | multiplicand | base | caret => cases hc

/-- A product is the end of the expression. -/
theorem close_product {s : Bool} {w u : List Lexeme} {hs : List Hole} {x : Tree}
    (h : Pending scope (.product s) w hs) (hx : Derives scope (.product s) u x) :
    ∃ y, Closes 1 x hs y [] ∧ Derives scope .expr (w ++ u) y := by
  cases h with
  | first => exact ⟨x, .refl .., .firstProduct hx⟩
  | @addend v x' op isSign left =>
    refine ⟨.binary op x' x, ?_, ?_⟩
    · exact Closes.fill (level_of_isSign isSign).ge (.refl ..)
    · have hd := Derives.plus isSign left hx
      simpa using hd

/-- Up to the product around a primary. -/
theorem close_to_product {w u : List Lexeme} {hs : List Hole} {x : Tree}
    (h : Pending scope .primary w hs) (hx : Derives scope .primary u x) :
    ∃ s w' u' y rest, w ++ u = w' ++ u' ∧ Closes 2 x hs y rest ∧
      Pending scope (.product s) w' rest ∧ Derives scope (.product s) u' y := by
  obtain ⟨w₁, u₁, y₁, hs₁, heq₁, hcl₁, hp₁, hd₁⟩ := h.close_primary hx
  obtain ⟨s, w₂, u₂, y₂, hs₂, heq₂, hcl₂, hp₂, hd₂⟩ := hp₁.close_power (.unsigned hd₁)
  exact ⟨s, w₂, u₂, y₂, hs₂, heq₁.trans heq₂, (hcl₁.mono (by decide)).trans hcl₂, hp₂, hd₂⟩

/-- Up to the expression around a primary. -/
theorem close_to_expr {w u : List Lexeme} {hs : List Hole} {x : Tree}
    (h : Pending scope .primary w hs) (hx : Derives scope .primary u x) :
    ∃ y, Closes 1 x hs y [] ∧ Derives scope .expr (w ++ u) y := by
  obtain ⟨s, w₁, u₁, y₁, hs₁, heq₁, hcl₁, hp₁, hd₁⟩ := h.close_to_product hx
  obtain ⟨y₂, hcl₂, hd₂⟩ := hp₁.close_product hd₁
  exact ⟨y₂, (hcl₁.mono (by decide)).trans hcl₂, heq₁ ▸ hd₂⟩

/-- The whole of the innermost level, when it ends. -/
theorem derives_closeAll {w u : List Lexeme} {hs : List Hole} {x : Tree}
    (h : Pending scope .primary w hs) (hx : Derives scope .primary u x) :
    Derives scope .expr (w ++ u) (closeAll x hs) := by
  obtain ⟨y, hcl, hd⟩ := h.close_to_expr hx
  rwa [hcl.closeAll_eq]

/-! ### Going on -/

/-- A binary operator after a primary. -/
theorem operator {w u : List Lexeme} {hs : List Hole} {x : Tree}
    (h : Pending scope .primary w hs) (hx : Derives scope .primary u x) (op : Operator) :
    Pending scope .primary (w ++ u ++ [.operator op])
      (.left op (closeAbove (WaitingOp.binary op).level x hs).1 ::
        (closeAbove (WaitingOp.binary op).level x hs).2) := by
  by_cases hsum : op.isSign = true
  · obtain ⟨y, hcl, hd⟩ := h.close_to_expr hx
    rw [level_of_isSign hsum, hcl.closeAbove_eq (by simp)]
    exact .base (.firstPower (.addend hsum hd))
  by_cases htimes : op.isTimes = true
  · obtain ⟨s, w', u', y, rest, heq, hcl, hp, hd⟩ := h.close_to_product hx
    rw [level_of_isTimes htimes, hcl.closeAbove_eq hp.head_product, heq, List.append_assoc]
    exact .base (.bare (.multiplicand htimes hp hd))
  · obtain rfl : op = .caret := by
      revert hsum htimes
      cases op <;> simp [Operator.isSign, Operator.isTimes]
    obtain ⟨w', u', y, rest, heq, hcl, hp, hd⟩ := h.close_primary hx
    have hclose : closeAbove (WaitingOp.binary .caret).level x hs = (y, rest) :=
      hcl.closeAbove_eq hp.head_power
    rw [hclose, heq, List.append_assoc]
    exact .caret hp hd

/-- A sign where an operand is expected. -/
theorem sign {w : List Lexeme} {hs : List Hole} (h : Pending scope .primary w hs)
    {op : Operator} (isSign : op.isSign = true) (allowed : signAllowed hs = true) :
    Pending scope .primary (w ++ [.operator op]) (.sign (op == .minus) :: hs) := by
  cases h with
  | base outer =>
    cases outer with
    | bare outer => exact .base (.signed isSign outer)
    | firstPower outer =>
      cases outer with
      | addend isSign' => simp [signAllowed, Hole.admitsSign, isSign'] at allowed
    | signed => simp [signAllowed, Hole.admitsSign] at allowed
    | exponent => simp [signAllowed, Hole.admitsSign] at allowed
  | caret outer left =>
    have hp := Pending.exponent isSign outer left
    simpa using Pending.base hp

end Pending

/-! ## What has been read outside -/

/-- The lexemes up to the innermost open parenthesis, or the comma after it. -/
inductive Enclosed (scope : Scope) : List Lexeme → List Enclosure → Prop
  | top : Enclosed scope [] []
  | group {u w : List Lexeme} {hs : List Hole} {es : List Enclosure}
      (outer : Enclosed scope u es) (pending : Pending scope .primary w hs) :
      Enclosed scope (u ++ (w ++ [.openParen])) (.group hs :: es)
  | call {u w : List Lexeme} {hs : List Hole} {es : List Enclosure} (f : FunctionName)
      (outer : Enclosed scope u es) (pending : Pending scope .primary w hs) :
      Enclosed scope (u ++ (w ++ [.name f.spelling, .openParen])) (.call f none hs :: es)
  | argument {u w v : List Lexeme} {hs : List Hole} {es : List Enclosure} {x : Tree}
      (f : FunctionName) (outer : Enclosed scope u es) (pending : Pending scope .primary w hs)
      (first : Derives scope .expr v x) :
      Enclosed scope (u ++ (w ++ .name f.spelling :: .openParen :: (v ++ [.comma])))
        (.call f (some x) hs :: es)

/-- The lexemes of what was read last. -/
inductive Focus.Spells (scope : Scope) : Focus → List Lexeme → Prop
  | operand : Spells scope .operand []
  | name (spelling : String) : Spells scope (.name spelling) [.name spelling]
  | tree {z : List Lexeme} {x : Tree} (h : Derives scope .primary z x) : Spells scope (.tree x) z

theorem Focus.Spells.settle {focus : Focus} {z : List Lexeme} {x : Tree}
    (h : focus.Spells scope z) (hx : focus.settle? scope = some x) :
    Derives scope .primary z x := by
  cases h with
  | operand => cases hx
  | name spelling => exact nameTree?_eq_some_iff.mp hx
  | tree h => cases hx; exact h

namespace Outline

/-- An outline accounts for the lexemes that have been read. -/
def Accounts (scope : Scope) (o : Outline) (w : List Lexeme) : Prop :=
  ∃ u v z, w = u ++ (v ++ z) ∧ Enclosed scope u o.enclosures ∧
    Pending scope .primary v o.holes ∧ o.focus.Spells scope z

/-- Where an expression begins. -/
theorem pending_nil : Pending scope .primary [] [] := .base (.bare (.firstFactor .first))

theorem accounts_start : start.Accounts scope [] :=
  ⟨[], [], [], rfl, .top, pending_nil, .operand⟩

/-- **One lexeme keeps the account.** -/
theorem accounts_step {o o' : Outline} {w : List Lexeme} {l : Lexeme} (h : o.Accounts scope w)
    (hs : o.step scope l = some o') : o'.Accounts scope (w ++ [l]) := by
  obtain ⟨u, v, z, rfl, henc, hpen, hspell⟩ := h
  cases moves_of_step hs with
  | number spelling =>
    cases hspell
    exact ⟨u, v, _, by simp, henc, hpen, .tree (.number spelling)⟩
  | name spelling =>
    cases hspell
    exact ⟨u, v, _, by simp, henc, hpen, .name spelling⟩
  | group =>
    cases hspell
    exact ⟨u ++ (v ++ [.openParen]), [], [], by simp, .group henc hpen, pending_nil, .operand⟩
  | @sign op _ _ isSign allowed =>
    cases hspell
    exact ⟨u, v ++ [.operator op], [], by simp, henc, hpen.sign isSign allowed, .operand⟩
  | call f =>
    cases hspell
    exact ⟨_, [], [], by simp, .call f henc hpen, pending_nil, .operand⟩
  | binary settled op =>
    exact ⟨u, _, [], by simp, henc, hpen.operator (hspell.settle settled) op, .operand⟩
  | closeGroup settled =>
    have hx := hpen.derives_closeAll (hspell.settle settled)
    cases henc with
    | @group u w _ _ outer pending =>
      exact ⟨u, w, _, by simp, outer, pending, .tree (.group hx)⟩
  | closeCall₁ settled f unary =>
    have hx := hpen.derives_closeAll (hspell.settle settled)
    cases henc with
    | @call u w _ _ _ outer pending =>
      exact ⟨u, w, _, by simp, outer, pending, .tree (.call₁ f unary hx)⟩
  | closeCall₂ settled f pair =>
    have hx := hpen.derives_closeAll (hspell.settle settled)
    cases henc with
    | @argument u w _ _ _ _ _ outer pending first =>
      exact ⟨u, w, _, by simp, outer, pending, .tree (.call₂ f pair first hx)⟩
  | comma settled f =>
    have hx := hpen.derives_closeAll (hspell.settle settled)
    cases henc with
    | call _ outer pending =>
      exact ⟨_, [], [], by simp, .argument f outer pending hx, pending_nil, .operand⟩

/-- A run keeps the account. -/
theorem accounts_run {o o' : Outline} {w u : List Lexeme} (h : o.Accounts scope w)
    (hr : u.foldlM (step scope) o = some o') : o'.Accounts scope (w ++ u) := by
  induction u generalizing o w with
  | nil => cases hr; simpa using h
  | cons l u ih =>
    rw [List.foldlM_cons] at hr
    obtain ⟨o₁, hs, hr⟩ := Option.bind_eq_some_iff.mp hr
    simpa using ih (accounts_step h hs) hr

/-- What is found is derived. -/
theorem derives_of_tree? {w : List Lexeme} {x : Tree} (h : tree? scope w = some x) :
    Derives scope .expr w x := by
  obtain ⟨o, hr, hf⟩ := Option.bind_eq_some_iff.mp h
  obtain ⟨u, v, z, hw, henc, hpen, hspell⟩ := accounts_run accounts_start hr
  unfold finish at hf
  split at hf
  · rename_i hes
    obtain ⟨y, hy, rfl⟩ := Option.map_eq_some_iff.mp hf
    rw [hes] at henc
    cases henc
    rw [List.nil_append, List.nil_append] at hw
    exact hw ▸ hpen.derives_closeAll (hspell.settle hy)
  · cases hf

/-! ## What is derived is found -/

/-- How tightly the holes bind that a phrase leaves open. -/
def level : Phrase → Nat
  | .expr => 1
  | .product _ => 2
  | .factor | .power => 3
  | .chain => 4
  | .primary => 5

/-- Where a phrase can stand: an operator inside of it must not close the holes before it, and a
sign at its front must be allowed. -/
def Fits : Phrase → List Hole → Prop
  | .expr, hs => hs = []
  | .product signed, hs =>
    (∀ h ∈ hs.head?, h.level < 2) ∧ (signed = true → signAllowed hs = true)
  | .factor, hs => (∀ h ∈ hs.head?, h.level < 4) ∧ signAllowed hs = true
  | .power, hs | .chain, hs => ∀ h ∈ hs.head?, h.level < 4
  | .primary, _ => True

/-- Reading lexemes leaves an operand and holes that close to a tree. -/
def Leaves (scope : Scope) (level : Nat) (o : Outline) (w : List Lexeme) (x : Tree) : Prop :=
  ∃ o' y, w.foldlM (step scope) o = some o' ∧ o'.enclosures = o.enclosures ∧
    o'.focus.settle? scope = some y ∧ Closes level y o'.holes x o.holes

/-- After an operand only a parenthesis makes a difference between a name and a tree. -/
theorem step_of_settle {o : Outline} {y : Tree} {l : Lexeme} (hy : o.focus.settle? scope = some y)
    (hl : l ≠ .openParen) : o.step scope l = o.operator y l := by
  unfold step
  cases hf : o.focus with
  | operand => rw [hf] at hy; cases hy
  | tree x =>
    rw [hf] at hy
    cases hy
    rfl
  | name spelling =>
    rw [hf] at hy
    have hname : nameTree? scope spelling = some y := hy
    simp only [if_neg hl, hname, Option.bind_some]

namespace Leaves

variable {k : Nat} {o o' : Outline} {u w : List Lexeme} {x y : Tree}

theorem mono {k' : Nat} (hk : k' ≤ k) (h : Leaves scope k o w x) : Leaves scope k' o w x := by
  obtain ⟨o', y, hr, hes, hy, hc⟩ := h
  exact ⟨o', y, hr, hes, hy, hc.mono hk⟩

/-- A lexeme that is taken in front. -/
theorem cons {l : Lexeme} {z : Tree} (hs : o.step scope l = some o')
    (hes : o'.enclosures = o.enclosures) (hc : Closes k x o'.holes z o.holes)
    (h : Leaves scope k o' w x) : Leaves scope k o (l :: w) z := by
  obtain ⟨o'', y, hr, hes', hy, hc'⟩ := h
  refine ⟨o'', y, ?_, hes'.trans hes, hy, hc'.trans hc⟩
  rw [List.foldlM_cons, hs]
  exact hr

/-- A phrase, then something else. -/
theorem append {z : Tree} {k' : Nat} (h : Leaves scope k' o u x)
    (hnext : ∀ o₁ y, o₁.enclosures = o.enclosures → o₁.focus.settle? scope = some y →
      Closes k' y o₁.holes x o.holes →
      ∃ o' y', w.foldlM (step scope) o₁ = some o' ∧ o'.enclosures = o.enclosures ∧
        o'.focus.settle? scope = some y' ∧ Closes k y' o'.holes z o.holes) :
    Leaves scope k o (u ++ w) z := by
  obtain ⟨o₁, y, hr, hes, hy, hc⟩ := h
  obtain ⟨o', y', hr', hes', hy', hc'⟩ := hnext o₁ y hes hy hc
  refine ⟨o', y', ?_, hes', hy', hc'⟩
  rw [List.foldlM_append, hr]
  exact hr'

/-- A phrase, a binary operator that closes it, and a phrase for its right operand. -/
theorem binary {op : Operator} {m : Nat} (hlevel : (WaitingOp.binary op).level = m) (hk : k ≤ m)
    (hu : Leaves scope m o u x) (hstop : ∀ h ∈ o.holes.head?, h.level < m)
    (hw : Leaves scope k ⟨.operand, .left op x :: o.holes, o.enclosures⟩ w y) :
    Leaves scope k o (u ++ .operator op :: w) (.binary op x y) := by
  subst hlevel
  refine hu.append fun o₁ z hes hz hc => ?_
  obtain ⟨o', y', hr', hes', hy', hc'⟩ := hw
  refine ⟨o', y', ?_, hes', hy', hc'.trans (Closes.fill hk (.refl ..))⟩
  rw [List.foldlM_cons, step_of_settle hz (by simp)]
  simp only [operator, hc.closeAbove_eq hstop, hes]
  exact hr'

/-- A sign and a phrase for its operand. -/
theorem sign {op : Operator} {hs : List Hole} {es : List Enclosure} (hk : k ≤ 3)
    (isSign : op.isSign = true) (allowed : signAllowed hs = true)
    (hw : Leaves scope k ⟨.operand, .sign (op == .minus) :: hs, es⟩ w x) :
    Leaves scope k ⟨.operand, hs, es⟩ (.operator op :: w) (.sign (op == .minus) x) := by
  have hstep : step scope ⟨.operand, hs, es⟩ (.operator op) =
      some ⟨.operand, .sign (op == .minus) :: hs, es⟩ := by
    simp [step, operand, isSign, allowed]
  exact Leaves.cons hstep rfl (Closes.fill hk (.refl ..)) hw

/-- An expression and the parenthesis that closes it, read inside an enclosure. -/
theorem closeParen {e : Enclosure} {es : List Enclosure} {hs : List Hole} {z : Tree}
    (h : Leaves scope 1 ⟨.operand, [], e :: es⟩ w x)
    (hclose : close x (e :: es) = some ⟨.tree z, hs, es⟩) :
    (w ++ [Lexeme.closeParen]).foldlM (step scope) ⟨.operand, [], e :: es⟩ =
      some ⟨.tree z, hs, es⟩ := by
  obtain ⟨o', y, hr, hes, hy, hc⟩ := h
  have hes' : o'.enclosures = e :: es := hes
  rw [List.foldlM_append, hr]
  show List.foldlM (step scope) o' [Lexeme.closeParen] = _
  rw [List.foldlM_cons, step_of_settle hy (by simp)]
  simp only [operator, hc.closeAll_eq, hes', hclose]
  rfl

/-- An expression in parentheses. -/
theorem group {hs : List Hole} {es : List Enclosure}
    (h : Leaves scope 1 ⟨.operand, [], .group hs :: es⟩ w x) :
    Leaves scope k ⟨.operand, hs, es⟩ (.openParen :: (w ++ [.closeParen])) x := by
  refine ⟨⟨.tree x, hs, es⟩, x, ?_, rfl, rfl, .refl ..⟩
  rw [List.foldlM_cons]
  exact h.closeParen rfl

/-- The name of a function and a parenthesis open a call. -/
theorem foldlM_open (f : FunctionName) (hs : List Hole) (es : List Enclosure) (w : List Lexeme) :
    (Lexeme.name f.spelling :: .openParen :: w).foldlM (step scope) ⟨.operand, hs, es⟩ =
      w.foldlM (step scope) ⟨.operand, [], .call f none hs :: es⟩ := by
  have hopen : step scope ⟨.name f.spelling, hs, es⟩ .openParen =
      some ⟨.operand, [], .call f none hs :: es⟩ := by simp [step]
  rw [List.foldlM_cons]
  show List.foldlM (step scope) ⟨.name f.spelling, hs, es⟩ (.openParen :: w) = _
  rw [List.foldlM_cons, hopen]
  rfl

/-- A call with one argument. -/
theorem call₁ {f : FunctionName} (unary : f.arity = 1) {hs : List Hole} {es : List Enclosure}
    (h : Leaves scope 1 ⟨.operand, [], .call f none hs :: es⟩ w x) :
    Leaves scope k ⟨.operand, hs, es⟩ (.name f.spelling :: .openParen :: (w ++ [.closeParen]))
      (.call₁ f unary x) := by
  refine ⟨⟨.tree (.call₁ f unary x), hs, es⟩, _, ?_, rfl, rfl, .refl ..⟩
  have hclose : close x (.call f none hs :: es) = some ⟨.tree (.call₁ f unary x), hs, es⟩ :=
    dif_pos unary
  rw [foldlM_open]
  exact h.closeParen hclose

/-- A call with two arguments.  The comma closes the first one. -/
theorem call₂ {f : FunctionName} (pair : f.arity = 2) {hs : List Hole} {es : List Enclosure}
    (h₁ : Leaves scope 1 ⟨.operand, [], .call f none hs :: es⟩ u x)
    (h₂ : Leaves scope 1 ⟨.operand, [], .call f (some x) hs :: es⟩ w y) :
    Leaves scope k ⟨.operand, hs, es⟩
      (.name f.spelling :: .openParen :: (u ++ .comma :: (w ++ [.closeParen])))
      (.call₂ f pair x y) := by
  refine ⟨⟨.tree (.call₂ f pair x y), hs, es⟩, _, ?_, rfl, rfl, .refl ..⟩
  obtain ⟨o₁, z, hr, hes, hz, hc⟩ := h₁
  have hes' : o₁.enclosures = .call f none hs :: es := hes
  have hcomma : o₁.step scope .comma = some ⟨.operand, [], .call f (some x) hs :: es⟩ := by
    rw [step_of_settle hz (by simp)]
    simp only [operator, hc.closeAll_eq, hes', comma, if_pos pair]
  have hclose : close y (.call f (some x) hs :: es) =
      some ⟨.tree (.call₂ f pair x y), hs, es⟩ := dif_pos pair
  rw [foldlM_open, List.foldlM_append, hr]
  show List.foldlM (step scope) o₁ (.comma :: (w ++ [.closeParen])) = _
  rw [List.foldlM_cons, hcomma]
  exact h₂.closeParen hclose

end Leaves

/-- **Reading a phrase leaves its tree,** up to holes that bind as tightly as the phrase. -/
theorem leaves_of_derives {c : Phrase} {w : List Lexeme} {x : Tree} (h : Derives scope c w x)
    (hs : List Hole) (es : List Enclosure) (fits : Fits c hs) :
    Leaves scope (level c) ⟨.operand, hs, es⟩ w x := by
  induction h generalizing hs es with
  | number spelling => exact ⟨⟨.tree (.constant spelling), hs, es⟩, _, rfl, rfl, rfl, .refl ..⟩
  | @constant name free means =>
    exact ⟨⟨.name name, hs, es⟩, _, rfl, rfl, nameTree?_eq_some_iff.mpr (.constant free means),
      .refl ..⟩
  | @input name slot free means =>
    exact ⟨⟨.name name, hs, es⟩, _, rfl, rfl, nameTree?_eq_some_iff.mpr (.input free means),
      .refl ..⟩
  | @group w x inner ih => exact .group (ih [] (.group hs :: es) rfl)
  | @call₁ w x f unary argument ih => exact .call₁ unary (ih [] (.call f none hs :: es) rfl)
  | @call₂ u w x y f pair first second ih₁ ih₂ =>
    exact .call₂ pair (ih₁ [] (.call f none hs :: es) rfl) (ih₂ [] (.call f (some x) hs :: es) rfl)
  | base inner ih => exact (ih hs es trivial).mono (by decide)
  | @raise u w x y left right ihl ihr =>
    have hfits : ∀ h ∈ hs.head?, h.level < 4 := fits
    have hright : Leaves scope (level .chain) ⟨.operand, .left .caret x :: hs, es⟩ w y :=
      (ihr (.left .caret x :: hs) es trivial).mono (by decide)
    exact .binary rfl (Nat.le_refl _) (ihl hs es hfits) hfits hright
  | unsigned inner ih => exact (ih hs es fits).mono (by decide)
  | @exponent u w x y op isSign left right ihl ihr =>
    have hfits : ∀ h ∈ hs.head?, h.level < 4 := fits
    have hright := ihr (.sign (op == .minus) :: .left .caret x :: hs) es (by simp [Fits])
    exact .binary rfl (by decide) (ihl hs es hfits) hfits (.sign (Nat.le_refl _) isSign rfl hright)
  | bare inner ih => exact ih hs es fits.1
  | @signed w x op isSign inner ih =>
    have hoperand := ih (.sign (op == .minus) :: hs) es (by simp [Fits])
    exact .sign (Nat.le_refl _) isSign fits.2 hoperand
  | firstFactor inner ih =>
    have hfits : Fits .factor hs :=
      ⟨fun h hm => Nat.lt_of_lt_of_le (fits.1 h hm) (by decide), fits.2 rfl⟩
    exact (ih hs es hfits).mono (by decide)
  | firstPower inner ih =>
    have hfits : Fits .power hs := fun h hm => Nat.lt_of_lt_of_le (fits.1 h hm) (by decide)
    exact (ih hs es hfits).mono (by decide)
  | @times s u w x y op isTimes left right ihl ihr =>
    have hlevel := level_of_isTimes isTimes
    have hadmits : op.isSign = false := by cases op <;> first | rfl | cases isTimes
    have hright := ihr (.left op x :: hs) es
      (by simp [Fits, Hole.level, Hole.op, hlevel, signAllowed, Hole.admitsSign, hadmits])
    exact .binary hlevel (Nat.le_refl _) (ihl hs es fits) fits.1 (hright.mono (Nat.le_succ 2))
  | firstProduct inner ih =>
    have hhs : hs = [] := fits
    subst hhs
    exact (ih [] es (by simp [Fits, signAllowed])).mono (by decide)
  | @plus u w x y op isSign left right ihl ihr =>
    have hhs : hs = [] := fits
    subst hhs
    have hlevel := level_of_isSign isSign
    have hright := ihr [.left op x] es (by simp [Fits, Hole.level, Hole.op, hlevel])
    exact .binary hlevel (Nat.le_refl _) (ihl [] es rfl) (by simp) (hright.mono (by decide))

/-- **Outlines find exactly the trees that the grammar derives.** -/
theorem tree?_eq_some_iff {w : List Lexeme} {x : Tree} :
    tree? scope w = some x ↔ Derives scope .expr w x := by
  refine ⟨derives_of_tree?, fun h => ?_⟩
  obtain ⟨o, y, hr, hes, hy, hc⟩ := leaves_of_derives h [] [] rfl
  have hes' : o.enclosures = [] := hes
  have hfinish : finish scope o = some x := by
    simp only [finish, hes', hy, Option.map_some, hc.closeAll_eq]
  unfold tree? start
  rw [hr]
  exact hfinish

end Outline

/-- **A formula has at most one tree.** -/
theorem Derives.unique {w : List Lexeme} {x y : Tree} (hx : Derives scope .expr w x)
    (hy : Derives scope .expr w y) : x = y :=
  Option.some.inj ((Outline.tree?_eq_some_iff.mpr hx).symm.trans
    (Outline.tree?_eq_some_iff.mpr hy))

end Formula
