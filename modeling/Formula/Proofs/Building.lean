import Mathlib.Algebra.Group.Defs
import Mathlib.Data.List.Infix
import Formula.Routine.Lowering

/-!
# What a builder computes

Nodes are added at the end and never changed, so that a value that has been computed stays.
`Builder.Computes` says what the nodes of a builder come to at a point, for any imports that begin
with those of the builder, and that an input which counts as loaded has been loaded.

Each operation of a builder returns a value.  `Yields` says which number that value is: the
operation keeps the numbers computed before and adds its own.  There is one lemma for each
operation; those of a lowering follow from them without looking at nodes again.

## Powers by multiplication

`Arithmetic.expandedPower` is the number that the multiplications for a power come to.  In a monoid
it is the power (`expandedPower_eq_pow`); in floating point it is what it is.
-/

namespace Formula

variable {α : Type}

namespace Arithmetic

/-- A result multiplied by the base raised to `n`, one bit of `n` after the other, from the
lowest. -/
def powerLoop (a : Arithmetic α) (result base : α) (n : Nat) : α :=
  if _ : n = 0 then result
  else
    a.powerLoop (if n % 2 = 1 then a.mul result base else result)
      (if 1 < n then a.mul base base else base) (n / 2)
termination_by n
decreasing_by omega

/-- A number raised to a natural number, by multiplications. -/
def expandedPower (a : Arithmetic α) (base : α) : Nat → α
  | 0 => a.const .one
  | 1 => base
  | 2 => a.mul base base
  | 3 => a.mul (a.mul base base) base
  | 4 => a.mul (a.mul base base) (a.mul base base)
  | n => a.powerLoop (a.const .one) base n

section Monoid

variable {M : Type} [Monoid M] {a : Arithmetic M} (hmul : ∀ x y, a.mul x y = x * y)

include hmul

theorem powerLoop_eq_mul_pow (result base : M) (n : Nat) :
    a.powerLoop result base n = result * base ^ n := by
  induction n using Nat.strong_induction_on generalizing result base with
  | h n ih =>
    rw [powerLoop]
    by_cases hn : n = 0
    · rw [dif_pos hn, hn, pow_zero, mul_one]
    · rw [dif_neg hn, ih (n / 2) (by omega)]
      -- the last squaring is left out, and then no bit is left
      have hbase : (if 1 < n then a.mul base base else base) ^ (n / 2) = base ^ (2 * (n / 2)) := by
        by_cases h1 : 1 < n
        · rw [if_pos h1, hmul, ← pow_two, ← pow_mul]
        · rw [if_neg h1, show n / 2 = 0 by omega]
      rw [hbase]
      by_cases hodd : n % 2 = 1
      · rw [if_pos hodd, hmul, mul_assoc, ← pow_succ', show 2 * (n / 2) + 1 = n by omega]
      · rw [if_neg hodd, show 2 * (n / 2) = n by omega]

/-- **In a monoid the multiplications come to the power.** -/
theorem expandedPower_eq_pow (hone : a.const .one = 1) (base : M) (n : Nat) :
    a.expandedPower base n = base ^ n := by
  unfold expandedPower
  split
  · rw [hone, pow_zero]
  · rw [pow_one]
  · rw [hmul, pow_two]
  · rw [hmul, hmul, ← pow_two, ← pow_succ]
  · rw [hmul, hmul, ← pow_two, ← pow_two, ← pow_mul]
  · rw [powerLoop_eq_mul_pow hmul, hone, one_mul]

end Monoid

end Arithmetic

/-! ## Runs of nodes -/

namespace Routine

variable {a : Arithmetic α} {imports : Array Builtin} {point : Array α}

theorem run_concat {nodes : List Node} {node : Node} {values values' : Array α} {x : α}
    (hr : run a imports point nodes values = .ok values')
    (hx : evaluateNode a imports point values' node = .ok x) :
    run a imports point (nodes ++ [node]) values = .ok (values'.push x) := by
  induction nodes generalizing values with
  | nil =>
    cases hr
    simp only [List.nil_append, run, hx]
  | cons n nodes ih =>
    rw [List.cons_append]
    unfold run at hr ⊢
    split at hr
    · cases hr
    · exact ih hr

theorem size_of_run {nodes : List Node} {values values' : Array α}
    (hr : run a imports point nodes values = .ok values') :
    values'.size = values.size + nodes.length := by
  induction nodes generalizing values with
  | nil =>
    cases hr
    rfl
  | cons n nodes ih =>
    unfold run at hr
    split at hr
    · cases hr
    · rw [ih hr, Array.size_push, List.length_cons]
      omega

theorem lookup_eq_ok {values : Array α} {v : Value} {x : α} (h : values[v]? = some x) :
    lookup values v = .ok x := by
  simp only [lookup, h]

end Routine

/-- Numbers computed before stay where they are. -/
theorem getElem?_of_isPrefix {values values' : Array α} (h : values.toList <+: values'.toList)
    {v : Nat} {x : α} (hx : values[v]? = some x) : values'[v]? = some x := by
  obtain ⟨more, hmore⟩ := h
  rw [← Array.getElem?_toList] at hx ⊢
  obtain ⟨hlt, -⟩ := List.getElem?_eq_some_iff.mp hx
  rw [← hmore, List.getElem?_append_left hlt, hx]

/-! ## Builders -/

/-- The nodes of a builder come to numbers, and what counts as loaded is the number of an input. -/
structure Builder.Computes (a : Arithmetic α) (point : Array α) (b : Builder) (values : Array α) :
    Prop where
  run : ∀ imports : Array Builtin, b.imports.toList <+: imports.toList →
    Routine.run a imports point b.nodes.toList #[] = .ok values
  loaded : ∀ (slot : Nat) (v : Value), b.loaded[slot]? = some v →
    ∃ x, values[v]? = some x ∧ point[slot]? = some x

/-- A value with the builder it comes from: numbers computed before are kept, and the value is a
given number. -/
def Builder.Yields (a : Arithmetic α) (point values : Array α) (result : Value × Builder) (x : α) :
    Prop :=
  ∃ values', values.toList <+: values'.toList ∧ result.2.Computes a point values' ∧
    values'[result.1]? = some x

namespace Builder

variable {a : Arithmetic α} {point values : Array α} {b : Builder} {x y : α} {v w : Value}

/-- A shim is found by its name, and no other builtin has that name. -/
theorem shim_eq_idxOf? {f : Builtin} (hf : f.isInline = false) :
    b.shim f = match b.imports.toList.idxOf? f with
      | some position => (position, b)
      | none => (b.imports.size, { b with imports := b.imports.push f }) := by
  have hkey : (fun g : Builtin => g.symbol? == f.symbol?) = (· == f) := by
    funext g
    rw [Bool.eq_iff_iff, beq_iff_eq, beq_iff_eq]
    exact ⟨Builtin.eq_of_symbol?_eq hf, congrArg Builtin.symbol?⟩
  have hlist : b.imports.findIdx? (· == f) = b.imports.toList.idxOf? f := by
    rw [List.idxOf?, ← List.findIdx?_toArray, Array.toArray_toList]
  cases hposition : b.imports.toList.idxOf? f <;>
    simp only [shim, hkey, hlist, hposition]

theorem computes_empty : empty.Computes a point #[] where
  run _ _ := rfl
  loaded slot v h := by simp [empty] at h

namespace Computes

theorem size_eq (h : b.Computes a point values) : values.size = b.nodes.size := by
  have hsize := Routine.size_of_run (h.run b.imports List.prefix_rfl)
  simpa using hsize

/-- Adding a node. -/
theorem emit (h : b.Computes a point values) {node : Node}
    (hx : ∀ imports : Array Builtin, b.imports.toList <+: imports.toList →
      Routine.evaluateNode a imports point values node = .ok x) :
    Yields a point values (b.emit node) x := by
  refine ⟨values.push x, by simp, ⟨fun imports himports => ?_, fun slot v hv => ?_⟩, ?_⟩
  · show Routine.run a imports point (b.nodes.push node).toList #[] = _
    rw [Array.toList_push]
    exact Routine.run_concat (h.run imports himports) (hx imports himports)
  · obtain ⟨y, hy, hpoint⟩ := h.loaded slot v hv
    exact ⟨y, getElem?_of_isPrefix (by simp) hy, hpoint⟩
  · show (values.push x)[b.nodes.size]? = some x
    rw [← h.size_eq, Array.getElem?_push_size]

theorem emit_const (h : b.Computes a point values) (c : Binary64) :
    Yields a point values (b.emit (.const c)) (a.const c) :=
  h.emit fun _ _ => rfl

theorem emit_unary (h : b.Computes a point values) (op : UnaryOp) (hx : values[v]? = some x) :
    Yields a point values (b.emit (.unary op v)) (a.unary op x) := by
  refine h.emit fun imports _ => ?_
  rw [Routine.evaluateNode, Routine.lookup_eq_ok hx]
  rfl

theorem emit_binary (h : b.Computes a point values) (op : BinaryOp) (hx : values[v]? = some x)
    (hy : values[w]? = some y) :
    Yields a point values (b.emit (.binary op v w)) (a.binary op x y) := by
  refine h.emit fun imports _ => ?_
  rw [Routine.evaluateNode, Routine.lookup_eq_ok hx, Routine.lookup_eq_ok hy]
  rfl

/-- Asking for a shim. -/
theorem shim (h : b.Computes a point values) {f : Builtin} (hf : f.isInline = false) :
    (b.shim f).2.Computes a point values ∧
      ∀ imports : Array Builtin, (b.shim f).2.imports.toList <+: imports.toList →
        imports[(b.shim f).1]? = some f := by
  rw [shim_eq_idxOf? hf]
  split
  · rename_i position hposition
    obtain ⟨hlt, hf, -⟩ := List.idxOf?_eq_some_iff.mp hposition
    refine ⟨h, fun imports himports => getElem?_of_isPrefix himports ?_⟩
    rw [← Array.getElem?_toList, List.getElem?_eq_getElem hlt, hf]
  · refine ⟨⟨fun imports himports => ?_, h.loaded⟩, fun imports himports => ?_⟩
    · refine h.run imports (List.IsPrefix.trans ?_ himports)
      simp
    · refine getElem?_of_isPrefix himports ?_
      simp

theorem call_one (h : b.Computes a point values) {f : Builtin} (hf : f.isInline = false)
    (hx : values[v]? = some x) : Yields a point values (b.call f [v]) (a.apply₁ f x) := by
  obtain ⟨hcomputes, hshim⟩ := h.shim hf
  show Yields a point values ((b.shim f).2.emit (.call (b.shim f).1 [v])) _
  refine hcomputes.emit fun imports himports => ?_
  simp only [Routine.evaluateNode, hshim imports himports, Routine.lookup_eq_ok hx]
  rfl

theorem call_two (h : b.Computes a point values) {f : Builtin} (hf : f.isInline = false)
    (hx : values[v]? = some x) (hy : values[w]? = some y) :
    Yields a point values (b.call f [v, w]) (a.apply₂ f x y) := by
  obtain ⟨hcomputes, hshim⟩ := h.shim hf
  show Yields a point values ((b.shim f).2.emit (.call (b.shim f).1 [v, w])) _
  refine hcomputes.emit fun imports himports => ?_
  simp only [Routine.evaluateNode, hshim imports himports, Routine.lookup_eq_ok hx,
    Routine.lookup_eq_ok hy]
  rfl

/-- Loading an input, or using what was loaded before. -/
theorem input (h : b.Computes a point values) (inputs : Nat) {slot : Nat}
    (hx : point[slot]? = some x) : Yields a point values (b.input inputs slot) x := by
  unfold Builder.input
  split
  · rename_i v hv
    obtain ⟨y, hy, hpoint⟩ := h.loaded slot v hv
    rw [hx] at hpoint
    cases hpoint
    exact ⟨values, List.prefix_rfl, h, hy⟩
  · have hemit : Yields a point values (b.emit (.load slot)) x :=
      h.emit fun imports _ => by simp only [Routine.evaluateNode, hx]
    obtain ⟨values', hkept, hcomputes, hv⟩ := hemit
    refine ⟨values', hkept, ⟨hcomputes.run, fun slot' v' hloaded => ?_⟩, hv⟩
    simp only at hloaded
    split at hloaded
    · rw [Std.HashMap.getElem?_insert] at hloaded
      split at hloaded
      · rename_i heq
        cases hloaded
        rw [← eq_of_beq heq]
        exact ⟨x, hv, hx⟩
      · exact hcomputes.loaded slot' v' hloaded
    · exact hcomputes.loaded slot' v' hloaded

end Computes

/-- One operation after another. -/
theorem Yields.andThen {result : Value × Builder} {result' : Value × Builder}
    (h : Yields a point values result x)
    (hnext : ∀ values', values.toList <+: values'.toList → result.2.Computes a point values' →
      values'[result.1]? = some x → Yields a point values' result' y) :
    Yields a point values result' y := by
  obtain ⟨values', hkept, hcomputes, hx⟩ := h
  obtain ⟨values'', hkept', hcomputes', hy⟩ := hnext values' hkept hcomputes hx
  exact ⟨values'', hkept.trans hkept', hcomputes', hy⟩

namespace Computes

/-- A value that is there already. -/
theorem yields (h : b.Computes a point values) (hx : values[v]? = some x) :
    Yields a point values (v, b) x := ⟨values, List.prefix_rfl, h, hx⟩

/-- A builtin of one argument. -/
theorem apply_one (h : b.Computes a point values) {f : Builtin} (hf : f.arity ≠ 2)
    (hx : values[v]? = some x) :
    Yields a point values (b.apply f [v]) (a.apply₁ f x) := by
  cases f with
  | abs => exact h.emit_unary .abs hx
  | floor => exact h.emit_unary .floor hx
  | round =>
    refine (h.emit_const .half).andThen fun values₁ hkept₁ hcomputes₁ hhalf => ?_
    refine (hcomputes₁.emit_binary .add (getElem?_of_isPrefix hkept₁ hx) hhalf).andThen
      fun values₂ _ hcomputes₂ hshifted => ?_
    exact hcomputes₂.emit_unary .floor hshifted
  | acos | asin | atan | cos | exp | log | sin | tan => exact h.call_one rfl hx
  | max | min | pow => exact absurd rfl hf

/-- A builtin of two arguments. -/
theorem apply_two (h : b.Computes a point values) {f : Builtin} (hf : f.arity = 2)
    (hx : values[v]? = some x) (hy : values[w]? = some y) :
    Yields a point values (b.apply f [v, w]) (a.apply₂ f x y) := by
  cases f with
  | max => exact h.emit_binary .max hx hy
  | min => exact h.emit_binary .min hx hy
  | pow => exact h.call_two rfl hx hy
  | abs | floor | round | acos | asin | atan | cos | exp | log | sin | tan => cases hf

/-- A multiplication that is made or not. -/
theorem multiply_if (h : b.Computes a point values) (c : Prop) [Decidable c]
    (hx : values[v]? = some x) (hy : values[w]? = some y) :
    Yields a point values (if c then b.emit (.binary .mul v w) else (v, b))
      (if c then a.mul x y else x) := by
  by_cases hc : c
  · rw [if_pos hc, if_pos hc]
    exact h.emit_binary .mul hx hy
  · rw [if_neg hc, if_neg hc]
    exact h.yields hx

theorem powerLoop (h : b.Computes a point values) (hx : values[v]? = some x)
    (hy : values[w]? = some y) (n : Nat) :
    Yields a point values (b.powerLoop v w n) (a.powerLoop x y n) := by
  induction n using Nat.strong_induction_on generalizing b values v w x y with
  | h n ih =>
    unfold Builder.powerLoop Arithmetic.powerLoop
    by_cases hn : n = 0
    · rw [dif_pos hn, dif_pos hn]
      exact h.yields hx
    · rw [dif_neg hn, dif_neg hn]
      refine (h.multiply_if (n % 2 = 1) hx hy).andThen fun values₁ hkept₁ hcomputes₁ hresult => ?_
      have hbase := getElem?_of_isPrefix hkept₁ hy
      refine (hcomputes₁.multiply_if (1 < n) hbase hbase).andThen
        fun values₂ hkept₂ hcomputes₂ hsquare => ?_
      exact ih (n / 2) (by omega) hcomputes₂ (getElem?_of_isPrefix hkept₂ hresult) hsquare

/-- A power by multiplications. -/
theorem power (h : b.Computes a point values) (hx : values[v]? = some x) (n : Nat) :
    Yields a point values (b.power v n) (a.expandedPower x n) := by
  match n with
  | 0 => exact h.emit_const .one
  | 1 => exact h.yields hx
  | 2 => exact h.emit_binary .mul hx hx
  | 3 =>
    refine (h.emit_binary .mul hx hx).andThen fun values₁ hkept₁ hcomputes₁ hsquare => ?_
    exact hcomputes₁.emit_binary .mul hsquare (getElem?_of_isPrefix hkept₁ hx)
  | 4 =>
    refine (h.emit_binary .mul hx hx).andThen fun values₁ hkept₁ hcomputes₁ hsquare => ?_
    exact hcomputes₁.emit_binary .mul hsquare hsquare
  | n + 5 =>
    refine (h.emit_const .one).andThen fun values₁ hkept₁ hcomputes₁ hone => ?_
    exact hcomputes₁.powerLoop hone (getElem?_of_isPrefix hkept₁ hx) (n + 5)

/-- Asking for the shims of a table computes nothing. -/
theorem importAll (h : b.Computes a point values) (functions : List FunctionName) :
    (b.importAll functions).Computes a point values := by
  unfold Builder.importAll
  induction functions generalizing b with
  | nil => exact h
  | cons f functions ih =>
    rw [List.foldl_cons]
    refine ih ?_
    by_cases hf : f.builtin.isInline = true
    · rw [if_pos hf]
      exact h
    · rw [if_neg hf]
      exact (h.shim (Bool.eq_false_iff.mpr hf)).1

end Computes

end Builder

end Formula
