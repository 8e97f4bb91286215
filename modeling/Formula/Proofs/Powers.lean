import Mathlib.Algebra.FreeMonoid.Basic
import Mathlib.Data.Nat.Digits.Defs
import Formula.Proofs.Building

/-!
# What a power is made of

A power with a small exponent becomes multiplications: the base is squared again and again, and the
squares that belong to the ones of the exponent are multiplied up.  Which number comes out is a
matter of algebra (`Arithmetic.expandedPower_eq_pow`).  This module is about the multiplications
themselves: how many there are, and that none of them is made in vain.

A square too many would be easy to miss.  It changes no result, but it is the largest number of all,
and it can be infinite where the power is not.

* `Routine.Feeds` says that a value goes into a result, by way of the nodes that read it.
* `Builder.Emits` is the account of a list of nodes that an operation adds: all of them go into its
  result, and so do given values.  The account is made from the last node to the first
  (`Emits.cons`): a node that goes into the result takes its operands with it.
* `exists_emits_powerLoop` is the invariant of the loop.  The result so far goes into the result
  always, and the square so far as long as a bit of the exponent is left, which is exactly when it
  has been made.
-/

namespace Formula

/-- Whether a node is a multiplication. -/
def Node.isProduct : Node → Bool
  | .binary .mul _ _ => true
  | _ => false

/-- A value goes into a result: it is the result, or an operand of a node that goes into it. -/
inductive Routine.Feeds (nodes : Array Node) (result : Value) : Value → Prop
  | result : Feeds nodes result result
  | operand {v w : Value} {node : Node} (computes : nodes[w]? = some node)
      (reads : v ∈ node.operands) (feeds : Feeds nodes result w) : Feeds nodes result v

namespace Builder

/-- A builder with more nodes. -/
def append (b : Builder) (block : List Node) : Builder := { b with nodes := b.nodes ++ block }

theorem append_nil (b : Builder) : b.append [] = b := by
  simp [append]

theorem append_emit (b : Builder) (node : Node) (block : List Node) :
    (b.emit node).2.append block = b.append (node :: block) := by
  have hnodes : b.nodes.push node ++ block = b.nodes ++ (node :: block) := by
    rw [← Array.toList_inj]
    simp
  exact congrArg (Builder.mk · b.imports b.loaded) hnodes

/-- An operation adds nodes, all of which go into its value, and so do given values. -/
structure Emits (b : Builder) (block : List Node) (given : List Value) (result : Value × Builder) :
    Prop where
  builder : result.2 = b.append block
  given : ∀ v ∈ given, Routine.Feeds result.2.nodes result.1 v
  added : ∀ k, b.nodes.size ≤ k → k < result.2.nodes.size →
    Routine.Feeds result.2.nodes result.1 k

namespace Emits

variable {b : Builder} {block : List Node} {given given' : List Value} {result : Value × Builder}

/-- Nothing is added to a value that is there already. -/
theorem nil (b : Builder) (v : Value) : b.Emits [] [v] (v, b) where
  builder := (append_nil b).symm
  given := List.forall_mem_singleton.mpr .result
  added _ hle hlt := absurd hlt (Nat.not_lt.mpr hle)

theorem mono (h : b.Emits block given result) (hgiven : given' ⊆ given) :
    b.Emits block given' result :=
  ⟨h.builder, fun v hv => h.given v (hgiven hv), h.added⟩

/-- **One node in front.**  If its value goes into the result, so do its operands. -/
theorem cons {node : Node} (h : (b.emit node).2.Emits block given result)
    (hnode : b.nodes.size ∈ given) :
    b.Emits (node :: block) (node.operands ++ given) result := by
  have hbuilder : result.2 = b.append (node :: block) := by
    rw [h.builder, append_emit]
  have hcomputes : result.2.nodes[b.nodes.size]? = some node := by
    rw [hbuilder, append, ← Array.getElem?_toList, Array.toList_appendList,
      List.getElem?_append_right (Nat.le_of_eq Array.length_toList)]
    simp
  refine ⟨hbuilder, fun v hv => ?_, fun k hle hlt => ?_⟩
  · rcases List.mem_append.mp hv with hv | hv
    · exact .operand hcomputes hv (h.given _ hnode)
    · exact h.given v hv
  · rcases Nat.eq_or_lt_of_le hle with rfl | hlt'
    · exact h.given _ hnode
    · refine h.added k ?_ hlt
      show (b.nodes.push node).size ≤ k
      rw [Array.size_push]
      exact hlt'

/-- A node by itself. -/
theorem single (b : Builder) (node : Node) :
    b.Emits [node] (node.operands ++ [b.nodes.size]) (b.emit node) :=
  (nil (b.emit node).2 b.nodes.size).cons List.mem_cons_self

end Emits

/-- A multiplication that is made or not, in front of other nodes. -/
theorem emits_multiply_if {b : Builder} (c : Prop) [Decidable c] {v w : Value} {block : List Node}
    {given : List Value} {result : Value × Builder}
    (h : (if c then b.emit (.binary .mul v w) else (v, b)).2.Emits block given result)
    (hgiven : c → (if c then b.emit (.binary .mul v w) else (v, b)).1 ∈ given) :
    b.Emits ((if c then [.binary .mul v w] else []) ++ block)
      ((if c then [v, w] else []) ++ given) result := by
  by_cases hc : c
  · have hnode := hgiven hc
    rw [if_pos hc] at h hnode ⊢
    rw [if_pos hc]
    exact h.cons hnode
  · rw [if_neg hc] at h ⊢
    rw [if_neg hc]
    exact h

/-! ## Powers -/

theorem count_one_digits (n : Nat) :
    (Nat.digits 2 n).count 1 =
      (if n % 2 = 1 then 1 else 0) + (Nat.digits 2 (n / 2)).count 1 := by
  by_cases hn : n = 0
  · subst hn
    simp
  · rw [Nat.digits_def' Nat.one_lt_two (Nat.pos_of_ne_zero hn), List.count_cons, Nat.add_comm]
    simp

/-- The lowest bit of an exponent asks for a multiplication if it is one, and for a squaring if
there are higher bits. -/
theorem log2_add_ones {n : Nat} (hn : n ≠ 0) :
    Nat.log2 n + (Nat.digits 2 n).count 1 =
      (if n % 2 = 1 then 1 else 0) + ((if 1 < n then 1 else 0) +
        (Nat.log2 (n / 2) + (Nat.digits 2 (n / 2)).count 1)) := by
  rw [Nat.log2_def, count_one_digits]
  by_cases h1 : 1 < n
  · rw [if_pos h1, if_pos (show 2 ≤ n from h1)]
    omega
  · obtain rfl : n = 1 := by omega
    rfl

/-- **The loop.**  As long as a bit is left, the square so far goes into the result. -/
theorem exists_emits_powerLoop (b : Builder) (v w : Value) (n : Nat) :
    ∃ block, b.Emits block (if n = 0 then [v] else [v, w]) (b.powerLoop v w n) ∧
      block.countP Node.isProduct = Nat.log2 n + (Nat.digits 2 n).count 1 := by
  induction n using Nat.strong_induction_on generalizing b v w with
  | h n ih =>
    unfold powerLoop
    by_cases hn : n = 0
    · subst hn
      exact ⟨[], .nil b v, rfl⟩
    · rw [dif_neg hn, if_neg hn]
      -- the multiplication by the square so far, and the next square
      let first := if n % 2 = 1 then b.emit (.binary .mul v w) else (v, b)
      let second := if 1 < n then first.2.emit (.binary .mul w w) else (w, first.2)
      obtain ⟨block, hemits, hcount⟩ := ih (n / 2) (by omega) second.2 first.1 second.1
      have hresult : first.1 ∈ if n / 2 = 0 then [first.1] else [first.1, second.1] := by
        split <;> exact List.mem_cons_self
      have hsquared := emits_multiply_if (1 < n) hemits fun h1 => by
        rw [if_neg (show n / 2 ≠ 0 by omega)]
        exact List.mem_cons_of_mem _ List.mem_cons_self
      have hmultiplied := emits_multiply_if (n % 2 = 1) hsquared fun _ =>
        List.mem_append_right _ hresult
      refine ⟨_, hmultiplied.mono ?_, ?_⟩
      · by_cases hodd : n % 2 = 1
        · rw [if_pos hodd]
          exact List.subset_append_left ..
        · -- an even exponent has more bits, and the base goes into its square
          have heq : first.1 = v := by rw [show first = (v, b) from if_neg hodd]
          have h1 : 1 < n := by omega
          rw [if_neg hodd, if_pos h1, List.nil_append]
          refine List.cons_subset.mpr ⟨List.mem_append_right _ (heq ▸ hresult), ?_⟩
          exact List.cons_subset.mpr ⟨List.mem_cons_self, List.nil_subset _⟩
      · rw [List.countP_append, List.countP_append, hcount, log2_add_ones hn]
        split <;> split <;> rfl

/-- All the nodes of a power go into its value. -/
theorem exists_emits_power (b : Builder) (base : Value) (n : Nat) :
    ∃ block, b.Emits block [] (b.power base n) ∧
      (5 ≤ n → block.countP Node.isProduct = Nat.log2 n + (Nat.digits 2 n).count 1) := by
  have hnil : ∀ given : List Value, [] ⊆ given := List.nil_subset
  match n with
  | 0 => exact ⟨_, (Emits.single b _).mono (hnil _), nofun⟩
  | 1 => exact ⟨_, (Emits.nil b base).mono (hnil _), by omega⟩
  | 2 => exact ⟨_, (Emits.single b _).mono (hnil _), by omega⟩
  | 3 | 4 =>
    -- the square is an operand of what comes after it
    exact ⟨_, ((Emits.single _ _).cons List.mem_cons_self).mono (hnil _), by omega⟩
  | n + 5 =>
    obtain ⟨block, hemits, hcount⟩ :=
      exists_emits_powerLoop (b.emit (.const .one)).2 b.nodes.size base (n + 5)
    exact ⟨_, (hemits.cons List.mem_cons_self).mono (hnil _), fun _ => hcount⟩

/-- **Powers by multiplication.**  Whatever is multiplied, as long as the multiplication is
associative and one is its unit, the nodes of a power come to the power.  All of them go into its
value.  From the exponent 5 on there are as many multiplications as the exponent has bits after the
highest one and ones among its bits. -/
theorem power_multiplies (b : Builder) (base : Value) (n : Nat) :
    (∀ (M : Type) [Monoid M] (a : Arithmetic M), (∀ x y, a.mul x y = x * y) → a.const .one = 1 →
      ∀ (point values : Array M) (x : M), b.Computes a point values → values[base]? = some x →
        Yields a point values (b.power base n) (x ^ n)) ∧
    ∃ block, (b.power base n).2 = b.append block ∧
      (∀ k, b.nodes.size ≤ k → k < (b.power base n).2.nodes.size →
        Routine.Feeds (b.power base n).2.nodes (b.power base n).1 k) ∧
      (5 ≤ n → block.countP Node.isProduct = Nat.log2 n + (Nat.digits 2 n).count 1) := by
  obtain ⟨block, hemits, hcount⟩ := exists_emits_power b base n
  refine ⟨fun M _ a hmul hone point values x hcomputes hx => ?_, block, hemits.builder,
    hemits.added, hcount⟩
  rw [← Arithmetic.expandedPower_eq_pow hmul hone]
  exact hcomputes.power hx n

end Builder

/-- Arithmetic of words.  A product is one word after the other. -/
def Arithmetic.words : Arithmetic (FreeMonoid Char) where
  const _ := 1
  neg x := x
  add x _ := x
  sub x _ := x
  mul x y := x * y
  div x _ := x
  pow x _ := x
  max x _ := x
  min x _ := x
  abs x := x
  floor x := x
  acos x := x
  asin x := x
  atan x := x
  cos x := x
  exp x := x
  log x := x
  sin x := x
  tan x := x

/-- The thirteenth power of a word that was loaded takes six multiplications: three squares, and a
product for each of the ones of 1101. -/
theorem Builder.power_multiplies_word :
    ∃ values, (Builder.empty.input 1 0).2.Computes .words #[.of 'a' * .of 'b'] values ∧
      Yields .words #[.of 'a' * .of 'b'] values
        ((Builder.empty.input 1 0).2.power (Builder.empty.input 1 0).1 13)
        ((.of 'a' * .of 'b') ^ 13) ∧
      ∃ block, ((Builder.empty.input 1 0).2.power (Builder.empty.input 1 0).1 13).2 =
          (Builder.empty.input 1 0).2.append block ∧
        block.countP Node.isProduct = 6 := by
  have hempty : Builder.empty.Computes .words #[.of 'a' * .of 'b'] #[] := computes_empty
  have hpoint : #[FreeMonoid.of 'a' * .of 'b'][0]? = some (.of 'a' * .of 'b') := rfl
  obtain ⟨values, -, hcomputes, hx⟩ := hempty.input 1 hpoint
  obtain ⟨hvalue, block, hblock, -, hcount⟩ :=
    Builder.power_multiplies (Builder.empty.input 1 0).2 (Builder.empty.input 1 0).1 13
  refine ⟨values, hcomputes, hvalue _ .words (fun _ _ => rfl) rfl _ values _ hcomputes hx, block,
    hblock, ?_⟩
  rw [hcount (by decide)]
  decide +kernel

end Formula
