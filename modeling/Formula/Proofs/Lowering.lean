import Formula.Proofs.Building
import Formula.Proofs.Exponents
import Formula.Proofs.Interpreting

/-!
# Lowering keeps the value

A lowering goes through the code of a program with a stack of values in the place of the stack of
numbers.  `Lowering.Simulates` relates the two: the builder computes numbers, the values on the one
stack are the numbers on the other, and what is known of the top is the constant that the last
instructions left there.

Straight-line code has multiplications for some powers, and in floating point these are not the
power.  So a lowering is compared with a run of the machine in which exactly those powers are
computed by multiplications, `Program.expansion`; where there are none, that run is the machine's
own.

## Lowering succeeds

That a step of a lowering succeeds follows from the simulation as soon as there is some point to run
the program at.  A carrier with a single number is enough for that, and it has points of every
length.
-/

namespace Formula

variable {α : Type}

/-- Arithmetic with a single number. -/
def Arithmetic.single : Arithmetic Unit where
  const _ := ()
  neg _ := ()
  add _ _ := ()
  sub _ _ := ()
  mul _ _ := ()
  div _ _ := ()
  pow _ _ := ()
  max _ _ := ()
  min _ _ := ()
  abs _ := ()
  floor _ := ()
  acos _ := ()
  asin _ := ()
  atan _ := ()
  cos _ := ()
  exp _ := ()
  log _ := ()
  sin _ := ()
  tan _ := ()

/-- The arithmetic in which the powers that a lowering expands are multiplications, and nothing else
is different. -/
def Program.expansion (a : Arithmetic α) (p : Program) : Choice α
  | before, .pow =>
    match p.inlinePower? before with
    | some n => { a with pow := fun x _ => a.expandedPower x n }
    | none => a
  | _, _ => a

/-- The values on one stack are the numbers on another. -/
abbrev Represents (values : Array α) (stack : List Lowered) (vs : List α) : Prop :=
  List.Forall₂ (fun l x => values[l.value]? = some x) stack vs

theorem Represents.mono {values values' : Array α} {stack : List Lowered} {vs : List α}
    (h : Represents values stack vs) (hkept : values.toList <+: values'.toList) :
    Represents values' stack vs :=
  h.imp fun _ _ hx => getElem?_of_isPrefix hkept hx

theorem Represents.one {values : Array α} {stack : List Lowered} {x : α} {vs : List α}
    (h : Represents values stack (x :: vs)) :
    ∃ top rest, stack = top :: rest ∧ values[top.value]? = some x ∧ Represents values rest vs := by
  obtain ⟨top, rest, hx, hrest, hstack⟩ := List.forall₂_cons_right_iff.mp h
  exact ⟨top, rest, hstack, hx, hrest⟩

theorem Represents.two {values : Array α} {stack : List Lowered} {x y : α} {vs : List α}
    (h : Represents values stack (y :: x :: vs)) :
    ∃ top next rest, stack = top :: next :: rest ∧ values[top.value]? = some y ∧
      values[next.value]? = some x ∧ Represents values rest vs := by
  obtain ⟨top, rest, rfl, hy, h'⟩ := h.one
  obtain ⟨next, rest, rfl, hx, hrest⟩ := h'.one
  exact ⟨top, next, rest, rfl, hy, hx, hrest⟩

namespace Lowering

/-- A lowering stands for a run of the machine, after some instructions, the latest first. -/
def Simulates (a : Arithmetic α) (p : Program) (point : Array α) (before : List Instruction)
    (s : Lowering) (vs : List α) : Prop :=
  ∃ values, s.builder.Computes a point values ∧ Represents values s.stack vs ∧
    ∀ top ∈ s.stack.head?, top.known = p.trailing? before

variable {a : Arithmetic α} {p : Program} {point values : Array α} {before : List Instruction}
  {s : Lowering} {stack : List Lowered} {vs vs' : List α}

/-- A new value on the stack. -/
theorem simulates_cons {result : Value × Builder} {x : α} {known : Option Binary64}
    (hyields : Builder.Yields a point values result x) (hstack : Represents values stack vs)
    (hknown : known = p.trailing? before) :
    Simulates a p point before ⟨result.2, ⟨result.1, known⟩ :: stack⟩ (x :: vs) := by
  obtain ⟨values', hkept, hcomputes, hx⟩ := hyields
  refine ⟨values', hcomputes, .cons hx (hstack.mono hkept), fun top htop => ?_⟩
  cases htop
  exact hknown

/-- An instruction with two operands. -/
theorem simulates_binary (h : s.Simulates a p point before vs) (op : BinaryOp)
    (heffect : replaceTwo (a.binary op) vs = some vs') {i : Instruction}
    (htrailing : p.trailing? (i :: before) = none) :
    ∃ s', s.binary op = .ok s' ∧ s'.Simulates a p point (i :: before) vs' := by
  obtain ⟨builder, stack⟩ := s
  obtain ⟨values, hcomputes, hstack, -⟩ := h
  obtain ⟨x, y, vs, rfl, rfl⟩ := replaceTwo_eq_some heffect
  obtain ⟨second, first, rest, rfl, hy, hx, hrest⟩ := hstack.two
  exact ⟨_, rfl, simulates_cons (hcomputes.emit_binary op hx hy) hrest htrailing.symm⟩

/-- A power, by multiplications or by a call. -/
theorem simulates_pow (h : s.Simulates a p point before vs)
    (heffect : replaceTwo (p.expansion a before .pow).pow vs = some vs') :
    ∃ s', s.step p .pow = .ok s' ∧ s'.Simulates a p point (.pow :: before) vs' := by
  obtain ⟨builder, stack⟩ := s
  obtain ⟨values, hcomputes, hstack, hknown⟩ := h
  obtain ⟨x, y, vs, rfl, rfl⟩ := replaceTwo_eq_some heffect
  obtain ⟨exponent, base, rest, rfl, hy, hx, hrest⟩ := hstack.two
  have hexponent : exponent.known.bind inlineExponent? = p.inlinePower? before := by
    rw [hknown exponent rfl]
    rfl
  simp only [step, hexponent, Program.expansion]
  cases p.inlinePower? before with
  | some n => exact ⟨_, rfl, simulates_cons (hcomputes.power hx n) hrest rfl⟩
  | none => exact ⟨_, rfl, simulates_cons (hcomputes.call_two rfl hx hy) hrest rfl⟩

/-- A change of sign, which keeps track of a constant. -/
theorem simulates_neg (h : s.Simulates a p point before vs)
    (heffect : replaceTop a.neg vs = some vs') :
    ∃ s', s.step p .neg = .ok s' ∧ s'.Simulates a p point (.neg :: before) vs' := by
  obtain ⟨builder, stack⟩ := s
  obtain ⟨values, hcomputes, hstack, hknown⟩ := h
  obtain ⟨x, vs, rfl, rfl⟩ := replaceTop_eq_some heffect
  obtain ⟨top, rest, rfl, hx, hrest⟩ := hstack.one
  refine ⟨_, rfl, simulates_cons (hcomputes.emit_unary .neg hx) hrest ?_⟩
  rw [hknown top rfl]
  rfl

/-- A call. -/
theorem simulates_call (h : s.Simulates a p point before vs) {index : Nat}
    (heffect : p.effect a point vs (.call index) = some vs') :
    ∃ s', s.step p (.call index) = .ok s' ∧
      s'.Simulates a p point (.call index :: before) vs' := by
  obtain ⟨builder, stack⟩ := s
  obtain ⟨values, hcomputes, hstack, -⟩ := h
  obtain ⟨f, hf, heffect⟩ := Option.bind_eq_some_iff.mp heffect
  simp only [step, hf]
  split at heffect
  · rename_i harity
    obtain ⟨x, y, vs, rfl, rfl⟩ := replaceTwo_eq_some heffect
    obtain ⟨second, first, rest, rfl, hy, hx, hrest⟩ := hstack.two
    rw [if_pos harity]
    exact ⟨_, rfl, simulates_cons (hcomputes.apply_two harity hx hy) hrest rfl⟩
  · rename_i harity
    obtain ⟨x, vs, rfl, rfl⟩ := replaceTop_eq_some heffect
    obtain ⟨argument, rest, rfl, hx, hrest⟩ := hstack.one
    rw [if_neg harity]
    exact ⟨_, rfl, simulates_cons (hcomputes.apply_one harity hx) hrest rfl⟩

/-- **One instruction.**  The lowering takes it, and still stands for the run. -/
theorem simulates_step (h : s.Simulates a p point before vs) {i : Instruction}
    (heffect : p.effect (p.expansion a before i) point vs i = some vs') :
    ∃ s', s.step p i = .ok s' ∧ s'.Simulates a p point (i :: before) vs' := by
  cases i with
  | loadInput slot =>
    obtain ⟨x, hx, rfl⟩ := Option.map_eq_some_iff.mp heffect
    obtain ⟨builder, stack⟩ := s
    obtain ⟨values, hcomputes, hstack, -⟩ := h
    exact ⟨_, rfl, simulates_cons (hcomputes.input p.inputs hx) hstack rfl⟩
  | loadConst index =>
    obtain ⟨x, hx, rfl⟩ := Option.map_eq_some_iff.mp heffect
    obtain ⟨builder, stack⟩ := s
    obtain ⟨values, hcomputes, hstack, -⟩ := h
    simp only [step, hx]
    exact ⟨_, rfl, simulates_cons (hcomputes.emit_const x) hstack hx.symm⟩
  | add => exact simulates_binary h .add heffect rfl
  | sub => exact simulates_binary h .sub heffect rfl
  | mul => exact simulates_binary h .mul heffect rfl
  | div => exact simulates_binary h .div heffect rfl
  | pow => exact simulates_pow h heffect
  | neg => exact simulates_neg h heffect
  | call index => exact simulates_call h heffect

/-- A run of a lowering. -/
theorem simulates_run {code : List Instruction} (h : s.Simulates a p point before vs)
    (hexec : p.execute (p.expansion a) point before vs code = some vs') (place : Nat) :
    ∃ s', s.run p code place = .ok s' ∧ s'.Simulates a p point (code.reverse ++ before) vs' := by
  induction code generalizing s before vs place with
  | nil =>
    cases hexec
    exact ⟨s, rfl, h⟩
  | cons i code ih =>
    obtain ⟨vs₁, heffect, hexec⟩ := Option.bind_eq_some_iff.mp hexec
    obtain ⟨s₁, hstep, h₁⟩ := simulates_step h heffect
    obtain ⟨s', hrun, h'⟩ := ih h₁ hexec (place + 1)
    refine ⟨s', by simp only [run, hstep, hrun], ?_⟩
    rwa [List.reverse_cons, List.append_assoc]

/-- Nothing has been lowered yet. -/
theorem simulates_start (a : Arithmetic α) (p : Program) (point : Array α) :
    Simulates a p point [] ⟨Builder.empty.importAll p.functions.toList, []⟩ [] :=
  ⟨#[], Builder.computes_empty.importAll _, .nil, by simp⟩

end Lowering

namespace Program

variable {p : Program}

/-- The straight-line code of a checked program gives the value of the machine, with the powers that
were expanded computed by multiplications. -/
theorem evaluate_lower (h : p.verify = .ok ()) (a : Arithmetic α) {point : Array α}
    (hpoint : p.inputs ≤ point.size) :
    ∃ r x, p.lower = .ok r ∧ r.evaluate a point = .ok x ∧
      Machine.evaluateBy (p.expansion a) p point (a.const .zero) = .ok x := by
  obtain ⟨x, hexec, heval⟩ :=
    Machine.evaluateBy_of_verify h (p.expansion a) hpoint (a.const .zero)
  obtain ⟨s, hrun, values, hcomputes, hstack, -⟩ :=
    Lowering.simulates_run (Lowering.simulates_start a p point) hexec 0
  obtain ⟨top, rest, hs, hx, hrest⟩ := hstack.one
  cases hrest
  refine ⟨⟨s.builder.nodes, s.builder.imports, top.value⟩, x, ?_, ?_, heval⟩
  · simp only [lower, hrun, hs]
  · simp only [Routine.evaluate, hcomputes.run s.builder.imports List.prefix_rfl,
      Routine.lookup_eq_ok hx]

/-- Checked programs can be lowered. -/
theorem lower_of_verify (h : p.verify = .ok ()) : ∃ r, p.lower = .ok r := by
  have hpoint : p.inputs ≤ (Array.replicate p.inputs ()).size := by rw [Array.size_replicate]
  obtain ⟨r, -, hr, -⟩ := evaluate_lower h .single hpoint
  exact ⟨r, hr⟩

/-- Loading sets up memory first, and then it is the lowering. -/
theorem routine_eq_ite (p : Program) :
    p.routine = if p.maxStack * 24 ≤ 2 ^ 63 - 1 ∧ p.inputs * 8 ≤ 2 ^ 63 - 1
      then p.lower.mapError .malformed else .error .memory := by
  have hfits : p.fitsMemory = true ↔
      p.maxStack * 24 ≤ 2 ^ 63 - 1 ∧ p.inputs * 8 ≤ 2 ^ 63 - 1 := by
    rw [fitsMemory, Bool.and_eq_true, Memory.fits, Memory.fits, decide_eq_true_iff,
      decide_eq_true_iff]
    rfl
  simp only [routine, hfits]

/-- Loading a program that can be lowered fails only for lack of memory. -/
theorem routine_of_lower {r : Routine} (h : p.lower = .ok r) :
    p.routine =
      if p.maxStack * 24 ≤ 2 ^ 63 - 1 ∧ p.inputs * 8 ≤ 2 ^ 63 - 1 then .ok r
      else .error .memory := by
  rw [routine_eq_ite, h]
  rfl

/-- Where no power is expanded, the machine is left as it is. -/
theorem expansion_eq {a : Arithmetic α} {before : List Instruction} {i : Instruction}
    (h : i = .pow → ∀ n, ¬ p.Expands before n) : p.expansion a before i = a := by
  cases i with
  | pow =>
    have hnone : p.inlinePower? before = none := by
      rw [Option.eq_none_iff_forall_ne_some]
      exact fun n hn => h rfl n (inlinePower?_eq_some_iff.mp hn)
    simp only [expansion, hnone]
  | _ => rfl

/-- There is a row for the machine where there is room for the stack of a lowering. -/
theorem hasRow_of_room (hstack : p.maxStack * 24 ≤ 2 ^ 63 - 1) : Machine.hasRow p = true :=
  Machine.hasRow_iff.mpr (.inr (by omega))

/-- **Lowering agrees with the machine.**  Take a program that passes its check.

* If memory has room for the stack and the inputs that it declares, then it is lowered.  At every
  point of the right length the straight-line code has a value, which is the one that interpreting
  the program gives with the powers computed by multiplications whose exponent is a constant, with
  any changes of sign, and an integer from 0 to 64.  Without such powers it is the value that
  interpreting gives.
* If memory has no room for them, there is no lowering. -/
theorem lowering_agrees (h : p.verify = .ok ()) :
    (p.maxStack * 24 ≤ 2 ^ 63 - 1 → p.inputs * 8 ≤ 2 ^ 63 - 1 →
      ∃ r, p.routine = .ok r ∧
        ∀ (α : Type) (a : Arithmetic α) (point : Array α), point.size = p.inputs →
          ∃ x, r.evaluate a point = .ok x ∧
            Machine.interpretBy (p.expansion a) p point (a.const .zero) = .ok x ∧
            ((∀ u v n, p.code.toList = u ++ .pow :: v → ¬ p.Expands u.reverse n) →
              Machine.interpret a p point = .ok x)) ∧
    (¬ (p.maxStack * 24 ≤ 2 ^ 63 - 1 ∧ p.inputs * 8 ≤ 2 ^ 63 - 1) →
      p.routine = .error .memory) ∧
    ∀ before n, p.inlinePower? before = some n ↔ p.Expands before n := by
  obtain ⟨r, hr⟩ := lower_of_verify h
  have hroutine := routine_of_lower hr
  refine ⟨fun hstack hinputs => ⟨r, ?_, fun α a point hpoint => ?_⟩, fun hnone => ?_,
    fun _ _ => inlinePower?_eq_some_iff⟩
  · rw [hroutine, if_pos ⟨hstack, hinputs⟩]
  · obtain ⟨r', x, hr', hx, heval⟩ := evaluate_lower h a (Nat.le_of_eq hpoint.symm)
    cases hr.symm.trans hr'
    have hmachine : Machine.interpretBy (p.expansion a) p point (a.const .zero) = .ok x := by
      rw [Machine.interpretBy, if_pos (hasRow_of_room hstack), heval]
    refine ⟨x, hx, hmachine, fun hexpands => ?_⟩
    have hchoice : ∀ u i v, p.code.toList = u ++ i :: v → p.expansion a u.reverse i = a := by
      intro u i v hcode
      refine expansion_eq ?_
      rintro rfl n
      exact hexpands u v n hcode
    rw [← Machine.interpretBy_eq_interpret a p point hchoice, hmachine]
  · rw [hroutine, if_neg hnone]

/-- A power whose exponent is minus two with its sign changed. -/
def square : Program :=
  ⟨"", 1, 2, #[⟨0xc000000000000000⟩], #[], #[.loadInput 0, .loadConst 0, .neg, .pow]⟩

/-- That power is checked, lowered and expanded, and both ways to run it agree. -/
theorem lowering_agrees_square :
    square.verify = .ok () ∧ ∃ r, square.routine = .ok r ∧
      square.Expands [.neg, .loadConst 0, .loadInput 0] 2 ∧
      ∀ x : Float, ∃ y, r.evaluate .float #[x] = .ok y ∧
        Machine.interpretBy (square.expansion .float) square #[x] (Arithmetic.float.const .zero) =
          .ok y := by
  have hverify : square.verify = .ok () := rfl
  obtain ⟨hlowered, -, hexpands⟩ := lowering_agrees hverify
  obtain ⟨r, hroutine, hvalue⟩ := hlowered (by decide) (by decide)
  have hpower : square.inlinePower? [.neg, .loadConst 0, .loadInput 0] = some 2 := by
    decide +kernel
  refine ⟨hverify, r, hroutine, (hexpands _ _).mp hpower, fun x => ?_⟩
  obtain ⟨y, hr, hmachine, -⟩ := hvalue Float .float #[x] rfl
  exact ⟨y, hr, hmachine⟩

/-- A program that declares more stack than memory has passes its check, and its straight-line code
cannot be made. -/
theorem routine_of_oversized_stack :
    verify ⟨"1", 0, 18446744073709551615, #[.one], #[], #[.loadConst 0]⟩ = .ok () ∧
      ∀ r, routine ⟨"1", 0, 18446744073709551615, #[.one], #[], #[.loadConst 0]⟩ ≠ .ok r := by
  have hmemory : routine ⟨"1", 0, 18446744073709551615, #[.one], #[], #[.loadConst 0]⟩ =
      .error .memory := rfl
  refine ⟨rfl, fun r hr => ?_⟩
  rw [hmemory] at hr
  cases hr

end Program
end Formula
