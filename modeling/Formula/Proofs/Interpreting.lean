import Mathlib.Algebra.Group.Nat.Defs
import Formula.Proofs.Execution

/-!
# Interpreting a checked program

A run of the machine is compared with a stack that has no limit, `Program.results?`: the list of
values that the code leaves, the top first.  For a checked program there is exactly one, and the
machine finds it on **every** row that has as many cells as the program declares, whatever the cells
held before (`evaluateOn_of_verify`).  So it makes no difference which row a run is given, and no
difference how much stack is declared, as long as the check accepts it.

Cells that the code is too short to reach make no difference to any program, checked or not
(`evaluateOn_append`).  `interpret` sets up its row without them, and `interpret_eq_evaluate` puts
them back.

What does make a difference is memory.  The check compares the declared stack with the depth of the
code and with nothing else, so a program may declare more than memory has.  Its row cannot be set
up, and the run fails before its first instruction.
-/

namespace Formula

variable {α : Type}

namespace Program

/-- The values that the code of a program leaves on a stack without a limit, the top first. -/
def results? (a : Arithmetic α) (p : Program) (point : Array α) : Option (List α) :=
  p.execute (fun _ _ => a) point [] [] p.code.toList

/-- The declared stack has no part in what the code does. -/
theorem execute_maxStack (choose : Choice α) (p : Program) (k : Nat) (point : Array α)
    (before : List Instruction) (vs : List α) (code : List Instruction) :
    Program.execute choose { p with maxStack := k } point before vs code =
      p.execute choose point before vs code := by
  induction code generalizing before vs with
  | nil => rfl
  | cons i code ih =>
    have heffect : ∀ a : Arithmetic α,
        Program.effect a { p with maxStack := k } point vs i = p.effect a point vs i := by
      intro a
      cases i <;> rfl
    unfold execute
    rw [heffect]
    exact congrArg _ (funext fun vs' => ih (i :: before) vs')

end Program

namespace Machine

/-! ## Cells out of reach -/

namespace Stack

/-- A stack on a longer row. -/
def extend (s : Stack α) (more : Array α) : Stack α := ⟨s.cells ++ more, s.live⟩

variable {s s' : Stack α} (more : Array α)

theorem push_extend (h : s.live < s.cells.size) (x : α) :
    (s.extend more).push x = (s.push x).map (extend · more) := by
  obtain ⟨cells, live⟩ := s
  have hlive : live < cells.size := h
  have hlonger : live < (cells ++ more).size := by rw [Array.size_append]; omega
  simp only [push, extend, dif_pos hlive, dif_pos hlonger, Except.map, Array.set_append_left hlive]

theorem unary_extend (h : s.live ≤ s.cells.size) (f : α → α) :
    (s.extend more).unary f = (s.unary f).map (extend · more) := by
  obtain ⟨cells, live⟩ := s
  have hlive : live ≤ cells.size := h
  have hlonger : live ≤ (cells ++ more).size := by rw [Array.size_append]; omega
  by_cases hsome : 0 < live
  · have htop : live - 1 < cells.size := by omega
    simp only [unary, extend, dif_pos (And.intro hsome hlive), dif_pos (And.intro hsome hlonger),
      Except.map, Array.getElem_append_left htop, Array.set_append_left htop]
  · have hfault : ∀ cells : Array α, unary ⟨cells, live⟩ f = .error .underflow :=
      fun cells => dif_neg fun h => hsome h.1
    rw [extend, hfault, hfault]
    rfl

theorem binary_extend (h : s.live ≤ s.cells.size) (f : α → α → α) :
    (s.extend more).binary f = (s.binary f).map (extend · more) := by
  obtain ⟨cells, live⟩ := s
  have hlive : live ≤ cells.size := h
  have hlonger : live ≤ (cells ++ more).size := by rw [Array.size_append]; omega
  by_cases htwo : 1 < live
  · have htop : live - 1 < cells.size := by omega
    have hnext : live - 2 < cells.size := by omega
    simp only [binary, extend, dif_pos (And.intro htwo hlive), dif_pos (And.intro htwo hlonger),
      Except.map, Array.getElem_append_left htop, Array.getElem_append_left hnext,
      Array.set_append_left hnext]
  · have hfault : ∀ cells : Array α, binary ⟨cells, live⟩ f = .error .underflow :=
      fun cells => dif_neg fun h => htwo h.1
    rw [extend, hfault, hfault]
    rfl

/-- An operation keeps the row and makes at most one more cell live. -/
def Grows (s s' : Stack α) : Prop := s'.cells.size = s.cells.size ∧ s'.live ≤ s.live + 1

theorem grows_push {x : α} (h : s.push x = .ok s') : s.Grows s' := by
  obtain ⟨cells, live⟩ := s
  simp only [push] at h
  split at h <;> cases h
  exact ⟨by simp only [Array.size_set], Nat.le_refl _⟩

theorem grows_unary {f : α → α} (h : s.unary f = .ok s') : s.Grows s' := by
  obtain ⟨cells, live⟩ := s
  simp only [unary] at h
  split at h <;> cases h
  exact ⟨by simp only [Array.size_set], Nat.le_succ _⟩

theorem grows_binary {f : α → α → α} (h : s.binary f = .ok s') : s.Grows s' := by
  obtain ⟨cells, live⟩ := s
  simp only [binary] at h
  split at h <;> cases h
  exact ⟨by simp only [Array.size_set], Nat.le_succ_of_le (Nat.sub_le ..)⟩

end Stack

section Rows

variable (a : Arithmetic α) (p : Program) (point : Array α) {s s' : Stack α}

theorem grows_of_step {i : Instruction} (h : step a p point s i = .ok s') : s.Grows s' := by
  cases i with
  | loadInput slot | loadConst index =>
    simp only [step] at h
    split at h
    · exact Stack.grows_push h
    · cases h
  | add | sub | mul | div | pow => exact Stack.grows_binary h
  | neg => exact Stack.grows_unary h
  | call index =>
    simp only [step] at h
    split at h
    · cases h
    · split at h
      · exact Stack.grows_binary h
      · exact Stack.grows_unary h

/-- One instruction on a longer row. -/
theorem step_extend (more : Array α) (h : s.live < s.cells.size) (i : Instruction) :
    step a p point (s.extend more) i = (step a p point s i).map (Stack.extend · more) := by
  cases i with
  | loadInput slot =>
    simp only [step]
    cases point[slot]? with
    | none => rfl
    | some x => exact Stack.push_extend more h x
  | loadConst index =>
    simp only [step]
    cases p.constants[index]? with
    | none => rfl
    | some x => exact Stack.push_extend more h (a.const x)
  | add | sub | mul | div | pow => exact Stack.binary_extend more (Nat.le_of_lt h) _
  | neg => exact Stack.unary_extend more (Nat.le_of_lt h) _
  | call index =>
    simp only [step]
    cases p.functions[index]? with
    | none => rfl
    | some f =>
      simp only
      split
      · exact Stack.binary_extend more (Nat.le_of_lt h) _
      · exact Stack.unary_extend more (Nat.le_of_lt h) _

/-- A run on a longer row, if the shorter one has a cell for each instruction.  Both have the same
fault, if there is one, and otherwise the cells of the shorter row come to the same. -/
theorem run_extend (more : Array α) {code : List Instruction}
    (h : s.live + code.length ≤ s.cells.size) :
    run a p point (s.extend more) code = (run a p point s code).map (Stack.extend · more) ∧
      ∀ s', run a p point s code = .ok s' → s'.cells.size = s.cells.size := by
  induction code generalizing s with
  | nil =>
    refine ⟨rfl, fun s' hs' => ?_⟩
    cases hs'
    rfl
  | cons i code ih =>
    rw [List.length_cons] at h
    have hstep := step_extend a p point more (s := s) (by omega) i
    cases hs₁ : step a p point s i with
    | error fault =>
      rw [hs₁] at hstep
      simp only [run, hstep, hs₁]
      refine ⟨rfl, fun s' hs' => ?_⟩
      cases hs'
    | ok s₁ =>
      obtain ⟨hsize, hlive⟩ := grows_of_step a p point hs₁
      rw [hs₁] at hstep
      obtain ⟨hrun, hkept⟩ := ih (s := s₁) (by omega)
      simp only [run, hstep, hs₁]
      exact ⟨hrun, fun s' hs' => (hkept s' hs').trans hsize⟩

/-- **Cells past the number of instructions are never touched.** -/
theorem evaluateOn_append {row : Array α} (more : Array α) (hpos : 0 < row.size)
    (h : p.code.size ≤ row.size) :
    evaluateOn a p point (row ++ more) = evaluateOn a p point row := by
  have hroom : (⟨row, 0⟩ : Stack α).live + p.code.toList.length ≤ row.size := by
    simpa using h
  obtain ⟨hrun, hkept⟩ := run_extend a p point more hroom
  have hrun : run a p point ⟨row ++ more, 0⟩ p.code.toList = _ := hrun
  unfold evaluateOn
  rw [hrun]
  cases hs : run a p point ⟨row, 0⟩ p.code.toList with
  | error fault => rfl
  | ok s =>
    have hfirst : 0 < s.cells.size := by rw [hkept s hs]; exact hpos
    simp only [Except.map, Stack.extend, Array.getElem?_append_left hfirst]

/-- The row of a program and the row without cells out of reach are as good as each other. -/
theorem evaluateOn_usedCells (zero : α) :
    evaluateOn a p point (Array.replicate (usedCells p) zero) =
      evaluateOn a p point (Array.replicate (cells p) zero) := by
  have hle : usedCells p ≤ cells p := Nat.min_le_left ..
  have hused : usedCells p = cells p ∨ usedCells p = max fixedCells p.code.size := by
    unfold usedCells
    omega
  rcases hused with hused | hused
  · rw [hused]
  · rw [show cells p = usedCells p + (cells p - usedCells p) by omega,
      ← Array.replicate_append_replicate]
    refine (evaluateOn_append a p point _ ?_ ?_).symm
    · rw [Array.size_replicate, hused]
      exact Nat.lt_of_lt_of_le (by decide) (Nat.le_max_left fixedCells _)
    · rw [Array.size_replicate, hused]
      exact Nat.le_max_right ..

/-- **Interpreting is a run on the row that the program declares,** if memory has room for it. -/
theorem interpret_eq_evaluate :
    interpret a p point = if hasRow p then evaluate a p point else .error .memory := by
  rw [interpret, evaluateOn_usedCells, evaluate]

/-- The value of a program at a point, each instruction with the arithmetic chosen for it, if there
is a row to run it on. -/
def interpretBy (choose : Choice α) (p : Program) (point : Array α) (zero : α) : Except Fault α :=
  if hasRow p then evaluateBy choose p point zero else .error .memory

theorem interpretBy_eq_interpret {choose : Choice α}
    (h : ∀ u i v, p.code.toList = u ++ i :: v → choose u.reverse i = a) :
    interpretBy choose p point (a.const .zero) = interpret a p point := by
  rw [interpretBy, evaluateBy_eq_evaluate h, interpret_eq_evaluate]

end Rows

/-! ## Checked programs -/

variable {a : Arithmetic α} {p : Program} {point : Array α}

/-- **The row does not matter.**  A checked program leaves one value, and the machine finds it on
every row with enough cells for the declared stack. -/
theorem evaluateOn_of_verify (h : p.verify = .ok ()) (a : Arithmetic α)
    (hpoint : p.inputs ≤ point.size) :
    ∃ x, p.results? a point = some [x] ∧
      ∀ row : Array α, p.maxStack ≤ row.size → evaluateOn a p point row = .ok x := by
  have hclimbs := Program.verify_eq_ok_iff.mp h
  obtain ⟨x, hresults, -⟩ := evaluateBy_of_verify h (fun _ _ => a) hpoint (a.const .zero)
  refine ⟨x, hresults, fun row hroom => ?_⟩
  have hstart : Stack.Holds (⟨row, 0⟩ : Stack α) row.size [] := ⟨rfl, rfl, row.toList, rfl⟩
  obtain ⟨vs, s, hexec, -, hrun, hs⟩ :=
    runBy_of_climbs hclimbs (fun _ _ => a) hpoint hstart hroom []
  rw [hresults] at hexec
  cases hexec
  rw [runBy_eq_run fun _ _ _ _ => rfl] at hrun
  have htop : s.cells[0]? = some x := hs.getElem?_top
  simp only [evaluateOn, hrun, htop]

/-- What `hasRow` tests, in bytes. -/
theorem hasRow_iff : hasRow p = true ↔ p.maxStack ≤ 32 ∨ p.maxStack * 8 ≤ 2 ^ 63 - 1 := by
  rw [hasRow, Bool.or_eq_true, decide_eq_true_iff, Memory.fits, decide_eq_true_iff]
  rfl

/-- A checked program has the value that it leaves on a stack without a limit, unless memory has no
room for the stack that it declares. -/
theorem interpret_eq_ite (h : p.verify = .ok ()) (hpoint : p.inputs ≤ point.size) {x : α}
    (hx : p.results? a point = some [x]) :
    interpret a p point =
      if p.maxStack ≤ 32 ∨ p.maxStack * 8 ≤ 2 ^ 63 - 1 then .ok x else .error .memory := by
  obtain ⟨y, hy, hrow⟩ := evaluateOn_of_verify h a hpoint
  rw [hx] at hy
  cases hy
  have hcells : evaluate a p point = .ok x := by
    refine hrow _ ?_
    rw [Array.size_replicate]
    exact maxStack_le_cells p
  rw [interpret_eq_evaluate]
  by_cases hroom : p.maxStack ≤ 32 ∨ p.maxStack * 8 ≤ 2 ^ 63 - 1
  · rw [if_pos (hasRow_iff.mpr hroom), if_pos hroom, hcells]
  · rw [if_neg (fun hrow => hroom (hasRow_iff.mp hrow)), if_neg hroom]

/-- **A checked program is safe to interpret, on any row that is large enough.**  At every point of
the right length its code leaves exactly one value on a stack without a limit.  The machine has no
fault and finds that value on every row with the declared number of cells, whatever they hold.
Interpreting gives that value if there are at most 32 cells to set up or memory has room for eight
bytes for each of them, and stops for lack of memory otherwise.  All of this stays as it is when
another stack is declared that the check accepts. -/
theorem interpret_of_verify (h : p.verify = .ok ()) (a : Arithmetic α)
    (hpoint : point.size = p.inputs) :
    ∃ x, p.results? a point = some [x] ∧
      (∀ row : Array α, p.maxStack ≤ row.size → evaluateOn a p point row = .ok x) ∧
      interpret a p point =
        (if p.maxStack ≤ 32 ∨ p.maxStack * 8 ≤ 2 ^ 63 - 1 then .ok x else .error .memory) ∧
      ∀ k, Program.verify { p with maxStack := k } = .ok () →
        interpret a { p with maxStack := k } point =
          if k ≤ 32 ∨ k * 8 ≤ 2 ^ 63 - 1 then .ok x else .error .memory := by
  have hinputs : p.inputs ≤ point.size := Nat.le_of_eq hpoint.symm
  obtain ⟨x, hx, hrow⟩ := evaluateOn_of_verify h a hinputs
  refine ⟨x, hx, hrow, interpret_eq_ite h hinputs hx,
    fun k hk => ?_⟩
  refine interpret_eq_ite hk hinputs ?_
  rw [← hx]
  exact Program.execute_maxStack _ p k point [] [] _

/-- A sum of products that is three values deep. -/
def sample : Program :=
  ⟨"", 2, 3, #[], #[], #[.loadInput 0, .loadInput 1, .loadInput 0, .mul, .add]⟩

/-- Three cells are enough for it, and a row of the fixed size and a larger one give the same. -/
theorem interpret_of_verify_sample :
    sample.verify = .ok () ∧ ∀ x y : Float,
      evaluateOn .float sample #[x, y] #[x, x, x] = .ok (x + y * x) ∧
        interpret .float sample #[x, y] = .ok (x + y * x) ∧
        interpret .float { sample with maxStack := 33 } #[x, y] = .ok (x + y * x) := by
  have hverify : sample.verify = .ok () := rfl
  refine ⟨hverify, fun x y => ?_⟩
  have hpoint : (#[x, y] : Array Float).size = sample.inputs := rfl
  obtain ⟨z, hz, hrow, hinterpret, hother⟩ := interpret_of_verify hverify .float hpoint
  have hsum : sample.results? .float #[x, y] = some [x + y * x] := rfl
  rw [hsum] at hz
  cases hz
  refine ⟨hrow #[x, x, x] (Nat.le_refl 3), ?_, ?_⟩
  · rw [hinterpret]
    exact if_pos (.inl (by decide))
  · rw [hother 33 rfl]
    exact if_pos (.inr (by decide))

/-- A stack that memory has no room for passes the check.  The code leaves its value on a stack
without a limit, and interpreting the program does not. -/
theorem interpret_of_oversized_stack :
    Program.verify ⟨"x0", 1, 18446744073709551615, #[], #[], #[.loadInput 0]⟩ = .ok () ∧
      Program.results? .float ⟨"x0", 1, 18446744073709551615, #[], #[], #[.loadInput 0]⟩ #[2] =
        some [2] ∧
      (∀ x, interpret .float ⟨"x0", 1, 18446744073709551615, #[], #[], #[.loadInput 0]⟩ #[2] ≠
        .ok x) ∧
      Program.verify ⟨"x0", 1, 1, #[], #[], #[.loadInput 0]⟩ = .ok () ∧
      interpret .float ⟨"x0", 1, 1, #[], #[], #[.loadInput 0]⟩ #[2] = .ok 2 := by
  have hmemory : interpret .float ⟨"x0", 1, 18446744073709551615, #[], #[], #[.loadInput 0]⟩ #[2] =
      .error .memory := rfl
  refine ⟨rfl, rfl, fun x hx => ?_, rfl, rfl⟩
  rw [hmemory] at hx
  cases hx

end Machine
end Formula
