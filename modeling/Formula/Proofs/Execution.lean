import Formula.Machine
import Formula.Proofs.Verified

/-!
# Running a checked program

The machine works on a row of cells and checks every access.  What it computes is easier to say of a
list of values, the top first: `Program.effect` is one instruction and `Program.execute` a run.
`Stack.Holds` relates a row to a list, and `evaluateBy_of_verify` says that on a checked program and
a point of the right length the machine has no fault and its value is the one of the list.

## The arithmetic of an instruction

Straight-line code may compute some powers by multiplications, depending on the instructions before
them.  To be able to speak of such runs, the arithmetic of each instruction is chosen by a function
of the instructions that came before and of itself.  `runBy_eq_run` says that the machine is the
case of a constant choice.
-/

namespace Formula

variable {α : Type}

/-- The arithmetic of each instruction, given the instructions before it, the latest first. -/
abbrev Choice (α : Type) := List Instruction → Instruction → Arithmetic α

/-! ## Lists of values -/

/-- The top value replaced. -/
def replaceTop (f : α → α) : List α → Option (List α)
  | x :: vs => some (f x :: vs)
  | _ => none

/-- The two top values replaced by one. -/
def replaceTwo (f : α → α → α) : List α → Option (List α)
  | y :: x :: vs => some (f x y :: vs)
  | _ => none

theorem replaceTop_eq_some {f : α → α} {vs vs' : List α} (h : replaceTop f vs = some vs') :
    ∃ x rest, vs = x :: rest ∧ vs' = f x :: rest := by
  unfold replaceTop at h
  split at h
  · cases h
    exact ⟨_, _, rfl, rfl⟩
  · cases h

theorem replaceTwo_eq_some {f : α → α → α} {vs vs' : List α} (h : replaceTwo f vs = some vs') :
    ∃ x y rest, vs = y :: x :: rest ∧ vs' = f x y :: rest := by
  unfold replaceTwo at h
  split at h
  · cases h
    exact ⟨_, _, _, rfl, rfl⟩
  · cases h

namespace Program

/-- What an instruction does to a stack of values, the top first. -/
def effect (a : Arithmetic α) (p : Program) (point : Array α) (vs : List α) :
    Instruction → Option (List α)
  | .loadInput slot => point[slot]?.map (· :: vs)
  | .loadConst index => p.constants[index]?.map (a.const · :: vs)
  | .add => replaceTwo a.add vs
  | .sub => replaceTwo a.sub vs
  | .mul => replaceTwo a.mul vs
  | .div => replaceTwo a.div vs
  | .pow => replaceTwo a.pow vs
  | .neg => replaceTop a.neg vs
  | .call index => p.functions[index]?.bind fun f =>
    if f.arity = 2 then replaceTwo (a.apply₂ f.builtin) vs
    else replaceTop (a.apply₁ f.builtin) vs

/-- What code does to a stack of values, after other instructions. -/
def execute (choose : Choice α) (p : Program) (point : Array α) (before : List Instruction)
    (vs : List α) : List Instruction → Option (List α)
  | [] => some vs
  | i :: code =>
    (p.effect (choose before i) point vs i).bind fun vs =>
      p.execute choose point (i :: before) vs code

variable {p : Program} {point : Array α}

theorem replaceTop_of_length {f : α → α} {vs : List α} (h : 1 ≤ vs.length) :
    ∃ vs', replaceTop f vs = some vs' ∧ vs'.length = vs.length - 1 + 1 := by
  match vs, h with
  | x :: vs, _ => exact ⟨f x :: vs, rfl, by simp⟩

theorem replaceTwo_of_length {f : α → α → α} {vs : List α} (h : 2 ≤ vs.length) :
    ∃ vs', replaceTwo f vs = some vs' ∧ vs'.length = vs.length - 2 + 1 := by
  match vs, h with
  | y :: x :: vs, _ => exact ⟨f x y :: vs, rfl, by simp⟩

/-- An admitted instruction has an effect, and the list is as long as the check says. -/
theorem effect_of_admits {i : Instruction} {depth : Nat} {vs : List α}
    (h : p.Admits vs.length i depth) (a : Arithmetic α) (hpoint : p.inputs ≤ point.size) :
    ∃ vs', p.effect a point vs i = some vs' ∧ vs'.length = depth := by
  obtain ⟨hnames, ⟨pops, hpops, henough, rfl⟩, -⟩ := h
  cases i with
  | loadInput slot =>
    cases hpops
    have hlt : slot < point.size := Nat.lt_of_lt_of_le hnames hpoint
    exact ⟨point[slot] :: vs, by simp [effect, hlt], rfl⟩
  | loadConst index =>
    cases hpops
    have hlt : index < p.constants.size := hnames
    exact ⟨a.const p.constants[index] :: vs, by simp [effect, hlt], rfl⟩
  | add | sub | mul | div | pow =>
    cases hpops
    exact replaceTwo_of_length henough
  | neg =>
    cases hpops
    exact replaceTop_of_length henough
  | call index =>
    obtain ⟨f, hf, rfl⟩ := Option.map_eq_some_iff.mp hpops
    simp only [effect, hf, Option.bind_some]
    rcases f.arity_eq_one_or_two with harity | harity
    · rw [harity] at henough ⊢
      exact replaceTop_of_length henough
    · rw [harity] at henough ⊢
      exact replaceTwo_of_length henough

end Program

/-! ## Rows of cells -/

namespace Machine

/-- A row of a given size holds a list of values, the top first. -/
structure Stack.Holds (s : Stack α) (size : Nat) (vs : List α) : Prop where
  size_eq : s.cells.size = size
  live : s.live = vs.length
  cells : ∃ free, s.cells.toList = vs.reverse ++ free

namespace Stack.Holds

variable {s : Stack α} {size : Nat} {vs : List α} {x y : α}

theorem length_le (h : s.Holds size vs) : vs.length ≤ size := by
  obtain ⟨free, hcells⟩ := h.cells
  have hlen := congrArg List.length hcells
  simp only [Array.length_toList, List.length_append, List.length_reverse, h.size_eq] at hlen
  omega

/-- Writing to the cell after a list of values. -/
theorem set (h : s.Holds size vs) {live : Nat} (hlive : live = vs.length) (x : α)
    (hlt : live < s.cells.size) :
    Stack.Holds ⟨s.cells.set live x hlt, live + 1⟩ size (x :: vs) := by
  obtain ⟨free, hcells⟩ := h.cells
  refine ⟨by rw [Array.size_set, h.size_eq], congrArg (· + 1) hlive, free.tail, ?_⟩
  have hlen := congrArg List.length hcells
  rw [Array.length_toList, List.length_append, List.length_reverse] at hlen
  cases free with
  | nil =>
    rw [List.length_nil] at hlen
    omega
  | cons c free =>
    simp [Array.toList_set, hcells, hlive, List.set_append_right]

/-- Forgetting the top. -/
theorem drop (h : s.Holds size (x :: vs)) : Stack.Holds ⟨s.cells, vs.length⟩ size vs := by
  obtain ⟨free, hcells⟩ := h.cells
  exact ⟨h.size_eq, rfl, x :: free, by simp [hcells]⟩

/-- The top is where the counter says. -/
theorem getElem?_top (h : s.Holds size (x :: vs)) : s.cells[vs.length]? = some x := by
  obtain ⟨free, hcells⟩ := h.cells
  rw [← Array.getElem?_toList, hcells]
  simp

theorem push (h : s.Holds size vs) (hroom : vs.length < size) (x : α) :
    ∃ s', s.push x = .ok s' ∧ s'.Holds size (x :: vs) := by
  have hlt : s.live < s.cells.size := by rw [h.live, h.size_eq]; exact hroom
  exact ⟨_, dif_pos hlt, h.set h.live x hlt⟩

theorem unary (h : s.Holds size vs) {f : α → α} {vs' : List α}
    (hf : replaceTop f vs = some vs') : ∃ s', s.unary f = .ok s' ∧ s'.Holds size vs' := by
  obtain ⟨x, vs, rfl, rfl⟩ := replaceTop_eq_some hf
  have hlive := h.live
  have hsize := h.size_eq
  have hlen := h.length_le
  rw [List.length_cons] at hlive hlen
  have hcond : 0 < s.live ∧ s.live ≤ s.cells.size := by omega
  have htop : s.live - 1 < s.cells.size := by omega
  have hx : s.cells[s.live - 1] = x := by
    have hget := h.getElem?_top
    rw [show vs.length = s.live - 1 by omega, Array.getElem?_eq_getElem htop] at hget
    exact Option.some.inj hget
  refine ⟨⟨s.cells.set (s.live - 1) (f s.cells[s.live - 1]) htop, s.live⟩, dif_pos hcond, ?_⟩
  have hplace : s.live - 1 = vs.length := by omega
  have hset := h.drop.set hplace (f x) htop
  rw [show s.live - 1 + 1 = s.live by omega] at hset
  rw [hx]
  exact hset

theorem binary (h : s.Holds size vs) {f : α → α → α} {vs' : List α}
    (hf : replaceTwo f vs = some vs') : ∃ s', s.binary f = .ok s' ∧ s'.Holds size vs' := by
  obtain ⟨x, y, vs, rfl, rfl⟩ := replaceTwo_eq_some hf
  have hlive := h.live
  have hsize := h.size_eq
  have hlen := h.length_le
  rw [List.length_cons, List.length_cons] at hlive hlen
  have hcond : 1 < s.live ∧ s.live ≤ s.cells.size := by omega
  have htop : s.live - 1 < s.cells.size := by omega
  have hnext : s.live - 2 < s.cells.size := by omega
  have hy : s.cells[s.live - 1] = y := by
    have hget := h.getElem?_top
    rw [show (x :: vs).length = s.live - 1 by rw [List.length_cons]; omega,
      Array.getElem?_eq_getElem htop] at hget
    exact Option.some.inj hget
  have hx : s.cells[s.live - 2] = x := by
    have hget := h.drop.getElem?_top
    rw [show vs.length = s.live - 2 by omega, Array.getElem?_eq_getElem hnext] at hget
    exact Option.some.inj hget
  refine ⟨⟨s.cells.set (s.live - 2) (f s.cells[s.live - 2] s.cells[s.live - 1]) hnext,
    s.live - 1⟩, dif_pos hcond, ?_⟩
  have hplace : s.live - 2 = vs.length := by omega
  have hset := h.drop.drop.set hplace (f x y) hnext
  rw [show s.live - 2 + 1 = s.live - 1 by omega] at hset
  rw [hx, hy]
  exact hset

end Stack.Holds

/-- The machine does to its row what the instruction does to the list. -/
theorem step_of_effect {a : Arithmetic α} {p : Program} {point : Array α} {s : Stack α}
    {size : Nat} {vs vs' : List α} {i : Instruction} (h : s.Holds size vs)
    (heffect : p.effect a point vs i = some vs') (hroom : vs'.length ≤ size) :
    ∃ s', step a p point s i = .ok s' ∧ s'.Holds size vs' := by
  cases i with
  | loadInput slot =>
    obtain ⟨x, hx, rfl⟩ := Option.map_eq_some_iff.mp heffect
    simp only [step, hx]
    exact h.push hroom x
  | loadConst index =>
    obtain ⟨x, hx, rfl⟩ := Option.map_eq_some_iff.mp heffect
    simp only [step, hx]
    exact h.push hroom (a.const x)
  | add | sub | mul | div | pow => exact h.binary heffect
  | neg => exact h.unary heffect
  | call index =>
    obtain ⟨f, hf, heffect⟩ := Option.bind_eq_some_iff.mp heffect
    simp only [step, hf]
    split at heffect
    · rename_i harity
      rw [if_pos harity]
      exact h.binary heffect
    · rename_i harity
      rw [if_neg harity]
      exact h.unary heffect

/-! ## Runs -/

/-- Instructions in order, each with the arithmetic chosen for it. -/
def runBy (choose : Choice α) (p : Program) (point : Array α) (before : List Instruction)
    (s : Stack α) : List Instruction → Except Fault (Stack α)
  | [] => .ok s
  | i :: code =>
    match step (choose before i) p point s i with
    | .error fault => .error fault
    | .ok s => runBy choose p point (i :: before) s code

/-- The value of a program at a point, each instruction with the arithmetic chosen for it. -/
def evaluateBy (choose : Choice α) (p : Program) (point : Array α) (zero : α) : Except Fault α :=
  match runBy choose p point [] ⟨Array.replicate (cells p) zero, 0⟩ p.code.toList with
  | .error fault => .error fault
  | .ok s =>
    match s.cells[0]? with
    | some x => .ok x
    | none => .error .underflow

/-- Only the arithmetic of the instructions that are there matters. -/
theorem runBy_eq_run {a : Arithmetic α} {choose : Choice α} {p : Program} {point : Array α}
    {before code : List Instruction} {s : Stack α}
    (h : ∀ u i v, code = u ++ i :: v → choose (u.reverse ++ before) i = a) :
    runBy choose p point before s code = run a p point s code := by
  induction code generalizing before s with
  | nil => rfl
  | cons i code ih =>
    have hi : choose before i = a := by simpa using h [] i code rfl
    unfold runBy run
    rw [hi]
    cases step a p point s i with
    | error fault => rfl
    | ok s =>
      refine ih fun u j v hcode => ?_
      have := h (i :: u) j v (by rw [hcode]; rfl)
      simpa using this

theorem evaluateBy_eq_evaluate {a : Arithmetic α} {choose : Choice α} {p : Program}
    {point : Array α} (h : ∀ u i v, p.code.toList = u ++ i :: v → choose u.reverse i = a) :
    evaluateBy choose p point (a.const .zero) = evaluate a p point := by
  have hrun : ∀ s, runBy choose p point [] s p.code.toList = run a p point s p.code.toList :=
    fun s => runBy_eq_run (by simpa using h)
  unfold evaluateBy evaluate evaluateOn
  cases hr : run a p point ⟨Array.replicate (cells p) (a.const .zero), 0⟩ p.code.toList with
  | error fault => simp only [hrun, hr]
  | ok s =>
    cases hx : s.cells[0]? with
    | none => simp only [hrun, hr, hx]
    | some x => simp only [hrun, hr, hx]

/-- **Checked code runs without a fault** on a row that has the declared number of cells. -/
theorem runBy_of_climbs {p : Program} {code : List Instruction} {depth : Nat} {vs : List α}
    (h : p.Climbs vs.length code depth) (choose : Choice α) {point : Array α}
    (hpoint : p.inputs ≤ point.size) {s : Stack α} {size : Nat} (hs : s.Holds size vs)
    (hroom : p.maxStack ≤ size) (before : List Instruction) :
    ∃ vs' s', p.execute choose point before vs code = some vs' ∧ vs'.length = depth ∧
      runBy choose p point before s code = .ok s' ∧ s'.Holds size vs' := by
  induction code generalizing vs s before with
  | nil =>
    cases h
    exact ⟨vs, s, rfl, rfl, rfl, hs⟩
  | cons i code ih =>
    cases h with
    | @cons _ mid _ _ _ first rest =>
      obtain ⟨vs₁, heffect, rfl⟩ := Program.effect_of_admits first (choose before i) hpoint
      obtain ⟨s₁, hstep, hs₁⟩ := step_of_effect hs heffect (Nat.le_trans first.room hroom)
      obtain ⟨vs', s', hexec, hlen, hrun, hs'⟩ := ih rest hs₁ (i :: before)
      refine ⟨vs', s', ?_, hlen, ?_, hs'⟩
      · rw [Program.execute, heffect, Option.bind_some, hexec]
      · simp only [runBy, hstep, hrun]

theorem maxStack_le_cells (p : Program) : p.maxStack ≤ cells p := by
  unfold cells
  split
  · assumption
  · exact Nat.le_refl _

/-- **A checked program has a value at every point of the right length.** -/
theorem evaluateBy_of_verify {p : Program} (h : p.verify = .ok ()) (choose : Choice α)
    {point : Array α} (hpoint : p.inputs ≤ point.size) (zero : α) :
    ∃ x, p.execute choose point [] [] p.code.toList = some [x] ∧
      evaluateBy choose p point zero = .ok x := by
  have hstart : Stack.Holds (⟨Array.replicate (cells p) zero, 0⟩ : Stack α) (cells p) [] :=
    ⟨Array.size_replicate, rfl, _, rfl⟩
  obtain ⟨vs, s, hexec, hlen, hrun, hs⟩ :=
    runBy_of_climbs (Program.verify_eq_ok_iff.mp h) choose hpoint hstart (maxStack_le_cells p) []
  obtain ⟨x, rfl⟩ := List.length_eq_one_iff.mp hlen
  refine ⟨x, hexec, ?_⟩
  have htop : s.cells[0]? = some x := hs.getElem?_top
  simp only [evaluateBy, hrun, htop]

end Machine
end Formula
