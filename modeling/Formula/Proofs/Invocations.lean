import Formula.Compiled.Batch
import Formula.Proofs.Hosts
import Formula.Proofs.Interpreting

/-!
# What a compiled function reads

The code behind a compiled function takes a slice of values and does not check its length.  A slice
that is too short would be read past its end.  Three things together keep this from happening: the
check of a program bounds the inputs that it names, lowering loads no others, and each way to call
the function makes slices of the right length or none.

* `size_of_mem_session`: all slices that are met in a sequence of calls have the length of the
  inputs.
* `Routine.slot_lt_of_run`: code that runs without a fault loads from inside its slice, so the loads
  of a lowered program are bounded by the inputs it declares (`Program.slot_lt_of_lower`).

## Threads

Points that are evaluated in parallel go through a thread pool, of which only `ThreadPool.Lawful` is
known.  Its laws are what a pool is documented to do: chunks are consecutive, values are put
together in the order of the chunks, a fault in one chunk is a fault of the whole, and nothing but
the chunks is worked on.  In which order the work is done is left open.
-/

namespace Formula

/-! ## Scripts -/

namespace Script

variable {α β : Type} (call : Array α → Except EvaluationError α)

/-- Scripts one after the other. -/
def inTurn : List (Script α β) → Script α (List β)
  | [] => done []
  | s :: scripts => s.bind fun answer => (inTurn scripts).map (answer :: ·)

theorem run_invokeFrom (values : Array α) (points : List (Array α)) :
    (invokeFrom values points).run call = (points.mapM call).map (values.toList ++ ·) := by
  induction points generalizing values with
  | nil =>
    show Except.ok values.toList = Except.ok (values.toList ++ [])
    rw [List.append_nil]
  | cons point points ih =>
    rw [List.mapM_cons]
    cases hpoint : call point with
    | error e => simp only [invokeFrom, run, hpoint]; rfl
    | ok x =>
      simp only [invokeFrom, run, hpoint, ih]
      cases points.mapM call with
      | error e => rfl
      | ok xs =>
        show Except.ok ((values.push x).toList ++ xs) = Except.ok (values.toList ++ x :: xs)
        simp

/-- The points are evaluated in order. -/
theorem run_invokeAll (points : List (Array α)) :
    (invokeAll points).run call = points.mapM call := by
  rw [invokeAll, run_invokeFrom]
  cases points.mapM call <;> rfl

theorem mem_of_mem_invokeFrom {values : Array α} {points : List (Array α)} {slice : Array α}
    (h : slice ∈ (invokeFrom values points).trace call) : slice ∈ points := by
  induction points generalizing values with
  | nil => cases h
  | cons point points ih =>
    rcases List.mem_cons.mp h with rfl | hrest
    · exact List.mem_cons_self
    · refine List.mem_cons_of_mem point ?_
      cases hpoint : call point with
      | error e => simp [hpoint, trace] at hrest
      | ok x =>
        rw [hpoint] at hrest
        exact ih hrest

/-- Only the points are met. -/
theorem mem_of_mem_invokeAll {points : List (Array α)} {slice : Array α}
    (h : slice ∈ (invokeAll points).trace call) : slice ∈ points :=
  mem_of_mem_invokeFrom call h

theorem run_inTurn (scripts : List (Script α β)) :
    (inTurn scripts).run call = scripts.map (run call) := by
  induction scripts with
  | nil => rfl
  | cons s scripts ih => simp [inTurn, ih]

theorem mem_inTurn {scripts : List (Script α β)} {slice : Array α}
    (h : slice ∈ (inTurn scripts).trace call) : ∃ s ∈ scripts, slice ∈ s.trace call := by
  induction scripts with
  | nil => cases h
  | cons s scripts ih =>
    rw [inTurn, trace_bind, trace_map] at h
    rcases List.mem_append.mp h with hs | hrest
    · exact ⟨s, List.mem_cons_self, hs⟩
    · obtain ⟨s', hs', hslice⟩ := ih hrest
      exact ⟨s', List.mem_cons_of_mem s hs', hslice⟩

/-! ### Gathering -/

variable {scripts : List (Script α (Except EvaluationError (List α)))}

theorem run_gatherFrom {lists : List (List α)} (h : scripts.map (run call) = lists.map .ok)
    (values : Array α) :
    (gatherFrom values scripts).run call = .ok (values.toList ++ lists.flatten) := by
  induction scripts generalizing lists values with
  | nil =>
    obtain rfl : lists = [] := List.map_eq_nil_iff.mp h.symm
    simp [gatherFrom, run]
  | cons s scripts ih =>
    cases lists with
    | nil => cases h
    | cons xs lists =>
      rw [List.map_cons, List.map_cons, List.cons.injEq] at h
      rw [gatherFrom, run_bind, h.1]
      simp [ih h.2]

theorem error_gatherFrom {e : EvaluationError} (h : ∃ s ∈ scripts, s.run call = .error e)
    (values : Array α) :
    ∃ s ∈ scripts, ∃ e', s.run call = .error e' ∧
      (gatherFrom values scripts).run call = .error e' := by
  induction scripts generalizing values with
  | nil =>
    obtain ⟨s, hs, -⟩ := h
    cases hs
  | cons s scripts ih =>
    rw [gatherFrom, run_bind]
    cases hs : s.run call with
    | error e' => exact ⟨s, List.mem_cons_self, e', hs, rfl⟩
    | ok more =>
      have hlater : ∃ t ∈ scripts, t.run call = .error e := by
        obtain ⟨t, ht, herror⟩ := h
        rcases List.mem_cons.mp ht with rfl | ht
        · cases hs.symm.trans herror
        · exact ⟨t, ht, herror⟩
      obtain ⟨t, ht, e', herror, hrun⟩ := ih hlater (values ++ more)
      exact ⟨t, List.mem_cons_of_mem s ht, e', herror, hrun⟩

theorem mem_gatherFrom {values : Array α} {slice : Array α}
    (h : slice ∈ (gatherFrom values scripts).trace call) : ∃ s ∈ scripts, slice ∈ s.trace call := by
  induction scripts generalizing values with
  | nil => cases h
  | cons s scripts ih =>
    rw [gatherFrom, trace_bind] at h
    rcases List.mem_append.mp h with hs | hrest
    · exact ⟨s, List.mem_cons_self, hs⟩
    · cases hs : s.run call with
      | error e =>
        rw [hs] at hrest
        cases hrest
      | ok more =>
        rw [hs] at hrest
        obtain ⟨t, ht, hslice⟩ := ih hrest
        exact ⟨t, List.mem_cons_of_mem s ht, hslice⟩

end Script

/-! ## Threads -/

theorem flatten_chunks {β : Type} (n : Nat) (xs : List β) : (chunks n xs).flatten = xs := by
  induction xs using chunks.induct n with
  | case1 => simp [chunks]
  | case2 x xs ih => rw [chunks, List.flatten_cons, ih, List.cons_append, List.take_append_drop]

namespace ThreadPool

variable {α : Type}

/-- What a thread pool is documented to do. -/
structure Lawful (pool : ThreadPool α) : Prop where
  /-- Chunks are consecutive pieces of a list and leave nothing out. -/
  flatten_chunks : ∀ (n : Nat) (points : List (Array α)), 0 < n →
    (pool.chunks n points).flatten = points
  /-- If all work goes through, the values are put together in the order of the chunks. -/
  run_gather : ∀ (call : Array α → Except EvaluationError α)
    (scripts : List (Script α (Except EvaluationError (List α)))) (lists : List (List α)),
    scripts.map (Script.run call) = lists.map .ok →
      (pool.gather scripts).run call = .ok lists.flatten
  /-- If some work fails, the whole fails with what failed in one of the chunks. -/
  error_gather : ∀ (call : Array α → Except EvaluationError α)
    (scripts : List (Script α (Except EvaluationError (List α)))) (e : EvaluationError),
    (∃ s ∈ scripts, s.run call = .error e) →
      ∃ s ∈ scripts, ∃ e', s.run call = .error e' ∧ (pool.gather scripts).run call = .error e'
  /-- Nothing but the work on the chunks is done. -/
  mem_gather : ∀ (call : Array α → Except EvaluationError α)
    (scripts : List (Script α (Except EvaluationError (List α)))) (slice : Array α),
    slice ∈ (pool.gather scripts).trace call → ∃ s ∈ scripts, slice ∈ s.trace call

/-- **A pool that takes one chunk after the other does that.** -/
theorem lawful_inTurn (threads : Nat) : (inTurn threads : ThreadPool α).Lawful where
  flatten_chunks n points _ := Formula.flatten_chunks n points
  run_gather call _ _ h := Script.run_gatherFrom call h #[]
  error_gather call _ _ h := Script.error_gatherFrom call h #[]
  mem_gather call _ _ h := Script.mem_gatherFrom call h

end ThreadPool

/-! ## Calls -/

/-- A way to call a compiled function, with what it is called on. -/
inductive Call (α : Type) where
  | evaluate (point : Array α)
  | tryEvaluate (point : Array α)
  | evaluateStorage (point : Storage α)
  | evaluateBatch (batch : Array α)
  | evaluateBatchInto (batch : Array α) (out : Storage α)
  | evaluateParallel (pool : ThreadPool α) (lawful : pool.Lawful) (points : List (Array α))

/-- What comes out of a call. -/
inductive Answer (α : Type) where
  | value? (value : Option α)
  | value (value : Except EvaluationError α)
  | batch (values : Except EvaluationError (Array α))
  | written (outcome : Except EvaluationError Unit) (out : Storage α)
  | values (values : Except EvaluationError (List α))

namespace Compiled

variable {α : Type}

/-- Calls a function. -/
def answer (a : Arithmetic α) (f : Compiled) : Call α → Answer α
  | .evaluate point => .value? (f.evaluate? a point)
  | .tryEvaluate point => .value (f.tryEvaluate a point)
  | .evaluateStorage point => .value (f.evaluateStorage a point)
  | .evaluateBatch batch => .batch (f.evaluateBatch a batch)
  | .evaluateBatchInto batch out =>
    .written (f.evaluateBatchInto a batch out).1 (f.evaluateBatchInto a batch out).2
  | .evaluateParallel pool _ points => .values (f.evaluateParallelOn pool a points)

/-- The script of a call.  Of the arithmetic only zero is used, for a batch that is to be filled. -/
def script (a : Arithmetic α) (f : Compiled) : Call α → Script α (Answer α)
  | .evaluate point => (f.promisedScript point).map .value?
  | .tryEvaluate point => (f.pointScript point).map .value
  | .evaluateStorage point => (f.pointScript point.slice).map .value
  | .evaluateBatch batch => (f.batchScript (a.const .zero) batch).map .batch
  | .evaluateBatchInto batch out =>
    (f.intoScript batch out).map fun (outcome, out) => .written outcome out
  | .evaluateParallel pool _ points => (f.parallelScript pool points).map .values

/-- The script of a sequence of calls. -/
def session (a : Arithmetic α) (f : Compiled) (calls : List (Call α)) :
    Script α (List (Answer α)) :=
  Script.inTurn (calls.map (f.script a))

/-- **Run with the code of the function, a script gives what the function gives.** -/
theorem run_script (a : Arithmetic α) (f : Compiled) (c : Call α) :
    (f.script a c).run (f.value a) = f.answer a c := by
  cases c <;> exact Script.run_map ..

theorem run_session (a : Arithmetic α) (f : Compiled) (calls : List (Call α)) :
    (f.session a calls).run (f.value a) = calls.map (f.answer a) := by
  rw [session, Script.run_inTurn, List.map_map]
  exact List.map_congr_left fun c _ => run_script a f c

/-! ### All slices have the length of the inputs -/

variable {f : Compiled} {a : Arithmetic α} {call : Array α → Except EvaluationError α}
  {slice : Array α}

theorem size_of_checkLength {point : Array α} {u : Unit} (h : f.checkLength point = .ok u) :
    point.size = f.inputs := by
  unfold checkLength at h
  split at h
  · assumption
  · cases h

theorem size_of_checkLengths {points : List (Array α)} {u : Unit}
    (h : f.checkLengths points = .ok u) : ∀ point ∈ points, point.size = f.inputs := by
  induction points with
  | nil => simp
  | cons point points ih =>
    unfold checkLengths at h
    split at h
    · cases h
    · rename_i hpoint
      exact List.forall_mem_cons.mpr ⟨size_of_checkLength hpoint, ih h⟩

/-- A batch is cut into points of the right length.  A function without inputs has no points. -/
theorem size_of_mem_points {batch : Array α} {count : Nat} (h : f.pointCount batch = .ok count) :
    ∀ point ∈ f.points batch count, point.size = f.inputs := by
  intro point hpoint
  obtain ⟨i, hi, rfl⟩ := List.mem_map.mp hpoint
  rw [List.mem_range] at hi
  unfold pointCount at h
  split at h
  · cases h
    cases hi
  · split at h
    · cases h
      have hend : i * f.inputs + f.inputs ≤ batch.size := by
        rw [← Nat.succ_mul]
        exact Nat.mul_le_of_le_div _ _ _ hi
      rw [Array.size_extract, Nat.min_eq_left hend, Nat.add_sub_cancel_left]
    · cases h

theorem size_of_mem_pointScript {point : Array α}
    (h : slice ∈ (f.pointScript point).trace call) : slice.size = f.inputs := by
  unfold pointScript at h
  split at h
  · cases h
  · rename_i hlength
    cases List.mem_singleton.mp h
    exact size_of_checkLength hlength

theorem size_of_mem_intoScript {batch : Array α} {out : Storage α}
    (h : slice ∈ (f.intoScript batch out).trace call) : slice.size = f.inputs := by
  unfold intoScript at h
  split at h
  · cases h
  · rename_i hcount
    split at h
    · rw [Script.trace_map] at h
      exact size_of_mem_points hcount slice
        (List.mem_of_mem_take (Script.mem_of_mem_invokeAll call h))
    · cases h

theorem size_of_mem_parallelScript {pool : ThreadPool α} (lawful : pool.Lawful)
    {points : List (Array α)} (h : slice ∈ (f.parallelScript pool points).trace call) :
    slice.size = f.inputs := by
  unfold parallelScript at h
  split at h
  · cases h
  · rename_i hlengths
    obtain ⟨s, hs, hslice⟩ := lawful.mem_gather _ _ _ h
    obtain ⟨chunk, hchunk, rfl⟩ := List.mem_map.mp hs
    have hpoints := lawful.flatten_chunks (chunkLength pool.threads points.length) points
      (Nat.le_max_right ..)
    refine size_of_checkLengths hlengths slice ?_
    rw [← hpoints]
    exact List.mem_flatten_of_mem hchunk (Script.mem_of_mem_invokeAll call hslice)

/-- **A call invokes the code on slices of the right length only,** whatever it is called on. -/
theorem size_of_mem_script {c : Call α} (h : slice ∈ (f.script a c).trace call) :
    slice.size = f.inputs := by
  cases c with
  | evaluate point =>
    rw [script, Script.trace_map, promisedScript, Script.trace_map] at h
    exact size_of_mem_pointScript h
  | tryEvaluate point | evaluateStorage point =>
    rw [script, Script.trace_map] at h
    exact size_of_mem_pointScript h
  | evaluateBatch batch =>
    rw [script, Script.trace_map, batchScript] at h
    split at h
    · cases h
    · rw [Script.trace_map] at h
      exact size_of_mem_intoScript h
  | evaluateBatchInto batch out =>
    rw [script, Script.trace_map] at h
    exact size_of_mem_intoScript h
  | evaluateParallel pool lawful points =>
    rw [script, Script.trace_map] at h
    exact size_of_mem_parallelScript lawful h

theorem size_of_mem_session {calls : List (Call α)}
    (h : slice ∈ (f.session a calls).trace call) : slice.size = f.inputs := by
  obtain ⟨s, hs, hslice⟩ := Script.mem_inTurn call h
  obtain ⟨c, -, rfl⟩ := List.mem_map.mp hs
  exact size_of_mem_script hslice

end Compiled

/-! ## Loads -/

/-- Code that runs without a fault loads from inside the slice. -/
theorem Routine.slot_lt_of_run {α : Type} {a : Arithmetic α} {imports : Array Builtin}
    {point values values' : Array α} {nodes : List Node} {slot : Nat}
    (h : run a imports point nodes values = .ok values') (hload : .load slot ∈ nodes) :
    slot < point.size := by
  induction nodes generalizing values with
  | nil => cases hload
  | cons node nodes ih =>
    unfold run at h
    split at h
    · cases h
    · rename_i x hnode
      rcases List.mem_cons.mp hload with rfl | hrest
      · simp only [evaluateNode] at hnode
        split at hnode
        · rename_i hget
          exact (Array.getElem?_eq_some_iff.mp hget).1
        · cases hnode
      · exact ih h hrest

namespace Program

variable {p : Program}

/-- **A lowered program loads declared inputs only.** -/
theorem slot_lt_of_lower {r : Routine} {slot : Nat} (h : p.verify = .ok ()) (hr : p.lower = .ok r)
    (hload : .load slot ∈ r.nodes) : slot < p.inputs := by
  -- a run on any numbers shows the loads, so numbers that are all the same will do
  have hsize : (Array.replicate p.inputs ()).size = p.inputs := Array.size_replicate
  obtain ⟨r', x, hr', hx, -⟩ := evaluate_lower h .single (Nat.le_of_eq hsize.symm)
  cases hr.symm.trans hr'
  unfold Routine.evaluate at hx
  split at hx
  · cases hx
  · rename_i hrun
    rw [← hsize]
    exact Routine.slot_lt_of_run hrun (Array.mem_toList_iff.mpr hload)

theorem Climbs.names {depth depth' : Nat} {code : List Instruction} (h : p.Climbs depth code depth')
    {i : Instruction} (hi : i ∈ code) : p.Names i := by
  induction h with
  | nil => cases hi
  | cons first _ ih =>
    rcases List.mem_cons.mp hi with rfl | hrest
    · exact first.names
    · exact ih hrest

/-- **A checked program names declared inputs only.** -/
theorem slot_lt_of_verify {slot : Nat} (h : p.verify = .ok ()) (hload : .loadInput slot ∈ p.code) :
    slot < p.inputs :=
  (verify_eq_ok_iff.mp h).names (Array.mem_toList_iff.mpr hload)

end Program

/-- On a slice of the right length, code that was loaded has a value.  The one exception is a
program that is interpreted and declares more stack than memory has room for. -/
theorem Compiled.value_cases_of_load {α ρ : Type} {host : Host ρ} {p : Program} {o : Options}
    {f : Compiled} (h : p.loadOn host o = .ok f) (a : Arithmetic α) {slice : Array α}
    (hslice : slice.size = p.inputs) :
    ((f.code = .interpreted p → Machine.hasRow p = true) ∧ ∃ x, f.value a slice = .ok x) ∨
      ((f.code = .interpreted p ∧ Machine.hasRow p = false) ∧
        f.value a slice = .error (.fault .memory)) := by
  obtain ⟨hverify, -, -, hcode⟩ := Program.loadOn_cases h
  have hinputs : p.inputs ≤ slice.size := Nat.le_of_eq hslice.symm
  unfold value
  rcases hcode with hcode | ⟨r, hr, hcode⟩
  · obtain ⟨x, hx, -⟩ := Machine.evaluateOn_of_verify hverify a hinputs
    rw [hcode, Code.evaluate, Machine.interpret_eq_ite hverify hinputs hx]
    split
    · rename_i hrow
      exact .inl ⟨fun _ => Machine.hasRow_iff.mpr hrow, x, rfl⟩
    · rename_i hrow
      have hnone : Machine.hasRow p = false :=
        Bool.eq_false_iff.mpr fun htrue => hrow (Machine.hasRow_iff.mp htrue)
      exact .inr ⟨⟨rfl, hnone⟩, rfl⟩
  · obtain ⟨r', x, hr', hx, -⟩ := Program.evaluate_lower hverify a hinputs
    cases hr.symm.trans hr'
    rw [hcode, Code.evaluate, hx]
    exact .inl ⟨nofun, x, rfl⟩

/-- **Code that was loaded reads inside of its slice.**  On a slice of the right length it has a
value, unless there is no memory for its stack. -/
theorem Compiled.value_of_load {α ρ : Type} {host : Host ρ} {p : Program} {o : Options}
    {f : Compiled} (h : p.loadOn host o = .ok f) (a : Arithmetic α) {slice : Array α}
    (hslice : slice.size = p.inputs) :
    (∃ x, f.value a slice = .ok x) ∨ f.value a slice = .error (.fault .memory) :=
  (value_cases_of_load h a hslice).imp And.right And.right

/-- **A loaded function never reads outside of its input.**  Take any sequence of calls of a
function that was loaded from a program, on any host.

* Run as a script, with the code of the function, it gives the answers of the function.
* All slices that the code is invoked on have as many values as the program declares inputs, and on
  each of them the code has a value, unless there is no memory for its stack.
* The code is the program or its lowered form.  A load of the lowered form is at eight bytes for
  each input before it, for an input that is declared, so that the eight bytes it reads are inside
  of such a slice.  An input that the program itself loads is a declared one too. -/
theorem Compiled.reads_inside {α ρ : Type} {host : Host ρ} {p : Program} {o : Options}
    {f : Compiled} (h : p.loadOn host o = .ok f) (a : Arithmetic α) (calls : List (Call α)) :
    (f.session a calls).run (f.value a) = calls.map (f.answer a) ∧
    (∀ slice ∈ (f.session a calls).trace (f.value a), slice.size = p.inputs ∧
      ((∃ x, f.value a slice = .ok x) ∨ f.value a slice = .error (.fault .memory))) ∧
    ∃ r, p.lower = .ok r ∧ (f.code = .interpreted p ∨ f.code = .native r) ∧
      (∀ slot, Node.load slot ∈ r.nodes → Routine.inputOffset slot = 8 * slot ∧
        slot < p.inputs ∧ Routine.inputOffset slot + 8 ≤ 8 * p.inputs) ∧
      ∀ slot, Instruction.loadInput slot ∈ p.code → slot < p.inputs := by
  obtain ⟨hverify, hinputs, -, hcode⟩ := Program.loadOn_cases h
  obtain ⟨r, hr⟩ := Program.lower_of_verify hverify
  refine ⟨run_session a f calls, fun slice hslice => ?_, r, hr, ?_, fun slot hload => ?_,
    fun slot hload => Program.slot_lt_of_verify hverify hload⟩
  · have hsize : slice.size = p.inputs := hinputs ▸ size_of_mem_session hslice
    exact ⟨hsize, value_of_load h a hsize⟩
  · refine hcode.imp_right ?_
    rintro ⟨r', hr', hnative⟩
    cases hr.symm.trans hr'
    exact hnative
  · have hslot := Program.slot_lt_of_lower hverify hr hload
    have hoffset : Routine.inputOffset slot = 8 * slot := rfl
    exact ⟨hoffset, hslot, by omega⟩

/-- A sum of two inputs. -/
def Program.sum : Program := ⟨"x0+x1", 2, 2, #[], #[], #[.loadInput 0, .loadInput 1, .add]⟩

/-- Each way to call it once, of which the first and the third are on points of a wrong length: a
strided storage has an empty slice. -/
def Program.sumCalls : List (Call Unit) :=
  [.evaluate #[()], .tryEvaluate #[(), ()], .evaluateStorage ⟨#[(), ()], 2⟩,
    .evaluateBatch #[(), (), (), ()], .evaluateBatchInto #[(), ()] (.contiguous #[()]),
    .evaluateParallel (.inTurn 3) (ThreadPool.lawful_inTurn 3) [#[(), ()], #[(), ()]]]

/-- The other four calls meet six slices of two values. -/
theorem Compiled.reads_inside_sum :
    ∃ f, Program.sum.load { backend := .interpreter } = .ok f ∧
      ((f.session .single Program.sumCalls).trace (f.value .single)).length = 6 ∧
      ∀ slice ∈ (f.session .single Program.sumCalls).trace (f.value .single), slice.size = 2 := by
  have hload : Program.sum.load { backend := .interpreter } =
      .ok ⟨"x0+x1", 2, 2, [], .interpreted Program.sum⟩ := rfl
  obtain ⟨-, hslices, -⟩ := reads_inside hload .single Program.sumCalls
  exact ⟨_, hload, by decide +kernel, fun slice hslice => (hslices slice hslice).1⟩

end Formula
