import Mathlib.Order.Bounds.Basic
import Formula.Proofs.Invocations
import Formula.Proofs.Loading

/-!
# Batches are evaluated point by point

A batch is a row of values without marks between its points.  `Compiled.Rows` says which points a
batch consists of, by putting them together again instead of cutting the batch up.

* The points that a batch is cut into are those points (`rows_of_pointCount`).
* A batch that is written into contiguous storage is the list of values at its points
  (`evaluateBatchInto_of_contiguous`), and so is a batch that makes its own storage
  (`evaluateBatch_of_pointCount`).
* Points that are evaluated on a thread pool come to the same list, however the pool cuts them into
  chunks (`evaluateParallelOn_of_forall`).
* A batch of a wrong length is refused with the next length that is right, which is the least
  multiple that is not below (`isLeast_nextMultiple`).

A function that was loaded has a value at every point of the right length, with one exception.  If
it is interpreted and memory has no room for its stack, then it has a value at none.

## Storage that is not contiguous

The number of places is compared with the number of points, and then as many points are evaluated
as the slice takes.  Storage that is not contiguous has its full number of places and an empty
slice.  It passes the comparison, nothing is written, and no error says so
(`evaluateBatchInto_of_strided`).
-/

namespace Formula

/-! ## Lists of results -/

section Mapping

variable {β γ ε : Type}

theorem mapM_eq_ok_iff {g : β → Except ε γ} {xs : List β} {ys : List γ} :
    xs.mapM g = .ok ys ↔ List.Forall₂ (fun x y => g x = .ok y) xs ys := by
  induction xs generalizing ys with
  | nil =>
    rw [List.mapM_nil, List.forall₂_nil_left_iff]
    exact ⟨fun h => (Except.ok.inj h).symm, fun h => h ▸ rfl⟩
  | cons x xs ih =>
    rw [List.mapM_cons, List.forall₂_cons_left_iff]
    cases hx : g x with
    | error e =>
      constructor
      · intro h
        cases h
      · rintro ⟨y, ys, hy, -⟩
        cases hy
    | ok y =>
      cases hxs : xs.mapM g with
      | error e =>
        constructor
        · intro h
          cases h
        · rintro ⟨y', ys', -, hrest, -⟩
          cases hxs.symm.trans (ih.mpr hrest)
      | ok ys' =>
        constructor
        · intro h
          cases h
          exact ⟨y, ys', rfl, ih.mp hxs, rfl⟩
        · rintro ⟨y'', ys'', hy, hrest, rfl⟩
          cases hy
          cases hxs.symm.trans (ih.mpr hrest)
          rfl

theorem exists_mem_of_mapM_eq_error {g : β → Except ε γ} {xs : List β} {e : ε}
    (h : xs.mapM g = .error e) : ∃ x ∈ xs, g x = .error e := by
  induction xs with
  | nil => cases h
  | cons x xs ih =>
    rw [List.mapM_cons] at h
    cases hx : g x with
    | error e' =>
      rw [hx] at h
      cases h
      exact ⟨x, List.mem_cons_self, hx⟩
    | ok y =>
      rw [hx] at h
      cases hxs : xs.mapM g with
      | error e' =>
        rw [hxs] at h
        cases h
        obtain ⟨x', hx', he⟩ := ih hxs
        exact ⟨x', List.mem_cons_of_mem x hx', he⟩
      | ok ys =>
        rw [hxs] at h
        cases h

theorem mapM_congr_of_mem {g g' : β → Except ε γ} {xs : List β} (h : ∀ x ∈ xs, g x = g' x) :
    xs.mapM g = xs.mapM g' := by
  induction xs with
  | nil => rfl
  | cons x xs ih =>
    obtain ⟨hx, hxs⟩ := List.forall_mem_cons.mp h
    rw [List.mapM_cons, List.mapM_cons, hx, ih hxs]

/-- List by list, the same values come out as one element after the other. -/
theorem mapM_flatten {g : β → Except ε γ} {xss : List (List β)} {ys : List γ}
    (h : xss.flatten.mapM g = .ok ys) :
    ∃ yss : List (List γ), xss.map (List.mapM g) = yss.map .ok ∧ yss.flatten = ys := by
  induction xss generalizing ys with
  | nil =>
    cases h
    exact ⟨[], rfl, rfl⟩
  | cons xs xss ih =>
    rw [List.flatten_cons, List.mapM_append] at h
    cases hxs : xs.mapM g with
    | error e =>
      rw [hxs] at h
      cases h
    | ok zs =>
      cases hrest : xss.flatten.mapM g with
      | error e =>
        rw [hxs, hrest] at h
        cases h
      | ok rest =>
        rw [hxs, hrest] at h
        cases h
        obtain ⟨yss, hyss, rfl⟩ := ih hrest
        exact ⟨zs :: yss, by rw [List.map_cons, List.map_cons, hxs, hyss], rfl⟩

theorem exists_mem_of_mapM_flatten_eq_error {g : β → Except ε γ} {xss : List (List β)} {e : ε}
    (h : xss.flatten.mapM g = .error e) : ∃ xs ∈ xss, xs.mapM g = .error e := by
  induction xss with
  | nil => cases h
  | cons xs xss ih =>
    rw [List.flatten_cons, List.mapM_append] at h
    cases hxs : xs.mapM g with
    | error e' =>
      rw [hxs] at h
      cases h
      exact ⟨xs, List.mem_cons_self, hxs⟩
    | ok zs =>
      cases hrest : xss.flatten.mapM g with
      | error e' =>
        rw [hxs, hrest] at h
        cases h
        obtain ⟨xs', hxs', he⟩ := ih hrest
        exact ⟨xs', List.mem_cons_of_mem xs hxs', he⟩
      | ok rest =>
        rw [hxs, hrest] at h
        cases h

end Mapping

/-! ## Storage -/

namespace Storage

variable {α : Type} {s : Storage α}

theorem slice_of_contiguous (h : s.isContiguous = true) : s.slice = s.elements := if_pos h

theorem slice_of_strided (h : s.isContiguous = false) : s.slice = #[] := by
  rw [slice, h]
  rfl

/-- As many values as there are places replace them all. -/
theorem write_of_contiguous (h : s.isContiguous = true) {values : List α}
    (hlength : values.length = s.size) :
    s.write values = { s with elements := values.toArray } := by
  have htake : values.take s.size = values := List.take_of_length_le (Nat.le_of_eq hlength)
  rw [write, if_pos h]
  simp [htake, hlength]

theorem write_of_strided (h : s.isContiguous = false) (values : List α) : s.write values = s := by
  rw [write, h]
  rfl

end Storage

/-! ## The points of a batch -/

namespace Compiled

variable {α : Type} {a : Arithmetic α} {f : Compiled} {batch : Array α} {count : Nat}
  {points : List (Array α)}

/-- A batch consists of points, back to back.  A function without inputs has no points. -/
def Rows (f : Compiled) (batch : Array α) (points : List (Array α)) : Prop :=
  (f.inputs = 0 ∧ points = []) ∨
    (0 < f.inputs ∧ (∀ point ∈ points, point.size = f.inputs) ∧
      batch.toList = points.flatMap Array.toList)

/-- The points that are cut out of a batch are its first values. -/
theorem flatMap_points (f : Compiled) (batch : Array α) (count : Nat) :
    (f.points batch count).flatMap Array.toList = batch.toList.take (count * f.inputs) := by
  induction count with
  | zero =>
    rw [Nat.zero_mul]
    rfl
  | succ count ih =>
    have hpoints : f.points batch (count + 1) = f.points batch count ++
        [batch.extract (count * f.inputs) (count * f.inputs + f.inputs)] := by
      rw [points, List.range_succ, List.map_append]
      rfl
    rw [hpoints, List.flatMap_append, ih, Nat.succ_mul, List.take_add]
    simp

theorem pointCount_of_dvd (hpos : 0 < f.inputs) (h : f.inputs ∣ batch.size) :
    f.pointCount batch = .ok (batch.size / f.inputs) := by
  rw [pointCount, if_neg (Nat.ne_of_gt hpos), if_pos (Nat.mod_eq_zero_of_dvd h)]

theorem pointCount_of_not_dvd (hpos : 0 < f.inputs) (h : ¬ f.inputs ∣ batch.size) :
    f.pointCount batch = .error (.length ((batch.size / f.inputs + 1) * f.inputs) batch.size) := by
  rw [pointCount, if_neg (Nat.ne_of_gt hpos),
    if_neg fun hmod => h (Nat.dvd_of_mod_eq_zero hmod)]

/-- A batch is cut into the points that it consists of. -/
theorem rows_of_pointCount (h : f.pointCount batch = .ok count) :
    f.Rows batch (f.points batch count) ∧ (f.points batch count).length = count := by
  refine ⟨?_, by simp [points]⟩
  rcases Nat.eq_zero_or_pos f.inputs with hzero | hpos
  · rw [pointCount, if_pos hzero] at h
    cases h
    exact .inl ⟨hzero, rfl⟩
  · refine .inr ⟨hpos, size_of_mem_points h, ?_⟩
    by_cases hdvd : f.inputs ∣ batch.size
    · rw [pointCount_of_dvd hpos hdvd] at h
      cases h
      rw [flatMap_points, Nat.div_mul_cancel hdvd, ← Array.length_toList, List.take_length]
    · rw [pointCount_of_not_dvd hpos hdvd] at h
      cases h

/-- **The next length that is right** is the least multiple that is not below. -/
theorem isLeast_nextMultiple {n size : Nat} (hn : 0 < n) (h : ¬ n ∣ size) :
    IsLeast {m | n ∣ m ∧ size ≤ m} ((size / n + 1) * n) := by
  have hdiv : size / n * n ≤ size := Nat.div_mul_le_self size n
  refine ⟨⟨Nat.dvd_mul_left n _, Nat.le_of_lt ?_⟩, ?_⟩
  · exact Nat.lt_mul_of_div_lt (Nat.lt_succ_self _) hn
  · rintro m ⟨⟨k, rfl⟩, hm⟩
    rw [Nat.mul_comm n k]
    refine Nat.mul_le_mul_right n ?_
    by_contra hlt
    have hle : k * n ≤ size / n * n := Nat.mul_le_mul_right n (by omega)
    refine h ⟨k, ?_⟩
    rw [Nat.mul_comm n k] at hm ⊢
    omega

/-- That length is a number of the machine.  The values of a batch take eight bytes each, so
there are few enough of them to leave room for one point more. -/
theorem nextMultiple_lt {n size : Nat} (hn : n < 2 ^ 64) (hsize : size * 8 ≤ 2 ^ 63 - 1) :
    (size / n + 1) * n < 2 ^ 64 := by
  have hdiv : size / n * n ≤ size := Nat.div_mul_le_self size n
  rw [Nat.succ_mul]
  rcases Nat.lt_or_ge size n with hlt | hge
  · rw [Nat.div_eq_of_lt hlt]
    omega
  · omega

/-! ## Values -/

theorem tryEvaluate_of_size {point : Array α} (h : point.size = f.inputs) :
    f.tryEvaluate a point = f.value a point := by
  simp only [tryEvaluate, pointScript, checkLength, if_pos h, Script.run]

theorem mapM_value (h : ∀ point ∈ points, point.size = f.inputs) :
    points.mapM (f.value a) = points.mapM (f.tryEvaluate a) :=
  mapM_congr_of_mem fun point hpoint => (tryEvaluate_of_size (h point hpoint)).symm

/-- What becomes of a batch and of the storage that it is to be written into. -/
theorem evaluateBatchInto_eq (a : Arithmetic α) (f : Compiled) (batch : Array α)
    (out : Storage α) :
    f.evaluateBatchInto a batch out =
      match f.pointCount batch with
      | .error e => (.error e, out)
      | .ok count =>
        if out.size = count then
          match ((f.points batch count).take out.slice.size).mapM (f.value a) with
          | .error e => (.error e, out)
          | .ok xs => (.ok (), out.write xs)
        else (.error (.length count out.size), out) := by
  unfold evaluateBatchInto intoScript
  cases f.pointCount batch with
  | error e => rfl
  | ok count =>
    dsimp only
    split
    · cases hvalues : ((f.points batch count).take out.slice.size).mapM (f.value a) <;>
        simp only [Script.run_map, Script.run_invokeAll, hvalues]
    · rfl

/-- **Contiguous storage** takes the values at the points, all of them or none. -/
theorem evaluateBatchInto_of_contiguous {out : Storage α} (hout : out.isContiguous = true)
    (hcount : f.pointCount batch = .ok out.size) :
    f.evaluateBatchInto a batch out =
      match (f.points batch out.size).mapM (f.tryEvaluate a) with
      | .error e => (.error e, out)
      | .ok xs => (.ok (), { out with elements := xs.toArray }) := by
  obtain ⟨-, hlength⟩ := rows_of_pointCount hcount
  have htake : (f.points batch out.size).take out.slice.size = f.points batch out.size := by
    rw [Storage.slice_of_contiguous hout]
    exact List.take_of_length_le (Nat.le_of_eq hlength)
  simp only [evaluateBatchInto_eq, hcount, if_true, htake, mapM_value (size_of_mem_points hcount)]
  cases hvalues : (f.points batch out.size).mapM (f.tryEvaluate a) with
  | error e => rfl
  | ok xs =>
    have hxs : xs.length = out.size := by
      rw [← hlength, (mapM_eq_ok_iff.mp hvalues).length_eq]
    simp only [Storage.write_of_contiguous hout hxs]

/-- **Storage that is not contiguous** is accepted and left as it is. -/
theorem evaluateBatchInto_of_strided {out : Storage α} (hout : out.isContiguous = false)
    (hcount : f.pointCount batch = .ok out.size) :
    f.evaluateBatchInto a batch out = (.ok (), out) := by
  simp only [evaluateBatchInto_eq, hcount, if_true, Storage.slice_of_strided hout,
    Array.size_empty, List.take_zero]
  exact congrArg (Except.ok (), ·) (Storage.write_of_strided hout [])

/-- A batch that makes its own storage. -/
theorem evaluateBatch_of_pointCount (h : f.pointCount batch = .ok count) :
    f.evaluateBatch a batch =
      ((f.points batch count).mapM (f.tryEvaluate a)).map List.toArray := by
  have hsize : (Storage.contiguous (Array.replicate count (a.const .zero))).size = count :=
    Array.size_replicate
  have hinto : (f.intoScript batch
      (.contiguous (Array.replicate count (a.const .zero)))).run (f.value a) = _ :=
    evaluateBatchInto_of_contiguous rfl (h.trans (congrArg _ hsize.symm))
  simp only [evaluateBatch, batchScript, h, Script.run_map, hinto, hsize]
  cases (f.points batch count).mapM (f.tryEvaluate a) <;> rfl

/-! ## Lengths of many points -/

theorem checkLengths_append {u v : List (Array α)} {point : Array α}
    (hu : ∀ q ∈ u, q.size = f.inputs) (hpoint : point.size ≠ f.inputs) :
    f.checkLengths (u ++ point :: v) = .error (.length f.inputs point.size) := by
  induction u with
  | nil => simp only [List.nil_append, checkLengths, checkLength, if_neg hpoint]
  | cons q u ih =>
    obtain ⟨hq, hu⟩ := List.forall_mem_cons.mp hu
    simp only [List.cons_append, checkLengths, checkLength, if_pos hq, ih hu]

theorem checkLengths_of_forall (h : ∀ point ∈ points, point.size = f.inputs) :
    f.checkLengths points = .ok () := by
  induction points with
  | nil => rfl
  | cons point points ih =>
    obtain ⟨hpoint, hpoints⟩ := List.forall_mem_cons.mp h
    simp only [checkLengths, checkLength, if_pos hpoint, ih hpoints]

/-- Points of the right lengths, on a pool, if they all fail alike where they fail. -/
theorem evaluateParallelOn_of_forall {pool : ThreadPool α} (lawful : pool.Lawful)
    (hpoints : ∀ point ∈ points, point.size = f.inputs) (e₀ : EvaluationError)
    (halike : ∀ point ∈ points, ∀ e, f.tryEvaluate a point = .error e → e = e₀) :
    f.evaluateParallelOn pool a points = points.mapM (f.tryEvaluate a) := by
  rw [← mapM_value hpoints]
  simp only [evaluateParallelOn, parallelScript, checkLengths_of_forall hpoints]
  generalize hchunks : pool.chunks (chunkLength pool.threads points.length) points = chunks
  have hflatten : chunks.flatten = points := by
    rw [← hchunks]
    exact lawful.flatten_chunks _ points (Nat.le_max_right ..)
  have hruns : (chunks.map Script.invokeAll).map (Script.run (f.value a)) =
      chunks.map (List.mapM (f.value a)) := by
    rw [List.map_map]
    exact List.map_congr_left fun chunk _ => Script.run_invokeAll (f.value a) chunk
  cases hvalues : points.mapM (f.value a) with
  | ok xs =>
    rw [← hflatten] at hvalues
    obtain ⟨lists, hlists, rfl⟩ := mapM_flatten hvalues
    exact lawful.run_gather _ _ _ (hruns.trans hlists)
  | error e =>
    -- The fault that the pool reports need not be the first, but it is like the first.
    have hfails : ∀ e, (∃ chunk ∈ chunks, chunk.mapM (f.value a) = .error e) → e = e₀ := by
      rintro e ⟨chunk, hchunk, he⟩
      obtain ⟨point, hpoint, he⟩ := exists_mem_of_mapM_eq_error he
      have hmem : point ∈ points := hflatten ▸ List.mem_flatten_of_mem hchunk hpoint
      exact halike point hmem e ((tryEvaluate_of_size (hpoints point hmem)).trans he)
    rw [← hflatten] at hvalues
    obtain ⟨chunk, hchunk, he⟩ := exists_mem_of_mapM_flatten_eq_error hvalues
    have hsome : ∃ s ∈ chunks.map Script.invokeAll, s.run (f.value a) = .error e :=
      ⟨_, List.mem_map_of_mem hchunk, (Script.run_invokeAll _ chunk).trans he⟩
    obtain ⟨s, hs, e', hs', hgather⟩ := lawful.error_gather _ _ _ hsome
    obtain ⟨chunk', hchunk', rfl⟩ := List.mem_map.mp hs
    rw [Script.run_invokeAll] at hs'
    rw [hfails e ⟨chunk, hchunk, he⟩, ← hfails e' ⟨chunk', hchunk', hs'⟩]
    exact hgather

/-! ## All points or none -/

/-- The function has a value at every point of the right length. -/
def Total (a : Arithmetic α) (f : Compiled) : Prop :=
  ∀ point : Array α, point.size = f.inputs → ∃ x, f.tryEvaluate a point = .ok x

theorem exists_mapM_of_total (h : f.Total a) (hpoints : ∀ point ∈ points, point.size = f.inputs) :
    ∃ xs, points.mapM (f.tryEvaluate a) = .ok xs := by
  induction points with
  | nil => exact ⟨[], rfl⟩
  | cons point points ih =>
    obtain ⟨hpoint, hpoints⟩ := List.forall_mem_cons.mp hpoints
    obtain ⟨x, hx⟩ := h point hpoint
    obtain ⟨xs, hxs⟩ := ih hpoints
    exact ⟨x :: xs, mapM_eq_ok_iff.mpr (.cons hx (mapM_eq_ok_iff.mp hxs))⟩

/-- The function came from loading a program on a host, under any names. -/
inductive Loaded : Compiled → Prop
  | intro {ρ : Type} {host : Host ρ} {p : Program} {o : Options} {f : Compiled}
      (loaded : p.loadOn host o = .ok f) (names : List String) : Loaded { f with names }

/-- The function has what it needs to run: it is straight-line code, or at most as many cells are
declared as there always are, or memory has room for them at eight bytes each. -/
def HasRoom (f : Compiled) : Prop :=
  f.backend = .interpreter → f.maxStack ≤ 32 ∨ f.maxStack * 8 ≤ 2 ^ 63 - 1

/-- **At a point of the right length a loaded function has a value if and only if it has room.**
There is one way for it to have none. -/
theorem Loaded.value_cases (h : f.Loaded) (a : Arithmetic α) {point : Array α}
    (hpoint : point.size = f.inputs) :
    (f.HasRoom ∧ ∃ x, f.tryEvaluate a point = .ok x) ∨
      (¬ f.HasRoom ∧ f.tryEvaluate a point = .error (.fault .memory)) := by
  rw [tryEvaluate_of_size hpoint]
  cases h with
  | @intro ρ host p o g loaded names =>
    obtain ⟨-, hinputs, hstack, hcode⟩ := Program.loadOn_cases loaded
    -- The names of a function do not matter to its values.
    have hroom : ({ g with names } : Compiled).HasRoom ↔
        (g.backend = .interpreter → Machine.hasRow p = true) := by
      rw [Machine.hasRow_iff, ← hstack]
      rfl
    have hbackend : g.code = .interpreted p ↔ g.backend = .interpreter := by
      unfold backend
      rcases hcode with hcode | ⟨r, -, hcode⟩ <;> simp [hcode, Code.backend]
    rw [hroom, ← hbackend]
    rcases value_cases_of_load loaded a (hpoint.trans hinputs) with
      hvalue | ⟨⟨hcode, hnone⟩, hvalue⟩
    · exact .inl hvalue
    · exact .inr ⟨fun hrow => by simp [hrow hcode] at hnone, hvalue⟩

theorem Loaded.total (h : f.Loaded) (hroom : f.HasRoom) (a : Arithmetic α) : f.Total a := by
  intro point hpoint
  rcases h.value_cases a hpoint with ⟨-, hvalue⟩ | ⟨hnone, -⟩
  · exact hvalue
  · exact absurd hroom hnone

/-- Without room, the first point of a batch fails and no other is tried. -/
theorem Loaded.mapM_of_no_room (h : f.Loaded) (hroom : ¬ f.HasRoom) (a : Arithmetic α)
    (hpoints : ∀ point ∈ points, point.size = f.inputs) (hsome : points ≠ []) :
    points.mapM (f.tryEvaluate a) = .error (.fault .memory) := by
  cases points with
  | nil => exact absurd rfl hsome
  | cons point points =>
    rcases h.value_cases a (hpoints point List.mem_cons_self) with ⟨hyes, -⟩ | ⟨-, hvalue⟩
    · exact absurd hyes hroom
    · rw [List.mapM_cons, hvalue]
      rfl

theorem evaluateBatch_of_not_dvd (hpos : 0 < f.inputs) (h : ¬ f.inputs ∣ batch.size) :
    f.evaluateBatch a batch =
      .error (.length ((batch.size / f.inputs + 1) * f.inputs) batch.size) := by
  simp only [evaluateBatch, batchScript, pointCount_of_not_dvd hpos h, Script.run]

/-- A batch of a right length consists of points, and evaluating it is evaluating them in order. -/
theorem evaluateBatch_of_dvd (hpos : 0 < f.inputs) (hdvd : f.inputs ∣ batch.size) :
    ∃ points : List (Array α), (∀ point ∈ points, point.size = f.inputs) ∧
      batch.toList = points.flatMap Array.toList ∧ (points = [] ↔ batch.size = 0) ∧
      f.evaluateBatch a batch = (points.mapM (f.tryEvaluate a)).map List.toArray := by
  have hcount := pointCount_of_dvd hpos hdvd
  obtain ⟨⟨hzero, -⟩ | ⟨-, hsizes, hbatch⟩, hlength⟩ := rows_of_pointCount hcount
  · exact absurd hzero (Nat.ne_of_gt hpos)
  · refine ⟨_, hsizes, hbatch, ?_, evaluateBatch_of_pointCount hcount⟩
    rw [← List.length_eq_zero_iff, hlength]
    constructor
    · intro hzero
      rw [← Nat.div_mul_cancel hdvd, hzero, Nat.zero_mul]
    · intro hzero
      rw [hzero, Nat.zero_div]

/-- Without room, a batch with points in it fails at the first. -/
theorem Loaded.evaluateBatch_of_no_room (h : f.Loaded) (hroom : ¬ f.HasRoom) (a : Arithmetic α)
    (hpos : 0 < f.inputs) (hdvd : f.inputs ∣ batch.size) (hsome : batch.size ≠ 0) :
    f.evaluateBatch a batch = .error (.fault .memory) := by
  obtain ⟨points, hsizes, -, hempty, hbatch⟩ := evaluateBatch_of_dvd (a := a) hpos hdvd
  rw [hbatch, h.mapM_of_no_room hroom a hsizes fun hnil => hsome (hempty.mp hnil)]
  rfl

/-- **The batches that a loaded function evaluates:** those of a right length, if it has room or
there is no point in them. -/
theorem Loaded.exists_evaluateBatch_iff (h : f.Loaded) (a : Arithmetic α) (hpos : 0 < f.inputs) :
    (∃ ys, f.evaluateBatch a batch = .ok ys) ↔
      f.inputs ∣ batch.size ∧ (batch.size = 0 ∨ f.HasRoom) := by
  constructor
  · rintro ⟨ys, hys⟩
    by_cases hdvd : f.inputs ∣ batch.size
    · refine ⟨hdvd, ?_⟩
      by_contra hnone
      obtain ⟨hsome, hroom⟩ := not_or.mp hnone
      cases hys.symm.trans (h.evaluateBatch_of_no_room hroom a hpos hdvd hsome)
    · cases hys.symm.trans (evaluateBatch_of_not_dvd hpos hdvd)
  · rintro ⟨hdvd, hcase⟩
    obtain ⟨points, hsizes, -, hempty, hbatch⟩ := evaluateBatch_of_dvd (a := a) hpos hdvd
    have hvalues : ∃ xs, points.mapM (f.tryEvaluate a) = .ok xs := by
      rcases hcase with hzero | hroom
      · rw [hempty.mpr hzero]
        exact ⟨[], rfl⟩
      · exact exists_mapM_of_total (h.total hroom a) hsizes
    obtain ⟨xs, hxs⟩ := hvalues
    exact ⟨xs.toArray, by rw [hbatch, hxs]; rfl⟩

/-- **Points on a thread pool** are evaluated as they are in order. -/
theorem Loaded.evaluateParallelOn_eq_mapM (h : f.Loaded) (a : Arithmetic α) {pool : ThreadPool α}
    (lawful : pool.Lawful) (hpoints : ∀ point ∈ points, point.size = f.inputs) :
    f.evaluateParallelOn pool a points = points.mapM (f.tryEvaluate a) := by
  refine evaluateParallelOn_of_forall lawful hpoints (.fault .memory) fun point hpoint e he => ?_
  rcases h.value_cases a (hpoints point hpoint) with ⟨-, x, hx⟩ | ⟨-, hmemory⟩
  · cases hx.symm.trans he
  · exact (Except.error.inj (hmemory.symm.trans he)).symm

/-- **Batches and many points at once agree with one point after the other.**  Take a function that
was loaded, on any host.

* A batch of a right length consists of points, back to back, and evaluating it is evaluating them
  in order.  This goes through if the batch is empty or the function has room, and otherwise there
  is the fault that there is at each of the points.
* A batch of any other length is refused with the least right length that is not below, which is a
  number of the machine if the number of inputs is one and the batch is in memory.
* Points on a thread pool are evaluated as they are in order, if all have the right length, and
  otherwise the first length that is wrong is reported. -/
theorem evaluateBatch_pointwise (h : f.Loaded) (a : Arithmetic α) :
    (0 < f.inputs → ∀ batch : Array α,
      ((∃ ys, f.evaluateBatch a batch = .ok ys) ↔
        f.inputs ∣ batch.size ∧ (batch.size = 0 ∨ f.HasRoom)) ∧
      (f.inputs ∣ batch.size → ∃ points : List (Array α),
        (∀ point ∈ points, point.size = f.inputs) ∧
        batch.toList = points.flatMap Array.toList ∧
        f.evaluateBatch a batch = (points.mapM (f.tryEvaluate a)).map List.toArray ∧
        (batch.size ≠ 0 → ¬ f.HasRoom → f.evaluateBatch a batch = .error (.fault .memory))) ∧
      (¬ f.inputs ∣ batch.size → ∃ expected,
        IsLeast {n | f.inputs ∣ n ∧ batch.size ≤ n} expected ∧
        (f.inputs < 2 ^ 64 → batch.size * 8 ≤ 2 ^ 63 - 1 → expected < 2 ^ 64) ∧
        f.evaluateBatch a batch = .error (.length expected batch.size))) ∧
    ∀ (pool : ThreadPool α), pool.Lawful → ∀ points : List (Array α),
      ((∀ point ∈ points, point.size = f.inputs) →
        f.evaluateParallelOn pool a points = points.mapM (f.tryEvaluate a) ∧
        (f.HasRoom → ∃ xs, f.evaluateParallelOn pool a points = .ok xs)) ∧
      ∀ u point v, points = u ++ point :: v → (∀ q ∈ u, q.size = f.inputs) →
        point.size ≠ f.inputs →
        f.evaluateParallelOn pool a points = .error (.length f.inputs point.size) := by
  refine ⟨fun hpos batch => ⟨h.exists_evaluateBatch_iff a hpos, fun hdvd => ?_, fun hdvd => ?_⟩,
    fun pool lawful points => ⟨fun hpoints => ⟨?_, fun hroom => ?_⟩, ?_⟩⟩
  · obtain ⟨points, hsizes, hbatch, -, hvalue⟩ := evaluateBatch_of_dvd (a := a) hpos hdvd
    exact ⟨points, hsizes, hbatch, hvalue,
      fun hsome hroom => h.evaluateBatch_of_no_room hroom a hpos hdvd hsome⟩
  · exact ⟨_, isLeast_nextMultiple hpos hdvd, nextMultiple_lt, evaluateBatch_of_not_dvd hpos hdvd⟩
  · exact h.evaluateParallelOn_eq_mapM a lawful hpoints
  · rw [h.evaluateParallelOn_eq_mapM a lawful hpoints]
    exact exists_mapM_of_total (h.total hroom a) hpoints
  · rintro u point v rfl hu hpoint
    simp only [evaluateParallelOn, parallelScript, checkLengths_append hu hpoint, Script.run]

/-- Two points of a sum, in a batch and on a pool for three threads.  A batch of three values has
half a point too many. -/
theorem evaluateBatch_pointwise_sum :
    ∃ f, Program.sum.load { backend := .interpreter } = .ok f ∧
      (∃ ys, f.evaluateBatch .float #[1, 2, 3, 4] = .ok ys) ∧
      (∃ n, f.evaluateBatch .float #[1, 2, 3] = .error (.length n 3)) ∧
      f.evaluateParallelOn (.inTurn 3) .float [#[1, 2], #[3, 4]] =
        [#[1, 2], #[3, 4]].mapM (f.tryEvaluate .float) := by
  have hload : Program.sum.load { backend := .interpreter } =
      .ok ⟨"x0+x1", 2, 2, [], .interpreted Program.sum⟩ := rfl
  obtain ⟨hbatch, hparallel⟩ := evaluateBatch_pointwise (Loaded.intro hload []) .float
  have hroom : HasRoom ⟨"x0+x1", 2, 2, [], .interpreted Program.sum⟩ := fun _ => .inl (by decide)
  obtain ⟨hfour, -, -⟩ := hbatch (by decide) #[1, 2, 3, 4]
  obtain ⟨-, -, hthree⟩ := hbatch (by decide) #[1, 2, 3]
  obtain ⟨expected, -, -, herror⟩ := hthree (by decide)
  obtain ⟨hpoints, -⟩ := hparallel (.inTurn 3) (ThreadPool.lawful_inTurn 3) [#[1, 2], #[3, 4]]
  exact ⟨_, hload, hfour.mpr ⟨by decide, .inr hroom⟩, ⟨expected, herror⟩,
    (hpoints (by simp)).1⟩

/-- A function that declares more stack than memory has is loaded, and a batch of one point, which
has a right length, fails. -/
theorem evaluateBatch_of_oversized_stack :
    ∃ f, Program.load ⟨"x0", 1, 18446744073709551615, #[], #[], #[.loadInput 0]⟩
        { backend := .interpreter } = .ok f ∧
      f.inputs = 1 ∧ f.inputs ∣ (#[2] : Array Float).size ∧
      ∀ ys, f.evaluateBatch .float #[2] ≠ .ok ys := by
  have hmemory : (⟨"x0", 1, 18446744073709551615, [], .interpreted
      ⟨"x0", 1, 18446744073709551615, #[], #[], #[.loadInput 0]⟩⟩ : Compiled).evaluateBatch .float
      #[2] = .error (.fault .memory) := rfl
  refine ⟨_, rfl, rfl, Nat.one_dvd _, fun ys hys => ?_⟩
  cases hys.symm.trans hmemory

/-! ## What is left in a storage -/

/-- A batch that does not go into a storage leaves it as it is. -/
theorem evaluateBatchInto_of_error {out : Storage α} {e : EvaluationError}
    (h : (f.evaluateBatchInto a batch out).1 = .error e) :
    (f.evaluateBatchInto a batch out).2 = out := by
  rw [evaluateBatchInto_eq] at h ⊢
  split at h
  · rfl
  · split_ifs at h ⊢
    · split at h
      · rfl
      · cases h
    · rfl

/-- A batch goes only into a storage that has a place for each point. -/
theorem pointCount_of_evaluateBatchInto {out : Storage α}
    (h : (f.evaluateBatchInto a batch out).1 = .ok ()) : f.pointCount batch = .ok out.size := by
  rw [evaluateBatchInto_eq] at h
  split at h
  · cases h
  · rename_i count hcount
    split_ifs at h with hsize
    exact hcount.trans (congrArg _ hsize.symm)

/-- **What a batch leaves in a storage.**

* If the call fails, the storage is as it was.  It fails with an error of length if the storage has
  not one place for each point.
* If the call succeeds, the storage has one place for each point.  In contiguous storage each place
  then has the value at its point.  Storage that is not contiguous is as it was.
* Storage with one place for each point is not refused, if the function has values at them.  It is
  not refused either if it is not contiguous and nothing will be written. -/
theorem evaluateBatchInto_complete (a : Arithmetic α) (f : Compiled) (batch : Array α)
    (out : Storage α) :
    (∀ e, (f.evaluateBatchInto a batch out).1 = .error e →
      (f.evaluateBatchInto a batch out).2 = out) ∧
    (∀ count, f.pointCount batch = .ok count → out.size ≠ count →
      (f.evaluateBatchInto a batch out).1 = .error (.length count out.size)) ∧
    ((f.evaluateBatchInto a batch out).1 = .ok () →
      ∃ points, f.Rows batch points ∧ points.length = out.size ∧
        (out.isContiguous = true → List.Forall₂ (fun point x => f.tryEvaluate a point = .ok x)
          points (f.evaluateBatchInto a batch out).2.elements.toList) ∧
        (out.isContiguous = false → (f.evaluateBatchInto a batch out).2 = out)) ∧
    (f.pointCount batch = .ok out.size → f.Total a ∨ out.isContiguous = false →
      (f.evaluateBatchInto a batch out).1 = .ok ()) := by
  refine ⟨fun e => evaluateBatchInto_of_error, fun count hcount hsize => ?_, fun h => ?_,
    fun hcount htotal => ?_⟩
  · simp only [evaluateBatchInto_eq, hcount, if_neg hsize]
  · have hcount := pointCount_of_evaluateBatchInto h
    obtain ⟨hrows, hlength⟩ := rows_of_pointCount hcount
    refine ⟨_, hrows, hlength, fun hout => ?_, fun hout => ?_⟩
    · rw [evaluateBatchInto_of_contiguous hout hcount] at h ⊢
      cases hvalues : (f.points batch out.size).mapM (f.tryEvaluate a) with
      | error e =>
        rw [hvalues] at h
        cases h
      | ok xs => exact mapM_eq_ok_iff.mp hvalues
    · rw [evaluateBatchInto_of_strided hout hcount]
  · cases hout : out.isContiguous with
    | false => rw [evaluateBatchInto_of_strided hout hcount]
    | true =>
      have htotal : f.Total a := htotal.resolve_right (by simp [hout])
      obtain ⟨xs, hxs⟩ := exists_mapM_of_total htotal (size_of_mem_points hcount)
      rw [evaluateBatchInto_of_contiguous hout hcount, hxs]

/-- Two points go into a view that runs backwards, without an error and without a trace. -/
theorem evaluateBatchInto_backwards :
    ∃ f, Program.load ⟨"x0", 1, 1, #[], #[], #[.loadInput 0]⟩ { backend := .interpreter } = .ok f ∧
      f.evaluateBatchInto .float #[1.0, 2.0] (.backwards #[0.0, 0.0]) =
        (.ok (), .backwards #[0.0, 0.0]) ∧
      f.tryEvaluate .float #[1.0] = .ok 1.0 ∧ (0.0 : Float) ≠ 1.0 := by
  refine ⟨_, rfl, evaluateBatchInto_of_strided ?_ ?_, rfl, fun h => ?_⟩
  · simp [Storage.isContiguous, Storage.size, Storage.backwards]
  · simp [pointCount, Storage.size, Storage.backwards]
  · have hbits := congrArg Float.toBits h
    revert hbits
    decide

end Compiled
end Formula
