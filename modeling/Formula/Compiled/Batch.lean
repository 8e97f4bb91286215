import Formula.Compiled
import Formula.Compiled.Storage

/-!
# Many points at once

A batch is a flat row of values, as many for each point as the function has inputs.  A function
without inputs has no batches: every batch of it is empty.

Lists of points can also be evaluated in chunks that do not depend on each other, as many as threads
are there to take them; all lengths are checked before any point is evaluated.  What cuts the list
and has threads work on the chunks is a `ThreadPool`.  It is not part of this library, and any pool
may stand in its place.  The pool that takes one chunk after the other is `ThreadPool.inTurn`.
-/

namespace Formula

/-- What has threads work on points. -/
structure ThreadPool (α : Type) where
  threads : Nat
  /-- cuts points into chunks of a length -/
  chunks : Nat → List (Array α) → List (List (Array α))
  /-- carries out the work on all chunks and puts the values together -/
  gather : List (Script α (Except EvaluationError (List α))) →
    Script α (Except EvaluationError (List α))

/-- Consecutive chunks of a list; the last one may be shorter.  Chunks of length zero are taken to
have length one. -/
def chunks {β : Type} (n : Nat) : List β → List (List β)
  | [] => []
  | x :: xs => (x :: xs.take (n - 1)) :: chunks n (xs.drop (n - 1))
termination_by xs => xs.length
decreasing_by simp only [List.length_drop, List.length_cons]; omega

/-- Chunks are taken one after the other. -/
def ThreadPool.inTurn {α : Type} (threads : Nat) : ThreadPool α where
  threads
  chunks := Formula.chunks
  gather := Script.gatherFrom #[]

namespace Compiled

variable {α : Type}

/-- The value at the elements of a storage. -/
def evaluateStorage (a : Arithmetic α) (f : Compiled) (point : Storage α) :
    Except EvaluationError α :=
  f.tryEvaluate a point.slice

/-- The number of points in a batch.  A batch of a wrong length is reported with the next length
that would be right. -/
def pointCount (f : Compiled) (batch : Array α) : Except EvaluationError Nat :=
  if f.inputs = 0 then .ok 0
  else if batch.size % f.inputs = 0 then .ok (batch.size / f.inputs)
  else .error (.length ((batch.size / f.inputs + 1) * f.inputs) batch.size)

/-- The points of a batch. -/
def points (f : Compiled) (batch : Array α) (count : Nat) : List (Array α) :=
  (List.range count).map fun i => batch.extract (i * f.inputs) (i * f.inputs + f.inputs)

/-- A call that writes a batch into a storage, which has to have one place for each point.  The code
is invoked on as many points as the slice of the storage takes. -/
def intoScript (f : Compiled) (batch : Array α) (out : Storage α) :
    Script α (Except EvaluationError Unit × Storage α) :=
  match f.pointCount batch with
  | .error e => .done (.error e, out)
  | .ok count =>
    if out.size = count then
      (Script.invokeAll ((f.points batch count).take out.slice.size)).map fun
        | .error e => (.error e, out)
        | .ok xs => (.ok (), out.write xs)
    else .done (.error (.length count out.size), out)

/-- A call on a batch, which makes a storage of zeros to write into. -/
def batchScript (zero : α) (f : Compiled) (batch : Array α) :
    Script α (Except EvaluationError (Array α)) :=
  match f.pointCount batch with
  | .error e => .done (.error e)
  | .ok count =>
    (f.intoScript batch (.contiguous (Array.replicate count zero))).map fun
      | (.error e, _) => .error e
      | (.ok _, out) => .ok out.elements

/-- The first error among the lengths of points. -/
def checkLengths (f : Compiled) : List (Array α) → Except EvaluationError Unit
  | [] => .ok ()
  | point :: points =>
    match f.checkLength point with
    | .error e => .error e
    | .ok _ => f.checkLengths points

/-- The length of the chunks that a number of points is cut into: four for each thread. -/
def chunkLength (threads count : Nat) : Nat := max (count / (threads * 4)) 1

/-- A call on many points, in chunks for a pool. -/
def parallelScript (pool : ThreadPool α) (f : Compiled) (points : List (Array α)) :
    Script α (Except EvaluationError (List α)) :=
  match f.checkLengths points with
  | .error e => .done (.error e)
  | .ok _ =>
    let chunks := pool.chunks (chunkLength pool.threads points.length) points
    pool.gather (chunks.map Script.invokeAll)

/-- Evaluates a batch into a storage. -/
def evaluateBatchInto (a : Arithmetic α) (f : Compiled) (batch : Array α) (out : Storage α) :
    Except EvaluationError Unit × Storage α :=
  (f.intoScript batch out).run (f.value a)

/-- Evaluates a batch. -/
def evaluateBatch (a : Arithmetic α) (f : Compiled) (batch : Array α) :
    Except EvaluationError (Array α) :=
  (f.batchScript (a.const .zero) batch).run (f.value a)

/-- Evaluates points on a pool. -/
def evaluateParallelOn (pool : ThreadPool α) (a : Arithmetic α) (f : Compiled)
    (points : List (Array α)) : Except EvaluationError (List α) :=
  (f.parallelScript pool points).run (f.value a)

/-- Evaluates points in chunks for a number of threads, one chunk after the other. -/
def evaluateParallel (a : Arithmetic α) (f : Compiled) (threads : Nat) (points : List (Array α)) :
    Except EvaluationError (List α) :=
  f.evaluateParallelOn (.inTurn threads) a points

end Compiled
end Formula
