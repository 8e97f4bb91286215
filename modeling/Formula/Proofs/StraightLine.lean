import Formula.Proofs.Defects
import Formula.Proofs.Tables
import Formula.Routine.Listing

/-!
# The order of straight-line code

The value of a node is its index, so straight-line code makes sense only if a node reads values of
smaller indices.  Lowering does not check this.  It holds because values come from nodes that are
there already, and nodes are added at the end.

* `Builder.Sound` is what holds of nodes in the making: operands are smaller than the node that
  reads them, what counts as loaded are exactly the loads of declared inputs, and the shims are
  those that were asked for, in the order in which they were first asked for.
* Every operation of a builder is `Builder.Adds`: it keeps all this, leaves earlier nodes as they
  are and gives the value of a node.  There is one lemma for each, and an operation that is made of
  others follows by `Adds.andThen`.
* `Lowering.extends_step` is the same for an instruction and `Lowering.extends_run` for code.  No
  check of the program is needed, only that its lowering went through.

The shims that code calls are a list on the side of the program, `Program.called`.  It has an entry
for each call, so that the numbers in the straight-line code can be compared with what the
instructions call for.  A power calls for the same builtin as the function of that name, unless it
becomes multiplications.
-/

namespace Formula

/-! ## Listings -/

namespace Routine

/-- The line of the node at an index, after a number of calls. -/
def nodeLine (nodes : Array Node) (index calls : Nat) (node : Node) : String :=
  "    " ++ valueText index ++ " = " ++ nodeText calls node ++ constantsComment nodes node.operands

theorem nodeLines_cons (nodes : Array Node) (node : Node) (rest : List Node) (index calls : Nat)
    (lines : List String) :
    nodeLines nodes (node :: rest) index calls lines =
      nodeLines nodes rest (index + 1) (if isCall node then calls + 1 else calls)
        (nodeLine nodes index calls node :: lines) := rfl

/-- Lines that are there stay in front. -/
theorem reverse_isPrefix_nodeLines (nodes : Array Node) (rest : List Node) (index calls : Nat)
    (lines : List String) : lines.reverse <+: nodeLines nodes rest index calls lines := by
  induction rest generalizing index calls lines with
  | nil => exact List.prefix_rfl
  | cons node rest ih =>
    rw [nodeLines_cons]
    refine List.IsPrefix.trans ?_ (ih _ _ _)
    rw [List.reverse_cons]
    exact List.prefix_append _ _

/-- **The line of a node** is where the node is. -/
theorem getElem?_nodeLines {nodes : Array Node} {rest : List Node} {node : Node} {k : Nat}
    (h : rest[k]? = some node) (index calls : Nat) (lines : List String) :
    (nodeLines nodes rest index calls lines)[lines.length + k]? =
      some (nodeLine nodes (index + k) (calls + (rest.take k).countP isCall) node) := by
  induction rest generalizing index calls lines k with
  | nil => cases h
  | cons first rest ih =>
    rw [nodeLines_cons]
    cases k with
    | zero =>
      cases h
      obtain ⟨more, hmore⟩ := reverse_isPrefix_nodeLines nodes rest (index + 1)
        (if isCall node then calls + 1 else calls) (nodeLine nodes index calls node :: lines)
      rw [← hmore, List.reverse_cons, List.append_assoc, Nat.add_zero]
      simp
    | succ k =>
      have hline := ih h (index + 1) (if isCall first then calls + 1 else calls)
        (nodeLine nodes index calls first :: lines)
      have hcalls : (if isCall first then calls + 1 else calls) + (rest.take k).countP isCall =
          calls + ((first :: rest).take (k + 1)).countP isCall := by
        rw [List.take_succ_cons, List.countP_cons]
        split <;> omega
      rwa [hcalls, List.length_cons, Nat.add_right_comm, Nat.add_assoc lines.length,
        Nat.add_right_comm index, Nat.add_assoc index] at hline

theorem getElem?_nodeLines_zero {nodes : Array Node} {node : Node} {k : Nat}
    (h : nodes[k]? = some node) :
    (nodeLines nodes nodes.toList 0 0 [])[k]? =
      some (nodeLine nodes k ((nodes.toList.take k).countP isCall) node) := by
  rw [← Array.getElem?_toList] at h
  have hline := @getElem?_nodeLines nodes nodes.toList node k h 0 0 []
  rwa [List.length_nil, Nat.zero_add, Nat.zero_add] at hline

end Routine

/-! ## Nodes in the making -/

/-- The position of the shim that a node calls. -/
def Node.shim? : Node → Option Nat
  | .call shim _ => some shim
  | _ => none

theorem Routine.map_fst_calls (r : Routine) :
    r.calls.map Prod.fst = r.nodes.toList.filterMap Node.shim? := by
  rw [Routine.calls, List.map_filterMap]
  congr 1
  funext node
  cases node <;> rfl

theorem getElem?_push_load {nodes : Array Node} {node : Node} {slot : Nat} {v : Value}
    (h : node ≠ .load slot) :
    (nodes.push node)[v]? = some (.load slot) ↔ nodes[v]? = some (.load slot) := by
  rw [Array.getElem?_push]
  split
  · rename_i hlast
    simp [hlast, h]
  · rfl

theorem shims_push (nodes : Array Node) (node : Node) :
    (nodes.push node).toList.filterMap Node.shim? =
      nodes.toList.filterMap Node.shim? ++ node.shim?.toList := by
  rw [Array.toList_push, List.filterMap_append]
  cases hshim : node.shim? <;> simp [hshim]

/-- The shim of a builtin, if it has one. -/
def Builtin.outOfLine (f : Builtin) : List Builtin := if f.isInline then [] else [f]

namespace Builder

/-- Nodes in the making are in order, after shims were asked for and some of them called. -/
structure Sound (inputs : Nat) (asked called : List Builtin) (b : Builder) : Prop where
  operands : ∀ (k : Nat) (node : Node), b.nodes[k]? = some node → ∀ v ∈ node.operands, v < k
  loaded : ∀ (slot : Nat) (v : Value),
    b.loaded[slot]? = some v ↔ slot < inputs ∧ b.nodes[v]? = some (.load slot)
  imports : b.imports.toList = asked.eraseDups
  called_subset : called ⊆ asked
  shims : b.nodes.toList.filterMap Node.shim? = called.map fun f => b.imports.toList.idxOf f

/-- An operation keeps nodes in order, adds new ones at the end, and its value is that of a
node. -/
structure Adds (inputs : Nat) (asked called : List Builtin) (b : Builder)
    (result : Value × Builder) : Prop where
  sound : result.2.Sound inputs asked called
  kept : b.nodes.toList <+: result.2.nodes.toList
  value : result.1 < result.2.nodes.size

variable {inputs : Nat} {asked called : List Builtin} {b : Builder} {v w : Value}

theorem sound_empty : empty.Sound inputs [] [] where
  operands k node h := by simp [empty] at h
  loaded slot v := by simp [empty]
  imports := rfl
  called_subset := List.Subset.refl _
  shims := rfl

theorem Adds.lt_size {result : Value × Builder} (h : Adds inputs asked called b result)
    (hv : v < b.nodes.size) : v < result.2.nodes.size :=
  Nat.lt_of_lt_of_le hv h.kept.length_le

theorem Adds.andThen {asked' called' : List Builtin} {result result' : Value × Builder}
    (h : Adds inputs asked called b result)
    (hnext : Adds inputs asked' called' result.2 result') : Adds inputs asked' called' b result' :=
  ⟨hnext.sound, h.kept.trans hnext.kept, hnext.value⟩

namespace Sound

/-- Operands stay in front of the nodes that read them when a node is added. -/
theorem operands_push (h : b.Sound inputs asked called) {node : Node}
    (hnode : ∀ v ∈ node.operands, v < b.nodes.size) {k : Nat} {node' : Node}
    (hk : (b.nodes.push node)[k]? = some node') : ∀ v ∈ node'.operands, v < k := by
  rw [Array.getElem?_push] at hk
  split at hk
  · rename_i hlast
    cases hk
    rw [hlast]
    exact hnode
  · exact h.operands k node' hk

/-- Adding a node that loads nothing.  It may call shims that have been asked for. -/
theorem add (h : b.Sound inputs asked called) {node : Node} {new : List Builtin}
    (hnode : ∀ v ∈ node.operands, v < b.nodes.size) (hload : ∀ slot, node ≠ .load slot)
    (hnew : new ⊆ asked)
    (hshim : node.shim?.toList = new.map fun f => b.imports.toList.idxOf f) :
    Adds inputs asked (called ++ new) b (b.emit node) := by
  refine ⟨⟨fun k node' hk => h.operands_push hnode hk, fun slot v => ?_, h.imports,
    List.append_subset.mpr ⟨h.called_subset, hnew⟩, ?_⟩, ?_, ?_⟩
  · exact (h.loaded slot v).trans (and_congr_right' (getElem?_push_load (hload slot)).symm)
  · refine (shims_push b.nodes node).trans ?_
    rw [h.shims, hshim, List.map_append]
    rfl
  · exact ⟨[node], Array.toList_push.symm⟩
  · exact Nat.lt_of_lt_of_eq (Nat.lt_succ_self _) (Array.size_push node).symm

/-- Adding a node that neither loads nor calls. -/
theorem emit (h : b.Sound inputs asked called) {node : Node}
    (hnode : ∀ v ∈ node.operands, v < b.nodes.size) (hload : ∀ slot, node ≠ .load slot)
    (hcall : node.shim? = none) : Adds inputs asked called b (b.emit node) := by
  have hadds := h.add hnode hload (List.nil_subset asked) (by rw [hcall]; rfl)
  rwa [List.append_nil] at hadds

theorem emit_const (h : b.Sound inputs asked called) (x : Binary64) :
    Adds inputs asked called b (b.emit (.const x)) :=
  h.emit nofun nofun rfl

theorem emit_unary (h : b.Sound inputs asked called) (op : UnaryOp) (hv : v < b.nodes.size) :
    Adds inputs asked called b (b.emit (.unary op v)) :=
  h.emit (List.forall_mem_singleton.mpr hv) nofun rfl

theorem emit_binary (h : b.Sound inputs asked called) (op : BinaryOp) (hv : v < b.nodes.size)
    (hw : w < b.nodes.size) : Adds inputs asked called b (b.emit (.binary op v w)) :=
  h.emit (List.forall_mem_cons.mpr ⟨hv, List.forall_mem_singleton.mpr hw⟩) nofun rfl

/-- Asking for a shim gives its place among those asked for. -/
theorem shim (h : b.Sound inputs asked called) {f : Builtin} (hinline : f.isInline = false) :
    (b.shim f).2.Sound inputs (asked ++ [f]) called ∧ (b.shim f).2.nodes = b.nodes ∧
      (b.shim f).1 = (b.shim f).2.imports.toList.idxOf f := by
  have hsubset : called ⊆ asked ++ [f] := fun g hg =>
    List.mem_append_left _ (h.called_subset hg)
  rw [shim_eq_idxOf? hinline, h.imports]
  by_cases hf : f ∈ asked
  · rw [idxOf?_of_mem (List.mem_eraseDups.mpr hf)]
    refine ⟨⟨h.operands, h.loaded, ?_, hsubset, h.shims⟩, rfl, ?_⟩
    · rw [eraseDups_concat_of_mem hf]
      exact h.imports
    · rw [h.imports]
  · have hnew : f ∉ asked.eraseDups := fun hm => hf (List.mem_eraseDups.mp hm)
    rw [List.idxOf?_eq_none_iff.mpr hnew]
    have himports : (b.imports.push f).toList = asked.eraseDups ++ [f] := by
      rw [Array.toList_push, h.imports]
    refine ⟨⟨h.operands, h.loaded, ?_, hsubset, ?_⟩, rfl, ?_⟩
    · rw [eraseDups_concat_of_notMem hf]
      exact himports
    · refine h.shims.trans (List.map_congr_left fun g hg => ?_)
      rw [himports, h.imports,
        List.idxOf_append_of_mem (List.mem_eraseDups.mpr (h.called_subset hg))]
    · show b.imports.size = (b.imports.push f).toList.idxOf f
      rw [himports, List.idxOf_append_of_notMem hnew, ← h.imports]
      simp

/-- A call of a shim, which is asked for if it was not before. -/
theorem call (h : b.Sound inputs asked called) {f : Builtin} (hf : f.isInline = false)
    {arguments : List Value} (hargs : ∀ v ∈ arguments, v < b.nodes.size) :
    Adds inputs (asked ++ [f]) (called ++ [f]) b (b.call f arguments) := by
  obtain ⟨hsound, hnodes, hposition⟩ := h.shim hf
  show Adds _ _ _ b ((b.shim f).2.emit (.call (b.shim f).1 arguments))
  have hadds : Adds inputs (asked ++ [f]) (called ++ [f]) (b.shim f).2
      ((b.shim f).2.emit (.call (b.shim f).1 arguments)) := by
    refine hsound.add ?_ nofun (List.subset_append_right asked [f]) (congrArg ([·]) hposition)
    rwa [hnodes]
  refine ⟨hadds.sound, ?_, hadds.value⟩
  rw [← hnodes]
  exact hadds.kept

/-- A load that was not there yet is noted if the input is declared. -/
theorem loaded_input (h : b.Sound inputs asked called) {slot : Nat}
    (hnone : b.loaded[slot]? = none) (slot' : Nat) (v : Value) :
    (if slot < inputs then b.loaded.insert slot b.nodes.size else b.loaded)[slot']? = some v ↔
      slot' < inputs ∧ (b.nodes.push (.load slot))[v]? = some (.load slot') := by
  by_cases hslot' : slot' = slot
  · subst hslot'
    by_cases hslot : slot' < inputs
    · -- An earlier load of the input would have been noted.
      have hfresh : b.nodes[v]? ≠ some (.load slot') := by
        intro hnode
        rw [(h.loaded slot' v).mpr ⟨hslot, hnode⟩] at hnone
        cases hnone
      rw [if_pos hslot, Std.HashMap.getElem?_insert_self, Array.getElem?_push]
      split
      · rename_i hlast
        simp [hlast, hslot]
      · rename_i hlast
        simp only [Option.some.injEq, hfresh, and_false, iff_false]
        exact fun heq => hlast heq.symm
    · rw [if_neg hslot, hnone]
      simp [hslot]
  · have hne : Node.load slot ≠ .load slot' := fun heq => hslot' (Node.load.inj heq).symm
    rw [getElem?_push_load hne, ← h.loaded slot' v]
    split
    · rw [Std.HashMap.getElem?_insert, if_neg (by simpa using Ne.symm hslot')]
    · rfl

/-- The value of an input is that of a load of it. -/
theorem input (h : b.Sound inputs asked called) (slot : Nat) :
    Adds inputs asked called b (b.input inputs slot) ∧
      (b.input inputs slot).2.nodes[(b.input inputs slot).1]? = some (.load slot) := by
  unfold Builder.input
  split
  · rename_i v hv
    obtain ⟨-, hnode⟩ := (h.loaded slot v).mp hv
    exact ⟨⟨h, List.prefix_rfl, (Array.getElem?_eq_some_iff.mp hnode).1⟩, hnode⟩
  · rename_i hnone
    have hnode : ∀ v ∈ (Node.load slot).operands, v < b.nodes.size := nofun
    refine ⟨⟨⟨fun k node' hk => h.operands_push hnode hk, fun slot' v => ?_, h.imports,
      h.called_subset, ?_⟩, ⟨[.load slot], Array.toList_push.symm⟩, ?_⟩, ?_⟩
    · exact h.loaded_input hnone slot' v
    · refine (shims_push b.nodes (.load slot)).trans ?_
      rw [h.shims]
      exact List.append_nil _
    · exact Nat.lt_of_lt_of_eq (Nat.lt_succ_self _) (Array.size_push _).symm
    · exact Array.getElem?_push_size

/-- A builtin that has instructions of its own. -/
theorem apply_inline (h : b.Sound inputs asked called) {f : Builtin} (hf : f.isInline = true)
    {arguments : List Value} (hcount : arguments.length = f.arity)
    (hargs : ∀ v ∈ arguments, v < b.nodes.size) :
    Adds inputs asked called b (b.apply f arguments) := by
  cases f with
  | abs | floor =>
    obtain ⟨x, rfl⟩ := List.length_eq_one_iff.mp hcount
    exact h.emit_unary _ (hargs x List.mem_cons_self)
  | round =>
    obtain ⟨x, rfl⟩ := List.length_eq_one_iff.mp hcount
    have hx := hargs x List.mem_cons_self
    have hhalf := h.emit_const .half
    have hshifted := hhalf.sound.emit_binary .add (hhalf.lt_size hx) hhalf.value
    exact hhalf.andThen (hshifted.andThen (hshifted.sound.emit_unary .floor hshifted.value))
  | max | min =>
    obtain ⟨x, y, rfl⟩ := List.length_eq_two.mp hcount
    exact h.emit_binary _ (hargs x List.mem_cons_self)
      (hargs y (List.mem_cons_of_mem x List.mem_cons_self))
  | acos | asin | atan | cos | exp | log | sin | tan | pow => cases hf

/-- A builtin applied to as many values as it has arguments. -/
theorem apply (h : b.Sound inputs asked called) (f : Builtin) {arguments : List Value}
    (hcount : arguments.length = f.arity) (hargs : ∀ v ∈ arguments, v < b.nodes.size) :
    Adds inputs (asked ++ f.outOfLine) (called ++ f.outOfLine) b (b.apply f arguments) := by
  unfold Builtin.outOfLine
  by_cases hf : f.isInline = true
  · rw [if_pos hf, List.append_nil, List.append_nil]
    exact h.apply_inline hf hcount hargs
  · have hcall : b.apply f arguments = b.call f arguments := by
      cases f with
      | abs | floor | round | max | min => exact absurd rfl hf
      | acos | asin | atan | cos | exp | log | sin | tan | pow => rfl
    rw [if_neg hf, hcall]
    exact h.call (Bool.eq_false_iff.mpr hf) hargs

theorem multiply_if (h : b.Sound inputs asked called) (c : Prop) [Decidable c]
    (hv : v < b.nodes.size) (hw : w < b.nodes.size) :
    Adds inputs asked called b (if c then b.emit (.binary .mul v w) else (v, b)) := by
  by_cases hc : c
  · rw [if_pos hc]
    exact h.emit_binary .mul hv hw
  · rw [if_neg hc]
    exact ⟨h, List.prefix_rfl, hv⟩

theorem powerLoop (h : b.Sound inputs asked called) (hv : v < b.nodes.size)
    (hw : w < b.nodes.size) (n : Nat) : Adds inputs asked called b (b.powerLoop v w n) := by
  induction n using Nat.strong_induction_on generalizing b v w with
  | h n ih =>
    unfold Builder.powerLoop
    by_cases hn : n = 0
    · rw [dif_pos hn]
      exact ⟨h, List.prefix_rfl, hv⟩
    · rw [dif_neg hn]
      have hresult := h.multiply_if (n % 2 = 1) hv hw
      have hsquare := hresult.sound.multiply_if (1 < n) (hresult.lt_size hw) (hresult.lt_size hw)
      refine hresult.andThen (hsquare.andThen ?_)
      exact ih (n / 2) (by omega) hsquare.sound (hsquare.lt_size hresult.value) hsquare.value

/-- A power by multiplications. -/
theorem power (h : b.Sound inputs asked called) (hv : v < b.nodes.size) (n : Nat) :
    Adds inputs asked called b (b.power v n) := by
  match n with
  | 0 => exact h.emit_const .one
  | 1 => exact ⟨h, List.prefix_rfl, hv⟩
  | 2 => exact h.emit_binary .mul hv hv
  | 3 =>
    have hsquare := h.emit_binary .mul hv hv
    exact hsquare.andThen (hsquare.sound.emit_binary .mul hsquare.value (hsquare.lt_size hv))
  | 4 =>
    have hsquare := h.emit_binary .mul hv hv
    exact hsquare.andThen (hsquare.sound.emit_binary .mul hsquare.value hsquare.value)
  | n + 5 =>
    have hone := h.emit_const .one
    exact hone.andThen (hone.sound.powerLoop hone.value (hone.lt_size hv) (n + 5))

/-- Asking for the shims of a function table. -/
theorem importAll (h : b.Sound inputs asked called) (functions : List FunctionName) :
    (b.importAll functions).Sound inputs
      (asked ++ functions.flatMap fun f => f.builtin.outOfLine) called := by
  unfold Builder.importAll
  induction functions generalizing b asked with
  | nil => simpa using h
  | cons f functions ih =>
    rw [List.foldl_cons, List.flatMap_cons, ← List.append_assoc]
    refine ih ?_
    unfold Builtin.outOfLine
    by_cases hf : f.builtin.isInline = true
    · rw [if_pos hf, if_pos hf, List.append_nil]
      exact h
    · rw [if_neg hf, if_neg hf]
      exact (h.shim (Bool.eq_false_iff.mpr hf)).1

end Sound
end Builder

/-! ## Lowering -/

namespace Program

/-- The shims that the function table asks for, in the order of the table. -/
def tabled (p : Program) : List Builtin := p.functions.toList.flatMap fun f => f.builtin.outOfLine

/-- The shim that an instruction calls, after the instructions before it, the latest first. -/
def callee (p : Program) (before : List Instruction) : Instruction → List Builtin
  | .pow => if (p.inlinePower? before).isSome then [] else [.pow]
  | .call index => (p.functions[index]?.map fun f => f.builtin.outOfLine).getD []
  | _ => []

/-- The shims that instructions call, one for each call in the order of the calls.  The latest
instruction stands first. -/
def called (p : Program) : List Instruction → List Builtin
  | [] => []
  | i :: before => p.called before ++ p.callee before i

end Program

namespace Lowering

/-- Nodes and values are in order, after some instructions, the latest first. -/
structure Ordered (p : Program) (before : List Instruction) (s : Lowering) : Prop where
  builder : s.builder.Sound p.inputs (p.tabled ++ p.called before) (p.called before)
  stack : ∀ l ∈ s.stack, l.value < s.builder.nodes.size
  known : ∀ top ∈ s.stack.head?, top.known = p.trailing? before

/-- An instruction leaves nodes and values in order, and earlier nodes as they are. -/
def Extends (p : Program) (before : List Instruction) (s s' : Lowering) : Prop :=
  s'.Ordered p before ∧ s.builder.nodes.toList <+: s'.builder.nodes.toList

variable {p : Program} {before : List Instruction} {s s' : Lowering} {builder : Builder}
  {stack : List Lowered} {i : Instruction}

/-- A new value on the stack. -/
theorem extends_cons {result : Value × Builder} {known : Option Binary64}
    (hadds : Builder.Adds p.inputs ((p.tabled ++ p.called before) ++ p.callee before i)
      (p.called before ++ p.callee before i) s.builder result)
    (hstack : ∀ l ∈ stack, l.value < s.builder.nodes.size)
    (hknown : known = p.trailing? (i :: before)) :
    s.Extends p (i :: before) ⟨result.2, ⟨result.1, known⟩ :: stack⟩ := by
  refine ⟨⟨?_, ?_, ?_⟩, hadds.kept⟩
  · rw [List.append_assoc] at hadds
    exact hadds.sound
  · exact List.forall_mem_cons.mpr ⟨hadds.value, fun l hl => hadds.lt_size (hstack l hl)⟩
  · rintro top ⟨⟩
    exact hknown

/-- A new value on the stack, without a call. -/
theorem extends_cons_quiet {result : Value × Builder} {known : Option Binary64}
    (hquiet : p.callee before i = [])
    (hadds : Builder.Adds p.inputs (p.tabled ++ p.called before) (p.called before) s.builder
      result)
    (hstack : ∀ l ∈ stack, l.value < s.builder.nodes.size)
    (hknown : known = p.trailing? (i :: before)) :
    s.Extends p (i :: before) ⟨result.2, ⟨result.1, known⟩ :: stack⟩ := by
  refine extends_cons ?_ hstack hknown
  rwa [hquiet, List.append_nil, List.append_nil]

theorem extends_binary (h : s.Ordered p before) {op : BinaryOp} (hstep : s.binary op = .ok s')
    (hquiet : p.callee before i = []) (hknown : p.trailing? (i :: before) = none) :
    s.Extends p (i :: before) s' := by
  obtain ⟨builder, _ | ⟨y, _ | ⟨x, stack⟩⟩⟩ := s
  · cases hstep
  · cases hstep
  · cases hstep
    obtain ⟨hy, hrest⟩ := List.forall_mem_cons.mp h.stack
    obtain ⟨hx, hstack⟩ := List.forall_mem_cons.mp hrest
    exact extends_cons_quiet hquiet (h.builder.emit_binary op hx hy) hstack hknown.symm

theorem extends_pow (h : s.Ordered p before) (hstep : s.step p .pow = .ok s') :
    s.Extends p (.pow :: before) s' := by
  obtain ⟨builder, _ | ⟨exponent, _ | ⟨base, stack⟩⟩⟩ := s
  · cases hstep
  · cases hstep
  · obtain ⟨hexponent, hrest⟩ := List.forall_mem_cons.mp h.stack
    obtain ⟨hbase, hstack⟩ := List.forall_mem_cons.mp hrest
    have hpower : exponent.known.bind inlineExponent? = p.inlinePower? before := by
      rw [h.known exponent rfl]
      rfl
    simp only [step, hpower] at hstep
    -- What is known of the exponent decides whether there is a call, as it does in `callee`.
    split at hstep
    · rename_i n hn
      cases hstep
      refine extends_cons_quiet ?_ (h.builder.power hbase n) hstack rfl
      simp [Program.callee, hn]
    · rename_i hn
      cases hstep
      have hcallee : p.callee before .pow = [.pow] := by simp [Program.callee, hn]
      refine extends_cons ?_ hstack rfl
      rw [hcallee]
      exact h.builder.call rfl
        (List.forall_mem_cons.mpr ⟨hbase, List.forall_mem_singleton.mpr hexponent⟩)

theorem extends_call (h : s.Ordered p before) {index : Nat}
    (hstep : s.step p (.call index) = .ok s') : s.Extends p (.call index :: before) s' := by
  obtain ⟨builder, stack⟩ := s
  simp only [step] at hstep
  split at hstep
  · cases hstep
  · rename_i f hf
    have hcallee : p.callee before (.call index) = f.builtin.outOfLine := by
      simp [Program.callee, hf]
    split at hstep
    · rename_i harity
      rcases stack with _ | ⟨y, _ | ⟨x, stack⟩⟩
      · cases hstep
      · cases hstep
      · cases hstep
        obtain ⟨hy, hrest⟩ := List.forall_mem_cons.mp h.stack
        obtain ⟨hx, hstack⟩ := List.forall_mem_cons.mp hrest
        refine extends_cons ?_ hstack rfl
        rw [hcallee]
        exact h.builder.apply f.builtin harity.symm
          (List.forall_mem_cons.mpr ⟨hx, List.forall_mem_singleton.mpr hy⟩)
    · rename_i harity
      have hone : f.arity = 1 := f.arity_eq_one_or_two.resolve_right harity
      rcases stack with _ | ⟨x, stack⟩
      · cases hstep
      · cases hstep
        obtain ⟨hx, hstack⟩ := List.forall_mem_cons.mp h.stack
        refine extends_cons ?_ hstack rfl
        rw [hcallee]
        exact h.builder.apply f.builtin hone.symm (List.forall_mem_singleton.mpr hx)

/-- **One instruction.** -/
theorem extends_step (h : s.Ordered p before) (hstep : s.step p i = .ok s') :
    s.Extends p (i :: before) s' := by
  cases i with
  | loadInput slot =>
    cases hstep
    exact extends_cons_quiet rfl (h.builder.input slot).1 h.stack rfl
  | loadConst index =>
    obtain ⟨builder, stack⟩ := s
    simp only [step] at hstep
    split at hstep
    · cases hstep
    · rename_i x hx
      cases hstep
      exact extends_cons_quiet rfl (h.builder.emit_const x) h.stack hx.symm
  | add | sub | mul | div => exact extends_binary h hstep rfl rfl
  | pow => exact extends_pow h hstep
  | neg =>
    obtain ⟨builder, _ | ⟨x, stack⟩⟩ := s
    · cases hstep
    · cases hstep
      obtain ⟨hx, hstack⟩ := List.forall_mem_cons.mp h.stack
      refine extends_cons_quiet rfl (h.builder.emit_unary .neg hx) hstack ?_
      rw [h.known x rfl]
      rfl
  | call index => exact extends_call h hstep

/-- A run. -/
theorem extends_run {code : List Instruction} (h : s.Ordered p before) {place : Nat}
    (hrun : s.run p code place = .ok s') : s.Extends p (code.reverse ++ before) s' := by
  induction code generalizing s before place with
  | nil =>
    cases hrun
    exact ⟨h, List.prefix_rfl⟩
  | cons i code ih =>
    unfold run at hrun
    split at hrun
    · cases hrun
    · rename_i s₁ hstep
      obtain ⟨h₁, hkept⟩ := extends_step h hstep
      obtain ⟨h', hkept'⟩ := ih h₁ hrun
      rw [List.reverse_cons, List.append_assoc]
      exact ⟨h', hkept.trans hkept'⟩

theorem ordered_start (p : Program) : (start p).Ordered p [] where
  builder := by
    have hsound : (start p).builder.Sound p.inputs ([] ++ p.tabled) [] :=
      Builder.sound_empty.importAll p.functions.toList
    rwa [List.nil_append, ← List.append_nil p.tabled] at hsound
  stack := nofun
  known := nofun

/-- A run of code in two parts. -/
theorem run_append {u v : List Instruction} {place : Nat} (h : s.run p (u ++ v) place = .ok s') :
    ∃ mid, s.run p u place = .ok mid ∧ mid.run p v (place + u.length) = .ok s' := by
  induction u generalizing s place with
  | nil => exact ⟨s, rfl, h⟩
  | cons i u ih =>
    rw [List.cons_append] at h
    unfold run at h
    split at h
    · cases h
    · rename_i s₁ hstep
      obtain ⟨mid, hmid, hrest⟩ := ih h
      refine ⟨mid, by simp only [run, hstep, hmid], ?_⟩
      rwa [List.length_cons, Nat.add_comm u.length, ← Nat.add_assoc]

end Lowering

/-! ## Whole programs -/

namespace Program

variable {p : Program} {r : Routine}

/-- Straight-line code is what a replay of the whole code leaves, with one value on the stack. -/
theorem exists_run_of_lower (h : p.lower = .ok r) :
    ∃ s x, (Lowering.start p).run p p.code.toList 0 = .ok s ∧ s.stack = [x] ∧
      r = ⟨s.builder.nodes, s.builder.imports, x.value⟩ := by
  rw [lower_eq] at h
  split at h
  · cases h
  · rename_i s hrun
    obtain ⟨builder, _ | ⟨x, _ | ⟨y, stack⟩⟩⟩ := s
    · cases h
    · cases h
      exact ⟨_, x, hrun, rfl, rfl⟩
    · cases h

/-- The nodes of the first instructions come first, and what an input is used for is a load
of it. -/
theorem exists_run_of_append {u v : List Instruction} (h : p.lower = .ok r)
    (hcode : p.code.toList = u ++ v) :
    ∃ s, (Lowering.start p).run p u 0 = .ok s ∧ s.Ordered p u.reverse ∧
      s.builder.nodes.toList <+: r.nodes.toList := by
  obtain ⟨last, x, hrun, -, rfl⟩ := exists_run_of_lower h
  rw [hcode] at hrun
  obtain ⟨s, hs, hrest⟩ := Lowering.run_append hrun
  obtain ⟨hordered, -⟩ := Lowering.extends_run (Lowering.ordered_start p) hs
  rw [List.append_nil] at hordered
  obtain ⟨-, hkept⟩ := Lowering.extends_run hordered hrest
  exact ⟨s, hs, hordered, hkept⟩

/-- What an input is used as is the value of a load of it. -/
theorem exists_load_of_append {u v : List Instruction} {slot : Nat} (h : p.lower = .ok r)
    (hcode : p.code.toList = u ++ .loadInput slot :: v) :
    ∃ s s' value, (Lowering.start p).run p u 0 = .ok s ∧ s.step p (.loadInput slot) = .ok s' ∧
      s'.stack = ⟨value, none⟩ :: s.stack ∧ r.nodes[value]? = some (.load slot) := by
  rw [List.append_cons] at hcode
  obtain ⟨s', hs', -, hkept⟩ := exists_run_of_append h hcode
  obtain ⟨s, hs, hlast⟩ := Lowering.run_append hs'
  obtain ⟨hordered, -⟩ := Lowering.extends_run (Lowering.ordered_start p) hs
  cases hlast
  exact ⟨s, _, _, hs, rfl, rfl, getElem?_of_isPrefix hkept (hordered.builder.input slot).2⟩

/-- **Straight-line code is in order.**  Take a program whose lowering went through.

* A node reads values of nodes before it only, and the result is the value of a node.  In a listing
  the values are numbered from `v1` on, in the order in which the nodes were made.
* A declared input is loaded once at most, and each use of an input is the value of a load of it.
* The shims are those of the function table, in the order of the table, and after them those that
  are called first by an instruction.  The number in a call is the place of its shim, so that two
  calls have the same number exactly if they are calls of the same builtin. -/
theorem numbering_of_lower (h : p.lower = .ok r) :
    ((∀ (k : Nat) (node : Node), r.nodes[k]? = some node →
        (∀ v ∈ node.operands, v < k) ∧
        ∃ calls, (Routine.nodeLines r.nodes r.nodes.toList 0 0 [])[k]? =
          some ("    " ++ ("v" ++ toString (k + 1)) ++ " = " ++ Routine.nodeText calls node ++
            Routine.constantsComment r.nodes node.operands)) ∧
      r.result < r.nodes.size ∧
      ∀ u v, p.code.toList = u ++ v → ∃ s, (Lowering.start p).run p u 0 = .ok s ∧
        s.builder.nodes.toList <+: r.nodes.toList) ∧
    ((∀ (slot j k : Nat), slot < p.inputs → r.nodes[j]? = some (.load slot) →
        r.nodes[k]? = some (.load slot) → j = k) ∧
      ∀ u slot v, p.code.toList = u ++ .loadInput slot :: v →
        ∃ s s' value, (Lowering.start p).run p u 0 = .ok s ∧ s.step p (.loadInput slot) = .ok s' ∧
          s'.stack = ⟨value, none⟩ :: s.stack ∧ r.nodes[value]? = some (.load slot)) ∧
    r.imports.toList = (p.tabled ++ p.called p.code.toList.reverse).eraseDups ∧
    p.tabled.eraseDups <+: r.imports.toList ∧
    r.calls.map Prod.fst =
      (p.called p.code.toList.reverse).map (fun f => r.imports.toList.idxOf f) ∧
    ∀ (i j : Nat) (f g : Builtin), (p.called p.code.toList.reverse)[i]? = some f →
      (p.called p.code.toList.reverse)[j]? = some g →
      ((r.calls.map Prod.fst)[i]? = (r.calls.map Prod.fst)[j]? ↔ f = g) := by
  obtain ⟨s, x, hrun, hstack, rfl⟩ := exists_run_of_lower h
  obtain ⟨hordered, -⟩ := Lowering.extends_run (Lowering.ordered_start p) hrun
  rw [List.append_nil] at hordered
  obtain ⟨hoperands, hloaded, himports, hcalled, hshims⟩ := hordered.builder
  have hcalls := (Routine.map_fst_calls ⟨s.builder.nodes, s.builder.imports, x.value⟩).trans hshims
  refine ⟨⟨fun k node hk => ⟨hoperands k node hk, ?_⟩, ?_, fun u v hcode => ?_⟩,
    ⟨fun slot j k hslot hj hk => ?_, fun u slot v hcode => ?_⟩, himports, ?_, hcalls,
    fun i j f g hf hg => ?_⟩
  · exact ⟨_, Routine.getElem?_nodeLines_zero hk⟩
  · exact hordered.stack x (hstack ▸ List.mem_cons_self)
  · obtain ⟨s', hs', -, hkept⟩ := exists_run_of_append h hcode
    exact ⟨s', hs', hkept⟩
  · have hj' := (hloaded slot j).mpr ⟨hslot, hj⟩
    have hk' := (hloaded slot k).mpr ⟨hslot, hk⟩
    exact Option.some.inj (hj'.symm.trans hk')
  · exact exists_load_of_append h hcode
  · rw [himports]
    exact eraseDups_isPrefix ..
  · have hmem : f ∈ s.builder.imports.toList := by
      rw [himports]
      exact List.mem_eraseDups.mpr (hcalled (List.mem_of_getElem? hf))
    rw [hcalls, List.getElem?_map, List.getElem?_map, hf, hg, Option.map_some, Option.map_some,
      Option.some.injEq]
    exact List.idxOf_inj hmem

/-- A power of a power, the inner one by the function of that name, and a sine. -/
def powers : Program :=
  ⟨"pow(x0,x1)^x0+sin(x0)", 2, 2, #[], #[.abs, .sin, .pow],
    #[.loadInput 0, .loadInput 1, .call 2, .loadInput 0, .pow, .loadInput 0, .call 1, .add]⟩

/-- Both powers have the number after the sine, which stands before them in the table, and the input
that is used three times is loaded once. -/
theorem numbering_of_lower_powers :
    ∃ r, powers.lower = .ok r ∧ r.imports.toList = [.sin, .pow] ∧
      r.calls.map Prod.fst = [1, 1, 0] ∧ r.result < r.nodes.size ∧
      ∀ (j k : Nat), r.nodes[j]? = some (.load 0) → r.nodes[k]? = some (.load 0) → j = k := by
  have hverify : powers.verify = .ok () := rfl
  obtain ⟨r, hr⟩ := lower_of_verify hverify
  obtain ⟨⟨-, hresult, -⟩, ⟨honce, -⟩, himports, -, hcalls, -⟩ := numbering_of_lower hr
  have hlist : r.imports.toList = [.sin, .pow] := himports.trans rfl
  rw [hlist] at hcalls
  exact ⟨r, hr, hlist, hcalls, hresult, fun j k => honce 0 j k (by decide)⟩

end Program
end Formula
