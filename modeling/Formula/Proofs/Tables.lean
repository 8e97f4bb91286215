import Mathlib.Data.List.Induction
import Mathlib.Data.List.Nodup
import Mathlib.Data.List.Perm.Subperm
import Formula.Parser
import Formula.Proofs.Grammar

/-!
# Tables in the order of first use

The constants and the functions of a list of mnemonics are tables without repetitions.  Writing one
more mnemonic leaves the places in them as they are (`assemble_concat`), so that code can be written
before the tables are complete.

Beside the tables of mnemonics stand the tables that a program is made with.

* `Pool.Holds` says of a pool that it has the values of a list of spellings, each found at its
  place.  Interning keeps it or extends it by the new spelling at the end.
* `FunctionTable.intern` extends its entries in the same way, and never fails on a table of
  functions without repetitions, because there are only fifteen of them.

The height of the stack is a count along mnemonics as well, and a tree raises it by one.
-/

namespace Formula

/-! ## First uses -/

section FirstUses

variable {α : Type} [BEq α] [LawfulBEq α]

theorem eraseDups_concat_of_mem {l : List α} {a : α} (h : a ∈ l) :
    (l ++ [a]).eraseDups = l.eraseDups := by
  have hrem : [a].removeAll l = [] := by simp [List.removeAll, h]
  rw [List.eraseDups_append, hrem, List.eraseDups_nil, List.append_nil]

theorem eraseDups_concat_of_notMem {l : List α} {a : α} (h : a ∉ l) :
    (l ++ [a]).eraseDups = l.eraseDups ++ [a] := by
  have hrem : [a].removeAll l = [a] := by simp [List.removeAll, h]
  rw [List.eraseDups_append, hrem]
  rfl

theorem nodup_eraseDups (l : List α) : l.eraseDups.Nodup := by
  induction l using List.reverseRecOn with
  | nil => exact List.nodup_nil
  | append_singleton l a ih =>
    by_cases h : a ∈ l
    · rwa [eraseDups_concat_of_mem h]
    · rw [eraseDups_concat_of_notMem h]
      refine List.Nodup.append ih (List.nodup_singleton a) ?_
      intro b hb hb'
      rw [List.mem_singleton.mp hb'] at hb
      exact h (List.mem_eraseDups.mp hb)

/-- The place of a member is found. -/
theorem idxOf?_of_mem {l : List α} {a : α} (h : a ∈ l) : l.idxOf? a = some (l.idxOf a) := by
  induction l with
  | nil => cases h
  | cons b l ih =>
    rw [List.idxOf?_cons, List.idxOf_cons]
    by_cases hb : b = a
    · simp [hb]
    · have hm : a ∈ l := (List.mem_cons.mp h).resolve_left fun hab => hb hab.symm
      have hne : (b == a) = false := beq_eq_false_iff_ne.mpr hb
      simp [hne, ih hm]

/-- A list extended on the right only adds first uses on the right. -/
theorem eraseDups_isPrefix (l l' : List α) : l.eraseDups <+: (l ++ l').eraseDups := by
  rw [List.eraseDups_append]
  exact List.prefix_append ..

end FirstUses

namespace Mnemonic

theorem mem_spellings {ms : List Mnemonic} {s : String} :
    s ∈ spellings ms ↔ .constant s ∈ ms := by
  rw [spellings, List.mem_eraseDups, List.mem_filterMap]
  constructor
  · rintro ⟨m, hm, hs⟩
    cases m <;> cases hs
    exact hm
  · exact fun h => ⟨_, h, rfl⟩

theorem mem_functions {ms : List Mnemonic} {f : FunctionName} :
    f ∈ functions ms ↔ .call f ∈ ms := by
  rw [functions, List.mem_eraseDups, List.mem_filterMap]
  constructor
  · rintro ⟨m, hm, hf⟩
    cases m <;> cases hf
    exact hm
  · exact fun h => ⟨_, h, rfl⟩

theorem spellings_isPrefix (ms ms' : List Mnemonic) : spellings ms <+: spellings (ms ++ ms') := by
  rw [spellings, spellings, List.filterMap_append]
  exact eraseDups_isPrefix ..

theorem functions_isPrefix (ms ms' : List Mnemonic) : functions ms <+: functions (ms ++ ms') := by
  rw [functions, functions, List.filterMap_append]
  exact eraseDups_isPrefix ..

theorem spellings_concat (ms : List Mnemonic) {m : Mnemonic} (h : m.spelling? = none) :
    spellings (ms ++ [m]) = spellings ms := by
  simp [spellings, List.filterMap_append, h]

theorem functions_concat (ms : List Mnemonic) {m : Mnemonic} (h : m.function? = none) :
    functions (ms ++ [m]) = functions ms := by
  simp [functions, List.filterMap_append, h]

theorem spellings_constant_of_mem {ms : List Mnemonic} {s : String} (h : s ∈ spellings ms) :
    spellings (ms ++ [.constant s]) = spellings ms := by
  rw [spellings, List.filterMap_append]
  exact eraseDups_concat_of_mem (List.mem_eraseDups.mp h)

theorem spellings_constant_of_notMem {ms : List Mnemonic} {s : String} (h : s ∉ spellings ms) :
    spellings (ms ++ [.constant s]) = spellings ms ++ [s] := by
  rw [spellings, List.filterMap_append]
  exact eraseDups_concat_of_notMem fun hm => h (List.mem_eraseDups.mpr hm)

theorem functions_call_of_mem {ms : List Mnemonic} {f : FunctionName} (h : f ∈ functions ms) :
    functions (ms ++ [.call f]) = functions ms := by
  rw [functions, List.filterMap_append]
  exact eraseDups_concat_of_mem (List.mem_eraseDups.mp h)

theorem functions_call_of_notMem {ms : List Mnemonic} {f : FunctionName} (h : f ∉ functions ms) :
    functions (ms ++ [.call f]) = functions ms ++ [f] := by
  rw [functions, List.filterMap_append]
  exact eraseDups_concat_of_notMem fun hm => h (List.mem_eraseDups.mpr hm)

/-- There are fifteen functions, so that no table has more. -/
theorem length_functions_le (ms : List Mnemonic) : (functions ms).length ≤ 15 :=
  (List.subperm_of_subset (nodup_eraseDups _) fun f _ => FunctionName.mem_all f).length_le

/-! ## Places stay -/

/-- A larger table has the same places for what was there before. -/
theorem instruction_of_isPrefix {m : Mnemonic} {cs cs' : List String} {fs fs' : List FunctionName}
    (hcs : cs <+: cs') (hfs : fs <+: fs') (hc : ∀ s, m = .constant s → s ∈ cs)
    (hf : ∀ f, m = .call f → f ∈ fs) : m.instruction cs' fs' = m.instruction cs fs := by
  obtain ⟨cs₂, rfl⟩ := hcs
  obtain ⟨fs₂, rfl⟩ := hfs
  cases m with
  | constant s => rw [instruction, instruction, List.idxOf_append_of_mem (hc s rfl)]
  | call f => rw [instruction, instruction, List.idxOf_append_of_mem (hf f rfl)]
  | input | negate | operator => rfl

/-- Code that was written is not changed by what is written after it. -/
theorem assemble_concat (ms : List Mnemonic) (m : Mnemonic) :
    assemble (ms ++ [m]) =
      assemble ms ++ [m.instruction (spellings (ms ++ [m])) (functions (ms ++ [m]))] := by
  rw [assemble, List.map_append, List.map_singleton, assemble]
  congr 1
  refine List.map_congr_left fun m' hm => ?_
  refine instruction_of_isPrefix (spellings_isPrefix ..) (functions_isPrefix ..) ?_ ?_
  · rintro s rfl
    exact mem_spellings.mpr hm
  · rintro f rfl
    exact mem_functions.mpr hm

/-! ## Heights -/

/-- The height of the stack after a mnemonic. -/
def heightAfter (height : Nat) (m : Mnemonic) : Nat := height - m.arity + 1

/-- The height of the stack after mnemonics. -/
def heightFrom (height : Nat) (ms : List Mnemonic) : Nat := ms.foldl heightAfter height

/-- The greatest height of the stack on the way through mnemonics. -/
def peakFrom (height : Nat) : List Mnemonic → Nat
  | [] => 0
  | m :: ms => max (heightAfter height m) (peakFrom (heightAfter height m) ms)

@[simp] theorem heightFrom_nil (n : Nat) : heightFrom n [] = n := rfl

@[simp] theorem heightFrom_cons (n : Nat) (m : Mnemonic) (ms : List Mnemonic) :
    heightFrom n (m :: ms) = heightFrom (heightAfter n m) ms := rfl

@[simp] theorem heightFrom_append (n : Nat) (ms ms' : List Mnemonic) :
    heightFrom n (ms ++ ms') = heightFrom (heightFrom n ms) ms' :=
  List.foldl_append

theorem peakFrom_append (n : Nat) (ms ms' : List Mnemonic) :
    peakFrom n (ms ++ ms') = max (peakFrom n ms) (peakFrom (heightFrom n ms) ms') := by
  induction ms generalizing n with
  | nil => simp [peakFrom]
  | cons m ms ih =>
    simp only [List.cons_append, peakFrom, ih, heightFrom_cons]
    rw [max_assoc]

theorem peakFrom_concat (n : Nat) (ms : List Mnemonic) (m : Mnemonic) :
    peakFrom n (ms ++ [m]) = max (peakFrom n ms) (heightAfter (heightFrom n ms) m) := by
  simp [peakFrom_append, peakFrom]

/-- The last height is one of those that the peak is taken of. -/
theorem heightFrom_le_peakFrom (ms : List Mnemonic) : heightFrom 0 ms ≤ peakFrom 0 ms := by
  induction ms using List.reverseRecOn with
  | nil => exact Nat.le_refl 0
  | append_singleton ms m _ =>
    rw [heightFrom_append, peakFrom_concat]
    exact le_max_right ..

end Mnemonic

/-- A tree leaves one value on the stack. -/
@[simp] theorem Tree.heightFrom_postorder (x : Tree) (n : Nat) :
    Mnemonic.heightFrom n x.postorder = n + 1 := by
  induction x generalizing n with
  | constant | input => simp [postorder, Mnemonic.heightAfter, Mnemonic.arity]
  | sign negative x ih =>
    cases negative <;> simp [postorder, ih, Mnemonic.heightAfter, Mnemonic.arity]
  | binary op x y ihx ihy => simp [postorder, ihx, ihy, Mnemonic.heightAfter, Mnemonic.arity]
  | call₁ f unary x ih => simp [postorder, ih, Mnemonic.heightAfter, Mnemonic.arity, unary]
  | call₂ f pair x y ihx ihy =>
    simp [postorder, ihx, ihy, Mnemonic.heightAfter, Mnemonic.arity, pair]

/-! ## The pool -/

/-- A pool has the values of spellings, each found at its place, and no more of them than
it has room for. -/
structure Pool.Holds (p : Pool) (ss : List String) : Prop where
  places : ∀ text, p.places[text]? = if text ∈ ss then some (ss.idxOf text) else none
  values : p.values.toList.map some = ss.map Pool.value?
  room : ss.length ≤ Pool.capacity

namespace Pool

variable {p : Pool} {ss : List String} {text : String}

theorem Holds.size_eq (h : p.Holds ss) : p.size = ss.length := by
  have hlen := congrArg List.length h.values
  simpa [size] using hlen

theorem holds_empty : empty.Holds [] where
  places text := by simp [empty]
  values := rfl
  room := Nat.zero_le _

/-- A spelling that is in the pool is found. -/
theorem Holds.intern_of_mem (h : p.Holds ss) (hm : text ∈ ss) :
    ∃ entry, p.intern text = (some entry, p) ∧ entry.index = ss.idxOf text := by
  have hplace : p.places[text]? = some (ss.idxOf text) := by
    rw [h.places, if_pos hm]
  unfold intern
  split
  · rename_i i hi
    rw [hplace] at hi
    cases hi
    exact ⟨_, rfl, rfl⟩
  · rename_i hi
    rw [hplace] at hi
    cases hi

/-- A new spelling is entered at the end if it has a value and there is room. -/
theorem Holds.intern_of_notMem (h : p.Holds ss) (hm : text ∉ ss) {x : Binary64}
    (hx : value? text = some x) (hroom : ss.length < capacity) :
    p.intern text = (some ⟨ss.length, x⟩, p.push text x) ∧
      (p.push text x).Holds (ss ++ [text]) := by
  have hplace : p.places[text]? = none := by rw [h.places, if_neg hm]
  constructor
  · unfold intern
    split
    · rename_i i hi
      rw [hplace] at hi
      cases hi
    · simp only [hx, h.size_eq, if_pos hroom]
  · refine ⟨fun t => ?_, ?_, ?_⟩
    · show (p.places.insert text p.values.size)[t]? = _
      have hsize : p.values.size = ss.length := h.size_eq
      rw [Std.HashMap.getElem?_insert, h.places, hsize]
      by_cases ht : text = t
      · subst ht
        simp [List.idxOf_append_of_notMem hm]
      · by_cases hss : t ∈ ss
        · simp [ht, hss, List.idxOf_append_of_mem hss]
        · simp [ht, hss, Ne.symm ht]
    · show ((p.values.push x).toList).map some = _
      simp [h.values, hx]
    · rw [List.length_append, List.length_singleton]
      exact hroom

/-- A new spelling without a value, or without room, is refused. -/
theorem Holds.intern_of_not_fits (h : p.Holds ss) (hm : text ∉ ss)
    (hbad : ¬ ((value? text).isSome = true ∧ ss.length < capacity)) :
    p.intern text = (none, p) := by
  have hplace : p.places[text]? = none := by rw [h.places, if_neg hm]
  unfold intern
  split
  · rename_i i hi
    rw [hplace] at hi
    cases hi
  · cases hv : value? text with
    | none => rfl
    | some x =>
      have hfull : ¬ p.size < capacity := fun hlt => hbad ⟨by rw [hv]; rfl, h.size_eq ▸ hlt⟩
      simp only [if_neg hfull]

end Pool

/-! ## The function table -/

/-- Entering a function that mnemonics call next.  It always succeeds. -/
theorem FunctionTable.intern_functions {t : FunctionTable} {ms : List Mnemonic}
    (h : t.entries.toList = Mnemonic.functions ms) (f : FunctionName) :
    ∃ t', t.intern f = some ((Mnemonic.functions (ms ++ [.call f])).idxOf f, t') ∧
      t'.entries.toList = Mnemonic.functions (ms ++ [.call f]) := by
  have hcap : (Mnemonic.functions ms).length < capacity :=
    Nat.lt_of_le_of_lt (Mnemonic.length_functions_le ms) (by decide)
  have hidx : t.entries.idxOf? f = (Mnemonic.functions ms).idxOf? f := by
    rw [← h, ← List.idxOf?_toArray, Array.toArray_toList]
  have hsize : t.size = (Mnemonic.functions ms).length := by rw [← h, Array.length_toList]; rfl
  unfold intern
  by_cases hm : f ∈ Mnemonic.functions ms
  · have hlt := Nat.lt_trans (List.idxOf_lt_length_of_mem hm) hcap
    refine ⟨t, ?_, ?_⟩
    · simp only [hidx, idxOf?_of_mem hm, if_pos hlt, Mnemonic.functions_call_of_mem hm]
    · rw [h, Mnemonic.functions_call_of_mem hm]
  · refine ⟨⟨t.entries.push f⟩, ?_, ?_⟩
    · simp only [hidx, List.idxOf?_eq_none_iff.mpr hm, hsize, if_pos hcap,
        Mnemonic.functions_call_of_notMem hm, List.idxOf_append_of_notMem hm]
      simp
    · simp [h, Mnemonic.functions_call_of_notMem hm]

end Formula
