import Formula.Proofs.Refusals

/-!
# Places in the order of first use

A program refers to its constants and functions by their places in two tables.  For an accepted
formula the tables are as small as they can be and their order is that of the code: going through
the code from the left, every place that was not used before is the next one, and no place is left
over.

* `eraseDups_map_idxOf` is the law behind this.  It is about any list whose members are replaced by
  their places among first uses, and the code of a tree is such a list twice over, once by its
  constants and once by its calls.
* The same holds seen from the text.  A token that stands for a constant is loaded as soon as the
  parser knows it, which for a name is one token late (`State.settle`).  It is loaded through the
  place of its spelling in the finished table (`exists_loadedThrough`): places that have been given
  stay, whatever is read afterwards.
-/

namespace Formula

open Mnemonic

/-! ## The numbering law -/

section FirstUses

variable {α : Type} [BEq α] [LawfulBEq α]

/-- **Members replaced by their places among first uses.**  New places come in order. -/
theorem eraseDups_map_idxOf (l : List α) :
    (l.map fun a => l.eraseDups.idxOf a).eraseDups = List.range l.eraseDups.length := by
  induction l using List.reverseRecOn with
  | nil => rfl
  | append_singleton l a ih =>
    rw [List.map_append, List.map_singleton]
    by_cases h : a ∈ l
    · rw [eraseDups_concat_of_mem h, eraseDups_concat_of_mem (List.mem_map_of_mem h), ih]
    · have hnew : a ∉ l.eraseDups := fun hm => h (List.mem_eraseDups.mp hm)
      have hkept : (l.map fun b => (l.eraseDups ++ [a]).idxOf b) =
          l.map fun b => l.eraseDups.idxOf b :=
        List.map_congr_left fun b hb => List.idxOf_append_of_mem (List.mem_eraseDups.mpr hb)
      have hplace : (l.eraseDups ++ [a]).idxOf a = l.eraseDups.length := by
        simp [List.idxOf_append_of_notMem hnew]
      have hfree : l.eraseDups.length ∉ l.map fun b => l.eraseDups.idxOf b := by
        intro hm
        obtain ⟨b, hb, hlength⟩ := List.mem_map.mp hm
        have hlt := List.idxOf_lt_length_of_mem (List.mem_eraseDups.mpr hb)
        exact absurd hlength (Nat.ne_of_lt hlt)
      rw [eraseDups_concat_of_notMem h, hkept, hplace, eraseDups_concat_of_notMem hfree, ih,
        List.length_append, List.length_singleton, List.range_succ]

end FirstUses

/-! ## The places in code -/

namespace Instruction

/-- The place of the constant that an instruction loads. -/
def constant? : Instruction → Option Nat
  | loadConst index => some index
  | _ => none

/-- The place of the function that an instruction calls. -/
def callee? : Instruction → Option Nat
  | call index => some index
  | _ => none

end Instruction

namespace Mnemonic

theorem constant?_instruction (cs : List String) (fs : List FunctionName) (m : Mnemonic) :
    (m.instruction cs fs).constant? = m.spelling?.map fun s => cs.idxOf s := by
  cases m with
  | operator op => cases op <;> rfl
  | constant | input | negate | call => rfl

theorem callee?_instruction (cs : List String) (fs : List FunctionName) (m : Mnemonic) :
    (m.instruction cs fs).callee? = m.function?.map fun f => fs.idxOf f := by
  cases m with
  | operator op => cases op <;> rfl
  | constant | input | negate | call => rfl

/-- The places in code, where an instruction has the place of what its mnemonic names. -/
theorem eraseDups_assemble {α : Type} [BEq α] [LawfulBEq α] {place? : Instruction → Option Nat}
    {item? : Mnemonic → Option α} {ms : List Mnemonic}
    (h : ∀ m : Mnemonic, place? (m.instruction (spellings ms) (Mnemonic.functions ms)) =
      (item? m).map fun a => (ms.filterMap item?).eraseDups.idxOf a) :
    ((assemble ms).filterMap place?).eraseDups =
      List.range (ms.filterMap item?).eraseDups.length := by
  have hplaces : (assemble ms).filterMap place? =
      (ms.filterMap item?).map fun a => (ms.filterMap item?).eraseDups.idxOf a := by
    rw [assemble, List.filterMap_map, List.map_filterMap]
    exact List.filterMap_congr fun m _ => h m
  rw [hplaces, eraseDups_map_idxOf]

/-- The constants that code loads. -/
theorem constants_assemble (ms : List Mnemonic) :
    ((assemble ms).filterMap Instruction.constant?).eraseDups =
      List.range (spellings ms).length :=
  eraseDups_assemble fun m => constant?_instruction _ _ m

/-- The functions that code calls. -/
theorem callees_assemble (ms : List Mnemonic) :
    ((assemble ms).filterMap Instruction.callee?).eraseDups =
      List.range (Mnemonic.functions ms).length :=
  eraseDups_assemble fun m => callee?_instruction _ _ m

/-- Code that was written stays in front of what is written after it. -/
theorem assemble_isPrefix {ms ms' : List Mnemonic} (h : ms <+: ms') :
    assemble ms <+: assemble ms' := by
  obtain ⟨more, rfl⟩ := h
  induction more using List.reverseRecOn with
  | nil => rw [List.append_nil]
  | append_singleton more m ih =>
    rw [← List.append_assoc, assemble_concat]
    exact ih.trans (List.prefix_append ..)

/-- A constant is loaded through its place in the finished table. -/
theorem assemble_constant {ms all : List Mnemonic} {s : String}
    (h : ms ++ [.constant s] <+: all) :
    s ∈ spellings all ∧
      assemble (ms ++ [.constant s]) = assemble ms ++ [.loadConst ((spellings all).idxOf s)] := by
  obtain ⟨more, rfl⟩ := h
  have htable := spellings_isPrefix (ms ++ [.constant s]) more
  have hmem : s ∈ spellings (ms ++ [.constant s]) := mem_spellings.mpr (by simp)
  refine ⟨htable.subset hmem, ?_⟩
  obtain ⟨later, hlater⟩ := htable
  rw [assemble_concat, ← hlater, List.idxOf_append_of_mem hmem]
  rfl

end Mnemonic

/-! ## Constants in the text -/

/-- The constant that a lexeme stands for, by its spelling: a numeral, or one of the two names of
constants when no input has that name. -/
def Lexeme.constant? (scope : Scope) : Lexeme → Option String
  | number spelling => some spelling
  | name spelling =>
    if spelling ∉ scope.names ∧ (spelling = "E" ∨ spelling = "PI") then some spelling else none
  | _ => none

namespace Outline

variable {scope : Scope} {o o' : Outline} {x : Tree} {l : Lexeme} {a : String}

/-- What is read to the end from a place. -/
def reading? (scope : Scope) (o : Outline) (w : List Lexeme) : Option Tree :=
  (w.foldlM (step scope) o).bind (finish scope)

/-- What was written at a place stays. -/
theorem emitted_isPrefix_of_reading {w : List Lexeme} (h : o.reading? scope w = some x) :
    o.emitted <+: x.postorder := by
  obtain ⟨o', hrun, hfinish⟩ := Option.bind_eq_some_iff.mp h
  exact (emitted_run hrun).trans (emitted_finish hfinish)

/-- A name that stands for an operand is read on from as that operand is. -/
theorem reading?_settle {w : List Lexeme} (hx : o.focus.settle? scope = some x) :
    reading? scope { o with focus := .tree x } w = o.reading? scope w := by
  obtain ⟨focus, hs, es⟩ := o
  cases focus with
  | operand => cases hx
  | tree y =>
    cases hx
    rfl
  | name spelling =>
    have hname : nameTree? scope spelling = some x := hx
    have hfunction : FunctionName.ofSpelling? spelling = none := by
      cases hf : FunctionName.ofSpelling? spelling with
      | none => rfl
      | some f => simp [nameTree?, hf] at hname
    cases w with
    | nil => cases es <;> simp [reading?, finish, Focus.settle?, hname]
    | cons l w =>
      have hstep : step scope ⟨.tree x, hs, es⟩ l = step scope ⟨.name spelling, hs, es⟩ l := by
        by_cases hl : l = .openParen
        · subst hl
          simp [step, operator, hfunction]
        · simp [step, hl, hname]
          rfl
      simp only [reading?, List.foldlM_cons, hstep]

/-- A token that stands for a constant is an operand, and nothing but that is written for it. -/
theorem settle?_of_constant (hstep : o.step scope l = some o') (hl : l.constant? scope = some a) :
    o'.focus.settle? scope = some (.constant a) ∧
      emitted { o' with focus := .tree (.constant a) } = o.emitted ++ [.constant a] := by
  cases moves_of_step hstep with
  | number spelling hs es =>
    cases hl
    exact ⟨rfl, by simp [emitted, Tree.postorder]⟩
  | name spelling hs es =>
    simp only [Lexeme.constant?] at hl
    split at hl
    · rename_i hnamed
      cases hl
      refine ⟨nameTree?_eq_some_iff.mpr (.constant ?_ (.constant hnamed.1 hnamed.2)), ?_⟩
      · rcases hnamed.2 with rfl | rfl <;> decide
      · simp [emitted, Tree.postorder]
    · cases hl
  | group | sign | call | binary | closeGroup | closeCall₁ | closeCall₂ | comma => cases hl

end Outline

namespace Parser.State

/-- The parser with the name that it has read last, if it is one, taken for an operand. -/
def settle (scope : Scope) (s : State) : Except Failure State :=
  match s.expecting with
  | .afterName name offset => s.loadName scope name offset
  | .operand | .operator => .ok s

variable {scope : Scope} {s : State} {o : Outline} {x : Tree}

/-- There is room for an operand that fits. -/
theorem exists_settle (h : s.Follows o) (hx : o.focus.settle? scope = some x)
    (hfits : Fits (Outline.emitted { o with focus := .tree x })) :
    ∃ s', s.settle scope = .ok s' ∧ s'.Follows { o with focus := .tree x } := by
  have hexpects := h.expecting
  unfold settle
  generalize s.expecting = expecting at hexpects
  obtain ⟨focus, hs, es⟩ := o
  cases focus with
  | operand => cases hx
  | tree y =>
    cases hx
    cases hexpects
    exact ⟨s, rfl, h⟩
  | name spelling =>
    cases hexpects with
    | afterName _ offset =>
      have hload := loadName_agrees scope h rfl spelling offset
      have hname : nameTree? scope spelling = some x := hx
      rw [hname, Option.map_some] at hload
      simp only
      generalize s.loadName scope spelling offset = r at hload ⊢
      cases hload with
      | follows hfollows => exact ⟨_, rfl, hfollows⟩
      | full e hfull => exact absurd ⟨hfits, h.nesting⟩ hfull

end Parser.State

variable {scope : Scope} {source : String} {p : Program} {u v : List Token} {t : Token}

/-- A token of a text that the parser reads to its end, with the parser and the outline before and
after it. -/
theorem Parser.State.exists_step_of_tokens {last : Parser.State}
    (htokens : (scan source).tokens = u ++ t :: v)
    (hrun : start.run scope (scan source).tokens = .ok last) :
    ∃ s s' o o', start.run scope u = .ok s ∧ s.step scope t = .ok s' ∧ s.Follows o ∧
      s'.Follows o' ∧ (u.map (·.lexeme)).foldlM (Outline.step scope) .start = some o ∧
      o.step scope t.lexeme = some o' := by
  have hsplit : (scan source).tokens = (u ++ [t]) ++ v := by rw [htokens, List.append_assoc]; rfl
  rw [hsplit] at hrun
  obtain ⟨s', hrun', -⟩ := run_append hrun
  obtain ⟨s, hu, hlast⟩ := run_append hrun'
  have hstep : s.step scope t = .ok s' := by
    cases hs : s.step scope t with
    | error e => simp [run, hs] at hlast
    | ok s₂ => simpa [run, hs] using hlast
  obtain ⟨o, hfollows, hr, -⟩ := follows_of_tokens htokens hu
  obtain ⟨o', hfollows', hr', -⟩ := follows_of_tokens hsplit hrun'
  rw [List.map_append, List.foldlM_append, hr] at hr'
  exact ⟨s, s', o, o', hu, hstep, hfollows, hfollows', hr, by simpa using hr'⟩

/-- After the tokens `u` of a formula, the token `t` is read and taken for an operand, and what is
written for it is one instruction of the program, which loads the constant at the place `i`. -/
def LoadedThrough (scope : Scope) (p : Program) (u : List Token) (t : Token) (i : Nat) : Prop :=
  ∃ s s' loaded, Parser.State.start.run scope u = .ok s ∧ s.step scope t = .ok s' ∧
    s'.settle scope = .ok loaded ∧ loaded.draft.code = s.draft.code.push (.loadConst i) ∧
    loaded.draft.code.toList <+: p.code.toList

/-- **All constants of a text are looked up in one list of spellings.**  What was written for a
constant when it was read is what the finished list says. -/
theorem exists_loadedThrough (h : parse scope source = .ok p) :
    ∃ ss : List String, ∀ u t v a, (scan source).tokens = u ++ t :: v →
      t.lexeme.constant? scope = some a → a ∈ ss ∧ LoadedThrough scope p u t (ss.idxOf a) := by
  obtain ⟨offset, x, d, -, hx, -, henc, rfl⟩ := encodes_of_parse h
  obtain ⟨last, hrun, -, -⟩ := exists_run_of_parse h
  refine ⟨spellings x.postorder, fun u t v a htokens hl => ?_⟩
  obtain ⟨s, s', o, o', hu, hstep, hfollows, hfollows', hr, hmove⟩ :=
    Parser.State.exists_step_of_tokens htokens hrun
  obtain ⟨hsettle, hemitted⟩ := Outline.settle?_of_constant hmove hl
  -- the constant is written in front of what the rest of the text comes to
  have hreading : o'.reading? scope (v.map (·.lexeme)) = some x := by
    have htree := Outline.tree?_eq_some_iff.mpr hx
    rw [Outline.tree?, lexemes, htokens, List.map_append, List.map_cons, List.foldlM_append, hr]
      at htree
    simpa [Outline.reading?, hmove] using htree
  rw [← Outline.reading?_settle hsettle] at hreading
  have hwritten := Outline.emitted_isPrefix_of_reading hreading
  obtain ⟨loaded, hloaded, hfollowed⟩ :=
    Parser.State.exists_settle hfollows' hsettle (henc.fits.of_isPrefix hwritten)
  have hcode := hfollowed.draft.code
  rw [hemitted] at hwritten hcode
  obtain ⟨hmem, hassemble⟩ := assemble_constant hwritten
  refine ⟨hmem, s, s', loaded, hu, hstep, hloaded, ?_, ?_⟩
  · rw [← Array.toList_inj, hcode, hassemble, Array.toList_push, hfollows.draft.code]
  · rw [hcode]
    exact henc.code ▸ assemble_isPrefix hwritten

/-- **The tables of an accepted formula are those of its code.**  Going through the code, the places
of constants that were not loaded before are `0`, `1` and so on up to the last one of the table, and
the same with the places of functions that were not called before.  The functions are different
ones, out of those that there are.  And of two tokens of the text that stand for constants, each is
loaded by an instruction of the program, both through the same place exactly if they are spelled
alike. -/
theorem tables_of_parse {scope : Scope} {source : String} {p : Program}
    (h : parse scope source = .ok p) :
    (p.code.toList.filterMap Instruction.constant?).eraseDups = List.range p.constants.size ∧
    (p.code.toList.filterMap Instruction.callee?).eraseDups = List.range p.functions.size ∧
    (p.functions.toList.Nodup ∧ ∀ f ∈ p.functions, f ∈ FunctionName.all) ∧
    ∀ u t v u' t' v' a a', (scan source).tokens = u ++ t :: v →
      (scan source).tokens = u' ++ t' :: v' → t.lexeme.constant? scope = some a →
      t'.lexeme.constant? scope = some a' →
      ∃ i i', LoadedThrough scope p u t i ∧ LoadedThrough scope p u' t' i' ∧ (i = i' ↔ a = a') := by
  obtain ⟨ss, hss⟩ := exists_loadedThrough h
  obtain ⟨offset, x, d, -, -, -, henc, rfl⟩ := encodes_of_parse h
  have hcode : (d.toProgram source scope.inputs).code.toList = assemble x.postorder := henc.code
  have hfunctions : (d.toProgram source scope.inputs).functions.toList =
      Mnemonic.functions x.postorder := henc.functions
  have hconstants : (d.toProgram source scope.inputs).constants.size =
      (spellings x.postorder).length := henc.pool.size_eq
  refine ⟨?_, ?_, ⟨?_, fun f _ => f.mem_all⟩, ?_⟩
  · rw [hcode, constants_assemble, hconstants]
  · rw [hcode, callees_assemble, ← Array.length_toList, hfunctions]
  · rw [hfunctions]
    exact nodup_eraseDups _
  · intro u t v u' t' v' a a' htokens htokens' ha ha'
    obtain ⟨hmem, hloaded⟩ := hss u t v a htokens ha
    obtain ⟨-, hloaded'⟩ := hss u' t' v' a' htokens' ha'
    exact ⟨_, _, hloaded, hloaded', List.idxOf_inj hmem⟩

/-- A tree with one number in two spellings, one of them twice. -/
def Tree.respelled : Tree :=
  .binary .minus (.constant "1") (.binary .caret
    (.call₂ .min rfl (.constant "PI") (.constant "1.0")) (.constant "1"))

theorem tables_of_parse_alike :
    ∃ p, parse ⟨0, []⟩ "1-min(PI,1.0)^1" = .ok p ∧
      (p.code.toList.filterMap Instruction.constant?).eraseDups = List.range p.constants.size ∧
      (∃ i i', LoadedThrough ⟨0, []⟩ p [] ⟨.number "1", 0, .unary⟩ i ∧
        LoadedThrough ⟨0, []⟩ p ((scan "1-min(PI,1.0)^1").tokens.take 9)
          ⟨.number "1", 14, .unary⟩ i' ∧ i = i') ∧
      ∃ i i', LoadedThrough ⟨0, []⟩ p [] ⟨.number "1", 0, .unary⟩ i ∧
        LoadedThrough ⟨0, []⟩ p ((scan "1-min(PI,1.0)^1").tokens.take 6)
          ⟨.number "1.0", 9, .unary⟩ i' ∧ i ≠ i' := by
  have hlexemes : lexemes "1-min(PI,1.0)^1" = [.number "1", .operator .minus, .name "min",
      .openParen, .name "PI", .comma, .number "1.0", .closeParen, .operator .caret,
      .number "1"] := by decide +kernel
  have hx : Derives ⟨0, []⟩ .expr (lexemes "1-min(PI,1.0)^1") .respelled := by
    rw [hlexemes]
    exact Outline.tree?_eq_some_iff.mp rfl
  have hnests : NestsWithin Parser.maxNesting (lexemes "1-min(PI,1.0)^1") := by
    intro u hu
    have hcount := hu.sublist.count_le .openParen
    rw [hlexemes] at hcount
    exact hcount.trans (Nat.le_trans (by decide) (Nat.le_add_left _ _))
  have hfits : Fits Tree.respelled.postorder := ⟨by decide, by decide +kernel⟩
  have hend : (scan "1-min(PI,1.0)^1").ending = .ok 15 := by decide +kernel
  obtain ⟨p, hp⟩ := exists_parse hend hx hnests hfits
  obtain ⟨hconstants, -, -, htokens⟩ := tables_of_parse hp
  obtain ⟨i, j, hi, hj, halike⟩ := htokens [] ⟨.number "1", 0, .unary⟩
    ((scan "1-min(PI,1.0)^1").tokens.drop 1) ((scan "1-min(PI,1.0)^1").tokens.take 9)
    ⟨.number "1", 14, .unary⟩ [] _ _ (by decide +kernel) (by decide +kernel) rfl rfl
  obtain ⟨i', k, hi', hk, hother⟩ := htokens [] ⟨.number "1", 0, .unary⟩
    ((scan "1-min(PI,1.0)^1").tokens.drop 1) ((scan "1-min(PI,1.0)^1").tokens.take 6)
    ⟨.number "1.0", 9, .unary⟩ ((scan "1-min(PI,1.0)^1").tokens.drop 7) _ _ (by decide +kernel)
    (by decide +kernel) rfl rfl
  exact ⟨p, hp, hconstants, ⟨i, j, hi, hj, halike.mpr rfl⟩, i', k, hi', hk,
    fun heq => absurd (hother.mp heq) (by decide)⟩

end Formula
