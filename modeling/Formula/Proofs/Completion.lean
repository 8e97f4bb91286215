import Formula.Proofs.TreePrograms

/-!
# What has been read can be completed

An outline that has not given up yet can be brought to an end.  If an operand is expected, a numeral
is one.  After an operand the open parentheses are closed from the inside out, and a call of two
arguments that lacks the second one gets the numeral again.  After the name of a function its
argument list is opened first, which takes room for one more parenthesis.

**One numeral is enough,** and it has to be chosen.  The pool may be full, and then only a numeral
that has been used before can be loaded.  There is one in a full pool, because only two of its
entries can be named constants.

`Outline.exists_completion` is the statement for lexemes and `exists_parse_of_open` the one for
texts.  The lexemes that complete a text are written with blanks between them, so that none of them
runs into another one or into the text.
-/

namespace Formula

open Mnemonic

/-! ## Nesting of two parts -/

/-- The second part begins with the parentheses that the first part leaves open. -/
theorem NestsFrom.append {k k' n : Nat} {u w : List Lexeme} (hu : NestsFrom k n u)
    (hk : k' + u.count .closeParen = k + u.count .openParen) (hw : NestsFrom k' n w) :
    NestsFrom k n (u ++ w) := by
  rintro v ⟨rest, hv⟩
  rcases List.append_eq_append_iff.mp hv with ⟨more, rfl, -⟩ | ⟨w', rfl, rfl⟩
  · exact hu v (List.prefix_append ..)
  · have hle := hw w' (List.prefix_append ..)
    rw [List.count_append, List.count_append]
    omega

/-- Along a run, the enclosures are the parentheses that are open. -/
theorem Outline.length_run {scope : Scope} {o o' : Outline} {w : List Lexeme}
    (h : w.foldlM (step scope) o = some o') :
    o'.enclosures.length + w.count .closeParen = o.enclosures.length + w.count .openParen := by
  induction w generalizing o with
  | nil => cases h; rfl
  | cons l w ih =>
    rw [List.foldlM_cons] at h
    obtain ⟨o₁, hs, h⟩ := Option.bind_eq_some_iff.mp h
    have hfirst := length_step hs
    have hrest := ih h
    have hcons : ∀ a, (l :: w).count a = w.count a + [l].count a := fun a => by
      rw [← List.singleton_append, List.count_append, Nat.add_comm]
    rw [hcons, hcons]
    omega

/-! ## Constants of what is written -/

/-- Closing holes loads nothing. -/
theorem constant_mem_closeAll {c : String} {x : Tree} {hs : List Hole} :
    .constant c ∈ (closeAll x hs).postorder ↔ .constant c ∈ emittedHoles hs ++ x.postorder := by
  induction hs generalizing x with
  | nil => exact Iff.rfl
  | cons h hs ih =>
    have hnone : .constant c ∉ h.op.mnemonics := by
      rcases h with ⟨_ | _⟩ | ⟨op, y⟩ <;> simp [Hole.op, WaitingOp.mnemonics]
    show .constant c ∈ (closeAll (h.fill x) hs).postorder ↔ _
    rw [ih, ← emittedHoles_cons, List.mem_append]
    exact or_iff_left hnone

/-! ## Completing an outline -/

/-- Only a function of two arguments has an argument before a comma. -/
def Enclosure.Sound : Enclosure → Prop
  | group _ | call _ none _ => True
  | call f (some _) _ => f.arity = 2

theorem Frames.sound {fs : List Frame} {es : List Enclosure} (h : Frames fs es) :
    ∀ e ∈ es, e.Sound := by
  induction h with
  | nil => simp
  | group _ _ ih | call _ _ _ _ ih => exact List.forall_mem_cons.mpr ⟨trivial, ih⟩
  | argument _ _ pair _ _ _ ih => exact List.forall_mem_cons.mpr ⟨pair, ih⟩

/-- What an enclosure lacks before it can be closed: the second argument of a call of two. -/
def Enclosure.missing (s : String) : Enclosure → List Lexeme
  | call f none _ => if f.arity = 2 then [.comma, .number s] else []
  | group _ | call _ (some _) _ => []

/-- The lexemes that close parentheses after an operand, the innermost first. -/
def closing (s : String) : List Enclosure → List Lexeme
  | [] => []
  | e :: es => e.missing s ++ .closeParen :: closing s es

theorem Enclosure.missing_eq_or (s : String) (e : Enclosure) :
    e.missing s = [] ∨ e.missing s = [.comma, .number s] := by
  unfold missing
  split
  · split
    · exact .inr rfl
    · exact .inl rfl
  · exact .inl rfl
  · exact .inl rfl

/-- Closing never opens. -/
theorem nestsFrom_closing (s : String) {es : List Enclosure} {n : Nat} (h : es.length ≤ n) :
    NestsFrom es.length n (closing s es) := by
  induction es with
  | nil =>
    intro u hu
    simp [List.prefix_nil.mp hu]
  | cons e es ih =>
    have hclose : NestsFrom (es.length + 1) n (.closeParen :: closing s es) :=
      nestsFrom_close.mpr ⟨h, ih (Nat.le_of_succ_le h)⟩
    rcases e.missing_eq_or s with hmissing | hmissing
    · rw [closing, hmissing]
      exact hclose
    · rw [closing, hmissing]
      rw [List.cons_append, List.singleton_append, nestsFrom_flat (by simp) (by simp),
        nestsFrom_flat (by simp) (by simp)]
      exact hclose

/-- All the lexemes that close parentheses are complete lexemes if the numeral is. -/
theorem stands_closing {s : String} (hs : (Lexeme.number s).Stands none) (es : List Enclosure) :
    ∀ l ∈ closing s es, l.Stands none := by
  induction es with
  | nil => simp [closing]
  | cons e es ih =>
    have hclose : ∀ l ∈ .closeParen :: closing s es, l.Stands none :=
      List.forall_mem_cons.mpr ⟨trivial, ih⟩
    rcases e.missing_eq_or s with hmissing | hmissing
    · rw [closing, hmissing]
      exact hclose
    · rw [closing, hmissing]
      exact List.forall_mem_cons.mpr ⟨trivial, List.forall_mem_cons.mpr ⟨hs, hclose⟩⟩

namespace Outline

variable {scope : Scope} {o o' : Outline} {ms : List Mnemonic} {s : String} {w : List Lexeme}

/-- Lexemes bring an outline to its end.  The tree loads what had been written, `ms`, and no other
constant than the numeral. -/
def Completes (scope : Scope) (o : Outline) (ms : List Mnemonic) (s : String) (w : List Lexeme) :
    Prop :=
  ∃ x, (w.foldlM (step scope) o).bind (finish scope) = some x ∧ ms ⊆ x.postorder ∧
    ∀ c, .constant c ∈ x.postorder → .constant c ∈ ms ∨ c = s

/-- One more lexeme in front. -/
theorem Completes.cons {l : Lexeme} (hstep : o.step scope l = some o')
    (hloads : ∀ c, .constant c ∈ o'.emitted → .constant c ∈ o.emitted ∨ c = s)
    (h : o'.Completes scope o'.emitted s w) : o.Completes scope o.emitted s (l :: w) := by
  obtain ⟨x, hx, hsub, hconstants⟩ := h
  refine ⟨x, ?_, List.Subset.trans (emitted_step hstep).subset hsub, fun c hc => ?_⟩
  · rw [List.foldlM_cons, hstep]
    exact hx
  · rcases hconstants c hc with hm | rfl
    · exact hloads c hm
    · exact .inr rfl

/-- Where an operand is expected, the numeral is one. -/
theorem completes_number {hs : List Hole} {es : List Enclosure}
    (h : Completes scope ⟨.tree (.constant s), hs, es⟩ (emitted ⟨.tree (.constant s), hs, es⟩) s
      w) :
    Completes scope ⟨.operand, hs, es⟩ (emitted ⟨.operand, hs, es⟩) s (.number s :: w) := by
  refine Completes.cons rfl (fun c hc => ?_) h
  simpa [emitted, Tree.postorder, or_assoc] using hc

/-- A parenthesis that closes an enclosure. -/
theorem completes_close {x : Tree} {hs outside : List Hole} {e : Enclosure} {es : List Enclosure}
    {z : Tree} (hclose : close (closeAll x hs) (e :: es) = some ⟨.tree z, outside, es⟩)
    (hloads : ∀ c, .constant c ∈ emittedHoles outside ++ z.postorder →
      .constant c ∈ e.emitted ++ (closeAll x hs).postorder)
    (h : Completes scope ⟨.tree z, outside, es⟩ (emitted ⟨.tree z, outside, es⟩) s w) :
    Completes scope ⟨.tree x, hs, e :: es⟩ (emitted ⟨.tree x, hs, e :: es⟩) s
      (.closeParen :: w) := by
  refine Completes.cons hclose (fun c hc => .inl ?_) h
  have hold := hloads c
  simp only [emitted, emittedEnclosures, Focus.emitted, List.mem_append, constant_mem_closeAll]
    at hc hold ⊢
  tauto

/-- **After an operand, all parentheses can be closed.** -/
theorem completes_closing (s : String) {es : List Enclosure} (hsound : ∀ e ∈ es, e.Sound)
    (x : Tree) (hs : List Hole) :
    Completes scope ⟨.tree x, hs, es⟩ (emitted ⟨.tree x, hs, es⟩) s (closing s es) := by
  induction es generalizing x hs with
  | nil =>
    refine ⟨closeAll x hs, rfl, ?_, fun c hc => .inl ?_⟩
    · exact (emitted_isPrefix_closeAll x hs).subset
    · exact constant_mem_closeAll.mp hc
  | cons e es ih =>
    obtain ⟨he, hes⟩ := List.forall_mem_cons.mp hsound
    cases e with
    | group outside =>
      exact completes_close rfl (fun c hc => hc) (ih hes _ outside)
    | call f complete outside =>
      cases complete with
      | some y =>
        have hpair : f.arity = 2 := he
        refine completes_close (dif_pos hpair) (fun c hc => ?_) (ih hes _ outside)
        simpa [Tree.postorder, Enclosure.emitted] using hc
      | none =>
        rcases f.arity_eq_one_or_two with harity | harity
        · have hmissing : (Enclosure.call f none outside).missing s = [] := by
            simp [Enclosure.missing, harity]
          rw [closing, hmissing]
          refine completes_close (dif_pos harity) (fun c hc => ?_) (ih hes _ outside)
          simpa [Tree.postorder, Enclosure.emitted] using hc
        · have hmissing : (Enclosure.call f none outside).missing s = [.comma, .number s] := by
            simp [Enclosure.missing, harity]
          rw [closing, hmissing]
          have hcomma : step scope ⟨.tree x, hs, .call f none outside :: es⟩ .comma =
              some ⟨.operand, [], .call f (some (closeAll x hs)) outside :: es⟩ := if_pos harity
          refine Completes.cons hcomma (fun c hc => .inl ?_) (completes_number ?_)
          · simpa [emitted, emittedEnclosures, Enclosure.emitted, emittedHoles,
              constant_mem_closeAll, or_assoc] using hc
          · refine completes_close (dif_pos harity) (fun c hc => ?_) (ih hes _ outside)
            simpa [Tree.postorder, Enclosure.emitted] using hc

/-- An outline that can be completed, and what has been written when it is. -/
inductive Open (scope : Scope) : Outline → List Mnemonic → Prop
  | operand (hs : List Hole) (es : List Enclosure) :
      Open scope ⟨.operand, hs, es⟩ (emitted ⟨.operand, hs, es⟩)
  | settled {focus : Focus} {x : Tree} (h : focus.settle? scope = some x) (hs : List Hole)
      (es : List Enclosure) : Open scope ⟨focus, hs, es⟩ (emitted ⟨.tree x, hs, es⟩)
  | function (f : FunctionName) (hs : List Hole) (es : List Enclosure)
      (room : es.length < Parser.maxNesting) :
      Open scope ⟨.name f.spelling, hs, es⟩ (emitted ⟨.name f.spelling, hs, es⟩)

/-- A name that stands for an operand is as good as the operand, unless a parenthesis follows. -/
theorem completes_of_settle {focus : Focus} {x : Tree} (h : focus.settle? scope = some x)
    {hs : List Hole} {es : List Enclosure} (hw : w.head? ≠ some .openParen)
    (hcompletes : Completes scope ⟨.tree x, hs, es⟩ ms s w) :
    Completes scope ⟨focus, hs, es⟩ ms s w := by
  obtain ⟨y, hy, hrest⟩ := hcompletes
  refine ⟨y, ?_, hrest⟩
  rw [← hy]
  cases w with
  | nil =>
    show finish scope ⟨focus, hs, es⟩ = finish scope ⟨.tree x, hs, es⟩
    unfold finish
    rw [h]
    rfl
  | cons l w =>
    have hl : l ≠ .openParen := fun hl => hw (by rw [hl]; rfl)
    rw [List.foldlM_cons, List.foldlM_cons, step_of_settle h hl]
    rfl

/-- **An outline that has not given up can be completed,** with a numeral of any spelling. -/
theorem Open.exists_completion (h : o.Open scope ms) (hsound : ∀ e ∈ o.enclosures, e.Sound)
    (hnests : o.enclosures.length ≤ Parser.maxNesting)
    (hs : (Lexeme.number s).Stands none) :
    ∃ w, o.Completes scope ms s w ∧ NestsFrom o.enclosures.length Parser.maxNesting w ∧
      ∀ l ∈ w, l.Stands none := by
  cases h with
  | operand holes es =>
    refine ⟨_, completes_number (completes_closing s hsound _ holes), ?_, ?_⟩
    · exact (nestsFrom_flat (by simp) (by simp)).mpr (nestsFrom_closing s hnests)
    · exact List.forall_mem_cons.mpr ⟨hs, stands_closing hs es⟩
  | @settled focus x settled holes es =>
    refine ⟨closing s es, ?_, nestsFrom_closing s hnests, stands_closing hs es⟩
    refine completes_of_settle settled ?_ (completes_closing s hsound x holes)
    cases es with
    | nil => simp [closing]
    | cons e es =>
      rcases e.missing_eq_or s with hmissing | hmissing <;> simp [closing, hmissing]
  | function f holes es room =>
    have hopen : step scope ⟨.name f.spelling, holes, es⟩ .openParen =
        some ⟨.operand, [], .call f none holes :: es⟩ := by simp [step]
    have hsound' : ∀ e ∈ .call f none holes :: es, e.Sound :=
      List.forall_mem_cons.mpr ⟨trivial, hsound⟩
    refine ⟨_, Completes.cons hopen (fun c hc => .inl ?_)
      (completes_number (completes_closing s hsound' _ [])), ?_, ?_⟩
    · simpa [emitted, emittedEnclosures, Enclosure.emitted, emittedHoles] using hc
    · have hlt : (Enclosure.call f none holes :: es).length ≤ Parser.maxNesting := room
      refine nestsFrom_open.mpr ⟨hnests, (nestsFrom_flat (by simp) (by simp)).mpr ?_⟩
      exact nestsFrom_closing s hlt
    · exact List.forall_mem_cons.mpr ⟨trivial, List.forall_mem_cons.mpr ⟨hs, stands_closing hs _⟩⟩

end Outline

/-! ## Completing a text -/

/-- Lexemes with a blank in front of each. -/
def spaced : List Lexeme → List Char
  | [] => []
  | l :: ls => ' ' :: (l.text.toList ++ spaced ls)

/-- Every lexeme ends in front of lexemes with blanks. -/
theorem stands_spaced {l : Lexeme} (h : l.Stands none) (ls : List Lexeme) :
    l.Stands (spaced ls).head? := by
  cases ls with
  | nil => exact h
  | cons m ls => exact h.separated (by decide)

theorem spells_spaced {ls : List Lexeme} (h : ∀ l ∈ ls, l.Stands none) :
    Spells (spaced ls) ls [] := by
  induction ls with
  | nil => exact .nil []
  | cons l ls ih =>
    obtain ⟨hl, hls⟩ := List.forall_mem_cons.mp h
    refine .blank (by decide) (.lexeme ?_ (ih hls))
    rw [List.append_nil]
    exact stands_spaced hl ls

/-- A text with lexemes after it. -/
theorem Spells.append_spaced {cs rest : List Char} {ls ms : List Lexeme} (h : Spells cs ls rest)
    (hms : ∀ l ∈ ms, l.Stands none) : Spells (cs ++ spaced ms) (ls ++ ms) [] := by
  refine Spells.trans (h.replace fun l hl => ?_) (spells_spaced hms)
  rw [List.append_nil]
  exact stands_spaced hl.none ms

/-- **A numeral that can be loaded.**  There is room for a new one, or one was used before. -/
theorem exists_numeral {ms : List Mnemonic} (hfits : Fits ms)
    (hstems : ∀ c, .constant c ∈ ms → (Lexeme.number c).Stands none ∨ c = "E" ∨ c = "PI") :
    ∃ s, (Lexeme.number s).Stands none ∧
      (Mnemonic.spellings (ms ++ [.constant s])).length ≤ Pool.capacity := by
  by_cases hroom : (Mnemonic.spellings ms).length < Pool.capacity
  · refine ⟨"1", Numeral.ends_of_lexemes (by decide +kernel), ?_⟩
    by_cases hm : "1" ∈ Mnemonic.spellings ms
    · rw [spellings_constant_of_mem hm]
      exact hfits.1
    · rw [spellings_constant_of_notMem hm, List.length_append]
      exact hroom
  · -- the pool is full, and at most two of its entries are not numerals
    obtain ⟨c, hc, hnumeral⟩ : ∃ c ∈ Mnemonic.spellings ms, ¬ (c = "E" ∨ c = "PI") := by
      by_contra hnone
      have hsub : Mnemonic.spellings ms ⊆ ["E", "PI"] := by
        intro c hc
        by_contra hother
        exact hnone ⟨c, hc, fun hc => hother (by simpa using hc)⟩
      have hle := (nodup_eraseDups (ms.filterMap spelling?)).length_le_of_subset hsub
      exact hroom (Nat.lt_of_le_of_lt hle (by decide))
    refine ⟨c, (hstems c (mem_spellings.mp hc)).resolve_right hnumeral, ?_⟩
    rw [spellings_constant_of_mem hc]
    exact hfits.1

/-- **A text that has been read without giving up is the beginning of a formula.** -/
theorem exists_parse_of_open {scope : Scope} {cs rest : List Char} {ls : List Lexeme} {o : Outline}
    {ms : List Mnemonic} (hspells : Spells cs ls rest)
    (hrun : ls.foldlM (Outline.step scope) .start = some o) (hnests : NestsWithin 256 ls)
    (hopen : o.Open scope ms) (hsound : ∀ e ∈ o.enclosures, e.Sound) (hfits : Fits ms) :
    ∃ t p, parse scope (String.ofList cs ++ t) = .ok p := by
  have hnests : NestsFrom 0 Parser.maxNesting ls := nestsFrom_zero.mpr hnests
  have hlength : o.enclosures.length + ls.count .closeParen = 0 + ls.count .openParen :=
    Outline.length_run hrun
  have hdepth : o.enclosures.length ≤ Parser.maxNesting := by
    have hall := hnests ls List.prefix_rfl
    omega
  have hderives : ∀ {w : List Lexeme} {x : Tree},
      (w.foldlM (Outline.step scope) o).bind (Outline.finish scope) = some x →
        Derives scope .expr (ls ++ w) x := by
    intro w x hx
    rw [← Outline.tree?_eq_some_iff, Outline.tree?, List.foldlM_append, hrun]
    exact hx
  -- with any numeral, the constants so far turn out to be those of the text
  have hstems : ∀ c, .constant c ∈ ms → (Lexeme.number c).Stands none ∨ c = "E" ∨ c = "PI" := by
    intro c hc
    have hone : (Lexeme.number "1").Stands none := Numeral.ends_of_lexemes (by decide +kernel)
    obtain ⟨w, ⟨x, hx, hsub, -⟩, -, hw⟩ := hopen.exists_completion hsound hdepth hone
    refine ((hderives hx).stems (hsub hc)).imp_left fun hm => ?_
    rcases List.mem_append.mp hm with hm | hm
    · exact hspells.stands _ hm
    · exact hw _ hm
  obtain ⟨s, hs, hroom⟩ := exists_numeral hfits hstems
  obtain ⟨w, ⟨x, hx, -, hconstants⟩, hnests', hw⟩ := hopen.exists_completion hsound hdepth hs
  refine ⟨String.ofList (spaced w), _, parse_eq_ok_iff.mpr
    ⟨ls ++ w, x, ?_, hderives hx, ?_, ?_, rfl⟩⟩
  · rw [String.toList_append, String.toList_ofList, String.toList_ofList]
    exact hspells.append_spaced hw
  · exact nestsFrom_zero.mp (hnests.append hlength hnests')
  · rw [← x.length_spellings]
    refine Nat.le_trans ((nodup_eraseDups _).length_le_of_subset fun c hc => ?_) hroom
    rw [mem_spellings, List.mem_append, List.mem_singleton, Mnemonic.constant.injEq]
    exact hconstants c (mem_spellings.mp hc)

end Formula
