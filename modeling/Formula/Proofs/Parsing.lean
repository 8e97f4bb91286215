import Formula.Proofs.Derivation
import Formula.Proofs.Drafts
import Formula.Proofs.Scanning

/-!
# The parser follows an outline

An outline reads lexemes and keeps trees.  The parser reads the same lexemes and writes code.  Here
the two run side by side.  `State.Follows` says that the parser is where an outline is: its draft
has the code of the trees that the outline keeps, in the order in which they were completed, and its
waiting operators are the operators of the outline's holes.

## Three ways to go on

`Agrees` compares one answer of the parser with one answer of the outline.  Either both go on and
the parser still follows, or both give up, or the outline goes on and the parser is out of room.
Only two things take room: constants, for which `Fits` is the condition, and open parentheses.
After an operand nothing does, and there `Settles` says where the parser gives up, too.

* `step_agrees`: one token.  What was written is never unwritten, so that constants can be judged at
  the end of a run; parentheses are closed again, so that they have to be judged at every place.
* `finish_agrees`: the end of the text.

A sign is the one token that the parser takes by what the scanner says of it.  Whether the scanner
calls it unary is left to a hypothesis here, in terms of the holes.
-/

namespace Formula

open Mnemonic

/-! ## What an outline has written -/

/-- What was written before the operand of a hole. -/
def Hole.emitted : Hole → List Mnemonic
  | sign _ => []
  | left _ x => x.postorder

/-- What was written for holes, the latest first. -/
def emittedHoles : List Hole → List Mnemonic
  | [] => []
  | h :: hs => emittedHoles hs ++ h.emitted

/-- What was written before the current expression of an enclosure. -/
def Enclosure.emitted : Enclosure → List Mnemonic
  | group outside | call _ none outside => emittedHoles outside
  | call _ (some x) outside => emittedHoles outside ++ x.postorder

/-- What was written for enclosures, the innermost first. -/
def emittedEnclosures : List Enclosure → List Mnemonic
  | [] => []
  | e :: es => emittedEnclosures es ++ e.emitted

/-- What was written for the operand that was read last.  A name is written with the next lexeme. -/
def Focus.emitted : Focus → List Mnemonic
  | operand | name _ => []
  | tree x => x.postorder

@[simp] theorem Focus.emitted_operand : operand.emitted = [] := rfl

@[simp] theorem Focus.emitted_name (spelling : String) : (name spelling).emitted = [] := rfl

@[simp] theorem Focus.emitted_tree (x : Tree) : (tree x).emitted = x.postorder := rfl

/-- What was written for an outline. -/
def Outline.emitted (o : Outline) : List Mnemonic :=
  emittedEnclosures o.enclosures ++ emittedHoles o.holes ++ o.focus.emitted

/-- Before an operand and after a name, only what is around it has been written. -/
theorem Outline.emitted_of_focus {o : Outline} (hf : o.focus.emitted = []) :
    o.emitted = emittedEnclosures o.enclosures ++ emittedHoles o.holes := by
  rw [emitted, hf, List.append_nil]

/-- Writing the operator of a hole completes its tree. -/
theorem Hole.postorder_fill (h : Hole) (x : Tree) :
    h.emitted ++ x.postorder ++ h.op.mnemonics = (h.fill x).postorder := by
  cases h with
  | sign negative =>
    cases negative <;> simp [emitted, op, fill, WaitingOp.mnemonics, Tree.postorder]
  | left op y => rfl

/-- The operator of a hole finds its operands. -/
theorem Hole.arity_le (h : Hole) (x : Tree) (n : Nat) :
    h.op.arity ≤ heightFrom n (h.emitted ++ x.postorder) := by
  cases h with
  | sign negative => simp [emitted, op, WaitingOp.arity]
  | left o y => simp [emitted, op, WaitingOp.arity]

/-! ## What was written stays -/

theorem emittedHoles_cons (h : Hole) (hs : List Hole) (x : Tree) :
    emittedHoles (h :: hs) ++ x.postorder ++ h.op.mnemonics =
      emittedHoles hs ++ (h.fill x).postorder := by
  rw [← h.postorder_fill, emittedHoles]
  simp only [List.append_assoc]

theorem emitted_isPrefix_closeAll (x : Tree) (hs : List Hole) :
    emittedHoles hs ++ x.postorder <+: (closeAll x hs).postorder := by
  induction hs generalizing x with
  | nil => exact List.prefix_rfl
  | cons h hs ih =>
    refine List.IsPrefix.trans ?_ (ih (h.fill x))
    rw [← emittedHoles_cons]
    exact List.prefix_append ..

theorem emitted_isPrefix_closeAbove (level : Nat) (x : Tree) (hs : List Hole) :
    emittedHoles hs ++ x.postorder <+:
      emittedHoles (closeAbove level x hs).2 ++ (closeAbove level x hs).1.postorder := by
  induction hs generalizing x with
  | nil => exact List.prefix_rfl
  | cons h hs ih =>
    unfold closeAbove
    split
    · refine List.IsPrefix.trans ?_ (ih (h.fill x))
      rw [← emittedHoles_cons]
      exact List.prefix_append ..
    · exact List.prefix_rfl

/-- An operand that is settled has been written, or is a name. -/
theorem Focus.emitted_isPrefix {scope : Scope} {focus : Focus} {x : Tree}
    (h : focus.settle? scope = some x) : focus.emitted <+: x.postorder := by
  cases focus with
  | operand => cases h
  | name => exact List.nil_prefix
  | tree y =>
    cases h
    exact List.prefix_rfl

namespace Outline

variable {scope : Scope} {o o' : Outline} {x : Tree} {l : Lexeme}

/-- One lexeme only adds to what was written. -/
theorem emitted_step (hstep : o.step scope l = some o') : o.emitted <+: o'.emitted := by
  cases moves_of_step hstep with
  | number | name | group | sign | call =>
    simp [emitted, emittedEnclosures, Enclosure.emitted, emittedHoles, Hole.emitted]
  | @binary _ x settled op hs es =>
    have hfocus := Focus.emitted_isPrefix settled
    have hclosed := emitted_isPrefix_closeAbove (WaitingOp.binary op).level x hs
    have hall := ((List.prefix_append_right_inj (emittedHoles hs)).mpr hfocus).trans hclosed
    simpa [emitted, emittedHoles, Hole.emitted] using hall
  | @closeGroup _ x settled hs | @comma _ x settled _ _ hs =>
    have hfocus := Focus.emitted_isPrefix settled
    have hclosed := emitted_isPrefix_closeAll x hs
    have hall := ((List.prefix_append_right_inj (emittedHoles hs)).mpr hfocus).trans hclosed
    simpa [emitted, emittedEnclosures, Enclosure.emitted, emittedHoles] using hall
  | @closeCall₁ _ x settled f _ hs | @closeCall₂ _ x settled f _ _ hs =>
    have hfocus := Focus.emitted_isPrefix settled
    have hclosed := emitted_isPrefix_closeAll x hs
    have hall := ((List.prefix_append_right_inj (emittedHoles hs)).mpr hfocus).trans hclosed
    have hcalled := hall.trans (List.prefix_append _ [.call f])
    simpa [emitted, emittedEnclosures, Enclosure.emitted, Tree.postorder] using hcalled

/-- The end only adds to what was written. -/
theorem emitted_finish (hf : o.finish scope = some x) : o.emitted <+: x.postorder := by
  unfold finish at hf
  split at hf
  · rename_i hes
    obtain ⟨y, hy, rfl⟩ := Option.map_eq_some_iff.mp hf
    refine List.IsPrefix.trans ?_ (emitted_isPrefix_closeAll y o.holes)
    rw [emitted, hes, emittedEnclosures, List.nil_append, List.prefix_append_right_inj]
    exact Focus.emitted_isPrefix hy
  · cases hf

end Outline

/-! ## Writing waiting operators -/

/-- Waiting operators are those of holes. -/
def Waits (ws : List Waiting) (hs : List Hole) : Prop := ws.map (·.op) = hs.map Hole.op

namespace Waits

theorem nil : Waits [] [] := rfl

theorem cons {ws : List Waiting} {hs : List Hole} (h : Waits ws hs) (hole : Hole) (offset : Nat) :
    Waits (⟨hole.op, offset⟩ :: ws) (hole :: hs) := congrArg (hole.op :: ·) h

/-- The latest operator is that of the latest hole. -/
theorem uncons {ws : List Waiting} {hole : Hole} {hs : List Hole} (h : Waits ws (hole :: hs)) :
    ∃ w ws', ws = w :: ws' ∧ w.op = hole.op ∧ Waits ws' hs := by
  cases ws with
  | nil => cases h
  | cons w ws => exact ⟨w, ws, rfl, List.head_eq_of_cons_eq h, List.tail_eq_of_cons_eq h⟩

theorem eq_nil {ws : List Waiting} (h : Waits ws []) : ws = [] := List.map_eq_nil_iff.mp h

end Waits

namespace Draft.Encodes

variable {d : Draft} {ms : List Mnemonic} {x : Tree} {hs : List Hole} {ws : List Waiting}

/-- Writing the latest operator. -/
theorem emit_hole {hole : Hole} {w : Waiting}
    (h : d.Encodes (ms ++ emittedHoles (hole :: hs) ++ x.postorder)) (hw : w.op = hole.op) :
    ∃ d', d.emit w = .ok d' ∧ d'.Encodes (ms ++ emittedHoles hs ++ (hole.fill x).postorder) := by
  have hms : ms ++ emittedHoles (hole :: hs) ++ x.postorder =
      ms ++ emittedHoles hs ++ (hole.emitted ++ x.postorder) := by simp [emittedHoles]
  rw [hms] at h
  obtain ⟨d', hd, henc⟩ := h.emit (w := w) (by
    rw [hw, heightFrom_append]
    exact hole.arity_le x _)
  rw [hw, List.append_assoc, hole.postorder_fill x] at henc
  exact ⟨d', hd, henc⟩

/-- Writing all the operators that wait. -/
theorem emitAll (h : d.Encodes (ms ++ emittedHoles hs ++ x.postorder)) (hw : Waits ws hs) :
    ∃ d', d.emitAll ws = .ok d' ∧ d'.Encodes (ms ++ (closeAll x hs).postorder) := by
  induction hs generalizing d x ws with
  | nil =>
    rw [hw.eq_nil]
    exact ⟨d, rfl, by simpa [emittedHoles, closeAll] using h⟩
  | cons hole hs ih =>
    obtain ⟨w, ws, rfl, hop, hw⟩ := hw.uncons
    obtain ⟨d₁, hd₁, h₁⟩ := h.emit_hole hop
    obtain ⟨d', hd', h'⟩ := ih h₁ hw
    exact ⟨d', by simp only [Draft.emitAll, hd₁, hd'], h'⟩

/-- Writing the operators that bind at least as tightly as a level. -/
theorem emitAbove (level : Nat) (h : d.Encodes (ms ++ emittedHoles hs ++ x.postorder))
    (hw : Waits ws hs) :
    ∃ d' ws', d.emitAbove level ws = .ok (d', ws') ∧ Waits ws' (closeAbove level x hs).2 ∧
      d'.Encodes
        (ms ++ emittedHoles (closeAbove level x hs).2 ++ (closeAbove level x hs).1.postorder) := by
  induction hs generalizing d x ws with
  | nil =>
    rw [hw.eq_nil]
    exact ⟨d, [], rfl, .nil, h⟩
  | cons hole hs ih =>
    obtain ⟨w, ws, rfl, hop, hw'⟩ := hw.uncons
    have hlevel : w.op.level = hole.level := by rw [hop]; rfl
    by_cases hle : level ≤ hole.level
    · obtain ⟨d₁, hd₁, h₁⟩ := h.emit_hole hop
      obtain ⟨d', ws', hd', hws', h'⟩ := ih h₁ hw'
      simp only [closeAbove, if_pos hle]
      exact ⟨d', ws', by simp only [Draft.emitAbove, hlevel, if_pos hle, hd₁, hd'], hws', h'⟩
    · simp only [closeAbove, if_neg hle]
      exact ⟨d, w :: ws, by simp only [Draft.emitAbove, hlevel, if_neg hle], hw, h⟩

end Draft.Encodes

/-! ## Where the parser is -/

/-- Open frames are those of enclosures. -/
inductive Frames : List Frame → List Enclosure → Prop
  | nil : Frames [] []
  | group {ws : List Waiting} {hs : List Hole} {fs : List Frame} {es : List Enclosure}
      (waits : Waits ws hs) (rest : Frames fs es) :
      Frames (⟨.group, ws⟩ :: fs) (.group hs :: es)
  | call {ws : List Waiting} {hs : List Hole} {fs : List Frame} {es : List Enclosure}
      (offset : Nat) (f : FunctionName) (waits : Waits ws hs) (rest : Frames fs es) :
      Frames (⟨.call offset f 0 (heightFrom 0 (emittedEnclosures es ++ emittedHoles hs)), ws⟩ :: fs)
        (.call f none hs :: es)
  | argument {ws : List Waiting} {hs : List Hole} {fs : List Frame} {es : List Enclosure}
      (offset : Nat) (f : FunctionName) (pair : f.arity = 2) (x : Tree) (waits : Waits ws hs)
      (rest : Frames fs es) :
      Frames (⟨.call offset f 1 (heightFrom 0 (emittedEnclosures es ++ emittedHoles hs)), ws⟩ :: fs)
        (.call f (some x) hs :: es)

theorem Frames.length_eq {fs : List Frame} {es : List Enclosure} (h : Frames fs es) :
    fs.length = es.length := by
  induction h with
  | nil => rfl
  | group _ _ ih | call _ _ _ _ ih | argument _ _ _ _ _ _ ih => exact congrArg (· + 1) ih

/-- What is expected after what was read last. -/
inductive Expects : Expecting → Focus → Prop
  | operand : Expects .operand .operand
  | operator (x : Tree) : Expects .operator (.tree x)
  | afterName (name : String) (offset : Nat) : Expects (.afterName name offset) (.name name)

/-- What was written fits, and not too many parentheses are open. -/
def Outline.Room (o : Outline) : Prop :=
  Mnemonic.Fits o.emitted ∧ o.enclosures.length ≤ Parser.maxNesting

/-- The parser is where an outline is. -/
structure Parser.State.Follows (s : Parser.State) (o : Outline) : Prop where
  draft : s.draft.Encodes o.emitted
  waiting : Waits s.waiting o.holes
  frames : Frames s.frames o.enclosures
  expecting : Expects s.expecting o.focus
  nesting : o.enclosures.length ≤ Parser.maxNesting

/-- An answer of the parser beside the answer it is compared with. -/
inductive Agrees {σ τ : Type} (follows : σ → τ → Prop) (room : τ → Prop) :
    Except Failure σ → Option τ → Prop
  | follows {s : σ} {o : τ} (h : follows s o) : Agrees follows room (.ok s) (some o)
  | refused (e : Failure) : Agrees follows room (.error e) none
  | full {o : τ} (e : Failure) (h : ¬ room o) : Agrees follows room (.error e) (some o)

/-- An answer that needs no room.  Where both give up, the parser says why at a given place. -/
inductive Settles {σ τ : Type} (follows : σ → τ → Prop) (place : Nat) :
    Except Failure σ → Option τ → Prop
  | follows {s : σ} {o : τ} (h : follows s o) : Settles follows place (.ok s) (some o)
  | refused (cause : Cause) : Settles follows place (.error (.of place cause)) none

theorem Settles.agrees {σ τ : Type} {F : σ → τ → Prop} {place : Nat} {r : Except Failure σ}
    {q : Option τ} (h : Settles F place r q) (R : τ → Prop) : Agrees F R r q := by
  cases h with
  | follows h => exact .follows h
  | refused cause => exact .refused _

/-- Going on from answers that agree.  What is out of room stays so. -/
theorem Agrees.andThen {ρ σ σ' τ τ' : Type} {F : σ → τ → Prop} {R : τ → Prop} {F' : σ' → τ' → Prop}
    {R' : τ' → Prop} {r : Except Failure σ} {r' : Except Failure σ'} {q : Option ρ} {g : ρ → τ}
    {k' : ρ → Option τ'} (h : Agrees F R r (q.map g)) (herror : ∀ e, r = .error e → r' = .error e)
    (hnext : ∀ s x, r = .ok s → F s (g x) → Agrees F' R' r' (k' x))
    (hroom : ∀ x o, k' x = some o → R' o → R (g x)) : Agrees F' R' r' (q.bind k') := by
  cases q with
  | none =>
    cases h with
    | refused e =>
      rw [herror e rfl]
      exact .refused e
  | some x =>
    cases h with
    | follows h => exact hnext _ x rfl h
    | full e hfull =>
      rw [herror e rfl, Option.bind_some]
      cases hk : k' x with
      | none => exact .refused e
      | some o => exact .full e fun hr => hfull (hroom x o hk hr)

namespace Parser.State

variable {scope : Scope} {s : State} {o : Outline}

theorem follows_start : start.Follows .start where
  draft := Draft.encodes_empty
  waiting := .nil
  frames := .nil
  expecting := .operand
  nesting := Nat.zero_le _

/-! ## One token -/

/-- Opening a parenthesis. -/
theorem enter_agrees {es : List Enclosure} {opening : Opening} {offset : Nat} {e : Enclosure}
    (hdraft : s.draft.Encodes (emittedEnclosures es ++ e.emitted)) (hframes : Frames s.frames es)
    (hframe : Frames (⟨opening, s.waiting⟩ :: s.frames) (e :: es)) :
    Agrees Follows Outline.Room (s.enter offset opening) (some ⟨.operand, [], e :: es⟩) := by
  unfold enter
  split
  · rename_i hlt
    rw [hframes.length_eq] at hlt
    refine .follows ⟨?_, .nil, hframe, .operand, hlt⟩
    simpa [Outline.emitted, emittedEnclosures, emittedHoles] using hdraft
  · rename_i hnlt
    rw [hframes.length_eq] at hnlt
    exact .full _ fun hroom => hnlt hroom.2

/-- Loading a constant where nothing was written for the last operand. -/
theorem loadConstant_agrees (h : s.Follows o) (hf : o.focus.emitted = []) (text : String)
    (offset : Nat) :
    Agrees Follows Outline.Room (s.loadConstant text offset)
      (some { o with focus := .tree (.constant text) }) := by
  have hemitted : Outline.emitted { o with focus := .tree (.constant text) } =
      o.emitted ++ [.constant text] := by
    simp [Outline.emitted, hf, Tree.postorder]
  unfold loadConstant
  by_cases hfits : Fits (o.emitted ++ [.constant text])
  · obtain ⟨d, hd, henc⟩ := h.draft.loadConstant hfits
    simp only [hd]
    exact .follows ⟨hemitted ▸ henc, h.waiting, h.frames, .operator _, h.nesting⟩
  · simp only [h.draft.loadConstant_of_not_fits hfits]
    refine .full _ fun hroom => hfits ?_
    rw [← hemitted]
    exact hroom.1

/-- Loading what a name stands for. -/
theorem loadName_agrees (scope : Scope) (h : s.Follows o) (hf : o.focus.emitted = [])
    (name : String) (offset : Nat) :
    Agrees Follows Outline.Room (s.loadName scope name offset)
      ((nameTree? scope name).map fun x => { o with focus := .tree x }) := by
  unfold loadName nameTree?
  cases FunctionName.ofSpelling? name with
  | some f => exact .refused _
  | none =>
    cases scope.resolve name with
    | error cause => exact .refused _
    | ok operand =>
      cases operand with
      | constant => exact loadConstant_agrees h hf name offset
      | input slot =>
        refine .follows ⟨?_, h.waiting, h.frames, .operator _, h.nesting⟩
        have henc := h.draft.loadInput slot
        simpa [Outline.emitted, hf, Tree.postorder] using henc

/-- A token where an operand should be. -/
theorem operand_agrees (h : s.Follows o) (hf : o.focus = .operand) {t : Token}
    (hsign : t.sign = if signAllowed o.holes then .unary else .doubled) :
    Agrees Follows Outline.Room (s.operand t) (o.operand t.lexeme) := by
  have hemitted := Outline.emitted_of_focus (o := o) (by rw [hf]; rfl)
  unfold operand
  cases hl : t.lexeme with
  | number spelling => exact loadConstant_agrees h (by rw [hf]; rfl) spelling t.offset
  | name spelling =>
    refine .follows ⟨?_, h.waiting, h.frames, .afterName spelling t.offset, h.nesting⟩
    have hdraft := h.draft
    rw [hemitted] at hdraft
    simpa [Outline.emitted] using hdraft
  | openParen => exact enter_agrees (hemitted ▸ h.draft) h.frames (.group h.waiting h.frames)
  | operator op =>
    have hstacked : ∀ offset negative, Agrees Follows Outline.Room
        (.ok { s with waiting := ⟨.sign negative, offset⟩ :: s.waiting })
        (some { o with holes := .sign negative :: o.holes }) := by
      intro offset negative
      refine .follows ⟨?_, h.waiting.cons (.sign negative) offset, h.frames, h.expecting,
        h.nesting⟩
      simpa [Outline.emitted, emittedHoles, Hole.emitted] using h.draft
    cases hallowed : signAllowed o.holes with
    | true =>
      rw [hallowed, if_pos rfl] at hsign
      cases op with
      | plus | minus =>
        simp only [sign, hsign, Outline.operand, hallowed]
        exact hstacked _ _
      | star | slash | caret => exact .refused _
    | false =>
      rw [hallowed, if_neg (by decide)] at hsign
      have hnone : o.operand (.operator op) = none := by
        simp [Outline.operand, hallowed]
      rw [hnone]
      cases op with
      | plus | minus =>
        simp only [sign, hsign]
        exact .refused _
      | star | slash | caret => exact .refused _
  | closeParen =>
    simp only
    split <;> exact .refused _
  | comma => exact .refused _

/-- A closing parenthesis after an operand. -/
theorem close_settles {x : Tree} (hdraft : s.draft.Encodes
      (emittedEnclosures o.enclosures ++ emittedHoles o.holes ++ x.postorder))
    (hwaiting : Waits s.waiting o.holes) (hframes : Frames s.frames o.enclosures)
    (hnesting : o.enclosures.length ≤ maxNesting) (offset : Nat) :
    Settles Follows offset (s.close offset)
      (Outline.close (closeAll x o.holes) o.enclosures) := by
  obtain ⟨d, hd, henc⟩ := hdraft.emitAll hwaiting
  unfold close leave
  simp only [hd]
  generalize s.frames = fs at hframes
  generalize o.enclosures = es at hframes henc hnesting
  have hpop : ∀ {e : Enclosure} {es : List Enclosure}, (e :: es).length ≤ maxNesting →
      es.length ≤ maxNesting := fun h => Nat.le_of_succ_le h
  cases hframes with
  | nil => exact .refused _
  | group waits rest =>
    refine .follows ⟨?_, waits, rest, .operator _, hpop hnesting⟩
    simpa [Outline.emitted, emittedEnclosures, Enclosure.emitted] using henc
  | @call ws hs fs es place f waits rest =>
    by_cases harity : f.arity = 1
    · have hheight : heightFrom 0 (emittedEnclosures (.call f none hs :: es) ++
            (closeAll x o.holes).postorder) =
          heightFrom 0 (emittedEnclosures es ++ emittedHoles hs) + f.arity := by
        simp [emittedEnclosures, Enclosure.emitted, harity]
      obtain ⟨d', hd', henc'⟩ := henc.emitCall place hheight
      simp only [Frame.context, resume, harity, hd', Outline.close]
      refine .follows ⟨?_, waits, rest, .operator _, hpop hnesting⟩
      simpa [Outline.emitted, emittedEnclosures, Enclosure.emitted, Tree.postorder] using henc'
    · have hmore : (0 + 1 == f.arity) = false := beq_false_of_ne fun h => harity h.symm
      simp only [Outline.close, dif_neg harity, Frame.context, hmore]
      exact .refused _
  | @argument ws hs fs es place f pair y waits rest =>
    have hheight : heightFrom 0 (emittedEnclosures (.call f (some y) hs :: es) ++
          (closeAll x o.holes).postorder) =
        heightFrom 0 (emittedEnclosures es ++ emittedHoles hs) + f.arity := by
      simp [emittedEnclosures, Enclosure.emitted, pair]
    obtain ⟨d', hd', henc'⟩ := henc.emitCall place hheight
    simp only [Frame.context, resume, pair, hd', Outline.close]
    refine .follows ⟨?_, waits, rest, .operator _, hpop hnesting⟩
    simpa [Outline.emitted, emittedEnclosures, Enclosure.emitted, Tree.postorder] using henc'

/-- A comma after an operand. -/
theorem comma_settles {x : Tree} (hdraft : s.draft.Encodes
      (emittedEnclosures o.enclosures ++ emittedHoles o.holes ++ x.postorder))
    (hwaiting : Waits s.waiting o.holes) (hframes : Frames s.frames o.enclosures)
    (hnesting : o.enclosures.length ≤ maxNesting) (offset : Nat) :
    Settles Follows offset (s.comma offset)
      (Outline.comma (closeAll x o.holes) o.enclosures) := by
  obtain ⟨d, hd, henc⟩ := hdraft.emitAll hwaiting
  unfold comma leave
  simp only [hd]
  generalize s.frames = fs at hframes
  generalize o.enclosures = es at hframes henc hnesting
  cases hframes with
  | nil => exact .refused _
  | group waits rest => exact .refused _
  | @call ws hs fs es place f waits rest =>
    rcases f.arity_eq_one_or_two with harity | harity
    · simp only [Outline.comma, Frame.context, harity]
      exact .refused _
    · simp only [Outline.comma, Frame.context, resume, harity]
      refine .follows ⟨?_, .nil, .argument place f harity _ waits rest, .operand, hnesting⟩
      simpa [Outline.emitted, emittedEnclosures, Enclosure.emitted, emittedHoles] using henc
  | @argument ws hs fs es place f pair y waits rest =>
    simp only [Outline.comma, Frame.context, pair]
    exact .refused _

/-- A token after an operand. -/
theorem operator_settles {x : Tree} (h : s.Follows o) (hf : o.focus = .tree x) (t : Token) :
    Settles Follows t.offset (s.operator t) (o.operator x t.lexeme) := by
  have hdraft : s.draft.Encodes
      (emittedEnclosures o.enclosures ++ emittedHoles o.holes ++ x.postorder) := by
    have hd := h.draft
    rwa [Outline.emitted, hf] at hd
  unfold operator
  cases hl : t.lexeme with
  | operator op =>
    obtain ⟨d, ws, hd, hwaits, henc⟩ := hdraft.emitAbove (WaitingOp.binary op).level h.waiting
    simp only [binary, hd]
    refine .follows ⟨?_, hwaits.cons (.left op _) t.offset, h.frames, .operand, h.nesting⟩
    simpa [Outline.emitted, emittedHoles, Hole.emitted] using henc
  | closeParen => exact close_settles hdraft h.waiting h.frames h.nesting t.offset
  | comma => exact comma_settles hdraft h.waiting h.frames h.nesting t.offset
  | number | name | openParen => exact .refused _

/-- **One token.**  The parser takes it as the outline does. -/
theorem step_agrees (scope : Scope) (h : s.Follows o) {t : Token}
    (hsign : o.focus = .operand → t.sign = if signAllowed o.holes then .unary else .doubled) :
    Agrees Follows Outline.Room (s.step scope t) (o.step scope t.lexeme) := by
  have hexpects := h.expecting
  unfold step Outline.step
  generalize hs : s.expecting = expecting at hexpects
  cases hf : o.focus with
  | operand =>
    rw [hf] at hexpects
    cases hexpects
    exact operand_agrees h hf (hsign hf)
  | tree x =>
    rw [hf] at hexpects
    cases hexpects
    exact (operator_settles h hf t).agrees _
  | name spelling =>
    rw [hf] at hexpects
    cases hexpects with
    | afterName _ offset =>
      have hnothing : o.focus.emitted = [] := by rw [hf]; rfl
      by_cases hl : t.lexeme = .openParen
      · simp only [hl, if_pos, openCall]
        cases hname : FunctionName.ofSpelling? spelling with
        | none => exact .refused _
        | some f =>
          have hdraft := Outline.emitted_of_focus hnothing ▸ h.draft
          refine enter_agrees hdraft h.frames ?_
          rw [hdraft.depth]
          exact .call offset f h.waiting h.frames
      · simp only [if_neg hl]
        have hload := loadName_agrees scope h hnothing spelling offset
        refine hload.andThen (fun e he => by rw [he])
          (fun s' x hs hfollows => by rw [hs]; exact (operator_settles hfollows rfl t).agrees _)
          fun x o' hop hroom => ⟨?_, h.nesting⟩
        -- the name is written before the operator, and what is written stays
        have hstep : Outline.step scope { o with focus := .tree x } t.lexeme = some o' := hop
        exact hroom.1.of_isPrefix (Outline.emitted_step hstep)

/-! ## The end of the text -/

/-- A draft has the code of a tree. -/
abbrev Writes (d : Draft) (x : Tree) : Prop := d.Encodes x.postorder

/-- The constants of a tree find room. -/
abbrev TreeFits (x : Tree) : Prop := Fits x.postorder

theorem finishOperand_settles (scope : Scope) {x : Tree} (h : s.Follows o)
    (hf : o.focus = .tree x) (offset : Nat) :
    Settles Writes offset (s.finishOperand offset) (o.finish scope) := by
  have hdraft : s.draft.Encodes
      (emittedEnclosures o.enclosures ++ emittedHoles o.holes ++ x.postorder) := by
    have hd := h.draft
    rwa [Outline.emitted, hf] at hd
  have hframes := h.frames
  obtain ⟨d, hd, henc⟩ := hdraft.emitAll h.waiting
  unfold finishOperand Outline.finish context
  simp only [hd]
  generalize s.frames = fs at hframes
  generalize o.enclosures = es at hframes henc
  cases hframes with
  | nil =>
    rw [emittedEnclosures, List.nil_append] at henc
    have hdepth : d.depth = 1 := by rw [henc.depth, Tree.heightFrom_postorder]
    simp only [hf, Focus.settle?, Option.map_some, Context.ending, hdepth]
    exact .follows henc
  | group | call | argument =>
    simp only [if_neg (Frame.ending_ne_none _)]
    exact .refused _

/-- The end of the text.  The parser ends as the outline does. -/
theorem finish_agrees (scope : Scope) (h : s.Follows o) (offset : Nat) :
    Agrees Writes TreeFits (s.finish scope offset) (o.finish scope) := by
  have hexpects := h.expecting
  unfold finish
  generalize hs : s.expecting = expecting at hexpects
  cases hf : o.focus with
  | operand =>
    rw [hf] at hexpects
    cases hexpects
    have hnone : o.finish scope = none := by
      unfold Outline.finish
      split
      · rw [hf]; rfl
      · rfl
    rw [hnone]
    exact .refused _
  | tree x =>
    rw [hf] at hexpects
    cases hexpects
    exact (finishOperand_settles scope h hf offset).agrees _
  | name spelling =>
    rw [hf] at hexpects
    cases hexpects with
    | afterName _ place =>
      have hfinish : o.finish scope = (nameTree? scope spelling).bind fun x =>
          Outline.finish scope { o with focus := .tree x } := by
        unfold Outline.finish
        rw [hf]
        cases o.enclosures with
        | nil => cases hx : nameTree? scope spelling <;> simp [Focus.settle?, hx]
        | cons => cases nameTree? scope spelling <;> rfl
      rw [hfinish]
      have hload := loadName_agrees scope h (by rw [hf]; rfl) spelling place
      simp only
      refine hload.andThen (fun e he => by rw [he])
        (fun s' x hs hfollows => by
          rw [hs]
          exact (finishOperand_settles scope hfollows rfl offset).agrees _)
        fun x y hy hfits => ⟨?_, h.nesting⟩
      exact Fits.of_isPrefix hfits (Outline.emitted_finish hy)

end Parser.State

end Formula
