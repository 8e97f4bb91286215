import Mathlib.Data.Finset.Card
import Formula.Proofs.Parsing

/-!
# The parser accepts exactly its grammar

The tokens of a formula are read one by one beside an outline (`step_agrees`).  From that follows
what a whole run does, and from the runs what `parse` does.

* `follows_of_run` and `exists_run` are the two directions of a run.  A run succeeds where the
  outline has a reading, the constants fit, and the parentheses never nest too deeply.
* `encodes_of_parse` says of an accepted formula that the grammar derives a tree for it and that the
  program holds the code of that tree.
* `parse_isOk_iff` says when a formula is accepted, with no reference to how the parser works.

Along a run the number of open parentheses is the number of enclosures.  `NestsFrom` is
`NestsWithin` for a run that begins with some of them open.
-/

namespace Formula

open Mnemonic

/-- The lexemes of a text, up to its end or to the first error. -/
def lexemes (source : String) : List Lexeme := (scan source).tokens.map (·.lexeme)

namespace Outline

variable {scope : Scope} {o o' : Outline} {l : Lexeme}

/-! ## Signs -/

/-- Where an operand is expected, a sign is read as the holes allow it. -/
def After (previous : Option Lexeme) (o : Outline) : Prop :=
  o.focus = .operand →
    SignContext.afterLexeme previous = if signAllowed o.holes then .unary else .doubled

theorem after_start : start.After none := fun _ => rfl

/-- The holes know what the last lexeme was. -/
theorem after_step (hstep : o.step scope l = some o') : o'.After (some l) := by
  cases moves_of_step hstep with
  | number | name | closeGroup | closeCall₁ | closeCall₂ =>
    intro hf
    cases hf
  | group | call | comma => exact fun _ => rfl
  | sign es isSign =>
    intro _
    simp [SignContext.afterLexeme, isSign, signAllowed, Hole.admitsSign]
  | binary settled op =>
    intro _
    cases op <;> rfl

/-! ## Parentheses -/

/-- The enclosures are the parentheses that are open. -/
theorem length_step (hstep : o.step scope l = some o') :
    o'.enclosures.length + [l].count .closeParen =
      o.enclosures.length + [l].count .openParen := by
  cases moves_of_step hstep <;> rfl

/-- A run only adds to what was written. -/
theorem emitted_run {w : List Lexeme} (hr : w.foldlM (step scope) o = some o') :
    o.emitted <+: o'.emitted := by
  induction w generalizing o with
  | nil =>
    cases hr
    exact List.prefix_rfl
  | cons l w ih =>
    rw [List.foldlM_cons] at hr
    obtain ⟨o₁, hs, hr⟩ := Option.bind_eq_some_iff.mp hr
    exact (emitted_step hs).trans (ih hr)

end Outline

/-- From `k` open parentheses on, there are never more than `n`. -/
def NestsFrom (k n : Nat) (w : List Lexeme) : Prop :=
  ∀ u, u <+: w → k + u.count .openParen ≤ u.count .closeParen + n

theorem nestsFrom_zero {n : Nat} {w : List Lexeme} : NestsFrom 0 n w ↔ NestsWithin n w := by
  simp only [NestsFrom, NestsWithin, Nat.zero_add]

theorem NestsFrom.le {k n : Nat} {w : List Lexeme} (h : NestsFrom k n w) : k ≤ n := by
  simpa using h [] List.nil_prefix

theorem nestsFrom_cons {k k' n : Nat} {l : Lexeme} {w : List Lexeme}
    (hk : k' + [l].count .closeParen = k + [l].count .openParen) :
    NestsFrom k n (l :: w) ↔ k ≤ n ∧ NestsFrom k' n w := by
  have hcons : ∀ u : List Lexeme, ∀ a, (l :: u).count a = u.count a + [l].count a := by
    intro u a
    rw [← List.singleton_append, List.count_append, Nat.add_comm]
  constructor
  · intro h
    refine ⟨h.le, fun u hu => ?_⟩
    have hle := h (l :: u) (List.cons_prefix_cons.mpr ⟨rfl, hu⟩)
    rw [hcons u .openParen, hcons u .closeParen] at hle
    omega
  · rintro ⟨hkn, h⟩ u hu
    cases u with
    | nil => simpa using hkn
    | cons m u =>
      obtain ⟨rfl, hw⟩ := List.cons_prefix_cons.mp hu
      have hle := h u hw
      rw [hcons u .openParen, hcons u .closeParen]
      omega

/-- A lexeme that is no parenthesis does not count. -/
theorem nestsFrom_flat {l : Lexeme} {k n : Nat} {w : List Lexeme} (hopen : l ≠ .openParen)
    (hclose : l ≠ .closeParen) : NestsFrom k n (l :: w) ↔ NestsFrom k n w := by
  have hcount : k + [l].count .closeParen = k + [l].count .openParen := by simp [hopen, hclose]
  rw [nestsFrom_cons hcount]
  exact ⟨And.right, fun h => ⟨h.le, h⟩⟩

theorem nestsFrom_open {k n : Nat} {w : List Lexeme} :
    NestsFrom k n (.openParen :: w) ↔ k ≤ n ∧ NestsFrom (k + 1) n w := nestsFrom_cons rfl

theorem nestsFrom_close {k n : Nat} {w : List Lexeme} :
    NestsFrom (k + 1) n (.closeParen :: w) ↔ k + 1 ≤ n ∧ NestsFrom k n w := nestsFrom_cons rfl

/-! ## A run -/

namespace Parser.State

variable {scope : Scope} {s s' : State} {o o' : Outline} {previous : Option Lexeme}
  {ts : List Token}

/-- **A run of the parser follows the outline,** and the parentheses nest as they may. -/
theorem follows_of_run (h : s.Follows o) (hafter : o.After previous)
    (hsigned : Token.Signed previous ts) (hr : s.run scope ts = .ok s') :
    ∃ o', (ts.map (·.lexeme)).foldlM (Outline.step scope) o = some o' ∧ s'.Follows o' ∧
      NestsFrom o.enclosures.length maxNesting (ts.map (·.lexeme)) := by
  induction ts generalizing s o previous with
  | nil =>
    cases hr
    refine ⟨o, rfl, h, fun u hu => ?_⟩
    rw [List.prefix_nil.mp hu]
    simpa using h.nesting
  | cons t ts ih =>
    obtain ⟨hsign, hsigned⟩ := hsigned
    have hstep := step_agrees scope h fun hf => hsign.trans (hafter hf)
    unfold run at hr
    cases hs : s.step scope t with
    | error e =>
      rw [hs] at hr
      cases hr
    | ok s₁ =>
      rw [hs] at hr hstep
      cases ho : o.step scope t.lexeme with
      | none =>
        rw [ho] at hstep
        cases hstep
      | some o₁ =>
        rw [ho] at hstep
        cases hstep with
        | follows h₁ =>
          obtain ⟨o', hrun, hfollows, hnests⟩ := ih h₁ (Outline.after_step ho) hsigned hr
          refine ⟨o', ?_, hfollows, ?_⟩
          · rw [List.map_cons, List.foldlM_cons, ho]
            exact hrun
          · exact (nestsFrom_cons (Outline.length_step ho)).mpr ⟨h.nesting, hnests⟩

/-- **Where the outline has a reading with room for it, the parser has one.** -/
theorem exists_run (h : s.Follows o) (hafter : o.After previous)
    (hsigned : Token.Signed previous ts)
    (hr : (ts.map (·.lexeme)).foldlM (Outline.step scope) o = some o') (hfits : Fits o'.emitted)
    (hnests : NestsFrom o.enclosures.length maxNesting (ts.map (·.lexeme))) :
    ∃ s', s.run scope ts = .ok s' ∧ s'.Follows o' := by
  induction ts generalizing s o previous with
  | nil =>
    cases hr
    exact ⟨s, rfl, h⟩
  | cons t ts ih =>
    obtain ⟨hsign, hsigned⟩ := hsigned
    have hstep := step_agrees scope h fun hf => hsign.trans (hafter hf)
    rw [List.map_cons, List.foldlM_cons] at hr
    obtain ⟨o₁, ho, hr⟩ := Option.bind_eq_some_iff.mp hr
    rw [List.map_cons, nestsFrom_cons (Outline.length_step ho)] at hnests
    rw [ho] at hstep
    unfold run
    generalize s.step scope t = r at hstep
    cases hstep with
    | follows h₁ => exact ih h₁ (Outline.after_step ho) hsigned hr hnests.2
    | full e hfull =>
      have hfits₁ := hfits.of_isPrefix (Outline.emitted_run hr)
      exact absurd ⟨hfits₁, hnests.2.le⟩ hfull

end Parser.State

/-! ## A formula -/

/-- What is loaded is spelled by lexemes: a numeral, a named constant, or an input in reach. -/
def Mnemonic.Stems (scope : Scope) (w : List Lexeme) : Mnemonic → Prop
  | constant s => .number s ∈ w ∨ s = "E" ∨ s = "PI"
  | input slot => scope.Reaches slot
  | negate | operator _ | call _ => True

theorem Mnemonic.Stems.mono {scope : Scope} {u w : List Lexeme} {m : Mnemonic}
    (h : m.Stems scope u) (hsub : u ⊆ w) : m.Stems scope w := by
  cases m with
  | constant s => exact h.imp_left fun hm => hsub hm
  | input slot => exact h
  | negate | operator | call => trivial

theorem Scope.Denotes.reaches {scope : Scope} {name : String} {slot : Nat}
    (h : scope.Denotes name (.input slot)) : scope.Reaches slot := by
  cases h with
  | declared here first reached => exact reached
  | numbered undeclared letter nonempty decimal fits reached => exact reached

theorem Tree.mem_postorder_signed {op : Operator} {x : Tree} {m : Mnemonic}
    (h : m ∈ (Tree.signed op x).postorder) : m ∈ x.postorder ∨ m = .negate := by
  unfold Tree.signed at h
  cases hop : op == .minus with
  | false =>
    rw [hop] at h
    exact .inl h
  | true =>
    rw [hop] at h
    simpa [Tree.postorder] using h

/-- What the tree of a phrase loads is spelled by the phrase. -/
theorem Derives.stems {scope : Scope} {c : Phrase} {w : List Lexeme} {x : Tree}
    (h : Derives scope c w x) {m : Mnemonic} (hm : m ∈ x.postorder) : m.Stems scope w := by
  induction h with
  | number spelling =>
    rw [List.mem_singleton.mp hm]
    exact .inl (by simp)
  | constant free means =>
    rw [List.mem_singleton.mp hm]
    cases means with
    | constant undeclared named => exact .inr named
  | input free means =>
    rw [List.mem_singleton.mp hm]
    exact means.reaches
  | group inner ih => exact (ih hm).mono fun l hl => by simp [hl]
  | call₁ f unary argument ih =>
    rcases List.mem_append.mp hm with hm | hm
    · exact (ih hm).mono fun l hl => by simp [hl]
    · rw [List.mem_singleton.mp hm]
      trivial
  | base inner ih | unsigned inner ih | bare inner ih | firstFactor inner ih
  | firstPower inner ih | firstProduct inner ih => exact ih hm
  | signed isSign inner ih =>
    rcases Tree.mem_postorder_signed hm with hm | rfl
    · exact (ih hm).mono fun l hl => by simp [hl]
    · trivial
  | exponent isSign left right ihl ihr =>
    rcases List.mem_append.mp hm with hm | hm
    · rcases List.mem_append.mp hm with hm | hm
      · exact (ihl hm).mono fun l hl => by simp [hl]
      · rcases Tree.mem_postorder_signed hm with hm | rfl
        · exact (ihr hm).mono fun l hl => by simp [hl]
        · trivial
    · rw [List.mem_singleton.mp hm]
      trivial
  | call₂ f pair left right ihl ihr | raise left right ihl ihr | times isTimes left right ihl ihr
  | plus isSign left right ihl ihr =>
    rcases List.mem_append.mp hm with hm | hm
    · rcases List.mem_append.mp hm with hm | hm
      · exact (ihl hm).mono fun l hl => by simp [hl]
      · exact (ihr hm).mono fun l hl => by simp [hl]
    · rw [List.mem_singleton.mp hm]
      trivial

/-- The room that the constants of a tree take. -/
theorem Tree.length_spellings (x : Tree) :
    (Mnemonic.spellings x.postorder).length = x.spellings.toFinset.card := by
  have hset : x.spellings.toFinset = (Mnemonic.spellings x.postorder).toFinset := by
    ext s
    simp only [List.mem_toFinset, Mnemonic.spellings, Tree.spellings, List.mem_eraseDups]
  rw [hset]
  exact (List.toFinset_card_of_nodup (nodup_eraseDups _)).symm

/-- **The program of an accepted formula is the code of its tree.** -/
theorem encodes_of_parse {scope : Scope} {source : String} {p : Program}
    (h : parse scope source = .ok p) :
    ∃ offset x d, (scan source).ending = .ok offset ∧ Derives scope .expr (lexemes source) x ∧
      NestsWithin Parser.maxNesting (lexemes source) ∧ Draft.Encodes d x.postorder ∧
      p = d.toProgram source scope.inputs := by
  unfold parse at h
  split at h
  · cases h
  · simp only at h
    split at h
    · cases h
    · rename_i state hrun
      split at h
      · cases h
      · rename_i offset hend
        split at h
        · cases h
        · rename_i d hfinish
          cases h
          obtain ⟨o, hr, hfollows, hnests⟩ := Parser.State.follows_of_run
            Parser.State.follows_start Outline.after_start (scan_signed source) hrun
          have hagrees := Parser.State.finish_agrees scope hfollows offset
          rw [hfinish] at hagrees
          generalize hx : o.finish scope = q at hagrees
          cases hagrees with
          | @follows _ x henc =>
            have htree : Outline.tree? scope (lexemes source) = some x := by
              unfold Outline.tree? lexemes
              rw [hr]
              exact hx
            exact ⟨offset, x, d, hend, Outline.tree?_eq_some_iff.mp htree,
              nestsFrom_zero.mp hnests, henc, rfl⟩

/-- A formula with a tree is accepted if there is room for it. -/
theorem exists_parse {scope : Scope} {source : String} {offset : Nat} {x : Tree}
    (hend : (scan source).ending = .ok offset) (hx : Derives scope .expr (lexemes source) x)
    (hnests : NestsWithin Parser.maxNesting (lexemes source)) (hfits : Fits x.postorder) :
    ∃ p, parse scope source = .ok p := by
  obtain ⟨o, hr, ho⟩ := Option.bind_eq_some_iff.mp (Outline.tree?_eq_some_iff.mpr hx)
  have hemitted : Fits o.emitted := hfits.of_isPrefix (Outline.emitted_finish ho)
  obtain ⟨s, hrun, hfollows⟩ := Parser.State.exists_run Parser.State.follows_start
    Outline.after_start (scan_signed source) hr hemitted (nestsFrom_zero.mpr hnests)
  have hwhite : ¬ source.toList.all Text.isWhite = true := by
    intro hall
    exact hx.ne_nil (by rw [lexemes, scan_of_white hall]; rfl)
  have hagrees := Parser.State.finish_agrees scope hfollows offset
  rw [ho] at hagrees
  generalize hfinish : s.finish scope offset = r at hagrees
  cases hagrees with
  | @follows d _ henc =>
    refine ⟨d.toProgram source scope.inputs, ?_⟩
    unfold parse
    rw [if_neg hwhite]
    simp only [hrun, hend, hfinish]
  | full e hfull => exact absurd hfits hfull

/-- **The parser accepts exactly its grammar.**  A formula is accepted if and only if it scans to
its end, the grammar derives its lexemes, at most 256 parentheses are open at any place, and its
constants have at most 65536 different spellings. -/
theorem parse_isOk_iff (scope : Scope) (source : String) :
    (∃ p, parse scope source = .ok p) ↔
      ∃ offset tree, (scan source).ending = .ok offset ∧
        Derives scope .expr (lexemes source) tree ∧ NestsWithin 256 (lexemes source) ∧
        tree.spellings.toFinset.card ≤ 65536 := by
  constructor
  · rintro ⟨p, hp⟩
    obtain ⟨offset, x, d, hend, hx, hnests, henc, -⟩ := encodes_of_parse hp
    exact ⟨offset, x, hend, hx, hnests, x.length_spellings ▸ henc.fits.1⟩
  · rintro ⟨offset, x, hend, hx, hnests, hroom⟩
    refine exists_parse hend hx hnests ⟨x.length_spellings ▸ hroom, fun s hs => ?_⟩
    rcases hx.stems (mem_spellings.mp hs) with hnumber | rfl | rfl
    · obtain ⟨t, ht, hlexeme⟩ := List.mem_map.mp hnumber
      exact value?_of_mem_scan ht hlexeme
    · rfl
    · rfl

end Formula
