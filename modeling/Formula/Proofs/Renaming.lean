import Formula.Proofs.TreePrograms

/-!
# Names of inputs are numbers of inputs

A formula over named inputs can be read in another way: replace each name by the number of its
input, and forget the names.  `renumber` is that replacement on the text, token by token, with all
blanks and everything from the first lexical error on left as they are.

Two decisions are made in two places.  Which names may be given to inputs is decided before the text
is looked at (`Scope.isFree`), and what a name stands for is decided while it is read
(`Scope.resolve`), where the given names come before constants and numbered inputs and after
functions.  The statements here say that the order never matters, because a free name means nothing
else.

* `lexemes_renumber`: the tokens of the new text are the tokens of the old one, renumbered.  The
  character after a name does not belong to a name, so the new name ends where the old one did.
* `Outline.step_renumber` and `Outline.tree?_renumber`: one lexeme, and from it a whole formula, has
  the same effect in both readings.
* `Derives.map_renumber_eq`: what is accepted without names contains none of them.
-/

namespace Formula

/-! ## The replacement -/

/-- The name of an input by its number, if it is one of the names, else the name itself. -/
def Scope.numberedName (names : List String) (s : String) : String :=
  match names.idxOf? s with
  | some slot => inputName slot
  | none => s

/-- A lexeme with the number of an input in the place of its name. -/
def Lexeme.renumber (names : List String) : Lexeme → Lexeme
  | name s => name (Scope.numberedName names s)
  | l => l

/-- The text from a cursor on, with numbers in the place of names. -/
def Cursor.renumber (names : List String) (k : Cursor) : List Char :=
  match _ : k.next with
  | .error _ => k.rest
  | .ok none => k.rest
  | .ok (some (t, k')) =>
    k.rest.takeWhile Text.isBlank ++ ((t.lexeme.renumber names).text.toList ++ k'.renumber names)
termination_by k.rest.length
decreasing_by exact next_rest_lt (by assumption)

/-- The text in which each token that is one of the names is replaced by the numbered name of the
same input. -/
def renumber (names : List String) (source : String) : String :=
  String.ofList ((Cursor.start source).renumber names)

/-! ## Free names -/

namespace Scope

theorem isFree_of_badName? {names : List String} {seen : Std.HashSet String}
    (h : badName? seen names = none) : ∀ name ∈ names, isFree name = true := by
  induction names generalizing seen with
  | nil => simp
  | cons name names ih =>
    unfold badName? at h
    split at h
    · rename_i hname
      exact List.forall_mem_cons.mpr ⟨(Bool.and_eq_true_iff.mp hname).1, ih h⟩
    · cases h

variable {names : List String}

/-- What has a meaning is not among free names. -/
theorem notMem_of_isReserved (hfree : ∀ name ∈ names, isFree name = true) {s : String}
    (h : isReserved s = true) : s ∉ names := by
  intro hm
  have hs := hfree s hm
  rw [isFree, h, Bool.not_true, Bool.and_false] at hs
  cases hs

theorem numberedName_of_mem {s : String} (h : s ∈ names) :
    numberedName names s = inputName (names.idxOf s) := by
  rw [numberedName, idxOf?_of_mem h]

theorem numberedName_of_notMem {s : String} (h : s ∉ names) : numberedName names s = s := by
  rw [numberedName, List.idxOf?_eq_none_iff.mpr h]

theorem ofSpelling?_numberedName (hfree : ∀ name ∈ names, isFree name = true) (s : String) :
    FunctionName.ofSpelling? (numberedName names s) = FunctionName.ofSpelling? s := by
  by_cases hm : s ∈ names
  · have hnone : FunctionName.ofSpelling? s = none := by
      rw [← Option.not_isSome_iff_eq_none]
      intro hsome
      exact notMem_of_isReserved hfree (by simp [isReserved, hsome]) hm
    rw [numberedName_of_mem hm, hnone, ofSpelling?_inputName]
  · rw [numberedName_of_notMem hm]

end Scope

/-- **A name stands for the same operand in both readings.** -/
theorem nameTree?_numberedName {names : List String}
    (hfree : ∀ name ∈ names, Scope.isFree name = true) (hroom : names.length ≤ 65536) (s : String) :
    nameTree? (.numbered names.length) (Scope.numberedName names s) =
      nameTree? (.named names) s := by
  have hspelling := Scope.ofSpelling?_numberedName hfree s
  by_cases hm : s ∈ names
  · have hlt : names.idxOf s < names.length := List.idxOf_lt_length_of_mem hm
    have hnamed : (Scope.named names).resolve s = .ok (.input (names.idxOf s)) := by
      have hidx : (Scope.named names).names.idxOf? s = some (names.idxOf s) := idxOf?_of_mem hm
      rw [Scope.resolve, hidx]
      exact Scope.input_eq_ok_iff.mpr ⟨⟨hlt, by omega⟩, rfl⟩
    have hnumbered : (Scope.numbered names.length).resolve (Scope.inputName (names.idxOf s)) =
        .ok (.input (names.idxOf s)) :=
      Scope.resolve_eq_ok_iff.mpr (Scope.denotes_inputName List.not_mem_nil ⟨hlt, by omega⟩)
    rw [Scope.numberedName_of_mem hm] at hspelling ⊢
    unfold nameTree?
    rw [← hspelling, Scope.ofSpelling?_inputName, hnamed, hnumbered]
  · have hresolve : (Scope.numbered names.length).resolve s = (Scope.named names).resolve s := by
      have hidx : (Scope.named names).names.idxOf? s = none := List.idxOf?_eq_none_iff.mpr hm
      unfold Scope.resolve
      rw [hidx]
      rfl
    rw [Scope.numberedName_of_notMem hm]
    unfold nameTree?
    rw [hresolve]

/-! ## The tokens of the new text -/

theorem Lexeme.renumber_eq_or (names : List String) (l : Lexeme) :
    l.renumber names = l ∨
      ∃ s slot, l = .name s ∧ l.renumber names = .name (Scope.inputName slot) := by
  cases l with
  | name s =>
    by_cases hm : s ∈ names
    · exact .inr ⟨s, names.idxOf s, rfl, by rw [renumber, Scope.numberedName_of_mem hm]⟩
    · exact .inl (by rw [renumber, Scope.numberedName_of_notMem hm])
  | number | operator | openParen | closeParen | comma => exact .inl rfl

namespace Cursor

variable {names : List String} {k k' : Cursor}

theorem renumber_of_error {e : SourceError} (h : k.next = .error e) :
    k.renumber names = k.rest := by
  rw [renumber]
  split <;> simp_all

theorem renumber_of_none (h : k.next = .ok none) : k.renumber names = k.rest := by
  rw [renumber]
  split <;> simp_all

theorem renumber_of_some {t : Token} (h : k.next = .ok (some (t, k'))) :
    k.renumber names = k.rest.takeWhile Text.isBlank ++
      ((t.lexeme.renumber names).text.toList ++ k'.renumber names) := by
  rw [renumber]
  split
  · simp_all
  · simp_all
  · rename_i h'
    rw [h] at h'
    cases h'
    rfl

/-- The first character stays, or it is the first letter of a name and becomes an `x`. -/
theorem head?_renumber (names : List String) (k : Cursor) :
    (k.renumber names).head? = k.rest.head? ∨
      (k.renumber names).head? = some 'x' ∧ ∃ c ∈ k.rest.head?, c.isAlpha = true := by
  cases hk : k.next with
  | error e => exact .inl (by rw [renumber_of_error hk])
  | ok found =>
    cases found with
    | none => exact .inl (by rw [renumber_of_none hk])
    | some found =>
      obtain ⟨t, k'⟩ := found
      obtain ⟨bs, hbs, -, hrest, hstands, -, -⟩ := spells_of_next hk
      rw [renumber_of_some hk, ← hbs, hrest]
      -- a blank in front is kept, so only a token that begins at the cursor matters
      cases bs with
      | cons b bs => exact .inl rfl
      | nil =>
        obtain ⟨c, cs, htext, -⟩ := Lexeme.read_text hstands
        have htext : t.text.toList = c :: cs := htext
        rcases Lexeme.renumber_eq_or names t.lexeme with heq | ⟨s, slot, hname, heq⟩
        · left
          rw [heq]
          show (t.text.toList ++ _).head? = _
          simp [htext]
        · right
          have halpha : c.isAlpha = true := by
            rw [hname] at hstands
            have hs : s.toList = c :: cs := by
              rw [← htext, Token.text, hname]
              rfl
            have hname := hstands.1
            rw [hs] at hname
            exact (Bool.and_eq_true_iff.mp hname).1
          rw [heq]
          refine ⟨?_, c, by simp [htext], halpha⟩
          simp [Lexeme.text, Scope.toList_inputName]

/-- A lexeme that ended in front of the text still ends in front of the new text. -/
theorem stands_renumber {l : Lexeme} (h : l.Stands k.rest.head?) :
    (l.renumber names).Stands (k.renumber names).head? := by
  rcases head?_renumber names k with hhead | ⟨hhead, c, hc, halpha⟩
  · rw [hhead]
    rcases Lexeme.renumber_eq_or names l with heq | ⟨s, slot, rfl, heq⟩
    · rwa [heq]
    · rw [heq]
      exact ⟨Scope.isName_inputName slot, h.2⟩
  · rw [hhead]
    cases l with
    | number s =>
      -- no numeral goes on with an `x`
      have hends : Numeral.Ends s.toList none := Numeral.Ends.none h
      refine ⟨hends.literal, ?_, ?_⟩
      · rintro d hd
        obtain rfl : 'x' = d := by simpa using hd
        decide
      · rintro d hd hmark
        obtain rfl : 'x' = d := by simpa using hd
        exact absurd hmark (by decide)
    | name s =>
      -- a letter right after a name would belong to it
      have hchar := h.2 c hc
      rw [Text.isNameChar, Char.isAlphanum, halpha] at hchar
      cases hchar
    | operator | openParen | closeParen | comma => trivial

/-- Where the scanner stops depends on what is left of the text only. -/
theorem scanOnto_stops (h : k.next = .ok none ∨ ∃ e, k.next = .error e) (seen seen' : List Token)
    (offset : Nat) (before : Option Char) :
    (scanOnto ⟨k.rest, offset, before⟩ seen').tokens = seen'.reverse ∧
      (scanOnto ⟨k.rest, offset, before⟩ seen').ending.isOk = (k.scanOnto seen).ending.isOk := by
  have hskip : (skipBlanks ⟨k.rest, offset, before⟩).rest = k.skipBlanks.rest := rfl
  rcases h with h | ⟨e, h⟩
  · have hnext : next ⟨k.rest, offset, before⟩ = .ok none := by
      simp only [next, hskip] at h ⊢
      split at h
      · rfl
      · split at h <;> cases h
    rw [scanOnto_of_none hnext, scanOnto_of_none h]
    exact ⟨rfl, rfl⟩
  · obtain ⟨e', hnext⟩ : ∃ e', next ⟨k.rest, offset, before⟩ = .error e' := by
      simp only [next, hskip] at h ⊢
      split at h
      · cases h
      · split at h
        · exact ⟨_, rfl⟩
        · cases h
    rw [scanOnto_of_error hnext, scanOnto_of_error h]
    exact ⟨rfl, rfl⟩

/-- The new text spells the renumbered tokens, up to where the scanner stops on either text. -/
theorem spells_renumber (names : List String) (k : Cursor) (seen : List Token) :
    ∃ ts cs rest, (k.scanOnto seen).tokens = seen.reverse ++ ts ∧ k.renumber names = cs ++ rest ∧
      Spells cs (ts.map fun t => t.lexeme.renumber names) rest ∧
      ∀ seen' offset before, (scanOnto ⟨rest, offset, before⟩ seen').tokens = seen'.reverse ∧
        (scanOnto ⟨rest, offset, before⟩ seen').ending.isOk = (k.scanOnto seen).ending.isOk := by
  induction k, seen using scanOnto.induct with
  | case1 k seen e h =>
    refine ⟨[], [], k.rest, ?_, renumber_of_error h, .nil _, scanOnto_stops (.inr ⟨e, h⟩) seen⟩
    rw [scanOnto_of_error h, List.append_nil]
  | case2 k seen h =>
    refine ⟨[], [], k.rest, ?_, renumber_of_none h, .nil _, scanOnto_stops (.inl h) seen⟩
    rw [scanOnto_of_none h, List.append_nil]
  | case3 k seen t k' h ih =>
    obtain ⟨ts, cs, rest, htokens, htext, hspells, hstops⟩ := ih
    obtain ⟨bs, hbs, hblanks, -, hstands, -, -⟩ := spells_of_next h
    refine ⟨t :: ts, bs ++ ((t.lexeme.renumber names).text.toList ++ cs), rest, ?_, ?_, ?_, ?_⟩
    · rw [scanOnto_of_some h, htokens]
      simp
    · rw [renumber_of_some h, htext, hbs]
      simp
    · refine Spells.trans (Spells.blanks hblanks _) (.lexeme ?_ hspells)
      rw [← htext]
      exact stands_renumber hstands
    · rw [scanOnto_of_some h]
      exact hstops

end Cursor

/-- **The tokens of the new text are those of the old one, renumbered,** and the new text scans to
its end if the old one does. -/
theorem lexemes_renumber (names : List String) (source : String) :
    lexemes (renumber names source) = (lexemes source).map (Lexeme.renumber names) ∧
      (scan (renumber names source)).ending.isOk = (scan source).ending.isOk := by
  obtain ⟨ts, cs, rest, htokens, htext, hspells, hstops⟩ :=
    (Cursor.start source).spells_renumber names []
  obtain ⟨us, before, hus, hscan⟩ := Cursor.scanOnto_of_spells hspells 0 none
  obtain ⟨hends, hok⟩ := hstops (us.reverse ++ []) (0 + cs.length) before
  have hnew : scan (renumber names source) =
      Cursor.scanOnto ⟨rest, 0 + cs.length, before⟩ (us.reverse ++ []) := by
    rw [scan, renumber, Cursor.start, String.toList_ofList, htext, hscan]
  rw [lexemes, hnew, hends, lexemes, scan, htokens]
  refine ⟨?_, hok⟩
  simpa [Function.comp_def] using hus

/-! ## The tree of the new text -/

/-- Parentheses stay where they are. -/
theorem nestsWithin_renumber {names : List String} {n : Nat} {w : List Lexeme} :
    NestsWithin n (w.map (Lexeme.renumber names)) ↔ NestsWithin n w := by
  have hcount : ∀ (u : List Lexeme) (l : Lexeme), l = .openParen ∨ l = .closeParen →
      (u.map (Lexeme.renumber names)).count l = u.count l := by
    intro u l hl
    rw [List.count, List.countP_map]
    refine List.countP_congr fun m _ => ?_
    rcases hl with rfl | rfl <;> cases m <;> simp [Lexeme.renumber]
  constructor
  · intro h u hu
    have hle := h _ (hu.map (Lexeme.renumber names))
    rwa [hcount u _ (.inl rfl), hcount u _ (.inr rfl)] at hle
  · intro h u hu
    obtain ⟨v, hv, rfl⟩ := List.prefix_map_iff.mp hu
    rw [hcount v _ (.inl rfl), hcount v _ (.inr rfl)]
    exact h v hv

/-- What was read last, with the number of an input in the place of its name. -/
def Focus.renumber (names : List String) : Focus → Focus
  | name s => name (Scope.numberedName names s)
  | focus => focus

namespace Outline

variable {names : List String}

/-- An outline with numbers in the place of names.  Only the last lexeme can still be a name. -/
def renumber (names : List String) (o : Outline) : Outline :=
  { o with focus := o.focus.renumber names }

/-- After an operand no name is left. -/
theorem operator_renumber (o : Outline) (x : Tree) (l : Lexeme) :
    (o.renumber names).operator x (l.renumber names) =
      (o.operator x l).map (renumber names) := by
  cases l with
  | number | name | openParen => rfl
  | operator op => rfl
  | closeParen =>
    show close (closeAll x o.holes) o.enclosures = (close (closeAll x o.holes) o.enclosures).map _
    unfold close
    split
    · rfl
    · rfl
    · split <;> rfl
    · split <;> rfl
  | comma =>
    show comma (closeAll x o.holes) o.enclosures = (comma (closeAll x o.holes) o.enclosures).map _
    unfold comma
    split
    · split <;> rfl
    · rfl

/-- **One lexeme has the same effect in both readings.** -/
theorem step_renumber (hfree : ∀ name ∈ names, Scope.isFree name = true)
    (hroom : names.length ≤ 65536) (o : Outline) (l : Lexeme) :
    (o.renumber names).step (.numbered names.length) (l.renumber names) =
      (o.step (.named names) l).map (renumber names) := by
  obtain ⟨focus, hs, es⟩ := o
  cases focus with
  | operand =>
    cases l with
    | operator op =>
      cases hsign : op.isSign && signAllowed hs <;>
        simp [step, renumber, Focus.renumber, Lexeme.renumber, operand, hsign]
    | number | name | openParen | closeParen | comma => rfl
  | tree x => exact operator_renumber ⟨.tree x, hs, es⟩ x l
  | name s =>
    have hparen : l.renumber names = .openParen ↔ l = .openParen := by
      cases l <;> simp [Lexeme.renumber]
    show step _ ⟨.name (Scope.numberedName names s), hs, es⟩ (l.renumber names) = _
    by_cases hl : l = .openParen
    · simp only [step, if_pos hl, if_pos (hparen.mpr hl), Scope.ofSpelling?_numberedName hfree,
        Option.map_map]
      rfl
    · simp only [step, if_neg hl, if_neg (mt hparen.mp hl), nameTree?_numberedName hfree hroom,
        Option.map_bind]
      exact congrArg _ (funext fun x => operator_renumber ⟨.name s, hs, es⟩ x l)

theorem run_renumber (hfree : ∀ name ∈ names, Scope.isFree name = true)
    (hroom : names.length ≤ 65536) (o : Outline) (w : List Lexeme) :
    (w.map (Lexeme.renumber names)).foldlM (step (.numbered names.length)) (o.renumber names) =
      (w.foldlM (step (.named names)) o).map (renumber names) := by
  induction w generalizing o with
  | nil => rfl
  | cons l w ih =>
    rw [List.map_cons, List.foldlM_cons, List.foldlM_cons, step_renumber hfree hroom]
    cases o.step (.named names) l with
    | none => rfl
    | some o' => exact ih o'

/-- **A formula has the same tree in both readings.** -/
theorem tree?_renumber (hfree : ∀ name ∈ names, Scope.isFree name = true)
    (hroom : names.length ≤ 65536) (w : List Lexeme) :
    tree? (.numbered names.length) (w.map (Lexeme.renumber names)) = tree? (.named names) w := by
  have hrun := run_renumber hfree hroom start w
  have hfinish : ∀ o : Outline,
      (o.renumber names).finish (.numbered names.length) = o.finish (.named names) := by
    rintro ⟨focus, hs, es⟩
    have hsettle : (focus.renumber names).settle? (.numbered names.length) =
        focus.settle? (.named names) := by
      cases focus with
      | operand | tree x => rfl
      | name s => exact nameTree?_numberedName hfree hroom s
    simp only [finish, renumber, hsettle]
  unfold tree?
  have hstart : start.renumber names = start := rfl
  rw [hstart] at hrun
  rw [hrun]
  cases w.foldlM (step (.named names)) start with
  | none => rfl
  | some o => exact hfinish o

end Outline

/-! ## Formulas without names -/

/-- What is derived without names contains none of them. -/
theorem Derives.map_renumber_eq {names : List String} {inputs : Nat}
    (hfree : ∀ name ∈ names, Scope.isFree name = true) {c : Phrase} {w : List Lexeme} {x : Tree}
    (h : Derives (.numbered inputs) c w x) : w.map (Lexeme.renumber names) = w := by
  have hname : ∀ {s : String}, Scope.isReserved s = true → Scope.numberedName names s = s :=
    fun hs => Scope.numberedName_of_notMem (Scope.notMem_of_isReserved hfree hs)
  have hfunction : ∀ f : FunctionName, Scope.isReserved f.spelling = true := fun f => by
    simp [Scope.isReserved]
  induction h with
  | number spelling => rfl
  | @constant name free means =>
    cases means with
    | constant undeclared named =>
      rw [List.map_singleton, Lexeme.renumber, hname]
      simp [Scope.isReserved, Scope.named?_isSome_iff.mpr named]
  | @input name slot free means =>
    cases means with
    | declared here => simp [Scope.numbered] at here
    | @numbered c digits undeclared letter nonempty decimal fits reached =>
      rw [List.map_singleton, Lexeme.renumber, hname]
      obtain ⟨d, ds, rfl⟩ := List.exists_cons_of_ne_nil nonempty
      have hdigit : Text.isDigit d = true := decimal d (by simp)
      simp [Scope.isReserved, letter, hdigit]
  | group inner ih => simp [ih, Lexeme.renumber]
  | call₁ f unary argument ih => simp [ih, Lexeme.renumber, hname (hfunction f)]
  | call₂ f pair left right ihl ihr => simp [ihl, ihr, Lexeme.renumber, hname (hfunction f)]
  | base inner ih | unsigned inner ih | bare inner ih | firstFactor inner ih
  | firstPower inner ih | firstProduct inner ih => exact ih
  | signed isSign inner ih => simp [ih, Lexeme.renumber]
  | raise left right ihl ihr | exponent isSign left right ihl ihr
  | times isTimes left right ihl ihr | plus isSign left right ihl ihr =>
    simp [ihl, ihr, Lexeme.renumber]

/-! ## Programs -/

/-- What the parser makes of a formula over names is what it makes of the renumbered formula. -/
theorem parse_named_iff {names : List String} {source : String} {p : Program}
    (hfree : ∀ name ∈ names, Scope.isFree name = true) (hroom : names.length ≤ 65536) :
    parse (.named names) source = .ok p ↔
      ∃ q, parse (.numbered names.length) (renumber names source) = .ok q ∧
        p = { q with source := source } := by
  obtain ⟨hlexemes, hok⟩ := lexemes_renumber names source
  have hspells : ∀ ls, Spells source.toList ls [] ↔
      lexemes source = ls ∧
        Spells (renumber names source).toList (ls.map (Lexeme.renumber names)) [] := by
    intro ls
    rw [spells_iff_scan, spells_iff_scan, hlexemes, hok]
    exact ⟨fun h => ⟨h.1, h.1 ▸ rfl, h.2⟩, fun h => ⟨h.1, h.2.2⟩⟩
  have hderives : ∀ ls x,
      Derives (.numbered names.length) .expr (ls.map (Lexeme.renumber names)) x ↔
        Derives (.named names) .expr ls x := by
    intro ls x
    rw [← Outline.tree?_eq_some_iff, Outline.tree?_renumber hfree hroom,
      Outline.tree?_eq_some_iff]
  constructor
  · intro h
    obtain ⟨ls, x, htext, hx, hnests, hcard, rfl⟩ := parse_eq_ok_iff.mp h
    exact ⟨x.program _ _, parse_eq_ok_iff.mpr ⟨_, x, ((hspells ls).mp htext).2,
      (hderives ls x).mpr hx, nestsWithin_renumber.mpr hnests, hcard, rfl⟩, rfl⟩
  · rintro ⟨q, hq, rfl⟩
    obtain ⟨ls, x, htext, hx, hnests, hcard, rfl⟩ := parse_eq_ok_iff.mp hq
    obtain ⟨rfl, -⟩ := spells_iff_scan.mp htext
    rw [hlexemes] at htext hx hnests
    exact parse_eq_ok_iff.mpr ⟨_, x, (hspells _).mpr ⟨rfl, htext⟩, (hderives _ x).mp hx,
      nestsWithin_renumber.mp hnests, hcard, rfl⟩

/-- What is accepted without names is accepted with them, and gives the same program. -/
theorem parse_named_of_numbered {names : List String} {source : String} {p : Program}
    (hfree : ∀ name ∈ names, Scope.isFree name = true) (hroom : names.length ≤ 65536)
    (h : parse (.numbered names.length) source = .ok p) : parse (.named names) source = .ok p := by
  obtain ⟨ls, x, htext, hx, hnests, hcard, rfl⟩ := parse_eq_ok_iff.mp h
  refine parse_eq_ok_iff.mpr ⟨ls, x, htext, ?_, hnests, hcard, rfl⟩
  rw [← Outline.tree?_eq_some_iff, ← Outline.tree?_renumber hfree hroom,
    hx.map_renumber_eq hfree, Outline.tree?_eq_some_iff]
  exact hx

namespace Program

theorem ofNamedFormula_eq_ok_iff {source : String} {names : List String} {p : Program}
    (hnames : Scope.badName? ∅ names = none) :
    ofNamedFormula source names = .ok p ↔
      names.length ≤ 65536 ∧ parse (.named names) source = .ok p := by
  have hopen : ofNamedFormula source names =
      (if 65536 < names.length then .error (.of 0 .tooLarge)
        else parse (.named names) source).mapError .failed := by
    rw [ofNamedFormula, hnames]
    rfl
  rw [hopen]
  split
  · simp only [Except.mapError, reduceCtorEq, false_iff]
    omega
  · simp only [show names.length ≤ 65536 by omega, true_and]
    cases parse (.named names) source <;> simp [Except.mapError]

end Program

/-- **Names of inputs are numbers of inputs.**  For names that may be given to inputs, a formula
over the names is accepted exactly if the formula with each name replaced by the number of its input
is, and the two programs differ in nothing but their text.  A formula that is accepted without the
names gives the same program with them. -/
theorem ofNamedFormula_renumber {names : List String} (hnames : Scope.badName? ∅ names = none)
    (source : String) :
    ((∃ p, Program.ofNamedFormula source names = .ok p) ↔
      ∃ q, Program.ofFormula (renumber names source) names.length = .ok q) ∧
    (∀ p q, Program.ofNamedFormula source names = .ok p →
      Program.ofFormula (renumber names source) names.length = .ok q →
        p.code = q.code ∧ p.constants = q.constants ∧ p.functions = q.functions ∧
          p.inputs = q.inputs ∧ p.maxStack = q.maxStack) ∧
    ∀ p, Program.ofFormula source names.length = .ok p →
      Program.ofNamedFormula source names = .ok p := by
  have hfree := Scope.isFree_of_badName? hnames
  simp only [Program.ofNamedFormula_eq_ok_iff hnames, Program.ofFormula_eq_ok_iff]
  refine ⟨⟨?_, ?_⟩, ?_, ?_⟩
  · rintro ⟨p, hroom, hp⟩
    obtain ⟨q, hq, -⟩ := (parse_named_iff hfree hroom).mp hp
    exact ⟨q, hroom, hq⟩
  · rintro ⟨q, hroom, hq⟩
    exact ⟨_, hroom, (parse_named_iff hfree hroom).mpr ⟨q, hq, rfl⟩⟩
  · rintro p q ⟨hroom, hp⟩ ⟨-, hq⟩
    obtain ⟨q', hq', rfl⟩ := (parse_named_iff hfree hroom).mp hp
    rw [hq] at hq'
    cases hq'
    exact ⟨rfl, rfl, rfl, rfl, rfl⟩
  · rintro p ⟨hroom, hp⟩
    exact ⟨hroom, parse_named_of_numbered hfree hroom hp⟩

/-- Names that are nearly numbered, nearly a numeral and nearly a constant. -/
theorem ofNamedFormula_renumber_nearly :
    Scope.badName? ∅ ["x", "e5", "Pi"] = none ∧
      renumber ["x", "e5", "Pi"] "x *e5-Pi^-x1" = "x0 *x1-x2^-x1" ∧
      ∃ p q, Program.ofNamedFormula "x *e5-Pi^-x1" ["x", "e5", "Pi"] = .ok p ∧
        Program.ofFormula "x0 *x1-x2^-x1" 3 = .ok q ∧
        Program.ofNamedFormula "x0 *x1-x2^-x1" ["x", "e5", "Pi"] = .ok q ∧ p.code = q.code ∧
        q.code.toList =
          [.loadInput 0, .loadInput 1, .mul, .loadInput 2, .loadInput 1, .neg, .pow, .sub] := by
  have hnames : Scope.badName? ∅ ["x", "e5", "Pi"] = none := by
    have hx : Scope.isFree "x" = true := by decide
    have he : Scope.isFree "e5" = true := by decide
    have hp : Scope.isFree "Pi" = true := by decide
    simp [Scope.badName?, hx, he, hp]
  have htext : renumber ["x", "e5", "Pi"] "x *e5-Pi^-x1" = "x0 *x1-x2^-x1" := by decide +kernel
  have hcode : (Program.ofFormula "x0 *x1-x2^-x1" 3).toOption.map (·.code.toList) =
      some [.loadInput 0, .loadInput 1, .mul, .loadInput 2, .loadInput 1, .neg, .pow, .sub] := by
    decide +kernel
  refine ⟨hnames, htext, ?_⟩
  cases hq : Program.ofFormula "x0 *x1-x2^-x1" 3 with
  | error e =>
    rw [hq] at hcode
    cases hcode
  | ok q =>
    rw [hq] at hcode
    obtain ⟨hiff, hsame, -⟩ := ofNamedFormula_renumber hnames "x *e5-Pi^-x1"
    obtain ⟨-, -, hwithout⟩ := ofNamedFormula_renumber hnames "x0 *x1-x2^-x1"
    rw [htext] at hiff hsame
    obtain ⟨p, hp⟩ := hiff.mpr ⟨q, hq⟩
    exact ⟨p, q, hp, rfl, hwithout q hq, (hsame p q hp hq).1, Option.some.inj hcode⟩

end Formula
