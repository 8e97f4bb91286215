import Formula.Proofs.Acceptance
import Formula.Proofs.Measuring

/-!
# Texts spelled by lexemes

The scanner takes lexemes off the front of a text.  Here a text is put together from lexemes and
blanks, and the scanner gives back what was put in.

A lexeme does not end where its spelling ends: `12` in front of a digit is part of a longer numeral,
and a name in front of a letter is part of a longer name.  What decides is the next character, and
only that one.  `Lexeme.Stands` says of a lexeme and the next character of a text, if there is one,
that the lexeme ends there.

* `Spells cs ls rest` says that the characters `cs`, in front of the text `rest`, are the lexemes
  `ls` with blanks between them.  The rest belongs to the statement because of the last lexeme, and
  it can be exchanged for another that the last lexeme can stand in front of (`Spells.replace`).
* `scanOnto_of_spells` and `Cursor.spells_of_next` are the two directions: what is spelled is
  scanned, and what is scanned is spelled.
* `scan_split` cuts a text in front of one of its tokens.
-/

namespace Formula

/-! ## Where a lexeme ends -/

namespace Lexeme

/-- A lexeme ends in front of a character, or at the end of the text. -/
def Stands : Lexeme → Option Char → Prop
  | number s, next => Numeral.Ends s.toList next
  | name s, next => Text.isName s.toList = true ∧ ∀ c ∈ next, Text.isNameChar c = false
  | operator _, _ | openParen, _ | closeParen, _ | comma, _ => True

/-- What ends in front of anything ends at the end of a text. -/
theorem Stands.none {l : Lexeme} {next : Option Char} (h : l.Stands next) : l.Stands none := by
  cases l with
  | number s => exact Numeral.Ends.none h
  | name s => exact ⟨h.1, by simp⟩
  | operator | openParen | closeParen | comma => trivial

/-- A character after which every lexeme is complete. -/
def separates (c : Char) : Bool := !Text.isNameChar c && c != '.'

theorem Stands.separated {l : Lexeme} (h : l.Stands .none) {c : Char} (hc : separates c = true) :
    l.Stands (some c) := by
  simp only [separates, Bool.and_eq_true, Bool.not_eq_true', bne_iff_ne] at hc
  cases l with
  | number s =>
    refine ⟨h.literal, ?_, ?_⟩
    · rintro d hd
      obtain rfl : c = d := by simpa using hd
      refine ⟨?_, hc.2⟩
      rw [Bool.eq_false_iff]
      intro hdigit
      rw [Text.isNameChar_of_isDigit hdigit] at hc
      cases hc.1
    · rintro d hd hmark
      obtain rfl : c = d := by simpa using hd
      exact absurd hc.1 (by rcases hmark with rfl | rfl <;> decide)
  | name s =>
    refine ⟨h.1, fun d hd => ?_⟩
    obtain rfl : c = d := by simpa using hd
    exact hc.1
  | operator | openParen | closeParen | comma => trivial

theorem separates_of_isBlank {c : Char} (h : Text.isBlank c = true) : separates c = true := by
  simp only [Text.isBlank, Bool.or_eq_true, beq_iff_eq] at h
  rcases h with (((rfl | rfl) | rfl) | rfl) | rfl <;> decide

theorem separates_symbol (op : Operator) : separates op.symbol = true := by
  cases op <;> decide

/-! ### Reading what is written -/

theorem length?_of_isAlpha {c : Char} (h : c.isAlpha = true) (cs : List Char) :
    Numeral.length? (c :: cs) = .ok none := by
  have hdigit : Text.isDigit c = false := by
    rw [Bool.eq_false_iff]
    intro hd
    have hlow := (Text.toNat_of_isAlpha h).1
    have hhigh := (Text.toNat_of_isDigit hd).2
    omega
  have hpoint : c ≠ '.' := by
    rintro rfl
    revert h
    decide
  simp [Numeral.length?, Numeral.starts, hdigit, hpoint]

/-- A lexeme that ends in front of a text is read there. -/
theorem read_text {l : Lexeme} {rest : List Char} (h : l.Stands rest.head?) :
    ∃ c cs, l.text.toList = c :: cs ∧ read c (cs ++ rest) = .ok (l, (c :: cs).length) := by
  cases l with
  | number s =>
    have hends : Numeral.Ends s.toList rest.head? := h
    obtain ⟨c, cs, hs⟩ := List.exists_cons_of_ne_nil hends.literal.getLast.1
    have hlength := hends.length?_append
    rw [hs, List.cons_append] at hlength
    refine ⟨c, cs, hs, ?_⟩
    simp only [read, hlength]
    rw [← List.cons_append, List.take_left, ← hs, String.ofList_toList]
  | name s =>
    obtain ⟨hname, hrest⟩ := h
    cases hs : s.toList with
    | nil => rw [hs] at hname; cases hname
    | cons c cs =>
      rw [hs] at hname
      obtain ⟨halpha, hall⟩ := Bool.and_eq_true_iff.mp hname
      refine ⟨c, cs, hs, ?_⟩
      have htake : (cs ++ rest).takeWhile Text.isNameChar = cs := by
        rw [List.takeWhile_append_of_pos (List.all_eq_true.mp hall)]
        cases rest with
        | nil => simp
        | cons d rest =>
          have hd : Text.isNameChar d = false := hrest d (by simp)
          simp [hd]
      have hlen : nameLength (c :: (cs ++ rest)) = (c :: cs).length := by
        rw [nameLength, List.tail_cons, htake, List.length_cons, Nat.add_comm]
      simp only [read, length?_of_isAlpha halpha, if_pos halpha, hlen]
      rw [← List.cons_append, List.take_left, ← hs, String.ofList_toList]
  | operator op => cases op <;> exact ⟨_, [], rfl, rfl⟩
  | openParen => exact ⟨_, [], rfl, rfl⟩
  | closeParen => exact ⟨_, [], rfl, rfl⟩
  | comma => exact ⟨_, [], rfl, rfl⟩

theorem text_of_ofChar? {c : Char} {l : Lexeme} (h : ofChar? c = some l) :
    l.text.toList = [c] ∧ ∀ next, l.Stands next := by
  unfold ofChar? at h
  split at h
  · cases h; exact ⟨rfl, fun _ => trivial⟩
  · cases h; exact ⟨rfl, fun _ => trivial⟩
  · cases h; exact ⟨rfl, fun _ => trivial⟩
  · obtain ⟨op, hop, rfl⟩ := Option.map_eq_some_iff.mp h
    refine ⟨?_, fun _ => trivial⟩
    unfold Operator.ofSymbol? at hop
    split at hop <;> cases hop <;> rfl

/-- What is read is the text of the lexeme, and it ends there. -/
theorem stands_of_read {c : Char} {cs : List Char} {l : Lexeme} {n : Nat}
    (h : read c cs = .ok (l, n)) :
    (c :: cs).take n = l.text.toList ∧ l.Stands ((c :: cs).drop n).head? := by
  simp only [read] at h
  split at h
  · cases h
  · rename_i hn
    cases h
    have hends := Numeral.ends_of_length? hn
    refine ⟨String.toList_ofList.symm, ?_⟩
    show Numeral.Ends (String.ofList _).toList _
    rwa [String.toList_ofList]
  · split at h
    · rename_i halpha
      cases h
      have htake : (c :: cs).take (nameLength (c :: cs)) = c :: cs.takeWhile Text.isNameChar := by
        rw [nameLength, List.tail_cons, Nat.add_comm, List.take_succ_cons,
          ← List.prefix_iff_eq_take.mp (List.takeWhile_prefix Text.isNameChar)]
      have hdrop : (c :: cs).drop (nameLength (c :: cs)) = cs.dropWhile Text.isNameChar := by
        rw [nameLength, List.tail_cons, Nat.add_comm, List.drop_succ_cons]
        calc cs.drop (cs.takeWhile Text.isNameChar).length
            = (cs.takeWhile Text.isNameChar ++ cs.dropWhile Text.isNameChar).drop
                (cs.takeWhile Text.isNameChar).length := by
              rw [List.takeWhile_append_dropWhile]
          _ = cs.dropWhile Text.isNameChar := List.drop_left
      refine ⟨String.toList_ofList.symm, ?_⟩
      show Text.isName (String.ofList _).toList = true ∧ _
      rw [String.toList_ofList, htake, hdrop]
      refine ⟨?_, fun d hd => ?_⟩
      · have hall : (cs.takeWhile Text.isNameChar).all Text.isNameChar = true :=
          List.all_eq_true.mpr fun d hd => List.mem_takeWhile_imp hd
        simp only [Text.isName, halpha, hall, Bool.and_self]
      · have hhead := List.head?_dropWhile_not Text.isNameChar cs
        rw [Option.mem_def.mp hd] at hhead
        simpa using hhead
    · split at h
      · rename_i hchar
        cases h
        obtain ⟨htext, hstands⟩ := text_of_ofChar? hchar
        exact ⟨htext.symm, hstands _⟩
      · cases h

/-- What is read is as long as the text of the lexeme. -/
theorem length_of_read {c : Char} {cs : List Char} {l : Lexeme} {n : Nat}
    (h : read c cs = .ok (l, n)) : l.text.toList.length = n := by
  obtain ⟨htake, hstands⟩ := stands_of_read h
  obtain ⟨d, ds, htext, hread⟩ := read_text hstands
  have hcs : d :: (ds ++ (c :: cs).drop n) = c :: cs := by
    rw [← List.cons_append, ← htext, ← htake, List.take_append_drop]
  obtain ⟨rfl, hds⟩ := List.cons_eq_cons.mp hcs
  rw [hds, h] at hread
  cases hread
  rw [htext]

/-! ### Bytes -/

theorem utf8Size_of_toNat {c : Char} (h : c.toNat ≤ 127) : c.utf8Size = 1 :=
  Char.utf8Size_eq_one_iff.mpr (UInt32.le_iff_toNat_le.mpr h)

theorem utf8Size_of_isDigit {c : Char} (h : Text.isDigit c = true) : c.utf8Size = 1 :=
  utf8Size_of_toNat (Nat.le_trans (Text.toNat_of_isDigit h).2 (by decide))

theorem utf8Size_of_isAlpha {c : Char} (h : c.isAlpha = true) : c.utf8Size = 1 :=
  utf8Size_of_toNat (Nat.le_trans (Text.toNat_of_isAlpha h).2 (by decide))

theorem utf8Size_of_isNameChar {c : Char} (h : Text.isNameChar c = true) : c.utf8Size = 1 := by
  simp only [Text.isNameChar, Char.isAlphanum, Bool.or_eq_true, beq_iff_eq] at h
  rcases h with (h | h) | rfl
  · exact utf8Size_of_isAlpha h
  · exact utf8Size_of_isDigit h
  · decide

theorem utf8Size_of_mem_literal {cs : List Char} (h : Numeral.Literal cs) :
    ∀ c ∈ cs, c.utf8Size = 1 := by
  have hdigits : ∀ {ds : List Char}, Numeral.Digits ds → ∀ d ∈ ds, d.utf8Size = 1 :=
    fun hds d hd => utf8Size_of_isDigit (hds d hd)
  have hmantissa : ∀ {m : List Char}, Numeral.Mantissa m → ∀ d ∈ m, d.utf8Size = 1 := by
    intro m hm d hd
    cases hm with
    | whole digits => exact hdigits digits d hd
    | point digits fraction =>
      rcases List.mem_append.mp hd with hd | hd
      · exact hdigits digits d hd
      · rcases List.mem_cons.mp hd with rfl | hd
        · decide
        · exact hdigits fraction d hd
  intro c hc
  cases h with
  | plain mantissa => exact hmantissa mantissa c hc
  | scaled mantissa isMark isSign digits =>
    rcases List.mem_append.mp hc with hc | hc
    · exact hmantissa mantissa c hc
    · rcases List.mem_cons.mp hc with rfl | hc
      · rcases isMark with rfl | rfl <;> decide
      · rcases List.mem_append.mp hc with hc | hc
        · rcases isSign with rfl | rfl | rfl
          · cases hc
          · rw [List.mem_singleton.mp hc]; decide
          · rw [List.mem_singleton.mp hc]; decide
        · exact hdigits digits c hc

/-- Every character of a lexeme has one byte. -/
theorem Stands.utf8Size {l : Lexeme} {next : Option Char} (h : l.Stands next) :
    ∀ c ∈ l.text.toList, c.utf8Size = 1 := by
  cases l with
  | number s => exact utf8Size_of_mem_literal h.literal
  | name s =>
    obtain ⟨hname, -⟩ := h
    show ∀ c ∈ s.toList, c.utf8Size = 1
    cases hs : s.toList with
    | nil => simp
    | cons c cs =>
      rw [hs] at hname
      obtain ⟨halpha, hall⟩ := Bool.and_eq_true_iff.mp hname
      intro d hd
      rcases List.mem_cons.mp hd with rfl | hd
      · exact utf8Size_of_isAlpha halpha
      · exact utf8Size_of_isNameChar (List.all_eq_true.mp hall d hd)
  | operator op => cases op <;> exact List.forall_mem_singleton.mpr rfl
  | openParen => exact List.forall_mem_singleton.mpr rfl
  | closeParen => exact List.forall_mem_singleton.mpr rfl
  | comma => exact List.forall_mem_singleton.mpr rfl

end Lexeme

theorem Text.byteLength_eq_length {cs : List Char} (h : ∀ c ∈ cs, c.utf8Size = 1) :
    Text.byteLength cs = cs.length := by
  induction cs with
  | nil => rfl
  | cons c cs ih =>
    obtain ⟨hc, hcs⟩ := List.forall_mem_cons.mp h
    rw [Text.byteLength, hc, ih hcs, List.length_cons, Nat.add_comm]

/-! ## Spelling lexemes -/

/-- The characters, in front of the text `rest`, are lexemes with blanks between them. -/
inductive Spells : List Char → List Lexeme → List Char → Prop
  | nil (rest : List Char) : Spells [] [] rest
  | blank {c : Char} {cs : List Char} {ls : List Lexeme} {rest : List Char}
      (isBlank : Text.isBlank c = true) (more : Spells cs ls rest) : Spells (c :: cs) ls rest
  | lexeme {l : Lexeme} {cs : List Char} {ls : List Lexeme} {rest : List Char}
      (stands : l.Stands (cs ++ rest).head?) (more : Spells cs ls rest) :
      Spells (l.text.toList ++ cs) (l :: ls) rest

namespace Spells

variable {cs cs' rest rest' : List Char} {ls ls' : List Lexeme}

/-- One spelling after the other. -/
theorem trans (h : Spells cs ls (cs' ++ rest)) (h' : Spells cs' ls' rest) :
    Spells (cs ++ cs') (ls ++ ls') rest := by
  generalize hmid : cs' ++ rest = mid at h
  induction h with
  | nil => exact h'
  | blank isBlank _ ih => exact .blank isBlank (ih hmid)
  | @lexeme l cs ls _ stands _ ih =>
    rw [List.append_assoc]
    refine .lexeme ?_ (ih hmid)
    rwa [List.append_assoc, hmid]

/-- A rest that the last lexeme can stand in front of may take the place of another. -/
theorem replace (h : Spells cs ls rest)
    (hrest : ∀ l : Lexeme, l.Stands rest.head? → l.Stands rest'.head?) : Spells cs ls rest' := by
  induction h with
  | nil => exact .nil rest'
  | blank isBlank _ ih => exact .blank isBlank (ih hrest)
  | @lexeme l cs ls _ stands _ ih =>
    refine .lexeme ?_ (ih hrest)
    cases cs with
    | nil => exact hrest l stands
    | cons c cs => exact stands

theorem blanks {bs : List Char} (h : ∀ c ∈ bs, Text.isBlank c = true) (rest : List Char) :
    Spells bs [] rest := by
  induction bs with
  | nil => exact .nil rest
  | cons c bs ih =>
    obtain ⟨hc, hbs⟩ := List.forall_mem_cons.mp h
    exact .blank hc (ih hbs)

/-- A lexeme in front of a character that ends it. -/
theorem single {l : Lexeme} (h : l.Stands none)
    (hrest : ∀ c ∈ rest.head?, Lexeme.separates c = true) : Spells l.text.toList [l] rest := by
  have hstands : l.Stands rest.head? := by
    cases rest with
    | nil => exact h
    | cons c rest => exact h.separated (hrest c rfl)
  have hspells : Spells (l.text.toList ++ []) [l] rest := .lexeme hstands (.nil rest)
  rwa [List.append_nil] at hspells

/-- The lexemes of a text are complete. -/
theorem stands (h : Spells cs ls rest) :
    ∀ l ∈ ls, l.Stands none := by
  induction h with
  | nil => simp
  | blank _ _ ih => exact ih
  | lexeme stands _ ih => exact List.forall_mem_cons.mpr ⟨stands.none, ih⟩

theorem byteLength (h : Spells cs ls rest) : Text.byteLength cs = cs.length := by
  refine Text.byteLength_eq_length ?_
  induction h with
  | nil => simp
  | @blank c cs _ _ isBlank _ ih =>
    refine List.forall_mem_cons.mpr ⟨?_, ih⟩
    simp only [Text.isBlank, Bool.or_eq_true, beq_iff_eq] at isBlank
    rcases isBlank with (((rfl | rfl) | rfl) | rfl) | rfl <;> decide
  | lexeme stands _ ih =>
    intro c hc
    rcases List.mem_append.mp hc with hc | hc
    · exact stands.utf8Size c hc
    · exact ih c hc

end Spells

/-! ## What is spelled is scanned -/

namespace Cursor

theorem skipBlanks_cons {c : Char} (h : Text.isBlank c = true) (cs : List Char) (offset : Nat)
    (before : Option Char) :
    skipBlanks ⟨c :: cs, offset, before⟩ = skipBlanks ⟨cs, offset + 1, before⟩ := by
  simp only [skipBlanks, List.dropWhile_cons, List.takeWhile_cons, h, if_true, List.length_cons,
    Cursor.mk.injEq, true_and, and_true]
  omega

theorem next_of_skipBlanks {k k' : Cursor} (h : k.skipBlanks = k'.skipBlanks) :
    k.next = k'.next := by
  unfold next
  rw [h]

theorem scanOnto_of_error {k : Cursor} {e : SourceError} (h : k.next = .error e)
    (seen : List Token) : k.scanOnto seen = ⟨seen.reverse, .error e⟩ := by
  rw [scanOnto]
  split <;> simp_all

theorem scanOnto_of_none {k : Cursor} (h : k.next = .ok none) (seen : List Token) :
    k.scanOnto seen = ⟨seen.reverse, .ok k.skipBlanks.offset⟩ := by
  rw [scanOnto]
  split <;> simp_all

theorem scanOnto_of_some {k k' : Cursor} {t : Token} (h : k.next = .ok (some (t, k')))
    (seen : List Token) : k.scanOnto seen = k'.scanOnto (t :: seen) := by
  rw [scanOnto]
  split
  · simp_all
  · simp_all
  · rename_i h'
    rw [h] at h'
    cases h'
    rfl

theorem scanOnto_of_skipBlanks {k k' : Cursor} (h : k.skipBlanks = k'.skipBlanks)
    (seen : List Token) : k.scanOnto seen = k'.scanOnto seen := by
  have hnext := next_of_skipBlanks h
  cases hk : k.next with
  | error e => rw [scanOnto_of_error hk, scanOnto_of_error (hnext ▸ hk)]
  | ok found =>
    cases found with
    | none => rw [scanOnto_of_none hk, scanOnto_of_none (hnext ▸ hk), h]
    | some found =>
      obtain ⟨t, k₁⟩ := found
      have hk' : k'.next = .ok (some (t, k₁)) := hnext ▸ hk
      rw [scanOnto_of_some hk, scanOnto_of_some hk']

/-- The next token is the lexeme at the front. -/
theorem next_of_stands {l : Lexeme} {cs : List Char} (h : l.Stands cs.head?) (offset : Nat)
    (before : Option Char) :
    ∃ before', next ⟨l.text.toList ++ cs, offset, before⟩ =
      .ok (some (⟨l, offset, .after before⟩, ⟨cs, offset + l.text.toList.length, before'⟩)) := by
  obtain ⟨c, w, htext, hread⟩ := Lexeme.read_text h
  have hblank : Text.isBlank c = false := by
    rw [Bool.eq_false_iff]
    intro hb
    have hwhite := Text.isWhite_of_isBlank hb
    rw [Lexeme.isWhite_of_read hread] at hwhite
    cases hwhite
  rw [htext, List.cons_append]
  have hskip : skipBlanks ⟨c :: (w ++ cs), offset, before⟩ = ⟨c :: (w ++ cs), offset, before⟩ := by
    simp [skipBlanks, hblank]
  refine ⟨((c :: (w ++ cs)).take (c :: w).length).getLast?, ?_⟩
  simp only [next, hskip, hread, advance]
  rw [← List.cons_append, List.drop_left]

/-- **What is spelled is scanned,** whatever comes after it. -/
theorem scanOnto_of_spells {cs rest : List Char} {ls : List Lexeme} (h : Spells cs ls rest)
    (offset : Nat) (before : Option Char) :
    ∃ (ts : List Token) (before' : Option Char), ts.map (·.lexeme) = ls ∧ ∀ seen,
      scanOnto ⟨cs ++ rest, offset, before⟩ seen =
        scanOnto ⟨rest, offset + cs.length, before'⟩ (ts.reverse ++ seen) := by
  induction h generalizing offset before with
  | nil => exact ⟨[], before, rfl, fun _ => rfl⟩
  | @blank c cs ls rest isBlank _ ih =>
    obtain ⟨ts, before', hts, hscan⟩ := ih (offset + 1) before
    refine ⟨ts, before', hts, fun seen => ?_⟩
    rw [List.cons_append, scanOnto_of_skipBlanks (skipBlanks_cons isBlank ..), hscan,
      List.length_cons, Nat.add_assoc, Nat.add_comm 1]
  | @lexeme l cs ls rest stands _ ih =>
    obtain ⟨between, hnext⟩ := next_of_stands stands offset before
    obtain ⟨ts, before', hts, hscan⟩ := ih (offset + l.text.toList.length) between
    refine ⟨⟨l, offset, .after before⟩ :: ts, before', congrArg (l :: ·) hts, fun seen => ?_⟩
    rw [List.append_assoc, scanOnto_of_some hnext, hscan, List.length_append, Nat.add_assoc,
      List.reverse_cons, List.append_assoc, List.singleton_append]

end Cursor

/-- A text that is spelled by lexemes scans to them. -/
theorem scan_of_spells {source : String} {ls : List Lexeme} (h : Spells source.toList ls []) :
    lexemes source = ls ∧ (scan source).ending = .ok source.toList.length := by
  obtain ⟨ts, before, hts, hscan⟩ := Cursor.scanOnto_of_spells h 0 none
  have hnil : Cursor.next ⟨[], 0 + source.toList.length, before⟩ = .ok none := rfl
  have hall : scan source = ⟨ts, .ok source.toList.length⟩ := by
    have hstart := hscan []
    rw [List.append_nil, Cursor.scanOnto_of_none hnil, List.append_nil,
      List.reverse_reverse] at hstart
    rw [scan, Cursor.start, hstart]
    simp [Cursor.skipBlanks]
  rw [lexemes, hall]
  exact ⟨hts, rfl⟩

/-! ## What is scanned is spelled -/

namespace Cursor

/-- A token is blanks and the text of its lexeme. -/
theorem spells_of_next {k k' : Cursor} {t : Token} (h : k.next = .ok (some (t, k'))) :
    ∃ bs, bs = k.rest.takeWhile Text.isBlank ∧ (∀ c ∈ bs, Text.isBlank c = true) ∧
      k.rest = bs ++ (t.text.toList ++ k'.rest) ∧ t.lexeme.Stands k'.rest.head? ∧
      t.offset = k.offset + bs.length ∧ k'.offset = t.offset + t.text.toList.length := by
  have hsplit : k.rest.takeWhile Text.isBlank ++ k.skipBlanks.rest = k.rest :=
    List.takeWhile_append_dropWhile
  simp only [next] at h
  split at h
  · cases h
  · rename_i c cs hrest
    split at h
    · cases h
    · rename_i l n hread
      cases h
      obtain ⟨htake, hstands⟩ := Lexeme.stands_of_read hread
      have hword : (c :: cs) = l.text.toList ++ (c :: cs).drop n := by
        rw [← htake, List.take_append_drop]
      have hlen := Lexeme.length_of_read hread
      refine ⟨_, rfl, fun c hc => List.mem_takeWhile_imp hc, ?_, ?_, rfl, ?_⟩
      · show k.rest = _ ++ (l.text.toList ++ k.skipBlanks.rest.drop n)
        rw [hrest, ← hword, ← hrest, hsplit]
      · show l.Stands (k.skipBlanks.rest.drop n).head?
        rw [hrest]
        exact hstands
      · show k.skipBlanks.offset + n = k.skipBlanks.offset + l.text.toList.length
        rw [hlen]

/-- Only blanks are left at the end. -/
theorem blanks_of_none {k : Cursor} (h : k.next = .ok none) :
    (∀ c ∈ k.rest, Text.isBlank c = true) ∧ k.skipBlanks.offset = k.offset + k.rest.length := by
  simp only [next] at h
  split at h
  · rename_i hrest
    have hall : k.rest.takeWhile Text.isBlank = k.rest := by
      have hsplit : k.rest.takeWhile Text.isBlank ++ k.skipBlanks.rest = k.rest :=
        List.takeWhile_append_dropWhile
      rwa [hrest, List.append_nil] at hsplit
    refine ⟨fun c hc => ?_, ?_⟩
    · rw [← hall] at hc
      exact List.mem_takeWhile_imp hc
    · rw [skipBlanks, hall]
  · split at h <;> cases h

/-- The tokens of a scan are those already seen and others. -/
theorem exists_tokens (k : Cursor) (seen : List Token) :
    ∃ ts, (k.scanOnto seen).tokens = seen.reverse ++ ts := by
  induction k, seen using scanOnto.induct with
  | case1 k seen e h => exact ⟨[], by rw [scanOnto_of_error h, List.append_nil]⟩
  | case2 k seen h => exact ⟨[], by rw [scanOnto_of_none h, List.append_nil]⟩
  | case3 k seen t k' h ih =>
    obtain ⟨ts, hts⟩ := ih
    exact ⟨t :: ts, by rw [scanOnto_of_some h, hts]; simp⟩

/-- A text is cut in front of one of its tokens. -/
theorem scanOnto_split {k : Cursor} {seen u v : List Token} {t : Token}
    (h : (k.scanOnto seen).tokens = seen.reverse ++ (u ++ t :: v)) :
    ∃ cs after, k.rest = cs ++ (t.text.toList ++ after) ∧
      Spells cs (u.map (·.lexeme)) (t.text.toList ++ after) ∧ t.offset = k.offset + cs.length ∧
      t.lexeme.Stands after.head? := by
  induction k, seen using scanOnto.induct generalizing u with
  | case1 k seen e hk => simp [scanOnto_of_error hk] at h
  | case2 k seen hk => simp [scanOnto_of_none hk] at h
  | case3 k seen t₀ k' hk ih =>
    rw [scanOnto_of_some hk] at h
    obtain ⟨bs, -, hbs, hrest, hstands, hoffset, hoffset'⟩ := spells_of_next hk
    cases u with
    | nil =>
      obtain ⟨ts, hts⟩ := exists_tokens k' (t₀ :: seen)
      rw [hts, List.reverse_cons, List.append_assoc] at h
      obtain ⟨rfl, -⟩ := List.cons_eq_cons.mp (List.append_cancel_left h)
      exact ⟨bs, k'.rest, hrest, .blanks hbs _, hoffset, hstands⟩
    | cons t₁ u =>
      obtain ⟨ts, hts⟩ := exists_tokens k' (t₀ :: seen)
      have hhead : t₀ = t₁ := by
        rw [hts, List.reverse_cons, List.append_assoc] at h
        exact (List.cons_eq_cons.mp (List.append_cancel_left h)).1
      subst hhead
      obtain ⟨cs, after, hrest', hspells, hplace, hlast⟩ := ih (u := u) (by rw [h]; simp)
      refine ⟨bs ++ (t₀.text.toList ++ cs), after, ?_, ?_, ?_, hlast⟩
      · rw [hrest, hrest']
        simp
      · refine Spells.trans (Spells.blanks hbs _) (.lexeme ?_ hspells)
        rwa [← hrest']
      · rw [hplace, hoffset', hoffset]
        simp only [List.length_append]
        omega

/-- A text that scans to its end is spelled by its lexemes. -/
theorem scanOnto_end {k : Cursor} {seen ts : List Token} {offset : Nat}
    (h : (k.scanOnto seen).tokens = seen.reverse ++ ts)
    (hend : (k.scanOnto seen).ending = .ok offset) :
    Spells k.rest (ts.map (·.lexeme)) [] ∧ offset = k.offset + k.rest.length := by
  induction k, seen using scanOnto.induct generalizing ts with
  | case1 k seen e hk => simp [scanOnto_of_error hk] at hend
  | case2 k seen hk =>
    obtain ⟨hblanks, hoffset⟩ := blanks_of_none hk
    rw [scanOnto_of_none hk] at h hend
    obtain rfl : ts = [] := by simpa using h
    cases hend
    exact ⟨.blanks hblanks [], hoffset⟩
  | case3 k seen t k' hk ih =>
    rw [scanOnto_of_some hk] at h hend
    obtain ⟨us, hus⟩ := exists_tokens k' (t :: seen)
    obtain ⟨bs, -, hbs, hrest, hstands, hoffset, hoffset'⟩ := spells_of_next hk
    obtain ⟨hspells, rfl⟩ := ih hus hend
    rw [hus, List.reverse_cons, List.append_assoc] at h
    obtain rfl : ts = t :: us := (List.append_cancel_left h).symm
    constructor
    · rw [hrest]
      refine Spells.trans (Spells.blanks hbs _) (.lexeme ?_ hspells)
      rwa [List.append_nil]
    · rw [hrest, hoffset', hoffset]
      simp only [List.length_append]
      omega

end Cursor

/-- **A text is cut in front of one of its tokens:** what comes before spells the tokens before. -/
theorem scan_split {source : String} {u v : List Token} {t : Token}
    (h : (scan source).tokens = u ++ t :: v) :
    ∃ cs after, source.toList = cs ++ (t.text.toList ++ after) ∧
      Spells cs (u.map (·.lexeme)) (t.text.toList ++ after) ∧ t.offset = cs.length ∧
      t.lexeme.Stands after.head? := by
  have hstart : ((Cursor.start source).scanOnto []).tokens = [].reverse ++ (u ++ t :: v) := h
  obtain ⟨cs, after, hcs, hspells, hoffset, hstands⟩ := Cursor.scanOnto_split hstart
  exact ⟨cs, after, hcs, hspells, by rw [hoffset, Cursor.start, Nat.zero_add], hstands⟩

/-- A text that is one numeral. -/
theorem Numeral.ends_of_lexemes {s : String} (h : lexemes s = [.number s]) :
    Numeral.Ends s.toList none := by
  obtain ⟨t, ht, hlexeme⟩ := List.map_eq_singleton_iff.mp h
  obtain ⟨cs, after, hs, -, -, hstands⟩ := scan_split (u := []) (v := []) ht
  have hstands : t.lexeme.Stands none := hstands.none
  rw [hlexeme] at hstands
  exact hstands

/-- A text that scans to its end is spelled by its lexemes. -/
theorem spells_of_scan {source : String} {offset : Nat} (h : (scan source).ending = .ok offset) :
    Spells source.toList (lexemes source) [] ∧ offset = source.toList.length := by
  obtain ⟨ts, hts⟩ := (Cursor.start source).exists_tokens []
  have hall := Cursor.scanOnto_end hts h
  rw [lexemes, scan, hts, List.reverse_nil, List.nil_append]
  exact ⟨hall.1, by rw [hall.2, Cursor.start, Nat.zero_add]⟩

/-- A text scans to its end exactly if it is spelled by its lexemes. -/
theorem spells_iff_scan {source : String} {ls : List Lexeme} :
    Spells source.toList ls [] ↔ lexemes source = ls ∧ (scan source).ending.isOk = true := by
  constructor
  · intro h
    obtain ⟨hlexemes, hend⟩ := scan_of_spells h
    exact ⟨hlexemes, by rw [hend]; rfl⟩
  · rintro ⟨rfl, hok⟩
    cases hend : (scan source).ending with
    | error e => rw [hend] at hok; cases hok
    | ok offset => exact (spells_of_scan hend).1

end Formula
