import Formula.Proofs.Numerals
import Formula.Token.Scan

/-!
# What a scan gives the parser

A token records how a sign standing there would be read, which the scanner decides from the nearest
character before it.  The parser can be understood without characters: how a sign is read depends on
the token before it.

* `scan_signed`: a sign is unary at the start and after `(`, `,`, `*`, `/` and `^`, doubled after
  another sign, and binary after an operand.
* `value?_of_mem_scan`: a numeral that was scanned denotes a number.
* `scan_of_white`: a text of white characters has no tokens.
-/

namespace Formula

/-- How a sign is to be read after a lexeme, or at the start. -/
def SignContext.afterLexeme : Option Lexeme → SignContext
  | none => unary
  | some (.number _) | some (.name _) | some .closeParen => binary
  | some .openParen | some .comma => unary
  | some (.operator op) => if op.isSign then doubled else unary

/-- Each token knows how a sign is read after the lexeme before it. -/
def Token.Signed : Option Lexeme → List Token → Prop
  | _, [] => True
  | previous, t :: ts => t.sign = .afterLexeme previous ∧ Signed (some t.lexeme) ts

theorem Token.Signed.of_append {previous : Option Lexeme} {u v : List Token}
    (h : Signed previous (u ++ v)) : Signed previous u := by
  induction u generalizing previous with
  | nil => trivial
  | cons t u ih => exact ⟨h.1, ih h.2⟩

/-! ## The last character of a lexeme -/

theorem Text.isNameChar_of_isDigit {c : Char} (h : Text.isDigit c = true) :
    Text.isNameChar c = true := by
  have hd : c.isDigit = true := h
  simp [Text.isNameChar, Char.isAlphanum, hd]

/-- After the end of an operand a sign is binary. -/
theorem SignContext.after_of_operand {c : Char} (h : Text.isNameChar c = true ∨ c = '.') :
    SignContext.after (some c) = .binary := by
  have hne : c ≠ '(' ∧ c ≠ ',' ∧ c ≠ '*' ∧ c ≠ '/' ∧ c ≠ '^' ∧ c ≠ '+' ∧ c ≠ '-' := by
    refine ⟨?_, ?_, ?_, ?_, ?_, ?_, ?_⟩ <;> rintro rfl <;> revert h <;> decide
  obtain ⟨h₁, h₂, h₃, h₄, h₅, h₆, h₇⟩ := hne
  simp [SignContext.after, h₁, h₂, h₃, h₄, h₅, h₆, h₇]

theorem Numeral.Literal.getLast {cs : List Char} (h : Numeral.Literal cs) :
    cs ≠ [] ∧ ∀ c ∈ cs.getLast?, Text.isDigit c = true ∨ c = '.' := by
  cases h with
  | plain mantissa =>
    cases mantissa with
    | whole digits nonempty =>
      exact ⟨nonempty, fun c hc => .inl (digits c (List.mem_of_mem_getLast? hc))⟩
    | @point ds fs digits fraction =>
      refine ⟨by simp, fun c hc => ?_⟩
      rw [List.getLast?_append_cons] at hc
      rcases List.mem_cons.mp (List.mem_of_mem_getLast? hc) with rfl | hm
      · exact .inr rfl
      · exact .inl (fraction c hm)
  | @scaled m sign ds mark mantissa isMark isSign digits nonempty =>
    refine ⟨by simp, fun c hc => ?_⟩
    rw [List.getLast?_append_cons, ← List.cons_append,
      List.getLast?_append_of_ne_nil _ nonempty] at hc
    exact .inl (digits c (List.mem_of_mem_getLast? hc))

namespace Lexeme

theorem after_of_ofChar? {c : Char} {l : Lexeme} (h : ofChar? c = some l) :
    SignContext.after (some c) = .afterLexeme (some l) := by
  unfold ofChar? at h
  split at h
  · cases h; rfl
  · cases h; rfl
  · cases h; rfl
  · obtain ⟨op, hop, rfl⟩ := Option.map_eq_some_iff.mp h
    unfold Operator.ofSymbol? at hop
    split at hop <;> cases hop <;> rfl

/-- How a sign is read after a lexeme is decided by the last character of the lexeme. -/
theorem after_of_read {c : Char} {cs : List Char} {l : Lexeme} {n : Nat}
    (h : read c cs = .ok (l, n)) :
    SignContext.after (((c :: cs).take n).getLast?) = .afterLexeme (some l) := by
  have hoperand : ∀ {ds : List Char}, ds ≠ [] →
      (∀ d ∈ ds.getLast?, Text.isNameChar d = true ∨ d = '.') →
      SignContext.after ds.getLast? = .binary := by
    intro ds hne hlast
    have hd : ds.getLast? = some (ds.getLast hne) := List.getLast?_eq_some_getLast hne
    rw [hd]
    exact SignContext.after_of_operand (hlast _ hd)
  simp only [read] at h
  split at h
  · cases h
  · rename_i hn
    cases h
    obtain ⟨hne, hlast⟩ := (Numeral.literal_of_length? hn).getLast
    exact hoperand hne fun d hd => (hlast d hd).imp_left Text.isNameChar_of_isDigit
  · split at h
    · rename_i halpha
      cases h
      have htake : (c :: cs).take (nameLength (c :: cs)) = c :: cs.takeWhile Text.isNameChar := by
        rw [nameLength, List.tail_cons, Nat.add_comm, List.take_succ_cons,
          ← List.prefix_iff_eq_take.mp (List.takeWhile_prefix Text.isNameChar)]
      rw [htake]
      refine hoperand (List.cons_ne_nil _ _) fun d hd => .inl ?_
      rcases List.mem_cons.mp (List.mem_of_mem_getLast? hd) with rfl | hm
      · simp [Text.isNameChar, Char.isAlphanum, halpha]
      · exact List.mem_takeWhile_imp hm
    · split at h
      · rename_i hchar
        cases h
        exact after_of_ofChar? hchar
      · cases h

/-- A numeral that was read denotes a number. -/
theorem value?_of_read {c : Char} {cs : List Char} {s : String} {n : Nat}
    (h : read c cs = .ok (.number s, n)) : (Pool.value? s).isSome = true := by
  simp only [read] at h
  split at h
  · cases h
  · rename_i hn
    cases h
    exact (Numeral.literal_of_length? hn).value?_isSome
  · split at h
    · cases h
    · split at h
      · rename_i hchar
        cases h
        unfold ofChar? at hchar
        split at hchar <;> simp at hchar
      · cases h

end Lexeme

/-! ## The tokens of a text -/

namespace Cursor

/-- What one token says about the cursors before and after it. -/
theorem next_spec {k k' : Cursor} {t : Token} (h : k.next = .ok (some (t, k'))) :
    t.sign = .after k.before ∧ SignContext.after k'.before = .afterLexeme (some t.lexeme) ∧
      ∃ c cs n, Lexeme.read c cs = .ok (t.lexeme, n) := by
  simp only [next] at h
  split at h
  · cases h
  · rename_i c cs hrest
    split at h
    · cases h
    · rename_i lexeme n hread
      cases h
      refine ⟨rfl, ?_, c, cs, n, hread⟩
      show SignContext.after ((k.skipBlanks.rest.take n).getLast?) = _
      rw [hrest]
      exact Lexeme.after_of_read hread

theorem scanOnto_spec (k : Cursor) (seen : List Token) (previous : Option Lexeme)
    (hk : SignContext.after k.before = .afterLexeme previous) :
    ∃ ts, (k.scanOnto seen).tokens = seen.reverse ++ ts ∧ Token.Signed previous ts ∧
      ∀ t ∈ ts, ∃ c cs n, Lexeme.read c cs = .ok (t.lexeme, n) := by
  induction k, seen using Cursor.scanOnto.induct generalizing previous with
  | case1 k seen e h =>
    refine ⟨[], ?_, trivial, by simp⟩
    rw [scanOnto]
    split
    · exact (List.append_nil _).symm
    · simp_all
    · simp_all
  | case2 k seen h =>
    refine ⟨[], ?_, trivial, by simp⟩
    rw [scanOnto]
    split
    · simp_all
    · exact (List.append_nil _).symm
    · simp_all
  | case3 k seen t k' h ih =>
    obtain ⟨hsign, hafter, hread⟩ := next_spec h
    obtain ⟨ts, htokens, hsigned, hall⟩ := ih (some t.lexeme) hafter
    refine ⟨t :: ts, ?_, ⟨hsign.trans hk, hsigned⟩, List.forall_mem_cons.mpr ⟨hread, hall⟩⟩
    rw [scanOnto]
    split
    · simp_all
    · simp_all
    · rename_i h'
      rw [h] at h'
      cases h'
      rw [htokens]
      simp

end Cursor

/-- **A sign is read by the token before it.** -/
theorem scan_signed (source : String) : Token.Signed none (scan source).tokens := by
  obtain ⟨ts, htokens, hsigned, -⟩ := (Cursor.start source).scanOnto_spec [] none rfl
  rwa [scan, htokens]

/-- A numeral that was scanned denotes a number. -/
theorem value?_of_mem_scan {source : String} {t : Token} {s : String}
    (ht : t ∈ (scan source).tokens) (hs : t.lexeme = .number s) :
    (Pool.value? s).isSome = true := by
  obtain ⟨ts, htokens, -, hall⟩ := (Cursor.start source).scanOnto_spec [] none rfl
  rw [scan, htokens] at ht
  obtain ⟨c, cs, n, hread⟩ := hall t (by simpa using ht)
  rw [hs] at hread
  exact Lexeme.value?_of_read hread

/-! ## White texts -/

theorem Text.isWhite_of_bounds {c : Char} (h : 33 ≤ c.toNat ∧ c.toNat ≤ 126) :
    Text.isWhite c = false := by
  simp only [Text.isWhite, Bool.or_eq_false_iff, Bool.and_eq_false_iff, beq_eq_false_iff_ne,
    decide_eq_false_iff_not]
  omega

theorem Text.toNat_of_isDigit {c : Char} (h : Text.isDigit c = true) :
    48 ≤ c.toNat ∧ c.toNat ≤ 57 := Char.isDigit_iff_toNat.mp h

theorem Text.toNat_of_isAlpha {c : Char} (h : c.isAlpha = true) :
    65 ≤ c.toNat ∧ c.toNat ≤ 122 := by
  rcases Bool.or_eq_true_iff.mp h with h | h
  · have hupper : 'A'.val ≤ c.val ∧ c.val ≤ 'Z'.val := of_decide_eq_true h
    rw [UInt32.le_iff_toNat_le, UInt32.le_iff_toNat_le] at hupper
    exact ⟨hupper.1, Nat.le_trans hupper.2 (by decide)⟩
  · obtain ⟨hlow, hhigh⟩ := Bool.and_eq_true_iff.mp h
    have hlow' : 'a'.val ≤ c.val := of_decide_eq_true hlow
    have hhigh' : c.val ≤ 'z'.val := of_decide_eq_true hhigh
    rw [UInt32.le_iff_toNat_le] at hlow' hhigh'
    exact ⟨Nat.le_trans (by decide) hlow', hhigh'⟩

theorem Text.isWhite_of_isDigit {c : Char} (h : Text.isDigit c = true) :
    Text.isWhite c = false := by
  obtain ⟨hlow, hhigh⟩ := Text.toNat_of_isDigit h
  exact Text.isWhite_of_bounds ⟨by omega, by omega⟩

theorem Text.isWhite_of_isAlpha {c : Char} (h : c.isAlpha = true) : Text.isWhite c = false := by
  obtain ⟨hlow, hhigh⟩ := Text.toNat_of_isAlpha h
  exact Text.isWhite_of_bounds ⟨by omega, by omega⟩

/-- No lexeme begins with a white character. -/
theorem Lexeme.isWhite_of_read {c : Char} {cs : List Char} {l : Lexeme} {n : Nat}
    (h : Lexeme.read c cs = .ok (l, n)) : Text.isWhite c = false := by
  simp only [Lexeme.read] at h
  split at h
  · cases h
  · rename_i hn
    cases h
    have hpos := Numeral.length?_pos hn
    obtain ⟨m, rfl⟩ := Nat.exists_eq_succ_of_ne_zero hpos.ne'
    rcases (Numeral.literal_of_length? hn).head c (by simp) with hdigit | rfl
    · exact Text.isWhite_of_isDigit hdigit
    · decide
  · split at h
    · rename_i halpha
      exact Text.isWhite_of_isAlpha halpha
    · split at h
      · rename_i hchar
        unfold Lexeme.ofChar? at hchar
        split at hchar
        · decide
        · decide
        · decide
        · obtain ⟨op, hop, -⟩ := Option.map_eq_some_iff.mp hchar
          unfold Operator.ofSymbol? at hop
          split at hop <;> first | decide | cases hop
      · cases h

/-- A text of white characters has no tokens. -/
theorem scan_of_white {source : String} (h : source.toList.all Text.isWhite = true) :
    (scan source).tokens = [] := by
  have hnext : ∀ t k', (Cursor.start source).next ≠ .ok (some (t, k')) := by
    intro t k' hn
    simp only [Cursor.next] at hn
    split at hn
    · cases hn
    · rename_i c cs hrest
      split at hn
      · cases hn
      · rename_i lexeme n hread
        have hmem : c ∈ source.toList := by
          refine (List.dropWhile_sublist Text.isBlank).subset ?_
          have hr : source.toList.dropWhile Text.isBlank = c :: cs := hrest
          rw [hr]
          exact List.mem_cons_self
        have hwhite := List.all_eq_true.mp h c hmem
        rw [Lexeme.isWhite_of_read hread] at hwhite
        cases hwhite
  rw [scan, Cursor.scanOnto]
  split
  · rfl
  · rfl
  · rename_i t k' hn
    exact absurd hn (hnext t k')

end Formula
