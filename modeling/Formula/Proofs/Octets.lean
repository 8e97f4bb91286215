import Mathlib.Data.List.Basic
import Formula.Proofs.Places

/-!
# Texts as bytes

A formula is worked on as its list of characters, and its offsets count bytes.  Here the bytes
themselves are looked at.  `Text.octets` gives them as characters, each byte as the character of its
number, so that digits, blanks and letters are the same classes on both sides.

A character of one byte is its own byte, and every byte of another character is `Foreign`: it lies
outside of the 128 characters that a lexeme or a blank can begin with.  So a text and its bytes
begin alike, up to the first foreign character (`sameStart_spread`).  Two things follow for
everything that only looks at characters of one byte.

* It may be read off the bytes from an offset on (`drop_spread`), and at an offset inside of a
  character there is nothing to be found (`foreign_of_splitAtByte?`).
* Looking back for the nearest byte that is not blank decides as much about a sign as looking back
  for the nearest character (`ofOffset?_eq_octets`).
-/

namespace Formula
namespace Text

/-- The bytes of a text, each as the character of its number. -/
def octets (source : String) : List Char := source.toUTF8.data.toList.map Char.ofUInt8

/-- The bytes of a character. -/
def charOctets (c : Char) : List Char := (String.utf8EncodeChar c).map Char.ofUInt8

/-- The bytes of characters. -/
def spread (cs : List Char) : List Char := cs.flatMap charOctets

/-- A character outside of the 128 that have one byte. -/
def Foreign (c : Char) : Prop := 128 ≤ c.toNat

instance : DecidablePred Foreign := fun c => inferInstanceAs (Decidable (128 ≤ c.toNat))

/-! ## The bytes of a character -/

theorem octets_eq_spread (source : String) : octets source = spread source.toList := by
  rw [octets, String.toUTF8_eq_toByteArray, ← String.utf8Encode_toList, List.utf8Encode,
    List.toList_data_toByteArray, List.map_flatMap]
  rfl

theorem length_charOctets (c : Char) : (charOctets c).length = c.utf8Size := by
  rw [charOctets, List.length_map, String.length_utf8EncodeChar]

theorem charOctets_ne_nil (c : Char) : charOctets c ≠ [] := by
  rw [← List.length_pos_iff, length_charOctets]
  exact c.utf8Size_pos

theorem utf8Size_eq_one_iff {c : Char} : c.utf8Size = 1 ↔ ¬ Foreign c := by
  rw [Char.utf8Size_eq_one_iff, UInt32.le_iff_toNat_le, Foreign]
  show c.toNat ≤ 127 ↔ _
  omega

theorem toNat_ofUInt8 (b : UInt8) : (Char.ofUInt8 b).toNat = b.toNat := UInt8.toNat_toUInt32 b

/-- A character of one byte is its own byte. -/
theorem charOctets_of_plain {c : Char} (h : ¬ Foreign c) : charOctets c = [c] := by
  have hsize : c.utf8Size = 1 := utf8Size_eq_one_iff.mpr h
  rw [charOctets, String.utf8EncodeChar_eq_singleton hsize, List.map_singleton]
  congr 1
  apply Char.ext
  rw [← UInt32.toNat_inj]
  show (Char.ofUInt8 c.val.toUInt8).toNat = c.toNat
  rw [toNat_ofUInt8, UInt32.toNat_toUInt8]
  show c.toNat % 256 = c.toNat
  unfold Foreign at h
  omega

/-- Every byte of a character that has more than one is foreign. -/
theorem foreign_of_mem_charOctets {c d : Char} (h : Foreign c) (hd : d ∈ charOctets c) :
    Foreign d := by
  obtain ⟨b, hb, rfl⟩ := List.mem_map.mp hd
  have hbyte : ∀ m k : Nat, 128 ≤ k → m + k < 256 → 128 ≤ (UInt8.ofNat (m + k)).toNat := by
    intro m k hk hlt
    rw [UInt8.toNat_ofNat', Nat.mod_eq_of_lt hlt]
    omega
  have hlarge : ¬ c.val.toNat ≤ 127 := Nat.not_le.mpr h
  rw [Foreign, toNat_ofUInt8]
  -- one case for each number of bytes, each byte with a marker of at least 128
  simp only [String.utf8EncodeChar] at hb
  split at hb
  · contradiction
  · split at hb
    · simp only [List.mem_cons, List.not_mem_nil, or_false] at hb
      rcases hb with rfl | rfl <;> exact hbyte _ _ (by decide) (by omega)
    · split at hb
      · simp only [List.mem_cons, List.not_mem_nil, or_false] at hb
        rcases hb with rfl | rfl | rfl <;> exact hbyte _ _ (by decide) (by omega)
      · simp only [List.mem_cons, List.not_mem_nil, or_false] at hb
        rcases hb with rfl | rfl | rfl | rfl <;> exact hbyte _ _ (by decide) (by omega)

/-! ## The bytes of characters -/

theorem spread_cons (c : Char) (cs : List Char) : spread (c :: cs) = charOctets c ++ spread cs :=
  List.flatMap_cons

theorem spread_append (cs ds : List Char) : spread (cs ++ ds) = spread cs ++ spread ds :=
  List.flatMap_append

theorem length_spread (cs : List Char) : (spread cs).length = byteLength cs := by
  induction cs with
  | nil => rfl
  | cons c cs ih => rw [spread_cons, List.length_append, length_charOctets, ih, byteLength]

/-- Characters of one byte are their own bytes. -/
theorem spread_of_plain {cs : List Char} (h : ∀ c ∈ cs, c.utf8Size = 1) : spread cs = cs := by
  induction cs with
  | nil => rfl
  | cons c cs ih =>
    obtain ⟨hc, hcs⟩ := List.forall_mem_cons.mp h
    rw [spread_cons, charOctets_of_plain (utf8Size_eq_one_iff.mp hc), ih hcs,
      List.singleton_append]

/-- Cutting a text cuts its bytes. -/
theorem take_spread {cs before after : List Char} {n : Nat}
    (h : splitAtByte? cs n = some (before, after)) : (spread cs).take n = spread before := by
  obtain ⟨rfl, hbytes⟩ := splitAtByte?_eq_some h
  rw [spread_append, ← hbytes, ← length_spread, List.take_left]

theorem drop_spread {cs before after : List Char} {n : Nat}
    (h : splitAtByte? cs n = some (before, after)) : (spread cs).drop n = spread after := by
  obtain ⟨rfl, hbytes⟩ := splitAtByte?_eq_some h
  rw [spread_append, ← hbytes, ← length_spread, List.drop_left]

theorem foreign_of_splitOnto {seen cs : List Char} {n : Nat} (h : splitOnto seen cs n = none) :
    ∀ c ∈ ((spread cs).drop n).head?, Foreign c := by
  induction cs generalizing seen n with
  | nil => simp [spread]
  | cons c cs ih =>
    cases n with
    | zero => cases h
    | succ n =>
      rw [splitOnto] at h
      rw [spread_cons, List.drop_append, length_charOctets]
      split at h
      · rename_i hle
        rw [List.drop_of_length_le (length_charOctets c ▸ hle), List.nil_append]
        exact ih h
      · -- the place is behind the first byte of a character that has more of them
        have hpos : 0 < ((charOctets c).drop (n + 1)).length := by
          rw [List.length_drop, length_charOctets]
          omega
        have hc : Foreign c := not_not.mp (mt utf8Size_eq_one_iff.mpr (by omega))
        intro d hd
        rw [List.head?_append_of_ne_nil _ (List.ne_nil_of_length_pos hpos)] at hd
        exact foreign_of_mem_charOctets hc (List.mem_of_mem_drop (List.mem_of_mem_head? hd))

/-- Where a text cannot be cut stands a byte of a foreign character, or nothing. -/
theorem foreign_of_splitAtByte? {cs : List Char} {n : Nat} (h : splitAtByte? cs n = none) :
    ∀ c ∈ ((spread cs).drop n).head?, Foreign c := foreign_of_splitOnto h

/-! ## Texts that begin alike -/

/-- Two texts have the same characters up to a place where each of them ends or goes on with a
foreign character. -/
inductive SameStart : List Char → List Char → Prop
  | foreign {cs ds : List Char} (left : ∀ c ∈ cs.head?, Foreign c)
      (right : ∀ d ∈ ds.head?, Foreign d) : SameStart cs ds
  | cons (c : Char) {cs ds : List Char} (rest : SameStart cs ds) : SameStart (c :: cs) (c :: ds)

/-- **A text and its bytes begin alike.** -/
theorem sameStart_spread (cs : List Char) : SameStart cs (spread cs) := by
  induction cs with
  | nil => exact .foreign (by simp) (by simp [spread])
  | cons c cs ih =>
    by_cases hc : Foreign c
    · refine .foreign (by simpa using hc) fun d hd => ?_
      rw [spread_cons, List.head?_append_of_ne_nil _ (charOctets_ne_nil c)] at hd
      exact foreign_of_mem_charOctets hc (List.mem_of_mem_head? hd)
    · rw [spread_cons, charOctets_of_plain hc]
      exact .cons c ih

namespace SameStart

variable {cs ds : List Char} {c : Char}

theorem head?_eq_some_iff (h : SameStart cs ds) (hc : ¬ Foreign c) :
    cs.head? = some c ↔ ds.head? = some c := by
  cases h with
  | foreign left right => exact ⟨fun hs => absurd (left c hs) hc, fun hs => absurd (right c hs) hc⟩
  | cons => simp

theorem head?_beq (h : SameStart cs ds) (hc : ¬ Foreign c) :
    (cs.head? == some c) = (ds.head? == some c) := by
  rw [Bool.eq_iff_iff, beq_iff_eq, beq_iff_eq]
  exact h.head?_eq_some_iff hc

/-- Behind a common first character. -/
theorem drop_one (h : SameStart cs ds) (hc : ¬ Foreign c) (hs : cs.head? = some c) :
    SameStart (cs.drop 1) (ds.drop 1) := by
  cases h with
  | foreign left right => exact absurd (left c hs) hc
  | cons c rest => exact rest

end SameStart

/-! ## Classes of characters -/

theorem isDigit_of_foreign {c : Char} (h : Foreign c) : isDigit c = false := by
  rw [Bool.eq_false_iff]
  intro hdigit
  have hle := (toNat_of_isDigit hdigit).2
  unfold Foreign at h
  omega

theorem utf8Size_of_isBlank {c : Char} (h : isBlank c = true) : c.utf8Size = 1 := by
  simp only [isBlank, Bool.or_eq_true, beq_iff_eq] at h
  rcases h with (((rfl | rfl) | rfl) | rfl) | rfl <;> decide

theorem isBlank_of_foreign {c : Char} (h : Foreign c) : isBlank c = false := by
  rw [Bool.eq_false_iff]
  intro hblank
  exact utf8Size_eq_one_iff.mp (utf8Size_of_isBlank hblank) h

theorem isNameChar_of_foreign {c : Char} (h : Foreign c) : isNameChar c = false := by
  rw [Bool.eq_false_iff]
  intro hname
  exact utf8Size_eq_one_iff.mp (Lexeme.utf8Size_of_isNameChar hname) h

end Text

open Text

/-! ## Looking back -/

/-- A sign after a foreign character is binary. -/
theorem SignContext.after_of_foreign {c : Char} (h : Foreign c) :
    SignContext.after (some c) = .binary := by
  have hne : ∀ d : Char, ¬ Foreign d → c ≠ d := by
    rintro d hd rfl
    exact hd h
  simp [SignContext.after, hne '(' (by decide), hne ',' (by decide), hne '*' (by decide),
    hne '/' (by decide), hne '^' (by decide), hne '+' (by decide), hne '-' (by decide)]

/-- Looking back over bytes finds a foreign byte where looking back over characters finds a foreign
character, and else the same. -/
theorem after_nearest?_spread (cs : List Char) :
    SignContext.after (nearest? (spread cs)) = SignContext.after (nearest? cs) := by
  induction cs using List.reverseRecOn with
  | nil => rfl
  | append_singleton cs c ih =>
    have hbytes : spread (cs ++ [c]) = spread cs ++ charOctets c := by
      rw [spread_append, spread_cons]
      exact congrArg (spread cs ++ ·) (List.append_nil _)
    rw [hbytes, nearest?_append, nearest?_append]
    by_cases hc : Foreign c
    · obtain ⟨d, hd⟩ : ∃ d, (charOctets c).getLast? = some d :=
        ⟨_, List.getLast?_eq_some_getLast (charOctets_ne_nil c)⟩
      have hforeign := foreign_of_mem_charOctets hc (List.mem_of_mem_getLast? hd)
      rw [nearest?_of_getLast hd (isBlank_of_foreign hforeign),
        nearest?_of_getLast List.getLast?_singleton (isBlank_of_foreign hc), Option.some_or,
        Option.some_or, SignContext.after_of_foreign hforeign, SignContext.after_of_foreign hc]
    · rw [charOctets_of_plain hc]
      cases hlast : nearest? [c] with
      | none => exact ih
      | some d => rfl

/-- **How a sign is read can be looked up in the bytes before it,** wherever the text can be cut. -/
theorem ofOffset?_eq_octets {source : String} {offset : Nat} {context : SignContext}
    (h : SignContext.ofOffset? source offset = some context) :
    context = .after (nearest? ((octets source).take offset)) := by
  obtain ⟨⟨before, after⟩, hsplit, rfl⟩ := Option.map_eq_some_iff.mp h
  rw [octets_eq_spread, take_spread hsplit, after_nearest?_spread]
  rfl

/-- What a lexeme before a sign makes of it. -/
theorem SignContext.afterLexeme_iff (l : Option Lexeme) :
    (afterLexeme l = unary ↔ l = none ∨ l = some .openParen ∨ l = some .comma ∨
      l = some (.operator .star) ∨ l = some (.operator .slash) ∨ l = some (.operator .caret)) ∧
    (afterLexeme l = doubled ↔ l = some (.operator .plus) ∨ l = some (.operator .minus)) ∧
    (afterLexeme l = binary ↔
      (∃ s, l = some (.number s)) ∨ (∃ s, l = some (.name s)) ∨ l = some .closeParen) := by
  cases l with
  | none => simp [afterLexeme]
  | some l =>
    cases l with
    | operator op => cases op <;> simp [afterLexeme, Operator.isSign]
    | number | name | openParen | closeParen | comma => simp [afterLexeme]

/-- **A sign is read by the byte before it as it is by the token before it.**  At the offset of any
token that is scanned, a sign or another, looking back in the text for the nearest character that is
not blank gives a context, and looking back in the bytes for the nearest byte gives the same.  With
`u` the tokens before, the context is unary if there are none or the last of them is an open
parenthesis, a comma, `*`, `/` or `^`, doubled if it is a sign, and binary if it is a numeral, a
name or a closing parenthesis, and in no other cases. -/
theorem ofOffset?_by_token {source : String} {u v : List Token} {t : Token}
    (htokens : (scan source).tokens = u ++ t :: v) :
    ∃ context, SignContext.ofOffset? source t.offset = some context ∧
      context = .after (nearest? ((octets source).take t.offset)) ∧
      (context = .unary ↔ u = [] ∨ ∃ p ∈ u.getLast?, p.lexeme = .openParen ∨ p.lexeme = .comma ∨
        p.lexeme = .operator .star ∨ p.lexeme = .operator .slash ∨
        p.lexeme = .operator .caret) ∧
      (context = .doubled ↔
        ∃ p ∈ u.getLast?, p.lexeme = .operator .plus ∨ p.lexeme = .operator .minus) ∧
      (context = .binary ↔ ∃ p ∈ u.getLast?,
        (∃ s, p.lexeme = .number s) ∨ (∃ s, p.lexeme = .name s) ∨ p.lexeme = .closeParen) := by
  have hmem : t ∈ (scan source).tokens := by simp [htokens]
  have hofOffset := ofOffset?_token hmem
  have hsigned := scan_signed source
  rw [htokens] at hsigned
  have hcontext : t.sign = .afterLexeme (u.map (·.lexeme)).getLast? := by
    rw [hsigned.sign_eq, Option.or_none]
  refine ⟨t.sign, hofOffset, ofOffset?_eq_octets hofOffset, ?_⟩
  obtain ⟨hunary, hdoubled, hbinary⟩ := SignContext.afterLexeme_iff (u.map (·.lexeme)).getLast?
  rw [hcontext, hunary, hdoubled, hbinary, List.getLast?_map]
  rcases List.eq_nil_or_concat u with rfl | ⟨w, p, rfl⟩ <;> simp

/-- Two signs with a form feed between them, the first after a numeral that has a sign inside. -/
theorem ofOffset?_by_token_doubled :
    (scan "x_*1.e-5 -\x0c+2").tokens =
        [⟨.name "x_", 0, .unary⟩, ⟨.operator .star, 2, .binary⟩, ⟨.number "1.e-5", 3, .unary⟩,
          ⟨.operator .minus, 9, .binary⟩] ++ ⟨.operator .plus, 11, .doubled⟩ ::
        [⟨.number "2", 12, .doubled⟩] ∧
      SignContext.ofOffset? "x_*1.e-5 -\x0c+2" 11 = some .doubled := by
  have htokens : (scan "x_*1.e-5 -\x0c+2").tokens =
      [⟨.name "x_", 0, .unary⟩, ⟨.operator .star, 2, .binary⟩, ⟨.number "1.e-5", 3, .unary⟩,
        ⟨.operator .minus, 9, .binary⟩] ++ ⟨.operator .plus, 11, .doubled⟩ ::
      [⟨.number "2", 12, .doubled⟩] := by decide +kernel
  obtain ⟨context, hcontext, -, -, hdoubled, -⟩ := ofOffset?_by_token htokens
  have hprevious : context = .doubled := hdoubled.mpr ⟨_, rfl, .inr rfl⟩
  exact ⟨htokens, hprevious ▸ hcontext⟩

end Formula
