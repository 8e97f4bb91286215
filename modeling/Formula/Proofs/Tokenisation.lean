import Formula.Proofs.Carets
import Formula.Proofs.Octets

/-!
# A scan loses nothing

Scanning a text is calling for its tokens one by one.  `Cursor.perform` makes calls in order on one
cursor, each of them taking a token or only looking at it, and gives the answers.

* **Calls.**  Taking tokens from the start of a text on answers the tokens of `scan` in order, and
  then with the end of the text or with an error.  There are at most as many tokens as bytes,
  because none is empty (`scan_tokenises`).
* **Places.**  `Tiles` says that characters are tokens at their places with blanks before, between
  and after them.  One call adds one token to it (`tiles_cons`), and the order of the tokens and
  what stands between them are read off.
* **The last call** leaves the cursor where the text cannot be cut into more tokens: at its end, or
  in front of the lexeme that cannot be read (`Cursor.Stops`).

Looking at a token takes a copy of the cursor forward and throws it away, so that looking is
invisible to all later calls.
-/

namespace Formula

open Text

/-! ## Calls -/

namespace Cursor

/-- What a cursor is asked for: to look at the next token, or to take it. -/
inductive Request where
  | peek
  | take
  deriving DecidableEq, Repr

/-- What it answers: a token, or the end of the text with its offset. -/
inductive Reply where
  | token (t : Token)
  | ending (offset : Nat)
  deriving DecidableEq, Repr

/-- Takes the next token.  Where there is none the cursor stays behind the blanks. -/
def take (k : Cursor) : Except SourceError Reply × Cursor :=
  match k.next with
  | .error e => (.error e, k.skipBlanks)
  | .ok none => (.ok (.ending k.skipBlanks.offset), k.skipBlanks)
  | .ok (some (t, k')) => (.ok (.token t), k')

/-- Looks at the next token.  It is taken off a copy. -/
def peek (k : Cursor) : Except SourceError Reply × Cursor := (k.take.1, k)

/-- Makes one call: the answer, and the cursor after it. -/
def call (k : Cursor) : Request → Except SourceError Reply × Cursor
  | .peek => k.peek
  | .take => k.take

/-- Makes calls in order: the answers, and the cursor after the last. -/
def perform (k : Cursor) : List Request → List (Except SourceError Reply) × Cursor
  | [] => ([], k)
  | request :: requests =>
    let (reply, k') := k.call request
    let (replies, last) := k'.perform requests
    (reply :: replies, last)

theorem perform_append (k : Cursor) (u v : List Request) :
    k.perform (u ++ v) =
      ((k.perform u).1 ++ ((k.perform u).2.perform v).1, ((k.perform u).2.perform v).2) := by
  induction u generalizing k with
  | nil => rfl
  | cons c u ih => simp only [List.cons_append, perform, ih]

/-! ## The last call -/

/-- Where a cursor has stopped for good: at the end of the text, or in front of a lexeme that cannot
be read. -/
inductive Stops (k : Cursor) : Except SourceError Nat → Prop
  | ending (rest : k.rest = []) : Stops k (.ok k.offset)
  | lexeme {c : Char} {after : List Char} {distance : Nat} {cause : Cause}
      (rest : k.rest = c :: after) (notBlank : Text.isBlank c = false)
      (refused : Lexeme.read c after = .error (distance, cause)) :
      Stops k (.error ⟨k.offset + distance, cause⟩)

theorem stops_of_error {k : Cursor} {e : SourceError} (h : k.next = .error e) :
    k.skipBlanks.Stops (.error e) := by
  simp only [next] at h
  split at h
  · cases h
  · rename_i c after hrest
    split at h
    · rename_i hread
      cases h
      refine .lexeme hrest ?_ hread
      have hhead := List.head?_dropWhile_not Text.isBlank k.rest
      have hdrop : k.rest.dropWhile Text.isBlank = c :: after := hrest
      rw [hdrop] at hhead
      simpa using hhead
    · cases h

theorem stops_of_none {k : Cursor} (h : k.next = .ok none) :
    k.skipBlanks.Stops (.ok k.skipBlanks.offset) := by
  simp only [next] at h
  split at h
  · rename_i hrest
    exact .ending hrest
  · split at h <;> cases h

end Cursor

/-! ## Places -/

/-- Characters from an offset on are tokens at their places, of characters of one byte each, with
blanks before, between and after them. -/
inductive Tiles : Nat → List Char → List Token → Prop
  | blanks {offset : Nat} {bs : List Char} (isBlank : ∀ c ∈ bs, Text.isBlank c = true) :
      Tiles offset bs []
  | token {offset : Nat} {bs cs : List Char} {t : Token} {ts : List Token}
      (isBlank : ∀ c ∈ bs, Text.isBlank c = true) (place : t.offset = offset + bs.length)
      (nonempty : t.text.toList ≠ []) (stop : t.stop = t.offset + t.text.toList.length)
      (plain : ∀ c ∈ t.text.toList, c.utf8Size = 1) (more : Tiles t.stop cs ts) :
      Tiles offset (bs ++ (t.text.toList ++ cs)) (t :: ts)

namespace Tiles

variable {offset : Nat} {cs : List Char} {ts : List Token}

/-- All the characters have one byte. -/
theorem utf8Size (h : Tiles offset cs ts) : ∀ c ∈ cs, c.utf8Size = 1 := by
  induction h with
  | blanks isBlank => exact fun c hc => utf8Size_of_isBlank (isBlank c hc)
  | token isBlank place nonempty stop plain more ih =>
    intro c hc
    rcases List.mem_append.mp hc with hc | hc
    · exact utf8Size_of_isBlank (isBlank c hc)
    · rcases List.mem_append.mp hc with hc | hc
      · exact plain c hc
      · exact ih c hc

/-- No token is empty, and they stay among the characters. -/
theorem bounds (h : Tiles offset cs ts) :
    ∀ t ∈ ts, offset ≤ t.offset ∧ t.offset < t.stop ∧ t.stop ≤ offset + cs.length := by
  induction h with
  | blanks => simp
  | @token offset bs cs t ts isBlank place nonempty stop plain more ih =>
    have hpos : 0 < t.text.toList.length := List.length_pos_iff.mpr nonempty
    simp only [List.length_append]
    refine List.forall_mem_cons.mpr ⟨by omega, fun s hs => ?_⟩
    have hs := ih s hs
    omega

/-- The tokens come in order and do not overlap. -/
theorem pairwise (h : Tiles offset cs ts) : ts.Pairwise fun s t => s.stop ≤ t.offset := by
  induction h with
  | blanks => exact List.Pairwise.nil
  | token isBlank place nonempty stop plain more ih =>
    exact List.pairwise_cons.mpr ⟨fun s hs => (more.bounds s hs).1, ih⟩

theorem length_le (h : Tiles offset cs ts) : ts.length ≤ cs.length := by
  induction h with
  | blanks => exact Nat.zero_le _
  | token isBlank place nonempty stop plain more ih =>
    have hpos := List.length_pos_iff.mpr nonempty
    simp only [List.length_append, List.length_cons]
    omega

/-- **Outside of the tokens stand blanks.** -/
theorem blank_of_outside (h : Tiles offset cs ts) {i : Nat} (hi : i < cs.length)
    (houtside : ∀ t ∈ ts, ¬ (t.offset ≤ offset + i ∧ offset + i < t.stop)) :
    ∃ c ∈ cs[i]?, Text.isBlank c = true := by
  induction h generalizing i with
  | blanks isBlank => exact ⟨_, List.getElem?_eq_getElem hi, isBlank _ (List.getElem_mem hi)⟩
  | @token offset bs cs t ts isBlank place nonempty stop plain more ih =>
    obtain ⟨ht, hts⟩ := List.forall_mem_cons.mp houtside
    by_cases hbefore : i < bs.length
    · rw [List.getElem?_append_left hbefore]
      exact ⟨_, List.getElem?_eq_getElem hbefore, isBlank _ (List.getElem_mem hbefore)⟩
    · -- not in the token, so behind it
      have hbehind : bs.length + t.text.toList.length ≤ i := by omega
      obtain ⟨j, rfl⟩ := Nat.exists_eq_add_of_le hbehind
      have hplace : offset + (bs.length + t.text.toList.length + j) = t.stop + j := by omega
      rw [hplace] at hts
      simp only [List.length_append] at hi
      obtain ⟨c, hc, hblank⟩ := ih (i := j) (by omega) hts
      refine ⟨c, ?_, hblank⟩
      rw [List.getElem?_append_right (by omega), List.getElem?_append_right (by omega)]
      rwa [Nat.add_assoc, Nat.add_sub_cancel_left, Nat.add_sub_cancel_left]

end Tiles

namespace Cursor

/-- **One token more.** -/
theorem tiles_cons {k k' : Cursor} {t : Token} (h : k.next = .ok (some (t, k'))) :
    ∃ bs, k.rest = bs ++ (t.text.toList ++ k'.rest) ∧
      k'.offset = k.offset + (bs ++ t.text.toList).length ∧
      ∀ {cs : List Char} {ts : List Token}, Tiles k'.offset cs ts →
        Tiles k.offset (bs ++ (t.text.toList ++ cs)) (t :: ts) := by
  obtain ⟨bs, -, hbs, hrest, hstands, hoffset, hoffset'⟩ := spells_of_next h
  obtain ⟨c, w, htext, -⟩ := Lexeme.read_text hstands
  have hstop : t.stop = t.offset + t.text.toList.length := Token.stop_eq hstands
  have hplace : k'.offset = t.stop := hoffset'.trans hstop.symm
  have hne : t.text.toList ≠ [] := by
    rw [show t.text = t.lexeme.text from rfl, htext]
    exact List.cons_ne_nil c w
  refine ⟨bs, hrest, ?_, fun more => ?_⟩
  · rw [List.length_append]
    omega
  · rw [hplace] at more
    exact .token hbs hoffset hne hstop hstands.utf8Size more

/-- The blanks that are left. -/
theorem tiles_nil (k : Cursor) :
    k.rest = k.rest.takeWhile Text.isBlank ++ k.skipBlanks.rest ∧
      k.skipBlanks.offset = k.offset + (k.rest.takeWhile Text.isBlank).length ∧
      Tiles k.offset (k.rest.takeWhile Text.isBlank) [] :=
  ⟨List.takeWhile_append_dropWhile.symm, rfl, .blanks fun _ hc => List.mem_takeWhile_imp hc⟩

/-- **Taking tokens to the last call.**  They are answered in order, then comes what the scan ends
with, and up to where the cursor has stopped the text is tiled by the tokens. -/
theorem perform_take (k : Cursor) (seen : List Token) :
    ∃ ts cs last, (k.scanOnto seen).tokens = seen.reverse ++ ts ∧
      k.perform (List.replicate (ts.length + 1) .take) =
        (ts.map (fun t => .ok (.token t)) ++ [(k.scanOnto seen).ending.map .ending], last) ∧
      k.rest = cs ++ last.rest ∧ last.offset = k.offset + cs.length ∧ Tiles k.offset cs ts ∧
      last.Stops (k.scanOnto seen).ending := by
  induction k, seen using scanOnto.induct with
  | case1 k seen e h =>
    obtain ⟨hrest, hoffset, htiles⟩ := k.tiles_nil
    rw [scanOnto_of_error h]
    refine ⟨[], _, k.skipBlanks, (List.append_nil _).symm, ?_, hrest, hoffset, htiles,
      stops_of_error h⟩
    simp [perform, call, take, h, Except.map]
  | case2 k seen h =>
    obtain ⟨hrest, hoffset, htiles⟩ := k.tiles_nil
    rw [scanOnto_of_none h]
    refine ⟨[], _, k.skipBlanks, (List.append_nil _).symm, ?_, hrest, hoffset, htiles,
      stops_of_none h⟩
    simp [perform, call, take, h, Except.map]
  | case3 k seen t k' h ih =>
    obtain ⟨ts, cs, last, htokens, hperform, hrest, hoffset, htiles, hstops⟩ := ih
    obtain ⟨bs, hrest', hoffset', hcons⟩ := tiles_cons h
    have htake : k.call .take = (.ok (.token t), k') := by simp only [call, take, h]
    rw [scanOnto_of_some h]
    refine ⟨t :: ts, bs ++ (t.text.toList ++ cs), last, ?_, ?_, ?_, ?_, hcons htiles, hstops⟩
    · rw [htokens, List.reverse_cons, List.append_assoc, List.singleton_append]
    · rw [List.length_cons, List.replicate_succ]
      simp only [perform, htake, hperform]
      rfl
    · rw [hrest', hrest, List.append_assoc, List.append_assoc]
    · rw [hoffset, hoffset']
      simp only [List.length_append]
      omega

end Cursor

/-! ## The tokens of a text -/

/-- A text is tiled by its tokens up to where the last call leaves the cursor. -/
theorem exists_tiles (source : String) :
    ∃ cs rest, source.toList = cs ++ rest ∧ Tiles 0 cs (scan source).tokens := by
  obtain ⟨ts, cs, last, htokens, -, htext, -, htiles, -⟩ := (Cursor.start source).perform_take []
  obtain rfl : (scan source).tokens = ts := htokens
  exact ⟨cs, last.rest, htext, htiles⟩

/-- Every token begins before the end of the text. -/
theorem offset_lt_of_mem_scan {source : String} {t : Token} (ht : t ∈ (scan source).tokens) :
    t.offset < source.utf8ByteSize := by
  obtain ⟨cs, rest, htext, htiles⟩ := exists_tiles source
  have hbounds := htiles.bounds t ht
  have hsize : source.utf8ByteSize = cs.length + byteLength rest := by
    rw [utf8ByteSize_eq, htext, byteLength_append, byteLength_eq_length htiles.utf8Size]
  omega

/-- Tokens at one place are one token. -/
theorem eq_of_offset_eq {source : String} {s t : Token} (hs : s ∈ (scan source).tokens)
    (ht : t ∈ (scan source).tokens) (h : s.offset = t.offset) : s = t := by
  obtain ⟨cs, rest, -, htiles⟩ := exists_tiles source
  have hnodup : ((scan source).tokens.map (·.offset)).Nodup := by
    refine List.pairwise_map.mpr (htiles.pairwise.imp_of_mem fun {a b} ha _ hab heq => ?_)
    have hbounds := htiles.bounds a ha
    omega
  exact List.inj_on_of_nodup_map hnodup hs ht h

/-- Why no lexeme can be read at an offset: a numeral is malformed there, or a character begins
nothing. -/
inductive Unreadable (source : String) (start : Nat) : SourceError → Prop
  | numeral {e : SourceError} (malformed : Numeral.stop? source start = .error e) :
      Unreadable source start e
  | character {before after : List Char} {c : Char}
      (cut : Text.splitAtByte? source.toList start = some (before, c :: after))
      (notBlank : Text.isBlank c = false) (noNumeral : Numeral.stop? source start = .ok none)
      (noName : c.isAlpha = false) (noSymbol : Lexeme.ofChar? c = none) :
      Unreadable source start ⟨start, .illegalCharacter c⟩

/-- Where a cursor has stopped in front of a lexeme, the lexeme cannot be read from the text. -/
theorem Cursor.Stops.unreadable {source : String} {last : Cursor} {e : SourceError}
    {cs : List Char} (h : last.Stops (.error e)) (htext : source.toList = cs ++ last.rest)
    (hoffset : last.offset = byteLength cs) : Unreadable source last.offset e := by
  have hcut : splitAtByte? source.toList last.offset = some (cs, last.rest) := by
    rw [htext, hoffset, splitAtByte?_append]
  cases h with
  | @lexeme c after distance cause rest notBlank refused =>
    rw [rest] at hcut
    unfold Lexeme.read at refused
    split at refused
    · rename_i hlength
      cases refused
      refine .numeral ?_
      simp only [Numeral.stop?, hcut, hlength]
    · cases refused
    · rename_i hlength
      split at refused
      · cases refused
      · rename_i halpha
        split at refused <;> cases refused
        rename_i hsymbol
        refine .character hcut notBlank ?_ (Bool.eq_false_iff.mpr halpha) hsymbol
        simp only [Numeral.stop?, hcut, hlength, Option.map_none]

/-- After a name stands no byte that could go on with it. -/
theorem name_of_mem_scan {source name : String} {t : Token} (ht : t ∈ (scan source).tokens)
    (hname : t.lexeme = .name name) :
    Text.isName name.toList = true ∧
      ∀ c ∈ (octets source)[t.stop]?, Text.isNameChar c = false := by
  obtain ⟨u, v, htokens⟩ := List.append_of_mem ht
  obtain ⟨cs, after, htext, hspells, hoffset, hstands⟩ := scan_split htokens
  have hbytes : t.stop = (spread (cs ++ t.text.toList)).length := by
    rw [spread_append, List.length_append, length_spread, length_spread, hspells.byteLength,
      ← hoffset, Token.stop, utf8ByteSize_eq]
  have hnext : (octets source)[t.stop]? = (spread after).head? := by
    rw [octets_eq_spread, htext, ← List.append_assoc, spread_append, hbytes,
      List.getElem?_append_right (Nat.le_refl _), Nat.sub_self, List.head?_eq_getElem?]
  rw [hname] at hstands
  refine ⟨hstands.1, fun c hc => ?_⟩
  rw [hnext] at hc
  rw [Bool.eq_false_iff]
  intro hchar
  have hplain : ¬ Foreign c := fun hforeign => by
    rw [isNameChar_of_foreign hforeign] at hchar
    cases hchar
  have hhead := ((sameStart_spread after).head?_eq_some_iff hplain).mpr hc
  rw [hstands.2 c hhead] at hchar
  cases hchar

/-- Tokens are spans of a text up to an offset. -/
structure Tokenises (source : String) (tokens : List Token) (limit : Nat) : Prop where
  /-- no span is empty -/
  nonempty : ∀ t ∈ tokens, t.offset < t.stop
  /-- each ends at or before the next begins -/
  ordered : tokens.Pairwise fun s t => s.stop ≤ t.offset
  within : ∀ t ∈ tokens, t.stop ≤ limit
  /-- the text of a token is what stands between its ends, which are between characters -/
  spelled : ∀ t ∈ tokens, Text.slice? source.toList t.offset t.stop = some t.text.toList
  /-- the bytes outside of all spans are blank -/
  blank : ∀ i < limit, (∀ t ∈ tokens, ¬ (t.offset ≤ i ∧ i < t.stop)) →
    ∃ c ∈ (octets source)[i]?, Text.isBlank c = true
  /-- a name is a letter and characters of names, and no byte of names follows it -/
  named : ∀ t ∈ tokens, ∀ name, t.lexeme = .name name → Text.isName name.toList = true ∧
    ∀ c ∈ (octets source)[t.stop]?, Text.isNameChar c = false

/-- Where the text is tiled by its tokens, they tokenise it. -/
theorem Tiles.tokenises {source : String} {cs rest : List Char}
    (h : Tiles 0 cs (scan source).tokens) (htext : source.toList = cs ++ rest) :
    Tokenises source (scan source).tokens cs.length where
  nonempty t ht := (h.bounds t ht).2.1
  ordered := h.pairwise
  within t ht := by
    have hstop := (h.bounds t ht).2.2
    rwa [Nat.zero_add] at hstop
  spelled t ht := slice?_token ht
  blank i hi houtside := by
    have hbytes : octets source = cs ++ spread rest := by
      rw [octets_eq_spread, htext, spread_append, spread_of_plain h.utf8Size]
    rw [hbytes, List.getElem?_append_left hi]
    refine h.blank_of_outside hi ?_
    simpa only [Nat.zero_add] using houtside
  named t ht name hname := name_of_mem_scan ht hname

/-- **A scan loses nothing.**  On any text, in this order:

* taking tokens from the start on, one call after another, answers the tokens in order; the call
  after the last token answers the end of the text or an error, and it is at most the call with the
  number of bytes plus one,
* the tokens are spans of the text in order, with blank bytes around them, up to where the cursor is
  left by the last call: the end of the text, at its number of bytes, or the start of the lexeme
  that cannot be read, for which the error is lexical,
* after any calls, looking at the next token answers what taking it answers then, and leaves the
  cursor where it is. -/
theorem scan_tokenises (source : String) :
    (∃ last, (Cursor.start source).perform
          (List.replicate ((scan source).tokens.length + 1) .take) =
        ((scan source).tokens.map (fun t => .ok (.token t)) ++ [(scan source).ending.map .ending],
          last) ∧
      (scan source).tokens.length + 1 ≤ source.utf8ByteSize + 1 ∧
      Tokenises source (scan source).tokens last.offset ∧
      (∀ offset, (scan source).ending = .ok offset →
        offset = source.utf8ByteSize ∧ last.offset = source.utf8ByteSize) ∧
      ∀ e, (scan source).ending = .error e →
        e.cause.kind = .lexical ∧ Unreadable source last.offset e) ∧
    ∀ requests, ∃ replies k reply k',
      (Cursor.start source).perform requests = (replies, k) ∧
      (Cursor.start source).perform (requests ++ [.peek]) = (replies ++ [reply], k) ∧
      (Cursor.start source).perform (requests ++ [.take]) = (replies ++ [reply], k') ∧
      (Cursor.start source).perform (requests ++ [.peek, .take]) =
        (replies ++ [reply, reply], k') := by
  constructor
  · obtain ⟨ts, cs, last, htokens, hperform, htext, hoffset, htiles, hstops⟩ :=
      (Cursor.start source).perform_take []
    obtain rfl : (scan source).tokens = ts := htokens
    replace htext : source.toList = cs ++ last.rest := htext
    replace hoffset : last.offset = cs.length := hoffset.trans (Nat.zero_add _)
    have hbytes : byteLength cs = cs.length := byteLength_eq_length htiles.utf8Size
    refine ⟨last, hperform, Nat.succ_le_succ ?_, hoffset ▸ htiles.tokenises htext,
      fun offset hend => ?_, fun e hend => ?_⟩
    · refine Nat.le_trans htiles.length_le ?_
      rw [utf8ByteSize_eq, htext, byteLength_append, hbytes]
      exact Nat.le_add_right _ _
    · have hlast : last.Stops (.ok offset) := hend ▸ hstops
      have hsize := offset_of_scan hend
      cases hlast
      exact ⟨hsize, hsize⟩
    · have hlast : last.Stops (.error e) := hend ▸ hstops
      exact ⟨Cursor.kind_of_scanOnto hend, hlast.unreadable htext (hoffset.trans hbytes.symm)⟩
  · intro requests
    refine ⟨_, _, _, _, rfl, Cursor.perform_append .., Cursor.perform_append .., ?_⟩
    rw [Cursor.perform_append]
    rfl

end Formula
