import Formula.Proofs.Recursion

/-!
# What happens while a formula is read

Reading by recursive descent comes to an end on every text and answers what `parse` answers
(`parse_by_descent`).  Its log is a `Chronicle`:

* every round of a loop takes a token and gets the cursor behind it, but for the last round of a
  part, which finds the end of the text; then the part is over, or the reading has failed;
* every part but the whole formula is begun for a parenthesis or a comma that has been taken;
* the tokens that are taken are those of `scan` in order, and none is taken twice;
* no more than `Parser.maxNesting + 1` parts are being read at any time, and operators do not add to
  them: without parentheses there is only one part, however many operators wait in it.

All of this is read off two things that the log of a reading has (`Session.Rests`): its marks follow
one another as `Leads` says, and its calls of the scanner are answered by one cursor.
-/

namespace Formula

open Cursor (Request Reply)

/-! ## Calls of the scanner, one after another -/

namespace Cursor

/-- Behind blanks there are no more of them. -/
theorem skipBlanks_skipBlanks (k : Cursor) : k.skipBlanks.skipBlanks = k.skipBlanks := by
  have hnone : k.skipBlanks.rest.takeWhile Text.isBlank = [] := by
    rw [List.takeWhile_eq_nil_iff]
    intro hpos
    exact List.dropWhile_get_zero_not Text.isBlank k.rest hpos
  have hrest : k.skipBlanks.rest.dropWhile Text.isBlank = k.skipBlanks.rest := by
    have hsplit : k.skipBlanks.rest.takeWhile Text.isBlank ++
        k.skipBlanks.rest.dropWhile Text.isBlank = k.skipBlanks.rest :=
      List.takeWhile_append_dropWhile
    rwa [hnone, List.nil_append] at hsplit
  rw [skipBlanks, hnone, hrest]
  rfl

/-- A token is where the cursor is or behind it, and the cursor gets behind where it begins. -/
theorem offset_take {k k' : Cursor} {t : Token} (h : k.take = (.ok (.token t), k')) :
    k.offset ≤ t.offset ∧ t.offset < k'.offset := by
  unfold take at h
  split at h <;> cases h
  rename_i hnext
  obtain ⟨bs, -, -, -, hstands, hoffset, hoffset'⟩ := spells_of_next hnext
  obtain ⟨c, w, htext, -⟩ := Lexeme.read_text hstands
  have hlength : t.text.toList.length = w.length + 1 := by
    rw [show t.text = t.lexeme.text from rfl, htext, List.length_cons]
  omega

/-- A call scans the token that it takes. -/
theorem tokens_call {k k' : Cursor} {request : Request} {reply : Except SourceError Reply}
    (h : k.call request = (reply, k')) :
    (k.scanOnto []).tokens =
      (Descent.Mark.ask request reply).token?.toList ++ (k'.scanOnto []).tokens := by
  cases request with
  | peek =>
    cases h
    rfl
  | take =>
    simp only [call, take] at h
    split at h <;> cases h
    · exact congrArg Scanned.tokens (scanOnto_of_skipBlanks k.skipBlanks_skipBlanks []).symm
    · exact congrArg Scanned.tokens (scanOnto_of_skipBlanks k.skipBlanks_skipBlanks []).symm
    · rename_i t hnext
      rw [scanOnto_of_some hnext, scanOnto_eq]
      rfl

/-- Where a call finds the end of the text no token is left. -/
theorem tokens_of_ending {k k' : Cursor} {request : Request} {offset : Nat}
    (h : k.call request = (.ok (.ending offset), k')) : (k.scanOnto []).tokens = [] := by
  have htake : k.take.1 = .ok (.ending offset) := by
    cases request with
    | peek | take => exact congrArg Prod.fst h
  unfold take at htake
  split at htake <;> cases htake
  rename_i hnext
  rw [scanOnto_of_none hnext]
  rfl

end Cursor

namespace Descent

open Mark (request? reply? token?)

/-- Every call has an answer. -/
theorem length_replies (es : List Mark) :
    (es.filterMap reply?).length = (es.filterMap request?).length := by
  induction es with
  | nil => rfl
  | cons e es ih =>
    cases e with
    | ask => exact congrArg (· + 1) ih
    | enter | round | leave => exact ih

theorem length_perform (k : Cursor) (requests : List Request) :
    (k.perform requests).1.length = requests.length := by
  induction requests generalizing k with
  | nil => rfl
  | cons request requests ih => exact congrArg (· + 1) (ih _)

/-- Where the cursor is in between. -/
theorem exists_between {k k' : Cursor} {u v : List Mark}
    (h : k.perform ((u ++ v).filterMap request?) = ((u ++ v).filterMap reply?, k')) :
    ∃ between, k.perform (u.filterMap request?) = (u.filterMap reply?, between) ∧
      between.perform (v.filterMap request?) = (v.filterMap reply?, k') := by
  rw [List.filterMap_append, List.filterMap_append, Cursor.perform_append] at h
  obtain ⟨hreplies, hlast⟩ := Prod.mk.inj h
  have hlength : (k.perform (u.filterMap request?)).1.length = (u.filterMap reply?).length := by
    rw [length_perform, length_replies]
  obtain ⟨hu, hv⟩ := List.append_inj hreplies hlength
  exact ⟨_, Prod.ext hu rfl, Prod.ext hv hlast⟩

/-- The call of a mark. -/
theorem call_of_perform {k k' : Cursor} {request : Request} {reply : Except SourceError Reply}
    {es : List Mark}
    (h : k.perform ((Mark.ask request reply :: es).filterMap request?) =
      ((Mark.ask request reply :: es).filterMap reply?, k')) :
    ∃ between, k.call request = (reply, between) ∧
      between.perform (es.filterMap request?) = (es.filterMap reply?, k') := by
  obtain ⟨hreplies, hlast⟩ := Prod.mk.inj h
  obtain ⟨hreply, hreplies⟩ := List.cons.inj hreplies
  exact ⟨_, Prod.ext hreply rfl, Prod.ext hreplies hlast⟩

/-- The tokens that are taken are the next ones of the text. -/
theorem tokens_of_perform {k k' : Cursor} {es : List Mark}
    (h : k.perform (es.filterMap request?) = (es.filterMap reply?, k')) :
    (k.scanOnto []).tokens = es.filterMap token? ++ (k'.scanOnto []).tokens := by
  induction es generalizing k with
  | nil =>
    cases h
    rfl
  | cons e es ih =>
    cases e with
    | enter | round | leave => exact ih h
    | ask request reply =>
      obtain ⟨between, hcall, hrest⟩ := call_of_perform h
      rw [Cursor.tokens_call hcall, ih hrest, filterMap_cons_toList, List.append_assoc]

variable {source : String} {answer : Except Failure Program} {es u v : List Mark} {e e' : Mark}
  {live : Nat} {s : Session}

/-! ## Logs that are in order -/

/-- The mark before another. -/
theorem exists_before (h : (u ++ e :: v).IsChain Leads) (hu : u ≠ []) :
    ∃ u' e', u = u' ++ [e'] ∧ Leads e' e := by
  obtain rfl | ⟨u', e', rfl⟩ := List.eq_nil_or_concat' u
  · exact absurd rfl hu
  · rw [List.append_assoc] at h
    exact ⟨u', e', rfl, (List.isChain_cons_cons.mp h.right_of_append).1⟩

/-- The mark after another. -/
theorem exists_after (h : (u ++ e :: v).IsChain Leads) (hv : v ≠ []) :
    ∃ e' v', v = e' :: v' ∧ Leads e e' := by
  obtain ⟨e', v', rfl⟩ := List.exists_cons_of_ne_nil hv
  exact ⟨e', v', rfl, (List.isChain_cons_cons.mp h.right_of_append).1⟩

namespace Mark

/-- Whether the loop goes round. -/
def isRound : Mark → Bool
  | round => true
  | _ => false

/-- A round that no token has been taken for, until now or for good. -/
def owed : Mark → Nat
  | round | ask .take (.error _) | ask .take (.ok (.ending _)) | leave (.ending _) => 1
  | _ => 0

theorem owed_le (e : Mark) : e.owed ≤ 1 := by
  unfold owed
  split <;> omega

end Mark

/-- A new round is owed a token, and no other is. -/
theorem Leads.owed_le (h : Leads e e') :
    (if e'.isRound then 1 else 0) + e.owed ≤ e'.token?.toList.length + e'.owed := by
  cases h with
  | begun | named => exact Nat.le_refl 1
  | taken reply => rcases reply with _ | _ | _ <;> exact Nat.le_refl 1
  | @ended found => cases found <;> exact Nat.le_refl _
  | number h | operator h | closed h =>
    obtain ⟨t, rfl, -⟩ := Reply.exists_token h
    exact Nat.le_refl 1
  | name h | called h | opened h | next h =>
    obtain ⟨t, rfl, -⟩ := Reply.exists_token h
    exact Nat.zero_le _

/-- A part is begun behind an opening parenthesis, or after another one. -/
theorem Leads.isEnter_le (h : Leads e e') :
    (if e'.isEnter then 1 else 0) ≤
      (if e.isLeave then 1 else 0) + e.token?.toList.countP (·.lexeme == .openParen) := by
  cases h with
  | opened h =>
    obtain ⟨t, rfl, ht⟩ := Reply.exists_token h
    simp [Mark.token?, Mark.isEnter, Mark.isLeave, ht]
  | next => exact Nat.le_refl 1
  | _ => exact Nat.zero_le _

theorem round_le_of_isChain (h : (e :: es).IsChain Leads) :
    es.countP Mark.isRound + e.owed ≤ (es.filterMap token?).length + 1 := by
  induction es generalizing e with
  | nil => exact (Nat.zero_add _).trans_le e.owed_le
  | cons e' es ih =>
    obtain ⟨hlead, hrest⟩ := List.isChain_cons_cons.mp h
    have hstep := hlead.owed_le
    have hlater := ih hrest
    rw [List.countP_cons, filterMap_cons_toList, List.length_append]
    omega

theorem enter_le_of_isChain (h : (e :: es).IsChain Leads) :
    es.countP Mark.isEnter ≤ (e :: es).countP Mark.isLeave +
      ((e :: es).filterMap token?).countP (·.lexeme == .openParen) := by
  induction es generalizing e with
  | nil => exact Nat.zero_le _
  | cons e' es ih =>
    obtain ⟨hlead, hrest⟩ := List.isChain_cons_cons.mp h
    have hstep := hlead.isEnter_le
    have hlater := ih hrest
    rw [List.countP_cons, List.countP_cons (a := e), filterMap_cons_toList token? e,
      List.countP_append]
    omega

/-- What a round comes to, by what the scanner answers: it goes past a token, or it ends its part
with the text, or the reading has failed. -/
inductive Round (answer : Except Failure Program) (k k' : Cursor) :
    Except SourceError Reply → List Mark → Prop
  | token {t : Token} (ahead : k.offset ≤ t.offset) (past : t.offset < k'.offset)
      (later : List Mark) : Round answer k k' (.ok (.token t)) later
  | ending (offset : Nat) (later : List Mark) :
      Round answer k k' (.ok (.ending offset)) (.leave (.ending offset) :: later)
  | missing {e : Failure} (failed : answer = .error e) (offset : Nat) :
      Round answer k k' (.ok (.ending offset)) []
  | rejected {e : Failure} (failed : answer = .error e) (cause : SourceError) :
      Round answer k k' (.error cause) []

/-- What a part is begun for: the formula, or a parenthesis, or the comma that the argument before
it has ended with. -/
inductive Entry : List Mark → Context → Prop
  | formula : Entry [] .formula
  | opened {t : Token} (h : t.lexeme = .openParen) (earlier : List Mark) (context : Context) :
      Entry (earlier ++ [.ask .take (.ok (.token t))]) context
  | next {t : Token} (h : t.lexeme = .comma) (earlier : List Mark) (last : Bool) :
      Entry (earlier ++ [.ask .take (.ok (.token t)), .leave (.token t)]) (.argument last)

/-- What is noted in a reading of a text, from the first mark to the last. -/
structure Chronicle (source : String) (answer : Except Failure Program) (es : List Mark) :
    Prop where
  /-- one cursor answers all calls of the scanner -/
  asked : ∃ k, (Cursor.start source).perform (es.filterMap request?) = (es.filterMap reply?, k)
  /-- every round takes a token, or it is the last one of its part -/
  round : ∀ u v, es = u ++ .round :: v → ∃ k k' reply later,
    (Cursor.start source).perform (u.filterMap request?) = (u.filterMap reply?, k) ∧
      k.take = (reply, k') ∧ v = .ask .take reply :: later ∧ Round answer k k' reply later
  /-- a part is begun with a round, and for a token -/
  entry : ∀ u context v, es = u ++ .enter context :: v →
    Entry u context ∧ ∃ later, v = .round :: later
  /-- no token is taken twice -/
  once : (es.filterMap token?).Pairwise fun t t' => t.offset < t'.offset
  /-- they are taken in order, and none is left out -/
  taken : es.filterMap token? <+: (scan source).tokens
  /-- at the end all of them have been taken -/
  all : ∀ program, answer = .ok program → es.filterMap token? = (scan source).tokens
  /-- there is one round for a token, and one for the end of the text -/
  rounds : es.countP Mark.isRound ≤ (es.filterMap token?).length + 1
  /-- so many parts are begun and not over, at any time -/
  nested : ∀ u, u <+: es → u.countP Mark.isEnter ≤ u.countP Mark.isLeave + (Parser.maxNesting + 1)
  /-- only parentheses nest -/
  flat : ∀ u, u <+: es → u.countP Mark.isEnter ≤ u.countP Mark.isLeave +
    ((u.filterMap token?).countP (·.lexeme == .openParen) + 1)

/-- A part and a round go on. -/
theorem exists_after_start (h : (u ++ e :: v).IsChain Leads)
    (hlast : ∀ e' ∈ (u ++ e :: v).getLast?, e'.isStart = false) (he : e.isStart = true) :
    ∃ e' v', v = e' :: v' ∧ Leads e e' := by
  refine exists_after h ?_
  rintro rfl
  rw [hlast e List.getLast?_concat] at he
  cases he

/-- **A round.** -/
theorem round_of_isChain {k : Cursor} (h : (u ++ .round :: v).IsChain Leads)
    (hlast : ∀ e ∈ (u ++ .round :: v).getLast?, e.isStart = false)
    (hcalls : (Cursor.start source).perform ((u ++ .round :: v).filterMap request?) =
      ((u ++ .round :: v).filterMap reply?, k))
    (hend : ∀ program, answer = .ok program →
      ∃ offset, (u ++ .round :: v).getLast? = some (.leave (.ending offset))) :
    ∃ k k' reply later,
      (Cursor.start source).perform (u.filterMap request?) = (u.filterMap reply?, k) ∧
        k.take = (reply, k') ∧ v = .ask .take reply :: later ∧ Round answer k k' reply later := by
  obtain ⟨_, later, rfl, hlead⟩ := exists_after_start h hlast rfl
  cases hlead with | taken reply =>
  obtain ⟨k, hbefore, hfrom⟩ := exists_between hcalls
  obtain ⟨k', htake, -⟩ := call_of_perform hfrom
  refine ⟨k, k', reply, later, hbefore, htake, rfl, ?_⟩
  rw [List.append_cons] at h hend
  -- where nothing comes after the answer, it is not the end of a formula
  have hfailed : later = [] → ∃ e, answer = .error e := by
    rintro rfl
    cases answer with
    | error e => exact ⟨e, rfl⟩
    | ok program =>
      obtain ⟨offset, hleave⟩ := hend program rfl
      rw [List.getLast?_concat] at hleave
      cases hleave
  cases reply with
  | error cause =>
    by_cases hlater : later = []
    · obtain ⟨e, he⟩ := hfailed hlater
      subst hlater
      exact .rejected he cause
    · obtain ⟨_, _, _, hlead⟩ := exists_after h hlater
      cases hlead
  | ok found =>
    cases found with
    | token t =>
      obtain ⟨hahead, hpast⟩ := Cursor.offset_take htake
      exact .token hahead hpast later
    | ending offset =>
      by_cases hlater : later = []
      · obtain ⟨e, he⟩ := hfailed hlater
        subst hlater
        exact .missing he offset
      · obtain ⟨_, later, rfl, hlead⟩ := exists_after h hlater
        cases hlead with
        | ended => exact .ending offset later
        | number hlexeme | operator hlexeme | name hlexeme | opened hlexeme => cases hlexeme

/-- **The beginning of a part.** -/
theorem entry_of_isChain {context : Context} (h : (u ++ .enter context :: v).IsChain Leads)
    (hfirst : ∀ e ∈ (u ++ .enter context :: v).head?, e = .enter .formula) : Entry u context := by
  by_cases hu : u = []
  · subst hu
    cases hfirst _ rfl
    exact .formula
  · obtain ⟨u, e, rfl, hlead⟩ := exists_before h hu
    cases hlead with
    | opened hopen =>
      obtain ⟨t, rfl, ht⟩ := Reply.exists_token hopen
      exact .opened ht u context
    | @next found hcomma last =>
      obtain ⟨t, rfl, ht⟩ := Reply.exists_token hcomma
      rw [List.append_assoc] at h hfirst
      have hne : u ≠ [] := by
        rintro rfl
        cases hfirst _ rfl
      obtain ⟨u, e, rfl, hlead⟩ := exists_before h hne
      cases hlead with | ended =>
      rw [List.append_assoc]
      exact .next ht u last

/-- The tokens of a text begin one behind another. -/
theorem pairwise_offset_scan (source : String) :
    (scan source).tokens.Pairwise fun t t' => t.offset < t'.offset := by
  obtain ⟨cs, rest, -, htiles⟩ := exists_tiles source
  refine htiles.pairwise.imp_of_mem fun {t t'} ht _ hstop => ?_
  exact Nat.lt_of_lt_of_le (htiles.bounds t ht).2.1 hstop

/-- All tokens have been taken where the end of the text has. -/
theorem all_of_isChain {k : Cursor} {offset : Nat} (h : es.IsChain Leads)
    (hfirst : ∀ e ∈ es.head?, e = .enter .formula)
    (hlast : es.getLast? = some (.leave (.ending offset)))
    (hcalls : (Cursor.start source).perform (es.filterMap request?) = (es.filterMap reply?, k)) :
    es.filterMap token? = (scan source).tokens := by
  obtain ⟨u, rfl⟩ := List.getLast?_eq_some_iff.mp hlast
  have hne : u ≠ [] := by
    rintro rfl
    cases hfirst _ rfl
  obtain ⟨u, e, rfl, hlead⟩ := exists_before h hne
  cases hlead with | ended =>
  rw [List.append_assoc] at hcalls ⊢
  obtain ⟨between, hbefore, hfrom⟩ := exists_between hcalls
  obtain ⟨_, htake, -⟩ := call_of_perform hfrom
  have htokens := tokens_of_perform hbefore
  rw [Cursor.tokens_of_ending htake, List.append_nil] at htokens
  rw [List.filterMap_append]
  exact (List.append_nil _).trans htokens.symm

theorem Session.Rests.chronicle (h : s.Rests source live)
    (hend : ∀ program, answer = .ok program →
      ∃ offset, s.log.head? = some (.leave (.ending offset))) :
    Chronicle source answer s.log.reverse := by
  have hchain : s.log.reverse.IsChain Leads := List.isChain_reverse.mpr h.chain
  have hfirst : ∀ e ∈ s.log.reverse.head?, e = .enter .formula := by
    rw [List.head?_reverse]
    exact h.begun
  have hlast : ∀ e ∈ s.log.reverse.getLast?, e.isStart = false := by
    rw [List.getLast?_reverse]
    exact h.settled
  have hends : ∀ program, answer = .ok program →
      ∃ offset, s.log.reverse.getLast? = some (.leave (.ending offset)) := by
    rw [List.getLast?_reverse]
    exact hend
  have htokens := tokens_of_perform h.asked
  have htaken : s.log.reverse.filterMap token? <+: (scan source).tokens := ⟨_, htokens.symm⟩
  -- a log begins with the formula
  have hbegun : ∀ u, u <+: s.log.reverse → u = [] ∨ ∃ u', u = .enter .formula :: u' := by
    rintro (_ | ⟨e, u⟩) hu
    · exact .inl rfl
    · obtain ⟨v, hv⟩ := hu
      rw [← hv] at hfirst
      exact .inr ⟨u, by rw [hfirst e rfl]⟩
  refine ⟨⟨s.cursor, h.asked⟩, fun u v hes => ?_, fun u context v hes => ⟨?_, ?_⟩,
    (pairwise_offset_scan source).sublist htaken.sublist, htaken, fun program hanswer => ?_, ?_,
    fun u hu => ?_, fun u hu => ?_⟩
  · have hcalls := h.asked
    rw [hes] at hchain hlast hcalls hends
    exact round_of_isChain hchain hlast hcalls hends
  · rw [hes] at hchain hfirst
    exact entry_of_isChain hchain hfirst
  · rw [hes] at hchain hlast
    obtain ⟨_, later, rfl, hlead⟩ := exists_after_start hchain hlast rfl
    cases hlead with | begun =>
    exact ⟨later, rfl⟩
  · obtain ⟨offset, hleave⟩ := hends program hanswer
    exact all_of_isChain hchain hfirst hleave h.asked
  · obtain hnil | ⟨u, hu⟩ := hbegun _ List.prefix_rfl
    · rw [hnil]
      exact Nat.zero_le _
    · rw [hu] at hchain ⊢
      exact round_le_of_isChain hchain
  · have hnested := h.nested u.reverse (List.reverse_prefix.mp (by rwa [List.reverse_reverse]))
    rwa [List.countP_reverse, List.countP_reverse] at hnested
  · have hchain := hchain.prefix hu
    obtain rfl | ⟨u, rfl⟩ := hbegun u hu
    · exact Nat.zero_le _
    · have hle := enter_le_of_isChain hchain
      rw [List.countP_cons_of_pos rfl]
      omega

end Descent

/-- **Parsing is reading by recursive descent.**  One round for every character of a text and one
for its end are enough. -/
theorem parse_by_descent (scope : Scope) (source : String) :
    ∃ s, (∀ spare, Descent.formula scope source (source.length + 1 + spare) (.start source) =
        some (parse scope source, s)) ∧
      Descent.Chronicle source (parse scope source) s.log.reverse := by
  suffices h : ∃ s, Descent.formula scope source (source.length + 1) (.start source) =
      some (parse scope source, s) ∧
        Descent.Chronicle source (parse scope source) s.log.reverse by
    obtain ⟨s, hformula, hchronicle⟩ := h
    exact ⟨s, fun spare => Descent.Extends.formula scope source _ spare _ _ hformula, hchronicle⟩
  rw [parse_eq]
  by_cases hwhite : source.toList.all Text.isWhite = true
  · rw [if_pos hwhite]
    refine ⟨.start source, ?_, ?_⟩
    · unfold Descent.formula
      rw [if_pos hwhite]
      rfl
    · exact Descent.Session.Rests.chronicle ⟨Descent.Session.sound_start source, nofun⟩ nofun
  · rw [if_neg hwhite]
    have hrounds : source.toList.length < source.length + 1 := by
      rw [String.length_toList]
      exact Nat.lt_succ_self _
    obtain ⟨r, s, hformula, hr⟩ := Descent.keeps_formula scope hrounds hwhite rfl
    cases r with
    | error e =>
      obtain ⟨hanswer, live, hrests⟩ := hr
      rw [hanswer]
      exact ⟨s, hformula, hrests.chronicle nofun⟩
    | ok program =>
      obtain ⟨⟨d, hanswer, rfl⟩, hrests, hleave⟩ := hr
      rw [hanswer]
      exact ⟨s, hformula, hrests.chronicle fun _ _ => hleave⟩

end Formula
