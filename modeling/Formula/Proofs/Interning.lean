import Mathlib.Data.List.Basic
import Formula.Proofs.Tables

/-!
# A pool over its whole life

`Pool.Holds` says what a pool has after a formula, whose constants all have values.  Here a pool is
given texts of any kind, one after the other, and some of them are refused: they have no value, or
they are new and the pool is full.

* `Pool.Records` says of a pool that it has the values of a list of different texts, its keys, and
  nothing else.
* `Pool.Interns` lists what can become of one text: it is found, or entered at the end, or refused.
  Everything about a run is derived from these three cases.
* After a run from the empty pool the keys are the texts that were taken, each once, in the order in
  which they were taken first (`records_internAll`).  A longer run has more keys at the end, so that
  a text keeps its place.
-/

namespace Formula

namespace Pool

/-- The pool after texts have been put to it in order, whatever became of each of them. -/
def internAll (p : Pool) (texts : List String) : Pool :=
  texts.foldl (fun p text => (p.intern text).2) p

/-- Those of the texts for which there was a constant, in order. -/
def taken (p : Pool) : List String → List String
  | [] => []
  | text :: texts =>
    match p.intern text with
    | (some _, p) => text :: p.taken texts
    | (none, p) => p.taken texts

/-- A pool has one entry for each of its keys. -/
structure Records (p : Pool) (keys : List String) : Prop extends p.Holds keys where
  nodup : keys.Nodup
  count : p.places.size = keys.length

/-- What can become of a text, and the keys after it. -/
inductive Interns (p : Pool) (keys : List String) (text : String) :
    Option Entry × Pool → List String → Prop
  | found {i : Nat} {x : Binary64} (place : keys[i]? = some text) (value : value? text = some x) :
      Interns p keys text (some ⟨i, x⟩, p) keys
  | entered {x : Binary64} (new : text ∉ keys) (value : value? text = some x)
      (room : keys.length < capacity) :
      Interns p keys text (some ⟨keys.length, x⟩, p.push text x) (keys ++ [text])
  | refused (new : text ∉ keys) (cause : value? text = none ∨ keys.length = capacity) :
      Interns p keys text (none, p) keys

variable {p : Pool} {keys : List String} {text : String}

/-! ## One text -/

theorem records_empty : empty.Records [] where
  toHolds := holds_empty
  nodup := List.nodup_nil
  count := Std.HashMap.size_emptyWithCapacity

namespace Records

/-- The place of a text is its place among the keys. -/
theorem places_eq_some_iff (h : p.Records keys) {i : Nat} :
    p.places[text]? = some i ↔ keys[i]? = some text := by
  rw [h.places]
  by_cases hm : text ∈ keys
  · rw [if_pos hm, Option.some.injEq]
    constructor
    · rintro rfl
      exact List.getElem?_idxOf hm
    · intro hi
      obtain ⟨hlt, hget⟩ := List.getElem?_eq_some_iff.mp hi
      rw [← hget]
      exact h.nodup.idxOf_getElem i hlt
  · rw [if_neg hm]
    constructor
    · nofun
    · intro hi
      exact absurd (List.mem_of_getElem? hi) hm

theorem places_eq_none_iff (h : p.Records keys) : p.places[text]? = none ↔ text ∉ keys := by
  rw [h.places]
  split <;> simp_all

/-- The value at the place of a text is the value of the text. -/
theorem get?_eq (h : p.Records keys) {i : Nat} (hi : keys[i]? = some text) :
    p.get? i = value? text := by
  have hvalues := congrArg (·[i]?) h.values
  simp only [List.getElem?_map, hi, Option.map_some, Array.getElem?_toList] at hvalues
  obtain ⟨x, hx, hsome⟩ := Option.map_eq_some_iff.mp hvalues
  rw [get?, hx, hsome]

/-- A key has a value. -/
theorem exists_value (h : p.Records keys) {i : Nat} (hi : keys[i]? = some text) :
    ∃ x, value? text = some x := by
  have hlt : i < p.values.size := p.places_lt text i (h.places_eq_some_iff.mpr hi)
  exact ⟨p.values[i], by rw [← h.get?_eq hi, get?, Array.getElem?_eq_getElem hlt]⟩

/-- A key is found, whether the pool is full or not. -/
theorem intern_eq (h : p.Records keys) {i : Nat} (hi : keys[i]? = some text) {x : Binary64}
    (hx : value? text = some x) : p.intern text = (some ⟨i, x⟩, p) := by
  have hplace : p.places[text]? = some i := h.places_eq_some_iff.mpr hi
  have hget : p.values[i]? = some x := (h.get?_eq hi).trans hx
  unfold intern
  split
  · rename_i j hj
    obtain rfl : i = j := Option.some.inj (hplace.symm.trans hj)
    obtain ⟨hlt, rfl⟩ := Array.getElem?_eq_some_iff.mp hget
    rfl
  · rename_i hnone
    cases hplace.symm.trans hnone

/-- A new text goes to the end. -/
theorem push (h : p.Records keys) (hnew : text ∉ keys) {x : Binary64}
    (hx : value? text = some x) (hroom : keys.length < capacity) :
    (p.push text x).Records (keys ++ [text]) where
  toHolds := (h.intern_of_notMem hnew hx hroom).2
  nodup := List.nodup_append.mpr ⟨h.nodup, List.nodup_singleton text, by
    rintro a ha b hb rfl
    exact hnew (List.mem_singleton.mp hb ▸ ha)⟩
  count := by
    have hmem : text ∉ p.places := by
      rw [Std.HashMap.mem_iff_isSome_getElem?, h.places_eq_none_iff.mpr hnew]
      simp
    show (p.places.insert text p.values.size).size = _
    rw [Std.HashMap.size_insert, if_neg hmem, h.count, List.length_append, List.length_singleton]

/-- **What becomes of a text.** -/
theorem interns (h : p.Records keys) (text : String) :
    ∃ keys', Interns p keys text (p.intern text) keys' ∧ (p.intern text).2.Records keys' := by
  by_cases hm : text ∈ keys
  · have hi := List.getElem?_idxOf hm
    obtain ⟨x, hx⟩ := h.exists_value hi
    rw [h.intern_eq hi hx]
    exact ⟨keys, .found hi hx, h⟩
  · by_cases hfits : (value? text).isSome = true ∧ keys.length < capacity
    · obtain ⟨x, hx⟩ := Option.isSome_iff_exists.mp hfits.1
      rw [(h.intern_of_notMem hm hx hfits.2).1]
      exact ⟨keys ++ [text], .entered hm hx hfits.2, h.push hm hx hfits.2⟩
    · rw [h.intern_of_not_fits hm hfits]
      refine ⟨keys, .refused hm ?_, h⟩
      cases hx : value? text with
      | none => exact .inl rfl
      | some x =>
        rw [hx] at hfits
        have hroom := h.room
        right
        simp only [Option.isSome_some, true_and] at hfits
        omega

end Records

/-! ## Many texts -/

theorem internAll_append (p : Pool) (u v : List String) :
    p.internAll (u ++ v) = (p.internAll u).internAll v := List.foldl_append

theorem internAll_concat (p : Pool) (texts : List String) (text : String) :
    p.internAll (texts ++ [text]) = ((p.internAll texts).intern text).2 := by
  rw [internAll_append]
  rfl

theorem taken_append (p : Pool) (u v : List String) :
    p.taken (u ++ v) = p.taken u ++ (p.internAll u).taken v := by
  induction u generalizing p with
  | nil => rfl
  | cons text u ih =>
    have hrest : p.internAll (text :: u) = (p.intern text).2.internAll u := rfl
    rw [List.cons_append, taken, taken, hrest]
    generalize p.intern text = answer
    obtain ⟨_ | entry, q⟩ := answer
    · exact ih q
    · exact congrArg (text :: ·) (ih q)

/-- One more text is taken if there is a constant for it. -/
theorem taken_concat (p : Pool) (texts : List String) (text : String) :
    p.taken (texts ++ [text]) =
      p.taken texts ++ if ((p.internAll texts).intern text).1.isSome then [text] else [] := by
  rw [taken_append, taken]
  generalize (p.internAll texts).intern text = answer
  obtain ⟨_ | entry, q⟩ := answer <;> rfl

/-- The keys after one more text are the texts taken so far, each once. -/
theorem Interns.keys_eq {texts keys' : List String}
    (h : Interns (empty.internAll texts) (empty.taken texts).eraseDups text
      ((empty.internAll texts).intern text) keys') :
    (empty.taken (texts ++ [text])).eraseDups = keys' := by
  rw [taken_concat]
  generalize (empty.internAll texts).intern text = answer at h ⊢
  cases h with
  | found place value =>
    exact eraseDups_concat_of_mem (List.mem_eraseDups.mp (List.mem_of_getElem? place))
  | entered new value room =>
    exact eraseDups_concat_of_notMem fun hm => new (List.mem_eraseDups.mpr hm)
  | refused new cause => exact congrArg List.eraseDups (List.append_nil _)

/-- **The keys after a run are the texts that were taken,** each once, in the order in which they
were taken first. -/
theorem records_internAll (texts : List String) :
    (empty.internAll texts).Records (empty.taken texts).eraseDups := by
  induction texts using List.reverseRecOn with
  | nil => exact records_empty
  | append_singleton texts text ih =>
    obtain ⟨keys', hinterns, hrecords⟩ := ih.interns text
    rw [internAll_concat, hinterns.keys_eq]
    exact hrecords

/-- A key keeps its place in a longer run. -/
theorem getElem?_keys_append {texts : List String} {i : Nat}
    (h : (empty.taken texts).eraseDups[i]? = some text) (more : List String) :
    (empty.taken (texts ++ more)).eraseDups[i]? = some text := by
  obtain ⟨rest, hrest⟩ :=
    eraseDups_isPrefix (empty.taken texts) ((empty.internAll texts).taken more)
  obtain ⟨hlt, -⟩ := List.getElem?_eq_some_iff.mp h
  rw [taken_append]
  rw [← hrest, List.getElem?_append_left hlt, h]

/-! ## The life of a pool -/

/-- The value of a text: that of a named constant, or else the number that it denotes. -/
theorem value?_eq_some {x : Binary64} (h : value? text = some x) :
    (text = "E" → x = .e) ∧ (text = "PI" → x = .pi) ∧
      (text ≠ "E" → text ≠ "PI" → Decimal.parse? text = some x) := by
  refine ⟨?_, ?_, fun hE hPI => ?_⟩
  · rintro rfl
    exact (Option.some.inj h).symm
  · rintro rfl
    exact (Option.some.inj h).symm
  · simpa [value?, named?, hE, hPI] using h

theorem value?_eq_none_iff :
    value? text = none ↔ text ≠ "E" ∧ text ≠ "PI" ∧ Decimal.parse? text = none := by
  by_cases hE : text = "E"
  · simp [value?, named?, hE]
  · by_cases hPI : text = "PI"
    · simp [value?, named?, hPI]
    · simp [value?, named?, hE, hPI]

/-- A text for which there was a constant keeps it through all that follows. -/
theorem intern_internAll {texts : List String} {entry : Entry} {q : Pool}
    (h : (empty.internAll texts).intern text = (some entry, q)) (more : List String) :
    value? text = some entry.value ∧
      (empty.internAll (texts ++ text :: more)).places[text]? = some entry.index ∧
      (empty.internAll (texts ++ text :: more)).get? entry.index = some entry.value ∧
      (empty.internAll (texts ++ text :: more)).intern text =
        (some entry, empty.internAll (texts ++ text :: more)) := by
  -- the text is a key as soon as it has been put to the pool, and stays one
  have hkey : value? text = some entry.value ∧
      (empty.taken (texts ++ [text])).eraseDups[entry.index]? = some text := by
    obtain ⟨keys', hinterns, -⟩ := (records_internAll texts).interns text
    rw [hinterns.keys_eq]
    rw [h] at hinterns
    cases hinterns with
    | found place value => exact ⟨value, place⟩
    | entered new value room => exact ⟨value, List.getElem?_concat_length⟩
  have hlater := getElem?_keys_append hkey.2 more
  rw [List.append_assoc, List.singleton_append] at hlater
  have hrecords := records_internAll (texts ++ text :: more)
  exact ⟨hkey.1, hrecords.places_eq_some_iff.mpr hlater, (hrecords.get?_eq hlater).trans hkey.1,
    hrecords.intern_eq hlater hkey.1⟩

/-- When there is no constant for a text. -/
theorem Records.intern_eq_none_iff (h : p.Records keys) :
    (p.intern text).1 = none ↔
      p.places[text]? = none ∧ (value? text = none ∨ p.size = capacity) := by
  obtain ⟨keys', hinterns, -⟩ := h.interns text
  rw [h.places_eq_none_iff, h.size_eq]
  generalize p.intern text = answer at hinterns
  cases hinterns with
  | found place value => simp [List.mem_of_getElem? place]
  | entered new value room => simp [value, Nat.ne_of_lt room]
  | refused new cause => simp [new, cause]

/-- A pool that holds different texts has no others. -/
theorem Holds.records (h : p.Holds keys) (hnodup : keys.Nodup) : p.Records keys where
  toHolds := h
  nodup := hnodup
  count := by
    have hkeys : p.places.keys.Nodup := by
      refine p.places.distinct_keys.imp fun hne heq => ?_
      rw [beq_eq_false_iff_ne] at hne
      exact hne heq
    have hperm : p.places.keys.Perm keys := by
      rw [List.perm_ext_iff_of_nodup hkeys hnodup]
      intro text
      rw [Std.HashMap.mem_keys, Std.HashMap.mem_iff_isSome_getElem?, h.places]
      split <;> simp_all
    rw [← Std.HashMap.length_keys, hperm.length_eq]

/-- For a text with a value there is no constant exactly if it is new and the pool is full. -/
theorem Records.intern_eq_none_iff_full (h : p.Records keys)
    (hvalue : (value? text).isSome = true) :
    (p.intern text).1 = none ↔ text ∉ p.places ∧ p.places.size = 65536 := by
  have hsize : p.size = p.places.size := h.size_eq.trans h.count.symm
  have hnew : p.places[text]? = none ↔ text ∉ p.places := by
    rw [Std.HashMap.mem_iff_isSome_getElem?, Option.not_isSome_iff_eq_none]
  have hsome : value? text ≠ none := Option.isSome_iff_ne_none.mp hvalue
  rw [h.intern_eq_none_iff, hnew, hsize, or_iff_right hsome]
  rfl

/-- A text without a constant leaves the pool as it was. -/
theorem Records.intern_snd_of_none (h : p.Records keys) (hnone : (p.intern text).1 = none) :
    (p.intern text).2 = p := by
  obtain ⟨keys', hinterns, -⟩ := h.interns text
  generalize p.intern text = answer at hinterns hnone
  cases hinterns with
  | found | entered => cases hnone
  | refused => rfl

/-- **The life of a pool.**  After any texts have been put to a new pool, in this order:

* there are as many values as places of texts, and at most 65536 of them,
* the texts with a place are those that were taken, and their places are counted from zero in the
  order in which they were taken first,
* a text for which there is a constant has the value at its place, which is that of `E` or `PI` or
  else the number that is read from it; whatever is put to the pool afterwards, the text keeps place
  and value and is found again,
* there is no constant for a text exactly if it has no place yet, and has no value or finds the pool
  full; then the pool is left as it is. -/
theorem intern_invariant (texts : List String) :
    ((empty.internAll texts).size = (empty.internAll texts).places.size ∧
      (empty.internAll texts).size ≤ 65536) ∧
    ((empty.taken texts).eraseDups.length = (empty.internAll texts).size ∧
      ∀ (text : String) (i : Nat), (empty.internAll texts).places[text]? = some i ↔
        (empty.taken texts).eraseDups[i]? = some text) ∧
    (∀ text entry q, (empty.internAll texts).intern text = (some entry, q) →
      q.get? entry.index = some entry.value ∧
      (text = "E" → entry.value = .e) ∧ (text = "PI" → entry.value = .pi) ∧
      (text ≠ "E" → text ≠ "PI" → Decimal.parse? text = some entry.value) ∧
      ∀ more, (empty.internAll (texts ++ text :: more)).places[text]? = some entry.index ∧
        (empty.internAll (texts ++ text :: more)).get? entry.index = some entry.value ∧
        (empty.internAll (texts ++ text :: more)).intern text =
          (some entry, empty.internAll (texts ++ text :: more))) ∧
    ∀ text,
      (((empty.internAll texts).intern text).1 = none ↔
        (empty.internAll texts).places[text]? = none ∧
          ((text ≠ "E" ∧ text ≠ "PI" ∧ Decimal.parse? text = none) ∨
            (empty.internAll texts).size = 65536)) ∧
      (((empty.internAll texts).intern text).1 = none →
        ((empty.internAll texts).intern text).2 = empty.internAll texts) := by
  have h := records_internAll texts
  refine ⟨⟨h.size_eq.trans h.count.symm, h.size_eq ▸ h.room⟩,
    ⟨h.size_eq.symm, fun text i => h.places_eq_some_iff⟩, fun text entry q hintern => ?_,
    fun text => ⟨?_, h.intern_snd_of_none⟩⟩
  · obtain ⟨hvalue, -, hget, -⟩ := intern_internAll hintern []
    rw [internAll_concat, hintern] at hget
    obtain ⟨hE, hPI, hnumber⟩ := value?_eq_some hvalue
    exact ⟨hget, hE, hPI, hnumber, fun more => (intern_internAll hintern more).2⟩
  · rw [h.intern_eq_none_iff, value?_eq_none_iff]
    exact Iff.rfl

end Pool
end Formula
