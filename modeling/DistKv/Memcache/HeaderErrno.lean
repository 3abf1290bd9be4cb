import DistKv.Memcache.HandleClient

/-!
# `errno` between two requests (`server_mt.c`)

`strtoul` sets `errno` where a number is out of range and leaves it alone where it
is not. `parse_header_set` looks at `errno` after the first number and after the
third, and nobody sets it back to zero. So one number out of range makes the
worker thread refuse every header after it.

The sizes are variables of `handle_client` that hold anything at the start. A
header that is refused has written some of them.
-/

namespace DistKv.Memcache

open CText

/-- What the sizes were does not matter where all three of them are set. -/
theorem parseHeaderSet_eq_into (erange : Bool) (sizes : Sizes) (recvHeader : Str) :
    parseHeaderSet erange recvHeader =
      ((if (parseHeaderSetInto erange sizes recvHeader).status = 0 then
          some (parseHeaderSetInto erange sizes recvHeader).sizes else none),
        (parseHeaderSetInto erange sizes recvHeader).erange) := by
  unfold parseHeaderSet parseHeaderSetInto
  rcases strtok headerDelim recvHeader.bytes with _ | ⟨first, save⟩
  · rfl
  by_cases hfirst : (erange || decide (OutOfRange first)) = true
  · simp [hfirst]
  rcases h₂ : strtok headerDelim save with _ | ⟨second, save'⟩
  · simp [hfirst, h₂]
  rcases h₃ : strtok headerDelim save' with _ | ⟨third, save''⟩
  · simp [hfirst, h₂, h₃]
  · by_cases hrest : OutOfRange second ∨ OutOfRange third
    · simp [hfirst, h₂, h₃, hrest]
    · simp [hfirst, h₂, h₃, hrest]

/-- `errno` after the headers a thread has read; it starts with 0. -/
def errnoAfter (earlier : List Str) : Bool :=
  earlier.foldl (fun erange recvHeader => (parseHeaderSet erange recvHeader).2) false

/-! ## What sets `errno` -/

/-- One of the first three numbers is out of range. -/
def ReadsOutOfRange (recvHeader : Str) : Prop :=
  ∃ token ∈ tokens headerDelim 3 recvHeader.bytes, OutOfRange token

/-- `errno` stays what it is, or a number of the header sets it. -/
theorem erange_parseHeaderSet (erange : Bool) (recvHeader : Str) :
    (parseHeaderSet erange recvHeader).2 = true ↔ erange = true ∨ ReadsOutOfRange recvHeader := by
  unfold parseHeaderSet parseHeaderSetInto ReadsOutOfRange
  cases erange with
  | true =>
      rcases strtok headerDelim recvHeader.bytes with _ | ⟨first, save⟩
      · simp
      · simp
  | false =>
      rcases h₁ : strtok headerDelim recvHeader.bytes with _ | ⟨first, save⟩
      · simp [tokens, h₁]
      by_cases hfirst : OutOfRange first
      · simp [tokens, h₁, hfirst]
      rcases h₂ : strtok headerDelim save with _ | ⟨second, save'⟩
      · simp [tokens, h₁, h₂, hfirst]
      rcases h₃ : strtok headerDelim save' with _ | ⟨third, save''⟩
      · simp [tokens, h₁, h₂, h₃, hfirst]
      · by_cases hrest : OutOfRange second ∨ OutOfRange third
        · simp [tokens, h₁, h₂, h₃, hfirst, hrest]
        · simp [tokens, h₁, h₂, h₃, hfirst, hrest]

/-- **`errno` is `ERANGE` from the first number out of range on.** -/
theorem errnoAfter_iff {earlier : List Str} :
    errnoAfter earlier = true ↔ ∃ recvHeader ∈ earlier, ReadsOutOfRange recvHeader := by
  induction earlier using List.reverseRec with
  | nil => simp [errnoAfter]
  | append_singleton rest recvHeader ih =>
      unfold errnoAfter at ih ⊢
      rw [List.foldl_append, List.foldl_cons, List.foldl_nil, erange_parseHeaderSet, ih]
      simp only [List.mem_append, List.mem_singleton, or_and_right, exists_or, exists_eq_left]

/-! ## What a header is refused for -/

/-- The header is refused for a reason of its own before its second number is read. -/
def RefusedEarly (recvHeader : Str) : Prop :=
  ∀ first second, tokens headerDelim 2 recvHeader.bytes = [first, second] → OutOfRange first

/-- With `errno` set the second number is never read. -/
theorem result_erange_iff (recvHeader : Str) :
    (∀ sizes, (parseHeaderSetInto true sizes recvHeader).result =
      (parseHeaderSetInto false sizes recvHeader).result) ↔ RefusedEarly recvHeader := by
  unfold RefusedEarly HeaderParse.result parseHeaderSetInto
  rcases h₁ : strtok headerDelim recvHeader.bytes with _ | ⟨first, save⟩
  · simp [tokens, h₁]
  by_cases hfirst : OutOfRange first
  · refine iff_of_true (by simp [hfirst]) fun first' second hnames => ?_
    simp only [tokens, h₁] at hnames
    rw [← (List.cons.inj hnames).1]
    exact hfirst
  rcases h₂ : strtok headerDelim save with _ | ⟨second, save'⟩
  · simp [tokens, h₁, h₂, hfirst]
  simp only [tokens, h₁, h₂, hfirst, Bool.true_or, if_true, decide_false, Bool.or_false,
    Bool.false_eq_true, if_false]
  refine iff_of_false (fun h => ?_) (fun h => hfirst (h first second rfl))
  -- the second size is left as it was, whatever it was
  have hsizes := congrArg (fun r => r.2.actualSize) (h ⟨0, strtoul second + 1, 0⟩)
  rcases h₃ : strtok headerDelim save' with _ | ⟨third, save''⟩
  · simp [h₃] at hsizes
  · by_cases hrest : OutOfRange second ∨ OutOfRange third
    · simp [h₃, hrest] at hsizes
    · simp [h₃, hrest] at hsizes

/-- **A header is read as in a fresh thread** if and only if no earlier header had a
number out of range, or it is refused before its second number in any case. -/
theorem header_read_afresh_iff {earlier : List Str} {recvHeader : Str} :
    (∀ sizes, (parseHeaderSetInto (errnoAfter earlier) sizes recvHeader).result =
        (parseHeaderSetInto false sizes recvHeader).result) ↔
      (¬ ∃ old ∈ earlier, ReadsOutOfRange old) ∨ RefusedEarly recvHeader := by
  rw [← errnoAfter_iff]
  cases errnoAfter earlier with
  | false => simp
  | true => simpa using result_erange_iff recvHeader

/-- A thread that has read a number out of range accepts nothing. -/
theorem refused_of_readsOutOfRange {earlier : List Str}
    (h : ∃ old ∈ earlier, ReadsOutOfRange old) (recvHeader : Str) (sizes : Sizes) :
    (parseHeaderSetInto (errnoAfter earlier) sizes recvHeader).status ≠ 0 := by
  intro hstatus
  have hread := parseHeaderSet_eq_into (errnoAfter earlier) sizes recvHeader
  rw [if_pos hstatus, parseHeaderSet_eq_some, errnoAfter_iff.mpr h] at hread
  exact absurd hread.1 (by decide)

/-- A size of twenty-six digits, and after it a header of three small numbers. -/
theorem header_not_read_afresh :
    ¬ ∀ sizes, (parseHeaderSetInto (errnoAfter [Str.ofBytes (List.replicate 26 57)]) sizes
        (Str.ofBytes [49, 13, 10, 49, 13, 10, 49, 13, 10])).result =
      (parseHeaderSetInto false sizes
        (Str.ofBytes [49, 13, 10, 49, 13, 10, 49, 13, 10])).result := by
  intro h
  exact absurd (h ⟨0, 0, 0⟩) (by decide +kernel)

end DistKv.Memcache
