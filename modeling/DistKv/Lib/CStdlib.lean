import DistKv.Lib.CStdio
import DistKv.Lib.CString

/-!
# Numbers and tokens in C strings

`strtoul` and `atoi` skip white space, take an optional sign and as many digits
as there are; `strtok_r` cuts a string at the bytes of a delimiter. Both work on
the bytes up to the NUL. The lemmas say what is read from a printed number, and
which token comes first.
-/

namespace CText

/-! ## `strtoul` and `atoi` -/

/-- The sign and the digits at the start of a string, after white space. -/
def scanNumber (s : List UInt8) : Bool × List UInt8 :=
  let t := scanSign (s.dropWhile isSpace)
  (t.1, t.2.takeWhile Decimal.isDigit)

/-- `strtoul(s, NULL, 10)`. -/
def strtoul (s : List UInt8) : UInt64 :=
  unsignedValue (scanNumber s).1 (Decimal.value (scanNumber s).2)

/-- `strtoul(s, NULL, 10)` sets `errno` to `ERANGE`. -/
def OutOfRange (s : List UInt8) : Prop := 2 ^ 64 ≤ Decimal.value (scanNumber s).2

instance (s : List UInt8) : Decidable (OutOfRange s) := inferInstanceAs (Decidable (_ ≤ _))

/-- `atoi(s)`, for a number that an `int` holds. -/
def atoi (s : List UInt8) : Int :=
  if (scanNumber s).1 then -(Decimal.value (scanNumber s).2 : Int)
  else Decimal.value (scanNumber s).2

/-- Digits behind white space are read up to the first byte that is none. -/
theorem scanNumber_digits {blank ds rest : List UInt8} (hblank : ∀ c ∈ blank, isSpace c = true)
    (hne : ds ≠ []) (hds : ∀ c ∈ ds, Decimal.isDigit c = true)
    (hrest : ∀ c ∈ rest.head?, Decimal.isDigit c = false) :
    scanNumber (blank ++ ds ++ rest) = (false, ds) := by
  obtain ⟨d, t, rfl⟩ := List.exists_cons_of_ne_nil hne
  have hword : isSpace d = false := isSpace_of_isDigit (hds d List.mem_cons_self)
  have hdrop : (blank ++ (d :: t) ++ rest).dropWhile isSpace = (d :: t) ++ rest := by
    rw [List.append_assoc, List.dropWhile_append_of_pos hblank, List.cons_append,
      List.dropWhile_cons_of_neg (by simp [hword])]
  have htake : ((d :: t) ++ rest).takeWhile Decimal.isDigit = d :: t := by
    rw [List.takeWhile_append_of_pos hds]
    cases rest with
    | nil => simp
    | cons c rest => simp [hrest c rfl]
  unfold scanNumber
  rw [hdrop, List.cons_append, scanSign_of_isDigit (hds d List.mem_cons_self)]
  rw [List.cons_append] at htake
  exact congrArg (Prod.mk false) htake

/-- A zero-padded field of fixed width. -/
theorem scanNumber_field {w n : Nat} (hw : 0 < w) :
    scanNumber (Decimal.field w n) = (false, Decimal.field w n) := by
  have hne : Decimal.field w n ≠ [] := by
    rw [← List.length_pos_iff_ne_nil, Decimal.length_field]
    exact hw
  have hscan : scanNumber ([] ++ Decimal.field w n ++ []) = (false, Decimal.field w n) :=
    scanNumber_digits (by simp) hne (fun c hc => Decimal.isDigit_of_mem_field hc) (by simp)
  simpa using hscan

theorem atoi_field {w n : Nat} (hw : 0 < w) : atoi (Decimal.field w n) = Decimal.cut w n := by
  rw [atoi, scanNumber_field hw]
  rfl

theorem strtoul_field {w n : Nat} (hw : 0 < w) (hlt : Decimal.cut w n < 2 ^ 64) :
    strtoul (Decimal.field w n) = UInt64.ofNat (Decimal.cut w n) := by
  rw [strtoul, scanNumber_field hw, unsignedValue, ← Decimal.cut, if_neg (by omega)]
  rfl

/-- A printed number between blanks. -/
theorem scanNumber_printed {blank rest : List UInt8} (hblank : ∀ c ∈ blank, isSpace c = true)
    (n : Nat) (hrest : ∀ c ∈ rest.head?, Decimal.isDigit c = false) :
    scanNumber (blank ++ Decimal.digits n ++ rest) = (false, Decimal.digits n) :=
  scanNumber_digits hblank (Decimal.digits_ne_nil n) (fun _ hc => Decimal.isDigit_of_mem_digits hc)
    hrest

/-- The first bytes of a number padded with blanks. -/
theorem scanNumber_take_padRight {w n j : Nat} (hj : 0 < j) :
    scanNumber ((Decimal.padRight w n).take j) = (false, (Decimal.digits n).take j) := by
  have hne : (Decimal.digits n).take j ≠ [] := by
    rw [ne_eq, List.take_eq_nil_iff, not_or]
    exact ⟨by omega, Decimal.digits_ne_nil n⟩
  have hblank : ∀ c ∈ ((List.replicate (w - (Decimal.digits n).length) (32 : UInt8)).take
      (j - (Decimal.digits n).length)).head?, Decimal.isDigit c = false := by
    intro c hc
    rw [List.eq_of_mem_replicate (List.mem_of_mem_take (List.mem_of_mem_head? hc))]
    decide
  have hscan := scanNumber_digits (show ∀ c ∈ [], isSpace c = true by simp) hne
    (fun c hc => Decimal.isDigit_of_mem_digits (List.mem_of_mem_take hc)) hblank
  rwa [List.nil_append, ← List.take_append] at hscan

theorem strtoul_of_scanNumber {s : List UInt8} {n : Nat}
    (h : scanNumber s = (false, Decimal.digits n)) (hlt : n < 2 ^ 64) :
    strtoul s = UInt64.ofNat n ∧ ¬ OutOfRange s := by
  refine ⟨?_, ?_⟩
  · rw [strtoul, h, unsignedValue, Decimal.value_digits, if_neg (by omega)]
    rfl
  · rw [OutOfRange, h, Decimal.value_digits]
    omega

/-! ## `strtok_r` -/

/-- The next token of `strtok_r`, and the bytes the next call starts from. -/
def strtok (delim : UInt8 → Bool) (s : List UInt8) : Option (List UInt8 × List UInt8) :=
  match s.dropWhile delim with
  | [] => none
  | c :: rest =>
      some ((c :: rest).takeWhile (fun c => !delim c),
        ((c :: rest).dropWhile (fun c => !delim c)).drop 1)

/-- The tokens that `n` calls find. -/
def tokens (delim : UInt8 → Bool) : Nat → List UInt8 → List (List UInt8)
  | 0, _ => []
  | n + 1, s =>
      match strtok delim s with
      | none => []
      | some (token, rest) => token :: tokens delim n rest

theorem strtok_nil (delim : UInt8 → Bool) : strtok delim [] = none := rfl

/-- Delimiters in front of a token are skipped. -/
theorem strtok_cons_of_delim {delim : UInt8 → Bool} {d : UInt8} (hd : delim d = true)
    (rest : List UInt8) : strtok delim (d :: rest) = strtok delim rest := by
  rw [strtok, List.dropWhile_cons_of_pos hd, ← strtok]

theorem strtok_take_cons {delim : UInt8 → Bool} {d : UInt8} (hd : delim d = true)
    (rest : List UInt8) (n : Nat) :
    strtok delim ((d :: rest).take n) = strtok delim (rest.take (n - 1)) := by
  cases n with
  | zero => rfl
  | succ n => exact strtok_cons_of_delim hd _

/-- A word is cut at the delimiter behind it. -/
theorem strtok_append {delim : UInt8 → Bool} {word rest : List UInt8} (hne : word ≠ [])
    (hword : ∀ c ∈ word, delim c = false) (hrest : ∀ c ∈ rest.head?, delim c = true) :
    strtok delim (word ++ rest) = some (word, rest.drop 1) := by
  obtain ⟨c, t, rfl⟩ := List.exists_cons_of_ne_nil hne
  have hskip : (c :: t ++ rest).dropWhile delim = c :: (t ++ rest) :=
    List.dropWhile_cons_of_neg (by simp [hword c List.mem_cons_self])
  have hall : ∀ b ∈ c :: t, (!delim b) = true := fun b hb => by simp [hword b hb]
  have htake : (c :: t ++ rest).takeWhile (fun c => !delim c) = c :: t := by
    rw [List.takeWhile_append_of_pos hall]
    cases rest with
    | nil => simp
    | cons d rest => simp [hrest d rfl]
  have hdrop : (c :: t ++ rest).dropWhile (fun c => !delim c) = rest := by
    rw [List.dropWhile_append_of_pos hall]
    cases rest with
    | nil => rfl
    | cons d rest => exact List.dropWhile_cons_of_neg (by simp [hrest d rfl])
  rw [List.cons_append] at htake hdrop
  unfold strtok
  rw [hskip]
  show some (List.takeWhile _ (c :: (t ++ rest)), List.drop 1 (List.dropWhile _ _)) = _
  rw [htake, hdrop]

/-- What a word in front of a delimiter gives when the string is cut off. -/
theorem strtok_take_append {delim : UInt8 → Bool} {word : List UInt8} {d : UInt8}
    (hne : word ≠ []) (hword : ∀ c ∈ word, delim c = false) (hd : delim d = true)
    (rest : List UInt8) {n : Nat} (hn : 0 < n) :
    strtok delim ((word ++ d :: rest).take n) =
      some (word.take n, rest.take (n - (word.length + 1))) := by
  have hcut : word.take n ≠ [] := by
    rw [ne_eq, List.take_eq_nil_iff]
    rintro (rfl | rfl)
    · exact absurd hn (by decide)
    · exact hne rfl
  rw [List.take_append, strtok_append hcut fun c hc => hword c (List.mem_of_mem_take hc)]
  · by_cases hlong : n ≤ word.length
    · rw [Nat.sub_eq_zero_of_le hlong, Nat.sub_eq_zero_of_le (by omega)]
      rfl
    · obtain ⟨k, rfl⟩ : ∃ k, n = word.length + 1 + k := ⟨n - (word.length + 1), by omega⟩
      rw [Nat.add_sub_cancel_left, show word.length + 1 + k - word.length = k + 1 by omega]
      rfl
  · intro c hc
    by_cases hlong : n ≤ word.length
    · rw [Nat.sub_eq_zero_of_le hlong] at hc
      simp at hc
    · obtain ⟨k, hk⟩ : ∃ k, n - word.length = k + 1 := ⟨n - word.length - 1, by omega⟩
      rw [hk, List.take_succ_cons, List.head?_cons, Option.mem_some_iff] at hc
      rw [← hc]
      exact hd

/-- There is no token in a string of delimiters. -/
theorem strtok_eq_none_iff {delim : UInt8 → Bool} {s : List UInt8} :
    strtok delim s = none ↔ ∀ c ∈ s, delim c = true := by
  rw [← List.dropWhile_eq_nil_iff, strtok]
  cases s.dropWhile delim with
  | nil => exact iff_of_true rfl rfl
  | cons c t => exact iff_of_false (Option.some_ne_none _) (List.cons_ne_nil _ _)

/-- A token is a word of the string: it is not empty and has no delimiter in it. -/
theorem strtok_eq_some {delim : UInt8 → Bool} {s token rest : List UInt8}
    (h : strtok delim s = some (token, rest)) :
    token ≠ [] ∧ ∀ c ∈ token, delim c = false ∧ c ∈ s := by
  unfold strtok at h
  cases hs : s.dropWhile delim with
  | nil => simp [hs] at h
  | cons c t =>
      have hc : delim c = false := by
        have hhead := List.head?_dropWhile_not delim s
        simpa [hs] using hhead
      have hsub : (c :: t) <:+ s := hs ▸ List.dropWhile_suffix delim
      simp only [hs, Option.some.injEq, Prod.mk.injEq] at h
      obtain ⟨rfl, -⟩ := h
      refine ⟨?_, ?_⟩
      · rw [List.takeWhile_cons_of_pos (by simp [hc])]
        exact List.cons_ne_nil _ _
      · intro b hb
        refine ⟨?_, hsub.subset ((List.takeWhile_prefix _).subset hb)⟩
        simpa using List.mem_takeWhile_imp hb

end CText
