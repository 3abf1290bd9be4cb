import DistKv.Lib.CStdlib

/-!
# `printf` and `sscanf` with one format

A format is read as a list of directives. `sscanf` follows them through a
string and gives the values it assigned, `printed` is the text of a format
whose conversions were filled in. What is printed is read back where no
directive eats into the text of the next one (`Readable`).
-/

namespace CText

/-- A directive: a character of the format, white space, `%d`, `%u`. -/
inductive Directive
  | char (c : UInt8)
  | blank
  | int
  | uint
deriving DecidableEq

/-- A converted value. -/
inductive Scanned
  | int (i : Int)
  | uint (u : UInt32)
deriving DecidableEq

/-- What is left behind the number that `scanNumber` finds. -/
def scanRest (s : List UInt8) : List UInt8 :=
  (scanSign (s.dropWhile isSpace)).2.dropWhile Decimal.isDigit

/-- The values `sscanf` assigns; it stops at the first directive that fails.
`%d` is for numbers that an `int` holds, as in `atoi`. -/
def sscanf : List Directive → List UInt8 → List Scanned
  | [], _ => []
  | .char _ :: _, [] => []
  | .char c :: format, b :: s => if b = c then sscanf format s else []
  | .blank :: format, s => sscanf format (s.dropWhile isSpace)
  | .int :: format, s =>
      if (scanNumber s).2 = [] then [] else .int (atoi s) :: sscanf format (scanRest s)
  | .uint :: format, s =>
      if (scanNumber s).2 = [] then []
      else .uint (strtoul s).toUInt32 :: sscanf format (scanRest s)

/-- `%d` of an `int`. -/
def printInt (i : Int) : List UInt8 :=
  if i < 0 then 45 :: Decimal.digits i.natAbs else Decimal.digits i.natAbs

/-- A directive with the value its conversion prints. -/
inductive Item
  | char (c : UInt8)
  | blank
  | int (i : Int)
  | uint (u : UInt32)

namespace Item

def directive : Item → Directive
  | char c => .char c
  | blank => .blank
  | int _ => .int
  | uint _ => .uint

def scanned : Item → Option Scanned
  | int i => some (.int i)
  | uint u => some (.uint u)
  | _ => none

def text : Item → List UInt8
  | char c => [c]
  | blank => [32]
  | int i => printInt i
  | uint u => Decimal.digits u.toNat

end Item

/-- What `printf` writes. -/
def printed (items : List Item) : List UInt8 := (items.map Item.text).flatten

/-- The second directive takes up the text where the first one stops. -/
def apart : Directive → Directive → Bool
  | .char _, _ => true
  | .blank, .char c => !isSpace c
  | .blank, .blank => false
  | .blank, _ => true
  | _, .char c => !Decimal.isDigit c
  | _, .blank => true
  | _, _ => false

/-- Each directive is apart from the next. -/
def Readable : List Directive → Bool
  | [] => true
  | d :: format => format.head?.all (apart d) && Readable format

/-! ## Numbers in a text -/

/-- The digits at the start of a text, and what is behind them. -/
theorem span_digits (n : Nat) {rest : List UInt8}
    (hrest : ∀ c ∈ rest.head?, Decimal.isDigit c = false) :
    (Decimal.digits n ++ rest).takeWhile Decimal.isDigit = Decimal.digits n ∧
      (Decimal.digits n ++ rest).dropWhile Decimal.isDigit = rest := by
  have hdigits : ∀ c ∈ Decimal.digits n, Decimal.isDigit c = true :=
    fun c hc => Decimal.isDigit_of_mem_digits hc
  rw [List.takeWhile_append_of_pos hdigits, List.dropWhile_append_of_pos hdigits]
  cases rest with
  | nil => simp
  | cons c rest => simp [hrest c rfl]

/-- The number at the start of a text, and the text behind it. -/
theorem scan_digits (n : Nat) {rest : List UInt8}
    (hrest : ∀ c ∈ rest.head?, Decimal.isDigit c = false) :
    scanNumber (Decimal.digits n ++ rest) = (false, Decimal.digits n) ∧
      scanRest (Decimal.digits n ++ rest) = rest := by
  obtain ⟨htake, hdrop⟩ := span_digits n hrest
  obtain ⟨c, ds, hds⟩ := List.exists_cons_of_ne_nil (Decimal.digits_ne_nil n)
  have hc : Decimal.isDigit c = true := by
    apply Decimal.isDigit_of_mem_digits (n := n)
    rw [hds]
    exact List.mem_cons_self
  have hsign : scanSign ((Decimal.digits n ++ rest).dropWhile isSpace) =
      (false, Decimal.digits n ++ rest) := by
    rw [(isWord_digits n).dropWhile_isSpace, hds]
    exact scanSign_of_isDigit hc (ds ++ rest)
  unfold scanNumber scanRest
  rw [hsign]
  exact ⟨congrArg (Prod.mk false) htake, hdrop⟩

theorem scan_minus_digits (n : Nat) {rest : List UInt8}
    (hrest : ∀ c ∈ rest.head?, Decimal.isDigit c = false) :
    scanNumber (45 :: Decimal.digits n ++ rest) = (true, Decimal.digits n) ∧
      scanRest (45 :: Decimal.digits n ++ rest) = rest := by
  obtain ⟨htake, hdrop⟩ := span_digits n hrest
  exact ⟨congrArg (Prod.mk true) htake, hdrop⟩

/-- **A printed `int` is read back.** -/
theorem scan_printInt (i : Int) {rest : List UInt8}
    (hrest : ∀ c ∈ rest.head?, Decimal.isDigit c = false) :
    (scanNumber (printInt i ++ rest)).2 ≠ [] ∧ atoi (printInt i ++ rest) = i ∧
      scanRest (printInt i ++ rest) = rest := by
  unfold printInt atoi
  by_cases hneg : i < 0
  · obtain ⟨hscan, hleft⟩ := scan_minus_digits i.natAbs hrest
    rw [if_pos hneg, hscan, Decimal.value_digits, if_pos rfl]
    exact ⟨Decimal.digits_ne_nil _, by omega, hleft⟩
  · obtain ⟨hscan, hleft⟩ := scan_digits i.natAbs hrest
    rw [if_neg hneg, hscan, Decimal.value_digits, if_neg Bool.false_ne_true]
    exact ⟨Decimal.digits_ne_nil _, by omega, hleft⟩

/-- A printed `unsigned int` is read back. -/
theorem scan_uint (u : UInt32) {rest : List UInt8}
    (hrest : ∀ c ∈ rest.head?, Decimal.isDigit c = false) :
    (scanNumber (Decimal.digits u.toNat ++ rest)).2 ≠ [] ∧
      (strtoul (Decimal.digits u.toNat ++ rest)).toUInt32 = u ∧
      scanRest (Decimal.digits u.toNat ++ rest) = rest := by
  obtain ⟨hscan, hleft⟩ := scan_digits u.toNat hrest
  have hlt := u.toNat_lt
  rw [(strtoul_of_scanNumber hscan (by omega)).1, hscan]
  refine ⟨Decimal.digits_ne_nil _, ?_, hleft⟩
  apply UInt32.toNat_inj.mp
  rw [UInt64.toNat_toUInt32, UInt64.toNat_ofNat']
  omega

/-! ## The round trip -/

theorem printed_cons (item : Item) (items : List Item) :
    printed (item :: items) = item.text ++ printed items :=
  List.flatten_cons

/-- What follows a number does not start with a digit. -/
theorem isDigit_head_printed {d : Directive} (hd : d = .int ∨ d = .uint) {items : List Item}
    (h : (items.map Item.directive).head?.all (apart d) = true) :
    ∀ c ∈ (printed items).head?, Decimal.isDigit c = false := by
  intro c hc
  cases items with
  | nil => cases hc
  | cons item items =>
    rw [printed_cons] at hc
    cases item with
    | char b =>
      obtain rfl : b = c := by injection hc
      have hb : (!Decimal.isDigit b) = true := by rcases hd with rfl | rfl <;> exact h
      rwa [Bool.not_eq_true'] at hb
    | blank =>
      obtain rfl : (32 : UInt8) = c := by injection hc
      rfl
    | int i => rcases hd with rfl | rfl <;> cases h
    | uint u => rcases hd with rfl | rfl <;> cases h

/-- What follows a blank does not start with white space. -/
theorem dropWhile_printed {items : List Item}
    (h : (items.map Item.directive).head?.all (apart .blank) = true) :
    (printed items).dropWhile isSpace = printed items := by
  cases items with
  | nil => rfl
  | cons item items =>
    rw [printed_cons]
    cases item with
    | char b =>
      have hb : (!isSpace b) = true := h
      rw [Bool.not_eq_true'] at hb
      exact List.dropWhile_cons_of_neg (by rw [hb]; exact Bool.false_ne_true)
    | blank => cases h
    | int i =>
      show (printInt i ++ printed items).dropWhile isSpace = printInt i ++ printed items
      unfold printInt
      by_cases hneg : i < 0
      · rw [if_pos hneg]
        rfl
      · rw [if_neg hneg]
        exact (isWord_digits _).dropWhile_isSpace _
    | uint u => exact (isWord_digits _).dropWhile_isSpace _

/-- **What `printf` writes, `sscanf` reads back with the same format.** -/
theorem sscanf_printed {items : List Item}
    (h : Readable (items.map Item.directive) = true) :
    sscanf (items.map Item.directive) (printed items) = items.filterMap Item.scanned := by
  induction items with
  | nil => rfl
  | cons item items ih =>
    obtain ⟨happart, hrest⟩ := Bool.and_eq_true_iff.mp h
    have ih := ih hrest
    rw [printed_cons]
    cases item with
    | char c =>
      show (if c = c then sscanf (items.map Item.directive) (printed items) else []) = _
      rw [if_pos rfl, ih]
      rfl
    | blank =>
      show sscanf (items.map Item.directive) ((32 :: printed items).dropWhile isSpace) = _
      rw [List.dropWhile_cons_of_pos rfl, dropWhile_printed happart, ih]
      rfl
    | int i =>
      obtain ⟨hne, hvalue, hleft⟩ := scan_printInt i (isDigit_head_printed (.inl rfl) happart)
      show (if (scanNumber (printInt i ++ printed items)).2 = [] then []
        else .int (atoi (printInt i ++ printed items)) ::
          sscanf (items.map Item.directive) (scanRest (printInt i ++ printed items))) = _
      rw [if_neg hne, hvalue, hleft, ih]
      rfl
    | uint u =>
      obtain ⟨hne, hvalue, hleft⟩ := scan_uint u (isDigit_head_printed (.inr rfl) happart)
      let text := Decimal.digits u.toNat ++ printed items
      show (if (scanNumber text).2 = [] then []
        else .uint (strtoul text).toUInt32 ::
          sscanf (items.map Item.directive) (scanRest text)) = _
      rw [if_neg hne, hvalue, hleft, ih]
      rfl

end CText
