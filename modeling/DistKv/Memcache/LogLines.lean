import DistKv.Memcache.Log

/-!
# The lines of a record

The record of a set ends in a newline, so its lines are its own, whatever is
logged before and after it. The first line holds the key and the sizes, and as
much of the value as fits; it is taken for the record if that part of the value
is blank. Further lines are pieces of the value, and may be taken for records
of their own.
-/

namespace DistKv.Memcache

open CText

/-- The lines in which the record of a node is read back. -/
def recordLines (node : KvNode) : List (List UInt8) := readLines lineRoom (logRecord node)

/-- What they are taken for. -/
def records (node : KvNode) : List Record := (recordLines node).filterMap Record.ofLine

/-- The record of a node up to its value. -/
def recordHead (node : KvNode) : List UInt8 :=
  83 :: 69 :: 84 :: (32 :: node.key.bytes ++ 32 :: (Decimal.digits node.userSize.toNat ++
    32 :: (Decimal.digits node.valueSize ++ [32])))

/-- The part of the value that is read with the head, and the rest of it. -/
def valueCut (node : KvNode) : List UInt8 × List UInt8 :=
  fgets (lineRoom - (recordHead node).length) (node.value.bytes ++ [10])

/-- The lines of a record behind the first. -/
def otherLines (node : KvNode) : List (List UInt8) := readLines lineRoom (valueCut node).2

/-- What those are taken for. -/
def otherRecords (node : KvNode) : List Record := (otherLines node).filterMap Record.ofLine

theorem logRecord_eq (node : KvNode) :
    logRecord node = recordHead node ++ (node.value.bytes ++ [10]) := by
  simp [logRecord, recordHead]

/-- The log is read record by record. -/
theorem readLines_log (nodes : List KvNode) :
    readLines lineRoom (nodes.flatMap logRecord) = nodes.flatMap recordLines := by
  induction nodes with
  | nil => rfl
  | cons node rest ih =>
      have hend : logRecord node = (recordHead node ++ node.value.bytes) ++ [10] := by
        rw [logRecord_eq, List.append_assoc]
      rw [List.flatMap_cons, List.flatMap_cons, recordLines, hend, List.append_assoc,
        List.singleton_append, readLines_append (by decide), ih]

theorem not_mem_recordHead {node : KvNode} {c : UInt8} (htext : c ∉ [83, 69, 84, 32])
    (hkey : c ∉ node.key.bytes) (hdigit : Decimal.isDigit c = false) : c ∉ recordHead node := by
  have hdigits := Decimal.not_mem_digits hdigit
  simp only [List.mem_cons, List.not_mem_nil, or_false, not_or] at htext
  obtain ⟨h83, h69, h84, h32⟩ := htext
  simp [recordHead, h83, h69, h84, h32, hkey, hdigits]

theorem zero_not_mem_recordHead (node : KvNode) : (0 : UInt8) ∉ recordHead node :=
  not_mem_recordHead (by decide) node.key.noNul (by decide)

theorem zero_not_mem_logRecord (node : KvNode) : (0 : UInt8) ∉ logRecord node := by
  rw [logRecord_eq]
  simp only [List.mem_append, List.mem_singleton, not_or]
  exact ⟨zero_not_mem_recordHead node, node.value.noNul, by decide⟩

/-- A piece of a value with the newline behind it. -/
theorem valueCut_append (node : KvNode) :
    (valueCut node).1 ++ (valueCut node).2 = node.value.bytes ++ [10] :=
  fgets_append _ _

section head

variable (node : KvNode)

theorem newline_not_mem_recordHead (hkey : IsWord node.key.bytes) :
    (10 : UInt8) ∉ recordHead node :=
  not_mem_recordHead (by decide) (fun h => absurd (hkey.2 10 h) (by decide)) (by decide)

theorem recordHead_length_le (hkey : node.key.length < keyRoom) (hsize : node.valueSize < 2 ^ 64) :
    (recordHead node).length ≤ 96 := by
  have hdigits : ∀ u < 2 ^ 64, (Decimal.digits u).length ≤ 20 := fun u hu => by
    rw [Decimal.length_digits_le_iff (by decide)]
    omega
  have huser := hdigits _ node.userSize.toNat_lt
  have hvalue := hdigits _ hsize
  simp only [Str.length, keyRoom] at hkey
  simp only [recordHead, List.length_cons, List.length_append, List.length_nil]
  omega

/-- **The first line of a record is its head and a part of the value.** -/
theorem recordLines_eq (hkey : IsWord node.key.bytes) (hlen : node.key.length < keyRoom)
    (hsize : node.valueSize < 2 ^ 64) :
    recordLines node = (recordHead node ++ (valueCut node).1) :: otherLines node := by
  have hroom : (recordHead node).length ≤ lineRoom :=
    (recordHead_length_le node hlen hsize).trans (by decide)
  have hhead := fgets_head (newline_not_mem_recordHead node hkey) hroom (node.value.bytes ++ [10])
  unfold recordLines otherLines valueCut
  rw [logRecord_eq, readLines_of_ne_nil (by decide) (by simp), hhead]

/-- `sscanf` reads the head as it was written. -/
theorem scanRecord_head (hkey : IsWord node.key.bytes) (hsize : node.valueSize < 2 ^ 64)
    (part : List UInt8) :
    scanRecord (recordHead node ++ part) =
      match scanWord (32 :: part) with
      | none => ⟨3, node.key.bytes, node.userSize, UInt64.ofNat node.valueSize, []⟩
      | some (value, _) =>
          ⟨4, node.key.bytes, node.userSize, UInt64.ofNat node.valueSize, value⟩ := by
  have hword := scanWord_word hkey (c := 32) (by decide)
    (Decimal.digits node.userSize.toNat ++ 32 :: (Decimal.digits node.valueSize ++ 32 :: part))
  have huser := scanSize_digits (c := 32) node.userSize.toNat_lt (by decide)
    (Decimal.digits node.valueSize ++ 32 :: part)
  have hvalue := scanSize_digits (c := 32) hsize (by decide) part
  have hsplit : recordHead node ++ part = 83 :: 69 :: 84 :: (32 :: node.key.bytes ++
      32 :: (Decimal.digits node.userSize.toNat ++
        32 :: (Decimal.digits node.valueSize ++ 32 :: part))) := by
    simp [recordHead]
  rw [UInt64.ofNat_toNat] at huser
  rw [List.cons_append] at huser hvalue
  rw [hsplit]
  unfold scanRecord
  cases hscan : scanWord (32 :: part) with
  | none => simp only [hword, huser, hvalue, hscan]
  | some v => simp only [hword, huser, hvalue, hscan]

theorem blank_cons_iff {part : List UInt8} :
    scanWord (32 :: part) = none ↔ ∀ c ∈ part, isSpace c = true := by
  rw [scanWord_eq_none_iff, List.forall_mem_cons]
  exact and_iff_right (by decide)

theorem ofBytes_head {part : List UInt8} (hpart : (0 : UInt8) ∉ part) :
    (Str.ofBytes (recordHead node ++ part)).bytes = recordHead node ++ part :=
  Str.ofBytes_bytes_of_not_mem (by simp [zero_not_mem_recordHead, hpart])

theorem overruns_head_iff (hkey : IsWord node.key.bytes) (hsize : node.valueSize < 2 ^ 64)
    {part : List UInt8} (hpart : (0 : UInt8) ∉ part) :
    Overruns (recordHead node ++ part) ↔ ¬ node.key.length < keyRoom := by
  unfold Overruns
  rw [ofBytes_head node hpart, scanRecord_head node hkey hsize]
  cases scanWord (32 :: part) <;> simp only [Str.length] <;> omega

/-- **The first line is taken for the record if the part of the value in it is blank.** -/
theorem ofLine_head (hkey : IsWord node.key.bytes) (hsize : node.valueSize < 2 ^ 64)
    {part : List UInt8} (hpart : (0 : UInt8) ∉ part) :
    Record.ofLine (recordHead node ++ part) =
      if part.all isSpace = true ∧ node.valueSize < valueRoom then
        some ⟨node.key, node.userSize, node.valueSize⟩
      else none := by
  have hnat : (UInt64.ofNat node.valueSize).toNat = node.valueSize := by
    rw [UInt64.toNat_ofNat']
    omega
  unfold Record.ofLine
  rw [ofBytes_head node hpart, scanRecord_head node hkey hsize]
  by_cases hblank : part.all isSpace = true
  · simp only [blank_cons_iff.mpr (List.all_eq_true.mp hblank), true_and, hnat,
      Str.ofBytes_bytes, and_iff_right hblank]
  · cases hscan : scanWord (32 :: part) with
    | none => exact absurd (List.all_eq_true.mpr (blank_cons_iff.mp hscan)) hblank
    | some v => simp only [reduceCtorEq, hblank, false_and, Nat.reduceEqDiff, if_false]

end head

/-- **A line that is taken for a record** has a word for its key, a size that
fits into the array, and a blank that is not its last byte. -/
theorem ofLine_spec {line : List UInt8} (hzero : (0 : UInt8) ∉ line) {r : Record}
    (h : Record.ofLine line = some r) :
    IsWord r.key.bytes ∧ (¬ Overruns line → r.key.length < keyRoom) ∧ r.valueSize < valueRoom ∧
      ∃ before c after, line = before ++ c :: after ∧ isSpace c = true ∧ after ≠ [] := by
  unfold Record.ofLine at h
  unfold Overruns
  rw [Str.ofBytes_bytes_of_not_mem hzero] at h ⊢
  simp only at h
  by_cases htaken : (scanRecord line).count = 3 ∧ (scanRecord line).valueSize.toNat < valueRoom
  · rw [if_pos htaken, Option.some.injEq] at h
    subst h
    rcases scanRecord_cases line with ⟨hcount, -⟩ |
      ⟨s, key, s₁, userSize, s₂, valueSize, s₃, rfl, hkey, hu, hn, hcases⟩
    · omega
    · have hf : scanRecord (83 :: 69 :: 84 :: s) = ⟨3, key, userSize, valueSize, []⟩ := by
        rcases hcases with ⟨-, hf⟩ | ⟨value, s₄, -, hf⟩
        · exact hf
        · rw [hf] at htaken
          simp at htaken
      obtain ⟨hword, blank, hs, hnext⟩ := isWord_of_scanWord hkey
      have hkeyzero : (0 : UInt8) ∉ key := fun h0 => hzero (by simp [hs, h0])
      rw [hf] at htaken ⊢
      simp only [Str.length, Str.ofBytes_bytes_of_not_mem hkeyzero]
      refine ⟨hword, fun hover => by omega, htaken.2, ?_⟩
      -- the key ends at a blank, and the sizes stand behind it
      rcases hnext with rfl | ⟨c, r', rfl, hc⟩
      · exact absurd hu (by rw [scanSize_eq_none (by simp)]; simp)
      · refine ⟨83 :: 69 :: 84 :: (blank ++ key), c, r', by rw [hs]; simp, hc, ?_⟩
        rintro rfl
        exact absurd hu (by rw [scanSize_eq_none (by simpa using hc)]; simp)
  · simp [htaken] at h

end DistKv.Memcache
