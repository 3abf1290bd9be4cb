import DistKv.Lib.Runs
import DistKv.Memcache.Recovery
import Mathlib.Data.List.DropRight

/-!
# The lines of a file with torn records

A record that a crash tore off stays in the file, and the next process appends
to it. The file then ends in an open line: what stands behind its last newline
(`openLine`). The head of the next record is read as the end of that line, and no
such line is taken for a record: it has more words than the three that `sscanf`
may assign (`ofLine_behind`). The lines behind it are read as they were written.

`Holds` is a file with an open line that is short enough for the next head to be
read with it. Appending a record, or the first bytes of one, keeps it, and says
what a start reads from then on (`Holds.append_take`).
-/

namespace DistKv.Memcache

open CText FirstMatch Runs

/-! ## Words of a line -/

/-- Text that is cut in two. -/
theorem runs_takeWhile_le (p : UInt8 → Bool) (s : List UInt8) :
    runs isSpace s ≤ runs isSpace (s.takeWhile p) + runs isSpace (s.dropWhile p) := by
  have h : runs isSpace (s.takeWhile p ++ s.dropWhile p) ≤ _ := runs_append_le _ _
  rwa [List.takeWhile_append_dropWhile] at h

theorem runs_skip (s : List UInt8) : runs isSpace s ≤ runs isSpace (s.dropWhile isSpace) := by
  have h := runs_takeWhile_le isSpace s
  have hblank : runs isSpace (s.takeWhile isSpace) = 0 :=
    runs_of_blank fun c hc => List.mem_takeWhile_imp hc
  omega

/-- `%s` takes one word. -/
theorem runs_scanWord {s w r : List UInt8} (h : scanWord s = some (w, r)) :
    runs isSpace s ≤ 1 + runs isSpace r := by
  unfold scanWord at h
  by_cases hs : s.dropWhile isSpace = []
  · simp [hs] at h
  · simp only [hs, if_false, Option.some.injEq, Prod.mk.injEq] at h
    obtain ⟨rfl, rfl⟩ := h
    have hskip := runs_skip s
    have hcut := runs_takeWhile_le (!isSpace ·) (s.dropWhile isSpace)
    have hword : runs isSpace ((s.dropWhile isSpace).takeWhile (!isSpace ·)) ≤ 1 :=
      runs_le_one fun c hc => by simpa using List.mem_takeWhile_imp hc
    omega

/-- `%zu` takes one word, or the first part of one. -/
theorem runs_scanSize {s r : List UInt8} {u : UInt64} (h : scanSize s = some (u, r)) :
    runs isSpace s ≤ 1 + runs isSpace r := by
  unfold scanSize at h
  by_cases hnil : (scanSign (s.dropWhile isSpace)).2.takeWhile Decimal.isDigit = []
  · simp [hnil] at h
  · simp only [hnil, if_false, Option.some.injEq, Prod.mk.injEq] at h
    obtain ⟨-, rfl⟩ := h
    have hskip := runs_skip s
    obtain ⟨sign, hsign, hnone⟩ : ∃ sign, s.dropWhile isSpace =
        sign ++ (scanSign (s.dropWhile isSpace)).2 ∧ ∀ c ∈ sign, isSpace c = false := by
      generalize s.dropWhile isSpace = t
      unfold scanSign
      split
      · exact ⟨[45], rfl, List.forall_mem_singleton.mpr rfl⟩
      · exact ⟨[43], rfl, List.forall_mem_singleton.mpr rfl⟩
      · exact ⟨[], rfl, by simp⟩
    generalize (scanSign (s.dropWhile isSpace)).2 = t at hsign ⊢
    have htoken : runs isSpace (sign ++ t.takeWhile Decimal.isDigit) ≤ 1 := by
      refine runs_le_one fun c hc => ?_
      rcases List.mem_append.mp hc with hc | hc
      · exact hnone c hc
      · exact isSpace_of_isDigit (List.mem_takeWhile_imp hc)
    have hcut : runs isSpace
        ((sign ++ t.takeWhile Decimal.isDigit) ++ t.dropWhile Decimal.isDigit) ≤
        runs isSpace (sign ++ t.takeWhile Decimal.isDigit) +
          runs isSpace (t.dropWhile Decimal.isDigit) := runs_append_le _ _
    rw [List.append_assoc, List.takeWhile_append_dropWhile, ← hsign] at hcut
    omega

/-- **A line that is taken for a record has three words** behind `SET`, at most. -/
theorem runs_of_ofLine {s : List UInt8} (hzero : (0 : UInt8) ∉ 83 :: 69 :: 84 :: s) {x : Record}
    (h : Record.ofLine (83 :: 69 :: 84 :: s) = some x) : runs isSpace s ≤ 3 := by
  unfold Record.ofLine at h
  rw [Str.ofBytes_bytes_of_not_mem hzero] at h
  simp only at h
  by_cases htaken : (scanRecord (83 :: 69 :: 84 :: s)).count = 3 ∧
      (scanRecord (83 :: 69 :: 84 :: s)).valueSize.toNat < valueRoom
  · rcases scanRecord_cases (83 :: 69 :: 84 :: s) with ⟨hcount, -⟩ |
      ⟨s', key, s₁, userSize, s₂, valueSize, s₃, hs, hkey, hu, hn, ⟨hv, -⟩ | ⟨value, s₄, -, hf⟩⟩
    · omega
    · obtain rfl : s = s' := by simpa using hs
      have hrest : runs isSpace s₃ = 0 := runs_of_blank (scanWord_eq_none_iff.mp hv)
      have h₁ := runs_scanWord hkey
      have h₂ := runs_scanSize hu
      have h₃ := runs_scanSize hn
      omega
    · rw [hf] at htaken
      simp at htaken
  · simp [htaken] at h

/-- Behind something on its line, the first word of a record is not its `SET`. -/
theorem behind_eq {part : List UInt8} (hpart : part ≠ []) :
    ∃ a b c u, part ++ [83, 69, 84] = a :: b :: c :: u ∧ (84 : UInt8) ∈ u ∧
      u.length = part.length := by
  match part with
  | [] => exact absurd rfl hpart
  | [x] => exact ⟨x, 83, 69, [84], rfl, by decide, rfl⟩
  | [x, y] => exact ⟨x, y, 83, [69, 84], rfl, by decide, rfl⟩
  | x :: y :: z :: q => exact ⟨x, y, z, q ++ [83, 69, 84], rfl, by simp, by simp⟩

/-- What stands behind the `SET` of a record. -/
def headFields (node : KvNode) : List UInt8 :=
  node.key.bytes ++ 32 :: (Decimal.digits node.userSize.toNat ++
    32 :: (Decimal.digits node.valueSize ++ [32]))

theorem recordHead_eq (node : KvNode) :
    recordHead node = [83, 69, 84] ++ 32 :: headFields node := by
  simp [recordHead, headFields]

theorem three_le_runs {node : KvNode} (hkey : IsWord node.key.bytes) (rest : List UInt8) :
    3 ≤ runs isSpace (headFields node ++ rest) := by
  have hword : ∀ w, IsWord w → 1 ≤ runs isSpace w := by
    intro w hw
    obtain ⟨c, t, hc⟩ := List.exists_cons_of_ne_nil hw.1
    have hmem : c ∈ w := by
      rw [hc]
      exact List.mem_cons_self
    exact one_le_runs hmem (hw.2 c hmem)
  have hsplit : headFields node ++ rest = node.key.bytes ++ 32 ::
      (Decimal.digits node.userSize.toNat ++
        32 :: (Decimal.digits node.valueSize ++ 32 :: rest)) := by
    simp [headFields]
  have hspace : isSpace 32 = true := by decide
  have hkeyRuns := hword _ hkey
  have huser := hword _ (isWord_digits node.userSize.toNat)
  have hvalue := hword _ (isWord_digits node.valueSize)
  rw [hsplit, runs_append_blank _ _ hspace, runs_append_blank _ _ hspace,
    runs_append_blank _ _ hspace]
  omega

/-- The key that `sscanf` finds is the word behind `SET`. -/
theorem scanRecord_key (s : List UInt8) :
    (scanRecord (83 :: 69 :: 84 :: s)).key = ((scanWord s).map Prod.fst).getD [] := by
  unfold scanRecord
  cases hkey : scanWord s with
  | none => simp [hkey]
  | some k =>
      cases hu : scanSize k.2 with
      | none => simp [hkey, hu]
      | some u =>
          cases hn : scanSize u.2 with
          | none => simp [hkey, hu, hn]
          | some v => cases hv : scanWord v.2 <;> simp [hkey, hu, hn, hv]

/-- A word that starts in front of a blank ends there at the latest. -/
theorem scanWord_length_le {u v w r : List UInt8} {c d : UInt8} (hc : c ∈ u)
    (hword : isSpace c = false) (hd : isSpace d = true) (h : scanWord (u ++ d :: v) = some (w, r)) :
    w.length ≤ u.length := by
  obtain ⟨-, blank, hsplit, -⟩ := isWord_of_scanWord h
  unfold scanWord at h
  have hne : u.dropWhile isSpace ≠ [] := by
    intro hnil
    have hall := List.dropWhile_eq_nil_iff.mp hnil c hc
    rw [hword] at hall
    exact absurd hall (by decide)
  have hdrop : (u ++ d :: v).dropWhile isSpace = u.dropWhile isSpace ++ d :: v := by
    rw [List.dropWhile_append, if_neg (by simpa using hne)]
  rw [hdrop] at h
  simp only [List.append_eq_nil_iff, reduceCtorEq, and_false, if_false, Option.some.injEq,
    Prod.mk.injEq] at h
  rw [← h.1, List.takeWhile_append]
  have hle := (List.dropWhile_suffix (l := u) isSpace).length_le
  split
  · simp [hd, hle]
  · exact (List.takeWhile_prefix _).length_le.trans hle

section behind

variable {part : List UInt8} (hpart : part ≠ []) {node : KvNode} {rest : List UInt8}
  (hzero : (0 : UInt8) ∉ part) (hrest : (0 : UInt8) ∉ rest)

include hpart hzero hrest

/-- A record behind something on its line, as `sscanf` finds it. -/
theorem behind_cases (node : KvNode) : ∃ u, (84 : UInt8) ∈ u ∧ u.length = part.length ∧
    (Str.ofBytes (part ++ recordHead node ++ rest)).bytes = part ++ recordHead node ++ rest ∧
      (scanRecord (part ++ recordHead node ++ rest) = {} ∨
        part ++ recordHead node ++ rest =
          83 :: 69 :: 84 :: (u ++ 32 :: (headFields node ++ rest))) := by
  obtain ⟨a, b, c, u, hline, hT, hlen⟩ := behind_eq hpart
  have hno : (0 : UInt8) ∉ part ++ recordHead node ++ rest := by
    simp [hzero, hrest, zero_not_mem_recordHead node]
  have hsplit : part ++ recordHead node ++ rest =
      a :: b :: c :: (u ++ 32 :: (headFields node ++ rest)) := by
    calc part ++ recordHead node ++ rest
        = (part ++ [83, 69, 84]) ++ 32 :: (headFields node ++ rest) := by simp [recordHead_eq]
      _ = a :: b :: c :: (u ++ 32 :: (headFields node ++ rest)) := by rw [hline]; rfl
  refine ⟨u, hT, hlen, Str.ofBytes_bytes_of_not_mem hno, ?_⟩
  by_cases hset : a = 83 ∧ b = 69 ∧ c = 84
  · obtain ⟨rfl, rfl, rfl⟩ := hset
    exact Or.inr hsplit
  · refine Or.inl ?_
    rw [hsplit]
    refine scanRecord_other fun hpre => hset ?_
    obtain ⟨t, ht⟩ := hpre
    simp only [List.cons_append, List.cons.injEq] at ht
    exact ⟨ht.1.symm, ht.2.1.symm, ht.2.2.1.symm⟩

/-- **A record behind something on its line is not read.** -/
theorem ofLine_behind (hkey : IsWord node.key.bytes) :
    Record.ofLine (part ++ recordHead node ++ rest) = none := by
  obtain ⟨u, hT, -, hbytes, hother | hline⟩ := behind_cases hpart hzero hrest node
  · rw [Record.ofLine, hbytes, hother]
    rfl
  · cases h : Record.ofLine (part ++ recordHead node ++ rest) with
    | none => rfl
    | some x =>
        have hno : (0 : UInt8) ∉ part ++ recordHead node ++ rest := by
          rw [← hbytes]
          exact (Str.ofBytes _).noNul
        rw [hline] at h hno
        have hle := runs_of_ofLine hno h
        have hfirst : 1 ≤ runs isSpace u := one_le_runs hT (by decide)
        have hfields := three_le_runs hkey rest
        rw [runs_append_blank _ _ (by decide)] at hle
        omega

/-- Nor does it overrun the array of the key, if what it stands behind does not. -/
theorem not_overruns_behind (hroom : part.length < keyRoom) :
    ¬ Overruns (part ++ recordHead node ++ rest) := by
  obtain ⟨u, hT, hlen, hbytes, hother | hline⟩ := behind_cases hpart hzero hrest node
  · rw [Overruns, hbytes, hother]
    decide
  · rw [Overruns, hbytes, hline, scanRecord_key]
    cases hw : scanWord (u ++ 32 :: (headFields node ++ rest)) with
    | none => decide
    | some x =>
        have hle := scanWord_length_le hT (by decide) (by decide) hw
        show ¬ keyRoom < x.1.length + 1
        omega

end behind

/-! ## Open lines -/

/-- What stands behind the last newline. -/
def openLine (file : List UInt8) : List UInt8 := file.rtakeWhile (· != 10)

/-- What stands in front of that. -/
def closedLines (file : List UInt8) : List UInt8 := file.rdropWhile (· != 10)

theorem closedLines_append_openLine (file : List UInt8) :
    closedLines file ++ openLine file = file :=
  List.rdropWhile_append_rtakeWhile

theorem openLine_append {part : List UInt8} (hpart : (10 : UInt8) ∉ part) (file : List UInt8) :
    openLine (file ++ part) = openLine file ++ part := by
  induction part using List.reverseRecOn with
  | nil => simp
  | append_singleton part c ih =>
      simp only [List.mem_append, List.mem_singleton, not_or] at hpart
      have hc : (c != 10) = true := by simpa using Ne.symm hpart.2
      rw [← List.append_assoc, openLine, List.rtakeWhile_concat_pos (· != 10) _ c hc,
        ← List.append_assoc, ← ih hpart.1]
      rfl

theorem closedLines_append {part : List UInt8} (hpart : (10 : UInt8) ∉ part) (file : List UInt8) :
    closedLines (file ++ part) = closedLines file := by
  induction part using List.reverseRecOn with
  | nil => simp
  | append_singleton part c ih =>
      simp only [List.mem_append, List.mem_singleton, not_or] at hpart
      have hc : (c != 10) = true := by simpa using Ne.symm hpart.2
      rw [← List.append_assoc, closedLines, List.rdropWhile_concat_pos (· != 10) _ c hc]
      exact ih hpart.1

theorem closedLines_newline (file : List UInt8) : closedLines (file ++ [10]) = file ++ [10] :=
  List.rdropWhile_concat_neg _ _ _ (by decide)

theorem openLine_newline (file : List UInt8) : openLine (file ++ [10]) = [] :=
  List.rtakeWhile_concat_neg _ _ _ (by decide)

theorem newline_not_mem_openLine (file : List UInt8) : (10 : UInt8) ∉ openLine file :=
  fun h => absurd (List.mem_rtakeWhile_imp h) (by decide)

/-- Closed lines end in a newline. -/
theorem closedLines_cases (file : List UInt8) :
    closedLines file = [] ∨ ∃ t, closedLines file = t ++ [10] := by
  by_cases hnil : closedLines file = []
  · exact Or.inl hnil
  · have hlast := List.rdropWhile_last_not _ _ hnil
    refine Or.inr ⟨(closedLines file).dropLast, ?_⟩
    have hten : (closedLines file).getLast hnil = 10 := by simpa [closedLines] using hlast
    rw [← hten, List.dropLast_append_getLast]

/-! ## What a start reads -/

/-- The lines of a file overrun nothing, and are taken for these records. -/
structure Reads (file : List UInt8) (rs : List Record) : Prop where
  quiet : ∀ line ∈ readLines lineRoom file, ¬ Overruns line
  records : (readLines lineRoom file).filterMap Record.ofLine = rs

theorem reads_nil : Reads [] [] := ⟨fun _ h => absurd h List.not_mem_nil, rfl⟩

theorem Reads.append {a b : List UInt8} {rs rs' : List Record} (ha : Reads (a ++ [10]) rs)
    (hb : Reads b rs') : Reads (a ++ 10 :: b) (rs ++ rs') := by
  have hlines : readLines lineRoom (a ++ 10 :: b) = readLines lineRoom (a ++ [10]) ++ _ :=
    readLines_append (by decide) a b
  refine ⟨fun line hline => ?_, ?_⟩
  · rw [hlines] at hline
    rcases List.mem_append.mp hline with hline | hline
    · exact ha.quiet line hline
    · exact hb.quiet line hline
  · rw [hlines, List.filterMap_append, ha.records, hb.records]

/-- What follows closed lines is read on its own. -/
theorem Reads.closed_append {file b : List UInt8} {rs rs' : List Record}
    (hfile : Reads (closedLines file) rs) (hb : Reads b rs') :
    Reads (closedLines file ++ b) (rs ++ rs') := by
  rcases closedLines_cases file with hnil | ⟨t, ht⟩
  · rw [hnil] at hfile ⊢
    obtain rfl : [] = rs := hfile.records
    exact hb
  · rw [ht] at hfile ⊢
    rw [List.append_assoc]
    exact hfile.append hb

theorem reads_of_readLines_eq {file line : List UInt8} (hlines : readLines lineRoom file = [line])
    (hover : ¬ Overruns line) : Reads file (Record.ofLine line).toList := by
  refine ⟨fun l hl => ?_, ?_⟩
  · rw [hlines, List.mem_singleton] at hl
    exact hl ▸ hover
  · rw [hlines]
    cases h : Record.ofLine line <;> simp [h]

/-- One line. -/
theorem reads_line {line : List UInt8} (hline : (10 : UInt8) ∉ line) (hlen : line.length < lineRoom)
    (hover : ¬ Overruns (line ++ [10])) :
    Reads (line ++ [10]) (Record.ofLine (line ++ [10])).toList := by
  refine reads_of_readLines_eq ?_ hover
  obtain ⟨k, hk⟩ : ∃ k, lineRoom - line.length = k + 1 := ⟨lineRoom - line.length - 1, by omega⟩
  rw [readLines_of_ne_nil (by decide) (by simp), fgets_head hline hlen.le, hk]
  rfl

/-- The key on a line is shorter than the line. -/
theorem key_length_le (line : List UInt8) : (scanRecord line).key.length ≤ line.length - 3 := by
  by_cases hset : [83, 69, 84] <+: line
  · obtain ⟨s, rfl⟩ := hset
    show (scanRecord (83 :: 69 :: 84 :: s)).key.length ≤ _
    rw [scanRecord_key]
    cases hw : scanWord s with
    | none => exact Nat.zero_le _
    | some x =>
        obtain ⟨-, blank, hs, -⟩ := isWord_of_scanWord hw
        have hlen := congrArg List.length hs
        simp only [List.length_append] at hlen
        show x.1.length ≤ ([83, 69, 84] ++ s).length - 3
        simp only [List.length_append, List.length_cons, List.length_nil]
        omega
  · rw [scanRecord_other hset]
    exact Nat.zero_le _

/-- An open line. -/
theorem reads_openLine {line : List UInt8} (hline : (10 : UInt8) ∉ line)
    (hlen : line.length < keyRoom) : Reads line (Record.ofLine line).toList := by
  by_cases hnil : line = []
  · subst hnil
    exact reads_nil
  · refine reads_of_readLines_eq ?_ ?_
    · have hroom : line.length ≤ lineRoom := hlen.le.trans (by decide)
      have hhead := fgets_head hline hroom []
      have hend : ∀ room, fgets room [] = ([], []) := by
        intro room
        cases room <;> rfl
      rw [hend, List.append_nil] at hhead
      rw [readLines_of_ne_nil (by decide) hnil, hhead]
      rfl
    · have hkey := key_length_le (Str.ofBytes line).bytes
      have hcut : (Str.ofBytes line).bytes.length ≤ line.length := Str.length_ofBytes_le line
      unfold Overruns
      omega

/-- **What a start makes of a file that it reads.** -/
theorem Reads.start {file : List UInt8} {rs : List Record} (h : Reads file rs)
    (junk : Vector UInt8 valueRoom) : ∃ t, initHashFromLog Table.empty junk file = some t ∧
      ∀ key, t.sizes key = (latest (fun x => x.key = key) rs).map Record.sizes := by
  obtain ⟨st, hst, hsizes⟩ := replay_sizes (fun line hline => length_of_mem_readLines hline)
    ⟨Table.empty, junk.toList⟩ (by simp) h.quiet
  refine ⟨st.table, by rw [initHashFromLog, hst, Option.map_some], fun key => ?_⟩
  rw [hsizes key, h.records]
  exact Option.or_none

/-! ## Files with an open line -/

/-- A set whose value is the line break that clients put in front of it, and one line
that does not begin with `SET`. -/
structure OneLine (node : KvNode) : Prop where
  key : IsWord node.key.bytes
  key_lt : node.key.length < keyRoom
  size : node.valueSize = node.value.length
  value : ∃ text, node.value.bytes = 13 :: 10 :: text ∧ (10 : UInt8) ∉ text ∧
    text.length < lineRoom ∧ ¬ [83, 69, 84] <+: text

/-- What its record is taken for. -/
def KvNode.record (node : KvNode) : Record := ⟨node.key, node.userSize, node.valueSize⟩

theorem OneLine.size_lt {node : KvNode} (h : OneLine node) : node.valueSize < valueRoom := by
  obtain ⟨text, hvalue, -, hlen, -⟩ := h.value
  rw [h.size, Str.length, hvalue]
  simp only [List.length_cons, lineRoom, valueRoom] at hlen ⊢
  omega

/-- The two lines of its record. -/
theorem OneLine.logRecord_eq {node : KvNode} (h : OneLine node) :
    ∃ text, logRecord node = recordHead node ++ [13] ++ 10 :: (text ++ [10]) ∧
      (10 : UInt8) ∉ text ∧ text.length < lineRoom ∧ Reads (text ++ [10]) [] := by
  obtain ⟨text, hvalue, hline, hlen, hset⟩ := h.value
  have hscan : scanRecord (Str.ofBytes (text ++ [10])).bytes = {} := by
    have hzero : (0 : UInt8) ∉ text := fun h0 => node.value.noNul (by simp [hvalue, h0])
    rw [Str.ofBytes_bytes_of_not_mem (by simp [hzero])]
    refine scanRecord_other fun hpre => ?_
    rcases List.prefix_concat_iff.mp hpre with heq | hpre
    · exact absurd (congrArg List.getLast? heq) (by simp)
    · exact hset hpre
  have hnone : Record.ofLine (text ++ [10]) = none := by
    rw [Record.ofLine, hscan]
    rfl
  have hreads := reads_line hline hlen (by rw [Overruns, hscan]; decide)
  rw [hnone] at hreads
  exact ⟨text, by simp [Memcache.logRecord_eq, hvalue], hline, hlen, hreads⟩

/-- A file that is read up to its open line. That is shorter than the array of the key: so
no key is made up of it that overruns the array, and the head of a record is read with it. -/
structure Holds (file : List UInt8) (rs : List Record) : Prop where
  reads : Reads (closedLines file) rs
  short : (openLine file).length < keyRoom
  zero : (0 : UInt8) ∉ openLine file

theorem holds_nil : Holds [] [] := ⟨reads_nil, by decide, List.not_mem_nil⟩

/-- The line that the head of a record completes. -/
theorem reads_completed {part : List UInt8} (hpart : (10 : UInt8) ∉ part)
    (hshort : part.length < keyRoom) (hzero : (0 : UInt8) ∉ part) {node : KvNode}
    (h : OneLine node) :
    Reads (part ++ recordHead node ++ [13] ++ [10]) (if part = [] then [node.record] else []) := by
  have hsize : node.valueSize < 2 ^ 64 := h.size_lt.trans (by decide)
  have hhead := recordHead_length_le node h.key_lt hsize
  have hnl : (10 : UInt8) ∉ part ++ recordHead node ++ [13] := by
    simp [hpart, newline_not_mem_recordHead node h.key]
  have hlen : (part ++ recordHead node ++ [13]).length < lineRoom := by
    simp only [List.length_append, List.length_singleton, lineRoom]
    unfold keyRoom at hshort
    omega
  have hrest : (0 : UInt8) ∉ [13, 10] := by decide
  have hline : part ++ recordHead node ++ [13] ++ [10] = part ++ recordHead node ++ [13, 10] := by
    simp
  by_cases hnil : part = []
  · subst hnil
    rw [if_pos rfl]
    have hreads := reads_line hnl hlen (by
      rw [hline]
      exact (overruns_head_iff node h.key hsize hrest).not.mpr (not_not_intro h.key_lt))
    rw [hline, List.nil_append, ofLine_head node h.key hsize hrest,
      if_pos ⟨by decide, h.size_lt⟩] at hreads
    rw [hline]
    exact hreads
  · rw [if_neg hnil]
    have hreads := reads_line hnl hlen (by
      rw [hline]
      exact not_overruns_behind hnil hzero hrest hshort)
    rw [hline, ofLine_behind hnil hzero hrest h.key] at hreads
    rw [hline]
    exact hreads

/-- The head of a record in a file. -/
theorem Holds.append_head {file : List UInt8} {rs : List Record} (h : Holds file rs)
    {node : KvNode} (hnode : OneLine node) :
    Reads (file ++ recordHead node ++ [13] ++ [10])
      (rs ++ if openLine file = [] then [node.record] else []) := by
  have hsplit : file ++ recordHead node ++ [13] ++ [10] =
      closedLines file ++ (openLine file ++ recordHead node ++ [13] ++ [10]) := by
    simp only [← List.append_assoc, closedLines_append_openLine]
  rw [hsplit]
  exact h.reads.closed_append
    (reads_completed (newline_not_mem_openLine file) h.short h.zero hnode)

/-- **A record, or what a crash leaves of one**, is read if it starts a line and its
head is whole. -/
theorem Holds.append_take {file : List UInt8} {rs : List Record} (h : Holds file rs)
    {node : KvNode} (hnode : OneLine node) (torn : Nat)
    (hshort : (openLine (file ++ (logRecord node).take torn)).length < keyRoom) :
    Holds (file ++ (logRecord node).take torn) (rs ++
      if openLine file = [] ∧ (recordHead node).length + 2 ≤ torn then [node.record] else []) := by
  obtain ⟨text, hrecord, htext, -, hreads⟩ := hnode.logRecord_eq
  by_cases hwhole : (recordHead node).length + 2 ≤ torn
  · -- the line is completed
    have hhead := h.append_head hnode
    obtain ⟨j, rfl⟩ := Nat.exists_eq_add_of_le hwhole
    have hcut : file ++ (logRecord node).take ((recordHead node).length + 2 + j) =
        file ++ recordHead node ++ [13] ++ [10] ++ (text ++ [10]).take j := by
      have hlen : (recordHead node).length + 2 = (recordHead node ++ [13] ++ [10]).length := by simp
      have hassoc : logRecord node = (recordHead node ++ [13] ++ [10]) ++ (text ++ [10]) := by
        simp [hrecord]
      rw [hassoc, hlen, List.take_length_add_append]
      simp only [List.append_assoc]
    rw [hcut] at hshort ⊢
    simp only [hwhole, and_true]
    by_cases hj : j ≤ text.length
    · have htail : (10 : UInt8) ∉ (text ++ [10]).take j := by
        rw [List.take_append_of_le_length hj]
        exact fun h10 => htext (List.mem_of_mem_take h10)
      refine ⟨?_, hshort, ?_⟩
      · rw [closedLines_append htail, closedLines_newline]
        exact hhead
      · rw [openLine_append htail, openLine_newline, List.nil_append]
        intro h0
        refine zero_not_mem_logRecord node ?_
        rw [hrecord]
        have hmem := List.mem_of_mem_take h0
        simp only [List.mem_append, List.mem_cons] at hmem ⊢
        tauto
    · have htake : (text ++ [10]).take j = text ++ [10] :=
        List.take_of_length_le (by simp; omega)
      rw [htake, ← List.append_assoc] at hshort ⊢
      refine ⟨?_, hshort, ?_⟩
      · rw [closedLines_newline]
        have happend := hhead.append hreads
        simpa using happend
      · rw [openLine_newline]
        exact List.not_mem_nil
  · -- the open line grows
    have hnl : (10 : UInt8) ∉ recordHead node ++ [13] := by
      simp [newline_not_mem_recordHead node hnode.key]
    have hcut : (logRecord node).take torn = (recordHead node ++ [13]).take torn := by
      rw [hrecord, List.take_append_of_le_length]
      simp only [List.length_append, List.length_singleton]
      omega
    have hpart : (10 : UInt8) ∉ (logRecord node).take torn := by
      rw [hcut]
      exact fun h10 => hnl (List.mem_of_mem_take h10)
    have hzero : (0 : UInt8) ∉ (logRecord node).take torn :=
      fun h0 => zero_not_mem_logRecord node (List.mem_of_mem_take h0)
    rw [if_neg (fun hc => hwhole hc.2), List.append_nil]
    refine ⟨?_, hshort, ?_⟩
    · rw [closedLines_append hpart]
      exact h.reads
    · rw [openLine_append hpart]
      simp [h.zero, hzero]

/-- The records of a process that found an open line: the first is not read. -/
def kept (found : List UInt8) (nodes : List KvNode) : List KvNode :=
  if openLine found = [] then nodes else nodes.tail

theorem openLine_logRecord (file : List UInt8) (node : KvNode) :
    openLine (file ++ logRecord node) = [] := by
  rw [logRecord_eq, ← List.append_assoc, ← List.append_assoc]
  exact openLine_newline _

/-- A file with one record more. -/
theorem Holds.append_logRecord {file : List UInt8} {rs : List Record} (h : Holds file rs)
    {node : KvNode} (hnode : OneLine node) : Holds (file ++ logRecord node)
      (rs ++ if openLine file = [] then [node.record] else []) := by
  have hall : (logRecord node).take (logRecord node).length = logRecord node := List.take_length
  have hlen : (recordHead node).length + 2 ≤ (logRecord node).length := by
    obtain ⟨text, hrecord, -⟩ := hnode.logRecord_eq
    rw [hrecord]
    simp
  have happend := h.append_take hnode (logRecord node).length (by
    rw [hall, openLine_logRecord]
    decide)
  rw [hall] at happend
  simpa [hlen] using happend

/-- Records behind a file. -/
theorem Holds.append_records {file : List UInt8} {rs : List Record} (h : Holds file rs)
    {nodes : List KvNode} (hnodes : ∀ node ∈ nodes, OneLine node) :
    Holds (file ++ nodes.flatMap logRecord) (rs ++ (kept file nodes).map KvNode.record) ∧
      openLine (file ++ nodes.flatMap logRecord) = if nodes = [] then openLine file else [] := by
  induction nodes using List.reverseRecOn with
  | nil =>
      have hkept : kept file [] = [] := by
        unfold kept
        split <;> rfl
      rw [hkept, if_pos rfl]
      simpa using h
  | append_singleton nodes node ih =>
      obtain ⟨hholds, hopen⟩ := ih fun x hx => hnodes x (List.mem_append_left _ hx)
      have happend := hholds.append_logRecord (hnodes node (by simp))
      rw [List.flatMap_append, List.flatMap_singleton, ← List.append_assoc, if_neg (by simp)]
      refine ⟨?_, openLine_logRecord _ _⟩
      rw [hopen, List.append_assoc rs] at happend
      have hkept : (kept file (nodes ++ [node])).map KvNode.record =
          (kept file nodes).map KvNode.record ++
            if (if nodes = [] then openLine file else []) = [] then [node.record] else [] := by
        unfold kept
        cases nodes with
        | nil => by_cases hnil : openLine file = [] <;> simp [hnil]
        | cons x rest => by_cases hnil : openLine file = [] <;> simp [hnil]
      rw [hkept]
      exact happend

/-- **What a start makes of a file with an open line.** -/
theorem Holds.start {file : List UInt8} {rs : List Record} (h : Holds file rs)
    (junk : Vector UInt8 valueRoom) : ∃ t, initHashFromLog Table.empty junk file = some t ∧
      ∀ key, t.sizes key = (latest (fun x => x.key = key)
        (rs ++ (Record.ofLine (openLine file)).toList)).map Record.sizes := by
  have hreads := h.reads.closed_append (reads_openLine (newline_not_mem_openLine file) h.short)
  rw [closedLines_append_openLine] at hreads
  exact hreads.start junk

end DistKv.Memcache
