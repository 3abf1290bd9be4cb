import DistKv.Memcache.Server

/-!
# The write-ahead log (`init_hash_from_log`)

The log is read back line by line: `fgets` cuts it at newlines and after 149
bytes, `sscanf` takes a line apart, and a line of which exactly three fields
are assigned is taken for a record. Its value is what the local array `value`
holds: no accepted line has assigned it, so it holds what was there before.
A key of fifty bytes or more is written outside of the local array `key`, and
the replay has no result.

What a line does to the sizes of the keys depends on the line alone
(`Record.ofLine`), and the replay as a whole keeps for each key the sizes of
its last record.
-/

namespace DistKv.Memcache

open CText FirstMatch

/-- `sizeof(line) - 1`. -/
abbrev lineRoom : Nat := 149

/-- `sizeof(key)`. -/
abbrev keyRoom : Nat := 50

/-- `sizeof(value)`. -/
abbrev valueRoom : Nat := 700

/-- How many fields `sscanf` assigned, and which. -/
structure Fields where
  count : Nat := 0
  key : List UInt8 := []
  userSize : UInt64 := 0
  valueSize : UInt64 := 0
  value : List UInt8 := []

/-- `sscanf(line, "SET %s %zu %zu %s", ...)`. -/
def scanRecord : List UInt8 → Fields
  | 83 :: 69 :: 84 :: s =>
      match scanWord s with
      | none => {}
      | some (key, s) =>
          match scanSize s with
          | none => { count := 1, key := key }
          | some (userSize, s) =>
              match scanSize s with
              | none => { count := 2, key := key, userSize := userSize }
              | some (valueSize, s) =>
                  match scanWord s with
                  | none =>
                      { count := 3, key := key, userSize := userSize, valueSize := valueSize }
                  | some (value, _) =>
                      { count := 4, key := key, userSize := userSize, valueSize := valueSize,
                        value := value }
  | _ => {}

/-- The table, and the local array `value`. -/
structure Replay where
  table : Table
  value : List UInt8

/-- The body of the loop, for the line in the array `line`. -/
def replayLine (st : Replay) (line : List UInt8) : Option Replay :=
  let f := scanRecord (Str.ofBytes line).bytes
  if keyRoom < f.key.length + 1 then none
  else
    (if f.count = 4 then store st.value 0 (f.value ++ [0]) else some st.value).map fun value =>
      if f.count = 3 ∧ f.valueSize.toNat < valueRoom then
        -- `oper_flg` is never set here, and nothing reads it
        { table := st.table.replaceOrInsert
            { key := Str.ofBytes f.key
              value := Str.ofFirst f.valueSize.toNat value
              valueSize := f.valueSize.toNat
              userSize := f.userSize
              operFlg := 0 }
          value := value }
      else { st with value := value }

/-- `init_hash_from_log`, for what the array `value` holds at its start. -/
def initHashFromLog (table : Table) (junk : Vector UInt8 valueRoom) (log : List UInt8) :
    Option Table :=
  ((readLines lineRoom log).foldlM replayLine ⟨table, junk.toList⟩).map Replay.table

/-! ## What a line is taken for -/

/-- A line that is taken for a record. -/
structure Record where
  key : Str
  userSize : UInt64
  valueSize : Nat
deriving DecidableEq

/-- The record a line is taken for, if any. -/
def Record.ofLine (line : List UInt8) : Option Record :=
  let f := scanRecord (Str.ofBytes line).bytes
  if f.count = 3 ∧ f.valueSize.toNat < valueRoom then
    some ⟨Str.ofBytes f.key, f.userSize, f.valueSize.toNat⟩
  else none

/-- The key of the line does not fit into the array `key`. -/
def Overruns (line : List UInt8) : Prop :=
  keyRoom < (scanRecord (Str.ofBytes line).bytes).key.length + 1

instance (line : List UInt8) : Decidable (Overruns line) := inferInstanceAs (Decidable (_ < _))

/-- The sizes the table has for a key. -/
def Table.sizes (t : Table) (key : Str) : Option (UInt64 × Nat) :=
  (t.entry key).map fun e => (e.userSize, e.valueSize)

def Record.sizes (r : Record) : UInt64 × Nat := (r.userSize, r.valueSize)

/-- **What `sscanf` does on a line**: it takes three fields or four off it, or it
assigns neither two sizes nor a value. -/
theorem scanRecord_cases (line : List UInt8) :
    ((scanRecord line).count < 3 ∧ (scanRecord line).value = []) ∨
    ∃ s key s₁ userSize s₂ valueSize s₃, line = 83 :: 69 :: 84 :: s ∧
      scanWord s = some (key, s₁) ∧ scanSize s₁ = some (userSize, s₂) ∧
      scanSize s₂ = some (valueSize, s₃) ∧
      (scanWord s₃ = none ∧ scanRecord line = ⟨3, key, userSize, valueSize, []⟩ ∨
        ∃ value s₄, scanWord s₃ = some (value, s₄) ∧
          scanRecord line = ⟨4, key, userSize, valueSize, value⟩) := by
  unfold scanRecord
  split
  · rename_i s
    cases hkey : scanWord s with
    | none => simp
    | some k =>
        cases hu : scanSize k.2 with
        | none => simp [hu]
        | some u =>
            cases hn : scanSize u.2 with
            | none => simp [hu, hn]
            | some v =>
                refine Or.inr ⟨s, k.1, k.2, u.1, u.2, v.1, v.2, rfl, hkey, hu, hn, ?_⟩
                cases hv : scanWord v.2 with
                | none => exact Or.inl ⟨rfl, by simp [hu, hn, hv]⟩
                | some w => exact Or.inr ⟨w.1, w.2, rfl, by simp [hu, hn, hv]⟩
  · simp

/-- The value is no longer than the line. -/
theorem value_length_le (line : List UInt8) : (scanRecord line).value.length ≤ line.length := by
  rcases scanRecord_cases line with ⟨-, hnil⟩ |
    ⟨s, key, s₁, userSize, s₂, valueSize, s₃, rfl, hkey, hu, hn, ⟨-, hf⟩ | ⟨value, s₄, hv, hf⟩⟩
  · rw [hnil]
    exact Nat.zero_le _
  · rw [hf]
    exact Nat.zero_le _
  · obtain ⟨-, blank, hs₃, -⟩ := isWord_of_scanWord hv
    have h₃ := (((suffix_of_scanSize hn).trans (suffix_of_scanSize hu)).trans
      (suffix_of_scanWord hkey)).length_le
    have := congrArg List.length hs₃
    rw [hf]
    simp only [List.length_append, List.length_cons] at this ⊢
    omega

/-- **What one line does**: nothing is left of it but the record it is taken
for, with the value found in the array. -/
theorem replayLine_spec {st : Replay} {line : List UInt8} (hvalue : st.value.length = valueRoom)
    (hline : line.length ≤ lineRoom) (hover : ¬ Overruns line) :
    ∃ next, replayLine st line = some next ∧ next.value.length = valueRoom ∧
      (next.value = st.value ∨ ∃ word, IsWord word ∧
        next.value = word ++ 0 :: st.value.drop (word.length + 1)) ∧
      next.table = match Record.ofLine line with
        | none => st.table
        | some r => st.table.replaceOrInsert
            ⟨r.key, Str.ofFirst r.valueSize next.value, r.valueSize, r.userSize, 0⟩ := by
  unfold Overruns at hover
  unfold replayLine Record.ofLine
  have hshort := value_length_le (Str.ofBytes line).bytes
  have hlen : (Str.ofBytes line).bytes.length ≤ line.length := Str.length_ofBytes_le line
  simp only
  rw [if_neg hover]
  by_cases hfour : (scanRecord (Str.ofBytes line).bytes).count = 4
  · have hroom : (scanRecord (Str.ofBytes line).bytes).value.length + 1 ≤ st.value.length := by
      have : lineRoom < valueRoom := by decide
      omega
    have hstore : store st.value 0 ((scanRecord (Str.ofBytes line).bytes).value ++ [0]) =
        some ((scanRecord (Str.ofBytes line).bytes).value ++
          0 :: st.value.drop ((scanRecord (Str.ofBytes line).bytes).value.length + 1)) := by
      rw [store_zero (by rwa [List.length_append, List.length_singleton]), List.length_append,
        List.length_singleton, List.append_assoc, List.singleton_append]
    have hword : IsWord (scanRecord (Str.ofBytes line).bytes).value := by
      rcases scanRecord_cases (Str.ofBytes line).bytes with ⟨hcount, -⟩ |
        ⟨s, key, s₁, userSize, s₂, valueSize, s₃, -, -, -, -, ⟨-, hf⟩ | ⟨value, s₄, hv, hf⟩⟩
      · omega
      · rw [hf] at hfour
        simp at hfour
      · rw [hf]
        exact (isWord_of_scanWord hv).1
    rw [if_pos hfour, hstore, Option.map_some]
    refine ⟨_, rfl, ?_, Or.inr ⟨_, hword, ?_⟩, ?_⟩
    · simpa [hfour] using (length_of_store hstore).trans hvalue
    · simp [hfour]
    · simp [hfour]
  · rw [if_neg hfour, Option.map_some]
    refine ⟨_, rfl, ?_⟩
    by_cases htaken : (scanRecord (Str.ofBytes line).bytes).count = 3 ∧
        (scanRecord (Str.ofBytes line).bytes).valueSize.toNat < valueRoom
    · rw [if_pos htaken, if_pos htaken]
      exact ⟨hvalue, Or.inl rfl, rfl⟩
    · rw [if_neg htaken, if_neg htaken]
      exact ⟨hvalue, Or.inl rfl, rfl⟩

theorem replayLine_eq_none {st : Replay} {line : List UInt8} (h : Overruns line) :
    replayLine st line = none :=
  if_pos h

/-! ## The loop -/

/-- What each line keeps holds behind the loop. -/
theorem replay_invariant {Q : Replay → Prop} {lines : List (List UInt8)}
    (hstep : ∀ st, st.value.length = valueRoom → Q st → ∀ line ∈ lines, ¬ Overruns line →
      ∀ st', replayLine st line = some st' → Q st')
    (hlines : ∀ line ∈ lines, line.length ≤ lineRoom) {st st' : Replay}
    (hvalue : st.value.length = valueRoom) (hst : Q st)
    (h : lines.foldlM replayLine st = some st') : Q st' := by
  induction lines generalizing st with
  | nil =>
      obtain rfl : st = st' := by simpa using h
      exact hst
  | cons line rest ih =>
      rw [List.foldlM_cons] at h
      obtain ⟨next, hnext, hrest⟩ := Option.bind_eq_some_iff.mp h
      have hover : ¬ Overruns line := fun hover => by
        rw [replayLine_eq_none hover] at hnext
        exact absurd hnext (by simp)
      obtain ⟨_, hline, hlen, -⟩ := replayLine_spec hvalue (hlines line List.mem_cons_self) hover
      obtain rfl := Option.some.inj (hnext.symm.trans hline)
      exact ih (fun st hv hQ l hl => hstep st hv hQ l (List.mem_cons_of_mem _ hl))
        (fun l hl => hlines l (List.mem_cons_of_mem _ hl)) hlen
        (hstep st hvalue hst line List.mem_cons_self hover _ hnext) hrest

/-- A line that overruns leaves the replay without a result. -/
theorem replay_eq_none {lines : List (List UInt8)} (hlines : ∀ line ∈ lines, line.length ≤ lineRoom)
    {st : Replay} (hvalue : st.value.length = valueRoom) (h : ∃ line ∈ lines, Overruns line) :
    lines.foldlM replayLine st = none := by
  induction lines generalizing st with
  | nil => simp at h
  | cons line rest ih =>
      rw [List.foldlM_cons]
      by_cases hover : Overruns line
      · rw [replayLine_eq_none hover]
        rfl
      · obtain ⟨next, hline, hlen, -⟩ :=
          replayLine_spec hvalue (hlines line List.mem_cons_self) hover
        rw [hline]
        refine ih (fun l hl => hlines l (List.mem_cons_of_mem _ hl)) hlen ?_
        obtain ⟨l, hl, hlover⟩ := h
        rcases List.mem_cons.mp hl with rfl | hl
        · exact absurd hlover hover
        · exact ⟨l, hl, hlover⟩

theorem Table.sizes_replaceOrInsert (t : Table) (node : KvNode) :
    (t.replaceOrInsert node).sizes =
      Function.update t.sizes node.key (some (node.userSize, node.valueSize)) := by
  funext key
  unfold sizes
  rw [entry_replaceOrInsert]
  by_cases hkey : key = node.key
  · subst hkey
    simp [KvNode.entry]
  · simp [hkey]

/-- **The replay keeps for each key the sizes of its last record.** -/
theorem replay_sizes {lines : List (List UInt8)} (hlines : ∀ line ∈ lines, line.length ≤ lineRoom)
    (st : Replay) (hvalue : st.value.length = valueRoom) (h : ∀ line ∈ lines, ¬ Overruns line) :
    ∃ st', lines.foldlM replayLine st = some st' ∧ ∀ key, st'.table.sizes key =
      ((latest (fun r => r.key = key) (lines.filterMap Record.ofLine)).map Record.sizes).or
        (st.table.sizes key) := by
  induction lines generalizing st with
  | nil => exact ⟨st, rfl, fun key => rfl⟩
  | cons line rest ih =>
      obtain ⟨next, hline, hlen, -, htable⟩ := replayLine_spec hvalue
        (hlines line List.mem_cons_self) (h line List.mem_cons_self)
      obtain ⟨st', hst', hsizes⟩ := ih (fun l hl => hlines l (List.mem_cons_of_mem _ hl)) next hlen
        (fun l hl => h l (List.mem_cons_of_mem _ hl))
      refine ⟨st', by rw [List.foldlM_cons, hline]; exact hst', fun key => ?_⟩
      rw [hsizes key, htable]
      cases hr : Record.ofLine line with
      | none => rw [List.filterMap_cons_none hr]
      | some r =>
          rw [List.filterMap_cons_some hr, ← List.singleton_append, latest_append]
          simp only [Table.sizes_replaceOrInsert]
          cases latest (fun r => r.key = key) (rest.filterMap Record.ofLine) with
          | some last => rfl
          | none =>
              by_cases hkey : r.key = key
              · simp [latest, hkey, Record.sizes]
              · simp [latest, hkey, Function.update_of_ne (Ne.symm hkey)]

/-! ## The values -/

/-- No value is longer than its size. -/
def Table.Fits (t : Table) : Prop :=
  ∀ key e, t.entry key = some e → e.value.length ≤ e.valueSize

theorem replay_fits {lines : List (List UInt8)} (hlines : ∀ line ∈ lines, line.length ≤ lineRoom)
    {st st' : Replay} (hvalue : st.value.length = valueRoom) (hst : st.table.Fits)
    (h : lines.foldlM replayLine st = some st') : st'.table.Fits := by
  refine replay_invariant (Q := fun st => st.table.Fits) ?_ hlines hvalue hst h
  intro st hlen hfits line hline hover st' hst' key e he
  obtain ⟨_, hspec, -, -, htable⟩ := replayLine_spec hlen (hlines line hline) hover
  obtain rfl := Option.some.inj (hst'.symm.trans hspec)
  rw [htable] at he
  cases hr : Record.ofLine line with
  | none =>
      rw [hr] at he
      exact hfits key e he
  | some r =>
      simp only [hr, Table.entry_replaceOrInsert] at he
      by_cases hkey : key = r.key
      · subst hkey
        rw [Function.update_self, Option.some.injEq] at he
        subst he
        exact Str.length_ofFirst_le _ _
      · rw [Function.update_of_ne hkey] at he
        exact hfits key e he

/-- Neither the array nor a value in the table has a blank. -/
structure Blankless (st : Replay) : Prop where
  value : ∀ c ∈ (Str.ofBytes st.value).bytes, isSpace c = false
  table : ∀ key e, st.table.entry key = some e → ∀ c ∈ e.value.bytes, isSpace c = false

theorem mem_ofFirst {n : Nat} {l : List UInt8} {c : UInt8} (h : c ∈ (Str.ofFirst n l).bytes) :
    c ∈ (Str.ofBytes l).bytes := by
  change c ∈ (l.take n).takeWhile _ at h
  rw [← List.take_takeWhile] at h
  exact List.mem_of_mem_take h

/-- The string in an array into which a string was written is that string. -/
theorem mem_of_mem_ofBytes {word rest : List UInt8} {c : UInt8}
    (h : c ∈ (Str.ofBytes (word ++ 0 :: rest)).bytes) : c ∈ word := by
  change c ∈ (word ++ 0 :: rest).takeWhile _ at h
  rw [List.takeWhile_append] at h
  split at h
  · simpa using h
  · exact (List.takeWhile_prefix _).subset h

/-- **A value that the replay stores is a word, or what the array held at the start.** -/
theorem replay_blankless {lines : List (List UInt8)}
    (hlines : ∀ line ∈ lines, line.length ≤ lineRoom) {st st' : Replay}
    (hvalue : st.value.length = valueRoom) (hst : Blankless st)
    (h : lines.foldlM replayLine st = some st') : Blankless st' := by
  refine replay_invariant ?_ hlines hvalue hst h
  intro st hlen hblank line hline hover st' hst'
  obtain ⟨_, hspec, -, hcases, htable⟩ := replayLine_spec hlen (hlines line hline) hover
  obtain rfl := Option.some.inj (hst'.symm.trans hspec)
  have hword : ∀ c ∈ (Str.ofBytes st'.value).bytes, isSpace c = false := by
    rcases hcases with hsame | ⟨word, hword, hnew⟩
    · rw [hsame]
      exact hblank.value
    · rw [hnew]
      exact fun c hc => hword.2 c (mem_of_mem_ofBytes hc)
  refine ⟨hword, fun key e he => ?_⟩
  rw [htable] at he
  cases hr : Record.ofLine line with
  | none =>
      rw [hr] at he
      exact hblank.table key e he
  | some r =>
      simp only [hr, Table.entry_replaceOrInsert] at he
      by_cases hkey : key = r.key
      · subst hkey
        rw [Function.update_self, Option.some.injEq] at he
        subst he
        exact fun c hc => hword c (mem_ofFirst hc)
      · rw [Function.update_of_ne hkey] at he
        exact hblank.table key e he

end DistKv.Memcache
