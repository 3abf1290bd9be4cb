import DistKv.Lib.CString
import DistKv.Lib.FirstMatch
import Mathlib.Logic.Function.Basic

/-!
# The hash map (`hashmap.c`)

`TABLESIZE` chains of nodes, newest first. A set puts its node in front of the
chain of its key and leaves older nodes of the key where they are. For the
code a chain is a linked list that is only prepended to; here it is a `List`.

What a table is for is the partial map `Table.entry`: the newest node of each
key. Both ways of storing a node, `insertNode` and the replacement in
`init_hash_from_log`, update that map at one key.
-/

namespace DistKv.Memcache

open CText FirstMatch

/-- `TABLESIZE`. -/
abbrev tableSize : Nat := 5

/-- A `char` as `hash_string` adds it: signed, and converted to 32 bits. -/
def charValue (c : UInt8) : UInt32 := if c < 128 then c.toUInt32 else c.toUInt32 - 256

/-- The accumulator of `hash_string`. -/
def hashAccumulator (hash : UInt32) : List UInt8 → UInt32
  | [] => hash
  | c :: str => hashAccumulator ((hash <<< 5) + charValue c) str

/-- `hash_string`. -/
def hashString (str : Str) : Fin tableSize :=
  ⟨(hashAccumulator 5381 str.bytes).toNat % tableSize, Nat.mod_lt _ (by decide)⟩

/-- `kv_node_t`, without its `next`. -/
structure KvNode where
  key : Str
  value : Str
  valueSize : Nat
  userSize : UInt64
  operFlg : UInt8
deriving DecidableEq

/-- `create_node`. -/
def createNode (key : Str) (userSize : UInt64) (value : Str) (operFlg : UInt8) : KvNode :=
  { key := key, value := value, valueSize := value.length, userSize := userSize,
    operFlg := operFlg }

/-- `hash_map`: every node is in the chain its key hashes to. -/
structure Table where
  chain : Fin tableSize → List KvNode
  placed : ∀ i, ∀ node ∈ chain i, hashString node.key = i

namespace Table

/-- The table `init_map` leaves. -/
def empty : Table := ⟨fun _ => [], by simp⟩

/-- `insert_node`. -/
def insertNode (t : Table) (node : KvNode) : Table where
  chain := Function.update t.chain (hashString node.key) (node :: t.chain (hashString node.key))
  placed := by
    intro i x hx
    by_cases hi : i = hashString node.key
    · subst hi
      rw [Function.update_self] at hx
      rcases List.mem_cons.mp hx with rfl | hx
      · rfl
      · exact t.placed _ x hx
    · rw [Function.update_of_ne hi] at hx
      exact t.placed i x hx

/-- `get_node`: the first node of the chain whose key agrees with `key` over
the length of `key`. -/
def getNode (t : Table) (key : Str) : Option KvNode :=
  (t.chain (hashString key)).find? fun node => Str.eqFirst key.length node.key key

/-- The replacement of `init_hash_from_log`: a node with the key gets the new
value and sizes, and without one the new node is inserted. -/
def replaceOrInsert (t : Table) (node : KvNode) : Table :=
  if (t.chain (hashString node.key)).any fun current => current.key = node.key then
    { chain := Function.update t.chain (hashString node.key)
        (updateFirst (fun current => current.key = node.key)
          (fun current => { current with
            value := node.value, valueSize := node.valueSize, userSize := node.userSize })
          (t.chain (hashString node.key)))
      placed := by
        intro i x hx
        by_cases hi : i = hashString node.key
        · subst hi
          rw [Function.update_self] at hx
          obtain ⟨y, hy, rfl | rfl⟩ := mem_updateFirst hx
          · exact t.placed _ x hy
          · exact t.placed _ y hy
        · rw [Function.update_of_ne hi] at hx
          exact t.placed i x hx }
  else t.insertNode node

end Table

/-! ## The map a table stands for -/

/-- What is stored under a key. -/
structure Entry where
  value : Str
  valueSize : Nat
  userSize : UInt64
deriving DecidableEq

def KvNode.entry (node : KvNode) : Entry := ⟨node.value, node.valueSize, node.userSize⟩

namespace Table

/-- The newest node with the key. -/
def find (t : Table) (key : Str) : Option KvNode :=
  (t.chain (hashString key)).find? fun node => node.key = key

/-- The partial map from keys to what is stored under them. -/
def entry (t : Table) (key : Str) : Option Entry := (t.find key).map KvNode.entry

/-- Some node of the table has the key. -/
def Holds (t : Table) (key : Str) : Prop := ∃ i, ∃ node ∈ t.chain i, node.key = key

theorem entry_empty (key : Str) : empty.entry key = none := rfl

/-- A key is in the table if and only if it is mapped. -/
theorem holds_iff {t : Table} {key : Str} : t.Holds key ↔ (t.entry key).isSome = true := by
  unfold entry
  rw [Option.isSome_map, find, List.find?_isSome]
  constructor
  · rintro ⟨i, node, hnode, rfl⟩
    rw [← t.placed i node hnode] at hnode
    exact ⟨node, hnode, by simp⟩
  · rintro ⟨node, hnode, hkey⟩
    exact ⟨_, node, hnode, by simpa using hkey⟩

theorem chain_insertNode (t : Table) (node : KvNode) (i : Fin tableSize) :
    (t.insertNode node).chain i =
      if hashString node.key = i then node :: t.chain i else t.chain i := by
  unfold insertNode
  by_cases hi : hashString node.key = i
  · subst hi
    simp
  · rw [if_neg hi]
    exact Function.update_of_ne (Ne.symm hi) _ _

/-- **Storing a node updates the map at its key.** -/
theorem entry_insertNode (t : Table) (node : KvNode) :
    (t.insertNode node).entry = Function.update t.entry node.key (some node.entry) := by
  funext key
  unfold entry find
  rw [chain_insertNode]
  by_cases hkey : key = node.key
  · subst hkey
    simp
  · rw [Function.update_of_ne hkey]
    by_cases hi : hashString node.key = hashString key
    · rw [if_pos hi, List.find?_cons_of_neg (by simpa using fun h => hkey h.symm)]
    · rw [if_neg hi]

/-- Replacing instead of inserting gives the same map. -/
theorem entry_replaceOrInsert (t : Table) (node : KvNode) :
    (t.replaceOrInsert node).entry = Function.update t.entry node.key (some node.entry) := by
  unfold replaceOrInsert
  by_cases hany : (t.chain (hashString node.key)).any (fun current => current.key = node.key) = true
  · rw [if_pos hany]
    funext key
    unfold entry find
    by_cases hkey : key = node.key
    · subst hkey
      have hsome : ((t.chain (hashString node.key)).find?
          fun current => current.key = node.key).isSome = true := by
        rw [List.find?_isSome]
        exact List.any_eq_true.mp hany
      obtain ⟨first, hfirst⟩ := Option.isSome_iff_exists.mp hsome
      simp only [Function.update_self]
      rw [find?_updateFirst (by intro x hx; simpa using hx), hfirst]
      rfl
    · rw [Function.update_of_ne hkey]
      by_cases hi : hashString key = hashString node.key
      · simp only [hi, Function.update_self]
        rw [find?_updateFirst_of_not]
        intro x hx
        have hx : x.key = node.key := by simpa using hx
        simpa [hx] using fun h => hkey h.symm
      · simp only [Function.update_of_ne hi]
  · rw [if_neg hany]
    exact t.entry_insertNode node

end Table

end DistKv.Memcache
