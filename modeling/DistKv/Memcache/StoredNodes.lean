import DistKv.Memcache.HashMap
import Mathlib.Algebra.BigOperators.Fin

/-!
# A log replayed and a log inserted (`hashmap.c`, `init_hash_from_log`)

`insert_node` puts every node in front of its chain, and the replay updates the
node of the key in place. Both are a way of storing a node: they update the map
of the table at its key. So two tables that store the same nodes stand for the
same map, whatever their chains look like.

The replay never makes a second node of a key.
-/

namespace DistKv.Memcache

open CText FirstMatch

namespace Table

/-! ## Ways of storing a node -/

/-- It updates the map of the table at the key of the node. -/
def Stores (store : Table → KvNode → Table) : Prop :=
  ∀ t node, (store t node).entry = Function.update t.entry node.key (some node.entry)

theorem stores_insertNode : Stores insertNode := entry_insertNode

theorem stores_replaceOrInsert : Stores replaceOrInsert := entry_replaceOrInsert

/-- **The map of the table is the map of the latest nodes.** -/
theorem Stores.entry_foldl {store : Table → KvNode → Table} (h : Stores store)
    (nodes : List KvNode) (t : Table) (key : Str) :
    (nodes.foldl store t).entry key =
      ((latest (fun node => node.key = key) nodes).map KvNode.entry).or (t.entry key) := by
  induction nodes using List.reverseRec with
  | nil => rfl
  | append_singleton rest node ih =>
      rw [List.foldl_append, List.foldl_cons, List.foldl_nil, h, latest_append_singleton]
      by_cases hkey : node.key = key
      · subst hkey
        simp
      · rw [Function.update_of_ne (Ne.symm hkey), ih, if_neg (by simpa using hkey)]

theorem Stores.holds_foldl {store : Table → KvNode → Table} (h : Stores store)
    {nodes : List KvNode} {key : Str} :
    (nodes.foldl store empty).Holds key ↔ key ∈ nodes.map KvNode.key := by
  rw [holds_iff, h.entry_foldl, entry_empty, Option.or_none, Option.isSome_map,
    Option.isSome_iff_ne_none, Ne, latest_eq_none_iff, List.mem_map]
  simp

/-! ## One node for each key -/

/-- How many nodes of the table have the key. -/
def nodesOf (t : Table) (key : Str) : Nat := ∑ i, ((t.chain i).map KvNode.key).count key

/-- No chain has two nodes of one key. -/
def Unique (t : Table) : Prop := ∀ i, ((t.chain i).map KvNode.key).Nodup

theorem unique_empty : empty.Unique := fun _ => List.nodup_nil

/-- A key is looked for in the chain it hashes to. -/
theorem mem_keys_iff {t : Table} {key : Str} {i : Fin tableSize} :
    key ∈ (t.chain i).map KvNode.key ↔ hashString key = i ∧ t.Holds key := by
  rw [List.mem_map]
  constructor
  · rintro ⟨node, hnode, rfl⟩
    exact ⟨t.placed i node hnode, i, node, hnode, rfl⟩
  · rintro ⟨rfl, i, node, hnode, rfl⟩
    rw [← t.placed i node hnode] at hnode
    exact ⟨node, hnode, rfl⟩

theorem Unique.nodesOf {t : Table} (h : t.Unique) (key : Str) [Decidable (t.Holds key)] :
    t.nodesOf key = if t.Holds key then 1 else 0 := by
  have hother : ∀ i, i ≠ hashString key → ((t.chain i).map KvNode.key).count key = 0 := by
    intro i hi
    rw [List.count_eq_zero, mem_keys_iff]
    exact fun hmem => hi hmem.1.symm
  rw [Table.nodesOf, Finset.sum_eq_single (hashString key) (fun i _ => hother i) (by simp)]
  by_cases hheld : t.Holds key
  · rw [if_pos hheld]
    exact List.count_eq_one_of_mem (h _) (mem_keys_iff.mpr ⟨rfl, hheld⟩)
  · rw [if_neg hheld, List.count_eq_zero, mem_keys_iff]
    exact fun hmem => hheld hmem.2

/-- Replacing changes no key. -/
theorem Unique.replaceOrInsert {t : Table} (h : t.Unique) (node : KvNode) :
    (t.replaceOrInsert node).Unique := by
  intro i
  unfold Table.replaceOrInsert
  by_cases hany : (t.chain (hashString node.key)).any (fun current => current.key = node.key) = true
  · rw [if_pos hany]
    by_cases hi : i = hashString node.key
    · subst hi
      simp only [Function.update_self]
      refine (congrArg List.Nodup (map_updateFirst KvNode.key ?_ _)).mpr (h _)
      exact fun _ => rfl
    · simp only [Function.update_of_ne hi]
      exact h i
  · rw [if_neg hany, chain_insertNode]
    by_cases hi : hashString node.key = i
    · subst hi
      rw [if_pos rfl, List.map_cons, List.nodup_cons]
      refine ⟨fun hmem => hany ?_, h _⟩
      obtain ⟨current, hcurrent, hkey⟩ := List.mem_map.mp hmem
      exact List.any_eq_true.mpr ⟨current, hcurrent, by simpa using hkey⟩
    · rw [if_neg hi]
      exact h i

theorem Unique.foldl {t : Table} (h : t.Unique) (nodes : List KvNode) :
    (nodes.foldl Table.replaceOrInsert t).Unique := by
  induction nodes generalizing t with
  | nil => exact h
  | cons node rest ih => exact ih (h.replaceOrInsert node)

end Table

/-- **Replay agrees with live insertion**: both tables map every key to the same
value and sizes, and the replayed one has one node for each key. -/
theorem replay_agrees_with_insertion (nodes : List KvNode) :
    (∀ key, (nodes.foldl Table.replaceOrInsert Table.empty).entry key =
        (nodes.foldl Table.insertNode Table.empty).entry key) ∧
      ∀ key, (nodes.foldl Table.replaceOrInsert Table.empty).nodesOf key =
        if key ∈ nodes.map KvNode.key then 1 else 0 := by
  classical
  refine ⟨fun key => ?_, fun key => ?_⟩
  · rw [Table.stores_replaceOrInsert.entry_foldl, Table.stores_insertNode.entry_foldl]
  · rw [(Table.unique_empty.foldl nodes).nodesOf key]
    by_cases hmem : key ∈ nodes.map KvNode.key
    · rw [if_pos hmem, if_pos (Table.stores_replaceOrInsert.holds_foldl.mpr hmem)]
    · rw [if_neg hmem, if_neg (mt Table.stores_replaceOrInsert.holds_foldl.mp hmem)]

end DistKv.Memcache
