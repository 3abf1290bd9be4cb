import DistKv.Memcache.StoredNodes

/-!
# Deleting a node (`delete_node`)

`delete_node` looks for the first node whose key begins with the given key, and
takes it out of its chain. It asks for the queue of the hash workers first, which
has nothing to do with the table, and returns false where that is empty. Its loop
compares the key of a node before it looks whether there is one, so without a
match it reads the key of NULL.

Nothing in the repository calls it but a test that is commented out.
-/

namespace DistKv.Memcache

open CText FirstMatch

/-- `strncmp(key_copy, current->key, key_len) == 0`. -/
def startsWith (key : Str) (current : KvNode) : Bool := Str.eqFirst key.length key current.key

/-- The loop of `delete_node` and the removal behind it: the chain without the node where
the loop stops. At the end of the chain the loop reads the key of NULL. -/
def unlink (key : Str) : List KvNode → Option (List KvNode)
  | [] => none
  | current :: next =>
      if startsWith key current then some next else (unlink key next).map (current :: ·)

theorem startsWith_iff {key : Str} {node : KvNode} :
    startsWith key node = true ↔ key.bytes <+: node.key.bytes := by
  rw [← Str.eqFirst_length]
  simp only [startsWith, Str.eqFirst, decide_eq_true_eq]
  exact eq_comm

theorem startsWith_own (node : KvNode) : startsWith node.key node = true :=
  startsWith_iff.mpr (List.prefix_refl _)

/-- The node that is taken out is the first that starts with the key. -/
theorem unlink_eq_some {key : Str} {chain rest : List KvNode} :
    unlink key chain = some rest ↔ ∃ before x after, chain = before ++ x :: after ∧
      startsWith key x = true ∧ (∀ y ∈ before, startsWith key y = false) ∧
      rest = before ++ after := by
  induction chain generalizing rest with
  | nil => simp [unlink]
  | cons current next ih =>
      unfold unlink
      by_cases hhere : startsWith key current = true
      · rw [if_pos hhere]
        constructor
        · intro h
          exact ⟨[], current, next, rfl, hhere, by simp, (Option.some.inj h).symm⟩
        · rintro ⟨before, x, after, hsplit, -, hbefore, rfl⟩
          cases before with
          | nil => rw [(List.cons.inj hsplit).2, List.nil_append]
          | cons y before =>
              rw [(List.cons.inj hsplit).1, hbefore y List.mem_cons_self] at hhere
              exact absurd hhere (by simp)
      · rw [if_neg hhere, Option.map_eq_some_iff]
        constructor
        · rintro ⟨rest', hrest', rfl⟩
          obtain ⟨before, x, after, rfl, hx, hbefore, rfl⟩ := ih.mp hrest'
          refine ⟨current :: before, x, after, rfl, hx, ?_, rfl⟩
          exact List.forall_mem_cons.mpr ⟨Bool.eq_false_of_not_eq_true hhere, hbefore⟩
        · rintro ⟨before, x, after, hsplit, hx, hbefore, rfl⟩
          cases before with
          | nil =>
              rw [(List.cons.inj hsplit).1] at hhere
              exact absurd hx hhere
          | cons y before =>
              obtain ⟨rfl, hnext⟩ := List.cons.inj hsplit
              exact ⟨before ++ after, ih.mpr ⟨before, x, after, hnext, hx,
                fun z hz => hbefore z (List.mem_cons_of_mem _ hz), rfl⟩, rfl⟩

theorem subset_of_unlink {key : Str} {chain rest : List KvNode}
    (h : unlink key chain = some rest) : rest ⊆ chain := by
  obtain ⟨before, x, after, rfl, -, -, rfl⟩ := unlink_eq_some.mp h
  exact ((List.sublist_cons_self x after).append_left before).subset

/-- The table with another chain. -/
def Table.withChain (t : Table) (index : Fin tableSize) (chain : List KvNode)
    (h : ∀ node ∈ chain, hashString node.key = index) : Table where
  chain := Function.update t.chain index chain
  placed := by
    intro i node hnode
    by_cases hi : i = index
    · subst hi
      rw [Function.update_self] at hnode
      exact h node hnode
    · rw [Function.update_of_ne hi] at hnode
      exact t.placed i node hnode

theorem Table.chain_withChain (t : Table) (index : Fin tableSize) (chain : List KvNode)
    (h : ∀ node ∈ chain, hashString node.key = index) (i : Fin tableSize) :
    (t.withChain index chain h).chain i = if i = index then chain else t.chain i :=
  Function.update_apply t.chain index chain i

/-- `delete_node`: what it returns, and the table it leaves; no result where it reads the
key of NULL. `hashQueue` is the queue of the hash workers. -/
def deleteNode (t : Table) (hashQueue : List KvNode) : Option KvNode → Option (Bool × Table)
  | none => some (false, t)
  | some kvPtr =>
      if t.chain (hashString kvPtr.key) = [] then some (false, t)
      else if hashQueue = [] then some (false, t)
      else
        match h : unlink kvPtr.key (t.chain (hashString kvPtr.key)) with
        | none => none
        | some rest =>
            some (true, t.withChain (hashString kvPtr.key) rest fun node hnode =>
              t.placed _ node (subset_of_unlink h hnode))

/-! ## What it is for -/

/-- The key is deleted and nothing else: the result tells if it was there, a lookup of it
finds nothing, and every other lookup finds what it found before. -/
def DeletesKey (t : Table) (hashQueue : List KvNode) (kvPtr : KvNode) : Prop :=
  ∃ deleted t', deleteNode t hashQueue (some kvPtr) = some (deleted, t') ∧
    (deleted = true ↔ t.Holds kvPtr.key) ∧ t'.getNode kvPtr.key = none ∧
    ∀ key, key ≠ kvPtr.key → t'.getNode key = t.getNode key

/-- Only the node `x` of the chain starts with the key, and has it; and a lookup of a
shorter key in the same chain stops before `x`. -/
structure OnlyMatch (key : Str) (before : List KvNode) (x : KvNode) (after : List KvNode) :
    Prop where
  own : x.key = key
  alone : ∀ y ∈ before ++ after, startsWith key y = false
  shorter : ∀ short : Str, short ≠ key → short.bytes <+: key.bytes →
    hashString short = hashString key → ∃ y ∈ before, startsWith short y = true

/-- The chain of the key is empty; or no node in it starts with the key, and the workers
have nothing to do; or one node does that is the right one, and they have. -/
def Deletable (t : Table) (hashQueue : List KvNode) (key : Str) : Prop :=
  t.chain (hashString key) = [] ∨
  (hashQueue = [] ∧ ∀ node ∈ t.chain (hashString key), startsWith key node = false) ∨
  hashQueue ≠ [] ∧ ∃ before x after, t.chain (hashString key) = before ++ x :: after ∧
    OnlyMatch key before x after

theorem getNode_eq_find? (t : Table) (key : Str) :
    t.getNode key = (t.chain (hashString key)).find? (startsWith key) := by
  unfold Table.getNode
  congr 1
  funext node
  simp only [startsWith, Str.eqFirst, eq_comm]

theorem getNode_eq_none_iff {t : Table} {key : Str} :
    t.getNode key = none ↔ ∀ node ∈ t.chain (hashString key), startsWith key node = false := by
  rw [getNode_eq_find?, List.find?_eq_none]
  simp only [Bool.not_eq_true]

theorem not_holds_of_startsWith {t : Table} {key : Str}
    (h : ∀ node ∈ t.chain (hashString key), startsWith key node = false) : ¬ t.Holds key := by
  rintro ⟨i, node, hnode, rfl⟩
  rw [← t.placed i node hnode] at hnode
  exact absurd (startsWith_own node) (by simp [h node hnode])

/-- The lookups in a chain from which a node was taken out. -/
theorem getNode_withChain (t : Table) (index : Fin tableSize) (chain : List KvNode)
    (h : ∀ node ∈ chain, hashString node.key = index) (key : Str) :
    (t.withChain index chain h).getNode key =
      if hashString key = index then chain.find? (startsWith key) else t.getNode key := by
  rw [getNode_eq_find?, getNode_eq_find?]
  by_cases hi : hashString key = index
  · rw [if_pos hi, Table.chain_withChain, if_pos hi]
  · rw [if_neg hi, Table.chain_withChain, if_neg hi]

/-- Taking out `x` changes no other lookup if and only if each shorter key of the chain is
found before it. -/
theorem other_lookups_iff {before after : List KvNode} {x : KvNode}
    (halone : ∀ y ∈ before ++ after, startsWith x.key y = false) :
    (∀ key, key ≠ x.key → hashString key = hashString x.key →
      (before ++ after).find? (startsWith key) =
        (before ++ x :: after).find? (startsWith key)) ↔
    ∀ short : Str, short ≠ x.key → short.bytes <+: x.key.bytes →
      hashString short = hashString x.key → ∃ y ∈ before, startsWith short y = true := by
  have hmem : x ∉ before ++ after := by
    intro hx
    exact absurd (startsWith_own x) (by simp [halone x hx])
  constructor
  · intro h short hne hprefix hhash
    by_contra hnone
    refine find?_remove_ne (startsWith_iff.mpr hprefix) (fun y hy => ?_) hmem (h short hne hhash)
    exact Bool.eq_false_of_not_eq_true fun hy' => hnone ⟨y, hy, hy'⟩
  · intro h key hne hhash
    refine find?_remove ?_
    by_cases hx : startsWith key x = true
    · exact Or.inr (h key hne (startsWith_iff.mp hx) hhash)
    · exact Or.inl (Bool.eq_false_of_not_eq_true hx)

/-- What `delete_node` returns and leaves. -/
theorem deleteNode_eq_some {t t' : Table} {hashQueue : List KvNode} {kvPtr : KvNode}
    {deleted : Bool} : deleteNode t hashQueue (some kvPtr) = some (deleted, t') ↔
      (t.chain (hashString kvPtr.key) = [] ∨ hashQueue = []) ∧ deleted = false ∧ t' = t ∨
      (t.chain (hashString kvPtr.key) ≠ [] ∧ hashQueue ≠ []) ∧ deleted = true ∧
        ∃ rest h, unlink kvPtr.key (t.chain (hashString kvPtr.key)) = some rest ∧
          t' = t.withChain (hashString kvPtr.key) rest h := by
  unfold deleteNode
  by_cases hchain : t.chain (hashString kvPtr.key) = []
  · simp only [hchain, if_true, Option.some.injEq, Prod.mk.injEq, true_or, true_and, ne_eq,
      not_true_eq_false, false_and, or_false]
    exact and_congr eq_comm eq_comm
  by_cases hqueue : hashQueue = []
  · simp only [hchain, hqueue, if_true, if_false, Option.some.injEq, Prod.mk.injEq, or_true,
      true_and, ne_eq, not_true_eq_false, and_false, false_and, or_false]
    exact and_congr eq_comm eq_comm
  simp only [hchain, hqueue, if_false, or_self, false_and, ne_eq, not_false_eq_true, true_and,
    false_or]
  split
  · rename_i hnone
    simp [hnone]
  · rename_i rest hsome
    rw [Option.some.injEq, Prod.mk.injEq]
    constructor
    · rintro ⟨rfl, rfl⟩
      exact ⟨rfl, rest, _, hsome, rfl⟩
    · rintro ⟨rfl, rest', _, hrest', rfl⟩
      obtain rfl := Option.some.inj (hsome.symm.trans hrest')
      exact ⟨rfl, rfl⟩

/-- Where the key is gone after the removal, the node that was taken out had it. -/
theorem own_of_unlinked {t : Table} {key : Str} {before after : List KvNode} {x : KvNode}
    (hsplit : t.chain (hashString key) = before ++ x :: after) (hheld : t.Holds key)
    (hgone : ∀ y ∈ before ++ after, startsWith key y = false) : x.key = key := by
  by_contra hne
  obtain ⟨i, node, hnode, rfl⟩ := hheld
  rw [← t.placed i node hnode, hsplit] at hnode
  have hin : node ∈ before ++ after := by
    simp only [List.mem_append, List.mem_cons] at hnode ⊢
    rcases hnode with hin | rfl | hin
    · exact Or.inl hin
    · exact absurd rfl hne
    · exact Or.inr hin
  exact absurd (startsWith_own node) (by simp [hgone node hin])

theorem DeletesKey.deletable {t : Table} {hashQueue : List KvNode} {kvPtr : KvNode}
    (h : DeletesKey t hashQueue kvPtr) : Deletable t hashQueue kvPtr.key := by
  obtain ⟨deleted, t', hdelete, hheld, hgone, hothers⟩ := h
  rcases deleteNode_eq_some.mp hdelete with
    ⟨hidle, rfl, rfl⟩ | ⟨⟨-, hqueue⟩, rfl, rest, hplaced, hunlink, rfl⟩
  · -- nothing was done
    rw [getNode_eq_none_iff] at hgone
    rcases hidle with hchain | hqueue
    · exact Or.inl hchain
    · exact Or.inr (Or.inl ⟨hqueue, hgone⟩)
  · obtain ⟨before, x, after, hsplit, hx, hbefore, rfl⟩ := unlink_eq_some.mp hunlink
    rw [getNode_withChain, if_pos rfl, List.find?_eq_none] at hgone
    simp only [Bool.not_eq_true] at hgone
    have hown : x.key = kvPtr.key := own_of_unlinked hsplit (hheld.mp rfl) hgone
    refine Or.inr (Or.inr ⟨hqueue, before, x, after, hsplit, hown, hgone, ?_⟩)
    rw [← hown] at hgone ⊢
    refine (other_lookups_iff hgone).mp fun key hne hhash => ?_
    have hother := hothers key (by rwa [← hown])
    rw [getNode_withChain, if_pos (by rw [hhash, hown]), getNode_eq_find?, hhash, hown,
      hsplit] at hother
    exact hother

/-- Without work, or in an empty chain, nothing is done; that is right if there is nothing
to delete. -/
theorem deletesKey_of_idle {t : Table} {hashQueue : List KvNode} {kvPtr : KvNode}
    (hidle : t.chain (hashString kvPtr.key) = [] ∨ hashQueue = [])
    (hnone : ∀ node ∈ t.chain (hashString kvPtr.key), startsWith kvPtr.key node = false) :
    DeletesKey t hashQueue kvPtr := by
  refine ⟨false, t, deleteNode_eq_some.mpr (Or.inl ⟨hidle, rfl, rfl⟩), ?_,
    getNode_eq_none_iff.mpr hnone, fun _ _ => rfl⟩
  exact iff_of_false (by simp) (not_holds_of_startsWith hnone)

theorem OnlyMatch.deletesKey {t : Table} {hashQueue : List KvNode} {kvPtr x : KvNode}
    {before after : List KvNode} (hqueue : hashQueue ≠ [])
    (hsplit : t.chain (hashString kvPtr.key) = before ++ x :: after)
    (hmatch : OnlyMatch kvPtr.key before x after) : DeletesKey t hashQueue kvPtr := by
  have hmem : x ∈ t.chain (hashString kvPtr.key) := by simp [hsplit]
  have hx : startsWith kvPtr.key x = true := hmatch.own ▸ startsWith_own x
  have hunlink : unlink kvPtr.key (t.chain (hashString kvPtr.key)) = some (before ++ after) :=
    unlink_eq_some.mpr ⟨before, x, after, hsplit, hx,
      fun y hy => hmatch.alone y (List.mem_append_left _ hy), rfl⟩
  have hplaced : ∀ node ∈ before ++ after, hashString node.key = hashString kvPtr.key :=
    fun node hnode => t.placed _ node (subset_of_unlink hunlink hnode)
  refine ⟨true, t.withChain (hashString kvPtr.key) (before ++ after) hplaced,
    deleteNode_eq_some.mpr (Or.inr ⟨⟨List.ne_nil_of_mem hmem, hqueue⟩, rfl, _, hplaced, hunlink,
      rfl⟩), ?_, ?_, ?_⟩
  · exact iff_of_true rfl ⟨_, x, hmem, hmatch.own⟩
  · rw [getNode_withChain, if_pos rfl, List.find?_eq_none]
    exact fun y hy => by simp [hmatch.alone y hy]
  · intro key hne
    rw [getNode_withChain]
    by_cases hhash : hashString key = hashString kvPtr.key
    · have halone := hmatch.alone
      have hshorter := hmatch.shorter
      rw [← hmatch.own] at halone hshorter
      rw [if_pos hhash, getNode_eq_find?, hhash, hsplit]
      exact (other_lookups_iff halone).mpr hshorter key (by rwa [hmatch.own])
        (by rw [hhash, hmatch.own])
    · rw [if_neg hhash]

/-- **`delete_node` removes a key and nothing else** if and only if the key is deletable. -/
theorem delete_node_iff (t : Table) (hashQueue : List KvNode) (kvPtr : KvNode) :
    DeletesKey t hashQueue kvPtr ↔ Deletable t hashQueue kvPtr.key := by
  refine ⟨DeletesKey.deletable, ?_⟩
  rintro (hchain | ⟨hqueue, hnone⟩ | ⟨hqueue, before, x, after, hsplit, hmatch⟩)
  · exact deletesKey_of_idle (Or.inl hchain) (by simp [hchain])
  · exact deletesKey_of_idle (Or.inr hqueue) hnone
  · exact hmatch.deletesKey hqueue hsplit

/-- A table with the one key `A`, and no work for the hash workers. -/
theorem idle_delete_fails :
    ¬ DeletesKey (Table.empty.insertNode (createNode (Str.ofBytes [65]) 20 (Str.ofBytes [120]) 1))
      [] (createNode (Str.ofBytes [65]) 20 (Str.ofBytes [120]) 1) := by
  rintro ⟨deleted, t', hdelete, hheld, -⟩
  obtain ⟨rfl, rfl⟩ : false = deleted ∧ _ = t' :=
    Prod.mk.inj (Option.some.inj (show some (false, _) = _ from hdelete))
  refine absurd (hheld.mpr (Table.holds_iff.mpr ?_)) (by decide)
  rw [Table.entry_insertNode, Function.update_self, Option.isSome_some]

end DistKv.Memcache
