import Mathlib.Data.List.Basic
import Mathlib.Data.List.Nodup
import Mathlib.Data.List.Perm.Subperm

/-!
# Singly linked lists in a heap of malloc'ed blocks

A heap is the list of the blocks `malloc` has returned, in order: a pointer
is a block's position, and `free` leaves a hole that is never handed out
again. A store through a dangling pointer reaches no live block.

`Seg h p l m` reads off the heap that following `next` from `p` meets the
blocks of `l` and then stands at `m`; a whole list is a segment that ends at
NULL (`Chain`). The rules below say what each pointer store does to a list:

* **frame**: stores outside the list's addresses leave it alone (`Seg.frame`);
* **append**: hanging a fresh block behind the last one (`Chain.snoc`);
* **insert**: threading a block in behind a given one (`Chain.insertBehind`);
* **unlink**: taking a block out from behind a given one (`Chain.unlink`).
-/

namespace BlockHeap

variable {α : Type}

/-- One malloc'ed block: the payload and the `next` pointer. -/
structure Cell (α : Type) where
  val : α
  next : Option Nat
deriving DecidableEq, Repr

/-- The blocks in allocation order; a freed block is a hole. -/
abbrev Heap (α : Type) := List (Option (Cell α))

/-- Read the block at `a`; `none` when it was never allocated or is freed. -/
def load (h : Heap α) (a : Nat) : Option (Cell α) := (h[a]?).join

/-- Allocate a block with a NULL `next`; its address is `h.length`. -/
def malloc (h : Heap α) (v : α) : Heap α := h ++ [some ⟨v, none⟩]

/-- Give a block back. -/
def free (h : Heap α) (a : Nat) : Heap α := h.set a none

/-- Overwrite the block at `a`; a dangling `a` changes no live block. -/
def modify (h : Heap α) (a : Nat) (f : Cell α → Cell α) : Heap α :=
  List.modify h a (Option.map f)

/-- `a->next = p`. -/
def setNext (h : Heap α) (a : Nat) (p : Option Nat) : Heap α :=
  modify h a (fun c => { c with next := p })

/-- Overwrite the payload of the block at `a`. -/
def setVal (h : Heap α) (a : Nat) (f : α → α) : Heap α :=
  modify h a (fun c => { c with val := f c.val })

/-! ## Loads after stores -/

theorem load_lt {h : Heap α} {a : Nat} {c : Cell α} (hl : load h a = some c) :
    a < h.length := by
  by_contra hge
  rw [load, List.getElem?_eq_none (by omega)] at hl
  simp at hl

theorem load_malloc_self (h : Heap α) (v : α) :
    load (malloc h v) h.length = some ⟨v, none⟩ := by
  simp [load, malloc]

theorem load_malloc_of_lt {h : Heap α} {a : Nat} (v : α) (ha : a < h.length) :
    load (malloc h v) a = load h a := by
  simp [load, malloc, List.getElem?_append_left ha]

@[simp] theorem load_modify_self (h : Heap α) (a : Nat) (f : Cell α → Cell α) :
    load (modify h a f) a = (load h a).map f := by
  unfold load modify
  rw [List.getElem?_modify_eq]
  cases h[a]? with
  | none => rfl
  | some b => rfl

theorem load_modify_ne {h : Heap α} {a b : Nat} (f : Cell α → Cell α) (hne : a ≠ b) :
    load (modify h a f) b = load h b := by
  unfold load modify
  rw [List.getElem?_modify_ne (Option.map f) h hne]

theorem load_free_ne {h : Heap α} {a b : Nat} (hne : a ≠ b) :
    load (free h a) b = load h b := by
  unfold load free
  rw [List.getElem?_set_ne hne]

@[simp] theorem load_free_self (h : Heap α) (a : Nat) : load (free h a) a = none := by
  unfold load free
  by_cases ha : a < h.length
  · rw [List.getElem?_set_self ha]
    rfl
  · rw [List.getElem?_eq_none (by simpa using ha)]
    rfl

@[simp] theorem length_malloc (h : Heap α) (v : α) :
    (malloc h v).length = h.length + 1 := by
  simp [malloc]

@[simp] theorem length_modify (h : Heap α) (a : Nat) (f : Cell α → Cell α) :
    (modify h a f).length = h.length := by
  simp [modify]

@[simp] theorem length_setNext (h : Heap α) (a : Nat) (p : Option Nat) :
    (setNext h a p).length = h.length := length_modify h a _

/-! ## Live blocks -/

/-- The block at `a` was allocated and is not freed. -/
def Live (h : Heap α) (a : Nat) : Prop := (load h a).isSome = true

instance (h : Heap α) (a : Nat) : Decidable (Live h a) := inferInstanceAs (Decidable (_ = true))

theorem Live.of_load {h : Heap α} {a : Nat} {c : Cell α} (hl : load h a = some c) : Live h a := by
  unfold Live
  rw [hl]
  rfl

@[simp] theorem live_modify {h : Heap α} {a b : Nat} {f : Cell α → Cell α} :
    Live (modify h a f) b ↔ Live h b := by
  unfold Live
  by_cases hab : a = b
  · subst hab
    rw [load_modify_self, Option.isSome_map]
  · rw [load_modify_ne f hab]

@[simp] theorem live_setNext {h : Heap α} {a b : Nat} {p : Option Nat} :
    Live (setNext h a p) b ↔ Live h b := live_modify

theorem live_malloc {h : Heap α} {v : α} {b : Nat} :
    Live (malloc h v) b ↔ Live h b ∨ b = h.length := by
  unfold Live
  by_cases hlt : b < h.length
  · rw [load_malloc_of_lt v hlt, or_iff_left (Nat.ne_of_lt hlt)]
  · by_cases heq : b = h.length
    · subst heq
      simp [load_malloc_self]
    · have hnone : load (malloc h v) b = none := by
        rw [load, List.getElem?_eq_none (by rw [length_malloc]; omega)]
        rfl
      have hnone' : load h b = none := by
        rw [load, List.getElem?_eq_none (by omega)]
        rfl
      simp [hnone, hnone', heq]

theorem live_free {h : Heap α} {a b : Nat} : Live (free h a) b ↔ Live h b ∧ b ≠ a := by
  unfold Live
  by_cases hab : a = b
  · subst hab
    simp
  · rw [load_free_ne hab]
    simp [Ne.symm hab]

/-! ## List segments -/

/-- Following `next` from `p` meets the blocks `l` (address and payload) and
then stands at `m`. -/
def Seg (h : Heap α) : Option Nat → List (Nat × α) → Option Nat → Prop
  | p, [], m => p = m
  | p, (a, v) :: l, m => p = some a ∧ ∃ nx, load h a = some ⟨v, nx⟩ ∧ Seg h nx l m

/-- A whole list: a segment that ends at NULL. -/
def Chain (h : Heap α) (p : Option Nat) (l : List (Nat × α)) : Prop := Seg h p l none

/-- The addresses a list occupies. -/
abbrev addrs (l : List (Nat × α)) : List Nat := l.map Prod.fst

@[simp] theorem seg_nil {h : Heap α} {p m : Option Nat} : Seg h p [] m ↔ p = m := Iff.rfl

theorem seg_cons {h : Heap α} {p m : Option Nat} {a : Nat} {v : α}
    {l : List (Nat × α)} :
    Seg h p ((a, v) :: l) m ↔ p = some a ∧ ∃ nx, load h a = some ⟨v, nx⟩ ∧ Seg h nx l m :=
  Iff.rfl

/-- Segments compose. -/
theorem seg_append {h : Heap α} {p m : Option Nat} {l₁ l₂ : List (Nat × α)} :
    Seg h p (l₁ ++ l₂) m ↔ ∃ k, Seg h p l₁ k ∧ Seg h k l₂ m := by
  induction l₁ generalizing p with
  | nil => simp
  | cons b rest ih =>
      obtain ⟨a, v⟩ := b
      simp only [List.cons_append, seg_cons, ih]
      constructor
      · rintro ⟨hp, nx, hl, k, h1, h2⟩
        exact ⟨k, ⟨hp, nx, hl, h1⟩, h2⟩
      · rintro ⟨k, ⟨hp, nx, hl, h1⟩, h2⟩
        exact ⟨hp, nx, hl, k, h1, h2⟩

/-- Every block of a segment is live. -/
theorem Seg.load_mem {h : Heap α} {p m : Option Nat} {l : List (Nat × α)}
    (hs : Seg h p l m) : ∀ b ∈ l, ∃ nx, load h b.1 = some ⟨b.2, nx⟩ := by
  induction l generalizing p with
  | nil => intro b hb; simp at hb
  | cons c rest ih =>
      obtain ⟨a, v⟩ := c
      obtain ⟨_, nx, hl, hrest⟩ := hs
      intro b hb
      rcases List.mem_cons.mp hb with rfl | hb
      · exact ⟨nx, hl⟩
      · exact ih hrest b hb

theorem Seg.live {h : Heap α} {p m : Option Nat} {l : List (Nat × α)} (hs : Seg h p l m) :
    ∀ a ∈ addrs l, Live h a := by
  intro a ha
  obtain ⟨b, hb, rfl⟩ := List.mem_map.mp ha
  obtain ⟨nx, hl⟩ := hs.load_mem b hb
  exact Live.of_load hl

/-- A segment's addresses lie inside the heap. -/
theorem Seg.addr_lt {h : Heap α} {p m : Option Nat} {l : List (Nat × α)}
    (hs : Seg h p l m) : ∀ a ∈ addrs l, a < h.length := by
  intro a ha
  obtain ⟨b, hb, rfl⟩ := List.mem_map.mp ha
  obtain ⟨nx, hl⟩ := hs.load_mem b hb
  exact load_lt hl

/-- **Frame.** A segment depends on the blocks at its own addresses only. -/
theorem Seg.frame {h h' : Heap α} {p m : Option Nat} {l : List (Nat × α)}
    (hs : Seg h p l m) (hload : ∀ a ∈ addrs l, load h' a = load h a) :
    Seg h' p l m := by
  induction l generalizing p with
  | nil => exact hs
  | cons b rest ih =>
      obtain ⟨a, v⟩ := b
      obtain ⟨hp, nx, hl, hrest⟩ := hs
      refine ⟨hp, nx, ?_, ih hrest (fun a' ha' => hload a' (List.mem_cons_of_mem _ ha'))⟩
      rw [hload a List.mem_cons_self]
      exact hl

/-- A store at an address the segment does not use. -/
theorem Seg.modify {h : Heap α} {p m : Option Nat} {l : List (Nat × α)}
    (hs : Seg h p l m) {a : Nat} (ha : a ∉ addrs l) (f : Cell α → Cell α) :
    Seg (modify h a f) p l m :=
  hs.frame fun _ hb => load_modify_ne f (fun he => ha (he ▸ hb))

/-- Freeing an address the segment does not use. -/
theorem Seg.free {h : Heap α} {p m : Option Nat} {l : List (Nat × α)}
    (hs : Seg h p l m) {a : Nat} (ha : a ∉ addrs l) : Seg (free h a) p l m :=
  hs.frame fun _ hb => load_free_ne (fun he => ha (he ▸ hb))

/-- Allocation does not disturb a segment. -/
theorem Seg.malloc {h : Heap α} {p m : Option Nat} {l : List (Nat × α)}
    (hs : Seg h p l m) (v : α) : Seg (malloc h v) p l m :=
  hs.frame fun a ha => load_malloc_of_lt v (hs.addr_lt a ha)

/-- The next free address is not in use. -/
theorem Seg.length_not_mem {h : Heap α} {p m : Option Nat} {l : List (Nat × α)}
    (hs : Seg h p l m) : h.length ∉ addrs l :=
  fun hm => absurd (hs.addr_lt _ hm) (Nat.lt_irrefl _)

/-! ## Whole lists -/

/-- The blocks a chain passes are determined by its start. -/
theorem Chain.unique {h : Heap α} {p : Option Nat} {l₁ l₂ : List (Nat × α)}
    (h1 : Chain h p l₁) (h2 : Chain h p l₂) : l₁ = l₂ := by
  induction l₁ generalizing p l₂ with
  | nil =>
      cases l₂ with
      | nil => rfl
      | cons c _ =>
          rw [show p = none from h1] at h2
          exact absurd h2.1 (by simp)
  | cons b rest ih =>
      obtain ⟨a, v⟩ := b
      obtain ⟨rfl, nx, hl, hrest⟩ := h1
      cases l₂ with
      | nil => exact absurd (show some a = none from h2) (by simp)
      | cons c rest₂ =>
          obtain ⟨a₂, v₂⟩ := c
          obtain ⟨ha, nx₂, hl₂, hrest₂⟩ := h2
          obtain rfl : a = a₂ := by simpa using ha
          rw [hl] at hl₂
          obtain ⟨rfl, rfl⟩ : v = v₂ ∧ nx = nx₂ := by simpa using hl₂
          rw [ih hrest hrest₂]

/-- A list that ends at NULL passes no block twice: from a repeated block the
walk would have two lengths. -/
theorem Chain.nodup {h : Heap α} {p : Option Nat} {l : List (Nat × α)}
    (hc : Chain h p l) : (addrs l).Nodup := by
  induction l generalizing p with
  | nil => simp
  | cons b rest ih =>
      obtain ⟨a, v⟩ := b
      obtain ⟨hp, nx, hl, hrest⟩ := hc
      refine List.nodup_cons.mpr ⟨fun hmem => ?_, ih hrest⟩
      obtain ⟨⟨a', v'⟩, hb, ha'⟩ := List.mem_map.mp hmem
      simp only at ha'
      subst ha'
      obtain ⟨pre, post, rfl⟩ := List.append_of_mem hb
      obtain ⟨k, _, hsuf⟩ := seg_append.mp hrest
      obtain ⟨rfl, _⟩ := seg_cons.mp hsuf
      have heq := Chain.unique (show Chain h (some a') ((a', v) :: (pre ++ (a', v') :: post)) from
        ⟨rfl, nx, hl, hrest⟩) hsuf
      have := congrArg List.length heq
      simp at this
      omega

/-- A chain fits in its heap. -/
theorem Chain.length_le {h : Heap α} {p : Option Nat} {l : List (Nat × α)}
    (hc : Chain h p l) : l.length ≤ h.length := by
  have hsub : (addrs l) ⊆ List.range h.length :=
    fun a ha => List.mem_range.mpr (Seg.addr_lt hc a ha)
  simpa using (List.subperm_of_subset hc.nodup hsub).length_le

/-- Follow `next` from `p` for at most `fuel` blocks. -/
def walk (h : Heap α) : Nat → Option Nat → List (Nat × α)
  | 0, _ => []
  | _ + 1, none => []
  | fuel + 1, some a =>
      match load h a with
      | none => []
      | some c => (a, c.val) :: walk h fuel c.next

/-- With fuel for every block, the walk is the whole chain. -/
theorem Chain.walk_eq {h : Heap α} {p : Option Nat} {l : List (Nat × α)}
    (hc : Chain h p l) {fuel : Nat} (hf : l.length ≤ fuel) : walk h fuel p = l := by
  induction l generalizing p fuel with
  | nil =>
      rw [show p = none from hc]
      cases fuel with
      | zero => rfl
      | succ _ => rfl
  | cons b rest ih =>
      obtain ⟨a, v⟩ := b
      obtain ⟨rfl, nx, hl, hrest⟩ := hc
      cases fuel with
      | zero => simp at hf
      | succ f =>
          simp only [walk, hl]
          rw [ih hrest (by simpa using hf)]

/-! ## Pointer stores as list operations -/

/-- Storing a payload in place. -/
theorem Seg.setVal {h : Heap α} {p m : Option Nat} {pre post : List (Nat × α)}
    {a : Nat} {v : α} (hs : Seg h p (pre ++ (a, v) :: post) m)
    (hpre : a ∉ addrs pre) (hpost : a ∉ addrs post) (f : α → α) :
    Seg (setVal h a f) p (pre ++ (a, f v) :: post) m := by
  obtain ⟨k, h1, rfl, nx, hl, h2⟩ := seg_append.mp hs
  refine seg_append.mpr ⟨some a, h1.modify hpre _, rfl, nx, ?_, h2.modify hpost _⟩
  unfold BlockHeap.setVal
  rw [load_modify_self, hl]
  rfl

/-- Redirecting the `next` of a segment's last block moves its end. -/
theorem Seg.setNext_last {h : Heap α} {p m : Option Nat} {pre : List (Nat × α)}
    {a : Nat} {v : α} (hs : Seg h p (pre ++ [(a, v)]) m) (hpre : a ∉ addrs pre)
    (m' : Option Nat) : Seg (setNext h a m') p (pre ++ [(a, v)]) m' := by
  obtain ⟨k, h1, rfl, nx, hl, h2⟩ := seg_append.mp hs
  refine seg_append.mpr ⟨some a, h1.modify hpre _, rfl, m', ?_, rfl⟩
  unfold setNext
  rw [load_modify_self, hl]
  rfl

/-- **Append.** `last->next = a` hangs the one-block list `a` behind. -/
theorem Chain.snoc {h : Heap α} {p : Option Nat} {pre : List (Nat × α)} {t a : Nat}
    {tv v : α} (hc : Chain h p (pre ++ [(t, tv)])) (ha : load h a = some ⟨v, none⟩)
    (hne : a ∉ addrs (pre ++ [(t, tv)])) :
    Chain (setNext h t (some a)) p (pre ++ [(t, tv)] ++ [(a, v)]) := by
  have hnd := hc.nodup
  simp only [List.map_append, List.map_cons, List.map_nil, List.nodup_append,
    List.mem_singleton] at hnd
  have hta : t ≠ a := by
    rintro rfl
    exact hne (by simp)
  refine seg_append.mpr ⟨some a, Seg.setNext_last hc (fun hm => hnd.2.2 t hm t rfl rfl) _,
    rfl, none, ?_, rfl⟩
  unfold setNext
  rw [load_modify_ne _ hta]
  exact ha

/-- **Insert.** `a->next = t->next; t->next = a` threads `a` in behind `t`. -/
theorem Chain.insertBehind {h : Heap α} {p : Option Nat} {pre post : List (Nat × α)}
    {t a : Nat} {tc : Cell α} {v : α} {nx : Option Nat}
    (ht : load h t = some tc) (hc : Chain h p (pre ++ (t, tc.val) :: post))
    (ha : load h a = some ⟨v, nx⟩)
    (hne : a ∉ addrs (pre ++ (t, tc.val) :: post)) :
    Chain (setNext (setNext h a tc.next) t (some a)) p
      (pre ++ (t, tc.val) :: (a, v) :: post) := by
  have hnd := hc.nodup
  simp only [List.map_append, List.map_cons, List.nodup_append, List.nodup_cons] at hnd
  simp only [List.map_append, List.map_cons, List.mem_append, List.mem_cons, not_or] at hne
  obtain ⟨k, h1, rfl, nx', hl, h2⟩ := seg_append.mp hc
  rw [ht] at hl
  obtain rfl : tc.next = nx' := by
    have := congrArg (Option.map Cell.next) hl
    simpa using this
  have htpre : t ∉ addrs pre := fun hm => hnd.2.2 t hm t List.mem_cons_self rfl
  refine seg_append.mpr ⟨some t, (h1.modify hne.1 _).modify htpre _, rfl, some a, ?_,
    rfl, tc.next, ?_, (h2.modify hne.2.2 _).modify hnd.2.1.1 _⟩
  · unfold setNext
    rw [load_modify_self, load_modify_ne _ hne.2.1, ht]
    rfl
  · unfold setNext
    rw [load_modify_ne _ (Ne.symm hne.2.1), load_modify_self, ha]
    rfl

/-- **Unlink.** `t->next = a->next; free(a)` takes `a` out from behind `t`. -/
theorem Chain.unlink {h : Heap α} {p : Option Nat} {pre post : List (Nat × α)}
    {t a : Nat} {tv : α} {c : Cell α}
    (hc : Chain h p (pre ++ (t, tv) :: (a, c.val) :: post)) (ha : load h a = some c) :
    Chain (free (setNext h t c.next) a) p (pre ++ (t, tv) :: post) := by
  have hnd := hc.nodup
  simp only [List.map_append, List.map_cons, List.nodup_append, List.nodup_cons,
    List.mem_cons, not_or] at hnd
  obtain ⟨hpre, ⟨⟨hta, htpost⟩, hapost, _⟩, hdisj⟩ := hnd
  obtain ⟨k, h1, rfl, nx, hl, hk, nx', hl', h2⟩ := seg_append.mp hc
  obtain rfl : nx = some a := hk
  rw [ha] at hl'
  obtain rfl : c.next = nx' := by
    have := congrArg (Option.map Cell.next) hl'
    simpa using this
  have htpre : t ∉ addrs pre := fun hm => hdisj t hm t (Or.inl rfl) rfl
  have hapre : a ∉ addrs pre := fun hm => hdisj a hm a (Or.inr (Or.inl rfl)) rfl
  refine seg_append.mpr ⟨some t, (h1.modify htpre _).free hapre, rfl, c.next, ?_,
    (h2.modify htpost _).free hapost⟩
  unfold setNext
  rw [load_free_ne (Ne.symm hta), load_modify_self, hl]
  rfl

end BlockHeap
