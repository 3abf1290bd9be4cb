import Mathlib.Logic.Relation
import Mathlib.Order.Basic

/-!
# Logical clocks along a trace

A trace lists the events of several processes in the order in which they
happen; `clock e` is the process of an event with its clock reading, if the
event counts, and `delivers e e'` says that `e'` receives what `e` sends.

An event happened before another one if a chain of direct steps leads from the
first to the second: later at the same process, or from a sending to a receipt.
The clock condition asks for a smaller reading along every such chain.
`clockCondition_iff` reduces it to pairs of entries: the readings of each
process grow, and every receipt reads more than its sending.
-/

namespace LogicalClock

variable {ε ι τ : Type} (clock : ε → Option (ι × τ)) (delivers : ε → ε → Prop)

/-- Entry `i` leads to the later entry `j` in one step. -/
def Directly (history : List ε) (i j : Nat) : Prop :=
  i < j ∧ ∃ e e', history[i]? = some e ∧ history[j]? = some e' ∧
    ((∃ p c c', clock e = some (p, c) ∧ clock e' = some (p, c')) ∨ delivers e e')

/-- Program order at each process, from a sending to its receipts, and transitively. -/
def HappenedBefore (history : List ε) : Nat → Nat → Prop :=
  Relation.TransGen (Directly clock delivers history)

/-- What happened before has a smaller reading. -/
def ClockCondition [LT τ] (history : List ε) : Prop :=
  ∀ i j, HappenedBefore clock delivers history i j → ∀ e e' p q c c', history[i]? = some e →
    history[j]? = some e' → clock e = some (p, c) → clock e' = some (q, c') → c < c'

/-- If both events are of one process, the second one reads more. -/
def Ticks [LT τ] (e e' : ε) : Prop :=
  ∀ p c c', clock e = some (p, c) → clock e' = some (p, c') → c < c'

/-- If the second event receives what the first one sends, it reads more. -/
def ReadsMore [LT τ] (e e' : ε) : Prop :=
  delivers e e' → ∀ p q c c', clock e = some (p, c) → clock e' = some (q, c') → c < c'

variable {clock delivers}

/-- **The clock condition is about direct steps.** -/
theorem clockCondition_iff [Preorder τ] {history : List ε}
    (hclock : ∀ e e', delivers e e' → ∃ p q c c', clock e = some (p, c) ∧
      clock e' = some (q, c')) :
    ClockCondition clock delivers history ↔
      history.Pairwise (Ticks clock) ∧ history.Pairwise (ReadsMore clock delivers) := by
  constructor
  · intro h
    refine ⟨List.pairwise_iff_getElem.mpr fun i j hi hj hij p c c' hc hc' => ?_,
      List.pairwise_iff_getElem.mpr fun i j hi hj hij hd p q c c' hc hc' => ?_⟩
    · have hdirect : Directly clock delivers history i j :=
        ⟨hij, _, _, List.getElem?_eq_getElem hi, List.getElem?_eq_getElem hj,
          Or.inl ⟨p, c, c', hc, hc'⟩⟩
      exact h i j (.single hdirect) _ _ p p c c' (List.getElem?_eq_getElem hi)
        (List.getElem?_eq_getElem hj) hc hc'
    · have hdirect : Directly clock delivers history i j :=
        ⟨hij, _, _, List.getElem?_eq_getElem hi, List.getElem?_eq_getElem hj, Or.inr hd⟩
      exact h i j (.single hdirect) _ _ p q c c' (List.getElem?_eq_getElem hi)
        (List.getElem?_eq_getElem hj) hc hc'
  · rintro ⟨hticks, hover⟩
    -- both ends of a direct step have a reading, and the second one is larger
    have hdirect : ∀ i j, Directly clock delivers history i j → ∃ e e' p q c c',
        history[i]? = some e ∧ history[j]? = some e' ∧ clock e = some (p, c) ∧
        clock e' = some (q, c') ∧ c < c' := by
      rintro i j ⟨hij, e, e', hi, hj, hstep⟩
      obtain ⟨hil, rfl⟩ := List.getElem?_eq_some_iff.mp hi
      obtain ⟨hjl, rfl⟩ := List.getElem?_eq_some_iff.mp hj
      rcases hstep with ⟨p, c, c', hc, hc'⟩ | hd
      · exact ⟨_, _, p, p, c, c', hi, hj, hc, hc',
          List.pairwise_iff_getElem.mp hticks i j hil hjl hij p c c' hc hc'⟩
      · obtain ⟨p, q, c, c', hc, hc'⟩ := hclock _ _ hd
        exact ⟨_, _, p, q, c, c', hi, hj, hc, hc',
          List.pairwise_iff_getElem.mp hover i j hil hjl hij hd p q c c' hc hc'⟩
    intro i j hbefore
    induction hbefore with
    | single h =>
        intro e e' p q c c' he he' hc hc'
        obtain ⟨d, d', p', q', b, b', hd, hd', hb, hb', hlt⟩ := hdirect _ _ h
        obtain rfl := Option.some.inj (he.symm.trans hd)
        obtain rfl := Option.some.inj (he'.symm.trans hd')
        obtain ⟨-, rfl⟩ := Prod.mk.inj (Option.some.inj (hc.symm.trans hb))
        obtain ⟨-, rfl⟩ := Prod.mk.inj (Option.some.inj (hc'.symm.trans hb'))
        exact hlt
    | tail _ h ih =>
        intro e e' p q c c' he he' hc hc'
        obtain ⟨d, d', p', q', b, b', hd, hd', hb, hb', hlt⟩ := hdirect _ _ h
        obtain rfl := Option.some.inj (he'.symm.trans hd')
        obtain ⟨-, rfl⟩ := Prod.mk.inj (Option.some.inj (hc'.symm.trans hb'))
        exact (ih e d p p' c b he hd hc hb).trans hlt

end LogicalClock
