import Mathlib.Data.List.Induction
import Earley.Grammar.Basic
/-!
# An index of rules by heads

The positions of the rules with a given head can be found by looking through all rules
(`Grammar.rulesFor`). They can also be gathered for all heads in one pass over the rules, in which
each rule puts its position behind those of the earlier rules with its head (`headIndex`). What is
found under a head in this index is the same (`Grammar.positionsIn_headIndex`).
-/

namespace Earley

/-- The positions that an index has for a head. -/
def positionsIn (index : List (String × List Nat)) (head : String) : List Nat :=
  (index.lookup head).getD []

/-- Puts a position behind those that an index has for a head. -/
def addPosition (head : String) (position : Nat) :
    List (String × List Nat) → List (String × List Nat)
  | [] => [(head, [position])]
  | (other, positions) :: rest =>
    if other = head then (other, positions ++ [position]) :: rest
    else (other, positions) :: addPosition head position rest

/-- The index of some rules, gathered in one pass. -/
def headIndex (rules : List Rule) : List (String × List Nat) :=
  rules.zipIdx.foldl (fun index entry => addPosition entry.1.head entry.2 index) []

/-- Only the positions of the head are changed. -/
theorem positionsIn_addPosition (head : String) (position : Nat)
    (index : List (String × List Nat)) (name : String) :
    positionsIn (addPosition head position index) name =
      if name = head then positionsIn index name ++ [position] else positionsIn index name := by
  induction index with
  | nil =>
    by_cases hname : name = head
    · simp [positionsIn, addPosition, hname]
    · simp [positionsIn, addPosition, List.lookup_cons, hname, beq_eq_false_iff_ne.2 hname]
  | cons entry rest ih =>
    obtain ⟨other, positions⟩ := entry
    unfold positionsIn at ih ⊢
    unfold addPosition
    by_cases hother : other = head
    · rw [if_pos hother, List.lookup_cons, List.lookup_cons, hother]
      by_cases hname : name = head
      · simp [hname]
      · simp [hname, beq_eq_false_iff_ne.2 hname]
    · rw [if_neg hother, List.lookup_cons, List.lookup_cons]
      by_cases hname : name = other
      · simp [hname, hother]
      · rw [beq_eq_false_iff_ne.2 hname]
        exact ih

theorem headIndex_concat (rules : List Rule) (rule : Rule) :
    headIndex (rules ++ [rule]) = addPosition rule.head rules.length (headIndex rules) := by
  rw [headIndex, List.zipIdx_append, List.foldl_append, ← headIndex, Nat.zero_add]
  rfl

/-- An index has the positions of the rules with a head, in increasing order. -/
theorem positionsIn_headIndex_eq_filter (rules : List Rule) (head : String) :
    positionsIn (headIndex rules) head =
      (List.range rules.length).filter fun i => rules[i]?.any fun rule => rule.head = head := by
  induction rules using List.reverseRecOn with
  | nil => rfl
  | append_singleton rules last ih =>
    have hbefore : ((List.range rules.length).filter fun i =>
        (rules ++ [last])[i]?.any fun rule => rule.head = head) =
        (List.range rules.length).filter fun i => rules[i]?.any fun rule => rule.head = head := by
      refine List.filter_congr fun i hi => ?_
      rw [List.getElem?_append_left (List.mem_range.1 hi)]
    rw [headIndex_concat, positionsIn_addPosition, ih, List.length_append, List.length_singleton,
      List.range_succ, List.filter_append, hbefore]
    by_cases hhead : head = last.head
    · simp [hhead]
    · simp [hhead, Ne.symm hhead]

/-- What an index has for a head are the positions of its rules in the grammar. -/
theorem Grammar.positionsIn_headIndex (g : Grammar) (head : String) :
    positionsIn (headIndex g.rules.toList) head = g.rulesFor head := by
  rw [positionsIn_headIndex_eq_filter, rulesFor, Array.length_toList]
  simp only [Array.getElem?_toList]

end Earley
