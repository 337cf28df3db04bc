/-!
# Derivation trees

A leaf shows a terminal and the word it stands for, and a node shows the head of a rule over the
trees of its right-hand side.
-/

namespace Earley

/-- A derivation tree. -/
inductive Tree where
  /-- A terminal over the word it stands for. -/
  | leaf (symbol word : String)
  /-- The head of a rule over the trees of its right-hand side. -/
  | node (label : String) (children : List Tree)
deriving Repr

namespace Tree

instance : Inhabited Tree := ⟨node "" []⟩

/-- The name at the top of a tree. -/
def label : Tree → String
  | leaf symbol _ => symbol
  | node label _ => label

mutual

/-- Whether two trees are the same. -/
def same : Tree → Tree → Bool
  | leaf s w, leaf s' w' => s == s' && w == w'
  | node l ts, node l' ts' => l == l' && sameAll ts ts'
  | _, _ => false

/-- Whether two lists of trees are the same. -/
def sameAll : List Tree → List Tree → Bool
  | [], [] => true
  | t :: ts, t' :: ts' => same t t' && sameAll ts ts'
  | _, _ => false

end

mutual

theorem eq_of_same : ∀ {t u : Tree}, same t u = true → t = u
  | leaf _ _, leaf _ _, h => by
    simp only [same, Bool.and_eq_true, beq_iff_eq] at h
    rw [h.1, h.2]
  | node _ _, node _ _, h => by
    simp only [same, Bool.and_eq_true, beq_iff_eq] at h
    rw [h.1, eq_of_sameAll h.2]
  | leaf _ _, node _ _, h => by simp [same] at h
  | node _ _, leaf _ _, h => by simp [same] at h

theorem eq_of_sameAll : ∀ {ts us : List Tree}, sameAll ts us = true → ts = us
  | [], [], _ => rfl
  | _ :: _, _ :: _, h => by
    simp only [sameAll, Bool.and_eq_true] at h
    rw [eq_of_same h.1, eq_of_sameAll h.2]
  | [], _ :: _, h => by simp [sameAll] at h
  | _ :: _, [], h => by simp [sameAll] at h

end

mutual

theorem same_self : ∀ t : Tree, same t t = true
  | leaf _ _ => by simp [same]
  | node _ ts => by simp [same, sameAll_self ts]

theorem sameAll_self : ∀ ts : List Tree, sameAll ts ts = true
  | [] => by simp [sameAll]
  | t :: ts => by simp [sameAll, same_self t, sameAll_self ts]

end

instance : DecidableEq Tree := fun t u =>
  if h : same t u = true then isTrue (eq_of_same h)
  else isFalse fun heq => h (heq ▸ same_self t)

/-- The number of leaves and nodes of some trees. -/
def sizeAll : List Tree → Nat
  | [] => 0
  | leaf _ _ :: rest => 1 + sizeAll rest
  | node _ children :: rest => 1 + sizeAll children + sizeAll rest

theorem sizeAll_append (ts us : List Tree) : sizeAll (ts ++ us) = sizeAll ts + sizeAll us := by
  induction ts with
  | nil => simp [sizeAll]
  | cons t ts ih => cases t <;> simp [sizeAll, ih] <;> omega

/-- The words under some trees, from left to right, after those found before. The trees still to
be looked at are kept in a list, so that the depth of a tree does not matter. -/
def leavesFrom (found : Array String) : List Tree → Array String
  | [] => found
  | leaf _ word :: rest => leavesFrom (found.push word) rest
  | node _ children :: rest => leavesFrom found (children ++ rest)
termination_by trees => sizeAll trees
decreasing_by
  · simp [sizeAll]
  · simp [sizeAll, sizeAll_append]

/-- The words under a tree, from left to right. -/
def leaves (t : Tree) : List String :=
  (leavesFrom #[] [t]).toList

end Tree

end Earley
