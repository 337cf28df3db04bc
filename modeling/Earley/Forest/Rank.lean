/-!
# Ranks

Sequences of `n` numbers, compared by the first place where they differ. This order has no
infinite descent, and that is what bounds a loop over a stack: the entries of the stack, from the
bottom up, become smaller in it whenever an entry is lowered, no matter what is put on top of it.
-/

namespace Earley

/-- Sequences of `n` numbers. -/
def Rank : Nat → Type
  | 0 => Unit
  | n + 1 => Nat × Rank n

namespace Rank

/-- The order by the first difference. -/
instance instWellFoundedRelation : (n : Nat) → WellFoundedRelation (Rank n)
  | 0 => { rel := fun _ _ => False, wf := ⟨fun _ => ⟨_, fun _ h => h.elim⟩⟩ }
  | n + 1 => Prod.lex (inferInstanceAs (WellFoundedRelation Nat)) (instWellFoundedRelation n)

/-- The first `n` numbers of a list, with zeros after its end. -/
def ofList : (n : Nat) → List Nat → Rank n
  | 0, _ => ()
  | n + 1, [] => (0, ofList n [])
  | n + 1, a :: rest => (a, ofList n rest)

/-- The rank sinks when a number is lowered, whatever comes after it. -/
theorem ofList_lt_of_lt {n a b : Nat} (below above above' : List Nat) (hn : below.length < n)
    (h : a < b) :
    WellFoundedRelation.rel (ofList n (below ++ a :: above)) (ofList n (below ++ b :: above')) := by
  induction below generalizing n with
  | nil =>
    cases n with
    | zero => simp at hn
    | succ n => exact Prod.Lex.left _ _ h
  | cons c below ih =>
    cases n with
    | zero => simp at hn
    | succ n => exact Prod.Lex.right _ (ih (by simpa using hn))

/-- The rank sinks when a positive number is taken off the end. -/
theorem ofList_lt_append {n b : Nat} (below : List Nat) (hn : below.length < n) (h : 0 < b) :
    WellFoundedRelation.rel (ofList n below) (ofList n (below ++ [b])) := by
  induction below generalizing n with
  | nil =>
    cases n with
    | zero => simp at hn
    | succ n => exact Prod.Lex.left _ _ h
  | cons c below ih =>
    cases n with
    | zero => simp at hn
    | succ n => exact Prod.Lex.right _ (ih (by simpa using hn))

end Rank

end Earley
