import Earley.Grammar.Basic
import Earley.Limits
import Earley.Parse.Error
/-!
# Evaluators

An evaluator says how values are computed from derivations. A matched word becomes a value by
itself. A matched rule becomes a value by the action registered under the text of the rule, or by
the fallback if there is none, from the values of its right-hand side.
-/

universe u

namespace Earley

/-- How the values of derivations are computed. -/
structure Evaluator (α : Type u) where
  /-- The value of a word that a terminal has matched, from the names of both. -/
  leaf : String → String → α
  /-- The actions under the texts of their rules, the latest one first. -/
  actions : List (String × (List α → α)) := []
  /-- What to do for rules that have no action of their own. -/
  fallback : Option (Rule → List α → α) := none
  /-- The most alternatives that may be kept for a node or for the whole input. -/
  maxTrees : Option Nat := ({} : Limits).maxTrees

namespace Evaluator

variable {α : Type u} (e : Evaluator α)

/-- Registers an action under the text of a rule, in place of an earlier one. -/
def withAction (rule : String) (action : List α → α) : Evaluator α :=
  { e with actions := (rule, action) :: e.actions }

/-- Sets the action for rules that have none of their own. -/
def withFallback (action : Rule → List α → α) : Evaluator α :=
  { e with fallback := some action }

/-- Sets the bound on alternatives, or lifts it. -/
def withMaxTrees (limit : Option Nat) : Evaluator α :=
  { e with maxTrees := limit }

/-- The action registered under the text of a rule. -/
def ownAction? (rule : Rule) : Option (List α → α) :=
  e.actions.lookup rule.text

/-- The action that is used for a rule: its own one, or else the fallback. -/
def action? (rule : Rule) : Option (List α → α) :=
  e.ownAction? rule <|> e.fallback.map fun action => action rule

/-- The value of a matched rule. Fails if no action can be used. -/
def reduce (rule : Rule) (args : List α) : Except ParseError α :=
  match e.action? rule with
  | none => .error (.missingAction rule.text)
  | some action => .ok (action args)

/-- Fails if there are more alternatives than may be kept. -/
def check (alternatives : Nat) : Except ParseError Unit :=
  match e.maxTrees with
  | none => .ok ()
  | some limit => if limit < alternatives then .error (.treeBudget limit) else .ok ()

/-- The evaluator uses some action for every rule of a grammar. -/
def Covers (g : Grammar) : Prop :=
  ∀ rule ∈ g.rules, (e.action? rule).isSome = true

theorem Covers.exists_action {e : Evaluator α} {g : Grammar} (h : e.Covers g) {rule : Rule}
    (hrule : rule ∈ g.rules) : ∃ action, e.action? rule = some action :=
  Option.isSome_iff_exists.1 (h rule hrule)

/-- The limit has nothing to do with actions. -/
theorem Covers.withMaxTrees {e : Evaluator α} {g : Grammar} (h : e.Covers g)
    (limit : Option Nat) : (e.withMaxTrees limit).Covers g := h

/-- A fallback is an action for every rule. -/
theorem covers_of_fallback {action : Rule → List α → α} (h : e.fallback = some action)
    (g : Grammar) : e.Covers g := by
  intro rule _
  unfold action?
  cases e.ownAction? rule with
  | none => simp [h]
  | some own => rfl

theorem reduce_eq_ok_iff {rule : Rule} {args : List α} {value : α} :
    e.reduce rule args = .ok value ↔
      ∃ action, e.action? rule = some action ∧ action args = value := by
  unfold reduce
  split <;> simp_all

theorem check_eq_ok_iff {alternatives : Nat} :
    e.check alternatives = .ok () ↔ ∀ limit, e.maxTrees = some limit → alternatives ≤ limit := by
  unfold check
  cases e.maxTrees with
  | none => simp
  | some limit =>
    simp only [Option.some.injEq, forall_eq']
    split
    next h => simpa using h
    next h => simpa using Nat.le_of_not_lt h

/-- Fewer alternatives may be kept as well. -/
theorem check_mono {e : Evaluator α} {n m : Nat} (hle : n ≤ m) (h : e.check m = .ok ()) :
    e.check n = .ok () := by
  rw [check_eq_ok_iff] at h ⊢
  exact fun limit hlimit => Nat.le_trans hle (h limit hlimit)

end Evaluator

end Earley
