import Earley.Grammar.Basic
/-!
# Derivations

What the symbols of a grammar derive. A terminal derives each word that it accepts, and a
nonterminal derives whatever the right-hand side of one of its rules derives (`Grammar.Derives`).
Reading an input from the left, a symbol is predictable at a position when some derivation that
agrees with the words up to there goes on with that symbol (`Grammar.Predictable`).

The words between two positions of an input (`between`) are what a match that begins and comes to
these positions has to derive.
-/

namespace Earley

/-! ### The words between two positions -/

/-- The words between two positions of an input. -/
def between (tokens : List String) (i j : Nat) : List String :=
  (tokens.drop i).take (j - i)

variable {tokens : List String} {i j k : Nat}

@[simp] theorem between_self (tokens : List String) (i : Nat) : between tokens i i = [] := by
  simp [between]

theorem between_zero_length (tokens : List String) :
    between tokens 0 tokens.length = tokens := by
  simp [between]

theorem length_between (hij : i ≤ j) (hj : j ≤ tokens.length) :
    (between tokens i j).length = j - i := by
  simp only [between, List.length_take, List.length_drop]
  omega

theorem between_append (hij : i ≤ j) (hjk : j ≤ k) :
    between tokens i j ++ between tokens j k = between tokens i k := by
  have hsplit : k - i = (j - i) + (k - j) := by omega
  have hdrop : tokens.drop j = (tokens.drop i).drop (j - i) := by
    rw [List.drop_drop, Nat.add_sub_cancel' hij]
  rw [between, between, between, hsplit, List.take_add, hdrop]

theorem between_succ {word : String} (h : tokens[i]? = some word) :
    between tokens i (i + 1) = [word] := by
  obtain ⟨hlt, rfl⟩ := List.getElem?_eq_some_iff.1 h
  rw [between, Nat.add_sub_cancel_left, List.drop_eq_getElem_cons hlt]
  rfl

/-- A word that is all there is between two positions stands at the first of them. -/
theorem getElem?_of_between_eq_singleton {word : String} (hij : i ≤ j) (hj : j ≤ tokens.length)
    (h : between tokens i j = [word]) : j = i + 1 ∧ tokens[i]? = some word := by
  have hlength := length_between hij hj
  rw [h, List.length_singleton] at hlength
  obtain rfl : j = i + 1 := by omega
  have hlt : i < tokens.length := hj
  rw [between_succ (List.getElem?_eq_getElem hlt)] at h
  exact ⟨rfl, by rw [List.getElem?_eq_getElem hlt, List.head_eq_of_cons_eq h]⟩

/-- The words between two positions can be cut only at a position between these. -/
theorem exists_between_of_append {front back : List String} (hij : i ≤ j)
    (hj : j ≤ tokens.length) (h : between tokens i j = front ++ back) :
    ∃ m, i ≤ m ∧ m ≤ j ∧ between tokens i m = front ∧ between tokens m j = back := by
  have hlength := length_between hij hj
  rw [h, List.length_append] at hlength
  have hfront : i + front.length ≤ j := by omega
  have hcut : between tokens i (i + front.length) ++ between tokens (i + front.length) j =
      between tokens i j := between_append (Nat.le_add_right i front.length) hfront
  rw [h] at hcut
  obtain ⟨hleft, hright⟩ := List.append_inj hcut (by
    rw [length_between (Nat.le_add_right _ _) (Nat.le_trans hfront hj), Nat.add_sub_cancel_left])
  exact ⟨i + front.length, Nat.le_add_right _ _, hfront, hleft, hright⟩

namespace Grammar

variable {g : Grammar}

/-! ### What symbols derive -/

/-- A list of symbols derives a list of words. -/
inductive Derives (g : Grammar) : List Symbol → List String → Prop
  /-- Nothing derives nothing. -/
  | nil : Derives g [] []
  /-- A terminal derives a word that it accepts. -/
  | word {name word : String} {symbols : List Symbol} {words : List String}
    (haccepts : g.accepts name word = true) (hrest : Derives g symbols words) :
    Derives g (.terminal name :: symbols) (word :: words)
  /-- A nonterminal derives what the right-hand side of one of its rules derives. -/
  | expand {rule : Rule} {symbols : List Symbol} {front back : List String}
    (hrule : rule ∈ g.rules) (hfront : Derives g rule.rhs front) (hback : Derives g symbols back) :
    Derives g (.nonterminal rule.head :: symbols) (front ++ back)

namespace Derives

variable {symbols symbols' : List Symbol} {words words' : List String}

theorem append (h : g.Derives symbols words) (h' : g.Derives symbols' words') :
    g.Derives (symbols ++ symbols') (words ++ words') := by
  induction h with
  | nil => exact h'
  | word haccepts _ ih => exact .word haccepts ih
  | expand hrule hfront _ _ ih =>
    rw [List.append_assoc]
    exact .expand hrule hfront ih

theorem of_rule {rule : Rule} (hrule : rule ∈ g.rules) (h : g.Derives rule.rhs words) :
    g.Derives [.nonterminal rule.head] words := by
  simpa using Derives.expand hrule h .nil

theorem of_accepts {name word : String} (h : g.accepts name word = true) :
    g.Derives [.terminal name] [word] :=
  .word h .nil

/-- Only no words are derived from no symbols. -/
theorem eq_nil (h : g.Derives [] words) : words = [] := by
  cases h; rfl

/-- A terminal derives exactly the words that it accepts. -/
theorem terminal_iff {name : String} :
    g.Derives [.terminal name] words ↔ ∃ word, words = [word] ∧ g.accepts name word = true := by
  constructor
  · intro h
    cases h with
    | word haccepts hrest => exact ⟨_, by rw [hrest.eq_nil], haccepts⟩
  · rintro ⟨word, rfl, haccepts⟩
    exact of_accepts haccepts

/-- A nonterminal derives what the right-hand sides of its rules derive. -/
theorem nonterminal_iff {name : String} :
    g.Derives [.nonterminal name] words ↔
      ∃ rule ∈ g.rules, rule.head = name ∧ g.Derives rule.rhs words := by
  constructor
  · intro h
    cases h with
    | expand hrule hfront hback =>
      exact ⟨_, hrule, rfl, by rw [hback.eq_nil, List.append_nil]; exact hfront⟩
  · rintro ⟨rule, hrule, rfl, h⟩
    exact of_rule hrule h

end Derives

/-- A symbol is predictable at a position of an input: it is the start symbol at the beginning, or
it comes next in a rule whose head was predictable, after symbols that derive the words between. -/
inductive Predictable (g : Grammar) (tokens : List String) : Symbol → Nat → Prop
  /-- The start symbol is predictable at the beginning. -/
  | start {symbol : Symbol} (hstart : g.symbol? g.start = some symbol) :
    Predictable g tokens symbol 0
  /-- A symbol of a rule is predictable where the symbols before it have come to. -/
  | next {rule : Rule} {before after : List Symbol} {symbol : Symbol} {i j : Nat}
    (hrule : rule ∈ g.rules) (hrhs : rule.rhs = before ++ symbol :: after)
    (hhead : Predictable g tokens (.nonterminal rule.head) i) (hij : i ≤ j)
    (hj : j ≤ tokens.length) (hbefore : g.Derives before (between tokens i j)) :
    Predictable g tokens symbol j

end Grammar

end Earley
