import Mathlib.Combinatorics.Enumerative.Catalan.Tree
import Earley.Proofs.Tree.Completeness
/-!
# Sums and products without precedence

In the grammar of arithmetic (`Arithmetic.grammar`) an expression is a number, or two expressions
with an operator between them, whichever operator it is. Nothing says which of the operators of an
input is applied first, so a derivation is the choice of a full bracketing, that is of a binary tree
with a node for each operator (`Arithmetic.Expression.tree`). By induction on the bracketing each
choice is a derivation, and by induction on the derivation there is no other one. No nonterminal
derives itself, since all rules have a terminal on their right-hand side. The trees of an input with
`k` operators are therefore as many as the Catalan number of `k` (`Arithmetic.trees_of_expression`).
-/

namespace Earley

/-- A tree for a terminal is a leaf. -/
theorem Tree.exists_leaf_of_symbol {t : Tree} {name : String} (h : t.symbol = .terminal name) :
    ∃ word, t = .leaf name word := by
  cases t with
  | leaf name' word =>
    cases h
    exact ⟨word, rfl⟩
  | node label children => cases h

namespace Arithmetic

/-! ### Expressions -/

/-- The operators of the grammar. -/
inductive Operator where
  /-- Addition. -/
  | plus
  /-- Multiplication. -/
  | times
deriving DecidableEq, Repr

/-- The word of an operator, which is the name of its terminal, too. -/
def Operator.word : Operator → String
  | plus => "+"
  | times => "*"

theorem Operator.word_injective : Function.Injective word := by
  intro o o' h
  cases o <;> cases o' <;> first | rfl | exact absurd h (by decide)

/-- Whether a word consists of decimal digits. -/
def isNumber (word : String) : Bool :=
  word.toList.all Char.isDigit

/-- The words that consist of decimal digits. -/
abbrev Number : Type :=
  { word : String // isNumber word = true }

/-- An expression without brackets. -/
structure Expression where
  /-- The first operand. -/
  first : Number
  /-- The operators, each with the operand after it. -/
  rest : List (Operator × Number)
deriving DecidableEq, Repr

namespace Expression

/-- The words of some operators and of the operands after them. -/
def wordsAfter (rest : List (Operator × Number)) : List String :=
  rest.flatMap fun entry => [entry.1.word, entry.2.1]

/-- The words of an expression. -/
def words (x : Expression) : List String :=
  x.first.1 :: wordsAfter x.rest

/-- Two expressions with an operator between them. -/
def join (x : Expression) (operator : Operator) (y : Expression) : Expression where
  first := x.first
  rest := x.rest ++ (operator, y.first) :: y.rest

theorem words_join (x : Expression) (operator : Operator) (y : Expression) :
    (x.join operator y).words = x.words ++ operator.word :: y.words := by
  simp [words, wordsAfter, join]

/-- An expression is joined at each of its operators. -/
theorem exists_join {x : Expression} {n : Nat} (h : n < x.rest.length) :
    ∃ (y : Expression) (operator : Operator) (z : Expression),
      y.rest.length = n ∧ x = y.join operator z := by
  refine ⟨⟨x.first, x.rest.take n⟩, x.rest[n].1, ⟨x.rest[n].2, x.rest.drop (n + 1)⟩, ?_, ?_⟩
  · rw [List.length_take]
    omega
  · obtain ⟨first, rest⟩ := x
    simp only [join, Prod.mk.eta, List.getElem_cons_drop, List.take_append_drop]

theorem length_join (x : Expression) (operator : Operator) (y : Expression) :
    (x.join operator y).rest.length = x.rest.length + y.rest.length + 1 := by
  simp [join, Nat.add_assoc]

theorem wordsAfter_injective : Function.Injective wordsAfter := by
  intro rest rest' h
  induction rest generalizing rest' with
  | nil =>
    cases rest' with
    | nil => rfl
    | cons entry' rest' => cases h
  | cons entry rest ih =>
    cases rest' with
    | nil => cases h
    | cons entry' rest' =>
      obtain ⟨hoperator, h⟩ := List.cons.inj h
      obtain ⟨hoperand, hothers⟩ := List.cons.inj h
      rw [ih hothers, Prod.ext (Operator.word_injective hoperator) (Subtype.ext hoperand)]

/-- The words of an expression tell the expression. -/
theorem words_injective : Function.Injective words := by
  rintro ⟨first, rest⟩ ⟨first', rest'⟩ h
  obtain ⟨hfirst, hrest⟩ := List.cons.inj h
  obtain rfl : first = first' := Subtype.ext hfirst
  obtain rfl : rest = rest' := wordsAfter_injective hrest
  rfl

/-- The tree that shows a bracketing of the operators of an expression. The operators of the left
operand come first. If there are no operators left, the bracketing is cut off there. -/
def tree (x : Expression) : BinaryTree Unit → Tree
  | .nil => .node "E" [.leaf "n" x.first.1]
  | .node _ l r =>
    match x.rest.drop l.numNodes with
    | [] => .node "E" [.leaf "n" x.first.1]
    | (operator, next) :: others =>
      .node "E" [tree { first := x.first, rest := x.rest.take l.numNodes } l,
        .leaf operator.word operator.word, tree { first := next, rest := others } r]

variable {b c l r : BinaryTree Unit} {x y : Expression}

/-- A bracketing that applies an operator last shows the bracketings of its operands. -/
theorem tree_join {u : Unit} (h : l.numNodes = x.rest.length) (operator : Operator)
    (y : Expression) :
    (x.join operator y).tree (.node u l r) =
      .node "E" [x.tree l, .leaf operator.word operator.word, y.tree r] := by
  have hdrop : (x.join operator y).rest.drop l.numNodes = (operator, y.first) :: y.rest := by
    rw [h]
    exact List.drop_left
  have htake : (x.join operator y).rest.take l.numNodes = x.rest := by
    rw [h]
    exact List.take_left
  rw [tree, hdrop, htake]
  rfl

/-- A bracketing of one operator or more takes an expression apart. -/
theorem exists_join_of_numNodes {u : Unit} (h : (BinaryTree.node u l r).numNodes = x.rest.length) :
    ∃ (y : Expression) (operator : Operator) (z : Expression), x = y.join operator z ∧
      l.numNodes = y.rest.length ∧ r.numNodes = z.rest.length := by
  rw [BinaryTree.numNodes] at h
  obtain ⟨y, operator, z, hy, rfl⟩ := exists_join (x := x) (n := l.numNodes) (by omega)
  refine ⟨y, operator, z, rfl, hy.symm, ?_⟩
  rw [length_join] at h
  omega

/-- Different bracketings are shown by different trees. -/
theorem eq_of_tree_eq (hb : b.numNodes = x.rest.length) (hc : c.numNodes = y.rest.length)
    (h : x.tree b = y.tree c) : b = c := by
  induction b generalizing c x y with
  | nil =>
    cases c with
    | nil => rfl
    | node _ l r =>
      obtain ⟨y, operator, z, rfl, hl, -⟩ := exists_join_of_numNodes hc
      rw [tree_join hl] at h
      simp [tree] at h
  | node _ l r ihl ihr =>
    obtain ⟨x, operator, x', rfl, hl, hr⟩ := exists_join_of_numNodes hb
    rw [tree_join hl] at h
    cases c with
    | nil => simp [tree] at h
    | node _ l' r' =>
      obtain ⟨y, operator', y', rfl, hl', hr'⟩ := exists_join_of_numNodes hc
      rw [tree_join hl'] at h
      simp only [Tree.node.injEq, List.cons.injEq, true_and, and_true] at h
      obtain ⟨hleft, -, hright⟩ := h
      rw [ihl hl hl' hleft, ihr hr hr' hright]

end Expression

/-! ### The grammar -/

/-- The declarations of the grammar. -/
def declarations : List Declaration :=
  [.nonterminal "E", .terminal "+" (· == "+"), .terminal "*" (· == "*"), .terminal "n" isNumber,
    .addRule "E" ["E", "+", "E"], .addRule "E" ["E", "*", "E"], .addRule "E" ["n"]]

/-- The rule of an operator. -/
def operatorRule (operator : Operator) : Rule where
  head := "E"
  rhs := [.nonterminal "E", .terminal operator.word, .nonterminal "E"]

/-- The rule of a number. -/
def numberRule : Rule where
  head := "E"
  rhs := [.terminal "n"]

/-- Sums and products of numbers. -/
def grammar : Grammar where
  start := "E"
  names := [("E", .nonterminal), ("+", .terminal (· == "+")), ("*", .terminal (· == "*")),
    ("n", .terminal isNumber)]
  rules := #[operatorRule .plus, operatorRule .times, numberRule]

/-- The declarations describe the grammar. -/
theorem ofDeclarations_declarations : Grammar.ofDeclarations declarations "E" = .ok grammar := by
  with_unfolding_all rfl

theorem mem_rules {rule : Rule} :
    rule ∈ grammar.rules ↔ (∃ operator, rule = operatorRule operator) ∨ rule = numberRule := by
  have hmem : rule ∈ grammar.rules ↔
      rule = operatorRule .plus ∨ rule = operatorRule .times ∨ rule = numberRule := by
    simp [grammar]
  rw [hmem]
  constructor
  · rintro (h | h | h)
    · exact .inl ⟨.plus, h⟩
    · exact .inl ⟨.times, h⟩
    · exact .inr h
  · rintro (⟨operator, h⟩ | h)
    · cases operator with
      | plus => exact .inl h
      | times => exact .inr (.inl h)
    · exact .inr (.inr h)

theorem accepts_operator {operator : Operator} {word : String} :
    grammar.accepts operator.word word = true ↔ word = operator.word := by
  cases operator with
  | plus => exact beq_iff_eq
  | times => exact beq_iff_eq

theorem accepts_number (word : String) : grammar.accepts "n" word = isNumber word :=
  rfl

theorem exists_terminal {rule : Rule} (h : rule ∈ grammar.rules) :
    ∃ symbol ∈ rule.rhs, symbol.isTerminal = true := by
  rcases mem_rules.1 h with ⟨operator, rfl⟩ | rfl
  · exact ⟨.terminal operator.word, by simp [operatorRule], rfl⟩
  · exact ⟨.terminal "n", by simp [numberRule], rfl⟩

/-! ### Derivations are bracketings -/

/-- Each bracketing of an expression shows a derivation of its words. -/
theorem builds_tree {b : BinaryTree Unit} {x : Expression} (h : b.numNodes = x.rest.length) :
    grammar.Builds [.nonterminal "E"] [x.tree b] x.words := by
  induction b generalizing x with
  | nil =>
    obtain ⟨first, rest⟩ := x
    obtain rfl : rest = [] := List.length_eq_zero_iff.1 h.symm
    have hnumber : grammar.Builds numberRule.rhs [.leaf "n" first.1] [first.1] :=
      .leaf ((accepts_number first.1).trans first.2) .nil
    exact .of_rule (mem_rules.2 (.inr rfl)) hnumber
  | node _ l r ihl ihr =>
    obtain ⟨y, operator, z, rfl, hl, hr⟩ := Expression.exists_join_of_numNodes h
    rw [Expression.tree_join hl, Expression.words_join]
    have hrest : grammar.Builds [.terminal operator.word, .nonterminal "E"]
        [.leaf operator.word operator.word, z.tree r] (operator.word :: z.words) :=
      .leaf (accepts_operator.2 rfl) (ihr hr)
    exact .of_rule (mem_rules.2 (.inl ⟨operator, rfl⟩)) ((ihl hl).append hrest)

/-- The words under it are those of the expression. -/
theorem leaves_tree {b : BinaryTree Unit} {x : Expression} (h : b.numNodes = x.rest.length) :
    (x.tree b).leaves = x.words := by
  rw [Tree.leaves_eq_words, (builds_tree h).words_eq]

/-- The trees of a derivation show bracketings wherever they show expressions. -/
theorem exists_tree_of_builds {symbols : List Symbol} {trees : List Tree} {words : List String}
    (h : grammar.Builds symbols trees words) :
    ∀ t ∈ trees, t.symbol = .nonterminal "E" →
      ∃ (b : BinaryTree Unit) (x : Expression), b.numNodes = x.rest.length ∧ x.tree b = t := by
  induction h with
  | nil => exact fun _ hmem => nomatch hmem
  | leaf _ _ ih => exact List.forall_mem_cons.2 ⟨(fun hsymbol => nomatch hsymbol), ih⟩
  | @node rule _ children _ _ _ hrule hfront _ ihfront ihback =>
    refine List.forall_mem_cons.2 ⟨fun _ => ?_, ihback⟩
    have hchildren := hfront.symbols_eq
    rcases mem_rules.1 hrule with ⟨operator, rfl⟩ | rfl
    · obtain ⟨left, _, rfl, hleft, hothers⟩ := List.map_eq_cons_iff.1 hchildren
      obtain ⟨middle, _, rfl, hmiddle, hlast⟩ := List.map_eq_cons_iff.1 hothers
      obtain ⟨right, rfl, hright⟩ := List.map_eq_singleton_iff.1 hlast
      obtain ⟨word, rfl⟩ := Tree.exists_leaf_of_symbol hmiddle
      have hword : word = operator.word := by
        refine accepts_operator.1 (hfront.accepts_of_occurs ?_ (.refl (.leaf operator.word word)))
        exact List.mem_cons_of_mem _ List.mem_cons_self
      subst hword
      obtain ⟨b, x, hb, rfl⟩ := ihfront left (by simp) hleft
      obtain ⟨c, y, hc, rfl⟩ := ihfront right (by simp) hright
      refine ⟨.node () b c, x.join operator y, ?_, Expression.tree_join hb operator y⟩
      rw [BinaryTree.numNodes, hb, hc, Expression.length_join]
    · obtain ⟨leaf, rfl, hleaf⟩ := List.map_eq_singleton_iff.1 hchildren
      obtain ⟨word, rfl⟩ := Tree.exists_leaf_of_symbol hleaf
      have hnumber : isNumber word = true :=
        hfront.accepts_of_occurs (List.mem_singleton_self _) (.refl _)
      exact ⟨.nil, ⟨⟨word, hnumber⟩, []⟩, rfl, rfl⟩

/-- The derivation trees of an expression are those of its bracketings. -/
theorem isDerivation_iff {x : Expression} {t : Tree} :
    grammar.IsDerivation x.words t ↔
      ∃ b : BinaryTree Unit, b.numNodes = x.rest.length ∧ x.tree b = t := by
  have hstart : grammar.symbol? grammar.start = some (.nonterminal "E") := rfl
  constructor
  · intro h
    have hwf := Grammar.wellFormed_of_ofDeclarations ofDeclarations_declarations
    have hbuilds := h.builds hwf hstart
    have hsymbol : t.symbol = .nonterminal "E" := List.singleton_inj.1 hbuilds.symbols_eq
    obtain ⟨b, y, hb, rfl⟩ := exists_tree_of_builds hbuilds t (List.mem_singleton_self t) hsymbol
    obtain rfl : y = x := Expression.words_injective ((leaves_tree hb).symm.trans h.leaves)
    exact ⟨b, hb, rfl⟩
  · rintro ⟨b, hb, rfl⟩
    exact Grammar.isDerivation_of_builds hstart (builds_tree hb)

/-- The trees of an expression with `k` operators are as many as the Catalan number of `k`. There is
none twice, and each full bracketing of the operators is shown by one of them. -/
theorem trees_of_expression (clock : Clock) (x : Expression) :
    Grammar.ofDeclarations declarations "E" = .ok grammar ∧
    ∃ found, grammar.trees .unbounded clock x.words = .ok found ∧ found.Nodup ∧
      found.length = catalan x.rest.length ∧
      Set.BijOn x.tree {b | b.numNodes = x.rest.length} {t | t ∈ found} := by
  have hwf := Grammar.wellFormed_of_ofDeclarations ofDeclarations_declarations
  obtain ⟨p, hp⟩ : ∃ p, grammar.parse .unbounded clock x.words = .ok p :=
    Grammar.exists_parse hwf rfl rfl x.words
  obtain ⟨found, hfound, hnodup, hmem⟩ := Grammar.exists_trees_of_parse hwf hp
  have htrees : grammar.trees .unbounded clock x.words = .ok found := by
    rw [Grammar.trees, hp]
    exact hfound
  have hbracketed (t : Tree) :
      t ∈ found ↔ ∃ b : BinaryTree Unit, b.numNodes = x.rest.length ∧ x.tree b = t := by
    rw [hmem, ← isDerivation_iff, and_iff_left_of_imp]
    intro h
    exact (h.builds hwf rfl).cycleFree (Grammar.not_transGen_step fun _ => exists_terminal) 0
  have hbij : Set.BijOn x.tree {b | b.numNodes = x.rest.length} {t | t ∈ found} := by
    refine ⟨fun b hb => (hbracketed _).2 ⟨b, hb, rfl⟩, fun b hb c hc h => ?_, fun t ht => ?_⟩
    · exact Expression.eq_of_tree_eq hb hc h
    · exact (hbracketed t).1 ht
  refine ⟨ofDeclarations_declarations, found, htrees, hnodup, ?_, hbij⟩
  rw [← BinaryTree.coe_treesOfNumNodesEq, ← List.coe_toFinset] at hbij
  have hcard : (BinaryTree.treesOfNumNodesEq x.rest.length).card = found.toFinset.card :=
    Finset.card_nbij x.tree hbij.mapsTo hbij.injOn hbij.surjOn
  rw [← List.toFinset_card_of_nodup hnodup, ← hcard, BinaryTree.treesOfNumNodesEq_card_eq_catalan]

/-- One plus two times three has two trees: either operator may be applied last. -/
theorem trees_of_expression_of_two_operators :
    ∃ found, grammar.trees .unbounded (fun _ => { nanoseconds := 0 }) ["1", "+", "2", "*", "3"] =
        .ok found ∧ found.length = 2 ∧
      .node "E" [.node "E" [.leaf "n" "1"], .leaf "+" "+",
        .node "E" [.node "E" [.leaf "n" "2"], .leaf "*" "*", .node "E" [.leaf "n" "3"]]] ∈ found ∧
      .node "E" [.node "E" [.node "E" [.leaf "n" "1"], .leaf "+" "+", .node "E" [.leaf "n" "2"]],
        .leaf "*" "*", .node "E" [.leaf "n" "3"]] ∈ found := by
  let x : Expression :=
    { first := ⟨"1", by decide⟩
      rest := [(.plus, ⟨"2", by decide⟩), (.times, ⟨"3", by decide⟩)] }
  obtain ⟨-, found, hfound, -, hlength, hbij⟩ :=
    trees_of_expression (fun _ => { nanoseconds := 0 }) x
  have hright : x.tree (.node () .nil (.node () .nil .nil)) ∈ found := hbij.mapsTo rfl
  have hleft : x.tree (.node () (.node () .nil .nil) .nil) ∈ found := hbij.mapsTo rfl
  exact ⟨found, hfound, hlength.trans catalan_two, hright, hleft⟩

end Arithmetic

end Earley
