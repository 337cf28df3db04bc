import Earley.Proofs.Forest.Values
import Earley.Proofs.Parse.Lists
import Earley.Tree.Reading
/-!
# Trees are derivations

A tree is a derivation tree of an input if it has the start symbol at its top and the words of the
input as its leaves, if its leaves show words that their terminals accept, and if its nodes show
rules (`Grammar.IsDerivation`). Every tree that is read off a parse is one, whatever the limits are.
The proof builds the trees along with the derivations that they show (`Grammar.Builds`).
-/

namespace Earley

namespace Tree

/-- The symbol that a tree derives its words from. -/
def symbol : Tree → Symbol
  | leaf name _ => .terminal name
  | node label _ => .nonterminal label

@[simp] theorem name_symbol (t : Tree) : t.symbol.name = t.label := by
  cases t <;> rfl

/-- A tree occurs in another one. -/
inductive Occurs : Tree → Tree → Prop
  /-- A tree occurs in itself. -/
  | refl (t : Tree) : Occurs t t
  /-- What occurs in a child of a node occurs in the node. -/
  | child {u t : Tree} {label : String} {children : List Tree} (hmem : t ∈ children)
    (hoccurs : Occurs u t) : Occurs u (node label children)

/-- The words under some trees, from left to right. -/
def words : List Tree → List String
  | [] => []
  | leaf _ word :: rest => word :: words rest
  | node _ children :: rest => words children ++ words rest

theorem words_append (ts us : List Tree) : words (ts ++ us) = words ts ++ words us := by
  induction ts with
  | nil => simp [words]
  | cons t ts ih => cases t <;> simp [words, ih]

/-- The words are found from left to right. -/
theorem toList_leavesFrom (found : Array String) (ts : List Tree) :
    (leavesFrom found ts).toList = found.toList ++ words ts := by
  fun_induction leavesFrom found ts with
  | case1 found => simp [words]
  | case2 found symbol word rest ih => simp [ih, words]
  | case3 found label children rest ih => simp [ih, words, words_append]

theorem leaves_eq_words (t : Tree) : t.leaves = words [t] := by
  unfold leaves
  rw [toList_leavesFrom, Array.toList_empty, List.nil_append]

end Tree

namespace Grammar

variable {g : Grammar} {tokens : List String} {c : Chart}

/-- The tree shows a derivation of the input from the start symbol. -/
structure IsDerivation (g : Grammar) (tokens : List String) (t : Tree) : Prop where
  /-- The start symbol is at the top. -/
  label : t.label = g.start
  /-- The leaves show the input, word for word. -/
  leaves : t.leaves = tokens
  /-- Each leaf shows a terminal that accepts its word. -/
  accepts : ∀ {name word : String}, (Tree.leaf name word).Occurs t →
    g.isTerminal name = true ∧ g.accepts name word = true
  /-- Each node shows a rule that replaces its label by the symbols of its children. -/
  rule : ∀ {label : String} {children : List Tree}, (Tree.node label children).Occurs t →
    ∃ rule ∈ g.rules, rule.head = label ∧ rule.rhs = children.map Tree.symbol

/-- Some trees show a derivation of some words from some symbols. -/
inductive Builds (g : Grammar) : List Symbol → List Tree → List String → Prop
  /-- Nothing is derived from nothing. -/
  | nil : Builds g [] [] []
  /-- A leaf shows a terminal and a word that it accepts. -/
  | leaf {name word : String} {symbols : List Symbol} {trees : List Tree} {words : List String}
    (haccepts : g.accepts name word = true) (hrest : Builds g symbols trees words) :
    Builds g (.terminal name :: symbols) (.leaf name word :: trees) (word :: words)
  /-- A node shows a rule over trees for its right-hand side. -/
  | node {rule : Rule} {symbols : List Symbol} {children trees : List Tree}
    {front back : List String} (hrule : rule ∈ g.rules) (hfront : Builds g rule.rhs children front)
    (hback : Builds g symbols trees back) :
    Builds g (.nonterminal rule.head :: symbols) (.node rule.head children :: trees) (front ++ back)

namespace Builds

variable {symbols symbols' : List Symbol} {trees trees' : List Tree} {words words' : List String}

theorem append (h : g.Builds symbols trees words) (h' : g.Builds symbols' trees' words') :
    g.Builds (symbols ++ symbols') (trees ++ trees') (words ++ words') := by
  induction h with
  | nil => exact h'
  | leaf haccepts _ ih => exact .leaf haccepts ih
  | node hrule hfront _ _ ih =>
    rw [List.append_assoc]
    exact .node hrule hfront ih

/-- Trees show what derives. -/
theorem derives (h : g.Builds symbols trees words) : g.Derives symbols words := by
  induction h with
  | nil => exact .nil
  | leaf haccepts _ ih => exact .word haccepts ih
  | node hrule _ _ ihfront ihback => exact .expand hrule ihfront ihback

/-- The symbols are those at the tops of the trees. -/
theorem symbols_eq (h : g.Builds symbols trees words) : trees.map Tree.symbol = symbols := by
  induction h with
  | nil => rfl
  | leaf _ _ ih => rw [List.map_cons, ih]; rfl
  | node _ _ _ _ ih => rw [List.map_cons, ih]; rfl

/-- The words are the leaves of the trees. -/
theorem words_eq (h : g.Builds symbols trees words) : Tree.words trees = words := by
  induction h with
  | nil => rw [Tree.words]
  | leaf _ _ ih => rw [Tree.words, ih]
  | node _ _ _ ihfront ihback => rw [Tree.words, ihfront, ihback]

theorem of_rule {rule : Rule} (hrule : rule ∈ g.rules) (h : g.Builds rule.rhs trees words) :
    g.Builds [.nonterminal rule.head] [.node rule.head trees] words := by
  simpa using Builds.node hrule h .nil

/-- The leaves in the trees show words that their terminals accept. -/
theorem accepts_of_occurs (h : g.Builds symbols trees words) {t : Tree} (hmem : t ∈ trees)
    {name word : String} (hoccurs : (Tree.leaf name word).Occurs t) :
    g.accepts name word = true := by
  induction h generalizing t with
  | nil => cases hmem
  | leaf haccepts _ ih =>
    rcases List.mem_cons.1 hmem with rfl | hmem
    · cases hoccurs
      exact haccepts
    · exact ih hmem hoccurs
  | node _ _ _ ihfront ihback =>
    rcases List.mem_cons.1 hmem with rfl | hmem
    · cases hoccurs with
      | child hchild hoccurs => exact ihfront hchild hoccurs
    · exact ihback hmem hoccurs

/-- The nodes in the trees show rules. -/
theorem rule_of_occurs (h : g.Builds symbols trees words) {t : Tree} (hmem : t ∈ trees)
    {label : String} {children : List Tree} (hoccurs : (Tree.node label children).Occurs t) :
    ∃ rule ∈ g.rules, rule.head = label ∧ rule.rhs = children.map Tree.symbol := by
  induction h generalizing t with
  | nil => cases hmem
  | leaf _ _ ih =>
    rcases List.mem_cons.1 hmem with rfl | hmem
    · cases hoccurs
    · exact ih hmem hoccurs
  | @node rule _ _ _ _ _ hrule hfront _ ihfront ihback =>
    rcases List.mem_cons.1 hmem with rfl | hmem
    · cases hoccurs with
      | refl => exact ⟨rule, hrule, rfl, hfront.symbols_eq.symm⟩
      | child hchild hoccurs => exact ihfront hchild hoccurs
    · exact ihback hmem hoccurs

/-- Complete states that match some symbols build a tree for each of them from trees for each. -/
theorem of_chain (hc : g.Finished tokens c) {i k : Nat} {ids : List Nat}
    (hchain : g.Chain c symbols i k ids)
    (h : List.Forall₂ (fun id t => ∀ symbol i k, g.Matches c id symbol i k →
      g.Builds [symbol] [t] (between tokens i k)) ids trees) :
    g.Builds symbols trees (between tokens i k) := by
  induction hchain generalizing trees with
  | nil i =>
    cases h
    rw [between_self]
    exact .nil
  | cons hfirst hrest ih =>
    cases h with
    | cons hbuilds htrees =>
      obtain ⟨-, him, -⟩ := hc.derives_of_matches hfirst
      rw [← between_append him (hrest.derives hc).2]
      exact (hbuilds _ _ _ hfirst).append (ih htrees)

end Builds

/-- A derivation that trees show from the start symbol is shown by a derivation tree. -/
theorem isDerivation_of_builds {symbol : Symbol} {t : Tree}
    (hstart : g.symbol? g.start = some symbol) (h : g.Builds [symbol] [t] tokens) :
    g.IsDerivation tokens t where
  label := by
    have hsymbol := List.singleton_inj.1 h.symbols_eq
    rw [← Tree.name_symbol, hsymbol, name_of_symbol? hstart]
  leaves := by rw [Tree.leaves_eq_words, h.words_eq]
  accepts hoccurs := by
    have haccepts := h.accepts_of_occurs (List.mem_singleton_self t) hoccurs
    obtain ⟨test, hcategory, -⟩ := accepts_eq_true_iff.1 haccepts
    refine ⟨?_, haccepts⟩
    rw [isTerminal, hcategory]
    rfl
  rule hoccurs := h.rule_of_occurs (List.mem_singleton_self t) hoccurs

/-- Trees whose leaves show words that their terminals accept, and whose nodes show rules, show a
derivation of their words. -/
theorem builds_of_occurs {trees : List Tree}
    (haccepts : ∀ t ∈ trees, ∀ {name word : String}, (Tree.leaf name word).Occurs t →
      g.accepts name word = true)
    (hrule : ∀ t ∈ trees, ∀ {label : String} {children : List Tree},
      (Tree.node label children).Occurs t →
        ∃ rule ∈ g.rules, rule.head = label ∧ rule.rhs = children.map Tree.symbol) :
    g.Builds (trees.map Tree.symbol) trees (Tree.words trees) := by
  fun_induction Tree.words trees with
  | case1 => exact .nil
  | case2 name word rest ih =>
    refine .leaf (haccepts _ List.mem_cons_self (.refl _)) (ih ?_ ?_)
    · exact fun t hmem => haccepts t (List.mem_cons_of_mem _ hmem)
    · exact fun t hmem => hrule t (List.mem_cons_of_mem _ hmem)
  | case3 label children rest ihchildren ihrest =>
    obtain ⟨rule, hmem, rfl, hrhs⟩ := hrule _ List.mem_cons_self (.refl _)
    rw [← hrhs] at ihchildren
    refine .node hmem (ihchildren ?_ ?_) (ihrest ?_ ?_)
    · exact fun t hchild _ _ hoccurs => haccepts _ List.mem_cons_self (.child hchild hoccurs)
    · exact fun t hchild _ _ hoccurs => hrule _ List.mem_cons_self (.child hchild hoccurs)
    · exact fun t hother => haccepts t (List.mem_cons_of_mem _ hother)
    · exact fun t hother => hrule t (List.mem_cons_of_mem _ hother)

/-- A derivation tree shows a derivation from the start symbol. -/
theorem IsDerivation.builds {symbol : Symbol} {t : Tree} (h : g.IsDerivation tokens t)
    (hg : g.WellFormed) (hstart : g.symbol? g.start = some symbol) :
    g.Builds [symbol] [t] tokens := by
  have hbuilds : g.Builds ([t].map Tree.symbol) [t] (Tree.words [t]) := by
    refine builds_of_occurs (fun u hmem _ _ hoccurs => ?_) fun u hmem _ _ hoccurs => ?_
    · rw [List.mem_singleton.1 hmem] at hoccurs
      exact (h.accepts hoccurs).2
    · rw [List.mem_singleton.1 hmem] at hoccurs
      exact h.rule hoccurs
  have hsymbol : t.symbol = symbol := by
    rw [← h.label] at hstart
    cases t with
    | leaf name word =>
      obtain ⟨test, hcategory, -⟩ := accepts_eq_true_iff.1 (h.accepts (.refl _)).2
      rw [symbol?, Tree.label, hcategory] at hstart
      exact Option.some.inj hstart
    | node label children =>
      obtain ⟨rule, hmem, rfl, -⟩ := h.rule (.refl _)
      rw [symbol?, Tree.label, hg.head rule hmem] at hstart
      exact Option.some.inj hstart
  rw [← Tree.leaves_eq_words, h.leaves, List.map_singleton, hsymbol] at hbuilds
  exact hbuilds

/-- The rule or the word of a complete state is shown by the trees that are made of those of its
children. -/
theorem handedOn_builds {p : Parse} (hp : p.grammar.Finished tokens p.chart) (limit : Option Nat) :
    Machine.HandedOn (fun id t => ∀ symbol i k, p.grammar.Matches p.chart id symbol i k →
      p.grammar.Builds [symbol] [t] (between tokens i k))
      (Tree.evaluator.withMaxTrees limit) p where
  leaf {id s symbol word} hs hproduction hword := by
    intro symbol' i k hmatches
    obtain ⟨name, rfl, rfl, hwords, haccepts⟩ := hp.word_of_matches hmatches hs hproduction hword
    rw [hwords]
    exact .leaf haccepts .nil
  reduce {id position s rule children args t} hs hproduction hrule hchildren hargs hvalue := by
    intro symbol i k hmatches
    obtain ⟨rfl, hlists⟩ := hp.chain_of_matches hmatches hs hproduction hrule
    cases hvalue
    have hchain := (hlists children).1 hchildren
    exact .of_rule (Array.mem_of_getElem? hrule) (.of_chain hp hchain hargs)

/-- What a complete match of the start symbol with the whole input builds is a derivation tree. -/
theorem isDerivation_of_root {limits : Limits} {clock : Clock} {p : Parse} {id : Nat} {t : Tree}
    (hg : g.WellFormed) (h : g.parse limits clock tokens = .ok p) (hroot : id ∈ p.roots)
    (ht : ∀ symbol i k, g.Matches p.chart id symbol i k →
      g.Builds [symbol] [t] (between tokens i k)) : g.IsDerivation tokens t := by
  obtain ⟨symbol, hstart⟩ := hg.start
  obtain ⟨column, -, -, -, hroots⟩ := roots_of_parse hg h hstart
  have hbuilds := ht symbol 0 tokens.length ((hroots id).1 hroot)
  rw [between_zero_length] at hbuilds
  exact isDerivation_of_builds hstart hbuilds

/-- All trees of a parse are derivation trees of the input. -/
theorem isDerivation_of_evalAll {limits : Limits} {clock : Clock} {p : Parse}
    (hg : g.WellFormed) (h : g.parse limits clock tokens = .ok p) {limit : Option Nat}
    {trees : List Tree}
    (htrees : ((Tree.evaluator.withMaxTrees limit).evalAll p).result = .ok trees) :
    ∀ t ∈ trees, g.IsDerivation tokens t := by
  have hc := finished_of_parse hg h
  obtain ⟨-, -, -, rfl, -⟩ := parse_eq_ok_iff.1 h
  intro t ht
  have hexpand : (Tree.evaluator.withMaxTrees limit).expandAll p p.roots [] (.ofChart p.chart) =
      (.ok trees, _) := Prod.ext htrees rfl
  rcases Evaluator.forall_of_expandAll (handedOn_builds hc limit) hexpand
    (Evaluator.keeps_ofChart _ p.chart) t ht with hmem | ⟨root, hroot, hbuilds⟩
  · cases hmem
  · exact isDerivation_of_root hg h hroot hbuilds

/-- The first tree of a parse is a derivation tree of the input. -/
theorem isDerivation_of_evalFirst {limits : Limits} {clock : Clock} {p : Parse}
    (hg : g.WellFormed) (h : g.parse limits clock tokens = .ok p) {limit : Option Nat} {t : Tree}
    (ht : ((Tree.evaluator.withMaxTrees limit).evalFirst p).result = .ok (some t)) :
    g.IsDerivation tokens t := by
  have hc := finished_of_parse hg h
  obtain ⟨-, -, -, rfl, -⟩ := parse_eq_ok_iff.1 h
  have hexpand : (Tree.evaluator.withMaxTrees limit).expandFirst p p.roots (.ofChart p.chart) =
      (.ok (some t), _) := Prod.ext ht rfl
  obtain ⟨root, hroot, hbuilds⟩ := Evaluator.exists_of_expandFirst (handedOn_builds hc limit)
    hexpand (Evaluator.keeps_ofChart _ p.chart)
  exact isDerivation_of_root hg h hroot hbuilds

/-- Every tree that is read off a parse is a derivation tree of the input, whatever the limits are
and whether all trees are read or the first one only. -/
theorem isDerivation_of_mem_trees {ds : List Declaration} {start : String}
    (hg : ofDeclarations ds start = .ok g) (limits : Limits) (clock : Clock)
    (tokens : List String) :
    (∀ found, g.trees limits clock tokens = .ok found → ∀ t ∈ found, g.IsDerivation tokens t) ∧
      ∀ p, g.parse limits clock tokens = .ok p → ∀ limit : Option Nat,
        (∀ found, ((Tree.evaluator.withMaxTrees limit).evalAll p).result = .ok found →
          ∀ t ∈ found, g.IsDerivation tokens t) ∧
        ∀ t, ((Tree.evaluator.withMaxTrees limit).evalFirst p).result = .ok (some t) →
          g.IsDerivation tokens t := by
  have hwf := wellFormed_of_ofDeclarations hg
  refine ⟨fun found hfound => ?_, fun p hp limit => ⟨?_, ?_⟩⟩
  · unfold trees at hfound
    split at hfound
    next => cases hfound
    next p hp => exact isDerivation_of_evalAll hwf hp hfound
  · exact fun found hfound => isDerivation_of_evalAll hwf hp hfound
  · exact fun t ht => isDerivation_of_evalFirst hwf hp ht

/-- The trees of two words, in a grammar where both sides of a rule recur and a chain of symbols
leads back to its beginning. -/
theorem isDerivation_of_pairs :
    ∃ g, ofDeclarations [.nonterminal "S", .nonterminal "T", .lexeme "a" ["x", "y"],
        .addRule "S" ["S", "S"], .addRule "S" ["T"], .addRule "T" ["S"], .addRule "S" ["a"]]
        "S" = .ok g ∧
      ∀ found, g.trees .unbounded (fun _ => { nanoseconds := 0 }) ["x", "y"] = .ok found →
        ∀ t ∈ found, g.IsDerivation ["x", "y"] t := by
  have hexists : ∃ g, ofDeclarations [.nonterminal "S", .nonterminal "T", .lexeme "a" ["x", "y"],
      .addRule "S" ["S", "S"], .addRule "S" ["T"], .addRule "T" ["S"], .addRule "S" ["a"]]
      "S" = .ok g := exists_ofDeclarations (by decide +kernel)
  obtain ⟨g, hg⟩ := hexists
  exact ⟨g, hg, (isDerivation_of_mem_trees hg .unbounded (fun _ => { nanoseconds := 0 })
    ["x", "y"]).1⟩

end Grammar

end Earley
