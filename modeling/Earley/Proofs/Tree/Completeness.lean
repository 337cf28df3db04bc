import Earley.Proofs.Forest.Refinement
import Earley.Proofs.Tree.CycleFree
/-!
# All trees are found

The trees of a state by plain recursion (`Parse.treesOf`) are those that show a derivation of the
words of the state, with the rule of the state at the top, and with no node at the place of another
one above it, or of a state on the path. No tree is found twice, since a tree and the position of
its first word say which state it is found from (`Grammar.Finished.id_eq_of_mem_treesOf`). Reading
an input without limits therefore gives each cycle-free derivation tree once
(`Grammar.mem_trees_unbounded_iff`).
-/

namespace Earley

/-- The trees of a state that was reached on a path, by plain recursion. -/
def Parse.treesOf (p : Parse) (limit : Option Nat) (path : List Nat) (id : Nat) : List Tree :=
  (Tree.evaluator.withMaxTrees limit).values p path id

namespace Grammar

variable {g : Grammar} {tokens : List String} {c : Chart}

/-! ### The places of states -/

/-- The state is a complete match with the rule and the words of a place. -/
def StandsAt (g : Grammar) (c : Chart) (id : Nat) (place : Tree.Place) : Prop :=
  ∃ s position, c.states[id]? = some s ∧ s.production = .rule position ∧
    g.rules[position]? = some place.rule ∧
    g.Matches c id (.nonterminal place.rule.head) place.start place.stop

/-- A state stands at one place only. -/
theorem StandsAt.place_eq {id : Nat} {place place' : Tree.Place} (h : g.StandsAt c id place)
    (h' : g.StandsAt c id place') : place = place' := by
  obtain ⟨s, position, hs, hproduction, hrule, t, ht, -, -, horigin, hstop⟩ := h
  obtain ⟨s', position', hs', hproduction', hrule', t', ht', -, -, horigin', hstop'⟩ := h'
  rw [hs] at hs' ht ht'
  cases hs'
  cases ht
  cases ht'
  rw [hproduction] at hproduction'
  cases hproduction'
  rw [hrule] at hrule'
  obtain ⟨rule, start, stop⟩ := place
  obtain ⟨rule', start', stop'⟩ := place'
  cases hrule'
  cases horigin
  cases horigin'
  cases hstop
  cases hstop'
  rfl

/-- Only one state stands at a place. -/
theorem Finished.id_eq_of_standsAt (hc : g.Finished tokens c) {id id' : Nat} {place : Tree.Place}
    (h : g.StandsAt c id place) (h' : g.StandsAt c id' place) : id = id' := by
  obtain ⟨s, position, hs, hproduction, hrule, hmatches⟩ := h
  obtain ⟨s', position', hs', hproduction', hrule', hmatches'⟩ := h'
  refine hc.id_eq_of_matches hmatches hmatches' hs hs' ?_
  -- There is no rule at two positions.
  rw [hproduction, hproduction']
  refine congrArg _ ((List.getElem?_inj ?_ hc.wellFormed.nodup).1 ?_)
  · simpa using (Array.getElem?_eq_some_iff.1 hrule).1
  · rw [Array.getElem?_toList, Array.getElem?_toList, hrule, hrule']

/-- No node in some trees, whose words begin at a position, stands at the place of a state on a
path. -/
def Avoids (g : Grammar) (c : Chart) (path : List Nat) (i : Nat) (trees : List Tree) : Prop :=
  ∀ x ∈ path, ∀ place ∈ Tree.places i trees, ¬ g.StandsAt c x place

theorem avoids_nil {path : List Nat} {i : Nat} : g.Avoids c path i [] := by
  unfold Avoids
  rw [Tree.places]
  exact fun _ _ _ hmem => absurd hmem List.not_mem_nil

theorem avoids_leaf_iff {path : List Nat} {i : Nat} {name word : String} {rest : List Tree} :
    g.Avoids c path i (.leaf name word :: rest) ↔ g.Avoids c path (i + 1) rest := by
  unfold Avoids
  rw [Tree.places]

theorem avoids_node_iff {path : List Nat} {i : Nat} {label : String} {children rest : List Tree} :
    g.Avoids c path i (.node label children :: rest) ↔
      (∀ x ∈ path, ¬ g.StandsAt c x (Tree.placeOf i label children)) ∧
        g.Avoids c path i children ∧
        g.Avoids c path (i + (Tree.words children).length) rest := by
  unfold Avoids
  rw [Tree.places]
  simp only [List.mem_cons, List.mem_append, or_imp, forall_and, forall_eq]

/-- A state may be added to the path if no node stands at its place. -/
theorem Avoids.cons {path : List Nat} {i id : Nat} {trees : List Tree} {place : Tree.Place}
    (h : g.Avoids c path i trees) (hstands : g.StandsAt c id place)
    (hnew : place ∉ Tree.places i trees) : g.Avoids c (id :: path) i trees := by
  intro x hx other hmem hother
  rcases List.mem_cons.1 hx with rfl | hx
  · rw [hother.place_eq hstands] at hmem
    exact hnew hmem
  · exact h x hx other hmem hother

/-! ### The trees of a state -/

variable {p : Parse} {limit : Option Nat} {path : List Nat}

/-- Only states that are not on the path have trees. -/
theorem not_mem_of_mem_treesOf {id : Nat} {t : Tree} (h : t ∈ p.treesOf limit path id) :
    id ∉ path := by
  intro hmem
  unfold Parse.treesOf at h
  rw [Evaluator.values_of_mem hmem] at h
  cases h

namespace Finished

variable (hp : p.grammar.Finished tokens p.chart)

include hp

/-- The match of a terminal is that of a word. -/
theorem lexeme_of_matches {id i k : Nat} {name : String}
    (h : p.grammar.Matches p.chart id (.terminal name) i k) :
    ∃ s word, p.chart.states[id]? = some s ∧ s.production = .lexeme (.terminal name) ∧
      s.origin = i ∧ k = i + 1 ∧ tokens[i]? = some word ∧
      p.grammar.accepts name word = true := by
  obtain ⟨s, hs, -, hcases⟩ := hp.production_of_matches h
  rcases hcases with ⟨position, rule, -, hsymbol, -⟩ |
    ⟨name', word, hsymbol, hitem, hk, hword, haccepts⟩
  · cases hsymbol
  · cases hsymbol
    refine ⟨s, word, hs, ?_, ?_, hk, hword, haccepts⟩
    · rw [hitem]
    · rw [hitem]

/-- The match of a nonterminal is that of a rule, and its lists are the chains of states that match
the right-hand side of the rule. -/
theorem rule_of_matches {id i k : Nat} {name : String}
    (h : p.grammar.Matches p.chart id (.nonterminal name) i k) :
    ∃ s position rule, p.chart.states[id]? = some s ∧ s.production = .rule position ∧
      p.grammar.rules[position]? = some rule ∧ rule.head = name ∧
      ∀ ids, ids ∈ p.chart.lists id ↔ p.grammar.Chain p.chart rule.rhs i k ids := by
  obtain ⟨s, hs, hstop, hcases⟩ := hp.production_of_matches h
  rcases hcases with ⟨position, rule, hrule, hsymbol, hitem, -⟩ | ⟨name', word, hsymbol, -⟩
  · cases hsymbol
    have hproduction : s.production = .rule position := by rw [hitem]
    refine ⟨s, position, rule, hs, hproduction, hrule, rfl, fun ids => ?_⟩
    rw [hp.mem_lists_iff hs hproduction hrule, hitem, hstop, List.take_length]
  · cases hsymbol

/-- The match of a terminal has one tree, a leaf. -/
theorem treesOf_of_terminal {id i k : Nat} {name : String}
    (h : p.grammar.Matches p.chart id (.terminal name) i k) (hid : id ∉ path) :
    ∃ word, k = i + 1 ∧ tokens[i]? = some word ∧ p.grammar.accepts name word = true ∧
      p.treesOf limit path id = [.leaf name word] := by
  obtain ⟨s, word, hs, hproduction, horigin, hk, hword, haccepts⟩ := hp.lexeme_of_matches h
  refine ⟨word, hk, hword, haccepts, Evaluator.values_of_lexeme hid hs hproduction ?_⟩
  rw [hp.reachable.tokens_eq, List.getElem?_toArray, horigin]
  exact hword

/-- The trees of the match of a nonterminal are the nodes over trees for the right-hand side of its
rule. -/
theorem mem_treesOf_of_nonterminal {id i k : Nat} {name : String} {t : Tree}
    (h : p.grammar.Matches p.chart id (.nonterminal name) i k) (hid : id ∉ path) :
    t ∈ p.treesOf limit path id ↔ ∃ rule ids children, rule.head = name ∧
      p.grammar.StandsAt p.chart id { rule := rule, start := i, stop := k } ∧
      p.grammar.Chain p.chart rule.rhs i k ids ∧
      List.Forall₂ (fun child t => t ∈ p.treesOf limit (id :: path) child) ids children ∧
      t = .node rule.head children := by
  obtain ⟨s, position, rule, hs, hproduction, hrule, rfl, hlists⟩ := hp.rule_of_matches h
  unfold Parse.treesOf
  rw [Evaluator.values_of_rule hid hs hproduction hrule, List.mem_flatMap]
  constructor
  · rintro ⟨ids, hids, ht⟩
    obtain ⟨children, hchildren, hvalue⟩ := Evaluator.mem_listValues_iff.1 ht
    cases hvalue
    exact ⟨rule, ids, children, rfl, ⟨s, position, hs, hproduction, hrule, h⟩,
      (hlists ids).1 hids, hchildren, rfl⟩
  · rintro ⟨rule', ids, children, -, ⟨s', position', hs', hproduction', hrule', -⟩, hchain,
      hchildren, rfl⟩
    rw [hs] at hs'
    cases hs'
    rw [hproduction] at hproduction'
    cases hproduction'
    obtain rfl : rule = rule' := Option.some.inj (hrule.symm.trans hrule')
    exact ⟨ids, (hlists ids).2 hchain, Evaluator.mem_listValues_iff.2 ⟨children, hchildren, rfl⟩⟩

/-- A leaf is a tree of the match of its terminal. -/
theorem of_leaf_mem_treesOf {id i k : Nat} {symbol : Symbol} {name word : String}
    (hmatches : p.grammar.Matches p.chart id symbol i k)
    (h : .leaf name word ∈ p.treesOf limit path id) :
    symbol = .terminal name ∧ k = i + 1 ∧ tokens[i]? = some word ∧
      p.grammar.accepts name word = true := by
  have hid := not_mem_of_mem_treesOf h
  cases symbol with
  | terminal name' =>
    obtain ⟨word', hk, hword, haccepts, htrees⟩ := hp.treesOf_of_terminal hmatches hid
    rw [htrees, List.mem_singleton] at h
    cases h
    exact ⟨rfl, hk, hword, haccepts⟩
  | nonterminal name' =>
    obtain ⟨rule, ids, children, -, -, -, -, hnode⟩ :=
      (hp.mem_treesOf_of_nonterminal hmatches hid).1 h
    cases hnode

/-- A node is a tree of the match of a rule. -/
theorem of_node_mem_treesOf {id i k : Nat} {symbol : Symbol} {label : String}
    {children : List Tree} (hmatches : p.grammar.Matches p.chart id symbol i k)
    (h : .node label children ∈ p.treesOf limit path id) :
    ∃ rule ids, symbol = .nonterminal rule.head ∧ label = rule.head ∧ rule ∈ p.grammar.rules ∧
      p.grammar.StandsAt p.chart id { rule := rule, start := i, stop := k } ∧
      p.grammar.Chain p.chart rule.rhs i k ids ∧
      List.Forall₂ (fun child t => t ∈ p.treesOf limit (id :: path) child) ids children := by
  have hid := not_mem_of_mem_treesOf h
  cases symbol with
  | terminal name =>
    obtain ⟨word, -, -, -, htrees⟩ := hp.treesOf_of_terminal hmatches hid
    rw [htrees, List.mem_singleton] at h
    cases h
  | nonterminal name =>
    obtain ⟨rule, ids, children', rfl, hstands, hchain, hchildren, hnode⟩ :=
      (hp.mem_treesOf_of_nonterminal hmatches hid).1 h
    cases hnode
    have hrule : rule ∈ p.grammar.rules := by
      obtain ⟨s, position, -, -, hrule, -⟩ := hstands
      exact Array.mem_of_getElem? hrule
    exact ⟨rule, ids, rfl, rfl, hrule, hstands, hchain, hchildren⟩

/-! ### Trees that are found -/

/-- The trees of a chain of states show a derivation of the words of the states, are cycle-free, and
have no node at the place of a state on the path. -/
theorem builds_of_mem_treesOf {symbols : List Symbol} {i k : Nat} {ids : List Nat}
    {trees : List Tree} (hchain : p.grammar.Chain p.chart symbols i k ids)
    (h : List.Forall₂ (fun id t => t ∈ p.treesOf limit path id) ids trees) :
    p.grammar.Builds symbols trees (between tokens i k) ∧ Tree.CycleFree i trees ∧
      p.grammar.Avoids p.chart path i trees := by
  fun_induction Tree.places i trees generalizing symbols k ids path with
  | case1 i =>
    cases h
    cases hchain
    rw [between_self, Tree.CycleFree]
    exact ⟨.nil, trivial, avoids_nil⟩
  | case2 i name word rest ih =>
    cases h with
    | cons hfirst hothers =>
      cases hchain with
      | cons hmatches hrest =>
        obtain ⟨rfl, rfl, hword, haccepts⟩ := hp.of_leaf_mem_treesOf hmatches hfirst
        obtain ⟨hbuilds, hfree, havoids⟩ := ih hrest hothers
        rw [← between_append (Nat.le_succ i) (hrest.derives hp).2, between_succ hword,
          Tree.CycleFree, avoids_leaf_iff]
        exact ⟨.leaf haccepts hbuilds, hfree, havoids⟩
  | case3 i label children rest ihchildren ihrest =>
    cases h with
    | cons hfirst hothers =>
      cases hchain with
      | @cons _ _ m _ _ _ _ hmatches hrest =>
        have hid := not_mem_of_mem_treesOf hfirst
        obtain ⟨rule, ids, rfl, rfl, hrule, hstands, hchildren, htrees⟩ :=
          hp.of_node_mem_treesOf hmatches hfirst
        obtain ⟨-, him, hm⟩ := hp.derives_of_matches hmatches
        obtain ⟨hfront, hfreefront, havoidsfront⟩ := ihchildren hchildren htrees
        have hwidth : i + (between tokens i m).length = m := by
          rw [length_between him hm]
          omega
        rw [hfront.words_eq, hwidth] at ihrest
        obtain ⟨hback, hfreeback, havoidsback⟩ := ihrest hrest hothers
        rw [← between_append him (hrest.derives hp).2, Tree.CycleFree, avoids_node_iff,
          hfront.words_eq, hfront.placeOf_eq, hwidth]
        refine ⟨.node hrule hfront hback, ⟨fun hmem => ?_, hfreefront, hfreeback⟩,
          fun x hx hx' => ?_, fun x hx => ?_, havoidsback⟩
        · exact havoidsfront _ List.mem_cons_self _ hmem hstands
        · exact hid (hp.id_eq_of_standsAt hstands hx' ▸ hx)
        · exact havoidsfront x (List.mem_cons_of_mem _ hx)

/-- A tree is found from one state only among those that begin at the same position. -/
theorem id_eq_of_mem_treesOf {id id' i k k' : Nat} {symbol symbol' : Symbol}
    {path' : List Nat} {t : Tree} (hmatches : p.grammar.Matches p.chart id symbol i k)
    (hmatches' : p.grammar.Matches p.chart id' symbol' i k')
    (h : t ∈ p.treesOf limit path id) (h' : t ∈ p.treesOf limit path' id') :
    id = id' ∧ k = k' := by
  cases t with
  | leaf name word =>
    obtain ⟨rfl, rfl, -⟩ := hp.of_leaf_mem_treesOf hmatches h
    obtain ⟨rfl, rfl, -⟩ := hp.of_leaf_mem_treesOf hmatches' h'
    obtain ⟨s, -, hs, hproduction, -⟩ := hp.lexeme_of_matches hmatches
    obtain ⟨s', -, hs', hproduction', -⟩ := hp.lexeme_of_matches hmatches'
    exact ⟨hp.id_eq_of_matches hmatches hmatches' hs hs' (hproduction.trans hproduction'.symm), rfl⟩
  | node label children =>
    obtain ⟨rule, ids, rfl, hlabel, -, hstands, hchain, hchildren⟩ :=
      hp.of_node_mem_treesOf hmatches h
    obtain ⟨rule', ids', rfl, hlabel', -, hstands', hchain', hchildren'⟩ :=
      hp.of_node_mem_treesOf hmatches' h'
    have hbuilds := (hp.builds_of_mem_treesOf hchain hchildren).1
    have hbuilds' := (hp.builds_of_mem_treesOf hchain' hchildren').1
    obtain ⟨-, hik, hk⟩ := hp.derives_of_matches hmatches
    obtain ⟨-, hik', hk'⟩ := hp.derives_of_matches hmatches'
    have hlength := congrArg List.length (hbuilds.words_eq.symm.trans hbuilds'.words_eq)
    rw [length_between hik hk, length_between hik' hk'] at hlength
    obtain rfl : k = k' := by omega
    have hrule : rule = rule' := by
      obtain ⟨head, rhs⟩ := rule
      obtain ⟨head', rhs'⟩ := rule'
      cases hlabel.symm.trans hlabel'
      cases hbuilds.symbols_eq.symm.trans hbuilds'.symbols_eq
      rfl
    subst hrule
    exact ⟨hp.id_eq_of_standsAt hstands hstands', rfl⟩

/-- Trees are found from one chain of states only among those that begin at the same position. -/
theorem ids_eq_of_mem_treesOf {symbols symbols' : List Symbol} {i k k' : Nat}
    {ids ids' path' : List Nat} {trees : List Tree}
    (hchain : p.grammar.Chain p.chart symbols i k ids)
    (hchain' : p.grammar.Chain p.chart symbols' i k' ids')
    (h : List.Forall₂ (fun id t => t ∈ p.treesOf limit path id) ids trees)
    (h' : List.Forall₂ (fun id t => t ∈ p.treesOf limit path' id) ids' trees) : ids = ids' := by
  induction h generalizing symbols symbols' i ids' with
  | nil => cases h'; rfl
  | cons hfirst _ ih =>
    cases h' with
    | cons hfirst' hothers' =>
      cases hchain with
      | cons hmatches hrest =>
        cases hchain' with
        | cons hmatches' hrest' =>
          obtain ⟨rfl, rfl⟩ := hp.id_eq_of_mem_treesOf hmatches hmatches' hfirst hfirst'
          rw [ih hrest hrest' hothers']

/-- No tree of a state is found twice. -/
theorem nodup_treesOf {id i k : Nat} {symbol : Symbol}
    (hmatches : p.grammar.Matches p.chart id symbol i k) : (p.treesOf limit path id).Nodup := by
  induction hoff : p.offPath path using Nat.strong_induction_on
    generalizing path id i k symbol with
  | _ n ih =>
    by_cases hid : id ∈ path
    · unfold Parse.treesOf
      rw [Evaluator.values_of_mem hid]
      exact List.nodup_nil
    cases symbol with
    | terminal name =>
      obtain ⟨word, -, -, -, htrees⟩ := hp.treesOf_of_terminal hmatches hid
      rw [htrees]
      exact List.nodup_singleton _
    | nonterminal name =>
      obtain ⟨s, position, rule, hs, hproduction, hrule, -, hlists⟩ := hp.rule_of_matches hmatches
      unfold Parse.treesOf
      rw [Evaluator.values_of_rule hid hs hproduction hrule, List.nodup_flatMap]
      refine ⟨fun ids hids => ?_,
        (hp.nodup_lists hs (ne_lexeme_of_rule hproduction)).imp_of_mem ?_⟩
      · refine List.Nodup.filterMap ?_ (nodup_choices fun trees htrees => ?_)
        · rintro args args' t ht ht'
          cases ht
          cases ht'
          rfl
        · obtain ⟨child, hchild, rfl⟩ := List.mem_map.1 htrees
          obtain ⟨symbol, j, m, hbelow⟩ := ((hlists ids).1 hids).matches_of_mem hchild
          exact ih _ (hoff ▸ Parse.offPath_cons_lt hs hid) hbelow rfl
      · intro ids ids' hids hids' hne t ht ht'
        obtain ⟨trees, htrees, hvalue⟩ := Evaluator.mem_listValues_iff.1 ht
        obtain ⟨trees', htrees', hvalue'⟩ := Evaluator.mem_listValues_iff.1 ht'
        cases hvalue
        cases hvalue'
        exact hne (hp.ids_eq_of_mem_treesOf ((hlists ids).1 hids) ((hlists ids').1 hids') htrees
          htrees')

end Finished

/-! ### Trees that are to be found -/

/-- Each of some symbols is predictable wherever the symbols before it may come to. -/
def PredictableFrom (g : Grammar) (tokens : List String) (symbols : List Symbol) (i : Nat) : Prop :=
  ∀ (before after : List Symbol) (symbol : Symbol) (k : Nat), symbols = before ++ symbol :: after →
    i ≤ k → k ≤ tokens.length → g.Derives before (between tokens i k) →
    g.Predictable tokens symbol k

namespace PredictableFrom

variable {symbol : Symbol} {symbols : List Symbol} {i m : Nat}

/-- The start symbol is predictable at the beginning. -/
theorem start (hstart : g.symbol? g.start = some symbol) :
    g.PredictableFrom tokens [symbol] 0 := by
  intro before after symbol' k hsymbols _ hk hbefore
  cases before with
  | nil =>
    cases hsymbols
    have hlength := length_between (Nat.zero_le k) hk
    rw [hbefore.eq_nil, List.length_nil] at hlength
    obtain rfl : k = 0 := by omega
    exact .start hstart
  | cons first rest =>
    have hlength := congrArg List.length hsymbols
    simp at hlength

/-- So are the symbols of a rule whose head is predictable. -/
theorem of_rule {rule : Rule} (hrule : rule ∈ g.rules)
    (hhead : g.Predictable tokens (.nonterminal rule.head) i) :
    g.PredictableFrom tokens rule.rhs i :=
  fun _ _ _ _ hrhs hik hk hbefore => .next hrule hrhs hhead hik hk hbefore

/-- The first symbol is predictable at the first position. -/
theorem head (h : g.PredictableFrom tokens (symbol :: symbols) i) (hi : i ≤ tokens.length) :
    g.Predictable tokens symbol i :=
  h [] symbols symbol i rfl (Nat.le_refl i) hi (by rw [between_self]; exact .nil)

/-- The other symbols are predictable from where the first one has come to. -/
theorem tail (h : g.PredictableFrom tokens (symbol :: symbols) i) (him : i ≤ m)
    (hsymbol : g.Derives [symbol] (between tokens i m)) : g.PredictableFrom tokens symbols m := by
  intro before after symbol' k hsymbols hmk hk hbefore
  refine h (symbol :: before) after symbol' k (by rw [hsymbols]; rfl) (Nat.le_trans him hmk) hk ?_
  rw [← between_append him hmk]
  exact hsymbol.append hbefore

end PredictableFrom

namespace Finished

variable (hp : p.grammar.Finished tokens p.chart)

include hp

/-- A predictable terminal that accepts the next word has a match with its leaf as a tree. -/
theorem exists_leaf_mem_treesOf {name word : String} {i : Nat} (hword : tokens[i]? = some word)
    (haccepts : p.grammar.accepts name word = true)
    (hpredictable : p.grammar.Predictable tokens (.terminal name) i)
    (hpath : ∀ x ∈ path, ∃ place, p.grammar.StandsAt p.chart x place) :
    ∃ id, p.grammar.Matches p.chart id (.terminal name) i (i + 1) ∧
      .leaf name word ∈ p.treesOf limit path id := by
  obtain ⟨id, s, hs, hproduction, hmatches⟩ :=
    hp.exists_matches_of_accepts hword hpredictable haccepts
  have hid : id ∉ path := by
    intro hmem
    obtain ⟨place, s', position, hs', hproduction', -⟩ := hpath id hmem
    obtain rfl : s = s' := Option.some.inj (hs.symm.trans hs')
    rw [hproduction] at hproduction'
    cases hproduction'
  obtain ⟨word', -, hword', -, htrees⟩ := hp.treesOf_of_terminal hmatches hid
  obtain rfl : word = word' := Option.some.inj (hword.symm.trans hword')
  refine ⟨id, hmatches, ?_⟩
  rw [htrees]
  exact List.mem_singleton_self _

/-- A state stands at the place of a rule whose head is predictable, and whose right-hand side
derives the words there. -/
theorem exists_standsAt {rule : Rule} {i k : Nat} (hrule : rule ∈ p.grammar.rules) (hik : i ≤ k)
    (hk : k ≤ tokens.length)
    (hpredictable : p.grammar.Predictable tokens (.nonterminal rule.head) i)
    (hderives : p.grammar.Derives rule.rhs (between tokens i k)) :
    ∃ id, p.grammar.Matches p.chart id (.nonterminal rule.head) i k ∧
      p.grammar.StandsAt p.chart id { rule := rule, start := i, stop := k } := by
  obtain ⟨position, hposition⟩ := Array.mem_iff_getElem?.1 hrule
  obtain ⟨id, s, hs, hproduction, hmatches⟩ :=
    hp.exists_matches_of_rule hposition hik hk hpredictable hderives
  exact ⟨id, hmatches, s, position, hs, hproduction, hposition, hmatches⟩

/-- Trees that show a derivation of the words between two positions are found from some chain of
states, if they are cycle-free and have no node at the place of a state on the path. -/
theorem exists_chain_of_builds {symbols : List Symbol} {words : List String} {trees : List Tree}
    (h : p.grammar.Builds symbols trees words) {i k : Nat} (hwords : between tokens i k = words)
    (hik : i ≤ k) (hk : k ≤ tokens.length)
    (hpredictable : p.grammar.PredictableFrom tokens symbols i) (hfree : Tree.CycleFree i trees)
    (hpath : ∀ x ∈ path, ∃ place, p.grammar.StandsAt p.chart x place)
    (havoids : p.grammar.Avoids p.chart path i trees) :
    ∃ ids, p.grammar.Chain p.chart symbols i k ids ∧
      List.Forall₂ (fun id t => t ∈ p.treesOf limit path id) ids trees := by
  induction h generalizing i k path with
  | nil =>
    have hlength := length_between hik hk
    rw [hwords, List.length_nil] at hlength
    obtain rfl : k = i := by omega
    exact ⟨[], .nil k, .nil⟩
  | @leaf name word symbols trees words haccepts _ ih =>
    have hcut : between tokens i k = [word] ++ words := hwords
    obtain ⟨m, him, hmk, hfront, hback⟩ := exists_between_of_append hik hk hcut
    obtain ⟨rfl, hword⟩ := getElem?_of_between_eq_singleton him (Nat.le_trans hmk hk) hfront
    rw [Tree.CycleFree] at hfree
    rw [avoids_leaf_iff] at havoids
    have hhead := hpredictable.head (Nat.le_trans hik hk)
    have hexists : ∃ id, p.grammar.Matches p.chart id (.terminal name) i (i + 1) ∧
        .leaf name word ∈ p.treesOf limit path id :=
      hp.exists_leaf_mem_treesOf hword haccepts hhead hpath
    obtain ⟨id, hmatches, hleaf⟩ := hexists
    have htail := hpredictable.tail him (hp.derives_of_matches hmatches).1
    obtain ⟨ids, hchain, hothers⟩ := ih hback hmk hk htail hfree hpath havoids
    exact ⟨id :: ids, .cons hmatches hchain, .cons hleaf hothers⟩
  | @node rule symbols children trees front back hrule hfront hback ihfront ihback =>
    obtain ⟨m, him, hmk, hleft, hright⟩ := exists_between_of_append hik hk hwords
    have hm := Nat.le_trans hmk hk
    have hwidth : i + front.length = m := by
      rw [← hleft, length_between him hm]
      omega
    rw [Tree.CycleFree, hfront.placeOf_eq, hfront.words_eq, hwidth] at hfree
    rw [avoids_node_iff, hfront.placeOf_eq, hfront.words_eq, hwidth] at havoids
    obtain ⟨hnew, hfreefront, hfreeback⟩ := hfree
    obtain ⟨hplace, havoidsfront, havoidsback⟩ := havoids
    have hhead := hpredictable.head (Nat.le_trans hik hk)
    obtain ⟨id, hmatches, hstands⟩ :=
      hp.exists_standsAt hrule him hm hhead (by rw [hleft]; exact hfront.derives)
    have hid : id ∉ path := fun hmem => hplace id hmem hstands
    -- Below the node its state is on the path, and no node stands at its place again.
    have hpath' : ∀ x ∈ id :: path, ∃ place, p.grammar.StandsAt p.chart x place := by
      intro x hx
      rcases List.mem_cons.1 hx with rfl | hx
      · exact ⟨_, hstands⟩
      · exact hpath x hx
    obtain ⟨kids, hkids, hchildren⟩ := ihfront hleft him hm (.of_rule hrule hhead) hfreefront
      hpath' (havoidsfront.cons hstands hnew)
    have htail := hpredictable.tail him (hp.derives_of_matches hmatches).1
    obtain ⟨ids, hchain, hothers⟩ := ihback hright hmk hk htail hfreeback hpath havoidsback
    refine ⟨id :: ids, .cons hmatches hchain, .cons ?_ hothers⟩
    exact (hp.mem_treesOf_of_nonterminal hmatches hid).2
      ⟨rule, kids, children, rfl, hstands, hkids, hchildren, rfl⟩

end Finished

/-! ### The trees of an input -/

/-- The trees of the roots of a parse are the cycle-free derivation trees of the input, and there is
none twice. -/
theorem mem_treesOf_roots_iff {limits : Limits} {clock : Clock} (hg : g.WellFormed)
    (h : g.parse limits clock tokens = .ok p) (limit : Option Nat) :
    (p.roots.flatMap (p.treesOf limit [])).Nodup ∧ ∀ t,
      t ∈ p.roots.flatMap (p.treesOf limit []) ↔
        g.IsDerivation tokens t ∧ Tree.CycleFree 0 [t] := by
  obtain ⟨symbol, hstart⟩ := hg.start
  obtain ⟨column, -, -, hnodup, hroots⟩ := roots_of_parse hg h hstart
  have hp := finished_of_parse hg h
  obtain ⟨-, -, -, rfl, -⟩ := parse_eq_ok_iff.1 h
  refine ⟨?_, fun t => ?_⟩
  · rw [List.nodup_flatMap]
    refine ⟨fun id hid => hp.nodup_treesOf ((hroots id).1 hid), hnodup.imp_of_mem ?_⟩
    intro id id' hid hid' hne t ht ht'
    exact hne (hp.id_eq_of_mem_treesOf ((hroots id).1 hid) ((hroots id').1 hid') ht ht').1
  · rw [List.mem_flatMap]
    constructor
    · rintro ⟨id, hid, ht⟩
      obtain ⟨hbuilds, hfree, -⟩ := hp.builds_of_mem_treesOf
        (.cons ((hroots id).1 hid) (.nil tokens.length)) (.cons ht .nil)
      rw [between_zero_length] at hbuilds
      exact ⟨isDerivation_of_builds hstart hbuilds, hfree⟩
    · rintro ⟨hderivation, hfree⟩
      obtain ⟨ids, hchain, htrees⟩ : ∃ ids,
          p.grammar.Chain p.chart [symbol] 0 tokens.length ids ∧
            List.Forall₂ (fun id t => t ∈ p.treesOf limit [] id) ids [t] :=
        hp.exists_chain_of_builds (hderivation.builds hg hstart) (between_zero_length tokens)
          (Nat.zero_le _) (Nat.le_refl _) (.start hstart) hfree
          (fun _ hmem => absurd hmem List.not_mem_nil) (fun _ hmem => absurd hmem List.not_mem_nil)
      cases htrees with
      | cons ht hnone =>
        cases hchain with
        | cons hmatches hrest =>
          cases hnone
          cases hrest
          exact ⟨_, (hroots _).2 hmatches, ht⟩

/-- Without a limit on trees, those of a parse are found, and they are the cycle-free derivation
trees of the input. -/
theorem exists_trees_of_parse {limits : Limits} {clock : Clock} (hg : g.WellFormed)
    (h : g.parse limits clock tokens = .ok p) :
    ∃ found, (p.trees none).result = .ok found ∧ found.Nodup ∧
      ∀ t, t ∈ found ↔ g.IsDerivation tokens t ∧ Tree.CycleFree 0 [t] := by
  obtain ⟨symbol, hstart⟩ := hg.start
  obtain ⟨column, -, -, -, hroots⟩ := roots_of_parse hg h hstart
  have hc := finished_of_parse hg h
  have heval : (p.trees none).result = .ok (p.roots.flatMap (p.treesOf none [])) := by
    obtain ⟨-, -, -, rfl, -⟩ := parse_eq_ok_iff.1 h
    exact Evaluator.evalAll_eq_ok hc rfl (fun _ _ => rfl)
      fun root hroot => ⟨symbol, 0, tokens.length, (hroots root).1 hroot⟩
  exact ⟨_, heval, mem_treesOf_roots_iff hg h none⟩

/-- Without limits, an input has a list of trees, with no tree twice. It holds exactly the
derivation trees that are cycle-free, which are all derivation trees if no nonterminal derives
itself in one step or more. -/
theorem mem_trees_unbounded_iff {ds : List Declaration} {start : String}
    (hg : ofDeclarations ds start = .ok g) (clock : Clock) (tokens : List String) :
    ∃ found, g.trees .unbounded clock tokens = .ok found ∧ found.Nodup ∧
      (∀ t, t ∈ found ↔ g.IsDerivation tokens t ∧ Tree.CycleFree 0 [t]) ∧
      ((∀ name, ¬ Relation.TransGen g.Step [.nonterminal name] [.nonterminal name]) →
        ∀ t, t ∈ found ↔ g.IsDerivation tokens t) := by
  have hwf := wellFormed_of_ofDeclarations hg
  have hexists : ∃ p, g.parse .unbounded clock tokens = .ok p :=
    exists_parse hwf rfl rfl tokens
  obtain ⟨p, hp⟩ := hexists
  obtain ⟨symbol, hstart⟩ := hwf.start
  obtain ⟨column, -, -, -, hroots⟩ := roots_of_parse hwf hp hstart
  obtain ⟨hnodup, hmem⟩ := mem_treesOf_roots_iff hwf hp none
  have hc := finished_of_parse hwf hp
  have heval : (p.trees none).result = .ok (p.roots.flatMap (p.treesOf none [])) := by
    obtain ⟨-, -, -, rfl, -⟩ := parse_eq_ok_iff.1 hp
    exact Evaluator.evalAll_eq_ok hc rfl (fun _ _ => rfl)
      fun root hroot => ⟨symbol, 0, tokens.length, (hroots root).1 hroot⟩
  refine ⟨p.roots.flatMap (p.treesOf none []), ?_, hnodup, hmem, fun hacyclic t => ?_⟩
  · unfold trees
    rw [hp]
    exact heval
  · rw [hmem t]
    refine ⟨And.left, fun hderivation => ⟨hderivation, ?_⟩⟩
    exact (hderivation.builds hwf hstart).cycleFree hacyclic 0

/-- The trees of two words, in a grammar with a symbol that derives itself, and an empty rule. -/
theorem mem_trees_unbounded_iff_pairs :
    ∃ g found, ofDeclarations [.nonterminal "S", .lexeme "a" ["x", "y"], .addRule "S" [],
        .addRule "S" ["S", "S"], .addRule "S" ["a"]] "S" = .ok g ∧
      g.trees .unbounded (fun _ => { nanoseconds := 0 }) ["x", "y"] = .ok found ∧
      found.Nodup ∧ ∀ t, t ∈ found ↔ g.IsDerivation ["x", "y"] t ∧ Tree.CycleFree 0 [t] := by
  have hexists : ∃ g, ofDeclarations [.nonterminal "S", .lexeme "a" ["x", "y"], .addRule "S" [],
      .addRule "S" ["S", "S"], .addRule "S" ["a"]] "S" = .ok g :=
    exists_ofDeclarations (by decide +kernel)
  obtain ⟨g, hg⟩ := hexists
  obtain ⟨found, hfound, hnodup, hmem, -⟩ :=
    mem_trees_unbounded_iff hg (fun _ => { nanoseconds := 0 }) ["x", "y"]
  exact ⟨g, found, hg, hfound, hnodup, hmem⟩

end Grammar

end Earley
