import Earley.Proofs.Forest.Refinement
/-!
# All values are those of the plain recursion

The recursion that a walk stands for, stated by the lists that the chart hands out: a state on the
path has no values, a word has one, and the state of a rule has, list after list, what the action
of the rule makes of every choice of a value for each child (`Evaluator.Recursion`). The equations
determine the values of all roots, and without a limit on alternatives these are the values that an
evaluation finds: what is kept of a state, when it is kept, and what one root leaves behind for the
next make no difference.
-/

universe u

namespace Earley

namespace Evaluator

variable {α : Type u} {e : Evaluator α} {p : Parse} {tokens : List String}

/-- Values for the states of a parse, on each path that may lead to them, by plain recursion. -/
structure Recursion (e : Evaluator α) (p : Parse) (E : List Nat → Nat → List α) : Prop where
  /-- A state on the path has no values. -/
  onPath : ∀ {path : List Nat} {id : Nat}, id ∈ path → E path id = []
  /-- The match of a word has the value of the word. -/
  lexeme : ∀ {path : List Nat} {id : Nat} {s : State} {symbol : Symbol}, id ∉ path →
    p.chart.states[id]? = some s → s.production = .lexeme symbol →
    ∃ word, p.chart.tokens[s.origin]? = some word ∧ E path id = [e.leaf symbol.name word]
  /-- The state of a rule has, for each list that is handed out and for each choice of a value for
  every child in it, what the action of the rule makes of the choice. -/
  rule : ∀ {path : List Nat} {id position : Nat} {s : State}, id ∉ path →
    p.chart.states[id]? = some s → s.production = .rule position →
    ∃ rule action b lists, p.grammar.rules[position]? = some rule ∧
      e.action? rule = some action ∧ p.chart.backpointers? id = some b ∧
      b.HandsOut p.chart lists ∧
      E path id = lists.flatMap fun children =>
        (choices (children.map (E (id :: path)))).map action

/-- The values of a list, if the action of its rule is known. -/
theorem listValues_of_action {rule : Rule} {action : List α → α}
    (haction : e.action? rule = some action) (path : List Nat) (children : List Nat) :
    e.listValues p path rule children =
      (choices (children.map (e.values p path))).map action := by
  simp only [listValues, value?_of_action haction, List.filterMap_eq_map']

/-- With an action for every rule, there are such values. -/
theorem recursion_values (hp : p.grammar.Finished tokens p.chart) (hcovers : e.Covers p.grammar) :
    e.Recursion p (e.values p) where
  onPath := values_of_mem
  lexeme {path id s symbol} hid hs hproduction := by
    obtain ⟨phrase, hsound⟩ := hp.sound hs
    obtain ⟨name, word, -, -, hword, -⟩ := hsound.exists_word hproduction
    rw [← List.getElem?_toArray, ← hp.reachable.tokens_eq] at hword
    exact ⟨word, hword, values_of_lexeme hid hs hproduction hword⟩
  rule {path id position s} hid hs hproduction := by
    obtain ⟨phrase, hsound⟩ := hp.sound hs
    have hphrase := hsound.phrase_eq
    rw [hproduction] at hphrase
    obtain ⟨rule, hrule, -⟩ := Option.map_eq_some_iff.1 hphrase
    obtain ⟨action, haction⟩ := hcovers.exists_action (Array.mem_of_getElem? hrule)
    obtain ⟨b, hb, hlists⟩ := hp.exists_handsOut hs
    refine ⟨rule, action, b, p.chart.lists id, hrule, haction, hb, hlists, ?_⟩
    rw [values_of_rule hid hs hproduction hrule]
    exact List.flatMap_congr fun children _ => listValues_of_action haction _ children

/-- The values of complete matches are determined. -/
theorem Recursion.eq_values (hp : p.grammar.Finished tokens p.chart) {E : List Nat → Nat → List α}
    (h : e.Recursion p E) {path : List Nat} {id i k : Nat} {symbol : Symbol}
    (hmatches : p.grammar.Matches p.chart id symbol i k) : E path id = e.values p path id := by
  -- The children of a state are expanded with one state more on the path.
  induction hoff : p.offPath path using Nat.strong_induction_on generalizing path id i k symbol with
  | _ n ih =>
    by_cases hid : id ∈ path
    · rw [h.onPath hid, values_of_mem hid]
    obtain ⟨s, hs, -, hcases⟩ := hp.production_of_matches hmatches
    rcases hcases with ⟨position, rule, hrule, -, hitem, -⟩ | ⟨name, word, -, hitem, -⟩
    · have hproduction : s.production = .rule position := congrArg Item.production hitem
      obtain ⟨rule', action, b, lists, hrule', haction, hb, hlists, hE⟩ :=
        h.rule hid hs hproduction
      obtain rfl : rule = rule' := Option.some.inj (hrule.symm.trans hrule')
      obtain ⟨b', hb', hall⟩ := hp.exists_handsOut hs
      obtain rfl : b = b' := Option.some.inj (hb.symm.trans hb')
      rw [hE, hlists.unique hall, values_of_rule hid hs hproduction hrule]
      refine List.flatMap_congr fun children hchildren => ?_
      have hvalues : ∀ child ∈ children, E (id :: path) child = e.values p (id :: path) child := by
        intro child hchild
        obtain ⟨symbol', j, m, hmatches'⟩ :=
          hp.matches_of_child hs hproduction ⟨children, hchildren, hchild⟩
        exact ih _ (hoff ▸ Parse.offPath_cons_lt hs hid) hmatches' rfl
      rw [listValues_of_action haction, List.map_congr_left hvalues]
    · have hproduction : s.production = .lexeme (.terminal name) := congrArg Item.production hitem
      obtain ⟨word', hword, hE⟩ := h.lexeme hid hs hproduction
      rw [hE, values_of_lexeme hid hs hproduction hword]

end Evaluator

namespace Grammar

/-- With an action for every rule and without a limit on alternatives, an evaluation of a parse
finds the values of the plain recursion, root after root. -/
theorem evalAll_eq_recursion_of_parse {α : Type u} {g : Grammar} {e : Evaluator α}
    {ds : List Declaration} {start : String} {limits : Limits} {clock : Clock}
    {tokens : List String} {p : Parse} (hg : ofDeclarations ds start = .ok g)
    (h : g.parse limits clock tokens = .ok p) (hlimit : e.maxTrees = none)
    (hcovers : e.Covers g) :
    (∃ E, e.Recursion p E) ∧
      ∀ E, e.Recursion p E → (e.evalAll p).result = .ok (p.roots.flatMap (E [])) := by
  obtain ⟨rfl, hp, symbol, hroots⟩ := finished_and_roots_of_parse hg h
  have hmatches : ∀ root ∈ p.roots, ∃ symbol i k, p.grammar.Matches p.chart root symbol i k :=
    fun root hroot => ⟨symbol, 0, tokens.length, (hroots root).1 hroot⟩
  refine ⟨⟨_, Evaluator.recursion_values hp hcovers⟩, fun E hE => ?_⟩
  rw [Evaluator.evalAll_eq_ok hp hlimit hcovers hmatches]
  refine congrArg Except.ok (List.flatMap_congr fun root hroot => ?_)
  exact (hE.eq_values hp ((hroots root).1 hroot)).symm

/-- The numbers of words of the derivations of two words, in a grammar where both sides of a rule
recur and a chain of symbols leads back to its beginning. -/
theorem evalAll_eq_recursion_of_pairs :
    ∃ g p, ofDeclarations [.nonterminal "S", .nonterminal "T", .lexeme "a" ["x", "y"],
        .addRule "S" ["S", "S"], .addRule "S" ["T"], .addRule "T" ["S"], .addRule "S" ["a"]]
        "S" = .ok g ∧
      g.parse .unbounded (fun _ => { nanoseconds := 0 }) ["x", "y"] = .ok p ∧
      let e : Evaluator Nat :=
        { leaf := fun _ _ => 1, fallback := some fun _ args => args.sum, maxTrees := none }
      (∃ E, e.Recursion p E) ∧
        ∀ E, e.Recursion p E → (e.evalAll p).result = .ok (p.roots.flatMap (E [])) := by
  have hexists : ∃ g, ofDeclarations [.nonterminal "S", .nonterminal "T", .lexeme "a" ["x", "y"],
      .addRule "S" ["S", "S"], .addRule "S" ["T"], .addRule "T" ["S"], .addRule "S" ["a"]]
      "S" = .ok g := exists_ofDeclarations (by decide +kernel)
  obtain ⟨g, hg⟩ := hexists
  have hparse : ∃ p, g.parse .unbounded (fun _ => { nanoseconds := 0 }) ["x", "y"] = .ok p :=
    exists_parse (wellFormed_of_ofDeclarations hg) rfl rfl ["x", "y"]
  obtain ⟨p, hp⟩ := hparse
  exact ⟨g, p, hg, hp, evalAll_eq_recursion_of_parse hg hp rfl fun _ _ => rfl⟩

end Grammar

end Earley
