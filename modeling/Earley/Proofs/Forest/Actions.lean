import Earley.Proofs.Forest.Homomorphism
import Earley.Proofs.Grammar.RuleText
/-!
# Actions that are registered under the text of a rule

An evaluator looks up the action of a rule by its text. So an action that is registered under the
text of a rule is used for the reductions of all rules that have this text, and for no others
(`Evaluator.reduce_withAction`). Names may be such that different rules of a grammar share a text,
and then the action of the one is used for the other (`Grammar.exists_rules_of_same_text`). Among
legible rules each one has its own (`Grammar.evaluations_of_registered_action`).
-/

universe u

namespace Earley

namespace Evaluator

variable {α : Type u} {e e' : Evaluator α} {g : Grammar}

/-- The action that is registered last under the text of a rule is the one that is used. -/
theorem action?_withAction (e : Evaluator α) (text : String) (action : List α → α) (rule : Rule) :
    (e.withAction text action).action? rule =
      if rule.text = text then some action else e.action? rule := by
  unfold action? ownAction? withAction
  rw [List.lookup_cons]
  by_cases htext : rule.text = text
  · rw [if_pos htext, htext, beq_self_eq_true]
    rfl
  · rw [if_neg htext, beq_eq_false_iff_ne.2 htext]

/-- A registered action is used for the rules that have the text, and for no others. -/
theorem reduce_withAction (e : Evaluator α) (text : String) (action : List α → α) (rule : Rule)
    (args : List α) :
    (e.withAction text action).reduce rule args =
      if rule.text = text then .ok (action args) else e.reduce rule args := by
  unfold reduce
  rw [action?_withAction]
  by_cases htext : rule.text = text
  · rw [if_pos htext, if_pos htext]
  · rw [if_neg htext, if_neg htext]

/-- Evaluators that treat words and the rules of a grammar alike are the same to its parses. -/
theorem hom_id (hleaf : e'.leaf = e.leaf) (hlimit : e'.maxTrees = e.maxTrees)
    (hreduce : ∀ rule ∈ g.rules, ∀ args, e'.reduce rule args = e.reduce rule args) :
    e.Hom e' g id where
  leaf symbol word := congrFun (congrFun hleaf symbol) word
  reduce rule hrule args := by
    rw [List.map_id, hreduce rule hrule]
    cases e.reduce rule args <;> rfl
  check n hcheck := (check_congr hlimit n).trans hcheck

/-- Such evaluators find the same values, on walks to which the same happens. -/
theorem evaluations_eq {p : Parse} (hleaf : e'.leaf = e.leaf) (hlimit : e'.maxTrees = e.maxTrees)
    (hreduce : ∀ rule ∈ p.grammar.rules, ∀ args, e'.reduce rule args = e.reduce rule args) :
    e'.evalAll p = e.evalAll p ∧ e'.evalFirst p = e.evalFirst p := by
  have hhom := hom_id hleaf hlimit hreduce
  obtain ⟨hall, hallEvents⟩ := hhom.evalAll_eq fun _ _ => hlimit
  obtain ⟨hfirst, hfirstEvents⟩ := hhom.evalFirst_eq fun _ _ => hlimit
  have hresult {β : Type u} {f : β → β} (hf : ∀ value, f value = value)
      (result : Except ParseError β) : result.map f = result := by
    cases result with
    | error failure => rfl
    | ok value => exact congrArg Except.ok (hf value)
  rw [hresult List.map_id] at hall
  rw [hresult fun value => by cases value <;> rfl] at hfirst
  refine ⟨?_, ?_⟩
  · cases hleft : e'.evalAll p
    cases hright : e.evalAll p
    simp_all
  · cases hleft : e'.evalFirst p
    cases hright : e.evalFirst p
    simp_all

end Evaluator

namespace Grammar

variable {g : Grammar}

/-- Rules of one grammar that differ may share a text: with a blank in a name, with an empty name,
or with an arrow in a head. What is registered for the one is then used for the other. -/
theorem exists_rules_of_same_text :
    ∃ g, ofDeclarations [.nonterminal "S", .nonterminal "S ->", .lexeme "A B" ["x"],
        .lexeme "A" ["y"], .lexeme "B" ["z"], .lexeme "" ["v"], .lexeme "->" ["w"],
        .addRule "S" ["A B"], .addRule "S" ["A", "B"], .addRule "S" [], .addRule "S" [""],
        .addRule "S ->" ["A"], .addRule "S" ["->", "A"]] "S" = .ok g ∧
      ∀ pair ∈ [(0, 1), (2, 3), (4, 5)], ∃ rule other, g.rules[pair.1]? = some rule ∧
        g.rules[pair.2]? = some other ∧ rule ≠ other ∧ other.text = rule.text ∧
        ∀ (e : Evaluator String) (action : List String → String) (args : List String),
          (e.withAction rule.text action).reduce other args = .ok (action args) := by
  have htest : (ofDeclarations [.nonterminal "S", .nonterminal "S ->", .lexeme "A B" ["x"],
      .lexeme "A" ["y"], .lexeme "B" ["z"], .lexeme "" ["v"], .lexeme "->" ["w"],
      .addRule "S" ["A B"], .addRule "S" ["A", "B"], .addRule "S" [], .addRule "S" [""],
      .addRule "S ->" ["A"], .addRule "S" ["->", "A"]] "S").toOption.any (fun g =>
        [(0, 1), (2, 3), (4, 5)].all fun pair => (g.rules[pair.1]?).any fun rule =>
          (g.rules[pair.2]?).any fun other => rule ≠ other ∧ other.text = rule.text) = true := by
    decide +kernel
  obtain ⟨g, hg, hrules⟩ := exists_of_any htest
  refine ⟨g, hg, fun pair hpair => ?_⟩
  obtain ⟨rule, hrule, hsecond⟩ :=
    (Option.any_eq_true _ _).1 (List.all_eq_true.1 hrules pair hpair)
  obtain ⟨other, hother, hboth⟩ := (Option.any_eq_true _ _).1 hsecond
  obtain ⟨hne, htext⟩ := of_decide_eq_true hboth
  refine ⟨rule, other, hrule, hother, hne, htext, fun e action args => ?_⟩
  rw [e.reduce_withAction, if_pos htext]

/-- An action that is registered under the text of a rule is used, for every input, on reductions of
exactly those rules of the grammar that have this text: an evaluator that reduces these rules by the
action and all others as before, in whatever way it tells them apart, finds the same values, on
walks to which the same happens. Two different rules have different texts if they are legible. -/
theorem evaluations_of_registered_action {ds : List Declaration} {start : String}
    (hg : ofDeclarations ds start = .ok g) {α : Type u} (e : Evaluator α) {rule : Rule}
    (hrule : rule ∈ g.rules) (action : List α → α) :
    (∀ other ∈ g.rules, rule.Legible → other.Legible → other ≠ rule → other.text ≠ rule.text) ∧
    (∀ other ∈ g.rules, ∀ args, (e.withAction rule.text action).reduce other args =
      if other.text = rule.text then .ok (action args) else e.reduce other args) ∧
    ∀ e' : Evaluator α, e'.leaf = e.leaf → e'.maxTrees = e.maxTrees →
      (∀ other ∈ g.rules, ∀ args, e'.reduce other args =
        if other.text = rule.text then .ok (action args) else e.reduce other args) →
      ∀ (limits : Limits) (clock : Clock) (tokens : List String) (p : Parse),
        g.parse limits clock tokens = .ok p →
          (e.withAction rule.text action).evalAll p = e'.evalAll p ∧
            (e.withAction rule.text action).evalFirst p = e'.evalFirst p := by
  have hwf := wellFormed_of_ofDeclarations hg
  refine ⟨fun other hother hlegible hlegible' hne htext => ?_,
    fun other _ args => e.reduce_withAction rule.text action other args,
    fun e' hleaf hlimit hreduce limits clock tokens p hp => ?_⟩
  · exact hne (hwf.eq_of_text_eq hother hrule hlegible' hlegible htext)
  · obtain ⟨-, -, -, hgrammar, -⟩ := parse_eq_ok_iff.1 hp
    refine Evaluator.evaluations_eq hleaf.symm hlimit.symm fun other hother args => ?_
    rw [hgrammar] at hother
    rw [e.reduce_withAction, hreduce other hother]

/-- In a grammar with two rules, an action that is registered under the text of one of them is used
like one of an evaluator that has none registered and looks at the right-hand sides. -/
theorem evaluations_of_registered_action_of_pairs :
    ∃ g, ofDeclarations [.nonterminal "S", .lexeme "a" ["x", "y"], .addRule "S" ["S", "S"],
        .addRule "S" ["a"]] "S" = .ok g ∧
      ∀ (limits : Limits) (clock : Clock) (tokens : List String) (p : Parse),
        g.parse limits clock tokens = .ok p →
          (({ leaf := fun _ word => word, fallback := some fun rule _ => rule.head } :
              Evaluator String).withAction "S -> S S" String.join).evalAll p =
            ({ leaf := fun _ word => word, fallback := some fun rule args =>
              if rule.rhs.length = 2 then String.join args else rule.head } :
              Evaluator String).evalAll p := by
  have htest : (ofDeclarations [.nonterminal "S", .lexeme "a" ["x", "y"],
      .addRule "S" ["S", "S"], .addRule "S" ["a"]] "S").toOption.any (fun g =>
        g.rules.toList = [{ head := "S", rhs := [.nonterminal "S", .nonterminal "S"] },
          { head := "S", rhs := [.terminal "a"] }]) = true := by
    decide +kernel
  obtain ⟨g, hg, hrules⟩ := exists_of_any htest
  replace hrules := of_decide_eq_true hrules
  have htext : ({ head := "S", rhs := [.nonterminal "S", .nonterminal "S"] } : Rule).text =
      "S -> S S" := by decide +kernel
  have hrule : { head := "S", rhs := [.nonterminal "S", .nonterminal "S"] } ∈ g.rules := by
    rw [← Array.mem_toList_iff, hrules]
    exact List.mem_cons_self
  let e : Evaluator String :=
    { leaf := fun _ word => word
      fallback := some fun rule _ => rule.head }
  let e' : Evaluator String :=
    { leaf := fun _ word => word
      fallback := some fun rule args =>
        if rule.rhs.length = 2 then String.join args else rule.head }
  obtain ⟨-, -, heval⟩ := evaluations_of_registered_action hg e hrule String.join
  have hreduce : ∀ other ∈ g.rules, ∀ args, e'.reduce other args =
      if other.text = "S -> S S" then .ok (String.join args) else e.reduce other args := by
    intro other hother args
    rw [← Array.mem_toList_iff, hrules] at hother
    rw [List.mem_cons, List.mem_singleton] at hother
    rcases hother with rfl | rfl
    · rw [if_pos htext]
      rfl
    · rw [if_neg (by decide +kernel)]
      rfl
  rw [htext] at heval
  exact ⟨g, hg, fun limits clock tokens p hp =>
    (heval e' rfl rfl hreduce limits clock tokens p hp).1⟩

end Grammar

end Earley
