import Earley.Proofs.Tree.Completeness
import Earley.Proofs.Tree.Fold
/-!
# Missing actions

An evaluation fails with a rule that has neither an action of its own nor a fallback as soon as it
reduces a combination by it. It does so if there is such a rule in one of the trees of the input,
and it never names a rule that has no complete state below the roots
(`Grammar.missingAction_of_parse`).

That a walk does not pass over a rule of a tree has nothing to do with values, so everything is
given one and the same value (`Evaluator.outline`). If this evaluation succeeds, then it still does
so when the rules without an action get one (`Evaluator.Extends`), for instance one with the
opposite value (`Evaluator.coverage`). No value has changed then, but all values are folds of trees,
so there were actions for all rules in them.
-/

universe u

namespace Earley

open Relation

/-! ### More actions -/

/-- An evaluator comes to the same value as another one wherever the other one has an action. -/
structure Evaluator.Extends {α : Type u} (e' e : Evaluator α) : Prop where
  /-- Words have the same values. -/
  leaf : e'.leaf = e.leaf
  /-- The limits are the same. -/
  maxTrees : e'.maxTrees = e.maxTrees
  /-- Where the other one has an action, both come to the same value. -/
  reduce : ∀ {rule : Rule} {args : List α} {value : α}, e.reduce rule args = .ok value →
    e'.reduce rule args = .ok value

namespace Machine

variable {α : Type u} {e e' : Evaluator α} {p : Parse} {firstOnly : Bool}

/-- What a walk goes on with is what the step leads to. -/
theorem step_of_goes {m m' : Machine α} {visits : List (Visit α)}
    (h : Goes e p firstOnly m visits m') : step e p firstOnly m = .next m' := by
  cases h with
  | take hcheck => rw [step_of_pending, hcheck]
  | child hargs hchildren henter => rw [step_of_child hargs hchildren, henter]
  | close hdone hreduce hlast =>
    rw [step_of_done hdone, hreduce]
    dsimp only [advance]
    rcases hlast with hlast | hlast
    · rw [if_pos hlast]
    · split
      next => rfl
      next => rw [hlast]
  | list hdone hreduce hmore hnext =>
    rw [step_of_done hdone, hreduce]
    dsimp only [advance]
    rw [if_neg hmore, hnext]

/-- A walk comes to a state in the same way. -/
theorem enter_of_extends (h : e'.Extends e) (walk : Walk α) (id : Nat) :
    enter e' p walk id = enter e p walk id := by
  simp only [enter, h.leaf]

theorem reduceAll_of_extends (h : e'.Extends e) {rule : Rule} {args : List (List α)}
    {nodes nodes' : Array α} {walk walk' : Walk α}
    (hreduce : reduceAll e rule args nodes walk = (.ok nodes', walk')) :
    reduceAll e' rule args nodes walk = (.ok nodes', walk') := by
  fun_induction reduceAll e rule args nodes walk with
  | case1 => exact hreduce
  | case2 => cases hreduce
  | case3 => cases hreduce
  | case4 args rest nodes walk walk'' node hnode nodes'' _ hcheck ih =>
    have hcheck' : e'.check (nodes.push node).size = .ok () :=
      (Evaluator.check_congr h.maxTrees _).trans hcheck
    rw [reduceAll, h.reduce hnode]
    dsimp only
    rw [hcheck']
    exact ih hreduce

/-- A step that does not fail is done in the same way. -/
theorem Goes.of_extends (h : e'.Extends e) {m m' : Machine α} {visits : List (Visit α)}
    (hgoes : Goes e p firstOnly m visits m') : Goes e' p firstOnly m visits m' := by
  cases hgoes with
  | take hcheck => exact .take ((Evaluator.check_congr h.maxTrees _).trans hcheck)
  | child hargs hchildren henter =>
    exact .child hargs hchildren ((enter_of_extends h _ _).trans henter)
  | close hdone hreduce hlast => exact .close hdone (reduceAll_of_extends h hreduce) hlast
  | list hdone hreduce hmore hnext =>
    exact .list hdone (reduceAll_of_extends h hreduce) hmore hnext

theorem run_of_extends (h : e'.Extends e) {m : Machine α} {values : List α} {walk : Walk α}
    (hrun : run e p firstOnly m = (.ok values, walk)) :
    run e' p firstOnly m = (.ok values, walk) := by
  suffices hwithin : ∀ n (hn : m.room ≤ n), runWithin e p firstOnly n m hn = (.ok values, walk) →
      run e' p firstOnly m = (.ok values, walk) from hwithin m.room (Nat.le_refl _) hrun
  clear hrun
  intro n hn hrun
  fun_induction runWithin e p firstOnly n m hn with
  | case1 m hn result walk' hstep =>
    cases hrun
    cases stops_of_step hstep with
    | empty => exact run_of_step_eq_done e' p firstOnly rfl
  | case2 m hn m' hstep ih =>
    obtain ⟨visits, hgoes⟩ := exists_goes_of_step hstep
    rw [run_of_step_eq_next e' p firstOnly (step_of_goes (hgoes.of_extends h))]
    exact ih hrun

end Machine

namespace Evaluator

variable {α : Type u} {e e' : Evaluator α} {p : Parse}

theorem expand_of_extends (h : e'.Extends e) {firstOnly : Bool} {walk walk' : Walk α} {id : Nat}
    {values : List α} (hexpand : e.expand p firstOnly walk id = (.ok values, walk')) :
    e'.expand p firstOnly walk id = (.ok values, walk') := by
  unfold expand at hexpand ⊢
  rw [Machine.enter_of_extends h]
  split at hexpand
  next => cases hexpand
  next entered entry henter => exact Machine.run_of_extends h hexpand

theorem expandAll_of_extends (h : e'.Extends e) {roots : List Nat} {found values : List α}
    {walk walk' : Walk α} (hexpand : e.expandAll p roots found walk = (.ok values, walk')) :
    e'.expandAll p roots found walk = (.ok values, walk') := by
  induction roots generalizing found walk with
  | nil => exact hexpand
  | cons root rest ih =>
    unfold expandAll at hexpand ⊢
    split at hexpand
    next => cases hexpand
    next more after hroot =>
      rw [expand_of_extends h hroot]
      dsimp only at hexpand ⊢
      split at hexpand
      next => cases hexpand
      next hcheck =>
        rw [check_congr h.maxTrees, hcheck]
        exact ih hexpand

/-- An evaluation that succeeds does so with more actions, and finds the same values. -/
theorem evalAll_of_extends (h : e'.Extends e) {values : List α}
    (hvalues : (e.evalAll p).result = .ok values) : (e'.evalAll p).result = .ok values := by
  have hexpand := expandAll_of_extends h (Prod.ext hvalues rfl : e.expandAll p p.roots []
    (.ofChart p.chart) = (.ok values, (e.expandAll p p.roots [] (.ofChart p.chart)).2))
  exact congrArg Prod.fst hexpand

/-! ### Truth values -/

variable (e)

/-- The evaluator has no action for a rule. -/
def Lacks (rule : Rule) : Prop :=
  e.ownAction? rule = none ∧ e.fallback = none

theorem lacks_iff {rule : Rule} : e.Lacks rule ↔ e.action? rule = none := by
  unfold Lacks action?
  cases e.ownAction? rule <;> simp

/-- The evaluator that has actions for the same rules, and finds nothing but true. -/
def outline : Evaluator Bool where
  leaf _ _ := true
  actions := e.actions.map fun entry => (entry.1, fun args => args.all id)
  fallback := e.fallback.map fun _ _ args => args.all id
  maxTrees := e.maxTrees

/-- The evaluator that finds out of trees whether there are actions for all rules in them. -/
def coverage : Evaluator Bool where
  leaf _ _ := true
  fallback := some fun rule args => (e.action? rule).isSome && args.all id
  maxTrees := e.maxTrees

theorem action?_outline (rule : Rule) :
    e.outline.action? rule = (e.action? rule).map fun _ args => args.all id := by
  have hown : e.outline.ownAction? rule =
      (e.ownAction? rule).map fun _ args => args.all id := by
    unfold ownAction? outline
    induction e.actions with
    | nil => rfl
    | cons entry rest ih =>
      rw [List.map_cons, List.lookup_cons, List.lookup_cons]
      split
      next => rfl
      next => exact ih
  rw [action?, action?, hown]
  cases e.ownAction? rule with
  | some action => rfl
  | none => simp [outline, Function.comp_def]

/-- All that an evaluator finds becomes true. -/
theorem hom_outline (g : Grammar) : e.Hom e.outline g fun _ => true where
  leaf _ _ := rfl
  reduce rule _ args := by
    rw [reduce, reduce, action?_outline]
    cases e.action? rule with
    | none => rfl
    | some action => simp [Except.map]
  check _ h := h

theorem coverage_extends_outline : e.coverage.Extends e.outline where
  leaf := rfl
  maxTrees := rfl
  reduce {rule args value} h := by
    obtain ⟨action', haction', rfl⟩ := e.outline.reduce_eq_ok_iff.1 h
    rw [action?_outline] at haction'
    obtain ⟨action, haction, rfl⟩ := Option.map_eq_some_iff.1 haction'
    refine e.coverage.reduce_eq_ok_iff.2 ⟨_, rfl, ?_⟩
    dsimp only
    rw [haction]
    rfl

variable {e}

/-- If values are found, then the coverage finds nothing but true. -/
theorem evalAll_coverage {values : List α} (h : (e.evalAll p).result = .ok values) :
    (e.coverage.evalAll p).result = .ok (values.map fun _ => true) := by
  refine evalAll_of_extends e.coverage_extends_outline ?_
  obtain ⟨hresult, -⟩ := (e.hom_outline p.grammar).evalAll_eq fun _ _ => rfl
  rw [hresult, h]
  rfl

end Evaluator

/-! ### Rules in trees -/

/-- A node of the tree shows the rule. -/
def Tree.Uses (t : Tree) (rule : Rule) : Prop :=
  ∃ children, (Tree.node rule.head children).Occurs t ∧ children.map Tree.symbol = rule.rhs

namespace Evaluator

variable {α : Type u} {e : Evaluator α}

/-- If some trees have values, then each of them has one. -/
theorem exists_fold?_of_foldAll? {trees : List Tree} {values : List α}
    (h : e.foldAll? trees = some values) :
    ∀ t ∈ trees, ∃ value ∈ values, e.fold? t = some value := by
  induction trees generalizing values with
  | nil => exact fun _ hmem => nomatch hmem
  | cons first rest ih =>
    rw [foldAll?] at h
    obtain ⟨value, hvalue, h⟩ := Option.bind_eq_some_iff.1 h
    obtain ⟨others, hothers, rfl⟩ := Option.map_eq_some_iff.1 h
    refine List.forall_mem_cons.2 ⟨⟨value, List.mem_cons_self, hvalue⟩, fun t ht => ?_⟩
    obtain ⟨other, hmem, hother⟩ := ih hothers t ht
    exact ⟨other, List.mem_cons_of_mem _ hmem, hother⟩

/-- A node is true for the coverage if there is an action for its rule and its children are. -/
theorem coverage_of_node {label : String} {children : List Tree}
    (h : e.coverage.fold? (.node label children) = some true) :
    (e.action? { head := label, rhs := children.map Tree.symbol }).isSome = true ∧
      ∀ t ∈ children, e.coverage.fold? t = some true := by
  rw [fold?] at h
  obtain ⟨args, hargs, hvalue⟩ := Option.bind_eq_some_iff.1 h
  obtain ⟨haction, hall⟩ := Bool.and_eq_true_iff.1 (Option.some.inj hvalue)
  refine ⟨haction, fun t ht => ?_⟩
  obtain ⟨value, hmem, hfold⟩ := exists_fold?_of_foldAll? hargs t ht
  rw [hfold, show value = true from List.all_eq_true.1 hall value hmem]

/-- So a tree is true only if there are actions for all rules in it. -/
theorem not_lacks_of_coverage {t : Tree} {rule : Rule} (h : e.coverage.fold? t = some true)
    (huses : t.Uses rule) : ¬ e.Lacks rule := by
  obtain ⟨children, hoccurs, hrhs⟩ := huses
  induction hoccurs with
  | refl =>
    obtain ⟨haction, -⟩ := coverage_of_node h
    rw [hrhs] at haction
    rw [lacks_iff, ← Option.isNone_iff_eq_none, Option.isNone_eq_false_iff.2 haction]
    exact Bool.false_ne_true
  | child hmem _ ih => exact ih ((coverage_of_node h).2 _ hmem)

end Evaluator

/-! ### Rules below the roots -/

/-- The rule has a complete state that can be reached from a root, from one state to the next by the
lists of the chart. -/
def Parse.Reaches (p : Parse) (rule : Rule) : Prop :=
  ∃ root ∈ p.roots, ∃ (id : Nat) (s : State) (position : Nat),
    ReflTransGen p.chart.Child id root ∧ p.chart.states[id]? = some s ∧ s.isComplete = true ∧
      s.production = .rule position ∧ p.grammar.rules[position]? = some rule

theorem Parse.Reaches.mem {p : Parse} {rule : Rule} (h : p.Reaches rule) :
    rule ∈ p.grammar.rules := by
  obtain ⟨_, _, _, _, _, _, _, _, _, hrule⟩ := h
  exact Array.mem_of_getElem? hrule

namespace Grammar

/-- The states below a complete match are complete matches. -/
theorem Finished.matches_of_reach {g : Grammar} {tokens : List String} {c : Chart}
    (hc : g.Finished tokens c) {id root : Nat} (hreach : ReflTransGen c.Child id root)
    (hroot : ∃ symbol i k, g.Matches c root symbol i k) :
    ∃ symbol i k, g.Matches c id symbol i k := by
  induction hreach using ReflTransGen.head_induction_on with
  | refl => exact hroot
  | head hchild _ ih =>
    obtain ⟨_, _, _, hmatches⟩ := ih
    obtain ⟨s, hs, -, hcases⟩ := hc.production_of_matches hmatches
    rcases hcases with ⟨position, rule, -, -, hitem, -⟩ | ⟨name, word, -, hitem, -⟩
    · exact hc.matches_of_child hs (congrArg Item.production hitem) hchild
    · exact absurd hchild (hc.not_child_of_lexeme hs (congrArg Item.production hitem))

end Grammar

namespace Evaluator

variable {α : Type u} {e : Evaluator α} {p : Parse} {tokens : List String}

variable (e) in
/-- Without a limit, the trees are found, and values are found only if there are actions for all
rules in trees. -/
theorem exists_trees_of_evalAll (hp : p.grammar.Finished tokens p.chart)
    (hroots : ∀ root ∈ p.roots, ∃ symbol i k, p.grammar.Matches p.chart root symbol i k)
    (hlimit : e.maxTrees = none) :
    ∃ trees, (p.trees none).result = .ok trees ∧
      ∀ values, (e.evalAll p).result = .ok values →
        ∀ t ∈ trees, ∀ rule, t.Uses rule → ¬ e.Lacks rule := by
  rcases folds_of_evalAll (e := e.coverage) hp (fun _ _ => rfl) hroots with
    ⟨trees, truths, htrees, htruths, hfolds⟩ | ⟨limit, hsome, -⟩
  · refine ⟨trees, hlimit ▸ htrees, fun values hvalues t ht rule huses => ?_⟩
    obtain rfl := Except.ok.inj (htruths.symm.trans (evalAll_coverage hvalues))
    have hfold : e.coverage.fold? t ∈ (values.map fun _ => true).map some :=
      hfolds ▸ List.mem_map_of_mem ht
    obtain ⟨truth, htruth, htrue⟩ := List.mem_map.1 hfold
    obtain ⟨-, -, rfl⟩ := List.mem_map.1 htruth
    exact not_lacks_of_coverage htrue.symm huses
  · cases hlimit.symm.trans hsome

/-- Without a limit, a missing action is the only reason for an evaluation to fail, and the rule has
a complete state below a root. -/
theorem exists_reaches_of_evalAll (hp : p.grammar.Finished tokens p.chart)
    (hroots : ∀ root ∈ p.roots, ∃ symbol i k, p.grammar.Matches p.chart root symbol i k)
    (hlimit : e.maxTrees = none) {failure : ParseError}
    (h : (e.evalAll p).result = .error failure) :
    ∃ rule, p.Reaches rule ∧ e.Lacks rule ∧ failure = .missingAction rule.text := by
  obtain ⟨root, hroot, ⟨limit, hsome, -⟩ | ⟨id, s, position, rule, hreach, hs, hproduction, hrule,
    hnone, hfailure⟩⟩ := fails_of_evalAll hp hroots h
  · rw [hlimit] at hsome
    cases hsome
  · obtain ⟨_, _, _, s', hs', hcomplete, -⟩ := hp.matches_of_reach hreach (hroots root hroot)
    obtain rfl : s = s' := Option.some.inj (hs.symm.trans hs')
    exact ⟨rule, ⟨root, hroot, id, s, position, hreach, hs, hcomplete, hproduction, hrule⟩,
      e.lacks_iff.2 hnone, hfailure⟩

end Evaluator

namespace Grammar

/-- Missing actions are reported, and only those. Without a limit on alternatives, an evaluation of
a parse fails with a rule that has no action if there is such a rule in one of the trees. It finds
values if no such rule has a complete state that can be reached from a root, and if it fails with a
rule, then the rule has no action and such a state. -/
theorem missingAction_of_parse {α : Type u} {g : Grammar} {e : Evaluator α}
    {ds : List Declaration} {start : String} {limits : Limits} {clock : Clock}
    {tokens : List String} {p : Parse} (hg : ofDeclarations ds start = .ok g)
    (h : g.parse limits clock tokens = .ok p) (hlimit : e.maxTrees = none) :
    (∃ trees, (p.trees none).result = .ok trees ∧
      ∀ t ∈ trees, ∀ rule, t.Uses rule → e.Lacks rule →
        ∃ missing ∈ g.rules, e.Lacks missing ∧
          (e.evalAll p).result = .error (.missingAction missing.text)) ∧
    ((∀ rule, p.Reaches rule → ¬ e.Lacks rule) →
      ∃ values, (e.evalAll p).result = .ok values) ∧
    ∀ text, (e.evalAll p).result = .error (.missingAction text) →
      ∃ rule, p.Reaches rule ∧ e.Lacks rule ∧ text = rule.text := by
  obtain ⟨rfl, hp, hroots⟩ := finished_and_matches_of_parse hg h
  refine ⟨?_, fun hactions => ?_, fun text herror => ?_⟩
  · obtain ⟨trees, htrees, hcovered⟩ := e.exists_trees_of_evalAll hp hroots hlimit
    refine ⟨trees, htrees, fun t ht rule huses hlacks => ?_⟩
    cases hresult : (e.evalAll p).result with
    | ok values => exact absurd hlacks (hcovered values hresult t ht rule huses)
    | error failure =>
      obtain ⟨missing, hreaches, hmissing, rfl⟩ :=
        Evaluator.exists_reaches_of_evalAll hp hroots hlimit hresult
      exact ⟨missing, hreaches.mem, hmissing, rfl⟩
  · cases hresult : (e.evalAll p).result with
    | ok values => exact ⟨values, rfl⟩
    | error failure =>
      obtain ⟨rule, hreaches, hlacks, -⟩ :=
        Evaluator.exists_reaches_of_evalAll hp hroots hlimit hresult
      exact absurd hlacks (hactions rule hreaches)
  · obtain ⟨rule, hreaches, hlacks, hfailure⟩ :=
      Evaluator.exists_reaches_of_evalAll hp hroots hlimit herror
    exact ⟨rule, hreaches, hlacks, ParseError.missingAction.inj hfailure⟩

/-- Two words whose only tree needs both rules: the evaluation fails with the rule that has no
action, and values are found once there is one. -/
theorem missingAction_of_parse_of_words :
    ∃ g p, ofDeclarations [.nonterminal "S", .lexeme "a" ["x", "y"], .addRule "S" ["S", "S"],
        .addRule "S" ["a"]] "S" = .ok g ∧
      g.parse .unbounded (fun _ => { nanoseconds := 0 }) ["x", "y"] = .ok p ∧
      let e : Evaluator Nat :=
        { leaf := fun _ _ => 1
          actions := [("S -> a", List.sum)]
          maxTrees := none }
      (e.evalAll p).result = .error (.missingAction "S -> S S") ∧
        ∃ values, ((e.withAction "S -> S S" List.sum).evalAll p).result = .ok values := by
  have htest : (ofDeclarations [.nonterminal "S", .lexeme "a" ["x", "y"],
      .addRule "S" ["S", "S"], .addRule "S" ["a"]] "S").toOption.any (fun g =>
        g.rules.toList = [{ head := "S", rhs := [.nonterminal "S", .nonterminal "S"] },
          { head := "S", rhs := [.terminal "a"] }] ∧ g.symbol? g.start = some (.nonterminal "S") ∧
          g.accepts "a" "x" = true ∧ g.accepts "a" "y" = true) = true := by
    decide +kernel
  obtain ⟨g, hg, hfacts⟩ := exists_of_any htest
  obtain ⟨hrules, hstart, hx, hy⟩ := of_decide_eq_true hfacts
  have hmem {rule : Rule} : rule ∈ g.rules ↔
      rule = { head := "S", rhs := [.nonterminal "S", .nonterminal "S"] } ∨
        rule = { head := "S", rhs := [.terminal "a"] } := by
    rw [← Array.mem_toList_iff, hrules, List.mem_cons, List.mem_singleton]
  have hwf := wellFormed_of_ofDeclarations hg
  have hparse : ∃ p, g.parse .unbounded (fun _ => { nanoseconds := 0 }) ["x", "y"] = .ok p :=
    exists_parse hwf rfl rfl ["x", "y"]
  obtain ⟨p, hp⟩ := hparse
  let t : Tree := .node "S" [.node "S" [.leaf "a" "x"], .node "S" [.leaf "a" "y"]]
  have hderivation : g.IsDerivation ["x", "y"] t := by
    refine isDerivation_of_builds hstart (.of_rule (hmem.2 (.inl rfl)) ?_)
    exact .node (hmem.2 (.inr rfl)) (.leaf hx .nil)
      (.node (hmem.2 (.inr rfl)) (.leaf hy .nil) .nil)
  have hfree : Tree.CycleFree 0 [t] := by
    simp [t, Tree.CycleFree, Tree.places, Tree.placeOf, Tree.words, Tree.symbol]
  let e : Evaluator Nat :=
    { leaf := fun _ _ => 1
      actions := [("S -> a", List.sum)]
      maxTrees := none }
  have hlacks : e.Lacks { head := "S", rhs := [.nonterminal "S", .nonterminal "S"] } := by
    exact ⟨by decide +kernel, rfl⟩
  obtain ⟨trees, htrees, -, hfound⟩ := exists_trees_of_parse hwf hp
  obtain ⟨⟨trees', htrees', hreported⟩, -, -⟩ := missingAction_of_parse (e := e) hg hp rfl
  obtain rfl := Except.ok.inj (htrees.symm.trans htrees')
  obtain ⟨missing, hmissing, hnone, herror⟩ :=
    hreported t ((hfound t).2 ⟨hderivation, hfree⟩) _ ⟨_, .refl t, rfl⟩ hlacks
  refine ⟨g, p, hg, hp, ?_, ?_⟩
  · rcases hmem.1 hmissing with rfl | rfl
    · exact herror
    · exact absurd hnone.1 (by decide +kernel)
  · refine (missingAction_of_parse hg hp rfl).2.1 fun rule hreaches hnone => ?_
    obtain ⟨hgrammar, -⟩ := finished_and_roots_of_parse hg hp
    rcases hmem.1 (hgrammar ▸ hreaches.mem) with rfl | rfl
    · exact absurd hnone.1 (by decide +kernel)
    · exact absurd hnone.1 (by decide +kernel)

end Grammar

end Earley
