import Earley.Proofs.Forest.FirstWalk
import Earley.Proofs.Forest.Homomorphism
import Earley.Proofs.Tree.Derivation
/-!
# Evaluations fold trees

A tree has all that an evaluator needs to know of a derivation: its leaves show words, and its nodes
show rules (`Evaluator.fold?`). To evaluate a parse is thus to read its trees off, under the same
limit, and to fold each of them (`Grammar.folds_of_parse`). The proof evaluates the parse once with
trees and values side by side (`Evaluator.withTree`). Dropping one side or the other makes no
difference to the walk, and what a derivation comes to on one side is the fold of what it comes to
on the other.
-/

universe u

namespace Earley

namespace Evaluator

variable {α : Type u} (e : Evaluator α)

mutual

/-- The value of a tree. A leaf has the value of its word, and a node has what the action of the
rule that it shows makes of the values of its children, if some action can be used. -/
def fold? : Tree → Option α
  | .leaf symbol word => some (e.leaf symbol word)
  | .node label children =>
    (foldAll? children).bind (e.value? { head := label, rhs := children.map Tree.symbol })

/-- The values of some trees. -/
def foldAll? : List Tree → Option (List α)
  | [] => some []
  | t :: rest => (fold? t).bind fun value => (foldAll? rest).map (value :: ·)

end

/-- The evaluator that computes trees and values side by side. A rule without an action gets a value
that does not matter. -/
def withTree : Evaluator (Tree × α) where
  leaf symbol word := (.leaf symbol word, e.leaf symbol word)
  fallback := some fun rule args =>
    (.node rule.head (args.map Prod.fst),
      (e.value? rule (args.map Prod.snd)).getD (e.leaf rule.head ""))
  maxTrees := e.maxTrees

/-- The values may be dropped. -/
theorem hom_fst (g : Grammar) :
    e.withTree.Hom (Tree.evaluator.withMaxTrees e.maxTrees) g Prod.fst where
  leaf _ _ := rfl
  reduce _ _ _ := rfl
  check _ h := h

variable {e}

/-- The trees may be dropped, if there is an action for every rule. -/
theorem hom_snd {g : Grammar} (hcovers : e.Covers g) : e.withTree.Hom e g Prod.snd where
  leaf _ _ := rfl
  reduce rule hrule args := by
    obtain ⟨action, haction⟩ := hcovers.exists_action hrule
    have hvalue : e.value? rule (args.map Prod.snd) = some (action (args.map Prod.snd)) :=
      value?_of_action haction _
    rw [reduce, haction]
    change _ = Except.ok ((e.value? rule (args.map Prod.snd)).getD (e.leaf rule.head ""))
    rw [hvalue]
    rfl
  check _ h := h

/-- A tree and a value that were computed for the same match. -/
def IsFold (e : Evaluator α) (p : Parse) (id : Nat) (v : Tree × α) : Prop :=
  ∀ symbol i k, p.grammar.Matches p.chart id symbol i k →
    v.1.symbol = symbol ∧ e.fold? v.1 = some v.2

variable {p : Parse} {tokens : List String}

/-- The children of a node show the right-hand side of its rule, and their folds are its
arguments. -/
theorem foldAll?_of_chain {symbols : List Symbol} {i k : Nat} {ids : List Nat}
    {args : List (Tree × α)} (hchain : p.grammar.Chain p.chart symbols i k ids)
    (h : List.Forall₂ (e.IsFold p) ids args) :
    (args.map Prod.fst).map Tree.symbol = symbols ∧
      e.foldAll? (args.map Prod.fst) = some (args.map Prod.snd) := by
  induction hchain generalizing args with
  | nil =>
    cases h
    exact ⟨rfl, rfl⟩
  | cons hfirst hrest ih =>
    cases h with
    | cons hfold hfolds =>
      obtain ⟨hsymbol, hvalue⟩ := hfold _ _ _ hfirst
      obtain ⟨hsymbols, hvalues⟩ := ih hfolds
      simp [foldAll?, hsymbol, hvalue, hsymbols, hvalues]

/-- What is computed side by side is a tree and its fold. -/
theorem handedOn_isFold (hp : p.grammar.Finished tokens p.chart) (hcovers : e.Covers p.grammar) :
    Machine.HandedOn (e.IsFold p) e.withTree p where
  leaf {id s symbol word} hs hproduction hword := by
    intro symbol' i k hmatches
    obtain ⟨name, rfl, rfl, -⟩ := hp.word_of_matches hmatches hs hproduction hword
    exact ⟨rfl, rfl⟩
  reduce {id position s rule children args v} hs hproduction hrule hchildren hargs hvalue := by
    intro symbol i k hmatches
    obtain ⟨rfl, hlists⟩ := hp.chain_of_matches hmatches hs hproduction hrule
    obtain ⟨hsymbols, hvalues⟩ := foldAll?_of_chain ((hlists children).1 hchildren) hargs
    obtain ⟨action, haction⟩ := hcovers.exists_action (Array.mem_of_getElem? hrule)
    cases hvalue
    refine ⟨rfl, ?_⟩
    simp [fold?, hsymbols, hvalues, value?_of_action haction]

section

variable (hp : p.grammar.Finished tokens p.chart) (hcovers : e.Covers p.grammar)
  (hroots : ∀ root ∈ p.roots, ∃ symbol i k, p.grammar.Matches p.chart root symbol i k)

include hp hcovers hroots

/-- The values of all derivations are the folds of the trees. -/
theorem folds_of_evalAll :
    (∃ trees values, (p.trees e.maxTrees).result = .ok trees ∧ (e.evalAll p).result = .ok values ∧
        trees.map e.fold? = values.map some) ∨
      ∃ limit, e.maxTrees = some limit ∧
        (p.trees e.maxTrees).result = .error (.treeBudget limit) ∧
        (e.evalAll p).result = .error (.treeBudget limit) := by
  obtain ⟨htrees, -⟩ := (e.hom_fst p.grammar).evalAll_eq fun _ _ => rfl
  obtain ⟨hvalues, -⟩ := (hom_snd hcovers).evalAll_eq fun _ _ => rfl
  cases hresult : (e.withTree.evalAll p).result with
  | error failure =>
    rw [hresult] at htrees hvalues
    obtain ⟨limit, hlimit, rfl⟩ := treeBudget_of_evalAll hp (fun _ _ => rfl) hroots hresult
    exact .inr ⟨limit, hlimit, htrees, hvalues⟩
  | ok pairs =>
    rw [hresult] at htrees hvalues
    refine .inl ⟨_, _, htrees, hvalues, ?_⟩
    rw [List.map_map, List.map_map]
    refine List.map_congr_left fun v hv => ?_
    rcases forall_of_expandAll (handedOn_isFold hp hcovers) (Prod.ext hresult rfl)
      (keeps_ofChart _ p.chart) v hv with hmem | ⟨root, hroot, hfold⟩
    · cases hmem
    · obtain ⟨symbol, i, k, hmatches⟩ := hroots root hroot
      exact (hfold symbol i k hmatches).2

/-- The value of the first derivation is the fold of the first tree. -/
theorem folds_of_evalFirst :
    (∃ tree value, ((Tree.evaluator.withMaxTrees e.maxTrees).evalFirst p).result = .ok tree ∧
        (e.evalFirst p).result = .ok value ∧ tree.map e.fold? = value.map some) ∨
      ∃ limit, e.maxTrees = some limit ∧
        ((Tree.evaluator.withMaxTrees e.maxTrees).evalFirst p).result =
          .error (.treeBudget limit) ∧
        (e.evalFirst p).result = .error (.treeBudget limit) := by
  obtain ⟨htree, -⟩ := (e.hom_fst p.grammar).evalFirst_eq fun _ _ => rfl
  obtain ⟨hvalue, -⟩ := (hom_snd hcovers).evalFirst_eq fun _ _ => rfl
  cases hresult : (e.withTree.evalFirst p).result with
  | error failure =>
    rw [hresult] at htree hvalue
    obtain ⟨limit, hlimit, rfl⟩ := treeBudget_of_evalFirst hp (fun _ _ => rfl) hroots hresult
    exact .inr ⟨limit, hlimit, htree, hvalue⟩
  | ok pair =>
    rw [hresult] at htree hvalue
    refine .inl ⟨_, _, htree, hvalue, ?_⟩
    cases pair with
    | none => rfl
    | some v =>
      obtain ⟨root, hroot, hfold⟩ := exists_of_expandFirst (handedOn_isFold hp hcovers)
        (Prod.ext hresult rfl) (keeps_ofChart _ p.chart)
      obtain ⟨symbol, i, k, hmatches⟩ := hroots root hroot
      exact congrArg some (hfold symbol i k hmatches).2

end

end Evaluator

namespace Grammar

/-- To evaluate a parse is to read its trees off under the same limit, and to fold each of them. The
values come in the order of the trees, and there are too many values exactly if there are too many
trees. The value of the first derivation is the fold of the first tree. -/
theorem folds_of_parse {α : Type u} {g : Grammar} {e : Evaluator α} {ds : List Declaration}
    {start : String} {limits : Limits} {clock : Clock} {tokens : List String} {p : Parse}
    (hg : ofDeclarations ds start = .ok g) (h : g.parse limits clock tokens = .ok p)
    (hcovers : e.Covers g) :
    ((∃ trees values, (p.trees e.maxTrees).result = .ok trees ∧
        (e.evalAll p).result = .ok values ∧ trees.map e.fold? = values.map some) ∨
      ∃ limit, e.maxTrees = some limit ∧
        (p.trees e.maxTrees).result = .error (.treeBudget limit) ∧
        (e.evalAll p).result = .error (.treeBudget limit)) ∧
    ((∃ tree value, ((Tree.evaluator.withMaxTrees e.maxTrees).evalFirst p).result = .ok tree ∧
        (e.evalFirst p).result = .ok value ∧ tree.map e.fold? = value.map some) ∨
      ∃ limit, e.maxTrees = some limit ∧
        ((Tree.evaluator.withMaxTrees e.maxTrees).evalFirst p).result =
          .error (.treeBudget limit) ∧
        (e.evalFirst p).result = .error (.treeBudget limit)) := by
  obtain ⟨rfl, hp, symbol, hroots⟩ := finished_and_roots_of_parse hg h
  have hmatches : ∀ root ∈ p.roots, ∃ symbol i k, p.grammar.Matches p.chart root symbol i k :=
    fun root hroot => ⟨symbol, 0, tokens.length, (hroots root).1 hroot⟩
  exact ⟨Evaluator.folds_of_evalAll hp hcovers hmatches,
    Evaluator.folds_of_evalFirst hp hcovers hmatches⟩

/-- Numbers that are folded from the derivations of two words, where one rule has an action of its
own, in a grammar where both sides of a rule recur and a chain of symbols leads back to its
beginning. -/
theorem folds_of_pairs :
    ∃ g p, ofDeclarations [.nonterminal "S", .nonterminal "T", .lexeme "a" ["x", "y"],
        .addRule "S" ["S", "S"], .addRule "S" ["T"], .addRule "T" ["S"], .addRule "S" ["a"]]
        "S" = .ok g ∧
      g.parse .unbounded (fun _ => { nanoseconds := 0 }) ["x", "y"] = .ok p ∧
      let e : Evaluator Nat :=
        { leaf := fun _ word => if word = "x" then 2 else 3
          actions := [("S -> S S", fun args => args.foldr (fun n m => 10 * m + n) 0)]
          fallback := some fun _ args => args.sum + 1
          maxTrees := none }
      (∃ trees, (p.trees none).result = .ok trees ∧
        (e.evalAll p).result = .ok [43, 45, 63, 65, 45, 47, 65, 67] ∧
        trees.map e.fold? = [43, 45, 63, 65, 45, 47, 65, 67].map some) ∧
      let tree : Tree := .node "S" [.node "S" [.leaf "a" "x"], .node "S" [.leaf "a" "y"]]
      ((Tree.evaluator.withMaxTrees none).evalFirst p).result = .ok (some tree) ∧
        (e.evalFirst p).result = .ok (some 43) ∧ e.fold? tree = some 43 := by
  let e : Evaluator Nat :=
    { leaf := fun _ word => if word = "x" then 2 else 3
      actions := [("S -> S S", fun args => args.foldr (fun n m => 10 * m + n) 0)]
      fallback := some fun _ args => args.sum + 1
      maxTrees := none }
  let tree : Tree := .node "S" [.node "S" [.leaf "a" "x"], .node "S" [.leaf "a" "y"]]
  obtain ⟨g, p, hg, hp, hvalues, htrees⟩ : ∃ g p, ofDeclarations [.nonterminal "S",
        .nonterminal "T", .lexeme "a" ["x", "y"], .addRule "S" ["S", "S"], .addRule "S" ["T"],
        .addRule "T" ["S"], .addRule "S" ["a"]] "S" = .ok g ∧
      g.parse .unbounded (fun _ => { nanoseconds := 0 }) ["x", "y"] = .ok p ∧
      p.roots.flatMap (e.valuesWithin p (p.chart.size + 1) []) =
        [43, 45, 63, 65, 45, 47, 65, 67] ∧
      (p.roots.flatMap ((Tree.evaluator.withMaxTrees none).valuesWithin p
        (p.chart.size + 1) [])).head? = some tree := exists_parse_of_any (by decide +kernel)
  rw [Evaluator.flatMap_valuesWithin] at hvalues htrees
  refine ⟨g, p, hg, hp, ?_⟩
  have hcovers : e.Covers g := e.covers_of_fallback rfl g
  obtain ⟨⟨trees, values, hread, hall, hfolds⟩ | ⟨limit, hlimit, -⟩,
      ⟨first, value, hreadFirst, hfirst, hfold⟩ | ⟨limit', hlimit', -⟩⟩ :=
    folds_of_parse hg hp hcovers
  · obtain ⟨rfl, hfinished, hmatches⟩ := finished_and_matches_of_parse hg hp
    have hvaluesAll := Evaluator.evalAll_eq_ok hfinished rfl hcovers hmatches
    have hvalue := Evaluator.evalFirst_eq_head?_values hfinished hcovers hmatches rfl
    have htree := Evaluator.evalFirst_eq_head?_values (e := Tree.evaluator.withMaxTrees none)
      hfinished (Evaluator.covers_of_fallback _ rfl _) hmatches rfl
    rw [hvalues] at hvaluesAll hvalue
    rw [htrees] at htree
    obtain rfl := Except.ok.inj (hall.symm.trans hvaluesAll)
    obtain rfl := Except.ok.inj (hfirst.symm.trans hvalue)
    obtain rfl := Except.ok.inj (hreadFirst.symm.trans htree)
    exact ⟨⟨trees, hread, hall, hfolds⟩, hreadFirst, hfirst, Option.some.inj hfold⟩
  · cases hlimit'
  · cases hlimit
  · cases hlimit

end Grammar

end Earley
