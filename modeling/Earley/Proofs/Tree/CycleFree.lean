import Mathlib.Logic.Relation
import Earley.Proofs.Tree.Derivation
/-!
# Cycle-free trees

Each node of a tree stands at a place: it shows a rule, and the words under it stand between two
positions of the input (`Tree.Place`). A tree is cycle-free if no node has a node below it at the
same place (`Tree.CycleFree`). If it is not, then the head of the rule derives itself in a number
of steps (`Grammar.Step`), so that all derivation trees are cycle-free if no nonterminal does that
(`Grammar.Builds.cycleFree`).
-/

namespace Earley

namespace Tree

/-- Where a node stands in a derivation. -/
structure Place where
  /-- The rule that the node shows. -/
  rule : Rule
  /-- The position of the first word under the node. -/
  start : Nat
  /-- The position after the last word under the node. -/
  stop : Nat
deriving DecidableEq, Repr

/-- The place of a node whose words begin at a position. -/
def placeOf (i : Nat) (label : String) (children : List Tree) : Place where
  rule := { head := label, rhs := children.map symbol }
  start := i
  stop := i + (words children).length

/-- The places of all nodes in some trees whose words begin at a position. -/
def places : Nat → List Tree → List Place
  | _, [] => []
  | i, leaf _ _ :: rest => places (i + 1) rest
  | i, node label children :: rest =>
    placeOf i label children :: (places i children ++ places (i + (words children).length) rest)

/-- No node in some trees, whose words begin at a position, has a node below it at the same
place. -/
def CycleFree : Nat → List Tree → Prop
  | _, [] => True
  | i, leaf _ _ :: rest => CycleFree (i + 1) rest
  | i, node label children :: rest =>
    placeOf i label children ∉ places i children ∧ CycleFree i children ∧
      CycleFree (i + (words children).length) rest

/-- Places do not reach beyond the words of the trees. -/
theorem bounds_of_mem_places {i : Nat} {ts : List Tree} {place : Place} (h : place ∈ places i ts) :
    i ≤ place.start ∧ place.start ≤ place.stop ∧ place.stop ≤ i + (words ts).length := by
  fun_induction places i ts with
  | case1 => cases h
  | case2 i name word rest ih =>
    have := ih h
    rw [words, List.length_cons]
    omega
  | case3 i label children rest ihchildren ihrest =>
    rw [words, List.length_append]
    rcases List.mem_cons.1 h with rfl | h
    · simp only [placeOf]
      omega
    · rcases List.mem_append.1 h with h | h
      · have := ihchildren h
        omega
      · have := ihrest h
        omega

end Tree

namespace Grammar

variable {g : Grammar} {symbols symbols' : List Symbol} {words : List String} {trees : List Tree}

/-- One step of a derivation replaces a nonterminal by the right-hand side of one of its rules. -/
inductive Step (g : Grammar) : List Symbol → List Symbol → Prop
  /-- The nonterminal may stand among other symbols. -/
  | replace {rule : Rule} (before after : List Symbol) (hrule : rule ∈ g.rules) :
    Step g (before ++ .nonterminal rule.head :: after) (before ++ rule.rhs ++ after)

/-- If all rules have a terminal on their right-hand side, then each step adds terminals. -/
theorem Step.countP_lt (hrules : ∀ rule ∈ g.rules, ∃ symbol ∈ rule.rhs, symbol.isTerminal = true)
    (h : g.Step symbols symbols') :
    symbols.countP Symbol.isTerminal < symbols'.countP Symbol.isTerminal := by
  cases h with
  | @replace rule before after hrule =>
    have hpos : 0 < rule.rhs.countP Symbol.isTerminal := List.countP_pos_iff.2 (hrules rule hrule)
    simp only [List.countP_append, List.countP_cons, Symbol.isTerminal_nonterminal]
    simp only [Bool.false_eq_true, ↓reduceIte]
    omega

/-- So no nonterminal derives itself. -/
theorem not_transGen_step (hrules : ∀ rule ∈ g.rules, ∃ symbol ∈ rule.rhs, symbol.isTerminal = true)
    (name : String) : ¬ Relation.TransGen g.Step [.nonterminal name] [.nonterminal name] := by
  intro h
  have hlt : Relation.TransGen (· < ·) _ _ :=
    h.lift (List.countP Symbol.isTerminal) fun _ _ hstep => hstep.countP_lt hrules
  rw [Relation.transGen_eq_self] at hlt
  exact Nat.lt_irrefl _ hlt

/-- The steps on some symbols may be done when other symbols stand around them. -/
theorem steps_append (h : Relation.ReflTransGen g.Step symbols symbols')
    (before after : List Symbol) :
    Relation.ReflTransGen g.Step (before ++ symbols ++ after) (before ++ symbols' ++ after) := by
  refine h.lift (fun symbols => before ++ symbols ++ after) fun a b hstep => ?_
  cases hstep with
  | @replace rule front back hrule =>
    simpa [Function.onFun] using Step.replace (before ++ front) (back ++ after) hrule

/-- A nonterminal is replaced by the right-hand side of its rule, and so on. -/
theorem steps_of_rule {rule : Rule} (hrule : rule ∈ g.rules) (after : List Symbol)
    (h : Relation.ReflTransGen g.Step (rule.rhs ++ after) symbols) :
    Relation.ReflTransGen g.Step (.nonterminal rule.head :: after) symbols :=
  .head (Step.replace [] after hrule) h

/-- Symbols that derive no words disappear in a number of steps. -/
theorem steps_nil_of_derives (h : g.Derives symbols words) (hnil : words = []) :
    Relation.ReflTransGen g.Step symbols [] := by
  induction h with
  | nil => exact .refl
  | word => cases hnil
  | @expand rule symbols front back hrule _ _ ihfront ihback =>
    obtain ⟨hfront, hback⟩ := List.append_eq_nil_iff.1 hnil
    refine steps_of_rule hrule symbols (.trans ?_ (ihback hback))
    simpa using steps_append (ihfront hfront) [] symbols

namespace Builds

/-- The place of a node that shows a rule. -/
theorem placeOf_eq {rule : Rule} (h : g.Builds rule.rhs trees words) (i : Nat) :
    Tree.placeOf i rule.head trees = { rule := rule, start := i, stop := i + words.length } := by
  rw [Tree.placeOf, h.symbols_eq, h.words_eq]

/-- If a node in some trees has all words of the trees under it, then the symbols become the head of
its rule in a number of steps, since what stands around it derives no words. -/
theorem steps_of_mem_places (h : g.Builds symbols trees words) {i : Nat} {place : Tree.Place}
    (hmem : place ∈ Tree.places i trees) (hstart : place.start = i)
    (hstop : place.stop = i + words.length) :
    Relation.ReflTransGen g.Step symbols [.nonterminal place.rule.head] := by
  induction h generalizing i with
  | nil =>
    rw [Tree.places] at hmem
    cases hmem
  | leaf =>
    rw [Tree.places] at hmem
    have := Tree.bounds_of_mem_places hmem
    omega
  | @node rule symbols children trees front back hrule hfront hback ihfront ihback =>
    rw [Tree.places, hfront.words_eq] at hmem
    rw [List.length_append] at hstop
    have hrest : back.length = 0 → Relation.ReflTransGen g.Step symbols [] := fun hzero =>
      steps_nil_of_derives hback.derives (List.eq_nil_of_length_eq_zero hzero)
    rcases List.mem_cons.1 hmem with rfl | hmem
    · rw [hfront.placeOf_eq] at hstop ⊢
      dsimp only at hstop
      simpa using steps_append (hrest (by omega)) [.nonterminal rule.head] []
    · rcases List.mem_append.1 hmem with hmem | hmem
      · have hbounds := Tree.bounds_of_mem_places hmem
        rw [hfront.words_eq] at hbounds
        refine steps_of_rule hrule symbols (.trans ?_ (ihfront hmem hstart (by omega)))
        simpa using steps_append (hrest (by omega)) rule.rhs []
      · have hbounds := Tree.bounds_of_mem_places hmem
        have hzero : front.length = 0 := by omega
        have hnil := steps_nil_of_derives hfront.derives (List.eq_nil_of_length_eq_zero hzero)
        rw [hzero, Nat.add_zero] at hmem
        refine steps_of_rule hrule symbols (.trans ?_ (ihback hmem hstart (by omega)))
        simpa using steps_append hnil [] symbols

/-- If no nonterminal derives itself in one step or more, then all trees are cycle-free. -/
theorem cycleFree (h : g.Builds symbols trees words)
    (hacyclic : ∀ name,
      ¬ Relation.TransGen g.Step [.nonterminal name] [.nonterminal name]) (i : Nat) :
    Tree.CycleFree i trees := by
  induction h generalizing i with
  | nil => rw [Tree.CycleFree]; trivial
  | leaf _ _ ih => rw [Tree.CycleFree]; exact ih (i + 1)
  | @node rule symbols children trees front back hrule hfront _ ihfront ihback =>
    rw [Tree.CycleFree, hfront.words_eq]
    refine ⟨fun hmem => hacyclic rule.head ?_, ihfront i, ihback _⟩
    rw [hfront.placeOf_eq] at hmem
    refine .head' (Step.replace [] [] hrule) ?_
    simpa using hfront.steps_of_mem_places hmem rfl rfl

end Builds

end Grammar

end Earley
