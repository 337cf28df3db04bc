import Earley.Proofs.Forest.Recursion
import Earley.Proofs.Parse.FirstSource
/-!
# The first derivation of a state

The first derivation of a state takes the first back-pointer list of the state, and for each child
in it the first derivation of the child (`Evaluator.First`). The children in first lists are older
than their states, so this comes to an end even where the derivations of the chart go in circles:
with an action for every rule, each complete match has a first derivation
(`Evaluator.exists_first`). Its leaves are the words that were matched (`Evaluator.First.spells`),
and on a path of newer states its value is the first one of all (`Evaluator.First.head?_values`).
-/

universe u

namespace Earley

/-- Leaves that stand for some words: one for each word in order, with the name of a terminal that
accepts the word. -/
def Grammar.Spells (g : Grammar) (leaves : List (String × String)) (words : List String) : Prop :=
  List.Forall₂ (fun leaf word => g.accepts leaf.1 word = true ∧ leaf.2 = word) leaves words

/-- Some states are older than all states of a path. -/
def OlderThan (path ids : List Nat) : Prop :=
  ∀ id ∈ ids, ∀ x ∈ path, id < x

namespace OlderThan

variable {path ids : List Nat} {id : Nat}

/-- All states are older than those of the empty path. -/
theorem nil (ids : List Nat) : OlderThan [] ids :=
  fun _ _ _ hx => absurd hx List.not_mem_nil

/-- A state that is older than those of a path is not on the path. -/
theorem not_mem (h : OlderThan path (id :: ids)) : id ∉ path :=
  fun hmem => Nat.lt_irrefl id (h id List.mem_cons_self id hmem)

theorem head (h : OlderThan path (id :: ids)) : OlderThan path [id] := by
  intro other hother
  rw [List.mem_singleton.1 hother]
  exact h id List.mem_cons_self

theorem tail (h : OlderThan path (id :: ids)) : OlderThan path ids :=
  fun other hother => h other (List.mem_cons_of_mem _ hother)

/-- States that are older than a state are so when it joins the path. -/
theorem join (h : OlderThan path (id :: ids)) {children : List Nat}
    (holder : ∀ child ∈ children, child < id) : OlderThan (id :: path) children := by
  intro child hchild x hx
  rcases List.mem_cons.1 hx with rfl | hx
  · exact holder child hchild
  · exact Nat.lt_trans (holder child hchild) (h id List.mem_cons_self x hx)

end OlderThan

/-- Choices from some lists begin with the choice of their first elements. -/
theorem head?_choices {α : Type u} {lists : List (List α)} {list : List α}
    (h : List.Forall₂ (fun values value => values.head? = some value) lists list) :
    (choices lists).head? = some list := by
  induction h with
  | nil => rfl
  | @cons values value rest others hvalue _ ih =>
    obtain ⟨later, rfl⟩ := List.head?_eq_some_iff.1 hvalue
    simp [choices, List.head?_append, ih]

namespace Evaluator

variable {α : Type u}

/-- The values of the first derivations of some states, one for each of them, and the leaves of
these derivations, each with the name of its terminal and the word. -/
inductive First (e : Evaluator α) (p : Parse) :
    List Nat → List α → List (String × String) → Prop
  /-- There is nothing to derive. -/
  | nil : First e p [] [] []
  /-- The match of a word is a leaf. -/
  | lexeme {id : Nat} {ids : List Nat} {s : State} {symbol : Symbol} {word : String}
    {values : List α} {leaves : List (String × String)} (hs : p.chart.states[id]? = some s)
    (hproduction : s.production = .lexeme symbol) (hword : p.chart.tokens[s.origin]? = some word)
    (hrest : First e p ids values leaves) :
    First e p (id :: ids) (e.leaf symbol.name word :: values) ((symbol.name, word) :: leaves)
  /-- The state of a rule is derived by the first list of its children. -/
  | rule {id position : Nat} {ids children : List Nat} {others : List (List Nat)} {s : State}
    {rule : Rule} {value : α} {args values : List α} {front back : List (String × String)}
    (hs : p.chart.states[id]? = some s) (hproduction : s.production = .rule position)
    (hrule : p.grammar.rules[position]? = some rule)
    (hlists : p.chart.lists id = children :: others) (hchildren : First e p children args front)
    (hvalue : e.value? rule args = some value) (hrest : First e p ids values back) :
    First e p (id :: ids) (value :: values) (front ++ back)

variable {e : Evaluator α} {p : Parse} {tokens : List String}

namespace First

variable {id position i k : Nat} {ids children : List Nat} {others : List (List Nat)} {s : State}
  {rule : Rule} {value : α} {args values values' : List α}
  {front back leaves leaves' : List (String × String)}

/-- A state has at most one first derivation. -/
theorem unique (h : e.First p ids values leaves) (h' : e.First p ids values' leaves') :
    values = values' ∧ leaves = leaves' := by
  induction h generalizing values' leaves' with
  | nil =>
    cases h'
    exact ⟨rfl, rfl⟩
  | lexeme hs hproduction hword _ ih =>
    cases h' with
    | lexeme hs' hproduction' hword' hrest' =>
      obtain rfl := Option.some.inj (hs.symm.trans hs')
      obtain rfl := Production.lexeme.inj (hproduction.symm.trans hproduction')
      obtain rfl := Option.some.inj (hword.symm.trans hword')
      obtain ⟨rfl, rfl⟩ := ih hrest'
      exact ⟨rfl, rfl⟩
    | rule hs' hproduction' =>
      obtain rfl := Option.some.inj (hs.symm.trans hs')
      rw [hproduction] at hproduction'
      cases hproduction'
  | rule hs hproduction hrule hlists _ hvalue _ ihchildren ihrest =>
    cases h' with
    | lexeme hs' hproduction' =>
      obtain rfl := Option.some.inj (hs.symm.trans hs')
      rw [hproduction] at hproduction'
      cases hproduction'
    | rule hs' hproduction' hrule' hlists' hchildren' hvalue' hrest' =>
      obtain rfl := Option.some.inj (hs.symm.trans hs')
      obtain rfl := Production.rule.inj (hproduction.symm.trans hproduction')
      obtain rfl := Option.some.inj (hrule.symm.trans hrule')
      obtain ⟨rfl, -⟩ := List.cons.inj (hlists.symm.trans hlists')
      obtain ⟨rfl, rfl⟩ := ihchildren hchildren'
      obtain rfl := Option.some.inj (hvalue.symm.trans hvalue')
      obtain ⟨rfl, rfl⟩ := ihrest hrest'
      exact ⟨rfl, rfl⟩

/-- The first derivation of a state by those of the children in its first list. -/
theorem of_children (hs : p.chart.states[id]? = some s)
    (hproduction : s.production = .rule position) (hrule : p.grammar.rules[position]? = some rule)
    (hlists : p.chart.lists id = children :: others) (hchildren : e.First p children args leaves)
    (hvalue : e.value? rule args = some value) : e.First p [id] [value] leaves := by
  have hfirst := First.rule hs hproduction hrule hlists hchildren hvalue .nil
  rwa [List.append_nil] at hfirst

/-- The first derivation of the state of a rule begins with those of the children in the first
list. -/
theorem exists_of_rule (h : e.First p [id] [value] leaves) (hs : p.chart.states[id]? = some s)
    (hproduction : s.production = .rule position)
    (hrule : p.grammar.rules[position]? = some rule)
    (hlists : p.chart.lists id = children :: others) :
    ∃ args, e.First p children args leaves ∧ e.value? rule args = some value := by
  cases h with
  | lexeme hs' hproduction' =>
    obtain rfl := Option.some.inj (hs.symm.trans hs')
    rw [hproduction] at hproduction'
    cases hproduction'
  | rule hs' hproduction' hrule' hlists' hchildren hvalue hnone =>
    obtain rfl := Option.some.inj (hs.symm.trans hs')
    obtain rfl := Production.rule.inj (hproduction.symm.trans hproduction')
    obtain rfl := Option.some.inj (hrule.symm.trans hrule')
    obtain ⟨rfl, -⟩ := List.cons.inj (hlists.symm.trans hlists')
    cases hnone
    rw [List.append_nil]
    exact ⟨_, hchildren, hvalue⟩

/-- First derivations of states one after the other. -/
theorem cons (h : e.First p [id] [value] front) (hrest : e.First p ids values back) :
    e.First p (id :: ids) (value :: values) (front ++ back) := by
  cases h with
  | lexeme hs hproduction hword hnone =>
    cases hnone
    exact .lexeme hs hproduction hword hrest
  | rule hs hproduction hrule hlists hchildren hvalue hnone =>
    cases hnone
    rw [List.append_nil]
    exact .rule hs hproduction hrule hlists hchildren hvalue hrest

/-- The first state has a first derivation of its own, and so have the others. -/
theorem exists_of_cons (h : e.First p (id :: ids) values leaves) :
    ∃ value rest front back, values = value :: rest ∧ leaves = front ++ back ∧
      e.First p [id] [value] front ∧ e.First p ids rest back := by
  cases h with
  | lexeme hs hproduction hword hrest =>
    exact ⟨_, _, [_], _, rfl, rfl, .lexeme hs hproduction hword .nil, hrest⟩
  | rule hs hproduction hrule hlists hchildren hvalue hrest =>
    exact ⟨_, _, _, _, rfl, rfl, of_children hs hproduction hrule hlists hchildren hvalue, hrest⟩

/-- The leaves of states that match some symbols one after the other stand for the words that are
matched. -/
theorem spells (hp : p.grammar.Finished tokens p.chart) (h : e.First p ids values leaves)
    {symbols : List Symbol} (hchain : p.grammar.Chain p.chart symbols i k ids) :
    p.grammar.Spells leaves (between tokens i k) := by
  induction h generalizing symbols i k with
  | nil =>
    cases hchain
    rw [between_self]
    exact .nil
  | lexeme hs hproduction hword _ ih =>
    cases hchain with
    | cons hfirst hrest =>
      obtain ⟨hderives, him, -⟩ := hp.derives_of_matches hfirst
      have hmk := (hrest.derives hp).2
      obtain ⟨s', hs', -, hcases⟩ := hp.production_of_matches hfirst
      rcases hcases with ⟨_, _, -, -, hitem, -⟩ | ⟨name, word', -, hitem, rfl, hword', haccepts⟩
      · obtain rfl := Option.some.inj (hs.symm.trans hs')
        rw [hitem] at hproduction
        cases hproduction
      · obtain rfl := Option.some.inj (hs.symm.trans hs')
        rw [hitem] at hproduction hword
        cases hproduction
        rw [hp.reachable.tokens_eq, List.getElem?_toArray, hword'] at hword
        cases hword
        rw [← between_append him hmk, between_succ hword']
        exact .cons ⟨haccepts, rfl⟩ (ih hrest)
  | @rule id position ids children others s rule value args values front back hs hproduction hrule
      hlists _ _ _ ihchildren ihrest =>
    cases hchain with
    | @cons _ _ m _ _ symbol symbols hfirst hrest =>
      obtain ⟨-, him, -⟩ := hp.derives_of_matches hfirst
      have hmk := (hrest.derives hp).2
      obtain ⟨s', hs', -, -, horigin, hstop⟩ := hfirst
      obtain rfl := Option.some.inj (hs.symm.trans hs')
      have hlist : children ∈ p.chart.lists id := by
        rw [hlists]
        exact List.mem_cons_self
      have hfront := ihchildren ((hp.mem_lists_iff hs hproduction hrule).1 hlist)
      rw [horigin, hstop] at hfront
      rw [← between_append him hmk]
      exact List.rel_append hfront (ihrest hrest)

/-- On a path of newer states, the values of the first derivations are the first of all. -/
theorem head?_values (hp : p.grammar.Finished tokens p.chart) (h : e.First p ids values leaves)
    {path : List Nat} (hpath : OlderThan path ids) :
    List.Forall₂ (fun id value => (e.values p path id).head? = some value) ids values := by
  -- A state joins the path before its children are derived, and they are older than it.
  induction h generalizing path with
  | nil => exact .nil
  | @lexeme id ids s symbol word values leaves hs hproduction hword _ ih =>
    refine .cons ?_ (ih hpath.tail)
    rw [values_of_lexeme hpath.not_mem hs hproduction hword, List.head?_cons]
  | @rule id position ids children others s rule value args values front back hs hproduction hrule
      hlists _ hvalue _ ihchildren ihrest =>
    refine .cons ?_ (ihrest hpath.tail)
    obtain ⟨children', others', hlists', holder⟩ := hp.reachable.exists_first_list hs
    obtain ⟨rfl, -⟩ := List.cons.inj (hlists.symm.trans hlists')
    have hchildren := ihchildren (hpath.join holder)
    have hchoices : (choices (children.map (e.values p (id :: path)))).head? = some args :=
      head?_choices (List.forall₂_map_left_iff.2 hchildren)
    obtain ⟨later, hlater⟩ := List.head?_eq_some_iff.1 hchoices
    rw [values_of_rule hpath.not_mem hs hproduction hrule, hlists, List.flatMap_cons]
    unfold listValues
    rw [hlater, List.filterMap_cons_some hvalue, List.cons_append, List.head?_cons]

/-- So it is for a single state. -/
theorem head?_values_singleton (hp : p.grammar.Finished tokens p.chart)
    (h : e.First p [id] [value] leaves) {path : List Nat} (hpath : OlderThan path [id]) :
    (e.values p path id).head? = some value := by
  cases h.head?_values hp hpath with
  | cons hvalue _ => exact hvalue

end First

/-- States that have first derivations each have them one after the other. -/
theorem exists_first_of_forall {ids : List Nat}
    (h : ∀ id ∈ ids, ∃ value leaves, e.First p [id] [value] leaves) :
    ∃ values leaves, e.First p ids values leaves := by
  induction ids with
  | nil => exact ⟨[], [], .nil⟩
  | cons id rest ih =>
    obtain ⟨value, front, hfirst⟩ := h id List.mem_cons_self
    obtain ⟨values, back, hrest⟩ := ih fun other hother => h other (List.mem_cons_of_mem _ hother)
    exact ⟨_, _, hfirst.cons hrest⟩

/-- With an action for every rule, each complete match has a first derivation. -/
theorem exists_first (hp : p.grammar.Finished tokens p.chart) (hcovers : e.Covers p.grammar)
    {id i k : Nat} {symbol : Symbol} (hmatches : p.grammar.Matches p.chart id symbol i k) :
    ∃ value leaves, e.First p [id] [value] leaves := by
  induction id using Nat.strong_induction_on generalizing symbol i k with
  | _ id ih =>
    obtain ⟨s, hs, -, ⟨position, rule, hrule, -, hitem, -⟩ | ⟨name, word, -, hitem, -, hword, -⟩⟩ :=
      hp.production_of_matches hmatches
    · have hproduction : s.production = .rule position := congrArg Item.production hitem
      obtain ⟨children, others, hlists, holder⟩ := hp.reachable.exists_first_list hs
      have hchildren : ∀ child ∈ children, ∃ value leaves, e.First p [child] [value] leaves := by
        intro child hchild
        have hmem : p.chart.Child child id :=
          ⟨children, by rw [hlists]; exact List.mem_cons_self, hchild⟩
        obtain ⟨symbol', j, m, hmatches'⟩ := hp.matches_of_child hs hproduction hmem
        exact ih child (holder child hchild) hmatches'
      obtain ⟨args, leaves, hfirst⟩ := exists_first_of_forall hchildren
      obtain ⟨action, haction⟩ := hcovers.exists_action (Array.mem_of_getElem? hrule)
      exact ⟨_, _, .of_children hs hproduction hrule hlists hfirst (value?_of_action haction args)⟩
    · have hproduction : s.production = .lexeme (.terminal name) := congrArg Item.production hitem
      have hword' : p.chart.tokens[s.origin]? = some word := by
        rw [hp.reachable.tokens_eq, List.getElem?_toArray, hitem]
        exact hword
      exact ⟨_, _, .lexeme hs hproduction hword' .nil⟩

end Evaluator

end Earley
