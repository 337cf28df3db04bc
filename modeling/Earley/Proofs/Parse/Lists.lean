import Mathlib.Data.List.Nodup
import Earley.Proofs.Chart.Enumeration
import Earley.Proofs.Parse.Recognition
/-!
# The back-pointer lists of a finished chart

In a finished chart, the back-pointer lists of the state of a rule are exactly the sequences of
complete states that match the symbols before its dot one after the other
(`Grammar.Finished.mem_lists_iff`), and none of them comes twice.
-/

namespace Earley

namespace Chart

/-- A state is in one of the lists of another one. -/
def Child (c : Chart) (child id : Nat) : Prop :=
  ∃ list ∈ c.lists id, child ∈ list

/-- A state that does not exist has no children. -/
theorem not_child_of_size_le {c : Chart} {child id : Nat} (h : c.size ≤ id) :
    ¬ c.Child child id := by
  have hnone : c.states[id]? = none := Array.getElem?_eq_none h
  rintro ⟨list, hlist, hmem⟩
  obtain rfl : list = [] := by simpa [lists, dot, listsWithin, hnone] using hlist
  cases hmem

/-- If the children of the states up to a number are older than the states, no state below it comes
below itself. -/
theorem not_transGen_of_older {c : Chart} {id : Nat}
    (h : ∀ j ≤ id, j < c.size → ∀ list ∈ c.lists j, ∀ child ∈ list, child < j) {x : Nat}
    (hx : Relation.ReflTransGen c.Child x id) : ¬ Relation.TransGen c.Child x x := by
  have hchild {child j : Nat} (hj : j ≤ id) (hc : c.Child child j) : child < j := by
    by_cases hsize : j < c.size
    · obtain ⟨list, hlist, hmem⟩ := hc
      exact h j hj hsize list hlist child hmem
    · exact absurd hc (not_child_of_size_le (Nat.le_of_not_lt hsize))
  have hle : x ≤ id := by
    induction hx using Relation.ReflTransGen.head_induction_on with
    | refl => exact Nat.le_refl id
    | head hc _ ih => exact Nat.le_trans (Nat.le_of_lt (hchild ih hc)) ih
  have hlt : ∀ y, Relation.TransGen c.Child y x → y < x := by
    intro y hy
    induction hy using Relation.TransGen.head_induction_on with
    | single hc => exact hchild hle hc
    | head hc _ ih =>
      exact Nat.lt_trans (hchild (Nat.le_trans (Nat.le_of_lt ih) hle) hc) ih
  exact fun hcircle => Nat.lt_irrefl x (hlt x hcircle)

end Chart

namespace Grammar

variable {g : Grammar} {tokens : List String} {c : Chart}

/-- Complete states that match some symbols one after the other, from one position to another. -/
inductive Chain (g : Grammar) (c : Chart) : List Symbol → Nat → Nat → List Nat → Prop
  /-- No symbols are matched by no states. -/
  | nil (i : Nat) : Chain g c [] i i []
  /-- The first symbol is matched by the first state, and the others from there on. -/
  | cons {id i m k : Nat} {ids : List Nat} {symbol : Symbol} {symbols : List Symbol}
    (hfirst : g.Matches c id symbol i m) (hrest : Chain g c symbols m k ids) :
    Chain g c (symbol :: symbols) i k (id :: ids)

namespace Chain

variable {symbols : List Symbol} {symbol : Symbol} {i m k id : Nat} {ids : List Nat}

/-- One more symbol is matched by one more state. -/
theorem snoc (h : g.Chain c symbols i m ids) (hlast : g.Matches c id symbol m k) :
    g.Chain c (symbols ++ [symbol]) i k (ids ++ [id]) := by
  induction h with
  | nil => exact .cons hlast (.nil k)
  | cons hfirst _ ih => exact .cons hfirst (ih hlast)

/-- The last symbol is matched by the last state. -/
theorem exists_of_snoc (h : g.Chain c (symbols ++ [symbol]) i k ids) :
    ∃ front id m, ids = front ++ [id] ∧ g.Chain c symbols i m front ∧
      g.Matches c id symbol m k := by
  induction symbols generalizing i ids with
  | nil =>
    cases h with
    | cons hfirst hrest =>
      cases hrest
      exact ⟨[], _, _, rfl, .nil _, hfirst⟩
  | cons first rest ih =>
    cases h with
    | cons hfirst hrest =>
      obtain ⟨front, last, m, rfl, hfront, hlast⟩ := ih hrest
      exact ⟨_, last, m, rfl, .cons hfirst hfront, hlast⟩

/-- Each of the states is a complete match. -/
theorem matches_of_mem (h : g.Chain c symbols i k ids) (hmem : id ∈ ids) :
    ∃ symbol j m, g.Matches c id symbol j m := by
  induction h with
  | nil => cases hmem
  | cons hfirst _ ih =>
    rcases List.mem_cons.1 hmem with rfl | hmem
    · exact ⟨_, _, _, hfirst⟩
    · exact ih hmem

/-- The states derive the words between the positions. -/
theorem derives (hc : g.Finished tokens c) (h : g.Chain c symbols i k ids) :
    g.Derives symbols (between tokens i k) ∧ i ≤ k := by
  induction h with
  | nil i => exact ⟨by rw [between_self]; exact .nil, Nat.le_refl i⟩
  | cons hfirst _ ih =>
    obtain ⟨hderives, him, -⟩ := hc.derives_of_matches hfirst
    obtain ⟨hrest, hmk⟩ := ih
    refine ⟨?_, Nat.le_trans him hmk⟩
    rw [← between_append him hmk]
    exact hderives.append hrest

end Chain

/-- The state of a rule is not the match of a word. -/
theorem ne_lexeme_of_rule {s : State} {position : Nat} (h : s.production = .rule position)
    (symbol : Symbol) : s.production ≠ .lexeme symbol := by
  rw [h]
  exact Production.noConfusion

namespace Finished

variable (hc : g.Finished tokens c)

include hc

/-! ### The links of a state -/

/-- A state whose dot has not moved has no sources. -/
theorem sources_eq_nil {id : Nat} {s : State} (hs : c.states[id]? = some s) (hdot : s.dot = 0) :
    s.sources = [] := by
  refine List.eq_nil_iff_forall_not_mem.2 fun source hmem => ?_
  cases (hc.reachable.sourced hs).supports source hmem with
  | scan _ hone => omega
  | complete _ _ hitem =>
    have hmoved := congrArg Item.dot hitem
    rw [Item.dot_moved] at hmoved
    omega

/-- All sources of a state that is not the match of a word are completions. -/
theorem source_eq_complete {id : Nat} {s : State} {source : Source}
    (hs : c.states[id]? = some s) (hword : ∀ symbol, s.production ≠ .lexeme symbol)
    (hmem : source ∈ s.sources) : ∃ prev child, source = .complete prev child := by
  cases (hc.reachable.sourced hs).supports source hmem with
  | scan hlexeme => exact absurd hlexeme (hword _)
  | complete => exact ⟨_, _, rfl⟩

/-- The links of a state that is not the match of a word lead, for each complete match of the symbol
before the dot, to the state that waits for this symbol where the match begins. -/
theorem mem_links_iff {id : Nat} {s : State} (hs : c.states[id]? = some s)
    (hword : ∀ symbol, s.production ≠ .lexeme symbol) {prev child : Nat} :
    (prev, child) ∈ leadingLinks s.sources ↔ ∃ p symbol, c.states[prev]? = some p ∧
      s.toItem = p.toItem.moved 1 ∧ g.awaited p = .ok (some symbol) ∧
      g.Matches c child symbol p.stop s.stop := by
  rw [mem_leadingLinks_iff fun source hmem => hc.source_eq_complete hs hword hmem]
  constructor
  · intro hmem
    cases (hc.reachable.sourced hs).supports _ hmem with
    | complete hp ht hitem hstop hmeet hawaited hcomplete hmatched =>
      exact ⟨_, _, hp, hitem, hawaited, _, ht, hcomplete, hmatched, hmeet.symm, hstop.symm⟩
  · rintro ⟨p, symbol, hp, hitem, hawaited, t, ht, hcomplete, hmatched, hmeet, hstop⟩
    obtain ⟨id', s', hs', hstop', hitem', hsource⟩ :=
      hc.exists_advance hp hawaited ht hcomplete hmatched hmeet.symm
    have hsame : id' = id :=
      hc.indexed.id_unique hs' hs (hstop'.trans hstop) (hitem'.trans hitem.symm)
    subst hsame
    obtain rfl : s' = s := Option.some.inj (hs'.symm.trans hs)
    exact hsource

/-- Each link of the state of a rule leads to a state of the same rule that waits for one of its
symbols. -/
theorem prev_of_mem_links {id position : Nat} {s : State} {rule : Rule}
    (hs : c.states[id]? = some s) (hproduction : s.production = .rule position)
    (hrule : g.rules[position]? = some rule) {prev child : Nat}
    (hmem : (prev, child) ∈ leadingLinks s.sources) :
    ∃ p symbol, c.states[prev]? = some p ∧ p.production = .rule position ∧
      p.origin = s.origin ∧ s.dot = p.dot + 1 ∧ rule.rhs[p.dot]? = some symbol ∧
      g.Matches c child symbol p.stop s.stop := by
  obtain ⟨p, symbol, hp, hitem, hawaited, hchild⟩ :=
    (hc.mem_links_iff hs (ne_lexeme_of_rule hproduction)).1 hmem
  have hsame : p.production = .rule position :=
    (congrArg Item.production hitem).symm.trans hproduction
  obtain ⟨phrase, hsound⟩ := hc.sound hp
  have hphrase := hsound.phrase_eq
  rw [hsame, phrase?, hrule, Option.map_some, Option.some.injEq] at hphrase
  refine ⟨p, symbol, hp, hsame, (congrArg Item.origin hitem).symm, congrArg Item.dot hitem, ?_,
    hchild⟩
  rw [hphrase]
  exact hsound.getElem?_of_awaited hawaited

/-- A match of nothing ends where it began. -/
theorem stop_eq_origin {id : Nat} {s : State} (hs : c.states[id]? = some s) (hdot : s.dot = 0) :
    s.stop = s.origin := by
  obtain ⟨phrase, hsound⟩ := hc.sound hs
  have hderives := hsound.derives
  have hlength := length_between hsound.origin_le hsound.stop_le
  rw [hdot, List.take_zero] at hderives
  rw [hderives.eq_nil, List.length_nil] at hlength
  have hle := hsound.origin_le
  omega

/-! ### Lists -/

/-- The lists of a state whose dot has not moved. -/
theorem lists_of_dot_eq_zero {id : Nat} {s : State} (hs : c.states[id]? = some s)
    (hdot : s.dot = 0) : c.lists id = [[]] := by
  refine Chart.lists_of_links?_eq_nil ?_
  rw [Chart.links?, hs, Option.map_some, hc.sources_eq_nil hs hdot]
  rfl

/-- The lists of a state that is not the match of a word and whose dot has moved are found by its
links. -/
theorem lists_of_dot_pos {id : Nat} {s : State} (hs : c.states[id]? = some s)
    (hword : ∀ symbol, s.production ≠ .lexeme symbol) (hdot : 0 < s.dot) :
    c.lists id =
      (leadingLinks s.sources).flatMap fun link => (c.lists link.1).map (· ++ [link.2]) := by
  have hlinks : c.links? id = some (leadingLinks s.sources) := by
    rw [Chart.links?, hs, Option.map_some]
  cases hleading : leadingLinks s.sources with
  | nil =>
    obtain ⟨source, hsource⟩ :=
      List.exists_mem_of_ne_nil _ ((hc.reachable.sourced hs).exists_source hdot)
    obtain ⟨prev, child, rfl⟩ := hc.source_eq_complete hs hword hsource
    have hmem : (prev, child) ∈ leadingLinks s.sources :=
      (mem_leadingLinks_iff fun source hmem => hc.source_eq_complete hs hword hmem).2 hsource
    rw [hleading] at hmem
    cases hmem
  | cons first others =>
    rw [hleading] at hlinks
    exact Chart.lists_of_links?_eq_cons hc.reachable.layered hlinks

/-- A complete match of the last symbol before the dot is a link of the state, from the state that
has come to the beginning of the match. -/
theorem exists_link {id child position d m : Nat} {s : State} {rule : Rule} {symbol : Symbol}
    (hs : c.states[id]? = some s) (hproduction : s.production = .rule position)
    (hrule : g.rules[position]? = some rule) (hdot : s.dot = d + 1)
    (hsymbol : rule.rhs[d]? = some symbol) (hle : s.origin ≤ m)
    (hderives : g.Derives (rule.rhs.take d) (between tokens s.origin m))
    (hchild : g.Matches c child symbol m s.stop) :
    ∃ prev p, (prev, child) ∈ leadingLinks s.sources ∧ c.states[prev]? = some p ∧
      p.production = .rule position ∧ p.origin = s.origin ∧ p.dot = d ∧ p.stop = m := by
  obtain ⟨phrase, hsound⟩ := hc.sound hs
  have hphrase := hsound.phrase_eq
  rw [hproduction, phrase?, hrule, Option.map_some, Option.some.injEq] at hphrase
  obtain ⟨hlt, -⟩ := List.getElem?_eq_some_iff.1 hsymbol
  have hm : m ≤ tokens.length := by
    obtain ⟨-, hmk, hk⟩ := hc.derives_of_matches hchild
    exact Nat.le_trans hmk hk
  have hbegin := hsound.mayBegin
  rw [hproduction] at hbegin
  obtain ⟨rule', hrule', hhead⟩ := hbegin
  obtain rfl : rule = rule' := Option.some.inj (hrule.symm.trans hrule')
  obtain ⟨prev, p, hp, hpstop, hpitem⟩ := (Chart.contains_iff hc.indexed).1
    ((hc.contains_rule_iff hm).2 ⟨rule, hrule, Nat.le_of_lt hlt, hle, hhead, hderives⟩)
  have hpproduction : p.production = .rule position := by rw [hpitem]
  have hpdot : p.dot = d := by rw [hpitem]
  have hpsound := hc.sound_of_production hsound hp (by rw [hpproduction, hproduction])
  have hitem : s.toItem = p.toItem.moved 1 := by
    rw [hpitem, State.toItem_eq hproduction rfl hdot]
    rfl
  have hawaited : g.awaited p = .ok (some symbol) := by
    rw [hpsound.awaited_eq, hpdot, ← hphrase, hsymbol]
  refine ⟨prev, p, ?_, hp, hpproduction, by rw [hpitem], hpdot, hpstop⟩
  exact (hc.mem_links_iff hs (ne_lexeme_of_rule hproduction)).2
    ⟨p, symbol, hp, hitem, hawaited, by rw [hpstop]; exact hchild⟩

/-- The lists of the state of a rule are the sequences of complete states that match the symbols
before the dot. -/
theorem mem_lists_iff {id position : Nat} {s : State} {rule : Rule} {ids : List Nat}
    (hs : c.states[id]? = some s) (hproduction : s.production = .rule position)
    (hrule : g.rules[position]? = some rule) :
    ids ∈ c.lists id ↔ g.Chain c (rule.rhs.take s.dot) s.origin s.stop ids := by
  induction hd : s.dot generalizing id s ids with
  | zero =>
    rw [hc.lists_of_dot_eq_zero hs hd, List.mem_singleton, List.take_zero,
      hc.stop_eq_origin hs hd]
    constructor
    · rintro rfl
      exact .nil _
    · rintro ⟨⟩
      rfl
  | succ d ih =>
    rw [hc.lists_of_dot_pos hs (ne_lexeme_of_rule hproduction) (by omega), List.mem_flatMap]
    constructor
    · rintro ⟨⟨prev, child⟩, hlink, hids⟩
      obtain ⟨p, symbol, hp, hsame, horigin, hdot, hsymbol, hchild⟩ :=
        hc.prev_of_mem_links hs hproduction hrule hlink
      obtain ⟨front, hfront, rfl⟩ := List.mem_map.1 hids
      have hpd : p.dot = d := by omega
      have hchain := (ih hp hsame hpd).1 hfront
      rw [horigin] at hchain
      rw [hpd] at hsymbol
      rw [List.take_add_one, hsymbol]
      exact hchain.snoc hchild
    · intro hchain
      obtain ⟨phrase, hsound⟩ := hc.sound hs
      have hphrase := hsound.phrase_eq
      rw [hproduction, phrase?, hrule, Option.map_some, Option.some.injEq] at hphrase
      have hlt : d < rule.rhs.length := by
        rw [hphrase]
        exact Nat.lt_of_lt_of_le (by omega) hsound.dot_le
      rw [List.take_add_one, List.getElem?_eq_getElem hlt] at hchain
      obtain ⟨front, child, m, rfl, hfront, hchild⟩ := hchain.exists_of_snoc
      obtain ⟨hderives, hle⟩ := hfront.derives hc
      obtain ⟨prev, p, hlink, hp, hpproduction, hporigin, hpdot, hpstop⟩ := hc.exists_link hs
        hproduction hrule hd (List.getElem?_eq_getElem hlt) hle hderives hchild
      refine ⟨(prev, child), hlink, List.mem_map.2 ⟨front, ?_, rfl⟩⟩
      refine (ih hp hpproduction hpdot).2 ?_
      rw [hporigin, hpstop]
      exact hfront

/-- If a complete match is the state of a rule, it matches the head of the rule, and its lists are
the sequences of complete states that match the right-hand side. -/
theorem chain_of_matches {id position i k : Nat} {symbol : Symbol} {s : State} {rule : Rule}
    (hmatches : g.Matches c id symbol i k) (hs : c.states[id]? = some s)
    (hproduction : s.production = .rule position) (hrule : g.rules[position]? = some rule) :
    symbol = .nonterminal rule.head ∧ ∀ ids, ids ∈ c.lists id ↔ g.Chain c rule.rhs i k ids := by
  obtain ⟨s', hs', hstop, hcases⟩ := hc.production_of_matches hmatches
  obtain rfl : s = s' := Option.some.inj (hs.symm.trans hs')
  rcases hcases with ⟨position', rule', hrule', rfl, hitem, -⟩ | ⟨name, word, -, hitem, -⟩
  · have hlists : ∀ ids, ids ∈ c.lists id ↔
        g.Chain c (rule.rhs.take s.dot) s.origin s.stop ids :=
      fun _ => hc.mem_lists_iff hs hproduction hrule
    rw [hitem] at hproduction
    cases hproduction
    obtain rfl : rule = rule' := Option.some.inj (hrule.symm.trans hrule')
    rw [hitem, hstop, List.take_length] at hlists
    exact ⟨rfl, hlists⟩
  · rw [hitem] at hproduction
    cases hproduction

/-- If a complete match is that of a word, it matches the terminal that accepts the word. -/
theorem word_of_matches {id i k : Nat} {symbol symbol' : Symbol} {s : State} {word : String}
    (hmatches : g.Matches c id symbol i k) (hs : c.states[id]? = some s)
    (hproduction : s.production = .lexeme symbol') (hword : c.tokens[s.origin]? = some word) :
    ∃ name, symbol = .terminal name ∧ symbol' = .terminal name ∧
      between tokens i k = [word] ∧ g.accepts name word = true := by
  obtain ⟨s', hs', -, hcases⟩ := hc.production_of_matches hmatches
  obtain rfl : s = s' := Option.some.inj (hs.symm.trans hs')
  rcases hcases with ⟨position, rule, -, -, hitem, -⟩ |
    ⟨name, word', rfl, hitem, rfl, hword', haccepts⟩
  · rw [hitem] at hproduction
    cases hproduction
  · rw [hitem] at hproduction hword
    cases hproduction
    rw [hc.reachable.tokens_eq, List.getElem?_toArray, hword'] at hword
    cases hword
    exact ⟨name, rfl, rfl, between_succ hword', haccepts⟩

/-- No list of a state that is not the match of a word comes twice. -/
theorem nodup_lists {id : Nat} {s : State} (hs : c.states[id]? = some s)
    (hword : ∀ symbol, s.production ≠ .lexeme symbol) : (c.lists id).Nodup := by
  induction hd : s.dot generalizing id s with
  | zero =>
    rw [hc.lists_of_dot_eq_zero hs hd]
    exact List.nodup_singleton _
  | succ d ih =>
    rw [hc.lists_of_dot_pos hs hword (by omega), List.nodup_flatMap]
    refine ⟨fun ⟨prev, child⟩ hlink => ?_, ?_⟩
    · obtain ⟨p, symbol, hp, hitem, -, -⟩ := (hc.mem_links_iff hs hword).1 hlink
      have hsame : ∀ symbol, p.production ≠ .lexeme symbol := fun symbol hlexeme =>
        hword symbol ((congrArg Item.production hitem).trans hlexeme)
      have hdot : s.dot = p.dot + 1 := congrArg Item.dot hitem
      exact (ih hp hsame (by omega)).map fun l l' => List.append_cancel_right
    · refine (nodup_leadingLinks (hc.reachable.sourced hs).nodup).imp_of_mem ?_
      rintro ⟨prev, child⟩ ⟨prev', child'⟩ hlink hlink' hne l hl hl'
      obtain ⟨front, -, rfl⟩ := List.mem_map.1 hl
      obtain ⟨front', -, hsame⟩ := List.mem_map.1 hl'
      -- Two links over the same child lead to the same state, where the child begins.
      have hchild : child' = child := by simpa using (List.append_inj' hsame rfl).2
      obtain ⟨p, symbol, hp, hitem, -, t, ht, -, -, hmeet, -⟩ :=
        (hc.mem_links_iff hs hword).1 hlink
      obtain ⟨p', symbol', hp', hitem', -, t', ht', -, -, hmeet', -⟩ :=
        (hc.mem_links_iff hs hword).1 hlink'
      rw [hchild, ht] at ht'
      cases ht'
      have hitems : p.toItem = p'.toItem := Item.eq_of_moved_eq (hitem.symm.trans hitem')
      refine hne ?_
      rw [hchild, hc.indexed.id_unique hp hp' (hmeet.symm.trans hmeet') hitems]

/-- The children of the state of a rule are complete matches. -/
theorem matches_of_child {child id position : Nat} {s : State} (hs : c.states[id]? = some s)
    (hproduction : s.production = .rule position) (h : c.Child child id) :
    ∃ symbol i k, g.Matches c child symbol i k := by
  obtain ⟨list, hlist, hmem⟩ := h
  obtain ⟨phrase, hsound⟩ := hc.sound hs
  have hphrase := hsound.phrase_eq
  rw [hproduction] at hphrase
  obtain ⟨rule, hrule, -⟩ := Option.map_eq_some_iff.1 hphrase
  exact ((hc.mem_lists_iff hs hproduction hrule).1 hlist).matches_of_mem hmem

/-- The match of a word has no children. -/
theorem not_child_of_lexeme {child id : Nat} {s : State} {symbol : Symbol}
    (hs : c.states[id]? = some s) (hproduction : s.production = .lexeme symbol) :
    ¬ c.Child child id := by
  have hlinks : leadingLinks s.sources = [] := by
    refine List.eq_nil_iff_forall_not_mem.2 fun link hlink => ?_
    cases (hc.reachable.sourced hs).supports _ (mem_of_mem_leadingLinks hlink) with
    | complete hp _ hitem =>
      obtain ⟨phrase, hsound⟩ := hc.sound hs
      obtain ⟨phrase', hsound'⟩ := hc.sound hp
      have hdot := hsound.dot_of_lexeme symbol hproduction
      have hdot' := hsound'.dot_of_lexeme symbol
        ((congrArg Item.production hitem).symm.trans hproduction)
      have hmoved := congrArg Item.dot hitem
      rw [Item.dot_moved] at hmoved
      omega
  have hlists : c.lists id = [[]] :=
    Chart.lists_of_links?_eq_nil (by rw [Chart.links?, hs, Option.map_some, hlinks])
  rintro ⟨list, hlist, hmem⟩
  rw [hlists, List.mem_singleton] at hlist
  rw [hlist] at hmem
  cases hmem

/-- The back-pointers of every state hand out the lists of the state. -/
theorem exists_handsOut {id : Nat} {s : State} (hs : c.states[id]? = some s) :
    ∃ b, c.backpointers? id = some b ∧ b.HandsOut c (c.lists id) :=
  Chart.exists_handsOut hc.reachable.layered hs

end Finished

end Grammar

end Earley
