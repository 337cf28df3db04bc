import Earley.Proofs.Parse.Lists
/-!
# The finished chart is a fixed point

Nothing that the states of a finished chart call for is missing, and nothing is noted in it without
a reason. What is called for is read off the columns: the rules of the nonterminals that states wait
for, the matches of the terminals that accept the next word, and the advances over complete states
together with the completions that they leave as sources (`Grammar.Saturated`). Conversely, each
source of a state is the word that was matched, or a completion by which the state is reached, and a
state has sources exactly if its dot has moved (`Grammar.Justified`). A completion is noted even if
its child, or the state that was advanced, turned up long after the state that the advance leads to.
-/

namespace Earley

/-- The state with a number stands in a column. -/
def Chart.StandsIn (c : Chart) (k id : Nat) (s : State) : Prop :=
  ∃ column, c.columns[k]? = some column ∧ id ∈ column ∧ c.states[id]? = some s

/-- A state stands in the column where it stops, and in no other. -/
theorem Chart.standsIn_iff {c : Chart} (hc : c.Indexed) {k id : Nat} {s : State} :
    c.StandsIn k id s ↔ c.states[id]? = some s ∧ s.stop = k := by
  constructor
  · rintro ⟨column, hcolumn, hid, hs⟩
    obtain ⟨s', hs', hstop⟩ := hc.state_of_mem hcolumn hid
    obtain rfl : s = s' := Option.some.inj (hs.symm.trans hs')
    exact ⟨hs, hstop⟩
  · rintro ⟨hs, rfl⟩
    obtain ⟨column, hcolumn, hid⟩ := hc.mem_of_state hs
    exact ⟨column, hcolumn, hid, hs⟩

namespace Grammar

variable {g : Grammar} {tokens : List String} {c : Chart}

/-- All that the states in the columns of a chart call for is there. -/
structure Saturated (g : Grammar) (tokens : List String) (c : Chart) : Prop where
  /-- Where a state waits for a nonterminal, each rule of it is about to begin. -/
  predicted : ∀ {k id position : Nat} {s : State} {rule : Rule}, c.StandsIn k id s →
    g.awaited s = .ok (some (.nonterminal rule.head)) → g.rules[position]? = some rule →
    c.Contains k { production := .rule position, origin := k, dot := 0 }
  /-- Where a state waits for a terminal that accepts the next word, the next column has its
  match. -/
  scanned : ∀ {k id : Nat} {s : State} {name word : String}, c.StandsIn k id s →
    g.awaited s = .ok (some (.terminal name)) → tokens[k]? = some word →
    g.accepts name word = true →
    c.Contains (k + 1) { production := .lexeme (.terminal name), origin := k, dot := 1 }
  /-- Each state that waits, where a complete state began, for the symbol that this one matches is
  advanced to the column of the complete state, and the completion is noted. -/
  completed : ∀ {k id parent : Nat} {s p : State} {symbol : Symbol}, c.StandsIn k id s →
    s.isComplete = true → g.matched s = .ok (some symbol) → c.StandsIn s.origin parent p →
    g.awaited p = .ok (some symbol) →
    ∃ id' t, c.StandsIn k id' t ∧ t.toItem = p.toItem.moved 1 ∧ .complete parent id ∈ t.sources

/-- A completion by which a state is reached: `prev` is the same match with one symbol less, and
`child` is a complete match of that symbol, from where `prev` has come to up to the end. -/
def ReachedBy (g : Grammar) (c : Chart) (s : State) (prev child : Nat) : Prop :=
  ∃ p t phrase symbol, c.states[prev]? = some p ∧ c.states[child]? = some t ∧
    p.production = s.production ∧ p.origin = s.origin ∧ p.dot + 1 = s.dot ∧
    g.phrase? p.production = some phrase ∧ phrase[p.dot]? = some symbol ∧
    t.isComplete = true ∧ g.matched t = .ok (some symbol) ∧ t.origin = p.stop ∧ t.stop = s.stop

/-- The sources of all states of a chart are in order. -/
structure Justified (g : Grammar) (c : Chart) : Prop where
  /-- A source is the word of a match, or a completion by which the state is reached. -/
  source : ∀ {id : Nat} {s : State} {source : Source}, c.states[id]? = some s →
    source ∈ s.sources →
    (∃ name, s.production = .lexeme (.terminal name) ∧ source = .scan s.origin) ∨
      ∃ prev child, source = .complete prev child ∧ g.ReachedBy c s prev child
  /-- A state has sources exactly if its dot has moved. -/
  sources_eq_nil_iff : ∀ {id : Nat} {s : State}, c.states[id]? = some s →
    (s.sources = [] ↔ s.dot = 0)
  /-- No source is noted twice. -/
  nodup : ∀ {id : Nat} {s : State}, c.states[id]? = some s → s.sources.Nodup

namespace Finished

variable (hc : g.Finished tokens c)

include hc

/-- What a state of a column calls for stands in the column where it stops. -/
theorem exists_standsIn_of_calls {id : Nat} {t : State} (h : g.Calls c id t) :
    ∃ id' t', c.StandsIn t.stop id' t' ∧ t'.toItem = t.toItem ∧
      ∀ source ∈ t.sources, source ∈ t'.sources := by
  obtain ⟨id', t', ht', hitem, hstop, hsources⟩ := hc.has_of_calls h
  exact ⟨id', t', (Chart.standsIn_iff hc.indexed).2 ⟨ht', hstop⟩, hitem, hsources⟩

/-- So its item does. -/
theorem contains_of_calls {id : Nat} {t : State} (h : g.Calls c id t) :
    c.Contains t.stop t.toItem := by
  obtain ⟨id', t', ⟨column, hcolumn, hid', ht'⟩, hitem, -⟩ := hc.exists_standsIn_of_calls h
  exact ⟨column, id', t', hcolumn, hid', ht', hitem⟩

/-- Nothing that is called for is missing. -/
theorem saturated : g.Saturated tokens c where
  predicted hstands hawaited hrule := by
    obtain ⟨hs, rfl⟩ := (Chart.standsIn_iff hc.indexed).1 hstands
    exact hc.contains_of_calls (.predict hs hawaited hrule)
  scanned hstands hawaited hword haccepts := by
    obtain ⟨hs, rfl⟩ := (Chart.standsIn_iff hc.indexed).1 hstands
    refine hc.contains_of_calls (.scan hs hawaited ?_ haccepts)
    rw [hc.reachable.tokens_eq, List.getElem?_toArray, hword]
  completed {k id parent s p symbol} hstands hcomplete hmatched hparent hawaited := by
    obtain ⟨hs, rfl⟩ := (Chart.standsIn_iff hc.indexed).1 hstands
    obtain ⟨hp, hmeet⟩ := (Chart.standsIn_iff hc.indexed).1 hparent
    obtain ⟨id', t, ht, hitem, hsources⟩ :=
      hc.exists_standsIn_of_calls (.advance hs hcomplete hmatched hp hmeet hawaited)
    exact ⟨id', t, ht, hitem, hsources _ List.mem_cons_self⟩

/-- A completion that supports a state is one by which it is reached. -/
theorem reachedBy_of_supports {s : State} {prev child : Nat}
    (h : g.Supports c s (.complete prev child)) : g.ReachedBy c s prev child := by
  cases h with
  | @complete prev child p t symbol hp ht hitem hstop hmeet hawaited hcomplete hmatched =>
    obtain ⟨phrase, hsound⟩ := hc.sound hp
    have hproduction : s.production = p.production := by
      rw [hitem, Item.production_moved]
    have horigin : s.origin = p.origin := by rw [hitem, Item.origin_moved]
    have hdot : s.dot = p.dot + 1 := by rw [hitem, Item.dot_moved]
    exact ⟨p, t, phrase, symbol, hp, ht, hproduction.symm, horigin.symm, hdot.symm,
      hsound.phrase_eq, hsound.getElem?_of_awaited hawaited, hcomplete, hmatched, hmeet.symm,
      hstop.symm⟩

/-- Nothing is noted without a reason. -/
theorem justified : g.Justified c where
  source {id s source} hs hmem := by
    have hsupports := (hc.reachable.sourced hs).supports source hmem
    cases source with
    | scan position =>
      cases hsupports with
      | scan hproduction => exact .inl ⟨_, hproduction, rfl⟩
    | complete prev child => exact .inr ⟨prev, child, rfl, hc.reachedBy_of_supports hsupports⟩
  sources_eq_nil_iff {id s} hs := by
    refine ⟨fun hnil => ?_, hc.sources_eq_nil hs⟩
    by_contra hdot
    exact (hc.reachable.sourced hs).exists_source (Nat.pos_of_ne_zero hdot) hnil
  nodup hs := (hc.reachable.sourced hs).nodup

end Finished

/-- Without limits a parse succeeds, and its chart has all that its states call for and nothing that
they do not. -/
theorem saturated_and_justified_of_parse {ds : List Declaration} {start : String} {limits : Limits}
    {clock : Clock} (hg : ofDeclarations ds start = .ok g) (hstates : limits.maxStates = none)
    (hduration : limits.maxDuration = none) (tokens : List String) :
    ∃ p, g.parse limits clock tokens = .ok p ∧ g.Saturated tokens p.chart ∧
      g.Justified p.chart := by
  have hwf := wellFormed_of_ofDeclarations hg
  have hexists : ∃ p, g.parse limits clock tokens = .ok p :=
    exists_parse hwf hstates hduration tokens
  obtain ⟨p, hp⟩ := hexists
  have hc := finished_of_parse hwf hp
  exact ⟨p, hp, hc.saturated, hc.justified⟩

/-- The chart of two words, in a grammar whose empty rule completes before another state comes to
wait for it. -/
theorem saturated_and_justified_of_late_empty :
    ∃ g p, ofDeclarations [.nonterminal "S", .nonterminal "E", .terminal "a" (· == "a"),
        .addRule "S" ["E", "S", "E", "a"], .addRule "S" ["E"], .addRule "E" []] "S" = .ok g ∧
      g.parse .unbounded (fun _ => { nanoseconds := 0 }) ["a", "a"] = .ok p ∧
      g.Saturated ["a", "a"] p.chart ∧ g.Justified p.chart := by
  have hexists : ∃ g, ofDeclarations [.nonterminal "S", .nonterminal "E",
      .terminal "a" (· == "a"), .addRule "S" ["E", "S", "E", "a"], .addRule "S" ["E"],
      .addRule "E" []] "S" = .ok g := exists_ofDeclarations (by decide +kernel)
  obtain ⟨g, hg⟩ := hexists
  have hparse : ∃ p, g.parse .unbounded (fun _ => { nanoseconds := 0 }) ["a", "a"] = .ok p ∧
      g.Saturated ["a", "a"] p.chart ∧ g.Justified p.chart :=
    saturated_and_justified_of_parse hg rfl rfl ["a", "a"]
  obtain ⟨p, hp, hsaturated, hjustified⟩ := hparse
  exact ⟨g, p, hg, hp, hsaturated, hjustified⟩

end Grammar

end Earley
