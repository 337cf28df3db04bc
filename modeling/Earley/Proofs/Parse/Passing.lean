import Earley.Proofs.Parse.Termination
/-!
# The charts on the way of a parse

A parse without limits comes, entry after entry, to the states of a column, walks over the column
once more or goes on to the next one (`Grammar.ComesTo`), and in the midst of a visit it has
inserted some of the states that the visited one calls for (`Grammar.Midway`). The charts at all of
these points are those that it passes through (`Grammar.Passes`), and limits only cut it short. All
of them are reachable (`Grammar.Passes.reachable`), so what holds of the reachable charts holds at
every point of a parse, and the last of them is the finished chart (`Grammar.passes_of_parse`).
-/

namespace Earley

namespace Grammar

/-- The parse of some words is about to look at the entry `i` of column `k`. -/
inductive ComesTo (g : Grammar) (tokens : List String) : Nat → Nat → Growth → Prop
  /-- The first walk begins with the match of the start production. -/
  | start {growth : Growth} (hseed : Growth.seed tokens = .ok growth) :
    ComesTo g tokens 0 0 { growth with changed := false, sawEmpty := false }
  /-- The state of an entry is visited. -/
  | visit {k i id : Nat} {growth visited : Growth} {column : Array Nat}
    (h : ComesTo g tokens k i growth) (hcolumn : growth.chart.columns[k]? = some column)
    (hentry : column[i]? = some id) (hvisit : g.visit k id growth = .ok visited) :
    ComesTo g tokens k (i + 1) { visited with checks := visited.checks + 1 }
  /-- A walk that has changed the chart and has met an empty match is repeated. -/
  | again {k i : Nat} {growth : Growth} {column : Array Nat} (h : ComesTo g tokens k i growth)
    (hcolumn : growth.chart.columns[k]? = some column) (hend : column[i]? = none)
    (hagain : (growth.changed && growth.sawEmpty) = true) :
    ComesTo g tokens k 0 { growth with changed := false, sawEmpty := false }
  /-- After any other walk the next column follows. -/
  | next {k i : Nat} {growth : Growth} {column : Array Nat} (h : ComesTo g tokens k i growth)
    (hcolumn : growth.chart.columns[k]? = some column) (hend : column[i]? = none)
    (hlast : (growth.changed && growth.sawEmpty) = false) (hk : k < tokens.length) :
    ComesTo g tokens (k + 1) 0 { growth with changed := false, sawEmpty := false }

/-- What a visit to the state `id` of column `k` makes of a chart, up to one of its insertions. -/
inductive Midway (g : Grammar) (k id : Nat) (growth : Growth) : Growth → Prop
  /-- Some of the rules that the state waits for are predicted. -/
  | predict {s : State} {head : String} {positions : List Nat} {grown : Growth}
    (hs : growth.chart.states[id]? = some s)
    (hawaited : g.awaited s = .ok (some (.nonterminal head)))
    (hpositions : positions <+: g.rulesFor head)
    (hgrown : positions.foldlM (g.predictRule k) growth = .ok grown) : Midway g k id growth grown
  /-- The next word is matched. -/
  | scan {s : State} {name : String} {grown : Growth} (hs : growth.chart.states[id]? = some s)
    (hawaited : g.awaited s = .ok (some (.terminal name)))
    (hgrown : g.scan (.terminal name) k growth = .ok grown) : Midway g k id growth grown
  /-- Some of the states in the column where the state began are advanced, as far as they wait for
  it. -/
  | complete {s : State} {symbol : Symbol} {column : Array Nat} {parents : List Nat}
    {grown : Growth} (hs : growth.chart.states[id]? = some s) (hcomplete : s.isComplete = true)
    (hmatched : g.matched s = .ok (some symbol))
    (hcolumn : growth.chart.columns[s.origin]? = some column) (hparents : parents <+: column.toList)
    (hgrown : parents.foldlM (g.advanceOver symbol id k)
      { growth with sawEmpty := growth.sawEmpty || s.origin = k } = .ok grown) :
    Midway g k id growth grown

/-- The parse of some words passes through a chart, between two visits or in the midst of one. -/
inductive Passes (g : Grammar) (tokens : List String) : Chart → Prop
  /-- Before or after a visit. -/
  | between {k i : Nat} {growth : Growth} (h : g.ComesTo tokens k i growth) :
    Passes g tokens growth.chart
  /-- In the midst of the visit to the state of an entry. -/
  | midway {k i id : Nat} {growth grown : Growth} {column : Array Nat}
    (h : g.ComesTo tokens k i growth) (hcolumn : growth.chart.columns[k]? = some column)
    (hentry : column[i]? = some id) (hmidway : g.Midway k id growth grown) :
    Passes g tokens grown.chart

variable {g : Grammar} {limits : Limits} {clock : Clock} {tokens : List String} {c : Chart}
  {growth grown : Growth} {k i id : Nat}

/-! ### All of these charts are reachable -/

/-- The charts between two visits are reachable. -/
theorem ComesTo.reachable (h : g.ComesTo tokens k i growth) : g.Reachable tokens growth.chart := by
  induction h with
  | start hseed => exact ⟨_, hseed, .refl⟩
  | @visit k i id growth visited column _ hcolumn hentry hvisit ih =>
    obtain ⟨s, hs, rfl⟩ := ih.indexed.state_of_mem hcolumn (Array.mem_of_getElem? hentry)
    exact ih.grows (progress_of_visit ih.indexed hs hvisit).1.grows
  | again _ _ _ _ ih => exact ih
  | next _ _ _ _ _ ih => exact ih

/-- A visit makes no insertions but those that are called for. -/
theorem Midway.grows (h : g.Midway k id growth grown) (hc : growth.chart.Indexed) {s : State}
    (hs : growth.chart.states[id]? = some s) (hk : s.stop = k) :
    g.Grows growth.chart grown.chart := by
  subst hk
  cases h with
  | predict hs' hawaited hpositions hgrown =>
    cases Option.some.inj (hs.symm.trans hs')
    exact (progress_of_predictRules hc hs hawaited hpositions.subset hgrown).1.grows
  | scan hs' hawaited hgrown =>
    cases Option.some.inj (hs.symm.trans hs')
    exact (progress_of_scan hc hs hawaited hgrown).1.grows
  | @complete s' symbol column parents grown hs' hcomplete hmatched hcolumn hparents hgrown =>
    obtain rfl : s = s' := Option.some.inj (hs.symm.trans hs')
    let noted : Growth := { growth with sawEmpty := growth.sawEmpty || s.origin = s.stop }
    have hnoted : noted.chart.Indexed := hc
    exact (progress_of_advances hnoted hs hcomplete hmatched hcolumn hparents.subset
      hgrown).1.grows

/-- All charts that a parse passes through are reachable. -/
theorem Passes.reachable (h : g.Passes tokens c) : g.Reachable tokens c := by
  cases h with
  | between hcomes => exact hcomes.reachable
  | midway hcomes hcolumn hentry hmidway =>
    have hreach := hcomes.reachable
    obtain ⟨s, hs, hk⟩ := hreach.indexed.state_of_mem hcolumn (Array.mem_of_getElem? hentry)
    exact hreach.grows (hmidway.grows hreach.indexed hs hk)

/-! ### The last of them is the finished chart -/

/-- A walk ends after the last entry of its column. -/
theorem ComesTo.of_walks (h : g.ComesTo tokens k i growth) (hwalk : g.Walks k i growth grown) :
    ∃ j column, g.ComesTo tokens k j grown ∧ grown.chart.columns[k]? = some column ∧
      column[j]? = none := by
  induction hwalk with
  | done hcolumn hend => exact ⟨_, _, h, hcolumn, hend⟩
  | visit hcolumn hentry hvisit _ ih => exact ih (h.visit hcolumn hentry hvisit)

/-- So does the last walk over a column. -/
theorem ComesTo.of_closes (hcloses : g.Closes k growth grown)
    (h : g.ComesTo tokens k 0 { growth with changed := false, sawEmpty := false }) :
    ∃ j column, g.ComesTo tokens k j grown ∧ grown.chart.columns[k]? = some column ∧
      column[j]? = none ∧ (grown.changed && grown.sawEmpty) = false := by
  induction hcloses with
  | last hwalk hlast =>
    obtain ⟨j, column, hcomes, hcolumn, hend⟩ := h.of_walks hwalk
    exact ⟨j, column, hcomes, hcolumn, hend, hlast⟩
  | again hwalk hagain _ ih =>
    obtain ⟨j, column, hcomes, hcolumn, hend⟩ := h.of_walks hwalk
    exact ih (hcomes.again hcolumn hend hagain)

/-- A parse that succeeds has passed through its chart. -/
theorem passes_of_parse {p : Parse} (h : g.parse limits clock tokens = .ok p) :
    g.Passes tokens p.chart := by
  obtain ⟨grown, hgrown, -, -, hchart⟩ := parse_eq_ok_iff.1 h
  obtain ⟨stages, hseed, hcloses, rfl⟩ := exists_stages_of_closedChart hgrown
  have hcolumns : ∀ k ≤ tokens.length, g.ComesTo tokens k 0
      { stages k with changed := false, sawEmpty := false } := by
    intro k hk
    induction k with
    | zero => exact .start hseed
    | succ k ih =>
      obtain ⟨j, column, hcomes, hcolumn, hend, hlast⟩ :=
        ComesTo.of_closes (hcloses k (Nat.le_of_succ_le hk)) (ih (Nat.le_of_succ_le hk))
      exact hcomes.next hcolumn hend hlast hk
  obtain ⟨j, column, hcomes, -⟩ :=
    ComesTo.of_closes (hcloses tokens.length (Nat.le_refl _)) (hcolumns _ (Nat.le_refl _))
  rw [hchart]
  exact .between hcomes

end Grammar

end Earley
