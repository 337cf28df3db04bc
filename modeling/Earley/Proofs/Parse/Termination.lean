import Earley.Proofs.Parse.Totality
/-!
# Parses end

The loops of a parse, with nothing that bounds their rounds: a walk visits the entries of a column
one after the other, as they come, until none is left (`Grammar.Walks`), and a column is walked over
until a walk has changed nothing or has met no empty match (`Grammar.Closes`). The bounds on rounds
with which a parse is computed are never reached: without limits on its chart, every parse succeeds
with what these loops come to, and the number of its states is bounded by the grammar and the number
of words (`Grammar.exists_parse_size_le`).
-/

namespace Earley

namespace Grammar

/-- A walk over column `k`, from its entry number `i` on, comes to an end. -/
inductive Walks (g : Grammar) (k : Nat) : Nat → Growth → Growth → Prop
  /-- No entry is left. -/
  | done {i : Nat} {growth : Growth} {column : Array Nat}
    (hcolumn : growth.chart.columns[k]? = some column) (hend : column[i]? = none) :
    Walks g k i growth growth
  /-- The state of an entry is visited, and then those after it. -/
  | visit {i id : Nat} {growth visited grown : Growth} {column : Array Nat}
    (hcolumn : growth.chart.columns[k]? = some column) (hentry : column[i]? = some id)
    (hvisit : g.visit k id growth = .ok visited)
    (hrest : Walks g k (i + 1) { visited with checks := visited.checks + 1 } grown) :
    Walks g k i growth grown

/-- Walks over column `k` come to an end. -/
inductive Closes (g : Grammar) (k : Nat) : Growth → Growth → Prop
  /-- A walk has changed nothing or has met no empty match. -/
  | last {growth grown : Growth}
    (hwalk : g.Walks k 0 { growth with changed := false, sawEmpty := false } grown)
    (hlast : (grown.changed && grown.sawEmpty) = false) : Closes g k growth grown
  /-- A walk has changed the chart and has met an empty match, so another one follows. -/
  | again {growth walked grown : Growth}
    (hwalk : g.Walks k 0 { growth with changed := false, sawEmpty := false } walked)
    (hagain : (walked.changed && walked.sawEmpty) = true) (hrest : Closes g k walked grown) :
    Closes g k growth grown

variable {g : Grammar} {limits : Limits} {clock : Clock} {tokens : List String}
  {growth grown : Growth} {k : Nat}

/-- A walk that succeeds before its bound is reached comes to an end by itself. -/
theorem walks_of_walk {fuel i : Nat} (h : g.walk limits clock k fuel i growth = .ok grown) :
    g.Walks k i growth grown := by
  induction fuel generalizing i growth with
  | zero => cases h
  | succ fuel ih =>
    unfold walk at h
    split at h
    next => cases h
    next column hcolumn =>
      split at h
      next hend =>
        cases h
        exact .done hcolumn hend
      next id hentry =>
        split at h
        next => cases h
        next visited hvisit =>
          split at h
          next => cases h
          next checked hcheck =>
            rw [eq_of_check hcheck] at h
            exact .visit hcolumn hentry hvisit (ih h)

/-- So do walks over a column. -/
theorem closes_of_closeColumn {walks visits : Nat}
    (h : g.closeColumn limits clock k walks visits growth = .ok grown) :
    g.Closes k growth grown := by
  induction walks generalizing growth with
  | zero => cases h
  | succ walks ih =>
    unfold closeColumn at h
    split at h
    next => cases h
    next walked hwalk =>
      split at h
      next hagain => exact .again (walks_of_walk hwalk) hagain (ih h)
      next hlast =>
        cases h
        exact .last (walks_of_walk hwalk) (by simpa using hlast)

/-- A finished chart goes back to the start production, column after column. -/
theorem exists_stages_of_closedChart (h : g.closedChart limits clock tokens = .ok grown) :
    ∃ stages : Nat → Growth, Growth.seed tokens = .ok (stages 0) ∧
      (∀ k ≤ tokens.length, g.Closes k (stages k) (stages (k + 1))) ∧
      stages (tokens.length + 1) = grown := by
  unfold closedChart at h
  split at h
  next => cases h
  next growth hseed =>
    obtain ⟨stages, rfl, hlast, hsteps⟩ := exists_stages_of_foldlM h
    exact ⟨stages, hseed, fun k hk => closes_of_closeColumn (hsteps k (Nat.lt_succ_of_le hk)),
      hlast⟩

/-- Without limits on the number of states and the duration, the walks over every column come to an
end and the parse succeeds with the chart that they leave. The chart has no more than one state for
the start production in each column and a second one in the first column, one for each terminal and
each word, and one for each place of a dot in the rules and each pair of positions in order. -/
theorem exists_parse_size_le {ds : List Declaration} {start : String}
    (hg : ofDeclarations ds start = .ok g) (limits : Limits) (hstates : limits.maxStates = none)
    (hduration : limits.maxDuration = none) (clock : Clock) (tokens : List String) :
    ∃ (p : Parse) (stages : Nat → Growth), Growth.seed tokens = .ok (stages 0) ∧
      (∀ k ≤ tokens.length, g.Closes k (stages k) (stages (k + 1))) ∧
      g.parse limits clock tokens = .ok p ∧ p.chart = (stages (tokens.length + 1)).chart ∧
      p.chart.size ≤ (tokens.length + 2) + tokens.length * g.terminalCount +
        g.dotCount * (tokens.length + 1) * (tokens.length + 2) / 2 := by
  have hwf := wellFormed_of_ofDeclarations hg
  have hexists : ∃ p, g.parse limits clock tokens = .ok p :=
    exists_parse hwf hstates hduration tokens
  obtain ⟨p, hp⟩ := hexists
  obtain ⟨grown, hgrown, -, -, hchart⟩ := parse_eq_ok_iff.1 hp
  obtain ⟨stages, hseed, hcloses, hlast⟩ := exists_stages_of_closedChart hgrown
  have hreach := (closed_of_closedChart hgrown).1
  refine ⟨p, stages, hseed, hcloses, hp, by rw [hchart, hlast], ?_⟩
  rw [hchart]
  exact hreach.size_le hwf

/-- The chart of a word, in a grammar with an empty rule whose start symbol derives itself in two
ways, has at most 31 states. -/
theorem exists_parse_size_le_of_word :
    ∃ g, ofDeclarations [.nonterminal "S", .lexeme "a" ["x", "y"], .addRule "S" [],
        .addRule "S" ["S"], .addRule "S" ["S", "S", "a"], .addRule "S" ["a"]] "S" = .ok g ∧
      ∃ (p : Parse) (stages : Nat → Growth), Growth.seed ["x"] = .ok (stages 0) ∧
        (∀ k ≤ 1, g.Closes k (stages k) (stages (k + 1))) ∧
        g.parse .unbounded (fun _ => { nanoseconds := 0 }) ["x"] = .ok p ∧
        p.chart = (stages 2).chart ∧ p.chart.size ≤ 31 := by
  have htest : (ofDeclarations [.nonterminal "S", .lexeme "a" ["x", "y"], .addRule "S" [],
      .addRule "S" ["S"], .addRule "S" ["S", "S", "a"], .addRule "S" ["a"]] "S").toOption.any
      (fun g => g.terminalCount = 1 ∧ g.dotCount = 9) = true := by
    decide +kernel
  obtain ⟨g, hg, hcounts⟩ := exists_of_any htest
  obtain ⟨hterminals, hdots⟩ := of_decide_eq_true hcounts
  obtain ⟨p, stages, hseed, hcloses, hp, hchart, hsize⟩ :=
    exists_parse_size_le hg .unbounded rfl rfl (fun _ => { nanoseconds := 0 }) ["x"]
  rw [hterminals, hdots] at hsize
  exact ⟨g, hg, p, stages, hseed, hcloses, hp, hchart, hsize⟩

end Grammar

end Earley
