import Earley.Chart.Description
import Earley.Proofs.Forest.AllValues
import Earley.Proofs.Parse.Limits
/-!
# Nothing is looked up that is not there

States refer to rules, words, columns and other states by numbers. All numbers in the states of a
chart that a parse may come to point into the tables that they belong to (`State.InRange`,
`Grammar.Reachable.inRange`), so every state can be described, with a dot that stands inside of its
right-hand side or at its end (`Grammar.Reachable.exists_describe?`), and has back-pointers. Where a
lookup failed, the outcome would be `ParseError.outOfRange`. A parse does not come to this, nor does
an evaluation, whatever the evaluator: there are only the limits that were set and, for evaluations,
rules without an action (`Grammar.in_range_of_parse`).
-/

universe u

namespace Earley

/-- All numbers in a state of a chart point into the tables that they belong to. -/
structure State.InRange (g : Grammar) (c : Chart) (s : State) : Prop where
  /-- The match goes forward. -/
  origin_le : s.origin ≤ s.stop
  /-- There is a column where it stops. -/
  stop_lt : s.stop < c.columns.size
  /-- The dot stands inside of the right-hand side or at its end. -/
  dot_le : s.dot ≤ s.length
  /-- A rule that is matched is there, and its right-hand side has as many symbols as noted. -/
  rule : ∀ {id : Nat}, s.production = .rule id →
    ∃ rule, g.rules[id]? = some rule ∧ s.length = rule.rhs.length
  /-- There is a word at the origin of a match of a terminal. -/
  lexeme : ∀ {symbol : Symbol}, s.production = .lexeme symbol → s.origin < c.tokens.size
  /-- A word that was matched is there. -/
  scan : ∀ {position : Nat}, .scan position ∈ s.sources → position < c.tokens.size
  /-- A state that was advanced is there, and so is the child that advanced it. -/
  complete : ∀ {prev child : Nat}, .complete prev child ∈ s.sources →
    prev < c.size ∧ child < c.size

namespace Grammar

variable {g : Grammar} {tokens : List String} {c : Chart} {s : State} {id : Nat}

/-- All numbers in a chart that a parse may come to are in range, also while columns are closed. -/
theorem Reachable.inRange (h : g.Reachable tokens c) (hg : g.WellFormed)
    (hs : c.states[id]? = some s) : s.InRange g c := by
  obtain ⟨phrase, hsound⟩ := h.sound hg hs
  have hsources := (h.sourced hs).supports
  have hphrase := hsound.phrase_eq
  refine ⟨hsound.origin_le, h.indexed.stop_lt hs, ?_, ?_, ?_, ?_, ?_⟩
  · rw [hsound.length_eq]
    exact hsound.dot_le
  · intro position hproduction
    rw [hproduction] at hphrase
    obtain ⟨rule, hrule, rfl⟩ := Option.map_eq_some_iff.1 hphrase
    exact ⟨rule, hrule, hsound.length_eq⟩
  · intro symbol hproduction
    obtain ⟨name, word, -, -, hword, -⟩ := hsound.exists_word hproduction
    rw [h.tokens_eq, List.size_toArray]
    exact (List.getElem?_eq_some_iff.1 hword).1
  · intro position hmem
    cases hsources _ hmem with
    | scan _ _ _ hword => exact (Array.getElem?_eq_some_iff.1 hword).1
  · intro prev child hmem
    cases hsources _ hmem with
    | complete hp ht =>
      exact ⟨(Array.getElem?_eq_some_iff.1 hp).1, (Array.getElem?_eq_some_iff.1 ht).1⟩

/-- The production of a state can be shown, with as many symbols as the state has noted. -/
theorem Reachable.exists_production? (h : g.Reachable tokens c) (hg : g.WellFormed)
    (hs : c.states[id]? = some s) :
    ∃ head rhs, c.production? g s = some (head, rhs) ∧ rhs.length = s.length := by
  obtain ⟨phrase, hsound⟩ := h.sound hg hs
  have hphrase := hsound.phrase_eq
  unfold Chart.production?
  split
  next hproduction =>
    rw [hproduction] at hphrase
    obtain ⟨symbol, -, rfl⟩ := Option.map_eq_some_iff.1 hphrase
    exact ⟨_, _, rfl, hsound.length_eq.symm⟩
  next position hproduction =>
    obtain ⟨rule, hrule, hlength⟩ := (h.inRange hg hs).rule hproduction
    rw [hrule]
    exact ⟨_, _, rfl, by rw [List.length_map, hlength]⟩
  next symbol hproduction =>
    rw [hproduction] at hphrase
    cases hphrase
    rw [Array.getElem?_eq_getElem ((h.inRange hg hs).lexeme hproduction)]
    exact ⟨_, _, rfl, hsound.length_eq.symm⟩

/-- Every state of a chart that a parse may come to can be described. -/
theorem Reachable.exists_describe? (h : g.Reachable tokens c) (hg : g.WellFormed)
    (hs : c.states[id]? = some s) : ∃ line, c.describe? g id = some line := by
  obtain ⟨head, rhs, hproduction, hlength⟩ := h.exists_production? hg hs
  have hdot : ¬rhs.length < s.dot := Nat.not_lt_of_le (hlength ▸ (h.inRange hg hs).dot_le)
  refine Option.isSome_iff_exists.1 ?_
  simp [Chart.describe?, hs, hproduction, hdot]

/-- Whatever the limits, a parse succeeds or is given up over one of them. -/
theorem cases_of_parse (hg : g.WellFormed) (limits : Limits) (clock : Clock)
    (tokens : List String) :
    (∃ p, g.parse limits clock tokens = .ok p) ∨ ∃ halt, g.parse limits clock tokens = .error halt ∧
      ((∃ limit, limits.maxStates = some limit ∧ halt.error = .stateBudget limit) ∨
        ∃ longest, limits.maxDuration = some longest ∧ halt.error = .timeBudget longest) := by
  obtain ⟨p, hp⟩ : ∃ p, g.parse .unbounded clock tokens = .ok p := exists_parse hg rfl rfl tokens
  rcases parse_cases hp limits clock with ⟨hok, -⟩ | ⟨halt, herror, hgives⟩
  · exact .inl ⟨p, hok⟩
  · refine .inr ⟨halt, herror, hgives.imp_left ?_⟩
    rintro ⟨limit, hlimit, -, hhalt⟩
    exact ⟨limit, hlimit, hhalt⟩

/-- No lookup of a parse, or of what is done with its chart, goes out of range. Whatever the limits,
an input has a parse, or the parse is given up over one of the limits. In the chart of a parse, all
numbers point into the tables that they belong to, all states of all columns can be described, and
the back-pointers of every state can be handed out to the end. Values are found with every
evaluator, unless there are more than it allows or a rule has no action. -/
theorem in_range_of_parse {ds : List Declaration} {start : String}
    (hg : ofDeclarations ds start = .ok g) (limits : Limits) (clock : Clock) (tokens : List String)
    {α : Type u} (e : Evaluator α) :
    (∃ halt, g.parse limits clock tokens = .error halt ∧
      ((∃ limit, limits.maxStates = some limit ∧ halt.error = .stateBudget limit) ∨
        ∃ longest, limits.maxDuration = some longest ∧ halt.error = .timeBudget longest)) ∨
    ∃ p, g.parse limits clock tokens = .ok p ∧
      (∀ (id : Nat) (s : State), p.chart.states[id]? = some s → s.InRange g p.chart) ∧
      (∀ k ≤ tokens.length, ∃ column, p.chart.columns[k]? = some column ∧
        ∀ id ∈ column, ∃ line, p.chart.describe? p.grammar id = some line) ∧
      (∀ id < p.chart.size, ∃ b, p.chart.backpointers? id = some b ∧
        b.HandsOut p.chart (p.chart.lists id)) ∧
      ∀ failure : ParseError,
        (e.evalAll p).result = .error failure ∨ (e.evalFirst p).result = .error failure →
          (∃ limit, e.maxTrees = some limit ∧ failure = .treeBudget limit) ∨
            ∃ rule ∈ g.rules, e.action? rule = none ∧ failure = .missingAction rule.text := by
  have hwf := wellFormed_of_ofDeclarations hg
  rcases cases_of_parse hwf limits clock tokens with ⟨p, hp⟩ | hgivenUp
  · obtain ⟨hgrammar, hfinished, symbol, hroots⟩ := finished_and_roots_of_parse hg hp
    have hreach := hfinished.reachable
    refine .inr ⟨p, hp, fun id s hs => hreach.inRange hwf hs, fun k hk => ?_, fun id hid => ?_,
      fun failure hfailure => ?_⟩
    · have hlt : k < p.chart.columns.size := by
        rw [hreach.size_columns]
        exact Nat.lt_succ_of_le hk
      have hcolumn : p.chart.columns[k]? = some _ := Array.getElem?_eq_getElem hlt
      refine ⟨_, hcolumn, fun id hid => ?_⟩
      obtain ⟨s, hs, -⟩ := hreach.indexed.state_of_mem hcolumn hid
      rw [hgrammar]
      exact hreach.exists_describe? hwf hs
    · exact hfinished.exists_handsOut (Array.getElem?_eq_getElem hid)
    · rw [← hgrammar] at hfinished hroots ⊢
      have hmatches : ∀ root ∈ p.roots,
          ∃ symbol i k, p.grammar.Matches p.chart root symbol i k :=
        fun root hroot => ⟨symbol, 0, tokens.length, (hroots root).1 hroot⟩
      rcases hfailure with hall | hfirst
      · obtain ⟨root, -, hfails⟩ := Evaluator.fails_of_evalAll hfinished hmatches hall
        exact hfails.cases
      · obtain ⟨root, -, hfails⟩ := Evaluator.fails_of_evalFirst hfinished hmatches hfirst
        exact hfails.cases
  · exact .inl hgivenUp

/-- A start symbol that is a terminal, without limits, and an evaluator that has no action for the
only rule: no lookup goes out of range. -/
theorem in_range_of_parse_of_terminal :
    ∃ g, ofDeclarations [.nonterminal "S", .lexeme "a" ["x", "y"], .addRule "S" ["a"]] "a" = .ok g ∧
      ∃ p, g.parse .unbounded (fun _ => { nanoseconds := 0 }) ["x"] = .ok p ∧
        (∀ (id : Nat) (s : State), p.chart.states[id]? = some s → s.InRange g p.chart) ∧
        (∀ k ≤ 1, ∃ column, p.chart.columns[k]? = some column ∧
          ∀ id ∈ column, ∃ line, p.chart.describe? p.grammar id = some line) ∧
        (∀ id < p.chart.size, ∃ b, p.chart.backpointers? id = some b ∧
          b.HandsOut p.chart (p.chart.lists id)) ∧
        ∀ failure : ParseError,
          (({ leaf := fun _ word => word } : Evaluator String).evalAll p).result = .error failure ∨
            (({ leaf := fun _ word => word } : Evaluator String).evalFirst p).result =
              .error failure →
          (∃ limit, ({ leaf := fun _ word => word } : Evaluator String).maxTrees = some limit ∧
            failure = .treeBudget limit) ∨
          ∃ rule ∈ g.rules,
            ({ leaf := fun _ word => word } : Evaluator String).action? rule = none ∧
              failure = .missingAction rule.text := by
  have hexists : ∃ g, ofDeclarations [.nonterminal "S", .lexeme "a" ["x", "y"],
      .addRule "S" ["a"]] "a" = .ok g := exists_ofDeclarations (by decide +kernel)
  obtain ⟨g, hg⟩ := hexists
  rcases in_range_of_parse hg .unbounded (fun _ => { nanoseconds := 0 }) ["x"]
    ({ leaf := fun _ word => word } : Evaluator String) with
    ⟨halt, -, ⟨limit, hlimit, -⟩ | ⟨longest, hlongest, -⟩⟩ | hparse
  · cases hlimit
  · cases hlongest
  · exact ⟨g, hg, hparse⟩

end Grammar

end Earley
