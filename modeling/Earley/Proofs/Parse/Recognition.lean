import Earley.Proofs.Parse.Totality
/-!
# What a parse recognizes

A parse is accepted exactly if the start symbol derives the input. Its roots stand for the ways in
which a derivation can begin (`Grammar.DerivesAll`), each of them found once and in the order of
the last column. Without limits a parse succeeds, and the items of its columns are exactly those
that prediction and derivation call for.
-/

namespace Earley

namespace Grammar

variable {g : Grammar} {tokens : List String} {c : Chart}

/-- The state is a complete match of a symbol with the words between two positions. -/
def Matches (g : Grammar) (c : Chart) (id : Nat) (symbol : Symbol) (i k : Nat) : Prop :=
  ∃ s, c.states[id]? = some s ∧ s.isComplete = true ∧ g.matched s = .ok (some symbol) ∧
    s.origin = i ∧ s.stop = k

/-- The start production matches no symbol. -/
theorem Matches.production_ne_start {id i k : Nat} {symbol : Symbol} {s : State}
    (h : g.Matches c id symbol i k) (hs : c.states[id]? = some s) : s.production ≠ .start := by
  obtain ⟨s', hs', -, hmatched, -⟩ := h
  obtain rfl : s = s' := Option.some.inj (hs.symm.trans hs')
  intro hstart
  unfold matched at hmatched
  rw [hstart] at hmatched
  cases hmatched

/-- A production with which a derivation of the whole input from the start symbol begins. -/
inductive DerivesAll (g : Grammar) (tokens : List String) : Production → Prop
  /-- A rule of the start symbol, if its right-hand side derives the input. -/
  | rule {position : Nat} {rule : Rule} (hrule : g.rules[position]? = some rule)
    (hhead : rule.head = g.start) (hderives : g.Derives rule.rhs tokens) :
    DerivesAll g tokens (.rule position)
  /-- The start symbol itself, if it is a terminal that accepts the only word of the input. -/
  | lexeme {word : String} (htokens : tokens = [word]) (haccepts : g.accepts g.start word = true) :
    DerivesAll g tokens (.lexeme (.terminal g.start))

/-! ### Roots -/

/-- A symbol that was matched is the one that its name denotes. -/
theorem Sound.symbol?_of_matched {s : State} {phrase : List Symbol} {symbol : Symbol}
    (hg : g.WellFormed) (h : g.Sound tokens s phrase)
    (hmatched : g.matched s = .ok (some symbol)) : g.symbol? symbol.name = some symbol := by
  have hphrase := h.phrase_eq
  unfold matched at hmatched
  split at hmatched
  next => cases hmatched
  next position hposition =>
    rw [hposition] at hphrase
    obtain ⟨rule, hrule, -⟩ := Option.map_eq_some_iff.1 hphrase
    rw [hrule] at hmatched
    cases hmatched
    exact Option.map_eq_some_iff.2
      ⟨.nonterminal, hg.head rule (Array.mem_of_getElem? hrule), rfl⟩
  next symbol' hsymbol =>
    cases hmatched
    obtain ⟨name, word, rfl, -, -, haccepts⟩ := h.exists_word hsymbol
    obtain ⟨test, hcategory, -⟩ := accepts_eq_true_iff.1 haccepts
    exact Option.map_eq_some_iff.2 ⟨.terminal test, hcategory, rfl⟩

/-- The state with a number is a root exactly if it is complete, begins at the first word, and
matches a symbol with the start name. -/
theorem isRoot_eq_true_iff {id : Nat} :
    g.isRoot c id = .ok true ↔ ∃ s symbol, c.states[id]? = some s ∧ s.origin = 0 ∧
      s.isComplete = true ∧ g.matched s = .ok (some symbol) ∧ symbol.name = g.start := by
  unfold isRoot
  cases hs : c.states[id]? with
  | none => simp
  | some s =>
    dsimp only
    split
    next hbegin =>
      cases hmatched : g.matched s with
      | error e => simp [Except.map, hmatched]
      | ok symbol => cases symbol <;> simp [Except.map, hbegin, hmatched]
    next hbegin =>
      constructor
      · rintro ⟨⟩
      · rintro ⟨s', symbol, hs', horigin, hcomplete, -⟩
        cases hs'
        exact absurd ⟨horigin, hcomplete⟩ hbegin

/-- The roots of a parse are the complete matches of the start symbol with the whole input, in the
order of the last column. -/
theorem roots_of_parse {limits : Limits} {clock : Clock} {p : Parse} {symbol : Symbol}
    (hg : g.WellFormed) (h : g.parse limits clock tokens = .ok p)
    (hstart : g.symbol? g.start = some symbol) :
    ∃ column, p.chart.columns[tokens.length]? = some column ∧ p.roots.Sublist column.toList ∧
      p.roots.Nodup ∧ ∀ id, id ∈ p.roots ↔ g.Matches p.chart id symbol 0 tokens.length := by
  have hc := finished_of_parse hg h
  obtain ⟨grown, hgrown, hroots, -, hchart⟩ := parse_eq_ok_iff.1 h
  rw [← hchart] at hroots
  obtain ⟨column, hcolumn, hfilter⟩ := exists_roots hg hc.reachable
  rw [hfilter] at hroots
  rw [← Except.ok.inj hroots]
  refine ⟨column, hcolumn, List.filter_sublist, ?_, fun id => ?_⟩
  · exact ((hc.indexed.increasing hcolumn).imp fun hlt => Nat.ne_of_lt hlt).filter _
  rw [List.mem_filter, decide_eq_true_eq, isRoot_eq_true_iff, Array.mem_toList_iff]
  constructor
  · rintro ⟨hid, s, symbol', hs, horigin, hcomplete, hmatched, hname⟩
    obtain ⟨s', hs', hstop⟩ := hc.indexed.state_of_mem hcolumn hid
    obtain rfl : s = s' := Option.some.inj (hs.symm.trans hs')
    obtain ⟨phrase, hsound⟩ := hc.sound hs
    have hsymbol := hsound.symbol?_of_matched hg hmatched
    rw [hname, hstart] at hsymbol
    cases hsymbol
    exact ⟨s, hs, hcomplete, hmatched, horigin, hstop⟩
  · rintro ⟨s, hs, hcomplete, hmatched, horigin, hstop⟩
    exact ⟨hc.indexed.mem_column hs (hstop ▸ hcolumn), s, symbol, hs, horigin, hcomplete, hmatched,
      name_of_symbol? hstart⟩

/-- The chart of a parse by a declared grammar is finished, and its roots are the complete matches
of the start symbol with the whole input. -/
theorem finished_and_roots_of_parse {ds : List Declaration} {start : String} {limits : Limits}
    {clock : Clock} {p : Parse} (hg : ofDeclarations ds start = .ok g)
    (h : g.parse limits clock tokens = .ok p) :
    p.grammar = g ∧ g.Finished tokens p.chart ∧
      ∃ symbol, ∀ id, id ∈ p.roots ↔ g.Matches p.chart id symbol 0 tokens.length := by
  have hwf := wellFormed_of_ofDeclarations hg
  obtain ⟨symbol, hstart⟩ := hwf.start
  obtain ⟨column, -, -, -, hroots⟩ := roots_of_parse hwf h hstart
  obtain ⟨-, -, -, hgrammar, -⟩ := parse_eq_ok_iff.1 h
  exact ⟨hgrammar, finished_of_parse hwf h, symbol, hroots⟩

/-- So the roots of a parse are complete matches. -/
theorem finished_and_matches_of_parse {ds : List Declaration} {start : String} {limits : Limits}
    {clock : Clock} {p : Parse} (hg : ofDeclarations ds start = .ok g)
    (h : g.parse limits clock tokens = .ok p) :
    p.grammar = g ∧ g.Finished tokens p.chart ∧
      ∀ root ∈ p.roots, ∃ symbol i k, g.Matches p.chart root symbol i k := by
  obtain ⟨hgrammar, hfinished, symbol, hroots⟩ := finished_and_roots_of_parse hg h
  refine ⟨hgrammar, hfinished, fun root hroot => ?_⟩
  exact ⟨symbol, 0, tokens.length, (hroots root).1 hroot⟩

namespace Finished

variable (hc : g.Finished tokens c)

include hc

/-- What is matched is derived. -/
theorem derives_of_matches {id i k : Nat} {symbol : Symbol} (h : g.Matches c id symbol i k) :
    g.Derives [symbol] (between tokens i k) ∧ i ≤ k ∧ k ≤ tokens.length := by
  obtain ⟨s, hs, hcomplete, hmatched, rfl, rfl⟩ := h
  obtain ⟨phrase, hsound⟩ := hc.sound hs
  exact ⟨hsound.derives_of_matched hcomplete hmatched, hsound.origin_le, hsound.stop_le⟩

/-- The item of a complete match is that of a rule, with its dot at the end, or that of a word. -/
theorem production_of_matches {id i k : Nat} {symbol : Symbol} (h : g.Matches c id symbol i k) :
    ∃ s, c.states[id]? = some s ∧ s.stop = k ∧
      ((∃ position rule, g.rules[position]? = some rule ∧ symbol = .nonterminal rule.head ∧
        s.toItem = { production := .rule position, origin := i, dot := rule.rhs.length } ∧
        g.Derives rule.rhs (between tokens i k)) ∨
      ∃ name word, symbol = .terminal name ∧
        s.toItem = { production := .lexeme (.terminal name), origin := i, dot := 1 } ∧
        k = i + 1 ∧ tokens[i]? = some word ∧ g.accepts name word = true) := by
  obtain ⟨s, hs, hcomplete, hmatched, rfl, rfl⟩ := h
  obtain ⟨phrase, hsound⟩ := hc.sound hs
  have hdot := hsound.isComplete_iff.1 hcomplete
  have hphrase := hsound.phrase_eq
  have hderives := hsound.derives
  rw [hdot, List.take_length] at hderives
  refine ⟨s, hs, rfl, ?_⟩
  unfold matched at hmatched
  split at hmatched
  next => cases hmatched
  next position hposition =>
    rw [hposition] at hphrase
    obtain ⟨rule, hrule, rfl⟩ := Option.map_eq_some_iff.1 hphrase
    rw [hrule] at hmatched
    cases hmatched
    exact .inl ⟨position, rule, hrule, rfl, State.toItem_eq hposition rfl hdot, hderives⟩
  next symbol' hsymbol =>
    cases hmatched
    rw [hsymbol] at hphrase
    cases hphrase
    obtain ⟨name, word, rfl, hstop, hword, haccepts⟩ := hsound.exists_word hsymbol
    exact .inr ⟨name, word, rfl, State.toItem_eq hsymbol rfl hdot, hstop, hword, haccepts⟩

/-- Each rule whose head is predictable, and whose right-hand side derives the words between two
positions, has a complete match with them. -/
theorem exists_matches_of_rule {position i k : Nat} {rule : Rule}
    (hrule : g.rules[position]? = some rule) (hik : i ≤ k) (hk : k ≤ tokens.length)
    (hpredictable : g.Predictable tokens (.nonterminal rule.head) i)
    (hderives : g.Derives rule.rhs (between tokens i k)) :
    ∃ id s, c.states[id]? = some s ∧ s.production = .rule position ∧
      g.Matches c id (.nonterminal rule.head) i k := by
  have hcontains := (hc.contains_rule_iff hk).2 ⟨rule, hrule, Nat.le_refl _, hik, hpredictable,
    by rw [List.take_length]; exact hderives⟩
  obtain ⟨id, s, hs, hstop, hitem⟩ := (Chart.contains_iff hc.indexed).1 hcontains
  obtain ⟨phrase, hsound⟩ := hc.sound hs
  obtain ⟨hcomplete, hmatched⟩ := hsound.complete_of_rule (by rw [hitem]) hrule (by rw [hitem])
  exact ⟨id, s, hs, by rw [hitem], s, hs, hcomplete, hmatched, by rw [hitem], hstop⟩

/-- A terminal that is predictable, and accepts the word that comes next, has a complete match with
this word. -/
theorem exists_matches_of_accepts {name word : String} {i : Nat} (hword : tokens[i]? = some word)
    (hpredictable : g.Predictable tokens (.terminal name) i)
    (haccepts : g.accepts name word = true) :
    ∃ id s, c.states[id]? = some s ∧ s.production = .lexeme (.terminal name) ∧
      g.Matches c id (.terminal name) i (i + 1) := by
  have hcontains := hc.contains_lexeme_iff.2 ⟨name, word, rfl, rfl, rfl, hpredictable, hword,
    haccepts⟩
  obtain ⟨id, s, hs, hstop, hitem⟩ := (Chart.contains_iff hc.indexed).1 hcontains
  obtain ⟨phrase, hsound⟩ := hc.sound hs
  obtain ⟨hcomplete, hmatched⟩ := hsound.complete_of_lexeme (show s.production = _ by rw [hitem])
  exact ⟨id, s, hs, by rw [hitem], s, hs, hcomplete, hmatched, by rw [hitem], hstop⟩

/-- There is at most one complete match of a production between two positions. -/
theorem id_eq_of_matches {id id' i k : Nat} {symbol symbol' : Symbol} {s s' : State}
    (h : g.Matches c id symbol i k) (h' : g.Matches c id' symbol' i k)
    (hs : c.states[id]? = some s) (hs' : c.states[id']? = some s')
    (hproduction : s.production = s'.production) : id = id' := by
  obtain ⟨t, ht, hcomplete, -, horigin, hstop⟩ := h
  obtain ⟨t', ht', hcomplete', -, horigin', hstop'⟩ := h'
  obtain rfl : s = t := Option.some.inj (hs.symm.trans ht)
  obtain rfl : s' = t' := Option.some.inj (hs'.symm.trans ht')
  obtain ⟨phrase, hsound⟩ := hc.sound hs
  have hsound' := hc.sound_of_production hsound hs' hproduction.symm
  refine hc.indexed.id_unique hs hs' (hstop.trans hstop'.symm) ?_
  rw [State.toItem_eq hproduction (horigin.trans horigin'.symm) (hsound.isComplete_iff.1 hcomplete),
    State.toItem_eq rfl rfl (hsound'.isComplete_iff.1 hcomplete')]

/-- A derivation of the whole input begins with the production of some match of the start symbol. -/
theorem exists_matches_of_derivesAll {symbol : Symbol} (hstart : g.symbol? g.start = some symbol)
    {production : Production} (h : g.DerivesAll tokens production) :
    ∃ id s, c.states[id]? = some s ∧ s.production = production ∧
      g.Matches c id symbol 0 tokens.length := by
  cases h with
  | @rule position rule hrule hhead hderives =>
    have hcategory := hc.wellFormed.head rule (Array.mem_of_getElem? hrule)
    have hsymbol : symbol = .nonterminal rule.head := by
      rw [← hhead, symbol?, hcategory] at hstart
      exact (Option.some.inj hstart).symm
    subst hsymbol
    exact hc.exists_matches_of_rule hrule (Nat.zero_le _) (Nat.le_refl _) (.start hstart)
      (by rw [between_zero_length]; exact hderives)
  | @lexeme word htokens haccepts =>
    obtain ⟨test, hcategory, -⟩ := accepts_eq_true_iff.1 haccepts
    have hsymbol : symbol = .terminal g.start := by
      rw [symbol?, hcategory] at hstart
      exact (Option.some.inj hstart).symm
    subst hsymbol htokens
    exact hc.exists_matches_of_accepts rfl (.start hstart) haccepts

/-- The matches of the start symbol with the whole input belong to the productions with which
derivations begin. -/
theorem derivesAll_of_matches {symbol : Symbol} (hstart : g.symbol? g.start = some symbol)
    {id : Nat} (h : g.Matches c id symbol 0 tokens.length) :
    ∃ s, c.states[id]? = some s ∧ s.origin = 0 ∧ s.stop = tokens.length ∧ s.isComplete = true ∧
      g.DerivesAll tokens s.production := by
  obtain ⟨s, hs, hstop, hcases⟩ := hc.production_of_matches h
  have hname := name_of_symbol? hstart
  obtain ⟨s', hs', hcomplete, -, horigin, -⟩ := h
  obtain rfl : s = s' := Option.some.inj (hs.symm.trans hs')
  refine ⟨s, hs, horigin, hstop, hcomplete, ?_⟩
  rcases hcases with ⟨position, rule, hrule, rfl, hitem, hderives⟩ |
    ⟨name, word, rfl, hitem, hlength, hword, haccepts⟩
  · rw [hitem]
    rw [between_zero_length] at hderives
    exact .rule hrule hname hderives
  · obtain rfl : name = g.start := hname
    rw [hitem]
    obtain ⟨first, hfirst⟩ := List.length_eq_one_iff.1 hlength
    rw [hfirst, List.getElem?_cons_zero, Option.some.injEq] at hword
    exact .lexeme (hfirst.trans (congrArg (fun w => [w]) hword)) haccepts

/-- The start symbol derives the input exactly if something matches it with the whole input. -/
theorem derives_iff_exists_matches {symbol : Symbol} (hstart : g.symbol? g.start = some symbol) :
    g.Derives [symbol] tokens ↔ ∃ id, g.Matches c id symbol 0 tokens.length := by
  constructor
  · intro hderives
    have hbegin : ∃ production, g.DerivesAll tokens production := by
      have hname := name_of_symbol? hstart
      cases symbol with
      | nonterminal name =>
        obtain ⟨rule, hrule, rfl, hrhs⟩ := Derives.nonterminal_iff.1 hderives
        obtain ⟨position, hposition⟩ := Array.mem_iff_getElem?.1 hrule
        exact ⟨_, .rule hposition hname hrhs⟩
      | terminal name =>
        obtain rfl : name = g.start := hname
        obtain ⟨word, hword, haccepts⟩ := Derives.terminal_iff.1 hderives
        exact ⟨_, .lexeme hword haccepts⟩
    obtain ⟨production, hproduction⟩ := hbegin
    obtain ⟨id, -, -, -, hmatches⟩ := hc.exists_matches_of_derivesAll hstart hproduction
    exact ⟨id, hmatches⟩
  · rintro ⟨id, hmatches⟩
    have hderives := (hc.derives_of_matches hmatches).1
    rw [between_zero_length] at hderives
    exact hderives

end Finished

/-! ### Recognition -/

/-- An input that the start symbol derives is accepted. -/
theorem accepted_of_derives {limits : Limits} {clock : Clock} {p : Parse} {symbol : Symbol}
    (hg : g.WellFormed) (h : g.parse limits clock tokens = .ok p)
    (hstart : g.symbol? g.start = some symbol) (hderives : g.Derives [symbol] tokens) :
    p.accepted = true := by
  obtain ⟨column, -, -, -, hroots⟩ := roots_of_parse hg h hstart
  obtain ⟨id, hmatches⟩ := ((finished_of_parse hg h).derives_iff_exists_matches hstart).1 hderives
  unfold Parse.accepted
  rw [Bool.not_eq_true', List.isEmpty_eq_false_iff_exists_mem]
  exact ⟨id, (hroots id).2 hmatches⟩

/-- A parse is accepted exactly if the start symbol derives the input, and its roots are, in the
order of the last column, one state for each production with which a derivation can begin. -/
theorem accepted_iff_and_roots_of_parse {ds : List Declaration} {start : String} {limits : Limits}
    {clock : Clock} {p : Parse} (hg : ofDeclarations ds start = .ok g)
    (h : g.parse limits clock tokens = .ok p) :
    ∃ symbol column, g.symbol? g.start = some symbol ∧
      p.chart.columns[tokens.length]? = some column ∧
      (p.accepted = true ↔ g.Derives [symbol] tokens) ∧
      p.roots.Sublist column.toList ∧ p.roots.Nodup ∧
      (∀ id ∈ p.roots, ∃ s, p.chart.states[id]? = some s ∧ s.origin = 0 ∧
        s.stop = tokens.length ∧ s.isComplete = true ∧ g.DerivesAll tokens s.production) ∧
      ∀ production, g.DerivesAll tokens production →
        ∃! id, id ∈ p.roots ∧ ∃ s, p.chart.states[id]? = some s ∧ s.production = production := by
  have hwf := wellFormed_of_ofDeclarations hg
  have hc := finished_of_parse hwf h
  obtain ⟨symbol, hstart⟩ := hwf.start
  obtain ⟨column, hcolumn, hsublist, hnodup, hroots⟩ := roots_of_parse hwf h hstart
  refine ⟨symbol, column, hstart, hcolumn, ?_, hsublist, hnodup, fun id hid => ?_,
    fun production hproduction => ?_⟩
  · have haccepted : p.accepted = true ↔ ∃ id, id ∈ p.roots := by
      unfold Parse.accepted
      rw [Bool.not_eq_true', List.isEmpty_eq_false_iff_exists_mem]
    rw [haccepted, hc.derives_iff_exists_matches hstart]
    exact exists_congr hroots
  · exact hc.derivesAll_of_matches hstart ((hroots id).1 hid)
  · obtain ⟨id, s, hs, hsame, hmatches⟩ := hc.exists_matches_of_derivesAll hstart hproduction
    refine ⟨id, ⟨(hroots id).2 hmatches, s, hs, hsame⟩, ?_⟩
    rintro other ⟨hother, s', hs', hsame'⟩
    exact hc.id_eq_of_matches ((hroots other).1 hother) hmatches hs' hs (hsame'.trans hsame.symm)

/-- A grammar that recurs on the left and has an empty rule, and a word that it derives. -/
theorem accepted_iff_derives_copies :
    ∃ g p symbol, ofDeclarations [.nonterminal "S", .terminal "a" (· == "a"), .addRule "S" [],
        .addRule "S" ["S", "a"]] "S" = .ok g ∧
      g.parse .unbounded (fun _ => { nanoseconds := 0 }) ["a"] = .ok p ∧
      g.symbol? g.start = some symbol ∧ (p.accepted = true ↔ g.Derives [symbol] ["a"]) := by
  have hexists : ∃ g, ofDeclarations [.nonterminal "S", .terminal "a" (· == "a"), .addRule "S" [],
      .addRule "S" ["S", "a"]] "S" = .ok g := exists_ofDeclarations (by decide +kernel)
  obtain ⟨g, hg⟩ := hexists
  have hparse : ∃ p, g.parse .unbounded (fun _ => { nanoseconds := 0 }) ["a"] = .ok p :=
    exists_parse (wellFormed_of_ofDeclarations hg) rfl rfl ["a"]
  obtain ⟨p, hp⟩ := hparse
  obtain ⟨symbol, column, hstart, -, haccepted, -⟩ := accepted_iff_and_roots_of_parse hg hp
  exact ⟨g, p, symbol, hg, hp, hstart, haccepted⟩

/-- Without limits a parse succeeds, and its columns hold exactly the items of rules whose head is
predictable and whose first symbols derive the words up to the column, the matches of predictable
terminals with the word before the column, and the items of the start production. -/
theorem contains_iff_of_parse {ds : List Declaration} {start : String} {limits : Limits}
    {clock : Clock} (hg : ofDeclarations ds start = .ok g) (hstates : limits.maxStates = none)
    (hduration : limits.maxDuration = none) (tokens : List String) :
    ∃ p symbol, g.parse limits clock tokens = .ok p ∧ g.symbol? g.start = some symbol ∧
      p.chart.columns.size = tokens.length + 1 ∧ ∀ k ≤ tokens.length,
        (∀ position j d,
          p.chart.Contains k { production := .rule position, origin := j, dot := d } ↔
          ∃ rule, g.rules[position]? = some rule ∧ d ≤ rule.rhs.length ∧ j ≤ k ∧
            g.Predictable tokens (.nonterminal rule.head) j ∧
            g.Derives (rule.rhs.take d) (between tokens j k)) ∧
        (∀ terminal j d,
          p.chart.Contains k { production := .lexeme terminal, origin := j, dot := d } ↔
            ∃ name word, terminal = .terminal name ∧ d = 1 ∧ j + 1 = k ∧
              g.Predictable tokens (.terminal name) j ∧ tokens[j]? = some word ∧
              g.accepts name word = true) ∧
        ∀ j d, p.chart.Contains k { production := .start, origin := j, dot := d } ↔
          j = 0 ∧ (d = 0 ∧ k = 0 ∨ d = 1 ∧ g.Derives [symbol] (between tokens 0 k)) := by
  have hwf := wellFormed_of_ofDeclarations hg
  obtain ⟨symbol, hstart⟩ := hwf.start
  have hexists : ∃ p, g.parse limits clock tokens = .ok p :=
    exists_parse hwf hstates hduration tokens
  obtain ⟨p, hp⟩ := hexists
  have hc := finished_of_parse hwf hp
  refine ⟨p, symbol, hp, hstart, hc.reachable.size_columns, fun k hk => ⟨?_, ?_, ?_⟩⟩
  · exact fun position j d => hc.contains_rule_iff hk
  · exact fun terminal j d => hc.contains_lexeme_iff
  · exact fun j d => hc.contains_start_iff hstart hk

/-- The last column for two words, in a grammar whose start symbol recurs after an empty one. -/
theorem contains_start_iff_copies :
    ∃ g p symbol, ofDeclarations [.nonterminal "S", .nonterminal "E", .terminal "a" (· == "a"),
        .addRule "E" [], .addRule "S" ["E", "S", "a"], .addRule "S" []] "S" = .ok g ∧
      g.parse .unbounded (fun _ => { nanoseconds := 0 }) ["a", "a"] = .ok p ∧
      g.symbol? g.start = some symbol ∧
      (p.chart.Contains 2 { production := .start, origin := 0, dot := 1 } ↔
        g.Derives [symbol] ["a", "a"]) := by
  have hexists : ∃ g, ofDeclarations [.nonterminal "S", .nonterminal "E",
      .terminal "a" (· == "a"), .addRule "E" [], .addRule "S" ["E", "S", "a"],
      .addRule "S" []] "S" = .ok g := exists_ofDeclarations (by decide +kernel)
  obtain ⟨g, hg⟩ := hexists
  have hparse : ∃ p symbol, g.parse .unbounded (fun _ => { nanoseconds := 0 }) ["a", "a"] = .ok p ∧
      g.symbol? g.start = some symbol ∧ _ :=
    contains_iff_of_parse hg rfl rfl ["a", "a"]
  obtain ⟨p, symbol, hp, hstart, -, hitems⟩ := hparse
  refine ⟨g, p, symbol, hg, hp, hstart, ?_⟩
  have hcolumn := (hitems 2 (Nat.le_refl 2)).2.2 0 1
  simpa [between] using hcolumn

end Grammar

end Earley
