import Earley.Proofs.Grammar.Derivation
import Earley.Proofs.Grammar.WellFormed
import Earley.Parse.Basic
/-!
# What the states of a chart say

Every state of a chart that a parse may come to says something true about the input: the symbols
before its dot derive the words from its origin to its column, and its production was predictable
where it began (`Grammar.Sound`). An insertion that is called for keeps this, since a state is only
advanced over what a child has matched.
-/

namespace Earley

namespace Grammar

variable {g : Grammar} {tokens : List String} {c : Chart} {s s' : State} {phrase : List Symbol}

/-- The symbols that a production matches, one after the other. -/
def phrase? (g : Grammar) : Production → Option (List Symbol)
  | .start => (g.symbol? g.start).map fun symbol => [symbol]
  | .rule id => g.rules[id]?.map Rule.rhs
  | .lexeme symbol => some [symbol]

/-- A production may begin at a position: the start production at the beginning, and the others
where their symbol is predictable. -/
def MayBegin (g : Grammar) (tokens : List String) : Production → Nat → Prop
  | .start, origin => origin = 0
  | .rule id, origin => ∃ rule, g.rules[id]? = some rule ∧
      g.Predictable tokens (.nonterminal rule.head) origin
  | .lexeme symbol, origin => symbol.isTerminal = true ∧ g.Predictable tokens symbol origin

/-- What a state says about the input is true. -/
structure Sound (g : Grammar) (tokens : List String) (s : State) (phrase : List Symbol) : Prop where
  /-- The phrase is that of the production. -/
  phrase_eq : g.phrase? s.production = some phrase
  /-- The number of symbols is noted correctly. -/
  length_eq : s.length = phrase.length
  /-- The dot stands inside of the phrase or at its end. -/
  dot_le : s.dot ≤ phrase.length
  /-- The match goes forward. -/
  origin_le : s.origin ≤ s.stop
  /-- The match does not go past the end of the input. -/
  stop_le : s.stop ≤ tokens.length
  /-- The symbols before the dot derive the words of the match. -/
  derives : g.Derives (phrase.take s.dot) (between tokens s.origin s.stop)
  /-- The production was predictable where the match began. -/
  mayBegin : g.MayBegin tokens s.production s.origin
  /-- The matches of terminals are always complete. -/
  dot_of_lexeme : ∀ symbol, s.production = .lexeme symbol → s.dot = 1

namespace Sound

theorem of_extends (h : g.Sound tokens s phrase) (hext : s.Extends s') :
    g.Sound tokens s' phrase := by
  constructor
  · rw [hext.production]; exact h.phrase_eq
  · rw [hext.length]; exact h.length_eq
  · rw [hext.dot]; exact h.dot_le
  · rw [hext.origin, hext.stop]; exact h.origin_le
  · rw [hext.stop]; exact h.stop_le
  · rw [hext.dot, hext.origin, hext.stop]; exact h.derives
  · rw [hext.production, hext.origin]; exact h.mayBegin
  · rw [hext.production, hext.dot]; exact h.dot_of_lexeme

theorem isComplete_iff (h : g.Sound tokens s phrase) :
    s.isComplete = true ↔ s.dot = phrase.length := by
  have hdot := h.dot_le
  simp only [State.isComplete, h.length_eq, decide_eq_true_eq]
  omega

/-- A state waits for the symbol after its dot. -/
theorem awaited_eq (h : g.Sound tokens s phrase) : g.awaited s = .ok phrase[s.dot]? := by
  unfold awaited
  split
  next hcomplete =>
    rw [h.isComplete_iff.1 hcomplete, List.getElem?_eq_none (Nat.le_refl _)]
  next hcomplete =>
    have hphrase := h.phrase_eq
    split
    next hstart =>
      rw [hstart] at hphrase
      obtain ⟨symbol, hsymbol, rfl⟩ := Option.map_eq_some_iff.1 hphrase
      have hdot : s.dot = 0 := by
        have := h.dot_le
        have := mt h.isComplete_iff.2 hcomplete
        simp only [List.length_singleton] at *
        omega
      rw [hdot, hsymbol]
      rfl
    next id hid =>
      rw [hid] at hphrase
      obtain ⟨rule, hrule, rfl⟩ := Option.map_eq_some_iff.1 hphrase
      rw [hrule]
    next symbol hsymbol =>
      rw [hsymbol] at hphrase
      obtain rfl := Option.some.inj hphrase
      exact absurd (h.isComplete_iff.2 (h.dot_of_lexeme symbol hsymbol)) hcomplete

theorem getElem?_of_awaited (h : g.Sound tokens s phrase) {symbol : Symbol}
    (hawaited : g.awaited s = .ok (some symbol)) : phrase[s.dot]? = some symbol :=
  Except.ok.inj (h.awaited_eq.symm.trans hawaited)

/-- It is known what a state is a match of. -/
theorem exists_matched (h : g.Sound tokens s phrase) : ∃ symbol, g.matched s = .ok symbol := by
  have hphrase := h.phrase_eq
  unfold matched
  split
  next => exact ⟨none, rfl⟩
  next id hid =>
    rw [hid] at hphrase
    obtain ⟨rule, hrule, -⟩ := Option.map_eq_some_iff.1 hphrase
    rw [hrule]
    exact ⟨_, rfl⟩
  next symbol _ => exact ⟨some symbol, rfl⟩

/-- A complete state derives the words of its match from the symbol that it is a match of. -/
theorem derives_of_matched (h : g.Sound tokens s phrase) (hcomplete : s.isComplete = true)
    {symbol : Symbol} (hmatched : g.matched s = .ok (some symbol)) :
    g.Derives [symbol] (between tokens s.origin s.stop) := by
  have hderives := h.derives
  rw [h.isComplete_iff.1 hcomplete, List.take_length] at hderives
  have hphrase := h.phrase_eq
  unfold matched at hmatched
  split at hmatched
  next => cases hmatched
  next id hid =>
    rw [hid] at hphrase
    obtain ⟨rule, hrule, rfl⟩ := Option.map_eq_some_iff.1 hphrase
    rw [hrule] at hmatched
    cases hmatched
    exact .of_rule (Array.mem_of_getElem? hrule) hderives
  next symbol' hsymbol =>
    rw [hsymbol] at hphrase
    cases hphrase
    cases hmatched
    exact hderives

/-- The match of a word is that of a terminal that accepts the word where the match began. -/
theorem exists_word (h : g.Sound tokens s phrase) {symbol : Symbol}
    (hs : s.production = .lexeme symbol) :
    ∃ name word, symbol = .terminal name ∧ s.stop = s.origin + 1 ∧
      tokens[s.origin]? = some word ∧ g.accepts name word = true := by
  have hphrase := h.phrase_eq
  have hbegin := h.mayBegin
  have hderives := h.derives
  rw [h.dot_of_lexeme symbol hs] at hderives
  rw [hs] at hphrase hbegin
  cases hphrase
  cases symbol with
  | nonterminal name => cases hbegin.1
  | terminal name =>
    obtain ⟨word, hword, haccepts⟩ := Derives.terminal_iff.1 hderives
    obtain ⟨hstop, hword⟩ := getElem?_of_between_eq_singleton h.origin_le h.stop_le hword
    exact ⟨name, word, rfl, hstop, hword, haccepts⟩

/-- The symbol that a state waits for is predictable where the state has come to. -/
theorem predictable_of_awaited (h : g.Sound tokens s phrase) {symbol : Symbol}
    (hawaited : g.awaited s = .ok (some symbol)) : g.Predictable tokens symbol s.stop := by
  have hnext := h.getElem?_of_awaited hawaited
  have hphrase := h.phrase_eq
  have hbegin := h.mayBegin
  obtain ⟨hlt, hsymbol⟩ := List.getElem?_eq_some_iff.1 hnext
  cases hproduction : s.production with
  | start =>
    rw [hproduction] at hphrase hbegin
    obtain ⟨start, hstart, rfl⟩ := Option.map_eq_some_iff.1 hphrase
    have hdot : s.dot = 0 := by simpa using hlt
    have hderives := h.derives
    rw [hdot, show s.origin = 0 from hbegin] at hderives
    have hlength := length_between (Nat.zero_le s.stop) h.stop_le
    rw [hderives.eq_nil, List.length_nil] at hlength
    simp only [hdot, List.getElem?_cons_zero, Option.some.injEq] at hnext
    rw [show s.stop = 0 by omega, ← hnext]
    exact .start hstart
  | rule id =>
    rw [hproduction] at hphrase hbegin
    obtain ⟨rule, hrule, rfl⟩ := Option.map_eq_some_iff.1 hphrase
    obtain ⟨rule', hrule', hhead⟩ := hbegin
    obtain rfl : rule = rule' := Option.some.inj (hrule.symm.trans hrule')
    have hrhs : rule.rhs = rule.rhs.take s.dot ++ symbol :: rule.rhs.drop (s.dot + 1) := by
      rw [← hsymbol, ← List.drop_eq_getElem_cons hlt, List.take_append_drop]
    exact .next (Array.mem_of_getElem? hrule) hrhs hhead h.origin_le h.stop_le h.derives
  | lexeme name =>
    rw [hproduction] at hphrase
    cases hphrase
    rw [h.dot_of_lexeme name hproduction] at hlt
    exact absurd hlt (Nat.lt_irrefl 1)

/-- The match of the start production that is about to begin. -/
theorem seed (hg : g.WellFormed) (tokens : List String) :
    ∃ phrase, g.Sound tokens (.predict .start 1 0) phrase := by
  obtain ⟨symbol, hsymbol⟩ := hg.start
  refine ⟨[symbol], ?_, rfl, Nat.zero_le _, Nat.le_refl 0, Nat.zero_le _, .nil, rfl, ?_⟩
  · simp [State.predict, phrase?, hsymbol]
  · exact fun _ h => nomatch h

/-- What a state calls for is true if all states of the chart say what is true. -/
theorem of_calls {id : Nat} (htokens : c.tokens = tokens.toArray)
    (hall : ∀ (id : Nat) (s : State), c.states[id]? = some s → ∃ phrase, g.Sound tokens s phrase)
    (h : g.Calls c id s) : ∃ phrase, g.Sound tokens s phrase := by
  cases h with
  | @predict s position rule hs hawaited hrule =>
    obtain ⟨phrase, hsound⟩ := hall id s hs
    refine ⟨rule.rhs, ?_, rfl, Nat.zero_le _, Nat.le_refl _, hsound.stop_le, ?_, ?_, ?_⟩
    · simp [State.predict, phrase?, hrule]
    · simpa [State.predict] using Derives.nil
    · exact ⟨rule, hrule, hsound.predictable_of_awaited hawaited⟩
    · exact fun _ h => nomatch h
  | @scan s name word hs hawaited hword haccepts =>
    obtain ⟨phrase, hsound⟩ := hall id s hs
    have hword' : tokens[s.stop]? = some word := by simpa [htokens] using hword
    refine ⟨[.terminal name], rfl, rfl, Nat.le_refl 1, Nat.le_succ _,
      (List.getElem?_eq_some_iff.1 hword').1, ?_, ?_, ?_⟩
    · simpa [State.lexeme, between_succ hword'] using Derives.of_accepts haccepts
    · exact ⟨rfl, hsound.predictable_of_awaited hawaited⟩
    · exact fun _ _ => rfl
  | @advance s p parent symbol hs hcomplete hmatched hp hmeet hawaited =>
    obtain ⟨childPhrase, hchild⟩ := hall id s hs
    obtain ⟨phrase, hparent⟩ := hall parent p hp
    have hnext := hparent.getElem?_of_awaited hawaited
    obtain ⟨hlt, hsymbol⟩ := List.getElem?_eq_some_iff.1 hnext
    refine ⟨phrase, hparent.phrase_eq, hparent.length_eq, hlt, ?_, hchild.stop_le, ?_,
      hparent.mayBegin, fun name hname => ?_⟩
    · exact Nat.le_trans hparent.origin_le (hmeet ▸ hchild.origin_le)
    · have hderives := hparent.derives.append (hchild.derives_of_matched hcomplete hmatched)
      rw [← hmeet, between_append hparent.origin_le (hmeet ▸ hchild.origin_le)] at hderives
      simpa [State.advance, List.take_add_one, hnext] using hderives
    · have hphrase := hparent.phrase_eq
      rw [show p.production = .lexeme name from hname] at hphrase
      cases hphrase
      rw [hparent.dot_of_lexeme name hname] at hlt
      exact absurd hlt (Nat.lt_irrefl 1)

end Sound

/-- All states of a chart that a parse may come to say what is true. -/
theorem Reachable.sound (hg : g.WellFormed) (h : g.Reachable tokens c) {id : Nat}
    (hs : c.states[id]? = some s) : ∃ phrase, g.Sound tokens s phrase := by
  suffices hall : c.tokens = tokens.toArray ∧
      ∀ (id : Nat) (s : State), c.states[id]? = some s → ∃ phrase, g.Sound tokens s phrase from
    hall.2 id s hs
  refine h.keeps (P := fun c => c.tokens = tokens.toArray ∧ ∀ (id : Nat) (s : State),
    c.states[id]? = some s → ∃ phrase, g.Sound tokens s phrase) (fun hinsert => ?_)
    (fun hc hcalls hinsert => ?_)
  · refine ⟨Chart.tokens_of_insert? hinsert, fun id t ht => ?_⟩
    rcases (Chart.inserted_of_insert? hinsert).state_cases ht with ht | ⟨-, rfl⟩ | ⟨u, hu, -⟩
    · simp [Chart.ofTokens] at ht
    · exact Sound.seed hg tokens
    · simp [Chart.ofTokens] at hu
  · refine ⟨(Chart.tokens_of_insert? hinsert).trans hc.1, fun id t ht => ?_⟩
    rcases (Chart.inserted_of_insert? hinsert).state_cases ht with
      ht | ⟨-, rfl⟩ | ⟨u, hu, rfl, -⟩
    · exact hc.2 id t ht
    · exact Sound.of_calls hc.1 hc.2 hcalls
    · obtain ⟨phrase, hsound⟩ := hc.2 id u hu
      exact ⟨phrase, hsound.of_extends (.merge u _)⟩

end Grammar

end Earley
