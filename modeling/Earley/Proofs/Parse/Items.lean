import Earley.Proofs.Parse.Soundness
/-!
# The items of a finished chart

A finished chart holds exactly the states that say something true. What they say is true of every
chart that a parse may come to; that none is missing follows from the columns being closed. A
state that waits for some symbols is advanced over all of them wherever they derive the words that
follow (`Grammar.Finished.exists_advanced`), by induction on the derivation, and a symbol that is
predictable is waited for (`Grammar.Finished.exists_waiting`), by induction on the prediction.
-/

namespace Earley

namespace Item

/-- The item with its dot moved over some more symbols. -/
def moved (item : Item) (n : Nat) : Item where
  production := item.production
  origin := item.origin
  dot := item.dot + n

@[simp] theorem production_moved (item : Item) (n : Nat) :
    (item.moved n).production = item.production := rfl

@[simp] theorem origin_moved (item : Item) (n : Nat) : (item.moved n).origin = item.origin := rfl

@[simp] theorem dot_moved (item : Item) (n : Nat) : (item.moved n).dot = item.dot + n := rfl

theorem moved_moved (item : Item) (m n : Nat) : (item.moved m).moved n = item.moved (m + n) := by
  rw [moved, dot_moved, Nat.add_assoc]
  rfl

/-- Items that are the same after their dots have moved were the same before. -/
theorem eq_of_moved_eq {item item' : Item} {n : Nat} (h : item.moved n = item'.moved n) :
    item = item' := by
  obtain ⟨production, origin, dot⟩ := item
  obtain ⟨production', origin', dot'⟩ := item'
  simpa [moved] using h

end Item

/-- A column of a chart holds a state with the item. -/
def Chart.Contains (c : Chart) (k : Nat) (item : Item) : Prop :=
  ∃ column id s, c.columns[k]? = some column ∧ id ∈ column ∧ c.states[id]? = some s ∧
    s.toItem = item

theorem Chart.contains_iff {c : Chart} (hc : c.Indexed) {k : Nat} {item : Item} :
    c.Contains k item ↔ ∃ (id : Nat) (s : State), c.states[id]? = some s ∧ s.stop = k ∧
      s.toItem = item := by
  constructor
  · rintro ⟨column, id, s, hcolumn, hid, hs, hitem⟩
    obtain ⟨s', hs', hstop⟩ := hc.state_of_mem hcolumn hid
    obtain rfl : s = s' := Option.some.inj (hs.symm.trans hs')
    exact ⟨id, s, hs, hstop, hitem⟩
  · rintro ⟨id, s, hs, rfl, hitem⟩
    obtain ⟨column, hcolumn, hid⟩ := hc.mem_of_state hs
    exact ⟨column, id, s, hcolumn, hid, hs, hitem⟩

namespace Grammar

variable {g : Grammar} {tokens : List String} {c : Chart}

/-- A chart that a parse may come to, and that has all that its states call for. -/
structure Finished (g : Grammar) (tokens : List String) (c : Chart) : Prop where
  /-- The grammar is well formed. -/
  wellFormed : g.WellFormed
  /-- A parse may come to the chart. -/
  reachable : g.Reachable tokens c
  /-- Nothing is missing. -/
  has_of_calls : ∀ {id : Nat} {t : State}, g.Calls c id t → c.Has t

/-- The chart of a parse is finished. -/
theorem finished_of_parse {limits : Limits} {clock : Clock} {p : Parse} (hg : g.WellFormed)
    (h : g.parse limits clock tokens = .ok p) : g.Finished tokens p.chart := by
  obtain ⟨grown, hgrown, -, -, hchart⟩ := parse_eq_ok_iff.1 h
  obtain ⟨hreach, hclosed⟩ := closed_of_closedChart hgrown
  rw [hchart]
  refine ⟨hg, hreach, fun {id t} hcalls => ?_⟩
  obtain ⟨s, hs⟩ : ∃ s, grown.chart.states[id]? = some s := by
    cases hcalls with
    | predict hs => exact ⟨_, hs⟩
    | scan hs => exact ⟨_, hs⟩
    | advance hs => exact ⟨_, hs⟩
  have hstop : s.stop ≤ tokens.length := by
    have hlt := hreach.indexed.stop_lt hs
    rw [hreach.size_columns] at hlt
    exact Nat.le_of_lt_succ hlt
  exact hclosed s.stop hstop id s hs rfl t hcalls

/-- A match of a terminal is complete. -/
theorem Sound.complete_of_lexeme {s : State} {phrase : List Symbol} {symbol : Symbol}
    (h : g.Sound tokens s phrase) (hs : s.production = .lexeme symbol) :
    s.isComplete = true ∧ g.matched s = .ok (some symbol) := by
  have hphrase := h.phrase_eq
  rw [hs] at hphrase
  cases hphrase
  refine ⟨h.isComplete_iff.2 (h.dot_of_lexeme symbol hs), ?_⟩
  unfold matched
  rw [hs]

/-- A state whose dot stands at the end of a rule is complete. -/
theorem Sound.complete_of_rule {s : State} {phrase : List Symbol} {position : Nat} {rule : Rule}
    (h : g.Sound tokens s phrase) (hs : s.production = .rule position)
    (hrule : g.rules[position]? = some rule) (hdot : s.dot = rule.rhs.length) :
    s.isComplete = true ∧ g.matched s = .ok (some (.nonterminal rule.head)) := by
  have hphrase := h.phrase_eq
  rw [hs] at hphrase
  obtain ⟨rule', hrule', rfl⟩ := Option.map_eq_some_iff.1 hphrase
  obtain rfl : rule = rule' := Option.some.inj (hrule.symm.trans hrule')
  refine ⟨h.isComplete_iff.2 hdot, ?_⟩
  unfold matched
  rw [hs]
  dsimp only
  rw [hrule]

/-- A state whose dot stands before some symbols waits for the first of them. -/
theorem Sound.awaited_of_drop {s : State} {phrase rest : List Symbol} {symbol : Symbol}
    (h : g.Sound tokens s phrase) (hphrase : phrase.drop s.dot = symbol :: rest) :
    g.awaited s = .ok (some symbol) ∧ phrase.drop (s.dot + 1) = rest := by
  constructor
  · rw [h.awaited_eq, ← List.head?_drop, hphrase, List.head?_cons]
  · rw [← List.drop_drop, hphrase, List.drop_one, List.tail_cons]

namespace Finished

variable (hc : g.Finished tokens c)

include hc

theorem indexed : c.Indexed := hc.reachable.indexed

theorem sound {id : Nat} {s : State} (hs : c.states[id]? = some s) :
    ∃ phrase, g.Sound tokens s phrase :=
  hc.reachable.sound hc.wellFormed hs

/-- The start production begins at the beginning. -/
theorem exists_start : ∃ (id : Nat) (s : State), c.states[id]? = some s ∧ s.stop = 0 ∧
    s.toItem = { production := .start, origin := 0, dot := 0 } := by
  suffices hhas : c.Has (.predict .start 1 0) by
    obtain ⟨id, s, hs, hitem, hstop, -⟩ := hhas
    exact ⟨id, s, hs, hstop, hitem⟩
  obtain ⟨growth, hseed, hgrows⟩ := hc.reachable
  obtain ⟨i, hinsert⟩ := Reachable.insert?_of_seed hseed
  exact ((Chart.inserted_of_insert? hinsert).has (Chart.indexed_ofTokens tokens)).mono
    hgrows.extension

/-- A state that waits for a symbol is advanced over each complete match of it that begins where
the state has come to. -/
theorem exists_advance {parent id : Nat} {p s : State} {symbol : Symbol}
    (hp : c.states[parent]? = some p) (hawaited : g.awaited p = .ok (some symbol))
    (hs : c.states[id]? = some s) (hcomplete : s.isComplete = true)
    (hmatched : g.matched s = .ok (some symbol)) (hmeet : p.stop = s.origin) :
    ∃ (id' : Nat) (p' : State), c.states[id']? = some p' ∧ p'.stop = s.stop ∧
      p'.toItem = p.toItem.moved 1 ∧ .complete parent id ∈ p'.sources := by
  obtain ⟨id', p', hp', hitem, hstop, hsources⟩ :=
    hc.has_of_calls (.advance hs hcomplete hmatched hp hmeet hawaited)
  exact ⟨id', p', hp', hstop, hitem, hsources _ List.mem_cons_self⟩

/-- A state that waits for a terminal finds a complete match with the word that comes next, if the
terminal accepts it. -/
theorem exists_lexeme {id : Nat} {s : State} {name word : String} (hs : c.states[id]? = some s)
    (hawaited : g.awaited s = .ok (some (.terminal name))) (hword : tokens[s.stop]? = some word)
    (haccepts : g.accepts name word = true) :
    ∃ (id' : Nat) (t : State), c.states[id']? = some t ∧ t.stop = s.stop + 1 ∧
      t.toItem = { production := .lexeme (.terminal name), origin := s.stop, dot := 1 } := by
  have hword' : c.tokens[s.stop]? = some word := by
    rw [hc.reachable.tokens_eq, List.getElem?_toArray, hword]
  obtain ⟨id', t, ht, hitem, hstop, -⟩ :=
    hc.has_of_calls (.scan hs hawaited hword' haccepts)
  exact ⟨id', t, ht, hstop, hitem⟩

/-- A state that waits for a nonterminal finds the beginnings of its rules. -/
theorem exists_predicted {id position : Nat} {s : State} {rule : Rule}
    (hs : c.states[id]? = some s)
    (hawaited : g.awaited s = .ok (some (.nonterminal rule.head)))
    (hrule : g.rules[position]? = some rule) :
    ∃ (id' : Nat) (t : State), c.states[id']? = some t ∧ t.stop = s.stop ∧
      t.toItem = { production := .rule position, origin := s.stop, dot := 0 } := by
  obtain ⟨id', t, ht, hitem, hstop, -⟩ := hc.has_of_calls (.predict hs hawaited hrule)
  exact ⟨id', t, ht, hstop, hitem⟩

/-- The phrase of a state depends on its production only. -/
theorem sound_of_production {id : Nat} {s t : State} {phrase : List Symbol}
    (hs : g.Sound tokens s phrase) (ht : c.states[id]? = some t)
    (hproduction : t.production = s.production) : g.Sound tokens t phrase := by
  obtain ⟨phrase', hsound⟩ := hc.sound ht
  have hphrase := hsound.phrase_eq
  rw [hproduction, hs.phrase_eq] at hphrase
  exact Option.some.inj hphrase ▸ hsound

/-- A state whose dot stands before some symbols is advanced to stand before the rest of them, over
each complete match of the first that begins where the state has come to. -/
theorem exists_advance_before {id child : Nat} {s t : State} {symbol : Symbol}
    {phrase rest : List Symbol} (hs : c.states[id]? = some s) (hsound : g.Sound tokens s phrase)
    (hphrase : phrase.drop s.dot = symbol :: rest) (ht : c.states[child]? = some t)
    (hchild : t.isComplete = true ∧ g.matched t = .ok (some symbol)) (hmeet : s.stop = t.origin) :
    ∃ (id' : Nat) (p : State), c.states[id']? = some p ∧ g.Sound tokens p phrase ∧
      phrase.drop p.dot = rest ∧ p.stop = t.stop ∧ p.toItem = s.toItem.moved 1 := by
  obtain ⟨hnext, hrest⟩ := hsound.awaited_of_drop hphrase
  obtain ⟨id', p, hp, hstop, hitem, -⟩ :=
    hc.exists_advance hs hnext ht hchild.1 hchild.2 hmeet
  refine ⟨id', p, hp, hc.sound_of_production hsound hp ?_, ?_, hstop, hitem⟩
  · rw [hitem, Item.production_moved]
  · rw [hitem, Item.dot_moved, hrest]

/-- A state whose dot stands before some symbols is advanced over all of them wherever they derive
the words that follow. -/
theorem exists_advanced {symbols rest phrase : List Symbol} {words : List String}
    (hderives : g.Derives symbols words) {id k : Nat} {s : State} (hs : c.states[id]? = some s)
    (hsound : g.Sound tokens s phrase) (hphrase : phrase.drop s.dot = symbols ++ rest)
    (hle : s.stop ≤ k) (hk : k ≤ tokens.length) (hwords : between tokens s.stop k = words) :
    ∃ (id' : Nat) (t : State), c.states[id']? = some t ∧ t.stop = k ∧
      t.toItem = s.toItem.moved symbols.length := by
  -- The dot moves over the first symbol by a completion, and over the others by the induction
  -- hypothesis. A nonterminal is completed by the induction hypothesis for its rule.
  induction hderives generalizing id k s rest phrase with
  | nil =>
    have hlength := length_between hle hk
    rw [hwords, List.length_nil] at hlength
    exact ⟨id, s, hs, by omega, rfl⟩
  | @word name word symbols words haccepts _ ih =>
    obtain ⟨m, hm, hmk, hfirst, hwords⟩ := exists_between_of_append hle hk
      (hwords.trans (List.singleton_append (x := word)).symm)
    obtain ⟨rfl, hword⟩ :=
      getElem?_of_between_eq_singleton hm (Nat.le_trans hmk hk) hfirst
    obtain ⟨child, t, ht, htstop, htitem⟩ :=
      hc.exists_lexeme hs (hsound.awaited_of_drop hphrase).1 hword haccepts
    obtain ⟨childPhrase, hchild⟩ := hc.sound ht
    obtain ⟨id', p, hp, hpsound, hpphrase, hpstop, hpitem⟩ := hc.exists_advance_before hs hsound
      hphrase ht (hchild.complete_of_lexeme (by rw [htitem])) (by rw [htitem])
    obtain ⟨last, u, hu, hustop, huitem⟩ :=
      ih hp hpsound hpphrase (by omega) hk (by rw [hpstop, htstop, hwords])
    exact ⟨last, u, hu, hustop, by
      rw [huitem, hpitem, Item.moved_moved, List.length_cons, Nat.add_comm]⟩
  | @expand rule symbols front back hrule _ _ ihfront ihback =>
    obtain ⟨m, hm, hmk, hfront, hback⟩ := exists_between_of_append hle hk hwords
    obtain ⟨position, hposition⟩ := Array.mem_iff_getElem?.1 hrule
    obtain ⟨first, q, hq, hqstop, hqitem⟩ :=
      hc.exists_predicted hs (hsound.awaited_of_drop hphrase).1 hposition
    obtain ⟨rulePhrase, hqsound⟩ := hc.sound hq
    have hqphrase : rulePhrase.drop q.dot = rule.rhs ++ [] := by
      have h := hqsound.phrase_eq
      rw [hqitem] at h ⊢
      rw [List.append_nil, List.drop_zero]
      exact Option.some.inj (h.symm.trans (congrArg (Option.map Rule.rhs) hposition))
    obtain ⟨child, t, ht, htstop, htitem⟩ :=
      ihfront hq hqsound hqphrase (by omega) (Nat.le_trans hmk hk) (by rw [hqstop, hfront])
    rw [hqitem] at htitem
    obtain ⟨childPhrase, hchild⟩ := hc.sound ht
    obtain ⟨id', p, hp, hpsound, hpphrase, hpstop, hpitem⟩ := hc.exists_advance_before hs hsound
      hphrase ht (hchild.complete_of_rule (by rw [htitem]; rfl) hposition
        (by rw [htitem, Item.dot_moved, Nat.zero_add])) (by rw [htitem]; rfl)
    obtain ⟨last, u, hu, hustop, huitem⟩ :=
      ihback hp hpsound hpphrase (by omega) hk (by rw [hpstop, htstop, hback])
    exact ⟨last, u, hu, hustop, by
      rw [huitem, hpitem, Item.moved_moved, List.length_cons, Nat.add_comm]⟩

/-- The beginning of a rule at a position where its head is waited for goes on to each dot whose
symbols before it derive the words that follow. -/
theorem exists_rule_state {waiting position d k : Nat} {s : State} {rule : Rule}
    (hs : c.states[waiting]? = some s)
    (hawaited : g.awaited s = .ok (some (.nonterminal rule.head)))
    (hrule : g.rules[position]? = some rule) (hd : d ≤ rule.rhs.length) (hle : s.stop ≤ k)
    (hk : k ≤ tokens.length)
    (hderives : g.Derives (rule.rhs.take d) (between tokens s.stop k)) :
    ∃ (id : Nat) (t : State), c.states[id]? = some t ∧ t.stop = k ∧
      t.toItem = { production := .rule position, origin := s.stop, dot := d } := by
  obtain ⟨first, q, hq, hqstop, hqitem⟩ := hc.exists_predicted hs hawaited hrule
  obtain ⟨phrase, hsound⟩ := hc.sound hq
  have hphrase : phrase.drop q.dot = rule.rhs.take d ++ rule.rhs.drop d := by
    have h := hsound.phrase_eq
    rw [hqitem] at h ⊢
    rw [List.take_append_drop, List.drop_zero]
    exact Option.some.inj (h.symm.trans (congrArg (Option.map Rule.rhs) hrule))
  obtain ⟨id, t, ht, hstop, hitem⟩ :=
    hc.exists_advanced hderives hq hsound hphrase (by omega) hk (by rw [hqstop])
  refine ⟨id, t, ht, hstop, ?_⟩
  rw [hitem, hqitem, List.length_take_of_le hd, Item.moved, Nat.zero_add]

/-- A symbol is waited for wherever it is predictable. -/
theorem exists_waiting {symbol : Symbol} {i : Nat} (h : g.Predictable tokens symbol i) :
    ∃ (id : Nat) (s : State), c.states[id]? = some s ∧ s.stop = i ∧
      g.awaited s = .ok (some symbol) := by
  induction h with
  | @start symbol hstart =>
    obtain ⟨id, s, hs, hstop, hitem⟩ := hc.exists_start
    obtain ⟨phrase, hsound⟩ := hc.sound hs
    refine ⟨id, s, hs, hstop, ?_⟩
    have hphrase := hsound.phrase_eq
    rw [hitem] at hphrase
    rw [hsound.awaited_eq, hitem]
    simp only [phrase?, hstart, Option.map_some, Option.some.injEq] at hphrase
    rw [← hphrase]
    rfl
  | @next rule before after symbol i j hrule hrhs _ hij hj hbefore ih =>
    obtain ⟨waiting, s, hs, rfl, hawaited⟩ := ih
    obtain ⟨position, hposition⟩ := Array.mem_iff_getElem?.1 hrule
    have hd : before.length ≤ rule.rhs.length := by
      rw [hrhs, List.length_append]
      exact Nat.le_add_right _ _
    have hderives : g.Derives (rule.rhs.take before.length) (between tokens s.stop j) := by
      rw [hrhs, List.take_left]
      exact hbefore
    obtain ⟨id, t, ht, hstop, hitem⟩ :=
      hc.exists_rule_state hs hawaited hposition hd hij hj hderives
    obtain ⟨phrase, hsound⟩ := hc.sound ht
    refine ⟨id, t, ht, hstop, ?_⟩
    have hphrase := hsound.phrase_eq
    rw [hitem] at hphrase
    rw [hsound.awaited_eq, hitem]
    simp only [phrase?, hposition, Option.map_some, Option.some.injEq] at hphrase
    rw [← hphrase, hrhs, List.getElem?_append_right (Nat.le_refl _), Nat.sub_self,
      List.getElem?_cons_zero]

/-! ### The items of a column -/

/-- A column has a state of a rule exactly if the head is predictable where the state begins and
the symbols before the dot derive the words from there to the column. -/
theorem contains_rule_iff {position j d k : Nat} (hk : k ≤ tokens.length) :
    c.Contains k { production := .rule position, origin := j, dot := d } ↔
      ∃ rule, g.rules[position]? = some rule ∧ d ≤ rule.rhs.length ∧ j ≤ k ∧
        g.Predictable tokens (.nonterminal rule.head) j ∧
        g.Derives (rule.rhs.take d) (between tokens j k) := by
  rw [Chart.contains_iff hc.indexed]
  constructor
  · rintro ⟨id, s, hs, rfl, hitem⟩
    obtain ⟨phrase, hsound⟩ := hc.sound hs
    have hphrase := hsound.phrase_eq
    have hbegin := hsound.mayBegin
    have hle := hsound.origin_le
    have hderives := hsound.derives
    have hdot := hsound.dot_le
    rw [hitem] at hphrase hbegin hle hderives hdot
    obtain ⟨rule, hrule, rfl⟩ := Option.map_eq_some_iff.1 hphrase
    obtain ⟨rule', hrule', hhead⟩ := hbegin
    obtain rfl : rule = rule' := Option.some.inj (hrule.symm.trans hrule')
    exact ⟨rule, hrule, hdot, hle, hhead, hderives⟩
  · rintro ⟨rule, hrule, hd, hjk, hhead, hderives⟩
    obtain ⟨waiting, s, hs, rfl, hawaited⟩ := hc.exists_waiting hhead
    exact hc.exists_rule_state hs hawaited hrule hd hjk hk hderives

/-- A column has a match of a terminal exactly if the terminal is predictable at the position before
it and accepts the word that stands there. -/
theorem contains_lexeme_iff {symbol : Symbol} {j d k : Nat} :
    c.Contains k { production := .lexeme symbol, origin := j, dot := d } ↔
      ∃ name word, symbol = .terminal name ∧ d = 1 ∧ j + 1 = k ∧
        g.Predictable tokens (.terminal name) j ∧ tokens[j]? = some word ∧
        g.accepts name word = true := by
  rw [Chart.contains_iff hc.indexed]
  constructor
  · rintro ⟨id, s, hs, rfl, hitem⟩
    obtain ⟨phrase, hsound⟩ := hc.sound hs
    have hproduction : s.production = .lexeme symbol := by rw [hitem]
    obtain ⟨name, word, rfl, hstop, hword, haccepts⟩ := hsound.exists_word hproduction
    have hdot := hsound.dot_of_lexeme _ hproduction
    have hbegin := hsound.mayBegin
    rw [hitem] at hdot hbegin hstop hword
    exact ⟨name, word, rfl, hdot, hstop.symm, hbegin.2, hword, haccepts⟩
  · rintro ⟨name, word, rfl, rfl, rfl, hpredictable, hword, haccepts⟩
    obtain ⟨waiting, s, hs, rfl, hawaited⟩ := hc.exists_waiting hpredictable
    exact hc.exists_lexeme hs hawaited hword haccepts

/-- A column has a state of the start production exactly if this state has begun at the beginning
and stands there, or is complete and the start symbol derives the words up to the column. -/
theorem contains_start_iff {symbol : Symbol} (hstart : g.symbol? g.start = some symbol)
    {j d k : Nat} (hk : k ≤ tokens.length) :
    c.Contains k { production := .start, origin := j, dot := d } ↔
      j = 0 ∧ (d = 0 ∧ k = 0 ∨ d = 1 ∧ g.Derives [symbol] (between tokens 0 k)) := by
  rw [Chart.contains_iff hc.indexed]
  constructor
  · rintro ⟨id, s, hs, rfl, hitem⟩
    obtain ⟨phrase, hsound⟩ := hc.sound hs
    have hphrase := hsound.phrase_eq
    have hbegin := hsound.mayBegin
    have hderives := hsound.derives
    have hdot := hsound.dot_le
    rw [hitem] at hphrase hbegin hderives hdot
    obtain rfl : j = 0 := hbegin
    simp only [phrase?, hstart, Option.map_some, Option.some.injEq] at hphrase
    subst hphrase
    refine ⟨rfl, ?_⟩
    rcases Nat.le_one_iff_eq_zero_or_eq_one.1 hdot with rfl | rfl
    · have hnone : between tokens 0 s.stop = [] := hderives.eq_nil
      have hlength := length_between (Nat.zero_le s.stop) hk
      rw [hnone, List.length_nil] at hlength
      exact .inl ⟨rfl, by omega⟩
    · exact .inr ⟨rfl, hderives⟩
  · obtain ⟨first, s, hs, hstop, hitem⟩ := hc.exists_start
    rintro ⟨rfl, ⟨rfl, rfl⟩ | ⟨rfl, hderives⟩⟩
    · exact ⟨first, s, hs, hstop, hitem⟩
    · obtain ⟨phrase, hsound⟩ := hc.sound hs
      have hphrase : phrase.drop s.dot = [symbol] ++ [] := by
        have h := hsound.phrase_eq
        rw [hitem] at h ⊢
        simp only [phrase?, hstart, Option.map_some, Option.some.injEq] at h
        rw [← h]
        rfl
      obtain ⟨id, t, ht, htstop, htitem⟩ := hc.exists_advanced hderives hs hsound hphrase
        (by omega) hk (by rw [hstop])
      exact ⟨id, t, ht, htstop, by rw [htitem, hitem]; rfl⟩

end Finished

end Grammar

end Earley
