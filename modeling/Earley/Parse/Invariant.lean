import Earley.Chart.Insertion
import Earley.Chart.Layered
import Earley.Parse.Column
/-!
# What a parse does to its chart

A parse changes its chart only by inserting states that one of its states calls for: a rule about
to begin, a word that is matched, or a state advanced over a child (`Grammar.Calls`). The charts
that arise in this way from that of the words alone are the reachable ones (`Grammar.Reachable`),
and whatever such insertions keep holds of the finished chart. The first such property is that the
chart is layered (`Grammar.Reachable.layered`).

Each function of the parse is described by one lemma, which says how it may change the chart while
a column is closed (`Grammar.Progress`) and that what was called for is there afterwards. A column
is closed when nothing that its states call for is missing (`Grammar.Closed`). The last of these
lemmas, `closed_of_closeColumns`, says that a finished chart is reachable and all of its columns
are closed.
-/

namespace Earley

namespace Grammar

variable {g : Grammar} {c c' : Chart} {s s' : State}

theorem awaited_of_extends (h : s.Extends s') : g.awaited s' = g.awaited s := by
  unfold awaited
  rw [h.isComplete, h.production, h.dot]

theorem matched_of_extends (h : s.Extends s') : g.matched s' = g.matched s := by
  unfold matched
  rw [h.production]

/-- A state that waits for a symbol is not complete. -/
theorem isComplete_of_awaited {symbol : Symbol} (h : g.awaited s = .ok (some symbol)) :
    s.isComplete = false := by
  unfold awaited at h
  split at h
  next => cases h
  next hcomplete => simpa using hcomplete

/-! ### Insertions that are called for -/

/-- The states that the state `id` of a chart calls for. -/
inductive Calls (g : Grammar) (c : Chart) (id : Nat) : State → Prop
  /-- A state that waits for a nonterminal calls for the beginning of its rules. -/
  | predict {s : State} {position : Nat} {rule : Rule} (hs : c.states[id]? = some s)
    (hawaited : g.awaited s = .ok (some (.nonterminal rule.head)))
    (hrule : g.rules[position]? = some rule) :
    Calls g c id (.predict (.rule position) rule.rhs.length s.stop)
  /-- A state that waits for a terminal calls for a match with the next word. -/
  | scan {s : State} {name word : String} (hs : c.states[id]? = some s)
    (hawaited : g.awaited s = .ok (some (.terminal name)))
    (hword : c.tokens[s.stop]? = some word) (haccepts : g.accepts name word = true) :
    Calls g c id (.lexeme (.terminal name) s.stop)
  /-- A complete state calls for an advance of the states that wait, where it began, for what it
  matches. -/
  | advance {s p : State} {parent : Nat} {symbol : Symbol} (hs : c.states[id]? = some s)
    (hcomplete : s.isComplete = true) (hmatched : g.matched s = .ok (some symbol))
    (hp : c.states[parent]? = some p) (hmeet : p.stop = s.origin)
    (hawaited : g.awaited p = .ok (some symbol)) :
    Calls g c id (p.advance s.stop (.complete parent id))

/-- What a given state calls for, according to what it waits for or whether it is complete. -/
theorem Calls.inv {id : Nat} {t : State} (h : g.Calls c id t) (hs : c.states[id]? = some s) :
    (∃ position rule, g.awaited s = .ok (some (.nonterminal rule.head)) ∧
      g.rules[position]? = some rule ∧ t = .predict (.rule position) rule.rhs.length s.stop) ∨
    (∃ name word, g.awaited s = .ok (some (.terminal name)) ∧ c.tokens[s.stop]? = some word ∧
      g.accepts name word = true ∧ t = .lexeme (.terminal name) s.stop) ∨
    (∃ symbol parent p, s.isComplete = true ∧ g.matched s = .ok (some symbol) ∧
      c.states[parent]? = some p ∧ p.stop = s.origin ∧ g.awaited p = .ok (some symbol) ∧
      t = p.advance s.stop (.complete parent id)) := by
  cases h with
  | @predict s' position rule hs' hawaited hrule =>
    obtain rfl : s = s' := Option.some.inj (hs.symm.trans hs')
    exact .inl ⟨position, rule, hawaited, hrule, rfl⟩
  | @scan s' name word hs' hawaited hword haccepts =>
    obtain rfl : s = s' := Option.some.inj (hs.symm.trans hs')
    exact .inr (.inl ⟨name, word, hawaited, hword, haccepts, rfl⟩)
  | @advance s' p parent symbol hs' hcomplete hmatched hp hmeet hawaited =>
    obtain rfl : s = s' := Option.some.inj (hs.symm.trans hs')
    exact .inr (.inr ⟨symbol, parent, p, hcomplete, hmatched, hp, hmeet, hawaited, rfl⟩)

/-- What a state calls for in a chart, it still calls for later. -/
theorem Calls.mono {id : Nat} (h : g.Calls c id s) (hext : c.Extends c') : g.Calls c' id s := by
  cases h with
  | predict hs hawaited hrule =>
    obtain ⟨s', hs', hlater⟩ := hext.states hs
    rw [← hlater.stop]
    exact .predict hs' ((awaited_of_extends hlater).trans hawaited) hrule
  | scan hs hawaited hword haccepts =>
    obtain ⟨s', hs', hlater⟩ := hext.states hs
    rw [← hlater.stop] at hword ⊢
    exact .scan hs' ((awaited_of_extends hlater).trans hawaited) (hext.tokens ▸ hword) haccepts
  | advance hs hcomplete hmatched hp hmeet hawaited =>
    obtain ⟨s', hs', hlater⟩ := hext.states hs
    obtain ⟨p', hp', hlater'⟩ := hext.states hp
    rw [← hlater.stop, ← hlater'.advance]
    exact .advance hs' (hlater.isComplete.trans hcomplete)
      ((matched_of_extends hlater).trans hmatched) hp'
      (hlater'.stop.trans (hmeet.trans hlater.origin.symm))
      ((awaited_of_extends hlater').trans hawaited)

/-- A chart grows by insertions that are called for. -/
inductive Grows (g : Grammar) (c : Chart) : Chart → Prop
  /-- Nothing was inserted. -/
  | refl : Grows g c c
  /-- Something that a state calls for was inserted. -/
  | insert {c' c'' : Chart} {id : Nat} {s : State} {i : Insertion} (hgrows : Grows g c c')
    (hcalls : g.Calls c' id s) (hinsert : c'.insert? s = some (i, c'')) : Grows g c c''

namespace Grows

theorem trans {c'' : Chart} (h : g.Grows c c') (h' : g.Grows c' c'') : g.Grows c c'' := by
  induction h' with
  | refl => exact h
  | insert _ hcalls hinsert ih => exact .insert ih hcalls hinsert

theorem extension (h : g.Grows c c') : c.Extends c' := by
  induction h with
  | refl => exact .refl c
  | insert _ _ hinsert ih => exact ih.trans (Chart.inserted_of_insert? hinsert).extension

/-- What every insertion that is called for keeps is kept as the chart grows. -/
theorem keeps {P : Chart → Prop} (h : g.Grows c c') (hc : P c)
    (hP : ∀ {c c' : Chart} {id : Nat} {s : State} {i : Insertion}, P c → g.Calls c id s →
      c.insert? s = some (i, c') → P c') : P c' := by
  induction h with
  | refl => exact hc
  | insert _ hcalls hinsert ih => exact hP ih hcalls hinsert

theorem indexed (h : g.Grows c c') (hc : c.Indexed) : c'.Indexed :=
  h.keeps hc fun hc _ hinsert => (Chart.inserted_of_insert? hinsert).indexed hc

theorem mass_le (h : g.Grows c c') : c.mass ≤ c'.mass :=
  h.keeps (P := fun c' => c.mass ≤ c'.mass) (Nat.le_refl _) fun hc _ hinsert =>
    Nat.le_trans hc (Chart.inserted_of_insert? hinsert).mass_le

end Grows

/-- A chart that a parse of some words may come to. -/
def Reachable (g : Grammar) (tokens : List String) (c : Chart) : Prop :=
  ∃ growth, Growth.seed tokens = .ok growth ∧ g.Grows growth.chart c

namespace Reachable

variable {tokens : List String}

theorem grows (h : g.Reachable tokens c) (h' : g.Grows c c') : g.Reachable tokens c' := by
  obtain ⟨growth, hseed, hgrows⟩ := h
  exact ⟨growth, hseed, hgrows.trans h'⟩

/-- The parse begins with the insertion of a match of the start production. -/
theorem insert?_of_seed {growth : Growth} (h : Growth.seed tokens = .ok growth) :
    ∃ i, (Chart.ofTokens tokens).insert? (.predict .start 1 0) = some (i, growth.chart) := by
  unfold Growth.seed Growth.insert at h
  split at h
  next => cases h
  next i chart hinsert => cases h; exact ⟨i, hinsert⟩

/-- What holds of the chart of the words alone, with a match of the start production, and is kept by
every insertion that is called for holds of every reachable chart. -/
theorem keeps {P : Chart → Prop} (h : g.Reachable tokens c)
    (hseed : ∀ {c : Chart} {i : Insertion},
      (Chart.ofTokens tokens).insert? (.predict .start 1 0) = some (i, c) → P c)
    (hP : ∀ {c c' : Chart} {id : Nat} {s : State} {i : Insertion}, P c → g.Calls c id s →
      c.insert? s = some (i, c') → P c') : P c := by
  obtain ⟨growth, hgrowth, hgrows⟩ := h
  obtain ⟨i, hinsert⟩ := insert?_of_seed hgrowth
  exact hgrows.keeps (hseed hinsert) hP

theorem indexed (h : g.Reachable tokens c) : c.Indexed :=
  h.keeps
    (fun hinsert => (Chart.inserted_of_insert? hinsert).indexed (Chart.indexed_ofTokens tokens))
    fun hc _ hinsert => (Chart.inserted_of_insert? hinsert).indexed hc

theorem tokens_eq (h : g.Reachable tokens c) : c.tokens = tokens.toArray :=
  h.keeps (fun hinsert => Chart.tokens_of_insert? hinsert)
    fun hc _ hinsert => (Chart.tokens_of_insert? hinsert).trans hc

theorem size_columns (h : g.Reachable tokens c) : c.columns.size = tokens.length + 1 := by
  refine h.keeps (P := fun c => c.columns.size = tokens.length + 1) (fun hinsert => ?_) ?_
  · rw [Chart.size_columns_of_insert? hinsert, Chart.size_columns]
    exact Array.size_replicate
  · exact fun hc _ hinsert => (Chart.size_columns_of_insert? hinsert).trans hc

/-- All states that a parse inserts are linked back to the chart. -/
theorem linksBack_of_calls {id : Nat} (h : g.Calls c id s) : c.LinksBack s := by
  cases h with
  | predict => exact c.linksBack_predict _ _ _
  | scan => exact c.linksBack_lexeme _ _
  | advance _ _ _ hp => exact Chart.linksBack_advance hp _ _

theorem layered (h : g.Reachable tokens c) : c.Layered := by
  have hall : c.Indexed ∧ c.Layered := by
    refine h.keeps (P := fun c => c.Indexed ∧ c.Layered) (fun hinsert => ?_)
      (fun hc hcalls hinsert => ?_)
    · have hindexed := Chart.indexed_ofTokens tokens
      exact ⟨(Chart.inserted_of_insert? hinsert).indexed hindexed,
        Chart.layered_of_insert? (Chart.layered_ofTokens tokens) hindexed
          (Chart.linksBack_predict _ _ _ _) hinsert⟩
    · exact ⟨(Chart.inserted_of_insert? hinsert).indexed hc.1,
        Chart.layered_of_insert? hc.2 hc.1 (linksBack_of_calls hcalls) hinsert⟩
  exact hall.2

/-- A match comes to a position no earlier than the one where it began. -/
theorem origin_le_stop (h : g.Reachable tokens c) {id : Nat} {s : State}
    (hs : c.states[id]? = some s) : s.origin ≤ s.stop := by
  refine h.keeps
    (P := fun c => ∀ (id : Nat) (s : State), c.states[id]? = some s → s.origin ≤ s.stop)
    (fun hinsert id t ht => ?_) (fun hc hcalls hinsert id t ht => ?_) id s hs
  · rcases (Chart.inserted_of_insert? hinsert).state_cases ht with ht | ⟨-, rfl⟩ | ⟨u, hu, -⟩
    · simp [Chart.ofTokens] at ht
    · exact Nat.le_refl 0
    · simp [Chart.ofTokens] at hu
  · rcases (Chart.inserted_of_insert? hinsert).state_cases ht with
      ht | ⟨-, rfl⟩ | ⟨u, hu, rfl, -⟩
    · exact hc id t ht
    · cases hcalls with
      | predict => exact Nat.le_refl _
      | scan => exact Nat.le_succ _
      | advance hs _ _ hp hmeet =>
        have hparent := hc _ _ hp
        have hchild := hc _ _ hs
        exact Nat.le_trans hparent (hmeet ▸ hchild)
    · exact hc id u hu

end Reachable

/-! ### One lemma for each function -/

/-- How a chart may change while its column `k` is closed. -/
structure Progress (g : Grammar) (k : Nat) (growth grown : Growth) : Prop where
  /-- Only insertions that are called for are made. -/
  grows : g.Grows growth.chart grown.chart
  /-- Earlier columns are not touched. -/
  earlier : ∀ j, j < k → grown.chart.columns[j]? = growth.chart.columns[j]?
  /-- If no change is noted, then the column itself is not touched either. -/
  unchanged : grown.changed = false → grown.chart.columns[k]? = growth.chart.columns[k]?
  /-- A change that was noted stays noted. -/
  changed : growth.changed = true → grown.changed = true
  /-- An empty match that was noted stays noted. -/
  sawEmpty : growth.sawEmpty = true → grown.sawEmpty = true
  /-- If a change is noted, then the chart has become heavier, unless it was noted before. -/
  heavier : grown.changed = true → growth.changed = true ∨ growth.chart.mass < grown.chart.mass

namespace Progress

variable {k : Nat} {growth grown : Growth}

theorem refl (g : Grammar) (k : Nat) (growth : Growth) : g.Progress k growth growth :=
  ⟨.refl, fun _ _ => rfl, fun _ => rfl, id, id, .inl⟩

theorem trans {further : Growth} (h : g.Progress k growth grown)
    (h' : g.Progress k grown further) : g.Progress k growth further where
  grows := h.grows.trans h'.grows
  earlier j hj := (h'.earlier j hj).trans (h.earlier j hj)
  unchanged hsame := by
    cases hgrown : grown.changed with
    | false => exact (h'.unchanged hsame).trans (h.unchanged hgrown)
    | true => rw [h'.changed hgrown] at hsame; cases hsame
  changed hchanged := h'.changed (h.changed hchanged)
  sawEmpty hempty := h'.sawEmpty (h.sawEmpty hempty)
  heavier hchanged := by
    rcases h'.heavier hchanged with hgrown | hmass
    · refine (h.heavier hgrown).imp_right fun hmass => ?_
      exact Nat.lt_of_lt_of_le hmass h'.grows.mass_le
    · exact .inr (Nat.lt_of_le_of_lt h.grows.mass_le hmass)

end Progress

variable {k id : Nat} {growth grown : Growth}

/-- The insertion of a state that is called for. -/
theorem progress_of_insert (hc : growth.chart.Indexed) (hcalls : g.Calls growth.chart id s)
    (hk : k ≤ s.stop) (h : growth.insert s = .ok grown) :
    g.Progress k growth grown ∧ grown.chart.Has s := by
  unfold Growth.insert at h
  split at h
  next => cases h
  next i chart hinsert =>
    cases h
    have hinserted := Chart.inserted_of_insert? hinsert
    refine ⟨⟨.insert .refl hcalls hinsert, fun j hj => ?_, fun hsame => ?_, fun hchanged => ?_,
      fun hempty => hempty, fun hchanged => ?_⟩, hinserted.has hc⟩
    · exact hinserted.columns_eq (Nat.ne_of_lt (Nat.lt_of_lt_of_le hj hk))
    · rw [Bool.or_eq_false_iff] at hsame
      rw [hinserted.eq_of_isChange_eq_false hsame.2]
    · rw [hchanged, Bool.true_or]
    · exact (Bool.or_eq_true_iff.1 hchanged).imp_right hinserted.mass_lt

/-- Steps that make progress, and each get something done, make progress together. -/
theorem progress_of_foldlM {α : Type} {step : Growth → α → Except ParseError Growth}
    {steps : List α} (done : α → Chart → Prop)
    (hmono : ∀ {a : α} {c c' : Chart}, done a c → c.Extends c' → done a c')
    (hstep : ∀ {before after : Growth} {a : α}, a ∈ steps → g.Progress k growth before →
      step before a = .ok after → g.Progress k before after ∧ done a after.chart)
    (h : steps.foldlM step growth = .ok grown) :
    g.Progress k growth grown ∧ ∀ a ∈ steps, done a grown.chart := by
  induction steps generalizing growth with
  | nil => cases h; exact ⟨.refl g k _, fun _ hmem => nomatch hmem⟩
  | cons a rest ih =>
    rw [List.foldlM_cons] at h
    cases hnext : step growth a with
    | error e => rw [hnext] at h; cases h
    | ok next =>
      rw [hnext] at h
      obtain ⟨hfirst, hdone⟩ := hstep List.mem_cons_self (.refl g k growth) hnext
      obtain ⟨hrest, hall⟩ := ih
        (fun hmem hbefore hafter =>
          hstep (List.mem_cons_of_mem _ hmem) (hfirst.trans hbefore) hafter) h
      refine ⟨hfirst.trans hrest, fun b hb => ?_⟩
      rcases List.mem_cons.1 hb with rfl | hb
      · exact hmono hdone hrest.grows.extension
      · exact hall b hb

/-- A state that waits for a nonterminal gets the beginnings of some of its rules. -/
theorem progress_of_predictRules {head : String} {positions : List Nat}
    (hc : growth.chart.Indexed) (hs : growth.chart.states[id]? = some s)
    (hawaited : g.awaited s = .ok (some (.nonterminal head)))
    (hpositions : positions ⊆ g.rulesFor head)
    (h : positions.foldlM (g.predictRule s.stop) growth = .ok grown) :
    g.Progress s.stop growth grown ∧ ∀ position ∈ positions, ∀ rule,
      g.rules[position]? = some rule →
        grown.chart.Has (.predict (.rule position) rule.rhs.length s.stop) := by
  refine progress_of_foldlM
    (fun position c => ∀ rule, g.rules[position]? = some rule →
      c.Has (.predict (.rule position) rule.rhs.length s.stop))
    (fun hhas hext rule hrule => (hhas rule hrule).mono hext)
    (fun {before after position} hmem hbefore hafter => ?_) h
  obtain ⟨rule, hrule, hhead⟩ := mem_rulesFor.1 (hpositions hmem)
  simp only [predictRule, hrule] at hafter
  have hcalls : g.Calls growth.chart id (.predict (.rule position) rule.rhs.length s.stop) :=
    .predict hs (hhead ▸ hawaited) hrule
  obtain ⟨hprogress, hhas⟩ := progress_of_insert (hbefore.grows.indexed hc)
    (hcalls.mono hbefore.grows.extension) (Nat.le_refl s.stop) hafter
  refine ⟨hprogress, fun rule' hrule' => ?_⟩
  rw [hrule] at hrule'
  exact Option.some.inj hrule' ▸ hhas

/-- A state that waits for a nonterminal gets the beginnings of its rules. -/
theorem progress_of_predict {head : String} (hc : growth.chart.Indexed)
    (hs : growth.chart.states[id]? = some s)
    (hawaited : g.awaited s = .ok (some (.nonterminal head)))
    (h : g.predict head s.stop growth = .ok grown) :
    g.Progress s.stop growth grown ∧ ∀ position ∈ g.rulesFor head, ∀ rule,
      g.rules[position]? = some rule →
        grown.chart.Has (.predict (.rule position) rule.rhs.length s.stop) :=
  progress_of_predictRules hc hs hawaited (List.Subset.refl _) h

/-- A state that waits for a terminal gets a match with the next word, if the terminal accepts it.
The match stands in the next column, and so is no change to the current one. -/
theorem progress_of_scan {name : String} (hc : growth.chart.Indexed)
    (hs : growth.chart.states[id]? = some s)
    (hawaited : g.awaited s = .ok (some (.terminal name)))
    (h : g.scan (.terminal name) s.stop growth = .ok grown) :
    g.Progress s.stop growth grown ∧ ∀ word, growth.chart.tokens[s.stop]? = some word →
      g.accepts name word = true → grown.chart.Has (.lexeme (.terminal name) s.stop) := by
  unfold scan at h
  split at h
  next => cases h
  next word hword =>
    split at h
    next haccepts =>
      cases hinserted : growth.insert (.lexeme (.terminal name) s.stop) with
      | error e => rw [hinserted] at h; cases h
      | ok inserted =>
        rw [hinserted] at h
        cases h
        have hcalls : g.Calls growth.chart id (.lexeme (.terminal name) s.stop) :=
          .scan hs hawaited hword haccepts
        obtain ⟨hprogress, hhas⟩ :=
          progress_of_insert (k := s.stop + 1) hc hcalls (Nat.le_refl _) hinserted
        exact ⟨⟨hprogress.grows, fun j hj => hprogress.earlier j (Nat.lt_succ_of_lt hj),
          fun _ => hprogress.earlier s.stop (Nat.lt_succ_self _), fun hchanged => hchanged,
          hprogress.sawEmpty, .inl⟩, fun _ _ _ => hhas⟩
    next hrejects =>
      cases h
      refine ⟨.refl g _ growth, fun word' hword' haccepts => ?_⟩
      rw [hword] at hword'
      cases hword'
      exact absurd haccepts hrejects

/-- A complete state gets an advance of a single state, if that one waited for what it matches. -/
theorem progress_of_advanceOver {before : Growth} {symbol : Symbol} {parent : Nat} {p : State}
    (hc : growth.chart.Indexed) (hs : growth.chart.states[id]? = some s)
    (hcomplete : s.isComplete = true) (hmatched : g.matched s = .ok (some symbol))
    (hp : growth.chart.states[parent]? = some p) (hmeet : p.stop = s.origin)
    (hbefore : g.Progress s.stop growth before)
    (h : g.advanceOver symbol id s.stop before parent = .ok grown) :
    g.Progress s.stop before grown ∧ (g.awaited p = .ok (some symbol) →
      grown.chart.Has (p.advance s.stop (.complete parent id))) := by
  obtain ⟨p', hp', hlater⟩ := hbefore.grows.extension.states hp
  simp only [advanceOver, hp', awaited_of_extends hlater] at h
  split at h
  next => cases h
  next awaited hawaited =>
    split at h
    next heq =>
      subst heq
      have hcalls : g.Calls growth.chart id (p.advance s.stop (.complete parent id)) :=
        .advance hs hcomplete hmatched hp hmeet hawaited
      rw [hlater.advance] at h
      obtain ⟨hprogress, hhas⟩ := progress_of_insert (hbefore.grows.indexed hc)
        (hcalls.mono hbefore.grows.extension) (Nat.le_refl s.stop) h
      exact ⟨hprogress, fun _ => hhas⟩
    next hne =>
      cases h
      refine ⟨.refl g _ _, fun hwaits => ?_⟩
      rw [hawaited] at hwaits
      exact absurd (Except.ok.inj hwaits) hne

/-- A complete state gets an advance of those among some states of the column where it began that
waited for what it matches. -/
theorem progress_of_advances {symbol : Symbol} {column : Array Nat} {parents : List Nat}
    (hc : growth.chart.Indexed) (hs : growth.chart.states[id]? = some s)
    (hcomplete : s.isComplete = true) (hmatched : g.matched s = .ok (some symbol))
    (hcolumn : growth.chart.columns[s.origin]? = some column) (hparents : parents ⊆ column.toList)
    (h : parents.foldlM (g.advanceOver symbol id s.stop) growth = .ok grown) :
    g.Progress s.stop growth grown ∧ ∀ parent ∈ parents, ∀ p,
      growth.chart.states[parent]? = some p → g.awaited p = .ok (some symbol) →
        grown.chart.Has (p.advance s.stop (.complete parent id)) := by
  refine progress_of_foldlM
    (fun parent c => ∀ p, growth.chart.states[parent]? = some p →
      g.awaited p = .ok (some symbol) → c.Has (p.advance s.stop (.complete parent id)))
    (fun hhas hext p hp hawaited => (hhas p hp hawaited).mono hext)
    (fun {before after parent} hmem hbefore hafter => ?_) h
  obtain ⟨p, hp, hmeet⟩ := hc.state_of_mem hcolumn (Array.mem_toList_iff.1 (hparents hmem))
  obtain ⟨hprogress, hhas⟩ :=
    progress_of_advanceOver hc hs hcomplete hmatched hp hmeet hbefore hafter
  refine ⟨hprogress, fun q hq => ?_⟩
  rw [hp] at hq
  exact Option.some.inj hq ▸ hhas

/-- A complete state gets an advance of every state that waited for what it matches. -/
theorem progress_of_complete (hc : growth.chart.Indexed)
    (hs : growth.chart.states[id]? = some s) (hcomplete : s.isComplete = true)
    (h : g.complete id s s.stop growth = .ok grown) :
    g.Progress s.stop growth grown ∧ ∀ symbol, g.matched s = .ok (some symbol) →
      ∀ parent p, growth.chart.states[parent]? = some p → p.stop = s.origin →
        g.awaited p = .ok (some symbol) →
          grown.chart.Has (p.advance s.stop (.complete parent id)) := by
  unfold complete at h
  split at h
  next => cases h
  next column hcolumn =>
    split at h
    next => cases h
    next hnone =>
      cases h
      refine ⟨.refl g _ _, fun symbol hmatched => ?_⟩
      rw [hnone] at hmatched
      cases hmatched
    next symbol hmatched =>
      obtain ⟨hprogress, hall⟩ :=
        progress_of_advances hc hs hcomplete hmatched hcolumn (List.Subset.refl _) h
      refine ⟨hprogress, fun symbol' hmatched' parent p hp hmeet hawaited => ?_⟩
      rw [hmatched] at hmatched'
      cases hmatched'
      have hmem : parent ∈ column := hc.mem_column hp (hmeet ▸ hcolumn)
      exact hall parent (Array.mem_toList_iff.2 hmem) p hp hawaited

/-- Everything that the state `id` of one chart calls for is in the other. -/
def Answers (g : Grammar) (c : Chart) (id : Nat) (c' : Chart) : Prop :=
  ∀ t, g.Calls c id t → c'.Has t

/-- A complete state that is visited gets what it calls for, and is noted if it is empty. -/
theorem progress_of_visit_complete (hc : growth.chart.Indexed)
    (hs : growth.chart.states[id]? = some s) (hcomplete : s.isComplete = true)
    (h : g.visit s.stop id growth = .ok grown) :
    g.Progress s.stop growth grown ∧ g.Answers growth.chart id grown.chart ∧
      (s.origin = s.stop → grown.sawEmpty = true) := by
  simp only [visit, hs, if_pos hcomplete] at h
  let noted : Growth := { growth with sawEmpty := growth.sawEmpty || s.origin = s.stop }
  have hnoted : g.Progress s.stop growth noted :=
    ⟨.refl, fun _ _ => rfl, fun _ => rfl, fun hchanged => hchanged,
      fun hempty => by simp [noted, hempty], .inl⟩
  have hc' : noted.chart.Indexed := hc
  obtain ⟨hprogress, hall⟩ := progress_of_complete hc' hs hcomplete h
  refine ⟨hnoted.trans hprogress, fun t hcalls => ?_, fun hempty => hprogress.sawEmpty ?_⟩
  · rcases hcalls.inv hs with ⟨_, _, hawaited, -⟩ | ⟨_, _, hawaited, -⟩ |
      ⟨symbol, parent, p, -, hmatched, hp, hmeet, hawaited, rfl⟩
    · simp [isComplete_of_awaited hawaited] at hcomplete
    · simp [isComplete_of_awaited hawaited] at hcomplete
    · exact hall symbol hmatched parent p hp hmeet hawaited
  · simp [noted, hempty]

/-- A state that is visited before it is complete gets what it calls for. -/
theorem progress_of_visit_incomplete (hc : growth.chart.Indexed)
    (hs : growth.chart.states[id]? = some s) (hcomplete : ¬ s.isComplete = true)
    (h : g.visit s.stop id growth = .ok grown) :
    g.Progress s.stop growth grown ∧ g.Answers growth.chart id grown.chart := by
  simp only [visit, hs, if_neg hcomplete] at h
  split at h
  next => cases h
  next hnothing =>
    cases h
    refine ⟨.refl g _ _, fun t hcalls => ?_⟩
    rcases hcalls.inv hs with ⟨_, _, hawaited, -⟩ | ⟨_, _, hawaited, -⟩ | ⟨_, _, _, h, -⟩
    · simp [hnothing] at hawaited
    · simp [hnothing] at hawaited
    · exact absurd h hcomplete
  next head hhead =>
    obtain ⟨hprogress, hall⟩ := progress_of_predict hc hs hhead h
    refine ⟨hprogress, fun t hcalls => ?_⟩
    rcases hcalls.inv hs with ⟨position, rule, hawaited, hrule, rfl⟩ | ⟨_, _, hawaited, -⟩ |
      ⟨_, _, _, h, -⟩
    · obtain rfl : head = rule.head := by simpa [hhead] using hawaited
      exact hall position (mem_rulesFor.2 ⟨rule, hrule, rfl⟩) rule hrule
    · simp [hhead] at hawaited
    · exact absurd h hcomplete
  next name hname =>
    have hanswers {c : Chart} (hall : ∀ word, growth.chart.tokens[s.stop]? = some word →
        g.accepts name word = true → c.Has (.lexeme (.terminal name) s.stop)) :
        g.Answers growth.chart id c := by
      intro t hcalls
      rcases hcalls.inv hs with
        ⟨_, _, hawaited, -⟩ | ⟨name', word, hawaited, hword, haccepts, rfl⟩ | ⟨_, _, _, h, -⟩
      · simp [hname] at hawaited
      · obtain rfl : name = name' := by simpa [hname] using hawaited
        exact hall word hword haccepts
      · exact absurd h hcomplete
    split at h
    next =>
      obtain ⟨hprogress, hall⟩ := progress_of_scan hc hs hname h
      exact ⟨hprogress, hanswers hall⟩
    next hlast =>
      cases h
      refine ⟨.refl g _ _, hanswers fun word hword => ?_⟩
      exact absurd (Array.getElem?_eq_some_iff.1 hword).1 hlast

/-- A state that is visited gets what it calls for. -/
theorem progress_of_visit (hc : growth.chart.Indexed) (hs : growth.chart.states[id]? = some s)
    (h : g.visit s.stop id growth = .ok grown) :
    g.Progress s.stop growth grown ∧ g.Answers growth.chart id grown.chart ∧
      (s.isComplete = true → s.origin = s.stop → grown.sawEmpty = true) := by
  by_cases hcomplete : s.isComplete = true
  · obtain ⟨hprogress, hanswers, hempty⟩ := progress_of_visit_complete hc hs hcomplete h
    exact ⟨hprogress, hanswers, fun _ => hempty⟩
  · obtain ⟨hprogress, hanswers⟩ := progress_of_visit_incomplete hc hs hcomplete h
    exact ⟨hprogress, hanswers, fun h => absurd h hcomplete⟩

variable {limits : Limits} {clock : Clock}

/-- Checking the limits counts the check and does nothing else. -/
theorem eq_of_check (h : limits.check clock growth = .ok grown) :
    grown = { growth with checks := growth.checks + 1 } := by
  unfold Limits.check at h
  cases hstates : limits.checkStates growth.chart with
  | error e => rw [hstates] at h; cases h
  | ok _ =>
    rw [hstates] at h
    cases hduration : limits.checkDuration (clock growth.checks) with
    | error e => simp [hduration, bind, Except.bind] at h
    | ok _ =>
      simp only [hduration, bind, Except.bind, Except.ok.injEq] at h
      exact h.symm

theorem progress_of_check (h : limits.check clock growth = .ok grown) :
    g.Progress k growth grown := by
  rw [eq_of_check h]
  exact ⟨.refl, fun _ _ => rfl, fun _ => rfl, fun hchanged => hchanged, fun hempty => hempty, .inl⟩

/-- Every state that stands in the column at the end of a walk, from the entry on where it began,
was visited on the way. -/
theorem progress_of_walk {fuel i : Nat} (hc : growth.chart.Indexed)
    (h : g.walk limits clock k fuel i growth = .ok grown) :
    g.Progress k growth grown ∧ ∀ column, grown.chart.columns[k]? = some column →
      ∀ j id, i ≤ j → column[j]? = some id → ∃ before s,
        g.Progress k growth before ∧ g.Progress k before grown ∧
        before.chart.states[id]? = some s ∧ s.stop = k ∧
        g.Answers before.chart id grown.chart ∧
        (s.isComplete = true → s.origin = k → grown.sawEmpty = true) := by
  induction fuel generalizing i growth with
  | zero => cases h
  | succ fuel ih =>
    unfold walk at h
    split at h
    next => cases h
    next column hcolumn =>
      split at h
      next hend =>
        cases h
        refine ⟨.refl g k _, fun column' hcolumn' j id hij hj => ?_⟩
        rw [hcolumn] at hcolumn'
        cases hcolumn'
        have hsize := Array.getElem?_eq_none_iff.1 hend
        exact absurd (Array.getElem?_eq_some_iff.1 hj).1 (by omega)
      next first hfirst =>
        split at h
        next => cases h
        next visited hvisit =>
          split at h
          next => cases h
          next checked hcheck =>
            obtain ⟨s, hs, rfl⟩ := hc.state_of_mem hcolumn (Array.mem_of_getElem? hfirst)
            obtain ⟨hvisited, hanswers, hempty⟩ := progress_of_visit hc hs hvisit
            have hchecked := hvisited.trans (progress_of_check hcheck)
            obtain ⟨hrest, hall⟩ := ih (hchecked.grows.indexed hc) h
            have hlater := (progress_of_check hcheck).trans hrest
            refine ⟨hchecked.trans hrest, fun column' hcolumn' j id hij hj => ?_⟩
            rcases Nat.eq_or_lt_of_le hij with rfl | hlt
            · have hkept := (hchecked.trans hrest).grows.extension.getElem?_column
                hcolumn hcolumn' hfirst
              obtain rfl : first = id := Option.some.inj (hkept.symm.trans hj)
              exact ⟨growth, s, .refl g _ _, hchecked.trans hrest, hs, rfl,
                fun t hcalls => (hanswers t hcalls).mono hlater.grows.extension,
                fun hcomplete horigin => hlater.sawEmpty (hempty hcomplete horigin)⟩
            · obtain ⟨before, t, hbefore, hafter, hrest⟩ := hall column' hcolumn' j id hlt hj
              exact ⟨before, t, hchecked.trans hbefore, hafter, hrest⟩

/-! ### Closed columns -/

/-- A column is closed when the chart has all that the states of the column call for. -/
def Closed (g : Grammar) (c : Chart) (k : Nat) : Prop :=
  ∀ id s, c.states[id]? = some s → s.stop = k → g.Answers c id c

/-- What a state calls for later it called for before, unless further states have come, where it
began, to wait for what it matches. -/
theorem Calls.of_extends {t : State} (hext : c.Extends c') (hc : c.Indexed) (hc' : c'.Indexed)
    (hs : c.states[id]? = some s)
    (hsame : s.isComplete = true → c'.columns[s.origin]? = c.columns[s.origin]?)
    (h : g.Calls c' id t) : g.Calls c id t := by
  obtain ⟨s', hs', hlater⟩ := hext.states hs
  rcases h.inv hs' with ⟨position, rule, hawaited, hrule, rfl⟩ |
    ⟨name, word, hawaited, hword, haccepts, rfl⟩ |
    ⟨symbol, parent, p', hcomplete, hmatched, hp', hmeet, hawaited, rfl⟩
  · rw [awaited_of_extends hlater] at hawaited
    rw [hlater.stop]
    exact .predict hs hawaited hrule
  · rw [awaited_of_extends hlater] at hawaited
    rw [hlater.stop] at hword ⊢
    exact .scan hs hawaited (hext.tokens ▸ hword) haccepts
  · rw [hlater.isComplete] at hcomplete
    rw [matched_of_extends hlater] at hmatched
    rw [hlater.origin] at hmeet
    obtain ⟨column, hcolumn, hmem⟩ := hc'.mem_of_state hp'
    rw [hmeet, hsame hcomplete] at hcolumn
    obtain ⟨p, hp, hstop⟩ := hc.state_of_mem hcolumn hmem
    have hlater' := hext.state_extends hp hp'
    rw [awaited_of_extends hlater'] at hawaited
    rw [hlater'.advance, hlater.stop]
    exact .advance hs hcomplete hmatched hp hstop hawaited

/-- A column remains closed as long as it and the columns before it are not touched. -/
theorem Closed.of_extends {tokens : List String} (hreach : g.Reachable tokens c)
    (hreach' : g.Reachable tokens c') (hext : c.Extends c')
    (hsame : ∀ j ≤ k, c'.columns[j]? = c.columns[j]?) (h : g.Closed c k) : g.Closed c' k := by
  intro id s' hs' hk t hcalls
  obtain ⟨column, hcolumn, hmem⟩ := hreach'.indexed.mem_of_state hs'
  rw [hk, hsame k (Nat.le_refl k)] at hcolumn
  obtain ⟨s, hs, hstop⟩ := hreach.indexed.state_of_mem hcolumn hmem
  have horigin : s.origin ≤ k := hstop ▸ hreach.origin_le_stop hs
  have hcalled : g.Calls c id t := hcalls.of_extends hext hreach.indexed hreach'.indexed hs
    fun _ => hsame s.origin horigin
  exact (h id s hs hstop t hcalled).mono hext

/-- A walk closes a column, unless it has changed the chart and has met an empty match. -/
theorem closed_of_walk {tokens : List String} {fuel : Nat}
    (hreach : g.Reachable tokens growth.chart)
    (h : g.walk limits clock k fuel 0 growth = .ok grown)
    (hlast : (grown.changed && grown.sawEmpty) = false) : g.Closed grown.chart k := by
  obtain ⟨hprogress, hall⟩ := progress_of_walk hreach.indexed h
  have hreach' := hreach.grows hprogress.grows
  intro id s' hs' hk t hcalls
  obtain ⟨column, hcolumn, hmem⟩ := hreach'.indexed.mem_of_state hs'
  rw [hk] at hcolumn
  obtain ⟨j, hj⟩ := Array.mem_iff_getElem?.1 hmem
  obtain ⟨before, s, hbefore, hafter, hs, hstop, hanswers, hempty⟩ :=
    hall column hcolumn j id (Nat.zero_le j) hj
  have hreach'' := hreach.grows hbefore.grows
  refine hanswers t (hcalls.of_extends hafter.grows.extension hreach''.indexed hreach'.indexed hs
    fun hcomplete => ?_)
  rcases Nat.lt_or_eq_of_le (hstop ▸ hreach''.origin_le_stop hs) with hlt | heq
  · exact hafter.earlier s.origin hlt
  · have hunchanged : grown.changed = false := by
      rw [hempty hcomplete heq, Bool.and_true] at hlast
      exact hlast
    exact heq ▸ hafter.unchanged hunchanged

/-- Walks over a column go on until it is closed. -/
theorem closed_of_closeColumn {tokens : List String} {walks visits : Nat}
    (hreach : g.Reachable tokens growth.chart)
    (h : g.closeColumn limits clock k walks visits growth = .ok grown) :
    g.Grows growth.chart grown.chart ∧
      (∀ j, j < k → grown.chart.columns[j]? = growth.chart.columns[j]?) ∧
      g.Closed grown.chart k := by
  induction walks generalizing growth with
  | zero => cases h
  | succ walks ih =>
    unfold closeColumn at h
    split at h
    next => cases h
    next walked hwalk =>
      have hfresh : g.Reachable tokens
          { growth with changed := false, sawEmpty := false : Growth }.chart := hreach
      have hprogress := (progress_of_walk hfresh.indexed hwalk).1
      split at h
      next =>
        obtain ⟨hgrows, hearlier, hclosed⟩ := ih (hreach.grows hprogress.grows) h
        exact ⟨hprogress.grows.trans hgrows,
          fun j hj => (hearlier j hj).trans (hprogress.earlier j hj), hclosed⟩
      next hlast =>
        cases h
        exact ⟨hprogress.grows, hprogress.earlier,
          closed_of_walk hfresh hwalk (by simpa using hlast)⟩

section

variable {ε σ : Type} {step : σ → Nat → Except ε σ} {m : Nat} {first last : σ}

/-- Steps that are numbered from zero: the last one comes after the others. -/
theorem foldlM_range_succ :
    (List.range (m + 1)).foldlM step first =
      (List.range m).foldlM step first >>= fun before => step before m := by
  simp only [List.range_succ, List.foldlM_append, List.foldlM_cons, List.foldlM_nil, bind_pure]

theorem foldlM_range_succ_eq_ok_iff :
    (List.range (m + 1)).foldlM step first = .ok last ↔
      ∃ before, (List.range m).foldlM step first = .ok before ∧ step before m = .ok last := by
  rw [foldlM_range_succ]
  cases (List.range m).foldlM step first with
  | error e => simp [bind, Except.bind]
  | ok before => simp [bind, Except.bind]

/-- Steps that succeed one after the other go through stages. -/
theorem exists_stages_of_foldlM (h : (List.range m).foldlM step first = .ok last) :
    ∃ stages : Nat → σ, stages 0 = first ∧ stages m = last ∧
      ∀ k < m, step (stages k) k = .ok (stages (k + 1)) := by
  induction m generalizing last with
  | zero =>
    cases h
    exact ⟨fun _ => first, rfl, rfl, fun k hk => absurd hk (Nat.not_lt_zero k)⟩
  | succ m ih =>
    obtain ⟨before, hbefore, hstep⟩ := foldlM_range_succ_eq_ok_iff.1 h
    obtain ⟨stages, hfirst, hlast, hsteps⟩ := ih hbefore
    -- The last stage is added behind those that were found.
    refine ⟨fun k => if k ≤ m then stages k else last, ?_, ?_, fun k hk => ?_⟩
    · simpa using hfirst
    · exact if_neg (Nat.not_succ_le_self m)
    · rcases Nat.lt_succ_iff_lt_or_eq.1 hk with hlt | rfl
      · simpa [Nat.le_of_lt hlt, Nat.succ_le_of_lt hlt] using hsteps k hlt
      · simpa [hlast, Nat.not_succ_le_self] using hstep

end

/-- While columns are closed one after the other, those that were closed remain so. -/
theorem closed_of_stages {tokens : List String} {walks visits n : Nat} {stages : Nat → Growth}
    (hreach : g.Reachable tokens (stages 0).chart)
    (hsteps : ∀ k < n, g.closeColumn limits clock k walks visits (stages k) =
      .ok (stages (k + 1))) :
    ∀ k ≤ n, g.Reachable tokens (stages k).chart ∧ (∀ j < k, g.Closed (stages k).chart j) ∧
      g.Grows (stages k).chart (stages n).chart := by
  induction n with
  | zero =>
    intro k hk
    obtain rfl := Nat.le_zero.1 hk
    exact ⟨hreach, fun j hj => absurd hj (Nat.not_lt_zero j), .refl⟩
  | succ n ih =>
    have hearlier := ih fun k hk => hsteps k (Nat.lt_succ_of_lt hk)
    obtain ⟨hbefore, hclosed, -⟩ := hearlier n (Nat.le_refl n)
    obtain ⟨hgrows, hkept, hlast⟩ :=
      closed_of_closeColumn hbefore (hsteps n (Nat.lt_succ_self n))
    intro k hk
    rcases Nat.lt_or_eq_of_le hk with hlt | rfl
    · obtain ⟨hreach', hclosed', hgrows'⟩ := hearlier k (Nat.le_of_lt_succ hlt)
      exact ⟨hreach', hclosed', hgrows'.trans hgrows⟩
    · refine ⟨hbefore.grows hgrows, fun j hj => ?_, .refl⟩
      rcases Nat.lt_succ_iff_lt_or_eq.1 hj with hlt | rfl
      · exact (hclosed j hlt).of_extends hbefore (hbefore.grows hgrows) hgrows.extension
          fun i hi => hkept i (Nat.lt_of_le_of_lt hi hlt)
      · exact hlast

/-- The columns of a finished chart are closed. -/
theorem closed_of_closeColumns {tokens : List String} {n : Nat}
    (hreach : g.Reachable tokens growth.chart)
    (h : g.closeColumns limits clock n growth = .ok grown) :
    g.Reachable tokens grown.chart ∧ ∀ k ≤ n, g.Closed grown.chart k := by
  obtain ⟨stages, rfl, rfl, hsteps⟩ := exists_stages_of_foldlM h
  obtain ⟨hfinal, hclosed, -⟩ := closed_of_stages hreach hsteps (n + 1) (Nat.le_refl _)
  exact ⟨hfinal, fun k hk => hclosed k (Nat.lt_succ_of_le hk)⟩

end Grammar

end Earley
