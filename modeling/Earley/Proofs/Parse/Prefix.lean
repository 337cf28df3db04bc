import Earley.Proofs.Parse.Correspondence
import Earley.Proofs.Parse.Termination
/-!
# Columns depend on the words before them only

An input and a longer one that begins with it are parsed side by side. On the columns that both
charts have, the two parses do the same: every function of the parse takes corresponding charts to
corresponding charts (`Growth.InStep`), with the same notes on changes and empty matches, so that
walks end together and are repeated together (`Grammar.Walks.mirrors`, `Grammar.Closes.mirrors`).
The two parses differ in the last column of the shorter one, where only the longer one has a word to
match. The match stands in a column that the shorter one lacks.

After the last column that they share, the longer parse leaves the shared columns alone, as they are
closed (`Grammar.Grows.keepsUpTo`). So the finished charts hold the same states, place by place
(`Grammar.same_columns_of_parse_append`).
-/

namespace Earley

namespace Growth

/-- Two charts under construction correspond, and the same is noted about the current walk. -/
structure Mirrors (growth growth' : Growth) : Prop where
  /-- The charts correspond. -/
  chart : growth.chart.Mirrors growth'.chart
  /-- Either both were changed or none. -/
  changed : growth'.changed = growth.changed
  /-- An empty match was met on both sides or on none. -/
  sawEmpty : growth'.sawEmpty = growth.sawEmpty

/-- Two parses went on in step: what they have come to corresponds, and the states that stood at the
same place before still do. -/
structure InStep (growth growth' grown grown' : Growth) : Prop where
  /-- The later charts correspond. -/
  mirrors : grown.Mirrors grown'
  /-- States stay at the same place. -/
  places : ∀ {id id' : Nat}, growth.chart.SamePlace growth'.chart id id' →
    grown.chart.SamePlace grown'.chart id id'

variable {growth growth' grown grown' : Growth} {s s' : State}

theorem Mirrors.inStep (h : growth.Mirrors growth') : InStep growth growth' growth growth' :=
  ⟨h, fun hplace => hplace⟩

theorem InStep.trans {later later' : Growth} (h : InStep growth growth' grown grown')
    (h' : InStep grown grown' later later') : InStep growth growth' later later' :=
  ⟨h'.mirrors, fun hplace => h'.places (h.places hplace)⟩

/-- An insertion that succeeds notes whether it was a change. -/
theorem inserted_of_insert (h : growth.insert s = .ok grown) :
    ∃ i, growth.chart.Inserted s i grown.chart ∧
      grown.changed = (growth.changed || i.isChange) ∧ grown.sawEmpty = growth.sawEmpty := by
  unfold insert at h
  split at h
  next => cases h
  next i chart hinsert =>
    cases h
    exact ⟨i, Chart.inserted_of_insert? hinsert, rfl, rfl⟩

/-- Corresponding states are inserted in step. -/
theorem Mirrors.insert (h : growth.Mirrors growth') (hs : growth.chart.SameState growth'.chart s s')
    (hgrown : growth.insert s = .ok grown) (hgrown' : growth'.insert s' = .ok grown') :
    InStep growth growth' grown grown' := by
  obtain ⟨i, hi, hchanged, hempty⟩ := inserted_of_insert hgrown
  obtain ⟨i', hi', hchanged', hempty'⟩ := inserted_of_insert hgrown'
  obtain ⟨hchart, hsame⟩ := h.chart.of_inserted hs hi hi'
  refine ⟨⟨hchart, ?_, ?_⟩, fun hplace => hplace.mono hi.extension hi'.extension⟩
  · rw [hchanged, hchanged', h.changed, hsame]
  · rw [hempty, hempty', h.sawEmpty]

end Growth

section

variable {ε σ α : Type} {step step' : σ → α → Except ε σ} {first first' last last' : σ}

/-- What steps keep on two runs side by side is kept by the runs. -/
theorem rel_of_foldlM {P : σ → σ → Prop} {R : α → α → Prop} {xs xs' : List α}
    (hxs : List.Forall₂ R xs xs') (hfirst : P first first') (h : xs.foldlM step first = .ok last)
    (h' : xs'.foldlM step' first' = .ok last')
    (hstep : ∀ {a a' b b' : σ} {x x' : α}, P a a' → R x x' → step a x = .ok b →
      step' a' x' = .ok b' → P b b') : P last last' := by
  induction hxs generalizing first first' with
  | nil =>
    cases h
    cases h'
    exact hfirst
  | @cons x x' _ _ hx _ ih =>
    rw [List.foldlM_cons] at h h'
    cases hnext : step first x with
    | error e => rw [hnext] at h; cases h
    | ok next =>
      cases hnext' : step' first' x' with
      | error e => rw [hnext'] at h'; cases h'
      | ok next' =>
        rw [hnext] at h
        rw [hnext'] at h'
        exact ih (hstep hfirst hx hnext hnext') h h'

end

namespace Grammar

variable {g : Grammar} {growth growth' grown grown' : Growth} {c c' : Chart} {s s' : State}
  {symbol : Symbol} {k i id id' : Nat}

open Growth (InStep)

theorem awaited_of_sameState (h : c.SameState c' s s') : g.awaited s' = g.awaited s := by
  unfold awaited
  rw [h.isComplete, h.toItem]

theorem matched_of_sameState (h : c.SameState c' s s') : g.matched s' = g.matched s := by
  unfold matched
  rw [h.toItem]

/-- Rules are predicted in step. -/
theorem inStep_of_predict {head : String} (h : growth.Mirrors growth')
    (hgrown : g.predict head k growth = .ok grown)
    (hgrown' : g.predict head k growth' = .ok grown') : InStep growth growth' grown grown' := by
  have hstep {a a' b b' : Growth} {position position' : Nat} (hbefore : InStep growth growth' a a')
      (hposition : position = position') (hb : g.predictRule k a position = .ok b)
      (hb' : g.predictRule k a' position' = .ok b') : InStep growth growth' b b' := by
    subst hposition
    unfold predictRule at hb hb'
    split at hb
    next => cases hb
    next rule hrule =>
      simp only [hrule] at hb'
      exact hbefore.trans (hbefore.mirrors.insert ⟨rfl, rfl, rfl, .nil⟩ hb hb')
  exact rel_of_foldlM (List.forall₂_same.2 fun _ _ => rfl) h.inStep hgrown hgrown' hstep

/-- A scan inserts a match of the next word, or does nothing. -/
theorem cases_of_scan (h : g.scan symbol k growth = .ok grown) :
    ∃ word, growth.chart.tokens[k]? = some word ∧
      ((g.accepts symbol.name word = true ∧ ∃ inserted,
          growth.insert (.lexeme symbol k) = .ok inserted ∧
            grown = { inserted with changed := growth.changed }) ∨
        (g.accepts symbol.name word ≠ true ∧ grown = growth)) := by
  unfold scan at h
  split at h
  next => cases h
  next word hword =>
    refine ⟨word, hword, ?_⟩
    split at h
    next haccepts =>
      cases hinserted : growth.insert (.lexeme symbol k) with
      | error e => rw [hinserted] at h; cases h
      | ok inserted =>
        rw [hinserted] at h
        cases h
        exact .inl ⟨haccepts, inserted, rfl, rfl⟩
    next hrejects =>
      cases h
      exact .inr ⟨hrejects, rfl⟩

/-- A word that both inputs have is matched in step. -/
theorem inStep_of_scan (h : growth.Mirrors growth') (hk : k < growth.chart.tokens.size)
    (hgrown : g.scan symbol k growth = .ok grown)
    (hgrown' : g.scan symbol k growth' = .ok grown') : InStep growth growth' grown grown' := by
  obtain ⟨word, hword, hcases⟩ := cases_of_scan hgrown
  obtain ⟨word', hword', hcases'⟩ := cases_of_scan hgrown'
  obtain rfl : word = word' := Option.some.inj ((h.chart.tokens hword).symm.trans hword')
  rcases hcases with ⟨haccepts, inserted, hinserted, rfl⟩ | ⟨hrejects, rfl⟩
  · rcases hcases' with ⟨-, inserted', hinserted', rfl⟩ | ⟨hrejects, -⟩
    · obtain ⟨hmirrors, hplaces⟩ :=
        h.insert ⟨rfl, rfl, rfl, .cons (.scan k) .nil⟩ hinserted hinserted'
      exact ⟨⟨hmirrors.chart, h.changed, hmirrors.sawEmpty⟩, hplaces⟩
    · exact absurd haccepts hrejects
  · rcases hcases' with ⟨haccepts, -⟩ | ⟨-, rfl⟩
    · exact absurd haccepts hrejects
    · exact h.inStep

/-- A word behind the end of the shorter input is matched in a column that only the longer one
has. -/
theorem inStep_of_scan_of_le (h : growth.Mirrors growth') (hk : growth.chart.tokens.size ≤ k)
    (hgrown' : g.scan symbol k growth' = .ok grown') : InStep growth growth' growth grown' := by
  obtain ⟨-, -, ⟨-, inserted, hinserted, rfl⟩ | ⟨-, rfl⟩⟩ := cases_of_scan hgrown'
  · obtain ⟨i, hi, -, hempty⟩ := Growth.inserted_of_insert hinserted
    have hkeeps : Chart.KeepsUpTo k growth'.chart inserted.chart :=
      hi.keepsUpTo h.chart.indexed' (Nat.lt_succ_self k)
    have hsize : growth.chart.columns.size ≤ k + 1 :=
      h.chart.size_columns ▸ Nat.succ_le_succ hk
    refine ⟨⟨h.chart.of_keepsUpTo hi.extension (hi.indexed h.chart.indexed') hkeeps hsize,
      h.changed, hempty.trans h.sawEmpty⟩, fun hplace => hplace.mono (.refl _) hi.extension⟩
  · exact h.inStep

/-- Corresponding states are advanced over corresponding children in step. -/
theorem inStep_of_advanceOver {child child' parent parent' : Nat} (h : growth.Mirrors growth')
    (hchild : growth.chart.SamePlace growth'.chart child child')
    (hparent : growth.chart.SamePlace growth'.chart parent parent')
    (hgrown : g.advanceOver symbol child k growth parent = .ok grown)
    (hgrown' : g.advanceOver symbol child' k growth' parent' = .ok grown') :
    InStep growth growth' grown grown' := by
  obtain ⟨s, s', hs, hs', hsame⟩ := h.chart.states hparent
  simp only [advanceOver, hs] at hgrown
  simp only [advanceOver, hs', awaited_of_sameState hsame] at hgrown'
  split at hgrown
  next => cases hgrown
  next awaited hawaited =>
    simp only [hawaited] at hgrown'
    split at hgrown
    next heq =>
      rw [if_pos heq] at hgrown'
      exact h.insert (hsame.advance k hparent hchild) hgrown hgrown'
    next hne =>
      rw [if_neg hne] at hgrown'
      cases hgrown
      cases hgrown'
      exact h.inStep

/-- Corresponding complete states advance others in step. -/
theorem inStep_of_complete (h : growth.Mirrors growth')
    (hplace : growth.chart.SamePlace growth'.chart id id')
    (hs : growth.chart.SameState growth'.chart s s')
    (hgrown : g.complete id s k growth = .ok grown)
    (hgrown' : g.complete id' s' k growth' = .ok grown') : InStep growth growth' grown grown' := by
  unfold complete at hgrown hgrown'
  rw [hs.toItem, matched_of_sameState hs] at hgrown'
  split at hgrown
  next => cases hgrown
  next column hcolumn =>
    obtain ⟨column', hcolumn', hcolumns⟩ := h.chart.forall₂_column hcolumn
    simp only [hcolumn'] at hgrown'
    split at hgrown
    next => cases hgrown
    next hnone =>
      simp only [hnone] at hgrown'
      cases hgrown
      cases hgrown'
      exact h.inStep
    next symbol hsymbol =>
      simp only [hsymbol] at hgrown'
      have hstep {a a' b b' : Growth} {parent parent' : Nat} (hbefore : InStep growth growth' a a')
          (hparent : growth.chart.SamePlace growth'.chart parent parent')
          (hb : g.advanceOver symbol id k a parent = .ok b)
          (hb' : g.advanceOver symbol id' k a' parent' = .ok b') : InStep growth growth' b b' :=
        hbefore.trans (inStep_of_advanceOver hbefore.mirrors (hbefore.places hplace)
          (hbefore.places hparent) hb hb')
      exact rel_of_foldlM hcolumns h.inStep hgrown hgrown' hstep

/-- Corresponding states are visited in step. -/
theorem inStep_of_visit (h : growth.Mirrors growth')
    (hplace : growth.chart.SamePlace growth'.chart id id')
    (hgrown : g.visit k id growth = .ok grown) (hgrown' : g.visit k id' growth' = .ok grown') :
    InStep growth growth' grown grown' := by
  obtain ⟨s, s', hs, hs', hsame⟩ := h.chart.states hplace
  simp only [visit, hs] at hgrown
  simp only [visit, hs', hsame.isComplete, awaited_of_sameState hsame] at hgrown'
  split at hgrown
  next hcomplete =>
    rw [if_pos hcomplete, hsame.toItem] at hgrown'
    let noted : Growth := { growth with sawEmpty := growth.sawEmpty || s.origin = k }
    let noted' : Growth := { growth' with sawEmpty := growth'.sawEmpty || s.origin = k }
    have hnoted : noted.Mirrors noted' :=
      ⟨h.chart, h.changed, congrArg (· || decide (s.origin = k)) h.sawEmpty⟩
    have hplace' : noted.chart.SamePlace noted'.chart id id' := hplace
    have hsame' : noted.chart.SameState noted'.chart s s' := hsame
    obtain ⟨hmirrors, hplaces⟩ := inStep_of_complete hnoted hplace' hsame' hgrown hgrown'
    exact ⟨hmirrors, hplaces⟩
  next hcomplete =>
    rw [if_neg hcomplete] at hgrown'
    split at hgrown
    next => cases hgrown
    next hnothing =>
      simp only [hnothing] at hgrown'
      cases hgrown
      cases hgrown'
      exact h.inStep
    next head hhead =>
      simp only [hhead] at hgrown'
      exact inStep_of_predict h hgrown hgrown'
    next name hname =>
      simp only [hname] at hgrown'
      split at hgrown
      next hk =>
        have hk' : k < growth'.chart.tokens.size :=
          (Array.getElem?_eq_some_iff.1 (h.chart.tokens (Array.getElem?_eq_getElem hk))).1
        rw [if_pos hk'] at hgrown'
        exact inStep_of_scan h hk hgrown hgrown'
      next hk =>
        cases hgrown
        split at hgrown'
        next => exact inStep_of_scan_of_le h (Nat.le_of_not_lt hk) hgrown'
        next =>
          cases hgrown'
          exact h.inStep

/-- Walks over a column that both charts have come to corresponding ends. -/
theorem Walks.mirrors (hwalks : g.Walks k i growth grown) (hwalks' : g.Walks k i growth' grown')
    (h : growth.Mirrors growth') : grown.Mirrors grown' := by
  induction hwalks generalizing growth' with
  | done hcolumn hend =>
    obtain ⟨column', hcolumn', hsize⟩ := h.chart.columns hcolumn
    cases hwalks' with
    | done => exact h
    | visit hcolumn'' hentry =>
      rw [hcolumn'] at hcolumn''
      obtain rfl := Option.some.inj hcolumn''
      have hlt := (Array.getElem?_eq_some_iff.1 hentry).1
      exact absurd (hsize ▸ hlt) (Nat.not_lt_of_le (Array.getElem?_eq_none_iff.1 hend))
  | @visit i id growth visited grown column hcolumn hentry hvisit hrest ih =>
    have hid : growth.chart.entryAt? k i = some id :=
      Chart.entryAt?_eq_some_iff.2 ⟨column, hcolumn, hentry⟩
    obtain ⟨id', hid'⟩ := h.chart.exists_right hid
    obtain ⟨column', hcolumn', hentry'⟩ := Chart.entryAt?_eq_some_iff.1 hid'
    cases hwalks' with
    | done hcolumn'' hend =>
      rw [hcolumn'] at hcolumn''
      obtain rfl := Option.some.inj hcolumn''
      rw [hentry'] at hend
      cases hend
    | visit hcolumn'' hentry'' hvisit' hrest' =>
      rw [hcolumn'] at hcolumn''
      obtain rfl := Option.some.inj hcolumn''
      rw [hentry'] at hentry''
      obtain rfl := Option.some.inj hentry''
      obtain ⟨hmirrors, -⟩ := inStep_of_visit h ⟨k, i, hid, hid'⟩ hvisit hvisit'
      exact ih hrest' ⟨hmirrors.chart, hmirrors.changed, hmirrors.sawEmpty⟩

/-- Columns that both charts have are walked over equally often. -/
theorem Closes.mirrors (hcloses : g.Closes k growth grown) (hcloses' : g.Closes k growth' grown')
    (h : growth.Mirrors growth') : grown.Mirrors grown' := by
  have hwalked {a a' b b' : Growth} (h : a.Mirrors a')
      (hwalk : g.Walks k 0 { a with changed := false, sawEmpty := false } b)
      (hwalk' : g.Walks k 0 { a' with changed := false, sawEmpty := false } b') :
      b.Mirrors b' ∧ (b'.changed && b'.sawEmpty) = (b.changed && b.sawEmpty) := by
    have hmirrors := hwalk.mirrors hwalk' ⟨h.chart, rfl, rfl⟩
    exact ⟨hmirrors, by rw [hmirrors.changed, hmirrors.sawEmpty]⟩
  induction hcloses generalizing growth' with
  | last hwalk hlast =>
    cases hcloses' with
    | last hwalk' => exact (hwalked h hwalk hwalk').1
    | again hwalk' hagain =>
      rw [(hwalked h hwalk hwalk').2, hlast] at hagain
      cases hagain
  | again hwalk hagain _ ih =>
    cases hcloses' with
    | last hwalk' hlast =>
      rw [(hwalked h hwalk hwalk').2, hagain] at hlast
      cases hlast
    | again hwalk' _ hrest' => exact ih hrest' (hwalked h hwalk hwalk').1

/-! ### Whole parses -/

/-- The chart of an input without states corresponds to that of a longer one. -/
theorem mirrors_ofTokens (tokens more : List String) :
    (Chart.ofTokens tokens).Mirrors (.ofTokens (tokens ++ more)) := by
  refine ⟨Chart.indexed_ofTokens _, Chart.indexed_ofTokens _, fun {k word} hword => ?_, ?_,
    fun {k column} hcolumn => ?_, fun {id id'} hplace => ?_⟩
  · simp only [Chart.ofTokens, List.getElem?_toArray] at hword ⊢
    rw [List.getElem?_append_left (List.getElem?_eq_some_iff.1 hword).1]
    exact hword
  · simp [Chart.ofTokens]
  · rw [Chart.getElem?_columns_ofTokens] at hcolumn ⊢
    split at hcolumn
    next hk =>
      cases hcolumn
      have hk' : k < (tokens ++ more).length + 1 := by
        rw [List.length_append]
        omega
      exact ⟨#[], if_pos hk', rfl⟩
    next => cases hcolumn
  · obtain ⟨k, n, hid, -⟩ := hplace
    obtain ⟨s, hs, -⟩ := (Chart.indexed_ofTokens tokens).state_of_entryAt? hid
    simp [Chart.ofTokens] at hs

/-- Parses of an input and of a longer one begin in step. -/
theorem mirrors_of_seed {tokens more : List String} (h : Growth.seed tokens = .ok growth)
    (h' : Growth.seed (tokens ++ more) = .ok growth') : growth.Mirrors growth' := by
  have hempty : Growth.Mirrors { chart := .ofTokens tokens }
      { chart := .ofTokens (tokens ++ more) } := ⟨mirrors_ofTokens tokens more, rfl, rfl⟩
  exact (hempty.insert ⟨rfl, rfl, rfl, .nil⟩ h h').mirrors

/-- A finished chart goes back to the start production, column after column. The columns before the
one that is about to be closed are closed already. -/
theorem exists_closed_stages {limits : Limits} {clock : Clock} {tokens : List String}
    (h : g.closedChart limits clock tokens = .ok grown) :
    ∃ stages : Nat → Growth, Growth.seed tokens = .ok (stages 0) ∧
      (∀ k ≤ tokens.length, g.Closes k (stages k) (stages (k + 1))) ∧
      ∀ k ≤ tokens.length + 1, g.Reachable tokens (stages k).chart ∧
        (∀ j < k, g.Closed (stages k).chart j) ∧ g.Grows (stages k).chart grown.chart := by
  unfold closedChart at h
  split at h
  next => cases h
  next growth hseed =>
    obtain ⟨stages, rfl, rfl, hsteps⟩ := exists_stages_of_foldlM h
    exact ⟨stages, hseed, fun k hk => closes_of_closeColumn (hsteps k (Nat.lt_succ_of_le hk)),
      closed_of_stages ⟨_, hseed, .refl⟩ hsteps⟩

/-- The chart of a finished parse corresponds to that of a longer one. -/
theorem mirrors_of_closedChart {limits limits' : Limits} {clock clock' : Clock}
    {tokens more : List String} (h : g.closedChart limits clock tokens = .ok grown)
    (h' : g.closedChart limits' clock' (tokens ++ more) = .ok grown') :
    grown.chart.Mirrors grown'.chart := by
  obtain ⟨stages, hseed, hcloses, hlast⟩ := exists_stages_of_closedChart h
  obtain ⟨stages', hseed', hcloses', hstages'⟩ := exists_closed_stages h'
  have hle {k : Nat} (hk : k ≤ tokens.length) : k ≤ (tokens ++ more).length := by
    rw [List.length_append]
    omega
  have hmirrors : ∀ k ≤ tokens.length + 1, (stages k).Mirrors (stages' k) := by
    intro k
    induction k with
    | zero => exact fun _ => mirrors_of_seed hseed hseed'
    | succ k ih =>
      intro hk
      have hk' : k ≤ tokens.length := Nat.le_of_succ_le_succ hk
      exact (hcloses k hk').mirrors (hcloses' k (hle hk')) (ih (Nat.le_succ_of_le hk'))
  obtain ⟨hreach', hclosed', hgrows'⟩ :=
    hstages' (tokens.length + 1) (Nat.succ_le_succ (hle (Nat.le_refl _)))
  have hchart := (hmirrors _ (Nat.le_refl _)).chart
  rw [hlast] at hchart
  have hsize : grown.chart.columns.size ≤ tokens.length + 1 := by
    rw [hchart.size_columns, (closed_of_closedChart h).1.tokens_eq, List.size_toArray]
  exact hchart.of_keepsUpTo hgrows'.extension (hgrows'.indexed hreach'.indexed)
    (hgrows'.keepsUpTo hreach' fun j hj => hclosed' j (Nat.lt_succ_of_le hj)) hsize

/-- Columns depend on the words before them only. If an input is extended by further words, the
columns of its chart are those that come first in the chart of the longer input: they list as many
states, and the states at the same place have the same item and equally many sources, which are the
same words, or completions over states at the same places. -/
theorem same_columns_of_parse_append {ds : List Declaration} {start : String}
    (hg : ofDeclarations ds start = .ok g) (limits : Limits) (hstates : limits.maxStates = none)
    (hduration : limits.maxDuration = none) (clock clock' : Clock) (tokens more : List String) :
    ∃ p p', g.parse limits clock tokens = .ok p ∧ g.parse limits clock' (tokens ++ more) = .ok p' ∧
      ∀ k ≤ tokens.length, ∃ column column', p.chart.columns[k]? = some column ∧
        p'.chart.columns[k]? = some column' ∧
        List.Forall₂ (fun id id' => ∃ s s', p.chart.states[id]? = some s ∧
          p'.chart.states[id']? = some s' ∧ p.chart.SameState p'.chart s s')
          column.toList column'.toList := by
  have hwf := wellFormed_of_ofDeclarations hg
  obtain ⟨p, hp⟩ : ∃ p, g.parse limits clock tokens = .ok p :=
    exists_parse hwf hstates hduration tokens
  obtain ⟨p', hp'⟩ : ∃ p', g.parse limits clock' (tokens ++ more) = .ok p' :=
    exists_parse hwf hstates hduration (tokens ++ more)
  refine ⟨p, p', hp, hp', fun k hk => ?_⟩
  obtain ⟨grown, hgrown, -, -, hchart⟩ := parse_eq_ok_iff.1 hp
  obtain ⟨grown', hgrown', -, -, hchart'⟩ := parse_eq_ok_iff.1 hp'
  rw [hchart, hchart']
  have hmirrors := mirrors_of_closedChart hgrown hgrown'
  have hsize : k < grown.chart.columns.size := by
    rw [hmirrors.size_columns, (closed_of_closedChart hgrown).1.tokens_eq, List.size_toArray]
    exact Nat.lt_succ_of_le hk
  have hcolumn : grown.chart.columns[k]? = some _ := Array.getElem?_eq_getElem hsize
  obtain ⟨column', hcolumn', hplaces⟩ := hmirrors.forall₂_column hcolumn
  exact ⟨_, column', hcolumn, hcolumn', hplaces.imp fun _ _ hplace => hmirrors.states hplace⟩

/-- In a grammar with an empty rule, whose charts are walked over repeatedly, the columns of a word
are those that come first in the chart of two words. -/
theorem same_columns_of_parse_append_of_words :
    ∃ g, ofDeclarations [.nonterminal "S", .lexeme "a" ["x", "y"], .addRule "S" [],
        .addRule "S" ["S", "S", "a"], .addRule "S" ["a"]] "S" = .ok g ∧
      ∃ p p', g.parse .unbounded (fun _ => { nanoseconds := 0 }) ["x"] = .ok p ∧
        g.parse .unbounded (fun _ => { nanoseconds := 0 }) (["x"] ++ ["y"]) = .ok p' ∧
        ∀ k ≤ 1, ∃ column column', p.chart.columns[k]? = some column ∧
          p'.chart.columns[k]? = some column' ∧
          List.Forall₂ (fun id id' => ∃ s s', p.chart.states[id]? = some s ∧
            p'.chart.states[id']? = some s' ∧ p.chart.SameState p'.chart s s')
            column.toList column'.toList := by
  have hexists : ∃ g, ofDeclarations [.nonterminal "S", .lexeme "a" ["x", "y"], .addRule "S" [],
      .addRule "S" ["S", "S", "a"], .addRule "S" ["a"]] "S" = .ok g :=
    exists_ofDeclarations (by decide +kernel)
  obtain ⟨g, hg⟩ := hexists
  exact ⟨g, hg, same_columns_of_parse_append hg .unbounded rfl rfl (fun _ => { nanoseconds := 0 })
    (fun _ => { nanoseconds := 0 }) ["x"] ["y"]⟩

end Grammar

end Earley
