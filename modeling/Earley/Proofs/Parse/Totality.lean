import Earley.Proofs.Parse.Size
/-!
# Parses without limits succeed

Every number that a parse looks up is in range, and its loops end before their bounds are reached:
a walk visits no more states than a column can have, and each walk but the last over a column makes
the chart heavier. A parse therefore fails only where a limit is exceeded, and if neither the number
of states nor the duration is limited, it succeeds (`Grammar.exists_parse`).
-/

namespace Earley

namespace Grammar

variable {g : Grammar} {tokens : List String} {growth grown : Growth} {id k : Nat} {s : State}

/-! ### A single visit -/

/-- A state that is called for and stops within the input can be inserted. -/
theorem exists_insert (hreach : g.Reachable tokens growth.chart)
    (hcalls : g.Calls growth.chart id s) (hstop : s.stop ≤ tokens.length) :
    ∃ grown, growth.insert s = .ok grown ∧ g.Grows growth.chart grown.chart := by
  have hsome : (growth.chart.insert? s).isSome = true := by
    rw [Chart.isSome_insert?_iff hreach.indexed, hreach.size_columns]
    exact Nat.lt_succ_of_le hstop
  obtain ⟨⟨i, chart⟩, hinsert⟩ := Option.isSome_iff_exists.1 hsome
  unfold Growth.insert
  rw [hinsert]
  exact ⟨_, rfl, .insert .refl hcalls hinsert⟩

/-- Steps that can be done at any later stage can be done one after the other. -/
theorem exists_foldlM {α : Type} {step : Growth → α → Except ParseError Growth} {steps : List α}
    (hstep : ∀ {before : Growth} {a : α}, a ∈ steps → g.Grows growth.chart before.chart →
      ∃ after, step before a = .ok after ∧ g.Grows before.chart after.chart) :
    ∃ grown, steps.foldlM step growth = .ok grown ∧ g.Grows growth.chart grown.chart := by
  induction steps generalizing growth with
  | nil => exact ⟨growth, rfl, .refl⟩
  | cons a rest ih =>
    obtain ⟨next, hnext, hgrows⟩ := hstep List.mem_cons_self .refl
    obtain ⟨grown, hgrown, hrest⟩ := ih fun hmem hbefore =>
      hstep (List.mem_cons_of_mem _ hmem) (hgrows.trans hbefore)
    refine ⟨grown, ?_, hgrows.trans hrest⟩
    rw [List.foldlM_cons, hnext]
    exact hgrown

/-- The column where a state stops, and those before it, exist. -/
theorem Reachable.exists_column (hreach : g.Reachable tokens growth.chart)
    (hk : k ≤ tokens.length) : ∃ column, growth.chart.columns[k]? = some column := by
  have hlt : k < growth.chart.columns.size := by
    rw [hreach.size_columns]
    exact Nat.lt_succ_of_le hk
  exact ⟨_, Array.getElem?_eq_getElem hlt⟩

/-- The rules of a nonterminal can be predicted. -/
theorem exists_predict {head : String} (hreach : g.Reachable tokens growth.chart)
    (hs : growth.chart.states[id]? = some s) (hstop : s.stop ≤ tokens.length)
    (hawaited : g.awaited s = .ok (some (.nonterminal head))) :
    ∃ grown, g.predict head s.stop growth = .ok grown := by
  have hstep {before : Growth} {position : Nat} (hmem : position ∈ g.rulesFor head)
      (hbefore : g.Grows growth.chart before.chart) :
      ∃ after, g.predictRule s.stop before position = .ok after ∧
        g.Grows before.chart after.chart := by
    obtain ⟨rule, hrule, hhead⟩ := mem_rulesFor.1 hmem
    have hcalls : g.Calls growth.chart id (.predict (.rule position) rule.rhs.length s.stop) :=
      .predict hs (hhead ▸ hawaited) hrule
    unfold predictRule
    rw [hrule]
    exact exists_insert (hreach.grows hbefore) (hcalls.mono hbefore.extension) hstop
  obtain ⟨grown, hgrown, -⟩ := exists_foldlM hstep
  exact ⟨grown, hgrown⟩

/-- A terminal can be matched with a word of the input. -/
theorem exists_scan {name : String} (hreach : g.Reachable tokens growth.chart)
    (hs : growth.chart.states[id]? = some s) (hstop : s.stop < tokens.length)
    (hawaited : g.awaited s = .ok (some (.terminal name))) :
    ∃ grown, g.scan (.terminal name) s.stop growth = .ok grown := by
  have hword : growth.chart.tokens[s.stop]? = some tokens[s.stop] := by
    rw [hreach.tokens_eq, List.getElem?_toArray, List.getElem?_eq_getElem hstop]
  unfold scan
  rw [hword]
  dsimp only
  by_cases haccepts : g.accepts name tokens[s.stop] = true
  · obtain ⟨after, hafter, -⟩ := exists_insert hreach (.scan hs hawaited hword haccepts)
      (show (State.lexeme (.terminal name) s.stop).stop ≤ tokens.length from hstop)
    rw [Symbol.name_terminal, if_pos haccepts, hafter]
    exact ⟨_, rfl⟩
  · rw [Symbol.name_terminal, if_neg haccepts]
    exact ⟨growth, rfl⟩

/-- A complete state can advance the states that wait for what it matches. -/
theorem exists_complete (hg : g.WellFormed) (hreach : g.Reachable tokens growth.chart)
    (hs : growth.chart.states[id]? = some s) (hcomplete : s.isComplete = true) :
    ∃ grown, g.complete id s s.stop growth = .ok grown := by
  obtain ⟨phrase, hsound⟩ := hreach.sound hg hs
  obtain ⟨column, hcolumn⟩ :=
    hreach.exists_column (Nat.le_trans hsound.origin_le hsound.stop_le)
  obtain ⟨symbol?, hmatched⟩ := hsound.exists_matched
  unfold complete
  rw [hcolumn, hmatched]
  cases symbol? with
  | none => exact ⟨growth, rfl⟩
  | some symbol =>
    have hstep {before : Growth} {parent : Nat} (hmem : parent ∈ column.toList)
        (hbefore : g.Grows growth.chart before.chart) :
        ∃ after, g.advanceOver symbol id s.stop before parent = .ok after ∧
          g.Grows before.chart after.chart := by
      obtain ⟨p, hp, hmeet⟩ := hreach.indexed.state_of_mem hcolumn (Array.mem_toList_iff.1 hmem)
      obtain ⟨parentPhrase, hparent⟩ := hreach.sound hg hp
      obtain ⟨p', hp', hlater⟩ := hbefore.extension.states hp
      simp only [advanceOver, hp', awaited_of_extends hlater, hparent.awaited_eq]
      split
      next heq =>
        have hcalls : g.Calls growth.chart id (p.advance s.stop (.complete parent id)) :=
          .advance hs hcomplete hmatched hp hmeet (hparent.awaited_eq.trans (congrArg _ heq))
        rw [hlater.advance]
        exact exists_insert (hreach.grows hbefore) (hcalls.mono hbefore.extension) hsound.stop_le
      next => exact ⟨before, rfl, .refl⟩
    obtain ⟨grown, hgrown, -⟩ := exists_foldlM hstep
    exact ⟨grown, hgrown⟩

/-- Every state can be visited. -/
theorem exists_visit (hg : g.WellFormed) (hreach : g.Reachable tokens growth.chart)
    (hs : growth.chart.states[id]? = some s) : ∃ grown, g.visit s.stop id growth = .ok grown := by
  obtain ⟨phrase, hsound⟩ := hreach.sound hg hs
  unfold visit
  rw [hs]
  dsimp only
  by_cases hcomplete : s.isComplete = true
  · rw [if_pos hcomplete]
    have hreach' : g.Reachable tokens { growth with
        sawEmpty := growth.sawEmpty || s.origin = s.stop : Growth }.chart := hreach
    exact exists_complete hg hreach' hs hcomplete
  · rw [if_neg hcomplete]
    have hawaited := hsound.awaited_eq
    cases hsymbol : phrase[s.dot]? with
    | none =>
      rw [hsymbol] at hawaited
      rw [hawaited]
      exact ⟨growth, rfl⟩
    | some symbol =>
      rw [hsymbol] at hawaited
      rw [hawaited]
      cases symbol with
      | nonterminal name => exact exists_predict hreach hs hsound.stop_le hawaited
      | terminal name =>
        dsimp only
        by_cases hlast : s.stop < growth.chart.tokens.size
        · rw [if_pos hlast]
          rw [hreach.tokens_eq, List.size_toArray] at hlast
          exact exists_scan hreach hs hlast hawaited
        · rw [if_neg hlast]
          exact ⟨growth, rfl⟩

/-! ### Walks -/

variable {limits : Limits} {clock : Clock}

/-- Without limits no check fails. -/
theorem check_of_eq_none (hstates : limits.maxStates = none) (hduration : limits.maxDuration = none)
    (growth : Growth) :
    limits.check clock growth = .ok { growth with checks := growth.checks + 1 } := by
  unfold Limits.check Limits.checkStates Limits.checkDuration
  rw [hstates, hduration]
  rfl

/-- A walk that may visit more states than a chart can have comes to the end of its column. -/
theorem exists_walk (hg : g.WellFormed) (hstates : limits.maxStates = none)
    (hduration : limits.maxDuration = none) (hreach : g.Reachable tokens growth.chart)
    {column : Array Nat} (hcolumn : growth.chart.columns[k]? = some column) {fuel i : Nat}
    (hi : i ≤ column.size) (hfuel : g.stateBound tokens.length < fuel + i) :
    ∃ grown, g.walk limits clock k fuel i growth = .ok grown := by
  induction fuel generalizing i growth column with
  | zero =>
    have hsize : column.size ≤ g.stateBound tokens.length :=
      Nat.le_trans (hreach.size_column_le hcolumn) (hreach.size_le hg)
    omega
  | succ fuel ih =>
    unfold walk
    rw [hcolumn]
    dsimp only
    cases hentry : column[i]? with
    | none => exact ⟨growth, rfl⟩
    | some id =>
      obtain ⟨s, hs, rfl⟩ := hreach.indexed.state_of_mem hcolumn (Array.mem_of_getElem? hentry)
      obtain ⟨visited, hvisit⟩ := exists_visit hg hreach hs
      have hprogress := (progress_of_visit hreach.indexed hs hvisit).1
      obtain ⟨column', hcolumn', hprefix⟩ := hprogress.grows.extension.columns hcolumn
      dsimp only
      rw [hvisit]
      dsimp only
      rw [check_of_eq_none hstates hduration]
      dsimp only
      have hlt : i < column.size := (Array.getElem?_eq_some_iff.1 hentry).1
      have hi' : i + 1 ≤ column'.size := Nat.le_trans hlt (by simpa using hprefix.length_le)
      have hfuel' : g.stateBound tokens.length < fuel + (i + 1) := by omega
      have hgrown : g.Reachable tokens
          { visited with checks := visited.checks + 1 : Growth }.chart :=
        hreach.grows hprogress.grows
      exact ih hgrown hcolumn' hi' hfuel'

/-- Walks over a column end before they have changed the chart more often than its weight allows. -/
theorem exists_closeColumn (hg : g.WellFormed) (hstates : limits.maxStates = none)
    (hduration : limits.maxDuration = none) (hreach : g.Reachable tokens growth.chart)
    (hk : k ≤ tokens.length) {walks visits : Nat}
    (hwalks : g.walkBound tokens.length ≤ walks + growth.chart.mass)
    (hvisits : g.stateBound tokens.length < visits) :
    ∃ grown, g.closeColumn limits clock k walks visits growth = .ok grown := by
  induction walks generalizing growth with
  | zero =>
    have hmass := hreach.mass_lt hg
    omega
  | succ walks ih =>
    let fresh : Growth := { growth with changed := false, sawEmpty := false }
    have hfresh : g.Reachable tokens fresh.chart := hreach
    obtain ⟨column, hcolumn⟩ := hreach.exists_column hk
    have hexists : ∃ walked, g.walk limits clock k visits 0 fresh = .ok walked :=
      exists_walk hg hstates hduration hfresh hcolumn (Nat.zero_le column.size) hvisits
    obtain ⟨walked, hwalk⟩ := hexists
    have hprogress := (progress_of_walk hfresh.indexed hwalk).1
    unfold closeColumn
    rw [hwalk]
    dsimp only
    by_cases hagain : (walked.changed && walked.sawEmpty) = true
    · rw [if_pos hagain]
      have hheavier : growth.chart.mass < walked.chart.mass := by
        rw [Bool.and_eq_true] at hagain
        exact (hprogress.heavier hagain.1).resolve_left Bool.false_ne_true
      exact ih (hreach.grows hprogress.grows) (by omega)
    · rw [if_neg hagain]
      exact ⟨walked, rfl⟩

/-- All columns can be closed. -/
theorem exists_closeColumns (hg : g.WellFormed) (hstates : limits.maxStates = none)
    (hduration : limits.maxDuration = none) (hreach : g.Reachable tokens growth.chart) :
    ∃ grown, g.closeColumns limits clock tokens.length growth = .ok grown := by
  unfold closeColumns
  suffices hmain : ∀ m ≤ tokens.length + 1, ∃ grown, g.Reachable tokens grown.chart ∧
      (List.range m).foldlM (fun grown k => g.closeColumn limits clock k
        (g.walkBound tokens.length) (g.stateBound tokens.length + 1) grown) growth = .ok grown by
    obtain ⟨grown, -, hgrown⟩ := hmain (tokens.length + 1) (Nat.le_refl _)
    exact ⟨grown, hgrown⟩
  intro m hm
  induction m with
  | zero => exact ⟨growth, hreach, rfl⟩
  | succ m ih =>
    obtain ⟨before, hbefore, hfold⟩ := ih (Nat.le_of_succ_le hm)
    have hexists : ∃ grown, g.closeColumn limits clock m (g.walkBound tokens.length)
        (g.stateBound tokens.length + 1) before = .ok grown :=
      exists_closeColumn hg hstates hduration hbefore (Nat.le_of_succ_le_succ hm)
        (Nat.le_add_right _ _) (Nat.lt_succ_self _)
    obtain ⟨grown, hgrown⟩ := hexists
    exact ⟨grown, hbefore.grows (closed_of_closeColumn hbefore hgrown).1,
      foldlM_range_succ_eq_ok_iff.2 ⟨before, hfold, hgrown⟩⟩

/-! ### Parses -/

/-- The start production can be inserted into the chart of the words alone. -/
theorem exists_seed (tokens : List String) : ∃ growth, Growth.seed tokens = .ok growth := by
  have hsome : ((Chart.ofTokens tokens).insert? (.predict .start 1 0)).isSome = true := by
    rw [Chart.isSome_insert?_iff (Chart.indexed_ofTokens tokens)]
    simp [Chart.ofTokens, State.predict]
  obtain ⟨⟨i, chart⟩, hinsert⟩ := Option.isSome_iff_exists.1 hsome
  unfold Growth.seed Growth.insert
  rw [hinsert]
  exact ⟨_, rfl⟩

/-- A list is filtered by a test that does not fail on its members. -/
theorem filterM_eq_filter {α ε : Type} [DecidableEq ε] {test : α → Except ε Bool} {l : List α}
    (h : ∀ a ∈ l, ∃ b, test a = .ok b) :
    l.filterM test = .ok (l.filter fun a => test a = .ok true) := by
  suffices haux : ∀ found, l.filterAuxM test found =
      .ok ((l.filter fun a => test a = .ok true).reverse ++ found) by
    unfold List.filterM
    rw [haux]
    simp [bind, Except.bind, pure, Except.pure]
  induction l with
  | nil => exact fun found => rfl
  | cons a rest ih =>
    intro found
    obtain ⟨b, hb⟩ := h a List.mem_cons_self
    have hrest := ih fun a hmem => h a (List.mem_cons_of_mem _ hmem)
    rw [List.filterAuxM, hb]
    cases b with
    | false => simpa [bind, Except.bind, hb] using hrest found
    | true => simpa [bind, Except.bind, hb] using hrest (a :: found)

/-- The roots of a chart are found in its last column. -/
theorem exists_roots {c : Chart} (hg : g.WellFormed) (hreach : g.Reachable tokens c) :
    ∃ column, c.columns[tokens.length]? = some column ∧
      g.roots c = .ok (column.toList.filter fun id => g.isRoot c id = .ok true) := by
  have hsize : c.tokens.size = tokens.length := by rw [hreach.tokens_eq, List.size_toArray]
  have hlt : tokens.length < c.columns.size := by
    rw [hreach.size_columns]
    exact Nat.lt_succ_self _
  refine ⟨_, Array.getElem?_eq_getElem hlt, ?_⟩
  unfold roots
  rw [hsize, Array.getElem?_eq_getElem hlt]
  refine filterM_eq_filter fun id hid => ?_
  obtain ⟨s, hs, -⟩ := hreach.indexed.state_of_mem (Array.getElem?_eq_getElem hlt)
    (Array.mem_toList_iff.1 hid)
  obtain ⟨phrase, hsound⟩ := hreach.sound hg hs
  obtain ⟨symbol, hmatched⟩ := hsound.exists_matched
  unfold isRoot
  rw [hs]
  dsimp only
  rw [hmatched]
  split
  next => exact ⟨_, rfl⟩
  next => exact ⟨false, rfl⟩

/-- A parse without limits on its chart succeeds. -/
theorem exists_parse (hg : g.WellFormed) (hstates : limits.maxStates = none)
    (hduration : limits.maxDuration = none) (tokens : List String) :
    ∃ p, g.parse limits clock tokens = .ok p := by
  obtain ⟨growth, hseed⟩ := exists_seed tokens
  have hreach : g.Reachable tokens growth.chart := ⟨growth, hseed, .refl⟩
  have hexists : ∃ grown, g.closeColumns limits clock tokens.length growth = .ok grown :=
    exists_closeColumns hg hstates hduration hreach
  obtain ⟨grown, hgrown⟩ := hexists
  have hclosed : g.closedChart limits clock tokens = .ok grown := by
    unfold closedChart
    rw [hseed]
    exact hgrown
  obtain ⟨column, -, hroots⟩ := exists_roots hg (closed_of_closedChart hclosed).1
  exact ⟨⟨g, grown.chart, _, layered_of_closedChart hclosed⟩,
    parse_eq_ok_iff.2 ⟨grown, hclosed, hroots, rfl, rfl⟩⟩

/-- Declarations of which none fails describe a grammar, and by this grammar every input can be
parsed without limits. -/
theorem exists_parse_of_isSome {ds : List Declaration} {start : String}
    (h : (ofDeclarations ds start).toOption.isSome = true) (clock : Clock) (tokens : List String) :
    ∃ g p, ofDeclarations ds start = .ok g ∧ g.parse .unbounded clock tokens = .ok p := by
  obtain ⟨g, hg⟩ := exists_ofDeclarations h
  obtain ⟨p, hp⟩ : ∃ p, g.parse .unbounded clock tokens = .ok p :=
    exists_parse (wellFormed_of_ofDeclarations hg) rfl rfl tokens
  exact ⟨g, p, hg, hp⟩

/-- Declarations and words give a grammar and a parse if the parse that they give is found to have
some property. -/
theorem exists_parse_of_any {ds : List Declaration} {start : String} {limits : Limits}
    {clock : Clock} {tokens : List String} {P : Parse → Prop} [DecidablePred P]
    (h : ((ofDeclarations ds start).toOption.any fun g =>
      (g.parse limits clock tokens).toOption.any fun p => P p) = true) :
    ∃ g p, ofDeclarations ds start = .ok g ∧ g.parse limits clock tokens = .ok p ∧ P p := by
  obtain ⟨g, hg, htest⟩ := exists_of_any h
  obtain ⟨p, hp, hholds⟩ := exists_of_any htest
  exact ⟨g, p, hg, hp, of_decide_eq_true hholds⟩

end Grammar

end Earley
