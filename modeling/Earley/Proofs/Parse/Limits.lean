import Earley.Proofs.Parse.Totality
/-!
# What limits do to a parse

Limits never change what a parse comes to: it comes to the chart that it would have come to without
them, or it is given up (`Limits.Reaches`). It is given up over the number of states only if the
chart without limits has too many, and then it does not succeed either, since the number is looked
at after every visit and no state is inserted in between. Whether a parse succeeds that may take any
time is thus decided by the number of states alone, while the readings of the clock are arbitrary
(`Grammar.parse_within_limits`).
-/

namespace Earley

namespace Limits

/-- A reason for which a parse may be given up that would come to a chart of some size. -/
def GivesUp (limits : Limits) (size : Nat) (halt : Halt) : Prop :=
  (∃ limit, limits.maxStates = some limit ∧ limit < size ∧ halt.error = .stateBudget limit) ∨
    ∃ longest, limits.maxDuration = some longest ∧ halt.error = .timeBudget longest

/-- Some part of a parse comes to what it would come to without limits, or is given up. -/
def Reaches (limits : Limits) (outcome : Except Halt Growth) (grown : Growth) : Prop :=
  outcome = .ok grown ∨ ∃ halt, outcome = .error halt ∧ limits.GivesUp grown.chart.size halt

/-- The chart has no more states than it may have. -/
def Admits (limits : Limits) (c : Chart) : Prop :=
  ∀ limit, limits.maxStates = some limit → c.size ≤ limit

variable {limits : Limits} {clock : Clock}

theorem GivesUp.mono {size size' : Nat} {halt : Halt} (h : limits.GivesUp size halt)
    (hle : size ≤ size') : limits.GivesUp size' halt := by
  rcases h with ⟨limit, hlimit, hlt, herror⟩ | hduration
  · exact .inl ⟨limit, hlimit, Nat.lt_of_lt_of_le hlt hle, herror⟩
  · exact .inr hduration

/-- Only the number of states is a reason if the duration is not limited. -/
theorem GivesUp.of_maxDuration_eq_none {size : Nat} {halt : Halt} (h : limits.GivesUp size halt)
    (hduration : limits.maxDuration = none) :
    ∃ limit, limits.maxStates = some limit ∧ limit < size ∧ halt.error = .stateBudget limit := by
  refine h.resolve_right ?_
  rintro ⟨longest, hlongest, -⟩
  rw [hduration] at hlongest
  cases hlongest

/-- What is given up on the way is given up. -/
theorem Reaches.of_error {outcome : Except Halt Growth} {grown : Growth} {size : Nat} {halt : Halt}
    (houtcome : outcome = .error halt) (h : limits.GivesUp size halt)
    (hle : size ≤ grown.chart.size) : limits.Reaches outcome grown :=
  .inr ⟨halt, houtcome, h.mono hle⟩

/-- A check passes, and then there are not too many states, or the parse is given up. -/
theorem check_cases (limits : Limits) (clock : Clock) (growth : Growth) :
    (limits.check clock growth = .ok { growth with checks := growth.checks + 1 } ∧
      limits.Admits growth.chart) ∨
    ∃ halt, limits.check clock growth = .error halt ∧
      limits.GivesUp growth.chart.size halt := by
  have hduration : limits.checkDuration (clock growth.checks) = .ok () ∨
      ∃ halt, limits.checkDuration (clock growth.checks) = .error halt ∧
        limits.GivesUp growth.chart.size halt := by
    unfold checkDuration
    split
    next => exact .inl rfl
    next longest hlongest =>
      split
      next => exact .inr ⟨_, rfl, .inr ⟨longest, hlongest, rfl⟩⟩
      next => exact .inl rfl
  have hstates : (limits.checkStates growth.chart = .ok () ∧ limits.Admits growth.chart) ∨
      ∃ halt, limits.checkStates growth.chart = .error halt ∧
        limits.GivesUp growth.chart.size halt := by
    unfold checkStates Admits
    split
    next hnone => exact .inl ⟨rfl, fun limit hlimit => nomatch hnone.symm.trans hlimit⟩
    next limit hlimit =>
      split
      next hlt => exact .inr ⟨_, rfl, .inl ⟨limit, hlimit, hlt, rfl⟩⟩
      next hle =>
        refine .inl ⟨rfl, fun limit' hlimit' => ?_⟩
        obtain rfl := Option.some.inj (hlimit.symm.trans hlimit')
        exact Nat.le_of_not_lt hle
  unfold check
  rcases hstates with ⟨hok, hadmits⟩ | ⟨halt, herror, hgives⟩
  · rw [hok]
    rcases hduration with hok' | ⟨halt, herror, hgives⟩
    · exact .inl ⟨by simp [hok', bind, Except.bind], hadmits⟩
    · exact .inr ⟨halt, by simp [herror, bind, Except.bind], hgives⟩
  · exact .inr ⟨halt, by rw [herror]; rfl, hgives⟩

end Limits

namespace Grammar

variable {g : Grammar} {limits limits' : Limits} {clock clock' : Clock} {tokens : List String}
  {growth grown : Growth} {k : Nat}

/-! ### The same chart or none -/

/-- A walk under other limits. -/
theorem reaches_of_walk {fuel i : Nat} (hc : growth.chart.Indexed)
    (h : g.walk limits clock k fuel i growth = .ok grown) :
    limits'.Reaches (g.walk limits' clock' k fuel i growth) grown := by
  induction fuel generalizing i growth with
  | zero => cases h
  | succ fuel ih =>
    unfold walk at h ⊢
    split at h
    next => cases h
    next column hcolumn =>
      split at h
      next hend =>
        cases h
        exact .inl rfl
      next id hentry =>
        split at h
        next => cases h
        next visited hvisit =>
          split at h
          next => cases h
          next checked hcheck =>
            obtain ⟨s, hs, rfl⟩ := hc.state_of_mem hcolumn (Array.mem_of_getElem? hentry)
            have hvisited := (progress_of_visit hc hs hvisit).1
            have hchecked := (hvisited.trans (progress_of_check hcheck)).grows.indexed hc
            have hgrows := (progress_of_walk hchecked h).1.grows
            rw [eq_of_check hcheck] at h hchecked hgrows
            rcases limits'.check_cases clock' visited with ⟨hok, -⟩ | ⟨halt, herror, hgives⟩
            · rw [hok]
              exact ih hchecked h
            · rw [herror]
              exact .of_error rfl hgives hgrows.extension.size_le

/-- The walks over a column under other limits. -/
theorem reaches_of_closeColumn {walks visits : Nat} (hreach : g.Reachable tokens growth.chart)
    (h : g.closeColumn limits clock k walks visits growth = .ok grown) :
    limits'.Reaches (g.closeColumn limits' clock' k walks visits growth) grown := by
  induction walks generalizing growth with
  | zero => cases h
  | succ walks ih =>
    unfold closeColumn at h ⊢
    split at h
    next => cases h
    next walked hwalk =>
      have hfresh : g.Reachable tokens
          { growth with changed := false, sawEmpty := false : Growth }.chart := hreach
      have hwalked := hfresh.grows (progress_of_walk hfresh.indexed hwalk).1.grows
      have hreaches : limits'.Reaches (g.walk limits' clock' k visits 0
          { growth with changed := false, sawEmpty := false }) walked :=
        reaches_of_walk hfresh.indexed hwalk
      rcases hreaches with hok | ⟨halt, herror, hgives⟩
      · rw [hok]
        dsimp only
        split at h
        next hagain =>
          rw [if_pos hagain]
          exact ih hwalked h
        next hlast =>
          rw [if_neg hlast]
          exact .inl h
      · rw [herror]
        refine .of_error rfl hgives ?_
        split at h
        next => exact (closed_of_closeColumn hwalked h).1.extension.size_le
        next => cases h; exact Nat.le_refl _

/-- All columns under other limits. -/
theorem reaches_of_closeColumns {n : Nat} (hreach : g.Reachable tokens growth.chart)
    (h : g.closeColumns limits clock n growth = .ok grown) :
    limits'.Reaches (g.closeColumns limits' clock' n growth) grown := by
  unfold closeColumns at h ⊢
  generalize g.walkBound n = walks at h ⊢
  generalize g.stateBound n + 1 = visits at h ⊢
  generalize n + 1 = m at h ⊢
  suffices hmain : g.Reachable tokens grown.chart ∧ limits'.Reaches ((List.range m).foldlM
      (fun grown k => g.closeColumn limits' clock' k walks visits grown) growth) grown from hmain.2
  induction m generalizing grown with
  | zero =>
    cases h
    exact ⟨hreach, .inl rfl⟩
  | succ m ih =>
    obtain ⟨before, hbefore, hlast⟩ := foldlM_range_succ_eq_ok_iff.1 h
    obtain ⟨hreach', hreaches⟩ := ih hbefore
    have hgrows := (closed_of_closeColumn hreach' hlast).1
    refine ⟨hreach'.grows hgrows, ?_⟩
    rw [foldlM_range_succ]
    rcases hreaches with hok | ⟨halt, herror, hgives⟩
    · rw [hok]
      exact reaches_of_closeColumn hreach' hlast
    · rw [herror]
      exact .of_error rfl hgives hgrows.extension.size_le

/-! ### Charts that succeed are small enough -/

/-- A walk that succeeds leaves no more states than there may be, unless it visits none. -/
theorem admits_of_walk {fuel i : Nat} (h : g.walk limits clock k fuel i growth = .ok grown)
    (hstart : limits.Admits growth.chart ∨
      ∃ column id, growth.chart.columns[k]? = some column ∧ column[i]? = some id) :
    limits.Admits grown.chart := by
  induction fuel generalizing i growth with
  | zero => cases h
  | succ fuel ih =>
    unfold walk at h
    split at h
    next => cases h
    next column hcolumn =>
      split at h
      next hend =>
        cases h
        refine hstart.resolve_right ?_
        rintro ⟨column', id, hcolumn', hentry⟩
        obtain rfl := Option.some.inj (hcolumn.symm.trans hcolumn')
        rw [hend] at hentry
        cases hentry
      next id hentry =>
        split at h
        next => cases h
        next visited hvisit =>
          rcases limits.check_cases clock visited with ⟨hok, hadmits⟩ | ⟨halt, herror, -⟩
          · rw [hok] at h
            exact ih h (.inl hadmits)
          · rw [herror] at h
            cases h

/-- Walks over a column that succeed leave no more states than there may be, unless the column is
empty. -/
theorem admits_of_closeColumn {walks visits : Nat}
    (h : g.closeColumn limits clock k walks visits growth = .ok grown)
    (hstart : limits.Admits growth.chart ∨
      ∃ column id, growth.chart.columns[k]? = some column ∧ column[0]? = some id) :
    limits.Admits grown.chart := by
  induction walks generalizing growth with
  | zero => cases h
  | succ walks ih =>
    unfold closeColumn at h
    split at h
    next => cases h
    next walked hwalk =>
      have hadmits := admits_of_walk hwalk hstart
      split at h
      next => exact ih h (.inl hadmits)
      next => cases h; exact hadmits

/-- A chart whose columns are closed within limits has no more states than it may have. -/
theorem admits_of_closedChart (h : g.closedChart limits clock tokens = .ok grown) :
    limits.Admits grown.chart := by
  unfold closedChart at h
  split at h
  next => cases h
  next growth hseed =>
    -- The first column is not empty, since it has the start production.
    have hfirst : ∃ column id, growth.chart.columns[0]? = some column ∧ column[0]? = some id := by
      obtain ⟨i, hinsert⟩ := Reachable.insert?_of_seed hseed
      have hreach : g.Reachable tokens growth.chart := ⟨growth, hseed, .refl⟩
      obtain ⟨id, s, hs, -, hstop, -⟩ :=
        (Chart.inserted_of_insert? hinsert).has (Chart.indexed_ofTokens tokens)
      obtain ⟨column, hcolumn, hmem⟩ := hreach.indexed.mem_of_state hs
      rw [hstop] at hcolumn
      have hpos : 0 < column.size := Array.size_pos_of_mem hmem
      exact ⟨column, column[0], hcolumn, Array.getElem?_eq_getElem hpos⟩
    unfold closeColumns at h
    generalize g.walkBound tokens.length = walks at h
    generalize g.stateBound tokens.length + 1 = visits at h
    generalize tokens.length = m at h
    induction m generalizing grown with
    | zero =>
      obtain ⟨before, hbefore, hlast⟩ := foldlM_range_succ_eq_ok_iff.1 h
      cases hbefore
      exact admits_of_closeColumn hlast (.inr hfirst)
    | succ m ih =>
      obtain ⟨before, hbefore, hlast⟩ := foldlM_range_succ_eq_ok_iff.1 h
      exact admits_of_closeColumn hlast (.inl (ih hbefore))

/-! ### Parses -/

/-- A parse is given up if its chart is. -/
theorem parse_of_closedChart_eq_error {halt : Halt}
    (h : g.closedChart limits clock tokens = .error halt) :
    g.parse limits clock tokens = .error halt := by
  have hparse : ∀ (closed : Except Halt Growth)
      (hlayered : ∀ grown, closed = .ok grown → grown.chart.Layered), closed = .error halt →
        g.parseOfChart closed hlayered = .error halt := by
    rintro closed hlayered rfl
    rfl
  exact hparse _ _ h

/-- A parse that succeeds under some limits does so under others as well, or is given up. -/
theorem parse_cases {p : Parse} (h : g.parse limits clock tokens = .ok p) (limits' : Limits)
    (clock' : Clock) :
    (g.parse limits' clock' tokens = .ok p ∧ limits'.Admits p.chart) ∨
      ∃ halt, g.parse limits' clock' tokens = .error halt ∧
        limits'.GivesUp p.chart.size halt := by
  obtain ⟨grown, hclosed, hroots, hgrammar, hchart⟩ := parse_eq_ok_iff.1 h
  have hreaches : limits'.Reaches (g.closedChart limits' clock' tokens) grown := by
    unfold closedChart at hclosed ⊢
    split at hclosed
    next => cases hclosed
    next growth hseed =>
      exact reaches_of_closeColumns ⟨growth, hseed, .refl⟩ hclosed
  rw [hchart]
  rcases hreaches with hok | ⟨halt, herror, hgives⟩
  · exact .inl ⟨parse_eq_ok_iff.2 ⟨grown, hok, hroots, hgrammar, hchart⟩,
      admits_of_closedChart hok⟩
  · exact .inr ⟨halt, parse_of_closedChart_eq_error herror, hgives⟩

/-- Every input has one parse, from which limits may only keep back. If the duration is not limited,
the input is parsed if the number of states of the parse is within the limit, and is given up over
this number otherwise. If the duration is limited, whatever the clock shows, the input is parsed or
given up over the duration, unless the parse has too many states and it is given up over these. -/
theorem parse_within_limits {ds : List Declaration} {start : String}
    (hg : ofDeclarations ds start = .ok g) (tokens : List String) :
    ∃ p, (∀ limits clock, limits.maxStates = none → limits.maxDuration = none →
        g.parse limits clock tokens = .ok p) ∧
      (∀ limits clock limit, limits.maxStates = some limit → limits.maxDuration = none →
        (p.chart.size ≤ limit → g.parse limits clock tokens = .ok p) ∧
        (limit < p.chart.size → ∃ halt, g.parse limits clock tokens = .error halt ∧
          halt.error = .stateBudget limit)) ∧
      ∀ limits clock longest, limits.maxDuration = some longest →
        (g.parse limits clock tokens = .ok p ∧
          ∀ limit, limits.maxStates = some limit → p.chart.size ≤ limit) ∨
        ∃ halt, g.parse limits clock tokens = .error halt ∧
          (halt.error = .timeBudget longest ∨ ∃ limit, limits.maxStates = some limit ∧
            limit < p.chart.size ∧ halt.error = .stateBudget limit) := by
  have hexists : ∃ p, g.parse .unbounded (fun _ => { nanoseconds := 0 }) tokens = .ok p :=
    exists_parse (wellFormed_of_ofDeclarations hg) rfl rfl tokens
  obtain ⟨p, hp⟩ := hexists
  refine ⟨p, fun limits clock hstates hduration => ?_,
    fun limits clock limit hlimit hduration => ⟨fun hle => ?_, fun hlt => ?_⟩,
    fun limits clock longest hlongest => ?_⟩
  · rcases parse_cases hp limits clock with ⟨hok, -⟩ | ⟨halt, -, hgives⟩
    · exact hok
    · obtain ⟨limit, hlimit, -⟩ := hgives.of_maxDuration_eq_none hduration
      rw [hstates] at hlimit
      cases hlimit
  · rcases parse_cases hp limits clock with ⟨hok, -⟩ | ⟨halt, -, hgives⟩
    · exact hok
    · obtain ⟨limit', hlimit', hlt, -⟩ := hgives.of_maxDuration_eq_none hduration
      obtain rfl := Option.some.inj (hlimit.symm.trans hlimit')
      exact absurd hlt (Nat.not_lt_of_le hle)
  · rcases parse_cases hp limits clock with ⟨-, hadmits⟩ | ⟨halt, herror, hgives⟩
    · exact absurd hlt (Nat.not_lt_of_le (hadmits limit hlimit))
    · obtain ⟨limit', hlimit', -, hhalt⟩ := hgives.of_maxDuration_eq_none hduration
      obtain rfl := Option.some.inj (hlimit.symm.trans hlimit')
      exact ⟨halt, herror, hhalt⟩
  · rcases parse_cases hp limits clock with hok |
      ⟨halt, herror, hstates | ⟨longest', hlongest', hhalt⟩⟩
    · exact .inl hok
    · exact .inr ⟨halt, herror, .inr hstates⟩
    · obtain rfl := Option.some.inj (hlongest.symm.trans hlongest')
      exact .inr ⟨halt, herror, .inl hhalt⟩

/-- The chart of a word has nine states, in a grammar with an empty rule that recurs on its left. -/
theorem parse_within_limits_of_word :
    ∃ g p, ofDeclarations [.nonterminal "S", .lexeme "a" ["x", "y"], .addRule "S" [],
        .addRule "S" ["S", "a"]] "S" = .ok g ∧ p.chart.size = 9 ∧
      (∀ clock, g.parse { maxStates := some 9, maxDuration := none } clock ["x"] = .ok p) ∧
      (∀ clock, ∃ halt, g.parse { maxStates := some 8, maxDuration := none } clock ["x"] =
        .error halt ∧ halt.error = .stateBudget 8) ∧
      ∀ clock longest,
        g.parse { maxStates := some 9, maxDuration := some longest } clock ["x"] = .ok p ∨
        ∃ halt, g.parse { maxStates := some 9, maxDuration := some longest } clock ["x"] =
          .error halt ∧ halt.error = .timeBudget longest := by
  have hsize : (ofDeclarations [.nonterminal "S", .lexeme "a" ["x", "y"], .addRule "S" [],
      .addRule "S" ["S", "a"]] "S").toOption.any (fun g =>
        (g.parse .unbounded (fun _ => { nanoseconds := 0 }) ["x"]).toOption.any
          (·.chart.size == 9)) = true := by
    decide +kernel
  have hexists : ∃ g, ofDeclarations [.nonterminal "S", .lexeme "a" ["x", "y"], .addRule "S" [],
      .addRule "S" ["S", "a"]] "S" = .ok g := exists_ofDeclarations (by decide +kernel)
  obtain ⟨g, hg⟩ := hexists
  obtain ⟨p, hunbounded, hbounded, hlongest⟩ := parse_within_limits hg ["x"]
  have hp := hunbounded .unbounded (fun _ => { nanoseconds := 0 }) rfl rfl
  rw [hg] at hsize
  have hnine : p.chart.size = 9 := by simpa [Except.toOption, hp] using hsize
  refine ⟨g, p, hg, hnine, fun clock => (hbounded _ clock 9 rfl rfl).1 (by omega),
    fun clock => (hbounded _ clock 8 rfl rfl).2 (by omega), fun clock longest => ?_⟩
  rcases hlongest { maxStates := some 9, maxDuration := some longest } clock longest rfl with
    ⟨hok, -⟩ | ⟨halt, herror, htime | ⟨limit, hlimit, hlt, -⟩⟩
  · exact .inl hok
  · exact .inr ⟨halt, herror, htime⟩
  · obtain rfl := Option.some.inj hlimit
    omega

end Grammar

end Earley
