import Mathlib.Algebra.Order.BigOperators.Group.List
import Mathlib.Algebra.Order.Ring.Nat
import Mathlib.Tactic.Linarith
import Mathlib.Tactic.Ring
import Earley.Proofs.Parse.Sources
/-!
# How large a chart may become

The states of a chart stand in different places, a place being a column together with an item, and
there are no more places than `Grammar.stateBound` says (`Grammar.Reachable.size_le`). The sources
of a state are different pairs of states or the match of a single word, which bounds what a chart
can hold (`Grammar.Reachable.mass_lt`), and with it the number of walks that change something.
-/

namespace Earley

namespace Grammar

variable {g : Grammar} {tokens : List String} {c : Chart} {n : Nat}

/-! ### The places of a chart -/

/-- The places of the start production: before its symbol at the beginning, and after it. -/
def startPlaces (n : Nat) : List (Nat × Item) :=
  (0, { production := .start, origin := 0, dot := 0 }) ::
    (List.range (n + 1)).map fun k => (k, { production := .start, origin := 0, dot := 1 })

/-- The places of the matches of terminals, one for each terminal and each word. -/
def lexemePlaces (g : Grammar) (n : Nat) : List (Nat × Item) :=
  (g.names.filter fun entry => entry.2.isTerminal).flatMap fun entry =>
    (List.range n).map fun j =>
      (j + 1, { production := .lexeme (.terminal entry.1), origin := j, dot := 1 })

/-- The pairs of positions in order. -/
def spans (n : Nat) : List (Nat × Nat) :=
  (List.range (n + 1)).flatMap fun k => (List.range (k + 1)).map fun j => (j, k)

/-- The places for a dot in the rules, which are given by their positions. -/
def dots (g : Grammar) : List (Nat × Nat) :=
  g.rules.toList.zipIdx.flatMap fun entry =>
    (List.range (entry.1.rhs.length + 1)).map fun d => (entry.2, d)

/-- The places of the rules, one for each place of a dot and each pair of positions in order. -/
def rulePlaces (g : Grammar) (n : Nat) : List (Nat × Item) :=
  g.dots.flatMap fun dot =>
    (spans n).map fun span =>
      (span.2, { production := .rule dot.1, origin := span.1, dot := dot.2 })

/-- The columns and items in which the states of a chart for `n` words can stand. -/
def places (g : Grammar) (n : Nat) : List (Nat × Item) :=
  startPlaces n ++ g.lexemePlaces n ++ g.rulePlaces n

theorem mem_spans {j k : Nat} : (j, k) ∈ spans n ↔ j ≤ k ∧ k ≤ n := by
  simp only [spans, List.mem_flatMap, List.mem_range, List.mem_map, Prod.mk.injEq]
  constructor
  · rintro ⟨k, hk, j, hj, rfl, rfl⟩
    exact ⟨Nat.le_of_lt_succ hj, Nat.le_of_lt_succ hk⟩
  · rintro ⟨hj, hk⟩
    exact ⟨k, Nat.lt_succ_of_le hk, j, Nat.lt_succ_of_le hj, rfl, rfl⟩

theorem mem_dots {position d : Nat} {rule : Rule} (hrule : g.rules[position]? = some rule)
    (hd : d ≤ rule.rhs.length) : (position, d) ∈ g.dots := by
  refine List.mem_flatMap.2 ⟨(rule, position), ?_, ?_⟩
  · rw [List.mem_zipIdx_iff_getElem?, Array.getElem?_toList, hrule]
  · exact List.mem_map.2 ⟨d, List.mem_range.2 (Nat.lt_succ_of_le hd), rfl⟩

/-- There are half as many pairs of positions in order as there are with a position and the next
one, if these are counted apart. -/
theorem two_mul_length_spans (n : Nat) : 2 * (spans n).length = (n + 1) * (n + 2) := by
  induction n with
  | zero => rfl
  | succ n ih =>
    have hsplit : (spans (n + 1)).length = (spans n).length + (n + 2) := by
      rw [spans, List.range_succ, List.flatMap_append, List.length_append]
      simp [spans]
    rw [hsplit, Nat.mul_add, ih]
    ring

theorem length_dots (g : Grammar) : g.dots.length = g.dotCount := by
  rw [dots, List.length_flatMap, dotCount]
  have hfirst : g.rules.toList.zipIdx.map Prod.fst = g.rules.toList := List.zipIdx_map_fst 0 _
  conv_rhs => rw [← hfirst, List.foldr_map]
  simp [List.sum_eq_foldr, List.foldr_map]

/-- There are as many places as the bound on the number of states counts. -/
theorem length_places (g : Grammar) (n : Nat) : (g.places n).length = g.stateBound n := by
  have hstart : (startPlaces n).length = n + 2 := by simp [startPlaces]
  have hlexeme : (g.lexemePlaces n).length = n * g.terminalCount := by
    simp [lexemePlaces, List.length_flatMap, terminalCount, List.countP_eq_length_filter,
      Nat.mul_comm]
  have hrule : (g.rulePlaces n).length = g.dotCount * (n + 1) * (n + 2) / 2 := by
    rw [rulePlaces, List.length_flatMap]
    simp only [List.length_map, List.map_const', List.sum_replicate_nat, length_dots]
    rw [Nat.mul_assoc, ← two_mul_length_spans, Nat.mul_left_comm,
      Nat.mul_div_cancel_left _ Nat.two_pos]
  rw [places, List.length_append, List.length_append, hstart, hlexeme, hrule, stateBound]

/-- Every state that says something true stands in one of the places. -/
theorem Sound.mem_places {s : State} {phrase : List Symbol} (h : g.Sound tokens s phrase) :
    (s.stop, s.toItem) ∈ g.places tokens.length := by
  have hphrase := h.phrase_eq
  have hbegin := h.mayBegin
  have hderives := h.derives
  have hdot := h.dot_le
  rw [places, List.mem_append, List.mem_append]
  cases hproduction : s.production with
  | start =>
    rw [hproduction] at hphrase hbegin
    obtain ⟨symbol, -, rfl⟩ := Option.map_eq_some_iff.1 hphrase
    have horigin : s.origin = 0 := hbegin
    refine .inl (.inl ?_)
    rcases Nat.lt_or_eq_of_le hdot with hbefore | hafter
    · have hzero : s.dot = 0 := Nat.lt_one_iff.1 hbefore
      rw [hzero, List.take_zero, horigin] at hderives
      have hlength := length_between (Nat.zero_le s.stop) h.stop_le
      rw [hderives.eq_nil, List.length_nil, Nat.sub_zero] at hlength
      rw [State.toItem_eq hproduction horigin hzero, ← hlength]
      exact List.mem_cons_self
    · rw [State.toItem_eq hproduction horigin hafter]
      refine List.mem_cons_of_mem _ (List.mem_map.2 ⟨s.stop, ?_, rfl⟩)
      exact List.mem_range.2 (Nat.lt_succ_of_le h.stop_le)
  | lexeme symbol =>
    rw [hproduction] at hphrase hbegin
    cases hphrase
    have hone := h.dot_of_lexeme symbol hproduction
    rw [hone] at hderives
    rw [State.toItem_eq hproduction rfl hone]
    cases symbol with
    | nonterminal name => cases hbegin.1
    | terminal name =>
      obtain ⟨word, hword, haccepts⟩ := Derives.terminal_iff.1 hderives
      obtain ⟨hstop, hword⟩ := getElem?_of_between_eq_singleton h.origin_le h.stop_le hword
      obtain ⟨test, hcategory, -⟩ := accepts_eq_true_iff.1 haccepts
      obtain ⟨front, back, hnames, -⟩ := List.lookup_eq_some_iff.1 hcategory
      refine .inl (.inr (List.mem_flatMap.2 ⟨(name, .terminal test), ?_, ?_⟩))
      · refine List.mem_filter.2 ⟨?_, rfl⟩
        rw [hnames]
        exact List.mem_append_right _ List.mem_cons_self
      · rw [hstop]
        refine List.mem_map.2 ⟨s.origin, ?_, rfl⟩
        exact List.mem_range.2 (List.getElem?_eq_some_iff.1 hword).1
  | rule position =>
    rw [hproduction] at hphrase
    obtain ⟨rule, hrule, rfl⟩ := Option.map_eq_some_iff.1 hphrase
    rw [State.toItem_eq hproduction rfl rfl]
    exact .inr (List.mem_flatMap.2 ⟨(position, s.dot), mem_dots hrule hdot,
      List.mem_map.2 ⟨(s.origin, s.stop), mem_spans.2 ⟨h.origin_le, h.stop_le⟩, rfl⟩⟩)

/-! ### The number of states and of their sources -/

/-- A chart never has more states than the bound says. -/
theorem Reachable.size_le (hg : g.WellFormed) (h : g.Reachable tokens c) :
    c.size ≤ g.stateBound tokens.length := by
  have hnodup : (c.states.toList.map fun s => (s.stop, s.toItem)).Nodup := by
    rw [List.Nodup, List.pairwise_map, List.pairwise_iff_getElem]
    intro i j hi hj hij hsame
    obtain ⟨hstop, hitem⟩ := Prod.mk.inj hsame
    have hget {id : Nat} (hid : id < c.states.toList.length) :
        c.states[id]? = some c.states.toList[id] := by
      rw [← Array.getElem?_toList, List.getElem?_eq_getElem hid]
    exact Nat.ne_of_lt hij (h.indexed.id_unique (hget hi) (hget hj) hstop hitem)
  have hsubset : (c.states.toList.map fun s => (s.stop, s.toItem)) ⊆ g.places tokens.length := by
    intro place hplace
    obtain ⟨s, hmem, rfl⟩ := List.mem_map.1 hplace
    obtain ⟨id, hs⟩ := Array.mem_iff_getElem?.1 (Array.mem_toList_iff.1 hmem)
    obtain ⟨phrase, hsound⟩ := h.sound hg hs
    exact hsound.mem_places
  have hlength := hnodup.length_le_of_subset hsubset
  rw [List.length_map, length_places] at hlength
  exact hlength

/-- A column lists no more states than there are. -/
theorem Reachable.size_column_le (h : g.Reachable tokens c) {k : Nat} {column : Array Nat}
    (hcolumn : c.columns[k]? = some column) : column.size ≤ c.size := by
  have hnodup : column.toList.Nodup :=
    (h.indexed.increasing hcolumn).imp fun hlt => Nat.ne_of_lt hlt
  have hsubset : column.toList ⊆ List.range c.size := by
    intro id hid
    obtain ⟨s, hs, -⟩ := h.indexed.state_of_mem hcolumn (Array.mem_toList_iff.1 hid)
    exact List.mem_range.2 (Array.getElem?_eq_some_iff.1 hs).1
  have hlength := hnodup.length_le_of_subset hsubset
  rw [List.length_range] at hlength
  exact hlength

/-- A state has no more sources than there are pairs of states, and one for a word. -/
theorem Reachable.length_sources_le (h : g.Reachable tokens c) {id : Nat} {s : State}
    (hs : c.states[id]? = some s) : s.sources.length ≤ c.size * c.size + 1 := by
  have hsubset : s.sources ⊆ .scan s.origin ::
      (List.range c.size).flatMap fun prev =>
        (List.range c.size).map fun child => .complete prev child := by
    intro source hmem
    cases (h.sourced hs).supports source hmem with
    | scan => exact List.mem_cons_self
    | complete hp ht =>
      refine List.mem_cons_of_mem _ (List.mem_flatMap.2 ⟨_, ?_, List.mem_map.2 ⟨_, ?_, rfl⟩⟩)
      · exact List.mem_range.2 (Array.getElem?_eq_some_iff.1 hp).1
      · exact List.mem_range.2 (Array.getElem?_eq_some_iff.1 ht).1
  have hlength := (h.sourced hs).nodup.length_le_of_subset hsubset
  simpa [List.length_flatMap] using hlength

/-- States with no more sources than a bound hold no more than the bound says. -/
theorem massOf_le {states : List State} {bound : Nat}
    (h : ∀ s ∈ states, s.sources.length ≤ bound) :
    Chart.massOf states ≤ states.length * (bound + 1) := by
  induction states with
  | nil => simp [Chart.massOf]
  | cons s rest ih =>
    have hfirst := h s List.mem_cons_self
    have hrest := ih fun other hmem => h other (List.mem_cons_of_mem _ hmem)
    rw [Chart.massOf, List.length_cons, Nat.succ_mul]
    omega

/-- What a chart holds never reaches the bound on the number of walks. -/
theorem Reachable.mass_lt (hg : g.WellFormed) (h : g.Reachable tokens c) :
    c.mass < g.walkBound tokens.length := by
  have hsize := h.size_le hg
  have hmass : c.mass ≤ c.size * (c.size * c.size + 1 + 1) := by
    refine massOf_le fun s hmem => ?_
    obtain ⟨id, hs⟩ := Array.mem_iff_getElem?.1 (Array.mem_toList_iff.1 hmem)
    exact h.length_sources_le hs
  have hle : c.size + 1 ≤ g.stateBound tokens.length + 1 := Nat.succ_le_succ hsize
  calc c.mass ≤ c.size * (c.size * c.size + 1 + 1) := hmass
    _ < (c.size + 1) * (c.size + 1) * (c.size + 1) := by nlinarith
    _ ≤ g.walkBound tokens.length := Nat.mul_le_mul (Nat.mul_le_mul hle hle) hle

end Grammar

end Earley
