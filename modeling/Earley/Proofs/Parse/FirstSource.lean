import Earley.Proofs.Parse.Lists
import Earley.Proofs.Parse.Passing
/-!
# First sources

A state is made after the states that its first source names, and sources that are found later come
after the first one. The first source of a state therefore leads to older states
(`Grammar.Reachable.firstOlder`), and so do all first sources on the way back to where the match
began: the children in the first back-pointer list of a state are older than the state
(`Grammar.Reachable.exists_first_list`). Whoever follows first lists only does not go in circles,
even if the derivations of the chart do. This holds of every chart that a parse passes through, and
so of the finished one (`Grammar.first_sources_older_of_parse`).
-/

namespace Earley

namespace Grammar

variable {g : Grammar} {tokens : List String} {c c' : Chart} {id : Nat} {s : State}

/-- The first source of a state, if it is a completion, names states with smaller numbers. A state
whose dot has moved has a first source. -/
structure FirstOlder (id : Nat) (s : State) : Prop where
  /-- There is a source if the dot has moved. -/
  exists_source : 0 < s.dot → s.sources ≠ []
  /-- The states of the first source are older. -/
  lt_of_head? : ∀ {prev child : Nat}, s.sources.head? = some (.complete prev child) →
    prev < id ∧ child < id

namespace FirstOlder

/-- A state that has just begun has no first source. -/
theorem predict (id : Nat) (production : Production) (length position : Nat) :
    FirstOlder id (.predict production length position) := by
  constructor
  · intro hdot
    exact absurd hdot (Nat.lt_irrefl 0)
  · intro prev child hfirst
    cases hfirst

/-- A state that is called for is newer than all states of the chart. -/
theorem of_calls (h : g.Calls c id s) : FirstOlder c.size s := by
  cases h with
  | predict => exact predict _ _ _ _
  | scan =>
    refine ⟨fun _ => List.cons_ne_nil _ _, fun hfirst => ?_⟩
    cases hfirst
  | advance hs _ _ hp =>
    refine ⟨fun _ => List.cons_ne_nil _ _, fun hfirst => ?_⟩
    cases hfirst
    exact ⟨(Array.getElem?_eq_some_iff.1 hp).1, (Array.getElem?_eq_some_iff.1 hs).1⟩

/-- Sources that are found later leave the first one in its place. -/
theorem merge {t : State} (h : FirstOlder id s) (ht : 0 < t.dot ∨ t.sources = [])
    (hdot : s.dot = t.dot) : FirstOlder id (s.merge t.sources) := by
  have hprefix := s.sources_merge_of_prefix t.sources
  constructor
  · intro hpos hnil
    rw [hnil, List.prefix_nil] at hprefix
    exact h.exists_source hpos hprefix
  · intro prev child hfirst
    cases hsources : s.sources with
    | nil =>
      -- A state without sources has not moved its dot, and nothing is merged into it.
      have hzero : ¬ 0 < s.dot := fun hpos => h.exists_source hpos hsources
      have hnone := ht.resolve_left (hdot ▸ hzero)
      rw [hnone, State.merge_nil, hsources] at hfirst
      cases hfirst
    | cons first rest =>
      rw [hsources] at hprefix
      obtain ⟨later, hlater⟩ := hprefix
      rw [← hlater] at hfirst
      exact h.lt_of_head? (by rw [hsources]; exact hfirst)

end FirstOlder

/-- The first sources of all states of a chart that a parse may come to name older states. -/
theorem Reachable.firstOlder (h : g.Reachable tokens c) (hs : c.states[id]? = some s) :
    FirstOlder id s := by
  suffices hall : c.Indexed ∧
      ∀ (id : Nat) (s : State), c.states[id]? = some s → FirstOlder id s from hall.2 id s hs
  refine h.keeps
    (P := fun c => c.Indexed ∧ ∀ (id : Nat) (s : State), c.states[id]? = some s → FirstOlder id s)
    (fun hinsert => ?_) (fun hc hcalls hinsert => ?_)
  · have hinserted := Chart.inserted_of_insert? hinsert
    refine ⟨hinserted.indexed (Chart.indexed_ofTokens tokens), fun id t ht => ?_⟩
    rcases hinserted.state_cases ht with ht | ⟨-, rfl⟩ | ⟨u, hu, -⟩
    · simp [Chart.ofTokens] at ht
    · exact .predict _ _ _ _
    · simp [Chart.ofTokens] at hu
  · have hinserted := Chart.inserted_of_insert? hinsert
    refine ⟨hinserted.indexed hc.1, fun id t ht => ?_⟩
    rcases hinserted.state_cases ht with
      ht | ⟨rfl, rfl⟩ | ⟨u, hu, rfl, column, hcolumn, hid⟩
    · exact hc.2 id t ht
    · exact .of_calls hcalls
    · obtain ⟨u', hu', -, hitem⟩ := (hc.1.id?_eq_some_iff hcolumn).1 hid
      obtain rfl : u = u' := Option.some.inj (hu.symm.trans hu')
      refine (hc.2 id u hu).merge ?_ (congrArg Item.dot hitem)
      cases hcalls with
      | predict => exact .inr rfl
      | scan => exact .inl Nat.zero_lt_one
      | advance => exact .inl (Nat.succ_pos _)

/-- Links begin with the first source, if it is a completion. -/
theorem head?_of_leadingLinks {sources : List Source} {prev child : Nat}
    {others : List (Nat × Nat)} (h : leadingLinks sources = (prev, child) :: others) :
    sources.head? = some (.complete prev child) := by
  unfold leadingLinks at h
  split at h
  next =>
    cases h
    rfl
  next => cases h

/-- Every state has a first list, and its children are older than the state. -/
theorem Reachable.exists_first_list (h : g.Reachable tokens c) (hs : c.states[id]? = some s) :
    ∃ children others, c.lists id = children :: others ∧ ∀ child ∈ children, child < id := by
  induction id using Nat.strongRecOn generalizing s with
  | _ id ih =>
    have hlinks : c.links? id = some (leadingLinks s.sources) := by
      rw [Chart.links?, hs, Option.map_some]
    cases hleading : leadingLinks s.sources with
    | nil =>
      rw [hleading] at hlinks
      have hnone : ∀ child ∈ ([] : List Nat), child < id :=
        fun _ hmem => absurd hmem List.not_mem_nil
      exact ⟨[], [], Chart.lists_of_links?_eq_nil hlinks, hnone⟩
    | cons first others =>
      obtain ⟨prev, child⟩ := first
      obtain ⟨hprev, hchild⟩ := (h.firstOlder hs).lt_of_head? (head?_of_leadingLinks hleading)
      rw [hleading] at hlinks
      -- The first list goes on from that of the state which was advanced first.
      obtain ⟨before, hbefore⟩ := Chart.exists_of_mem_links? h.layered hlinks List.mem_cons_self
      obtain ⟨front, others', hfront, holder⟩ := ih prev hprev hbefore
      rw [Chart.lists_of_links?_eq_cons h.layered hlinks, List.flatMap_cons, hfront]
      refine ⟨_, _, rfl, fun other hother => ?_⟩
      rcases List.mem_append.1 hother with hother | hother
      · exact Nat.lt_trans (holder other hother) hprev
      · exact List.mem_singleton.1 hother ▸ hchild

/-- At every point of a parse, the first source of every state names older states. In the finished
chart, the back-pointers of every state begin with a list of older states. -/
theorem first_sources_older_of_parse (g : Grammar) (tokens : List String) :
    (∀ c : Chart, g.Passes tokens c →
      ∀ (id : Nat) (s : State) (prev child : Nat) (rest : List Source),
        c.states[id]? = some s → s.sources = .complete prev child :: rest →
          prev < id ∧ child < id) ∧
    ∀ (limits : Limits) (clock : Clock) (p : Parse), g.parse limits clock tokens = .ok p →
      g.Passes tokens p.chart ∧ ∀ (id : Nat) (s : State), p.chart.states[id]? = some s →
        ∃ b first later, p.chart.backpointers? id = some b ∧
          b.next? p.chart = some (some (first, later)) ∧ ∀ child ∈ first, child < id := by
  constructor
  · intro c hpasses id s prev child rest hs hsources
    exact (hpasses.reachable.firstOlder hs).lt_of_head? (by rw [hsources]; rfl)
  · intro limits clock p hp
    have hpasses : g.Passes tokens p.chart := passes_of_parse hp
    refine ⟨hpasses, fun id s hs => ?_⟩
    obtain ⟨first, others, hlists, holder⟩ := hpasses.reachable.exists_first_list hs
    obtain ⟨b, hb, hhandsOut⟩ := Chart.exists_handsOut hpasses.reachable.layered hs
    rw [hlists] at hhandsOut
    cases hhandsOut with
    | list hnext _ => exact ⟨b, first, _, hb, hnext, holder⟩

/-- A symbol that derives itself: the state that goes round the circle has itself in its second
list, and not in its first one. -/
theorem first_sources_older_of_parse_of_circle :
    ∃ g p s, ofDeclarations [.nonterminal "S", .lexeme "a" ["x"], .addRule "S" ["S"],
        .addRule "S" ["a"]] "S" = .ok g ∧
      g.parse .unbounded (fun _ => { nanoseconds := 0 }) ["x"] = .ok p ∧
      g.Passes ["x"] p.chart ∧ p.chart.states[6]? = some s ∧
      s.sources = [.complete 1 4, .complete 1 6] ∧ p.chart.lists 6 = [[4], [6]] ∧
      (1 < 6 ∧ 4 < 6) ∧ ∃ b first later, p.chart.backpointers? 6 = some b ∧
        b.next? p.chart = some (some (first, later)) ∧ ∀ child ∈ first, child < 6 := by
  obtain ⟨g, p, hg, hp, hstate, hlists⟩ : ∃ g p, ofDeclarations [.nonterminal "S",
      .lexeme "a" ["x"], .addRule "S" ["S"], .addRule "S" ["a"]] "S" = .ok g ∧
      g.parse .unbounded (fun _ => { nanoseconds := 0 }) ["x"] = .ok p ∧
      p.chart.states[6]?.map (·.sources) = some [.complete 1 4, .complete 1 6] ∧
      p.chart.lists 6 = [[4], [6]] := exists_parse_of_any (by decide +kernel)
  obtain ⟨s, hs, hsources⟩ := Option.map_eq_some_iff.1 hstate
  obtain ⟨holder, hfirst⟩ := first_sources_older_of_parse g ["x"]
  obtain ⟨hpasses, hbegin⟩ := hfirst _ _ p hp
  exact ⟨g, p, s, hg, hp, hpasses, hs, hsources, hlists, holder _ hpasses 6 s 1 4 _ hs hsources,
    hbegin 6 s hs⟩

end Grammar

end Earley
