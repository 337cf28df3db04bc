import Earley.Chart.Insertion
/-!
# Layered charts

In a chart that grows by advancing its own states, every completion among the sources of a state
leads back to a state whose dot stands one place further left. Ways back through such a chart end
after as many links as the dot counts, so they cannot go in a circle. `Chart.Layered` is this
property, and `layered_of_insert?` says what keeps it.
-/

namespace Earley.Chart

/-- The completions among the sources of `s` lead back to states of the chart whose dots stand one
place before that of `s`. -/
def LinksBack (c : Chart) (s : State) : Prop :=
  ∀ prev child, .complete prev child ∈ s.sources →
    ∃ before, c.states[prev]? = some before ∧ before.dot + 1 = s.dot

/-- Every state of the chart is linked back to states of the chart. -/
def Layered (c : Chart) : Prop :=
  ∀ (id : Nat) (s : State), c.states[id]? = some s → c.LinksBack s

/-- A state that has just begun is linked to nothing. -/
theorem linksBack_predict (c : Chart) (production : Production) (length position : Nat) :
    c.LinksBack (.predict production length position) := by
  intro prev child h
  cases h

/-- A match of a word is linked to nothing. -/
theorem linksBack_lexeme (c : Chart) (symbol : Symbol) (position : Nat) :
    c.LinksBack (.lexeme symbol position) := by
  intro prev child h
  rcases List.mem_singleton.1 h with ⟨⟩

/-- A state that is advanced is what its successor is linked to. -/
theorem linksBack_advance {c : Chart} {parent : Nat} {s : State}
    (h : c.states[parent]? = some s) (stop child : Nat) :
    c.LinksBack (s.advance stop (.complete parent child)) := by
  intro prev child' hmem
  cases List.mem_singleton.1 hmem
  exact ⟨s, h, rfl⟩

theorem layered_ofTokens (tokens : List String) : (ofTokens tokens).Layered := by
  intro id s h
  simp [ofTokens] at h

/-- Links lead to the same places in a later stage of the chart. -/
theorem LinksBack.mono {c c' : Chart} {s : State} (h : c.LinksBack s) (hext : c.Extends c') :
    c'.LinksBack s := by
  intro prev child hmem
  obtain ⟨before, hbefore, hdots⟩ := h prev child hmem
  obtain ⟨after, hafter, hlater⟩ := hext.states hbefore
  exact ⟨after, hafter, by rw [hlater.dot, hdots]⟩

/-- The insertion of a state that is linked back to the chart leaves the chart layered. -/
theorem layered_of_insert? {c c' : Chart} {s : State} {i : Insertion} (hc : c.Layered)
    (hindexed : c.Indexed) (hs : c.LinksBack s) (h : c.insert? s = some (i, c')) :
    c'.Layered := by
  have hinserted := inserted_of_insert? h
  have hext := hinserted.extension
  intro id t ht
  rcases hinserted.state_cases ht with ht | ⟨-, rfl⟩ | ⟨u, hu, rfl, column, hcolumn, hid⟩
  · exact (hc id t ht).mono hext
  · exact hs.mono hext
  · obtain ⟨u', hu', -, hitem⟩ := (hindexed.id?_eq_some_iff hcolumn).1 hid
    obtain rfl : u = u' := Option.some.inj (hu.symm.trans hu')
    intro prev child hmem
    rcases State.mem_sources_merge.1 hmem with hmem | hmem
    · exact (hc id u hu).mono hext prev child hmem
    · -- The sources that are taken in are those of a state with the same dot.
      obtain ⟨before, hbefore, hdots⟩ := hs.mono hext prev child hmem
      exact ⟨before, hbefore, hdots.trans (congrArg Item.dot hitem).symm⟩

end Earley.Chart
