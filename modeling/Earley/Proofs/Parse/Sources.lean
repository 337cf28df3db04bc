import Earley.Proofs.Parse.Items
/-!
# What the sources of a state say

Every way in which a state of a chart was reached is one in which it can be reached: the word that
a terminal accepts is there, and a completion moved the dot of a state of the chart over a complete
match of the symbol that this state waited for (`Grammar.Supports`). No source is noted twice, and
a state whose dot has moved has at least one (`Grammar.Sourced`).
-/

namespace Earley

namespace Grammar

variable {g : Grammar} {tokens : List String} {c c' : Chart} {s s' : State} {source : Source}

/-- What a source says of a state is true. -/
inductive Supports (g : Grammar) (c : Chart) (t : State) : Source → Prop
  /-- The terminal of the state accepts the word at the position where the match began. -/
  | scan {name word : String} (hproduction : t.production = .lexeme (.terminal name))
    (hdot : t.dot = 1) (hstop : t.stop = t.origin + 1) (hword : c.tokens[t.origin]? = some word)
    (haccepts : g.accepts name word = true) : Supports g c t (.scan t.origin)
  /-- The state comes from moving the dot of one state over what another one has matched. -/
  | complete {prev child : Nat} {p s : State} {symbol : Symbol} (hp : c.states[prev]? = some p)
    (hs : c.states[child]? = some s) (hitem : t.toItem = p.toItem.moved 1)
    (hstop : t.stop = s.stop) (hmeet : p.stop = s.origin)
    (hawaited : g.awaited p = .ok (some symbol)) (hcomplete : s.isComplete = true)
    (hmatched : g.matched s = .ok (some symbol)) : Supports g c t (.complete prev child)

/-- A source says the same of a state that stands for the same match. -/
theorem Supports.of_toItem_eq (h : g.Supports c s source) (hitem : s'.toItem = s.toItem)
    (hstop : s'.stop = s.stop) : g.Supports c s' source := by
  have horigin : s'.origin = s.origin := congrArg Item.origin hitem
  cases h with
  | scan hproduction hdot hstop' hword haccepts =>
    rw [← horigin] at hstop' hword ⊢
    exact .scan ((congrArg Item.production hitem).trans hproduction)
      ((congrArg Item.dot hitem).trans hdot) (hstop.trans hstop') hword haccepts
  | complete hp hs hitem' hstop' hmeet hawaited hcomplete hmatched =>
    exact .complete hp hs (hitem.trans hitem') (hstop.trans hstop') hmeet hawaited hcomplete
      hmatched

/-- What a source says remains true as the chart grows. -/
theorem Supports.mono (h : g.Supports c s source) (hext : c.Extends c') :
    g.Supports c' s source := by
  cases h with
  | scan hproduction hdot hstop hword haccepts =>
    exact .scan hproduction hdot hstop (hext.tokens ▸ hword) haccepts
  | complete hp hs hitem hstop hmeet hawaited hcomplete hmatched =>
    obtain ⟨p', hp', hlater⟩ := hext.states hp
    obtain ⟨t', ht', hlater'⟩ := hext.states hs
    exact .complete hp' ht' (by rw [hitem, hlater.toItem]) (hstop.trans hlater'.stop.symm)
      (hlater.stop.trans (hmeet.trans hlater'.origin.symm))
      ((awaited_of_extends hlater).trans hawaited) (hlater'.isComplete.trans hcomplete)
      ((matched_of_extends hlater').trans hmatched)

/-- The sources of what a state calls for are true of it. -/
theorem Supports.of_calls {id : Nat} (h : g.Calls c id s) (hmem : source ∈ s.sources) :
    g.Supports c s source := by
  cases h with
  | predict => cases hmem
  | scan hs hawaited hword haccepts =>
    rw [List.mem_singleton.1 hmem]
    exact .scan rfl rfl rfl hword haccepts
  | advance hs hcomplete hmatched hp hmeet hawaited =>
    rw [List.mem_singleton.1 hmem]
    exact .complete hp hs rfl rfl hmeet hawaited hcomplete hmatched

/-- The sources of a state are in order. -/
structure Sourced (g : Grammar) (c : Chart) (s : State) : Prop where
  /-- No source is noted twice. -/
  nodup : s.sources.Nodup
  /-- A state whose dot has moved has come from somewhere. -/
  exists_source : 0 < s.dot → s.sources ≠ []
  /-- What the sources say is true. -/
  supports : ∀ source ∈ s.sources, g.Supports c s source

namespace Sourced

theorem mono (h : g.Sourced c s) (hext : c.Extends c') : g.Sourced c' s :=
  ⟨h.nodup, h.exists_source, fun source hmem => (h.supports source hmem).mono hext⟩

theorem of_calls {id : Nat} (h : g.Calls c id s) : g.Sourced c s := by
  refine ⟨?_, ?_, fun source hmem => .of_calls h hmem⟩
  · cases h with
    | predict => exact List.nodup_nil
    | scan => exact List.pairwise_singleton _ _
    | advance => exact List.pairwise_singleton _ _
  · cases h with
    | predict => exact fun hdot => absurd hdot (Nat.lt_irrefl 0)
    | scan => exact fun _ => List.cons_ne_nil _ _
    | advance => exact fun _ => List.cons_ne_nil _ _

/-- A state takes in the sources of another one for the same match. -/
theorem merge (h : g.Sourced c s) (h' : g.Sourced c s') (hitem : s.toItem = s'.toItem)
    (hstop : s.stop = s'.stop) : g.Sourced c (s.merge s'.sources) := by
  refine ⟨State.nodup_sources_merge h.nodup _, fun hdot hnil => ?_, fun source hmem => ?_⟩
  · have hprefix := s.sources_merge_of_prefix s'.sources
    rw [hnil, List.prefix_nil] at hprefix
    exact h.exists_source hdot hprefix
  · rcases State.mem_sources_merge.1 hmem with hmem | hmem
    · exact (h.supports source hmem).of_toItem_eq rfl rfl
    · exact (h'.supports source hmem).of_toItem_eq hitem hstop

end Sourced

/-- The sources of all states of a chart that a parse may come to are in order. -/
theorem Reachable.sourced (h : g.Reachable tokens c) {id : Nat} (hs : c.states[id]? = some s) :
    g.Sourced c s := by
  suffices hall : c.Indexed ∧ ∀ (id : Nat) (s : State), c.states[id]? = some s → g.Sourced c s from
    hall.2 id s hs
  have hstep {c c' : Chart} {s : State} {i : Insertion} (hinsert : c.insert? s = some (i, c'))
      (hc : c.Indexed) (hnew : g.Sourced c s)
      (hall : ∀ (id : Nat) (s : State), c.states[id]? = some s → g.Sourced c s) :
      c'.Indexed ∧ ∀ (id : Nat) (s : State), c'.states[id]? = some s → g.Sourced c' s := by
    have hinserted := Chart.inserted_of_insert? hinsert
    refine ⟨hinserted.indexed hc, fun id t ht => ?_⟩
    rcases hinserted.state_cases ht with ht | ⟨-, rfl⟩ |
      ⟨u, hu, rfl, column, hcolumn, hid⟩
    · exact (hall id t ht).mono hinserted.extension
    · exact hnew.mono hinserted.extension
    · obtain ⟨u', hu', hstop, hitem⟩ := (hc.id?_eq_some_iff hcolumn).1 hid
      obtain rfl : u = u' := Option.some.inj (hu.symm.trans hu')
      exact ((hall id u hu).merge hnew hitem hstop).mono hinserted.extension
  refine h.keeps
    (P := fun c => c.Indexed ∧ ∀ (id : Nat) (s : State), c.states[id]? = some s → g.Sourced c s)
    (fun hinsert => ?_) (fun hc hcalls hinsert => hstep hinsert hc.1 (.of_calls hcalls) hc.2)
  refine hstep hinsert (Chart.indexed_ofTokens tokens)
    ⟨List.nodup_nil, fun hdot => absurd hdot (Nat.lt_irrefl 0), fun _ hmem => nomatch hmem⟩
    fun id s hs => ?_
  simp [Chart.ofTokens] at hs

end Grammar

end Earley
