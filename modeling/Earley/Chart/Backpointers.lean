import Earley.Chart.Layered
/-!
# Back-pointer lists

The completions among a state's sources lead back, symbol by symbol, to the state where its match
began. `Chart.lists` follows all of these ways at once: it gives every list of child states that
matched the symbols before the dot, one child for each. `Backpointers` hands out the same lists one
at a time, as an odometer counts. It has a level for each state on one way back, with the place of
the source that is followed there. To go on, it takes back the last levels until one has a further
source, moves this one on, and follows the first sources from there. The lists therefore vary
fastest in their first child and slowest in their last.

`Backpointers.remaining` is the view that ties the two together in a layered chart: it is what the
levels still have in store, and `Backpointers.next?` takes the first of the remaining lists.

Where ways go in a circle, as they can in a chart that is not layered, there is no end to the
lists, but each of them is still found by a way of its own.
-/

namespace Earley

/-- The state that was advanced and the child that advanced it, if the source is a completion. -/
def Source.link? : Source → Option (Nat × Nat)
  | .complete prev child => some (prev, child)
  | .scan _ => none

/-- The completions at the beginning of a list of sources, each with the state that was advanced
and the child that advanced it. -/
def leadingLinks : List Source → List (Nat × Nat)
  | .complete prev child :: rest => (prev, child) :: leadingLinks rest
  | _ => []

theorem mem_of_mem_leadingLinks {sources : List Source} {link : Nat × Nat}
    (h : link ∈ leadingLinks sources) : .complete link.1 link.2 ∈ sources := by
  fun_induction leadingLinks sources with
  | case1 prev child rest ih =>
    rcases List.mem_cons.1 h with rfl | h
    · exact List.mem_cons_self
    · exact List.mem_cons_of_mem _ (ih h)
  | case2 => cases h

/-- If there is nothing but completions, all of them are links. -/
theorem mem_leadingLinks_iff {sources : List Source}
    (h : ∀ source ∈ sources, ∃ prev child, source = .complete prev child) {link : Nat × Nat} :
    link ∈ leadingLinks sources ↔ .complete link.1 link.2 ∈ sources := by
  refine ⟨mem_of_mem_leadingLinks, fun hmem => ?_⟩
  fun_induction leadingLinks sources with
  | case1 prev child rest ih =>
    rcases List.mem_cons.1 hmem with heq | hmem
    · cases heq
      exact List.mem_cons_self
    · exact List.mem_cons_of_mem _ (ih (fun source hs => h source (List.mem_cons_of_mem _ hs)) hmem)
  | case2 sources hstop =>
    cases sources with
    | nil => cases hmem
    | cons source rest =>
      obtain ⟨prev, child, rfl⟩ := h source List.mem_cons_self
      exact absurd rfl (hstop prev child rest)

theorem nodup_leadingLinks {sources : List Source} (h : sources.Nodup) :
    (leadingLinks sources).Nodup := by
  fun_induction leadingLinks sources with
  | case1 prev child rest ih =>
    obtain ⟨hnew, hrest⟩ := List.nodup_cons.1 h
    exact List.nodup_cons.2 ⟨fun hmem => hnew (mem_of_mem_leadingLinks hmem), ih hrest⟩
  | case2 => exact List.nodup_nil

/-- The completions from a place on begin with the one at this place. -/
theorem leadingLinks_drop (sources : List Source) (index : Nat) :
    leadingLinks (sources.drop index) =
      match sources[index]?.bind Source.link? with
      | some link => link :: leadingLinks (sources.drop (index + 1))
      | none => [] := by
  cases hsource : sources[index]? with
  | none => rw [List.drop_eq_nil_iff.2 (List.getElem?_eq_none_iff.1 hsource)]; rfl
  | some source =>
    obtain ⟨hlt, rfl⟩ := List.getElem?_eq_some_iff.1 hsource
    rw [List.drop_eq_getElem_cons hlt]
    cases sources[index] <;> rfl

namespace Chart

/-- The links of a state to the states before it, or `none` if there is no such state. -/
def links? (c : Chart) (id : Nat) : Option (List (Nat × Nat)) :=
  c.states[id]?.map fun s => leadingLinks s.sources

/-- The number of symbols that a state has matched, or zero if there is no such state. -/
def dot (c : Chart) (id : Nat) : Nat :=
  (c.states[id]?.map fun s => s.dot).getD 0

/-- The lists of children on the ways that lead from a state back over at most `depth` links. -/
def listsWithin (c : Chart) : Nat → Nat → List (List Nat)
  | 0, _ => [[]]
  | depth + 1, id =>
    match c.links? id with
    | none => [[]]
    | some [] => [[]]
    | some links => links.flatMap fun link => (c.listsWithin depth link.1).map (· ++ [link.2])

/-- Every list of children that matched the symbols before the dot of a state, with a child for
each place that the dot has moved. A state that has matched none, or only a word, has the empty
list. -/
def lists (c : Chart) (id : Nat) : List (List Nat) :=
  c.listsWithin (c.dot id) id

theorem dot_eq {c : Chart} {id : Nat} {s : State} (h : c.states[id]? = some s) :
    c.dot id = s.dot := by
  simp [dot, h]

/-- Links of a layered chart lead one place back. -/
theorem dot_of_mem_links? {c : Chart} (hc : c.Layered) {id : Nat} {links : List (Nat × Nat)}
    (h : c.links? id = some links) {link : Nat × Nat} (hmem : link ∈ links) :
    c.dot id = c.dot link.1 + 1 := by
  obtain ⟨s, hs, rfl⟩ := Option.map_eq_some_iff.1 h
  obtain ⟨before, hbefore, hdots⟩ := hc id s hs link.1 link.2 (mem_of_mem_leadingLinks hmem)
  rw [dot_eq hs, dot_eq hbefore, hdots]

theorem lists_of_links?_eq_nil {c : Chart} {id : Nat} (h : c.links? id = some []) :
    c.lists id = [[]] := by
  unfold lists
  cases c.dot id with
  | zero => rfl
  | succ depth => simp [listsWithin, h]

/-- The lists of a state that is linked to others are those of the others, each with one child
more. -/
theorem lists_of_links?_eq_cons {c : Chart} (hc : c.Layered) {id : Nat} {first : Nat × Nat}
    {others : List (Nat × Nat)} (h : c.links? id = some (first :: others)) :
    c.lists id = (first :: others).flatMap fun link => (c.lists link.1).map (· ++ [link.2]) := by
  have hfirst := dot_of_mem_links? hc h List.mem_cons_self
  rw [lists, hfirst, listsWithin, h]
  simp only [List.flatMap_def]
  refine congrArg List.flatten (List.map_congr_left fun link hlink => ?_)
  have hlink := dot_of_mem_links? hc h hlink
  rw [lists, Nat.succ.inj (hfirst.symm.trans hlink)]

end Chart

/-- A state on a way back, with the place among its sources of the one that is followed. -/
structure Backpointers.Level where
  /-- The state. -/
  id : Nat
  /-- The place of the source. -/
  index : Nat
deriving DecidableEq, Repr

/-- The back-pointer lists of a state that are yet to be handed out. -/
structure Backpointers where
  /-- The states on the way back that is followed, the last one first. -/
  levels : List Backpointers.Level
  /-- Whether the list of this way was handed out. -/
  started : Bool
deriving DecidableEq, Repr

namespace Chart

/-- The completion at a place among the sources of a state, as the state that was advanced and the
child that advanced it, or `some none` if there is no completion at this place. The result is
`none` if there is no such state. -/
def link? (c : Chart) (id index : Nat) : Option (Option (Nat × Nat)) :=
  c.states[id]?.map fun s => s.sources[index]?.bind Source.link?

/-- Follows the first source of a state and of every state before it. The result is `none` if the
way leads to a state that does not exist, or if it does not end before it has passed as many states
as the first argument says. -/
def descend? (c : Chart) : Nat → Nat → List Backpointers.Level → Option (List Backpointers.Level)
  | 0, _, _ => none
  | bound + 1, id, levels =>
    match c.link? id 0 with
    | none => none
    | some none => some levels
    | some (some (prev, _)) => c.descend? bound prev ({ id := id, index := 0 } :: levels)

/-- Moves to the next combination of sources, or gives `some none` once all were seen. The result
is `none` if the way leads to a state that does not exist, or in a circle, which is what it does if
it passes more states than there are. -/
def advance? (c : Chart) : List Backpointers.Level → Option (Option (List Backpointers.Level))
  | [] => some none
  | level :: lower =>
    match c.link? level.id (level.index + 1) with
    | none => none
    | some none => c.advance? lower
    | some (some (prev, _)) =>
      (c.descend? c.size prev ({ level with index := level.index + 1 } :: lower)).map some

/-- The children on the way that some levels follow, from left to right. -/
def children? (c : Chart) : List Backpointers.Level → Option (List Nat)
  | [] => some []
  | level :: lower =>
    match c.link? level.id level.index with
    | none => none
    | some none => c.children? lower
    | some (some (_, child)) => (c.children? lower).map (child :: ·)

/-- The back-pointer lists of a state. The way to the first of them is followed at once. -/
def backpointers? (c : Chart) (id : Nat) : Option Backpointers :=
  (c.descend? c.size id []).map fun levels => { levels := levels, started := false }

end Chart

namespace Backpointers

/-- Asks for the next list. The answer is `none` if every list was handed out, and comes with what
is left to be handed out. There is no answer where a way leads to a state that does not exist, or in
a circle. -/
def ask? (b : Backpointers) (c : Chart) : Option (Option (List Nat) × Backpointers) :=
  match if b.started then c.advance? b.levels else some (some b.levels) with
  | none => none
  | some none => some (none, { levels := [], started := true })
  | some (some levels) =>
    (c.children? levels).map fun list => (some list, { levels := levels, started := true })

/-- The next list and what comes after it, or `some none` if every list was handed out. -/
def next? (b : Backpointers) (c : Chart) : Option (Option (List Nat × Backpointers)) :=
  (b.ask? c).map fun answer => answer.1.map fun list => (list, answer.2)

end Backpointers

/-! ### What is left to be handed out -/

namespace Chart

/-- The links of a state from a place among its sources on. -/
def linksFrom (c : Chart) (id index : Nat) : List (Nat × Nat) :=
  ((c.states[id]?.map fun s => leadingLinks (s.sources.drop index)).getD [])

/-- The children on the way that some levels follow. -/
def childrenOf (c : Chart) (levels : List Backpointers.Level) : List Nat :=
  levels.filterMap fun level => ((c.link? level.id level.index).join).map Prod.snd

/-- The lists after that of the way that some levels follow: those of the ways that differ from it
at the last level, then those that differ at the one before it, and so on. -/
def listsAfter (c : Chart) : List Backpointers.Level → List (List Nat)
  | [] => []
  | level :: lower =>
    ((c.linksFrom level.id (level.index + 1)).flatMap fun link =>
      (c.lists link.1).map (· ++ link.2 :: c.childrenOf lower)) ++ c.listsAfter lower

variable {c : Chart}

theorem linksFrom_of_link?_eq_none {id index : Nat} (h : c.link? id index = some none) :
    c.linksFrom id index = [] := by
  obtain ⟨s, hs, hlink⟩ := Option.map_eq_some_iff.1 h
  rw [linksFrom, hs, Option.map_some, Option.getD_some, leadingLinks_drop, hlink]

theorem linksFrom_of_link?_eq_some {id index : Nat} {link : Nat × Nat}
    (h : c.link? id index = some (some link)) :
    c.linksFrom id index = link :: c.linksFrom id (index + 1) := by
  obtain ⟨s, hs, hlink⟩ := Option.map_eq_some_iff.1 h
  simp only [linksFrom, hs, Option.map_some, Option.getD_some]
  rw [leadingLinks_drop, hlink]

/-- The links of a state are those from its first source on. -/
theorem links?_of_link?_eq_some {id index : Nat} {link : Option (Nat × Nat)}
    (h : c.link? id index = some link) : c.links? id = some (c.linksFrom id 0) := by
  obtain ⟨s, hs, -⟩ := Option.map_eq_some_iff.1 h
  rw [links?, linksFrom, hs, Option.map_some, Option.map_some, Option.getD_some, List.drop_zero]

theorem childrenOf_cons {id index : Nat} {link : Nat × Nat} (levels : List Backpointers.Level)
    (h : c.link? id index = some (some link)) :
    c.childrenOf ({ id := id, index := index } :: levels) = link.2 :: c.childrenOf levels := by
  simp [childrenOf, h]

theorem childrenOf_eq_of_children? {levels : List Backpointers.Level} {list : List Nat}
    (h : c.children? levels = some list) : c.childrenOf levels = list := by
  induction levels generalizing list with
  | nil => cases h; rfl
  | cons level lower ih =>
    unfold children? at h
    split at h
    next => cases h
    next hlink =>
      rw [← ih h]
      simp [childrenOf, hlink]
    next prev child hlink =>
      obtain ⟨rest, hrest, rfl⟩ := Option.map_eq_some_iff.1 h
      rw [childrenOf_cons lower hlink, ih hrest]

/-- On the way down nothing is skipped: the lists of the state are handed out first, and then what
the levels above had in store. -/
theorem listsAfter_of_descend? (hc : c.Layered) {bound id : Nat}
    {levels levels' : List Backpointers.Level} (h : c.descend? bound id levels = some levels') :
    c.childrenOf levels' :: c.listsAfter levels' =
      (c.lists id).map (· ++ c.childrenOf levels) ++ c.listsAfter levels := by
  induction bound generalizing id levels with
  | zero => cases h
  | succ bound ih =>
    unfold descend? at h
    split at h
    next => cases h
    next hlink =>
      cases h
      have hlinks := links?_of_link?_eq_some hlink
      rw [linksFrom_of_link?_eq_none hlink] at hlinks
      rw [lists_of_links?_eq_nil hlinks]
      rfl
    next prev child hlink =>
      have hlinks := links?_of_link?_eq_some hlink
      rw [linksFrom_of_link?_eq_some hlink] at hlinks
      rw [ih h, childrenOf_cons levels hlink, listsAfter, lists_of_links?_eq_cons hc hlinks]
      simp [List.map_flatMap, Function.comp_def]

/-- To go on is to take the first of the lists that come after. -/
theorem listsAfter_of_advance? (hc : c.Layered) {levels : List Backpointers.Level}
    {next : Option (List Backpointers.Level)} (h : c.advance? levels = some next) :
    c.listsAfter levels =
      (next.map fun levels' => c.childrenOf levels' :: c.listsAfter levels').getD [] := by
  induction levels with
  | nil => cases h; rfl
  | cons level lower ih =>
    unfold advance? at h
    split at h
    next => cases h
    next hlink => rw [listsAfter, linksFrom_of_link?_eq_none hlink, ← ih h]; rfl
    next prev child hlink =>
      obtain ⟨levels', hlevels', rfl⟩ := Option.map_eq_some_iff.1 h
      rw [Option.map_some, Option.getD_some, listsAfter_of_descend? hc hlevels',
        childrenOf_cons lower hlink, listsAfter, listsAfter, linksFrom_of_link?_eq_some hlink,
        List.flatMap_cons, List.append_assoc]

end Chart

namespace Backpointers

variable {c : Chart} {b rest : Backpointers} {list : List Nat}

/-- The lists yet to be handed out. -/
def remaining (b : Backpointers) (c : Chart) : List (List Nat) :=
  if b.started then c.listsAfter b.levels else c.childrenOf b.levels :: c.listsAfter b.levels

/-- What is handed out is the first of the remaining lists, and nothing is only if none remains. -/
theorem remaining_of_ask? (hc : c.Layered) {answer : Option (List Nat)}
    (h : b.ask? c = some (answer, rest)) :
    b.remaining c = (answer.map fun list => list :: rest.remaining c).getD [] := by
  have hnext {next : Option (List Level)}
      (hlevels : (if b.started then c.advance? b.levels else some (some b.levels)) = some next) :
      b.remaining c =
        (next.map fun levels => c.childrenOf levels :: c.listsAfter levels).getD [] := by
    unfold remaining
    split at hlevels
    next hstarted => rw [if_pos hstarted, Chart.listsAfter_of_advance? hc hlevels]
    next hfresh => cases hlevels; rw [if_neg hfresh]; rfl
  unfold ask? at h
  split at h
  next => cases h
  next hdone =>
    cases h
    exact hnext hdone
  next levels hlevels =>
    obtain ⟨list, hlist, heq⟩ := Option.map_eq_some_iff.1 h
    cases heq
    rw [hnext hlevels, Option.map_some, Option.getD_some, Chart.childrenOf_eq_of_children? hlist]
    rfl

/-- The back-pointers of a state begin with all of its lists. -/
theorem remaining_of_backpointers? (hc : c.Layered) {id : Nat} (h : c.backpointers? id = some b) :
    b.remaining c = c.lists id := by
  obtain ⟨levels, hlevels, rfl⟩ := Option.map_eq_some_iff.1 h
  have hlists := Chart.listsAfter_of_descend? hc hlevels
  simpa [remaining, Chart.childrenOf, Chart.listsAfter] using hlists

/-- What is handed out next is the first of the remaining lists. -/
theorem remaining_of_next?_eq_some (hc : c.Layered) (h : b.next? c = some (some (list, rest))) :
    b.remaining c = list :: rest.remaining c := by
  obtain ⟨⟨answer, after⟩, hask, heq⟩ := Option.map_eq_some_iff.1 h
  obtain ⟨list', rfl, heq⟩ := Option.map_eq_some_iff.1 heq
  cases heq
  exact remaining_of_ask? hc hask

/-- Nothing is handed out only when nothing remains. -/
theorem remaining_of_next?_eq_none (hc : c.Layered) (h : b.next? c = some none) :
    b.remaining c = [] := by
  obtain ⟨⟨answer, after⟩, hask, heq⟩ := Option.map_eq_some_iff.1 h
  obtain rfl : answer = none := Option.map_eq_none_iff.1 heq
  exact remaining_of_ask? hc hask

end Backpointers

end Earley
