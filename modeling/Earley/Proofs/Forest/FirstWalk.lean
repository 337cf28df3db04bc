import Earley.Proofs.Forest.FirstDerivation
import Earley.Proofs.Forest.Refinement
/-!
# The walk to a first value

A walk that is after the first value only goes straight to it along the first derivation. No state
is cut on the way, since the children in first lists are older than their states, and no frame takes
up a second list, since the first one comes to a value (`Event.Straight`). The words are turned into
values one after the other. Values that were kept do not stand in for any of them: only a state that
was met before gets its values kept, and then the words were all read before it, so that it matches
no word at all (`Mark.UpTo`).
-/

universe u

namespace Earley

namespace Event

/-- The leaf that an event is about: the name of the terminal and the word. -/
def leaf? : Event → Option (String × String)
  | leaf symbol word => some (symbol, word)
  | _ => none

/-- What happens on a walk that goes straight to a value: no state is cut, and each state that gets
a frame takes up one list, at once. -/
inductive Straight : List Event → Prop
  /-- Nothing happens. -/
  | nil : Straight []
  /-- A word is turned into a value. -/
  | leaf {symbol word : String} {rest : List Event} (hrest : Straight rest) :
    Straight (.leaf symbol word :: rest)
  /-- The action of a rule is called for. -/
  | reduction {rule : Rule} {rest : List Event} (hrest : Straight rest) :
    Straight (.reduction rule :: rest)
  /-- A state gets a frame and takes up a list. -/
  | expanded {id : Nat} {rest : List Event} (hrest : Straight rest) :
    Straight (.opened id :: .list id :: rest)

theorem Straight.append {front back : List Event} (h : Straight front) (h' : Straight back) :
    Straight (front ++ back) := by
  induction h with
  | nil => exact h'
  | leaf _ ih => exact .leaf ih
  | reduction _ ih => exact .reduction ih
  | expanded _ ih => exact .expanded ih

end Event

/-! ### The marks of the walk -/

variable {α : Type u} {e : Evaluator α} {p : Parse}

/-- The mark of a state on a walk to a first value that is on a path and has read the words up to
some position. -/
structure Mark.UpTo (mark : Mark α) (e : Evaluator α) (p : Parse) (path : List Nat) (i id : Nat) :
    Prop where
  /-- The states with a frame are those on the path. -/
  onPath : mark.onPath = true ↔ id ∈ path
  /-- The value that is kept is that of the first derivation, which has no leaves. -/
  memo : ∀ {nodes : List α}, mark.memo = some nodes →
    ∃ value, nodes = [value] ∧ e.First p [id] [value] []
  /-- A state whose frame is gone stops where the walk is, or before. -/
  visited : mark.visited = true → id ∉ path →
    ∃ s, p.chart.states[id]? = some s ∧ s.stop ≤ i

/-- All marks of a walk to a first value are in order. -/
def Walk.UpTo (walk : Walk α) (e : Evaluator α) (p : Parse) (path : List Nat) (i : Nat) : Prop :=
  ∀ (id : Nat) (mark : Mark α), walk.marks[id]? = some mark → mark.UpTo e p path i id

namespace Walk.UpTo

variable {walk walk' : Walk α} {path : List Nat} {i k : Nat}

/-- The walk goes forward. -/
theorem mono (h : walk.UpTo e p path i) (hik : i ≤ k) : walk.UpTo e p path k := by
  intro id mark hmark
  refine ⟨(h id mark hmark).onPath, (h id mark hmark).memo, fun hvisited hid => ?_⟩
  obtain ⟨s, hs, hstop⟩ := (h id mark hmark).visited hvisited hid
  exact ⟨s, hs, Nat.le_trans hstop hik⟩

/-- Only the marks of a walk matter. -/
theorem of_marks_eq (h : walk.UpTo e p path i) (hmarks : walk'.marks = walk.marks) :
    walk'.UpTo e p path i := fun id mark hmark => h id mark (hmarks ▸ hmark)

/-- A walk that has not begun is on the empty path. -/
theorem ofChart (e : Evaluator α) (p : Parse) (i : Nat) :
    (Walk.ofChart p.chart).UpTo e p [] i := by
  intro id mark hmark
  obtain ⟨-, rfl⟩ := by simpa [Walk.ofChart, Array.getElem?_replicate] using hmark
  refine ⟨by simp, fun hmemo => ?_, fun hvisited => ?_⟩
  · cases hmemo
  · cases hvisited

/-- A state that gets a frame is added to the path. -/
theorem enter (h : walk.UpTo e p path i) (id : Nat) :
    ((walk.mark id fun mark => { mark with onPath := true, visited := true }).record
      (.opened id)).UpTo e p (id :: path) i := by
  intro j mark hmark
  rcases Walk.mark_cases hmark with ⟨rfl, old, hold, rfl⟩ | ⟨hne, hmark⟩
  · refine ⟨by simp, (h _ old hold).memo, fun _ hid => ?_⟩
    exact absurd List.mem_cons_self hid
  · have hother := h j mark hmark
    refine ⟨?_, hother.memo, fun hvisited hj => ?_⟩
    · rw [hother.onPath, List.mem_cons, or_iff_right (Ne.symm hne)]
    · exact hother.visited hvisited fun hmem => hj (List.mem_cons_of_mem _ hmem)

/-- A state whose frame is gone is taken off the path. -/
theorem leave {frame : Frame α} {s : State} (h : walk.UpTo e p (frame.id :: path) k)
    (hid : frame.id ∉ path) (hs : p.chart.states[frame.id]? = some s) (hstop : s.stop ≤ k)
    (hkeep : frame.repeated = true →
      ∃ value, frame.nodes.toList = [value] ∧ e.First p [frame.id] [value] []) :
    (walk.leave frame).UpTo e p path k := by
  intro j mark hmark
  rcases Walk.mark_cases hmark with ⟨rfl, old, hold, rfl⟩ | ⟨hne, hmark⟩
  · refine ⟨by simpa using hid, fun hmemo => ?_, fun _ _ => ⟨s, hs, hstop⟩⟩
    dsimp only at hmemo
    split at hmemo
    next hrepeated =>
      cases hmemo
      exact hkeep hrepeated.1
    next => exact (h _ old hold).memo hmemo
  · have hother := h j mark hmark
    refine ⟨?_, hother.memo, fun hvisited hj => hother.visited hvisited fun hmem => ?_⟩
    · rw [hother.onPath, List.mem_cons, or_iff_right (Ne.symm hne)]
    · rcases List.mem_cons.1 hmem with heq | hmem
      · exact hne heq.symm
      · exact hj hmem

end Walk.UpTo

namespace Machine

/-! ### What a task should come to -/

/-- A task with a first derivation of the words between two positions, on a path of newer states,
and the event by which it has come up, if it is a frame that has not taken up a list yet. -/
inductive Task.Due (e : Evaluator α) (p : Parse) (path : List Nat) (i k : Nat) (value : α)
    (leaves : List (String × String)) : Task α → List Event → Prop
  /-- A complete match is to be expanded. -/
  | state {id : Nat} {symbol : Symbol} (hmatches : p.grammar.Matches p.chart id symbol i k)
    (hfirst : e.First p [id] [value] leaves) (hpath : OlderThan path [id]) :
    Due e p path i k value leaves (.state id) []
  /-- A frame is to take up its first list. -/
  | fresh {frame : Frame α} {children : List Nat} {others : List (List Nat)}
    {symbols : List Symbol} {args : List α} (horder : Machine.InOrder p frame)
    (hargs : frame.args = []) (hnodes : frame.nodes = #[])
    (hlists : frame.lists.remaining p.chart = children :: others)
    (hchain : p.grammar.Chain p.chart symbols i k children)
    (hfirst : e.First p children args leaves) (hvalue : e.value? frame.rule args = some value)
    (hpath : OlderThan path children) :
    Due e p path i k value leaves (.frame frame) [.opened frame.id]
  /-- A frame is to expand the children that are left of its first list. -/
  | midway {frame : Frame α} {symbols : List Symbol} {passed args : List α}
    (horder : Machine.InOrder p frame) (hargs : frame.args = [passed]) (hnodes : frame.nodes = #[])
    (hchain : p.grammar.Chain p.chart symbols i k frame.children)
    (hfirst : e.First p frame.children args leaves)
    (hvalue : e.value? frame.rule (passed ++ args) = some value)
    (hpath : OlderThan path frame.children) :
    Due e p path i k value leaves (.frame frame) []

/-- What a walk has done that went straight to the value of a task. -/
structure GoesStraight (e : Evaluator α) (p : Parse) (path : List Nat) (k : Nat) (value : α)
    (leaves : List (String × String)) (before : List Event) (walk : Walk α)
    (result : Except ParseError (List α)) (walk' : Walk α) : Prop where
  /-- There is one value. -/
  result : result = .ok [value]
  /-- The walk has come to the end of the task. -/
  upTo : walk'.UpTo e p path k
  /-- No state was cut. -/
  cuts : walk'.cuts = walk.cuts
  /-- The walk went straight on, and turned the leaves into values. -/
  events : ∃ events, walk'.events.toList = walk.events.toList ++ events ∧
    Event.Straight (before ++ events) ∧ events.filterMap Event.leaf? = leaves

variable {tokens : List String} {path : List Nat} {i k m id : Nat} {symbol : Symbol}
  {value : α} {args : List α} {leaves front back : List (String × String)}
  {walk walk' walk'' : Walk α} {frame : Frame α} {result : Except ParseError (List α)}

/-- A single combination is reduced to a single value. -/
theorem reduceAll_singleton {rule : Rule} (hvalue : e.value? rule args = some value)
    (hlimit : e.check 1 = .ok ()) (walk : Walk α) :
    reduceAll e rule [args] #[] walk = (.ok #[value], walk.record (.reduction rule)) := by
  have hreduce : e.reduce rule args = .ok value :=
    e.reduce_eq_ok_iff.2 (Option.map_eq_some_iff.1 hvalue)
  have hcheck : e.check (#[].push value).size = .ok () := hlimit
  simp only [reduceAll, hreduce, hcheck]
  rfl

/-- A match of no words has no leaves. -/
theorem leaves_eq_nil (hp : p.grammar.Finished tokens p.chart)
    (hmatches : p.grammar.Matches p.chart id symbol i k) (hfirst : e.First p [id] [value] leaves)
    (hki : k ≤ i) : leaves = [] := by
  have hik := (hp.derives_of_matches hmatches).2.1
  obtain rfl : i = k := Nat.le_antisymm hik hki
  have hspells := hfirst.spells hp (.cons hmatches (.nil i))
  rw [between_self] at hspells
  exact List.forall₂_nil_right_iff.1 hspells

/-- A walk that comes to a state with values that are known at once. -/
theorem goesStraight_of_entered (hp : p.grammar.Finished tokens p.chart) {mark : Mark α} {s : State}
    {nodes : List α} (hmark : walk.marks[id]? = some mark) (hs : p.chart.states[id]? = some s)
    (h : Entered e p walk id mark s walk' (.values nodes)) (hwalk : walk.UpTo e p path i)
    (hmatches : p.grammar.Matches p.chart id symbol i k) (hfirst : e.First p [id] [value] leaves)
    (hpath : OlderThan path [id]) :
    GoesStraight e p path k value leaves [] walk (.ok nodes) walk' := by
  have hik := (hp.derives_of_matches hmatches).2.1
  cases h with
  | known hmemo =>
    obtain ⟨kept, rfl, hkept⟩ := (hwalk id mark hmark).memo hmemo
    obtain ⟨hvalues, rfl⟩ := hfirst.unique hkept
    exact ⟨congrArg Except.ok hvalues.symm, hwalk.mono hik, rfl, [], (List.append_nil _).symm, .nil,
      rfl⟩
  | cut _ honPath => exact absurd ((hwalk id mark hmark).onPath.1 honPath) hpath.not_mem
  | start _ _ hproduction => exact absurd hproduction (hmatches.production_ne_start hs)
  | lexeme _ _ hproduction hword =>
    obtain ⟨hvalues, rfl⟩ := hfirst.unique (.lexeme hs hproduction hword .nil)
    exact ⟨congrArg Except.ok hvalues.symm, (hwalk.of_marks_eq rfl).mono hik, rfl, [_],
      Array.toList_push, .leaf .nil, rfl⟩

/-- A walk that has worked through the frame of a state. -/
theorem goesStraight_of_opened (hp : p.grammar.Finished tokens p.chart) {mark : Mark α}
    {rule : Rule} {lists : Backpointers} {nodes : List α} (hmark : walk.marks[id]? = some mark)
    (hwalk : walk.UpTo e p path i) (hmatches : p.grammar.Matches p.chart id symbol i k)
    (hfirst : e.First p [id] [value] leaves) (hid : id ∉ path)
    (h : GoesStraight e p (id :: path) k value leaves [.opened id]
      ((walk.mark id fun mark => { mark with onPath := true, visited := true }).record (.opened id))
      (.ok nodes) walk') :
    GoesStraight e p path k value leaves [] walk (.ok nodes)
      (walk'.leave { frameOf walk id rule lists mark with nodes := nodes.toArray }) := by
  have ⟨s, hs, _, _, _, hstop⟩ := hmatches
  have hnodes : nodes = [value] := Except.ok.inj h.result
  refine ⟨h.result, h.upTo.leave hid hs (Nat.le_of_eq hstop) fun hrepeated => ?_, ?_, ?_⟩
  · -- The state was met before, so the walk had come to its end before it came to its beginning.
    obtain ⟨t, ht, hle⟩ := (hwalk id mark hmark).visited hrepeated hid
    obtain rfl := Option.some.inj (hs.symm.trans ht)
    obtain rfl := leaves_eq_nil hp hmatches hfirst (hstop ▸ hle)
    exact ⟨value, hnodes, hfirst⟩
  · rw [Walk.cuts_leave, h.cuts, Walk.cuts_record, Walk.cuts_mark]
  · obtain ⟨events, hevents, hstraight, hleaves⟩ := h.events
    refine ⟨.opened id :: events, ?_, hstraight, hleaves⟩
    rw [Walk.events_leave, hevents, Walk.events_record, Walk.events_mark, Array.toList_push,
      List.append_assoc]
    rfl

/-- A walk that has expanded the next child of a frame, and then worked through the rest of it. -/
theorem GoesStraight.trans {child : Except ParseError (List α)} {first : α}
    (h : GoesStraight e p path m first front [] walk child walk')
    (h' : GoesStraight e p path k value back [] walk' result walk'') :
    GoesStraight e p path k value (front ++ back) [] walk result walk'' := by
  obtain ⟨events, hevents, hstraight, hleaves⟩ := h.events
  obtain ⟨events', hevents', hstraight', hleaves'⟩ := h'.events
  refine ⟨h'.result, h'.upTo, h'.cuts.trans h.cuts, events ++ events', ?_,
    hstraight.append hstraight', ?_⟩
  · rw [hevents', hevents, List.append_assoc]
  · rw [List.filterMap_append, hleaves, hleaves']

/-- A walk that has taken up the first list of a frame, and then worked through it. -/
theorem GoesStraight.list
    (h : GoesStraight e p path k value leaves [] (walk.record (.list id)) result walk') :
    GoesStraight e p path k value leaves [.opened id] walk result walk' := by
  obtain ⟨events, hevents, hstraight, hleaves⟩ := h.events
  refine ⟨h.result, h.upTo, h.cuts, .list id :: events, ?_, .expanded hstraight, hleaves⟩
  rw [hevents, Walk.events_record, Array.toList_push, List.append_assoc]
  rfl

/-- A walk that has only reduced the values of the children to the one that is due. -/
theorem goesStraight_of_reduced (hwalk : walk.UpTo e p path k) (rule : Rule) :
    GoesStraight e p path k value [] [] walk (.ok [value]) (walk.record (.reduction rule)) :=
  ⟨rfl, hwalk.of_marks_eq rfl, rfl, [_], Array.toList_push, .reduction .nil, rfl⟩

/-- A frame that is due is in order. -/
theorem Task.Due.inOrder {before : List Event}
    (h : (Task.frame frame).Due e p path i k value leaves before) :
    Machine.InOrder p frame := by
  cases h with
  | fresh horder => exact horder
  | midway horder => exact horder

/-- The frame that a state gets is to take up the first list of the state. -/
theorem due_frameOf (hp : p.grammar.Finished tokens p.chart) (walk : Walk α) (mark : Mark α)
    {position : Nat} {s : State} {rule : Rule} {lists : Backpointers}
    (hs : p.chart.states[id]? = some s) (hproduction : s.production = .rule position)
    (hrule : p.grammar.rules[position]? = some rule)
    (hlists : p.chart.backpointers? id = some lists)
    (hmatches : p.grammar.Matches p.chart id symbol i k) (hfirst : e.First p [id] [value] leaves)
    (hpath : OlderThan path [id]) :
    (Task.frame (frameOf walk id rule lists mark)).Due e p (id :: path) i k value leaves
      [.opened id] := by
  obtain ⟨s', hs', -, -, horigin, hstop⟩ := hmatches
  obtain rfl := Option.some.inj (hs.symm.trans hs')
  obtain ⟨children, others, hlist, holder⟩ := hp.reachable.exists_first_list hs
  have hmem : children ∈ p.chart.lists id := by
    rw [hlist]
    exact List.mem_cons_self
  have hchain := (hp.mem_lists_iff hs hproduction hrule).1 hmem
  rw [horigin, hstop] at hchain
  have hremaining := Backpointers.remaining_of_backpointers? p.layered hlists
  obtain ⟨args, hchildren, hvalue⟩ := hfirst.exists_of_rule hs hproduction hrule hlist
  exact .fresh (inOrder_frameOf hp walk mark hs hproduction hrule hlists) rfl rfl
    (hremaining.trans hlist) hchain hchildren hvalue (hpath.join holder)

/-- The next child of a frame is due, and after it the rest of the frame. -/
theorem Task.Due.of_child {before : List Event} {child : Nat} {children : List Nat}
    (h : (Task.frame frame).Due e p path i k value leaves before) (hargs : frame.args ≠ [])
    (hchildren : frame.children = child :: children) :
    ∃ m first front back, before = [] ∧ leaves = front ++ back ∧
      (Task.state child).Due e p path i m first front [] ∧
      (extend true frame.args [first]).length = 1 ∧
      (Task.frame { frame with
        children := children, args := extend true frame.args [first] }).Due e p path m k value
          back [] := by
  cases h with
  | fresh _ hnone => exact absurd hnone hargs
  | @midway _ _ passed args horder hpassed hnodes hchain hfirst hvalue hpath =>
    rw [hchildren] at hchain hfirst hpath
    cases hchain with
    | @cons _ _ m _ _ _ _ hmatches hrest =>
      obtain ⟨first, others, front, back, rfl, rfl, hchild, hothers⟩ := hfirst.exists_of_cons
      have hextend : extend true frame.args [first] = [passed ++ [first]] := by
        rw [hpassed]
        rfl
      refine ⟨m, first, front, back, rfl, rfl, ?_, by rw [hextend]; rfl, ?_⟩
      · exact .state hmatches hchild hpath.head
      · refine .midway (horder.next hchildren _) hextend hnodes hrest hothers ?_ hpath.tail
        rw [List.append_assoc]
        exact hvalue

/-- A frame that has expanded all children of its first list has come to its value. -/
theorem reduceAll_of_midway (hlimit : e.check 1 = .ok ()) {symbols : List Symbol}
    {passed : List α} (hargs : frame.args = [passed]) (hnodes : frame.nodes = #[])
    (hchain : p.grammar.Chain p.chart symbols i k frame.children)
    (hfirst : e.First p frame.children args leaves)
    (hvalue : e.value? frame.rule (passed ++ args) = some value)
    (hdone : frame.args = [] ∨ frame.children = []) :
    leaves = [] ∧ i = k ∧ ∀ walk, reduceAll e frame.rule frame.args frame.nodes walk =
      (.ok #[value], walk.record (.reduction frame.rule)) := by
  have hne : frame.args ≠ [] := by
    rw [hargs]
    exact List.cons_ne_nil _ _
  have hchildren : frame.children = [] := hdone.resolve_left hne
  rw [hchildren] at hchain hfirst
  cases hchain
  cases hfirst
  rw [List.append_nil] at hvalue
  rw [hargs, hnodes]
  exact ⟨rfl, rfl, reduceAll_singleton hvalue hlimit⟩

/-- A walk to a first value goes straight to that of the first derivation. -/
theorem goesStraight_of_performs (hp : p.grammar.Finished tokens p.chart)
    (hlimit : e.check 1 = .ok ()) {task : Task α} {before : List Event}
    (h : Performs e p true walk task result walk') (hsize : walk.marks.size = p.chart.size)
    (hwalk : walk.UpTo e p path i) (hdue : task.Due e p path i k value leaves before) :
    GoesStraight e p path k value leaves before walk result walk' := by
  -- A task that fails would fail at the first derivation, which has a value. A frame is left with
  -- its first list, since this list comes to a value.
  induction h generalizing path i k value leaves before with
  | entered henter =>
    cases hdue with
    | state hmatches hfirst hpath =>
      obtain ⟨mark, s, hmark, hs, hentered⟩ := entered_of_enter henter
      exact goesStraight_of_entered hp hmark hs hentered hwalk hmatches hfirst hpath
  | refused henter =>
    cases hdue with
    | state hmatches =>
      obtain ⟨s, hs, -⟩ := hmatches
      have hexists := exists_enter (e := e) hp hsize hs
      obtain ⟨entered, hentered⟩ := hexists
      rw [hentered] at henter
      cases henter
  | @opened walk _ _ id _ _ henter _ ih =>
    cases hdue with
    | state hmatches hfirst hpath =>
      obtain ⟨mark, s, hmark, hs, hentered⟩ := entered_of_enter henter
      cases hentered with
      | rule _ _ hproduction hrule hlists =>
        have hframe := due_frameOf hp walk mark hs hproduction hrule hlists hmatches hfirst hpath
        have hstraight := ih (by simpa using hsize) (hwalk.enter id) hframe
        exact goesStraight_of_opened hp hmark hwalk hmatches hfirst hpath.not_mem hstraight
  | @broken walk _ _ id _ _ henter _ ih =>
    cases hdue with
    | state hmatches hfirst hpath =>
      obtain ⟨mark, s, hmark, hs, hentered⟩ := entered_of_enter henter
      cases hentered with
      | rule _ _ hproduction hrule hlists =>
        have hframe := due_frameOf hp walk mark hs hproduction hrule hlists hmatches hfirst hpath
        have hresult := (ih (by simpa using hsize) (hwalk.enter id) hframe).result
        cases hresult
  | child hargs hchildren hchild _ _ ihchild ihrest =>
    obtain ⟨m, first, front, back, rfl, rfl, hfirst, -, hrest⟩ := hdue.of_child hargs hchildren
    have hstraight := ihchild hsize hwalk hfirst
    obtain rfl := Except.ok.inj hstraight.result
    exact hstraight.trans
      (ihrest ((size_marks_of_performs hchild).trans hsize) hstraight.upTo hrest)
  | childFailed hargs hchildren _ ih =>
    obtain ⟨m, first, front, back, -, -, hfirst, -, -⟩ := hdue.of_child hargs hchildren
    have hresult := (ih hsize hwalk hfirst).result
    cases hresult
  | childRefused hargs hchildren _ hcheck ih =>
    obtain ⟨m, first, front, back, -, -, hfirst, hlength, -⟩ := hdue.of_child hargs hchildren
    obtain rfl := Except.ok.inj (ih hsize hwalk hfirst).result
    rw [hlength, hlimit] at hcheck
    cases hcheck
  | reduceFailed hdone hreduce =>
    cases hdue with
    | fresh _ hargs hnodes =>
      rw [hargs, hnodes] at hreduce
      cases hreduce
    | midway _ hargs hnodes hchain hfirst hvalue =>
      have hvalues := reduceAll_of_midway hlimit hargs hnodes hchain hfirst hvalue hdone
      rw [hvalues.2.2] at hreduce
      cases hreduce
  | @closed walk _ frame _ hdone hreduce hlast =>
    cases hdue with
    | fresh _ hargs hnodes hlists =>
      rw [hargs, hnodes] at hreduce
      cases hreduce
      rcases hlast with ⟨-, hsome⟩ | hnext
      · exact absurd rfl hsome
      · rw [Backpointers.remaining_of_next?_eq_none p.layered hnext] at hlists
        cases hlists
    | midway _ hargs hnodes hchain hfirst hvalue =>
      obtain ⟨rfl, rfl, hvalues⟩ :=
        reduceAll_of_midway hlimit hargs hnodes hchain hfirst hvalue hdone
      rw [hvalues] at hreduce
      cases hreduce
      exact goesStraight_of_reduced hwalk frame.rule
  | lost _ _ _ hnext =>
    obtain ⟨next, hsome, -⟩ := Chart.exists_next? hp.reachable.layered hdue.inOrder.follows
    rw [hnext] at hsome
    cases hsome
  | @list walk _ _ frame _ children lists _ hdone hreduce hmore hnext _ ih =>
    cases hdue with
    | fresh horder hargs hnodes hlists hchain hfirst hvalue hpath =>
      rw [hargs, hnodes] at hreduce
      cases hreduce
      rw [Backpointers.remaining_of_next?_eq_some p.layered hnext] at hlists
      obtain ⟨rfl, -⟩ := List.cons.inj hlists
      have hstraight := ih hsize (hwalk.of_marks_eq rfl)
        (.midway (horder.list hp hnext _ _) rfl rfl hchain hfirst hvalue hpath)
      exact hstraight.list
    | midway _ hargs hnodes hchain hfirst hvalue =>
      have hvalues := reduceAll_of_midway hlimit hargs hnodes hchain hfirst hvalue hdone
      rw [hvalues.2.2] at hreduce
      cases hreduce
      exact absurd ⟨rfl, Nat.succ_ne_zero 0⟩ hmore

end Machine

namespace Evaluator

variable {tokens : List String} {root i k : Nat} {rest : List Nat} {symbol : Symbol} {value : α}
  {leaves : List (String × String)} {walk : Walk α}

/-- Without a root there is no value. -/
theorem eval_of_roots_eq_nil (hroots : p.roots = []) :
    (e.evalAll p).result = .ok [] ∧ (e.evalFirst p).result = .ok none := by
  unfold evalAll evalFirst
  rw [hroots]
  exact ⟨rfl, rfl⟩

/-- A root with a first derivation is expanded to its value by going straight on. -/
theorem exists_goesStraight (hp : p.grammar.Finished tokens p.chart) (hlimit : e.check 1 = .ok ())
    (hmatches : p.grammar.Matches p.chart root symbol i k)
    (hfirst : e.First p [root] [value] leaves) :
    ∃ walk, e.expand p true (.ofChart p.chart) root = (.ok [value], walk) ∧
      Machine.GoesStraight e p [] k value leaves [] (.ofChart p.chart) (.ok [value]) walk := by
  cases hexpand : e.expand p true (.ofChart p.chart) root with
  | mk result walk =>
    have hsize : (Walk.ofChart p.chart : Walk α).marks.size = p.chart.size := by
      simp [Walk.ofChart]
    have hstraight := Machine.goesStraight_of_performs hp hlimit (performs_of_expand hexpand) hsize
      (.ofChart e p i) (.state hmatches hfirst (.nil _))
    obtain rfl := hstraight.result
    exact ⟨walk, rfl, hstraight⟩

/-- The value of the first root, if it has one, is all that is looked for. -/
theorem evalFirst_eq_of_expand (hroots : p.roots = root :: rest)
    (hexpand : e.expand p true (.ofChart p.chart) root = (.ok [value], walk)) :
    (e.evalFirst p).result = .ok (some value) ∧ (e.evalFirst p).events = walk.events := by
  unfold evalFirst
  rw [hroots, expandFirst, hexpand]
  exact ⟨rfl, rfl⟩

/-- The values of a parse begin with that of the first derivation of the first root. -/
theorem head?_of_evalAll (hp : p.grammar.Finished tokens p.chart) (hroots : p.roots = root :: rest)
    (hmatches : ∀ root ∈ p.roots, ∃ symbol i k, p.grammar.Matches p.chart root symbol i k)
    (hfirst : e.First p [root] [value] leaves) {found : List α}
    (h : (e.evalAll p).result = .ok found) : found.head? = some value := by
  have hfound := eq_of_evalAll hp h hmatches
  have hhead : (e.values p [] root).head? = some value :=
    hfirst.head?_values_singleton hp (.nil _)
  rw [hfound, hroots, List.flatMap_cons, List.head?_append, hhead, Option.some_or]

/-- With an action for every rule, and if one alternative may be kept, the first value is that of
the plain recursion. -/
theorem evalFirst_eq_head?_values (hp : p.grammar.Finished tokens p.chart)
    (hcovers : e.Covers p.grammar)
    (hroots : ∀ root ∈ p.roots, ∃ symbol i k, p.grammar.Matches p.chart root symbol i k)
    (hlimit : e.check 1 = .ok ()) :
    (e.evalFirst p).result = .ok (p.roots.flatMap (e.values p [])).head? := by
  cases hcases : p.roots with
  | nil => exact (eval_of_roots_eq_nil hcases).2
  | cons root rest =>
    obtain ⟨symbol, i, k, hmatches⟩ := hroots root (by rw [hcases]; exact List.mem_cons_self)
    obtain ⟨value, leaves, hfirst⟩ := exists_first hp hcovers hmatches
    obtain ⟨walk, hexpand, -⟩ := exists_goesStraight hp hlimit hmatches hfirst
    have hhead : (e.values p [] root).head? = some value :=
      hfirst.head?_values_singleton hp (.nil _)
    rw [(evalFirst_eq_of_expand hcases hexpand).1, List.flatMap_cons, List.head?_append, hhead,
      Option.some_or]

end Evaluator

namespace Grammar

/-- With an action for every rule, and unless no value may be kept at all, an accepted input has a
first value. It is found by going straight on from the first root, and the words of the input are
turned into values one after the other, each by a terminal that accepts it. The values of all
derivations, if they are found, are none exactly if the input is not accepted. -/
theorem evalFirst_straight_of_parse {g : Grammar} {e : Evaluator α} {ds : List Declaration}
    {start : String} {limits : Limits} {clock : Clock} {tokens : List String} {p : Parse}
    (hg : ofDeclarations ds start = .ok g) (h : g.parse limits clock tokens = .ok p)
    (hcovers : e.Covers g) (hlimit : ∀ limit, e.maxTrees = some limit → 1 ≤ limit) :
    (p.accepted = true → ∃ root rest value walk, p.roots = root :: rest ∧
      e.expand p true (.ofChart p.chart) root = (.ok [value], walk) ∧
      (e.evalFirst p).result = .ok (some value) ∧ (e.evalFirst p).events = walk.events ∧
      walk.cuts = 0 ∧ Event.Straight walk.events.toList ∧
      g.Spells (walk.events.toList.filterMap Event.leaf?) tokens) ∧
    ∀ found, (e.evalAll p).result = .ok found → (found ≠ [] ↔ p.accepted = true) := by
  obtain ⟨rfl, hp, symbol, hmatches⟩ := finished_and_roots_of_parse hg h
  have haccepted : p.accepted = true ↔ p.roots ≠ [] := by
    rw [Parse.accepted, Bool.not_eq_true', List.isEmpty_eq_false_iff]
  rw [haccepted]
  cases hroots : p.roots with
  | nil =>
    refine ⟨fun hne => absurd rfl hne, fun found hfound => ?_⟩
    rw [(Evaluator.eval_of_roots_eq_nil hroots).1] at hfound
    obtain rfl := Except.ok.inj hfound
    exact ⟨fun hne => absurd rfl hne, fun hne => absurd rfl hne⟩
  | cons root rest =>
    have hroot : p.grammar.Matches p.chart root symbol 0 tokens.length :=
      (hmatches root).1 (by rw [hroots]; exact List.mem_cons_self)
    obtain ⟨value, leaves, hfirst⟩ := Evaluator.exists_first hp hcovers hroot
    refine ⟨fun _ => ?_, fun found hfound => ?_⟩
    · obtain ⟨walk, hexpand, hstraight⟩ :=
        Evaluator.exists_goesStraight hp (e.check_eq_ok_iff.2 hlimit) hroot hfirst
      obtain ⟨hresult, hall⟩ := Evaluator.evalFirst_eq_of_expand hroots hexpand
      obtain ⟨events, hevents, hgoes, hleaves⟩ := hstraight.events
      have hspells := hfirst.spells hp (.cons hroot (.nil _))
      rw [between_zero_length, ← hleaves] at hspells
      have hwalk : walk.events.toList = events := hevents
      refine ⟨root, rest, value, walk, rfl, hexpand, hresult, hall, hstraight.cuts, ?_, ?_⟩
      · rw [hwalk]
        exact hgoes
      · rw [hwalk]
        exact hspells
    · have hhead := Evaluator.head?_of_evalAll hp hroots
        (fun root hroot => ⟨symbol, 0, tokens.length, (hmatches root).1 hroot⟩) hfirst hfound
      refine ⟨fun _ => List.cons_ne_nil root rest, fun _ hnil => ?_⟩
      rw [hnil] at hhead
      cases hhead

/-- The number of words of the first derivation of a word, in a grammar with an empty rule whose
start symbol derives itself in two ways. -/
theorem evalFirst_straight_of_word :
    ∃ g p, ofDeclarations [.nonterminal "S", .lexeme "a" ["x", "y"], .addRule "S" [],
        .addRule "S" ["S"], .addRule "S" ["S", "S", "a"], .addRule "S" ["a"]] "S" = .ok g ∧
      g.parse .unbounded (fun _ => { nanoseconds := 0 }) ["x"] = .ok p ∧
      let e : Evaluator Nat :=
        { leaf := fun _ _ => 1, fallback := some fun _ args => args.sum, maxTrees := some 1 }
      (∃ root rest value walk, p.roots = root :: rest ∧
        e.expand p true (.ofChart p.chart) root = (.ok [value], walk) ∧
        (e.evalFirst p).result = .ok (some value) ∧ (e.evalFirst p).events = walk.events ∧
        walk.cuts = 0 ∧ Event.Straight walk.events.toList ∧
        g.Spells (walk.events.toList.filterMap Event.leaf?) ["x"]) ∧
      ∀ found, (e.evalAll p).result = .ok found → found ≠ [] := by
  have htest : (ofDeclarations [.nonterminal "S", .lexeme "a" ["x", "y"], .addRule "S" [],
      .addRule "S" ["S"], .addRule "S" ["S", "S", "a"], .addRule "S" ["a"]] "S").toOption.any
      (fun g => g.symbol? g.start = some (.nonterminal "S") ∧
        (⟨"S", [.terminal "a"]⟩ : Rule) ∈ g.rules ∧ g.accepts "a" "x" = true) = true := by
    decide +kernel
  obtain ⟨g, hg, hfacts⟩ := exists_of_any htest
  obtain ⟨hstart, hrule, haccepts⟩ := of_decide_eq_true hfacts
  have hwf := wellFormed_of_ofDeclarations hg
  have hparse : ∃ p, g.parse .unbounded (fun _ => { nanoseconds := 0 }) ["x"] = .ok p :=
    exists_parse hwf rfl rfl ["x"]
  obtain ⟨p, hp⟩ := hparse
  have haccepted : p.accepted = true :=
    accepted_of_derives hwf hp hstart (.of_rule hrule (.of_accepts haccepts))
  refine ⟨g, p, hg, hp, ?_⟩
  intro e
  have hcovers : e.Covers g := fun _ _ => rfl
  have hlimit : ∀ limit, e.maxTrees = some limit → 1 ≤ limit :=
    fun limit hsome => Nat.le_of_eq (Option.some.inj hsome)
  obtain ⟨hfirst, hall⟩ := evalFirst_straight_of_parse hg hp hcovers hlimit
  exact ⟨hfirst haccepted, fun found hfound => (hall found hfound).2 haccepted⟩

end Grammar

end Earley
