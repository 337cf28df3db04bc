import Earley.Proofs.Forest.Recursion
/-!
# A walk computes the plain recursion

A walk that keeps values finds the same values as the plain recursion, in the same order. The
values of a state are kept only if no state was cut while it had its frame. Then no way back leads
from one of the states below it to itself, so that its values do not depend on the path. The proof
follows the tasks of a walk (`Machine.refines_of_performs`). The marks of a walk are described by
`Walk.Marked`, and what a task without cuts says about the states below it by `Machine.Refines`.
-/

universe u

namespace Earley

/-- The marks of a walk show the states on a path, and what is kept are the values of states that do
not depend on the path. -/
structure Walk.Marked {α : Type u} (walk : Walk α) (e : Evaluator α) (p : Parse)
    (path : List Nat) : Prop where
  /-- The states with a frame are those on the path. -/
  onPath : ∀ {id : Nat} {mark : Mark α}, walk.marks[id]? = some mark →
    (mark.onPath = true ↔ id ∈ path)
  /-- The values that are kept are those of a state with no way back below it. -/
  memo : ∀ {id : Nat} {mark : Mark α} {nodes : List α}, walk.marks[id]? = some mark →
    mark.memo = some nodes → Acc p.chart.Child id ∧ nodes ≠ [] ∧ nodes = e.values p [] id

namespace Walk.Marked

variable {α : Type u} {e : Evaluator α} {p : Parse} {walk walk' : Walk α} {path : List Nat}

/-- A state without a frame is not on the path. -/
theorem not_mem (h : walk.Marked e p path) {id : Nat} {mark : Mark α}
    (hmark : walk.marks[id]? = some mark) (honPath : mark.onPath = false) : id ∉ path := by
  intro hmem
  rw [(h.onPath hmark).2 hmem] at honPath
  cases honPath

/-- Only the marks of a walk matter. -/
theorem of_marks_eq (h : walk.Marked e p path) (hmarks : walk'.marks = walk.marks) :
    walk'.Marked e p path where
  onPath hmark := h.onPath (hmarks ▸ hmark)
  memo hmark := h.memo (hmarks ▸ hmark)

/-- A walk that has not begun is on the empty path. -/
theorem ofChart (e : Evaluator α) (p : Parse) : (Walk.ofChart p.chart).Marked e p [] where
  onPath hmark := by
    obtain ⟨-, rfl⟩ := by simpa [Walk.ofChart, Array.getElem?_replicate] using hmark
    simp
  memo hmark hmemo := by
    obtain ⟨-, rfl⟩ := by simpa [Walk.ofChart, Array.getElem?_replicate] using hmark
    cases hmemo

/-- A state that gets a frame is added to the path. -/
theorem enter (h : walk.Marked e p path) (id : Nat) :
    ((walk.mark id fun mark => { mark with onPath := true, visited := true }).record
      (.opened id)).Marked e p (id :: path) := by
  constructor
  · intro j mark hmark
    rcases Walk.mark_cases hmark with ⟨rfl, old, -, rfl⟩ | ⟨hne, hmark⟩
    · simp
    · rw [h.onPath hmark, List.mem_cons, or_iff_right (Ne.symm hne)]
  · intro j mark nodes hmark hmemo
    rcases Walk.mark_cases hmark with ⟨rfl, old, hold, rfl⟩ | ⟨-, hmark⟩
    · exact h.memo hold hmemo
    · exact h.memo hmark hmemo

/-- A state whose frame is gone is taken off the path. Its values may be kept if there is no way
back below it. -/
theorem leave {frame : Frame α} (h : walk.Marked e p (frame.id :: path)) (hid : frame.id ∉ path)
    (hkeep : walk.cuts = frame.cuts → Acc p.chart.Child frame.id ∧ frame.nodes.toList ≠ [] ∧
      frame.nodes.toList = e.values p [] frame.id) : (walk.leave frame).Marked e p path := by
  constructor
  · intro j mark hmark
    rcases Walk.mark_cases hmark with ⟨rfl, old, -, rfl⟩ | ⟨hne, hmark⟩
    · simpa using hid
    · rw [h.onPath hmark, List.mem_cons, or_iff_right (Ne.symm hne)]
  · intro j mark nodes hmark hmemo
    rcases Walk.mark_cases hmark with ⟨rfl, old, hold, rfl⟩ | ⟨-, hmark⟩
    · dsimp only at hmemo
      split at hmemo
      next hcuts => cases hmemo; exact hkeep hcuts.2
      next => exact h.memo hold hmemo
    · exact h.memo hmark hmemo

end Walk.Marked

namespace Machine

variable {α : Type u} (e : Evaluator α) (p : Parse)

/-! ### What a task should come to -/

/-- The values of a task by plain recursion. Those of a frame are the values it has, what its
combinations come to with the children that are left, and what the lists that remain come to. -/
def Task.values (path : List Nat) : Task α → List α
  | .state id => e.values p path id
  | .frame opened =>
    opened.nodes.toList ++
      ((opened.args.flatMap fun args =>
        (choices (opened.children.map (e.values p path))).map (args ++ ·)).filterMap
          (e.value? opened.rule) ++
      (opened.lists.remaining p.chart).flatMap (e.listValues p path opened.rule))

/-- A task that may come up on a path: its state is a complete match, and the states on the path lie
above it. -/
def Task.Ready (path : List Nat) : Task α → Prop
  | .state id => (∃ symbol i k, p.grammar.Matches p.chart id symbol i k) ∧
      ∀ x ∈ path, Relation.TransGen p.chart.Child id x
  | .frame opened => Machine.InOrder p opened ∧
      ∀ x ∈ path, Relation.ReflTransGen p.chart.Child opened.id x

/-- No way back leads from a state of the task, or of one below it, to itself. Children are left
aside if there is no combination to be extended. -/
def Task.Settled : Task α → Prop
  | .state id => Acc p.chart.Child id
  | .frame opened => (opened.args ≠ [] → ∀ child ∈ opened.children, Acc p.chart.Child child) ∧
      ∀ list ∈ opened.lists.remaining p.chart, ∀ child ∈ list, Acc p.chart.Child child

/-- A task that comes to some value unless a state is cut. -/
def Task.Fruitful : Task α → Prop
  | .state _ => True
  | .frame opened => opened.nodes.size ≠ 0 ∨ opened.args ≠ [] ∨
      opened.lists.remaining p.chart ≠ []

/-- What a walk that has performed a task has found, and what it means if no state was cut. -/
structure Refines (path : List Nat) (walk : Walk α) (task : Task α) (nodes : List α)
    (walk' : Walk α) : Prop where
  /-- The values are those of the plain recursion. -/
  values : nodes = task.values e p path
  /-- The walk is on the same path as before. -/
  marked : walk'.Marked e p path
  /-- Cuts are counted. -/
  cuts_le : walk.cuts ≤ walk'.cuts
  /-- Without a cut, there is no way back below the task. -/
  settled : walk'.cuts = walk.cuts → task.Settled p
  /-- Without a cut, there are values. -/
  fruitful : walk'.cuts = walk.cuts → task.Fruitful p → nodes ≠ []

variable {e p} {path : List Nat} {frame : Frame α}

/-! ### Tasks that may come up -/

/-- The frame of a state may come up when the state has come up. -/
theorem Task.Ready.frameOf {tokens : List String} (hp : p.grammar.Finished tokens p.chart)
    {id position : Nat} {s : State} {rule : Rule} {lists : Backpointers}
    (h : (Task.state id : Task α).Ready p path) (walk : Walk α) (mark : Mark α)
    (hs : p.chart.states[id]? = some s) (hproduction : s.production = .rule position)
    (hrule : p.grammar.rules[position]? = some rule)
    (hlists : p.chart.backpointers? id = some lists) :
    (Task.frame (Machine.frameOf walk id rule lists mark)).Ready p (id :: path) := by
  refine ⟨inOrder_frameOf hp walk mark hs hproduction hrule hlists, fun x hx => ?_⟩
  rcases List.mem_cons.1 hx with rfl | hx
  · exact .refl
  · exact (h.2 x hx).to_reflTransGen

/-- The children of a frame may come up. -/
theorem Task.Ready.child {tokens : List String} (hp : p.grammar.Finished tokens p.chart)
    {child : Nat} (h : (Task.frame frame).Ready p path) (hmem : child ∈ frame.children) :
    (Task.state child : Task α).Ready p path := by
  have hchild : p.chart.Child child frame.id := h.1.children child hmem
  obtain ⟨s, position, hs, hproduction, -⟩ := h.1.rule
  exact ⟨hp.matches_of_child hs hproduction hchild, fun x hx => .head' hchild (h.2 x hx)⟩

/-! ### Frames -/

/-- Combinations that are extended by some values do not get lost. -/
theorem extend_false_ne_nil {args : List (List α)} {values : List α} (hargs : args ≠ [])
    (hvalues : values ≠ []) : extend false args values ≠ [] := by
  obtain ⟨list, hlist⟩ := List.exists_mem_of_ne_nil _ hargs
  obtain ⟨value, hvalue⟩ := List.exists_mem_of_ne_nil _ hvalues
  rw [extend_false]
  exact List.ne_nil_of_mem
    (List.mem_flatMap.2 ⟨list, hlist, List.mem_map.2 ⟨value, hvalue, rfl⟩⟩)

/-- Combinations that are extended by the values of a child come to the same with the children
that are left. -/
theorem flatMap_extend_false (args : List (List α)) (values : List α) (rest : List (List α)) :
    ((extend false args values).flatMap fun list => (choices rest).map (list ++ ·)) =
      args.flatMap fun list => (choices (values :: rest)).map (list ++ ·) := by
  rw [extend_false, List.flatMap_assoc]
  refine List.flatMap_congr fun list _ => ?_
  rw [choices, List.flatMap_map, List.map_flatMap]
  refine List.flatMap_congr fun value _ => ?_
  rw [List.map_map]
  refine List.map_congr_left fun others _ => ?_
  simp

/-- What the combinations of a finished list come to. -/
theorem flatMap_choices_of_done (values : Nat → List α)
    (hdone : frame.args = [] ∨ frame.children = []) :
    (frame.args.flatMap fun args => (choices (frame.children.map values)).map (args ++ ·)) =
      frame.args := by
  rcases hdone with hargs | hchildren
  · rw [hargs, List.flatMap_nil]
  · simp [hchildren, choices]

/-- The combinations of a list that is taken up come to the values of the list. -/
theorem filterMap_choices_eq_listValues (path : List Nat) (rule : Rule) (children : List Nat) :
    (([[]] : List (List α)).flatMap fun args =>
      (choices (children.map (e.values p path))).map (args ++ ·)).filterMap (e.value? rule) =
        e.listValues p path rule children := by
  simp [Evaluator.listValues]

/-- The frame that a state gets comes to the values of the state. -/
theorem Task.values_frameOf {walk : Walk α} {id position : Nat} {mark : Mark α} {s : State}
    {rule : Rule} {lists : Backpointers} (hid : id ∉ path) (hs : p.chart.states[id]? = some s)
    (hproduction : s.production = .rule position) (hrule : p.grammar.rules[position]? = some rule)
    (hlists : p.chart.backpointers? id = some lists) :
    (Task.frame (frameOf walk id rule lists mark)).values e p (id :: path) =
      (Task.state id).values e p path := by
  simp only [Task.values]
  rw [Evaluator.values_of_rule hid hs hproduction hrule,
    ← Backpointers.remaining_of_backpointers? p.layered hlists]
  simp [frameOf]

/-- A frame comes to the same when its combinations are extended by the values of a child. -/
theorem Task.values_next {child : Nat} {children : List Nat}
    (hchildren : frame.children = child :: children) :
    (Task.frame { frame with
      children := children
      args := extend false frame.args (e.values p path child) }).values e p path =
        (Task.frame frame).values e p path := by
  simp only [Task.values, hchildren, List.map_cons, flatMap_extend_false]

/-- A frame comes to the same when its combinations are reduced and its next list is taken up. -/
theorem Task.values_list {walk walk' : Walk α} {nodes : Array α} {children : List Nat}
    {lists : Backpointers} (hdone : frame.args = [] ∨ frame.children = [])
    (hreduce : reduceAll e frame.rule frame.args frame.nodes walk = (.ok nodes, walk'))
    (hnext : frame.lists.next? p.chart = some (some (children, lists))) :
    (Task.frame { frame with
      lists := lists, children := children, args := [[]], nodes := nodes }).values e p path =
        (Task.frame frame).values e p path := by
  simp only [Task.values]
  rw [flatMap_choices_of_done _ hdone, filterMap_choices_eq_listValues,
    Backpointers.remaining_of_next?_eq_some p.layered hnext, (reduceAll_eq_ok hreduce).1,
    List.flatMap_cons, List.append_assoc]

/-! ### All tasks -/

/-- A walk that comes to a state with values that are known at once. -/
theorem refines_of_entered {tokens : List String} (hp : p.grammar.Finished tokens p.chart)
    {walk walk' : Walk α} {id : Nat} {mark : Mark α} {s : State} {nodes : List α}
    (hmark : walk.marks[id]? = some mark) (hs : p.chart.states[id]? = some s)
    (h : Entered e p walk id mark s walk' (.values nodes)) (hwalk : walk.Marked e p path)
    (htask : (Task.state id : Task α).Ready p path) :
    Refines e p path walk (.state id) nodes walk' := by
  obtain ⟨⟨symbol, i, k, hmatches⟩, hpath⟩ := htask
  cases h with
  | known hmemo =>
    obtain ⟨hacc, hne, hvalues⟩ := hwalk.memo hmark hmemo
    refine ⟨?_, hwalk, Nat.le_refl _, fun _ => hacc, fun _ _ => hne⟩
    rw [hvalues]
    exact (Evaluator.values_eq_of_acc hacc hpath).symm
  | cut _ honPath =>
    refine ⟨?_, hwalk.of_marks_eq rfl, Nat.le_succ _, fun hcuts => ?_, fun hcuts => ?_⟩
    · exact (Evaluator.values_of_mem ((hwalk.onPath hmark).1 honPath)).symm
    · exact absurd hcuts (Nat.succ_ne_self _)
    · exact absurd hcuts (Nat.succ_ne_self _)
  | start _ _ hproduction => exact absurd hproduction (hmatches.production_ne_start hs)
  | lexeme _ honPath hproduction hword =>
    refine ⟨?_, hwalk.of_marks_eq rfl, Nat.le_refl _, fun _ => ?_, fun _ _ => List.cons_ne_nil _ _⟩
    · have hid := hwalk.not_mem hmark honPath
      exact (Evaluator.values_of_lexeme hid hs hproduction hword).symm
    · exact ⟨_, fun child hchild => (hp.not_child_of_lexeme hs hproduction hchild).elim⟩

/-- A walk that has worked through the frame of a state has found the values of the state. -/
theorem refines_of_opened {walk walk' walk'' : Walk α} {id position : Nat} {mark : Mark α}
    {s : State} {rule : Rule} {lists : Backpointers} {nodes : List α}
    (hs : p.chart.states[id]? = some s) (hproduction : s.production = .rule position)
    (hrule : p.grammar.rules[position]? = some rule)
    (hlists : p.chart.backpointers? id = some lists) (hid : id ∉ path)
    (hcuts : walk'.cuts = walk.cuts)
    (hpath : ∀ x ∈ path, Relation.TransGen p.chart.Child id x)
    (h : Refines e p (id :: path) walk' (.frame (frameOf walk id rule lists mark)) nodes walk'') :
    Refines e p path walk (.state id) nodes
      (walk''.leave { frameOf walk id rule lists mark with nodes := nodes.toArray }) := by
  have hremaining : lists.remaining p.chart = p.chart.lists id :=
    Backpointers.remaining_of_backpointers? p.layered hlists
  have hvalues : nodes = e.values p path id :=
    h.values.trans (Task.values_frameOf hid hs hproduction hrule hlists)
  -- Without a cut every list was worked through, so there is no way back below any child.
  have hacc : walk''.cuts = walk.cuts → Acc p.chart.Child id := by
    intro heq
    obtain ⟨-, hsettled⟩ := h.settled (heq.trans hcuts.symm)
    refine ⟨_, fun child ⟨list, hlist, hmem⟩ => hsettled list ?_ child hmem⟩
    rw [← hremaining] at hlist
    exact hlist
  have hne : walk''.cuts = walk.cuts → nodes ≠ [] := by
    intro heq
    refine h.fruitful (heq.trans hcuts.symm) (.inr (.inr ?_))
    change lists.remaining p.chart ≠ []
    rw [hremaining]
    exact Chart.lists_ne_nil p.layered id
  refine ⟨hvalues, h.marked.leave hid fun heq => ⟨hacc heq, ?_, ?_⟩, ?_, fun heq => ?_,
    fun heq _ => ?_⟩
  · simpa using hne heq
  · change nodes.toArray.toList = e.values p [] id
    rw [← Evaluator.values_eq_of_acc (hacc heq) hpath]
    exact hvalues
  · rw [Walk.cuts_leave, ← hcuts]
    exact h.cuts_le
  · rw [Walk.cuts_leave] at heq
    exact hacc heq
  · rw [Walk.cuts_leave] at heq
    exact hne heq

/-- A walk that has expanded the next child of a frame, and then worked through the rest of it. -/
theorem refines_of_child {walk walk' walk'' : Walk α} {child : Nat} {children : List Nat}
    {values nodes : List α} (hargs : frame.args ≠ [])
    (hchildren : frame.children = child :: children)
    (hchild : Refines e p path walk (.state child) values walk')
    (hrest : Refines e p path walk' (.frame { frame with
      children := children, args := extend false frame.args values }) nodes walk'') :
    Refines e p path walk (.frame frame) nodes walk'' := by
  have hboth : walk''.cuts = walk.cuts → walk'.cuts = walk.cuts ∧ walk''.cuts = walk'.cuts := by
    have := hchild.cuts_le
    have := hrest.cuts_le
    omega
  -- Without a cut the child has a value, so the children after it are not left aside.
  have hextended : walk'.cuts = walk.cuts → extend false frame.args values ≠ [] :=
    fun heq => extend_false_ne_nil hargs (hchild.fruitful heq trivial)
  refine ⟨?_, hrest.marked, Nat.le_trans hchild.cuts_le hrest.cuts_le, fun heq => ?_,
    fun heq hfruitful => ?_⟩
  · have hvalues : values = e.values p path child := hchild.values
    rw [hrest.values, hvalues, Task.values_next hchildren]
  · obtain ⟨hfirst, hlast⟩ := hboth heq
    obtain ⟨hcurrent, hremaining⟩ := hrest.settled hlast
    refine ⟨fun _ other hother => ?_, hremaining⟩
    rw [hchildren] at hother
    rcases List.mem_cons.1 hother with rfl | hother
    · exact hchild.settled hfirst
    · exact hcurrent (hextended hfirst) other hother
  · obtain ⟨hfirst, hlast⟩ := hboth heq
    exact hrest.fruitful hlast (.inr (.inl (hextended hfirst)))

/-- A walk that has reduced the combinations of the last list of a frame. -/
theorem refines_of_closed {walk walk' : Walk α} {nodes : Array α}
    (hdone : frame.args = [] ∨ frame.children = [])
    (hreduce : reduceAll e frame.rule frame.args frame.nodes walk = (.ok nodes, walk'))
    (hlast : frame.lists.next? p.chart = some none) (hwalk : walk.Marked e p path) :
    Refines e p path walk (.frame frame) nodes.toList walk' := by
  obtain ⟨hnodes, hsize⟩ := reduceAll_eq_ok hreduce
  obtain ⟨hmarks, hcuts⟩ := marks_of_reduceAll hreduce
  have hremaining := Backpointers.remaining_of_next?_eq_none p.layered hlast
  refine ⟨?_, hwalk.of_marks_eq hmarks, Nat.le_of_eq hcuts.symm, fun _ => ⟨fun hargs => ?_, ?_⟩,
    fun _ hfruitful hnil => ?_⟩
  · simp only [Task.values, flatMap_choices_of_done _ hdone, hremaining, List.flatMap_nil,
      List.append_nil]
    exact hnodes
  · rw [hdone.resolve_left hargs]
    exact fun _ hmem => nomatch hmem
  · rw [hremaining]
    exact fun _ hmem => nomatch hmem
  · have hzero : nodes.size = 0 := by simpa using congrArg List.length hnil
    rcases hfruitful with hsome | hsome | hsome
    · omega
    · exact hsome (List.eq_nil_of_length_eq_zero (by omega))
    · exact hsome hremaining

/-- A walk that has reduced the combinations of a list, and then worked through the lists after
it. -/
theorem refines_of_list {walk walk' walk'' : Walk α} {nodes : Array α} {children : List Nat}
    {lists : Backpointers} {found : List α} (hdone : frame.args = [] ∨ frame.children = [])
    (hreduce : reduceAll e frame.rule frame.args frame.nodes walk = (.ok nodes, walk'))
    (hnext : frame.lists.next? p.chart = some (some (children, lists)))
    (h : Refines e p path (walk'.record (.list frame.id)) (.frame { frame with
      lists := lists, children := children, args := [[]], nodes := nodes }) found walk'') :
    Refines e p path walk (.frame frame) found walk'' := by
  have hcuts : (walk'.record (.list frame.id)).cuts = walk.cuts := (marks_of_reduceAll hreduce).2
  have hremaining := Backpointers.remaining_of_next?_eq_some p.layered hnext
  have hne : ([[]] : List (List α)) ≠ [] := List.cons_ne_nil _ _
  refine ⟨?_, h.marked, hcuts ▸ h.cuts_le, fun heq => ?_, fun heq _ => ?_⟩
  · rw [h.values, Task.values_list hdone hreduce hnext]
  · obtain ⟨hcurrent, hothers⟩ := h.settled (heq.trans hcuts.symm)
    refine ⟨fun hargs => ?_, fun list hlist => ?_⟩
    · rw [hdone.resolve_left hargs]
      exact fun _ hmem => nomatch hmem
    · rw [hremaining] at hlist
      rcases List.mem_cons.1 hlist with rfl | hlist
      · exact hcurrent hne
      · exact hothers list hlist
  · exact h.fruitful (heq.trans hcuts.symm) (.inr (.inl hne))

/-- A walk that is after all values finds those of the plain recursion. -/
theorem refines_of_performs {tokens : List String} (hp : p.grammar.Finished tokens p.chart)
    {walk walk' : Walk α} {task : Task α} {result : Except ParseError (List α)}
    (h : Performs e p false walk task result walk') {nodes : List α} (hresult : result = .ok nodes)
    (hwalk : walk.Marked e p path) (htask : task.Ready p path) :
    Refines e p path walk task nodes walk' := by
  induction h generalizing path nodes with
  | refused => cases hresult
  | broken => cases hresult
  | childFailed => cases hresult
  | childRefused => cases hresult
  | reduceFailed => cases hresult
  | lost => cases hresult
  | entered henter =>
    cases hresult
    obtain ⟨mark, s, hmark, hs, hentered⟩ := entered_of_enter henter
    exact refines_of_entered hp hmark hs hentered hwalk htask
  | @opened _ _ _ id frame _ henter _ ih =>
    cases hresult
    obtain ⟨mark, s, hmark, hs, hentered⟩ := entered_of_enter henter
    cases hentered with
    | rule _ honPath hproduction hrule hlists =>
      have hid := hwalk.not_mem hmark honPath
      refine refines_of_opened hs hproduction hrule hlists hid ?_ htask.2
        (ih rfl (hwalk.enter id) (htask.frameOf hp _ mark hs hproduction hrule hlists))
      simp
  | child hargs hchildren _ _ _ ihchild ihrest =>
    have hready := htask.child hp (by rw [hchildren]; exact List.mem_cons_self)
    have hrefines := ihchild rfl hwalk hready
    exact refines_of_child hargs hchildren hrefines
      (ihrest hresult hrefines.marked ⟨htask.1.next hchildren _, htask.2⟩)
  | closed hdone hreduce hlast =>
    cases hresult
    refine refines_of_closed hdone hreduce (hlast.resolve_left fun h => ?_) hwalk
    cases h.1
  | list hdone hreduce _ hnext _ ih =>
    obtain ⟨horder, hpath⟩ := htask
    refine refines_of_list hdone hreduce hnext
      (ih hresult (hwalk.of_marks_eq (marks_of_reduceAll hreduce).1)
        ⟨horder.list hp hnext _ _, hpath⟩)

end Machine

namespace Evaluator

variable {α : Type u} {e : Evaluator α} {p : Parse} {tokens : List String}

/-- The values of all roots are those of the plain recursion, root after root. -/
theorem eq_of_expandAll (hp : p.grammar.Finished tokens p.chart) {roots : List Nat}
    {found nodes : List α} {walk walk' : Walk α}
    (h : e.expandAll p roots found walk = (.ok nodes, walk')) (hwalk : walk.Marked e p [])
    (hroots : ∀ root ∈ roots, ∃ symbol i k, p.grammar.Matches p.chart root symbol i k) :
    nodes = found ++ roots.flatMap (e.values p []) := by
  induction roots generalizing found walk with
  | nil => cases h; simp
  | cons root rest ih =>
    unfold expandAll at h
    split at h
    next => cases h
    next values after hexpand =>
      dsimp only at h
      split at h
      next => cases h
      next =>
        have hrefines := Machine.refines_of_performs hp (performs_of_expand hexpand) rfl hwalk
          ⟨hroots root List.mem_cons_self, fun _ hmem => absurd hmem List.not_mem_nil⟩
        have hvalues : values = e.values p [] root := hrefines.values
        rw [ih h hrefines.marked fun other hother => hroots other (List.mem_cons_of_mem _ hother),
          hvalues, List.flatMap_cons, List.append_assoc]

/-- All values that are found in a parse are those of the plain recursion on the empty path. -/
theorem eq_of_evalAll (hp : p.grammar.Finished tokens p.chart) {nodes : List α}
    (h : (e.evalAll p).result = .ok nodes)
    (hroots : ∀ root ∈ p.roots, ∃ symbol i k, p.grammar.Matches p.chart root symbol i k) :
    nodes = p.roots.flatMap (e.values p []) :=
  eq_of_expandAll hp (Prod.ext h rfl) (.ofChart e p) hroots

/-- Without a limit on alternatives, and with an action for every rule, all values of a parse are
found: those of the plain recursion on the empty path, root after root. -/
theorem evalAll_eq_ok (hp : p.grammar.Finished tokens p.chart) (hlimit : e.maxTrees = none)
    (hcovers : e.Covers p.grammar)
    (hroots : ∀ root ∈ p.roots, ∃ symbol i k, p.grammar.Matches p.chart root symbol i k) :
    (e.evalAll p).result = .ok (p.roots.flatMap (e.values p [])) := by
  cases hresult : (e.evalAll p).result with
  | error failure =>
    obtain ⟨limit, hsome, -⟩ := treeBudget_of_evalAll hp hcovers hroots hresult
    rw [hlimit] at hsome
    cases hsome
  | ok nodes => exact congrArg Except.ok (eq_of_evalAll hp hresult hroots)

end Evaluator

end Earley
