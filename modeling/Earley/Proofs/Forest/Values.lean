import Mathlib.Data.List.Forall2
import Earley.Proofs.Forest.Entry
/-!
# What walks find

A property of values that holds of the values of words, and that the rules hand on from the values
of the children to those of the state, holds of everything that a walk finds
(`Machine.forall_of_performs`). This needs no assumption on the limits of the evaluator, or on
whether the walk is after the first value only.
-/

universe u

namespace Earley

/-- All values that a walk has kept for its states have a property. -/
def Walk.Keeps {α : Type u} (V : Nat → α → Prop) (walk : Walk α) : Prop :=
  ∀ (id : Nat) (mark : Mark α) (nodes : List α), walk.marks[id]? = some mark →
    mark.memo = some nodes → ∀ v ∈ nodes, V id v

/-- Only the marks of a walk matter. -/
theorem Walk.Keeps.of_marks_eq {α : Type u} {V : Nat → α → Prop} {walk walk' : Walk α}
    (h : walk.Keeps V) (hmarks : walk'.marks = walk.marks) : walk'.Keeps V :=
  fun id mark nodes hmark => h id mark nodes (hmarks ▸ hmark)

namespace Machine

variable {α : Type u} {e : Evaluator α} {p : Parse} {firstOnly : Bool}

/-- The combinations of a frame stand for the children that were passed, in a list of the state
together with those that are left, and its values have a property. -/
structure Holds (V : Nat → α → Prop) (p : Parse) (frame : Frame α) (passed : List Nat) : Prop where
  /-- The frame is that of the state of a rule. -/
  rule : ∃ s position, p.chart.states[frame.id]? = some s ∧ s.production = .rule position ∧
    p.grammar.rules[position]? = some frame.rule
  /-- The combinations are made of values of the children that were passed. -/
  args : ∀ args ∈ frame.args, List.Forall₂ V passed args
  /-- The children belong to a list of the state. -/
  current : frame.args ≠ [] → passed ++ frame.children ∈ p.chart.lists frame.id
  /-- The lists that remain are lists of the state. -/
  lists : ∀ list ∈ frame.lists.remaining p.chart, list ∈ p.chart.lists frame.id
  /-- The values that were found have the property. -/
  nodes : ∀ v ∈ frame.nodes.toList, V frame.id v

/-- A property of values that words have and rules hand on. -/
structure HandedOn (V : Nat → α → Prop) (e : Evaluator α) (p : Parse) : Prop where
  /-- The value of a word has the property. -/
  leaf : ∀ {id : Nat} {s : State} {symbol : Symbol} {word : String},
    p.chart.states[id]? = some s → s.production = .lexeme symbol →
    p.chart.tokens[s.origin]? = some word → V id (e.leaf symbol.name word)
  /-- The value that a rule makes of values with the property has the property. -/
  reduce : ∀ {id position : Nat} {s : State} {rule : Rule} {children : List Nat} {args : List α}
    {v : α}, p.chart.states[id]? = some s → s.production = .rule position →
    p.grammar.rules[position]? = some rule → children ∈ p.chart.lists id →
    List.Forall₂ V children args → e.value? rule args = some v → V id v

variable {V : Nat → α → Prop}

/-- The values of a frame keep the property when its combinations are reduced. -/
theorem Holds.of_reduceAll (hV : HandedOn V e p) {frame : Frame α} {passed : List Nat}
    {walk walk' : Walk α} {nodes : Array α} (h : Holds V p frame passed)
    (hdone : frame.args = [] ∨ frame.children = [])
    (hreduce : reduceAll e frame.rule frame.args frame.nodes walk = (.ok nodes, walk')) :
    ∀ v ∈ nodes.toList, V frame.id v := by
  intro v hv
  rw [(reduceAll_eq_ok hreduce).1, List.mem_append, List.mem_filterMap] at hv
  rcases hv with hv | ⟨args, hargs, hvalue⟩
  · exact h.nodes v hv
  · have hne : frame.args ≠ [] := List.ne_nil_of_mem hargs
    have hcurrent := h.current hne
    rw [hdone.resolve_left hne, List.append_nil] at hcurrent
    obtain ⟨s, position, hs, hproduction, hrule⟩ := h.rule
    exact hV.reduce hs hproduction hrule hcurrent (h.args args hargs) hvalue

/-- A frame remains in order when its combinations are extended by the values of a child. -/
theorem Holds.next {frame : Frame α} {passed : List Nat} {child : Nat} {children : List Nat}
    {values : List α} (h : Holds V p frame passed) (hargs : frame.args ≠ [])
    (hchildren : frame.children = child :: children) (hvalues : ∀ v ∈ values, V child v) :
    Holds V p { frame with
      children := children, args := extend firstOnly frame.args values } (passed ++ [child]) where
  rule := h.rule
  args list hlist := by
    obtain ⟨front, hfront, value, hvalue, rfl⟩ := exists_of_mem_extend hlist
    exact List.rel_append (h.args front hfront) (.cons (hvalues value hvalue) .nil)
  current _ := by
    have hcurrent := h.current hargs
    rw [hchildren] at hcurrent
    simpa using hcurrent
  lists := h.lists
  nodes := h.nodes

/-- A frame remains in order when its combinations are reduced and its next list is taken up. -/
theorem Holds.list (hV : HandedOn V e p) {frame : Frame α} {passed : List Nat}
    {walk walk' : Walk α} {nodes : Array α} {children : List Nat} {lists : Backpointers}
    (h : Holds V p frame passed) (hdone : frame.args = [] ∨ frame.children = [])
    (hreduce : reduceAll e frame.rule frame.args frame.nodes walk = (.ok nodes, walk'))
    (hnext : frame.lists.next? p.chart = some (some (children, lists))) :
    Holds V p { frame with
      lists := lists, children := children, args := [[]], nodes := nodes } [] := by
  have hremaining := Backpointers.remaining_of_next?_eq_some p.layered hnext
  refine ⟨h.rule, fun args hargs => ?_, fun _ => ?_, fun list hlist => ?_,
    h.of_reduceAll hV hdone hreduce⟩
  · rw [List.mem_singleton.1 hargs]
    exact .nil
  · refine h.lists children ?_
    rw [hremaining]
    exact List.mem_cons_self
  · refine h.lists list ?_
    rw [hremaining]
    exact List.mem_cons_of_mem _ hlist

/-- The frame that a state gets is in order. -/
theorem holds_frameOf (walk : Walk α) (mark : Mark α) {id position : Nat} {s : State} {rule : Rule}
    {lists : Backpointers} (hs : p.chart.states[id]? = some s)
    (hproduction : s.production = .rule position)
    (hrule : p.grammar.rules[position]? = some rule)
    (hlists : p.chart.backpointers? id = some lists) :
    Holds V p (frameOf walk id rule lists mark) [] := by
  refine ⟨⟨s, position, hs, hproduction, hrule⟩, ?_, fun hne => absurd rfl hne, ?_, ?_⟩
  · exact fun _ hmem => nomatch hmem
  · intro list hmem
    have hremaining := Backpointers.remaining_of_backpointers? p.layered hlists
    exact hremaining ▸ hmem
  · exact fun _ hmem => nomatch hmem

/-- A frame that is to be worked through is in order. -/
def Task.Holds (V : Nat → α → Prop) (p : Parse) : Task α → Prop
  | .state _ => True
  | .frame opened => ∃ passed, Machine.Holds V p opened passed

/-- The values of a frame that is gone are kept only if no state was cut meanwhile. -/
theorem keeps_leave {walk : Walk α} {frame : Frame α} (h : walk.Keeps V)
    (hnodes : walk.cuts = frame.cuts → ∀ v ∈ frame.nodes.toList, V frame.id v) :
    (walk.leave frame).Keeps V := by
  intro id mark nodes hmark hmemo
  rcases Walk.mark_cases hmark with ⟨rfl, old, hold, rfl⟩ | ⟨-, hmark⟩
  · dsimp only at hmemo
    split at hmemo
    next hcuts => cases hmemo; exact hnodes hcuts.2
    next => exact h frame.id old nodes hold hmemo
  · exact h id mark nodes hmark hmemo

theorem keeps_of_entered {walk walk' : Walk α} {id : Nat} {mark : Mark α} {s : State}
    {entry : Entry α} (h : walk.Keeps V) (hentered : Entered e p walk id mark s walk' entry) :
    walk'.Keeps V := by
  cases hentered with
  | known => exact h
  | cut => exact h
  | start => exact h
  | lexeme => exact h
  | rule =>
    intro j change nodes hchange hmemo
    rcases Walk.mark_cases hchange with ⟨rfl, old, hold, rfl⟩ | ⟨-, hchange⟩
    · exact h _ old nodes hold hmemo
    · exact h j change nodes hchange hmemo

/-- Whatever a walk finds has every property that words have and rules hand on. -/
theorem forall_of_performs (hV : HandedOn V e p) {walk walk' : Walk α} {task : Task α}
    {result : Except ParseError (List α)} (h : Performs e p firstOnly walk task result walk')
    {nodes : List α} (hresult : result = .ok nodes) (hwalk : walk.Keeps V)
    (htask : task.Holds V p) : (∀ v ∈ nodes, V task.id v) ∧ walk'.Keeps V := by
  induction h generalizing nodes with
  | refused => cases hresult
  | broken => cases hresult
  | childFailed => cases hresult
  | childRefused => cases hresult
  | reduceFailed => cases hresult
  | lost => cases hresult
  | entered henter =>
    cases hresult
    obtain ⟨mark, s, hmark, hs, hentered⟩ := entered_of_enter henter
    refine ⟨?_, keeps_of_entered hwalk hentered⟩
    cases hentered with
    | known hmemo => exact hwalk _ mark _ hmark hmemo
    | cut => exact fun _ hv => nomatch hv
    | start => exact fun _ hv => nomatch hv
    | lexeme _ _ hproduction hword =>
      intro v hv
      rw [List.mem_singleton.1 hv]
      exact hV.leaf hs hproduction hword
  | opened henter _ ih =>
    cases hresult
    obtain ⟨mark, s, hmark, hs, hentered⟩ := entered_of_enter henter
    have hwalk' := keeps_of_entered hwalk hentered
    cases hentered with
    | rule _ _ hproduction hrule hlists =>
      obtain ⟨hnodes, hkeeps⟩ :=
        ih rfl hwalk' ⟨[], holds_frameOf _ mark hs hproduction hrule hlists⟩
      exact ⟨hnodes, keeps_leave hkeeps fun _ => hnodes⟩
  | @child _ _ _ frame child children _ _ hargs hchildren _ _ _ ihchild ihrest =>
    obtain ⟨hvalues, hkeeps⟩ := ihchild rfl hwalk trivial
    obtain ⟨passed, hframe⟩ := htask
    exact ihrest hresult hkeeps ⟨passed ++ [child], hframe.next hargs hchildren hvalues⟩
  | closed hdone hreduce =>
    cases hresult
    obtain ⟨passed, hframe⟩ := htask
    exact ⟨hframe.of_reduceAll hV hdone hreduce, hwalk.of_marks_eq (marks_of_reduceAll hreduce).1⟩
  | @list walk walk' walk'' frame nodes' children lists result hdone hreduce _ hnext _ ih =>
    obtain ⟨passed, hframe⟩ := htask
    have hwalk' : (walk'.record (.list frame.id)).Keeps V :=
      hwalk.of_marks_eq (marks_of_reduceAll hreduce).1
    exact ih hresult hwalk' ⟨[], hframe.list hV hdone hreduce hnext⟩

end Machine

namespace Evaluator

variable {α : Type u} {e : Evaluator α} {p : Parse} {V : Nat → α → Prop}

/-- A walk that has not begun has kept nothing. -/
theorem keeps_ofChart (V : Nat → α → Prop) (c : Chart) : (Walk.ofChart c : Walk α).Keeps V := by
  intro id mark nodes hmark hmemo
  obtain ⟨-, rfl⟩ := by simpa [Walk.ofChart, Array.getElem?_replicate] using hmark
  cases hmemo

/-- The values of all roots have every property that words have and rules hand on. -/
theorem forall_of_expandAll (hV : Machine.HandedOn V e p) {roots : List Nat} {found nodes : List α}
    {walk walk' : Walk α} (h : e.expandAll p roots found walk = (.ok nodes, walk'))
    (hwalk : walk.Keeps V) : ∀ v ∈ nodes, v ∈ found ∨ ∃ root ∈ roots, V root v := by
  induction roots generalizing found walk with
  | nil => cases h; exact fun v hv => .inl hv
  | cons root rest ih =>
    unfold expandAll at h
    split at h
    next => cases h
    next values after hexpand =>
      dsimp only at h
      split at h
      next => cases h
      next =>
        obtain ⟨hvalues, hkeeps⟩ :=
          Machine.forall_of_performs hV (performs_of_expand hexpand) rfl hwalk trivial
        intro v hv
        rcases ih h hkeeps v hv with hmem | ⟨other, hother, hv⟩
        · rcases List.mem_append.1 hmem with hmem | hmem
          · exact .inl hmem
          · exact .inr ⟨root, List.mem_cons_self, hvalues v hmem⟩
        · exact .inr ⟨other, List.mem_cons_of_mem _ hother, hv⟩

/-- So does the first value of the first root that has one. -/
theorem exists_of_expandFirst (hV : Machine.HandedOn V e p) {roots : List Nat} {v : α}
    {walk walk' : Walk α} (h : e.expandFirst p roots walk = (.ok (some v), walk'))
    (hwalk : walk.Keeps V) : ∃ root ∈ roots, V root v := by
  induction roots generalizing walk with
  | nil => cases h
  | cons root rest ih =>
    unfold expandFirst at h
    split at h
    next => cases h
    next value others after hexpand =>
      cases h
      obtain ⟨hvalues, -⟩ :=
        Machine.forall_of_performs hV (performs_of_expand hexpand) rfl hwalk trivial
      exact ⟨root, List.mem_cons_self, hvalues v List.mem_cons_self⟩
    next after hexpand =>
      obtain ⟨-, hkeeps⟩ :=
        Machine.forall_of_performs hV (performs_of_expand hexpand) rfl hwalk trivial
      obtain ⟨other, hother, hv⟩ := ih h hkeeps
      exact ⟨other, List.mem_cons_of_mem _ hother, hv⟩

end Evaluator

end Earley
