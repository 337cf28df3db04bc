import Earley.Proofs.Forest.BigStep
/-!
# The parts of a step

What happens when a walk comes to a state, as a relation with one case for each kind of state
(`Machine.Entered`), and what becomes of the combinations of a frame when a child is expanded and
when they are reduced. The marks of a walk change at one state at a time.
-/

universe u

namespace Earley

namespace Walk

variable {α : Type u}

/-- Only the mark of one state is changed. -/
theorem getElem?_marks_mark (walk : Walk α) (id j : Nat) (change : Mark α → Mark α) :
    (walk.mark id change).marks[j]? =
      if id = j then (walk.marks[j]?).map change else walk.marks[j]? := by
  unfold mark
  split
  next hlt =>
    rw [Array.getElem?_set]
    split
    next heq =>
      subst heq
      rw [Array.getElem?_eq_getElem hlt, Option.map_some]
    next => rfl
  next hge =>
    split
    next heq =>
      subst heq
      rw [Array.getElem?_eq_none (Nat.le_of_not_lt hge)]
      rfl
    next => rfl

/-- A mark after a change is the changed one or that of another state. -/
theorem mark_cases {walk : Walk α} {id j : Nat} {change : Mark α → Mark α} {mark : Mark α}
    (h : (walk.mark id change).marks[j]? = some mark) :
    (id = j ∧ ∃ old, walk.marks[id]? = some old ∧ mark = change old) ∨
      (id ≠ j ∧ walk.marks[j]? = some mark) := by
  rw [getElem?_marks_mark] at h
  split at h
  next heq =>
    subst heq
    obtain ⟨old, hold, hchange⟩ := Option.map_eq_some_iff.1 h
    exact .inl ⟨rfl, old, hold, hchange.symm⟩
  next hne => exact .inr ⟨hne, h⟩

@[simp] theorem size_marks_mark (walk : Walk α) (id : Nat) (change : Mark α → Mark α) :
    (walk.mark id change).marks.size = walk.marks.size := by
  unfold mark
  split <;> simp

@[simp] theorem cuts_mark (walk : Walk α) (id : Nat) (change : Mark α → Mark α) :
    (walk.mark id change).cuts = walk.cuts := by
  unfold mark
  split <;> rfl

@[simp] theorem marks_record (walk : Walk α) (event : Event) :
    (walk.record event).marks = walk.marks := rfl

@[simp] theorem cuts_record (walk : Walk α) (event : Event) :
    (walk.record event).cuts = walk.cuts := rfl

@[simp] theorem size_marks_leave (walk : Walk α) (frame : Frame α) :
    (walk.leave frame).marks.size = walk.marks.size :=
  size_marks_mark _ _ _

@[simp] theorem cuts_leave (walk : Walk α) (frame : Frame α) :
    (walk.leave frame).cuts = walk.cuts :=
  cuts_mark _ _ _

@[simp] theorem events_mark (walk : Walk α) (id : Nat) (change : Mark α → Mark α) :
    (walk.mark id change).events = walk.events := by
  unfold mark
  split <;> rfl

@[simp] theorem events_record (walk : Walk α) (event : Event) :
    (walk.record event).events = walk.events.push event := rfl

@[simp] theorem events_leave (walk : Walk α) (frame : Frame α) :
    (walk.leave frame).events = walk.events :=
  events_mark _ _ _

end Walk

/-- The value of a rule from those of its right-hand side, if some action can be used. -/
def Evaluator.value? {α : Type u} (e : Evaluator α) (rule : Rule) (args : List α) : Option α :=
  (e.action? rule).map fun action => action args

theorem Evaluator.value?_of_action {α : Type u} {e : Evaluator α} {rule : Rule}
    {action : List α → α} (h : e.action? rule = some action) (args : List α) :
    e.value? rule args = some (action args) := by
  rw [value?, h, Option.map_some]

namespace Machine

variable {α : Type u} {e : Evaluator α} {p : Parse}

/-! ### Coming to a state -/

/-- The frame that a state gets. -/
def frameOf (walk : Walk α) (id : Nat) (rule : Rule) (lists : Backpointers) (mark : Mark α) :
    Frame α where
  id := id
  rule := rule
  lists := lists
  cuts := walk.cuts
  repeated := mark.visited

/-- What happens when a walk comes to a state. -/
inductive Entered (e : Evaluator α) (p : Parse) (walk : Walk α) (id : Nat) (mark : Mark α)
    (s : State) : Walk α → Entry α → Prop
  /-- The values of the state were kept. -/
  | known {nodes : List α} (hmemo : mark.memo = some nodes) :
    Entered e p walk id mark s walk (.values nodes)
  /-- The state has a frame already. -/
  | cut (hmemo : mark.memo = none) (hpath : mark.onPath = true) :
    Entered e p walk id mark s ({ walk with cuts := walk.cuts + 1 }.record (.cut id)) (.values [])
  /-- The start production has no values. -/
  | start (hmemo : mark.memo = none) (hpath : mark.onPath = false)
    (hproduction : s.production = .start) : Entered e p walk id mark s walk (.values [])
  /-- A word is turned into a value. -/
  | lexeme {symbol : Symbol} {word : String} (hmemo : mark.memo = none)
    (hpath : mark.onPath = false) (hproduction : s.production = .lexeme symbol)
    (hword : p.chart.tokens[s.origin]? = some word) :
    Entered e p walk id mark s (walk.record (.leaf symbol.name word))
      (.values [e.leaf symbol.name word])
  /-- The state of a rule gets a frame. -/
  | rule {position : Nat} {rule : Rule} {lists : Backpointers} (hmemo : mark.memo = none)
    (hpath : mark.onPath = false) (hproduction : s.production = .rule position)
    (hrule : p.grammar.rules[position]? = some rule)
    (hlists : p.chart.backpointers? id = some lists) :
    Entered e p walk id mark s
      ((walk.mark id fun mark => { mark with onPath := true, visited := true }).record (.opened id))
      (.frame (frameOf walk id rule lists mark))

theorem entered_of_enter {walk walk' : Walk α} {id : Nat} {entry : Entry α}
    (h : enter e p walk id = .ok (walk', entry)) :
    ∃ mark s, walk.marks[id]? = some mark ∧ p.chart.states[id]? = some s ∧
      Entered e p walk id mark s walk' entry := by
  unfold enter at h
  split at h
  next mark s hmark hs =>
    refine ⟨mark, s, hmark, hs, ?_⟩
    split at h
    next nodes hmemo => cases h; exact .known hmemo
    next hmemo =>
      split at h
      next hpath => cases h; exact .cut hmemo hpath
      next hpath =>
        have hoff : mark.onPath = false := by simpa using hpath
        split at h
        next hproduction => cases h; exact .start hmemo hoff hproduction
        next symbol hproduction =>
          split at h
          next => cases h
          next word hword => cases h; exact .lexeme hmemo hoff hproduction hword
        next position hproduction =>
          split at h
          next rule lists hrule hlists =>
            cases h
            exact .rule hmemo hoff hproduction hrule hlists
          next => cases h
  next => cases h

/-! ### Combinations -/

/-- Without truncation, the combinations are extended by all values. -/
theorem extend_false (args : List (List α)) (values : List α) :
    extend false args values = args.flatMap fun list => values.map fun value => list ++ [value] :=
  rfl

/-- An extended combination is an old one with one of the values. -/
theorem exists_of_mem_extend {firstOnly : Bool} {args : List (List α)} {values : List α}
    {list : List α} (h : list ∈ extend firstOnly args values) :
    ∃ front ∈ args, ∃ value ∈ values, list = front ++ [value] := by
  have hall : list ∈ args.flatMap fun list => values.map fun value => list ++ [value] := by
    unfold extend at h
    dsimp only at h
    split at h
    next => exact List.mem_of_mem_take h
    next => exact h
  obtain ⟨front, hfront, hlist⟩ := List.mem_flatMap.1 hall
  obtain ⟨value, hvalue, rfl⟩ := List.mem_map.1 hlist
  exact ⟨front, hfront, value, hvalue, rfl⟩

/-- Combinations that are reduced add one value each, and leave the marks of the walk alone. -/
theorem reduceAll_eq_ok {rule : Rule} {args : List (List α)} {nodes nodes' : Array α}
    {walk walk' : Walk α} (h : reduceAll e rule args nodes walk = (.ok nodes', walk')) :
    nodes'.toList = nodes.toList ++ args.filterMap (e.value? rule) ∧
      nodes'.size = nodes.size + args.length := by
  fun_induction reduceAll e rule args nodes walk with
  | case1 => cases h; simp
  | case2 => cases h
  | case3 => cases h
  | case4 args rest nodes walk walk'' node hreduce nodes'' _ hcheck ih =>
    obtain ⟨hnodes, hsize⟩ := ih h
    obtain ⟨action, haction, rfl⟩ := e.reduce_eq_ok_iff.1 hreduce
    rw [hnodes, hsize]
    simp only [nodes'', Array.toList_push, Array.size_push, List.length_cons, List.append_assoc,
      List.filterMap_cons, Evaluator.value?, haction, Option.map_some, List.singleton_append,
      true_and]
    omega

/-- Reductions leave the marks and the number of cuts alone. -/
theorem marks_of_reduceAll {rule : Rule} {args : List (List α)} {nodes : Array α}
    {walk walk' : Walk α} {result : Except ParseError (Array α)}
    (h : reduceAll e rule args nodes walk = (result, walk')) :
    walk'.marks = walk.marks ∧ walk'.cuts = walk.cuts := by
  fun_induction reduceAll e rule args nodes walk with
  | case1 => rw [← (Prod.mk.inj h).2]; exact ⟨rfl, rfl⟩
  | case2 => rw [← (Prod.mk.inj h).2]; exact ⟨rfl, rfl⟩
  | case3 => rw [← (Prod.mk.inj h).2]; exact ⟨rfl, rfl⟩
  | case4 args rest nodes walk walk'' node hreduce nodes'' _ hcheck ih => exact ih h

end Machine

end Earley
