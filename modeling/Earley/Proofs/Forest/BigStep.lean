import Earley.Proofs.Forest.Steps
/-!
# Walks as nested tasks

A walk is a sequence of steps over a stack of frames. It can also be read as a tree of tasks: to
find the values of a state, and to work through the lists of a frame, which needs the values of
other states (`Machine.Performs`). Every walk that is over has performed its tasks in this sense
(`Evaluator.performs_of_expand`), so what is to be shown of all walks can be shown by induction on
the tasks, and the stack is not mentioned any more.
-/

universe u

namespace Earley

namespace Machine

variable {α : Type u}

/-- Something to be done on a walk. -/
inductive Task (α : Type u) where
  /-- To find the values of a state. -/
  | state (id : Nat)
  /-- To work through what is left of a frame. -/
  | frame (frame : Frame α)

/-- The state that a task is about. -/
def Task.id : Task α → Nat
  | .state id => id
  | .frame opened => opened.id

variable (e : Evaluator α) (p : Parse) (firstOnly : Bool)

/-- A walk performs a task with some outcome and continues as another walk. The values of a frame
are handed on before it is noted that the frame is gone. -/
inductive Performs : Walk α → Task α → Except ParseError (List α) → Walk α → Prop
  /-- The values of a state are known at once. -/
  | entered {walk walk' : Walk α} {id : Nat} {nodes : List α}
    (henter : enter e p walk id = .ok (walk', .values nodes)) :
    Performs walk (.state id) (.ok nodes) walk'
  /-- There is no such state. -/
  | refused {walk : Walk α} {id : Nat} {failure : ParseError}
    (henter : enter e p walk id = .error failure) :
    Performs walk (.state id) (.error failure) walk
  /-- A state gets a frame, which is worked through. -/
  | opened {walk walk' walk'' : Walk α} {id : Nat} {frame : Frame α} {nodes : List α}
    (henter : enter e p walk id = .ok (walk', .frame frame))
    (hframe : Performs walk' (.frame frame) (.ok nodes) walk'') :
    Performs walk (.state id) (.ok nodes) (walk''.leave { frame with nodes := nodes.toArray })
  /-- A state gets a frame, which cannot be worked through. -/
  | broken {walk walk' walk'' : Walk α} {id : Nat} {frame : Frame α} {failure : ParseError}
    (henter : enter e p walk id = .ok (walk', .frame frame))
    (hframe : Performs walk' (.frame frame) (.error failure) walk'') :
    Performs walk (.state id) (.error failure) walk''
  /-- The next child of a frame is expanded, and its values extend the combinations. -/
  | child {walk walk' walk'' : Walk α} {frame : Frame α} {child : Nat} {children : List Nat}
    {values : List α} {result : Except ParseError (List α)} (hargs : frame.args ≠ [])
    (hchildren : frame.children = child :: children)
    (hchild : Performs walk (.state child) (.ok values) walk')
    (hcheck : e.check (extend firstOnly frame.args values).length = .ok ())
    (hrest : Performs walk' (.frame { frame with
      children := children, args := extend firstOnly frame.args values }) result walk'') :
    Performs walk (.frame frame) result walk''
  /-- The next child of a frame cannot be expanded. -/
  | childFailed {walk walk' : Walk α} {frame : Frame α} {child : Nat} {children : List Nat}
    {failure : ParseError} (hargs : frame.args ≠ [])
    (hchildren : frame.children = child :: children)
    (hchild : Performs walk (.state child) (.error failure) walk') :
    Performs walk (.frame frame) (.error failure) walk'
  /-- There are too many combinations with the values of the next child. -/
  | childRefused {walk walk' : Walk α} {frame : Frame α} {child : Nat} {children : List Nat}
    {values : List α} {failure : ParseError} (hargs : frame.args ≠ [])
    (hchildren : frame.children = child :: children)
    (hchild : Performs walk (.state child) (.ok values) walk')
    (hcheck : e.check (extend firstOnly frame.args values).length = .error failure) :
    Performs walk (.frame frame) (.error failure) walk'
  /-- The combinations of a list are finished, but cannot be reduced. -/
  | reduceFailed {walk walk' : Walk α} {frame : Frame α} {failure : ParseError}
    (hdone : frame.args = [] ∨ frame.children = [])
    (hreduce : reduceAll e frame.rule frame.args frame.nodes walk = (.error failure, walk')) :
    Performs walk (.frame frame) (.error failure) walk'
  /-- The combinations of the last list are reduced. -/
  | closed {walk walk' : Walk α} {frame : Frame α} {nodes : Array α}
    (hdone : frame.args = [] ∨ frame.children = [])
    (hreduce : reduceAll e frame.rule frame.args frame.nodes walk = (.ok nodes, walk'))
    (hlast : (firstOnly = true ∧ nodes.size ≠ 0) ∨ frame.lists.next? p.chart = some none) :
    Performs walk (.frame frame) (.ok nodes.toList) walk'
  /-- The combinations of a list are reduced, but there is no way to the next list. -/
  | lost {walk walk' : Walk α} {frame : Frame α} {nodes : Array α}
    (hdone : frame.args = [] ∨ frame.children = [])
    (hreduce : reduceAll e frame.rule frame.args frame.nodes walk = (.ok nodes, walk'))
    (hmore : ¬ (firstOnly = true ∧ nodes.size ≠ 0)) (hnext : frame.lists.next? p.chart = none) :
    Performs walk (.frame frame) (.error .outOfRange) walk'
  /-- The combinations of a list are reduced, and the next list is taken up. -/
  | list {walk walk' walk'' : Walk α} {frame : Frame α} {nodes : Array α} {children : List Nat}
    {lists : Backpointers} {result : Except ParseError (List α)}
    (hdone : frame.args = [] ∨ frame.children = [])
    (hreduce : reduceAll e frame.rule frame.args frame.nodes walk = (.ok nodes, walk'))
    (hmore : ¬ (firstOnly = true ∧ nodes.size ≠ 0))
    (hnext : frame.lists.next? p.chart = some (some (children, lists)))
    (hrest : Performs (walk'.record (.list frame.id)) (.frame { frame with
      lists := lists, children := children, args := [[]], nodes := nodes }) result walk'') :
    Performs walk (.frame frame) result walk''

/-- How a walk with a stack of frames ends: one frame after the other is worked through, from the
innermost one on, and hands its values to the frame below. -/
inductive Finishes : Machine α → Except ParseError (List α) → Walk α → Prop
  /-- No frame is left. -/
  | empty {walk : Walk α} {pending : Option (List α)} :
    Finishes ⟨walk, [], pending⟩ (.ok (pending.getD [])) walk
  /-- The innermost frame cannot be worked through. -/
  | failed {walk walk' : Walk α} {frame : Frame α} {below : List (Frame α)} {failure : ParseError}
    (hframe : Performs e p firstOnly walk (.frame frame) (.error failure) walk') :
    Finishes ⟨walk, frame :: below, none⟩ (.error failure) walk'
  /-- The innermost frame is worked through. -/
  | done {walk walk' walk'' : Walk α} {frame : Frame α} {below : List (Frame α)} {nodes : List α}
    {result : Except ParseError (List α)}
    (hframe : Performs e p firstOnly walk (.frame frame) (.ok nodes) walk')
    (hbelow : Finishes
      ⟨walk'.leave { frame with nodes := nodes.toArray }, below, some nodes⟩ result walk'') :
    Finishes ⟨walk, frame :: below, none⟩ result walk''
  /-- The innermost frame takes the values that are pending. -/
  | take {walk walk' : Walk α} {frame : Frame α} {below : List (Frame α)} {values : List α}
    {result : Except ParseError (List α)}
    (hcheck : e.check (extend firstOnly frame.args values).length = .ok ())
    (hframe : Finishes
      ⟨walk, { frame with args := extend firstOnly frame.args values } :: below, none⟩ result
      walk') :
    Finishes ⟨walk, frame :: below, some values⟩ result walk'
  /-- The innermost frame has too many combinations with the values that are pending. -/
  | refused {walk : Walk α} {frame : Frame α} {below : List (Frame α)} {values : List α}
    {failure : ParseError}
    (hcheck : e.check (extend firstOnly frame.args values).length = .error failure) :
    Finishes ⟨walk, frame :: below, some values⟩ (.error failure) walk

variable {e p firstOnly}

/-! ### From steps to tasks -/

/-- A walk over which nothing but one step is left. -/
theorem finishes_of_stops {m : Machine α} {result : Except ParseError (List α)} {walk : Walk α}
    (h : Stops e p firstOnly m result walk) : Finishes e p firstOnly m result walk := by
  cases h with
  | empty => exact .empty
  | refused hcheck => exact .refused hcheck
  | child hargs hchildren henter => exact .failed (.childFailed hargs hchildren (.refused henter))
  | reduce hdone hreduce => exact .failed (.reduceFailed hdone hreduce)
  | lost hdone hreduce hmore hnext => exact .failed (.lost hdone hreduce hmore hnext)

/-- A walk whose frame has come to a child without a frame of its own. -/
theorem finishes_of_entered {walk walk' walk'' : Walk α} {frame : Frame α}
    {below : List (Frame α)} {child : Nat} {children : List Nat} {nodes : List α}
    {result : Except ParseError (List α)} (hargs : frame.args ≠ [])
    (hchildren : frame.children = child :: children)
    (hchild : Performs e p firstOnly walk (.state child) (.ok nodes) walk')
    (h : Finishes e p firstOnly
      ⟨walk', { frame with children := children } :: below, some nodes⟩ result walk'') :
    Finishes e p firstOnly ⟨walk, frame :: below, none⟩ result walk'' := by
  cases h with
  | take hcheck hframe =>
    cases hframe with
    | failed hrest => exact .failed (.child hargs hchildren hchild hcheck hrest)
    | done hrest hbelow => exact .done (.child hargs hchildren hchild hcheck hrest) hbelow
  | refused hcheck => exact .failed (.childRefused hargs hchildren hchild hcheck)

/-- A walk ends as it does after its next step. -/
theorem finishes_of_goes {m m' : Machine α} {visits : List (Visit α)}
    {result : Except ParseError (List α)} {walk : Walk α} (h : Goes e p firstOnly m visits m')
    (hm' : Finishes e p firstOnly m' result walk) : Finishes e p firstOnly m result walk := by
  cases h with
  | take hcheck => exact .take hcheck hm'
  | @child _ _ _ _ _ _ entry hargs hchildren henter =>
    cases entry with
    | values nodes => exact finishes_of_entered hargs hchildren (.entered henter) hm'
    | frame opened =>
      cases hm' with
      | failed hframe => exact .failed (.childFailed hargs hchildren (.broken henter hframe))
      | done hframe hbelow =>
        exact finishes_of_entered hargs hchildren (.opened henter hframe) hbelow
  | close hdone hreduce hlast => exact .done (.closed hdone hreduce hlast) hm'
  | list hdone hreduce hmore hnext =>
    cases hm' with
    | failed hframe => exact .failed (.list hdone hreduce hmore hnext hframe)
    | done hframe hbelow => exact .done (.list hdone hreduce hmore hnext hframe) hbelow

/-- Every walk finishes its stack. -/
theorem finishes_runWithin {n : Nat} {m : Machine α} (hn : m.room ≤ n) :
    Finishes e p firstOnly m (runWithin e p firstOnly n m hn).1
      (runWithin e p firstOnly n m hn).2 := by
  fun_induction runWithin e p firstOnly n m hn with
  | case1 m hn result walk hstep => exact finishes_of_stops (stops_of_step hstep)
  | case2 m hn m' hstep ih =>
    obtain ⟨visits, hgoes⟩ := exists_goes_of_step hstep
    exact finishes_of_goes hgoes ih

end Machine

open Machine in
/-- The values of a state are found by performing the task to find them. -/
theorem Evaluator.performs_of_expand {α : Type u} {e : Evaluator α} {p : Parse} {firstOnly : Bool}
    {walk walk' : Walk α} {id : Nat} {result : Except ParseError (List α)}
    (h : e.expand p firstOnly walk id = (result, walk')) :
    Performs e p firstOnly walk (.state id) result walk' := by
  unfold expand at h
  split at h
  next failure henter =>
    cases h
    exact .refused henter
  next entered entry henter =>
    have hfinishes : Finishes e p firstOnly (ofEntry entered [] entry)
        (run e p firstOnly (ofEntry entered [] entry)).1
        (run e p firstOnly (ofEntry entered [] entry)).2 := finishes_runWithin (Nat.le_refl _)
    rw [h] at hfinishes
    cases entry with
    | values nodes =>
      cases hfinishes with
      | empty => exact .entered henter
    | frame frame =>
      cases hfinishes with
      | failed hframe => exact .broken henter hframe
      | done hframe hbelow =>
        cases hbelow with
        | empty => exact .opened henter hframe

end Earley
