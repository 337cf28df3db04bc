import Earley.Forest.Evaluation
/-!
# The steps of a walk

What one step of a walk does, as a relation with one case for each kind of step: a walk that goes on
(`Machine.Goes`) takes the values that are pending, comes to a child, takes up a list or closes a
frame, and a walk that is over (`Machine.Stops`) has no frame left or has failed. With a step comes
what it does about a state (`Visit`): the state gets a frame, or values that were kept, or loses its
frame.
-/

universe u

namespace Earley

/-- What a walk does about a state. -/
inductive Visit (α : Type u) where
  /-- The state gets a frame. -/
  | opened (id : Nat)
  /-- The frame of the state is gone, and it has found these values. -/
  | closed (id : Nat) (nodes : List α)
  /-- The values that were kept of the state are used. -/
  | known (id : Nat) (nodes : List α)
  /-- The state has no frame and nothing kept: it is a word, or it is cut. -/
  | passed (id : Nat)

namespace Visit

variable {α : Type u}

/-- The state. -/
def id : Visit α → Nat
  | opened id => id
  | closed id _ => id
  | known id _ => id
  | passed id => id

/-- The state, if it gets a frame. -/
def opened? : Visit α → Option Nat
  | opened id => some id
  | _ => none

theorem filterMap_opened?_singleton (visit : Visit α) :
    [visit].filterMap opened? = visit.opened?.toList := by
  cases visit <;> rfl

/-- What it comes to when a walk comes to a state. -/
def ofEntry (walk : Walk α) (id : Nat) : Entry α → Visit α
  | .frame _ => opened id
  | .values nodes =>
    if walk.marks[id]?.any fun mark => mark.memo.isSome then known id nodes else passed id

@[simp] theorem id_ofEntry (walk : Walk α) (id : Nat) (entry : Entry α) :
    (ofEntry walk id entry).id = id := by
  cases entry with
  | frame => rfl
  | values nodes =>
    unfold ofEntry
    dsimp only
    split <;> rfl

end Visit

namespace Machine

variable {α : Type u} (e : Evaluator α) (p : Parse) (firstOnly : Bool)

/-- A walk goes on with a step, with what the step does about states. -/
inductive Goes : Machine α → List (Visit α) → Machine α → Prop
  /-- The innermost frame takes the values that are pending. -/
  | take {walk : Walk α} {frame : Frame α} {below : List (Frame α)} {values : List α}
    (hcheck : e.check (extend firstOnly frame.args values).length = .ok ()) :
    Goes ⟨walk, frame :: below, some values⟩ []
      ⟨walk, { frame with args := extend firstOnly frame.args values } :: below, none⟩
  /-- The innermost frame comes to its next child. -/
  | child {walk walk' : Walk α} {frame : Frame α} {below : List (Frame α)} {child : Nat}
    {children : List Nat} {entry : Entry α} (hargs : frame.args ≠ [])
    (hchildren : frame.children = child :: children)
    (henter : enter e p walk child = .ok (walk', entry)) :
    Goes ⟨walk, frame :: below, none⟩ [Visit.ofEntry walk child entry]
      (ofEntry walk' ({ frame with children := children } :: below) entry)
  /-- The innermost frame reduces its combinations and is closed. -/
  | close {walk walk' : Walk α} {frame : Frame α} {below : List (Frame α)} {nodes : Array α}
    (hdone : frame.args = [] ∨ frame.children = [])
    (hreduce : reduceAll e frame.rule frame.args frame.nodes walk = (.ok nodes, walk'))
    (hlast : (firstOnly = true ∧ nodes.size ≠ 0) ∨ frame.lists.next? p.chart = some none) :
    Goes ⟨walk, frame :: below, none⟩ [.closed frame.id nodes.toList]
      (close walk' { frame with args := [], nodes := nodes } below)
  /-- The innermost frame reduces its combinations and takes up its next list. -/
  | list {walk walk' : Walk α} {frame : Frame α} {below : List (Frame α)} {nodes : Array α}
    {children : List Nat} {lists : Backpointers} (hdone : frame.args = [] ∨ frame.children = [])
    (hreduce : reduceAll e frame.rule frame.args frame.nodes walk = (.ok nodes, walk'))
    (hmore : ¬ (firstOnly = true ∧ nodes.size ≠ 0))
    (hnext : frame.lists.next? p.chart = some (some (children, lists))) :
    Goes ⟨walk, frame :: below, none⟩ []
      ⟨walk'.record (.list frame.id), { frame with
        lists := lists, children := children, args := [[]], nodes := nodes } :: below, none⟩

/-- A walk is over, with a result and what it remembers. -/
inductive Stops : Machine α → Except ParseError (List α) → Walk α → Prop
  /-- No frame is left. -/
  | empty {walk : Walk α} {pending : Option (List α)} :
    Stops ⟨walk, [], pending⟩ (.ok (pending.getD [])) walk
  /-- The innermost frame has too many combinations with the values that are pending. -/
  | refused {walk : Walk α} {frame : Frame α} {below : List (Frame α)} {values : List α}
    {failure : ParseError}
    (hcheck : e.check (extend firstOnly frame.args values).length = .error failure) :
    Stops ⟨walk, frame :: below, some values⟩ (.error failure) walk
  /-- There is no such state as the next child. -/
  | child {walk : Walk α} {frame : Frame α} {below : List (Frame α)} {child : Nat}
    {children : List Nat} {failure : ParseError} (hargs : frame.args ≠ [])
    (hchildren : frame.children = child :: children)
    (henter : enter e p walk child = .error failure) :
    Stops ⟨walk, frame :: below, none⟩ (.error failure) walk
  /-- The combinations of the innermost frame cannot be reduced. -/
  | reduce {walk walk' : Walk α} {frame : Frame α} {below : List (Frame α)} {failure : ParseError}
    (hdone : frame.args = [] ∨ frame.children = [])
    (hreduce : reduceAll e frame.rule frame.args frame.nodes walk = (.error failure, walk')) :
    Stops ⟨walk, frame :: below, none⟩ (.error failure) walk'
  /-- There is no way to the next list of the innermost frame. -/
  | lost {walk walk' : Walk α} {frame : Frame α} {below : List (Frame α)} {nodes : Array α}
    (hdone : frame.args = [] ∨ frame.children = [])
    (hreduce : reduceAll e frame.rule frame.args frame.nodes walk = (.ok nodes, walk'))
    (hmore : ¬ (firstOnly = true ∧ nodes.size ≠ 0)) (hnext : frame.lists.next? p.chart = none) :
    Stops ⟨walk, frame :: below, none⟩ (.error .outOfRange) walk'

variable {e p firstOnly}

/-- A frame that still has combinations and children, or is finished with its list. -/
theorem args_eq_nil_or_children_eq_nil {frame : Frame α}
    (h : ∀ (first : List α) (others : List (List α)) (child : Nat) (children : List Nat),
      frame.args = first :: others → frame.children = child :: children → False) :
    frame.args = [] ∨ frame.children = [] := by
  cases hargs : frame.args with
  | nil => exact .inl rfl
  | cons first others =>
    cases hchildren : frame.children with
    | nil => exact .inr rfl
    | cons child children => exact (h first others child children hargs hchildren).elim

/-- The last step of a walk. -/
theorem stops_of_step {m : Machine α} {result : Except ParseError (List α)} {walk : Walk α}
    (h : step e p firstOnly m = .done result walk) : Stops e p firstOnly m result walk := by
  obtain ⟨before, stack, pending⟩ := m
  unfold step at h
  dsimp only at h
  split at h
  next => cases h; exact .empty
  next frame below values =>
    split at h
    next failure hcheck => cases h; exact .refused hcheck
    next => cases h
  next frame below =>
    split at h
    next child children hargs hchildren =>
      split at h
      next failure henter =>
        cases h
        exact .child (by rw [hargs]; exact List.cons_ne_nil _ _) hchildren henter
      next => cases h
    next hargs =>
      have hdone := args_eq_nil_or_children_eq_nil hargs
      split at h
      next failure walk' hreduce => cases h; exact .reduce hdone hreduce
      next nodes walk' hreduce =>
        unfold advance at h
        split at h
        next => cases h
        next hmore =>
          split at h
          next hnext => cases h; exact .lost hdone hreduce hmore hnext
          next => cases h
          next => cases h

/-- Every other step. -/
theorem exists_goes_of_step {m m' : Machine α} (h : step e p firstOnly m = .next m') :
    ∃ visits, Goes e p firstOnly m visits m' := by
  obtain ⟨before, stack, pending⟩ := m
  unfold step at h
  dsimp only at h
  split at h
  next => cases h
  next frame below values =>
    split at h
    next => cases h
    next hcheck => cases h; exact ⟨_, .take hcheck⟩
  next frame below =>
    split at h
    next child children hargs hchildren =>
      have hne : frame.args ≠ [] := by rw [hargs]; exact List.cons_ne_nil _ _
      split at h
      next => cases h
      next walk' entry henter => cases h; exact ⟨_, .child hne hchildren henter⟩
    next hargs =>
      have hdone := args_eq_nil_or_children_eq_nil hargs
      split at h
      next => cases h
      next nodes walk' hreduce =>
        unfold advance at h
        split at h
        next hlast => cases h; exact ⟨_, .close hdone hreduce (.inl hlast)⟩
        next hmore =>
          split at h
          next => cases h
          next hnext => cases h; exact ⟨_, .close hdone hreduce (.inr hnext)⟩
          next children lists hnext => cases h; exact ⟨_, .list hdone hreduce hmore hnext⟩

end Machine

end Earley
