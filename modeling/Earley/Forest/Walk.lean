import Earley.Chart.Backpointers
import Earley.Forest.Evaluator
import Earley.Forest.Rank
import Earley.Parse.Basic
/-!
# Walking through the derivations of a state

A walk computes the values of all derivations of a state. For each back-pointer list it combines
the values of the children in every way, the first child varying slowest, and reduces each
combination by the state's rule. The states on the way from the root of the walk are kept as
frames on a stack. A state that comes up again below itself is a circle of derivations: it is cut
there and contributes nothing. The values of a state that is expanded a second time, without any
cut below it, are kept as its memo and used from then on.

`Machine.step` does one step of a walk and `Machine.run` all of them. A walk ends because each
step but the last lowers the rank of the stack: every frame has a fixed number of back-pointer
lists to go through, and no state has two frames.
-/

universe u

namespace Earley

/-- Something that happened on a walk. -/
inductive Event where
  /-- A frame was opened for a state. -/
  | opened (id : Nat)
  /-- A state was cut, since it has a frame already. -/
  | cut (id : Nat)
  /-- A back-pointer list of a state was taken up. -/
  | list (id : Nat)
  /-- A word matched by a terminal was turned into a value. -/
  | leaf (symbol word : String)
  /-- The action of a rule was called for. -/
  | reduction (rule : Rule)
deriving DecidableEq, Repr

/-- The message about an event. Only reductions are reported. -/
def Event.message? : Event → Option Message
  | reduction rule => some { level := .trace, content := "Reduction: " ++ rule.text }
  | _ => none

/-- What a walk remembers about a state. -/
structure Mark (α : Type u) where
  /-- Whether the state has a frame. -/
  onPath : Bool := false
  /-- Whether the state has had a frame before. -/
  visited : Bool := false
  /-- The values of the state, once they are kept. -/
  memo : Option (List α) := none

/-- What is remembered from one root of a parse to the next. -/
structure Walk (α : Type u) where
  /-- The marks of the states, by number. -/
  marks : Array (Mark α)
  /-- How many times a state was cut. -/
  cuts : Nat := 0
  /-- Everything that has happened. -/
  events : Array Event := #[]

/-- A rule state that is being expanded. -/
structure Frame (α : Type u) where
  /-- The number of the state. -/
  id : Nat
  /-- The rule of the state. -/
  rule : Rule
  /-- The back-pointer lists that are yet to be taken up. -/
  lists : Backpointers
  /-- The children of the current list that are yet to be expanded. -/
  children : List Nat := []
  /-- The combinations of values for those children that are expanded already. -/
  args : List (List α) := []
  /-- The values of the state found so far. -/
  nodes : Array α := #[]
  /-- The number of cuts when the frame was opened. -/
  cuts : Nat
  /-- Whether the state has had a frame before this one. -/
  repeated : Bool

/-- What becomes of a state that a walk comes to. -/
inductive Entry (α : Type u) where
  /-- Its values are known at once. -/
  | values (nodes : List α)
  /-- It has to be expanded. -/
  | frame (frame : Frame α)

/-- A walk in progress. -/
structure Machine (α : Type u) where
  /-- What the walk remembers. -/
  walk : Walk α
  /-- The frames, the innermost one first. -/
  stack : List (Frame α)
  /-- The values of the state that was expanded last, until the frame below takes them. -/
  pending : Option (List α)

/-- What one step of a walk leads to. -/
inductive Step (α : Type u) where
  /-- The walk goes on. -/
  | next (m : Machine α)
  /-- The walk is over. -/
  | done (result : Except ParseError (List α)) (walk : Walk α)

namespace Walk

variable {α : Type u}

/-- A walk over a chart that has not begun. -/
def ofChart (c : Chart) : Walk α where
  marks := Array.replicate c.size {}

/-- Adds an event. -/
def record (walk : Walk α) (event : Event) : Walk α :=
  { walk with events := walk.events.push event }

/-- Changes the mark of a state. -/
def mark (walk : Walk α) (id : Nat) (change : Mark α → Mark α) : Walk α :=
  if h : id < walk.marks.size then
    { walk with marks := walk.marks.set id (change walk.marks[id]) }
  else walk

/-- The number of states that have no frame. -/
def room (walk : Walk α) : Nat :=
  walk.marks.countP fun mark => !mark.onPath

/-- Notes that the frame of a state is gone. Its values are kept if it had a frame before and no
state was cut meanwhile. -/
def leave (walk : Walk α) (frame : Frame α) : Walk α :=
  walk.mark frame.id fun mark =>
    { mark with
      onPath := false
      memo :=
        if frame.repeated ∧ walk.cuts = frame.cuts then some frame.nodes.toList else mark.memo }

@[simp] theorem room_record (walk : Walk α) (event : Event) :
    (walk.record event).room = walk.room := rfl

theorem room_mark_le (walk : Walk α) (id : Nat) (change : Mark α → Mark α) :
    (walk.mark id change).room ≤ walk.room + 1 := by
  unfold mark room
  split
  · rw [Array.countP_set]
    split <;> split <;> omega
  · omega

theorem room_leave_le (walk : Walk α) (frame : Frame α) :
    (walk.leave frame).room ≤ walk.room + 1 :=
  room_mark_le _ _ _

theorem room_mark_lt {walk : Walk α} {id : Nat} {old : Mark α} (change : Mark α → Mark α)
    (hid : walk.marks[id]? = some old) (hold : old.onPath = false)
    (hnew : (change old).onPath = true) : (walk.mark id change).room < walk.room := by
  obtain ⟨h, rfl⟩ := Array.getElem?_eq_some_iff.1 hid
  have hpos : 0 < walk.room := Array.countP_pos_iff.2 ⟨_, Array.getElem_mem h, by simp [hold]⟩
  unfold mark room at *
  simp only [h, ↓reduceDIte, Array.countP_set, hold, hnew, Bool.not_false, Bool.not_true,
    Bool.false_eq_true, ↓reduceIte]
  omega

end Walk

namespace Machine

variable {α : Type u}

/-- A walk that has come to a state with the given outcome. -/
def ofEntry (walk : Walk α) (stack : List (Frame α)) : Entry α → Machine α
  | .values nodes => { walk := walk, stack := stack, pending := some nodes }
  | .frame frame => { walk := walk, stack := frame :: stack, pending := none }

variable (e : Evaluator α) (p : Parse) (firstOnly : Bool)

/-- Comes to a state. A state with kept values, a state that is cut and a matched word have their
values at once, and a state of a rule gets a frame. -/
def enter (walk : Walk α) (id : Nat) : Except ParseError (Walk α × Entry α) :=
  match walk.marks[id]?, p.chart.states[id]? with
  | some mark, some s =>
    match mark.memo with
    | some nodes => .ok (walk, .values nodes)
    | none =>
      if mark.onPath then
        .ok ({ walk with cuts := walk.cuts + 1 }.record (.cut id), .values [])
      else
        match s.production with
        | .start => .ok (walk, .values [])
        | .lexeme symbol =>
          match p.chart.tokens[s.origin]? with
          | none => .error .outOfRange
          | some word =>
            .ok (walk.record (.leaf symbol.name word), .values [e.leaf symbol.name word])
        | .rule rule =>
          match p.grammar.rules[rule]?, p.chart.backpointers? id with
          | some rule, some lists =>
            let frame : Frame α :=
              { id := id, rule := rule, lists := lists, cuts := walk.cuts
                repeated := mark.visited }
            .ok
              ((walk.mark id fun mark => { mark with onPath := true, visited := true }).record
                (.opened id), .frame frame)
          | _, _ => .error .outOfRange
  | _, _ => .error .outOfRange

/-- Every combination of the arguments so far with one value more. A walk that is after the first
derivation only keeps the first combination. -/
def extend (args : List (List α)) (values : List α) : List (List α) :=
  let extended := args.flatMap fun list => values.map fun value => list ++ [value]
  if firstOnly then extended.take 1 else extended

/-- Reduces each combination of arguments, and adds the results to the values of the state. -/
def reduceAll (rule : Rule) :
    List (List α) → Array α → Walk α → Except ParseError (Array α) × Walk α
  | [], nodes, walk => (.ok nodes, walk)
  | args :: rest, nodes, walk =>
    let walk := walk.record (.reduction rule)
    match e.reduce rule args with
    | .error failure => (.error failure, walk)
    | .ok node =>
      let nodes := nodes.push node
      match e.check nodes.size with
      | .error failure => (.error failure, walk)
      | .ok _ => reduceAll rule rest nodes walk

/-- Takes the innermost frame off the stack and hands its values to the frame below. -/
def close (walk : Walk α) (frame : Frame α) (below : List (Frame α)) : Machine α :=
  { walk := walk.leave frame, stack := below, pending := some frame.nodes.toList }

/-- Goes on to the next back-pointer list of the innermost frame, or closes the frame if no list is
left or no further one is wanted. -/
def advance (walk : Walk α) (frame : Frame α) (below : List (Frame α)) : Step α :=
  if firstOnly ∧ frame.nodes.size ≠ 0 then .next (close walk frame below)
  else
    match frame.lists.next? p.chart with
    | none => .done (.error .outOfRange) walk
    | some none => .next (close walk frame below)
    | some (some (children, lists)) =>
      .next
        { walk := walk.record (.list frame.id)
          stack := { frame with lists := lists, children := children, args := [[]] } :: below
          pending := none }

/-- One step of a walk. The innermost frame takes the values that are pending, or expands its next
child, or reduces the combinations that are finished and goes on to its next list. -/
def step (m : Machine α) : Step α :=
  match m.stack, m.pending with
  | [], pending => .done (.ok (pending.getD [])) m.walk
  | frame :: below, some values =>
    let args := extend firstOnly frame.args values
    match e.check args.length with
    | .error failure => .done (.error failure) m.walk
    | .ok _ =>
      .next { walk := m.walk, stack := { frame with args := args } :: below, pending := none }
  | frame :: below, none =>
    match frame.args, frame.children with
    | _ :: _, child :: children =>
      match enter e p m.walk child with
      | .error failure => .done (.error failure) m.walk
      | .ok (walk, entry) =>
        .next (ofEntry walk ({ frame with children := children } :: below) entry)
    | args, _ =>
      match reduceAll e frame.rule args frame.nodes m.walk with
      | (.error failure, walk) => .done (.error failure) walk
      | (.ok nodes, walk) =>
        advance p firstOnly walk { frame with args := [], nodes := nodes } below

/-! ### Termination -/

/-- The frames and the states that may still get one. -/
def room (m : Machine α) : Nat :=
  m.stack.length + m.walk.room

/-- How often a frame may still be touched before it is closed. -/
def weight (frame : Frame α) : Nat :=
  frame.children.length +
    (frame.lists.remaining p.chart).foldr (fun list total => list.length + 1 + total) 0 + 1

/-- The weights of the frames from the bottom of the stack up, and whether values are pending. -/
def rank (n : Nat) (m : Machine α) : Rank n × Nat :=
  (.ofList n (m.stack.map (weight p)).reverse, if m.pending.isSome then 1 else 0)

theorem room_of_enter {walk walk' : Walk α} {id : Nat} {entry : Entry α} (stack : List (Frame α))
    (h : enter e p walk id = .ok (walk', entry)) :
    (ofEntry walk' stack entry).room ≤ stack.length + walk.room := by
  unfold enter at h
  split at h
  next mark s hmark hs =>
    split at h
    next => cases h; exact Nat.le_refl _
    next =>
      split at h
      next => cases h; exact Nat.le_refl _
      next hpath =>
        split at h
        next => cases h; exact Nat.le_refl _
        next =>
          split at h
          next => cases h
          next => cases h; exact Nat.le_refl _
        next =>
          split at h
          next =>
            cases h
            have := Walk.room_mark_lt (fun mark => { mark with onPath := true, visited := true })
              hmark (by simpa using hpath) rfl
            simp only [room, ofEntry, List.length_cons, Walk.room_record]
            omega
          next => cases h
  next => cases h

theorem room_of_reduceAll {rule : Rule} {args : List (List α)} {nodes : Array α}
    {walk walk' : Walk α} {result : Except ParseError (Array α)}
    (h : reduceAll e rule args nodes walk = (result, walk')) : walk'.room = walk.room := by
  fun_induction reduceAll e rule args nodes walk with
  | case1 => rw [← (Prod.mk.inj h).2]
  | case2 => rw [← (Prod.mk.inj h).2, Walk.room_record]
  | case3 => rw [← (Prod.mk.inj h).2, Walk.room_record]
  | case4 _ _ _ _ _ _ _ _ _ _ ih => rw [ih h, Walk.room_record]

theorem room_close_le (walk : Walk α) (frame : Frame α) (below : List (Frame α)) :
    (close walk frame below).room ≤ below.length + 1 + walk.room := by
  have := walk.room_leave_le frame
  simp only [room, close]
  omega

theorem room_of_advance {walk : Walk α} {frame : Frame α} {below : List (Frame α)}
    {m : Machine α} (h : advance p firstOnly walk frame below = .next m) :
    m.room ≤ below.length + 1 + walk.room := by
  unfold advance at h
  split at h
  next => cases h; exact room_close_le _ _ _
  next =>
    split at h
    next => cases h
    next => cases h; exact room_close_le _ _ _
    next => cases h; simp [room]

/-- No step makes more room than there was. -/
theorem room_of_step {m m' : Machine α} (h : step e p firstOnly m = .next m') :
    m'.room ≤ m.room := by
  obtain ⟨walk, stack, pending⟩ := m
  unfold step at h
  dsimp only at h
  split at h
  next => cases h
  next frame below values =>
    split at h
    next => cases h
    next => cases h; simp [room]
  next frame below =>
    split at h
    next =>
      split at h
      next => cases h
      next entered => cases h; simpa [room] using room_of_enter e p (_ :: below) entered
    next =>
      split at h
      next => cases h
      next reduced =>
        have := room_of_advance p firstOnly h
        rw [room_of_reduceAll e reduced] at this
        simpa [room] using this

theorem rank_lt_of_weight_lt {n : Nat} {walk walk' : Walk α} {frame frame' : Frame α}
    {below : List (Frame α)} {pending pending' : Option (List α)} (above : List (Frame α))
    (hn : below.length < n) (h : weight p frame' < weight p frame) :
    WellFoundedRelation.rel
      (rank p n { walk := walk', stack := above ++ frame' :: below, pending := pending' })
      (rank p n { walk := walk, stack := frame :: below, pending := pending }) := by
  refine Prod.Lex.left _ _ ?_
  simpa using Rank.ofList_lt_of_lt (below.map (weight p)).reverse
    ((above.map (weight p)).reverse) [] (by simpa using hn) h

theorem rank_close_lt {n : Nat} {walk walk' : Walk α} {frame frame' : Frame α}
    {below : List (Frame α)} {pending : Option (List α)} (hn : below.length < n) :
    WellFoundedRelation.rel (rank p n (close walk' frame' below))
      (rank p n { walk := walk, stack := frame :: below, pending := pending }) := by
  refine Prod.Lex.left _ _ ?_
  simpa [close] using Rank.ofList_lt_append (b := weight p frame) (below.map (weight p)).reverse
    (by simpa using hn) (Nat.succ_pos _)

theorem rank_of_advance {n : Nat} {walk walk' : Walk α} {frame : Frame α}
    {args : List (List α)} {nodes : Array α} {below : List (Frame α)} {pending : Option (List α)}
    {m : Machine α} (hn : below.length < n)
    (h : advance p firstOnly walk' { frame with args := args, nodes := nodes } below = .next m) :
    WellFoundedRelation.rel (rank p n m)
      (rank p n { walk := walk, stack := frame :: below, pending := pending }) := by
  unfold advance at h
  split at h
  next => cases h; exact rank_close_lt p hn
  next =>
    split at h
    next => cases h
    next => cases h; exact rank_close_lt p hn
    next children lists hl =>
      cases h
      refine rank_lt_of_weight_lt p [] hn ?_
      have := Backpointers.remaining_of_next?_eq_some p.layered hl
      simp only [weight, this, List.foldr_cons]
      omega

/-- Every step that is not the last lowers the rank of the walk. -/
theorem rank_of_step {n : Nat} {m m' : Machine α} (hn : m.room ≤ n)
    (h : step e p firstOnly m = .next m') :
    WellFoundedRelation.rel (rank p n m') (rank p n m) := by
  obtain ⟨walk, stack, pending⟩ := m
  unfold step at h
  dsimp only at h
  split at h
  next => cases h
  next frame below values =>
    split at h
    next => cases h
    next =>
      cases h
      exact Prod.Lex.right _ (Nat.zero_lt_one)
  next frame below =>
    have hb : below.length < n := by
      simp only [room, List.length_cons] at hn
      omega
    split at h
    next child children hargs hchildren =>
      split at h
      next => cases h
      next walk' entry entered =>
        cases h
        have hw : weight p { frame with children := children } < weight p frame := by
          simp only [weight, hchildren, List.length_cons]
          omega
        cases entry with
        | values nodes => exact rank_lt_of_weight_lt p [] hb hw
        | frame opened => exact rank_lt_of_weight_lt p [opened] hb hw
    next =>
      split at h
      next => cases h
      next => exact rank_of_advance p firstOnly hb h

/-! ### Whole walks -/

/-- All steps of a walk in which no more than `n` frames and states without a frame are left. -/
def runWithin (n : Nat) (m : Machine α) (hn : m.room ≤ n) :
    Except ParseError (List α) × Walk α :=
  match h : step e p firstOnly m with
  | .done result walk => (result, walk)
  | .next m' => runWithin n m' (Nat.le_trans (room_of_step e p firstOnly h) hn)
termination_by rank p n m
decreasing_by exact rank_of_step e p firstOnly hn h

/-- All steps of a walk. -/
def run (m : Machine α) : Except ParseError (List α) × Walk α :=
  runWithin e p firstOnly m.room m (Nat.le_refl _)

theorem runWithin_eq_run {n : Nat} {m : Machine α} (hn : m.room ≤ n) :
    runWithin e p firstOnly n m hn = run e p firstOnly m := by
  suffices h : ∀ k (hk : m.room ≤ k),
      runWithin e p firstOnly n m hn = runWithin e p firstOnly k m hk from h _ _
  fun_induction runWithin e p firstOnly n m hn with
  | case1 m hn result walk hs =>
    intro k hk
    rw [runWithin]
    split <;> simp_all
  | case2 m hn m' hs ih =>
    intro k hk
    rw [runWithin.eq_def _ _ _ k]
    split
    next hd => rw [hs] at hd; cases hd
    next hd => rw [hs] at hd; cases hd; exact ih _ _

/-- A walk that is over has the result of its last step. -/
theorem run_of_step_eq_done {m : Machine α} {result : Except ParseError (List α)} {walk : Walk α}
    (h : step e p firstOnly m = .done result walk) : run e p firstOnly m = (result, walk) := by
  rw [run, runWithin]
  split <;> simp_all

/-- A walk that goes on has the result of what it leads to. -/
theorem run_of_step_eq_next {m m' : Machine α} (h : step e p firstOnly m = .next m') :
    run e p firstOnly m = run e p firstOnly m' := by
  rw [run, runWithin]
  split
  next hd => rw [h] at hd; cases hd
  next hd => rw [h] at hd; cases hd; exact runWithin_eq_run e p firstOnly _

end Machine

end Earley
