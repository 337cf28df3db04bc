import Earley.Proofs.Forest.Failure
/-!
# The stack of a walk

At every point of a call (`Evaluator.Underway`) the frames on the stack belong to different states,
these are the states that are marked as having a frame, and each of them lies below all the states
whose frames are under its own (`Machine.Stacked`). One step keeps this, since a state that gets a
frame is a child of the state of the innermost frame and has no frame yet. The states that get a
frame are those of the events that an evaluation leaves behind, in order
(`Evaluator.exists_underway_of_evalAll`, `Evaluator.exists_underway_of_evalFirst`).
-/

universe u

namespace Earley

open Relation

namespace Machine

variable {α : Type u} {e : Evaluator α} {p : Parse} {firstOnly : Bool} {tokens : List String}

/-- The states of the frames, the innermost one first. -/
def ids (m : Machine α) : List Nat :=
  m.stack.map Frame.id

/-- The frames on the stack of a walk fit together, and the marks of the walk show them. -/
structure Stacked (p : Parse) (m : Machine α) : Prop where
  /-- There is a mark for each state. -/
  size : m.walk.marks.size = p.chart.size
  /-- The states with a frame are marked. -/
  onPath : ∀ {id : Nat} {mark : Mark α}, m.walk.marks[id]? = some mark →
    (mark.onPath = true ↔ id ∈ m.ids)
  /-- No state has two frames. -/
  nodup : m.ids.Nodup
  /-- Each frame goes through lists of its state. -/
  inOrder : ∀ frame ∈ m.stack, InOrder p frame
  /-- The state of each frame lies below those of the frames under it. -/
  below : m.ids.Pairwise (TransGen p.chart.Child)

namespace Stacked

variable {walk walk' : Walk α} {frame frame' : Frame α} {below stack : List (Frame α)}
  {pending pending' : Option (List α)} {id : Nat}

/-- A walk that has not begun has no frames. -/
theorem ofChart (p : Parse) : Stacked p (⟨.ofChart p.chart, [], none⟩ : Machine α) where
  size := by simp [Walk.ofChart, Chart.size]
  onPath hmark := by
    obtain ⟨-, rfl⟩ := by simpa [Walk.ofChart, Array.getElem?_replicate] using hmark
    simp [ids]
  nodup := List.nodup_nil
  inOrder _ hmem := nomatch hmem
  below := List.Pairwise.nil

/-- The innermost frame is changed, but belongs to the same state. -/
theorem change (h : Stacked p ⟨walk, frame :: below, pending⟩) (hmarks : walk'.marks = walk.marks)
    (hid : frame'.id = frame.id) (hframe : InOrder p frame') :
    Stacked p ⟨walk', frame' :: below, pending'⟩ := by
  have hids : ids ⟨walk', frame' :: below, pending'⟩ = ids ⟨walk, frame :: below, pending⟩ :=
    congrArg (· :: below.map Frame.id) hid
  refine ⟨?_, fun hmark => ?_, ?_, ?_, ?_⟩
  · rw [hmarks]
    exact h.size
  · rw [hids]
    exact h.onPath (hmarks ▸ hmark)
  · rw [hids]
    exact h.nodup
  · exact List.forall_mem_cons.2 ⟨hframe, (List.forall_mem_cons.1 h.inOrder).2⟩
  · rw [hids]
    exact h.below

/-- The frames stay as they are when nothing but the rest of the walk changes. -/
theorem of_marks_eq (h : Stacked p ⟨walk, stack, pending⟩) (hmarks : walk'.marks = walk.marks) :
    Stacked p ⟨walk', stack, pending'⟩ where
  size := by rw [hmarks]; exact h.size
  onPath hmark := h.onPath (hmarks ▸ hmark)
  nodup := h.nodup
  inOrder := h.inOrder
  below := h.below

/-- The walk comes to a state that lies below those of all frames. -/
theorem enter (hp : p.grammar.Finished tokens p.chart) (h : Stacked p ⟨walk, stack, pending⟩)
    (hbelow : ∀ x ∈ stack.map Frame.id, TransGen p.chart.Child id x) {entry : Entry α}
    (henter : enter e p walk id = .ok (walk', entry)) :
    Stacked p (ofEntry walk' stack entry) := by
  obtain ⟨mark, s, hmark, hs, hentered⟩ := entered_of_enter henter
  cases hentered with
  | known => exact h.of_marks_eq rfl
  | cut => exact h.of_marks_eq rfl
  | start => exact h.of_marks_eq rfl
  | lexeme => exact h.of_marks_eq rfl
  | rule hmemo hpath hproduction hrule hlists =>
    have hnot : id ∉ stack.map Frame.id := fun hmem => by
      rw [(h.onPath hmark).2 hmem] at hpath
      cases hpath
    refine ⟨?_, fun {j mark'} hmark' => ?_, List.nodup_cons.2 ⟨hnot, h.nodup⟩, ?_,
      List.pairwise_cons.2 ⟨hbelow, h.below⟩⟩
    · exact (Walk.size_marks_mark _ _ _).trans h.size
    · change _ ↔ j ∈ id :: stack.map Frame.id
      rcases Walk.mark_cases hmark' with ⟨rfl, old, -, rfl⟩ | ⟨hne, hold⟩
      · simp
      · rw [List.mem_cons, or_iff_right (Ne.symm hne)]
        exact h.onPath hold
    · exact List.forall_mem_cons.2
        ⟨inOrder_frameOf hp walk mark hs hproduction hrule hlists, h.inOrder⟩

/-- The innermost frame is closed. -/
theorem close (h : Stacked p ⟨walk, frame :: below, pending⟩) (hmarks : walk'.marks = walk.marks)
    (hid : frame'.id = frame.id) : Stacked p (close walk' frame' below) := by
  obtain ⟨hnot, hnodup⟩ : frame.id ∉ below.map Frame.id ∧ (below.map Frame.id).Nodup :=
    List.nodup_cons.1 h.nodup
  refine ⟨?_, fun {j mark} hmark => ?_, hnodup, (List.forall_mem_cons.1 h.inOrder).2,
    (List.pairwise_cons.1 h.below).2⟩
  · refine (Walk.size_marks_leave _ _).trans ?_
    rw [hmarks]
    exact h.size
  · change _ ↔ j ∈ below.map Frame.id
    rcases Walk.mark_cases hmark with ⟨heq, old, -, rfl⟩ | ⟨hne, hold⟩
    · rw [hid] at heq
      simpa [← heq] using hnot
    · rw [hmarks] at hold
      rw [hid] at hne
      have hmem := h.onPath hold
      change _ ↔ j ∈ frame.id :: below.map Frame.id at hmem
      rw [hmem, List.mem_cons, or_iff_right (Ne.symm hne)]

/-- The innermost frame goes through lists of its state. -/
theorem head (h : Stacked p ⟨walk, frame :: below, pending⟩) : InOrder p frame :=
  h.inOrder frame List.mem_cons_self

/-- A child of the state of the innermost frame lies below the states of all frames. -/
theorem transGen_of_child (h : Stacked p ⟨walk, frame :: below, pending⟩)
    (hchild : p.chart.Child id frame.id) {x : Nat}
    (hx : x ∈ ids ⟨walk, frame :: below, pending⟩) : TransGen p.chart.Child id x := by
  rcases List.mem_cons.1 hx with rfl | hx
  · exact .single hchild
  · exact .head hchild ((List.pairwise_cons.1 h.below).1 x hx)

/-- One step keeps the frames in this order. -/
theorem goes (hp : p.grammar.Finished tokens p.chart) {m m' : Machine α} {visits : List (Visit α)}
    (h : m.Stacked p) (hgoes : Goes e p firstOnly m visits m') : m'.Stacked p := by
  cases hgoes with
  | take =>
    exact h.change rfl rfl ⟨h.head.rule, h.head.children, h.head.lists, h.head.follows⟩
  | @child walk _ frame below child children _ _ hchildren henter =>
    have hchild : p.chart.Child child frame.id :=
      h.head.children child (by rw [hchildren]; exact List.mem_cons_self)
    have hmoved : Stacked p ⟨walk, { frame with children := children } :: below, none⟩ :=
      h.change rfl rfl (h.head.next hchildren frame.args)
    exact hmoved.enter hp (fun x hx => h.transGen_of_child hchild hx) henter
  | close _ hreduce _ => exact h.close (marks_of_reduceAll hreduce).1 rfl
  | list _ hreduce _ hnext =>
    exact h.change (marks_of_reduceAll hreduce).1 rfl (h.head.list hp hnext _ _)

end Stacked

end Machine

/-! ### States that get a frame -/

/-- The state that gets a frame with an event. -/
def Event.opened? : Event → Option Nat
  | opened id => some id
  | _ => none

namespace Walk

variable {α : Type u}

/-- The states that got a frame, in order. -/
def openings (walk : Walk α) : List Nat :=
  walk.events.toList.filterMap Event.opened?

@[simp] theorem openings_record (walk : Walk α) (event : Event) :
    (walk.record event).openings = walk.openings ++ event.opened?.toList := by
  cases hevent : event.opened? <;> simp [openings, hevent]

@[simp] theorem openings_mark (walk : Walk α) (id : Nat) (change : Mark α → Mark α) :
    (walk.mark id change).openings = walk.openings := by
  simp [openings]

@[simp] theorem openings_leave (walk : Walk α) (frame : Frame α) :
    (walk.leave frame).openings = walk.openings :=
  openings_mark _ _ _

end Walk

namespace Machine

variable {α : Type u} {e : Evaluator α} {p : Parse} {firstOnly : Bool}

/-- What becomes of a state does not matter to what the walk remembers. -/
@[simp] theorem walk_ofEntry (walk : Walk α) (stack : List (Frame α)) (entry : Entry α) :
    (ofEntry walk stack entry).walk = walk := by
  cases entry <;> rfl

theorem openings_of_reduceAll {rule : Rule} {args : List (List α)} {nodes : Array α}
    {walk walk' : Walk α} {result : Except ParseError (Array α)}
    (h : reduceAll e rule args nodes walk = (result, walk')) : walk'.openings = walk.openings := by
  have hrecord (walk : Walk α) (rule : Rule) :
      (walk.record (.reduction rule)).openings = walk.openings := by
    simp [Event.opened?]
  fun_induction reduceAll e rule args nodes walk with
  | case1 => rw [← (Prod.mk.inj h).2]
  | case2 => rw [← (Prod.mk.inj h).2, hrecord]
  | case3 => rw [← (Prod.mk.inj h).2, hrecord]
  | case4 _ _ _ _ _ _ _ _ _ _ ih => rw [ih h, hrecord]

theorem openings_of_enter {walk walk' : Walk α} {id : Nat} {entry : Entry α}
    (h : enter e p walk id = .ok (walk', entry)) :
    walk'.openings = walk.openings ++ (Visit.ofEntry walk id entry).opened?.toList := by
  have hvalues (nodes : List α) : (Visit.ofEntry walk id (.values nodes)).opened? = none := by
    unfold Visit.ofEntry
    dsimp only
    split <;> rfl
  obtain ⟨mark, s, -, -, hentered⟩ := entered_of_enter h
  cases hentered with
  | known => simp [hvalues]
  | cut => rw [Walk.openings_record, hvalues]; rfl
  | start => simp [hvalues]
  | lexeme => rw [Walk.openings_record, hvalues]; rfl
  | rule => rw [Walk.openings_record, Walk.openings_mark]; rfl

/-- A step adds to them what it opens. -/
theorem openings_of_goes {m m' : Machine α} {visits : List (Visit α)}
    (h : Goes e p firstOnly m visits m') :
    m'.walk.openings = m.walk.openings ++ visits.filterMap Visit.opened? := by
  cases h with
  | take => exact (List.append_nil _).symm
  | child _ _ henter =>
    rw [walk_ofEntry, openings_of_enter henter, Visit.filterMap_opened?_singleton]
  | close _ hreduce _ =>
    simp [close, openings_of_reduceAll hreduce, Visit.opened?]
  | list _ hreduce _ _ =>
    simp [openings_of_reduceAll hreduce, Event.opened?]

/-- The last step of a walk opens nothing. -/
theorem openings_of_stops {m : Machine α} {result : Except ParseError (List α)} {walk : Walk α}
    (h : Stops e p firstOnly m result walk) : walk.openings = m.walk.openings := by
  cases h with
  | empty => rfl
  | refused => rfl
  | child => rfl
  | reduce _ hreduce => exact openings_of_reduceAll hreduce
  | lost _ hreduce => exact openings_of_reduceAll hreduce

end Machine

/-! ### Calls -/

namespace Evaluator

variable {α : Type u} {e : Evaluator α} {p : Parse} {firstOnly : Bool} {tokens : List String}
  {visits : List (Visit α)} {roots : List Nat} {m : Machine α}

/-- A call is underway: the visits it has made, the roots that are left, and the walk that is in
progress. A call that is after the first value goes on to another root only if it has found none. -/
inductive Underway (e : Evaluator α) (p : Parse) (firstOnly : Bool) :
    List (Visit α) → List Nat → Machine α → Prop
  /-- Nothing has happened yet. -/
  | start : Underway e p firstOnly [] p.roots ⟨.ofChart p.chart, [], none⟩
  /-- The call comes to its next root. -/
  | root {visits : List (Visit α)} {root : Nat} {roots : List Nat} {walk walk' : Walk α}
    {pending : Option (List α)} {entry : Entry α}
    (h : Underway e p firstOnly visits (root :: roots) ⟨walk, [], pending⟩)
    (hpending : firstOnly = true → pending.getD [] = [])
    (henter : Machine.enter e p walk root = .ok (walk', entry)) :
    Underway e p firstOnly (visits ++ [Visit.ofEntry walk root entry]) roots
      (Machine.ofEntry walk' [] entry)
  /-- The walk goes on. -/
  | step {visits more : List (Visit α)} {roots : List Nat} {m m' : Machine α}
    (h : Underway e p firstOnly visits roots m)
    (hgoes : Machine.Goes e p firstOnly m more m') :
    Underway e p firstOnly (visits ++ more) roots m'

namespace Underway

/-- The frames on the stack fit together at every point of a call. -/
theorem stacked (hp : p.grammar.Finished tokens p.chart)
    (h : e.Underway p firstOnly visits roots m) : m.Stacked p := by
  induction h with
  | start => exact .ofChart p
  | root _ _ henter ih => exact ih.enter hp (fun _ hmem => nomatch hmem) henter
  | step _ hgoes ih => exact ih.goes hp hgoes

/-- The states that got a frame are those of the visits. -/
theorem openings_eq (h : e.Underway p firstOnly visits roots m) :
    m.walk.openings = visits.filterMap Visit.opened? := by
  induction h with
  | start => rfl
  | root _ _ henter ih =>
    rw [Machine.walk_ofEntry, Machine.openings_of_enter henter, List.filterMap_append,
      Visit.filterMap_opened?_singleton, ← ih]
  | step _ hgoes ih => rw [Machine.openings_of_goes hgoes, ih, List.filterMap_append]

/-- A call stays underway until its walk stops. -/
theorem exists_stops (h : e.Underway p firstOnly visits roots m) :
    ∃ visits' m', e.Underway p firstOnly visits' roots m' ∧
      Machine.Stops e p firstOnly m' (Machine.run e p firstOnly m).1
        (Machine.run e p firstOnly m).2 := by
  suffices hwithin : ∀ n (hn : m.room ≤ n), ∃ visits' m', e.Underway p firstOnly visits' roots m' ∧
      Machine.Stops e p firstOnly m' (Machine.runWithin e p firstOnly n m hn).1
        (Machine.runWithin e p firstOnly n m hn).2 from hwithin m.room (Nat.le_refl _)
  intro n hn
  fun_induction Machine.runWithin e p firstOnly n m hn generalizing visits with
  | case1 m hn result walk hstep => exact ⟨visits, m, h, Machine.stops_of_step hstep⟩
  | case2 m hn m' hstep ih =>
    obtain ⟨more, hgoes⟩ := Machine.exists_goes_of_step hstep
    exact ih (h.step hgoes)

/-- The expansion of a root ends at a point of the call. If it has found values, no frame is left,
and the other roots are. -/
theorem exists_expand {root : Nat} {walk walk' : Walk α} {pending : Option (List α)}
    {result : Except ParseError (List α)}
    (h : e.Underway p firstOnly visits (root :: roots) ⟨walk, [], pending⟩)
    (hpending : firstOnly = true → pending.getD [] = [])
    (hexpand : e.expand p firstOnly walk root = (result, walk')) :
    ∃ visits' roots' m', e.Underway p firstOnly visits' roots' m' ∧
      walk'.openings = m'.walk.openings ∧
      ∀ values, result = .ok values → roots' = roots ∧
        ∃ pending', m' = ⟨walk', [], pending'⟩ ∧ pending'.getD [] = values := by
  unfold expand at hexpand
  split at hexpand
  next failure henter =>
    cases hexpand
    exact ⟨_, _, _, h, rfl, fun _ hvalues => nomatch hvalues⟩
  next entered entry henter =>
    obtain ⟨visits', m', hm', hstops⟩ := (h.root hpending henter).exists_stops
    rw [hexpand] at hstops
    refine ⟨_, _, _, hm', Machine.openings_of_stops hstops, fun values hvalues => ⟨rfl, ?_⟩⟩
    cases hvalues
    cases hstops with
    | empty => exact ⟨_, rfl, rfl⟩

/-- The values of some roots are found, or not, at a point of the call. -/
theorem exists_expandAll {walk : Walk α} {pending : Option (List α)}
    (h : e.Underway p false visits roots ⟨walk, [], pending⟩) (found : List α) :
    ∃ visits' roots' m', e.Underway p false visits' roots' m' ∧
      (e.expandAll p roots found walk).2.openings = m'.walk.openings := by
  induction roots generalizing visits walk pending found with
  | nil => exact ⟨_, _, _, h, rfl⟩
  | cons root rest ih =>
    have hexpand := h.exists_expand (fun hfirst => nomatch hfirst) (Prod.eta _).symm
    obtain ⟨visits', roots', m', hm', hopenings, hvalues⟩ := hexpand
    unfold expandAll
    split
    next failure walk' hexpanded =>
      rw [hexpanded] at hopenings
      exact ⟨_, _, _, hm', hopenings⟩
    next values walk' hexpanded =>
      rw [hexpanded] at hopenings hvalues
      obtain ⟨rfl, pending', rfl, -⟩ := hvalues values rfl
      dsimp only
      split
      next => exact ⟨_, _, _, hm', hopenings⟩
      next => exact ih hm' _

/-- So it is with the first value of the first root that has one. -/
theorem exists_expandFirst {walk : Walk α} {pending : Option (List α)}
    (h : e.Underway p true visits roots ⟨walk, [], pending⟩) (hpending : pending.getD [] = []) :
    ∃ visits' roots' m', e.Underway p true visits' roots' m' ∧
      (e.expandFirst p roots walk).2.openings = m'.walk.openings := by
  induction roots generalizing visits walk pending with
  | nil => exact ⟨_, _, _, h, rfl⟩
  | cons root rest ih =>
    have hexpand := h.exists_expand (fun _ => hpending) (Prod.eta _).symm
    obtain ⟨visits', roots', m', hm', hopenings, hvalues⟩ := hexpand
    unfold expandFirst
    split
    next failure walk' hexpanded =>
      rw [hexpanded] at hopenings
      exact ⟨_, _, _, hm', hopenings⟩
    next value others walk' hexpanded =>
      rw [hexpanded] at hopenings
      exact ⟨_, _, _, hm', hopenings⟩
    next walk' hexpanded =>
      rw [hexpanded] at hvalues
      obtain ⟨rfl, pending', rfl, hnone⟩ := hvalues [] rfl
      exact ih hm' hnone

end Underway

/-- An evaluation is over at some point of the call, with the states that have got a frame up to
there. -/
theorem exists_underway_of_evalAll (e : Evaluator α) (p : Parse) :
    ∃ visits roots m, e.Underway p false visits roots m ∧
      (e.evalAll p).events.toList.filterMap Event.opened? = visits.filterMap Visit.opened? := by
  have hstart : e.Underway p false [] p.roots ⟨.ofChart p.chart, [], none⟩ := .start
  obtain ⟨visits, roots, m, hm, hopenings⟩ := hstart.exists_expandAll []
  exact ⟨visits, roots, m, hm, hopenings.trans hm.openings_eq⟩

theorem exists_underway_of_evalFirst (e : Evaluator α) (p : Parse) :
    ∃ visits roots m, e.Underway p true visits roots m ∧
      (e.evalFirst p).events.toList.filterMap Event.opened? = visits.filterMap Visit.opened? := by
  have hstart : e.Underway p true [] p.roots ⟨.ofChart p.chart, [], none⟩ := .start
  obtain ⟨visits, roots, m, hm, hopenings⟩ := hstart.exists_expandFirst rfl
  exact ⟨visits, roots, m, hm, hopenings.trans hm.openings_eq⟩

end Evaluator

end Earley
