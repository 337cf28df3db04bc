import Earley.Proofs.Forest.Entry
/-!
# Walks do not look at values

Where a walk goes depends on the chart and on the limit of the evaluator, and not on the values that
it finds. A function from the values of one evaluator to those of another one that respects words,
rules and limits (`Evaluator.Hom`) thus takes every walk of the one to a walk of the other, step by
step (`Machine.step_map`), and what the one finds to what the other finds
(`Evaluator.Hom.evalAll_eq`, `Evaluator.Hom.evalFirst_eq`). If the other one has a laxer limit, this
is said of walks that succeed.
-/

universe u v w

namespace Earley

variable {α : Type u} {β : Type v}

/-- A function from the values of an evaluator to those of another one that respects what both make
of words and of the rules of a grammar, and under which no limit gets stricter. -/
structure Evaluator.Hom (e : Evaluator α) (e' : Evaluator β) (g : Grammar) (h : α → β) : Prop where
  /-- Words are respected. -/
  leaf : ∀ symbol word, e'.leaf symbol word = h (e.leaf symbol word)
  /-- Rules are respected. -/
  reduce : ∀ rule ∈ g.rules, ∀ args, e'.reduce rule (args.map h) = (e.reduce rule args).map h
  /-- What may be kept by the one may be kept by the other. -/
  check : ∀ n, e.check n = .ok () → e'.check n = .ok ()

/-- An outcome that does not depend on which of two evaluators sets the limit: it is no failure, or
they set the same. -/
def Evaluator.Shares {γ : Type w} (e : Evaluator α) (e' : Evaluator β)
    (result : Except ParseError γ) : Prop :=
  ∀ failure, result = .error failure → e'.maxTrees = e.maxTrees

/-- Only the limit decides how many alternatives may be kept. -/
theorem Evaluator.check_congr {e : Evaluator α} {e' : Evaluator β}
    (hlimit : e'.maxTrees = e.maxTrees) (n : Nat) : e'.check n = e.check n := by
  rw [check, check, hlimit]

/-! ### Walks with other values -/

section

variable (h : α → β)

/-- A mark with other values. -/
def Mark.map (mark : Mark α) : Mark β where
  onPath := mark.onPath
  visited := mark.visited
  memo := mark.memo.map (List.map h)

/-- A walk with other values. -/
def Walk.map (walk : Walk α) : Walk β where
  marks := walk.marks.map (Mark.map h)
  cuts := walk.cuts
  events := walk.events

/-- A frame with other values. -/
def Frame.map (frame : Frame α) : Frame β where
  id := frame.id
  rule := frame.rule
  lists := frame.lists
  children := frame.children
  args := frame.args.map (List.map h)
  nodes := frame.nodes.map h
  cuts := frame.cuts
  repeated := frame.repeated

/-- What becomes of a state, with other values. -/
def Entry.map : Entry α → Entry β
  | .values nodes => .values (nodes.map h)
  | .frame opened => .frame (opened.map h)

/-- A walk in progress with other values. -/
def Machine.map (m : Machine α) : Machine β where
  walk := m.walk.map h
  stack := m.stack.map (Frame.map h)
  pending := m.pending.map (List.map h)

/-- What a step leads to, with other values. -/
def Step.map : Step α → Step β
  | .next m => .next (m.map h)
  | .done result walk => .done (result.map (List.map h)) (walk.map h)

end

namespace Walk

variable {h : α → β}

theorem map_mark {walk : Walk α} {id : Nat} {change : Mark α → Mark α} {change' : Mark β → Mark β}
    (hchange : ∀ mark, (change mark).map h = change' (mark.map h)) :
    (walk.mark id change).map h = (walk.map h).mark id change' := by
  unfold mark
  by_cases hid : id < walk.marks.size
  · have hid' : id < (walk.map h).marks.size := by simpa [Walk.map] using hid
    rw [dif_pos hid, dif_pos hid']
    simp [Walk.map, Array.map_set, hchange]
  · have hid' : ¬ id < (walk.map h).marks.size := by simpa [Walk.map] using hid
    rw [dif_neg hid, dif_neg hid']

theorem map_leave (walk : Walk α) (frame : Frame α) :
    (walk.leave frame).map h = (walk.map h).leave (frame.map h) := by
  refine map_mark fun mark => ?_
  simp only [Mark.map, Frame.map, Walk.map, Array.toList_map]
  split <;> rfl

/-- A walk that has not begun has no values. -/
theorem map_ofChart (c : Chart) : (Walk.ofChart c : Walk α).map h = Walk.ofChart c := by
  simp [Walk.map, Walk.ofChart, Mark.map]

end Walk

namespace Machine

variable {e : Evaluator α} {e' : Evaluator β} {p : Parse} {firstOnly : Bool} {h : α → β}

/-! ### The parts of a step -/

/-- Which case a walk comes to does not depend on values. -/
theorem enter_map (hh : e.Hom e' p.grammar h) (walk : Walk α) (id : Nat) :
    enter e' p (walk.map h) id =
      (enter e p walk id).map (Prod.map (Walk.map h) (Entry.map h)) := by
  have hmark : (walk.map h).marks[id]? = (walk.marks[id]?).map (Mark.map h) := by
    simp [Walk.map]
  unfold enter
  rw [hmark]
  cases walk.marks[id]? with
  | none => rfl
  | some mark =>
    obtain ⟨onPath, visited, memo⟩ := mark
    cases p.chart.states[id]? with
    | none => rfl
    | some s =>
      dsimp only [Option.map_some, Mark.map]
      cases memo with
      | some nodes => rfl
      | none =>
        cases onPath with
        | true => rfl
        | false =>
          simp only [Option.map_none, Bool.false_eq_true, ↓reduceIte]
          cases s.production with
          | start => rfl
          | lexeme symbol =>
            cases p.chart.tokens[s.origin]? with
            | none => rfl
            | some word =>
              dsimp only
              rw [hh.leaf]
              rfl
          | rule position =>
            dsimp only
            cases p.grammar.rules[position]? with
            | none => rfl
            | some rule =>
              cases p.chart.backpointers? id with
              | none => rfl
              | some lists =>
                have hopened : (walk.mark id fun mark =>
                    { mark with onPath := true, visited := true }).map h =
                      (walk.map h).mark id fun mark =>
                        { mark with onPath := true, visited := true } :=
                  Walk.map_mark fun _ => rfl
                simp only [← hopened, Except.map, Prod.map, Entry.map, Frame.map, List.map_nil,
                  Array.map_empty]
                rfl

theorem extend_map (args : List (List α)) (values : List α) :
    extend firstOnly (args.map (List.map h)) (values.map h) =
      (extend firstOnly args values).map (List.map h) := by
  have hall : ((args.map (List.map h)).flatMap fun list =>
      (values.map h).map fun value => list ++ [value]) =
        (args.flatMap fun list => values.map fun value => list ++ [value]).map (List.map h) := by
    simp [List.flatMap_map, List.map_flatMap, Function.comp_def]
  unfold extend
  rw [hall]
  split
  next => exact List.map_take.symm
  next => rfl

/-- Reductions come to values that the function takes to one another. -/
theorem reduceAll_map (hh : e.Hom e' p.grammar h) {rule : Rule} (hrule : rule ∈ p.grammar.rules)
    (args : List (List α)) (nodes : Array α) (walk : Walk α)
    (hshares : e.Shares e' (reduceAll e rule args nodes walk).1) :
    reduceAll e' rule (args.map (List.map h)) (nodes.map h) (walk.map h) =
      Prod.map (Except.map (Array.map h)) (Walk.map h) (reduceAll e rule args nodes walk) := by
  fun_induction reduceAll e rule args nodes walk with
  | case1 => rfl
  | case2 args rest nodes walk walk' failure hfailure =>
    rw [List.map_cons, reduceAll, hh.reduce rule hrule, hfailure]
    rfl
  | case3 args rest nodes walk walk' node hnode nodes' failure hcheck =>
    have hcheck' : e'.check ((nodes.map h).push (h node)).size = .error failure := by
      rw [Evaluator.check_congr (hshares failure rfl), ← hcheck]
      simp [nodes']
    rw [List.map_cons, reduceAll, hh.reduce rule hrule, hnode]
    simp only [Except.map, hcheck']
    rfl
  | case4 args rest nodes walk walk' node hnode nodes' _ hcheck ih =>
    have hcheck' : e'.check ((nodes.map h).push (h node)).size = .ok () := by
      rw [← hh.check _ hcheck]
      simp [nodes']
    rw [List.map_cons, reduceAll, hh.reduce rule hrule, hnode]
    simp only [Except.map, hcheck']
    rw [← Array.map_push]
    exact ih hshares

/-! ### Steps -/

theorem close_map (walk : Walk α) (frame : Frame α) (below : List (Frame α)) :
    close (walk.map h) (frame.map h) (below.map (Frame.map h)) =
      (close walk frame below).map h := by
  simp [close, Machine.map, Walk.map_leave, Frame.map]

theorem advance_map (walk : Walk α) (frame : Frame α) (below : List (Frame α)) :
    advance p firstOnly (walk.map h) (frame.map h) (below.map (Frame.map h)) =
      (advance p firstOnly walk frame below).map h := by
  have hsize : (frame.map h).nodes.size = frame.nodes.size := by simp [Frame.map]
  have hlists : (frame.map h).lists = frame.lists := rfl
  unfold advance
  rw [hsize, hlists]
  by_cases hlast : firstOnly = true ∧ frame.nodes.size ≠ 0
  · rw [if_pos hlast, if_pos hlast, close_map]
    rfl
  · rw [if_neg hlast, if_neg hlast]
    cases frame.lists.next? p.chart with
    | none => rfl
    | some found =>
      cases found with
      | none =>
        dsimp only
        rw [close_map]
        rfl
      | some found => rfl

/-- The step of a frame that takes the values that are pending. -/
theorem step_of_pending {walk : Walk α} {frame : Frame α} {below : List (Frame α)}
    {values : List α} :
    step e p firstOnly ⟨walk, frame :: below, some values⟩ =
      match e.check (extend firstOnly frame.args values).length with
      | .error failure => .done (.error failure) walk
      | .ok _ =>
        .next ⟨walk, { frame with args := extend firstOnly frame.args values } :: below, none⟩ :=
  rfl

/-- The step of a frame that has come to its next child. -/
theorem step_of_child {walk : Walk α} {frame : Frame α} {below : List (Frame α)} {child : Nat}
    {children : List Nat} (hargs : frame.args ≠ [])
    (hchildren : frame.children = child :: children) :
    step e p firstOnly ⟨walk, frame :: below, none⟩ =
      match enter e p walk child with
      | .error failure => .done (.error failure) walk
      | .ok (walk, entry) =>
        .next (ofEntry walk ({ frame with children := children } :: below) entry) := by
  obtain ⟨id, rule, lists, pending, args, nodes, cuts, repeated⟩ := frame
  obtain ⟨first, others, rfl⟩ := List.exists_cons_of_ne_nil hargs
  obtain rfl : pending = child :: children := hchildren
  rfl

/-- The step of a frame that is finished with its list. -/
theorem step_of_done {walk : Walk α} {frame : Frame α} {below : List (Frame α)}
    (hdone : frame.args = [] ∨ frame.children = []) :
    step e p firstOnly ⟨walk, frame :: below, none⟩ =
      match reduceAll e frame.rule frame.args frame.nodes walk with
      | (.error failure, walk) => .done (.error failure) walk
      | (.ok nodes, walk) =>
        advance p firstOnly walk { frame with args := [], nodes := nodes } below := by
  obtain ⟨id, rule, lists, children, args, nodes, cuts, repeated⟩ := frame
  obtain (rfl : args = []) | (rfl : children = []) := hdone
  · rfl
  · cases args <;> rfl

/-- All rules that a walk is about are in the grammar. -/
def InGrammar (p : Parse) (m : Machine α) : Prop :=
  ∀ frame ∈ m.stack, frame.rule ∈ p.grammar.rules

/-- The rules of frames come from the grammar. -/
theorem inGrammar_of_step {m m' : Machine α} (hm : m.InGrammar p)
    (hstep : step e p firstOnly m = .next m') : m'.InGrammar p := by
  obtain ⟨visits, hgoes⟩ := exists_goes_of_step hstep
  cases hgoes with
  | take => exact List.forall_mem_cons.2 (List.forall_mem_cons.1 hm)
  | @child _ walk' frame below child children entry _ _ henter =>
    have hstack : ∀ other ∈ { frame with children := children } :: below,
        other.rule ∈ p.grammar.rules := List.forall_mem_cons.2 (List.forall_mem_cons.1 hm)
    obtain ⟨mark, s, -, -, hentered⟩ := entered_of_enter henter
    cases hentered with
    | known => exact hstack
    | cut => exact hstack
    | start => exact hstack
    | lexeme => exact hstack
    | rule _ _ _ hposition =>
      exact List.forall_mem_cons.2 ⟨Array.mem_of_getElem? hposition, hstack⟩
  | close => exact (List.forall_mem_cons.1 hm).2
  | list => exact List.forall_mem_cons.2 (List.forall_mem_cons.1 hm)

/-- A step takes a walk with other values to what it would lead to with other values. -/
theorem step_map (hh : e.Hom e' p.grammar h) {m : Machine α} (hm : m.InGrammar p)
    (hshares : ∀ failure walk, step e p firstOnly m = .done (.error failure) walk →
      e'.maxTrees = e.maxTrees) :
    step e' p firstOnly (m.map h) = (step e p firstOnly m).map h := by
  obtain ⟨walk, stack, pending⟩ := m
  cases stack with
  | nil => cases pending <;> rfl
  | cons frame below =>
    cases pending with
    | some values =>
      have hextend : extend firstOnly (frame.map h).args (values.map h) =
          (extend firstOnly frame.args values).map (List.map h) := extend_map frame.args values
      change step e' p firstOnly
        ⟨walk.map h, frame.map h :: below.map (Frame.map h), some (values.map h)⟩ = _
      rw [step_of_pending] at hshares ⊢
      rw [step_of_pending, hextend, List.length_map]
      cases hcheck : e.check (extend firstOnly frame.args values).length with
      | ok _ =>
        rw [hh.check _ hcheck]
        rfl
      | error failure =>
        rw [hcheck] at hshares
        rw [Evaluator.check_congr (hshares failure walk rfl), hcheck]
        rfl
    | none =>
      change step e' p firstOnly ⟨walk.map h, frame.map h :: below.map (Frame.map h), none⟩ = _
      by_cases hdone : frame.args = [] ∨ frame.children = []
      · have hdone' : (frame.map h).args = [] ∨ (frame.map h).children = [] :=
          hdone.imp_left List.map_eq_nil_iff.2
        rw [step_of_done hdone] at hshares ⊢
        have hreduce : reduceAll e' (frame.map h).rule (frame.map h).args (frame.map h).nodes
            (walk.map h) = Prod.map (Except.map (Array.map h)) (Walk.map h)
              (reduceAll e frame.rule frame.args frame.nodes walk) := by
          refine reduceAll_map hh (hm frame List.mem_cons_self) _ _ _ fun failure hfailure => ?_
          refine hshares failure (reduceAll e frame.rule frame.args frame.nodes walk).2 ?_
          rw [← Prod.eta (reduceAll e frame.rule frame.args frame.nodes walk), hfailure]
        rw [step_of_done hdone', hreduce]
        cases reduceAll e frame.rule frame.args frame.nodes walk with
        | mk result walk' =>
          cases result with
          | error failure => rfl
          | ok nodes => exact advance_map walk' { frame with args := [], nodes := nodes } below
      · obtain ⟨hargs, hchildren⟩ := not_or.1 hdone
        obtain ⟨child, children, hcons⟩ := List.exists_cons_of_ne_nil hchildren
        have hargs' : (frame.map h).args ≠ [] := fun hnil => hargs (List.map_eq_nil_iff.1 hnil)
        rw [step_of_child hargs hcons, step_of_child hargs' hcons, enter_map hh]
        cases enter e p walk child with
        | error failure => rfl
        | ok found =>
          obtain ⟨walk', entry⟩ := found
          cases entry <;> rfl

/-! ### Whole walks -/

/-- A walk with other values comes to what it would come to with other values. -/
theorem run_map (hh : e.Hom e' p.grammar h) {m : Machine α} (hm : m.InGrammar p)
    (hshares : e.Shares e' (run e p firstOnly m).1) :
    run e' p firstOnly (m.map h) =
      Prod.map (Except.map (List.map h)) (Walk.map h) (run e p firstOnly m) := by
  suffices hwithin : ∀ n (hn : m.room ≤ n), e.Shares e' (runWithin e p firstOnly n m hn).1 →
      run e' p firstOnly (m.map h) =
        Prod.map (Except.map (List.map h)) (Walk.map h) (runWithin e p firstOnly n m hn) from
    hwithin m.room (Nat.le_refl _) hshares
  clear hshares
  intro n hn hshares
  fun_induction runWithin e p firstOnly n m hn with
  | case1 m hn result walk hstep =>
    have hdone : step e' p firstOnly (m.map h) = (Step.done result walk).map h := by
      rw [step_map hh hm fun failure walk' hfailed => ?_, hstep]
      rw [hstep] at hfailed
      cases hfailed
      exact hshares failure rfl
    exact run_of_step_eq_done e' p firstOnly hdone
  | case2 m hn m' hstep ih =>
    have hnext : step e' p firstOnly (m.map h) = (Step.next m').map h := by
      rw [step_map hh hm fun failure walk' hfailed => ?_, hstep]
      rw [hstep] at hfailed
      cases hfailed
    rw [run_of_step_eq_next e' p firstOnly hnext]
    exact ih (inGrammar_of_step hm hstep) hshares

end Machine

namespace Evaluator.Hom

open Machine

variable {e : Evaluator α} {e' : Evaluator β} {p : Parse} {h : α → β}

/-- So does the expansion of a state. -/
theorem expand_map (hh : e.Hom e' p.grammar h) (firstOnly : Bool) (walk : Walk α) (id : Nat)
    (hshares : e.Shares e' (e.expand p firstOnly walk id).1) :
    e'.expand p firstOnly (walk.map h) id =
      Prod.map (Except.map (List.map h)) (Walk.map h) (e.expand p firstOnly walk id) := by
  unfold expand at hshares ⊢
  rw [enter_map hh]
  cases henter : enter e p walk id with
  | error failure => rfl
  | ok found =>
    obtain ⟨walk', entry⟩ := found
    rw [henter] at hshares
    obtain ⟨mark, s, -, -, hentered⟩ := entered_of_enter henter
    have hgrammar : (ofEntry walk' [] entry).InGrammar p := by
      cases hentered with
      | rule _ _ _ hposition => exact List.forall_mem_singleton.2 (Array.mem_of_getElem? hposition)
      | _ => exact fun _ hmem => nomatch hmem
    have hrun := run_map hh hgrammar hshares
    cases entry <;> exact hrun

/-- The values of all roots are taken to one another. -/
theorem expandAll_map (hh : e.Hom e' p.grammar h) (roots : List Nat) (found : List α)
    (walk : Walk α) (hshares : e.Shares e' (e.expandAll p roots found walk).1) :
    e'.expandAll p roots (found.map h) (walk.map h) =
      Prod.map (Except.map (List.map h)) (Walk.map h) (e.expandAll p roots found walk) := by
  induction roots generalizing found walk with
  | nil => rfl
  | cons root rest ih =>
    unfold expandAll at hshares ⊢
    have hexpand := hh.expand_map false walk root
    cases hresult : e.expand p false walk root with
    | mk result walk' =>
      rw [hresult] at hshares hexpand
      cases result with
      | error failure =>
        rw [hexpand hshares]
        rfl
      | ok values =>
        rw [hexpand fun _ hfailure => nomatch hfailure]
        dsimp only [Prod.map, Except.map] at hshares ⊢
        rw [← List.map_append, List.length_map]
        cases hcheck : e.check (found ++ values).length with
        | error failure =>
          rw [hcheck] at hshares
          rw [check_congr (hshares failure rfl), hcheck]
        | ok _ =>
          rw [hcheck] at hshares
          rw [hh.check _ hcheck]
          exact ih _ _ hshares

/-- So is the first value of the first root that has one. -/
theorem expandFirst_map (hh : e.Hom e' p.grammar h) (roots : List Nat) (walk : Walk α)
    (hshares : e.Shares e' (e.expandFirst p roots walk).1) :
    e'.expandFirst p roots (walk.map h) =
      Prod.map (Except.map (Option.map h)) (Walk.map h) (e.expandFirst p roots walk) := by
  induction roots generalizing walk with
  | nil => rfl
  | cons root rest ih =>
    unfold expandFirst at hshares ⊢
    have hexpand := hh.expand_map true walk root
    cases hresult : e.expand p true walk root with
    | mk result walk' =>
      rw [hresult] at hshares hexpand
      cases result with
      | error failure =>
        rw [hexpand fun _ _ => hshares failure rfl]
        rfl
      | ok values =>
        rw [hexpand fun _ hfailure => nomatch hfailure]
        cases values with
        | nil => exact ih _ hshares
        | cons value others => rfl

/-- What is found in all derivations is taken to one another, by walks to which the same happens,
unless there is a failure and the limits are different. -/
theorem evalAll_eq (hh : e.Hom e' p.grammar h) (hshares : e.Shares e' (e.evalAll p).result) :
    (e'.evalAll p).result = (e.evalAll p).result.map (List.map h) ∧
      (e'.evalAll p).events = (e.evalAll p).events := by
  have hexpand := hh.expandAll_map p.roots [] (.ofChart p.chart) hshares
  rw [Walk.map_ofChart, List.map_nil] at hexpand
  unfold evalAll
  rw [hexpand]
  exact ⟨rfl, rfl⟩

/-- So is what is found in the first derivation. -/
theorem evalFirst_eq (hh : e.Hom e' p.grammar h) (hshares : e.Shares e' (e.evalFirst p).result) :
    (e'.evalFirst p).result = (e.evalFirst p).result.map (Option.map h) ∧
      (e'.evalFirst p).events = (e.evalFirst p).events := by
  have hexpand := hh.expandFirst_map p.roots (.ofChart p.chart) hshares
  rw [Walk.map_ofChart] at hexpand
  unfold evalFirst
  rw [hexpand]
  exact ⟨rfl, rfl⟩

end Evaluator.Hom

end Earley
