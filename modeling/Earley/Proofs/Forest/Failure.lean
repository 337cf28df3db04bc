import Earley.Proofs.Forest.Entry
import Earley.Proofs.Parse.Lists
/-!
# What can go wrong on a walk

A walk over the finished chart of a parse never looks up anything that is not there. It fails only
if more alternatives were to be kept than the evaluator allows, or if a rule has no action, and
then a state of this rule was met (`Evaluator.Fails`).
-/

universe u

namespace Earley

/-- A reason why the values of a state may not be found. -/
def Evaluator.Fails {α : Type u} (e : Evaluator α) (p : Parse) (id : Nat) (failure : ParseError) :
    Prop :=
  (∃ limit, e.maxTrees = some limit ∧ failure = .treeBudget limit) ∨
    ∃ (id' : Nat) (s : State) (position : Nat) (rule : Rule),
      Relation.ReflTransGen p.chart.Child id' id ∧ p.chart.states[id']? = some s ∧
        s.production = .rule position ∧ p.grammar.rules[position]? = some rule ∧
        e.action? rule = none ∧ failure = .missingAction rule.text

namespace Evaluator

variable {α : Type u} {e : Evaluator α} {p : Parse}

/-- What goes wrong with a child goes wrong with the state. -/
theorem Fails.of_child {child id : Nat} {failure : ParseError} (h : e.Fails p child failure)
    (hchild : p.chart.Child child id) : e.Fails p id failure := by
  rcases h with hlimit | ⟨id', s, position, rule, hreach, hrest⟩
  · exact .inl hlimit
  · exact .inr ⟨id', s, position, rule, hreach.tail hchild, hrest⟩

/-- Too many alternatives are the fault of the limit. -/
theorem fails_of_check {id n : Nat} {failure : ParseError} (h : e.check n = .error failure) :
    e.Fails p id failure := by
  unfold check at h
  split at h
  next => cases h
  next limit hlimit =>
    split at h
    next => cases h; exact .inl ⟨limit, hlimit, rfl⟩
    next => cases h

end Evaluator

namespace Machine

variable {α : Type u} {e : Evaluator α} {p : Parse} {firstOnly : Bool} {tokens : List String}

/-- A frame belongs to the state of a rule, and goes through lists of this state. -/
structure InOrder (p : Parse) (frame : Frame α) : Prop where
  /-- The state and its rule. -/
  rule : ∃ s position, p.chart.states[frame.id]? = some s ∧ s.production = .rule position ∧
    p.grammar.rules[position]? = some frame.rule
  /-- The children are children of the state. -/
  children : ∀ child ∈ frame.children, p.chart.Child child frame.id
  /-- The lists that remain are lists of the state. -/
  lists : ∀ list ∈ frame.lists.remaining p.chart, list ∈ p.chart.lists frame.id
  /-- The back-pointers follow a way back from the state. -/
  follows : frame.lists.Follows p.chart frame.id

namespace InOrder

variable {frame : Frame α}

/-- A frame remains in order when it has come to its next child. -/
theorem next (h : InOrder p frame) {child : Nat} {children : List Nat}
    (hchildren : frame.children = child :: children) (args : List (List α)) :
    InOrder p { frame with children := children, args := args } where
  rule := h.rule
  children other hother := h.children other (by rw [hchildren]; exact List.mem_cons_of_mem _ hother)
  lists := h.lists
  follows := h.follows

/-- A frame remains in order when it takes up its next list. -/
theorem list (hp : p.grammar.Finished tokens p.chart) (h : InOrder p frame) {children : List Nat}
    {lists : Backpointers} (hnext : frame.lists.next? p.chart = some (some (children, lists)))
    (args : List (List α)) (nodes : Array α) :
    InOrder p
      { frame with lists := lists, children := children, args := args, nodes := nodes } := by
  have hremaining := Backpointers.remaining_of_next?_eq_some p.layered hnext
  refine ⟨h.rule, fun child hchild => ⟨children, ?_, hchild⟩, fun list hlist => ?_, ?_⟩
  · refine h.lists children ?_
    rw [hremaining]
    exact List.mem_cons_self
  · refine h.lists list ?_
    rw [hremaining]
    exact List.mem_cons_of_mem _ hlist
  · obtain ⟨next, hsome, hfollows⟩ := Chart.exists_next? hp.reachable.layered h.follows
    obtain rfl : next = some (children, lists) := Option.some.inj (hsome.symm.trans hnext)
    exact hfollows children lists rfl

end InOrder

/-- The frame that a state gets is in order. -/
theorem inOrder_frameOf (hp : p.grammar.Finished tokens p.chart) (walk : Walk α) (mark : Mark α)
    {id position : Nat} {s : State} {rule : Rule} {lists : Backpointers}
    (hs : p.chart.states[id]? = some s) (hproduction : s.production = .rule position)
    (hrule : p.grammar.rules[position]? = some rule)
    (hlists : p.chart.backpointers? id = some lists) :
    InOrder p (frameOf walk id rule lists mark) := by
  refine ⟨⟨s, position, hs, hproduction, hrule⟩, ?_, ?_, ?_⟩
  · exact fun _ hmem => nomatch hmem
  · intro list hmem
    have hremaining := Backpointers.remaining_of_backpointers? p.layered hlists
    exact hremaining ▸ hmem
  · obtain ⟨b, hb, hfollows⟩ := Chart.exists_backpointers? hp.reachable.layered hs
    obtain rfl : b = lists := Option.some.inj (hb.symm.trans hlists)
    exact hfollows

/-- A task that can be performed: it is about a state of the chart, or a frame in order. -/
def Task.InOrder (p : Parse) : Task α → Prop
  | .state id => ∃ s, p.chart.states[id]? = some s
  | .frame opened => Machine.InOrder p opened

/-- The number of marks stays the same. -/
theorem size_marks_of_performs {walk walk' : Walk α} {task : Task α}
    {result : Except ParseError (List α)} (h : Performs e p firstOnly walk task result walk') :
    walk'.marks.size = walk.marks.size := by
  have hentry {walk walk' : Walk α} {id : Nat} {entry : Entry α}
      (henter : enter e p walk id = .ok (walk', entry)) : walk'.marks.size = walk.marks.size := by
    obtain ⟨mark, s, -, -, hentered⟩ := entered_of_enter henter
    cases hentered <;> simp
  induction h with
  | entered henter => exact hentry henter
  | refused => rfl
  | opened henter _ ih => rw [Walk.size_marks_leave, ih, hentry henter]
  | broken henter _ ih => rw [ih, hentry henter]
  | child _ _ _ _ _ ihchild ihrest => rw [ihrest, ihchild]
  | childFailed _ _ _ ih => exact ih
  | childRefused _ _ _ _ ih => exact ih
  | reduceFailed _ hreduce => rw [(marks_of_reduceAll hreduce).1]
  | closed _ hreduce => rw [(marks_of_reduceAll hreduce).1]
  | lost _ hreduce => rw [(marks_of_reduceAll hreduce).1]
  | list _ hreduce _ _ _ ih => rw [ih, Walk.marks_record, (marks_of_reduceAll hreduce).1]

/-- The walk comes to every state that there is. -/
theorem exists_enter (hp : p.grammar.Finished tokens p.chart) {walk : Walk α} {id : Nat} {s : State}
    (hsize : walk.marks.size = p.chart.size) (hs : p.chart.states[id]? = some s) :
    ∃ entered, enter e p walk id = .ok entered := by
  have hlt : id < walk.marks.size := by
    rw [hsize]
    exact (Array.getElem?_eq_some_iff.1 hs).1
  obtain ⟨phrase, hsound⟩ := hp.sound hs
  have hphrase := hsound.phrase_eq
  unfold enter
  rw [Array.getElem?_eq_getElem hlt, hs]
  dsimp only
  split
  next => exact ⟨_, rfl⟩
  next =>
    split
    next => exact ⟨_, rfl⟩
    next =>
      split
      next => exact ⟨_, rfl⟩
      next symbol hproduction =>
        obtain ⟨name, word, -, -, hword, -⟩ := hsound.exists_word hproduction
        have hword' : p.chart.tokens[s.origin]? = some word := by
          rw [hp.reachable.tokens_eq, List.getElem?_toArray, hword]
        rw [hword']
        exact ⟨_, rfl⟩
      next position hproduction =>
        rw [hproduction] at hphrase
        obtain ⟨rule, hrule, -⟩ := Option.map_eq_some_iff.1 hphrase
        obtain ⟨lists, hlists, -⟩ := Chart.exists_backpointers? hp.reachable.layered hs
        rw [hrule, hlists]
        exact ⟨_, rfl⟩

/-- Combinations cannot be reduced only if the rule has no action or there are too many values. -/
theorem fails_of_reduceAll {frame : Frame α} (h : InOrder p frame) {args : List (List α)}
    {nodes : Array α} {walk walk' : Walk α} {failure : ParseError}
    (hreduce : reduceAll e frame.rule args nodes walk = (.error failure, walk')) :
    e.Fails p frame.id failure := by
  generalize hrule : frame.rule = rule at hreduce
  fun_induction reduceAll e rule args nodes walk with
  | case1 => cases hreduce
  | case2 args rest nodes walk walk'' failure' hfailure =>
    cases (Prod.mk.inj hreduce).1
    obtain ⟨s, position, hs, hproduction, hposition⟩ := h.rule
    rw [hrule] at hposition
    refine .inr ⟨frame.id, s, position, rule, .refl, hs, hproduction, hposition, ?_⟩
    unfold Evaluator.reduce at hfailure
    split at hfailure
    next hnone => cases hfailure; exact ⟨hnone, rfl⟩
    next => cases hfailure
  | case3 args rest nodes walk walk'' node hnode nodes'' failure' hcheck =>
    cases (Prod.mk.inj hreduce).1
    exact Evaluator.fails_of_check hcheck
  | case4 args rest nodes walk walk'' node hnode nodes'' _ hcheck ih => exact ih hreduce

/-- The children of a frame are states. -/
theorem InOrder.exists_child (hp : p.grammar.Finished tokens p.chart) {frame : Frame α}
    (h : InOrder p frame) {child : Nat} (hchild : child ∈ frame.children) :
    ∃ s, p.chart.states[child]? = some s := by
  obtain ⟨s, position, hs, hproduction, -⟩ := h.rule
  obtain ⟨symbol, i, k, t, ht, -⟩ := hp.matches_of_child hs hproduction (h.children child hchild)
  exact ⟨t, ht⟩

/-- A task fails only if a limit on alternatives is exceeded or an action is missing. -/
theorem fails_of_performs (hp : p.grammar.Finished tokens p.chart) {walk walk' : Walk α}
    {task : Task α} {result : Except ParseError (List α)}
    (h : Performs e p firstOnly walk task result walk') {failure : ParseError}
    (hresult : result = .error failure) (hsize : walk.marks.size = p.chart.size)
    (htask : task.InOrder p) : e.Fails p task.id failure := by
  induction h generalizing failure with
  | entered => cases hresult
  | opened => cases hresult
  | closed => cases hresult
  | refused henter =>
    obtain ⟨s, hs⟩ := htask
    have hexists := exists_enter (e := e) hp hsize hs
    obtain ⟨entered, hentered⟩ := hexists
    rw [hentered] at henter
    cases henter
  | broken henter hframe ih =>
    obtain ⟨mark, s, hmark, hs, hentered⟩ := entered_of_enter henter
    cases hentered with
    | rule _ _ hproduction hrule hlists =>
      exact ih hresult (by simpa using hsize)
        (inOrder_frameOf hp _ mark hs hproduction hrule hlists)
  | child _ hchildren hchild _ _ _ ihrest =>
    exact ihrest hresult ((size_marks_of_performs hchild).trans hsize)
      (InOrder.next htask hchildren _)
  | @childFailed _ _ frame child children _ _ hchildren _ ih =>
    have hmem : child ∈ frame.children := by rw [hchildren]; exact List.mem_cons_self
    exact (ih hresult hsize (InOrder.exists_child hp htask hmem)).of_child
      (InOrder.children htask child hmem)
  | childRefused _ _ _ hcheck =>
    cases hresult
    exact Evaluator.fails_of_check hcheck
  | reduceFailed _ hreduce =>
    cases hresult
    exact fails_of_reduceAll htask hreduce
  | lost _ _ _ hnext =>
    obtain ⟨next, hsome, -⟩ := Chart.exists_next? hp.reachable.layered (InOrder.follows htask)
    rw [hnext] at hsome
    cases hsome
  | list _ hreduce _ hnext _ ih =>
    refine ih hresult ?_ (InOrder.list hp htask hnext _ _)
    rw [Walk.marks_record, (marks_of_reduceAll hreduce).1, hsize]

end Machine

namespace Evaluator

variable {α : Type u} {e : Evaluator α} {p : Parse} {tokens : List String}

/-- The reason is a limit on alternatives, or a rule of the grammar without an action. -/
theorem Fails.cases {id : Nat} {failure : ParseError} (h : e.Fails p id failure) :
    (∃ limit, e.maxTrees = some limit ∧ failure = .treeBudget limit) ∨
      ∃ rule ∈ p.grammar.rules, e.action? rule = none ∧ failure = .missingAction rule.text := by
  rcases h with hlimit | ⟨_, _, _, rule, -, -, -, hrule, hnone, hfailure⟩
  · exact .inl hlimit
  · exact .inr ⟨rule, Array.mem_of_getElem? hrule, hnone, hfailure⟩

/-- With an action for every rule, only a limit on alternatives can be the reason. -/
theorem Fails.treeBudget (hcovers : e.Covers p.grammar) {id : Nat} {failure : ParseError}
    (h : e.Fails p id failure) :
    ∃ limit, e.maxTrees = some limit ∧ failure = .treeBudget limit := by
  rcases h.cases with hlimit | ⟨rule, hrule, hnone, -⟩
  · exact hlimit
  · have hsome := hcovers rule hrule
    rw [hnone] at hsome
    cases hsome

/-- If the values of some roots are not found, then something is wrong with one of them. -/
theorem fails_of_expandAll (hp : p.grammar.Finished tokens p.chart) {roots : List Nat}
    {found : List α} {walk walk' : Walk α} {failure : ParseError}
    (h : e.expandAll p roots found walk = (.error failure, walk'))
    (hsize : walk.marks.size = p.chart.size)
    (hroots : ∀ root ∈ roots, ∃ symbol i k, p.grammar.Matches p.chart root symbol i k) :
    ∃ root ∈ roots, e.Fails p root failure := by
  induction roots generalizing found walk with
  | nil => cases h
  | cons root rest ih =>
    unfold expandAll at h
    split at h
    next failure' after hexpand =>
      cases h
      obtain ⟨symbol, i, k, s, hs, -⟩ := hroots root List.mem_cons_self
      exact ⟨root, List.mem_cons_self,
        Machine.fails_of_performs hp (performs_of_expand hexpand) rfl hsize ⟨s, hs⟩⟩
    next values after hexpand =>
      dsimp only at h
      split at h
      next failure' hcheck =>
        cases h
        exact ⟨root, List.mem_cons_self, fails_of_check hcheck⟩
      next =>
        obtain ⟨other, hother, hfails⟩ :=
          ih h ((Machine.size_marks_of_performs (performs_of_expand hexpand)).trans hsize)
            fun other hother => hroots other (List.mem_cons_of_mem _ hother)
        exact ⟨other, List.mem_cons_of_mem _ hother, hfails⟩

/-- So it is with the first value of the first root that has one. -/
theorem fails_of_expandFirst (hp : p.grammar.Finished tokens p.chart) {roots : List Nat}
    {walk walk' : Walk α} {failure : ParseError}
    (h : e.expandFirst p roots walk = (.error failure, walk'))
    (hsize : walk.marks.size = p.chart.size)
    (hroots : ∀ root ∈ roots, ∃ symbol i k, p.grammar.Matches p.chart root symbol i k) :
    ∃ root ∈ roots, e.Fails p root failure := by
  induction roots generalizing walk with
  | nil => cases h
  | cons root rest ih =>
    unfold expandFirst at h
    split at h
    next failure' after hexpand =>
      cases h
      obtain ⟨symbol, i, k, s, hs, -⟩ := hroots root List.mem_cons_self
      exact ⟨root, List.mem_cons_self,
        Machine.fails_of_performs hp (performs_of_expand hexpand) rfl hsize ⟨s, hs⟩⟩
    next => cases h
    next after hexpand =>
      obtain ⟨other, hother, hfails⟩ :=
        ih h ((Machine.size_marks_of_performs (performs_of_expand hexpand)).trans hsize)
          fun other hother => hroots other (List.mem_cons_of_mem _ hother)
      exact ⟨other, List.mem_cons_of_mem _ hother, hfails⟩

variable {failure : ParseError}

/-- If an evaluation of a parse fails, then something is wrong with one of the roots. -/
theorem fails_of_evalAll (hp : p.grammar.Finished tokens p.chart)
    (hroots : ∀ root ∈ p.roots, ∃ symbol i k, p.grammar.Matches p.chart root symbol i k)
    (h : (e.evalAll p).result = .error failure) : ∃ root ∈ p.roots, e.Fails p root failure :=
  fails_of_expandAll hp (Prod.ext h rfl) (by simp [Walk.ofChart]) hroots

theorem fails_of_evalFirst (hp : p.grammar.Finished tokens p.chart)
    (hroots : ∀ root ∈ p.roots, ∃ symbol i k, p.grammar.Matches p.chart root symbol i k)
    (h : (e.evalFirst p).result = .error failure) : ∃ root ∈ p.roots, e.Fails p root failure :=
  fails_of_expandFirst hp (Prod.ext h rfl) (by simp [Walk.ofChart]) hroots

/-- With an action for every rule, an evaluation of a parse fails only over the limit. -/
theorem treeBudget_of_evalAll (hp : p.grammar.Finished tokens p.chart)
    (hcovers : e.Covers p.grammar)
    (hroots : ∀ root ∈ p.roots, ∃ symbol i k, p.grammar.Matches p.chart root symbol i k)
    (h : (e.evalAll p).result = .error failure) :
    ∃ limit, e.maxTrees = some limit ∧ failure = .treeBudget limit := by
  obtain ⟨root, -, hfails⟩ := fails_of_evalAll hp hroots h
  exact hfails.treeBudget hcovers

theorem treeBudget_of_evalFirst (hp : p.grammar.Finished tokens p.chart)
    (hcovers : e.Covers p.grammar)
    (hroots : ∀ root ∈ p.roots, ∃ symbol i k, p.grammar.Matches p.chart root symbol i k)
    (h : (e.evalFirst p).result = .error failure) :
    ∃ limit, e.maxTrees = some limit ∧ failure = .treeBudget limit := by
  obtain ⟨root, -, hfails⟩ := fails_of_evalFirst hp hroots h
  exact hfails.treeBudget hcovers

end Evaluator

end Earley
