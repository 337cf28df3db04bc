import Earley.Proofs.Forest.Stack
/-!
# Walks end

From one root to the next (`Evaluator.Between`) a walk has no frame, and the expansion of the next
root is a finite number of steps (`Machine.Ends`). All the way the frames belong to different states
(`Machine.Stacked`), and these are states at which a rule is matched to its end, since the roots are
complete matches and so are the children of the state of a rule. There are only so many of them in
the chart, whatever circles lead through it (`Grammar.walks_end_of_parse`).
-/

universe u

namespace Earley

open Relation

/-! ### Complete states of rules -/

/-- Whether a rule is matched to its end. -/
def State.isCompleteRule (s : State) : Bool :=
  match s.production with
  | .rule _ => s.isComplete
  | _ => false

/-- The states of a chart at which a rule is matched to its end. -/
def Chart.completeRules (c : Chart) : List Nat :=
  (List.range c.size).filter fun id => c.states[id]?.any State.isCompleteRule

theorem Chart.mem_completeRules {c : Chart} {id position : Nat} {s : State}
    (hs : c.states[id]? = some s) (hproduction : s.production = .rule position)
    (hcomplete : s.isComplete = true) : id ∈ c.completeRules := by
  have hid : id < c.size := (Array.getElem?_eq_some_iff.1 hs).1
  simp [completeRules, hid, hs, State.isCompleteRule, hproduction, hcomplete]

/-! ### Steps of a walk -/

/-- The state is marked as having a frame. -/
def Walk.OnPath {α : Type u} (walk : Walk α) (id : Nat) : Prop :=
  ∃ mark, walk.marks[id]? = some mark ∧ mark.onPath = true

namespace Machine

variable {α : Type u} {e : Evaluator α} {p : Parse} {firstOnly : Bool} {tokens : List String}
  {m m' : Machine α}

variable (e p firstOnly) in
/-- A walk goes on for a number of steps. -/
def Passes : Machine α → Machine α → Prop :=
  ReflTransGen fun m m' => step e p firstOnly m = .next m'

variable (e p firstOnly) in
/-- A walk is over after a number of steps. -/
def Ends (m : Machine α) (result : Except ParseError (List α)) (walk : Walk α) : Prop :=
  ∃ last, Passes e p firstOnly m last ∧ step e p firstOnly last = .done result walk

/-- Every walk is over after a number of steps. -/
theorem ends_run (m : Machine α) :
    Ends e p firstOnly m (run e p firstOnly m).1 (run e p firstOnly m).2 := by
  suffices hwithin : ∀ n (hn : m.room ≤ n), Ends e p firstOnly m
      (runWithin e p firstOnly n m hn).1 (runWithin e p firstOnly n m hn).2 from
    hwithin m.room (Nat.le_refl _)
  intro n hn
  fun_induction runWithin e p firstOnly n m hn with
  | case1 m hn result walk hstep => exact ⟨m, .refl, hstep⟩
  | case2 m hn m' hstep ih =>
    obtain ⟨last, hpasses, hlast⟩ := ih
    exact ⟨last, .head hstep hpasses, hlast⟩

/-- The marks show exactly the states that have a frame. -/
theorem Stacked.onPath_iff (h : m.Stacked p) {id : Nat} : m.walk.OnPath id ↔ id ∈ m.ids := by
  constructor
  · rintro ⟨mark, hmark, honPath⟩
    exact (h.onPath hmark).1 honPath
  · intro hid
    obtain ⟨frame, hframe, rfl⟩ := List.mem_map.1 hid
    obtain ⟨s, -, hs, -⟩ := (h.inOrder frame hframe).rule
    have hlt : frame.id < m.walk.marks.size := by
      rw [h.size]
      exact (Array.getElem?_eq_some_iff.1 hs).1
    have hmark : m.walk.marks[frame.id]? = some m.walk.marks[frame.id] :=
      Array.getElem?_eq_getElem hlt
    exact ⟨_, hmark, (h.onPath hmark).2 hid⟩

/-- The states of the frames are complete matches. -/
def Matched (p : Parse) (m : Machine α) : Prop :=
  ∀ id ∈ m.ids, ∃ symbol i k, p.grammar.Matches p.chart id symbol i k

/-- What a walk comes to is a complete match with a frame, or has no frame. -/
theorem Matched.enter {walk walk' : Walk α} {stack : List (Frame α)} {pending : Option (List α)}
    {id : Nat} {entry : Entry α} (h : Matched p ⟨walk, stack, pending⟩)
    (hid : ∃ symbol i k, p.grammar.Matches p.chart id symbol i k)
    (henter : enter e p walk id = .ok (walk', entry)) : Matched p (ofEntry walk' stack entry) := by
  obtain ⟨mark, s, -, -, hentered⟩ := entered_of_enter henter
  cases hentered with
  | known | cut | start | lexeme => exact h
  | rule => exact List.forall_mem_cons.2 ⟨hid, h⟩

/-- One step keeps this, since the children of the state of a rule are complete matches. -/
theorem Matched.goes (hp : p.grammar.Finished tokens p.chart) {visits : List (Visit α)}
    (h : m.Matched p) (hstacked : m.Stacked p) (hgoes : Goes e p firstOnly m visits m') :
    m'.Matched p := by
  cases hgoes with
  | take | list => exact h
  | close => exact (List.forall_mem_cons.1 h).2
  | @child walk _ frame below child children _ _ hchildren henter =>
    obtain ⟨s, position, hs, hproduction, -⟩ := hstacked.head.rule
    have hchild : p.chart.Child child frame.id :=
      hstacked.head.children child (by rw [hchildren]; exact List.mem_cons_self)
    have hmoved : Matched p ⟨walk, { frame with children := children } :: below, none⟩ := h
    exact hmoved.enter (hp.matches_of_child hs hproduction hchild) henter

/-- So the frames belong to complete states of rules. -/
theorem Matched.subset (h : m.Matched p) (hstacked : m.Stacked p) :
    m.ids ⊆ p.chart.completeRules := by
  intro id hid
  obtain ⟨symbol, i, k, s, hs, hcomplete, -⟩ := h id hid
  obtain ⟨frame, hframe, rfl⟩ := List.mem_map.1 hid
  obtain ⟨s', position, hs', hproduction, -⟩ := (hstacked.inOrder frame hframe).rule
  obtain rfl : s = s' := Option.some.inj (hs.symm.trans hs')
  exact Chart.mem_completeRules hs hproduction hcomplete

end Machine

/-! ### Root after root -/

namespace Evaluator

variable {α : Type u} {e : Evaluator α} {p : Parse} {firstOnly : Bool} {tokens : List String}
  {visits : List (Visit α)} {roots : List Nat} {m m' : Machine α} {walk : Walk α}

/-- The roots that are left of a call, and what it remembers, when no root is being expanded. A call
that is after the first value goes on to another root only if it has found none. -/
inductive Between (e : Evaluator α) (p : Parse) (firstOnly : Bool) : List Nat → Walk α → Prop
  /-- No root is expanded yet. -/
  | start : Between e p firstOnly p.roots (.ofChart p.chart)
  /-- The next root is expanded. -/
  | root {root : Nat} {roots : List Nat} {walk walk' : Walk α} {values : List α}
    (h : Between e p firstOnly (root :: roots) walk)
    (hexpand : e.expand p firstOnly walk root = (.ok values, walk'))
    (hvalues : firstOnly = true → values = []) : Between e p firstOnly roots walk'

/-- Between two roots a call is underway, without a frame. -/
theorem Between.underway (h : e.Between p firstOnly roots walk) :
    ∃ visits pending, e.Underway p firstOnly visits roots ⟨walk, [], pending⟩ ∧
      (firstOnly = true → pending.getD [] = []) := by
  induction h with
  | start => exact ⟨[], none, .start, fun _ => rfl⟩
  | root _ hexpand hvalues ih =>
    obtain ⟨visits, pending, hunderway, hpending⟩ := ih
    obtain ⟨visits', roots', m', hm', -, hfound⟩ := hunderway.exists_expand hpending hexpand
    obtain ⟨rfl, pending', rfl, heq⟩ := hfound _ rfl
    refine ⟨visits', pending', hm', fun hfirst => ?_⟩
    rw [heq]
    exact hvalues hfirst

/-- The roots that are left are roots of the parse. -/
theorem Underway.roots_subset (h : e.Underway p firstOnly visits roots m) : roots ⊆ p.roots := by
  induction h with
  | start => exact List.Subset.refl _
  | root _ _ _ ih => exact (List.cons_subset.1 ih).2
  | step _ _ ih => exact ih

/-- The frames belong to complete matches at every point of a call. -/
theorem Underway.matched (hp : p.grammar.Finished tokens p.chart)
    (hroots : ∀ root ∈ p.roots, ∃ symbol i k, p.grammar.Matches p.chart root symbol i k)
    (h : e.Underway p firstOnly visits roots m) : m.Matched p := by
  induction h with
  | start => exact fun _ hmem => nomatch hmem
  | root h _ henter ih => exact ih.enter (hroots _ (h.roots_subset List.mem_cons_self)) henter
  | step h hgoes ih => exact ih.goes hp (h.stacked hp) hgoes

/-- A call that is underway remains so from step to step. -/
theorem Underway.passes (h : e.Underway p firstOnly visits roots m)
    (hpasses : Machine.Passes e p firstOnly m m') :
    ∃ visits', e.Underway p firstOnly visits' roots m' := by
  induction hpasses with
  | refl => exact ⟨visits, h⟩
  | tail _ hstep ih =>
    obtain ⟨visits', h'⟩ := ih
    obtain ⟨more, hgoes⟩ := Machine.exists_goes_of_step hstep
    exact ⟨_, h'.step hgoes⟩

end Evaluator

namespace Grammar

/-- Walks end on the chart of every parse, whatever the evaluator and its limit are. When a call
comes to a root, no state is marked as having a frame. The expansion of the root then is a number of
steps of a walk up to its last one, no lookup goes out of range, and if values are found, then again
no state is marked. On the way the frames belong to different states, these are the states that are
marked, and they are complete states of rules, so that there are no more frames than such states. -/
theorem walks_end_of_parse {α : Type u} {g : Grammar} {ds : List Declaration} {start : String}
    {limits : Limits} {clock : Clock} {tokens : List String} {p : Parse}
    (hg : ofDeclarations ds start = .ok g) (h : g.parse limits clock tokens = .ok p)
    (e : Evaluator α) (firstOnly : Bool) {root : Nat} {roots : List Nat} {walk : Walk α}
    (hbetween : e.Between p firstOnly (root :: roots) walk) :
    (∀ id, ¬ walk.OnPath id) ∧
    ∃ entered entry, Machine.enter e p walk root = .ok (entered, entry) ∧
      (∃ result left, Machine.Ends e p firstOnly (Machine.ofEntry entered [] entry) result left ∧
        e.expand p firstOnly walk root = (result, left) ∧ result ≠ .error .outOfRange ∧
        ∀ values, result = .ok values → ∀ id, ¬ left.OnPath id) ∧
      ∀ m, Machine.Passes e p firstOnly (Machine.ofEntry entered [] entry) m →
        m.ids.Nodup ∧ (∀ id, m.walk.OnPath id ↔ id ∈ m.ids) ∧ m.ids ⊆ p.chart.completeRules ∧
          m.stack.length ≤ p.chart.completeRules.length := by
  obtain ⟨rfl, hp, hroots⟩ := finished_and_matches_of_parse hg h
  obtain ⟨visits, pending, hunderway, hpending⟩ := hbetween.underway
  have hempty : ∀ {walk : Walk α} {pending : Option (List α)},
      Machine.Stacked p ⟨walk, [], pending⟩ → ∀ id, ¬ walk.OnPath id :=
    fun hstacked id hid => nomatch hstacked.onPath_iff.1 hid
  have hstacked := hunderway.stacked hp
  obtain ⟨_, _, _, s, hs, -⟩ := hroots root (hunderway.roots_subset List.mem_cons_self)
  obtain ⟨⟨entered, entry⟩, henter⟩ := Machine.exists_enter (e := e) hp hstacked.size hs
  refine ⟨hempty hstacked, entered, entry, henter, ?_, fun m hpasses => ?_⟩
  · have hexpand : e.expand p firstOnly walk root =
        Machine.run e p firstOnly (Machine.ofEntry entered [] entry) := by
      rw [Evaluator.expand, henter]
    obtain ⟨visits', roots', m', hm', -, hfound⟩ := hunderway.exists_expand hpending hexpand
    refine ⟨_, _, Machine.ends_run _, hexpand, fun hresult => ?_, fun values hvalues => ?_⟩
    · have hperforms := Evaluator.performs_of_expand hexpand
      rcases (Machine.fails_of_performs hp hperforms hresult hstacked.size ⟨s, hs⟩).cases with
        ⟨limit, -, hlimit⟩ | ⟨rule, -, -, hrule⟩
      · cases hlimit
      · cases hrule
    · obtain ⟨-, pending', rfl, -⟩ := hfound values hvalues
      exact hempty (hm'.stacked hp)
  · obtain ⟨visits', hm⟩ := (hunderway.root hpending henter).passes hpasses
    have hfits := hm.stacked hp
    have hsubset := (hm.matched hp hroots).subset hfits
    refine ⟨hfits.nodup, fun id => hfits.onPath_iff, hsubset, ?_⟩
    rw [← List.length_map (f := Frame.id)]
    exact (List.subperm_of_subset hfits.nodup hsubset).length_le

/-- No words, in a grammar with an empty rule, a rule that recurs on both sides and a chain of
symbols that leads back to its beginning: the walk from the first root ends, whatever the evaluator
is, and there are never more than four frames. -/
theorem walks_end_of_parse_of_circles :
    ∃ g p, ofDeclarations [.nonterminal "S", .nonterminal "T", .lexeme "a" ["x"],
        .addRule "S" ["S", "S"], .addRule "S" ["T"], .addRule "T" ["S"], .addRule "S" ["a"],
        .addRule "S" []] "S" = .ok g ∧
      g.parse .unbounded (fun _ => { nanoseconds := 0 }) [] = .ok p ∧
      ∀ (e : Evaluator Nat) (firstOnly : Bool),
        ∃ entered entry, Machine.enter e p (.ofChart p.chart) 4 = .ok (entered, entry) ∧
          (∃ result left,
            Machine.Ends e p firstOnly (Machine.ofEntry entered [] entry) result left) ∧
          ∀ m, Machine.Passes e p firstOnly (Machine.ofEntry entered [] entry) m →
            m.stack.length ≤ 4 := by
  obtain ⟨g, p, hg, hp, hhead, hcount⟩ : ∃ g p, ofDeclarations [.nonterminal "S",
      .nonterminal "T", .lexeme "a" ["x"], .addRule "S" ["S", "S"], .addRule "S" ["T"],
      .addRule "T" ["S"], .addRule "S" ["a"], .addRule "S" []] "S" = .ok g ∧
      g.parse .unbounded (fun _ => { nanoseconds := 0 }) [] = .ok p ∧
      p.roots.head? = some 4 ∧ p.chart.completeRules.length = 4 :=
    exists_parse_of_any (by decide +kernel)
  obtain ⟨roots, hroots⟩ := List.head?_eq_some_iff.1 hhead
  refine ⟨g, p, hg, hp, fun e firstOnly => ?_⟩
  have hbetween : e.Between p firstOnly (4 :: roots) (.ofChart p.chart) := hroots ▸ .start
  obtain ⟨-, entered, entry, henter, ⟨result, left, hends, -⟩, hpasses⟩ :=
    walks_end_of_parse hg hp e firstOnly hbetween
  refine ⟨entered, entry, henter, ⟨result, left, hends⟩, fun m hm => ?_⟩
  obtain ⟨-, -, -, hlength⟩ := hpasses m hm
  exact hcount ▸ hlength

end Grammar

end Earley
