import Earley.Proofs.Forest.Stack
/-!
# Shared states are expanded twice at most

A state of a rule that no way leads back to, neither from itself nor from a state below it, gets a
frame the first and the second time that a walk comes to it. From the third time on, the values that
the second frame has found are used (`Grammar.opened_twice_of_parse`). The proof follows
the stages through which a call takes the state (`Machine.Stage`). While the second frame is open
no state is cut: such a state would have a frame already, so the state of the innermost frame, of
which it is a child, would lie below it.
-/

universe u

namespace Earley

open Relation

namespace Machine

variable {α : Type u} {e : Evaluator α} {p : Parse} {firstOnly : Bool} {tokens : List String}
  {id : Nat} {mark : Mark α} {m m' : Machine α} {visits : List (Visit α)}

/-- The stages through which a call takes a state: what has happened to it, what is remembered of
it, and whether it has a frame. -/
inductive Stage (m : Machine α) (id : Nat) (mark : Mark α) : List (Visit α) → Prop
  /-- The walk has not come to the state. -/
  | fresh (hvisited : mark.visited = false) (hmemo : mark.memo = none) (hnot : id ∉ m.ids) :
    Stage m id mark []
  /-- The state has its first frame. -/
  | first (hvisited : mark.visited = true) (hmemo : mark.memo = none) (hmem : id ∈ m.ids)
    (hframe : ∀ frame ∈ m.stack, frame.id = id → frame.repeated = false) :
    Stage m id mark [.opened id]
  /-- The state has had one frame. -/
  | between {found : List α} (hvisited : mark.visited = true) (hmemo : mark.memo = none)
    (hnot : id ∉ m.ids) : Stage m id mark [.opened id, .closed id found]
  /-- The state has its second frame, and no state was cut since. -/
  | second {found : List α} (hvisited : mark.visited = true) (hmemo : mark.memo = none)
    (hmem : id ∈ m.ids)
    (hframe : ∀ frame ∈ m.stack, frame.id = id →
      frame.repeated = true ∧ frame.cuts = m.walk.cuts) :
    Stage m id mark [.opened id, .closed id found, .opened id]
  /-- The values of the state are kept. -/
  | kept {found nodes : List α} (n : Nat) (hmemo : mark.memo = some nodes) (hnot : id ∉ m.ids) :
    Stage m id mark ([.opened id, .closed id found, .opened id, .closed id nodes] ++
      List.replicate n (.known id nodes))

namespace Stage

/-- A step that changes no frame of the state, and cuts nothing while it has one, leaves it at its
stage. -/
theorem mono (h : m.Stage id mark visits) (hids : id ∈ m'.ids ↔ id ∈ m.ids)
    (hframes : ∀ frame' ∈ m'.stack, frame'.id = id → ∃ frame ∈ m.stack, frame.id = id ∧
      frame'.repeated = frame.repeated ∧ frame'.cuts = frame.cuts)
    (hcuts : id ∈ m.ids → m'.walk.cuts = m.walk.cuts) : m'.Stage id mark visits := by
  cases h with
  | fresh hvisited hmemo hnot => exact .fresh hvisited hmemo (mt hids.1 hnot)
  | first hvisited hmemo hmem hframe =>
    refine .first hvisited hmemo (hids.2 hmem) fun frame' hframe' hid => ?_
    obtain ⟨frame, hold, hsame, hrepeated, -⟩ := hframes frame' hframe' hid
    rw [hrepeated]
    exact hframe frame hold hsame
  | between hvisited hmemo hnot => exact .between hvisited hmemo (mt hids.1 hnot)
  | second hvisited hmemo hmem hframe =>
    refine .second hvisited hmemo (hids.2 hmem) fun frame' hframe' hid => ?_
    obtain ⟨frame, hold, hsame, hrepeated, hsince⟩ := hframes frame' hframe' hid
    rw [hrepeated, hsince, hcuts hmem]
    exact hframe frame hold hsame
  | kept n hmemo hnot => exact .kept n hmemo (mt hids.1 hnot)

/-- The walk comes to the state when its values are kept. -/
theorem known (h : m.Stage id mark visits) {nodes : List α} (hmemo : mark.memo = some nodes)
    (hids : id ∈ m'.ids ↔ id ∈ m.ids) : m'.Stage id mark (visits ++ [.known id nodes]) := by
  cases h with
  | fresh _ hnone => rw [hmemo] at hnone; cases hnone
  | first _ hnone => rw [hmemo] at hnone; cases hnone
  | between _ hnone => rw [hmemo] at hnone; cases hnone
  | second _ hnone => rw [hmemo] at hnone; cases hnone
  | @kept found kept n hkept hnot =>
    obtain rfl : kept = nodes := Option.some.inj (hkept.symm.trans hmemo)
    rw [List.append_assoc, ← List.replicate_succ']
    exact .kept (n + 1) hkept (mt hids.1 hnot)

/-- The state gets a frame. -/
theorem opened {walk walk' : Walk α} {stack : List (Frame α)} {pending : Option (List α)}
    (h : Stage ⟨walk, stack, pending⟩ id mark visits) (hmemo : mark.memo = none)
    (hnot : id ∉ stack.map Frame.id) (rule : Rule) (lists : Backpointers)
    (hcuts : walk'.cuts = walk.cuts) :
    Stage ⟨walk', frameOf walk id rule lists mark :: stack, none⟩ id
      { mark with onPath := true, visited := true } (visits ++ [.opened id]) := by
  have hframe {P : Frame α → Prop} (hnew : P (frameOf walk id rule lists mark)) :
      ∀ frame ∈ frameOf walk id rule lists mark :: stack, frame.id = id → P frame := by
    intro frame hmem hid
    rcases List.mem_cons.1 hmem with rfl | hold
    · exact hnew
    · exact absurd (List.mem_map.2 ⟨frame, hold, hid⟩) hnot
  cases h with
  | fresh hvisited => exact .first rfl hmemo List.mem_cons_self (hframe hvisited)
  | first _ _ hmem => exact absurd hmem hnot
  | between hvisited => exact .second rfl hmemo List.mem_cons_self (hframe ⟨hvisited, hcuts.symm⟩)
  | second _ _ hmem => exact absurd hmem hnot
  | kept n hkept => rw [hmemo] at hkept; cases hkept

/-- The frame of the state is closed. -/
theorem closed {walk walk' : Walk α} {frame frame' : Frame α} {below : List (Frame α)}
    {pending : Option (List α)} (h : Stage ⟨walk, frame :: below, pending⟩ frame.id mark visits)
    (hnot : frame.id ∉ below.map Frame.id) (hcuts : walk'.cuts = walk.cuts)
    (hrepeated : frame'.repeated = frame.repeated) (hsince : frame'.cuts = frame.cuts) :
    Stage (close walk' frame' below) frame.id
      { mark with
        onPath := false
        memo := if frame'.repeated ∧ walk'.cuts = frame'.cuts then some frame'.nodes.toList
          else mark.memo }
      (visits ++ [.closed frame.id frame'.nodes.toList]) := by
  cases h with
  | fresh _ _ habsent => exact absurd List.mem_cons_self habsent
  | first hvisited hmemo _ hframe =>
    have hfirst : ¬ (frame'.repeated ∧ walk'.cuts = frame'.cuts) := by
      rw [hrepeated, hframe frame List.mem_cons_self rfl]
      exact fun hboth => Bool.false_ne_true hboth.1
    rw [if_neg hfirst]
    exact .between hvisited hmemo hnot
  | between _ _ habsent => exact absurd List.mem_cons_self habsent
  | second hvisited hmemo _ hframe =>
    obtain ⟨hagain, hsame⟩ := hframe frame List.mem_cons_self rfl
    have hsecond : frame'.repeated ∧ walk'.cuts = frame'.cuts :=
      ⟨hrepeated.trans hagain, by rw [hcuts, hsince, hsame]⟩
    rw [if_pos hsecond]
    exact .kept 0 rfl hnot
  | kept _ _ habsent => exact absurd List.mem_cons_self habsent

/-- What has happened to a state at any of the stages. -/
theorem isPrefix (h : m.Stage id mark visits) :
    ∃ found nodes n, visits <+: [.opened id, .closed id found, .opened id, .closed id nodes] ++
      List.replicate n (.known id nodes) := by
  cases h with
  | fresh => exact ⟨[], [], 0, List.nil_prefix⟩
  | first => exact ⟨[], [], 0, List.prefix_append _ _⟩
  | @between found => exact ⟨found, [], 0, List.prefix_append _ _⟩
  | @second found => exact ⟨found, [], 0, List.prefix_append _ _⟩
  | @kept found nodes n => exact ⟨found, nodes, n, List.prefix_rfl⟩

end Stage

/-- A call has taken a state to the stage that its visits say. -/
def Reaches (m : Machine α) (id : Nat) (visits : List (Visit α)) : Prop :=
  ∃ mark, m.walk.marks[id]? = some mark ∧
    m.Stage id mark (visits.filter fun visit => visit.id = id)

namespace Reaches

/-- A step that does nothing about the state leaves it at its stage. -/
theorem of_other (h : m.Reaches id visits) {visit : Visit α} (hvisit : visit.id ≠ id)
    (hmark : m'.walk.marks[id]? = m.walk.marks[id]?) (hids : id ∈ m'.ids ↔ id ∈ m.ids)
    (hframes : ∀ frame' ∈ m'.stack, frame'.id = id → frame' ∈ m.stack)
    (hcuts : id ∈ m.ids → m'.walk.cuts = m.walk.cuts) : m'.Reaches id (visits ++ [visit]) := by
  obtain ⟨mark, hold, hstage⟩ := h
  refine ⟨mark, hmark.trans hold, ?_⟩
  rw [List.filter_append, List.filter_cons_of_neg (by simpa using hvisit), List.filter_nil,
    List.append_nil]
  exact hstage.mono hids (fun frame' hmem hid => ⟨frame', hframes frame' hmem hid, hid, rfl, rfl⟩)
    hcuts

/-- A step that only goes on with the innermost frame leaves the state at its stage. -/
theorem change {walk walk' : Walk α} {frame frame' : Frame α} {below : List (Frame α)}
    {pending pending' : Option (List α)} (h : Reaches ⟨walk, frame :: below, pending⟩ id visits)
    (hmarks : walk'.marks = walk.marks) (hcuts : walk'.cuts = walk.cuts)
    (hid : frame'.id = frame.id) (hrepeated : frame'.repeated = frame.repeated)
    (hsince : frame'.cuts = frame.cuts) :
    Reaches ⟨walk', frame' :: below, pending'⟩ id visits := by
  obtain ⟨mark, hmark, hstage⟩ := h
  have hmark' : walk'.marks[id]? = some mark := by rw [← hmark, hmarks]
  refine ⟨mark, hmark', hstage.mono ?_ (fun other hmem hother => ?_) fun _ => hcuts⟩
  · simp [ids, hid]
  · rcases List.mem_cons.1 hmem with rfl | hmem
    · exact ⟨frame, List.mem_cons_self, hid ▸ hother, hrepeated, hsince⟩
    · exact ⟨other, List.mem_cons_of_mem _ hmem, hother, rfl, rfl⟩

variable {s : State} {position : Nat}

/-- The walk comes to a state that lies below those of all frames. -/
theorem enter (hs : p.chart.states[id]? = some s) (hproduction : s.production = .rule position)
    (hcalm : ∀ x, ReflTransGen p.chart.Child x id → ¬ TransGen p.chart.Child x x)
    {walk walk' : Walk α} {stack : List (Frame α)} {pending : Option (List α)} {child : Nat}
    {entry : Entry α} (h : Reaches ⟨walk, stack, pending⟩ id visits)
    (hstacked : Stacked p ⟨walk, stack, pending⟩)
    (hbelow : ∀ x ∈ stack.map Frame.id, TransGen p.chart.Child child x)
    (henter : enter e p walk child = .ok (walk', entry)) :
    Reaches (ofEntry walk' stack entry) id (visits ++ [Visit.ofEntry walk child entry]) := by
  obtain ⟨childMark, t, hchildMark, ht, hentered⟩ := entered_of_enter henter
  by_cases hchild : child = id
  · subst hchild
    obtain rfl : s = t := Option.some.inj (hs.symm.trans ht)
    obtain ⟨mark, hmark, hstage⟩ := h
    obtain rfl : mark = childMark := Option.some.inj (hmark.symm.trans hchildMark)
    unfold Reaches
    rw [List.filter_append, List.filter_cons_of_pos (by simp), List.filter_nil]
    cases hentered with
    | @known nodes hmemo =>
      have hvisit : Visit.ofEntry walk child (.values nodes) = .known child nodes := by
        have hsome : walk.marks[child]? = some mark := hmark
        simp [Visit.ofEntry, hsome, hmemo]
      rw [hvisit]
      exact ⟨mark, hmark, hstage.known hmemo Iff.rfl⟩
    | cut _ hpath =>
      -- The state would have a frame under those of states above it.
      exact absurd (hbelow child ((hstacked.onPath hmark).1 hpath)) (hcalm child .refl)
    | start _ _ hstart => rw [hproduction] at hstart; cases hstart
    | lexeme _ _ hlexeme => rw [hproduction] at hlexeme; cases hlexeme
    | rule hmemo hpath =>
      have hnot : child ∉ stack.map Frame.id := fun hmem => by
        rw [(hstacked.onPath hmark).2 hmem] at hpath
        cases hpath
      refine ⟨{ mark with onPath := true, visited := true }, ?_,
        hstage.opened hmemo hnot _ _ (Walk.cuts_mark _ _ _)⟩
      rw [walk_ofEntry, Walk.marks_record, Walk.getElem?_marks_mark, if_pos rfl, hmark,
        Option.map_some]
  · have hvisit : (Visit.ofEntry walk child entry).id ≠ id := by simpa using hchild
    cases hentered with
    | known => exact h.of_other hvisit rfl Iff.rfl (fun _ hmem _ => hmem) fun _ => rfl
    | cut _ hpath =>
      refine h.of_other hvisit rfl Iff.rfl (fun _ hmem _ => hmem) fun hmem => ?_
      -- The state that is cut would lie below itself, and below the state.
      have hcircle := hbelow child ((hstacked.onPath hchildMark).1 hpath)
      exact absurd hcircle (hcalm child (hbelow id hmem).to_reflTransGen)
    | start => exact h.of_other hvisit rfl Iff.rfl (fun _ hmem _ => hmem) fun _ => rfl
    | lexeme => exact h.of_other hvisit rfl Iff.rfl (fun _ hmem _ => hmem) fun _ => rfl
    | rule =>
      refine h.of_other hvisit ?_ ?_ (fun frame hmem hid => ?_) fun _ => Walk.cuts_mark _ _ _
      · rw [walk_ofEntry, Walk.marks_record, Walk.getElem?_marks_mark, if_neg hchild]
      · change id ∈ child :: stack.map Frame.id ↔ id ∈ stack.map Frame.id
        rw [List.mem_cons, or_iff_right (Ne.symm hchild)]
      · rcases List.mem_cons.1 hmem with rfl | hmem
        · exact absurd hid hchild
        · exact hmem

/-- The innermost frame is closed. -/
theorem close {walk walk' : Walk α} {frame frame' : Frame α} {below : List (Frame α)}
    {pending : Option (List α)} (h : Reaches ⟨walk, frame :: below, pending⟩ id visits)
    (hstacked : Stacked p ⟨walk, frame :: below, pending⟩) (hmarks : walk'.marks = walk.marks)
    (hcuts : walk'.cuts = walk.cuts) (hid : frame'.id = frame.id)
    (hrepeated : frame'.repeated = frame.repeated) (hsince : frame'.cuts = frame.cuts) :
    Reaches (close walk' frame' below) id
      (visits ++ [.closed frame.id frame'.nodes.toList]) := by
  have hmark (j : Nat) : (Machine.close walk' frame' below).walk.marks[j]? =
      (walk'.leave frame').marks[j]? := rfl
  by_cases hframe : frame.id = id
  · subst hframe
    obtain ⟨mark, hold, hstage⟩ := h
    have hnot : frame.id ∉ below.map Frame.id := (List.nodup_cons.1 hstacked.nodup).1
    unfold Reaches
    rw [List.filter_append, List.filter_cons_of_pos (by simp [Visit.id]), List.filter_nil]
    refine ⟨_, ?_, hstage.closed hnot hcuts hrepeated hsince⟩
    rw [hmark, Walk.leave, Walk.getElem?_marks_mark, if_pos hid, hmarks]
    exact congrArg (Option.map _) hold
  · refine h.of_other hframe ?_ ?_ (fun other hmem _ => List.mem_cons_of_mem _ hmem) fun _ => ?_
    · rw [hmark, Walk.leave, Walk.getElem?_marks_mark, if_neg (hid ▸ hframe), hmarks]
    · change id ∈ below.map Frame.id ↔ id ∈ frame.id :: below.map Frame.id
      rw [List.mem_cons, or_iff_right (Ne.symm hframe)]
    · exact (Walk.cuts_leave _ _).trans hcuts

/-- One step takes the state through its stages. -/
theorem goes (hs : p.chart.states[id]? = some s) (hproduction : s.production = .rule position)
    (hcalm : ∀ x, ReflTransGen p.chart.Child x id → ¬ TransGen p.chart.Child x x)
    (h : m.Reaches id visits) (hstacked : m.Stacked p) {more : List (Visit α)}
    (hgoes : Goes e p firstOnly m more m') : m'.Reaches id (visits ++ more) := by
  cases hgoes with
  | take =>
    rw [List.append_nil]
    exact h.change rfl rfl rfl rfl rfl
  | @child walk _ frame below child children _ _ hchildren henter =>
    have hchild : p.chart.Child child frame.id :=
      hstacked.head.children child (by rw [hchildren]; exact List.mem_cons_self)
    have hmoved : Reaches ⟨walk, { frame with children := children } :: below, none⟩ id visits :=
      h.change rfl rfl rfl rfl rfl
    have hstill : Stacked p ⟨walk, { frame with children := children } :: below, none⟩ :=
      hstacked.change rfl rfl (hstacked.head.next hchildren frame.args)
    exact hmoved.enter hs hproduction hcalm hstill
      (fun x hx => hstacked.transGen_of_child hchild hx) henter
  | close _ hreduce _ =>
    obtain ⟨hmarks, hcuts⟩ := marks_of_reduceAll hreduce
    exact h.close hstacked hmarks hcuts rfl rfl rfl
  | list _ hreduce _ _ =>
    obtain ⟨hmarks, hcuts⟩ := marks_of_reduceAll hreduce
    rw [List.append_nil]
    exact h.change hmarks hcuts rfl rfl rfl

end Reaches

end Machine

namespace Evaluator

variable {α : Type u} {e : Evaluator α} {p : Parse} {firstOnly : Bool} {tokens : List String}
  {visits : List (Visit α)} {roots : List Nat} {m : Machine α} {id position : Nat} {s : State}

/-- A call takes the state of a rule without ways back through the stages. -/
theorem Underway.reaches (hp : p.grammar.Finished tokens p.chart)
    (hs : p.chart.states[id]? = some s) (hproduction : s.production = .rule position)
    (hcalm : ∀ x, ReflTransGen p.chart.Child x id → ¬ TransGen p.chart.Child x x)
    (h : e.Underway p firstOnly visits roots m) : m.Reaches id visits := by
  induction h with
  | start =>
    have hid : id < p.chart.size := (Array.getElem?_eq_some_iff.1 hs).1
    refine ⟨{}, ?_, .fresh rfl rfl List.not_mem_nil⟩
    simp [Walk.ofChart, hid]
  | root h _ henter ih =>
    exact ih.enter hs hproduction hcalm (h.stacked hp) (fun _ hmem => absurd hmem List.not_mem_nil)
      henter
  | step h hgoes ih => exact ih.goes hs hproduction hcalm (h.stacked hp) hgoes

/-- If what has happened to a state is as it is at one of the stages, then it has had no more than
two frames. -/
theorem count_opened_le {events : Array Event} {found nodes : List α} {n : Nat}
    (hevents : events.toList.filterMap Event.opened? = visits.filterMap Visit.opened?)
    (hvisits : (visits.filter fun visit => visit.id = id) <+:
      [.opened id, .closed id found, .opened id, .closed id nodes] ++
        List.replicate n (.known id nodes)) : events.toList.count (.opened id) ≤ 2 := by
  have hcount : events.toList.count (.opened id) =
      (events.toList.filterMap Event.opened?).count id := by
    rw [List.count_filterMap]
    refine List.countP_congr fun event _ => ?_
    cases event <;> simp [Event.opened?]
  have hfilter : (visits.filterMap Visit.opened?).count id =
      (visits.filter fun visit => visit.id = id).countP fun visit =>
        visit.opened? == some id := by
    rw [List.count_filterMap, List.countP_filter]
    refine List.countP_congr fun visit _ => ?_
    cases visit <;> simp +contextual [Visit.opened?, Visit.id]
  rw [hcount, hevents, hfilter]
  refine Nat.le_trans (hvisits.sublist.countP_le) ?_
  simp [List.countP_replicate, Visit.opened?]

end Evaluator

namespace Grammar

/-- In an evaluation of a parse, the state of a rule gets two frames at most if neither it nor a
state below it comes below itself. Whatever else has happened, the visits to the state are those of
its first frame, those of its second frame, and then only uses of the values that the second frame
has found. -/
theorem opened_twice_of_parse {α : Type u} {g : Grammar} {ds : List Declaration} {start : String}
    {limits : Limits} {clock : Clock} {tokens : List String} {p : Parse}
    (hg : ofDeclarations ds start = .ok g) (h : g.parse limits clock tokens = .ok p)
    {id position : Nat} {s : State} (hs : p.chart.states[id]? = some s)
    (hproduction : s.production = .rule position)
    (hcalm : ∀ x, ReflTransGen p.chart.Child x id → ¬ TransGen p.chart.Child x x)
    (e : Evaluator α) :
    (∀ firstOnly visits roots m, e.Underway p firstOnly visits roots m →
      ∃ found nodes n, (visits.filter fun visit => visit.id = id) <+:
        [.opened id, .closed id found, .opened id, .closed id nodes] ++
          List.replicate n (.known id nodes)) ∧
    (e.evalAll p).events.toList.count (.opened id) ≤ 2 ∧
    (e.evalFirst p).events.toList.count (.opened id) ≤ 2 := by
  obtain ⟨rfl, hp, -⟩ := finished_and_roots_of_parse hg h
  have hstages {firstOnly : Bool} {visits : List (Visit α)} {roots : List Nat} {m : Machine α}
      (hm : e.Underway p firstOnly visits roots m) :
      ∃ found nodes n, (visits.filter fun visit => visit.id = id) <+:
        [.opened id, .closed id found, .opened id, .closed id nodes] ++
          List.replicate n (.known id nodes) := by
    obtain ⟨mark, -, hstage⟩ := hm.reaches hp hs hproduction hcalm
    exact hstage.isPrefix
  refine ⟨fun _ _ _ _ => hstages, ?_, ?_⟩
  · obtain ⟨visits, roots, m, hm, hevents⟩ := e.exists_underway_of_evalAll p
    obtain ⟨found, nodes, n, hvisits⟩ := hstages hm
    exact Evaluator.count_opened_le hevents hvisits
  · obtain ⟨visits, roots, m, hm, hevents⟩ := e.exists_underway_of_evalFirst p
    obtain ⟨found, nodes, n, hvisits⟩ := hstages hm
    exact Evaluator.count_opened_le hevents hvisits

/-- A word that derives the start symbol in a grammar where a chain of symbols leads back to the
start symbol: the state of the rule over the word alone gets two frames at most, whatever the values
are, though there are circles above it. -/
theorem opened_twice_of_parse_of_circle :
    ∃ g p s, ofDeclarations [.nonterminal "S", .nonterminal "T", .lexeme "a" ["x", "y"],
        .addRule "S" ["a"], .addRule "S" ["S", "S"], .addRule "S" ["T"], .addRule "T" ["S"]]
        "S" = .ok g ∧
      g.parse .unbounded (fun _ => { nanoseconds := 0 }) ["x", "y"] = .ok p ∧
      p.chart.states[6]? = some s ∧ s.production = .rule 0 ∧
      (∀ x, ReflTransGen p.chart.Child x 6 → ¬ TransGen p.chart.Child x x) ∧
      ∀ e : Evaluator Nat, (e.evalAll p).events.toList.count (.opened 6) ≤ 2 ∧
        (e.evalFirst p).events.toList.count (.opened 6) ≤ 2 := by
  obtain ⟨g, p, hg, hp, hstate, hlists⟩ : ∃ g p, ofDeclarations [.nonterminal "S",
      .nonterminal "T", .lexeme "a" ["x", "y"], .addRule "S" ["a"], .addRule "S" ["S", "S"],
      .addRule "S" ["T"], .addRule "T" ["S"]] "S" = .ok g ∧
      g.parse .unbounded (fun _ => { nanoseconds := 0 }) ["x", "y"] = .ok p ∧
      p.chart.states[6]?.map (·.production) = some (.rule 0) ∧
      ∀ id < 7, ∀ list ∈ p.chart.lists id, ∀ child ∈ list, child < id :=
    exists_parse_of_any (by decide +kernel)
  obtain ⟨s, hs, hproduction⟩ := Option.map_eq_some_iff.1 hstate
  have hcalm : ∀ x, ReflTransGen p.chart.Child x 6 → ¬ TransGen p.chart.Child x x := fun x =>
    Chart.not_transGen_of_older fun j hj _ => hlists j (Nat.lt_succ_of_le hj)
  refine ⟨g, p, s, hg, hp, hs, hproduction, hcalm, fun e => ?_⟩
  exact (opened_twice_of_parse hg hp hs hproduction hcalm e).2

end Grammar

end Earley
