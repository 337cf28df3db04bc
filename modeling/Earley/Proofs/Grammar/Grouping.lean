import Earley.Grammar.Basic
import Earley.Proofs.Repetitions
/-!
# Rules put together by heads

The text of a grammar shows the rules head by head, each head at the place of its first rule. The
rules in this order (`Grammar.grouped`) are the same ones (`Grammar.perm_grouped`), they have the
same alternatives for each head (`Grammar.filter_grouped`), and their heads come in the same order
(`Grammar.eraseDups_map_head_grouped`).
-/

namespace Earley

namespace Grammar

variable (g : Grammar)

/-- The rules in the order in which the text shows them. -/
def grouped : List Rule :=
  g.heads.flatMap g.alternatives

theorem mem_alternatives {g : Grammar} {head : String} {rule : Rule} :
    rule ∈ g.alternatives head ↔ rule ∈ g.rules ∧ rule.head = head := by
  simp [alternatives]

/-- A head has alternatives. -/
theorem alternatives_ne_nil_iff {g : Grammar} {head : String} :
    g.alternatives head ≠ [] ↔ head ∈ g.heads := by
  rw [alternatives, ne_eq, List.filter_eq_nil_iff, heads, List.mem_eraseDups, List.mem_map]
  simp

/-- Different heads have different alternatives. -/
theorem filter_alternatives (head other : String) :
    (g.alternatives other).filter (fun rule => rule.head = head) =
      if other = head then g.alternatives head else [] := by
  split
  next heq =>
    rw [heq, List.filter_eq_self]
    exact fun rule hrule => decide_eq_true (mem_alternatives.1 hrule).2
  next hne =>
    rw [List.filter_eq_nil_iff]
    intro rule hrule hhead
    exact hne ((mem_alternatives.1 hrule).2.symm.trans (of_decide_eq_true hhead))

/-- The alternatives of a head come once, if the head comes once. -/
theorem filter_flatMap_alternatives {heads : List String} (h : heads.Nodup) (head : String) :
    (heads.flatMap g.alternatives).filter (fun rule => rule.head = head) =
      if head ∈ heads then g.alternatives head else [] := by
  induction heads with
  | nil => rfl
  | cons first rest ih =>
    obtain ⟨hfirst, hrest⟩ := List.nodup_cons.1 h
    rw [List.flatMap_cons, List.filter_append, filter_alternatives, ih hrest]
    by_cases heq : first = head
    · rw [if_pos heq, if_neg (heq ▸ hfirst), if_pos (List.mem_cons.2 (.inl heq.symm)),
        List.append_nil]
    · rw [if_neg heq, List.nil_append]
      simp only [List.mem_cons, Ne.symm heq, false_or]

/-- No alternative is lost or moved before another one. -/
theorem filter_grouped (head : String) :
    g.grouped.filter (fun rule => rule.head = head) = g.alternatives head := by
  have hheads : g.heads.Nodup := nodup_eraseDups _
  rw [grouped, filter_flatMap_alternatives g hheads]
  split
  next => rfl
  next hhead => exact (not_not.1 (mt alternatives_ne_nil_iff.1 hhead)).symm

/-- Every rule comes as often as before. -/
theorem perm_grouped : g.grouped.Perm g.rules.toList := by
  rw [List.perm_iff_count]
  intro rule
  have hcount (l : List Rule) :
      (l.filter fun other => other.head = rule.head).count rule = l.count rule :=
    List.count_filter (decide_eq_true rfl)
  rw [← hcount, filter_grouped, alternatives, hcount]

/-- Heads with alternatives are the heads of these, in the same order. -/
theorem eraseDups_map_head_flatMap {heads : List String} (h : heads.Nodup)
    (hsome : ∀ head ∈ heads, head ∈ g.heads) :
    ((heads.flatMap g.alternatives).map Rule.head).eraseDups = heads := by
  induction heads with
  | nil => rfl
  | cons first rest ih =>
    obtain ⟨hfirst, hrest⟩ := List.nodup_cons.1 h
    obtain ⟨rule, more, hrules⟩ :=
      List.exists_cons_of_ne_nil (alternatives_ne_nil_iff.2 (hsome first List.mem_cons_self))
    have hhead : ∀ other ∈ rule :: more, other.head = first :=
      fun other hother => (mem_alternatives.1 (hrules ▸ hother)).2
    have hmore : ((more.map Rule.head).filter fun head => !head == first) = [] := by
      rw [List.filter_eq_nil_iff]
      intro head hmem
      obtain ⟨other, hother, rfl⟩ := List.mem_map.1 hmem
      simp [hhead other (List.mem_cons_of_mem _ hother)]
    have hothers : (((rest.flatMap g.alternatives).map Rule.head).filter
        fun head => !head == first) = (rest.flatMap g.alternatives).map Rule.head := by
      rw [List.filter_eq_self]
      intro head hmem
      obtain ⟨other, hother, rfl⟩ := List.mem_map.1 hmem
      obtain ⟨second, hsecond, hother⟩ := List.mem_flatMap.1 hother
      rw [(mem_alternatives.1 hother).2]
      simpa using fun heq : second = first => hfirst (heq ▸ hsecond)
    rw [List.flatMap_cons, hrules, List.map_append, List.map_cons, List.cons_append,
      List.eraseDups_cons, hhead rule List.mem_cons_self, List.filter_append, hmore, hothers,
      List.nil_append, ih hrest fun head hmem => hsome head (List.mem_cons_of_mem _ hmem)]

theorem eraseDups_map_head_grouped : (g.grouped.map Rule.head).eraseDups = g.heads :=
  g.eraseDups_map_head_flatMap (nodup_eraseDups _) fun _ hmem => hmem

variable {g} {g' : Grammar}

/-- A grammar with the rules in this order has the same alternatives. -/
theorem alternatives_of_grouped (h : g'.rules.toList = g.grouped) (head : String) :
    g'.alternatives head = g.alternatives head := by
  rw [alternatives, h, filter_grouped]

/-- Its text is the same. -/
theorem text_of_grouped (hstart : g'.start = g.start) (h : g'.rules.toList = g.grouped) :
    g'.text = g.text := by
  have hheads : g'.heads = g.heads := by
    rw [heads, h, eraseDups_map_head_grouped]
  have halternatives : g'.alternatives = g.alternatives := funext (alternatives_of_grouped h)
  rw [text, text, hstart, hheads, halternatives]

end Grammar

end Earley
