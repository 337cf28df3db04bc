import Earley.Parse.Invariant
/-!
# Closed columns are final

Once the columns up to some position are closed, the rest of a parse touches neither these columns
nor the sources of their states (`Grammar.Grows.keepsUpTo`). States call only for states that stop
no earlier than themselves, so what is still called for up to this position is called for by states
of closed columns. The chart has it already, and to insert it once more changes nothing
(`Chart.Inserted.eq_of_has`).
-/

namespace Earley

namespace Chart

variable {c c' c'' : Chart} {s : State} {i : Insertion} {k : Nat}

/-- To insert what a chart has changes nothing. -/
theorem Inserted.eq_of_has (h : c.Inserted s i c') (hc : c.Indexed) (hhas : c.Has s) : c' = c := by
  obtain ⟨id, t, ht, hitem, hstop, hsources⟩ := hhas
  cases h with
  | new hcolumn hfresh =>
    exact absurd hitem (hc.ne_of_id?_eq_none hcolumn hfresh ht hstop)
  | @merged id' t' column hcolumn hid' ht' hmore =>
    obtain rfl : id = id' := by
      rw [(hc.id?_eq_some_iff hcolumn).2 ⟨t, ht, hstop, hitem⟩] at hid'
      exact Option.some.inj hid'
    obtain rfl : t = t' := Option.some.inj (ht.symm.trans ht')
    rw [State.merge_eq_self_of_subset hsources] at hmore
    exact absurd hmore (Nat.lt_irrefl _)
  | known => rfl

/-- The columns up to a position, and their states, are the same in a later stage of a chart. -/
structure KeepsUpTo (k : Nat) (c c' : Chart) : Prop where
  /-- The columns list the same states. -/
  columns : ∀ j ≤ k, c'.columns[j]? = c.columns[j]?
  /-- The states have the same sources. -/
  states : ∀ {id : Nat} {s : State}, c.states[id]? = some s → s.stop ≤ k →
    c'.states[id]? = some s

namespace KeepsUpTo

theorem refl (k : Nat) (c : Chart) : KeepsUpTo k c c := ⟨fun _ _ => rfl, fun hs _ => hs⟩

theorem trans (h : KeepsUpTo k c c') (h' : KeepsUpTo k c' c'') : KeepsUpTo k c c'' where
  columns j hj := (h'.columns j hj).trans (h.columns j hj)
  states hs hstop := h'.states (h.states hs hstop) hstop

end KeepsUpTo

/-- An insertion keeps the columns before the one where the state stops. -/
theorem Inserted.keepsUpTo (h : c.Inserted s i c') (hc : c.Indexed) (hk : k < s.stop) :
    KeepsUpTo k c c' := by
  refine ⟨fun j hj => h.columns_eq (Nat.ne_of_lt (Nat.lt_of_le_of_lt hj hk)),
    fun {id t} ht hstop => ?_⟩
  cases h with
  | new => exact getElem?_push_of_some ht s
  | @merged id' t' column hcolumn hid' ht' =>
    rw [getElem?_modify_merge ht']
    split
    next heq =>
      subst heq
      obtain ⟨u, hu, hu', -⟩ := (hc.id?_eq_some_iff hcolumn).1 hid'
      obtain rfl : u = t := Option.some.inj (hu.symm.trans ht)
      exact absurd (hu' ▸ hstop) (Nat.not_le_of_lt hk)
    next => exact ht
  | known => exact ht

end Chart

namespace Grammar

variable {g : Grammar} {tokens : List String} {c c' : Chart} {s t : State} {id k : Nat}

/-- A state calls only for states that stop no earlier than itself. -/
theorem Calls.stop_le (h : g.Calls c id t) (hs : c.states[id]? = some s) : s.stop ≤ t.stop := by
  rcases h.inv hs with ⟨_, _, _, _, rfl⟩ | ⟨_, _, _, _, _, rfl⟩ | ⟨_, _, _, _, _, _, _, _, rfl⟩
  · exact Nat.le_refl _
  · exact Nat.le_succ _
  · exact Nat.le_refl _

/-- Something calls for what is called for. -/
theorem Calls.exists_state (h : g.Calls c id t) : ∃ s, c.states[id]? = some s := by
  cases h with
  | predict hs => exact ⟨_, hs⟩
  | scan hs => exact ⟨_, hs⟩
  | advance hs => exact ⟨_, hs⟩

/-- As a chart grows, the columns up to a position do not change any more if they are closed. -/
theorem Grows.keepsUpTo (h : g.Grows c c') (hreach : g.Reachable tokens c)
    (hclosed : ∀ j ≤ k, g.Closed c j) : Chart.KeepsUpTo k c c' := by
  induction h with
  | refl => exact .refl k c
  | @insert c' c'' id t i hgrows hcalls hinsert ih =>
    have hreach' := hreach.grows hgrows
    have hinserted := Chart.inserted_of_insert? hinsert
    by_cases hk : k < t.stop
    · exact ih.trans (hinserted.keepsUpTo hreach'.indexed hk)
    · obtain ⟨s, hs⟩ := hcalls.exists_state
      have hstop : s.stop ≤ k := Nat.le_trans (hcalls.stop_le hs) (Nat.le_of_not_lt hk)
      have hcolumn : g.Closed c' s.stop := (hclosed s.stop hstop).of_extends hreach hreach'
        hgrows.extension fun j hj => ih.columns j (Nat.le_trans hj hstop)
      have hhas : c'.Has t := hcolumn id s hs rfl t hcalls
      rw [hinserted.eq_of_has hreach'.indexed hhas]
      exact ih

end Grammar

end Earley
