import Mathlib.Data.List.Induction
import Mathlib.Data.List.Nodup
/-!
# Lists without repetitions

A list whose repetitions are left out keeps each element at its first place. Seen from its end, the
list grows by an element that is new and stays as it is otherwise (`eraseDups_concat`). An element
that is new is then found at the end, and nowhere else (`getElem?_concat_eq_some_iff`).
-/

namespace Earley

variable {α : Type} [BEq α] [LawfulBEq α]

/-- What comes last is a repetition or is kept. -/
theorem eraseDups_concat (l : List α) (a : α) :
    (l ++ [a]).eraseDups = if a ∈ l then l.eraseDups else l.eraseDups ++ [a] := by
  rw [List.eraseDups_append]
  by_cases ha : a ∈ l
  · simp [List.removeAll, ha]
  · simp [List.removeAll, ha, List.eraseDups_cons]

theorem nodup_eraseDups (l : List α) : l.eraseDups.Nodup := by
  induction l using List.reverseRecOn with
  | nil => exact List.nodup_nil
  | append_singleton l a ih =>
    rw [eraseDups_concat]
    split
    next => exact ih
    next ha =>
      rw [← List.concat_eq_append]
      exact List.Nodup.concat (mt List.mem_eraseDups.1 ha) ih

theorem eraseDups_eq_self {l : List α} (h : l.Nodup) : l.eraseDups = l := by
  induction l with
  | nil => rfl
  | cons a l ih =>
    obtain ⟨ha, hl⟩ := List.nodup_cons.1 h
    have hothers : (l.filter fun b => !b == a) = l := by
      rw [List.filter_eq_self]
      intro b hb
      simpa using fun heq : b = a => ha (heq ▸ hb)
    rw [List.eraseDups_cons, hothers, ih hl]

omit [BEq α] [LawfulBEq α] in
/-- With a new element behind a list, this is found at the end, and every other one where it was. -/
theorem getElem?_concat_eq_some_iff {l : List α} {new a : α} {i : Nat} (hnew : new ∉ l) :
    (l ++ [new])[i]? = some a ↔ (a = new ∧ i = l.length) ∨ (a ≠ new ∧ l[i]? = some a) := by
  constructor
  · intro h
    rw [List.getElem?_append] at h
    split at h
    next =>
      refine .inr ⟨?_, h⟩
      rintro rfl
      exact hnew (List.mem_of_getElem? h)
    next hi =>
      obtain ⟨hlt, hlast⟩ := List.getElem?_eq_some_iff.1 h
      rw [List.getElem_singleton] at hlast
      rw [List.length_singleton] at hlt
      exact .inl ⟨hlast.symm, by omega⟩
  · rintro (⟨rfl, rfl⟩ | ⟨-, h⟩)
    · exact List.getElem?_concat_length
    · rw [List.getElem?_append_left (List.getElem?_eq_some_iff.1 h).1, h]

end Earley
