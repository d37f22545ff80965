import Mathlib.Data.List.Pairwise
import XkbCompose.Table

/-!
# XkbCompose.RefMap

What a compose table is for: a finite map from keysym sequences to leaf data in which no key is
a prefix of another, so that the keys pressed so far complete at most one sequence. The map is an
association list, and `insert` is the rule the parser applies to each production in file order.
A sequence that is a prefix of a key already present, or that key itself, is dropped: the first
definition wins. Otherwise the keys that are prefixes of the sequence go, and the sequence is
added.

* `mem_insert`: the entries after `insert`, when the sequence is a prefix of no key.
* `PrefixFree.insert`: `insert` keeps the keys prefix-free.
* `PrefixFree.get_eq_some`: on a prefix-free map, `get` finds exactly the entries.
-/

namespace XkbCompose

/-- A reference compose map: its entries, from keysym sequences to leaf data. -/
abbrev RefMap := List (List Keysym × Leaf)

namespace RefMap

/-- The value of the key `s`, if any. -/
def get (m : RefMap) (s : List Keysym) : Option Leaf := (m.find? (·.1 = s)).map (·.2)

/-- No key is a prefix of another, or equal to another. -/
def PrefixFree (m : RefMap) : Prop := m.Pairwise fun a b => ¬ a.1 <+: b.1 ∧ ¬ b.1 <+: a.1

/-- Add `S ↦ r`, unless `S` is a prefix of a key; the keys that are prefixes of `S` go. -/
def insert (m : RefMap) (S : List Keysym) (r : Leaf) : RefMap :=
  if m.any (fun e => decide (S <+: e.1)) then m
  else m.filter (fun e => !decide (e.1 <+: S)) ++ [(S, r)]

variable {m : RefMap} {S : List Keysym} {r : Leaf}

theorem insert_of_covered (h : ∃ e ∈ m, S <+: e.1) : m.insert S r = m := by
  simp [insert, h]

theorem mem_insert (h : ¬ ∃ e ∈ m, S <+: e.1) {s : List Keysym} {d : Leaf} :
    (s, d) ∈ m.insert S r ↔ (s = S ∧ d = r) ∨ ((s, d) ∈ m ∧ ¬ s <+: S) := by
  rw [insert, if_neg (by simpa using h)]
  simp [or_comm]

theorem PrefixFree.insert (hm : m.PrefixFree) : (m.insert S r).PrefixFree := by
  by_cases h : ∃ e ∈ m, S <+: e.1
  · rwa [insert_of_covered h]
  · rw [RefMap.insert, if_neg (by simpa using h), PrefixFree, List.pairwise_append]
    refine ⟨hm.filter _, List.pairwise_singleton _ _, fun e he b hb => ?_⟩
    obtain rfl := List.mem_singleton.1 hb
    simp only [List.mem_filter, Bool.not_eq_true', decide_eq_false_iff_not] at he
    exact ⟨he.2, fun hp => h ⟨e, he.1, hp⟩⟩

/-- On a prefix-free map keys are unique, so `get` finds exactly the entries. -/
theorem PrefixFree.get_eq_some (hm : m.PrefixFree) {s : List Keysym} {d : Leaf} :
    m.get s = some d ↔ (s, d) ∈ m := by
  have uniq : ∀ a ∈ m, ∀ b ∈ m, a.1 = b.1 → a = b := fun a ha b hb hab => by
    by_contra hne
    exact (hm.forall (fun _ _ h => h.symm) ha hb hne).1 (hab ▸ List.prefix_refl _)
  simp only [get, Option.map_eq_some']
  constructor
  · rintro ⟨e, he, rfl⟩
    have hes := List.find?_some he
    obtain rfl : e.1 = s := by simpa using hes
    exact List.mem_of_find?_eq_some he
  · intro hd
    have hsome : (m.find? (·.1 = s)).isSome := List.find?_isSome.2 ⟨(s, d), hd, by simp⟩
    obtain ⟨e, he⟩ := Option.isSome_iff_exists.1 hsome
    have hes : e.1 = s := by simpa using List.find?_some he
    exact ⟨e, he, by rw [uniq e (List.mem_of_find?_eq_some he) (s, d) hd hes]⟩

end RefMap
end XkbCompose
