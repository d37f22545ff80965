import XkbCompose.Insert
import XkbCompose.RefMap

/-!
# XkbCompose.Build

A table built by `add_production`, from the one `xkb_compose_new` makes, over the productions of a
Compose file in order. Each call keeps the representation invariant and changes the keys as
`RefMap.insert` does, so the whole run does both.

* `composeNew_wf`: the table of `xkb_compose_new` is well formed and has no keys.
* `Represents.addProduction`: one call of `add_production`, on the table and on the reference map.
* `foldlM_addProduction_spec`: a run of `add_production` over a list of productions.
-/

namespace XkbCompose

/-- The reference map of a list of productions: `RefMap.insert` of each in turn. -/
def refBuild (ps : List Production) : RefMap :=
  ps.foldl (fun m p => m.insert p.lhs p.result) []

namespace Compose

/-- The keys of `c`, with their leaf data, are the entries of `m`. -/
def Represents (c : Compose) (m : RefMap) : Prop := ∀ s d, c.KeyOf s d ↔ (s, d) ∈ m

theorem composeNew_inChain {h i : Nat} (hi : composeNew.InChain h i) : i = h := by
  have hn : ∀ j, (composeNew.node j).next = 0 := by
    intro j; rcases j with _ | j <;> rfl
  exact hi.cases_head.resolve_right fun ⟨hne, _⟩ => hne (hn h)

theorem composeNew_reach {s : List Keysym} {x : Nat} (h : composeNew.ReachFrom 0 s x) :
    x = 0 ∧ s = [noSymbol] :=
  ReachFrom.of_lone (show (composeNew.node 0).next = 0 from rfl) rfl h

theorem composeNew_wf : composeNew.Wf ∧ composeNew.PathsUnique ∧ composeNew.Represents [] := by
  refine ⟨⟨⟨⟨by decide, rfl, rfl, ⟨rfl, rfl⟩, fun i hi hil => ?_⟩, fun i hi => ?_,
    fun i hi hil => ?_, fun h _ i j hi hj _ => ?_, fun i hil hs => ?_, ⟨rfl, rfl, fun i hi => ?_⟩,
    fun i hi => ?_⟩, fun i hi hil => ?_⟩, fun s s' x h h' => ?_, fun s d => ?_⟩
  all_goals simp only [composeNew, List.length_singleton, Nat.lt_one_iff] at *
  all_goals try subst i
  · omega
  · exact ⟨.inl rfl, .inl rfl⟩
  · omega
  · rw [composeNew_inChain hi, composeNew_inChain hj]
  · exact absurd rfl hs
  · decide
  · decide
  · omega
  · rw [(composeNew_reach h).2, (composeNew_reach h').2]
  · simp only [List.not_mem_nil, iff_false]
    rintro ⟨x, hx, hx0, -⟩
    exact hx0 (composeNew_reach hx).1

variable {c : Compose} {m : RefMap} {p : Production}

/-- One call of `add_production` on a table that represents a prefix-free map gives a table that
represents the map after `RefMap.insert`. -/
theorem Represents.addProduction (hw : c.Wf) (hu : c.PathsUnique) (hr : c.Represents m)
    (hp : p.Shaped) :
    ∃ c', XkbCompose.addProduction c p = some c' ∧ c'.Wf ∧ c'.PathsUnique ∧
      c'.Represents (m.insert p.lhs p.result) := by
  obtain ⟨c', heq, hw', hu', hins⟩ := hw.addProduction_spec hu hp
  refine ⟨c', heq, hw', hu', fun s d => ?_⟩
  have hcov : (∃ s d, c.KeyOf s d ∧ p.lhs <+: s) ↔ ∃ e ∈ m, p.lhs <+: e.1 := by
    constructor
    · rintro ⟨s, d, hk, hs⟩; exact ⟨(s, d), (hr s d).1 hk, hs⟩
    · rintro ⟨⟨s, d⟩, he, hs⟩; exact ⟨s, d, (hr s d).2 he, hs⟩
  by_cases h : ∃ e ∈ m, p.lhs <+: e.1
  · rw [RefMap.insert_of_covered h, hins.covered (hcov.2 h), hr]
  · rw [RefMap.mem_insert h, hins.fresh (mt hcov.1 h), hr]

theorem Represents.lookup_eq_get (hw : c.Wf) (hr : c.Represents m) (hm : m.PrefixFree)
    (s : List Keysym) : c.lookup s = m.get s :=
  Option.ext fun d => by rw [Option.mem_def, Option.mem_def, hw.lookup_eq_some, hr, hm.get_eq_some]

/-- A run of `add_production` over a list of productions of the shape `parse` builds keeps the
invariant and follows the reference insertion. -/
theorem foldlM_addProduction_spec :
    ∀ (ps : List Production) (c : Compose) (m : RefMap), (∀ p ∈ ps, p.Shaped) → c.Wf →
      c.PathsUnique → c.Represents m → m.PrefixFree →
      ∃ c', ps.foldlM XkbCompose.addProduction c = some c' ∧ c'.Wf ∧
        c'.Represents (ps.foldl (fun m p => m.insert p.lhs p.result) m) ∧
        (ps.foldl (fun m p => m.insert p.lhs p.result) m).PrefixFree
  | [], c, m, _, hw, _, hr, hm => ⟨c, rfl, hw, hr, hm⟩
  | p :: ps, c, m, hps, hw, hu, hr, hm => by
    obtain ⟨c₁, heq, hw₁, hu₁, hr₁⟩ := hr.addProduction hw hu (hps p (.head _))
    obtain ⟨c', heq', hrest⟩ := foldlM_addProduction_spec ps c₁ _
      (fun q hq => hps q (.tail _ hq)) hw₁ hu₁ hr₁ hm.insert
    exact ⟨c', by simpa [List.foldlM_cons, heq] using heq', hrest⟩

end Compose

/-! ## A table of one key -/

def aeOnly : Production :=
  ⟨[0x61, 0x65], 0xe6, [], true, false, by decide, by decide, by decide⟩

theorem aeOnly_shaped : ∀ p ∈ [aeOnly], p.Shaped := by
  intro p hp
  obtain rfl := List.mem_singleton.1 hp
  exact ⟨by decide, by decide, by decide, by decide, by decide⟩

def aeOnlyTable : Compose :=
  ⟨[0], [⟨noSymbol, 1, 0, 0, noSymbol⟩, ⟨0x61, 0, 2, 0, noSymbol⟩, ⟨0x65, 0, 0, 0, 0xe6⟩]⟩

theorem foldlM_addProduction_aeOnly :
    [aeOnly].foldlM addProduction composeNew = some aeOnlyTable := by decide

theorem aeOnlyTable_wf : aeOnlyTable.Wf := by
  obtain ⟨hw, hu, hr⟩ := Compose.composeNew_wf
  obtain ⟨c, h, hc, -⟩ :=
    Compose.foldlM_addProduction_spec [aeOnly] _ [] aeOnly_shaped hw hu hr .nil
  rw [foldlM_addProduction_aeOnly, Option.some.injEq] at h
  exact h ▸ hc

/-- Every table that `add_production` builds from the table of `xkb_compose_new`, over
productions of the shape `parse` builds, satisfies the representation invariant. -/
theorem addProductions_wf (ps : List Production) (hps : ∀ p ∈ ps, p.Shaped) :
    ∃ c, ps.foldlM addProduction composeNew = some c ∧ c.Wf := by
  obtain ⟨hw, hu, hr⟩ := Compose.composeNew_wf
  obtain ⟨c, heq, hw', -⟩ := Compose.foldlM_addProduction_spec ps _ [] hps hw hu hr
    (List.Pairwise.nil)
  exact ⟨c, heq, hw'⟩

theorem addProductions_wf_aeOnly : (∀ p ∈ [aeOnly], p.Shaped) ∧
    ∃ c, [aeOnly].foldlM addProduction composeNew = some c ∧ c.Wf :=
  ⟨aeOnly_shaped, addProductions_wf _ aeOnly_shaped⟩

/-- The abstract map of a table built by `add_production` from the table of `xkb_compose_new`
is the reference map of the same productions, and that map is prefix-free. -/
theorem addProductions_lookup (ps : List Production) (hps : ∀ p ∈ ps, p.Shaped) :
    ∃ c, ps.foldlM addProduction composeNew = some c ∧ (refBuild ps).PrefixFree ∧
      ∀ s, c.lookup s = (refBuild ps).get s := by
  obtain ⟨hw, hu, hr⟩ := Compose.composeNew_wf
  obtain ⟨c, heq, hw', hr', hm⟩ := Compose.foldlM_addProduction_spec ps _ [] hps hw hu hr
    (List.Pairwise.nil)
  exact ⟨c, heq, hm, hr'.lookup_eq_get hw' hm⟩

theorem addProductions_lookup_aeOnly : (∀ p ∈ [aeOnly], p.Shaped) ∧
    ∃ c, [aeOnly].foldlM addProduction composeNew = some c ∧ (refBuild [aeOnly]).PrefixFree ∧
      ∀ s, c.lookup s = (refBuild [aeOnly]).get s :=
  ⟨aeOnly_shaped, addProductions_lookup _ aeOnly_shaped⟩

example : aeOnlyTable.lookup [0x61, 0x65] = some ⟨none, some 0xe6⟩ := by decide

example : (refBuild [aeOnly]).get [0x61, 0x65] = some ⟨none, some 0xe6⟩ := by decide

example : aeOnlyTable.lookup [0x61] = none := by decide

end XkbCompose
