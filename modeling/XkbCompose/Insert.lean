import XkbCompose.Edits

/-!
# XkbCompose.Insert

What `add_production` does to the keys of a table. Each edit leaves a bare leaf for the
sequence it was made for, in place of the keys that are prefixes of that sequence
(`Replaces`); the `for` loop chains such edits along the production (`addProductionLoop_spec`),
and the end of `add_production` puts the production's data on that leaf. A sequence that is
already a key, or a proper prefix of one, leaves the table as it was.

* `addProduction_spec`: from a well-formed table, `add_production` returns a well-formed table,
  and its keys are those of the reference insertion (`Inserts`).
-/

namespace XkbCompose
namespace Compose

/-- `c'` maps `S` to leaf data with no string and no keysym, drops the keys of `c` that are
prefixes of `S`, and keeps every other key of `c`. -/
def Replaces (c c' : Compose) (S : List Keysym) : Prop :=
  ∀ s d, c'.KeyOf s d ↔ (s = S ∧ d = ⟨none, none⟩) ∨ (c.KeyOf s d ∧ ¬ s <+: S)

theorem Replaces.trans {c c₁ c₂ : Compose} {S₁ S₂ : List Keysym} (h₁ : Replaces c c₁ S₁)
    (h₂ : Replaces c₁ c₂ S₂) (hp : S₁ <+: S₂) : Replaces c c₂ S₂ := by
  intro s d
  rw [h₂, h₁]
  constructor
  · rintro (h | ⟨(⟨rfl, -⟩ | ⟨hk, -⟩), hn⟩)
    · exact .inl h
    · exact absurd hp hn
    · exact .inr ⟨hk, hn⟩
  · rintro (h | ⟨hk, hn⟩)
    · exact .inl h
    · exact .inr ⟨.inr ⟨hk, fun h => hn (h.trans hp)⟩, hn⟩

variable {c : Compose} {e x : Nat} {k : Keysym}

theorem leafOf_fresh {c : Compose} {i : Nat} (h : c.node i = ⟨k, 0, 0, 0, noSymbol⟩) :
    c.leafOf i = ⟨none, none⟩ := by
  simp [leafOf, h]

theorem Shape.appendSibling_replaces (hs : c.Shape) (hu : c.PathsUnique) {h : Nat}
    {pre : List Keysym} (hpre : c.HeadFrom 0 pre h) (hce : c.InChain h e)
    (hn : (c.node e).next = 0) (hno : ∀ y, c.InChain h y → (c.node y).keysym ≠ k) :
    Replaces c (c.appendSibling e k) (pre ++ [k]) ∧ (c.appendSibling e k).PathsUnique := by
  have hf := hs.forward
  have h0 := hs.lt_length
  have hh := hpre.isHead hs
  have hhl := hs.head_lt hh
  have he := hce.lt_length hf hhl
  have absent : ∀ y, ¬ c.ReachFrom 0 (pre ++ [k]) y := by
    intro y hy
    rcases hpre with ⟨rfl, rfl⟩ | ⟨p, hp, rfl, hne⟩
    · cases hy with
      | last hc hk => exact hno _ hc hk
      | cons _ _ _ hr => exact hr.ne_nil rfl
    · obtain ⟨p', hp', _, hy'⟩ := hy.split hp.ne_nil (by simp)
      rw [← hs.reach_unique (.inl rfl) hp hp'] at hy'
      cases hy' with
      | last hc hk => exact hno _ hc hk
      | cons _ _ _ hr => exact hr.ne_nil rfl
  have new_eq : ∀ s0 h', c.HeadFrom 0 s0 h' → c.InChain h' e → s0 = pre := by
    intro s0 h' hs0 hc'
    have hh' := hs0.isHead hs
    rw [hc'.head_unique hf hs.parent hh' hh (hs.head_lt hh') hhl hce] at hs0
    exact hs.headFrom_unique hu hs0 hpre
  have hnew := appendSibling_reach_new (k := k) he hf hn h0 hpre hhl hce
  have inv := fun {s : List Keysym} {y : Nat} (h : (c.appendSibling e k).ReachFrom 0 s y) =>
    appendSibling_reach_inv he hf h0 h
  refine ⟨fun s d => ⟨?_, ?_⟩, fun s s' y h1 h2 => ?_⟩
  · rintro ⟨y, hy, hy0, hys, rfl⟩
    rcases inv hy with hy' | ⟨rfl, s0, h', rfl, hs0, hc'⟩
    · have hyl := hs.reach_lt (.inl rfl) hy'
      rw [appendSibling_successor he hyl] at hys
      refine .inr ⟨⟨y, hy', hy0, hys, (appendSibling_leafOf he hyl).symm⟩, fun hp => ?_⟩
      rcases List.prefix_concat_iff.1 hp with rfl | hp'
      · exact absurd hy' (absent y)
      · rcases hpre with ⟨rfl, -⟩ | ⟨p, hpp, rfl, hne⟩
        · exact hy'.ne_nil (List.prefix_nil.1 hp')
        · obtain rfl := hs.prefix_of_leaf hy' hys hpp hp'
          rw [hs.reach_unique (.inl rfl) hy' hpp] at hys
          exact hne hys
    · rw [new_eq s0 h' hs0 hc']
      exact .inl ⟨rfl, leafOf_fresh (appendSibling_new he)⟩
  · rintro (⟨rfl, rfl⟩ | ⟨⟨y, hy, hy0, hys, rfl⟩, -⟩)
    · exact ⟨_, hnew, by omega, by simp [he], leafOf_fresh (appendSibling_new he)⟩
    · have hyl := hs.reach_lt (.inl rfl) hy
      exact ⟨y, (appendSibling_extends he hn).reachFrom hf h0 hy, hy0,
        by rw [appendSibling_successor he hyl]; exact hys, appendSibling_leafOf he hyl⟩
  · rcases inv h1 with h1' | ⟨rfl, s0, h', rfl, hs0, hc'⟩ <;>
      rcases inv h2 with h2' | ⟨hy, s0', h'', rfl, hs0', hc''⟩
    · exact hu _ _ _ h1' h2'
    · have := hs.reach_lt (.inl rfl) h1'; omega
    · have := hs.reach_lt (.inl rfl) h2'; omega
    · rw [new_eq s0 h' hs0 hc', new_eq s0' h'' hs0' hc'']

theorem Shape.appendChild_replaces (hs : c.Shape) (hu : c.PathsUnique) {pre : List Keysym}
    (hpre : c.ReachFrom 0 pre x) (hsx : (c.node x).successor = 0) :
    Replaces c (c.appendChild x k) (pre ++ [k]) ∧ (c.appendChild x k).PathsUnique := by
  have hf := hs.forward
  have h0 := hs.lt_length
  have hx := hs.reach_lt (.inl rfl) hpre
  have hnew := appendChild_reach_new (k := k) hx hf hsx h0 hpre
  have inv := fun {s : List Keysym} {y : Nat} (h : (c.appendChild x k).ReachFrom 0 s y) =>
    appendChild_reach_inv hx hf hsx h0 h
  refine ⟨fun s d => ⟨?_, ?_⟩, fun s s' y h1 h2 => ?_⟩
  · rintro ⟨y, hy, hy0, hys, rfl⟩
    rcases inv hy with hy' | ⟨rfl, s0, rfl, hs0⟩
    · have hyl := hs.reach_lt (.inl rfl) hy'
      have hyx : y ≠ x := by
        rintro rfl; rw [appendChild_successor_self hx] at hys; omega
      rw [appendChild_successor hx hyl hyx] at hys
      refine .inr ⟨⟨y, hy', hy0, hys, (appendChild_leafOf hx hyl hyx).symm⟩, fun hp => ?_⟩
      rcases List.prefix_concat_iff.1 hp with rfl | hp'
      · obtain ⟨p, hp1, hp2, -⟩ := hy'.split hpre.ne_nil (by simp)
        rw [← hs.reach_unique (.inl rfl) hpre hp1] at hp2
        exact hp2 hsx
      · rw [hs.prefix_of_leaf hy' hys hpre hp'] at hy'
        exact hyx (hs.reach_unique (.inl rfl) hy' hpre)
    · rw [hu _ _ _ hs0 hpre]
      exact .inl ⟨rfl, leafOf_fresh (appendChild_new hx)⟩
  · rintro (⟨rfl, rfl⟩ | ⟨⟨y, hy, hy0, hys, rfl⟩, hnp⟩)
    · exact ⟨_, hnew, by omega, by simp [hx], leafOf_fresh (appendChild_new hx)⟩
    · have hyl := hs.reach_lt (.inl rfl) hy
      have hyx : y ≠ x := by
        rintro rfl; exact hnp ((hu _ _ _ hy hpre) ▸ List.prefix_append _ _)
      exact ⟨y, (appendChild_extends hx hsx).reachFrom hf h0 hy, hy0,
        by rw [appendChild_successor hx hyl hyx]; exact hys, appendChild_leafOf hx hyl hyx⟩
  · rcases inv h1 with h1' | ⟨rfl, s0, rfl, hs0⟩ <;> rcases inv h2 with h2' | ⟨hy, s0', rfl, hs0'⟩
    · exact hu _ _ _ h1' h2'
    · have := hs.reach_lt (.inl rfl) h1'; omega
    · have := hs.reach_lt (.inl rfl) h2'; omega
    · rw [hu _ _ _ hs0 hs0']

/-! ## The `for` loop -/

/-- Where the `for` loop of `add_production` may start, at the head `h` of the chain for the
keysym `k`: every leaf but `h` carries data, and `h` is a bare leaf only as a lone node for
`k` (a node the loop made itself). -/
def StartOk (c : Compose) (h : Nat) (k : Keysym) : Prop :=
  c.FullExcept h ∧
    (0 < h → (c.node h).successor = 0 → c.Bare h → (c.node h).next = 0 ∧ (c.node h).keysym = k)

/-- What the `for` loop leaves when it had to build part of the path for `S`: the keys of `c`
along `S` give way to a bare leaf `f` for `S`, the only bare leaf of the table. -/
structure Built (c c' : Compose) (S : List Keysym) (f : Nat) : Prop where
  replaces : Replaces c c' S
  reach : c'.ReachFrom 0 S f
  ne_zero : f ≠ 0
  leaf : (c'.node f).successor = 0
  bare : c'.Bare f
  full : c'.FullExcept f
  utf8 : c'.utf8 = c.utf8

theorem Built.trans {c c₁ c₂ : Compose} {S₁ S₂ : List Keysym} {f₁ f₂ : Nat}
    (h₁ : Built c c₁ S₁ f₁) (h₂ : Built c₁ c₂ S₂ f₂) (hp : S₁ <+: S₂) : Built c c₂ S₂ f₂ :=
  { h₂ with replaces := h₁.replaces.trans h₂.replaces hp, utf8 := h₂.utf8.trans h₁.utf8 }

theorem Shape.appendSibling_built (hs : c.Shape) (hu : c.PathsUnique) {h : Nat}
    {pre : List Keysym} (hpre : c.HeadFrom 0 pre h) (hst : c.StartOk h k) (hce : c.InChain h e)
    (hn : (c.node e).next = 0) (hk : k ≠ noSymbol)
    (hno : ∀ y, c.InChain h y → (c.node y).keysym ≠ k) :
    (c.appendSibling e k).Shape ∧ (c.appendSibling e k).PathsUnique ∧
      Built c (c.appendSibling e k) (pre ++ [k]) c.tree.length := by
  have hh := hpre.isHead hs
  have he := hce.lt_length hs.forward (hs.head_lt hh)
  obtain ⟨hrep, hu'⟩ := hs.appendSibling_replaces hu hpre hce hn hno
  refine ⟨hs.appendSibling he hs.forward hn hh hce hk hno, hu', hrep, ?_, by omega, by simp [he],
    by simp [Bare, he], fun i hi hil hin hsi hb => ?_, rfl⟩
  · exact appendSibling_reach_new he hs.forward hn hs.lt_length hpre (hs.head_lt hh) hce
  · simp only [appendSibling_length] at hil
    have hil' : i < c.tree.length := by omega
    rw [appendSibling_successor he hil'] at hsi
    rw [appendSibling_bare he hil'] at hb
    by_cases hih : i = h
    · subst hih
      exact hno i .head (hst.2 hi hsi hb).2
    · exact hst.1 i hi hil' hih hsi hb

theorem Shape.appendChild_built (hs : c.Shape) (hu : c.PathsUnique) {pre : List Keysym}
    (hpre : c.ReachFrom 0 pre x) (hx0 : x ≠ 0) (hsx : (c.node x).successor = 0)
    (hfx : c.FullExcept x) (hk : k ≠ noSymbol) :
    (c.appendChild x k).Shape ∧ (c.appendChild x k).PathsUnique ∧
      Built c (c.appendChild x k) (pre ++ [k]) c.tree.length ∧
      (c.appendChild x k).HeadFrom 0 pre c.tree.length ∧
      (c.appendChild x k).StartOk c.tree.length k := by
  have hx := hs.reach_lt (.inl rfl) hpre
  obtain ⟨hrep, hu'⟩ := hs.appendChild_replaces (k := k) hu hpre hsx
  have hfull : (c.appendChild x k).FullExcept c.tree.length := by
    intro i hi hil hin hsi hb
    simp only [appendChild_length] at hil
    have hil' : i < c.tree.length := by omega
    by_cases hix : i = x
    · subst hix; rw [appendChild_successor_self hx] at hsi; omega
    · rw [appendChild_successor hx hil' hix] at hsi
      rw [appendChild_bare hx hil' hix] at hb
      exact hfx i hi hil' hix hsi hb
  refine ⟨hs.appendChild hx hs.forward hx0 hsx hk, hu', ⟨hrep, ?_, by omega, by simp [hx],
    by simp [Bare, hx], hfull, rfl⟩, .inr ⟨x, ?_, by simp [hx], by omega⟩,
    hfull, fun _ _ _ => by simp [hx]⟩
  · exact appendChild_reach_new hx hs.forward hsx hs.lt_length hpre
  · exact (appendChild_extends hx hsx).reachFrom hs.forward hs.lt_length hpre

theorem FullExcept.move {g g' : Nat} (h : c.FullExcept g)
    (hg : 0 < g → (c.node g).successor = 0 → c.Bare g → g = g') : c.FullExcept g' := by
  intro i hi hl hne hs hb
  by_cases e : i = g
  · subst e; exact hne (hg hi hs hb)
  · exact h i hi hl e hs hb

theorem StartOk.lone {h : Nat} (hst : c.StartOk h k) (hx : c.InChain h x) (h0 : 0 < h)
    (hs : (c.node h).successor = 0) (hb : c.Bare h) : x = h :=
  hx.cases_head.resolve_right fun ⟨hne, _⟩ => hne (hst.2 h0 hs hb).1

/-- The `for` loop of `add_production` over `k :: ks`, from the head `h` of the chain that `pre`
leads to. When `k :: ks` is already a path from `h`, the table is left as it was and the loop
stops at the end of that path; otherwise the loop builds the missing part of the path and
stops at a bare leaf for `pre ++ k :: ks`. -/
theorem Shape.addProductionLoop_spec (k : Keysym) (ks : List Keysym) :
    ∀ (c : Compose) (h : Nat) (pre : List Keysym), c.Shape → c.PathsUnique →
      (∀ k' ∈ k :: ks, k' ≠ noSymbol) → c.HeadFrom 0 pre h → c.StartOk h k →
      ∃ c' f, c.addProductionLoop (k :: ks) h = some (c', f) ∧ c'.Shape ∧ c'.PathsUnique ∧
        ((c' = c ∧ c.ReachFrom h (k :: ks) f) ∨
          ((∀ y, ¬ c.ReachFrom h (k :: ks) y) ∧ Built c c' (pre ++ k :: ks) f)) := by
  induction ks generalizing k with
  | nil =>
    intro c h pre hs hu hk hpre hst
    have hhl := hs.head_lt (hpre.isHead hs)
    rcases findOrAppend_spec hs.forward k (c.tree.length + 1) h hhl (by omega) with
      ⟨x, hx, hkx, heq⟩ | ⟨hno, e, hce, hn, heq⟩
    · exact ⟨c, x, heq, hs, hu, .inl ⟨rfl, .last hx hkx⟩⟩
    · obtain ⟨hs', hu', hb⟩ := hs.appendSibling_built hu hpre hst hce hn (hk k (by simp)) hno
      refine ⟨_, _, heq, hs', hu', .inr ⟨fun y hy => ?_, hb⟩⟩
      cases hy with
      | last hc hk' => exact hno _ hc hk'
      | cons _ _ _ hr => exact hr.ne_nil rfl
  | cons k' ks ih =>
    intro c h pre hs hu hk hpre hst
    have hh := hpre.isHead hs
    have hhl := hs.head_lt hh
    have hk' : ∀ k'' ∈ k' :: ks, k'' ≠ noSymbol := fun k'' hm => hk k'' (.tail _ hm)
    -- a child edit at a leaf `x` for `P`, then the rest of the loop from the new node
    have child : ∀ (c₁ : Compose) x P, c₁.Shape → c₁.PathsUnique → c₁.ReachFrom 0 P x → x ≠ 0 →
        (c₁.node x).successor = 0 → c₁.FullExcept x →
        ∃ c' f, (c₁.appendChild x k').addProductionLoop (k' :: ks) c₁.tree.length = some (c', f) ∧
          c'.Shape ∧ c'.PathsUnique ∧ Built c₁ c' (P ++ k' :: ks) f := by
      intro c₁ x P hs₁ hu₁ hP hx0 hsx hfx
      have hxl := hs₁.reach_lt (.inl rfl) hP
      obtain ⟨hs₂, hu₂, hb₂, hh₂, hst₂⟩ :=
        hs₁.appendChild_built hu₁ hP hx0 hsx hfx (hk' k' (.head _))
      obtain ⟨c', f, heq, hs', hu', hr⟩ := ih k' _ _ P hs₂ hu₂ hk' hh₂ hst₂
      refine ⟨c', f, heq, hs', hu', ?_⟩
      rcases hr with ⟨rfl, hr⟩ | ⟨-, hb⟩
      · -- the new node is a lone leaf, so the rest of the production is `[k']`
        obtain ⟨rfl, hks⟩ := hr.of_lone (by simp [hxl]) (by simp [hxl])
        obtain rfl : ks = [] := (List.cons.inj hks).2
        exact hb₂
      · exact hb₂.trans hb ⟨ks, by simp⟩
    rw [addProductionLoop_cons_cons]
    rcases findOrAppend_spec hs.forward k (c.tree.length + 1) h hhl (by omega) with
      ⟨x, hx, hkx, heq⟩ | ⟨hno, e, hce, hn, heq⟩
    · -- `k` is on the chain, at `x`
      have hP : c.ReachFrom 0 (pre ++ [k]) x := hpre.reach_append hx hkx
      have via_x : ∀ y, c.ReachFrom h (k :: k' :: ks) y →
          (c.node x).successor ≠ 0 ∧ c.ReachFrom (c.node x).successor (k' :: ks) y := by
        intro y hy
        obtain ⟨i, hi, hki, hsi, hr⟩ := hy.cons_inv (by simp)
        obtain rfl := hs.distinct h hh i x hi hx (hki.trans hkx.symm)
        exact ⟨hsi, hr⟩
      rw [heq, Option.some_bind, descend_eq]
      by_cases hsx : (c.node x).successor = 0
      · rw [if_pos hsx]
        have hx0 : x ≠ 0 := hs.ne_zero_of_keysym (hkx ▸ hk k (.head _))
        obtain ⟨c', f, heq', hs', hu', hb⟩ := child c x (pre ++ [k]) hs hu hP hx0 hsx
          (hst.1.move fun h0 hs0 hb0 => (hst.lone hx h0 hs0 hb0).symm)
        exact ⟨c', f, heq', hs', hu', .inr ⟨fun y hy => (via_x y hy).1 hsx, by simpa using hb⟩⟩
      · rw [if_neg hsx]
        have hxl := hx.lt_length hs.forward hhl
        have hlt := hs.succ_lt hxl hsx
        have hle := (hx.le hs.forward hhl).1
        have hfs : c.FullExcept (c.node x).successor := hst.1.move fun h0 hs0 hb0 =>
          absurd (hst.lone hx h0 hs0 hb0 ▸ hs0) hsx
        obtain ⟨c', f, heq', hs', hu', hr⟩ := ih k' c _ (pre ++ [k]) hs hu hk'
          (.inr ⟨x, hP, rfl, hsx⟩)
          ⟨hfs, fun h0 hss hb => absurd hb (hst.1 _ h0 hlt.2 (by omega) hss)⟩
        refine ⟨c', f, heq', hs', hu', ?_⟩
        rcases hr with ⟨rfl, hr⟩ | ⟨hno', hb⟩
        · exact .inl ⟨rfl, .cons hx hkx hsx hr⟩
        · exact .inr ⟨fun y hy => hno' y (via_x y hy).2, by simpa using hb⟩
    · -- `k` is not on the chain: a sibling edit, then a child edit
      obtain ⟨hs₁, hu₁, hb₁⟩ := hs.appendSibling_built hu hpre hst hce hn (hk k (.head _)) hno
      rw [heq, Option.some_bind, descend_eq, if_pos hb₁.leaf]
      obtain ⟨c', f, heq', hs', hu', hb⟩ :=
        child _ _ _ hs₁ hu₁ hb₁.reach hb₁.ne_zero hb₁.leaf hb₁.full
      refine ⟨c', f, heq', hs', hu', .inr ⟨fun y hy => ?_, by simpa using hb₁.trans hb ⟨k' :: ks, rfl⟩⟩⟩
      obtain ⟨i, hi, hki, -⟩ := hy.cons_inv (by simp)
      exact hno i hi hki

/-! ## The end of `add_production` -/

section Leaf

variable {f j : Nat} (p : Production)

theorem addLeaf_of_not_bare (h : (c.node f).successor ≠ 0 ∨ ¬ c.Bare f) : c.addLeaf f p = c := by
  unfold addLeaf
  split_ifs <;> simp_all [Bare]

variable (hfl : f < c.tree.length) (hs : (c.node f).successor = 0) (hb : c.Bare f)
include hfl hs hb

omit hfl hs hb in
@[simp] theorem addLeaf_length : (c.addLeaf f p).tree.length = c.tree.length := by
  unfold addLeaf; split_ifs <;> simp

omit hfl in
theorem addLeaf_utf8 :
    (c.addLeaf f p).utf8 = if p.hasString then c.utf8 ++ (p.string ++ [0]) else c.utf8 := by
  obtain ⟨hu, hk⟩ := hb
  obtain ⟨_, _, _, _ | _, _ | _, _, _, hn⟩ := p <;>
    simp [addLeaf, hs, hu, hk, cstr_eq_self hn]

theorem addLeaf_node_self : (c.addLeaf f p).node f =
    { c.node f with utf8 := if p.hasString then c.utf8.length else 0,
                    ks := if p.hasKeysym then p.keysym else noSymbol } := by
  obtain ⟨hu, hk⟩ := hb
  obtain ⟨_, _, _, _ | _, _ | _, _, _, _⟩ := p <;> simp [addLeaf, hs, hu, hk, hfl]
  -- no string and no keysym: the leaf stays as it was
  cases h : c.node f
  simp_all

omit hfl in
theorem addLeaf_node_ne (hj : j ≠ f) : (c.addLeaf f p).node j = c.node j := by
  obtain ⟨hu, hk⟩ := hb
  obtain ⟨_, _, _, _ | _, _ | _, _, _, _⟩ := p <;>
    simp [addLeaf, hs, hu, hk, node_setNode, Ne.symm hj]

theorem addLeaf_sameLinks : SameLinks c (c.addLeaf f p) := by
  refine ⟨addLeaf_length p, fun j => ?_, fun j => ?_, fun j => ?_⟩
  all_goals
    by_cases h : j = f
    · subst h; rw [addLeaf_node_self p hfl hs hb]
    · rw [addLeaf_node_ne p hs hb h]

omit hfl in
theorem addLeaf_stringAt (hbl : c.BlobOk) {o : Nat} (ho : o < c.utf8.length) :
    (c.addLeaf f p).stringAt o = c.stringAt o := by
  unfold stringAt
  rw [addLeaf_utf8 p hs hb]
  split_ifs
  · exact hbl.stringAt_append ho _
  · rfl

omit hfl in
theorem addLeaf_leafOf (hbl : c.BlobOk) (hj : j ≠ f) (hjl : j < c.tree.length) :
    (c.addLeaf f p).leafOf j = c.leafOf j := by
  simp only [leafOf, addLeaf_node_ne p hs hb hj, addLeaf_stringAt p hs hb hbl (hbl.2.2 j hjl)]

theorem addLeaf_leafOf_self (hbl : c.BlobOk) (hp : p.Shaped) :
    (c.addLeaf f p).leafOf f = p.result := by
  have h0 := hbl.length_pos
  simp only [leafOf, stringAt, addLeaf_node_self p hfl hs hb, addLeaf_utf8 p hs hb,
    Production.result]
  cases hh : p.hasString <;> cases hk' : p.hasKeysym <;>
    simp [Nat.ne_of_gt h0, hk', hp.keysym_ne, cstr_append_zero p.string_nul_free]

theorem addLeaf_not_bare (hbl : c.BlobOk) (hp : p.Shaped) : ¬ (c.addLeaf f p).Bare f := by
  have h0 := hbl.length_pos
  simp only [Bare, addLeaf_node_self p hfl hs hb]
  rcases hp.rhs with h | h
  · simp [h, Nat.ne_of_gt h0]
  · simp [h, hp.keysym_ne h]

omit hfl in
theorem addLeaf_fullExcept (h : c.FullExcept f) : (c.addLeaf f p).FullExcept f := by
  intro i hi hil hif hsi
  have hn := addLeaf_node_ne p hs hb hif
  simp only [Bare, hn] at hsi ⊢
  exact h i hi (by rwa [addLeaf_length] at hil) hif hsi

theorem addLeaf_blobOk (hbl : c.BlobOk) : (c.addLeaf f p).BlobOk := by
  refine ⟨?_, ?_, fun i hil => ?_⟩
  · rw [addLeaf_utf8 p hs hb]; split_ifs
    · cases hu : c.utf8 <;> simp_all [BlobOk]
    · exact hbl.1
  · rw [addLeaf_utf8 p hs hb]; split_ifs
    · simp [← List.append_assoc]
    · exact hbl.2.1
  · rw [addLeaf_length] at hil
    rw [addLeaf_utf8 p hs hb]
    by_cases hif : i = f
    · subst hif
      rw [addLeaf_node_self p hfl hs hb]
      have := hbl.length_pos
      split_ifs <;> simp <;> omega
    · rw [addLeaf_node_ne p hs hb hif]
      have := hbl.2.2 i hil
      split_ifs <;> simp <;> omega

theorem addLeaf_stringsShort (hbl : c.BlobOk) (hss : c.StringsShort) :
    (c.addLeaf f p).StringsShort := by
  intro i hil
  rw [addLeaf_length] at hil
  by_cases hif : i = f
  · subst hif
    rw [addLeaf_node_self p hfl hs hb]
    dsimp only
    split_ifs
    · simp only [stringAt, addLeaf_utf8 p hs hb, if_pos ‹_›, List.drop_left,
        cstr_append_zero p.string_nul_free]
      have := p.string_length_lt
      omega
    · rw [addLeaf_stringAt p hs hb hbl hbl.length_pos, hbl.stringAt_zero]; simp
  · rw [addLeaf_node_ne p hs hb hif, addLeaf_stringAt p hs hb hbl (hbl.2.2 i hil)]
    exact hss i hil

/-- Filling a bare leaf other than the root keeps the shape of the table. -/
theorem Shape.addLeaf (hsh : c.Shape) (hf0 : f ≠ 0) : (c.addLeaf f p).Shape := by
  have hl := addLeaf_sameLinks p hfl hs hb
  have hne : ∀ {i}, i ≠ f → (c.addLeaf f p).node i = c.node i := addLeaf_node_ne p hs hb
  refine ⟨⟨?_, ?_, ?_, ?_, fun i hi hil => ?_⟩, hl.linksForward hsh.forward,
    hl.singleParent hsh.parent, hl.chainsDistinct hsh.distinct, fun i hil hsi => ?_,
    addLeaf_blobOk p hfl hs hb hsh.blob, addLeaf_stringsShort p hfl hs hb hsh.blob hsh.short⟩
  · rw [hl.length]; exact hsh.lt_length
  · rw [hl.keysym]; exact hsh.root.2.1
  · rw [hl.successor]; exact hsh.root.2.2.1
  · unfold Bare; rw [hne (Ne.symm hf0)]; exact hsh.root.2.2.2.1
  · rw [hl.keysym]; exact hsh.root.2.2.2.2 i hi (hl.length ▸ hil)
  · rw [hl.successor] at hsi
    unfold Bare; rw [hne fun h => hsi (by rw [h]; exact hs)]; exact hsh.bare i (hl.length ▸ hil) hsi

theorem Shape.addLeaf_keyOf (hsh : c.Shape) (hu : c.PathsUnique) {S : List Keysym}
    (hS : c.ReachFrom 0 S f) (hf0 : f ≠ 0) (hp : p.Shaped) (s : List Keysym) (d : Leaf) :
    (c.addLeaf f p).KeyOf s d ↔ (s = S ∧ d = p.result) ∨ (c.KeyOf s d ∧ s ≠ S) := by
  have hl := addLeaf_sameLinks p hfl hs hb
  constructor
  · rintro ⟨x, hx, hx0, hsx, rfl⟩
    have hx' := hl.symm.reachFrom hx
    by_cases hxf : x = f
    · subst hxf
      exact .inl ⟨hu _ _ _ hx' hS, addLeaf_leafOf_self p hfl hs hb hsh.blob hp⟩
    · refine .inr ⟨⟨x, hx', hx0, hl.successor x ▸ hsx,
        (addLeaf_leafOf p hs hb hsh.blob hxf (hsh.reach_lt (.inl rfl) hx')).symm⟩, ?_⟩
      rintro rfl
      exact hxf (hsh.reach_unique (.inl rfl) hx' hS)
  · rintro (⟨rfl, rfl⟩ | ⟨⟨x, hx, hx0, hsx, rfl⟩, hne⟩)
    · exact ⟨f, hl.reachFrom hS, hf0, (hl.successor f).trans hs,
        addLeaf_leafOf_self p hfl hs hb hsh.blob hp⟩
    · have hxf : x ≠ f := by rintro rfl; exact hne (hu _ _ _ hx hS)
      exact ⟨x, hl.reachFrom hx, hx0, (hl.successor x).trans hsx,
        addLeaf_leafOf p hs hb hsh.blob hxf (hsh.reach_lt (.inl rfl) hx)⟩

end Leaf

/-! ## `add_production` -/

theorem Shape.exists_key_of_reach (hsh : c.Shape) {S : List Keysym} {f : Nat}
    (hS : c.ReachFrom 0 S f) (hf0 : f ≠ 0) : ∃ s d, c.KeyOf s d ∧ S <+: s := by
  by_cases hsf : (c.node f).successor = 0
  · exact ⟨S, _, ⟨f, hS, hf0, hsf, rfl⟩, List.prefix_refl S⟩
  · obtain ⟨t, y, -, hy, hy0, hsy⟩ := hsh.exists_key _ f S le_rfl hS hsf
    exact ⟨S ++ t, _, ⟨y, hy, hy0, hsy, rfl⟩, List.prefix_append S t⟩

theorem not_exists_key_of_not_reach {S : List Keysym} (hS : S ≠ [])
    (hno : ∀ y, ¬ c.ReachFrom 0 S y) : ¬ ∃ s d, c.KeyOf s d ∧ S <+: s := by
  rintro ⟨s, d, ⟨x, hx, -⟩, t, rfl⟩
  by_cases ht : t = []
  · subst ht; rw [List.append_nil] at hx; exact hno x hx
  · obtain ⟨q, hq, -⟩ := hx.split hS ht
    exact hno q hq

/-- What `add_production` does to the keys of a table, as the reference insertion does it:
when the production's sequence `S` is a prefix of a key (the key itself included), nothing;
otherwise the keys that are prefixes of `S` give way to `S`, which maps to the production's
data. -/
structure Inserts (c c' : Compose) (S : List Keysym) (r : Leaf) : Prop where
  covered : (∃ s d, c.KeyOf s d ∧ S <+: s) → ∀ s d, c'.KeyOf s d ↔ c.KeyOf s d
  fresh : (¬ ∃ s d, c.KeyOf s d ∧ S <+: s) →
    ∀ s d, c'.KeyOf s d ↔ (s = S ∧ d = r) ∨ (c.KeyOf s d ∧ ¬ s <+: S)

/-- `add_production` on a well-formed table, for a production of the shape `parse` builds:
it returns a well-formed table, and it changes the keys as the reference insertion does. -/
theorem Wf.addProduction_spec {p : Production} (hw : c.Wf) (hu : c.PathsUnique)
    (hp : p.Shaped) :
    ∃ c', addProduction c p = some c' ∧ c'.Wf ∧ c'.PathsUnique ∧ Inserts c c' p.lhs p.result := by
  obtain ⟨k, ks, hl⟩ := List.exists_cons_of_ne_nil hp.lhs_ne_nil
  have hk : ∀ k' ∈ k :: ks, k' ≠ noSymbol := hl ▸ hp.lhs_ne
  obtain ⟨c', f, heq, hs', hu', hr⟩ := hw.toShape.addProductionLoop_spec k ks c 0 [] hu hk
    (.inl ⟨rfl, rfl⟩) ⟨hw.full.fullExcept 0, fun h0 => absurd h0 (lt_irrefl 0)⟩
  rw [addProduction, hl, heq, Option.map_some']
  rcases hr with ⟨hc, hS⟩ | ⟨hno, hb⟩
  · -- the sequence is already a path of the table: the line is skipped
    subst c'
    have hf0 : f ≠ 0 := by
      rintro rfl
      exact hk k (.head _) (List.cons.inj (hw.reach_zero hS)).1
    have hfl := hw.reach_lt (.inl rfl) hS
    have hskip : c.addLeaf f p = c := addLeaf_of_not_bare p <| by
      by_cases hsf : (c.node f).successor = 0
      · exact .inr (hw.full f (Nat.pos_of_ne_zero hf0) hfl hsf)
      · exact .inl hsf
    exact ⟨c, congrArg some hskip, hw, hu, ⟨fun _ _ _ => Iff.rfl,
      fun h => absurd (hw.exists_key_of_reach hS hf0) h⟩⟩
  · -- the loop built a bare leaf for the sequence: the production's data goes there
    rw [List.nil_append] at hb
    have hfl := hs'.reach_lt (.inl rfl) hb.reach
    have hkey := hs'.addLeaf_keyOf p hfl hb.leaf hb.bare hu' hb.reach hb.ne_zero hp
    refine ⟨_, rfl, ⟨hs'.addLeaf p hfl hb.leaf hb.bare hb.ne_zero,
      (addLeaf_fullExcept p hb.leaf hb.bare hb.full).leavesFull fun _ =>
        addLeaf_not_bare p hfl hb.leaf hb.bare hs'.blob hp⟩,
      (addLeaf_sameLinks p hfl hb.leaf hb.bare).pathsUnique hu',
      ⟨fun h => absurd h (not_exists_key_of_not_reach (by simp) hno), fun _ s d => ?_⟩⟩
    rw [hkey, hb.replaces]
    constructor
    · rintro (h | ⟨⟨hs, -⟩ | h, hne⟩)
      · exact .inl h
      · exact absurd hs hne
      · exact .inr h
    · rintro (h | ⟨h, hn⟩)
      · exact .inl h
      · exact .inr ⟨.inr ⟨h, hn⟩, fun hs => hn (hs ▸ List.prefix_refl _)⟩

end Compose
end XkbCompose
