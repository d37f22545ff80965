import XkbCompose.Invariant

/-!
# XkbCompose.Edits

The two edits `add_production` makes. Each appends one node and links it from one field of an
old node (`Grows`); what that does to the invariant is proved once, for `Grows`, and each edit
adds what is its own: its nodes, its chains and its paths.

* `Grows.rootOk`, `Grows.linksForward`, `Grows.singleParent`, `Grows.internalBare`,
  `Grows.blobOk`, `Grows.stringsShort`: one node more and one link more keep these parts of
  the invariant.
* `appendSibling`: the chain of `e` gains the new node at its end. The only new path leads to
  the new node, through a chain that contains `e` (`appendSibling_reach_inv`).
* `appendChild`: `x` gains the new node as its successor and loses its leaf data. The only new
  path leads to the new node, through `x` (`appendChild_reach_inv`).
* `Shape.appendSibling`, `Shape.appendChild`: both keep the invariant, when the new sibling's
  keysym is not on the chain already and the new child's parent is a leaf.
-/

namespace XkbCompose
namespace Compose

/-- `c'` is `c` with a node for `k` appended and linked from field `b` of node `p`. Every other
link and every keysym is kept, and every node keeps its leaf data but `p` when it gains a
successor, which loses it. -/
structure Grows (c c' : Compose) (p : Nat) (b : Bool) (k : Keysym) : Prop where
  length : c'.tree.length = c.tree.length + 1
  utf8 : c'.utf8 = c.utf8
  new : c'.node c.tree.length = ⟨k, 0, 0, 0, noSymbol⟩
  keysym : ∀ i < c.tree.length, (c'.node i).keysym = (c.node i).keysym
  link : ∀ q < c.tree.length, ∀ b',
    c'.link q b' = if q = p ∧ b = b' then c.tree.length else c.link q b'
  leaf : ∀ i < c.tree.length, if i = p ∧ b = true then c'.Bare i
    else (c'.node i).utf8 = (c.node i).utf8 ∧ (c'.node i).ks = (c.node i).ks

variable {c : Compose} {e x i : Nat} {k : Keysym}

theorem linksForward_iff : c.LinksForward ↔
    ∀ i < c.tree.length, ∀ b, c.link i b = 0 ∨ i < c.link i b ∧ c.link i b < c.tree.length := by
  simp [LinksForward, link, Bool.forall_bool]

/-! ## One node more, one link more -/

section Grows

variable {c' : Compose} {p : Nat} {b : Bool} (g : c.Grows c' p b k)
include g

theorem Grows.lt_or_new (hi : i < c'.tree.length) : i < c.tree.length ∨ i = c.tree.length := by
  rw [g.length] at hi; omega

theorem Grows.link_new (b' : Bool) : c'.link c.tree.length b' = 0 := by
  cases b' <;> simp [Compose.link, g.new]

theorem Grows.next (hi : i < c.tree.length) :
    (c'.node i).next = if i = p ∧ b = false then c.tree.length else (c.node i).next :=
  g.link i hi false

theorem Grows.successor (hi : i < c.tree.length) (h : ¬(i = p ∧ b = true)) :
    (c'.node i).successor = (c.node i).successor := by
  simpa [Compose.link, h] using g.link i hi true

theorem Grows.bare (hi : i < c.tree.length) (h : c.Bare i) : c'.Bare i := by
  have hl := g.leaf i hi
  split_ifs at hl
  · exact hl
  · exact ⟨hl.1.trans h.1, hl.2.trans h.2⟩

theorem Grows.utf8_cases (hi : i < c'.tree.length) :
    (c'.node i).utf8 = 0 ∨ i < c.tree.length ∧ (c'.node i).utf8 = (c.node i).utf8 := by
  rcases g.lt_or_new hi with hi | rfl
  · have hl := g.leaf i hi
    split_ifs at hl
    · exact .inl hl.1
    · exact .inr ⟨hi, hl.1⟩
  · simp [g.new]

theorem Grows.stringAt_eq (o : Nat) : c'.stringAt o = c.stringAt o := by
  rw [stringAt, stringAt, g.utf8]

theorem Grows.rootOk (hr : c.RootOk) (hk : k ≠ noSymbol) (hp0 : p = 0 → b = false) :
    c'.RootOk := by
  obtain ⟨h0, hk0, hs0, hb0, hne⟩ := hr
  refine ⟨by rw [g.length]; omega, (g.keysym 0 h0).trans hk0,
    (g.successor h0 fun h => by simp [hp0 h.1.symm] at h).trans hs0, g.bare h0 hb0,
    fun i hi hil => ?_⟩
  rcases g.lt_or_new hil with hil | rfl
  · rw [g.keysym i hil]; exact hne i hi hil
  · rw [g.new]; exact hk

theorem Grows.linksForward (hf : c.LinksForward) : c'.LinksForward := by
  rw [linksForward_iff] at hf ⊢
  intro i hi b'
  rcases g.lt_or_new hi with hi | rfl
  · rw [g.length, g.link i hi]
    split_ifs
    · omega
    · have := hf i hi b'; omega
  · exact .inl (g.link_new b')

/-- The new link, which replaces a missing one, is the only link into the new node. -/
theorem Grows.singleParent (hf : c.LinksForward) (hp : p < c.tree.length)
    (h0 : c.link p b = 0) (hsp : c.SingleParent) : c'.SingleParent := by
  -- a link of `c'` into a node other than the root is the new link or a link of `c`
  have back : ∀ q b' j, q < c'.tree.length → c'.link q b' = j → 0 < j →
      (q = p ∧ b = b' ∧ j = c.tree.length) ∨ (q < c.tree.length ∧ c.link q b' = j) := by
    intro q b' j hq hqj hj
    rcases g.lt_or_new hq with hq | rfl
    · rw [g.link q hq] at hqj
      split_ifs at hqj with h
      · exact .inl ⟨h.1, h.2, hqj.symm⟩
      · exact .inr ⟨hq, hqj⟩
    · rw [g.link_new] at hqj; omega
  intro j hj hjl
  rcases g.lt_or_new hjl with hjl | rfl
  · obtain ⟨⟨q, b'⟩, ⟨hq, hqj⟩, huniq⟩ := hsp j hj hjl
    dsimp only at hq hqj
    refine ⟨(q, b'), ⟨show q < _ by rw [g.length]; omega, ?_⟩, ?_⟩
    · rw [g.link q hq, if_neg]
      · exact hqj
      · rintro ⟨rfl, rfl⟩; omega
    · rintro ⟨q', b''⟩ ⟨hq', hqj'⟩
      rcases back q' b'' j hq' hqj' hj with ⟨-, -, rfl⟩ | h
      · omega
      · exact huniq _ h
  · refine ⟨(p, b), ⟨show p < _ by rw [g.length]; omega, by simp [g.link p hp]⟩, ?_⟩
    rintro ⟨q', b''⟩ ⟨hq', hqj'⟩
    rcases back q' b'' _ hq' hqj' hj with ⟨rfl, rfl, -⟩ | ⟨hq, hqj⟩
    · rfl
    · have := linksForward_iff.1 hf q' hq b''; omega

theorem Grows.internalBare (h : c.InternalBare) : c'.InternalBare := by
  intro i hi hsi
  rcases g.lt_or_new hi with hi | rfl
  · by_cases hpb : i = p ∧ b = true
    · have hl := g.leaf i hi
      rwa [if_pos hpb] at hl
    · rw [g.successor hi hpb] at hsi
      exact g.bare hi (h i hi hsi)
  · simp [g.new] at hsi

theorem Grows.blobOk (hb : c.BlobOk) : c'.BlobOk := by
  refine ⟨g.utf8 ▸ hb.1, g.utf8 ▸ hb.2.1, fun i hi => ?_⟩
  rw [g.utf8]
  rcases g.utf8_cases hi with h | ⟨hi, h⟩ <;> rw [h]
  exacts [hb.length_pos, hb.2.2 i hi]

theorem Grows.stringsShort (hb : c.BlobOk) (hs : c.StringsShort) : c'.StringsShort := by
  intro i hi
  rw [g.stringAt_eq]
  rcases g.utf8_cases hi with h | ⟨hi, h⟩ <;> rw [h]
  · simp [hb.stringAt_zero]
  · exact hs i hi

theorem Grows.isHead_inv {H : Nat} (hH : c'.IsHead H) :
    c.IsHead H ∨ b = true ∧ H = c.tree.length := by
  rcases hH with rfl | ⟨q, hq, hqs⟩
  · exact .inl (.inl rfl)
  rcases g.lt_or_new hq with hq | rfl
  · change c'.link q true = H at hqs
    rw [g.link q hq] at hqs
    split_ifs at hqs with h
    · exact .inr ⟨h.2, hqs.symm⟩
    · exact .inl (.inr ⟨q, hq, hqs⟩)
  · simp [g.new] at hqs
    exact .inl (.inl hqs.symm)

theorem Grows.inChain_inv (hf : c.LinksForward) {H y : Nat} (hH : H < c.tree.length)
    (h : c'.InChain H y) : c.InChain H y ∨ (b = false ∧ c.InChain H p ∧ y = c.tree.length) := by
  induction h with
  | head => exact .inl .head
  | @next i _ hni ih =>
    rcases ih with hc | ⟨rfl, -, rfl⟩
    · rw [g.next (hc.lt_length hf hH)] at hni ⊢
      split_ifs at hni ⊢ with hip
      · obtain ⟨rfl, rfl⟩ := hip
        exact .inr ⟨rfl, hc, rfl⟩
      · exact .inl (.next hc hni)
    · simp [g.new] at hni

end Grows

/-! ## `appendSibling` -/

section Sibling

variable (he : e < c.tree.length)
include he

theorem appendSibling_node_lt (hi : i < c.tree.length) :
    (c.appendSibling e k).node i =
      { c.node i with next := if i = e then c.tree.length else (c.node i).next } := by
  rw [appendSibling_node he]
  by_cases hie : i = e
  · subst hie; simp
  · simp [hie, Nat.ne_of_lt hi]

theorem appendSibling_keysym (hi : i < c.tree.length) :
    ((c.appendSibling e k).node i).keysym = (c.node i).keysym := by
  rw [appendSibling_node_lt he hi]

theorem appendSibling_successor (hi : i < c.tree.length) :
    ((c.appendSibling e k).node i).successor = (c.node i).successor := by
  rw [appendSibling_node_lt he hi]

theorem appendSibling_next (hi : i < c.tree.length) (hie : i ≠ e) :
    ((c.appendSibling e k).node i).next = (c.node i).next := by
  rw [appendSibling_node_lt he hi, if_neg hie]

@[simp] theorem appendSibling_next_self : ((c.appendSibling e k).node e).next = c.tree.length := by
  rw [appendSibling_node_lt he he, if_pos rfl]

theorem appendSibling_bare (hi : i < c.tree.length) :
    (c.appendSibling e k).Bare i ↔ c.Bare i := by
  rw [Bare, Bare, appendSibling_node_lt he hi]

theorem appendSibling_leafOf (hi : i < c.tree.length) :
    (c.appendSibling e k).leafOf i = c.leafOf i := by
  rw [leafOf, leafOf, stringAt, stringAt, appendSibling_utf8, appendSibling_node_lt he hi]

@[simp] theorem appendSibling_new :
    (c.appendSibling e k).node c.tree.length = ⟨k, 0, 0, 0, noSymbol⟩ := by
  simp [appendSibling_node he, Nat.ne_of_gt he]

theorem appendSibling_grows : c.Grows (c.appendSibling e k) e false k where
  length := appendSibling_length ..
  utf8 := rfl
  new := appendSibling_new he
  keysym _ hi := appendSibling_keysym he hi
  link q hq b := by cases b <;> simp [link, appendSibling_node_lt he hq]
  leaf i hi := by simp [appendSibling_node_lt he hi]

theorem appendSibling_extends (hn : (c.node e).next = 0) : c.Extends (c.appendSibling e k) where
  length_le := by simp
  keysym _ hi := appendSibling_keysym he hi
  next j hj hne := appendSibling_next he hj (by rintro rfl; exact hne hn)
  successor _ hi _ := appendSibling_successor he hi

variable (hf : c.LinksForward)
include hf

theorem appendSibling_inChain_inv {H y : Nat} (hH : H < c.tree.length)
    (h : (c.appendSibling e k).InChain H y) :
    c.InChain H y ∨ (c.InChain H e ∧ y = c.tree.length) :=
  ((appendSibling_grows he).inChain_inv hf hH h).imp_right And.right

theorem appendSibling_reach_inv {H y : Nat} {s : List Keysym} (hH : H < c.tree.length)
    (h : (c.appendSibling e k).ReachFrom H s y) :
    c.ReachFrom H s y ∨
      (y = c.tree.length ∧ ∃ s0 h', s = s0 ++ [k] ∧ c.HeadFrom H s0 h' ∧ c.InChain h' e) := by
  induction h with
  | last hc hk =>
    rcases appendSibling_inChain_inv he hf hH hc with hc0 | ⟨hce, rfl⟩
    · exact .inl (.last hc0 (by rwa [appendSibling_keysym he (hc0.lt_length hf hH)] at hk))
    · simp only [appendSibling_new he] at hk
      exact .inr ⟨rfl, [], _, by simp [hk], .inl ⟨rfl, rfl⟩, hce⟩
  | @cons H i x k0 t hc hk hsc _ ih =>
    rcases appendSibling_inChain_inv he hf hH hc with hc | ⟨hc', rfl⟩
    · have hil := hc.lt_length hf hH
      rw [appendSibling_keysym he hil] at hk
      rw [appendSibling_successor he hil] at hsc ih
      have hlt := (hf i hil).2.resolve_left hsc
      rcases ih hlt.2 with h | ⟨rfl, s0, h', rfl, hhd, hce⟩
      · exact .inl (.cons hc hk hsc h)
      · exact .inr ⟨rfl, k0 :: s0, h', rfl, hhd.cons hc hk hsc, hce⟩
    · simp [he] at hsc

theorem appendSibling_chainsDistinct (hs : c.Shape) {h : Nat} (hh : c.IsHead h)
    (hce : c.InChain h e) (hno : ∀ y, c.InChain h y → (c.node y).keysym ≠ k) :
    (c.appendSibling e k).ChainsDistinct := by
  have g := appendSibling_grows (k := k) he
  intro H hH i j hi hj hij
  have hH' := (g.isHead_inv hH).resolve_right (by simp)
  have hHl := hs.head_lt hH'
  -- a node of the chain from `H` other than the new one never matches `k`
  have old : ∀ y, c.InChain H y → c.InChain H e → (c.node y).keysym ≠ k := by
    intro y hy hHe
    rw [hHe.head_unique hf hs.parent hH' hh hHl (hs.head_lt hh) hce] at hy
    exact hno y hy
  rcases appendSibling_inChain_inv he hf hHl hi with hi' | ⟨hie, rfl⟩ <;>
    rcases appendSibling_inChain_inv he hf hHl hj with hj' | ⟨hje, rfl⟩
  · rw [g.keysym i (hi'.lt_length hf hHl), g.keysym j (hj'.lt_length hf hHl)] at hij
    exact hs.distinct H hH' i j hi' hj' hij
  · rw [g.keysym i (hi'.lt_length hf hHl), g.new] at hij
    exact absurd hij (old i hi' hje)
  · rw [g.keysym j (hj'.lt_length hf hHl), g.new] at hij
    exact absurd hij.symm (old j hj' hie)
  · rfl

variable (hn : (c.node e).next = 0)
include hn

theorem appendSibling_reach_new {H h' : Nat} {s0 : List Keysym} (hH : H < c.tree.length)
    (hh : c.HeadFrom H s0 h') (hh' : h' < c.tree.length) (hc : c.InChain h' e) :
    (c.appendSibling e k).ReachFrom H (s0 ++ [k]) c.tree.length := by
  have hx := appendSibling_extends (k := k) he hn
  have hc' : (c.appendSibling e k).InChain h' c.tree.length := by
    have := InChain.next (hx.inChain hf hh' hc) (by rw [appendSibling_next_self he]; omega)
    simpa [he] using this
  have hh2 : (c.appendSibling e k).HeadFrom H s0 h' := by
    rcases hh with ⟨rfl, rfl⟩ | ⟨p, hp, rfl, hne⟩
    · exact .inl ⟨rfl, rfl⟩
    · refine .inr ⟨p, hx.reachFrom hf hH hp, ?_, hne⟩
      exact appendSibling_successor he ((hp.bounds hf hH).2)
  exact hh2.reach_append hc' (by rw [appendSibling_new he])

/-- `appendSibling` at the end of a chain keeps the invariant when no node of the chain
matches the new keysym. -/
theorem Shape.appendSibling (hs : c.Shape) {h : Nat} (hh : c.IsHead h) (hce : c.InChain h e)
    (hk : k ≠ noSymbol) (hno : ∀ y, c.InChain h y → (c.node y).keysym ≠ k) :
    (c.appendSibling e k).Shape :=
  have g := appendSibling_grows (k := k) he
  ⟨g.rootOk hs.root hk fun _ => rfl, g.linksForward hf, g.singleParent hf he hn hs.parent,
    appendSibling_chainsDistinct he hf hs hh hce hno, g.internalBare hs.bare, g.blobOk hs.blob,
    g.stringsShort hs.blob hs.short⟩

end Sibling

/-! ## `appendChild` -/

section Child

variable (hx : x < c.tree.length)
include hx

theorem appendChild_node_lt (hi : i < c.tree.length) :
    (c.appendChild x k).node i =
      if i = x then { c.node x with utf8 := 0, ks := noSymbol, successor := c.tree.length }
      else c.node i := by
  rw [appendChild_node hx, if_neg (Nat.ne_of_lt hi)]

theorem appendChild_keysym (hi : i < c.tree.length) :
    ((c.appendChild x k).node i).keysym = (c.node i).keysym := by
  rw [appendChild_node_lt hx hi]; split_ifs with h
  · subst h; rfl
  · rfl

theorem appendChild_next (hi : i < c.tree.length) :
    ((c.appendChild x k).node i).next = (c.node i).next := by
  rw [appendChild_node_lt hx hi]; split_ifs with h
  · subst h; rfl
  · rfl

theorem appendChild_successor (hi : i < c.tree.length) (hix : i ≠ x) :
    ((c.appendChild x k).node i).successor = (c.node i).successor := by
  rw [appendChild_node_lt hx hi, if_neg hix]

@[simp] theorem appendChild_successor_self :
    ((c.appendChild x k).node x).successor = c.tree.length := by
  rw [appendChild_node_lt hx hx, if_pos rfl]

theorem appendChild_leafOf (hi : i < c.tree.length) (hix : i ≠ x) :
    (c.appendChild x k).leafOf i = c.leafOf i := by
  rw [leafOf, leafOf, stringAt, stringAt, appendChild_utf8, appendChild_node_lt hx hi, if_neg hix]

theorem appendChild_bare (hi : i < c.tree.length) (hix : i ≠ x) :
    (c.appendChild x k).Bare i ↔ c.Bare i := by
  rw [Bare, Bare, appendChild_node_lt hx hi, if_neg hix]

@[simp] theorem appendChild_new :
    (c.appendChild x k).node c.tree.length = ⟨k, 0, 0, 0, noSymbol⟩ := by
  simp [appendChild_node hx, Nat.ne_of_gt hx]

theorem appendChild_grows : c.Grows (c.appendChild x k) x true k where
  length := appendChild_length ..
  utf8 := rfl
  new := appendChild_new hx
  keysym _ hi := appendChild_keysym hx hi
  link q hq b := by
    by_cases h : q = x
    · subst h; cases b <;> simp [link, appendChild_node_lt hq hq]
    · cases b <;> simp [link, appendChild_node_lt hx hq, h]
  leaf i hi := by
    by_cases h : i = x
    · subst h; simp [Bare, appendChild_node_lt hi hi]
    · simp [appendChild_node_lt hx hi, h]

theorem appendChild_extends (hs : (c.node x).successor = 0) : c.Extends (c.appendChild x k) where
  length_le := by simp
  keysym _ hi := appendChild_keysym hx hi
  next _ hi _ := appendChild_next hx hi
  successor j hj hne := appendChild_successor hx hj (by rintro rfl; exact hne hs)

variable (hf : c.LinksForward)
include hf

theorem appendChild_inChain_inv {H y : Nat} (hH : H < c.tree.length)
    (h : (c.appendChild x k).InChain H y) : c.InChain H y :=
  ((appendChild_grows hx).inChain_inv hf hH h).resolve_right (by simp)

omit hf in
theorem appendChild_inChain_new {y : Nat} (h : (c.appendChild x k).InChain c.tree.length y) :
    y = c.tree.length := by
  induction h with
  | head => rfl
  | next _ hni ih => subst ih; simp [hx] at hni

theorem appendChild_reach_inv (hs : (c.node x).successor = 0) {H y : Nat} {s : List Keysym}
    (hH : H < c.tree.length) (h : (c.appendChild x k).ReachFrom H s y) :
    c.ReachFrom H s y ∨ (y = c.tree.length ∧ ∃ s0, s = s0 ++ [k] ∧ c.ReachFrom H s0 x) := by
  induction h with
  | last hc hk =>
    have hc0 := appendChild_inChain_inv hx hf hH hc
    exact .inl (.last hc0 (by rwa [appendChild_keysym hx (hc0.lt_length hf hH)] at hk))
  | @cons H i y k0 t hc hk hsc hr ih =>
    have hc0 := appendChild_inChain_inv hx hf hH hc
    have hil := hc0.lt_length hf hH
    rw [appendChild_keysym hx hil] at hk
    by_cases hix : i = x
    · subst hix
      simp only [appendChild_successor_self hx] at hr
      cases hr with
      | last hc' hk' =>
        rw [appendChild_inChain_new hx hc'] at hk' ⊢
        simp only [appendChild_new hx] at hk'
        exact .inr ⟨rfl, [k0], by simp [hk'], .last hc0 hk⟩
      | cons hc' _ hsc' _ =>
        rw [appendChild_inChain_new hx hc'] at hsc'
        simp [hx] at hsc'
    · rw [appendChild_successor hx hil hix] at hsc ih
      have hlt := (hf i hil).2.resolve_left hsc
      rcases ih hlt.2 with h | ⟨rfl, s0, rfl, hp⟩
      · exact .inl (.cons hc0 hk hsc h)
      · exact .inr ⟨rfl, k0 :: s0, rfl, .cons hc0 hk hsc hp⟩

theorem appendChild_reach_new (hs : (c.node x).successor = 0) {H : Nat} {s0 : List Keysym}
    (hH : H < c.tree.length) (hp : c.ReachFrom H s0 x) :
    (c.appendChild x k).ReachFrom H (s0 ++ [k]) c.tree.length := by
  have h := (appendChild_extends (k := k) hx hs).reachFrom hf hH hp
  refine h.append (by rw [appendChild_successor_self hx]; omega) ?_
  simpa [hx] using ReachFrom.last (c := c.appendChild x k) .head (appendChild_new hx ▸ rfl)

theorem appendChild_chainsDistinct (hs : c.Shape) : (c.appendChild x k).ChainsDistinct := by
  intro H hH i j hi hj hij
  rcases (appendChild_grows hx).isHead_inv hH with hH' | ⟨-, rfl⟩
  · have hHl := hs.head_lt hH'
    have hi' := appendChild_inChain_inv hx hf hHl hi
    have hj' := appendChild_inChain_inv hx hf hHl hj
    rw [appendChild_keysym hx (hi'.lt_length hf hHl),
      appendChild_keysym hx (hj'.lt_length hf hHl)] at hij
    exact hs.distinct H hH' i j hi' hj' hij
  · rw [appendChild_inChain_new hx hi, appendChild_inChain_new hx hj]

/-- `appendChild` at a leaf other than the root keeps the invariant. -/
theorem Shape.appendChild (hs : c.Shape) (hx0 : x ≠ 0) (hsx : (c.node x).successor = 0)
    (hk : k ≠ noSymbol) : (c.appendChild x k).Shape :=
  have g := appendChild_grows (k := k) hx
  ⟨g.rootOk hs.root hk fun h => absurd h hx0, g.linksForward hf, g.singleParent hf hx hsx hs.parent,
    appendChild_chainsDistinct hx hf hs, g.internalBare hs.bare, g.blobOk hs.blob,
    g.stringsShort hs.blob hs.short⟩

end Child

end Compose
end XkbCompose
