import XkbCompose.Table

/-!
# XkbCompose.Trie

What a compose table means. The alternatives for one position of a sequence are the nodes of a
`next` chain; the chain for the first keysym starts at node `0`, and the chain for each later
keysym starts at the `successor` of the node the previous keysym matched. A sequence is a key
of the table when the node it reaches is a leaf: not the root, and with no successor.

* `ReachFrom c h s x`: the sequence `s` leads from the chain headed by `h` to node `x`.
* `lookup c s`: the abstract map, computed by walking the chains as the code does.
* `lookupFrom_iff`: on a table whose links point forward and whose chains from a head carry
  pairwise distinct keysyms, the walk finds exactly the node `ReachFrom` describes.
-/

namespace XkbCompose
namespace Compose

variable (c : Compose)

/-- `i` lies on the `next` chain that starts at `h`. -/
inductive InChain (h : Nat) : Nat → Prop
  | head : InChain h h
  | next {i : Nat} : InChain h i → (c.node i).next ≠ 0 → InChain h (c.node i).next

/-- `h` heads a list of alternatives: the root, or the target of a `successor` link. -/
def IsHead (h : Nat) : Prop := h = 0 ∨ ∃ p < c.tree.length, (c.node p).successor = h

/-- Every `next` and `successor` link is `0` or points to a later node of the table. -/
def LinksForward : Prop :=
  ∀ i < c.tree.length,
    ((c.node i).next = 0 ∨ i < (c.node i).next ∧ (c.node i).next < c.tree.length) ∧
    ((c.node i).successor = 0 ∨ i < (c.node i).successor ∧ (c.node i).successor < c.tree.length)

/-- The keysyms along any chain that starts at a head are pairwise distinct. -/
def ChainsDistinct : Prop :=
  ∀ h, c.IsHead h → ∀ i j, c.InChain h i → c.InChain h j → (c.node i).keysym = (c.node j).keysym →
    i = j

/-- The sequence `s` leads from the chain headed by `h` to node `x`: its first keysym matches a
node of that chain, and the rest of it leads on from that node's successor. -/
inductive ReachFrom : Nat → List Keysym → Nat → Prop
  | last {h i : Nat} {k : Keysym} : c.InChain h i → (c.node i).keysym = k → ReachFrom h [k] i
  | cons {h i x : Nat} {k : Keysym} {s : List Keysym} : c.InChain h i → (c.node i).keysym = k →
      (c.node i).successor ≠ 0 → ReachFrom (c.node i).successor s x → ReachFrom h (k :: s) x

/-- The first node of the chain from `i` whose keysym is `k`; `fuel` bounds the walk. -/
def chainFind (k : Keysym) : Nat → Nat → Option Nat
  | 0, _ => none
  | fuel + 1, i =>
    if (c.node i).keysym = k then some i
    else if (c.node i).next = 0 then none
    else chainFind k fuel (c.node i).next

/-- The node a sequence reaches from the chain headed by `h`. -/
def lookupFrom : List Keysym → Nat → Option Nat
  | [], _ => none
  | [k], h => c.chainFind k c.tree.length h
  | k :: k' :: s, h => (c.chainFind k c.tree.length h).bind fun i =>
      if (c.node i).successor = 0 then none else lookupFrom (k' :: s) (c.node i).successor

/-- The abstract map of the table: a sequence maps to the leaf data of the node it reaches
from the root's chain, when that node is a leaf. -/
def lookup (s : List Keysym) : Option Leaf :=
  match c.lookupFrom s 0 with
  | some i => if i ≠ 0 ∧ (c.node i).successor = 0 then some (c.leafOf i) else none
  | none => none

variable {c}

theorem InChain.trans {h i j : Nat} (h₁ : c.InChain h i) (h₂ : c.InChain i j) : c.InChain h j := by
  induction h₂ with
  | head => exact h₁
  | next _ hn ih => exact .next ih hn

theorem InChain.le (hf : c.LinksForward) {h i : Nat} (hh : h < c.tree.length) (hi : c.InChain h i) :
    h ≤ i ∧ i < c.tree.length := by
  induction hi with
  | head => exact ⟨le_refl _, hh⟩
  | @next i _ hn ih =>
    have := (hf i ih.2).1
    omega

theorem InChain.lt_length (hf : c.LinksForward) {h i : Nat} (hh : h < c.tree.length)
    (hi : c.InChain h i) : i < c.tree.length :=
  (hi.le hf hh).2

theorem InChain.cases_head {h i : Nat} (hi : c.InChain h i) :
    i = h ∨ ((c.node h).next ≠ 0 ∧ c.InChain (c.node h).next i) := by
  induction hi with
  | head => exact .inl rfl
  | @next i _ hn ih =>
    rcases ih with rfl | ⟨hne, hc⟩
    · exact .inr ⟨hn, .head⟩
    · exact .inr ⟨hne, .next hc hn⟩

theorem chainFind_some {k : Keysym} {fuel i x : Nat} (h : c.chainFind k fuel i = some x) :
    c.InChain i x ∧ (c.node x).keysym = k := by
  induction fuel generalizing i with
  | zero => simp [chainFind] at h
  | succ fuel ih =>
    simp only [chainFind] at h
    split_ifs at h with hk hn
    · cases h; exact ⟨.head, hk⟩
    · obtain ⟨hc, hx⟩ := ih h
      exact ⟨InChain.trans (.next .head hn) hc, hx⟩

theorem chainFind_complete (hf : c.LinksForward) {k : Keysym} {y : Nat} :
    ∀ fuel i, i < c.tree.length → c.tree.length - i ≤ fuel → c.InChain i y →
      (c.node y).keysym = k → ∃ x, c.chainFind k fuel i = some x := by
  intro fuel
  induction fuel with
  | zero => intro i hi hfu; omega
  | succ fuel ih =>
    intro i hi hfu hy hk
    simp only [chainFind]
    split_ifs with hki hn
    · exact ⟨i, rfl⟩
    · rcases hy.cases_head with rfl | ⟨hne, _⟩
      · exact absurd hk hki
      · exact absurd hn hne
    · rcases hy.cases_head with rfl | ⟨_, hy'⟩
      · exact absurd hk hki
      · have := (hf i hi).1
        exact ih _ (by omega) (by omega) hy' hk

theorem chainFind_iff (hf : c.LinksForward) {k : Keysym} {h x : Nat} (hh : h < c.tree.length)
    (hd : ∀ i j, c.InChain h i → c.InChain h j → (c.node i).keysym = (c.node j).keysym → i = j) :
    c.chainFind k c.tree.length h = some x ↔ c.InChain h x ∧ (c.node x).keysym = k := by
  constructor
  · exact chainFind_some
  · rintro ⟨hx, hk⟩
    obtain ⟨y, hy⟩ := chainFind_complete hf c.tree.length h hh (by omega) hx hk
    obtain ⟨hy', hky⟩ := chainFind_some hy
    rw [hy, hd y x hy' hx (hky.trans hk.symm)]

theorem IsHead.successor {p : Nat} (hp : p < c.tree.length) : c.IsHead (c.node p).successor :=
  .inr ⟨p, hp, rfl⟩

theorem IsHead.lt_length (hf : c.LinksForward) (h0 : 0 < c.tree.length) {h : Nat}
    (hh : c.IsHead h) : h < c.tree.length := by
  rcases hh with rfl | ⟨p, hp, rfl⟩
  · exact h0
  · rcases (hf p hp).2 with h | h
    · rw [h]; exact h0
    · exact h.2

/-- The walk of the code finds what `ReachFrom` describes. -/
theorem lookupFrom_iff (hf : c.LinksForward) (hd : c.ChainsDistinct) (h0 : 0 < c.tree.length) :
    ∀ (s : List Keysym) {h x : Nat}, c.IsHead h → (c.lookupFrom s h = some x ↔ c.ReachFrom h s x)
  | [], h, x, _ => by simp [lookupFrom]; intro hr; cases hr
  | [k], h, x, hh => by
    rw [lookupFrom, chainFind_iff hf (hh.lt_length hf h0) (hd h hh)]
    constructor
    · rintro ⟨hx, hk⟩; exact .last hx hk
    · intro hr
      cases hr with
      | last hx hk => exact ⟨hx, hk⟩
      | cons _ _ _ hr => cases hr
  | k :: k' :: s, h, x, hh => by
    have hl := hh.lt_length hf h0
    simp only [lookupFrom, Option.bind_eq_some]
    constructor
    · rintro ⟨i, hi, hx⟩
      obtain ⟨hc, hk⟩ := (chainFind_iff hf hl (hd h hh)).1 hi
      split_ifs at hx with hs
      exact .cons hc hk hs ((lookupFrom_iff hf hd h0 (k' :: s) (.successor (hc.lt_length hf hl))).1 hx)
    · intro hr
      cases hr with
      | cons hc hk hs hr =>
        refine ⟨_, (chainFind_iff hf hl (hd h hh)).2 ⟨hc, hk⟩, ?_⟩
        rw [if_neg hs]
        exact (lookupFrom_iff hf hd h0 (k' :: s) (.successor (hc.lt_length hf hl))).2 hr

/-! ## Paths in the trie -/

def KeyOf (s : List Keysym) (d : Leaf) : Prop :=
  ∃ x, c.ReachFrom 0 s x ∧ x ≠ 0 ∧ (c.node x).successor = 0 ∧ c.leafOf x = d

def HeadFrom (H : Nat) (pre : List Keysym) (h : Nat) : Prop :=
  (pre = [] ∧ h = H) ∨ ∃ p, c.ReachFrom H pre p ∧ (c.node p).successor = h ∧ h ≠ 0

def link (p : Nat) (b : Bool) : Nat := if b then (c.node p).successor else (c.node p).next

/-- Every node other than the root is the target of exactly one link. -/
def SingleParent : Prop :=
  ∀ i, 0 < i → i < c.tree.length → ∃! pb : Nat × Bool, pb.1 < c.tree.length ∧ c.link pb.1 pb.2 = i

theorem InChain.cases_last {h y : Nat} (hy : c.InChain h y) :
    y = h ∨ ∃ q, c.InChain h q ∧ (c.node q).next ≠ 0 ∧ (c.node q).next = y := by
  cases hy with
  | head => exact .inl rfl
  | next hq hn => exact .inr ⟨_, hq, hn, rfl⟩

theorem ReachFrom.ne_nil {H x : Nat} {s : List Keysym} (h : c.ReachFrom H s x) : s ≠ [] := by
  cases h <;> simp

theorem ReachFrom.bounds (hf : c.LinksForward) {H x : Nat} {s : List Keysym}
    (hH : H < c.tree.length) (h : c.ReachFrom H s x) : H ≤ x ∧ x < c.tree.length := by
  induction h with
  | last hc _ => exact hc.le hf hH
  | cons hc _ hs _ ih =>
    have h1 := hc.le hf hH
    have h2 := ((hf _ h1.2).2.resolve_left hs)
    have := ih h2.2
    omega

/-- With distinct keysyms on the chains, a sequence reaches at most one node. -/
theorem ReachFrom.unique (hf : c.LinksForward) (hd : c.ChainsDistinct) {H x x' : Nat}
    {s : List Keysym} (hH : c.IsHead H) (hl : H < c.tree.length) (h : c.ReachFrom H s x)
    (h' : c.ReachFrom H s x') : x = x' := by
  induction h generalizing x' with
  | last hc hk =>
    cases h' with
    | last hc' hk' => exact hd _ hH _ _ hc hc' (hk.trans hk'.symm)
    | cons _ _ _ hr => exact absurd rfl hr.ne_nil
  | cons hc hk hs hr ih =>
    cases h' with
    | last => exact absurd rfl hr.ne_nil
    | cons hc' hk' hs' hr' =>
      have := hd _ hH _ _ hc hc' (hk.trans hk'.symm)
      subst this
      have hlt := hc.lt_length hf hl
      exact ih (.successor hlt) ((hf _ hlt).2.resolve_left hs).2 hr'

theorem ReachFrom.append {H p x : Nat} {s t : List Keysym} (h : c.ReachFrom H s p)
    (hs : (c.node p).successor ≠ 0) (ht : c.ReachFrom (c.node p).successor t x) :
    c.ReachFrom H (s ++ t) x := by
  induction h with
  | last hc hk => exact .cons hc hk hs ht
  | cons hc hk hs' _ ih => exact .cons hc hk hs' (ih hs ht)

theorem ReachFrom.cons_inv {H x : Nat} {k : Keysym} {s : List Keysym}
    (h : c.ReachFrom H (k :: s) x) (hs : s ≠ []) :
    ∃ i, c.InChain H i ∧ (c.node i).keysym = k ∧ (c.node i).successor ≠ 0 ∧
      c.ReachFrom (c.node i).successor s x := by
  cases h with
  | last => exact absurd rfl hs
  | cons hc hk hsc hr => exact ⟨_, hc, hk, hsc, hr⟩

theorem ReachFrom.of_lone {H x : Nat} {s : List Keysym} (hn : (c.node H).next = 0)
    (hs : (c.node H).successor = 0) (h : c.ReachFrom H s x) :
    x = H ∧ s = [(c.node H).keysym] := by
  have lone : ∀ i, c.InChain H i → i = H := fun i hi =>
    hi.cases_head.resolve_right fun ⟨hne, _⟩ => hne hn
  cases h with
  | last hc hk => obtain rfl := lone _ hc; exact ⟨rfl, by rw [hk]⟩
  | cons hc _ hsc _ => obtain rfl := lone _ hc; exact absurd hs hsc

theorem ReachFrom.split {H x : Nat} {s t : List Keysym} (hs : s ≠ []) (ht : t ≠ [])
    (h : c.ReachFrom H (s ++ t) x) :
    ∃ p, c.ReachFrom H s p ∧ (c.node p).successor ≠ 0 ∧ c.ReachFrom (c.node p).successor t x := by
  induction s generalizing H with
  | nil => exact absurd rfl hs
  | cons k s ih =>
    obtain ⟨i, hc, hk, hsc, hr⟩ := h.cons_inv (by simp [ht])
    by_cases hs0 : s = []
    · subst hs0; exact ⟨_, .last hc hk, hsc, hr⟩
    · obtain ⟨p, hp, hps, hpt⟩ := ih hs0 hr
      exact ⟨p, .cons hc hk hsc hp, hps, hpt⟩

theorem HeadFrom.reach_append {H h x : Nat} {pre : List Keysym} {k : Keysym}
    (hh : c.HeadFrom H pre h) (hx : c.InChain h x) (hk : (c.node x).keysym = k) :
    c.ReachFrom H (pre ++ [k]) x := by
  rcases hh with ⟨rfl, rfl⟩ | ⟨p, hp, rfl, hne⟩
  · exact .last hx hk
  · exact hp.append hne (.last hx hk)

theorem HeadFrom.cons {H i h : Nat} {k : Keysym} {s : List Keysym} (hc : c.InChain H i)
    (hk : (c.node i).keysym = k) (hs : (c.node i).successor ≠ 0)
    (hh : c.HeadFrom (c.node i).successor s h) : c.HeadFrom H (k :: s) h := by
  rcases hh with ⟨rfl, rfl⟩ | ⟨p, hp, rfl, hne⟩
  · exact .inr ⟨i, .last hc hk, rfl, hs⟩
  · exact .inr ⟨p, .cons hc hk hs hp, rfl, hne⟩

theorem InChain.head_unique (hf : c.LinksForward) (hp : c.SingleParent) {h h' e : Nat}
    (hh : c.IsHead h) (hh' : c.IsHead h') (hl : h < c.tree.length) (hl' : h' < c.tree.length)
    (he : c.InChain h e) (he' : c.InChain h' e) : h = h' := by
  -- a head is never the `next` of a node
  have head_not_next : ∀ {g q}, c.IsHead g → q < c.tree.length → (c.node q).next ≠ 0 →
      (c.node q).next ≠ g := by
    intro g q hg hq hn heq
    have hlt := (hf q hq).1.resolve_left hn
    rcases hg with rfl | ⟨p, hp', hps⟩
    · omega
    · obtain ⟨pb, _, huniq⟩ := hp g (by omega) (by omega)
      have e1 := huniq (q, false) ⟨hq, by simpa [link] using heq⟩
      have e2 := huniq (p, true) ⟨hp', by simpa [link] using hps⟩
      rw [← e2] at e1; simp at e1
  induction he generalizing h' with
  | head =>
    rcases he'.cases_last with rfl | ⟨q, hq, hn, heq⟩
    · rfl
    · exact absurd heq (head_not_next hh (hq.lt_length hf hl') hn)
  | @next i hi hn ih =>
    rcases he'.cases_last with rfl | ⟨q, hq, hn', heq⟩
    · exact absurd rfl (head_not_next hh' (hi.lt_length hf hl) hn)
    · have hil := hi.lt_length hf hl
      have hql := hq.lt_length hf hl'
      have hlt := (hf i hil).1.resolve_left hn
      obtain ⟨pb, _, huniq⟩ := hp _ (by omega) hlt.2
      have e1 := huniq (i, false) ⟨hil, rfl⟩
      have e2 := huniq (q, false) ⟨hql, by simpa [link] using heq⟩
      rw [← e2] at e1; simp only [Prod.mk.injEq, and_true] at e1
      subst e1
      exact ih hh' hl' hq

end Compose
end XkbCompose
