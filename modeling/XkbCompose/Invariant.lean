import XkbCompose.AddProduction

/-!
# XkbCompose.Invariant

The representation invariant of a compose table (`Compose.Wf`) and how the two edits of
`add_production` act on it.

* `Wf`: the root is node `0`; links point forward; every other node has exactly one link into
  it; chains carry distinct keysyms; internal nodes carry no leaf data; every other leaf carries
  some; the blob starts and ends with a NUL and every offset lies inside it; the strings are
  at most 255 bytes long.
* `Extends.reachFrom`: adding links where there were none keeps every path.
* `appendSibling_reach` and `appendChild_reach`: the only new path an edit makes leads to the
  new node.
-/

namespace XkbCompose
namespace Compose

variable (c : Compose)

def Bare (i : Nat) : Prop := (c.node i).utf8 = 0 ∧ (c.node i).ks = noSymbol

/-- Node `0` is the root: it matches `NoSymbol`, has no successor and no leaf data; every other
node matches a real keysym. -/
def RootOk : Prop :=
  0 < c.tree.length ∧ (c.node 0).keysym = noSymbol ∧ (c.node 0).successor = 0 ∧ c.Bare 0 ∧
    ∀ i, 0 < i → i < c.tree.length → (c.node i).keysym ≠ noSymbol

/-- A node with a successor carries no leaf data. -/
def InternalBare : Prop := ∀ i < c.tree.length, (c.node i).successor ≠ 0 → c.Bare i

/-- Every leaf other than the root and `g` carries leaf data. -/
def FullExcept (g : Nat) : Prop :=
  ∀ i, 0 < i → i < c.tree.length → i ≠ g → (c.node i).successor = 0 → ¬ c.Bare i

/-- Every leaf other than the root carries leaf data. -/
def LeavesFull : Prop :=
  ∀ i, 0 < i → i < c.tree.length → (c.node i).successor = 0 → ¬ c.Bare i

/-- The blob starts and ends with a NUL and every node's offset lies inside it. -/
def BlobOk : Prop :=
  c.utf8.head? = some 0 ∧ c.utf8.getLast? = some 0 ∧
    ∀ i < c.tree.length, (c.node i).utf8 < c.utf8.length

/-- The string at every node's offset is at most 255 bytes long. -/
def StringsShort : Prop := ∀ i < c.tree.length, (c.stringAt (c.node i).utf8).length ≤ 255

/-- Every part of the invariant but `LeavesFull`, which holds only between two productions. -/
structure Shape : Prop where
  root : c.RootOk
  forward : c.LinksForward
  parent : c.SingleParent
  distinct : c.ChainsDistinct
  bare : c.InternalBare
  blob : c.BlobOk
  short : c.StringsShort

/-- The representation invariant of a compose table. -/
structure Wf extends c.Shape : Prop where
  full : c.LeavesFull

def PathsUnique : Prop := ∀ s s' x, c.ReachFrom 0 s x → c.ReachFrom 0 s' x → s = s'

/-- `c'` keeps every node of `c` with its keysym and its links, and may add links where `c` has
none. -/
structure Extends (c' : Compose) : Prop where
  length_le : c.tree.length ≤ c'.tree.length
  keysym : ∀ i < c.tree.length, (c'.node i).keysym = (c.node i).keysym
  next : ∀ i < c.tree.length, (c.node i).next ≠ 0 → (c'.node i).next = (c.node i).next
  successor : ∀ i < c.tree.length, (c.node i).successor ≠ 0 →
    (c'.node i).successor = (c.node i).successor

variable {c}

theorem LeavesFull.fullExcept (h : c.LeavesFull) (g : Nat) : c.FullExcept g :=
  fun i hi hl _ hs => h i hi hl hs

theorem FullExcept.leavesFull {g : Nat} (h : c.FullExcept g) (hg : (c.node g).successor = 0 → ¬ c.Bare g)
    : c.LeavesFull := by
  intro i hi hl hs
  by_cases e : i = g
  · subst e; exact hg hs
  · exact h i hi hl e hs

theorem Shape.lt_length (hs : c.Shape) : 0 < c.tree.length := hs.root.1

/-- The abstract map of a well-shaped table sends each of its keys to the key's leaf data. -/
theorem Shape.lookup_eq_some (hs : c.Shape) {s : List Keysym} {d : Leaf} :
    c.lookup s = some d ↔ c.KeyOf s d := by
  have hl : ∀ x, c.lookupFrom s 0 = some x ↔ c.ReachFrom 0 s x := fun _ =>
    lookupFrom_iff hs.forward hs.distinct hs.lt_length s (.inl rfl)
  unfold lookup KeyOf
  constructor
  · intro h
    split at h
    · next x hx =>
      split_ifs at h with hc
      exact ⟨x, (hl x).1 hx, hc.1, hc.2, Option.some.inj h⟩
    · cases h
  · rintro ⟨x, hx, hx0, hsx, rfl⟩
    simp [(hl _).2 hx, hx0, hsx]

theorem BlobOk.length_pos (h : c.BlobOk) : 0 < c.utf8.length := by
  have := h.1; cases hu : c.utf8 <;> simp_all

theorem BlobOk.stringAt_zero (h : c.BlobOk) : c.stringAt 0 = [] := by
  have := h.1; cases hu : c.utf8 <;> simp_all [stringAt, cstr]

theorem BlobOk.zero_mem_drop (h : c.BlobOk) {o : Nat} (ho : o < c.utf8.length) :
    0 ∈ c.utf8.drop o := by
  have hne : c.utf8.drop o ≠ [] := by simp; omega
  have hlast : (c.utf8.drop o).getLast? = some 0 := by
    rw [List.getLast?_drop, if_neg (by omega)]; exact h.2.1
  rw [List.getLast?_eq_getLast _ hne, Option.some.injEq] at hlast
  exact hlast ▸ List.getLast_mem hne

theorem BlobOk.stringAt_append (h : c.BlobOk) {o : Nat} (ho : o < c.utf8.length)
    (t : List UInt8) : cstr ((c.utf8 ++ t).drop o) = c.stringAt o := by
  rw [List.drop_append_of_le_length (by omega), cstr_append_of_mem (h.zero_mem_drop ho), stringAt]

theorem Shape.keysym_ne (hs : c.Shape) {i : Nat} (hi : i < c.tree.length) (h0 : i ≠ 0) :
    (c.node i).keysym ≠ noSymbol :=
  hs.root.2.2.2.2 i (Nat.pos_of_ne_zero h0) hi

theorem Shape.ne_zero_of_keysym (hs : c.Shape) {i : Nat} (hk : (c.node i).keysym ≠ noSymbol) :
    i ≠ 0 := by
  rintro rfl; exact hk hs.root.2.1

theorem Shape.head_lt (hs : c.Shape) {h : Nat} (hh : c.IsHead h) : h < c.tree.length :=
  hh.lt_length hs.forward hs.lt_length

theorem Shape.succ_lt (hs : c.Shape) {i : Nat} (hi : i < c.tree.length)
    (h : (c.node i).successor ≠ 0) : i < (c.node i).successor ∧ (c.node i).successor < c.tree.length :=
  (hs.forward i hi).2.resolve_left h

theorem Shape.reach_lt (hs : c.Shape) {H x : Nat} {s : List Keysym} (hH : c.IsHead H)
    (h : c.ReachFrom H s x) : x < c.tree.length :=
  (h.bounds hs.forward (hs.head_lt hH)).2

theorem Shape.reach_unique (hs : c.Shape) {H x x' : Nat} {s : List Keysym} (hH : c.IsHead H)
    (h : c.ReachFrom H s x) (h' : c.ReachFrom H s x') : x = x' :=
  h.unique hs.forward hs.distinct hH (hs.head_lt hH) h'

theorem Shape.successor_inj (hs : c.Shape) {p q : Nat} (hp : p < c.tree.length)
    (hq : q < c.tree.length) (h0 : (c.node p).successor ≠ 0)
    (h : (c.node p).successor = (c.node q).successor) : p = q := by
  have hlt := hs.succ_lt hp h0
  obtain ⟨_, _, huniq⟩ := hs.parent _ (by omega) hlt.2
  have e1 := huniq (p, true) ⟨hp, rfl⟩
  have e2 := huniq (q, true) ⟨hq, by simp [link, h]⟩
  simpa using e1.trans e2.symm

/-- A leaf ends every path through it: a path to a leaf is never a proper prefix of another. -/
theorem Shape.prefix_of_leaf (hs : c.Shape) {s q : List Keysym} {y z : Nat}
    (hy : c.ReachFrom 0 s y) (hl : (c.node y).successor = 0) (hz : c.ReachFrom 0 q z)
    (hp : s <+: q) : s = q := by
  obtain ⟨t, rfl⟩ := hp
  by_cases ht : t = []
  · simp [ht]
  · obtain ⟨p, hp, hps, -⟩ := hz.split hy.ne_nil ht
    rw [hs.reach_unique (.inl rfl) hy hp] at hl
    exact absurd hl hps

theorem Shape.exists_key (hs : c.Shape) :
    ∀ n x s, c.tree.length - x ≤ n → c.ReachFrom 0 s x → (c.node x).successor ≠ 0 →
      ∃ t y, t ≠ [] ∧ c.ReachFrom 0 (s ++ t) y ∧ y ≠ 0 ∧ (c.node y).successor = 0
  | 0, x, s, hn, hx, _ => by have := hs.reach_lt (.inl rfl) hx; omega
  | n + 1, x, s, hn, hx, hsx => by
    have hxl := hs.reach_lt (.inl rfl) hx
    have hlt := hs.succ_lt hxl hsx
    have hr : c.ReachFrom 0 (s ++ [(c.node (c.node x).successor).keysym]) (c.node x).successor :=
      hx.append hsx (.last .head rfl)
    by_cases h0 : (c.node (c.node x).successor).successor = 0
    · exact ⟨_, _, by simp, hr, by omega, h0⟩
    · obtain ⟨t, y, -, ht, hy0, hy⟩ := hs.exists_key n _ _ (by omega) hr h0
      exact ⟨(c.node (c.node x).successor).keysym :: t, y, by simp, by simpa using ht, hy0, hy⟩

theorem Shape.reach_zero (hs : c.Shape) {s : List Keysym} (h : c.ReachFrom 0 s 0) :
    s = [noSymbol] := by
  cases h with
  | last hc hk =>
    have := (hc.le hs.forward hs.lt_length).1
    rw [← hk, Nat.le_zero.1 this, hs.root.2.1]
  | cons hc _ hsc hr =>
    have h1 := hc.lt_length hs.forward hs.lt_length
    have h2 := hs.succ_lt h1 hsc
    have := (hr.bounds hs.forward h2.2).1
    omega

theorem Shape.reach_append_inv (hs : c.Shape) {pre : List Keysym} {h x : Nat} {k : Keysym}
    (hh : c.HeadFrom 0 pre h) (hx : c.ReachFrom 0 (pre ++ [k]) x) :
    c.InChain h x ∧ (c.node x).keysym = k := by
  have last : ∀ {H}, c.ReachFrom H [k] x → c.InChain H x ∧ (c.node x).keysym = k := by
    intro H hr
    cases hr with
    | last hc hk => exact ⟨hc, hk⟩
    | cons _ _ _ hr => exact absurd rfl hr.ne_nil
  rcases hh with ⟨rfl, rfl⟩ | ⟨p, hp, rfl, -⟩
  · exact last hx
  · obtain ⟨p', hp', -, hr⟩ := hx.split hp.ne_nil (List.cons_ne_nil k [])
    rw [hs.reach_unique (.inl rfl) hp' hp] at hr
    exact last hr

theorem Shape.headFrom_unique (hs : c.Shape) (hu : c.PathsUnique) {s s' : List Keysym} {h : Nat}
    (h1 : c.HeadFrom 0 s h) (h2 : c.HeadFrom 0 s' h) : s = s' := by
  rcases h1 with ⟨rfl, rfl⟩ | ⟨p, hp, rfl, hne⟩
  · rcases h2 with ⟨rfl, -⟩ | ⟨_, _, _, hne⟩
    · rfl
    · exact absurd rfl hne
  · rcases h2 with ⟨-, h0⟩ | ⟨p', hp', hps, -⟩
    · exact absurd h0 hne
    · rw [hs.successor_inj (hs.reach_lt (.inl rfl) hp) (hs.reach_lt (.inl rfl) hp') hne hps.symm]
        at hp
      exact hu _ _ _ hp hp'

theorem HeadFrom.isHead {h : Nat} {pre : List Keysym} (hs : c.Shape) (hh : c.HeadFrom 0 pre h) :
    c.IsHead h := by
  rcases hh with ⟨-, rfl⟩ | ⟨p, hp, rfl, -⟩
  · exact .inl rfl
  · exact .successor (hs.reach_lt (.inl rfl) hp)

/-! ## Tables with the same links -/

/-- `c'` has the nodes of `c` with their keysyms and links; only leaf data and the blob may
differ. -/
structure SameLinks (c c' : Compose) : Prop where
  length : c'.tree.length = c.tree.length
  keysym : ∀ j, (c'.node j).keysym = (c.node j).keysym
  next : ∀ j, (c'.node j).next = (c.node j).next
  successor : ∀ j, (c'.node j).successor = (c.node j).successor

section SameLinks

variable {c' : Compose} (hl : SameLinks c c')
include hl

theorem SameLinks.symm : SameLinks c' c :=
  ⟨hl.length.symm, fun j => (hl.keysym j).symm, fun j => (hl.next j).symm,
    fun j => (hl.successor j).symm⟩

theorem SameLinks.inChain {H y : Nat} (h : c.InChain H y) : c'.InChain H y := by
  induction h with
  | head => exact .head
  | next _ hn ih => rw [← hl.next]; exact .next ih (by rwa [hl.next])

theorem SameLinks.reachFrom {H y : Nat} {s : List Keysym} (h : c.ReachFrom H s y) :
    c'.ReachFrom H s y := by
  induction h with
  | last hc hk => exact .last (hl.inChain hc) (by rwa [hl.keysym])
  | cons hc hk hs _ ih =>
    rw [← hl.successor] at ih
    exact .cons (hl.inChain hc) (by rwa [hl.keysym]) (by rwa [hl.successor]) ih

theorem SameLinks.pathsUnique (hu : c.PathsUnique) : c'.PathsUnique :=
  fun s s' x h h' => hu s s' x (hl.symm.reachFrom h) (hl.symm.reachFrom h')

theorem SameLinks.linksForward (hf : c.LinksForward) : c'.LinksForward := by
  intro i hi
  rw [hl.length] at hi
  simpa only [hl.next, hl.successor, hl.length] using hf i hi

theorem SameLinks.isHead {h : Nat} (hh : c.IsHead h) : c'.IsHead h := by
  rcases hh with rfl | ⟨p, hp, rfl⟩
  · exact .inl rfl
  · exact .inr ⟨p, hl.length ▸ hp, hl.successor p⟩

theorem SameLinks.singleParent (hp : c.SingleParent) : c'.SingleParent := by
  have hlink : ∀ p b, c'.link p b = c.link p b := fun p b => by
    cases b <;> simp [link, hl.next, hl.successor]
  intro i hi hil
  simpa only [hlink, hl.length] using hp i hi (hl.length ▸ hil)

theorem SameLinks.chainsDistinct (hd : c.ChainsDistinct) : c'.ChainsDistinct := by
  intro h hh i j hi hj hk
  rw [hl.keysym, hl.keysym] at hk
  exact hd h (hl.symm.isHead hh) i j (hl.symm.inChain hi) (hl.symm.inChain hj) hk

end SameLinks

/-! ## Extending a table -/

section Extends

variable {c' : Compose} (hf : c.LinksForward) (hx : c.Extends c')
include hf hx

theorem Extends.inChain {H y : Nat} (hH : H < c.tree.length) (h : c.InChain H y) :
    c'.InChain H y := by
  induction h with
  | head => exact .head
  | @next i hi hn ih =>
    have hil := hi.lt_length hf hH
    rw [← hx.next i hil hn]
    exact .next ih (by rw [hx.next i hil hn]; exact hn)

theorem Extends.reachFrom {H y : Nat} {s : List Keysym} (hH : H < c.tree.length)
    (h : c.ReachFrom H s y) : c'.ReachFrom H s y := by
  induction h with
  | last hc hk =>
    exact .last (hx.inChain hf hH hc) (by rw [hx.keysym _ (hc.lt_length hf hH)]; exact hk)
  | cons hc hk hs _ ih =>
    have hil := hc.lt_length hf hH
    have hlt := (hf _ hil).2.resolve_left hs
    have e := hx.successor _ hil hs
    refine .cons (hx.inChain hf hH hc) (by rw [hx.keysym _ hil]; exact hk) (by rw [e]; exact hs) ?_
    rw [e]; exact ih hlt.2

end Extends

end Compose
end XkbCompose
