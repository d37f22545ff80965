import XkbCompose.Trie

/-!
# XkbCompose.AddProduction

`add_production` of the parser, which inserts one production into the table, and the two edits
it is made of. The walk down the trie either finds each keysym on the chain it searches, or
ends the chain with a new node for it (`appendSibling`); to go one position deeper from a node
with no successor, it first gives that node a successor (`appendChild`), dropping the node's
leaf data if it had any. Once the walk has made one new node, every later position makes
another. At the end, the leaf data goes to the last node, unless that node already has a
successor or leaf data.

The two `while`-style walks of the source are bounded by `fuel`; with the bound the code
passes, the walks never run out on a table whose links point forward (`findOrAppend_spec`).

* `findOrAppend_spec`: the inner `while` loop finds the node for `k` on the chain, or appends one.
* `descend_eq`: the descent step of the `for` loop, as an `appendChild` edit or a move.
-/

namespace XkbCompose

def maxLhsLen : Nat := 10

/-- `struct production`: `lhs[0..len)`, the right-hand keysym and string, and their `has_*`
flags. `string` is the C string in `char string[256]`, its bytes before the terminating NUL;
the two bounds are those of the fixed arrays. -/
structure Production where
  lhs : List Keysym
  keysym : Keysym
  string : List UInt8
  hasKeysym : Bool
  hasString : Bool
  lhs_length_le : lhs.length ≤ maxLhsLen
  string_length_lt : string.length < 256
  string_nul_free : 0 ∉ string
  deriving DecidableEq, Repr

/-- The leaf data a production asks for: its string and its keysym, each when its flag is set. -/
def Production.result (p : Production) : Leaf :=
  ⟨if p.hasString then some p.string else none, if p.hasKeysym then some p.keysym else none⟩

/-- The productions `parse` hands to `add_production`: at least one keysym on the left, each a
real keysym (the lexer rejects names it does not know); a string or a keysym on the right; a
string that is not empty; a real keysym. -/
structure Production.Shaped (p : Production) : Prop where
  lhs_ne_nil : p.lhs ≠ []
  lhs_ne : ∀ k ∈ p.lhs, k ≠ noSymbol
  rhs : p.hasString ∨ p.hasKeysym
  string_ne_nil : p.hasString → p.string ≠ []
  keysym_ne : p.hasKeysym → p.keysym ≠ noSymbol

namespace Compose

/-- `add_node`: append a node matching `keysym`, with no links and no leaf data, and return
its index. -/
def addNode (c : Compose) (keysym : Keysym) : Compose × Nat :=
  (⟨c.utf8, c.tree ++ [⟨keysym, 0, 0, 0, noSymbol⟩]⟩, c.tree.length)

/-- The `while` loop of `add_production` at one position: walk the `next` chain from `curr`
until a node matches `k`, appending a node for `k` when the chain ends first. -/
def findOrAppend (k : Keysym) : Nat → Compose → Nat → Option (Compose × Nat)
  | 0, _, _ => none
  | fuel + 1, c, curr =>
    if k ≠ (c.node curr).keysym then
      if (c.node curr).next = 0 then
        let (c', next) := c.addNode k
        findOrAppend k fuel (c'.setNode curr { c'.node curr with next := next }) next
      else findOrAppend k fuel c (c.node curr).next
    else some (c, curr)

/-- The descent at the end of one iteration of the `for` loop: move to the successor of `curr`,
first giving it one, a node for the next keysym `k'`, when it has none. A node with no
successor that carries leaf data loses it ("a sequence already exists which is a prefix of this
sequence; overriding"). -/
def descend (k' : Keysym) (c : Compose) (curr : Nat) : Compose × Nat :=
  if (c.node curr).successor = 0 then
    let c := if (c.node curr).utf8 ≠ 0 ∨ (c.node curr).ks ≠ noSymbol then
      c.setNode curr { c.node curr with utf8 := 0, ks := noSymbol } else c
    let (c, successor) := c.addNode k'
    (c.setNode curr { c.node curr with successor := successor }, successor)
  else (c, (c.node curr).successor)

/-- The `for` loop of `add_production` over the keysyms still to place, from `curr` (the head
of the chain for the first of them); it returns the table and the node where the loop stops. -/
def addProductionLoop : List Keysym → Compose → Nat → Option (Compose × Nat)
  | [], c, curr => some (c, curr)
  | [k], c, curr => c.findOrAppend k (c.tree.length + 1) curr
  | k :: k' :: ks, c, curr => (c.findOrAppend k (c.tree.length + 1) curr).bind fun (c, curr) =>
      let (c, successor) := descend k' c curr
      addProductionLoop (k' :: ks) c successor

/-- The end of `add_production`: give the production's string and keysym to the node the
walk stopped at. The node is left alone if it has a successor ("the compose sequence is a
prefix of another; skipping line") or already carries leaf data ("the compose sequence already
exists; skipping line"). The string goes to the end of the blob with its NUL, `strlen + 1`
bytes. -/
def addLeaf (c : Compose) (curr : Nat) (p : Production) : Compose :=
  if (c.node curr).successor ≠ 0 then c
  else if (c.node curr).utf8 ≠ 0 ∨ (c.node curr).ks ≠ noSymbol then c
  else
    let c := if p.hasString then
      (⟨c.utf8 ++ (cstr p.string ++ [0]), c.tree⟩ : Compose).setNode curr
        { c.node curr with utf8 := c.utf8.length }
      else c
    if p.hasKeysym then c.setNode curr { c.node curr with ks := p.keysym } else c

/-- Append a node for `k` and link it as the `next` of `e`. -/
def appendSibling (c : Compose) (e : Nat) (k : Keysym) : Compose :=
  (c.addNode k).1.setNode e { (c.addNode k).1.node e with next := c.tree.length }

/-- Drop the leaf data of `x`, append a node for `k` and make it the successor of `x`. -/
def appendChild (c : Compose) (x : Nat) (k : Keysym) : Compose :=
  let c' := c.setNode x { c.node x with utf8 := 0, ks := noSymbol }
  (c'.addNode k).1.setNode x { (c'.addNode k).1.node x with successor := c.tree.length }

end Compose

/-- `add_production`. The result is `none` only when a walk runs past its bound, which never
happens on a well-formed table. -/
def addProduction (c : Compose) (p : Production) : Option Compose :=
  (c.addProductionLoop p.lhs 0).map fun (c, curr) => c.addLeaf curr p

namespace Compose

/-! ## The two edits -/

variable {c : Compose}

@[simp] theorem addNode_length (c : Compose) (k : Keysym) :
    (c.addNode k).1.tree.length = c.tree.length + 1 := by
  simp [addNode]

@[simp] theorem addNode_utf8 (c : Compose) (k : Keysym) : (c.addNode k).1.utf8 = c.utf8 := rfl

theorem setNode_node_self (c : Compose) (i : Nat) : c.setNode i (c.node i) = c := by
  obtain ⟨u, t⟩ := c
  simp only [setNode, Compose.mk.injEq, true_and]
  refine List.ext_getElem? fun j => ?_
  simp only [List.getElem?_set]
  split_ifs with h1 h2 <;> simp_all [node, List.getElem?_eq_getElem]

theorem findOrAppend_succ (k : Keysym) (fuel : Nat) (c : Compose) (curr : Nat) :
    c.findOrAppend k (fuel + 1) curr =
      if k ≠ (c.node curr).keysym then
        if (c.node curr).next = 0 then
          (c.appendSibling curr k).findOrAppend k fuel c.tree.length
        else c.findOrAppend k fuel (c.node curr).next
      else some (c, curr) := rfl

theorem addProductionLoop_cons_cons (k k' : Keysym) (ks : List Keysym) (c : Compose) (curr : Nat) :
    c.addProductionLoop (k :: k' :: ks) curr =
      (c.findOrAppend k (c.tree.length + 1) curr).bind fun r =>
        (descend k' r.1 r.2).1.addProductionLoop (k' :: ks) (descend k' r.1 r.2).2 := rfl

theorem addNode_node (c : Compose) (k : Keysym) (j : Nat) :
    (c.addNode k).1.node j = if j = c.tree.length then ⟨k, 0, 0, 0, noSymbol⟩ else c.node j :=
  node_append c _ j

@[simp] theorem appendSibling_length (c : Compose) (e : Nat) (k : Keysym) :
    (c.appendSibling e k).tree.length = c.tree.length + 1 := by
  simp [appendSibling]

@[simp] theorem appendSibling_utf8 (c : Compose) (e : Nat) (k : Keysym) :
    (c.appendSibling e k).utf8 = c.utf8 := rfl

@[simp] theorem appendChild_length (c : Compose) (x : Nat) (k : Keysym) :
    (c.appendChild x k).tree.length = c.tree.length + 1 := by
  simp [appendChild]

@[simp] theorem appendChild_utf8 (c : Compose) (x : Nat) (k : Keysym) :
    (c.appendChild x k).utf8 = c.utf8 := rfl

theorem appendSibling_node {e : Nat} (he : e < c.tree.length) (k : Keysym) (j : Nat) :
    (c.appendSibling e k).node j =
      if j = e then { c.node e with next := c.tree.length }
      else if j = c.tree.length then ⟨k, 0, 0, 0, noSymbol⟩ else c.node j := by
  simp only [appendSibling, node_setNode, addNode_length, addNode_node]
  by_cases hj : j = e
  · subst hj; simp [Nat.ne_of_lt he, show j < c.tree.length + 1 by omega]
  · simp [Ne.symm hj, hj]

theorem appendChild_node {x : Nat} (hx : x < c.tree.length) (k : Keysym) (j : Nat) :
    (c.appendChild x k).node j =
      if j = x then { c.node x with utf8 := 0, ks := noSymbol, successor := c.tree.length }
      else if j = c.tree.length then ⟨k, 0, 0, 0, noSymbol⟩ else c.node j := by
  simp only [appendChild, node_setNode, addNode_length, addNode_node, setNode_length]
  by_cases hj : j = x
  · subst hj; simp [hx, Nat.ne_of_lt hx, show j < c.tree.length + 1 by omega]
  · simp [Ne.symm hj, hj]

/-! ## The walks as edits -/

/-- The inner `while` loop, on a table whose links point forward: it finds a node of the chain
from `curr` that matches `k`, leaving the table as it was, or, when no node of the chain
matches, ends the chain with a new node for `k`. -/
theorem findOrAppend_spec (hf : c.LinksForward) (k : Keysym) :
    ∀ fuel curr, curr < c.tree.length → c.tree.length - curr < fuel →
      (∃ x, c.InChain curr x ∧ (c.node x).keysym = k ∧ c.findOrAppend k fuel curr = some (c, x)) ∨
      ((∀ y, c.InChain curr y → (c.node y).keysym ≠ k) ∧ ∃ e, c.InChain curr e ∧
        (c.node e).next = 0 ∧ c.findOrAppend k fuel curr = some (c.appendSibling e k, c.tree.length))
  | 0, _, _, h => by omega
  | fuel + 1, curr, hc, hfu => by
    rw [findOrAppend_succ]
    by_cases hk : k = (c.node curr).keysym
    · exact .inl ⟨curr, .head, hk.symm, by simp [hk]⟩
    rw [if_pos hk]
    by_cases hn : (c.node curr).next = 0
    · refine .inr ⟨fun y hy => ?_, curr, .head, hn, ?_⟩
      · rcases hy.cases_head with rfl | ⟨hne, _⟩
        · exact Ne.symm hk
        · exact absurd hn hne
      · rw [if_pos hn]
        cases fuel with
        | zero => omega
        | succ fuel => simp [findOrAppend_succ, appendSibling_node hc, (Nat.ne_of_lt hc).symm]
    · rw [if_neg hn]
      have hlt := (hf curr hc).1.resolve_left hn
      rcases findOrAppend_spec hf k fuel _ hlt.2 (by omega) with ⟨x, hx, hkx, he⟩ | ⟨hno, e, he, hen, heq⟩
      · exact .inl ⟨x, InChain.trans (.next .head hn) hx, hkx, he⟩
      · refine .inr ⟨fun y hy => ?_, e, InChain.trans (.next .head hn) he, hen, heq⟩
        rcases hy.cases_head with rfl | ⟨_, hy'⟩
        · exact Ne.symm hk
        · exact hno y hy'

theorem descend_eq (k' : Keysym) (x : Nat) :
    descend k' c x = if (c.node x).successor = 0 then (c.appendChild x k', c.tree.length)
      else (c, (c.node x).successor) := by
  unfold descend
  split_ifs with hs hd
  · simp [appendChild, addNode]
  · have : { c.node x with utf8 := 0, ks := noSymbol } = c.node x := by
      simp only [not_or, not_not] at hd; rw [← hd.1, ← hd.2]
    simp [appendChild, this, setNode_node_self, addNode]
  · rfl

end Compose
end XkbCompose
