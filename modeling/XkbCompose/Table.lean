import Mathlib.Data.List.Basic

/-!
# XkbCompose.Table

The compose table of `compose.h`: the trie is a flat array of nodes that point at each other by
index (`next` to the following sibling, `successor` to the first child, `0` meaning none), and
the leaves point into one blob of NUL-terminated UTF-8 strings. `composeNew` is what
`xkb_compose_new` puts in a fresh table: the root node alone and a blob holding the NUL sentinel.

Node indices and blob offsets are `uint32_t` in the source and `Nat` here: the two differ only
for a table of 2^32 nodes, which `darray` cannot allocate.

* `Compose.node`: `darray_item(compose->tree, i)`; an index past the end reads the zero node.
* `Compose.leafOf`: what a node carries as a leaf, its string and its keysym, when present.
-/

namespace XkbCompose

abbrev Keysym := UInt32

def noSymbol : Keysym := 0

/-- `struct node`. -/
structure Node where
  keysym : Keysym
  next : Nat
  successor : Nat
  utf8 : Nat
  ks : Keysym
  deriving DecidableEq, Repr

instance : Inhabited Node := ⟨⟨noSymbol, 0, 0, 0, noSymbol⟩⟩

/-- The `utf8` blob and the `tree` of `struct xkb_compose`; its other fields (reference count,
locale, format, flags, context) are read by no modelled function. -/
structure Compose where
  utf8 : List UInt8
  tree : List Node
  deriving DecidableEq, Repr

def root : Node := ⟨noSymbol, 0, 0, 0, noSymbol⟩

/-- The tree and blob of a table made by `xkb_compose_new`. -/
def composeNew : Compose := ⟨[0], [root]⟩

/-- The bytes of the C string starting at the head of `s`: those before the first NUL. -/
def cstr (s : List UInt8) : List UInt8 := s.takeWhile (· ≠ 0)

/-- What a leaf yields: its string and its replacement keysym, each when present. -/
structure Leaf where
  string : Option (List UInt8)
  keysym : Option Keysym
  deriving DecidableEq, Repr

namespace Compose

def node (c : Compose) (i : Nat) : Node := c.tree[i]?.getD default

def setNode (c : Compose) (i : Nat) (n : Node) : Compose := ⟨c.utf8, c.tree.set i n⟩

def stringAt (c : Compose) (off : Nat) : List UInt8 := cstr (c.utf8.drop off)

/-- The leaf data of node `i`: the string at its `utf8` offset unless that is `0`, and its
`ks` unless that is `NoSymbol`. -/
def leafOf (c : Compose) (i : Nat) : Leaf :=
  ⟨if (c.node i).utf8 = 0 then none else some (c.stringAt (c.node i).utf8),
   if (c.node i).ks = noSymbol then none else some (c.node i).ks⟩

@[simp] theorem setNode_utf8 (c : Compose) (i : Nat) (n : Node) : (c.setNode i n).utf8 = c.utf8 :=
  rfl

@[simp] theorem setNode_length (c : Compose) (i : Nat) (n : Node) :
    (c.setNode i n).tree.length = c.tree.length := by
  simp [setNode]

theorem node_setNode (c : Compose) (i j : Nat) (n : Node) :
    (c.setNode i n).node j = if i = j ∧ i < c.tree.length then n else c.node j := by
  simp only [node, setNode, List.getElem?_set]
  split_ifs <;> simp_all [List.getElem?_eq_none]; omega

@[simp] theorem node_setNode_self (c : Compose) {i : Nat} (n : Node) (h : i < c.tree.length) :
    (c.setNode i n).node i = n := by
  simp [node_setNode, h]

@[simp] theorem node_setNode_ne (c : Compose) {i j : Nat} (n : Node) (h : i ≠ j) :
    (c.setNode i n).node j = c.node j := by
  simp [node_setNode, h]

@[simp] theorem node_mk_tree (c : Compose) (u : List UInt8) (j : Nat) :
    (⟨u, c.tree⟩ : Compose).node j = c.node j := rfl

theorem node_append (c : Compose) (n : Node) (j : Nat) :
    (⟨c.utf8, c.tree ++ [n]⟩ : Compose).node j =
      if j = c.tree.length then n else c.node j := by
  simp only [node]
  rcases Nat.lt_trichotomy j c.tree.length with h | rfl | h
  · simp [List.getElem?_append_left h, Nat.ne_of_lt h]
  · simp
  · simp [List.getElem?_eq_none (Nat.le_of_lt h), Nat.ne_of_gt h,
      List.getElem?_eq_none (show (c.tree ++ [n]).length ≤ j by simp; omega)]

theorem node_of_length_le (c : Compose) {i : Nat} (h : c.tree.length ≤ i) : c.node i = default := by
  simp [node, List.getElem?_eq_none h]

theorem leafOf_setNode_ne (c : Compose) {i j : Nat} (n : Node) (h : i ≠ j) :
    (c.setNode i n).leafOf j = c.leafOf j := by
  simp [leafOf, stringAt, h]

@[simp] theorem composeNew_node_zero : composeNew.node 0 = root := rfl

end Compose

theorem cstr_append_of_mem {s t : List UInt8} (h : 0 ∈ s) : cstr (s ++ t) = cstr s := by
  induction s with
  | nil => simp at h
  | cons a s ih =>
    by_cases ha : a = 0
    · simp [cstr, ha]
    · have : 0 ∈ s := by simpa [Ne.symm ha] using h
      simpa [cstr, List.takeWhile_cons, ha] using ih this

theorem cstr_append_zero {s : List UInt8} (h : 0 ∉ s) (t : List UInt8) : cstr (s ++ 0 :: t) = s := by
  induction s with
  | nil => simp [cstr]
  | cons a s ih =>
    have ha : a ≠ 0 := fun e => h (e ▸ List.mem_cons_self a s)
    simpa [cstr, List.takeWhile_cons, ha] using ih (fun hs => h (List.mem_cons_of_mem a hs))

theorem cstr_eq_self {s : List UInt8} (h : 0 ∉ s) : cstr s = s :=
  List.takeWhile_eq_self_iff.2 fun x hx => by simpa using ne_of_mem_of_not_mem hx h

theorem cstr_not_mem (s : List UInt8) : 0 ∉ cstr s := by
  intro h
  simpa using List.mem_takeWhile_imp h

theorem cstr_length_le (s : List UInt8) : (cstr s).length ≤ s.length :=
  List.Sublist.length_le (List.takeWhile_sublist _)

end XkbCompose
