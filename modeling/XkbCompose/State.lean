import XkbCompose.Build

/-!
# XkbCompose.State

The compose state of `state.c`: two node indices, the node the keysyms fed so far lead to
(`context`) and the one before the last feed (`prev_context`). Feeding a keysym moves to the
node matching it on the chain of alternatives that follows the current node (the root's chain
when the current node has no successor), or back to `0` when there is none. The status, the
result keysym and the result text are read off the two nodes.

Two functions of the C library and of `keysym.c` are outside the repository and are parameters
here: `xkb_keysym_is_modifier` (`isModifier`) and the Unicode form of a keysym in UTF-8
(`utf8Of`, `none` when it has none). `xkb_keysym_to_utf8` and `snprintf` are modelled from their
contracts: they return a count and write a prefix of the buffer, the written bytes being the
list they return.

* `stateFeed_spec`: on a table whose links point forward, the `while` loop of
  `xkb_compose_state_feed` stops within as many steps as there are nodes, at the node matching
  the keysym, or at `0` when no node of the chain matches.
* `run_safe`: over any run of feeds and resets, the two indices stay inside the node array and
  the string `get_utf8` reads lies inside the blob and ends there with a NUL.
* `stateGetUtf8_keysym_only`: at a leaf with a keysym and no string, `get_utf8` does not return
  and write what `snprintf` returns and writes for the keysym's text.
-/

namespace XkbCompose

/-- `enum xkb_compose_status`. -/
inductive Status
  | nothing
  | composing
  | composed
  | cancelled
  deriving DecidableEq, Repr

/-- `struct xkb_compose_state`: the two node indices. Its reference count and flags are read by
no modelled function, and the table it points to is passed to each function. -/
structure State where
  prevContext : Nat
  context : Nat
  deriving DecidableEq, Repr

/-- `xkb_compose_state_new`. -/
def stateNew : State := ⟨0, 0⟩

/-- `xkb_compose_state_reset`. -/
def stateReset (_ : State) : State := ⟨0, 0⟩

namespace Compose

/-- The `while` loop of `xkb_compose_state_feed`: walk the chain from `context` until a node
matches `keysym` or the chain ends; `fuel` bounds the walk. -/
def feedWalk (c : Compose) (keysym : Keysym) : Nat → Nat → Option Nat
  | 0, _ => none
  | fuel + 1, context =>
    if (c.node context).keysym ≠ keysym ∧ (c.node context).next ≠ 0 then
      c.feedWalk keysym fuel (c.node context).next
    else some context

end Compose

section Code

variable (isModifier : Keysym → Bool) (utf8Of : Keysym → Option (List UInt8))

/-- `xkb_compose_state_feed`. Modifier keysyms are ignored. The walk is given as many steps as
the table has nodes. -/
def stateFeed (c : Compose) (st : State) (keysym : Keysym) : Option State :=
  if isModifier keysym then some st
  else
    let context := if (c.node st.context).successor ≠ 0 then (c.node st.context).successor else 0
    (c.feedWalk keysym c.tree.length context).map fun context =>
      ⟨st.context, if (c.node context).keysym ≠ keysym then 0 else context⟩

/-- `xkb_compose_state_get_status`. -/
def stateGetStatus (c : Compose) (st : State) : Status :=
  if st.context = 0 ∧ (c.node st.prevContext).successor ≠ 0 then .cancelled
  else if st.context = 0 then .nothing
  else if (c.node st.context).successor ≠ 0 then .composing
  else .composed

/-- `xkb_compose_state_get_one_sym`. -/
def stateGetOneSym (c : Compose) (st : State) : Keysym := (c.node st.context).ks

/-- Modelled from the spec: `xkb_keysym_to_utf8` is external to the sources (the spec's
`get_utf8` delegates to it), and follows its documented contract: `-1` and nothing written when
the buffer is shorter than 7 bytes; `0` and nothing written when the keysym has no Unicode form;
otherwise the UTF-8 and a NUL are written and their count returned. -/
def keysymToUtf8 (ks : Keysym) (size : Nat) : Int × List UInt8 :=
  if size < 7 then (-1, [])
  else match utf8Of ks with
    | none => (0, [])
    | some u => (u.length + 1, u ++ [0])

/-- `snprintf(buffer, size, "%s", s)` for the C string `s`: it returns the length of `s` and
writes as much of `s` as fits before a NUL. -/
def snprintf (size : Nat) (s : List UInt8) : Int × List UInt8 :=
  (s.length, if size = 0 then [] else s.take (size - 1) ++ [0])

/-- `xkb_compose_state_get_utf8`: a leaf with a keysym and no string gives the keysym's UTF-8;
every other node gives the string at its offset. -/
def stateGetUtf8 (c : Compose) (st : State) (size : Nat) : Int × List UInt8 :=
  let node := c.node st.context
  if node.utf8 = 0 ∧ node.ks ≠ noSymbol then keysymToUtf8 utf8Of node.ks size
  else snprintf size (c.stringAt node.utf8)

/-- A call of the state API that changes the state. -/
inductive Call
  | feed (keysym : Keysym)
  | reset
  deriving DecidableEq, Repr

/-- One call on the state. -/
def stateCall (c : Compose) (st : State) : Call → Option State
  | .feed keysym => stateFeed isModifier c st keysym
  | .reset => some (stateReset st)

end Code

namespace Compose

variable {c : Compose} {k : Keysym}

/-- With enough fuel, the walk stops at a node of the chain that matches `k`, or, when no node of
the chain matches, at a node of the chain. -/
theorem feedWalk_spec (hf : c.LinksForward) (k : Keysym) :
    ∀ fuel h, h < c.tree.length → c.tree.length - h ≤ fuel →
      ∃ y, c.feedWalk k fuel h = some y ∧ c.InChain h y ∧
        ((c.node y).keysym = k ∨ ∀ z, c.InChain h z → (c.node z).keysym ≠ k)
  | 0, _, hh, hfu => by omega
  | fuel + 1, h, hh, hfu => by
    simp only [feedWalk]
    by_cases hk : (c.node h).keysym = k
    · exact ⟨h, by simp [hk], .head, .inl hk⟩
    by_cases hn : (c.node h).next = 0
    · refine ⟨h, by simp [hn], .head, .inr fun z hz => ?_⟩
      rcases hz.cases_head with rfl | ⟨hne, _⟩
      · exact hk
      · exact absurd hn hne
    have hlt := (hf h hh).1.resolve_left hn
    obtain ⟨y, hy, hyc, hyk⟩ := feedWalk_spec hf k fuel _ hlt.2 (by omega)
    refine ⟨y, by simp [hk, hn, hy], .trans (.next .head hn) hyc, ?_⟩
    refine hyk.imp_right fun hno z hz => ?_
    rcases hz.cases_head with rfl | ⟨_, hz'⟩
    · exact hk
    · exact hno z hz'

end Compose

section Feed

variable {isModifier : Keysym → Bool} {c : Compose} {st : State} {k : Keysym}

theorem stateFeed_modifier (h : isModifier k) : stateFeed isModifier c st k = some st := by
  simp [stateFeed, h]

/-- A feed on a table whose links point forward, from a state inside the node array: it stops,
keeps the old `context` as `prev_context`, and moves to the node of the chain after the current
node that matches the keysym, or to `0` when none does. -/
theorem stateFeed_spec (hf : c.LinksForward) (h0 : 0 < c.tree.length)
    (hst : st.context < c.tree.length) (hk : ¬ isModifier k) :
    ∃ y, stateFeed isModifier c st k = some ⟨st.context, y⟩ ∧ y < c.tree.length ∧
      ((c.InChain (c.node st.context).successor y ∧ (c.node y).keysym = k) ∨
        (y = 0 ∧ ∀ z, c.InChain (c.node st.context).successor z → (c.node z).keysym ≠ k)) := by
  have hh : (c.node st.context).successor < c.tree.length :=
    (Compose.IsHead.successor hst).lt_length hf h0
  have hctx : (if (c.node st.context).successor ≠ 0 then (c.node st.context).successor else 0) =
      (c.node st.context).successor := by
    split_ifs with h <;> simp_all
  obtain ⟨y, hy, hyc, hyk⟩ := Compose.feedWalk_spec hf k _ _ hh (Nat.sub_le _ _)
  simp only [stateFeed, hk, hctx, hy, Option.map_some', Bool.false_eq_true, if_false]
  by_cases hky : (c.node y).keysym = k
  · exact ⟨y, by simp [hky], hyc.lt_length hf hh, .inl ⟨hyc, hky⟩⟩
  · exact ⟨0, by simp [hky], h0, .inr ⟨rfl, hyk.resolve_left hky⟩⟩

end Feed

/-! ## Safety -/

section Safety

variable {isModifier : Keysym → Bool} {c : Compose}

/-- Both indices of the state lie inside the node array. -/
def State.Valid (c : Compose) (st : State) : Prop :=
  st.prevContext < c.tree.length ∧ st.context < c.tree.length

variable (isModifier) in
theorem State.Valid.call (hw : c.Wf) {st : State} (hv : st.Valid c) (call : Call) :
    ∃ st', stateCall isModifier c st call = some st' ∧ st'.Valid c := by
  cases call with
  | reset => exact ⟨_, rfl, hw.lt_length, hw.lt_length⟩
  | feed k =>
    by_cases hk : isModifier k
    · exact ⟨st, stateFeed_modifier hk, hv⟩
    · obtain ⟨y, hy, hyl, -⟩ := stateFeed_spec hw.forward hw.lt_length hv.2 hk
      exact ⟨_, hy, hv.2, hyl⟩

variable (isModifier) in
theorem State.Valid.run (hw : c.Wf) :
    ∀ (calls : List Call) (st : State), st.Valid c →
      ∃ st', calls.foldlM (stateCall isModifier c) st = some st' ∧ st'.Valid c
  | [], st, hv => ⟨st, rfl, hv⟩
  | call :: calls, st, hv => by
    obtain ⟨st₁, h₁, hv₁⟩ := hv.call isModifier hw call
    obtain ⟨st', h', hv'⟩ := State.Valid.run hw calls st₁ hv₁
    exact ⟨st', by simp [List.foldlM_cons, h₁, h'], hv'⟩

/-- Over every run of feeds and resets from `xkb_compose_state_new` on a well-formed table, each
feed stops within its bound, both indices stay inside the node array, and the string that
`get_utf8` reads starts inside the blob and ends with a NUL inside it. -/
theorem run_safe (hw : c.Wf) (calls : List Call) :
    ∃ st, calls.foldlM (stateCall isModifier c) stateNew = some st ∧
      st.prevContext < c.tree.length ∧ st.context < c.tree.length ∧
      (c.node st.context).utf8 < c.utf8.length ∧ 0 ∈ c.utf8.drop (c.node st.context).utf8 := by
  obtain ⟨st, h, hp, hc⟩ :=
    State.Valid.run isModifier hw calls stateNew ⟨hw.lt_length, hw.lt_length⟩
  have ho := hw.blob.2.2 _ hc
  exact ⟨st, h, hp, hc, ho, hw.blob.zero_mem_drop ho⟩

theorem run_safe_aeOnly : aeOnlyTable.Wf ∧
    ∃ st, [Call.feed 0x61, .feed 0x65].foldlM (stateCall (fun _ => false) aeOnlyTable) stateNew =
      some st ∧ st.prevContext < aeOnlyTable.tree.length ∧ st.context < aeOnlyTable.tree.length ∧
      (aeOnlyTable.node st.context).utf8 < aeOnlyTable.utf8.length ∧
      0 ∈ aeOnlyTable.utf8.drop (aeOnlyTable.node st.context).utf8 :=
  ⟨aeOnlyTable_wf, run_safe aeOnlyTable_wf _⟩

end Safety

/-! ## `get_utf8` at a keysym-only leaf -/

section Utf8

variable {utf8Of : Keysym → Option (List UInt8)} {c : Compose} {st : State} {size : Nat}

/-- At a leaf with a keysym and no string, `get_utf8` never agrees with `snprintf` on the
keysym's text (its UTF-8, empty when it has none): for a buffer of at least 7 bytes it counts
the NUL in its return value, or writes nothing at all when the keysym has no Unicode form, and
for a shorter buffer it returns `-1` and writes nothing. -/
theorem stateGetUtf8_keysym_only (hu : (c.node st.context).utf8 = 0)
    (hks : (c.node st.context).ks ≠ noSymbol) (hsize : 0 < size) :
    stateGetUtf8 utf8Of c st size ≠ snprintf size ((utf8Of (c.node st.context).ks).getD []) := by
  have hkey : (c.node st.context).utf8 = 0 ∧ (c.node st.context).ks ≠ noSymbol := ⟨hu, hks⟩
  simp only [stateGetUtf8, if_pos hkey, keysymToUtf8, snprintf,
    if_neg (Nat.pos_iff_ne_zero.1 hsize)]
  split_ifs with h7
  · simp only [ne_eq, Prod.mk.injEq, not_and]
    intro h
    omega
  · cases utf8Of (c.node st.context).ks with
    | none => simp
    | some u =>
      simp only [Option.getD_some, ne_eq, Prod.mk.injEq, not_and]
      intro h
      omega

def aeUtf8 (ks : Keysym) : Option (List UInt8) := if ks = 0xe6 then some [0xc3, 0xa6] else none

theorem stateGetUtf8_keysym_only_ae : (aeOnlyTable.node 2).utf8 = 0 ∧
    (aeOnlyTable.node 2).ks ≠ noSymbol ∧ 0 < 64 ∧
    stateGetUtf8 aeUtf8 aeOnlyTable ⟨1, 2⟩ 64 ≠
      snprintf 64 ((aeUtf8 (aeOnlyTable.node 2).ks).getD []) :=
  ⟨rfl, by decide, by decide, stateGetUtf8_keysym_only rfl (by decide) (by decide)⟩

example : stateGetUtf8 aeUtf8 aeOnlyTable ⟨1, 2⟩ 64 = (3, [0xc3, 0xa6, 0]) := by decide

example : snprintf 64 [0xc3, 0xa6] = (2, [0xc3, 0xa6, 0]) := by decide

example : stateGetUtf8 aeUtf8 aeOnlyTable ⟨1, 2⟩ 4 = (-1, []) := by decide

end Utf8

end XkbCompose
