import XkbCompose.State

/-!
# XkbCompose.Refinement

What the compose state is for, as a machine over the abstract map `M` of the table. It keeps the
keysyms fed since the last sequence ended (`cur`) and the same before the last feed (`prev`). A
keysym extends `cur` when `cur` is a proper prefix of a key, and starts a new sequence
otherwise; the result is kept when it is a key or a proper prefix of one, and dropped otherwise.
The status says whether `cur` is a key, a proper prefix of one, or empty after a dropped
sequence (`CANCELLED`) or not.

The state of the code refines this machine: `context` is the node `cur` leads to, or the root
when `cur` is empty, and `prev_context` the node `prev` leads to (`Related`).

* `Related.call`: one call of the state API keeps the two related.
* `Related.getStatus`, `Related.getOneSym`, `Related.getUtf8`: related states give the same
  status, keysym and text.
-/

namespace XkbCompose

/-- The state of the reference machine. -/
structure RefState where
  prev : List Keysym
  cur : List Keysym
  deriving DecidableEq, Repr

namespace RefState

variable (M : List Keysym → Option Leaf)

/-- `P` is not empty and is a proper prefix of a key of `M`. -/
def IsPrefix (P : List Keysym) : Prop := P ≠ [] ∧ ∃ t, t ≠ [] ∧ (M (P ++ t)).isSome

variable [DecidablePred (IsPrefix M)] (isModifier : Keysym → Bool)
  (utf8Of : Keysym → Option (List UInt8))

/-- A feed: modifiers change nothing; another keysym extends `cur` when `cur` is a proper prefix
of a key and starts a new sequence otherwise, and the result is kept only when it is a key or a
proper prefix of one. -/
def feed (σ : RefState) (k : Keysym) : RefState :=
  if isModifier k then σ
  else
    let Q := (if IsPrefix M σ.cur then σ.cur else []) ++ [k]
    ⟨σ.cur, if (M Q).isSome ∨ IsPrefix M Q then Q else []⟩

/-- One call on the reference machine. -/
def call (σ : RefState) : Call → RefState
  | .feed k => feed M isModifier σ k
  | .reset => ⟨[], []⟩

/-- The status of the reference machine. -/
def status (σ : RefState) : Status :=
  if σ.cur = [] then (if IsPrefix M σ.prev then .cancelled else .nothing)
  else if (M σ.cur).isSome then .composed
  else if IsPrefix M σ.cur then .composing
  else .nothing

/-- The result keysym: that of the key `cur`, if any. -/
def oneSym (σ : RefState) : Keysym :=
  match M σ.cur with
  | some d => d.keysym.getD noSymbol
  | none => noSymbol

/-- The result text: the string of the key `cur`, else the UTF-8 of its keysym, else nothing. -/
def text (σ : RefState) : List UInt8 :=
  match M σ.cur with
  | some ⟨some s, _⟩ => s
  | some ⟨none, some ks⟩ => (utf8Of ks).getD []
  | _ => []

end RefState

namespace Compose

variable {c : Compose}

theorem Shape.isPrefix_iff (hs : c.Shape) (P : List Keysym) :
    RefState.IsPrefix c.lookup P ↔ ∃ x, c.ReachFrom 0 P x ∧ (c.node x).successor ≠ 0 := by
  constructor
  · rintro ⟨hP, t, ht, hkey⟩
    obtain ⟨d, hd⟩ := Option.isSome_iff_exists.1 hkey
    obtain ⟨y, hy, -⟩ := (hs.lookup_eq_some).1 hd
    obtain ⟨p, hp, hps, -⟩ := hy.split hP ht
    exact ⟨p, hp, hps⟩
  · rintro ⟨x, hx, hsx⟩
    obtain ⟨t, y, ht, hy, hy0, hsy⟩ := hs.exists_key _ x P le_rfl hx hsx
    exact ⟨hx.ne_nil, t, ht, Option.isSome_iff_exists.2
      ⟨_, (hs.lookup_eq_some).2 ⟨y, hy, hy0, hsy, rfl⟩⟩⟩

def prefixAt (c : Compose) (P : List Keysym) : Bool :=
  (c.lookupFrom P 0).any fun x => (c.node x).successor ≠ 0

def Shape.decIsPrefix (hs : c.Shape) : DecidablePred (RefState.IsPrefix c.lookup) := fun P =>
  decidable_of_iff (c.prefixAt P = true) <| by
    have hl := fun x => lookupFrom_iff (x := x) hs.forward hs.distinct hs.lt_length P (.inl rfl)
    rw [hs.isPrefix_iff, prefixAt]
    cases hx : c.lookupFrom P 0 with
    | none =>
      simp only [Option.any, Bool.false_eq_true, false_iff, not_exists, not_and]
      exact fun y hy => by simp [(hl y).2 hy] at hx
    | some x =>
      simp only [Option.any, decide_eq_true_eq]
      exact ⟨fun h => ⟨x, (hl x).1 hx, h⟩, fun ⟨y, hy, hsy⟩ => by
        rwa [Option.some.inj (((hl y).2 hy).symm.trans hx)] at hsy⟩

/-- Node `x` is where `P` leads: the root for the empty sequence. -/
def Corr (c : Compose) (x : Nat) (P : List Keysym) : Prop :=
  (P = [] ∧ x = 0) ∨ (x ≠ 0 ∧ c.ReachFrom 0 P x)

/-- The code's state and the reference state are related on the table `c`. -/
def Related (c : Compose) (st : State) (σ : RefState) : Prop :=
  c.Corr st.context σ.cur ∧ c.Corr st.prevContext σ.prev

section Corr

variable {x : Nat} {P : List Keysym}

theorem Corr.nil_iff (h : c.Corr x P) : P = [] ↔ x = 0 := by
  rcases h with ⟨rfl, rfl⟩ | ⟨hx, hr⟩
  · simp
  · exact ⟨fun hP => absurd hP hr.ne_nil, fun h0 => absurd h0 hx⟩

variable (hs : c.Shape)
include hs

theorem Corr.lt_length (h : c.Corr x P) : x < c.tree.length := by
  rcases h with ⟨-, rfl⟩ | ⟨-, hr⟩
  · exact hs.lt_length
  · exact hs.reach_lt (.inl rfl) hr

theorem Corr.lookup (h : c.Corr x P) :
    c.lookup P = if x ≠ 0 ∧ (c.node x).successor = 0 then some (c.leafOf x) else none := by
  rcases h with ⟨rfl, rfl⟩ | ⟨-, hr⟩
  · simp [Compose.lookup, lookupFrom]
  · simp only [Compose.lookup,
      (lookupFrom_iff hs.forward hs.distinct hs.lt_length P (.inl rfl)).2 hr]

theorem Corr.isPrefix_iff (h : c.Corr x P) :
    RefState.IsPrefix c.lookup P ↔ (c.node x).successor ≠ 0 := by
  rw [hs.isPrefix_iff]
  rcases h with ⟨rfl, rfl⟩ | ⟨-, hr⟩
  · simp only [ne_eq, hs.root.2.2.1, not_true_eq_false, iff_false, not_exists, not_and]
    intro y hy; exact absurd rfl hy.ne_nil
  · exact ⟨fun ⟨y, hy, hsy⟩ => hs.reach_unique (.inl rfl) hr hy ▸ hsy, fun hsx => ⟨x, hr, hsx⟩⟩

end Corr

section Refinement

variable [DecidablePred (RefState.IsPrefix c.lookup)] {isModifier : Keysym → Bool}
  {utf8Of : Keysym → Option (List UInt8)} {st : State} {σ : RefState}

theorem Corr.of_target (hs : c.Shape) {Q : List Keysym} {y : Nat}
    (h : (c.ReachFrom 0 Q y ∧ y ≠ 0) ∨ (y = 0 ∧ ∀ z, c.ReachFrom 0 Q z → z = 0)) :
    c.Corr y (if (c.lookup Q).isSome ∨ RefState.IsPrefix c.lookup Q then Q else []) := by
  rcases h with ⟨hr, hy⟩ | ⟨rfl, hno⟩
  · have hc : c.Corr y Q := .inr ⟨hy, hr⟩
    rw [if_pos]
    · exact hc
    · by_cases hsy : (c.node y).successor = 0
      · left; simp [hc.lookup hs, hy, hsy]
      · exact .inr ((hc.isPrefix_iff hs).2 hsy)
  · rw [if_neg]
    · exact .inl ⟨rfl, rfl⟩
    · rintro (hk | hp)
      · obtain ⟨d, hd⟩ := Option.isSome_iff_exists.1 hk
        obtain ⟨z, hz, hz0, -⟩ := (hs.lookup_eq_some).1 hd
        exact hz0 (hno z hz)
      · obtain ⟨z, hz, hsz⟩ := (hs.isPrefix_iff Q).1 hp
        rw [hno z hz] at hsz
        exact hsz hs.root.2.2.1

/-- One call of the state API, on the code and on the reference machine, keeps them related. -/
theorem Related.call (hs : c.Shape) (h : c.Related st σ) (call : Call) :
    ∃ st', stateCall isModifier c st call = some st' ∧
      c.Related st' (σ.call c.lookup isModifier call) := by
  cases call with
  | reset => exact ⟨_, rfl, .inl ⟨rfl, rfl⟩, .inl ⟨rfl, rfl⟩⟩
  | feed k =>
    by_cases hk : isModifier k
    · exact ⟨st, stateFeed_modifier hk, by simpa [RefState.call, RefState.feed, hk] using h⟩
    obtain ⟨y, hy, -, hyc⟩ := stateFeed_spec hs.forward hs.lt_length (h.1.lt_length hs) hk
    refine ⟨_, hy, ?_⟩
    simp only [Related, RefState.call, RefState.feed, hk, Bool.false_eq_true, if_false]
    refine ⟨?_, h.1⟩
    -- the sequence the keysym extends leads to the chain the walk searches
    have hhead : c.HeadFrom 0 (if RefState.IsPrefix c.lookup σ.cur then σ.cur else [])
        (c.node st.context).successor := by
      by_cases hp : RefState.IsPrefix c.lookup σ.cur
      · rw [if_pos hp]
        have hsx := (h.1.isPrefix_iff hs).1 hp
        rcases h.1 with ⟨hnil, -⟩ | ⟨-, hr⟩
        · exact absurd hnil hp.1
        · exact .inr ⟨_, hr, rfl, hsx⟩
      · rw [if_neg hp]
        exact .inl ⟨rfl, not_not.1 (mt (h.1.isPrefix_iff hs).2 hp)⟩
    apply Corr.of_target hs
    rcases hyc with ⟨hyc, hky⟩ | ⟨rfl, hno⟩
    · have hr := hhead.reach_append hyc hky
      by_cases hy0 : y = 0
      · exact .inr ⟨hy0, fun z hz => hy0 ▸ hs.reach_unique (.inl rfl) hz (hy0 ▸ hr)⟩
      · exact .inl ⟨hr, hy0⟩
    · refine .inr ⟨rfl, fun z hz => ?_⟩
      obtain ⟨hzc, hkz⟩ := hs.reach_append_inv hhead hz
      exact absurd hkz (hno z hzc)

/-- Over a run of calls from the initial states, the two stay related. -/
theorem Related.run (hs : c.Shape) :
    ∀ (calls : List Call) (st : State) (σ : RefState), c.Related st σ →
      ∃ st', calls.foldlM (stateCall isModifier c) st = some st' ∧
        c.Related st' (calls.foldl (RefState.call c.lookup isModifier) σ)
  | [], st, σ, h => ⟨st, rfl, h⟩
  | call :: calls, st, σ, h => by
    obtain ⟨st₁, h₁, hr₁⟩ := h.call hs call
    obtain ⟨st', h', hr'⟩ := Related.run hs calls st₁ _ hr₁
    exact ⟨st', by simp [List.foldlM_cons, h₁, h'], hr'⟩

theorem Related.getStatus (hs : c.Shape) (h : c.Related st σ) :
    stateGetStatus c st = σ.status c.lookup := by
  have h0 := hs.root.2.2.1
  simp only [stateGetStatus, RefState.status, h.1.nil_iff, h.2.isPrefix_iff hs,
    h.1.isPrefix_iff hs, h.1.lookup hs]
  by_cases hc : st.context = 0
  · simp [hc]
  · by_cases hsc : (c.node st.context).successor = 0 <;> simp [hc, hsc]

omit [DecidablePred (RefState.IsPrefix c.lookup)] in
theorem Related.getOneSym (hs : c.Shape) (h : c.Related st σ) :
    stateGetOneSym c st = σ.oneSym c.lookup := by
  simp only [stateGetOneSym, RefState.oneSym, h.1.lookup hs]
  split_ifs with hl
  · simp only [leafOf]; split_ifs with hk <;> simp [hk]
  · -- the root and internal nodes carry no keysym
    rcases not_and_or.1 hl with hc | hc
    · rw [not_not.1 hc]; exact hs.root.2.2.2.1.2
    · exact (hs.bare _ (h.1.lt_length hs) hc).2

omit [DecidablePred (RefState.IsPrefix c.lookup)] in
/-- With a buffer of at least 256 bytes, `get_utf8` writes the reference text and a NUL, when
the keysym of a keysym-only key has a Unicode form. -/
theorem Related.getUtf8 (hs : c.Shape) (h : c.Related st σ)
    (hU : ∀ ks, c.lookup σ.cur = some ⟨none, some ks⟩ → (utf8Of ks).isSome)
    {size : Nat} (hsize : 256 ≤ size) :
    (stateGetUtf8 utf8Of c st size).2 = σ.text c.lookup utf8Of ++ [0] := by
  have hxl := h.1.lt_length hs
  have hlen := hs.short _ hxl
  have hfit : ∀ s : List UInt8, s.length ≤ 255 → (snprintf size s).2 = s ++ [0] := fun s hl => by
    simp [snprintf, show size ≠ 0 by omega, List.take_of_length_le (show s.length ≤ size - 1 by omega)]
  simp only [RefState.text, h.1.lookup hs] at hU ⊢
  have hbare : c.Bare st.context → (stateGetUtf8 utf8Of c st size).2 = [0] := fun hb => by
    simp only [stateGetUtf8, hb.1, hb.2, ne_eq, not_true_eq_false, and_false, if_false]
    rw [hfit _ (by simpa [hb.1] using hlen), hs.blob.stringAt_zero]; rfl
  split_ifs at hU ⊢ with hl
  · obtain ⟨hx0, hsx⟩ := hl
    simp only [leafOf] at hU ⊢
    by_cases hu : (c.node st.context).utf8 = 0
    · by_cases hk : (c.node st.context).ks = noSymbol
      · simp only [hu, hk, if_true]; exact hbare ⟨hu, hk⟩
      · simp only [hu, hk, if_true, if_false] at hU ⊢
        obtain ⟨u, hu'⟩ := Option.isSome_iff_exists.1 (hU _ rfl)
        simp [stateGetUtf8, hu, hk, keysymToUtf8, hu', show ¬ size < 7 by omega]
    · simp only [hu, if_false]
      simp only [stateGetUtf8, hu, false_and, if_false]
      exact hfit _ hlen
  · rcases not_and_or.1 hl with hc | hc
    · exact hbare (by rw [not_not.1 hc]; exact hs.root.2.2.2.1)
    · exact hbare (hs.bare _ hxl hc)

end Refinement

end Compose

/-- The compose state refines the reference machine over the abstract map of the table: over
every run of feeds and resets from `xkb_compose_state_new` on a well-formed table, the status,
the result keysym and the text written into a buffer of at least 256 bytes are those of the
reference machine, when every keysym-only key has a keysym with a Unicode form. -/
theorem stateCall_refines {c : Compose} (hw : c.Wf)
    [DecidablePred (RefState.IsPrefix c.lookup)] (isModifier : Keysym → Bool)
    (utf8Of : Keysym → Option (List UInt8))
    (hU : ∀ s ks, c.lookup s = some ⟨none, some ks⟩ → (utf8Of ks).isSome) (calls : List Call) :
    ∃ st, calls.foldlM (stateCall isModifier c) stateNew = some st ∧
      stateGetStatus c st = (calls.foldl (RefState.call c.lookup isModifier) ⟨[], []⟩).status
        c.lookup ∧
      stateGetOneSym c st = (calls.foldl (RefState.call c.lookup isModifier) ⟨[], []⟩).oneSym
        c.lookup ∧
      ∀ size, 256 ≤ size → (stateGetUtf8 utf8Of c st size).2 =
        (calls.foldl (RefState.call c.lookup isModifier) ⟨[], []⟩).text c.lookup utf8Of ++ [0] := by
  obtain ⟨st, hrun, hr⟩ :=
    Compose.Related.run hw.toShape calls stateNew ⟨[], []⟩ ⟨.inl ⟨rfl, rfl⟩, .inl ⟨rfl, rfl⟩⟩
  exact ⟨st, hrun, hr.getStatus hw.toShape, hr.getOneSym hw.toShape,
    fun size hsize => hr.getUtf8 hw.toShape (fun ks => hU _ ks) hsize⟩

instance : DecidablePred (RefState.IsPrefix aeOnlyTable.lookup) :=
  aeOnlyTable_wf.toShape.decIsPrefix

theorem aeOnlyTable_keysym_only {s : List Keysym} {ks : Keysym}
    (h : aeOnlyTable.lookup s = some ⟨none, some ks⟩) : (aeUtf8 ks).isSome := by
  obtain ⟨x, hx, hx0, hsx, hd⟩ := aeOnlyTable_wf.lookup_eq_some.1 h
  have hxl : x < 3 := aeOnlyTable_wf.reach_lt (.inl rfl) hx
  rcases x with _ | _ | _ | x
  · exact absurd rfl hx0
  · exact absurd hsx (by decide)
  · obtain ⟨-, rfl⟩ : ¬ (0xe6 : Keysym) = noSymbol ∧ ks = 0xe6 := by
      simpa [Compose.leafOf, aeOnlyTable, Compose.node] using hd.symm
    rfl
  · omega

theorem stateCall_refines_aeOnly : aeOnlyTable.Wf ∧
    (∀ s ks, aeOnlyTable.lookup s = some ⟨none, some ks⟩ → (aeUtf8 ks).isSome) ∧
    ∃ st, [Call.feed 0x61, .feed 0x65].foldlM (stateCall (fun _ => false) aeOnlyTable) stateNew =
        some st ∧
      stateGetStatus aeOnlyTable st = ([Call.feed 0x61, .feed 0x65].foldl
        (RefState.call aeOnlyTable.lookup fun _ => false) ⟨[], []⟩).status aeOnlyTable.lookup ∧
      stateGetOneSym aeOnlyTable st = ([Call.feed 0x61, .feed 0x65].foldl
        (RefState.call aeOnlyTable.lookup fun _ => false) ⟨[], []⟩).oneSym aeOnlyTable.lookup ∧
      ∀ size, 256 ≤ size → (stateGetUtf8 aeUtf8 aeOnlyTable st size).2 =
        ([Call.feed 0x61, .feed 0x65].foldl (RefState.call aeOnlyTable.lookup fun _ => false)
          ⟨[], []⟩).text aeOnlyTable.lookup aeUtf8 ++ [0] :=
  ⟨aeOnlyTable_wf, fun _ _ => aeOnlyTable_keysym_only,
    stateCall_refines aeOnlyTable_wf _ _ (fun _ _ => aeOnlyTable_keysym_only) _⟩

example : ([Call.feed 0x61, .feed 0x65].foldl (RefState.call aeOnlyTable.lookup fun _ => false)
    ⟨[], []⟩).status aeOnlyTable.lookup = .composed := by decide

example : ([Call.feed 0x61, .feed 0x66].foldl (RefState.call aeOnlyTable.lookup fun _ => false)
    ⟨[], []⟩).status aeOnlyTable.lookup = .cancelled := by decide

end XkbCompose
