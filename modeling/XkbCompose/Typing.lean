import XkbCompose.Lines
import XkbCompose.Refinement

/-!
# XkbCompose.Typing

What the one who types a Compose sequence sees. On every well-formed table, typing the keysyms of
one of its keys from a fresh state composes it: the status is `COMPOSING` after every keysym but
the last, and `COMPOSED` after the last, with the keysym and the text of the key's leaf
(`typeKey`). It holds as well after any run of calls that leaves the status other than
`COMPOSING`, so that sequences typed one after the other do not interfere (`typeKey_after`). The
parser and `add_production` in between, the same holds of every line of a Compose file whose
sequence is neither a prefix nor an extension of another line's (`newFromBuffer_type_line`).

* `RefState.feed_prefix`: on the reference machine, typing a key from a state whose sequence is a
  proper prefix of no key goes through the prefixes of the key, one keysym at a time.
* `Compose.Shape.not_isPrefix`: a sequence whose status is not `COMPOSING` is a proper prefix of
  no key.
* `refEntries_get`: a sequence that no other entry's is a prefix or an extension of keeps its
  leaf in the reference map, wherever it stands in the file.
-/

namespace XkbCompose

/-- The text `get_utf8` writes for a leaf: its string, else the UTF-8 of its keysym. -/
def Leaf.text (utf8Of : Keysym → Option (List UInt8)) : Leaf → List UInt8
  | ⟨some s, _⟩ => s
  | ⟨none, some ks⟩ => (utf8Of ks).getD []
  | ⟨none, none⟩ => []

/-! ## Typing a key on the reference machine -/

namespace RefState

variable {M : List Keysym → Option Leaf} {S : List Keysym}

theorem isPrefix_of_proper (hS : (M S).isSome) {P : List Keysym} (hP : P <+: S) (h0 : P ≠ [])
    (hne : P ≠ S) : IsPrefix M P := by
  obtain ⟨t, rfl⟩ := hP
  exact ⟨h0, t, by rintro rfl; simp at hne, hS⟩

variable [DecidablePred (IsPrefix M)] {isModifier : Keysym → Bool}

/-- Typing the keysyms of a key, from a state whose sequence is a proper prefix of no key: after
each keysym the sequence is the keysyms typed so far. -/
theorem feed_prefix (hS : (M S).isSome) (hmod : ∀ k ∈ S, isModifier k = false) {σ : RefState}
    (hσ : ¬ IsPrefix M σ.cur) :
    ∀ P, P <+: S → P ≠ [] → ((P.map Call.feed).foldl (call M isModifier) σ).cur = P := by
  intro P
  induction P using List.reverseRecOn with
  | nil => exact fun _ h => absurd rfl h
  | append_singleton P k ih =>
    intro hP _
    have hk : isModifier k = false := hmod k (hP.subset (by simp))
    have hkept : (M (P ++ [k])).isSome ∨ IsPrefix M (P ++ [k]) := by
      by_cases he : P ++ [k] = S
      · exact .inl (he ▸ hS)
      · exact .inr (isPrefix_of_proper hS hP (by simp) he)
    -- the keysym extends what was typed before it, if anything
    have hcur : (if IsPrefix M ((P.map Call.feed).foldl (call M isModifier) σ).cur
        then ((P.map Call.feed).foldl (call M isModifier) σ).cur else []) = P := by
      by_cases hP0 : P = []
      · subst hP0; exact if_neg hσ
      · have hPP := (List.prefix_append P [k]).trans hP
        have hne : P ≠ S := fun h => by
          have := hP.length_le
          simp only [h, List.length_append, List.length_singleton] at this
          omega
        rw [ih hPP hP0, if_pos (isPrefix_of_proper hS hPP hP0 hne)]
    simp only [List.map_append, List.map_cons, List.map_nil, List.foldl_append, List.foldl_cons,
      List.foldl_nil, call, feed, hk, Bool.false_eq_true, if_false, hcur, if_pos hkept]

end RefState

/-! ## Typing a key on a table -/

namespace Compose

variable {c : Compose}

theorem Shape.lookup_of_prefix (hs : c.Shape) {S P : List Keysym} {d : Leaf}
    (hS : c.lookup S = some d) (hP : P <+: S) (hne : P ≠ S) : c.lookup P = none := by
  cases hP' : c.lookup P with
  | none => rfl
  | some d' =>
    obtain ⟨y, hy, -, hly, -⟩ := hs.lookup_eq_some.1 hP'
    obtain ⟨z, hz, -⟩ := hs.lookup_eq_some.1 hS
    exact absurd (hs.prefix_of_leaf hy hly hz hP) hne

/-- On a well-shaped table, a sequence whose status is not `COMPOSING` is a proper prefix of no
key: the reference machine keeps a sequence only while it is a key or a proper prefix of one. -/
theorem Shape.not_isPrefix (hs : c.Shape) [DecidablePred (RefState.IsPrefix c.lookup)]
    {σ : RefState} (h : σ.status c.lookup ≠ .composing) : ¬ RefState.IsPrefix c.lookup σ.cur := by
  intro hp
  obtain ⟨t, ht, hk⟩ := hp.2
  obtain ⟨d, hd⟩ := Option.isSome_iff_exists.1 hk
  apply h
  rw [RefState.status, if_neg hp.1, hs.lookup_of_prefix hd (List.prefix_append _ _)
    (by simpa using ht), if_pos hp]
  rfl

end Compose

/-- What the one who types the keysyms of the key `S`, whose leaf is `d`, sees from the state
`st₀`: `COMPOSING` after every keysym but the last, and after the last `COMPOSED`, with the keysym
of `d` from `get_one_sym` and the text of `d` and a NUL from `get_utf8` into a buffer of at least
256 bytes. -/
def Composes (isModifier : Keysym → Bool) (utf8Of : Keysym → Option (List UInt8)) (c : Compose)
    (st₀ : State) (S : List Keysym) (d : Leaf) : Prop :=
  (∀ P, P <+: S → P ≠ [] → P ≠ S → ∃ st,
    (P.map Call.feed).foldlM (stateCall isModifier c) st₀ = some st ∧
      stateGetStatus c st = .composing) ∧
  ∃ st, (S.map Call.feed).foldlM (stateCall isModifier c) st₀ = some st ∧
    stateGetStatus c st = .composed ∧ stateGetOneSym c st = d.keysym.getD noSymbol ∧
    ∀ size, 256 ≤ size → (stateGetUtf8 utf8Of c st size).2 = d.text utf8Of ++ [0]

section TypeKey

variable {c : Compose} (hw : c.Wf) (isModifier : Keysym → Bool)
  (utf8Of : Keysym → Option (List UInt8)) {S : List Keysym} {d : Leaf}
  (hS : c.lookup S = some d) (hmod : ∀ k ∈ S, isModifier k = false)
  (hU : ∀ ks, d = ⟨none, some ks⟩ → (utf8Of ks).isSome)
include hw hS hmod hU

/-- Typing the keysyms of a key from a state whose sequence is a proper prefix of no key composes
the key. -/
theorem typeKey_from {st₀ : State} {σ₀ : RefState} (hrel : c.Related st₀ σ₀)
    (hσ : ¬ RefState.IsPrefix c.lookup σ₀.cur) : Composes isModifier utf8Of c st₀ S d := by
  have hs := hw.toShape
  letI := hs.decIsPrefix
  have hS0 : S ≠ [] := by rintro rfl; simp [Compose.lookup, Compose.lookupFrom] at hS
  have hcur := RefState.feed_prefix (by simp [hS]) hmod hσ
  have run : ∀ calls : List Call, ∃ st, calls.foldlM (stateCall isModifier c) st₀ = some st ∧
      c.Related st (calls.foldl (RefState.call c.lookup isModifier) σ₀) := fun calls =>
    Compose.Related.run hs calls _ _ hrel
  refine ⟨fun P hP hP0 hne => ?_, ?_⟩
  · obtain ⟨st, hst, hr⟩ := run (P.map Call.feed)
    refine ⟨st, hst, ?_⟩
    rw [hr.getStatus hs, RefState.status, hcur P hP hP0, if_neg hP0,
      hs.lookup_of_prefix hS hP hne, if_pos (RefState.isPrefix_of_proper (by simp [hS]) hP hP0 hne)]
    rfl
  · obtain ⟨st, hst, hr⟩ := run (S.map Call.feed)
    have hcS := hcur S (List.prefix_refl S) hS0
    refine ⟨st, hst, ?_, ?_, fun size hsize => ?_⟩
    · rw [hr.getStatus hs, RefState.status, hcS, if_neg hS0, hS]
      rfl
    · rw [hr.getOneSym hs, RefState.oneSym, hcS, hS]
    · rw [hr.getUtf8 hs (fun ks h => hU ks (Option.some.inj ((hcS ▸ hS).symm.trans h))) hsize,
        RefState.text, hcS, hS]
      rcases d with ⟨_ | s, _ | ks⟩ <;> rfl

/-- On a well-formed table, typing the keysyms of one of its keys from a fresh state composes it,
when no keysym of it is a modifier and a keysym-only key has a Unicode form. -/
theorem typeKey : Composes isModifier utf8Of c stateNew S d :=
  typeKey_from hw isModifier utf8Of hS hmod hU
    (show c.Related stateNew ⟨[], []⟩ from ⟨.inl ⟨rfl, rfl⟩, .inl ⟨rfl, rfl⟩⟩) fun h => h.1 rfl

/-- Typed sequences do not interfere: after any run of feeds and resets from a fresh state that
leaves the status other than `COMPOSING` (a sequence just composed or cancelled, or none begun),
typing the keysyms of any key of a well-formed table composes that key. -/
theorem typeKey_after {calls : List Call} {st₀ : State}
    (h₀ : calls.foldlM (stateCall isModifier c) stateNew = some st₀)
    (hst : stateGetStatus c st₀ ≠ .composing) : Composes isModifier utf8Of c st₀ S d := by
  have hs := hw.toShape
  letI := hs.decIsPrefix
  obtain ⟨st, hrun, hr⟩ : ∃ st, calls.foldlM (stateCall isModifier c) stateNew = some st ∧
      c.Related st (calls.foldl (RefState.call c.lookup isModifier) ⟨[], []⟩) :=
    Compose.Related.run hs _ _ _ ⟨.inl ⟨rfl, rfl⟩, .inl ⟨rfl, rfl⟩⟩
  obtain rfl : st₀ = st := Option.some.inj (h₀.symm.trans hrun)
  exact typeKey_from hw isModifier utf8Of hS hmod hU hr (hs.not_isPrefix (hr.getStatus hs ▸ hst))

end TypeKey

theorem typeKey_after_ae : aeOnlyTable.Wf ∧
    aeOnlyTable.lookup [0x61, 0x65] = some ⟨none, some 0xe6⟩ ∧
    (∀ k ∈ [(0x61 : Keysym), 0x65], (fun _ => false : Keysym → Bool) k = false) ∧
    (∀ ks, (⟨none, some 0xe6⟩ : Leaf) = ⟨none, some ks⟩ → (aeUtf8 ks).isSome) ∧
    [Call.feed 0x61, .feed 0x65].foldlM (stateCall (fun _ => false) aeOnlyTable) stateNew =
      some ⟨1, 2⟩ ∧
    stateGetStatus aeOnlyTable ⟨1, 2⟩ ≠ .composing ∧
    Composes (fun _ => false) aeUtf8 aeOnlyTable ⟨1, 2⟩ [0x61, 0x65] ⟨none, some 0xe6⟩ :=
  have hS : aeOnlyTable.lookup [0x61, 0x65] = some ⟨none, some 0xe6⟩ := by decide
  have hU : ∀ ks, (⟨none, some 0xe6⟩ : Leaf) = ⟨none, some ks⟩ → (aeUtf8 ks).isSome := by
    rintro ks ⟨⟩
    rfl
  have h₀ : [Call.feed 0x61, .feed 0x65].foldlM (stateCall (fun _ => false) aeOnlyTable)
      stateNew = some ⟨1, 2⟩ := by decide
  have hst : stateGetStatus aeOnlyTable ⟨1, 2⟩ ≠ .composing := by decide
  ⟨aeOnlyTable_wf, hS, fun _ _ => rfl, hU, h₀, hst,
    typeKey_after aeOnlyTable_wf _ aeUtf8 hS (fun _ _ => rfl) hU h₀ hst⟩

/-! ## The reference map of a file -/

section RefEntries

variable {es : List (List Keysym × Leaf)}

theorem RefMap.mem_insert_of_mem {m : RefMap} {S : List Keysym} {r : Leaf} {s : List Keysym}
    {d : Leaf} (h : (s, d) ∈ m) (hs : ¬ s <+: S) : (s, d) ∈ m.insert S r := by
  by_cases hc : ∃ e ∈ m, S <+: e.1
  · rwa [RefMap.insert_of_covered hc]
  · exact (RefMap.mem_insert hc).2 (.inr ⟨h, hs⟩)

theorem RefMap.mem_of_mem_insert {m : RefMap} {S : List Keysym} {r : Leaf}
    {e : List Keysym × Leaf} (h : e ∈ m.insert S r) : e ∈ m ∨ e = (S, r) := by
  unfold RefMap.insert at h
  split_ifs at h
  · exact .inl h
  · simp only [List.mem_append, List.mem_filter, List.mem_singleton] at h
    exact h.imp And.left id

theorem mem_foldl_insert : ∀ (es : List (List Keysym × Leaf)) (m : RefMap)
    {e : List Keysym × Leaf}, e ∈ es.foldl (fun m e => m.insert e.1 e.2) m → e ∈ m ∨ e ∈ es
  | [], _, _, h => .inl h
  | e' :: es, m, e, h => by
    rcases mem_foldl_insert es _ h with h | h
    · exact (RefMap.mem_of_mem_insert h).imp id fun (h : e = (e'.1, e'.2)) =>
        h ▸ List.mem_cons_self e' es
    · exact .inr (.tail _ h)

theorem foldl_insert_keep : ∀ (es : List (List Keysym × Leaf)) {m : RefMap} {s : List Keysym}
    {d : Leaf}, (s, d) ∈ m → (∀ e ∈ es, ¬ s <+: e.1) →
      (s, d) ∈ es.foldl (fun m e => m.insert e.1 e.2) m
  | [], _, _, _, h, _ => h
  | _ :: es, _, _, _, h, hs =>
    foldl_insert_keep es (RefMap.mem_insert_of_mem h (hs _ (.head _)))
      fun e he => hs e (.tail _ he)

theorem foldl_insert_prefixFree : ∀ (es : List (List Keysym × Leaf)) {m : RefMap},
    m.PrefixFree → (es.foldl (fun m e => m.insert e.1 e.2) m).PrefixFree
  | [], _, h => h
  | _ :: es, _, h => foldl_insert_prefixFree es h.insert

/-- A sequence that is neither a prefix nor an extension of any other entry's keeps its leaf in
the reference map, wherever it stands. -/
theorem refEntries_get {pre post : List (List Keysym × Leaf)} {S : List Keysym} {d : Leaf}
    (h : ∀ e ∈ pre ++ post, ¬ S <+: e.1 ∧ ¬ e.1 <+: S) :
    (refEntries (pre ++ (S, d) :: post)).get S = some d := by
  have hfree : ¬ ∃ e ∈ refEntries pre, S <+: e.1 := by
    rintro ⟨e, he, hSe⟩
    rcases mem_foldl_insert pre [] he with he | he
    · cases he
    · exact (h e (List.mem_append_left _ he)).1 hSe
  have hmem : (S, d) ∈ refEntries (pre ++ (S, d) :: post) := by
    rw [refEntries, List.foldl_append, List.foldl_cons]
    exact foldl_insert_keep post (RefMap.mem_insert hfree |>.2 (.inl ⟨rfl, rfl⟩))
      fun e he => (h e (List.mem_append_right _ he)).1
  exact ((foldl_insert_prefixFree _ List.Pairwise.nil).get_eq_some).2 hmem

end RefEntries

/-! ## Typing a line of a file -/

/-- A line of a Compose file whose sequence is neither a prefix nor an extension of another
line's, among lines that are all `Ok`: `xkb_compose_new_from_buffer` builds a table on which typing
the line's keysyms from a fresh state is `COMPOSING` after every keysym but the last, and after the
last `COMPOSED`, with the line's keysym and text, when no keysym of it is a modifier. -/
theorem newFromBuffer_type_line {env : Env} {pre post : List Line} {l : Line}
    (hls : ∀ l' ∈ pre ++ l :: post, l'.Ok env)
    (hinc : ∀ l' ∈ pre ++ post, ¬ l.keys env <+: l'.keys env ∧ ¬ l'.keys env <+: l.keys env)
    (isModifier : Keysym → Bool) (hmod : ∀ k ∈ l.keys env, isModifier k = false)
    (utf8Of : Keysym → Option (List UInt8))
    (hU : ∀ ks, l.leaf env = ⟨none, some ks⟩ → (utf8Of ks).isSome) (nest : Nat) :
    ∃ c, newFromBuffer env (nest + 1) (renderFile (pre ++ l :: post)) formatTextV1 0 =
        some (some c) ∧ Composes isModifier utf8Of c stateNew (l.keys env) (l.leaf env) := by
  obtain ⟨ps, hp, hv⟩ := Line.run_renderFile hls (fun string d => parse env nest d string) 0
  obtain ⟨c, hc, hw, hl⟩ := newFromBuffer_of_parseString (show parseString env (nest + 1)
    (renderFile (pre ++ l :: post)) = some (true, ps) from hp)
  have hkey : c.lookup (l.keys env) = some (l.leaf env) := by
    rw [hl, hv, List.map_append, List.map_cons]
    exact refEntries_get fun e he => by
      obtain ⟨l', hl', rfl⟩ := List.mem_map.1 (List.map_append _ _ _ ▸ he)
      exact hinc l' hl'
  exact ⟨c, hc, typeKey hw isModifier utf8Of hkey hmod hU⟩

theorem newFromBuffer_type_line_ae :
    (∀ l' ∈ ([] : List Line) ++ aeLine :: [], l'.Ok sampleEnv) ∧
    (∀ l' ∈ ([] : List Line) ++ [], ¬ aeLine.keys sampleEnv <+: l'.keys sampleEnv ∧
      ¬ l'.keys sampleEnv <+: aeLine.keys sampleEnv) ∧
    (∀ k ∈ aeLine.keys sampleEnv, (fun _ => false : Keysym → Bool) k = false) ∧
    (∀ ks, aeLine.leaf sampleEnv = ⟨none, some ks⟩ → (aeUtf8 ks).isSome) ∧
    ∃ c, newFromBuffer sampleEnv (0 + 1) (renderFile ([] ++ aeLine :: [])) formatTextV1 0 =
        some (some c) ∧
      Composes (fun _ => false) aeUtf8 c stateNew (aeLine.keys sampleEnv) (aeLine.leaf sampleEnv) :=
  have hinc : ∀ l' ∈ ([] : List Line) ++ [], ¬ aeLine.keys sampleEnv <+: l'.keys sampleEnv ∧
      ¬ l'.keys sampleEnv <+: aeLine.keys sampleEnv := fun _ h => by simp at h
  have hU : ∀ ks, aeLine.leaf sampleEnv = ⟨none, some ks⟩ → (aeUtf8 ks).isSome := fun _ h => by
    simp [aeLine, Line.leaf] at h
  ⟨aeLine_ok, hinc, fun _ _ => rfl, hU,
    newFromBuffer_type_line aeLine_ok hinc _ (fun _ _ => rfl) aeUtf8 hU 0⟩

example : (aeLine.leaf sampleEnv).text aeUtf8 = [0xc3, 0xa6] := rfl

end XkbCompose
