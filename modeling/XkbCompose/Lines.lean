import XkbCompose.Parse

/-!
# XkbCompose.Lines

The format `parse` reads, from the side of the one who writes it: production lines as text, and
what `parse` makes of a file of them. A line `<n₁> … <nₖ> : "body" name` whose names the keysym
table knows, whose body encodes its string, and with at most `MAX_LHS_LEN` keysyms on the left,
is read back as the production it writes, whatever the line before it left in the C struct.

* `Line.steps_line`: the steps of `parse` over one such line hand over its production.
* `parseString_rhs_keysym_first`: `<a> : b` hands over `a → b` as soon as `b` is read, whatever
  follows it.
* `parseString_render`: a file of such lines parses, and `parse` hands over one production per
  line, in order, each with the keysyms, the string and the keysym its line writes.
* `newFromBuffer_render`: `xkb_compose_new_from_buffer` builds from such a file a well-formed
  table whose lookup is the reference insertion of its lines.
-/

namespace XkbCompose

/-- What a production asks `add_production` for: its keysyms on the left, and its leaf data. -/
def Production.entry (p : Production) : List Keysym × Leaf := (p.lhs, p.result)

/-- A production line of a Compose file: the keysym names on the left, and on the right a string
literal (the body between its quotes, with the bytes it stands for), a keysym name, or both. -/
structure Line where
  lhs : List (List UInt8)
  str : Option (List UInt8 × List UInt8)
  ks : Option (List UInt8)
  deriving DecidableEq, Repr

namespace Line

def lhsText (n : List UInt8) : List UInt8 := ch '<' :: (n ++ [ch '>', ch ' '])

def strText (str : Option (List UInt8 × List UInt8)) : List UInt8 :=
  (str.map fun e => ch ' ' :: ch '"' :: (e.1 ++ [ch '"'])).getD []

def ksText (ks : Option (List UInt8)) : List UInt8 := (ks.map fun n => ch ' ' :: n).getD []

/-- The text of the line: `<n₁> … <nₖ> : "body" name`, then a newline. -/
def render (l : Line) : List UInt8 :=
  (l.lhs.map lhsText).flatten ++ ch ':' :: (strText l.str ++ (ksText l.ks ++ [ch '\n']))

def keys (env : Env) (l : Line) : List Keysym := l.lhs.map env.keysymFromName

def leaf (env : Env) (l : Line) : Leaf := ⟨l.str.map Prod.snd, l.ks.map env.keysymFromName⟩

/-- What the line asks `add_production` for. -/
def entry (env : Env) (l : Line) : List Keysym × Leaf := (l.keys env, l.leaf env)

/-- A name `lex` reads between `<` and `>`, known to the keysym table, with room for it and its
NUL in the scratch buffer. -/
structure NameOk (env : Env) (n : List UInt8) : Prop where
  no_gt_nl : ∀ b ∈ n, b ≠ ch '>' ∧ b ≠ ch '\n'
  nul_free : 0 ∉ n
  fits : n.length + 1 < env.cap
  known : env.keysymFromName n ≠ noSymbol

/-- A string literal `parse` keeps: its body encodes `w`, which is not empty, has no NUL, fits
the 256 bytes of the production's field and the scratch buffer, and is valid UTF-8. -/
structure StringOk (env : Env) (e w : List UInt8) : Prop where
  encodes : Encodes e w
  ne_nil : w ≠ []
  nul_free : 0 ∉ w
  length_le : w.length ≤ 255
  fits : w.length + 1 < env.cap
  utf8 : env.isValidUtf8 w

/-- A right-hand keysym name: a bare word other than `include`, known to the keysym table, with
room for it and its NUL. -/
structure WordOk (env : Env) (n : List UInt8) : Prop where
  word : isWord n
  ne_include : n ≠ includeWord
  fits : n.length + 1 < env.cap
  known : env.keysymFromName n ≠ noSymbol

/-- What a line needs to be read back as the production it writes. -/
structure Ok (env : Env) (l : Line) : Prop where
  lhs_ne_nil : l.lhs ≠ []
  lhs_length_le : l.lhs.length ≤ maxLhsLen
  lhs : ∀ n ∈ l.lhs, NameOk env n
  str : ∀ e ∈ l.str, StringOk env e.1 e.2
  ks : ∀ n ∈ l.ks, WordOk env n
  rhs : l.str.isSome ∨ l.ks.isSome

end Line

def renderFile (ls : List Line) : List UInt8 := (ls.map Line.render).flatten

namespace Line

/-! ## The steps over a line -/

section Steps

variable {env : Env} (err : Nat) (o : List Production)

theorem lhsText_append (n t : List UInt8) :
    lhsText n ++ t = ch '<' :: (n ++ ch '>' :: ch ' ' :: t) := by
  simp [lhsText]

theorem steps_lhs {ns : List (List UInt8)} (hns : ∀ n ∈ ns, NameOk env n) (s : List UInt8) :
    ∀ p : Production, p.lhs.length + ns.length ≤ maxLhsLen →
      ∃ p', Steps env ⟨.lhs, ch ' ' :: ((ns.map lhsText).flatten ++ s), p, err, o⟩
          ⟨.lhs, ch ' ' :: s, p', err, o⟩ ∧
        p'.lhs = p.lhs ++ ns.map env.keysymFromName ∧ p'.hasString = p.hasString ∧
        p'.hasKeysym = p.hasKeysym := by
  induction ns with
  | nil => exact fun p _ => ⟨p, .refl, by simp, rfl, rfl⟩
  | cons n ns ih =>
    intro p hp
    have hn := hns n (.head _)
    have hlen : ¬p.lhs.length + 1 > maxLhsLen := by simp at hp; omega
    have step : parseStep env ⟨.lhs, ch ' ' :: (((n :: ns).map lhsText).flatten ++ s), p, err, o⟩ =
        .next ⟨.lhs, ch ' ' :: ((ns.map lhsText).flatten ++ s),
          p.pushLhs (env.keysymFromName n) hlen, err, o⟩ := by
      simp only [parseStep, List.map_cons, List.flatten_cons, List.append_assoc, lhsText_append,
        List.cons_append, lex_space, lex_keysym_literal env hn.no_gt_nl hn.nul_free hn.fits hn.known,
        dif_neg hlen]
    obtain ⟨p', hs, h₁, h₂, h₃⟩ := ih (fun n' h => hns n' (.tail _ h))
      (p.pushLhs (env.keysymFromName n) hlen)
      (by simp only [Production.pushLhs, List.length_append, List.length_cons, List.length_nil] at hp ⊢
          omega)
    exact ⟨p', .cons step hs, by simp [h₁, Production.pushLhs], h₂, h₃⟩

theorem step_colon (p : Production) (hp : p.lhs ≠ []) (s : List UInt8) :
    parseStep env ⟨.lhs, ch ' ' :: ch ':' :: s, p, err, o⟩ = .next ⟨.rhs, s, p, err, o⟩ := by
  simp [parseStep, lex_space, lex_colon, hp]

theorem steps_str {str : Option (List UInt8 × List UInt8)} (h : ∀ e ∈ str, StringOk env e.1 e.2)
    (s : List UInt8) (p : Production) (hs : p.hasString = false) :
    ∃ p', Steps env ⟨.rhs, strText str ++ s, p, err, o⟩ ⟨.rhs, s, p', err, o⟩ ∧
      p'.lhs = p.lhs ∧ p'.hasKeysym = p.hasKeysym ∧ p'.hasString = str.isSome ∧
      (if p'.hasString then some p'.string else none) = str.map Prod.snd := by
  cases str with
  | none => exact ⟨p, .refl, rfl, rfl, hs, by simp [hs]⟩
  | some e =>
    obtain ⟨b, w⟩ := e
    have hw : StringOk env b w := h (b, w) rfl
    have hc : cstr w = w := cstr_eq_self hw.nul_free
    have hlen : ¬(cstr w).length ≥ 256 := by rw [hc]; have := hw.length_le; omega
    have hlex : lex env (ch '"' :: (b ++ ch '"' :: s)) = (.string w, s) := by
      rw [lex, skipBlanks_cons (by decide) (by decide)]
      exact lexToken_string_literal env hw.fits hw.utf8 hw.encodes s
    refine ⟨p.setString w hlen, .single ?_, rfl, rfl, rfl, by simp [Production.setString, hc]⟩
    simp only [strText, Option.map_some', Option.getD_some, List.cons_append, List.append_assoc,
      List.nil_append, parseStep, lex_space, hlex, hs, hc ▸ hw.ne_nil, Bool.false_eq_true,
      if_false, dif_neg hlen]

theorem steps_end {ks : Option (List UInt8)} (h : ∀ n ∈ ks, WordOk env n) (rest : List UInt8)
    (p : Production) (hk : p.hasKeysym = false) (hr : p.hasString ∨ ks.isSome) :
    ∃ q, Steps env ⟨.rhs, ksText ks ++ ch '\n' :: rest, p, err, o⟩
        ⟨.initialEol, rest, q.clear, err, o ++ [q]⟩ ∧
      q.lhs = p.lhs ∧ q.hasString = p.hasString ∧ q.string = p.string ∧
      (if q.hasKeysym then some q.keysym else none) = ks.map env.keysymFromName := by
  cases ks with
  | none =>
    have hs : p.hasString = true := by simpa using hr
    have s₁ : parseStep env ⟨.rhs, ksText none ++ ch '\n' :: rest, p, err, o⟩ =
        .next ⟨.initial, rest, p, err, o ++ [p]⟩ := by
      simp [ksText, parseStep, lex_newline, rhsEnd, hs]
    exact ⟨p, .cons s₁ (.single rfl), rfl, rfl, rfl, by simp [hk]⟩
  | some n =>
    have hn := h n rfl
    have hlex : lex env (ch ' ' :: (n ++ ch '\n' :: rest)) =
        (.rhsKeysym (env.keysymFromName n), ch '\n' :: rest) := by
      rw [lex_space]; exact lex_word env hn.word hn.ne_include hn.fits hn.known (by decide) rest
    let q := p.setKeysym (env.keysymFromName n)
    have s₁ : parseStep env ⟨.rhs, ksText (some n) ++ ch '\n' :: rest, p, err, o⟩ =
        .next ⟨.initial, ch '\n' :: rest, q, err, o ++ [q]⟩ := by
      simp [ksText, parseStep, hlex, hk, rhsEnd, q, Production.setKeysym]
    have s₃ : parseStep env ⟨.initialEol, ch '\n' :: rest, q.clear, err, o ++ [q]⟩ =
        .next ⟨.initialEol, rest, q.clear, err, o ++ [q]⟩ := by
      simp [parseStep, lex_newline]
    exact ⟨q, .cons s₁ (.cons rfl (.single s₃)), rfl, rfl, rfl, by simp [q, Production.setKeysym]⟩

theorem steps_names {n : List UInt8} {ns : List (List UInt8)} (hns : ∀ m ∈ n :: ns, NameOk env m)
    (hlen : ns.length < maxLhsLen) (tail : List UInt8) (p : Production) :
    ∃ p', Steps env ⟨.initialEol, ((n :: ns).map lhsText).flatten ++ tail, p, err, o⟩
        ⟨.lhs, ch ' ' :: tail, p', err, o⟩ ∧
      p'.lhs = (n :: ns).map env.keysymFromName ∧ p'.hasString = p.hasString ∧
      p'.hasKeysym = p.hasKeysym := by
  have hn := hns n (.head _)
  have s₁ : parseStep env ⟨.initialEol, ((n :: ns).map lhsText).flatten ++ tail, p, err, o⟩ =
      .next ⟨.lhs, ch ' ' :: ((ns.map lhsText).flatten ++ tail),
        p.startLhs (env.keysymFromName n), err, o⟩ := by
    simp only [List.map_cons, List.flatten_cons, List.append_assoc, lhsText_append,
      List.cons_append, parseStep, lex_keysym_literal env hn.no_gt_nl hn.nul_free hn.fits hn.known]
  obtain ⟨p', s₂, h₁, h₂, h₃⟩ := steps_lhs err o (fun m h => hns m (.tail _ h)) tail
    (p.startLhs (env.keysymFromName n)) (by simp [Production.startLhs]; omega)
  exact ⟨p', .cons s₁ s₂, by simp [h₁, Production.startLhs], h₂, h₃⟩

/-- The steps of `parse` over a line that is `Ok`, from `initial_eol` to `initial_eol` after it:
whatever the production the line before left, the line's own is handed over. -/
theorem steps_line {l : Line} (hl : l.Ok env) (rest : List UInt8) {p : Production}
    (hs : p.hasString = false) (hk : p.hasKeysym = false) :
    ∃ q, Steps env ⟨.initialEol, l.render ++ rest, p, err, o⟩
        ⟨.initialEol, rest, q.clear, err, o ++ [q]⟩ ∧ q.entry = l.entry env := by
  obtain ⟨_ | ⟨n, ns⟩, str, ks⟩ := l
  · exact absurd rfl hl.lhs_ne_nil
  obtain ⟨p₂, s₂, h₂l, h₂s, h₂k⟩ := steps_names err o hl.lhs
    (by simpa [Nat.lt_iff_add_one_le] using hl.lhs_length_le)
    (ch ':' :: (strText str ++ (ksText ks ++ ch '\n' :: rest))) p
  obtain ⟨p₄, s₄, h₄l, h₄k, h₄s, h₄r⟩ := steps_str err o hl.str (ksText ks ++ ch '\n' :: rest) p₂
    (by rw [h₂s, hs])
  obtain ⟨q, s₅, h₅l, h₅s, h₅t, h₅r⟩ := steps_end err o hl.ks rest p₄
    (by rw [h₄k, h₂k, hk]) (by rw [h₄s]; exact hl.rhs)
  have h₂ : p₂.lhs ≠ [] := by simp [h₂l]
  refine ⟨q, ?_, ?_⟩
  · simpa [render] using s₂.trans (.cons (step_colon err o p₂ h₂ _) (s₄.trans s₅))
  simp only [Production.entry, entry, keys, leaf, Production.result, h₅l, h₄l, h₂l, h₅r, h₅s, h₅t,
    ← h₄r]

end Steps

/-- The steps of `parse` over a file of lines that are `Ok`: their productions are handed over,
in order. -/
theorem steps_lines {env : Env} (err : Nat) {ls : List Line} (hls : ∀ l ∈ ls, l.Ok env)
    (rest : List UInt8) : ∀ (p : Production) (o : List Production), p.hasString = false →
      p.hasKeysym = false → ∃ q qs, Steps env ⟨.initialEol, renderFile ls ++ rest, p, err, o⟩
        ⟨.initialEol, rest, q, err, o ++ qs⟩ ∧ qs.map Production.entry = ls.map (entry env) := by
  induction ls with
  | nil => exact fun p o _ _ => ⟨p, [], by simpa [renderFile] using Steps.refl, rfl⟩
  | cons l ls ih =>
    intro p o hs hk
    obtain ⟨q, s₁, hq⟩ := steps_line err o (hls l (.head _)) (renderFile ls ++ rest) hs hk
    obtain ⟨q', qs, s₂, hqs⟩ := ih (fun l' h => hls l' (.tail _ h)) q.clear (o ++ [q]) rfl rfl
    refine ⟨q', q :: qs, ?_, by simp [hq, hqs]⟩
    simpa [renderFile] using s₁.trans s₂

theorem run_renderFile {env : Env} {ls : List Line} (hls : ∀ l ∈ ls, l.Ok env)
    (parse : List UInt8 → Nat → Option (Bool × List Production)) (d : Nat) :
    ∃ ps, parseRun env parse d (6 * ((renderFile ls).length + 1))
        ⟨.initial, renderFile ls, .empty, 0, []⟩ = some (true, ps) ∧
      ps.map Production.entry = ls.map (entry env) := by
  obtain ⟨q, qs, hs, hv⟩ := steps_lines 0 hls [] Production.empty.clear [] rfl rfl
  have hs' : Steps env ⟨.initial, renderFile ls, .empty, 0, []⟩ ⟨.initialEol, [], q, 0, qs⟩ :=
    .cons rfl (by simpa using hs)
  have hend : parseStep env ⟨.initialEol, [], q, 0, qs⟩ = .finish true := by
    simp [parseStep, lex_nil]
  refine ⟨qs, ?_, hv⟩
  rw [parseRun_steps hs' (by simp [Machine.measure, Label.rank]; omega), Nat.mul_succ]
  simp [parseRun, hend]

end Line

/-- After the right-hand keysym of `<a> : b`, whatever follows on the line or after it, `a → b` is
the first production handed to `add_production`: the fall-through from `TOK_RHS_KEYSYM` hands it
over before the next token is read. This holds in every environment that knows both names and in
which no file can be opened, so that no include runs out. -/
theorem parseString_rhs_keysym_first {env : Env} {a b : List UInt8} (ha : Line.NameOk env a)
    (hb : Line.WordOk env b) (hfiles : ∀ path, env.files path = none) (nest : Nat)
    (t : List UInt8) :
    ∃ ok p ps, parseString env (nest + 1) (Line.lhsText a ++ ch ':' :: ch ' ' :: (b ++ ch ' ' :: t)) =
        some (ok, p :: ps) ∧
      p.entry = ([env.keysymFromName a], ⟨none, some (env.keysymFromName b)⟩) := by
  have hns : ∀ m ∈ [a], Line.NameOk env m := fun m hm => by rwa [List.mem_singleton.1 hm]
  obtain ⟨p₁, s₁, h₁l, h₁s, h₁k⟩ := Line.steps_names 0 [] hns (by decide)
    (ch ':' :: ch ' ' :: (b ++ ch ' ' :: t)) Production.empty.clear
  replace h₁s : p₁.hasString = false := h₁s
  replace h₁k : p₁.hasKeysym = false := h₁k
  let q := p₁.setKeysym (env.keysymFromName b)
  have s₃ : parseStep env ⟨.rhs, ch ' ' :: (b ++ ch ' ' :: t), p₁, 0, []⟩ =
      .next ⟨.initial, ch ' ' :: t, q, 0, [q]⟩ := by
    simp [parseStep, lex_space, h₁k, rhsEnd, q, Production.setKeysym,
      lex_word env hb.word hb.ne_include hb.fits hb.known (t := ch ' ') (by decide) t]
  have hs : Steps env ⟨.initial, Line.lhsText a ++ ch ':' :: ch ' ' :: (b ++ ch ' ' :: t),
      .empty, 0, []⟩ ⟨.initial, ch ' ' :: t, q, 0, [q]⟩ :=
    .cons rfl (by simpa using s₁.trans (.cons (Line.step_colon 0 [] p₁ (by simp [h₁l]) _) (.single s₃)))
  have hlen : t.length + 2 ≤ (Line.lhsText a ++ ch ':' :: ch ' ' :: (b ++ ch ' ' :: t)).length := by
    simp [Line.lhsText]; omega
  simp only [parseString, parse]
  rw [parseRun_steps hs (by simp [Machine.measure, Label.rank]; omega)]
  rcases hr : parseRun env _ 0 _ ⟨.initial, ch ' ' :: t, q, 0, [q]⟩ with _ | ⟨ok, ps⟩
  · obtain ⟨path, hp⟩ := parseRun_eq_none (by simp [Machine.measure, Label.rank]; omega) hr
    simp [doInclude, hfiles] at hp
  · obtain ⟨rest, rfl⟩ := parseRun_out hr
    refine ⟨ok, q, rest, rfl, ?_⟩
    simp [Production.entry, Production.result, q, Production.setKeysym, h₁l, h₁s]

theorem parseString_rhs_keysym_first_ab : Line.NameOk sampleEnv [ch 'a'] ∧
    Line.WordOk sampleEnv [ch 'b'] ∧ (∀ path, sampleEnv.files path = none) ∧
    ∃ ok p ps, parseString sampleEnv (0 + 1) (Line.lhsText [ch 'a'] ++ ch ':' :: ch ' ' ::
        ([ch 'b'] ++ ch ' ' :: [ch 'c', ch '\n'])) = some (ok, p :: ps) ∧
      p.entry = ([sampleEnv.keysymFromName [ch 'a']],
        ⟨none, some (sampleEnv.keysymFromName [ch 'b'])⟩) :=
  have ha : Line.NameOk sampleEnv [ch 'a'] := ⟨by decide, by decide, by decide, by decide⟩
  have hb : Line.WordOk sampleEnv [ch 'b'] := ⟨by decide, by decide, by decide, by decide⟩
  ⟨ha, hb, fun _ => rfl, parseString_rhs_keysym_first ha hb (fun _ => rfl) 0 [ch 'c', ch '\n']⟩

/-- The reference map of a list of entries: `RefMap.insert` of each in turn. -/
def refEntries (es : List (List Keysym × Leaf)) : RefMap :=
  es.foldl (fun m e => m.insert e.1 e.2) []

theorem refBuild_eq_refEntries (ps : List Production) :
    refBuild ps = refEntries (ps.map Production.entry) := by
  simp [refBuild, refEntries, List.foldl_map, Production.entry]

/-- The table `xkb_compose_new_from_buffer` builds once `parse_string` succeeds: well formed, and
its lookup is the reference insertion of what the productions ask for, in order. -/
theorem newFromBuffer_of_parseString {env : Env} {nest : Nat} {buffer : List UInt8}
    {ps : List Production} (h : parseString env nest buffer = some (true, ps)) :
    ∃ c, newFromBuffer env nest buffer formatTextV1 0 = some (some c) ∧ c.Wf ∧
      ∀ s, c.lookup s = (refEntries (ps.map Production.entry)).get s := by
  obtain ⟨hw, hu, hr⟩ := Compose.composeNew_wf
  obtain ⟨c, heq, hw', hr', hm⟩ :=
    Compose.foldlM_addProduction_spec ps _ [] (parse_shaped h) hw hu hr .nil
  refine ⟨c, by simp [newFromBuffer, h, heq], hw', fun s => ?_⟩
  rw [hr'.lookup_eq_get hw' hm, ← refBuild_eq_refEntries]
  rfl

/-- A file of lines that are `Ok` parses, and `parse` hands over one production per line, in
order, each with the keysyms, the string and the keysym its line writes. -/
theorem parseString_render {env : Env} {ls : List Line} (hls : ∀ l ∈ ls, l.Ok env) (nest : Nat) :
    ∃ ps, parseString env (nest + 1) (renderFile ls) = some (true, ps) ∧
      ps.map Production.entry = ls.map (Line.entry env) :=
  Line.run_renderFile hls _ 0

/-- `xkb_compose_new_from_buffer` builds from a file of lines that are `Ok` a well-formed table
whose lookup is the reference insertion of what the lines ask for, in order. -/
theorem newFromBuffer_render {env : Env} {ls : List Line} (hls : ∀ l ∈ ls, l.Ok env)
    (nest : Nat) :
    ∃ c, newFromBuffer env (nest + 1) (renderFile ls) formatTextV1 0 = some (some c) ∧ c.Wf ∧
      ∀ s, c.lookup s = (refEntries (ls.map (Line.entry env))).get s := by
  obtain ⟨ps, hp, hv⟩ := Line.run_renderFile hls (fun string d => parse env nest d string) 0
  rw [← hv]
  exact newFromBuffer_of_parseString hp

/-! ## A sample line -/

def aeLine : Line := ⟨[[ch 'a'], [ch 'e']], some (aeBody, [0xc3, 0xa6]), some [ch 'a', ch 'e']⟩

example : renderFile [aeLine] = bytes "<a> <e> : \"\\xc3\\246\" ae\n" := by decide

theorem aeLine_ok : ∀ l ∈ [aeLine], l.Ok sampleEnv := by
  intro l hl
  obtain rfl := List.mem_singleton.1 hl
  refine ⟨by decide, by decide, fun n hn => ?_, fun e he => ?_, fun n hn => ?_, by decide⟩
  · simp only [aeLine, List.mem_cons, List.mem_singleton, List.not_mem_nil, or_false] at hn
    rcases hn with rfl | rfl <;> exact ⟨by decide, by decide, by decide, by decide⟩
  · obtain rfl := Option.mem_some_iff.1 he
    exact ⟨aeBody_encodes, by decide, by decide, by decide, by decide, by decide⟩
  · obtain rfl := Option.mem_some_iff.1 hn
    exact ⟨by decide, by decide, by decide, by decide⟩

theorem parseString_render_ae : (∀ l ∈ [aeLine], l.Ok sampleEnv) ∧
    ∃ ps, parseString sampleEnv (0 + 1) (renderFile [aeLine]) = some (true, ps) ∧
      ps.map Production.entry = [aeLine].map (Line.entry sampleEnv) :=
  ⟨aeLine_ok, parseString_render aeLine_ok 0⟩

theorem newFromBuffer_render_ae : (∀ l ∈ [aeLine], l.Ok sampleEnv) ∧
    ∃ c, newFromBuffer sampleEnv (0 + 1) (renderFile [aeLine]) formatTextV1 0 = some (some c) ∧
      c.Wf ∧ ∀ s, c.lookup s = (refEntries ([aeLine].map (Line.entry sampleEnv))).get s :=
  ⟨aeLine_ok, newFromBuffer_render aeLine_ok 0⟩

example : (refEntries ([aeLine].map (Line.entry sampleEnv))).get [0x61, 0x65] =
    some ⟨some [0xc3, 0xa6], some 0xe6⟩ := by decide

end XkbCompose
