import XkbCompose.Lines

/-!
# XkbCompose.Files

A Compose file as `parse` reads it, one line at a time: production lines, includes, comments,
lines it skips with a warning, and lines it reports an error on. `Item.denote` says what `parse` makes of a file of such lines, given
what `do_include` gives for each path; `parse_items` proves that the machine of `Parse` computes
exactly that, from the bytes of the file.

`parse` recovers from an error by reading tokens up to the end of the line (`steps_skip`, which
rests on `lex_line`): an error costs one of the `MAX_ERRORS` an activation has, and the one past
them ends it in failure. A line skipped with a warning costs none (`SkipLine.steps`): eleven
keysyms on the left, an empty right-hand side, or a string that is empty or too long. An include hands over the productions of the file at its path, in place;
when that file fails, or cannot be opened, the including activation fails with it.

* `parse_items`: the productions `parse` hands over, and whether it succeeds, are those of the
  denotation of the file; `newFromBuffer_denote`: so is the table `xkb_compose_new_from_buffer`
  builds.
* `newFromBuffer_errors`: a file with no include gives a table exactly when it has at most
  `MAX_ERRORS` bad lines, and then the table of its production lines.
* `newFromBuffer_include_missing`: an include of a file that cannot be opened makes
  `xkb_compose_new_from_buffer` fail, whatever follows it.
* `newFromBuffer_chain`: a chain of includes of any length splices the productions of each
  included file in place, with an error budget per file; `MAX_INCLUDE_DEPTH` never stops it,
  since each nested activation runs at its caller's depth.
-/

namespace XkbCompose

/-! ## Recovery -/

section Recovery

variable {env : Env} {p : Production} {err : Nat} {o : List Production} {rest : List UInt8}

/-- `skip` reads tokens up to the end of the line and goes on at `initial` after it, whatever the
rest of the line holds. -/
theorem steps_skip {t : List UInt8} {tok : Token} (ht : ch '\n' ∉ t) (h₁ : tok ≠ .endOfLine)
    (h₂ : tok ≠ .endOfFile) :
    Steps env ⟨.skip tok, t ++ ch '\n' :: rest, p, err, o⟩ ⟨.initial, rest, p, err, o⟩ := by
  have hstep : parseStep env ⟨.skip tok, t ++ ch '\n' :: rest, p, err, o⟩ =
      .next ⟨.skip (lex env (t ++ ch '\n' :: rest)).1, (lex env (t ++ ch '\n' :: rest)).2, p, err,
        o⟩ := by
    simp [parseStep, h₁, h₂]
  rcases lex_line env (t ++ ch '\n' :: rest) with ⟨hE, hl⟩ | hl
  · rw [hE, hl.line ht] at hstep
    exact .cons hstep (.single (by simp [parseStep]))
  · obtain ⟨t', hs, ht'⟩ := hl.inLine.line ht
    have hE : (lex env (t ++ ch '\n' :: rest)).1 ≠ .endOfFile := fun h => by
      simp [hl.endOfFile h] at hs
    have : t'.length < t.length := by
      simpa [hs] using (lex_ok env (t ++ ch '\n' :: rest)).length_lt hE
    rw [hs] at hstep
    exact .cons hstep (steps_skip ht' hl.ne_endOfLine hE)
termination_by t.length

theorem steps_unexpected {t : List UInt8} {tok : Token} (ht : ch '\n' ∉ t)
    (h₁ : tok ≠ .endOfLine) (h₂ : tok ≠ .endOfFile) (he : err + 1 ≤ maxErrors) :
    Steps env ⟨.unexpected tok, t ++ ch '\n' :: rest, p, err, o⟩
      ⟨.initialEol, rest, p.clear, err + 1, o⟩ :=
  .cons (by simp [parseStep, he]) ((steps_skip ht h₁ h₂).trans (.single rfl))

end Recovery

/-! ## Files of items -/

/-- A line `parse` reports an error on: one that starts with a byte that starts no token; a keysym
literal whose name the keysym table does not know, and whatever follows it; or an include whose
body, after a part that expands to `path`, has a `%` escape `lex_include_string` rejects. -/
inductive BadLine
  | noToken (b : UInt8) (text : List UInt8)
  | unknownName (name text : List UInt8)
  | badEscape (body path : List UInt8) (x : UInt8) (text : List UInt8)
  deriving DecidableEq, Repr

/-- A line `parse` skips with a warning and no error: eleven keysym literals on the left,
whatever follows them; a left-hand side and a colon with nothing after it; or a left-hand side
and a string literal for a string that is empty, or too long for the 256 bytes of a production,
whatever follows it. -/
inductive SkipLine
  | longLhs (names : List (List UInt8)) (text : List UInt8)
  | emptyRhs (names : List (List UInt8))
  | badString (names : List (List UInt8)) (body string text : List UInt8)
  deriving DecidableEq, Repr

/-- A line of a Compose file: a production, an include of the path its body expands to, a
comment, a line `parse` skips with a warning, or a line it reports an error on. -/
inductive Item
  | production (l : Line)
  | includeLine (body path : List UInt8)
  | comment (text : List UInt8)
  | skipped (l : SkipLine)
  | bad (b : BadLine)
  deriving DecidableEq, Repr

def includeText (s : List UInt8) : List UInt8 := includeWord ++ ch ' ' :: ch '"' :: s

def BadLine.render : BadLine → List UInt8
  | .noToken b t => b :: (t ++ [ch '\n'])
  | .unknownName n t => ch '<' :: (n ++ ch '>' :: (t ++ [ch '\n']))
  | .badEscape e _ x t => includeText (e ++ ch '%' :: x :: (t ++ [ch '\n']))

def SkipLine.render : SkipLine → List UInt8
  | .longLhs ns t => (ns.map Line.lhsText).flatten ++ (t ++ [ch '\n'])
  | .emptyRhs ns => (ns.map Line.lhsText).flatten ++ [ch ':', ch '\n']
  | .badString ns e _ t =>
    (ns.map Line.lhsText).flatten ++ ch ':' :: ch ' ' :: ch '"' :: (e ++ ch '"' :: (t ++ [ch '\n']))

def Item.render : Item → List UInt8
  | .production l => l.render
  | .includeLine e _ => includeText (e ++ [ch '"', ch '\n'])
  | .comment t => ch '#' :: (t ++ [ch '\n'])
  | .skipped l => l.render
  | .bad b => b.render

def renderItems (is : List Item) : List UInt8 := (is.map Item.render).flatten

/-- What a bad line needs for `parse` to report one error on it and go on at the next line: no
newline inside it, and room in the scratch buffer for what the lexer reads. -/
def BadLine.Ok (env : Env) : BadLine → Prop
  | .noToken b t => startsNothing b ∧ ch '\n' ∉ t
  | .unknownName n t => (∀ b ∈ n, b ≠ ch '>' ∧ b ≠ ch '\n') ∧ n.length + 1 < env.cap ∧
      env.keysymFromName (cstr n) = noSymbol ∧ ch '\n' ∉ t
  | .badEscape e w x t => includeWord.length + 1 < env.cap ∧ Expands env e w ∧
      w.length + 1 < env.cap ∧ badPercent env x ∧ x ≠ ch '\n' ∧ ch '\n' ∉ t

/-- What a skipped line needs for `parse` to skip it whole: names the keysym table knows, read up
to the eleventh or to the colon, and a string literal that lexes, whose string is empty or longer
than 255 bytes once read as a C string. -/
def SkipLine.Ok (env : Env) : SkipLine → Prop
  | .longLhs ns t => ns.length = maxLhsLen + 1 ∧ (∀ n ∈ ns, Line.NameOk env n) ∧ ch '\n' ∉ t
  | .emptyRhs ns => ns ≠ [] ∧ ns.length ≤ maxLhsLen ∧ ∀ n ∈ ns, Line.NameOk env n
  | .badString ns e w t => ns ≠ [] ∧ ns.length ≤ maxLhsLen ∧ (∀ n ∈ ns, Line.NameOk env n) ∧
      Encodes e w ∧ w.length + 1 < env.cap ∧ env.isValidUtf8 w ∧
      (cstr w = [] ∨ 256 ≤ (cstr w).length) ∧ ch '\n' ∉ t

/-- What an item needs to be read as what it stands for. -/
def Item.Ok (env : Env) : Item → Prop
  | .production l => l.Ok env
  | .includeLine e w => includeWord.length + 1 < env.cap ∧ Expands env e w ∧ w.length + 1 < env.cap
  | .comment t => ch '\n' ∉ t
  | .skipped l => l.Ok env
  | .bad b => b.Ok env

/-- What `parse` makes of a file of items: whether the activation succeeds, and what the
productions it hands to `add_production` ask for, in order; `none` when an include nests deeper
than `parse` may go. `inc` is what `do_include` gives for a path, and `err` counts the errors so
far. -/
def Item.denote (env : Env) (inc : List UInt8 → Option (Bool × List Production)) :
    Nat → List Item → Option (Bool × List (List Keysym × Leaf))
  | _, [] => some (true, [])
  | err, .production l :: is => (denote env inc err is).map fun r => (r.1, l.entry env :: r.2)
  | err, .includeLine _ w :: is =>
    match inc w with
    | none => none
    | some (true, qs) =>
      (denote env inc err is).map fun r => (r.1, qs.map Production.entry ++ r.2)
    | some (false, qs) => some (false, qs.map Production.entry)
  | err, .comment _ :: is => denote env inc err is
  | err, .skipped _ :: is => denote env inc err is
  | err, .bad _ :: is =>
    if err + 1 ≤ maxErrors then denote env inc (err + 1) is else some (false, [])

/-! ### A sample file -/

def sampleItems : List Item :=
  [.production aeLine, .comment [ch ' ', ch 'x'], .skipped (.emptyRhs [[ch 'a']]),
    .skipped (.badString [[ch 'a']] [] [] [ch ' ', ch 'b']),
    .skipped (.longLhs (List.replicate 11 [ch 'a']) [ch ':', ch ' ', ch 'b']),
    .bad (.noToken (ch '!') [ch 'C']), .bad (.unknownName [ch 'q'] [ch ' ', ch 'a']),
    .bad (.badEscape [] [] (ch 'L') []), .includeLine [ch '/', ch 'k'] [ch '/', ch 'k']]

example : renderItems sampleItems =
    bytes ("<a> <e> : \"\\xc3\\246\" ae\n# x\n<a> :\n<a> : \"\" b\n" ++
      "<a> <a> <a> <a> <a> <a> <a> <a> <a> <a> <a> : b\n" ++
      "!C\n<q> a\ninclude \"%L\ninclude \"/k\"\n") := by
  decide

theorem expands_plain (env : Env) : ∀ {w : List UInt8},
    (∀ b ∈ w, b ≠ ch '%' ∧ b ≠ ch '"' ∧ b ≠ ch '\n') → Expands env w w
  | [], _ => .nil
  | b :: _, h =>
    have hb := h b (.head _)
    .raw hb.1 hb.2.1 hb.2.2 (expands_plain env fun c hc => h c (.tail _ hc))

theorem sampleItems_ok : ∀ i ∈ sampleItems, i.Ok sampleEnv := by
  have ha : ∀ n ∈ List.replicate 11 [ch 'a'], Line.NameOk sampleEnv n := fun n hn =>
    (List.eq_of_mem_replicate hn) ▸ ⟨by decide, by decide, by decide, by decide⟩
  have ha₁ : ∀ n ∈ [[ch 'a']], Line.NameOk sampleEnv n := fun n hn =>
    ha n (List.mem_replicate.2 ⟨by decide, List.mem_singleton.1 hn⟩)
  simp only [sampleItems, List.mem_cons, List.mem_singleton, List.not_mem_nil, or_false]
  rintro i (rfl | rfl | rfl | rfl | rfl | rfl | rfl | rfl | rfl)
  · exact aeLine_ok _ (.head _)
  · show ch '\n' ∉ _; decide
  · exact ⟨by decide, by decide, ha₁⟩
  · exact ⟨by decide, by decide, ha₁, .nil, by decide, by decide, .inl rfl, by decide⟩
  · exact ⟨by decide, ha, by decide⟩
  · exact ⟨by decide, by decide⟩
  · exact ⟨by decide, by decide, by decide, by decide⟩
  · exact ⟨by decide, .nil, by decide, by decide, by decide, by decide⟩
  · exact ⟨by decide, expands_plain _ (by decide), by decide⟩

/-! ## The steps over an item -/

section Steps

variable {env : Env} (err : Nat) (o : List Production)

theorem steps_comment {t : List UInt8} (ht : ch '\n' ∉ t) (rest : List UInt8) (p : Production) :
    Steps env ⟨.initialEol, (Item.comment t).render ++ rest, p, err, o⟩
      ⟨.initialEol, rest, p, err, o⟩ :=
  .single (by simp [Item.render, parseStep, lex_comment env ht])

theorem BadLine.steps_unexpected {b : BadLine} (hb : b.Ok env) (rest : List UInt8)
    (p : Production) :
    ∃ tok t, tok ≠ .endOfLine ∧ tok ≠ .endOfFile ∧ ch '\n' ∉ t ∧
      Steps env ⟨.initialEol, b.render ++ rest, p, err, o⟩
        ⟨.unexpected tok, t ++ ch '\n' :: rest, p, err, o⟩ := by
  cases b with
  | noToken b t =>
    refine ⟨.error, [], nofun, nofun, List.not_mem_nil _, .single ?_⟩
    simp [BadLine.render, parseStep, lex_startsNothing env hb.1 hb.2]
  | unknownName n t =>
    obtain ⟨hn, hcap, hk, ht⟩ := hb
    refine ⟨.error, t, nofun, nofun, ht, .single ?_⟩
    simp [BadLine.render, parseStep, lex_angle env hn hcap, hk]
  | badEscape e w x t =>
    obtain ⟨hi, he, hcap, hx, hxn, ht⟩ := hb
    obtain ⟨s', hl, hs'⟩ := lexIncludeString_badPercent env hcap he hx (t ++ ch '\n' :: rest)
    obtain ⟨t', rfl, ht'⟩ := hs'.line (t := x :: t) (by simp [Ne.symm hxn, ht])
    have h₁ : parseStep env ⟨.initialEol, (BadLine.badEscape e w x t).render ++ rest, p, err, o⟩ =
        .next ⟨.include, ch ' ' :: ch '"' :: (e ++ ch '%' :: x :: (t ++ ch '\n' :: rest)), p, err,
          o⟩ := by
      simp [BadLine.render, includeText, parseStep, lex_include env hi (t := ch ' ') (by decide)]
    exact ⟨.error, t', nofun, nofun, ht', .cons h₁ (.single (by simp [parseStep, hl]))⟩

/-- The steps over a skipped line, from `initial_eol` to `initial_eol` after it: no error, and
nothing handed over. -/
theorem SkipLine.steps {l : SkipLine} (hl : l.Ok env) (rest : List UInt8) {p : Production}
    (hs : p.hasString = false) (hk : p.hasKeysym = false) :
    ∃ q : Production,
      Steps env ⟨.initialEol, l.render ++ rest, p, err, o⟩ ⟨.initialEol, rest, q.clear, err, o⟩ := by
  cases l with
  | longLhs ns t =>
    obtain ⟨hlen, hns, ht⟩ := hl
    obtain _ | ⟨n, ns⟩ := ns
    · cases hlen
    obtain ⟨mid, last, rfl⟩ : ∃ mid last, ns = mid.concat last :=
      (List.eq_nil_or_concat ns).resolve_left (by rintro rfl; cases hlen)
    rw [List.concat_eq_append] at hlen hns ⊢
    have hlen' : mid.length + 1 = maxLhsLen := by simpa using hlen
    have hl := hns last (by simp)
    obtain ⟨p₁, s₁, h₁, -, -⟩ := Line.steps_names err o
      (fun m (h : m ∈ n :: mid) => hns m (List.cons_subset_cons _ (List.subset_append_left _ _) h))
      (by omega) (Line.lhsText last ++ (t ++ ch '\n' :: rest)) p
    have h₁₀ : p₁.lhs.length + 1 > maxLhsLen := by simp [h₁]; omega
    have s₂ : parseStep env ⟨.lhs, ch ' ' :: (Line.lhsText last ++ (t ++ ch '\n' :: rest)), p₁, err,
        o⟩ = .next ⟨.skip (.lhsKeysym (env.keysymFromName last)), ch ' ' :: (t ++ ch '\n' :: rest),
          p₁, err, o⟩ := by
      simp only [parseStep, Line.lhsText_append, lex_space,
        lex_keysym_literal env hl.no_gt_nl hl.nul_free hl.fits hl.known, dif_pos h₁₀]
    have s₃ : Steps env ⟨.skip (.lhsKeysym (env.keysymFromName last)),
        (ch ' ' :: t) ++ ch '\n' :: rest, p₁, err, o⟩ ⟨.initial, rest, p₁, err, o⟩ :=
      steps_skip (List.not_mem_cons_of_ne_of_not_mem (by decide) ht) nofun nofun
    refine ⟨p₁, ?_⟩
    simpa [SkipLine.render] using s₁.trans (.cons s₂ (s₃.trans (.single rfl)))
  | emptyRhs ns =>
    obtain ⟨hne, hlen, hns⟩ := hl
    obtain _ | ⟨n, ns⟩ := ns
    · exact absurd rfl hne
    obtain ⟨p₁, s₁, h₁, h₁s, h₁k⟩ := Line.steps_names err o hns
      (by simpa [Nat.lt_iff_add_one_le] using hlen) (ch ':' :: ch '\n' :: rest) p
    have s₃ : parseStep env ⟨.rhs, ch '\n' :: rest, p₁, err, o⟩ =
        .next ⟨.skip .endOfLine, rest, p₁, err, o⟩ := by
      simp [parseStep, lex_newline, rhsEnd, h₁s, h₁k, hs, hk]
    have s₄ : parseStep env ⟨.skip .endOfLine, rest, p₁, err, o⟩ =
        .next ⟨.initial, rest, p₁, err, o⟩ := by
      simp [parseStep]
    refine ⟨p₁, ?_⟩
    simpa [SkipLine.render] using
      s₁.trans (.cons (Line.step_colon err o p₁ (by simp [h₁]) _) (.cons s₃ (.cons s₄ (.single rfl))))
  | badString ns e w t =>
    obtain ⟨hne, hlen, hns, he, hfit, hutf, hw, ht⟩ := hl
    obtain _ | ⟨n, ns⟩ := ns
    · exact absurd rfl hne
    obtain ⟨p₁, s₁, h₁, h₁s, -⟩ := Line.steps_names err o hns
      (by simpa [Nat.lt_iff_add_one_le] using hlen)
      (ch ':' :: ch ' ' :: ch '"' :: (e ++ ch '"' :: (t ++ ch '\n' :: rest))) p
    have hlex : lex env (ch '"' :: (e ++ ch '"' :: (t ++ ch '\n' :: rest))) =
        (.string w, t ++ ch '\n' :: rest) := by
      rw [lex, skipBlanks_cons (by decide) (by decide)]
      exact lexToken_string_literal env hfit hutf he _
    have s₃ : parseStep env ⟨.rhs, ch ' ' :: ch '"' :: (e ++ ch '"' :: (t ++ ch '\n' :: rest)), p₁,
        err, o⟩ = .next ⟨.skip (.string w), t ++ ch '\n' :: rest, p₁, err, o⟩ := by
      simp only [parseStep, lex_space, hlex, h₁s, hs, Bool.false_eq_true, if_false]
      rcases hw with hw | hw
      · rw [if_pos hw]
      · have h0 : cstr w ≠ [] := fun h => by simp [h] at hw
        rw [if_neg h0, dif_pos hw]
    have s₄ : Steps env ⟨.skip (.string w), t ++ ch '\n' :: rest, p₁, err, o⟩
        ⟨.initial, rest, p₁, err, o⟩ := steps_skip ht nofun nofun
    refine ⟨p₁, ?_⟩
    simpa [SkipLine.render] using
      s₁.trans (.cons (Line.step_colon err o p₁ (by simp [h₁]) _) (.cons s₃ (s₄.trans (.single rfl))))

theorem steps_include {e w : List UInt8} (hi : (Item.includeLine e w).Ok env) (rest : List UInt8)
    (p : Production) :
    ∃ m, Steps env ⟨.initialEol, (Item.includeLine e w).render ++ rest, p, err, o⟩ m ∧
      parseStep env m = .include w ⟨.initial, rest, p, err, o⟩ ∧ m.measure = 6 * rest.length + 11 := by
  obtain ⟨hi, he, hcap⟩ := hi
  have h₁ : parseStep env ⟨.initialEol, (Item.includeLine e w).render ++ rest, p, err, o⟩ =
      .next ⟨.include, ch ' ' :: ch '"' :: (e ++ ch '"' :: ch '\n' :: rest), p, err, o⟩ := by
    simp [Item.render, includeText, parseStep, lex_include env hi (t := ch ' ') (by decide)]
  have h₂ : parseStep env ⟨.include, ch ' ' :: ch '"' :: (e ++ ch '"' :: ch '\n' :: rest), p, err, o⟩ =
      .next ⟨.includeEol w, ch '\n' :: rest, p, err, o⟩ := by
    simp [parseStep, lexIncludeString_path env hcap he]
  refine ⟨⟨.includeEol w, ch '\n' :: rest, p, err, o⟩, .cons h₁ (.single h₂), ?_, ?_⟩
  · simp [parseStep, lex_newline]
  · simp [Machine.measure, Label.rank]; omega

end Steps

/-! ## The run over a file of items -/

section Run

variable {env : Env} {parse : List UInt8 → Nat → Option (Bool × List Production)} {d : Nat}

def runEntries (r : Option (Bool × List Production)) : Option (Bool × List (List Keysym × Leaf)) :=
  r.map fun r => (r.1, r.2.map Production.entry)

theorem runEntries_eq_some {r : Option (Bool × List Production)} {ok : Bool}
    {es : List (List Keysym × Leaf)} (h : runEntries r = some (ok, es)) :
    ∃ ps, r = some (ok, ps) ∧ ps.map Production.entry = es := by
  obtain _ | ⟨ok', ps⟩ := r
  · cases h
  · simp only [runEntries, Option.map_some', Option.some.injEq, Prod.mk.injEq] at h
    exact ⟨ps, by rw [h.1], h.2⟩

theorem renderItems_cons (i : Item) (is : List Item) :
    renderItems (i :: is) = i.render ++ renderItems is := rfl

/-- The run of an activation from `initial_eol` over a file of items: what the productions it
hands over ask for, after those handed over before, and whether it succeeds, are those of the
denotation of the items. -/
theorem run_items : ∀ {is : List Item}, (∀ i ∈ is, i.Ok env) →
    ∀ (p : Production) (err : Nat) (o : List Production) (fuel : Nat), p.hasString = false →
      p.hasKeysym = false → 6 * (renderItems is).length < fuel →
      runEntries (parseRun env parse d fuel ⟨.initialEol, renderItems is, p, err, o⟩) =
        (Item.denote env (fun w => doInclude env parse w d) err is).map
          fun r => (r.1, o.map Production.entry ++ r.2)
  | [], _, p, err, o, fuel, _, _, hf => by
    obtain ⟨f, rfl⟩ : ∃ f, fuel = f + 1 := ⟨fuel - 1, by omega⟩
    have hend : parseStep env ⟨.initialEol, [], p, err, o⟩ = .finish true := by
      simp [parseStep, lex_nil]
    rw [renderItems, List.map_nil, List.flatten_nil, parseRun_finish hend]
    simp [runEntries, Item.denote]
  | i :: is, his, p, err, o, fuel, hs, hk, hf => by
    have hi := his i (.head _)
    have ih := run_items fun i (h : i ∈ is) => his i (.tail _ h)
    rw [renderItems_cons] at hf ⊢
    simp only [List.length_append] at hf
    have hm : (Machine.mk .initialEol (i.render ++ renderItems is) p err o).measure < fuel := by
      simpa [Machine.measure, Label.rank] using hf
    cases i with
    | production l =>
      simp only [Item.render] at hm ⊢
      obtain ⟨q, hsq, hq⟩ := Line.steps_line err o hi (renderItems is) hs hk
      rw [parseRun_steps hsq hm, ih q.clear err (o ++ [q]) fuel rfl rfl (by omega)]
      simp [Item.denote, Option.map_map, Function.comp_def, hq]
    | includeLine e w =>
      obtain ⟨m, hsm, hinc, hmm⟩ := steps_include err o hi (renderItems is) p
      obtain ⟨f, rfl⟩ : ∃ f, fuel = f + 1 := ⟨fuel - 1, by omega⟩
      rw [parseRun_steps hsm hm]
      simp only [Item.denote]
      rcases hd : doInclude env parse w d with _ | ⟨_ | _, qs⟩
      · simp [parseRun, hinc, hd, runEntries]
      · rw [parseRun_include hinc hd]
        simp [runEntries]
      · have hlen : 11 ≤ (Item.includeLine e w).render.length := by
          simp [Item.render, includeText, includeWord]
        have hinit : Steps env ⟨.initial, renderItems is, p, err, o ++ qs⟩
            ⟨.initialEol, renderItems is, p.clear, err, o ++ qs⟩ := .single rfl
        rw [parseRun_include hinc hd, if_pos rfl]
        dsimp only
        rw [parseRun_steps hinit (by simp [Machine.measure, Label.rank]; omega),
          ih p.clear err (o ++ qs) f rfl rfl (by omega)]
        simp [Option.map_map, Function.comp_def]
    | comment t =>
      rw [parseRun_steps (steps_comment err o hi _ p) hm, ih p err o fuel hs hk (by omega)]
      rfl
    | skipped l =>
      simp only [Item.render] at hm ⊢
      obtain ⟨q, hsq⟩ := SkipLine.steps err o hi (renderItems is) hs hk
      rw [parseRun_steps hsq hm, ih q.clear err o fuel rfl rfl (by omega)]
      rfl
    | bad b =>
      simp only [Item.render] at hm hf ⊢
      obtain ⟨tok, t, h₁, h₂, ht, hst⟩ := BadLine.steps_unexpected err o hi (renderItems is) p
      simp only [Item.denote]
      split_ifs with he
      · rw [parseRun_steps (hst.trans (steps_unexpected ht h₁ h₂ he)) hm,
          ih p.clear (err + 1) o fuel rfl rfl (by omega)]
      · obtain ⟨f, rfl⟩ : ∃ f, fuel = f + 1 := ⟨fuel - 1, by omega⟩
        have hfin : parseStep env ⟨.unexpected tok, t ++ ch '\n' :: renderItems is, p, err, o⟩ =
            .finish false := by
          simp [parseStep, he]
        rw [parseRun_steps hst hm, parseRun_finish hfin]
        simp [runEntries]

end Run

theorem parse_eq_run {env : Env} (nest d : Nat) (s : List UInt8) :
    parse env (nest + 1) d s = parseRun env (fun string d => parse env nest d string) d
      (6 * (s.length + 1)) ⟨.initialEol, s, Production.empty.clear, 0, []⟩ :=
  parseRun_steps (.single rfl) (by simp [Machine.measure, Label.rank]; omega)

/-- `parse` on a file of items that are `Ok`: the productions it hands over, read as what they ask
for, and whether it succeeds, are those of the denotation of the items, where an include is what
`do_include` gives for its path. -/
theorem parse_items {env : Env} {is : List Item} (his : ∀ i ∈ is, i.Ok env) (nest d : Nat) :
    runEntries (parse env (nest + 1) d (renderItems is)) =
      Item.denote env (fun w => doInclude env (fun s d' => parse env nest d' s) w d) 0 is := by
  rw [parse_eq_run, run_items his _ 0 [] _ rfl rfl (by omega)]
  simp

section Entries

variable {env : Env} {nest : Nat} {s : List UInt8} {es : List (List Keysym × Leaf)}

theorem newFromBuffer_of_entries_true (h : runEntries (parse env (nest + 1) 0 s) = some (true, es)) :
    ∃ c, newFromBuffer env (nest + 1) s formatTextV1 0 = some (some c) ∧ c.Wf ∧
      ∀ t, c.lookup t = (refEntries es).get t := by
  obtain ⟨ps, hp, hv⟩ := runEntries_eq_some h
  rw [← hv]
  exact newFromBuffer_of_parseString hp

theorem newFromBuffer_of_entries_false
    (h : runEntries (parse env (nest + 1) 0 s) = some (false, es)) :
    newFromBuffer env (nest + 1) s formatTextV1 0 = some none := by
  obtain ⟨ps, hp, -⟩ := runEntries_eq_some h
  simp [newFromBuffer, parseString, hp]

end Entries

/-- `xkb_compose_new_from_buffer` on a file of items that are `Ok` does what the denotation of the
file says: it runs out when an include nests too deep, gives no table when the parse fails, and
otherwise a well-formed table whose lookup is the reference insertion of what the productions ask
for, those of included files in place. -/
theorem newFromBuffer_denote {env : Env} {is : List Item} (his : ∀ i ∈ is, i.Ok env) (nest : Nat) :
    match Item.denote env (fun w => doInclude env (fun s d' => parse env nest d' s) w 0) 0 is with
    | none => newFromBuffer env (nest + 1) (renderItems is) formatTextV1 0 = none
    | some (false, _) => newFromBuffer env (nest + 1) (renderItems is) formatTextV1 0 = some none
    | some (true, es) =>
      ∃ c, newFromBuffer env (nest + 1) (renderItems is) formatTextV1 0 = some (some c) ∧ c.Wf ∧
        ∀ s, c.lookup s = (refEntries es).get s := by
  have h := parse_items his nest 0
  split
  · next hr =>
    rw [hr] at h
    have hp : parseString env (nest + 1) (renderItems is) = none := by
      simpa [runEntries] using h
    simp [newFromBuffer, hp]
  · next hr => exact newFromBuffer_of_entries_false (h.trans hr)
  · next hr => exact newFromBuffer_of_entries_true (h.trans hr)

theorem newFromBuffer_denote_sample : (∀ i ∈ sampleItems, i.Ok sampleEnv) ∧
    match Item.denote sampleEnv (fun w => doInclude sampleEnv (fun s d' => parse sampleEnv 1 d' s) w 0)
      0 sampleItems with
    | none => newFromBuffer sampleEnv (1 + 1) (renderItems sampleItems) formatTextV1 0 = none
    | some (false, _) =>
      newFromBuffer sampleEnv (1 + 1) (renderItems sampleItems) formatTextV1 0 = some none
    | some (true, es) =>
      ∃ c, newFromBuffer sampleEnv (1 + 1) (renderItems sampleItems) formatTextV1 0 = some (some c) ∧
        c.Wf ∧ ∀ s, c.lookup s = (refEntries es).get s :=
  ⟨sampleItems_ok, newFromBuffer_denote sampleItems_ok 1⟩

example : Item.denote sampleEnv (fun _ => some (false, [])) 0 sampleItems =
    some (false, [aeLine.entry sampleEnv]) := by decide

/-! ## What the denotation gives -/

def Item.isInclude : Item → Bool
  | .includeLine .. => true
  | _ => false

def Item.isBad : Item → Bool
  | .bad _ => true
  | _ => false

def Item.entry? (env : Env) : Item → Option (List Keysym × Leaf)
  | .production l => some (l.entry env)
  | _ => none

section Denote

variable {env : Env} {inc : List UInt8 → Option (Bool × List Production)}

/-- Over items with no include and no more bad lines than the errors left: what their production
lines ask for, then the denotation of what follows them, with their errors counted. -/
theorem Item.denote_append : ∀ {is : List Item} (js : List Item) {err : Nat},
    (∀ i ∈ is, i.isInclude = false) → err + is.countP isBad ≤ maxErrors →
      denote env inc err (is ++ js) =
        (denote env inc (err + is.countP isBad) js).map
          fun r => (r.1, is.filterMap (entry? env) ++ r.2)
  | [], js, err, _, _ => by simp
  | i :: is, js, err, hno, he => by
    have hno' : ∀ i ∈ is, i.isInclude = false := fun i h => hno i (.tail _ h)
    cases i with
    | production l =>
      simp only [isBad, List.countP_cons, Bool.false_eq_true, if_false, Nat.add_zero] at he
      simp [denote, denote_append js hno' he, Option.map_map, Function.comp_def, entry?, isBad]
    | includeLine => simp [isInclude] at hno
    | comment | skipped =>
      simp only [isBad, List.countP_cons, Bool.false_eq_true, if_false, Nat.add_zero] at he
      simp [denote, denote_append js hno' he, entry?, isBad]
    | bad b =>
      simp only [isBad, List.countP_cons, if_true] at he
      rw [List.cons_append, denote, if_pos (by omega), denote_append js hno' (by omega)]
      simp [isBad, entry?, Nat.add_assoc, Nat.add_comm 1]

theorem Item.denote_append_over : ∀ {is : List Item} (js : List Item) {err : Nat},
    (∀ i ∈ is, i.isInclude = false) → err ≤ maxErrors → maxErrors < err + is.countP isBad →
      ∃ es, denote env inc err (is ++ js) = some (false, es)
  | [], _, _, _, h, h' => absurd h (by simpa using h')
  | i :: is, js, err, hno, hle, he => by
    have hno' : ∀ i ∈ is, i.isInclude = false := fun i h => hno i (.tail _ h)
    cases i with
    | production l =>
      simp only [isBad, List.countP_cons, Bool.false_eq_true, if_false, Nat.add_zero] at he
      obtain ⟨es, h⟩ := denote_append_over js hno' hle he
      exact ⟨l.entry env :: es, by simp [denote, h]⟩
    | includeLine => simp [isInclude] at hno
    | comment | skipped =>
      simp only [isBad, List.countP_cons, Bool.false_eq_true, if_false, Nat.add_zero] at he
      rw [List.cons_append, denote]
      exact denote_append_over js hno' hle he
    | bad b =>
      simp only [isBad, List.countP_cons, if_true] at he
      rw [List.cons_append, denote]
      split_ifs with h
      · exact denote_append_over js hno' h (by omega)
      · exact ⟨[], rfl⟩

end Denote

/-- A file with no include gives a table exactly when it has at most `MAX_ERRORS` bad lines, and
then the table of its production lines: each bad line is skipped, and the one past `MAX_ERRORS`
makes `xkb_compose_new_from_buffer` fail. -/
theorem newFromBuffer_errors {env : Env} {is : List Item} (his : ∀ i ∈ is, i.Ok env)
    (hno : ∀ i ∈ is, i.isInclude = false) (nest : Nat) :
    if is.countP Item.isBad ≤ maxErrors then
      ∃ c, newFromBuffer env (nest + 1) (renderItems is) formatTextV1 0 = some (some c) ∧ c.Wf ∧
        ∀ s, c.lookup s = (refEntries (is.filterMap (Item.entry? env))).get s
    else newFromBuffer env (nest + 1) (renderItems is) formatTextV1 0 = some none := by
  have h := parse_items his nest 0
  split_ifs with he
  · rw [← List.append_nil is, Item.denote_append [] hno (by omega)] at h
    exact newFromBuffer_of_entries_true (by simpa [Item.denote] using h)
  · obtain ⟨es, hes⟩ : ∃ es, Item.denote env (fun w => doInclude env
        (fun s d' => parse env nest d' s) w 0) 0 (is ++ []) = some (false, es) :=
      Item.denote_append_over [] hno (Nat.zero_le _) (by omega)
    rw [List.append_nil] at hes
    exact newFromBuffer_of_entries_false (h.trans hes)

def sampleLines : List Item := sampleItems.take 7

theorem newFromBuffer_errors_sample : (∀ i ∈ sampleLines, i.Ok sampleEnv) ∧
    (∀ i ∈ sampleLines, i.isInclude = false) ∧
    if sampleLines.countP Item.isBad ≤ maxErrors then
      ∃ c, newFromBuffer sampleEnv (0 + 1) (renderItems sampleLines) formatTextV1 0 = some (some c) ∧
        c.Wf ∧ ∀ s, c.lookup s = (refEntries (sampleLines.filterMap (Item.entry? sampleEnv))).get s
    else newFromBuffer sampleEnv (0 + 1) (renderItems sampleLines) formatTextV1 0 = some none :=
  have hok : ∀ i ∈ sampleLines, i.Ok sampleEnv := fun i hi => sampleItems_ok i (List.mem_of_mem_take hi)
  have hno : ∀ i ∈ sampleLines, i.isInclude = false := by decide
  ⟨hok, hno, newFromBuffer_errors hok hno 0⟩

structure Level where
  before : List Item
  body : List UInt8
  path : List UInt8
  after : List Item
  deriving DecidableEq, Repr

def chainFile : List Level → List Item → List Item
  | [], ks => ks
  | l :: _, _ => l.before ++ .includeLine l.body l.path :: l.after

def chainFlat : List Level → List Item → List Item
  | [], ks => ks
  | l :: L, ks => l.before ++ chainFlat L ks ++ l.after

/-- What a chain needs: the items of each file are `Ok`, include nothing but the next file, and
have at most `MAX_ERRORS` bad lines, and the path of each level names the file of the next. -/
def ChainOk (env : Env) : List Level → List Item → Prop
  | [], ks => (∀ i ∈ ks, i.Ok env) ∧ (∀ i ∈ ks, i.isInclude = false) ∧
      ks.countP Item.isBad ≤ maxErrors
  | l :: L, ks => (∀ i ∈ chainFile (l :: L) ks, i.Ok env) ∧
      (∀ i ∈ l.before ++ l.after, i.isInclude = false) ∧
      (l.before ++ l.after).countP Item.isBad ≤ maxErrors ∧
      env.files (cstr l.path) = some (renderItems (chainFile L ks)) ∧ ChainOk env L ks

theorem parse_flat {env : Env} {ks : List Item} (hks : ∀ i ∈ ks, i.Ok env)
    (hno : ∀ i ∈ ks, i.isInclude = false) (herr : ks.countP Item.isBad ≤ maxErrors) (nest d : Nat) :
    runEntries (parse env (nest + 1) d (renderItems ks)) =
      some (true, ks.filterMap (Item.entry? env)) := by
  have h := parse_items hks nest d
  rw [← List.append_nil ks, Item.denote_append [] hno (by omega)] at h
  simpa [Item.denote] using h

/-- The top file of a chain parses, with the productions of the chain's lines with every include
replaced by its file, given one level of nesting per include. The depth check of `do_include`
never fails, however long the chain: each nested activation runs at its caller's depth, 0. -/
theorem parse_chain {env : Env} {ks : List Item} : ∀ {L : List Level}, ChainOk env L ks →
    ∀ nest, L.length ≤ nest → runEntries (parse env (nest + 1) 0 (renderItems (chainFile L ks))) =
      some (true, (chainFlat L ks).filterMap (Item.entry? env))
  | [], ⟨hks, hno, herr⟩, nest, _ => parse_flat hks hno herr nest 0
  | l :: L, ⟨his, hno, herr, hw, hL⟩, nest, hn => by
    obtain ⟨nest, rfl⟩ : ∃ n, nest = n + 1 := ⟨nest - 1, by simp at hn; omega⟩
    -- the next file of the chain
    obtain ⟨qs, hq, hqv⟩ := runEntries_eq_some (parse_chain hL nest (by simp at hn; omega))
    have hinc : doInclude env (fun s d' => parse env (nest + 1) d' s) l.path 0 = some (true, qs) := by
      simp [doInclude, maxIncludeDepth, hw, hq]
    -- this file
    simp only [List.mem_append, or_imp, forall_and] at hno
    rw [List.countP_append] at herr
    have h := parse_items his (nest + 1) 0
    simp only [chainFile] at h
    rw [Item.denote_append _ hno.1 (by omega), Item.denote, hinc] at h
    dsimp only at h
    rw [← List.append_nil l.after, Item.denote_append [] hno.2 (by omega)] at h
    simpa [Item.denote, chainFlat, List.filterMap_append, hqv] using h

/-- A chain of includes of any length, longer than `MAX_INCLUDE_DEPTH` too, loads as the file with
every include replaced by the file it names, given one level of nesting per include. -/
theorem newFromBuffer_chain {env : Env} {L : List Level} {ks : List Item} (hL : ChainOk env L ks)
    (nest : Nat) (hn : L.length ≤ nest) :
    ∃ c, newFromBuffer env (nest + 1) (renderItems (chainFile L ks)) formatTextV1 0 =
        some (some c) ∧ c.Wf ∧
      ∀ s, c.lookup s = (refEntries ((chainFlat L ks).filterMap (Item.entry? env))).get s :=
  newFromBuffer_of_entries_true (parse_chain hL nest hn)

theorem Line.Ok.files {env : Env} {l : Line} (h : l.Ok env)
    (files : List UInt8 → Option (List UInt8)) : l.Ok { env with files := files } :=
  ⟨h.lhs_ne_nil, h.lhs_length_le,
    fun n hn => have k := h.lhs n hn; ⟨k.no_gt_nl, k.nul_free, k.fits, k.known⟩,
    fun e he => have k := h.str e he; ⟨k.encodes, k.ne_nil, k.nul_free, k.length_le, k.fits, k.utf8⟩,
    fun n hn => have k := h.ks n hn; ⟨k.word, k.ne_include, k.fits, k.known⟩, h.rhs⟩

def chainLevels : List Level :=
  [1, 2, 3, 4, 5, 6].map fun k : UInt8 => ⟨[], [ch '/', ch '0' + k], [ch '/', ch '0' + k], []⟩

def chainFiles (p : List UInt8) : Option (List UInt8) :=
  (chainLevels.findIdx? (·.path = p)).map fun k =>
    renderItems (chainFile (chainLevels.drop (k + 1)) [.production aeLine])

def chainEnv : Env := { sampleEnv with files := chainFiles }

theorem chainLevels_ok : ChainOk chainEnv chainLevels [.production aeLine] := by
  have hi : ∀ w : List UInt8, (∀ b ∈ w, b ≠ ch '%' ∧ b ≠ ch '"' ∧ b ≠ ch '\n') → w.length = 2 →
      ∀ i ∈ ([] : List Item) ++ .includeLine w w :: [], i.Ok chainEnv := fun w hw hl i hi => by
    simp only [List.nil_append, List.mem_singleton] at hi
    subst hi
    exact ⟨by decide, expands_plain _ hw, by simp [chainEnv, sampleEnv, hl]⟩
  simp only [chainLevels, List.map_cons, List.map_nil, ChainOk, chainFile]
  refine ⟨hi _ (by decide) rfl, by decide, by decide, by decide, hi _ (by decide) rfl, by decide,
    by decide, by decide, hi _ (by decide) rfl, by decide, by decide, by decide,
    hi _ (by decide) rfl, by decide, by decide, by decide, hi _ (by decide) rfl, by decide,
    by decide, by decide, hi _ (by decide) rfl, by decide, by decide, by decide, ?_, by decide,
    by decide⟩
  simp only [List.mem_singleton, forall_eq]
  exact (aeLine_ok _ (.head _)).files _

theorem newFromBuffer_chain_six : ChainOk chainEnv chainLevels [.production aeLine] ∧
    chainLevels.length ≤ 6 ∧
    ∃ c, newFromBuffer chainEnv (6 + 1) (renderItems (chainFile chainLevels [.production aeLine]))
        formatTextV1 0 = some (some c) ∧ c.Wf ∧
      ∀ s, c.lookup s = (refEntries ((chainFlat chainLevels [.production aeLine]).filterMap
        (Item.entry? chainEnv))).get s :=
  ⟨chainLevels_ok, by decide, newFromBuffer_chain chainLevels_ok 6 (by decide)⟩

example : maxIncludeDepth < chainLevels.length := by decide

end XkbCompose
