import XkbCompose.Lex
import XkbCompose.Build

/-!
# XkbCompose.Parse

`parse`, `do_include`, `parse_string` and `parse_file` of `parser.c`, and the loaders
`xkb_compose_new_from_buffer`, `xkb_compose_new_from_file` and `xkb_compose_new_from_locale` of
`compose.c`. The `goto` labels of `parse` are the states of a machine: `parseStep` goes from one
label to the next, calling `lex` or `lex_include_string` once at most, and `parseRun` runs it.
`add_production` never feeds back into the parser, so the machine records the productions it
hands over, in order, and the table is their fold (`newFromBuffer`).

An activation of `parse` runs for at most `6 * (length + 1)` steps: every step consumes input or
moves to a label of lower rank. What can run on without bound is the nesting of activations
through `do_include`, and `parse` takes a bound on it: `none` is a nesting deeper than that.

* `parseStep_below`: every step consumes input or lowers the rank of the label.
* `parse_eq_none`: an activation runs out only through a file it includes at its own depth,
  whose activation runs out in turn.
* `parse_shaped`: every production `parse` hands over has the shape `add_production` is proved
  correct for.
* `newFromBuffer_wf`: the table built from a buffer that parses is well formed, and its keys
  are those of the reference insertion of the productions in order.
* `parseString_trailing_token`: a line hands over its production as soon as its right-hand
  keysym is read, whatever follows it (`parseString_rhs_keysym_first` in `Lines` states it for
  every environment).
* `parse_dead_warnings`: at every machine an activation goes through (`Reach`), a colon after the
  left-hand side leads to `rhs` and a right-hand keysym ends the line, so that the warnings of an
  empty left-hand side and of a second right-hand keysym are never issued.
* `parseString_self_include`: a file that includes itself nests without bound.
-/

namespace XkbCompose

def maxIncludeDepth : Nat := 5

def maxErrors : Nat := 10

def formatTextV1 : Nat := 1

namespace Production

def empty : Production := ⟨[], noSymbol, [], false, false, by decide, by decide, by decide⟩

def clear (p : Production) : Production :=
  ⟨[], p.keysym, p.string, false, false, Nat.zero_le _, p.string_length_lt, p.string_nul_free⟩

def startLhs (p : Production) (k : Keysym) : Production :=
  { p with lhs := [k], lhs_length_le := (by decide : 1 ≤ 10) }

def pushLhs (p : Production) (k : Keysym) (h : ¬p.lhs.length + 1 > maxLhsLen) : Production :=
  { p with lhs := p.lhs ++ [k], lhs_length_le := by simp only [List.length_append, List.length_singleton]; omega }

def setKeysym (p : Production) (k : Keysym) : Production :=
  { p with keysym := k, hasKeysym := true }

def setString (p : Production) (str : List UInt8) (h : ¬(cstr str).length ≥ 256) : Production :=
  { p with string := cstr str, hasString := true, string_length_lt := by omega,
           string_nul_free := cstr_not_mem str }

end Production

/-- The labels of `parse`. `unexpected` and `skip` carry the token they were reached with, and
`include_eol` the path `lex_include_string` read. -/
inductive Label
  | initial
  | initialEol
  | include
  | includeEol (path : List UInt8)
  | lhs
  | rhs
  | unexpected (tok : Token)
  | skip (tok : Token)
  deriving DecidableEq, Repr

/-- An activation of `parse` at a label: the input left, the production being read, the error
count, and the productions handed to `add_production` so far. -/
structure Machine where
  label : Label
  input : List UInt8
  production : Production
  numErrors : Nat
  out : List Production
  deriving DecidableEq, Repr

/-- What a step of `parse` leads to: the next label, a `do_include` to run before going back to
`initial`, or the end of the activation (`finished`, or `fail` after too many errors). -/
inductive Outcome
  | next (m : Machine)
  | include (path : List UInt8) (m : Machine)
  | finish (ok : Bool)

/-- The end of the right-hand side, reached at the end of the line or by the fall-through from
a right-hand keysym: hand the production to `add_production` unless it has neither a string nor
a keysym. -/
def rhsEnd (m : Machine) (tok : Token) (s : List UInt8) (p : Production) : Outcome :=
  if !p.hasString && !p.hasKeysym then .next { m with label := .skip tok, input := s, production := p }
  else .next { m with label := .initial, input := s, production := p, out := m.out ++ [p] }

/-- One step of `parse`, from the label `m` is at. -/
def parseStep (env : Env) (m : Machine) : Outcome :=
  match m.label with
  | .initial => .next { m with label := .initialEol, production := m.production.clear }
  | .initialEol =>
    match lex env m.input with
    | (.endOfLine, s) => .next { m with input := s }
    | (.endOfFile, _) => .finish true
    | (.include, s) => .next { m with label := .include, input := s }
    | (.lhsKeysym k, s) =>
      .next { m with label := .lhs, input := s, production := m.production.startLhs k }
    | (tok, s) => .next { m with label := .unexpected tok, input := s }
  | .include =>
    match lexIncludeString env m.input with
    | (.includeString path, s) => .next { m with label := .includeEol path, input := s }
    | (tok, s) => .next { m with label := .unexpected tok, input := s }
  | .includeEol path =>
    match lex env m.input with
    | (.endOfLine, s) => .include path { m with label := .initial, input := s }
    | (tok, s) => .next { m with label := .unexpected tok, input := s }
  | .lhs =>
    match lex env m.input with
    | (.lhsKeysym k, s) =>
      if h : m.production.lhs.length + 1 > maxLhsLen then
        .next { m with label := .skip (.lhsKeysym k), input := s }
      else .next { m with input := s, production := m.production.pushLhs k h }
    | (.colon, s) =>
      if m.production.lhs.length ≤ 0 then .next { m with label := .skip .colon, input := s }
      else .next { m with label := .rhs, input := s }
    | (tok, s) => .next { m with label := .unexpected tok, input := s }
  | .rhs =>
    match lex env m.input with
    | (.string str, s) =>
      if m.production.hasString then .next { m with label := .skip (.string str), input := s }
      else if cstr str = [] then .next { m with label := .skip (.string str), input := s }
      else if h : (cstr str).length ≥ 256 then
        .next { m with label := .skip (.string str), input := s }
      else .next { m with input := s, production := m.production.setString str h }
    | (.rhsKeysym k, s) =>
      if m.production.hasKeysym then .next { m with label := .skip (.rhsKeysym k), input := s }
      else rhsEnd m (.rhsKeysym k) s (m.production.setKeysym k)
    | (.endOfLine, s) => rhsEnd m .endOfLine s m.production
    | (tok, s) => .next { m with label := .unexpected tok, input := s }
  | .unexpected tok =>
    if m.numErrors + 1 ≤ maxErrors then
      .next { m with label := .skip tok, numErrors := m.numErrors + 1 }
    else .finish false
  | .skip tok =>
    if tok = .endOfLine ∨ tok = .endOfFile then .next { m with label := .initial }
    else
      match lex env m.input with
      | (tok, s) => .next { m with label := .skip tok, input := s }

/-- `do_include`: the depth check, then the file at the path read as a C string, parsed by
`parse`. The call `parse(compose, &new_s, include_depth++)` passes the value before the
increment, so the nested activation gets the caller's own depth. -/
def doInclude (env : Env) (parse : List UInt8 → Nat → Option (Bool × List Production))
    (path : List UInt8) (includeDepth : Nat) : Option (Bool × List Production) :=
  if includeDepth ≥ maxIncludeDepth then some (false, [])
  else
    match env.files (cstr path) with
    | none => some (false, [])
    | some string => parse string includeDepth

/-- The steps of an activation of `parse`, within `fuel` steps; `parse` runs the nested
activations of `do_include`. -/
def parseRun (env : Env) (parse : List UInt8 → Nat → Option (Bool × List Production))
    (includeDepth : Nat) : Nat → Machine → Option (Bool × List Production)
  | 0, _ => none
  | fuel + 1, m =>
    match parseStep env m with
    | .next m' => parseRun env parse includeDepth fuel m'
    | .include path m' =>
      match doInclude env parse path includeDepth with
      | none => none
      | some (true, ps) => parseRun env parse includeDepth fuel { m' with out := m'.out ++ ps }
      | some (false, ps) => some (false, m'.out ++ ps)
    | .finish ok => some (ok, m.out)

/-- `parse`: whether it succeeds, and the productions it hands to `add_production`, in order,
nested files included. `nest` bounds how deep activations nest; `none` when they nest deeper. -/
def parse (env : Env) : (nest : Nat) → Nat → List UInt8 → Option (Bool × List Production)
  | 0, _, _ => none
  | nest + 1, includeDepth, s =>
    parseRun env (fun string d => parse env nest d string) includeDepth (6 * (s.length + 1))
      ⟨.initial, s, .empty, 0, []⟩

/-- `parse_string`. -/
def parseString (env : Env) (nest : Nat) (s : List UInt8) : Option (Bool × List Production) :=
  parse env nest 0 s

/-- `xkb_compose_new_from_buffer`: `some none` is `NULL`. The flags must be
`XKB_COMPOSE_COMPILE_NO_FLAGS`, which is 0, and the format text v1. -/
def newFromBuffer (env : Env) (nest : Nat) (buffer : List UInt8) (format flags : Nat) :
    Option (Option Compose) :=
  if flags ≠ 0 then some none
  else if format ≠ formatTextV1 then some none
  else
    match parseString env nest buffer with
    | none => none
    | some (false, _) => some none
    | some (true, ps) => some (ps.foldlM addProduction composeNew)

/-- `parse_file`, on what `map_file` reads from the file: `none` when it cannot read it. -/
def parseFile (env : Env) (nest : Nat) : Option (List UInt8) → Option (Bool × List Production)
  | none => some (false, [])
  | some string => parseString env nest string

/-- `xkb_compose_new_from_file`, on what `map_file` reads from the file. -/
def newFromFile (env : Env) (nest : Nat) (file : Option (List UInt8)) (format flags : Nat) :
    Option (Option Compose) :=
  if flags ≠ 0 then some none
  else if format ≠ formatTextV1 then some none
  else
    match parseFile env nest file with
    | none => none
    | some (false, _) => some none
    | some (true, ps) => some (ps.foldlM addProduction composeNew)

/-- `xkb_compose_new_from_locale`. The candidate paths are those of `get_xcomposefile_path`, of
`get_home_xcompose_file_path` and the environment's `get_locale_compose_file_path`, in this
order, and `opens` says which paths `fopen` opens. The first path that opens is parsed, and no
other is tried, even when it cannot be read or does not parse. -/
def newFromLocale (env : Env) (nest : Nat) (opens : List UInt8 → Bool)
    (xcomposefile homeXCompose : Option (List UInt8)) (flags : Nat) : Option (Option Compose) :=
  if flags ≠ 0 then some none
  else
    match [xcomposefile, homeXCompose, env.localeComposeFile].findSome? (·.filter opens) with
    | none => some none
    | some path =>
      match parseFile env nest (env.files path) with
      | none => none
      | some (false, _) => some none
      | some (true, ps) => some (ps.foldlM addProduction composeNew)

theorem newFromFile_some (env : Env) (nest : Nat) (string : List UInt8) (format flags : Nat) :
    newFromFile env nest (some string) format flags = newFromBuffer env nest string format flags :=
  rfl

theorem newFromLocale_eq (env : Env) (nest : Nat) (opens : List UInt8 → Bool)
    (xcomposefile homeXCompose : Option (List UInt8)) :
    newFromLocale env nest opens xcomposefile homeXCompose 0 =
      ([xcomposefile, homeXCompose, env.localeComposeFile].findSome? (·.filter opens)).elim
        (some none) fun path => newFromFile env nest (env.files path) formatTextV1 0 := by
  simp only [newFromLocale, ne_eq, not_true_eq_false, if_false]
  cases [xcomposefile, homeXCompose, env.localeComposeFile].findSome? (·.filter opens) <;> rfl

/-! ## Steps -/

def Outcome.All (P : Machine → Prop) : Outcome → Prop
  | .next m => P m
  | .include _ m => P m
  | .finish _ => True

def Label.rank : Label → Nat
  | .initialEol => 0
  | .initial => 1
  | .skip tok => if tok = .endOfLine ∨ tok = .endOfFile then 2 else 3
  | .unexpected _ => 4
  | _ => 5

def Machine.measure (m : Machine) : Nat := 6 * m.input.length + m.label.rank

theorem Label.rank_le (l : Label) : l.rank ≤ 5 := by
  unfold Label.rank; split <;> (try split) <;> omega

theorem lex_move_below {env : Env} {m : Machine} {tok : Token} {s' : List UInt8} {l' : Label}
    (h : lex env m.input = (tok, s')) (hr : tok = .endOfFile → l'.rank < m.label.rank)
    (p : Production) (e : Nat) (o : List Production) :
    (Machine.mk l' s' p e o).measure < m.measure := by
  have hok := lex_ok env m.input
  rw [h] at hok
  have hle : s'.length ≤ m.input.length := hok.length_le
  have := l'.rank_le
  unfold Machine.measure
  by_cases hE : tok = .endOfFile
  · have := hr hE; simp only; omega
  · have : s'.length < m.input.length := hok.length_lt hE
    simp only; omega

theorem lexIncludeString_move_below {env : Env} {m : Machine} {tok : Token} {s' : List UInt8}
    {l' : Label} (h : lexIncludeString env m.input = (tok, s'))
    (hr : (∀ path, tok ≠ .includeString path) → l'.rank < m.label.rank)
    (p : Production) (e : Nat) (o : List Production) :
    (Machine.mk l' s' p e o).measure < m.measure := by
  have hle : s'.length ≤ m.input.length := by
    simpa [h] using lexIncludeString_length_le env m.input
  have := l'.rank_le
  unfold Machine.measure
  by_cases hP : ∃ path, tok = .includeString path
  · obtain ⟨path, hp⟩ := hP
    have : s'.length < m.input.length := by
      simpa [h] using @lexIncludeString_length_lt env m.input path (by simpa [h] using hp)
    simp only; omega
  · have := hr fun path hp => hP ⟨path, hp⟩; simp only; omega

theorem rhsEnd_below {m : Machine} {tok : Token} {s : List UInt8} (p : Production)
    (h : ∀ l' p' o', (Machine.mk l' s p' m.numErrors o').measure < m.measure) :
    (rhsEnd m tok s p).All fun m' => m'.measure < m.measure := by
  unfold rhsEnd; split_ifs <;> exact h _ _ _

/-- Every step consumes input or moves to a label of lower rank. -/
theorem parseStep_below (env : Env) (m : Machine) :
    (parseStep env m).All fun m' => m'.measure < m.measure := by
  rcases h : lex env m.input with ⟨tok, s'⟩
  rcases hi : lexIncludeString env m.input with ⟨itok, si⟩
  have mv := fun {l'} hr => @lex_move_below env m tok s' l' h hr
  have mvi := fun {l'} hr => @lexIncludeString_move_below env m itok si l' hi hr
  obtain ⟨l, s, p, e, o⟩ := m
  cases l
  · simp [parseStep, Outcome.All, Machine.measure, Label.rank]
  · simp only [parseStep, h]
    cases tok <;> simp only [Outcome.All] <;> first | trivial | exact mv (by simp) ..
  · simp only [parseStep, hi]
    cases itok <;> exact mvi (by simp [Label.rank]) ..
  · simp only [parseStep, h]
    cases tok <;> exact mv (by simp [Label.rank]) ..
  · simp only [parseStep, h]
    cases tok <;> simp only [Outcome.All] <;> (try split_ifs) <;> exact mv (by simp [Label.rank]) ..
  · simp only [parseStep, h]
    cases tok <;> simp only [Outcome.All] <;> (try split_ifs) <;>
      first
      | exact mv (by simp [Label.rank]) ..
      | exact rhsEnd_below _ fun _ _ _ => mv (by simp) ..
  · simp only [parseStep]
    split_ifs
    · simp only [Outcome.All, Machine.measure, Label.rank]; split_ifs <;> omega
    · trivial
  · rename_i tok₀
    simp only [parseStep, h]
    split_ifs with ht
    · simp [Outcome.All, Machine.measure, Label.rank, ht]
    · exact mv (fun hE => by simp [Label.rank, hE, ht]) ..

theorem parseStep_out (env : Env) (m : Machine) :
    (parseStep env m).All fun m' => m.out <+: m'.out := by
  obtain ⟨l, s, p, e, o⟩ := m
  unfold parseStep rhsEnd
  cases l <;> simp only <;> repeat' split
  all_goals simp [Outcome.All]

/-! ## Runs -/

/-- `m'` is reached from `m` by steps that each go on to a next label. -/
inductive Steps (env : Env) : Machine → Machine → Prop
  | refl {m : Machine} : Steps env m m
  | cons {m m' m'' : Machine} : parseStep env m = .next m' → Steps env m' m'' → Steps env m m''

namespace Steps

theorem single {env : Env} {m m' : Machine} (h : parseStep env m = .next m') : Steps env m m' :=
  .cons h .refl

theorem trans {env : Env} {m m' m'' : Machine} (h₁ : Steps env m m') (h₂ : Steps env m' m'') :
    Steps env m m'' := by
  induction h₁ with
  | refl => exact h₂
  | cons hs _ ih => exact .cons hs (ih h₂)

end Steps

section Run

variable {env : Env} {parse : List UInt8 → Nat → Option (Bool × List Production)} {d : Nat}

theorem parseRun_next {fuel : Nat} {m m' : Machine} (h : parseStep env m = .next m') :
    parseRun env parse d (fuel + 1) m = parseRun env parse d fuel m' := by
  simp [parseRun, h]

theorem parseRun_include_none {fuel : Nat} {m m' : Machine} {path : List UInt8}
    (h : parseStep env m = .include path m') (hd : doInclude env parse path d = none) :
    parseRun env parse d (fuel + 1) m = none := by
  simp [parseRun, h, hd]

theorem parseRun_finish {fuel : Nat} {m : Machine} {ok : Bool} (h : parseStep env m = .finish ok) :
    parseRun env parse d (fuel + 1) m = some (ok, m.out) := by
  simp [parseRun, h]

theorem parseRun_include {fuel : Nat} {m m' : Machine} {path : List UInt8} {ok : Bool}
    {ps : List Production} (h : parseStep env m = .include path m')
    (hd : doInclude env parse path d = some (ok, ps)) :
    parseRun env parse d (fuel + 1) m =
      if ok then parseRun env parse d fuel { m' with out := m'.out ++ ps }
      else some (false, m'.out ++ ps) := by
  cases ok <;> simp [parseRun, h, hd]

/-- An activation runs out only through an include that runs out: with more fuel than its
measure, the loop of `parse` itself always ends. -/
theorem parseRun_eq_none : ∀ {fuel : Nat} {m : Machine}, m.measure < fuel →
    parseRun env parse d fuel m = none → ∃ path, doInclude env parse path d = none
  | 0, _, hf, _ => absurd hf (Nat.not_lt_zero _)
  | fuel + 1, m, hf, h => by
    have hb := parseStep_below env m
    rcases hs : parseStep env m with m' | ⟨path, m'⟩ | ok <;>
      simp only [hs, Outcome.All] at hb <;> simp only [parseRun, hs] at h
    · exact parseRun_eq_none (by omega) h
    · rcases hd : doInclude env parse path d with _ | ⟨_ | _, ps⟩ <;> simp only [hd] at h
      · exact ⟨path, hd⟩
      · cases h
      · exact parseRun_eq_none (m := { m' with out := m'.out ++ ps }) (show m'.measure < fuel by omega) h
    · cases h

theorem parseRun_fuel : ∀ {fuel fuel' : Nat} {m : Machine}, m.measure < fuel → m.measure < fuel' →
    parseRun env parse d fuel m = parseRun env parse d fuel' m
  | 0, _, _, h, _ => absurd h (Nat.not_lt_zero _)
  | _ + 1, 0, _, _, h => absurd h (Nat.not_lt_zero _)
  | fuel + 1, fuel' + 1, m, h, h' => by
    have hb := parseStep_below env m
    rcases hs : parseStep env m with m' | ⟨path, m'⟩ | ok <;>
      simp only [hs, Outcome.All] at hb <;> simp only [parseRun, hs]
    · exact parseRun_fuel (by omega) (by omega)
    · rcases hd : doInclude env parse path d with _ | ⟨_ | _, ps⟩ <;> simp only [hd]
      exact parseRun_fuel (m := { m' with out := m'.out ++ ps })
        (show m'.measure < fuel by omega) (show m'.measure < fuel' by omega)

/-- Steps to a next label leave a run with more fuel than its measure as it was. -/
theorem parseRun_steps {fuel : Nat} {m m' : Machine} (hs : Steps env m m')
    (hf : m.measure < fuel) : parseRun env parse d fuel m = parseRun env parse d fuel m' := by
  induction hs with
  | refl => rfl
  | @cons m m₁ m₂ h _ ih =>
    have hb : m₁.measure < m.measure := by simpa [h, Outcome.All] using parseStep_below env m
    obtain ⟨f, rfl⟩ : ∃ f, fuel = f + 1 := ⟨fuel - 1, by omega⟩
    rw [parseRun_next h, parseRun_fuel (show m₁.measure < f by omega) (show m₁.measure < f + 1 by omega)]
    exact ih (by omega)

theorem parseRun_out : ∀ {fuel : Nat} {m : Machine} {ok : Bool} {ps : List Production},
    parseRun env parse d fuel m = some (ok, ps) → m.out <+: ps
  | 0, _, _, _, h => by cases h
  | fuel + 1, m, ok, ps, h => by
    have ho := parseStep_out env m
    rcases hs : parseStep env m with m' | ⟨path, m'⟩ | ok' <;>
      simp only [hs, Outcome.All] at ho <;> simp only [parseRun, hs] at h
    · exact ho.trans (parseRun_out h)
    · rcases hd : doInclude env parse path d with _ | ⟨_ | _, ps'⟩ <;>
        simp only [hd, Option.some.injEq, Prod.mk.injEq] at h
      · cases h
      · exact h.2 ▸ ho.trans (List.prefix_append _ _)
      · exact ho.trans ((List.prefix_append _ _).trans (parseRun_out h))
    · simp only [Option.some.injEq, Prod.mk.injEq] at h
      exact h.2 ▸ List.prefix_refl _

end Run

/-! ## The productions handed over -/

/-- What `parse` keeps true of the production it reads, and that everything it handed over has
the shape `add_production` is proved correct for. -/
structure Machine.Ok (m : Machine) : Prop where
  lhs_ne : ∀ k ∈ m.production.lhs, k ≠ noSymbol
  lhs_ne_nil : m.label = .rhs → m.production.lhs ≠ []
  string_ne_nil : m.production.hasString → m.production.string ≠ []
  keysym_ne : m.production.hasKeysym → m.production.keysym ≠ noSymbol
  out : ∀ p ∈ m.out, p.Shaped

theorem rhsEnd_ok {m : Machine} {tok : Token} {s : List UInt8} {p : Production}
    (hl : ∀ k ∈ p.lhs, k ≠ noSymbol) (hn : p.lhs ≠ []) (hs : p.hasString → p.string ≠ [])
    (hk : p.hasKeysym → p.keysym ≠ noSymbol) (ho : ∀ q ∈ m.out, q.Shaped) :
    (rhsEnd m tok s p).All Machine.Ok := by
  unfold rhsEnd
  split_ifs with he <;> simp only [Outcome.All]
  · exact ⟨hl, (fun h => nomatch h), hs, hk, ho⟩
  · refine ⟨hl, (fun h => nomatch h), hs, hk, ?_⟩
    simp only [List.mem_append, List.mem_singleton]
    rintro q (hq | rfl)
    · exact ho q hq
    · exact ⟨hn, hl, by revert he; cases q.hasString <;> cases q.hasKeysym <;> simp, hs, hk⟩

theorem parseStep_ok (env : Env) {m : Machine} (hm : m.Ok) : (parseStep env m).All Machine.Ok := by
  obtain ⟨hl, hn, hs, hk, ho⟩ := hm
  obtain ⟨l, s, p, e, o⟩ := m
  rcases h : lex env s with ⟨tok, s'⟩
  rcases hi : lexIncludeString env s with ⟨itok, si⟩
  have keep : ∀ {l : Label} {s : List UInt8} {e : Nat}, l ≠ .rhs →
      Machine.Ok ⟨l, s, p, e, o⟩ := fun hr => ⟨hl, fun h => absurd h hr, hs, hk, ho⟩
  cases l <;> simp only [parseStep, h, hi, Outcome.All]
  · exact ⟨by simp [Production.clear], (fun h => nomatch h), by simp [Production.clear],
      by simp [Production.clear], ho⟩
  · cases tok <;> simp only [Outcome.All]
    case lhsKeysym k =>
      exact ⟨by simpa [Production.startLhs] using lex_lhsKeysym_ne h, (fun h => nomatch h), hs,
        hk, ho⟩
    all_goals first | trivial | exact keep (by simp)
  · cases itok <;> exact keep (by simp)
  · cases tok <;> simp only [Outcome.All] <;> exact keep (by simp)
  · cases tok <;> simp only [Outcome.All]
    case lhsKeysym k =>
      split_ifs
      · exact keep (by simp)
      · refine ⟨?_, (fun h => nomatch h), hs, hk, ho⟩
        simpa [Production.pushLhs, or_imp, forall_and] using ⟨hl, lex_lhsKeysym_ne h⟩
    case colon =>
      split_ifs with hc
      · exact keep (by simp)
      · exact ⟨hl, fun _ => by simpa [List.length_eq_zero] using hc, hs, hk, ho⟩
    all_goals exact keep (by simp)
  · have hn := hn rfl
    cases tok <;> simp only [Outcome.All]
    case string str =>
      split_ifs
      · exact keep (by simp)
      · exact keep (by simp)
      · exact keep (by simp)
      · exact ⟨hl, fun _ => hn, fun _ => by simpa [Production.setString], hk, ho⟩
    case rhsKeysym k =>
      split_ifs
      · exact keep (by simp)
      · exact rhsEnd_ok hl hn hs (fun _ => lex_rhsKeysym_ne h) ho
    case endOfLine => exact rhsEnd_ok hl hn hs hk ho
    all_goals exact keep (by simp)
  · split_ifs
    · exact keep (by simp)
    · trivial
  · split_ifs <;> exact keep (by simp)

theorem Machine.Ok.append {m : Machine} (hm : m.Ok) {ps : List Production}
    (hps : ∀ p ∈ ps, p.Shaped) : Machine.Ok { m with out := m.out ++ ps } :=
  ⟨hm.lhs_ne, hm.lhs_ne_nil, hm.string_ne_nil, hm.keysym_ne, by
    simpa [or_imp, forall_and] using ⟨hm.out, hps⟩⟩

theorem Machine.ok_initial (s : List UInt8) : Machine.Ok ⟨.initial, s, .empty, 0, []⟩ :=
  ⟨by simp [Production.empty], (fun h => nomatch h), by simp [Production.empty],
    by simp [Production.empty], by simp⟩

section Run

variable {env : Env} {parse : List UInt8 → Nat → Option (Bool × List Production)} {d : Nat}

theorem parseRun_shaped
    (hinc : ∀ path ok ps, doInclude env parse path d = some (ok, ps) → ∀ p ∈ ps, p.Shaped) :
    ∀ {fuel : Nat} {m : Machine} {ok : Bool} {ps : List Production}, m.Ok →
      parseRun env parse d fuel m = some (ok, ps) → ∀ p ∈ ps, p.Shaped
  | 0, _, _, _, _, h => by cases h
  | fuel + 1, m, ok, ps, hm, h => by
    have hm' := parseStep_ok env hm
    rcases hs : parseStep env m with m' | ⟨path, m'⟩ | ok' <;>
      simp only [hs, Outcome.All] at hm' <;>
      simp only [parseRun, hs, Option.some.injEq, Prod.mk.injEq] at h
    · exact parseRun_shaped hinc hm' h
    · rcases hd : doInclude env parse path d with _ | ⟨_ | _, ps'⟩ <;>
        simp only [hd, Option.some.injEq, Prod.mk.injEq] at h
      · cases h
      · exact h.2 ▸ (hm'.append (hinc _ _ _ hd)).out
      · exact parseRun_shaped hinc (hm'.append (hinc _ _ _ hd)) h
    · exact h.2 ▸ hm.out

end Run

/-- Every production `parse` hands to `add_production`, from the file or from a file it
includes, has the shape `add_production` is proved correct for. -/
theorem parse_shaped {env : Env} : ∀ {nest d : Nat} {s : List UInt8} {ok : Bool}
    {ps : List Production}, parse env nest d s = some (ok, ps) → ∀ p ∈ ps, p.Shaped
  | 0, _, _, _, _, h => by cases h
  | nest + 1, d, s, ok, ps, h => by
    refine parseRun_shaped (fun path ok' ps' hd => ?_) (Machine.ok_initial s) h
    unfold doInclude at hd
    split_ifs at hd
    · cases hd; simp
    · split at hd
      · cases hd; simp
      · exact parse_shaped hd

/-- What holds of the production while a line is read, label by label: at `initial_eol` and at
`rhs` it has no keysym on the right, since a right-hand keysym hands the production over at once,
and at `lhs` it has one on the left and none on the right. -/
def Label.Reading : Label → Production → Prop
  | .initialEol, p => p.hasKeysym = false
  | .lhs, p => p.lhs ≠ [] ∧ p.hasKeysym = false
  | .rhs, p => p.hasKeysym = false
  | _, _ => True

def Machine.Reading (m : Machine) : Prop := m.label.Reading m.production

theorem rhsEnd_reading (m : Machine) (tok : Token) (s : List UInt8) (p : Production) :
    (rhsEnd m tok s p).All Machine.Reading := by
  unfold rhsEnd
  split_ifs <;> trivial

/-- Every step keeps `Machine.Reading`. -/
theorem parseStep_reading (env : Env) {m : Machine} (hm : m.Reading) :
    (parseStep env m).All Machine.Reading := by
  obtain ⟨l, s, p, e, o⟩ := m
  rcases h : lex env s with ⟨tok, s'⟩
  rcases hi : lexIncludeString env s with ⟨itok, si⟩
  cases l <;> simp only [parseStep, h, hi, Outcome.All]
  · exact rfl
  · cases tok <;> first | exact hm | exact ⟨List.cons_ne_nil _ _, hm⟩ | trivial
  · cases itok <;> trivial
  · cases tok <;> trivial
  · obtain ⟨hn, hk⟩ := hm
    cases tok <;> simp only [Outcome.All]
    case lhsKeysym k =>
      split_ifs
      · trivial
      · exact ⟨by simp [Production.pushLhs], hk⟩
    case colon => split_ifs <;> trivial
    all_goals trivial
  · cases tok <;> simp only [Outcome.All]
    case string str => split_ifs <;> trivial
    case rhsKeysym k =>
      split_ifs
      · trivial
      · exact rhsEnd_reading _ _ _ _
    case endOfLine => exact rhsEnd_reading _ _ _ _
    all_goals trivial
  · split_ifs <;> trivial
  · split_ifs <;> trivial

/-- The machines an activation goes through from `m`: by steps, and past the includes, after
which it goes on with the productions of the included file handed over. -/
inductive Reach (env : Env) (m : Machine) : Machine → Prop
  | refl : Reach env m m
  | next {m' m'' : Machine} : Reach env m m' → parseStep env m' = .next m'' → Reach env m m''
  | resume {m' m'' : Machine} {path : List UInt8} (ps : List Production) : Reach env m m' →
      parseStep env m' = .include path m'' → Reach env m { m'' with out := m''.out ++ ps }

theorem Reach.reading {env : Env} {m m' : Machine} (h : Reach env m m') (hm : m.Reading) :
    m'.Reading := by
  induction h with
  | refl => exact hm
  | next _ hs ih => simpa [hs, Outcome.All] using parseStep_reading env ih
  | resume _ _ hs ih => simpa [hs, Outcome.All] using parseStep_reading env ih

/-- Two warnings of `parse` are never issued. In every activation, at every machine it goes
through, a colon after the left-hand side leads to `rhs`, never to the skip of an empty
left-hand side; and a right-hand keysym ends the line, never to the skip of a second keysym. -/
theorem parse_dead_warnings {env : Env} {s : List UInt8} {p : Production} {e : Nat}
    {o : List Production} {m : Machine} (h : Reach env ⟨.initial, s, p, e, o⟩ m) :
    (m.label = .lhs → ∀ s', lex env m.input = (.colon, s') →
      parseStep env m = .next { m with label := .rhs, input := s' }) ∧
    (m.label = .rhs → ∀ k s', lex env m.input = (.rhsKeysym k, s') →
      parseStep env m = rhsEnd m (.rhsKeysym k) s' (m.production.setKeysym k)) := by
  have hm := h.reading trivial
  obtain ⟨l, input, q, e', o'⟩ := m
  refine ⟨?_, ?_⟩
  · rintro rfl s' hl
    have hn : q.lhs ≠ [] := hm.1
    simp [parseStep, hl, hn]
  · rintro rfl k s' hl
    have hk : q.hasKeysym = false := hm
    simp [parseStep, hl, hk]

theorem parse_dead_warnings_ab :
    Reach sampleEnv ⟨.initial, [ch '<', ch 'a', ch '>', ch ' ', ch ':', ch ' ', ch 'b', ch '\n'],
        .empty, 0, []⟩ ⟨.rhs, [ch ' ', ch 'b', ch '\n'], Production.empty.clear.startLhs 0x61, 0, []⟩ ∧
    ((Label.rhs = .lhs → ∀ s', lex sampleEnv [ch ' ', ch 'b', ch '\n'] = (.colon, s') →
      parseStep sampleEnv ⟨.rhs, [ch ' ', ch 'b', ch '\n'], Production.empty.clear.startLhs 0x61, 0,
        []⟩ = .next ⟨.rhs, s', Production.empty.clear.startLhs 0x61, 0, []⟩) ∧
    (Label.rhs = .rhs → ∀ k s', lex sampleEnv [ch ' ', ch 'b', ch '\n'] = (.rhsKeysym k, s') →
      parseStep sampleEnv ⟨.rhs, [ch ' ', ch 'b', ch '\n'], Production.empty.clear.startLhs 0x61, 0,
        []⟩ = rhsEnd ⟨.rhs, [ch ' ', ch 'b', ch '\n'], Production.empty.clear.startLhs 0x61, 0, []⟩
          (.rhsKeysym k) s' ((Production.empty.clear.startLhs 0x61).setKeysym k))) :=
  have h₁ : parseStep sampleEnv ⟨.initial, [ch '<', ch 'a', ch '>', ch ' ', ch ':', ch ' ', ch 'b',
      ch '\n'], .empty, 0, []⟩ = .next ⟨.initialEol, [ch '<', ch 'a', ch '>', ch ' ', ch ':', ch ' ',
        ch 'b', ch '\n'], Production.empty.clear, 0, []⟩ := rfl
  have h₂ : parseStep sampleEnv ⟨.initialEol, [ch '<', ch 'a', ch '>', ch ' ', ch ':', ch ' ',
      ch 'b', ch '\n'], Production.empty.clear, 0, []⟩ = .next ⟨.lhs, [ch ' ', ch ':', ch ' ', ch 'b',
        ch '\n'], Production.empty.clear.startLhs 0x61, 0, []⟩ := rfl
  have h₃ : parseStep sampleEnv ⟨.lhs, [ch ' ', ch ':', ch ' ', ch 'b', ch '\n'],
      Production.empty.clear.startLhs 0x61, 0, []⟩ = .next ⟨.rhs, [ch ' ', ch 'b', ch '\n'],
        Production.empty.clear.startLhs 0x61, 0, []⟩ := rfl
  have h : Reach sampleEnv _ _ := .next (.next (.next .refl h₁) h₂) h₃
  ⟨h, parse_dead_warnings h⟩

/-- The table `xkb_compose_new_from_buffer` builds from a buffer that parses: it is well formed,
and its keys are those of the reference insertion of the productions in order. -/
theorem newFromBuffer_wf {env : Env} {nest : Nat} {buffer : List UInt8} {ps : List Production}
    (h : parseString env nest buffer = some (true, ps)) :
    ∃ c, newFromBuffer env nest buffer formatTextV1 0 = some (some c) ∧ c.Wf ∧
      ∀ s, c.lookup s = (refBuild ps).get s := by
  obtain ⟨hw, hu, hr⟩ := Compose.composeNew_wf
  obtain ⟨c, heq, hw', hr', hm⟩ :=
    Compose.foldlM_addProduction_spec ps _ [] (parse_shaped h) hw hu hr .nil
  refine ⟨c, ?_, hw', hr'.lookup_eq_get hw' hm⟩
  simp [newFromBuffer, h, heq]

/-! ## Sample files -/

def bytes (s : String) : List UInt8 := s.toList.map ch

theorem newFromBuffer_wf_ae : parseString sampleEnv 1 (bytes "<a> <e> : ae\n") = some (true, [aeOnly]) ∧
    ∃ c, newFromBuffer sampleEnv 1 (bytes "<a> <e> : ae\n") formatTextV1 0 = some (some c) ∧ c.Wf ∧
      ∀ s, c.lookup s = (refBuild [aeOnly]).get s :=
  have h : parseString sampleEnv 1 (bytes "<a> <e> : ae\n") = some (true, [aeOnly]) := by decide
  ⟨h, newFromBuffer_wf h⟩

def abProduction : Production := ⟨[0x61], 0x62, [], true, false, by decide, by decide, by decide⟩

/-- The line `<a> : b c` hands over `a → b`: nothing checks what follows the right-hand keysym.
`c` is then an error of its own, one of the ten `parse` allows, and `parse` succeeds. -/
theorem parseString_trailing_token :
    parseString sampleEnv 1 (bytes "<a> : b c\n") = some (true, [abProduction]) := by decide

def selfInclude : List UInt8 := bytes "include \"a\"\n"

def selfEnv : Env := { sampleEnv with files := fun p => if p = bytes "a" then some selfInclude else none }

/-- The file that includes itself runs out of every bound on the nesting: each activation
includes it again at the depth of its own, 0, so the depth check never fires. -/
theorem parseString_self_include (nest : Nat) : parseString selfEnv nest selfInclude = none := by
  induction nest with
  | zero => rfl
  | succ nest ih =>
    show parseRun selfEnv (fun string d => parse selfEnv nest d string) 0 78
      ⟨.initial, selfInclude, .empty, 0, []⟩ = none
    have s₁ : parseStep selfEnv ⟨.initial, selfInclude, .empty, 0, []⟩ =
        .next ⟨.initialEol, selfInclude, Production.empty.clear, 0, []⟩ := rfl
    have s₂ : parseStep selfEnv ⟨.initialEol, selfInclude, Production.empty.clear, 0, []⟩ =
        .next ⟨.include, bytes " \"a\"\n", Production.empty.clear, 0, []⟩ := rfl
    have s₃ : parseStep selfEnv ⟨.include, bytes " \"a\"\n", Production.empty.clear, 0, []⟩ =
        .next ⟨.includeEol (bytes "a"), bytes "\n", Production.empty.clear, 0, []⟩ := rfl
    have s₄ : parseStep selfEnv ⟨.includeEol (bytes "a"), bytes "\n", Production.empty.clear, 0, []⟩ =
        .include (bytes "a") ⟨.initial, [], Production.empty.clear, 0, []⟩ := rfl
    have hd : doInclude selfEnv (fun string d => parse selfEnv nest d string) (bytes "a") 0 = none :=
      ih
    rw [parseRun_next s₁, parseRun_next s₂, parseRun_next s₃, parseRun_include_none s₄ hd]

end XkbCompose
