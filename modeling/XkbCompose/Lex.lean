import XkbCompose.Scanner

/-!
# XkbCompose.Lex

`lex` and `lex_include_string` of `parser.c`. Each returns a token, with the value the code
passes in `val`, and the input left after it. A string value is the scratch buffer before the
NUL the lexer appends; the parser reads it as a C string. Messages are left out.

Every `while` loop of the lexer consumes a byte or more per round, so the loops that are not
structural in the input are given as many rounds as there are bytes left.

* `lex_ok`: every token but the end of the input consumes input, and a keysym token is never
  `NoSymbol`; with `lexIncludeString_length_lt` (a path consumes its quotes at least), the
  parser's termination rests on it.
* `lex_line`: `lex` never reads past a newline, except that `END_OF_LINE` is the token of the
  first one; the parser's recovery, which skips tokens up to the end of the line, rests on it.
* `lex_string_literal`: a string literal whose body writes a byte string byte by byte, raw or
  through any of the escapes, lexes to exactly that string, and the lexer stops right after the
  closing quote.
* `lexIncludeString_path`: an include path whose body expands (`Expands`: raw bytes, `%%`, and
  `%H`, `%L`, `%S` when known) to a path lexes to exactly that path; `lexIncludeString_badPercent`:
  an escape it rejects is an error that leaves the rest of the line unread.
-/

namespace XkbCompose

/-- `enum rules_token`, with the values `lex` returns in `val`. -/
inductive Token
  | endOfFile
  | endOfLine
  | include
  | includeString (path : List UInt8)
  | lhsKeysym (keysym : Keysym)
  | colon
  | string (s : List UInt8)
  | rhsKeysym (keysym : Keysym)
  | error
  deriving DecidableEq, Repr

/-- `while (is_space(peek(s))) if (next(s) == '\n') return TOK_END_OF_LINE;`: `true` when a
newline ended the run. -/
def skipSpaces : List UInt8 → Bool × List UInt8
  | [] => (false, [])
  | b :: s => if isSpace b then (if b = ch '\n' then (true, s) else skipSpaces s) else (false, b :: s)

/-- `while (!eof(s) && !eol(s)) next(s);` -/
def skipLine : List UInt8 → List UInt8
  | [] => []
  | b :: s => if b = ch '\n' then b :: s else skipLine s

/-- The blanks and comments before a token (`skip_more_whitespace_and_comments`); `true` when a
newline ended them. The `goto` runs at most twice: after a comment the next round starts at its
newline or at the end. -/
def skipBlanks : Nat → List UInt8 → Bool × List UInt8
  | 0, s => (false, s)
  | fuel + 1, s =>
    match skipSpaces s with
    | (true, s) => (true, s)
    | (false, s) =>
      match chr (ch '#') s with
      | some s => skipBlanks fuel (skipLine s)
      | none => (false, s)

def push (cap : Nat) (buf : List UInt8) (b : UInt8) : List UInt8 := (bufAppend cap buf b).getD buf

/-- The loop of a keysym literal: `while (peek(s) != '>' && !eol(s)) buf_append(s, next(s));` -/
def keysymBody (cap : Nat) : List UInt8 → List UInt8 → List UInt8 × List UInt8
  | buf, [] => (buf, [])
  | buf, b :: s =>
    if b = ch '>' ∨ b = ch '\n' then (buf, b :: s) else keysymBody cap (push cap buf b) s

/-- The loop of a bare word: `while (is_alnum(peek(s)) || peek(s) == '_')`. -/
def identBody (cap : Nat) : List UInt8 → List UInt8 → List UInt8 × List UInt8
  | buf, [] => (buf, [])
  | buf, b :: s =>
    if isAlnum b || b == ch '_' then identBody cap (push cap buf b) s else (buf, b :: s)

/-- One round of the string literal loop: an escape or a raw byte. An unknown escape, or `\x`
with no hex digit, is dropped. -/
def stringRound (cap : Nat) (buf s : List UInt8) : List UInt8 × List UInt8 :=
  match chr (ch '\\') s with
  | some s =>
    match chr (ch '\\') s with
    | some s => (push cap buf (ch '\\'), s)
    | none =>
      match chr (ch '"') s with
      | some s => (push cap buf (ch '"'), s)
      | none =>
        match (chr (ch 'x') s).orElse fun _ => chr (ch 'X') s with
        | some s =>
          match hex s with
          | some (o, s) => (push cap buf o, s)
          | none => (buf, s)
        | none =>
          match oct s with
          | some (o, s) => (push cap buf o, s)
          | none => (buf, s)
  | none => (push cap buf (next s).1, (next s).2)

/-- The string literal loop: `while (!eof(s) && !eol(s) && peek(s) != '\"')`. -/
def stringLoop (cap : Nat) : Nat → List UInt8 → List UInt8 → List UInt8 × List UInt8
  | 0, buf, s => (buf, s)
  | fuel + 1, buf, s =>
    if eol s || peek s == ch '"' then (buf, s)
    else stringLoop cap fuel (stringRound cap buf s).1 (stringRound cap buf s).2

def includeWord : List UInt8 := [ch 'i', ch 'n', ch 'c', ch 'l', ch 'u', ch 'd', ch 'e']

/-- What `lex` does once blanks and comments are skipped: the end of the input, or the token that
starts at the next byte. -/
def lexToken (env : Env) (s : List UInt8) : Token × List UInt8 :=
  if eof s then (.endOfFile, s)
  else
    match chr (ch '<') s with
    | some s =>
      match keysymBody env.cap [] s with
      | (buf, s) =>
        match chr (ch '>') s with
        | none => (.error, s)
        | some s =>
          if (bufAppend env.cap buf 0).isNone then (.error, s)
          else if env.keysymFromName (cstr buf) = noSymbol then (.error, s)
          else (.lhsKeysym (env.keysymFromName (cstr buf)), s)
    | none =>
    match chr (ch ':') s with
    | some s => (.colon, s)
    | none =>
    match chr (ch '"') s with
    | some s =>
      match stringLoop env.cap s.length [] s with
      | (buf, s) =>
        match chr (ch '"') s with
        | none => (.error, s)
        | some s =>
          if (bufAppend env.cap buf 0).isNone then (.error, s)
          else if !env.isValidUtf8 buf then (.error, s)
          else (.string buf, s)
    | none =>
      if isAlpha (peek s) || peek s == ch '_' then
        match identBody env.cap [] s with
        | (buf, s) =>
          if (bufAppend env.cap buf 0).isNone then (.error, s)
          else if cstr buf = includeWord then (.include, s)
          else if env.keysymFromName (cstr buf) = noSymbol then (.error, s)
          else (.rhsKeysym (env.keysymFromName (cstr buf)), s)
      else (.error, skipLine s)

/-- `lex`. -/
def lex (env : Env) (s : List UInt8) : Token × List UInt8 :=
  match skipBlanks 2 s with
  | (true, s) => (.endOfLine, s)
  | (false, s) => lexToken env s

/-- One round of the path loop of `lex_include_string`: a `%` expansion or a raw byte. An
error carries the input left where it was found. -/
def includeRound (env : Env) (buf s : List UInt8) : Except (List UInt8) (List UInt8 × List UInt8) :=
  match chr (ch '%') s with
  | some s =>
    match chr (ch '%') s with
    | some s => .ok (push env.cap buf (ch '%'), s)
    | none =>
      match chr (ch 'H') s with
      | some s =>
        match env.home with
        | none => .error s
        | some home =>
          match bufAppends env.cap buf home with
          | none => .error s
          | some buf => .ok (buf, s)
      | none =>
        match chr (ch 'L') s with
        | some s =>
          match env.localeComposeFile with
          | none => .error s
          | some path =>
            match bufAppends env.cap buf path with
            | none => .error s
            | some buf => .ok (buf, s)
        | none =>
          match chr (ch 'S') s with
          | some s =>
            match bufAppends env.cap buf env.xlocaledir with
            | none => .error s
            | some buf => .ok (buf, s)
          | none => .error s
  | none => .ok (push env.cap buf (next s).1, (next s).2)

/-- The path loop of `lex_include_string`. -/
def includeLoop (env : Env) : Nat → List UInt8 → List UInt8 →
    Except (List UInt8) (List UInt8 × List UInt8)
  | 0, buf, s => .ok (buf, s)
  | fuel + 1, buf, s =>
    if eol s || peek s == ch '"' then .ok (buf, s)
    else
      match includeRound env buf s with
      | .error s => .error s
      | .ok (buf, s) => includeLoop env fuel buf s

/-- `lex_include_string`. -/
def lexIncludeString (env : Env) (s : List UInt8) : Token × List UInt8 :=
  match skipSpaces s with
  | (true, s) => (.endOfLine, s)
  | (false, s) =>
    match chr (ch '"') s with
    | none => (.error, s)
    | some s =>
      match includeLoop env s.length [] s with
      | .error s => (.error, s)
      | .ok (buf, s) =>
        match chr (ch '"') s with
        | none => (.error, s)
        | some s =>
          if (bufAppend env.cap buf 0).isNone then (.error, s) else (.includeString buf, s)

/-! ## Every token but the end consumes input -/

theorem chr_length {c : UInt8} {s s' : List UInt8} (h : chr c s = some s') : s'.length < s.length := by
  cases s with
  | nil => cases h
  | cons b t => simp only [chr] at h; split_ifs at h; cases h; simp

theorem chr_eq_some {c : UInt8} {s s' : List UInt8} : chr c s = some s' ↔ s = c :: s' := by
  cases s with
  | nil => simp [chr]
  | cons b t => simp only [chr]; split_ifs with h <;> simp [h]

theorem skipSpaces_length_le : ∀ s : List UInt8, (skipSpaces s).2.length ≤ s.length
  | [] => le_rfl
  | b :: s => by
    unfold skipSpaces
    have := skipSpaces_length_le s
    split_ifs <;> simp; omega

theorem skipSpaces_true : ∀ {s : List UInt8}, (skipSpaces s).1 = true → (skipSpaces s).2.length < s.length
  | [], h => by cases h
  | b :: s, h => by
    unfold skipSpaces at h ⊢
    split_ifs at h ⊢ <;> simp at h ⊢
    have := skipSpaces_true h; omega

theorem skipSpaces_false : ∀ {s : List UInt8}, (skipSpaces s).1 = false →
    ∀ b t, (skipSpaces s).2 = b :: t → isSpace b = false
  | [], _ => by simp [skipSpaces]
  | b :: s, h => by
    by_cases h₁ : isSpace b
    · by_cases h₂ : b = ch '\n'
      · rw [skipSpaces, if_pos h₁, if_pos h₂] at h; cases h
      · simp only [skipSpaces, h₁, h₂, if_true, if_false] at h ⊢
        exact skipSpaces_false h
    · simp only [skipSpaces, h₁, if_false, Bool.false_eq_true]
      rintro _ _ ⟨⟩; simpa using h₁

theorem skipLine_length_le : ∀ s : List UInt8, (skipLine s).length ≤ s.length
  | [] => le_rfl
  | b :: s => by
    unfold skipLine; have := skipLine_length_le s; split_ifs <;> simp; omega

theorem skipLine_eq : ∀ s : List UInt8, skipLine s = [] ∨ ∃ t, skipLine s = ch '\n' :: t
  | [] => .inl rfl
  | b :: s => by
    unfold skipLine; split_ifs with h
    · exact .inr ⟨s, h ▸ rfl⟩
    · exact skipLine_eq s

theorem skipBlanks_length_le : ∀ (n : Nat) (s : List UInt8), (skipBlanks n s).2.length ≤ s.length
  | 0, _ => le_rfl
  | n + 1, s => by
    have h₁ := skipSpaces_length_le s
    rcases hs : skipSpaces s with ⟨_ | _, s₁⟩ <;> simp only [skipBlanks, hs] at h₁ ⊢
    · rcases hc : chr (ch '#') s₁ with _ | s₂ <;> simp only
      · exact h₁
      · have := skipBlanks_length_le n (skipLine s₂)
        have := skipLine_length_le s₂
        have := chr_length hc
        omega
    · exact h₁

theorem skipBlanks_true : ∀ {n : Nat} {s : List UInt8}, (skipBlanks n s).1 = true →
    (skipBlanks n s).2.length < s.length
  | 0, _, h => by cases h
  | n + 1, s, h => by
    have h₁ := skipSpaces_length_le s
    have h₂ := skipSpaces_true (s := s)
    rcases hs : skipSpaces s with ⟨_ | _, s₁⟩ <;> simp only [skipBlanks, hs] at h h₁ h₂ ⊢
    · rcases hc : chr (ch '#') s₁ with _ | s₂ <;> simp only [hc] at h ⊢
      · cases h
      · have := skipBlanks_true h
        have := skipLine_length_le s₂
        have := chr_length hc
        omega
    · exact h₂ trivial

theorem skipBlanks_two_false {s : List UInt8} (h : (skipBlanks 2 s).1 = false) :
    ∀ b t, (skipBlanks 2 s).2 = b :: t → isSpace b = false := by
  have h₁ := skipSpaces_false (s := s)
  rcases hs : skipSpaces s with ⟨_ | _, s₁⟩ <;> simp only [skipBlanks, hs] at h h₁ ⊢
  · rcases hc : chr (ch '#') s₁ with _ | s₂ <;> simp only [hc] at h ⊢
    · exact h₁ trivial
    · rcases skipLine_eq s₂ with hl | ⟨t, hl⟩ <;> rw [hl] at h ⊢
      · simp [skipBlanks, skipSpaces, chr]
      · simp [skipBlanks, skipSpaces, show isSpace (ch '\n') = true by decide] at h
  · cases h

theorem octLoop_length_le : ∀ (i : Nat) (out : UInt8) (s : List UInt8),
    (octLoop i out s).2.2.length ≤ s.length
  | _, _, [] => le_rfl
  | i, out, b :: s => by
    unfold octLoop; have := octLoop_length_le (i + 1) (out * 8 + (b - ch '0')) s
    split_ifs <;> simp; omega

theorem hexLoop_length_le : ∀ (i : Nat) (out : UInt8) (s : List UInt8),
    (hexLoop i out s).2.2.length ≤ s.length
  | _, _, [] => le_rfl
  | i, out, b :: s => by
    unfold hexLoop; have := hexLoop_length_le (i + 1) (out * 16 + hexDigit b) s
    split_ifs <;> simp; omega

theorem oct_length_le {s s' : List UInt8} {o : UInt8} (h : oct s = some (o, s')) :
    s'.length ≤ s.length := by
  have := octLoop_length_le 0 0 s
  rcases hl : octLoop 0 0 s with ⟨i, out, s''⟩
  simp only [oct, hl] at h this; split_ifs at h; cases h; exact this

theorem hex_length_le {s s' : List UInt8} {o : UInt8} (h : hex s = some (o, s')) :
    s'.length ≤ s.length := by
  have := hexLoop_length_le 0 0 s
  rcases hl : hexLoop 0 0 s with ⟨i, out, s''⟩
  simp only [hex, hl] at h this; split_ifs at h; cases h; exact this

theorem next_length_le (s : List UInt8) : (next s).2.length ≤ s.length := by
  cases s <;> simp [next]

theorem stringRound_length_le (cap : Nat) (buf s : List UInt8) :
    (stringRound cap buf s).2.length ≤ s.length := by
  unfold stringRound
  rcases h₁ : chr (ch '\\') s with _ | s₁
  · exact next_length_le s
  have l₁ := chr_length h₁
  rcases h₂ : chr (ch '\\') s₁ with _ | s₂
  · rcases h₃ : chr (ch '"') s₁ with _ | s₃
    · rcases h₄ : (chr (ch 'x') s₁).orElse fun _ => chr (ch 'X') s₁ with _ | s₄
      · rcases h₅ : oct s₁ with _ | ⟨o, s₅⟩
        · simp only [h₂, h₃, h₄, h₅]; omega
        · have := oct_length_le h₅; simp only [h₂, h₃, h₄, h₅]; omega
      · have l₄ : s₄.length < s₁.length := by
          cases h : chr (ch 'x') s₁ <;> rw [h] at h₄ <;> simp [Option.orElse] at h₄
          · exact chr_length h₄
          · exact h₄ ▸ chr_length h
        rcases h₅ : hex s₄ with _ | ⟨o, s₅⟩
        · simp only [h₂, h₃, h₄, h₅]; omega
        · have := hex_length_le h₅; simp only [h₂, h₃, h₄, h₅]; omega
    · have := chr_length h₃; simp only [h₂, h₃]; omega
  · have := chr_length h₂; simp only [h₂]; omega

theorem stringLoop_length_le (cap : Nat) :
    ∀ (fuel : Nat) (buf s : List UInt8), (stringLoop cap fuel buf s).2.length ≤ s.length
  | 0, _, _ => le_rfl
  | fuel + 1, buf, s => by
    unfold stringLoop
    have := stringRound_length_le cap buf s
    have := stringLoop_length_le cap fuel (stringRound cap buf s).1 (stringRound cap buf s).2
    split_ifs
    · exact le_rfl
    · omega

theorem keysymBody_length_le (cap : Nat) :
    ∀ (buf s : List UInt8), (keysymBody cap buf s).2.length ≤ s.length
  | _, [] => le_rfl
  | buf, b :: s => by
    unfold keysymBody; have := keysymBody_length_le cap (push cap buf b) s
    split_ifs <;> simp; omega

theorem identBody_length_le (cap : Nat) :
    ∀ (buf s : List UInt8), (identBody cap buf s).2.length ≤ s.length
  | _, [] => le_rfl
  | buf, b :: s => by
    unfold identBody; have := identBody_length_le cap (push cap buf b) s
    split_ifs <;> simp; omega

theorem identBody_cons_length_le (cap : Nat) {b : UInt8} (hb : isAlnum b || b == ch '_')
    (buf t : List UInt8) : (identBody cap buf (b :: t)).2.length ≤ t.length := by
  rw [identBody, if_pos hb]; exact identBody_length_le cap _ t

/-- What `lex` guarantees of a token `r` it reads from `s`: it consumed no more than `s`, it
consumed input unless it is the end of the input, and a keysym it carries is not `NoSymbol`. -/
structure TokenOk (s : List UInt8) (r : Token × List UInt8) : Prop where
  length_le : r.2.length ≤ s.length
  length_lt : r.1 ≠ .endOfFile → r.2.length < s.length
  lhs_ne : ∀ k, r.1 = .lhsKeysym k → k ≠ noSymbol
  rhs_ne : ∀ k, r.1 = .rhsKeysym k → k ≠ noSymbol

theorem TokenOk.of_lt {s : List UInt8} {r : Token × List UInt8} (h : r.2.length < s.length)
    (hl : ∀ k, r.1 = .lhsKeysym k → k ≠ noSymbol) (hr : ∀ k, r.1 = .rhsKeysym k → k ≠ noSymbol) :
    TokenOk s r :=
  ⟨h.le, fun _ => h, hl, hr⟩

theorem lexToken_ok (env : Env) {b : UInt8} {t : List UInt8} (hb : b ≠ ch '\n') :
    TokenOk (b :: t) (lexToken env (b :: t)) := by
  have leaf : ∀ {tok : Token} {s : List UInt8}, s.length ≤ t.length →
      (∀ k, tok = .lhsKeysym k → k ≠ noSymbol) → (∀ k, tok = .rhsKeysym k → k ≠ noSymbol) →
      TokenOk (b :: t) (tok, s) := fun {_ s} h hl hr =>
    .of_lt (show s.length < t.length + 1 by omega) hl hr
  simp only [lexToken, eof, List.isEmpty_cons, Bool.false_eq_true, if_false]
  rcases h₁ : chr (ch '<') (b :: t) with _ | t₁
  · rcases h₂ : chr (ch ':') (b :: t) with _ | t₂
    · rcases h₃ : chr (ch '"') (b :: t) with _ | t₃
      · -- a bare word, or an unknown byte
        simp only [peek]
        by_cases ha : (isAlpha b || b == ch '_') = true
        · have := identBody_cons_length_le env.cap
            (by simp only [isAlnum, Bool.or_eq_true] at ha ⊢; exact ha.imp_left .inl) [] t
          rw [if_pos ha]
          split_ifs <;> exact leaf this (fun _ h => nomatch h) (fun _ h => by cases h <;> assumption)
        · rw [if_neg ha, skipLine, if_neg hb]
          exact leaf (skipLine_length_le t) (fun _ h => nomatch h) (fun _ h => nomatch h)
      · -- a string literal
        have l₃ : t₃.length ≤ t.length := Nat.lt_succ_iff.1 (chr_length h₃)
        have l₄ := stringLoop_length_le env.cap t₃.length [] t₃
        rcases h₄ : stringLoop env.cap t₃.length [] t₃ with ⟨buf, t₄⟩
        rw [h₄] at l₄
        rcases h₅ : chr (ch '"') t₄ with _ | t₅ <;> simp only [h₄, h₅]
        · exact leaf (by simp only at l₄; omega) (fun _ h => nomatch h) (fun _ h => nomatch h)
        · have := chr_length h₅
          split_ifs <;> exact leaf (by simp only at l₄; omega) (fun _ h => nomatch h)
            (fun _ h => nomatch h)
    · -- a colon
      simp only [h₂]
      exact leaf (Nat.lt_succ_iff.1 (chr_length h₂)) (fun _ h => nomatch h) (fun _ h => nomatch h)
  · -- a keysym literal
    have l₁ : t₁.length ≤ t.length := Nat.lt_succ_iff.1 (chr_length h₁)
    have l₂ := keysymBody_length_le env.cap [] t₁
    rcases h₂ : keysymBody env.cap [] t₁ with ⟨buf, t₂⟩
    rw [h₂] at l₂
    rcases h₃ : chr (ch '>') t₂ with _ | t₃ <;> simp only [h₂, h₃]
    · exact leaf (by simp only at l₂; omega) (fun _ h => nomatch h) (fun _ h => nomatch h)
    · have := chr_length h₃
      split_ifs <;> exact leaf (by simp only at l₂; omega) (fun _ h => by cases h <;> assumption)
        (fun _ h => nomatch h)

/-- Every token `lex` returns satisfies `TokenOk`: the blanks before it consume input when a
newline ends them, and otherwise end at the end of the input or at a byte that is not a blank. -/
theorem lex_ok (env : Env) (s : List UInt8) : TokenOk s (lex env s) := by
  have l₁ := skipBlanks_length_le 2 s
  have h₁ := @skipBlanks_true 2 s
  have h₂ := @skipBlanks_two_false s
  rcases hb : skipBlanks 2 s with ⟨_ | _, _ | ⟨b, t⟩⟩ <;> simp only [lex, hb] at l₁ h₁ h₂ ⊢
  · exact ⟨l₁, fun h => absurd rfl h, (fun _ h => nomatch h), fun _ h => nomatch h⟩
  · have hb : b ≠ ch '\n' := fun h => by
      simpa [h, show isSpace (ch '\n') = true by decide] using h₂ trivial b t rfl
    have := lexToken_ok env (t := t) hb
    exact ⟨this.length_le.trans l₁, fun h => (this.length_lt h).trans_le l₁, this.lhs_ne,
      this.rhs_ne⟩
  · exact .of_lt (h₁ trivial) (fun _ h => nomatch h) (fun _ h => nomatch h)
  · exact .of_lt (h₁ trivial) (fun _ h => nomatch h) (fun _ h => nomatch h)

theorem includeRound_ok_length {env : Env} {buf s buf' s' : List UInt8}
    (h : includeRound env buf s = .ok (buf', s')) : s'.length ≤ s.length := by
  unfold includeRound at h
  repeat' split at h
  all_goals cases h
  all_goals first
    | exact next_length_le s
    | (simp_all only [chr_eq_some, List.length_cons]; omega)

theorem includeRound_error_length {env : Env} {buf s s' : List UInt8}
    (h : includeRound env buf s = .error s') : s'.length ≤ s.length := by
  unfold includeRound at h
  repeat' split at h
  all_goals cases h
  all_goals simp_all only [chr_eq_some, List.length_cons]; omega

theorem includeLoop_ok_length {env : Env} : ∀ {fuel : Nat} {buf s buf' s' : List UInt8},
    includeLoop env fuel buf s = .ok (buf', s') → s'.length ≤ s.length
  | 0, _, _, _, _, h => by cases h; exact le_rfl
  | fuel + 1, buf, s, buf', s', h => by
    unfold includeLoop at h
    split_ifs at h
    · cases h; exact le_rfl
    · split at h
      · cases h
      · exact (includeLoop_ok_length h).trans (includeRound_ok_length ‹_›)

theorem includeLoop_error_length {env : Env} : ∀ {fuel : Nat} {buf s s' : List UInt8},
    includeLoop env fuel buf s = .error s' → s'.length ≤ s.length
  | 0, _, _, _, h => by cases h
  | fuel + 1, buf, s, s', h => by
    unfold includeLoop at h
    split_ifs at h
    split at h
    · cases h; exact includeRound_error_length ‹_›
    · exact (includeLoop_error_length h).trans (includeRound_ok_length ‹_›)

theorem lexIncludeString_length_le (env : Env) (s : List UInt8) :
    (lexIncludeString env s).2.length ≤ s.length := by
  have l₁ := skipSpaces_length_le s
  unfold lexIncludeString
  rcases h₁ : skipSpaces s with ⟨_ | _, s₁⟩ <;> simp only [h₁] at l₁ ⊢
  · rcases h₂ : chr (ch '"') s₁ with _ | s₂ <;> simp only
    · exact l₁
    · have l₂ := chr_length h₂
      rcases h₃ : includeLoop env s₂.length [] s₂ with s₃ | ⟨buf, s₃⟩ <;> simp only
      · have := includeLoop_error_length h₃; omega
      · have := includeLoop_ok_length h₃
        rcases h₄ : chr (ch '"') s₃ with _ | s₄ <;> simp only
        · omega
        · have := chr_length h₄; split_ifs <;> simp only <;> omega
  · exact l₁

theorem lexIncludeString_length_lt {env : Env} {s path : List UInt8}
    (h : (lexIncludeString env s).1 = .includeString path) :
    (lexIncludeString env s).2.length < s.length := by
  have l₁ := skipSpaces_length_le s
  unfold lexIncludeString at h ⊢
  rcases h₁ : skipSpaces s with ⟨_ | _, s₁⟩ <;> simp only [h₁] at l₁ h ⊢
  · rcases h₂ : chr (ch '"') s₁ with _ | s₂ <;> simp only [h₂] at h ⊢
    · cases h
    · have l₂ := chr_length h₂
      rcases h₃ : includeLoop env s₂.length [] s₂ with s₃ | ⟨buf, s₃⟩ <;> simp only [h₃] at h ⊢
      · cases h
      · have := includeLoop_ok_length h₃
        rcases h₄ : chr (ch '"') s₃ with _ | s₄ <;> simp only [h₄] at h ⊢
        · cases h
        · have := chr_length h₄; split_ifs <;> simp only <;> omega
  · cases h

theorem lex_lhsKeysym_ne {env : Env} {s s' : List UInt8} {k : Keysym}
    (h : lex env s = (.lhsKeysym k, s')) : k ≠ noSymbol :=
  (lex_ok env s).lhs_ne k (by rw [h])

theorem lex_rhsKeysym_ne {env : Env} {s s' : List UInt8} {k : Keysym}
    (h : lex env s = (.rhsKeysym k, s')) : k ≠ noSymbol :=
  (lex_ok env s).rhs_ne k (by rw [h])

/-! ## The lexer stays on its line -/

/-- `s'` is what is left of `s` once bytes with no newline among them are read off its front. -/
def InLine (s s' : List UInt8) : Prop := ∃ u, s = u ++ s' ∧ ch '\n' ∉ u

/-- `s'` is what is left of `s` once its first line is read, newline included. -/
def EndsLine (s s' : List UInt8) : Prop := ∃ u, s = u ++ ch '\n' :: s' ∧ ch '\n' ∉ u

theorem InLine.refl (s : List UInt8) : InLine s s := ⟨[], rfl, List.not_mem_nil _⟩

theorem InLine.trans {s s' s'' : List UInt8} (h₁ : InLine s s') (h₂ : InLine s' s'') :
    InLine s s'' := by
  obtain ⟨u, rfl, hu⟩ := h₁
  obtain ⟨v, rfl, hv⟩ := h₂
  exact ⟨u ++ v, (List.append_assoc _ _ _).symm, by simp [hu, hv]⟩

theorem InLine.cons {b : UInt8} {s s' : List UInt8} (hb : b ≠ ch '\n') (h : InLine s s') :
    InLine (b :: s) s' := by
  obtain ⟨u, rfl, hu⟩ := h
  exact ⟨b :: u, rfl, by simp [hu, Ne.symm hb]⟩

theorem InLine.endsLine {s s' s'' : List UInt8} (h₁ : InLine s s') (h₂ : EndsLine s' s'') :
    EndsLine s s'' := by
  obtain ⟨u, rfl, hu⟩ := h₁
  obtain ⟨v, rfl, hv⟩ := h₂
  exact ⟨u ++ v, by simp, by simp [hu, hv]⟩

theorem EndsLine.cons {b : UInt8} {s s' : List UInt8} (hb : b ≠ ch '\n') (h : EndsLine s s') :
    EndsLine (b :: s) s' :=
  (InLine.refl _ |>.cons hb |>.trans (InLine.refl s)).endsLine h

theorem InLine.line {t rest s' : List UInt8} (h : InLine (t ++ ch '\n' :: rest) s')
    (ht : ch '\n' ∉ t) : ∃ t', s' = t' ++ ch '\n' :: rest ∧ ch '\n' ∉ t' := by
  obtain ⟨u, hs, hu⟩ := h
  rcases List.append_eq_append_iff.1 hs with ⟨a, rfl, ha⟩ | ⟨c, rfl, hc⟩
  · cases a with
    | nil => exact ⟨[], by simpa using ha.symm, List.not_mem_nil _⟩
    | cons x a =>
      simp only [List.cons_append, List.cons.injEq] at ha
      exact absurd (List.mem_append_right t (ha.1 ▸ List.mem_cons_self _ _)) hu
  · exact ⟨c, hc, fun h => ht (List.mem_append_right _ h)⟩

theorem EndsLine.line {t rest s' : List UInt8} (h : EndsLine (t ++ ch '\n' :: rest) s')
    (ht : ch '\n' ∉ t) : s' = rest := by
  obtain ⟨u, hs, hu⟩ := h
  rcases List.append_eq_append_iff.1 hs with ⟨a, rfl, ha⟩ | ⟨c, rfl, hc⟩
  · cases a with
    | nil => simpa using ha.symm
    | cons x a =>
      simp only [List.cons_append, List.cons.injEq] at ha
      exact absurd (List.mem_append_right t (ha.1 ▸ List.mem_cons_self _ _)) hu
  · cases c with
    | nil => simpa using hc
    | cons x c =>
      simp only [List.cons_append, List.cons.injEq] at hc
      exact absurd (List.mem_append_right u (hc.1 ▸ List.mem_cons_self _ _)) ht

theorem chr_inLine {c : UInt8} (hc : c ≠ ch '\n') {s s' : List UInt8} (h : chr c s = some s') :
    InLine s s' := by
  obtain rfl := chr_eq_some.1 h
  exact (InLine.refl s').cons hc

theorem skipLine_inLine : ∀ s : List UInt8, InLine s (skipLine s)
  | [] => .refl []
  | b :: s => by
    unfold skipLine
    split_ifs with hb
    · exact .refl _
    · exact (skipLine_inLine s).cons hb

theorem keysymBody_inLine (cap : Nat) : ∀ buf s : List UInt8, InLine s (keysymBody cap buf s).2
  | _, [] => .refl []
  | buf, b :: s => by
    unfold keysymBody
    split_ifs with hb
    · exact .refl _
    · exact (keysymBody_inLine cap _ s).cons fun h => hb (.inr h)

theorem identBody_inLine (cap : Nat) : ∀ buf s : List UInt8, InLine s (identBody cap buf s).2
  | _, [] => .refl []
  | buf, b :: s => by
    unfold identBody
    split_ifs with hb
    · exact (identBody_inLine cap _ s).cons fun h => absurd (h ▸ hb) (by decide)
    · exact .refl _

theorem octLoop_inLine : ∀ (i : Nat) (out : UInt8) (s : List UInt8), InLine s (octLoop i out s).2.2
  | _, _, [] => .refl []
  | i, out, b :: s => by
    unfold octLoop
    split_ifs with hb
    · simp only [Bool.and_eq_true, decide_eq_true_eq] at hb
      exact (octLoop_inLine _ _ s).cons fun h => absurd (h ▸ hb.1.1) (by decide)
    · exact .refl _

theorem hexLoop_inLine : ∀ (i : Nat) (out : UInt8) (s : List UInt8), InLine s (hexLoop i out s).2.2
  | _, _, [] => .refl []
  | i, out, b :: s => by
    unfold hexLoop
    split_ifs with hb
    · simp only [Bool.and_eq_true, decide_eq_true_eq] at hb
      exact (hexLoop_inLine _ _ s).cons fun h => absurd (h ▸ hb.1) (by decide)
    · exact .refl _

theorem oct_inLine {s s' : List UInt8} {o : UInt8} (h : oct s = some (o, s')) : InLine s s' := by
  have := octLoop_inLine 0 0 s
  unfold oct at h
  split at h
  split_ifs at h
  cases h
  simp_all

theorem hex_inLine {s s' : List UInt8} {o : UInt8} (h : hex s = some (o, s')) : InLine s s' := by
  have := hexLoop_inLine 0 0 s
  unfold hex at h
  split at h
  split_ifs at h
  cases h
  simp_all

theorem stringRound_inLine (cap : Nat) (buf : List UInt8) {b : UInt8} (hb : b ≠ ch '\n')
    (t : List UInt8) : InLine (b :: t) (stringRound cap buf (b :: t)).2 := by
  unfold stringRound
  rcases h₁ : chr (ch '\\') (b :: t) with _ | t₁
  · exact (InLine.refl t).cons hb
  obtain ⟨rfl, rfl⟩ : b = ch '\\' ∧ t = t₁ := by simpa [chr, eq_comm] using h₁
  refine InLine.cons hb ?_
  rcases h₂ : chr (ch '\\') t with _ | t₂ <;> simp only [h₂]
  · rcases h₃ : chr (ch '"') t with _ | t₃ <;> simp only [h₃]
    · rcases h₄ : (chr (ch 'x') t).orElse fun _ => chr (ch 'X') t with _ | t₄ <;> simp only [h₄]
      · rcases h₅ : oct t with _ | ⟨o, t₅⟩ <;> simp only [h₅]
        · exact .refl t
        · exact oct_inLine h₅
      · have l₄ : InLine t t₄ := by
          rcases h : chr (ch 'x') t with _ | t'
          · rw [h] at h₄; exact chr_inLine (by decide : ch 'X' ≠ ch '\n') h₄
          · rw [h] at h₄; cases h₄; exact chr_inLine (by decide : ch 'x' ≠ ch '\n') h
        rcases h₅ : hex t₄ with _ | ⟨o, t₅⟩ <;> simp only [h₅]
        · exact l₄
        · exact l₄.trans (hex_inLine h₅)
    · exact chr_inLine (by decide) h₃
  · exact chr_inLine (by decide) h₂

theorem stringLoop_inLine (cap : Nat) :
    ∀ (fuel : Nat) (buf s : List UInt8), InLine s (stringLoop cap fuel buf s).2
  | 0, _, s => .refl s
  | fuel + 1, buf, s => by
    unfold stringLoop
    split_ifs with h
    · exact .refl s
    · obtain _ | ⟨b, t⟩ := s
      · simp [eol, eof] at h
      have hb : b ≠ ch '\n' := by simp_all [eol, eof, peek]
      exact (stringRound_inLine cap buf hb t).trans (stringLoop_inLine cap fuel _ _)

/-- What a token read from `s` leaves: it is not the end of a line, no newline was read, and at
the end of the input nothing is left. -/
structure InLineToken (s : List UInt8) (r : Token × List UInt8) : Prop where
  ne_endOfLine : r.1 ≠ .endOfLine
  inLine : InLine s r.2
  endOfFile : r.1 = .endOfFile → r.2 = []

theorem InLineToken.of {s s' : List UInt8} {tok : Token} (h₁ : tok ≠ .endOfLine)
    (h₂ : tok ≠ .endOfFile) (h : InLine s s') : InLineToken s (tok, s') :=
  ⟨h₁, h, fun h' => absurd h' h₂⟩

theorem lexToken_line (env : Env) (s : List UInt8) : InLineToken s (lexToken env s) := by
  unfold lexToken
  by_cases he : eof s
  · rw [if_pos he]; exact ⟨nofun, .refl s, fun _ => by simpa [eof] using he⟩
  rw [if_neg he]
  rcases h₁ : chr (ch '<') s with _ | s₁
  · rcases h₂ : chr (ch ':') s with _ | s₂
    · rcases h₃ : chr (ch '"') s with _ | s₃
      · simp only
        split_ifs
        all_goals first
          | exact .of nofun nofun (identBody_inLine env.cap [] s)
          | exact .of nofun nofun (skipLine_inLine s)
      · have l₃ := chr_inLine (by decide) h₃
        have l₄ := stringLoop_inLine env.cap s₃.length [] s₃
        rcases h₄ : stringLoop env.cap s₃.length [] s₃ with ⟨buf, s₄⟩
        rw [h₄] at l₄
        rcases h₅ : chr (ch '"') s₄ with _ | s₅ <;> simp only [h₄, h₅]
        · exact .of nofun nofun (l₃.trans l₄)
        · have l₅ := chr_inLine (by decide) h₅
          split_ifs <;> exact .of nofun nofun (l₃.trans (l₄.trans l₅))
    · simp only
      exact .of nofun nofun (chr_inLine (by decide) h₂)
  · have l₁ := chr_inLine (by decide) h₁
    have l₂ := keysymBody_inLine env.cap [] s₁
    rcases h₂ : keysymBody env.cap [] s₁ with ⟨buf, s₂⟩
    rw [h₂] at l₂
    rcases h₃ : chr (ch '>') s₂ with _ | s₃ <;> simp only [h₂, h₃]
    · exact .of nofun nofun (l₁.trans l₂)
    · have l₃ := chr_inLine (by decide) h₃
      split_ifs <;> exact .of nofun nofun (l₁.trans (l₂.trans l₃))

theorem skipSpaces_line : ∀ s : List UInt8,
    ((skipSpaces s).1 = true → EndsLine s (skipSpaces s).2) ∧
      ((skipSpaces s).1 = false → InLine s (skipSpaces s).2)
  | [] => ⟨nofun, fun _ => .refl []⟩
  | b :: s => by
    unfold skipSpaces
    split_ifs with hs hn
    · exact ⟨fun _ => ⟨[], by simp [hn], List.not_mem_nil _⟩, nofun⟩
    · exact ⟨fun h => ((skipSpaces_line s).1 h).cons hn, fun h => ((skipSpaces_line s).2 h).cons hn⟩
    · exact ⟨nofun, fun _ => .refl _⟩

theorem skipBlanks_line : ∀ (n : Nat) (s : List UInt8),
    ((skipBlanks n s).1 = true → EndsLine s (skipBlanks n s).2) ∧
      ((skipBlanks n s).1 = false → InLine s (skipBlanks n s).2)
  | 0, s => ⟨nofun, fun _ => .refl s⟩
  | n + 1, s => by
    have l₁ := skipSpaces_line s
    unfold skipBlanks
    rcases h₁ : skipSpaces s with ⟨_ | _, s₁⟩ <;> rw [h₁] at l₁ <;> simp only
    · rcases h₂ : chr (ch '#') s₁ with _ | s₂ <;> simp only
      · exact ⟨nofun, fun _ => l₁.2 rfl⟩
      · have l₂ := (l₁.2 rfl).trans ((chr_inLine (by decide) h₂).trans (skipLine_inLine s₂))
        have ih := skipBlanks_line n (skipLine s₂)
        exact ⟨fun h => l₂.endsLine (ih.1 h), fun h => l₂.trans (ih.2 h)⟩
    · exact ⟨fun _ => l₁.1 rfl, nofun⟩

/-- `lex` never reads past a newline, except that the end of a line is the token of its newline:
it either reads the line up to and including its newline and returns `END_OF_LINE`, or returns
another token and leaves the newline unread. -/
theorem lex_line (env : Env) (s : List UInt8) :
    (lex env s).1 = .endOfLine ∧ EndsLine s (lex env s).2 ∨ InLineToken s (lex env s) := by
  have l₁ := skipBlanks_line 2 s
  unfold lex
  rcases h₁ : skipBlanks 2 s with ⟨_ | _, s₁⟩ <;> rw [h₁] at l₁
  · have l₂ := lexToken_line env s₁
    exact .inr ⟨l₂.ne_endOfLine, (l₁.2 rfl).trans l₂.inLine, l₂.endOfFile⟩
  · exact .inl ⟨rfl, l₁.1 rfl⟩

/-! ## String literals -/

def hexValue (c : UInt8) : Nat :=
  if isDigit c then c.toNat - 48 else if ch 'a' ≤ c && c ≤ ch 'f' then c.toNat - 87
  else c.toNat - 55

/-- `e` is a literal body that writes the byte string `w` byte by byte: raw, unless the byte is a
double quote, a backslash or a newline; a backslash or a double quote after a backslash; a
backslash and exactly three octal digits; or a backslash, `x` or `X`, and exactly two hex
digits. -/
inductive Encodes : List UInt8 → List UInt8 → Prop
  | nil : Encodes [] []
  | raw {b : UInt8} {e w : List UInt8} : b ≠ ch '"' → b ≠ ch '\\' → b ≠ ch '\n' →
      Encodes e w → Encodes (b :: e) (b :: w)
  | quoted {b : UInt8} {e w : List UInt8} : b = ch '"' ∨ b = ch '\\' →
      Encodes e w → Encodes (ch '\\' :: b :: e) (b :: w)
  | octal {b d₁ d₂ d₃ : UInt8} {e w : List UInt8} :
      (∀ d ∈ [d₁, d₂, d₃], ch '0' ≤ d ∧ d ≤ ch '7') →
      (d₁.toNat - 48) * 64 + (d₂.toNat - 48) * 8 + (d₃.toNat - 48) = b.toNat →
      Encodes e w → Encodes (ch '\\' :: d₁ :: d₂ :: d₃ :: e) (b :: w)
  | hex {b x h₁ h₂ : UInt8} {e w : List UInt8} : x = ch 'x' ∨ x = ch 'X' →
      isXdigit h₁ → isXdigit h₂ → hexValue h₁ * 16 + hexValue h₂ = b.toNat →
      Encodes e w → Encodes (ch '\\' :: x :: h₁ :: h₂ :: e) (b :: w)

theorem octLoop_three (out : UInt8) (s : List UInt8) : octLoop 3 out s = (3, out, s) := by
  cases s <;> simp [octLoop]

theorem hexLoop_two (out : UInt8) (s : List UInt8) : hexLoop 2 out s = (2, out, s) := by
  cases s <;> simp [hexLoop]

theorem octLoop_digit {i : Nat} {out b : UInt8} (h : ch '0' ≤ b ∧ b ≤ ch '7') (hi : i < 3)
    (s : List UInt8) : octLoop i out (b :: s) = octLoop (i + 1) (out * 8 + (b - ch '0')) s := by
  simp [octLoop, h.1, h.2, hi]

theorem hexLoop_digit {i : Nat} {out b : UInt8} (h : isXdigit b) (hi : i < 2)
    (s : List UInt8) : hexLoop i out (b :: s) = hexLoop (i + 1) (out * 16 + hexDigit b) s := by
  simp [hexLoop, h, hi]

theorem oct_three {b d₁ d₂ d₃ : UInt8} (hd : ∀ d ∈ [d₁, d₂, d₃], ch '0' ≤ d ∧ d ≤ ch '7')
    (hb : (d₁.toNat - 48) * 64 + (d₂.toNat - 48) * 8 + (d₃.toNat - 48) = b.toNat)
    (s : List UInt8) : oct (d₁ :: d₂ :: d₃ :: s) = some (b, s) := by
  simp only [List.mem_cons, List.mem_singleton, List.not_mem_nil, or_false, forall_eq_or_imp,
    forall_eq] at hd
  obtain ⟨h₁, h₂, h₃⟩ := hd
  rw [oct, octLoop_digit h₁ (by decide), octLoop_digit h₂ (by decide),
    octLoop_digit h₃ (by decide), octLoop_three]
  simp only [if_pos (show 0 + 1 + 1 + 1 > 0 by decide), Option.some.injEq, Prod.mk.injEq,
    and_true, uint8_eq_iff, uint8_toNat_add, uint8_toNat_mul, UInt8.toNat_sub_of_le _ _ h₁.1,
    UInt8.toNat_sub_of_le _ _ h₂.1, UInt8.toNat_sub_of_le _ _ h₃.1]
  have := h₁.2; have := h₂.2; have := h₃.2; have : b.toNat < 256 := UInt8.toNat_lt_size b
  simp only [uint8_le_iff, show (ch '0').toNat = 48 from rfl, show (ch '7').toNat = 55 from rfl,
    show (8 : UInt8).toNat = 8 from rfl, show (0 : UInt8).toNat = 0 from rfl] at *
  omega

theorem hexDigit_toNat {c : UInt8} (h : isXdigit c) : (hexDigit c).toNat = hexValue c := by
  have h0 : (ch '0').toNat = 48 := rfl
  have h9 : (ch '9').toNat = 57 := rfl
  have ha : (ch 'a' - 10).toNat = 87 := rfl
  have hA : (ch 'A' - 10).toNat = 55 := rfl
  have ha' : (ch 'a').toNat = 97 := rfl
  have hf : (ch 'f').toNat = 102 := rfl
  have hA' : (ch 'A').toNat = 65 := rfl
  have hF : (ch 'F').toNat = 70 := rfl
  simp only [isXdigit, isDigit, Bool.or_eq_true, Bool.and_eq_true, decide_eq_true_eq,
    uint8_le_iff, h0, h9, ha', hf, hA', hF] at h
  unfold hexDigit hexValue isDigit
  simp only [Bool.and_eq_true, decide_eq_true_eq, uint8_le_iff, h0, h9, ha', hf]
  split_ifs <;> rw [UInt8.toNat_sub_of_le] <;> simp only [uint8_le_iff, h0, ha, hA] <;> omega

theorem hex_two {b h₁ h₂ : UInt8} (hx₁ : isXdigit h₁) (hx₂ : isXdigit h₂)
    (hb : hexValue h₁ * 16 + hexValue h₂ = b.toNat) (s : List UInt8) :
    hex (h₁ :: h₂ :: s) = some (b, s) := by
  rw [hex, hexLoop_digit hx₁ (by decide), hexLoop_digit hx₂ (by decide), hexLoop_two]
  have : b.toNat < 256 := UInt8.toNat_lt_size b
  simp only [if_pos (show 0 + 1 + 1 > 0 by decide), Option.some.injEq, Prod.mk.injEq, and_true,
    uint8_eq_iff, uint8_toNat_add, uint8_toNat_mul, hexDigit_toNat hx₁, hexDigit_toNat hx₂,
    show (16 : UInt8).toNat = 16 from rfl, show (0 : UInt8).toNat = 0 from rfl]
  omega

theorem push_of_lt {cap : Nat} {buf : List UInt8} (h : buf.length + 1 < cap) (b : UInt8) :
    push cap buf b = buf ++ [b] := by
  simp [push, bufAppend_of_lt h]

section Round

variable {cap : Nat} {buf : List UInt8} (hc : buf.length + 1 < cap)
include hc

theorem stringRound_raw {b : UInt8} (hb : b ≠ ch '\\') (s : List UInt8) :
    stringRound cap buf (b :: s) = (buf ++ [b], s) := by
  simp [stringRound, chr_cons_ne hb, next, push_of_lt hc]

theorem stringRound_quoted {b : UInt8} (hb : b = ch '"' ∨ b = ch '\\') (s : List UInt8) :
    stringRound cap buf (ch '\\' :: b :: s) = (buf ++ [b], s) := by
  rcases hb with rfl | rfl
  · simp [stringRound, chr_cons_ne (show ch '"' ≠ ch '\\' by decide), push_of_lt hc]
  · simp [stringRound, push_of_lt hc]

theorem stringRound_octal {b d₁ d₂ d₃ : UInt8} (hd : ∀ d ∈ [d₁, d₂, d₃], ch '0' ≤ d ∧ d ≤ ch '7')
    (hb : (d₁.toNat - 48) * 64 + (d₂.toNat - 48) * 8 + (d₃.toNat - 48) = b.toNat)
    (s : List UInt8) :
    stringRound cap buf (ch '\\' :: d₁ :: d₂ :: d₃ :: s) = (buf ++ [b], s) := by
  have h₁ := hd d₁ (by simp)
  have hne : ∀ c : UInt8, c.toNat < 48 ∨ 55 < c.toNat → d₁ ≠ c := fun c hc h => by
    have := congrArg UInt8.toNat h
    have := h₁.1; have := h₁.2
    simp only [uint8_le_iff, show (ch '0').toNat = 48 from rfl,
      show (ch '7').toNat = 55 from rfl] at *
    omega
  simp only [stringRound, chr_cons_self, chr_cons_ne (hne (ch '\\') (by decide)),
    chr_cons_ne (hne (ch '"') (by decide)), chr_cons_ne (hne (ch 'x') (by decide)),
    chr_cons_ne (hne (ch 'X') (by decide)), Option.orElse, oct_three hd hb, push_of_lt hc]

theorem stringRound_hex {b x h₁ h₂ : UInt8} (hx : x = ch 'x' ∨ x = ch 'X') (hx₁ : isXdigit h₁)
    (hx₂ : isXdigit h₂) (hb : hexValue h₁ * 16 + hexValue h₂ = b.toNat) (s : List UInt8) :
    stringRound cap buf (ch '\\' :: x :: h₁ :: h₂ :: s) = (buf ++ [b], s) := by
  rcases hx with rfl | rfl <;>
    simp only [stringRound, chr_cons_self, chr_cons_ne (show ch 'x' ≠ ch '\\' by decide),
      chr_cons_ne (show ch 'x' ≠ ch '"' by decide), chr_cons_ne (show ch 'X' ≠ ch '\\' by decide),
      chr_cons_ne (show ch 'X' ≠ ch '"' by decide), chr_cons_ne (show ch 'X' ≠ ch 'x' by decide),
      Option.orElse, hex_two hx₁ hx₂ hb, push_of_lt hc]

end Round

theorem stringLoop_succ {cap fuel : Nat} {buf s : List UInt8} {x : UInt8} (hx : x ≠ ch '\n')
    (hq : x ≠ ch '"') : stringLoop cap (fuel + 1) buf (x :: s) =
      stringLoop cap fuel (stringRound cap buf (x :: s)).1 (stringRound cap buf (x :: s)).2 := by
  simp [stringLoop, eol, eof, peek, hx, hq]

theorem stringLoop_of_round {cap : Nat} {x b : UInt8} {t e w rest : List UInt8}
    (hx : x ≠ ch '\n') (hq : x ≠ ch '"') (ht : e.length ≤ t.length)
    (hr : ∀ buf : List UInt8, buf.length + 1 < cap →
      stringRound cap buf (x :: (t ++ ch '"' :: rest)) = (buf ++ [b], e ++ ch '"' :: rest))
    (ih : ∀ buf fuel, e.length < fuel → buf.length + w.length < cap →
      stringLoop cap fuel buf (e ++ ch '"' :: rest) = (buf ++ w, ch '"' :: rest))
    (buf : List UInt8) (fuel : Nat) (hf : (x :: t).length < fuel)
    (hc : buf.length + (b :: w).length < cap) :
    stringLoop cap fuel buf ((x :: t) ++ ch '"' :: rest) = (buf ++ b :: w, ch '"' :: rest) := by
  simp only [List.length_cons] at hf hc
  obtain ⟨f, rfl⟩ : ∃ f, fuel = f + 1 := ⟨fuel - 1, by omega⟩
  rw [List.cons_append, stringLoop_succ hx hq, hr buf (by omega)]
  simpa using ih (buf ++ [b]) f (by omega) (by simp; omega)

/-- The string literal loop over a body that encodes \w stops at the closing quote with \w
added to the buffer, given a round per byte of the body and room for \w. -/
theorem stringLoop_encodes {cap : Nat} {e w : List UInt8} (he : Encodes e w) (rest : List UInt8) :
    ∀ buf fuel, e.length < fuel → buf.length + w.length < cap →
      stringLoop cap fuel buf (e ++ ch '"' :: rest) = (buf ++ w, ch '"' :: rest) := by
  induction he with
  | nil =>
    intro buf fuel hf _
    obtain ⟨f, rfl⟩ : ∃ f, fuel = f + 1 := ⟨fuel - 1, by simp at hf; omega⟩
    simp [stringLoop, eol, eof, peek]
  | raw hq hb hn _ ih =>
    exact stringLoop_of_round hn hq le_rfl (fun _ hc => stringRound_raw hc hb _) ih
  | quoted hb _ ih =>
    exact stringLoop_of_round (by decide) (by decide) (by simp)
      (fun _ hc => stringRound_quoted hc hb _) ih
  | octal hd hb _ ih =>
    exact stringLoop_of_round (by decide) (by decide) (by simp; omega)
      (fun _ hc => stringRound_octal hc hd hb _) ih
  | hex hx hx₁ hx₂ hb _ ih =>
    exact stringLoop_of_round (by decide) (by decide) (by simp; omega)
      (fun _ hc => stringRound_hex hc hx hx₁ hx₂ hb _) ih

theorem skipBlanks_cons {n : Nat} {b : UInt8} (hs : isSpace b = false) (hc : b ≠ ch '#')
    (s : List UInt8) : skipBlanks (n + 1) (b :: s) = (false, b :: s) := by
  simp [skipBlanks, skipSpaces, hs, chr_cons_ne hc]

/-! ## The tokens of a production line -/

/-- At a quote, `lexToken` reads a string literal whose body encodes \w to the string \w, and
stops right after the closing quote, when the scratch buffer has room for \w and its NUL. -/
theorem lexToken_string_literal (env : Env) {e w : List UInt8} (hcap : w.length + 1 < env.cap)
    (hutf : env.isValidUtf8 w) (he : Encodes e w) (rest : List UInt8) :
    lexToken env (ch '"' :: (e ++ ch '"' :: rest)) = (.string w, rest) := by
  have hloop : stringLoop env.cap (e ++ ch '"' :: rest).length [] (e ++ ch '"' :: rest) =
      (w, ch '"' :: rest) := by
    simpa using stringLoop_encodes he rest [] _ (by simp) (by simp; omega)
  simp only [lexToken, eof, List.isEmpty_cons, chr_cons_ne (show ch '"' ≠ ch '<' by decide),
    chr_cons_ne (show ch '"' ≠ ch ':' by decide), chr_cons_self, List.length_cons, hloop]
  simp [bufAppend, hutf]
  omega

theorem skipBlanks_space (n : Nat) (s : List UInt8) :
    skipBlanks (n + 1) (ch ' ' :: s) = skipBlanks (n + 1) s := by
  rw [skipBlanks, skipBlanks, skipSpaces, if_pos (by decide : isSpace (ch ' ') = true),
    if_neg (by decide : ch ' ' ≠ ch '\n')]

theorem lex_space (env : Env) (s : List UInt8) : lex env (ch ' ' :: s) = lex env s := by
  rw [lex, lex, skipBlanks_space]

theorem lex_newline (env : Env) (s : List UInt8) : lex env (ch '\n' :: s) = (.endOfLine, s) := by
  rw [lex, skipBlanks, skipSpaces, if_pos (by decide : isSpace (ch '\n') = true), if_pos rfl]

theorem lex_nil (env : Env) : lex env [] = (.endOfFile, []) := rfl

theorem lex_colon (env : Env) (s : List UInt8) : lex env (ch ':' :: s) = (.colon, s) := by
  rw [lex, skipBlanks_cons (by decide) (by decide)]
  simp only [lexToken, eof, List.isEmpty_cons, chr_cons_ne (show ch ':' ≠ ch '<' by decide),
    chr_cons_self]
  rfl

theorem keysymBody_name {cap : Nat} {s : List UInt8} : ∀ {n : List UInt8} (buf : List UInt8),
    (∀ b ∈ n, b ≠ ch '>' ∧ b ≠ ch '\n') → buf.length + n.length < cap →
      keysymBody cap buf (n ++ ch '>' :: s) = (buf ++ n, ch '>' :: s)
  | [], buf, _, _ => by simp [keysymBody]
  | b :: n, buf, hn, hc => by
    have hb := hn b (.head _)
    simp only [List.length_cons] at hc
    simp only [List.cons_append, keysymBody, hb.1, hb.2, or_self, if_false, List.append_eq,
      push_of_lt (show buf.length + 1 < cap by omega)]
    rw [keysymBody_name (buf ++ [b]) (fun c hc' => hn c (.tail _ hc')) (by simp; omega)]
    simp

theorem lex_angle (env : Env) {n : List UInt8} (hn : ∀ b ∈ n, b ≠ ch '>' ∧ b ≠ ch '\n')
    (hcap : n.length + 1 < env.cap) (s : List UInt8) :
    lex env (ch '<' :: (n ++ ch '>' :: s)) =
      (if env.keysymFromName (cstr n) = noSymbol then .error
        else .lhsKeysym (env.keysymFromName (cstr n)), s) := by
  rw [lex, skipBlanks_cons (by decide) (by decide)]
  simp only [lexToken, eof, List.isEmpty_cons, chr_cons_self,
    keysymBody_name (s := s) [] hn (by simp; omega : [].length + n.length < env.cap),
    List.nil_append, bufAppend_of_lt hcap, Option.isNone_some, Bool.false_eq_true, if_false]
  split_ifs <;> rfl

theorem lex_keysym_literal (env : Env) {n : List UInt8} (hn : ∀ b ∈ n, b ≠ ch '>' ∧ b ≠ ch '\n')
    (h0 : 0 ∉ n) (hcap : n.length + 1 < env.cap) (hk : env.keysymFromName n ≠ noSymbol)
    (s : List UInt8) :
    lex env (ch '<' :: (n ++ ch '>' :: s)) = (.lhsKeysym (env.keysymFromName n), s) := by
  rw [lex_angle env hn hcap, cstr_eq_self h0, if_neg hk]

/-- A bare word, as `lex` reads a right-hand keysym: a letter or `_`, then letters, digits and
`_`. -/
def isWord : List UInt8 → Bool
  | [] => false
  | b :: t => (isAlpha b || b == ch '_') && t.all fun c => isAlnum c || c == ch '_'

theorem identBody_word {cap : Nat} {t : UInt8} (ht : (isAlnum t || t == ch '_') = false)
    {s : List UInt8} : ∀ {n : List UInt8} (buf : List UInt8),
      (∀ c ∈ n, (isAlnum c || c == ch '_') = true) → buf.length + n.length < cap →
        identBody cap buf (n ++ t :: s) = (buf ++ n, t :: s)
  | [], buf, _, _ => by simp [identBody, ht]
  | c :: n, buf, hn, hc => by
    simp only [List.length_cons] at hc
    simp only [List.cons_append, identBody, hn c (.head _), if_true, List.append_eq,
      push_of_lt (show buf.length + 1 < cap by omega)]
    rw [identBody_word ht (buf ++ [c]) (fun d hd => hn d (.tail _ hd)) (by simp; omega)]
    simp

theorem word_start {b : UInt8} (hb : (isAlpha b || b == ch '_') = true) :
    isSpace b = false ∧ b ≠ ch '#' ∧ b ≠ ch '<' ∧ b ≠ ch ':' ∧ b ≠ ch '"' := by
  simp only [isAlpha, isSpace, Bool.or_eq_true, Bool.and_eq_true, decide_eq_true_eq, beq_iff_eq,
    uint8_le_iff, uint8_eq_iff, Bool.or_eq_false_iff, Bool.and_eq_false_iff, beq_eq_false_iff_ne,
    ne_eq, decide_eq_false_iff_not, show (ch 'a').toNat = 97 from rfl,
    show (ch 'z').toNat = 122 from rfl, show (ch 'A').toNat = 65 from rfl,
    show (ch 'Z').toNat = 90 from rfl, show (ch '_').toNat = 95 from rfl,
    show (ch ' ').toNat = 32 from rfl, show (ch '\t').toNat = 9 from rfl,
    show (ch '\r').toNat = 13 from rfl, show (ch '#').toNat = 35 from rfl,
    show (ch '<').toNat = 60 from rfl, show (ch ':').toNat = 58 from rfl,
    show (ch '"').toNat = 34 from rfl] at hb ⊢
  omega

theorem lex_bareWord (env : Env) {n : List UInt8} (hw : isWord n) (hcap : n.length + 1 < env.cap)
    {t : UInt8} (ht : (isAlnum t || t == ch '_') = false) (s : List UInt8) :
    lex env (n ++ t :: s) =
      (if n = includeWord then .include else if env.keysymFromName n = noSymbol then .error
        else .rhsKeysym (env.keysymFromName n), t :: s) := by
  obtain _ | ⟨b, n⟩ := n
  · cases hw
  simp only [isWord, Bool.and_eq_true, List.all_eq_true] at hw
  obtain ⟨hs, hh, hl, hc, hq⟩ := word_start hw.1
  have hall : ∀ c ∈ b :: n, (isAlnum c || c == ch '_') = true := by
    rintro c (_ | ⟨_, hc⟩)
    · simp only [isAlnum, Bool.or_eq_true] at hw ⊢; exact hw.1.imp_left .inl
    · exact hw.2 c hc
  have h0 : (0 : UInt8) ∉ b :: n := fun h => absurd (hall 0 h) (by decide)
  have hid : identBody env.cap [] (b :: (n ++ t :: s)) = (b :: n, t :: s) := by
    simpa using identBody_word ht (s := s) [] hall
      (by simp at hcap ⊢; omega : [].length + (b :: n).length < env.cap)
  rw [List.cons_append, lex, skipBlanks_cons hs hh]
  simp only [lexToken, eof, List.isEmpty_cons, chr_cons_ne hl, chr_cons_ne hc, chr_cons_ne hq,
    peek, hw.1, if_true, hid, bufAppend_of_lt hcap, Option.isNone_some, Bool.false_eq_true,
    if_false, cstr_eq_self h0]
  split_ifs <;> rfl

theorem lex_word (env : Env) {n : List UInt8} (hw : isWord n) (hi : n ≠ includeWord)
    (hcap : n.length + 1 < env.cap) (hk : env.keysymFromName n ≠ noSymbol) {t : UInt8}
    (ht : (isAlnum t || t == ch '_') = false) (s : List UInt8) :
    lex env (n ++ t :: s) = (.rhsKeysym (env.keysymFromName n), t :: s) := by
  rw [lex_bareWord env hw hcap ht, if_neg hi, if_neg hk]

theorem lex_include (env : Env) (hcap : includeWord.length + 1 < env.cap) {t : UInt8}
    (ht : (isAlnum t || t == ch '_') = false) (s : List UInt8) :
    lex env (includeWord ++ t :: s) = (.include, t :: s) := by
  rw [lex_bareWord env (by decide) hcap ht, if_pos rfl]

/-- A string literal whose body encodes \w byte by byte lexes to the string \w, and the lexer
stops right after the closing quote, when the scratch buffer has room for \w and its NUL. -/
theorem lex_string_literal (env : Env) {e w : List UInt8} (hcap : 257 ≤ env.cap)
    (hw : w.length ≤ 255) (hutf : env.isValidUtf8 w) (he : Encodes e w) (rest : List UInt8) :
    lex env (ch '"' :: (e ++ ch '"' :: rest)) = (.string w, rest) := by
  rw [lex, skipBlanks_cons (by decide) (by decide)]
  exact lexToken_string_literal env (by omega) hutf he rest

/-! ## Include paths -/

/-- `e` is the body of an include path that `lex_include_string` expands to `w`: a byte other than
`%`, a double quote and a newline stands for itself, `%%` for `%`, and `%H`, `%L` and `%S` for the
home directory, the locale's Compose file and the X locale directory, each read as a C string,
when it is known. -/
inductive Expands (env : Env) : List UInt8 → List UInt8 → Prop
  | nil : Expands env [] []
  | raw {b : UInt8} {e w : List UInt8} : b ≠ ch '%' → b ≠ ch '"' → b ≠ ch '\n' →
      Expands env e w → Expands env (b :: e) (b :: w)
  | percent {e w : List UInt8} : Expands env e w →
      Expands env (ch '%' :: ch '%' :: e) (ch '%' :: w)
  | home {h e w : List UInt8} : env.home = some h → Expands env e w →
      Expands env (ch '%' :: ch 'H' :: e) (cstr h ++ w)
  | locale {l e w : List UInt8} : env.localeComposeFile = some l → Expands env e w →
      Expands env (ch '%' :: ch 'L' :: e) (cstr l ++ w)
  | xlocaledir {e w : List UInt8} : Expands env e w →
      Expands env (ch '%' :: ch 'S' :: e) (cstr env.xlocaledir ++ w)

/-- A `%` escape `lex_include_string` rejects: `%H` or `%L` when the home directory or the
locale's Compose file is not known, or a byte after `%` that starts no escape. -/
def badPercent (env : Env) (x : UInt8) : Bool :=
  (x == ch 'H' && env.home.isNone) || (x == ch 'L' && env.localeComposeFile.isNone) ||
    !(x == ch '%' || x == ch 'H' || x == ch 'L' || x == ch 'S')

theorem bufAppends_of_lt {cap : Nat} {buf str : List UInt8}
    (h : buf.length + (cstr str).length < cap) : bufAppends cap buf str = some (buf ++ cstr str) := by
  simp [bufAppends]; omega

section IncludeRound

variable {env : Env} {buf : List UInt8}

theorem includeRound_raw {b : UInt8} (hb : b ≠ ch '%') (hc : buf.length + [b].length < env.cap)
    (s : List UInt8) : includeRound env buf (b :: s) = .ok (buf ++ [b], s) := by
  simp [includeRound, chr_cons_ne hb, next, push_of_lt hc]

theorem includeRound_percent (hc : buf.length + [ch '%'].length < env.cap) (s : List UInt8) :
    includeRound env buf (ch '%' :: ch '%' :: s) = .ok (buf ++ [ch '%'], s) := by
  simp [includeRound, push_of_lt hc]

theorem includeRound_home {h : List UInt8} (hh : env.home = some h)
    (hc : buf.length + (cstr h).length < env.cap) (s : List UInt8) :
    includeRound env buf (ch '%' :: ch 'H' :: s) = .ok (buf ++ cstr h, s) := by
  simp [includeRound, chr_cons_ne (show ch 'H' ≠ ch '%' by decide), hh, bufAppends_of_lt hc]

theorem includeRound_locale {l : List UInt8} (hl : env.localeComposeFile = some l)
    (hc : buf.length + (cstr l).length < env.cap) (s : List UInt8) :
    includeRound env buf (ch '%' :: ch 'L' :: s) = .ok (buf ++ cstr l, s) := by
  simp [includeRound, chr_cons_ne (show ch 'L' ≠ ch '%' by decide),
    chr_cons_ne (show ch 'L' ≠ ch 'H' by decide), hl, bufAppends_of_lt hc]

theorem includeRound_xlocaledir (hc : buf.length + (cstr env.xlocaledir).length < env.cap)
    (s : List UInt8) :
    includeRound env buf (ch '%' :: ch 'S' :: s) = .ok (buf ++ cstr env.xlocaledir, s) := by
  simp [includeRound, chr_cons_ne (show ch 'S' ≠ ch '%' by decide),
    chr_cons_ne (show ch 'S' ≠ ch 'H' by decide), chr_cons_ne (show ch 'S' ≠ ch 'L' by decide),
    bufAppends_of_lt hc]

theorem includeRound_badPercent {x : UInt8} (hx : badPercent env x) (s : List UInt8) :
    ∃ s', includeRound env buf (ch '%' :: x :: s) = .error s' ∧ InLine (x :: s) s' := by
  simp only [badPercent, Bool.or_eq_true, Bool.and_eq_true, beq_iff_eq, Option.isNone_iff_eq_none,
    Bool.not_eq_true', Bool.or_eq_false_iff, beq_eq_false_iff_ne, ne_eq] at hx
  rcases hx with (⟨rfl, hh⟩ | ⟨rfl, hl⟩) | ⟨⟨⟨hp, hh⟩, hl⟩, hs⟩
  · exact ⟨s, by simp [includeRound, chr_cons_ne (show ch 'H' ≠ ch '%' by decide), hh],
      (InLine.refl s).cons (by decide)⟩
  · exact ⟨s, by simp [includeRound, chr_cons_ne (show ch 'L' ≠ ch '%' by decide),
      chr_cons_ne (show ch 'L' ≠ ch 'H' by decide), hl], (InLine.refl s).cons (by decide)⟩
  · exact ⟨x :: s, by simp [includeRound, chr_cons_ne hp, chr_cons_ne hh, chr_cons_ne hl,
      chr_cons_ne hs], .refl _⟩

end IncludeRound

theorem includeRound_ok_lt {env : Env} {buf : List UInt8} {b : UInt8} {t buf' s' : List UInt8}
    (h : includeRound env buf (b :: t) = .ok (buf', s')) : s'.length < t.length + 1 := by
  unfold includeRound at h
  repeat' split at h
  all_goals cases h
  all_goals first
    | simp [next]
    | (simp_all only [chr_eq_some, List.length_cons, List.cons.injEq]; omega)

theorem includeLoop_fuel {env : Env} : ∀ {fuel fuel' : Nat} {buf s : List UInt8},
    s.length ≤ fuel → s.length ≤ fuel' → includeLoop env fuel buf s = includeLoop env fuel' buf s
  | 0, 0, _, _, _, _ => rfl
  | 0, _ + 1, _, s, h, _ => by
    obtain rfl : s = [] := List.length_eq_zero.1 (Nat.le_zero.1 h)
    simp [includeLoop, eol, eof]
  | _ + 1, 0, _, s, _, h => by
    obtain rfl : s = [] := List.length_eq_zero.1 (Nat.le_zero.1 h)
    simp [includeLoop, eol, eof]
  | fuel + 1, fuel' + 1, buf, s, h, h' => by
    unfold includeLoop
    split_ifs with he
    · rfl
    · obtain _ | ⟨b, t⟩ := s
      · simp [eol, eof] at he
      rcases hr : includeRound env buf (b :: t) with s' | ⟨buf', s'⟩
      · rfl
      · have := includeRound_ok_lt hr
        simp only [List.length_cons] at h h'
        exact includeLoop_fuel (by omega) (by omega)

theorem includeLoop_of_round {env : Env} {x : UInt8} {t e v w u : List UInt8}
    (hx : x ≠ ch '\n') (hq : x ≠ ch '"') (ht : e.length ≤ t.length)
    (hr : ∀ buf : List UInt8, buf.length + v.length < env.cap →
      includeRound env buf (x :: (t ++ u)) = .ok (buf ++ v, e ++ u))
    (ih : ∀ (buf : List UInt8) (fuel : Nat), (e ++ u).length ≤ fuel →
      buf.length + w.length < env.cap →
        includeLoop env fuel buf (e ++ u) = includeLoop env u.length (buf ++ w) u)
    (buf : List UInt8) (fuel : Nat) (hf : ((x :: t) ++ u).length ≤ fuel)
    (hc : buf.length + (v ++ w).length < env.cap) :
    includeLoop env fuel buf ((x :: t) ++ u) = includeLoop env u.length (buf ++ (v ++ w)) u := by
  simp only [List.length_cons, List.length_append] at hf hc
  obtain ⟨f, rfl⟩ : ∃ f, fuel = f + 1 := ⟨fuel - 1, by omega⟩
  rw [List.cons_append, includeLoop, if_neg (by simp [eol, eof, peek, hx, hq]), hr buf (by omega)]
  dsimp only
  rw [ih (buf ++ v) f (by simp; omega) (by simp; omega), List.append_assoc]

theorem includeLoop_append {env : Env} {e w : List UInt8} (he : Expands env e w) (u : List UInt8) :
    ∀ (buf : List UInt8) (fuel : Nat), (e ++ u).length ≤ fuel → buf.length + w.length < env.cap →
      includeLoop env fuel buf (e ++ u) = includeLoop env u.length (buf ++ w) u := by
  induction he with
  | nil => intro buf fuel hf _; simpa using includeLoop_fuel hf le_rfl
  | raw hp hq hn _ ih =>
    exact includeLoop_of_round hn hq le_rfl (fun _ hc => includeRound_raw hp hc _) ih
  | percent _ ih =>
    exact includeLoop_of_round (by decide) (by decide) (by simp)
      (fun _ hc => includeRound_percent hc _) ih
  | home hh _ ih =>
    exact includeLoop_of_round (by decide) (by decide) (by simp)
      (fun _ hc => includeRound_home hh hc _) ih
  | locale hl _ ih =>
    exact includeLoop_of_round (by decide) (by decide) (by simp)
      (fun _ hc => includeRound_locale hl hc _) ih
  | xlocaledir _ ih =>
    exact includeLoop_of_round (by decide) (by decide) (by simp)
      (fun _ hc => includeRound_xlocaledir hc _) ih

theorem skipSpaces_space_quote (s : List UInt8) :
    skipSpaces (ch ' ' :: ch '"' :: s) = (false, ch '"' :: s) := by
  rw [skipSpaces, if_pos (by decide), if_neg (by decide), skipSpaces, if_neg (by decide)]

/-- `lex_include_string` reads a quoted body that expands to `w` as the path `w`, and stops right
after the closing quote, when the scratch buffer has room for `w` and its NUL. -/
theorem lexIncludeString_path (env : Env) {e w : List UInt8} (hcap : w.length + 1 < env.cap)
    (he : Expands env e w) (rest : List UInt8) :
    lexIncludeString env (ch ' ' :: ch '"' :: (e ++ ch '"' :: rest)) = (.includeString w, rest) := by
  have hloop : includeLoop env (e ++ ch '"' :: rest).length [] (e ++ ch '"' :: rest) =
      .ok (w, ch '"' :: rest) := by
    rw [includeLoop_append he _ [] _ le_rfl (by simp; omega)]
    simp [includeLoop, eol, eof, peek]
  simp only [lexIncludeString, skipSpaces_space_quote, chr_cons_self, hloop, bufAppend_of_lt hcap,
    Option.isNone_some, Bool.false_eq_true, if_false]

theorem lexIncludeString_badPercent (env : Env) {e w : List UInt8} (hcap : w.length + 1 < env.cap)
    (he : Expands env e w) {x : UInt8} (hx : badPercent env x) (s : List UInt8) :
    ∃ s', lexIncludeString env (ch ' ' :: ch '"' :: (e ++ ch '%' :: x :: s)) = (.error, s') ∧
      InLine (x :: s) s' := by
  obtain ⟨s', hr, hs'⟩ := @includeRound_badPercent env w x hx s
  have hloop : includeLoop env (e ++ ch '%' :: x :: s).length [] (e ++ ch '%' :: x :: s) =
      .error s' := by
    rw [includeLoop_append he _ [] _ le_rfl (by simp; omega)]
    simp [includeLoop, eol, eof, peek, hr, show ch '%' ≠ ch '\n' by decide,
      show ch '%' ≠ ch '"' by decide]
  refine ⟨s', ?_, hs'⟩
  simp only [lexIncludeString, skipSpaces_space_quote, chr_cons_self, hloop]

/-! ## Include lines, comments and bad lines -/

theorem skipLine_line {t : List UInt8} (ht : ch '\n' ∉ t) (rest : List UInt8) :
    skipLine (t ++ ch '\n' :: rest) = ch '\n' :: rest := by
  induction t with
  | nil => simp [skipLine]
  | cons b t ih =>
    have hb : b ≠ ch '\n' := fun h => ht (h ▸ List.mem_cons_self _ _)
    rw [List.cons_append, skipLine, if_neg hb, ih (fun h => ht (List.mem_cons_of_mem _ h))]

theorem lex_comment (env : Env) {t : List UInt8} (ht : ch '\n' ∉ t) (rest : List UInt8) :
    lex env (ch '#' :: (t ++ ch '\n' :: rest)) = (.endOfLine, rest) := by
  rw [lex, skipBlanks, skipSpaces, if_neg (by decide)]
  simp only [chr_cons_self, skipLine_line ht]
  rw [skipBlanks, skipSpaces, if_pos (by decide), if_pos rfl]

/-- A byte that is no blank and starts no token. -/
def startsNothing (b : UInt8) : Bool :=
  !isSpace b && b != ch '#' && b != ch '<' && b != ch ':' && b != ch '"' &&
    !(isAlpha b || b == ch '_')

theorem lex_startsNothing (env : Env) {b : UInt8} (hb : startsNothing b) {t : List UInt8}
    (ht : ch '\n' ∉ t) (rest : List UInt8) :
    lex env (b :: (t ++ ch '\n' :: rest)) = (.error, ch '\n' :: rest) := by
  simp only [startsNothing, Bool.and_eq_true, Bool.not_eq_true', bne_iff_ne, ne_eq] at hb
  obtain ⟨⟨⟨⟨⟨hs, hh⟩, hl⟩, hc⟩, hq⟩, hw⟩ := hb
  have hn : b ≠ ch '\n' := fun h => absurd (h ▸ hs) (by decide)
  rw [lex, skipBlanks_cons hs hh]
  simp only [lexToken, eof, List.isEmpty_cons, chr_cons_ne hl, chr_cons_ne hc, chr_cons_ne hq, peek,
    hw, Bool.false_eq_true, if_false, skipLine, if_neg hn, skipLine_line ht]

/-! ## A sample environment -/

def utf8Short : List UInt8 → Bool
  | [] => true
  | b :: s =>
    if b < 0x80 then utf8Short s
    else
      match s with
      | c :: s => 0xc2 ≤ b && b ≤ 0xdf && 0x80 ≤ c && c < 0xc0 && utf8Short s
      | [] => false

def sampleEnv : Env where
  cap := 1024
  keysymFromName n :=
    if n = [ch 'a'] then 0x61 else if n = [ch 'b'] then 0x62 else if n = [ch 'c'] then 0x63
    else if n = [ch 'e'] then 0x65 else if n = [ch 'a', ch 'e'] then 0xe6 else noSymbol
  isValidUtf8 := utf8Short
  home := some [ch '/', ch 'h']
  localeComposeFile := none
  xlocaledir := [ch '/', ch 'x']
  files _ := none

def aeBody : List UInt8 := [ch '\\', ch 'x', ch 'c', ch '3', ch '\\', ch '2', ch '4', ch '6']

theorem aeBody_encodes : Encodes aeBody [0xc3, 0xa6] :=
  .hex (.inl rfl) (by decide) (by decide) (by decide) (.octal (by decide) (by decide) .nil)

theorem lex_string_literal_ae : 257 ≤ sampleEnv.cap ∧ [0xc3, 0xa6].length ≤ 255 ∧
    sampleEnv.isValidUtf8 [0xc3, 0xa6] ∧ Encodes aeBody [0xc3, 0xa6] ∧
    lex sampleEnv (ch '"' :: (aeBody ++ ch '"' :: [ch '\n'])) = (.string [0xc3, 0xa6], [ch '\n']) :=
  ⟨by decide, by decide, by decide, aeBody_encodes,
    lex_string_literal sampleEnv (by decide) (by decide) (by decide) aeBody_encodes _⟩

end XkbCompose
