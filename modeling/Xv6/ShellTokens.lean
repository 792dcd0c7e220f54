import Xv6.Shell

/-!
# The shell's parser on tokens

The token sequence of a line, said without pointers, and the parser over it. The parser on
characters looks at the next token only, through `peek` and `gettoken`; so it is the parser on
tokens, with a word read where its two pointers are.
-/
namespace Xv6.ShellTokens

open Words Shell

inductive Tok where
  | word (w : List Byte)
  | bar | lpar | rpar | semi | amp | lt | gt | gtgt
  deriving DecidableEq, Repr

def isWord (c : Byte) : Bool := !isSpace c && !isSymbol c

def single (c : Byte) : Option Tok :=
  if c = 0x7c then some .bar else if c = 0x28 then some .lpar else if c = 0x29 then some .rpar
  else if c = 0x3b then some .semi else if c = 0x26 then some .amp else if c = 0x3c then some .lt else none

/-- The tokens of a line: a word is as long as it can be, and so is `>>`. -/
def tokens : List Byte → List Tok
  | [] => []
  | c :: s =>
    if isSpace c then tokens s
    else match single c with
      | some t => t :: tokens s
      | none =>
        if c = 0x3e then if s.head? = some 0x3e then .gtgt :: tokens s.tail else .gt :: tokens s
        else .word (c :: s.takeWhile isWord) :: tokens (s.dropWhile isWord)
termination_by s => s.length
decreasing_by
  all_goals
    have hdrop : (s.dropWhile isWord).length ≤ s.length := (List.dropWhile_suffix _).length_le
    simp only [List.length_cons, List.length_tail]
    omega

def Tok.kind : Tok → Kind
  | .word _ => .word
  | .bar => .bar
  | .lpar => .lpar
  | .rpar => .rpar
  | .semi => .semi
  | .amp => .amp
  | .lt => .lt
  | .gt => .gt
  | .gtgt => .gtgt

def Tok.lead : Tok → Option Byte
  | .word _ => none
  | .bar => some 0x7c
  | .lpar => some 0x28
  | .rpar => some 0x29
  | .semi => some 0x3b
  | .amp => some 0x26
  | .lt => some 0x3c
  | .gt | .gtgt => some 0x3e

def text (w : Span) : List Byte := w.q.take (w.q.length - w.eq.length)

variable {s : List Byte} {t : Tok} {ts : List Tok} {c : Byte}

/-- After the spaces comes the end of the line or a character that is none. -/
theorem skip_cases (s : List Byte) : skip s = [] ∨ ∃ c s', skip s = c :: s' ∧ isSpace c = false := by
  induction s with
  | nil => exact .inl rfl
  | cons c s ih =>
    by_cases hc : isSpace c = true
    · rw [skip, List.dropWhile_cons_of_pos hc]
      exact ih
    · rw [skip, List.dropWhile_cons_of_neg hc]
      exact .inr ⟨c, s, rfl, Bool.eq_false_iff.mpr hc⟩

theorem skip_skip (s : List Byte) : skip (skip s) = skip s := by
  rcases skip_cases s with hs | ⟨c, s', hs, hc⟩
  · rw [hs]
    rfl
  · rw [hs, skip, List.dropWhile_cons_of_neg (by simp [hc])]

theorem tokens_nil : tokens [] = [] := by rw [tokens]

theorem tokens_skip (s : List Byte) : tokens (skip s) = tokens s := by
  induction s with
  | nil => rfl
  | cons c s ih =>
    by_cases hc : isSpace c = true
    · rw [skip, List.dropWhile_cons_of_pos hc, ← skip, ih, tokens, if_pos hc]
    · rw [skip, List.dropWhile_cons_of_neg hc]

theorem text_dropWhile (p : Byte → Bool) (q : List Byte) : text ⟨q, q.dropWhile p⟩ = q.takeWhile p := by
  have hq : q.takeWhile p ++ q.dropWhile p = q := List.takeWhile_append_dropWhile
  have hlen : q.length - (q.dropWhile p).length = (q.takeWhile p).length := by
    have := congrArg List.length hq
    rw [List.length_append] at this
    omega
  calc text ⟨q, q.dropWhile p⟩ = q.take (q.takeWhile p).length := by rw [text, hlen]
    _ = (q.takeWhile p ++ q.dropWhile p).take (q.takeWhile p).length := by rw [hq]
    _ = q.takeWhile p := List.take_left

theorem symbol_of_single (h : single c = some t) : symbol c = some t.kind ∧ t.lead = some c ∧
    ∀ w, t ≠ .word w := by
  simp only [single] at h
  split_ifs at h with h₁ h₂ h₃ h₄ h₅ h₆
  all_goals
    obtain rfl := Option.some.inj h
    subst c
    exact ⟨rfl, rfl, by simp⟩

theorem symbol_none (h : single c = none) : symbol c = none ∧ (c ≠ 0x3e → isSymbol c = false) := by
  simp only [single] at h
  split_ifs at h with h₁ h₂ h₃ h₄ h₅ h₆
  refine ⟨by rw [symbol, if_neg h₁, if_neg h₂, if_neg h₃, if_neg h₄, if_neg h₅, if_neg h₆], ?_⟩
  intro hgt
  rw [isSymbol, Bool.eq_false_iff, ne_eq, List.contains_iff_mem]
  simp only [List.mem_cons, List.not_mem_nil, or_false, not_or]
  exact ⟨h₆, h₁, hgt, h₅, h₄, h₂, h₃⟩

/-- `token` and `tokens` agree on the first token of a line that starts with no space. -/
theorem token_tokens (hc : isSpace c = false) : ∃ t, tokens (c :: s) = t :: tokens (token (c :: s)).2 ∧
    (token (c :: s)).1 = t.kind ∧ (∀ w, t = .word w → text ⟨c :: s, (token (c :: s)).2⟩ = w) ∧
    (t.lead = some c ∨ t.lead = none ∧ isSymbol c = false) := by
  rw [tokens, if_neg (by simp [hc])]
  cases hs : single c with
  | some t =>
    obtain ⟨hsym, hlead, hword⟩ := symbol_of_single hs
    simp only [token, hsym]
    exact ⟨t, rfl, rfl, fun w hw => absurd hw (hword w), .inl hlead⟩
  | none =>
    obtain ⟨hsym, hother⟩ := symbol_none hs
    by_cases hgt : c = 0x3e
    · subst hgt
      rcases s with _ | ⟨d, s⟩
      · exact ⟨.gt, rfl, rfl, by simp, .inl rfl⟩
      · by_cases hd : d = 0x3e
        · subst hd
          exact ⟨.gtgt, rfl, rfl, by simp, .inl rfl⟩
        · have htoken : token (0x3e :: d :: s) = (.gt, d :: s) := by
            rw [token, hsym]
            · rfl
            · intro s' heq
              exact hd (List.cons.inj heq).1
          rw [htoken]
          simp only [List.head?_cons, Option.some.injEq, hd, ↓reduceIte]
          exact ⟨.gt, rfl, rfl, by simp, .inl rfl⟩
    · have hword : isWord c = true := by simp [isWord, hc, hother hgt]
      have htoken : token (c :: s) = (.word, (c :: s).dropWhile isWord) := by
        simp only [token, hsym, if_neg hgt]
        rfl
      rw [htoken, if_neg hgt]
      refine ⟨.word (c :: s.takeWhile isWord), ?_, rfl, ?_, .inr ⟨rfl, hother hgt⟩⟩
      · rw [List.dropWhile_cons_of_pos hword]
      · rintro w ⟨⟩
        rw [text_dropWhile, List.takeWhile_cons_of_pos hword]

theorem gettoken_skip (s : List Byte) : gettoken (skip s) = gettoken s := by
  rw [gettoken, gettoken, skip_skip]

theorem gettoken_nil (h : tokens s = []) : ∃ w, gettoken s = (.eof, w, []) := by
  rcases skip_cases s with hs | ⟨c, s', hs, hc⟩
  · exact ⟨⟨[], []⟩, by rw [gettoken, hs]; rfl⟩
  · obtain ⟨t, ht, -⟩ := token_tokens (s := s') hc
    rw [← tokens_skip, hs, ht] at h
    cases h

theorem gettoken_cons (h : tokens s = t :: ts) : ∃ w s', gettoken s = (t.kind, w, s') ∧ tokens s' = ts ∧
    ∀ v, t = .word v → text w = v := by
  rcases skip_cases s with hs | ⟨c, s', hs, hc⟩
  · rw [← tokens_skip, hs, tokens_nil] at h
    cases h
  · obtain ⟨t', ht, hkind, htext, -⟩ := token_tokens (s := s') hc
    rw [← tokens_skip, hs, ht] at h
    obtain ⟨rfl, rfl⟩ := List.cons.inj h
    refine ⟨⟨c :: s', (token (c :: s')).2⟩, skip (token (c :: s')).2, ?_, tokens_skip _, htext⟩
    rw [gettoken, hs, ← hkind]

/-- The next token is a symbol that starts with one of `toks`. -/
def next (toks : List Byte) (ts : List Tok) : Bool := ts.head?.any (fun t => t.lead.any (toks.contains ·))

theorem peek_eq (toks : List Byte) (htoks : ∀ c ∈ toks, isSymbol c = true) :
    peek s toks = (next toks (tokens s), skip s) := by
  rw [peek, next]
  rcases skip_cases s with hs | ⟨c, s', hs, hc⟩
  · rw [hs, ← tokens_skip, hs, tokens_nil]
    rfl
  · obtain ⟨t, ht, -, -, hlead⟩ := token_tokens (s := s') hc
    rw [hs, ← tokens_skip s, hs, ht]
    rcases hlead with hlead | ⟨hlead, hno⟩
    · simp [hlead]
    · have hnot : c ∉ toks := by
        intro hmem
        rw [htoks c hmem] at hno
        cases hno
      simp [hlead, hnot]

def redirMode : Tok → Option (Mode × Nat)
  | .lt => some (.rdonly, 0)
  | .gt | .gtgt => some (.wronlyCreate, 1)
  | _ => none

def tokRedirs : Nat → List (Redir (List Byte)) → List Tok → Except Err (List (Redir (List Byte)) × List Tok)
  | 0, _, _ => .error .fuel
  | _ + 1, rs, [] => .ok (rs, [])
  | n + 1, rs, t :: ts =>
    match redirMode t, ts with
    | some (mode, fd), .word f :: ts => tokRedirs n (rs ++ [⟨f, mode, fd⟩]) ts
    | some _, _ => .error .missingFile
    | none, ts => .ok (rs, t :: ts)

def tokArgs : Nat → List (List Byte) → List (Redir (List Byte)) → List Tok →
    Except Err (Cmd (List Byte) × List Tok)
  | 0, _, _, _ => .error .fuel
  | n + 1, argv, rs, .word w :: ts =>
    if ¬ argv.length < maxArgs then .error .argvIndex
    else if maxArgs ≤ argv.length + 1 then .error .tooManyArgs
    else do
      let (rs, ts) ← tokRedirs n rs ts
      tokArgs n (argv ++ [w]) rs ts
  | _ + 1, _, _, .lpar :: _ => .error .syntaxError
  | _ + 1, _, _, .lt :: _ => .error .syntaxError
  | _ + 1, _, _, .gt :: _ => .error .syntaxError
  | _ + 1, _, _, .gtgt :: _ => .error .syntaxError
  | _ + 1, argv, rs, ts => if argv.length < maxArgs then .ok ((Cmd.exec argv).redirs rs, ts) else .error .argvIndex

def tokBacks : Nat → Cmd (List Byte) → List Tok → Except Err (Cmd (List Byte) × List Tok)
  | 0, _, _ => .error .fuel
  | n + 1, cmd, .amp :: ts => tokBacks n (.back cmd) ts
  | _ + 1, cmd, ts => .ok (cmd, ts)

mutual

def tokLine : Nat → List Tok → Except Err (Cmd (List Byte) × List Tok)
  | 0, _ => .error .fuel
  | n + 1, ts => do
    let (cmd, ts) ← tokPipe n ts
    let (cmd, ts) ← tokBacks n cmd ts
    match ts with
    | .semi :: ts =>
      let (right, ts) ← tokLine n ts
      return (.list cmd right, ts)
    | ts => return (cmd, ts)

def tokPipe : Nat → List Tok → Except Err (Cmd (List Byte) × List Tok)
  | 0, _ => .error .fuel
  | n + 1, ts => do
    let (cmd, ts) ← tokExec n ts
    match ts with
    | .bar :: ts =>
      let (right, ts) ← tokPipe n ts
      return (.pipe cmd right, ts)
    | ts => return (cmd, ts)

def tokExec : Nat → List Tok → Except Err (Cmd (List Byte) × List Tok)
  | 0, _ => .error .fuel
  | n + 1, .lpar :: ts => tokBlock n (.lpar :: ts)
  | n + 1, ts => do
    let (rs, ts) ← tokRedirs n [] ts
    tokArgs n [] rs ts

def tokBlock : Nat → List Tok → Except Err (Cmd (List Byte) × List Tok)
  | 0, _ => .error .fuel
  | n + 1, .lpar :: ts => do
    let (cmd, ts) ← tokLine n ts
    match ts with
    | .rpar :: ts =>
      let (rs, ts) ← tokRedirs n [] ts
      return (cmd.redirs rs, ts)
    | _ => .error .missingParen
  | _ + 1, _ => .error .parseblock

end

def mapRedir (r : Redir Span) : Redir (List Byte) := ⟨text r.file, r.mode, r.fd⟩

/-- The tree with the words in place of the pointers. -/
def view : Cmd Span → Cmd (List Byte)
  | .exec argv => .exec (argv.map text)
  | .redir cmd r => .redir (view cmd) (mapRedir r)
  | .pipe left right => .pipe (view left) (view right)
  | .list left right => .list (view left) (view right)
  | .back cmd => .back (view cmd)

theorem view_redirs (cmd : Cmd Span) (rs : List (Redir Span)) :
    view (cmd.redirs rs) = (view cmd).redirs (rs.map mapRedir) := by
  induction rs generalizing cmd with
  | nil => rfl
  | cons r rs ih => exact ih (.redir cmd r)

/-- The result of a function on characters, for the tokens. -/
def seen {α β : Type} (f : α → β) (x : Except Err (α × List Byte)) : Except Err (β × List Tok) :=
  x.map (fun y => (f y.1, tokens y.2))

theorem seen_bind {α β γ δ : Type} {f : α → β} {g : γ → δ} {x : Except Err (α × List Byte)}
    {y : Except Err (β × List Tok)} {k : α × List Byte → Except Err (γ × List Byte)}
    {l : β × List Tok → Except Err (δ × List Tok)} (hx : seen f x = y)
    (hk : ∀ a s, seen g (k (a, s)) = l (f a, tokens s)) : seen g (x >>= k) = (y >>= l) := by
  subst hx
  cases x with
  | error e => rfl
  | ok a => exact hk a.1 a.2

theorem parseredirs_seen (n : Nat) (rs : List (Redir Span)) (s : List Byte) :
    seen (List.map mapRedir) (parseredirs n rs s) = tokRedirs n (rs.map mapRedir) (tokens s) := by
  induction n generalizing rs s with
  | zero => rfl
  | succ n ih =>
    rw [parseredirs, peek_eq _ (by decide)]
    cases ht : tokens s with
    | nil => simp [next, seen, Except.map, tokRedirs, tokens_skip, ht]
    | cons t ts =>
      have hnext : next [0x3c, 0x3e] (t :: ts) = (redirMode t).isSome := by
        cases t <;> rfl
      obtain ⟨w₀, s₁, hg, rfl, -⟩ := gettoken_cons ht
      rw [hnext]
      cases hm : redirMode t with
      | none => simp [seen, Except.map, tokRedirs, tokens_skip, ht, hm]
      | some m =>
        simp only [Option.isSome_some, gettoken_skip, hg]
        cases ht₁ : tokens s₁ with
        | nil =>
          obtain ⟨w, hg₁⟩ := gettoken_nil ht₁
          simp [seen, Except.map, tokRedirs, hm, hg₁]
        | cons t₁ ts₁ =>
          obtain ⟨w, s₂, hg₁, rfl, htext⟩ := gettoken_cons ht₁
          cases t₁ with
          | word f =>
            have hw : text w = f := htext f rfl
            have hrest := ih (rs ++ [⟨w, m.1, m.2⟩]) s₂
            rw [List.map_append] at hrest
            simp only [tokRedirs, hm, hg₁, Tok.kind]
            rw [← hw]
            refine Eq.trans ?_ hrest
            cases t <;> cases hm <;> rfl
          | _ => simp [seen, Except.map, tokRedirs, hm, hg₁, Tok.kind]

theorem parseargs_seen (n : Nat) (argv : List Span) (rs : List (Redir Span)) (s : List Byte) :
    seen view (parseargs n argv rs s) = tokArgs n (argv.map text) (rs.map mapRedir) (tokens s) := by
  induction n generalizing argv rs s with
  | zero => rfl
  | succ n ih =>
    have hdone : ∀ s' ts, tokens s' = ts →
        seen view (if argv.length < maxArgs then .ok ((Cmd.exec argv).redirs rs, s') else .error .argvIndex) =
          if (argv.map text).length < maxArgs then .ok ((Cmd.exec (argv.map text)).redirs (rs.map mapRedir), ts)
          else .error .argvIndex := by
      rintro s' ts rfl
      rw [List.length_map]
      split
      · rw [seen, Except.map, view_redirs]
        rfl
      · rfl
    rw [parseargs, peek_eq _ (by decide)]
    cases ht : tokens s with
    | nil =>
      obtain ⟨w, hg⟩ := gettoken_nil ht
      rw [show next _ [] = false from rfl]
      simp only [gettoken_skip, hg]
      exact hdone [] [] tokens_nil
    | cons t ts =>
      obtain ⟨w, s₁, hg, rfl, htext⟩ := gettoken_cons ht
      cases t with
      | word v =>
        rw [show next _ (.word v :: _) = false from rfl]
        simp only [gettoken_skip, hg, Tok.kind, tokArgs, List.length_map]
        split
        · rfl
        · split
          · rfl
          · refine seen_bind (parseredirs_seen n rs s₁) ?_
            intro rs' s'
            have hrest := ih (argv ++ [w]) rs' s'
            rw [List.map_append, List.map_singleton, htext v rfl] at hrest
            exact hrest
      | lpar | lt | gt | gtgt =>
        rw [show next _ _ = false from rfl]
        simp only [gettoken_skip, hg]
        rfl
      | bar | rpar | amp | semi =>
        exact hdone (skip s) _ (by rw [tokens_skip, ht])

theorem parsebacks_seen (n : Nat) (cmd : Cmd Span) (s : List Byte) :
    seen view (parsebacks n cmd s) = tokBacks n (view cmd) (tokens s) := by
  induction n generalizing cmd s with
  | zero => rfl
  | succ n ih =>
    rw [parsebacks, peek_eq _ (by decide)]
    cases ht : tokens s with
    | nil => simp [next, seen, Except.map, tokBacks, tokens_skip, ht]
    | cons t ts =>
      obtain ⟨w, s₁, hg, rfl, -⟩ := gettoken_cons ht
      cases t with
      | amp =>
        have hrest := ih (.back cmd) s₁
        rw [show next _ (.amp :: _) = true from rfl]
        simp only [gettoken_skip, hg]
        exact hrest
      | _ => simp [next, seen, Except.map, tokBacks, tokens_skip, ht, Tok.lead]

/-- `peek` for one character, and the token that `gettoken` then takes. -/
theorem peek_cases (b : Byte) (t₀ : Tok) (hb : isSymbol b = true) (hlead : ∀ t : Tok, t.lead = some b ↔ t = t₀)
    (s : List Byte) :
    (∃ w s', tokens s = t₀ :: tokens s' ∧ peek s [b] = (true, skip s) ∧ gettoken (skip s) = (t₀.kind, w, s')) ∨
      ((∀ ts, tokens s ≠ t₀ :: ts) ∧ peek s [b] = (false, skip s)) := by
  have hpeek := peek_eq (s := s) [b] (by simpa using hb)
  by_cases h : ∃ ts, tokens s = t₀ :: ts
  · obtain ⟨ts, ht⟩ := h
    obtain ⟨w, s', hg, rfl, -⟩ := gettoken_cons ht
    refine .inl ⟨w, s', ht, ?_, by rw [gettoken_skip, hg]⟩
    rw [hpeek, ht, next, List.head?_cons, Option.any_some, (hlead t₀).mpr rfl]
    simp
  · have hne : ∀ ts, tokens s ≠ t₀ :: ts := fun ts ht => h ⟨ts, ht⟩
    refine .inr ⟨hne, ?_⟩
    rw [hpeek, next]
    cases ht : tokens s with
    | nil => rfl
    | cons t ts =>
      have hno : t.lead ≠ some b := by
        intro hc
        rw [hlead] at hc
        exact hne ts (by rw [ht, hc])
      cases hl : t.lead with
      | none => simp [hl]
      | some c =>
        rw [hl] at hno
        have hcb : c ≠ b := fun hcb => hno (by rw [hcb])
        simp [hl, hcb]

/-- The four functions of the descent, on characters and on tokens. -/
theorem parse_seen (n : Nat) : (∀ s, seen view (parseline n s) = tokLine n (tokens s)) ∧
    (∀ s, seen view (parsepipe n s) = tokPipe n (tokens s)) ∧
    (∀ s, seen view (parseexec n s) = tokExec n (tokens s)) ∧
    (∀ s, seen view (parseblock n s) = tokBlock n (tokens s)) := by
  have hsemi := peek_cases 0x3b .semi (by decide) (fun t => by cases t <;> simp [Tok.lead])
  have hbar := peek_cases 0x7c .bar (by decide) (fun t => by cases t <;> simp [Tok.lead])
  have hlpar := peek_cases 0x28 .lpar (by decide) (fun t => by cases t <;> simp [Tok.lead])
  have hrpar := peek_cases 0x29 .rpar (by decide) (fun t => by cases t <;> simp [Tok.lead])
  induction n with
  | zero => exact ⟨fun _ => rfl, fun _ => rfl, fun _ => rfl, fun _ => rfl⟩
  | succ n ih =>
    obtain ⟨ihl, ihp, ihe, ihb⟩ := ih
    refine ⟨fun s => ?_, fun s => ?_, fun s => ?_, fun s => ?_⟩
    · rw [parseline, tokLine]
      refine seen_bind (ihp s) (fun cmd s₁ => seen_bind (parsebacks_seen n cmd s₁) (fun cmd' s₂ => ?_))
      rcases hsemi s₂ with ⟨w, s₃, ht, hpeek, hg⟩ | ⟨hne, hpeek⟩
      · simp only [hpeek, hg, ht]
        exact seen_bind (ihl s₃) (fun right s₄ => rfl)
      · simp only [hpeek]
        rw [← tokens_skip s₂]
        rfl
    · rw [parsepipe, tokPipe]
      refine seen_bind (ihe s) (fun cmd s₁ => ?_)
      rcases hbar s₁ with ⟨w, s₂, ht, hpeek, hg⟩ | ⟨hne, hpeek⟩
      · simp only [hpeek, hg, ht]
        exact seen_bind (ihp s₂) (fun right s₃ => rfl)
      · simp only [hpeek]
        rw [← tokens_skip s₁]
        rfl
    · rw [parseexec]
      rcases hlpar s with ⟨w, s₁, ht, hpeek, -⟩ | ⟨hne, hpeek⟩
      · simp only [hpeek]
        rw [ihb, tokens_skip, ht, tokExec]
      · simp only [hpeek]
        rw [tokExec]
        · rw [← tokens_skip s]
          exact seen_bind (parseredirs_seen n [] (skip s)) (fun rs s₁ => parseargs_seen n [] rs s₁)
        · exact hne
    · rw [parseblock]
      rcases hlpar s with ⟨w, s₁, ht, hpeek, hg⟩ | ⟨hne, hpeek⟩
      · simp only [hpeek, hg]
        rw [ht, tokBlock]
        refine seen_bind (ihl s₁) (fun cmd s₂ => ?_)
        rcases hrpar s₂ with ⟨w', s₃, ht', hpeek', hg'⟩ | ⟨hne', hpeek'⟩
        · simp only [hpeek', hg', ht']
          refine seen_bind (parseredirs_seen n [] s₃) (fun rs s₄ => ?_)
          rw [← view_redirs]
          rfl
        · simp only [hpeek']
          rfl
      · simp only [hpeek]
        rw [tokBlock]
        · rfl
        · exact hne

end Xv6.ShellTokens
