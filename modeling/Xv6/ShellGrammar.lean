import Xv6.Outcome
import Xv6.ShellTokens

/-!
# The grammar of the shell

    line  ::= pipe '&'* [';' line]
    pipe  ::= cmd ['|' pipe]
    cmd   ::= '(' line ')' redir* | redir* (word redir*)*
    redir ::= ('<' | '>' | '>>') word

with fewer than `MAXARGS` words in a simple command. The parser takes what a derivation consumes and
builds its tree; and where the next token cannot continue a derivation, the parser finds it.
-/
namespace Xv6.ShellGrammar

open Words Shell ShellTokens Outcome

inductive Redirs : List Tok → List (Redir (List Byte)) → Prop
  | nil : Redirs [] []
  | cons {t : Tok} {mode : Mode} {fd : Nat} {ts : List Tok} {rs : List (Redir (List Byte))}
      (ht : redirMode t = some (mode, fd)) (f : List Byte) (hr : Redirs ts rs) :
      Redirs (t :: .word f :: ts) (⟨f, mode, fd⟩ :: rs)

/-- The words of a simple command with the redirections after each. -/
inductive Words : List Tok → List (List Byte) → List (Redir (List Byte)) → Prop
  | nil : Words [] [] []
  | cons {ts us : List Tok} {ws : List (List Byte)} {rs rs' : List (Redir (List Byte))}
      (w : List Byte) (hr : Redirs ts rs) (hw : Words us ws rs') : Words (.word w :: (ts ++ us))
      (w :: ws) (rs ++ rs')

def backs : Nat → Cmd (List Byte) → Cmd (List Byte)
  | 0, cmd => cmd
  | n + 1, cmd => backs n (.back cmd)

inductive Nonterminal where
  | line
  | pipe
  | cmd
  deriving DecidableEq, Repr

inductive Derives : Nonterminal → List Tok → Cmd (List Byte) → Prop
  | simple {ts us : List Tok} {ws : List (List Byte)} {rs rs' : List (Redir (List Byte))} (hr : Redirs ts rs)
      (hw : Words us ws rs') (hlen : ws.length ≤ maxArgs - 1) :
      Derives .cmd (ts ++ us) ((Cmd.exec ws).redirs (rs ++ rs'))
  | block {ts us : List Tok} {t : Cmd (List Byte)} {rs : List (Redir (List Byte))} (h : Derives .line ts t)
      (hr : Redirs us rs) : Derives .cmd (.lpar :: (ts ++ .rpar :: us)) (t.redirs rs)
  | one {ts : List Tok} {t : Cmd (List Byte)} (h : Derives .cmd ts t) : Derives .pipe ts t
  | bar {ts us : List Tok} {t u : Cmd (List Byte)} (h : Derives .cmd ts t) (h' : Derives .pipe us u) :
      Derives .pipe (ts ++ .bar :: us) (.pipe t u)
  | last {ts : List Tok} {t : Cmd (List Byte)} (k : Nat) (h : Derives .pipe ts t) :
      Derives .line (ts ++ List.replicate k .amp) (backs k t)
  | seq {ts us : List Tok} {t u : Cmd (List Byte)} (k : Nat) (h : Derives .pipe ts t) (h' : Derives .line us u) :
      Derives .line (ts ++ (List.replicate k .amp ++ .semi :: us)) (.list (backs k t) u)

variable {n k : Nat} {ts us rest : List Tok} {rs r : List (Redir (List Byte))} {argv ws : List (List Byte)}
  {cmd t : Cmd (List Byte)}

/-- An error of the line, and not one of the parser. -/
def Benign (e : Err) : Prop := e ≠ .fuel ∧ e ≠ .argvIndex

theorem tokRedirs_ends (h : ts.length < n) : Ends (tokRedirs n rs ts) Benign (fun y =>
    ∃ us r, Redirs us r ∧ ts = us ++ y.2 ∧ y.1 = rs ++ r) := by
  induction n generalizing rs ts with
  | zero => omega
  | succ n ih =>
    cases ts with
    | nil => exact ⟨[], [], .nil, rfl, (List.append_nil rs).symm⟩
    | cons t ts =>
      cases hm : redirMode t with
      | none =>
        simp only [tokRedirs, hm]
        exact ⟨[], [], .nil, rfl, (List.append_nil rs).symm⟩
      | some m =>
        obtain ⟨mode, fd⟩ := m
        rcases ts with _ | ⟨t', ts⟩
        · simp [tokRedirs, hm, Benign]
        · cases t' with
          | word f =>
            simp only [List.length_cons] at h
            simp only [tokRedirs, hm]
            refine (ih (show ts.length < n by omega)).imp ?_
            rintro ⟨rs', ts'⟩ ⟨us, r, hr, hts, hrs⟩
            dsimp only at hts hrs
            exact ⟨_, _, .cons hm f hr, by rw [hts]; rfl, by rw [hrs]; simp⟩
          | _ => simp [tokRedirs, hm, Benign]

theorem tokArgs_ends (h : ts.length < n) (hargv : argv.length < maxArgs) :
    Ends (tokArgs n argv rs ts) Benign (fun y =>
    ∃ us ws r, Words us ws r ∧ ts = us ++ y.2 ∧ y.1 = (Cmd.exec (argv ++ ws)).redirs (rs ++ r) ∧
      (argv ++ ws).length < maxArgs) := by
  induction n generalizing argv rs ts with
  | zero => omega
  | succ n ih =>
    have hstop : ∀ ts : List Tok, Ends (if argv.length < maxArgs then
      .ok ((Cmd.exec argv).redirs rs, ts) else .error .argvIndex)
        Benign (fun y => ∃ us ws r, Words us ws r ∧ ts = us ++ y.2 ∧
          y.1 = (Cmd.exec (argv ++ ws)).redirs (rs ++ r) ∧ (argv ++ ws).length < maxArgs) := by
      intro ts
      rw [if_pos hargv]
      exact ⟨[], [], [], .nil, rfl, by simp, by simpa using hargv⟩
    rcases ts with _ | ⟨t, ts⟩
    · exact hstop []
    · cases t with
      | word w =>
        rw [tokArgs, if_neg (by omega)]
        split
        · simp [Benign]
        · simp only [List.length_cons] at h
          refine (tokRedirs_ends (by omega)).bind ?_
          rintro ⟨rs', ts'⟩ ⟨us, r, hr, rfl, rfl⟩
          rw [List.length_append] at h
          dsimp only at h
          have hnext : (argv ++ [w]).length < maxArgs := by
            rw [List.length_append, List.length_singleton]
            omega
          refine (ih (show ts'.length < n by omega) hnext).imp ?_
          rintro ⟨cmd, ts''⟩ ⟨us', ws, r', hw, hts, hcmd, hlen⟩
          dsimp only at hts hcmd
          refine ⟨_, _, _, .cons w hr hw, ?_, ?_, ?_⟩
          · simp [hts]
          · rw [hcmd]
            simp
          · simpa using hlen
      | lpar | lt | gt | gtgt => simp [tokArgs, Benign]
      | bar | rpar | amp | semi => exact hstop _

theorem tokBacks_ends (h : ts.length < n) : Ends (tokBacks n cmd ts) Benign (fun y =>
    ∃ k, ts = List.replicate k .amp ++ y.2 ∧ y.1 = backs k cmd) := by
  induction n generalizing cmd ts with
  | zero => omega
  | succ n ih =>
    rcases ts with _ | ⟨t, ts⟩
    · exact ⟨0, rfl, rfl⟩
    · cases t with
      | amp =>
        simp only [List.length_cons] at h
        refine (ih (show ts.length < n by omega)).imp ?_
        rintro ⟨cmd', ts'⟩ ⟨k, hts, hcmd⟩
        exact ⟨k + 1, by rw [hts]; rfl, hcmd⟩
      | _ => exact ⟨0, rfl, rfl⟩

/-- The four functions of the descent. -/
theorem parse_ends (n : Nat) :
    (∀ ts, 4 * ts.length + 4 ≤ n → Ends (tokLine n ts) Benign (fun y =>
      ∃ us, ts = us ++ y.2 ∧ Derives .line us y.1)) ∧
    (∀ ts, 4 * ts.length + 3 ≤ n → Ends (tokPipe n ts) Benign (fun y =>
      ∃ us, ts = us ++ y.2 ∧ Derives .pipe us y.1)) ∧
    (∀ ts, 4 * ts.length + 2 ≤ n → Ends (tokExec n ts) Benign (fun y =>
      ∃ us, ts = us ++ y.2 ∧ Derives .cmd us y.1)) ∧
    (∀ ts, 4 * ts.length + 1 ≤ n → Ends (tokBlock n ts) Benign (fun y =>
      ∃ us, ts = us ++ y.2 ∧ Derives .cmd us y.1)) := by
  induction n with
  | zero => exact ⟨by omega, by omega, by omega, by omega⟩
  | succ n ih =>
    obtain ⟨ihl, ihp, ihe, ihb⟩ := ih
    refine ⟨?_, ?_, ?_, ?_⟩
    · intro ts h
      rw [tokLine]
      refine (ihp ts (by omega)).bind ?_
      rintro ⟨cmd, ts₁⟩ ⟨us, rfl, hpipe⟩
      rw [List.length_append] at h
      dsimp only at h
      refine (tokBacks_ends (by omega)).bind ?_
      rintro ⟨cmd', ts₂⟩ ⟨k, rfl, rfl⟩
      dsimp only
      split
      · rename_i ts₃
        rw [List.length_append, List.length_cons] at h
        refine (ihl ts₃ (by omega)).bind ?_
        rintro ⟨right, ts₄⟩ ⟨us', rfl, hline⟩
        exact ⟨_, by simp, .seq k hpipe hline⟩
      · exact ⟨_, by simp, .last k hpipe⟩
    · intro ts h
      rw [tokPipe]
      refine (ihe ts (by omega)).bind ?_
      rintro ⟨cmd, ts₁⟩ ⟨us, rfl, hcmd⟩
      dsimp only
      split
      · rename_i ts₂
        rw [List.length_append, List.length_cons] at h
        refine (ihp ts₂ (by omega)).bind ?_
        rintro ⟨right, ts₃⟩ ⟨us', rfl, hpipe⟩
        exact ⟨_, by simp, .bar hcmd hpipe⟩
      · exact ⟨us, rfl, .one hcmd⟩
    · intro ts h
      by_cases hlpar : ∃ us, ts = .lpar :: us
      · obtain ⟨us, rfl⟩ := hlpar
        rw [tokExec]
        exact ihb _ (by omega)
      · rw [tokExec]
        · refine (tokRedirs_ends (by omega)).bind ?_
          rintro ⟨rs, ts₁⟩ ⟨us, r, hr, rfl, rfl⟩
          rw [List.length_append] at h
          dsimp only at h
          refine (tokArgs_ends (by omega) (by decide)).imp ?_
          rintro ⟨cmd, ts₂⟩ ⟨us', ws, r', hw, hts, hcmd, hlen⟩
          dsimp only at hts hcmd
          subst hts hcmd
          exact ⟨_, by simp, .simple hr hw (Nat.le_sub_one_of_lt hlen)⟩
        · intro us hus
          exact hlpar ⟨us, hus⟩
    · intro ts h
      by_cases hlpar : ∃ us, ts = .lpar :: us
      · obtain ⟨us, rfl⟩ := hlpar
        rw [tokBlock]
        rw [List.length_cons] at h
        refine (ihl us (by omega)).bind ?_
        rintro ⟨cmd, ts₁⟩ ⟨us₁, rfl, hline⟩
        dsimp only
        split
        · rename_i ts₂
          rw [List.length_append, List.length_cons] at h
          refine (tokRedirs_ends (by omega)).bind ?_
          rintro ⟨rs, ts₃⟩ ⟨us₂, r, hr, rfl, rfl⟩
          exact ⟨_, by simp, .block hline hr⟩
        · simp [Benign]
      · rw [tokBlock]
        · simp [Benign]
        · intro us hus
          exact hlpar ⟨us, hus⟩

/-- The tokens that may come after what a nonterminal derives. -/
def follow : Nonterminal → List Tok
  | .line => [.rpar]
  | .pipe => [.rpar, .amp, .semi]
  | .cmd => [.rpar, .amp, .semi, .bar]

def Follows (x : Nonterminal) (rest : List Tok) : Prop := ∀ t ∈ rest.head?, t ∈ follow x

theorem follows_cons {x : Nonterminal} {t : Tok} (h : t ∈ follow x) : Follows x (t :: rest) := by
  intro t' ht'
  obtain rfl := Option.some.inj ht'
  exact h

theorem Follows.mono {x y : Nonterminal} (h : Follows x rest) (hxy : ∀ t ∈ follow x, t ∈ follow y) :
    Follows y rest :=
  fun t ht => hxy t (h t ht)

/-- The tokens that end a simple command. -/
theorem Follows.stop (h : Follows .cmd rest) : rest = [] ∨ ∃ t ts, rest = t :: ts ∧
    (t = .rpar ∨ t = .amp ∨ t = .semi ∨ t = .bar) := by
  rcases rest with _ | ⟨t, ts⟩
  · exact .inl rfl
  · have ht := h t rfl
    simp only [follow, List.mem_cons, List.not_mem_nil, or_false] at ht
    exact .inr ⟨t, ts, rfl, ht⟩

def Bare (rest : List Tok) : Prop := ∀ t ∈ rest.head?, redirMode t = none

theorem Follows.bare (h : Follows .cmd rest) : Bare rest := by
  rcases h.stop with rfl | ⟨t, ts, rfl, ht⟩
  · exact fun t ht => by cases ht
  · intro t' ht'
    obtain rfl := Option.some.inj ht'
    rcases ht with rfl | rfl | rfl | rfl <;> rfl

theorem Redirs.complete (h : Redirs us r) (hbare : Bare rest) (hn : us.length < n) :
    tokRedirs n rs (us ++ rest) = .ok (rs ++ r, rest) := by
  induction h generalizing n rs with
  | nil =>
    obtain ⟨n, rfl⟩ : ∃ k, n = k + 1 := ⟨n - 1, by simp at hn; omega⟩
    rcases rest with _ | ⟨t, ts⟩
    · simp [tokRedirs]
    · simp [tokRedirs, hbare t rfl]
  | cons ht f hr ih =>
    obtain ⟨n, rfl⟩ : ∃ k, n = k + 1 := ⟨n - 1, by omega⟩
    simp only [List.length_cons] at hn
    simp only [List.cons_append, tokRedirs, ht]
    rw [ih (by omega)]
    simp

/-- A word or the end of the command stands where a word may. -/
theorem Words.bare (h : Words us ws r) (hrest : Follows .cmd rest) : Bare (us ++ rest) := by
  cases h with
  | nil => exact hrest.bare
  | cons w hr hw =>
    intro t ht
    obtain rfl := Option.some.inj ht
    rfl

theorem Words.complete (h : Words us ws r) (hrest : Follows .cmd rest) (hlen : (argv ++ ws).length < maxArgs)
    (hn : us.length < n) : tokArgs n argv rs (us ++ rest) =
    .ok ((Cmd.exec (argv ++ ws)).redirs (rs ++ r), rest) := by
  induction h generalizing n argv rs with
  | nil =>
    obtain ⟨n, rfl⟩ : ∃ k, n = k + 1 := ⟨n - 1, by simp at hn; omega⟩
    rw [List.append_nil] at hlen
    rcases hrest.stop with rfl | ⟨t, ts, rfl, ht⟩
    · simp [tokArgs, hlen]
    · rcases ht with rfl | rfl | rfl | rfl <;> simp [tokArgs, hlen]
  | @cons ts us ws r r' w hr hw ih =>
    obtain ⟨n, rfl⟩ : ∃ k, n = k + 1 := ⟨n - 1, by omega⟩
    simp only [List.length_cons, List.length_append] at hn hlen
    rw [List.cons_append, tokArgs, if_neg (by omega), if_neg (by omega), List.append_assoc,
      hr.complete (hw.bare hrest) (by omega), ok_bind]
    simp only
    rw [ih (by simp only [List.length_append, List.length_cons, List.length_nil]; omega) (by omega)]
    simp

theorem tokBacks_complete (hrest : ∀ t ∈ rest.head?, t ≠ .amp) (hn : k < n) :
    tokBacks n cmd (List.replicate k .amp ++ rest) = .ok (backs k cmd, rest) := by
  induction k generalizing n cmd with
  | zero =>
    obtain ⟨n, rfl⟩ : ∃ k, n = k + 1 := ⟨n - 1, by omega⟩
    rcases rest with _ | ⟨t, ts⟩
    · rfl
    · have ht := hrest t rfl
      cases t with
      | amp => exact absurd rfl ht
      | _ => rfl
  | succ k ih =>
    obtain ⟨n, rfl⟩ : ∃ k, n = k + 1 := ⟨n - 1, by omega⟩
    exact ih (by omega)

/-- What the parser does for a nonterminal, and the fuel it needs. -/
def parse (n : Nat) : Nonterminal → List Tok → Except Err (Cmd (List Byte) × List Tok)
  | .line => tokLine n
  | .pipe => tokPipe n
  | .cmd => tokExec n

def slack : Nonterminal → Nat
  | .line => 4
  | .pipe => 3
  | .cmd => 2

/-- A simple command does not start with a parenthesis. -/
theorem simple_head (hr : Redirs ts rs) (hw : Words us ws r) (hrest : Follows .cmd rest) (ts' : List Tok) :
    ts ++ (us ++ rest) ≠ .lpar :: ts' := by
  cases hr with
  | cons ht f hr =>
    rintro h
    obtain ⟨rfl, -⟩ := List.cons.inj h
    cases ht
  | nil =>
    cases hw with
    | cons w hr hw => simp
    | nil =>
      rcases hrest.stop with rfl | ⟨t, ts, rfl, ht⟩
      · simp
      · rcases ht with rfl | rfl | rfl | rfl <;> simp

theorem Follows.amps (h : Follows .pipe rest) (k : Nat) : Follows .pipe (List.replicate k .amp ++ rest) := by
  cases k with
  | zero => exact h
  | succ k => exact follows_cons (by decide)

/-- After a line comes the end or a parenthesis. -/
theorem Follows.line (h : Follows .line rest) : rest = [] ∨ ∃ ts, rest = .rpar :: ts := by
  rcases rest with _ | ⟨t, ts⟩
  · exact .inl rfl
  · exact .inr ⟨ts, by rw [List.mem_singleton.mp (h t rfl)]⟩

theorem Derives.complete {x : Nonterminal} (h : Derives x us t) (hrest : Follows x rest)
    (hn : 4 * us.length + slack x ≤ n) : parse n x (us ++ rest) = .ok (t, rest) := by
  induction h generalizing n rest with
  | @simple ts us ws r r' hr hw hlen =>
    have hmax : maxArgs = 10 := rfl
    rw [slack, List.length_append] at hn
    obtain ⟨n, rfl⟩ : ∃ k, n = k + 1 := ⟨n - 1, by omega⟩
    rw [parse, List.append_assoc, tokExec, hr.complete (hw.bare hrest) (by omega), ok_bind]
    · simp only
      rw [hw.complete hrest (by rw [List.nil_append]; omega) (by omega)]
      simp
    · exact simple_head hr hw hrest
  | @block ts us t r h hr ih =>
    simp only [slack, List.length_cons, List.length_append] at hn
    obtain ⟨n, rfl⟩ : ∃ k, n = k + 2 := ⟨n - 2, by omega⟩
    have hline : tokLine n (ts ++ .rpar :: (us ++ rest)) = _ :=
      ih (follows_cons (List.mem_singleton.mpr rfl)) (by rw [slack]; omega)
    rw [parse, List.cons_append, tokExec, tokBlock, List.append_assoc, List.cons_append, hline, ok_bind]
    simp only
    rw [hr.complete hrest.bare (by omega), ok_bind, List.nil_append]
    rfl
  | @one ts t h ih =>
    rw [slack] at hn
    obtain ⟨n, rfl⟩ : ∃ k, n = k + 1 := ⟨n - 1, by omega⟩
    have hcmd : tokExec n (ts ++ rest) = _ := ih (hrest.mono (by decide)) (by rw [slack]; omega)
    rw [parse, tokPipe, hcmd, ok_bind]
    rcases rest with _ | ⟨t', ts'⟩
    · rfl
    · have ht := hrest t' rfl
      simp only [follow, List.mem_cons, List.not_mem_nil, or_false] at ht
      rcases ht with rfl | rfl | rfl <;> rfl
  | @bar ts us t u h h' ih ih' =>
    simp only [slack, List.length_cons, List.length_append] at hn
    obtain ⟨n, rfl⟩ : ∃ k, n = k + 1 := ⟨n - 1, by omega⟩
    have hcmd : tokExec n (ts ++ .bar :: (us ++ rest)) = _ := ih (follows_cons (by decide)) (by rw [slack]; omega)
    have hpipe : tokPipe n (us ++ rest) = _ := ih' hrest (by rw [slack]; omega)
    rw [parse, tokPipe, List.append_assoc, List.cons_append, hcmd, ok_bind]
    simp only
    rw [hpipe]
    rfl
  | @last ts t k h ih =>
    simp only [slack, List.length_append, List.length_replicate] at hn
    obtain ⟨n, rfl⟩ : ∃ k, n = k + 1 := ⟨n - 1, by omega⟩
    have hpipe : tokPipe n (ts ++ (List.replicate k .amp ++ rest)) = _ :=
      ih ((hrest.mono (by decide)).amps k) (by rw [slack]; omega)
    have hamp : ∀ t ∈ rest.head?, t ≠ .amp := by
      intro t ht
      rw [List.mem_singleton.mp (hrest t ht)]
      decide
    rw [parse, tokLine, List.append_assoc, hpipe, ok_bind]
    simp only
    rw [tokBacks_complete hamp (by omega), ok_bind]
    rcases hrest.line with rfl | ⟨ts', rfl⟩
    · rfl
    · rfl
  | @seq ts us t u k h h' ih ih' =>
    simp only [slack, List.length_cons, List.length_append, List.length_replicate] at hn
    obtain ⟨n, rfl⟩ : ∃ k, n = k + 1 := ⟨n - 1, by omega⟩
    have hpipe : tokPipe n (ts ++ (List.replicate k .amp ++ .semi :: (us ++ rest))) = _ :=
      ih ((follows_cons (by decide)).amps k) (by rw [slack]; omega)
    have hline : tokLine n (us ++ rest) = _ := ih' hrest (by rw [slack]; omega)
    have hamp : ∀ t ∈ (Tok.semi :: (us ++ rest)).head?, t ≠ .amp := by
      intro t ht
      obtain rfl := Option.some.inj ht
      decide
    rw [parse, tokLine, List.append_assoc, List.append_assoc, List.cons_append, hpipe, ok_bind]
    simp only
    rw [tokBacks_complete hamp (by omega), ok_bind]
    simp only
    rw [hline]
    rfl

theorem tokens_length (s : List Byte) : (tokens s).length ≤ s.length := by
  fun_induction tokens s with
  | case1 => rfl
  | case2 c s hc ih => exact Nat.le_succ_of_le ih
  | case3 c s hc t ht ih => exact Nat.succ_le_succ ih
  | case4 s hc ht hgt ih =>
    rw [List.length_tail] at ih
    simp only [List.length_cons]
    omega
  | case5 s hc ht hgt ih => exact Nat.succ_le_succ ih
  | case6 c s hc ht hgt ih => exact Nat.succ_le_succ (ih.trans (List.dropWhile_suffix _).length_le)

theorem skip_of_tokens {s : List Byte} (h : tokens s = []) : skip s = [] := by
  rcases skip_cases s with hs | ⟨c, s', hs, hc⟩
  · exact hs
  · obtain ⟨t, ht, -⟩ := token_tokens (s := s') hc
    rw [← tokens_skip, hs, ht] at h
    cases h

/-- What `parsecmd` makes of the result of `parseline`. -/
theorem parsecmd_eq (buf : List Byte) : parsecmd buf =
    (parseline (4 * (buf.takeWhile (· ≠ 0)).length + 4) (buf.takeWhile (· ≠ 0)) >>= fun x =>
      if skip x.2 = [] then
        .ok (x.1, nulterminate (buf.takeWhile (· ≠ 0)).length buf x.1) else .error .leftovers) := by
  rw [parsecmd]
  congr 1
  funext x
  simp only [peek]
  cases skip x.2 with
  | nil | cons c s => rfl

/-- The shell's parser ends on every line, and it returns a command exactly for the lines of the
grammar: the tree of the derivation. It never stores past the end of `argv`. -/
theorem parsecmd_grammar (buf : List Byte) : parsecmd buf ≠ .error .fuel ∧ parsecmd buf ≠ .error .argvIndex ∧
    ∀ t, (∃ x, parsecmd buf = .ok x ∧ view x.1 = t) ↔ Derives .line (tokens (buf.takeWhile (· ≠ 0))) t := by
  rw [parsecmd_eq]
  generalize buf.takeWhile (· ≠ 0) = line
  have hfuel := tokens_length line
  have hseen := (parse_seen (4 * line.length + 4)).1 line
  have hends := (parse_ends (4 * line.length + 4)).1 (tokens line) (by omega)
  have hcomplete : ∀ t, Derives .line (tokens line) t → tokLine (4 * line.length + 4)
    (tokens line) = .ok (t, []) := by
    intro t h
    have hend : Follows .line [] := by simp [Follows]
    have hrun : parse (4 * line.length + 4) .line (tokens line ++ []) = .ok (t, []) :=
      h.complete hend (by rw [slack]; omega)
    rwa [List.append_nil] at hrun
  cases hline : parseline (4 * line.length + 4) line with
  | error e =>
    rw [hline] at hseen
    have hbenign : Benign e := hends.of_error hseen.symm
    refine ⟨by simpa using hbenign.1, by simpa using hbenign.2, ?_⟩
    intro t
    refine iff_of_false (by simp) ?_
    intro h
    rw [hcomplete t h] at hseen
    cases hseen
  | ok x =>
    rw [hline] at hseen
    obtain ⟨us, htokens, hderives⟩ := hends.of_ok hseen.symm
    rw [ok_bind]
    by_cases hskip : skip x.2 = []
    · have hrest : tokens x.2 = [] := by rw [← tokens_skip, hskip, tokens_nil]
      have hall : Derives .line (tokens line) (view x.1) := by
        simp only [hrest, List.append_nil] at htokens
        rw [htokens]
        exact hderives
      rw [if_pos hskip]
      refine ⟨by simp, by simp, fun t => ⟨?_, ?_⟩⟩
      · rintro ⟨y, hy, rfl⟩
        cases hy
        exact hall
      · intro h
        have hsame := (hcomplete t h).symm.trans (hcomplete _ hall)
        cases hsame
        exact ⟨_, rfl, rfl⟩
    · rw [if_neg hskip]
      refine ⟨by simp, by simp, fun t => iff_of_false (by simp) ?_⟩
      intro h
      rw [hcomplete t h] at hseen
      have hrest : tokens x.2 = [] := by
        have := congrArg (Except.map Prod.snd) hseen
        exact Except.ok.inj this
      exact hskip (skip_of_tokens hrest)

end Xv6.ShellGrammar
