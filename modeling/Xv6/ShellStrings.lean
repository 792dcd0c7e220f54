import Mathlib.Data.List.TakeWhile
import Xv6.ShellGrammar

/-!
# The words of the shell after `nulterminate`

All words of a line stay in its buffer, and `nulterminate` ends each of them with a NUL when the
tree is complete. The parser has read the character past a word by then, so no NUL lands in a word;
a symbol that follows a word directly is lost.
-/
namespace Xv6.ShellStrings

open Words Shell ShellTokens ShellGrammar Outcome

/-- The pointers that calls of `gettoken` and `peek` come to, from the start of a line. -/
inductive Visits (input : List Byte) : List Byte → Prop
  | start : Visits input input
  | peek {s : List Byte} (h : Visits input s) : Visits input (skip s)
  | gettoken {s : List Byte} (h : Visits input s) : Visits input (gettoken s).2.2

def IsToken (input : List Byte) (k : Kind) (w : Span) : Prop :=
  k ≠ .eof ∧ ∃ s s', Visits input s ∧ gettoken s = (k, w, s')

def words : Cmd Span → List Span
  | .exec argv => argv
  | .redir cmd r => words cmd ++ [r.file]
  | .pipe left right => words left ++ words right
  | .list left right => words left ++ words right
  | .back cmd => words cmd

def place (input p : List Byte) : Nat := input.length - p.length

/-- The NUL-terminated string at a place of the buffer. -/
def stringAt (buf : List Byte) (i : Nat) : List Byte := (buf.drop i).takeWhile (· ≠ 0)

variable {input s s' p buf : List Byte} {k : Kind} {w : Span} {n i : Nat}

theorem ends_eq (cmd : Cmd Span) : cmd.ends = (words cmd).map Span.eq := by
  induction cmd with
  | exec argv => rfl
  | redir cmd r ih => simp [Cmd.ends, words, ih]
  | pipe left right ihl ihr | list left right ihl ihr => simp [Cmd.ends, words, ihl, ihr]
  | back cmd ih => exact ih

theorem words_redirs (cmd : Cmd Span) (rs : List (Redir Span)) : words (cmd.redirs rs) =
    words cmd ++ rs.map Redir.file := by
  induction rs generalizing cmd with
  | nil => simp [Cmd.redirs]
  | cons r rs ih =>
    have hrest : words ((Cmd.redir cmd r).redirs rs) = words (.redir cmd r) ++ rs.map Redir.file := ih _
    rw [show cmd.redirs (r :: rs) = (Cmd.redir cmd r).redirs rs from rfl, hrest]
    simp [words]

/-- A function of the parser goes on in the line, and the words of what it returns are tokens. -/
def Takes {α : Type} (input : List Byte) (f : α → List Span) (x : Except Err (α × List Byte)) : Prop :=
  Ends x (fun _ => True) (fun y => Visits input y.2 ∧ ∀ w ∈ f y.1, IsToken input .word w)

theorem Visits.of_gettoken (h : Visits input s) (hg : Shell.gettoken s = (k, w, s')) : Visits input s' := by
  have hnext := h.gettoken
  rwa [hg] at hnext

theorem peek_visits {toks : List Byte} {b : Bool} (h : Visits input s)
    (hp : peek s toks = (b, s')) : Visits input s' := by
  obtain rfl : skip s = s' := congrArg Prod.snd hp
  exact h.peek

theorem parseredirs_takes (rs : List (Redir Span)) (h : Visits input s)
    (hrs : ∀ w ∈ rs.map Redir.file, IsToken input .word w) : Takes input (List.map Redir.file)
    (parseredirs n rs s) := by
  induction n generalizing rs s with
  | zero => exact trivial
  | succ n ih =>
    rw [parseredirs]
    rcases hp : peek s [0x3c, 0x3e] with ⟨_ | _, s₁⟩
    · exact ⟨peek_visits h hp, hrs⟩
    have h₁ := peek_visits h hp
    rcases hg₁ : gettoken s₁ with ⟨tok, w₁, s₂⟩
    have h₂ := h₁.of_gettoken hg₁
    rcases hg₂ : gettoken s₂ with ⟨k, w, s₃⟩
    have h₃ := h₂.of_gettoken hg₂
    simp only [hg₁, hg₂]
    cases k with
    | word =>
      have hmore (mode : Mode) (fd : Nat) : ∀ w' ∈ (rs ++ [Redir.mk w mode fd]).map Redir.file,
        IsToken input .word w' := by
        intro w' hw'
        rw [List.map_append, List.mem_append] at hw'
        rcases hw' with hw' | hw'
        · exact hrs w' hw'
        · obtain rfl := List.mem_singleton.mp hw'
          exact ⟨by decide, s₂, s₃, h₂, hg₂⟩
      cases tok with
      | lt | gt | gtgt => exact ih _ h₃ (hmore _ _)
      | _ => exact ih _ h₃ hrs
    | _ => exact trivial

theorem parseargs_takes (argv : List Span) (rs : List (Redir Span)) (h : Visits input s)
    (hargv : ∀ w ∈ argv, IsToken input .word w) (hrs : ∀ w ∈ rs.map Redir.file, IsToken input .word w) :
    Takes input words (parseargs n argv rs s) := by
  induction n generalizing argv rs s with
  | zero => exact trivial
  | succ n ih =>
    have hdone {s' : List Byte} (hs' : Visits input s') : Takes input words
        (if argv.length < maxArgs then .ok ((Cmd.exec argv).redirs rs, s') else .error .argvIndex) := by
      split
      · refine ⟨hs', fun w hw => ?_⟩
        rw [words_redirs, List.mem_append] at hw
        exact hw.elim (hargv w) (hrs w)
      · trivial
    rw [parseargs]
    rcases hp : peek s [0x7c, 0x29, 0x26, 0x3b] with ⟨_ | _, s₁⟩
    · have h₁ := peek_visits h hp
      rcases hg : gettoken s₁ with ⟨k, w, s₂⟩
      have h₂ := h₁.of_gettoken hg
      simp only [hg]
      cases k with
      | eof => exact hdone h₂
      | word =>
        dsimp only
        split
        · trivial
        split
        · trivial
        refine Ends.bind (parseredirs_takes rs h₂ hrs) fun y hy => ih _ _ hy.1 (fun w' hw' => ?_) hy.2
        rcases List.mem_append.mp hw' with hw' | hw'
        · exact hargv w' hw'
        · obtain rfl := List.mem_singleton.mp hw'
          exact ⟨by decide, s₁, s₂, h₁, hg⟩
      | _ => exact trivial
    · exact hdone (peek_visits h hp)

theorem parsebacks_takes (cmd : Cmd Span) (h : Visits input s) (hcmd : ∀ w ∈ words cmd, IsToken input .word w) :
    Takes input words (parsebacks n cmd s) := by
  induction n generalizing cmd s with
  | zero => exact trivial
  | succ n ih =>
    rw [parsebacks]
    rcases hp : peek s [0x26] with ⟨_ | _, s₁⟩
    · exact ⟨peek_visits h hp, hcmd⟩
    · exact ih (.back cmd) (peek_visits h hp).gettoken hcmd

/-- The two parts of a pipe or of a list. -/
theorem forall_words {left right : Cmd Span} (hl : ∀ w ∈ words left, IsToken input .word w)
    (hr : ∀ w ∈ words right, IsToken input .word w) : ∀ w ∈ words left ++ words right, IsToken input .word w :=
  fun w hw => (List.mem_append.mp hw).elim (hl w) (hr w)

/-- The four functions of the descent. -/
theorem parse_takes (n : Nat) : (∀ s, Visits input s → Takes input words (parseline n s)) ∧
    (∀ s, Visits input s → Takes input words (parsepipe n s)) ∧
    (∀ s, Visits input s → Takes input words (parseexec n s)) ∧
    (∀ s, Visits input s → Takes input words (parseblock n s)) := by
  induction n with
  | zero => exact ⟨fun _ _ => trivial, fun _ _ => trivial, fun _ _ => trivial, fun _ _ => trivial⟩
  | succ n ih =>
    obtain ⟨ihl, ihp, ihe, ihb⟩ := ih
    refine ⟨fun s h => ?_, fun s h => ?_, fun s h => ?_, fun s h => ?_⟩
    · rw [parseline]
      refine Ends.bind (ihp s h) fun y hy => Ends.bind (parsebacks_takes y.1 hy.1 hy.2) fun z hz => ?_
      dsimp only
      rcases hp : peek z.2 [0x3b] with ⟨_ | _, s₁⟩
      · exact ⟨peek_visits hz.1 hp, hz.2⟩
      refine Ends.bind (ihl _ (peek_visits hz.1 hp).gettoken) fun r hr => ?_
      exact ⟨hr.1, forall_words hz.2 hr.2⟩
    · rw [parsepipe]
      refine Ends.bind (ihe s h) fun y hy => ?_
      dsimp only
      rcases hp : peek y.2 [0x7c] with ⟨_ | _, s₁⟩
      · exact ⟨peek_visits hy.1 hp, hy.2⟩
      refine Ends.bind (ihp _ (peek_visits hy.1 hp).gettoken) fun r hr => ?_
      exact ⟨hr.1, forall_words hy.2 hr.2⟩
    · rw [parseexec]
      rcases hp : peek s [0x28] with ⟨_ | _, s₁⟩
      · exact Ends.bind (parseredirs_takes [] (peek_visits h hp) (by simp)) fun y hy =>
          parseargs_takes [] y.1 hy.1 (by simp) hy.2
      · exact ihb s₁ (peek_visits h hp)
    · rw [parseblock]
      rcases hp : peek s [0x28] with ⟨_ | _, s₁⟩
      · trivial
      refine Ends.bind (ihl _ (peek_visits h hp).gettoken) fun y hy => ?_
      dsimp only
      rcases hp' : peek y.2 [0x29] with ⟨_ | _, s₃⟩
      · trivial
      refine Ends.bind (parseredirs_takes [] (peek_visits hy.1 hp').gettoken (by simp)) fun z hz => ⟨hz.1, ?_⟩
      rw [words_redirs]
      exact fun w hw => (List.mem_append.mp hw).elim (hy.2 w) (hz.2 w)

theorem skip_suffix (s : List Byte) : skip s <:+ s := List.dropWhile_suffix _

theorem token_suffix (s : List Byte) : (token s).2 <:+ s := by
  unfold token
  split
  · exact List.suffix_refl []
  rename_i c s
  split
  · exact List.suffix_cons c s
  split
  · split
    · exact (List.suffix_cons _ _).trans (List.suffix_cons c _)
    · exact List.suffix_cons c _
  · exact List.dropWhile_suffix _

theorem Visits.suffix (h : Visits input s) : s <:+ input := by
  induction h with
  | start => exact List.suffix_refl input
  | peek h ih => exact (skip_suffix _).trans ih
  | gettoken h ih => exact ((skip_suffix _).trans ((token_suffix _).trans (skip_suffix _))).trans ih

theorem token_word (h : (token s).1 = .word) : (token s).2 = s.dropWhile isWord := by
  revert h
  unfold token
  split
  · intro h
    cases h
  rename_i c s
  split
  · rename_i k hk
    intro h
    obtain rfl : k = .word := h
    simp only [symbol] at hk
    split_ifs at hk
    all_goals cases hk
  split
  · split
    all_goals
      intro h
      cases h
  · intro _
    rfl

theorem word_of_token (h : IsToken input .word w) : w.q <:+ input ∧ w.eq = w.q.dropWhile isWord := by
  obtain ⟨-, s, s', hs, hg⟩ := h
  have hkind : (token (skip s)).1 = .word := congrArg Prod.fst hg
  obtain rfl : (⟨skip s, (token (skip s)).2⟩ : Span) = w := congrArg (·.2.1) hg
  exact ⟨(skip_suffix s).trans hs.suffix, token_word hkind⟩

theorem getElem?_place (h : p <:+ input) (i : Nat) : input[place input p + i]? = p[i]? := by
  rw [place, ← List.getElem?_drop, ← List.suffix_iff_eq_drop.mp h]

section

variable (h : IsToken input .word w)
include h

theorem text_eq : text w = w.q.takeWhile isWord := by
  obtain ⟨-, heq⟩ := word_of_token h
  rw [show w = ⟨w.q, w.q.dropWhile isWord⟩ by rw [← heq]]
  exact text_dropWhile isWord w.q

theorem text_length : place input w.q + (text w).length = place input w.eq := by
  obtain ⟨hq, heq⟩ := word_of_token h
  have hsplit : (w.q.takeWhile isWord).length + (w.q.dropWhile isWord).length = w.q.length := by
    rw [← List.length_append, List.takeWhile_append_dropWhile]
  have hle := hq.length_le
  rw [text_eq h, place, place, heq]
  omega

/-- The characters of a word are where its pointers say, and are no spaces and no symbols. -/
theorem text_getElem? (hi : i < (text w).length) :
    ∃ c, input[place input w.q + i]? = some c ∧ (text w)[i]? = some c ∧ isWord c = true := by
  obtain ⟨hq, -⟩ := word_of_token h
  rw [getElem?_place hq]
  rw [text_eq h] at hi ⊢
  have hmem := List.getElem_mem hi
  have hfirst := (List.takeWhile_prefix isWord).getElem hi
  exact ⟨(w.q.takeWhile isWord)[i], by rw [List.getElem?_eq_some_iff]; exact ⟨_, hfirst.symm⟩,
    List.getElem?_eq_getElem hi,
    List.mem_takeWhile_imp hmem⟩

/-- Past a word stands no character of a word. -/
theorem end_getElem? {c : Byte} (hc : input[place input w.eq]? = some c) : isWord c = false := by
  obtain ⟨hq, heq⟩ := word_of_token h
  have heq' : w.eq <:+ input := by
    rw [heq]
    exact (List.dropWhile_suffix _).trans hq
  have hhead := getElem?_place heq' 0
  rw [Nat.add_zero, hc, heq, ← List.head?_eq_getElem?] at hhead
  have hnot := List.head?_dropWhile_not isWord w.q
  rw [← hhead] at hnot
  simpa using hnot

end

/-- The end of a word is in no word. -/
theorem end_outside {v : Span} (hw : IsToken input .word w) (hv : IsToken input .word v) :
    ¬ (place input v.q ≤ place input w.eq ∧ place input w.eq < place input v.eq) := by
  rintro ⟨hle, hlt⟩
  have hlen := text_length hv
  obtain ⟨c, hc, -, hword⟩ := text_getElem? hv (i := place input w.eq - place input v.q) (by omega)
  rw [Nat.add_sub_cancel' hle] at hc
  rw [end_getElem? hw hc] at hword
  cases hword

theorem foldl_other {ps : List (List Byte)} (h : ∀ p ∈ ps, i ≠ n - p.length) :
    (ps.foldl (putNul n) buf)[i]? = buf[i]? := by
  induction ps generalizing buf with
  | nil => rfl
  | cons p ps ih =>
    obtain ⟨hp, hps⟩ := List.forall_mem_cons.mp h
    rw [List.foldl_cons, ih hps, putNul, List.getElem?_set_ne (Ne.symm hp)]

theorem foldl_nul {ps : List (List Byte)} (h : buf[i]? = some 0) : (ps.foldl (putNul n) buf)[i]? = some 0 := by
  induction ps generalizing buf with
  | nil => exact h
  | cons p ps ih =>
    refine ih ?_
    have hlt : i < buf.length := (List.getElem?_eq_some_iff.mp h).1
    rw [putNul, List.getElem?_set]
    split
    · rw [if_pos (by omega)]
    · exact h

theorem foldl_end {ps : List (List Byte)} (hp : p ∈ ps) (hn : n < buf.length) :
    (ps.foldl (putNul n) buf)[n - p.length]? = some 0 := by
  induction ps generalizing buf with
  | nil => cases hp
  | cons p' ps ih =>
    rcases List.mem_cons.mp hp with rfl | hp
    · have hset : (putNul n buf p)[n - p.length]? = some 0 := List.getElem?_set_self (by omega)
      rw [List.foldl_cons]
      exact foldl_nul hset
    · exact ih hp (by rw [putNul, List.length_set]; exact hn)

theorem stringAt_eq {t : List Byte} (h : ∀ j < t.length, buf[i + j]? = t[j]?) (hnul : (0 : Byte) ∉ t)
    (hend : buf[i + t.length]? = some 0) : stringAt buf i = t := by
  induction t generalizing i with
  | nil =>
    obtain ⟨hlt, hzero⟩ : ∃ hlt : i < buf.length, buf[i] = 0 := List.getElem?_eq_some_iff.mp hend
    rw [stringAt, List.drop_eq_getElem_cons hlt, List.takeWhile_cons_of_neg]
    simpa using hzero
  | cons c t ih =>
    rw [List.mem_cons, not_or] at hnul
    obtain ⟨hlt, hc⟩ : ∃ hlt : i < buf.length, buf[i] = c :=
      List.getElem?_eq_some_iff.mp (h 0 (Nat.zero_lt_succ _))
    have hrest : stringAt buf (i + 1) = t := by
      refine ih (fun j hj => ?_) hnul.2 ?_
      · rw [Nat.add_assoc, Nat.add_comm 1 j]
        exact h (j + 1) (Nat.succ_lt_succ hj)
      · rw [Nat.add_assoc, Nat.add_comm 1]
        exact hend
    rw [stringAt] at hrest
    rw [stringAt, List.drop_eq_getElem_cons hlt, hc, List.takeWhile_cons_of_pos
      (by simpa using Ne.symm hnul.1), hrest]

/-- After `parsecmd`, every word of the tree is a word of the line and can be read as a string at
its first pointer. NULs have been stored in the line or at its end only, and in no word of the line.
-/
theorem words_survive (buf : List Byte) (hnul : (0 : Byte) ∈ buf) (cmd : Cmd Span) (buf' : List Byte)
    (h : parsecmd buf = .ok (cmd, buf')) :
    let input := buf.takeWhile (· ≠ 0)
    (∀ w ∈ words cmd, IsToken input .word w ∧ stringAt buf' (place input w.q) = text w) ∧
    (∀ p ∈ cmd.ends, place input p ≤ input.length ∧
      ∀ w, IsToken input .word w → ¬ (place input w.q ≤ place input p ∧ place input p < place input w.eq)) ∧
    ∀ i, (∀ p ∈ cmd.ends, i ≠ place input p) → buf'[i]? = buf[i]? := by
  intro input
  have hsplit : input ++ buf.dropWhile (· ≠ 0) = buf := List.takeWhile_append_dropWhile
  have hlen : input.length < buf.length := by
    have hne : buf.dropWhile (· ≠ 0) ≠ [] := by
      rw [ne_eq, List.dropWhile_eq_nil_iff]
      intro hall
      simpa using hall 0 hnul
    have hpos := List.length_pos_of_ne_nil hne
    rw [← hsplit, List.length_append]
    omega
  have hline (i : Nat) (c : Byte) (hc : input[i]? = some c) : buf[i]? = some c ∧ c ≠ 0 := by
    obtain ⟨hi, rfl⟩ := List.getElem?_eq_some_iff.mp hc
    refine ⟨?_, by simpa using List.mem_takeWhile_imp (List.getElem_mem hi)⟩
    rw [← hsplit, List.getElem?_append_left hi, List.getElem?_eq_getElem hi]
  obtain ⟨hwords, rfl⟩ : (∀ w ∈ words cmd, IsToken input .word w) ∧ nulterminate input.length buf cmd = buf' := by
    have htakes := (parse_takes (4 * input.length + 4)).1 input .start
    rw [parsecmd_eq] at h
    obtain ⟨x, hx, h⟩ := bind_eq_ok.mp h
    rw [show parseline (4 * input.length + 4) input = .ok x from hx] at htakes
    split at h
    · cases h
      exact ⟨htakes.2, rfl⟩
    · cases h
  refine ⟨fun w hw => ⟨hwords w hw, ?_⟩, fun p hp => ⟨Nat.sub_le _ _, ?_⟩, fun i hi => foldl_other hi⟩
  · have htoken := hwords w hw
    have hmem : w.eq ∈ cmd.ends := by
      rw [ends_eq]
      exact List.mem_map_of_mem hw
    refine stringAt_eq (fun j hj => ?_) (fun hzero => ?_) ?_
    · obtain ⟨c, hc, htext, hword⟩ := text_getElem? htoken hj
      rw [htext, ← (hline _ c hc).1]
      refine foldl_other fun p hp hat => ?_
      rw [ends_eq, List.mem_map] at hp
      obtain ⟨v, hv, rfl⟩ := hp
      rw [hat] at hc
      rw [end_getElem? (hwords v hv) hc] at hword
      cases hword
    · obtain ⟨j, hj, hat⟩ := List.getElem_of_mem hzero
      obtain ⟨c, hc, htext, -⟩ := text_getElem? htoken hj
      rw [List.getElem?_eq_getElem hj, hat] at htext
      exact (hline _ c hc).2 (Option.some.inj htext).symm
    · rw [text_length htoken]
      exact foldl_end hmem hlen
  · rw [ends_eq, List.mem_map] at hp
    obtain ⟨v, hv, rfl⟩ := hp
    exact fun w hw => end_outside (hwords v hv) hw

/-- `a>b` and a NUL. -/
theorem words_survive_redir : ∃ cmd, parsecmd [0x61, 0x3e, 0x62, 0] = .ok (cmd, [0x61, 0, 0x62, 0]) ∧
    ∀ w ∈ words cmd, stringAt [0x61, 0, 0x62, 0] (place [0x61, 0x3e, 0x62] w.q) = text w := by
  have h : parsecmd [0x61, 0x3e, 0x62, 0] = .ok (.redir (.exec [⟨[0x61, 0x3e, 0x62], [0x3e, 0x62]⟩])
      ⟨⟨[0x62], []⟩, .wronlyCreate, 1⟩, [0x61, 0, 0x62, 0]) := by decide
  exact ⟨_, h, fun w hw => ((words_survive _ (by decide) _ _ h).1 w hw).2⟩

/-- In `a;b` the NUL after `a` takes the place of the semicolon, which is a token too. -/
theorem nul_on_a_symbol : ∃ buf cmd buf' w p, (0 : Byte) ∈ buf ∧ parsecmd buf = .ok (cmd, buf') ∧
    IsToken (buf.takeWhile (· ≠ 0)) .semi w ∧ p ∈ cmd.ends ∧
    place (buf.takeWhile (· ≠ 0)) w.q ≤ place (buf.takeWhile (· ≠ 0)) p ∧
    place (buf.takeWhile (· ≠ 0)) p < place (buf.takeWhile (· ≠ 0)) w.eq := by
  have h : parsecmd [0x61, 0x3b, 0x62, 0] = .ok (.list (.exec [⟨[0x61, 0x3b, 0x62], [0x3b, 0x62]⟩])
      (.exec [⟨[0x62], []⟩]), [0x61, 0, 0x62, 0]) := by decide
  refine ⟨_, _, _, ⟨[0x3b, 0x62], [0x62]⟩, [0x3b, 0x62], by decide, h, ?_, by decide, by decide, by decide⟩
  exact ⟨by decide, [0x3b, 0x62], [0x62], Visits.start.of_gettoken rfl, rfl⟩

end Xv6.ShellStrings
