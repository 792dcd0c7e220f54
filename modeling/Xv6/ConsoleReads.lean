import Xv6.ConsoleLines

/-!
# What the reads return

Over any run without a `kill`: the log followed by the unread part of the ring is what the editor
has committed, and each read that has returned got the bytes the log names it for. A ^D is taken by
one read, which returns no byte. A read that has bytes when it comes to a ^D returns them and leaves
the ^D to a later one.
-/
namespace Xv6.Console

open Words Interleaving RingBuffer Function

variable {s s' : State} {a : Act}

def entries (log : List (Nat × Byte)) (id : Nat) : List Byte := (log.filter (fun x => x.1 = id)).map Prod.snd

theorem entries_append (log log' : List (Nat × Byte)) (id : Nat) :
    entries (log ++ log') id = entries log id ++ entries log' id := by
  simp [entries]

theorem entries_map (bs : List Byte) (id id' : Nat) :
    entries (bs.map (fun b => (id, b))) id' = if id = id' then bs else [] := by
  by_cases h : id = id'
  · simp [entries, List.filter_map, comp_def, h]
  · simp [entries, List.filter_map, comp_def, h]

theorem entries_takenBy (id id' : Nat) (got got' : List Byte) (ending : Ending) :
    entries (takenBy id got got' ending) id' =
      if id = id' then got'.drop got.length ++ (if ending = .eof then [ctrlD] else []) else [] :=
  entries_map _ id id'

theorem snd_takenBy (id : Nat) (got got' : List Byte) (ending : Ending) :
    (takenBy id got got' ending).map Prod.snd = got'.drop got.length ++
    (if ending = .eof then [ctrlD] else []) := by
  simp [takenBy, comp_def]

/-- A read that has returned: what it took, and why it stopped where it did. -/
structure Served (committed : List Byte) (log : List (Nat × Byte)) (ρ : Result) : Prop where
  took : entries log ρ.id = ρ.bytes ++ if ρ.ending = .eof then [ctrlD] else []
  plain : ctrlD ∉ ρ.bytes
  length : ρ.bytes.length ≤ ρ.target
  full : ρ.ending = .full → ρ.bytes.length = ρ.target
  ended : ρ.ending = .newline → ∃ front, ρ.bytes = front ++ [newline]
  lines : newline ∉ ρ.bytes.dropLast
  eof : ρ.ending = .eof → ρ.bytes = []
  held : ρ.ending = .held → ρ.bytes ≠ [] ∧ committed[ρ.pos]? = some ctrlD
  returned : ρ.ending ≠ .asleep ∧ ρ.ending ≠ .failed

structure Waiting (s : State) (id target : Nat) (got : List Byte) : Prop where
  took : entries s.log id = got
  plain : ctrlD ∉ got
  lines : newline ∉ got
  length : got.length ≤ target
  started : id < s.calls
  unfinished : ∀ ρ ∈ s.results, ρ.id ≠ id

def unread (s : State) : List Byte := s.editor.committed.drop s.log.length

structure Inv (s : State) : Prop where
  stream : s.log.map Prod.snd ++ unread s = s.editor.committed
  edits : Edits s.input s.editor (unread s)
  waiting : ∀ p id target got asleep, s.procs p = .reading id target got asleep → Waiting s id target got
  apart : ∀ p q id t t' g g' b b', s.procs p = .reading id t g b → s.procs q = .reading id t' g' b' → p = q
  served : ∀ ρ ∈ s.results, Served s.editor.committed s.log ρ
  once : (s.results.map Result.id).Nodup
  eof : ∀ id, (id, ctrlD) ∈ s.log → ∃ ρ ∈ s.results, ρ.id = id ∧ ρ.ending = .eof
  logged : ∀ x ∈ s.log, x.1 < s.calls
  numbered : ∀ ρ ∈ s.results, ρ.id < s.calls
  alive : ∀ p, s.killed p = false

theorem init_inv : Inv init := by
  constructor <;> simp [init, unread]
  constructor
  · constructor <;> simp [inputBuf]
  · simp

theorem Inv.log_le (h : Inv s) : s.log.length ≤ s.editor.committed.length := by
  rw [← h.stream]
  simp

/-- A result stands while the log grows by bytes of other reads. -/
theorem Served.mono {committed : List Byte} {log log' : List (Nat × Byte)} {ρ : Result}
    (h : Served committed log ρ) (more : List Byte) (hlog : entries log' ρ.id = []) :
    Served (committed ++ more) (log ++ log') ρ where
  took := by rw [entries_append, hlog, List.append_nil, h.took]
  plain := h.plain
  length := h.length
  full := h.full
  ended := h.ended
  lines := h.lines
  eof := h.eof
  held he := by
    obtain ⟨hne, hpos⟩ := h.held he
    have hlt : ρ.pos < committed.length := (List.getElem?_eq_some_iff.mp hpos).1
    exact ⟨hne, by rw [List.getElem?_append_left hlt, hpos]⟩
  returned := h.returned

theorem wake_reading {pc : Pc} {id target : Nat} {got : List Byte} {asleep : Bool}
    (h : pc.wake = .reading id target got asleep) : ∃ asleep', pc = .reading id target got asleep' := by
  cases pc with
  | user => simp [Pc.wake] at h
  | reading id' target' got' asleep' =>
    simp only [Pc.wake, Pc.reading.injEq] at h
    obtain ⟨rfl, rfl, rfl, -⟩ := h
    exact ⟨asleep', rfl⟩

theorem intr_inv (h : Inv s) (c : Byte) (hs : next s (.intr c) = some s') : Inv s' := by
  simp only [next, Option.some.injEq] at hs
  obtain ⟨new, hcom, hedits⟩ := consoleintr_edits h.edits c
  have hlen : (unread s).length = s.editor.committed.length - s.log.length := by simp [unread]
  rw [hlen] at hcom hedits
  have hprocs (p id target : Nat) (got : List Byte) (asleep : Bool)
    (hp : s'.procs p = .reading id target got asleep) :
      ∃ asleep', s.procs p = .reading id target got asleep' := by
    subst hs
    dsimp only at hp
    split at hp
    · exact wake_reading hp
    · exact ⟨asleep, hp⟩
  have hunread : unread s' = unread s ++ new := by
    subst hs
    simp only [unread, hcom]
    rw [List.drop_append_of_le_length h.log_le]
  have hstream : s'.log.map Prod.snd ++ unread s' = s'.editor.committed := by
    subst hs
    rw [hunread, ← List.append_assoc, h.stream, hcom]
  refine ⟨hstream, ?_, ?_, ?_, ?_, ?_, ?_, ?_, ?_, ?_⟩
  · rw [hunread]
    subst hs
    exact hedits
  · intro p id target got asleep hp
    obtain ⟨asleep', hp'⟩ := hprocs p id target got asleep hp
    obtain ⟨took, plain, lines, length, started, unfinished⟩ := h.waiting p id target got asleep' hp'
    subst hs
    exact ⟨took, plain, lines, length, started, unfinished⟩
  · intro p q id t t' g g' b b' hp hq
    obtain ⟨_, hp'⟩ := hprocs _ _ _ _ _ hp
    obtain ⟨_, hq'⟩ := hprocs _ _ _ _ _ hq
    exact h.apart p q id t t' g g' _ _ hp' hq'
  · intro ρ hρ
    subst hs
    have hserved := (h.served ρ hρ).mono new (rfl : entries [] ρ.id = [])
    rwa [List.append_nil, ← hcom] at hserved
  all_goals subst hs
  · exact h.once
  · exact h.eof
  · exact h.logged
  · exact h.numbered
  · exact h.alive

theorem call_inv (h : Inv s) {p : Nat} {n : Int} (hs : next s (.call p n) = some s') : Inv s' := by
  simp only [next] at hs
  split at hs
  case h_2 => cases hs
  case h_1 hp =>
    rw [Option.some.injEq] at hs
    subst hs
    have hfresh : entries s.log s.calls = [] := by
      rw [entries, List.map_eq_nil_iff, List.filter_eq_nil_iff]
      intro x hx
      simpa using (h.logged x hx).ne
    refine ⟨h.stream, h.edits, ?_, ?_, h.served, h.once, h.eof, fun x hx => Nat.lt_succ_of_lt (h.logged x hx),
      fun ρ hρ => Nat.lt_succ_of_lt (h.numbered ρ hρ), h.alive⟩
    · intro q id target got asleep hq
      by_cases hqp : q = p
      · subst hqp
        simp only [update_self, Pc.reading.injEq] at hq
        obtain ⟨rfl, rfl, rfl, -⟩ := hq
        exact ⟨hfresh, by simp, by simp, by simp, Nat.lt_succ_self _, fun ρ hρ => (h.numbered ρ hρ).ne⟩
      · simp only [update_of_ne hqp] at hq
        obtain ⟨took, plain, lines, length, started, unfinished⟩ := h.waiting q id target got asleep hq
        exact ⟨took, plain, lines, length, Nat.lt_succ_of_lt started, unfinished⟩
    · intro q q' id t t' g g' b b' hq hq'
      have hold (q : Nat) (t : Nat) (g : List Byte) (b : Bool) (hqp : q ≠ p)
          (hq : update s.procs p (.reading s.calls n.toNat [] false) q = .reading id t g b) : id < s.calls := by
        rw [update_of_ne hqp] at hq
        exact (h.waiting q id t g b hq).started
      have hnew (q : Nat) (t : Nat) (g : List Byte) (b : Bool) (hqp : q = p)
          (hq : update s.procs p (.reading s.calls n.toNat [] false) q = .reading id t g b) : id = s.calls := by
        subst hqp
        simp only [update_self, Pc.reading.injEq] at hq
        exact hq.1.symm
      by_cases hqp : q = p <;> by_cases hqp' : q' = p
      · rw [hqp, hqp']
      · exact absurd (hnew q t g b hqp hq) (hold q' t' g' b' hqp' hq').ne
      · exact absurd (hnew q' t' g' b' hqp' hq') (hold q t g b hqp hq).ne
      · simp only [update_of_ne hqp, update_of_ne hqp'] at hq hq'
        exact h.apart q q' id t t' g g' b b' hq hq'

section Run

variable {p id target : Nat} {got got' chunk rest : List Byte} {input : Input} {ending : Ending} {killed : Bool}

/-- A section that returns or goes to sleep, with what it takes. -/
theorem consoleread_section (h : Inv s) (p id target : Nat) (got : List Byte) :
    ∃ input got' ending chunk rest,
      Section false target (target - got.length) (unread s) s.editor.line got input got' ending chunk rest ∧
      ((ending = .asleep ∧ consoleread s p id target got =
          { s with input := input, log := s.log ++ takenBy id got got' ending,
                   procs := update s.procs p (.reading id target got' true) }) ∨
        (ending ≠ .asleep ∧ ending ≠ .failed ∧ consoleread s p id target got =
          { s with input := input, log := s.log ++ takenBy id got got' ending,
                   procs := update s.procs p .user,
                   results := s.results ++ [⟨id, target, got', ending,
                     (s.log ++ takenBy id got got' ending).length⟩] })) := by
  obtain ⟨input, got', ending, chunk, rest, hloop, hsec⟩ :=
    readLoop_section false target (target - got.length) h.edits.holds got
  refine ⟨input, got', ending, chunk, rest, hsec, ?_⟩
  have hfailed : ending ≠ .failed := fun he => by simpa using hsec.failed he
  simp only [consoleread, h.alive p, hloop]
  cases ending with
  | failed => exact absurd rfl hfailed
  | asleep => exact .inl ⟨rfl, rfl⟩
  | full | newline | eof | held => exact .inr ⟨by simp, by simp, rfl⟩

theorem Section.drop (h : Section killed target (target - got.length)
    (unread s) s.editor.line got input got' ending chunk rest) :
    got'.drop got.length = chunk := by
  rw [h.got, List.drop_left]

theorem Section.stream (hs : Inv s) (id : Nat)
    (h : Section killed target (target - got.length) (unread s) s.editor.line got input got' ending chunk rest) :
    (s.log ++ takenBy id got got' ending).map Prod.snd ++ rest = s.editor.committed := by
  rw [List.map_append, snd_takenBy, h.drop, List.append_assoc, ← h.taken, hs.stream]

theorem Section.left (hs : Inv s) (id : Nat)
    (h : Section killed target (target - got.length) (unread s) s.editor.line got input got' ending chunk rest) :
    s.editor.committed.drop (s.log ++ takenBy id got got' ending).length = rest := by
  have hdrop := @List.drop_left _ ((s.log ++ takenBy id got got' ending).map Prod.snd) rest
  rwa [h.stream hs id, List.length_map] at hdrop

theorem Section.took (hw : Waiting s id target got)
    (h : Section killed target (target - got.length) (unread s) s.editor.line got input got' ending chunk rest) :
    entries (s.log ++ takenBy id got got' ending) id = got' ++ if ending = .eof then [ctrlD] else [] := by
  rw [entries_append, hw.took, entries_takenBy, if_pos rfl, h.drop, h.got, List.append_assoc]

/-- The read that returns is served. -/
theorem Section.served (hs : Inv s) (hw : Waiting s id target got)
    (h : Section killed target (target - got.length) (unread s) s.editor.line got input got' ending chunk rest)
    (hasleep : ending ≠ .asleep) (hfailed : ending ≠ .failed) :
    Served s.editor.committed (s.log ++ takenBy id got got' ending)
      ⟨id, target, got', ending, (s.log ++ takenBy id got got' ending).length⟩ where
  took := h.took hw
  plain := by simp [h.got, hw.plain, h.plain]
  length := by
    have := h.length
    have := hw.length
    simp only [h.got, List.length_append]
    omega
  full he := by
    have := h.full he
    have := hw.length
    simp only [h.got, List.length_append]
    omega
  ended he := by
    obtain ⟨front, rfl, -⟩ := h.ended he
    exact ⟨got ++ front, by simp [h.got]⟩
  lines := by
    by_cases he : ending = .newline
    · obtain ⟨front, rfl, hfront⟩ := h.ended he
      simp only [h.got, ← List.append_assoc, List.dropLast_concat, List.mem_append, not_or]
      exact ⟨hw.lines, hfront⟩
    · intro hmem
      have hmem' := List.dropLast_subset _ hmem
      simp only [h.got, List.mem_append] at hmem'
      exact hmem'.elim hw.lines (h.others he)
  eof he := by
    have := h.eof he
    have := hw.length
    rw [← List.length_eq_zero_iff]
    simp only [h.got, List.length_append]
    omega
  held he := by
    obtain ⟨hshort, rest', rfl⟩ := h.held he
    have hlen := hw.length
    refine ⟨?_, ?_⟩
    · rw [← List.length_pos_iff]
      simp only [h.got, List.length_append]
      omega
    · rw [← List.head?_drop, h.left hs id]
      rfl
  returned := ⟨hasleep, hfailed⟩

theorem mem_takenBy {x : Nat × Byte} (hx : x ∈ takenBy id got got' ending) : x.1 = id := by
  obtain ⟨b, -, rfl⟩ := List.mem_map.mp hx
  rfl

/-- The section takes a ^D only where it ends with it. -/
theorem Section.ctrlD_mem {id' : Nat}
    (h : Section killed target (target - got.length) (unread s) s.editor.line got input got' ending chunk rest)
    (hx : (id', ctrlD) ∈ takenBy id got got' ending) : id' = id ∧ ending = .eof := by
  refine ⟨mem_takenBy hx, ?_⟩
  obtain ⟨b, hb, he⟩ := List.mem_map.mp hx
  obtain rfl : b = ctrlD := congrArg Prod.snd he
  rw [h.drop, List.mem_append] at hb
  rcases hb with hb | hb
  · exact absurd hb h.plain
  · by_contra hne
    rw [if_neg hne] at hb
    cases hb

/-- What a process with another read keeps. -/
theorem Waiting.other {id' target' : Nat} {got₀ : List Byte} {t : State}
    (h : Waiting s id' target' got₀) (hne : id ≠ id')
    (hlog : t.log = s.log ++ takenBy id got got' ending) (hcalls : t.calls = s.calls)
    (hres : ∀ ρ ∈ t.results, ρ ∈ s.results ∨ ρ.id = id) : Waiting t id' target' got₀ where
  took := by rw [hlog, entries_append, entries_takenBy, if_neg hne, List.append_nil, h.took]
  plain := h.plain
  lines := h.lines
  length := h.length
  started := hcalls ▸ h.started
  unfinished ρ hρ := by
    rcases hres ρ hρ with hold | hnew
    · exact h.unfinished ρ hold
    · rw [hnew]
      exact hne

/-- The processes after a section: the one that ran reads on with its number, or is out. -/
theorem apart_update (h : Inv s) (hp : s.procs p = .reading id target got false) {pc : Pc}
    (hpc : ∀ id' t g b, pc = .reading id' t g b → id' = id) (q q' id' t t' : Nat) (g g' : List Byte) (b b' : Bool)
    (hq : update s.procs p pc q = .reading id' t g b)
    (hq' : update s.procs p pc q' = .reading id' t' g' b') : q = q' := by
  have hbefore (q t : Nat) (g : List Byte) (b : Bool) (hq : update s.procs p pc q = .reading id' t g b) :
      ∃ t g b, s.procs q = .reading id' t g b := by
    by_cases hqp : q = p
    · subst hqp
      rw [update_self] at hq
      rw [hpc id' t g b hq]
      exact ⟨_, _, _, hp⟩
    · rw [update_of_ne hqp] at hq
      exact ⟨t, g, b, hq⟩
  obtain ⟨_, _, _, h₁⟩ := hbefore q t g b hq
  obtain ⟨_, _, _, h₂⟩ := hbefore q' t' g' b' hq'
  exact h.apart _ _ _ _ _ _ _ _ _ h₁ h₂

theorem Inv.others (h : Inv s) (hp : s.procs p = .reading id target got false) {q id' target' : Nat}
    {g : List Byte} {b : Bool}
    (hqp : q ≠ p) (hq : s.procs q = .reading id' target' g b) : id ≠ id' := by
  rintro rfl
  exact hqp (h.apart _ _ _ _ _ _ _ _ _ hq hp)

theorem Inv.served_after (h : Inv s) (hw : Waiting s id target got) (got' : List Byte) (ending : Ending) :
    ∀ ρ ∈ s.results, Served s.editor.committed (s.log ++ takenBy id got got' ending) ρ := by
  intro ρ hρ
  have hnone : entries (takenBy id got got' ending) ρ.id = [] := by
    rw [entries_takenBy, if_neg (Ne.symm (hw.unfinished ρ hρ))]
  have hmono := (h.served ρ hρ).mono [] hnone
  rwa [List.append_nil] at hmono

theorem Inv.logged_after (h : Inv s) (hw : Waiting s id target got) (got' : List Byte) (ending : Ending) :
    ∀ x ∈ s.log ++ takenBy id got got' ending, x.1 < s.calls := by
  intro x hx
  rcases List.mem_append.mp hx with hx | hx
  · exact h.logged x hx
  · rw [mem_takenBy hx]
    exact hw.started

/-- The read goes on, with the bytes it has taken so far. -/
theorem Waiting.asleep (h : Waiting s id target got)
    (hsec : Section killed target (target - got.length) (unread s) s.editor.line got input got' .asleep chunk rest)
    {t : State} (hlog : t.log = s.log ++ takenBy id got got' .asleep) (hcalls : t.calls = s.calls)
    (hres : t.results = s.results) : Waiting t id target got' where
  took := by
    rw [hlog, hsec.took h, if_neg (by simp), List.append_nil]
  plain := by simp [hsec.got, h.plain, hsec.plain]
  lines := by simp [hsec.got, h.lines, hsec.others (by simp)]
  length := by
    have := hsec.length
    have := h.length
    simp only [hsec.got, List.length_append]
    omega
  started := hcalls ▸ h.started
  unfinished := hres ▸ h.unfinished

theorem asleep_inv (h : Inv s) (hp : s.procs p = .reading id target got false)
    (hsec : Section killed target (target - got.length)
      (unread s) s.editor.line got input got' .asleep chunk rest) :
    Inv { s with input := input, log := s.log ++ takenBy id got got' .asleep,
                 procs := update s.procs p (.reading id target got' true) } where
  stream := by
    rw [unread, hsec.left h id]
    exact hsec.stream h id
  edits := by
    rw [unread, hsec.left h id]
    exact ⟨hsec.holds, h.edits.plain⟩
  waiting q id' target' g b hq := by
    by_cases hqp : q = p
    · subst hqp
      simp only [update_self, Pc.reading.injEq] at hq
      obtain ⟨rfl, rfl, rfl, -⟩ := hq
      exact (h.waiting q id target got false hp).asleep hsec rfl rfl rfl
    · simp only [update_of_ne hqp] at hq
      exact (h.waiting q id' target' g b hq).other (h.others hp hqp hq) rfl rfl (fun ρ hρ => .inl hρ)
  apart := by
    apply apart_update h hp
    rintro id' t g b ⟨⟩
    rfl
  served := h.served_after (h.waiting p id target got false hp) got' .asleep
  once := h.once
  eof id' hmem := by
    rcases List.mem_append.mp hmem with hmem | hmem
    · exact h.eof id' hmem
    · cases (hsec.ctrlD_mem hmem).2
  logged := h.logged_after (h.waiting p id target got false hp) got' .asleep
  numbered := h.numbered
  alive := h.alive

theorem return_inv (h : Inv s) (hp : s.procs p = .reading id target got false)
    (hsec : Section killed target (target - got.length) (unread s) s.editor.line got input got' ending chunk rest)
    (hasleep : ending ≠ .asleep) (hfailed : ending ≠ .failed) :
    Inv { s with input := input, log := s.log ++ takenBy id got got' ending,
                 procs := update s.procs p .user,
                 results := s.results ++ [⟨id, target, got', ending,
                   (s.log ++ takenBy id got got' ending).length⟩] } where
  stream := by
    rw [unread, hsec.left h id]
    exact hsec.stream h id
  edits := by
    rw [unread, hsec.left h id]
    exact ⟨hsec.holds, h.edits.plain⟩
  waiting q id' target' g b hq := by
    by_cases hqp : q = p
    · subst hqp
      simp at hq
    · simp only [update_of_ne hqp] at hq
      refine (h.waiting q id' target' g b hq).other (h.others hp hqp hq) rfl rfl ?_
      intro ρ hρ
      rcases List.mem_append.mp hρ with hρ | hρ
      · exact .inl hρ
      · exact .inr (by rw [List.mem_singleton.mp hρ])
  apart := apart_update h hp (by simp)
  served ρ hρ := by
    have hw := h.waiting p id target got false hp
    rcases List.mem_append.mp hρ with hρ | hρ
    · exact h.served_after hw got' ending ρ hρ
    · rw [List.mem_singleton.mp hρ]
      exact hsec.served h hw hasleep hfailed
  once := by
    rw [List.map_append, List.nodup_append]
    refine ⟨h.once, by simp, ?_⟩
    intro x hx y hy
    obtain ⟨ρ, hρ, rfl⟩ := List.mem_map.mp hx
    rw [List.map_singleton, List.mem_singleton] at hy
    rw [hy]
    exact (h.waiting p id target got false hp).unfinished ρ hρ
  eof id' hmem := by
    rcases List.mem_append.mp hmem with hmem | hmem
    · obtain ⟨ρ, hρ, hid⟩ := h.eof id' hmem
      exact ⟨ρ, List.mem_append_left _ hρ, hid⟩
    · obtain ⟨rfl, rfl⟩ := hsec.ctrlD_mem hmem
      exact ⟨_, List.mem_append_right _ (List.mem_singleton_self _), rfl, rfl⟩
  logged := h.logged_after (h.waiting p id target got false hp) got' ending
  numbered ρ hρ := by
    rcases List.mem_append.mp hρ with hρ | hρ
    · exact h.numbered ρ hρ
    · rw [List.mem_singleton.mp hρ]
      exact (h.waiting p id target got false hp).started
  alive := h.alive

theorem run_inv (h : Inv s) (hs : next s (.run p) = some s') : Inv s' := by
  simp only [next] at hs
  split at hs
  case h_2 => cases hs
  case h_1 id target got hp =>
    rw [Option.some.injEq] at hs
    obtain ⟨input, got', ending, chunk, rest, hsec, ⟨rfl, hread⟩ | ⟨hasleep, hfailed, hread⟩⟩ :=
      consoleread_section h p id target got
    · rw [← hs, hread]
      exact asleep_inv h hp hsec
    · rw [← hs, hread]
      exact return_inv h hp hsec hasleep hfailed

end Run

theorem step_inv (h : Inv s) (hok : Spared s a) (hs : next s a = some s') : Inv s' := by
  cases a with
  | intr c => exact intr_inv h c hs
  | call p n => exact call_inv h hs
  | run p => exact run_inv h hs
  | kill p => exact hok.elim

/-- The indices, the ring and the reads, against the editor. -/
structure LineDiscipline (s : State) : Prop where
  /-- `r ≤ w ≤ e ≤ r + INPUT_BUF`, counted from `r`. -/
  indices : count s.input.r s.input.w ≤ count s.input.r s.input.e ∧ count s.input.r s.input.e ≤ inputBuf
  stream : s.log.map Prod.snd ++ window inputBuf s.input.buf s.input.r (count s.input.r s.input.w) =
    s.editor.committed
  line : window inputBuf s.input.buf s.input.w (count s.input.w s.input.e) = s.editor.line
  served : ∀ ρ ∈ s.results, Served s.editor.committed s.log ρ
  waiting : ∀ p id target got asleep, s.procs p = .reading id target got asleep → Waiting s id target got
  once : (s.results.map Result.id).Nodup
  eof : ∀ id, (id, ctrlD) ∈ s.log → ∃ ρ ∈ s.results, ρ.id = id ∧ ρ.ending = .eof ∧ ρ.bytes = []

theorem Inv.lineDiscipline (h : Inv s) : LineDiscipline s where
  indices := by
    rw [h.edits.holds.count_w, h.edits.holds.count_e]
    exact ⟨Nat.le_add_right _ _, h.edits.holds.room⟩
  stream := by
    rw [h.edits.holds.count_w, h.edits.holds.windows.1, h.stream]
  line := by
    rw [h.edits.holds.count_line, h.edits.holds.windows.2]
  served := h.served
  waiting := h.waiting
  once := h.once
  eof id hmem := by
    obtain ⟨ρ, hρ, hid, he⟩ := h.eof id hmem
    exact ⟨ρ, hρ, hid, he, (h.served ρ hρ).eof he⟩

theorem Inv.grows (h : Inv s) (hs : next s a = some s') :
    s.editor.committed <+: s'.editor.committed ∧ s.log <+: s'.log := by
  cases a with
  | intr c =>
    simp only [next, Option.some.injEq] at hs
    obtain ⟨new, hcom, -⟩ := consoleintr_edits h.edits c
    rw [show (unread s).length = s.editor.committed.length - s.log.length by simp [unread]] at hcom
    subst hs
    exact ⟨⟨new, hcom.symm⟩, List.prefix_rfl⟩
  | call p n =>
    simp only [next] at hs
    split at hs
    · obtain rfl := Option.some.inj hs
      exact ⟨List.prefix_rfl, List.prefix_rfl⟩
    · cases hs
  | run p =>
    simp only [next] at hs
    split at hs
    case h_2 => cases hs
    case h_1 id target got _ =>
      obtain ⟨_, _, _, _, _, -, ⟨-, hread⟩ | ⟨-, -, hread⟩⟩ := consoleread_section h p id target got
      all_goals
        rw [hread] at hs
        obtain rfl := Option.some.inj hs
        exact ⟨List.prefix_rfl, List.prefix_append _ _⟩
  | kill p =>
    obtain rfl := Option.some.inj hs
    exact ⟨List.prefix_rfl, List.prefix_rfl⟩

/-- In every run without a `kill` the buffer follows the editor and the reads return what is
committed. -/
theorem line_discipline (h : Reach system Spared s) :
    LineDiscipline s ∧ ∀ a s', next s a = some s' → s.editor.committed <+: s'.editor.committed ∧
    s.log <+: s'.log := by
  have hinv : Inv s := h.invariant (fun _ hinit => hinit ▸ init_inv) (fun _ _ _ hI hok hs => step_inv hI hok hs)
  exact ⟨hinv.lineDiscipline, fun a s' hs => hinv.grows hs⟩

theorem reach_run (acts : List Act) (h : Reach system Spared s) (hok : ∀ a ∈ acts, ∀ s, Spared s a)
    (hs : acts.foldlM next s = some s') : Reach system Spared s' := by
  induction acts generalizing s with
  | nil =>
    obtain rfl := Option.some.inj hs
    exact h
  | cons a acts ih =>
    rw [List.foldlM_cons, Option.bind_eq_bind, Option.bind_eq_some_iff] at hs
    obtain ⟨s₁, hs₁, hrest⟩ := hs
    exact ih (.step h (hok a (by simp) s) hs₁) (fun b hb => hok b (by simp [hb])) hrest

def eofActs : List Act := [.intr 0x61, .intr ctrlD, .call 0 10, .run 0, .call 1 10, .run 1]

def afterEof : State := (eofActs.foldlM next init).getD init

theorem reach_afterEof : Reach system Spared afterEof := by
  apply reach_run eofActs (.init rfl)
  · simp [eofActs, Spared]
  · rfl

theorem line_discipline_afterEof : LineDiscipline afterEof := (line_discipline reach_afterEof).1

/-- One ^D ends two reads short: the first returns the `a`, the second nothing. -/
theorem eof_ends_two_reads : ∃ s, Reach system Spared s ∧ s.editor.committed = [0x61, ctrlD] ∧
    s.results = [⟨0, 10, [0x61], .held, 1⟩, ⟨1, 10, [], .eof, 2⟩] :=
  ⟨afterEof, reach_afterEof, by decide, by decide⟩

end Xv6.Console
