import Xv6.IdeQueue

/-!
# Calls of `iderw`

A call puts its buffer at the end of the queue and starts the device where the queue was empty. With
the steps of the device, the interrupt and the processes that wait this gives every run.
-/
namespace Xv6.Ide

open Interleaving LinkedQueue RedoLog Function

variable {nbuf : Nat} {havedisk1 : Bool} {s s' : State} {xs : List Nat} {p q b b' : Nat} {asleep asleep' : Bool}
  {orig orig' : Buf} {before before' : Block} {a : Act}

namespace Inv

/-- The caller of `iderw(b)` and no one else has to do with `b`. -/
theorem not_waiting (h : Inv nbuf s xs) (hp : s.procs p = .user) (hlock : (s.bufs b).lock = some p)
    (q : Nat) (asleep : Bool)
    (orig : Buf) (before : Block) : s.procs q ≠ .waiting b asleep orig before := by
  intro hq
  have hlock' := (h.held q b asleep orig before hq).1
  rw [hlock, Option.some.injEq] at hlock'
  subst hlock'
  rw [hp] at hq
  cases hq

def joined (s : State) (p b : Nat) (queue : Queue Nat) (device : Device) (started : List Nat) : State :=
  { s with
    queue := queue
    appended := s.appended ++ [b]
    device := device
    started := started
    procs := update s.procs p (.waiting b true (s.bufs b) (s.disk (s.bufs b).address)) }

theorem joined_waiting {queue : Queue Nat} {device : Device} {started : List Nat}
    (h : (joined s p b queue device started).procs q = .waiting b' asleep orig before) :
    (q = p ∧ b' = b ∧ orig = s.bufs b ∧ before = s.disk (s.bufs b).address) ∨
      (q ≠ p ∧ s.procs q = .waiting b' asleep orig before) := by
  by_cases hqp : q = p
  · subst hqp
    simp only [joined, update_self, Pc.waiting.injEq] at h
    exact .inl ⟨rfl, h.1.symm, h.2.2.1.symm, h.2.2.2.symm⟩
  · simp only [joined, update_of_ne hqp] at h
    exact .inr ⟨hqp, h⟩

section

variable (h : Inv nbuf s xs) (hp : s.procs p = .user) (hproper : Proper nbuf s (.call p b))
  (hready : (s.bufs b).ready = false)
include h hp hproper hready

theorem join {queue : Queue Nat} (hchain : Chain queue (xs ++ [b])) (device : Device)
    (hnil : xs = [] → ∀ c data, device ≠ .done c data) (hcons : xs ≠ [] → device = s.device)
    (hwork : Working (joined s p b queue device (s.finished ++ (xs ++ [b]).take 1)) (xs ++ [b])) :
    Inv nbuf (joined s p b queue device (s.finished ++ (xs ++ [b]).take 1)) (xs ++ [b]) := by
  obtain ⟨hlt, hlock, honDisk, hfar⟩ := hproper
  have hfree := h.not_waiting hp hlock
  have hmem : b ∉ xs := by
    intro hb
    obtain ⟨q, asleep, orig, before, hq⟩ := h.owned b hb
    exact hfree q asleep orig before hq
  have hhead : (xs ++ [b]).head? = some b → xs = [] := by
    cases xs with
    | nil => exact fun _ => rfl
    | cons x xs =>
      intro he
      obtain rfl := Option.some.inj he
      exact absurd (by simp) hmem
  refine ⟨hchain, ?_, ?_, rfl, hwork, ?_, ?_, ?_, ?_, ?_⟩
  · rw [List.nodup_append]
    exact ⟨h.nodup, List.nodup_singleton b, fun x hx y hy =>
      (List.mem_singleton.mp hy) ▸ ne_of_mem_of_not_mem hx hmem⟩
  · simp only [joined, h.appended, List.append_assoc]
  · intro q b' asleep orig before hq
    rcases joined_waiting hq with ⟨rfl, rfl, -, -⟩ | ⟨-, hq'⟩
    · exact ⟨hlock, hlt⟩
    · exact h.held q b' asleep orig before hq'
  · intro b' hb'
    rcases List.mem_append.mp hb' with hb' | hb'
    · obtain ⟨q, asleep, orig, before, hq⟩ := h.owned b' hb'
      have hqp : q ≠ p := by
        rintro rfl
        rw [hp] at hq
        cases hq
      exact ⟨q, asleep, orig, before, (update_of_ne hqp _ _).trans hq⟩
    · rw [List.mem_singleton.mp hb']
      exact ⟨p, true, _, _, update_self _ _ _⟩
  · intro q q' b₁ b₂ a₁ a₂ o₁ o₂ d₁ d₂ hq hq' hne
    rcases joined_waiting hq with ⟨rfl, rfl, -, -⟩ | ⟨-, h₁⟩ <;>
      rcases joined_waiting hq' with ⟨rfl, rfl, -, -⟩ | ⟨-, h₂⟩
    · exact absurd rfl hne
    · exact (hfar q' b₂ a₂ o₂ d₂ h₂).symm
    · exact hfar q b₁ a₁ o₁ d₁ h₁
    · exact h.apart q q' b₁ b₂ a₁ a₂ o₁ o₂ d₁ d₂ h₁ h₂ hne
  · intro q b' asleep orig before hq hb'
    rcases joined_waiting hq with ⟨rfl, rfl, rfl, rfl⟩ | ⟨-, hq'⟩
    · exact ⟨rfl, hready, honDisk, fun _ => rfl, fun hhd c data hd => absurd hd (hnil (hhead hhd) c data)⟩
    · have hne : b' ≠ b := by
        rintro rfl
        exact hfree q asleep orig before hq'
      have hb'' : b' ∈ xs := by simpa [hne] using hb'
      have hxs : xs ≠ [] := List.ne_nil_of_mem hb''
      obtain ⟨same, unready, onDisk, undone, done⟩ := h.queued q b' asleep orig before hq' hb''
      have hfirst : (xs ++ [b]).head? = xs.head? := List.head?_append_of_ne_nil xs hxs
      rw [← hfirst, ← hcons hxs] at undone done
      exact ⟨same, unready, onDisk, undone, done⟩
  · intro q b' asleep orig before hq hb'
    rcases joined_waiting hq with ⟨-, rfl, -, -⟩ | ⟨-, hq'⟩
    · exact absurd (by simp) hb'
    · obtain ⟨awake, hbuf, disk⟩ := h.served q b' asleep orig before hq' (fun hm => hb' (by simp [hm]))
      exact ⟨awake, hbuf, disk⟩

theorem call (hdev : ¬((s.bufs b).dev ≠ 0 ∧ havedisk1 = false)) :
    ∃ queue device started,
      iderw nbuf havedisk1 s p b = some (joined s p b queue device started) ∧
      Inv nbuf (joined s p b queue device started) (xs ++ [b]) := by
  have hlock := hproper.2.1
  have honDisk := hproper.2.2.1
  have hmem : b ∉ xs := by
    intro hb
    obtain ⟨q, asleep, orig, before, hq⟩ := h.owned b hb
    exact h.not_waiting hp hlock q asleep orig before hq
  obtain ⟨queue, happ, hchain⟩ := h.chain.append h.nodup hmem (Nat.lt_succ_of_le h.bounded)
  have hlocked : (s.bufs b).lock ≠ none := by simp [hlock]
  simp only [iderw, if_neg hlocked, hready, Bool.false_eq_true, if_false, if_neg hdev, happ, Option.bind_eq_bind,
    Option.bind_some]
  have hhead := hchain.head_eq
  cases xs with
  | nil =>
    rw [List.nil_append, List.head?_cons] at hhead
    rw [if_pos hhead, idestart, if_neg (Nat.not_le.mpr honDisk)]
    refine ⟨queue, .busy (command (s.bufs b)), s.finished ++ [b], ?_,
      h.join hp hproper hready hchain _ (by simp) (by simp) (.busy rfl)⟩
    simp [rest, joined, hready, h.started]
  | cons x xs =>
    have hne : queue.head ≠ some b := by
      rw [hhead]
      rintro he
      exact hmem (by simp [Option.some.inj he])
    rw [if_neg hne]
    have hwork : Working (joined s p b queue s.device (s.finished ++ [x])) (x :: xs ++ [b]) := by
      cases h.working with
      | busy hd => exact .busy hd
      | done data hd => exact .done data hd
    refine ⟨queue, s.device, s.finished ++ [x], ?_,
      h.join hp hproper hready hchain s.device (by simp) (fun _ => rfl) hwork⟩
    simp [rest, joined, hready, h.started]

end

/-- A call that does not panic leaves its process asleep, with the request at the end of the queue.
-/
theorem call_cases (h : Inv nbuf s xs) (hproper : Proper nbuf s (.call p b))
    (hs : next nbuf havedisk1 s (.call p b) = some s') :
    s.procs p = .user ∧ ∃ queue device started, s' = joined s p b queue device started ∧
      Inv nbuf (joined s p b queue device started) (xs ++ [b]) := by
  simp only [next] at hs
  split at hs
  case h_2 => cases hs
  case h_1 hp =>
    have hpanics := hs
    simp only [iderw] at hpanics
    split at hpanics
    · cases hpanics
    split at hpanics
    · cases hpanics
    split at hpanics
    · cases hpanics
    rename_i hready hdev
    obtain ⟨queue, device, started, hrun, hinv⟩ := h.call hp hproper (by simpa using hready) hdev
    rw [hrun, Option.some.injEq] at hs
    exact ⟨hp, queue, device, started, hs.symm, hinv⟩

end Inv

theorem step_inv (h : Inv nbuf s xs) (hok : Proper nbuf s a) (hs : next nbuf havedisk1 s a = some s') :
    ∃ xs', Inv nbuf s' xs' := by
  cases a with
  | lock p b =>
    simp only [next, Option.ite_none_right_eq_some, Option.some.injEq] at hs
    obtain ⟨hlock, rfl⟩ := hs
    refine ⟨xs, h.change (fun q asleep orig before hq => ?_) _⟩
    simpa [hlock] using (h.held q b asleep orig before hq).1
  | unlock p b | change p b buf =>
    simp only [next] at hs
    split at hs
    case h_2 => cases hs
    case h_1 hp =>
      simp only [Option.ite_none_right_eq_some, Option.some.injEq] at hs
      obtain ⟨hlock, rfl⟩ := hs
      exact ⟨xs, h.change (h.not_waiting hp hlock) _⟩
  | call p b =>
    obtain ⟨-, queue, device, started, rfl, hinv⟩ := h.call_cases hok hs
    exact ⟨xs ++ [b], hinv⟩
  | run p =>
    simp only [next] at hs
    split at hs <;> cases hs
    exact ⟨xs, h.run ‹_›⟩
  | kill p =>
    simp only [next] at hs
    split at hs <;> cases hs
    exact ⟨xs, h.kill ‹_›⟩
  | device =>
    cases h.working with
    | idle hd => simp [next, hd] at hs
    | busy hd =>
      simp only [next, hd, Option.some.injEq] at hs
      exact ⟨_, hs ▸ h.device hd⟩
    | done data hd => simp [next, hd] at hs
  | intr =>
    cases h.working with
    | idle hd => simp [next, hd] at hs
    | busy hd => simp [next, hd] at hs
    | done data hd =>
      obtain ⟨t, ht, hinv⟩ := h.intr hd
      simp only [next, hd, ht, Option.some.injEq] at hs
      exact ⟨_, hs ▸ hinv⟩

theorem reach_inv (h : Reach (system nbuf havedisk1) (Proper nbuf) s) : ∃ xs, Inv nbuf s xs :=
  h.invariant (I := fun s => ∃ xs, Inv nbuf s xs) (fun _ hinit => ⟨[], hinit.inv⟩)
    (fun _ _ _ ⟨_, hI⟩ hok hs => step_inv hI hok hs)

/-- What an interrupt does to the processes. -/
theorem ideintr_procs {data : Block} (h : ideintr s data = some s') :
    s'.procs = s.procs ∨ ∃ b, s'.procs = fun p => (s.procs p).wakeup b := by
  simp only [ideintr] at h
  split at h
  · cases h
    exact .inl rfl
  · rename_i b hhead
    refine .inr ⟨b, ?_⟩
    split at h
    · cases h
      rfl
    · rw [idestart] at h
      split at h
      · cases h
      · cases h
        rfl

/-- A process in `iderw` waits for the request it has made until a step of its own takes it out. -/
theorem waiting_step (h : Inv nbuf s xs) (hok : Proper nbuf s a)
    (hs : next nbuf havedisk1 s a = some s') (hp : s.procs p = .waiting b asleep orig before) :
    (∃ asleep', s'.procs p = .waiting b asleep' orig before) ∨ (a = .run p ∧ s'.procs p = .user) := by
  cases a with
  | lock q b' =>
    simp only [next, Option.ite_none_right_eq_some, Option.some.injEq] at hs
    obtain ⟨-, rfl⟩ := hs
    exact .inl ⟨asleep, hp⟩
  | unlock q b' | change q b' buf =>
    simp only [next] at hs
    split at hs
    case h_2 => cases hs
    case h_1 =>
      simp only [Option.ite_none_right_eq_some, Option.some.injEq] at hs
      obtain ⟨-, rfl⟩ := hs
      exact .inl ⟨asleep, hp⟩
  | call q b' =>
    obtain ⟨hq, queue, device, started, rfl, -⟩ := h.call_cases hok hs
    have hpq : p ≠ q := by
      rintro rfl
      rw [hp] at hq
      cases hq
    exact .inl ⟨asleep, (update_of_ne hpq ..).trans hp⟩
  | run q =>
    simp only [next] at hs
    split at hs
    case h_2 => cases hs
    case h_1 b' orig' before' hq =>
      obtain rfl := Option.some.inj hs
      by_cases hqp : p = q
      · subst hqp
        cases hp.symm.trans hq
        have hself : (rest s p b orig before).procs p =
            if (s.bufs b).ready then .user else .waiting b true orig before :=
          update_self ..
        rw [hself]
        split
        · exact .inr ⟨rfl, rfl⟩
        · exact .inl ⟨true, rfl⟩
      · exact .inl ⟨asleep, (update_of_ne hqp ..).trans hp⟩
  | kill q =>
    simp only [next] at hs
    split at hs
    case h_2 => cases hs
    case h_1 b' asleep' orig' before' hq =>
      obtain rfl := Option.some.inj hs
      by_cases hqp : p = q
      · subst hqp
        cases hp.symm.trans hq
        exact .inl ⟨false, update_self ..⟩
      · exact .inl ⟨asleep, (update_of_ne hqp ..).trans hp⟩
  | device =>
    simp only [next] at hs
    split at hs <;> cases hs
    exact .inl ⟨asleep, hp⟩
  | intr =>
    simp only [next] at hs
    split at hs
    case h_2 => cases hs
    case h_1 =>
      obtain hsame | ⟨b', hwake⟩ := ideintr_procs hs
      · exact .inl ⟨asleep, by rw [hsame, hp]⟩
      · exact .inl ⟨asleep && b != b', by simp only [hwake, hp, Pc.wakeup]⟩

/-- A return from `iderw(b)`, called with the buffer `orig` and the block `before` on the disk. -/
structure Returned (s : State) (p b : Nat) (orig : Buf) (before : Block) : Prop where
  user : s.procs p = .user
  buf : s.bufs b = { orig with valid := true, dirty := false, data := outcome orig before }
  disk : s.disk orig.address = outcome orig before

/-- The queue, its history, and what the driver does from the state. -/
structure Discipline (nbuf : Nat) (havedisk1 : Bool) (s : State) (xs : List Nat) : Prop where
  chain : Chain s.queue xs
  nodup : xs.Nodup
  appended : s.appended = s.finished ++ xs
  started : s.started = s.finished ++ xs.take 1
  working : Working s xs
  /-- Whoever sleeps in `iderw` has its request in the queue. -/
  sleeping : ∀ p b orig before, s.procs p = .waiting b true orig before → b ∈ xs
  /-- A call appends its request, and does not return before it has slept. -/
  calls : ∀ p b s', Proper nbuf s (.call p b) → next nbuf havedisk1 s (.call p b) = some s' →
    s'.appended = s.appended ++ [b] ∧ Chain s'.queue (xs ++ [b]) ∧
      s'.procs p = .waiting b true (s.bufs b) (s.disk (s.bufs b).address)
  /-- A step of anyone leaves a call waiting, or it is its return. -/
  returns : ∀ p b asleep orig before a s', s.procs p = .waiting b asleep orig before →
    Proper nbuf s a → next nbuf havedisk1 s a = some s' →
    (∃ asleep', s'.procs p = .waiting b asleep' orig before) ∨ Returned s' p b orig before
  /-- The interrupt and the calls that are allowed do not panic, and the walk along the queue ends. -/
  goes : (∀ c data, s.device = .done c data → ∃ s', next nbuf havedisk1 s .intr = some s') ∧
    ∀ p b, s.procs p = .user → Proper nbuf s (.call p b) → (s.bufs b).ready = false →
      ((s.bufs b).dev = 0 ∨ havedisk1 = true) → ∃ s', next nbuf havedisk1 s (.call p b) = some s'

/-- The process that goes on after its request is served returns. -/
theorem Inv.returned (h : Inv nbuf s xs) (hs : next nbuf havedisk1 s (.run p) = some s')
    (hp : s.procs p = .waiting b asleep orig before) (huser : s'.procs p = .user) :
    Returned s' p b orig before := by
  simp only [next, hp] at hs
  split at hs
  case h_2 => cases hs
  case h_1 heq =>
    cases heq
    obtain rfl := Option.some.inj hs
    have hready : (s.bufs b).ready = true := by
      by_contra hnot
      simp [rest, hnot] at huser
    have hf := h.served p b false orig before hp ((h.ready_iff hp).mp hready)
    exact ⟨huser, hf.buf, hf.disk⟩

/-- The queue of requests in every run with proper calls. -/
theorem ide_queue (h : Reach (system nbuf havedisk1) (Proper nbuf) s) :
    ∃ xs, Discipline nbuf havedisk1 s xs := by
  obtain ⟨xs, hinv⟩ := reach_inv h
  refine ⟨xs, hinv.chain, hinv.nodup, hinv.appended, hinv.started, hinv.working, ?_, ?_, ?_, ?_, ?_⟩
  · intro p b orig before hp
    by_contra hmem
    cases (hinv.served p b true orig before hp hmem).awake
  · intro p b s' hproper hs
    obtain ⟨-, queue, device, started, rfl, hnew⟩ := hinv.call_cases hproper hs
    exact ⟨rfl, hnew.chain, update_self ..⟩
  · intro p b asleep orig before a s' hp hok hs
    obtain hwaits | ⟨rfl, huser⟩ := waiting_step hinv hok hs hp
    · exact .inl hwaits
    · exact .inr (hinv.returned hs hp huser)
  · intro c data hd
    cases hinv.working with
    | idle hd' | busy hd' => cases hd.symm.trans hd'
    | done data' hd' =>
      obtain ⟨t, ht, -⟩ := hinv.intr hd
      exact ⟨t, by simp only [next, hd, ht]⟩
  · intro p b hp hproper hready hdev
    have hdisk : ¬((s.bufs b).dev ≠ 0 ∧ havedisk1 = false) := by
      rintro ⟨hne, hno⟩
      exact hdev.elim hne (by simp [hno])
    obtain ⟨queue, device, started, hrun, -⟩ := hinv.call hp hproper hready hdisk
    exact ⟨Inv.joined s p b queue device started, by simp only [next, hp, hrun]⟩

def bootState : State where
  bufs b := ⟨false, false, 0, BitVec.ofNat 32 b, none, fun _ => 0⟩
  queue := ⟨none, fun _ => none⟩
  device := .idle
  disk _ _ := 0
  procs _ := .user
  appended := []
  started := []
  finished := []

def after (acts : List Act) : State := (acts.foldlM (next 30 false) bootState).getD bootState

def changed : Buf := ⟨true, true, 0, 3, some 0, fun _ => 9⟩

def locked : List Act := [.lock 0 3, .change 0 3 changed, .lock 1 5]

/-- Both call, and the device is done with the first request. -/
def firstDone : List Act := locked ++ [.call 0 3, .call 1 5, .device, .intr]

theorem reach_locked : Reach (system 30 false) (Proper 30) (after locked) := by
  have hboot : Reach (system 30 false) (Proper 30) bootState :=
    .init ⟨rfl, rfl, fun _ => rfl, fun _ => rfl, rfl, rfl, rfl⟩
  have hlock : Reach (system 30 false) (Proper 30) (after [.lock 0 3]) :=
    .step (a := .lock 0 3) hboot trivial rfl
  have hchange : Reach (system 30 false) (Proper 30) (after [.lock 0 3, .change 0 3 changed]) :=
    .step (a := .change 0 3 changed) hlock trivial rfl
  exact .step (a := .lock 1 5) hchange trivial rfl

theorem reach_firstDone : Reach (system 30 false) (Proper 30) (after firstDone) := by
  have hfirst : Proper 30 (after locked) (.call 0 3) :=
    ⟨by decide, rfl, by decide, fun _ _ _ _ _ h => by cases h⟩
  have hcall : Reach (system 30 false) (Proper 30) (after (locked ++ [.call 0 3])) :=
    .step reach_locked hfirst rfl
  have hsecond : Proper 30 (after (locked ++ [.call 0 3])) (.call 1 5) := by
    refine ⟨by decide, rfl, by decide, fun q b' asleep orig before hq => ?_⟩
    by_cases hzero : q = 0
    · subst hzero
      have hwaits : Pc.waiting 3 true changed (fun _ => 0) = .waiting b' asleep orig before := hq
      cases hwaits
      decide
    · have huser : Pc.user = .waiting b' asleep orig before := (update_of_ne hzero ..).symm.trans hq
      cases huser
  have hcalls : Reach (system 30 false) (Proper 30) (after (locked ++ [.call 0 3, .call 1 5])) :=
    .step hcall hsecond rfl
  have hdevice : Reach (system 30 false) (Proper 30) (after (locked ++ [.call 0 3, .call 1 5, .device])) :=
    .step (a := .device) hcalls trivial rfl
  exact .step (a := .intr) hdevice trivial rfl

/-- The second request is started, and the first process returns with its block on the disk. -/
theorem ide_queue_two : (∃ xs, Discipline 30 false (after firstDone) xs) ∧
    (after firstDone).started = [3, 5] ∧ (after firstDone).finished = [3] ∧
    Returned (after (firstDone ++ [.run 0])) 0 3 changed (fun _ => 0) := by
  obtain ⟨xs, hxs⟩ := ide_queue reach_firstDone
  refine ⟨⟨xs, hxs⟩, rfl, rfl, ?_⟩
  have hwaits : (after firstDone).procs 0 = .waiting 3 false changed (fun _ => 0) := rfl
  obtain ⟨asleep, hno⟩ | hreturned := hxs.returns 0 3 false _ _ (.run 0) _ hwaits trivial rfl
  · cases hno
  · exact hreturned

end Xv6.Ide
