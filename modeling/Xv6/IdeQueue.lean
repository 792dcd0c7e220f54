import Mathlib.Data.List.Perm.Subperm
import Xv6.Ide

/-!
# The request queue

The links from `idequeue` lead through a list without repetition whose head is what the device works
on. A request in it has its buffer and, until the device is done with it, its disk block as they
were at the call; one that left it has both as the call wanted them, and its process is not asleep.
-/
namespace Xv6.Ide

open BlockStore LinkedQueue RedoLog Function

variable {nbuf : Nat} {havedisk1 : Bool} {s s' : State} {xs : List Nat} {p q b b' : Nat} {asleep asleep' : Bool}
  {orig orig' : Buf} {before before' : Block} {a : Act}

theorem low_byte (x : BitVec 32) : ((x &&& 0xff).setWidth 8).toNat = x.toNat % 256 := by
  have hmask : (0xff : BitVec 32).toNat = 2 ^ 8 - 1 := rfl
  rw [BitVec.toNat_setWidth, BitVec.toNat_and, hmask, Nat.and_two_pow_sub_one_eq_mod, Nat.mod_mod]

theorem command_head (buf : Buf) (h : buf.blockno.toNat < fssize) :
    (command buf).head = if buf.dev.toNat % 2 = 0 then 0xe0 else 0xf0 := by
  have hlt : buf.blockno.toNat < 1000 := h
  have hhigh : buf.blockno >>> 24 = 0 := by
    apply BitVec.eq_of_toNat_eq
    rw [BitVec.toNat_ushiftRight, Nat.shiftRight_eq_div_pow]
    simp only [BitVec.ofNat_eq_ofNat, BitVec.toNat_ofNat]
    omega
  have hdev : buf.dev &&& 1 = if buf.dev.toNat % 2 = 0 then 0 else 1 := by
    apply BitVec.eq_of_toNat_eq
    rw [BitVec.toNat_and]
    simp only [BitVec.ofNat_eq_ofNat, BitVec.toNat_ofNat]
    split <;> simp_all
  simp only [command, hhigh, hdev]
  split <;> decide

/-- The registers carry the address of a block of the disk. -/
theorem command_address (buf : Buf) (h : buf.blockno.toNat < fssize) : (command buf).address = buf.address := by
  have hlt : buf.blockno.toNat < 1000 := h
  have hbyte (k : Nat) : (((buf.blockno >>> k) &&& 0xff).setWidth 8).toNat = buf.blockno.toNat / 2 ^ k % 256 := by
    rw [low_byte, BitVec.toNat_ushiftRight, Nat.shiftRight_eq_div_pow]
  have hlow : (command buf).low.toNat = buf.blockno.toNat % 256 := low_byte _
  have hmid : (command buf).mid.toNat = buf.blockno.toNat / 2 ^ 8 % 256 := hbyte 8
  have hhigh : (command buf).high.toNat = buf.blockno.toNat / 2 ^ 16 % 256 := hbyte 16
  have hmod : buf.dev.toNat % 2 < 2 := Nat.mod_lt _ (by decide)
  rw [Command.address, Buf.address, command_head buf h, hlow, hmid, hhigh]
  by_cases hdev : buf.dev.toNat % 2 = 0
  · rw [if_pos hdev]
    simp only [BitVec.ofNat_eq_ofNat, BitVec.toNat_ofNat, Prod.mk.injEq]
    omega
  · rw [if_neg hdev]
    simp only [BitVec.ofNat_eq_ofNat, BitVec.toNat_ofNat, Prod.mk.injEq]
    omega

def outcome (orig : Buf) (before : Block) : Block := if orig.dirty then orig.data else before

inductive Working (s : State) : List Nat → Prop
  | idle (h : s.device = .idle) : Working s []
  | busy {b : Nat} {xs : List Nat} (h : s.device = .busy (command (s.bufs b))) : Working s (b :: xs)
  | done {b : Nat} {xs : List Nat} (data : Block)
      (h : s.device = .done (command (s.bufs b)) data) : Working s (b :: xs)

structure Queued (s : State) (xs : List Nat) (b : Nat) (orig : Buf) (before : Block) : Prop where
  same : s.bufs b = orig
  unready : orig.ready = false
  onDisk : orig.blockno.toNat < fssize
  undone : (xs.head? = some b → ∀ c data, s.device ≠ .done c data) → s.disk orig.address = before
  done : xs.head? = some b → ∀ c data, s.device = .done c data → data = outcome orig before ∧
    s.disk orig.address = outcome orig before

structure Finished (s : State) (b : Nat) (asleep : Bool) (orig : Buf) (before : Block) : Prop where
  awake : asleep = false
  buf : s.bufs b = { orig with valid := true, dirty := false, data := outcome orig before }
  disk : s.disk orig.address = outcome orig before

structure Inv (nbuf : Nat) (s : State) (xs : List Nat) : Prop where
  chain : Chain s.queue xs
  nodup : xs.Nodup
  appended : s.appended = s.finished ++ xs
  started : s.started = s.finished ++ xs.take 1
  working : Working s xs
  held : ∀ p b asleep orig before, s.procs p = .waiting b asleep orig before → (s.bufs b).lock = some p ∧ b < nbuf
  owned : ∀ b ∈ xs, ∃ p asleep orig before, s.procs p = .waiting b asleep orig before
  apart : ∀ p q b b' asleep asleep' orig orig' before before', s.procs p = .waiting b asleep orig before →
    s.procs q = .waiting b' asleep' orig' before' → p ≠ q → (s.bufs b).address ≠ (s.bufs b').address
  queued : ∀ p b asleep orig before, s.procs p = .waiting b asleep orig before → b ∈ xs → Queued s xs b orig before
  served : ∀ p b asleep orig before, s.procs p = .waiting b asleep orig before → b ∉ xs →
    Finished s b asleep orig before

theorem Booted.inv (h : Booted s) : Inv nbuf s [] where
  chain := h.queue
  nodup := List.nodup_nil
  appended := by rw [h.history.1, h.history.2.2]; rfl
  started := by rw [h.history.2.1, h.history.2.2]; rfl
  working := .idle h.device
  held p := by simp [h.procs p]
  owned := by simp
  apart p := by simp [h.procs p]
  queued p := by simp [h.procs p]
  served p := by simp [h.procs p]

namespace Inv

section

variable (h : Inv nbuf s xs)
include h

theorem bounded : xs.length ≤ nbuf := by
  have hsub : xs ⊆ List.range nbuf := by
    intro b hb
    obtain ⟨p, asleep, orig, before, hp⟩ := h.owned b hb
    exact List.mem_range.mpr (h.held p b asleep orig before hp).2
  simpa using (List.subperm_of_subset h.nodup hsub).length_le

/-- Two processes do not wait for one buffer. -/
theorem alone (hp : s.procs p = .waiting b asleep orig before)
    (hq : s.procs q = .waiting b asleep' orig' before') : p = q :=
  Option.some.inj ((h.held _ _ _ _ _ hp).1.symm.trans (h.held _ _ _ _ _ hq).1)

/-- The owner of a buffer that is not in the driver may change it. -/
theorem change (hb : ∀ p asleep orig before, s.procs p ≠ .waiting b asleep orig before) (buf : Buf) :
    Inv nbuf { s with bufs := update s.bufs b buf } xs := by
  have hkeep (p b' : Nat) (asleep : Bool) (orig : Buf) (before : Block)
      (hp : s.procs p = .waiting b' asleep orig before) : update s.bufs b buf b' = s.bufs b' := by
    apply update_of_ne
    rintro rfl
    exact hb p asleep orig before hp
  refine ⟨h.chain, h.nodup, h.appended, h.started, ?_, ?_, h.owned, ?_, ?_, ?_⟩
  · cases h.working with
    | idle hd => exact .idle hd
    | @busy b' xs hd =>
      obtain ⟨p, _, _, _, hp⟩ := h.owned b' (by simp)
      exact .busy (by simpa only [hkeep p _ _ _ _ hp] using hd)
    | @done b' xs data hd =>
      obtain ⟨p, _, _, _, hp⟩ := h.owned b' (by simp)
      exact .done data (by simpa only [hkeep p _ _ _ _ hp] using hd)
  · intro p b' asleep orig before hp
    dsimp only at hp ⊢
    rw [hkeep p b' asleep orig before hp]
    exact h.held p b' asleep orig before hp
  · intro p q b₁ b₂ a₁ a₂ o₁ o₂ d₁ d₂ hp hq hne
    dsimp only at hp hq ⊢
    rw [hkeep p b₁ a₁ o₁ d₁ hp, hkeep q b₂ a₂ o₂ d₂ hq]
    exact h.apart p q b₁ b₂ a₁ a₂ o₁ o₂ d₁ d₂ hp hq hne
  · intro p b' asleep orig before hp hmem
    obtain ⟨same, unready, onDisk, undone, done⟩ := h.queued p b' asleep orig before hp hmem
    exact ⟨(hkeep p b' asleep orig before hp).trans same, unready, onDisk, undone, done⟩
  · intro p b' asleep orig before hp hmem
    obtain ⟨awake, hbuf, disk⟩ := h.served p b' asleep orig before hp hmem
    exact ⟨awake, (hkeep p b' asleep orig before hp).trans hbuf, disk⟩

/-- Processes wake up and leave; no one goes to sleep on a request that is finished. -/
theorem procs (procs : Nat → Pc)
    (hold : ∀ p b asleep orig before, procs p = .waiting b asleep orig before →
      ∃ asleep', s.procs p = .waiting b asleep' orig before ∧ (b ∉ xs → asleep = false))
    (hstay : ∀ p b asleep orig before, s.procs p = .waiting b asleep orig before → b ∈ xs →
      ∃ asleep', procs p = .waiting b asleep' orig before) : Inv nbuf { s with procs := procs } xs := by
  refine ⟨h.chain, h.nodup, h.appended, h.started, ?_, ?_, ?_, ?_, ?_, ?_⟩
  · cases h.working with
    | idle hd => exact .idle hd
    | busy hd => exact .busy hd
    | done data hd => exact .done data hd
  · intro p b asleep orig before hp
    obtain ⟨asleep', hp', -⟩ := hold p b asleep orig before hp
    exact h.held p b asleep' orig before hp'
  · intro b hb
    obtain ⟨p, asleep, orig, before, hp⟩ := h.owned b hb
    obtain ⟨asleep', hp'⟩ := hstay p b asleep orig before hp hb
    exact ⟨p, asleep', orig, before, hp'⟩
  · intro p q b₁ b₂ a₁ a₂ o₁ o₂ d₁ d₂ hp hq
    obtain ⟨_, hp', -⟩ := hold p b₁ a₁ o₁ d₁ hp
    obtain ⟨_, hq', -⟩ := hold q b₂ a₂ o₂ d₂ hq
    exact h.apart p q b₁ b₂ _ _ o₁ o₂ d₁ d₂ hp' hq'
  · intro p b asleep orig before hp hmem
    obtain ⟨_, hp', -⟩ := hold p b asleep orig before hp
    obtain ⟨same, unready, onDisk, undone, done⟩ := h.queued p b _ orig before hp' hmem
    exact ⟨same, unready, onDisk, undone, done⟩
  · intro p b asleep orig before hp hmem
    obtain ⟨_, hp', hawake⟩ := hold p b asleep orig before hp
    obtain ⟨-, hbuf, disk⟩ := h.served p b _ orig before hp' hmem
    exact ⟨hawake hmem, hbuf, disk⟩

section

variable (hp : s.procs p = .waiting b asleep orig before)
include hp

theorem ready_iff : (s.bufs b).ready = true ↔ b ∉ xs := by
  by_cases hmem : b ∈ xs
  · have hq := h.queued p b asleep orig before hp hmem
    simp [hq.same, hq.unready, hmem]
  · have hf := h.served p b asleep orig before hp hmem
    simp [hf.buf, Buf.ready, hmem]

theorem run : Inv nbuf (rest s p b orig before) xs := by
  apply h.procs
  · intro q b' asleep' orig' before' hq
    by_cases hqp : q = p
    · subst hqp
      rw [update_self] at hq
      split at hq
      · cases hq
      · rename_i hready
        rw [h.ready_iff hp, not_not] at hready
        cases hq
        exact ⟨asleep, hp, fun hmem => absurd hready hmem⟩
    · rw [update_of_ne hqp] at hq
      exact ⟨asleep', hq, fun hmem => (h.served q b' asleep' orig' before' hq hmem).awake⟩
  · intro q b' asleep' orig' before' hq hmem
    by_cases hqp : q = p
    · subst hqp
      cases hp.symm.trans hq
      rw [update_self, if_neg (by rw [h.ready_iff hp]; exact not_not.mpr hmem)]
      exact ⟨true, rfl⟩
    · rw [update_of_ne hqp]
      exact ⟨asleep', hq⟩

theorem kill :
    Inv nbuf { s with procs := update s.procs p (.waiting b false orig before) } xs := by
  apply h.procs
  · intro q b' asleep' orig' before' hq
    by_cases hqp : q = p
    · subst hqp
      rw [update_self] at hq
      cases hq
      exact ⟨asleep, hp, fun _ => rfl⟩
    · rw [update_of_ne hqp] at hq
      exact ⟨asleep', hq, fun hmem => (h.served q b' asleep' orig' before' hq hmem).awake⟩
  · intro q b' asleep' orig' before' hq _
    by_cases hqp : q = p
    · subst hqp
      cases hp.symm.trans hq
      exact ⟨false, update_self _ _ _⟩
    · rw [update_of_ne hqp]
      exact ⟨asleep', hq⟩

end

end

theorem complete_disk (s : State) (c : Command) {addr : Address} (hne : addr ≠ c.address) :
    (complete s c).disk addr = s.disk addr := by
  cases hdata : c.data with
  | some d => simp only [complete, hdata, put_other _ _ hne]
  | none => simp only [complete, hdata]

theorem complete_address (s : State) (buf : Buf) (h : buf.blockno.toNat < fssize) :
    (complete s (command buf)).disk buf.address = outcome buf (s.disk buf.address) := by
  rw [← command_address buf h]
  cases hdirty : buf.dirty with
  | true | false => simp [complete, command, outcome, hdirty]

theorem device (h : Inv nbuf s (b :: xs)) (hd : s.device = .busy (command (s.bufs b))) :
    Inv nbuf (complete s (command (s.bufs b))) (b :: xs) := by
  obtain ⟨p₀, asleep₀, orig₀, before₀, hp₀⟩ := h.owned b (by simp)
  have hhead := h.queued p₀ b asleep₀ orig₀ before₀ hp₀ (by simp)
  have haddr : (command (s.bufs b)).address = orig₀.address := by
    rw [hhead.same, command_address orig₀ hhead.onDisk]
  have hundone (b' : Nat) : (b :: xs).head? = some b' → ∀ c data, s.device ≠ .done c data := by
    simp [hd]
  have hwrites : (complete s (command (s.bufs b))).disk orig₀.address = outcome orig₀ before₀ := by
    rw [hhead.same, complete_address s orig₀ hhead.onDisk, hhead.undone (hundone b)]
  have hother (q b' : Nat) (asleep : Bool) (orig : Buf) (before : Block)
    (hq : s.procs q = .waiting b' asleep orig before)
      (hne : b' ≠ b) (haddr' : (s.bufs b').address = orig.address) :
      (complete s (command (s.bufs b))).disk orig.address = s.disk orig.address := by
    apply complete_disk
    rw [haddr, ← hhead.same, ← haddr']
    apply h.apart q p₀ b' b asleep asleep₀ orig orig₀ before before₀ hq hp₀
    rintro rfl
    rw [hp₀] at hq
    cases hq
    exact hne rfl
  refine ⟨h.chain, h.nodup, h.appended, h.started, .done _ rfl, h.held, h.owned, h.apart, ?_, ?_⟩
  · intro q b' asleep orig before hq hmem
    obtain ⟨same, unready, onDisk, undone, done⟩ := h.queued q b' asleep orig before hq hmem
    by_cases hb : b' = b
    · subst hb
      obtain rfl := h.alone hp₀ hq
      cases hp₀.symm.trans hq
      refine ⟨same, unready, onDisk, fun hnot => absurd rfl (hnot rfl _ _), ?_⟩
      rintro - c data hdone
      simp only [complete, Device.done.injEq] at hdone
      refine ⟨?_, hwrites⟩
      rw [← hdone.2, ← hwrites, ← haddr]
      rfl
    · refine ⟨same, unready, onDisk, fun _ => ?_, fun hhd => absurd (Option.some.inj hhd).symm hb⟩
      rw [hother q b' asleep orig before hq hb (by rw [same])]
      exact undone (hundone b')
  · intro q b' asleep orig before hq hmem
    obtain ⟨awake, hbuf, disk⟩ := h.served q b' asleep orig before hq hmem
    refine ⟨awake, hbuf, ?_⟩
    rw [hother q b' asleep orig before hq (fun he => hmem (by simp [he])) (by rw [hbuf]; rfl)]
    exact disk

def retire (s : State) (b : Nat) (data : Block) : State :=
  { s with
    device := .idle
    queue := { s.queue with head := s.queue.next b }
    bufs := update s.bufs b ((s.bufs b).finish data)
    procs := fun p => (s.procs p).wakeup b
    finished := s.finished ++ [b] }

theorem wakeup_waiting {pc : Pc} (h : pc.wakeup b = .waiting b' asleep orig before) :
    ∃ asleep', pc = .waiting b' asleep' orig before ∧ asleep = (asleep' && b' != b) := by
  cases pc with
  | user => cases h
  | waiting b₁ asleep₁ orig₁ before₁ =>
    cases h
    exact ⟨asleep₁, rfl, rfl⟩

theorem finish_outcome (orig : Buf) (before : Block) :
    orig.finish (outcome orig before) =
      { orig with valid := true, dirty := false, data := outcome orig before } := by
  cases hdirty : orig.dirty <;> simp [Buf.finish, outcome, hdirty]

/-- After the head has left, whatever the device does next. -/
theorem retired (h : Inv nbuf s (b :: xs)) {c : Command} {data : Block}
    (hd : s.device = .done c data) (device : Device)
    (hdev : ∀ c data, device ≠ .done c data)
    (hwork : Working { retire s b data with device := device, started := (s.finished ++ [b]) ++ xs.take 1 } xs) :
    Inv nbuf { retire s b data with device := device, started := (s.finished ++ [b]) ++ xs.take 1 } xs := by
  obtain ⟨p₀, asleep₀, orig₀, before₀, hp₀⟩ := h.owned b (by simp)
  have hhead := h.queued p₀ b asleep₀ orig₀ before₀ hp₀ (by simp)
  obtain ⟨rfl, hdisk⟩ := hhead.done rfl c data hd
  have hb := List.nodup_cons.mp h.nodup
  have hsame (b' : Nat) (hne : b' ≠ b) :
      (retire s b (outcome orig₀ before₀)).bufs b' = s.bufs b' := update_of_ne hne _ _
  have hself : (retire s b (outcome orig₀ before₀)).bufs b =
      { orig₀ with valid := true, dirty := false, data := outcome orig₀ before₀ } := by
    simp only [retire, update_self, hhead.same, finish_outcome]
  have hlock (b' : Nat) : ((retire s b (outcome orig₀ before₀)).bufs b').lock = (s.bufs b').lock ∧
      ((retire s b (outcome orig₀ before₀)).bufs b').address = (s.bufs b').address := by
    by_cases hne : b' = b
    · subst hne
      rw [hself, hhead.same]
      exact ⟨rfl, rfl⟩
    · rw [hsame b' hne]
      exact ⟨rfl, rfl⟩
  refine ⟨h.chain.pop, hb.2, ?_, rfl, hwork, ?_, ?_, ?_, ?_, ?_⟩
  · have happ := h.appended
    rwa [← List.singleton_append, ← List.append_assoc] at happ
  · intro p b' asleep orig before hp
    obtain ⟨asleep', hp', -⟩ := wakeup_waiting hp
    exact ⟨(hlock b').1.trans (h.held p b' asleep' orig before hp').1, (h.held p b' asleep' orig before hp').2⟩
  · intro b' hmem
    obtain ⟨p, asleep, orig, before, hp⟩ := h.owned b' (List.mem_cons_of_mem _ hmem)
    exact ⟨p, _, orig, before, by simp only [retire, hp]; rfl⟩
  · intro p q b₁ b₂ a₁ a₂ o₁ o₂ d₁ d₂ hp hq hne
    obtain ⟨_, hp', -⟩ := wakeup_waiting hp
    obtain ⟨_, hq', -⟩ := wakeup_waiting hq
    have hapart := h.apart p q b₁ b₂ _ _ o₁ o₂ d₁ d₂ hp' hq' hne
    rwa [← (hlock b₁).2, ← (hlock b₂).2] at hapart
  · intro p b' asleep orig before hp hmem
    obtain ⟨asleep', hp', -⟩ := wakeup_waiting hp
    have hne : b' ≠ b := fun he => hb.1 (he ▸ hmem)
    obtain ⟨same, unready, onDisk, undone, -⟩ := h.queued p b' asleep' orig before hp'
      (List.mem_cons_of_mem _ hmem)
    refine ⟨(hsame b' hne).trans same, unready, onDisk, fun _ => ?_, fun _ c data he => absurd he (hdev c data)⟩
    exact undone (fun hhd => absurd (Option.some.inj hhd).symm hne)
  · intro p b' asleep orig before hp hmem
    obtain ⟨asleep', hp', hasleep⟩ := wakeup_waiting hp
    by_cases hne : b' = b
    · subst hne
      obtain rfl := h.alone hp₀ hp'
      cases hp₀.symm.trans hp'
      exact ⟨by simp [hasleep], hself, hdisk⟩
    · obtain ⟨awake, hbuf, disk⟩ := h.served p b' asleep' orig before hp' (by simp [hne, hmem])
      exact ⟨by simp [hasleep, awake], (hsame b' hne).trans hbuf, disk⟩

theorem intr (h : Inv nbuf s (b :: xs)) {c : Command} {data : Block} (hd : s.device = .done c data) :
    ∃ s', ideintr s data = some s' ∧ Inv nbuf s' xs := by
  have hhead : s.queue.head = some b := h.chain.1
  have hnext : s.queue.next b = xs.head? := Chain.head_eq h.chain.pop
  have hstarted : s.started = s.finished ++ [b] := h.started
  cases xs with
  | nil =>
    refine ⟨retire s b data, ?_, ?_⟩
    · rw [List.head?_nil] at hnext
      simp only [ideintr, hhead, hnext, retire]
    · have hinv := h.retired hd .idle (by simp) (.idle rfl)
      rw [List.take_nil, List.append_nil, ← hstarted] at hinv
      exact hinv
  | cons b' ys =>
    obtain ⟨p, asleep, orig, before, hp⟩ := h.owned b' (by simp)
    have hq := h.queued p b' asleep orig before hp (by simp)
    have hne : b' ≠ b := fun he => (List.nodup_cons.mp h.nodup).1 (by simp [he])
    have hbuf : (retire s b data).bufs b' = orig := (update_of_ne hne _ _).trans hq.same
    refine ⟨_, ?_, h.retired hd (.busy (command orig)) (by simp) (.busy (by rw [← hbuf]))⟩
    rw [List.head?_cons] at hnext
    have hstart : idestart (retire s b data) b' = some { retire s b data with
        device := .busy (command orig), started := s.started ++ [b'] } := by
      rw [idestart, hbuf, if_neg (Nat.not_le.mpr hq.onDisk)]
      rfl
    rw [hstarted] at hstart
    rw [List.take_succ_cons, List.take_zero, ← hstart]
    simp only [ideintr, hhead, hnext, retire]

end Inv

end Xv6.Ide
