import Xv6.InodeCache

/-!
# Freeing and allocating inodes

The invariant of the inode cache over whole runs. What a step does concerns one process and one slot
(`inv_update`). An `ilock` that follows an `ialloc` finds the inode as it was allocated, unless it
looks at the slot after an `iput` has written the free inode to the disk and before it clears the
flags.
-/
namespace Xv6.InodeAlloc

open Interleaving InodeCache Function

variable {r : Nat × State} {n ninodes : Nat} {dev : BitVec 32}

variable {s s' : State} {p q k l : Nat} {ino : Ino} {type : BitVec 16} {new : Option (BitVec 16)} {d d' m : Dinode}
  {pc : Pc} {sl sl' : Slot} {procs procs' : Nat → Pc}

structure Inv (s : State) : Prop where
  slot : ∀ k, SlotInv k (s.slots k) (s.disk (s.slots k).ino) s.procs
  range : ∀ k x, x ∈ (s.slots k).holders → k < ninode
  uniq : ∀ k l x y, x ∈ (s.slots k).holders → y ∈ (s.slots l).holders → (s.slots k).ino = (s.slots l).ino → k = l
  scanning : ∀ p dev type n, s.procs p = .scanning dev type n → type ≠ 0
  claimed : ∀ p ino type, s.procs p = .claimed ino type → type ≠ 0 ∧ s.disk ino = fresh type ∧
    ∀ k x, x ∈ (s.slots k).holders → (s.slots k).ino = ino →
      ∃ q, (s.slots k).holders = [q] ∧ s.procs q = .freeing k .written
  alone : ∀ p q ino t t', s.procs p = .claimed ino t → s.procs q = .claimed ino t' → p = q

/-- The disk inode does not matter to an empty slot. -/
theorem slot_empty_disk (h : SlotInv k sl d procs) (hempty : sl.holders = []) : SlotInv k sl d' procs := by
  obtain ⟨hidle, -⟩ := h.idle hempty
  refine ⟨h.count, h.locker, h.loaded, h.locking, h.loading, h.dying, h.dead, ?_, h.typed, ?_, h.made⟩
  · intro q type hq
    exact absurd (by rcases hq with hq | hq <;> rw [hq] <;> rfl) (hidle q)
  · intro x hx
    simp [hempty] at hx

/-- A step of process `p` that changes slot `k` and no other held inode. -/
theorem inv_update (h : Inv s) (hprocs : ∀ x, x ≠ p → s'.procs x = s.procs x)
    (hslots : ∀ l, l ≠ k → s'.slots l = s.slots l)
    (habout : ∀ l, l ≠ k → ¬ About l (s.procs p) ∧ ¬ About l (s'.procs p))
    (hdisk : ∀ l y, l ≠ k → y ∈ (s.slots l).holders → s'.disk (s.slots l).ino = s.disk (s.slots l).ino)
    (hslot : SlotInv k (s'.slots k) (s'.disk (s'.slots k).ino) s'.procs)
    (hrange : ∀ x ∈ (s'.slots k).holders, k < ninode)
    (huniq : ∀ l x y, l ≠ k → x ∈ (s'.slots k).holders → y ∈ (s.slots l).holders →
      (s'.slots k).ino ≠ (s.slots l).ino)
    (hscan : ∀ dev t n, s'.procs p = .scanning dev t n → t ≠ 0)
    (hother : ∀ x i t, x ≠ p → s.procs x = .claimed i t → s'.disk i = s.disk i ∧
      ∀ y ∈ (s'.slots k).holders, (s'.slots k).ino = i →
        ∃ z, (s'.slots k).holders = [z] ∧ s'.procs z = .freeing k .written)
    (hself : ∀ i t, s'.procs p = .claimed i t → t ≠ 0 ∧ s'.disk i = fresh t ∧
      (∀ l y, y ∈ (s'.slots l).holders → (s'.slots l).ino = i →
        ∃ z, (s'.slots l).holders = [z] ∧ s'.procs z = .freeing l .written) ∧
      ∀ x t', x ≠ p → s.procs x ≠ .claimed i t') : Inv s' := by
  refine ⟨?_, ?_, ?_, ?_, ?_, ?_⟩
  · intro l
    by_cases hl : l = k
    · rw [hl]
      exact hslot
    · have hframe := (h.slot l).frame_proc hprocs (habout l hl).1 (habout l hl).2
      rw [hslots l hl]
      by_cases hempty : (s.slots l).holders = []
      · exact slot_empty_disk hframe hempty
      · obtain ⟨y, hy⟩ := List.exists_mem_of_ne_nil _ hempty
        rwa [hdisk l y hl hy]
  · intro l x hx
    by_cases hl : l = k
    · subst hl
      exact hrange x hx
    · rw [hslots l hl] at hx
      exact h.range l x hx
  · intro l l' x y hx hy he
    by_cases hl : l = k <;> by_cases hl' : l' = k
    · rw [hl, hl']
    · subst hl
      rw [hslots l' hl'] at he hy
      exact absurd he (huniq l' x y hl' hx hy)
    · subst hl'
      rw [hslots l hl] at he hx
      exact absurd he.symm (huniq l y x hl hy hx)
    · rw [hslots l hl] at he hx
      rw [hslots l' hl'] at he hy
      exact h.uniq l l' x y hx hy he
  · intro x dev t n hx
    by_cases hxp : x = p
    · subst hxp
      exact hscan dev t n hx
    · exact h.scanning x dev t n ((hprocs x hxp).symm.trans hx)
  · intro x i t hx
    by_cases hxp : x = p
    · subst hxp
      obtain ⟨ht, hd, hdead, -⟩ := hself i t hx
      exact ⟨ht, hd, hdead⟩
    · rw [hprocs x hxp] at hx
      obtain ⟨ht, hd, hdead⟩ := h.claimed x i t hx
      obtain ⟨hsame, hthis⟩ := hother x i t hxp hx
      refine ⟨ht, hsame.trans hd, ?_⟩
      intro l y hy hi
      by_cases hl : l = k
      · subst hl
        exact hthis y hy hi
      · rw [hslots l hl] at hy hi ⊢
        obtain ⟨z, hz, hzpc⟩ := hdead l y hy hi
        have hzp : z ≠ p := by
          rintro rfl
          exact (habout l hl).1 (by rw [hzpc]; rfl)
        exact ⟨z, hz, (hprocs z hzp).trans hzpc⟩
  · intro x y i t t' hx hy
    by_cases hxp : x = p <;> by_cases hyp : y = p
    · rw [hxp, hyp]
    · subst hxp
      rw [hprocs y hyp] at hy
      exact absurd hy ((hself i t hx).2.2.2 y t' hyp)
    · subst hyp
      rw [hprocs x hxp] at hx
      exact absurd hx ((hself i t' hy).2.2.2 x t hxp)
    · rw [hprocs x hxp] at hx
      rw [hprocs y hyp] at hy
      exact h.alone x y i t t' hx hy

def act (s : State) (p k : Nat) (sl : Slot) (d : Dinode) (pc : Pc) : State :=
  ⟨update s.disk (s.slots k).ino d, update s.slots k sl, goto s.procs p pc⟩

theorem inv_act (h : Inv s) (hslot : SlotInv k sl d (goto s.procs p pc)) (hino : sl.ino = (s.slots k).ino)
    (href : q ∈ (s.slots k).holders) (hpc : ∀ l, l ≠ k → ¬ About l (s.procs p) ∧ ¬ About l pc)
    (hscan : ∀ dev t n, pc ≠ .scanning dev t n) (hclaim : ∀ i t, pc ≠ .claimed i t)
    (hclaimed : ∀ x t, x ≠ p → s.procs x = .claimed (s.slots k).ino t → d = s.disk (s.slots k).ino ∧
      ∀ y ∈ sl.holders, ∃ z, sl.holders = [z] ∧ goto s.procs p pc z = .freeing k .written) :
    Inv (act s p k sl d pc) := by
  have hself : (act s p k sl d pc).procs p = pc := by simp [act, goto]
  have hthis : (act s p k sl d pc).slots k = sl := by simp [act]
  have hdisk : ∀ i, i ≠ (s.slots k).ino → (act s p k sl d pc).disk i = s.disk i := by
    intro i hi
    simp [act, hi]
  have hnot : ∀ l y, l ≠ k → y ∈ (s.slots l).holders → (s.slots l).ino ≠ (s.slots k).ino :=
    fun l y hl hy he => hl (h.uniq l k y q hy href he)
  refine inv_update h (p := p) (k := k) ?_ ?_ ?_ ?_ ?_ ?_ ?_ ?_ ?_ ?_
  · intro x hx
    simp [act, goto, hx]
  · intro l hl
    simp [act, hl]
  · rwa [hself]
  · exact fun l y hl hy => hdisk _ (hnot l y hl hy)
  · rw [hthis, hino]
    simpa [act] using hslot
  · exact fun _ _ => h.range k q href
  · intro l x y hl _ hy
    rw [hthis, hino]
    exact (hnot l y hl hy).symm
  · intro dev t n hx
    exact absurd (hself.symm.trans hx) (hscan dev t n)
  · intro x i t hx hc
    rw [hthis, hino]
    by_cases hi : i = (s.slots k).ino
    · subst hi
      obtain ⟨hd, hlast⟩ := hclaimed x t hx hc
      exact ⟨by simp [act, hd], fun y hy _ => hlast y hy⟩
    · exact ⟨hdisk i hi, fun _ _ he => absurd he.symm hi⟩
  · intro i t hx
    exact absurd (hself.symm.trans hx) (hclaim i t)

/-- While a process other than one that has freed it holds the inode, no one takes it for new. -/
theorem Inv.unclaimed (h : Inv s) (hp : p ∈ (s.slots k).holders) (hpc : s.procs p ≠ .freeing k .written) (x : Nat)
    (t : BitVec 16) : s.procs x ≠ .claimed (s.slots k).ino t := by
  intro hx
  obtain ⟨z, hz, hzpc⟩ := (h.claimed x _ t hx).2.2 k p hp rfl
  rw [hz, List.mem_singleton] at hp
  subst hp
  exact hpc hzpc

theorem inv_act_held (h : Inv s) (hp : p ∈ (s.slots k).holders) (hold : About k (s.procs p) ∨ s.procs p = .ready)
    (hpc : s.procs p ≠ .freeing k .written) (hnew : About k pc ∨ pc = .ready) (hino : sl.ino = (s.slots k).ino)
    (hslot : SlotInv k sl d (goto s.procs p pc)) : Inv (act s p k sl d pc) := by
  have habout : ∀ c : Pc, About k c ∨ c = .ready → (∀ l, l ≠ k → ¬ About l c) ∧
      (∀ dev t n, c ≠ .scanning dev t n) ∧ ∀ i t, c ≠ .claimed i t := by
    intro c hc
    cases c <;> simp_all [About, eq_comm]
  refine inv_act h hslot hino hp (fun l hl => ⟨(habout _ hold).1 l hl, (habout pc hnew).1 l hl⟩)
    (habout pc hnew).2.1
    (habout pc hnew).2.2 ?_
  intro x t _ hx
  exact absurd hx (h.unclaimed hp hpc x t)

theorem goto_same (procs : Nat → Pc) (p : Nat) : goto procs p (procs p) = procs := update_eq_self p procs

theorem setSlot_eq (s : State) (p k : Nat) (sl : Slot) :
    setSlot s k sl = act s p k sl (s.disk (s.slots k).ino) (s.procs p) := by
  simp [setSlot, act, goto_same]

theorem setDisk_eq (s : State) (p k : Nat) (d : Dinode) :
    setDisk s (s.slots k).ino d = act s p k (s.slots k) d (s.procs p) := by
  simp [setDisk, act, goto_same]

theorem setPc_eq (s : State) (p k : Nat) (pc : Pc) :
    setPc s p pc = act s p k (s.slots k) (s.disk (s.slots k).ino) pc := by
  simp [setPc, act, goto]

theorem setSlotPc_eq (s : State) (p k : Nat) (sl : Slot) (pc : Pc) :
    setPc (setSlot s k sl) p pc = act s p k sl (s.disk (s.slots k).ino) pc := by
  simp [setPc, setSlot, act, goto]

theorem setAll_eq (s : State) (p k : Nat) (sl : Slot) (d : Dinode) (pc : Pc) :
    setPc (setDisk (setSlot s k sl) (s.slots k).ino d) p pc = act s p k sl d pc := rfl

/-- A process outside its calls changes a slot it holds, or the disk inode. -/
theorem inv_held (h : Inv s) (hpc : s.procs p = .ready) (hp : p ∈ (s.slots k).holders)
    (hino : sl.ino = (s.slots k).ino) (hslot : SlotInv k sl d s.procs) : Inv (act s p k sl d (s.procs p)) := by
  refine inv_act_held h hp (.inr hpc) (by rw [hpc]; exact Pc.noConfusion) (.inr hpc) hino ?_
  rwa [goto_same]

theorem Inv.settled (h : Inv s) (hpc : s.procs p = .ready) (hp : p ∈ (s.slots k).holders) :
    Settled k (s.slots k) (s.disk (s.slots k).ino) s.procs :=
  (h.slot k).settled hp (ready_not_about hpc)

theorem inv_dying (h : Inv s) {st st' : Stage} (hpc : s.procs p = .freeing k st) (hst : st ≠ .written)
    (hino : sl.ino = (s.slots k).ino) (hslot : SlotInv k sl d (goto s.procs p (.freeing k st'))) :
    Inv (act s p k sl d (.freeing k st')) := by
  have href : p ∈ (s.slots k).holders := by
    rw [((h.slot k).dying p st hpc hst).1]
    exact List.mem_singleton_self p
  refine inv_act_held h href (.inl (by rw [hpc]; rfl)) ?_ (.inl rfl) hino hslot
  rw [hpc]
  intro he
  cases he
  exact hst rfl

theorem inv_freed (h : Inv s) (hpc : s.procs p = .freeing k .written) :
    Inv (act s p k { dropRef (s.slots k) p with valid := false } (s.disk (s.slots k).ino) .ready) := by
  have hcount := ((h.slot k).dead p hpc).1
  have hp : p ∈ (s.slots k).holders := List.count_pos_iff.mp (by rw [hcount]; exact Nat.one_pos)
  refine inv_act h (slot_freed (h.slot k) hpc) rfl hp ?_ (by simp) (by simp) ?_
  · intro l hl
    rw [hpc]
    exact ⟨Ne.symm hl, id⟩
  · intro x t _ hx
    obtain ⟨z, hz, -⟩ := (h.claimed x _ t hx).2.2 k p hp rfl
    refine ⟨rfl, ?_⟩
    intro y hy
    rw [hz, List.mem_singleton] at hp
    subst hp
    simp [dropRef, hz] at hy

theorem cached_some (h : cached s.slots ino = some k) : 0 < (s.slots k).ref ∧ (s.slots k).ino = ino := by
  have := List.find?_some h
  simpa using this

theorem cached_none (h : Inv s) (hnone : cached s.slots ino = none) (hp : p ∈ (s.slots k).holders) :
    (s.slots k).ino ≠ ino := by
  intro hi
  have hk := List.find?_eq_none.mp hnone k (List.mem_range.mpr (h.range k p hp))
  have hpos := List.length_pos_of_mem hp
  rw [← (h.slot k).count] at hpos
  simp [hpos, hi] at hk

theorem emptySlot_some (h : Inv s) (he : emptySlot s.slots = some k) : (s.slots k).holders = [] ∧ k < ninode := by
  have hz := List.find?_some he
  have hk := List.mem_of_find?_eq_some he
  rw [beq_iff_eq, (h.slot k).count] at hz
  exact ⟨List.length_eq_zero_iff.mp hz, List.mem_range.mp hk⟩

theorem held_of_cached (h : Inv s) (hc : cached s.slots ino = some k) : ∃ x, x ∈ (s.slots k).holders := by
  have hpos := (cached_some hc).1
  rw [(h.slot k).count] at hpos
  exact List.exists_mem_of_length_pos hpos

/-- The cases of `iget`: a slot that has the inode, or an empty one recycled. -/
theorem iget_cases (h : iget s p ino = some r) :
    (cached s.slots ino = some r.1 ∧ r.2 = setSlot s r.1
      { s.slots r.1 with ref := (s.slots r.1).ref + 1, holders := p :: (s.slots r.1).holders }) ∨
    (cached s.slots ino = none ∧ emptySlot s.slots = some r.1 ∧ r.2 = setSlot s r.1
      { s.slots r.1 with ino := ino, ref := 1, valid := false, holders := [p] }) := by
  rw [iget] at h
  split at h
  · rename_i k hk
    cases h
    exact .inl ⟨hk, rfl⟩
  · rename_i hk
    split at h
    · rename_i k he
      cases h
      exact .inr ⟨hk, he, rfl⟩
    · cases h

/-- An empty slot is given to an inode that is in no other. -/
theorem inv_recycle (h : Inv s) (hnone : cached s.slots ino = none) (he : emptySlot s.slots = some k)
    (hold : ∀ l, ¬ About l (s.procs p)) (hnew : ∀ l, l ≠ k → ¬ About l pc)
    (hscan : ∀ dev t n, pc ≠ .scanning dev t n) (hclaim : ∀ i t, pc ≠ .claimed i t)
    (hclaimed : ∀ x t, x ≠ p → s.procs x ≠ .claimed ino t) (hdisk : (s.disk ino).type ≠ 0)
    (hp : ¬ About k pc ∨ ∃ type, pc = .locking k (some type) ∧ type ≠ 0 ∧ s.disk ino = fresh type) :
    Inv (setPc (setSlot s k { s.slots k with ino := ino, ref := 1, valid := false, holders := [p] }) p pc) := by
  obtain ⟨hempty, hk⟩ := emptySlot_some h he
  set s' := setPc (setSlot s k { s.slots k with ino := ino, ref := 1, valid := false, holders := [p] }) p pc
  have hthis : s'.slots k = { s.slots k with ino := ino, ref := 1, valid := false, holders := [p] } := by
    simp [s', setPc, setSlot]
  have hprocs : ∀ x, x ≠ p → s'.procs x = s.procs x := by
    intro x hx
    simp [s', setPc, setSlot, hx]
  have hself : s'.procs p = pc := by simp [s', setPc, setSlot]
  refine inv_update h hprocs (k := k) ?_ ?_ (fun _ _ _ _ => rfl) ?_ (fun _ _ => hk) ?_ ?_ ?_ ?_
  · intro l hl
    simp [s', setPc, setSlot, hl]
  · intro l hl
    rw [hself]
    exact ⟨hold l, hnew l hl⟩
  · rw [hthis]
    exact slot_recycle (h.slot k) hempty hprocs hdisk (by rwa [hself])
  · intro l x y _ _ hy
    rw [hthis]
    exact (cached_none h hnone hy).symm
  · intro dev t n hx
    exact absurd (hself.symm.trans hx) (hscan dev t n)
  · intro x i t hx hc
    refine ⟨rfl, ?_⟩
    intro y _ hi
    rw [hthis] at hi
    rw [← hi] at hc
    exact absurd hc (hclaimed x t hx)
  · intro i t hx
    exact absurd (hself.symm.trans hx) (hclaim i t)

theorem inv_scan (h : Inv s) (hold : ∀ l, ¬ About l (s.procs p)) (htype : type ≠ 0) :
    Inv (setPc s p (.scanning dev type n)) := by
  have hprocs : ∀ x, x ≠ p → (setPc s p (.scanning dev type n)).procs x = s.procs x := by
    intro x hx
    simp [setPc, hx]
  have hself : (setPc s p (.scanning dev type n)).procs p = .scanning dev type n := by simp [setPc]
  have hnew : ∀ l, ¬ About l ((setPc s p (.scanning dev type n)).procs p) := by
    intro l
    rw [hself]
    exact id
  refine inv_update h hprocs (k := ninode) (fun _ _ => rfl) (fun l _ => ⟨hold l, hnew l⟩) (fun _ _ _ _ => rfl) ?_
    (fun x hx => h.range ninode x hx) (fun l x y hl hx hy he => hl (h.uniq ninode l x y hx hy he).symm) ?_ ?_ ?_
  · exact (h.slot ninode).frame_proc hprocs (hold ninode) (hnew ninode)
  · intro dev' t n' hx
    rw [hself] at hx
    cases hx
    exact htype
  · intro x i t hx hc
    exact ⟨rfl, fun y hy _ => absurd (h.range ninode y hy) (Nat.lt_irrefl _)⟩
  · intro i t hx
    rw [hself] at hx
    cases hx

/-- A free disk inode is marked. -/
theorem slot_claim (h : SlotInv k sl d procs) (hfree : d.type = 0) (hused : d'.type ≠ 0) :
    SlotInv k sl d' procs := by
  refine ⟨h.count, h.locker, h.loaded, h.locking, h.loading, h.dying, h.dead, ?_, h.typed, ?_, h.made⟩
  · intro q t hq
    obtain ⟨ht, hd, -⟩ := h.born q t hq
    rw [hd] at hfree
    exact absurd hfree ht
  · intro x _ hz
    exact absurd hz hused

theorem inv_claim (h : Inv s) (hpc : s.procs p = .scanning dev type n)
    (hfree : (s.disk ino).type = 0) : Inv (setPc (setDisk s ino (fresh type)) p (.claimed ino type)) := by
  have htype := h.scanning p dev type n hpc
  have hold : ∀ l, ¬ About l (s.procs p) := by
    intro l
    rw [hpc]
    exact id
  set s' := setPc (setDisk s ino (fresh type)) p (.claimed ino type)
  have hprocs : ∀ x, x ≠ p → s'.procs x = s.procs x := by
    intro x hx
    simp [s', setPc, setDisk, hx]
  have hself : s'.procs p = .claimed ino type := by simp [s', setPc]
  have hnew : ∀ l, ¬ About l (s'.procs p) := by
    intro l
    rw [hself]
    exact id
  have hdisk : ∀ i, i ≠ ino → s'.disk i = s.disk i := by
    intro i hi
    simp [s', setPc, setDisk, hi]
  have hthis : s'.disk ino = fresh type := by simp [s', setPc, setDisk]
  have hheld : ∀ l y, y ∈ (s.slots l).holders → (s.slots l).ino = ino →
      ∃ z, (s.slots l).holders = [z] ∧ s'.procs z = .freeing l .written := by
    intro l y hy hi
    obtain ⟨z, hz, hzpc⟩ := (h.slot l).onDisk y hy (by rw [hi]; exact hfree)
    have hzp : z ≠ p := by
      rintro rfl
      exact hold l (by rw [hzpc]; rfl)
    exact ⟨z, hz, (hprocs z hzp).trans hzpc⟩
  have hothers : ∀ x t, s.procs x ≠ .claimed ino t := by
    intro x t hc
    obtain ⟨ht, hd, -⟩ := h.claimed x ino t hc
    rw [hd] at hfree
    exact ht hfree
  obtain ⟨k, hk⟩ : ∃ k, ∀ l y, l ≠ k → y ∈ (s.slots l).holders → (s.slots l).ino ≠ ino := by
    by_cases hex : ∃ k y, y ∈ (s.slots k).holders ∧ (s.slots k).ino = ino
    · obtain ⟨k, y, hy, hi⟩ := hex
      exact ⟨k, fun l x hl hx he => hl (h.uniq l k x y hx hy (he.trans hi.symm))⟩
    · exact ⟨0, fun l y _ hy hi => hex ⟨l, y, hy, hi⟩⟩
  have hframe := (h.slot k).frame_proc hprocs (hold k) (hnew k)
  refine inv_update h hprocs (k := k) (fun _ _ => rfl) (fun l _ => ⟨hold l, hnew l⟩)
    (fun l y hl hy => hdisk _ (hk l y hl hy)) ?_ (fun x hx => h.range k x hx)
    (fun l x y hl hx hy he => hl (h.uniq k l x y hx hy he).symm) ?_ ?_ ?_
  · change SlotInv k (s.slots k) (s'.disk (s.slots k).ino) s'.procs
    by_cases hi : (s.slots k).ino = ino
    · rw [hi] at hframe ⊢
      rw [hthis]
      exact slot_claim hframe hfree htype
    · rwa [hdisk _ hi]
  · intro dev' t n' hx
    rw [hself] at hx
    cases hx
  · intro x i t hx hc
    have hi : i ≠ ino := by
      rintro rfl
      exact hothers x t hc
    refine ⟨hdisk i hi, ?_⟩
    intro y hy he
    obtain ⟨z, hz, hzpc⟩ := (h.claimed x i t hc).2.2 k y hy he
    have hzp : z ≠ p := by
      rintro rfl
      exact hold k (by rw [hzpc]; rfl)
    exact ⟨z, hz, (hprocs z hzp).trans hzpc⟩
  · intro i t hx
    rw [hself] at hx
    cases hx
    exact ⟨htype, hthis, hheld, fun x t' _ => hothers x t'⟩

/-- The second half of `ialloc`: the slot found still belongs to a process that has freed the
inode, or the inode is in none. -/
theorem inv_birth (h : Inv s) (hpc : s.procs p = .claimed ino type)
    (hget : iget s p ino = some r) : Inv (setPc r.2 p (.locking r.1 (some type))) := by
  obtain ⟨htype, hd, hdead⟩ := h.claimed p ino type hpc
  have hold : ∀ l, ¬ About l (s.procs p) := by
    intro l
    rw [hpc]
    exact id
  have halone : ∀ x t, x ≠ p → s.procs x ≠ .claimed ino t := fun x t hx hc => hx (h.alone x p ino t type hc hpc)
  have hnew : ∀ l, l ≠ r.1 → ¬ About l (.locking r.1 (some type)) := fun l hl he => hl he.symm
  rcases iget_cases hget with ⟨hc, he⟩ | ⟨hc, hempty, he⟩
  · obtain ⟨-, hino⟩ := cached_some hc
    obtain ⟨x, hx⟩ := held_of_cached h hc
    obtain ⟨z, hz, hzpc⟩ := hdead r.1 x hx hino
    rw [he, setSlotPc_eq]
    refine inv_act h (slot_birth (h.slot r.1) hpc htype (by rw [hino]; exact hd) hz hzpc) rfl hx
      (fun l hl => ⟨hold l, hnew l hl⟩) (by simp) (by simp) ?_
    intro y t hy hyc
    rw [hino] at hyc
    exact absurd hyc (halone y t hy)
  · rw [he]
    refine inv_recycle h hc hempty hold hnew (by simp) (by simp) halone ?_ (.inr ⟨type, rfl, htype, hd⟩)
    rw [hd]
    exact htype

/-- An inode with a name is neither freed nor taken for new. -/
theorem settled_of_named (h : SlotInv k sl d procs)
    (hnamed : (if sl.valid then sl.mem else d).type ≠ 0 ∧ (if sl.valid then sl.mem else d).nlink ≠ 0)
    (hp : p ∈ sl.holders) : Settled k sl d procs := by
  have hfreeing : ∀ q st, procs q ≠ .freeing k st := by
    intro q st hq
    by_cases hst : st = .written
    · subst hst
      obtain ⟨-, -, hvalid, hz, -⟩ := h.dead q hq
      rw [if_pos hvalid] at hnamed
      exact hnamed.1 hz
    · obtain ⟨-, -, hvalid, hz⟩ := h.dying q st hq hst
      rw [if_pos hvalid] at hnamed
      exact hnamed.2 hz
  have hborn : ∀ q t, ¬ (procs q = .locking k (some t) ∨ procs q = .loading k (some t)) := by
    intro q t hq
    obtain ⟨-, hd, -, hvalid⟩ := h.born q t hq
    by_cases hv : sl.valid = true
    · obtain ⟨x, hx⟩ := hvalid hv
      exact hfreeing x _ hx
    · rw [if_neg hv, hd] at hnamed
      exact hnamed.2 rfl
  refine ⟨hfreeing, fun q t hq => hborn q t (.inl hq), fun q t hq => hborn q t (.inr hq), ?_, ?_⟩
  · intro hz
    obtain ⟨x, -, hx⟩ := h.onDisk p hp hz
    exact hfreeing x _ hx
  · intro hv hz
    obtain ⟨x, hx⟩ := h.typed p hp hv hz
    exact hfreeing x _ hx

/-- A lookup of an inode that has a name. -/
theorem inv_lookup (h : Inv s) (hpc : s.procs p = .ready)
    (hnamed : (current s ino).type ≠ 0 ∧ (current s ino).nlink ≠ 0) (hget : iget s p ino = some r) : Inv r.2 := by
  have hold : ∀ l, ¬ About l (s.procs p) := fun l => ready_not_about hpc
  rcases iget_cases hget with ⟨hc, he⟩ | ⟨hc, hempty, he⟩
  · obtain ⟨-, hino⟩ := cached_some hc
    obtain ⟨x, hx⟩ := held_of_cached h hc
    rw [current, hc, ← hino] at hnamed
    have hs := settled_of_named (h.slot r.1) hnamed hx
    rw [he, setSlot_eq s p]
    refine inv_act h ?_ rfl hx (fun l _ => ⟨hold l, hold l⟩) (by simp [hpc]) (by simp [hpc]) ?_
    · rw [goto_same]
      exact slot_hold (h.slot r.1) hs
    · intro y t _ hy
      obtain ⟨z, -, hz⟩ := (h.claimed y _ t hy).2.2 r.1 x hx rfl
      exact absurd hz (hs.freeing z _)
  · rw [current, hc] at hnamed
    have hsame : setPc r.2 p (s.procs p) = r.2 := by
      rw [he]
      simp [setPc, setSlot]
    rw [← hsame, he]
    refine inv_recycle h hc hempty hold (fun l _ => hold l) (by simp [hpc])
      (by simp [hpc]) ?_ hnamed.1 (.inl (hold r.1))
    intro y t _ hy
    have hd := (h.claimed y ino t hy).2.1
    rw [hd] at hnamed
    exact hnamed.2 rfl

structure Initial (s : State) : Prop where
  empty : ∀ k, (s.slots k).ref = 0 ∧ (s.slots k).holders = [] ∧ (s.slots k).lock = none ∧ (s.slots k).made = none
  ready : ∀ p, s.procs p = .ready

def system (ninodes : Nat) : System State Act := ⟨Initial, Step ninodes⟩

/-- An `ilock` does not look at an inode between the `iupdate` and the `flags = 0` of an `iput`. -/
def Apart : State → Act → Prop
  | s, .acquire p => ∀ k new, s.procs p = .locking k new → ∀ q, s.procs q ≠ .freeing k .written
  | _, _ => True

theorem inv_init (h : Initial s) : Inv s := by
  have hholders : ∀ k, (s.slots k).holders = [] := fun k => (h.empty k).2.1
  have hlock : ∀ k, (s.slots k).lock = none := fun k => (h.empty k).2.2.1
  refine ⟨?_, ?_, ?_, ?_, ?_, ?_⟩
  · intro k
    constructor <;> simp [hholders, hlock, h.ready, (h.empty k).1, (h.empty k).2.2.2]
  · simp [hholders]
  · simp [hholders]
  · simp [h.ready]
  · simp [h.ready]
  · simp [h.ready]

theorem inv_step {a : Act} (h : Inv s) (hok : Apart s a) (hs : Step ninodes s a s') : Inv s' := by
  cases hs with
  | ialloc hpc htype => exact inv_scan h (fun l => ready_not_about hpc) htype
  | skip hpc => exact inv_scan h (fun l => by rw [hpc]; exact id) (h.scanning _ _ _ _ hpc)
  | claim hpc _ hfree => exact inv_claim h hpc hfree
  | iget hpc hget => exact inv_birth h hpc hget
  | lookup hpc hnamed hget => exact inv_lookup h hpc hnamed hget
  | @idup p q k hpc href =>
    rw [setSlot_eq s p]
    exact inv_held h hpc href rfl (slot_hold (h.slot k) (h.settled hpc href))
  | @ilock p k hpc href =>
    rw [setPc_eq s p k]
    exact inv_act_held h href (.inr hpc) (by rw [hpc]; exact Pc.noConfusion) (.inl rfl) rfl
      (slot_ilock (h.slot k) hpc href)
  | @acquire p k new hpc hfree hvalid =>
    have hslot := slot_acquire (h.slot k) hpc hfree hvalid (hok k new hpc)
    rw [locked, setSlotPc_eq]
    exact inv_act_held h ((h.slot k).locking p new hpc) (.inl (by rw [hpc]; rfl))
      (by rw [hpc]; exact Pc.noConfusion)
      (.inr rfl) rfl hslot
  | @miss p k new hpc hfree hvalid =>
    rw [setSlotPc_eq]
    exact inv_act_held h ((h.slot k).locking p new hpc) (.inl (by rw [hpc]; rfl))
      (by rw [hpc]; exact Pc.noConfusion)
      (.inl rfl) rfl (slot_miss (h.slot k) hpc hfree hvalid)
  | @load p k new hpc htype =>
    have href := (h.slot k).locker p ((h.slot k).loading p new hpc).1
    have hslot := slot_load (h.slot k) hpc htype
    rw [locked, setSlotPc_eq]
    exact inv_act_held h href (.inl (by rw [hpc]; rfl)) (by rw [hpc]; exact Pc.noConfusion) (.inr rfl) rfl hslot
  | @modify p k d hpc hlock htype =>
    have href := (h.slot k).locker p hlock
    rw [setSlot_eq s p]
    exact inv_held h hpc href rfl (slot_modify (h.slot k) (h.settled hpc href) hpc hlock htype)
  | @iupdate p k hpc hlock =>
    have href := (h.slot k).locker p hlock
    rw [setDisk_eq s p]
    exact inv_held h hpc href rfl (slot_iupdate (h.slot k) (h.settled hpc href) hpc hlock)
  | @iunlock p k hpc hlock =>
    rw [setSlot_eq s p]
    exact inv_held h hpc ((h.slot k).locker p hlock) rfl (slot_iunlock (h.slot k) hpc hlock)
  | @iput p k hpc href hlock =>
    rw [setSlot_eq s p]
    exact inv_held h hpc href rfl (slot_drop (h.slot k) (h.settled hpc href) hpc href hlock)
  | @iputFree p k hpc href hlock hfree =>
    rw [setPc_eq s p k]
    exact inv_act_held h href (.inr hpc) (by rw [hpc]; exact Pc.noConfusion) (.inl rfl) rfl
      (slot_iputFree (h.slot k) (h.settled hpc href) hpc href hfree.1 hfree.2.1 hfree.2.2 hlock)
  | @trunc p k n hpc =>
    rw [setSlotPc_eq]
    exact inv_dying h hpc Stage.noConfusion rfl
      (slot_dying (h.slot k) hpc Stage.noConfusion Stage.noConfusion rfl rfl (.inl rfl))
  | @truncated p k hpc =>
    rw [setAll_eq]
    exact inv_dying h hpc Stage.noConfusion rfl
      (slot_dying (h.slot k) hpc Stage.noConfusion Stage.noConfusion rfl rfl (.inr rfl))
  | @untype p k hpc =>
    rw [setAll_eq]
    exact inv_dying h hpc Stage.noConfusion rfl (slot_untype (h.slot k) hpc Stage.noConfusion rfl)
  | @freed p k hpc =>
    rw [setSlotPc_eq]
    exact inv_freed h hpc

/-- An inode locked since its allocation has the type it was allocated for, and until it is
changed it is empty. -/
def Sound (s : State) : Prop :=
  ∀ k type new, (s.slots k).made = some (type, new) → (s.slots k).mem.type = type ∧
    (new = true → (s.slots k).mem.size = 0 ∧ ∀ j, (s.slots k).mem.addrs j = 0)

theorem Inv.sound (h : Inv s) : Sound s := by
  intro k type new hmade
  obtain ⟨-, htype, hfresh, -⟩ := (h.slot k).made type new hmade
  refine ⟨htype, ?_⟩
  intro hnew
  rw [hfresh hnew]
  exact ⟨rfl, fun _ => rfl⟩

/-- An `ilock` in the window returns an inode without a type. -/
theorem acquire_unsound (h : Inv s) (hpc : s.procs p = .locking k new)
    (hq : s.procs q = .freeing k .written) (hs : Step ninodes s (.acquire p) s') : ¬ Sound s' := by
  obtain ⟨-, -, hvalid, hzero, hothers⟩ := (h.slot k).dead q hq
  obtain ⟨type, htype⟩ : ∃ type, new = some type := by
    rcases hothers p ((h.slot k).locking p new hpc) with rfl | ⟨type, ht⟩
    · rw [hpc] at hq
      cases hq
    · rw [hpc] at ht
      cases ht
      exact ⟨type, rfl⟩
  subst htype
  have hne := ((h.slot k).born p type (.inl hpc)).1
  cases hs with
  | acquire hpc' =>
    rw [hpc] at hpc'
    cases hpc'
    intro hsound
    have hthis : (locked s p k (some type) { s.slots k with lock := some p }).slots k =
        { s.slots k with lock := some p, made := some (type, true) } := by
      simp [locked, setPc, setSlot]
    have hbad := (hsound k type true (by rw [hthis])).1
    rw [hthis] at hbad
    exact hne (hbad.symm.trans hzero)
  | miss hpc' _ hinvalid =>
    rw [hpc] at hpc'
    cases hpc'
    rw [hvalid] at hinvalid
    cases hinvalid

/-- An inode obtained from `ialloc` and `ilock` is what was asked for, and stays so until it is
unlocked and on the disk, as long as no `ilock` falls between the `iupdate` and the `flags = 0` of
an `iput`; the first that does returns an inode without a type. -/
theorem ialloc_ilock_iff {ninodes : Nat} (h : Reach (system ninodes) Apart s) :
    Sound s ∧
      (∀ p k type new s', (s.slots k).made = some (type, new) → Step ninodes s (.iupdate p k) s' →
        (s'.disk (s.slots k).ino).type = type) ∧
      ∀ a s', Step ninodes s a s' → (Sound s' ↔ Apart s a) := by
  have hinv : Inv s := h.invariant (fun _ => inv_init) (fun _ _ _ hI hok hs => inv_step hI hok hs)
  refine ⟨hinv.sound, ?_, ?_⟩
  · intro p k type new s' hmade hs
    cases hs
    simp only [setDisk, update_self]
    exact (hinv.sound k type new hmade).1
  · intro a s' hs
    constructor
    · intro hsound
      by_contra hapart
      cases a with
      | acquire p =>
        simp only [Apart, not_forall, not_not] at hapart
        obtain ⟨k, new, hpc, q, hq⟩ := hapart
        exact acquire_unsound hinv hpc hq hs hsound
      | _ => exact hapart trivial
    · intro hok
      exact (inv_step hinv hok hs).sound

def start : State where
  disk := fun ino =>
    if ino = (1, 1) then ⟨1, 0, 0, 1, 0, fun _ => 0⟩ else if ino = (1, 2) then ⟨2, 0, 0, 1, 0,
      fun _ => 0⟩ else fresh 0
  slots := fun _ => ⟨(0, 0), 0, none, false, fresh 0, [], none⟩
  procs := fun _ => .ready

theorem start_initial : Initial start := ⟨fun _ => ⟨rfl, rfl, rfl, rfl⟩, fun _ => rfl⟩

/-- No one frees an inode, so an `ilock` falls into no one's way. -/
theorem apart_acquire (h : ∀ q, q ≠ p → s.procs q = .ready) : Apart s (.acquire p) := by
  intro k new hpc q hq
  by_cases hqp : q = p
  · rw [hqp, hpc] at hq
    cases hq
  · rw [h q hqp] at hq
    cases hq

/-- A process allocates the third inode and locks it. -/
theorem ialloc_ilock_third : ∃ s, Reach (system 200) Apart s ∧ (s.slots 0).made = some (2, true) ∧
    (s.slots 0).mem.type = 2 := by
  have h0 : Reach (system 200) Apart start := Reach.init start_initial
  have h1 := Reach.step (a := Act.ialloc 0 1 2) h0 trivial (Step.ialloc rfl (by decide))
  have h2 := Reach.step (a := Act.scan 0) h1 trivial (Step.skip rfl (by decide) (by decide))
  have h3 := Reach.step (a := Act.scan 0) h2 trivial (Step.skip rfl (by decide) (by decide))
  have h4 := Reach.step (a := Act.scan 0) h3 trivial (Step.claim rfl (by decide) (by decide))
  have h5 := Reach.step (a := Act.iget 0) h4 trivial (Step.iget (k := 0) rfl rfl)
  have h6 := Reach.step (a := Act.acquire 0) h5
    (apart_acquire (fun q hq => by simp [setPc, setSlot, setDisk, hq, start])) (Step.miss rfl rfl rfl)
  have h7 := Reach.step (a := Act.load 0) h6 trivial (Step.load rfl (by decide))
  exact ⟨_, h7, rfl, ((ialloc_ilock_iff h7).1 0 2 true rfl).1⟩

/-- The truncation of an `iput` runs to its end. -/
theorem trunc_run (h : Reachable (system ninodes) s) (hpc : s.procs p = .freeing k (.trunc n))
    (hn : n ≤ naddrs) : ∃ addrs : Nat → BitVec 32, Reachable (system ninodes)
      (setPc (setSlot s k { s.slots k with mem := { (s.slots k).mem with addrs := addrs } }) p
        (.freeing k (.trunc naddrs))) := by
  induction hm : naddrs - n generalizing s n with
  | zero =>
    have hend : n = naddrs := by omega
    have hsame : setPc (setSlot s k (s.slots k)) p (.freeing k (.trunc naddrs)) = s := by
      rw [← hend, ← hpc]
      simp [setPc, setSlot]
    exact ⟨(s.slots k).mem.addrs, by rwa [hsame]⟩
  | succ m ih =>
    have hnext := h.next (a := Act.free p) (Step.trunc hpc (by omega))
    obtain ⟨addrs, hrun⟩ := ih (n := n + 1) hnext (by simp [setPc]) (by omega) (by omega)
    refine ⟨addrs, ?_⟩
    simpa [setPc, setSlot] using hrun

theorem iput_races_ialloc : ∃ s, Reachable (system 200) s ∧ (s.slots 0).made = some (2, true) ∧
    (s.slots 0).mem.type = 0 := by
  have h0 : Reachable (system 200) start := Reach.init start_initial
  have h1 := h0.next (a := Act.lookup 0 (1, 2)) (Step.lookup (k := 0) rfl ⟨by decide, by decide⟩ rfl)
  have h2 := h1.next (a := Act.ilock 0 0) (Step.ilock rfl (by decide))
  have h3 := h2.next (a := Act.acquire 0) (Step.miss rfl rfl rfl)
  have h4 := h3.next (a := Act.load 0) (Step.load rfl (by decide))
  have h5 := h4.next (a := Act.modify 0 0 ⟨2, 0, 0, 0, 0, fun _ => 0⟩) (Step.modify rfl rfl rfl)
  have h6 := h5.next (a := Act.iupdate 0 0) (Step.iupdate rfl rfl)
  have h7 := h6.next (a := Act.iunlock 0 0) (Step.iunlock rfl rfl)
  have h8 := h7.next (a := Act.iput 0 0) (Step.iputFree rfl (by decide) (by decide) ⟨rfl, rfl, rfl⟩)
  obtain ⟨addrs, h9⟩ := trunc_run (p := 0) h8 rfl (Nat.zero_le _)
  have h10 := h9.next (a := Act.free 0) (Step.truncated rfl)
  have h11 := h10.next (a := Act.free 0) (Step.untype rfl)
  have h12 := h11.next (a := Act.ialloc 1 1 2) (Step.ialloc rfl (by decide))
  have h13 := h12.next (a := Act.scan 1) (Step.skip rfl (by decide) (show (1 : BitVec 16) ≠ 0 by decide))
  have h14 := h13.next (a := Act.scan 1) (Step.claim rfl (by decide) rfl)
  have h15 := h14.next (a := Act.iget 1) (Step.iget (k := 0) rfl rfl)
  have h16 := h15.next (a := Act.acquire 1) (Step.acquire rfl rfl rfl)
  exact ⟨_, h16, rfl, rfl⟩

end Xv6.InodeAlloc
