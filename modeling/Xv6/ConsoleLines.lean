import Xv6.Console

/-!
# The input buffer as a queue and a line

`Holds i unread line` reads the three indices and the ring as two lists: the committed bytes that no
read has taken, and the line being edited. A character changes them as it changes the editor, and a
section of a read takes a piece off the front of the first list.
-/
namespace Xv6.Console

open Words RingBuffer

variable {i : Input} {unread line : List Byte} {c : Byte}

structure Holds (i : Input) (unread line : List Byte) : Prop where
  w_eq : i.w = i.r + BitVec.ofNat 32 unread.length
  e_eq : i.e = i.r + BitVec.ofNat 32 (unread.length + line.length)
  room : unread.length + line.length ≤ inputBuf
  bytes : window inputBuf i.buf i.r (unread.length + line.length) = unread ++ line

namespace Holds

section

variable (h : Holds i unread line)
include h

theorem count_w : count i.r i.w = unread.length := by
  have hroom := h.room
  rw [count_eq (by simp only [inputBuf] at hroom; omega)]
  exact h.w_eq

theorem count_e : count i.r i.e = unread.length + line.length := by
  have hroom := h.room
  rw [count_eq (by simp only [inputBuf] at hroom; omega)]
  exact h.e_eq

theorem e_from_w : i.e = i.w + BitVec.ofNat 32 line.length := by
  rw [h.e_eq, h.w_eq, BitVec.ofNat_add, BitVec.add_assoc]

theorem count_line : count i.w i.e = line.length := by
  have hroom := h.room
  rw [count_eq (by simp only [inputBuf] at hroom; omega)]
  exact h.e_from_w

theorem windows :
    window inputBuf i.buf i.r unread.length = unread ∧ window inputBuf i.buf i.w line.length = line := by
  have hb := h.bytes
  rw [window_append, ← h.w_eq] at hb
  exact List.append_inj hb (by simp)

theorem e_eq_w : i.e = i.w ↔ line = [] := by
  rw [eq_comm, ← count_eq_zero, h.count_line, List.length_eq_zero_iff]

theorem r_eq_w : i.r = i.w ↔ unread = [] := by
  rw [← count_eq_zero, h.count_w, List.length_eq_zero_iff]

end

section

variable (h : Holds i unread (line ++ [c]))
include h

theorem e_pred : i.e - 1 = i.r + BitVec.ofNat 32 (unread.length + line.length) := by
  rw [h.e_eq, List.length_append, List.length_singleton, ← Nat.add_assoc, BitVec.ofNat_add, ← BitVec.add_assoc]
  exact BitVec.add_sub_cancel _ _

theorem bytes_concat :
    window inputBuf i.buf i.r (unread.length + line.length) = unread ++ line ∧
    i.buf (slot inputBuf (i.e - 1)) = c := by
  have hb := h.bytes
  rw [List.length_append, List.length_singleton, ← Nat.add_assoc, window_snoc, ← h.e_pred,
    ← List.append_assoc] at hb
  obtain ⟨hfront, hlast⟩ := List.append_inj' hb rfl
  exact ⟨hfront, by simpa using hlast⟩

theorem erase : Holds { i with e := i.e - 1 } unread line where
  w_eq := h.w_eq
  e_eq := h.e_pred
  room := by
    have hroom := h.room
    simp only [List.length_append, List.length_singleton] at hroom
    omega
  bytes := h.bytes_concat.1

end

section

variable (h : Holds i unread line)
include h

theorem backspace :
    Holds (if i.e ≠ i.w then { i with e := i.e - 1 } else i) unread line.dropLast := by
  cases line using List.reverseRecOn with
  | nil =>
    rw [if_neg (by rw [not_not, h.e_eq_w])]
    exact h
  | append_singleton front c =>
    rw [if_pos (by rw [ne_eq, h.e_eq_w]; simp), List.dropLast_concat]
    exact h.erase

/-- ^U stops at a newline, but the line being edited has none. -/
theorem killLine (hline : newline ∉ line) :
    Holds (Console.killLine line.length i) unread [] := by
  induction line using List.reverseRecOn generalizing i with
  | nil => exact h
  | append_singleton front c ih =>
    rw [List.mem_append, List.mem_singleton, not_or] at hline
    have hgo : i.e ≠ i.w ∧ i.buf (slot inputBuf (i.e - 1)) ≠ newline := by
      rw [h.bytes_concat.2, ne_eq, h.e_eq_w]
      exact ⟨by simp, Ne.symm hline.2⟩
    rw [List.length_append, List.length_singleton, Console.killLine, if_pos hgo]
    exact ih h.erase hline.1

theorem store (hroom : unread.length + line.length < inputBuf) :
    Holds { i with buf := Function.update i.buf (slot inputBuf i.e) c, e := i.e + 1 } unread (line ++ [c]) where
  w_eq := h.w_eq
  e_eq := by
    rw [List.length_append, List.length_singleton, ← Nat.add_assoc, BitVec.ofNat_add, ← BitVec.add_assoc, ← h.e_eq]
    rfl
  room := by
    simp only [List.length_append, List.length_singleton]
    omega
  bytes := by
    have hpush := @window_push _ inputBuf _ i.buf i.r c (by decide) hroom
    rw [← h.e_eq, h.bytes] at hpush
    simpa only [List.length_append, List.length_singleton, ← Nat.add_assoc, List.append_assoc] using hpush

theorem commit : Holds { i with w := i.e } (unread ++ line) [] where
  w_eq := by rw [h.e_eq, List.length_append]
  e_eq := by rw [h.e_eq, List.length_append, List.length_nil, Nat.add_zero]
  room := by simpa using h.room
  bytes := by simpa using h.bytes

theorem full :
    i.e = i.r + BitVec.ofNat 32 inputBuf ↔ unread.length + line.length = inputBuf := by
  rw [← count_eq (by decide), h.count_e]

end

end Holds

structure Edits (i : Input) (ed : Editor) (unread : List Byte) : Prop where
  holds : Holds i unread ed.line
  plain : newline ∉ ed.line

theorem typed_edits {ed : Editor} (h : Edits i ed unread) (c : Byte) :
    ∃ new, (ed.append unread.length c).committed = ed.committed ++ new ∧
      Edits (typed i c).1 (ed.append unread.length c) (unread ++ new) := by
  obtain ⟨h, hplain⟩ := h
  have hcount : (i.e - i.r).toNat = unread.length + ed.line.length := h.count_e
  simp only [typed, Editor.append, hcount]
  split
  case isFalse => exact ⟨[], by simp, by simpa using h, hplain⟩
  case isTrue hroom =>
    generalize hd : (if c = 0x0d then newline else c) = d
    have hstore := h.store (c := d) hroom.2
    have hfull := hstore.full
    simp only at hfull
    simp only [hfull]
    split
    case isTrue => exact ⟨ed.line ++ [d], rfl, hstore.commit, by simp⟩
    case isFalse hgo =>
      refine ⟨[], by simp, by simpa using hstore, ?_⟩
      rw [List.mem_append, List.mem_singleton]
      rintro (hmem | heq)
      · exact hplain hmem
      · exact hgo (.inl heq.symm)

/-- A character moves the buffer as it moves the editor. -/
theorem consoleintr_edits {ed : Editor} (h : Edits i ed unread) (c : Byte) :
    ∃ new, (ed.type unread.length c).committed = ed.committed ++ new ∧
      Edits (consoleintr i c).1 (ed.type unread.length c) (unread ++ new) := by
  rw [consoleintr, Editor.type]
  by_cases hquiet : c = 0x1a ∨ c = 0x10
  · rw [if_pos hquiet, if_pos hquiet]
    exact ⟨[], by simp, by simpa using h⟩
  rw [if_neg hquiet, if_neg hquiet]
  by_cases hkill : c = 0x15
  · rw [if_pos hkill, if_pos hkill, h.holds.count_line]
    exact ⟨[], by simp, by simpa using h.holds.killLine h.plain, by simp⟩
  rw [if_neg hkill, if_neg hkill]
  by_cases hback : c = 0x08 ∨ c = 0x7f
  · rw [if_pos hback, if_pos hback]
    refine ⟨[], by simp, ?_, fun hmem => h.plain (List.dropLast_subset _ hmem)⟩
    rw [List.append_nil]
    exact h.holds.backspace
  rw [if_neg hback, if_neg hback]
  exact typed_edits h c

theorem Holds.take (h : Holds i (c :: unread) line) :
    i.buf (slot inputBuf i.r) = c ∧ Holds { i with r := i.r + 1 } unread line := by
  have hsucc (n : Nat) : i.r + BitVec.ofNat 32 (n + 1) = i.r + 1 + BitVec.ofNat 32 n := by
    rw [Nat.add_comm, BitVec.ofNat_add, ← BitVec.add_assoc]
    rfl
  have hb := h.bytes
  rw [List.length_cons, Nat.add_right_comm, window_cons, List.cons_append, List.cons.injEq] at hb
  refine ⟨hb.1, ?_, ?_, ?_, hb.2⟩
  · rw [← hsucc]
    exact h.w_eq
  · rw [← hsucc, ← Nat.add_right_comm]
    exact h.e_eq
  · have hroom := h.room
    rw [List.length_cons] at hroom
    omega

/-- What a section of a read with `n` bytes to go does: it takes `chunk`, and a ^D if it ends with
`eof`. -/
structure Section (killed : Bool) (target n : Nat) (unread line got : List Byte) (i : Input) (got' : List Byte)
    (ending : Ending) (chunk rest : List Byte) : Prop where
  taken : unread = chunk ++ (if ending = .eof then [ctrlD] else []) ++ rest
  got : got' = got ++ chunk
  holds : Holds i rest line
  plain : ctrlD ∉ chunk
  full : ending = .full → chunk.length = n
  ended : ending = .newline → ∃ front, chunk = front ++ [newline] ∧ newline ∉ front
  others : ending ≠ .newline → newline ∉ chunk
  length : chunk.length ≤ n
  eof : ending = .eof → target ≤ n - chunk.length ∧ chunk.length < n
  held : ending = .held → n - chunk.length < target ∧ ∃ rest', rest = ctrlD :: rest'
  asleep : ending = .asleep → rest = [] ∧ chunk.length < n
  failed : ending = .failed → killed = true

theorem Section.cons {killed : Bool} {target n : Nat} {got got' chunk rest : List Byte} {ending : Ending}
    (h : Section killed target n unread line (got ++ [c]) i got' ending chunk rest) (hd : c ≠ ctrlD)
    (hn : c ≠ newline) :
    Section killed target (n + 1) (c :: unread) line got i got' ending (c :: chunk) rest where
  taken := by rw [h.taken]; rfl
  got := by rw [h.got, List.append_assoc]; rfl
  holds := h.holds
  plain := by simp [h.plain, Ne.symm hd]
  full he := by simp [h.full he]
  ended he := by
    obtain ⟨front, rfl, hfront⟩ := h.ended he
    exact ⟨c :: front, rfl, by simp [hfront, Ne.symm hn]⟩
  others he := by simp [h.others he, Ne.symm hn]
  length := by simpa using h.length
  eof he := by simpa using h.eof he
  held he := by simpa using h.held he
  asleep he := by simpa using h.asleep he
  failed := h.failed

theorem readLoop_section (killed : Bool) (target n : Nat) (h : Holds i unread line) (got : List Byte) :
    ∃ i' got' ending chunk rest, readLoop killed target n i got = (i', got', ending) ∧
      Section killed target n unread line got i' got' ending chunk rest := by
  induction n generalizing i unread got with
  | zero => exact ⟨i, got, .full, [], unread, rfl, by constructor <;> simp [h]⟩
  | succ n ih =>
    rw [readLoop]
    cases unread with
    | nil =>
      rw [if_pos (h.r_eq_w.mpr rfl)]
      refine ⟨i, got, _, [], [], rfl, ?_⟩
      cases killed <;> constructor <;> simp [h]
    | cons c unread =>
      rw [if_neg (by rw [h.r_eq_w]; simp)]
      obtain ⟨hc, hrest⟩ := h.take
      simp only [hc]
      by_cases hd : c = ctrlD
      · rw [if_pos hd]
        subst hd
        by_cases hshort : n + 1 < target
        · rw [if_pos hshort, BitVec.add_sub_cancel]
          exact ⟨i, got, .held, [], ctrlD :: unread, rfl, by constructor <;> simp [h, hshort]⟩
        · rw [if_neg hshort]
          refine ⟨_, got, .eof, [], unread, rfl, ?_⟩
          constructor
          case holds => exact hrest
          all_goals simp [Nat.le_of_not_lt hshort]
      rw [if_neg hd]
      by_cases hn : c = newline
      · rw [if_pos hn]
        subst hn
        refine ⟨_, _, .newline, [newline], unread, rfl, ?_⟩
        constructor
        case holds => exact hrest
        all_goals simp [ctrlD, newline]
      rw [if_neg hn]
      obtain ⟨i', got', ending, chunk, rest, heq, hs⟩ := ih hrest (got ++ [c])
      exact ⟨i', got', ending, c :: chunk, rest, heq, hs.cons hd hn⟩

end Xv6.Console
