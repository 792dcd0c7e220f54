import Xv6.CopyLoop
import Xv6.Regexp

/-!
# `grep` and the pieces that `read` returns

`grep` keeps what follows the last newline of its buffer for the next `read`. Where the buffer holds
no newline at all it keeps nothing, so a piece without a newline is lost together with the start of
its line.
-/
namespace Xv6.Grep

open Words CopyLoop Regexp Function

def bufSize : Nat := 1024

def newline : Byte := 0x0A

/-- `strchr(p, c)` in the rest of the buffer, which has `k` bytes. -/
def strchr (buf : Nat → Byte) (c : Byte) : Nat → Nat → Option Nat
  | 0, _ => none
  | k + 1, p => if buf p = 0 then none else if buf p = c then some p else strchr buf c k (p + 1)

theorem strchr_bounds {buf : Nat → Byte} {c : Byte} {k p q : Nat} (h : strchr buf c k p = some q) :
    p ≤ q ∧ q < p + k := by
  induction k generalizing p with
  | zero => cases h
  | succ k ih =>
    rw [strchr] at h
    split at h
    · cases h
    split at h
    · cases h
      omega
    · have := ih h
      omega

def cstr (buf : Nat → Byte) : Nat → Nat → List Byte
  | 0, _ => []
  | k + 1, p => if buf p = 0 then [] else buf p :: cstr buf k (p + 1)

def bytes (buf : Nat → Byte) (p n : Nat) : List Byte := (List.range' p n).map buf

def store (buf : Nat → Byte) (p : Nat) : List Byte → Nat → Byte
  | [] => buf
  | c :: x => store (update buf p c) (p + 1) x

/-- The loop over the lines in the buffer: the buffer, `p` and the output after it. -/
def grepLines (pattern : List Byte) (buf : Nat → Byte) (p : Nat) (out : List Byte) :
    (Nat → Byte) × Nat × List Byte :=
  match h : strchr buf newline (bufSize - p) p with
  | none => (buf, p, out)
  | some q =>
    let cut := update buf q 0
    if matchText pattern (cstr cut (bufSize - p) p) = true then
      let whole := update cut q newline
      grepLines pattern whole (q + 1) (out ++ bytes whole p (q + 1 - p))
    else grepLines pattern cut (q + 1) out
termination_by bufSize - p
decreasing_by all_goals
  have := strchr_bounds h
  omega

structure State where
  buf : Nat → Byte
  m : Nat
  out : List Byte

def State.request (s : State) : Nat := bufSize - s.m - 1

/-- One turn of the loop of `grep`, when `read` has returned the bytes `x`. -/
def turn (pattern : List Byte) (s : State) (x : List Byte) : State :=
  let m := s.m + x.length
  let buf := update (store s.buf s.m x) m 0
  let (buf, p, out) := grepLines pattern buf 0 s.out
  let m := if p = 0 then 0 else m
  if 0 < m then ⟨copyUp buf 0 p (m - p), m - p, out⟩ else ⟨buf, m, out⟩

/-- `grep`, with what the calls of `read` return; a request for no bytes returns 0. -/
def grepLoop (pattern : List Byte) (s : State) : List (List Byte) → List Byte
  | [] => s.out
  | x :: reads => if s.request = 0 then s.out else grepLoop pattern (turn pattern s x) reads

def start : State := ⟨fun _ => 0, 0, []⟩

def grep (pattern : List Byte) (reads : List (List Byte)) : List Byte := grepLoop pattern start reads

/-- Every `read` returns at least one byte and no more than requested. -/
def Served (pattern : List Byte) (s : State) : List (List Byte) → Prop
  | [] => True
  | x :: reads => x ≠ [] ∧ x.length ≤ s.request ∧ Served pattern (turn pattern s x) reads

def render (ls : List (List Byte)) : List Byte := ls.flatMap (· ++ [newline])

/-- The lines that match, whole and in order. -/
def Right (pattern : List Byte) (ls reads : List (List Byte)) : Prop :=
  grep pattern reads = render (ls.filter (matchText pattern))

def Holds (buf : Nat → Byte) : Nat → List Byte → Prop
  | _, [] => True
  | p, c :: b => buf p = c ∧ Holds buf (p + 1) b

variable {buf buf' : Nat → Byte} {p q k : Nat} {c : Byte} {a b l tail x out pattern : List Byte}
  {ls bodies reads : List (List Byte)}
  {s : State}

theorem holds_append : Holds buf p (a ++ b) ↔ Holds buf p a ∧ Holds buf (p + a.length) b := by
  induction a generalizing p with
  | nil => simp [Holds]
  | cons c a ih =>
    rw [List.cons_append, Holds, Holds, ih, List.length_cons, and_assoc,
      show p + 1 + a.length = p + (a.length + 1) by omega]

/-- The bytes stand at another place too. -/
theorem Holds.shift (h : Holds buf p b) (hsame : ∀ i < b.length, buf' (q + i) = buf (p + i)) : Holds buf' q b := by
  induction b generalizing p q with
  | nil => trivial
  | cons c b ih =>
    rw [List.length_cons] at hsame
    refine ⟨(hsame 0 (by omega)).trans h.1, ih h.2 fun i hi => ?_⟩
    rw [show q + 1 + i = q + (i + 1) by omega, show p + 1 + i = p + (i + 1) by omega]
    exact hsame (i + 1) (by omega)

theorem Holds.congr (h : Holds buf p b) (hsame : ∀ i, p ≤ i → i < p + b.length → buf' i = buf i) :
    Holds buf' p b :=
  h.shift fun i hi => hsame (p + i) (by omega) (by omega)

/-- A store outside the bytes. -/
theorem Holds.update (h : Holds buf p b) (hq : q < p ∨ p + b.length ≤ q) : Holds (update buf q c) p b :=
  h.congr fun i _ _ => update_of_ne (by omega) ..

theorem bytes_of_holds (h : Holds buf p b) : bytes buf p b.length = b := by
  induction b generalizing p with
  | nil => rfl
  | cons c b ih =>
    have htail : (List.range' (p + 1) b.length).map buf = b := ih h.2
    rw [bytes, List.length_cons, List.range'_succ, List.map_cons, h.1, htail]

theorem holds_store (buf : Nat → Byte) (p : Nat) (x : List Byte) :
    Holds (store buf p x) p x ∧ ∀ i, i < p ∨ p + x.length ≤ i → store buf p x i = buf i := by
  induction x generalizing buf p with
  | nil => exact ⟨trivial, fun _ _ => rfl⟩
  | cons c x ih =>
    obtain ⟨hx, hsame⟩ := ih (update buf p c) (p + 1)
    rw [List.length_cons]
    refine ⟨⟨?_, hx⟩, fun i hi => ?_⟩
    · rw [store, hsame p (by omega), update_self]
    · rw [store, hsame i (by omega), update_of_ne (by omega)]

theorem strchr_found (h : Holds buf p (l ++ newline :: b)) (hline : newline ∉ l)
    (hnul : (0 : Byte) ∉ l) (hk : l.length < k) :
    strchr buf newline k p = some (p + l.length) := by
  induction l generalizing p k with
  | nil =>
    obtain ⟨k, rfl⟩ : ∃ j, k = j + 1 := ⟨k - 1, by omega⟩
    rw [strchr, show buf p = newline from h.1]
    simp [newline]
  | cons c l ih =>
    obtain ⟨k, rfl⟩ : ∃ j, k = j + 1 := ⟨k - 1, by omega⟩
    simp only [List.mem_cons, not_or] at hline hnul
    rw [List.length_cons] at hk
    rw [strchr, show buf p = c from h.1, if_neg (Ne.symm hnul.1), if_neg (Ne.symm hline.1),
      ih h.2 hline.2 hnul.2 (by omega),
      List.length_cons]
    congr 1
    omega

theorem strchr_none (h : Holds buf p b) (hend : buf (p + b.length) = 0) (hline : newline ∉ b) :
    strchr buf newline k p = none := by
  induction b generalizing p k with
  | nil =>
    cases k with
    | zero => rfl
    | succ k => rw [strchr, if_pos (show buf p = 0 from hend)]
  | cons c b ih =>
    cases k with
    | zero => rfl
    | succ k =>
      simp only [List.mem_cons, not_or] at hline
      rw [List.length_cons, show p + (b.length + 1) = p + 1 + b.length by omega] at hend
      rw [strchr, show buf p = c from h.1, if_neg (Ne.symm hline.1), ih h.2 hend hline.2, ite_self]

theorem cstr_of_holds (h : Holds buf p l) (hend : buf (p + l.length) = 0) (hnul : (0 : Byte) ∉ l)
    (hk : l.length < k) :
    cstr buf k p = l := by
  induction l generalizing p k with
  | nil =>
    obtain ⟨k, rfl⟩ : ∃ j, k = j + 1 := ⟨k - 1, by omega⟩
    rw [cstr, if_pos (show buf p = 0 from hend)]
  | cons c l ih =>
    obtain ⟨k, rfl⟩ : ∃ j, k = j + 1 := ⟨k - 1, by omega⟩
    simp only [List.mem_cons, not_or] at hnul
    rw [List.length_cons] at hk
    rw [List.length_cons, show p + (l.length + 1) = p + 1 + l.length by omega] at hend
    rw [cstr, show buf p = c from h.1, if_neg (Ne.symm hnul.1), ih h.2 hend hnul.2 (by omega)]

def Plain (l : List Byte) : Prop := newline ∉ l ∧ (0 : Byte) ∉ l

instance (l : List Byte) : Decidable (Plain l) := inferInstanceAs (Decidable (_ ∧ _))

theorem render_cons (l : List Byte) (ls : List (List Byte)) : render (l :: ls) = l ++ newline :: render ls := by
  simp [render]

theorem render_append (ls ls' : List (List Byte)) : render (ls ++ ls') = render ls ++ render ls' :=
    List.flatMap_append

/-- Some bytes of a stream of lines are whole lines and the start of the next. -/
theorem split_render {rest : List Byte} (h : a ++ rest = render ls) (hls : ∀ l ∈ ls, Plain l) :
    ∃ bodies tail ls', ls = bodies ++ ls' ∧ a = render bodies ++ tail ∧ tail ++ rest = render ls' ∧
      Plain tail := by
  induction ls generalizing a with
  | nil =>
    obtain ⟨rfl, rfl⟩ := List.append_eq_nil_iff.mp h
    exact ⟨[], [], [], rfl, rfl, rfl, by simp [Plain]⟩
  | cons l ls ih =>
    obtain ⟨hl, hls⟩ := List.forall_mem_cons.mp hls
    rw [render_cons] at h
    obtain ⟨b, rfl, rfl⟩ | ⟨b, rfl, hrest⟩ := List.append_eq_append_iff.mp h
    · refine ⟨[], a, (a ++ b) :: ls, rfl, rfl, ?_, ?_⟩
      · rw [render_cons, List.append_assoc]
      · exact ⟨fun hmem => hl.1 (List.mem_append_left b hmem), fun hmem => hl.2 (List.mem_append_left b hmem)⟩
    · cases b with
      | nil =>
        refine ⟨[], l, l :: ls, rfl, by simp [render], ?_, hl⟩
        rw [render_cons, hrest, List.nil_append]
      | cons c b =>
        obtain ⟨rfl, hafter⟩ := List.cons.inj hrest
        obtain ⟨bodies, tail, ls', rfl, rfl, htail, hplain⟩ := ih hafter.symm hls
        refine ⟨l :: bodies, tail, ls', rfl, ?_, htail, hplain⟩
        rw [render_cons, List.append_assoc, List.cons_append]

/-- Bytes without NUL are lines and a rest. -/
theorem exists_lines (hnul : (0 : Byte) ∉ b) : ∃ bodies tail, b = render bodies ++ tail ∧
    (∀ l ∈ bodies, Plain l) ∧ Plain tail := by
  induction b with
  | nil => exact ⟨[], [], rfl, by simp, by simp [Plain]⟩
  | cons c b ih =>
    simp only [List.mem_cons, not_or] at hnul
    obtain ⟨bodies, tail, rfl, hbodies, htail⟩ := ih hnul.2
    by_cases hc : c = newline
    · refine ⟨[] :: bodies, tail, ?_, List.forall_mem_cons.mpr ⟨by simp [Plain], hbodies⟩, htail⟩
      rw [render_cons, hc]
      rfl
    · have hone {l : List Byte} (hl : Plain l) : Plain (c :: l) := by
        refine ⟨fun hmem => ?_, fun hmem => ?_⟩
        · rcases List.mem_cons.mp hmem with h | h
          · exact hc h.symm
          · exact hl.1 h
        · rcases List.mem_cons.mp hmem with h | h
          · exact hnul.1 h
          · exact hl.2 h
      cases bodies with
      | nil => exact ⟨[], c :: tail, rfl, by simp, hone htail⟩
      | cons l bodies =>
        obtain ⟨hl, hbodies⟩ := List.forall_mem_cons.mp hbodies
        refine ⟨(c :: l) :: bodies, tail, ?_, List.forall_mem_cons.mpr ⟨hone hl, hbodies⟩, htail⟩
        rw [render_cons, render_cons]
        rfl

theorem mem_render_iff : newline ∈ render bodies ↔ bodies ≠ [] := by
  cases bodies with
  | nil => simp [render]
  | cons l bodies => simp [render_cons]

theorem grepLines_eq (pattern out : List Byte) (h : Holds buf p (render bodies ++ tail))
    (hend : buf (p + (render bodies ++ tail).length) = 0)
    (hsize : p + (render bodies ++ tail).length < bufSize) (hbodies : ∀ l ∈ bodies, Plain l) (htail : Plain tail) :
    ∃ buf', grepLines pattern buf p out =
        (buf', p + (render bodies).length, out ++ render (bodies.filter (matchText pattern))) ∧
      Holds buf' (p + (render bodies).length) tail := by
  induction bodies generalizing buf p out with
  | nil =>
    have hnone : strchr buf newline (bufSize - p) p = none := strchr_none h hend htail.1
    refine ⟨buf, ?_, h⟩
    rw [grepLines]
    split
    · simp [render]
    · rename_i q hq
      rw [hnone] at hq
      cases hq
  | cons l bodies ih =>
    obtain ⟨hl, hbodies⟩ := List.forall_mem_cons.mp hbodies
    rw [render_cons, List.append_assoc, List.cons_append] at h hend hsize
    simp only [List.length_append, List.length_cons] at hend hsize
    have hfound : strchr buf newline (bufSize - p) p = some (p + l.length) := strchr_found h hl.1 hl.2 (by omega)
    obtain ⟨hline, hnl, hrest⟩ := holds_append.mp h
    have hcut : Holds (update buf (p + l.length) 0) p l := hline.update (by omega)
    have hstr : cstr (update buf (p + l.length) 0) (bufSize - p) p = l :=
      cstr_of_holds hcut (update_self ..) hl.2 (by omega)
    have hlen : p + (render (l :: bodies)).length = p + l.length + 1 + (render bodies).length := by
      rw [render_cons, List.length_append, List.length_cons]
      omega
    have hgo (buf₁ : Nat → Byte) (out₁ : List Byte) (hsame : ∀ i, i ≠ p + l.length → buf₁ i = buf i) :=
      have hkept : Holds buf₁ (p + l.length + 1) (render bodies ++ tail) :=
        hrest.congr fun i hi _ => hsame i (by omega)
      ih out₁ hkept (by rw [hsame _ (by omega), ← hend]; congr 1; rw [List.length_append]; omega)
        (by rw [List.length_append]; omega) hbodies
    rw [hlen, grepLines]
    split
    · rename_i hq
      rw [hfound] at hq
      cases hq
    rename_i q hq
    obtain rfl : p + l.length = q := Option.some.inj (hfound.symm.trans hq)
    dsimp only
    rw [hstr]
    by_cases hit : matchText pattern l = true
    · have hwhole : Holds (update (update buf (p + l.length) 0) (p + l.length) newline) p (l ++ [newline]) :=
        holds_append.mpr ⟨hcut.update (by omega), update_self .., trivial⟩
      have hbytes := bytes_of_holds hwhole
      rw [List.length_append, List.length_singleton] at hbytes
      rw [if_pos hit, show p + l.length + 1 - p = l.length + 1 by omega, hbytes,
        List.filter_cons_of_pos hit, render_cons]
      obtain ⟨buf', hrun, hhold⟩ := hgo (update (update buf (p + l.length) 0) (p + l.length) newline)
        (out ++ (l ++ [newline])) (fun i hi => by rw [update_of_ne hi, update_of_ne hi])
      refine ⟨buf', hrun.trans ?_, hhold⟩
      simp
    · obtain ⟨buf', hrun, hhold⟩ := hgo (update buf (p + l.length) 0) out (fun i hi => update_of_ne hi ..)
      rw [if_neg hit, List.filter_cons_of_neg hit]
      exact ⟨buf', hrun, hhold⟩

/-- The buffer starts with the bytes `t` and nothing after them counts. -/
structure Carries (s : State) (t : List Byte) : Prop where
  m : s.m = t.length
  holds : Holds s.buf 0 t
  plain : Plain t

/-- One turn writes the whole lines that match and keeps what follows them, if there is a whole
line. -/
theorem turn_eq (pattern : List Byte) {t : List Byte} (h : Carries s t) (hx : x ≠ [])
    (hsize : x.length ≤ s.request) (hlines : t ++ x = render bodies ++ tail)
    (hbodies : ∀ l ∈ bodies, Plain l) (htail : Plain tail) :
    Carries (turn pattern s x) (if bodies = [] then [] else tail) ∧
      (turn pattern s x).out = s.out ++ render (bodies.filter (matchText pattern)) := by
  have hpos := List.length_pos_of_ne_nil hx
  have hm := h.m
  rw [State.request] at hsize
  have hlen : s.m + x.length = (render bodies ++ tail).length := by rw [← hlines, List.length_append, hm]
  obtain ⟨hstore, hkept⟩ := holds_store s.buf s.m x
  have hall : Holds (store s.buf s.m x) 0 (render bodies ++ tail) := by
    rw [← hlines, holds_append, Nat.zero_add, ← hm]
    exact ⟨h.holds.congr fun i _ hi => hkept i (by omega), hstore⟩
  have hput : Holds (update (store s.buf s.m x) (s.m + x.length) 0) 0 (render bodies ++ tail) :=
    hall.update (by omega)
  obtain ⟨buf', hrun, hhold⟩ := grepLines_eq pattern s.out hput
    (by rw [Nat.zero_add, ← hlen, update_self]) (by rw [Nat.zero_add, ← hlen]; omega) hbodies htail
  rw [Nat.zero_add] at hrun hhold
  rw [turn]
  dsimp only
  rw [hrun]
  dsimp only
  cases bodies with
  | nil => exact ⟨⟨rfl, trivial, by simp [Plain]⟩, rfl⟩
  | cons l bodies =>
    have hp : 0 < (render (l :: bodies)).length := by simp [render_cons]
    have hrest : s.m + x.length - (render (l :: bodies)).length = tail.length := by
      rw [hlen, List.length_append]
      omega
    simp only [show ¬ (render (l :: bodies)).length = 0 by omega, show 0 < s.m + x.length by omega,
      ↓reduceIte, hrest, reduceCtorEq]
    refine ⟨⟨rfl, hhold.shift fun i hi => ?_, htail⟩, trivial⟩
    have hup := (numbered_nat (i + (render (l :: bodies)).length + tail.length + 1)).copyUp buf'
      (n := tail.length) (d := 0)
      (s := (render (l :: bodies)).length) (x := i) (by omega) (by omega) (by omega)
    rw [if_pos (by omega), origin_of_le (by omega), Nat.sub_zero] at hup
    rw [Nat.zero_add]
    exact hup

theorem render_filter_nil (ls : List (List Byte)) : ls.filter (matchText []) = ls := by
  refine List.filter_eq_self.mpr fun l _ => ?_
  cases l <;> rfl

/-- Where every piece has a newline, nothing is lost. -/
theorem grepLoop_whole {t : List Byte} (h : Carries s t) (hserved : Served pattern s reads)
    (hpieces : ∀ x ∈ reads, newline ∈ x)
    (hls : ∀ l ∈ ls, Plain l) (hall : t ++ reads.flatten = render ls) :
    grepLoop pattern s reads = s.out ++ render (ls.filter (matchText pattern)) := by
  induction reads generalizing s t ls with
  | nil =>
    rw [List.flatten_nil, List.append_nil] at hall
    obtain rfl : ls = [] := by
      by_contra hne
      exact h.plain.1 (hall ▸ mem_render_iff.mpr hne)
    simp [grepLoop, render]
  | cons x reads ih =>
    obtain ⟨hx, hsize, hserved⟩ := hserved
    obtain ⟨hnl, hpieces⟩ := List.forall_mem_cons.mp hpieces
    have hpos := List.length_pos_of_ne_nil hx
    rw [List.flatten_cons, ← List.append_assoc] at hall
    obtain ⟨bodies, tail, ls', rfl, hlines, hrest, htail⟩ := split_render hall hls
    have hne : bodies ≠ [] := by
      rintro rfl
      have hmem : newline ∈ t ++ x := List.mem_append_right t hnl
      rw [hlines] at hmem
      exact htail.1 hmem
    obtain ⟨hcarry, hout⟩ := turn_eq pattern h hx hsize hlines
      (fun l hl => hls l (List.mem_append_left ls' hl)) htail
    rw [if_neg hne] at hcarry
    rw [grepLoop, if_neg (by omega), ih hcarry hserved hpieces (fun l hl =>
      hls l (List.mem_append_right bodies hl)) hrest, hout,
      List.append_assoc, ← render_append, ← List.filter_append]

/-- Every piece without a newline costs at least a byte of the output that takes every line. -/
theorem grepLoop_length {t : List Byte} (h : Carries s t) (hserved : Served [] s reads)
    (hnul : (0 : Byte) ∉ reads.flatten) :
    (grepLoop [] s reads).length + reads.countP (fun x => newline ∉ x) ≤
    s.out.length + t.length + reads.flatten.length := by
  induction reads generalizing s t with
  | nil => simp [grepLoop]
  | cons x reads ih =>
    obtain ⟨hx, hsize, hserved⟩ := hserved
    have hpos := List.length_pos_of_ne_nil hx
    rw [List.flatten_cons] at hnul ⊢
    simp only [List.mem_append, not_or] at hnul
    obtain ⟨bodies, tail, hlines, hbodies, htail⟩ := exists_lines (b := t ++ x) (by
      rw [List.mem_append, not_or]
      exact ⟨h.plain.2, hnul.1⟩)
    obtain ⟨hcarry, hout⟩ := turn_eq [] h hx hsize hlines hbodies htail
    have hlater := ih hcarry hserved hnul.2
    have hlen : t.length + x.length = (render bodies).length + tail.length := by
      rw [← List.length_append, hlines, List.length_append]
    rw [hout, render_filter_nil, List.length_append] at hlater
    rw [grepLoop, if_neg (by omega), List.countP_cons, List.length_append]
    split at hlater
    · rename_i hnil
      subst hnil
      have hone : (if decide (newline ∉ x) = true then 1 else 0) ≤ 1 := by split <;> omega
      simp only [render, List.flatMap_nil, List.length_nil] at hlater
      omega
    · have hnl : newline ∈ x := by
        have hmem : newline ∈ t ++ x := by
          rw [hlines]
          exact List.mem_append_left tail (mem_render_iff.mpr ‹_›)
        exact (List.mem_append.mp hmem).resolve_left h.plain.1
      rw [if_neg (by simpa using hnl)]
      omega

theorem carries_start : Carries start [] := ⟨rfl, trivial, by simp [Plain]⟩

/-- The pattern that takes every line shows that no piece is lost. -/
theorem newline_of_right (hls : ∀ l ∈ ls, Plain l) (hreads : reads.flatten = render ls)
    (hserved : Served [] start reads)
    (h : Right [] ls reads) : ∀ x ∈ reads, newline ∈ x := by
  have hnul : (0 : Byte) ∉ reads.flatten := by
    rw [hreads, render, List.mem_flatMap]
    rintro ⟨l, hl, hmem⟩
    rcases List.mem_append.mp hmem with hmem | hmem
    · exact (hls l hl).2 hmem
    · simp [newline] at hmem
  have hlen := grepLoop_length carries_start hserved hnul
  have hout : (grepLoop [] start reads).length = reads.flatten.length := by
    rw [hreads, ← render_filter_nil ls]
    exact congrArg List.length h
  rw [hout] at hlen
  have hzero : reads.countP (fun x => newline ∉ x) = 0 := by
    simp [start] at hlen
    simpa using hlen
  simpa [List.countP_eq_zero] using hzero

/-- `grep` finds the lines of a stream for every pattern exactly when every piece that `read`
returns has a newline. -/
theorem grep_right_iff (ls reads : List (List Byte)) (hls : ∀ l ∈ ls, Plain l) (hreads : reads.flatten = render ls)
    (hserved : ∀ pattern, Served pattern start reads) :
    (∀ pattern, Right pattern ls reads) ↔ ∀ x ∈ reads, newline ∈ x := by
  constructor
  · intro h
    exact newline_of_right hls hreads (hserved []) (h [])
  · intro h pattern
    exact grepLoop_whole carries_start (hserved pattern) h hls hreads

theorem served_two (pattern : List Byte) {y : List Byte} (hx : x ≠ []) (hy : y ≠ [])
    (hlines : x = render bodies ++ tail)
    (hbodies : ∀ l ∈ bodies, Plain l) (htail : Plain tail) (hlen : x.length + y.length ≤ 1023) :
    Served pattern start [x, y] := by
  have hfits : x.length ≤ start.request := Nat.le_trans (Nat.le_add_right _ _) hlen
  obtain ⟨hcarry, -⟩ := turn_eq pattern carries_start hx hfits hlines hbodies htail
  refine ⟨hx, hfits, hy, ?_, trivial⟩
  have hkept : (if bodies = [] then [] else tail).length ≤ x.length := by
    rw [hlines, List.length_append]
    split <;> simp
  rw [State.request, hcarry.m, bufSize]
  omega

/-- The second piece begins in the middle of the line `ba`, with the pattern `a`. -/
theorem grep_right_two_reads :
    Right [0x61] [[0x61], [0x62, 0x61]] [[0x61, newline, 0x62], [0x61, newline]] :=
  (grep_right_iff [[0x61], [0x62, 0x61]] [[0x61, newline, 0x62], [0x61, newline]] (by decide) rfl
    fun pattern => served_two pattern (by simp) (by simp)
      (show _ = render [[0x61]] ++ [0x62] from rfl) (by decide) (by decide) (by decide)).mpr (by simp) [0x61]

/-- The line `a` arrives without its newline at first, and is lost. -/
theorem grep_loses_a_line : ∃ ls reads, (∀ l ∈ ls, Plain l) ∧ reads.flatten = render ls ∧
    (∀ pattern, Served pattern start reads) ∧ ¬ Right [] ls reads := by
  have hserved (pattern : List Byte) : Served pattern start [[0x61], [newline]] :=
    served_two pattern (by simp) (by simp) (show _ = render [] ++ [0x61] from rfl) (by simp)
      (by decide) (by decide)
  refine ⟨[[0x61]], [[0x61], [newline]], by decide, rfl, hserved, fun h => ?_⟩
  have hall : [[0x61], [newline]].flatten = render [[0x61]] := rfl
  have hnl := newline_of_right (by decide) hall (hserved []) h [0x61] (by simp)
  revert hnl
  decide

end Xv6.Grep
