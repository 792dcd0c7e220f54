import Mathlib.Computability.Language
import Xv6.Words

/-!
# The regular expressions of `grep`

The matcher of `grep.c` against the language of a pattern. A string is the list of its bytes before
the NUL, so the test for NUL is the test for the empty list. `matchstar` tries the rest of the
pattern after each prefix that its character takes.
-/
namespace Xv6.Regexp

open Words

def caret : Byte := 0x5E
def dollar : Byte := 0x24
def star : Byte := 0x2A
def dot : Byte := 0x2E

/-- `matchstar(c, re, text)`, where `here` is `matchhere(re, _)`. -/
def matchstar (c : Byte) (here : List Byte → Bool) : List Byte → Bool
  | [] => here []
  | t :: text => here (t :: text) || ((t = c || c = dot) && matchstar c here text)

def matchone (c : Byte) (here : List Byte → Bool) : List Byte → Bool
  | [] => false
  | t :: text => (c = dot || c = t) && here text

def matchhere : List Byte → List Byte → Bool
  | [], _ => true
  | [c], text => if c = dollar then text.isEmpty else matchone c (matchhere []) text
  | c :: c' :: re, text =>
    if c' = star then matchstar c (matchhere re) text else matchone c (matchhere (c' :: re)) text

/-- The loop of `match`, which looks at the empty end of the text too. -/
def matchLoop (re : List Byte) : List Byte → Bool
  | [] => matchhere re []
  | t :: text => matchhere re (t :: text) || matchLoop re text

def matchText (re text : List Byte) : Bool :=
  match re with
  | [] => matchLoop [] text
  | c :: rest => if c = caret then matchhere rest text else matchLoop (c :: rest) text

inductive Atom where
  | char (c : Byte)
  | any
  deriving DecidableEq, Repr

inductive Item where
  | one (a : Atom)
  | many (a : Atom)
  deriving DecidableEq, Repr

/-- A pattern: whether it is tied to the start of the text, its items, and whether it is tied to the
end. -/
structure Pattern where
  start : Bool
  items : List Item
  final : Bool
  deriving DecidableEq, Repr

def Atom.lang : Atom → Language Byte
  | .char c => {[c]}
  | .any => {w | w.length = 1}

def Item.lang : Item → Language Byte
  | .one a => a.lang
  | .many a => KStar.kstar a.lang

def lang (items : List Item) : Language Byte := (items.map Item.lang).prod

/-- A part of the text is in the language, at its ends where the pattern is tied to them. -/
def Pattern.Matches (p : Pattern) (text : List Byte) : Prop :=
  ∃ before w after, text = before ++ (w ++ after) ∧ w ∈ lang p.items ∧ (p.start = true → before = []) ∧
    (p.final = true → after = [])

def atomOf (c : Byte) : Atom := if c = dot then .any else .char c

/-- The items of a pattern and whether it ends in a `$` that no `*` follows. -/
def itemsOf : List Byte → List Item × Bool
  | [] => ([], false)
  | [c] => if c = dollar then ([], true) else ([.one (atomOf c)], false)
  | c :: c' :: re =>
    if c' = star then (.many (atomOf c) :: (itemsOf re).1, (itemsOf re).2)
    else (.one (atomOf c) :: (itemsOf (c' :: re)).1, (itemsOf (c' :: re)).2)

def patternOf (re : List Byte) : Pattern :=
  match re with
  | [] => ⟨false, [], false⟩
  | c :: rest =>
    if c = caret then ⟨true, (itemsOf rest).1, (itemsOf rest).2⟩
    else ⟨false, (itemsOf (c :: rest)).1, (itemsOf (c :: rest)).2⟩

variable {c t : Byte} {w text re : List Byte} {items : List Item} {here : List Byte → Bool}

theorem mem_atom : w ∈ (atomOf c).lang ↔ ∃ t, w = [t] ∧ (t = c ∨ c = dot) := by
  rw [atomOf]
  split
  case isTrue hdot =>
    show w.length = 1 ↔ _
    simp [List.length_eq_one_iff, hdot]
  case isFalse hdot =>
    show w = [c] ↔ _
    simp [hdot]

theorem mem_many : w ∈ (Item.many (atomOf c)).lang ↔ ∀ t ∈ w, t = c ∨ c = dot := by
  rw [Item.lang, Language.mem_kstar]
  constructor
  · rintro ⟨ws, rfl, hws⟩ t ht
    obtain ⟨y, hy, hty⟩ := List.mem_flatten.mp ht
    obtain ⟨t', rfl, ht'⟩ := mem_atom.mp (hws y hy)
    rw [List.mem_singleton.mp hty]
    exact ht'
  · intro h
    refine ⟨w.map (fun t => [t]), ?_, fun y hy => ?_⟩
    · rw [← List.flatMap_def, List.flatMap_singleton']
    obtain ⟨t, ht, rfl⟩ := List.mem_map.mp hy
    exact mem_atom.mpr ⟨t, rfl, h t ht⟩

theorem mem_lang_nil : w ∈ lang [] ↔ w = [] := Language.mem_one w

theorem mem_lang_cons {i : Item} : w ∈ lang (i :: items) ↔ ∃ a ∈ i.lang, ∃ b ∈ lang items, a ++ b = w := by
  rw [lang, List.map_cons, List.prod_cons]
  exact Language.mem_mul

def Here (items : List Item) (final : Bool) (text : List Byte) : Prop :=
  ∃ w after, text = w ++ after ∧ w ∈ lang items ∧ (final = true → after = [])

theorem here_cons {i : Item} {final : Bool} :
    Here (i :: items) final text ↔ ∃ w after, text = w ++ after ∧ w ∈ i.lang ∧ Here items final after := by
  constructor
  · rintro ⟨w, after, rfl, hw, hend⟩
    obtain ⟨a, ha, b, hb, rfl⟩ := mem_lang_cons.mp hw
    exact ⟨a, b ++ after, List.append_assoc a b after, ha, b, after, rfl, hb, hend⟩
  · rintro ⟨a, after, rfl, ha, b, after, rfl, hb, hend⟩
    exact ⟨a ++ b, after, (List.append_assoc a b after).symm, mem_lang_cons.mpr ⟨a, ha, b, hb, rfl⟩, hend⟩

/-- The loop tries every prefix of characters for `c`. -/
theorem matchstar_iff : matchstar c here text = true ↔
    ∃ w after, text = w ++ after ∧ w ∈ (Item.many (atomOf c)).lang ∧ here after = true := by
  induction text with
  | nil =>
    simp only [matchstar, List.nil_eq, List.append_eq_nil_iff, mem_many]
    constructor
    · intro h
      exact ⟨[], [], ⟨rfl, rfl⟩, by simp, h⟩
    · rintro ⟨w, after, ⟨rfl, rfl⟩, -, h⟩
      exact h
  | cons t text ih =>
    simp only [matchstar, Bool.or_eq_true, Bool.and_eq_true, decide_eq_true_eq, ih, mem_many]
    constructor
    · rintro (h | ⟨ht, w, after, rfl, hw, h⟩)
      · exact ⟨[], t :: text, rfl, by simp, h⟩
      · exact ⟨t :: w, after, rfl, List.forall_mem_cons.mpr ⟨ht, hw⟩, h⟩
    · rintro ⟨w, after, heq, hw, h⟩
      cases w with
      | nil =>
        obtain rfl : t :: text = after := heq
        exact .inl h
      | cons t' w =>
        obtain ⟨rfl, rfl⟩ := List.cons.inj heq
        obtain ⟨ht, hw⟩ := List.forall_mem_cons.mp hw
        exact .inr ⟨ht, w, after, rfl, hw, h⟩

theorem matchone_iff : matchone c here text = true ↔
    ∃ w after, text = w ++ after ∧ w ∈ (Item.one (atomOf c)).lang ∧ here after = true := by
  simp only [Item.lang, mem_atom]
  cases text with
  | nil => simp [matchone]
  | cons t text =>
    simp only [matchone, Bool.and_eq_true, Bool.or_eq_true, decide_eq_true_eq]
    constructor
    · rintro ⟨ht, h⟩
      exact ⟨[t], text, rfl, ⟨t, rfl, ht.symm.imp_left Eq.symm⟩, h⟩
    · rintro ⟨w, after, heq, ⟨t', rfl, ht⟩, h⟩
      obtain ⟨rfl, rfl⟩ := List.cons.inj heq
      exact ⟨ht.symm.imp_right Eq.symm, h⟩

theorem matchhere_iff : matchhere re text = true ↔ Here (itemsOf re).1 (itemsOf re).2 text := by
  induction re using itemsOf.induct generalizing text with
  | case1 | case2 => simp [matchhere, itemsOf, Here, mem_lang_nil]
  | case3 c hc =>
    rw [matchhere, if_neg hc, matchone_iff, itemsOf, if_neg hc, here_cons]
    simp [matchhere, Here, mem_lang_nil]
  | case4 c re ih =>
    rw [matchhere, if_pos rfl, matchstar_iff, itemsOf, if_pos rfl, here_cons]
    simp only [ih]
  | case5 c c' re hstar ih =>
    rw [matchhere, if_neg hstar, matchone_iff, itemsOf, if_neg hstar, here_cons]
    simp only [ih]

theorem matchLoop_iff : matchLoop re text = true ↔ ∃ before after, text = before ++ after ∧
    matchhere re after = true := by
  induction text with
  | nil => simp [matchLoop]
  | cons t text ih =>
    rw [matchLoop, Bool.or_eq_true, ih]
    constructor
    · rintro (h | ⟨before, after, rfl, h⟩)
      · exact ⟨[], t :: text, rfl, h⟩
      · exact ⟨t :: before, after, rfl, h⟩
    · rintro ⟨before, after, heq, h⟩
      cases before with
      | nil =>
        obtain rfl : t :: text = after := heq
        exact .inl h
      | cons t' before =>
        obtain ⟨rfl, rfl⟩ := List.cons.inj heq
        exact .inr ⟨before, after, rfl, h⟩

/-- A pattern that is tied to the start matches where its items do, and another one at any place. -/
theorem matches_start {final : Bool} : (Pattern.mk true items final).Matches text ↔ Here items final text := by
  constructor
  · rintro ⟨before, w, after, rfl, hw, hstart, hend⟩
    obtain rfl : before = [] := hstart rfl
    exact ⟨w, after, rfl, hw, hend⟩
  · rintro ⟨w, after, rfl, hw, hend⟩
    exact ⟨[], w, after, rfl, hw, fun _ => rfl, hend⟩

theorem matches_anywhere {final : Bool} :
    (Pattern.mk false items final).Matches text ↔ ∃ before after, text = before ++ after ∧
    Here items final after := by
  constructor
  · rintro ⟨before, w, after, rfl, hw, -, hend⟩
    exact ⟨before, w ++ after, rfl, w, after, rfl, hw, hend⟩
  · rintro ⟨before, after, rfl, w, rest, rfl, hw, hend⟩
    exact ⟨before, w, rest, rfl, hw, by simp, hend⟩

/-- `match` decides whether the pattern matches the text. -/
theorem match_iff (re text : List Byte) : matchText re text = true ↔ (patternOf re).Matches text := by
  cases re with
  | nil =>
    rw [matchText, patternOf, matches_anywhere, matchLoop_iff]
    simp only [matchhere_iff, itemsOf]
  | cons c rest =>
    rw [matchText, patternOf]
    by_cases hc : c = caret
    · rw [if_pos hc, if_pos hc, matches_start, matchhere_iff]
    · rw [if_neg hc, if_neg hc, matches_anywhere, matchLoop_iff]
      simp only [matchhere_iff]

/-- `a*$` finds the end of `ba`. -/
example : matchText [0x61, star, dollar] [0x62, 0x61] = true := by decide

end Xv6.Regexp
