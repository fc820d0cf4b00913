import Mathlib.Algebra.Ring.Parity
import Mathlib.Data.List.Basic
import MathTree.Proofs.Number.Plain
import MathTree.Proofs.Render.Arithmetic
import MathTree.Proofs.Render.Insertions
import MathTree.Proofs.Text.Mask

/-!
# Powers and negations in LaTeX

LaTeX brackets the base of a power if it shows two children, so that a power is bracketed and a
negation is not.  A text of names, negations and powers with whole exponents is then the text of at
most two kinds of trees, a negation of a power and a power of a negation (`PowerTerm.Mirror`), and
both are worth the same just if all exponents are odd (`Tree.latex_powers_iff`).
-/

namespace MathTree

open MathTree.Number

/-! ### Terms -/

/-- A name in which nothing can be taken for a sign of a negation, of brackets or of LaTeX. -/
structure Word where
  text : String
  ne_empty : text ≠ ""
  plain : ∀ c ∈ text.toList, c ∉ ['-', ')'] ∧ ¬ Text.isMasked c ∧ ¬ Text.isBlank c

theorem toNat_of_isAlphanum {c : Char} (h : c.isAlphanum) : 48 ≤ c.toNat ∧ c.toNat ≤ 122 := by
  obtain h | h := Bool.or_eq_true_iff.1 h
  · obtain h | h := Bool.or_eq_true_iff.1 h
    · obtain ⟨hlow, hhigh⟩ := of_decide_eq_true h
      exact ⟨Nat.le_trans (by decide) hlow, Nat.le_trans hhigh (by decide)⟩
    · obtain ⟨hlow, hhigh⟩ := Bool.and_eq_true_iff.1 h
      exact ⟨Nat.le_trans (by decide) (of_decide_eq_true hlow), of_decide_eq_true hhigh⟩
  · obtain ⟨hlow, hhigh⟩ := Bool.and_eq_true_iff.1 h
    exact ⟨of_decide_eq_true hlow, Nat.le_trans (of_decide_eq_true hhigh) (by decide)⟩

/-- Letters and digits are a word. -/
def Word.ofLetters (text : String) (hne : text ≠ "") (h : text.toList.all Char.isAlphanum) :
    Word where
  text := text
  ne_empty := hne
  plain c hc := by
    have hletter : c.isAlphanum := List.all_eq_true.1 h c hc
    have hrange := toNat_of_isAlphanum hletter
    refine ⟨fun hsign => ?_, Text.not_isMasked_of_isAlphanum hletter, fun hblank => ?_⟩
    · simp only [List.mem_cons, List.not_mem_nil, or_false] at hsign
      obtain rfl | rfl := hsign <;> revert hletter <;> decide
    · simp only [Text.isBlank, Bool.or_eq_true, Bool.and_eq_true, decide_eq_true_eq, beq_iff_eq]
        at hblank
      omega

/-- A name, a negation, or a power with a whole exponent. -/
inductive PowerTerm where
  | name (word : Word)
  | negation (x : PowerTerm)
  | power (x : PowerTerm) (n : Nat)

/-- A text in brackets under a condition, as characters. -/
def enclosedChars (bracketed : Bool) (l : List Char) : List Char :=
  if bracketed then "\\left(".toList ++ l ++ "\\right)".toList else l

namespace PowerTerm

def kind : PowerTerm → Kind
  | name _ => .name
  | negation _ => .minus
  | power .. => .power

/-- What stands for a term in LaTeX. -/
def chars : PowerTerm → List Char
  | name word => word.text.toList
  | negation x => '-' :: enclosedChars (x.kind = .minus) x.chars
  | power x n =>
    enclosedChars (x.kind = .power) x.chars ++ '^' :: '\x7b' :: (Nat.toDigits 10 n ++ ['\x7d'])

/-- What stands for a term behind a minus sign. -/
def negated (x : PowerTerm) : List Char := enclosedChars (x.kind = .minus) x.chars

/-- What stands for a term below an exponent. -/
def base (x : PowerTerm) : List Char := enclosedChars (x.kind = .power) x.chars

theorem chars_negation (x : PowerTerm) : (negation x).chars = '-' :: x.negated := rfl

theorem chars_power (x : PowerTerm) (n : Nat) :
    (power x n).chars = x.base ++ '^' :: '\x7b' :: (Nat.toDigits 10 n ++ ['\x7d']) := rfl

def exponents : PowerTerm → List Nat
  | name _ => []
  | negation x => x.exponents
  | power x n => n :: x.exponents

/-- What a term is worth, where names stand for integers. -/
def value (ρ : String → ℤ) : PowerTerm → ℤ
  | name word => ρ word.text
  | negation x => -x.value ρ
  | power x n => x.value ρ ^ n

/-! ### First and last characters -/

/-- The kind of the term that a text with this last character stands for behind a minus sign. -/
def kindOfLast (c : Char) : Kind := if c = ')' then .minus else if c = '\x7d' then .power else .name

/-- The kind of the term that a text with this first character stands for below an exponent. -/
def kindOfFirst (c : Char) : Kind := if c = '-' then .minus else if c = '\\' then .power else .name

theorem kindOfLast_word {w : Word} {c : Char} (hc : c ∈ w.text.toList) : kindOfLast c = .name := by
  obtain ⟨hsign, hmasked, -⟩ := w.plain c hc
  have hclose : c ≠ ')' := by rintro rfl; exact hsign (by decide)
  have hbrace : c ≠ '\x7d' := by rintro rfl; exact hmasked (by decide)
  rw [kindOfLast, if_neg hclose, if_neg hbrace]

theorem kindOfFirst_word {w : Word} {c : Char} (hc : c ∈ w.text.toList) : kindOfFirst c = .name := by
  obtain ⟨hsign, hmasked, -⟩ := w.plain c hc
  have hminus : c ≠ '-' := by rintro rfl; exact hsign (by decide)
  have hslash : c ≠ '\\' := by rintro rfl; exact hmasked (by decide)
  rw [kindOfFirst, if_neg hminus, if_neg hslash]

theorem exists_head_word (w : Word) : ∃ c, w.text.toList.head? = some c ∧ c ∈ w.text.toList := by
  cases h : w.text.toList with
  | nil => exact absurd (String.toList_eq_nil_iff.1 h) w.ne_empty
  | cons c l => exact ⟨c, rfl, List.mem_cons_self⟩

theorem exists_last_word (w : Word) : ∃ c, w.text.toList.getLast? = some c ∧ c ∈ w.text.toList := by
  cases h : w.text.toList with
  | nil => exact absurd (String.toList_eq_nil_iff.1 h) w.ne_empty
  | cons d l => exact ⟨(d :: l).getLast nofun, List.getLast?_eq_some_getLast _, List.getLast_mem _⟩

theorem getLast?_power (x : PowerTerm) (n : Nat) : (power x n).chars.getLast? = some '\x7d' := by
  rw [chars_power, ← List.cons_append, ← List.cons_append, ← List.append_assoc]
  exact List.getLast?_concat

/-- The last character tells what stands behind a minus sign. -/
theorem exists_last_negated (x : PowerTerm) :
    ∃ c, x.negated.getLast? = some c ∧ kindOfLast c = x.kind := by
  cases x with
  | name w =>
    obtain ⟨c, hlast, hc⟩ := exists_last_word w
    exact ⟨c, hlast, kindOfLast_word hc⟩
  | negation x =>
    have hclose : "\\right)".toList = "\\right".toList ++ [')'] := rfl
    refine ⟨')', ?_, rfl⟩
    rw [negated, enclosedChars, if_pos (by rfl), hclose, ← List.append_assoc]
    exact List.getLast?_concat
  | power x n => exact ⟨'\x7d', getLast?_power x n, rfl⟩

/-- The first character tells what stands below an exponent. -/
theorem exists_first_base (x : PowerTerm) :
    ∃ c, x.base.head? = some c ∧ kindOfFirst c = x.kind := by
  cases x with
  | name w =>
    obtain ⟨c, hhead, hc⟩ := exists_head_word w
    exact ⟨c, hhead, kindOfFirst_word hc⟩
  | negation x => exact ⟨'-', rfl, rfl⟩
  | power x n => exact ⟨'\\', rfl, rfl⟩

theorem kind_eq_of_negated {x y : PowerTerm} (h : x.negated = y.negated) : x.kind = y.kind := by
  obtain ⟨c, hc, hx⟩ := exists_last_negated x
  obtain ⟨d, hd, hy⟩ := exists_last_negated y
  rw [h, hd] at hc
  rw [← hx, ← hy, Option.some.inj hc]

theorem kind_eq_of_base {x y : PowerTerm} (h : x.base = y.base) : x.kind = y.kind := by
  obtain ⟨c, hc, hx⟩ := exists_first_base x
  obtain ⟨d, hd, hy⟩ := exists_first_base y
  rw [h, hd] at hc
  rw [← hx, ← hy, Option.some.inj hc]

theorem enclosedChars_inj {bracketed : Bool} {l l' : List Char} :
    enclosedChars bracketed l = enclosedChars bracketed l' ↔ l = l' := by
  unfold enclosedChars
  split_ifs
  · rw [List.append_left_inj, List.append_right_inj]
  · rfl

theorem chars_eq_of_negated {x y : PowerTerm} (h : x.negated = y.negated) : x.chars = y.chars := by
  have hkind := kind_eq_of_negated h
  rw [negated, negated, hkind] at h
  exact enclosedChars_inj.1 h

theorem chars_eq_of_base {x y : PowerTerm} (h : x.base = y.base) : x.chars = y.chars := by
  have hkind := kind_eq_of_base h
  rw [base, base, hkind] at h
  exact enclosedChars_inj.1 h

/-! ### Exponents -/

theorem not_caret_of_mem_exponent {n : Nat} :
    '^' ∉ '\x7b' :: (Nat.toDigits 10 n ++ ['\x7d']) := by
  intro h
  simp only [List.mem_cons, List.mem_append, List.not_mem_nil, or_false] at h
  obtain h | h | h := h
  · cases h
  · exact absurd (Nat.isDigit_of_mem_toDigits (by decide) (by decide) h) (by decide)
  · cases h

/-- What stands behind the last mark of a kind, and what stands before. -/
theorem eq_of_append_mark {mark : Char} {a b e e' : List Char} (he : mark ∉ e) (he' : mark ∉ e')
    (h : a ++ mark :: e = b ++ mark :: e') : a = b ∧ e = e' := by
  obtain ⟨c, hb, htail⟩ | ⟨c, ha, htail⟩ := List.append_eq_append_iff.1 h
  · cases c with
    | nil => exact ⟨(List.append_nil a).symm.trans hb.symm, (List.cons.inj htail).2⟩
    | cons d c =>
      refine absurd ?_ he
      rw [(List.cons.inj htail).2]
      exact List.mem_append_right c List.mem_cons_self
  · cases c with
    | nil => exact ⟨ha.trans (List.append_nil b), (List.cons.inj htail).2.symm⟩
    | cons d c =>
      refine absurd ?_ he'
      rw [(List.cons.inj htail).2]
      exact List.mem_append_right c List.mem_cons_self

/-- The last caret of a text tells what is raised and by what. -/
theorem eq_of_raised {a b : List Char} {m n : Nat}
    (h : a ++ '^' :: '\x7b' :: (Nat.toDigits 10 m ++ ['\x7d'])
      = b ++ '^' :: '\x7b' :: (Nat.toDigits 10 n ++ ['\x7d'])) : a = b ∧ m = n := by
  obtain ⟨hbase, hexponent⟩ := eq_of_append_mark not_caret_of_mem_exponent not_caret_of_mem_exponent h
  have hdigits := List.append_cancel_right (List.cons.inj hexponent).2
  refine ⟨hbase, ?_⟩
  rw [← Nat.ofDigitChars_ten_toDigits (n := m), hdigits, Nat.ofDigitChars_ten_toDigits]

/-! ### Equal texts -/

/-- A term is determined by its text and its kind. -/
theorem eq_of_chars {x y : PowerTerm} (hkind : x.kind = y.kind) (h : x.chars = y.chars) : x = y := by
  induction x generalizing y with
  | name w =>
    cases y with
    | name w' =>
      have htext : w.text = w'.text := String.toList_inj.1 h
      cases w
      cases w'
      cases htext
      rfl
    | negation | power => cases hkind
  | negation x ih =>
    cases y with
    | negation y =>
      rw [chars_negation, chars_negation] at h
      have hinner := (List.cons.inj h).2
      rw [ih (kind_eq_of_negated hinner) (chars_eq_of_negated hinner)]
    | name | power => cases hkind
  | power x m ih =>
    cases y with
    | power y n =>
      obtain ⟨hinner, hn⟩ := eq_of_raised h
      rw [ih (kind_eq_of_base hinner) (chars_eq_of_base hinner), hn]
    | name | negation => cases hkind

/-- Two terms of which one takes the negations for parts of bases that the other has outside of
powers. -/
inductive Mirror : PowerTerm → PowerTerm → Prop
  | name (w : Word) : Mirror (.name w) (.name w)
  | raise {x y : PowerTerm} (h : Mirror x y) (n : Nat) :
      Mirror (.negation (.power x n)) (.power (.negation y) n)
  | symm {x y : PowerTerm} (h : Mirror x y) : Mirror y x

/-- The text of a name is the text of no other term. -/
theorem kind_eq_of_name {w : Word} {y : PowerTerm} (h : (name w).chars = y.chars) :
    y.kind = .name := by
  cases y with
  | name => rfl
  | negation y => exact (kind_eq_of_base (x := name w) (y := negation y) h).symm
  | power y n => exact (kind_eq_of_negated (x := name w) (y := power y n) h).symm

theorem length_chars_lt_negation (x : PowerTerm) : x.chars.length < (negation x).chars.length := by
  rw [chars_negation, negated, enclosedChars]
  split_ifs <;> simp only [List.length_cons, List.length_append] <;> omega

theorem length_chars_lt_power (x : PowerTerm) (n : Nat) :
    x.chars.length < (power x n).chars.length := by
  rw [chars_power, base, enclosedChars]
  split_ifs <;> simp only [List.length_cons, List.length_append] <;> omega

/-- A negation and a power with the same text: the negation is one of a power, and the power one of a
negation, with the same exponent. -/
theorem exists_of_negation_eq_power {x y : PowerTerm} {n : Nat}
    (h : (negation x).chars = (power y n).chars) :
    ∃ u v, x = power u n ∧ y = negation v ∧ u.base = v.negated := by
  have hy : y.kind = .minus := by
    obtain ⟨c, hc, hkind⟩ := exists_first_base y
    have hhead := congrArg List.head? h
    rw [chars_negation, chars_power, List.head?_append, hc] at hhead
    rw [← hkind, ← Option.some.inj hhead]
    rfl
  cases y with
  | name | power => cases hy
  | negation v =>
    have hinner : x.negated = v.negated ++ '^' :: '\x7b' :: (Nat.toDigits 10 n ++ ['\x7d']) :=
      (List.cons.inj h).2
    have hx : x.kind = .power := by
      obtain ⟨c, hc, hkind⟩ := exists_last_negated x
      have hlast : x.negated.getLast? = some '\x7d' := by
        rw [hinner, ← List.cons_append, ← List.cons_append, ← List.append_assoc]
        exact List.getLast?_concat
      rw [← hkind, ← Option.some.inj (hlast.symm.trans hc)]
      rfl
    cases x with
    | name | negation => cases hx
    | power u m =>
      obtain ⟨hbase, rfl⟩ := eq_of_raised hinner
      exact ⟨u, v, rfl, rfl, hbase⟩

/-- What stands below an exponent in one term and behind a minus sign in another. -/
theorem cases_of_base_eq_negated {u v : PowerTerm} (h : u.base = v.negated) :
    (∃ w, u = name w ∧ v = name w) ∨ u.kind ≠ v.kind ∧ u.chars = v.chars := by
  cases u with
  | name w =>
    have hkind : (name w).kind = v.kind := kind_eq_of_negated h
    have hname := eq_of_chars hkind (chars_eq_of_negated (x := name w) h)
    exact .inl ⟨w, rfl, hname.symm⟩
  | negation u =>
    cases v with
    | name w => exact nomatch kind_eq_of_base (x := negation u) (y := name w) h
    | negation v => exact nomatch congrArg List.head? h
    | power v n => exact .inr ⟨nofun, h⟩
  | power u n =>
    cases v with
    | name w => exact nomatch kind_eq_of_base (x := power u n) (y := name w) h
    | negation v =>
      have hbrackets :
          enclosedChars true (power u n).chars = enclosedChars true (negation v).chars := h
      exact .inr ⟨nofun, enclosedChars_inj.1 hbrackets⟩
    | power v m =>
      have hclose : "\\right)".toList = "\\right".toList ++ [')'] := rfl
      have hlast : (power u n).base.getLast? = some ')' := by
        rw [base, enclosedChars, if_pos (by rfl), hclose, ← List.append_assoc]
        exact List.getLast?_concat
      rw [h] at hlast
      exact nomatch (getLast?_power v m).symm.trans hlast

/-- Terms of different kinds with the same text are each other's mirror. -/
theorem mirror_of_chars {x y : PowerTerm} (hkind : x.kind ≠ y.kind) (h : x.chars = y.chars) :
    Mirror x y := by
  induction hlen : x.chars.length using Nat.strong_induction_on generalizing x y with
  | _ k ih =>
    have hraise {u v : PowerTerm} {n : Nat} (huv : u.base = v.negated)
        (hlt : u.chars.length < k) : Mirror (negation (power u n)) (power (negation v) n) := by
      obtain ⟨w, rfl, rfl⟩ | ⟨hdiffer, hchars⟩ := cases_of_base_eq_negated huv
      · exact .raise (.name w) n
      · exact .raise (ih _ hlt hdiffer hchars rfl) n
    have hshorter (u : PowerTerm) (n : Nat) : u.chars.length < (negation (power u n)).chars.length :=
      (length_chars_lt_power u n).trans (length_chars_lt_negation _)
    cases x with
    | name w => exact absurd (kind_eq_of_name h).symm hkind
    | negation x =>
      cases y with
      | name w => exact absurd (kind_eq_of_name h.symm) hkind
      | negation y => exact absurd rfl hkind
      | power y n =>
        obtain ⟨u, v, rfl, rfl, huv⟩ := exists_of_negation_eq_power h
        exact hraise huv (hlen ▸ hshorter u n)
    | power x n =>
      cases y with
      | name w => exact absurd (kind_eq_of_name h.symm) hkind
      | power y m => exact absurd rfl hkind
      | negation y =>
        obtain ⟨u, v, rfl, rfl, huv⟩ := exists_of_negation_eq_power h.symm
        refine (hraise huv ?_).symm
        rw [← hlen, h]
        exact hshorter u n

/-! ### Values -/

namespace Mirror

variable {x y : PowerTerm}

theorem exponents_eq (h : Mirror x y) : x.exponents = y.exponents := by
  induction h with
  | name w => rfl
  | raise _ n ih => exact congrArg (n :: ·) ih
  | symm _ ih => exact ih.symm

/-- Where all exponents are odd, a sign may be taken out of powers. -/
theorem value_eq (h : Mirror x y) (hodd : ∀ n ∈ x.exponents, Odd n) (ρ : String → ℤ) :
    x.value ρ = y.value ρ := by
  induction h with
  | name w => rfl
  | raise _ n ih =>
    obtain ⟨hn, hrest⟩ := List.forall_mem_cons.1 hodd
    rw [value, value, value, value, ih hrest, hn.neg_pow]
  | symm h ih => exact (ih (h.exponents_eq ▸ hodd)).symm

end Mirror

/-- Where all names stand for one, a term is worth one or minus one. -/
theorem value_one (x : PowerTerm) : x.value (fun _ => 1) = 1 ∨ x.value (fun _ => 1) = -1 := by
  induction x with
  | name w => exact .inl rfl
  | negation x ih =>
    obtain h | h := ih
    · exact .inr (by rw [value, h])
    · exact .inl (by rw [value, h, neg_neg])
  | power x n ih =>
    obtain h | h := ih
    · exact .inl (by rw [value, h, one_pow])
    · rw [value, h]
      exact neg_one_pow_eq_or ℤ n

/-- Where an exponent is even, mirrored terms are worth each other's opposite. -/
theorem Mirror.value_one_eq_neg {x y : PowerTerm} (h : Mirror x y)
    (heven : ¬ ∀ n ∈ x.exponents, Odd n) : x.value (fun _ => 1) = -y.value (fun _ => 1) := by
  induction h with
  | name w => exact absurd (List.forall_mem_nil _) heven
  | @raise x _ h n ih =>
    rw [value, value, value, value]
    by_cases hrest : ∀ m ∈ x.exponents, Odd m
    · have hn : Even n := Nat.not_odd_iff_even.1 fun hn =>
        heven (List.forall_mem_cons.2 ⟨hn, hrest⟩)
      rw [h.value_eq hrest, hn.neg_pow]
    · rw [ih hrest]
  | symm h ih => rw [ih (h.exponents_eq ▸ heven), neg_neg]

/-- Terms with the same text are worth the same just if they are of one kind or all exponents are
odd. -/
theorem value_eq_iff_of_chars {x y : PowerTerm} (h : x.chars = y.chars) :
    (∀ ρ, x.value ρ = y.value ρ) ↔ x.kind = y.kind ∨ ∀ n ∈ x.exponents, Odd n := by
  by_cases hkind : x.kind = y.kind
  · rw [eq_of_chars hkind h]
    exact iff_of_true (fun _ => rfl) (.inl rfl)
  · have hmirror := mirror_of_chars hkind h
    refine ⟨fun hvalue => .inr ?_, fun hodd => hmirror.value_eq (hodd.resolve_left hkind)⟩
    by_contra heven
    have hopposite := hmirror.value_one_eq_neg heven
    rw [← hvalue fun _ => 1] at hopposite
    obtain hone | hone := x.value_one <;> rw [hone] at hopposite <;> cases hopposite

end PowerTerm

/-! ### Trees -/

/-- What a node is worth, from what names stand for and what its operands are worth. -/
def Head.powerValue (ρ : String → ℤ) (h : Head) (operands : List ℤ) : ℤ :=
  match h.kind, operands with
  | .power, [x, n] => x ^ n.toNat
  | _, _ => h.value ρ operands

namespace Tree

open Latex

/-- What a tree is worth that may hold powers. -/
def powerValue (ρ : String → ℤ) : Tree → ℤ := foldShown (Head.powerValue ρ)

theorem powerValue_eq (ρ : String → ℤ) (t : Tree) :
    t.powerValue ρ = t.head.powerValue ρ (t.shown.map (powerValue ρ)) := by
  cases t
  exact foldShown_node _ _ _

/-- Trees of names, negations and powers, of which the exponents are integer literals of some sort. -/
inductive IsPowerTerm (P : ℤ → Prop) : Tree → Prop
  | name {t : Tree} {w : Word} (hk : t.kind = .name) (hname : t.head.name = .ok w.text)
      (hshown : t.shown = []) : IsPowerTerm P t
  | negation {t x : Tree} (hk : t.kind = .minus) (hform : t.head.form = .unary)
      (hshown : t.shown = [x]) (hx : IsPowerTerm P x) : IsPowerTerm P t
  | power {t x e : Tree} {n : Int32} (hk : t.kind = .power) (hshown : t.shown = [x, e])
      (he : e.kind = .integer) (hn : e.head.integer = .ok n) (hP : P n.toInt)
      (hx : IsPowerTerm P x) : IsPowerTerm P t

/-- A tree and the term that it is. -/
inductive Denotes : Tree → PowerTerm → Prop
  | name {t : Tree} {w : Word} (hk : t.kind = .name) (hname : t.head.name = .ok w.text)
      (hshown : t.shown = []) : Denotes t (.name w)
  | negation {t x : Tree} {p : PowerTerm} (hk : t.kind = .minus) (hform : t.head.form = .unary)
      (hshown : t.shown = [x]) (hx : Denotes x p) : Denotes t (.negation p)
  | power {t x e : Tree} {p : PowerTerm} {n : Int32} (hk : t.kind = .power) (hshown : t.shown = [x, e])
      (he : e.kind = .integer) (hn : e.head.integer = .ok n) (htwo : 2 ≤ n.toInt)
      (hx : Denotes x p) : Denotes t (.power p n.toInt.toNat)

theorem IsPowerTerm.exists_denotes {t : Tree} (h : t.IsPowerTerm (2 ≤ ·)) : ∃ p, t.Denotes p := by
  induction h with
  | name hk hname hshown => exact ⟨_, .name hk hname hshown⟩
  | negation hk hform hshown _ ih =>
    obtain ⟨p, hp⟩ := ih
    exact ⟨_, .negation hk hform hshown hp⟩
  | power hk hshown he hn htwo _ ih =>
    obtain ⟨p, hp⟩ := ih
    exact ⟨_, .power hk hshown he hn htwo hp⟩

/-! ### Texts of trees -/

section

variable {style : Style} {t x e : Tree} {a b : String}

theorem latex_name {name : String} (hk : t.kind = .name) (hname : t.head.name = .ok name) :
    t.latex style = .ok (nameText style name) := by
  have hread : t.reading? = .ok (.identifier name) := by
    rw [reading?, Head.reading?, ← kind, hk, hname]
    rfl
  rw [latex, render_of_ok _ hread]
  rfl

theorem latex_integer {n : Int32} (hk : t.kind = .integer) (hn : t.head.integer = .ok n) :
    t.latex style = .ok (intText n.toInt) := by
  have hread : t.reading? = .ok (.integer n t.head.units?) := by
    rw [reading?, Head.reading?, ← kind, hk, hn]
    rfl
  rw [latex, render_of_ok _ hread]
  rfl

theorem latex_negation (hk : t.kind = .minus) (hform : t.head.form = .unary) (hshown : t.shown = [x])
    (hx : x.latex style = .ok a) :
    t.latex style = .ok ("-" ++ Term.enclosedIf brackets x.isLoose a) := by
  have hread : t.reading? = .ok (.negation x) := by
    rw [reading?, Head.reading?, ← kind, hk, itself_shown, hshown]
    simp only [if_pos hform]
    rfl
  rw [latex, render_of_ok _ hread]
  change ("-" ++ ·) <$> (Term.enclosedIf brackets x.isLoose <$> x.latex style) = _
  rw [hx]
  rfl

theorem latex_power (hk : t.kind = .power) (hshown : t.shown = [x, e]) (hx : x.latex style = .ok a)
    (he : e.latex style = .ok b) (hb : b ≠ "1") :
    t.latex style = .ok (Term.enclosedIf brackets (2 ≤ x.childCount) a ++ "^" ++ group b) := by
  have hread : t.reading? = .ok (.power x e) := by
    rw [reading?, Head.reading?, ← kind, hk, itself_shown, hshown]
    rfl
  rw [latex, render_of_ok _ hread]
  change (do
    let value ← x.latex style
    let exponent ← e.latex style
    if exponent = "1" then return value
    return Term.enclosedIf brackets (2 ≤ x.childCount) value ++ "^" ++ group exponent) = _
  rw [hx, he]
  exact if_neg hb

end

theorem toList_enclosedIf (bracketed : Bool) (s : String) :
    (Term.enclosedIf brackets bracketed s).toList = enclosedChars bracketed s.toList := by
  unfold Term.enclosedIf enclosedChars brackets
  split_ifs
  · rw [String.toList_append, String.toList_append]
  · rfl

theorem toList_group (s : String) : (group s).toList = '\x7b' :: (s.toList ++ ['\x7d']) := by
  have hopen : "\x7b".toList = ['\x7b'] := rfl
  have hclose : "\x7d".toList = ['\x7d'] := rfl
  rw [group, String.toList_append, String.toList_append, hopen, hclose, List.append_assoc]
  rfl

theorem length_shown (t : Tree) : t.shown.length = t.childCount := by
  rw [shown, List.length_take]
  exact Nat.min_eq_left (t.head.shown_le _)

namespace Denotes

variable {t : Tree} {p : PowerTerm} {style : Style} {ρ : String → ℤ}

theorem kind_eq (h : t.Denotes p) : t.kind = p.kind := by
  cases h <;> assumption

theorem isLoose_eq (h : t.Denotes p) : t.isLoose = decide (p.kind = .minus) := by
  have hkind := h.kind_eq
  unfold isLoose
  rw [hkind]
  cases p <;> rfl

theorem childCount_eq (h : t.Denotes p) : decide (2 ≤ t.childCount) = decide (p.kind = .power) := by
  rw [← length_shown]
  cases h with
  | name hk hname hshown => rw [hshown]; rfl
  | negation hk hform hshown => rw [hshown]; rfl
  | power hk hshown => rw [hshown]; rfl

theorem powerValue_eq_value (h : t.Denotes p) : t.powerValue ρ = p.value ρ := by
  induction h with
  | @name t _ hk hname hshown =>
    have hkind : t.head.kind = .name := hk
    simp only [powerValue_eq, Head.powerValue, Head.value, hkind, hname]
    rfl
  | @negation t _ _ hk hform hshown _ ih =>
    have hkind : t.head.kind = .minus := hk
    simp only [powerValue_eq ρ t, Head.powerValue, Head.value, hkind, hshown, List.map_cons,
      List.map_nil, ih]
    rfl
  | @power t _ e _ n hk hshown he hn htwo _ ih =>
    have hkind : t.head.kind = .power := hk
    have hexponent : e.powerValue ρ = n.toInt := by
      have hkind : e.head.kind = .integer := he
      simp only [powerValue_eq, Head.powerValue, Head.value, hkind, hn]
      rfl
    simp only [powerValue_eq ρ t, Head.powerValue, hkind, hshown, List.map_cons, List.map_nil, ih,
      hexponent]
    rfl

theorem isPowerTerm_iff {P : ℤ → Prop} (h : t.Denotes p) :
    t.IsPowerTerm P ↔ ∀ n ∈ p.exponents, P n := by
  induction h with
  | name hk hname hshown =>
    exact iff_of_true (.name hk hname hshown) nofun
  | negation hk hform hshown _ ih =>
    rw [PowerTerm.exponents, ← ih]
    refine ⟨fun h => ?_, .negation hk hform hshown⟩
    cases h <;> simp_all
  | @power _ _ _ _ n hk hshown he hn htwo _ ih =>
    have hcast : (n.toInt.toNat : ℤ) = n.toInt := Int.toNat_of_nonneg (by omega)
    rw [PowerTerm.exponents, List.forall_mem_cons, ← ih, hcast]
    refine ⟨fun h => ?_, fun ⟨hP, hx⟩ => .power hk hshown he hn hP hx⟩
    cases h <;> simp_all

/-- A tree is written as the term that it is. -/
theorem latex_eq (h : t.Denotes p) : t.latex style = .ok (String.ofList p.chars) := by
  induction h with
  | @name t w hk hname hshown =>
    rw [latex_name hk hname, PowerTerm.chars, String.ofList_toList]
    unfold nameText
    split_ifs
    · rw [Text.mask_eq_self fun c hc => (w.plain c hc).2]
    · rfl
  | @negation t x p hk hform hshown hx ih =>
    rw [latex_negation hk hform hshown ih, hx.isLoose_eq]
    refine congrArg Except.ok (String.toList_inj.1 ?_)
    have hminus : "-".toList = ['-'] := rfl
    rw [String.toList_append, hminus, toList_enclosedIf, String.toList_ofList, String.toList_ofList,
      PowerTerm.chars]
    rfl
  | @power t x e p n hk hshown he hn htwo hx ih =>
    have hdigits : (intText n.toInt).toList = Nat.toDigits 10 n.toInt.toNat := by
      have hnat : n.toInt.natAbs = n.toInt.toNat := by omega
      rw [intText, if_neg (by omega), toList_toString, hnat]
    have hone : intText n.toInt ≠ "1" := by
      intro hone
      rw [hone] at hdigits
      have hvalue := congrArg (Nat.ofDigitChars 10 · 0) hdigits
      rw [Nat.ofDigitChars_ten_toDigits] at hvalue
      have : n.toInt.toNat = 1 := hvalue.symm
      omega
    rw [latex_power hk hshown ih (latex_integer he hn) hone, hx.childCount_eq]
    refine congrArg Except.ok (String.toList_inj.1 ?_)
    have hcaret : "^".toList = ['^'] := rfl
    rw [String.toList_append, String.toList_append, hcaret, toList_enclosedIf, toList_group, hdigits,
      String.toList_ofList, String.toList_ofList, PowerTerm.chars, List.append_assoc]
    rfl

end Denotes

/-- Trees of names, negations and powers with exponents from two on are written in LaTeX, and trees with
the same text are worth the same, whatever integers their names stand for, just if their tops are of
one kind or all exponents are odd. -/
theorem latex_powers_iff (style : Style) :
    (∀ t : Tree, t.IsPowerTerm (2 ≤ ·) → ∃ text, t.latex style = .ok text) ∧
    ∀ t t' : Tree, t.IsPowerTerm (2 ≤ ·) → t'.IsPowerTerm (2 ≤ ·) →
      t.latex style = t'.latex style →
      ((∀ ρ, t.powerValue ρ = t'.powerValue ρ) ↔ t.kind = t'.kind ∨ t.IsPowerTerm Odd) := by
  refine ⟨fun t h => ?_, fun t t' h h' heq => ?_⟩
  · obtain ⟨p, hp⟩ := h.exists_denotes
    exact ⟨_, hp.latex_eq⟩
  · obtain ⟨p, hp⟩ := h.exists_denotes
    obtain ⟨q, hq⟩ := h'.exists_denotes
    rw [hp.latex_eq, hq.latex_eq] at heq
    have hchars : p.chars = q.chars := String.ofList_injective (Except.ok.inj heq)
    simp only [hp.powerValue_eq_value, hq.powerValue_eq_value, hp.kind_eq, hq.kind_eq,
      hp.isPowerTerm_iff, Int.odd_coe_nat]
    exact PowerTerm.value_eq_iff_of_chars hchars

/-- A cube of an opposite and an opposite of a cube, which are written alike. -/
theorem latex_powers_iff_cube :
    let x : Tree := leaf (.identifier "x")
    let three : Tree := leaf (.integerLiteral 3)
    let negated : Tree := .node (.blank .unary .minus) [.node (.ofKind .power) [x, three]]
    let raised : Tree := .node (.ofKind .power) [.node (.blank .unary .minus) [x], three]
    (negated.IsPowerTerm (2 ≤ ·) ∧ raised.IsPowerTerm (2 ≤ ·) ∧
        negated.latex = .ok "-x^\x7b3\x7d" ∧ raised.latex = .ok "-x^\x7b3\x7d") ∧
      ∀ ρ, negated.powerValue ρ = raised.powerValue ρ := by
  intro x three negated raised
  have hx (P : ℤ → Prop) : x.IsPowerTerm P :=
    .name (w := .ofLetters "x" (by decide) rfl) rfl rfl rfl
  have hnegated (P : ℤ → Prop) (hP : P 3) : negated.IsPowerTerm P :=
    .negation rfl rfl rfl (.power rfl rfl rfl rfl hP (hx P))
  have hraised (P : ℤ → Prop) (hP : P 3) : raised.IsPowerTerm P :=
    .power rfl rfl rfl rfl hP (.negation rfl rfl rfl (hx P))
  have htext : negated.latex = .ok "-x^\x7b3\x7d" := by decide +kernel
  have htext' : raised.latex = .ok "-x^\x7b3\x7d" := by decide +kernel
  have htwo : negated.IsPowerTerm (2 ≤ ·) := hnegated _ (by decide)
  have htwo' : raised.IsPowerTerm (2 ≤ ·) := hraised _ (by decide)
  exact ⟨⟨htwo, htwo', htext, htext'⟩, ((latex_powers_iff {}).2 negated raised htwo htwo'
    (htext.trans htext'.symm)).2 (.inr (hnegated Odd (by decide)))⟩

/-- The square of an opposite and the opposite of a square are written alike and worth something
else. -/
theorem latex_squares_collide :
    let x : Tree := leaf (.identifier "x")
    let two : Tree := leaf (.integerLiteral 2)
    let negated : Tree := .node (.blank .unary .minus) [.node (.ofKind .power) [x, two]]
    let raised : Tree := .node (.ofKind .power) [.node (.blank .unary .minus) [x], two]
    (negated.IsPowerTerm (2 ≤ ·) ∧ raised.IsPowerTerm (2 ≤ ·)) ∧
      (negated.latex = .ok "-x^\x7b2\x7d" ∧ raised.latex = .ok "-x^\x7b2\x7d") ∧
      negated.powerValue (fun _ => 1) = -1 ∧ raised.powerValue (fun _ => 1) = 1 := by
  intro x two negated raised
  have hx : x.IsPowerTerm (2 ≤ ·) :=
    .name (w := .ofLetters "x" (by decide) rfl) rfl rfl rfl
  have htwo : (2 : ℤ) ≤ (2 : Int32).toInt := by decide
  refine ⟨⟨.negation rfl rfl rfl (.power rfl rfl rfl rfl htwo hx),
    .power rfl rfl rfl rfl htwo (.negation rfl rfl rfl hx)⟩, ?_⟩
  decide +kernel

end Tree

end MathTree
