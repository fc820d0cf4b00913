import Mathlib.Algebra.Field.Basic
import Mathlib.Algebra.BigOperators.Group.List.Basic
import MathTree.Render.Formula

/-!
# Reading infix text

`Infix.read` tells what a text is worth in which words stand for numbers, from left to right and with
the usual precedence: `*` and `/` bind tighter than `+` and `-`, and each of the four groups from the
left.  The rules of this module say how texts may be put together so that what the whole is worth
follows from what its parts are worth: `IsFactor`, `IsProduct` and `IsSum` tell where a text may stand.
-/

namespace MathTree.Infix

variable {K : Type} [DivisionRing K]

/-! ### The reader -/

/-- What a reader is waiting for. -/
inductive Due where
  | factor | divisor | sign
  deriving DecidableEq, Repr

/-- What has been read of a sum: the terms that are complete, and the factors of the last term. -/
structure Level (K : Type) where
  total : K
  term : K
  due : Due

/-- What has been read of a text: the sum in the innermost brackets, those around it, and the letters
of a word that may go on. -/
structure State (K : Type) where
  level : Level K
  outer : List (Level K)
  word : List Char

namespace Level

/-- Nothing has been read yet. -/
def fresh : Level K := ⟨0, 1, .factor⟩

def value (l : Level K) : K := l.total + l.term

/-- The next operand has been read. -/
def feed (l : Level K) (v : K) : Level K :=
  match l.due with
  | .factor => ⟨l.total, l.term * v, .sign⟩
  | .divisor => ⟨l.total, l.term / v, .sign⟩
  | .sign => l

end Level

def isSign (c : Char) : Bool :=
  c == '+' || c == '-' || c == '*' || c == '/' || c == '(' || c == ')'

/-- A word that starts with a digit is a number in decimal notation, and any other is a name. -/
def wordValue (ρ : String → K) (word : List Char) : K :=
  if (word.headD ' ').isDigit then (Nat.ofDigitChars 10 word 0 : K) else ρ (String.ofList word)

namespace State

/-- The word ends here. -/
def settle (ρ : String → K) (s : State K) : State K :=
  if s.word = [] then s else ⟨s.level.feed (wordValue ρ s.word), s.outer, []⟩

/-- A sign is read, and no word stands before it.  A minus that nothing stands before negates. -/
def sign (s : State K) : Char → State K
  | '+' => { s with level := ⟨s.level.value, 1, .factor⟩ }
  | '-' =>
    if s.level.due = .sign then { s with level := ⟨s.level.value, -1, .factor⟩ }
    else { s with level := { s.level with term := -s.level.term } }
  | '*' => { s with level := { s.level with due := .factor } }
  | '/' => { s with level := { s.level with due := .divisor } }
  | '(' => { s with level := .fresh, outer := s.level :: s.outer }
  | ')' =>
    match s.outer with
    | [] => s
    | l :: outer => { s with level := l.feed s.level.value, outer := outer }
  | _ => s

def step (ρ : String → K) (s : State K) (c : Char) : State K :=
  if isSign c then (s.settle ρ).sign c else { s with word := s.word ++ [c] }

def run (ρ : String → K) (s : State K) (text : List Char) : State K := text.foldl (step ρ) s

/-- The state after a text that ends here. -/
def after (ρ : String → K) (s : State K) (text : String) : State K := (s.run ρ text.toList).settle ρ

end State

/-- What a text is worth. -/
def read (ρ : String → K) (text : String) : K := (State.after ρ ⟨.fresh, [], []⟩ text).level.value

/-! ### Reading on -/

variable {ρ : String → K} {s : State K} {a b text : String} {v w : K}

theorem State.after_append (c : Char) (hc : isSign c) {sign : String} (hsign : sign.toList = [c]) :
    s.after ρ (a ++ sign ++ b) = ((s.after ρ a).sign c).after ρ b := by
  simp only [after, run, String.toList_append, hsign, List.foldl_append, List.foldl_cons,
    List.foldl_nil]
  rw [step, if_pos hc]

theorem State.after_empty {l : Level K} {outer : List (Level K)} :
    State.after ρ ⟨l, outer, []⟩ "" = ⟨l, outer, []⟩ := rfl

/-- A word goes on as long as no sign is read. -/
theorem State.run_of_not_sign {letters : List Char} (h : ∀ c ∈ letters, ¬ isSign c) :
    s.run ρ letters = { s with word := s.word ++ letters } := by
  induction letters generalizing s with
  | nil => simp [run]
  | cons c letters ih =>
    have hc := h c List.mem_cons_self
    have hrest := ih (s := s.step ρ c) fun d hd => h d (List.mem_cons_of_mem _ hd)
    rw [step, if_neg hc] at hrest
    rw [run, List.foldl_cons, ← run, step, if_neg hc, hrest, List.append_assoc]
    rfl

/-! ### Parts of texts -/

/-- Whether a text may stand wherever an operand is due. -/
def IsFactor (ρ : String → K) (text : String) (v : K) : Prop :=
  ∀ (l : Level K) (outer : List (Level K)), l.due ≠ .sign →
    State.after ρ ⟨l, outer, []⟩ text = ⟨l.feed v, outer, []⟩

/-- Whether a text may stand after a sign that binds no tighter than `*`. -/
def IsProduct (ρ : String → K) (text : String) (v : K) : Prop :=
  ∀ (l : Level K) (outer : List (Level K)), l.due = .factor →
    State.after ρ ⟨l, outer, []⟩ text = ⟨l.feed v, outer, []⟩

/-- Whether a text may stand in brackets, or alone. -/
def IsSum (ρ : String → K) (text : String) (v : K) : Prop :=
  ∀ outer, ∃ l : Level K, l.due = .sign ∧ l.value = v ∧
    State.after ρ ⟨.fresh, outer, []⟩ text = ⟨l, outer, []⟩

theorem IsFactor.product (h : IsFactor ρ text v) : IsProduct ρ text v :=
  fun l outer hdue => h l outer (hdue ▸ nofun)

theorem IsProduct.sum (h : IsProduct ρ text v) : IsSum ρ text v := by
  intro outer
  refine ⟨⟨0, 1 * v, .sign⟩, rfl, ?_, h _ _ rfl⟩
  rw [Level.value, one_mul, zero_add]

theorem IsSum.read_eq (h : IsSum ρ text v) : read ρ text = v := by
  obtain ⟨l, -, hv, hl⟩ := h []
  rw [read, hl, hv]

theorem isFactor_word (hne : text ≠ "") (h : ∀ c ∈ text.toList, ¬ isSign c) :
    IsFactor ρ text (wordValue ρ text.toList) := by
  intro l outer _
  rw [State.after, State.run_of_not_sign h, State.settle, List.nil_append, if_neg]
  simpa using hne

/-- Brackets are read apart, and what they hold stands for an operand. -/
theorem IsSum.brackets (h : IsSum ρ text v) : IsFactor ρ (Formula.brackets text) v := by
  intro l outer _
  obtain ⟨inner, -, hv, hinner⟩ := h (l :: outer)
  have hsplit : Formula.brackets text = "" ++ "(" ++ (text ++ ")" ++ "") := by
    simp [Formula.brackets, String.append_assoc]
  have hopen : (⟨l, outer, []⟩ : State K).sign '(' = ⟨.fresh, l :: outer, []⟩ := rfl
  have hclose : (⟨inner, l :: outer, []⟩ : State K).sign ')' = ⟨l.feed inner.value, outer, []⟩ := rfl
  rw [hsplit, State.after_append '(' rfl rfl, State.after_append ')' rfl rfl, State.after_empty,
    hopen, hinner, hclose, State.after_empty, hv]

theorem IsProduct.ne_empty (h : IsProduct ρ text v) : text ≠ "" := by
  rintro rfl
  have hdue := congrArg (fun s : State K => s.level.due) (h .fresh [] rfl)
  cases hdue

theorem IsProduct.mul (ha : IsProduct ρ a v) (hb : IsProduct ρ b w) :
    IsProduct ρ (a ++ "*" ++ b) (v * w) := by
  intro l outer hdue
  have hstar : (⟨l.feed v, outer, []⟩ : State K).sign '*'
      = ⟨⟨l.total, l.term * v, .factor⟩, outer, []⟩ := by
    simp only [State.sign, Level.feed, hdue]
  rw [State.after_append '*' rfl rfl, ha l outer hdue, hstar, hb _ _ rfl]
  simp only [Level.feed, hdue, mul_assoc]

theorem IsProduct.div (ha : IsProduct ρ a v) (hb : IsFactor ρ b w) :
    IsProduct ρ (a ++ "/" ++ b) (v / w) := by
  intro l outer hdue
  have hslash : (⟨l.feed v, outer, []⟩ : State K).sign '/'
      = ⟨⟨l.total, l.term * v, .divisor⟩, outer, []⟩ := by
    simp only [State.sign, Level.feed, hdue]
  rw [State.after_append '/' rfl rfl, ha l outer hdue, hslash, hb _ _ (Due.noConfusion ·)]
  simp only [Level.feed, hdue, mul_div_assoc]

theorem IsSum.add (ha : IsSum ρ a v) (hb : IsProduct ρ b w) : IsSum ρ (a ++ "+" ++ b) (v + w) := by
  intro outer
  obtain ⟨l, -, hv, hl⟩ := ha outer
  have hplus : (⟨l, outer, []⟩ : State K).sign '+' = ⟨⟨v, 1, .factor⟩, outer, []⟩ := by
    rw [← hv]
    rfl
  refine ⟨⟨v, 1 * w, .sign⟩, rfl, ?_, ?_⟩
  · rw [Level.value, one_mul]
  · rw [State.after_append '+' rfl rfl, hl, hplus, hb _ _ rfl]
    rfl

theorem IsSum.sub (ha : IsSum ρ a v) (hb : IsProduct ρ b w) : IsSum ρ (a ++ "-" ++ b) (v - w) := by
  intro outer
  obtain ⟨l, hdue, hv, hl⟩ := ha outer
  have hminus : (⟨l, outer, []⟩ : State K).sign '-' = ⟨⟨v, -1, .factor⟩, outer, []⟩ := by
    simp only [State.sign, hdue, if_true, hv]
  refine ⟨⟨v, -1 * w, .sign⟩, rfl, ?_, ?_⟩
  · rw [Level.value, neg_one_mul, sub_eq_add_neg]
  · rw [State.after_append '-' rfl rfl, hl, hminus, hb _ _ rfl]
    rfl

theorem IsProduct.neg (h : IsProduct ρ text v) : IsSum ρ ("-" ++ text) (-v) := by
  intro outer
  have hsplit : "-" ++ text = "" ++ "-" ++ text := by simp
  have hminus : (⟨.fresh, outer, []⟩ : State K).sign '-' = ⟨⟨0, -1, .factor⟩, outer, []⟩ := rfl
  refine ⟨⟨0, -1 * v, .sign⟩, rfl, ?_, ?_⟩
  · rw [Level.value, neg_one_mul, zero_add]
  · rw [hsplit, State.after_append '-' rfl rfl, State.after_empty, hminus, h _ _ rfl]
    rfl

/-! ### Words -/

/-- Whether a text is a name: none of its characters is a sign, and the first one is not a digit. -/
structure IsName (name : String) : Prop where
  ne_empty : name ≠ ""
  not_digit : ¬ (name.toList.headD ' ').isDigit
  not_sign : ∀ c ∈ name.toList, ¬ isSign c

theorem not_isSign_of_isAlphanum {c : Char} (h : c.isAlphanum ∨ c = '_') : ¬ isSign c := by
  intro hc
  simp only [isSign, Bool.or_eq_true, beq_iff_eq] at hc
  rcases hc with ((((rfl | rfl) | rfl) | rfl) | rfl) | rfl <;> revert h <;> decide

/-- Whatever starts with a letter and goes on with letters, digits and underscores is a name. -/
theorem isName_of_isAlpha {name : String} {c : Char} {cs : List Char} (h : name.toList = c :: cs)
    (hc : c.isAlpha) (hcs : cs.all fun d => d.isAlphanum || d == '_') : IsName name := by
  refine ⟨?_, fun hd => ?_, fun d hd => not_isSign_of_isAlphanum ?_⟩
  · rintro rfl
    cases h
  · rw [h] at hd
    have hdigit : c.val ≤ '9'.val := of_decide_eq_true (Bool.and_eq_true_iff.1 hd).2
    have hletter : 'A'.val ≤ c.val := by
      rcases Bool.or_eq_true_iff.1 hc with hc | hc
      · exact (of_decide_eq_true hc).1
      · exact UInt32.le_trans (by decide) (of_decide_eq_true (Bool.and_eq_true_iff.1 hc).1)
    exact absurd (UInt32.le_trans hletter hdigit) (by decide)
  · rw [h] at hd
    rcases List.mem_cons.1 hd with rfl | hd
    · left
      rw [Char.isAlphanum, hc]
      rfl
    · have hletter := List.all_eq_true.1 hcs d hd
      simpa using hletter

theorem IsName.isFactor {name : String} (h : IsName name) : IsFactor ρ name (ρ name) := by
  have hvalue : wordValue ρ name.toList = ρ name := by
    rw [wordValue, if_neg h.not_digit, String.ofList_toList]
  exact hvalue ▸ isFactor_word h.ne_empty h.not_sign

theorem isFactor_toString (n : Nat) : IsFactor ρ (toString n) n := by
  have hdigits : (toString n).toList = Nat.toDigits 10 n := by
    rw [Nat.toString_eq_ofList_toDigits, String.toList_ofList]
  have hdigit (c : Char) (hc : c ∈ Nat.toDigits 10 n) : c.isDigit :=
    Nat.isDigit_of_mem_toDigits (by decide) (by decide) hc
  have hvalue : wordValue ρ (toString n).toList = n := by
    rw [hdigits, wordValue, if_pos, Nat.ofDigitChars_ten_toDigits]
    obtain ⟨c, cs, hcs⟩ := List.exists_cons_of_ne_nil (Nat.toDigits_ne_nil (n := n) (b := 10))
    rw [hcs]
    exact hdigit c (hcs ▸ List.mem_cons_self)
  refine hvalue ▸ isFactor_word ?_ fun c hc => ?_
  · intro hempty
    rw [hempty] at hdigits
    exact Nat.toDigits_ne_nil hdigits.symm
  · refine not_isSign_of_isAlphanum (.inl ?_)
    rw [Char.isAlphanum, hdigit c (hdigits ▸ hc), Bool.or_true]

/-! ### Lists of operands -/

theorem isProduct_intercalate {α : Type} {texts : α → String} {values : α → K} {x : α} {xs : List α}
    (h : ∀ y ∈ x :: xs, IsProduct ρ (texts y) (values y)) :
    IsProduct ρ ("*".intercalate ((x :: xs).map texts)) ((x :: xs).map values).prod := by
  induction xs generalizing x with
  | nil => simpa using h
  | cons y ys ih =>
    have hx := h x List.mem_cons_self
    have hrest := ih fun z hz => h z (List.mem_cons_of_mem _ hz)
    rw [List.map_cons, List.map_cons, String.intercalate_cons_cons, List.map_cons (l := y :: ys),
      List.prod_cons]
    exact hx.mul hrest

theorem isSum_join {α : Type} {texts : α → String} {values : α → K} {first : String} {xs : List α}
    (hfirst : IsSum ρ first v) (h : ∀ x ∈ xs, IsProduct ρ (texts x) (values x)) :
    IsSum ρ (first ++ String.join (xs.map fun x => "+" ++ texts x)) (v + (xs.map values).sum) := by
  induction xs generalizing first v with
  | nil => simpa using hfirst
  | cons x xs ih =>
    have hx := hfirst.add (h x List.mem_cons_self)
    have hrest := ih hx fun y hy => h y (List.mem_cons_of_mem _ hy)
    rw [List.map_cons, String.join_cons, List.map_cons, List.sum_cons, ← add_assoc,
      ← String.append_assoc, ← String.append_assoc]
    exact hrest

end MathTree.Infix
